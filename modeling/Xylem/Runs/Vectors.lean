import Xylem.Runs.Registered
import Xylem.Runs.Last

namespace Xylem

open Xylem.Runtime

/-! ### Lazily filled cells -/

section Cells
variable {E : Env} {i j : Nat} {name name' : String} {me : ModEntry}

def slotCell (E : Env) (i : Nat) (name : String) (me : ModEntry) : Option FnSlot :=
  if (slotEntry E i name me).hookImplBits i then some ((slotEntry E i name me).fnCache i) else none

theorem slotEntry_idem (i : Nat) (name : String) (me : ModEntry) :
    slotEntry E i name (slotEntry E i name me) = slotEntry E i name me := by
  cases hb : me.hookImplBits i with
  | true => simp [slotEntry, hb]
  | false =>
      cases hf : me.fnCache i with
      | fn f => simp [slotEntry, hb, ModEntry.fnCacheResolve, hf]
      | notFound => simp [slotEntry, hb, ModEntry.fnCacheResolve, hf]
      | null =>
          cases hd : E.dlsym me.handle name with
          | some f => simp [slotEntry, hb, ModEntry.fnCacheResolve, hf, hd]
          | none => simp [slotEntry, hb, ModEntry.fnCacheResolve, hf, hd]

theorem slotCell_other (h : j ≠ i) (me : ModEntry) :
    slotCell E j name' (slotEntry E i name me) = slotCell E j name' me := by
  have hcell : (slotEntry E i name me).fnCache j = me.fnCache j ∧
      (slotEntry E i name me).hookImplBits j = me.hookImplBits j ∧
      (slotEntry E i name me).handle = me.handle := by
    unfold slotEntry ModEntry.fnCacheResolve
    split
    · exact ⟨rfl, rfl, rfl⟩
    · cases hf : me.fnCache i with
      | fn f => exact ⟨rfl, rfl, rfl⟩
      | notFound => exact ⟨rfl, rfl, rfl⟩
      | null => cases E.dlsym me.handle name <;> simp [h]
  obtain ⟨h1, h2, h3⟩ := hcell
  have key : ∀ {a b : ModEntry}, a.fnCache j = b.fnCache j → a.hookImplBits j = b.hookImplBits j →
      a.handle = b.handle → slotCell E j name' a = slotCell E j name' b := by
    intro a b e1 e2 e3
    unfold slotCell slotEntry ModEntry.fnCacheResolve
    rw [e1, e2, e3]
    cases hb : b.hookImplBits j with
    | true => simp [e1, e2, hb]
    | false =>
        cases hf : b.fnCache j with
        | fn f => simp [e2, hb]
        | notFound => simp [e2, hb]
        | null => cases hd : E.dlsym b.handle name' <;> simp [e2, hb]
  exact key h1 h2 h3

theorem slotCell_self (i : Nat) (name : String) (me : ModEntry) :
    slotCell E i name (slotEntry E i name me) = slotCell E i name me := by
  unfold slotCell
  rw [slotEntry_idem]

end Cells

/-- The slots that a call walks, and their number. -/
def HookDispatchCache.walked (c : HookDispatchCache) : List Slot × Nat :=
  (c.slots.take c.count, c.count)

namespace Runtime
variable {E : Env} {s t : Runtime}

/-! ### Lists and vectors as a call would find them -/

structure SameLists (s t : Runtime) : Prop where
  next : t.regionNext = s.regionNext
  entryNext : t.entryNext = s.entryNext
  regionNext : ∀ p, (t.entries p).map ModEntry.regionNext = (s.entries p).map ModEntry.regionNext
  head : ∀ r, (t.regions r).modsHead = (s.regions r).modsHead
  children : ∀ r, (t.regions r).children = (s.regions r).children

theorem SameLists.modsFrom (h : SameLists s t) (n : Nat) (o : Option EntryPtr) :
    t.regionModsFrom n o = s.regionModsFrom n o := by
  induction n generalizing o with
  | zero => cases o <;> rfl
  | succ n ih =>
      cases o with
      | none => rfl
      | some p =>
          have hp := h.regionNext p
          unfold regionModsFrom
          simp only [deref]
          cases ht : t.entries p with
          | none =>
              rw [ht] at hp
              cases hs : s.entries p with
              | none => rfl
              | some e =>
                  rw [hs] at hp
                  cases hp
          | some e =>
              rw [ht] at hp
              cases hs : s.entries p with
              | none =>
                  rw [hs] at hp
                  cases hp
              | some e' =>
                  rw [hs] at hp
                  have hn : e.regionNext = e'.regionNext := Option.some.inj hp
                  simp only [bind, Except.bind, hn, ih]

theorem SameLists.collect (h : SameLists s t) (n : Nat) (r : RegionPtr) :
    t.regionCollectSubtreeMods n r = s.regionCollectSubtreeMods n r := by
  induction n generalizing r with
  | zero => rfl
  | succ n ih =>
      have hfun : t.regionCollectSubtreeMods n = s.regionCollectSubtreeMods n := funext ih
      unfold regionCollectSubtreeMods regionMods
      rw [h.head, h.children, h.entryNext, h.modsFrom, hfun]

/-- The flat list of a region, after a rebuild if it is due. -/
def listed (s : Runtime) (r : RegionPtr) : Res (List EntryPtr) :=
  if (s.regions r).subtreeModsDirty then s.regionCollectSubtreeMods s.regionNext r
  else .ok (s.regions r).subtreeMods

/-- The slot that module `p` gets, if it gets one. -/
def slotOf (E : Env) (s : Runtime) (i : Nat) (name : String) (anc : List RegionPtr)
    (p : EntryPtr) : Option Slot :=
  (s.entries p).bind fun me =>
    if me.ctx.isNone || anc.any fun a => s.moduleIsDenied a me.loadPath then none
    else (slotCell E i name me).map (Slot.mk p)

/-- The slots that a call walks and their number, after a rebuild if one is due. -/
def vector (E : Env) (s : Runtime) (r : RegionPtr) (i : Nat) (name : String) :
    Res (List Slot × Nat) :=
  let cache := (s.regions r).hookDispatch i
  if cache.regionGen = (s.regions r).dispatchGen then .ok cache.walked
  else (s.listed r).map fun l =>
    let v := l.filterMap (s.slotOf E i name (s.callChain r))
    (v, v.length)

/-- `t` may have filled in lists, cells and vectors of `s`: a call finds the same in both. -/
structure Alike (E : Env) (s t : Runtime) : Prop where
  hooks : t.hookIdHd = s.hookIdHd
  lists : SameLists s t
  nodes : ∀ r, (t.regions r).toRegionNode = (s.regions r).toRegionNode
  listed : ∀ r, t.listed r = s.listed r
  slots : ∀ i name, s.hookIdHd.lookup name = some i → ∀ anc p,
    t.slotOf E i name anc p = s.slotOf E i name anc p
  vectors : ∀ i name, s.hookIdHd.lookup name = some i → ∀ r,
    t.vector E r i name = s.vector E r i name

theorem SameLists.trans {u : Runtime} (h : SameLists s t) (k : SameLists t u) : SameLists s u :=
  ⟨k.next.trans h.next, k.entryNext.trans h.entryNext,
    fun p => (k.regionNext p).trans (h.regionNext p), fun r => (k.head r).trans (h.head r),
    fun r => (k.children r).trans (h.children r)⟩

theorem Alike.refl (s : Runtime) : Alike E s s :=
  ⟨rfl, ⟨rfl, rfl, fun _ => rfl, fun _ => rfl, fun _ => rfl⟩, fun _ => rfl, fun _ => rfl,
    fun _ _ _ _ _ => rfl, fun _ _ _ _ => rfl⟩

theorem Alike.trans {u : Runtime} (h : Alike E s t) (k : Alike E t u) : Alike E s u := by
  have hk : ∀ {i name}, s.hookIdHd.lookup name = some i → t.hookIdHd.lookup name = some i := by
    intro i name hi
    rw [h.hooks]
    exact hi
  exact ⟨k.hooks.trans h.hooks, h.lists.trans k.lists, fun r => (k.nodes r).trans (h.nodes r),
    fun r => (k.listed r).trans (h.listed r),
    fun i name hi anc p => (k.slots i name (hk hi) anc p).trans (h.slots i name hi anc p),
    fun i name hi r => (k.vectors i name (hk hi) r).trans (h.vectors i name hi r)⟩

theorem callChain_congr (h : ∀ r, (t.regions r).toRegionNode = (s.regions r).toRegionNode)
    (r : RegionPtr) : t.callChain r = s.callChain r := by
  have hparent : t.parentOf = s.parentOf :=
    funext fun x => congrArg (fun n : RegionNode => n.parent) (h x)
  have hdeny : (t.regions r).hasDeny = (s.regions r).hasDeny := congrArg RegionNode.hasDeny (h r)
  unfold callChain regionAncestorChain
  rw [hdeny, hparent]

theorem moduleIsDenied_congr (h : ∀ r, (t.regions r).toRegionNode = (s.regions r).toRegionNode)
    (r : RegionPtr) (path : String) : t.moduleIsDenied r path = s.moduleIsDenied r path := by
  have h1 : (t.regions r).deniedModulesSet = (s.regions r).deniedModulesSet :=
    congrArg RegionNode.deniedModulesSet (h r)
  have h2 : (t.regions r).deniedModules = (s.regions r).deniedModules :=
    congrArg RegionNode.deniedModules (h r)
  unfold moduleIsDenied
  rw [h1, h2]

/-- Filling one thing in changes no other, if it leaves the cache of every other vector. -/
theorem Alike.of_caches (hooks : t.hookIdHd = s.hookIdHd) (lists : SameLists s t)
    (nodes : ∀ r, (t.regions r).toRegionNode = (s.regions r).toRegionNode)
    (listed : ∀ r, t.listed r = s.listed r)
    (slots : ∀ i name, s.hookIdHd.lookup name = some i → ∀ anc p,
      t.slotOf E i name anc p = s.slotOf E i name anc p)
    (gens : ∀ r, (t.regions r).dispatchGen = (s.regions r).dispatchGen)
    (caches : ∀ i name, s.hookIdHd.lookup name = some i → ∀ r,
      (t.regions r).hookDispatch i = (s.regions r).hookDispatch i ∨
        t.vector E r i name = s.vector E r i name) : Alike E s t := by
  refine ⟨hooks, lists, nodes, listed, slots, fun i name hi r => ?_⟩
  rcases caches i name hi r with hc | hv
  · unfold vector
    rw [hc, gens r, listed r, callChain_congr nodes r]
    have hfun : t.slotOf E i name (s.callChain r) = s.slotOf E i name (s.callChain r) :=
      funext fun p => slots i name hi _ p
    rw [hfun]
  · exact hv

theorem slotOf_congr (hn : ∀ r, (t.regions r).toRegionNode = (s.regions r).toRegionNode)
    {p : EntryPtr} (he : t.entries p = s.entries p) (i : Nat) (name : String) (anc : List RegionPtr) :
    t.slotOf E i name anc p = s.slotOf E i name anc p := by
  unfold slotOf
  rw [he]
  simp only [moduleIsDenied_congr hn]

theorem slotOf_me {i : Nat} {name : String} {anc : List RegionPtr} {p : EntryPtr} {slot : Slot}
    (h : s.slotOf E i name anc p = some slot) : slot.me = p := by
  unfold slotOf at h
  obtain ⟨e, -, h⟩ := Option.bind_eq_some_iff.mp h
  split at h
  · cases h
  · obtain ⟨c, -, rfl⟩ := Option.map_eq_some_iff.mp h
    rfl

theorem ensureMods_alike {r : RegionPtr} (h : s.regionEnsureSubtreeMods r = .ok t) :
    Alike E s t ∧ s.listed r = .ok (t.regions r).subtreeMods ∧
      (t.regions r).subtreeModsDirty = false ∧
      ∀ i, (t.regions r).hookDispatch i = (s.regions r).hookDispatch i := by
  rcases regionEnsureSubtreeMods_cases h with ⟨hd, h⟩ | ⟨hd, rfl⟩
  · obtain ⟨l, hl, h⟩ := Res.bind_ok.mp h
    cases h
    have field : ∀ {γ : Type} (g : RegionEntry → γ),
        (∀ re : RegionEntry, g { re with subtreeMods := l, subtreeModsDirty := false } = g re) →
        ∀ x, g ((s.setRegion r fun re =>
          { re with subtreeMods := l, subtreeModsDirty := false }).regions x) = g (s.regions x) := by
      intro γ g hg x
      rw [regions_setRegion]
      split
      · rename_i hx
        rw [hx]
        exact hg _
      · rfl
    have hlists : SameLists s
        (s.setRegion r fun re => { re with subtreeMods := l, subtreeModsDirty := false }) :=
      ⟨rfl, rfl, fun _ => rfl, field (·.modsHead) fun _ => rfl, field (·.children) fun _ => rfl⟩
    have hnodes := field (fun re => re.toRegionNode) fun _ => rfl
    have hlisted : s.listed r = .ok l := by
      unfold listed
      rw [hd, if_pos rfl]
      exact hl
    refine ⟨Alike.of_caches rfl hlists hnodes (fun x => ?_)
      (fun i name _ anc p => slotOf_congr hnodes rfl i name anc) (field (·.dispatchGen) fun _ => rfl)
      fun i name _ x => .inl (field (fun re => re.hookDispatch i) (fun _ => rfl) x), ?_, ?_, fun i => ?_⟩
    · by_cases hx : x = r
      · subst hx
        rw [hlisted]
        simp [listed, regions_setRegion]
      · unfold listed
        rw [hlists.collect, regions_setRegion, if_neg hx]
        rfl
    · rw [hlisted, regions_setRegion, if_pos rfl]
    · rw [regions_setRegion, if_pos rfl]
    · rw [regions_setRegion, if_pos rfl]
  · refine ⟨.refl t, ?_, hd, fun _ => rfl⟩
    unfold listed
    rw [hd]
    rfl

/-- Entries of `t` may have looked up the symbol of hook `i`. -/
structure Touched (E : Env) (i : Nat) (name : String) (s t : Runtime) : Prop where
  rest : ∃ entries, t = { s with entries := entries }
  entries : ∀ p, t.entries p = s.entries p ∨
    ∃ me, s.entries p = some me ∧ t.entries p = some (slotEntry E i name me)

theorem Touched.refl {i : Nat} {name : String} (s : Runtime) : Touched E i name s s :=
  ⟨⟨s.entries, rfl⟩, fun _ => .inl rfl⟩

theorem Touched.trans {i : Nat} {name : String} {u : Runtime} (h : Touched E i name s t)
    (k : Touched E i name t u) : Touched E i name s u := by
  obtain ⟨e1, h1⟩ := h.rest
  obtain ⟨e2, h2⟩ := k.rest
  refine ⟨⟨e2, by rw [h2, h1]⟩, fun p => ?_⟩
  rcases k.entries p with hk | ⟨me, hme, hk⟩
  · rw [hk]
    exact h.entries p
  · rcases h.entries p with hp | ⟨me', hme', hp⟩
    · exact .inr ⟨me, hp ▸ hme, hk⟩
    · obtain rfl : slotEntry E i name me' = me := Option.some.inj (hp.symm.trans hme)
      rw [slotEntry_idem] at hk
      exact .inr ⟨me', hme', hk⟩

theorem Touched.slotOf {i j : Nat} {name name' : String} (h : Touched E i name s t)
    (hname : j = i → name' = name) (anc : List RegionPtr) (p : EntryPtr) :
    t.slotOf E j name' anc p = s.slotOf E j name' anc p := by
  obtain ⟨entries, ht⟩ := h.rest
  have hn : ∀ r, (t.regions r).toRegionNode = (s.regions r).toRegionNode := fun r => by rw [ht]
  rcases h.entries p with hp | ⟨me, hme, hp⟩
  · exact slotOf_congr hn hp j name' anc
  · have hcell : slotCell E j name' (slotEntry E i name me) = slotCell E j name' me := by
      by_cases hj : j = i
      · rw [hname hj, hj]
        exact slotCell_self i name me
      · exact slotCell_other hj me
    have hcore := (slotEntry_same (E := E) i name me).1
    have hctx : (slotEntry E i name me).ctx = me.ctx := (congrArg ModEntry.ctx hcore : _)
    have hpath : (slotEntry E i name me).loadPath = me.loadPath := (congrArg ModEntry.loadPath hcore : _)
    unfold Runtime.slotOf
    rw [hp, hme]
    simp only [Option.bind_some, hctx, hpath, hcell, moduleIsDenied_congr hn]

theorem Touched.sameLists {i : Nat} {name : String} (h : Touched E i name s t) : SameLists s t := by
  obtain ⟨entries, ht⟩ := h.rest
  refine ⟨by rw [ht], by rw [ht], fun p => ?_, fun r => by rw [ht], fun r => by rw [ht]⟩
  rcases h.entries p with hp | ⟨me, hme, hp⟩
  · rw [hp]
  · rw [hp, hme, Option.map_some, Option.map_some, (slotEntry_same (E := E) i name me).2.2]

theorem push_take {c : HookDispatchCache} {x : Slot} (h : c.count ≤ c.slots.length) :
    (c.push x).slots.take (c.push x).count = c.slots.take c.count ++ [x] ∧
      (c.push x).count ≤ (c.push x).slots.length := by
  have hlen : (c.slots.take c.count).length = c.count := List.length_take_of_le h
  have key : ∀ d : HookDispatchCache, d.slots = c.slots → d.count = c.count →
      (d.slots.take d.count ++ [x] ++ d.slots.drop (d.count + 1)).take (d.count + 1) =
        c.slots.take c.count ++ [x] ∧
      d.count + 1 ≤ (d.slots.take d.count ++ [x] ++ d.slots.drop (d.count + 1)).length := by
    intro d hs hc
    rw [hs, hc]
    have hl : (c.slots.take c.count ++ [x]).length = c.count + 1 := by simp [hlen]
    constructor
    · rw [List.take_append_of_le_length (by rw [hl]), List.take_of_length_le (by rw [hl])]
    · rw [List.length_append, hl]
      exact Nat.le_add_right _ _
  unfold HookDispatchCache.push
  simp only
  split
  · exact key _ rfl rfl
  · exact key c rfl rfl

/-- A pass over the modules: the slots it writes, and the cells it fills. -/
theorem rebuildFold_slots {i : Nat} {name : String} {anc : List RegionPtr} {l : List EntryPtr}
    {c d : HookDispatchCache} (hc : c.count ≤ c.slots.length)
    (h : l.foldlM (regionRebuildSlot E i name anc) (s, c) = .ok (t, d)) :
    Touched E i name s t ∧ d.count ≤ d.slots.length ∧
      d.slots.take d.count = c.slots.take c.count ++ l.filterMap (s.slotOf E i name anc) := by
  induction l generalizing s c with
  | nil =>
      cases h
      exact ⟨.refl _, hc, by simp⟩
  | cons p l ih =>
      rw [List.foldlM_cons] at h
      obtain ⟨⟨m, c'⟩, hm, h⟩ := Res.bind_ok.mp h
      have key : Touched E i name s m ∧ c'.count ≤ c'.slots.length ∧
          c'.slots.take c'.count = c.slots.take c.count ++ [p].filterMap (s.slotOf E i name anc) := by
        obtain ⟨me, he, ⟨hskip, hacc⟩ | ⟨hctx, hany, hacc⟩⟩ := regionRebuildSlot_cases hm
        · cases hacc
          have hnone : s.slotOf E i name anc p = none := by
            unfold Runtime.slotOf
            rw [he, Option.bind_some, if_pos]
            rcases hskip with hs | hs
            · rw [hs]
              rfl
            · rw [hs, Bool.or_true]
          exact ⟨.refl _, hc, by simp [hnone]⟩
        · have hslot : s.slotOf E i name anc p = (slotCell E i name me).map (Slot.mk p) := by
            unfold Runtime.slotOf
            rw [he, Option.bind_some, if_neg]
            simp [hctx, hany]
          have htouch : Touched E i name s (s.setEntry p (some (slotEntry E i name me))) := by
            refine ⟨⟨_, rfl⟩, fun q => ?_⟩
            by_cases hq : q = p
            · subst hq
              exact .inr ⟨me, he, Function.update_self ..⟩
            · exact .inl (Function.update_of_ne hq _ _)
          cases hacc
          refine ⟨htouch, ?_⟩
          split
          · rename_i hb
            obtain ⟨h1, h2⟩ := push_take (x := ⟨p, (slotEntry E i name me).fnCache i⟩) hc
            exact ⟨h2, by simp [h1, hslot, slotCell, hb]⟩
          · rename_i hb
            exact ⟨hc, by simp [hslot, slotCell, hb]⟩
      obtain ⟨h1, h2, h3⟩ := key
      obtain ⟨k1, k2, k3⟩ := ih h2 h
      refine ⟨h1.trans k1, k2, ?_⟩
      have hfun : m.slotOf E i name anc = s.slotOf E i name anc :=
        funext fun q => h1.slotOf (fun _ => rfl) anc q
      rw [k3, h3, hfun, List.append_assoc, ← List.filterMap_append, List.singleton_append]

/-- The vector of one region and hook is replaced by what a call would have found. -/
theorem rebuildVector_alike {m u : Runtime} {r : RegionPtr} {i : Nat} {name : String}
    {cache c : HookDispatchCache}
    (hreg : ∀ name', m.hookIdHd.lookup name' = some i → name' = name)
    (hclean : (m.regions r).subtreeModsDirty = false)
    (hstale : ((m.regions r).hookDispatch i).regionGen ≠ (m.regions r).dispatchGen)
    (hc : c.count = 0)
    (hf : (m.regions r).subtreeMods.foldlM (regionRebuildSlot E i name (m.callChain r)) (m, c) =
      .ok (u, cache)) :
    Alike E m (u.setRegion r fun re => { re with
        hookDispatch := Function.update re.hookDispatch i
          { cache with regionGen := (m.regions r).dispatchGen } }) ∧
      m.vector E r i name = .ok cache.walked := by
  obtain ⟨htouch, hcount, hslots⟩ := rebuildFold_slots (hc ▸ Nat.zero_le _) hf
  obtain ⟨entries, hu⟩ := htouch.rest
  have hreg' : ∀ {j name'}, m.hookIdHd.lookup name' = some j → j = i → name' = name := by
    rintro j name' hj rfl
    exact hreg name' hj
  generalize hf' : (fun re : RegionEntry => { re with
    hookDispatch := Function.update re.hookDispatch i
      { cache with regionGen := (m.regions r).dispatchGen } }) = f
  have field : ∀ {γ : Type} (g : RegionEntry → γ), (∀ re : RegionEntry, g (f re) = g re) →
      ∀ x, g ((u.setRegion r f).regions x) = g (m.regions x) := by
    intro γ g hg x
    have hux : u.regions = m.regions := by rw [hu]
    rw [regions_setRegion, hux]
    split
    · rename_i hx
      rw [hg, hx]
    · rfl
  have hnodes := field (fun re => re.toRegionNode) fun re => by rw [← hf']
  have hgens := field (fun re => re.dispatchGen) fun re => by rw [← hf']
  have hmods := field (fun re => re.subtreeMods) fun re => by rw [← hf']
  have hdirty := field (fun re => re.subtreeModsDirty) fun re => by rw [← hf']
  have hlists : SameLists m (u.setRegion r f) := by
    have hul := htouch.sameLists
    exact ⟨hul.next, hul.entryNext, hul.regionNext,
      field (fun re => re.modsHead) fun re => by rw [← hf'],
      field (fun re => re.children) fun re => by rw [← hf']⟩
  have hcell : ((u.setRegion r f).regions r).hookDispatch i =
      { cache with regionGen := (m.regions r).dispatchGen } := by
    rw [regions_setRegion, if_pos rfl, ← hf']
    exact Function.update_self ..
  have hvector : m.vector E r i name = .ok cache.walked := by
    rw [hc, List.take_zero, List.nil_append] at hslots
    have hlen := congrArg List.length hslots
    rw [List.length_take, Nat.min_eq_left hcount] at hlen
    unfold vector
    rw [if_neg hstale]
    unfold listed HookDispatchCache.walked
    rw [hclean, hslots, hlen]
    rfl
  refine ⟨Alike.of_caches (by rw [← hf', hu]; rfl) hlists hnodes (fun x => ?_)
    (fun j name' hj anc p => ?_) hgens fun j name' hj x => ?_, hvector⟩
  · unfold listed
    rw [hdirty x, hmods x, hlists.collect, hlists.next]
  · have hset : (u.setRegion r f).slotOf E j name' anc p = u.slotOf E j name' anc p := by
      have hn : ∀ x, ((u.setRegion r f).regions x).toRegionNode = (u.regions x).toRegionNode := by
        intro x
        have hux : u.regions = m.regions := by rw [hu]
        rw [hux]
        exact hnodes x
      exact slotOf_congr hn rfl j name' anc
    exact hset.trans (htouch.slotOf (hreg' hj) anc p)
  · by_cases hx : x = r ∧ j = i
    · obtain ⟨rfl, rfl⟩ := hx
      obtain rfl := hreg' hj rfl
      refine .inr ?_
      rw [hvector]
      unfold vector
      rw [hcell, hgens x, if_pos rfl]
      rfl
    · refine .inl ?_
      have hux : u.regions = m.regions := by rw [hu]
      rw [regions_setRegion, hux]
      split
      · rename_i hxr
        have hj : j ≠ i := fun hji => hx ⟨hxr, hji⟩
        rw [← hf', hxr]
        exact Function.update_of_ne hj _ _
      · rfl

/-- The vector of a region and hook is brought up to date, and no call sees a difference. -/
theorem callVector_alike {r : RegionPtr} {i : Nat} {name : String}
    (hreg : ∀ name', s.hookIdHd.lookup name' = some i → name' = name)
    (hi : s.hookIdHd.lookup name = some i) (h : s.callVector E r i name = .ok t) :
    Alike E s t ∧ s.vector E r i name =
      .ok ((t.regions r).hookDispatch i).walked := by
  obtain ⟨m, hm, h⟩ := Res.bind_ok.mp h
  obtain ⟨ha, -, hclean, -⟩ := ensureMods_alike (E := E) hm
  have hreg' : ∀ name', m.hookIdHd.lookup name' = some i → name' = name := by
    rw [ha.hooks]
    exact hreg
  rw [← ha.vectors i name hi r]
  split at h
  · rename_i hstale
    obtain ⟨n, hn, hcase⟩ := regionRebuildHookDispatch_cases h
    have hnm : n = m := by
      rcases regionEnsureSubtreeMods_cases hn with ⟨hd, -⟩ | ⟨-, hnm⟩
      · rw [hclean] at hd
        cases hd
      · exact hnm
    rw [hnm] at hcase
    rcases hcase with ⟨hfresh, -⟩ | ⟨-, u, cache, hf, ht⟩
    · exact absurd hfresh hstale
    · obtain ⟨hv, hslots⟩ := rebuildVector_alike hreg' hclean hstale rfl hf
      rw [← ht] at hv
      refine ⟨ha.trans hv, hslots.trans ?_⟩
      rw [ht, regions_setRegion, if_pos rfl]
      simp [HookDispatchCache.walked]
  · rename_i hfresh
    cases h
    refine ⟨ha, ?_⟩
    unfold vector
    rw [if_pos (not_not.mp hfresh)]

end Runtime
end Xylem
