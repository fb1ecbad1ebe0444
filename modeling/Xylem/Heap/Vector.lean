import Xylem.Heap.Prims

namespace Xylem
namespace Runtime
variable {s t : Runtime} {E : Env}

theorem fnCacheResolve_same (i : Nat) (name : String) (me : ModEntry) :
    (me.fnCacheResolve E i name).1.core = me.core ∧
      (me.fnCacheResolve E i name).1.regionPrev = me.regionPrev ∧
      (me.fnCacheResolve E i name).1.regionNext = me.regionNext := by
  refine ⟨ModEntry.fnCacheResolve_core E me i name, ?_⟩
  unfold ModEntry.fnCacheResolve
  split
  · exact ⟨rfl, rfl⟩
  · exact ⟨rfl, rfl⟩
  · split <;> exact ⟨rfl, rfl⟩

theorem fnCachePrewarm_same (hooks : List ((_ : String) × Nat)) (me : ModEntry) :
    (me.fnCachePrewarm E hooks).core = me.core ∧
      (me.fnCachePrewarm E hooks).regionPrev = me.regionPrev ∧
      (me.fnCachePrewarm E hooks).regionNext = me.regionNext := by
  unfold ModEntry.fnCachePrewarm
  induction hooks generalizing me with
  | nil => exact ⟨rfl, rfl, rfl⟩
  | cons h hooks ih =>
      obtain ⟨h1, h2, h3⟩ := ih (me.fnCacheResolve E h.2 h.1).1
      obtain ⟨k1, k2, k3⟩ := fnCacheResolve_same (E := E) h.2 h.1 me
      exact ⟨h1.trans k1, h2.trans k2, h3.trans k3⟩

/-- The entry as it stands after its slot of hook `i` was looked at. -/
def slotEntry (E : Env) (i : Nat) (name : String) (me : ModEntry) : ModEntry :=
  if me.hookImplBits i then me else (me.fnCacheResolve E i name).1

theorem slotEntry_same (i : Nat) (name : String) (me : ModEntry) :
    (slotEntry E i name me).core = me.core ∧
      (slotEntry E i name me).regionPrev = me.regionPrev ∧
      (slotEntry E i name me).regionNext = me.regionNext := by
  unfold slotEntry
  split
  · exact ⟨rfl, rfl, rfl⟩
  · exact fnCacheResolve_same i name me

/-- One round: a module without a context or denied is passed over; any other
is resolved, and gets a slot if it implements the hook. -/
theorem regionRebuildSlot_cases {i : Nat} {name : String} {anc : List RegionPtr}
    {c : HookDispatchCache} {p : EntryPtr} {acc : Runtime × HookDispatchCache}
    (h : regionRebuildSlot E i name anc (s, c) p = .ok acc) :
    ∃ me, s.entries p = some me ∧
      ((me.ctx = none ∨ anc.any fun a => s.moduleIsDenied a me.loadPath) ∧ acc = (s, c) ∨
        me.ctx ≠ none ∧ (anc.any fun a => s.moduleIsDenied a me.loadPath) = false ∧
        acc = (s.setEntry p (some (slotEntry E i name me)),
          if (slotEntry E i name me).hookImplBits i then
            c.push ⟨p, (slotEntry E i name me).fnCache i⟩ else c)) := by
  obtain ⟨me, he, h⟩ := Res.bind_ok.mp h
  refine ⟨me, deref_ok.mp he, ?_⟩
  split at h
  · rename_i hc
    cases h
    exact .inl ⟨.inl (by simpa using hc), rfl⟩
  · rename_i hc
    split at h
    · rename_i hd
      cases h
      exact .inl ⟨.inr hd, rfl⟩
    · rename_i hd
      refine .inr ⟨by simpa using hc, by simpa using hd, ?_⟩
      have hacc : (if (slotEntry E i name me).hookImplBits i then
          (.ok (s.setEntry p (some (slotEntry E i name me)),
            c.push ⟨p, (slotEntry E i name me).fnCache i⟩) : Res (Runtime × HookDispatchCache))
          else .ok (s.setEntry p (some (slotEntry E i name me)), c)) = .ok acc := h
      split at hacc
      · rename_i hb
        cases hacc
        rw [if_pos hb]
      · rename_i hb
        cases hacc
        rw [if_neg hb]

/-- What filling a vector may do to the runtime: resolve symbols. -/
structure Resolved (s t : Runtime) : Prop where
  rest : ∃ entries, t = { s with entries := entries }
  core : t.core = s.core
  links : t.links = s.links

theorem Resolved.refl (s : Runtime) : Resolved s s := ⟨⟨_, rfl⟩, rfl, rfl⟩

theorem Resolved.trans {u : Runtime} (h : Resolved s t) (k : Resolved t u) : Resolved s u := by
  obtain ⟨e1, h1⟩ := h.rest
  obtain ⟨e2, h2⟩ := k.rest
  refine ⟨⟨e2, ?_⟩, k.core.trans h.core, k.links.trans h.links⟩
  rw [h2, h1]

theorem setEntry_resolved {i : Nat} {name : String} {p : EntryPtr} {me : ModEntry}
    (h : s.entries p = some me) : Resolved s (s.setEntry p (some (slotEntry E i name me))) := by
  obtain ⟨h1, h2, h3⟩ := slotEntry_same (E := E) i name me
  refine ⟨⟨_, rfl⟩, setEntry_core_same h h1, ?_⟩
  funext q
  rw [links_setEntry]
  by_cases hq : q = p
  · subst hq
    simp [links, h, h2, h3]
  · simp [hq]

theorem regionRebuildSlot_resolved {i : Nat} {name : String} {anc : List RegionPtr}
    {c : HookDispatchCache} {p : EntryPtr} {acc : Runtime × HookDispatchCache}
    (h : regionRebuildSlot E i name anc (s, c) p = .ok acc) : Resolved s acc.1 := by
  obtain ⟨me, he, ⟨-, rfl⟩ | ⟨-, -, rfl⟩⟩ := regionRebuildSlot_cases h
  · exact .refl s
  · exact setEntry_resolved he

theorem rebuildFold_resolved {i : Nat} {name : String} {anc : List RegionPtr} {l : List EntryPtr}
    {acc acc' : Runtime × HookDispatchCache}
    (h : l.foldlM (regionRebuildSlot E i name anc) acc = .ok acc') : Resolved acc.1 acc'.1 :=
  foldlM_rel (fun a b : Runtime × HookDispatchCache => Resolved a.1 b.1) (fun _ => .refl _)
    (fun _ _ _ => .trans) (fun _ _ _ h => regionRebuildSlot_resolved h) h

theorem regionEnsureSubtreeMods_cases {r : RegionPtr} (h : s.regionEnsureSubtreeMods r = .ok t) :
    (s.regions r).subtreeModsDirty = true ∧ s.regionRebuildSubtreeMods r = .ok t ∨
      (s.regions r).subtreeModsDirty = false ∧ t = s := by
  unfold regionEnsureSubtreeMods at h
  split at h
  · exact .inl ⟨‹_›, h⟩
  · rename_i hd
    cases h
    exact .inr ⟨by simpa using hd, rfl⟩

/-- The rebuild: the flat list first, then nothing if the vector is current,
else a pass over the list and the vector with the region's generation. -/
theorem regionRebuildHookDispatch_cases {r : RegionPtr} {i : Nat} {name : String}
    {anc : List RegionPtr} (h : s.regionRebuildHookDispatch E r i name anc = .ok t) :
    ∃ m, s.regionEnsureSubtreeMods r = .ok m ∧
      (((m.regions r).hookDispatch i).regionGen = (m.regions r).dispatchGen ∧ t = m ∨
        ((m.regions r).hookDispatch i).regionGen ≠ (m.regions r).dispatchGen ∧
        ∃ m' cache, (m.regions r).subtreeMods.foldlM (regionRebuildSlot E i name anc)
            (m, { (m.regions r).hookDispatch i with count := 0 }) = .ok (m', cache) ∧
          t = m'.setRegion r fun re => { re with
            hookDispatch := Function.update re.hookDispatch i
              { cache with regionGen := (m.regions r).dispatchGen } }) := by
  obtain ⟨m, hm, h⟩ := Res.bind_ok.mp h
  refine ⟨m, hm, ?_⟩
  simp only at h
  split at h
  · rename_i hg
    cases h
    exact .inl ⟨hg, rfl⟩
  · rename_i hg
    obtain ⟨⟨m', cache⟩, hf, h⟩ := Res.bind_ok.mp h
    cases h
    exact .inr ⟨hg, m', cache, hf, rfl⟩

end Runtime

theorem Res.mapM_ok {α β : Type} {f : α → Res β} {l : List α} {ls : List β} :
    l.mapM f = .ok ls ↔ List.Forall₂ (fun a b => f a = .ok b) l ls := by
  induction l generalizing ls with
  | nil =>
      rw [List.mapM_nil, List.forall₂_nil_left_iff]
      exact ⟨fun h => (Except.ok.inj h).symm, fun h => h ▸ rfl⟩
  | cons a l ih =>
      rw [List.mapM_cons, List.forall₂_cons_left_iff, Res.bind_ok]
      constructor
      · rintro ⟨b, hb, h⟩
        obtain ⟨bs, hbs, h⟩ := Res.bind_ok.mp h
        exact ⟨b, bs, hb, ih.mp hbs, (Except.ok.inj h).symm⟩
      · rintro ⟨b, bs, hb, hbs, rfl⟩
        exact ⟨b, hb, Res.bind_ok.mpr ⟨bs, ih.mpr hbs, rfl⟩⟩

namespace WF
variable {s t : Runtime} {x : Option EntryPtr} {L : RegionPtr → List EntryPtr} {E : Env}
open Xylem.Runtime

/-- The modules collected for a region are those listed in it and below it. -/
theorem collect_eq (h : WF s x L) {n : Nat} {r : RegionPtr} {l : List EntryPtr}
    (hl : s.regionCollectSubtreeMods n r = .ok l) :
    l = Forest.descend (fun y => (s.regions y).children) L n r := by
  induction n generalizing r l with
  | zero => cases hl
  | succ n ih =>
      obtain ⟨own, hown, hl⟩ := Res.bind_ok.mp hl
      obtain ⟨below, hbelow, hl⟩ := Res.bind_ok.mp hl
      cases hl
      cases (h.regionMods r).symm.trans hown
      have hmap : (s.regions r).children.map
          (Forest.descend (fun y => (s.regions y).children) L n) = below := by
        rw [← List.forall₂_eq_eq_eq, List.forall₂_map_left_iff]
        exact (Res.mapM_ok.mp hbelow).imp fun y l hy => (ih hy).symm
      rw [Forest.descend, List.flatMap, hmap]

/-- The tree is never deeper than it has regions. -/
theorem collect_ok (h : WF s x L) {n : Nat} {r : RegionPtr} (hr : r < s.regionNext)
    (hn : s.regionNext - r ≤ n) : ∃ l, s.regionCollectSubtreeMods n r = .ok l := by
  induction n generalizing r with
  | zero => exact absurd hn (Nat.sub_pos_of_lt hr).not_ge
  | succ n ih =>
      have hbelow : ∀ y ∈ (s.regions r).children, ∃ l, s.regionCollectSubtreeMods n y = .ok l := by
        intro y hy
        have hp := (h.tree.children r y).mp hy
        have hlt := h.tree.parent_lt y r hp
        exact ih (h.tree.region_lt y r hp) (Nat.le_of_lt_succ ((Nat.sub_lt_sub_left hr hlt).trans_le hn))
      have hmap : (s.regions r).children.mapM (s.regionCollectSubtreeMods n) = .ok
          ((s.regions r).children.map
            (Forest.descend (fun y => (s.regions y).children) L n)) := by
        rw [Res.mapM_ok, List.forall₂_map_right_iff, List.forall₂_same]
        intro y hy
        obtain ⟨l, hl⟩ := hbelow y hy
        exact hl.trans (congrArg Except.ok (h.collect_eq hl))
      exact ⟨_, Res.bind_ok.mpr ⟨_, h.regionMods r, Res.bind_ok.mpr ⟨_, hmap, rfl⟩⟩⟩

/-- Collecting for a region succeeds, and gives every module in it or below it once. -/
theorem collect_spec (h : WF s x L) {r : RegionPtr} (hr : r < s.regionNext) :
    ∃ l, s.regionCollectSubtreeMods s.regionNext r = .ok l ∧ l.Nodup ∧
      ∀ q, q ∈ l ↔ ∃ y, Forest.Anc s.tree.parentOf r y ∧ q ∈ L y := by
  obtain ⟨l, hl⟩ := h.collect_ok hr (Nat.sub_le _ _)
  refine ⟨l, hl, ?_, fun q => ?_⟩
  · rw [h.collect_eq hl]
    exact Forest.descend_nodup h.tree.ranked (fun x y => (h.tree.children x y).mp)
      h.tree.children_nodup (fun x => (h.lists x).nodup) (fun _ _ _ => h.member_unique) _ _
  · have height : ∀ x y, s.tree.parentOf y = some x →
        s.regionNext - 1 - y < s.regionNext - 1 - x := by
      intro x y hp
      have h1 := h.tree.parent_lt y x hp
      have h2 : y ≤ s.regionNext - 1 := Nat.le_sub_one_of_lt (h.tree.region_lt y x hp)
      exact Nat.sub_lt_sub_left (h1.trans_le h2) h1
    rw [h.collect_eq hl]
    exact Forest.mem_descend (fun y => s.regionNext - 1 - y) h.tree.children height
      ((Nat.sub_le _ r).trans_lt (Nat.sub_one_lt_of_lt hr))

theorem resolved (h : WF s x L) (hr : Resolved s t) : WF t x L := by
  obtain ⟨entries, ht⟩ := hr.rest
  exact h.congr_core hr.core (fun p _ => congrFun hr.links p) (fun _ => by rw [ht])
    fun _ => by rw [ht]

theorem ensureMods {r : RegionPtr} (h : WF s x L) (ht : s.regionEnsureSubtreeMods r = .ok t) :
    WF t x L := by
  rcases regionEnsureSubtreeMods_cases ht with ⟨-, ht⟩ | ⟨-, rfl⟩
  · exact h.rebuildMods ht
  · exact h

theorem rebuildVector {r : RegionPtr} {i : Nat} {name : String} {anc : List RegionPtr}
    (h : WF s x L) (ht : s.regionRebuildHookDispatch E r i name anc = .ok t) : WF t x L := by
  obtain ⟨m, hm, ⟨-, rfl⟩ | ⟨-, m', cache, hf, rfl⟩⟩ := regionRebuildHookDispatch_cases ht
  · exact h.ensureMods hm
  · have h2 := (h.ensureMods hm).resolved (rebuildFold_resolved hf)
    refine h2.congr_core (setRegion_core fun _ => rfl) (fun _ _ => rfl) ?_ ?_
    · intro r'
      rw [regions_setRegion]
      split
      · rename_i hr
        rw [hr]
      · rfl
    · intro r'
      rw [regions_setRegion]
      split
      · rename_i hr
        rw [hr]
      · rfl

theorem setCtx (h : WF s x L) (c : CtxPtr) (f : Ctx → Ctx) : WF (s.setCtx c f) x L :=
  h.congr h.tree rfl rfl rfl (fun _ => rfl) (fun _ _ => rfl) (fun _ => rfl) (fun _ => rfl)
    fun _ _ => id

theorem stub_of_core {e e' : ModEntry} (h : e'.core = e.core) : e'.stub = e.stub := by
  have : e'.core.stub = e.core.stub := congrArg _ h
  exact this

/-- Entry `p` has been taken off the list it was on. -/
def Takes (t : Runtime) (L : RegionPtr → List EntryPtr) (p : EntryPtr) : Prop :=
  ∃ r a b, L r = a ++ p :: b ∧ WF t (some p) (Function.update L r (a ++ b))

theorem detach (h : WF s none L) {p : EntryPtr} (hd : s.moduleRegionDetach p = .ok t) :
    Takes t L p := by
  obtain ⟨e, he, -⟩ := Res.bind_ok.mp hd
  obtain ⟨r, -, -, hp⟩ := h.region_of (deref_ok.mp he) (by simp)
  obtain ⟨a, b, hab⟩ := List.append_of_mem hp
  obtain ⟨m, hm, -, hw⟩ := h.moduleRegionDetach_spec hab
  cases hd.symm.trans hm
  exact ⟨r, a, b, hab, hw.markDirty r⟩

theorem unlist (h : WF s none L) {p : EntryPtr} {e : ModEntry} (he : s.entries p = some e)
    (hu : s.modLoadUnlist e = .ok t) : Takes t L p := by
  obtain ⟨r, hre, -, hp⟩ := h.region_of he (by simp)
  obtain ⟨a, b, hab⟩ := List.append_of_mem hp
  obtain ⟨m, hm, -, hw⟩ := h.regionUnlink_spec hab he
  simp only [modLoadUnlist, hre, Res.bind_ok, Except.ok.injEq] at hu
  obtain ⟨m', hm', rfl⟩ := hu
  cases hm'.symm.trans hm
  exact ⟨r, a, b, hab, hw.markDirty r⟩

theorem anchor_split {p : EntryPtr} (h : WF s (some p) L) {r : RegionPtr} {a : Option EntryPtr}
    (ha : a = (s.regions r).modsTail ∨ ∀ q, a = some q → q ≠ p ∧
      ∀ f, s.entries q = some f → f.regionEntry = some r)
    (hi : s.moduleRegionInsertAfter r p a = .ok t) : ∃ l l', L r = l ++ l' ∧ a = l.getLast? := by
  rcases ha with rfl | ha
  · exact ⟨L r, [], by simp, (h.lists r).tail⟩
  · cases a with
    | none => exact ⟨[], L r, rfl, rfl⟩
    | some q =>
        obtain ⟨hqp, hq⟩ := ha q rfl
        obtain ⟨m, hm, hi⟩ := Res.bind_ok.mp hi
        obtain ⟨f, hf, -⟩ := Res.bind_ok.mp hi
        obtain ⟨e, -, rfl⟩ := store_ok.mp hm
        have hf' : s.entries q = some f := by
          have hu : Function.update s.entries p _ q = some f := deref_ok.mp hf
          rwa [Function.update_of_ne hqp] at hu
        obtain ⟨r', h1, -, h3⟩ := h.region_of hf' fun hc => hqp (Option.some.inj hc).symm
        cases (hq f hf').symm.trans h1
        obtain ⟨l, l', hl⟩ := List.append_of_mem h3
        exact ⟨l ++ [q], l', by simp [hl], by simp⟩

theorem sameHeap (h : WF s x L) (hs : SameHeap s t) : WF t x L :=
  h.congr (hs.tree ▸ h.tree) hs.entryNext hs.addr hs.modHd (fun p => by rw [hs.entries])
    (fun p _ => by simp only [links, hs.entries]) (fun r => by rw [hs.regions])
    (fun r => by rw [hs.regions]) fun id r hr => by rw [hs.regionHd]; exact hr

/-- An elementary operation takes an entry off a list, puts one on a list, or leaves all lists
as they are. -/
theorem prim_lists {grant : RegionPtr → UInt8 → Prop} {x y : Transit} (h : WF s x.entry L)
    (hp : Prim E grant (s, x) (t, y)) : WF t y.entry L ∨
      (∃ p, y = .leaving p ∧ Takes t L p) ∨
      ∃ r p a b, x.entry = some p ∧ y = .none ∧ L r = a ++ b ∧
        WF t none (Function.update L r (a ++ p :: b)) := by
  cases hp with
  | scratch hs => exact .inl (h.sameHeap hs)
  | count he n => exact .inl (h.setEntry_same he rfl rfl rfl)
  | clear l base => exact .inl (h.mapEntries_same fun e => ⟨rfl, rfl, rfl⟩)
  | prewarm he =>
      obtain ⟨h1, h2, h3⟩ := fnCachePrewarm_same (E := E) s.hookIdHd.entries _
      exact .inl (h.setEntry_same he (stub_of_core h1) h2 h3)
  | removeDenies r path => exact .inl (h.removeDenies r path)
  | detach hd => exact .inr (.inl ⟨_, rfl, h.detach hd⟩)
  | unlist he hu => exact .inr (.inl ⟨_, rfl, h.unlist he hu⟩)
  | insert hx he hr ha hi =>
      rw [hx] at h
      obtain ⟨l, l', hl, rfl⟩ := h.anchor_split ha hi
      obtain ⟨m, hm, -, hw⟩ := h.insertAfter_spec hl he hr
      cases hi.symm.trans hm
      exact .inr (.inr ⟨_, _, l, l', hx, rfl, hl, hw.markDirty _⟩)
  | drop hx he =>
      rw [hx] at h
      exact .inl (h.dropEntry he)
  | publish hk hr im tmp addr ha => exact .inl (h.publish hk hr im tmp addr ha)
  | bind he c path => exact .inl ((h.setCtx c _).setEntry_same he rfl rfl rfl)
  | claim hc hg => exact .inl (h.createChild hc)
  | rekey he hc hn => exact .inl (h.rekeyEntry he hc hn)
  | @state _ p e he =>
      have h1 : WF (s.setEntry p (some { e with regionState := some s.stateNext })) (some p) L :=
        h.setEntry_same he rfl rfl rfl
      exact .inl (h1.congr h1.tree rfl rfl rfl (fun _ => rfl) (fun _ _ => rfl) (fun _ => rfl)
        (fun _ => rfl) fun _ _ => id)
  | freePath c => exact .inl (h.setCtx c _)
  | mods hm => exact .inl (h.rebuildMods hm)
  | vector hk hv => exact .inl (h.rebuildVector hv)
  | enter c a st => exact .inl (h.setCtx c _)

/-- Every elementary operation keeps some choice of lists well formed. -/
theorem prim {grant : RegionPtr → UInt8 → Prop} {x y : Transit} (h : WF s x.entry L)
    (hp : Prim E grant (s, x) (t, y)) : ∃ L', WF t y.entry L' := by
  rcases h.prim_lists hp with hw | ⟨p, rfl, r, a, b, -, hw⟩ | ⟨r, p, a, b, -, rfl, -, hw⟩
  · exact ⟨L, hw⟩
  · exact ⟨_, hw⟩
  · exact ⟨_, hw⟩

theorem prims {grant : RegionPtr → UInt8 → Prop} {x y : Transit} (h : WF s x.entry L)
    (hp : Prims E grant (s, x) (t, y)) : ∃ L', WF t y.entry L' := by
  have key : ∀ b, Prims E grant (s, x) b → ∃ L', WF b.1 b.2.entry L' := by
    intro b hb
    induction hb with
    | refl => exact ⟨L, h⟩
    | tail _ hs ih =>
        obtain ⟨L1, h1⟩ := ih
        exact h1.prim hs
  exact key _ hp

end WF
end Xylem
