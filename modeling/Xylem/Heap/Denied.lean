import Xylem.Heap.Inv

namespace Xylem
namespace Runtime
variable {s t u : Runtime} {E : Env}

def SameVectors (s t : Runtime) : Prop :=
  ∀ R i, (t.regions R).hookDispatch i = (s.regions R).hookDispatch i

theorem SameVectors.of_regions (h : t.regions = s.regions) : SameVectors s t := fun R i => by rw [h]

theorem SameVectors.trans (h : SameVectors s t) (k : SameVectors t u) : SameVectors s u :=
  fun R i => (k R i).trans (h R i)

theorem setRegion_vectors (s : Runtime) (r : RegionPtr) {f : RegionEntry → RegionEntry}
    (hf : ∀ re, (f re).hookDispatch = re.hookDispatch) : SameVectors s (s.setRegion r f) := by
  intro R i
  rw [regions_setRegion]
  split
  · rename_i h
    rw [hf, h]
  · rfl

theorem foldl_setRegion_vectors {f : RegionEntry → RegionEntry}
    (hf : ∀ re, (f re).hookDispatch = re.hookDispatch) (l : List RegionPtr) (s : Runtime) :
    SameVectors s (l.foldl (fun s e => s.setRegion e f) s) := by
  induction l generalizing s with
  | nil => exact fun _ _ => rfl
  | cons r l ih => exact (setRegion_vectors s r hf).trans (ih (s.setRegion r f))

theorem regionMarkSubtreeDirty_vectors (s : Runtime) (r : RegionPtr) :
    SameVectors s (s.regionMarkSubtreeDirty r) := by
  have hbump : SameVectors s (s.regionDispatchGenBump r) := by
    refine SameVectors.trans (foldl_setRegion_vectors ?_ (s.upward r) s) (.of_regions rfl)
    exact fun _ => rfl
  refine hbump.trans (foldl_setRegion_vectors ?_ _ _)
  exact fun _ => rfl

theorem store_vectors {p : EntryPtr} {f : ModEntry → ModEntry} (h : s.store p f = .ok t) :
    SameVectors s t := by
  obtain ⟨e, -, rfl⟩ := store_ok.mp h
  exact .of_regions rfl

theorem linkNext_vectors {r : RegionPtr} {q v : Option EntryPtr} (h : s.linkNext r q v = .ok t) :
    SameVectors s t := by
  cases q with
  | some q => exact store_vectors h
  | none =>
      cases h
      exact setRegion_vectors s r fun _ => rfl

theorem linkPrev_vectors {r : RegionPtr} {q v : Option EntryPtr} (h : s.linkPrev r q v = .ok t) :
    SameVectors s t := by
  cases q with
  | some q => exact store_vectors h
  | none =>
      cases h
      exact setRegion_vectors s r fun _ => rfl

theorem regionUnlink_vectors {r : RegionPtr} {e : ModEntry} (h : s.regionUnlink r e = .ok t) :
    SameVectors s t := by
  obtain ⟨m, h1, h2⟩ := Res.bind_ok.mp h
  exact (linkNext_vectors h1).trans (linkPrev_vectors h2)

theorem modLoadUnlist_vectors {e : ModEntry} (h : s.modLoadUnlist e = .ok t) : SameVectors s t := by
  unfold modLoadUnlist at h
  split at h
  · obtain ⟨m, hm, h⟩ := Res.bind_ok.mp h
    cases h
    exact (regionUnlink_vectors hm).trans (regionMarkSubtreeDirty_vectors _ _)
  · cases h
    exact .of_regions rfl

theorem moduleRegionDetach_vectors {p : EntryPtr} (h : s.moduleRegionDetach p = .ok t) :
    SameVectors s t := by
  obtain ⟨e, -, h⟩ := Res.bind_ok.mp h
  split at h
  · cases h
    exact .of_regions rfl
  · obtain ⟨m, h1, h⟩ := Res.bind_ok.mp h
    obtain ⟨n, h2, h⟩ := Res.bind_ok.mp h
    cases h
    exact ((regionUnlink_vectors h1).trans (store_vectors h2)).trans
      (regionMarkSubtreeDirty_vectors _ _)

theorem moduleRegionInsertAfter_vectors {r : RegionPtr} {p : EntryPtr} {after : Option EntryPtr}
    (h : s.moduleRegionInsertAfter r p after = .ok t) : SameVectors s t := by
  obtain ⟨m, h1, h⟩ := Res.bind_ok.mp h
  refine (store_vectors h1).trans ?_
  cases after with
  | none =>
      obtain ⟨n, h2, h⟩ := Res.bind_ok.mp h
      obtain ⟨o, h3, h⟩ := Res.bind_ok.mp h
      cases h
      refine ((store_vectors h2).trans (linkPrev_vectors h3)).trans ?_
      refine SameVectors.trans (setRegion_vectors o r ?_) (regionMarkSubtreeDirty_vectors _ r)
      exact fun _ => rfl
  | some a =>
      obtain ⟨e, -, h⟩ := Res.bind_ok.mp h
      obtain ⟨n, h2, h⟩ := Res.bind_ok.mp h
      obtain ⟨o, h3, h⟩ := Res.bind_ok.mp h
      obtain ⟨u, h4, h⟩ := Res.bind_ok.mp h
      cases h
      refine ((store_vectors h2).trans (linkPrev_vectors h3)).trans ?_
      exact (store_vectors h4).trans (regionMarkSubtreeDirty_vectors _ r)

theorem moduleRemoveDenies_vectors (s : Runtime) (r : RegionPtr) (path : String) :
    SameVectors s (s.moduleRemoveDenies r path) := by
  unfold moduleRemoveDenies
  split
  · exact setRegion_vectors s r fun _ => rfl
  · exact .of_regions rfl

theorem regionRebuildSubtreeMods_vectors {r : RegionPtr} (h : s.regionRebuildSubtreeMods r = .ok t) :
    SameVectors s t := by
  obtain ⟨l, -, h⟩ := Res.bind_ok.mp h
  cases h
  exact setRegion_vectors s r fun _ => rfl

theorem regionEnsureSubtreeMods_vectors {r : RegionPtr} (h : s.regionEnsureSubtreeMods r = .ok t) :
    SameVectors s t := by
  rcases regionEnsureSubtreeMods_cases h with ⟨-, h⟩ | ⟨-, rfl⟩
  · exact regionRebuildSubtreeMods_vectors h
  · exact .of_regions rfl

/-- The entries of `t` that are not new have the paths they had. -/
structure PathsKept (s t : Runtime) : Prop where
  next : s.entryNext ≤ t.entryNext
  path : ∀ q < s.entryNext, ∀ e', t.entries q = some e' →
    ∃ e, s.entries q = some e ∧ e'.loadPath = e.loadPath

theorem PathsKept.of_entries (h : t.entries = s.entries) (hn : t.entryNext = s.entryNext) :
    PathsKept s t := ⟨hn.ge, fun _ _ e' he' => ⟨e', h ▸ he', rfl⟩⟩

theorem PathsKept.of_core (h : t.core = s.core) : PathsKept s t := by
  refine ⟨(congrArg Core.entryNext h).ge, fun q _ e' he' => ?_⟩
  obtain ⟨e, he, hc⟩ := entries_of_core h.symm he'
  exact ⟨e, he, (congrArg ModEntry.loadPath hc : _).symm⟩

theorem PathsKept.setEntry {p : EntryPtr} {e e' : ModEntry} (he : s.entries p = some e)
    (hp : e'.loadPath = e.loadPath) : PathsKept s (s.setEntry p (some e')) := by
  refine ⟨le_rfl, fun q _ f hf => ?_⟩
  by_cases hqp : q = p
  · subst hqp
    simp only [Runtime.setEntry, Function.update_self, Option.some.injEq] at hf
    exact ⟨e, he, hf ▸ hp⟩
  · simp only [Runtime.setEntry, Function.update_of_ne hqp] at hf
    exact ⟨f, hf, rfl⟩

theorem PathsKept.trans (h : PathsKept s t) (k : PathsKept t u) : PathsKept s u := by
  refine ⟨h.next.trans k.next, fun q hq e' he' => ?_⟩
  obtain ⟨e1, h1, i1⟩ := k.path q (hq.trans_le h.next) e' he'
  obtain ⟨e2, h2, i2⟩ := h.path q hq e1 h1
  exact ⟨e2, h2, i1.trans i2⟩

/-! ### Building -/

/-- The slot names a live module that none of these regions denies. -/
def Allowed (s : Runtime) (anc : List RegionPtr) (slot : Slot) : Prop :=
  ∃ me, s.entries slot.me = some me ∧ ∀ a ∈ anc, s.moduleIsDenied a me.loadPath = false

/-- Vector `d` is built over `c`: up to its count every slot is allowed, and any other is old. -/
structure Built (s : Runtime) (anc : List RegionPtr) (c d : HookDispatchCache) : Prop where
  each : ∀ (k : Nat) slot, d.slots[k]? = some slot → c.slots[k]? = some slot ∨ s.Allowed anc slot
  all : ∀ k < d.count, ∀ slot, d.slots[k]? = some slot → s.Allowed anc slot

/-- A slot written at the end leaves those before it, and those behind it. -/
theorem push_slots {c : HookDispatchCache} {x slot : Slot} {k : Nat}
    (h : (c.push x).slots[k]? = some slot) :
    slot = x ∨ c.slots[k]? = some slot ∧ k ≠ c.count := by
  have hs : (c.push x).slots = c.slots.take c.count ++ [x] ++ c.slots.drop (c.count + 1) := by
    unfold HookDispatchCache.push
    simp only
    split <;> rfl
  have hlen : (c.slots.take c.count ++ [x]).length = min c.count c.slots.length + 1 := by simp
  rw [hs, List.getElem?_append, hlen] at h
  split at h
  · rename_i hk
    rw [List.getElem?_append, List.length_take] at h
    split at h
    · rename_i hlt
      rw [List.getElem?_take_of_lt (hlt.trans_le (min_le_left _ _))] at h
      exact .inr ⟨h, (hlt.trans_le (min_le_left _ _)).ne⟩
    · exact .inl (List.mem_singleton.mp (List.mem_of_getElem? h))
  · rename_i hk
    rw [List.getElem?_drop] at h
    have hb := (List.getElem?_eq_some_iff.mp h).1
    have hkk : c.count + 1 + (k - (min c.count c.slots.length + 1)) = k := by omega
    rw [hkk] at h
    exact .inr ⟨h, by omega⟩

theorem push_count (c : HookDispatchCache) (x : Slot) : (c.push x).count = c.count + 1 := by
  unfold HookDispatchCache.push
  simp only
  split <;> rfl

/-- A pass over the modules builds a vector, if it starts with an empty one. -/
theorem rebuildFold_built {i : Nat} {name : String} {anc : List RegionPtr} {l : List EntryPtr}
    {c₀ c d : HookDispatchCache} (hc : Built s anc c₀ c)
    (h : l.foldlM (regionRebuildSlot E i name anc) (s, c) = .ok (t, d)) :
    Built s anc c₀ d := by
  induction l generalizing s c with
  | nil =>
      cases h
      exact hc
  | cons p l ih =>
      rw [List.foldlM_cons] at h
      obtain ⟨⟨m, c'⟩, hm, h⟩ := Res.bind_ok.mp h
      obtain ⟨me, he, ⟨-, hacc⟩ | ⟨-, hany, hacc⟩⟩ := regionRebuildSlot_cases hm
      · cases hacc
        exact ih hc h
      · obtain ⟨rfl, rfl⟩ := Prod.mk.inj hacc
        -- a module keeps its path while its symbol is looked up
        have hallowed : ∀ slot, Allowed (s.setEntry p (some (slotEntry E i name me))) anc slot ↔
            s.Allowed anc slot := by
          have hpath : (slotEntry E i name me).loadPath = me.loadPath :=
            (congrArg ModEntry.loadPath (slotEntry_same (E := E) i name me).1 : _)
          intro slot
          by_cases hs : slot.me = p
          · simp only [Allowed, Runtime.setEntry, hs, Function.update_self, he, Option.some.injEq,
              exists_eq_left', hpath]
            exact Iff.rfl
          · simp only [Allowed, Runtime.setEntry, Function.update_of_ne hs]
            exact Iff.rfl
        have hback : ∀ {d}, Built (s.setEntry p (some (slotEntry E i name me))) anc c₀ d →
            Built s anc c₀ d := fun hd =>
          ⟨fun k slot hk => (hd.each k slot hk).imp_right (hallowed slot).mp,
            fun k hk slot hs => (hallowed slot).mp (hd.all k hk slot hs)⟩
        refine hback (ih ?_ h)
        have hc' : Built (s.setEntry p (some (slotEntry E i name me))) anc c₀ c :=
          ⟨fun k slot hk => (hc.each k slot hk).imp_right (hallowed slot).mpr,
            fun k hk slot hs => (hallowed slot).mpr (hc.all k hk slot hs)⟩
        split
        · have hnew : s.Allowed anc ⟨p, (slotEntry E i name me).fnCache i⟩ :=
            ⟨me, he, fun a ha => by simpa using List.any_eq_false.mp hany a ha⟩
          refine ⟨fun k slot hk => ?_, fun k hk slot hs => ?_⟩
          · rcases push_slots hk with rfl | ⟨hold, -⟩
            · exact .inr ((hallowed _).mpr hnew)
            · exact hc'.each k slot hold
          · rcases push_slots hs with rfl | ⟨hold, hne⟩
            · exact (hallowed _).mpr hnew
            · rw [push_count] at hk
              exact hc'.all k (lt_of_le_of_ne (Nat.le_of_lt_succ hk) hne) slot hold
        · exact hc'

/-- The vectors of `t` over those of `s`: each is as it was, is empty, or has been built with
the denies in force there. -/
def VectorsOver (s t : Runtime) : Prop :=
  ∀ R i, (t.regions R).hookDispatch i = (s.regions R).hookDispatch i ∨
    (t.regions R).hookDispatch i = {} ∨
    Built s (s.callChain R) ((s.regions R).hookDispatch i) ((t.regions R).hookDispatch i)

theorem SameVectors.over (h : SameVectors s t) : VectorsOver s t := fun R i => .inl (h R i)

/-- Collecting the flat list of a region leaves the entries and the rules. -/
theorem regionEnsureSubtreeMods_rest {r : RegionPtr} (h : s.regionEnsureSubtreeMods r = .ok t) :
    t.entries = s.entries ∧ ∀ R, (t.regions R).toRegionNode = (s.regions R).toRegionNode ∧
      (t.regions R).dispatchGen = (s.regions R).dispatchGen := by
  rcases regionEnsureSubtreeMods_cases h with ⟨-, h⟩ | ⟨-, rfl⟩
  · obtain ⟨l, -, h⟩ := Res.bind_ok.mp h
    cases h
    refine ⟨rfl, fun R => ?_⟩
    rw [regions_setRegion]
    split
    · rename_i hR
      rw [hR]
      exact ⟨rfl, rfl⟩
    · exact ⟨rfl, rfl⟩
  · exact ⟨rfl, fun _ => ⟨rfl, rfl⟩⟩

theorem Allowed.of_rest (he : t.entries = s.entries)
    (hn : ∀ R, (t.regions R).toRegionNode = (s.regions R).toRegionNode) {anc : List RegionPtr}
    {slot : Slot} (h : t.Allowed anc slot) : s.Allowed anc slot := by
  obtain ⟨me, hme, hden⟩ := h
  refine ⟨me, he ▸ hme, fun a ha => ?_⟩
  have h1 : (t.regions a).deniedModulesSet = (s.regions a).deniedModulesSet :=
    congrArg RegionNode.deniedModulesSet (hn a)
  have h2 : (t.regions a).deniedModules = (s.regions a).deniedModules :=
    congrArg RegionNode.deniedModules (hn a)
  have hd := hden a ha
  unfold moduleIsDenied at hd ⊢
  rwa [h1, h2] at hd

theorem Built.of_rest (he : t.entries = s.entries)
    (hn : ∀ R, (t.regions R).toRegionNode = (s.regions R).toRegionNode) {anc : List RegionPtr}
    {c d : HookDispatchCache} (h : Built t anc c d) : Built s anc c d :=
  ⟨fun k slot hk => (h.each k slot hk).imp_right (.of_rest he hn),
    fun k hk slot hs => .of_rest he hn (h.all k hk slot hs)⟩

/-- Bringing a vector up to date keeps one that is current, and builds one that is not. -/
theorem rebuildVector_built {r : RegionPtr} {i : Nat} {name : String} {anc : List RegionPtr}
    (h : s.regionRebuildHookDispatch E r i name anc = .ok t) :
    (∀ R j, R ≠ r ∨ j ≠ i → (t.regions R).hookDispatch j = (s.regions R).hookDispatch j) ∧
      (SameVectors s t ∧ ((s.regions r).hookDispatch i).regionGen = (s.regions r).dispatchGen ∨
        Built s anc ((s.regions r).hookDispatch i) ((t.regions r).hookDispatch i)) := by
  obtain ⟨m, hm, hcase⟩ := regionRebuildHookDispatch_cases h
  have hv := regionEnsureSubtreeMods_vectors hm
  obtain ⟨hents, hrest⟩ := regionEnsureSubtreeMods_rest hm
  rcases hcase with ⟨hgen, rfl⟩ | ⟨-, m', cache, hf, rfl⟩
  · rw [hv r i, (hrest r).2] at hgen
    exact ⟨fun R j _ => hv R j, .inl ⟨hv, hgen⟩⟩
  · obtain ⟨entries, hm'⟩ := (rebuildFold_resolved hf).rest
    have hregions : m'.regions = m.regions := (congrArg Runtime.regions hm' : _)
    have hbuilt : Built m anc ((m.regions r).hookDispatch i) cache := by
      have hempty : Built m anc ((m.regions r).hookDispatch i)
          { (m.regions r).hookDispatch i with count := 0 } :=
        ⟨fun k slot hk => .inl hk, fun k hk => absurd hk (Nat.not_lt_zero k)⟩
      exact rebuildFold_built hempty hf
    refine ⟨fun R j hne => ?_, .inr ?_⟩
    · rw [regions_setRegion, hregions]
      split
      · rename_i hR
        subst hR
        have hj : j ≠ i := hne.resolve_left fun hc => hc rfl
        rw [← hv R j]
        exact Function.update_of_ne hj _ _
      · exact hv R j
    · rw [regions_setRegion, if_pos rfl, ← hv r i]
      have hcell : Function.update (m'.regions r).hookDispatch i
          { cache with regionGen := (m.regions r).dispatchGen } i =
            { cache with regionGen := (m.regions r).dispatchGen } := Function.update_self ..
      simp only [hcell]
      have hs := hbuilt.of_rest hents fun R => (hrest R).1
      exact ⟨hs.each, hs.all⟩

theorem regionCreateChild_vectors (s : Runtime) (r : RegionPtr) (id : RegionId) (bits : UInt8)
    (R : RegionPtr) (i : Nat) :
    ((s.regionCreateChild r id bits).regions R).hookDispatch i = (s.regions R).hookDispatch i ∨
      ((s.regionCreateChild r id bits).regions R).hookDispatch i = {} := by
  unfold regionCreateChild
  simp only
  rw [regionMarkSubtreeDirty_vectors _ r R i]
  generalize hm : ({ s with
    regions := Function.update s.regions s.regionNext
      { id := id, plen := (s.regions r).plen + bits, depth := (s.regions r).depth + 1
        childBits := bits, parent := some r }
    regionNext := s.regionNext + 1
    regionHd := Function.update s.regionHd id (some s.regionNext) } : Runtime) = m
  have hold : (m.regions R).hookDispatch i = (s.regions R).hookDispatch i ∨
      (m.regions R).hookDispatch i = {} := by
    rw [← hm]
    by_cases hR : R = s.regionNext
    · right
      simp [hR]
    · left
      simp [hR]
  rw [← hm]
  have hset := setRegion_vectors m r (f := fun re => { re with children := s.regionNext :: re.children })
    (fun _ => rfl) R i
  rw [← hset, ← hm] at hold
  exact hold

end Runtime

namespace Prim
variable {s t : Runtime} {x y : Transit} {E : Env} {grant : RegionPtr → UInt8 → Prop}
open Xylem.Runtime

theorem vectors (h : Prim E grant (s, x) (t, y)) : VectorsOver s t := by
  cases h with
  | scratch hs => exact (SameVectors.of_regions hs.regions).over
  | removeDenies r path => exact (moduleRemoveDenies_vectors s r path).over
  | detach hd => exact (moduleRegionDetach_vectors hd).over
  | unlist he hu => exact (modLoadUnlist_vectors hu).over
  | insert hx he hr ha hi => exact (moduleRegionInsertAfter_vectors hi).over
  | claim hc hg =>
      intro R i
      exact (regionCreateChild_vectors s _ _ _ R i).imp_right .inl
  | rekey he hc hn =>
      refine SameVectors.over (.of_regions ?_)
      rw [rekeyEntry_eq]
  | mods hm => exact (regionRebuildSubtreeMods_vectors hm).over
  | @vector _ _ _ r i name hk hv =>
      intro R j
      obtain ⟨hother, hself⟩ := rebuildVector_built hv
      by_cases hne : R = r ∧ j = i
      · obtain ⟨rfl, rfl⟩ := hne
        rcases hself with ⟨hsame, -⟩ | hb
        · exact .inl (hsame R j)
        · exact .inr (.inr hb)
      · exact .inl (hother R j (not_and_or.mp hne))
  | count | clear | prewarm | drop | publish | bind | state | freePath | enter =>
      exact fun R i => .inl rfl

theorem paths (h : Prim E grant (s, x) (t, y)) : PathsKept s t := by
  cases h with
  | scratch hs => exact .of_entries hs.entries hs.entryNext
  | count he n => exact .setEntry he rfl
  | clear l base => exact .of_core (mapEntries_core fun _ => rfl)
  | prewarm he =>
      exact .setEntry he (congrArg ModEntry.loadPath (ModEntry.fnCachePrewarm_core _ _ _) : _)
  | removeDenies r path =>
      refine .of_entries (moduleRemoveDenies_entries s r path) ?_
      unfold moduleRemoveDenies
      split <;> rfl
  | detach hd => exact .of_core (moduleRegionDetach_core hd)
  | unlist he hu => exact .of_core (modLoadUnlist_core hu)
  | @insert _ _ _ p e r a hx' he hr ha hi =>
      obtain ⟨e', he', hc⟩ := moduleRegionInsertAfter_core hi
      have hk : PathsKept s (s.setEntry p (some { e' with regionEntry := some r })) :=
        .setEntry he' rfl
      exact hk.trans (.of_core hc)
  | drop hx' he =>
      refine ⟨le_rfl, fun q _ e' he' => ⟨e', ?_, rfl⟩⟩
      simp only [dropEntry, Function.update_apply] at he'
      split at he'
      · cases he'
      · exact he'
  | publish hk hr im tmp addr ha =>
      refine ⟨Nat.le_succ _, fun q hq e' he' => ⟨e', ?_, rfl⟩⟩
      simp only [modLoadPublishEntry, Runtime.setEntry, Function.update_of_ne hq.ne] at he'
      exact he'
  | @bind _ p e he c path =>
      have hk : PathsKept (s.xyInitCtx c path e.regionId) (s.bindCtx p e c path) :=
        .setEntry he rfl
      exact ⟨hk.next, hk.path⟩
  | claim hc hg =>
      obtain ⟨regions, heq⟩ := regionCreateChild_eq s _ _ _
      rw [heq]
      exact .of_entries rfl rfl
  | @rekey _ p e child he hc hk =>
      have hk : PathsKept s (s.setEntry p (some
          { e with regionId := child, modKey := ⟨e.modKey.path, child⟩ })) := .setEntry he rfl
      rw [rekeyEntry_eq]
      exact ⟨hk.next, hk.path⟩
  | @state _ p e he =>
      have hk : PathsKept s (s.setEntry p (some { e with regionState := some s.stateNext })) :=
        .setEntry he rfl
      exact ⟨hk.next, hk.path⟩
  | freePath c => exact .of_entries rfl rfl
  | mods hm => exact .of_core (regionRebuildSubtreeMods_core hm)
  | vector hk hv => exact .of_core (regionRebuildHookDispatch_core hv)
  | enter c a st => exact .of_entries rfl rfl

end Prim
end Xylem
