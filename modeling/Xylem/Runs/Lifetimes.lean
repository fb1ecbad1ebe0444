import Xylem.Model.Lifetimes
import Xylem.Runs.Step

namespace Xylem

open Xylem.Runtime

/-- The runtime after a shutdown, or before the first call. -/
structure Down (s : State) : Prop where
  stack : s.stack = []
  entries : s.rt.entries = fun _ => none
  regions : s.rt.regions = fun _ => {}
  regionNext : s.rt.regionNext = 0
  currentRegionId : s.rt.currentRegionId = xyRegionRoot
  currentRegionEntry : s.rt.currentRegionEntry = none
  registry : Registry s.rt

structure LifeInv (E : Env) (l : Life) : Prop where
  inv : l.up = true → Inv E l.st
  down : l.up = false → Down l.st

section
variable {E : Env} {s t : Runtime}

structure Freed (s t : Runtime) (l : List EntryPtr) : Prop where
  rest : ∃ refs files bad done, t =
    { s with
      entries := fun p => if p ∈ l then none else s.entries p
      dlRefs := refs
      tmpFiles := files
      badReleases := bad
      cleanups := done }

theorem moduleFreeEntry_freed {p : EntryPtr} (h : s.moduleFreeEntry E p = .ok t) : Freed s t [p] := by
  obtain ⟨e, -, h⟩ := Res.bind_ok.mp h
  obtain ⟨l, hl⟩ := moduleCleanupRegionState_eq E s e
  rw [hl] at h
  cases h
  have hent : Function.update s.entries p none = fun q => if q ∈ [p] then none else s.entries q := by
    funext q
    simp [Function.update_apply]
  refine ⟨?_⟩
  cases e.tmpLoadPath with
  | none => exact ⟨_, s.tmpFiles, _, _, by rw [← hent]; rfl⟩
  | some f => exact ⟨_, s.tmpFiles.erase f, _, _, by rw [← hent]; rfl⟩

theorem freeAll_freed {l : List EntryPtr} (h : l.foldlM (moduleFreeEntry E) s = .ok t) :
    Freed s t l := by
  induction l generalizing s with
  | nil =>
      cases h
      exact ⟨⟨t.dlRefs, t.tmpFiles, t.badReleases, t.cleanups, by simp⟩⟩
  | cons p l ih =>
      rw [List.foldlM_cons] at h
      obtain ⟨m, hm, h⟩ := Res.bind_ok.mp h
      obtain ⟨r1, f1, b1, d1, rfl⟩ := (moduleFreeEntry_freed hm).rest
      obtain ⟨r2, f2, b2, d2, rfl⟩ := (ih h).rest
      refine ⟨r2, f2, b2, d2, ?_⟩
      simp only [List.mem_cons, Runtime.mk.injEq, and_true]
      funext q
      by_cases h1 : q = p <;> by_cases h2 : q ∈ l <;> simp [h1, h2]

/-- The teardown frees what is in `mod_hd`, which is every live entry. -/
theorem teardown_entries {x : Option EntryPtr} {L : RegionPtr → List EntryPtr} (hw : WF s x L)
    (h : s.xyRuntimeTeardown E = .ok t) : t.entries = fun _ => none := by
  obtain ⟨m, hm, h⟩ := Res.bind_ok.mp h
  cases h
  obtain ⟨r, f, b, d, rfl⟩ := (freeAll_freed hm).rest
  funext p
  simp only
  split
  · rfl
  · rename_i hp
    cases he : s.entries p with
    | none => rfl
    | some e =>
        have hmem : p ∈ s.modHd.entries.map (·.2) :=
          List.mem_map.mpr ⟨⟨e.modKey, p⟩, AList.mem_lookup_iff.mp (hw.key p e he).2, rfl⟩
        exact absurd ((E.iterOrder_perm _).mem_iff.mpr hmem) hp

theorem teardown_hooks (h : s.xyRuntimeTeardown E = .ok t) : t.hooks = s.hooks := by
  obtain ⟨m, hm, h⟩ := Res.bind_ok.mp h
  cases h
  obtain ⟨r, f, b, d, rfl⟩ := (freeAll_freed hm).rest
  rfl

end

section
variable {E : Env} {l m : Life} {e : LifeEvent}

theorem Down.bootstrap {s : State} (h : Down s) : s.rt.xyRuntimeBootstrap =
    { s.rt with
      modHd := ∅, modByRegionHd := [], genBumps := 0, regionNext := 1, currentRegionEntry := some 0
      regionHd := Function.update (fun _ => none) xyRegionRoot (some 0) } := by
  have hreg : Function.update s.rt.regions 0 ({} : RegionEntry) = s.rt.regions := by
    rw [h.regions]
    exact Function.update_eq_self 0 _
  unfold xyRuntimeBootstrap regionEnsureRoot
  simp only [regionLookup, h.currentRegionEntry, h.regionNext, Option.isNone_none, Bool.true_or,
    if_true, hreg]

theorem Down.init {s : State} (h : Down s) :
    Inv E { s with rt := s.rt.xyRuntimeBootstrap.setErr xyOk } := by
  rw [h.bootstrap]
  have hboot : Boot
      { rt := { s.rt with
          modHd := ∅, modByRegionHd := [], genBumps := 0, regionNext := 1, currentRegionEntry := some 0
          regionHd := Function.update (fun _ => none) xyRegionRoot (some 0)
          loadingMod := none, modCount := 0, reloading := false }
        stack := s.stack } := by
    refine ⟨h.stack, rfl, h.entries, rfl, rfl, rfl, ?_, fun r _ => ?_, fun id => ?_,
      h.currentRegionId, rfl, rfl, rfl, rfl, rfl,
      ⟨h.registry.lt, h.registry.inj, h.registry.sica, h.registry.held⟩⟩
    · exact congrFun h.regions 0
    · exact congrFun h.regions r
    · exact Function.update_apply (fun _ : RegionId => (none : Option RegionPtr)) _ _ _
  exact Inv.of_sameHeap (u := .entered) (Inv.boot hboot)
    ⟨rfl, rfl, rfl, rfl, rfl, rfl, rfl, rfl, rfl, rfl, rfl, rfl, List.prefix_rfl⟩
    ⟨h.registry.lt, h.registry.inj, h.registry.sica, h.registry.held⟩ rfl rfl

theorem Inv.down {s : State} {t : Runtime} (hi : Inv E s) (hs : s.stack = [])
    (h : s.rt.xyRuntimeTeardown E = .ok t) : Down { s with rt := t } := by
  obtain ⟨L, hw⟩ := hi.wf
  have hent := teardown_entries hw h
  have hreg := registry_of_hooks (teardown_hooks h) hi.registry
  obtain ⟨n, hn, hr⟩ := Res.bind_ok.mp h
  cases hr
  exact ⟨hs, hent, rfl, rfl, rfl, rfl, hreg⟩

theorem Down.congr {s t : State} (h : Down s) (hs : t.stack = []) (hh : SameHeap s.rt t.rt)
    (hn : t.rt.hooks = s.rt.hooks) (hid : t.rt.currentRegionId = xyRegionRoot)
    (hr : t.rt.currentRegionEntry = none) : Down t :=
  ⟨hs, hh.entries.trans h.entries, hh.regions.trans h.regions, hh.regionNext.trans h.regionNext,
    hid, hr, registry_of_hooks hn h.registry⟩

theorem lifeInv_step (h : LifeInv E l) (hs : lifeStep E l e = .ok m) : LifeInv E m := by
  cases e with
  | call e =>
      simp only [lifeStep] at hs
      split at hs
      · rename_i hup
        obtain ⟨t, ht, rfl⟩ := Res.map_ok.mp hs
        exact ⟨fun _ => (h.inv hup).step ht, fun hd => by simp [hup] at hd⟩
      · cases hs
  | init =>
      simp only [lifeStep] at hs
      split at hs
      · rename_i hup
        cases hs
        refine ⟨fun _ => ?_, fun hd => by simp [hup] at hd⟩
        have hi := h.inv hup
        exact Inv.of_sameHeap (u := l.st.status) hi (setErr_sameHeap _ _)
          ⟨hi.registry.lt, hi.registry.inj, hi.registry.sica, hi.registry.held⟩ rfl rfl
      · rename_i hup
        cases hs
        exact ⟨fun _ => (h.down (by simpa using hup)).init, fun hd => by cases hd⟩
  | shutdown =>
      simp only [lifeStep] at hs
      split at hs
      · rename_i hst
        split at hs
        · rename_i hup
          obtain ⟨t, ht, rfl⟩ := Res.map_ok.mp hs
          refine ⟨fun hu => (by cases hu), fun _ => ?_⟩
          have hd := (h.inv hup).down hst ht
          exact hd.congr hst (setErr_sameHeap t _) rfl hd.currentRegionId hd.currentRegionEntry
        · rename_i hup
          cases hs
          refine ⟨fun hu => absurd hu hup, fun hu => ?_⟩
          have hd := h.down hu
          exact hd.congr hst (setErr_sameHeap l.st.rt _) rfl hd.currentRegionId
            hd.currentRegionEntry
      · cases hs

theorem Launch.inv (h : Launch l) : LifeInv E l := by
  refine ⟨fun hu => (by rw [h.up] at hu; cases hu), fun _ => ?_⟩
  refine ⟨h.stack, h.entries, h.regions, h.regionNext, h.currentRegionId, h.currentRegionEntry, ?_⟩
  constructor
  · intro name id hid
    rw [h.hookIdHd, AList.lookup_empty] at hid
    cases hid
  · intro name name' id hid
    rw [h.hookIdHd, AList.lookup_empty] at hid
    cases hid
  · intro name
    rw [h.hookIdHd, h.sicaHd]
    rfl
  · intro a id ha
    rw [h.hookIds a] at ha
    cases ha

end
end Xylem
