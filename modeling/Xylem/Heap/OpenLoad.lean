import Xylem.Heap.Inv
import Xylem.Heap.Loaded

namespace Xylem
namespace Runtime
variable {s t : Runtime} {E : Env}

def Ungated (s : Runtime) : Prop :=
  ∃ r, s.regionHd s.currentRegionId = some r ∧ (s.regions r).claimHandler = none ∧
    (s.regions r).requireClaim = false

theorem modLoadClaimIfNeeded_ungated {tx : LoadTxn} {ch : LoadChoice} {r : RegionPtr}
    (hr : s.regionHd tx.regionId = some r) (hno : (s.regions r).claimHandler = none)
    (hclear : (s.regions r).requireClaim = false) :
    s.modLoadClaimIfNeeded E tx ch = .ok (s, xyOk) := by
  unfold modLoadClaimIfNeeded
  rw [regionLookup, hr]
  cases E.xyClaim tx.handle with
  | none => simp only [hclear, Bool.false_eq_true, if_false]
  | some bits => simp only [hno, hclear, Option.isNone_none, Bool.not_false, Bool.and_self, if_true]

theorem modLoadAllocState_total {tx : LoadTxn} {e : ModEntry} (he : s.entries tx.entry = some e) :
    ∃ t e', s.modLoadAllocState E tx = .ok t ∧ t.entries tx.entry = some e' ∧
      e'.regionId = e.regionId := by
  unfold modLoadAllocState
  by_cases hsize : 0 < E.regionStateSize tx.handle
  · rw [if_pos hsize]
    have hstore : s.store tx.entry (fun e => { e with regionState := some s.stateNext }) =
        .ok (s.setEntry tx.entry (some { e with regionState := some s.stateNext })) :=
      store_ok.mpr ⟨e, he, rfl⟩
    refine ⟨_, { e with regionState := some s.stateNext }, Res.bind_ok.mpr ⟨_, hstore, rfl⟩, ?_, rfl⟩
    simp [setEntry]
  · rw [if_neg hsize]
    exact ⟨s, e, rfl, he, rfl⟩

theorem modLoadAppend_total {tx : LoadTxn} {L : RegionPtr → List EntryPtr} {e : ModEntry}
    {r : RegionPtr} (hw : WF s (some tx.entry) L) (he : s.entries tx.entry = some e)
    (hr : s.regionHd e.regionId = some r) :
    ∃ t e', s.modLoadAppend tx = .ok t ∧ t.entries tx.entry = some e' := by
  obtain ⟨m, hm, hrel, -⟩ := hw.insertAfter_spec (List.append_nil (L r)).symm he hr
  have hins : s.moduleRegionAppend r tx.entry = .ok (m.regionMarkSubtreeDirty r) := by
    rw [moduleRegionAppend, (hw.lists r).tail]
    exact hm
  have happ : s.modLoadAppend tx = .ok (m.regionMarkSubtreeDirty r) := by
    unfold modLoadAppend
    refine Res.bind_ok.mpr ⟨e, deref_ok.mpr he, ?_⟩
    simp only [regionLookup, hr]
    exact hins
  obtain ⟨e0, -, hc⟩ := moduleRegionInsertAfter_core hins
  have hlive : ((m.regionMarkSubtreeDirty r).entries tx.entry).map ModEntry.core = some _ :=
    (congrFun (congrArg Core.entries hc) tx.entry).trans
      ((congrFun (congrArg Core.entries (setEntry_core _ _ _)) _).trans (Function.update_self _ _ _))
  obtain ⟨e', he', -⟩ := Option.map_eq_some_iff.mp hlive
  exact ⟨_, e', happ, he'⟩

theorem modLoadEnlist_total {tx : LoadTxn} {L : RegionPtr → List EntryPtr} {e : ModEntry}
    (hw : WF s (some tx.entry) L) (he : s.entries tx.entry = some e) :
    ∃ t, s.modLoadEnlist E tx = .ok t := by
  let s0 : Runtime := { s with modCount := s.modCount + 1 }
  have hw0 : WF s0 (some tx.entry) L := hw.sameHeap
    ⟨rfl, rfl, rfl, rfl, rfl, rfl, rfl, rfl, rfl, rfl, rfl, rfl, List.prefix_rfl⟩
  obtain ⟨m, e1, hm, he1, hid⟩ := modLoadAllocState_total (E := E) (s := s0) he
  have hp : Prims E (fun _ _ => True) (s0, .fresh tx.entry) (m, .fresh tx.entry) :=
    (modLoadAllocState_straight hm).prims
  obtain ⟨L1, hw1⟩ := hw0.prims hp
  obtain ⟨r, hr⟩ := Option.isSome_iff_exists.mp (hw1.region _ _ he1)
  obtain ⟨m2, e2, hm2, he2⟩ := modLoadAppend_total hw1 he1 hr
  unfold modLoadEnlist
  exact ⟨_, Res.bind_ok.mpr ⟨m, hm, Res.bind_ok.mpr ⟨m2, hm2, store_ok.mpr ⟨e2, he2, rfl⟩⟩⟩⟩

/-- What a load of a module that is not there yet needs to get to its `xy_install`. -/
structure Opens (E : Env) (s : Runtime) (fname : String) (ch : LoadChoice) : Prop where
  new : s.moduleLookup E fname s.currentRegionId = none
  mem : ch.noMem = false
  addr : ∀ k p, s.modHd.lookup k = some p → s.addr p ≠ ch.addr
  image : ∃ im, E.dlopen (s.loading E fname ch).im = some im
  install : ∃ fn, E.dlsym (s.loading E fname ch).im "xy_install" = some fn

theorem modLoadFresh_total {L : RegionPtr → List EntryPtr} (hw : WF s none L) (hgate : s.Ungated)
    {fname : String} {im : ImageId} {tmp : Option ImageId} {ch : LoadChoice}
    {reload : Option ReloadFrame} (hnew : s.moduleLookup E fname s.currentRegionId = none)
    (haddr : ∀ k p, s.modHd.lookup k = some p → s.addr p ≠ ch.addr) {fn : Fn}
    (hfn : E.dlsym im "xy_install" = some fn) :
    ∃ t f, s.modLoadFresh E fname im tmp ch reload = .ok (t, .wait f) := by
  obtain ⟨r, hr, hno, hclear⟩ := hgate
  let key : ModKey := ⟨E.moduleLoadPath fname, s.currentRegionId⟩
  let tx : LoadTxn := ⟨fname, s.entryNext, im, s.currentRegionId, s.currentRegionEntry⟩
  have hsome : (s.regionHd key.region).isSome := Option.isSome_iff_exists.mpr ⟨r, hr⟩
  have p1 : Prims E (fun _ _ => True) (s, .none) (s.modLoadPublishEntry key im tmp ch.addr,
      .fresh tx.entry) := .single (.publish hnew hsome im tmp ch.addr haddr)
  have he := s.modLoadPublishEntry_entry key im tmp ch.addr
  obtain ⟨s2, hs2⟩ : ∃ s2, (s.modLoadPublishEntry key im tmp ch.addr).modLoadBindXy E tx = .ok s2 :=
    ⟨_, modLoadBindXy_eq he rfl⟩
  have p2 := p1.trans (modLoadBindXy_straight he rfl hs2).prims
  obtain ⟨hmods, htree, hregions, he2⟩ := modLoadBindXy_frame he rfl rfl hs2
  have hhd2 : s2.regionHd = s.regionHd := congrArg Tree.hd htree
  let s3 := s2.setCurrentRegion tx.regionId (s2.regionLookup tx.regionId)
  have p3 := p2.tail (.scratch (setCurrentRegion_sameHeap s2 tx.regionId (s2.regionLookup tx.regionId)))
  have hr3 : s3.regionHd tx.regionId = some r := (congrFun hhd2 _).trans hr
  have hreg3 : s3.regions = s.regions := hregions
  have hclaim : s3.modLoadClaimIfNeeded E tx ch = .ok (s3, xyOk) :=
    modLoadClaimIfNeeded_ungated hr3 (by rw [hreg3]; exact hno) (by rw [hreg3]; exact hclear)
  obtain ⟨L3, hw3⟩ := hw.prims p3
  obtain ⟨s4, hs4⟩ : ∃ s4, s3.modLoadEnlist E tx = .ok s4 := modLoadEnlist_total hw3 he2
  refine ⟨{ s4 with loadingMod := some tx.entry },
    ⟨tx.entry, tx.regionId, tx.prevRegionEntry, s4.loadingMod, reload⟩, ?_⟩
  unfold modLoadFresh
  refine Res.bind_ok.mpr ⟨s2, hs2, Res.bind_ok.mpr ⟨(s3, xyOk), hclaim, ?_⟩⟩
  simp only [ne_eq, not_true_eq_false, if_false]
  refine Res.bind_ok.mpr ⟨s4, hs4, ?_⟩
  rw [hfn]

theorem modLoadOpenHandle_some {path : String} {ch : LoadChoice}
    (him : ∃ im, E.dlopen (s.modLoadImage path ch).1 = some im) :
    ∃ m, s.modLoadOpenHandle E path ch = (m, some (s.modLoadImage path ch)) := by
  obtain ⟨im, him⟩ := him
  cases hi : s.modLoadImage path ch with
  | mk h tmp =>
      rw [hi] at him
      simp only [modLoadOpenHandle, hi, him]
      exact ⟨_, rfl⟩

theorem modLoad_installs {L : RegionPtr → List EntryPtr} (hw : WF s none L) (hgate : s.Ungated)
    {fname : String} {ch : LoadChoice} {reload : Option ReloadFrame} (h : s.Opens E fname ch) :
    ∃ t f, s.modLoad E fname ch reload = .ok (t, .wait f) := by
  obtain ⟨m, hm⟩ : ∃ m, s.modLoadOpenHandle E (E.moduleLoadPath fname) ch =
      (m, some (s.modLoadImage (E.moduleLoadPath fname) ch)) := modLoadOpenHandle_some h.image
  obtain ⟨refs, copy, files, bad, hms, ho | ⟨ho, -⟩⟩ := modLoadOpenHandle_cases hm
  · cases ho
  obtain ⟨fn, hfn⟩ := h.install
  have hsame : SameHeap s m := by
    rw [hms]
    exact ⟨rfl, rfl, rfl, rfl, rfl, rfl, rfl, rfl, rfl, rfl, rfl, rfl, List.prefix_rfl⟩
  have hgate' : m.Ungated := by
    rw [hms]
    exact hgate
  obtain ⟨t, f, hf⟩ : ∃ t f, m.modLoadFresh E fname (s.loading E fname ch).im
      (s.loading E fname ch).tmp ch reload = .ok (t, .wait f) :=
    modLoadFresh_total (hw.sameHeap hsame) hgate' (by rw [hms]; exact h.new)
      (by rw [hms]; exact h.addr) hfn
  refine ⟨t, f, ?_⟩
  unfold modLoad
  have hnone : (m.modHd.entries.any fun x => decide (m.addr x.2 = ch.addr)) = false := by
    rw [List.any_eq_false]
    intro x hx hc
    rw [hms] at hx hc
    exact h.addr x.1 x.2 (AList.mem_lookup_iff.mpr hx) (of_decide_eq_true hc)
  simp only [hm, h.new, h.mem, hnone, Bool.false_eq_true, if_false]
  exact hf

theorem modLoad_counts {L : RegionPtr → List EntryPtr} (hw : WF s none L) {fname : String}
    {ch : LoadChoice} {reload : Option ReloadFrame} {p : EntryPtr}
    (hl : s.moduleLookup E fname s.currentRegionId = some p)
    (him : ∃ im, E.dlopen (s.loading E fname ch).im = some im) :
    ∃ t, s.modLoad E fname ch reload = .ok (t, .done xyOk) := by
  obtain ⟨m, hm⟩ : ∃ m, s.modLoadOpenHandle E (E.moduleLoadPath fname) ch =
      (m, some (s.modLoadImage (E.moduleLoadPath fname) ch)) := modLoadOpenHandle_some him
  obtain ⟨refs, copy, files, bad, hms, ho | ⟨ho, -⟩⟩ := modLoadOpenHandle_cases hm
  · cases ho
  obtain ⟨e, he, -⟩ := hw.table _ p hl
  have he' : m.entries p = some e := by
    rw [hms]
    exact he
  have hstore : m.store p (fun e => { e with refcount := e.refcount + 1 }) =
      .ok (m.setEntry p (some { e with refcount := e.refcount + 1 })) := store_ok.mpr ⟨e, he', rfl⟩
  unfold modLoad
  simp only [hm, hl]
  exact ⟨_, Res.bind_ok.mpr ⟨_, hstore, rfl⟩⟩

end Runtime
end Xylem
