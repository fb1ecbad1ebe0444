import Xylem.Heap.OpenLoad

namespace Xylem
namespace Runtime
variable {s t : Runtime} {E : Env} {L : RegionPtr → List EntryPtr}

def TableLive (s : Runtime) : Prop := ∀ k p, s.modHd.lookup k = some p → ∃ e, s.entries p = some e

theorem TableLive.of_wf {x : Option EntryPtr} (hw : WF s x L) : s.TableLive :=
  fun k p hp => (hw.table k p hp).imp fun _ he => he.1

theorem moduleRekeyForClaim_total (hl : s.TableLive) (caller : String) (parent child : RegionId) :
    ∃ t, s.moduleRekeyForClaim E caller parent child = .ok t := by
  unfold moduleRekeyForClaim
  cases hp : s.moduleLookup E caller parent with
  | none => exact ⟨s, rfl⟩
  | some p =>
      obtain ⟨e, he⟩ := hl _ _ hp
      exact ⟨_, Res.bind_ok.mpr ⟨e, deref_ok.mpr he, rfl⟩⟩

theorem xyClaimForLoad_total (hl : s.TableLive) (caller : String) (parent : RegionId) (bits : UInt8)
    (ch : LoadChoice) : ∃ x, s.xyClaimForLoad E caller parent bits ch = .ok x := by
  unfold xyClaimForLoad
  split
  · exact ⟨_, rfl⟩
  split
  · exact ⟨_, rfl⟩
  rename_i r hr
  split
  · exact ⟨_, rfl⟩
  split
  · exact ⟨_, rfl⟩
  split
  · exact ⟨_, rfl⟩
  dsimp only
  split
  · exact ⟨_, rfl⟩
  obtain ⟨h1, h2, -⟩ := s.regionCreateChild_frame r (s.regionAllocSlot r ch.granted) ch.granted
  have hlive : ((s.regionCreateChild r (s.regionAllocSlot r ch.granted) ch.granted).setCurrentRegion
      (s.regionAllocSlot r ch.granted) (some s.regionNext)).TableLive := by
    intro k p hp
    have hp' : s.modHd.lookup k = some p := by
      rw [← h2]
      exact hp
    obtain ⟨e, he⟩ := hl k p hp'
    exact ⟨e, (congrFun h1 p).trans he⟩
  obtain ⟨t, ht⟩ := moduleRekeyForClaim_total (E := E) hlive caller parent
    (s.regionAllocSlot r ch.granted)
  exact ⟨_, Res.bind_ok.mpr ⟨t, ht, rfl⟩⟩

theorem modLoadClaimIfNeeded_total (hl : s.TableLive) (tx : LoadTxn) (ch : LoadChoice) :
    ∃ x, s.modLoadClaimIfNeeded E tx ch = .ok x := by
  unfold modLoadClaimIfNeeded
  split
  · exact ⟨_, rfl⟩
  · exact ⟨_, rfl⟩
  · split
    · exact ⟨_, rfl⟩
    · exact xyClaimForLoad_total hl _ _ _ _

theorem modLoadUnlist_total {x : Option EntryPtr} (hw : WF s x L) {p : EntryPtr} {e : ModEntry}
    (he : s.entries p = some e) (hx : x = none ∨ e.regionEntry = none) :
    ∃ t, s.modLoadUnlist e = .ok t := by
  unfold modLoadUnlist
  rcases hx with rfl | hno
  · obtain ⟨r, hre, -, hp⟩ := hw.region_of he (by simp)
    obtain ⟨a, b, hab⟩ := List.append_of_mem hp
    obtain ⟨m, hm, -⟩ := hw.regionUnlink_spec hab he
    rw [hre]
    exact ⟨_, Res.bind_ok.mpr ⟨m, hm, rfl⟩⟩
  · rw [hno]
    exact ⟨s, rfl⟩

theorem modLoadAbort_total {x : Option EntryPtr} (hw : WF s x L) (tx : LoadTxn) {e : ModEntry}
    (he : s.entries tx.entry = some e) (hx : x = none ∨ e.regionEntry = none) :
    ∃ t, s.modLoadAbort E tx = .ok t := by
  have hs := (setCurrentRegion_sameHeap s tx.regionId tx.prevRegionEntry).trans
    (moduleCleanupRegionState_sameHeap (E := E) _ e)
  obtain ⟨t, ht⟩ := modLoadUnlist_total (hw.sameHeap hs) (hs.entries ▸ he) hx
  unfold modLoadAbort
  exact ⟨_, Res.bind_ok.mpr ⟨e, deref_ok.mpr he, Res.bind_ok.mpr ⟨t, ht, rfl⟩⟩⟩

theorem modLoadFresh_ends (hw : WF s none L) (hcur : (s.regionHd s.currentRegionId).isSome)
    {fname : String} {im : ImageId} {tmp : Option ImageId} {ch : LoadChoice}
    {reload : Option ReloadFrame} (hnew : s.moduleLookup E fname s.currentRegionId = none)
    (haddr : ∀ k p, s.modHd.lookup k = some p → s.addr p ≠ ch.addr) :
    ∃ x, s.modLoadFresh E fname im tmp ch reload = .ok x := by
  let key : ModKey := ⟨E.moduleLoadPath fname, s.currentRegionId⟩
  let tx : LoadTxn := ⟨fname, s.entryNext, im, s.currentRegionId, s.currentRegionEntry⟩
  have p1 : Prims E (fun _ _ => True) (s, .none) (s.modLoadPublishEntry key im tmp ch.addr,
      .fresh tx.entry) := .single (.publish hnew hcur im tmp ch.addr haddr)
  have he := s.modLoadPublishEntry_entry key im tmp ch.addr
  obtain ⟨s2, hs2⟩ : ∃ s2, (s.modLoadPublishEntry key im tmp ch.addr).modLoadBindXy E tx = .ok s2 :=
    ⟨_, modLoadBindXy_eq he rfl⟩
  have p2 := p1.trans (modLoadBindXy_straight he rfl hs2).prims
  obtain ⟨hmods, htree, hregions, he2⟩ := modLoadBindXy_frame he rfl rfl hs2
  let s3 := s2.setCurrentRegion tx.regionId (s2.regionLookup tx.regionId)
  have p3 := p2.tail (.scratch (setCurrentRegion_sameHeap s2 tx.regionId (s2.regionLookup tx.regionId)))
  obtain ⟨L3, hw3⟩ := hw.prims p3
  replace hw3 : WF s3 (some tx.entry) L3 := hw3
  have hreg : (s3.regionHd tx.regionId).isSome := by
    have hhd : s3.regionHd = s.regionHd := congrArg Tree.hd htree
    rw [hhd]
    exact hcur
  obtain ⟨⟨s4, ret⟩, hs4⟩ := modLoadClaimIfNeeded_total (E := E) (.of_wf hw3) tx ch
  obtain ⟨hkey, hlook⟩ := hw3.key tx.entry _ he2
  have hknown : ∀ k, s3.modHd.lookup k ≠ none → s3.regionHd k.region ≠ none := by
    intro k hk
    obtain ⟨p, hp⟩ := Option.ne_none_iff_exists'.mp hk
    obtain ⟨e, hpe, rfl⟩ := hw3.table k p hp
    rw [(hw3.key p e hpe).1]
    exact Option.isSome_iff_ne_none.mp (hw3.region p e hpe)
  have p4 := (modLoadClaimIfNeeded_straight hw3.tree he2 rfl rfl hlook hknown hs4).prims
  obtain ⟨L4, hw4⟩ := hw3.prims p4
  obtain ⟨id, he4, hid⟩ := modLoadClaimIfNeeded_entry hw3.tree he2 rfl rfl hlook hreg hs4
  unfold modLoadFresh
  by_cases hret : ret = xyOk
  · obtain ⟨s5, hs5⟩ : ∃ s5, s4.modLoadEnlist E tx = .ok s5 := modLoadEnlist_total hw4 he4
    have p5 := (modLoadEnlist_straight (E := E) (fun e he => by
      cases he4.symm.trans he
      exact hid) hs5 : Straights E (fun _ _ => True) _ _).prims
    obtain ⟨L5, hw5⟩ := hw4.prims p5
    obtain ⟨m1, -, hm1⟩ := Res.bind_ok.mp hs5
    obtain ⟨m2, -, hm2⟩ := Res.bind_ok.mp hm1
    obtain ⟨e5, -, he5⟩ := store_ok.mp hm2
    have hlive : s5.entries tx.entry = some (e5.fnCachePrewarm E m2.hookIdHd.entries) := by
      rw [he5]
      exact Function.update_self ..
    cases hfn : E.dlsym im "xy_install" with
    | some fn =>
        refine ⟨({ s5 with loadingMod := some tx.entry },
          .wait ⟨tx.entry, tx.regionId, tx.prevRegionEntry, s5.loadingMod, reload⟩),
          Res.bind_ok.mpr ⟨s2, hs2, Res.bind_ok.mpr ⟨(s4, ret), hs4, ?_⟩⟩⟩
        dsimp only
        rw [if_neg (not_not.mpr hret)]
        exact Res.bind_ok.mpr ⟨s5, hs5, rfl⟩
    | none =>
        obtain ⟨t, ht⟩ := modLoadAbort_total (E := E) hw5 tx hlive (.inl rfl)
        refine ⟨(t, .done xyErrNotFound), Res.bind_ok.mpr ⟨s2, hs2, Res.bind_ok.mpr ⟨(s4, ret), hs4, ?_⟩⟩⟩
        dsimp only
        rw [if_neg (not_not.mpr hret)]
        exact Res.bind_ok.mpr ⟨s5, hs5, Res.bind_ok.mpr ⟨t, ht, rfl⟩⟩
  · obtain ⟨t, ht⟩ := modLoadAbort_total (E := E) hw4 tx he4 (.inr rfl)
    refine ⟨(t, .done ret), Res.bind_ok.mpr ⟨s2, hs2, Res.bind_ok.mpr ⟨(s4, ret), hs4, ?_⟩⟩⟩
    dsimp only
    rw [if_pos hret]
    exact Res.bind_ok.mpr ⟨t, ht, rfl⟩

/-- Every load comes to its `xy_install` or to an answer. -/
theorem modLoad_total (hw : WF s none L) (hcur : (s.regionHd s.currentRegionId).isSome)
    (fname : String) (ch : LoadChoice) (reload : Option ReloadFrame)
    (haddr : ∀ k p, s.modHd.lookup k = some p → s.addr p ≠ ch.addr) :
    ∃ x, s.modLoad E fname ch reload = .ok x := by
  obtain ⟨m, o, hm⟩ : ∃ m o, s.modLoadOpenHandle E (E.moduleLoadPath fname) ch = (m, o) := ⟨_, _, rfl⟩
  obtain ⟨refs, copy, files, bad, hms, -⟩ := modLoadOpenHandle_cases hm
  have hsame : SameHeap s m := by
    rw [hms]
    exact ⟨rfl, rfl, rfl, rfl, rfl, rfl, rfl, rfl, rfl, rfl, rfl, rfl, List.prefix_rfl⟩
  unfold modLoad
  dsimp only
  rw [hm]
  cases o with
  | none => exact ⟨_, rfl⟩
  | some x =>
      obtain ⟨im, tmp⟩ := x
      cases hl : s.moduleLookup E fname s.currentRegionId with
      | some p =>
          obtain ⟨e, he, -⟩ := hw.table _ p hl
          have he' : m.entries p = some e := by
            rw [hms]
            exact he
          have hstore : m.store p (fun e => { e with refcount := e.refcount + 1 }) =
              .ok (m.setEntry p (some { e with refcount := e.refcount + 1 })) :=
            store_ok.mpr ⟨e, he', rfl⟩
          exact ⟨_, Res.bind_ok.mpr ⟨_, hstore, rfl⟩⟩
      | none =>
          have hnone : (m.modHd.entries.any fun x => decide (m.addr x.2 = ch.addr)) = false := by
            rw [List.any_eq_false]
            intro x hx hc
            rw [hms] at hx hc
            exact haddr x.1 x.2 (AList.mem_lookup_iff.mpr hx) (of_decide_eq_true hc)
          simp only [hnone, Bool.false_eq_true, if_false]
          split
          · exact ⟨_, rfl⟩
          · exact modLoadFresh_ends (hw.sameHeap hsame) (by rw [hms]; exact hcur)
              (by rw [hms]; exact hl) (by rw [hms]; exact haddr)

end Runtime
end Xylem
