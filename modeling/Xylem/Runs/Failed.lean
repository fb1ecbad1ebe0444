import Xylem.Runs.Step

namespace Xylem

open Xylem.Runtime

/-- A load of `fname` gets an image and memory for its entry. -/
def OpensImage (E : Env) (s : Runtime) (fname : String) (ch : LoadChoice) : Prop :=
  ch.noMem = false ∧ ∃ im, E.dlopen (s.loading E fname ch).im = some im

/-- What a failed load is to leave as it was: the tables, the lists, the region tree, the
count, the current region, and the contexts of the live entries. -/
structure Unmoved (s t : Runtime) : Prop where
  modHd : t.modHd = s.modHd
  modByRegionHd : t.modByRegionHd = s.modByRegionHd
  lists : ∀ r, t.regionMods r = s.regionMods r
  regionHd : t.regionHd = s.regionHd
  children : ∀ r, (t.regions r).children = (s.regions r).children
  modCount : t.modCount = s.modCount
  current : t.currentRegionId = s.currentRegionId ∧ t.currentRegionEntry = s.currentRegionEntry
  contexts : ∀ q e c, s.entries q = some e → e.ctx = some c →
    (t.ctxs c).regionId = (s.ctxs c).regionId ∧ (t.ctxs c).modulePath = (s.ctxs c).modulePath

/-- A load that gets as far as an entry is refused by the claim stage, the deletion at its
region takes its own pair, and no live entry has its context, unless the context already is
as the rollback leaves it. -/
def RollsBack (E : Env) (s : Runtime) (fname : String) (ch : LoadChoice) : Prop :=
  OpensImage E s fname ch →
    ¬ ClaimPasses E s s.currentRegionId (s.loading E fname ch).im ch ∧
      E.qmapDel (s.modByRegionHd ++ [(s.currentRegionId, s.entryNext)]) s.currentRegionId =
        s.modByRegionHd ∧
      ∀ q e c, s.entries q = some e → e.ctx = some c →
        s.modLoadCtx E (s.loading E fname ch).im = some c →
          s.currentRegionId = (s.ctxs c).regionId ∧ .freed = (s.ctxs c).modulePath

section Heap
variable {E : Env} {s t : Runtime}

theorem xyClaimForLoad_refused {caller : String} {id : RegionId} {bits : UInt8} {ch : LoadChoice}
    {ret : Int} (h : s.xyClaimForLoad E caller id bits ch = .ok (t, ret)) (hret : ret ≠ xyOk) :
    t.entries = s.entries ∧ t.regions = s.regions := by
  have fails : ∀ {err : Int}, Except.ok (s.setErr err, err) = (.ok (t, ret) : Res _) →
      t.entries = s.entries ∧ t.regions = s.regions := by
    intro err h
    cases h
    exact ⟨rfl, rfl⟩
  unfold xyClaimForLoad at h
  split at h
  · exact fails h
  · split at h
    · exact fails h
    · split at h
      · exact fails h
      · split at h
        · exact fails h
        · split at h
          · exact fails h
          · simp only at h
            split at h
            · exact fails h
            · simp only [Res.bind_ok, Except.ok.injEq, Prod.mk.injEq] at h
              obtain ⟨-, -, -, hok⟩ := h
              exact absurd hok.symm hret

theorem modLoadClaimIfNeeded_refused {tx : LoadTxn} {ch : LoadChoice} {ret : Int}
    (h : s.modLoadClaimIfNeeded E tx ch = .ok (t, ret)) (hret : ret ≠ xyOk) :
    t.entries = s.entries ∧ t.regions = s.regions := by
  unfold modLoadClaimIfNeeded at h
  split at h
  · cases h
    exact ⟨rfl, rfl⟩
  · cases h
    exact ⟨rfl, rfl⟩
  · split at h
    · cases h
      exact ⟨rfl, rfl⟩
    · exact xyClaimForLoad_refused h hret

/-- Binding leaves the regions and the other entries, and its entry on no list. -/
theorem modLoadBindXy_entries {tx : LoadTxn} {e : ModEntry} (he : s.entries tx.entry = some e)
    (h : s.modLoadBindXy E tx = .ok t) : t.regions = s.regions ∧
      (∀ q, q ≠ tx.entry → t.entries q = s.entries q) ∧
      ∃ e', t.entries tx.entry = some e' ∧ e'.regionEntry = e.regionEntry := by
  unfold modLoadBindXy at h
  cases hc : s.modLoadCtx E tx.handle with
  | none =>
      simp only [hc, Except.ok.injEq] at h
      subst h
      exact ⟨rfl, fun _ _ => rfl, e, he, rfl⟩
  | some c =>
      simp only [hc] at h
      obtain ⟨e', he', rfl⟩ := store_ok.mp h
      cases he.symm.trans he'
      exact ⟨rfl, fun q hq => Function.update_of_ne hq _ _, _, Function.update_self _ _ _, rfl⟩

/-- A load that the claim stage refuses leaves no entry and no region changed. -/
theorem modLoadFresh_refused {l : Loading} {ch : LoadChoice} {reload : Option ReloadFrame}
    {out : Outcome LoadFrame} (hnew : s.entries s.entryNext = none)
    (hcur : (s.regionHd s.currentRegionId).isSome) (haddr : ch.addr = l.addr)
    (hgate : ¬ ClaimPasses E s s.currentRegionId l.im ch)
    (h : s.modLoadFresh E l.fname l.im l.tmp ch reload = .ok (t, out)) :
    t.entries = s.entries ∧ t.regions = s.regions := by
  obtain ⟨r0, hr0⟩ := Option.isSome_iff_exists.mp hcur
  simp only [modLoadFresh, Res.bind_ok, haddr] at h
  obtain ⟨s2, h2, ⟨s4, ret⟩, h4, h⟩ := h
  have htree := congrArg Core.tree (modLoadBind_core hr0 rfl h2)
  have hret : ret ≠ xyOk := fun hok =>
    hgate (((modLoadClaimIfNeeded_ret h4).trans (claimPasses_congr htree _ _ _)).mp hok)
  obtain ⟨b1, b2, e, he, hre⟩ := modLoadBindXy_entries (Function.update_self _ _ _) h2
  obtain ⟨c1, c2⟩ := modLoadClaimIfNeeded_refused h4 hret
  rw [if_pos hret] at h
  simp only [Res.bind_ok, Except.ok.injEq, Prod.mk.injEq] at h
  obtain ⟨s5, h5, rfl, -⟩ := h
  have he4 : s4.entries s.entryNext = some e := (congrFun c1 s.entryNext).trans he
  obtain ⟨k1, k2⟩ := modLoadAbort_unlisted he4 hre h5
  refine ⟨?_, k2.trans (c2.trans b1)⟩
  rw [k1]
  funext q
  by_cases hq : q = s.entryNext
  · rw [hq, Function.update_self, hnew]
  · rw [Function.update_of_ne hq, c1]
    exact (b2 q hq).trans (Function.update_of_ne hq _ _)

theorem regionMods_congr {L : RegionPtr → List EntryPtr} (hw : WF s none L)
    (hents : t.entries = s.entries) (hregs : t.regions = s.regions)
    (hnext : s.entryNext ≤ t.entryNext) (r : RegionPtr) : t.regionMods r = s.regionMods r := by
  have hlinks : t.links = s.links := by
    funext q
    rw [links, links, hents]
  rw [hw.regionMods, regionMods, hregs, (hw.lists r).head]
  refine WF.seg_mods (q := none) ?_ ((hw.list_length r).trans hnext)
  rw [hlinks]
  exact (hw.lists r).seg

/-- After a refused load, only the region index and one context can differ. -/
theorem rolled_unmoved {L : RegionPtr → List EntryPtr} (hw : WF s none L) {l : Loading}
    (hents : t.entries = s.entries) (hregs : t.regions = s.regions)
    (ht : t.core = s.rolledCore E l s.currentRegionId s.tree
      (s.modByRegionHd ++ [(s.currentRegionId, s.entryNext)]) false) :
    Unmoved s t ↔
      E.qmapDel (s.modByRegionHd ++ [(s.currentRegionId, s.entryNext)]) s.currentRegionId =
          s.modByRegionHd ∧
        ∀ q e c, s.entries q = some e → e.ctx = some c → s.modLoadCtx E l.im = some c →
          s.currentRegionId = (s.ctxs c).regionId ∧ .freed = (s.ctxs c).modulePath := by
  have hindex : t.modByRegionHd =
      E.qmapDel (s.modByRegionHd ++ [(s.currentRegionId, s.entryNext)]) s.currentRegionId :=
    congrArg Core.modByRegionHd ht
  have hctxs : t.ctxs = withCtx s.ctxs (s.modLoadCtx E l.im) fun x =>
      { x with modulePath := .freed, regionId := s.currentRegionId } := congrArg Core.ctxs ht
  have hnext : t.entryNext = s.entryNext + 1 := congrArg Core.entryNext ht
  constructor
  · intro hu
    refine ⟨hindex.symm.trans hu.modByRegionHd, fun q e c he hc hctx => ?_⟩
    have hsame := hu.contexts q e c he hc
    rw [hctxs, hctx] at hsame
    simpa [withCtx] using hsame
  · rintro ⟨hdel, hshared⟩
    refine ⟨(congrArg Core.modHd ht : _), hindex.trans hdel,
      regionMods_congr hw hents hregs (hnext ▸ Nat.le_succ _), (congrArg (fun c => c.tree.hd) ht : _),
      fun r => by rw [hregs], (congrArg Core.modCount ht : _),
      ⟨(congrArg Core.currentRegionId ht : _), (congrArg Core.currentRegionEntry ht : _)⟩,
      fun q e c he hc => ?_⟩
    rw [hctxs]
    cases hctx : s.modLoadCtx E l.im with
    | none => exact ⟨rfl, rfl⟩
    | some c' =>
        by_cases hcc : c = c'
        · subst hcc
          simpa [withCtx] using hshared q e c he hc hctx
        · simp [withCtx, Function.update_of_ne hcc]

theorem modLoadOpenHandle_opens {ch : LoadChoice} (path : String)
    (him : ∃ im, E.dlopen (s.modLoadImage path ch).1 = some im) :
    (s.modLoadOpenHandle E path ch).2 = some (s.modLoadImage path ch) := by
  obtain ⟨im, him⟩ := him
  unfold modLoadOpenHandle
  simp only [him]

theorem modLoad_opened {fname : String} {ch : LoadChoice} {reload : Option ReloadFrame} {ret : Int}
    (hop : OpensImage E s fname ch) (h : s.modLoad E fname ch reload = .ok (t, .done ret))
    (hret : ret ≠ xyOk) : s.moduleLookup E fname s.currentRegionId = none ∧
      ∃ refs copy files bad,
        ({ s with
          dlRefs := refs, copyNext := copy, tmpFiles := files, badReleases := bad } : Runtime).modLoadFresh E
        fname (s.loading E fname ch).im (s.loading E fname ch).tmp ch reload = .ok (t, .done ret) := by
  have hsome := modLoadOpenHandle_opens (s := s) (E.moduleLoadPath fname) hop.2
  unfold modLoad at h
  cases ho : s.modLoadOpenHandle E (E.moduleLoadPath fname) ch with
  | mk m o =>
      obtain ⟨refs, copy, files, bad, rfl, -⟩ := modLoadOpenHandle_cases ho
      rw [ho] at hsome
      obtain rfl : o = some (s.modLoadImage (E.moduleLoadPath fname) ch) := hsome
      simp only [ho, hop.1] at h
      cases hl : s.moduleLookup E fname s.currentRegionId with
      | some p =>
          simp only [hl, Res.bind_ok, Except.ok.injEq, Prod.mk.injEq] at h
          obtain ⟨-, -, -, hok⟩ := h
          cases hok
          exact absurd rfl hret
      | none =>
          simp only [hl] at h
          rw [if_neg Bool.false_ne_true] at h
          split at h
          · cases h
          · exact ⟨rfl, refs, copy, files, bad, h⟩

/-- Loads that fail before they have an entry leave everything; others when they roll back. -/
theorem modLoad_unmoved {L : RegionPtr → List EntryPtr} (hw : WF s none L)
    (hcur : (s.regionHd s.currentRegionId).isSome) {fname : String} {ch : LoadChoice}
    {reload : Option ReloadFrame} {ret : Int}
    (h : s.modLoad E fname ch reload = .ok (t, .done ret)) (hret : ret ≠ xyOk) :
    Unmoved s t ↔ RollsBack E s fname ch := by
  by_cases hop : OpensImage E s fname ch
  · obtain ⟨hl, refs, copy, files, bad, hf⟩ := modLoad_opened hop h hret
    let m : Runtime := { s with dlRefs := refs, copyNext := copy, tmpFiles := files, badReleases := bad }
    have hgate : ClaimPasses E m s.currentRegionId (s.loading E fname ch).im ch ↔
        ClaimPasses E s s.currentRegionId (s.loading E fname ch).im ch :=
      claimPasses_congr (s := s) (t := m) rfl _ _ _
    have hway : GatedWay E m (s.loading E fname ch) ch reload t (.done ret) :=
      modLoadFresh_gated (l := s.loading E fname ch) hw.tree hcur hl
        (fun k hk => known_of_wf hw hk) (hw.fresh _ le_rfl) rfl hf
    cases hway with
    | refused ret hret hg ht =>
        obtain ⟨hents, hregs⟩ := modLoadFresh_refused (s := m) (l := s.loading E fname ch)
          (hw.fresh _ le_rfl) hcur rfl hg hf
        rw [rolled_unmoved hw hents hregs ht]
        exact ⟨fun hs _ => ⟨fun hp => hg (hgate.mpr hp), hs⟩, fun hr => (hr hop).2⟩
    | noInstall hg hni id r T index hp hasks ht =>
        have hcount : t.modCount = s.modCount + 1 := congrArg Core.modCount ht
        refine ⟨fun hu => ?_, fun hr => absurd (hgate.mp hg) (hr hop).1⟩
        have hsame := hu.modCount
        omega
  · refine ⟨fun _ ho => absurd ho hop, fun _ => ?_⟩
    cases modLoad_way h with
    | noImage refs copy files bad err ht hout =>
        rw [ht]
        exact ⟨rfl, rfl, regionMods_congr hw rfl rfl le_rfl, rfl, fun _ => rfl, rfl, ⟨rfl, rfl⟩,
          fun _ _ _ _ _ => ⟨rfl, rfl⟩⟩
    | reuse refs copy files bad p e hl he ht hout =>
        cases hout
        exact absurd rfl hret
    | fresh refs copy files bad hl hmem him ha hf => exact absurd ⟨hmem, him⟩ hop

theorem setErr_regionMods (s : Runtime) (err : Int) (r : RegionPtr) :
    (s.setErr err).regionMods r = s.regionMods r := by
  have hfrom : ∀ n p, (s.setErr err).regionModsFrom n p = s.regionModsFrom n p := by
    intro n
    induction n with
    | zero => intro p; cases p <;> rfl
    | succ n ih =>
        intro p
        cases p with
        | none => rfl
        | some p =>
            simp only [regionModsFrom, ih]
            rfl
  exact hfrom _ _

theorem unmoved_setErr (err : Int) : Unmoved s (t.setErr err) ↔ Unmoved s t := by
  constructor
  · intro h
    exact ⟨h.modHd, h.modByRegionHd, fun r => (setErr_regionMods t err r).symm.trans (h.lists r),
      h.regionHd, h.children, h.modCount, h.current, h.contexts⟩
  · intro h
    exact ⟨h.modHd, h.modByRegionHd, fun r => (setErr_regionMods t err r).trans (h.lists r),
      h.regionHd, h.children, h.modCount, h.current, h.contexts⟩

end Heap

section Runs
variable {E : Env} {s₀ s t : State} {tr : List (State × Event)}

/-- In every state that a run reaches, a load that fails is undone exactly when it rolls back. -/
theorem failed_load_undone (h : Runs E s₀ tr s) {fname : String} {ch : LoadChoice} {ret : Int}
    {ran : List EntryPtr} (hs : step E s (.load fname ch) = .ok t)
    (hst : t.status = .returned ret ran) (hret : ret ≠ xyOk) :
    Unmoved s.rt t.rt ↔ RollsBack E s.rt fname ch := by
  have hi := h.inv
  obtain ⟨L, hw⟩ := hi.wf
  obtain ⟨r, hr, rfl⟩ := Res.map_ok.mp hs
  obtain ⟨⟨n, out⟩, hm, hr⟩ := Res.bind_ok.mp hr
  cases out with
  | done ret' =>
      cases hr
      cases hst
      exact (unmoved_setErr ret).trans (modLoad_unmoved hw hi.current.id hm hret)
  | wait f =>
      cases hr
      cases hst

/-- The host has set the root's gate, and `m` has claimed a region. `p` makes no claim. -/
theorem failed_load_undone_refused : ∃ s t, Run.exec (step sampleEnv) sampleState
      [.requireClaim (some 0) 0, .load "m" { addr := 1, granted := 1 }, .installRet] = .ok s ∧
    step sampleEnv s (.load "p" { addr := 2 }) = .ok t ∧
    Unmoved s.rt t.rt ∧ RollsBack sampleEnv s.rt "p" { addr := 2 } := by
  obtain ⟨s, hs, hobs⟩ := sample_check
    [.requireClaim (some 0) 0, .load "m" { addr := 1, granted := 1 }, .installRet]
    (fun s => Run.check (step sampleEnv) s [.load "p" { addr := 2 }]
        (fun t => decide (t.status = .returned xyErrEperm [])) &&
      decide (s.rt.regionLookup s.rt.currentRegionId = some 0) && (s.rt.regions 0).requireClaim &&
      decide (sampleEnv.xyClaim (s.rt.loading sampleEnv "p" { addr := 2 }).im = none) &&
      decide (sampleEnv.qmapDel (s.rt.modByRegionHd ++ [(s.rt.currentRegionId, s.rt.entryNext)])
        s.rt.currentRegionId = s.rt.modByRegionHd) &&
      decide (s.rt.entryNext = 1) && decide ((s.rt.entries 0).bind ModEntry.ctx = some 1) &&
      decide (s.rt.modLoadCtx sampleEnv (s.rt.loading sampleEnv "p" { addr := 2 }).im = some 2)) (by decide)
  simp only [Bool.and_eq_true, decide_eq_true_eq] at hobs
  obtain ⟨⟨⟨⟨⟨⟨⟨hcheck, hhd⟩, hgate⟩, hclaim⟩, hdel⟩, hnext⟩, hctx⟩, hown⟩ := hobs
  obtain ⟨t, ht, hst⟩ := Run.of_check hcheck
  have hstep := Run.exec_single ht
  have hback : RollsBack sampleEnv s.rt "p" { addr := 2 } := by
    refine fun _ => ⟨fun hp => ?_, hdel, fun q e c he hc hload => ?_⟩
    · rw [(hp 0 hhd).1 hclaim] at hgate
      cases hgate
    · obtain ⟨L, hw⟩ := (sample_runs hs).inv.wf
      obtain rfl : q = 0 := Nat.lt_one_iff.mp (hnext ▸ hw.lt_next he)
      rw [he, Option.bind_some, hc] at hctx
      cases hown.symm.trans hload
      exact absurd hctx (by decide)
  exact ⟨s, t, hs, hstep,
    (failed_load_undone (sample_runs hs) hstep (of_decide_eq_true hst) (by decide)).mpr hback, hback⟩

/-- `bad` has no `xy_install`: its load fails, and stays counted. -/
theorem failed_load_counted : ∃ s, step sampleEnv sampleState (.load "bad" { addr := 1 }) = .ok s ∧
    s.status = .returned xyErrNotFound [] ∧ ¬ Unmoved sampleState.rt s.rt := by
  obtain ⟨s, hs, hobs⟩ := sample_check [.load "bad" { addr := 1 }]
    (fun s => decide (s.status = .returned xyErrNotFound []) &&
      decide (s.rt.modCount ≠ sampleState.rt.modCount)) (by decide)
  simp only [Bool.and_eq_true, decide_eq_true_eq] at hobs
  exact ⟨s, Run.exec_single hs, hobs.1, fun hu => hobs.2 hu.modCount⟩

end Runs

end Xylem
