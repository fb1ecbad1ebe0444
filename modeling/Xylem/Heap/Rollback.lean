import Xylem.Heap.Reloaded

namespace Xylem
namespace Runtime
variable {s t : Runtime} {E : Env}

theorem regionAllocFrom_congr (h : t.regionHd = s.regionHd) (base : RegionId) (shift n : Nat)
    (slot : BitVec 64) : t.regionAllocFrom base shift n slot = s.regionAllocFrom base shift n slot := by
  induction n generalizing slot with
  | zero => rfl
  | succ n ih => simp only [regionAllocFrom, regionLookup, h, ih]

/-- A claim of this width in region `r` is in range, accepted and finds a slot. -/
def ClaimGranted (s : Runtime) (r : RegionPtr) (bits : UInt8) (ch : LoadChoice) : Prop :=
  (bits ≠ 0 ∧ bits ≤ 64) ∧ (s.regions r).claimHandler ≠ none ∧ ch.handlerRet = xyOk ∧
    (ch.granted ≠ 0 ∧ ch.granted ≤ 64) ∧ s.regionAllocSlot r ch.granted ≠ xyRegionInvalid

/-- The claim stage lets the image into region `region`: nobody asks it for a claim,
or it makes one that is granted. -/
def ClaimPasses (E : Env) (s : Runtime) (region : RegionId) (im : ImageId) (ch : LoadChoice) : Prop :=
  ∀ r, s.regionHd region = some r →
    (E.xyClaim im = none → (s.regions r).requireClaim = false) ∧
      ∀ bits, E.xyClaim im = some bits →
        (s.regions r).claimHandler = none ∧ (s.regions r).requireClaim = false ∨
          s.ClaimGranted r bits ch

theorem claimPasses_congr (h : t.tree = s.tree) (region : RegionId) (im : ImageId) (ch : LoadChoice) :
    ClaimPasses E t region im ch ↔ ClaimPasses E s region im ch := by
  have hhd : t.regionHd = s.regionHd := congrArg Tree.hd h
  have hnode : ∀ r, (t.regions r).toRegionNode = (s.regions r).toRegionNode :=
    fun r => congrFun (congrArg Tree.node h) r
  have halloc : ∀ r bits, t.regionAllocSlot r bits = s.regionAllocSlot r bits := by
    intro r bits
    simp only [regionAllocSlot, hnode, regionAllocFrom_congr hhd]
  simp only [ClaimPasses, ClaimGranted, hhd, hnode, halloc]

/-- A load of the image into region `region` asks for a slot: the image has a width to
ask for, and the region a handler or a gate. -/
def AsksClaim (E : Env) (s : Runtime) (region : RegionId) (im : ImageId) : Prop :=
  ∃ r, s.regionHd region = some r ∧ (E.xyClaim im).isSome ∧
    ¬ ((s.regions r).claimHandler = none ∧ (s.regions r).requireClaim = false)

theorem asksClaim_congr (h : t.tree = s.tree) (region : RegionId) (im : ImageId) :
    AsksClaim E t region im ↔ AsksClaim E s region im := by
  have hhd : t.regionHd = s.regionHd := congrArg Tree.hd h
  have hnode : ∀ r, (t.regions r).toRegionNode = (s.regions r).toRegionNode :=
    fun r => congrFun (congrArg Tree.node h) r
  simp only [AsksClaim, hhd, hnode]

theorem width_iff (b : UInt8) : (b ≠ 0 ∧ b ≤ 64) ↔ ¬ (b = 0 ∨ 64 < b) := by
  rw [not_or, UInt8.not_lt]

theorem xyClaimForLoad_ret {caller : String} {id : RegionId} {bits : UInt8} {ch : LoadChoice}
    {r : RegionPtr} {ret : Int} (hr : s.regionLookup id = some r)
    (h : s.xyClaimForLoad E caller id bits ch = .ok (t, ret)) :
    ret = xyOk ↔ s.ClaimGranted r bits ch := by
  have err : ∀ {c : Int}, c ≠ xyOk → (Except.ok (s.setErr c, c) : Res (Runtime × Int)) = .ok (t, ret) →
      ret ≠ xyOk := by
    intro c hne hc
    cases hc
    exact hne
  simp only [xyClaimForLoad, hr] at h
  unfold ClaimGranted
  rw [width_iff, width_iff]
  split at h
  · rename_i hw
    exact iff_of_false (err (by decide) h) fun hg => hg.1 hw
  rename_i hw
  split at h
  · rename_i hh
    exact iff_of_false (err (by decide) h) fun hg => hg.2.1 (Option.isNone_iff_eq_none.mp hh)
  rename_i hh
  split at h
  · rename_i ha
    exact iff_of_false (err (by decide) h) fun hg => ha hg.2.2.1
  rename_i ha
  split at h
  · rename_i hg
    exact iff_of_false (err (by decide) h) fun hp => hp.2.2.2.1 hg
  rename_i hg
  split at h
  · rename_i hs
    exact iff_of_false (err (by decide) h) fun hp => hp.2.2.2.2 hs
  rename_i hs
  simp only [Res.bind_ok, Except.ok.injEq, Prod.mk.injEq] at h
  obtain ⟨_, _, _, h⟩ := h
  exact iff_of_true h.symm ⟨hw, fun hn => hh (Option.isNone_iff_eq_none.mpr hn), not_not.mp ha, hg, hs⟩

theorem modLoadClaimIfNeeded_ret {tx : LoadTxn} {ch : LoadChoice} {ret : Int}
    (h : s.modLoadClaimIfNeeded E tx ch = .ok (t, ret)) :
    ret = xyOk ↔ ClaimPasses E s tx.regionId tx.handle ch := by
  unfold modLoadClaimIfNeeded at h
  unfold ClaimPasses
  cases hr : s.regionHd tx.regionId with
  | none =>
      simp only [regionLookup, hr, Except.ok.injEq, Prod.mk.injEq] at h
      refine iff_of_true h.2.symm fun r hr' => ?_
      cases hr'
  | some r =>
      simp only [Option.some.injEq, forall_eq']
      cases hw : E.xyClaim tx.handle with
      | none =>
          simp only [regionLookup, hr, hw, Except.ok.injEq, Prod.mk.injEq] at h
          rw [← h.2]
          cases (s.regions r).requireClaim <;> simp [xyErrEperm, xyOk]
      | some bits =>
          simp only [regionLookup, hr, hw] at h
          simp only [reduceCtorEq, false_implies, true_and, Option.some.injEq, forall_eq']
          split at h
          · rename_i hopen
            simp only [Bool.and_eq_true, Option.isNone_iff_eq_none, Bool.not_eq_true'] at hopen
            simp only [Except.ok.injEq, Prod.mk.injEq] at h
            exact iff_of_true h.2.symm (.inl hopen)
          · rename_i hclosed
            simp only [Bool.and_eq_true, Option.isNone_iff_eq_none, Bool.not_eq_true'] at hclosed
            rw [xyClaimForLoad_ret hr h, or_iff_right hclosed]

theorem moduleRekeyForClaim_next {caller : String} {parent child : RegionId}
    (h : s.moduleRekeyForClaim E caller parent child = .ok t) : t.regionNext = s.regionNext := by
  unfold moduleRekeyForClaim at h
  split at h
  · obtain ⟨e, -, h⟩ := Res.bind_ok.mp h
    cases h
    unfold rekeyEntry
    cases e.ctx <;> rfl
  · cases h
    rfl

theorem xyClaimForLoad_next {caller : String} {id : RegionId} {bits : UInt8} {ch : LoadChoice}
    (h : s.xyClaimForLoad E caller id bits ch = .ok (t, xyOk)) : t.regionNext = s.regionNext + 1 := by
  have err : ∀ {v : Runtime} {c : Int}, c ≠ xyOk →
      (Except.ok (v, c) : Res (Runtime × Int)) ≠ .ok (t, xyOk) := by
    intro v c hne hc
    cases hc
    exact hne rfl
  unfold xyClaimForLoad at h
  split at h
  · exact absurd h (err (by decide))
  split at h
  · exact absurd h (err (by decide))
  split at h
  · exact absurd h (err (by decide))
  split at h
  · exact absurd h (err (by decide))
  split at h
  · exact absurd h (err (by decide))
  dsimp only at h
  split at h
  · exact absurd h (err (by decide))
  simp only [Res.bind_ok, Except.ok.injEq, Prod.mk.injEq] at h
  obtain ⟨m, hm, rfl, -⟩ := h
  have hn : m.regionNext = _ := moduleRekeyForClaim_next hm
  obtain ⟨R, hR⟩ := regionCreateChild_eq s _ _ ch.granted
  rw [hR] at hn
  exact hn

/-- The claim stage, when it succeeds, makes a region exactly if the load asks for one. -/
theorem modLoadClaimIfNeeded_next {tx : LoadTxn} {ch : LoadChoice}
    (h : s.modLoadClaimIfNeeded E tx ch = .ok (t, xyOk)) :
    (AsksClaim E s tx.regionId tx.handle → t.regionNext = s.regionNext + 1) ∧
      (¬ AsksClaim E s tx.regionId tx.handle → t.regionNext = s.regionNext) := by
  unfold modLoadClaimIfNeeded at h
  unfold AsksClaim
  cases hr : s.regionHd tx.regionId with
  | none =>
      simp only [regionLookup, hr, Except.ok.injEq, Prod.mk.injEq] at h
      rw [← h.1]
      refine ⟨fun ha => ?_, fun _ => rfl⟩
      obtain ⟨_, hr', -⟩ := ha
      cases hr'
  | some r =>
      cases hw : E.xyClaim tx.handle with
      | none =>
          simp only [regionLookup, hr, hw, Except.ok.injEq, Prod.mk.injEq] at h
          rw [← h.1]
          refine ⟨fun ha => ?_, fun _ => rfl⟩
          obtain ⟨_, _, hs, -⟩ := ha
          cases hs
      | some bits =>
          simp only [regionLookup, hr, hw] at h
          split at h
          · rename_i hopen
            simp only [Bool.and_eq_true, Option.isNone_iff_eq_none, Bool.not_eq_true'] at hopen
            simp only [Except.ok.injEq, Prod.mk.injEq] at h
            rw [← h.1]
            refine ⟨fun ha => ?_, fun _ => rfl⟩
            obtain ⟨_, hr', _, hn⟩ := ha
            cases hr'
            exact absurd hopen hn
          · rename_i hclosed
            simp only [Bool.and_eq_true, Option.isNone_iff_eq_none, Bool.not_eq_true'] at hclosed
            exact ⟨fun _ => xyClaimForLoad_next h, fun hn => (hn ⟨r, rfl, rfl, hclosed⟩).elim⟩

theorem modLoadAbort_unlisted {tx : LoadTxn} {e : ModEntry} (he : s.entries tx.entry = some e)
    (hr : e.regionEntry = none) (h : s.modLoadAbort E tx = .ok t) :
    t.entries = Function.update s.entries tx.entry none ∧ t.regions = s.regions := by
  simp only [modLoadAbort, Res.bind_ok, deref_ok, Except.ok.injEq] at h
  obtain ⟨e', he', m, hm, rfl⟩ := h
  cases he.symm.trans he'
  simp only [modLoadUnlist, hr, Except.ok.injEq] at hm
  obtain ⟨l, hl⟩ := moduleCleanupRegionState_eq E (s.modLoadRestoreContext tx) e
  rw [hl] at hm
  subst hm
  have free : ∀ (v : Runtime) (c : Option CtxPtr),
      (v.freeStableFname c).entries = v.entries ∧ (v.freeStableFname c).regions = v.regions := by
    intro v c
    cases c <;> exact ⟨rfl, rfl⟩
  have tmp : ∀ (v : Runtime) (c : Option ImageId),
      (v.unlinkTmp c).entries = v.entries ∧ (v.unlinkTmp c).regions = v.regions := by
    intro v c
    cases c <;> exact ⟨rfl, rfl⟩
  obtain ⟨f1, f2⟩ := free _ e.ctx
  obtain ⟨k1, k2⟩ := tmp _ e.tmpLoadPath
  exact ⟨f1.trans k1, f2.trans k2⟩

/-- How the claim stage decides a load that makes an entry: a load that is let in is
counted, and has a region made for it if it asked for one. -/
theorem modLoadFresh_gate {l : Loading} {ch : LoadChoice} {reload : Option ReloadFrame}
    {out : Outcome LoadFrame} (hok : s.tree.Ok)
    (hcur : (s.regionHd s.currentRegionId).isSome)
    (hk : s.modHd.lookup ⟨E.moduleLoadPath l.fname, s.currentRegionId⟩ = none)
    (haddr : ch.addr = l.addr)
    (h : s.modLoadFresh E l.fname l.im l.tmp ch reload = .ok (t, out)) :
    ¬ ClaimPasses E s s.currentRegionId l.im ch ∧ t.modCount = s.modCount ∨
      ClaimPasses E s s.currentRegionId l.im ch ∧ t.modCount = s.modCount + 1 ∧
        (AsksClaim E s s.currentRegionId l.im → t.regionNext = s.regionNext + 1) ∧
        (¬ AsksClaim E s s.currentRegionId l.im → t.regionNext = s.regionNext) := by
  obtain ⟨r0, hr0⟩ := Option.isSome_iff_exists.mp hcur
  simp only [modLoadFresh, Res.bind_ok, haddr] at h
  obtain ⟨s2, h2, ⟨s4, ret⟩, h4, h⟩ := h
  have c2 := modLoadBind_core hr0 rfl h2
  have htree := congrArg Core.tree c2
  have hnext := congrArg Tree.next htree
  obtain ⟨id, r, T, index, hp, c4, -⟩ := modLoadClaim_core hok hr0 hk rfl c2 h4
  have hcount : s4.modCount = s.modCount := congrArg Core.modCount c4
  have hentry : (s4.entries s.entryNext).map ModEntry.core = some (s.loadedEntry
      (E.moduleLoadPath l.fname) l.im l.tmp (s.modLoadCtx E l.im) id) :=
    (congrFun (congrArg Core.entries c4) s.entryNext).trans (Function.update_self _ _ _)
  obtain ⟨e, he, hec⟩ := Option.map_eq_some_iff.mp hentry
  have hret := (modLoadClaimIfNeeded_ret h4).trans (claimPasses_congr htree _ _ _)
  have hasks := asksClaim_congr (E := E) htree s.currentRegionId l.im
  split at h
  · rename_i hne
    simp only [Res.bind_ok, Except.ok.injEq, Prod.mk.injEq] at h
    obtain ⟨s5, h5, rfl, rfl⟩ := h
    exact .inl ⟨fun hg => hne (hret.mpr hg),
      (congrArg Core.modCount (modLoadAbort_core he h5)).trans hcount⟩
  · rename_i heq
    obtain rfl := not_not.mp heq
    obtain ⟨n1, n2⟩ := modLoadClaimIfNeeded_next h4
    simp only [Res.bind_ok] at h
    obtain ⟨s5, h5, h⟩ := h
    have hid : e.regionId = id := congrArg (fun e : ModEntry => e.regionId) hec
    have hr4 : s4.regionHd e.regionId = some r := by
      rw [hid]
      exact (congrFun (congrArg (fun c => c.tree.hd) c4) _).trans hp.hd
    have c5 := modLoadEnlist_core he hr4 h5
    have k1 : s5.modCount = s.modCount + 1 :=
      (congrArg Core.modCount c5).trans (congrArg (· + 1) hcount)
    have k2 : s5.regionNext = s4.regionNext := congrArg (fun c => c.tree.next) c5
    have key : ∀ v : Runtime, v.modCount = s5.modCount → v.regionNext = s5.regionNext →
        ClaimPasses E s s.currentRegionId l.im ch ∧ v.modCount = s.modCount + 1 ∧
          (AsksClaim E s s.currentRegionId l.im → v.regionNext = s.regionNext + 1) ∧
          (¬ AsksClaim E s s.currentRegionId l.im → v.regionNext = s.regionNext) := by
      intro v hv hv'
      refine ⟨hret.mp rfl, hv.trans k1, fun ha => ?_, fun ha => ?_⟩
      · exact (hv'.trans k2).trans ((n1 (hasks.mpr ha)).trans (congrArg (· + 1) hnext))
      · exact (hv'.trans k2).trans ((n2 fun hx => ha (hasks.mp hx)).trans hnext)
    split at h
    · simp only [Res.bind_ok, Except.ok.injEq, Prod.mk.injEq] at h
      obtain ⟨s6, h6, rfl, rfl⟩ := h
      have hents := congrFun (congrArg Core.entries c5) s.entryNext
      have hsome : (s5.entries s.entryNext).isSome := by
        have h7 : (s5.entries s.entryNext).map ModEntry.core = some _ :=
          hents.trans (Function.update_self _ _ _)
        obtain ⟨e', he', -⟩ := Option.map_eq_some_iff.mp h7
        rw [he']
        rfl
      obtain ⟨e', he'⟩ := Option.isSome_iff_exists.mp hsome
      have c6 := modLoadAbort_core he' h6
      exact .inr (key _ (congrArg Core.modCount c6) (congrArg (fun c => c.tree.next) c6))
    · simp only [Except.ok.injEq, Prod.mk.injEq] at h
      obtain ⟨rfl, rfl⟩ := h
      exact .inr (key _ rfl rfl)

/-- How a load that makes a fresh entry comes out, by what the claim stage says to it. -/
inductive GatedWay (E : Env) (s : Runtime) (l : Loading) (ch : LoadChoice)
    (reload : Option ReloadFrame) (t : Runtime) : Outcome LoadFrame → Prop
  | refused (ret : Int) (hret : ret ≠ xyOk)
      (hgate : ¬ ClaimPasses E s s.currentRegionId l.im ch)
      (ht : t.core = s.rolledCore E l s.currentRegionId s.tree
        (s.modByRegionHd ++ [(s.currentRegionId, s.entryNext)]) false) :
      GatedWay E s l ch reload t (.done ret)
  | noInstall (hgate : ClaimPasses E s s.currentRegionId l.im ch)
      (hi : E.dlsym l.im "xy_install" = none) (id : RegionId) (r : RegionPtr) (T : Tree)
      (index : RegionIndex) (hp : Placed E s l.im ch id r T index)
      (hasks : AsksClaim E s s.currentRegionId l.im ↔ T.next = s.regionNext + 1)
      (ht : t.core = s.rolledCore E l id T index true) :
      GatedWay E s l ch reload t (.done xyErrNotFound)
  | installs (hgate : ClaimPasses E s s.currentRegionId l.im ch)
      (fn : Fn) (hi : E.dlsym l.im "xy_install" = some fn) (id : RegionId) (r : RegionPtr)
      (T : Tree) (index : RegionIndex) (hp : Placed E s l.im ch id r T index)
      (hasks : AsksClaim E s s.currentRegionId l.im ↔ T.next = s.regionNext + 1)
      (ht : t.core = s.loadedCore E l id r T index) :
      GatedWay E s l ch reload t (.wait ⟨s.entryNext, s.currentRegionId, s.currentRegionEntry,
        s.loadingMod, reload⟩)

theorem modLoadFresh_gated {l : Loading} {ch : LoadChoice} {reload : Option ReloadFrame}
    {out : Outcome LoadFrame} (hok : s.tree.Ok)
    (hcur : (s.regionHd s.currentRegionId).isSome)
    (hk : s.modHd.lookup ⟨E.moduleLoadPath l.fname, s.currentRegionId⟩ = none)
    (hknown : ∀ k, s.modHd.lookup k ≠ none → s.regionHd k.region ≠ none)
    (hfresh : s.entries s.entryNext = none) (haddr : ch.addr = l.addr)
    (h : s.modLoadFresh E l.fname l.im l.tmp ch reload = .ok (t, out)) :
    GatedWay E s l ch reload t out := by
  have hgate := modLoadFresh_gate hok hcur hk haddr h
  have passed : t.modCount = s.modCount + 1 → ClaimPasses E s s.currentRegionId l.im ch ∧
      (AsksClaim E s s.currentRegionId l.im ↔ t.regionNext = s.regionNext + 1) := by
    intro hc
    rcases hgate with ⟨-, hc'⟩ | ⟨hp, -, h1, h2⟩
    · omega
    · refine ⟨hp, h1, fun hn => ?_⟩
      by_contra hna
      exact absurd ((h2 hna).symm.trans hn) (Nat.lt_succ_self _).ne
  cases modLoadFresh_way hok hcur hk hknown hfresh haddr h with
  | refused ret hret ht =>
      have hc : t.modCount = s.modCount := congrArg Core.modCount ht
      rcases hgate with ⟨hg, -⟩ | ⟨-, hc', -⟩
      · exact .refused ret hret hg ht
      · omega
  | noInstall hi id r T index hp ht =>
      obtain ⟨hg, hasks⟩ := passed (congrArg Core.modCount ht)
      have hn : t.regionNext = T.next := congrArg (fun c => c.tree.next) ht
      exact .noInstall hg hi id r T index hp (hn ▸ hasks) ht
  | installs fn hi id r T index hp ht =>
      obtain ⟨hg, hasks⟩ := passed (congrArg Core.modCount ht)
      have hn : t.regionNext = T.next := congrArg (fun c => c.tree.next) ht
      exact .installs hg fn hi id r T index hp (hn ▸ hasks) ht

/-- What a load does to the core, with the claim stage's decision. -/
inductive GatedEffect (E : Env) (s : Runtime) (fname : String) (ch : LoadChoice)
    (reload : Option ReloadFrame) (t : Runtime) : Outcome LoadFrame → Prop
  | same (ret : Int) (hret : ret ≠ xyOk) (ht : t.core = s.core) :
      GatedEffect E s fname ch reload t (.done ret)
  | reuse (p : EntryPtr) (e : ModEntry) (hl : s.moduleLookup E fname s.currentRegionId = some p)
      (he : s.entries p = some e)
      (ht : t.core = (s.setEntry p (some { e with refcount := e.refcount + 1 })).core) :
      GatedEffect E s fname ch reload t (.done xyOk)
  | fresh (out : Outcome LoadFrame) (hl : s.moduleLookup E fname s.currentRegionId = none)
      (hmem : ch.noMem = false) (him : ∃ im, E.dlopen (s.loading E fname ch).im = some im)
      (hf : GatedWay E s (s.loading E fname ch) ch reload t out) :
      GatedEffect E s fname ch reload t out

theorem modLoad_gated {L : RegionPtr → List EntryPtr} (hw : WF s none L)
    (hcur : (s.regionHd s.currentRegionId).isSome) {fname : String} {ch : LoadChoice}
    {reload : Option ReloadFrame} {out : Outcome LoadFrame}
    (h : s.modLoad E fname ch reload = .ok (t, out)) : GatedEffect E s fname ch reload t out := by
  cases modLoad_way h with
  | noImage refs copy files bad err ht hout =>
      obtain ⟨ret, hret, rfl⟩ := hout
      exact .same ret hret (by rw [ht]; rfl)
  | reuse refs copy files bad p e hl he ht hout =>
      rw [hout]
      exact .reuse p e hl he (by rw [ht]; rfl)
  | fresh refs copy files bad hl hmem him ha hf =>
      refine .fresh out hl hmem him ?_
      have hw' : GatedWay E
          { s with dlRefs := refs, copyNext := copy, tmpFiles := files, badReleases := bad }
          (s.loading E fname ch) ch reload t out :=
        modLoadFresh_gated (l := s.loading E fname ch) hw.tree hcur hl
          (fun k hk => known_of_wf hw hk) (hw.fresh _ le_rfl) rfl hf
      have hgate := claimPasses_congr (E := E) (s := s)
        (t := { s with dlRefs := refs, copyNext := copy, tmpFiles := files, badReleases := bad }) rfl
        s.currentRegionId (s.loading E fname ch).im ch
      have hplaced : ∀ {id r T index},
        Placed E { s with dlRefs := refs, copyNext := copy, tmpFiles := files, badReleases := bad }
          (s.loading E fname ch).im ch id r T index →
          Placed E s (s.loading E fname ch).im ch id r T index := by
        intro id r T index hp
        cases hp with
        | stays r hr => exact .stays r hr
        | claims r k hasks hk =>
            exact .claims r k ⟨hasks.region, hasks.width, hasks.handler, hasks.accepted,
              hasks.granted_pos, hasks.granted_le⟩ hk
      cases hw' with
      | refused ret hret hg ht => exact .refused ret hret (fun hp => hg (hgate.mpr hp)) ht
      | noInstall hg hi id r T index hp hasks ht =>
          exact .noInstall (hgate.mp hg) hi id r T index (hplaced hp) hasks ht
      | installs hg fn hi id r T index hp hasks ht =>
          exact .installs (hgate.mp hg) fn hi id r T index (hplaced hp) hasks ht

theorem GatedWay.way {l : Loading} {ch : LoadChoice} {reload : Option ReloadFrame}
    {out : Outcome LoadFrame} (h : GatedWay E s l ch reload t out) :
    FreshWay E s l ch reload t out := by
  cases h with
  | refused ret hret hgate ht => exact .refused ret hret ht
  | noInstall hgate hi id r T index hp hasks ht => exact .noInstall hi id r T index hp ht
  | installs hgate fn hi id r T index hp hasks ht => exact .installs fn hi id r T index hp ht

theorem GatedEffect.of_core {fname : String} {ch : LoadChoice} {reload : Option ReloadFrame}
    {out : Outcome LoadFrame} {n : Runtime} (h : GatedEffect E s fname ch reload t out)
    (hc : n.core = t.core) : GatedEffect E s fname ch reload n out := by
  cases h with
  | same ret hret ht => exact .same ret hret (hc.trans ht)
  | reuse p e hl he ht => exact .reuse p e hl he (hc.trans ht)
  | fresh out hl hmem him hf =>
      refine .fresh out hl hmem him ?_
      cases hf with
      | refused ret hret hg ht => exact .refused ret hret hg (hc.trans ht)
      | noInstall hg hi id r T index hp hasks ht =>
          exact .noInstall hg hi id r T index hp hasks (hc.trans ht)
      | installs hg fn hi id r T index hp hasks ht =>
          exact .installs hg fn hi id r T index hp hasks (hc.trans ht)

end Runtime
end Xylem
