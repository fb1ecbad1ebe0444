import Xylem.Ops.Accounts
import Xylem.Runs.Last
import Xylem.Runs.Lifetimes

/-!
# References and copies over whole runs

Every call, failing or not, leaves each `dlopen` reference and each temporary copy with a
live entry, if it did not lose the name of a copy. The shutdown releases them all.
-/
namespace Xylem

open Xylem.Runtime

namespace Runtime
variable {s t : Runtime} {E : Env}

/-- The references held on each image are those of the live entries with that handle, the
copies on disk are those of live entries, and each release was of something held. -/
structure Accounted (s : Runtime) : Prop where
  holds : s.files.Holds s.holdings.holders
  below : ∀ p x, s.holdings.own p = some x → p < s.holdings.next

theorem Accounted.congr (h : Accounted s) (hf : t.files = s.files) (ho : t.holdings = s.holdings) :
    Accounted t := by
  constructor
  · rw [hf, ho]
    exact h.holds
  · rw [ho]
    exact h.below

theorem Accounted.released {p : EntryPtr} (h : Accounted s) (hr : Released s t p) : Accounted t := by
  obtain ⟨x, hx, hf⟩ := hr.files
  constructor
  · rw [hr.holdings, hf]
    exact (h.holds.perm (Holdings.holders_set (h.below p x hx) hx)).release
  · rw [hr.holdings]
    exact Holdings.set_below h.below

theorem Accounted.unload {fuel : Nat} {fname : String} {region : RegionId} {ret : Int}
    (h : Accounted s) (hu : s.modUnload E fuel fname region = .ok (t, ret)) : Accounted t := by
  refine modUnload_rel (fun a b => Accounted a → Accounted b) ?_ ?_ ?_ ?_ ?_ fuel hu h
  · exact fun _ ha => ha
  · exact fun _ _ _ hab hbc ha => hbc (hab ha)
  · exact fun _ ha => ha.congr rfl rfl
  · exact fun _ p e he ha => ha.congr rfl (setEntry_holdings he rfl)
  · exact fun _ _ p hp ha => ha.released (modUnloadEntry_released hp).2

/-- A fresh entry holds what the load has taken; a rollback gives it back. -/
theorem modLoadFresh_holdings {fname : String} {h : ImageId} {tmp : Option ImageId}
    {ch : LoadChoice} {reload : Option ReloadFrame} {out : Outcome LoadFrame}
    (hl : s.modLoadFresh E fname h tmp ch reload = .ok (t, out)) :
    t.files = s.files ∧ t.holdings = s.holdings.add (h, tmp) ∨
      t.files = s.files.release h tmp ∧
        t.holdings = (s.holdings.add (h, tmp)).set s.entryNext none := by
  unfold modLoadFresh at hl
  obtain ⟨m, hm, hl⟩ := Res.bind_ok.mp hl
  obtain ⟨⟨n, ret⟩, hn, hl⟩ := Res.bind_ok.mp hl
  have hpub : ∀ key addr, (s.modLoadPublishEntry key h tmp addr).holdings = s.holdings.add (h, tmp) :=
    fun key addr => congrArg (fun o : Holdings => { o with next := s.entryNext + 1 })
      (setEntry_holdings_set s s.entryNext _)
  have hbound := modLoadBindXy_apart hm
  have hclaim := modLoadClaimIfNeeded_apart hn
  have hfiles : n.files = s.files := hclaim.files.trans hbound.files
  have hown : n.holdings = s.holdings.add (h, tmp) :=
    (hclaim.holdings.trans hbound.holdings).trans (hpub _ _)
  have hnew : (s.holdings.add (h, tmp)).own s.entryNext = some (h, tmp) := Function.update_self ..
  have aborted : ∀ {a b : Runtime} {tx : LoadTxn}, tx.entry = s.entryNext → tx.handle = h →
      a.files = s.files → a.holdings = s.holdings.add (h, tmp) → a.modLoadAbort E tx = .ok b →
      b.files = s.files.release h tmp ∧
        b.holdings = (s.holdings.add (h, tmp)).set s.entryNext none := by
    intro a b tx hentry hhandle haf hao hab
    obtain ⟨-, ho, x, hx, hf⟩ := modLoadAbort_files hab
    rw [hao, hentry, hnew] at hx
    cases hx
    exact ⟨by rw [hf, haf, hhandle], by rw [ho, hao, hentry]⟩
  simp only at hl
  split at hl
  · obtain ⟨u, hu, hl⟩ := Res.bind_ok.mp hl
    cases hl
    exact .inr (aborted rfl rfl hfiles hown hu)
  · obtain ⟨u, hu, hl⟩ := Res.bind_ok.mp hl
    have hlist := modLoadEnlist_apart hu
    split at hl
    · obtain ⟨v, hv, hl⟩ := Res.bind_ok.mp hl
      cases hl
      exact .inr (aborted rfl rfl (hlist.files.trans hfiles) (hlist.holdings.trans hown) hv)
    · cases hl
      exact .inl ⟨hlist.files.trans hfiles, hlist.holdings.trans hown⟩

/-- The load does not lose the name of a copy it makes. -/
def KeepsName (s : Runtime) (ch : LoadChoice) : Prop :=
  s.reloading = true → ch.copied = true → ch.named = true

theorem copyToTmp_files (path : String) {ch : LoadChoice} (hn : KeepsName s ch) :
    (s.copyToTmp path ch).files = s.files.copied (s.modLoadImage path ch).2 := by
  unfold copyToTmp modLoadImage
  cases hr : s.reloading <;> cases hc : ch.copied
  · rfl
  · rfl
  · rfl
  · rw [hn hr hc]
    rfl

theorem copyToTmp_holdings (s : Runtime) (path : String) (ch : LoadChoice) :
    (s.copyToTmp path ch).holdings = s.holdings := by
  unfold copyToTmp
  split <;> rfl

theorem modLoadImage_fresh (path : String) (ch : LoadChoice) (f : ImageId)
    (h : (s.modLoadImage path ch).2 = some f) : f.copy = s.files.copyNext := by
  unfold modLoadImage at h
  split at h
  · simp only at h
    split at h
    · cases h
      rfl
    · cases h
  · cases h

theorem Accounted.load {fname : String} {ch : LoadChoice} {reload : Option ReloadFrame}
    {out : Outcome LoadFrame} (h : Accounted s) (hn : KeepsName s ch)
    (hl : s.modLoad E fname ch reload = .ok (t, out)) : Accounted t := by
  have hfiles := copyToTmp_files (E.moduleLoadPath fname) hn
  have hown := copyToTmp_holdings s (E.moduleLoadPath fname) ch
  have hnum := modLoadImage_fresh (s := s) (E.moduleLoadPath fname) ch
  unfold modLoad at hl
  simp only [modLoadOpenHandle] at hl
  generalize s.copyToTmp (E.moduleLoadPath fname) ch = c at hfiles hown hl
  generalize s.modLoadImage (E.moduleLoadPath fname) ch = x at hfiles hnum hl
  obtain ⟨im, tmp⟩ := x
  cases hd : E.dlopen im with
  | none =>
      simp only [hd, Except.ok.injEq, Prod.mk.injEq] at hl
      rw [← hl.1]
      refine ⟨?_, ?_⟩
      · show ((c.unlinkTmp tmp).files).Holds ((c.unlinkTmp tmp).holdings).holders
        rw [unlinkTmp_files, unlinkTmp_holdings, hfiles, hown]
        exact h.holds.tried
      · show ∀ p y, (c.unlinkTmp tmp).holdings.own p = some y → p < (c.unlinkTmp tmp).holdings.next
        rw [unlinkTmp_holdings, hown]
        exact h.below
  | some image =>
      have htaken := h.holds.taken (h := im) hnum
      simp only [hd] at hl
      have hmf : ({ c with dlRefs := Function.update c.dlRefs im (c.dlRefs im + 1) } : Runtime).files =
          (s.files.copied tmp).opened im := by
        rw [← hfiles]
        rfl
      have back : ∀ {b : Runtime}, b.files = ((s.files.copied tmp).opened im).release im tmp →
          b.holdings = s.holdings → Accounted b := by
        intro b hf ho
        constructor
        · rw [hf, ho]
          exact htaken.release
        · rw [ho]
          exact h.below
      split at hl
      · obtain ⟨n, hn, hl⟩ := Res.bind_ok.mp hl
        cases hl
        have hna := store_apart hn fun _ => rfl
        refine back ?_ ?_
        · rw [close_unlink_files, hna.files, hmf]
        · rw [unlinkTmp_holdings]
          exact hna.holdings.trans hown
      · split at hl
        · cases hl
          refine back ?_ ?_
          · rw [← Files.close_unlink, ← hmf, ← unlinkTmp_files]
            rfl
          · exact (unlinkTmp_holdings _ tmp).trans hown
        · split at hl
          · cases hl
          · have hnext : c.entryNext = s.entryNext := congrArg Holdings.next hown
            have hadd : Holdings.add _ (im, tmp) = s.holdings.add (im, tmp) :=
              congrArg (Holdings.add · (im, tmp)) hown
            rcases modLoadFresh_holdings hl with ⟨hf, ho⟩ | ⟨hf, ho⟩
            · rw [hmf] at hf
              have ho' := ho.trans hadd
              constructor
              · rw [hf, ho', Holdings.holders_add]
                exact htaken.perm (List.perm_append_singleton _ _).symm
              · rw [ho']
                exact Holdings.add_below h.below
            · rw [hmf] at hf
              have ho' : t.holdings = (s.holdings.add (im, tmp)).set s.entryNext none := by
                rw [ho, ← hadd, ← hnext]
                rfl
              constructor
              · rw [hf, ho']
                exact htaken.release.perm (Holdings.holders_add_set _ _).symm
              · rw [ho']
                exact Holdings.set_below (Holdings.add_below h.below)

theorem Accounted.reload {fuel : Nat} {fname : String} {ch : LoadChoice} {out : Outcome LoadFrame}
    (h : Accounted s) (hn : (s.moduleLookup E fname s.currentRegionId).isSome →
      ch.copied = true → ch.named = true)
    (hl : s.xyReload E fuel fname ch = .ok (t, out)) : Accounted t := by
  unfold xyReload at hl
  simp only at hl
  split at hl
  · cases hl
    exact h.congr rfl rfl
  · rename_i p hp
    obtain ⟨e, -, hl⟩ := Res.bind_ok.mp hl
    obtain ⟨⟨m, ret⟩, hm, hl⟩ := Res.bind_ok.mp hl
    have hma := h.unload hm
    simp only at hl
    split at hl
    · cases hl
      exact hma.congr rfl rfl
    · obtain ⟨⟨n, o⟩, hload, hl⟩ := Res.bind_ok.mp hl
      have hna : Accounted n := by
        refine Accounted.load (s := { m with reloading := true }) (hma.congr rfl rfl) ?_ hload
        exact fun _ => hn (by rw [hp]; rfl)
      cases o with
      | wait f =>
          cases hl
          exact hna
      | done r =>
          simp only at hl
          split at hl
          · cases hl
            exact hna.congr rfl rfl
          · obtain ⟨u, hu, hl⟩ := Res.bind_ok.mp hl
            cases hl
            have hfin : Apart { n with reloading := false } u := xyReloadFinish_apart hu
            exact hna.congr hfin.files hfin.holdings

theorem xyAreg_account (E : Env) (s : Runtime) (reg : AdapterPtr) :
    (s.xyAreg E reg).1.files = s.files ∧ (s.xyAreg E reg).1.holdings = s.holdings := by
  unfold xyAreg
  simp only
  split
  · exact ⟨rfl, rfl⟩
  · split
    · exact ⟨rfl, rfl⟩
    · refine ⟨rfl, ?_⟩
      have hpre := fun e => ModEntry.own_of_core (ModEntry.fnCachePrewarm_core E
        (s.hookIdHd.insert (s.adapters reg).name s.hookIdCounter).entries e)
      exact mapEntries_holdings _ _ hpre

theorem xyDeny_account (E : Env) (s : Runtime) (what : String) (type : DenyType) :
    (s.xyDeny E what type).1.files = s.files ∧ (s.xyDeny E what type).1.holdings = s.holdings := by
  unfold xyDeny
  split
  · exact ⟨rfl, rfl⟩
  · rename_i r hr
    have hup : ∀ u : Runtime, Apart u ((u.regionPropagateDeny r).regionDispatchGenBump r) := fun u =>
      (foldl_setRegion_apart _ (u.upward r) u).trans (regionDispatchGenBump_apart _ r)
    cases type
    · exact ⟨(hup _).files, (hup _).holdings⟩
    · exact ⟨(hup _).files, (hup _).holdings⟩

theorem callLoop_account {left : Nat} {f : CallFrame} {r : Int ⊕ CallFrame}
    (h : s.callLoop left f = .ok (t, r)) : t.files = s.files ∧ t.holdings = s.holdings := by
  cases callLoop_effect h with
  | ends hret ht =>
      obtain ⟨bufs, p, b, e, heq⟩ := callFinish_eq s f
      rw [ht, heq]
      exact ⟨rfl, rfl⟩
  | enters k p me c he hc ht =>
      obtain ⟨id, r, heq, -⟩ := callEnter_eq s { f with mi := k } p me c
      rw [ht, heq]
      exact ⟨rfl, rfl⟩

theorem callFail_account (s : Runtime) (retp : Option BufPtr) (reg : AdapterPtr) (ret : Int) :
    (s.callFail retp reg ret).files = s.files ∧ (s.callFail retp reg ret).holdings = s.holdings := by
  obtain ⟨bufs, p, b, h⟩ := callFail_eq s retp reg ret
  rw [h]
  exact ⟨rfl, rfl⟩

theorem xyCall_account {retp : Option BufPtr} {reg : Option AdapterPtr} {r : Int ⊕ CallFrame}
    (h : s.xyCall E retp reg = .ok (t, r)) : t.files = s.files ∧ t.holdings = s.holdings := by
  cases reg with
  | none =>
      cases h
      exact ⟨rfl, rfl⟩
  | some reg =>
      obtain ⟨a, hres, -⟩ := callResolve_spec s reg
      have hrf : (s.callResolve reg).1.files = s.files := by rw [hres]; rfl
      have hrh : (s.callResolve reg).1.holdings = s.holdings := by rw [hres]; rfl
      obtain ⟨⟨m, out⟩, hm, h⟩ := Res.bind_ok.mp h
      cases callPrepare_way hm with
      | fails ret he =>
          cases h
          obtain ⟨h1, h2⟩ := callFail_account (s.callResolve reg).1 retp reg ret
          exact ⟨h1.trans hrf, h2.trans hrh⟩
      | denied i call he hd =>
          cases h
          obtain ⟨h1, h2⟩ := callFail_account (s.callResolve reg).1 retp reg xyErrEperm
          exact ⟨h1.trans hrf, h2.trans hrh⟩
      | nowhere i call he hd hc =>
          obtain ⟨h1, h2⟩ := callLoop_account h
          exact ⟨h1.trans hrf, h2.trans hrh⟩
      | loops i call he hd R hR t ht =>
          obtain ⟨h1, h2⟩ := callLoop_account h
          have hv := callVector_apart ht
          exact ⟨(h1.trans hv.files).trans hrf, (h2.trans hv.holdings).trans hrh⟩

theorem installReturn_account {f : LoadFrame} (h : s.installReturn E f = .ok t) :
    t.files = s.files ∧ t.holdings = s.holdings := by
  unfold installReturn at h
  simp only at h
  split at h
  · cases h
    exact ⟨rfl, rfl⟩
  · obtain ⟨m, hm, h⟩ := Res.bind_ok.mp h
    cases h
    exact ⟨(xyReloadFinish_apart hm).files, (xyReloadFinish_apart hm).holdings⟩

theorem Accounted.freeAll {l : List EntryPtr} (h : Accounted s)
    (hl : l.foldlM (moduleFreeEntry E) s = .ok t) : Accounted t := by
  refine foldlM_rel (fun a b => Accounted a → Accounted b) (fun _ ha => ha)
    (fun _ _ _ hab hbc ha => hbc (hab ha)) ?_ hl h
  exact fun _ p _ hp ha => ha.released (moduleFreeEntry_released hp).2

end Runtime

section Steps
variable {E : Env}

/-- The copies that a load makes keep their names: a load makes one while a reload is under
way, and a reload does if it finds its module. -/
def CopiesNamed (E : Env) (s : Runtime) (e : Event) : Prop :=
  (∀ fname ch, e = .load fname ch → s.KeepsName ch) ∧
    ∀ fname ch fuel, e = .reload fname ch fuel →
      (s.moduleLookup E fname s.currentRegionId).isSome → ch.copied = true → ch.named = true

theorem step_accounted {s t : State} {e : Event} (ha : Accounted s.rt) (hn : CopiesNamed E s.rt e)
    (h : step E s e = .ok t) : Accounted t.rt := by
  cases e with
  | areg a =>
      cases h
      exact ha.congr (xyAreg_account E s.rt a).1 (xyAreg_account E s.rt a).2
  | selfInitCtx c =>
      cases h
      exact ha.congr rfl rfl
  | load fname ch =>
      obtain ⟨⟨m, out⟩, hm, rfl⟩ := Res.map_ok.mp h
      obtain ⟨⟨n, o⟩, hl, hm⟩ := Res.bind_ok.mp hm
      have hload : Accounted n := ha.load (hn.1 fname ch rfl) hl
      cases o with
      | done ret =>
          cases hm
          exact hload.congr rfl rfl
      | wait f =>
          cases hm
          exact hload
  | unload fname fuel =>
      obtain ⟨⟨m, ret⟩, hm, rfl⟩ := Res.map_ok.mp h
      obtain ⟨⟨n, r⟩, hu, hm⟩ := Res.bind_ok.mp hm
      cases hm
      exact (ha.unload hu).congr rfl rfl
  | reload fname ch fuel =>
      obtain ⟨⟨m, out⟩, hm, rfl⟩ := Res.map_ok.mp h
      have hload := ha.reload (hn.2 fname ch fuel rfl) hm
      cases out <;> exact hload
  | deny what type =>
      cases h
      exact ha.congr (xyDeny_account E s.rt what type).1 (xyDeny_account E s.rt what type).2
  | requireClaim fn ud =>
      cases h
      show Accounted (s.rt.xyRequireClaim fn ud).1
      unfold xyRequireClaim
      split
      · exact ha.congr rfl rfl
      · cases fn <;> exact ha.congr rfl rfl
  | call retp reg =>
      obtain ⟨⟨m, r⟩, hm, rfl⟩ := Res.map_ok.mp h
      obtain ⟨hf, ho⟩ := xyCall_account hm
      cases r <;> exact ha.congr hf ho
  | last ret =>
      cases h
      show Accounted (s.rt.xyLast ret).1
      unfold xyLast
      split
      · exact ha.congr rfl rfl
      · split
        · exact ha.congr rfl rfl
        · simp only
          split <;> exact ha.congr rfl rfl
  | withRegion id =>
      cases h
      unfold xyWithRegion
      split <;> exact ha.congr rfl rfl
  | bodyRet result =>
      simp only [step] at h
      split at h
      · rename_i f rest hst
        obtain ⟨⟨m, r⟩, hm, rfl⟩ := Res.map_ok.mp h
        obtain ⟨hf, ho⟩ := callLoop_account (bodyReturn_ok hm)
        have hleft : Accounted (s.rt.bodyLeft f result) := by
          unfold bodyLeft
          cases f.retp <;> cases f.regionChanged <;> exact ha.congr rfl rfl
        cases r <;> exact hleft.congr hf ho
      · cases h
  | installRet =>
      simp only [step] at h
      split at h
      · obtain ⟨m, hm, rfl⟩ := Res.map_ok.mp h
        exact ha.congr (installReturn_account hm).1 (installReturn_account hm).2
      · cases h
  | scopeRet code =>
      simp only [step] at h
      split at h
      · cases h
        exact ha.congr rfl rfl
      · cases h

def NamesKept (E : Env) (l : Life) (e : LifeEvent) (_ : Life) : Prop :=
  ∀ c, e = .call c → CopiesNamed E l.st.rt c

theorem regionEnsureRoot_account (s : Runtime) :
    s.regionEnsureRoot.files = s.files ∧ s.regionEnsureRoot.holdings = s.holdings := by
  unfold regionEnsureRoot
  cases s.regionLookup xyRegionRoot with
  | none =>
      simp only
      split <;> exact ⟨rfl, rfl⟩
  | some root =>
      simp only
      split <;> exact ⟨rfl, rfl⟩

theorem life_accounted {l m : Life} {e : LifeEvent} (hs : lifeStep E l e = .ok m)
    (hn : NamesKept E l e m) (ha : Accounted l.st.rt) : Accounted m.st.rt := by
  cases e with
  | call e =>
      simp only [lifeStep] at hs
      split at hs
      · obtain ⟨t, ht, rfl⟩ := Res.map_ok.mp hs
        exact step_accounted ha (hn e rfl) ht
      · cases hs
  | init =>
      simp only [lifeStep] at hs
      split at hs
      · cases hs
        exact ha.congr rfl rfl
      · cases hs
        obtain ⟨hf, ho⟩ := regionEnsureRoot_account { l.st.rt with
          modHd := ∅, modByRegionHd := [], regionHd := fun _ => none, genBumps := 0 }
        exact ha.congr hf ho
  | shutdown =>
      simp only [lifeStep] at hs
      split at hs
      · split at hs
        · obtain ⟨t, ht, rfl⟩ := Res.map_ok.mp hs
          obtain ⟨n, hfree, hr⟩ := Res.bind_ok.mp ht
          cases hr
          exact (ha.freeAll hfree).congr rfl rfl
        · cases hs
          exact ha.congr rfl rfl
      · cases hs

theorem Launch.accounted {l : Life} (h : Launch l) : Accounted l.st.rt := by
  have hnone : ∀ p, l.st.rt.holdings.own p = none := by
    intro p
    simp [holdings, h.entries]
  have hholders : l.st.rt.holdings.holders = [] := by
    apply List.filterMap_eq_nil_iff.mpr
    intro p _
    exact hnone p
  have hfiles : l.st.rt.files.tmpFiles = [] := h.tmpFiles
  constructor
  · rw [hholders]
    refine ⟨fun i => congrFun h.dlRefs i, ?_, ?_, ?_, h.badReleases⟩
    · rw [hfiles]
      exact .refl []
    · rw [hfiles]
      exact List.nodup_nil
    · rw [hfiles]
      exact fun _ hf => absurd hf List.not_mem_nil
  · intro p x hp
    rw [hnone p] at hp
    cases hp

/-- Every state of a run in which no load loses the name of a copy is accounted for. -/
theorem handles_and_copies_accounted {l₀ l : Life} {tr : List (Life × LifeEvent)}
    (hrun : Lives E l₀ tr l) (hn : Run.Every (lifeStep E) (NamesKept E) tr) :
    ∀ u ∈ Run.states tr l, Accounted u.st.rt :=
  hrun.2.invariant_states (fun _ _ _ hs hc ha => life_accounted hs hc ha) hn hrun.1.accounted

def keepsNames : LifeEvent → Bool
  | .call (.load _ ch) => ch.named
  | .call (.reload _ ch _) => ch.named
  | _ => true

theorem keepsNames_ok {l m : Life} {e : LifeEvent} (h : keepsNames e = true) : NamesKept E l e m := by
  rintro c rfl
  constructor
  · rintro fname ch rfl _ _
    exact h
  · rintro fname ch fuel rfl _ _
    exact h

end Steps

/-- A load, a reload, a load without `xy_install`, and the shutdown. -/
theorem accounted_until_shutdown : ∃ l, Run.exec (lifeStep sampleEnv) sampleLife
      [.init, .call (.load "p" {}), .call .installRet, .call (.reload "p" { addr := 1 } 9),
        .call .installRet, .call (.load "bad" { addr := 2 }), .shutdown] = .ok l ∧
    Accounted l.st.rt := by
  obtain ⟨l, hl, -⟩ := Run.exec_of_check (lifeStep sampleEnv) sampleLife
    [.init, .call (.load "p" {}), .call .installRet, .call (.reload "p" { addr := 1 } 9),
      .call .installRet, .call (.load "bad" { addr := 2 }), .shutdown] (fun _ => true) (by decide +kernel)
  refine ⟨l, hl, handles_and_copies_accounted ⟨sampleLife_launch, Run.exec_steps hl⟩ ?_ l ?_⟩
  · apply Run.every_of_events
    intro e he m t
    exact keepsNames_ok (List.all_eq_true.mp (by decide) e he)
  · exact List.mem_append_right _ List.mem_cons_self

def hostFiles : String → Option Image
  | "" => some { exports := fun _ => false }
  | path => sampleFiles path

/-- The reload has copied the file but has no memory for the name of the copy: it opens the
main program, finds no `xy_install` there, and leaves a copy that nobody owns. -/
theorem copy_without_owner : ∃ l, Run.exec (lifeStep (plainEnv hostFiles)) sampleLife
      [.init, .call (.load "p" {}), .call .installRet,
        .call (.reload "p" { named := false, addr := 1 } 9)] = .ok l ∧
    l.st.stack = [] ∧ ¬ Accounted l.st.rt := by
  obtain ⟨l, hl, hobs⟩ := Run.exec_of_check (lifeStep (plainEnv hostFiles)) sampleLife
    [.init, .call (.load "p" {}), .call .installRet,
      .call (.reload "p" { named := false, addr := 1 } 9)]
    (fun l => decide (l.st.stack = []) && decide (l.st.rt.files.tmpFiles.length = 1) &&
      decide (l.st.rt.holdings.holders = [])) (by decide)
  simp only [Bool.and_eq_true, decide_eq_true_eq] at hobs
  obtain ⟨⟨hstack, hfiles⟩, hholders⟩ := hobs
  refine ⟨l, hl, hstack, fun h => ?_⟩
  have hcopies := h.holds.copies.length_eq
  rw [hholders, hfiles] at hcopies
  cases hcopies

end Xylem
