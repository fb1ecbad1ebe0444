import Mathlib.Data.List.Infix
import Xylem.Runs.References

namespace Xylem

open Xylem.Runtime

/-- The reload made in `s` has torn down the entry at `p`, with the clean-up of its block.
It has made the entry now found in its place, with `n` references, and run its `xy_install`
from a copy of the file that it has made and opened. -/
structure Replaced (E : Env) (s : State) (fname : String) (ch : LoadChoice) (fuel : Nat)
    (p : EntryPtr) (n : Int) (t : State) : Prop where
  gone : t.rt.entries p = none
  cleaned : ∃ l, t.rt.cleanups = s.rt.cleanups ++ l ∧ ∀ e b, s.rt.entries p = some e →
    e.regionState = some b → (b, E.dlsym e.handle "xy_region_cleanup") ∈ l
  made : ∃ q x m f fn, s.rt.entries q = none ∧
    step E s (.reload fname ch fuel) = .ok m ∧ m.stack = .install f :: s.stack ∧
    m.status = .entered ∧ f.modEntry = q ∧
    t.rt.moduleLookup E fname s.rt.currentRegionId = some q ∧ t.rt.entries q = some x ∧
    x.refcount = n ∧ x.handle = reloadImage E s.rt fname ch ∧ x.tmpLoadPath = some x.handle ∧
    E.dlsym x.handle "xy_install" = some fn

section
variable {E : Env} {s₀ s t : State} {fname : String} {ch : LoadChoice} {fuel : Nat}
  {tr₀ tr : List (State × Event)} {p q : EntryPtr} {e x : ModEntry} {L : RegionPtr → List EntryPtr}

theorem lookup_iff {s : Runtime} {region : RegionId} (hw : WF s none L) (hx : s.entries q = some x)
    (hpath : x.loadPath = E.moduleLoadPath fname) :
    s.moduleLookup E fname region = some q ↔ x.regionId = region := by
  obtain ⟨hkey, hlook⟩ := hw.key q x hx
  constructor
  · intro hl
    exact hw.lookup_region hl hx
  · rintro rfl
    rw [moduleLookup, ← hpath, ← hkey]
    exact hlook

/-- The entry that a reload has made is what it was when its `xy_install` started. -/
theorem reload_entry {n : Runtime} {f : LoadFrame} (hst : ReloadStarts E s.rt fname ch p e n f)
    (hk : OldKept n.entryNext n t.rt) (hx : t.rt.entries s.rt.entryNext = some x) :
    x.handle = reloadImage E s.rt fname ch ∧ x.tmpLoadPath = reloadCopy E s.rt fname ch ∧
      x.loadPath = E.moduleLoadPath fname ∧ x.parentEntry = s.rt.loadingMod ∧
        (x.regionId = s.rt.currentRegionId ↔
        ¬ AsksClaim E s.rt s.rt.currentRegionId (reloadImage E s.rt fname ch)) := by
  obtain ⟨y, hy, hhandle, hpath, hparent, -, hcopy, hregion⟩ := hst.entry
  have hlt : s.rt.entryNext < n.entryNext := (Nat.lt_succ_self _).trans_eq hst.next.symm
  obtain ⟨y', hy', hid⟩ := hk _ hlt x hx
  cases hy.symm.trans hy'
  have h1 : x.handle = y.handle := (congrArg ModEntry.handle hid : _)
  have h2 : x.loadPath = y.loadPath := (congrArg ModEntry.loadPath hid : _)
  have h3 : x.parentEntry = y.parentEntry := (congrArg ModEntry.parentEntry hid : _)
  have h4 : x.regionId = y.regionId := (congrArg ModEntry.regionId hid : _)
  have h5 : x.tmpLoadPath = y.tmpLoadPath := (congrArg ModEntry.tmpLoadPath hid : _)
  exact ⟨h1.trans hhandle, h5.trans hcopy, h2.trans hpath, h3.trans hparent, h4 ▸ hregion⟩

/-- A reload with one reference puts its entry into the same region and below the same
parent just if that parent is being installed and the region asks the image for no claim. -/
theorem reload_keeps_place (h : Runs E s₀ tr₀ s) (hr : Reloads E s fname ch fuel tr t)
    (hl : s.rt.moduleLookup E fname s.rt.currentRegionId = some p) (he : s.rt.entries p = some e)
    (hone : e.refcount = 1) (hx : t.rt.entries s.rt.entryNext = some x) :
    (x.regionId = e.regionId ∧ x.parentEntry = e.parentEntry) ↔
      s.rt.loadingMod = e.parentEntry ∧
        ¬ AsksClaim E s.rt s.rt.currentRegionId (reloadImage E s.rt fname ch) := by
  have hi := h.inv
  obtain ⟨L, hw⟩ := hi.wf
  obtain ⟨m, f, nested, u, hm, hf, -, hst, rfl, hrun, hu, hlast⟩ := hr.starts hi hl he hone.le
  obtain ⟨-, -, hk⟩ := steps_old (hi.step hm) (.snoc hrun hlast)
  obtain ⟨-, -, -, hparent, hregion⟩ := reload_entry hst hk hx
  have hid : e.regionId = s.rt.currentRegionId := hw.lookup_region hl he
  rw [hid, hregion, hparent]
  exact and_comm

/-- A reload after the events, with the calls that follow up to the return of its `xy_install`. -/
theorem sample_reload (es nested : List Event) (fname : String) (ch : LoadChoice) (fuel : Nat)
    (P : State → State → State → Bool)
    (h : Run.check (step sampleEnv) sampleState es (fun s =>
      Run.check (step sampleEnv) s [.reload fname ch fuel] fun m =>
        ((Run.trace (step sampleEnv) m nested).all fun x => decide (s.stack.length < x.1.stack.length)) &&
        Run.check (step sampleEnv) m nested fun t =>
          decide (t.stack = s.stack ∧ t.status = .returned xyOk []) && P s m t) = true) :
    ∃ tr₀ s m t, Runs sampleEnv sampleState tr₀ s ∧
      Reloads sampleEnv s fname ch fuel (Run.trace (step sampleEnv) m nested) t ∧ P s m t = true := by
  obtain ⟨s, hs, h⟩ := sample_check es _ h
  obtain ⟨m, hm, h⟩ := Run.of_check h
  obtain ⟨habove, h⟩ := (Bool.and_eq_true _ _).mp h
  obtain ⟨t, ht, h⟩ := Run.of_check h
  obtain ⟨hend, hP⟩ := (Bool.and_eq_true _ _).mp h
  obtain ⟨hstack, hstatus⟩ := of_decide_eq_true hend
  exact ⟨_, s, m, t, sample_runs hs, ⟨(Run.exec_steps ht).cons (Run.exec_single hm),
    fun x hx => of_decide_eq_true (List.all_eq_true.mp habove x hx), hstack, hstatus⟩, hP⟩

theorem not_asksClaim {s : Runtime} {region : RegionId} {im : ImageId} (h : (E.xyClaim im).isNone) :
    ¬ AsksClaim E s region im := by
  rintro ⟨r, -, hsome, -⟩
  rw [Option.isNone_iff_eq_none.mp h] at hsome
  cases hsome

/-- `p`, which is being installed, reloads the `q` that it has loaded. -/
theorem reload_keeps_place_host : ∃ s tr t e x, Reloads sampleEnv s "q" { addr := 3 } 5 tr t ∧
    s.rt.entries 1 = some e ∧ e.parentEntry = some 0 ∧ t.rt.entries 2 = some x ∧
    x.regionId = e.regionId ∧ x.parentEntry = e.parentEntry := by
  obtain ⟨tr₀, s, m, t, hrun, hr, hP⟩ := sample_reload
    [.load "p" { addr := 1 }, .load "q" { addr := 2 }, .installRet] [.installRet] "q" { addr := 3 } 5
    (fun s _ t => decide (s.rt.moduleLookup sampleEnv "q" s.rt.currentRegionId = some 1 ∧
      (s.rt.entries 1).map (fun e => (e.refcount, e.parentEntry)) = some (1, some 0) ∧
      s.rt.loadingMod = some 0 ∧ s.rt.entryNext = 2 ∧ (t.rt.entries 2).isSome ∧
      (sampleEnv.xyClaim (reloadImage sampleEnv s.rt "q" { addr := 3 })).isNone)) (by decide)
  obtain ⟨hl, he, hload, hnext, hx, hclaim⟩ := of_decide_eq_true hP
  obtain ⟨e, he, hen⟩ := Option.map_eq_some_iff.mp he
  obtain ⟨x, hx⟩ := Option.isSome_iff_exists.mp hx
  obtain ⟨hone, hparent⟩ := Prod.mk.inj hen
  exact ⟨s, _, t, e, x, hr, he, hparent, hx, (reload_keeps_place hrun hr hl he hone (hnext ▸ hx)).mpr
    ⟨hload.trans hparent.symm, not_asksClaim hclaim⟩⟩

/-- The host reloads `q`, which `p` has loaded; then it unloads `p`, and `q` stays. -/
theorem reload_loses_parent : ∃ tr₀ s tr t e x, Runs sampleEnv sampleState tr₀ s ∧
    Reloads sampleEnv s "q" { addr := 3 } 5 tr t ∧
    s.rt.moduleLookup sampleEnv "q" s.rt.currentRegionId = some 1 ∧ s.rt.entries 1 = some e ∧
    e.refcount = 1 ∧ e.parentEntry = some 0 ∧ t.rt.entries 2 = some x ∧ x.parentEntry = none ∧
    ∃ u, step sampleEnv t (.unload "p" 5) = .ok u ∧ u.rt.entries 0 = none ∧ u.rt.entries 2 ≠ none := by
  obtain ⟨tr₀, s, m, t, hrun, hr, hP⟩ := sample_reload
    [.load "p" { addr := 1 }, .load "q" { addr := 2 }, .installRet, .installRet] [.installRet] "q"
    { addr := 3 } 5
    (fun s _ t => decide (s.rt.moduleLookup sampleEnv "q" s.rt.currentRegionId = some 1 ∧
      (s.rt.entries 1).map (fun e => (e.refcount, e.parentEntry)) = some (1, some 0) ∧
      (t.rt.entries 2).map ModEntry.parentEntry = some none) &&
      Run.check (step sampleEnv) t [.unload "p" 5] fun u =>
        decide ((u.rt.entries 0).isNone ∧ (u.rt.entries 2).isSome)) (by decide)
  rw [Bool.and_eq_true] at hP
  obtain ⟨hl, he, hx⟩ := of_decide_eq_true hP.1
  obtain ⟨u, hu, hgone⟩ := Run.of_check hP.2
  obtain ⟨hgone, hstays⟩ := of_decide_eq_true hgone
  obtain ⟨e, he, hen⟩ := Option.map_eq_some_iff.mp he
  obtain ⟨x, hx, hparent⟩ := Option.map_eq_some_iff.mp hx
  obtain ⟨hone, hpar⟩ := Prod.mk.inj hen
  exact ⟨tr₀, s, _, t, e, x, hrun, hr, hl, he, hone, hpar, hx, hparent, u, Run.exec_single hu,
    Option.isNone_iff_eq_none.mp hgone, Option.isSome_iff_ne_none.mp hstays⟩

/-- A reload replaces the module just if it has one reference, the region asks the image
for no claim, the file could be copied, and the calls under the new `xy_install` give back
just as many references on the new entry as they take. -/
theorem reload_replaces (h : Runs E s₀ tr₀ s) (hr : Reloads E s fname ch fuel tr t)
    (hl : s.rt.moduleLookup E fname s.rt.currentRegionId = some p) (he : s.rt.entries p = some e)
    (hpos : 1 ≤ e.refcount) :
    Replaced E s fname ch fuel p e.refcount t ↔ e.refcount = 1 ∧
      ¬ AsksClaim E s.rt s.rt.currentRegionId (reloadImage E s.rt fname ch) ∧
      (ch.copied = true ∧ ch.named = true) ∧ Balanced E s.rt.entryNext tr := by
  have hi := h.inv
  obtain ⟨L, hw⟩ := hi.wf
  by_cases hone : e.refcount = 1
  swap
  · have hents := hr.shared hi hl he (lt_of_le_of_ne hpos (Ne.symm hone))
    refine iff_of_false (fun hrep => ?_) fun hc => hone hc.1
    have hp : (t.rt.entries p).map ModEntry.core = (s.rt.entries p).map ModEntry.core :=
      congrFun hents p
    rw [hrep.gone, he] at hp
    cases hp
  obtain ⟨m, f, nested, u, hm, hf, hentered, hst, rfl, hrun, hu, hlast⟩ := hr.starts hi hl he hone.le
  have him := hi.step hm
  have hsteps : Run.Steps (step E) m (nested ++ [(u, .installRet)]) t := .snoc hrun hlast
  obtain ⟨hit, -, hk⟩ := steps_old him hsteps
  obtain ⟨Lt, hwt⟩ := hit.wf
  obtain ⟨y, hy, -, -, -, hcount, -, -⟩ := hst.entry
  have hlt : s.rt.entryNext < m.rt.entryNext := (Nat.lt_succ_self _).trans_eq hst.next.symm
  have hcopy : reloadCopy E s.rt fname ch = some (reloadImage E s.rt fname ch) ↔ _ :=
    reloadCopy_iff
  rw [← steps_balanced him hlt hy hcount hsteps, ← hcopy, hone]
  constructor
  · rintro ⟨hgone, -, q, x, m', f', fn, hnone, hm', hf', -, rfl, hlook, hx, hn, hhandle, hown, -⟩
    cases hm.symm.trans hm'
    obtain rfl : f = f' := Frame.install.inj (List.cons.inj (hf.symm.trans hf')).1
    have hq : f.modEntry = s.rt.entryNext := congrArg LoadFrame.modEntry hst.frame
    rw [hq] at hlook hx
    obtain ⟨-, hcopy, hxpath, -, hxregion⟩ := reload_entry hst hk hx
    have hasks := hxregion.mp ((lookup_iff hwt hx hxpath).mp hlook)
    exact ⟨rfl, hasks, hcopy.symm.trans (hown.trans (congrArg some hhandle)), x, hx, hn⟩
  · rintro ⟨-, hasks, hown, x, hx, hn⟩
    obtain ⟨hxhandle, hcopy, hxpath, -, hxregion⟩ := reload_entry hst hk hx
    have hlook := (lookup_iff hwt hx hxpath).mpr (hxregion.mpr hasks)
    obtain ⟨fn, hfn⟩ := hst.install
    have hgone : t.rt.entries p = none := by
      by_contra hne
      obtain ⟨z, hz⟩ := Option.ne_none_iff_exists'.mp hne
      obtain ⟨z', hz', -⟩ := hk p ((hw.lt_next he).trans hlt) z hz
      rw [hst.gone] at hz'
      cases hz'
    have hcleaned : ∃ l, t.rt.cleanups = s.rt.cleanups ++ l ∧ ∀ e b, s.rt.entries p = some e →
        e.regionState = some b → (b, E.dlsym e.handle "xy_region_cleanup") ∈ l := by
      obtain ⟨l, hl, hdone⟩ := hst.cleaned
      obtain ⟨l', hl'⟩ := steps_cleanups him hsteps
      refine ⟨l ++ l', by rw [← hl', hl, List.append_assoc], fun e' b he' hb => ?_⟩
      cases he.symm.trans he'
      exact List.mem_append_left _ (hdone b hb)
    exact ⟨hgone, hcleaned, s.rt.entryNext, x, m, f, fn, hw.fresh _ le_rfl, hm, hf, hentered,
      congrArg LoadFrame.modEntry hst.frame, hlook, hx, hn, hxhandle,
      hcopy.trans (hown.trans (congrArg some hxhandle.symm)), hxhandle ▸ hfn⟩

/-- `r`, which has a state block, takes a reference on itself in its new `xy_install` and
gives it back. -/
theorem reload_replaces_single : ∃ s tr t, Reloads sampleEnv s "r" { addr := 2 } 5 tr t ∧
    took sampleEnv 1 tr = 1 ∧ (s.rt.entries 0).map ModEntry.regionState = some (some 0) ∧
    Replaced sampleEnv s "r" { addr := 2 } 5 0 1 t := by
  obtain ⟨tr₀, s, m, t, hrun, hr, hP⟩ := sample_reload [.load "r" { addr := 1 }, .installRet]
    [.load "r" { addr := 3 }, .unload "r" 5, .installRet] "r" { addr := 2 } 5
    (fun s m _ => decide (s.rt.moduleLookup sampleEnv "r" s.rt.currentRegionId = some 0 ∧
      (s.rt.entries 0).map (fun e => (e.refcount, e.regionState)) = some (1, some 0) ∧
      s.rt.entryNext = 1 ∧
      (sampleEnv.xyClaim (reloadImage sampleEnv s.rt "r" { addr := 2 })).isNone) &&
      let tr := Run.trace (step sampleEnv) m [.load "r" { addr := 3 }, .unload "r" 5, .installRet]
      decide (took sampleEnv 1 tr = 1 ∧ gave sampleEnv 1 tr = 1) &&
        tr.inits.all fun pre => decide (gave sampleEnv 1 pre ≤ took sampleEnv 1 pre)) (by decide)
  simp only [Bool.and_eq_true, decide_eq_true_eq] at hP
  obtain ⟨⟨hl, he, hnext, hclaim⟩, ⟨htook, hgave⟩, hpre⟩ := hP
  obtain ⟨e, he, hen⟩ := Option.map_eq_some_iff.mp he
  obtain ⟨hone, hblock⟩ := Prod.mk.inj hen
  have hbalanced : Balanced sampleEnv s.rt.entryNext
      (Run.trace (step sampleEnv) m [.load "r" { addr := 3 }, .unload "r" 5, .installRet]) := by
    rw [hnext]
    exact ⟨htook.trans hgave.symm, fun pre hp =>
      of_decide_eq_true (List.all_eq_true.mp hpre pre ((List.mem_inits _ _).mpr hp))⟩
  have hrep := (reload_replaces hrun hr hl he hone.ge).mpr
    ⟨hone, not_asksClaim hclaim, ⟨rfl, rfl⟩, hbalanced⟩
  exact ⟨s, _, t, hr, htook, by rw [he, Option.map_some, hblock], hone ▸ hrep⟩

/-- The host has loaded `p` twice and reloads it: the old entry is still there, and nothing
else is. -/
theorem reload_keeps_shared : ∃ tr₀ s t e, Runs sampleEnv sampleState tr₀ s ∧
    Reloads sampleEnv s "p" { addr := 2 } 5 [] t ∧
    s.rt.moduleLookup sampleEnv "p" s.rt.currentRegionId = some 0 ∧ s.rt.entries 0 = some e ∧
    e.refcount = 2 ∧ t.rt.moduleLookup sampleEnv "p" s.rt.currentRegionId = some 0 ∧
    ¬ Replaced sampleEnv s "p" { addr := 2 } 5 0 2 t := by
  obtain ⟨s, hs, hP⟩ := sample_check
    [.load "p" { addr := 1 }, .installRet, .load "p" { addr := 2 }]
    (fun s => decide (s.rt.moduleLookup sampleEnv "p" s.rt.currentRegionId = some 0 ∧
      (s.rt.entries 0).map ModEntry.refcount = some 2) &&
      Run.check (step sampleEnv) s [.reload "p" { addr := 2 } 5] fun t =>
        decide (t.stack = s.stack ∧ t.status = .returned xyOk [] ∧
          t.rt.moduleLookup sampleEnv "p" s.rt.currentRegionId = some 0 ∧ (t.rt.entries 0).isSome))
    (by decide)
  rw [Bool.and_eq_true] at hP
  obtain ⟨hl, he⟩ := of_decide_eq_true hP.1
  obtain ⟨t, ht, hobs⟩ := Run.of_check hP.2
  obtain ⟨hstack, hstatus, hlook, hlive⟩ := of_decide_eq_true hobs
  obtain ⟨e, he, htwo⟩ := Option.map_eq_some_iff.mp he
  have hr : Reloads sampleEnv s "p" { addr := 2 } 5 [] t :=
    ⟨.cons (Run.exec_single ht) (.nil t), fun _ hx => absurd hx List.not_mem_nil, hstack, hstatus⟩
  refine ⟨_, s, t, e, sample_runs hs, hr, hl, he, htwo, hlook, fun hrep => ?_⟩
  rw [hrep.gone] at hlive
  cases hlive

end

end Xylem
