import Mathlib.Data.Finset.Card
import Xylem.Heap.OpenLoad
import Xylem.Model.Script
import Xylem.Runs.Effect

/-!
# Loading a dependency graph

An entry is published before its `xy_install` runs, so each nested load either finds its
module or publishes one more of finitely many.
-/
namespace Xylem

open Xylem.Runtime

namespace Runtime

def Known (s : Runtime) (path : String) : Prop := s.modHd.lookup ⟨path, xyRegionRoot⟩ ≠ none

/-- The reference count of the root region's module of that path. -/
def refs (s : Runtime) (path : String) : Int :=
  ((s.modHd.lookup ⟨path, xyRegionRoot⟩).bind s.entries).elim 0 (·.refcount)

structure Counted (s t : Runtime) (path : String) : Prop where
  refs : ∀ q, t.refs q = s.refs q + if q = path then 1 else 0
  known : ∀ q, t.Known q ↔ s.Known q ∨ q = path
  home : (∀ p e, s.entries p = some e → e.regionId = xyRegionRoot) →
    ∀ p e, t.entries p = some e → e.regionId = xyRegionRoot

theorem refs_core (s : Runtime) (path : String) : s.refs path =
    ((s.modHd.lookup ⟨path, xyRegionRoot⟩).bind s.core.entries).elim 0 (·.refcount) := by
  unfold refs
  cases s.modHd.lookup ⟨path, xyRegionRoot⟩ with
  | none => rfl
  | some p =>
      show (s.entries p).elim 0 _ = ((s.entries p).map ModEntry.core).elim 0 _
      cases s.entries p <;> rfl

variable {E : Env} {s t : Runtime} {fname : String} {ch : LoadChoice}

theorem counted_reuse {L : RegionPtr → List EntryPtr} (hw : WF s none L) {p : EntryPtr} {e : ModEntry}
    {path : String} (hl : s.modHd.lookup ⟨path, xyRegionRoot⟩ = some p) (he : s.entries p = some e)
    (ht : t.core = (s.setEntry p (some { e with refcount := e.refcount + 1 })).core) :
    Counted s t path := by
  have hmods : t.modHd = s.modHd := (congrArg Core.modHd ht : _)
  have hents : t.core.entries = Function.update s.core.entries p
      (some { e with refcount := e.refcount + 1 }.core) :=
    (congrArg Core.entries ht).trans (congrArg Core.entries (setEntry_core _ _ _))
  refine ⟨fun q => ?_, fun q => ?_, fun hhome q e' he' => ?_⟩
  · rw [refs_core, refs_core, hmods, hents]
    by_cases hq : q = path
    · subst hq
      have hs : s.core.entries p = some e.core := congrArg (Option.map ModEntry.core) he
      simp [hl, hs, ModEntry.core]
    · rw [if_neg hq, Int.add_zero]
      cases hlq : s.modHd.lookup ⟨q, xyRegionRoot⟩ with
      | none => rfl
      | some x =>
          have hx : x ≠ p := by
            rintro rfl
            obtain ⟨e1, he1, hk1⟩ := hw.table _ x hl
            obtain ⟨e2, he2, hk2⟩ := hw.table _ x hlq
            cases he1.symm.trans he2
            exact hq (congrArg ModKey.path (hk2.symm.trans hk1))
          simp only [Option.bind_some, Function.update_of_ne hx]
  · unfold Known
    rw [hmods]
    refine ⟨.inl, ?_⟩
    rintro (hk | rfl)
    · exact hk
    · rw [hl]
      simp
  · have hq : t.core.entries q = some e'.core := congrArg (Option.map ModEntry.core) he'
    rw [hents] at hq
    by_cases hqp : q = p
    · subst hqp
      rw [Function.update_self] at hq
      exact (congrArg ModEntry.regionId (Option.some.inj hq) : _).symm.trans (hhome q e he)
    · rw [Function.update_of_ne hqp] at hq
      obtain ⟨e0, he0, hc⟩ := Option.map_eq_some_iff.mp hq
      exact (congrArg ModEntry.regionId hc : _).symm.trans (hhome q e0 he0)

theorem counted_fresh {L : RegionPtr → List EntryPtr} (hw : WF s none L) {l : Loading} {r : RegionPtr}
    {T : Tree} {index : RegionIndex}
    (hl : s.modHd.lookup ⟨E.moduleLoadPath l.fname, xyRegionRoot⟩ = none)
    (ht : t.core = s.loadedCore E l xyRegionRoot r T index) :
    Counted s t (E.moduleLoadPath l.fname) := by
  have hmods : t.modHd = s.modHd.insert ⟨E.moduleLoadPath l.fname, xyRegionRoot⟩ s.entryNext :=
    (congrArg Core.modHd ht : _)
  have hents : t.core.entries = Function.update s.core.entries s.entryNext _ :=
    (congrArg Core.entries ht : _)
  have hlook : ∀ q, t.modHd.lookup ⟨q, xyRegionRoot⟩ = if q = E.moduleLoadPath l.fname then
      some s.entryNext else s.modHd.lookup ⟨q, xyRegionRoot⟩ := by
    intro q
    rw [hmods]
    split
    · rename_i hq
      rw [hq]
      exact AList.lookup_insert _
    · rename_i hq
      exact AList.lookup_insert_ne fun hc => hq (congrArg ModKey.path hc)
  refine ⟨fun q => ?_, fun q => ?_, fun hhome q e' he' => ?_⟩
  · rw [refs_core, refs_core, hlook, hents]
    by_cases hq : q = E.moduleLoadPath l.fname
    · rw [if_pos hq, if_pos hq, hq, hl]
      simp [loadedEntry]
    · rw [if_neg hq, if_neg hq, Int.add_zero]
      cases hlq : s.modHd.lookup ⟨q, xyRegionRoot⟩ with
      | none => rfl
      | some x =>
          obtain ⟨e, he, -⟩ := hw.table _ x hlq
          have hx : x ≠ s.entryNext := by
            rintro rfl
            rw [hw.fresh _ le_rfl] at he
            cases he
          simp only [Option.bind_some, Function.update_of_ne hx]
  · unfold Known
    rw [hlook]
    by_cases hq : q = E.moduleLoadPath l.fname
    · rw [if_pos hq]
      simp [hq]
    · rw [if_neg hq]
      simp [hq]
  · have hq : t.core.entries q = some e'.core := congrArg (Option.map ModEntry.core) he'
    rw [hents] at hq
    by_cases hqp : q = s.entryNext
    · subst hqp
      rw [Function.update_self] at hq
      exact (congrArg ModEntry.regionId (Option.some.inj hq) : _).symm
    · rw [Function.update_of_ne hqp] at hq
      obtain ⟨e0, he0, hc⟩ := Option.map_eq_some_iff.mp hq
      exact (congrArg ModEntry.regionId hc : _).symm.trans (hhome q e0 he0)

end Runtime

/-- The host or an `xy_install` is in control in the root region, which has no gate. -/
structure Calm (E : Env) (s : State) : Prop where
  inv : Inv E s
  region : s.rt.currentRegionId = xyRegionRoot
  gate : s.rt.Ungated
  reloading : s.rt.reloading = false

/-- The frame of an `xy_install` in the root region, outside any reload. -/
structure RootFrame (f : LoadFrame) : Prop where
  region : f.prevRegionId = xyRegionRoot
  reload : f.reload = none

section Steps
variable {E : Env} {s : State}

theorem Ungated.of_tree {s t : Runtime} (h : s.Ungated) (ht : t.tree = s.tree)
    (hid : t.currentRegionId = s.currentRegionId) : t.Ungated := by
  obtain ⟨r, hr, hno, hclear⟩ := h
  have hnode : (t.regions r).toRegionNode = (s.regions r).toRegionNode :=
    congrFun (congrArg Tree.node ht) r
  refine ⟨r, ?_, (congrArg RegionNode.claimHandler hnode).trans hno,
    (congrArg RegionNode.requireClaim hnode).trans hclear⟩
  rw [hid]
  exact (congrFun (congrArg Tree.hd ht) _).trans hr

theorem calm_loading (hc : Calm E s) (fname : String) (ch : LoadChoice) :
    (s.rt.loading E fname ch).im = ⟨E.moduleLoadPath fname, 0⟩ := by
  simp [loading, modLoadImage, hc.reloading]

theorem calm_load_known (hc : Calm E s) {fname : String} (ch : LoadChoice)
    (him : ∃ im, E.dlopen ⟨E.moduleLoadPath fname, 0⟩ = some im)
    (hk : s.rt.Known (E.moduleLoadPath fname)) :
    ∃ t, step E s (.load fname ch) = .ok t ∧ Calm E t ∧ t.stack = s.stack ∧ t.status ≠ .entered ∧
      Counted s.rt t.rt (E.moduleLoadPath fname) := by
  obtain ⟨L, hw⟩ := hc.inv.wf
  obtain ⟨p, hp⟩ := Option.ne_none_iff_exists'.mp hk
  have hl : s.rt.moduleLookup E fname s.rt.currentRegionId = some p := by
    rw [hc.region]
    exact hp
  obtain ⟨n, hn⟩ : ∃ n, s.rt.modLoad E fname ch none = .ok (n, .done xyOk) :=
    modLoad_counts hw hl (by rw [calm_loading hc]; exact him)
  have hstep : step E s (.load fname ch) =
      .ok { s with rt := n.setErr xyOk, status := .returned xyOk [] } := by
    simp only [step]
    exact Res.map_ok.mpr ⟨(n.setErr xyOk, .done xyOk), Res.bind_ok.mpr ⟨_, hn, rfl⟩, rfl⟩
  refine ⟨_, hstep, ?_, rfl, by simp, ?_⟩
  · cases modLoad_effect hw hc.inv.current.id hn with
    | same ret hret ht => exact absurd rfl hret
    | reuse p' e hl' he ht =>
        refine ⟨hc.inv.step hstep, (congrArg Core.currentRegionId ht).trans hc.region, ?_,
          (congrArg Core.reloading ht).trans hc.reloading⟩
        exact Ungated.of_tree hc.gate (congrArg Core.tree ht) (congrArg Core.currentRegionId ht)
    | fresh out hnone =>
        rw [hnone] at hl
        cases hl
  · cases modLoad_effect hw hc.inv.current.id hn with
    | same ret hret ht => exact absurd rfl hret
    | reuse p' e hl' he ht =>
        cases hl.symm.trans hl'
        exact counted_reuse hw hp he ht
    | fresh out hnone =>
        rw [hnone] at hl
        cases hl

theorem calm_load_new (hc : Calm E s) {fname : String} (ch : LoadChoice)
    (him : ∃ im, E.dlopen ⟨E.moduleLoadPath fname, 0⟩ = some im)
    (hinstall : ∃ fn, E.dlsym ⟨E.moduleLoadPath fname, 0⟩ "xy_install" = some fn)
    (hmem : ch.noMem = false) (haddr : ∀ k p, s.rt.modHd.lookup k = some p → s.rt.addr p ≠ ch.addr)
    (hk : ¬ s.rt.Known (E.moduleLoadPath fname)) :
    ∃ t f, step E s (.load fname ch) = .ok t ∧ Calm E t ∧ t.stack = .install f :: s.stack ∧
      RootFrame f ∧ t.status = .entered ∧ Counted s.rt t.rt (E.moduleLoadPath fname) := by
  obtain ⟨L, hw⟩ := hc.inv.wf
  have hnone : s.rt.modHd.lookup ⟨E.moduleLoadPath fname, xyRegionRoot⟩ = none := not_not.mp hk
  have hl : s.rt.moduleLookup E fname s.rt.currentRegionId = none := by
    rw [hc.region]
    exact hnone
  have hopens : s.rt.Opens E fname ch := by
    refine ⟨hl, hmem, haddr, ?_, ?_⟩ <;> rw [calm_loading hc]
    · exact him
    · exact hinstall
  obtain ⟨n, f, hn⟩ : ∃ n f, s.rt.modLoad E fname ch none = .ok (n, .wait f) :=
    modLoad_installs hw hc.gate hopens
  have hstep : step E s (.load fname ch) =
      .ok { rt := n, stack := .install f :: s.stack, status := .entered } := by
    simp only [step]
    exact Res.map_ok.mpr ⟨(n, .wait f), Res.bind_ok.mpr ⟨_, hn, rfl⟩, rfl⟩
  have heff := modLoad_effect hw hc.inv.current.id hn
  cases heff with
  | fresh out hl' hmem' him' ha hf =>
      cases hf with
      | installs fn hi id r T index hp ht =>
          cases hp with
          | stays r hr =>
              refine ⟨_, _, hstep, ⟨hc.inv.step hstep, (congrArg Core.currentRegionId ht).trans hc.region,
                Ungated.of_tree hc.gate (congrArg Core.tree ht) (congrArg Core.currentRegionId ht),
                (congrArg Core.reloading ht).trans hc.reloading⟩, rfl, ⟨hc.region, rfl⟩, rfl, ?_⟩
              rw [hc.region] at ht
              exact counted_fresh (l := s.rt.loading E fname ch) hw hnone ht
          | claims r k hasks hk' =>
              obtain ⟨r', hr', hno, -⟩ := hc.gate
              cases hr'.symm.trans hasks.region
              have hhandler := hasks.handler
              rw [hno] at hhandler
              cases hhandler

theorem calm_installRet (hc : Calm E s) {f : LoadFrame} {stack : List Frame} (hf : RootFrame f)
    (hs : s.stack = .install f :: stack) :
    ∃ t, step E s .installRet = .ok t ∧ Calm E t ∧ t.stack = stack ∧ t.rt.modHd = s.rt.modHd ∧
      t.rt.entries = s.rt.entries := by
  have hret : s.rt.installReturn E f = .ok ((s.rt.modLoadFinish f).setErr xyOk) := by
    simp only [installReturn, hf.reload]
  have hstep : step E s .installRet =
      .ok { rt := (s.rt.modLoadFinish f).setErr xyOk, stack := stack, status := .returned xyOk [] } := by
    simp only [step, hs]
    exact Res.map_ok.mpr ⟨_, hret, rfl⟩
  refine ⟨_, hstep, ⟨hc.inv.step hstep, hf.region, ?_, hc.reloading⟩, rfl, rfl, rfl⟩
  exact Ungated.of_tree hc.gate rfl (hf.region.trans hc.region.symm)

end Steps

namespace Progress
variable {E : Env} {malloc : Runtime → Addr} {script : String → List String}
  {files : Finset String} {p p' p'' : Progress}

/-- The counts are those of the loads made so far, and each known module has been
installed once. -/
structure Ok (E : Env) (p : Progress) : Prop where
  calm : Calm E p.state
  refs : ∀ path, p.state.rt.refs path = p.loads.count path
  nodup : p.installs.Nodup
  installed : ∀ path, path ∈ p.installs ↔ p.state.rt.Known path
  home : ∀ q e, p.state.rt.entries q = some e → e.regionId = xyRegionRoot

structure After (E : Env) (script : String → List String) (p p' : Progress) : Prop where
  ok : p'.Ok E
  stack : p'.state.stack = p.state.stack
  mono : ∀ path, p.state.rt.Known path → p'.state.rt.Known path
  closed : ∀ path, p'.state.rt.Known path → p.state.rt.Known path ∨
    ∀ f ∈ script path, p'.state.rt.Known (E.moduleLoadPath f)
  run : ∃ tr, Run.Steps (step E) p.state tr p'.state

theorem After.refl (h : p.Ok E) : After E script p p :=
  ⟨h, rfl, fun _ => id, fun _ => .inl, [], .nil _⟩

theorem After.trans (h : After E script p p') (k : After E script p' p'') : After E script p p'' := by
  obtain ⟨tr, htr⟩ := h.run
  obtain ⟨tr', htr'⟩ := k.run
  refine ⟨k.ok, k.stack.trans h.stack, fun path hp => k.mono path (h.mono path hp), fun path hp => ?_,
    tr ++ tr', htr.trans htr'⟩
  rcases k.closed path hp with hp | hp
  · rcases h.closed path hp with hp | hp
    · exact .inl hp
    · exact .inr fun f hf => k.mono _ (hp f hf)
  · exact .inr hp

theorem Ok.counted (h : p.Ok E) {s : State} {path : String} (hc : Calm E s)
    (hcount : Counted p.state.rt s.rt path) (installs : List String)
    (hnodup : installs.Nodup) (hmem : ∀ q, q ∈ installs ↔ q ∈ p.installs ∨ q = path) :
    Ok E { state := s, loads := path :: p.loads, installs := installs } := by
  refine ⟨hc, fun q => ?_, hnodup, fun q => ?_, hcount.home h.home⟩
  · rw [hcount.refs, h.refs, List.count_cons]
    by_cases hq : q = path
    · subst hq
      simp
    · simp [hq, Ne.symm hq]
  · rw [hmem, hcount.known, h.installed]

def unknown (files : Finset String) (s : Runtime) : Finset String :=
  files.filter fun path => (s.modHd.lookup ⟨path, xyRegionRoot⟩).isNone

theorem mem_unknown {s : Runtime} {path : String} :
    path ∈ unknown files s ↔ path ∈ files ∧ ¬ s.Known path := by
  simp [unknown, Known]

theorem unknown_card_le {s t : Runtime} (h : ∀ path, s.Known path → t.Known path) :
    (unknown files t).card ≤ (unknown files s).card := by
  apply Finset.card_le_card
  intro path hp
  obtain ⟨hf, hk⟩ := mem_unknown.mp hp
  exact mem_unknown.mpr ⟨hf, fun hs => hk (h path hs)⟩

theorem unknown_card_lt {s t : Runtime} (h : ∀ path, s.Known path → t.Known path) {path : String}
    (hf : path ∈ files) (hs : ¬ s.Known path) (ht : t.Known path) :
    (unknown files t).card < (unknown files s).card := by
  apply Finset.card_lt_card
  refine ⟨fun q hq => ?_, fun hsub => ?_⟩
  · obtain ⟨hqf, hk⟩ := mem_unknown.mp hq
    exact mem_unknown.mpr ⟨hqf, fun hq => hk (h q hq)⟩
  · exact (mem_unknown.mp (hsub (mem_unknown.mpr ⟨hf, hs⟩))).2 ht

/-- A set of files that open, install, and load each other. -/
structure Closed (E : Env) (script : String → List String) (files : Finset String) : Prop where
  image : ∀ path ∈ files, ∃ im, E.dlopen ⟨path, 0⟩ = some im
  install : ∀ path ∈ files, ∃ fn, E.dlsym ⟨path, 0⟩ "xy_install" = some fn
  loads : ∀ path ∈ files, ∀ f ∈ script path, E.moduleLoadPath f ∈ files

def Allocates (malloc : Runtime → Addr) : Prop :=
  ∀ (s : Runtime) k p, s.modHd.lookup k = some p → s.addr p ≠ malloc s

/-- Loads that each finish with the fuel there is finish one after the other. -/
theorem loadAll_spec {fuel : Nat} (names : List String)
    (hload : ∀ p : Progress, p.Ok E → ∀ f ∈ names, (unknown files p.state.rt).card < fuel →
      ∃ p', load E malloc script fuel p f = .ok p' ∧ After E script p p' ∧
        p'.state.rt.Known (E.moduleLoadPath f)) (hp : p.Ok E)
    (hfuel : (unknown files p.state.rt).card < fuel) :
    ∃ p', loadAll E malloc script fuel p names = .ok p' ∧ After E script p p' ∧
      ∀ f ∈ names, p'.state.rt.Known (E.moduleLoadPath f) := by
  induction names generalizing p with
  | nil => exact ⟨p, rfl, .refl hp, by simp⟩
  | cons f names ih =>
      obtain ⟨p1, h1, ha1, hk1⟩ := hload p hp f (by simp) hfuel
      obtain ⟨p2, h2, ha2, hk2⟩ := ih (fun p hp f hf => hload p hp f (by simp [hf])) ha1.ok
        ((unknown_card_le ha1.mono).trans_lt hfuel)
      refine ⟨p2, ?_, ha1.trans ha2, fun g hg => ?_⟩
      · rw [loadAll, List.foldlM_cons]
        exact Res.bind_ok.mpr ⟨p1, h1, h2⟩
      · rcases List.mem_cons.mp hg with rfl | hg
        · exact ha2.mono _ hk1
        · exact hk2 g hg

/-- A load finishes with more fuel than there are files left: its `xy_install` runs with
one file less. -/
theorem load_spec (hfiles : Closed E script files) (hmalloc : Allocates malloc) (fuel : Nat) :
    ∀ p : Progress, p.Ok E → ∀ fname, E.moduleLoadPath fname ∈ files →
      (unknown files p.state.rt).card < fuel →
      ∃ p', load E malloc script fuel p fname = .ok p' ∧ After E script p p' ∧
        p'.state.rt.Known (E.moduleLoadPath fname) := by
  induction fuel with
  | zero => exact fun p hp fname hf hfuel => absurd hfuel (Nat.not_lt_zero _)
  | succ fuel ih =>
      intro p hp fname hf hfuel
      let ch : LoadChoice := { addr := malloc p.state.rt }
      by_cases hk : p.state.rt.Known (E.moduleLoadPath fname)
      · obtain ⟨s, hs, hc, hstack, hst, hcount⟩ :=
          calm_load_known hp.calm ch (hfiles.image _ hf) hk
        have hmem : ∀ q, q ∈ p.installs ↔ q ∈ p.installs ∨ q = E.moduleLoadPath fname := by
          intro q
          refine ⟨.inl, ?_⟩
          rintro (hq | rfl)
          · exact hq
          · exact (hp.installed _).mpr hk
        have hknown := hcount.known
        refine ⟨{ p with state := s, loads := E.moduleLoadPath fname :: p.loads }, ?_, ?_,
          (hknown _).mpr (.inr rfl)⟩
        · unfold load
          refine Res.bind_ok.mpr ⟨s, hs, ?_⟩
          rw [if_neg hst]
        · refine ⟨hp.counted hc hcount _ hp.nodup hmem, hstack, fun q hq => (hknown q).mpr (.inl hq),
            fun q hq => ?_, _, .snoc (.nil _) hs⟩
          rcases (hknown q).mp hq with hq | rfl
          · exact .inl hq
          · exact .inl hk
      · obtain ⟨s, f, hs, hc, hstack, hframe, hst, hcount⟩ := calm_load_new hp.calm ch
          (hfiles.image _ hf) (hfiles.install _ hf) rfl (hmalloc p.state.rt) hk
        have hknown := hcount.known
        let p1 : Progress := { state := s, loads := E.moduleLoadPath fname :: p.loads
                               installs := E.moduleLoadPath fname :: p.installs }
        have hp1 : p1.Ok E := by
          apply hp.counted hc hcount
          · exact List.nodup_cons.mpr ⟨fun hin => hk ((hp.installed _).mp hin), hp.nodup⟩
          · intro q
            rw [List.mem_cons, or_comm]
        have hless : (unknown files p1.state.rt).card < fuel := by
          have := unknown_card_lt (fun q hq => (hknown q).mpr (.inl hq)) hf hk ((hknown _).mpr (.inr rfl))
          exact this.trans_le (Nat.le_of_lt_succ hfuel)
        obtain ⟨p2, h2, ha2, hk2⟩ := loadAll_spec (script (E.moduleLoadPath fname))
          (fun p hp g hg hfuel => ih p hp g (hfiles.loads _ hf g hg) hfuel) hp1 hless
        obtain ⟨t, ht, hct, hst3, hmods, hents⟩ := calm_installRet ha2.ok.calm hframe
          (ha2.stack.trans hstack)
        have hsame : ∀ q, t.rt.Known q ↔ p2.state.rt.Known q := by
          intro q
          unfold Known
          rw [hmods]
        have hrefs : ∀ q, t.rt.refs q = p2.state.rt.refs q := by
          intro q
          unfold refs
          rw [hmods, hents]
        refine ⟨{ p2 with state := t }, ?_, ⟨⟨hct, fun q => ?_, ha2.ok.nodup, fun q => ?_, ?_⟩, hst3,
          fun q hq => ?_, fun q hq => ?_, ?_⟩, ?_⟩
        · unfold load
          refine Res.bind_ok.mpr ⟨s, hs, ?_⟩
          rw [if_pos hst]
          exact Res.bind_ok.mpr ⟨p2, h2, Res.bind_ok.mpr ⟨t, ht, rfl⟩⟩
        · rw [hrefs]
          exact ha2.ok.refs q
        · rw [hsame]
          exact ha2.ok.installed q
        · rw [hents]
          exact ha2.ok.home
        · exact (hsame q).mpr (ha2.mono q ((hknown q).mpr (.inl hq)))
        · rcases ha2.closed q ((hsame q).mp hq) with hq | hq
          · rcases (hknown q).mp hq with hq | rfl
            · exact .inl hq
            · exact .inr fun g hg => (hsame _).mpr (hk2 g hg)
          · exact .inr fun g hg => (hsame _).mpr (hq g hg)
        · obtain ⟨tr, htr⟩ := ha2.run
          exact ⟨_, (Run.Steps.cons hs htr).snoc ht⟩
        · exact (hsame _).mpr (ha2.mono _ ((hknown _).mpr (.inr rfl)))

theorem ok_boot {s : State} (h : Boot s) : Ok E { state := s } := by
  have hroot : s.rt.regionHd s.rt.currentRegionId = some 0 := by
    rw [h.currentRegionId, h.regionHd, if_pos rfl]
  have hnone : ∀ path, ¬ s.rt.Known path := by
    intro path hk
    exact hk (by rw [h.modHd]; exact AList.lookup_empty _)
  refine ⟨⟨Inv.boot h, h.currentRegionId, ⟨0, hroot, by rw [h.root], by rw [h.root]⟩, h.reloading⟩,
    fun path => ?_, List.nodup_nil, fun path => ?_, fun q e he => ?_⟩
  · simp [refs, h.modHd]
  · exact iff_of_false (by simp) (hnone path)
  · rw [h.entries] at he
    cases he

end Progress

/-- What the loads of `names` from an initialised runtime lead to. -/
structure LoadsOnce (E : Env) (script : String → List String) (names : List String) (s₀ : State)
    (p : Progress) : Prop where
  run : ∃ tr, Runs E s₀ tr p.state
  returned : p.state.stack = []
  installed : ∀ path, Reachable E script names path → p.installs.count path = 1
  counted : ∀ q e, p.state.rt.entries q = some e → e.refcount = p.loads.count e.loadPath
  loaded : ∀ path, Reachable E script names path →
    ∃ q e, p.state.rt.entries q = some e ∧ e.loadPath = path

/-- Every `xy_load` in a closed set of files comes to its end, whatever the graph: one call
needs no more nesting than there are files. From the empty runtime each module that is
reached is installed once, and its count is the number of loads made for it. -/
theorem loads_finish {E : Env} {malloc : Runtime → Addr} {script : String → List String}
    {files : Finset String} (hfiles : Progress.Closed E script files)
    (hmalloc : Progress.Allocates malloc) :
    (∀ p : Progress, p.Ok E → ∀ fname, E.moduleLoadPath fname ∈ files →
      ∃ p', Progress.load E malloc script (files.card + 1) p fname = .ok p' ∧
        p'.Ok E ∧ p'.state.stack = p.state.stack) ∧
    ∀ s₀ names, Boot s₀ → (∀ f ∈ names, E.moduleLoadPath f ∈ files) →
      ∃ p, Progress.loadAll E malloc script (files.card + 1) { state := s₀ } names = .ok p ∧
        LoadsOnce E script names s₀ p := by
  have hcard : ∀ s : Runtime, (Progress.unknown files s).card < files.card + 1 :=
    fun s => Nat.lt_succ_of_le (Finset.card_le_card (Finset.filter_subset _ _))
  refine ⟨fun p hp fname hf => ?_, fun s₀ names hboot hnames => ?_⟩
  · obtain ⟨p', h, ha, -⟩ := Progress.load_spec hfiles hmalloc _ p hp fname hf (hcard _)
    exact ⟨p', h, ha.ok, ha.stack⟩
  · obtain ⟨p, h, ha, hk⟩ := Progress.loadAll_spec names
      (fun p hp f hf => Progress.load_spec hfiles hmalloc _ p hp f (hnames f hf))
      (Progress.ok_boot hboot) (hcard _)
    have hreach : ∀ path, Reachable E script names path → p.state.rt.Known path := by
      intro path hr
      induction hr with
      | host hf => exact hk _ hf
      | @install path fname hr hf ih =>
          rcases ha.closed path ih with h0 | h0
          · exact absurd (((Progress.ok_boot (E := E) hboot).installed path).mpr h0) (by simp)
          · exact h0 _ hf
    obtain ⟨L, hw⟩ := ha.ok.calm.inv.wf
    obtain ⟨tr, htr⟩ := ha.run
    refine ⟨p, h, ⟨tr, hboot, htr⟩, ha.stack.trans hboot.stack, fun path hr => ?_, fun q e he => ?_,
      fun path hr => ?_⟩
    · exact List.count_eq_one_of_mem ha.ok.nodup ((ha.ok.installed path).mpr (hreach path hr))
    · have hkey := hw.key q e he
      rw [hkey.1, ha.ok.home q e he] at hkey
      have hrefs := ha.ok.refs e.loadPath
      simp only [refs, hkey.2, Option.bind_some, he, Option.elim_some] at hrefs
      exact hrefs
    · obtain ⟨q, hq⟩ := Option.ne_none_iff_exists'.mp (hreach path hr)
      obtain ⟨e, he, hk⟩ := hw.table _ q hq
      exact ⟨q, e, he, (congrArg ModKey.path ((hw.key q e he).1.symm.trans hk) : _)⟩

/-- An address above all that are in use. -/
def freshAddr (s : Runtime) : Addr := (s.modHd.entries.map fun x => s.addr x.2).foldr max 0 + 1

theorem freshAddr_allocates : Progress.Allocates freshAddr := by
  intro s k p hp heq
  have hmem : s.addr p ∈ s.modHd.entries.map fun x => s.addr x.2 :=
    List.mem_map.mpr ⟨⟨k, p⟩, AList.mem_lookup_iff.mp hp, rfl⟩
  have hle : ∀ (l : List Addr) a, a ∈ l → a ≤ l.foldr max 0 := by
    intro l a ha
    induction l with
    | nil => cases ha
    | cons b l ih =>
        rcases List.mem_cons.mp ha with rfl | ha
        · exact Nat.le_max_left _ _
        · exact (ih ha).trans (Nat.le_max_right _ _)
  have h := hle _ _ hmem
  rw [heq] at h
  exact absurd h (Nat.not_succ_le_self _)

/-- `p` and `q` load each other and `q` loads itself: both are installed once. -/
theorem loads_finish_cycle : ∃ p, Progress.loadAll sampleEnv freshAddr sampleScript 3
      { state := sampleState } ["p"] = .ok p ∧ LoadsOnce sampleEnv sampleScript ["p"] sampleState p := by
  have hfiles : Progress.Closed sampleEnv sampleScript {"p", "q"} := by
    refine ⟨fun path hp => ?_, fun path hp => ?_, fun path hp => ?_⟩ <;>
      rcases Finset.mem_insert.mp hp with rfl | hq
    · exact ⟨_, rfl⟩
    · rw [Finset.mem_singleton.mp hq]
      exact ⟨_, rfl⟩
    · exact ⟨⟨⟨"p", 0⟩, "xy_install"⟩, by decide⟩
    · rw [Finset.mem_singleton.mp hq]
      exact ⟨⟨⟨"q", 0⟩, "xy_install"⟩, by decide⟩
    · decide
    · rw [Finset.mem_singleton.mp hq]
      decide
  exact (loads_finish hfiles freshAddr_allocates).2 sampleState ["p"] sampleState_boot (by decide)

end Xylem
