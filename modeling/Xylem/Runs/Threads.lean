import Xylem.Model.Threads
import Xylem.Runs.Lifetimes
import Xylem.Runs.Restored
import Xylem.Runs.Trees

namespace Xylem

open Xylem.Runtime

/-- Each thread's region entry is `NULL` or the one of its region in the current runtime. -/
def EntriesCurrent (p : Process) : Prop :=
  ∀ t r, (p.tls t).currentRegionEntry = some r → p.up = true ∧ (p.tls t).entryLife = p.lifetime ∧
    p.rt.regionHd (p.tls t).currentRegionId = some r ∧
    (p.rt.regions r).id = (p.tls t).currentRegionId

/-- A shutdown comes when no other thread has a region entry. -/
def OthersClear (p : Process) (e : ProcessEvent) (_ : Process) : Prop :=
  ∀ t, e = .shutdown t → p.up = true → ∀ u, u ≠ t → (p.tls u).currentRegionEntry = none

/-- A process between two calls, in runs in which every shutdown finds the others clear. -/
structure ProcessOk (E : Env) (p : Process) : Prop where
  rest : ∀ t, (p.tls t).currentRegionId = xyRegionRoot
  up : p.up = true → ∀ t, Inv E { rt := p.view t }
  down : p.up = false → ∀ t, Down { rt := p.view t }
  entry : p.up = true → ∀ t r, (p.tls t).currentRegionEntry = some r →
    (p.tls t).entryLife = p.lifetime ∧ p.rt.regionHd xyRegionRoot = some r

section Calls
variable {E : Env} {s t : State} {e : Event} {tr : List (State × Event)}

theorem PairMove.returnPair_all (h : PairMove e s t) :
    Xylem.returnPair t.pair t.stack = Xylem.returnPair s.pair s.stack := by
  cases h with
  | stays hs hp => rw [hs, hp]
  | pushes g hs hp hid =>
      rw [hs, Xylem.returnPair, List.foldl_cons, hp]
      rfl
  | pops f stack he hst hs hp =>
      rw [hs, hst, hp]
      rfl
  | swaps f g stack he hst hs hp hid =>
      rw [hs, hst, Xylem.returnPair, List.foldl_cons, hp]
      rfl

theorem whole_calls (hi : Inv E s) (hs : s.stack = []) (h : Run.Steps (step E) s tr t)
    (ht : t.stack = []) : Inv E t ∧ t.pair = s.pair ∧
      ∀ id r, s.rt.regionHd id = some r → t.rt.regionHd id = some r := by
  have hk : IdsKept s.pair s.stack := by
    rw [hs]
    trivial
  have key := h.invariant (C := fun _ _ _ => True)
    (P := fun u => Inv E u ∧ IdsKept u.pair u.stack ∧
      returnPair u.pair u.stack = returnPair s.pair s.stack ∧
      ∀ id r, s.rt.regionHd id = some r → u.rt.regionHd id = some r)
    ?_ (fun _ _ _ _ => trivial) ⟨hi, hk, rfl, fun _ _ hr => hr⟩
  · obtain ⟨hit, -, hpair, hhd⟩ := key
    rw [ht, hs] at hpair
    exact ⟨hit, hpair, hhd⟩
  · rintro m e u hu - ⟨him, hkm, hpair, hhd⟩
    have hmove := step_pair him hu hkm
    exact ⟨him.step hu, hmove.idsKept hkm, hmove.returnPair_all.trans hpair,
      fun id r hr => step_regionHd him hu (hhd id r hr)⟩

end Calls

section Threads
variable {E : Env} {p q : Process} {e : ProcessEvent} {t : Nat}

theorem withTls_sameHeap (s : Runtime) (x : Tls) : SameHeap s (s.withTls x) :=
  ⟨rfl, rfl, rfl, rfl, rfl, rfl, rfl, rfl, rfl, rfl, rfl, rfl, List.prefix_rfl⟩

/-- Another thread's view of a runtime in order, if its pair is in order. -/
theorem Inv.ofThread {s : Runtime} {u v : Status} (hi : Inv E ⟨s, [], u⟩) {x : Tls}
    (hx : PairOk s x.currentRegionId x.currentRegionEntry) : Inv E ⟨s.withTls x, [], v⟩ := by
  have hp : Prims E (fun _ _ => True) (s, .none) (s.withTls x, .none) :=
    .single (.scratch (withTls_sameHeap s x))
  exact Inv.of_prims hi hp
    ⟨hi.registry.lt, hi.registry.inj, hi.registry.sica, hi.registry.held⟩
    (fun hk => hx.keeps hk) fun _ f hf => .inl hf

/-- The views of threads that rest in the root region, with its pointer or with none. -/
theorem Inv.threads {rt : Runtime} {v : Status} {x : Nat → Tls} (hi : Inv E ⟨rt, [], v⟩)
    (hid : ∀ t, (x t).currentRegionId = xyRegionRoot) (hroot : (rt.regionHd xyRegionRoot).isSome)
    (hr : ∀ t r, (x t).currentRegionEntry = some r → rt.regionHd xyRegionRoot = some r) (t : Nat) :
    Inv E { rt := rt.withTls (x t) } := by
  apply Inv.ofThread hi
  rw [hid t]
  obtain ⟨L, hw⟩ := hi.wf
  exact ⟨hroot, fun r h => (hw.tree.hd_node _ _ (hr t r h)).1⟩

/-- The thread that made the calls has its pair back, and the others keep theirs. -/
theorem ProcessOk.call {s : State} {es : List Event} (h : ProcessOk E p) (hup : p.up = true)
    (hexec : Run.exec (step E) { rt := p.view t } es = .ok s)
    (hstack : s.stack = []) : ProcessOk E (p.save t s.rt p.lifetime) := by
  obtain ⟨hi, hpair, hhd⟩ := whole_calls (h.up hup t) rfl (Run.exec_steps hexec) hstack
  have hid : s.rt.currentRegionId = (p.tls t).currentRegionId := congrArg Prod.fst hpair
  have hrt : s.rt.currentRegionEntry = (p.tls t).currentRegionEntry := congrArg Prod.snd hpair
  have hrest : ∀ u, ((p.save t s.rt p.lifetime).tls u).currentRegionId = xyRegionRoot := by
    intro u
    by_cases hu : u = t
    · subst hu
      rw [Process.save_self]
      exact hid.trans (h.rest u)
    · rw [Process.save_ne p hu]
      exact h.rest u
  have hentry : ∀ u r, ((p.save t s.rt p.lifetime).tls u).currentRegionEntry = some r →
      ((p.save t s.rt p.lifetime).tls u).entryLife = p.lifetime ∧
        s.rt.regionHd xyRegionRoot = some r := by
    intro u r hr
    by_cases hu : u = t
    · subst hu
      rw [Process.save_self] at hr ⊢
      exact ⟨rfl, hhd _ _ (h.entry hup u r (hrt.symm.trans hr)).2⟩
    · rw [Process.save_ne p hu] at hr ⊢
      obtain ⟨hlife, hr⟩ := h.entry hup u r hr
      exact ⟨hlife, hhd _ _ hr⟩
  have hroot : (s.rt.regionHd xyRegionRoot).isSome := by
    have := hi.current.id
    rwa [hid, h.rest t] at this
  obtain ⟨rt, stack, status⟩ := s
  cases hstack
  refine ⟨hrest, fun _ => Inv.threads hi hrest hroot fun u r hr => (hentry u r hr).2,
    fun hd => ?_, fun _ => hentry⟩
  exact absurd (hup.symm.trans hd) (by simp)

theorem ProcessOk.setErr (h : ProcessOk E p) (n : Int) :
    ProcessOk E { p with rt := p.rt.setErr n } := by
  refine ⟨h.rest, fun hup t => ?_, fun hd t => ?_, h.entry⟩
  · have hi := h.up hup t
    exact Inv.of_sameHeap (u := .entered) hi (setErr_sameHeap _ _)
      ⟨hi.registry.lt, hi.registry.inj, hi.registry.sica, hi.registry.held⟩ rfl rfl
  · have ht := h.down hd t
    exact ht.congr rfl (setErr_sameHeap (p.view t) n) rfl ht.currentRegionId ht.currentRegionEntry

/-- The thread that initialises the runtime takes the new root region; no other has one. -/
theorem ProcessOk.init {life : Nat} (h : ProcessOk E p) (hdown : p.up = false)
    (hlife : life = p.lifetime + 1) :
    ProcessOk E { p.save t ((p.view t).xyRuntimeBootstrap.setErr xyOk) life with
      up := true, lifetime := p.lifetime + 1 } := by
  have hi := (h.down hdown t).init (E := E)
  have hboot := (h.down hdown t).bootstrap
  have hnone : ∀ u, (p.tls u).currentRegionEntry = none :=
    fun u => (h.down hdown u).currentRegionEntry
  generalize hs : (p.view t).xyRuntimeBootstrap.setErr xyOk = s at hi ⊢
  rw [hboot] at hs
  have hhd : s.regionHd xyRegionRoot = some 0 := by
    rw [← hs]
    simp [Runtime.setErr]
  have hroot : (s.regionHd xyRegionRoot).isSome := by rw [hhd, Option.isSome_some]
  have hid : s.currentRegionId = xyRegionRoot := by
    rw [← hs]
    exact h.rest t
  have hrt : s.currentRegionEntry = some 0 := by
    rw [← hs]
    rfl
  have hrest : ∀ u, ((p.save t s life).tls u).currentRegionId = xyRegionRoot := by
    intro u
    by_cases hu : u = t
    · subst hu
      rwa [Process.save_self]
    · rw [Process.save_ne p hu]
      exact h.rest u
  have hentry : ∀ u r, ((p.save t s life).tls u).currentRegionEntry = some r →
      ((p.save t s life).tls u).entryLife = p.lifetime + 1 ∧
        s.regionHd xyRegionRoot = some r := by
    intro u r hr
    by_cases hu : u = t
    · subst hu
      rw [Process.save_self] at hr ⊢
      exact ⟨hlife, hhd.trans (hrt.symm.trans hr)⟩
    · rw [Process.save_ne p hu, hnone u] at hr
      cases hr
  exact ⟨hrest, fun _ => Inv.threads hi hrest hroot fun u r hr => (hentry u r hr).2,
    fun hd => (by cases hd), fun _ => hentry⟩

/-- A shutdown clears the pointer of its own thread; no other has one. -/
theorem ProcessOk.shutdown {n : Runtime} {life : Nat} (h : ProcessOk E p) (hup : p.up = true)
    (hn : (p.view t).xyRuntimeTeardown E = .ok n)
    (hc : ∀ u, u ≠ t → (p.tls u).currentRegionEntry = none) :
    ProcessOk E { p.save t (n.setErr xyOk) life with up := false } := by
  have hd := (h.up hup t).down rfl hn
  have hrest : ∀ u, ((p.save t (n.setErr xyOk) life).tls u).currentRegionId = xyRegionRoot := by
    intro u
    by_cases hu : u = t
    · subst hu
      rw [Process.save_self]
      exact hd.currentRegionId
    · rw [Process.save_ne p hu]
      exact h.rest u
  have hentry : ∀ u, ((p.save t (n.setErr xyOk) life).tls u).currentRegionEntry = none := by
    intro u
    by_cases hu : u = t
    · subst hu
      rw [Process.save_self]
      exact hd.currentRegionEntry
    · rw [Process.save_ne p hu]
      exact hc u hu
  refine ⟨hrest, fun hu => (by cases hu), fun _ u => ?_, fun hu => (by cases hu)⟩
  exact hd.congr rfl ((setErr_sameHeap n _).trans (withTls_sameHeap _ _)) rfl (hrest u) (hentry u)

theorem processOk_step (h : ProcessOk E p) (hs : processStep E p e = .ok q)
    (hc : OthersClear p e q) : ProcessOk E q := by
  cases e with
  | call t es =>
      simp only [processStep] at hs
      split at hs
      · cases hs
      · rename_i hup
        split at hs
        · cases hs
        · split at hs
          · cases hs
          · rename_i s hexec
            split at hs
            · rename_i hstack
              cases hs
              exact h.call (by simpa using hup) hexec hstack
            · cases hs
  | init t =>
      simp only [processStep] at hs
      split at hs
      · cases hs
        exact h.setErr _
      · rename_i hup
        cases hs
        apply h.init (by simpa using hup)
        rw [h.rest t]
        simp
  | shutdown t =>
      simp only [processStep] at hs
      split at hs
      · rename_i hup
        obtain ⟨n, hn, rfl⟩ := Res.map_ok.mp hs
        exact h.shutdown hup hn (hc t rfl hup)
      · cases hs
        exact h.setErr _

theorem ProcessOk.current (h : ProcessOk E p) : EntriesCurrent p := by
  intro t r hr
  cases hup : p.up with
  | false =>
      have hnone : (p.tls t).currentRegionEntry = none := (h.down hup t).currentRegionEntry
      rw [hnone] at hr
      cases hr
  | true =>
      obtain ⟨hlife, hhd⟩ := h.entry hup t r hr
      obtain ⟨L, hw⟩ := (h.up hup t).wf
      rw [h.rest t]
      exact ⟨rfl, hlife, hhd, (hw.tree.hd_node _ _ hhd).2⟩

theorem ProcessLaunch.ok (h : ProcessLaunch p) : ProcessOk E p := by
  refine ⟨fun t => ?_, fun hup => ?_, fun _ t => ?_, fun hup => ?_⟩
  · rw [h.tls]
  · rw [h.up] at hup
    cases hup
  · have hv : p.view t = p.rt.withTls {} := by rw [Process.view, h.tls]
    rw [hv]
    exact (Launch.inv (E := E) h.launch).down h.launch.up
  · rw [h.up] at hup
    cases hup

/-- A shutdown that finds another thread's pointer set leaves it dangling. -/
theorem shutdown_current (hs : processStep E p (.shutdown t) = .ok q) (hup : p.up = true)
    (h : EntriesCurrent q) : ∀ u, u ≠ t → (p.tls u).currentRegionEntry = none := by
  intro u hu
  simp only [processStep, hup, if_true] at hs
  obtain ⟨n, hn, rfl⟩ := Res.map_ok.mp hs
  cases hr : (p.tls u).currentRegionEntry with
  | none => rfl
  | some r =>
      have hkeep : (p.save t (n.setErr xyOk) (p.tls t).entryLife).tls u = p.tls u :=
        Process.save_ne p hu ..
      have hdown := (h u r ((congrArg Tls.currentRegionEntry hkeep).trans hr)).1
      cases hdown

/-- The region pointers of all threads are current in every state of a run exactly if every
shutdown in it finds no other thread with a region entry. -/
theorem region_pointers_current_iff {p₀ : Process} {tr : List (Process × ProcessEvent)}
    (h₀ : ProcessLaunch p₀) (hrun : Run.Steps (processStep E) p₀ tr p) :
    (∀ u ∈ Run.states tr p, EntriesCurrent u) ↔ Run.Every (processStep E) OthersClear tr := by
  constructor
  · intro h x hx q hq t he hup
    rw [he] at hq
    apply shutdown_current hq hup
    apply h q (hrun.next_mem hx ?_)
    rw [he]
    exact hq
  · intro hc u hu
    refine ProcessOk.current (E := E) ?_
    apply hrun.invariant_states (P := ProcessOk E) ?_ hc h₀.ok u hu
    intro m e q hq hcond hm
    exact processOk_step hm hq hcond

theorem processStep_tls (hs : processStep E p e = .ok q) {u : Nat} (hu : u ≠ e.thread) :
    q.tls u = p.tls u := by
  cases e with
  | call t es =>
      simp only [processStep] at hs
      split at hs
      · cases hs
      · split at hs
        · cases hs
        · split at hs
          · cases hs
          · split at hs
            · cases hs
              exact Process.save_ne p hu ..
            · cases hs
  | init t =>
      simp only [processStep] at hs
      split at hs
      · cases hs
        rfl
      · cases hs
        exact Process.save_ne p hu ..
  | shutdown t =>
      simp only [processStep] at hs
      split at hs
      · obtain ⟨n, -, rfl⟩ := Res.map_ok.mp hs
        exact Process.save_ne p hu ..
      · cases hs
        rfl

def othersClear (n : Nat) (p : Process) : ProcessEvent → Bool
  | .shutdown t =>
      !p.up || decide (∀ u < n, u ≠ t → (p.tls u).currentRegionEntry = none)
  | _ => true

theorem every_othersClear {n : Nat} {p₀ : Process} {tr : List (Process × ProcessEvent)}
    (h₀ : ProcessLaunch p₀) (hrun : Run.Steps (processStep E) p₀ tr p)
    (hn : ∀ x ∈ tr, x.2.thread < n) (hc : (tr.all fun x => othersClear n x.1 x.2) = true) :
    Run.Every (processStep E) OthersClear tr := by
  have hidle : ∀ m ∈ Run.states tr p, ∀ u, n ≤ u → m.tls u = {} := by
    apply hrun.invariant_states (P := fun m => ∀ u, n ≤ u → m.tls u = {})
      (C := fun _ e _ => e.thread < n)
    · intro m e q hq he hm u hu
      rw [processStep_tls hq (by omega)]
      exact hm u hu
    · exact fun x hx _ _ => hn x hx
    · intro u _
      rw [h₀.tls]
  intro x hx q _ t he hup u hu
  have hx' : x.1 ∈ Run.states tr p := by
    simp only [Run.states, List.mem_append, List.mem_map]
    exact .inl ⟨x, hx, rfl⟩
  rcases Nat.lt_or_ge u n with hlt | hge
  · have hcx := List.all_eq_true.mp hc x hx
    simp only [he, othersClear, hup, Bool.not_true, Bool.false_or, decide_eq_true_eq] at hcx
    exact hcx u hlt hu
  · rw [hidle x.1 hx' u hge]

/-- A process in which nothing is loaded and no hook is known. -/
def sampleProcess : Process := { rt := sampleLife.st.rt }

theorem sampleProcess_launch : ProcessLaunch sampleProcess :=
  ⟨rfl, rfl, ⟨rfl, rfl, rfl, rfl, rfl, rfl, rfl, rfl, rfl, fun _ => rfl, rfl, rfl, rfl⟩⟩

/-- Thread 0 shuts down, thread 1 loads a module, and then thread 0 does, with no region
entry of its own. -/
theorem region_pointers_two_threads : ∃ p, Run.exec (processStep sampleEnv) sampleProcess
      [.init 0, .shutdown 0, .init 1, .call 1 [.load "p" {}, .installRet],
        .call 0 [.load "q" { addr := 1 }, .installRet], .shutdown 1] = .ok p ∧
    ∀ u ∈ Run.states (Run.trace (processStep sampleEnv) sampleProcess
      [.init 0, .shutdown 0, .init 1, .call 1 [.load "p" {}, .installRet],
        .call 0 [.load "q" { addr := 1 }, .installRet], .shutdown 1]) p, EntriesCurrent u := by
  obtain ⟨p, hp, -⟩ := Run.exec_of_check (processStep sampleEnv) sampleProcess
    [.init 0, .shutdown 0, .init 1, .call 1 [.load "p" {}, .installRet],
      .call 0 [.load "q" { addr := 1 }, .installRet], .shutdown 1] (fun _ => true) (by decide)
  have hrun := Run.exec_steps hp
  refine ⟨p, hp, (region_pointers_current_iff sampleProcess_launch hrun).mpr ?_⟩
  apply every_othersClear (n := 2) sampleProcess_launch hrun
  · intro x hx
    have hmem := List.mem_map_of_mem (f := (·.2)) hx
    rw [Run.trace_events hp] at hmem
    revert hmem
    generalize x.2 = e
    revert e
    decide
  · decide

/-- Thread 1 shuts down the runtime that thread 0 has initialised, and initialises it again. -/
theorem region_pointer_dangles : ∃ p, Run.exec (processStep sampleEnv) sampleProcess
      [.init 0, .shutdown 1, .init 1] = .ok p ∧
    ¬ EntriesCurrent p := by
  obtain ⟨p, hp, hobs⟩ := Run.exec_of_check (processStep sampleEnv) sampleProcess
    [.init 0, .shutdown 1, .init 1]
    (fun p => decide ((p.tls 0).currentRegionEntry = some 0) && p.stale 0) (by decide)
  simp only [Process.stale, Bool.and_eq_true, decide_eq_true_eq] at hobs
  exact ⟨p, hp, fun h => hobs.2.2 (h 0 0 hobs.1).2.1⟩

end Threads
end Xylem
