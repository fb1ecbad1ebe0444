import Xylem.Runs.ModuleDenies

/-!
# The fast path of a call

`xy_call` handles a vector of one slot without the loop: it reads the slot once, does
not come back to it after the callback, and sets the number of bodies run instead of
counting it. The machine that takes this path has the runs of the plain one.
-/
namespace Xylem

open Xylem.Runtime

namespace Runtime

/-- The branch `n == 1` of `xy_call`, up to its callback. -/
def callSingle (s : Runtime) (f : CallFrame) : Res (Runtime × (Int ⊕ CallFrame)) :=
  match ((s.regions f.callerRegion).hookDispatch f.hookId).slots[0]? with
  | none => .error .useAfterFree
  | some slot => do
      let me ← s.deref slot.me
      match me.ctx, slot.cb with
      | some c, .fn _ =>
          let (s, f) := s.callEnter f slot.me me c
          .ok (s, .inr f)
      | some _, .notFound => .error .wildCall
      | _, _ => .ok (let (s, ret) := s.callFinish f; (s, .inl ret))

/-- The same branch, once the callback has returned `result`. -/
def singleReturn (s : Runtime) (f : CallFrame) (result : Bytes) :
    Res (Runtime × (Int ⊕ CallFrame)) :=
  if result.length ≠ f.dispatchCall.retSize then .error .refused
  else
    let s := match f.retp with
      | some b => s.writeBuf b result
      | none => s
    let s := if f.regionChanged then s.setCurrentRegion f.regionId f.prevRentry else s
    let (s, ret) := s.callFinish { f with ran := 1 }
    .ok (s, .inl ret)

def xyCallFast (E : Env) (s : Runtime) (retp : Option BufPtr) (reg : Option AdapterPtr) :
    Res (Runtime × (Int ⊕ CallFrame)) :=
  match reg with
  | none => .ok (s.setErr xyErrNotFound, .inl xyErrNotFound)
  | some reg => do
      match ← s.callPrepare E retp reg with
      | (s, .done ret) => .ok (s, .inl ret)
      | (s, .wait f) => if f.n = 1 then s.callSingle f else s.callLoop f.n f

end Runtime

/-- The machine whose calls take the fast path when they can. -/
def fastStep (E : Env) (s : State) : Event → Res State
  | .call retp reg => (s.rt.xyCallFast E retp reg).map (State.afterCall s.stack [])
  | .bodyRet result =>
      match s.stack with
      | .body f :: rest =>
          (if f.n = 1 then s.rt.singleReturn f result else s.rt.bodyReturn f result).map
            (State.afterCall rest f.invoked)
      | _ => .error .refused
  | e => step E s e

/-- The frame stands at one of its slots and has not run more bodies than it passed slots. -/
def CallFrame.Inside (f : CallFrame) : Prop := f.ran ≤ f.mi ∧ f.mi < f.n

/-- Every suspended call stands at one of its slots. -/
def State.Inside (s : State) : Prop := ∀ f, .body f ∈ s.stack → f.Inside

variable {E : Env} {s₀ s t : State}

namespace Runtime
variable {m n : Runtime} {f : CallFrame}

theorem callLoop_one (h : ((m.regions f.callerRegion).hookDispatch f.hookId).block = f.block)
    (hmi : f.mi = 0) : m.callLoop 1 f = m.callSingle f := by
  have hfin : ∀ k, m.callFinish { f with mi := k } = m.callFinish f := fun k => rfl
  simp only [callLoop, callSingle, h, hmi, ne_eq, not_true_eq_false, if_false]
  cases ((m.regions f.callerRegion).hookDispatch f.hookId).slots[0]? with
  | none => rfl
  | some slot =>
      cases hp : m.deref slot.me with
      | error e => simp only [hp, bind, Except.bind]
      | ok me =>
          simp only [hp, bind, Except.bind]
          cases me.ctx with
          | none => simp only [hfin]
          | some c => cases slot.cb <;> simp only [hfin]

theorem bodyReturn_one (hn : f.n = 1) (hf : f.Inside) (result : Bytes) :
    m.bodyReturn f result = m.singleReturn f result := by
  have hmi : f.mi = 0 := by have := hf.2; omega
  have hran : f.ran = 0 := by have := hf.1; omega
  simp only [bodyReturn, singleReturn, hn, hmi, hran]
  rfl

theorem callLoop_inside {left : Nat} {r : Int ⊕ CallFrame} (h : m.callLoop left f = .ok (n, r))
    (hran : f.ran ≤ f.mi) (hn : f.mi + left = f.n) : ∀ g, r = .inr g → g.Inside := by
  intro g hg
  obtain ⟨-, -, hrest⟩ := callLoop_rest h
  obtain ⟨-, -, hgn, hle, hlt⟩ := hrest g hg
  subst hg
  have hsame : g.ran = f.ran := by
    cases callLoop_way h with
    | enters k slot me c fn hk hk' hskip htaken => rfl
  exact ⟨by omega, by omega⟩

/-- A call that goes ahead has just captured the array it is about to walk. -/
theorem callPrepare_fresh {retp : Option BufPtr} {reg : AdapterPtr}
    (h : m.callPrepare E retp reg = .ok (n, .wait f)) : f.mi = 0 ∧ f.ran = 0 ∧
      (f.n ≠ 0 → ((n.regions f.callerRegion).hookDispatch f.hookId).block = f.block) := by
  generalize hout : Outcome.wait f = out at h
  cases callPrepare_way h with
  | fails ret he => cases hout
  | denied j call he hd => cases hout
  | nowhere j call he hd hr =>
      cases hout
      exact ⟨rfl, rfl, fun h0 => absurd rfl h0⟩
  | loops j call he hd R hR t hv =>
      cases hout
      exact ⟨rfl, rfl, fun _ => rfl⟩

theorem xyCallFast_eq (s : Runtime) (retp : Option BufPtr) (reg : Option AdapterPtr) :
    s.xyCallFast E retp reg = s.xyCall E retp reg := by
  cases reg with
  | none => rfl
  | some reg =>
      simp only [xyCallFast, xyCall]
      cases hp : s.callPrepare E retp reg with
      | error e => rfl
      | ok x =>
          obtain ⟨m, out⟩ := x
          cases out with
          | done ret => rfl
          | wait f =>
              simp only [bind, Except.bind]
              split
              · rename_i h1
                obtain ⟨hmi, -, hblock⟩ := callPrepare_fresh hp
                rw [h1, callLoop_one (hblock (by omega)) hmi]
              · rfl

theorem xyCall_inside {retp : Option BufPtr} {reg : Option AdapterPtr} {r : Int ⊕ CallFrame}
    (h : m.xyCall E retp reg = .ok (n, r)) : ∀ g, r = .inr g → g.Inside := by
  cases reg with
  | none =>
      cases h
      exact fun g hg => by cases hg
  | some reg =>
      obtain ⟨⟨u, out⟩, hu, h⟩ := Res.bind_ok.mp h
      cases out with
      | done ret =>
          cases h
          exact fun g hg => by cases hg
      | wait f =>
          obtain ⟨hmi, hran, -⟩ := callPrepare_fresh hu
          exact callLoop_inside h (by omega) (by omega)

theorem bodyReturn_inside {result : Bytes} {r : Int ⊕ CallFrame} (hf : f.Inside)
    (h : m.bodyReturn f result = .ok (n, r)) : ∀ g, r = .inr g → g.Inside := by
  unfold bodyReturn at h
  split at h
  · cases h
  · exact callLoop_inside h (Nat.add_le_add_right hf.1 1)
      (show f.mi + 1 + (f.n - (f.mi + 1)) = f.n by have := hf.2; omega)

end Runtime

theorem State.Inside.afterCall {rest : List Frame} {ran : List EntryPtr}
    {x : Runtime × (Int ⊕ CallFrame)} (hrest : ∀ f, .body f ∈ rest → f.Inside)
    (hx : ∀ g, x.2 = .inr g → g.Inside) : (State.afterCall rest ran x).Inside := by
  obtain ⟨n, r⟩ := x
  cases r with
  | inl ret => exact hrest
  | inr g =>
      intro f hf
      rcases List.mem_cons.mp hf with heq | hf
      · cases heq
        exact hx g rfl
      · exact hrest f hf

theorem State.Inside.afterLoad {rest : List Frame} {x : Runtime × Outcome LoadFrame}
    (hrest : ∀ f, .body f ∈ rest → f.Inside) : (State.afterLoad rest x).Inside := by
  obtain ⟨n, out⟩ := x
  cases out with
  | done ret => exact hrest
  | wait g =>
      intro f hf
      rcases List.mem_cons.mp hf with heq | hf
      · cases heq
      · exact hrest f hf

theorem State.Inside.step {e : Event} (hi : s.Inside) (h : step E s e = .ok t) : t.Inside := by
  have hpop : ∀ {f : Frame} {rest : List Frame}, s.stack = f :: rest →
      ∀ g, .body g ∈ rest → g.Inside :=
    fun hs g hg => hi g (hs ▸ List.mem_cons_of_mem _ hg)
  cases e with
  | areg reg | selfInitCtx ctx | deny what type | requireClaim fn ud | last ret =>
      cases h
      exact hi
  | load fname ch | reload fname ch fuel =>
      obtain ⟨x, hx, rfl⟩ := Res.map_ok.mp h
      exact .afterLoad hi
  | unload fname fuel =>
      obtain ⟨x, hx, rfl⟩ := Res.map_ok.mp h
      exact hi
  | call retp reg =>
      obtain ⟨x, hx, rfl⟩ := Res.map_ok.mp h
      exact .afterCall hi (xyCall_inside hx)
  | withRegion id =>
      cases h
      unfold xyWithRegion
      split
      · exact hi
      · intro f hf
        rcases List.mem_cons.mp hf with heq | hf
        · cases heq
        · exact hi f hf
  | bodyRet result =>
      cases hs : s.stack with
      | nil => simp [Xylem.step, hs] at h
      | cons f rest =>
          cases f with
          | install f | scope id entry => simp [Xylem.step, hs] at h
          | body f =>
              simp only [Xylem.step, hs] at h
              obtain ⟨x, hx, rfl⟩ := Res.map_ok.mp h
              exact .afterCall (hpop hs) (bodyReturn_inside (hi f (by simp [hs])) hx)
  | installRet =>
      cases hs : s.stack with
      | nil => simp [Xylem.step, hs] at h
      | cons f rest =>
          cases f with
          | body f | scope id entry => simp [Xylem.step, hs] at h
          | install f =>
              simp only [Xylem.step, hs] at h
              obtain ⟨x, hx, rfl⟩ := Res.map_ok.mp h
              exact hpop hs
  | scopeRet code =>
      cases hs : s.stack with
      | nil => simp [Xylem.step, hs] at h
      | cons f rest =>
          cases f with
          | body f | install f => simp [Xylem.step, hs] at h
          | scope id entry =>
              simp only [Xylem.step, hs, Except.ok.injEq] at h
              exact h ▸ hpop hs

/-- With every suspended call at one of its slots the two machines take the same step. -/
theorem fastStep_eq (hi : s.Inside) (e : Event) : fastStep E s e = step E s e := by
  cases e with
  | call retp reg => simp only [fastStep, step, xyCallFast_eq]
  | bodyRet result =>
      cases hs : s.stack with
      | nil => simp [fastStep, step, hs]
      | cons f rest =>
          cases f with
          | install f | scope id entry => simp [fastStep, step, hs]
          | body f =>
              simp only [fastStep, step, hs]
              split
              · rename_i h1
                rw [bodyReturn_one h1 (hi f (by simp [hs]))]
              · rfl
  | _ => rfl

/-- From any freshly initialised state the machine with the fast path takes exactly the runs
of the plain one: same events, same states, same faults at the end. -/
theorem fastStep_runs (h0 : Boot s₀) (es : List Event) :
    Run.exec (fastStep E) s₀ es = Run.exec (step E) s₀ es := by
  have key : ∀ (es : List Event) (s : State), s.Inside →
      Run.exec (fastStep E) s es = Run.exec (step E) s es := by
    intro es
    induction es with
    | nil => exact fun s _ => rfl
    | cons e es ih =>
        intro s hi
        simp only [Run.exec, fastStep_eq hi]
        cases hs : step E s e with
        | error f => rfl
        | ok m => exact ih m (hi.step hs)
  exact key es s₀ (by simp [State.Inside, h0.stack])

/-- A call to the one loaded module goes the fast way. -/
theorem fastStep_runs_single : ∃ s, Run.exec (fastStep sampleEnv) sampleState
      [.areg 0, .load "p" { addr := 1 }, .installRet, .call none (some 0), .bodyRet [7]] = .ok s ∧
    s.status = .returned xyOk [0] := by
  obtain ⟨s, hs, hobs⟩ := sample_check
    [.areg 0, .load "p" { addr := 1 }, .installRet, .call none (some 0), .bodyRet [7]]
    (fun s => decide (s.status = .returned xyOk [0])) (by decide)
  exact ⟨s, (fastStep_runs sampleState_boot _).trans hs, of_decide_eq_true hobs⟩

end Xylem
