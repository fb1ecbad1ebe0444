import Xylem.Runs.Effect

namespace Xylem

open Xylem.Runtime

/-- The call made in `s` returns `ret`, having run the entries `ran`; the steps
in between are the bodies', nested calls included. -/
def Replies (E : Env) (s : State) (retp : Option BufPtr) (reg : Option AdapterPtr) (t : State)
    (ret : Int) (ran : List EntryPtr) : Prop :=
  ∃ tr, Run.Steps (step E) s ((s, .call retp reg) :: tr) t ∧
    (∀ x ∈ tr, s.stack.length < x.1.stack.length) ∧ t.stack = s.stack ∧ t.status = .returned ret ran

/-- `g` is a frame of the same call as `f`, with a body started. -/
structure CallFrame.SameCall (f g : CallFrame) : Prop where
  retp : g.retp = f.retp
  reg : g.reg = f.reg
  invoked : g.invoked ≠ []

theorem afterCall_stack {m : Runtime} {left : Nat} {f : CallFrame} {r : Runtime × (Int ⊕ CallFrame)}
    (h : m.callLoop left f = .ok r) (stack : List Frame) (ran : List EntryPtr) :
    (State.afterCall stack ran r).stack = stack ∨
      ∃ g, (State.afterCall stack ran r).stack = .body g :: stack ∧ f.SameCall g := by
  obtain ⟨n, r⟩ := r
  cases callLoop_effect h with
  | ends hret ht => exact .inl rfl
  | enters k p me c he hc ht => exact .inr ⟨_, rfl, rfl, rfl, by simp [callEnter]⟩

/-- The stack when `xy_call` is back, or has entered its first body. -/
theorem xyCall_stack {E : Env} {m : Runtime} {retp : Option BufPtr} {reg : Option AdapterPtr}
    {r : Runtime × (Int ⊕ CallFrame)} (h : m.xyCall E retp reg = .ok r) (stack : List Frame)
    (ran : List EntryPtr) : (State.afterCall stack ran r).stack = stack ∨
      ∃ g, (State.afterCall stack ran r).stack = .body g :: stack ∧ g.retp = retp ∧
        reg = some g.reg ∧ g.invoked ≠ [] := by
  cases reg with
  | none =>
      cases h
      exact .inl rfl
  | some reg =>
      obtain ⟨⟨m', out⟩, hm, h⟩ := Res.bind_ok.mp h
      cases callPrepare_way hm with
      | fails ret he =>
          cases h
          exact .inl rfl
      | denied i call he hd =>
          cases h
          exact .inl rfl
      | nowhere i call he hd hc =>
          rcases afterCall_stack h stack ran with hk | ⟨g, hk, hg⟩
          · exact .inl hk
          · exact .inr ⟨g, hk, hg.retp, congrArg some hg.reg.symm, hg.invoked⟩
      | loops i call he hd R hR t ht =>
          rcases afterCall_stack h stack ran with hk | ⟨g, hk, hg⟩
          · exact .inl hk
          · exact .inr ⟨g, hk, hg.retp, congrArg some hg.reg.symm, hg.invoked⟩

/-- What a step does to the stack. -/
inductive StackMove (s : State) : Event → State → Prop
  | keeps {e : Event} {t : State} (h : t.stack = s.stack) : StackMove s e t
  | pushes {e : Event} {t : State} (g : Frame) (h : t.stack = g :: s.stack) : StackMove s e t
  | turns {result : Bytes} {t : State} (g g' : CallFrame) (rest : List Frame)
      (hs : s.stack = .body g :: rest) (h : t.stack = .body g' :: rest) (hg : g.SameCall g') :
      StackMove s (.bodyRet result) t
  | pops {e : Event} {t : State} (g : Frame) (rest : List Frame) (hs : s.stack = g :: rest)
      (h : t.stack = rest) (hbody : ∀ c, g = .body c → ∃ result, e = .bodyRet result)
      (hinstall : ∀ f, g = .install f → e = .installRet) : StackMove s e t

theorem step_move {E : Env} {s t : State} {e : Event} (h : step E s e = .ok t) : StackMove s e t := by
  cases e with
  | areg a => cases h; exact .keeps rfl
  | selfInitCtx c => cases h; exact .keeps rfl
  | deny what type => cases h; exact .keeps rfl
  | requireClaim fn ud => cases h; exact .keeps rfl
  | last ret => cases h; exact .keeps rfl
  | unload fname fuel =>
      obtain ⟨r, -, rfl⟩ := Res.map_ok.mp h
      exact .keeps rfl
  | load fname ch =>
      obtain ⟨⟨n, out⟩, -, rfl⟩ := Res.map_ok.mp h
      cases out with
      | done ret => exact .keeps rfl
      | wait g => exact .pushes _ rfl
  | reload fname ch fuel =>
      obtain ⟨⟨n, out⟩, -, rfl⟩ := Res.map_ok.mp h
      cases out with
      | done ret => exact .keeps rfl
      | wait g => exact .pushes _ rfl
  | call retp reg =>
      obtain ⟨r, hr, rfl⟩ := Res.map_ok.mp h
      rcases xyCall_stack hr s.stack [] with hk | ⟨g, hk, -⟩
      · exact .keeps hk
      · exact .pushes _ hk
  | withRegion id =>
      cases h
      unfold xyWithRegion
      split
      · exact .keeps rfl
      · exact .pushes _ rfl
  | bodyRet result =>
      simp only [step] at h
      split at h
      · rename_i g rest hst
        obtain ⟨r, hr, rfl⟩ := Res.map_ok.mp h
        rcases afterCall_stack (bodyReturn_ok hr) rest g.invoked with hk | ⟨g', hk, hg⟩
        · exact .pops _ rest hst hk (fun _ _ => ⟨result, rfl⟩) fun _ hf => (by cases hf)
        · exact .turns g g' rest hst hk ⟨hg.retp, hg.reg, hg.invoked⟩
      · cases h
  | installRet =>
      simp only [step] at h
      split at h
      · rename_i g rest hst
        obtain ⟨r, -, rfl⟩ := Res.map_ok.mp h
        exact .pops _ rest hst rfl (fun _ hc => (by cases hc)) fun _ _ => rfl
      · cases h
  | scopeRet code =>
      simp only [step] at h
      split at h
      · rename_i id entry rest hst
        cases h
        exact .pops _ rest hst rfl (fun _ hc => (by cases hc)) fun _ hf => (by cases hf)
      · cases h

theorem top_cases {s : State} {f top : Frame} {above stack rest : List Frame}
    (hs : s.stack = above ++ f :: stack) (hst : s.stack = top :: rest) :
    (∃ above', above = top :: above' ∧ rest = above' ++ f :: stack) ∨
      above = [] ∧ top = f ∧ rest = stack := by
  rw [hs] at hst
  cases above with
  | nil =>
      obtain ⟨rfl, rfl⟩ := List.cons.inj hst
      exact .inr ⟨rfl, rfl, rfl⟩
  | cons a above' =>
      obtain ⟨rfl, rfl⟩ := List.cons.inj hst
      exact .inl ⟨above', rfl, rfl⟩

theorem step_stack {E : Env} {s t : State} {e : Event} (h : step E s e = .ok t) {f : Frame}
    {above stack : List Frame} (hs : s.stack = above ++ f :: stack) :
    (∃ above', t.stack = above' ++ f :: stack) ∨ above = [] ∧
      (∀ g, f = .body g → ∃ result, e = .bodyRet result) ∧
      (t.stack = stack ∨ ∃ g g', t.stack = .body g :: stack ∧ f = .body g' ∧ g'.SameCall g) := by
  cases step_move h with
  | keeps hk => exact .inl ⟨above, hk.trans hs⟩
  | pushes g hk => exact .inl ⟨g :: above, by rw [hk, hs, List.cons_append]⟩
  | turns g g' rest hst hk hg =>
      rcases top_cases hs hst with ⟨above', -, rfl⟩ | ⟨ha, rfl, rfl⟩
      · exact .inl ⟨_ :: above', hk⟩
      · exact .inr ⟨ha, fun _ _ => ⟨_, rfl⟩, .inr ⟨g', g, hk, rfl, hg⟩⟩
  | pops g rest hst hk hbody hinstall =>
      rcases top_cases hs hst with ⟨above', -, rfl⟩ | ⟨ha, rfl, rfl⟩
      · exact .inl ⟨above', hk⟩
      · exact .inr ⟨ha, hbody, .inl hk⟩

/-- While a call lasts, one of its bodies is on the stack above where it was made. -/
theorem call_stack {E : Env} {s u : State} {retp : Option BufPtr} {reg : Option AdapterPtr}
    {tr : List (State × Event)} (h : Run.Steps (step E) s ((s, .call retp reg) :: tr) u)
    (habove : ∀ x ∈ tr, s.stack.length < x.1.stack.length) :
    u.stack = s.stack ∨ ∃ above f, u.stack = above ++ .body f :: s.stack ∧ f.retp = retp ∧
      reg = some f.reg ∧ f.invoked ≠ [] := by
  induction tr using List.reverseRecOn generalizing u with
  | nil =>
      obtain ⟨-, h1⟩ := Run.steps_singleton h
      obtain ⟨r, hr, rfl⟩ := Res.map_ok.mp h1
      rcases xyCall_stack hr s.stack [] with hk | ⟨g, hk, hg⟩
      · exact .inl hk
      · exact .inr ⟨[], g, hk, hg⟩
  | append_singleton tr x ih =>
      obtain ⟨m, e⟩ := x
      rw [← List.cons_append] at h
      obtain ⟨h1, h2⟩ := Run.steps_snoc.mp h
      rcases ih h1 fun y hy => habove y (List.mem_append_left _ hy) with hm | ⟨above, f, hm, hf⟩
      · have := habove (m, e) (by simp)
        rw [hm] at this
        exact absurd this (lt_irrefl _)
      · rcases step_stack h2 hm with ⟨above', hu⟩ | ⟨-, -, hu | ⟨g, g', hu, hg', hg⟩⟩
        · exact .inr ⟨above', f, hu, hf⟩
        · exact .inl hu
        · cases hg'
          obtain ⟨hretp, hreg, -⟩ := hf
          refine .inr ⟨[], g, hu, hg.retp.trans hretp, hreg.trans ?_, hg.invoked⟩
          rw [hg.reg]

theorem Replies.last {E : Env} {s t : State} {retp : Option BufPtr} {reg : Option AdapterPtr}
    {ret : Int} {ran : List EntryPtr} (h : Replies E s retp reg t ret ran) :
    step E s (.call retp reg) = .ok t ∨
      ∃ m f result, m.stack = .body f :: s.stack ∧ f.retp = retp ∧ reg = some f.reg ∧
        f.invoked ≠ [] ∧ step E m (.bodyRet result) = .ok t := by
  obtain ⟨tr, hsteps, habove, hstack, hstatus⟩ := h
  rcases List.eq_nil_or_concat tr with rfl | ⟨tr, ⟨m, e⟩, rfl⟩
  · exact .inl (Run.steps_singleton hsteps).2
  · rw [List.concat_eq_append] at hsteps habove
    rw [← List.cons_append] at hsteps
    obtain ⟨h1, h2⟩ := Run.steps_snoc.mp hsteps
    have hlen := habove (m, e) (by simp)
    rcases call_stack h1 fun y hy => habove y (List.mem_append_left _ hy) with
      hm | ⟨above, f, hm, hretp, hreg, hinv⟩
    · rw [hm] at hlen
      exact absurd hlen (lt_irrefl _)
    · rcases step_stack h2 hm with ⟨above', hu⟩ | ⟨rfl, hret, -⟩
      · have hlen' := congrArg List.length (hstack.symm.trans hu)
        simp only [List.length_append, List.length_cons] at hlen'
        omega
      · obtain ⟨result, rfl⟩ := hret f rfl
        exact .inr ⟨m, f, result, hm, hretp, hreg, hinv, h2⟩

end Xylem
