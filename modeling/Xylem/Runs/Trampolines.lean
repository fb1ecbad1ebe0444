import Xylem.Model.Trampoline
import Xylem.Runs.Reply

namespace Xylem

open Xylem.Runtime

namespace Trampoline
variable {t : Trampoline} {fn : Fn}

/-- Handed the function of a slot, the trampoline calls it once, with the fields of the
arguments in order, and stores its result. -/
def RunsSlot (t : Trampoline) (fn : Fn) : Prop :=
  ∀ body res arg, t.adapterCall body res (some fn) arg =
    { calls := [⟨fn, arg⟩], res := storeRes res (body ⟨fn, arg⟩) }

theorem runsSlot_iff : t.RunsSlot fn ↔ ∀ l, t.kind = .rustImpl l → l = fn := by
  constructor
  · intro h l hl
    have hcalls := congrArg Ran.calls (h (fun _ => []) none [])
    simp only [adapterCall, hl, callAndStore, List.cons.injEq, FnCall.mk.injEq] at hcalls
    exact hcalls.1.1
  · intro h body res arg
    cases hk : t.kind with
    | rustImpl l =>
        obtain rfl := h l hk
        simp only [adapterCall, hk, callAndStore]
    | _ => simp only [adapterCall, hk, callAndStore]

end Trampoline

namespace Runtime
variable {s : Runtime}

def slotAt (s : Runtime) (f : CallFrame) : Option Slot :=
  ((s.regions f.callerRegion).hookDispatch f.hookId).slots[f.mi]?

/-- The frame is at a slot of the entry it is running, with a function. -/
def AtSlot (s : Runtime) (f : CallFrame) : Prop :=
  ∃ slot fn, s.slotAt f = some slot ∧ slot.me = f.me ∧ slot.cb = .fn fn

theorem callEnter_regions (s : Runtime) (f : CallFrame) (p : EntryPtr) (me : ModEntry) (c : CtxPtr) :
    (s.callEnter f p me c).1.regions = s.regions := by
  simp only [callEnter]
  split <;> rfl

theorem callLoop_entered {left : Nat} {f g : CallFrame} {n : Runtime}
    (h : s.callLoop left f = .ok (n, .inr g)) :
    g.dispatchCall = f.dispatchCall ∧ f.mi ≤ g.mi ∧ n.AtSlot g := by
  generalize hr : (Sum.inr g : Int ⊕ CallFrame) = r at h
  cases callLoop_way h with
  | ends hskip => cases hr
  | enters k slot me c fn hk hk' hskip htaken =>
      cases hr
      refine ⟨rfl, hk, slot, fn, ?_, rfl, htaken.cb⟩
      unfold slotAt
      rw [callEnter_regions]
      exact htaken.cell

end Runtime

section Steps
variable {E : Env} {s t m u : State} {stack : List Frame}

theorem afterCall_entered {ran : List EntryPtr} {r : Runtime × (Int ⊕ CallFrame)} {f : CallFrame}
    (h : (State.afterCall stack ran r).stack = .body f :: stack) :
    r.2 = .inr f ∧ (State.afterCall stack ran r).rt = r.1 := by
  obtain ⟨n, ret | g⟩ := r
  · have hlen := congrArg List.length h
    simp only [State.afterCall, List.length_cons] at hlen
    omega
  · simp only [State.afterCall, List.cons.injEq, Frame.body.injEq, and_true] at h
    exact ⟨congrArg Sum.inr h, rfl⟩

theorem call_entered {retp : Option BufPtr} {reg : AdapterPtr} {i : Nat} {tramp : Trampoline}
    {f : CallFrame} (hres : (s.rt.callResolve reg).2 = .ok (i, tramp))
    (h : step E s (.call retp (some reg)) = .ok t) (ht : t.stack = .body f :: s.stack) :
    f.dispatchCall = tramp ∧ t.rt.AtSlot f := by
  obtain ⟨⟨n, out⟩, hr, rfl⟩ := Res.map_ok.mp h
  obtain ⟨hout, hrt⟩ := afterCall_entered ht
  rw [hrt]
  simp only at hout
  subst hout
  obtain ⟨⟨m, out⟩, hm, hr⟩ := Res.bind_ok.mp hr
  cases callPrepare_way hm with
  | fails ret hret => cases hr
  | denied i' call hi hd => cases hr
  | nowhere i' call hi hd hc =>
      cases hres.symm.trans hi
      exact (callLoop_entered hr).imp_right And.right
  | loops i' call hi hd r hc t ht =>
      cases hres.symm.trans hi
      exact (callLoop_entered hr).imp_right And.right

theorem bodyRet_entered {result : Bytes} {f g : CallFrame} (hs : s.stack = .body f :: stack)
    (h : step E s (.bodyRet result) = .ok t) (ht : t.stack = .body g :: stack) :
    g.dispatchCall = f.dispatchCall ∧ f.mi < g.mi ∧ t.rt.AtSlot g := by
  simp only [step, hs] at h
  obtain ⟨⟨n, out⟩, hr, rfl⟩ := Res.map_ok.mp h
  obtain ⟨hout, hrt⟩ := afterCall_entered ht
  rw [hrt]
  simp only at hout
  subst hout
  obtain ⟨hcall, hmi, hat⟩ := callLoop_entered (bodyReturn_ok hr)
  exact ⟨hcall, hmi, hat⟩

theorem afterCall_pushes {ran : List EntryPtr} {r : Runtime × (Int ⊕ CallFrame)}
    (h : (State.afterCall stack ran r).status = .entered) :
    ∃ g, (State.afterCall stack ran r).stack = .body g :: stack := by
  obtain ⟨n, ret | g⟩ := r
  · cases h
  · exact ⟨g, rfl⟩

/-- Control gets into fresh code above the stack, or into the next slot of a call. -/
theorem step_entered_stack {e : Event} (h : step E s e = .ok t) (ht : t.status = .entered) :
    (∃ g, t.stack = g :: s.stack) ∨
      ∃ result f g rest, e = .bodyRet result ∧ s.stack = .body f :: rest ∧
        t.stack = .body g :: rest := by
  rcases step_entered h ht with ⟨retp, reg, rfl⟩ | ⟨result, rfl⟩ | ⟨f, hf⟩ | ⟨id, r, hf⟩
  · obtain ⟨r, -, rfl⟩ := Res.map_ok.mp h
    obtain ⟨g, hg⟩ := afterCall_pushes ht
    exact .inl ⟨_, hg⟩
  · simp only [step] at h
    split at h
    · rename_i f rest hs
      obtain ⟨r, -, rfl⟩ := Res.map_ok.mp h
      obtain ⟨g, hg⟩ := afterCall_pushes ht
      exact .inr ⟨result, f, g, rest, rfl, hs, hg⟩
    · cases h
  · exact .inl ⟨_, hf⟩
  · exact .inl ⟨_, hf⟩

theorem body_alone {above stack : List Frame} {f g : CallFrame}
    (h : above ++ .body f :: stack = .body g :: stack) : above = [] ∧ f = g := by
  have hlen := congrArg List.length h
  simp only [List.length_append, List.length_cons] at hlen
  obtain rfl : above = [] := List.eq_nil_of_length_eq_zero (by omega)
  exact ⟨rfl, Frame.body.inj (List.cons.inj h).1⟩

/-- The slots that the call with the callers `stack` has been at are not behind slot `k`. -/
def NotBehind (stack : List Frame) (tr : List (State × Event)) (k : Nat) : Prop :=
  ∀ x ∈ tr, ∀ g, x.1.stack = .body g :: stack → g.mi ≤ k

/-- While a call lasts, its frame keeps the trampoline it has resolved, and goes from slot to
slot. -/
theorem call_frame {retp : Option BufPtr} {reg : AdapterPtr} {i : Nat} {tramp : Trampoline}
    {tr : List (State × Event)} (hres : (s.rt.callResolve reg).2 = .ok (i, tramp))
    (h : Run.Steps (step E) s ((s, .call retp (some reg)) :: tr) u)
    (habove : ∀ x ∈ tr, s.stack.length < x.1.stack.length) :
    u.stack = s.stack ∨ ∃ above f, u.stack = above ++ .body f :: s.stack ∧
      f.dispatchCall = tramp ∧ NotBehind s.stack tr f.mi ∧
      (above = [] → u.status = .entered → u.rt.AtSlot f ∧
        ∀ x ∈ tr, ∀ g, x.1.stack = .body g :: s.stack → g.mi < f.mi) := by
  induction tr using List.reverseRecOn generalizing u with
  | nil =>
      obtain ⟨-, h1⟩ := Run.steps_singleton h
      obtain ⟨r, hr, hu⟩ := Res.map_ok.mp h1
      rcases xyCall_stack hr s.stack [] with hk | ⟨f, hk, -⟩
      · exact .inl (by rw [← hu]; exact hk)
      · have hk : u.stack = .body f :: s.stack := by
          rw [← hu]
          exact hk
        obtain ⟨hf, hat⟩ := call_entered hres h1 hk
        exact .inr ⟨[], f, hk, hf, fun _ hx => absurd hx List.not_mem_nil,
          fun _ _ => ⟨hat, fun _ hx => absurd hx List.not_mem_nil⟩⟩
  | append_singleton tr x ih =>
      obtain ⟨m, e⟩ := x
      rw [← List.cons_append] at h
      obtain ⟨h1, h2⟩ := Run.steps_snoc.mp h
      rcases ih h1 fun y hy => habove y (List.mem_append_left _ hy) with
        hm | ⟨above, f, hm, hf, hpast, -⟩
      · have hlt := habove (m, e) (by simp)
        rw [hm] at hlt
        exact absurd hlt (lt_irrefl _)
      -- the frame before the step is at the last slot that the call has been at
      have hpast' : NotBehind s.stack (tr ++ [(m, e)]) f.mi := by
        intro x hx g hg
        rcases List.mem_append.mp hx with hx | hx
        · exact hpast x hx g hg
        · obtain rfl := List.mem_singleton.mp hx
          exact (congrArg CallFrame.mi (body_alone (hm.symm.trans hg)).2).ge
      rcases step_stack h2 hm with ⟨above', hu⟩ | ⟨rfl, hret, hu | ⟨g, g', hu, -⟩⟩
      · refine .inr ⟨above', f, hu, hf, hpast', fun ha hent => ?_⟩
        subst ha
        rcases step_entered_stack h2 hent with ⟨g, hg⟩ | ⟨result, f0, g, rest, rfl, hm', hg⟩
        · -- a frame above the call's own would be in the way
          have hlen := congrArg List.length (hg.symm.trans hu)
          rw [hm] at hlen
          simp only [List.length_append, List.length_cons, List.nil_append] at hlen
          omega
        · obtain ⟨hgf, hrest⟩ := List.cons.inj (hg.symm.trans hu)
          cases hgf
          subst hrest
          -- a call that goes on leaves the slot of its frame
          have hlt := (bodyRet_entered hm' h2 hg).2.1
          rw [(body_alone (hm.symm.trans hm')).2] at hlt
          exact absurd hlt (lt_irrefl _)
      · exact .inl hu
      · obtain ⟨result, rfl⟩ := hret f rfl
        obtain ⟨hg, hlt, hat⟩ := bodyRet_entered hm h2 hu
        have hbefore : ∀ x ∈ tr ++ [(m, .bodyRet result)], ∀ g',
            x.1.stack = .body g' :: s.stack → g'.mi < g.mi := fun x hx g' hg' =>
          (hpast' x hx g' hg').trans_lt hlt
        exact .inr ⟨[], g, hu, hg.trans hf, fun x hx g' hg' => (hbefore x hx g' hg').le,
          fun _ _ => ⟨hat, hbefore⟩⟩

end Steps

end Xylem
