import Mathlib.Data.List.Induction

/-!
# Runs of a transition function

A system steps from state to state on events and may have no step. A run keeps
the states it passed and the events it took, so that a condition on steps and a
statement about the past can both be read off it.
-/
namespace Run

variable {σ ε φ : Type*} (step : σ → ε → Except φ σ)

/-- `Steps step s tr t`: the events of `tr`, each with the state it was taken in,
lead from `s` to `t`. -/
inductive Steps : σ → List (σ × ε) → σ → Prop
  | nil (s : σ) : Steps s [] s
  | snoc {s m t : σ} {tr : List (σ × ε)} {e : ε} :
      Steps s tr m → step m e = .ok t → Steps s (tr ++ [(m, e)]) t

def states (tr : List (σ × ε)) (t : σ) : List σ := tr.map (·.1) ++ [t]

/-- Every step of the run satisfies `C`. -/
def Every (C : σ → ε → σ → Prop) (tr : List (σ × ε)) : Prop :=
  ∀ x ∈ tr, ∀ t, step x.1 x.2 = .ok t → C x.1 x.2 t

section
variable {step} {s m t : σ} {tr : List (σ × ε)} {C : σ → ε → σ → Prop}

theorem Every.left {tr' : List (σ × ε)} (h : Every step C (tr ++ tr')) : Every step C tr :=
  fun x hx => h x (List.mem_append_left _ hx)

theorem Every.last {e : ε} (h : Every step C (tr ++ [(m, e)])) (hs : step m e = .ok t) :
    C m e t := h (m, e) (by simp) t hs

theorem Every.snoc {e : ε} (h : Every step C tr) (hc : ∀ u, step m e = .ok u → C m e u) :
    Every step C (tr ++ [(m, e)]) := by
  intro x hx u hu
  rcases List.mem_append.mp hx with hx | hx
  · exact h x hx u hu
  · obtain rfl := List.mem_singleton.mp hx
    exact hc u hu

theorem Every.nil : Every step C [] := fun x hx => by simp at hx

/-- A property that holds at the start and survives every step that meets the
condition holds at the end of every run whose steps all meet it. -/
theorem Steps.invariant {P : σ → Prop}
    (hstep : ∀ m e t, step m e = .ok t → C m e t → P m → P t)
    (hrun : Steps step s tr t) (hC : Every step C tr) (h0 : P s) : P t := by
  induction hrun with
  | nil => exact h0
  | snoc _ hs ih => exact hstep _ _ _ hs (hC.last hs) (ih hC.left)

/-- The same, for a property of the state together with the steps so far. -/
theorem Steps.invariant_trace {P : List (σ × ε) → σ → Prop}
    (hstep : ∀ tr m e t, step m e = .ok t → C m e t → P tr m → P (tr ++ [(m, e)]) t)
    (hrun : Steps step s tr t) (hC : Every step C tr) (h0 : P [] s) : P tr t := by
  induction hrun with
  | nil => exact h0
  | snoc _ hs ih => exact hstep _ _ _ _ hs (hC.last hs) (ih hC.left)

theorem mem_states_snoc {u : σ} {e : ε} :
    u ∈ states (tr ++ [(m, e)]) t ↔ u ∈ states tr m ∨ u = t := by
  simp [states, or_assoc]

/-- The state after a step is one of the run. -/
theorem Steps.next_mem (h : Steps step s tr t) {x : σ × ε} (hx : x ∈ tr) {u : σ}
    (hu : step x.1 x.2 = .ok u) : u ∈ states tr t := by
  induction h with
  | nil => cases hx
  | snoc h hs ih =>
      rcases List.mem_append.mp hx with hx | hx
      · exact mem_states_snoc.mpr (.inl (ih hx))
      · obtain rfl := List.mem_singleton.mp hx
        exact mem_states_snoc.mpr (.inr (Except.ok.inj (hu.symm.trans hs)))

theorem Steps.invariant_states {P : σ → Prop}
    (hstep : ∀ m e t, step m e = .ok t → C m e t → P m → P t)
    (hrun : Steps step s tr t) (hC : Every step C tr) (h0 : P s) : ∀ u ∈ states tr t, P u := by
  induction hrun with
  | nil => simpa [states] using h0
  | snoc hrun hs ih =>
      intro u hu
      rcases mem_states_snoc.mp hu with hu | rfl
      · exact ih hC.left u hu
      · exact hstep _ _ _ hs (hC.last hs) (hrun.invariant hstep hC.left h0)

theorem Steps.trans {tr' : List (σ × ε)} (h : Steps step s tr m) (k : Steps step m tr' t) :
    Steps step s (tr ++ tr') t := by
  induction k with
  | nil => simpa using h
  | snoc _ hs ih =>
      rw [← List.append_assoc]
      exact .snoc ih hs

theorem Steps.cons {e : ε} (hs : step s e = .ok m) (k : Steps step m tr t) :
    Steps step s ((s, e) :: tr) t :=
  (Steps.snoc (.nil s) hs).trans k

theorem steps_snoc {e : ε} :
    Steps step s (tr ++ [(m, e)]) t ↔ Steps step s tr m ∧ step m e = .ok t := by
  constructor
  · intro h
    generalize hl : tr ++ [(m, e)] = l at h
    cases h with
    | nil => simp at hl
    | snoc h1 h2 =>
        obtain ⟨rfl, hx⟩ := List.append_inj' hl rfl
        cases hx
        exact ⟨h1, h2⟩
  · exact fun h => .snoc h.1 h.2

theorem steps_nil (h : Steps step s [] t) : t = s := by
  generalize hl : ([] : List (σ × ε)) = l at h
  cases h with
  | nil => rfl
  | snoc => simp at hl

theorem Steps.head {e : ε} (h : Steps step s ((m, e) :: tr) t) :
    m = s ∧ ∃ u, step s e = .ok u ∧ Steps step u tr t := by
  induction tr using List.reverseRecOn generalizing t with
  | nil =>
      rw [← List.nil_append [(m, e)]] at h
      obtain ⟨h0, h1⟩ := steps_snoc.mp h
      cases steps_nil h0
      exact ⟨rfl, t, h1, .nil t⟩
  | append_singleton tr x ih =>
      rw [← List.cons_append] at h
      obtain ⟨h0, h1⟩ := steps_snoc.mp h
      obtain ⟨rfl, u, hu, hrun⟩ := ih h0
      exact ⟨rfl, u, hu, .snoc hrun h1⟩

theorem steps_singleton {e : ε} (h : Steps step s [(m, e)] t) : m = s ∧ step m e = .ok t := by
  rw [← List.nil_append [(m, e)]] at h
  obtain ⟨h0, h1⟩ := steps_snoc.mp h
  exact ⟨steps_nil h0, h1⟩

end

def exec (s : σ) : List ε → Except φ σ
  | [] => .ok s
  | e :: es =>
      match step s e with
      | .ok m => exec m es
      | .error f => .error f

def trace (s : σ) : List ε → List (σ × ε)
  | [] => []
  | e :: es => (s, e) :: match step s e with
      | .ok m => trace m es
      | .error _ => []

theorem trace_cons {step : σ → ε → Except φ σ} {s m : σ} {e : ε} (h : step s e = .ok m) (es : List ε) :
    trace step s (e :: es) = (s, e) :: trace step m es := by
  simp only [trace, h]

/-- What `exec` computes is a run, and `trace` lists its steps. -/
theorem exec_steps {step : σ → ε → Except φ σ} {s t : σ} {es : List ε}
    (h : exec step s es = .ok t) : Steps step s (trace step s es) t := by
  induction es generalizing s with
  | nil =>
      cases h
      exact .nil _
  | cons e es ih =>
      simp only [exec] at h
      cases hs : step s e with
      | error f => simp [hs] at h
      | ok m =>
          rw [hs] at h
          simp only [trace, hs]
          exact (ih h).cons hs

theorem trace_events {step : σ → ε → Except φ σ} {s t : σ} {es : List ε}
    (h : exec step s es = .ok t) : (trace step s es).map (·.2) = es := by
  induction es generalizing s with
  | nil => rfl
  | cons e es ih =>
      simp only [exec] at h
      cases hs : step s e with
      | error f => simp [hs] at h
      | ok m =>
          rw [hs] at h
          simp [trace, hs, ih h]

/-- The condition on the steps of a list of events, one event at a time. -/
theorem every_trace {step : σ → ε → Except φ σ} {C : σ → ε → σ → Prop} {s : σ} {e : ε} {es : List ε}
    (h : ∀ m, step s e = .ok m → C s e m ∧ Every step C (trace step m es)) :
    Every step C (trace step s (e :: es)) := by
  intro x hx t ht
  simp only [trace, List.mem_cons] at hx
  rcases hx with rfl | hx
  · exact (h t ht).1
  · cases hs : step s e with
    | error f => simp [hs] at hx
    | ok m =>
        rw [hs] at hx
        exact (h m hs).2 x hx t ht

theorem every_of_all {step : σ → ε → Except φ σ} {C : σ → ε → σ → Prop} {p : σ → ε → Bool}
    {tr : List (σ × ε)} (hp : ∀ s e t, p s e = true → C s e t)
    (h : (tr.all fun x => p x.1 x.2) = true) : Every step C tr :=
  fun x hx t _ => hp x.1 x.2 t (List.all_eq_true.mp h x hx)

theorem every_of_events {step : σ → ε → Except φ σ} {C : σ → ε → σ → Prop} {s : σ} {es : List ε}
    (h : ∀ e ∈ es, ∀ m t, C m e t) : Every step C (trace step s es) := by
  induction es generalizing s with
  | nil => exact .nil
  | cons e es ih =>
      refine every_trace fun m _ => ⟨h e (List.mem_cons_self ..) s m, ?_⟩
      exact ih fun e' he' => h e' (List.mem_cons_of_mem _ he')

/-- Whether the events can be taken and end in a state with the property. -/
def check (s : σ) (es : List ε) (P : σ → Bool) : Bool :=
  match exec step s es with
  | .ok t => P t
  | .error _ => false

theorem of_check {step : σ → ε → Except φ σ} {s : σ} {es : List ε} {P : σ → Bool}
    (h : check step s es P = true) : ∃ t, exec step s es = .ok t ∧ P t = true := by
  unfold check at h
  split at h
  · rename_i t ht
    exact ⟨t, ht, h⟩
  · cases h

theorem exec_of_check (step : σ → ε → Except φ σ) (s : σ) (es : List ε) (P : σ → Bool)
    (h : check step s es P = true) : ∃ t, exec step s es = .ok t ∧ P t = true := of_check h

theorem exec_nil (step : σ → ε → Except φ σ) (s : σ) : exec step s [] = .ok s := rfl

theorem exec_cons {step : σ → ε → Except φ σ} {s m t : σ} {e : ε} {es : List ε}
    (h : step s e = .ok m) (k : exec step m es = .ok t) : exec step s (e :: es) = .ok t := by
  simp only [exec, h]
  exact k

theorem exec_head {step : σ → ε → Except φ σ} {s t : σ} {e : ε} {es : List ε}
    (h : exec step s (e :: es) = .ok t) : ∃ m, step s e = .ok m ∧ exec step m es = .ok t := by
  simp only [exec] at h
  cases hs : step s e with
  | error f => simp [hs] at h
  | ok m =>
      rw [hs] at h
      exact ⟨m, rfl, h⟩

theorem exec_append {s m t : σ} {es es' : List ε} (h : exec step s es = .ok m)
    (k : exec step m es' = .ok t) : exec step s (es ++ es') = .ok t := by
  induction es generalizing s with
  | nil =>
      cases h
      exact k
  | cons e es ih =>
      simp only [exec] at h
      cases hs : step s e with
      | error f => simp [hs] at h
      | ok u =>
          rw [hs] at h
          exact exec_cons hs (ih h)

theorem exec_single {step : σ → ε → Except φ σ} {s t : σ} {e : ε} (h : exec step s [e] = .ok t) :
    step s e = .ok t := by
  obtain ⟨m, hm, h⟩ := exec_head h
  cases h
  exact hm

theorem check_at {step : σ → ε → Except φ σ} {s t : σ} {es : List ε} {P : σ → Bool}
    (h : check step s es P = true) (ht : exec step s es = .ok t) : P t = true := by
  obtain ⟨t', ht', hP⟩ := of_check h
  cases ht.symm.trans ht'
  exact hP

end Run
