import Xylem.Lib.Forest

namespace Forest

variable {α β : Type*} {parent : α → Option α} {children children' : α → List α}
  {items items' : α → List β}

theorem descend_congr (hc : ∀ x y, y ∈ children x → parent y = some x) {n : Nat} {x : α}
    (h : ∀ y, Anc parent x y → children' y = children y ∧ items' y = items y) :
    descend children' items' n x = descend children items n x := by
  induction n generalizing x with
  | zero => rfl
  | succ n ih =>
      obtain ⟨h1, h2⟩ := h x (.refl x)
      have hbelow : ∀ y ∈ children x, descend children' items' n y = descend children items n y :=
        fun y hy => ih fun z hz => h z ((Anc.link (hc x y hy)).trans hz)
      rw [descend, descend, h1, h2, List.flatMap_congr hbelow]

theorem descend_levels (height : α → Nat) (hh : ∀ x, ∀ y ∈ children x, height y < height x)
    {n m : Nat} {x : α} (hn : height x < n) (hm : height x < m) :
    descend children items n x = descend children items m x := by
  induction n generalizing x m with
  | zero => exact absurd hn (Nat.not_lt_zero _)
  | succ n ih =>
      obtain ⟨m, rfl⟩ : ∃ k, m = k + 1 := ⟨m - 1, by omega⟩
      have hbelow : ∀ y ∈ children x, descend children items n y = descend children items m y :=
        fun y hy => ih ((hh x y hy).trans_le (Nat.le_of_lt_succ hn))
          ((hh x y hy).trans_le (Nat.le_of_lt_succ hm))
      rw [descend, descend, List.flatMap_congr hbelow]

end Forest
