import Xylem.Lib.Forest
import Mathlib.Data.Set.Lattice
import Mathlib.Order.CompletePartialOrder

/-!
# Nested families over a forest

Every node carries a set. When children lie strictly inside their parent and
siblings apart, inclusion of the sets is the ancestor relation of the nodes.
-/
namespace Forest

variable {α β : Type*} {parent : α → Option α} {code : α → Set β}

theorem Anc.subset (nest : ∀ x p, parent x = some p → code x ⊆ code p) {a b : α}
    (h : Anc parent a b) : code b ⊆ code a := by
  induction h with
  | refl => exact subset_rfl
  | tail _ hx ih => exact (nest _ _ hx).trans ih

theorem anc_of_subset (nest : ∀ x p, parent x = some p → code x ⊆ code p)
    (strict : ∀ x p, parent x = some p → ¬ code p ⊆ code x)
    (apart : ∀ x y p, parent x = some p → parent y = some p → x ≠ y → Disjoint (code x) (code y))
    {root a b : α} (ha : Anc parent root a) (hb : Anc parent root b) (hne : (code b).Nonempty)
    (h : code b ⊆ code a) : Anc parent a b := by
  induction ha with
  | refl => exact hb
  | @tail p a _ ha ih =>
      rcases (ih (h.trans (nest a p ha))).cases_child with rfl | ⟨y, hy, hyb⟩
      · exact absurd h (strict a p ha)
      · by_cases hay : y = a
        · exact hay ▸ hyb
        · obtain ⟨v, hv⟩ := hne
          exact absurd (h hv) (Set.disjoint_left.mp (apart y a p hy ha hay) (hyb.subset nest hv))

end Forest
