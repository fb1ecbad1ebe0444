import Mathlib.Data.List.Nodup
import Mathlib.Data.List.Perm.Subperm

/-!
# Maps with several values to a key

A map as a list of pairs, and what deleting at a key may do to it when it is not
known which pair of the key is dropped, or whether all are.
-/
namespace Multi

variable {κ α : Type*}

def pairs [DecidableEq κ] (m : List (κ × α)) (k : κ) : List (κ × α) := m.filter fun x => x.1 = k

/-- `m'` is `m` after a deletion at key `k`: other keys keep their pairs, and `k`
loses one or more if it has any. -/
structure Deletes (m m' : List (κ × α)) (k : κ) : Prop where
  sublist : m'.Sublist m
  other : ∀ x ∈ m, x.1 ≠ k → x ∈ m'
  drops : ∀ x ∈ m, x.1 = k → m'.length < m.length

theorem mem_pairs [DecidableEq κ] {m : List (κ × α)} {k : κ} {x : κ × α} :
    x ∈ pairs m k ↔ x ∈ m ∧ x.1 = k := by
  simp [pairs]

section
variable {m m' : List (κ × α)} {k : κ}

theorem Deletes.pairs_le [DecidableEq κ] (h : Deletes m m' k) (j : κ) :
    (pairs m' j).length ≤ (pairs m j).length :=
  (h.sublist.filter _).length_le

theorem Deletes.pairs_self [DecidableEq κ] (h : Deletes m m' k) (hnd : m.Nodup) :
    (pairs m' k).length ≤ (pairs m k).length - 1 := by
  rcases Nat.eq_zero_or_pos (pairs m k).length with h0 | hpos
  · have := h.pairs_le k
    omega
  · obtain ⟨x, hx⟩ := List.exists_mem_of_length_pos hpos
    obtain ⟨hxm, hxk⟩ := mem_pairs.mp hx
    have hlt := h.drops x hxm hxk
    have hrest : (m.filter fun x => !decide (x.1 = k)).length ≤
        (m'.filter fun x => !decide (x.1 = k)).length := by
      refine (List.subperm_of_subset (hnd.filter _) fun y hy => ?_).length_le
      obtain ⟨hy, hyk⟩ := List.mem_filter.mp hy
      exact List.mem_filter.mpr ⟨h.other y hy (by simpa using hyk), hyk⟩
    have h1 := List.length_eq_length_filter_add (l := m) fun x => decide (x.1 = k)
    have h2 := List.length_eq_length_filter_add (l := m') fun x => decide (x.1 = k)
    have h3 : (pairs m k).length = (m.filter fun x => decide (x.1 = k)).length := rfl
    have h4 : (pairs m' k).length = (m'.filter fun x => decide (x.1 = k)).length := rfl
    omega

/-- Deleting at a key that only the last pair has takes that pair back. -/
theorem Deletes.mem_of_last {x y : κ × α} (h : Deletes (m ++ [x]) m' x.1) (hnd : m.Nodup)
    (hx : ∀ z ∈ m, z.1 ≠ x.1) : y ∈ m' ↔ y ∈ m := by
  have hkeep : ∀ z ∈ m, z ∈ m' := fun z hz =>
    h.other z (List.mem_append_left _ hz) (hx z hz)
  refine ⟨fun hy => ?_, hkeep y⟩
  have hle : m'.length ≤ m.length := by
    have := h.drops x (by simp) rfl
    rw [List.length_append, List.length_singleton] at this
    omega
  have hsub : m ⊆ m' := hkeep
  have hperm := (List.subperm_of_subset hnd hsub).perm_of_length_le hle
  exact hperm.mem_iff.mpr hy

theorem pairs_nil_iff [DecidableEq κ] : pairs m k = [] ↔ ∀ x ∈ m, x.1 ≠ k := by
  simp [pairs, List.filter_eq_nil_iff]

end
end Multi
