import Mathlib.Data.List.GetD
import Mathlib.Logic.Function.Basic

/-!
# Arrays that stand for total functions

An array that is only ever enlarged, its new cells set to a default, reads as a function
that is the default almost everywhere. A packed array of bits reads as a set of numbers.
-/
namespace Cells

variable {α : Type*}

/-- The function an array stands for. -/
def view (d : α) (l : List α) (i : Nat) : α := l.getD i d

def grow (d : α) (l : List α) (n : Nat) : List α := l ++ List.replicate (n - l.length) d

theorem length_grow (d : α) (l : List α) {n : Nat} (h : l.length ≤ n) : (grow d l n).length = n := by
  simp [grow]
  omega

theorem view_of_le {d : α} {l : List α} {i : Nat} (h : l.length ≤ i) : view d l i = d := by
  simp [view, List.getD_eq_getElem?_getD, List.getElem?_eq_none h]

@[simp] theorem view_grow (d : α) (l : List α) (n : Nat) : view d (grow d l n) = view d l := by
  funext i
  by_cases hi : i < l.length
  · simp [view, grow, List.getD_eq_getElem?_getD, List.getElem?_append_left hi]
  · rw [view_of_le (by omega : l.length ≤ i)]
    simp only [view, grow, List.getD_eq_getElem?_getD,
      List.getElem?_append_right (by omega : l.length ≤ i),
      List.getElem?_replicate]
    split <;> rfl

theorem getElem?_eq_view (d : α) {l : List α} {i : Nat} (h : i < l.length) :
    l[i]? = some (view d l i) := by
  simp [view, List.getD_eq_getElem?_getD, List.getElem?_eq_getElem h]

theorem view_set (d : α) {l : List α} {i : Nat} (h : i < l.length) (a : α) :
    view d (l.set i a) = Function.update (view d l) i a := by
  funext j
  by_cases hj : j = i
  · subst hj
    simp [view, List.getD_eq_getElem?_getD, h]
  · simp [view, List.getD_eq_getElem?_getD, List.getElem?_set_ne (Ne.symm hj), hj]

theorem view_map (d : α) (l : List α) {f : α → α} (hf : f d = d) :
    view d (l.map f) = fun i => f (view d l i) := by
  funext i
  by_cases hi : i < l.length
  · simp [view, List.getD_eq_getElem?_getD, List.getElem?_eq_getElem hi]
  · rw [view_of_le (by simpa using hi), view_of_le (by omega), hf]

def bit {w : Nat} (words : List (BitVec w)) (i : Nat) : Bool :=
  (view 0 words (i / w)).getLsbD (i % w)

@[simp] theorem bit_grow {w : Nat} (words : List (BitVec w)) (n : Nat) :
    bit (grow 0 words n) = bit words := by
  funext i
  simp only [bit, view_grow]

theorem and_mask_ne_zero {w k : Nat} (hk : k < w) (x : BitVec w) :
    (x &&& (1#w <<< k) != 0) = x.getLsbD k := by
  have hmask : BitVec.twoPow w k ≠ 0#w := by
    intro h0
    have hbit := congrArg (fun v => v.getLsbD k) h0
    simp [hk] at hbit
  rw [← BitVec.twoPow_eq, BitVec.and_twoPow]
  cases x.getLsbD k with
  | true => simpa using hmask
  | false => simp

theorem bit_set {w i : Nat} (hw : 0 < w) {words : List (BitVec w)} (h : i / w < words.length) :
    bit (words.set (i / w) (view 0 words (i / w) ||| (1#w <<< (i % w)))) =
      Function.update (bit words) i true := by
  funext j
  have hmod : i % w < w := Nat.mod_lt _ hw
  unfold bit
  rw [view_set 0 h]
  by_cases hdiv : j / w = i / w
  · rw [hdiv, Function.update_self, BitVec.getLsbD_or, ← BitVec.twoPow_eq, BitVec.getLsbD_twoPow]
    by_cases hj : j = i
    · subst hj
      simp [hmod]
    · have hne : i % w ≠ j % w := by
        intro hm
        exact hj (by rw [← Nat.div_add_mod j w, ← Nat.div_add_mod i w, hdiv, hm])
      simp [Function.update_of_ne hj, hne, hdiv]
  · have hj : j ≠ i := by
      rintro rfl
      exact hdiv rfl
    rw [Function.update_of_ne hdiv, Function.update_of_ne hj]

end Cells
