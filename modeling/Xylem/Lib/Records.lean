import Mathlib.Data.Nat.Digits.Defs
import Mathlib.Data.List.Basic

/-!
# Records in a byte buffer

Numbers with their least significant byte first, and records of different lengths laid
one after the other, where the bytes at the start of a record tell how long it is.
-/
namespace Records

def bytes : Nat → Nat → List UInt8
  | 0, _ => []
  | w + 1, n => UInt8.ofNat n :: bytes w (n / 256)

def number : List UInt8 → Nat
  | [] => 0
  | b :: l => b.toNat + 256 * number l

@[simp] theorem bytes_length (w n : Nat) : (bytes w n).length = w := by
  induction w generalizing n with
  | zero => rfl
  | succ w ih => simp [bytes, ih]

theorem number_bytes {w n : Nat} (h : n < 256 ^ w) : number (bytes w n) = n := by
  induction w generalizing n with
  | zero => simp only [Nat.pow_zero, Nat.lt_one_iff] at h; subst h; rfl
  | succ w ih =>
      rw [Nat.pow_succ] at h
      have hb : (UInt8.ofNat n).toNat = n % 256 := rfl
      rw [bytes, number, hb, ih (by omega)]
      omega

/-- How records are written, and what a reader gets from the bytes where one starts:
what stands in its head, and the length of the whole record. -/
structure Format (ρ η : Type*) where
  write : ρ → List UInt8
  head : ρ → η
  read : List UInt8 → Option (η × Nat)
  read_write : ∀ r after, read (write r ++ after) = some (head r, (write r).length)
  write_ne : ∀ r, write r ≠ []

namespace Format

variable {ρ η : Type*} (F : Format ρ η)

def writeAll (rs : List ρ) : List UInt8 := rs.flatMap F.write

/-- The records between `p` and `len` of the buffer are `rs`. -/
def At (buf : List UInt8) (len p : Nat) (rs : List ρ) : Prop :=
  ∃ before after, buf = before ++ (F.writeAll rs ++ after) ∧ p = before.length ∧
    len = p + (F.writeAll rs).length

section
variable {F} {buf : List UInt8} {len p : Nat} {r : ρ} {rs : List ρ}

theorem at_start (rs : List ρ) (after : List UInt8) :
    F.At (F.writeAll rs ++ after) (F.writeAll rs).length 0 rs :=
  ⟨[], after, rfl, rfl, (Nat.zero_add _).symm⟩

theorem At.more (h : F.At buf len p rs) : p < len ↔ rs ≠ [] := by
  obtain ⟨before, after, -, -, rfl⟩ := h
  cases rs with
  | nil => simp [writeAll]
  | cons r rs =>
      have hr : 0 < (F.write r).length := List.length_pos_iff.mpr (F.write_ne r)
      simp only [writeAll, List.flatMap_cons, List.length_append, ne_eq, reduceCtorEq,
        not_false_eq_true, iff_true]
      omega

theorem At.read (h : F.At buf len p (r :: rs)) :
    F.read (buf.drop p) = some (F.head r, (F.write r).length) := by
  obtain ⟨before, after, rfl, rfl, -⟩ := h
  rw [List.drop_left, writeAll, List.flatMap_cons, List.append_assoc]
  exact F.read_write r _

theorem At.next (h : F.At buf len p (r :: rs)) : F.At buf len (p + (F.write r).length) rs := by
  obtain ⟨before, after, rfl, rfl, rfl⟩ := h
  refine ⟨before ++ F.write r, after, ?_, by rw [List.length_append], ?_⟩
  · simp [writeAll]
  · simp only [writeAll, List.flatMap_cons, List.length_append]
    omega

end
end Format
end Records
