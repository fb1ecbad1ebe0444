import Mathlib.Data.Nat.Digits.Defs
import Mathlib.Data.List.Basic

namespace Hex

def digit (d : Nat) : UInt8 :=
  if d < 10 then UInt8.ofNat (48 + d) else UInt8.ofNat (87 + d)

def pad : Nat → Nat → List UInt8
  | 0, _ => []
  | w + 1, n => pad w (n / 16) ++ [digit (n % 16)]

@[simp] theorem pad_length (w n : Nat) : (pad w n).length = w := by
  induction w generalizing n with
  | zero => rfl
  | succ w ih => simp [pad, ih]

theorem digit_inj {c d : Nat} (hc : c < 16) (hd : d < 16) (h : digit c = digit d) : c = d := by
  have key : ∀ c : Fin 16, ∀ d : Fin 16, digit c = digit d → c = d := by decide
  exact congrArg Fin.val (key ⟨c, hc⟩ ⟨d, hd⟩ h)

theorem pad_inj {w m n : Nat} (hm : m < 16 ^ w) (hn : n < 16 ^ w) (h : pad w m = pad w n) :
    m = n := by
  induction w generalizing m n with
  | zero => omega
  | succ w ih =>
      rw [Nat.pow_succ] at hm hn
      obtain ⟨hfront, hlast⟩ := List.append_inj' h rfl
      have hd : m % 16 = n % 16 :=
        digit_inj (Nat.mod_lt _ (by omega)) (Nat.mod_lt _ (by omega)) (List.cons.inj hlast).1
      have hq : m / 16 = n / 16 := ih (by omega) (by omega) hfront
      omega

/-- All digits but the last are those of the number without its last digit. -/
theorem take_pad (w n : Nat) : (pad (w + 1) n).take w = pad w (n / 16) := by
  rw [pad, List.take_append_of_le_length (by rw [pad_length]), List.take_of_length_le]
  rw [pad_length]

end Hex
