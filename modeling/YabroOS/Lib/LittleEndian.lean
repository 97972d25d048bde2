import Mathlib.Algebra.Group.Nat.Defs
import Mathlib.Data.List.Basic
import Mathlib.Data.Nat.Basic

namespace YabroOS.Lib

variable {w n : ℕ} {b c : List UInt8}

def toLE : ℕ → ℕ → List UInt8
  | 0, _ => []
  | w + 1, n => UInt8.ofNat n :: toLE w (n / 256)

def ofLE : List UInt8 → ℕ
  | [] => 0
  | x :: b => x.toNat + 256 * ofLE b

@[simp] theorem length_toLE : (toLE w n).length = w := by
  induction w generalizing n with
  | zero => rfl
  | succ w ih => rw [toLE, List.length_cons, ih]

theorem ofLE_toLE (w n : ℕ) : ofLE (toLE w n) = n % 256 ^ w := by
  induction w generalizing n with
  | zero => rw [Nat.pow_zero, Nat.mod_one, toLE, ofLE]
  | succ w ih =>
    have hbyte : (UInt8.ofNat n).toNat = n % 256 := rfl
    rw [toLE, ofLE, ih, hbyte, Nat.pow_succ', Nat.mod_mul]

theorem ofLE_toLE_of_lt (h : n < 256 ^ w) : ofLE (toLE w n) = n := by
  rw [ofLE_toLE, Nat.mod_eq_of_lt h]

end YabroOS.Lib
