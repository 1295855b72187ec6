import Mathlib.Algebra.Ring.Int.Defs
import Mathlib.Algebra.Ring.Nat
import Mathlib.Tactic.SplitIfs

/-!
The integer types of the machine. A number out of the range of its type is taken
modulo the number of values that the type has.
-/
namespace Painless.MachineIntegers

/-- The `int` that `x` is converted to. -/
def intOf (x : ℤ) : ℤ := x.bmod (2 ^ 32)

def unsignedOf (x : ℤ) : ℕ := (x % 2 ^ 32).toNat

theorem intOf_eq {x : ℤ} (hlow : -2 ^ 31 ≤ x) (hhigh : x < 2 ^ 31) : intOf x = x := by
  unfold intOf
  rw [Int.bmod_def]
  split_ifs <;> omega

theorem intOf_nat {n : ℕ} (h : n < 2 ^ 31) : intOf n = n := intOf_eq (by omega) (by omega)

theorem unsignedOf_sub {m n : ℕ} (hm : m < 2 ^ 32) (hn : n ≤ m) :
    unsignedOf ((m : ℤ) - n) = m - n := by
  unfold unsignedOf
  omega

end Painless.MachineIntegers
