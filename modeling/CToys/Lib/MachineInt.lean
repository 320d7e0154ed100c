import Mathlib.Algebra.Ring.Int.Defs
import Mathlib.Algebra.Ring.Nat

/-!
# Machine integers

`size_t` has 64 bits and `int` has 32.  A `size_t` is a number below `2 ^ 64` and an `int`
lies between `-2 ^ 31` and `2 ^ 31`.  Both wrap.  For `int` this is one of the things that
an overflow may do, and no result rests on it: `int32_of_lt` says where nothing overflows.
-/

namespace CToys

/-- Addition of `size_t`. -/
def add64 (a b : Nat) : Nat := (a + b) % 2 ^ 64

/-- Subtraction of `size_t`. -/
def sub64 (a b : Nat) : Nat := (a + (2 ^ 64 - b % 2 ^ 64)) % 2 ^ 64

/-- Multiplication of `size_t`. -/
def mul64 (a b : Nat) : Nat := a * b % 2 ^ 64

/-- The `int` that a result is stored in. -/
def int32 (x : Int) : Int := x.bmod (2 ^ 32)

theorem add64_of_lt {a b : Nat} (h : a + b < 2 ^ 64) : add64 a b = a + b :=
  Nat.mod_eq_of_lt h

theorem sub64_of_le {a b : Nat} (h : b ≤ a) (ha : a < 2 ^ 64) : sub64 a b = a - b := by
  unfold sub64
  omega

theorem mul64_of_lt {a b : Nat} (h : a * b < 2 ^ 64) : mul64 a b = a * b :=
  Nat.mod_eq_of_lt h

theorem int32_of_lt {x : Nat} (h : x < 2 ^ 31) : int32 x = x := by
  unfold int32
  rw [Int.bmod_def]
  omega

end CToys
