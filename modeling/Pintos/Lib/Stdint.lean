import Mathlib

/-!
# Lib — Machine integers

An `int` of the source is an `Int`; `wrap32` brings the result of an operation back into its 32
bits.
-/

namespace Pintos

/-- The value of a 32-bit `int`. -/
def wrap32 (i : Int) : Int := i.bmod (2 ^ 32)

theorem wrap32_wrap32_add (a b : Int) : wrap32 (wrap32 a + b) = wrap32 (a + b) :=
  Int.bmod_add_bmod

theorem wrap32_range (i : Int) : -2 ^ 31 ≤ wrap32 i ∧ wrap32 i < 2 ^ 31 := by
  simp only [wrap32, Int.bmod_def]
  omega

theorem wrap32_eq {i : Int} (h : -2 ^ 31 ≤ i) (h' : i < 2 ^ 31) : wrap32 i = i := by
  simp only [wrap32, Int.bmod_def]
  omega

theorem wrap32_of_lt {n : Nat} (h : n < 2 ^ 31) : wrap32 n = n := wrap32_eq (by omega) (by omega)

theorem wrap32_neg {n : Nat} (h : 2 ^ 31 ≤ n) (h' : n < 2 ^ 32) : wrap32 n < 0 := by
  simp only [wrap32, Int.bmod_def]
  omega

/-- A size loses at most its sign. -/
theorem toNat_wrap32_le (n : Nat) : (wrap32 n).toNat ≤ n := by
  have h : wrap32 n = (n : Int).bmod 4294967296 := rfl
  rw [h, Int.bmod_def]
  split <;> omega

end Pintos
