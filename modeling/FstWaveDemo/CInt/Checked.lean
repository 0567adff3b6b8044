import Mathlib

/-! # C integers

The numbers of type `int`, 32 bits wide. Signed overflow has no meaning, so a result that
does not fit has no value (`CInt.of`).
-/

/-- The values of `int`. -/
abbrev CInt : Type := { value : Int // -2 ^ 31 ≤ value ∧ value < 2 ^ 31 }

namespace CInt

instance : Zero CInt := ⟨⟨0, by decide⟩⟩

@[simp] theorem coe_zero : ((0 : CInt) : Int) = 0 := rfl

/-- The result of an operation on `int`; none if it overflows. -/
def of (value : Int) : Option CInt :=
  if fits : -2 ^ 31 ≤ value ∧ value < 2 ^ 31 then some ⟨value, fits⟩ else none

variable {value : Int} {n : CInt}

/-- An operation whose result fits has that result. -/
theorem exists_of (low : -2 ^ 31 ≤ value) (high : value < 2 ^ 31) :
    ∃ n, of value = some n ∧ (n : Int) = value :=
  ⟨⟨value, low, high⟩, dif_pos ⟨low, high⟩, rfl⟩

theorem low (n : CInt) : -2 ^ 31 ≤ (n : Int) := n.2.1

theorem high (n : CInt) : (n : Int) < 2 ^ 31 := n.2.2

/-- An `int` converted to the count of a shift. -/
def bitcnt (n : CInt) : Nat := ((n : Int) % 2 ^ 64).toNat

theorem bitcnt_eq (nonneg : 0 ≤ (n : Int)) : n.bitcnt = (n : Int).toNat := by
  have small := n.high
  rw [bitcnt, Int.emod_eq_of_lt nonneg (by omega)]

end CInt
