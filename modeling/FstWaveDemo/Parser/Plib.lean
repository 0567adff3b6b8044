import FstWaveDemo.Parser.PNode
import Mathlib

/-! # Decimal numbers

`p_stoi` of `plib.cpp`. Its accumulator is a 32-bit `int`; an overflow wraps
around. On a decimal number that is not negative, the result is the number exactly if no
overflow happens, and that is if the number is an `int` (`FstWaveDemo.p_stoi_exact_iff`).
-/

namespace FstWaveDemo

/-- The value of an `int` computation, reduced to 32 bits. -/
def int32 (n : Int) : Int := (n + 2 ^ 31) % 2 ^ 32 - 2 ^ 31

/-- `bit(c, 10)`: the value of a decimal digit. -/
def bit10 (c : Char) : Int := (c.toNat : Int) - ('0'.toNat : Int)

/-- The digits after an optional minus sign, accumulated from the left. -/
def accumulate (val : Int) : Text → Int
  | [] => val
  | c :: rest => accumulate (int32 (val * 10 + bit10 c)) rest

/-- `p_stoi`. -/
def p_stoi : Text → Int
  | '-' :: digits => int32 (-accumulate 0 digits)
  | digits => accumulate 0 digits

/-- The number that digits stand for, accumulated from the left without a bound. -/
def digitsValue (val : Int) : Text → Int
  | [] => val
  | c :: rest => digitsValue (val * 10 + bit10 c) rest

/-- The digits of a decimal number. -/
def digitsOf : Text → Text
  | '-' :: digits => digits
  | digits => digits

/-- The number that a decimal number stands for. -/
def writtenInt : Text → Int
  | '-' :: digits => -digitsValue 0 digits
  | digits => digitsValue 0 digits

/-- A number that an `int` can hold. -/
def IsInt (n : Int) : Prop := -2 ^ 31 ≤ n ∧ n < 2 ^ 31

/-- No value that `p_stoi` computes leaves the range of an `int`. -/
def NoOverflow (text : Text) : Prop :=
  (∀ part, part <+: digitsOf text → IsInt (digitsValue 0 part)) ∧ IsInt (writtenInt text)

/-- Only digits. -/
def AllDigits (digits : Text) : Prop := ∀ c ∈ digits, 0 ≤ bit10 c

theorem int32_of_isInt {n : Int} (fits : IsInt n) : int32 n = n := by
  unfold IsInt at fits
  unfold int32
  omega

theorem digitsValue_append (val : Int) (first second : Text) :
    digitsValue val (first ++ second) = digitsValue (digitsValue val first) second := by
  induction first generalizing val with
  | nil => rfl
  | cons c first ih => exact ih _

/-- More digits make a larger number. -/
theorem le_digitsValue {val : Int} {digits : Text} (start : 0 ≤ val) (all : AllDigits digits) :
    val ≤ digitsValue val digits := by
  induction digits generalizing val with
  | nil => exact Int.le_refl _
  | cons c digits ih =>
      obtain ⟨digit, others⟩ := List.forall_mem_cons.mp all
      have onward := ih (show 0 ≤ val * 10 + bit10 c by omega) others
      rw [digitsValue]
      omega

/-- Digits that stand for an `int` are accumulated exactly. -/
theorem accumulate_exact {val : Int} {digits : Text} (start : 0 ≤ val) (all : AllDigits digits)
    (small : digitsValue val digits < 2 ^ 31) : accumulate val digits = digitsValue val digits := by
  induction digits generalizing val with
  | nil => rfl
  | cons c digits ih =>
      obtain ⟨digit, others⟩ := List.forall_mem_cons.mp all
      have bound := le_digitsValue (show 0 ≤ val * 10 + bit10 c by omega) others
      have fits : IsInt (val * 10 + bit10 c) := by
        rw [digitsValue] at small
        unfold IsInt
        omega
      rw [accumulate, int32_of_isInt fits, ih (by omega) others small, digitsValue]

/-- An initial part of some digits stands for a smaller number. -/
theorem digitsValue_le_of_begins {part digits : Text} (begins : part <+: digits)
    (all : AllDigits digits) :
    0 ≤ digitsValue 0 part ∧ digitsValue 0 part ≤ digitsValue 0 digits := by
  obtain ⟨others, rfl⟩ := begins
  have start : 0 ≤ digitsValue 0 part :=
    le_digitsValue (Int.le_refl 0) fun c member => all c (List.mem_append_left _ member)
  rw [digitsValue_append]
  exact ⟨start, le_digitsValue start fun c member => all c (List.mem_append_right _ member)⟩

/-- `p_stoi` yields a number that is not negative and equals the written one, without
overflow, exactly if the written number is an `int` that is not negative. -/
theorem p_stoi_exact_iff {text : Text} (all : AllDigits (digitsOf text)) :
    (0 ≤ p_stoi text ∧ p_stoi text = writtenInt text ∧ NoOverflow text) ↔
      0 ≤ writtenInt text ∧ writtenInt text < 2 ^ 31 := by
  constructor
  · rintro ⟨positive, same, -, -, bound⟩
    exact ⟨same ▸ positive, bound⟩
  · rintro ⟨positive, bound⟩
    have parts : digitsValue 0 (digitsOf text) < 2 ^ 31 → ∀ part, part <+: digitsOf text →
        IsInt (digitsValue 0 part) := by
      intro small part begins
      have within := digitsValue_le_of_begins begins all
      unfold IsInt
      omega
    have whole := (digitsValue_le_of_begins (List.prefix_refl _) all).1
    have fits : IsInt (writtenInt text) := by
      unfold IsInt
      omega
    cases text with
    | nil => exact ⟨Int.le_refl 0, rfl, parts bound, fits⟩
    | cons c digits =>
        by_cases signed : c = '-'
        · subst signed
          rw [writtenInt] at positive
          have zero : digitsValue 0 digits = 0 := by
            rw [digitsOf] at whole
            omega
          have folded := accumulate_exact (Int.le_refl 0) all (by rw [digitsOf, zero]; decide)
          rw [digitsOf, zero] at folded
          have value : p_stoi ('-' :: digits) = 0 := by rw [p_stoi, folded]; rfl
          have written : writtenInt ('-' :: digits) = 0 := by rw [writtenInt, zero]; rfl
          exact ⟨Int.le_of_eq value.symm, value.trans written.symm,
            parts (by rw [digitsOf, zero]; decide), fits⟩
        · have value : p_stoi (c :: digits) = accumulate 0 (c :: digits) := by
            simp [p_stoi, signed]
          have written : writtenInt (c :: digits) = digitsValue 0 (c :: digits) := by
            simp [writtenInt, signed]
          have same : digitsOf (c :: digits) = c :: digits := by
            simp [digitsOf, signed]
          rw [same] at all parts
          rw [written] at positive bound
          rw [value, accumulate_exact (Int.le_refl 0) all bound, written]
          refine ⟨positive, rfl, ?_, fits⟩
          rw [same]
          exact parts bound

end FstWaveDemo
