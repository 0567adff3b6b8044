import Mathlib

/-! # Context-free grammars as a parser generator reads them

A grammar is a numbered list of rules over terminals and nonterminals, rule 0
being the augmented start rule. Terminals and nonterminals are arbitrary types
that carry an injective numbering (`LR.Coded`), so that sets of terminals can be
held as bit masks.
-/

namespace LR

/-- A type whose values are numbered injectively. -/
class Coded (α : Type) where
  code : α → Nat
  code_injective : Function.Injective code

export Coded (code)

/-- The membership test of a bit mask. -/
def has (mask i : Nat) : Bool := Nat.beq (Nat.land (Nat.shiftRight mask i) 1) 1

/-- The mask holding just `i`. -/
def bit (i : Nat) : Nat := Nat.shiftLeft 1 i

/-- The union of the masks `f x` over a list. -/
def orAll {α : Type} (f : α → Nat) : List α → Nat
  | [] => 0
  | x :: xs => Nat.lor (f x) (orAll f xs)

/-- The elements of `mask` that are not in `removed`. -/
def without (mask removed : Nat) : Nat := Nat.xor mask (Nat.land mask removed)

/-- Every element of `small` is in `large`. -/
def subset (small large : Nat) : Bool := Nat.beq (Nat.lor small large) large

theorem has_eq_testBit (mask i : Nat) : has mask i = mask.testBit i := by
  have parity : Nat.land (Nat.shiftRight mask i) 1 = (mask >>> i) % 2 := Nat.and_one_is_mod _
  rw [has, parity, Nat.testBit_eq_decide_div_mod_eq, Nat.shiftRight_eq_div_pow]
  rcases Nat.mod_two_eq_zero_or_one (mask / 2 ^ i) with even | odd
  · rw [even]; rfl
  · rw [odd]; rfl

@[simp] theorem has_zero (i : Nat) : has 0 i = false := by
  rw [has_eq_testBit, Nat.zero_testBit]

@[simp] theorem has_lor (first second i : Nat) :
    has (Nat.lor first second) i = (has first i || has second i) := by
  simp only [has_eq_testBit]
  exact Nat.testBit_or first second i

@[simp] theorem has_land (first second i : Nat) :
    has (Nat.land first second) i = (has first i && has second i) := by
  simp only [has_eq_testBit]
  exact Nat.testBit_and first second i

@[simp] theorem has_bit (i j : Nat) : has (bit i) j = decide (i = j) := by
  have power : bit i = 2 ^ i := Nat.one_shiftLeft i
  rw [has_eq_testBit, power, Nat.testBit_two_pow]

@[simp] theorem has_without (mask removed i : Nat) :
    has (without mask removed) i = (has mask i && !has removed i) := by
  have apart : has (without mask removed) i = (has mask i ^^ (has mask i && has removed i)) := by
    simp only [without, has_eq_testBit]
    rw [← Nat.testBit_and]
    exact Nat.testBit_xor mask _ i
  rw [apart]
  cases has mask i <;> cases has removed i <;> rfl

theorem has_of_subset {small large i : Nat} (within : subset small large = true)
    (member : has small i = true) : has large i = true := by
  have same : Nat.lor small large = large := Nat.eq_of_beq_eq_true within
  rw [← same, has_lor, member, Bool.true_or]

/-- A grammar symbol. -/
inductive Symbol (T N : Type)
  | term (kind : T)
  | nonterm (name : N)
  deriving DecidableEq

/-- The number of a symbol: `2 * a` for terminal `a`, `2 * A + 1` for nonterminal
`A`. -/
def Symbol.number {T N : Type} [Coded T] [Coded N] : Symbol T N → Nat
  | .term kind => 2 * code kind
  | .nonterm name => 2 * code name + 1

theorem Symbol.number_injective {T N : Type} [Coded T] [Coded N] :
    Function.Injective (Symbol.number : Symbol T N → Nat) := by
  intro first second same
  cases first with
  | term kind =>
      cases second with
      | term other =>
          have same : 2 * code kind = 2 * code other := same
          rw [Coded.code_injective (by omega : code kind = code other)]
      | nonterm name =>
          have same : 2 * code kind = 2 * code name + 1 := same
          omega
  | nonterm name =>
      cases second with
      | term kind =>
          have same : 2 * code name + 1 = 2 * code kind := same
          omega
      | nonterm other =>
          have same : 2 * code name + 1 = 2 * code other + 1 := same
          rw [Coded.code_injective (by omega : code name = code other)]

/-- A rule of the grammar, with the token of its `%prec` clause if it has one. -/
structure Rule (T N : Type) where
  lhs : N
  rhs : List (Symbol T N)
  prec : Option T := none

/-- Associativity of a precedence level. -/
inductive Assoc
  | left
  | right
  | nonassoc

/-- A grammar: its rules in order, rule 0 being the augmented start rule, the
declared precedence levels, and bounds on the numbering of its symbols. -/
structure Grammar (T N : Type) where
  rules : List (Rule T N)
  prec : List (T × Nat × Assoc)
  terminals : Nat
  nonterminals : Nat

/-- A token: its kind and its semantic value. -/
structure Token (T V : Type) where
  kind : T
  val : V

/-- The semantic actions: from the number of a rule and the values of its right
side, the value of its left side, or `none` where the action aborts. -/
abbrev Actions (V : Type) := Nat → List V → Option V

end LR
