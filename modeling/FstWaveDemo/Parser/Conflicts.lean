import FstWaveDemo.LR.Sound
import FstWaveDemo.Parser.Syntax

/-! # The conflicts of the grammar

What bison's conflict resolution takes away from the grammar of `syntax.y`
(`FstWaveDemo.conflicts`), and with that the exact language of the parser: it
accepts the token sequences that have a derivation respecting this filter
(`FstWaveDemo.accepts_iff`). The file reports four conflicts, all resolved without
`%prec`: vectors of `const` types, the width of a probed integer type, and
statements of a module that begin with `input` or `output`.
-/

namespace FstWaveDemo

open LR (Reduces Derives)

/-- The lookahead mask of a named token. -/
def tokenMask (name : TokenName) : Nat := LR.bit (LR.code (Kind.token name))

/-- The lookahead mask of a character. -/
def charMask (character : Char) : Nat := LR.bit (LR.code (Kind.char character))

/-- The reductions that conflict resolution takes away: a `const` type before an
index, an empty width before the bracket that closes a probe type, and the empty
statement list of a module before a token that begins a port. -/
def conflicts : LR.Filter := fun context rule =>
  if Nat.beq rule 46 || Nat.beq rule 48 then charMask '['
  else if Nat.beq rule 25 && Nat.beq context.2 3 then charMask '>'
  else if Nat.beq rule 93 && (Nat.beq context.1 126 && Nat.beq context.2 7 ||
      Nat.beq context.1 123 && Nat.beq context.2 1) then
    Nat.lor (tokenMask .Input) (tokenMask .Output)
  else 0

/-- The tables of the parser pass the checks of completeness and soundness. -/
theorem tables_checked :
    (LR.validItems grammar tables && LR.validate grammar tables conflicts &&
      LR.validStart grammar tables .circuit (.token .eof) && tables.entered) = true := by
  decide +kernel

theorem tables_validItems : LR.validItems grammar tables = true := by
  have checked := tables_checked
  simp only [Bool.and_eq_true] at checked
  exact checked.1.1.1

theorem tables_validate : LR.validate grammar tables conflicts = true := by
  have checked := tables_checked
  simp only [Bool.and_eq_true] at checked
  exact checked.1.1.2

theorem tables_validStart : LR.validStart grammar tables .circuit (.token .eof) = true := by
  have checked := tables_checked
  simp only [Bool.and_eq_true] at checked
  exact checked.1.2

theorem tables_entered : tables.entered = true := by
  have checked := tables_checked
  simp only [Bool.and_eq_true] at checked
  exact checked.2

end FstWaveDemo
