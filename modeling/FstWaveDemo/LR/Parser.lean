import FstWaveDemo.LR.Tables
import Mathlib

/-! # The table-driven parser

The parser loop of bison's C++ skeleton. A state whose row does not depend on the
lookahead takes its default reduction without reading a token; every other state
reads one if none is pending. The line handed to a semantic action is that of the
last token read, whether or not that token has been shifted.
-/

namespace LR

/-- A token as the scanner returns it: with the line the scanner has reached. -/
structure Lexeme (T V : Type) extends Token T V where
  line : Nat

/-- A parser configuration: the stack of states and values (top first), the
pending lookahead, the line of the last token read, and the tokens not yet
read. -/
structure Config (T V : Type) where
  stack : List (Nat × V)
  lookahead : Option (Lexeme T V)
  line : Nat
  input : List (Lexeme T V)

/-- The state on top of a stack; the bottom state is 0. -/
def topState {V : Type} : List (Nat × V) → Nat
  | [] => 0
  | (state, _) :: _ => state

/-- What one step of the parser does. -/
inductive Outcome (T V : Type)
  | next (config : Config T V)
  | accept (value : V)
  | reject
  | abort

/-- The semantic actions of a parser: rule, current line, values of the right
side; `none` where the action aborts the program. -/
abbrev LineActions (V : Type) := Nat → Nat → List V → Option V

namespace Config

variable {T V : Type}

/-- The tokens not yet shifted. -/
def pending (config : Config T V) : List (Lexeme T V) :=
  config.lookahead.toList ++ config.input

/-- The lookahead, read from the input if none is pending. -/
def fetch (config : Config T V) : Option (Lexeme T V × Config T V) :=
  match config.lookahead with
  | some token => some (token, config)
  | none =>
      match config.input with
      | [] => none
      | token :: rest =>
          some (token, { config with lookahead := some token, line := token.line, input := rest })

/-- Reading the lookahead leaves stack and pending tokens as they are. -/
theorem fetch_eq (config : Config T V) {token : Lexeme T V} {rest : List (Lexeme T V)}
    (pending : config.pending = token :: rest) :
    ∃ line, config.fetch = some (token, ⟨config.stack, some token, line, rest⟩) := by
  obtain ⟨stack, lookahead, line, input⟩ := config
  cases lookahead with
  | some held =>
      obtain ⟨rfl, rfl⟩ := List.cons.inj pending
      exact ⟨line, rfl⟩
  | none =>
      obtain rfl : input = token :: rest := pending
      exact ⟨token.line, rfl⟩

end Config

section Machine

variable {T N V : Type} [Coded T] [Coded N]
  (g : Grammar T N) (tables : Tables) (act : LineActions V)

/-- Replace the right side of a rule on the stack by its left side. -/
def reduceBy (rule : Nat) (config : Config T V) : Outcome T V :=
  match g.rules[rule]? with
  | none => .reject
  | some r =>
      let handle := (config.stack.take r.rhs.length).reverse.map Prod.snd
      let rest := config.stack.drop r.rhs.length
      match act rule config.line handle with
      | none => .abort
      | some value =>
          match tables.goto? (topState rest) r.lhs with
          | none => .reject
          | some goto => .next { config with stack := (goto.target, value) :: rest }

/-- One step of the parser. -/
def step (config : Config T V) : Outcome T V :=
  match tables.rows.find? (topState config.stack) with
  | none => .reject
  | some row =>
      if topState config.stack = tables.final then
        match config.stack with
        | _ :: (_, value) :: _ => .accept value
        | _ => .reject
      else if row.consistent then
        match row.defaultRule with
        | some rule => reduceBy g tables act rule config
        | none => .reject
      else
        match config.fetch with
        | none => .reject
        | some (token, config) =>
            match row.actionOn (code token.kind) with
            | .shift state =>
                .next { config with stack := (state, token.val) :: config.stack, lookahead := none }
            | .reduce rule => reduceBy g tables act rule config
            | .error => .reject

/-- A run of parser steps. -/
abbrev Steps : Config T V → Config T V → Prop :=
  Relation.ReflTransGen fun before after => step g tables act before = .next after

/-- The configuration in which the parser starts on the tokens of an input. -/
def start (input : List (Lexeme T V)) : Config T V := ⟨[], none, 0, input⟩

/-- The parser accepts the input, with the given value of the start symbol. -/
def Accepts (input : List (Lexeme T V)) (value : V) : Prop :=
  ∃ config, Steps g tables act (start input) config ∧ step g tables act config = .accept value

variable {g tables act}

/-- Two runs from one configuration are comparable: the longer one passes through
the end of the shorter. -/
theorem Steps.total {config first second : Config T V} (left : Steps g tables act config first)
    (right : Steps g tables act config second) :
    Steps g tables act first second ∨ Steps g tables act second first := by
  refine Relation.ReflTransGen.total_of_right_unique ?_ left right
  intro before one other toOne toOther
  exact Outcome.next.inj (toOne.symm.trans toOther)

/-- The outcome of an input is unique. -/
theorem outcome_unique {config first second : Config T V}
    {outcome outcome' : Outcome T V} (left : Steps g tables act config first)
    (ended : step g tables act first = outcome) (final : ∀ config, outcome ≠ .next config)
    (right : Steps g tables act config second)
    (ended' : step g tables act second = outcome') (final' : ∀ config, outcome' ≠ .next config) :
    outcome = outcome' := by
  have stuck : ∀ {last other : Config T V} {result : Outcome T V},
      step g tables act last = result → (∀ config, result ≠ .next config) →
      Steps g tables act last other → last = other := by
    intro last other result here halted steps
    cases steps using Relation.ReflTransGen.head_induction_on with
    | refl => rfl
    | head stepped _ => exact absurd (here.symm.trans stepped) (halted _)
  rcases Steps.total left right with forth | back
  · rw [← ended, ← ended', stuck ended final forth]
  · rw [← ended, ← ended', stuck ended' final' back]

end Machine

end LR
