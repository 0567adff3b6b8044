import FstWaveDemo.Parser.Spelling

/-! # Returned tokens and their lines

What the token of a step can be (`FstWaveDemo.Lexical.step_token`), and where it is: the
lines of the tokens never decrease, and a layout token is on a later line than every token
of the text before it (`FstWaveDemo.Lexical.Scans.layout_later`).
-/

namespace FstWaveDemo

open Flex (CharSet Pattern)

/-- The token may be the one that the action returns for a matched text. -/
def Action.makes (yytext : Text) (token : Tok) : Action → Prop
  | .layout => token = kw .INDENT ∨ token = kw .DEDENT
  | .token name => token = kw name
  | .text name => token = tok name yytext
  | .constant value name => token = tok name value.toList
  | .operator name => token = tok name yytext.dropLast
  | .operatorConstant value name => token = tok name value.toList
  | .dotName => token = tok .ID yytext
  | .int_dec => token = tok .ID yytext ∨ token = tok .INT yytext
  | .count _ _ | .dot | .character => token = ch (yytext.headD ' ')
  | _ => False

/-- The action returns a character. -/
def Action.isChar : Action → Bool
  | .count _ _ | .dot | .character => true
  | _ => false

/-- The kind of a token that an action makes. -/
theorem Action.kind_of_makes {yytext : Text} {token : Tok} {action : Action}
    (made : action.makes yytext token) :
    (action = .layout ∧ (token.kind = .token .INDENT ∨ token.kind = .token .DEDENT)) ∨
      (∃ name ∈ action.names, token.kind = .token name) ∨
        (action.isChar = true ∧ ∃ c, token.kind = .char c) := by
  cases action with
  | layout =>
      rcases made with rfl | rfl
      · exact Or.inl ⟨rfl, Or.inl rfl⟩
      · exact Or.inl ⟨rfl, Or.inr rfl⟩
  | space | tab | newline | lineEnd | ignore | begin => exact made.elim
  | token | text | constant | dotName | operator | operatorConstant =>
      exact Or.inr (Or.inl ⟨_, List.mem_singleton_self _, by rw [show token = _ from made]⟩)
  | int_dec =>
      rcases made with rfl | rfl
      · exact Or.inr (Or.inl ⟨.ID, by decide, rfl⟩)
      · exact Or.inr (Or.inl ⟨.INT, by decide, rfl⟩)
  | count | dot | character =>
      exact Or.inr (Or.inr ⟨rfl, _, by rw [show token = _ from made]⟩)

/-- Layout tokens. -/
def Kind.isLayout (kind : Kind) : Bool :=
  decide (kind = .token .INDENT ∨ kind = .token .DEDENT)

namespace Lexical

variable {s s' s'' : Lexical} {text text' text'' rest : Text} {lexeme : Lexeme}
  {lexemes : List Lexeme}

/-- What an action returns, and on which line. -/
theorem perform_makes {yytext : Text} {action : Action} :
    (∀ {s' rest'}, perform s yytext rest action = .next s' rest' → s'.lineno = s.lineno) ∧
      ∀ {lexeme s' rest'}, perform s yytext rest action = .token lexeme s' rest' →
        action.makes yytext lexeme.toToken ∧ lexeme.line = s.lineno ∧ s'.lineno = s.lineno := by
  cases action with
  | layout =>
      rcases layout_cases s (yytext ++ rest) with ⟨-, found⟩ | ⟨-, found⟩ | ⟨-, found⟩
      · refine ⟨fun going => (by cases found.symm.trans going), fun going => ?_⟩
        obtain ⟨rfl, rfl, -⟩ := Step.token.inj (found.symm.trans going)
        exact ⟨Or.inl rfl, rfl, rfl⟩
      · refine ⟨fun going => (by cases found.symm.trans going), fun going => ?_⟩
        obtain ⟨rfl, rfl, -⟩ := Step.token.inj (found.symm.trans going)
        exact ⟨Or.inr rfl, rfl, rfl⟩
      · refine ⟨fun going => ?_, fun going => by cases found.symm.trans going⟩
        obtain ⟨rfl, -⟩ := Step.next.inj (found.symm.trans going)
        rfl
  | space | tab | newline | lineEnd | ignore | begin =>
      refine ⟨fun going => ?_, fun going => by cases going⟩
      obtain ⟨rfl, -⟩ := Step.next.inj going
      rfl
  | token | text | constant | dotName | operator | operatorConstant | character =>
      refine ⟨fun going => (by cases going), fun going => ?_⟩
      obtain ⟨rfl, rfl, -⟩ := Step.token.inj going
      exact ⟨rfl, rfl, rfl⟩
  | count counter change =>
      refine ⟨fun going => (by cases going), fun going => ?_⟩
      obtain ⟨rfl, rfl, -⟩ := Step.token.inj going
      cases counter <;> exact ⟨rfl, rfl, rfl⟩
  | int_dec =>
      simp only [perform]
      split
      · refine ⟨fun going => (by cases going), fun going => ?_⟩
        obtain ⟨rfl, rfl, -⟩ := Step.token.inj going
        exact ⟨Or.inl rfl, rfl, rfl⟩
      · refine ⟨fun going => (by cases going), fun going => ?_⟩
        obtain ⟨rfl, rfl, -⟩ := Step.token.inj going
        exact ⟨Or.inr rfl, rfl, rfl⟩
  | dot =>
      simp only [perform]
      split
      · refine ⟨fun going => (by cases going), fun going => ?_⟩
        obtain ⟨rfl, rfl, -⟩ := Step.token.inj going
        exact ⟨rfl, rfl, rfl⟩
      · refine ⟨fun going => (by cases going), fun going => ?_⟩
        obtain ⟨rfl, rfl, -⟩ := Step.token.inj going
        exact ⟨rfl, rfl, rfl⟩

/-- A token is a DEDENT at the end of the text, or one that a rule of the start condition
makes of the text it matches. -/
theorem step_token (stepped : s.step text = .token lexeme s' rest) :
    (text = [] ∧ s.mode = .indent ∧ lexeme = ⟨kw .DEDENT, s.lineno⟩ ∧ s'.lineno = s.lineno) ∨
      ∃ r ∈ Rules.of s.mode, ∃ w tail, text = w ++ tail ∧ r.pattern.Matches w ∧
        r.action.makes w lexeme.toToken ∧ lexeme.line = s.lineno + w.count '\n' ∧
        s'.lineno = lexeme.line := by
  cases text with
  | nil =>
      rw [step, atEof] at stepped
      split at stepped
      · rename_i indenting
        split at stepped
        · obtain ⟨rfl, rfl, -⟩ := Step.token.inj stepped
          exact Or.inl ⟨rfl, indenting, rfl, rfl⟩
        · cases stepped
      · cases stepped
  | cons c text =>
      rcases step_cons (s := s) (c := c) text with jam | ⟨r, member, w, tail, split, matched, found⟩
      · cases jam.symm.trans stepped
      · obtain ⟨made, line, after⟩ := perform_makes.2 (found.symm.trans stepped)
        exact Or.inr ⟨r, member, w, tail, split, matched, made, line, after.trans line.symm⟩

/-- A step that returns no token counts the lines of what it reads. -/
theorem step_next_lineno (stepped : s.step text = .next s' rest) : s.lineno ≤ s'.lineno := by
  cases text with
  | nil =>
      rw [step, atEof] at stepped
      split at stepped
      · split at stepped <;> cases stepped
      · cases stepped
  | cons c text =>
      rcases step_cons (s := s) (c := c) text with jam | ⟨r, -, w, tail, -, -, found⟩
      · cases jam.symm.trans stepped
      · rw [perform_makes.1 (found.symm.trans stepped)]
        exact Nat.le_add_right _ _

/-- The line of a token is where the scanner is after it, and not before where it was. -/
theorem step_token_lineno (stepped : s.step text = .token lexeme s' rest) :
    s.lineno ≤ lexeme.line ∧ s'.lineno = lexeme.line := by
  rcases step_token stepped with ⟨-, -, rfl, after⟩ | ⟨r, -, w, tail, -, -, -, line, after⟩
  · exact ⟨Nat.le_refl _, after⟩
  · exact ⟨by omega, after⟩

/-- Along a run, the tokens are between the lines where it starts and ends, and in order. -/
theorem Scans.lines (scans : Scans s text lexemes s' text') :
    s.lineno ≤ s'.lineno ∧
      (∀ lexeme ∈ lexemes, s.lineno ≤ lexeme.line ∧ lexeme.line ≤ s'.lineno) ∧
      lexemes.Pairwise fun first second => first.line ≤ second.line := by
  induction scans with
  | refl => exact ⟨Nat.le_refl _, fun _ absent => (nomatch absent), .nil⟩
  | next stepped _ ih =>
      obtain ⟨onward, each, sorted⟩ := ih
      have start := step_next_lineno stepped
      exact ⟨Nat.le_trans start onward, fun lexeme member =>
        ⟨Nat.le_trans start (each lexeme member).1, (each lexeme member).2⟩, sorted⟩
  | token stepped _ ih =>
      obtain ⟨onward, each, sorted⟩ := ih
      obtain ⟨start, here⟩ := step_token_lineno stepped
      rw [here] at onward each
      exact ⟨Nat.le_trans start onward, List.forall_mem_cons.mpr ⟨⟨start, onward⟩,
        fun lexeme member => ⟨Nat.le_trans start (each lexeme member).1, (each lexeme member).2⟩⟩,
        .cons (fun lexeme member => (each lexeme member).1) sorted⟩

/-- Layout tokens are returned in the start condition `indent`, and only they. -/
theorem step_isLayout (stepped : s.step text = .token lexeme s' rest) :
    lexeme.kind.isLayout = true ↔ s.mode = .indent := by
  have apart : ∀ mode, mode ≠ .indent → ((Rules.of mode).all fun r =>
      decide (r.action ≠ .layout)) = true := by
    intro mode inside
    cases mode with
    | indent => exact absurd rfl inside
    | _ => decide +kernel
  have silent : ∀ r ∈ Rules.indentRules, r.action.names = [] ∧ r.action.isChar = false := by
    decide
  rcases step_token stepped with ⟨-, indenting, rfl, -⟩ | ⟨r, member, w, tail, -, -, made, -⟩
  · exact iff_of_true rfl indenting
  · rcases Action.kind_of_makes made with ⟨same, layout⟩ | ⟨name, named, kind⟩ | ⟨char, c, kind⟩
    · refine iff_of_true (decide_eq_true layout) ?_
      by_contra inside
      exact of_decide_eq_true (List.all_eq_true.mp (apart s.mode inside) r member) same
    · obtain ⟨other, other'⟩ := names_ne_layout member named
      refine iff_of_false ?_ fun indenting => ?_
      · rw [Kind.isLayout, decide_eq_true_eq, kind]
        simp [other, other']
      · rw [indenting] at member
        rw [(silent r member).1] at named
        exact nomatch named
    · refine iff_of_false ?_ fun indenting => ?_
      · rw [Kind.isLayout, decide_eq_true_eq, kind]
        simp
      · rw [indenting] at member
        exact nomatch (silent r member).2.symm.trans char

/-- The first token of a run, with the states before and after it. -/
theorem Scans.uncons (scans : Scans s text (lexeme :: lexemes) s' text') :
    ∃ s₁ text₁ s₂ text₂, Scans s text [] s₁ text₁ ∧ s₁.step text₁ = .token lexeme s₂ text₂ ∧
      Scans s₂ text₂ lexemes s' text' := by
  generalize same : lexeme :: lexemes = all at scans
  induction scans with
  | refl => exact nomatch same
  | next stepped _ ih =>
      obtain ⟨s₁, text₁, s₂, text₂, first, returned, later⟩ := ih same
      exact ⟨s₁, text₁, s₂, text₂, .next stepped first, returned, later⟩
  | token stepped rest _ =>
      obtain ⟨rfl, rfl⟩ := List.cons.inj same
      exact ⟨_, _, _, _, .refl, stepped, rest⟩

/-- The start condition `indent` is entered at a newline, so on a later line, without a
token. -/
theorem step_enters (inside : s.mode ≠ .indent)
    (stepped : s.step text = .next s' text' ∨ ∃ lexeme, s.step text = .token lexeme s' text')
    (indenting : s'.mode = .indent) : s.step text = .next s' text' ∧ s.lineno < s'.lineno := by
  by_cases newline : AtNewline s text
  · obtain ⟨normal | impossible, head⟩ := newline
    · cases text with
      | nil => exact nomatch head
      | cons c text =>
          obtain rfl : c = '\n' := Option.some.inj head
          rcases stepped with stepped | ⟨lexeme, stepped⟩
          · refine ⟨stepped, ?_⟩
            obtain ⟨rfl, -⟩ := Step.next.inj ((step_lineEnd normal).symm.trans stepped)
            exact Nat.lt_succ_self _
          · exact nomatch (step_lineEnd normal).symm.trans stepped
    · exact absurd impossible inside
  · exact absurd indenting (step_inside inside newline stepped).1

theorem Scans.indent_later (inside : s.mode ≠ .indent) (scans : Scans s text lexemes s' text')
    (indenting : s'.mode = .indent) : s.lineno < s'.lineno := by
  induction scans with
  | refl => exact absurd indenting inside
  | @next _ middle _ _ _ _ _ stepped scans ih =>
      by_cases entered : middle.mode = .indent
      · exact Nat.lt_of_lt_of_le (step_enters inside (Or.inl stepped) entered).2 scans.lines.1
      · exact Nat.lt_of_le_of_lt (step_next_lineno stepped) (ih entered indenting)
  | @token _ middle _ _ _ _ _ _ stepped scans ih =>
      by_cases entered : middle.mode = .indent
      · exact nomatch (step_enters inside (Or.inr ⟨_, stepped⟩) entered).1.symm.trans stepped
      · obtain ⟨start, here⟩ := step_token_lineno stepped
        have later := ih entered indenting
        omega

/-- A layout token is on a later line than every other token before it. -/
theorem Scans.layout_later {before between after : List Lexeme} {first second : Lexeme}
    (scans : Scans s text (before ++ first :: (between ++ second :: after)) s' text')
    (plain : first.kind.isLayout = false) (layout : second.kind.isLayout = true) :
    first.line < second.line := by
  obtain ⟨s₁, text₁, -, scans₁⟩ := scans.split
  obtain ⟨s₂, text₂, s₃, text₃, -, returned, scans₃⟩ := scans₁.uncons
  obtain ⟨s₄, text₄, scans₄, scans₅⟩ := scans₃.split
  obtain ⟨s₅, text₅, s₆, text₆, scans₆, returned', -⟩ := scans₅.uncons
  have inside : s₂.mode ≠ .indent := fun indenting =>
    absurd ((step_isLayout returned).mpr indenting) (by simp [plain])
  have inside' : s₃.mode ≠ .indent := fun entered =>
    nomatch (step_enters inside (Or.inr ⟨_, returned⟩) entered).1.symm.trans returned
  have indenting := (step_isLayout returned').mp layout
  have later := (scans₄.trans scans₆).indent_later inside' indenting
  have here := (step_token_lineno returned).2
  have there := (step_token_lineno returned').1
  omega

end Lexical

end FstWaveDemo
