import FstWaveDemo.Parser.Lexical

/-! # Runs of the scanner

The scanner is deterministic, so runs compose (`FstWaveDemo.Lexical.Scans.trans`) and
two runs from one state pass through each other (`Scans.total`). A step reads part of
the text; in the start condition `indent` it is known for every character.
-/

namespace FstWaveDemo

namespace Lexical

variable {s s' s'' : Lexical} {text text' text'' : Text} {lexemes lexemes' : List Lexeme}

theorem Scans.trans (first : Scans s text lexemes s' text')
    (second : Scans s' text' lexemes' s'' text'') :
    Scans s text (lexemes ++ lexemes') s'' text'' := by
  induction first with
  | refl => exact second
  | next stepped _ ih => exact .next stepped (ih second)
  | token stepped _ ih => exact .token stepped (ih second)

/-- A run returns its lexemes one after the other. -/
theorem Scans.split (scans : Scans s text (lexemes ++ lexemes') s'' text'') :
    ∃ s' text', Scans s text lexemes s' text' ∧ Scans s' text' lexemes' s'' text'' := by
  generalize same : lexemes ++ lexemes' = all at scans
  induction scans generalizing lexemes with
  | refl =>
      obtain ⟨rfl, rfl⟩ := List.append_eq_nil_iff.mp same
      exact ⟨_, _, .refl, .refl⟩
  | next stepped _ ih =>
      obtain ⟨s', text', first, second⟩ := ih same
      exact ⟨s', text', .next stepped first, second⟩
  | token stepped rest ih =>
      cases lexemes with
      | nil =>
          obtain rfl : lexemes' = _ := same
          exact ⟨_, _, .refl, .token stepped rest⟩
      | cons lexeme lexemes =>
          obtain ⟨rfl, others⟩ := List.cons.inj same
          obtain ⟨s', text', first, second⟩ := ih others
          exact ⟨s', text', .token stepped first, second⟩

/-- Every lexeme of a run is returned by one of its steps. -/
theorem Scans.returned (scans : Scans s text lexemes s' text') {lexeme : Lexeme}
    (member : lexeme ∈ lexemes) :
    ∃ before s₁ text₁ s₂ text₂, Scans s text before s₁ text₁ ∧
      s₁.step text₁ = .token lexeme s₂ text₂ := by
  induction scans with
  | refl => exact absurd member List.not_mem_nil
  | next stepped _ ih =>
      obtain ⟨before, s₁, text₁, s₂, text₂, scans, returned⟩ := ih member
      exact ⟨before, s₁, text₁, s₂, text₂, .next stepped scans, returned⟩
  | @token _ _ _ _ _ _ first _ stepped _ ih =>
      rcases List.mem_cons.mp member with rfl | member
      · exact ⟨[], _, _, _, _, .refl, stepped⟩
      · obtain ⟨before, s₁, text₁, s₂, text₂, scans, returned⟩ := ih member
        exact ⟨first :: before, s₁, text₁, s₂, text₂, .token stepped scans, returned⟩

/-- Two runs from one state: one of them goes on where the other stops. -/
theorem Scans.total (first : Scans s text lexemes s' text')
    (second : Scans s text lexemes' s'' text'') :
    (∃ more, lexemes' = lexemes ++ more ∧ Scans s' text' more s'' text'') ∨
      ∃ more, lexemes = lexemes' ++ more ∧ Scans s'' text'' more s' text' := by
  induction first generalizing lexemes' s'' text'' with
  | refl => exact Or.inl ⟨lexemes', rfl, second⟩
  | next stepped rest ih =>
      cases second with
      | refl => exact Or.inr ⟨_, rfl, .next stepped rest⟩
      | next stepped' rest' =>
          obtain ⟨rfl, rfl⟩ := Step.next.inj (stepped.symm.trans stepped')
          exact ih rest'
      | token stepped' _ => exact absurd (stepped.symm.trans stepped') (by simp)
  | token stepped rest ih =>
      cases second with
      | refl => exact Or.inr ⟨_, rfl, .token stepped rest⟩
      | next stepped' _ => exact absurd (stepped.symm.trans stepped') (by simp)
      | token stepped' rest' =>
          obtain ⟨rfl, rfl, rfl⟩ := Step.token.inj (stepped.symm.trans stepped')
          rcases ih rest' with ⟨more, rfl, onward⟩ | ⟨more, rfl, onward⟩
          · exact Or.inl ⟨more, rfl, onward⟩
          · exact Or.inr ⟨more, rfl, onward⟩

/-- The run from a state to the end of input is unique. -/
theorem Scans.unique {eof eof' : Lexeme} (first : Scans s text lexemes s' text')
    (ended : s'.step text' = .eof eof) (second : Scans s text lexemes' s'' text'')
    (ended' : s''.step text'' = .eof eof') :
    lexemes = lexemes' ∧ s' = s'' ∧ text' = text'' := by
  rcases first.total second with ⟨more, rfl, onward⟩ | ⟨more, rfl, onward⟩
  · cases onward with
    | refl => exact ⟨(List.append_nil _).symm, rfl, rfl⟩
    | next stepped _ => exact absurd (ended.symm.trans stepped) (by simp)
    | token stepped _ => exact absurd (ended.symm.trans stepped) (by simp)
  · cases onward with
    | refl => exact ⟨List.append_nil _, rfl, rfl⟩
    | next stepped _ => exact absurd (ended'.symm.trans stepped) (by simp)
    | token stepped _ => exact absurd (ended'.symm.trans stepped) (by simp)

/-- The lexemes of a text are unique. -/
theorem Scanned.unique {lineno : Nat} {eof eof' : Lexeme} (first : Scanned lineno text lexemes eof)
    (second : Scanned lineno text lexemes' eof') : lexemes = lexemes' ∧ eof = eof' := by
  obtain ⟨s, scans, ended⟩ := first
  obtain ⟨s', scans', ended'⟩ := second
  obtain ⟨rfl, rfl, -⟩ := scans.unique ended scans' ended'
  exact ⟨rfl, Step.eof.inj (ended.symm.trans ended')⟩

/-- A bounded run that ends is a run to the end of input. -/
theorem scans_of_run {fuel : Nat} (found : run fuel s text = some (lexemes, s')) :
    ∃ rest, Scans s text lexemes s' rest ∧ ∃ eof, s'.step rest = .eof eof := by
  induction fuel generalizing s text lexemes with
  | zero => exact absurd found (by simp [run])
  | succ fuel ih =>
      rw [run] at found
      split at found
      · rename_i lexeme next rest stepped
        obtain ⟨⟨later, last⟩, found', same⟩ := Option.map_eq_some_iff.mp found
        obtain ⟨rfl, rfl⟩ := Prod.mk.inj same
        obtain ⟨rest, scans, ended⟩ := ih found'
        exact ⟨rest, .token stepped scans, ended⟩
      · rename_i next rest stepped
        obtain ⟨rest, scans, ended⟩ := ih found
        exact ⟨rest, .next stepped scans, ended⟩
      · rename_i eof stepped
        obtain ⟨rfl, rfl⟩ := Prod.mk.inj (Option.some.inj found)
        exact ⟨text, .refl, eof, stepped⟩
      · exact absurd found (by simp)

/-- Some steps are a run. -/
theorem scans_of_advance {steps : Nat} {rest : Text}
    (found : advance steps s text = some (lexemes, s', rest)) : Scans s text lexemes s' rest := by
  induction steps generalizing s text lexemes with
  | zero =>
      obtain ⟨rfl, ends⟩ := Prod.mk.inj (Option.some.inj found)
      obtain ⟨rfl, rfl⟩ := Prod.mk.inj ends
      exact .refl
  | succ steps ih =>
      rw [advance] at found
      split at found
      · rename_i stepped
        obtain ⟨⟨later, last, left⟩, found', same⟩ := Option.map_eq_some_iff.mp found
        obtain ⟨rfl, ends⟩ := Prod.mk.inj same
        obtain ⟨rfl, rfl⟩ := Prod.mk.inj ends
        exact .token stepped (ih found')
      · rename_i stepped
        exact .next stepped (ih found)
      · exact absurd found (by simp)
      · exact absurd found (by simp)

end Lexical

/-- The named tokens that an action may return. -/
def Action.names : Action → List TokenName
  | token name => [name]
  | text name => [name]
  | constant _ name => [name]
  | operator name => [name]
  | operatorConstant _ name => [name]
  | dotName => [.ID]
  | int_dec => [.ID, .INT]
  | _ => []

/-- The action has to do with lines: it changes the indentation or goes to the start
of one. -/
def Action.lines : Action → Bool
  | space => true
  | tab => true
  | newline => true
  | layout => true
  | begin .indent => true
  | lineEnd => true
  | _ => false

namespace Lexical

variable {s s' s'' : Lexical} {text text' text'' : Text} {lexemes lexemes' : List Lexeme}

/-- What an action other than `layout` does: it reads the matched text and leaves the
open levels alone. -/
theorem perform_cases {action : Action} (plain : action ≠ .layout) (yytext rest : Text) :
    ∃ s', (perform s yytext rest action = .next s' rest ∨
        ∃ kind val, perform s yytext rest action = .token ⟨⟨kind, val⟩, s.lineno⟩ s' rest ∧
          ∀ name, kind = .token name → name ∈ action.names) ∧
      s'.indentLevels = s.indentLevels ∧ s'.lineno = s.lineno ∧
      (action.lines = false → s'.curr_indent = s.curr_indent ∧
        (s.mode ≠ .indent → s'.mode ≠ .indent)) := by
  have own {name other : TokenName} (same : Kind.token name = .token other) : other ∈ [name] := by
    simp [Kind.token.inj same]
  cases action with
  | layout => exact absurd rfl plain
  | space | tab | newline | lineEnd =>
      exact ⟨_, Or.inl rfl, rfl, rfl, fun lines => absurd lines (by decide)⟩
  | ignore => exact ⟨_, Or.inl rfl, rfl, rfl, fun _ => ⟨rfl, id⟩⟩
  | begin mode =>
      refine ⟨_, Or.inl rfl, rfl, rfl, fun lines => ⟨rfl, fun _ => ?_⟩⟩
      rintro rfl
      exact absurd lines (by decide)
  | token name | text name | constant text name | operator name | operatorConstant text name =>
      exact ⟨_, Or.inr ⟨_, _, rfl, fun _ => own⟩, rfl, rfl, fun _ => ⟨rfl, id⟩⟩
  | dotName =>
      exact ⟨_, Or.inr ⟨_, _, rfl, fun _ => own⟩, rfl, rfl, fun _ => ⟨rfl, fun _ => by simp⟩⟩
  | int_dec =>
      simp only [perform]
      split
      · exact ⟨_, Or.inr ⟨_, _, rfl, fun _ same => by simp [Action.names, ← Kind.token.inj same]⟩,
          rfl, rfl, fun _ => ⟨rfl, id⟩⟩
      · exact ⟨_, Or.inr ⟨_, _, rfl, fun _ same => by simp [Action.names, ← Kind.token.inj same]⟩,
          rfl, rfl, fun _ => ⟨rfl, id⟩⟩
  | count counter change =>
      cases counter <;> exact ⟨_, Or.inr ⟨_, _, rfl, fun _ same => nomatch same⟩, rfl, rfl,
        fun _ => ⟨rfl, id⟩⟩
  | dot =>
      simp only [perform]
      split
      · exact ⟨_, Or.inr ⟨_, _, rfl, fun _ same => nomatch same⟩, rfl, rfl,
          fun _ => ⟨rfl, fun _ => by simp⟩⟩
      · exact ⟨_, Or.inr ⟨_, _, rfl, fun _ same => nomatch same⟩, rfl, rfl,
          fun _ => ⟨rfl, id⟩⟩
  | character =>
      exact ⟨_, Or.inr ⟨_, _, rfl, fun _ same => nomatch same⟩, rfl, rfl, fun _ => ⟨rfl, id⟩⟩

/-- What `layout` does: it opens a level, closes one, or goes on to the line. -/
theorem layout_cases (s : Lexical) (rest : Text) :
    (s.top < s.curr_indent ∧ layout s rest = .token ⟨⟨.token .INDENT, .undef⟩, s.lineno⟩
        { s with mode := .normal, indentLevels := s.curr_indent :: s.indentLevels } rest) ∨
      (s.curr_indent < s.top ∧ layout s rest = .token ⟨⟨.token .DEDENT, .undef⟩, s.lineno⟩
        { s with indentLevels := s.indentLevels.tail } rest) ∨
      (s.curr_indent = s.top ∧ layout s rest = .next { s with mode := .normal } rest) := by
  rw [layout]
  split
  · exact Or.inl ⟨‹_›, rfl⟩
  · split
    · exact Or.inr (Or.inl ⟨‹_›, rfl⟩)
    · exact Or.inr (Or.inr ⟨by omega, rfl⟩)

/-- No rule returns a layout token by itself. -/
theorem names_ne_layout {mode : Mode} {r : Flex.Rule Action} (member : r ∈ Rules.of mode)
    {name : TokenName} (returned : name ∈ r.action.names) : name ≠ .INDENT ∧ name ≠ .DEDENT := by
  have all : ∀ mode, ((Rules.of mode).all fun r =>
      r.action.names.all fun name => decide (name ≠ .INDENT ∧ name ≠ .DEDENT)) = true := by
    intro mode
    cases mode <;> decide +kernel
  exact of_decide_eq_true
    (List.all_eq_true.mp (List.all_eq_true.mp (all mode) r member) name returned)

/-- The step for a selected rule. -/
theorem step_selected {c : Char} {length : Nat} {action : Action}
    (selected : Flex.select (Rules.of s.mode) (c :: text) = some (length, action)) :
    s.step (c :: text) = perform (s.countLines ((c :: text).take length)) ((c :: text).take length)
      ((c :: text).drop length) action := by
  rw [step, selected]

/-- A match without a newline leaves the line counter as it is. -/
theorem countLines_eq {yytext : Text} (flat : '\n' ∉ yytext) : s.countLines yytext = s := by
  rw [countLines, List.count_eq_zero.mpr flat]
  rfl

/-- The step on a word without newlines that a rule takes whole. -/
theorem step_word {w rest : Text} {action : Action}
    (selected : Flex.select (Rules.of s.mode) (w ++ rest) = some (w.length, action))
    (filled : w ≠ []) (flat : '\n' ∉ w) : s.step (w ++ rest) = perform s w rest action := by
  obtain ⟨c, others, rfl⟩ := List.exists_cons_of_ne_nil filled
  rw [List.cons_append] at selected ⊢
  rw [step_selected selected, ← List.cons_append, List.take_left, List.drop_left,
    countLines_eq flat]

/-- What a step on a character is, if it is not a jam: the action of a rule of the start
condition on the text that the rule matches. -/
theorem step_cons {c : Char} (text : Text) :
    s.step (c :: text) = .jam ∨
      ∃ r ∈ Rules.of s.mode, ∃ yytext rest, c :: text = yytext ++ rest ∧
        r.pattern.Matches yytext ∧ s.step (c :: text) =
          perform (s.countLines yytext) yytext rest r.action := by
  rw [step]
  split
  · exact Or.inl rfl
  · rename_i length action selected
    obtain ⟨r, member, rfl, found⟩ := Flex.select_mem selected
    obtain ⟨w, rest, split, rfl, matched, -⟩ := Flex.Pattern.longest_eq_some found
    refine Or.inr ⟨r, member, w, rest, split, matched, ?_⟩
    rw [split, List.take_left, List.drop_left]

/-- The end of input is met on the empty text only. -/
theorem text_of_eof {eof : Lexeme} (ended : s.step text = .eof eof) : text = [] := by
  cases text with
  | nil => rfl
  | cons c text =>
      rcases step_cons (s := s) (c := c) text with jam | ⟨r, _, yytext, rest, _, _, stepped⟩
      · exact absurd (jam.symm.trans ended) (by simp)
      · rw [stepped] at ended
        by_cases plain : r.action = .layout
        · rw [plain] at ended
          rcases layout_cases (s.countLines yytext) (yytext ++ rest)
            with ⟨_, same⟩ | ⟨_, same⟩ | ⟨_, same⟩
          all_goals exact absurd (same.symm.trans ended) (by simp)
        · obtain ⟨_, same | ⟨_, _, same, _⟩, _⟩ :=
            perform_cases (s := s.countLines yytext) plain yytext rest
          all_goals exact absurd (same.symm.trans ended) (by simp)

/-- A step leaves a suffix of the text. -/
theorem step_suffix : (∀ {s' text'}, s.step text = .next s' text' → text' <:+ text) ∧
    ∀ {lexeme s' text'}, s.step text = .token lexeme s' text' → text' <:+ text := by
  cases text with
  | nil =>
      rw [step, atEof]
      split
      · split
        · refine ⟨fun impossible => (nomatch impossible), fun stepped => ?_⟩
          obtain ⟨-, -, rfl⟩ := Step.token.inj stepped
          exact List.suffix_refl _
        · exact ⟨fun impossible => (nomatch impossible), fun impossible => (nomatch impossible)⟩
      · exact ⟨fun impossible => (nomatch impossible), fun impossible => (nomatch impossible)⟩
  | cons c text =>
      rcases step_cons (s := s) (c := c) text with jam | ⟨r, _, yytext, rest, split, _, stepped⟩
      · rw [jam]
        exact ⟨fun impossible => (nomatch impossible), fun impossible => (nomatch impossible)⟩
      · rw [stepped, split]
        by_cases plain : r.action = .layout
        · rw [plain]
          rcases layout_cases (s.countLines yytext) (yytext ++ rest)
            with ⟨-, found⟩ | ⟨-, found⟩ | ⟨-, found⟩
          · refine ⟨fun going => (nomatch found.symm.trans going), fun going => ?_⟩
            obtain ⟨-, -, rfl⟩ := Step.token.inj (found.symm.trans going)
            exact List.suffix_refl _
          · refine ⟨fun going => (nomatch found.symm.trans going), fun going => ?_⟩
            obtain ⟨-, -, rfl⟩ := Step.token.inj (found.symm.trans going)
            exact List.suffix_refl _
          · refine ⟨fun going => ?_, fun going => (nomatch found.symm.trans going)⟩
            obtain ⟨-, rfl⟩ := Step.next.inj (found.symm.trans going)
            exact List.suffix_refl _
        · obtain ⟨after, found | ⟨kind, val, found, -⟩, -⟩ :=
            perform_cases (s := s.countLines yytext) plain yytext rest
          · refine ⟨fun going => ?_, fun going => (nomatch found.symm.trans going)⟩
            obtain ⟨-, rfl⟩ := Step.next.inj (found.symm.trans going)
            exact List.suffix_append _ _
          · refine ⟨fun going => (nomatch found.symm.trans going), fun going => ?_⟩
            obtain ⟨-, -, rfl⟩ := Step.token.inj (found.symm.trans going)
            exact List.suffix_append _ _

/-- A run leaves a suffix of the text. -/
theorem Scans.suffix (scans : Scans s text lexemes s' text') : text' <:+ text := by
  induction scans with
  | refl => exact List.suffix_refl _
  | next stepped _ ih => exact ih.trans (step_suffix.1 stepped)
  | token stepped _ ih => exact ih.trans (step_suffix.2 stepped)

theorem scanned_of_run {fuel lineno : Nat}
    (found : run fuel (new lineno) text = some (lexemes, s)) :
    ∃ eof, Scanned lineno text lexemes eof := by
  obtain ⟨rest, scans, eof, ended⟩ := scans_of_run found
  obtain rfl := text_of_eof ended
  exact ⟨eof, s, scans, ended⟩

end Lexical

end FstWaveDemo
