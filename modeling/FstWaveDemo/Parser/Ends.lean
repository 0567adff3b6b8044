import FstWaveDemo.Parser.Layout

/-! # The end of scanning

Every match of the scanner but one lowers a potential of the remaining text, the open
levels and the start condition (`FstWaveDemo.Lexical.step_potential`). The exception is
the locator rule, whose expression matches the empty string: before a character that no
rule of `info` begins with, it returns empty locators for ever. So scanning ends exactly
if no such place is reached (`FstWaveDemo.Lexical.halts_iff`). The layout tokens are
bounded in any case, by the lines of the text.
-/

namespace FstWaveDemo

open Flex (CharSet Pattern)

/-- The number of lines of a text; the last one need not have a newline. -/
def lineCount : Text → Nat
  | [] => 0
  | c :: text => if c = '\n' then lineCount text + 1 else max 1 (lineCount text)

theorem lineCount_append_le (word text : Text) : lineCount text ≤ lineCount (word ++ text) := by
  induction word with
  | nil => exact Nat.le_refl _
  | cons c word ih =>
      rw [List.cons_append, lineCount]
      split <;> omega

theorem lineCount_pos (c : Char) (text : Text) : 0 < lineCount (c :: text) := by
  rw [lineCount]
  split <;> omega

namespace Lexical

variable {s s' : Lexical} {text text' rest : Text} {lexemes : List Lexeme}

/-- A rule fires and the scanner goes on. -/
def Fires (s : Lexical) (text : Text) (s' : Lexical) (text' : Text) : Prop :=
  s.step text = .next s' text' ∨ ∃ lexeme, s.step text = .token lexeme s' text'

/-- The scanner is at the end of input, or aborts. -/
def Stopped (s : Lexical) (text : Text) : Prop :=
  (∃ eof, s.step text = .eof eof) ∨ s.step text = .jam

/-- The scanner is in a locator, before a character that no locator has. -/
def Stuck (s : Lexical) (text : Text) : Prop :=
  s.mode = .info ∧ ∃ c more, text = c :: more ∧ c ≠ '[' ∧ c ≠ ']' ∧
    CharSet.mem Rules.info_char c = false

/-- Repeated calls of `lex` get to the end of input, or abort. -/
def Halts (lineno : Nat) (text : Text) : Prop :=
  ∃ lexemes s rest, Scans (new lineno) text lexemes s rest ∧ s.Stopped rest

/-- What the scanner has left to do. -/
def potential (s : Lexical) (text : Text) : Nat :=
  3 * text.length + s.indentLevels.length + if s.mode = .indent then 2 else 0

/-- A scanner that is not stopped goes on. -/
theorem stopped_or_fires (s : Lexical) (text : Text) :
    s.Stopped text ∨ ∃ s' text', s.Fires text s' text' := by
  cases stepped : s.step text with
  | token lexeme s' text' => exact Or.inr ⟨s', text', Or.inr ⟨lexeme, stepped⟩⟩
  | next s' text' => exact Or.inr ⟨s', text', Or.inl stepped⟩
  | eof eof => exact Or.inl (Or.inl ⟨eof, stepped⟩)
  | jam => exact Or.inl (Or.inr stepped)

theorem Stopped.not_fires (stopped : s.Stopped text) : ¬ s.Fires text s' text' := by
  rintro (stepped | ⟨lexeme, stepped⟩) <;> rcases stopped with ⟨eof, ended⟩ | ended
  all_goals exact nomatch ended.symm.trans stepped

/-- A run goes on with the rule that fires. -/
theorem Fires.scans (fires : s.Fires text s' text') : ∃ lexemes, Scans s text lexemes s' text' := by
  rcases fires with stepped | ⟨lexeme, stepped⟩
  · exact ⟨[], .next stepped .refl⟩
  · exact ⟨[lexeme], .token stepped .refl⟩

/-- Only the locator rule matches the empty string. -/
theorem rules_match_some (mode : Mode) : ((Rules.of mode).all fun r =>
    !r.pattern.nullable || decide (mode = .info ∧ r.pattern = .star Rules.info)) = true := by
  cases mode <;> decide +kernel

theorem info_matches {c : Char} (inside : CharSet.mem Rules.info_char c = true) :
    (Pattern.star Rules.info).Matches [c] :=
  .more (.cat (.chars inside) .done) .done

/-- A rule that is selected takes something, unless the scanner is stuck. -/
theorem selected_pos {c : Char} {more : Text} {length : Nat} {action : Action}
    (selected : Flex.select (Rules.of s.mode) (c :: more) = some (length, action))
    (going : ¬ s.Stuck (c :: more)) : length ≠ 0 := by
  rintro rfl
  have unmatched {other : Flex.Rule Action} (listed : other ∈ Rules.of s.mode) :
      ¬ other.pattern.Matches [c] := by
    intro matched
    obtain ⟨n, found, long⟩ := Flex.le_longest (v := more) matched
    exact absurd (Nat.le_trans long (Flex.select_max selected listed found)) (by simp)
  obtain ⟨r, member, -, found⟩ := Flex.select_mem selected
  obtain ⟨w, rest, -, none, matched, -⟩ := Pattern.longest_eq_some found
  obtain rfl := List.eq_nil_of_length_eq_zero none
  have own := List.all_eq_true.mp (rules_match_some s.mode) r member
  rw [(Pattern.nullable_iff _).mpr matched, Bool.not_true, Bool.false_or, decide_eq_true_eq] at own
  obtain ⟨mode, -⟩ := own
  rw [mode] at unmatched
  refine going ⟨mode, c, more, rfl, ?_, ?_, ?_⟩
  · rintro rfl
    exact unmatched List.mem_cons_self (Pattern.matches_lit.mpr rfl)
  · rintro rfl
    exact unmatched (List.mem_cons_of_mem _ (List.mem_cons_of_mem _ List.mem_cons_self))
      (Pattern.matches_lit.mpr rfl)
  · by_contra inside
    exact unmatched (List.mem_cons_of_mem _ List.mem_cons_self)
      (info_matches (by simpa using inside))

/-- Only `indent` looks at the layout, and only a newline leads back to it. -/
theorem indent_of_mode {mode : Mode} {r : Flex.Rule Action} (member : r ∈ Rules.of mode) :
    (r.action = .layout → mode = .indent) ∧
      (r.action.lines = true → mode = .indent ∨ r.pattern = Pattern.lit "\n") := by
  have all : ∀ mode, ((Rules.of mode).all fun r => decide ((r.action = .layout → mode = .indent) ∧
      (r.action.lines = true → mode = .indent ∨ r.pattern = Pattern.lit "\n"))) = true := by
    intro mode
    cases mode <;> decide +kernel
  exact of_decide_eq_true (List.all_eq_true.mp (all mode) r member)

/-- What a rule that fires may do. -/
inductive Fired (s : Lexical) (text : Text) (s' : Lexical) (text' : Text) : Prop
  /-- A level is closed. -/
  | closes (indenting : s.mode = .indent) (still : s'.mode = .indent) (filled : s.indentLevels ≠ [])
      (levels : s'.indentLevels = s.indentLevels.tail) (same : text' = text)
  /-- The line begins, on a new level or on the old one. -/
  | begins (indenting : s.mode = .indent) (normal : s'.mode = .normal) (filled : text ≠ [])
      (levels : s'.indentLevels.length ≤ s.indentLevels.length + 1) (same : text' = text)
  /-- Something is read. -/
  | reads (word : Text) (split : text = word ++ text') (filled : ¬ s.Stuck text → word ≠ [])
      (levels : s'.indentLevels = s.indentLevels)
      (mode : s'.mode = .indent → s.mode = .indent ∨ word = ['\n'])

/-- A rule that fires does one of these. -/
theorem Fires.fired (fires : s.Fires text s' text') : Fired s text s' text' := by
  have leads {s₁ : Lexical} {text₁ : Text} (found : s.step text = .next s₁ text₁ ∨
      ∃ lexeme, s.step text = .token lexeme s₁ text₁) : s' = s₁ ∧ text' = text₁ := by
    rcases fires with stepped | ⟨lexeme, stepped⟩ <;> rcases found with found | ⟨lexeme', found⟩
    · exact Step.next.inj (stepped.symm.trans found)
    · exact nomatch found.symm.trans stepped
    · exact nomatch found.symm.trans stepped
    · exact (Step.token.inj (stepped.symm.trans found)).2
  cases text with
  | nil =>
      have stepped : s.step [] = s.atEof := rfl
      rw [atEof] at stepped
      split at stepped
      · rename_i indenting
        split at stepped
        · rename_i closing
          obtain ⟨rfl, rfl⟩ := leads (Or.inr ⟨_, stepped⟩)
          exact .closes indenting indenting (fun none => closing (by rw [top, none]; rfl)) rfl rfl
        · exact absurd fires (Stopped.not_fires (Or.inl ⟨_, stepped⟩))
      · exact absurd fires (Stopped.not_fires (Or.inl ⟨_, stepped⟩))
  | cons c more =>
      cases selected : Flex.select (Rules.of s.mode) (c :: more) with
      | none => exact absurd fires (Stopped.not_fires (Or.inr (by rw [step, selected])))
      | some found =>
          obtain ⟨length, action⟩ := found
          have stepped := step_selected selected
          have taken := selected_pos selected
          obtain ⟨r, member, rfl, longest⟩ := Flex.select_mem selected
          obtain ⟨word, rest, split, rfl, matched, -⟩ := Pattern.longest_eq_some longest
          rw [split, List.take_left, List.drop_left, ← split] at stepped
          by_cases plain : r.action = .layout
          · have indenting := (indent_of_mode member).1 plain
            rw [plain] at stepped
            rcases layout_cases (s.countLines word) (word ++ rest)
              with ⟨-, found⟩ | ⟨below, found⟩ | ⟨-, found⟩
            · obtain ⟨rfl, rfl⟩ := leads (Or.inr ⟨_, stepped.trans found⟩)
              exact .begins indenting rfl (List.cons_ne_nil _ _) (Nat.le_refl _) split.symm
            · obtain ⟨rfl, rfl⟩ := leads (Or.inr ⟨_, stepped.trans found⟩)
              refine .closes indenting indenting (fun none => ?_) rfl split.symm
              rw [top, countLines, none] at below
              exact absurd below (Nat.not_lt_zero _)
            · obtain ⟨rfl, rfl⟩ := leads (Or.inl (stepped.trans found))
              exact .begins indenting rfl (List.cons_ne_nil _ _) (Nat.le_succ _) split.symm
          · obtain ⟨after, found, levels, -, others⟩ :=
              perform_cases (s := s.countLines word) plain word rest
            have moved : s' = after ∧ text' = rest := by
              rcases found with found | ⟨kind, val, found, -⟩
              · exact leads (Or.inl (stepped.trans found))
              · exact leads (Or.inr ⟨_, stepped.trans found⟩)
            obtain ⟨rfl, rfl⟩ := moved
            refine .reads word split (fun going none => taken going (by rw [none]; rfl)) levels ?_
            intro indenting
            cases lines : r.action.lines with
            | false =>
                by_contra elsewhere
                exact (others lines).2 (fun mode => elsewhere (Or.inl mode)) indenting
            | true =>
                refine ((indent_of_mode member).2 lines).imp id fun newline => ?_
                rw [newline] at matched
                exact Pattern.matches_lit.mp matched

/-- Every rule that fires lowers the potential, unless the scanner is stuck. -/
theorem step_potential (going : ¬ s.Stuck text) (fires : s.Fires text s' text') :
    s'.potential text' < s.potential text := by
  rw [potential, potential]
  cases fires.fired with
  | closes indenting still filled levels same =>
      have some := List.length_pos_iff.mpr filled
      rw [if_pos indenting, if_pos still, levels, same, List.length_tail]
      omega
  | begins indenting normal _ levels same =>
      rw [if_pos indenting, if_neg (by rw [normal]; decide), same]
      omega
  | reads word split filled levels _ =>
      have some := List.length_pos_iff.mpr (filled going)
      rw [split, List.length_append, levels]
      split <;> omega

/-- A stuck scanner returns an empty locator and stays. -/
theorem step_stuck (stuck : s.Stuck text) :
    s.step text = .token ⟨⟨.token .Info, .str (some [])⟩, s.lineno⟩ s text := by
  obtain ⟨mode, c, more, rfl, notOpen, notClose, outside⟩ := stuck
  have one {d : Char} (other : c ≠ d) :
      Pattern.longest (c :: more) (.cat (.chars [(d, d)]) .empty) = none := by
    rw [Pattern.longest_char, CharSet.mem_single, decide_eq_false other]
    rfl
  have opened : Pattern.longest (c :: more) (Pattern.lit "[") = none := one notOpen
  have closed : Pattern.longest (c :: more) (Pattern.lit "]") = none := one notClose
  have locator : Pattern.longest (c :: more) (.star Rules.info) = some 0 := by
    refine Pattern.longest_append (w := []) .done ?_
    intro word tail split filled matched
    cases word with
    | nil => exact filled rfl
    | cons d word =>
        obtain ⟨rfl, -⟩ := List.cons.inj split
        have begun : CharSet.mem (Rules.info_char ++ []) c = true := Pattern.mem_begins matched
        rw [List.append_nil, outside] at begun
        exact nomatch begun
  have selected : Flex.select (Rules.of s.mode) (c :: more) = some (0, .text .Info) := by
    rw [mode]
    simp only [Rules.of, Rules.infoRules, Flex.select, opened, closed, locator]
  rw [step_selected selected]
  rfl

/-- From a place where the scanner never gets stuck, it stops. -/
theorem stops (going : ∀ lexemes s' text', Scans s text lexemes s' text' → ¬ s'.Stuck text') :
    ∃ lexemes s' text', Scans s text lexemes s' text' ∧ s'.Stopped text' := by
  generalize bound : s.potential text = fuel
  induction fuel using Nat.strong_induction_on generalizing s text with
  | _ fuel ih =>
      rcases s.stopped_or_fires text with stopped | ⟨s₁, text₁, fires⟩
      · exact ⟨[], s, text, .refl, stopped⟩
      · obtain ⟨before, first⟩ := fires.scans
        have lower := step_potential (going [] s text .refl) fires
        obtain ⟨lexemes, s', text', scans, stopped⟩ := ih _ (by omega)
          (fun lexemes s' text' scans => going _ _ _ (first.trans scans)) rfl
        exact ⟨_, s', text', first.trans scans, stopped⟩

/-- From a place where the scanner is stuck, it does not stop. -/
theorem not_stops (stuck : s.Stuck text) (scans : Scans s text lexemes s' text') :
    ¬ s'.Stopped text' := by
  induction scans with
  | refl =>
      rintro (⟨eof, ended⟩ | ended)
      · exact nomatch (step_stuck stuck).symm.trans ended
      · exact nomatch (step_stuck stuck).symm.trans ended
  | next stepped _ ih => exact nomatch (step_stuck stuck).symm.trans stepped
  | token stepped _ ih =>
      obtain ⟨-, rfl, rfl⟩ := Step.token.inj ((step_stuck stuck).symm.trans stepped)
      exact ih stuck

/-- A text on which the scanner gets stuck. -/
theorem not_halts {lineno : Nat} (scans : Scans (new lineno) text lexemes s rest)
    (stuck : s.Stuck rest) : ¬ Halts lineno text := by
  rintro ⟨lexemes', s', rest', scans', stopped⟩
  rcases scans'.total scans with ⟨more, -, onward⟩ | ⟨more, -, onward⟩
  · cases onward with
    | refl => exact not_stops stuck .refl stopped
    | next stepped _ => exact stopped.not_fires (Or.inl stepped)
    | token stepped _ => exact stopped.not_fires (Or.inr ⟨_, stepped⟩)
  · exact not_stops stuck onward stopped

/-- The lines that are not begun yet. -/
def linesLeft (s : Lexical) (text : Text) : Nat :=
  if s.mode = .indent then lineCount text else lineCount text - 1

/-- A line opens at most one level. -/
theorem step_linesLeft (fires : s.Fires text s' text') :
    s'.linesLeft text' ≤ s.linesLeft text ∧
      (s'.indentLevels.length = s.indentLevels.length + 1 →
        s'.linesLeft text' < s.linesLeft text) := by
  rw [linesLeft, linesLeft]
  cases fires.fired with
  | closes indenting still _ levels same =>
      rw [if_pos indenting, if_pos still, levels, same, List.length_tail]
      omega
  | begins indenting normal filled _ same =>
      obtain ⟨c, more, rfl⟩ := List.exists_cons_of_ne_nil filled
      have some := lineCount_pos c more
      rw [if_pos indenting, if_neg (by rw [normal]; decide), same]
      omega
  | reads word split _ levels mode =>
      refine ⟨?_, fun more => absurd more (by rw [levels]; omega)⟩
      have fewer := lineCount_append_le word text'
      rw [← split] at fewer
      by_cases indenting : s'.mode = .indent
      · rw [if_pos indenting]
        rcases mode indenting with before | rfl
        · rw [if_pos before]
          exact fewer
        · have counted : lineCount text = lineCount text' + 1 := by
            rw [split, List.singleton_append, lineCount, if_pos rfl]
          split <;> omega
      · rw [if_neg indenting]
        split <;> omega

/-- The INDENT tokens of a run are bounded by the lines that it begins. -/
theorem Scans.indents_le (scans : Scans s text lexemes s' text') :
    countToken .INDENT lexemes + s'.linesLeft text' ≤ s.linesLeft text := by
  induction scans with
  | refl => exact Nat.le_of_eq (Nat.zero_add _)
  | next stepped _ ih => exact Nat.le_trans ih (step_linesLeft (Or.inl stepped)).1
  | @token s middle _ _ _ _ lexeme lexemes stepped _ ih =>
      have counted : countToken .INDENT (lexeme :: lexemes) =
          countToken .INDENT lexemes + if lexeme.kind = .token .INDENT then 1 else 0 := by
        simp [countToken, List.countP_cons]
      obtain ⟨fewer, opening⟩ := step_linesLeft (Or.inr ⟨lexeme, stepped⟩)
      rw [counted]
      by_cases indent : lexeme.kind = .token .INDENT
      · rw [if_pos indent]
        have pushed : middle.indentLevels.length = s.indentLevels.length + 1 := by
          rcases step_levels.2 stepped with ⟨-, column, -, pushed⟩ | ⟨kind, -⟩ | ⟨kind, -⟩
          · rw [pushed, List.length_cons]
          · exact absurd (indent.symm.trans kind) (by decide)
          · exact absurd indent kind
        have less := opening pushed
        omega
      · rw [if_neg indent]
        omega

/-- The layout tokens of a run are bounded by the lines of the text. -/
theorem Scans.layout_le {lineno : Nat} (scans : Scans (new lineno) text lexemes s' text') :
    countToken .INDENT lexemes ≤ lineCount text ∧
      countToken .DEDENT lexemes ≤ countToken .INDENT lexemes := by
  have bound := scans.indents_le
  obtain ⟨ordered, balance⟩ := scans.levels .start
  have bottom := List.length_pos_iff.mpr ordered.ne_nil
  have single : (new lineno).indentLevels.length = 1 := rfl
  change _ ≤ lineCount text at bound
  omega

/-- Scanning ends, with no more INDENT tokens than lines and no more DEDENT than INDENT
tokens, exactly if the scanner never gets stuck in a locator. -/
theorem halts_iff (lineno : Nat) (text : Text) :
    (Halts lineno text ∧ ∀ lexemes s rest, Scans (new lineno) text lexemes s rest →
      countToken .INDENT lexemes ≤ lineCount text ∧
        countToken .DEDENT lexemes ≤ countToken .INDENT lexemes) ↔
      ∀ lexemes s rest, Scans (new lineno) text lexemes s rest → ¬ s.Stuck rest := by
  constructor
  · rintro ⟨halts, -⟩ lexemes s rest scans stuck
    exact not_halts scans stuck halts
  · intro going
    exact ⟨stops going, fun lexemes s rest scans => scans.layout_le⟩

/-- A locator with an angle bracket: the scanner never gets past it. -/
theorem locator_not_halts : ¬ Halts 1 "skip @[<stdin> 1:2]".toList := by
  have reached : (advance 5 (new 1) "skip @[<stdin> 1:2]".toList).any (fun result =>
      decide (result.2.1.mode = .info ∧ result.2.2 = "<stdin> 1:2]".toList)) = true := by
    decide +kernel
  obtain ⟨⟨lexemes, s, rest⟩, found, place⟩ := (Option.any_eq_true _ _).mp reached
  obtain ⟨mode, same⟩ := of_decide_eq_true place
  refine not_halts (scans_of_advance found) ⟨mode, '<', "stdin> 1:2]".toList, same, ?_⟩
  decide

end Lexical

end FstWaveDemo
