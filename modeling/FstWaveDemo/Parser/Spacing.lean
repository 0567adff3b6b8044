import FstWaveDemo.Parser.Modes
import FstWaveDemo.Parser.Positions

/-! # Blank lines

What the scanner takes from a text that ends with a newline does not depend on what
follows (`FstWaveDemo.Lexical.step_append`), and its line counter matters to the dot rule
on the first line alone (`Lexical.step_shift`). So blank lines may be inserted at the
beginning of every later line, and before the first line if no dot on it is read: such a
dot occurs in the version header only (`FstWaveDemo.Parse.insert_blank`).
-/

namespace FstWaveDemo

open Flex (CharSet Pattern)
open LR.Tree (Within words Fits)

/-- A lexeme some lines further down. -/
def shiftLexeme (count : Nat) (lexeme : Lexeme) : Lexeme :=
  { lexeme with line := lexeme.line + count }

namespace Lexical

variable {s s' : Lexical} {text text' u v : Text} {lexemes : List Lexeme}

/-- The same state some lines further down. -/
def shift (count : Nat) (s : Lexical) : Lexical := { s with lineno := s.lineno + count }

/-- The same step some lines further down. -/
def Step.shift (count : Nat) : Step → Step
  | .token lexeme s rest => .token (shiftLexeme count lexeme) (s.shift count) rest
  | .next s rest => .next (s.shift count) rest
  | .eof lexeme => .eof (shiftLexeme count lexeme)
  | .jam => .jam

/-- The same step with more text after it. -/
def Step.append (more : Text) : Step → Step
  | .token lexeme s rest => .token lexeme s (rest ++ more)
  | .next s rest => .next s (rest ++ more)
  | .eof lexeme => .eof lexeme
  | .jam => .jam

/-- An action does not depend on the line counter, except for the dot rule. -/
theorem perform_shift {count : Nat} {action : Action} (yytext rest : Text)
    (apart : action = .dot → s.lineno ≠ 1 ∧ s.lineno + count ≠ 1) :
    perform (s.shift count) yytext rest action = (perform s yytext rest action).shift count := by
  cases action with
  | layout =>
      rw [perform, perform, layout, layout]
      change (if s.top < s.curr_indent then _ else if s.curr_indent < s.top then _ else _) = _
      split
      · rfl
      · split <;> rfl
  | int_dec =>
      rw [perform, perform]
      change (if s.angle_num = 0 ∧ s.square_num = 0 ∧ s.parenthesis_num = 0 ∧ s.bracket_num ≠ 0
        then _ else _) = _
      split <;> rfl
  | count counter change => cases counter <;> rfl
  | dot =>
      obtain ⟨here, there⟩ := apart rfl
      have later : (s.shift count).lineno ≠ 1 := there
      rw [perform, perform, if_pos here, if_pos later]
      rfl
  | _ => rfl

/-- The text after what an action is performed on is left alone. -/
theorem perform_append (yytext rest more : Text) (action : Action) :
    perform s yytext (rest ++ more) action = (perform s yytext rest action).append more := by
  cases action with
  | layout =>
      rw [perform, perform, layout, layout, ← List.append_assoc]
      split
      · rfl
      · split <;> rfl
  | int_dec =>
      rw [perform, perform]
      split <;> rfl
  | _ => rfl

theorem countLines_shift (count : Nat) (word : Text) :
    (s.shift count).countLines word = (s.countLines word).shift count := by
  have lines : s.lineno + count + word.count '\n' = s.lineno + word.count '\n' + count := by omega
  rw [countLines, countLines, shift, shift]
  exact congrArg (fun lineno => { s with lineno }) lines

/-- The dot rule reads a dot. -/
theorem headD_of_dot {mode : Mode} {length : Nat}
    (selected : Flex.select (Rules.of mode) text = some (length, .dot)) :
    (text.take length).headD ' ' = '.' := by
  have all : ∀ mode, ((Rules.of mode).all fun r =>
      decide (r.action = .dot → r.pattern = Pattern.lit ".")) = true := by
    intro mode
    cases mode <;> decide +kernel
  obtain ⟨r, member, dot, longest⟩ := Flex.select_mem selected
  have own := of_decide_eq_true (List.all_eq_true.mp (all mode) r member) dot
  obtain ⟨w, rest, rfl, rfl, matched, -⟩ := Pattern.longest_eq_some longest
  rw [own] at matched
  rw [List.take_left, Pattern.matches_lit.mp matched]
  rfl

/-- The end of input is the same some lines further down. -/
theorem atEof_shift (count : Nat) : (s.shift count).atEof = s.atEof.shift count := by
  obtain ⟨mode, line, indent, angle, square, bracket, parenthesis, levels⟩ := s
  cases mode with
  | indent =>
      rw [atEof, atEof]
      by_cases deeper : levels.headD 0 ≠ 0
      · refine (if_pos deeper).trans
          (Eq.trans ?_ (congrArg (Step.shift count) (if_pos deeper)).symm)
        rfl
      · refine (if_neg deeper).trans
          (Eq.trans ?_ (congrArg (Step.shift count) (if_neg deeper)).symm)
        rfl
  | _ => rfl

/-- A step is the same some lines further down, unless it reads a dot on the first line. -/
theorem step_shift {count : Nat} (positive : 1 ≤ s.lineno)
    (apart : ∀ lexeme s' rest, s.step text = .token lexeme s' rest → lexeme.kind = .char '.' →
      lexeme.line ≠ 1) : (s.shift count).step text = (s.step text).shift count := by
  cases text with
  | nil => exact atEof_shift count
  | cons c text =>
      cases selected : Flex.select (Rules.of s.mode) (c :: text) with
      | none =>
          have jam : s.step (c :: text) = .jam := by rw [step, selected]
          have jam' : (s.shift count).step (c :: text) = .jam := by
            rw [step, show (s.shift count).mode = s.mode from rfl, selected]
          rw [jam, jam']
          rfl
      | some found =>
          obtain ⟨length, action⟩ := found
          have stepped := step_selected selected
          have stepped' : (s.shift count).step (c :: text) = _ := step_selected selected
          rw [stepped', stepped, countLines_shift]
          refine perform_shift _ _ fun dot => ?_
          subst dot
          have here : (s.countLines ((c :: text).take length)).lineno ≠ 1 := by
            intro first
            rw [perform, if_neg (not_not.mpr first)] at stepped
            exact apart _ _ _ stepped (congrArg Kind.char (headD_of_dot selected)) first
          have start : s.lineno ≤ (s.countLines ((c :: text).take length)).lineno :=
            Nat.le_add_right _ _
          omega

/-- A run is the same some lines further down, unless it reads a dot on the first line. -/
theorem Scans.shift (count : Nat) (scans : Scans s text lexemes s' text') (positive : 1 ≤ s.lineno)
    (apart : ∀ lexeme ∈ lexemes, lexeme.kind = .char '.' → lexeme.line ≠ 1) :
    Scans (s.shift count) text (lexemes.map (shiftLexeme count)) (s'.shift count) text' := by
  induction scans with
  | refl => exact .refl
  | next stepped _ ih =>
      have moved := @step_shift _ _ count positive fun lexeme s' rest returned =>
        nomatch stepped.symm.trans returned
      rw [stepped] at moved
      exact .next moved (ih (Nat.le_trans positive (step_next_lineno stepped)) apart)
  | token stepped _ ih =>
      have moved := @step_shift _ _ count positive fun lexeme s' rest returned => by
        obtain ⟨rfl, -⟩ := Step.token.inj (stepped.symm.trans returned)
        exact apart _ List.mem_cons_self
      obtain ⟨start, here⟩ := step_token_lineno stepped
      rw [stepped] at moved
      exact .token moved (ih (by omega) fun lexeme member =>
        apart lexeme (List.mem_cons_of_mem _ member))

/-- The rules that read a newline. -/
theorem newline_rules {mode : Mode} {r : Flex.Rule Action} (member : r ∈ Rules.of mode) :
    r.pattern.avoids [('\n', '\n')] = true ∨
      ((r.pattern = Pattern.lit "\n" ∨ r.pattern = .alt (Pattern.lit "\n") Rules.any) ∧
        ((mode = .indent ∧ r.action = .newline) ∨ (mode = .normal ∧ r.action = .lineEnd) ∨
          (mode = .anno ∧ r.action = .ignore))) := by
  have all : ∀ mode, ((Rules.of mode).all fun r => decide (
      r.pattern.avoids [('\n', '\n')] = true ∨
        ((r.pattern = Pattern.lit "\n" ∨ r.pattern = .alt (Pattern.lit "\n") Rules.any) ∧
          ((mode = .indent ∧ r.action = .newline) ∨ (mode = .normal ∧ r.action = .lineEnd) ∨
            (mode = .anno ∧ r.action = .ignore))))) = true := by
    intro mode
    cases mode <;> decide +kernel
  exact of_decide_eq_true (List.all_eq_true.mp (all mode) r member)

/-- A word with a newline is the newline alone. -/
theorem newline_alone {mode : Mode} {r : Flex.Rule Action} (member : r ∈ Rules.of mode) {w : Text}
    (matched : r.pattern.Matches w) (newline : '\n' ∈ w) : w = ['\n'] := by
  rcases newline_rules member with avoids | ⟨single | pair, -⟩
  · exact absurd newline (Pattern.not_mem_of_avoids_single avoids matched)
  · rw [single] at matched
    exact Pattern.matches_lit.mp matched
  · rw [pair] at matched
    rcases Pattern.matches_alt.mp matched with single | other
    · exact Pattern.matches_lit.mp single
    · obtain ⟨c, rfl, -⟩ := Pattern.matches_chars.mp other
      rw [List.mem_singleton.mp newline]

/-- After a newline, what follows does not matter to a step. -/
theorem step_append (ends : u.getLast? = some '\n') (v : Text) :
    s.step (u ++ v) = (s.step u).append v := by
  have stops : ∀ r ∈ Rules.of s.mode, r.pattern.Stops u v := by
    intro r member more tail _ filled matched
    have alone := newline_alone member matched (List.mem_append_left _ (List.mem_of_getLast? ends))
    have lengths := congrArg List.length alone
    have first := List.length_pos_of_mem (List.mem_of_getLast? ends)
    have second := List.length_pos_iff.mpr filled
    rw [List.length_append, List.length_singleton] at lengths
    omega
  cases u with
  | nil => exact nomatch ends
  | cons c u =>
      have same := Flex.select_append_eq stops
      rw [step, List.cons_append, step, ← List.cons_append, same]
      cases selected : Flex.select (Rules.of s.mode) (c :: u) with
      | none => rfl
      | some found =>
          obtain ⟨length, action⟩ := found
          have within := Flex.select_le selected
          simp only [List.take_append_of_le_length within, List.drop_append_of_le_length within]
          exact perform_append _ _ _ _

/-- The scanner is between two lines. -/
def Between (s : Lexical) : Prop := (s.mode = .indent ∧ s.curr_indent = 0) ∨ s.mode = .anno

/-- A step on a text that ends with a newline leaves such a text, or it reads the newline at
its end. -/
theorem step_ends (ends : u.getLast? = some '\n') :
    (∀ {s' rest}, s.step u = .next s' rest → rest.getLast? = some '\n' ∨
      (rest = [] ∧ s.lineno < s'.lineno ∧ Between s')) ∧
      ∀ {lexeme s' rest}, s.step u = .token lexeme s' rest → rest.getLast? = some '\n' := by
  obtain ⟨before, rfl⟩ := List.getLast?_eq_some_iff.mp ends
  obtain ⟨c, text, split⟩ := List.exists_cons_of_ne_nil
    (List.append_ne_nil_of_right_ne_nil before (List.cons_ne_nil '\n' []))
  rw [split]
  rcases step_cons (s := s) (c := c) text with jam | ⟨r, member, w, tail, own, matched, found⟩
  · rw [jam]
    exact ⟨fun impossible => (nomatch impossible), fun impossible => nomatch impossible⟩
  · rw [found]
    rw [← split] at own
    have last : tail = [] ∨ tail.getLast? = some '\n' := by
      by_cases filled : tail = []
      · exact Or.inl filled
      · have same := congrArg List.getLast? own
        rw [List.getLast?_concat, List.getLast?_append_of_ne_nil _ filled] at same
        exact Or.inr same.symm
    by_cases newline : '\n' ∈ w
    · obtain rfl := newline_alone member matched newline
      have later : s.lineno < (s.countLines ['\n']).lineno := Nat.lt_succ_self _
      rcases newline_rules member with avoids |
        ⟨-, ⟨mode, action⟩ | ⟨mode, action⟩ | ⟨mode, action⟩⟩
      · exact absurd newline (Pattern.not_mem_of_avoids_single avoids matched)
      all_goals
        rw [action]
        refine ⟨fun going => ?_, fun impossible => nomatch impossible⟩
        obtain ⟨rfl, rfl⟩ := Step.next.inj going
        rcases last with rfl | last
      · exact Or.inr ⟨rfl, later, Or.inl ⟨mode, rfl⟩⟩
      · exact Or.inl last
      · exact Or.inr ⟨rfl, later, Or.inl ⟨rfl, rfl⟩⟩
      · exact Or.inl last
      · exact Or.inr ⟨rfl, later, Or.inr mode⟩
      · exact Or.inl last
    · have last : tail.getLast? = some '\n' := by
        refine last.resolve_left fun empty => newline ?_
        rw [empty, List.append_nil] at own
        exact own ▸ List.mem_append_right before List.mem_cons_self
      have whole : (w ++ tail).getLast? = some '\n' := own ▸ List.getLast?_concat
      by_cases plain : r.action = .layout
      · rw [plain]
        rcases layout_cases (s.countLines w) (w ++ tail)
          with ⟨-, same⟩ | ⟨-, same⟩ | ⟨-, same⟩
        · refine ⟨fun going => (nomatch same.symm.trans going), fun going => ?_⟩
          obtain ⟨-, -, rfl⟩ := Step.token.inj (same.symm.trans going)
          exact whole
        · refine ⟨fun going => (nomatch same.symm.trans going), fun going => ?_⟩
          obtain ⟨-, -, rfl⟩ := Step.token.inj (same.symm.trans going)
          exact whole
        · refine ⟨fun going => ?_, fun going => nomatch same.symm.trans going⟩
          obtain ⟨-, rfl⟩ := Step.next.inj (same.symm.trans going)
          exact Or.inl whole
      · obtain ⟨after, same | ⟨kind, val, same, -⟩, -⟩ :=
          perform_cases (s := s.countLines w) plain w tail
        · refine ⟨fun going => ?_, fun going => nomatch same.symm.trans going⟩
          obtain ⟨-, rfl⟩ := Step.next.inj (same.symm.trans going)
          exact Or.inl last
        · refine ⟨fun going => (nomatch same.symm.trans going), fun going => ?_⟩
          obtain ⟨-, -, rfl⟩ := Step.token.inj (same.symm.trans going)
          exact last

/-- A run over whole lines and what follows them passes the place between. What it returns
before that place does not depend on what follows. -/
theorem Scans.passes (scans : Scans s (u ++ v) lexemes s' []) (ends : u.getLast? = some '\n') :
    ∃ before later s₁, lexemes = before ++ later ∧ (∀ rest, Scans s (u ++ rest) before s₁ rest) ∧
      Scans s₁ v later s' [] ∧ s.lineno < s₁.lineno ∧ Between s₁ := by
  generalize whole : u ++ v = text at scans
  generalize final : ([] : Text) = rest at scans
  induction scans generalizing u with
  | refl =>
      obtain ⟨rfl, -⟩ := List.append_eq_nil_iff.mp (whole.trans final.symm)
      exact nomatch ends
  | @next s s₂ _ _ text₂ _ _ stepped scans ih =>
      subst whole
      have same := @step_append s u ends
      rw [same] at stepped
      cases own : s.step u with
      | next s₁ rest =>
          rw [own] at stepped
          obtain ⟨rfl, rfl⟩ := Step.next.inj stepped
          rcases (step_ends ends).1 own with last | ⟨rfl, later, between⟩
          · obtain ⟨before, later, s₃, rfl, first, second, line, between⟩ := ih last rfl final
            refine ⟨before, later, s₃, rfl, fun more => .next ?_ (first more), second,
              Nat.lt_of_le_of_lt (step_next_lineno own) line, between⟩
            rw [same, own]
            rfl
          · refine ⟨[], _, s₁, rfl, fun more => .next ?_ .refl, ?_, later, between⟩
            · rw [same, own]
              rfl
            · subst final
              exact scans
      | _ => exact nomatch (congrArg (Step.append v) own).symm.trans stepped
  | @token s s₂ _ _ text₂ _ lexeme _ stepped scans ih =>
      subst whole
      have same := @step_append s u ends
      rw [same] at stepped
      cases returned : s.step u with
      | token own s₁ rest =>
          rw [returned] at stepped
          obtain ⟨rfl, rfl, rfl⟩ := Step.token.inj stepped
          obtain ⟨before, later, s₃, rfl, first, second, line, between⟩ :=
            ih ((step_ends ends).2 returned) rfl final
          obtain ⟨start, here⟩ := step_token_lineno returned
          refine ⟨own :: before, later, s₃, rfl, fun more => .token ?_ (first more), second,
            by omega, between⟩
          rw [same, returned]
          rfl
      | _ => exact nomatch (congrArg (Step.append v) returned).symm.trans stepped

theorem unlines_count {lines : List Text} (blank : ∀ line ∈ lines, line.all isBlank = true) :
    (unlines lines).count '\n' = lines.length := by
  induction lines with
  | nil => rfl
  | cons line lines ih =>
      have flat : line.count '\n' = 0 := List.count_eq_zero.mpr fun member =>
        absurd (List.all_eq_true.mp (blank line List.mem_cons_self) _ member) (by decide)
      have others := ih fun other member => blank other (List.mem_cons_of_mem _ member)
      have split : unlines (line :: lines) = line ++ ['\n'] ++ unlines lines := rfl
      rw [split, List.count_append, List.count_append, flat, others, List.length_cons,
        List.count_singleton_self]
      omega

/-- Within annotations, white space is ignored. -/
theorem scans_anno (anno : s.mode = .anno) {white : Text}
    (all : ∀ c ∈ white, c = ' ' ∨ c = '\t' ∨ c = '\n') :
    Scans s (white ++ text) [] (s.countLines white) text := by
  induction white generalizing s with
  | nil => exact .refl
  | cons c white ih =>
      have others := ih (s := s.countLines [c]) anno fun d member =>
        all d (List.mem_cons_of_mem _ member)
      have lines : (s.countLines [c]).countLines white = s.countLines (c :: white) := by
        have counts : s.lineno + [c].count '\n' + white.count '\n' =
            s.lineno + (c :: white).count '\n' := by
          rw [Nat.add_assoc, ← List.count_append]
          rfl
        rw [countLines, countLines, countLines]
        exact congrArg (fun lineno => { s with lineno }) counts
      rw [lines] at others
      have open' : ¬ closing <+: c :: (white ++ text) := by
        rintro ⟨after, same⟩
        obtain ⟨rfl, -⟩ := List.cons.inj same
        exact absurd (all _ List.mem_cons_self) (by decide)
      exact .next (step_anno anno open') others

/-- Between two lines, blank lines are only counted. -/
theorem Between.scans (between : Between s) {lines : List Text}
    (blank : ∀ line ∈ lines, line.all isBlank = true) :
    Scans s (unlines lines ++ text) [] (s.shift lines.length) text := by
  rcases between with ⟨indenting, fresh⟩ | anno
  · exact scans_blank_lines indenting fresh blank
  · have scans := @scans_anno s text anno (unlines lines) fun c member => by
      obtain ⟨line, listed, within⟩ := List.mem_flatMap.mp member
      rcases List.mem_append.mp within with inner | newline
      · have own := of_decide_eq_true (List.all_eq_true.mp (blank line listed) c inner)
        rcases own with white | white
        · exact Or.inl white
        · exact Or.inr (Or.inl white)
      · exact Or.inr (Or.inr (List.mem_singleton.mp newline))
    rw [countLines, unlines_count blank] at scans
    exact scans

/-- Blank lines between two lines move the tokens after them down. -/
theorem Scanned.insert {lineno : Nat} {eof : Lexeme} (positive : 1 ≤ lineno)
    (scanned : Scanned lineno (u ++ v) lexemes eof) (ends : u.getLast? = some '\n')
    {lines : List Text} (blank : ∀ line ∈ lines, line.all isBlank = true) :
    ∃ before later, lexemes = before ++ later ∧
      Scanned lineno (u ++ (unlines lines ++ v)) (before ++ later.map (shiftLexeme lines.length))
        (shiftLexeme lines.length eof) := by
  obtain ⟨s', scans, ended⟩ := scanned
  obtain ⟨before, later, s₁, rfl, first, second, line, between⟩ := scans.passes ends
  have away : 1 < s₁.lineno := Nat.lt_of_le_of_lt positive line
  have moved := second.shift lines.length (Nat.le_of_lt away) fun lexeme member _ => by
    have own := (second.lines.2.1 lexeme member).1
    omega
  have final := @step_shift s' [] lines.length (Nat.le_trans (Nat.le_of_lt away) second.lines.1)
    fun lexeme s'' rest returned => nomatch ended.symm.trans returned
  rw [ended] at final
  exact ⟨before, later, rfl, _, (first _).trans ((between.scans blank).trans moved), final⟩

/-- Blank lines before the first line move all tokens down, if there is no dot on it. -/
theorem Scanned.insert_top {lineno : Nat} {eof : Lexeme} (positive : 1 ≤ lineno)
    (scanned : Scanned lineno text lexemes eof)
    (apart : ∀ lexeme ∈ lexemes, lexeme.kind = .char '.' → lexeme.line ≠ 1)
    {lines : List Text} (blank : ∀ line ∈ lines, line.all isBlank = true) :
    Scanned lineno (unlines lines ++ text) (lexemes.map (shiftLexeme lines.length))
      (shiftLexeme lines.length eof) := by
  obtain ⟨s', scans, ended⟩ := scanned
  have between : Between (new lineno) := Or.inl ⟨rfl, rfl⟩
  have moved := scans.shift lines.length positive apart
  have final := @step_shift s' [] lines.length (Nat.le_trans positive scans.lines.1)
    fun lexeme s'' rest returned => nomatch ended.symm.trans returned
  rw [ended] at final
  exact ⟨_, (between.scans blank).trans moved, final⟩

end Lexical

section Rules

/-- The nonterminals of modules. -/
def moduleNames : List Nonterminal := [.module, .extmodule, .intmodule]

/-- Every token but a dot. -/
def dotless (kind : Kind) : Bool := decide (kind ≠ .char '.')

/-- The nonterminals before the body of a module. -/
def headNames : List Nonterminal := [.opt_public, .ALLID, .info]

/-- Before the body of a module, there is a keyword, and no dot. -/
theorem module_opens {name : Nonterminal} (module : name ∈ moduleNames) {tree : ParseTree}
    (fits : Fits grammar (.nonterm name) tree) :
    ∃ before opening after, tree.word = before ++ opening :: after ∧
      opening.kind = .token .INDENT ∧ (∃ first ∈ before, first.kind.isLayout = false) ∧
      ∀ lexeme ∈ before, lexeme.kind ≠ .char '.' := by
  obtain ⟨rule, line, children, p, rfl, found, rfl, fit⟩ := node_of_fits fits
  have checked := production_check (fun p _ => decide (p.lhs ∉ moduleNames) ||
    let before := p.rhs.takeWhile fun symbol => decide (symbol ≠ t .INDENT)
    decide (p.rhs = before ++ t .INDENT :: p.rhs.drop (before.length + 1)) &&
      before.any (fun symbol => decide (symbol ∈ [t .Module, t .Extmodule, t .Intmodule])) &&
      before.all (leadsTo headNames [] dotless)) (by decide +kernel) found
  simp only [module, not_true_eq_false, decide_false, Bool.false_or, Bool.and_eq_true,
    decide_eq_true_eq, List.any_eq_true, List.all_eq_true] at checked
  obtain ⟨⟨split, symbol, keyword, own⟩, plain⟩ := checked
  rw [split] at fit
  obtain ⟨left, _, rfl, lead, rest⟩ := LR.Tree.fit_append fit
  obtain ⟨_, right, head, tail, rfl⟩ := List.forall₂_cons_left_iff.mp rest
  obtain ⟨opening, rfl, kind⟩ := head.term
  refine ⟨words left, opening, words right, ?_, kind, ?_, fun lexeme member => ?_⟩
  · rw [LR.Tree.word, LR.Tree.words_append]
    rfl
  · obtain ⟨tree, listed, fits⟩ := LR.Tree.tree_of_mem lead keyword
    simp only [List.mem_cons, List.not_mem_nil, or_false] at own
    rcases own with rfl | rfl | rfl
    all_goals
      obtain ⟨first, rfl, kind⟩ := fits.term
      exact ⟨first, LR.Tree.mem_words.mpr ⟨_, listed, List.mem_singleton_self _⟩, by rw [kind]; rfl⟩
  · obtain ⟨tree, listed, within⟩ := LR.Tree.mem_words.mp member
    obtain ⟨symbol, mentioned, fits⟩ := LR.Tree.symbol_of_mem lead listed
    rcases part_of_mem headNames [] dotless (by decide +kernel) fits (plain symbol mentioned) within
      with kind | ⟨_, impossible, -⟩
    · exact of_decide_eq_true kind
    · cases impossible

/-- The kinds of the tokens of the version. -/
def versionKinds : List Kind :=
  [.token .Firrtl, .token .Version, .token .INT, .char '.', .token .INT, .char '.', .token .INT]

/-- The kinds of the tokens for terminals. -/
theorem kinds_of_terms {kinds : List Kind} {trees : List ParseTree}
    (fit : List.Forall₂ (Fits grammar) (kinds.map LR.Symbol.term) trees) :
    (words trees).map (fun lexeme => lexeme.kind) = kinds := by
  induction kinds generalizing trees with
  | nil =>
      obtain rfl := List.forall₂_nil_left_iff.mp fit
      rfl
  | cons kind kinds ih =>
      obtain ⟨_, others, head, rest, rfl⟩ := List.forall₂_cons_left_iff.mp fit
      obtain ⟨lexeme, rfl, rfl⟩ := head.term
      exact congrArg (lexeme.kind :: ·) (ih rest)

/-- A circuit begins with the version, or it is a list of modules between layout tokens. -/
theorem circuit_cases {tree : ParseTree} (fits : Fits grammar (.nonterm .circuit) tree) :
    (∃ rest, tree.word.map (fun lexeme => lexeme.kind) = versionKinds ++ rest) ∨
      ∃ opening modules closing, tree.word = opening :: (modules.word ++ [closing]) ∧
        opening.kind = .token .INDENT ∧ closing.kind = .token .DEDENT ∧
        Fits grammar (.nonterm .cir_mods) modules := by
  obtain ⟨rule, line, children, p, rfl, found, circuit, fit⟩ := node_of_fits fits
  have checked := production_check (fun p _ => decide (p.lhs ≠ .circuit) ||
    (decide (p.rhs.head? = some (n .version)) ||
      decide (p.rhs = [t .INDENT, n .cir_mods, t .DEDENT]))) (by decide +kernel) found
  simp only [circuit, ne_eq, not_true_eq_false, decide_false, Bool.false_or, Bool.or_eq_true,
    decide_eq_true_eq] at checked
  rcases checked with versioned | bare
  · obtain ⟨others, same⟩ := List.head?_eq_some_iff.mp versioned
    rw [same] at fit
    obtain ⟨version, trees, head, -, rfl⟩ := List.forall₂_cons_left_iff.mp fit
    obtain ⟨rule, line, children, p, rfl, found, named, fit⟩ := node_of_fits head
    have checked := production_check (fun p _ => decide (p.lhs ≠ .version) ||
      decide (p.rhs = versionKinds.map LR.Symbol.term)) (by decide +kernel) found
    simp only [named, ne_eq, not_true_eq_false, decide_false, Bool.false_or,
      decide_eq_true_eq] at checked
    rw [checked] at fit
    refine Or.inl ⟨(words trees).map fun lexeme => lexeme.kind, ?_⟩
    rw [LR.Tree.word, words, List.map_append, LR.Tree.word, kinds_of_terms fit]
  · rw [bare] at fit
    obtain ⟨_, _, head, two, rfl⟩ := List.forall₂_cons_left_iff.mp fit
    obtain ⟨modules, _, inner, one, rfl⟩ := List.forall₂_cons_left_iff.mp two
    obtain ⟨_, _, last, none, rfl⟩ := List.forall₂_cons_left_iff.mp one
    obtain rfl := List.forall₂_nil_left_iff.mp none
    obtain ⟨opening, rfl, opens⟩ := head.term
    obtain ⟨closing, rfl, closes⟩ := last.term
    exact Or.inr ⟨opening, modules, closing, rfl, opens, closes, inner⟩

end Rules

variable {lineno : Nat} {text u v : Text}

/-- The first token is not that of the version. -/
def Headless (lexemes : List Lexeme) : Prop :=
  ∀ lexeme ∈ lexemes.head?, lexeme.kind ≠ .token .Firrtl

/-- Without the version, there is no dot on the first line. -/
theorem Parse.dotless_top (parse : Parse lineno text) (positive : 1 ≤ lineno)
    (headless : Headless parse.lexemes) :
    ∀ lexeme ∈ parse.lexemes, lexeme.kind = .char '.' → lexeme.line ≠ 1 := by
  obtain ⟨fits, tokens⟩ := parse.fits
  intro lexeme member dot
  rcases circuit_cases fits with ⟨rest, whole⟩ | ⟨opening, modules, closing, whole, opens, closes,
    inner⟩
  · rw [tokens] at whole
    obtain ⟨first, others, same, kind, -⟩ := List.map_eq_cons_iff.mp whole
    exact absurd kind (headless first (by rw [same]; rfl))
  · have within : lexeme ∈ modules.word := by
      rw [← tokens, whole, List.mem_cons, List.mem_append, List.mem_singleton] at member
      rcases member with rfl | inside | rfl
      · cases dot.symm.trans opens
      · exact inside
      · cases dot.symm.trans closes
    rcases part_of_mem [.cir_mods] moduleNames (fun _ => false) (by decide +kernel) inner rfl within
      with impossible | ⟨name, listed, part, own, inside, member⟩
    · cases impossible
    · obtain ⟨before, own', after, split, opens', ⟨first, early, plain⟩, dotless⟩ :=
        module_opens listed own
      obtain ⟨left, right, around⟩ := inside.infix
      obtain ⟨init, between, rfl⟩ := List.append_of_mem early
      have tokens' : parse.lexemes = (opening :: (left ++ init)) ++ first :: (between ++
          own' :: (after ++ (right ++ [closing]))) := by
        rw [← tokens, whole, ← around, split]
        simp
      obtain ⟨s, scans, -⟩ := parse.scanned
      have sorted := scans.lines.2.2
      have start := (scans.lines.2.1 first (by rw [tokens']; simp)).1
      rw [tokens'] at scans sorted
      have later := scans.layout_later plain (decide_eq_true (Or.inl opens'))
      have below : own'.line ≤ lexeme.line := by
        rw [split, List.mem_append, List.mem_cons] at member
        rcases member with head | rfl | body
        · exact absurd dot (dotless lexeme head)
        · exact Nat.le_refl _
        · have tail := (List.pairwise_append.mp sorted).2.1
          have tail' := (List.pairwise_append.mp (List.pairwise_cons.mp tail).2).2.1
          exact (List.pairwise_cons.mp tail').1 lexeme (List.mem_append_left _ body)
      have first' : (Lexical.new lineno).lineno = lineno := rfl
      omega

/-- Two parses have the same syntax tree, except for line numbers. -/
def Parse.Alike {text' : Text} (parse : Parse lineno text) (parse' : Parse lineno text') : Prop :=
  parse'.root.erase = parse.root.erase ∧
    parse'.list.map PNode.erase = parse.list.map PNode.erase

/-- The same tokens on other lines are parsed alike. -/
theorem Parse.alike_of_tokens {text' : Text} (parse : Parse lineno text) {lexemes : List Lexeme}
    {eof : Lexeme} (scanned : Lexical.Scanned lineno text' lexemes eof)
    (same : lexemes.map (LR.Lexeme.token Val.erase) =
      parse.lexemes.map (LR.Lexeme.token Val.erase)) :
    ∃ parse' : Parse lineno text', parse.Alike parse' := by
  have parsed := (accepts_iff parse.scanned.kinds.1 parse.scanned.kinds.2).mp
    ⟨_, _, parse.accepted, rfl, rfl⟩
  rw [← same] at parsed
  obtain ⟨parse', -, root, list⟩ := Parse.of_scanned scanned parsed
  exact ⟨parse', root, list⟩

/-- A token does not depend on its line. -/
theorem token_shiftLexeme (count : Nat) (lexemes : List Lexeme) :
    (lexemes.map (shiftLexeme count)).map (LR.Lexeme.token Val.erase) =
      lexemes.map (LR.Lexeme.token Val.erase) := by
  rw [List.map_map]
  rfl

/-- **Blank lines.** Blank lines may be inserted between two lines of an accepted text, and
before its first line if its first token is not that of the version: the text is still
accepted, with the same syntax tree except for line numbers. -/
theorem Parse.insert_blank (parse : Parse lineno (u ++ v)) (positive : 1 ≤ lineno)
    (place : u.getLast? = some '\n' ∨ (u = [] ∧ Headless parse.lexemes)) {lines : List Text}
    (blank : ∀ line ∈ lines, line.all isBlank = true) :
    ∃ parse' : Parse lineno (u ++ (unlines lines ++ v)), parse.Alike parse' := by
  rcases place with ends | ⟨rfl, headless⟩
  · obtain ⟨before, later, split, scanned⟩ := parse.scanned.insert positive ends blank
    refine parse.alike_of_tokens scanned ?_
    rw [split, List.map_append, List.map_append, token_shiftLexeme]
  · have scanned := parse.scanned.insert_top positive (parse.dotless_top positive headless) blank
    exact parse.alike_of_tokens scanned (token_shiftLexeme _ _)

/-- A blank line within a module. -/
theorem insert_blank_skip : ∃ (parse : Parse 1 ("  module M :\n".toList ++ "    skip\n".toList))
    (parse' : Parse 1 ("  module M :\n".toList ++ (unlines [[' ']] ++ "    skip\n".toList))),
    parse.Alike parse' := by
  obtain ⟨parse, -⟩ := Parse.of_statement 40 1
    ("  module M :\n".toList ++ "    skip\n".toList) parses_skip (by decide) (by decide +kernel)
  exact ⟨parse, parse.insert_blank (by decide) (Or.inl rfl) (by decide)⟩

/-- A circuit with its version. -/
def versionedText : Text := "FIRRTL version 3.3.0\ncircuit M :\n  module M :\n    skip\n".toList

/-- A newline before the version is not accepted. -/
theorem version_moved : ¬ ∀ (u v : Text) (parse : Parse 1 (u ++ v)) (lines : List Text),
    u = [] ∨ u.getLast? = some '\n' → (∀ line ∈ lines, line.all isBlank = true) →
    ∃ parse' : Parse 1 (u ++ (unlines lines ++ v)), parse.Alike parse' := by
  intro inserted
  obtain ⟨list, modules, -⟩ := parses_skipModules (1, 7) [nameM] (.token .DEDENT)
  obtain ⟨root, circuit, -⟩ := parses_versioned nameM modules
  have scanned : (Lexical.run 60 (Lexical.new 1) versionedText).any (fun result =>
        spell result.1 (versionTokens ++ (kw .Circuit :: nameM.token :: ch ':' :: kw .INDENT ::
          ([nameM].flatMap skipModule ++ [kw .DEDENT])))) = true := by
    decide +kernel
  obtain ⟨⟨lexemes, s⟩, found, spelled⟩ := (Option.any_eq_true _ _).mp scanned
  obtain ⟨eof, scanned⟩ := Lexical.scanned_of_run found
  rw [← map_token_of_spell spelled] at circuit
  obtain ⟨parse, -⟩ := Parse.of_scanned scanned circuit
  obtain ⟨parse', -⟩ := inserted [] versionedText parse [[]] (Or.inl rfl) (by decide)
  have moved : (Lexical.run 60 (Lexical.new 1) ('\n' :: versionedText)).any (fun result =>
        decide ((result.1.map fun lexeme => lexeme.kind).take 5 =
          [.token .Firrtl, .token .Version, .token .INT, .char '.', .token .ID])) = true := by
    decide +kernel
  obtain ⟨⟨others, s'⟩, found', kinds⟩ := (Option.any_eq_true _ _).mp moved
  obtain ⟨eof', scanned'⟩ := Lexical.scanned_of_run found'
  obtain ⟨fits, tokens⟩ := parse'.fits
  obtain ⟨rfl, -⟩ := scanned'.unique parse'.scanned
  have kinds := of_decide_eq_true kinds
  rw [← tokens] at kinds
  rcases circuit_cases fits with ⟨rest, versioned⟩ | ⟨opening, modules, closing, bare, opens, -⟩
  · rw [versioned] at kinds
    exact nomatch kinds
  · rw [bare, List.map_cons, opens] at kinds
    exact nomatch kinds

end FstWaveDemo
