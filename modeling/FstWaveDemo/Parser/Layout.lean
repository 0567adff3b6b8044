import FstWaveDemo.Parser.Scan

/-! # The off-side rule

The open indentation levels of the scanner form a strictly increasing stack with
bottom 0 (`FstWaveDemo.Levels`), and the layout tokens it returns are those of the
off-side rule (`FstWaveDemo.offside`). At the end of input the remaining levels are
closed only in the start condition `indent`, so the layout tokens are balanced
exactly if the last line is blank or is not indented.
-/

namespace FstWaveDemo

/-- White space of an indentation. -/
def isBlank (c : Char) : Bool := decide (c = ' ' ∨ c = '\t')

/-- Lines, each with its newline. -/
def unlines (lines : List Text) : Text := lines.flatMap (· ++ ['\n'])

/-- The column after one more character of an indentation: a tab steps to the next
even column. -/
def nextColumn (column : Nat) (c : Char) : Nat :=
  if c = '\t' then column + 2 - column % 2 else column + 1

/-- The column of a line with the given indentation. -/
def column (indentation : Text) : Nat := indentation.foldl nextColumn 0

theorem le_foldl_nextColumn (start : Nat) (white : Text) :
    start ≤ white.foldl nextColumn start := by
  induction white generalizing start with
  | nil => exact Nat.le_refl _
  | cons c white ih =>
      have onward := ih (nextColumn start c)
      have step : start ≤ nextColumn start c := by
        rw [nextColumn]
        split <;> omega
      exact Nat.le_trans step onward

theorem column_eq_zero {white : Text} : column white = 0 ↔ white = [] := by
  constructor
  · intro zero
    cases white with
    | nil => rfl
    | cons c white =>
        have onward := le_foldl_nextColumn (nextColumn 0 c) white
        have step : 0 < nextColumn 0 c := by
          rw [nextColumn]
          split <;> omega
        have same : column (c :: white) = white.foldl nextColumn (nextColumn 0 c) := rfl
        omega
  · rintro rfl
    rfl

/-- A stack of indentation levels, top first: strictly increasing from bottom 0. -/
structure Levels (levels : List Nat) : Prop where
  increasing : levels.Pairwise (· > ·)
  bottom : levels.getLast? = some 0

/-- The layout tokens for a line at the given column: a DEDENT for every level
greater than the column, then an INDENT if the column is still greater than the
remaining top. -/
def offside (levels : List Nat) (column : Nat) : List TokenName :=
  List.replicate (levels.countP (column < ·)) .DEDENT ++
    if (levels.filter (· ≤ column)).headD 0 < column then [.INDENT] else []

/-- The levels after a line at the given column. -/
def opened (levels : List Nat) (column : Nat) : List Nat :=
  let remaining := levels.filter (· ≤ column)
  if remaining.headD 0 < column then column :: remaining else remaining

namespace Levels

theorem start : Levels [0] := ⟨List.pairwise_singleton _ _, rfl⟩

theorem ne_nil {levels : List Nat} (ordered : Levels levels) : levels ≠ [] := by
  rintro rfl
  exact absurd ordered.bottom (by simp)

theorem push {levels : List Nat} (ordered : Levels levels) {column : Nat}
    (above : levels.headD 0 < column) : Levels (column :: levels) := by
  cases levels with
  | nil => exact absurd rfl ordered.ne_nil
  | cons top levels =>
      refine ⟨List.pairwise_cons.mpr ⟨fun level member => ?_, ordered.increasing⟩, ?_⟩
      · rcases List.mem_cons.mp member with rfl | member
        · exact above
        · exact Nat.lt_trans ((List.pairwise_cons.mp ordered.increasing).1 level member) above
      · rw [List.getLast?_cons_cons]
        exact ordered.bottom

theorem pop {levels : List Nat} (ordered : Levels levels) (some : levels.headD 0 ≠ 0) :
    Levels levels.tail := by
  obtain ⟨increasing, bottom⟩ := ordered
  match levels with
  | [] => exact absurd bottom (by simp)
  | [level] => exact absurd (by simpa using bottom) some
  | top :: level :: levels =>
      rw [List.getLast?_cons_cons] at bottom
      exact ⟨(List.pairwise_cons.mp increasing).2, bottom⟩

/-- Only the bottom level is 0. -/
theorem eq_bottom {levels : List Nat} (ordered : Levels levels) (closed : levels.headD 0 = 0) :
    levels = [0] := by
  match levels with
  | [] => exact absurd rfl ordered.ne_nil
  | [level] => exact congrArg (fun level => [level]) closed
  | top :: level :: levels =>
      have below := (List.pairwise_cons.mp ordered.increasing).1 level List.mem_cons_self
      have zero : top = 0 := closed
      omega

/-- Only the bottom level is left when as many levels were closed as opened. -/
theorem balanced_iff {levels : List Nat} (ordered : Levels levels) :
    levels.length = 1 ↔ levels.headD 0 = 0 := by
  constructor
  · intro single
    obtain ⟨level, rfl⟩ := List.length_eq_one_iff.mp single
    simpa using ordered.bottom
  · intro closed
    rw [ordered.eq_bottom closed]
    rfl

end Levels

/-- The number of tokens of a kind. -/
def countToken (name : TokenName) (lexemes : List Lexeme) : Nat :=
  lexemes.countP fun lexeme => lexeme.kind = .token name

namespace Lexical

open Flex (CharSet Pattern)

variable {s s' : Lexical} {text rest : Text} {lexemes : List Lexeme}

theorem mem_any (c : Char) : CharSet.mem [('\x00', '\x09'), ('\x0b', Char.ofNat 0x10ffff)] c =
    decide (c ≠ '\n') := by
  have within := Flex.CharSet.mem_iff.mp (CharSet.mem_all c)
  rw [Bool.eq_iff_iff, Flex.CharSet.mem_iff, decide_eq_true_eq]
  constructor
  · rintro ⟨range, listed, low, high⟩ rfl
    simp only [List.mem_cons, List.not_mem_nil, or_false] at listed
    rcases listed with rfl | rfl
    · exact absurd high (by decide)
    · exact absurd low (by decide)
  · intro other
    have distinct : c.toNat ≠ 10 := fun same => other (Char.toNat_inj.mp same)
    by_cases small : c.toNat ≤ 9
    · exact ⟨_, List.mem_cons_self, Nat.zero_le _, small⟩
    · refine ⟨_, List.mem_cons_of_mem _ List.mem_cons_self, ?_, ?_⟩
      · change 11 ≤ c.toNat
        omega
      · obtain ⟨range, listed, -, high⟩ := within
        obtain rfl := List.mem_singleton.mp listed
        exact high

theorem select_indent (c : Char) (text : Text) :
    Flex.select Rules.indentRules (c :: text) =
      if c = ' ' then some (1, .space) else if c = '\t' then some (1, .tab)
      else if c = '\n' then some (1, .newline) else some (1, .layout) := by
  have one (d : Char) : Pattern.longest (c :: text) (.cat (.chars [(d, d)]) .empty) =
      if c = d then some 1 else none := by
    simpa [CharSet.mem_single] using Pattern.longest_char [(d, d)] c text
  have space : Pattern.longest (c :: text) (Pattern.lit " ") = _ := one ' '
  have tab : Pattern.longest (c :: text) (Pattern.lit "\t") = _ := one '\t'
  have newline : Pattern.longest (c :: text) (Pattern.lit "\n") = _ := one '\n'
  have other : Pattern.longest (c :: text) Rules.any = if c ≠ '\n' then some 1 else none := by
    rw [Rules.any, Rules.set, Pattern.longest_chars, mem_any]
    simp only [decide_eq_true_eq]
  simp only [Flex.select, Rules.indentRules, space, tab, newline, other]
  by_cases isSpace : c = ' '
  · simp [isSpace]
  · by_cases isTab : c = '\t'
    · simp [isTab]
    · by_cases isNewline : c = '\n'
      · simp [isNewline]
      · simp [isSpace, isTab, isNewline]

/-- A step at an indentation character. -/
theorem step_blank (indenting : s.mode = .indent) {c : Char} (blank : isBlank c = true) :
    s.step (c :: text) = .next { s with curr_indent := nextColumn s.curr_indent c } text := by
  have selected := select_indent c text
  rcases of_decide_eq_true blank with rfl | rfl
  · exact step_selected (by rw [indenting]; exact selected)
  · have even : s.curr_indent + 2 - Nat.land (s.curr_indent + 2) 1 =
        s.curr_indent + 2 - s.curr_indent % 2 := by
      have parity : Nat.land (s.curr_indent + 2) 1 = (s.curr_indent + 2) % 2 := Nat.and_one_is_mod _
      rw [parity, Nat.add_mod_right]
    rw [step_selected (by rw [indenting]; exact selected)]
    exact congrArg (fun indent => Step.next { s with curr_indent := indent } text) even

/-- A step at the newline of a blank line. -/
theorem step_newline (indenting : s.mode = .indent) :
    s.step ('\n' :: text) = .next { s with lineno := s.lineno + 1, curr_indent := 0 } text :=
  step_selected (by rw [indenting]; exact select_indent '\n' text)

/-- A step at the first character of a line. -/
theorem step_line (indenting : s.mode = .indent) {c : Char} (blank : isBlank c = false)
    (solid : c ≠ '\n') : s.step (c :: text) = layout s (c :: text) := by
  have apart := of_decide_eq_false blank
  rw [not_or] at apart
  have selected := select_indent c text
  rw [if_neg apart.1, if_neg apart.2, if_neg solid] at selected
  rw [step_selected (by rw [indenting]; exact selected)]
  change perform (s.countLines [c]) [c] text .layout = _
  rw [countLines_eq (by simpa using solid.symm)]
  rfl

/-- Reading the indentation of a line. -/
theorem scans_blanks (indenting : s.mode = .indent) {blanks : Text}
    (blank : blanks.all isBlank = true) :
    Scans s (blanks ++ rest) [] { s with curr_indent := blanks.foldl nextColumn s.curr_indent }
      rest := by
  induction blanks generalizing s with
  | nil => exact .refl
  | cons c blanks ih =>
      rw [List.all_cons, Bool.and_eq_true] at blank
      exact .next (step_blank indenting blank.1) (ih indenting blank.2)

/-- Reading blank lines. -/
theorem scans_blank_lines (indenting : s.mode = .indent) (fresh : s.curr_indent = 0)
    {lines : List Text} (blank : ∀ line ∈ lines, line.all isBlank = true) :
    Scans s (unlines lines ++ rest) [] { s with lineno := s.lineno + lines.length }
      rest := by
  induction lines generalizing s with
  | nil => exact .refl
  | cons line lines ih =>
      have first : Scans s (line ++ '\n' :: (unlines lines ++ rest)) [] _
          ('\n' :: (unlines lines ++ rest)) :=
        scans_blanks indenting (blank line List.mem_cons_self)
      have others := ih (s := { s with lineno := s.lineno + 1, curr_indent := 0 }) indenting rfl
        fun other member => blank other (List.mem_cons_of_mem _ member)
      have whole := first.trans (.next (step_newline indenting) others)
      have moved : s.lineno + 1 + lines.length = s.lineno + (line :: lines).length := by
        rw [List.length_cons]
        omega
      rw [moved, ← fresh] at whole
      simpa [unlines] using whole

theorem offside_pop {top column : Nat} {levels : List Nat} (above : column < top) :
    offside (top :: levels) column = .DEDENT :: offside levels column ∧
      opened (top :: levels) column = opened levels column := by
  have dropped : ¬ top ≤ column := by omega
  simp [offside, opened, above, dropped, List.replicate_succ]

theorem offside_stay {top column : Nat} {levels : List Nat}
    (ordered : (top :: levels).Pairwise (· > ·)) (below : top ≤ column) :
    offside (top :: levels) column = (if top < column then [.INDENT] else []) ∧
      opened (top :: levels) column =
        if top < column then column :: top :: levels else top :: levels := by
  have lower : ∀ level ∈ top :: levels, level ≤ column := by
    intro level member
    rcases List.mem_cons.mp member with rfl | member
    · exact below
    · exact Nat.le_of_lt
        (Nat.lt_of_lt_of_le ((List.pairwise_cons.mp ordered).1 level member) below)
  have none : (top :: levels).countP (column < ·) = 0 :=
    List.countP_eq_zero.mpr fun level member => by simpa using lower level member
  have all : (top :: levels).filter (· ≤ column) = top :: levels :=
    List.filter_eq_self.mpr fun level member => by simpa using lower level member
  constructor
  · rw [offside, none, all]
    rfl
  · rw [opened, all]
    rfl

/-- The layout tokens before the first character of a line. -/
theorem scans_layout (indenting : s.mode = .indent) (ordered : Levels s.indentLevels) {c : Char}
    (blank : isBlank c = false) (solid : c ≠ '\n') :
    ∃ lexemes, Scans s (c :: rest) lexemes
        { s with mode := .normal, indentLevels := opened s.indentLevels s.curr_indent }
        (c :: rest) ∧
      lexemes.map (fun lexeme => lexeme.kind) =
        (offside s.indentLevels s.curr_indent).map Kind.token := by
  generalize same : s.indentLevels = levels at ordered
  induction levels generalizing s with
  | nil => exact absurd rfl ordered.ne_nil
  | cons top levels ih =>
      have head : s.top = top := by rw [Lexical.top, same]; rfl
      have stepped : s.step (c :: rest) = layout s (c :: rest) := step_line indenting blank solid
      rcases layout_cases s (c :: rest) with ⟨above, found⟩ | ⟨below, found⟩ | ⟨level, found⟩
      · obtain ⟨tokens, levels'⟩ := offside_stay ordered.increasing (by omega : top ≤ s.curr_indent)
        rw [head] at above
        rw [tokens, levels', if_pos above, if_pos above, ← same]
        exact ⟨_, .token (stepped.trans found) .refl, rfl⟩
      · rw [head] at below
        obtain ⟨tokens, levels'⟩ := @offside_pop _ _ levels below
        have closer : Levels levels := by
          have popped := ordered.pop (by change top ≠ 0; omega)
          exact popped
        obtain ⟨lexemes, scans, kinds⟩ := ih (s := { s with indentLevels := s.indentLevels.tail })
          indenting (by rw [same]; rfl) closer
        rw [tokens, levels']
        exact ⟨_, .token (stepped.trans found) scans, by rw [List.map_cons, kinds]; rfl⟩
      · rw [head] at level
        obtain ⟨tokens, levels'⟩ := offside_stay ordered.increasing (by omega : top ≤ s.curr_indent)
        rw [tokens, levels', if_neg (by omega), if_neg (by omega), ← same]
        exact ⟨[], .next (stepped.trans found) .refl, rfl⟩

/-- A lexeme that opens a level, one that closes a level, or another one. -/
def Moves (s s' : Lexical) (lexeme : Lexeme) : Prop :=
  (lexeme.kind = .token .INDENT ∧ ∃ column, s.top < column ∧
      s'.indentLevels = column :: s.indentLevels) ∨
    (lexeme.kind = .token .DEDENT ∧ s.top ≠ 0 ∧ s'.indentLevels = s.indentLevels.tail) ∨
      (lexeme.kind ≠ .token .INDENT ∧ lexeme.kind ≠ .token .DEDENT ∧
        s'.indentLevels = s.indentLevels)

/-- What a step does to the open levels. -/
theorem step_levels {s' : Lexical} {text' : Text} :
    (s.step text = .next s' text' → s'.indentLevels = s.indentLevels) ∧
      ∀ {lexeme : Lexeme}, s.step text = .token lexeme s' text' → Moves s s' lexeme := by
  cases text with
  | nil =>
      rw [step, atEof]
      split
      · split
        · rename_i closing
          refine ⟨fun impossible => (by cases impossible), fun stepped => ?_⟩
          obtain ⟨rfl, rfl, -⟩ := Step.token.inj stepped
          exact Or.inr (Or.inl ⟨rfl, closing, rfl⟩)
        · exact ⟨fun impossible => (by cases impossible), fun impossible => (by cases impossible)⟩
      · exact ⟨fun impossible => (by cases impossible), fun impossible => (by cases impossible)⟩
  | cons c text =>
      rcases step_cons (s := s) (c := c) text with jam | ⟨r, member, yytext, rest, _, _, stepped⟩
      · rw [jam]
        exact ⟨fun impossible => (by cases impossible), fun impossible => (by cases impossible)⟩
      · rw [stepped]
        by_cases plain : r.action = .layout
        · rw [plain]
          rcases layout_cases (s.countLines yytext) (yytext ++ rest)
            with ⟨above, found⟩ | ⟨below, found⟩ | ⟨level, found⟩
          · refine ⟨fun going => (by cases found.symm.trans going), fun going => ?_⟩
            obtain ⟨rfl, rfl, -⟩ := Step.token.inj (found.symm.trans going)
            exact Or.inl ⟨rfl, _, above, rfl⟩
          · refine ⟨fun going => (by cases found.symm.trans going), fun going => ?_⟩
            obtain ⟨rfl, rfl, -⟩ := Step.token.inj (found.symm.trans going)
            exact Or.inr (Or.inl ⟨rfl, by change (s.countLines yytext).top ≠ 0; omega, rfl⟩)
          · refine ⟨fun going => ?_, fun going => by cases found.symm.trans going⟩
            obtain ⟨rfl, -⟩ := Step.next.inj (found.symm.trans going)
            rfl
        · obtain ⟨after, found | ⟨kind, val, found, named⟩, levels, -⟩ :=
            perform_cases (s := s.countLines yytext) plain yytext rest
          · refine ⟨fun going => ?_, fun going => by cases found.symm.trans going⟩
            obtain ⟨rfl, -⟩ := Step.next.inj (found.symm.trans going)
            exact levels
          · refine ⟨fun going => (by cases found.symm.trans going), fun going => ?_⟩
            obtain ⟨rfl, rfl, -⟩ := Step.token.inj (found.symm.trans going)
            refine Or.inr (Or.inr ⟨fun same => ?_, fun same => ?_, levels⟩)
            · exact (names_ne_layout member (named _ same)).1 rfl
            · exact (names_ne_layout member (named _ same)).2 rfl

/-- A run keeps the stack in order, and the stack grows by the INDENT and shrinks by
the DEDENT tokens returned. -/
theorem Scans.levels {text' : Text} (scans : Scans s text lexemes s' text')
    (ordered : Levels s.indentLevels) :
    Levels s'.indentLevels ∧
      countToken .INDENT lexemes + s.indentLevels.length =
        countToken .DEDENT lexemes + s'.indentLevels.length := by
  induction scans with
  | refl => exact ⟨ordered, rfl⟩
  | next stepped _ ih =>
      have same := step_levels.1 stepped
      rw [← same] at ordered ⊢
      exact ih ordered
  | @token s middle s' text _ _ lexeme lexemes stepped _ ih =>
      have opening : countToken .INDENT (lexeme :: lexemes) =
          countToken .INDENT lexemes + if lexeme.kind = .token .INDENT then 1 else 0 := by
        simp [countToken, List.countP_cons]
      have closing : countToken .DEDENT (lexeme :: lexemes) =
          countToken .DEDENT lexemes + if lexeme.kind = .token .DEDENT then 1 else 0 := by
        simp [countToken, List.countP_cons]
      rw [opening, closing]
      rcases step_levels.2 stepped with ⟨kind, column, above, pushed⟩ | ⟨kind, open', popped⟩ |
        ⟨kind, kind', same⟩
      · have pushing := ordered.push above
        rw [← pushed] at pushing
        obtain ⟨ordered', counts⟩ := ih pushing
        refine ⟨ordered', ?_⟩
        rw [pushed, List.length_cons] at counts
        rw [if_pos kind, if_neg (by rw [kind]; decide)]
        omega
      · have popping := ordered.pop open'
        rw [← popped] at popping
        obtain ⟨ordered', counts⟩ := ih popping
        refine ⟨ordered', ?_⟩
        have some := List.length_pos_iff.mpr ordered.ne_nil
        rw [popped, List.length_tail] at counts
        rw [if_pos kind, if_neg (by rw [kind]; decide)]
        omega
      · rw [← same] at ordered ⊢
        obtain ⟨ordered', counts⟩ := ih ordered
        rw [if_neg kind, if_neg kind']
        exact ⟨ordered', counts⟩

/-- The scanner is at the start of a line: at the start of input, or after a newline
handled in the start condition `normal` or `indent`. -/
inductive LineStart (lineno : Nat) (text : Text) : List Lexeme → Lexical → Text → Prop
  | start : LineStart lineno text [] (new lineno) text
  | newline {lexemes : List Lexeme} {s s' : Lexical} {rest : Text}
      (scans : Scans (new lineno) text lexemes s ('\n' :: rest))
      (handled : s.mode = .normal ∨ s.mode = .indent)
      (stepped : s.step ('\n' :: rest) = .next s' rest) : LineStart lineno text lexemes s' rest

/-- A step at a newline after the tokens of a line. -/
theorem step_lineEnd (normal : s.mode = .normal) :
    s.step ('\n' :: text) =
      .next { s with mode := .indent, lineno := s.lineno + 1, curr_indent := 0 } text := by
  have alone : Flex.settled CharSet.all Rules.normalRules ['\n'] = true ∧
      Flex.select Rules.normalRules ['\n'] = some (1, .lineEnd) := by decide +kernel
  refine @step_selected _ _ _ 1 .lineEnd ?_
  rw [normal]
  exact Flex.select_word (w := ['\n']) alone.1 alone.2 fun c _ => CharSet.mem_all c

/-- At the start of a line, the scanner counts its indentation from 0. -/
theorem LineStart.indenting {lineno : Nat} (starts : LineStart lineno text lexemes s rest) :
    Scans (new lineno) text lexemes s rest ∧ s.mode = .indent ∧ s.curr_indent = 0 := by
  cases starts with
  | start => exact ⟨.refl, rfl, rfl⟩
  | newline scans handled stepped =>
      have whole := scans.trans (.next stepped .refl)
      rw [List.append_nil] at whole
      refine ⟨whole, ?_⟩
      rcases handled with normal | indenting
      · obtain ⟨rfl, -⟩ := Step.next.inj ((step_lineEnd normal).symm.trans stepped)
        exact ⟨rfl, rfl⟩
      · obtain ⟨rfl, -⟩ := Step.next.inj ((step_newline indenting).symm.trans stepped)
        exact ⟨indenting, rfl⟩

/-- Reading from the start of a line to the first character of the next line that is
not blank. -/
theorem scans_line (indenting : s.mode = .indent) (fresh : s.curr_indent = 0)
    (ordered : Levels s.indentLevels) {blankLines : List Text} {indentation : Text} {c : Char}
    {more : Text} (blank : ∀ line ∈ blankLines, line.all isBlank = true)
    (white : indentation.all isBlank = true) (visible : isBlank c = false) (solid : c ≠ '\n') :
    ∃ returned s', Scans s (unlines blankLines ++ (indentation ++ c :: more)) returned s'
        (c :: more) ∧
      returned.map (fun lexeme => lexeme.kind) =
        (offside s.indentLevels (column indentation)).map Kind.token ∧
      s'.mode = .normal ∧ s'.indentLevels = opened s.indentLevels (column indentation) ∧
      s'.lineno = s.lineno + blankLines.length ∧ s'.curr_indent = column indentation := by
  obtain ⟨_, line, _, angle, square, bracket, parenthesis, levels⟩ := s
  obtain rfl : _ = Mode.indent := indenting
  obtain rfl : _ = 0 := fresh
  have first : Scans ⟨.indent, line, 0, angle, square, bracket, parenthesis, levels⟩
      (unlines blankLines ++ (indentation ++ c :: more)) [] _ (indentation ++ c :: more) :=
    scans_blank_lines rfl rfl blank
  have second : Scans ⟨.indent, line + blankLines.length, 0, angle, square, bracket, parenthesis,
      levels⟩ (indentation ++ c :: more) [] _ (c :: more) := scans_blanks rfl white
  obtain ⟨returned, third, kinds⟩ := @scans_layout ⟨.indent, line + blankLines.length,
    column indentation, angle, square, bracket, parenthesis, levels⟩ more rfl ordered c visible
    solid
  exact ⟨returned, _, first.trans (second.trans third), kinds, rfl, rfl, rfl, rfl⟩

/-- **The off-side rule.** In every reachable state the levels form a strictly
increasing stack with bottom 0, whose size is one more than the INDENT minus the
DEDENT tokens so far. From every start of a line, up to the first character of the
next line that is not blank, the scanner returns the layout tokens of the off-side
rule for the column of that line. -/
theorem scanner_offside (lineno : Nat) (text : Text) :
    (∀ lexemes s rest, Scans (new lineno) text lexemes s rest →
      Levels s.indentLevels ∧
        (countToken .INDENT lexemes : Int) - countToken .DEDENT lexemes =
          s.indentLevels.length - 1) ∧
      ∀ lexemes s (blankLines : List Text) (indentation : Text) c more,
        LineStart lineno text lexemes s (unlines blankLines ++ (indentation ++ c :: more)) →
        (∀ line ∈ blankLines, line.all isBlank = true) → indentation.all isBlank = true →
        isBlank c = false → c ≠ '\n' →
        ∃ returned s', Scans s (unlines blankLines ++ (indentation ++ c :: more))
            returned s' (c :: more) ∧
          returned.map (fun lexeme => lexeme.kind) =
            (offside s.indentLevels (column indentation)).map Kind.token ∧
          s'.mode = .normal ∧ s'.indentLevels = opened s.indentLevels (column indentation) := by
  constructor
  · intro lexemes s rest scans
    obtain ⟨ordered, counts⟩ := scans.levels Levels.start
    have bottom : (new lineno).indentLevels.length = 1 := rfl
    refine ⟨ordered, ?_⟩
    omega
  · intro lexemes s blankLines indentation c more starts blank white visible solid
    obtain ⟨scans, indenting, fresh⟩ := starts.indenting
    have ordered := (scans.levels Levels.start).1
    obtain ⟨returned, s', line, kinds, normal, levels, -⟩ :=
      scans_line indenting fresh ordered blank white visible solid
    exact ⟨returned, s', line, kinds, normal, levels⟩

/-- A line at column 2, after a blank one and one at column 4: it closes a level and opens
another. -/
theorem scanner_offside_dedent : ∃ lexemes s returned s',
    LineStart 1 "a\n    b\n \n  c".toList lexemes s " \n  c".toList ∧
      Scans s " \n  c".toList returned s' ['c'] ∧
      returned.map (fun lexeme => lexeme.kind) = [.token .DEDENT, .token .INDENT] ∧
      s'.mode = .normal ∧ s'.indentLevels = [2, 0] := by
  have reached : (advance 9 (new 1) "a\n    b\n \n  c".toList).any (fun reached =>
      decide (reached.2.1.mode = .normal) && decide (reached.2.1.indentLevels = [4, 0]) &&
        decide (reached.2.2 = "\n \n  c".toList)) = true := by
    decide +kernel
  obtain ⟨⟨lexemes, s, rest⟩, found, there⟩ := (Option.any_eq_true _ _).mp reached
  simp only [Bool.and_eq_true, decide_eq_true_eq] at there
  obtain ⟨⟨normal, four⟩, rfl⟩ := there
  have starts := LineStart.newline (scans_of_advance found) (Or.inl normal) (step_lineEnd normal)
  obtain ⟨returned, s', line, kinds, normal', levels⟩ := (scanner_offside 1 _).2 lexemes _ [[' ']]
    [' ', ' '] 'c' [] starts (by decide) (by decide) (by decide) (by decide)
  refine ⟨lexemes, _, returned, s', starts, line, ?_, normal', ?_⟩
  · rw [kinds, four]
    decide
  · rw [levels, four]
    decide

/-- The next step handles a newline in the start condition `normal` or `indent`. -/
def AtNewline (s : Lexical) (text : Text) : Prop :=
  (s.mode = .normal ∨ s.mode = .indent) ∧ text.head? = some '\n'

/-- A run that does not start another line. -/
inductive Quiet : Lexical → Text → Lexical → Text → Prop
  | refl {s : Lexical} {text : Text} : Quiet s text s text
  | next {s s' s'' : Lexical} {text text' text'' : Text} (before : Quiet s text s' text')
      (within : ¬ AtNewline s' text') (stepped : s'.step text' = .next s'' text'') :
      Quiet s text s'' text''
  | token {s s' s'' : Lexical} {text text' text'' : Text} {lexeme : Lexeme}
      (before : Quiet s text s' text') (within : ¬ AtNewline s' text')
      (stepped : s'.step text' = .token lexeme s'' text'') : Quiet s text s'' text''

/-- Where the scanner is on a line: in its indentation, or after its first character,
with the column of the line on top of the stack. -/
def OnLine (line : Text) (s : Lexical) (rest : Text) : Prop :=
  (s.mode = .indent ∧ ∃ white : Text, line = white ++ rest ∧ white.all isBlank = true ∧
      s.curr_indent = column white) ∨
    (s.mode ≠ .indent ∧ ∃ (white : Text) (c : Char) (more : Text), line = white ++ c :: more ∧
      white.all isBlank = true ∧ isBlank c = false ∧ s.curr_indent = column white ∧
      s.top = column white)

/-- Outside `indent`, the only action that has to do with lines is that of the newline
rule of `normal`. -/
theorem lines_of_mode {mode : Mode} (inside : mode ≠ .indent) {r : Flex.Rule Action}
    (member : r ∈ Rules.of mode) (lines : r.action.lines = true) :
    mode = .normal ∧ r.pattern = Pattern.lit "\n" := by
  have all : ∀ mode, mode ≠ .indent → ((Rules.of mode).all fun r =>
      !r.action.lines || decide (mode = .normal ∧ r.pattern = Pattern.lit "\n")) = true := by
    intro mode inside
    cases mode with
    | indent => exact absurd rfl inside
    | _ => decide +kernel
  have own := List.all_eq_true.mp (all mode inside) r member
  rw [lines, Bool.not_true, Bool.false_or] at own
  exact of_decide_eq_true own

/-- What a step outside `indent` leaves alone. -/
theorem step_inside {s' : Lexical} {text' : Text} (inside : s.mode ≠ .indent)
    (within : ¬ AtNewline s text)
    (stepped : s.step text = .next s' text' ∨ ∃ lexeme, s.step text = .token lexeme s' text') :
    s'.mode ≠ .indent ∧ s'.curr_indent = s.curr_indent ∧ s'.indentLevels = s.indentLevels := by
  cases text with
  | nil =>
      have ended : s.step [] = .eof s.eofLexeme := by
        rw [step, atEof]
        cases mode : s.mode with
        | indent => exact absurd mode inside
        | _ => rfl
      rcases stepped with stepped | ⟨lexeme, stepped⟩
      · exact absurd (ended.symm.trans stepped) (by simp)
      · exact absurd (ended.symm.trans stepped) (by simp)
  | cons c text =>
      rcases step_cons (s := s) (c := c) text with jam | ⟨r, member, yytext, rest, split, matched,
        performed⟩
      · rcases stepped with stepped | ⟨lexeme, stepped⟩
        · exact absurd (jam.symm.trans stepped) (by simp)
        · exact absurd (jam.symm.trans stepped) (by simp)
      · have quiet : r.action.lines = false := by
          by_contra lines
          obtain ⟨normal, newline⟩ := lines_of_mode inside member (by simpa using lines)
          rw [newline, Pattern.lit] at matched
          obtain ⟨u, v, rfl, first, -⟩ := Pattern.matches_cat.mp matched
          obtain ⟨c', rfl, same⟩ := Pattern.matches_chars.mp first
          rw [CharSet.mem_single, decide_eq_true_eq] at same
          obtain ⟨rfl, -⟩ := List.cons.inj split
          exact within ⟨Or.inl normal, congrArg some same⟩
        have plain : r.action ≠ .layout := fun same => by simp [same, Action.lines] at quiet
        obtain ⟨after, found, levels, -, others⟩ :=
          perform_cases (s := s.countLines yytext) plain yytext rest
        obtain ⟨column, modes⟩ := others quiet
        have same : s' = after := by
          rcases found with found | ⟨kind, val, found, -⟩
          · rcases stepped with stepped | ⟨lexeme, stepped⟩
            · exact (Step.next.inj ((performed.trans found).symm.trans stepped)).1.symm
            · exact absurd ((performed.trans found).symm.trans stepped) (by simp)
          · rcases stepped with stepped | ⟨lexeme, stepped⟩
            · exact absurd ((performed.trans found).symm.trans stepped) (by simp)
            · exact (Step.token.inj ((performed.trans found).symm.trans stepped)).2.1.symm
        rw [same]
        exact ⟨modes inside, column, levels⟩

/-- A step within a line keeps the scanner on it. -/
theorem OnLine.step {line : Text} {s' : Lexical} {text' : Text} (located : OnLine line s text)
    (within : ¬ AtNewline s text)
    (stepped : s.step text = .next s' text' ∨ ∃ lexeme, s.step text = .token lexeme s' text') :
    OnLine line s' text' := by
  rcases located with ⟨indenting, white, rfl, blank, column⟩ | ⟨inside, white, c, more, rfl, blank,
    visible, column, top⟩
  · cases text with
    | nil =>
        rw [Lexical.step, atEof, indenting] at stepped
        simp only at stepped
        rcases stepped with stepped | ⟨lexeme, stepped⟩
        · split at stepped <;> exact absurd stepped (by simp [ret])
        · split at stepped
          · obtain ⟨-, rfl, rfl⟩ := Step.token.inj stepped
            exact Or.inl ⟨rfl, white, rfl, blank, column⟩
          · exact absurd stepped (by simp)
    | cons c text =>
        have solid : c ≠ '\n' := fun same => within ⟨Or.inr indenting, by rw [same]; rfl⟩
        by_cases visible : isBlank c = true
        · have going : s.step (c :: text) = _ := step_blank indenting visible
          rcases stepped with stepped | ⟨lexeme, stepped⟩
          · obtain ⟨rfl, rfl⟩ := Step.next.inj (going.symm.trans stepped)
            refine Or.inl ⟨indenting, white ++ [c], by simp, by simp [blank, visible], ?_⟩
            simp [FstWaveDemo.column, column]
          · exact absurd (going.symm.trans stepped) (by simp)
        · have visible : isBlank c = false := by simpa using visible
          have going : s.step (c :: text) = _ := step_line indenting visible solid
          rcases layout_cases s (c :: text) with ⟨above, found⟩ | ⟨below, found⟩ | ⟨level, found⟩
          · rcases stepped with stepped | ⟨lexeme, stepped⟩
            · exact absurd ((going.trans found).symm.trans stepped) (by simp)
            · obtain ⟨-, rfl, rfl⟩ := Step.token.inj ((going.trans found).symm.trans stepped)
              exact Or.inr ⟨by simp, white, c, text, rfl, blank, visible, column, column⟩
          · rcases stepped with stepped | ⟨lexeme, stepped⟩
            · exact absurd ((going.trans found).symm.trans stepped) (by simp)
            · obtain ⟨-, rfl, rfl⟩ := Step.token.inj ((going.trans found).symm.trans stepped)
              exact Or.inl ⟨indenting, white, rfl, blank, column⟩
          · rcases stepped with stepped | ⟨lexeme, stepped⟩
            · obtain ⟨rfl, rfl⟩ := Step.next.inj ((going.trans found).symm.trans stepped)
              exact Or.inr ⟨by simp, white, c, text, rfl, blank, visible, column,
                level.symm.trans column⟩
            · exact absurd ((going.trans found).symm.trans stepped) (by simp)
  · obtain ⟨inside', column', levels⟩ := step_inside inside within stepped
    refine Or.inr ⟨inside', white, c, more, rfl, blank, visible, column'.trans column, ?_⟩
    rw [Lexical.top, levels]
    exact top

/-- A reached state is on a line that the run has started. -/
def Located (lineno : Nat) (text : Text) (s : Lexical) (rest : Text) : Prop :=
  ∃ line earlier first, LineStart lineno text earlier first line ∧ Quiet first line s rest ∧
    OnLine line s rest

/-- A line that has just started. -/
theorem LineStart.located {lineno : Nat} (starts : LineStart lineno text lexemes s rest) :
    Located lineno text s rest := by
  obtain ⟨-, indenting, fresh⟩ := starts.indenting
  exact ⟨rest, lexemes, s, starts, .refl, Or.inl ⟨indenting, [], rfl, rfl, fresh⟩⟩

/-- A step stays on the line or starts another one. -/
theorem Located.step {lineno : Nat} {s' : Lexical} {rest' : Text}
    (scans : Scans (new lineno) text lexemes s rest) (located : Located lineno text s rest)
    (stepped : s.step rest = .next s' rest' ∨ ∃ lexeme, s.step rest = .token lexeme s' rest') :
    Located lineno text s' rest' := by
  by_cases atNewline : AtNewline s rest
  · obtain ⟨handled, head⟩ := atNewline
    obtain ⟨tail, rfl⟩ := List.head?_eq_some_iff.mp head
    have going : ∃ next, s.step ('\n' :: tail) = .next next tail := by
      rcases handled with normal | indenting
      · exact ⟨_, step_lineEnd normal⟩
      · exact ⟨_, step_newline indenting⟩
    obtain ⟨next, going⟩ := going
    rcases stepped with stepped | ⟨lexeme, stepped⟩
    · obtain ⟨rfl, rfl⟩ := Step.next.inj (going.symm.trans stepped)
      exact (LineStart.newline scans handled going).located
    · exact absurd (going.symm.trans stepped) (by simp)
  · obtain ⟨line, earlier, first, starts, quiet, onLine⟩ := located
    refine ⟨line, earlier, first, starts, ?_, onLine.step atNewline stepped⟩
    rcases stepped with stepped | ⟨lexeme, stepped⟩
    · exact .next quiet atNewline stepped
    · exact .token quiet atNewline stepped

/-- Every reachable state is on a line that the run has started. -/
theorem Scans.located {lineno : Nat} {before : List Lexeme} {s' : Lexical} {rest' : Text}
    (scans : Scans s rest lexemes s' rest') (reached : Scans (new lineno) text before s rest)
    (located : Located lineno text s rest) : Located lineno text s' rest' := by
  induction scans generalizing before with
  | refl => exact located
  | next stepped _ ih =>
      exact ih (reached.trans (.next stepped .refl)) (located.step reached (Or.inl stepped))
  | token stepped _ ih =>
      exact ih (reached.trans (.token stepped .refl)) (located.step reached (Or.inr ⟨_, stepped⟩))

/-- A run within a line does not pass a newline that would start another. -/
theorem Quiet.passes {s₁ s' : Lexical} {text₁ text' : Text} (quiet : Quiet s text s' text')
    (scans : Scans s text lexemes s₁ text₁) (newline : AtNewline s₁ text₁) :
    ∃ more, Scans s' text' more s₁ text₁ := by
  induction quiet with
  | refl => exact ⟨_, scans⟩
  | next before within stepped ih =>
      obtain ⟨more, onward⟩ := ih scans
      cases onward with
      | refl => exact absurd newline within
      | next stepped' onward =>
          obtain ⟨rfl, rfl⟩ := Step.next.inj (stepped.symm.trans stepped')
          exact ⟨_, onward⟩
      | token stepped' _ => exact absurd (stepped.symm.trans stepped') (by simp)
  | token before within stepped ih =>
      obtain ⟨more, onward⟩ := ih scans
      cases onward with
      | refl => exact absurd newline within
      | next stepped' _ => exact absurd (stepped.symm.trans stepped') (by simp)
      | token stepped' onward =>
          obtain ⟨-, rfl, rfl⟩ := Step.token.inj (stepped.symm.trans stepped')
          exact ⟨_, onward⟩

/-- The last line of a text: the one that starts last in the run of the scanner. A
newline inside an annotation does not start a line. -/
def LastLine (lineno : Nat) (text line : Text) : Prop :=
  (∃ lexemes s, LineStart lineno text lexemes s line) ∧
    ∀ lexemes s line', LineStart lineno text lexemes s line' → line.length ≤ line'.length

/-- The last line is unique. -/
theorem LastLine.unique {lineno : Nat} {line line' : Text} (last : LastLine lineno text line)
    (last' : LastLine lineno text line') : line = line' := by
  obtain ⟨⟨_, _, starts⟩, shortest⟩ := last
  obtain ⟨⟨_, _, starts'⟩, shortest'⟩ := last'
  have same := Nat.le_antisymm (shortest _ _ _ starts') (shortest' _ _ _ starts)
  exact (List.suffix_of_suffix_length_le starts.indenting.1.suffix starts'.indenting.1.suffix
    (Nat.le_of_eq same)).eq_of_length same

/-- The line that the scanner is on at the end of input is the last one. -/
theorem Quiet.lastLine {lineno : Nat} {line : Text} {first : Lexical}
    (starts : LineStart lineno text lexemes first line) (quiet : Quiet first line s []) :
    LastLine lineno text line := by
  have beyond {s₁ : Lexical} {tail : Text} {more : List Lexeme}
      (scans : Scans first line more s₁ ('\n' :: tail))
      (handled : s₁.mode = .normal ∨ s₁.mode = .indent) : False := by
    obtain ⟨_, onward⟩ := quiet.passes scans ⟨handled, rfl⟩
    exact absurd (List.suffix_nil.mp onward.suffix) (by simp)
  refine ⟨⟨lexemes, first, starts⟩, fun lexemes' s' line' starts' => ?_⟩
  cases starts' with
  | start => exact starts.indenting.1.suffix.length_le
  | newline scans handled stepped =>
      rcases scans.total starts.indenting.1 with ⟨more, -, onward⟩ | ⟨more, -, onward⟩
      · cases onward with
        | refl => exact absurd (beyond .refl handled) id
        | next stepped' onward =>
            obtain ⟨rfl, rfl⟩ := Step.next.inj (stepped.symm.trans stepped')
            exact onward.suffix.length_le
        | token stepped' _ => exact absurd (stepped.symm.trans stepped') (by simp)
      · exact absurd (beyond onward handled) id

/-- **Balanced layout.** The scanner never returns more DEDENT than INDENT tokens, and
at the end of input it has returned equally many exactly if the last line is blank or
does not begin with a blank. -/
theorem scanned_balanced_iff {lineno : Nat} {eof : Lexeme}
    (scanned : Scanned lineno text lexemes eof) :
    (countToken .INDENT lexemes = countToken .DEDENT lexemes ∧
        ∀ before, before <+: lexemes → countToken .DEDENT before ≤ countToken .INDENT before) ↔
      ∃ line, LastLine lineno text line ∧
        (line.all isBlank = true ∨ ∀ c ∈ line.head?, isBlank c = false) := by
  obtain ⟨s, scans, ended⟩ := scanned
  have initial : (new lineno).indentLevels.length = 1 := rfl
  have closing : ∀ before, before <+: lexemes →
      countToken .DEDENT before ≤ countToken .INDENT before := by
    rintro before ⟨after, rfl⟩
    obtain ⟨s', text', first, -⟩ := scans.split
    obtain ⟨ordered, counts⟩ := first.levels Levels.start
    have some := List.length_pos_iff.mpr ordered.ne_nil
    omega
  obtain ⟨ordered, counts⟩ := scans.levels Levels.start
  obtain ⟨line, earlier, first, starts, quiet, onLine⟩ :=
    scans.located .refl LineStart.start.located
  have last := quiet.lastLine starts
  have level : countToken .INDENT lexemes = countToken .DEDENT lexemes ↔ s.top = 0 := by
    rw [Lexical.top, ← ordered.balanced_iff]
    omega
  rw [level]
  have shape : s.top = 0 ↔ line.all isBlank = true ∨ ∀ c ∈ line.head?, isBlank c = false := by
    rcases onLine with ⟨indenting, white, rfl, blank, -⟩ | ⟨-, white, c, more, rfl, blank, visible,
      -, top⟩
    · have closed : s.top = 0 := by
        rw [Lexical.step, atEof, indenting] at ended
        simp only at ended
        split at ended
        · exact absurd ended (by simp [ret])
        · omega
      simp [closed, blank]
    · rw [top, column_eq_zero]
      cases white with
      | nil => simp [visible]
      | cons c' white =>
          rw [List.all_cons, Bool.and_eq_true] at blank
          simp [blank.1, visible]
  rw [shape]
  constructor
  · rintro ⟨flat, -⟩
    exact ⟨line, last, flat⟩
  · rintro ⟨line', last', flat⟩
    obtain rfl := last.unique last'
    exact ⟨flat, closing⟩

/-- A module whose last line has no newline: its levels stay open. -/
theorem open_without_newline : ¬ ∀ lexemes eof,
    Scanned 1 "  module M :\n    skip".toList lexemes eof →
      countToken .INDENT lexemes = countToken .DEDENT lexemes := by
  intro balanced
  have returned : (run 100 (new 1) "  module M :\n    skip".toList).any (fun result =>
      decide (countToken .INDENT result.1 ≠ countToken .DEDENT result.1)) = true := by
    decide +kernel
  obtain ⟨⟨lexemes, s⟩, found, differs⟩ := (Option.any_eq_true _ _).mp returned
  obtain ⟨eof, scanned⟩ := scanned_of_run found
  exact of_decide_eq_true differs (balanced lexemes eof scanned)

/-- With the newline, the last line is empty and the layout is balanced. -/
theorem balanced_with_newline : ∃ lexemes eof,
    Scanned 1 "  module M :\n    skip\n".toList lexemes eof ∧
      ((countToken .INDENT lexemes = countToken .DEDENT lexemes ∧
        ∀ before, before <+: lexemes → countToken .DEDENT before ≤ countToken .INDENT before) ↔
      ∃ line, LastLine 1 "  module M :\n    skip\n".toList line ∧
        (line.all isBlank = true ∨ ∀ c ∈ line.head?, isBlank c = false)) := by
  have returned : (run 100 (new 1) "  module M :\n    skip\n".toList).isSome = true := by
    decide +kernel
  obtain ⟨⟨lexemes, s⟩, found⟩ := Option.isSome_iff_exists.mp returned
  obtain ⟨eof, scanned⟩ := scanned_of_run found
  exact ⟨lexemes, eof, scanned, scanned_balanced_iff scanned⟩

end Lexical

end FstWaveDemo
