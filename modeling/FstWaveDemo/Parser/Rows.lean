import FstWaveDemo.Parser.Circuit
import FstWaveDemo.Parser.Words

/-! # Programs in lines

A program written line by line (`FstWaveDemo.Row`): the scanner returns the tokens of the
lines with the layout tokens of the off-side rule between them
(`FstWaveDemo.scanned_rows`). If the lines form indented blocks, the layout tokens enclose
the blocks (`FstWaveDemo.Piece.emit_all`).
-/

namespace FstWaveDemo

open Lexical (offside_stay offside_pop)

/-- The scanner opens the column of a line as a level. -/
theorem opened_spec {levels : List Nat} (ordered : Levels levels) (column : Nat) :
    Levels (opened levels column) ∧ ∃ lower, opened levels column = column :: lower := by
  induction levels with
  | nil => exact absurd rfl ordered.ne_nil
  | cons top levels ih =>
      by_cases below : top ≤ column
      · obtain ⟨-, stays⟩ := offside_stay ordered.increasing below
        rw [stays]
        by_cases above : top < column
        · rw [if_pos above]
          exact ⟨ordered.push above, _, rfl⟩
        · rw [if_neg above]
          obtain rfl : top = column := by omega
          exact ⟨ordered, _, rfl⟩
      · obtain ⟨-, pops⟩ := @offside_pop _ _ levels (Nat.lt_of_not_le below)
        rw [pops]
        exact ih (ordered.pop (show top ≠ 0 by omega))

/-- A line at the current level brings no layout token. -/
theorem offside_same {column : Nat} {lower : List Nat} (ordered : Levels (column :: lower)) :
    offside (column :: lower) column = [] ∧ opened (column :: lower) column = column :: lower := by
  obtain ⟨tokens, levels⟩ := offside_stay ordered.increasing (Nat.le_refl column)
  rw [tokens, levels, if_neg (Nat.lt_irrefl _), if_neg (Nat.lt_irrefl _)]
  exact ⟨rfl, rfl⟩

/-- A line further in opens a level. -/
theorem offside_inner {outer column : Nat} {lower : List Nat} (ordered : Levels (outer :: lower))
    (inner : outer < column) : offside (outer :: lower) column = [.INDENT] ∧
      opened (outer :: lower) column = column :: outer :: lower := by
  obtain ⟨tokens, levels⟩ := offside_stay ordered.increasing (Nat.le_of_lt inner)
  rw [tokens, levels, if_pos inner, if_pos inner]
  exact ⟨rfl, rfl⟩

/-- A line of a program after blank lines, with the tokens it is written for. -/
structure Row where
  blankLines : List Text
  indentation : Text
  content : Text
  tokens : List Tok
  blank : ∀ line ∈ blankLines, line.all isBlank = true
  white : indentation.all isBlank = true
  visible : ∃ c more, content = c :: more ∧ isBlank c = false ∧ c ≠ '\n'

namespace Row

/-- The text of a line, with the blank lines before it and the newline at its end. -/
def text (row : Row) : Text :=
  unlines row.blankLines ++ (row.indentation ++ (row.content ++ ['\n']))

/-- The column of a line. -/
def column (row : Row) : Nat := FstWaveDemo.column row.indentation

/-- On this line, the content is read as the tokens. -/
def Written (row : Row) (line : Nat) : Prop :=
  ∀ rest, Reads line row.content row.tokens ('\n' :: rest)

/-- The layout tokens as tokens without a value. -/
theorem token_of_layout {s s' : Lexical} {text rest : Text} {lexeme : Lexeme}
    (stepped : s.step text = .token lexeme s' rest) {name : TokenName}
    (layout : lexeme.kind = .token name) (listed : name = .INDENT ∨ name = .DEDENT) :
    LR.Lexeme.token Val.erase lexeme = kw name := by
  have made : lexeme.toToken = kw .INDENT ∨ lexeme.toToken = kw .DEDENT := by
    rcases Lexical.step_token stepped with ⟨-, -, rfl, -⟩ | ⟨r, member, w, tail, -, -, made, -⟩
    · exact Or.inr rfl
    · rcases Action.kind_of_makes made with ⟨same, -⟩ | ⟨other, named, kind⟩ | ⟨-, c, kind⟩
      · rw [same] at made
        exact made
      · obtain rfl : name = other := Kind.token.inj (layout.symm.trans kind)
        obtain ⟨first, second⟩ := Lexical.names_ne_layout member named
        exact (listed.elim first second).elim
      · exact nomatch layout.symm.trans kind
  obtain ⟨token, line⟩ := lexeme
  rcases made with rfl | rfl
  · obtain rfl := Kind.token.inj layout
    rfl
  · obtain rfl := Kind.token.inj layout
    rfl

/-- The layout tokens of a line as tokens without a value. -/
theorem tokens_of_layout {s s' : Lexical} {text rest : Text} {lexemes : List Lexeme}
    (scans : Lexical.Scans s text lexemes s' rest) {levels : List Nat} {column : Nat}
    (kinds : lexemes.map (fun lexeme => lexeme.kind) = (offside levels column).map Kind.token) :
    lexemes.map (LR.Lexeme.token Val.erase) = (offside levels column).map kw := by
  have each : ∀ lexeme ∈ lexemes, ∀ name, lexeme.kind = .token name →
      name ∈ offside levels column → LR.Lexeme.token Val.erase lexeme = kw name := by
    intro lexeme member name kind listed
    obtain ⟨_, _, _, _, _, _, stepped⟩ := scans.returned member
    refine token_of_layout stepped kind ?_
    rcases List.mem_append.mp listed with closing | opening
    · exact Or.inr (List.eq_of_mem_replicate closing)
    · split at opening
      · exact Or.inl (List.mem_singleton.mp opening)
      · exact nomatch opening
  clear scans
  generalize offside levels column = names at kinds each
  induction lexemes generalizing names with
  | nil =>
      obtain rfl := List.map_eq_nil_iff.mp kinds.symm
      rfl
  | cons lexeme lexemes ih =>
      obtain ⟨name, others, rfl, kind, rest⟩ := List.map_eq_cons_iff.mp kinds.symm
      rw [List.map_cons, List.map_cons, each lexeme List.mem_cons_self name kind.symm
        List.mem_cons_self]
      refine congrArg (kw name :: ·) (ih others rest.symm fun own member name' kind' listed => ?_)
      exact each own (List.mem_cons_of_mem _ member) name' kind' (List.mem_cons_of_mem _ listed)

/-- Reading a line. -/
theorem scans {s : Lexical} (row : Row) (indenting : s.mode = .indent) (fresh : s.curr_indent = 0)
    (ordered : Levels s.indentLevels) (written : row.Written (s.lineno + row.blankLines.length))
    (rest : Text) : ∃ lexemes s', Lexical.Scans s (row.text ++ rest) lexemes s' rest ∧
      lexemes.map (LR.Lexeme.token Val.erase) =
        (offside s.indentLevels row.column).map kw ++ row.tokens ∧
      s'.mode = .indent ∧ s'.curr_indent = 0 ∧
      s'.indentLevels = opened s.indentLevels row.column ∧
      s'.lineno = s.lineno + row.blankLines.length + 1 := by
  obtain ⟨c, more, content, visible, solid⟩ := row.visible
  obtain ⟨returned, s₁, first, kinds, normal, levels, line, -⟩ :=
    @Lexical.scans_line s indenting fresh ordered _ _ c (more ++ '\n' :: rest) row.blank row.white
      visible solid
  obtain ⟨lexemes, s₂, second, spelled, inside⟩ := written rest s₁ normal line
  have normal₂ : s₂.mode = .normal := inside.mode.trans normal
  have whole : row.text ++ rest =
      unlines row.blankLines ++ (row.indentation ++ c :: (more ++ '\n' :: rest)) := by
    rw [text, content]
    simp
  have between : c :: (more ++ '\n' :: rest) = row.content ++ '\n' :: rest := by
    rw [content]
    rfl
  rw [between] at first
  rw [whole, between]
  have ended := second.trans (.next (Lexical.step_lineEnd normal₂) .refl)
  refine ⟨returned ++ (lexemes ++ []), _, first.trans ended, ?_, rfl, rfl, ?_, ?_⟩
  · rw [List.append_nil, List.map_append, spelled, tokens_of_layout first kinds]
    rfl
  · exact inside.indentLevels.trans levels
  · change s₂.lineno + 1 = _
    rw [inside.lineno, line]

end Row

/-- The text of lines. -/
def rowsText (rows : List Row) : Text := rows.flatMap Row.text

/-- The tokens of lines with the layout tokens between them, and the DEDENTs at the end of
the input. -/
def emit : (levels : List Nat) → List Row → List Tok
  | levels, [] => List.replicate (levels.length - 1) (kw .DEDENT)
  | levels, row :: rows =>
      (offside levels row.column).map kw ++ (row.tokens ++ emit (opened levels row.column) rows)

/-- The scanner closes the open levels at the end of the input. -/
theorem scans_eof {s : Lexical} (indenting : s.mode = .indent) (ordered : Levels s.indentLevels) :
    ∃ lexemes s' eof, Lexical.Scans s [] lexemes s' [] ∧ s'.step [] = .eof eof ∧
      lexemes.map (LR.Lexeme.token Val.erase) =
        List.replicate (s.indentLevels.length - 1) (kw .DEDENT) := by
  generalize same : s.indentLevels = levels at ordered
  induction levels generalizing s with
  | nil => exact absurd rfl ordered.ne_nil
  | cons top levels ih =>
      have head : s.top = top := by rw [Lexical.top, same]; rfl
      by_cases closed : top = 0
      · have bottom := ordered.eq_bottom closed
        have stepped : s.step [] = .eof s.eofLexeme := by
          rw [Lexical.step, Lexical.atEof, indenting]
          exact if_neg fun above => above (head.trans closed)
        exact ⟨[], s, _, .refl, stepped, by rw [bottom]; rfl⟩
      · have stepped : s.step [] = Lexical.ret { s with indentLevels := s.indentLevels.tail }
            (.token .DEDENT) .undef [] := by
          rw [Lexical.step, Lexical.atEof, indenting]
          exact if_pos fun zero => closed (head.symm.trans zero)
        have popped : Levels levels := ordered.pop closed
        obtain ⟨lexemes, s', eof, scans, ended, tokens⟩ :=
          @ih { s with indentLevels := s.indentLevels.tail } indenting (by rw [same]; rfl) popped
        refine ⟨_, s', eof, .token stepped scans, ended, ?_⟩
        have some : levels.length ≠ 0 := fun empty =>
          popped.ne_nil (List.length_eq_zero_iff.mp empty)
        have count : (top :: levels).length - 1 = levels.length - 1 + 1 := by
          rw [List.length_cons]
          omega
        rw [List.map_cons, tokens, count, List.replicate_succ]
        rfl

/-- Reading lines after the first one, to the end of the input. -/
theorem scans_rows {s : Lexical} (indenting : s.mode = .indent) (fresh : s.curr_indent = 0)
    (ordered : Levels s.indentLevels) {rows : List Row} (later : 1 < s.lineno)
    (written : ∀ row ∈ rows, ∀ line, line ≠ 1 → row.Written line) :
    ∃ lexemes s' eof, Lexical.Scans s (rowsText rows) lexemes s' [] ∧ s'.step [] = .eof eof ∧
      lexemes.map (LR.Lexeme.token Val.erase) = emit s.indentLevels rows := by
  induction rows generalizing s with
  | nil => exact scans_eof indenting ordered
  | cons row rows ih =>
      obtain ⟨lexemes, s₁, scans, tokens, indenting₁, fresh₁, levels, line⟩ := row.scans indenting
        fresh ordered (written row List.mem_cons_self _ (by omega)) (rowsText rows)
      obtain ⟨others, s', eof, scans', ended, tokens'⟩ := ih indenting₁ fresh₁
        (by rw [levels]; exact (opened_spec ordered _).1) (by omega)
        fun own member => written own (List.mem_cons_of_mem _ member)
      refine ⟨lexemes ++ others, s', eof, scans.trans scans', ended, ?_⟩
      rw [List.map_append, tokens, tokens', levels, emit, List.append_assoc]

/-- **Programs in lines.** The scanner returns the tokens of the lines with the layout tokens
between them. -/
theorem scanned_rows {first : Row} {rows : List Row}
    (start : first.Written (1 + first.blankLines.length))
    (written : ∀ row ∈ rows, ∀ line, line ≠ 1 → row.Written line) :
    ∃ lexemes eof, Lexical.Scanned 1 (rowsText (first :: rows)) lexemes eof ∧
      lexemes.map (LR.Lexeme.token Val.erase) = emit [0] (first :: rows) := by
  obtain ⟨lexemes, s₁, scans, tokens, indenting, fresh, levels, line⟩ :=
    first.scans (s := Lexical.new 1) rfl rfl Levels.start start (rowsText rows)
  obtain ⟨others, s', eof, scans', ended, tokens'⟩ := scans_rows indenting fresh
    (by rw [levels]; exact (opened_spec Levels.start _).1)
    (by rw [line]; change 1 < 1 + _ + 1; omega) written
  refine ⟨lexemes ++ others, eof, ⟨s', scans.trans scans', ended⟩, ?_⟩
  rw [List.map_append, tokens, tokens', levels, emit, List.append_assoc]
  rfl

/-- The next line, or the end of the input, is not inside the column. -/
def Outside (column : Nat) (rows : List Row) : Prop := ∀ row ∈ rows.head?, row.column ≤ column

/-- A level that the next line is outside of is closed. -/
theorem emit_pop {outer inner : Nat} {lower : List Nat} (ordered : Levels (inner :: outer :: lower))
    {rows : List Row} (outside : Outside outer rows) :
    emit (inner :: outer :: lower) rows = kw .DEDENT :: emit (outer :: lower) rows := by
  have deeper : outer < inner :=
    (List.pairwise_cons.mp ordered.increasing).1 outer List.mem_cons_self
  cases rows with
  | nil => rfl
  | cons row rows =>
      have below : row.column ≤ outer := outside row rfl
      obtain ⟨tokens, levels⟩ := @offside_pop inner row.column (outer :: lower) (by omega)
      rw [emit, emit, tokens, levels]
      rfl

/-- A line of a block, or a line with a block below it. -/
inductive Piece
  | line (row : Row)
  | block (row : Row) (body : List Piece)

namespace Piece

mutual

/-- The lines of a piece. -/
def rows : Piece → List Row
  | line row => [row]
  | block row body => row :: rowsAll body

/-- The lines of pieces. -/
def rowsAll : List Piece → List Row
  | [] => []
  | piece :: pieces => rows piece ++ rowsAll pieces

end

mutual

/-- The tokens of a piece, with its block enclosed by layout tokens. -/
def tokens : Piece → List Tok
  | line row => row.tokens
  | block row body => row.tokens ++ kw .INDENT :: (tokensAll body ++ [kw .DEDENT])

/-- The tokens of pieces. -/
def tokensAll : List Piece → List Tok
  | [] => []
  | piece :: pieces => tokens piece ++ tokensAll pieces

end

mutual

/-- The lines of a block share a column, and inner blocks are further in. -/
def Aligned : (column : Nat) → Piece → Prop
  | column, line row => row.column = column
  | column, block row body =>
      row.column = column ∧ body ≠ [] ∧ ∃ inner, column < inner ∧ AlignedAll inner body

/-- All pieces are aligned. -/
def AlignedAll : (column : Nat) → List Piece → Prop
  | _, [] => True
  | column, piece :: pieces => Aligned column piece ∧ AlignedAll column pieces

end

theorem Aligned.outside {column : Nat} {piece : Piece} (aligned : Aligned column piece)
    (more : List Row) : Outside column (piece.rows ++ more) := by
  cases piece with
  | line row =>
      intro own same
      obtain rfl := Option.some.inj same
      exact Nat.le_of_eq aligned
  | block row body =>
      intro own same
      obtain rfl := Option.some.inj same
      exact Nat.le_of_eq aligned.1

theorem AlignedAll.outside {column : Nat} {pieces : List Piece} (aligned : AlignedAll column pieces)
    {more : List Row} (outside : Outside column more) :
    Outside column (rowsAll pieces ++ more) := by
  cases pieces with
  | nil => exact outside
  | cons piece pieces =>
      rw [rowsAll, List.append_assoc]
      exact aligned.1.outside _

mutual

/-- The scanner reads an aligned piece, after the layout tokens before it, as its tokens. -/
theorem emit_piece : (piece : Piece) → {column : Nat} → Aligned column piece → {levels : List Nat} →
    Levels levels → {more : List Row} → Outside column more →
    emit levels (piece.rows ++ more) =
      (offside levels column).map kw ++ (piece.tokens ++ emit (opened levels column) more)
  | .line row, column, aligned, levels, _, more, _ => by
      obtain rfl : row.column = column := aligned
      rfl
  | .block row body, column, ⟨here, filled, inner, deeper, aligned⟩, levels, ordered, more,
    outside => by
      subst here
      obtain ⟨ordered', lower, top⟩ := opened_spec ordered row.column
      rw [top] at ordered'
      obtain ⟨indent, inside⟩ := offside_inner ordered' deeper
      have pushed : Levels (inner :: row.column :: lower) := ordered'.push deeper
      have farther : Outside inner more := fun own same =>
        Nat.le_trans (outside own same) (Nat.le_of_lt deeper)
      have block := emit_all body aligned filled ordered' farther
      rw [indent, inside, emit_pop pushed outside] at block
      have whole : emit levels (rows (.block row body) ++ more) =
          (offside levels row.column).map kw ++
            (row.tokens ++ emit (opened levels row.column) (rowsAll body ++ more)) := rfl
      rw [whole, top, block, tokens]
      simp

/-- The scanner reads aligned pieces, after the layout tokens before them, as their tokens. -/
theorem emit_all : (pieces : List Piece) → {column : Nat} → AlignedAll column pieces →
    pieces ≠ [] → {levels : List Nat} → Levels levels → {more : List Row} → Outside column more →
    emit levels (rowsAll pieces ++ more) =
      (offside levels column).map kw ++ (tokensAll pieces ++ emit (opened levels column) more)
  | [], _, _, filled, _, _, _, _ => absurd rfl filled
  | piece :: pieces, column, ⟨first, aligned⟩, _, levels, ordered, more, outside => by
      obtain ⟨ordered', lower, top⟩ := opened_spec ordered column
      rw [rowsAll, List.append_assoc, emit_piece piece first ordered (aligned.outside outside),
        tokensAll, List.append_assoc]
      refine congrArg (_ ++ ·) (congrArg (_ ++ ·) ?_)
      cases pieces with
      | nil => rfl
      | cons second pieces =>
          rw [top] at ordered' ⊢
          obtain ⟨none, same⟩ := offside_same ordered'
          rw [emit_all (second :: pieces) aligned (List.cons_ne_nil _ _) ordered' outside, none,
            same]
          rfl

end

/-- A program of aligned pieces: the scanner returns their tokens, as a block if they are
indented. -/
theorem emit_program {pieces : List Piece} {column : Nat} (aligned : AlignedAll column pieces)
    (filled : pieces ≠ []) (inner : 0 < column) :
    emit [0] (rowsAll pieces) = kw .INDENT :: (tokensAll pieces ++ [kw .DEDENT]) := by
  have nothing : Outside column [] := fun _ absent => nomatch absent
  have whole := emit_all pieces aligned filled Levels.start nothing
  obtain ⟨indent, inside⟩ := offside_inner Levels.start inner
  rw [List.append_nil, indent, inside] at whole
  exact whole

end Piece

end FstWaveDemo
