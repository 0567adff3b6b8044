import FstWaveDemo.Parser.Types

/-! # Memories

Memory declarations of FIRRTL, written as a block with one field on each line
(`FstWaveDemo.Memory.piece`). The scanner reads the block as its tokens, and the parser turns
them into the node of the memory exactly if it has no `readwriter` port and its data type is
read back (`FstWaveDemo.Memory.readBack_iff_plain`): the rule of such a port has a number where the
arrow stands.
-/

namespace FstWaveDemo

open Flex (CharSet)

/-- A read-under-write mode. -/
structure Ruw where
  word : String
  listed : (word, TokenName.Ruw) ∈ grounds

/-- A memory declaration. -/
structure Memory where
  name : Name
  dataType : TypeTree
  depth : Word (.text .INT)
  readLatency : Word (.text .INT)
  writeLatency : Word (.text .INT)
  ruw : Ruw
  readers : List Name
  writers : List Name
  readwriters : List Name

/-- The tokens of a field. -/
def fieldLine (field : TokenName) (value : List Tok) : List Tok :=
  kw field :: kw .RightArrow :: value

/-- The tokens of the lines of ports. -/
def portTokens (kind : TokenName) (ports : List Name) : List Tok :=
  ports.flatMap fun port => fieldLine kind [port.token]

namespace Memory

/-- The tokens of the fields before the ports. -/
def compulsoryTokens (m : Memory) : List Tok :=
  fieldLine .DataType m.dataType.tokens ++ (fieldLine .Depth [tok .INT m.depth.text] ++
    (fieldLine .ReadLatency [tok .INT m.readLatency.text] ++
      fieldLine .WriteLatency [tok .INT m.writeLatency.text]))

/-- The tokens of the ports. -/
def optionalTokens (m : Memory) : List Tok :=
  portTokens .Reader m.readers ++ (portTokens .Writer m.writers ++
    portTokens .Readwriter m.readwriters)

/-- The tokens of the block of a memory. -/
def bodyTokens (m : Memory) : List Tok :=
  m.compulsoryTokens ++ (m.optionalTokens ++ fieldLine .ReadUnderwrite [tok .Ruw m.ruw.word.toList])

/-- The tokens of a memory. -/
def tokens (m : Memory) : List Tok :=
  kw .Mem :: m.name.token :: ch ':' :: kw .INDENT :: (m.bodyTokens ++ [kw .DEDENT])

/-- The nodes of ports. -/
def portNodes (type : PNodeType) (ports : List Name) : List PNode :=
  ports.map fun port => .node type 0 [] port.text [] 0 false []

/-- The node of a memory. -/
def node (m : Memory) : PNode :=
  .node .P_MEMORY 0 [] m.name.text [] 0 false
    ([.node .P_DATATYPE 0 [] [] [] 0 false [m.dataType.node],
      .node .P_DEPTH 0 [] m.depth.text [] 0 false [],
      .node .P_RLATENCT 0 [] m.readLatency.text [] 0 false [],
      .node .P_WLATENCT 0 [] m.writeLatency.text [] 0 false [],
      .node .P_RUW 0 [] m.ruw.word.toList [] 0 false []] ++
      (portNodes .P_READER m.readers ++ portNodes .P_WRITER m.writers ++
        portNodes .P_READWRITER m.readwriters))

end Memory

section Parsing

/-- The parser reduces the lines of ports to their nodes. -/
theorem parses_ports {name : Nonterminal} {kind : TokenName} {type : PNodeType} (empty more : Nat)
    (first : productions[empty]? = some (rule name [] (.asList .newPList)))
    (later : productions[more]? = some (rule name [n name, t kind, t .RightArrow, n .ALLID]
      (.asList (.append (.plist 1) (.newNode' type .synlineno (.str 4) 0 [])))))
    (free : (empty ≠ 25 ∧ empty ≠ 46 ∧ empty ≠ 48 ∧ empty ≠ 93) ∧
      (more ≠ 25 ∧ more ≠ 46 ∧ more ≠ 48 ∧ more ≠ 93))
    (ports : List Name) (context : Nat × Nat) (next : Kind) :
    Parses context name (portTokens kind ports) next (.plist (Memory.portNodes type ports)) := by
  induction ports using List.reverseRecOn generalizing next with
  | nil => exact parses_free empty first .nil (conflicts_other free.1) rfl
  | append_singleton ports port ih =>
      have split : portTokens kind (ports ++ [port]) =
          portTokens kind ports ++ fieldLine kind [port.token] := by
        simp [portTokens]
      rw [split, Memory.portNodes, List.map_append]
      exact parses_free more later (.nonterm (ih _) (derivable_term rfl (derivable_term rfl
        (derivable_single (port.parses _ _) .nil)))) (conflicts_other free.2) rfl

namespace Memory

variable (m : Memory)

/-- The parser reduces the fields before the ports to their nodes. -/
theorem parses_compulsory (single : m.dataType.Single) (context : Nat × Nat) (next : Kind) :
    Parses context .mem_compulsory m.compulsoryTokens next
      (.plist [.node .P_DATATYPE 0 [] [] [] 0 false [m.dataType.node],
        .node .P_DEPTH 0 [] m.depth.text [] 0 false [],
        .node .P_RLATENCT 0 [] m.readLatency.text [] 0 false [],
        .node .P_WLATENCT 0 [] m.writeLatency.text [] 0 false []]) := by
  have datatype (context : Nat × Nat) : Parses context .mem_datatype
      (fieldLine .DataType m.dataType.tokens) (.token .Depth) (.pnode _) :=
    parses_free 69 rfl (derivable_term rfl (derivable_term rfl (derivable_last
      (TypeTree.parses single _ (by decide))))) rfl rfl
  have depth (context : Nat × Nat) : Parses context .mem_depth
      (fieldLine .Depth [tok .INT m.depth.text]) (.token .ReadLatency) (.pnode _) :=
    parses_free 70 rfl (derivable_term rfl (derivable_term rfl (derivable_term rfl .nil))) rfl rfl
  have rlatency (context : Nat × Nat) : Parses context .mem_rlatency
      (fieldLine .ReadLatency [tok .INT m.readLatency.text]) (.token .WriteLatency) (.pnode _) :=
    parses_free 71 rfl (derivable_term rfl (derivable_term rfl (derivable_term rfl .nil))) rfl rfl
  have wlatency (context : Nat × Nat) : Parses context .mem_wlatency
      (fieldLine .WriteLatency [tok .INT m.writeLatency.text]) next (.pnode _) :=
    parses_free 72 rfl (derivable_term rfl (derivable_term rfl (derivable_term rfl .nil))) rfl rfl
  exact parses_free 74 rfl (.nonterm (datatype _) (.nonterm (depth _) (.nonterm (rlatency _)
    (derivable_last (wlatency _))))) rfl rfl

/-- The parser reduces the ports to their nodes if none of them is a `readwriter`. -/
theorem parses_optional (single : m.readwriters = []) (context : Nat × Nat) (next : Kind) :
    Parses context .mem_optional m.optionalTokens next
      (.plist (portNodes .P_READER m.readers ++ portNodes .P_WRITER m.writers ++
        portNodes .P_READWRITER m.readwriters)) := by
  have reader (context : Nat × Nat) (next : Kind) := @parses_ports .mem_reader .Reader .P_READER
    75 76 rfl rfl (by decide) m.readers context next
  have writer (context : Nat × Nat) (next : Kind) := @parses_ports .mem_writer .Writer .P_WRITER
    77 78 rfl rfl (by decide) m.writers context next
  have readwriter (context : Nat × Nat) : Parses context .mem_readwriter [] next (.plist []) :=
    parses_free 79 rfl .nil rfl rfl
  rw [optionalTokens, single]
  exact parses_free 81 rfl (.nonterm (reader _ _) (.nonterm (writer _ _)
    (derivable_last (readwriter _)))) rfl rfl

/-- The parser reduces a memory without `readwriter` ports to its node. -/
theorem parses (single : m.dataType.Single) (none : m.readwriters = []) (context : Nat × Nat)
    (next : Kind) : Parses context .memory m.tokens next (.pnode m.node) := by
  have mode (context : Nat × Nat) : Parses context .mem_ruw
      (fieldLine .ReadUnderwrite [tok .Ruw m.ruw.word.toList]) (.token .DEDENT) (.pnode _) :=
    parses_free 73 rfl (derivable_term rfl (derivable_term rfl (derivable_term rfl .nil))) rfl rfl
  have split : m.tokens = kw .Mem :: m.name.token :: ch ':' :: kw .INDENT ::
      (m.compulsoryTokens ++ (m.optionalTokens ++
        (fieldLine .ReadUnderwrite [tok .Ruw m.ruw.word.toList] ++ [kw .DEDENT]))) := by
    simp [tokens, bodyTokens]
  rw [split, node]
  exact parses_free 82 rfl (derivable_term rfl (derivable_single (m.name.parses _ _)
    (derivable_term rfl (derivable_empty (parses_no_info _ _) (derivable_term rfl
      (.nonterm (m.parses_compulsory single _ _) (.nonterm (m.parses_optional none _ _)
        (.nonterm (mode _) (derivable_term rfl .nil)))))))))
    rfl rfl

end Memory

end Parsing

section Scanning

namespace Item

/-- An arrow. -/
def arrow : Item where
  text := ['=', '>']
  tokens := [kw .RightArrow]
  loose := true
  breaks := false
  starts absent := by cases absent
  reads _ _ := reads_symbol CharSet.all (.token .RightArrow) (by simp [symbols]) rfl (next_all _)

end Item

namespace Item

/-- A type. -/
def type (own : TypeTree) : Item where
  text := own.text
  tokens := own.tokens
  loose := false
  breaks := false
  starts absent := by cases absent
  reads _ next := own.reads (next rfl)

/-- A field of a memory. -/
def fieldItems (field : TokenName) (listed : field ∈ keywords) (value : Item) : List Item :=
  [keyword field listed, space, arrow, space, value]

theorem linked_fieldItems (field : TokenName) (listed : field ∈ keywords) (value : Item) :
    linked (fieldItems field listed value) = true := by
  simp [fieldItems, linked, keyword, space, arrow]

end Item

namespace Memory

/-- A line with a field. -/
def fieldRow (inner : Text) (white : inner.all isBlank = true) (field : TokenName)
    (listed : field ∈ keywords) (value : Item) : Row :=
  .ofItems [] inner (Item.fieldItems field listed value) (by simp) white (Item.heads_keyword _ _)

/-- The lines of ports. -/
def portRows (inner : Text) (white : inner.all isBlank = true) (kind : TokenName)
    (listed : kind ∈ keywords) (ports : List Name) : List Row :=
  ports.map fun port => fieldRow inner white kind listed (.name port)

/-- The lines of the block of a memory. -/
def bodyRows (m : Memory) (inner : Text) (white : inner.all isBlank = true) : List Row :=
  [fieldRow inner white .DataType (by decide) (.type m.dataType),
    fieldRow inner white .Depth (by decide) (.int m.depth),
    fieldRow inner white .ReadLatency (by decide) (.int m.readLatency),
    fieldRow inner white .WriteLatency (by decide) (.int m.writeLatency)] ++
  (portRows inner white .Reader (by decide) m.readers ++
    (portRows inner white .Writer (by decide) m.writers ++
      portRows inner white .Readwriter (by decide) m.readwriters) ++
    [fieldRow inner white .ReadUnderwrite (by decide)
      (.ground m.ruw.word .Ruw m.ruw.listed)])

/-- The line that begins a memory. -/
def headItems (m : Memory) : List Item :=
  [.keyword .Mem (by decide), .space, .name m.name, .space, .colon]

/-- A memory in lines: one line, and the block below it. -/
def piece (m : Memory) (outer inner : Text) (white : outer.all isBlank = true)
    (white' : inner.all isBlank = true) : Piece :=
  .block (.ofItems [] outer m.headItems (by simp) white (Item.heads_keyword _ _))
    ((m.bodyRows inner white').map .line)

variable (m : Memory) {outer inner : Text} (white : outer.all isBlank = true)
  (white' : inner.all isBlank = true)

theorem fieldRow_written {field : TokenName} {listed : field ∈ keywords} {value : Item} {line : Nat}
    (later : line ≠ 1) : (fieldRow inner white' field listed value).Written line :=
  Row.written_ofItems (Item.linked_fieldItems field listed value) later

theorem bodyRows_field {row : Row} (member : row ∈ m.bodyRows inner white') :
    ∃ field listed value, row = fieldRow inner white' field listed value := by
  simp only [bodyRows, portRows, List.mem_append, List.mem_cons, List.mem_map, List.not_mem_nil,
    or_false] at member
  rcases member with (rfl | rfl | rfl | rfl) |
      (⟨port, -, rfl⟩ | ⟨port, -, rfl⟩ | ⟨port, -, rfl⟩) | rfl <;>
    exact ⟨_, _, _, rfl⟩

theorem rows_lines (rows : List Row) : Piece.rowsAll (rows.map .line) = rows := by
  induction rows with
  | nil => rfl
  | cons row rows ih => rw [List.map_cons, Piece.rowsAll, ih]; rfl

theorem tokens_lines (rows : List Row) :
    Piece.tokensAll (rows.map .line) = rows.flatMap Row.tokens := by
  induction rows with
  | nil => rfl
  | cons row rows ih => rw [List.map_cons, Piece.tokensAll, ih]; rfl

theorem aligned_lines {column : Nat} {rows : List Row} (same : ∀ row ∈ rows, row.column = column) :
    Piece.AlignedAll column (rows.map .line) := by
  induction rows with
  | nil => trivial
  | cons row rows ih =>
      exact ⟨same row List.mem_cons_self, ih fun other member =>
        same other (List.mem_cons_of_mem _ member)⟩

theorem portRows_tokens (kind : TokenName) (listed : kind ∈ keywords) (ports : List Name) :
    (portRows inner white' kind listed ports).flatMap Row.tokens = portTokens kind ports := by
  rw [portRows, List.flatMap_map]
  rfl

theorem piece_tokens : (m.piece outer inner white white').tokens = m.tokens := by
  rw [piece, Piece.tokens, tokens_lines]
  simp only [bodyRows, List.flatMap_append, portRows_tokens]
  simp [tokens, bodyTokens, compulsoryTokens, optionalTokens, fieldLine, fieldRow, Row.ofItems,
    headItems, Item.fieldItems, Item.tokensOf, Item.keyword, Item.space, Item.arrow, Item.name,
    Item.colon, Item.char, Item.type, Item.int, Item.ground]

theorem piece_written {row : Row} (member : row ∈ (m.piece outer inner white white').rows)
    {line : Nat} (later : line ≠ 1) : row.Written line := by
  rw [piece, Piece.rows, rows_lines] at member
  rcases List.mem_cons.mp member with rfl | member
  · exact @Row.written_ofItems _ _ m.headItems _ _ _ rfl _ later
  · obtain ⟨field, listed, value, rfl⟩ := m.bodyRows_field white' member
    exact fieldRow_written white' later

theorem piece_aligned (deeper : column outer < column inner) :
    Piece.Aligned (column outer) (m.piece outer inner white white') := by
  refine ⟨rfl, by simp [bodyRows], column inner, deeper, aligned_lines fun row member => ?_⟩
  obtain ⟨field, listed, value, rfl⟩ := m.bodyRows_field white' member
  rfl

/-- The scanner reads the lines of a memory, anywhere between other lines, as its tokens. -/
theorem scans (deeper : column outer < column inner) {s : Lexical} (indenting : s.mode = .indent)
    (fresh : s.curr_indent = 0) (ordered : Levels s.indentLevels) (later : 1 < s.lineno)
    {more : List Row} (written : ∀ row ∈ more, ∀ line, line ≠ 1 → row.Written line)
    (outside : Outside (column outer) more) :
    ∃ lexemes s' eof, Lexical.Scans s
        (rowsText ((m.piece outer inner white white').rows ++ more)) lexemes s' [] ∧
      s'.step [] = .eof eof ∧ lexemes.map (LR.Lexeme.token Val.erase) =
        (offside s.indentLevels (column outer)).map kw ++
          (m.tokens ++ emit (opened s.indentLevels (column outer)) more) := by
  have all (row : Row) (member : row ∈ (m.piece outer inner white white').rows ++ more) (line : Nat)
      (later : line ≠ 1) : row.Written line := by
    rcases List.mem_append.mp member with own | other
    · exact m.piece_written white white' own later
    · exact written row other line later
  obtain ⟨lexemes, s', eof, scans, ended, tokens⟩ := scans_rows indenting fresh ordered later all
  rw [Piece.emit_piece _ (m.piece_aligned white white' deeper) ordered outside, piece_tokens]
    at tokens
  exact ⟨lexemes, s', eof, scans, ended, tokens⟩

end Memory

end Scanning

section Refusing

/-- Every word `readwriter` is followed by a number. -/
def Numbered : List Tok → Prop
  | [] => True
  | token :: rest => (token.kind = .token .Readwriter →
      ∃ number more, rest = number :: more ∧ number.kind = .token .INT) ∧ Numbered rest

theorem Numbered.append {first second : List Tok} (left : Numbered first)
    (right : Numbered second) :
    Numbered (first ++ second) := by
  induction first with
  | nil => exact right
  | cons token first ih =>
      refine ⟨fun port => ?_, ih left.2⟩
      obtain ⟨number, more, same, kind⟩ := left.1 port
      exact ⟨number, more ++ second, by rw [same]; rfl, kind⟩

theorem Numbered.right {first second : List Tok} (whole : Numbered (first ++ second)) :
    Numbered second := by
  induction first with
  | nil => exact whole
  | cons token first ih => exact ih whole.2

/-- In a right side, a number comes after every `readwriter`. -/
def numbered : List (LR.Symbol Kind Nonterminal) → Bool
  | [] => true
  | .term kind :: rest => (decide (kind ≠ .token .Readwriter) ||
      decide (rest.head? = some (.term (.token .INT)))) && numbered rest
  | .nonterm _ :: rest => numbered rest

theorem numbered_rules : (grammar.rules.all fun r => numbered r.rhs) = true := by decide +kernel

theorem numbered_shares {symbols : List (LR.Symbol Kind Nonterminal)} {word : List Tok}
    {next : Kind}
    (shared : LR.Shares (fun _ word _ => Numbered word) symbols word next)
    (check : numbered symbols = true) : Numbered word := by
  induction shared with
  | nil => trivial
  | @term token symbols word next rest ih =>
      rw [numbered, Bool.and_eq_true, Bool.or_eq_true] at check
      refine ⟨fun port => ?_, ih check.2⟩
      have number : symbols.head? = some (.term (.token .INT)) :=
        of_decide_eq_true (check.1.resolve_left fun other => of_decide_eq_true other port)
      obtain ⟨others, rfl⟩ := List.head?_eq_some_iff.mp number
      obtain ⟨number, more, same, kind, -⟩ := LR.shares_term.mp rest
      exact ⟨number, more, same, kind⟩
  | nonterm head _ ih => exact Numbered.append head (ih check)

/-- In every derived word, a number follows every `readwriter`. -/
theorem numbered_of_parses {context : Nat × Nat} {name : Nonterminal} {word : List Tok}
    {next : Kind}
    {value : Val} (reduced : Parses context name word next value) : Numbered word := by
  have closed : LR.Closed grammar conflicts fun _ word _ => Numbered word :=
    fun _ _ _ _ _ listed _ shared => numbered_shares shared
      (List.all_eq_true.mp numbered_rules _ (List.mem_of_getElem? listed))
  exact closed.of_reduces reduced

/-- The phrases of a memory in which `const` comes only after another word. -/
def memoryPhrases : List Nonterminal :=
  [.memory, .mem_compulsory, .mem_optional, .mem_ruw, .mem_datatype, .mem_depth, .mem_rlatency,
    .mem_wlatency, .mem_reader, .mem_writer, .mem_readwriter, .info]

/-- In a right side, `const` is not written, and types and names come after other words. -/
def parted : (after : Bool) → List (LR.Symbol Kind Nonterminal) → Bool
  | _, [] => true
  | _, .term kind :: rest => decide (kind ≠ .token .Const) && parted true rest
  | after, .nonterm name :: rest => (decide (name ∈ memoryPhrases) ||
      (after && decide (name ∈ [Nonterminal.ALLID, .type]))) && parted false rest

theorem parted_rules : (grammar.rules.all fun r => !decide (r.lhs ∈ memoryPhrases) ||
    parted false r.rhs) = true := by
  decide +kernel

/-- Where the words `const` stand in the phrases of a memory. -/
def memoryWords (name : Nonterminal) (word : List Tok) (next : Kind) : Prop :=
  constWords name word next ∧ (name ∈ memoryPhrases → Apart word ∧ HeadFree word)

theorem apart_of_shares {symbols : List (LR.Symbol Kind Nonterminal)} {word : List Tok}
    {next : Kind}
    (shared : LR.Shares memoryWords symbols word next) {after : Bool}
    (check : parted after symbols = true) : Apart word ∧ (after = false → HeadFree word) := by
  induction shared generalizing after with
  | nil => exact ⟨List.IsChain.nil, fun _ _ absent => by cases absent⟩
  | term _ ih =>
      rw [parted, Bool.and_eq_true] at check
      have other := of_decide_eq_true check.1
      exact ⟨(ih check.2).1.cons (.inl other), fun _ => .cons other⟩
  | @nonterm name symbols first second next head _ ih =>
      rw [parted, Bool.and_eq_true, Bool.or_eq_true, Bool.and_eq_true] at check
      obtain ⟨apart, free⟩ := ih check.2
      rcases check.1 with inner | ⟨later, named⟩
      · obtain ⟨own, heads⟩ := head.2 (of_decide_eq_true inner)
        exact ⟨own.append apart (free rfl), fun _ => heads.append (free rfl)⟩
      · refine ⟨Apart.append ?_ apart (free rfl), fun absent => absurd later (by simp [absent])⟩
        have small := of_decide_eq_true named
        simp only [List.mem_cons, List.not_mem_nil, or_false] at small
        rcases small with rfl | rfl
        · obtain ⟨token, rfl⟩ := head.1
          exact List.IsChain.singleton _
        · exact head.1.1

theorem memoryWords_closed : LR.Closed grammar conflicts memoryWords := by
  intro context rule r word next listed kept shared
  refine ⟨constWords_closed context rule r word next listed kept
    (shared.imp fun _ _ _ held => held.1), fun inner => ?_⟩
  have checked := List.all_eq_true.mp parted_rules _ (List.mem_of_getElem? listed)
  rw [Bool.or_eq_true, Bool.not_eq_true', decide_eq_false_iff_not] at checked
  obtain ⟨apart, free⟩ := apart_of_shares shared (checked.resolve_left (not_not_intro inner))
  exact ⟨apart, free rfl⟩

namespace Memory

variable {m : Memory}

/-- The parser reduces no memory with a `readwriter` port. -/
theorem readwriters_of_parses {context : Nat × Nat} {next : Kind} {value : Val}
    (reduced : Parses context .memory m.tokens next value) : m.readwriters = [] := by
  have numbers := numbered_of_parses reduced
  cases ports : m.readwriters with
  | nil => rfl
  | cons port others =>
      have split : m.tokens = (kw .Mem :: m.name.token :: ch ':' :: kw .INDENT ::
          (m.compulsoryTokens ++ (portTokens .Reader m.readers ++ portTokens .Writer m.writers))) ++
          (kw .Readwriter :: kw .RightArrow :: (port.token :: (portTokens .Readwriter others ++
            (fieldLine .ReadUnderwrite [tok .Ruw m.ruw.word.toList] ++ [kw .DEDENT])))) := by
        simp [tokens, bodyTokens, optionalTokens, ports, portTokens, fieldLine]
      rw [split] at numbers
      obtain ⟨number, more, same, kind⟩ := numbers.right.1 rfl
      obtain rfl := (List.cons.inj same).1
      exact absurd kind (by decide)

/-- The parser reduces a memory only if `const` is not written twice before a vector. -/
theorem single_of_parses {context : Nat × Nat} {next : Kind} {value : Val}
    (reduced : Parses context .memory m.tokens next value) : m.dataType.Single := by
  have apart : Apart m.tokens := ((memoryWords_closed.of_reduces reduced).2 (by decide)).1
  refine m.dataType.single_of_apart (apart.within ⟨[kw .Mem, m.name.token, ch ':', kw .INDENT,
    kw .DataType, kw .RightArrow], fieldLine .Depth [tok .INT m.depth.text] ++
      (fieldLine .ReadLatency [tok .INT m.readLatency.text] ++
        fieldLine .WriteLatency [tok .INT m.writeLatency.text]) ++ (m.optionalTokens ++
          (fieldLine .ReadUnderwrite [tok .Ruw m.ruw.word.toList] ++ [kw .DEDENT])), ?_⟩)
  simp [tokens, bodyTokens, compulsoryTokens, fieldLine]

/-- Scanning and parsing the lines of a memory yields its node: the scanner reads them,
anywhere between other lines, as tokens, which the parser, wherever the grammar expects a
memory, turns into the node. -/
structure ReadBack (m : Memory) : Prop where
  scanned : ∀ (outer inner : Text) (white : outer.all isBlank = true)
    (white' : inner.all isBlank = true) (s : Lexical) (more : List Row),
    column outer < column inner → s.mode = .indent → s.curr_indent = 0 → Levels s.indentLevels →
    1 < s.lineno → (∀ row ∈ more, ∀ line, line ≠ 1 → row.Written line) →
    Outside (column outer) more →
    ∃ lexemes s' eof, Lexical.Scans s
        (rowsText ((m.piece outer inner white white').rows ++ more)) lexemes s' [] ∧
      s'.step [] = .eof eof ∧ lexemes.map (LR.Lexeme.token Val.erase) =
        (offside s.indentLevels (column outer)).map kw ++
          (m.tokens ++ emit (opened s.indentLevels (column outer)) more)
  parsed : ∀ (context : Nat × Nat) (next : Kind),
    Parses context .memory m.tokens next (.pnode m.node)
  runs : ∀ (config : LR.Config Kind Val) (lexemes : List Lexeme) (look : Lexeme)
    (others : List Lexeme) (row : LR.Row) (goto : LR.Goto),
    lexemes.map (LR.Lexeme.token Val.erase) = m.tokens →
    tables.rows.find? (LR.topState config.stack) = some row →
    LR.assoc (LR.code Nonterminal.memory) row.gotos = some goto →
    LR.has goto.follow (LR.code look.kind) = true →
    config.pending = lexemes ++ look :: others →
    ∃ after p, LR.Steps grammar tables act config after ∧
      after.stack = (goto.target, .pnode p) :: config.stack ∧ p.erase = m.node ∧
      after.pending = look :: others

/-- What the lines of a memory need to be read back. -/
def Plain (m : Memory) : Prop := m.readwriters = [] ∧ m.dataType.Single

theorem Plain.readBack (plain : m.Plain) : m.ReadBack where
  scanned _ _ white white' _ _ deeper indenting fresh ordered later written outside :=
    m.scans white white' deeper indenting fresh ordered later written outside
  parsed := m.parses plain.2 plain.1
  runs config lexemes look others row goto spelled found going expected pending := by
    obtain ⟨context, entered⟩ := LR.Tables.exists_kernel tables_entered found
    obtain ⟨after, result, steps, stack, same, rest⟩ :=
      (m.parses plain.2 plain.1 context _).runs tables_validate carries_erase config lexemes others
        look row goto found entered going expected pending spelled rfl
    cases result with
    | pnode p => exact ⟨after, p, steps, stack, Val.pnode.inj same, rest⟩
    | _ => exact absurd same (by simp [Val.erase])

theorem ReadBack.plain (back : m.ReadBack) : m.Plain :=
  have reduced := back.parsed (0, 0) (.token .eof)
  ⟨readwriters_of_parses reduced, single_of_parses reduced⟩

/-- **Memories are read back** exactly if they have no `readwriter` port and `const` is not
written twice before a vector in the data type; any others are reduced nowhere. -/
theorem readBack_iff_plain (m : Memory) : (m.ReadBack ↔ m.Plain) ∧
    ((∃ context next value, Parses context .memory m.tokens next value) ↔ m.Plain) := by
  refine ⟨⟨ReadBack.plain, Plain.readBack⟩, ?_, fun plain => ?_⟩
  · rintro ⟨context, next, value, reduced⟩
    exact ⟨readwriters_of_parses reduced, single_of_parses reduced⟩
  · exact ⟨(0, 0), .token .eof, _, m.parses plain.2 plain.1 _ _⟩

end Memory

/-- A memory `m` of bits with a port `readwriter => rw`. -/
def sharedPort : Memory where
  name := .id ⟨"m".toList, by decide +kernel⟩
  dataType := .ground false (.int false none)
  depth := .decimal 2
  readLatency := .decimal 0
  writeLatency := .decimal 1
  ruw := ⟨"undefined", by decide⟩
  readers := []
  writers := []
  readwriters := [.id ⟨"rw".toList, by decide +kernel⟩]

/-- It is not read back. -/
theorem sharedPort_lost : ¬ sharedPort.ReadBack := by
  intro back
  exact absurd back.plain.1 (List.cons_ne_nil _ _)

end Refusing

end FstWaveDemo
