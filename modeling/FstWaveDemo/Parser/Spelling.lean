import FstWaveDemo.Parser.Layout

/-! # Spelling of tokens

`FstWaveDemo.Reads line text tokens rest` says that the scanner, within a line, reads
a text as some tokens when `rest` comes next. Readings compose; there is one lemma
for each kind of word: keywords, operators, punctuation, and words whose spelling is
only known to be selected by a rule (`FstWaveDemo.Word`), such as identifiers and
numbers.
-/

namespace FstWaveDemo

open Flex (CharSet Pattern)

/-- A token with a value. -/
abbrev Tok := LR.Token Kind Val

/-- A named token without a value. -/
abbrev kw (name : TokenName) : Tok := ⟨.token name, .undef⟩

/-- A character token. -/
abbrev ch (character : Char) : Tok := ⟨.char character, .undef⟩

/-- A named token with a string. -/
abbrev tok (name : TokenName) (text : Text) : Tok := ⟨.token name, .str (some text)⟩

/-- The scanner within a line, between two tokens. -/
structure Inside (s s' : Lexical) : Prop where
  mode : s'.mode = s.mode
  lineno : s'.lineno = s.lineno
  curr_indent : s'.curr_indent = s.curr_indent
  indentLevels : s'.indentLevels = s.indentLevels

theorem Inside.refl (s : Lexical) : Inside s s := ⟨rfl, rfl, rfl, rfl⟩

theorem Inside.trans {s s' s'' : Lexical} (first : Inside s s') (second : Inside s' s'') :
    Inside s s'' :=
  ⟨second.mode.trans first.mode, second.lineno.trans first.lineno,
    second.curr_indent.trans first.curr_indent, second.indentLevels.trans first.indentLevels⟩

/-- On the given line and before `rest`, the scanner reads the text as the tokens. -/
def Reads (line : Nat) (text : Text) (tokens : List Tok) (rest : Text) : Prop :=
  ∀ s : Lexical, s.mode = .normal → s.lineno = line →
    ∃ lexemes s', Lexical.Scans s (text ++ rest) lexemes s' rest ∧
      lexemes.map (LR.Lexeme.token Val.erase) = tokens ∧ Inside s s'

namespace Reads

variable {line : Nat} {first second text rest : Text} {tokens tokens' : List Tok}

theorem nil : Reads line [] [] rest := fun s _ _ => ⟨[], s, .refl, rfl, .refl s⟩

theorem append (left : Reads line first tokens (second ++ rest))
    (right : Reads line second tokens' rest) :
    Reads line (first ++ second) (tokens ++ tokens') rest := by
  intro s normal here
  obtain ⟨lexemes, s', scans, spelled, inside⟩ := left s normal here
  obtain ⟨lexemes', s'', scans', spelled', inside'⟩ :=
    right s' (inside.mode.trans normal) (inside.lineno.trans here)
  refine ⟨lexemes ++ lexemes', s'', ?_, ?_, inside.trans inside'⟩
  · rw [List.append_assoc]
    exact scans.trans scans'
  · rw [List.map_append, spelled, spelled']

/-- A first token and the others. -/
theorem cons {token : Tok} (left : Reads line first [token] (second ++ rest))
    (right : Reads line second tokens rest) : Reads line (first ++ second) (token :: tokens) rest :=
  left.append right

end Reads

/-- The token that a simple action returns for a matched text. -/
def Action.returns (yytext : Text) : Action → Option Tok
  | .token name => some (kw name)
  | .text name => some (tok name yytext)
  | .constant value name => some (tok name value.toList)
  | .operator name => some (tok name yytext.dropLast)
  | .operatorConstant value name => some (tok name value.toList)
  | .count _ _ => some (ch (yytext.headD ' '))
  | .character => some (ch (yytext.headD ' '))
  | _ => none

theorem perform_returns {s : Lexical} {yytext rest : Text} {action : Action} {token : Tok}
    (returned : action.returns yytext = some token) :
    ∃ lexeme s', s.perform yytext rest action = .token lexeme s' rest ∧
      LR.Lexeme.token Val.erase lexeme = token ∧ Inside s s' := by
  cases action with
  | token | text | constant | character =>
      obtain rfl := Option.some.inj returned
      exact ⟨_, _, rfl, rfl, .refl s⟩
  | operator | operatorConstant =>
      obtain rfl := Option.some.inj returned
      exact ⟨_, _, rfl, rfl, ⟨rfl, rfl, rfl, rfl⟩⟩
  | count counter change =>
      obtain rfl := Option.some.inj returned
      cases counter <;> exact ⟨_, _, rfl, rfl, ⟨rfl, rfl, rfl, rfl⟩⟩
  | _ => exact absurd returned (by simp [Action.returns])

/-- A word that a rule selects, before a text that no rule goes on with. -/
theorem reads_of_select {line : Nat} {w rest : Text} {action : Action} {token : Tok}
    (selected : Flex.select Rules.normalRules (w ++ rest) = some (w.length, action))
    (filled : w ≠ []) (flat : '\n' ∉ w) (returned : action.returns w = some token) :
    Reads line w [token] rest := by
  intro s normal _
  have stepped := Lexical.step_word (s := s) (by rw [normal]; exact selected) filled flat
  obtain ⟨lexeme, s', performed, same, inside⟩ := perform_returns (s := s) returned
  exact ⟨[lexeme], s', .token (stepped.trans performed) .refl, by rw [List.map_singleton, same],
    inside⟩

/-- The next character of a text, if there is one, is in a set. -/
def Next (set : CharSet) (text : Text) : Prop := ∀ c ∈ text.head?, set.mem c = true

/-- What may follow a keyword: anything that does not go on with a word or a dash. -/
def wordEnd : CharSet :=
  [('\x00', ','), ('.', '/'), (':', '@'), ('[', '^'), ('`', '`'), ('\x7b', Char.ofNat 0x10ffff)]

/-- What may follow an identifier or a number: a parenthesis may not. -/
def nameEnd : CharSet :=
  [('\x00', '\''), (')', ','), ('.', '/'), (':', '@'), ('[', '^'), ('`', '`'),
    ('\x7b', Char.ofNat 0x10ffff)]

/-- What may follow a bracket or an equals sign that could begin a longer symbol. -/
def symbolEnd : CharSet :=
  [('\x00', ','), ('.', ';'), ('?', Char.ofNat 0x10ffff)]

/-- The keywords whose tokens carry no value. -/
def keywordText : TokenName → String
  | .Flip => "flip" | .Mux => "mux" | .Validif => "validif" | .Mem => "mem" | .Write => "write"
  | .Read => "read" | .DataType => "data-type" | .Depth => "depth" | .ReadLatency => "read-latency"
  | .WriteLatency => "write-latency" | .ReadUnderwrite => "read-under-write" | .Reader => "reader"
  | .Writer => "writer" | .Readwriter => "readwriter" | .Wire => "wire" | .Reg => "reg"
  | .RegReset => "regreset" | .Inst => "inst" | .Of => "of" | .Node => "node"
  | .Invalidate => "invalidate" | .When => "when" | .Else => "else" | .Stop => "stop"
  | .Printf => "printf" | .Assert => "assert" | .Skip => "skip" | .Input => "input"
  | .Output => "output" | .Module => "module" | .Version => "version" | .Connect => "connect"
  | .Define => "define" | .Const => "const" | _ => ""

/-- The tokens of `keywordText`. -/
def keywords : List TokenName :=
  [.Flip, .Mux, .Validif, .Mem, .Write, .Read, .DataType, .Depth, .ReadLatency, .WriteLatency,
    .ReadUnderwrite, .Reader, .Writer, .Readwriter, .Wire, .Reg, .RegReset, .Inst, .Of, .Node,
    .Invalidate, .When, .Else, .Stop, .Printf, .Assert, .Skip, .Input, .Output, .Module, .Version,
    .Connect, .Define, .Const]

/-- The words whose tokens carry the word. -/
def grounds : List (String × TokenName) :=
  [("Clock", .Clock), ("Reset", .Reset), ("AsyncReset", .AsyReset), ("UInt", .IntType),
    ("SInt", .IntType), ("Probe", .ProbeType), ("probe", .Probe), ("old", .Ruw), ("new", .Ruw),
    ("undefined", .Ruw)]

/-- The operators with two operands. -/
def names2 : List String :=
  ["add", "sub", "mul", "div", "rem", "lt", "leq", "gt", "geq", "eq", "neq", "dshl", "dshr", "and",
    "or", "xor", "cat"]

/-- The operators with one operand. -/
def names1 : List String :=
  ["asUInt", "asSInt", "asClock", "asAsyncReset", "cvt", "neg", "not", "andr", "orr", "xorr"]

/-- The operators with one operand and one integer. -/
def names1i : List String := ["pad", "shl", "shr", "head", "tail"]

/-- A word is selected by a rule with the given action, and no rule goes on after it
with a character of the set. -/
def spells (set : CharSet) (w : Text) (action : Action) : Bool :=
  Flex.settled set Rules.normalRules w &&
    decide (Flex.select Rules.normalRules w = some (w.length, action)) &&
    decide ('\n' ∉ w) && !w.isEmpty

/-- The symbols, with what may follow them. -/
def symbols : List (CharSet × Text × Action) :=
  [(CharSet.all, ['['], .count .square_num 1), (CharSet.all, [']'], .count .square_num (-1)),
    (CharSet.all, ['\x7b'], .count .bracket_num 1),
    (CharSet.all, ['\x7d'], .count .bracket_num (-1)),
    (CharSet.all, ['('], .count .parenthesis_num 1),
    (CharSet.all, [')'], .count .parenthesis_num (-1)), (symbolEnd, ['<'], .count .angle_num 1),
    (symbolEnd, ['>'], .count .angle_num (-1)), (CharSet.all, [','], .character),
    (CharSet.all, [':'], .character), (symbolEnd, ['='], .character),
    (CharSet.all, ['=', '>'], .token .RightArrow), (CharSet.all, ['>', '>'], .token .DoubleRight),
    (CharSet.all, [' '], .ignore), (CharSet.all, ['@'], .begin .info)]

/-- The fixed words, with what may follow them and the actions of their rules. -/
def fixedWords : List (CharSet × Text × Action) :=
  keywords.map (fun name => (wordEnd, (keywordText name).toList, .token name)) ++
    grounds.map (fun (word, name) => (wordEnd, word.toList, .constant word name)) ++
    names2.map (fun word => (CharSet.all, word.toList ++ ['('], .operator .E2OP)) ++
    names1.map (fun word => (CharSet.all, word.toList ++ ['('], .operator .E1OP)) ++
    names1i.map (fun word => (CharSet.all, word.toList ++ ['('], .operator .E1I1OP)) ++
    [(CharSet.all, "bits".toList ++ ['('], .operatorConstant "bits" .E1I2OP)] ++ symbols

theorem select_of_spells {set : CharSet} {w rest : Text} {action : Action}
    (own : spells set w action = true) (next : Next set rest) :
    Flex.select Rules.normalRules (w ++ rest) = some (w.length, action) ∧ w ≠ [] ∧ '\n' ∉ w := by
  simp only [spells, Bool.and_eq_true, decide_eq_true_eq, Bool.not_eq_true',
    List.isEmpty_eq_false_iff] at own
  obtain ⟨⟨⟨settled, alone⟩, flat⟩, filled⟩ := own
  exact ⟨Flex.select_word settled alone next, filled, flat⟩

/-- The scanner knows all of them. -/
theorem fixedWords_spelled :
    (fixedWords.all fun (set, w, action) => spells set w action) = true := by
  decide +kernel

theorem select_fixed {set : CharSet} {w rest : Text} {action : Action}
    (listed : (set, w, action) ∈ fixedWords) (next : Next set rest) :
    Flex.select Rules.normalRules (w ++ rest) = some (w.length, action) ∧ w ≠ [] ∧ '\n' ∉ w :=
  select_of_spells (List.all_eq_true.mp fixedWords_spelled _ listed) next

theorem select_symbol {set : CharSet} {w rest : Text} {action : Action}
    (listed : (set, w, action) ∈ symbols) (next : Next set rest) :
    Flex.select Rules.normalRules (w ++ rest) = some (w.length, action) ∧ w ≠ [] ∧ '\n' ∉ w :=
  select_fixed (List.mem_append_right _ listed) next

/-- Reading a fixed word. -/
theorem reads_fixed {line : Nat} (set : CharSet) {w rest : Text} (action : Action) {token : Tok}
    (listed : (set, w, action) ∈ fixedWords) (returned : action.returns w = some token)
    (next : Next set rest) : Reads line w [token] rest := by
  obtain ⟨selected, filled, flat⟩ := select_fixed listed next
  exact reads_of_select selected filled flat returned

section Fixed

variable {line : Nat} {rest : Text}

theorem next_all (rest : Text) : Next CharSet.all rest := fun c _ => CharSet.mem_all c

theorem next_cons {set : CharSet} {c : Char} (member : set.mem c = true) :
    Next set (c :: rest) := by
  intro d same
  obtain rfl := Option.some.inj same
  exact member

theorem reads_keyword {name : TokenName} (listed : name ∈ keywords) (next : Next wordEnd rest) :
    Reads line (keywordText name).toList [kw name] rest := by
  refine reads_fixed wordEnd (.token name) ?_ rfl next
  simp only [fixedWords, List.append_assoc]
  exact List.mem_append_left _ (List.mem_map_of_mem listed)

theorem reads_ground (word : String) {name : TokenName} (listed : (word, name) ∈ grounds)
    (next : Next wordEnd rest) : Reads line word.toList [tok name word.toList] rest := by
  refine reads_fixed wordEnd (.constant word name) ?_ rfl next
  simp only [fixedWords, List.append_assoc]
  exact List.mem_append_right _ (List.mem_append_left _ (List.mem_map_of_mem listed))

/-- Reading a symbol. -/
theorem reads_symbol (set : CharSet) {w : Text} (action : Action) {token : Tok}
    (listed : (set, w, action) ∈ symbols) (returned : action.returns w = some token)
    (next : Next set rest) : Reads line w [token] rest := by
  obtain ⟨selected, filled, flat⟩ := select_symbol listed next
  exact reads_of_select selected filled flat returned

/-- Reading a bracket, a comma or a colon, whatever follows. -/
theorem reads_char {c : Char} (action : Action) (listed : (CharSet.all, [c], action) ∈ symbols)
    (returned : action.returns [c] = some (ch c)) : Reads line [c] [ch c] rest :=
  reads_symbol CharSet.all action listed returned (next_all rest)

/-- Reading a space. -/
theorem reads_space : Reads line [' '] [] rest := by
  intro s normal _
  obtain ⟨selected, -, -⟩ := select_symbol
    (by decide : (CharSet.all, [' '], Action.ignore) ∈ symbols) (next_all rest)
  have stepped := Lexical.step_word (s := s) (by rw [normal]; exact selected)
    (List.cons_ne_nil _ _) (by decide)
  exact ⟨[], s, .next stepped .refl, rfl, .refl s⟩

/-- Reading an operator with the parenthesis after it. -/
theorem reads_operator (words : List String) {name : TokenName} {word : String}
    (known : (words, name) ∈ [(names2, TokenName.E2OP), (names1, .E1OP), (names1i, .E1I1OP)])
    (listed : word ∈ words) :
    Reads line (word.toList ++ ['(']) [tok name word.toList] rest := by
  refine reads_fixed CharSet.all (.operator name) ?_ ?_ (next_all rest)
  · simp only [fixedWords, List.append_assoc]
    simp only [List.mem_cons, List.not_mem_nil, or_false] at known
    rcases known with same | same | same <;> obtain ⟨rfl, rfl⟩ := Prod.mk.inj same
    · exact List.mem_append_right _ (List.mem_append_right _
        (List.mem_append_left _ (List.mem_map_of_mem listed)))
    · exact List.mem_append_right _ (List.mem_append_right _
        (List.mem_append_right _ (List.mem_append_left _ (List.mem_map_of_mem listed))))
    · exact List.mem_append_right _ (List.mem_append_right _ (List.mem_append_right _
        (List.mem_append_right _ (List.mem_append_left _ (List.mem_map_of_mem listed)))))
  · rw [Action.returns, List.dropLast_concat]

/-- Reading `bits` with the parenthesis after it. -/
theorem reads_bits : Reads line ("bits".toList ++ ['(']) [tok .E1I2OP "bits".toList] rest := by
  refine reads_fixed CharSet.all (.operatorConstant "bits" .E1I2OP) ?_ rfl
    (next_all rest)
  simp [fixedWords]

end Fixed

/-- A word that the scanner, reading it alone, takes with one action. -/
structure Word (action : Action) where
  text : Text
  lexed : Flex.select Rules.normalRules text = some (text.length, action)

/-- The words of identifiers and numbers: which rule has the action, and that no rule
goes on with a longer match after them. -/
def freeWords : List (Action × Pattern) :=
  [(.text .ID, Rules.id), (.text .INT, Rules.int), (.text .RINT, Rules.rint)]

theorem freeWords_checked : (freeWords.all fun (action, p) =>
    Rules.normalRules.all (fun r =>
      decide (r.action = action → r.pattern = p) && r.pattern.clear p.begins nameEnd) &&
    !p.nullable && p.avoids [('\n', '\n')]) = true := by
  decide +kernel

/-- Every rule with the action of a free word has its pattern, and none goes on after it. -/
theorem freeWord_checked {action : Action} {p : Pattern} (free : (action, p) ∈ freeWords) :
    (∀ r ∈ Rules.normalRules, (r.action = action → r.pattern = p) ∧
      r.pattern.clear p.begins nameEnd = true) ∧ p.nullable = false ∧
      p.avoids [('\n', '\n')] = true := by
  have check := List.all_eq_true.mp freeWords_checked _ free
  simp only [Bool.and_eq_true, Bool.not_eq_true'] at check
  obtain ⟨⟨each, solid⟩, flat⟩ := check
  refine ⟨fun r member => ?_, solid, flat⟩
  have own := List.all_eq_true.mp each r member
  rwa [Bool.and_eq_true, decide_eq_true_eq] at own

/-- An identifier or a number matches its pattern. -/
theorem Word.matches {action : Action} {p : Pattern} (w : Word action)
    (free : (action, p) ∈ freeWords) : p.Matches w.text := by
  obtain ⟨each, -, -⟩ := freeWord_checked free
  obtain ⟨r, member, same, found⟩ := Flex.select_mem w.lexed
  obtain ⟨u, v, split, length, matched, -⟩ := Pattern.longest_eq_some found
  obtain rfl : v = [] := by
    have total := congrArg List.length split
    rw [List.length_append] at total
    exact List.length_eq_zero_iff.mp (by omega)
  rw [List.append_nil] at split
  rwa [(each r member).1 same, ← split] at matched

/-- Reading an identifier or a number. -/
theorem Word.reads {line : Nat} {rest : Text} {action : Action} {p : Pattern} {token : Tok}
    (w : Word action) (free : (action, p) ∈ freeWords)
    (returned : action.returns w.text = some token) (next : Next nameEnd rest) :
    Reads line w.text [token] rest := by
  obtain ⟨each, solid, flat⟩ := freeWord_checked free
  have matched := w.matches free
  have filled : w.text ≠ [] := by
    intro empty
    rw [empty, ← Pattern.nullable_iff, solid] at matched
    exact absurd matched (by decide)
  obtain ⟨c, others, word⟩ := List.exists_cons_of_ne_nil filled
  have selected :
      Flex.select Rules.normalRules (w.text ++ rest) = some (w.text.length, action) := by
    rw [Flex.select_append_eq fun r member => ?_, w.lexed]
    rw [word] at matched ⊢
    exact Flex.stops_of_clear (each r member).2 (Pattern.mem_begins matched) rfl next
  exact reads_of_select selected filled (Pattern.not_mem_of_avoids_single flat matched) returned

end FstWaveDemo
