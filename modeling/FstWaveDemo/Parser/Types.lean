import FstWaveDemo.LR.Language
import FstWaveDemo.Parser.Items

/-! # Types

Types of FIRRTL, printed as text (`FstWaveDemo.TypeTree.text`). The scanner reads the text
of every type as its tokens (`FstWaveDemo.TypeTree.reads`). The parser turns the tokens into
the tree of the type unless `const` is written twice in front of a vector
(`FstWaveDemo.TypeTree.readBack_iff`): the grammar derives such a type, but the way the
conflicts between the rules of `const` are resolved takes it away.
-/

namespace FstWaveDemo

open Flex (CharSet)

/-- A ground type. -/
inductive Ground
  | clock
  | reset
  | asyncReset
  | int (signed : Bool) (width : Width)
  | probe (signed : Bool) (width : Width)

mutual

/-- A type, with or without `const` before it. -/
inductive TypeTree
  | ground (const : Bool) (own : Ground)
  | vector (const : Bool) (element : TypeTree) (size : Word (.text .INT))
  | bundle (const : Bool) (fields : FieldList)

/-- The fields of a bundle. -/
inductive FieldList
  | nil
  | cons (flip : Bool) (name : Name) (type : TypeTree) (rest : FieldList)

end

namespace Ground

/-- The spelling of a ground type. The brackets that close a probe are adjacent. -/
def text : Ground → Text
  | clock => "Clock".toList
  | reset => "Reset".toList
  | asyncReset => "AsyncReset".toList
  | int signed width => intType signed ++ width.text
  | probe signed width => "Probe".toList ++ ('<' :: (intType signed ++ (width.text ++ ['>'])))

/-- The tokens of a ground type. -/
def tokens : Ground → List Tok
  | clock => [tok .Clock "Clock".toList]
  | reset => [tok .Reset "Reset".toList]
  | asyncReset => [tok .AsyReset "AsyncReset".toList]
  | int signed width => tok .IntType (intType signed) :: width.tokens
  | probe signed none =>
      [tok .ProbeType "Probe".toList, ch '<', tok .IntType (intType signed), ch '>']
  | probe signed (some n) =>
      [tok .ProbeType "Probe".toList, ch '<', tok .IntType (intType signed), ch '<',
        tok .INT (decimal n), kw .DoubleRight]

/-- The node of a ground type. A probe leaves no trace. -/
def node : Ground → PNode
  | clock => .node .P_Clock 0 [] [] [] 0 false []
  | reset => .node .P_RESET 0 [] [] [] 1 false []
  | asyncReset => .node .P_ASYRESET 0 [] [] [] 1 false []
  | int signed width => .node .P_INT_TYPE 0 [] (intType signed) [] width.value signed []
  | probe signed width => .node .P_INT_TYPE 0 [] (intType signed) [] width.value signed []

end Ground

/-- The word `const` and a space, if it is written. -/
def constText (const : Bool) : Text := if const then (keywordText .Const).toList ++ [' '] else []

/-- The token of the word `const`, if it is written. -/
def constTokens (const : Bool) : List Tok := if const then [kw .Const] else []

/-- The word `flip` and a space, if it is written. -/
def flipText (flip : Bool) : Text := if flip then (keywordText .Flip).toList ++ [' '] else []

/-- The token of the word `flip`, if it is written. -/
def flipTokens (flip : Bool) : List Tok := if flip then [kw .Flip] else []

mutual

/-- The spelling of a type. -/
def TypeTree.text : TypeTree → Text
  | .ground const own => constText const ++ own.text
  | .vector const element size => constText const ++ (element.text ++ ('[' :: (size.text ++ [']'])))
  | .bundle const fields => constText const ++ ('\x7b' :: (fields.text ++ ['\x7d']))

/-- The spelling of fields. -/
def FieldList.text : FieldList → Text
  | .nil => []
  | .cons flip name type rest =>
      flipText flip ++ (name.text ++ (' ' :: ':' :: ' ' :: (type.text ++ rest.more)))

/-- The spelling of fields after another one. -/
def FieldList.more : FieldList → Text
  | .nil => []
  | .cons flip name type rest =>
      ',' :: ' ' :: (flipText flip ++
        (name.text ++ (' ' :: ':' :: ' ' :: (type.text ++ rest.more))))

end

mutual

/-- The tokens of a type. -/
def TypeTree.tokens : TypeTree → List Tok
  | .ground const own => constTokens const ++ own.tokens
  | .vector const element size =>
      constTokens const ++ (element.tokens ++ [ch '[', tok .INT size.text, ch ']'])
  | .bundle const fields => constTokens const ++ (ch '\x7b' :: (fields.tokens ++ [ch '\x7d']))

/-- The tokens of fields. -/
def FieldList.tokens : FieldList → List Tok
  | .nil => []
  | .cons flip name type rest =>
      flipTokens flip ++ (name.token :: ch ':' :: (type.tokens ++ rest.moreTokens))

/-- The tokens of fields after another one. -/
def FieldList.moreTokens : FieldList → List Tok
  | .nil => []
  | .cons flip name type rest =>
      ch ',' :: (flipTokens flip ++ (name.token :: ch ':' :: (type.tokens ++ rest.moreTokens)))

end

mutual

/-- The node of a type. The last index is the outermost, and `const` leaves no trace. -/
def TypeTree.node : TypeTree → PNode
  | .ground _ own => own.node
  | .vector _ element size => .node .P_AG_ARRAY 0 [] [] [size.text] 0 false [element.node]
  | .bundle _ fields => .node .P_AG_FIELDS 0 [] [] [] 0 false fields.nodes

/-- The nodes of fields, in written order. -/
def FieldList.nodes : FieldList → List PNode
  | .nil => []
  | .cons flip name type rest =>
      .node (if flip then .P_FLIP_FIELD else .P_FIELD) 0 [] name.text [] 0 false [type.node] ::
        rest.nodes

end

/-- How often `const` is written in front of a type: a vector begins with its element. -/
def TypeTree.consts : TypeTree → Nat
  | .ground const _ => const.toNat
  | .vector const element _ => const.toNat + element.consts
  | .bundle const _ => const.toNat

mutual

/-- In front of no vector in the type, `const` is written twice. -/
def TypeTree.Single : TypeTree → Prop
  | .ground _ _ => True
  | .vector const element _ => const.toNat + element.consts ≤ 1 ∧ element.Single
  | .bundle _ fields => fields.Single

/-- In front of no vector in the fields, `const` is written twice. -/
def FieldList.Single : FieldList → Prop
  | .nil => True
  | .cons _ _ type rest => type.Single ∧ rest.Single

end

section Reading

variable {line : Nat}

theorem reads_const (const : Bool) {rest : Text} :
    Reads line (constText const) (constTokens const) rest := by
  cases const with
  | false => exact .nil
  | true =>
      have listed : TokenName.Const ∈ keywords := by decide
      exact (reads_keyword listed (next_cons (by decide +kernel))).append reads_space

theorem reads_flip (flip : Bool) {rest : Text} :
    Reads line (flipText flip) (flipTokens flip) rest := by
  cases flip with
  | false => exact .nil
  | true =>
      have listed : TokenName.Flip ∈ keywords := by decide
      exact (reads_keyword listed (next_cons (by decide +kernel))).append reads_space

/-- Reading the colon of a field. -/
theorem reads_colon {rest : Text} : Reads line [' ', ':', ' '] [ch ':'] rest :=
  reads_space.append (Reads.append (reads_char .character (by simp [symbols]) rfl) reads_space)

/-- What comes before a printed number may be a bracket. -/
theorem next_decimal (n : Nat) (rest : Text) : Next symbolEnd (decimal n ++ rest) := by
  obtain ⟨c, others, digits⟩ := List.exists_cons_of_ne_nil (l := decimal n) Nat.toDigits_ne_nil
  rw [digits]
  have digit : Rules.digit_dec.mem c = true :=
    decimal_digit (n := n) (by rw [digits]; exact List.mem_cons_self)
  exact next_cons (CharSet.mem_of_within (by decide +kernel) digit)

/-- Reading a ground type. -/
theorem Ground.reads {rest : Text} (next : Next breakChars rest) :
    (own : Ground) → Reads line own.text own.tokens rest
  | .clock => reads_ground "Clock" (by simp [grounds]) (Item.next_of_break (by decide +kernel) next)
  | .reset => reads_ground "Reset" (by simp [grounds]) (Item.next_of_break (by decide +kernel) next)
  | .asyncReset =>
      reads_ground "AsyncReset" (by simp [grounds]) (Item.next_of_break (by decide +kernel) next)
  | .int signed width => by
      have start : Next wordEnd (width.text ++ rest) := by
        cases width with
        | none => exact Item.next_of_break (by decide +kernel) next
        | some n => exact next_cons (by decide +kernel)
      exact (reads_intType signed start).cons
        (width.reads (Item.next_of_break (by decide +kernel) next))
  | .probe signed width => by
      have word (after : Text) : Next symbolEnd (intType signed ++ after) := by
        cases signed <;> exact next_cons (by decide +kernel)
      have probe (after : Text) : Reads line "Probe".toList [tok .ProbeType "Probe".toList]
          ('<' :: after) :=
        reads_ground "Probe" (by simp [grounds]) (next_cons (by decide +kernel))
      have opening (after : Text) : Reads line ['<'] [ch '<'] (intType signed ++ after ++ rest) :=
        reads_symbol symbolEnd (.count .angle_num 1) (by simp [symbols]) rfl
          (by rw [List.append_assoc]; exact word _)
      cases width with
      | none =>
          have closing : Reads line ['>'] [ch '>'] rest :=
            reads_symbol symbolEnd (.count .angle_num (-1)) (by simp [symbols]) rfl
              (Item.next_of_break (by decide +kernel) next)
          exact (probe _).cons ((opening _).cons
            ((reads_intType signed (next_cons (by decide +kernel))).cons closing))
      | some n =>
          have inner : Reads line ['<'] [ch '<'] (decimal n ++ ['>', '>'] ++ rest) :=
            reads_symbol symbolEnd (.count .angle_num 1) (by simp [symbols]) rfl
              (by rw [List.append_assoc]; exact next_decimal n _)
          have number : Reads line (decimal n) [tok .INT (decimal n)] (['>', '>'] ++ rest) :=
            (Word.decimal n).reads_int (next_cons (by decide +kernel))
          have closing : Reads line ['>', '>'] [kw .DoubleRight] rest :=
            reads_symbol CharSet.all (.token .DoubleRight) (by simp [symbols]) rfl (next_all rest)
          have whole : (Ground.probe signed (some n)).text = "Probe".toList ++ (['<'] ++
              (intType signed ++ (['<'] ++ (decimal n ++ ['>', '>'])))) :=
            congrArg (fun w => "Probe".toList ++ ('<' :: (intType signed ++ ('<' :: w))))
              (List.append_assoc (decimal n) ['>'] ['>'])
          rw [whole]
          exact (probe _).cons ((opening _).cons
            ((reads_intType signed (next_cons (by decide +kernel))).cons
              (inner.cons (number.cons closing))))

theorem reads_openBrace {rest : Text} : Reads line ['\x7b'] [ch '\x7b'] rest :=
  reads_char (.count .bracket_num 1) (by simp [symbols]) rfl

theorem reads_closeBrace {rest : Text} : Reads line ['\x7d'] [ch '\x7d'] rest :=
  reads_char (.count .bracket_num (-1)) (by simp [symbols]) rfl

/-- A field is followed by a comma, or by what follows all of them. -/
theorem FieldList.more_next {rest : Text} (next : Next breakChars rest) (fields : FieldList) :
    Next breakChars (fields.more ++ rest) := by
  cases fields with
  | nil => exact next
  | cons flip name type others => exact next_cons (by decide +kernel)

mutual

/-- The scanner reads the text of a type as its tokens. -/
theorem TypeTree.reads {rest : Text} (next : Next breakChars rest) :
    (type : TypeTree) → Reads line type.text type.tokens rest
  | .ground const own => (reads_const const).append (own.reads next)
  | .vector const element size =>
      (reads_const const).append ((element.reads (next_cons (by decide +kernel))).append
        (reads_openSquare.cons ((size.reads_int (next_cons (by decide +kernel))).cons
          reads_closeSquare)))
  | .bundle const fields =>
      (reads_const const).append (reads_openBrace.cons ((fields.reads (next_cons
        (by decide +kernel))).append reads_closeBrace))

/-- The scanner reads the text of fields as their tokens. -/
theorem FieldList.reads {rest : Text} (next : Next breakChars rest) :
    (fields : FieldList) → Reads line fields.text fields.tokens rest
  | .nil => .nil
  | .cons flip name type others =>
      (reads_flip flip).append ((name.reads (next_cons (by decide +kernel))).cons
        (reads_colon.cons ((type.reads (others.more_next next)).append (others.reads_more next))))

/-- The scanner reads the text of fields after another one as their tokens. -/
theorem FieldList.reads_more {rest : Text} (next : Next breakChars rest) :
    (fields : FieldList) → Reads line fields.more fields.moreTokens rest
  | .nil => .nil
  | .cons flip name type others =>
      reads_comma.cons ((reads_flip flip).append ((name.reads (next_cons (by decide +kernel))).cons
        (reads_colon.cons ((type.reads (others.more_next next)).append (others.reads_more next)))))

end

end Reading

section Parsing

/-- The nonterminal that a type without `const` is reduced to first. -/
def TypeTree.kind : TypeTree → Nonterminal
  | .ground _ _ => .type_ground
  | _ => .type_aggregate

/-- The tokens of a type after the words `const` it begins with. -/
def TypeTree.body : TypeTree → List Tok
  | .ground _ own => own.tokens
  | .vector _ element size => element.body ++ [ch '[', tok .INT size.text, ch ']']
  | .bundle _ fields => ch '\x7b' :: (fields.tokens ++ [ch '\x7d'])

theorem constTokens_eq (const : Bool) :
    constTokens const = List.replicate const.toNat (kw .Const) := by
  cases const <;> rfl

/-- A type is written as the words `const` and the rest. -/
theorem TypeTree.tokens_eq (type : TypeTree) :
    type.tokens = List.replicate type.consts (kw .Const) ++ type.body := by
  induction type using TypeTree.rec (motive_2 := fun _ => True) with
  | ground const own => rw [tokens, constTokens_eq, consts, body]
  | bundle const fields => rw [tokens, constTokens_eq, consts, body]
  | vector const element size ih =>
      rw [tokens, constTokens_eq, consts, body, ih, List.replicate_add]
      simp only [List.append_assoc]
  | nil | cons => trivial

/-- Only an index takes away the reduction of a type with `const`. -/
theorem conflicts_const {context : Nat × Nat} {rule : Nat} (const : rule = 46 ∨ rule = 48)
    (next : Kind) : LR.has (conflicts context rule) (LR.code next) = decide (.char '[' = next) := by
  have mask : conflicts context rule = charMask '[' := by
    rw [conflicts, if_pos]
    rcases const with rfl | rfl <;> decide
  rw [mask, charMask, LR.has_bit]
  exact decide_eq_decide.mpr ⟨fun same => LR.Coded.code_injective same, fun same => same ▸ rfl⟩

/-- The node of an integer type, with the sign that the parser takes from the keyword. -/
theorem intType_node (signed : Bool) (width : Int) :
    PNode.node .P_INT_TYPE 0 [] (intType signed) [] width ((intType signed).head? == some 'S') [] =
      .node .P_INT_TYPE 0 [] (intType signed) [] width signed [] := by
  rw [isSigned_intType]

/-- A probe with a width: one token closes both brackets. -/
theorem parses_probe (signed : Bool) {digits : Text} {width : Int} (value : p_stoi digits = width)
    (context : Nat × Nat) (next : Kind) :
    Parses context .type_ground [tok .ProbeType "Probe".toList, ch '<',
      tok .IntType (intType signed), ch '<', tok .INT digits, kw .DoubleRight] next
      (.pnode (.node .P_INT_TYPE 0 [] (intType signed) [] width signed [])) := by
  subst value
  rw [← intType_node]
  exact parses_free 35 rfl (derivable_term rfl (derivable_term rfl (derivable_term rfl
    (derivable_term rfl (derivable_term rfl (derivable_term rfl .nil)))))) rfl rfl

/-- The parser reduces the tokens of a ground type to its node. -/
theorem Ground.parses (own : Ground) (context : Nat × Nat) (next : Kind) :
    Parses context .type_ground own.tokens next (.pnode own.node) := by
  cases own with
  | clock => exact parses_free 29 rfl (derivable_term rfl .nil) rfl rfl
  | reset => exact parses_free 30 rfl (derivable_term rfl .nil) rfl rfl
  | asyncReset => exact parses_free 31 rfl (derivable_term rfl .nil) rfl rfl
  | int signed width =>
      rw [Ground.node, ← intType_node]
      exact parses_free 32 rfl (derivable_term rfl (derivable_last (width.parses _ _ rfl))) rfl rfl
  | probe signed width =>
      cases width with
      | none =>
          rw [Ground.node, ← intType_node]
          exact parses_free 33 rfl (derivable_term rfl (derivable_term rfl (derivable_term rfl
            (derivable_term rfl .nil)))) rfl rfl
      | some n => exact parses_probe signed (p_stoi_decimal n.isLt) context next

/-- A type without `const`. -/
theorem TypeTree.parses_body {type : TypeTree} {context : Nat × Nat} {next : Kind}
    (reduced : Parses context type.kind type.body next (.pnode type.node)) :
    Parses context .type type.body next (.pnode type.node) := by
  cases type with
  | ground => exact parses_free 45 rfl (derivable_last reduced) rfl rfl
  | vector => exact parses_free 47 rfl (derivable_last reduced) rfl rfl
  | bundle => exact parses_free 47 rfl (derivable_last reduced) rfl rfl

/-- A type that begins with `const` at most once. -/
theorem TypeTree.parses_once {type : TypeTree} (once : type.consts ≤ 1)
    (reduced : ∀ context next, Parses context type.kind type.body next (.pnode type.node))
    (context : Nat × Nat) {next : Kind} (other : next ≠ .char '[') :
    Parses context .type type.tokens next (.pnode type.node) := by
  have kept {rule : Nat} (const : rule = 46 ∨ rule = 48) :
      LR.has (conflicts context rule) (LR.code next) = false := by
    rw [conflicts_const const]
    exact decide_eq_false (Ne.symm other)
  rw [type.tokens_eq]
  rcases Nat.le_one_iff_eq_zero_or_eq_one.mp once with zero | one
  · rw [zero]
    exact TypeTree.parses_body (reduced _ _)
  · rw [one]
    cases type with
    | ground =>
        exact parses 46 rfl (derivable_term rfl (derivable_last (reduced _ _)))
          (kept (.inl rfl)) rfl
    | vector =>
        exact parses 48 rfl (derivable_term rfl (derivable_last (reduced _ _)))
          (kept (.inr rfl)) rfl
    | bundle =>
        exact parses 48 rfl (derivable_term rfl (derivable_last (reduced _ _)))
          (kept (.inr rfl)) rfl

/-- The parser reduces the tokens of a field to its node. -/
theorem parses_field (flip : Bool) (name : Name) {word : List Tok} {p : PNode} {next : Kind}
    (type : ∀ context, Parses context .type word next (.pnode p)) (context : Nat × Nat) :
    Parses context .field (flipTokens flip ++ (name.token :: ch ':' :: word)) next
      (.pnode (.node (if flip then .P_FLIP_FIELD else .P_FIELD) 0 [] name.text [] 0 false
        [p])) := by
  cases flip with
  | false =>
      exact parses_free 43 rfl (derivable_single (name.parses _ _) (derivable_term rfl
        (derivable_last (type _)))) rfl rfl
  | true =>
      exact parses_free 44 rfl (derivable_term rfl (derivable_single (name.parses _ _)
        (derivable_term rfl (derivable_last (type _))))) rfl rfl

theorem TypeTree.Single.once {type : TypeTree} (single : type.Single) : type.consts ≤ 1 := by
  cases type with
  | ground const => exact Bool.toNat_le const
  | vector => exact single.1
  | bundle const => exact Bool.toNat_le const

mutual

/-- The parser reduces the tokens of a type, after the words `const`, to its node. -/
theorem TypeTree.parses_kind : (type : TypeTree) → type.Single → (context : Nat × Nat) →
    (next : Kind) → Parses context type.kind type.body next (.pnode type.node)
  | .ground _ own, _, context, next => own.parses context next
  | .vector _ element _, single, _, _ =>
      parses_free 42 rfl (.nonterm (TypeTree.parses_body (element.parses_kind single.2 _ _))
        (derivable_term rfl (derivable_term rfl (derivable_term rfl .nil)))) rfl rfl
  | .bundle _ fields, single, _, _ =>
      parses_free 41 rfl (derivable_term rfl (.nonterm (fields.parses single _)
        (derivable_term rfl .nil))) rfl rfl

/-- The parser reduces the tokens of fields to their nodes. -/
theorem FieldList.parses : (fields : FieldList) → fields.Single → (context : Nat × Nat) →
    Parses context .fields fields.tokens (.char '\x7d') (.plist fields.nodes)
  | .nil, _, context => parses_free 38 rfl .nil rfl rfl
  | .cons flip name type rest, single, context => by
      have first (after : Kind) (other : after ≠ .char '[') : Parses context .fields
          (flipTokens flip ++ (name.token :: ch ':' :: type.tokens)) after (.plist _) :=
        parses_free 40 rfl (derivable_last (parses_field flip name (fun context =>
          TypeTree.parses_once single.1.once (type.parses_kind single.1) context other) _)) rfl rfl
      have closing : Kind.char '\x7d' ≠ .char '[' := by decide
      have whole := rest.parses_more single.2 context first closing
      have split : (FieldList.cons flip name type rest).tokens =
          (flipTokens flip ++ (name.token :: ch ':' :: type.tokens)) ++ rest.moreTokens := by
        simp [FieldList.tokens]
      rw [split]
      exact whole

/-- The parser reduces the tokens of more fields to their nodes after the others. -/
theorem FieldList.parses_more : (fields : FieldList) → fields.Single → (context : Nat × Nat) →
    {word : List Tok} → {list : List PNode} →
    (∀ after, after ≠ .char '[' → Parses context .fields word after (.plist list)) →
    {next : Kind} → next ≠ .char '[' →
    Parses context .fields (word ++ fields.moreTokens) next (.plist (list ++ fields.nodes))
  | .nil, _, _, word, list, before, next, other => by
      rw [FieldList.moreTokens, FieldList.nodes, List.append_nil, List.append_nil]
      exact before next other
  | .cons flip name type rest, single, context, word, list, before, next, other => by
      have longer (after : Kind) (other : after ≠ .char '[') : Parses context .fields
          (word ++ (ch ',' :: (flipTokens flip ++ (name.token :: ch ':' :: type.tokens)))) after
          (.plist (list ++ [_])) :=
        parses_free 39 rfl (.nonterm (before (.char ',') (by decide)) (derivable_term rfl
          (derivable_last (parses_field flip name (fun context =>
            TypeTree.parses_once single.1.once (type.parses_kind single.1) context other) _))))
          rfl rfl
      have whole := rest.parses_more single.2 context longer other
      have split : word ++ (FieldList.cons flip name type rest).moreTokens =
          (word ++ (ch ',' :: (flipTokens flip ++ (name.token :: ch ':' :: type.tokens)))) ++
            rest.moreTokens := by
        simp [FieldList.moreTokens]
      rw [split, FieldList.nodes, List.append_cons list]
      exact whole

end

/-- The parser reduces the tokens of a type to its node where `const` is not written twice. -/
theorem TypeTree.parses {type : TypeTree} (single : type.Single) (context : Nat × Nat)
    {next : Kind} (other : next ≠ .char '[') :
    Parses context .type type.tokens next (.pnode type.node) :=
  TypeTree.parses_once single.once (type.parses_kind single) context other

end Parsing

section Refusing

/-- No token is the word `const`. -/
def Constless (word : List Tok) : Prop := ∀ token ∈ word, token.kind ≠ .token .Const

/-- The first token is not the word `const`. -/
def HeadFree (word : List Tok) : Prop := ∀ token ∈ word.head?, token.kind ≠ .token .Const

/-- No two words `const` are neighbours. -/
def Apart (word : List Tok) : Prop :=
  word.IsChain fun first second => ¬ (first.kind = .token .Const ∧ second.kind = .token .Const)

theorem HeadFree.cons {token : Tok} {word : List Tok} (other : token.kind ≠ .token .Const) :
    HeadFree (token :: word) := by
  intro own same
  rwa [← Option.some.inj same]

theorem Apart.cons {token : Tok} {word : List Tok} (apart : Apart word)
    (free : token.kind ≠ .token .Const ∨ HeadFree word) : Apart (token :: word) := by
  refine List.isChain_cons.mpr ⟨fun second head both => ?_, apart⟩
  rcases free with other | free
  · exact other both.1
  · exact free second head both.2

theorem Apart.append {first second : List Tok} (left : Apart first) (right : Apart second)
    (free : HeadFree second) : Apart (first ++ second) := by
  refine List.isChain_append.mpr ⟨left, right, fun last _ head start both => ?_⟩
  exact free head start both.2

theorem Apart.within {part word : List Tok} (apart : Apart word) (inside : part <:+: word) :
    Apart part :=
  List.IsChain.infix apart inside

theorem Constless.headFree {word : List Tok} (free : Constless word) : HeadFree word :=
  fun token head => free token (List.mem_of_mem_head? head)

theorem Constless.apart {word : List Tok} (free : Constless word) : Apart word := by
  induction word with
  | nil => exact List.IsChain.nil
  | cons token word ih =>
      exact Apart.cons (ih fun own member => free own (List.mem_cons_of_mem _ member))
        (.inl (free token List.mem_cons_self))

/-- Where the words `const` stand in the phrases of a type: two neighbours are in none of
them, and only a type before which no index comes begins with one. -/
def constWords : Nonterminal → List Tok → Kind → Prop
  | .ALLID, word, _ => ∃ token, word = [token]
  | .width, word, _ => Constless word
  | .binary_point, word, _ => Constless word
  | .type_ground, word, _ => Constless word
  | .type_aggregate, word, _ => Apart word ∧ HeadFree word
  | .fields, word, _ => Apart word
  | .field, word, _ => Apart word
  | .type, word, next => Apart word ∧ (next = .char '[' → HeadFree word)
  | _, _, _ => True

/-- The rules of the phrases in which no word `const` is. -/
theorem constless_rules : (grammar.rules.all fun r =>
    !decide (r.lhs ∈ [Nonterminal.width, .binary_point, .type_ground]) ||
      r.rhs.all fun symbol => match symbol with
        | .term kind => decide (kind ≠ .token .Const)
        | .nonterm name => decide (name ∈ [Nonterminal.width, .binary_point])) = true := by
  decide +kernel

/-- The rules of names: one token each. -/
theorem name_rules : (grammar.rules.all fun r => !decide (r.lhs = .ALLID) ||
    match r.rhs with
      | [.term _] => true
      | _ => false) = true := by
  decide +kernel

/-- The right sides of a nonterminal, with their numbers. -/
def rightSides (name : Nonterminal) : List (Nat × List (LR.Symbol Kind Nonterminal)) :=
  (LR.rulesOf (LR.code name) 0 grammar.rules).map fun r => (r.1, r.2.rhs)

theorem rightSides_types : rightSides .type =
      [(45, [.nonterm .type_ground]), (46, [.term (.token .Const), .nonterm .type_ground]),
        (47, [.nonterm .type_aggregate]), (48, [.term (.token .Const), .nonterm .type_aggregate])] ∧
    rightSides .type_aggregate =
      [(41, [.term (.char '\x7b'), .nonterm .fields, .term (.char '\x7d')]),
        (42, [.nonterm .type, .term (.char '['), .term (.token .INT), .term (.char ']')])] ∧
    rightSides .fields = [(38, []), (39, [.nonterm .fields, .term (.char ','), .nonterm .field]),
      (40, [.nonterm .field])] ∧
    rightSides .field = [(43, [.nonterm .ALLID, .term (.char ':'), .nonterm .type]),
      (44, [.term (.token .Flip), .nonterm .ALLID, .term (.char ':'), .nonterm .type])] := by
  decide +kernel

theorem HeadFree.append {first second : List Tok} (left : HeadFree first)
    (right : HeadFree second) : HeadFree (first ++ second) := by
  cases first with
  | nil => exact right
  | cons token first => exact left

theorem constless_of_shares {r : LR.Rule Kind Nonterminal} {word : List Tok} {next : Kind}
    (listed : r ∈ grammar.rules)
    (inner : r.lhs ∈ [Nonterminal.width, .binary_point, .type_ground])
    (shared : LR.Shares constWords r.rhs word next) : Constless word := by
  have checked := List.all_eq_true.mp constless_rules r listed
  rw [Bool.or_eq_true, Bool.not_eq_true', decide_eq_false_iff_not] at checked
  have symbols := List.all_eq_true.mp (checked.resolve_left (not_not_intro inner))
  intro token member
  rcases shared.mem member with own | ⟨name, part, after, mentioned, held, inside⟩
  · exact of_decide_eq_true (symbols _ own)
  · have small : name ∈ [Nonterminal.width, .binary_point] :=
      of_decide_eq_true (symbols _ mentioned)
    simp only [List.mem_cons, List.not_mem_nil, or_false] at small
    rcases small with rfl | rfl <;> exact held token inside

theorem name_of_shares {symbols : List (LR.Symbol Kind Nonterminal)} {word : List Tok} {next : Kind}
    (form : (match symbols with
      | [.term _] => true
      | _ => false) = true)
    (shared : LR.Shares constWords symbols word next) : ∃ token, word = [token] := by
  cases symbols with
  | nil => cases form
  | cons symbol more =>
      cases symbol with
      | nonterm => cases form
      | term kind =>
          cases more with
          | cons => cases form
          | nil =>
              obtain ⟨token, rest, rfl, -, later⟩ := LR.shares_term.mp shared
              obtain rfl := LR.shares_nil.mp later
              exact ⟨token, rfl⟩

/-- A token other than `const`. -/
theorem other_kind {token : Tok} {kind : Kind} (own : token.kind = kind)
    (other : kind ≠ .token .Const) : token.kind ≠ .token .Const := own ▸ other

/-- Types keep it, where the conflicts leave them. -/
theorem constWords_type {context : Nat × Nat} {rule : Nat}
    {symbols : List (LR.Symbol Kind Nonterminal)} {word : List Tok} {next : Kind}
    (listed : (rule, symbols) ∈ rightSides .type)
    (kept : LR.has (conflicts context rule) (LR.code next) = false)
    (shared : LR.Shares constWords symbols word next) : constWords .type word next := by
  rw [rightSides_types.1] at listed
  simp only [List.mem_cons, Prod.mk.injEq, List.not_mem_nil, or_false] at listed
  rcases listed with ⟨rfl, rfl⟩ | ⟨rfl, rfl⟩ | ⟨rfl, rfl⟩ | ⟨rfl, rfl⟩
  · have free : Constless word := LR.shares_single.mp shared
    exact ⟨free.apart, fun _ => free.headFree⟩
  · obtain ⟨token, rest, rfl, -, shared⟩ := LR.shares_term.mp shared
    have free : Constless rest := LR.shares_single.mp shared
    rw [conflicts_const (.inl rfl), decide_eq_false_iff_not] at kept
    exact ⟨free.apart.cons (.inr free.headFree), fun index => absurd index.symm kept⟩
  · obtain ⟨apart, free⟩ : Apart word ∧ HeadFree word := LR.shares_single.mp shared
    exact ⟨apart, fun _ => free⟩
  · obtain ⟨token, rest, rfl, -, shared⟩ := LR.shares_term.mp shared
    obtain ⟨apart, free⟩ : Apart rest ∧ HeadFree rest := LR.shares_single.mp shared
    rw [conflicts_const (.inr rfl), decide_eq_false_iff_not] at kept
    exact ⟨apart.cons (.inr free), fun index => absurd index.symm kept⟩

/-- Bundles and vectors keep it. -/
theorem constWords_aggregate {rule : Nat} {symbols : List (LR.Symbol Kind Nonterminal)}
    {word : List Tok} {next : Kind} (listed : (rule, symbols) ∈ rightSides .type_aggregate)
    (shared : LR.Shares constWords symbols word next) : constWords .type_aggregate word next := by
  rw [rightSides_types.2.1] at listed
  simp only [List.mem_cons, Prod.mk.injEq, List.not_mem_nil, or_false] at listed
  rcases listed with ⟨rfl, rfl⟩ | ⟨rfl, rfl⟩
  · obtain ⟨opening, rest, rfl, kind, shared⟩ := LR.shares_term.mp shared
    obtain ⟨first, second, rfl, held, shared⟩ := LR.shares_nonterm.mp shared
    obtain ⟨closing, others, rfl, kind', shared⟩ := LR.shares_term.mp shared
    obtain rfl := LR.shares_nil.mp shared
    have free := other_kind kind (by decide)
    have apart : Apart (first ++ [closing]) :=
      Apart.append held (List.IsChain.singleton _) (.cons (other_kind kind' (by decide)))
    exact ⟨apart.cons (.inl free), .cons free⟩
  · obtain ⟨first, second, rfl, held, shared⟩ := LR.shares_nonterm.mp shared
    obtain ⟨opening, rest, rfl, kind, shared⟩ := LR.shares_term.mp shared
    obtain ⟨size, rest, rfl, number, shared⟩ := LR.shares_term.mp shared
    obtain ⟨closing, rest, rfl, -, shared⟩ := LR.shares_term.mp shared
    obtain rfl := LR.shares_nil.mp shared
    obtain ⟨apart, free⟩ : Apart first ∧ (opening.kind = .char '[' → HeadFree first) := held
    have index : HeadFree (opening :: [size, closing]) := .cons (other_kind kind (by decide))
    have inner : Apart [size, closing] :=
      Apart.cons (List.IsChain.singleton _) (.inl (other_kind number (by decide)))
    have tail : Apart (opening :: [size, closing]) :=
      inner.cons (.inl (other_kind kind (by decide)))
    exact ⟨apart.append tail index, (free kind).append index⟩

/-- Fields keep it. -/
theorem constWords_fields {rule : Nat} {symbols : List (LR.Symbol Kind Nonterminal)}
    {word : List Tok} {next : Kind} (listed : (rule, symbols) ∈ rightSides .fields)
    (shared : LR.Shares constWords symbols word next) : constWords .fields word next := by
  rw [rightSides_types.2.2.1] at listed
  simp only [List.mem_cons, Prod.mk.injEq, List.not_mem_nil, or_false] at listed
  rcases listed with ⟨rfl, rfl⟩ | ⟨rfl, rfl⟩ | ⟨rfl, rfl⟩
  · obtain rfl := LR.shares_nil.mp shared
    exact List.IsChain.nil
  · obtain ⟨first, second, rfl, held, shared⟩ := LR.shares_nonterm.mp shared
    obtain ⟨comma, rest, rfl, kind, shared⟩ := LR.shares_term.mp shared
    have last : Apart rest := LR.shares_single.mp shared
    have other := other_kind kind (by decide)
    exact Apart.append held (last.cons (.inl other)) (.cons other)
  · have held : constWords .field word next := LR.shares_single.mp shared
    exact held

/-- A field keeps it. -/
theorem constWords_field {rule : Nat} {symbols : List (LR.Symbol Kind Nonterminal)}
    {word : List Tok} {next : Kind} (listed : (rule, symbols) ∈ rightSides .field)
    (shared : LR.Shares constWords symbols word next) : constWords .field word next := by
  have typed {symbols : List (LR.Symbol Kind Nonterminal)} {word : List Tok}
      (shared : LR.Shares constWords (.nonterm .ALLID :: .term (.char ':') :: symbols) word next)
      (last : symbols = [.nonterm .type]) : Apart word := by
    subst last
    obtain ⟨first, second, rfl, ⟨name, rfl⟩, later⟩ := LR.shares_nonterm.mp shared
    obtain ⟨colon, rest, rfl, kind, type⟩ := LR.shares_term.mp later
    have last : Apart rest := (LR.shares_single.mp type).1
    have other := other_kind kind (by decide)
    exact (last.cons (.inl other)).cons (.inr (.cons other))
  rw [rightSides_types.2.2.2] at listed
  simp only [List.mem_cons, Prod.mk.injEq, List.not_mem_nil, or_false] at listed
  rcases listed with ⟨rfl, rfl⟩ | ⟨rfl, rfl⟩
  · exact typed shared rfl
  · obtain ⟨flip, rest, rfl, kind, shared⟩ := LR.shares_term.mp shared
    exact (typed shared rfl).cons (.inl (other_kind kind (by decide)))

/-- The rules keep it, where the conflicts leave them. -/
theorem constWords_closed : LR.Closed grammar conflicts constWords := by
  intro context rule r word next numbered kept shared
  have listed : (rule, r.rhs) ∈ rightSides r.lhs :=
    List.mem_map.mpr ⟨_, LR.rule_mem numbered, rfl⟩
  have member := List.mem_of_getElem? numbered
  obtain ⟨name, symbols, prec⟩ := r
  cases name with
  | ALLID =>
      have checked := List.all_eq_true.mp name_rules _ member
      rw [Bool.or_eq_true] at checked
      exact name_of_shares (checked.resolve_left (by simp)) shared
  | width => exact constless_of_shares member (by simp) shared
  | binary_point => exact constless_of_shares member (by simp) shared
  | type_ground => exact constless_of_shares member (by simp) shared
  | type => exact constWords_type listed kept shared
  | type_aggregate => exact constWords_aggregate listed shared
  | fields => exact constWords_fields listed shared
  | field => exact constWords_field listed shared
  | _ => trivial

mutual

/-- Where no two words `const` are neighbours, none is written twice before a vector. -/
theorem TypeTree.single_of_apart : (type : TypeTree) → Apart type.tokens → type.Single
  | .ground _ _, _ => trivial
  | .vector const element size, apart => by
      have inner : element.tokens <:+: (TypeTree.vector const element size).tokens :=
        ⟨constTokens const, [ch '[', tok .INT size.text, ch ']'], by
          rw [TypeTree.tokens, List.append_assoc]⟩
      refine ⟨?_, element.single_of_apart (apart.within inner)⟩
      by_contra twice
      obtain ⟨more, count⟩ := Nat.exists_eq_add_of_le' (Nat.lt_of_not_le twice)
      rw [TypeTree.tokens_eq, TypeTree.consts, count, List.replicate_succ,
        List.replicate_succ] at apart
      exact (List.isChain_cons_cons.mp apart).1 ⟨rfl, rfl⟩
  | .bundle const fields, apart =>
      fields.single_of_apart (apart.within ⟨constTokens const ++ [ch '\x7b'], [ch '\x7d'], by
        simp [TypeTree.tokens]⟩)

theorem FieldList.single_of_apart : (fields : FieldList) → Apart fields.tokens → fields.Single
  | .nil, _ => trivial
  | .cons flip name type rest, apart => by
      refine ⟨type.single_of_apart (apart.within ⟨flipTokens flip ++ [name.token, ch ':'],
        rest.moreTokens, by simp [FieldList.tokens]⟩), rest.single_of_more (apart.within
          ⟨flipTokens flip ++ name.token :: ch ':' :: type.tokens, [], by simp [FieldList.tokens]⟩)⟩

theorem FieldList.single_of_more : (fields : FieldList) → Apart fields.moreTokens → fields.Single
  | .nil, _ => trivial
  | .cons flip name type rest, apart => by
      refine ⟨type.single_of_apart (apart.within
        ⟨ch ',' :: (flipTokens flip ++ [name.token, ch ':']), rest.moreTokens, by
          simp [FieldList.moreTokens]⟩), rest.single_of_more (apart.within
          ⟨ch ',' :: (flipTokens flip ++ name.token :: ch ':' :: type.tokens), [], by
            simp [FieldList.moreTokens]⟩)⟩

end

/-- What the parser reduces to a type has no two neighbouring words `const`. -/
theorem apart_of_parses {context : Nat × Nat} {word : List Tok} {next : Kind} {value : Val}
    (reduced : Parses context .type word next value) : Apart word :=
  (constWords_closed.of_reduces reduced).1

end Refusing

/-- Scanning and parsing the text of a type yields its tree: the scanner reads the text as
tokens, which the parser, wherever the grammar expects a type, turns into the tree. -/
structure TypeTree.ReadBack (type : TypeTree) : Prop where
  scanned : ∀ (line : Nat) (rest : Text), Next breakChars rest →
    Reads line type.text type.tokens rest
  parsed : ∀ (context : Nat × Nat) (next : Kind), next ≠ .char '[' →
    Parses context .type type.tokens next (.pnode type.node)
  runs : ∀ (config : LR.Config Kind Val) (lexemes : List Lexeme) (look : Lexeme)
    (others : List Lexeme) (row : LR.Row) (goto : LR.Goto),
    lexemes.map (LR.Lexeme.token Val.erase) = type.tokens →
    tables.rows.find? (LR.topState config.stack) = some row →
    LR.assoc (LR.code Nonterminal.type) row.gotos = some goto →
    LR.has goto.follow (LR.code look.kind) = true → look.kind ≠ .char '[' →
    config.pending = lexemes ++ look :: others →
    ∃ after p, LR.Steps grammar tables act config after ∧
      after.stack = (goto.target, .pnode p) :: config.stack ∧ p.erase = type.node ∧
      after.pending = look :: others

theorem TypeTree.Single.readBack {type : TypeTree} (single : type.Single) : type.ReadBack where
  scanned _ _ next := type.reads next
  parsed context _ other := TypeTree.parses single context other
  runs config lexemes look others row goto spelled found going expected other pending := by
    obtain ⟨context, entered⟩ := LR.Tables.exists_kernel tables_entered found
    obtain ⟨after, result, steps, stack, same, rest⟩ :=
      (TypeTree.parses single context other).runs tables_validate carries_erase config lexemes
        others look row goto found entered going expected pending spelled rfl
    cases result with
    | pnode p => exact ⟨after, p, steps, stack, Val.pnode.inj same, rest⟩
    | _ => exact absurd same (by simp [Val.erase])

theorem TypeTree.ReadBack.single {type : TypeTree} (back : type.ReadBack) : type.Single :=
  type.single_of_apart (apart_of_parses (back.parsed (0, 0) (.token .eof) (by decide)))

/-- **Parsing undoes printing on types** exactly if `const` is not written twice before a
vector; where it is, the parser reduces the tokens to a type nowhere. -/
theorem TypeTree.readBack_iff (type : TypeTree) : (type.ReadBack ↔ type.Single) ∧
    ((∃ context next value, Parses context .type type.tokens next value) ↔ type.Single) := by
  refine ⟨⟨TypeTree.ReadBack.single, TypeTree.Single.readBack⟩, ?_, fun single => ?_⟩
  · rintro ⟨context, next, value, reduced⟩
    exact type.single_of_apart (apart_of_parses reduced)
  · exact ⟨(0, 0), .token .eof, _, TypeTree.parses single (0, 0) (by decide)⟩

/-- A constant vector of constants, `const const UInt[2]`. -/
def constVector : TypeTree :=
  .vector true (.ground true (.int false none)) ⟨"2".toList, by decide +kernel⟩

/-- It is not read back. -/
theorem constVector_lost : ¬ constVector.ReadBack := by
  intro back
  exact absurd back.single.1 (by decide)

end FstWaveDemo
