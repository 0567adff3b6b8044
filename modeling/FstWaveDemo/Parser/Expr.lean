import FstWaveDemo.Parser.Derivation
import FstWaveDemo.Parser.Words

/-! # Expressions

Expressions and references of FIRRTL, printed as text (`FstWaveDemo.Expr.text`). The
scanner reads the text of an expression as its tokens (`FstWaveDemo.Expr.reads`), and
the parser reduces them to its tree (`FstWaveDemo.Expr.parses`); together, parsing
undoes printing.
-/

namespace FstWaveDemo

open Flex (CharSet)

/-- An operator from a list of names. -/
structure Operator (words : List String) where
  word : String
  listed : word ∈ words

/-- A width: an `int` that is not negative, or none. -/
abbrev Width := Option (Fin (2 ^ 31))

namespace Width

/-- The spelling of a width. -/
def text : Width → Text
  | none => []
  | some n => '<' :: (decimal n ++ ['>'])

/-- The tokens of a width. -/
def tokens : Width → List Tok
  | none => []
  | some n => [ch '<', tok .INT (decimal n), ch '>']

/-- The width that nodes hold: -1 if there is none. -/
def value : Width → Int
  | none => -1
  | some n => (n.val : Int)

end Width

/-- The value of an integer literal. -/
inductive Literal
  | empty
  | int (word : Word (.text .INT))
  | rint (word : Word (.text .RINT))

/-- The keyword of an integer type. -/
def intType (signed : Bool) : Text := if signed then "SInt".toList else "UInt".toList

mutual

/-- An expression. -/
inductive Expr
  | reference (reference : Reference)
  | literal (signed : Bool) (width : Width) (value : Literal)
  | mux (condition first second : Expr)
  | validif (condition value : Expr)
  | primop_2expr (op : Operator names2) (first second : Expr)
  | primop_1expr (op : Operator names1) (operand : Expr)
  | primop_1expr1int (op : Operator names1i) (operand : Expr) (n : Word (.text .INT))
  | primop_1expr2int (operand : Expr) (high low : Word (.text .INT))

/-- A reference: a name and a chain of accessors. -/
inductive Reference
  | name (name : Name)
  | dot (base : Reference) (field : DotName)
  | index (base : Reference) (n : Word (.text .INT))
  | access (base : Reference) (index : Expr)

end

namespace Literal

/-- The spelling of the value of a literal. -/
def text : Literal → Text
  | empty => []
  | int word => word.text
  | rint word => word.text

/-- The tokens of the value of a literal. -/
def tokens : Literal → List Tok
  | empty => []
  | int word => [tok .INT word.text]
  | rint word => [tok .RINT word.text]

/-- The node of a literal. -/
def tree (signed : Bool) (width : Width) : Literal → PNode
  | empty => .node .P_EXPR_INT_NOINIT 0 [] (intType signed) [] width.value signed []
  | int word => .node .P_EXPR_INT_INIT 0 [] (intType signed) [word.text] width.value signed []
  | rint word => .node .P_EXPR_INT_INIT 0 [] (intType signed) [word.text] width.value signed []

end Literal

mutual

/-- The spelling of an expression. -/
def Expr.text : Expr → Text
  | .reference reference => reference.text
  | .literal signed width value =>
      intType signed ++ (width.text ++ ('(' :: (value.text ++ [')'])))
  | .mux condition first second =>
      (keywordText .Mux).toList ++ ('(' :: (condition.text ++ (',' :: ' ' :: (first.text ++
        (',' :: ' ' :: (second.text ++ [')']))))))
  | .validif condition value =>
      (keywordText .Validif).toList ++ ('(' :: (condition.text ++ (',' :: ' ' :: (value.text ++
        [')']))))
  | .primop_2expr op first second =>
      (op.word.toList ++ ['(']) ++ (first.text ++ (',' :: ' ' :: (second.text ++ [')'])))
  | .primop_1expr op operand => (op.word.toList ++ ['(']) ++ (operand.text ++ [')'])
  | .primop_1expr1int op operand n =>
      (op.word.toList ++ ['(']) ++ (operand.text ++ (',' :: ' ' :: (n.text ++ [')'])))
  | .primop_1expr2int operand high low =>
      ("bits".toList ++ ['(']) ++ (operand.text ++ (',' :: ' ' :: (high.text ++
        (',' :: ' ' :: (low.text ++ [')'])))))

/-- The spelling of a reference. -/
def Reference.text : Reference → Text
  | .name name => name.text
  | .dot base field => base.text ++ ('.' :: field.text)
  | .index base n => base.text ++ ('[' :: (n.text ++ [']']))
  | .access base index => base.text ++ ('[' :: (index.text ++ [']']))

end

mutual

/-- The tokens of an expression. -/
def Expr.tokens : Expr → List Tok
  | .reference reference => reference.tokens
  | .literal signed width value =>
      tok .IntType (intType signed) :: (width.tokens ++ (ch '(' :: (value.tokens ++ [ch ')'])))
  | .mux condition first second =>
      kw .Mux :: ch '(' :: (condition.tokens ++ (ch ',' :: (first.tokens ++ (ch ',' ::
        (second.tokens ++ [ch ')'])))))
  | .validif condition value =>
      kw .Validif :: ch '(' :: (condition.tokens ++ (ch ',' :: (value.tokens ++ [ch ')'])))
  | .primop_2expr op first second =>
      tok .E2OP op.word.toList :: (first.tokens ++ (ch ',' :: (second.tokens ++ [ch ')'])))
  | .primop_1expr op operand => tok .E1OP op.word.toList :: (operand.tokens ++ [ch ')'])
  | .primop_1expr1int op operand n =>
      tok .E1I1OP op.word.toList :: (operand.tokens ++ [ch ',', tok .INT n.text, ch ')'])
  | .primop_1expr2int operand high low =>
      tok .E1I2OP "bits".toList :: (operand.tokens ++
        [ch ',', tok .INT high.text, ch ',', tok .INT low.text, ch ')'])

/-- The tokens of a reference. -/
def Reference.tokens : Reference → List Tok
  | .name name => [name.token]
  | .dot base field => base.tokens ++ [ch '.', tok .ID field.text]
  | .index base n => base.tokens ++ [ch '[', tok .INT n.text, ch ']']
  | .access base index => base.tokens ++ (ch '[' :: (index.tokens ++ [ch ']']))

end

/-- The name that a reference begins with. -/
def Reference.base : Reference → Name
  | .name own => own
  | .dot base _ => base.base
  | .index base _ => base.base
  | .access base _ => base.base

mutual

/-- The tree of an expression. -/
def Expr.tree : Expr → PNode
  | .reference reference =>
      .node .P_REF 0 [] reference.base.text [] 0 false reference.accessors
  | .literal signed width value => value.tree signed width
  | .mux condition first second =>
      .node .P_EXPR_MUX 0 [] [] [] 0 false [condition.tree, first.tree, second.tree]
  | .validif _ value => value.tree
  | .primop_2expr op first second =>
      .node .P_2EXPR 0 [] op.word.toList [] 0 false [first.tree, second.tree]
  | .primop_1expr op operand => .node .P_1EXPR 0 [] op.word.toList [] 0 false [operand.tree]
  | .primop_1expr1int op operand n =>
      .node .P_1EXPR1INT 0 [] op.word.toList [n.text] 0 false [operand.tree]
  | .primop_1expr2int operand high low =>
      .node .P_1EXPR2INT 0 [] "bits".toList [high.text, low.text] 0 false [operand.tree]

/-- The nodes of the accessors of a reference, in written order. -/
def Reference.accessors : Reference → List PNode
  | .name _ => []
  | .dot base field => base.accessors ++ [.node .P_REF_DOT 0 [] field.text [] 0 false []]
  | .index base n => base.accessors ++ [.node .P_REF_IDX_INT 0 [] n.text [] 0 false []]
  | .access base index =>
      base.accessors ++ [.node .P_REF_IDX_EXPR 0 [] [] [] 0 false [index.tree]]

end

/-- The tree of a reference. -/
def Reference.tree (reference : Reference) : PNode :=
  .node .P_REF 0 [] reference.base.text [] 0 false reference.accessors

section Reading

variable {line : Nat} {rest : Text}

/-- Reading a comma and the space after it. -/
theorem reads_comma : Reads line [',', ' '] [ch ','] rest :=
  (reads_char (.character) (by simp [symbols]) rfl).append reads_space

theorem reads_open : Reads line ['('] [ch '('] rest :=
  reads_char (.count .parenthesis_num 1) (by simp [symbols]) rfl

theorem reads_close : Reads line [')'] [ch ')'] rest :=
  reads_char (.count .parenthesis_num (-1)) (by simp [symbols]) rfl

theorem reads_openSquare : Reads line ['['] [ch '['] rest :=
  reads_char (.count .square_num 1) (by simp [symbols]) rfl

theorem reads_closeSquare : Reads line [']'] [ch ']'] rest :=
  reads_char (.count .square_num (-1)) (by simp [symbols]) rfl

theorem reads_intType (signed : Bool) (next : Next wordEnd rest) :
    Reads line (intType signed) [tok .IntType (intType signed)] rest := by
  cases signed with
  | true => exact reads_ground "SInt" (by simp [grounds]) next
  | false => exact reads_ground "UInt" (by simp [grounds]) next

/-- Reading a width. -/
theorem Width.reads (width : Width) (next : Next symbolEnd rest) :
    Reads line width.text width.tokens rest := by
  cases width with
  | none => exact .nil
  | some n =>
      have digits (after : Text) : Next symbolEnd (decimal n ++ after) := by
        obtain ⟨c, others, digits⟩ :=
          List.exists_cons_of_ne_nil (l := decimal n) Nat.toDigits_ne_nil
        rw [digits]
        have digit : Rules.digit_dec.mem c = true :=
          decimal_digit (n := n) (by rw [digits]; exact List.mem_cons_self)
        exact next_cons (CharSet.mem_of_within (by decide +kernel) digit)
      have opening : Reads line ['<'] [ch '<'] (decimal n ++ ['>'] ++ rest) :=
        reads_symbol symbolEnd (.count .angle_num 1) (by simp [symbols]) rfl
          (by rw [List.append_assoc]; exact digits _)
      have number : Reads line (decimal n) [tok .INT (decimal n)] (['>'] ++ rest) :=
        (Word.decimal n).reads_int (next_cons (by decide +kernel))
      have closing : Reads line ['>'] [ch '>'] rest :=
        reads_symbol symbolEnd (.count .angle_num (-1)) (by simp [symbols]) rfl next
      exact opening.cons (number.cons closing)

/-- Reading the value of a literal. -/
theorem Literal.reads (value : Literal) (next : Next nameEnd rest) :
    Reads line value.text value.tokens rest := by
  cases value with
  | empty => exact .nil
  | int word => exact word.reads_int next
  | rint word => exact word.reads_rint next

mutual

/-- The scanner reads the text of an expression as its tokens. -/
theorem Expr.reads {rest : Text} (later : line ≠ 1) (next : Next nameEnd rest) :
    (e : Expr) → Reads line e.text e.tokens rest
  | .reference reference => reference.reads later next
  | .literal signed width value => by
      have start : Next wordEnd (width.text ++ ('(' :: (value.text ++ [')'])) ++ rest) := by
        cases width with
        | none => exact next_cons (by decide +kernel)
        | some n => exact next_cons (by decide +kernel)
      exact (reads_intType signed start).cons ((width.reads (next_cons (by decide +kernel))).append
        (reads_open.cons ((value.reads (next_cons (by decide +kernel))).append reads_close)))
  | .mux condition first second =>
      (reads_keyword (by decide) (next_cons (by decide +kernel))).cons (reads_open.cons
        ((condition.reads later (next_cons (by decide +kernel))).append (reads_comma.cons
          ((first.reads later (next_cons (by decide +kernel))).append (reads_comma.cons
            ((second.reads later (next_cons (by decide +kernel))).append reads_close))))))
  | .validif condition value =>
      (reads_keyword (by decide) (next_cons (by decide +kernel))).cons (reads_open.cons
        ((condition.reads later (next_cons (by decide +kernel))).append (reads_comma.cons
          ((value.reads later (next_cons (by decide +kernel))).append reads_close))))
  | .primop_2expr op first second =>
      (reads_operator names2 (by simp) op.listed).cons
        ((first.reads later (next_cons (by decide +kernel))).append (reads_comma.cons
          ((second.reads later (next_cons (by decide +kernel))).append reads_close)))
  | .primop_1expr op operand =>
      (reads_operator names1 (by simp) op.listed).cons
        ((operand.reads later (next_cons (by decide +kernel))).append reads_close)
  | .primop_1expr1int op operand n =>
      (reads_operator names1i (by simp) op.listed).cons
        ((operand.reads later (next_cons (by decide +kernel))).append (reads_comma.cons
          ((n.reads_int (next_cons (by decide +kernel))).cons reads_close)))
  | .primop_1expr2int operand high low =>
      reads_bits.cons
        ((operand.reads later (next_cons (by decide +kernel))).append (reads_comma.cons
          ((high.reads_int (next_cons (by decide +kernel))).cons (reads_comma.cons
            ((low.reads_int (next_cons (by decide +kernel))).cons reads_close)))))

/-- The scanner reads the text of a reference as its tokens. -/
theorem Reference.reads {rest : Text} (later : line ≠ 1) (next : Next nameEnd rest) :
    (r : Reference) → Reads line r.text r.tokens rest
  | .name name => name.reads next
  | .dot base field =>
      (base.reads later (next_cons (by decide +kernel))).append (field.reads later next)
  | .index base n =>
      (base.reads later (next_cons (by decide +kernel))).append (reads_openSquare.cons
        ((n.reads_int (next_cons (by decide +kernel))).cons reads_closeSquare))
  | .access base index =>
      (base.reads later (next_cons (by decide +kernel))).append (reads_openSquare.cons
        ((index.reads later (next_cons (by decide +kernel))).append reads_closeSquare))

end

end Reading

section Parsing

variable (context : Nat × Nat) (next : Kind)

/-- The parser reduces the tokens of a width, except where an empty one is not taken. -/
theorem Width.parses (width : Width) (free : conflicts context 25 = 0) :
    Parses context .width width.tokens next (.int width.value) := by
  cases width with
  | none => exact parses_free 25 rfl .nil free rfl
  | some n =>
      refine parses_free 26 rfl (derivable_term rfl (derivable_term rfl (derivable_term rfl .nil)))
        rfl ?_
      exact congrArg (fun n => some (Val.int n)) (p_stoi_decimal n.isLt)

theorem isSigned_intType (signed : Bool) : ((intType signed).head? == some 'S') = signed := by
  cases signed <;> decide +kernel

/-- The parser reduces the tokens of a literal to its node. -/
theorem Literal.parses (value : Literal) (signed : Bool) (width : Width) :
    Parses context .expr
      (tok .IntType (intType signed) :: (width.tokens ++ (ch '(' :: (value.tokens ++ [ch ')']))))
      next (.pnode (value.tree signed width)) := by
  have head (number : Nat) (other : number ≠ 25) (third : Kind) :
      Parses (number, 1) .width width.tokens third (.int width.value) :=
    width.parses _ _ (by simp [conflicts])
  cases value with
  | empty =>
      refine parses_free 55 rfl (derivable_term rfl (.nonterm (head 55 (by decide) _)
        (derivable_term rfl (derivable_term rfl .nil)))) rfl ?_
      exact congrArg (fun sign => some (Val.pnode (.node .P_EXPR_INT_NOINIT 0 [] (intType signed) []
        width.value sign []))) (isSigned_intType signed)
  | int word =>
      refine parses_free 56 rfl (derivable_term rfl (.nonterm (head 56 (by decide) _)
        (derivable_term rfl (derivable_term rfl (derivable_term rfl .nil))))) rfl ?_
      exact congrArg (fun sign => some (Val.pnode (.node .P_EXPR_INT_INIT 0 [] (intType signed)
        [word.text] width.value sign []))) (isSigned_intType signed)
  | rint word =>
      refine parses_free 57 rfl (derivable_term rfl (.nonterm (head 57 (by decide) _)
        (derivable_term rfl (derivable_term rfl (derivable_term rfl .nil))))) rfl ?_
      exact congrArg (fun sign => some (Val.pnode (.node .P_EXPR_INT_INIT 0 [] (intType signed)
        [word.text] width.value sign []))) (isSigned_intType signed)

mutual

/-- The parser reduces the tokens of an expression to its tree. -/
theorem Expr.parses (context : Nat × Nat) (next : Kind) :
    (e : Expr) → Parses context .expr e.tokens next (.pnode e.tree)
  | .reference reference =>
      parses_free 58 rfl (derivable_last (reference.parses _ _)) rfl rfl
  | .literal signed width value => value.parses context next signed width
  | .mux condition first second =>
      parses_free 59 rfl (derivable_term rfl (derivable_term rfl (.nonterm (condition.parses _ _)
        (derivable_term rfl (.nonterm (first.parses _ _) (derivable_term rfl
          (.nonterm (second.parses _ _) (derivable_term rfl .nil)))))))) rfl rfl
  | .validif condition value =>
      parses_free 60 rfl (derivable_term rfl (derivable_term rfl (.nonterm (condition.parses _ _)
        (derivable_term rfl (.nonterm (value.parses _ _) (derivable_term rfl .nil)))))) rfl rfl
  | .primop_2expr op first second => by
      have body : Parses context .primop_2expr (Expr.primop_2expr op first second).tokens next
          (.pnode (Expr.primop_2expr op first second).tree) :=
        parses_free 49 rfl (derivable_term rfl (.nonterm (first.parses _ _)
          (derivable_term rfl (.nonterm (second.parses _ _) (derivable_term rfl .nil))))) rfl rfl
      exact parses_free 61 rfl (derivable_last body) rfl rfl
  | .primop_1expr op operand => by
      have body : Parses context .primop_1expr (Expr.primop_1expr op operand).tokens next
          (.pnode (Expr.primop_1expr op operand).tree) := parses_free 50 rfl (derivable_term rfl
        (.nonterm (operand.parses _ _) (derivable_term rfl .nil))) rfl rfl
      exact parses_free 62 rfl (derivable_last body) rfl rfl
  | .primop_1expr1int op operand n => by
      have body : Parses context .primop_1expr1int (Expr.primop_1expr1int op operand n).tokens next
          (.pnode (Expr.primop_1expr1int op operand n).tree) :=
        parses_free 51 rfl (derivable_term rfl (.nonterm (operand.parses _ _)
          (derivable_term rfl (derivable_term rfl (derivable_term rfl .nil))))) rfl rfl
      exact parses_free 63 rfl (derivable_last body) rfl rfl
  | .primop_1expr2int operand high low => by
      have body : Parses context .primop_1expr2int
          (Expr.primop_1expr2int operand high low).tokens next
          (.pnode (Expr.primop_1expr2int operand high low).tree) :=
        parses_free 52 rfl (derivable_term rfl (.nonterm (operand.parses _ _)
          (derivable_term rfl (derivable_term rfl (derivable_term rfl (derivable_term rfl
            (derivable_term rfl .nil))))))) rfl rfl
      exact parses_free 64 rfl (derivable_last body) rfl rfl

/-- The parser reduces the tokens of a reference to its tree. -/
theorem Reference.parses (context : Nat × Nat) (next : Kind) :
    (r : Reference) → Parses context .reference r.tokens next (.pnode r.tree)
  | .name name => parses_free 65 rfl (derivable_last (name.parses _ _)) rfl rfl
  | .dot base _ =>
      parses_free 66 rfl (.nonterm (base.parses _ _) (derivable_term rfl
        (derivable_last (parses_free 3 rfl (derivable_term rfl .nil) rfl rfl)))) rfl rfl
  | .index base _ =>
      parses_free 67 rfl (.nonterm (base.parses _ _) (derivable_term rfl (derivable_term rfl
        (derivable_term rfl .nil)))) rfl rfl
  | .access base index =>
      parses_free 68 rfl (.nonterm (base.parses _ _) (derivable_term rfl
        (.nonterm (index.parses _ _) (derivable_term rfl .nil)))) rfl rfl

end

end Parsing

end FstWaveDemo
