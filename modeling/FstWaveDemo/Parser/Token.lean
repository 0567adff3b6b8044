import FstWaveDemo.LR.Grammar
import FstWaveDemo.Parser.PNode

/-! # Tokens and nonterminals of `syntax.y`

A token is a named one of the `%token` declarations or a single character, as the
scanner returns it. `Val` is the semantic value, the union of the grammar file.
-/

namespace FstWaveDemo

/-- The named tokens; `eof` is what the scanner returns at the end of input. -/
inductive TokenName
  | eof | ID | INT | RINT | String | DoubleLeft | DoubleRight | Clock | Reset | IntType | anaType
  | FixedType | AsyReset | Probe | ProbeType | E2OP | E1OP | E1I1OP | E1I2OP | Ruw | Info | Flip
  | Mux | Validif | Invalidate | Mem | SMem | CMem | Wire | Reg | RegReset | Inst | Of | Node
  | Attach | When | Else | Stop | Printf | Skip | Input | Output | Assert | Module | Extmodule
  | Defname | Parameter | Intmodule | Intrinsic | Circuit | Connect | Public | Define | Const
  | Firrtl | Version | INDENT | DEDENT | RightArrow | Leftarrow | DataType | Depth | ReadLatency
  | WriteLatency | ReadUnderwrite | Reader | Writer | Readwriter | Write | Read | Infer | Mport
  | LOWER_THAN_ELSE
  deriving DecidableEq

/-- What a call of the scanner returns: a named token, or the code of a character. -/
inductive Kind
  | token (name : TokenName)
  | char (c : Char)
  deriving DecidableEq

/-- The nonterminals, `accept` being bison's own start symbol. -/
inductive Nonterminal
  | accept | circuit | ALLID | info | width | binary_point | type_ground | fields | type_aggregate
  | field | type | primop_2expr | primop_1expr | primop_1expr1int | primop_1expr2int | exprs | expr
  | reference | mem_datatype | mem_depth | mem_rlatency | mem_wlatency | mem_ruw | mem_compulsory
  | mem_reader | mem_writer | mem_readwriter | mem_optional | memory | chirrtl_memory_datatype
  | chirrtl_memory_ruw | chirrtl_memory | chirrtl_memory_port | references | statements | when_else
  | statement | port | ports | opt_public | module | ext_defname | params | param | extmodule
  | intmodule | member | members | Strings | json | jsons | json_array | annotations | version
  | cir_mods
  deriving DecidableEq

/-- Named tokens are numbered below 128, characters from there on. -/
instance : LR.Coded Kind where
  code
    | .token name => name.ctorIdx
    | .char c => 128 + c.toNat
  code_injective := by
    have small : ∀ name : TokenName, name.ctorIdx < 128 := by
      intro name
      cases name <;> decide
    intro first second same
    cases first with
    | token name =>
        cases second with
        | token name' =>
            have same : name.ctorIdx = name'.ctorIdx := same
            rw [← TokenName.ofNat_ctorIdx name, same, TokenName.ofNat_ctorIdx]
        | char c =>
            have same : name.ctorIdx = 128 + c.toNat := same
            exact absurd (small name) (by omega)
    | char c =>
        cases second with
        | token name =>
            have same : 128 + c.toNat = name.ctorIdx := same
            exact absurd (small name) (by omega)
        | char c' =>
            have same : 128 + c.toNat = 128 + c'.toNat := same
            rw [Char.toNat_inj.mp (by omega : c.toNat = c'.toNat)]

instance : LR.Coded Nonterminal where
  code := Nonterminal.ctorIdx
  code_injective := by
    intro first second same
    rw [← Nonterminal.ofNat_ctorIdx first, same, Nonterminal.ofNat_ctorIdx]

/-- A semantic value: a string pointer, an `int`, a `PNode*`, a `PList*`, or
`undef` where no action assigned one. `result` stands for the fields `root` and
`list` of the scanner object, which the actions of `circuit` set. -/
inductive Val
  | undef
  | str (text : Option Text)
  | int (n : Int)
  | pnode (p : PNode)
  | plist (siblings : List PNode)
  | result (root : PNode) (list : List PNode)

/-- The value with the line numbers of its nodes forgotten. -/
def Val.erase : Val → Val
  | .pnode p => .pnode p.erase
  | .plist siblings => .plist (siblings.map PNode.erase)
  | .result root list => .result root.erase (list.map PNode.erase)
  | v => v

/-- A value has a node. -/
def Val.Has : Val → PNode → Prop
  | .pnode q, p => q.Has p
  | .plist siblings, p => ∃ q ∈ siblings, q.Has p
  | .result root list, p => root.Has p ∨ ∃ q ∈ list, q.Has p
  | _, _ => False

/-- A node of a result with forgotten lines is a node of the result. -/
theorem Val.has_of_erase {root : PNode} {list : List PNode} {r : PNode}
    (has : Val.Has (.result root.erase (list.map PNode.erase)) r) :
    ∃ own, Val.Has (.result root list) own ∧ own.erase = r := by
  rcases has with has | ⟨q, member, has⟩
  · obtain ⟨own, has, same⟩ := PNode.has_of_erase has rfl
    exact ⟨own, Or.inl has, same⟩
  · obtain ⟨p, listed, rfl⟩ := List.mem_map.mp member
    obtain ⟨own, has, same⟩ := PNode.has_of_erase has rfl
    exact ⟨own, Or.inr ⟨p, listed, has⟩, same⟩

end FstWaveDemo
