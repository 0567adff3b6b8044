import Mathlib

/-! # Parse-tree nodes

`PNode` and `PList` of the FIRRTL parser, with the functions of `PNode.cpp`. A C
string is a list of characters, a string pointer that may be `NULL` an optional
one. `PNode` models the pointer type `PNode*`: besides a node it is `null`, or
`undefined` where the C++ program would hold an indeterminate value. A function
that dereferences a pointer which is not a node has no result.
-/

namespace FstWaveDemo

/-- A C string. -/
abbrev Text := List Char

/-- The node types, in the order of the C++ enumeration. -/
inductive PNodeType
  | P_EMPTY | P_CIRCUIT | P_MOD | P_EXTMOD | P_INTMOD | P_PORTS | P_INPUT | P_OUTPUT | P_WIRE_DEF
  | P_REG_DEF | P_REG_RESET_DEF | P_INST | P_NODE | P_CONNECT | P_PAR_CONNECT | P_WHEN | P_MEMORY
  | P_SEQ_MEMORY | P_COMB_MEMORY | P_WRITE | P_READ | P_INFER | P_MPORT | P_READER | P_WRITER
  | P_READWRITER | P_RUW | P_RLATENCT | P_WLATENCT | P_DATATYPE | P_DEPTH | P_REF | P_REF_DOT
  | P_REF_IDX_INT | P_REF_IDX_EXPR | P_2EXPR | P_1EXPR | P_1EXPR1INT | P_1EXPR2INT | P_FIELD
  | P_FLIP_FIELD | P_AG_ARRAY | P_AG_FIELDS | P_Clock | P_ASYRESET | P_RESET | P_INT_TYPE | P_PROBE
  | P_EXPR_INT_NOINIT | P_EXPR_INT_INIT | P_EXPR_MUX | P_STATEMENTS | P_PRINTF | P_EXPRS | P_ASSERT
  | P_STOP | P_INDEX | P_CONS_INDEX | P_L_CONS_INDEX | P_L_INDEX | P_INVALID
  deriving DecidableEq

/-- A `PNode*`. The line of a node is -1 until it is set. -/
inductive PNode
  | null
  | undefined
  | node (type : PNodeType) (lineno : Int) (info name : Text) (extraInfo : List Text) (width : Int)
      (sign : Bool) (child : List PNode)

namespace PNode

/-- `new PNode(type, lineno)`. -/
def new (type : PNodeType) (lineno : Int) : PNode := .node type lineno [] [] [] 0 false []

/-- `PNode::appendChild`: a null pointer is not appended. -/
def appendChild : PNode → PNode → Option PNode
  | node type lineno info name extraInfo width sign child, null =>
      some (node type lineno info name extraInfo width sign child)
  | node type lineno info name extraInfo width sign child, p =>
      some (node type lineno info name extraInfo width sign (child ++ [p]))
  | _, _ => none

/-- `PNode::appendExtraInfo`: a string is not made from a null pointer. -/
def appendExtraInfo : PNode → Option Text → Option PNode
  | node type lineno info name extraInfo width sign child, some text =>
      some (node type lineno info name (extraInfo ++ [text]) width sign child)
  | _, _ => none

/-- `PNode::appendChildList`. -/
def appendChildList : PNode → List PNode → Option PNode
  | node type lineno info name extraInfo width sign child, siblings =>
      some (node type lineno info name extraInfo width sign (child ++ siblings))
  | _, _ => none

/-- `PNode::setWidth`. -/
def setWidth : PNode → Int → Option PNode
  | node type lineno info name extraInfo _ sign child, width =>
      some (node type lineno info name extraInfo width sign child)
  | _, _ => none

/-- `PNode::setSign`. -/
def setSign : PNode → Bool → Option PNode
  | node type lineno info name extraInfo width _ child, sign =>
      some (node type lineno info name extraInfo width sign child)
  | _, _ => none

/-- The node type. -/
def type? : PNode → Option PNodeType
  | node type _ _ _ _ _ _ _ => some type
  | _ => none

/-- The `name` member. -/
def name? : PNode → Option Text
  | node _ _ _ name _ _ _ _ => some name
  | _ => none

/-- The `child` member. -/
def children : PNode → List PNode
  | node _ _ _ _ _ _ _ child => child
  | _ => []

/-- The `width` member. -/
def width? : PNode → Option Int
  | node _ _ _ _ _ width _ _ => some width
  | _ => none

/-- The `lineno` member. -/
def lineno? : PNode → Option Int
  | node _ lineno _ _ _ _ _ _ => some lineno
  | _ => none

/-- `pnewNode`: read `num` pointers from the variadic arguments. Reading past the
arguments that were supplied yields an indeterminate pointer. -/
def pnewNode : (num : Nat) → (supplied : List PNode) → List PNode
  | 0, _ => []
  | num + 1, [] => undefined :: pnewNode num []
  | num + 1, p :: supplied => p :: pnewNode num supplied

/-- `newNode(type, lineno, info, name, num, ...)`; the overload without `info`
leaves it empty. -/
def newNode (type : PNodeType) (lineno : Int) (info name : Option Text) (num : Nat)
    (supplied : List PNode) : PNode :=
  .node type lineno (info.getD []) (name.getD []) [] 0 false (pnewNode num supplied)

/-- The line of a node with the number forgotten, unless it was never set. -/
def eraseLine (lineno : Int) : Int := if lineno = -1 then -1 else 0

mutual

/-- The tree with its line numbers forgotten. -/
def erase : PNode → PNode
  | node type lineno info name extraInfo width sign child =>
      node type (eraseLine lineno) info name extraInfo width sign (eraseAll child)
  | null => null
  | undefined => undefined

/-- The trees with their line numbers forgotten. -/
def eraseAll : List PNode → List PNode
  | [] => []
  | p :: rest => p.erase :: eraseAll rest

end

@[simp] theorem eraseAll_eq_map (nodes : List PNode) : eraseAll nodes = nodes.map erase := by
  induction nodes with
  | nil => rfl
  | cons p rest ih => rw [eraseAll, ih, List.map_cons]

@[simp] theorem eraseLine_natCast (line : Nat) : eraseLine line = 0 := by
  rw [eraseLine, if_neg (by omega)]

section Erasing

attribute [local simp] erase appendChild appendExtraInfo appendChildList setWidth setSign pnewNode
  newNode

theorem appendChild_erase (p child : PNode) :
    p.erase.appendChild child.erase = (p.appendChild child).map erase := by
  cases p <;> cases child <;> simp

theorem appendExtraInfo_erase (p : PNode) (text : Option Text) :
    p.erase.appendExtraInfo text = (p.appendExtraInfo text).map erase := by
  cases p <;> cases text <;> simp

theorem appendChildList_erase (p : PNode) (siblings : List PNode) :
    p.erase.appendChildList (siblings.map erase) = (p.appendChildList siblings).map erase := by
  cases p <;> simp

theorem setWidth_erase (p : PNode) (width : Int) :
    p.erase.setWidth width = (p.setWidth width).map erase := by
  cases p <;> simp

theorem setSign_erase (p : PNode) (sign : Bool) :
    p.erase.setSign sign = (p.setSign sign).map erase := by
  cases p <;> simp

theorem pnewNode_erase (num : Nat) (supplied : List PNode) :
    pnewNode num (supplied.map erase) = (pnewNode num supplied).map erase := by
  induction num generalizing supplied with
  | zero => rfl
  | succ num ih =>
      cases supplied with
      | nil => simpa using ih []
      | cons p supplied => simpa using ih supplied

theorem newNode_erase (type : PNodeType) (lineno : Int) (info name : Option Text) (num : Nat)
    (supplied : List PNode) :
    newNode type (eraseLine lineno) info name num (supplied.map erase) =
      (newNode type lineno info name num supplied).erase := by
  simp [pnewNode_erase]

end Erasing

/-- A tree has a node. -/
inductive Has : PNode → PNode → Prop
  | refl (p : PNode) : Has p p
  | child {type : PNodeType} {lineno : Int} {info name : Text} {extraInfo : List Text} {width : Int}
      {sign : Bool} {child : List PNode} {q p : PNode} (member : q ∈ child) (has : Has q p) :
      Has (node type lineno info name extraInfo width sign child) p

theorem erase_type? (p : PNode) : p.erase.type? = p.type? := by cases p <;> rfl

theorem erase_name? (p : PNode) : p.erase.name? = p.name? := by cases p <;> rfl

theorem erase_width? (p : PNode) : p.erase.width? = p.width? := by cases p <;> rfl

/-- A node of a tree with forgotten lines is a node of the tree. -/
theorem has_of_erase {p q r : PNode} (has : q.Has r) (same : p.erase = q) :
    ∃ own, p.Has own ∧ own.erase = r := by
  induction has generalizing p with
  | refl => exact ⟨p, .refl p, same⟩
  | child member _ ih =>
      cases p with
      | node type lineno info name extraInfo width sign child =>
          rw [erase, eraseAll_eq_map] at same
          obtain ⟨-, -, -, -, -, -, -, rfl⟩ := PNode.node.inj same
          obtain ⟨own, listed, erased⟩ := List.mem_map.mp member
          obtain ⟨part, has, found⟩ := ih erased
          exact ⟨part, .child listed has, found⟩
      | _ => exact nomatch same

end PNode

/-- `PList::append(PNode*)`: a null pointer is not appended. -/
def PList.append (siblings : List PNode) : PNode → List PNode
  | .null => siblings
  | p => siblings ++ [p]

/-- `PList::append(int num, ...)`. -/
def PList.appendNum (siblings : List PNode) (num : Nat) (supplied : List PNode) : List PNode :=
  (PNode.pnewNode num supplied).foldl PList.append siblings

/-- `PList::concat`. -/
def PList.concat (siblings other : List PNode) : List PNode := siblings ++ other

theorem PList.append_erase (siblings : List PNode) (p : PNode) :
    PList.append (siblings.map PNode.erase) p.erase =
      (PList.append siblings p).map PNode.erase := by
  cases p <;> simp [PNode.erase, PList.append]

theorem PList.appendNum_erase (siblings : List PNode) (num : Nat) (supplied : List PNode) :
    PList.appendNum (siblings.map PNode.erase) num (supplied.map PNode.erase) =
      (PList.appendNum siblings num supplied).map PNode.erase := by
  rw [PList.appendNum, PList.appendNum, PNode.pnewNode_erase]
  generalize PNode.pnewNode num supplied = added
  induction added generalizing siblings with
  | nil => rfl
  | cons p added ih => rw [List.map_cons, List.foldl_cons, List.foldl_cons, PList.append_erase, ih]

end FstWaveDemo
