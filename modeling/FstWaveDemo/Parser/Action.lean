import FstWaveDemo.Parser.Plib
import FstWaveDemo.Parser.Token

/-! # Semantic actions

The actions of `syntax.y` as terms (`FstWaveDemo.Term`) over the semantic values of
the right side of a rule, the line of the scanner and the functions of
`PNode.cpp`. A term has a value (`Term.eval`). Forgetting line numbers commutes with
evaluation (`Term.eval_erase`).
-/

namespace FstWaveDemo

/-- What an action can see: the scanner's line and the values of the right side. -/
structure Env where
  line : Int
  values : List Val

/-- The environment with line numbers forgotten. -/
def Env.erase (env : Env) : Env := ⟨PNode.eraseLine env.line, env.values.map Val.erase⟩

/-- `$i`. -/
def Env.dollar (env : Env) (i : Nat) : Option Val := env.values[i - 1]?

theorem Env.erase_dollar (env : Env) (i : Nat) :
    env.erase.dollar i = (env.dollar i).map Val.erase := by
  rw [Env.dollar, Env.erase, List.getElem?_map]
  rfl

/-- The types of the C++ expressions in actions: `args` is the variadic part of a
call, `value` what is assigned to `$$`. -/
inductive CType
  | str | int | bool | line | node | args | list | value

/-- The values of a C++ type. -/
abbrev CType.Value : CType → Type
  | str => Option Text
  | int => Int
  | bool => Bool
  | line => Int
  | node => PNode
  | args => List PNode
  | list => List PNode
  | value => Val

/-- The value with the line numbers in it forgotten. -/
def CType.erase : (type : CType) → type.Value → type.Value
  | str, text => text
  | int, n => n
  | bool, b => b
  | line, lineno => PNode.eraseLine lineno
  | node, p => p.erase
  | args, nodes => nodes.map PNode.erase
  | list, siblings => siblings.map PNode.erase
  | value, v => v.erase

/-- A C++ expression of an action. -/
inductive Term : CType → Type
  /-- `$i` as a string. -/
  | str (i : Nat) : Term .str
  /-- `$i` as an `int`. -/
  | int (i : Nat) : Term .int
  /-- `$i` as a `PNode*`. -/
  | node (i : Nat) : Term .node
  /-- `$i` as a `PList*`. -/
  | plist (i : Nat) : Term .list
  /-- `synlineno()`: the line the scanner has reached. -/
  | synlineno : Term .line
  /-- `$i->lineno`. -/
  | linenoOf (i : Nat) : Term .line
  /-- The default line of the constructor of `PNode`. -/
  | noLineno : Term .line
  /-- The string constant `NULL`. -/
  | NULL : Term .str
  /-- A string constant. -/
  | lit (text : String) : Term .str
  /-- An `int` constant. -/
  | const (n : Int) : Term .int
  /-- A `bool` constant. -/
  | flag (b : Bool) : Term .bool
  /-- `$i[0] == 'S'`. -/
  | isSigned (i : Nat) : Term .bool
  /-- `p_stoi($i)`. -/
  | stoi (i : Nat) : Term .int
  /-- `new PNode(type, lineno)`. -/
  | newPNode (type : PNodeType) (lineno : Term .line) : Term .node
  /-- `newNode(type, lineno, info, name, num, ...)`. -/
  | newNodeArgs (type : PNodeType) (lineno : Term .line) (info name : Term .str) (num : Nat)
      (supplied : Term .args) : Term .node
  /-- `newNode(type, lineno, info, name)`, the overload without a variadic part. -/
  | newNode'' (type : PNodeType) (lineno : Term .line) (info name : Term .str) : Term .node
  /-- No variadic arguments. -/
  | noArgs : Term .args
  /-- One more variadic argument in front. -/
  | arg (p : Term .node) (rest : Term .args) : Term .args
  /-- `p->setWidth(width)`, with `p` as its value. -/
  | setWidth (p : Term .node) (width : Term .int) : Term .node
  /-- `p->setSign(sign)`. -/
  | setSign (p : Term .node) (sign : Term .bool) : Term .node
  /-- `p->appendExtraInfo(text)`. -/
  | appendExtraInfo (p : Term .node) (text : Term .str) : Term .node
  /-- `p->appendChild(child)`. -/
  | appendChild (p child : Term .node) : Term .node
  /-- `p->appendChildList(siblings)`. -/
  | appendChildList (p : Term .node) (siblings : Term .list) : Term .node
  /-- `$$ = NULL` for a node. -/
  | nullNode : Term .node
  /-- `new PList()`. -/
  | newPList : Term .list
  /-- `new PList(p)`. -/
  | newPListOf (p : Term .node) : Term .list
  /-- `siblings->append(p)`. -/
  | append (siblings : Term .list) (p : Term .node) : Term .list
  /-- `siblings->append(num, ...)`. -/
  | appendArgs (siblings : Term .list) (num : Nat) (supplied : Term .args) : Term .list
  /-- `siblings->concat(other)`. -/
  | concat (siblings other : Term .list) : Term .list
  /-- `$$` as a string. -/
  | asStr (text : Term .str) : Term .value
  /-- `$$` as an `int`. -/
  | asInt (n : Term .int) : Term .value
  /-- `$$` as a `PNode*`. -/
  | asNode (p : Term .node) : Term .value
  /-- `$$` as a `PList*`. -/
  | asList (siblings : Term .list) : Term .value
  /-- `scanner->root = root; scanner->list = list`. -/
  | setResult (root : Term .node) (list : Term .list) : Term .value
  /-- An action that assigns nothing to `$$`. -/
  | nothing : Term .value
  /-- `TODO()`: a failed assertion. -/
  | todo : Term .value

namespace Val

/-- The value read as a string. -/
def str? : Val → Option (Option Text)
  | .str text => some text
  | _ => none

/-- The value read as an `int`. -/
def int? : Val → Option Int
  | .int n => some n
  | _ => none

/-- The value read as a `PNode*`; one that was never assigned is indeterminate. -/
def node? : Val → Option PNode
  | .pnode p => some p
  | .undef => some .undefined
  | _ => none

/-- The value read as a `PList*`. -/
def list? : Val → Option (List PNode)
  | .plist siblings => some siblings
  | _ => none

@[simp] theorem erase_str? (v : Val) : v.erase.str? = v.str? := by cases v <;> rfl

@[simp] theorem erase_node? (v : Val) : v.erase.node? = v.node?.map PNode.erase := by
  cases v <;> rfl

end Val

namespace Term

/-- A list of variadic arguments. -/
def args (nodes : List (Term .node)) : Term .args := nodes.foldr arg noArgs

/-- `newNode(type, lineno, info, name, num, ...)`. -/
abbrev newNode (type : PNodeType) (lineno : Term .line) (info name : Term .str) (num : Nat)
    (supplied : List (Term .node)) : Term .node :=
  newNodeArgs type lineno info name num (args supplied)

/-- `newNode(type, lineno, name, num, ...)`. -/
abbrev newNode' (type : PNodeType) (lineno : Term .line) (name : Term .str) (num : Nat)
    (supplied : List (Term .node)) : Term .node :=
  newNode type lineno NULL name num supplied

/-- `siblings->append(num, ...)`. -/
abbrev appendNum (siblings : Term .list) (num : Nat) (supplied : List (Term .node)) :
    Term .list :=
  appendArgs siblings num (args supplied)

/-- The value of a term. There is none where the program is aborted or has no
defined behaviour. -/
def eval : {type : CType} → Term type → Env → Option type.Value
  | _, str i, env => (env.dollar i).bind Val.str?
  | _, int i, env => (env.dollar i).bind Val.int?
  | _, node i, env => (env.dollar i).bind Val.node?
  | _, plist i, env => (env.dollar i).bind Val.list?
  | _, synlineno, env => some env.line
  | _, linenoOf i, env => ((env.dollar i).bind Val.node?).bind PNode.lineno?
  | _, noLineno, _ => some (-1 : Int)
  | _, NULL, _ => some (none : Option Text)
  | _, lit text, _ => some (some text.toList)
  | _, const n, _ => some n
  | _, flag b, _ => some b
  | _, isSigned i, env => ((env.dollar i).bind Val.str?).bind fun text =>
      text.map fun text => text.head? == some 'S'
  | _, stoi i, env => ((env.dollar i).bind Val.str?).bind fun text => text.map p_stoi
  | _, newPNode type lineno, env => (lineno.eval env).map (PNode.new type)
  | _, newNodeArgs type lineno info name num supplied, env =>
      (lineno.eval env).bind fun lineno => (info.eval env).bind fun info =>
        (name.eval env).bind fun name => (supplied.eval env).map fun nodes =>
          PNode.newNode type lineno info name num nodes
  | _, newNode'' type lineno info name, env =>
      (lineno.eval env).bind fun lineno => (info.eval env).bind fun info =>
        (name.eval env).map fun name => PNode.newNode type lineno info name 0 []
  | _, noArgs, _ => some ([] : List PNode)
  | _, arg p rest, env => (p.eval env).bind fun p => (rest.eval env).map fun rest =>
      List.cons (α := PNode) p rest
  | _, setWidth p width, env => (p.eval env).bind fun p => (width.eval env).bind p.setWidth
  | _, setSign p sign, env => (p.eval env).bind fun p => (sign.eval env).bind p.setSign
  | _, appendExtraInfo p text, env =>
      (p.eval env).bind fun p => (text.eval env).bind p.appendExtraInfo
  | _, appendChild p child, env =>
      (p.eval env).bind fun p => (child.eval env).bind p.appendChild
  | _, appendChildList p siblings, env =>
      (p.eval env).bind fun p => (siblings.eval env).bind p.appendChildList
  | _, nullNode, _ => some PNode.null
  | _, newPList, _ => some ([] : List PNode)
  | _, newPListOf p, env => (p.eval env).map fun p => [p]
  | _, append siblings p, env =>
      (siblings.eval env).bind fun siblings => (p.eval env).map (PList.append siblings)
  | _, appendArgs siblings num supplied, env =>
      (siblings.eval env).bind fun siblings =>
        (supplied.eval env).map (PList.appendNum siblings num)
  | _, concat siblings other, env =>
      (siblings.eval env).bind fun siblings => (other.eval env).map (PList.concat siblings)
  | _, asStr text, env => (text.eval env).map Val.str
  | _, asInt n, env => (n.eval env).map Val.int
  | _, asNode p, env => (p.eval env).map Val.pnode
  | _, asList siblings, env => (siblings.eval env).map Val.plist
  | _, setResult root list, env =>
      (root.eval env).bind fun root => (list.eval env).map (Val.result root)
  | _, nothing, _ => some Val.undef
  | _, todo, _ => none

section Erase

variable {α β : Type} {g : α → α} {h : β → β}

theorem bind_erase {f f' : α → Option β} (value : Option α)
    (law : ∀ a, f' (g a) = (f a).map h) : (value.map g).bind f' = (value.bind f).map h := by
  cases value with
  | none => rfl
  | some a => exact law a

theorem map_erase {f f' : α → β} (value : Option α) (law : ∀ a, f' (g a) = h (f a)) :
    (value.map g).map f' = (value.map f).map h := by
  cases value with
  | none => rfl
  | some a => exact congrArg some (law a)

end Erase

/-- Evaluation commutes with forgetting line numbers. -/
theorem eval_erase {type : CType} (term : Term type) (env : Env) :
    term.eval env.erase = (term.eval env).map type.erase := by
  induction term with
  | str i | int i | node i | plist i =>
      simp only [eval, Env.erase_dollar]
      exact bind_erase _ fun v => by cases v <;> rfl
  | linenoOf i =>
      simp only [eval, Env.erase_dollar]
      rw [bind_erase _ Val.erase_node?]
      exact bind_erase _ fun p => by cases p <;> rfl
  | isSigned i | stoi i =>
      simp only [eval, Env.erase_dollar]
      rw [bind_erase (h := id) _ fun v => (Val.erase_str? v).trans Option.map_id_apply.symm,
        Option.map_id_apply]
      exact Option.map_id_apply.symm
  | synlineno | noLineno | NULL | lit | const | flag | noArgs | nullNode | newPList | nothing
  | todo => rfl
  | newPNode type lineno ih =>
      simp only [eval, ih]
      exact map_erase _ fun _ => rfl
  | newNodeArgs type lineno info name num supplied ih ihInfo ihName ihArgs =>
      simp only [eval, ih, ihInfo, ihName, ihArgs]
      exact bind_erase _ fun lineno => bind_erase _ fun info => bind_erase _ fun name =>
        map_erase _ fun nodes => PNode.newNode_erase type lineno info name num nodes
  | newNode'' type lineno info name ih ihInfo ihName =>
      simp only [eval, ih, ihInfo, ihName]
      exact bind_erase _ fun lineno => bind_erase _ fun info => map_erase _ fun name =>
        PNode.newNode_erase type lineno info name 0 []
  | arg p rest ih ihRest =>
      simp only [eval, ih, ihRest]
      exact bind_erase _ fun p => map_erase _ fun _ => rfl
  | setWidth p width ih ihWidth =>
      simp only [eval, ih, ihWidth]
      exact bind_erase _ fun p => bind_erase _ (PNode.setWidth_erase p)
  | setSign p sign ih ihSign =>
      simp only [eval, ih, ihSign]
      exact bind_erase _ fun p => bind_erase _ (PNode.setSign_erase p)
  | appendExtraInfo p text ih ihText =>
      simp only [eval, ih, ihText]
      exact bind_erase _ fun p => bind_erase _ (PNode.appendExtraInfo_erase p)
  | appendChild p child ih ihChild =>
      simp only [eval, ih, ihChild]
      exact bind_erase _ fun p => bind_erase _ (PNode.appendChild_erase p)
  | appendChildList p siblings ih ihSiblings =>
      simp only [eval, ih, ihSiblings]
      exact bind_erase _ fun p => bind_erase _ (PNode.appendChildList_erase p)
  | newPListOf p ih =>
      simp only [eval, ih]
      exact map_erase _ fun _ => rfl
  | append siblings p ih ihNode =>
      simp only [eval, ih, ihNode]
      exact bind_erase _ fun siblings => map_erase _ (PList.append_erase siblings)
  | appendArgs siblings num supplied ih ihArgs =>
      simp only [eval, ih, ihArgs]
      exact bind_erase _ fun siblings => map_erase _ (PList.appendNum_erase siblings num)
  | concat siblings other ih ihOther =>
      simp only [eval, ih, ihOther]
      exact bind_erase _ fun siblings => map_erase _ fun _ => List.map_append.symm
  | asStr _ ih | asInt _ ih | asNode _ ih | asList _ ih =>
      simp only [eval, ih]
      exact map_erase _ fun _ => rfl
  | setResult root list ih ihList =>
      simp only [eval, ih, ihList]
      exact bind_erase _ fun root => map_erase _ fun _ => rfl

end Term

end FstWaveDemo
