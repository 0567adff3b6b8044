import FstWaveDemo.Parser.Circuit

/-! # Nodes of the syntax tree

A node of the syntax tree that the parser leaves behind was made by the action of some
reduction, after which it only got more children and more extra information
(`FstWaveDemo.Parse.made_of_holds`).
-/

namespace FstWaveDemo

open LR.Tree (Within words Fits)

namespace PNode

/-- The second node is the first one with more children and more extra information. -/
inductive Grows : PNode → PNode → Prop
  | grow (type : PNodeType) (lineno : Int) (info name : Text) (extraInfo more : List Text)
      (width : Int) (sign : Bool) (child others : List PNode) :
      Grows (node type lineno info name extraInfo width sign child)
        (node type lineno info name (extraInfo ++ more) width sign (child ++ others))

variable {p q r : PNode}

theorem Grows.refl {τ : PNodeType} (typed : p.type? = some τ) : p.Grows p := by
  cases p with
  | node type lineno info name extraInfo width sign child =>
      have same := Grows.grow type lineno info name extraInfo [] width sign child []
      rwa [List.append_nil, List.append_nil] at same
  | _ => exact nomatch typed

theorem Grows.trans (first : p.Grows q) (second : q.Grows r) : p.Grows r := by
  cases first with
  | grow =>
      cases second with
      | grow =>
          rw [List.append_assoc, List.append_assoc]
          exact .grow ..

theorem Grows.type? (grows : p.Grows q) : q.type? = p.type? := by
  cases grows
  rfl

theorem Grows.name? (grows : p.Grows q) : q.name? = p.name? := by
  cases grows
  rfl

theorem Grows.width? (grows : p.Grows q) : q.width? = p.width? := by
  cases grows
  rfl

theorem appendExtraInfo_grows {text : Option Text} (appended : p.appendExtraInfo text = some q) :
    p.Grows q ∧ ∀ r, q.Has r → q = r ∨ p.Has r := by
  cases p with
  | node type lineno info name extraInfo width sign child =>
      cases text with
      | none => exact nomatch appended
      | some text =>
          obtain rfl := Option.some.inj appended
          have grows := Grows.grow type lineno info name extraInfo [text] width sign child []
          rw [List.append_nil] at grows
          refine ⟨grows, fun r has => ?_⟩
          cases has with
          | refl => exact Or.inl rfl
          | child member has => exact Or.inr (.child member has)
  | _ => exact nomatch appended

theorem appendChildList_grows {siblings : List PNode}
    (appended : p.appendChildList siblings = some q) :
    p.Grows q ∧ ∀ r, q.Has r → q = r ∨ p.Has r ∨ ∃ sibling ∈ siblings, sibling.Has r := by
  cases p with
  | node type lineno info name extraInfo width sign child =>
      obtain rfl := Option.some.inj appended
      have grows := Grows.grow type lineno info name extraInfo [] width sign child siblings
      rw [List.append_nil] at grows
      refine ⟨grows, fun r has => ?_⟩
      cases has with
      | refl => exact Or.inl rfl
      | child member has =>
          rcases List.mem_append.mp member with member | member
          · exact Or.inr (Or.inl (.child member has))
          · exact Or.inr (Or.inr ⟨_, member, has⟩)
  | _ => exact nomatch appended

theorem appendChild_grows {added : PNode} (appended : p.appendChild added = some q) :
    p.Grows q ∧ ∀ r, q.Has r → q = r ∨ p.Has r ∨ added.Has r := by
  have list : ∃ siblings, p.appendChildList siblings = some q ∧ ∀ own ∈ siblings, own = added := by
    cases p with
    | node =>
        cases added with
        | null => exact ⟨[], by rw [← appended]; simp [appendChildList, appendChild], by simp⟩
        | undefined => exact ⟨[.undefined], appended, by simp⟩
        | node => exact ⟨_, appended, by simp⟩
    | _ => exact nomatch appended
  obtain ⟨siblings, appended', only⟩ := list
  obtain ⟨grows, parts⟩ := appendChildList_grows appended'
  refine ⟨grows, fun r has => ?_⟩
  rcases parts r has with same | old | ⟨sibling, member, new⟩
  · exact Or.inl same
  · exact Or.inr (Or.inl old)
  · exact Or.inr (Or.inr (only sibling member ▸ new))

end PNode

theorem PList.mem_append {siblings : List PNode} {p q : PNode}
    (member : q ∈ PList.append siblings p) : q ∈ siblings ∨ q = p := by
  cases p with
  | null => exact Or.inl member
  | _ => exact (List.mem_append.mp member).imp_right List.mem_singleton.mp

theorem PList.mem_appendNum {siblings supplied : List PNode} {num : Nat} {q : PNode}
    (member : q ∈ PList.appendNum siblings num supplied) :
    q ∈ siblings ∨ q ∈ PNode.pnewNode num supplied := by
  rw [PList.appendNum] at member
  generalize PNode.pnewNode num supplied = added at member ⊢
  induction added generalizing siblings with
  | nil => exact Or.inl member
  | cons p added ih =>
      rcases ih member with member | member
      · rcases PList.mem_append member with member | rfl
        · exact Or.inl member
        · exact Or.inr List.mem_cons_self
      · exact Or.inr (List.mem_cons_of_mem _ member)

/-- A value of a C++ expression has a node. -/
def CType.Has : (type : CType) → type.Value → PNode → Prop
  | .node, q, p => PNode.Has q p
  | .args, nodes, p => ∃ q ∈ (nodes : List PNode), q.Has p
  | .list, nodes, p => ∃ q ∈ (nodes : List PNode), q.Has p
  | .value, v, p => Val.Has v p
  | _, _, _ => False

namespace Term

/-- The term makes the node that is its value, and appends nothing to it. -/
def fresh : {type : CType} → Term type → Bool
  | _, newPNode _ _ => true
  | _, newNodeArgs _ _ _ _ _ _ => true
  | _, newNode'' _ _ _ _ => true
  | _, setWidth p _ => p.fresh
  | _, setSign p _ => p.fresh
  | _, _ => false

/-- The types of the nodes that the term makes. -/
def types : {type : CType} → Term type → List PNodeType
  | _, newPNode type _ => [type]
  | _, newNodeArgs type _ _ _ _ supplied => type :: supplied.types
  | _, newNode'' type _ _ _ => [type]
  | _, arg p rest => p.types ++ rest.types
  | _, setWidth p _ => p.types
  | _, setSign p _ => p.types
  | _, appendExtraInfo p _ => p.types
  | _, appendChild p child => p.types ++ child.types
  | _, appendChildList p siblings => p.types ++ siblings.types
  | _, newPListOf p => p.types
  | _, append siblings p => siblings.types ++ p.types
  | _, appendArgs siblings _ supplied => siblings.types ++ supplied.types
  | _, concat siblings other => siblings.types ++ other.types
  | _, asNode p => p.types
  | _, asList siblings => siblings.types
  | _, setResult root list => root.types ++ list.types
  | _, _ => []

/-- Only nodes that the term makes get a width or a sign. -/
def keeps : {type : CType} → Term type → Bool
  | _, newNodeArgs _ _ _ _ _ supplied => supplied.keeps
  | _, arg p rest => p.keeps && rest.keeps
  | _, setWidth p _ => p.fresh && p.keeps
  | _, setSign p _ => p.fresh && p.keeps
  | _, appendExtraInfo p _ => p.keeps
  | _, appendChild p child => p.keeps && child.keeps
  | _, appendChildList p siblings => p.keeps && siblings.keeps
  | _, newPListOf p => p.keeps
  | _, append siblings p => siblings.keeps && p.keeps
  | _, appendArgs siblings _ supplied => siblings.keeps && supplied.keeps
  | _, concat siblings other => siblings.keeps && other.keeps
  | _, asNode p => p.keeps
  | _, asList siblings => siblings.keeps
  | _, setResult root list => root.keeps && list.keeps
  | _, _ => true

variable {env : Env}

/-- The value of a node term as a semantic value. -/
theorem eval_asNode {node : Term .node} {value : Val}
    (evaluated : (asNode node).eval env = some value) :
    ∃ p, node.eval env = some p ∧ value = .pnode p := by
  simp only [eval] at evaluated
  obtain ⟨p, found, rfl⟩ := Option.map_eq_some_iff.mp evaluated
  exact ⟨p, found, rfl⟩

/-- Setting the width keeps the type and the children. -/
theorem eval_setWidth {base : Term .node} {width : Term .int} {p : PNode}
    (evaluated : (setWidth base width).eval env = some p) :
    ∃ q, base.eval env = some q ∧ p.type? = q.type? ∧ ∀ r, p.Has r → p = r ∨ q.Has r := by
  simp only [eval] at evaluated
  obtain ⟨q, made, evaluated⟩ := Option.bind_eq_some_iff.mp evaluated
  obtain ⟨w, -, set⟩ := Option.bind_eq_some_iff.mp evaluated
  refine ⟨q, made, ?_⟩
  cases q with
  | node =>
      obtain rfl := Option.some.inj set
      refine ⟨rfl, fun r has => ?_⟩
      cases has with
      | refl => exact Or.inl rfl
      | child member has => exact Or.inr (.child member has)
  | _ => cases set

/-- Setting the sign keeps the type and the children. -/
theorem eval_setSign {base : Term .node} {sign : Term .bool} {p : PNode}
    (evaluated : (setSign base sign).eval env = some p) :
    ∃ q, base.eval env = some q ∧ p.type? = q.type? ∧ ∀ r, p.Has r → p = r ∨ q.Has r := by
  simp only [eval] at evaluated
  obtain ⟨q, made, evaluated⟩ := Option.bind_eq_some_iff.mp evaluated
  obtain ⟨w, -, set⟩ := Option.bind_eq_some_iff.mp evaluated
  refine ⟨q, made, ?_⟩
  cases q with
  | node =>
      obtain rfl := Option.some.inj set
      refine ⟨rfl, fun r has => ?_⟩
      cases has with
      | refl => exact Or.inl rfl
      | child member has => exact Or.inr (.child member has)
  | _ => cases set

/-- A new node has its type, and the arguments as its children. -/
theorem eval_newNodeArgs {type : PNodeType} {line : Term .line} {info name : Term .str} {num : Nat}
    {supplied : Term .args} {p : PNode}
    (evaluated : (newNodeArgs type line info name num supplied).eval env = some p) :
    ∃ nodes, supplied.eval env = some nodes ∧ p.type? = some type ∧
      ∀ r, p.Has r → p = r ∨ ∃ q ∈ PNode.pnewNode num nodes, q.Has r := by
  simp only [eval] at evaluated
  obtain ⟨_, -, evaluated⟩ := Option.bind_eq_some_iff.mp evaluated
  obtain ⟨_, -, evaluated⟩ := Option.bind_eq_some_iff.mp evaluated
  obtain ⟨_, -, evaluated⟩ := Option.bind_eq_some_iff.mp evaluated
  obtain ⟨nodes, given, rfl⟩ := Option.map_eq_some_iff.mp evaluated
  refine ⟨nodes, given, rfl, fun r has => ?_⟩
  cases has with
  | refl => exact Or.inl rfl
  | child member has => exact Or.inr ⟨_, member, has⟩

/-- A new node without children has its type. -/
theorem eval_newNode'' {type : PNodeType} {line : Term .line} {info name : Term .str} {p : PNode}
    (evaluated : (newNode'' type line info name).eval env = some p) :
    p.type? = some type ∧ ∀ r, p.Has r → p = r := by
  simp only [eval] at evaluated
  obtain ⟨_, -, evaluated⟩ := Option.bind_eq_some_iff.mp evaluated
  obtain ⟨_, -, evaluated⟩ := Option.bind_eq_some_iff.mp evaluated
  obtain ⟨_, -, rfl⟩ := Option.map_eq_some_iff.mp evaluated
  refine ⟨rfl, fun r has => ?_⟩
  cases has with
  | refl => rfl
  | child member => cases member

theorem eval_newPNode {type : PNodeType} {line : Term .line} {p : PNode}
    (evaluated : (newPNode type line).eval env = some p) :
    p.type? = some type ∧ ∀ r, p.Has r → p = r := by
  simp only [eval] at evaluated
  obtain ⟨_, -, rfl⟩ := Option.map_eq_some_iff.mp evaluated
  refine ⟨rfl, fun r has => ?_⟩
  cases has with
  | refl => rfl
  | child member => cases member

/-- A fresh node has one of the types that its term makes. -/
theorem type_of_fresh : (base : Term .node) → base.fresh = true → {p : PNode} →
    base.eval env = some p → ∃ τ ∈ base.types, p.type? = some τ
  | newPNode type _, _, _, evaluated =>
      ⟨type, List.mem_singleton_self _, (eval_newPNode evaluated).1⟩
  | newNodeArgs type _ _ _ _ _, _, _, evaluated => by
      obtain ⟨nodes, -, typed, -⟩ := eval_newNodeArgs evaluated
      exact ⟨type, List.mem_cons_self, typed⟩
  | newNode'' type _ _ _, _, _, evaluated =>
      ⟨type, List.mem_singleton_self _, (eval_newNode'' evaluated).1⟩
  | setWidth base _, fresh, _, evaluated => by
      obtain ⟨q, made, same, -⟩ := eval_setWidth evaluated
      rw [same]
      exact type_of_fresh base fresh made
  | setSign base _, fresh, _, evaluated => by
      obtain ⟨q, made, same, -⟩ := eval_setSign evaluated
      rw [same]
      exact type_of_fresh base fresh made

/-- A node with a type that occurs in the arguments read by `pnewNode` is one of them. -/
theorem has_of_pnewNode {num : Nat} {nodes : List PNode} {q p : PNode} {τ : PNodeType}
    (typed : p.type? = some τ) (member : q ∈ PNode.pnewNode num nodes) (has : q.Has p) :
    ∃ q ∈ nodes, q.Has p := by
  induction num generalizing nodes with
  | zero => exact nomatch member
  | succ num ih =>
      cases nodes with
      | nil =>
          rcases List.mem_cons.mp member with rfl | member
          · cases has
            exact nomatch typed
          · exact ih member
      | cons first nodes =>
          rcases List.mem_cons.mp member with rfl | member
          · exact ⟨_, List.mem_cons_self, has⟩
          · obtain ⟨q, listed, has⟩ := ih member
            exact ⟨q, List.mem_cons_of_mem _ listed, has⟩

/-- A value of the right side has the node, perhaps with less in it. -/
def Given (env : Env) (p : PNode) : Prop := ∃ v ∈ env.values, ∃ q, v.Has q ∧ q.Grows p

theorem Given.grows {p q : PNode} (given : Given env p) (grows : p.Grows q) : Given env q := by
  obtain ⟨v, member, own, has, first⟩ := given
  exact ⟨v, member, own, has, first.trans grows⟩

/-- A node in the value of a term was in a value of the right side, or the term made it. -/
theorem given_or_made {type : CType} (term : Term type) : term.keeps = true →
    ∀ v : type.Value, term.eval env = some v → ∀ {p : PNode} {τ : PNodeType}, p.type? = some τ →
      type.Has v p → Given env p ∨ τ ∈ term.types := by
  induction term with
  | str | int | synlineno | linenoOf | noLineno | NULL | lit | const | flag | isSigned | stoi =>
      intro _ _ _ _ _ _ has
      exact has.elim
  | node i =>
      intro _ q evaluated p τ typed has
      obtain ⟨v, found, read⟩ := Option.bind_eq_some_iff.mp evaluated
      cases v with
      | pnode own =>
          obtain rfl := Option.some.inj read
          exact Or.inl ⟨_, List.mem_of_getElem? found, p, has, .refl typed⟩
      | undef =>
          obtain rfl := Option.some.inj read
          cases has
          exact nomatch typed
      | _ => exact nomatch read
  | plist i =>
      intro _ q evaluated p τ typed has
      obtain ⟨v, found, read⟩ := Option.bind_eq_some_iff.mp evaluated
      cases v with
      | plist own =>
          obtain rfl := Option.some.inj read
          exact Or.inl ⟨_, List.mem_of_getElem? found, p, has, .refl typed⟩
      | _ => exact nomatch read
  | newPNode type lineno =>
      intro _ q evaluated p τ typed has
      obtain ⟨own, only⟩ := eval_newPNode evaluated
      obtain rfl := only p has
      exact Or.inr (List.mem_singleton.mpr (Option.some.inj (typed.symm.trans own)))
  | newNode'' type line info name =>
      intro _ q evaluated p τ typed has
      obtain ⟨own, only⟩ := eval_newNode'' evaluated
      obtain rfl := only p has
      exact Or.inr (List.mem_singleton.mpr (Option.some.inj (typed.symm.trans own)))
  | newNodeArgs type line info name num supplied _ _ _ ih =>
      intro keeps q evaluated p τ typed has
      obtain ⟨nodes, given, own, parts⟩ := eval_newNodeArgs evaluated
      rcases parts p has with rfl | ⟨child, member, below⟩
      · rw [Option.some.inj (typed.symm.trans own)]
        exact Or.inr List.mem_cons_self
      · exact (ih keeps nodes given typed (has_of_pnewNode typed member below)).imp_right
          (List.mem_cons_of_mem _)
  | noArgs =>
      intro _ q evaluated p τ typed ⟨child, member, _⟩
      rw [← Option.some.inj evaluated] at member
      exact nomatch member
  | arg first rest ih ihRest =>
      intro keeps q evaluated p τ typed ⟨child, member, has⟩
      obtain ⟨keepsFirst, keepsRest⟩ := (Bool.and_eq_true _ _).mp keeps
      obtain ⟨head, made, evaluated⟩ := Option.bind_eq_some_iff.mp evaluated
      obtain ⟨tail, others, rfl⟩ := Option.map_eq_some_iff.mp evaluated
      rcases List.mem_cons.mp member with rfl | member
      · exact (ih keepsFirst _ made typed has).imp_right (List.mem_append_left _)
      · exact (ihRest keepsRest tail others typed ⟨child, member, has⟩).imp_right
          (List.mem_append_right _)
  | setWidth base width ih =>
      intro keeps q evaluated p τ typed has
      obtain ⟨fresh, keeps⟩ := (Bool.and_eq_true _ _).mp keeps
      obtain ⟨old, made, same, parts⟩ := eval_setWidth evaluated
      rcases parts p has with rfl | below
      · obtain ⟨type, listed, own⟩ := type_of_fresh base fresh made
        rw [Option.some.inj ((typed.symm.trans same).trans own)]
        exact Or.inr listed
      · exact ih keeps old made typed below
  | setSign base sign ih =>
      intro keeps q evaluated p τ typed has
      obtain ⟨fresh, keeps⟩ := (Bool.and_eq_true _ _).mp keeps
      obtain ⟨old, made, same, parts⟩ := eval_setSign evaluated
      rcases parts p has with rfl | below
      · obtain ⟨type, listed, own⟩ := type_of_fresh base fresh made
        rw [Option.some.inj ((typed.symm.trans same).trans own)]
        exact Or.inr listed
      · exact ih keeps old made typed below
  | appendExtraInfo base text ih =>
      intro keeps q evaluated p τ typed has
      obtain ⟨old, made, evaluated⟩ := Option.bind_eq_some_iff.mp evaluated
      obtain ⟨_, -, appended⟩ := Option.bind_eq_some_iff.mp evaluated
      obtain ⟨grows, parts⟩ := PNode.appendExtraInfo_grows appended
      rcases parts p has with rfl | below
      · exact (ih keeps old made (grows.type?.symm.trans typed) (.refl old)).imp_left
          (·.grows grows)
      · exact ih keeps old made typed below
  | appendChild base child ih ihChild =>
      intro keeps q evaluated p τ typed has
      obtain ⟨keepsBase, keepsChild⟩ := (Bool.and_eq_true _ _).mp keeps
      obtain ⟨old, made, evaluated⟩ := Option.bind_eq_some_iff.mp evaluated
      obtain ⟨added, given, appended⟩ := Option.bind_eq_some_iff.mp evaluated
      obtain ⟨grows, parts⟩ := PNode.appendChild_grows appended
      rcases parts p has with rfl | below | below
      · exact (ih keepsBase old made (grows.type?.symm.trans typed) (.refl old)).imp (·.grows grows)
          (List.mem_append_left _)
      · exact (ih keepsBase old made typed below).imp_right (List.mem_append_left _)
      · exact (ihChild keepsChild added given typed below).imp_right (List.mem_append_right _)
  | appendChildList base siblings ih ihSiblings =>
      intro keeps q evaluated p τ typed has
      obtain ⟨keepsBase, keepsSiblings⟩ := (Bool.and_eq_true _ _).mp keeps
      obtain ⟨old, made, evaluated⟩ := Option.bind_eq_some_iff.mp evaluated
      obtain ⟨added, given, appended⟩ := Option.bind_eq_some_iff.mp evaluated
      obtain ⟨grows, parts⟩ := PNode.appendChildList_grows appended
      rcases parts p has with rfl | below | below
      · exact (ih keepsBase old made (grows.type?.symm.trans typed) (.refl old)).imp (·.grows grows)
          (List.mem_append_left _)
      · exact (ih keepsBase old made typed below).imp_right (List.mem_append_left _)
      · exact (ihSiblings keepsSiblings added given typed below).imp_right
          (List.mem_append_right _)
  | nullNode =>
      intro _ q evaluated p τ typed has
      obtain rfl := Option.some.inj evaluated
      cases has
      exact nomatch typed
  | newPList =>
      intro _ q evaluated p τ typed ⟨child, member, _⟩
      rw [← Option.some.inj evaluated] at member
      exact nomatch member
  | newPListOf base ih =>
      intro keeps q evaluated p τ typed ⟨child, member, has⟩
      obtain ⟨own, made, rfl⟩ := Option.map_eq_some_iff.mp evaluated
      obtain rfl := List.mem_singleton.mp member
      exact ih keeps _ made typed has
  | append siblings base ih ihNode =>
      intro keeps q evaluated p τ typed ⟨child, member, has⟩
      obtain ⟨keepsSiblings, keepsNode⟩ := (Bool.and_eq_true _ _).mp keeps
      obtain ⟨nodes, given, evaluated⟩ := Option.bind_eq_some_iff.mp evaluated
      obtain ⟨own, made, rfl⟩ := Option.map_eq_some_iff.mp evaluated
      rcases PList.mem_append member with member | rfl
      · exact (ih keepsSiblings nodes given typed ⟨child, member, has⟩).imp_right
          (List.mem_append_left _)
      · exact (ihNode keepsNode _ made typed has).imp_right (List.mem_append_right _)
  | appendArgs siblings num supplied ih ihArgs =>
      intro keeps q evaluated p τ typed ⟨child, member, has⟩
      obtain ⟨keepsSiblings, keepsArgs⟩ := (Bool.and_eq_true _ _).mp keeps
      obtain ⟨nodes, given, evaluated⟩ := Option.bind_eq_some_iff.mp evaluated
      obtain ⟨added, made, rfl⟩ := Option.map_eq_some_iff.mp evaluated
      rcases PList.mem_appendNum member with member | member
      · exact (ih keepsSiblings nodes given typed ⟨child, member, has⟩).imp_right
          (List.mem_append_left _)
      · exact (ihArgs keepsArgs added made typed (has_of_pnewNode typed member has)).imp_right
          (List.mem_append_right _)
  | concat siblings other ih ihOther =>
      intro keeps q evaluated p τ typed ⟨child, member, has⟩
      obtain ⟨keepsSiblings, keepsOther⟩ := (Bool.and_eq_true _ _).mp keeps
      obtain ⟨nodes, given, evaluated⟩ := Option.bind_eq_some_iff.mp evaluated
      obtain ⟨added, made, rfl⟩ := Option.map_eq_some_iff.mp evaluated
      rcases List.mem_append.mp member with member | member
      · exact (ih keepsSiblings nodes given typed ⟨child, member, has⟩).imp_right
          (List.mem_append_left _)
      · exact (ihOther keepsOther added made typed ⟨child, member, has⟩).imp_right
          (List.mem_append_right _)
  | asStr | asInt =>
      intro _ v evaluated p τ typed has
      obtain ⟨_, -, rfl⟩ := Option.map_eq_some_iff.mp evaluated
      exact has.elim
  | asNode base ih | asList base ih =>
      intro keeps v evaluated p τ typed has
      obtain ⟨own, made, rfl⟩ := Option.map_eq_some_iff.mp evaluated
      exact ih keeps own made typed has
  | setResult root list ih ihList =>
      intro keeps v evaluated p τ typed has
      obtain ⟨keepsRoot, keepsList⟩ := (Bool.and_eq_true _ _).mp keeps
      obtain ⟨own, made, evaluated⟩ := Option.bind_eq_some_iff.mp evaluated
      obtain ⟨nodes, given, rfl⟩ := Option.map_eq_some_iff.mp evaluated
      rcases has with has | has
      · exact (ih keepsRoot own made typed has).imp_right (List.mem_append_left _)
      · exact (ihList keepsList nodes given typed has).imp_right (List.mem_append_right _)
  | nothing =>
      intro _ v evaluated p τ typed has
      rw [← Option.some.inj evaluated] at has
      exact has.elim
  | todo =>
      intro _ v evaluated
      exact nomatch evaluated

end Term

section Trees

/-- The action of every rule gives a width or a sign to new nodes only. -/
theorem productions_keep : (productions.all fun p => p.action.keeps) = true := by
  decide +kernel

/-- The node was made when the tree was reduced, and is a part of its value. -/
def MadeBy (tree : ParseTree) (p : PNode) : Prop :=
  ∃ rule line children production, tree = .node rule line children ∧
    productions[rule]? = some production ∧ (∃ τ ∈ production.action.types, p.type? = some τ) ∧
    ∃ v, tree.eval act = some v ∧ v.Has p

/-- The node is not in the values that the tree was reduced from. -/
def Fresh (tree : ParseTree) (p : PNode) : Prop :=
  ∀ rule line children values, tree = .node rule line children →
    LR.Tree.evalAll act children = some values → ¬ Term.Given ⟨line, values⟩ p

mutual

/-- A node in the value of a tree was made when a part of the tree was reduced. -/
theorem made_of_has : (tree : ParseTree) → (∀ lexeme ∈ tree.word, ∀ p, ¬ lexeme.val.Has p) →
    ∀ {v : Val}, tree.eval act = some v → ∀ {p : PNode} {τ : PNodeType}, p.type? = some τ →
      v.Has p → ∃ part q, Within part tree ∧ MadeBy part q ∧ Fresh part q ∧ q.Grows p
  | .leaf lexeme, plain, v, evaluated, p, τ, typed, has => by
      rw [← Option.some.inj evaluated] at has
      exact absurd has (plain lexeme (List.mem_singleton_self _) p)
  | .node rule line children, plain, v, evaluated, p, τ, typed, has => by
      have whole := evaluated
      rw [LR.Tree.eval] at evaluated
      obtain ⟨values, all, evaluated⟩ := Option.bind_eq_some_iff.mp evaluated
      obtain ⟨production, found, evaluated⟩ := Option.bind_eq_some_iff.mp evaluated
      have keeps := List.all_eq_true.mp productions_keep _ (List.mem_of_getElem? found)
      by_cases given : Term.Given ⟨line, values⟩ p
      · obtain ⟨w, member, q, below, grows⟩ := given
        obtain ⟨tree, listed, part, r, within, made, fresh, grows'⟩ := made_of_has_values children
          plain all member (grows.type?.symm.trans typed) below
        exact ⟨part, r, .child listed within, made, fresh, grows'.trans grows⟩
      · have made : τ ∈ production.action.types :=
          (Term.given_or_made production.action keeps v evaluated typed has).resolve_left given
        refine ⟨_, p, .refl, ⟨rule, line, children, production, rfl, found, ⟨τ, made, typed⟩, v,
          whole, has⟩, ?_, .refl typed⟩
        intro rule' line' children' values' same all' given'
        obtain ⟨rfl, rfl, rfl⟩ := LR.Tree.node.inj same
        obtain rfl := Option.some.inj (all.symm.trans all')
        exact given given'

theorem made_of_has_values : (trees : List ParseTree) →
    (∀ lexeme ∈ words trees, ∀ p, ¬ lexeme.val.Has p) →
    ∀ {values : List Val}, LR.Tree.evalAll act trees = some values → ∀ {v : Val}, v ∈ values →
      ∀ {p : PNode} {τ : PNodeType}, p.type? = some τ → v.Has p →
        ∃ tree ∈ trees, ∃ part q, Within part tree ∧ MadeBy part q ∧ Fresh part q ∧ q.Grows p
  | [], _, values, all, v, member, _, _, _, _ => by
      rw [← Option.some.inj all] at member
      exact nomatch member
  | tree :: trees, plain, values, all, v, member, p, τ, typed, has => by
      rw [LR.Tree.evalAll] at all
      obtain ⟨own, head, rest⟩ := Option.bind_eq_some_iff.mp all
      obtain ⟨later, others, rfl⟩ := Option.map_eq_some_iff.mp rest
      have plainHead : ∀ lexeme ∈ tree.word, ∀ p, ¬ lexeme.val.Has p := fun lexeme listed =>
        plain lexeme (List.mem_append_left _ listed)
      have plainRest : ∀ lexeme ∈ words trees, ∀ p, ¬ lexeme.val.Has p := fun lexeme listed =>
        plain lexeme (List.mem_append_right _ listed)
      rcases List.mem_cons.mp member with rfl | member
      · exact ⟨tree, List.mem_cons_self, made_of_has tree plainHead head typed has⟩
      · obtain ⟨part, listed, made⟩ := made_of_has_values trees plainRest others member typed has
        exact ⟨part, List.mem_cons_of_mem _ listed, made⟩

end

end Trees

namespace Lexical

/-- The scanner returns strings, and no other values. -/
theorem step_val {s s' : Lexical} {text rest : Text} {lexeme : Lexeme}
    (stepped : s.step text = .token lexeme s' rest) :
    lexeme.val = .undef ∨ ∃ w, lexeme.val = .str (some w) := by
  have plain {yytext : Text} {token : Tok} {action : Action} (made : action.makes yytext token) :
      token.val = .undef ∨ ∃ w, token.val = .str (some w) := by
    cases action with
    | layout => rcases made with rfl | rfl <;> exact Or.inl rfl
    | space | tab | newline | lineEnd | ignore | begin => exact made.elim
    | token | count | dot | character =>
        rw [show token = _ from made]
        exact Or.inl rfl
    | text | constant | dotName | operator | operatorConstant =>
        rw [show token = _ from made]
        exact Or.inr ⟨_, rfl⟩
    | int_dec => rcases made with rfl | rfl <;> exact Or.inr ⟨_, rfl⟩
  rcases step_token stepped with ⟨-, -, rfl, -⟩ | ⟨r, member, w, tail, -, -, made, -⟩
  · exact Or.inl rfl
  · exact plain made

end Lexical

/-- **Where nodes come from.** Every node of the syntax tree was made by the action of a
reduction in the parse tree; after that, only children and extra information were added. -/
theorem Parse.made_of_holds {lineno : Nat} {text : Text} (parse : Parse lineno text) {p : PNode}
    {τ : PNodeType} (typed : p.type? = some τ) (holds : parse.Holds p) :
    ∃ part q, Within part parse.tree ∧ MadeBy part q ∧ Fresh part q ∧ q.Grows p := by
  refine made_of_has parse.tree (fun lexeme member p has => ?_) parse.evaluated typed holds
  rw [parse.fits.2] at member
  obtain ⟨_, scans, -⟩ := parse.scanned
  obtain ⟨_, _, _, _, _, _, stepped⟩ := scans.returned member
  rcases Lexical.step_val stepped with val | ⟨w, val⟩
  · rw [val] at has
    exact has
  · rw [val] at has
    exact has

end FstWaveDemo
