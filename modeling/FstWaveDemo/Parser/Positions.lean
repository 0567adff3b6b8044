import FstWaveDemo.Parser.Nodes

/-! # Lines of nodes

A node gets the line that the scanner has reached when its rule is reduced. A module is
reduced after the DEDENT that ends it, which is on a later line than everything in the
module; so the line of its node is after the module. Hence the lines of the nodes are
within their phrases exactly if the circuit has no module
(`FstWaveDemo.Parse.placed_iff`).
-/

namespace FstWaveDemo

open LR.Tree (Within words Fits)

/-- The nonterminals of modules, ports, declarations, statements, types and
expressions. -/
def constructs : List Nonterminal :=
  [.module, .extmodule, .intmodule, .port, .memory, .chirrtl_memory, .chirrtl_memory_port,
    .statement, .type_ground, .type_aggregate, .field, .primop_2expr, .primop_1expr,
    .primop_1expr1int, .primop_1expr2int, .expr, .reference]

namespace Term

/-- The term makes the node that is its value. -/
def creates : {type : CType} → Term type → Bool
  | _, newPNode _ _ => true
  | _, newNodeArgs _ _ _ _ _ _ => true
  | _, newNode'' _ _ _ _ => true
  | _, setWidth p _ => p.creates
  | _, setSign p _ => p.creates
  | _, appendExtraInfo p _ => p.creates
  | _, appendChild p _ => p.creates
  | _, appendChildList p _ => p.creates
  | _, asNode p => p.creates
  | _, _ => false

variable {env : Env} {p : PNode}

/-- A new node has the line of the scanner, if that is what it is given. -/
theorem lineno_newNodeArgs {type : PNodeType} {info name : Term .str} {num : Nat}
    {supplied : Term .args}
    (evaluated : (newNodeArgs type synlineno info name num supplied).eval env = some p) :
    p.lineno? = some env.line := by
  simp only [eval, Option.bind_some] at evaluated
  obtain ⟨_, -, evaluated⟩ := Option.bind_eq_some_iff.mp evaluated
  obtain ⟨_, -, evaluated⟩ := Option.bind_eq_some_iff.mp evaluated
  obtain ⟨_, -, rfl⟩ := Option.map_eq_some_iff.mp evaluated
  rfl

/-- Extra information leaves the line of a node as it is. -/
theorem lineno_appendExtraInfo {node : Term .node} {text : Term .str}
    (evaluated : (appendExtraInfo node text).eval env = some p) :
    ∃ q, node.eval env = some q ∧ p.lineno? = q.lineno? := by
  simp only [eval] at evaluated
  obtain ⟨q, found, evaluated⟩ := Option.bind_eq_some_iff.mp evaluated
  obtain ⟨text, -, appended⟩ := Option.bind_eq_some_iff.mp evaluated
  refine ⟨q, found, ?_⟩
  cases q with
  | node =>
      cases text with
      | some text => rw [← Option.some.inj appended]; rfl
      | none => cases appended
  | _ => cases appended

end Term

/-- A rule that makes the node of a construct. -/
def buildsConstruct (rule : Nat) : Bool :=
  productions[rule]?.any fun p => decide (p.lhs ∈ constructs) && p.action.creates

/-- The tokens other than layout tokens. -/
def visible (lexemes : List Lexeme) : List Lexeme :=
  lexemes.filter fun lexeme => !lexeme.kind.isLayout

/-- The line of a node is between those of the first and the last visible token. -/
def Placed (lexemes : List Lexeme) (p : PNode) : Prop :=
  ∃ first ∈ (visible lexemes).head?, ∃ last ∈ (visible lexemes).getLast?, ∃ lineno ∈ p.lineno?,
    (first.line : Int) ≤ lineno ∧ lineno ≤ last.line

/-- Every node made for a construct is placed within the phrase it is reduced from. -/
def NodesPlaced (tree : ParseTree) : Prop :=
  ∀ rule line children p, Within (.node rule line children) tree → buildsConstruct rule = true →
    (LR.Tree.node rule line children).eval act = some (.pnode p) → Placed (words children) p

/-- The circuit has no module: its body is opened and closed at once. -/
def Bodiless (lexemes : List Lexeme) : Prop :=
  [Kind.token .INDENT, .token .DEDENT] <:+ lexemes.map fun lexeme => lexeme.kind

section Rules

/-- The three rules of modules make a node with the line of the scanner, if they have a
value. -/
theorem lineno_of_module {rule line : Nat} {values : List Val} {value : Val}
    (listed : rule ∈ [126, 133, 134]) (evaluated : act rule line values = some value) :
    ∃ p, value = .pnode p ∧ p.lineno? = some (line : Int) := by
  simp only [List.mem_cons, List.not_mem_nil, or_false] at listed
  rcases listed with rfl | rfl | rfl
  · obtain ⟨p, found, same⟩ := Term.eval_asNode evaluated
    exact ⟨p, same, Term.lineno_newNodeArgs found⟩
  · obtain ⟨p, found, same⟩ := Term.eval_asNode evaluated
    obtain ⟨q, made, lineno⟩ := Term.lineno_appendExtraInfo found
    exact ⟨p, same, lineno.trans (Term.lineno_newNodeArgs made)⟩
  · exact nomatch evaluated

/-- A module ends in a DEDENT, and its node has the line of its reduction. -/
theorem module_of_fits {name : Nonterminal}
    (module : name ∈ [Nonterminal.module, .extmodule, .intmodule]) {tree : ParseTree}
    (fits : Fits grammar (.nonterm name) tree) {value : Val}
    (evaluated : tree.eval act = some value) :
    ∃ rule line children before dedent p, tree = .node rule line children ∧
      buildsConstruct rule = true ∧ children = before ++ [.leaf dedent] ∧
      dedent.kind = .token .DEDENT ∧ value = .pnode p ∧ p.lineno? = some (line : Int) := by
  obtain ⟨rule, line, children, production, rfl, found, rfl, fit⟩ := node_of_fits fits
  have checked := production_check (fun p number =>
    decide (p.lhs ∉ [Nonterminal.module, .extmodule, .intmodule]) ||
      decide (number ∈ [126, 133, 134]) && (buildsConstruct number || decide (number = 134)) &&
      decide (p.rhs.getLast? = some (t .DEDENT))) (by decide +kernel) found
  simp only [module, not_true_eq_false, decide_false, Bool.false_or, Bool.and_eq_true,
    Bool.or_eq_true, decide_eq_true_eq] at checked
  obtain ⟨⟨listed, builds⟩, ends⟩ := checked
  rw [LR.Tree.eval] at evaluated
  obtain ⟨values, -, evaluated⟩ := Option.bind_eq_some_iff.mp evaluated
  obtain ⟨p, rfl, lineno⟩ := lineno_of_module listed evaluated
  have builds : buildsConstruct rule = true := by
    rcases builds with builds | rfl
    · exact builds
    · exact nomatch evaluated
  obtain ⟨init, last⟩ := List.getLast?_eq_some_iff.mp ends
  rw [last] at fit
  have closing := List.forall₂_drop init.length fit
  rw [List.drop_left] at closing
  obtain ⟨_, _, head, rest, same⟩ := List.forall₂_cons_left_iff.mp closing
  obtain rfl := List.forall₂_nil_left_iff.mp rest
  obtain ⟨dedent, rfl, kind⟩ := head.term
  refine ⟨rule, line, children, children.take init.length, dedent, p, rfl, builds, ?_, kind, rfl,
    lineno⟩
  rw [← same, List.take_append_drop]

/-- The modules of a circuit: none, or a last one. -/
theorem modules_of_fits {tree : ParseTree} (fits : Fits grammar (.nonterm .cir_mods) tree) :
    (∃ rule line, tree = .node rule line [] ∧ buildsConstruct rule = false) ∨
      ∃ rule line others last name, tree = .node rule line [others, last] ∧
        name ∈ [Nonterminal.module, .extmodule, .intmodule] ∧
        Fits grammar (.nonterm name) last := by
  obtain ⟨rule, line, children, production, rfl, found, own, fit⟩ := node_of_fits fits
  have checked := production_check (fun p number => decide (p.lhs ≠ .cir_mods) ||
    !buildsConstruct number && decide (p.rhs = [] ∨ p.rhs = [n .cir_mods, n .module] ∨
      p.rhs = [n .cir_mods, n .extmodule] ∨ p.rhs = [n .cir_mods, n .intmodule]))
    (by decide +kernel) found
  simp only [own, ne_eq, not_true_eq_false, decide_false, Bool.false_or, Bool.and_eq_true,
    Bool.not_eq_true', decide_eq_true_eq] at checked
  obtain ⟨builds, checked⟩ := checked
  have pair {name : Nonterminal} (rhs : production.rhs = [n .cir_mods, n name]) :
      ∃ others last, children = [others, last] ∧ Fits grammar (.nonterm name) last := by
    rw [rhs] at fit
    obtain ⟨others, _, -, two, rfl⟩ := List.forall₂_cons_left_iff.mp fit
    obtain ⟨last, _, module, none, rfl⟩ := List.forall₂_cons_left_iff.mp two
    obtain rfl := List.forall₂_nil_left_iff.mp none
    exact ⟨others, last, rfl, module⟩
  rcases checked with rhs | rhs | rhs | rhs
  · rw [rhs] at fit
    cases fit
    exact Or.inl ⟨rule, line, rfl, builds⟩
  · obtain ⟨others, last, rfl, module⟩ := pair rhs
    exact Or.inr ⟨rule, line, others, last, .module, rfl, by decide, module⟩
  · obtain ⟨others, last, rfl, module⟩ := pair rhs
    exact Or.inr ⟨rule, line, others, last, .extmodule, rfl, by decide, module⟩
  · obtain ⟨others, last, rfl, module⟩ := pair rhs
    exact Or.inr ⟨rule, line, others, last, .intmodule, rfl, by decide, module⟩

/-- The nonterminals of the header of a circuit. -/
def headerNames : List Nonterminal := [.version, .ALLID, .annotations, .info]

/-- A circuit: its header, and the body with its modules. -/
theorem circuit_of_fits {tree : ParseTree} (fits : Fits grammar (.nonterm .circuit) tree) :
    ∃ rule line header opening modules closing,
      tree = .node rule line (header ++ [.leaf opening, modules, .leaf closing]) ∧
      opening.kind = .token .INDENT ∧ closing.kind = .token .DEDENT ∧
      Fits grammar (.nonterm .cir_mods) modules ∧ buildsConstruct rule = false ∧
      ∃ symbols, List.Forall₂ (Fits grammar) symbols header ∧
        ∀ name, .nonterm name ∈ symbols → name ∈ headerNames := by
  obtain ⟨rule, line, children, production, rfl, found, own, fit⟩ := node_of_fits fits
  have checked := production_check (fun p number => decide (p.lhs ≠ .circuit) ||
    !buildsConstruct number &&
    decide (p.rhs.drop (p.rhs.length - 3) = [t .INDENT, n .cir_mods, t .DEDENT]) &&
    (p.rhs.take (p.rhs.length - 3)).all fun symbol =>
      match symbol with
      | .nonterm name => decide (name ∈ headerNames)
      | .term _ => true) (by decide +kernel) found
  simp only [own, ne_eq, not_true_eq_false, decide_false, Bool.false_or, Bool.and_eq_true,
    Bool.not_eq_true', decide_eq_true_eq, List.all_eq_true] at checked
  obtain ⟨⟨builds, body⟩, header⟩ := checked
  have last := List.forall₂_drop (production.rhs.length - 3) fit
  rw [body] at last
  obtain ⟨_, _, opening, two, same⟩ := List.forall₂_cons_left_iff.mp last
  obtain ⟨modules, _, inner, one, rfl⟩ := List.forall₂_cons_left_iff.mp two
  obtain ⟨_, _, closing, none, rfl⟩ := List.forall₂_cons_left_iff.mp one
  obtain rfl := List.forall₂_nil_left_iff.mp none
  obtain ⟨first, rfl, opens⟩ := opening.term
  obtain ⟨last, rfl, closes⟩ := closing.term
  refine ⟨rule, line, children.take (production.rhs.length - 3), first, modules, last, ?_,
    opens, closes, inner, builds, _, List.forall₂_take (production.rhs.length - 3) fit,
    fun name member => of_decide_eq_true (header _ member)⟩
  rw [← same, List.take_append_drop]

/-- The nonterminals within the header of a circuit. -/
def headerParts : List Nonterminal :=
  headerNames ++ [.json_array, .jsons, .json, .members, .member, .Strings]

/-- The rules within the header of a circuit make no node of a construct. -/
theorem headerParts_closed {number : Nat} {r : LR.Rule Kind Nonterminal}
    (numbered : grammar.rules[number]? = some r) (header : r.lhs ∈ headerParts) :
    (∀ name, .nonterm name ∈ r.rhs → name ∈ headerParts) ∧ buildsConstruct number = false := by
  obtain ⟨p, found, rfl⟩ := production_of_rule numbered
  have checked := production_check (fun p number => decide (p.lhs ∉ headerParts) ||
    !buildsConstruct number && p.rhs.all fun symbol =>
      match symbol with
      | .nonterm name => decide (name ∈ headerParts)
      | .term _ => true) (by decide +kernel) found
  simp only [header, not_true_eq_false, decide_false, Bool.false_or, Bool.and_eq_true,
    Bool.not_eq_true', List.all_eq_true] at checked
  exact ⟨fun name member => of_decide_eq_true (checked.2 _ member), checked.1⟩

end Rules

/-- A module is not placed within its phrase. -/
theorem not_placed_of_module {lineno : Nat} {text : Text} (parse : Parse lineno text)
    {rule line : Nat} {before : List ParseTree} {dedent : Lexeme} {p : PNode}
    (within : Within (.node rule line (before ++ [.leaf dedent])) parse.tree)
    (closes : dedent.kind = .token .DEDENT) (late : p.lineno? = some (line : Int)) :
    ¬ Placed (words (before ++ [.leaf dedent])) p := by
  rintro ⟨_, -, last, ends, lineno, same, -, bound⟩
  obtain rfl : lineno = line := Option.some.inj (same.symm.trans late)
  have layout : dedent.kind.isLayout = true := decide_eq_true (Or.inr closes)
  have word : words (before ++ [.leaf dedent]) = words before ++ [dedent] := by
    rw [LR.Tree.words_append]
    rfl
  have listed := List.mem_filter.mp (List.mem_of_getLast? ends)
  have plain : last.kind.isLayout = false := by simpa using listed.2
  rw [word] at listed
  have earlier : last ∈ words before := by
    rcases List.mem_append.mp listed.1 with earlier | closing
    · exact earlier
    · obtain rfl := List.mem_singleton.mp closing
      exact absurd (layout.symm.trans plain) (by decide)
  obtain ⟨init, between, split⟩ := List.append_of_mem earlier
  obtain ⟨left, right, whole⟩ := within.infix
  have tokens : parse.lexemes = (left ++ init) ++ last :: (between ++ dedent :: right) := by
    rw [← parse.fits.2, ← whole, LR.Tree.word, word, split]
    simp
  obtain ⟨s, scans, -⟩ := parse.scanned
  rw [tokens] at scans
  have later := scans.layout_later plain layout
  have reduced := parse.late _ _ _ within dedent (by rw [word]; simp)
  omega

/-- If the nodes are placed, the circuit has no module. -/
theorem Parse.bodiless_of_placed {lineno : Nat} {text : Text} (parse : Parse lineno text)
    (placed : NodesPlaced parse.tree) : Bodiless parse.lexemes := by
  obtain ⟨fits, tokens⟩ := parse.fits
  obtain ⟨rule, line, header, opening, modules, closing, whole, opens, closes, inner, -⟩ :=
    circuit_of_fits fits
  have inside : Within modules parse.tree := by
    rw [whole]
    exact .child (by simp) .refl
  rcases modules_of_fits inner with ⟨rule', line', rfl, -⟩ | ⟨_, _, others, last, name, rfl, listed,
    module⟩
  · refine ⟨(words header).map fun lexeme => lexeme.kind, ?_⟩
    rw [← tokens, whole, LR.Tree.word, LR.Tree.words_append, List.map_append, ← opens, ← closes]
    rfl
  · have within : Within last parse.tree := (Within.child (by simp) .refl).trans inside
    obtain ⟨value, evaluated⟩ := within.eval parse.evaluated
    obtain ⟨rule', line', children, before, dedent, p, rfl, builds, rfl, ends, rfl, late⟩ :=
      module_of_fits listed module evaluated
    exact absurd (placed _ _ _ p within builds evaluated)
      (not_placed_of_module parse within ends late)

/-- **Lines of nodes.** In an accepted text, the lines of the nodes are within the phrases
they are reduced from exactly if the circuit has no module. -/
theorem Parse.placed_iff {lineno : Nat} {text : Text} (parse : Parse lineno text) :
    NodesPlaced parse.tree ↔ Bodiless parse.lexemes := by
  refine ⟨parse.bodiless_of_placed, fun bodiless => ?_⟩
  obtain ⟨fits, tokens⟩ := parse.fits
  obtain ⟨rule, line, header, opening, modules, closing, whole, -, -, inner, builds, symbols, fit,
    named⟩ := circuit_of_fits fits
  have inside : Within modules parse.tree := by
    rw [whole]
    exact .child (by simp) .refl
  rcases modules_of_fits inner with ⟨rule₁, line₁, rfl, quiet⟩ | ⟨_, _, others, last, name, rfl,
    listed, module⟩
  · intro rule₂ line₂ children p within own _
    rw [whole] at within
    cases within with
    | refl => cases own.symm.trans builds
    | child member within =>
        rcases List.mem_append.mp member with member | member
        · obtain ⟨symbol, listed, own'⟩ := LR.Tree.symbol_of_mem fit member
          obtain ⟨r, numbered, header', -⟩ := own'.part (S := fun name => name ∈ headerParts)
            (fun _ _ numbered header => (headerParts_closed numbered header).1)
            (fun name same => List.mem_append_left _ (named name (same ▸ listed))) within rfl
          cases own.symm.trans (headerParts_closed numbered header').2
        · simp only [List.mem_cons, List.not_mem_nil, or_false] at member
          rcases member with rfl | rfl | rfl
          · cases within
          · cases within with
            | refl => cases own.symm.trans quiet
            | child absent _ => cases absent
          · cases within
  · have within : Within last parse.tree := (Within.child (by simp) .refl).trans inside
    obtain ⟨value, evaluated⟩ := within.eval parse.evaluated
    obtain ⟨_, _, _, before, dedent, _, rfl, -, rfl, ends, -, -⟩ :=
      module_of_fits listed module evaluated
    obtain ⟨left, same⟩ := bodiless
    have ending : parse.lexemes = (words header ++ opening :: (others.word ++ words before)) ++
        [dedent, closing] := by
      rw [← tokens, whole]
      simp [LR.Tree.word, words]
    rw [ending, List.map_append] at same
    have impossible := (List.append_inj' same rfl).2
    rw [List.map_cons, ends] at impossible
    cases (List.cons.inj impossible).1

/-- The node of a module on lines 1 and 2 is on line 3. -/
theorem module_misplaced : ¬ ∀ lineno text (parse : Parse lineno text), NodesPlaced parse.tree := by
  intro placed
  obtain ⟨parse, tokens, -⟩ := Parse.of_statement 40 1
    "  module M :\n    skip\n".toList parses_skip (by decide) (by decide +kernel)
  obtain ⟨left, same⟩ := parse.bodiless_of_placed (placed _ _ parse)
  have kinds := congrArg (List.map fun token : Tok => token.kind) tokens
  rw [List.map_map] at kinds
  have ending : left ++ [Kind.token .INDENT, .token .DEDENT] =
      [.token .INDENT, .token .Module, .token .ID, .char ':', .token .INDENT, .token .Skip] ++
        [.token .DEDENT, .token .DEDENT] := same.trans kinds
  exact nomatch (List.cons.inj (List.append_inj' ending rfl).2).1

end FstWaveDemo
