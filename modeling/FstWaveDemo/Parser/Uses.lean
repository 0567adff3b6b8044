import FstWaveDemo.Parser.Items
import FstWaveDemo.Parser.Names
import FstWaveDemo.Parser.Nodes

/-! # Uses of names

The places of the grammar where a name is declared, where a reference begins with one, and
where one is selected after a dot (`FstWaveDemo.Use`). In each of them the node carries the
name as it is spelled, and the same names are accepted in all of them, except for reserved
words (`FstWaveDemo.usedAlike_iff`).
-/

namespace FstWaveDemo

open LR.Tree (Within Occurs words Fits)
open Flex (CharSet Pattern)

/-- A place for a name: the phrase and the symbols before the name in it. -/
structure Place where
  lhs : Nonterminal
  before : List (LR.Symbol Kind Nonterminal)

/-- The production is one for the phrase of the place. -/
def Place.fits (place : Place) (p : Production) : Bool :=
  decide (p.lhs = place.lhs) && (place.before ++ [n .ALLID]).isPrefixOf p.rhs

/-- What a name is used for. -/
inductive Use
  | wire | reg | node | inst | port | field | module | reference | selection
  deriving DecidableEq

namespace Use

/-- All uses. -/
def all : List Use := [.wire, .reg, .node, .inst, .port, .field, .module, .reference, .selection]

theorem mem_all (use : Use) : use ∈ all := by cases use <;> decide

/-- The places for the name. -/
def places : Use → List Place
  | wire => [⟨.statement, [t .Wire]⟩]
  | reg => [⟨.statement, [t .Reg]⟩, ⟨.statement, [t .RegReset]⟩]
  | node => [⟨.statement, [t .Node]⟩]
  | inst => [⟨.statement, [t .Inst]⟩]
  | port => [⟨.port, [t .Input]⟩, ⟨.port, [t .Output]⟩]
  | field => [⟨.field, []⟩, ⟨.field, [t .Flip]⟩]
  | module => [⟨.module, [n .opt_public, t .Module]⟩]
  | reference => [⟨.reference, []⟩]
  | selection => [⟨.reference, [n .reference, c '.']⟩]

/-- The node of the phrase carries the name; that of a selection, its last child. -/
def Carries (use : Use) (p : PNode) (x : Text) : Prop :=
  match use with
  | selection => ∃ q, p.children.getLast? = some q ∧ q.name? = some x
  | _ => p.name? = some x

end Use

/-- A name in a parsed text that is used in the given way: the phrase in the parse tree, and
the tokens before the name, after which the scanner reads it as `x`. -/
structure Naming (use : Use) {lineno : Nat} {text : Text} (parse : Parse lineno text)
    (x : Text) where
  place : Place
  listed : place ∈ use.places
  rule : Nat
  line : Nat
  production : Production
  numbered : productions[rule]? = some production
  fits : place.fits production = true
  before : List ParseTree
  name : ParseTree
  after : List ParseTree
  aligned : before.length = place.before.length
  left : List Lexeme
  occurs : Occurs left (.node rule line (before ++ name :: after)) parse.tree
  lexeme : Lexeme
  word : name.word = [lexeme]
  read : Lexical.ReadAs lineno text (left ++ words before) x lexeme

/-- The phrase with the name. -/
def Naming.phrase {use : Use} {lineno : Nat} {text : Text} {parse : Parse lineno text} {x : Text}
    (naming : Naming use parse x) : ParseTree :=
  .node naming.rule naming.line (naming.before ++ naming.name :: naming.after)

/-- Some text with the name in this use is accepted. -/
def Accepted (use : Use) (x : Text) : Prop :=
  ∃ lineno text, ∃ parse : Parse lineno text, Nonempty (Naming use parse x)

namespace Term

/-- The term makes a node that is named by `$i`, and whose children come from the right side. -/
def titled : {type : CType} → Term type → Nat → Bool
  | _, newNodeArgs _ _ _ (str j) _ supplied, i =>
      decide (j = i) && supplied.types.isEmpty && supplied.keeps
  | _, appendExtraInfo p _, i => p.titled i
  | _, asNode p, i => p.titled i
  | _, _, _ => false

/-- The term adds a child that is named by `$i` to a node of the right side. -/
def selects : Term .value → Nat → Bool
  | asNode (appendChild (node _) p), i => p.titled i
  | _, _ => false

variable {env : Env} {i : Nat} {x : Text}

/-- The name of the node, and where its children come from. -/
theorem name_of_titled : (term : Term .node) → term.titled i = true →
    env.dollar i = some (.str (some x)) → {p : PNode} → term.eval env = some p →
    p.name? = some x ∧ p.type?.isSome ∧
      ∀ q ∈ p.children, ∀ r, r.type?.isSome → q.Has r → Given env r
  | newNodeArgs type line info (str j) num supplied, titled, found, p, evaluated => by
      rw [Term.titled, Bool.and_eq_true, Bool.and_eq_true, decide_eq_true_eq] at titled
      obtain ⟨⟨rfl, none⟩, keeps⟩ := titled
      simp only [eval, found] at evaluated
      obtain ⟨_, -, evaluated⟩ := Option.bind_eq_some_iff.mp evaluated
      obtain ⟨_, -, evaluated⟩ := Option.bind_eq_some_iff.mp evaluated
      obtain ⟨_, same, evaluated⟩ := Option.bind_eq_some_iff.mp evaluated
      obtain ⟨nodes, given, rfl⟩ := Option.map_eq_some_iff.mp evaluated
      obtain rfl := Option.some.inj same
      refine ⟨rfl, rfl, fun q member r typed has => ?_⟩
      obtain ⟨τ, typed⟩ := Option.isSome_iff_exists.mp typed
      refine (given_or_made supplied keeps nodes given typed
        (has_of_pnewNode typed member has)).resolve_right ?_
      rw [List.isEmpty_iff.mp none]
      exact List.not_mem_nil
  | appendExtraInfo base text, titled, found, p, evaluated => by
      simp only [eval] at evaluated
      obtain ⟨old, made, evaluated⟩ := Option.bind_eq_some_iff.mp evaluated
      obtain ⟨extra, -, appended⟩ := Option.bind_eq_some_iff.mp evaluated
      obtain ⟨name, typed, children⟩ := name_of_titled base titled found made
      cases old with
      | node =>
          cases extra with
          | none => cases appended
          | some extra =>
              obtain rfl := Option.some.inj appended
              exact ⟨name, rfl, children⟩
      | _ => cases appended

end Term

/-- A node below another one is in one of its children. -/
theorem PNode.Has.cases {p q : PNode} (has : p.Has q) : p = q ∨ ∃ r ∈ p.children, r.Has q := by
  cases has with
  | refl => exact Or.inl rfl
  | child member has => exact Or.inr ⟨_, member, has⟩

namespace Use

/-- The action of a phrase names the node that carries the name. -/
def titles (use : Use) (action : Term .value) (i : Nat) : Bool :=
  if use = .selection then action.selects i else action.titled i

/-- A node type that only phrases of the use have. -/
def type : Use → PNodeType
  | wire => .P_WIRE_DEF
  | reg => .P_REG_DEF
  | node => .P_NODE
  | inst => .P_INST
  | port => .P_INPUT
  | field => .P_FIELD
  | module => .P_MOD
  | reference => .P_REF
  | selection => .P_REF_DOT

/-- The phrases of all uses, their actions and their node types. -/
theorem productions_checked : (all.all fun use => productions.all fun p =>
    (use.places.all fun place => !place.fits p ||
      (use.titles p.action (place.before.length + 1) && decide (place.lhs ≠ .ALLID))) &&
    (decide (use.type ∉ p.action.types) || use.places.any fun place => place.fits p)) = true := by
  decide +kernel

variable {use : Use} {env : Env} {i : Nat} {x : Text}

/-- The value of a phrase carries its name, in the only node that was not there before. -/
theorem carries_of_titles (env : Env) {action : Term .value} (titles : use.titles action i = true)
    (found : env.dollar i = some (.str (some x))) {v : Val} (evaluated : action.eval env = some v) :
    ∃ p, v = .pnode p ∧ use.Carries p x ∧
      ∀ q, q.type?.isSome → ¬ Term.Given env q → p.Has q → q.name? = some x := by
  by_cases selected : use = .selection
  · subst selected
    cases action with
    | asNode node =>
        cases node with
        | appendChild base added =>
            cases base with
            | node j =>
                obtain ⟨p, made, rfl⟩ := Term.eval_asNode evaluated
                have whole := made
                simp only [Term.eval] at made
                obtain ⟨old, given, made⟩ := Option.bind_eq_some_iff.mp made
                obtain ⟨child, new, appended⟩ := Option.bind_eq_some_iff.mp made
                obtain ⟨name, typed, children⟩ := Term.name_of_titled added titles found new
                obtain ⟨grows, parts⟩ := PNode.appendChild_grows appended
                have old' {q : PNode} (typed : q.type?.isSome) (has : old.Has q) :
                    Term.Given env q := by
                  obtain ⟨τ, typed⟩ := Option.isSome_iff_exists.mp typed
                  exact (Term.given_or_made (.node j) rfl old given typed has).resolve_right
                    List.not_mem_nil
                refine ⟨p, rfl, ?_, fun q typed' outside has => ?_⟩
                · cases child with
                  | node =>
                      cases old with
                      | node =>
                          obtain rfl := Option.some.inj appended
                          exact ⟨_, List.getLast?_concat, name⟩
                      | _ => cases appended
                  | _ => cases typed
                · rcases parts q has with rfl | below | below
                  · have same : old.type?.isSome := by rwa [← grows.type?]
                    exact absurd ((old' same (.refl old)).grows grows) outside
                  · exact absurd (old' typed' below) outside
                  · rcases below.cases with rfl | ⟨r, member, deeper⟩
                    · exact name
                    · exact absurd (children r member q typed' deeper) outside
            | _ => cases titles
        | _ => cases titles
    | _ => cases titles
  · rw [Use.titles, if_neg selected] at titles
    cases action with
    | asNode node =>
        obtain ⟨p, made, rfl⟩ := Term.eval_asNode evaluated
        obtain ⟨name, typed, children⟩ := Term.name_of_titled node titles found made
        refine ⟨p, rfl, ?_, fun q typed' outside has => ?_⟩
        · cases use <;> first | exact name | exact absurd rfl selected
        · rcases has.cases with rfl | ⟨r, member, deeper⟩
          · exact name
          · exact absurd (children r member q typed' deeper) outside
    | _ => cases titles

end Use

theorem Place.rhs_of_fits {place : Place} {p : Production} (fits : place.fits p = true) :
    p.lhs = place.lhs ∧ ∃ more, p.rhs = place.before ++ n .ALLID :: more := by
  rw [Place.fits, Bool.and_eq_true, decide_eq_true_eq, List.isPrefixOf_iff_prefix] at fits
  obtain ⟨lhs, more, rhs⟩ := fits
  exact ⟨lhs, more, by rw [← rhs, List.append_assoc]; rfl⟩

section Namings

variable {use : Use} {lineno : Nat} {text : Text} {parse : Parse lineno text} {x : Text}

/-- In every phrase of a use, a name is read. -/
theorem naming_of_within {place : Place} (listed : place ∈ use.places) {rule line : Nat}
    {children : List ParseTree} (within : Within (.node rule line children) parse.tree)
    {production : Production} (numbered : productions[rule]? = some production)
    (fits : place.fits production = true) :
    ∃ x, ∃ naming : Naming use parse x, naming.phrase = .node rule line children := by
  obtain ⟨r, numbered', fit⟩ := parse.fits.1.rule within
  obtain ⟨p, found, rfl⟩ := production_of_rule numbered'
  obtain rfl := Option.some.inj (numbered.symm.trans found)
  obtain ⟨-, more, rhs⟩ := Place.rhs_of_fits fits
  change List.Forall₂ (Fits grammar) production.rhs children at fit
  rw [rhs] at fit
  obtain ⟨before, rest, rfl, leads, others⟩ := LR.Tree.fit_append fit
  obtain ⟨name, after, own, -, rfl⟩ := List.forall₂_cons_left_iff.mp others
  obtain ⟨lexeme, word, named, -⟩ := allId_of_fits own
  obtain ⟨left, occurs⟩ := within.occurs
  obtain ⟨right, tokens⟩ := occurs.word
  have split : parse.lexemes = (left ++ words before) ++ lexeme :: (words after ++ right) := by
    rw [← parse.fits.2, tokens, LR.Tree.word, LR.Tree.words_append, words, word]
    simp
  have scanned := parse.scanned
  rw [split] at scanned
  obtain ⟨x, read⟩ := scanned.readAs named.solid
  exact ⟨x, ⟨place, listed, rule, line, production, numbered, fits, before, name, after,
    leads.length_eq.symm, left, occurs, lexeme, word, read⟩, rfl⟩

namespace Naming

variable (naming : Naming use parse x)

/-- The symbols of the phrase around the name. -/
theorem fit : naming.production.lhs = naming.place.lhs ∧
    Fits grammar (.nonterm naming.place.lhs) naming.phrase ∧
    List.Forall₂ (Fits grammar) naming.place.before naming.before ∧
    Fits grammar (.nonterm .ALLID) naming.name := by
  obtain ⟨r, numbered, fit⟩ := parse.fits.1.rule naming.occurs.within
  obtain ⟨p, found, rfl⟩ := production_of_rule numbered
  obtain rfl := Option.some.inj (naming.numbered.symm.trans found)
  obtain ⟨lhs, more, rhs⟩ := Place.rhs_of_fits naming.fits
  have phrase : Fits grammar (.nonterm naming.production.lhs) naming.phrase := .node numbered fit
  rw [lhs] at phrase
  change List.Forall₂ (Fits grammar) naming.production.rhs _ at fit
  rw [rhs] at fit
  obtain ⟨before, rest, split, leads, others⟩ := LR.Tree.fit_append fit
  obtain ⟨rfl, rfl⟩ := List.append_inj split (naming.aligned.trans leads.length_eq)
  obtain ⟨name, after, own, -, same⟩ := List.forall₂_cons_left_iff.mp others
  obtain ⟨rfl, -⟩ := List.cons.inj same
  exact ⟨lhs, phrase, leads, own⟩

theorem names : Lexical.Names naming.lexeme := by
  obtain ⟨lexeme, word, named, -⟩ := allId_of_fits naming.fit.2.2.2
  obtain rfl := List.singleton_inj.mp (naming.word.symm.trans word)
  exact named

/-- The node of the phrase carries the name as it is spelled; it is the only new one. -/
theorem carries : ∃ p values, LR.Tree.evalAll act (naming.before ++ naming.name :: naming.after) =
    some values ∧ naming.phrase.eval act = some (.pnode p) ∧ use.Carries p x ∧
    ∀ q, q.type?.isSome → ¬ Term.Given ⟨naming.line, values⟩ q → p.Has q → q.name? = some x := by
  obtain ⟨v, evaluated⟩ := naming.occurs.within.eval parse.evaluated
  have whole := evaluated
  rw [LR.Tree.eval] at evaluated
  obtain ⟨values, all, evaluated⟩ := Option.bind_eq_some_iff.mp evaluated
  obtain ⟨production, found, evaluated⟩ := Option.bind_eq_some_iff.mp evaluated
  obtain rfl := Option.some.inj (naming.numbered.symm.trans found)
  have checked := List.all_eq_true.mp Use.productions_checked use use.mem_all
  have own := List.all_eq_true.mp checked _ (List.mem_of_getElem? found)
  have titles := List.all_eq_true.mp ((Bool.and_eq_true _ _).mp own).1 _ naming.listed
  rw [naming.fits, Bool.not_true, Bool.false_or, Bool.and_eq_true] at titles
  obtain ⟨w, name, here⟩ := LR.Tree.evalAll_getElem all
    (show (naming.before ++ naming.name :: naming.after)[naming.place.before.length]? =
      some naming.name by simp [← naming.aligned])
  obtain ⟨lexeme, word, -, spelled⟩ := allId_of_fits naming.fit.2.2.2
  obtain rfl := List.singleton_inj.mp (naming.word.symm.trans word)
  obtain rfl := Option.some.inj (name.symm.trans (spelled _ _ _ _ naming.read))
  obtain ⟨p, rfl, carried, only⟩ := Use.carries_of_titles ⟨naming.line, values⟩ titles.1
    here evaluated
  exact ⟨p, values, all, whole, carried, only⟩

include naming in
/-- Where the name does not come after a dot, it is not reserved. -/
theorem not_reserved (other : use ≠ .selection) (matched : Rules.id.Matches x) : ¬ Reserved x := by
  have checked : (Use.all.all fun use => decide (use = .selection) ||
      use.places.all fun place => dotsFollowed place.before) = true := by
    decide +kernel
  have own := List.all_eq_true.mp checked use use.mem_all
  rw [Bool.or_eq_true, decide_eq_true_eq] at own
  have followed := List.all_eq_true.mp (own.resolve_left other) _ naming.listed
  have checked' := List.all_eq_true.mp Use.productions_checked use use.mem_all
  have own' := List.all_eq_true.mp checked' _ (List.mem_of_getElem? naming.numbered)
  have titles := List.all_eq_true.mp ((Bool.and_eq_true _ _).mp own').1 _ naming.listed
  rw [naming.fits, Bool.not_true, Bool.false_or, Bool.and_eq_true, decide_eq_true_eq] at titles
  obtain ⟨-, phrase, leads, -⟩ := naming.fit
  refine naming.read.not_reserved naming.names matched fun before last ends => ?_
  rcases List.eq_nil_or_concat (words naming.before) with empty | ⟨inner, final, same⟩
  · rw [empty, List.append_nil] at ends
    exact (undotted naming.occurs parse.fits.1 phrase titles.2).1 before last ends
  · rw [List.concat_eq_append] at same
    rw [same, ← List.append_assoc] at ends
    obtain ⟨-, lasts⟩ := List.append_inj' ends rfl
    obtain rfl := List.singleton_inj.mp lasts
    exact last_of_fit naming.before leads followed inner final same

end Naming

/-- A name in the syntax tree was accepted in its use. -/
theorem accepted_of_holds {p : PNode} (held : parse.Holds p) (typed : p.type? = some use.type)
    (named : p.name? = some x) : Accepted use x := by
  obtain ⟨part, q, within, made, fresh, grows⟩ := parse.made_of_holds typed held
  obtain ⟨rule, line, children, production, rfl, found, ⟨τ, listed, typed'⟩, v, evaluated, has⟩ :=
    made
  obtain rfl : use.type = τ :=
    Option.some.inj ((typed.symm.trans grows.type?).trans typed')
  have checked := List.all_eq_true.mp Use.productions_checked use use.mem_all
  have own := List.all_eq_true.mp checked _ (List.mem_of_getElem? found)
  rw [Bool.and_eq_true, Bool.or_eq_true, decide_eq_true_eq] at own
  obtain ⟨place, place', fits⟩ :=
    List.any_eq_true.mp (own.2.resolve_left (not_not.mpr listed))
  obtain ⟨y, naming, same⟩ := naming_of_within place' within found fits
  obtain ⟨p', values, all, evaluated', -, only⟩ := naming.carries
  obtain ⟨rfl, rfl, rfl⟩ := LR.Tree.node.inj same
  obtain rfl := Option.some.inj (evaluated.symm.trans evaluated')
  have found' := only q (by rw [typed']; rfl) (fresh _ _ _ values rfl all) has
  obtain rfl := Option.some.inj ((named.symm.trans grows.name?).trans found')
  exact ⟨lineno, text, parse, ⟨naming⟩⟩

end Namings

section Programs

/-- The line that begins a module, on the second line of the text. -/
def moduleItems (name : Name) : List Item :=
  [.keyword .Module (by decide), .space, .name name, .space, .colon]

/-- A module with one line in it is parsed. -/
theorem parsed_of_module (name : Name) {items : List Item} (linked : Item.linked items = true)
    (heads : Item.Heads items) {p : PNode}
    (module : Parses (155, 1) .module (kw .Module :: name.token :: ch ':' :: kw .INDENT ::
      (Item.tokensOf items ++ [kw .DEDENT])) (.token .DEDENT) (.pnode p))
    (typed : p.type?.isSome) : ∃ lineno text, ∃ parse : Parse lineno text,
      ∀ r, r.type?.isSome → p.Has r → ∃ own, parse.Holds own ∧ own.erase = r := by
  let first : Row := .ofItems [[]] [' '] (moduleItems name) (by decide) (by decide)
    (Item.heads_keyword _ _)
  let second : Row := .ofItems [] [' ', ' '] items (by decide) (by decide) heads
  have head {line : Nat} (later : line ≠ 1) : first.Written line :=
    @Row.written_ofItems _ _ (moduleItems name) _ _ _ rfl _ later
  have body {line : Nat} (later : line ≠ 1) : second.Written line :=
    Row.written_ofItems linked later
  have aligned : Piece.AlignedAll 1 [.block first [.line second]] :=
    ⟨⟨rfl, List.cons_ne_nil _ _, 2, by decide, rfl, trivial⟩, trivial⟩
  obtain ⟨lexemes, eof, scanned, tokens⟩ := @scanned_rows first [second]
    (head (show 1 + 1 ≠ 1 by decide)) fun row member line later => by
      rw [List.mem_singleton.mp member]
      exact body later
  have emitted := Piece.emit_program aligned (List.cons_ne_nil _ _) (by decide)
  have word : lexemes.map (LR.Lexeme.token Val.erase) = kw .INDENT :: ((kw .Module :: name.token ::
      ch ':' :: kw .INDENT :: (Item.tokensOf items ++ [kw .DEDENT])) ++ [kw .DEDENT]) := by
    refine tokens.trans (emitted.trans ?_)
    simp [Piece.tokensAll, Piece.tokens, first, second, Row.ofItems, moduleItems, Item.tokensOf,
      Item.keyword, Item.space, Item.name, Item.colon, Item.char]
  obtain ⟨parse, -, held⟩ := Parse.of_module scanned word module typed
  exact ⟨_, _, parse, held⟩

variable {use : Use} {x : Text} {items : List Item} {p q : PNode}

/-- A name in a module with one line is accepted in its use. -/
theorem accepted_of_module (items : List Item) (name : Name) (linked : Item.linked items = true)
    (heads : Item.Heads items)
    (module : Parses (155, 1) .module (kw .Module :: name.token :: ch ':' :: kw .INDENT ::
      (Item.tokensOf items ++ [kw .DEDENT])) (.token .DEDENT) (.pnode p))
    (typed : p.type?.isSome) (has : p.Has q) (typed' : q.type? = some use.type)
    (named : q.name? = some x) : Accepted use x := by
  obtain ⟨lineno, text, parse, held⟩ := parsed_of_module name linked heads module typed
  obtain ⟨own, holds, same⟩ := held q (by rw [typed']; rfl) has
  refine accepted_of_holds holds ?_ ?_
  · rw [← typed', ← same, PNode.erase_type?]
  · rw [← named, ← same, PNode.erase_name?]

/-- A name in a statement is accepted in its use. -/
theorem accepted_of_statement (items : List Item) (linked : Item.linked items = true)
    (heads : Item.Heads items) {word : TokenName}
    (starts : LR.peek (Item.tokensOf items) (.token .DEDENT) = .token word)
    (other : Kind.token word ≠ .token .Input ∧ Kind.token word ≠ .token .Output)
    (statement : Parses (94, 1) .statement (Item.tokensOf items) (.token .DEDENT) (.pnode p))
    (has : p.Has q) (typed : q.type? = some use.type) (named : q.name? = some x) :
    Accepted use x := by
  obtain ⟨r, module, typed', -, within⟩ := parses_module nameM (by rwa [starts]) statement
  exact accepted_of_module items nameM linked heads (module _) (by rw [typed']; rfl)
    (within q (by rw [typed]; rfl) has) typed named

/-- The type `Clock`. -/
theorem parses_clock (context : Nat × Nat) (next : Kind) :
    Parses context .type [tok .Clock "Clock".toList] next (.pnode (.new .P_Clock 0)) :=
  parses_free 45 rfl (derivable_single (parses_free 29 rfl (derivable_term rfl .nil) rfl rfl) .nil)
    rfl rfl

/-- The word `Clock`. -/
def clockItem : Item := .ground "Clock" .Clock (by simp [grounds])

/-- The expression `M`. -/
def exprM : Expr := .reference (.name nameM)

section Statements

variable (name : Name)

theorem accepted_wire : Accepted .wire name.text :=
  accepted_of_statement [.keyword .Wire (by decide), .space, .name name, .space, .colon,
      .space, clockItem] rfl (Item.heads_keyword _ _) rfl (by decide)
    (parses_free 97 rfl (derivable_term rfl (derivable_single (name.parses _ _) (derivable_term rfl
      (derivable_single (parses_clock _ _) (derivable_last (parses_no_info _ _)))))) rfl rfl)
    (.refl _) rfl rfl

theorem accepted_reg : Accepted .reg name.text :=
  accepted_of_statement [.keyword .Reg (by decide), .space, .name name, .space, .colon,
      .space, clockItem, .comma, .space, .expr exprM] rfl (Item.heads_keyword _ _) rfl (by decide)
    (parses_free 98 rfl (derivable_term rfl (derivable_single (name.parses _ _) (derivable_term rfl
      (derivable_single (parses_clock _ _) (derivable_term rfl
        (derivable_single (exprM.parses _ _) (derivable_last (parses_no_info _ _)))))))) rfl rfl)
    (.refl _) rfl rfl

theorem accepted_node : Accepted .node name.text :=
  accepted_of_statement [.keyword .Node (by decide), .space, .name name, .space, .equals,
      .space, .expr exprM] rfl (Item.heads_keyword _ _) rfl (by decide)
    (parses_free 104 rfl (derivable_term rfl (derivable_single (name.parses _ _) (derivable_term rfl
      (derivable_single (exprM.parses _ _) (derivable_last (parses_no_info _ _)))))) rfl rfl)
    (.refl _) rfl rfl

theorem accepted_inst : Accepted .inst name.text :=
  accepted_of_statement [.keyword .Inst (by decide), .space, .name name, .space,
      .keyword .Of (by decide), .space, .name nameM] rfl (Item.heads_keyword _ _) rfl (by decide)
    (parses_free 103 rfl (derivable_term rfl (derivable_single (name.parses _ _) (derivable_term rfl
      (derivable_single (nameM.parses _ _) (derivable_last (parses_no_info _ _)))))) rfl rfl)
    (.refl _) rfl rfl

/-- A bundle with one field. -/
theorem parses_bundle (context : Nat × Nat) (next : Kind) :
    Parses context .type [ch '\x7b', name.token, ch ':', tok .Clock "Clock".toList, ch '\x7d'] next
      (.pnode (.node .P_AG_FIELDS 0 [] [] [] 0 false
        [.node .P_FIELD 0 [] name.text [] 0 false [.new .P_Clock 0]])) := by
  have field (context : Nat × Nat) (next : Kind) :
      Parses context .field [name.token, ch ':', tok .Clock "Clock".toList] next
        (.pnode (.node .P_FIELD 0 [] name.text [] 0 false [.new .P_Clock 0])) :=
    parses_free 43 rfl (derivable_single (name.parses _ _) (derivable_term rfl
      (derivable_last (parses_clock _ _)))) rfl rfl
  have fields (context : Nat × Nat) (next : Kind) :
      Parses context .fields [name.token, ch ':', tok .Clock "Clock".toList] next
        (.plist [.node .P_FIELD 0 [] name.text [] 0 false [.new .P_Clock 0]]) :=
    parses_free 40 rfl (derivable_last (field _ _)) rfl rfl
  have aggregate : Parses context .type_aggregate ([ch '\x7b', name.token, ch ':',
      tok .Clock "Clock".toList, ch '\x7d']) next (.pnode (.node .P_AG_FIELDS 0 [] [] [] 0 false
        [.node .P_FIELD 0 [] name.text [] 0 false [.new .P_Clock 0]])) :=
    parses_free 41 rfl (derivable_term rfl (LR.Derives.nonterm (fields _ _)
      (derivable_term rfl .nil))) rfl rfl
  exact parses_free 47 rfl (derivable_last aggregate) rfl rfl

theorem accepted_field : Accepted .field name.text := by
  have statement : Parses (94, 1) .statement (kw .Wire :: nameM.token :: ch ':' :: ([ch '\x7b',
      name.token, ch ':', tok .Clock "Clock".toList, ch '\x7d'] ++ [])) (.token .DEDENT)
      (.pnode (.node .P_WIRE_DEF 0 [] nameM.text [] 0 false [.node .P_AG_FIELDS 0 [] [] [] 0 false
        [.node .P_FIELD 0 [] name.text [] 0 false [.new .P_Clock 0]]])) :=
    parses_free 97 rfl (derivable_term rfl (derivable_single (nameM.parses _ _) (derivable_term rfl
      (.nonterm (parses_bundle name _ _) (derivable_last (parses_no_info _ _)))))) rfl rfl
  exact accepted_of_statement [.keyword .Wire (by decide), .space, .name nameM, .space,
      .colon, .space, .openBrace, .name name, .space, .colon, .space, clockItem, .closeBrace] rfl
    (Item.heads_keyword _ _) rfl (by decide) statement
    (.child (List.mem_singleton_self _) (.child (List.mem_singleton_self _) (.refl _))) rfl rfl

theorem accepted_reference : Accepted .reference name.text :=
  accepted_of_statement [.keyword .Node (by decide), .space, .name nameM, .space, .equals,
      .space, .expr (.reference (.name name))] rfl (Item.heads_keyword _ _) rfl (by decide)
    (parses_free 104 rfl (derivable_term rfl (derivable_single (nameM.parses _ _)
      (derivable_term rfl (derivable_single ((Expr.reference (.name name)).parses _ _)
        (derivable_last (parses_no_info _ _)))))) rfl rfl)
    (.child (List.mem_singleton_self _) (.refl _)) rfl rfl

theorem accepted_module : Accepted .module name.text := by
  obtain ⟨p, module, typed, named, -⟩ := parses_module name
    (show LR.peek [kw .Skip] (.token .DEDENT) ≠ .token .Input ∧
      LR.peek [kw .Skip] (.token .DEDENT) ≠ .token .Output by decide)
    parses_skip
  exact accepted_of_module [.keyword .Skip (by decide)] name rfl
    (Item.heads_keyword _ _) (module _) (by rw [typed]; rfl) (.refl p) typed named

theorem accepted_port : Accepted .port name.text := by
  have port (context : Nat × Nat) (next : Kind) : Parses context .port
      [kw .Input, name.token, ch ':', tok .Clock "Clock".toList] next
      (.pnode (.node .P_INPUT 0 [] name.text [] 0 false [.new .P_Clock 0])) :=
    parses_free 120 rfl (derivable_term rfl (derivable_single (name.parses _ _) (derivable_term rfl
      (derivable_single (parses_clock _ _) (derivable_last (parses_no_info _ _)))))) rfl rfl
  have none (context : Nat × Nat) (next : Kind) :
      Parses context .ports [] next (.pnode (.new .P_PORTS (-1))) :=
    parses_free 122 rfl .nil rfl rfl
  have ports (context : Nat × Nat) (next : Kind) : Parses context .ports
      [kw .Input, name.token, ch ':', tok .Clock "Clock".toList] next
      (.pnode (.node .P_PORTS (-1) [] [] [] 0 false
        [.node .P_INPUT 0 [] name.text [] 0 false [.new .P_Clock 0]])) :=
    parses_free 123 rfl (derivable_empty (none _ _) (derivable_last (port _ _))) rfl rfl
  have private' (next : Kind) : Parses (155, 1) .opt_public [] next .undef :=
    parses_free 124 rfl .nil rfl rfl
  have statements :
      Parses (126, 7) .statements [] (.token .DEDENT) (.pnode (.new .P_STATEMENTS 0)) :=
    parses 93 rfl .nil rfl rfl
  have module : Parses (155, 1) .module (kw .Module :: nameM.token :: ch ':' :: kw .INDENT ::
      ([kw .Input, name.token, ch ':', tok .Clock "Clock".toList] ++ [kw .DEDENT])) (.token .DEDENT)
      (.pnode (.node .P_MOD 0 [] nameM.text [] 0 false
        [.node .P_PORTS (-1) [] [] [] 0 false
          [.node .P_INPUT 0 [] name.text [] 0 false [.new .P_Clock 0]], .new .P_STATEMENTS 0])) :=
    parses_free 126 rfl (derivable_empty (private' _) (derivable_term rfl
      (derivable_single (nameM.parses _ _) (derivable_term rfl (derivable_empty (parses_no_info _ _)
        (derivable_term rfl (.nonterm (ports _ _) (derivable_empty statements
          (derivable_term rfl .nil))))))))) rfl rfl
  exact accepted_of_module [.keyword .Input (by decide), .space, .name name, .space,
      .colon, .space, clockItem] nameM rfl (Item.heads_keyword _ _) module rfl
    (.child List.mem_cons_self (.child (List.mem_singleton_self _) (.refl _))) rfl rfl

theorem accepted_selection (name : DotName) : Accepted .selection name.text := by
  let e : Expr := .reference (.dot (.name nameM) name)
  have statement : Parses (94, 1) .statement (kw .Node :: nameM.token :: ch '=' :: (e.tokens ++ []))
      (.token .DEDENT) (.pnode (.node .P_NODE 0 [] nameM.text [] 0 false
        [.node .P_REF 0 [] nameM.text [] 0 false [.node .P_REF_DOT 0 [] name.text [] 0 false
          []]])) :=
    parses_free 104 rfl (derivable_term rfl (derivable_single (nameM.parses _ _)
      (derivable_term rfl (.nonterm (e.parses _ _) (derivable_last (parses_no_info _ _)))))) rfl rfl
  exact accepted_of_statement [.keyword .Node (by decide), .space, .name nameM, .space,
      .equals, .space, .expr e] rfl (Item.heads_keyword _ _) rfl (by decide) statement
    (.child (List.mem_singleton_self _) (.child (List.mem_singleton_self _) (.refl _))) rfl rfl

/-- A name is accepted in every use. -/
theorem accepted_of_name (use : Use) : Accepted use name.text ∨ use = .selection := by
  cases use with
  | wire => exact Or.inl (accepted_wire name)
  | reg => exact Or.inl (accepted_reg name)
  | node => exact Or.inl (accepted_node name)
  | inst => exact Or.inl (accepted_inst name)
  | port => exact Or.inl (accepted_port name)
  | field => exact Or.inl (accepted_field name)
  | module => exact Or.inl (accepted_module name)
  | reference => exact Or.inl (accepted_reference name)
  | selection => exact Or.inr rfl

end Statements

end Programs

/-- All uses of names accept the identifier or none does, and whatever it is used for, the
node carries it unchanged. -/
def UsedAlike (x : DotName) : Prop :=
  (∀ use, Accepted use x.text ↔ Accepted .selection x.text) ∧
    ∀ use lineno text (parse : Parse lineno text) (naming : Naming use parse x.text),
      ∃ p, naming.phrase.eval act = some (.pnode p) ∧ use.Carries p x.text

/-- **Declared and selected names.** An identifier can be used alike in all declarations and
references exactly if it is not reserved. -/
theorem usedAlike_iff (x : DotName) : UsedAlike x ↔ ¬ Reserved x.text := by
  constructor
  · rintro ⟨agree, -⟩
    obtain ⟨_, _, _, ⟨naming⟩⟩ := (agree .wire).mpr (accepted_selection x)
    exact naming.not_reserved (by decide) x.spelled
  · intro free
    obtain ⟨name, same⟩ := (name_of_id x.spelled).resolve_left free
    refine ⟨fun use => ⟨fun _ => accepted_selection x, fun selected => ?_⟩, ?_⟩
    · rcases accepted_of_name name use with accepted | rfl
      · rwa [← same]
      · exact selected
    · intro use lineno text parse naming
      obtain ⟨p, _, -, evaluated, carried, -⟩ := naming.carries
      exact ⟨p, evaluated, carried⟩

/-- The identifier `wire`. -/
def wireName : DotName where
  text := "wire".toList
  spelled := (Pattern.matches_iff _ _).mpr (by decide)

/-- `wire` can be selected, but not declared. -/
theorem wire_not_usedAlike : ¬ UsedAlike wireName := by
  rintro ⟨agree, -⟩
  obtain ⟨_, _, _, ⟨naming⟩⟩ := (agree .node).mpr (accepted_selection wireName)
  exact naming.not_reserved (by decide) wireName.spelled
    (List.mem_map.mpr ⟨"wire", by simp [reserved], rfl⟩)

end FstWaveDemo
