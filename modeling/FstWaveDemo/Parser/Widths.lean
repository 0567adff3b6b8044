import FstWaveDemo.Parser.Nodes

/-! # Widths

The nodes of integer types and integer literals get their width from the `<n>` in the
text by way of `p_stoi`, which has 32 bits, and the width -1 if there is none. So a width
is the number in the text exactly if this number is an `int` that is not negative
(`FstWaveDemo.Parse.widths_iff`).
-/

namespace FstWaveDemo

open LR.Tree (Within words Fits)
open Flex (Pattern CharSet)

/-- A decimal number is digits after an optional minus sign. -/
theorem allDigits_of_int {w : Text} (matched : Rules.int.Matches w) : AllDigits (digitsOf w) := by
  obtain ⟨sign, digits, rfl, signed, rest⟩ := Pattern.matches_cat.mp matched
  have outside {c : Char} (member : c ∈ digits) : 47 < c.toNat := by
    have avoids : (Pattern.plus (Rules.set Rules.digit_dec)).avoids [('\x00', '/')] = true := by
      decide
    have apart := Pattern.not_mem_of_avoids avoids rest member
    by_contra small
    have low : CharSet.mem [('\x00', '/')] c = true :=
      CharSet.mem_iff.mpr ⟨('\x00', '/'), List.mem_singleton_self _, Nat.zero_le _,
        Nat.le_of_not_lt small⟩
    exact nomatch low.symm.trans apart
  have all : AllDigits digits := by
    intro c member
    have low := outside member
    change 0 ≤ (c.toNat : Int) - 48
    omega
  rcases Pattern.matches_alt.mp signed with none | minus
  · obtain rfl := Pattern.matches_empty.mp none
    cases digits with
    | nil => exact all
    | cons c others =>
        have unsigned : c ≠ '-' := by
          rintro rfl
          exact absurd (outside List.mem_cons_self) (by decide)
        have whole : digitsOf (c :: others) = c :: others := by simp [digitsOf, unsigned]
        rwa [List.nil_append, whole]
  · obtain rfl := Pattern.matches_lit.mp minus
    exact all

namespace Lexical

variable {s s' : Lexical} {text rest : Text} {lexeme : Lexeme}

/-- The rules that return an INT match the pattern of decimal numbers. -/
theorem int_rules (mode : Mode) : ((Rules.of mode).all fun r =>
    decide (.INT ∉ r.action.names) ||
      decide (r.pattern = Rules.int ∧ (r.action = .text .INT ∨ r.action = .int_dec))) = true := by
  cases mode <;> decide +kernel

/-- The text of an INT is a decimal number. -/
theorem step_int (stepped : s.step text = .token lexeme s' rest)
    (int : lexeme.kind = .token .INT) :
    ∃ w, lexeme.val = .str (some w) ∧ AllDigits (digitsOf w) := by
  rcases step_token stepped with ⟨-, -, rfl, -⟩ | ⟨r, member, w, tail, -, matched, made, -⟩
  · exact nomatch int
  · have named : TokenName.INT ∈ r.action.names := by
      rcases Action.kind_of_makes made with ⟨-, kind | kind⟩ | ⟨name, named, kind⟩ | ⟨-, c, kind⟩
      · exact nomatch int.symm.trans kind
      · exact nomatch int.symm.trans kind
      · rwa [Kind.token.inj (int.symm.trans kind)]
      · exact nomatch int.symm.trans kind
    have checked := List.all_eq_true.mp (int_rules s.mode) r member
    simp only [named, not_true_eq_false, decide_false, Bool.false_or, decide_eq_true_eq] at checked
    obtain ⟨pattern, action⟩ := checked
    rw [pattern] at matched
    refine ⟨w, ?_, allDigits_of_int matched⟩
    rcases action with action | action
    · rw [action] at made
      exact congrArg LR.Token.val made
    · rw [action] at made
      rcases made with made | made
      · exact congrArg LR.Token.val made
      · exact congrArg LR.Token.val made

end Lexical

/-- The node types that have the width of an integer type or literal. -/
def sizedTypes : List PNodeType := [.P_INT_TYPE, .P_EXPR_INT_INIT, .P_EXPR_INT_NOINIT]

/-- The number in the `<n>` of the first integer type for which one is written. -/
def numeral : List Lexeme → Option Text
  | ⟨⟨.token .IntType, _⟩, _⟩ :: ⟨⟨.char '<', _⟩, _⟩ :: ⟨⟨.token .INT, .str text⟩, _⟩ :: _ => text
  | _ :: rest => numeral rest
  | [] => none

/-- A width that the parser computes from the `<n>` that is written, if any. -/
def Computed (written : Option Text) (width : Int) : Prop :=
  (written = none ∧ width = -1) ∨
    ∃ n, written = some n ∧ AllDigits (digitsOf n) ∧ width = p_stoi n

/-- The INTs are decimal numbers. -/
def Decimal (lexemes : List Lexeme) : Prop :=
  ∀ lexeme ∈ lexemes, lexeme.kind = .token .INT →
    ∃ w, lexeme.val = .str (some w) ∧ AllDigits (digitsOf w)

/-- A token in front of others, with its value. -/
theorem leaf_cons_of_fits {kind : Kind} {symbols : List (LR.Symbol Kind Nonterminal)}
    {children : List ParseTree}
    (fit : List.Forall₂ (Fits grammar) (.term kind :: symbols) children) {values : List Val}
    (all : LR.Tree.evalAll act children = some values) :
    ∃ val line others rest, children = .leaf ⟨⟨kind, val⟩, line⟩ :: others ∧ values = val :: rest ∧
      List.Forall₂ (Fits grammar) symbols others ∧ LR.Tree.evalAll act others = some rest := by
  obtain ⟨tree, others, own, fit', rfl⟩ := List.forall₂_cons_left_iff.mp fit
  obtain ⟨⟨⟨kind', val⟩, line⟩, rfl, same⟩ := own.term
  obtain rfl : kind' = kind := same
  rw [LR.Tree.evalAll] at all
  obtain ⟨rest, tail, rfl⟩ := Option.map_eq_some_iff.mp all
  exact ⟨val, line, others, rest, rfl, rfl, fit', tail⟩

/-- A phrase in front of others, with its value. -/
theorem node_cons_of_fits {name : Nonterminal} {symbols : List (LR.Symbol Kind Nonterminal)}
    {children : List ParseTree}
    (fit : List.Forall₂ (Fits grammar) (.nonterm name :: symbols) children) {values : List Val}
    (all : LR.Tree.evalAll act children = some values) :
    ∃ tree v others rest, children = tree :: others ∧ values = v :: rest ∧
      Fits grammar (.nonterm name) tree ∧ tree.eval act = some v ∧
        List.Forall₂ (Fits grammar) symbols others ∧ LR.Tree.evalAll act others = some rest := by
  obtain ⟨tree, others, own, fit', rfl⟩ := List.forall₂_cons_left_iff.mp fit
  rw [LR.Tree.evalAll] at all
  obtain ⟨v, head, all⟩ := Option.bind_eq_some_iff.mp all
  obtain ⟨rest, tail, rfl⟩ := Option.map_eq_some_iff.mp all
  exact ⟨tree, v, others, rest, rfl, rfl, own, head, fit', tail⟩

theorem nil_of_fits {children : List ParseTree} (fit : List.Forall₂ (Fits grammar) [] children)
    {values : List Val} (all : LR.Tree.evalAll act children = some values) :
    children = [] ∧ values = [] := by
  obtain rfl := List.forall₂_nil_left_iff.mp fit
  exact ⟨rfl, (Option.some.inj all).symm⟩

/-- The two rules of `width`. -/
theorem width_of_fits {tree : ParseTree} (fits : Fits grammar (.nonterm .width) tree)
    (decimal : Decimal tree.word) {v : Val} (evaluated : tree.eval act = some v) :
    (tree.word = [] ∧ v = .int (-1)) ∨
      ∃ opening line line' w closing,
        tree.word = [⟨⟨.char '<', opening⟩, line⟩, ⟨tok .INT w, line'⟩, closing] ∧
          AllDigits (digitsOf w) ∧ v = .int (p_stoi w) := by
  obtain ⟨rule, line, children, production, rfl, found, own, fit⟩ := node_of_fits fits
  have checked := production_check (fun p number => decide (p.lhs ≠ .width) ||
    decide (number = 25 ∨ number = 26)) (by decide +kernel) found
  simp only [own, ne_eq, not_true_eq_false, decide_false, Bool.false_or, decide_eq_true_eq]
    at checked
  rw [LR.Tree.eval] at evaluated
  obtain ⟨values, all, evaluated⟩ := Option.bind_eq_some_iff.mp evaluated
  rcases checked with rfl | rfl
  · obtain rfl := Option.some.inj found
    obtain ⟨rfl, rfl⟩ := nil_of_fits fit all
    exact Or.inl ⟨rfl, (Option.some.inj evaluated).symm⟩
  · obtain rfl := Option.some.inj found
    obtain ⟨opening, line₁, _, _, rfl, rfl, fit₁, all₁⟩ := leaf_cons_of_fits fit all
    obtain ⟨val, line₂, _, _, rfl, rfl, fit₂, all₂⟩ := leaf_cons_of_fits fit₁ all₁
    obtain ⟨closing, line₃, _, _, rfl, rfl, fit₃, all₃⟩ := leaf_cons_of_fits fit₂ all₂
    obtain ⟨rfl, rfl⟩ := nil_of_fits fit₃ all₃
    obtain ⟨w, rfl, digits⟩ := decimal ⟨⟨.token .INT, val⟩, line₂⟩
      (List.mem_cons_of_mem _ List.mem_cons_self) rfl
    exact Or.inr ⟨opening, line₁, line₂, w, _, rfl, digits, (Option.some.inj evaluated).symm⟩

/-- The number of a phrase with a width in it. -/
theorem computed_of_width {tree : ParseTree} (before after : List Lexeme)
    (fits : Fits grammar (.nonterm .width) tree)
    (decimal : Decimal (before ++ (tree.word ++ after))) {v : Val}
    (evaluated : tree.eval act = some v) (plain : numeral (before ++ after) = none)
    (spelled : ∀ opening line line' w closing, numeral (before ++ ([⟨⟨.char '<', opening⟩, line⟩,
      ⟨tok .INT w, line'⟩, closing] ++ after)) = some w) :
    ∃ w, v = .int w ∧ Computed (numeral (before ++ (tree.word ++ after))) w := by
  have inner : Decimal tree.word := fun lexeme member =>
    decimal lexeme (List.mem_append_right _ (List.mem_append_left _ member))
  rcases width_of_fits fits inner evaluated with
    ⟨empty, rfl⟩ | ⟨opening, line, line', w, closing, word, digits, rfl⟩
  · rw [empty, List.nil_append]
    exact ⟨-1, rfl, Or.inl ⟨plain, rfl⟩⟩
  · rw [word]
    exact ⟨_, rfl, Or.inr ⟨w, spelled .., digits, rfl⟩⟩

/-- The rules that make nodes of these types. -/
def sizedRules : List Nat := [32, 33, 34, 35, 55, 56, 57]

theorem sized_of_types {production : Production} {rule : Nat} {τ : PNodeType}
    (found : productions[rule]? = some production) (listed : τ ∈ production.action.types)
    (sized : τ ∈ sizedTypes) : rule ∈ sizedRules := by
  have checked := production_check (fun p number =>
    p.action.types.all (fun τ => decide (τ ∉ sizedTypes)) || decide (number ∈ sizedRules))
    (by decide +kernel) found
  rcases (Bool.or_eq_true _ _).mp checked with none | member
  · exact absurd sized (of_decide_eq_true (List.all_eq_true.mp none τ listed))
  · exact of_decide_eq_true member

/-- A node of the given width without children. -/
def PNode.Bare (p : PNode) (width : Int) : Prop :=
  ∃ type lineno info name extraInfo sign, p = .node type lineno info name extraInfo width sign []

namespace Term

variable {env : Env} {p : PNode}

/-- A new node with a width and a sign. -/
theorem bare_setSign {type : PNodeType} {name : Term .str} {width : Term .int} {sign : Term .bool}
    (evaluated : (setSign (setWidth (newNode' type synlineno name 0 []) width) sign).eval env =
      some p) : ∃ w, width.eval env = some w ∧ p.Bare w := by
  simp only [eval] at evaluated
  obtain ⟨q, widened, evaluated⟩ := Option.bind_eq_some_iff.mp evaluated
  obtain ⟨own, made, widened⟩ := Option.bind_eq_some_iff.mp widened
  obtain ⟨w, found, widened⟩ := Option.bind_eq_some_iff.mp widened
  obtain ⟨b, -, signed⟩ := Option.bind_eq_some_iff.mp evaluated
  simp only [Option.bind_some] at made
  obtain ⟨text, -, made⟩ := Option.bind_eq_some_iff.mp made
  obtain rfl := Option.some.inj made
  obtain rfl := Option.some.inj widened
  obtain rfl := Option.some.inj signed
  exact ⟨w, found, _, _, _, _, _, _, rfl⟩

/-- Extra information keeps the width. -/
theorem bare_appendExtraInfo {base : Term .node} {text : Term .str}
    (evaluated : (appendExtraInfo base text).eval env = some p) :
    ∃ q, base.eval env = some q ∧ ∀ w, q.Bare w → p.Bare w := by
  simp only [eval] at evaluated
  obtain ⟨q, made, evaluated⟩ := Option.bind_eq_some_iff.mp evaluated
  obtain ⟨extra, -, appended⟩ := Option.bind_eq_some_iff.mp evaluated
  refine ⟨q, made, ?_⟩
  rintro w ⟨type, lineno, info, name, extraInfo, sign, rfl⟩
  cases extra with
  | none => cases appended
  | some extra =>
      obtain rfl := Option.some.inj appended
      exact ⟨_, _, _, _, _, _, rfl⟩

end Term

/-- The reductions that make a node of an integer type or literal, with its width. -/
theorem bare_of_fits {rule line : Nat} {children : List ParseTree} {production : Production}
    (listed : rule ∈ sizedRules) (found : productions[rule]? = some production)
    (fit : List.Forall₂ (Fits grammar) production.rhs children)
    (decimal : Decimal (words children)) {v : Val}
    (evaluated : LR.Tree.eval act (.node rule line children) = some v) :
    ∃ p w, v = .pnode p ∧ p.Bare w ∧ Computed (numeral (words children)) w := by
  rw [LR.Tree.eval] at evaluated
  obtain ⟨values, all, evaluated⟩ := Option.bind_eq_some_iff.mp evaluated
  simp only [sizedRules, List.mem_cons, List.not_mem_nil, or_false] at listed
  rcases listed with rfl | rfl | rfl | rfl | rfl | rfl | rfl
  · obtain rfl := Option.some.inj found
    obtain ⟨val, line₁, _, _, rfl, rfl, fit₁, all₁⟩ := leaf_cons_of_fits fit all
    obtain ⟨tree, v, _, _, rfl, rfl, width, computed, fit₂, all₂⟩ := node_cons_of_fits fit₁ all₁
    obtain ⟨rfl, rfl⟩ := nil_of_fits fit₂ all₂
    obtain ⟨w, rfl, number⟩ := computed_of_width [⟨⟨.token .IntType, val⟩, line₁⟩]
      [] width decimal computed rfl fun _ _ _ _ _ => rfl
    obtain ⟨p, made, rfl⟩ := Term.eval_asNode evaluated
    obtain ⟨_, same, bare⟩ := Term.bare_setSign made
    obtain rfl := Option.some.inj same
    exact ⟨p, w, rfl, bare, number⟩
  · obtain rfl := Option.some.inj found
    obtain ⟨_, line₁, _, _, rfl, rfl, fit₁, all₁⟩ := leaf_cons_of_fits fit all
    obtain ⟨_, line₂, _, _, rfl, rfl, fit₂, all₂⟩ := leaf_cons_of_fits fit₁ all₁
    obtain ⟨_, line₃, _, _, rfl, rfl, fit₃, all₃⟩ := leaf_cons_of_fits fit₂ all₂
    obtain ⟨_, line₄, _, _, rfl, rfl, fit₄, all₄⟩ := leaf_cons_of_fits fit₃ all₃
    obtain ⟨rfl, rfl⟩ := nil_of_fits fit₄ all₄
    obtain ⟨p, made, rfl⟩ := Term.eval_asNode evaluated
    obtain ⟨_, same, bare⟩ := Term.bare_setSign made
    obtain rfl := Option.some.inj same
    exact ⟨p, -1, rfl, bare, Or.inl ⟨rfl, rfl⟩⟩
  · obtain rfl := Option.some.inj found
    obtain ⟨probe, line₁, _, _, rfl, rfl, fit₁, all₁⟩ := leaf_cons_of_fits fit all
    obtain ⟨less, line₂, _, _, rfl, rfl, fit₂, all₂⟩ := leaf_cons_of_fits fit₁ all₁
    obtain ⟨val, line₃, _, _, rfl, rfl, fit₃, all₃⟩ := leaf_cons_of_fits fit₂ all₂
    obtain ⟨tree, v, _, _, rfl, rfl, width, computed, fit₄, all₄⟩ := node_cons_of_fits fit₃ all₃
    obtain ⟨more, line₅, _, _, rfl, rfl, fit₅, all₅⟩ := leaf_cons_of_fits fit₄ all₄
    obtain ⟨rfl, rfl⟩ := nil_of_fits fit₅ all₅
    obtain ⟨w, rfl, number⟩ := computed_of_width [⟨⟨.token .ProbeType, probe⟩, line₁⟩,
      ⟨⟨.char '<', less⟩, line₂⟩, ⟨⟨.token .IntType, val⟩, line₃⟩]
      [⟨⟨.char '>', more⟩, line₅⟩] width decimal computed rfl fun _ _ _ _ _ => rfl
    obtain ⟨p, made, rfl⟩ := Term.eval_asNode evaluated
    obtain ⟨_, same, bare⟩ := Term.bare_setSign made
    obtain rfl := Option.some.inj same
    exact ⟨p, w, rfl, bare, number⟩
  · obtain rfl := Option.some.inj found
    obtain ⟨_, line₁, _, _, rfl, rfl, fit₁, all₁⟩ := leaf_cons_of_fits fit all
    obtain ⟨_, line₂, _, _, rfl, rfl, fit₂, all₂⟩ := leaf_cons_of_fits fit₁ all₁
    obtain ⟨_, line₃, _, _, rfl, rfl, fit₃, all₃⟩ := leaf_cons_of_fits fit₂ all₂
    obtain ⟨_, line₄, _, _, rfl, rfl, fit₄, all₄⟩ := leaf_cons_of_fits fit₃ all₃
    obtain ⟨val, line₅, _, _, rfl, rfl, fit₅, all₅⟩ := leaf_cons_of_fits fit₄ all₄
    obtain ⟨_, line₆, _, _, rfl, rfl, fit₆, all₆⟩ := leaf_cons_of_fits fit₅ all₅
    obtain ⟨rfl, rfl⟩ := nil_of_fits fit₆ all₆
    obtain ⟨w, rfl, digits⟩ := decimal ⟨⟨.token .INT, val⟩, line₅⟩
      (by simp [words, LR.Tree.word]) rfl
    obtain ⟨p, made, rfl⟩ := Term.eval_asNode evaluated
    obtain ⟨_, same, bare⟩ := Term.bare_setSign made
    obtain rfl := Option.some.inj same
    exact ⟨p, _, rfl, bare, Or.inr ⟨w, rfl, digits, rfl⟩⟩
  · obtain rfl := Option.some.inj found
    obtain ⟨val, line₁, _, _, rfl, rfl, fit₁, all₁⟩ := leaf_cons_of_fits fit all
    obtain ⟨tree, v, _, _, rfl, rfl, width, computed, fit₂, all₂⟩ := node_cons_of_fits fit₁ all₁
    obtain ⟨left, line₃, _, _, rfl, rfl, fit₃, all₃⟩ := leaf_cons_of_fits fit₂ all₂
    obtain ⟨right, line₄, _, _, rfl, rfl, fit₄, all₄⟩ := leaf_cons_of_fits fit₃ all₃
    obtain ⟨rfl, rfl⟩ := nil_of_fits fit₄ all₄
    obtain ⟨w, rfl, number⟩ := computed_of_width [⟨⟨.token .IntType, val⟩, line₁⟩]
      [⟨⟨.char '(', left⟩, line₃⟩, ⟨⟨.char ')', right⟩, line₄⟩] width decimal computed rfl
      fun _ _ _ _ _ => rfl
    obtain ⟨p, made, rfl⟩ := Term.eval_asNode evaluated
    obtain ⟨_, same, bare⟩ := Term.bare_setSign made
    obtain rfl := Option.some.inj same
    exact ⟨p, w, rfl, bare, number⟩
  · obtain rfl := Option.some.inj found
    obtain ⟨val, line₁, _, _, rfl, rfl, fit₁, all₁⟩ := leaf_cons_of_fits fit all
    obtain ⟨tree, v, _, _, rfl, rfl, width, computed, fit₂, all₂⟩ := node_cons_of_fits fit₁ all₁
    obtain ⟨left, line₃, _, _, rfl, rfl, fit₃, all₃⟩ := leaf_cons_of_fits fit₂ all₂
    obtain ⟨init, line₄, _, _, rfl, rfl, fit₄, all₄⟩ := leaf_cons_of_fits fit₃ all₃
    obtain ⟨right, line₅, _, _, rfl, rfl, fit₅, all₅⟩ := leaf_cons_of_fits fit₄ all₄
    obtain ⟨rfl, rfl⟩ := nil_of_fits fit₅ all₅
    obtain ⟨w, rfl, number⟩ := computed_of_width [⟨⟨.token .IntType, val⟩, line₁⟩]
      [⟨⟨.char '(', left⟩, line₃⟩, ⟨⟨.token .INT, init⟩, line₄⟩, ⟨⟨.char ')', right⟩, line₅⟩]
      width decimal computed rfl fun _ _ _ _ _ => rfl
    obtain ⟨p, made, rfl⟩ := Term.eval_asNode evaluated
    obtain ⟨q, made, keeps⟩ := Term.bare_appendExtraInfo made
    obtain ⟨_, same, bare⟩ := Term.bare_setSign made
    obtain rfl := Option.some.inj same
    exact ⟨p, w, rfl, keeps w bare, number⟩
  · obtain rfl := Option.some.inj found
    obtain ⟨val, line₁, _, _, rfl, rfl, fit₁, all₁⟩ := leaf_cons_of_fits fit all
    obtain ⟨tree, v, _, _, rfl, rfl, width, computed, fit₂, all₂⟩ := node_cons_of_fits fit₁ all₁
    obtain ⟨left, line₃, _, _, rfl, rfl, fit₃, all₃⟩ := leaf_cons_of_fits fit₂ all₂
    obtain ⟨init, line₄, _, _, rfl, rfl, fit₄, all₄⟩ := leaf_cons_of_fits fit₃ all₃
    obtain ⟨right, line₅, _, _, rfl, rfl, fit₅, all₅⟩ := leaf_cons_of_fits fit₄ all₄
    obtain ⟨rfl, rfl⟩ := nil_of_fits fit₅ all₅
    obtain ⟨w, rfl, number⟩ := computed_of_width [⟨⟨.token .IntType, val⟩, line₁⟩]
      [⟨⟨.char '(', left⟩, line₃⟩, ⟨⟨.token .RINT, init⟩, line₄⟩, ⟨⟨.char ')', right⟩, line₅⟩]
      width decimal computed rfl fun _ _ _ _ _ => rfl
    obtain ⟨p, made, rfl⟩ := Term.eval_asNode evaluated
    obtain ⟨q, made, keeps⟩ := Term.bare_appendExtraInfo made
    obtain ⟨_, same, bare⟩ := Term.bare_setSign made
    obtain rfl := Option.some.inj same
    exact ⟨p, w, rfl, keeps w bare, number⟩

/-- A node of the syntax tree for an integer type or an integer literal, with the phrase
it was made from. -/
structure SizedNode {lineno : Nat} {text : Text} (parse : Parse lineno text) where
  p : PNode
  held : parse.Holds p
  sized : ∃ τ ∈ sizedTypes, p.type? = some τ
  phrase : ParseTree
  within : Within phrase parse.tree
  made : PNode
  reduced : MadeBy phrase made
  grown : made.Grows p

namespace SizedNode

variable {lineno : Nat} {text : Text} {parse : Parse lineno text}

/-- The number that is written for the node, if there is one. -/
def written (node : SizedNode parse) : Option Text := numeral node.phrase.word

/-- The width is -1 if no number is written. Otherwise it is this number and not negative,
and no overflow happens when it is computed. -/
def Exact (node : SizedNode parse) : Prop :=
  ∃ width, node.p.width? = some width ∧ (width = -1 ↔ node.written = none) ∧
    ∀ n, node.written = some n → 0 ≤ width ∧ width = writtenInt n ∧ NoOverflow n

/-- The width of a node is computed from the number that is written for it. -/
theorem computed (node : SizedNode parse) :
    ∃ width, node.p.width? = some width ∧ Computed node.written width := by
  obtain ⟨p, held, ⟨τ, sized, typed⟩, phrase, within, made, reduced, grown⟩ := node
  obtain ⟨rule, line, children, production, rfl, found, ⟨σ, listed, typed'⟩, v, evaluated, has⟩ :=
    reduced
  obtain rfl : τ = σ := Option.some.inj ((typed.symm.trans grown.type?).trans typed')
  obtain ⟨r, numbered, fit⟩ := parse.fits.1.rule within
  obtain ⟨production', found', rfl⟩ := production_of_rule numbered
  obtain rfl := Option.some.inj (found'.symm.trans found)
  have decimal : Decimal (words children) := by
    intro lexeme member int
    have listed : lexeme ∈ parse.lexemes := parse.fits.2 ▸ within.infix.subset member
    obtain ⟨_, scans, -⟩ := parse.scanned
    obtain ⟨_, _, _, _, _, _, stepped⟩ := scans.returned listed
    exact Lexical.step_int stepped int
  obtain ⟨q, w, rfl, ⟨type, lineno, info, name, extraInfo, sign, rfl⟩, number⟩ :=
    bare_of_fits (sized_of_types found listed sized) found fit decimal evaluated
  have same : PNode.node type lineno info name extraInfo w sign [] = made := by
    cases has with
    | refl => rfl
    | child impossible => exact nomatch impossible
  exact ⟨w, by rw [grown.width?, ← same]; rfl, number⟩

/-- The width of a node is exact if and only if the number that is written for it, if
there is one, is an `int` that is not negative. -/
theorem exact_iff (node : SizedNode parse) :
    node.Exact ↔ ∀ n, node.written = some n → 0 ≤ writtenInt n ∧ writtenInt n < 2 ^ 31 := by
  obtain ⟨width, own, ⟨none, rfl⟩ | ⟨n, written, digits, rfl⟩⟩ := node.computed
  · refine iff_of_true ⟨-1, own, iff_of_true rfl none, fun n written => ?_⟩ fun n written => ?_
    · exact nomatch none.symm.trans written
    · exact nomatch none.symm.trans written
  · constructor
    · rintro ⟨width, same, -, exact'⟩ m written'
      obtain rfl := Option.some.inj (own.symm.trans same)
      obtain rfl := Option.some.inj (written.symm.trans written')
      exact (p_stoi_exact_iff digits).mp (exact' n written)
    · intro bounds
      have exact' := (p_stoi_exact_iff digits).mpr (bounds n written)
      refine ⟨_, own, iff_of_false ?_ ?_, fun m written' => ?_⟩
      · have positive := exact'.1
        omega
      · rw [written]
        exact Option.some_ne_none n
      · obtain rfl := Option.some.inj (written.symm.trans written')
        exact exact'

end SizedNode

/-- Every node of an integer type or an integer literal in the syntax tree comes from a
phrase. -/
theorem Parse.sizedNode_of_holds {lineno : Nat} {text : Text} (parse : Parse lineno text)
    {p : PNode} {τ : PNodeType} (held : parse.Holds p) (listed : τ ∈ sizedTypes)
    (typed : p.type? = some τ) : ∃ node : SizedNode parse, node.p = p := by
  obtain ⟨phrase, made, within, reduced, -, grown⟩ := parse.made_of_holds typed held
  exact ⟨⟨p, held, ⟨τ, listed, typed⟩, phrase, within, made, reduced, grown⟩, rfl⟩

/-- **Widths.** Every node of an integer type or an integer literal in the syntax tree comes
from a phrase; its width is -1 if no number is written there, and otherwise this number,
computed without overflow, exactly if the number is an `int` that is not negative. -/
theorem Parse.widths_iff {lineno : Nat} {text : Text} (parse : Parse lineno text) :
    (∀ p, parse.Holds p → (∃ τ ∈ sizedTypes, p.type? = some τ) →
      ∃ node : SizedNode parse, node.p = p) ∧
    ∀ node : SizedNode parse,
      node.Exact ↔ ∀ n, node.written = some n → 0 ≤ writtenInt n ∧ writtenInt n < 2 ^ 31 :=
  ⟨fun _ held ⟨_, listed, typed⟩ => parse.sizedNode_of_holds held listed typed,
    fun node => node.exact_iff⟩

/-- The statement `wire M : UInt<2147483648>`. -/
theorem parses_wide : ∃ p, Parses (94, 1) .statement
    [kw .Wire, nameM.token, ch ':', tok .IntType "UInt".toList, ch '<',
      tok .INT "2147483648".toList, ch '>'] (.token .DEDENT) (.pnode p) ∧
    ∃ q, p.Has q ∧ q.type? = some .P_INT_TYPE ∧ q.width? = some (-2147483648) := by
  have width (context : Nat × Nat) (next : Kind) : Parses context .width
      [ch '<', tok .INT "2147483648".toList, ch '>'] next (.int (p_stoi "2147483648".toList)) :=
    parses_free 26 rfl (derivable_term rfl (derivable_term rfl (derivable_term rfl .nil))) rfl rfl
  let type : PNode := .node .P_INT_TYPE 0 [] "UInt".toList [] (p_stoi "2147483648".toList) false []
  have ground (context : Nat × Nat) (next : Kind) : Parses context .type_ground
      [tok .IntType "UInt".toList, ch '<', tok .INT "2147483648".toList, ch '>'] next
      (.pnode type) :=
    parses_free 32 rfl (derivable_term rfl (derivable_last (width _ _))) rfl rfl
  have typed (context : Nat × Nat) (next : Kind) : Parses context .type
      [tok .IntType "UInt".toList, ch '<', tok .INT "2147483648".toList, ch '>'] next
      (.pnode type) := parses_free 45 rfl (derivable_last (ground _ _)) rfl rfl
  refine ⟨_, parses_free 97 rfl (derivable_term rfl (derivable_single (nameM.parses _ _)
    (derivable_term rfl (.nonterm (typed _ _) (derivable_last (parses_no_info _ _)))))) rfl rfl, ?_⟩
  have wraps : p_stoi "2147483648".toList = -2147483648 := by decide +kernel
  refine ⟨_, .child List.mem_cons_self (.refl _), rfl, ?_⟩
  rw [← wraps]
  rfl

/-- The width of `UInt<2147483648>` is -2147483648. -/
theorem width_wraps : ¬ ∀ lineno text (parse : Parse lineno text) (node : SizedNode parse),
    node.Exact := by
  intro exact'
  obtain ⟨p, statement, q, has, typed, wide⟩ := parses_wide
  obtain ⟨parse, -, held⟩ := Parse.of_statement 60 1
    "  module M :\n    wire M : UInt<2147483648>\n".toList statement (by decide)
    (by decide +kernel)
  obtain ⟨own, holds, rfl⟩ := held q (by rw [typed]; rfl) has
  rw [PNode.erase_type?] at typed
  rw [PNode.erase_width?] at wide
  obtain ⟨node, rfl⟩ := parse.sizedNode_of_holds holds (by decide) typed
  obtain ⟨width, same, inferred, numbered⟩ := exact' _ _ parse node
  obtain rfl := Option.some.inj (wide.symm.trans same)
  cases written : node.written with
  | none => exact absurd (inferred.mpr written) (by decide)
  | some n => exact absurd (numbered n written).1 (by decide)

end FstWaveDemo
