import FstWaveDemo.Parser.Conflicts
import FstWaveDemo.Parser.Spelling

/-! # Derivations and parses

The derivations of `syntax.y` that respect the conflict filter
(`FstWaveDemo.Parses`), rule by rule, and what they say about the parser: an input
is accepted exactly if its tokens are derived from `circuit`
(`FstWaveDemo.accepts_iff`). Names are the first derived phrases.
-/

namespace FstWaveDemo

open LR (Reduces Derives)
open Flex (CharSet Pattern)

/-- `Parses context name word next value`: in a state entered with the kernel item
`context`, the parser reduces the word to the nonterminal with the given value when
`next` comes after it. -/
abbrev Parses (context : Nat × Nat) (name : Nonterminal) (word : List Tok) (next : Kind)
    (value : Val) : Prop :=
  Reduces grammar conflicts sem context name word next value

/-- The same for the symbols after the dot of a rule. -/
abbrev Derivable (rule dot : Nat) (context : Nat × Nat)
    (symbols : List (LR.Symbol Kind Nonterminal))
    (word : List Tok) (next : Kind) (values : List Val) : Prop :=
  Derives grammar conflicts sem rule dot context symbols word next values

/-- **The language of the parser**, with lines forgotten. -/
theorem accepts_iff {lexemes : List Lexeme} {eof : Lexeme}
    (apart : ∀ lexeme ∈ lexemes, lexeme.kind ≠ .token .eof) (ends : eof.kind = .token .eof)
    {root : PNode} {list : List PNode} :
    (∃ root' list', Syntax.Accepts (lexemes ++ [eof]) root' list' ∧ root'.erase = root ∧
        list'.map PNode.erase = list) ↔
      Parses (0, 0) .circuit (lexemes.map (LR.Lexeme.token Val.erase)) (.token .eof)
        (.result root list) := by
  refine Iff.trans ?_ (LR.accepts_iff_reduces tables_validItems tables_validate carries_erase
    tables_validStart apart ends)
  constructor
  · rintro ⟨root', list', accepted, rfl, rfl⟩
    exact ⟨_, accepted, rfl⟩
  · rintro ⟨result, accepted, same⟩
    cases result with
    | result root' list' =>
        obtain ⟨rfl, rfl⟩ := Val.result.inj same
        exact ⟨root', list', accepted, rfl, rfl⟩
    | _ => exact absurd same (by simp [Val.erase])

section Rules

variable {context : Nat × Nat} {word : List Tok} {next : Kind} {values : List Val} {value : Val}

/-- The rule numbered `number` is a production of the grammar file. -/
theorem grammar_rule {number : Nat} {p : Production} (found : productions[number]? = some p) :
    grammar.rules[number]? = some ⟨p.lhs, p.rhs, p.prec⟩ := by
  rw [grammar, List.getElem?_map, found]
  rfl

/-- A phrase by a rule. -/
theorem parses (number : Nat) {p : Production} (found : productions[number]? = some p)
    (body : Derivable number 0 context p.rhs word next values)
    (kept : LR.has (conflicts context number) (LR.code next) = false)
    (evaluated : p.action.eval ⟨0, values⟩ = some value) :
    Parses context p.lhs word next value := by
  refine Reduces.rule (grammar_rule found) body kept ?_
  rw [sem, found]
  exact evaluated

/-- A phrase by a rule without conflicts. -/
theorem parses_free (number : Nat) {p : Production} (found : productions[number]? = some p)
    (body : Derivable number 0 context p.rhs word next values)
    (free : conflicts context number = 0)
    (evaluated : p.action.eval ⟨0, values⟩ = some value) :
    Parses context p.lhs word next value :=
  parses number found body (by rw [free, LR.has_zero]) evaluated

/-- A token of a rule. -/
theorem derivable_term {rule dot : Nat} {token : Tok} {kind : Kind}
    {symbols : List (LR.Symbol Kind Nonterminal)} (own : token.kind = kind)
    (rest : Derivable rule (dot + 1) (rule, dot + 1) symbols word next values) :
    Derivable rule dot context (.term kind :: symbols) (token :: word) next
      (token.val :: values) := by
  subst own
  exact .term rest

/-- A nonterminal of a rule with nothing derived from it. -/
theorem derivable_empty {rule dot : Nat} {name : Nonterminal}
    {symbols : List (LR.Symbol Kind Nonterminal)}
    (head : Parses context name [] (LR.peek word next) value)
    (rest : Derivable rule (dot + 1) (rule, dot + 1) symbols word next values) :
    Derivable rule dot context (.nonterm name :: symbols) word next (value :: values) :=
  .nonterm head rest

/-- A nonterminal of a rule with one token derived from it. -/
theorem derivable_single {rule dot : Nat} {name : Nonterminal} {token : Tok}
    {symbols : List (LR.Symbol Kind Nonterminal)}
    (head : Parses context name [token] (LR.peek word next) value)
    (rest : Derivable rule (dot + 1) (rule, dot + 1) symbols word next values) :
    Derivable rule dot context (.nonterm name :: symbols) (token :: word) next (value :: values) :=
  .nonterm head rest

/-- A nonterminal at the end of a rule. -/
theorem derivable_last {rule dot : Nat} {name : Nonterminal}
    (head : Parses context name word next value) :
    Derivable rule dot context [.nonterm name] word next [value] := by
  have whole : Derivable rule dot context [.nonterm name] (word ++ []) next [value] :=
    .nonterm head .nil
  rwa [List.append_nil] at whole

end Rules

/-- Only four rules have conflicts. -/
theorem conflicts_other {context : Nat × Nat} {number : Nat}
    (other : number ≠ 25 ∧ number ≠ 46 ∧ number ≠ 48 ∧ number ≠ 93) :
    conflicts context number = 0 := by
  obtain ⟨first, second, third, fourth⟩ := other
  have distinct {k : Nat} (differs : number ≠ k) : Nat.beq number k = false :=
    Bool.eq_false_iff.mpr fun same => differs (Nat.eq_of_beq_eq_true same)
  simp [conflicts, distinct first, distinct second, distinct third, distinct fourth]

/-- The keyword tokens that `ALLID` takes as names. -/
def allIds : List TokenName :=
  [.Inst, .Printf, .Assert, .Mem, .Of, .Reg, .Input, .Output, .Invalidate, .Mux, .Stop, .Depth,
    .Skip, .Write, .Read, .Version, .Probe, .Module, .Const]

/-- The spelling of a name that is a keyword. -/
def allIdText : TokenName → String
  | .Probe => "probe"
  | name => keywordText name

/-- The token of a name that is a keyword. -/
def allIdToken : TokenName → Tok
  | .Probe => tok .Probe "probe".toList
  | name => kw name

/-- A name: an identifier, or a keyword listed in `ALLID`. -/
inductive Name
  | id (word : Word (.text .ID))
  | keyword (name : TokenName) (listed : name ∈ allIds)

namespace Name

/-- The spelling of a name. -/
def text : Name → Text
  | id word => word.text
  | keyword name _ => (allIdText name).toList

/-- The token of a name. -/
def token : Name → Tok
  | id word => tok .ID word.text
  | keyword name _ => allIdToken name

/-- The scanner reads a name as its token. -/
theorem reads (name : Name) {line : Nat} {rest : Text} (next : Next nameEnd rest) :
    Reads line name.text [name.token] rest := by
  cases name with
  | id word => exact word.reads (List.mem_cons_self) rfl next
  | keyword name listed =>
      have later : Next wordEnd rest := fun c member =>
        CharSet.mem_of_within (by decide +kernel) (next c member)
      by_cases probe : name = .Probe
      · subst probe
        exact reads_ground "probe" (by simp [grounds]) later
      · have known : name ∈ keywords := by
          revert listed probe
          cases name <;> decide
        have plain : allIdText name = keywordText name ∧ allIdToken name = kw name := by
          cases name <;> first | exact ⟨rfl, rfl⟩ | exact absurd rfl probe
        rw [text, token, plain.1, plain.2]
        exact reads_keyword known later

/-- The rule of a keyword in `ALLID`. -/
theorem allId_rule : ∀ name ∈ allIds, ∃ number, productions[number]? =
    some (rule .ALLID [t name] (.asStr (.lit (allIdText name)))) ∧ number < 25 := by
  simp only [allIds, List.forall_mem_cons, List.not_mem_nil, false_implies, implies_true, and_true]
  exact ⟨⟨4, rfl, by decide⟩, ⟨5, rfl, by decide⟩, ⟨6, rfl, by decide⟩, ⟨7, rfl, by decide⟩,
    ⟨8, rfl, by decide⟩, ⟨9, rfl, by decide⟩, ⟨10, rfl, by decide⟩, ⟨11, rfl, by decide⟩,
    ⟨12, rfl, by decide⟩, ⟨13, rfl, by decide⟩, ⟨14, rfl, by decide⟩, ⟨15, rfl, by decide⟩,
    ⟨16, rfl, by decide⟩, ⟨17, rfl, by decide⟩, ⟨18, rfl, by decide⟩, ⟨19, rfl, by decide⟩,
    ⟨20, rfl, by decide⟩, ⟨21, rfl, by decide⟩, ⟨22, rfl, by decide⟩⟩

/-- The parser reduces the token of a name to its text. -/
theorem parses (name : Name) (context : Nat × Nat) (next : Kind) :
    Parses context .ALLID [name.token] next (.str (some name.text)) := by
  cases name with
  | id word =>
      refine parses_free 3 rfl (derivable_term rfl .nil) rfl ?_
      rfl
  | keyword name listed =>
      obtain ⟨number, found, small⟩ := allId_rule name listed
      have kind : (allIdToken name).kind = .token name := by cases name <;> rfl
      exact parses_free number found (derivable_term kind .nil) (conflicts_other (by omega)) rfl

end Name

end FstWaveDemo
