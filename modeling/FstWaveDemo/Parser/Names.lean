import FstWaveDemo.Parser.Circuit
import FstWaveDemo.Parser.Words
import Mathlib

/-! # Names and keywords

The spelling of an identifier is a name unless it is reserved: the spelling of a keyword
that `ALLID` does not list (`FstWaveDemo.name_of_id`). Only after a dot, where every
identifier is read as an ID, a reserved word is a name, and there the grammar expects
nothing but a name (`FstWaveDemo.undotted`).
-/

namespace FstWaveDemo

open LR.Tree (Within Occurs words Fits)
open Flex (CharSet Pattern)

/-- The keywords that are spelled like identifiers, but that `ALLID` does not list. -/
def reserved : List String :=
  ["Clock", "Reset", "AsyncReset", "UInt", "SInt", "Probe", "Analog", "Fixed", "flip", "validif",
    "old", "new", "undefined", "smem", "cmem", "infer", "mport", "reader", "writer", "readwriter",
    "wire", "regreset", "node", "attach", "when", "else", "extmodule", "defname", "parameter",
    "intmodule", "intrinsic", "FIRRTL", "circuit", "connect", "public", "define"]

/-- The spelling of a reserved word. -/
def Reserved (x : Text) : Prop := x ∈ reserved.map String.toList

/-- The rules before the one for identifiers. -/
def rulesBeforeId : List (Flex.Rule Action) :=
  Rules.typeRules ++ Rules.memoryRules ++ Rules.statementRules.take 29

/-- The characters that are not in identifiers. -/
def nonId : CharSet :=
  [('\x00', '/'), (':', '@'), ('[', '^'), ('`', '`'), ('\x7b', Char.ofNat 0x10ffff)]

/-- The rules before the one for identifiers match no identifier but keywords. -/
theorem rulesBeforeId_checked : (rulesBeforeId.all fun r =>
    r.pattern.forces nonId || (!r.pattern.starts Rules.id_start && !r.pattern.nullable) ||
      reserved.any (fun word => decide (r.pattern = Pattern.lit word)) ||
      allIds.any fun name => decide (r.pattern = Pattern.lit (allIdText name))) = true := by
  decide +kernel

/-- **Identifiers.** The spelling of an identifier is reserved, or a name. -/
theorem name_of_id {x : Text} (matched : Rules.id.Matches x) :
    Reserved x ∨ ∃ name : Name, name.text = x := by
  by_cases earlier : ∃ r ∈ rulesBeforeId, r.pattern.Matches x
  · obtain ⟨r, member, own⟩ := earlier
    have checked := List.all_eq_true.mp rulesBeforeId_checked r member
    rw [Bool.or_eq_true, Bool.or_eq_true, Bool.or_eq_true, Bool.and_eq_true, Bool.not_eq_true',
      Bool.not_eq_true'] at checked
    rcases checked with ((outside | ⟨other, solid⟩) | word) | word
    · obtain ⟨c, within, foreign⟩ := Pattern.mem_of_forces outside own
      exact nomatch foreign.symm.trans
        (@Pattern.not_mem_of_avoids nonId _ _ _ (by decide +kernel) matched within)
    · cases x with
      | nil => exact absurd ((Pattern.nullable_iff _).mpr own) (by rw [solid]; decide)
      | cons c x =>
          have start : Rules.id_start.mem c = true :=
            CharSet.mem_of_within (by decide) (Pattern.mem_begins matched)
          exact nomatch start.symm.trans (Pattern.not_mem_of_starts other own)
    · obtain ⟨word, listed, same⟩ := List.any_eq_true.mp word
      rw [of_decide_eq_true same, Pattern.matches_lit] at own
      exact Or.inl (List.mem_map.mpr ⟨word, listed, own.symm⟩)
    · obtain ⟨name, listed, same⟩ := List.any_eq_true.mp word
      rw [of_decide_eq_true same, Pattern.matches_lit] at own
      exact Or.inr ⟨.keyword name listed, own.symm⟩
  · refine Or.inr ⟨.id ⟨x, ?_⟩, rfl⟩
    exact Flex.select_of_matches rulesBeforeId ⟨Rules.id, .text .ID⟩ matched
      fun other member own => earlier ⟨other, member, own⟩

/-- The kinds of the tokens that `ALLID` takes. -/
def nameKinds : List TokenName := .ID :: allIds

/-- A reserved word is not read as a name from `normal`. -/
theorem reserved_unnamed {x : Text} (listed : Reserved x) {action : Action}
    (selected : Flex.select Rules.normalRules x = some (x.length, action)) :
    ∀ name ∈ action.names, name ∉ nameKinds := by
  have checked : (reserved.all fun word => (Flex.select Rules.normalRules word.toList).all
      fun found => found.2.names.all fun name => decide (name ∉ nameKinds)) = true := by
    decide +kernel
  obtain ⟨word, member, rfl⟩ := List.mem_map.mp listed
  have own := List.all_eq_true.mp checked word member
  rw [selected, Option.all_some] at own
  intro name named
  exact of_decide_eq_true (List.all_eq_true.mp own name named)

example : ['o', 'l', 'd'] ∈ reserved.map String.toList := by decide +kernel

/-- What the rules that return names return for the matched text. -/
theorem nameRules_checked (mode : Mode) : ((Rules.of mode).all fun r =>
    (decide (.ID ∉ r.action.names) ||
      decide (r.action = .text .ID ∨ r.action = .dotName ∨ r.action = .int_dec)) &&
    allIds.all fun name => decide (name ∉ r.action.names) ||
      decide (r.pattern = Pattern.lit (allIdText name))) = true := by
  cases mode <;> decide +kernel

namespace Lexical

variable {s s' : Lexical} {text rest : Text} {lexeme : Lexeme} {lexemes : List Lexeme}

/-- A token that is not a layout token is made by the selected action of the matched text. -/
theorem step_matched (stepped : s.step text = .token lexeme s' rest)
    (solid : lexeme.kind.isLayout = false) :
    ∃ w action, text = w ++ rest ∧ Flex.select (Rules.of s.mode) text = some (w.length, action) ∧
      action.makes w lexeme.toToken := by
  cases text with
  | nil =>
      rcases step_token stepped with ⟨-, -, rfl, -⟩ | ⟨r, member, w, tail, split, -, made, -⟩
      · cases solid
      · obtain ⟨rfl, -⟩ := List.append_eq_nil_iff.mp split.symm
        rw [step, atEof] at stepped
        split at stepped
        · split at stepped
          · obtain ⟨rfl, -, -⟩ := Step.token.inj stepped
            cases solid
          · cases stepped
        · cases stepped
  | cons c text =>
      rw [step] at stepped
      split at stepped
      · cases stepped
      · rename_i length action selected
        have made := (perform_makes.2 stepped).1
        have plain : action ≠ .layout := by
          rintro rfl
          rcases made with same | same
          · cases (congrArg (fun token => Kind.isLayout token.kind) same).symm.trans solid
          · cases (congrArg (fun token => Kind.isLayout token.kind) same).symm.trans solid
        have left : rest = (c :: text).drop length := by
          obtain ⟨_, going | ⟨_, _, returned, -⟩, -⟩ :=
            perform_cases (s := s.countLines ((c :: text).take length)) plain
              ((c :: text).take length) ((c :: text).drop length)
          · cases going.symm.trans stepped
          · exact (Step.token.inj (returned.symm.trans stepped)).2.2.symm
        refine ⟨(c :: text).take length, action, ?_, ?_, made⟩
        · rw [left, List.take_append_drop]
        · rw [List.length_take, Nat.min_eq_left (Flex.select_le selected), selected]

/-- Which start condition an action leaves the scanner in. -/
theorem perform_mode {yytext rest' : Text} {action : Action}
    (performed : s.perform yytext rest action = .next s' rest' ∨
      ∃ lexeme, s.perform yytext rest action = .token lexeme s' rest') :
    s'.mode = s.mode ∨ s'.mode = .normal ∨ s'.mode = .indent ∨ action = .begin s'.mode ∨
      action = .dot := by
  cases action with
  | dot => exact Or.inr (Or.inr (Or.inr (Or.inr rfl)))
  | layout =>
      rcases layout_cases s (yytext ++ rest) with ⟨-, found⟩ | ⟨-, found⟩ | ⟨-, found⟩
      · rcases performed with going | ⟨lexeme, going⟩
        · cases found.symm.trans going
        · obtain ⟨-, rfl, -⟩ := Step.token.inj (found.symm.trans going)
          exact Or.inr (Or.inl rfl)
      · rcases performed with going | ⟨lexeme, going⟩
        · cases found.symm.trans going
        · obtain ⟨-, rfl, -⟩ := Step.token.inj (found.symm.trans going)
          exact Or.inl rfl
      · rcases performed with going | ⟨lexeme, going⟩
        · obtain ⟨rfl, -⟩ := Step.next.inj (found.symm.trans going)
          exact Or.inr (Or.inl rfl)
        · cases found.symm.trans going
  | space | tab | newline | ignore =>
      rcases performed with going | ⟨lexeme, going⟩
      · obtain ⟨rfl, -⟩ := Step.next.inj going
        exact Or.inl rfl
      · cases going
  | begin mode =>
      rcases performed with going | ⟨lexeme, going⟩
      · obtain ⟨rfl, -⟩ := Step.next.inj going
        exact Or.inr (Or.inr (Or.inr (Or.inl rfl)))
      · cases going
  | lineEnd =>
      rcases performed with going | ⟨lexeme, going⟩
      · obtain ⟨rfl, -⟩ := Step.next.inj going
        exact Or.inr (Or.inr (Or.inl rfl))
      · cases going
  | dotName =>
      rcases performed with going | ⟨lexeme, going⟩
      · cases going
      · obtain ⟨-, rfl, -⟩ := Step.token.inj going
        exact Or.inr (Or.inl rfl)
  | token | text | constant | operator | operatorConstant | character =>
      rcases performed with going | ⟨lexeme, going⟩
      · cases going
      · obtain ⟨-, rfl, -⟩ := Step.token.inj going
        exact Or.inl rfl
  | count counter change =>
      rcases performed with going | ⟨lexeme, going⟩
      · cases going
      · obtain ⟨-, rfl, -⟩ := Step.token.inj going
        cases counter <;> exact Or.inl rfl
  | int_dec =>
      simp only [perform] at performed
      split at performed
      all_goals
        rcases performed with going | ⟨lexeme, going⟩
        · cases going
        · obtain ⟨-, rfl, -⟩ := Step.token.inj going
          exact Or.inl rfl

/-- The start condition `dotId` is entered by reading a dot, and left by the next step. -/
theorem step_dotId (stepped : s.step text = .next s' rest ∨
      ∃ lexeme, s.step text = .token lexeme s' rest) (dotted : s'.mode = .dotId) :
    ∃ lexeme, s.step text = .token lexeme s' rest ∧ lexeme.kind = .char '.' := by
  have checked : ∀ mode, ((Rules.of mode).all fun r => decide (r.action ≠ .begin .dotId) &&
      (decide (r.action ≠ .dot) || decide (r.pattern = Pattern.lit ".")) &&
      (decide (mode ≠ .dotId) ||
        decide (r.action = .dotName ∨ r.action = .begin .intid))) = true := by
    intro mode
    cases mode <;> decide +kernel
  cases text with
  | nil =>
      rw [step, atEof] at stepped
      split at stepped
      · rename_i indenting
        split at stepped
        · rcases stepped with stepped | ⟨lexeme, stepped⟩
          · cases stepped
          · obtain ⟨-, rfl, -⟩ := Step.token.inj stepped
            cases indenting.symm.trans dotted
        · rcases stepped with stepped | ⟨lexeme, stepped⟩ <;> cases stepped
      · rcases stepped with stepped | ⟨lexeme, stepped⟩ <;> cases stepped
  | cons c text =>
      rcases step_cons (s := s) (c := c) text with jam | ⟨r, member, w, tail, split, matched, found⟩
      · rw [jam] at stepped
        rcases stepped with stepped | ⟨lexeme, stepped⟩ <;> cases stepped
      · have own := List.all_eq_true.mp (checked s.mode) r member
        rw [Bool.and_eq_true, Bool.and_eq_true, Bool.or_eq_true, Bool.or_eq_true] at own
        simp only [decide_eq_true_eq] at own
        obtain ⟨⟨other, dot⟩, away⟩ := own
        rw [found] at stepped ⊢
        have left : s.mode ≠ .dotId := by
          intro here
          rcases away.resolve_left (not_not.mpr here) with named | begun
          · rw [named] at stepped
            rcases stepped with going | ⟨lexeme, going⟩
            · cases going
            · obtain ⟨-, rfl, -⟩ := Step.token.inj going
              cases dotted
          · rw [begun] at stepped
            rcases stepped with going | ⟨lexeme, going⟩
            · obtain ⟨rfl, -⟩ := Step.next.inj going
              cases dotted
            · cases going
        rcases perform_mode stepped with same | normal | indenting | begun | dot'
        · exact absurd (same.symm.trans dotted) left
        · cases normal.symm.trans dotted
        · cases indenting.symm.trans dotted
        · exact absurd (begun.trans (congrArg Action.begin dotted)) other
        · have word := Pattern.matches_lit.mp
            (dot.resolve_left (not_not.mpr dot') ▸ matched)
          rcases stepped with going | ⟨lexeme, going⟩
          · rw [dot'] at going
            simp only [perform] at going
            cases going
          · refine ⟨lexeme, going, ?_⟩
            have made := (perform_makes.2 going).1
            rw [dot', word] at made
            exact congrArg LR.Token.kind made

/-- Within `dotId`, the last token is a dot. -/
theorem Scans.dotId (scans : Scans s text lexemes s' rest) (outside : s.mode ≠ .dotId)
    (dotted : s'.mode = .dotId) : ∃ before lexeme, lexemes = before ++ [lexeme] ∧
      lexeme.kind = .char '.' := by
  suffices ended : ∀ last : Option Kind, (s.mode = .dotId → last = some (.char '.')) →
      ((lexemes.getLast?.map fun lexeme => lexeme.kind).or last) = some (.char '.') by
    have found := ended none fun here => absurd here outside
    rw [Option.or_none] at found
    obtain ⟨lexeme, last, dot⟩ := Option.map_eq_some_iff.mp found
    obtain ⟨before, rfl⟩ := List.getLast?_eq_some_iff.mp last
    exact ⟨before, lexeme, rfl, dot⟩
  clear outside
  induction scans with
  | refl => exact fun last here => here dotted
  | next stepped _ ih =>
      refine fun last here => ih dotted last fun inside => ?_
      obtain ⟨lexeme, token, -⟩ := step_dotId (Or.inl stepped) inside
      exact nomatch stepped.symm.trans token
  | @token _ s₁ _ _ _ _ lexeme lexemes stepped _ ih =>
      intro last _
      have found := ih dotted (some lexeme.kind) fun inside => by
        obtain ⟨own, token, dot⟩ := step_dotId (Or.inr ⟨lexeme, stepped⟩) inside
        obtain ⟨rfl, -, -⟩ := Step.token.inj (stepped.symm.trans token)
        rw [dot]
      cases lexemes with
      | nil => exact found
      | cons second lexemes =>
          rw [List.getLast?_cons_cons]
          rw [List.getLast?_eq_some_getLast (List.cons_ne_nil _ _)] at found ⊢
          exact found

example :
    Flex.select (Rules.of .dotId) ['o', 'l', 'd', ' '] = some (3, .dotName) := by decide +kernel

/-- After the given tokens, the scanner returns the lexeme for the characters `x`. -/
def ReadAs (lineno : Nat) (text : Text) (left : List Lexeme) (x : Text) (lexeme : Lexeme) : Prop :=
  ∃ s s' rest, Scans (new lineno) text left s (x ++ rest) ∧
    s.step (x ++ rest) = .token lexeme s' rest

/-- A token that `ALLID` takes. -/
def Names (lexeme : Lexeme) : Prop := ∃ name ∈ nameKinds, lexeme.kind = .token name

theorem Names.solid (named : Names lexeme) : lexeme.kind.isLayout = false := by
  obtain ⟨name, listed, kind⟩ := named
  have checked : (nameKinds.all fun name => !Kind.isLayout (.token name)) = true := by decide
  rw [kind]
  exact (Bool.not_eq_true' _).mp (List.all_eq_true.mp checked name listed)

/-- What is read as a token that `ALLID` takes is the text of the token. -/
theorem ReadAs.spelled {lineno : Nat} {left : List Lexeme} {x : Text}
    (read : ReadAs lineno text left x lexeme) :
    (lexeme.kind = .token .ID → lexeme.val = .str (some x)) ∧
      ∀ name ∈ allIds, lexeme.kind = .token name → x = (allIdText name).toList := by
  obtain ⟨s, s', rest, -, stepped⟩ := read
  have parts (named : Names lexeme) : ∃ r ∈ Rules.of s.mode, r.pattern.Matches x ∧
      r.action.makes x lexeme.toToken := by
    obtain ⟨w, action, split, selected, made⟩ := step_matched stepped named.solid
    obtain rfl := List.append_cancel_right split
    obtain ⟨r, member, rfl, found⟩ := Flex.select_mem selected
    obtain ⟨u, v, split', length, matched, -⟩ := Pattern.longest_eq_some found
    obtain ⟨rfl, -⟩ := List.append_inj split' length.symm
    exact ⟨r, member, matched, made⟩
  have named {r : Flex.Rule Action} {name : TokenName} (listed : name ∈ nameKinds)
      (kind : lexeme.kind = .token name) (made : r.action.makes x lexeme.toToken) :
      name ∈ r.action.names := by
    rcases Action.kind_of_makes made with ⟨-, layout | layout⟩ | ⟨other, own, same⟩ | ⟨-, c, char⟩
    · obtain rfl := Kind.token.inj (kind.symm.trans layout)
      exact absurd listed (by decide)
    · obtain rfl := Kind.token.inj (kind.symm.trans layout)
      exact absurd listed (by decide)
    · rwa [Kind.token.inj (kind.symm.trans same)]
    · exact nomatch kind.symm.trans char
  constructor
  · intro kind
    obtain ⟨r, member, -, made⟩ := parts ⟨.ID, List.mem_cons_self, kind⟩
    have checked := List.all_eq_true.mp (nameRules_checked s.mode) r member
    rw [Bool.and_eq_true, Bool.or_eq_true, decide_eq_true_eq, decide_eq_true_eq] at checked
    rcases checked.1.resolve_left (not_not.mpr (named List.mem_cons_self kind made)) with
      same | same | same
    · rw [same] at made
      exact congrArg LR.Token.val made
    · rw [same] at made
      exact congrArg LR.Token.val made
    · rw [same] at made
      exact made.elim (congrArg LR.Token.val) (congrArg LR.Token.val)
  · intro name listed kind
    obtain ⟨r, member, matched, made⟩ := parts ⟨name, List.mem_cons_of_mem _ listed, kind⟩
    have checked := List.all_eq_true.mp (nameRules_checked s.mode) r member
    rw [Bool.and_eq_true] at checked
    have own := List.all_eq_true.mp checked.2 name listed
    rw [Bool.or_eq_true, decide_eq_true_eq, decide_eq_true_eq] at own
    rw [own.resolve_left (not_not.mpr (named (List.mem_cons_of_mem _ listed) kind made))] at matched
    exact Pattern.matches_lit.mp matched

/-- Not after a dot, a reserved word is not a name. -/
theorem ReadAs.not_reserved {lineno : Nat} {left : List Lexeme} {x : Text}
    (read : ReadAs lineno text left x lexeme) (named : Names lexeme) (matched : Rules.id.Matches x)
    (undotted : ∀ before last, left = before ++ [last] → last.kind ≠ .char '.') : ¬ Reserved x := by
  obtain ⟨s, s', rest, scans, stepped⟩ := read
  obtain ⟨w, action, split, selected, made⟩ := step_matched stepped named.solid
  obtain rfl := List.append_cancel_right split
  obtain ⟨name, listed, kind⟩ := named
  have own : name ∈ action.names := by
    rcases Action.kind_of_makes made with ⟨-, layout | layout⟩ | ⟨other, own, same⟩ | ⟨-, c, char⟩
    · obtain rfl := Kind.token.inj (kind.symm.trans layout)
      exact absurd listed (by decide)
    · obtain rfl := Kind.token.inj (kind.symm.trans layout)
      exact absurd listed (by decide)
    · rwa [Kind.token.inj (kind.symm.trans same)]
    · exact nomatch kind.symm.trans char
  obtain ⟨r, member, rfl, found⟩ := Flex.select_mem selected
  have silent {rules : List (Flex.Rule Action)} (member : r ∈ rules) (checked : (rules.all fun r =>
      r.action.names.all fun name => decide (name ∉ nameKinds)) = true) : False :=
    of_decide_eq_true (List.all_eq_true.mp (List.all_eq_true.mp checked r member) name own) listed
  cases mode : s.mode with
  | indent =>
      rw [mode] at member
      exact (silent member (by decide)).elim
  | info =>
      rw [mode] at member
      exact (silent member (by decide)).elim
  | anno =>
      rw [mode] at member
      exact (silent member (by decide)).elim
  | dotId =>
      obtain ⟨before, last, same, dot⟩ := scans.dotId (by simp [new]) mode
      exact absurd dot (undotted before last same)
  | intid =>
      obtain ⟨u, v, split', length, int, -⟩ := Pattern.longest_eq_some found
      obtain ⟨rfl, -⟩ := List.append_inj split' length.symm
      have checked : (Rules.intidRules.all fun r => !r.pattern.starts Rules.id_start &&
          !r.pattern.nullable) = true := by
        decide +kernel
      rw [mode] at member
      have apart := List.all_eq_true.mp checked r member
      rw [Bool.and_eq_true, Bool.not_eq_true', Bool.not_eq_true'] at apart
      cases x with
      | nil => exact absurd ((Pattern.nullable_iff _).mpr int) (by rw [apart.2]; decide)
      | cons c x =>
          have start : Rules.id_start.mem c = true :=
            CharSet.mem_of_within (by decide) (Pattern.mem_begins matched)
          exact nomatch start.symm.trans (Pattern.not_mem_of_starts apart.1 int)
  | normal =>
      rw [mode] at selected
      exact fun bad => reserved_unnamed bad (Flex.select_of_append selected) name own listed

/-- Every token within a scanned text is read as some characters. -/
theorem Scanned.readAs {lineno : Nat} {eof : Lexeme} {left right : List Lexeme}
    (scanned : Scanned lineno text (left ++ lexeme :: right) eof)
    (solid : lexeme.kind.isLayout = false) : ∃ x, ReadAs lineno text left x lexeme := by
  obtain ⟨s, scans, -⟩ := scanned
  obtain ⟨s₁, text₁, before, later⟩ := scans.split
  obtain ⟨s₂, text₂, s₃, rest, quiet, stepped, -⟩ := later.uncons
  obtain ⟨x, action, rfl, -, -⟩ := step_matched stepped solid
  refine ⟨x, s₂, s₃, rest, ?_, stepped⟩
  have joined := before.trans quiet
  rwa [List.append_nil] at joined

end Lexical

section Trees

/-- The rules of `ALLID`. -/
theorem allId_cases {number : Nat} {p : Production} (found : productions[number]? = some p)
    (own : p.lhs = .ALLID) : p = rule .ALLID [t .ID] (.asStr (.str 1)) ∨
      ∃ name ∈ allIds, p = rule .ALLID [t name] (.asStr (.lit (allIdText name))) := by
  have checked := production_check (fun p number => decide (p.lhs ≠ .ALLID) ||
    decide (3 ≤ number ∧ number ≤ 22)) (by decide +kernel) found
  simp only [own, ne_eq, not_true_eq_false, decide_false, Bool.false_or, decide_eq_true_eq]
    at checked
  obtain ⟨above, below⟩ := checked
  interval_cases number
  · exact Or.inl (Option.some.inj found).symm
  all_goals
    obtain rfl := Option.some.inj found
    exact Or.inr ⟨_, by decide, rfl⟩

/-- A tree of `ALLID` is one token, and its value is the text that the token was read from. -/
theorem allId_of_fits {tree : ParseTree} (fits : Fits grammar (.nonterm .ALLID) tree) :
    ∃ lexeme, tree.word = [lexeme] ∧ Lexical.Names lexeme ∧
      ∀ lineno text left x, Lexical.ReadAs lineno text left x lexeme →
        tree.eval act = some (.str (some x)) := by
  obtain ⟨number, line, children, p, rfl, found, own, fit⟩ := node_of_fits fits
  rcases allId_cases found own with rfl | ⟨name, listed, rfl⟩
  · obtain ⟨leaf, _, head, single, rfl⟩ := List.forall₂_cons_left_iff.mp fit
    obtain rfl := List.forall₂_nil_left_iff.mp single
    obtain ⟨lexeme, rfl, kind⟩ := head.term
    refine ⟨lexeme, rfl, ⟨.ID, List.mem_cons_self, kind⟩, fun lineno text left x read => ?_⟩
    have val := read.spelled.1 kind
    rw [LR.Tree.eval, LR.Tree.evalAll, LR.Tree.eval, LR.Tree.evalAll, val]
    simp only [Option.bind_some, Option.map_some, act, found]
    rfl
  · obtain ⟨leaf, _, head, single, rfl⟩ := List.forall₂_cons_left_iff.mp fit
    obtain rfl := List.forall₂_nil_left_iff.mp single
    obtain ⟨lexeme, rfl, kind⟩ := head.term
    refine ⟨lexeme, rfl, ⟨name, List.mem_cons_of_mem _ listed, kind⟩,
      fun lineno text left x read => ?_⟩
    have word := read.spelled.2 name listed kind
    rw [LR.Tree.eval, LR.Tree.evalAll, LR.Tree.eval, LR.Tree.evalAll, word]
    simp only [Option.bind_some, Option.map_some, act, found]
    rfl

/-- A token, or a nonterminal that is one token. -/
def isSolid : LR.Symbol Kind Nonterminal → Bool
  | .term _ => true
  | .nonterm name => decide (name = .ALLID)

/-- Every dot is followed by a token or a name. -/
def dotsFollowed : List (LR.Symbol Kind Nonterminal) → Bool
  | [] => true
  | symbol :: rest => (decide (symbol ≠ c '.') || rest.head?.any isSolid) && dotsFollowed rest

/-- In every rule, dots are followed by tokens or names, and other nonterminals do not come
right after a dot. -/
theorem productions_dotsFollowed : (productions.all fun p => dotsFollowed p.rhs &&
    (List.range p.rhs.length).all fun i =>
      p.rhs[i]?.all fun symbol => isSolid symbol || dotsFollowed (p.rhs.take i)) = true := by
  decide +kernel

theorem word_of_solid {symbol : LR.Symbol Kind Nonterminal} (solid : isSolid symbol = true)
    {tree : ParseTree} (fits : Fits grammar symbol tree) : tree.word ≠ [] := by
  cases symbol with
  | term kind =>
      obtain ⟨lexeme, rfl, -⟩ := fits.term
      exact List.cons_ne_nil _ _
  | nonterm name =>
      obtain rfl := of_decide_eq_true solid
      obtain ⟨lexeme, word, -⟩ := allId_of_fits fits
      rw [word]
      exact List.cons_ne_nil _ _

mutual

/-- No phrase ends with a dot. -/
theorem last_of_fits : (tree : ParseTree) → {name : Nonterminal} →
    Fits grammar (.nonterm name) tree → ∀ before last, tree.word = before ++ [last] →
      last.kind ≠ .char '.'
  | .leaf _, _, fits, _, _, _ => nomatch fits
  | .node rule line children, _, fits, before, last, ends => by
      obtain ⟨number, line', children', p, same, found, -, fit⟩ := node_of_fits fits
      obtain ⟨rfl, rfl, rfl⟩ := LR.Tree.node.inj same
      have checked := List.all_eq_true.mp productions_dotsFollowed p (List.mem_of_getElem? found)
      exact last_of_fit children fit ((Bool.and_eq_true _ _).mp checked).1 before last ends

/-- No list of phrases ends with a dot if dots are followed. -/
theorem last_of_fit : (trees : List ParseTree) → {symbols : List (LR.Symbol Kind Nonterminal)} →
    List.Forall₂ (Fits grammar) symbols trees → dotsFollowed symbols = true →
    ∀ before last, words trees = before ++ [last] → last.kind ≠ .char '.'
  | [], _, _, _, before, last, ends => by
      have empty : ([] : List Lexeme) = before ++ [last] := ends
      exact absurd empty.symm (by simp)
  | tree :: trees, symbol :: symbols, .cons head fit, followed, before, last, ends => by
      rw [dotsFollowed, Bool.and_eq_true, Bool.or_eq_true, decide_eq_true_eq] at followed
      obtain ⟨next, followed⟩ := followed
      have split : tree.word ++ words trees = before ++ [last] := ends
      rcases List.eq_nil_or_concat (words trees) with empty | ⟨inner, final, others⟩
      · rw [empty, List.append_nil] at split
        cases symbol with
        | nonterm name => exact last_of_fits tree head before last split
        | term kind =>
            obtain ⟨lexeme, rfl, rfl⟩ := head.term
            obtain ⟨-, same⟩ :=
              List.append_inj' (show [] ++ [lexeme] = before ++ [last] from split) rfl
            obtain rfl := List.singleton_inj.mp same
            intro dot
            rcases next with other | solid
            · exact other (congrArg LR.Symbol.term dot)
            · cases fit with
              | nil => exact nomatch solid
              | cons second _ =>
                  exact word_of_solid solid second (List.append_eq_nil_iff.mp empty).1
      · rw [List.concat_eq_append] at others
        rw [others, ← List.append_assoc] at split
        obtain ⟨-, same⟩ := List.append_inj' split rfl
        obtain rfl := List.singleton_inj.mp same
        exact last_of_fit trees fit followed inner final others

end

theorem symbol_of_fits {symbol : LR.Symbol Kind Nonterminal} {name : Nonterminal}
    {tree : ParseTree} (fits : Fits grammar symbol tree)
    (phrase : Fits grammar (.nonterm name) tree) : symbol = .nonterm name := by
  obtain ⟨number, line, children, p, rfl, found, rfl, -⟩ := node_of_fits phrase
  cases fits with
  | node numbered _ =>
      obtain ⟨p', found', rfl⟩ := production_of_rule numbered
      obtain rfl := Option.some.inj (found.symm.trans found')
      rfl

/-- A phrase that is not one token does not come right after a dot. -/
theorem undotted {name : Nonterminal} {left : List Lexeme} {part tree : ParseTree}
    (occurs : Occurs left part tree) {symbol : LR.Symbol Kind Nonterminal}
    (fits : Fits grammar symbol tree) (phrase : Fits grammar (.nonterm name) part)
    (other : name ≠ .ALLID) : (∀ before last, left = before ++ [last] → last.kind ≠ .char '.') ∧
      isSolid symbol = false := by
  induction occurs generalizing symbol with
  | refl =>
      refine ⟨fun before last ends => absurd ends.symm (by simp), ?_⟩
      rw [symbol_of_fits fits phrase]
      exact decide_eq_false other
  | @child rule line before after left part tree occurs ih =>
      cases fits with
      | node numbered fit =>
          obtain ⟨p, found, rfl⟩ := production_of_rule numbered
          have leads := List.forall₂_take_append _ _ _ fit
          obtain ⟨own, post, head, -, rest⟩ :=
            List.forall₂_cons_right_iff.mp (List.forall₂_drop_append _ _ _ fit)
          have here : p.rhs[before.length]? = some own := by
            have first := congrArg List.head? rest
            rwa [List.head?_drop] at first
          obtain ⟨inner, open'⟩ := ih head phrase
          have checked :=
            List.all_eq_true.mp productions_dotsFollowed p (List.mem_of_getElem? found)
          have each := List.all_eq_true.mp ((Bool.and_eq_true _ _).mp checked).2 before.length
            (List.mem_range.mpr (List.getElem?_eq_some_iff.mp here).1)
          rw [here, Option.all_some, open', Bool.false_or] at each
          refine ⟨fun before' last ends => ?_, decide_eq_false fun names => ?_⟩
          · rcases List.eq_nil_or_concat left with rfl | ⟨middle, final, rfl⟩
            · rw [List.append_nil] at ends
              exact last_of_fit before leads each before' last ends
            · rw [List.concat_eq_append, ← List.append_assoc] at ends
              obtain ⟨-, same⟩ := List.append_inj' ends rfl
              obtain rfl := List.singleton_inj.mp same
              exact inner middle final List.concat_eq_append
          · have within := List.mem_of_getElem? here
            rcases allId_cases found names with rfl | ⟨word, -, rfl⟩
            · obtain rfl := List.mem_singleton.mp within
              exact nomatch open'
            · obtain rfl := List.mem_singleton.mp within
              exact nomatch open'

end Trees

end FstWaveDemo
