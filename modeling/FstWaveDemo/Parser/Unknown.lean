import FstWaveDemo.Parser.Circuit
import FstWaveDemo.Parser.Words

/-! # Unknown characters

In the start condition `normal`, a character that no word begins with is reported and
dropped (`FstWaveDemo.Lexical.step_unknown`); every other one but white space becomes
part of a token or opens another start condition (`FstWaveDemo.Lexical.step_known`). So
nothing is lost from a text exactly if the scanner meets no such character in `normal`
(`FstWaveDemo.Lexical.kept_iff`).
-/

namespace FstWaveDemo

open Flex (CharSet Pattern)

namespace Rules

/-- The punctuation of the start condition `normal`. -/
def punctuation : List Char :=
  ['.', ',', ':', '=', '@', '%', '<', '>', '(', ')', '[', ']', '\x7b', '\x7d', '"', '`']

/-- What a word of the start condition `normal` may begin with, besides a minus sign. -/
def word_start : CharSet := id_char ++ punctuation.map fun c => (c, c)

/-- The rules of the start condition `normal` before the one for unknown characters. -/
def knownRules : List (Flex.Rule Action) := normalRules.dropLast

theorem normalRules_eq : normalRules = knownRules ++ [rule any .ignore] := rfl

end Rules

/-- The next character begins a word of the start condition `normal`: a minus sign does
before a digit. -/
def beginsWord : Text → Bool
  | [] => false
  | c :: rest =>
      Rules.word_start.mem c || (decide (c = '-') && rest.head?.any Rules.digit_dec.mem)

/-- Space, tab and newline. -/
def white : List Char := [' ', '\t', '\n']

/-- The action returns a token or enters another start condition. -/
def Action.speaks : Action → Bool
  | space | tab | newline | layout | ignore | lineEnd => false
  | begin mode => decide (mode ≠ .normal)
  | _ => true

namespace Lexical

variable {s s' : Lexical} {text rest : Text} {c : Char}

/-- What is read next becomes part of a token or opens another start condition. -/
def Accounted (s : Lexical) (text : Text) : Prop :=
  (∃ lexeme s' rest, s.step text = .token lexeme s' rest) ∨
    ∃ s' rest, s.step text = .next s' rest ∧ s'.mode ≠ .normal

/-- Only the rule for unknown characters matches. -/
def Unmatched (text : Text) : Prop :=
  ∀ r ∈ Rules.knownRules, Pattern.longest text r.pattern = none

/-- Where no word begins, only the rule for unknown characters matches. -/
theorem unmatched_of_not_beginsWord (visible : c ∉ white)
    (unknown : beginsWord (c :: rest) = false) : Unmatched (c :: rest) := by
  have checked : (Rules.knownRules.all fun r => !r.pattern.nullable &&
      r.pattern.begins.within (Rules.word_start ++ ('-' :: white).map fun c => (c, c)) &&
      !(r.pattern.after ['-']).nullable &&
      (r.pattern.after ['-']).begins.within Rules.digit_dec) = true := by
    decide +kernel
  rw [beginsWord, Bool.or_eq_false_iff] at unknown
  obtain ⟨plain, unsigned⟩ := unknown
  intro r member
  have each := List.all_eq_true.mp checked r member
  simp only [Bool.and_eq_true, Bool.not_eq_true'] at each
  obtain ⟨⟨⟨filled, starts⟩, lone⟩, digits⟩ := each
  cases found : Pattern.longest (c :: rest) r.pattern with
  | none => rfl
  | some n =>
      obtain ⟨w, tail, split, -, matched, -⟩ := Pattern.longest_eq_some found
      cases w with
      | nil => exact absurd ((Pattern.nullable_iff _).mpr matched) (by simp [filled])
      | cons d w =>
          obtain ⟨rfl, same⟩ := List.cons.inj split
          have first := CharSet.mem_of_within starts (Pattern.mem_begins matched)
          rw [CharSet.mem_append, plain, Bool.false_or, CharSet.mem_singles,
            decide_eq_true_eq] at first
          obtain rfl := (List.mem_cons.mp first).resolve_right visible
          rw [decide_eq_true rfl, Bool.true_and] at unsigned
          rw [← List.singleton_append, ← Pattern.matches_after] at matched
          cases w with
          | nil => exact absurd ((Pattern.nullable_iff _).mpr matched) (by simp [lone])
          | cons e w =>
              have digit := CharSet.mem_of_within digits (Pattern.mem_begins matched)
              rw [same] at unsigned
              exact absurd (unsigned.symm.trans digit) (by decide)

/-- Where a word begins, a rule for known characters matches. -/
theorem matched_of_beginsWord (known : beginsWord text = true) :
    ∃ r ∈ Rules.knownRules, ∃ m, Pattern.longest text r.pattern = some m ∧ 1 ≤ m := by
  have checked : (Rules.knownRules.any fun r => decide (r.pattern = Rules.id)) = true ∧
      (Rules.knownRules.any fun r => decide (r.pattern = Rules.int)) = true ∧
      (Rules.punctuation.all fun c => Rules.knownRules.any fun r =>
        (r.pattern.after [c]).nullable) = true := by
    decide +kernel
  obtain ⟨id, int, punctuation⟩ := checked
  obtain ⟨idRule, idListed, ofId⟩ := List.any_eq_true.mp id
  obtain ⟨intRule, intListed, ofInt⟩ := List.any_eq_true.mp int
  rw [decide_eq_true_eq] at ofId ofInt
  cases text with
  | nil => exact absurd known (by decide)
  | cons c rest =>
      have matches' {r : Flex.Rule Action} (member : r ∈ Rules.knownRules) {w v : Text}
          (split : rest = w ++ v) (matched : r.pattern.Matches (c :: w)) :
          ∃ r ∈ Rules.knownRules, ∃ m, Pattern.longest (c :: rest) r.pattern = some m ∧ 1 ≤ m := by
        obtain ⟨m, found, longer⟩ := Flex.le_longest (v := v) matched
        rw [List.cons_append, ← split] at found
        exact ⟨r, member, m, found, Nat.le_trans (Nat.succ_le_succ (Nat.zero_le _)) longer⟩
      have digits {w : Text} (numeral : w ≠ [])
          (member : ∀ d ∈ w, Rules.digit_dec.mem d = true) :
          Pattern.Matches (.plus (Rules.set Rules.digit_dec)) w := plus_matches numeral member
      rw [beginsWord, Bool.or_eq_true, Bool.and_eq_true, decide_eq_true_eq] at known
      rcases known with start | ⟨rfl, digit⟩
      · have split : Rules.word_start = Rules.id_start ++ Rules.digit_dec ++
            Rules.punctuation.map fun c => (c, c) := rfl
        rw [split, CharSet.mem_append, CharSet.mem_append, Bool.or_eq_true, Bool.or_eq_true,
          CharSet.mem_singles, decide_eq_true_eq] at start
        rcases start with (letter | digit) | listed
        · refine matches' idListed (w := []) rfl ?_
          rw [ofId]
          exact .cat (u := [c]) (.chars letter) .done
        · refine matches' intListed (w := []) rfl ?_
          rw [ofInt]
          exact .cat (u := []) (.left .empty) (digits (List.cons_ne_nil _ _) fun d member => by
            rwa [List.mem_singleton.mp member])
        · obtain ⟨r, member, matched⟩ :=
            List.any_eq_true.mp (List.all_eq_true.mp punctuation c listed)
          exact matches' member (w := []) rfl ((Pattern.matches_iff _ _).mpr matched)
      · cases rest with
        | nil => exact absurd digit (by decide)
        | cons d rest =>
            refine matches' intListed (w := [d]) rfl ?_
            rw [ofInt]
            refine .cat (u := ['-']) (.right (Pattern.matches_lit.mpr rfl)) ?_
            exact digits (List.cons_ne_nil _ _) fun e member => by
              rw [List.mem_singleton.mp member]
              exact digit

/-- The rules that match where a word begins have actions that speak. -/
theorem speaks_of_beginsWord {r : Flex.Rule Action} {n : Nat} (known : beginsWord text = true)
    (member : r ∈ Rules.knownRules) (found : Pattern.longest text r.pattern = some n) :
    r.action.speaks = true := by
  have checked : (Rules.knownRules.all fun r => r.action.speaks || (!r.pattern.nullable &&
      !r.pattern.starts (Rules.word_start ++ [('-', '-')]))) = true := by
    decide +kernel
  have each := List.all_eq_true.mp checked r member
  rw [Bool.or_eq_true, Bool.and_eq_true, Bool.not_eq_true', Bool.not_eq_true'] at each
  rcases each with speaks | ⟨filled, apart⟩
  · exact speaks
  · obtain ⟨w, tail, rfl, -, matched, -⟩ := Pattern.longest_eq_some found
    cases w with
    | nil => exact absurd ((Pattern.nullable_iff _).mpr matched) (by simp [filled])
    | cons c w =>
        have outside := Pattern.not_mem_of_starts apart matched
        rw [CharSet.mem_append, Bool.or_eq_false_iff, CharSet.mem_single,
          decide_eq_false_iff_not] at outside
        rw [List.cons_append, beginsWord, outside.1, decide_eq_false outside.2] at known
        exact absurd known (by simp)

/-- The step by an action that speaks. -/
theorem perform_speaks (s : Lexical) (yytext rest : Text) {action : Action}
    (speaks : action.speaks = true) :
    (∃ lexeme s' rest', perform s yytext rest action = .token lexeme s' rest') ∨
      ∃ s' rest', perform s yytext rest action = .next s' rest' ∧ s'.mode ≠ .normal := by
  cases action with
  | space | tab | newline | layout | ignore | lineEnd => exact absurd speaks (by decide)
  | begin mode => exact Or.inr ⟨_, _, rfl, of_decide_eq_true speaks⟩
  | int_dec =>
      simp only [perform]
      split <;> exact Or.inl ⟨_, _, _, rfl⟩
  | _ => exact Or.inl ⟨_, _, _, rfl⟩

/-- Where a word begins, the scanner returns a token or enters another start
condition. -/
theorem step_known (normal : s.mode = .normal) (known : beginsWord text = true) :
    Accounted s text := by
  obtain ⟨r, member, m, found, positive⟩ := matched_of_beginsWord known
  cases text with
  | nil => exact absurd known (by decide)
  | cons c rest =>
      cases selected : Flex.select Rules.normalRules (c :: rest) with
      | none =>
          have absent := Flex.absent_of_select selected r
            (by rw [Rules.normalRules_eq]; exact List.mem_append_left _ member)
          exact absurd (absent.symm.trans found) (by simp)
      | some choice =>
          obtain ⟨n, action⟩ := choice
          have single {k : Nat} (last : Pattern.longest (c :: rest) Rules.any = some k) :
              k ≤ m := by
            obtain ⟨w, -, -, rfl, matched, -⟩ := Pattern.longest_eq_some last
            obtain ⟨d, rfl, -⟩ := Pattern.matches_chars.mp matched
            exact positive
          rw [Rules.normalRules_eq] at selected
          obtain ⟨own, listed, rfl, longest'⟩ :=
            Flex.select_before_last selected member found fun k => single
          rw [← Rules.normalRules_eq, ← Rules.of.eq_6, ← normal] at selected
          rw [Accounted, step_selected selected]
          exact perform_speaks _ _ _ (speaks_of_beginsWord known listed longest')

/-- Where no word begins, the character is dropped. -/
theorem step_unknown (normal : s.mode = .normal) (visible : c ∉ white)
    (unmatched : Unmatched (c :: rest)) : s.step (c :: rest) = .next s rest := by
  have plain : c ≠ '\n' := fun newline => visible (by simp [white, newline])
  have selected : Flex.select Rules.normalRules (c :: rest) = some (1, .ignore) := by
    rw [Rules.normalRules_eq, Flex.select_last unmatched, Rules.any, Rules.set,
      Pattern.longest_chars, mem_any, if_pos (decide_eq_true plain)]
    rfl
  have stepped := step_word (s := s) (w := [c]) (by rw [normal]; exact selected)
    (List.cons_ne_nil _ _) (by simpa using plain.symm)
  exact stepped

/-- The scanner returns the same tokens for two texts. -/
def SameTokens (lineno : Nat) (text text' : Text) : Prop :=
  ∃ lexemes eof, Scanned lineno text lexemes eof ∧ Scanned lineno text' lexemes eof

/-- Nothing is dropped from a text: every visible character met in the start condition
`normal` becomes part of a token or opens another start condition, and one that only the
rule for unknown characters matches cannot be left out with the same tokens. -/
def Kept (lineno : Nat) (text : Text) : Prop :=
  (∀ lexemes s c rest, Scans (new lineno) text lexemes s (c :: rest) → s.mode = .normal →
      c ∉ white → Accounted s (c :: rest)) ∧
    ∀ before c rest lexemes s, text = before ++ c :: rest →
      Scans (new lineno) text lexemes s (c :: rest) → s.mode = .normal → c ∉ white →
      Unmatched (c :: rest) → ¬ SameTokens lineno text (before ++ rest)

/-- **Unknown characters.** Nothing is dropped from a text exactly if every visible
character met in the start condition `normal` begins a word. -/
theorem kept_iff (lineno : Nat) (text : Text) :
    Kept lineno text ↔
      ∀ lexemes s c rest, Scans (new lineno) text lexemes s (c :: rest) → s.mode = .normal →
        c ∉ white → beginsWord (c :: rest) = true := by
  constructor
  · rintro ⟨accounted, -⟩ lexemes s c rest scans normal visible
    by_contra unknown
    have unmatched := unmatched_of_not_beginsWord visible (Bool.eq_false_iff.mpr unknown)
    have dropped := step_unknown normal visible unmatched
    rcases accounted lexemes s c rest scans normal visible with ⟨_, _, _, found⟩ |
      ⟨_, _, found, out⟩
    · exact nomatch dropped.symm.trans found
    · obtain ⟨rfl, -⟩ := Step.next.inj (dropped.symm.trans found)
      exact out normal
  · intro known
    refine ⟨fun lexemes s c rest scans normal visible =>
      step_known normal (known lexemes s c rest scans normal visible), ?_⟩
    intro before c rest lexemes s _ scans normal visible unmatched
    obtain ⟨r, member, m, found, -⟩ :=
      matched_of_beginsWord (known lexemes s c rest scans normal visible)
    exact absurd ((unmatched r member).symm.trans found) (by simp)

/-- The module named `M$` is accepted, as a module named `M`. -/
theorem dollar_dropped : ¬ ∀ lineno text, Parse lineno text → Kept lineno text := by
  intro kept
  obtain ⟨parse, -⟩ := Parse.of_statement 40 1
    "  module M$ :\n    skip\n".toList parses_skip (by decide) (by decide +kernel)
  have reached : (advance 6 (new 1) "  module M$ :\n    skip\n".toList).any
      (fun reached => decide (reached.2.1.mode = .normal) &&
        decide (reached.2.2 = "$ :\n    skip\n".toList)) = true := by
    decide +kernel
  obtain ⟨⟨lexemes, s, rest⟩, found, there⟩ := (Option.any_eq_true _ _).mp reached
  rw [Bool.and_eq_true, decide_eq_true_eq, decide_eq_true_eq] at there
  obtain ⟨normal, rfl⟩ := there
  have visible : '$' ∉ white := by decide
  have unknown : Unmatched "$ :\n    skip\n".toList :=
    unmatched_of_not_beginsWord visible (by decide)
  have dropped := step_unknown normal visible unknown
  rcases (kept 1 _ parse).1 _ _ _ _ (scans_of_advance found) normal visible with
    ⟨_, _, _, going⟩ | ⟨_, _, going, out⟩
  · cases dropped.symm.trans going
  · obtain ⟨rfl, -⟩ := Step.next.inj (dropped.symm.trans going)
    exact out normal

end Lexical

end FstWaveDemo
