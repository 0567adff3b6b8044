import FstWaveDemo.Parser.Words

/-! # Bracket counters

The four counters of the scanner against the brackets that the returned tokens open
and close (`FstWaveDemo.openBrackets`). Every token but the two shift tokens moves them, a
closing bracket also below zero, and decimal numbers are never returned as identifiers; so
counters and number tokens are right exactly while nothing of this is met
(`FstWaveDemo.Lexical.counters_iff`).
-/

namespace FstWaveDemo

open Flex (CharSet Pattern)

/-- How many brackets of a sort a token opens; a token that closes some opens a negative
number. -/
def Kind.opens : Counter → Kind → Int
  | .angle_num, .char c => if c = '<' then 1 else if c = '>' then -1 else 0
  | .angle_num, .token name =>
      if name = .DoubleLeft then 2 else if name = .DoubleRight then -2 else 0
  | .square_num, .char c => if c = '[' then 1 else if c = ']' then -1 else 0
  | .bracket_num, .char c => if c = '\x7b' then 1 else if c = '\x7d' then -1 else 0
  | .parenthesis_num, .char c => if c = '(' then 1 else if c = ')' then -1 else 0
  | .parenthesis_num, .token name =>
      if name = .E2OP ∨ name = .E1OP ∨ name = .E1I1OP ∨ name = .E1I2OP then 1 else 0
  | _, _ => 0

/-- How many brackets of a sort are open after a token, if `n` are before it: a token does
not close more than are open. -/
def Kind.leaves (counter : Counter) (n : Nat) (kind : Kind) : Nat := (n + kind.opens counter).toNat

/-- The brackets of a sort that are open after some tokens, where `n` are before them. -/
def openAfter (counter : Counter) (n : Nat) (lexemes : List Lexeme) : Nat :=
  lexemes.foldl (fun n lexeme => lexeme.kind.leaves counter n) n

/-- The number of brackets of a sort that are open after some tokens. -/
def openBrackets (counter : Counter) (lexemes : List Lexeme) : Nat := openAfter counter 0 lexemes

theorem openBrackets_concat (counter : Counter) (lexemes : List Lexeme) (lexeme : Lexeme) :
    openBrackets counter (lexemes ++ [lexeme]) =
      lexeme.kind.leaves counter (openBrackets counter lexemes) := by
  rw [openBrackets, openAfter, List.foldl_concat]
  rfl

/-- The character that closes a bracket of a sort. -/
def Counter.closer : Counter → Char
  | .angle_num => '>'
  | .square_num => ']'
  | .bracket_num => '\x7d'
  | .parenthesis_num => ')'

/-- The tokens `<<` and `>>`. -/
def Kind.isShift (kind : Kind) : Bool :=
  decide (kind = .token .DoubleLeft ∨ kind = .token .DoubleRight)

namespace Lexical

/-- A counter. -/
def counter (s : Lexical) : Counter → Int
  | .angle_num => s.angle_num
  | .square_num => s.square_num
  | .bracket_num => s.bracket_num
  | .parenthesis_num => s.parenthesis_num

@[simp] theorem counter_bump (s : Lexical) (change : Int) (own other : Counter) :
    (s.bump change own).counter other = s.counter other + if own = other then change else 0 := by
  cases own <;> cases other <;> simp [bump, counter]

/-- Only braces are open: the test of the `int_dec` rule. -/
def InsideBraces (s : Lexical) : Prop :=
  s.angle_num = 0 ∧ s.square_num = 0 ∧ s.parenthesis_num = 0 ∧ s.bracket_num ≠ 0

instance (s : Lexical) : Decidable s.InsideBraces :=
  inferInstanceAs (Decidable (_ ∧ _ ∧ _ ∧ _))

end Lexical

/-- What an action adds to a counter. -/
def Action.adds (counter : Counter) : Action → Int
  | .count own change => if own = counter then change else 0
  | .operator _ => if .parenthesis_num = counter then 1 else 0
  | .operatorConstant _ _ => if .parenthesis_num = counter then 1 else 0
  | _ => 0

/-- The action returns a character as its own token. -/
def Action.returnsChar : Action → Bool
  | .dot | .character | .count _ _ => true
  | _ => false

/-- The characters that open or close something. -/
def brackets : List Char := ['<', '>', '[', ']', '\x7b', '\x7d', '(', ')']

theorem opens_of_not_bracket {c : Char} (plain : c ∉ brackets) (counter : Counter) :
    (Kind.char c).opens counter = 0 := by
  simp only [brackets, List.mem_cons, List.not_mem_nil, or_false, not_or] at plain
  obtain ⟨h1, h2, h3, h4, h5, h6, h7, h8⟩ := plain
  cases counter <;> simp [Kind.opens, h1, h2, h3, h4, h5, h6, h7, h8]

/-- The counters, as a list. -/
def counters : List Counter := [.angle_num, .square_num, .bracket_num, .parenthesis_num]

theorem mem_counters (counter : Counter) : counter ∈ counters := by
  cases counter <;> decide

/-- What a token adds to a counter: the shift tokens add nothing. -/
def Kind.counted (counter : Counter) (kind : Kind) : Int :=
  if kind.isShift = true then 0 else kind.opens counter

/-- The action of a rule adds what its token counts for; the action for plain characters
is left aside. -/
def Action.fits (pattern : Pattern) (counter : Counter) : Action → Bool
  | .count own change => brackets.any fun c =>
      decide (pattern = Pattern.lit (String.singleton c) ∧
        (Kind.char c).counted counter = (Action.count own change).adds counter)
  | .dot => decide (pattern = Pattern.lit ".")
  | action => action.names.all fun name =>
      decide ((Kind.token name).counted counter = action.adds counter)

namespace Lexical

variable {s s' : Lexical} {text rest : Text}

theorem rules_checked (mode : Mode) : ((Rules.of mode).all fun r =>
    counters.all (fun counter => r.action.fits r.pattern counter) &&
    (decide (r.action ≠ .character) || r.pattern.single) &&
    (!r.action.returnsChar || decide (mode = .normal) && !r.pattern.nullable) &&
    r.action.names.all fun name => !(Kind.token name).isShift || decide (mode = .normal) &&
      decide (r.pattern = Pattern.lit "<<" ∨ r.pattern = Pattern.lit ">>")) = true := by
  cases mode <;> decide +kernel

/-- What each rule tells of its tokens: their counts, that the rule for plain characters
matches one, and that characters and shift tokens are returned in `normal` only. -/
theorem rule_counted {mode : Mode} {r : Flex.Rule Action} (member : r ∈ Rules.of mode) :
    (∀ counter, r.action.fits r.pattern counter = true) ∧
      (r.action = .character → r.pattern.single = true) ∧
      (r.action.returnsChar = true → mode = .normal ∧ r.pattern.nullable = false) ∧
      ∀ name ∈ r.action.names, (Kind.token name).isShift = true → mode = .normal ∧
        (r.pattern = Pattern.lit "<<" ∨ r.pattern = Pattern.lit ">>") := by
  have each := List.all_eq_true.mp (rules_checked mode) r member
  simp only [Bool.and_eq_true, Bool.or_eq_true, Bool.not_eq_true', decide_eq_true_eq] at each
  obtain ⟨⟨⟨fits, single⟩, returns⟩, shifts⟩ := each
  refine ⟨fun counter => List.all_eq_true.mp fits counter (mem_counters counter),
    fun own => single.resolve_left fun other => other own, fun char => ?_,
    fun name named shift => ?_⟩
  · exact returns.resolve_left fun none => by cases none.symm.trans char
  · have own := List.all_eq_true.mp shifts name named
    simp only [Bool.or_eq_true, Bool.and_eq_true, Bool.not_eq_true', decide_eq_true_eq] at own
    exact own.resolve_left fun none => by cases none.symm.trans shift

theorem counter_eq {s s' : Lexical} (angle : s'.angle_num = s.angle_num)
    (square : s'.square_num = s.square_num) (bracket : s'.bracket_num = s.bracket_num)
    (parenthesis : s'.parenthesis_num = s.parenthesis_num) (counter : Counter) :
    s'.counter counter = s.counter counter := by
  cases counter <;> assumption

/-- What an action does to the counters, and what it returns. -/
theorem perform_adds (s : Lexical) (yytext rest : Text) (action : Action) :
    ∃ s' rest', (∀ counter, s'.counter counter = s.counter counter + action.adds counter) ∧
      ((perform s yytext rest action = .next s' rest' ∧ ∀ counter, action.adds counter = 0) ∨
        ∃ kind val, perform s yytext rest action = .token ⟨⟨kind, val⟩, s.lineno⟩ s' rest' ∧
          ((action = .layout ∧ (kind = .token .INDENT ∨ kind = .token .DEDENT)) ∨
            (∃ name ∈ action.names, kind = .token name) ∨
            ((action = .dot ∨ action = .character ∨ ∃ own change, action = .count own change) ∧
              kind = .char (yytext.headD ' ')))) := by
  have same {s' : Lexical} (kept : ∀ counter, s'.counter counter = s.counter counter)
      (none : ∀ counter, action.adds counter = 0) (counter : Counter) :
      s'.counter counter = s.counter counter + action.adds counter := by
    rw [kept, none, Int.add_zero]
  cases action with
  | layout =>
      rcases layout_cases s (yytext ++ rest) with ⟨-, found⟩ | ⟨-, found⟩ | ⟨-, found⟩
      · refine ⟨_, _, ?_, Or.inr ⟨_, _, found, Or.inl ⟨rfl, Or.inl rfl⟩⟩⟩
        exact same (counter_eq rfl rfl rfl rfl) fun _ => rfl
      · refine ⟨_, _, ?_, Or.inr ⟨_, _, found, Or.inl ⟨rfl, Or.inr rfl⟩⟩⟩
        exact same (counter_eq rfl rfl rfl rfl) fun _ => rfl
      · refine ⟨_, _, ?_, Or.inl ⟨found, fun _ => rfl⟩⟩
        exact same (counter_eq rfl rfl rfl rfl) fun _ => rfl
  | space | tab | newline | lineEnd | ignore | begin =>
      refine ⟨_, _, ?_, Or.inl ⟨rfl, fun _ => rfl⟩⟩
      exact same (counter_eq rfl rfl rfl rfl) fun _ => rfl
  | token | text | constant | dotName =>
      refine ⟨_, _, ?_, Or.inr ⟨_, _, rfl, Or.inr (Or.inl ⟨_, List.mem_singleton_self _, rfl⟩)⟩⟩
      exact same (counter_eq rfl rfl rfl rfl) fun _ => rfl
  | operator | operatorConstant =>
      exact ⟨_, _, counter_bump s 1 .parenthesis_num,
        Or.inr ⟨_, _, rfl, Or.inr (Or.inl ⟨_, List.mem_singleton_self _, rfl⟩)⟩⟩
  | int_dec =>
      simp only [perform]
      split
      · refine ⟨_, _, ?_, Or.inr ⟨_, _, rfl, Or.inr (Or.inl ⟨.ID, by simp [Action.names], rfl⟩)⟩⟩
        exact same (counter_eq rfl rfl rfl rfl) fun _ => rfl
      · refine ⟨_, _, ?_, Or.inr ⟨_, _, rfl, Or.inr (Or.inl ⟨.INT, by simp [Action.names], rfl⟩)⟩⟩
        exact same (counter_eq rfl rfl rfl rfl) fun _ => rfl
  | count own change =>
      refine ⟨s.bump change own, rest, counter_bump s change own, Or.inr ⟨.char (yytext.headD ' '),
        .undef, ?_, Or.inr (Or.inr ⟨Or.inr (Or.inr ⟨_, _, rfl⟩), rfl⟩)⟩⟩
      cases own <;> rfl
  | dot =>
      by_cases later : s.lineno ≠ 1
      · refine ⟨{ s with mode := .dotId }, rest, ?_,
          Or.inr ⟨_, _, by rw [perform, if_pos later]; rfl, Or.inr (Or.inr ⟨Or.inl rfl, rfl⟩)⟩⟩
        exact same (counter_eq rfl rfl rfl rfl) fun _ => rfl
      · refine ⟨s, rest, same (fun _ => rfl) fun _ => rfl, Or.inr ⟨_, _,
          by rw [perform, if_neg later]; rfl, Or.inr (Or.inr ⟨Or.inl rfl, rfl⟩)⟩⟩
  | character =>
      refine ⟨_, _, ?_, Or.inr ⟨_, _, rfl, Or.inr (Or.inr ⟨Or.inr (Or.inl rfl), rfl⟩)⟩⟩
      exact same (counter_eq rfl rfl rfl rfl) fun _ => rfl

/-- The rule for plain characters matches one character. -/
theorem character_single {mode : Mode} {r : Flex.Rule Action} {w : Text}
    (member : r ∈ Rules.of mode) (own : r.action = .character) (matched : r.pattern.Matches w) :
    w.length = 1 :=
  Pattern.length_of_single ((rule_counted member).2.1 own) matched

/-- A bracket is never returned by the rule for plain characters. -/
theorem character_plain {mode : Mode} {c : Char} {n : Nat}
    (selected : Flex.select (Rules.of mode) (c :: text) = some (n, .character)) : c ∉ brackets := by
  intro bracket
  have checked : ∀ mode, (Rules.of mode).any (fun r => r.action = .character) = false ∨
      (brackets.all fun c => ((Rules.of mode).takeWhile fun r => r.action ≠ .character).any fun r =>
        (r.pattern.after [c]).nullable) = true := by
    intro mode
    cases mode <;> decide +kernel
  obtain ⟨before, r, after, split, own, found, first, -⟩ := Flex.select_split selected
  have member : r ∈ Rules.of mode := by rw [split]; simp
  obtain ⟨w, rest, -, rfl, matched, -⟩ := Pattern.longest_eq_some found
  have one := character_single member own matched
  rcases checked mode with none | some
  · exact absurd (decide_eq_true own) (List.any_eq_false.mp none r member)
  · obtain ⟨other, listed, matches'⟩ := List.any_eq_true.mp (List.all_eq_true.mp some c bracket)
    have ahead : other ∈ before := by
      have stops : (r :: after).takeWhile (fun r => decide (r.action ≠ .character)) = [] :=
        List.takeWhile_cons_of_neg (by simp [own])
      rw [split, List.takeWhile_append, stops] at listed
      split at listed
      · rwa [List.append_nil] at listed
      · exact (List.takeWhile_prefix _).subset listed
    obtain ⟨m, longest', longer⟩ :=
      Flex.le_longest (v := text) ((Pattern.matches_iff _ _).mpr matches')
    have shorter := first other ahead m longest'
    rw [List.length_singleton] at longer
    omega

/-- What a step does to the counters: the token returned adds what it opens, but a
shift token adds nothing. -/
theorem step_counted (counter : Counter) :
    (∀ {s' rest'}, s.step text = .next s' rest' → s'.counter counter = s.counter counter) ∧
      ∀ {lexeme s' rest'}, s.step text = .token lexeme s' rest' →
        s'.counter counter = s.counter counter + lexeme.kind.counted counter := by
  cases text with
  | nil =>
      rw [step, atEof]
      split
      · split
        · refine ⟨fun impossible => (by cases impossible), fun stepped => ?_⟩
          obtain ⟨rfl, rfl, -⟩ := Step.token.inj stepped
          have kept : Lexical.counter { s with indentLevels := s.indentLevels.tail } counter =
              s.counter counter := counter_eq rfl rfl rfl rfl counter
          rw [kept]
          cases counter <;> exact (Int.add_zero _).symm
        · exact ⟨fun impossible => (by cases impossible), fun impossible => (by cases impossible)⟩
      · exact ⟨fun impossible => (by cases impossible), fun impossible => (by cases impossible)⟩
  | cons c text =>
      cases selected : Flex.select (Rules.of s.mode) (c :: text) with
      | none =>
          rw [step, selected]
          exact ⟨fun impossible => (by cases impossible), fun impossible => (by cases impossible)⟩
      | some choice =>
          obtain ⟨n, action⟩ := choice
          obtain ⟨r, member, own, found⟩ := Flex.select_mem selected
          obtain ⟨w, rest, split, rfl, matched, -⟩ := Pattern.longest_eq_some found
          have stepped := step_selected selected
          rw [split, List.take_left, List.drop_left, ← split] at stepped
          obtain ⟨after, rest', counts, found⟩ := perform_adds (s.countLines w) w rest action
          have start : (s.countLines w).counter counter = s.counter counter :=
            counter_eq rfl rfl rfl rfl counter
          have counts := counts counter
          rw [start] at counts
          rcases found with ⟨going, none⟩ | ⟨kind, val, going, from'⟩
          · rw [stepped, going]
            refine ⟨fun same => ?_, fun impossible => (by cases impossible)⟩
            obtain ⟨rfl, -⟩ := Step.next.inj same
            rw [counts, none, Int.add_zero]
          · rw [stepped, going]
            refine ⟨fun impossible => (by cases impossible), fun same => ?_⟩
            obtain ⟨rfl, rfl, -⟩ := Step.token.inj same
            rw [counts]
            refine congrArg (s.counter counter + ·) ?_
            change action.adds counter = kind.counted counter
            have fits := (rule_counted member).1 counter
            rw [own] at fits
            rcases from' with ⟨rfl, rfl | rfl⟩ | ⟨name, named, rfl⟩ | ⟨char, rfl⟩
            · cases counter <;> rfl
            · cases counter <;> rfl
            · cases action with
              | count | dot => exact absurd named List.not_mem_nil
              | _ => exact (of_decide_eq_true (List.all_eq_true.mp fits name named)).symm
            · rcases char with rfl | rfl | ⟨own', change, rfl⟩
              · rw [Action.fits, decide_eq_true_eq] at fits
                rw [fits] at matched
                rw [Pattern.matches_lit.mp matched]
                cases counter <;> rfl
              · have plain := character_plain selected
                have head : w.headD ' ' = c := by
                  cases w with
                  | nil => exact absurd (character_single member own matched) (by decide)
                  | cons d w => exact (List.cons.inj split).1.symm
                rw [head]
                change 0 = if (Kind.char c).isShift = true then 0 else _
                rw [opens_of_not_bracket plain, ite_self]
              · obtain ⟨d, -, same⟩ := List.any_eq_true.mp fits
                obtain ⟨pattern, counts⟩ := of_decide_eq_true same
                rw [pattern] at matched
                rw [Pattern.matches_lit.mp matched, String.toList_singleton]
                exact counts.symm

/-- The token `<<` is next. -/
abbrev NextLeft (text : Text) : Prop := ['<', '<'] <+: text

/-- The token `>>` is next. -/
abbrev NextRight (text : Text) : Prop := ['>', '>'] <+: text

/-- A single closing bracket of a sort is next. -/
def NextCloser (counter : Counter) (text : Text) : Prop :=
  [counter.closer] <+: text ∧ ¬ NextRight text

/-- A shift token is returned in the start condition `normal`, where one is next. -/
theorem nextShift_of_token {lexeme : Lexeme} (stepped : s.step text = .token lexeme s' rest)
    (shift : lexeme.kind.isShift = true) : s.mode = .normal ∧ (NextLeft text ∨ NextRight text) := by
  cases text with
  | nil =>
      rw [step, atEof] at stepped
      split at stepped
      · split at stepped
        · obtain ⟨rfl, -, -⟩ := Step.token.inj stepped
          cases shift
        · cases stepped
      · cases stepped
  | cons c text =>
      rcases step_cons (s := s) (c := c) text with jam |
        ⟨r, member, w, after, split, matched, found⟩
      · cases jam.symm.trans stepped
      · obtain ⟨s₂, rest₂, -, ⟨going, -⟩ | ⟨kind, val, going, from'⟩⟩ :=
          perform_adds (s.countLines w) w after r.action
        · cases (found.trans going).symm.trans stepped
        · obtain ⟨rfl, -, -⟩ := Step.token.inj ((found.trans going).symm.trans stepped)
          rcases from' with ⟨-, rfl | rfl⟩ | ⟨name, named, rfl⟩ | ⟨-, rfl⟩
          · cases shift
          · cases shift
          · obtain ⟨normal, pattern⟩ := (rule_counted member).2.2.2 name named shift
            refine ⟨normal, ?_⟩
            rw [split]
            rcases pattern with same | same
            · rw [same] at matched
              exact Or.inl ⟨after, by rw [Pattern.matches_lit.mp matched]; rfl⟩
            · rw [same] at matched
              exact Or.inr ⟨after, by rw [Pattern.matches_lit.mp matched]; rfl⟩
          · exact absurd shift (by simp [Kind.isShift])

/-- A character that is its own token is returned in the start condition `normal`, where it
is next. -/
theorem next_of_char {lexeme : Lexeme} {d : Char} (stepped : s.step text = .token lexeme s' rest)
    (char : lexeme.kind = .char d) : s.mode = .normal ∧ [d] <+: text := by
  cases text with
  | nil =>
      rw [step, atEof] at stepped
      split at stepped
      · split at stepped
        · obtain ⟨rfl, -, -⟩ := Step.token.inj stepped
          cases char
        · cases stepped
      · cases stepped
  | cons c text =>
      rcases step_cons (s := s) (c := c) text with jam |
        ⟨r, member, w, after, split, matched, found⟩
      · cases jam.symm.trans stepped
      · obtain ⟨s₂, rest₂, -, ⟨going, -⟩ | ⟨kind, val, going, from'⟩⟩ :=
          perform_adds (s.countLines w) w after r.action
        · cases (found.trans going).symm.trans stepped
        · obtain ⟨rfl, -, -⟩ := Step.token.inj ((found.trans going).symm.trans stepped)
          rcases from' with ⟨-, rfl | rfl⟩ | ⟨name, named, rfl⟩ | ⟨own, rfl⟩
          · cases char
          · cases char
          · cases char
          · have returns : r.action.returnsChar = true := by
              rcases own with same | same | ⟨own', change, same⟩ <;> rw [same] <;> rfl
            obtain ⟨normal, filled⟩ := (rule_counted member).2.2.1 returns
            refine ⟨normal, ?_⟩
            cases w with
            | nil => exact absurd ((Pattern.nullable_iff _).mpr matched) (by simp [filled])
            | cons e w =>
                obtain rfl : e = d := Kind.char.inj char
                exact ⟨w ++ after, split.symm⟩

/-- Every character but `>`. -/
def notRight : CharSet := [('\x00', '='), ('?', Char.ofNat 0x10ffff)]

theorem mem_notRight {c : Char} (other : c ≠ '>') : notRight.mem c = true := by
  obtain ⟨range, listed, -, high⟩ := CharSet.mem_iff.mp (CharSet.mem_all c)
  rw [List.mem_singleton.mp listed] at high
  have apart : c.toNat ≠ 62 := fun same => other (Char.toNat_inj.mp same)
  rw [CharSet.mem_iff]
  rcases Nat.lt_or_gt_of_ne apart with below | above
  · exact ⟨_, List.mem_cons_self, Nat.zero_le _, Nat.le_of_lt_succ below⟩
  · exact ⟨_, List.mem_cons_of_mem _ List.mem_cons_self, above, high⟩

theorem angles_spelled : spells CharSet.all ['<', '<'] (.token .DoubleLeft) = true ∧
    spells notRight ['>'] (.count .angle_num (-1)) = true := by
  decide +kernel

/-- The token `<<` is returned where it is next, and no counter changes. -/
theorem step_of_nextLeft (normal : s.mode = .normal) (next : NextLeft text) :
    ∃ rest, s.step text = .token ⟨kw .DoubleLeft, s.lineno⟩ s rest := by
  obtain ⟨rest, rfl⟩ := next
  obtain ⟨selected, filled, flat⟩ := select_of_spells angles_spelled.1 (next_all rest)
  exact ⟨rest, step_word (by rw [normal]; exact selected) filled flat⟩

/-- The token `>>` is returned where it is next, and no counter changes. -/
theorem step_of_nextRight (normal : s.mode = .normal) (next : NextRight text) :
    ∃ rest, s.step text = .token ⟨kw .DoubleRight, s.lineno⟩ s rest := by
  obtain ⟨rest, rfl⟩ := next
  obtain ⟨selected, filled, flat⟩ := select_symbol
    (by decide : (CharSet.all, ['>', '>'], Action.token .DoubleRight) ∈ symbols) (next_all rest)
  exact ⟨rest, step_word (by rw [normal]; exact selected) filled flat⟩

/-- A single closing bracket is returned where it is next, and its counter goes down. -/
theorem step_of_nextCloser {counter : Counter} (normal : s.mode = .normal)
    (next : NextCloser counter text) :
    ∃ rest, s.step text = .token ⟨ch counter.closer, s.lineno⟩ (s.bump (-1) counter) rest := by
  obtain ⟨⟨rest, rfl⟩, single⟩ := next
  refine ⟨rest, ?_⟩
  obtain ⟨selected, filled, flat⟩ : Flex.select Rules.normalRules ([counter.closer] ++ rest) =
      some (1, .count counter (-1)) ∧ [counter.closer] ≠ [] ∧ '\n' ∉ [counter.closer] := by
    cases counter with
    | angle_num =>
        refine select_of_spells angles_spelled.2 fun c head => mem_notRight ?_
        rintro rfl
        obtain ⟨others, rfl⟩ := List.head?_eq_some_iff.mp head
        exact single ⟨others, rfl⟩
    | square_num =>
        exact select_symbol (by decide : (CharSet.all, [']'], Action.count _ _) ∈ symbols)
          (next_all rest)
    | bracket_num =>
        exact select_symbol (by decide : (CharSet.all, ['\x7d'], Action.count _ _) ∈ symbols)
          (next_all rest)
    | parenthesis_num =>
        exact select_symbol (by decide : (CharSet.all, [')'], Action.count _ _) ∈ symbols)
          (next_all rest)
  refine (step_word (by rw [normal]; exact selected) filled flat).trans ?_
  cases counter <;> rfl

/-- The next word of the start condition `normal` is a decimal number. -/
def NextDecimal (text w : Text) : Prop :=
  Rules.int_dec.Matches w ∧ w <+: text ∧
    ∃ action, Flex.select Rules.normalRules text = some (w.length, action)

/-- A decimal number is always returned as an integer. -/
theorem step_of_nextDecimal {w : Text} (normal : s.mode = .normal) (next : NextDecimal text w) :
    ∃ lexeme rest, s.step text = .token lexeme s rest ∧ lexeme.kind = .token .INT := by
  obtain ⟨matched, ⟨rest, rfl⟩, action, selected⟩ := next
  have filled : w ≠ [] := by
    rintro rfl
    exact absurd ((Pattern.nullable_iff _).mpr matched) (by decide)
  have flat : '\n' ∉ w :=
    Pattern.not_mem_of_avoids_single (by decide) matched
  have alone := (Flex.select_alone selected).symm.trans (select_int matched)
  obtain ⟨-, rfl⟩ := Prod.mk.inj (Option.some.inj alone)
  exact ⟨_, rest, step_word (by rw [normal]; exact selected) filled flat, rfl⟩

/-- In a state, the counters are the open brackets, and a decimal number that is next is
returned as an identifier if only braces are open and else as an integer. -/
def ByNesting (lexemes : List Lexeme) (s : Lexical) (text : Text) : Prop :=
  (∀ counter, s.counter counter = openBrackets counter lexemes) ∧
    ∀ w, NextDecimal text w → ∃ lexeme s' rest, s.step text = .token lexeme s' rest ∧
      lexeme.kind = .token (if s.InsideBraces then .ID else .INT)

/-- What the scanner gets wrong is not next: `<<`, `>>` within an angle bracket, a bracket that
closes nothing, and a decimal number directly inside braces. -/
structure Clear (s : Lexical) (text : Text) : Prop where
  left : ¬ NextLeft text
  right : NextRight text → s.angle_num = 0
  closers : ∀ counter, NextCloser counter text → s.counter counter ≠ 0
  decimals : s.InsideBraces → ∀ w, ¬ NextDecimal text w

/-- A token that closes a bracket without being a shift token. -/
theorem char_of_closes {kind : Kind} {counter : Counter} (plain : kind.isShift = false)
    (closes : kind.opens counter < 0) :
    kind = .char counter.closer ∧ kind.opens counter = -1 := by
  cases kind with
  | char c =>
      have closer : c = counter.closer := by
        cases counter <;> simp only [Kind.opens] at closes <;> split at closes <;>
          first | omega | (split at closes <;> first | assumption | omega)
      subst closer
      cases counter <;> exact ⟨rfl, rfl⟩
  | token name =>
      exfalso
      cases counter <;> simp [Kind.opens, Kind.isShift] at closes plain
      · simp [plain] at closes
      · split at closes <;> omega

/-- Where nothing is wrong, a token changes a counter as it does the open brackets. -/
theorem step_leaves {lexeme : Lexeme} {counter : Counter} {n : Nat}
    (stepped : s.step text = .token lexeme s' rest) (clear : s.mode = .normal → Clear s text)
    (start : s.counter counter = n) : s'.counter counter = lexeme.kind.leaves counter n := by
  rw [(step_counted counter).2 stepped, start, Kind.leaves, Kind.counted]
  cases shift : lexeme.kind.isShift with
  | true =>
      obtain ⟨normal, left | right⟩ := nextShift_of_token stepped shift
      · exact absurd left (clear normal).left
      · obtain ⟨after, stepped'⟩ := step_of_nextRight normal right
        obtain ⟨rfl, -, -⟩ := Step.token.inj (stepped.symm.trans stepped')
        cases counter with
        | angle_num =>
            have none : (n : Int) = 0 := start.symm.trans ((clear normal).right right)
            rw [none]
            rfl
        | _ => simp [Kind.opens]
  | false =>
      rw [if_neg (by decide)]
      by_cases closes : lexeme.kind.opens counter < 0
      · obtain ⟨char, one⟩ := char_of_closes shift closes
        obtain ⟨normal, next⟩ := next_of_char stepped char
        have single : ¬ NextRight text := by
          intro right
          obtain ⟨after, stepped'⟩ := step_of_nextRight normal right
          obtain ⟨rfl, -, -⟩ := Step.token.inj (stepped.symm.trans stepped')
          cases char
        have opened := (clear normal).closers counter ⟨next, single⟩
        rw [start] at opened
        omega
      · omega

/-- Along a run on which nothing is wrong, the counters follow the brackets. -/
theorem Scans.follows {lexemes : List Lexeme} {counter : Counter} {n : Nat}
    (scans : Scans s text lexemes s' rest)
    (clear : ∀ before s₁ text₁, Scans s text before s₁ text₁ → s₁.mode = .normal → Clear s₁ text₁)
    (start : s.counter counter = n) : s'.counter counter = openAfter counter n lexemes := by
  induction scans generalizing n with
  | refl => exact start
  | next stepped _ ih =>
      exact ih (fun before s₁ text₁ later => clear before s₁ text₁ (.next stepped later))
        (((step_counted counter).1 stepped).trans start)
  | token stepped _ ih =>
      exact ih (fun before s₁ text₁ later => clear _ s₁ text₁ (.token stepped later))
        (step_leaves stepped (clear [] _ _ .refl) start)

/-- **Bracket counters.** Throughout a text, the counters are the open brackets and decimal
numbers are classified by them exactly if nothing that the scanner gets wrong is met in the
start condition `normal`. -/
theorem counters_iff (lineno : Nat) (text : Text) :
    (∀ lexemes s rest, Scans (new lineno) text lexemes s rest → s.mode = .normal →
        ByNesting lexemes s rest) ↔
      ∀ lexemes s rest, Scans (new lineno) text lexemes s rest → s.mode = .normal →
        Clear s rest := by
  constructor
  · intro nested lexemes s rest scans normal
    obtain ⟨counted, classified⟩ := nested lexemes s rest scans normal
    -- a token that is next leaves as many brackets open as its counter says
    have agrees {lexeme : Lexeme} {s' : Lexical} {after : Text} (counter : Counter)
        (stepped : s.step rest = .token lexeme s' after) (normal' : s'.mode = .normal) :
        s'.counter counter = lexeme.kind.leaves counter (openBrackets counter lexemes) := by
      rw [← openBrackets_concat]
      exact (nested _ s' after (scans.trans (.token stepped .refl)) normal').1 counter
    refine ⟨fun left => ?_, fun right => ?_, fun counter closer zero => ?_,
      fun inside w decimal => ?_⟩
    · obtain ⟨after, stepped⟩ := step_of_nextLeft normal left
      have wrong := agrees .angle_num stepped normal
      rw [counted, Kind.leaves] at wrong
      change _ = ((Int.toNat (_ + 2) : Nat) : Int) at wrong
      omega
    · obtain ⟨after, stepped⟩ := step_of_nextRight normal right
      have same := agrees .angle_num stepped normal
      have here := counted .angle_num
      rw [here, Kind.leaves] at same
      change _ = ((Int.toNat (_ + -2) : Nat) : Int) at same
      change s.angle_num = _ at here
      omega
    · obtain ⟨after, stepped⟩ := step_of_nextCloser normal closer
      have wrong := agrees counter stepped (by cases counter <;> exact normal)
      have opens : (Kind.char counter.closer).opens counter = -1 := by cases counter <;> rfl
      rw [counter_bump, if_pos rfl, zero, Kind.leaves] at wrong
      change _ = ((Int.toNat (_ + (Kind.char counter.closer).opens counter) : Nat) : Int) at wrong
      rw [opens] at wrong
      omega
    · obtain ⟨lexeme, s', after, stepped, kind⟩ := classified w decimal
      obtain ⟨lexeme', after', stepped', kind'⟩ := step_of_nextDecimal normal decimal
      obtain ⟨rfl, -, -⟩ := Step.token.inj (stepped.symm.trans stepped')
      rw [if_pos inside] at kind
      exact absurd (kind.symm.trans kind') (by decide)
  · intro clear lexemes s rest scans normal
    refine ⟨fun counter => ?_, fun w decimal => ?_⟩
    · exact scans.follows clear (by cases counter <;> rfl)
    · obtain ⟨lexeme, after, stepped, kind⟩ := step_of_nextDecimal normal decimal
      refine ⟨lexeme, s, after, stepped, ?_⟩
      rw [kind, if_neg fun inside => (clear lexemes s rest scans normal).decimals inside w decimal]

/-- After `Probe<UInt<8>>`, two angle brackets are still counted as open. -/
theorem shift_not_counted : ¬ ∀ lineno text lexemes s rest,
    Scans (new lineno) text lexemes s rest → s.mode = .normal → ByNesting lexemes s rest := by
  intro nested
  have wrong : (run 100 (new 1) "Probe<UInt<8>>".toList).any (fun found =>
      decide (found.2.mode = .normal ∧
        found.2.angle_num ≠ (openBrackets .angle_num found.1 : Int))) = true := by
    decide +kernel
  obtain ⟨⟨lexemes, s⟩, found, off⟩ := (Option.any_eq_true _ _).mp wrong
  obtain ⟨normal, off⟩ := of_decide_eq_true off
  obtain ⟨rest, scans, -⟩ := scans_of_run found
  exact off ((nested 1 _ lexemes s rest scans normal).1 .angle_num)

end Lexical

end FstWaveDemo
