import FstWaveDemo.Parser.Words

/-! # Literal identifiers and annotations

Two start conditions that the scanner enters and leaves again. A literal identifier
is an integer between back-ticks; it is read as one identifier from `normal` and
after a dot (`FstWaveDemo.Lexical.literal_identifier`). An annotation block is
skipped up to the first two adjacent closing brackets, so as a whole if there are none
inside (`FstWaveDemo.Lexical.annotation_skipped`).
-/

namespace FstWaveDemo

namespace Lexical

open Flex (CharSet Pattern)

variable {s s' s'' : Lexical} {text text' rest : Text}

/-- A step on a word that only changes the start condition. -/
theorem step_begin {w : Text} {before after : Mode} (here : s.mode = before)
    (checked : (Flex.settled CharSet.all (Rules.of before) w &&
      decide (Flex.select (Rules.of before) w = some (w.length, .begin after)) &&
      decide ('\n' ∉ w) && !w.isEmpty) = true) :
    s.step (w ++ rest) = .next { s with mode := after } rest := by
  simp only [Bool.and_eq_true, decide_eq_true_eq, Bool.not_eq_true',
    List.isEmpty_eq_false_iff] at checked
  obtain ⟨⟨⟨settled, alone⟩, flat⟩, filled⟩ := checked
  exact step_word (by rw [here]; exact Flex.select_word settled alone (next_all rest)) filled flat

/-- **Literal identifiers.** From `normal` and after a dot, an integer between
back-ticks is one identifier, and only the start condition may change. -/
theorem literal_identifier (place : s.mode = .normal ∨ s.mode = .dotId) {n : Text}
    (lexed : Rules.int.Matches n) (rest : Text) :
    Scans s (['`'] ++ (n ++ (['`'] ++ rest))) [⟨tok .ID n, s.lineno⟩] { s with mode := .normal }
      rest := by
  have opens : s.step (['`'] ++ (n ++ (['`'] ++ rest))) =
      .next { s with mode := .intid } (n ++ (['`'] ++ rest)) := by
    rcases place with normal | dot
    · exact step_begin normal (by decide +kernel)
    · exact step_begin dot (by decide +kernel)
  have filled : n ≠ [] := by
    rintro rfl
    exact absurd ((Pattern.nullable_iff _).mpr lexed) (by decide)
  have flat : '\n' ∉ n :=
    Pattern.not_mem_of_avoids_single (by decide) lexed
  have selected : Flex.select Rules.intidRules (n ++ (['`'] ++ rest)) =
      some (n.length, .text .ID) := by
    have clear : (Rules.intidRules.all fun r => r.pattern.clear Rules.int.begins [('`', '`')]) =
        true := by
      decide
    have tick : ∀ c ∈ (['`'] ++ rest).head?, CharSet.mem [('`', '`')] c = true := by
      intro c same
      rw [← Option.some.inj same]
      decide
    obtain ⟨c, others, word⟩ := List.exists_cons_of_ne_nil filled
    rw [Flex.select_append_eq fun r listed => Flex.stops_of_clear
      (List.all_eq_true.mp clear r listed) (Pattern.mem_begins (word ▸ lexed)) word tick]
    exact Flex.select_of_matches [] ⟨Rules.int, Action.text .ID⟩ lexed
      fun _ absent => nomatch absent
  have reads : Lexical.step { s with mode := .intid } (n ++ (['`'] ++ rest)) =
      .token ⟨tok .ID n, s.lineno⟩ { s with mode := .intid } (['`'] ++ rest) :=
    step_word (s := { s with mode := .intid }) selected filled flat
  have closes : Lexical.step { s with mode := .intid } (['`'] ++ rest) =
      .next { s with mode := .normal } rest :=
    step_begin (show Lexical.mode { s with mode := .intid } = .intid from rfl) (by decide +kernel)
  exact .next opens (.token reads (.next closes .refl))

/-- The literal identifier 7 after a dot. -/
theorem literal_identifier_seven :
    Scans { new 2 with mode := .dotId } (['`'] ++ (['7'] ++ (['`'] ++ []))) [⟨tok .ID ['7'], 2⟩]
      { new 2 with mode := .normal } [] :=
  literal_identifier (s := { new 2 with mode := .dotId }) (Or.inr rfl)
    ((Pattern.matches_iff _ _).mpr (by decide)) []

/-- The scanner goes from one state to `normal` without returning a token, and is
not in `normal` on the way. -/
inductive Returns : Lexical → Text → Lexical → Text → Prop
  | back {s s' : Lexical} {text rest : Text} (stepped : s.step text = .next s' rest)
      (normal : s'.mode = .normal) : Returns s text s' rest
  | away {s s' s'' : Lexical} {text text' rest : Text} (stepped : s.step text = .next s' text')
      (other : s'.mode ≠ .normal) (later : Returns s' text' s'' rest) : Returns s text s'' rest

/-- The state in which the scanner is back is unique. -/
theorem Returns.unique {rest' : Text} (first : Returns s text s' rest)
    (second : Returns s text s'' rest') : s' = s'' ∧ rest = rest' := by
  induction first with
  | back stepped normal =>
      cases second with
      | back stepped' _ => exact Step.next.inj (stepped.symm.trans stepped')
      | away stepped' other _ =>
          obtain ⟨rfl, -⟩ := Step.next.inj (stepped.symm.trans stepped')
          exact absurd normal other
  | away stepped other _ ih =>
      cases second with
      | back stepped' normal =>
          obtain ⟨rfl, -⟩ := Step.next.inj (stepped.symm.trans stepped')
          exact absurd normal other
      | away stepped' _ later =>
          obtain ⟨rfl, rfl⟩ := Step.next.inj (stepped.symm.trans stepped')
          exact ih later

/-- Coming back is a run that returns no token. -/
theorem Returns.scans (returns : Returns s text s' rest) : Scans s text [] s' rest := by
  induction returns with
  | back stepped _ => exact .next stepped .refl
  | away stepped _ _ ih => exact .next stepped ih

/-- Two closing brackets. -/
abbrev closing : Text := [']', ']']

/-- Within an annotation, one character is skipped unless two brackets close it. -/
theorem step_anno (inside : s.mode = .anno) {c : Char} (open' : ¬ closing <+: c :: text) :
    s.step (c :: text) = .next (s.countLines [c]) text := by
  have bracket : Pattern.longest (c :: text) (Pattern.lit "]]") = none := by
    cases found : Pattern.longest (c :: text) (Pattern.lit "]]") with
    | none => rfl
    | some n =>
        obtain ⟨u, v, split, -, matched, -⟩ := Pattern.longest_eq_some found
        rw [Pattern.matches_lit.mp matched] at split
        exact absurd ⟨v, split.symm⟩ open'
  have one : Pattern.longest (c :: text) (.alt (Pattern.lit "\n") Rules.any) = some 1 := by
    have matched : (Pattern.alt (Pattern.lit "\n") Rules.any).Matches [c] := by
      by_cases newline : c = '\n'
      · subst newline
        exact .left ((Pattern.matches_iff _ _).mpr (by decide))
      · exact .right (.chars ((mem_any c).trans (decide_eq_true newline)))
    refine Pattern.longest_append (w := [c]) matched ?_
    intro more tail _ some longer
    rcases Pattern.matches_alt.mp longer with newline | any
    · exact some (List.cons.inj (Pattern.matches_lit.mp newline)).2
    · obtain ⟨a, split, -⟩ := Pattern.matches_chars.mp any
      exact some (List.cons.inj split).2
  have selected : Flex.select Rules.annoRules (c :: text) = some (1, .ignore) := by
    simp only [Flex.select, Rules.annoRules, bracket, one]
  exact step_selected (by rw [inside]; exact selected)

/-- An annotation without two adjacent closing brackets before its end is skipped. -/
theorem returns_anno (inside : s.mode = .anno) {body : Text}
    (open' : ¬ closing <:+: body ++ [']']) :
    Returns s (body ++ (closing ++ rest))
      { s with mode := .normal, lineno := s.lineno + body.count '\n' } rest := by
  induction body generalizing s with
  | nil => exact .back (step_begin (w := closing) inside (by decide +kernel)) rfl
  | cons c body ih =>
      have apart : ¬ closing <+: c :: (body ++ (closing ++ rest)) := by
        rintro ⟨tail, same⟩
        obtain ⟨rfl, second⟩ := List.cons.inj same
        cases body with
        | nil => exact open' ⟨[], [], rfl⟩
        | cons d body =>
            obtain ⟨rfl, -⟩ := List.cons.inj second
            exact open' ⟨[], body ++ [']'], rfl⟩
      have later := ih (s := s.countLines [c]) inside
        fun within => open' (List.infix_cons within)
      refine .away (step_anno inside apart) (by rw [countLines, inside]; decide) ?_
      have total : (s.countLines [c]).lineno + body.count '\n' =
          s.lineno + (c :: body).count '\n' := by
        change s.lineno + [c].count '\n' + body.count '\n' = _
        rw [Nat.add_assoc, ← List.count_append]
        rfl
      rw [total] at later
      exact later

/-- The first two adjacent closing brackets of a text. -/
theorem first_closing (within : closing <:+: text) :
    ∃ before after, text = before ++ (closing ++ after) ∧ ¬ closing <:+: before ++ [']'] := by
  induction text with
  | nil => exact absurd (List.infix_nil.mp within) (by decide)
  | cons c text ih =>
      by_cases first : closing <+: c :: text
      · obtain ⟨after, same⟩ := first
        exact ⟨[], after, same.symm, fun absurd' => absurd absurd'.length_le (by decide)⟩
      · rcases List.infix_cons_iff.mp within with now | later
        · exact absurd now first
        · obtain ⟨before, after, rfl, clear⟩ := ih later
          refine ⟨c :: before, after, rfl, fun found => ?_⟩
          rcases List.infix_cons_iff.mp found with ⟨tail, same⟩ | found
          · refine first ?_
            obtain ⟨rfl, second⟩ := List.cons.inj same
            cases before with
            | nil => exact ⟨']' :: after, rfl⟩
            | cons d before =>
                obtain ⟨rfl, -⟩ := List.cons.inj second
                exact ⟨before ++ (closing ++ after), rfl⟩
          · exact clear found

/-- An annotation block around the text between the outer brackets of an array. -/
def annoBlock (inner : Text) : Text := ['%', '[', '['] ++ (inner ++ closing)

/-- The scanner comes back to `normal` only after an annotation block, with only the line
advanced, exactly if the array has no two adjacent closing brackets. -/
theorem returns_block_iff (normal : s.mode = .normal) (inner rest : Text) :
    Returns s (annoBlock inner ++ rest)
        { s with lineno := s.lineno + (annoBlock inner).count '\n' } rest ↔
      ¬ closing <:+: '[' :: (inner ++ [']']) := by
  have opens {body : Text} : s.step (['%', '[', '['] ++ body) =
      .next { s with mode := .anno } body :=
    step_begin normal (by decide +kernel)
  have outer : closing <:+: '[' :: (inner ++ [']']) ↔ closing <:+: inner ++ [']'] := by
    rw [List.infix_cons_iff]
    exact or_iff_right fun ⟨_, same⟩ => absurd (List.cons.inj same).1 (by decide)
  have whole : annoBlock inner ++ rest = ['%', '[', '['] ++ (inner ++ (closing ++ rest)) := by
    simp [annoBlock]
  rw [outer, whole]
  constructor
  · intro skipped within
    obtain ⟨before, after, split, clear⟩ := first_closing within
    have early : Returns { s with mode := .anno } (before ++ (closing ++ (after ++ (']' :: rest))))
        _ _ := returns_anno rfl clear
    have same : inner ++ (closing ++ rest) = before ++ (closing ++ (after ++ (']' :: rest))) := by
      have extended := congrArg (· ++ (']' :: rest)) split
      simpa using extended
    rw [same] at skipped
    have ends := (skipped.unique (.away opens (fun impossible => nomatch impossible) early)).2
    have shorter := congrArg List.length ends
    rw [List.length_append, List.length_cons] at shorter
    omega
  · intro clear
    have inside : Returns { s with mode := .anno } (inner ++ (closing ++ rest)) _ rest :=
      returns_anno rfl clear
    have lines : (annoBlock inner).count '\n' = inner.count '\n' := by
      simp [annoBlock]
    rw [← lines] at inside
    have skipped := Returns.away opens (fun impossible => nomatch impossible) inside
    rwa [← normal] at skipped

/-- **Annotations.** If the array has no two adjacent closing brackets, the scanner reads the
annotation block without returning a token and is back in `normal` after it, with only the
line advanced. This is the condition under which it comes back after the block only. -/
theorem annotation_skipped (normal : s.mode = .normal) (inner rest : Text) :
    (¬ closing <:+: '[' :: (inner ++ [']']) → Scans s (annoBlock inner ++ rest) []
        { s with lineno := s.lineno + (annoBlock inner).count '\n' } rest) ∧
      (Returns s (annoBlock inner ++ rest)
          { s with lineno := s.lineno + (annoBlock inner).count '\n' } rest ↔
        ¬ closing <:+: '[' :: (inner ++ [']'])) := by
  have whole := returns_block_iff normal inner rest
  exact ⟨fun clear => (whole.mpr clear).scans, whole⟩

/-- The block of the array `[[1]]` is not skipped: its last bracket is left over. -/
theorem annotation_cut_short : ¬ ∀ rest, ∃ s', s'.mode = .normal ∧
    Scans { new 2 with mode := .normal } (annoBlock "[1]".toList ++ rest) [] s' rest := by
  intro skipped
  obtain ⟨s', normal, scans⟩ := skipped []
  have returned : (run 100 { new 2 with mode := .normal } (annoBlock "[1]".toList ++ [])).any
      (fun result => !result.1.isEmpty) = true := by
    decide +kernel
  obtain ⟨⟨lexemes, last⟩, found, filled⟩ := (Option.any_eq_true _ _).mp returned
  obtain ⟨rest, scans', eof, ended⟩ := scans_of_run found
  have ended' : s'.step [] = .eof s'.eofLexeme := by rw [step, atEof, normal]
  obtain ⟨rfl, -, -⟩ := scans.unique ended' scans' ended
  exact absurd filled (by simp)

/-- The block of the array `[1]` is skipped. -/
theorem annotation_skipped_one :
    Scans { new 2 with mode := .normal } (annoBlock "1".toList ++ []) []
      { new 2 with mode := .normal, lineno := 2 + (annoBlock "1".toList).count '\n' } [] :=
  (annotation_skipped (s := { new 2 with mode := .normal }) rfl "1".toList []).1 (by
    simp [closing, List.infix_cons_iff])

end Lexical

end FstWaveDemo
