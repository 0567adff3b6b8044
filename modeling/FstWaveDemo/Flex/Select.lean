import FstWaveDemo.Flex.Pattern

/-! # Selection of a rule

A scanner takes the rule that matches the longest prefix of the remaining text, the
earliest one among equals (`Flex.select`). What follows a word does not matter as
long as no rule could go on with it (`Flex.select_append`); `Flex.stops_of_after`
and `Flex.stops_of_clear` check that from the next character.
-/

namespace Flex

open Pattern

/-- A rule of a scanner. -/
structure Rule (A : Type) where
  pattern : Pattern
  action : A

variable {A : Type}

/-- The length of the longest match and the action of the earliest rule that has
it. -/
def select : List (Rule A) → List Char → Option (Nat × A)
  | [], _ => none
  | rule :: rules, text =>
      match longest text rule.pattern, select rules text with
      | none, later => later
      | some n, none => some (n, rule.action)
      | some n, some (m, action) =>
          if Nat.ble m n then some (n, rule.action) else some (m, action)

/-- The selected action is that of a rule with a match of the selected length. -/
theorem select_mem {rules : List (Rule A)} {text : List Char} {n : Nat} {action : A}
    (selected : select rules text = some (n, action)) :
    ∃ rule ∈ rules, rule.action = action ∧ longest text rule.pattern = some n := by
  induction rules generalizing n action with
  | nil => exact absurd selected (by simp [select])
  | cons rule rules ih =>
      rw [select] at selected
      split at selected
      · obtain ⟨rule', member, found⟩ := ih selected
        exact ⟨rule', List.mem_cons_of_mem _ member, found⟩
      · rename_i n' found _
        obtain ⟨rfl, rfl⟩ := Prod.mk.inj (Option.some.inj selected)
        exact ⟨rule, List.mem_cons_self, rfl, found⟩
      · rename_i n' m action' found later
        split at selected
        · obtain ⟨rfl, rfl⟩ := Prod.mk.inj (Option.some.inj selected)
          exact ⟨rule, List.mem_cons_self, rfl, found⟩
        · obtain ⟨rfl, rfl⟩ := Prod.mk.inj (Option.some.inj selected)
          obtain ⟨rule', member, found⟩ := ih later
          exact ⟨rule', List.mem_cons_of_mem _ member, found⟩

/-- A selected match is not longer than the text. -/
theorem select_le {rules : List (Rule A)} {text : List Char} {n : Nat} {action : A}
    (selected : select rules text = some (n, action)) : n ≤ text.length := by
  obtain ⟨rule, -, -, found⟩ := select_mem selected
  obtain ⟨w, rest, rfl, rfl, -⟩ := longest_eq_some found
  simp

/-- The longest match is at least as long as any. -/
theorem le_longest {p : Pattern} {u v : List Char} (matched : p.Matches u) :
    ∃ n, longest (u ++ v) p = some n ∧ u.length ≤ n := by
  cases found : longest (u ++ v) p with
  | none => exact absurd matched (longest_eq_none found rfl)
  | some n =>
      refine ⟨n, rfl, ?_⟩
      obtain ⟨w, rest, split, rfl, -, stops⟩ := longest_eq_some found
      by_contra shorter
      rcases List.append_eq_append_iff.mp split with ⟨more, rfl, -⟩ | ⟨more, rfl, rfl⟩
      · simp at shorter
      · refine stops more v rfl ?_ matched
        rintro rfl
        simp at shorter

/-- If no rule is selected, none matches. -/
theorem absent_of_select {rules : List (Rule A)} {text : List Char}
    (nothing : select rules text = none) : ∀ rule ∈ rules, longest text rule.pattern = none := by
  induction rules with
  | nil => exact fun _ member => nomatch member
  | cons head rules ih =>
      rw [select] at nothing
      split at nothing
      · rename_i found
        exact List.forall_mem_cons.mpr ⟨found, ih nothing⟩
      · exact absurd nothing (by simp)
      · split at nothing <;> exact absurd nothing (by simp)

/-- The selected rule is the earliest one with the longest match. -/
theorem select_split {rules : List (Rule A)} {text : List Char} {n : Nat} {action : A}
    (selected : select rules text = some (n, action)) :
    ∃ before rule after, rules = before ++ rule :: after ∧ rule.action = action ∧
      longest text rule.pattern = some n ∧
      (∀ other ∈ before, ∀ m, longest text other.pattern = some m → m < n) ∧
      ∀ other ∈ after, ∀ m, longest text other.pattern = some m → m ≤ n := by
  induction rules generalizing n action with
  | nil => exact absurd selected (by simp [select])
  | cons rule rules ih =>
      rw [select] at selected
      split at selected
      · rename_i found
        obtain ⟨before, own, after, rfl, same, longest', earlier, later⟩ := ih selected
        refine ⟨rule :: before, own, after, rfl, same, longest', ?_, later⟩
        refine List.forall_mem_cons.mpr ⟨fun m found' => ?_, earlier⟩
        exact absurd (found.symm.trans found') (by simp)
      · rename_i n' found nothing
        obtain ⟨rfl, rfl⟩ := Prod.mk.inj (Option.some.inj selected)
        refine ⟨[], rule, rules, rfl, rfl, found, fun _ member => (nomatch member), ?_⟩
        intro other member m found'
        exact absurd ((absent_of_select nothing other member).symm.trans found') (by simp)
      · rename_i n' m' action' found later
        obtain ⟨before, own, after, rfl, same, longest', earlier, others⟩ := ih later
        split at selected
        · rename_i longer
          rw [Nat.ble_eq] at longer
          obtain ⟨rfl, rfl⟩ := Prod.mk.inj (Option.some.inj selected)
          refine ⟨[], rule, _, rfl, rfl, found, fun _ member => (nomatch member), ?_⟩
          intro other member m found'
          rcases List.mem_append.mp member with member | member
          · exact Nat.le_trans (Nat.le_of_lt (earlier other member m found')) longer
          · rcases List.mem_cons.mp member with rfl | member
            · obtain rfl := Option.some.inj (longest'.symm.trans found')
              exact longer
            · exact Nat.le_trans (others other member m found') longer
        · rename_i shorter
          rw [Nat.ble_eq] at shorter
          obtain ⟨rfl, rfl⟩ := Prod.mk.inj (Option.some.inj selected)
          refine ⟨rule :: before, own, after, rfl, same, longest', ?_, others⟩
          refine List.forall_mem_cons.mpr ⟨fun m found' => ?_, earlier⟩
          obtain rfl := Option.some.inj (found.symm.trans found')
          omega

/-- No rule has a longer match than the selected one. -/
theorem select_max {rules : List (Rule A)} {text : List Char} {n m : Nat} {action : A}
    {rule : Rule A} (selected : select rules text = some (n, action)) (member : rule ∈ rules)
    (found : longest text rule.pattern = some m) : m ≤ n := by
  obtain ⟨before, own, after, rfl, -, longest', earlier, later⟩ := select_split selected
  rcases List.mem_append.mp member with member | member
  · exact Nat.le_of_lt (earlier rule member m found)
  · rcases List.mem_cons.mp member with rfl | member
    · exact Nat.le_of_eq (Option.some.inj (found.symm.trans longest'))
    · exact later rule member m found

/-- If no rule before the last one matches, the last one is selected. -/
theorem select_last {rules : List (Rule A)} {last : Rule A} {text : List Char}
    (absent : ∀ rule ∈ rules, longest text rule.pattern = none) :
    select (rules ++ [last]) text =
      (longest text last.pattern).map fun n => (n, last.action) := by
  induction rules with
  | nil =>
      rw [List.nil_append, select, select]
      cases longest text last.pattern <;> rfl
  | cons rule rules ih =>
      rw [List.cons_append, select, absent rule List.mem_cons_self,
        ih fun other member => absent other (List.mem_cons_of_mem _ member)]

/-- If a rule before the last one has a match that is not shorter, the last one is not
selected. -/
theorem select_before_last {rules : List (Rule A)} {last rule : Rule A} {text : List Char}
    {n m : Nat} {action : A} (selected : select (rules ++ [last]) text = some (n, action))
    (member : rule ∈ rules) (found : longest text rule.pattern = some m)
    (short : ∀ k, longest text last.pattern = some k → k ≤ m) :
    ∃ own ∈ rules, own.action = action ∧ longest text own.pattern = some n := by
  obtain ⟨before, own, after, split, same, longest', earlier, -⟩ := select_split selected
  rcases List.eq_nil_or_concat after with rfl | ⟨init, final, rfl⟩
  · obtain ⟨rfl, lasts⟩ := List.append_inj' split rfl
    obtain rfl := List.singleton_inj.mp lasts
    have shorter := earlier rule member m found
    have longer := short n longest'
    omega
  · rw [List.concat_eq_append, ← List.cons_append, ← List.append_assoc] at split
    obtain ⟨rfl, -⟩ := List.append_inj' split rfl
    exact ⟨own, by simp, same, longest'⟩

/-- A word of a pattern is its own longest match. -/
theorem longest_word {p : Pattern} {w : List Char} (matched : p.Matches w) :
    longest w p = some w.length := by
  have stops : p.Stops w [] := by
    intro more tail split some
    exact absurd (List.append_eq_nil_iff.mp split.symm).1 some
  have whole := longest_append matched stops
  rwa [List.append_nil] at whole

/-- A word is taken by the first rule whose pattern matches it. -/
theorem select_of_matches (before : List (Rule A)) (rule : Rule A) {after : List (Rule A)}
    {w : List Char}
    (own : rule.pattern.Matches w) (first : ∀ other ∈ before, ¬ other.pattern.Matches w) :
    select (before ++ rule :: after) w = some (w.length, rule.action) := by
  induction before with
  | nil =>
      rw [List.nil_append, select, longest_word own]
      cases later : select after w with
      | none => rfl
      | some found =>
          simp only [if_pos (Nat.ble_eq.mpr (select_le later))]
  | cons other before ih =>
      have found := ih fun earlier member => first earlier (List.mem_cons_of_mem _ member)
      rw [List.cons_append, select, found]
      cases shorter : longest w other.pattern with
      | none => rfl
      | some n =>
          obtain ⟨u, v, rfl, rfl, matched, -⟩ := longest_eq_some shorter
          have some : v ≠ [] := by
            rintro rfl
            exact first other List.mem_cons_self (by rwa [List.append_nil])
          have below : ¬ Nat.ble (u ++ v).length u.length = true := by
            have positive := List.length_pos_iff.mpr some
            rw [Nat.ble_eq, List.length_append]
            omega
          simp only [if_neg below]

/-- What is selected for a word does not depend on what follows. -/
theorem select_of_append {rules : List (Rule A)} {w rest : List Char} {action : A}
    (selected : select rules (w ++ rest) = some (w.length, action)) :
    select rules w = some (w.length, action) := by
  obtain ⟨before, rule, after, rfl, rfl, found, earlier, -⟩ := select_split selected
  obtain ⟨u, v, split, length, matched, -⟩ := longest_eq_some found
  obtain ⟨rfl, -⟩ := List.append_inj split length.symm
  refine select_of_matches before rule matched fun other member own => ?_
  obtain ⟨m, longer, above⟩ := le_longest (v := rest) own
  exact absurd (earlier other member m longer) (Nat.not_lt.mpr above)

section Stops

variable {p : Pattern} {w rest : List Char} {set first : CharSet}

/-- The longest match within a word does not depend on what follows, if no longer
prefix is matched. -/
theorem longest_append_eq (stops : p.Stops w rest) : longest (w ++ rest) p = longest w p := by
  cases found : longest (w ++ rest) p with
  | none =>
      cases own : longest w p with
      | none => rfl
      | some n =>
          obtain ⟨u, v, rfl, -, matched, -⟩ := longest_eq_some own
          exact absurd matched (longest_eq_none found (List.append_assoc ..))
  | some n =>
      obtain ⟨u, v, split, rfl, matched, stops'⟩ := longest_eq_some found
      rcases List.append_eq_append_iff.mp split with ⟨more, rfl, tail⟩ | ⟨more, rfl, rfl⟩
      · cases more with
        | nil =>
            rw [List.append_nil] at matched ⊢
            exact (longest_word matched).symm
        | cons c more => exact absurd matched (stops _ _ tail (by simp))
      · refine (longest_append matched ?_).symm
        intro extra tail same some
        refine stops' extra (tail ++ rest) ?_ some
        rw [same, List.append_assoc]

/-- Selection on a word that no rule goes beyond does not depend on what
follows. -/
theorem select_append_eq {rules : List (Rule A)}
    (stops : ∀ rule ∈ rules, rule.pattern.Stops w rest) :
    select rules (w ++ rest) = select rules w := by
  induction rules with
  | nil => rfl
  | cons rule rules ih =>
      rw [select, select, longest_append_eq (stops rule List.mem_cons_self),
        ih fun other member => stops other (List.mem_cons_of_mem _ member)]

/-- A selected word is selected alone, too. -/
theorem select_alone {rules : List (Rule A)} {action : A}
    (selected : select rules (w ++ rest) = some (w.length, action)) :
    select rules w = some (w.length, action) := by
  rw [← selected]
  refine (select_append_eq fun rule member => ?_).symm
  intro more tail split some matched
  obtain ⟨n, found, longer⟩ := le_longest (v := tail) matched
  rw [List.append_assoc, ← split] at found
  have bounded := select_max selected member found
  have positive := List.length_pos_iff.mpr some
  rw [List.length_append] at longer
  omega

/-- Checking what a pattern may go on with after a word. -/
theorem stops_of_after (check : (p.after w).starts set = false)
    (next : ∀ c ∈ rest.head?, set.mem c = true) : p.Stops w rest := by
  intro more tail split some matched
  cases more with
  | nil => exact some rfl
  | cons c more =>
      have member := next c (by rw [split]; rfl)
      rw [← matches_after] at matched
      rw [not_mem_of_starts check matched] at member
      exact absurd member (by decide)

/-- No rule can go on after the word with a character of the set. -/
def settled (set : CharSet) (rules : List (Rule A)) (w : List Char) : Bool :=
  rules.all fun rule => !(rule.pattern.after w).starts set

/-- Selection of the rule for a given word before a character of a set. -/
theorem select_word {rules : List (Rule A)} {n : Nat} {action : A}
    (check : settled set rules w = true) (alone : select rules w = some (n, action))
    (next : ∀ c ∈ rest.head?, set.mem c = true) : select rules (w ++ rest) = some (n, action) := by
  rw [select_append_eq fun rule member => ?_, alone]
  have each := List.all_eq_true.mp check rule member
  exact stops_of_after (by simpa using each) next

/-- The pattern cannot match a word that begins in `first` and goes on with a
character of `set`. -/
def Pattern.clear (first set : CharSet) (p : Pattern) : Bool :=
  p.avoids set || !p.starts first || p.single

/-- Checking a pattern for all words at once. -/
theorem stops_of_clear (check : p.clear first set = true) {lead : Char} {others : List Char}
    (begins : first.mem lead = true) (word : w = lead :: others)
    (next : ∀ c ∈ rest.head?, set.mem c = true) : p.Stops w rest := by
  intro more tail split some matched
  cases more with
  | nil => exact some rfl
  | cons c more =>
      have member := next c (by rw [split]; rfl)
      rw [Pattern.clear, Bool.or_eq_true, Bool.or_eq_true, Bool.not_eq_true'] at check
      rcases check with (avoids | starts) | single
      · rw [not_mem_of_avoids avoids matched (c := c) (by simp)] at member
        exact absurd member (by decide)
      · rw [word, List.cons_append] at matched
        rw [not_mem_of_starts starts matched] at begins
        exact absurd begins (by decide)
      · have length := length_of_single single matched
        rw [word] at length
        simp at length

end Stops

end Flex
