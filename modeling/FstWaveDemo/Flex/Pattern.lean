import Mathlib

/-! # Patterns of a scanner

Regular patterns over characters, their languages (`Flex.Pattern.Matches`), and
matching by derivatives. `Flex.Pattern.longest` finds the longest prefix of a text
that a pattern matches. `starts`, `avoids` and `single` decide properties of all
words of a pattern; character sets are lists of ranges, so that they stay small.
-/

namespace Flex

/-- A set of characters, given by ranges. -/
abbrev CharSet := List (Char × Char)

namespace CharSet

/-- Membership in a set. -/
def mem (set : CharSet) (c : Char) : Bool :=
  set.any fun range => Nat.ble range.1.toNat c.toNat && Nat.ble c.toNat range.2.toNat

/-- No range of one set meets a range of the other. -/
def disjoint (first second : CharSet) : Bool :=
  first.all fun range => second.all fun other =>
    Nat.blt range.2.toNat other.1.toNat || Nat.blt other.2.toNat range.1.toNat

theorem mem_iff {set : CharSet} {c : Char} :
    set.mem c = true ↔ ∃ range ∈ set, range.1.toNat ≤ c.toNat ∧ c.toNat ≤ range.2.toNat := by
  simp [mem]

/-- The set of all characters. -/
def all : CharSet := [('\x00', Char.ofNat 0x10ffff)]

theorem mem_all (c : Char) : all.mem c = true := by
  have within : c.toNat < 0x110000 := by
    rcases c.valid with low | ⟨_, high⟩
    · exact Nat.lt_trans low (by decide)
    · exact high
  refine mem_iff.mpr ⟨_, List.mem_cons_self, Nat.zero_le _, ?_⟩
  change c.toNat ≤ 0x10ffff
  omega

theorem mem_singles (chars : List Char) {c : Char} :
    CharSet.mem (chars.map fun d => (d, d)) c = decide (c ∈ chars) := by
  rw [Bool.eq_iff_iff, mem_iff, decide_eq_true_eq]
  constructor
  · rintro ⟨range, listed, low, high⟩
    obtain ⟨d, member, rfl⟩ := List.mem_map.mp listed
    rwa [Char.toNat_inj.mp (Nat.le_antisymm high low)]
  · intro member
    exact ⟨(c, c), List.mem_map_of_mem member, Nat.le_refl _, Nat.le_refl _⟩

theorem mem_single {c d : Char} : CharSet.mem [(d, d)] c = decide (c = d) := by
  have same : CharSet.mem [(d, d)] c = decide (c ∈ [d]) := mem_singles [d]
  rw [same]
  exact decide_eq_decide.mpr List.mem_singleton

/-- Every range of one set lies within a range of the other. -/
def within (small large : CharSet) : Bool :=
  List.all small fun range => large.any fun other =>
    Nat.ble other.1.toNat range.1.toNat && Nat.ble range.2.toNat other.2.toNat

theorem mem_of_within {small large : CharSet} {c : Char} (inside : small.within large = true)
    (member : small.mem c = true) : large.mem c = true := by
  obtain ⟨range, listed, low, high⟩ := mem_iff.mp member
  obtain ⟨other, listed', covers⟩ := List.any_eq_true.mp (List.all_eq_true.mp inside range listed)
  rw [Bool.and_eq_true, Nat.ble_eq, Nat.ble_eq] at covers
  exact mem_iff.mpr ⟨other, listed', by omega, by omega⟩

theorem mem_append (first second : CharSet) (c : Char) :
    CharSet.mem (first ++ second) c = (first.mem c || second.mem c) :=
  List.any_append

theorem not_mem_of_disjoint {first second : CharSet} {c : Char}
    (apart : first.disjoint second = true) (member : first.mem c = true) :
    second.mem c = false := by
  by_contra other
  obtain ⟨range, listed, low, high⟩ := mem_iff.mp member
  obtain ⟨range', listed', low', high'⟩ := mem_iff.mp (by simpa using other)
  have separate := List.all_eq_true.mp (List.all_eq_true.mp apart range listed) range' listed'
  rw [Bool.or_eq_true, Nat.blt_eq, Nat.blt_eq] at separate
  omega

end CharSet

/-- A regular pattern. -/
inductive Pattern
  | fail
  | empty
  | chars (set : CharSet)
  | cat (first second : Pattern)
  | alt (first second : Pattern)
  | star (body : Pattern)
  deriving DecidableEq

namespace Pattern

/-- The words of a pattern. -/
inductive Matches : Pattern → List Char → Prop
  | empty : Matches .empty []
  | chars {set : CharSet} {c : Char} (member : set.mem c = true) : Matches (.chars set) [c]
  | cat {first second : Pattern} {u v : List Char} (left : Matches first u)
      (right : Matches second v) : Matches (.cat first second) (u ++ v)
  | left {first second : Pattern} {w : List Char} (own : Matches first w) :
      Matches (.alt first second) w
  | right {first second : Pattern} {w : List Char} (own : Matches second w) :
      Matches (.alt first second) w
  | done {body : Pattern} : Matches (.star body) []
  | more {body : Pattern} {u v : List Char} (head : Matches body u)
      (rest : Matches (.star body) v) : Matches (.star body) (u ++ v)

/-- The pattern of one character of a set. -/
def lit (text : String) : Pattern :=
  text.toList.foldr (fun c rest => .cat (.chars [(c, c)]) rest) .empty

/-- One or more words of a pattern. -/
def plus (body : Pattern) : Pattern := .cat body (.star body)

/-- An optional word of a pattern. -/
def opt (body : Pattern) : Pattern := .alt .empty body

/-- The pattern matches the empty word. -/
def nullable : Pattern → Bool
  | fail => false
  | empty => true
  | chars _ => false
  | cat first second => first.nullable && second.nullable
  | alt first second => first.nullable || second.nullable
  | star _ => true

/-- Concatenation, with trivial cases simplified. -/
def andThen : Pattern → Pattern → Pattern
  | fail, _ => fail
  | empty, second => second
  | first, second => cat first second

/-- Alternatives, with trivial cases simplified. -/
def orElse : Pattern → Pattern → Pattern
  | fail, second => second
  | first, fail => first
  | first, second => alt first second

/-- The words left after a first character. -/
def deriv (c : Char) : Pattern → Pattern
  | fail => fail
  | empty => fail
  | chars set => if set.mem c then empty else fail
  | cat first second =>
      if first.nullable then orElse (andThen (first.deriv c) second) (second.deriv c)
      else andThen (first.deriv c) second
  | alt first second => orElse (first.deriv c) (second.deriv c)
  | star body => andThen (body.deriv c) (star body)

theorem nullable_iff (p : Pattern) : p.nullable = true ↔ p.Matches [] := by
  induction p with
  | fail => exact ⟨fun impossible => (nomatch impossible), fun impossible => (nomatch impossible)⟩
  | empty => exact ⟨fun _ => .empty, fun _ => rfl⟩
  | chars set =>
      exact ⟨fun impossible => (nomatch impossible), fun impossible => (nomatch impossible)⟩
  | cat first second ihFirst ihSecond =>
      rw [nullable, Bool.and_eq_true, ihFirst, ihSecond]
      constructor
      · rintro ⟨left, right⟩
        exact .cat left right
      · intro whole
        generalize same : ([] : List Char) = w at whole
        cases whole with
        | cat left right =>
            obtain ⟨rfl, rfl⟩ := List.append_eq_nil_iff.mp same.symm
            exact ⟨left, right⟩
  | alt first second ihFirst ihSecond =>
      rw [nullable, Bool.or_eq_true, ihFirst, ihSecond]
      constructor
      · rintro (own | own)
        · exact .left own
        · exact .right own
      · intro whole
        cases whole with
        | left own => exact Or.inl own
        | right own => exact Or.inr own
  | star body => exact ⟨fun _ => .done, fun _ => rfl⟩

theorem matches_cat {first second : Pattern} {w : List Char} :
    (cat first second).Matches w ↔
      ∃ u v, w = u ++ v ∧ first.Matches u ∧ second.Matches v := by
  constructor
  · intro whole
    cases whole with
    | cat left right => exact ⟨_, _, rfl, left, right⟩
  · rintro ⟨u, v, rfl, left, right⟩
    exact .cat left right

theorem matches_alt {first second : Pattern} {w : List Char} :
    (alt first second).Matches w ↔ first.Matches w ∨ second.Matches w := by
  constructor
  · intro whole
    cases whole with
    | left own => exact Or.inl own
    | right own => exact Or.inr own
  · rintro (own | own)
    · exact .left own
    · exact .right own

theorem not_matches_fail {w : List Char} : ¬ fail.Matches w := fun impossible => nomatch impossible

theorem matches_empty {w : List Char} : empty.Matches w ↔ w = [] := by
  constructor
  · intro whole
    cases whole
    rfl
  · rintro rfl
    exact .empty

theorem matches_chars {set : CharSet} {w : List Char} :
    (chars set).Matches w ↔ ∃ c, w = [c] ∧ set.mem c = true := by
  constructor
  · intro whole
    cases whole with
    | chars member => exact ⟨_, rfl, member⟩
  · rintro ⟨c, rfl, member⟩
    exact .chars member

theorem matches_lit {text : String} {w : List Char} : (lit text).Matches w ↔ w = text.toList := by
  rw [lit]
  generalize text.toList = letters
  induction letters generalizing w with
  | nil => exact matches_empty
  | cons c letters ih =>
      rw [List.foldr_cons, matches_cat]
      constructor
      · rintro ⟨u, v, rfl, first, others⟩
        obtain ⟨d, rfl, same⟩ := matches_chars.mp first
        rw [CharSet.mem_single, decide_eq_true_eq] at same
        rw [same, ih.mp others, List.singleton_append]
      · rintro rfl
        refine ⟨[c], letters, rfl, .chars ?_, ih.mpr rfl⟩
        rw [CharSet.mem_single, decide_eq_true rfl]

theorem matches_andThen {first second : Pattern} {w : List Char} :
    (andThen first second).Matches w ↔ (cat first second).Matches w := by
  cases first with
  | fail => simp [andThen, matches_cat, not_matches_fail]
  | empty => simp [andThen, matches_cat, matches_empty]
  | _ => rfl

theorem matches_orElse {first second : Pattern} {w : List Char} :
    (orElse first second).Matches w ↔ first.Matches w ∨ second.Matches w := by
  cases first with
  | fail => simp [orElse, not_matches_fail]
  | _ =>
      cases second with
      | fail => simp [orElse, not_matches_fail]
      | _ => exact matches_alt

/-- A nonempty word of a repetition begins with a nonempty word of its body. -/
theorem matches_star_cons {body : Pattern} {c : Char} {w : List Char} :
    (star body).Matches (c :: w) ↔
      ∃ u v, w = u ++ v ∧ body.Matches (c :: u) ∧ (star body).Matches v := by
  constructor
  · intro whole
    generalize same : star body = p at whole
    generalize split : c :: w = word at whole
    induction whole with
    | @more body' u v head rest _ ihRest =>
        obtain rfl := Pattern.star.inj same
        cases u with
        | nil => exact ihRest rfl split
        | cons c' u =>
            obtain ⟨rfl, rfl⟩ := List.cons.inj split
            exact ⟨u, v, rfl, head, rest⟩
    | _ => simp_all
  · rintro ⟨u, v, rfl, head, rest⟩
    exact Matches.more (u := c :: u) head rest

/-- The derivative has the words that the pattern has after the character. -/
theorem matches_deriv (p : Pattern) (c : Char) (w : List Char) :
    (p.deriv c).Matches w ↔ p.Matches (c :: w) := by
  induction p generalizing w with
  | fail => simp [deriv, not_matches_fail]
  | empty => simp [deriv, not_matches_fail, matches_empty]
  | chars set =>
      rw [deriv, matches_chars]
      split
      · rename_i member
        simp [matches_empty, member, and_comm]
      · rename_i absent
        simp [not_matches_fail, absent]
  | cat first second ihFirst ihSecond =>
      have head : (andThen (first.deriv c) second).Matches w ↔
          ∃ u v, w = u ++ v ∧ first.Matches (c :: u) ∧ second.Matches v := by
        simp only [matches_andThen, matches_cat, ihFirst]
      have split : (cat first second).Matches (c :: w) ↔
          (first.Matches [] ∧ second.Matches (c :: w)) ∨
            ∃ u v, w = u ++ v ∧ first.Matches (c :: u) ∧ second.Matches v := by
        rw [matches_cat]
        constructor
        · rintro ⟨u, v, same, left, right⟩
          cases u with
          | nil => exact Or.inl ⟨left, same.symm ▸ right⟩
          | cons c' u =>
              obtain ⟨rfl, rfl⟩ := List.cons.inj same
              exact Or.inr ⟨u, v, rfl, left, right⟩
        · rintro (⟨left, right⟩ | ⟨u, v, rfl, left, right⟩)
          · exact ⟨[], c :: w, rfl, left, right⟩
          · exact ⟨c :: u, v, rfl, left, right⟩
      rw [deriv, split, ← nullable_iff]
      split
      · rename_i empties
        rw [matches_orElse, head, ihSecond]
        simp [empties, or_comm]
      · rename_i solid
        rw [head]
        simp [solid]
  | alt first second ihFirst ihSecond =>
      rw [deriv, matches_orElse, matches_alt, ihFirst, ihSecond]
  | star body ih =>
      rw [deriv, matches_andThen, matches_cat, matches_star_cons]
      simp only [ih]

/-- The words left after a prefix. -/
def after (p : Pattern) (w : List Char) : Pattern := w.foldl (fun p c => p.deriv c) p

theorem matches_after (p : Pattern) (u v : List Char) :
    (p.after u).Matches v ↔ p.Matches (u ++ v) := by
  induction u generalizing p with
  | nil => rfl
  | cons c u ih =>
      rw [List.cons_append, ← matches_deriv]
      exact ih (p.deriv c)

/-- Matching can be decided by derivatives. -/
theorem matches_iff (p : Pattern) (w : List Char) : p.Matches w ↔ (p.after w).nullable = true := by
  rw [nullable_iff, matches_after, List.append_nil]

/-- The length of the longest prefix of a text that the pattern matches. -/
def longest : List Char → Pattern → Option Nat
  | _, fail => none
  | [], p => if p.nullable then some 0 else none
  | c :: rest, p =>
      match longest rest (p.deriv c) with
      | some n => some (n + 1)
      | none => if p.nullable then some 0 else none

/-- No longer prefix of the text `w ++ rest` than `w` is matched. -/
def Stops (p : Pattern) (w rest : List Char) : Prop :=
  ∀ more tail, rest = more ++ tail → more ≠ [] → ¬ p.Matches (w ++ more)

theorem longest_nil (p : Pattern) : longest [] p = if p.nullable then some 0 else none := by
  cases p <;> rfl

theorem longest_cons (c : Char) (rest : List Char) (p : Pattern) :
    longest (c :: rest) p =
      match longest rest (p.deriv c) with
      | some n => some (n + 1)
      | none => if p.nullable then some 0 else none := by
  cases p with
  | fail => cases rest <;> rfl
  | _ => rfl

/-- A pattern without a longest match matches no prefix. -/
theorem longest_eq_none {text : List Char} {p : Pattern} (absent : longest text p = none)
    {w rest : List Char} (split : text = w ++ rest) : ¬ p.Matches w := by
  induction text generalizing p w with
  | nil =>
      obtain ⟨rfl, rfl⟩ := List.append_eq_nil_iff.mp split.symm
      rw [longest_nil] at absent
      rw [← nullable_iff]
      exact fun matched => by simp [matched] at absent
  | cons c text ih =>
      rw [longest_cons] at absent
      split at absent
      · exact absurd absent (by simp)
      · rename_i none
        cases w with
        | nil =>
            rw [← nullable_iff]
            exact fun matched => by simp [matched] at absent
        | cons c' w =>
            obtain ⟨rfl, rfl⟩ := List.cons.inj split
            rw [← matches_deriv]
            exact ih none rfl

/-- The longest match is a match, and no longer prefix matches. -/
theorem longest_eq_some {text : List Char} {p : Pattern} {n : Nat}
    (found : longest text p = some n) :
    ∃ w rest, text = w ++ rest ∧ w.length = n ∧ p.Matches w ∧ p.Stops w rest := by
  induction text generalizing p n with
  | nil =>
      rw [longest_nil] at found
      split at found
      · rename_i empties
        obtain rfl := Option.some.inj found
        refine ⟨[], [], rfl, rfl, (nullable_iff p).mp empties, ?_⟩
        intro more tail split some
        exact absurd (List.append_eq_nil_iff.mp split.symm).1 some
      · exact absurd found (by simp)
  | cons c text ih =>
      rw [longest_cons] at found
      split at found
      · rename_i m later
        obtain rfl := Option.some.inj found
        obtain ⟨w, rest, rfl, rfl, matched, stops⟩ := ih later
        refine ⟨c :: w, rest, rfl, rfl, (matches_deriv p c w).mp matched, ?_⟩
        intro more tail split some
        rw [List.cons_append, ← matches_deriv]
        exact stops more tail split some
      · rename_i none
        split at found
        · rename_i empties
          obtain rfl := Option.some.inj found
          refine ⟨[], c :: text, rfl, rfl, (nullable_iff p).mp empties, ?_⟩
          intro more tail split some
          cases more with
          | nil => exact absurd rfl some
          | cons c' more =>
              obtain ⟨rfl, rfl⟩ := List.cons.inj split
              rw [List.nil_append, ← matches_deriv]
              exact longest_eq_none none rfl
        · exact absurd found (by simp)

/-- A match that no longer prefix outdoes is the longest one. -/
theorem longest_append {p : Pattern} {w rest : List Char} (matched : p.Matches w)
    (stops : p.Stops w rest) : longest (w ++ rest) p = some w.length := by
  cases found : longest (w ++ rest) p with
  | none => exact absurd matched (longest_eq_none found rfl)
  | some n =>
      obtain ⟨w', rest', split, rfl, matched', stops'⟩ := longest_eq_some found
      rcases List.append_eq_append_iff.mp split with ⟨more, rfl, tail⟩ | ⟨more, rfl, tail⟩
      · cases more with
        | nil => simp
        | cons c more => exact absurd matched' (stops _ _ tail (by simp))
      · cases more with
        | nil => simp
        | cons c more => exact absurd matched (stops' _ _ tail (by simp))

@[simp] theorem longest_fail (text : List Char) : longest text fail = none := by
  cases text <;> rfl

@[simp] theorem longest_empty (text : List Char) : longest text empty = some 0 := by
  cases text with
  | nil => rfl
  | cons c rest => rw [longest_cons, deriv, longest_fail]; rfl

/-- The longest match of a set of characters. -/
theorem longest_chars (set : CharSet) (c : Char) (rest : List Char) :
    longest (c :: rest) (chars set) = if set.mem c then some 1 else none := by
  rw [longest_cons]
  by_cases member : set.mem c = true
  · simp [deriv, member]
  · simp [deriv, member, nullable]

/-- The longest match of a single character. -/
theorem longest_char (set : CharSet) (c : Char) (rest : List Char) :
    longest (c :: rest) (cat (chars set) empty) = if set.mem c then some 1 else none := by
  rw [longest_cons]
  by_cases member : set.mem c = true
  · simp [deriv, member, nullable, andThen]
  · simp [deriv, member, nullable, andThen]

section Checks

/-- The characters that words of the pattern may begin with. -/
def begins : Pattern → CharSet
  | fail => []
  | empty => []
  | chars own => own
  | cat first second => first.begins ++ if first.nullable then second.begins else []
  | alt first second => first.begins ++ second.begins
  | star body => body.begins

/-- Some word of the pattern may begin with a character of the set. -/
def starts (set : CharSet) (p : Pattern) : Bool := !p.begins.disjoint set

/-- No word of the pattern has a character of the set. -/
def avoids (set : CharSet) : Pattern → Bool
  | fail => true
  | empty => true
  | chars own => own.disjoint set
  | cat first second => first.avoids set && second.avoids set
  | alt first second => first.avoids set && second.avoids set
  | star body => body.avoids set

/-- Every word of the pattern has a character of the set. -/
def forces (set : CharSet) : Pattern → Bool
  | fail => true
  | empty => false
  | chars own => own.within set
  | cat first second => first.forces set || second.forces set
  | alt first second => first.forces set && second.forces set
  | star _ => false

/-- The pattern is a set of characters. -/
def single : Pattern → Bool
  | chars _ => true
  | _ => false

variable {set : CharSet} {p : Pattern} {c : Char} {w : List Char}

theorem mem_begins (matched : p.Matches (c :: w)) : p.begins.mem c = true := by
  induction p generalizing w with
  | fail => exact absurd matched not_matches_fail
  | empty => exact absurd (matches_empty.mp matched) (by simp)
  | chars own =>
      obtain ⟨c', same, member⟩ := matches_chars.mp matched
      obtain ⟨rfl, rfl⟩ := List.cons.inj same
      exact member
  | cat first second ihFirst ihSecond =>
      obtain ⟨u, v, same, left, right⟩ := matches_cat.mp matched
      cases u with
      | nil =>
          obtain rfl : c :: w = v := same
          rw [begins, (nullable_iff first).mpr left, if_pos rfl, CharSet.mem_append,
            ihSecond right, Bool.or_true]
      | cons c' u =>
          obtain ⟨rfl, rfl⟩ := List.cons.inj same
          rw [begins, CharSet.mem_append, ihFirst left, Bool.true_or]
  | alt first second ihFirst ihSecond =>
      rw [begins, CharSet.mem_append, Bool.or_eq_true]
      exact (matches_alt.mp matched).imp ihFirst ihSecond
  | star body ih =>
      obtain ⟨u, v, rfl, head, -⟩ := matches_star_cons.mp matched
      exact ih head

theorem not_mem_of_starts (check : p.starts set = false) (matched : p.Matches (c :: w)) :
    set.mem c = false := by
  rw [starts, Bool.not_eq_false'] at check
  exact CharSet.not_mem_of_disjoint check (mem_begins matched)

theorem not_mem_of_avoids (check : p.avoids set = true) (matched : p.Matches w)
    (member : c ∈ w) : set.mem c = false := by
  induction matched with
  | empty => exact absurd member (by simp)
  | chars own =>
      obtain rfl := List.mem_singleton.mp member
      exact CharSet.not_mem_of_disjoint check own
  | cat _ _ ihLeft ihRight =>
      rw [avoids, Bool.and_eq_true] at check
      exact (List.mem_append.mp member).elim (ihLeft check.1) (ihRight check.2)
  | left _ ih =>
      rw [avoids, Bool.and_eq_true] at check
      exact ih check.1 member
  | right _ ih =>
      rw [avoids, Bool.and_eq_true] at check
      exact ih check.2 member
  | done => exact absurd member (by simp)
  | more _ _ ihHead ihRest => exact (List.mem_append.mp member).elim (ihHead check) (ihRest check)

/-- A word of a pattern that avoids a character does not have it. -/
theorem not_mem_of_avoids_single {d : Char} (check : p.avoids [(d, d)] = true)
    (matched : p.Matches w) : d ∉ w := by
  intro member
  have outside := not_mem_of_avoids check matched member
  rw [CharSet.mem_single] at outside
  exact of_decide_eq_false outside rfl

theorem mem_of_forces (check : p.forces set = true) (matched : p.Matches w) :
    ∃ c ∈ w, set.mem c = true := by
  induction matched with
  | empty => exact nomatch check
  | @chars own c member =>
      exact ⟨c, List.mem_singleton_self _, CharSet.mem_of_within check member⟩
  | cat _ _ ihLeft ihRight =>
      rw [forces, Bool.or_eq_true] at check
      rcases check with left | right
      · obtain ⟨c, member, own⟩ := ihLeft left
        exact ⟨c, List.mem_append_left _ member, own⟩
      · obtain ⟨c, member, own⟩ := ihRight right
        exact ⟨c, List.mem_append_right _ member, own⟩
  | left _ ih =>
      rw [forces, Bool.and_eq_true] at check
      exact ih check.1
  | right _ ih =>
      rw [forces, Bool.and_eq_true] at check
      exact ih check.2
  | done => exact nomatch check
  | more => exact nomatch check

theorem length_of_single (check : p.single = true) (matched : p.Matches w) : w.length = 1 := by
  cases matched with
  | chars => rfl
  | _ => exact absurd check (by simp [single])

end Checks

end Pattern

end Flex
