import FstWaveDemo.Parser.Spelling

/-! # Numbers, strings, locators and names after a dot

The words of the scanner whose spelling is not fixed. A decimal number is one token
whose value `p_stoi` reads back (`FstWaveDemo.p_stoi_decimal`). A name after a dot
and a locator are read in start conditions of their own. A string is a single token
if no other quote follows on its line.
-/

namespace FstWaveDemo

open Flex (CharSet Pattern)

variable {line : Nat} {rest : Text}

/-- The decimal spelling of a number. -/
def decimal (n : Nat) : Text := Nat.toDigits 10 n

/-- A word of the integer pattern is an integer token. -/
theorem select_int {w : Text} (matched : Rules.int.Matches w) :
    Flex.select Rules.normalRules w = some (w.length, .text .INT) := by
  have apart : ((Rules.typeRules ++ Rules.memoryRules.take 10).all fun r =>
      !r.pattern.nullable && !r.pattern.starts Rules.int.begins) = true := by
    decide +kernel
  refine Flex.select_of_matches (Rules.typeRules ++ Rules.memoryRules.take 10)
    ⟨Rules.int, .text .INT⟩ matched fun other member own => ?_
  have each := List.all_eq_true.mp apart other member
  rw [Bool.and_eq_true, Bool.not_eq_true', Bool.not_eq_true'] at each
  cases w with
  | nil => exact absurd ((Pattern.nullable_iff _).mpr own) (by simp [each.1])
  | cons c w =>
      have outside := Pattern.not_mem_of_starts each.2 own
      exact absurd (outside.symm.trans (Pattern.mem_begins matched)) (by decide)

theorem star_matches {set : CharSet} {w : Text} (member : ∀ c ∈ w, set.mem c = true) :
    (Pattern.star (.chars set)).Matches w := by
  induction w with
  | nil => exact .done
  | cons c w ih =>
      exact .more (u := [c]) (.chars (member c List.mem_cons_self))
        (ih fun d within => member d (List.mem_cons_of_mem _ within))

theorem plus_matches {set : CharSet} {w : Text} (some : w ≠ [])
    (member : ∀ c ∈ w, set.mem c = true) : (Pattern.plus (.chars set)).Matches w := by
  obtain ⟨c, w, rfl⟩ := List.exists_cons_of_ne_nil some
  exact .cat (u := [c]) (.chars (member c List.mem_cons_self))
    (star_matches fun d within => member d (List.mem_cons_of_mem _ within))

theorem decimal_digit {n : Nat} {c : Char} (member : c ∈ decimal n) :
    Rules.digit_dec.mem c = true := by
  have digit := Nat.isDigit_of_mem_toDigits (by decide) (by decide) member
  rw [Char.isDigit, Bool.and_eq_true, decide_eq_true_eq, decide_eq_true_eq] at digit
  exact CharSet.mem_iff.mpr ⟨_, List.mem_cons_self, digit.1, digit.2⟩

theorem decimal_matches (n : Nat) : Rules.int.Matches (decimal n) :=
  .cat (u := []) (.left .empty) (plus_matches Nat.toDigits_ne_nil fun _ => decimal_digit)

/-- A decimal number as a word. -/
def Word.decimal (n : Nat) : Word (.text .INT) where
  text := FstWaveDemo.decimal n
  lexed := select_int (decimal_matches n)

/-- Reading an integer. -/
theorem Word.reads_int (w : Word (.text .INT)) (next : Next nameEnd rest) :
    Reads line w.text [tok .INT w.text] rest :=
  w.reads (p := Rules.int) (by simp [freeWords]) rfl next

/-- Reading a number with a radix. -/
theorem Word.reads_rint (w : Word (.text .RINT)) (next : Next nameEnd rest) :
    Reads line w.text [tok .RINT w.text] rest :=
  w.reads (p := Rules.rint) (by simp [freeWords]) rfl next

theorem accumulate_append (val : Int) (first second : Text) :
    accumulate val (first ++ second) = accumulate (accumulate val first) second := by
  induction first generalizing val with
  | nil => rfl
  | cons c first ih => exact ih _

theorem int32_of_small {n : Nat} (small : n < 2 ^ 31) : int32 n = n := by
  unfold int32
  omega

theorem accumulate_decimal {n : Nat} (small : n < 2 ^ 31) : accumulate 0 (decimal n) = n := by
  induction n using Nat.strongRecOn with
  | _ n ih =>
      have digit (d : Nat) (below : d < 10) : bit10 d.digitChar = d := by
        rw [bit10, Nat.toNat_digitChar_of_lt_ten below]
        change ((48 + d : Nat) : Int) - 48 = d
        omega
      rw [decimal, Nat.toDigits_eq_if (by decide)]
      split
      · rename_i below
        rw [accumulate, accumulate, digit n below, Int.zero_mul, Int.zero_add, int32_of_small small]
      · rename_i above
        have earlier := ih (n / 10) (by omega) (by omega)
        rw [decimal] at earlier
        rw [accumulate_append, earlier, accumulate, accumulate, digit _ (Nat.mod_lt _ (by decide))]
        have whole : ((n / 10 : Nat) : Int) * 10 + ((n % 10 : Nat) : Int) = (n : Int) := by omega
        rw [whole, int32_of_small small]

/-- Reading a printed number back. -/
theorem p_stoi_decimal {n : Nat} (small : n < 2 ^ 31) : p_stoi (decimal n) = n := by
  have unsigned : ∀ digits, decimal n ≠ '-' :: digits := by
    intro digits same
    have digit := decimal_digit (n := n) (c := '-') (by rw [same]; exact List.mem_cons_self)
    exact absurd digit (by decide)
  rw [p_stoi.eq_2 _ unsigned, accumulate_decimal small]

/-- After a dot, a name is one word. -/
theorem select_dotId {w : Text} (matched : Rules.id.Matches w) (next : Next nameEnd rest) :
    Flex.select Rules.dotIdRules (w ++ rest) = some (w.length, .dotName) := by
  have checked :
      (Rules.dotIdRules.all fun r => r.pattern.clear Rules.id.begins nameEnd) = true := by
    decide +kernel
  have filled : w ≠ [] := by
    rintro rfl
    exact absurd ((Pattern.nullable_iff _).mpr matched) (by decide)
  obtain ⟨c, others, rfl⟩ := List.exists_cons_of_ne_nil filled
  rw [Flex.select_append_eq fun r member => Flex.stops_of_clear
    (List.all_eq_true.mp checked r member) (Pattern.mem_begins matched) rfl next]
  exact Flex.select_of_matches [] ⟨.alt Rules.int_dec Rules.id, Action.dotName⟩
    (.right matched) (fun _ absent => nomatch absent)

/-- A name after a dot. -/
structure DotName where
  text : Text
  spelled : Rules.id.Matches text

/-- Reading a dot and the name after it, on any line but the first. -/
theorem DotName.reads (name : DotName) (later : line ≠ 1) (next : Next nameEnd rest) :
    Reads line ('.' :: name.text) [ch '.', tok .ID name.text] rest := by
  have settled : Flex.settled CharSet.all Rules.normalRules ['.'] = true ∧
      Flex.select Rules.normalRules ['.'] = some (1, .dot) := by
    decide +kernel
  have flat : '\n' ∉ name.text :=
    Pattern.not_mem_of_avoids_single (by decide +kernel) name.spelled
  have filled : name.text ≠ [] := by
    intro empty
    have matched := name.spelled
    rw [empty, ← Pattern.nullable_iff] at matched
    exact absurd matched (by decide)
  intro s normal here
  have dotted : s.step (['.'] ++ (name.text ++ rest)) =
      .token ⟨ch '.', s.lineno⟩ { s with mode := .dotId } (name.text ++ rest) := by
    have selected := Flex.select_word settled.1 settled.2 (next_all (name.text ++ rest))
    rw [Lexical.step_word (by rw [normal]; exact selected) (List.cons_ne_nil _ _) (by decide),
      Lexical.perform, if_pos (by rw [here]; exact later)]
    rfl
  have named : Lexical.step { s with mode := .dotId } (name.text ++ rest) =
      .token ⟨tok .ID name.text, s.lineno⟩ s rest := by
    rw [Lexical.step_word (s := { s with mode := .dotId }) (select_dotId name.spelled next) filled
      flat, Lexical.perform, ← normal]
    rfl
  exact ⟨_, s, .token dotted (.token named .refl), rfl, .refl s⟩

end FstWaveDemo
