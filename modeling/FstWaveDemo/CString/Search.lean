import Mathlib

/-! # C strings

A buffer is a list of characters, a C string in it is what stands from a position to
the next NUL. `CString.strstr` and `CString.strchr` have no result when they would
start outside the buffer. For a pattern whose first character does not occur again in
it, occurrences do not overlap, and a search splits a text at the first one
(`CString.find_split`).
-/

namespace CString

/-- The character that ends a string. -/
def NUL : Char := '\x00'

/-- The string at a position of a buffer. -/
def stringAt (buffer : List Char) (position : Nat) : List Char :=
  (buffer.drop position).takeWhile (· ≠ NUL)

/-- The position of the first occurrence of a pattern. -/
def find (pattern : List Char) : List Char → Option Nat
  | [] => if pattern.isEmpty then some 0 else none
  | c :: text =>
      if pattern.isPrefixOf (c :: text) then some 0 else (find pattern text).map (· + 1)

/-- `strstr`: the position of a pattern in the string at a position, `some none` for a null
pointer. -/
def strstr (buffer : List Char) (position : Nat) (pattern : List Char) : Option (Option Nat) :=
  if position < buffer.length then
    some ((find pattern (stringAt buffer position)).map (position + ·))
  else none

/-- `strchr`, for a character that is not NUL. -/
def strchr (buffer : List Char) (position : Nat) (c : Char) : Option (Option Nat) :=
  strstr buffer position [c]

/-- `strlen`. -/
def strlen (buffer : List Char) (position : Nat) : Nat := (stringAt buffer position).length

section Strings

variable {before text after : List Char}

/-- The string that a NUL ends. -/
theorem stringAt_append (plain : NUL ∉ text) :
    stringAt (before ++ (text ++ NUL :: after)) before.length = text := by
  rw [stringAt, List.drop_left, List.takeWhile_append_of_pos]
  · simp
  · intro c member
    exact decide_eq_true fun nul => plain (nul ▸ member)

theorem strstr_append (plain : NUL ∉ text) (pattern : List Char) :
    strstr (before ++ (text ++ NUL :: after)) before.length pattern =
      some ((find pattern text).map (before.length + ·)) := by
  rw [strstr, stringAt_append plain, if_pos]
  simp only [List.length_append, List.length_cons]
  omega

/-- `strstr` at the start of a buffer with one string. -/
theorem strstr_zero (plain : NUL ∉ text) (pattern : List Char) :
    strstr (text ++ [NUL]) 0 pattern = some ((find pattern text).map (0 + ·)) :=
  @strstr_append [] text [] plain pattern

end Strings

/-- The number of occurrences of a pattern. -/
def occurrences (pattern : List Char) : List Char → Nat
  | [] => 0
  | c :: text => (if pattern.isPrefixOf (c :: text) then 1 else 0) + occurrences pattern text

section Occurrences

variable {lead : Char} {tail text : List Char}

attribute [local simp] occurrences find

/-- The rest of a pattern does not reach over a place where the pattern could begin. -/
theorem prefix_append_iff (apart : lead ∉ tail) (first second : List Char) :
    tail <+: first ++ lead :: second ↔ tail <+: first := by
  constructor
  · intro occurs
    refine List.prefix_of_prefix_length_le occurs (List.prefix_append _ _) ?_
    by_contra longer
    have beyond : first ++ [lead] <+: tail :=
      List.prefix_of_prefix_length_le (by simp) occurs (by simp; omega)
    obtain ⟨more, rfl⟩ := beyond
    exact apart (by simp)
  · intro occurs
    exact occurs.trans (List.prefix_append _ _)

theorem isPrefixOf_append (apart : lead ∉ tail) (c : Char) (first second : List Char) :
    (lead :: tail).isPrefixOf (c :: first ++ lead :: second) =
      (lead :: tail).isPrefixOf (c :: first) := by
  rw [Bool.eq_iff_iff, List.isPrefixOf_iff_prefix, List.isPrefixOf_iff_prefix, List.cons_append,
    List.cons_prefix_cons, List.cons_prefix_cons, prefix_append_iff apart]

/-- Occurrences before and from a place where one could begin. -/
theorem occurrences_append (apart : lead ∉ tail) (first second : List Char) :
    occurrences (lead :: tail) (first ++ lead :: second) =
      occurrences (lead :: tail) first + occurrences (lead :: tail) (lead :: second) := by
  induction first with
  | nil => simp [occurrences]
  | cons c first ih =>
      have own : occurrences (lead :: tail) (c :: first) =
        (if (lead :: tail).isPrefixOf (c :: first) then 1 else 0) +
          occurrences (lead :: tail) first := rfl
      rw [List.cons_append, occurrences, ih, ← List.cons_append, isPrefixOf_append apart, own,
        Nat.add_assoc]

/-- An occurrence at the start. -/
theorem occurrences_cons (second : List Char) (occurs : tail <+: second) :
    occurrences (lead :: tail) (lead :: second) = occurrences (lead :: tail) second + 1 := by
  rw [occurrences, if_pos, Nat.add_comm]
  simpa using occurs

/-- The occurrences of a character. -/
theorem occurrences_single (c : Char) (text : List Char) : occurrences [c] text = text.count c := by
  induction text with
  | nil => rfl
  | cons d text ih =>
      rw [occurrences, ih, List.count_cons, Nat.add_comm]
      by_cases same : c = d
      · simp [same]
      · simp [same, Ne.symm same]

/-- Without an occurrence the search fails. -/
theorem find_none (absent : find (lead :: tail) text = none) :
    occurrences (lead :: tail) text = 0 := by
  induction text with
  | nil => rfl
  | cons c text ih =>
      rw [find] at absent
      split at absent
      · exact absurd absent (by simp)
      · rename_i other
        rw [occurrences, if_neg other, ih (by simpa using absent)]

/-- The search splits a text at the first occurrence. -/
theorem find_split {position : Nat} (apart : lead ∉ tail)
    (found : find (lead :: tail) text = some position) :
    ∃ first second, text = first ++ lead :: second ∧ first.length = position ∧ tail <+: second ∧
      occurrences (lead :: tail) first = 0 := by
  induction text generalizing position with
  | nil => exact absurd found (by simp [find])
  | cons c text ih =>
      rw [find] at found
      split at found
      · rename_i occurs
        obtain rfl := Option.some.inj found
        rw [List.isPrefixOf_iff_prefix] at occurs
        obtain ⟨second, same⟩ := occurs
        obtain ⟨rfl, rfl⟩ := List.cons.inj same
        exact ⟨[], tail ++ second, rfl, rfl, List.prefix_append _ _, rfl⟩
      · rename_i other
        obtain ⟨position', found', rfl⟩ := Option.map_eq_some_iff.mp found
        obtain ⟨first, second, rfl, rfl, occurs, none⟩ := ih found'
        refine ⟨c :: first, second, rfl, rfl, occurs, ?_⟩
        rw [← List.cons_append, isPrefixOf_append apart] at other
        rw [occurrences, if_neg other, none]

/-- A pattern occurs if the search finds it. -/
theorem infix_iff_find : lead :: tail <:+: text ↔ find (lead :: tail) text ≠ none := by
  induction text with
  | nil => simp [find]
  | cons c text ih =>
      rw [find, List.infix_cons_iff]
      split
      · rename_i occurs
        simp [List.isPrefixOf_iff_prefix.mp occurs]
      · rename_i other
        rw [List.isPrefixOf_iff_prefix] at other
        rw [or_iff_right other, ih]
        simp

end Occurrences

end CString
