import Mathlib

/-! # Words, most significant first

A word is a list with its most significant element in front; positions are counted from
the other end (`Bits.bit?`). Two words are the same if they agree at every position
(`Bits.ext`), which gives the rules for slices of concatenations.
-/

namespace Bits

universe u

variable {α : Type u}

/-- The element at a position, counted from the least significant one. -/
def bit? (word : List α) (i : Nat) : Option α := word.reverse[i]?

/-- The word with given elements. -/
def word (width : Nat) (bits : Nat → α) : List α := ((List.range width).map bits).reverse

/-- The elements from position `hi` down to position `lo`. -/
def slice (hi lo : Nat) (word : List α) : List α :=
  (word.drop (word.length - (hi + 1))).take (hi + 1 - lo)

variable {upper lower first second : List α} {hi lo i : Nat}

/-- Words with the same elements at all positions are the same. -/
theorem ext (same : ∀ i, bit? first i = bit? second i) : first = second :=
  List.reverse_injective (List.ext_getElem? same)

theorem bit?_append (upper lower : List α) (i : Nat) :
    bit? (upper ++ lower) i =
      if i < lower.length then bit? lower i else bit? upper (i - lower.length) := by
  rw [bit?, List.reverse_append, List.getElem?_append, List.length_reverse]
  rfl

@[simp] theorem length_word (width : Nat) (bits : Nat → α) : (word width bits).length = width := by
  simp [word]

theorem bit?_word (width : Nat) (bits : Nat → α) (i : Nat) :
    bit? (word width bits) i = if i < width then some (bits i) else none := by
  rw [bit?, word, List.reverse_reverse, List.getElem?_map]
  split
  · rename_i below
    rw [List.getElem?_range below]
    rfl
  · rename_i above
    rw [List.getElem?_eq_none (by simpa using above)]
    rfl

/-- The elements of a slice. -/
theorem bit?_slice (inside : hi < first.length) (i : Nat) :
    bit? (slice hi lo first) i = if i < hi + 1 - lo then bit? first (lo + i) else none := by
  have long : (first.drop (first.length - (hi + 1))).length = hi + 1 := by
    rw [List.length_drop]
    omega
  rw [bit?, slice, List.reverse_take, long, List.reverse_drop, List.getElem?_drop,
    List.getElem?_take]
  split
  · rw [if_pos (by omega), bit?]
    congr 1
    omega
  · rw [if_neg (by omega)]

theorem length_slice (inside : hi < first.length) : (slice hi lo first).length = hi + 1 - lo := by
  rw [slice, List.length_take, List.length_drop]
  omega

/-- A slice of the lower word. -/
theorem slice_low (below : hi < lower.length) :
    slice hi lo (upper ++ lower) = slice hi lo lower := by
  have inside : hi < (upper ++ lower).length := by
    rw [List.length_append]
    omega
  refine ext fun i => ?_
  rw [bit?_slice inside, bit?_slice below, bit?_append]
  split
  · rw [if_pos (by omega)]
  · rfl

/-- A slice of the upper word. -/
theorem slice_high (above : lower.length ≤ lo) (order : lo ≤ hi)
    (inside : hi < (upper ++ lower).length) :
    slice hi lo (upper ++ lower) = slice (hi - lower.length) (lo - lower.length) upper := by
  have inside' := inside
  rw [List.length_append] at inside'
  have inside'' : hi - lower.length < upper.length := by omega
  refine ext fun i => ?_
  rw [bit?_slice inside, bit?_slice inside'', bit?_append]
  by_cases within : i < hi + 1 - lo
  · have position : lo + i - lower.length = lo - lower.length + i := by omega
    rw [if_pos within, if_neg (by omega), if_pos (by omega), position]
  · rw [if_neg within, if_neg (by omega)]

/-- A slice of both words. -/
theorem slice_across (below : lo < lower.length) (above : lower.length ≤ hi)
    (inside : hi < (upper ++ lower).length) :
    slice hi lo (upper ++ lower) =
      slice (hi - lower.length) 0 upper ++ slice (lower.length - 1) lo lower := by
  have inside' := inside
  rw [List.length_append] at inside'
  have last : lower.length - 1 < lower.length := by omega
  have first : hi - lower.length < upper.length := by omega
  have length : (slice (lower.length - 1) lo lower).length = lower.length - lo := by
    rw [length_slice last]
    omega
  refine ext fun i => ?_
  rw [bit?_append, length, bit?_slice last, bit?_slice first, bit?_slice inside, bit?_append]
  by_cases low : lo + i < lower.length
  · rw [if_pos (by omega), if_pos low, if_pos (by omega), if_pos (by omega)]
  · have position : lo + i - lower.length = 0 + (i - (lower.length - lo)) := by omega
    rw [if_neg low, if_neg (by omega : ¬ i < lower.length - lo), position]
    by_cases within : i < hi + 1 - lo
    · rw [if_pos within, if_pos (by omega)]
    · rw [if_neg within, if_neg (by omega)]

/-- A slice of a word with given elements. -/
theorem slice_word {width : Nat} (bits : Nat → α) (inside : hi < width) :
    slice hi lo (word width bits) = word (hi + 1 - lo) fun i => bits (lo + i) := by
  refine ext fun i => ?_
  rw [bit?_slice (by rwa [length_word]), bit?_word, bit?_word]
  split
  · rw [if_pos (by omega)]
  · rfl

/-- A word with given elements, split at a position. -/
theorem word_append (above below : Nat) (bits : Nat → α) :
    word (above + below) bits = word above (fun i => bits (below + i)) ++ word below bits := by
  refine ext fun i => ?_
  rw [bit?_append, bit?_word, bit?_word, bit?_word, length_word]
  by_cases low : i < below
  · rw [if_pos (by omega), if_pos low, if_pos low]
  · rw [if_neg low]
    have position : below + (i - below) = i := by omega
    rw [position]
    split
    · rw [if_pos (by omega)]
    · rw [if_neg (by omega)]

theorem word_congr {width : Nat} {bits bits' : Nat → α} (same : ∀ i < width, bits i = bits' i) :
    word width bits = word width bits' := by
  refine ext fun i => ?_
  rw [bit?_word, bit?_word]
  split
  · rename_i below
    rw [same i below]
  · rfl

end Bits
