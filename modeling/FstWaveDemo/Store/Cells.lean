import Mathlib

/-! # Stores of cells

A store is a list of cells that grows at its end; a place is the number of a cell, and
several lists may name the same one. Cells that are added leave all places as they are
(`Store.Holds.extend`), and a cell that is written only changes the lists that name it
(`Store.Holds.set`, `Store.Frame.holds`).
-/

universe u

/-- The cells that have been made so far. -/
abbrev Store (α : Type u) : Type u := List α

namespace Store

variable {α : Type u}

/-- The contents of the cells at some places. -/
def contents (s : Store α) (places : List Nat) : List α := places.filterMap fun place => s[place]?

/-- The cells at some places have the given contents. -/
def Holds (s : Store α) (places : List Nat) (values : List α) : Prop :=
  List.Forall₂ (fun place value => s[place]? = some value) places values

variable {s : Store α} {place : Nat} {value : α} {places places' : List Nat}
  {values values' more : List α}

@[simp] theorem holds_nil : Holds s [] values ↔ values = [] := List.forall₂_nil_left_iff

@[simp] theorem holds_cons : Holds s (place :: places) values ↔
    ∃ value rest, values = value :: rest ∧ s[place]? = some value ∧ Holds s places rest := by
  rw [Holds, List.forall₂_cons_left_iff]
  constructor
  · rintro ⟨value, rest, here, others, rfl⟩
    exact ⟨value, rest, rfl, here, others⟩
  · rintro ⟨value, rest, rfl, here, others⟩
    exact ⟨value, rest, here, others, rfl⟩

@[simp] theorem holds_append : Holds s (places ++ places') values ↔
    ∃ first second, values = first ++ second ∧ Holds s places first ∧ Holds s places' second := by
  induction places generalizing values with
  | nil => simp
  | cons place places ih =>
      rw [List.cons_append, holds_cons]
      constructor
      · rintro ⟨value, rest, rfl, here, others⟩
        obtain ⟨first, second, rfl, holds, holds'⟩ := ih.mp others
        exact ⟨value :: first, second, rfl, .cons here holds, holds'⟩
      · rintro ⟨first, second, rfl, holds, holds'⟩
        obtain ⟨value, first, rfl, here, holds⟩ := holds_cons.mp holds
        exact ⟨value, first ++ second, rfl, here, ih.mpr ⟨first, second, rfl, holds, holds'⟩⟩

/-- Places that all exist hold their contents. -/
theorem holds_contents (made : ∀ place ∈ places, ∃ value, s[place]? = some value) :
    Holds s places (contents s places) := by
  induction places with
  | nil => exact .nil
  | cons place places ih =>
      obtain ⟨value, here⟩ := made place List.mem_cons_self
      rw [contents, List.filterMap_cons_some here]
      exact .cons here (ih fun other member => made other (List.mem_cons_of_mem _ member))

namespace Holds

theorem contents (holds : Holds s places values) : Store.contents s places = values := by
  induction holds with
  | nil => rfl
  | cons here _ ih => rw [Store.contents, List.filterMap_cons_some here, ← ih]; rfl

theorem append (first : Holds s places values) (second : Holds s places' values') :
    Holds s (places ++ places') (values ++ values') := List.rel_append first second

/-- A place of a list has one of its contents. -/
theorem get (holds : Holds s places values) (member : place ∈ places) :
    ∃ value ∈ values, s[place]? = some value := by
  induction holds with
  | nil => cases member
  | cons here _ ih =>
      rcases List.mem_cons.mp member with rfl | member
      · exact ⟨_, List.mem_cons_self, here⟩
      · obtain ⟨value, listed, found⟩ := ih member
        exact ⟨value, List.mem_cons_of_mem _ listed, found⟩

/-- New cells leave the old ones as they are. -/
theorem extend (holds : Holds s places values) (more : List α) :
    Holds (s ++ more) places values :=
  holds.imp fun _ _ here =>
    (List.getElem?_append_left (List.getElem?_eq_some_iff.mp here).1).trans here

/-- New cells hold what they are made with. -/
theorem fresh (s : Store α) (more : List α) :
    Holds (s ++ more) (List.range' s.length more.length) more := by
  induction more generalizing s with
  | nil => exact .nil
  | cons value more ih =>
      have later := ih (s ++ [value])
      rw [List.append_assoc, List.length_append] at later
      refine .cons ?_ later
      rw [List.getElem?_append_right (Nat.le_refl _), Nat.sub_self]
      rfl

/-- Writing a cell leaves the others as they are. -/
theorem set (holds : Holds s places values) (outside : place ∉ places) (value : α) :
    Holds (s.set place value) places values := by
  induction holds with
  | nil => exact .nil
  | cons here _ ih =>
      rw [List.mem_cons, not_or] at outside
      exact .cons ((List.getElem?_set_ne outside.1).trans here) (ih outside.2)

end Holds

/-- Only cells at some places have been written. -/
def Frame (s s' : Store α) (places : List Nat) : Prop :=
  ∀ place, place ∉ places → s'[place]? = s[place]?

namespace Frame

variable {s' s'' : Store α}

theorem refl (s : Store α) (places : List Nat) : Frame s s places := fun _ _ => rfl

theorem trans (first : Frame s s' places) (second : Frame s' s'' places) : Frame s s'' places :=
  fun place outside => (second place outside).trans (first place outside)

theorem mono (frame : Frame s s' places) (within : places ⊆ places') : Frame s s' places' :=
  fun place outside => frame place fun member => outside (within member)

theorem set (member : place ∈ places) (value : α) : Frame s (s.set place value) places := by
  intro other outside
  refine List.getElem?_set_ne ?_
  rintro rfl
  exact outside member

/-- Lists that name other places hold what they held. -/
theorem holds (frame : Frame s s' places) (holds : Holds s places' values)
    (apart : places.Disjoint places') : Holds s' places' values := by
  induction holds with
  | nil => exact .nil
  | cons here _ ih =>
      rw [List.disjoint_cons_right] at apart
      exact .cons ((frame _ apart.1).trans here) (ih apart.2)

end Frame

/-- The cell that is written has the new contents. -/
theorem getElem?_written {old : α} (made : s[place]? = some old) (value : α) :
    (s.set place value)[place]? = some value :=
  List.getElem?_set_self (List.getElem?_eq_some_iff.mp made).1

end Store
