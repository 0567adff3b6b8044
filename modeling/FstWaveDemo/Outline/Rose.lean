import Mathlib

/-! # Outlines of trees

An outline lists the labels of a tree in pre-order, each with its depth. Reading the
list from its end, every label takes the deeper trees that follow as its children, which
gives the tree back (`Outline.rebuild_outline`). Words that end at a delimiter they do
not contain are told apart likewise (`Outline.split_unique`).
-/

namespace Outline

universe u

variable {α : Type u}

/-- A tree with labels and lists of children. -/
inductive Rose (α : Type u)
  | node (label : α) (children : List (Rose α))

namespace Rose

mutual

/-- The labels of a tree in pre-order, with their depths. -/
def outline (depth : Nat) : Rose α → List (Nat × α)
  | node label children => (depth, label) :: outlineAll (depth + 1) children

/-- The labels of trees, one after the other. -/
def outlineAll (depth : Nat) : List (Rose α) → List (Nat × α)
  | [] => []
  | tree :: trees => outline depth tree ++ outlineAll depth trees

end

end Rose

open Rose

/-- Put a label over the deeper trees that follow it. -/
def place (entry : Nat × α) (trees : List (Nat × Rose α)) : List (Nat × Rose α) :=
  let deeper := trees.takeWhile fun tree => entry.1 < tree.1
  (entry.1, .node entry.2 (deeper.map Prod.snd)) :: trees.dropWhile fun tree => entry.1 < tree.1

/-- The trees of an outline. -/
def rebuild (entries : List (Nat × α)) : List (Rose α) := (entries.foldr place []).map Prod.snd

theorem place_eq {depth : Nat} {label : α} {children : List (Rose α)} {trees : List (Nat × Rose α)}
    (higher : ∀ tree ∈ trees.head?, tree.1 ≤ depth) :
    place (depth, label) (children.map (fun child => (depth + 1, child)) ++ trees) =
      (depth, .node label children) :: trees := by
  have stop : trees.takeWhile (fun tree => decide (depth < tree.1)) = [] ∧
      trees.dropWhile (fun tree => decide (depth < tree.1)) = trees := by
    cases trees with
    | nil => exact ⟨rfl, rfl⟩
    | cons tree trees =>
        have low := higher tree rfl
        simp [show ¬ depth < tree.1 by omega]
  have all : ∀ tree ∈ children.map (fun child => (depth + 1, child)),
      decide (depth < tree.1) = true := by
    intro tree member
    obtain ⟨child, -, rfl⟩ := List.mem_map.mp member
    exact decide_eq_true (Nat.lt_succ_self depth)
  rw [place, List.takeWhile_append_of_pos all, List.dropWhile_append_of_pos all, stop.1, stop.2]
  simp [Function.comp_def]

mutual

/-- Reading the outline of a tree puts the tree before what follows. -/
theorem foldr_outline (depth : Nat) (tree : Rose α) (trees : List (Nat × Rose α))
    (higher : ∀ other ∈ trees.head?, other.1 ≤ depth) :
    (tree.outline depth).foldr place trees = (depth, tree) :: trees := by
  cases tree with
  | node label children =>
      rw [outline, List.foldr_cons, foldr_outlineAll (depth + 1) children trees fun other member =>
        Nat.le_succ_of_le (higher other member)]
      exact place_eq higher

/-- Reading the outlines of trees puts the trees before what follows. -/
theorem foldr_outlineAll (depth : Nat) (children : List (Rose α)) (trees : List (Nat × Rose α))
    (higher : ∀ other ∈ trees.head?, other.1 ≤ depth) :
    (outlineAll depth children).foldr place trees =
      children.map (fun child => (depth, child)) ++ trees := by
  cases children with
  | nil => rfl
  | cons child children =>
      rw [outlineAll, List.foldr_append, foldr_outlineAll depth children trees higher]
      refine foldr_outline depth child _ fun other member => ?_
      cases children with
      | nil => exact higher other member
      | cons next children =>
          obtain rfl := Option.some.inj member
          exact Nat.le_refl depth

end

/-- The outline of a tree gives the tree back. -/
theorem rebuild_outline (depth : Nat) (tree : Rose α) : rebuild (tree.outline depth) = [tree] := by
  rw [rebuild, foldr_outline depth tree [] (fun _ impossible => nomatch impossible)]
  rfl

/-- Trees with the same outline are the same. -/
theorem outline_injective {depth : Nat} {tree other : Rose α}
    (same : tree.outline depth = other.outline depth) : tree = other := by
  have whole := rebuild_outline depth tree
  rw [same, rebuild_outline] at whole
  exact (List.singleton_inj.mp whole).symm

/-- A word that ends at the first delimiter is determined by the text. -/
theorem split_unique (delimiter : α) {word word' rest rest' : List α} (clear : delimiter ∉ word)
    (clear' : delimiter ∉ word') (same : word ++ delimiter :: rest = word' ++ delimiter :: rest') :
    word = word' ∧ rest = rest' := by
  induction word generalizing word' with
  | nil =>
      cases word' with
      | nil => exact ⟨rfl, (List.cons.inj same).2⟩
      | cons c word' =>
          exact absurd List.mem_cons_self ((List.cons.inj same).1 ▸ clear')
  | cons c word ih =>
      cases word' with
      | nil => exact absurd List.mem_cons_self ((List.cons.inj same).1 ▸ clear)
      | cons c' word' =>
          obtain ⟨rfl, others⟩ := List.cons.inj same
          obtain ⟨rfl, same'⟩ := ih (fun member => clear (List.mem_cons_of_mem _ member))
            (fun member => clear' (List.mem_cons_of_mem _ member)) others
          exact ⟨rfl, same'⟩

/-- Lists of words that each end at a delimiter are determined by the text. -/
theorem lines_unique {delimiter : α} {lines lines' : List (List α)}
    (clear : ∀ line ∈ lines, delimiter ∉ line) (clear' : ∀ line ∈ lines', delimiter ∉ line)
    (same : lines.flatMap (· ++ [delimiter]) = lines'.flatMap (· ++ [delimiter])) :
    lines = lines' := by
  induction lines generalizing lines' with
  | nil =>
      cases lines' with
      | nil => rfl
      | cons line lines' => simp at same
  | cons line lines ih =>
      cases lines' with
      | nil => simp at same
      | cons line' lines' =>
          simp only [List.flatMap_cons, List.append_assoc, List.singleton_append] at same
          obtain ⟨rfl, others⟩ := split_unique _ (clear line List.mem_cons_self)
            (clear' line' List.mem_cons_self) same
          rw [ih (fun other member => clear other (List.mem_cons_of_mem _ member))
            (fun other member => clear' other (List.mem_cons_of_mem _ member)) others]

end Outline
