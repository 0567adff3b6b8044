import FstWaveDemo.LR.Grammar

/-! # Parser tables

The tables of a shift-reduce parser, one row for each state of its automaton.
Rows are held in a search tree (`LR.Dict`), so that the kernel can evaluate a
lookup.
-/

namespace LR

/-- A binary search tree with numbers as keys. -/
inductive Dict (α : Type)
  | leaf
  | node (left : Dict α) (key : Nat) (value : α) (right : Dict α)

namespace Dict

variable {α β : Type}

/-- The value stored under `i`. -/
def find? : Dict α → Nat → Option α
  | leaf, _ => none
  | node left key value right, i =>
      if Nat.beq i key then some value
      else if Nat.ble i key then left.find? i else right.find? i

/-- Replace the value stored under `i`, or insert one. -/
def alter (i : Nat) (f : Option α → α) : Dict α → Dict α
  | leaf => node leaf i (f none) leaf
  | node left key value right =>
      if Nat.beq i key then node left key (f (some value)) right
      else if Nat.ble i key then node (left.alter i f) key value right
      else node left key value (right.alter i f)

/-- Apply a function to every entry. -/
def map (f : Nat → α → β) : Dict α → Dict β
  | leaf => leaf
  | node left key value right => node (left.map f) key (f key value) (right.map f)

/-- The entries in the order of their keys. -/
def toList : Dict α → List (Nat × α)
  | leaf => []
  | node left key value right => left.toList ++ (key, value) :: right.toList

/-- The balanced tree of the first `count` values of a list under the keys from
`first` on, and the values left over. -/
def ofListAux : (depth first count : Nat) → List α → Dict α × List α
  | 0, _, _, values => (leaf, values)
  | depth + 1, first, count, values =>
      if Nat.beq count 0 then (leaf, values) else
      match ofListAux depth first (count / 2) values with
      | (left, []) => (left, [])
      | (left, value :: rest) =>
          match ofListAux depth (first + count / 2 + 1) (count - count / 2 - 1) rest with
          | (right, rest) => (node left (first + count / 2) value right, rest)

/-- The values of a list under the keys `0`, `1`, `2`, and so on. -/
def ofList (values : List α) : Dict α :=
  (ofListAux (values.length.log2 + 1) 0 values.length values).1

theorem ofListAux_spec : ∀ (depth first count : Nat) (values : List α), count < 2 ^ depth →
    count ≤ values.length →
    (ofListAux depth first count values).2 = values.drop count ∧
      ∀ i, (ofListAux depth first count values).1.find? i =
        if first ≤ i ∧ i < first + count then values[i - first]? else none := by
  intro depth
  induction depth with
  | zero =>
      intro first count values small _
      obtain rfl : count = 0 := by omega
      refine ⟨rfl, fun i => ?_⟩
      rw [if_neg (by omega)]
      rfl
  | succ depth ih =>
      intro first count values small enough
      cases count with
      | zero =>
          refine ⟨rfl, fun i => ?_⟩
          rw [if_neg (by omega)]
          rfl
      | succ count =>
          have half : (count + 1) / 2 < 2 ^ depth := by omega
          obtain ⟨leftRest, leftFind⟩ := ih first ((count + 1) / 2) values half (by omega)
          have notEmpty : Nat.beq (count + 1) 0 = false := rfl
          rw [ofListAux, notEmpty, if_neg Bool.false_ne_true]
          generalize ofListAux depth first ((count + 1) / 2) values = halves at leftRest leftFind ⊢
          obtain ⟨left, remaining⟩ := halves
          change remaining = _ at leftRest
          have middle : (count + 1) / 2 < values.length := by omega
          rw [List.drop_eq_getElem_cons middle] at leftRest
          subst leftRest
          obtain ⟨rightRest, rightFind⟩ := ih (first + (count + 1) / 2 + 1)
            (count + 1 - (count + 1) / 2 - 1) (values.drop ((count + 1) / 2 + 1)) (by omega)
            (by rw [List.length_drop]; omega)
          refine ⟨?_, fun i => ?_⟩
          · change (ofListAux depth (first + (count + 1) / 2 + 1) _ _).2 = _
            rw [rightRest, List.drop_drop]
            congr 1
            omega
          · change (if Nat.beq i _ then _ else if Nat.ble i _ then left.find? i
              else (ofListAux depth _ _ _).1.find? i) = _
            rw [leftFind, rightFind]
            by_cases here : i = first + (count + 1) / 2
            · have same : Nat.beq i (first + (count + 1) / 2) = true := by
                rw [here]; exact Nat.beq_refl _
              rw [if_pos same, if_pos (by omega), here, Nat.add_sub_cancel_left,
                List.getElem?_eq_getElem middle]
            · have other : ¬ Nat.beq i (first + (count + 1) / 2) = true :=
                fun same => here (Nat.eq_of_beq_eq_true same)
              rw [if_neg other]
              by_cases low : i ≤ first + (count + 1) / 2
              · rw [if_pos (Nat.ble_eq.mpr low)]
                by_cases above : first ≤ i
                · rw [if_pos (by omega), if_pos (by omega)]
                · rw [if_neg (by omega), if_neg (by omega)]
              · have high : ¬ Nat.ble i (first + (count + 1) / 2) = true :=
                  fun le => low (Nat.ble_eq.mp le)
                rw [if_neg high]
                by_cases below : i < first + (count + 1)
                · rw [if_pos (by omega), if_pos (by omega), List.getElem?_drop]
                  congr 1
                  omega
                · rw [if_neg (by omega), if_neg (by omega)]

/-- The tree of a list looks up the positions of the list. -/
theorem find?_ofList (values : List α) (i : Nat) : (ofList values).find? i = values[i]? := by
  have small : values.length < 2 ^ (values.length.log2 + 1) := Nat.lt_log2_self
  rw [ofList, (ofListAux_spec _ 0 _ values small (Nat.le_refl _)).2 i]
  by_cases within : i < values.length
  · rw [if_pos (by omega), Nat.sub_zero]
  · rw [if_neg (by omega), List.getElem?_eq_none (by omega)]

/-- A stored value is one of the entries. -/
theorem mem_toList_of_find? {d : Dict α} {i : Nat} {value : α} (found : d.find? i = some value) :
    (i, value) ∈ d.toList := by
  induction d with
  | leaf => exact absurd found (by simp [find?])
  | node left key stored right ihLeft ihRight =>
      simp only [find?] at found
      simp only [toList, List.mem_append, List.mem_cons]
      split at found
      · rename_i here
        have same : i = key := Nat.eq_of_beq_eq_true here
        obtain rfl := Option.some.inj found
        exact Or.inr (Or.inl (by rw [same]))
      · split at found
        · exact Or.inl (ihLeft found)
        · exact Or.inr (Or.inr (ihRight found))

end Dict

/-- The value paired with a number in an association list. -/
def assoc {α : Type} (i : Nat) : List (Nat × α) → Option α
  | [] => none
  | (key, value) :: rest => if Nat.beq i key then some value else assoc i rest

theorem mem_of_assoc {α : Type} {i : Nat} {value : α} {entries : List (Nat × α)}
    (found : assoc i entries = some value) : (i, value) ∈ entries := by
  induction entries with
  | nil => exact absurd found (by simp [assoc])
  | cons entry rest ih =>
      obtain ⟨key, stored⟩ := entry
      simp only [assoc] at found
      split at found
      · rename_i here
        have same : i = key := Nat.eq_of_beq_eq_true here
        obtain rfl := Option.some.inj found
        exact List.mem_cons.mpr (Or.inl (by rw [same]))
      · exact List.mem_cons_of_mem _ (ih found)

/-- A nonterminal transition: its target and the terminals that may follow the
nonterminal there. -/
structure Goto where
  target : Nat
  follow : Nat

/-- The row of a state: the kernel items (rule and dot) it stands for, its
transitions, the reductions that depend on the lookahead (as a mask of
lookaheads and a rule), the lookaheads that are explicit errors, and the default
reduction, which is taken on any other lookahead. -/
structure Row where
  kernel : List (Nat × Nat)
  shifts : List (Nat × Nat)
  gotos : List (Nat × Goto)
  reduces : List (Nat × Nat)
  errors : Nat
  defaultRule : Option Nat

/-- The parser's decision. -/
inductive Action
  | shift (state : Nat)
  | reduce (rule : Nat)
  | error
  deriving DecidableEq

namespace Row

/-- A state whose decision does not depend on the lookahead: the parser takes
its default reduction without reading one. -/
def consistent (row : Row) : Bool :=
  row.shifts.isEmpty && row.reduces.isEmpty && Nat.beq row.errors 0

/-- The reduction listed for a lookahead. -/
def listedRule (a : Nat) : List (Nat × Nat) → Option Nat
  | [] => none
  | (mask, rule) :: rest => if has mask a then some rule else listedRule a rest

/-- The decision of a row on the terminal numbered `a`. -/
def actionOn (row : Row) (a : Nat) : Action :=
  match assoc a row.shifts with
  | some state => .shift state
  | none =>
      if has row.errors a then .error else
      match listedRule a row.reduces with
      | some rule => .reduce rule
      | none =>
          match row.defaultRule with
          | some rule => .reduce rule
          | none => .error

end Row

/-- Parser tables: the rows by state number, the accepting state, and for each
nonterminal the terminals that its sentences may begin with; `nullable` is the
mask of the nonterminals that derive the empty word. -/
structure Tables where
  rows : Dict Row
  final : Nat
  first : Dict Nat
  nullable : Nat

namespace Tables

variable {T N : Type} [Coded T] [Coded N]

/-- The transition of a state on a nonterminal. -/
def goto? (tables : Tables) (state : Nat) (name : N) : Option Goto :=
  match tables.rows.find? state with
  | some row => assoc (code name) row.gotos
  | none => none

end Tables

end LR
