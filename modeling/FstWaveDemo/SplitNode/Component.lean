import FstWaveDemo.SplitNode.Element

/-! # Components of split nodes

`NodeComponent` of `splitNode.h`: two lists of pointers to elements. A component denotes
the bits of its elements, most significant first (`SplitNode.denote`). Selecting bits and
copying respect the denotation and make new elements only; merging components and
neighbours changes elements in place, and respects the denotation if no element stands in
two places (`SplitNode.NodeComponent.operations_denote`).
-/

namespace SplitNode

open Bits (bit? slice word)
open Store (Holds contents)

variable {N : Type}

structure NodeComponent where
  elements : List Nat
  directElements : List Nat
  width : CInt

namespace NodeComponent

/-- The two lists of a component. -/
inductive Side
  | elements | directElements
  deriving DecidableEq

/-- One of the lists. -/
def list (comp : NodeComponent) : Side → List Nat
  | .elements => comp.elements
  | .directElements => comp.directElements

def new : NodeComponent := ⟨[], [], 0⟩

def addElement (s : Store (NodeElement N)) (comp : NodeComponent) (element : Nat) :
    Option NodeComponent := do
  let e ← s[element]?
  let span ← e.span
  let width ← CInt.of (comp.width + span)
  some { comp with elements := comp.elements ++ [element], width }

def addDirectElement (_ : Store (NodeElement N)) (comp : NodeComponent) (element : Nat) :
    Option NodeComponent :=
  some { comp with directElements := comp.directElements ++ [element] }

/-- `addElement` or `addDirectElement`. -/
def add : Side → Store (NodeElement N) → NodeComponent → Nat → Option NodeComponent
  | .elements => addElement
  | .directElements => addDirectElement

/-- Put a list of elements after another one. Where they meet, the last element takes the
first of the others in if they can be merged. -/
def join (compMergable : NodeElement N → NodeElement N → Bool) (first second : List Nat)
    (s : Store (NodeElement N)) : Option (List Nat × Store (NodeElement N)) :=
  match first.getLast?, second with
  | some back, front :: rest => do
      let e ← s[back]?
      let other ← s[front]?
      if compMergable e other then
        (NodeElement.merge compMergable back front s).map fun s => (first ++ rest, s)
      else some (first ++ front :: rest, s)
  | _, _ => some (first ++ second, s)

def merge (compMergable : NodeElement N → NodeElement N → Bool) (comp node : NodeComponent)
    (s : Store (NodeElement N)) : Option (NodeComponent × Store (NodeElement N)) := do
  let (elements, s) ← join compMergable comp.elements node.elements s
  let (directElements, s) ← join compMergable comp.directElements node.directElements s
  let width ← CInt.of (comp.width + node.width)
  some (⟨elements, directElements, width⟩, s)

/-- A loop of `dup` over the elements of a list. -/
def dupLoop (side : Side) : List Nat → NodeComponent → Store (NodeElement N) →
    Option (NodeComponent × Store (NodeElement N))
  | [], ret, s => some (ret, s)
  | element :: elements, ret, s => do
      let e ← s[element]?
      let ret ← add side (s ++ [e.dup]) ret s.length
      dupLoop side elements ret (s ++ [e.dup])

def dup (comp : NodeComponent) (s : Store (NodeElement N)) :
    Option (NodeComponent × Store (NodeElement N)) := do
  let (ret, s) ← dupLoop .elements comp.elements new s
  dupLoop .directElements comp.directElements ret s

/-- The loop of `getElementBits` and `getDirectBits` over the elements of the source. -/
def selectLoop (side : Side) (hi lo : CInt) : List Nat → (w : CInt) → (start : Bool) →
    NodeComponent → Store (NodeElement N) → Option (NodeComponent × Store (NodeElement N))
  | [], _, _, comp, s => some (comp, s)
  | element :: elements, w, start, comp, s => do
      let e ← s[element]?
      let memberWidth ← e.span
      let rest ← CInt.of (w - memberWidth)
      let start := start || decide ((w : Int) > hi ∧ (rest : Int) ≤ hi)
      if start then
        let top ← CInt.of (w - 1)
        let selectHigh ← CInt.of (min (hi : Int) top - rest)
        let selectLo ← CInt.of (max (lo : Int) rest - rest)
        let selected ← e.getBits selectHigh selectLo
        let comp ← add side (s ++ [selected]) comp s.length
        if (rest : Int) ≤ lo then some (comp, s ++ [selected])
        else selectLoop side hi lo elements rest start comp (s ++ [selected])
      else selectLoop side hi lo elements rest start comp s

/-- The constant zero above a source of width `w`, with the bound that is left. -/
def pad (side : Side) (w : CInt) (comp : NodeComponent) (hi lo : CInt)
    (s : Store (NodeElement N)) : Option (NodeComponent × CInt × Store (NodeElement N)) :=
  if (hi : Int) ≥ w then do
    let top ← CInt.of (hi - max (lo : Int) w)
    let zero ← NodeElement.ofInt 0 top 0
    let comp ← add side (s ++ [zero]) comp s.length
    let last ← CInt.of (w - 1)
    let hi ← CInt.of (max (lo : Int) last)
    some (comp, hi, s ++ [zero])
  else some (comp, hi, s)

/-- `getElementBits` and `getDirectBits`, for a list of a source of width `w`. -/
def select (side : Side) (elements : List Nat) (w : CInt) (comp : NodeComponent) (hi lo : CInt)
    (s : Store (NodeElement N)) : Option (NodeComponent × Store (NodeElement N)) := do
  let (comp, hi, s) ← pad side w comp hi lo s
  if (hi : Int) < w then selectLoop side hi lo elements w false comp s else some (comp, s)

def getElementBits (comp src : NodeComponent) (hi lo : CInt) (s : Store (NodeElement N)) :
    Option (NodeComponent × Store (NodeElement N)) :=
  select .elements src.elements src.width comp hi lo s

def getDirectBits (comp src : NodeComponent) (hi lo : CInt) (s : Store (NodeElement N)) :
    Option (NodeComponent × Store (NodeElement N)) :=
  select .directElements src.directElements src.width comp hi lo s

def getbits (src : NodeComponent) (hi lo : CInt) (s : Store (NodeElement N)) :
    Option (NodeComponent × Store (NodeElement N)) := do
  let (comp, s) ← getElementBits new src hi lo s
  getDirectBits comp src hi lo s

/-- The loop of `mergeNeighbor` over one list, after some elements. -/
def mergeList (compMergable : NodeElement N → NodeElement N → Bool) :
    (merged elements : List Nat) → Store (NodeElement N) →
      Option (List Nat × Store (NodeElement N))
  | merged, [], s => some (merged, s)
  | merged, element :: elements, s => do
      let (merged, s) ← join compMergable merged [element] s
      mergeList compMergable merged elements s

def mergeNeighbor (compMergable : NodeElement N → NodeElement N → Bool) (comp : NodeComponent)
    (s : Store (NodeElement N)) : Option (NodeComponent × Store (NodeElement N)) := do
  let (elements, s) ← mergeList compMergable [] comp.elements s
  let (directElements, s) ← mergeList compMergable [] comp.directElements s
  some (⟨elements, directElements, comp.width⟩, s)

end NodeComponent

/-- The bits of elements, most significant first. -/
def denote (elements : List (NodeElement N)) : List (Bit N) := elements.flatMap NodeElement.bits

/-- The width of elements. -/
def totalWidth (elements : List (NodeElement N)) : Int :=
  (elements.map fun e => (e.hi : Int) - e.lo + 1).sum

namespace NodeComponent

/-- The elements of a list of a component. -/
def cells (s : Store (NodeElement N)) (comp : NodeComponent) (side : Side) :
    List (NodeElement N) := contents s (comp.list side)

structure WellFormed (s : Store (NodeElement N)) (comp : NodeComponent) : Prop where
  elements : ∀ side, ∀ place ∈ comp.list side, ∃ e, s[place]? = some e ∧ e.WellFormed
  width : ∀ side, (comp.width : Int) = totalWidth (comp.cells s side)

/-- The places of a component. -/
def places (comp : NodeComponent) : List Nat := comp.elements ++ comp.directElements

end NodeComponent

section Lists

variable {elements others : List (NodeElement N)}

@[simp] theorem denote_nil : denote ([] : List (NodeElement N)) = [] := rfl

@[simp] theorem totalWidth_nil : totalWidth ([] : List (NodeElement N)) = 0 := rfl

@[simp] theorem denote_cons (e : NodeElement N) (elements : List (NodeElement N)) :
    denote (e :: elements) = e.bits ++ denote elements := rfl

@[simp] theorem denote_append (elements others : List (NodeElement N)) :
    denote (elements ++ others) = denote elements ++ denote others := List.flatMap_append

@[simp] theorem totalWidth_cons (e : NodeElement N) (elements : List (NodeElement N)) :
    totalWidth (e :: elements) = ((e.hi : Int) - e.lo + 1) + totalWidth elements := by
  simp [totalWidth]

@[simp] theorem totalWidth_append (elements others : List (NodeElement N)) :
    totalWidth (elements ++ others) = totalWidth elements + totalWidth others := by
  simp [totalWidth]

/-- Well-formed elements have as many bits as they are wide. -/
theorem length_denote (formed : ∀ e ∈ elements, e.WellFormed) :
    ((denote elements).length : Int) = totalWidth elements := by
  induction elements with
  | nil => rfl
  | cons e elements ih =>
      rw [denote_cons, List.length_append, totalWidth_cons, Int.natCast_add,
        ih fun other member => formed other (List.mem_cons_of_mem _ member),
        NodeElement.length_bits, (formed e List.mem_cons_self).width_eq]

theorem totalWidth_nonneg (formed : ∀ e ∈ elements, e.WellFormed) : 0 ≤ totalWidth elements := by
  rw [← length_denote formed]
  exact Int.natCast_nonneg _

end Lists

end SplitNode
