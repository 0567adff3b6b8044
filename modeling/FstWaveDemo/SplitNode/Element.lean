import FstWaveDemo.Bits.Word
import FstWaveDemo.CInt.Checked
import FstWaveDemo.Store.Cells

/-! # Elements of split nodes

`NodeElement` of `splitNode.h`. Elements are cells of a store, since components hold
pointers to them and `merge` changes the element that it is called on. An element denotes
bits, most significant first (`SplitNode.NodeElement.bits`). Numbers of type `int` must not
overflow; `mpz_t` values are never negative, since they are masked when they are made.
-/

namespace SplitNode

open Bits (slice word)

variable {N : Type}

inductive ElementType
  | ELE_EMPTY | ELE_NODE | ELE_INT | ELE_SPACE
  deriving DecidableEq

inductive OPLevel
  | OPL_BITS | OPL_LOGI | OPL_ARITH
  deriving DecidableEq

/-- `std::tuple<Node*, int, int, OPLevel>`. -/
structure Refer (N : Type) where
  node : Option N
  hi : CInt
  lo : CInt
  level : OPLevel

structure NodeElement (N : Type) where
  eleType : ElementType
  node : Option N
  val : Nat
  hi : CInt
  lo : CInt
  referNodes : List (Refer N)

namespace Refer

/-- The bounds that `getBits` computes for a copy of a reference. -/
def select (hi lo : CInt) (refer : Refer N) : Option (Refer N) :=
  if refer.level ≠ .OPL_ARITH then do
    let high ← CInt.of (refer.lo + hi)
    let low ← CInt.of (refer.lo + lo)
    some { refer with hi := high, lo := low }
  else some refer

end Refer

namespace NodeElement

/-- `hi - lo + 1`. -/
def span (e : NodeElement N) : Option CInt := do
  let distance ← CInt.of (e.hi - e.lo)
  CInt.of (distance + 1)

def updateWidth (e : NodeElement N) : Option (NodeElement N) := do
  let val := if (e.lo : Int) ≠ 0 then e.val >>> e.lo.bitcnt else e.val
  let span ← e.span
  let mask := 1 <<< span.bitcnt - 1
  let hi ← CInt.of (e.hi - e.lo)
  some { e with val := val &&& mask, hi, lo := 0 }

/-- `NodeElement(str, base, hi, lo)`, for a string with the given value. -/
def ofInt (value : Nat) (hi lo : CInt) : Option (NodeElement N) :=
  updateWidth ⟨.ELE_INT, none, value, hi, lo, []⟩

def dup (e : NodeElement N) : NodeElement N :=
  ⟨e.eleType, e.node, e.val, e.hi, e.lo, e.referNodes⟩

/-- The copy in `getBits`, with the selected bounds. -/
def rebase (ret : NodeElement N) (hi lo : CInt) : Option (NodeElement N) :=
  if ret.eleType = .ELE_NODE then do
    let high ← CInt.of (hi + ret.lo)
    let low ← CInt.of (lo + ret.lo)
    some { ret with hi := high, lo := low }
  else if ret.eleType = .ELE_INT then updateWidth { ret with hi, lo }
  else some { ret with hi, lo }

/-- `getBits`; none if its assertion fails. The loop over the references changes copies of
them only. -/
def getBits (e : NodeElement N) (hi lo : CInt) : Option (NodeElement N) := do
  let span ← e.span
  if (hi : Int) ≤ span then
    let ret ← e.dup.rebase hi lo
    let _ ← ret.referNodes.mapM (Refer.select hi lo)
    some ret
  else none

/-- `self->merge(ele)`; none if its assertion fails. The fields of `ele` are read where the
code reads them, as it may be the same element. -/
def merge (compMergable : NodeElement N → NodeElement N → Bool) (self ele : Nat)
    (s : Store (NodeElement N)) : Option (Store (NodeElement N)) := do
  let e ← s[self]?
  let other ← s[ele]?
  if compMergable e other then
    if e.eleType = .ELE_NODE then
      let e := { e with lo := other.lo }
      let other ← (s.set self e)[ele]?
      some (s.set self { e with referNodes := [⟨other.node, e.hi, e.lo, .OPL_BITS⟩] })
    else if e.eleType = .ELE_INT then
      let distance ← CInt.of (other.hi - e.lo)
      let count ← CInt.of (distance + 1)
      let e := { e with val := e.val <<< count.bitcnt }
      let other ← (s.set self e)[ele]?
      let e := { e with val := e.val + other.val }
      let other ← (s.set self e)[ele]?
      let more ← CInt.of (other.hi + 1)
      let hi ← CInt.of (e.hi + more)
      let e ← updateWidth { e with hi }
      some (s.set self e)
    else some s
  else none

end NodeElement

/-- A bit of a component. -/
inductive Bit (N : Type)
  /-- A bit of a node. -/
  | node (node : Option N) (index : Int)
  /-- A known bit. -/
  | const (value : Bool)
  /-- A bit of which nothing is known. -/
  | unknown
  deriving DecidableEq

namespace NodeElement

/-- The number of bits of an element. -/
def width (e : NodeElement N) : Nat := ((e.hi : Int) - e.lo + 1).toNat

/-- The bit at a position of an element. -/
def bit (e : NodeElement N) (i : Nat) : Bit N :=
  match e.eleType with
  | .ELE_NODE => .node e.node (e.lo + i)
  | .ELE_INT => .const (e.val.testBit i)
  | .ELE_SPACE => .unknown
  | .ELE_EMPTY => .unknown

/-- The bits of an element, most significant first. -/
def bits (e : NodeElement N) : List (Bit N) := word e.width e.bit

structure WellFormed (e : NodeElement N) : Prop where
  order : (e.lo : Int) ≤ e.hi
  low : e.eleType = .ELE_INT → (e.lo : Int) = 0
  small : e.eleType = .ELE_INT → e.val < 2 ^ ((e.hi : Int) + 1).toNat

/-- The bounds of the references do not overflow when bits of the element are selected. -/
def Refers (e : NodeElement N) : Prop :=
  ∀ refer ∈ e.referNodes, refer.level ≠ .OPL_ARITH → (refer.lo : Int) + (e.hi - e.lo) < 2 ^ 31

variable {e ele : NodeElement N} {hi lo : CInt}

theorem length_bits (e : NodeElement N) : e.bits.length = e.width := Bits.length_word _ _

theorem WellFormed.width_eq (formed : e.WellFormed) :
    (e.width : Int) = (e.hi : Int) - e.lo + 1 := by
  have order := formed.order
  rw [width]
  omega

theorem span_eq (order : (e.lo : Int) ≤ e.hi) (room : (e.hi : Int) - e.lo + 1 < 2 ^ 31) :
    ∃ span, e.span = some span ∧ (span : Int) = (e.hi : Int) - e.lo + 1 := by
  obtain ⟨distance, found, same⟩ := @CInt.exists_of (e.hi - e.lo) (by omega) (by omega)
  obtain ⟨span, found', same'⟩ := @CInt.exists_of (distance + 1) (by omega) (by omega)
  refine ⟨span, ?_, by omega⟩
  change (CInt.of (e.hi - e.lo)).bind (fun distance => CInt.of (distance + 1)) = _
  rw [found]
  exact found'

/-- A masked value has the bits below the mask, shifted. -/
theorem testBit_masked (value shift count i : Nat) (below : i < count) :
    (value >>> shift &&& 1 <<< count - 1).testBit i = value.testBit (shift + i) := by
  rw [Nat.shiftLeft_eq, Nat.one_mul, Nat.and_two_pow_sub_one_eq_mod, Nat.testBit_mod_two_pow,
    decide_eq_true below, Bool.true_and, Nat.testBit_shiftRight]

theorem masked_lt (value count : Nat) : (value &&& 1 <<< count - 1) < 2 ^ count := by
  rw [Nat.shiftLeft_eq, Nat.one_mul, Nat.and_two_pow_sub_one_eq_mod]
  exact Nat.mod_lt _ (Nat.two_pow_pos count)

/-- What `updateWidth` does to a value from position `lo` on. -/
theorem updateWidth_spec (integer : e.eleType = .ELE_INT) (low : 0 ≤ (e.lo : Int))
    (order : (e.lo : Int) ≤ e.hi) (room : (e.hi : Int) - e.lo + 1 < 2 ^ 31) :
    ∃ ret, e.updateWidth = some ret ∧ ret.WellFormed ∧ ret.referNodes = e.referNodes ∧
      (ret.hi : Int) - ret.lo = e.hi - e.lo ∧
      ret.bits = word ((e.hi : Int) - e.lo + 1).toNat fun i =>
        .const (e.val.testBit ((e.lo : Int).toNat + i)) := by
  obtain ⟨span, found, same⟩ := span_eq order room
  obtain ⟨hi, found', same'⟩ := @CInt.exists_of (e.hi - e.lo) (by omega) (by omega)
  have count : span.bitcnt = ((e.hi : Int) - e.lo + 1).toNat := by
    rw [CInt.bitcnt_eq (by omega), same]
  have shifted : (if (e.lo : Int) ≠ 0 then e.val >>> e.lo.bitcnt else e.val) =
      e.val >>> (e.lo : Int).toNat := by
    split
    · rw [CInt.bitcnt_eq low]
    · rename_i zero
      rw [Classical.not_not.mp zero]
      rfl
  refine ⟨{ e with
    val := e.val >>> (e.lo : Int).toNat &&& 1 <<< ((e.hi : Int) - e.lo + 1).toNat - 1
    hi
    lo := 0 }, ?_, ⟨?_, fun _ => rfl, fun _ => ?_⟩, rfl, ?_, ?_⟩
  · change e.span.bind (fun span => (CInt.of (e.hi - e.lo)).bind _) = _
    rw [found, Option.bind_some, found', shifted, count]
    rfl
  · change (0 : Int) ≤ hi
    omega
  · have wide : ((hi : Int) + 1).toNat = ((e.hi : Int) - e.lo + 1).toNat := by omega
    change _ < 2 ^ ((hi : Int) + 1).toNat
    rw [wide]
    exact masked_lt _ _
  · exact (Int.sub_zero _).trans same'
  · have wide : ((hi : Int) - (0 : CInt) + 1).toNat = ((e.hi : Int) - e.lo + 1).toNat := by
      rw [CInt.coe_zero, Int.sub_zero, same']
    rw [bits, width, wide]
    refine Bits.word_congr fun i below => ?_
    simp only [bit, integer]
    rw [testBit_masked _ _ _ _ below]

/-- The loop over the references does not overflow. -/
theorem select_isSome (refers : e.Refers) (low : 0 ≤ (lo : Int)) (order : (lo : Int) ≤ hi)
    (inside : (hi : Int) ≤ e.hi - e.lo) :
    ∃ copies, e.referNodes.mapM (Refer.select hi lo) = some copies := by
  have each (refer : Refer N) (member : refer ∈ e.referNodes) :
      ∃ copy, Refer.select hi lo refer = some copy := by
    rw [Refer.select]
    split
    · rename_i level
      have least := refer.lo.low
      have room := refers refer member level
      obtain ⟨high, found, -⟩ := @CInt.exists_of (refer.lo + hi) (by omega) (by omega)
      obtain ⟨low, found', -⟩ := @CInt.exists_of (refer.lo + lo) (by omega) (by omega)
      exact ⟨{ refer with hi := high, lo := low }, by rw [found, found']; rfl⟩
    · exact ⟨refer, rfl⟩
  generalize e.referNodes = refers at each
  induction refers with
  | nil => exact ⟨[], rfl⟩
  | cons refer refers ih =>
      obtain ⟨copy, found⟩ := each refer List.mem_cons_self
      obtain ⟨copies, found'⟩ := ih fun other member => each other (List.mem_cons_of_mem _ member)
      exact ⟨copy :: copies, by rw [List.mapM_cons, found, found']; rfl⟩

/-- The bits of the copy in `getBits`. -/
theorem rebase_spec (room : (e.hi : Int) - e.lo + 1 < 2 ^ 31) (low : 0 ≤ (lo : Int))
    (order : (lo : Int) ≤ hi) (inside : (hi : Int) < e.hi - e.lo + 1) :
    ∃ ret, e.rebase hi lo = some ret ∧ ret.referNodes = e.referNodes ∧ ret.WellFormed ∧
      (ret.hi : Int) - ret.lo = hi - lo ∧
      ret.bits = slice (hi : Int).toNat (lo : Int).toNat e.bits := by
  have sliced : slice (hi : Int).toNat (lo : Int).toNat e.bits =
      word ((hi : Int).toNat + 1 - (lo : Int).toNat) fun i => e.bit ((lo : Int).toNat + i) :=
    Bits.slice_word e.bit (by rw [width]; omega)
  have wide : ((hi : Int) - lo + 1).toNat = (hi : Int).toNat + 1 - (lo : Int).toNat := by omega
  rw [sliced]
  cases kind : e.eleType with
  | ELE_NODE =>
      have above := e.hi.high
      have below := e.lo.low
      obtain ⟨high, found, same⟩ := @CInt.exists_of (hi + e.lo) (by omega) (by omega)
      obtain ⟨least, found', same'⟩ := @CInt.exists_of (lo + e.lo) (by omega) (by omega)
      refine ⟨{ e with hi := high, lo := least }, ?_, rfl, ⟨?_, fun int => ?_, fun int => ?_⟩, ?_,
        ?_⟩
      · rw [rebase, if_pos kind, found, found']
        rfl
      · change (least : Int) ≤ high
        omega
      · exact absurd (kind.symm.trans int) (by decide)
      · exact absurd (kind.symm.trans int) (by decide)
      · change (high : Int) - least = hi - lo
        omega
      · have count : ((high : Int) - least + 1).toNat =
            (hi : Int).toNat + 1 - (lo : Int).toNat := by omega
        rw [bits, width]
        change word ((high : Int) - least + 1).toNat _ = _
        rw [count]
        refine Bits.word_congr fun i _ => ?_
        simp only [bit, kind]
        congr 1
        omega
  | ELE_INT =>
      obtain ⟨ret, updated, formed, kept, width', bits'⟩ :=
        @updateWidth_spec N { e with hi, lo } kind
        low order (show (hi : Int) - lo + 1 < 2 ^ 31 by omega)
      refine ⟨ret, ?_, kept, formed, width', bits'.trans ?_⟩
      · rw [rebase, if_neg (by rw [kind]; decide), if_pos kind, updated]
      · change word ((hi : Int) - lo + 1).toNat _ = _
        rw [wide]
        refine Bits.word_congr fun i _ => ?_
        simp only [bit, kind]
  | ELE_SPACE | ELE_EMPTY =>
      refine ⟨{ e with hi, lo }, ?_, rfl, ⟨order, fun int => ?_, fun int => ?_⟩, rfl, ?_⟩
      · rw [rebase, if_neg (by rw [kind]; decide), if_neg (by rw [kind]; decide)]
      · exact absurd (kind.symm.trans int) (by decide)
      · exact absurd (kind.symm.trans int) (by decide)
      · rw [bits, width]
        change word ((hi : Int) - lo + 1).toNat _ = _
        rw [wide]
        refine Bits.word_congr fun i _ => ?_
        simp only [bit, kind]

/-- The bits that `getBits` selects. -/
theorem getBits_spec (refers : e.Refers) (room : (e.hi : Int) - e.lo + 1 < 2 ^ 31)
    (low : 0 ≤ (lo : Int)) (order : (lo : Int) ≤ hi) (inside : (hi : Int) < e.hi - e.lo + 1) :
    ∃ ret, e.getBits hi lo = some ret ∧ ret.WellFormed ∧ (ret.hi : Int) - ret.lo = hi - lo ∧
      ret.bits = slice (hi : Int).toNat (lo : Int).toNat e.bits := by
  obtain ⟨span, found, same⟩ := @span_eq N e (by omega) room
  obtain ⟨ret, based, kept, formed, width', bits'⟩ := @rebase_spec N e hi lo room low order inside
  obtain ⟨copies, copied⟩ := select_isSome refers low order (by omega)
  refine ⟨ret, ?_, formed, width', bits'⟩
  change e.span.bind _ = _
  rw [found, Option.bind_some, if_pos (by omega)]
  change (e.rebase hi lo).bind _ = _
  rw [based, Option.bind_some, kept, copied]
  rfl

/-- Which elements `compMergable` lets merge. -/
def Mergable (compMergable : NodeElement N → NodeElement N → Bool) : Prop :=
  ∀ first second, compMergable first second = true →
    (first.eleType = .ELE_INT ∧ second.eleType = .ELE_INT) ∨
      (first.eleType = .ELE_NODE ∧ second.eleType = .ELE_NODE ∧ first.node = second.node ∧
        (first.lo : Int) = second.hi + 1)

variable {compMergable : NodeElement N → NodeElement N → Bool} {s : Store (NodeElement N)}
  {self other : Nat}

/-- An element that takes another one in has the bits of both. -/
theorem merge_spec (mergable : Mergable compMergable) (apart : self ≠ other)
    (here : s[self]? = some e) (there : s[other]? = some ele) (formed : e.WellFormed)
    (formed' : ele.WellFormed) (allowed : compMergable e ele = true)
    (room : ((e.hi : Int) - e.lo + 1) + ((ele.hi : Int) - ele.lo + 1) < 2 ^ 31) :
    ∃ ret, merge compMergable self other s = some (s.set self ret) ∧ ret.WellFormed ∧
      (ret.hi : Int) - ret.lo + 1 = ((e.hi : Int) - e.lo + 1) + ((ele.hi : Int) - ele.lo + 1) ∧
      ret.bits = e.bits ++ ele.bits := by
  have order := formed.order
  have order' := formed'.order
  have wide := formed.width_eq
  have wide' := formed'.width_eq
  -- writing one element leaves the other as it is
  have still (value : NodeElement N) : (s.set self value)[other]? = some ele :=
    (List.getElem?_set_ne apart).trans there
  rcases mergable e ele allowed with ⟨kind, kind'⟩ | ⟨kind, kind', same, next⟩
  · have low := formed.low kind
    have low' := formed'.low kind'
    have small := formed.small kind
    have small' := formed'.small kind'
    obtain ⟨distance, found₁, same₁⟩ := @CInt.exists_of (ele.hi - e.lo) (by omega) (by omega)
    obtain ⟨count, found₂, same₂⟩ := @CInt.exists_of (distance + 1) (by omega) (by omega)
    obtain ⟨more, found₃, same₃⟩ := @CInt.exists_of (ele.hi + 1) (by omega) (by omega)
    obtain ⟨hi, found₄, same₄⟩ := @CInt.exists_of (e.hi + more) (by omega) (by omega)
    have shift : count.bitcnt = ele.width := by
      rw [CInt.bitcnt_eq (by omega)]
      omega
    obtain ⟨ret, updated, formed'', -, length, bits'⟩ := @updateWidth_spec N
      { e with val := e.val <<< count.bitcnt + ele.val, hi } kind (show 0 ≤ (e.lo : Int) by omega)
      (show (e.lo : Int) ≤ hi by omega) (show (hi : Int) - e.lo + 1 < 2 ^ 31 by omega)
    have length : (ret.hi : Int) - ret.lo = hi - e.lo := length
    refine ⟨ret, ?_, formed'', by omega, bits'.trans ?_⟩
    · simp only [kind] at updated
      simp only [merge, bind, here, there, Option.bind_some, allowed, if_true, kind,
        reduceCtorEq, if_false, found₁, found₂, still, found₃, found₄, updated]
    · have sum : ((hi : Int) - e.lo + 1).toNat = e.width + ele.width := by omega
      have first : (e.lo : Int).toNat = 0 := by omega
      have top : ((ele.hi : Int) + 1).toNat = ele.width := by omega
      rw [top] at small'
      simp only [sum, shift, first, Nat.zero_add]
      rw [Bits.word_append, bits, bits]
      congr 1
      · refine Bits.word_congr fun i _ => ?_
        rw [bit, kind, Nat.shiftLeft_eq, Nat.mul_comm, Nat.testBit_two_pow_mul_add _ small',
          if_neg (by omega), Nat.add_sub_cancel_left]
      · refine Bits.word_congr fun i below => ?_
        rw [bit, kind', Nat.shiftLeft_eq, Nat.mul_comm, Nat.testBit_two_pow_mul_add _ small',
          if_pos below]
  · refine ⟨{ e with lo := ele.lo, referNodes := [⟨ele.node, e.hi, ele.lo, .OPL_BITS⟩] }, ?_,
      ⟨?_, fun int => ?_, fun int => ?_⟩, ?_, ?_⟩
    · simp only [merge, bind, here, there, Option.bind_some, allowed, if_true, kind, still]
    · change (ele.lo : Int) ≤ e.hi
      omega
    · exact absurd (kind.symm.trans int) (by decide)
    · exact absurd (kind.symm.trans int) (by decide)
    · change (e.hi : Int) - ele.lo + 1 = _
      omega
    · have sum : ((e.hi : Int) - ele.lo + 1).toNat = e.width + ele.width := by omega
      rw [bits, width]
      change word ((e.hi : Int) - ele.lo + 1).toNat _ = _
      rw [sum, Bits.word_append, bits, bits]
      congr 1
      · refine Bits.word_congr fun i _ => ?_
        simp only [bit, kind]
        congr 1
        omega
      · refine Bits.word_congr fun i _ => ?_
        simp only [bit, kind, kind', same]

end NodeElement

end SplitNode
