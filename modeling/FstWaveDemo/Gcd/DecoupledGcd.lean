import FstWaveDemo.Clocked.Server
import Mathlib

/-! # The decoupled greatest common divisor

`DecoupledGcd` of the Chisel example: a server that takes a pair of operands when it
is idle, subtracts the smaller from the larger until one of them is zero, and holds
the result until the consumer takes it. Registers without a reset value hold anything
at the start. It answers every accepted request once and in order
(`Gcd.DecoupledGcd.delivers_in_order`).
-/

namespace Gcd

/-- The fields of `input.bits` and the two handshake signals driven from outside. -/
structure DecoupledInput (width : Nat) where
  valid : Bool
  value1 : BitVec width
  value2 : BitVec width
  ready : Bool

/-- `GcdOutputBundle`. -/
structure GcdOutputBundle (width : Nat) where
  value1 : BitVec width
  value2 : BitVec width
  gcd : BitVec width
  deriving DecidableEq

/-- The registers of `DecoupledGcd`. -/
structure DecoupledGcd (width : Nat) where
  xInitial : BitVec width
  yInitial : BitVec width
  x : BitVec width
  y : BitVec width
  busy : Bool
  resultValid : Bool

/-- The greatest common divisor of two operands. -/
def gcdOf {width : Nat} (a b : BitVec width) : BitVec width :=
  BitVec.ofNat width (Nat.gcd a.toNat b.toNat)

/-- The result for a pair of operands. -/
def answer {width : Nat} (request : BitVec width × BitVec width) : GcdOutputBundle width :=
  ⟨request.1, request.2, gcdOf request.1 request.2⟩

namespace DecoupledGcd

variable {width : Nat}

/-- `input.ready`. -/
def inputReady (s : DecoupledGcd width) : Bool := !s.busy

/-- `output.valid`. -/
def outputValid (s : DecoupledGcd width) : Bool := s.resultValid

/-- `output.bits`: only driven while an operand is zero, otherwise `DontCare`. -/
def outputBits (s : DecoupledGcd width) : Option (GcdOutputBundle width) :=
  if s.busy = true ∧ (s.x = 0 ∨ s.y = 0) then
    some ⟨s.xInitial, s.yInitial, if s.x = 0 then s.y else s.x⟩
  else none

/-- The registers after a cycle. -/
def next (s : DecoupledGcd width) (i : DecoupledInput width) : DecoupledGcd width :=
  if s.busy = true then
    let s' := if s.x > s.y then { s with x := s.x - s.y } else { s with y := s.y - s.x }
    if s.x = 0 ∨ s.y = 0 then
      if i.ready = true ∧ s.resultValid = true then { s' with busy := false, resultValid := false }
      else { s' with resultValid := true }
    else s'
  else if i.valid = true then
    { s with
      x := i.value1, y := i.value2, xInitial := i.value1, yInitial := i.value2, busy := true }
  else s

/-- The registers after reset. -/
structure Reset (s : DecoupledGcd width) : Prop where
  idle : s.busy = false
  invalid : s.resultValid = false

/-- The request accepted in a cycle. -/
def accepts (s : DecoupledGcd width) (i : DecoupledInput width) :
    List (BitVec width × BitVec width) :=
  if i.valid = true ∧ s.inputReady = true then [(i.value1, i.value2)] else []

/-- What the consumer takes in a cycle. -/
def delivers (s : DecoupledGcd width) (i : DecoupledInput width) :
    List (Option (GcdOutputBundle width)) :=
  if s.outputValid = true ∧ i.ready = true then [s.outputBits] else []

/-- The invariant: an idle machine has no request pending, a busy one exactly one,
whose divisor is still that of the operands. -/
def Pending (s : DecoupledGcd width) : List (BitVec width × BitVec width) → Prop
  | [] => s.busy = false ∧ s.resultValid = false
  | [(a, b)] => s.busy = true ∧ s.xInitial = a ∧ s.yInitial = b ∧
      Nat.gcd s.x.toNat s.y.toNat = Nat.gcd a.toNat b.toNat ∧
      (s.resultValid = true → s.x = 0 ∨ s.y = 0)
  | _ => False

section Datapath

variable {s : DecoupledGcd width}

/-- A subtraction keeps the greatest common divisor. -/
theorem gcd_subtract (x y : BitVec width) :
    (x > y → Nat.gcd (x - y).toNat y.toNat = Nat.gcd x.toNat y.toNat) ∧
      (¬ x > y → Nat.gcd x.toNat (y - x).toNat = Nat.gcd x.toNat y.toNat) := by
  constructor
  · intro greater
    have below : y.toNat < x.toNat := greater
    rw [BitVec.toNat_sub_of_le (BitVec.le_def.mpr (Nat.le_of_lt below)),
      Nat.gcd_sub_self_left (Nat.le_of_lt below)]
  · intro smaller
    have above : x.toNat ≤ y.toNat := Nat.le_of_not_lt smaller
    rw [BitVec.toNat_sub_of_le (BitVec.le_def.mpr above), Nat.gcd_sub_self_right above]

/-- With a zero operand the datapath stands still. -/
theorem subtract_zero {x y : BitVec width} (terminal : x = 0 ∨ y = 0) :
    (x > y → x - y = x) ∧ (¬ x > y → y - x = y) := by
  constructor
  · intro greater
    rcases terminal with rfl | rfl
    · exact absurd greater (BitVec.not_lt_zero)
    · exact BitVec.sub_zero x
  · intro smaller
    rcases terminal with rfl | rfl
    · exact BitVec.sub_zero y
    · have zero : x = 0 := BitVec.le_zero_iff.mp (BitVec.not_lt.mp smaller)
      rw [zero]
      exact BitVec.sub_zero 0

/-- The driven result is the greatest common divisor of the operands. -/
theorem outputBits_of_terminal (busy : s.busy = true) (terminal : s.x = 0 ∨ s.y = 0)
    {a b : BitVec width} (first : s.xInitial = a) (second : s.yInitial = b)
    (same : Nat.gcd s.x.toNat s.y.toNat = Nat.gcd a.toNat b.toNat) :
    s.outputBits = some (answer (a, b)) := by
  have value : (if s.x = 0 then s.y else s.x) = gcdOf a b := by
    rw [gcdOf, ← same]
    split
    · rename_i zero
      simp [zero]
    · rename_i some
      simp [terminal.resolve_left some]
  rw [outputBits, if_pos ⟨busy, terminal⟩, value, first, second, answer]

/-- An idle machine. -/
theorem next_idle (idle : s.busy = false) (i : DecoupledInput width) :
    s.next i = if i.valid = true then
      ⟨i.value1, i.value2, i.value1, i.value2, true, s.resultValid⟩ else s := by
  rw [next, if_neg (by rw [idle]; decide)]

/-- A busy machine whose operands are not zero subtracts. -/
theorem next_subtract (busy : s.busy = true) (some : s.x ≠ 0 ∧ s.y ≠ 0)
    (i : DecoupledInput width) :
    s.next i = if s.x > s.y then { s with x := s.x - s.y } else { s with y := s.y - s.x } := by
  rw [next, if_pos busy]
  exact if_neg (not_or.mpr some)

/-- A busy machine with a zero operand waits for the consumer. -/
theorem next_terminal (busy : s.busy = true) (terminal : s.x = 0 ∨ s.y = 0)
    (i : DecoupledInput width) :
    s.next i = if i.ready = true ∧ s.resultValid = true then
        { s with busy := false, resultValid := false }
      else { s with resultValid := true } := by
  have still :
      (if s.x > s.y then { s with x := s.x - s.y } else { s with y := s.y - s.x }) = s := by
    split
    · rename_i greater
      rw [(subtract_zero terminal).1 greater]
    · rename_i smaller
      rw [(subtract_zero terminal).2 smaller]
  rw [next, if_pos busy, still]
  exact if_pos terminal

/-- A subtraction of operands that are not zero makes their sum smaller. -/
theorem next_decreases (busy : s.busy = true) (some : s.x ≠ 0 ∧ s.y ≠ 0)
    (i : DecoupledInput width) :
    (s.next i).x.toNat + (s.next i).y.toNat < s.x.toNat + s.y.toNat := by
  have positive {v : BitVec width} (nonzero : v ≠ 0) : 0 < v.toNat :=
    Nat.pos_of_ne_zero fun zero => nonzero (BitVec.eq_of_toNat_eq (by simpa using zero))
  have first := positive some.1
  have second := positive some.2
  rw [next_subtract busy some]
  split
  · rename_i greater
    have below : s.y.toNat < s.x.toNat := greater
    change (s.x - s.y).toNat + s.y.toNat < _
    rw [BitVec.toNat_sub_of_le (BitVec.le_def.mpr (Nat.le_of_lt below))]
    omega
  · rename_i smaller
    have above : s.x.toNat ≤ s.y.toNat := Nat.le_of_not_lt smaller
    change s.x.toNat + (s.y - s.x).toNat < _
    rw [BitVec.toNat_sub_of_le (BitVec.le_def.mpr above)]
    omega

/-- A valid result belongs to the pending request. -/
theorem Pending.valid {pending : List (BitVec width × BitVec width)} (held : s.Pending pending)
    (valid : s.resultValid = true) :
    ∃ request, pending = [request] ∧ s.busy = true ∧ (s.x = 0 ∨ s.y = 0) ∧
      s.outputBits = some (answer request) := by
  match pending with
  | [] => exact absurd (held.2.symm.trans valid) (by decide)
  | [(a, b)] =>
      obtain ⟨busy, first, second, same, terminal⟩ := held
      exact ⟨(a, b), rfl, busy, terminal valid,
        outputBits_of_terminal busy (terminal valid) first second same⟩

end Datapath

/-- One cycle keeps the invariant. -/
theorem serves : Clocked.Serves (S := DecoupledGcd width) next accepts delivers
    (fun request => some (answer request)) Pending := by
  intro s i pending held
  match pending with
  | [] =>
      obtain ⟨idle, invalid⟩ := held
      have silent : delivers s i = [] := if_neg fun ⟨valid, _⟩ =>
        absurd (invalid.symm.trans valid) (by decide)
      rw [next_idle idle, silent]
      by_cases requested : i.valid = true
      · have taken : accepts s i = [(i.value1, i.value2)] :=
          if_pos ⟨requested, by rw [inputReady, idle]; rfl⟩
        rw [if_pos requested, taken]
        exact ⟨[], _, rfl, rfl, rfl, rfl, rfl, rfl, fun valid =>
          absurd (invalid.symm.trans valid) (by decide)⟩
      · have none : accepts s i = [] := if_neg fun both => requested both.1
        rw [if_neg requested, none]
        exact ⟨[], [], rfl, rfl, idle, invalid⟩
  | [(a, b)] =>
      obtain ⟨busy, first, second, same, terminal⟩ := held
      have none : accepts s i = [] := if_neg fun ⟨_, ready⟩ => by
        rw [inputReady, busy] at ready
        exact absurd ready (by decide)
      rw [none, List.append_nil]
      by_cases zero : s.x = 0 ∨ s.y = 0
      · rw [next_terminal busy zero]
        by_cases taken : i.ready = true ∧ s.resultValid = true
        · have delivered : delivers s i = [some (answer (a, b))] := by
            rw [delivers, outputValid, if_pos ⟨taken.2, taken.1⟩,
              outputBits_of_terminal busy zero first second same]
          rw [if_pos taken, delivered]
          exact ⟨[(a, b)], [], rfl, rfl, rfl, rfl⟩
        · have kept : delivers s i = [] := if_neg fun both => taken ⟨both.2, both.1⟩
          rw [if_neg taken, kept]
          exact ⟨[], [(a, b)], rfl, rfl, busy, first, second, same, fun _ => zero⟩
      · have invalid : s.resultValid ≠ true := fun valid => zero (terminal valid)
        have kept : delivers s i = [] := if_neg fun both => invalid both.1
        rw [next_subtract busy (not_or.mp zero), kept]
        refine ⟨[], [(a, b)], rfl, rfl, ?_⟩
        split
        · rename_i greater
          exact ⟨busy, first, second, ((gcd_subtract s.x s.y).1 greater).trans same,
            fun valid => absurd valid invalid⟩
        · rename_i smaller
          exact ⟨busy, first, second, ((gcd_subtract s.x s.y).2 smaller).trans same,
            fun valid => absurd valid invalid⟩

/-- The invariant holds after reset. -/
theorem Reset.pending {s : DecoupledGcd width} (reset : s.Reset) : s.Pending [] :=
  ⟨reset.idle, reset.invalid⟩

/-- **Service of requests.** After reset and under any stalls, in every cycle: the
results delivered so far answer an initial part of the accepted requests in order, and
at most one request is pending; a valid result is driven and is that of the pending
request; a result that is not taken is shown again; and a busy machine makes progress. -/
theorem delivers_in_order {start : DecoupledGcd width} (reset : start.Reset)
    (inputs : Nat → DecoupledInput width) (cycle : Nat) :
    ∃ done pending,
      Clocked.collect next start inputs accepts cycle = done ++ pending ∧
      Clocked.collect next start inputs delivers cycle =
        done.map (fun request => some (answer request)) ∧
      pending.length ≤ 1 ∧
      ∀ s s', s = Clocked.run next start inputs cycle →
        s' = Clocked.run next start inputs (cycle + 1) →
        (s.outputValid = true → ∃ request, pending = [request] ∧
          s.outputBits = some (answer request)) ∧
        (s.outputValid = true → (inputs cycle).ready = false →
          s'.outputValid = true ∧ s'.outputBits = s.outputBits) ∧
        (s.busy = true → s.x ≠ 0 ∧ s.y ≠ 0 →
          s'.x.toNat + s'.y.toNat < s.x.toNat + s.y.toNat) ∧
        (s.busy = true → s.x = 0 ∨ s.y = 0 →
          (s.outputValid = true ∧ (inputs cycle).ready = true) ∨ s'.outputValid = true) := by
  obtain ⟨done, pending, accepted, delivered, held⟩ :=
    Clocked.serves serves reset.pending inputs cycle
  refine ⟨done, pending, accepted, delivered, ?_, ?_⟩
  · match pending with
    | [] => exact Nat.zero_le 1
    | [_] => exact Nat.le_refl 1
  intro s s' here later
  have onward : s' = s.next (inputs cycle) := by rw [here, later]; rfl
  rw [← here] at held
  subst onward
  refine ⟨fun valid => ?_, fun valid stalled => ?_, fun busy some => ?_, fun busy zero => ?_⟩
  · obtain ⟨request, same, -, -, bits⟩ := held.valid valid
    exact ⟨request, same, bits⟩
  · obtain ⟨-, -, busy, zero, -⟩ := held.valid valid
    rw [next_terminal busy zero, if_neg fun both => absurd (stalled.symm.trans both.1) (by decide)]
    exact ⟨rfl, rfl⟩
  · exact next_decreases busy some (inputs cycle)
  · by_cases taken : (inputs cycle).ready = true ∧ s.resultValid = true
    · exact Or.inl ⟨taken.2, taken.1⟩
    · rw [next_terminal busy zero, if_neg taken]
      exact Or.inr rfl

/-- A machine of width 16 just after reset, offered the pair (6, 4) in every cycle. -/
theorem delivers_in_order_sample : ∃ done pending,
    Clocked.collect next (⟨1, 2, 3, 4, false, false⟩ : DecoupledGcd 16)
        (fun _ => ⟨true, 6, 4, true⟩) accepts 9 = done ++ pending ∧
      Clocked.collect next (⟨1, 2, 3, 4, false, false⟩ : DecoupledGcd 16)
        (fun _ => ⟨true, 6, 4, true⟩) delivers 9 =
        done.map (fun request => some (answer request)) := by
  obtain ⟨done, pending, accepted, delivered, -⟩ :=
    @delivers_in_order 16 ⟨1, 2, 3, 4, false, false⟩ ⟨rfl, rfl⟩
      (fun _ => ⟨true, 6, 4, true⟩) 9
  exact ⟨done, pending, accepted, delivered⟩

end DecoupledGcd

end Gcd
