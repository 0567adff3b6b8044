import FstWaveDemo.Gcd.DecoupledGcd

/-! # The greatest common divisor

`GCD` of the Chisel example: two registers that are loaded with the operands and then
subtracted from one another until register `y` is zero. It finishes with the greatest common
divisor unless the first operand alone is zero (`Gcd.GCD.finishes_iff`).
-/

namespace Gcd

/-- The inputs of `GCD`. -/
structure GCDInput (width : Nat) where
  value1 : BitVec width
  value2 : BitVec width
  loadingValues : Bool

/-- The registers of `GCD`. -/
structure GCD (width : Nat) where
  x : BitVec width
  y : BitVec width

namespace GCD

variable {width : Nat}

/-- `outputGCD`. -/
def outputGCD (s : GCD width) : BitVec width := s.x

/-- `outputValid`. -/
def outputValid (s : GCD width) : Bool := decide (s.y = 0)

/-- The registers after the subtraction of a cycle. -/
def subtract (s : GCD width) : GCD width :=
  if s.x > s.y then { s with x := s.x - s.y } else { s with y := s.y - s.x }

/-- The registers after a cycle. -/
def next (s : GCD width) (i : GCDInput width) : GCD width :=
  if i.loadingValues = true then ⟨i.value1, i.value2⟩ else s.subtract

/-- The subtraction of a cycle does not wrap. -/
def Exact (s : GCD width) : Prop :=
  (s.x > s.y → ((s.x - s.y).toNat : Int) = s.x.toNat - s.y.toNat) ∧
    (¬ s.x > s.y → ((s.y - s.x).toNat : Int) = s.y.toNat - s.x.toNat)

/-- The operands are loaded in the first cycle, and nothing is loaded in the cycles after it
before the given one. -/
structure Loads (a b : BitVec width) (inputs : Nat → GCDInput width) (cycles : Nat) : Prop where
  loading : (inputs 0).loadingValues = true
  value1 : (inputs 0).value1 = a
  value2 : (inputs 0).value2 = b
  idle : ∀ k < cycles, (inputs (k + 1)).loadingValues = false

/-- Whatever the registers hold before, the machine comes to a valid output if it is left
alone; until the next load, a valid output is the greatest common divisor, and no
subtraction wraps. -/
structure Finishes (a b : BitVec width) : Prop where
  valid : ∀ start inputs, (∀ cycles, Loads a b inputs cycles) →
    ∃ cycle, (Clocked.run next start inputs (cycle + 1)).outputValid = true
  right : ∀ start inputs cycle, Loads a b inputs cycle →
    (Clocked.run next start inputs (cycle + 1)).outputValid = true →
    (Clocked.run next start inputs (cycle + 1)).outputGCD.toNat = Nat.gcd a.toNat b.toNat
  exact : ∀ start inputs cycle, Loads a b inputs cycle →
    (Clocked.run next start inputs (cycle + 1)).Exact

section Cycles

variable {s : GCD width}

theorem next_idle {i : GCDInput width} (idle : i.loadingValues = false) :
    s.next i = s.subtract := by
  rw [next, idle]
  exact if_neg (by decide)

theorem subtract_exact (s : GCD width) : s.Exact := by
  constructor
  · intro greater
    have below : s.y.toNat ≤ s.x.toNat := Nat.le_of_lt greater
    rw [BitVec.toNat_sub_of_le (BitVec.le_def.mpr below), Int.ofNat_sub below]
  · intro smaller
    have above : s.x.toNat ≤ s.y.toNat := Nat.le_of_not_lt smaller
    rw [BitVec.toNat_sub_of_le (BitVec.le_def.mpr above), Int.ofNat_sub above]

/-- A cycle keeps the greatest common divisor. -/
theorem subtract_gcd (s : GCD width) :
    Nat.gcd s.subtract.x.toNat s.subtract.y.toNat = Nat.gcd s.x.toNat s.y.toNat := by
  rw [subtract]
  split
  · rename_i greater
    exact (DecoupledGcd.gcd_subtract s.x s.y).1 greater
  · rename_i smaller
    exact (DecoupledGcd.gcd_subtract s.x s.y).2 smaller

/-- As long as both registers are not zero, a cycle makes their sum smaller, and `x` stays
so. -/
theorem subtract_decreases (some : s.x ≠ 0) (going : s.y ≠ 0) :
    s.subtract.x ≠ 0 ∧ s.subtract.x.toNat + s.subtract.y.toNat < s.x.toNat + s.y.toNat := by
  have positive {v : BitVec width} (nonzero : v ≠ 0) : 0 < v.toNat :=
    Nat.pos_of_ne_zero fun zero => nonzero (BitVec.eq_of_toNat_eq (by simpa using zero))
  have first := positive some
  have second := positive going
  rw [subtract]
  split
  · rename_i greater
    have below : s.y.toNat < s.x.toNat := greater
    have difference : (s.x - s.y).toNat = s.x.toNat - s.y.toNat :=
      BitVec.toNat_sub_of_le (BitVec.le_def.mpr (Nat.le_of_lt below))
    refine ⟨fun zero => ?_, ?_⟩
    · have same : (s.x - s.y).toNat = 0 := by rw [show s.x - s.y = 0 from zero]; simp
      omega
    · change (s.x - s.y).toNat + s.y.toNat < _
      omega
  · rename_i smaller
    have above : s.x.toNat ≤ s.y.toNat := Nat.le_of_not_lt smaller
    have difference : (s.y - s.x).toNat = s.y.toNat - s.x.toNat :=
      BitVec.toNat_sub_of_le (BitVec.le_def.mpr above)
    refine ⟨some, ?_⟩
    change s.x.toNat + (s.y - s.x).toNat < _
    omega

/-- With `x` zero the machine stands still. -/
theorem subtract_still (zero : s.x = 0) : s.subtract = s := by
  have smaller : ¬ s.x > s.y := by
    rw [zero]
    exact BitVec.not_lt_zero
  rw [subtract, if_neg smaller, zero]
  obtain ⟨x, y⟩ := s
  obtain rfl : x = 0 := zero
  exact congrArg (GCD.mk 0) (BitVec.sub_zero y)

end Cycles

section Runs

variable {a b : BitVec width} {start : GCD width} {inputs : Nat → GCDInput width}

/-- The registers after loading. -/
theorem run_loaded (loads : Loads a b inputs 0) :
    Clocked.run next start inputs 1 = ⟨a, b⟩ := by
  change next start (inputs 0) = _
  rw [next, if_pos loads.loading, loads.value1, loads.value2]

/-- A cycle after loading. -/
theorem run_idle (start : GCD width) {cycle : Nat} (loads : Loads a b inputs (cycle + 1)) :
    Clocked.run next start inputs (cycle + 2) =
      (Clocked.run next start inputs (cycle + 1)).subtract :=
  next_idle (loads.idle cycle (Nat.lt_succ_self _))

theorem Loads.earlier {cycle cycles : Nat} (loads : Loads a b inputs cycles) (le : cycle ≤ cycles) :
    Loads a b inputs cycle :=
  ⟨loads.loading, loads.value1, loads.value2,
    fun k below => loads.idle k (Nat.lt_of_lt_of_le below le)⟩

/-- Until the next load, the registers have the greatest common divisor of the operands. -/
theorem run_gcd (start : GCD width) {cycle : Nat} (loads : Loads a b inputs cycle) :
    Nat.gcd (Clocked.run next start inputs (cycle + 1)).x.toNat
      (Clocked.run next start inputs (cycle + 1)).y.toNat = Nat.gcd a.toNat b.toNat := by
  induction cycle with
  | zero => rw [run_loaded loads]
  | succ cycle ih =>
      rw [run_idle start loads, subtract_gcd]
      exact ih (loads.earlier (Nat.le_succ cycle))

/-- From a cycle in which `x` is not zero, a valid output is reached. -/
theorem valid_later (alone : ∀ cycles, Loads a b inputs cycles) (bound cycle : Nat)
    (some : (Clocked.run next start inputs (cycle + 1)).x ≠ 0)
    (below : (Clocked.run next start inputs (cycle + 1)).x.toNat +
      (Clocked.run next start inputs (cycle + 1)).y.toNat ≤ bound) :
    ∃ later, (Clocked.run next start inputs (later + 1)).outputValid = true := by
  induction bound generalizing cycle with
  | zero =>
      refine ⟨cycle, decide_eq_true (BitVec.eq_of_toNat_eq ?_)⟩
      rw [show (0 : BitVec width).toNat = 0 by simp]
      omega
  | succ bound ih =>
      by_cases done : (Clocked.run next start inputs (cycle + 1)).y = 0
      · exact ⟨cycle, decide_eq_true done⟩
      · obtain ⟨some', less⟩ := subtract_decreases some done
        have step := run_idle start (alone (cycle + 1))
        refine @ih (cycle + 1) ?_ ?_
        · rw [step]
          exact some'
        · rw [step]
          omega

/-- If only the first operand is zero, the registers never change. -/
theorem run_still (alone : ∀ cycles, Loads 0 b inputs cycles) (cycle : Nat) :
    Clocked.run next start inputs (cycle + 1) = ⟨0, b⟩ := by
  induction cycle with
  | zero => exact run_loaded (alone 0)
  | succ cycle ih =>
      rw [run_idle start (alone (cycle + 1)), ih]
      exact subtract_still rfl

/-- If only the first operand is zero, the machine does not finish. -/
theorem not_finishes (some : b ≠ 0) : ¬ Finishes 0 b := by
  intro finishes
  let inputs : Nat → GCDInput width := fun
    | 0 => ⟨0, b, true⟩
    | _ => ⟨0, 0, false⟩
  have alone (cycles : Nat) : Loads 0 b inputs cycles := ⟨rfl, rfl, rfl, fun _ _ => rfl⟩
  obtain ⟨cycle, valid⟩ := finishes.valid ⟨0, 0⟩ inputs alone
  rw [run_still alone] at valid
  exact some (of_decide_eq_true valid)

end Runs

/-- **Termination.** The machine finishes with the greatest common divisor exactly if the
first operand is not zero, or both are. -/
theorem finishes_iff (a b : BitVec width) : Finishes a b ↔ a ≠ 0 ∨ b = 0 := by
  constructor
  · intro finishes
    by_contra stuck
    obtain ⟨zero, some⟩ := not_or.mp stuck
    obtain rfl := not_not.mp zero
    exact not_finishes some finishes
  · intro operands
    refine ⟨fun start inputs alone => ?_, fun start inputs cycle loads valid => ?_,
      fun start inputs cycle _ => subtract_exact _⟩
    · rcases operands with some | rfl
      · refine valid_later alone (a.toNat + b.toNat) 0 ?_ ?_
        · rw [run_loaded (alone 0)]
          exact some
        · rw [run_loaded (alone 0)]
      · refine ⟨0, ?_⟩
        rw [run_loaded (alone 0)]
        exact decide_eq_true rfl
    · have same := run_gcd start loads
      have zero : (Clocked.run next start inputs (cycle + 1)).y = 0 := of_decide_eq_true valid
      rw [zero] at same
      rw [outputGCD]
      simpa using same

/-- The pair (0, 1) of 16 bits never finishes. -/
theorem zero_not_finishes : ¬ Finishes (0 : BitVec 16) 1 := not_finishes (by decide)

end GCD

end Gcd
