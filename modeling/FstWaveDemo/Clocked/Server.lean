import Mathlib

/-! # Clocked machines

A machine with one clock is a function from state and input to the next state
(`Clocked.run`), and what it does over time is collected cycle by cycle
(`Clocked.collect`). A machine that keeps accepted requests pending and delivers
results in order serves every request once (`Clocked.serves`).
-/

namespace Clocked

variable {S I A B : Type}

/-- The state in every cycle, from a start state and the inputs of the cycles. -/
def run (next : S → I → S) (start : S) (inputs : Nat → I) : Nat → S
  | 0 => start
  | cycle + 1 => next (run next start inputs cycle) (inputs cycle)

/-- What is emitted in the cycles before a given one. -/
def collect (next : S → I → S) (start : S) (inputs : Nat → I) (emitted : S → I → List A) :
    Nat → List A
  | 0 => []
  | cycle + 1 =>
      collect next start inputs emitted cycle ++
        emitted (run next start inputs cycle) (inputs cycle)

/-- One cycle of a server: of the pending and the accepted requests, an initial part is
answered and the others are pending next. -/
def Serves (next : S → I → S) (accepts : S → I → List A) (delivers : S → I → List B)
    (answer : A → B) (holds : S → List A → Prop) : Prop :=
  ∀ s i pending, holds s pending → ∃ done pending', pending ++ accepts s i = done ++ pending' ∧
    delivers s i = done.map answer ∧ holds (next s i) pending'

/-- **Service in order.** Over any run, the delivered results are the answers to an
initial part of the accepted requests, the others being pending. -/
theorem serves {next : S → I → S} {accepts : S → I → List A} {delivers : S → I → List B}
    {answer : A → B} {holds : S → List A → Prop}
    (served : Serves next accepts delivers answer holds) {start : S} (initial : holds start [])
    (inputs : Nat → I) (cycle : Nat) :
    ∃ done pending, collect next start inputs accepts cycle = done ++ pending ∧
      collect next start inputs delivers cycle = done.map answer ∧
      holds (run next start inputs cycle) pending := by
  induction cycle with
  | zero => exact ⟨[], [], rfl, rfl, initial⟩
  | succ cycle ih =>
      obtain ⟨done, pending, accepted, delivered, held⟩ := ih
      obtain ⟨done', pending', split, answered, held'⟩ := served _ (inputs cycle) _ held
      refine ⟨done ++ done', pending', ?_, ?_, held'⟩
      · rw [collect, accepted, List.append_assoc, split, List.append_assoc]
      · rw [collect, delivered, answered, List.map_append]

end Clocked
