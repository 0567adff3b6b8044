import Mathlib

/-! # The ledger of ranges

`Segments` of `splitNode.h` counts, for every position of a node, the ranges that end
there and the ranges that join it to the next position. The guard of an erase looks the
entry up and then accesses it, which makes a missing entry with count 0; so the guard
holds for every map (`SplitNode.CountMap.erase_eq`), and a count may become negative. The
ledger is faithful exactly if every erased range was added before, and no range is empty
(`SplitNode.Segments.faithful_iff`). Numbers are mathematical integers.
-/

namespace SplitNode

/-- `std::map<int, int>`. -/
abbrev CountMap : Type := Int → Option Int

namespace CountMap

/-- `find(idx) != end()`. -/
def find (counts : CountMap) (idx : Int) : Bool := (counts idx).isSome

/-- `counts[idx] = count`. -/
def set (counts : CountMap) (idx count : Int) : CountMap := Function.update counts idx (some count)

/-- `counts[idx]`, with the map after it: a missing entry is made, with the count 0. -/
def access (counts : CountMap) (idx : Int) : CountMap × Int :=
  match counts idx with
  | some count => (counts, count)
  | none => (counts.set idx 0, 0)

/-- Add to an entry. -/
def add (counts : CountMap) (idx count : Int) : CountMap :=
  let counts := if counts.find idx then counts else counts.set idx 0
  let (counts, old) := counts.access idx
  counts.set idx (old + count)

/-- Subtract from an entry, after the assertion `bound missing`; none if it fails. -/
def erase (counts : CountMap) (idx count : Int) : Option CountMap :=
  let (holds, counts) :=
    if counts.find idx then (true, counts)
    else
      let (counts, old) := counts.access idx
      (decide (old ≤ 0), counts)
  if holds then
    let (counts, old) := counts.access idx
    some (counts.set idx (old - count))
  else none

/-- The count of an index; a missing entry counts 0. -/
def count (counts : CountMap) (idx : Int) : Int := (counts idx).getD 0

@[simp] theorem count_set (counts : CountMap) (idx value i : Int) :
    (counts.set idx value).count i = if i = idx then value else counts.count i := by
  rw [count, set, Function.update_apply]
  split <;> rfl

@[simp] theorem access_snd (counts : CountMap) (idx : Int) :
    (counts.access idx).2 = counts.count idx := by
  rw [access, count]
  split <;> simp_all

@[simp] theorem count_access (counts : CountMap) (idx i : Int) :
    (counts.access idx).1.count i = counts.count i := by
  cases entry : counts idx with
  | some value => rw [access, entry]
  | none =>
      rw [access, entry, count_set]
      split
      · rename_i same
        rw [same, count, entry]
        rfl
      · rfl

theorem count_of_not_find {counts : CountMap} {idx : Int} (missing : ¬ counts.find idx = true) :
    counts.count idx = 0 := by
  cases entry : counts idx with
  | some value => exact absurd (by rw [find, entry]; rfl) missing
  | none => rw [count, entry]; rfl

/-- Adding to an entry changes its count alone. -/
theorem count_add (counts : CountMap) (idx value i : Int) :
    (counts.add idx value).count i = counts.count i + if i = idx then value else 0 := by
  rw [add]
  by_cases found : counts.find idx = true
  · simp only [if_pos found, count_set, access_snd, count_access]
    split
    · rename_i same
      rw [same]
    · rw [Int.add_zero]
  · simp only [if_neg found, count_set, access_snd, count_access, if_true]
    split
    · rename_i same
      rw [same, count_of_not_find found]
    · rw [Int.add_zero]

/-- The assertion of an erase never fails, and the count of the entry goes down. -/
theorem erase_eq (counts : CountMap) (idx value : Int) :
    ∃ after, counts.erase idx value = some after ∧
      ∀ i, after.count i = counts.count i - if i = idx then value else 0 := by
  have lowered {before : CountMap} (same : ∀ i, before.count i = counts.count i) (i : Int) :
      ((before.access idx).1.set idx ((before.access idx).2 - value)).count i =
        counts.count i - if i = idx then value else 0 := by
    rw [count_set, count_access, access_snd, same, same]
    split
    · rename_i here
      rw [here]
    · rw [Int.sub_zero]
  by_cases found : counts.find idx = true
  · refine ⟨_, ?_, lowered fun _ => rfl⟩
    simp only [erase, if_pos found, if_true]
  · refine ⟨_, ?_, lowered (count_access counts idx)⟩
    have holds : decide ((counts.access idx).2 ≤ 0) = true := by
      rw [access_snd, count_of_not_find found]
      rfl
    simp only [erase, if_neg found, if_pos holds]

end CountMap

/-- The indices from `lo` up to but without `hi`: those of the loop over the joins. -/
def upto (lo hi : Int) : List Int := (List.range (hi - lo).toNat).map fun (k : Nat) => lo + k

theorem count_upto (lo hi i : Int) :
    ((upto lo hi).count i : Int) = if lo ≤ i ∧ i < hi then 1 else 0 := by
  have injective : Function.Injective fun (k : Nat) => lo + (k : Int) := by
    intro k k' same
    have same : lo + (k : Int) = lo + (k' : Int) := same
    omega
  have distinct : (upto lo hi).Nodup := List.Nodup.map injective List.nodup_range
  have member : i ∈ upto lo hi ↔ lo ≤ i ∧ i < hi := by
    rw [upto, List.mem_map]
    constructor
    · rintro ⟨k, listed, rfl⟩
      have below := List.mem_range.mp listed
      omega
    · intro inside
      exact ⟨(i - lo).toNat, List.mem_range.mpr (by omega), by omega⟩
  rw [distinct.count, if_congr member rfl rfl]
  split <;> rfl

/-- A `Segments` object. -/
structure Segments where
  boundCount : CountMap
  concatCount : CountMap
  width : Int

namespace Segments

/-- The two maps of the object. -/
inductive Side
  | bound | concat
  deriving DecidableEq

/-- `Segments(int _width)`. -/
def new (width : Int) : Segments := ⟨fun _ => none, fun _ => none, width⟩

/-- One of the maps. -/
def counts (s : Segments) : Side → CountMap
  | .bound => s.boundCount
  | .concat => s.concatCount

/-- Replace one of the maps. -/
def setCounts (s : Segments) (side : Side) (counts : CountMap) : Segments :=
  match side with
  | .bound => { s with boundCount := counts }
  | .concat => { s with concatCount := counts }

/-- Add to an index of a map, unless it is out of range. -/
def addAt (side : Side) (s : Segments) (idx count : Int) : Segments :=
  if idx ≥ s.width ∨ idx < 0 then s else s.setCounts side ((s.counts side).add idx count)

/-- Subtract from an index of a map, unless it is out of range. -/
def eraseAt (side : Side) (s : Segments) (idx count : Int) : Option Segments :=
  if idx ≥ s.width ∨ idx < 0 then some s
  else ((s.counts side).erase idx count).map (s.setCounts side)

def addConcat : Segments → (idx count : Int) → Segments := addAt .concat

def eraseConcat : Segments → (idx count : Int) → Option Segments := eraseAt .concat

def addBound : Segments → (idx count : Int) → Segments := addAt .bound

def eraseBound : Segments → (idx count : Int) → Option Segments := eraseAt .bound

def addRange (s : Segments) (hi lo : Int) : Segments :=
  let s := s.addBound hi 1
  let s := s.addBound (lo - 1) 1
  (upto lo hi).foldl (fun s i => s.addConcat i 1) s

def eraseRange (s : Segments) (hi lo : Int) : Option Segments := do
  let s ← s.eraseBound hi 1
  let s ← s.eraseBound (lo - 1) 1
  (upto lo hi).foldlM (fun s i => s.eraseConcat i 1) s

/-- A call of one of the range operations. -/
inductive Call
  | addRange (hi lo : Int)
  | eraseRange (hi lo : Int)
  deriving DecidableEq

/-- Perform a call; none if an assertion fails. -/
def perform (s : Segments) : Call → Option Segments
  | .addRange hi lo => some (s.addRange hi lo)
  | .eraseRange hi lo => s.eraseRange hi lo

/-- Perform calls on a new object. -/
def run (width : Int) (calls : List Call) : Option Segments := calls.foldlM perform (new width)

namespace Call

def hi : Call → Int
  | addRange hi _ => hi
  | eraseRange hi _ => hi

def lo : Call → Int
  | addRange _ lo => lo
  | eraseRange _ lo => lo

/-- An added range counts once, an erased one is taken back. -/
def sign : Call → Int
  | addRange _ _ => 1
  | eraseRange _ _ => -1

/-- The range of a call counts for a position: it ends there, above it or below, or it
joins the position to the next one. -/
def Touches (side : Side) (i : Int) (call : Call) : Prop :=
  match side with
  | .bound => call.hi = i ∨ call.lo - 1 = i
  | .concat => call.lo ≤ i ∧ i < call.hi

instance (side : Side) (i : Int) : DecidablePred (Touches side i) := fun call =>
  match side with
  | .bound => inferInstanceAs (Decidable (call.hi = i ∨ call.lo - 1 = i))
  | .concat => inferInstanceAs (Decidable (call.lo ≤ i ∧ i < call.hi))

/-- How often a range is counted at a position: an empty one has both ends there. -/
def weight (side : Side) (i : Int) (call : Call) : Int :=
  match side with
  | .bound => (if i = call.hi then 1 else 0) + if i = call.lo - 1 then 1 else 0
  | .concat => if call.lo ≤ i ∧ i < call.hi then 1 else 0

end Call

/-- What some calls weigh, added minus erased. -/
def tally (weight : Call → Int) (calls : List Call) : Int :=
  (calls.map fun call => call.sign * weight call).sum

@[simp] theorem tally_append (weight : Call → Int) (calls : List Call) (call : Call) :
    tally weight (calls ++ [call]) = tally weight calls + call.sign * weight call := by
  simp [tally]

/-- The number of added minus the number of erased ranges that count for a position. -/
def net (side : Side) (i : Int) (calls : List Call) : Int :=
  tally (fun call => if call.Touches side i then 1 else 0) calls

variable {s s' : Segments} {side : Side} {width i : Int} {before calls : List Call} {call : Call}

@[simp] theorem counts_setCounts (s : Segments) (side other : Side) (counts : CountMap) :
    (s.setCounts side counts).counts other = if other = side then counts else s.counts other := by
  cases side <;> cases other <;> rfl

@[simp] theorem width_setCounts (s : Segments) (side : Side) (counts : CountMap) :
    (s.setCounts side counts).width = s.width := by
  cases side <;> rfl

/-- By how much the counts of the positions inside have changed. -/
structure Shifts (s s' : Segments) (change : Side → Int → Int) : Prop where
  width : s'.width = s.width
  count : ∀ side i, 0 ≤ i → i < s.width →
    (s'.counts side).count i = (s.counts side).count i + change side i

namespace Shifts

variable {change change' : Side → Int → Int}

theorem refl (s : Segments) : Shifts s s (fun _ _ => 0) :=
  ⟨rfl, fun _ _ _ _ => (Int.add_zero _).symm⟩

theorem trans {s'' : Segments} (first : Shifts s s' change) (second : Shifts s' s'' change') :
    Shifts s s'' (fun side i => change side i + change' side i) := by
  refine ⟨second.width.trans first.width, fun side i low high => ?_⟩
  rw [second.count side i low (first.width ▸ high), first.count side i low high, Int.add_assoc]

theorem congr (shifts : Shifts s s' change) (same : ∀ side i, change side i = change' side i) :
    Shifts s s' change' := by
  obtain rfl : change = change' := funext fun side => funext (same side)
  exact shifts

/-- An operation that is dropped, on an index out of range. -/
theorem dropped {idx : Int} (out : idx ≥ s.width ∨ idx < 0) (side : Side) (value : Int) :
    Shifts s s (fun other i => if other = side ∧ i = idx then value else 0) := by
  refine ⟨rfl, fun other i low high => ?_⟩
  rw [if_neg (by omega), Int.add_zero]

/-- An operation on one index of one map. -/
theorem replaced {counts : CountMap} {idx value : Int}
    (changed : ∀ i, counts.count i = (s.counts side).count i + if i = idx then value else 0) :
    Shifts s (s.setCounts side counts)
      (fun other i => if other = side ∧ i = idx then value else 0) := by
  refine ⟨width_setCounts .., fun other i _ _ => ?_⟩
  rw [counts_setCounts]
  by_cases same : other = side
  · simp [same, changed]
  · simp [same]

end Shifts

theorem addAt_shifts (side : Side) (s : Segments) (idx count : Int) :
    Shifts s (addAt side s idx count)
      (fun other i => if other = side ∧ i = idx then count else 0) := by
  rw [addAt]
  split
  · exact .dropped ‹_› side count
  · exact .replaced (CountMap.count_add _ idx count)

theorem eraseAt_shifts (side : Side) (s : Segments) (idx count : Int) :
    ∃ s', eraseAt side s idx count = some s' ∧
      Shifts s s' (fun other i => if other = side ∧ i = idx then -count else 0) := by
  rw [eraseAt]
  split
  · exact ⟨s, rfl, .dropped ‹_› side (-count)⟩
  · obtain ⟨after, erased, lower⟩ := CountMap.erase_eq (s.counts side) idx count
    refine ⟨_, congrArg (Option.map _) erased, .replaced fun i => ?_⟩
    rw [lower, Int.sub_eq_add_neg]
    split <;> rfl

/-- A loop of operations on the joins. -/
theorem foldlM_shifts (op : Segments → Int → Option Segments) {value : Int}
    (each : ∀ s idx, ∃ s', op s idx = some s' ∧
      Shifts s s' (fun side i => if side = .concat ∧ i = idx then value else 0))
    (s : Segments) (indices : List Int) :
    ∃ s', indices.foldlM op s = some s' ∧
      Shifts s s' (fun side i => if side = .concat then value * indices.count i else 0) := by
  induction indices generalizing s with
  | nil => exact ⟨s, rfl, (Shifts.refl s).congr fun side i => by simp⟩
  | cons idx indices ih =>
      obtain ⟨s', first, shifts⟩ := each s idx
      obtain ⟨s'', others, shifts'⟩ := ih s'
      refine ⟨s'', by rw [List.foldlM_cons, first]; exact others, ?_⟩
      refine (shifts.trans shifts').congr fun side i => ?_
      rw [List.count_cons]
      cases side with
      | bound => rfl
      | concat =>
          by_cases same : i = idx
          · simp [same, Int.mul_add, Int.add_comm]
          · simp [same, Ne.symm same]

/-- What a call does: it never fails, and counts its range for every position inside. -/
theorem perform_shifts (s : Segments) (call : Call) :
    ∃ s', s.perform call = some s' ∧
      Shifts s s' (fun side i => call.sign * call.weight side i) := by
  cases call with
  | addRange hi lo =>
      obtain ⟨s', looped, shifts⟩ := foldlM_shifts (fun s i => some (s.addConcat i 1))
        (fun s idx => ⟨_, rfl, addAt_shifts .concat s idx 1⟩)
        ((s.addBound hi 1).addBound (lo - 1) 1) (upto lo hi)
      refine ⟨s', ?_, ?_⟩
      · rw [perform, addRange, ← looped]
        have pure := List.foldlM_pure (m := Option) (l := upto lo hi)
          (b := (s.addBound hi 1).addBound (lo - 1) 1) (f := fun s i => s.addConcat i 1)
        exact pure.symm
      · refine (((addAt_shifts .bound s hi 1).trans
          (addAt_shifts .bound _ (lo - 1) 1)).trans shifts).congr fun side i => ?_
        cases side with
        | bound => grind [Call.sign, Call.weight, Call.hi, Call.lo]
        | concat => grind [Call.sign, Call.weight, Call.hi, Call.lo, count_upto]
  | eraseRange hi lo =>
      obtain ⟨s₁, first, shifts₁⟩ := eraseAt_shifts .bound s hi 1
      obtain ⟨s₂, second, shifts₂⟩ := eraseAt_shifts .bound s₁ (lo - 1) 1
      obtain ⟨s', looped, shifts⟩ := foldlM_shifts (fun s i => s.eraseConcat i 1)
        (fun s idx => eraseAt_shifts .concat s idx 1) s₂ (upto lo hi)
      refine ⟨s', ?_, ?_⟩
      · change (eraseAt .bound s hi 1).bind _ = _
        rw [first, Option.bind_some, eraseBound, second]
        exact looped
      · refine ((shifts₁.trans shifts₂).trans shifts).congr fun side i => ?_
        cases side with
        | bound => grind [Call.sign, Call.weight, Call.hi, Call.lo]
        | concat => grind [Call.sign, Call.weight, Call.hi, Call.lo, count_upto]

/-- What a run does: no assertion fails, and every position counts what the ranges
weigh. -/
theorem run_tally (width : Int) (calls : List Call) :
    ∃ s, run width calls = some s ∧ s.width = width ∧ ∀ side i, 0 ≤ i → i < width →
      (s.counts side).count i = tally (Call.weight side i) calls := by
  induction calls using List.reverseRecOn with
  | nil =>
      refine ⟨new width, rfl, rfl, fun side i _ _ => ?_⟩
      cases side <;> rfl
  | append_singleton before call ih =>
      obtain ⟨s, reached, inside, counts⟩ := ih
      obtain ⟨s', performed, shifts⟩ := s.perform_shifts call
      refine ⟨s', ?_, shifts.width.trans inside, fun side i low high => ?_⟩
      · rw [run, List.foldlM_append]
        change (run width before).bind _ = _
        rw [reached, Option.bind_some, List.foldlM_cons, performed]
        rfl
      · rw [shifts.count side i low (inside ▸ high), counts side i low high, tally_append]

/-- The ledger of the calls is faithful: after every part of a run that no assertion ends,
each count is the number of added minus the number of erased ranges and is not negative;
and an erase of something that is not there fails an assertion. -/
structure Faithful (width : Int) (calls : List Call) : Prop where
  counts : ∀ before, before <+: calls → ∀ s, run width before = some s →
    ∀ side i, 0 ≤ i → i < width →
      (s.counts side).count i = net side i before ∧ 0 ≤ (s.counts side).count i
  stops : ∀ before hi lo, before ++ [.eraseRange hi lo] <+: calls → ∀ side i, 0 ≤ i → i < width →
    (Call.eraseRange hi lo).Touches side i → net side i before ≤ 0 →
      run width (before ++ [.eraseRange hi lo]) = none

/-- The ranges are used as meant: none is empty, and what is erased was added before and
not yet erased as often. -/
structure Orderly (width : Int) (calls : List Call) : Prop where
  proper : ∀ call ∈ calls, call.lo = call.hi + 1 → ¬ (0 ≤ call.hi ∧ call.hi < width)
  covered : ∀ before hi lo, before ++ [.eraseRange hi lo] <+: calls → ∀ side i, 0 ≤ i → i < width →
    (Call.eraseRange hi lo).Touches side i → 0 < net side i before

theorem weight_of_proper (proper : call.lo = call.hi + 1 → ¬ (0 ≤ call.hi ∧ call.hi < width))
    (low : 0 ≤ i) (high : i < width) (side : Side) :
    call.weight side i = if call.Touches side i then 1 else 0 := by
  cases side with
  | concat => rfl
  | bound =>
      by_cases touched : call.hi = i ∨ call.lo - 1 = i
      · rw [if_pos (show call.Touches .bound i from touched), Call.weight]
        split <;> split <;> omega
      · rw [if_neg (show ¬ call.Touches .bound i from touched), Call.weight]
        split <;> split <;> omega

/-- Without empty ranges, the weights are the numbers of ranges. -/
theorem tally_of_proper
    (proper : ∀ call ∈ calls, call.lo = call.hi + 1 → ¬ (0 ≤ call.hi ∧ call.hi < width))
    (low : 0 ≤ i) (high : i < width) (side : Side) :
    tally (Call.weight side i) calls = net side i calls := by
  rw [net, tally, tally]
  refine congrArg List.sum (List.map_congr_left fun call member => ?_)
  rw [weight_of_proper (proper call member) low high side]

theorem net_append (side : Side) (i : Int) (calls : List Call) (call : Call) :
    net side i (calls ++ [call]) =
      net side i calls + if call.Touches side i then call.sign else 0 := by
  rw [net, tally_append, net]
  split
  · rw [Int.mul_one]
  · rw [Int.mul_zero]

/-- In an orderly run nothing is erased that is not there. -/
theorem Orderly.net_nonneg (orderly : Orderly width calls) (part : before <+: calls)
    (side : Side) (low : 0 ≤ i) (high : i < width) : 0 ≤ net side i before := by
  induction before using List.reverseRecOn with
  | nil => exact Int.le_refl 0
  | append_singleton before call ih =>
      have earlier := ih ((List.prefix_append _ _).trans part)
      rw [net_append]
      split
      · rename_i touched
        cases call with
        | addRange hi lo => exact Int.add_nonneg earlier Int.one_nonneg
        | eraseRange hi lo =>
            have there := orderly.covered before hi lo part side i low high touched
            change 0 ≤ net side i before + -1
            omega
      · rw [Int.add_zero]
        exact earlier

/-- A faithful ledger has no empty ranges: an empty range is counted twice where it ends. -/
theorem Faithful.proper (faithful : Faithful width calls) (member : call ∈ calls)
    (empty : call.lo = call.hi + 1) : ¬ (0 ≤ call.hi ∧ call.hi < width) := by
  rintro ⟨low, high⟩
  obtain ⟨before, after, rfl⟩ := List.append_of_mem member
  have part : before ++ [call] <+: before ++ call :: after := by simp
  obtain ⟨s, reached, -, counts⟩ := run_tally width before
  obtain ⟨s', reached', -, counts'⟩ := run_tally width (before ++ [call])
  have first := counts .bound call.hi low high
  have second := counts' .bound call.hi low high
  rw [(faithful.counts _ (List.prefix_append _ _) s reached .bound call.hi low high).1] at first
  rw [(faithful.counts _ part s' reached' .bound call.hi low high).1, tally_append, net_append,
    first, if_pos (show call.Touches .bound call.hi from Or.inl rfl)] at second
  have twice : call.weight .bound call.hi = 2 := by
    simp only [Call.weight, empty]
    simp
  rw [twice] at second
  cases call with
  | addRange hi lo => simp [Call.sign] at second
  | eraseRange hi lo => simp [Call.sign] at second

/-- The ledger is faithful exactly if the ranges are used as meant. -/
theorem faithful_iff (width : Int) (calls : List Call) :
    Faithful width calls ↔ Orderly width calls := by
  constructor
  · intro faithful
    refine ⟨fun call member => faithful.proper member, ?_⟩
    intro before hi lo begun side i low high touched
    by_contra missing
    obtain ⟨s, reached, -⟩ := run_tally width (before ++ [.eraseRange hi lo])
    have stopped := faithful.stops before hi lo begun side i low high touched (by omega)
    exact nomatch reached.symm.trans stopped
  · intro orderly
    refine ⟨?_, ?_⟩
    · intro before part s reached side i low high
      obtain ⟨s', reached', -, counts⟩ := run_tally width before
      obtain rfl := Option.some.inj (reached.symm.trans reached')
      have proper := fun call (member : call ∈ before) =>
        orderly.proper call (part.subset member)
      rw [counts side i low high, tally_of_proper proper low high]
      exact ⟨rfl, orderly.net_nonneg part side low high⟩
    · intro before hi lo begun side i low high touched missing
      have there := orderly.covered before hi lo begun side i low high touched
      omega

/-- An erase on a new object is recorded. -/
theorem erase_not_faithful : ¬ Faithful 4 [.eraseRange 2 1] := by
  intro faithful
  obtain ⟨s, reached, -, counts⟩ := run_tally 4 [.eraseRange 2 1]
  have ledger := faithful.counts _ (List.prefix_refl _) s reached .bound 2 (by decide) (by decide)
  rw [counts .bound 2 (by decide) (by decide)] at ledger
  exact absurd ledger.2 (by decide)

end Segments

end SplitNode
