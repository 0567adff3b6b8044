import Mathlib

/-! # Workers on a stack

Workers take items from a shared stack: a task, which is a list of actions to be done, or
a marker, which ends the worker (`Pool.Step`). If at the start there is a marker for every
worker below the tasks, then along every run no worker finds the stack empty, a marker is
taken only when no task is left, and every worker does the actions of the tasks it has taken
(`Pool.Ready.kept`). Once all workers have ended, the actions done are those of the tasks
in some order (`Pool.Kept.acts_perm`), and what they do together does not depend on the
schedule if they commute (`Pool.Kept.result`).
-/

namespace Pool

variable {W T A : Type}

/-- What a worker has left to do. With nothing left it takes the next item. -/
inductive Phase (A : Type)
  | working (left : List A)
  | ended

/-- The actions left. -/
def Phase.left : Phase A → List A
  | working left => left
  | ended => []

/-- The worker has not taken a marker. -/
def Phase.active : Phase A → Bool
  | working _ => true
  | ended => false

@[simp] theorem Phase.active_working (left : List A) : (working left).active = true := rfl

@[simp] theorem Phase.active_ended : (ended : Phase A).active = false := rfl

/-- The stack, with its top in front and `none` for a marker, and the workers. -/
structure State (W T A : Type) where
  stack : List (Option T)
  phase : W → Phase A

/-- What a worker does in one step. -/
inductive Event (T A : Type)
  | take (item : Option T)
  | act (action : A)
  deriving DecidableEq

/-- The task taken. -/
def Event.task? : Event T A → Option T
  | take item => item
  | act _ => none

/-- The action done. -/
def Event.action? : Event T A → Option A
  | take _ => none
  | act action => some action

theorem Event.eq_take {event : Event T A} {task : T} (found : event.task? = some task) :
    event = .take (some task) := by
  cases event with
  | take item => exact congrArg Event.take found
  | act action => exact nomatch found

theorem Event.eq_act {event : Event T A} {action : A} (found : event.action? = some action) :
    event = .act action := by
  cases event with
  | take item => exact nomatch found
  | act other => exact congrArg Event.act (Option.some.inj found)

/-- The steps of a run, with their workers. -/
abbrev Log (W T A : Type) := List (W × Event T A)

/-- The tasks taken, in order. -/
def taken (log : Log W T A) : List T := log.filterMap fun step => step.2.task?

/-- The actions done, in order. -/
def acts (log : Log W T A) : List A := log.filterMap fun step => step.2.action?

@[simp] theorem taken_append (log later : Log W T A) :
    taken (log ++ later) = taken log ++ taken later := List.filterMap_append

@[simp] theorem acts_append (log later : Log W T A) :
    acts (log ++ later) = acts log ++ acts later := List.filterMap_append

section Steps

variable [DecidableEq W] (effects : T → List A)

/-- The phase of a worker that has taken an item. -/
def entered : Option T → Phase A
  | some task => .working (effects task)
  | none => .ended

/-- One step of one worker. -/
inductive Step : State W T A → W × Event T A → State W T A → Prop
  | take {s : State W T A} {w : W} {item : Option T} {rest : List (Option T)}
      (idle : s.phase w = .working []) (top : s.stack = item :: rest) :
      Step s (w, .take item) ⟨rest, Function.update s.phase w (entered effects item)⟩
  | act {s : State W T A} {w : W} {action : A} {left : List A}
      (busy : s.phase w = .working (action :: left)) :
      Step s (w, .act action) ⟨s.stack, Function.update s.phase w (.working left)⟩

/-- Any number of steps, in any order of the workers. -/
inductive Run : State W T A → Log W T A → State W T A → Prop
  | refl {s : State W T A} : Run s [] s
  | step {s s' s'' : State W T A} {step : W × Event T A} {log : Log W T A}
      (first : Step effects s step s') (rest : Run s' log s'') : Run s (step :: log) s''

/-- The steps of one worker. -/
def own (w : W) (log : Log W T A) : Log W T A := log.filter fun step => step.1 = w

@[simp] theorem own_append (w : W) (log later : Log W T A) :
    own w (log ++ later) = own w log ++ own w later := List.filter_append ..

theorem own_self (w : W) (event : Event T A) : own w [(w, event)] = [(w, event)] := by
  simp [own]

theorem own_other {w other : W} (apart : other ≠ w) (event : Event T A) :
    own w [(other, event)] = [] := by
  simp [own, apart]

variable {effects} {tasks : List T} {log : Log W T A} {s s' : State W T A}

/-- The part of a worker after a step that another one makes. -/
theorem share_other {phases : W → Phase A} {w other : W} (apart : other ≠ w)
    (event : Event T A) (phase : Phase A)
    (share : acts (own w log) ++ (phases w).left = (taken (own w log)).flatMap effects) :
    acts (own w (log ++ [(other, event)])) ++ (Function.update phases other phase w).left =
      (taken (own w (log ++ [(other, event)]))).flatMap effects := by
  rw [own_append, own_other apart, List.append_nil, Function.update_of_ne (Ne.symm apart)]
  exact share

/-- The tasks left are as before for the workers that have ended. -/
theorem late_update {phases : W → Phase A} {w : W} {after : List A} {left : List T}
    (late : ∀ w, (phases w).active = false → left = []) {other : W}
    (ended : (Function.update phases w (.working after) other).active = false) : left = [] := by
  by_cases same : other = w
  · subst same
    rw [Function.update_self] at ended
    exact nomatch ended
  · rw [Function.update_of_ne same] at ended
    exact late other ended

/-- Taking an item keeps the part of every worker. -/
theorem share_take {w : W} (idle : s.phase w = .working []) (item : Option T)
    (share : ∀ w, acts (own w log) ++ (s.phase w).left = (taken (own w log)).flatMap effects)
    (other : W) :
    acts (own other (log ++ [(w, .take item)])) ++
        (Function.update s.phase w (entered effects item) other).left =
      (taken (own other (log ++ [(w, .take item)]))).flatMap effects := by
  by_cases same : other = w
  · subst same
    have before := share other
    rw [idle] at before
    rw [Function.update_self, own_append, own_self, taken_append, acts_append, List.flatMap_append,
      ← before]
    cases item <;> simp [acts, taken, Event.action?, Event.task?, entered, Phase.left]
  · exact share_other (Ne.symm same) _ _ (share other)

/-- Doing an action keeps the part of every worker. -/
theorem share_act {w : W} {action : A} {after : List A}
    (busy : s.phase w = .working (action :: after))
    (share : ∀ w, acts (own w log) ++ (s.phase w).left = (taken (own w log)).flatMap effects)
    (other : W) :
    acts (own other (log ++ [(w, .act action)])) ++
        (Function.update s.phase w (.working after) other).left =
      (taken (own other (log ++ [(w, .act action)]))).flatMap effects := by
  by_cases same : other = w
  · subst same
    have before := share other
    rw [busy] at before
    rw [Function.update_self, own_append, own_self, taken_append, acts_append, List.flatMap_append,
      ← before]
    simp [acts, taken, Event.action?, Event.task?, Phase.left]
  · exact share_other (Ne.symm same) _ _ (share other)

variable [Fintype W]

/-- The number of workers that have not taken a marker. -/
def activeWorkers (phases : W → Phase A) : Nat :=
  (Finset.univ.filter fun w => (phases w).active).card

theorem activeWorkers_working {phases : W → Phase A} {w : W} (active : (phases w).active = true)
    (left : List A) :
    activeWorkers (Function.update phases w (.working left)) = activeWorkers phases := by
  refine congrArg Finset.card (Finset.filter_congr fun other _ => ?_)
  by_cases same : other = w
  · subst same
    rw [Function.update_self, active, Phase.active_working]
  · rw [Function.update_of_ne same]

theorem activeWorkers_ended {phases : W → Phase A} {w : W} (active : (phases w).active = true) :
    activeWorkers phases = activeWorkers (Function.update phases w .ended) + 1 := by
  have member : w ∈ Finset.univ.filter fun w => (phases w).active :=
    Finset.mem_filter.mpr ⟨Finset.mem_univ w, active⟩
  have erased : (Finset.univ.filter fun other => (Function.update phases w .ended other).active) =
      (Finset.univ.filter fun other => (phases other).active).erase w := by
    ext other
    rw [Finset.mem_erase, Finset.mem_filter, Finset.mem_filter]
    by_cases same : other = w
    · subst same
      rw [Function.update_self]
      simp
    · rw [Function.update_of_ne same]
      simp [same]
  unfold activeWorkers
  rw [erased, Finset.card_erase_of_mem member]
  exact (Nat.succ_pred_eq_of_pos (Finset.card_pos.mpr ⟨w, member⟩)).symm

/-- The actions that all workers have left. -/
def leftOver (phases : W → Phase A) : Multiset A := ∑ w, ((phases w).left : Multiset A)

theorem leftOver_update (phases : W → Phase A) (w : W) (phase : Phase A) :
    leftOver (Function.update phases w phase) + (phases w).left =
      leftOver phases + (phase.left : Multiset A) := by
  have others : ∑ other ∈ Finset.univ.erase w, ((Function.update phases w phase other).left :
      Multiset A) = ∑ other ∈ Finset.univ.erase w, ((phases other).left : Multiset A) := by
    refine Finset.sum_congr rfl fun other member => ?_
    rw [Function.update_of_ne (Finset.ne_of_mem_erase member)]
  unfold leftOver
  rw [← Finset.add_sum_erase _ _ (Finset.mem_univ w),
    ← Finset.add_sum_erase _ _ (Finset.mem_univ w),
    others, Function.update_self]
  abel

theorem total_take {w : W} (idle : s.phase w = .working []) (item : Option T)
    (total : (acts log : Multiset A) + leftOver s.phase = (taken log).flatMap effects) :
    (acts (log ++ [(w, .take item)]) : Multiset A) +
        leftOver (Function.update s.phase w (entered effects item)) =
      (taken (log ++ [(w, .take item)])).flatMap effects := by
  have moved := leftOver_update s.phase w (entered effects item)
  rw [idle, Phase.left, Multiset.coe_nil, add_zero] at moved
  have same : acts (log ++ [(w, .take item)]) = acts log := by simp [acts, Event.action?]
  rw [same, moved, ← add_assoc, total, taken_append, List.flatMap_append, ← Multiset.coe_add]
  cases item <;> simp [entered, taken, Event.task?, Phase.left]

theorem total_act {w : W} {action : A} {after : List A}
    (busy : s.phase w = .working (action :: after))
    (total : (acts log : Multiset A) + leftOver s.phase = (taken log).flatMap effects) :
    (acts (log ++ [(w, .act action)]) : Multiset A) +
        leftOver (Function.update s.phase w (.working after)) =
      (taken (log ++ [(w, .act action)])).flatMap effects := by
  have moved := leftOver_update s.phase w (.working after)
  rw [busy, Phase.left, Phase.left, ← Multiset.cons_coe, ← Multiset.singleton_add, ← add_assoc,
    add_left_inj] at moved
  have same : taken (log ++ [(w, .act action)]) = taken log := by simp [taken, Event.task?]
  have done : acts (log ++ [(w, .act action)]) = acts log ++ [action] := by
    simp [acts, Event.action?]
  rw [same, done, ← total, ← moved, ← Multiset.coe_add, Multiset.coe_singleton, add_assoc,
    add_comm ({action} : Multiset A)]

/-- A start: the tasks are above a marker for every worker, and the workers are idle. -/
structure Ready (tasks : List T) (s : State W T A) : Prop where
  stack : s.stack = tasks.map some ++ List.replicate (Fintype.card W) none
  idle : ∀ w, s.phase w = .working []

/-- What every run keeps. Some of the tasks have been taken in order, the others are above
the markers, of which there is one for every active worker; no marker has been taken before
the last task; each worker has done its part of what it has taken. -/
structure Kept (effects : T → List A) (tasks : List T) (log : Log W T A) (s : State W T A) :
    Prop where
  stack : ∃ left, s.stack = left.map some ++ List.replicate (activeWorkers s.phase) none ∧
    taken log ++ left = tasks ∧ ∀ w, (s.phase w).active = false → left = []
  share : ∀ w, acts (own w log) ++ (s.phase w).left = (taken (own w log)).flatMap effects
  total : (acts log : Multiset A) + leftOver s.phase = (taken log).flatMap effects

/-- A start is kept by no steps. -/
theorem Ready.kept_nil (ready : Ready tasks s) : Kept effects tasks [] s := by
  have all : activeWorkers s.phase = Fintype.card W := by
    unfold activeWorkers
    rw [Finset.filter_true_of_mem, Finset.card_univ]
    exact fun w _ => by rw [ready.idle w]; rfl
  refine ⟨⟨tasks, by rw [all]; exact ready.stack, rfl, fun w ended => ?_⟩, fun w => ?_, ?_⟩
  · rw [ready.idle w] at ended
    exact nomatch ended
  · rw [ready.idle w]
    rfl
  · refine (zero_add _).trans (Finset.sum_eq_zero fun w _ => ?_)
    rw [ready.idle w]
    rfl

/-- **One step** keeps it. -/
theorem Kept.step {step : W × Event T A} (kept : Kept effects tasks log s)
    (stepped : Step effects s step s') : Kept effects tasks (log ++ [step]) s' := by
  obtain ⟨left, stack, split, late⟩ := kept.stack
  cases stepped with
  | @take w item rest idle top =>
      have active : (s.phase w).active = true := by rw [idle]; rfl
      refine ⟨?_, share_take idle item kept.share, total_take idle item kept.total⟩
      rw [stack] at top
      cases item with
      | some task =>
          cases left with
          | nil => exact absurd (List.eq_of_mem_replicate (top ▸ List.mem_cons_self)) (by simp)
          | cons first left =>
              obtain ⟨same, rfl⟩ := List.cons.inj top
              obtain rfl := Option.some.inj same
              have busy (other : W) : (s.phase other).active = false → left = [] :=
                fun ended => nomatch late other ended
              refine ⟨left, ?_, ?_, fun other => late_update busy⟩
              · exact congrArg (left.map some ++ List.replicate · none)
                  (activeWorkers_working active _).symm
              · rw [taken_append, List.append_assoc]
                exact split
      | none =>
          obtain rfl : left = [] := by
            cases left with
            | nil => rfl
            | cons first left => exact nomatch top
          rw [activeWorkers_ended active] at top
          refine ⟨[], (List.cons.inj top).2.symm, ?_, fun _ _ => rfl⟩
          rw [taken_append, ← split]
          simp [taken, Event.task?]
  | @act w action after busy =>
      have active : (s.phase w).active = true := by rw [busy]; rfl
      refine ⟨⟨left, ?_, ?_, fun other => late_update late⟩, share_act busy kept.share,
        total_act busy kept.total⟩
      · rw [activeWorkers_working active]
        exact stack
      · rw [taken_append, ← split]
        simp [taken, Event.task?]

/-- **Every run** keeps it. -/
theorem Kept.run {later : Log W T A} (kept : Kept effects tasks log s)
    (run : Run effects s later s') : Kept effects tasks (log ++ later) s' := by
  induction run generalizing log with
  | refl => rwa [List.append_nil]
  | @step _ _ _ step later first _ ih =>
      have next := ih (kept.step first)
      rwa [List.append_assoc] at next

theorem Ready.kept (ready : Ready tasks s) (run : Run effects s log s') :
    Kept effects tasks log s' := ready.kept_nil.run run

/-- No worker that goes on finds the stack empty. -/
theorem Kept.stack_ne_nil (kept : Kept effects tasks log s) {w : W}
    (active : (s.phase w).active = true) : s.stack ≠ [] := by
  obtain ⟨left, stack, -, -⟩ := kept.stack
  rw [stack, activeWorkers_ended active, List.replicate_succ]
  exact List.append_ne_nil_of_right_ne_nil _ (List.cons_ne_nil _ _)

/-- A marker is on top only when there is nothing else. -/
theorem Kept.markers (kept : Kept effects tasks log s) (top : s.stack.head? = some none) :
    ∀ item ∈ s.stack, item = none := by
  obtain ⟨left, stack, -, -⟩ := kept.stack
  rw [stack] at top ⊢
  cases left with
  | nil => exact fun item member => List.eq_of_mem_replicate member
  | cons first left => exact nomatch top

section Ended

variable [Nonempty W] (kept : Kept effects tasks log s)
  (ended : ∀ w, (s.phase w).active = false)

include kept ended

/-- When all workers have ended, the stack is empty, and all tasks have been taken. -/
theorem Kept.all_taken : s.stack = [] ∧ taken log = tasks := by
  obtain ⟨left, stack, split, late⟩ := kept.stack
  obtain rfl := late (Classical.arbitrary W) (ended _)
  have none : activeWorkers s.phase = 0 := by
    refine Finset.card_eq_zero.mpr (Finset.filter_eq_empty_iff.mpr fun w _ active => ?_)
    cases (ended w).symm.trans active
  rw [none] at stack
  exact ⟨stack, (List.append_nil _).symm.trans split⟩

theorem Kept.acts_perm : (acts log).Perm (tasks.flatMap effects) := by
  have nothing : leftOver s.phase = 0 := by
    refine Finset.sum_eq_zero fun w _ => ?_
    have phased := ended w
    cases phase : s.phase w with
    | working left =>
        rw [phase] at phased
        exact nomatch phased
    | ended => rfl
  have total := kept.total
  rw [nothing, add_zero, (kept.all_taken ended).2] at total
  exact Multiset.coe_eq_coe.mp total

/-- **Independence of the schedule.** If the actions of the tasks commute, a run in which
all workers have ended does what doing the tasks one after the other does. -/
theorem Kept.result {M : Type} (apply : M → A → M) (memory : M)
    (commute : ∀ first ∈ tasks.flatMap effects, ∀ second ∈ tasks.flatMap effects, ∀ memory,
      apply (apply memory first) second = apply (apply memory second) first) :
    (acts log).foldl apply memory = (tasks.flatMap effects).foldl apply memory := by
  have same := kept.acts_perm ended
  refine same.foldl_eq' (fun first member second member' memory => ?_) memory
  exact commute first (same.subset member) second (same.subset member') memory

end Ended

/-- Only actions that the tasks ask for are done or left. -/
theorem Kept.asked (kept : Kept effects tasks log s) {action : A}
    (member : action ∈ acts log ∨ ∃ w, action ∈ (s.phase w).left) :
    ∃ task ∈ tasks, action ∈ effects task := by
  obtain ⟨left, -, split, -⟩ := kept.stack
  have inside : action ∈ (acts log : Multiset A) + leftOver s.phase := by
    rcases member with done | ⟨w, waiting⟩
    · exact Multiset.mem_add.mpr (Or.inl done)
    · refine Multiset.mem_add.mpr (Or.inr ?_)
      exact Multiset.mem_sum.mpr ⟨w, Finset.mem_univ w, waiting⟩
  rw [kept.total] at inside
  obtain ⟨task, listed, own⟩ := List.mem_flatMap.mp inside
  exact ⟨task, split ▸ List.mem_append_left left listed, own⟩

/-- The number of steps that are left. -/
def remaining (effects : T → List A) (s : State W T A) : Nat :=
  (s.stack.map fun item => (entered effects item).left.length + 1).sum + (leftOver s.phase).card

theorem Step.remaining {step : W × Event T A} (stepped : Step effects s step s') :
    remaining effects s = remaining effects s' + 1 := by
  unfold Pool.remaining
  cases stepped with
  | @take w item rest idle top =>
      have moved := congrArg Multiset.card (leftOver_update s.phase w (entered effects item))
      rw [idle] at moved
      simp only [Phase.left, Multiset.card_add, Multiset.coe_card, List.length_nil] at moved
      rw [top, List.map_cons, List.sum_cons]
      change _ = (rest.map fun item => (entered effects item).left.length + 1).sum +
        (leftOver (Function.update s.phase w (entered effects item))).card + 1
      change _ = _ + (entered effects item).left.length at moved
      omega
  | @act w action after busy =>
      have moved := congrArg Multiset.card (leftOver_update s.phase w (.working after))
      rw [busy] at moved
      simp only [Phase.left, Multiset.card_add, Multiset.coe_card, List.length_cons] at moved
      change _ = (s.stack.map fun item => (entered effects item).left.length + 1).sum +
        (leftOver (Function.update s.phase w (.working after))).card + 1
      omega

theorem Run.remaining (run : Run effects s log s') :
    remaining effects s = log.length + remaining effects s' := by
  induction run with
  | refl => exact (Nat.zero_add _).symm
  | step first _ ih =>
      rw [first.remaining, ih, List.length_cons]
      omega

/-- **Termination.** A run ends all workers exactly when it has the steps of all tasks and
of one marker for each worker. -/
theorem Ready.ended_iff [Nonempty W] (ready : Ready tasks s) (run : Run effects s log s') :
    (∀ w, (s'.phase w).active = false) ↔
      log.length = tasks.length + (tasks.flatMap effects).length + Fintype.card W := by
  have kept := ready.kept run
  have counted := run.remaining
  have nothing : leftOver s.phase = 0 := by
    refine Finset.sum_eq_zero fun w _ => ?_
    rw [ready.idle w]
    rfl
  have start : Pool.remaining effects s =
      tasks.length + (tasks.flatMap effects).length + Fintype.card W := by
    have each : ((fun item => (entered effects item).left.length + 1) ∘ some) =
        fun task => (effects task).length + 1 := rfl
    rw [Pool.remaining, nothing, ready.stack, List.map_append, List.sum_append, List.map_map, each,
      List.map_replicate, List.sum_replicate, List.length_flatMap, List.sum_map_add]
    simp [entered, Phase.left]
    omega
  rw [start] at counted
  constructor
  · intro ended
    have empty : Pool.remaining effects s' = 0 := by
      have none_left : leftOver s'.phase = 0 := by
        have total := kept.total
        rw [(kept.all_taken ended).2] at total
        have same := congrArg Multiset.card total
        rw [Multiset.card_add, Multiset.coe_card, Multiset.coe_card,
          (kept.acts_perm ended).length_eq] at same
        exact Multiset.card_eq_zero.mp (by omega)
      rw [Pool.remaining, none_left, (kept.all_taken ended).1]
      rfl
    omega
  · intro long w
    by_contra active
    obtain ⟨item, rest, top⟩ :=
      List.exists_cons_of_ne_nil (kept.stack_ne_nil (Bool.eq_true_of_not_eq_false active))
    have some : Pool.remaining effects s' ≠ 0 := by
      rw [Pool.remaining, top, List.map_cons, List.sum_cons]
      omega
    omega

section Once

variable {task : T} {action : A}

omit [DecidableEq W] [Fintype W] in
theorem length_takes [DecidableEq T] (log : Log W T A) (task : T) :
    (log.filter fun step => step.2.task? = some task).length = (taken log).count task := by
  rw [taken, List.count_filterMap, List.countP_eq_length_filter]
  exact congrArg List.length (List.filter_congr fun _ _ => by rw [Bool.eq_iff_iff]; simp)

omit [DecidableEq W] [Fintype W] in
theorem length_acts [DecidableEq A] (log : Log W T A) (action : A) :
    (log.filter fun step => step.2.action? = some action).length = (acts log).count action := by
  rw [acts, List.count_filterMap, List.countP_eq_length_filter]
  exact congrArg List.length (List.filter_congr fun _ _ => by rw [Bool.eq_iff_iff]; simp)

/-- At no time has a task been taken twice. -/
theorem Kept.takes_le_one [DecidableEq T] (kept : Kept effects tasks log s)
    (distinct : tasks.Nodup) (task : T) :
    (log.filter fun step => step.2.task? = some task).length ≤ 1 := by
  obtain ⟨left, -, split, -⟩ := kept.stack
  rw [← split] at distinct
  rw [length_takes]
  exact List.nodup_iff_count_le_one.mp (List.nodup_append.mp distinct).1 task

/-- At no time has an action been done more often than the tasks ask for it. -/
theorem Kept.acts_le [DecidableEq A] (kept : Kept effects tasks log s) (action : A) :
    (log.filter fun step => step.2.action? = some action).length ≤
      (tasks.flatMap effects).count action := by
  obtain ⟨left, -, split, -⟩ := kept.stack
  rw [length_acts, ← Multiset.coe_count]
  refine (Multiset.count_le_of_le action (Multiset.le_add_right _ (leftOver s.phase))).trans ?_
  rw [kept.total, Multiset.coe_count, ← split, List.flatMap_append, List.count_append]
  exact Nat.le_add_right _ _

omit [DecidableEq W] [Fintype W] in
theorem count_flatMap [DecidableEq A] (distinct : tasks.Nodup) (listed : task ∈ tasks)
    (sole : ∀ other ∈ tasks, action ∈ effects other → other = task) :
    (tasks.flatMap effects).count action = (effects task).count action := by
  obtain ⟨before, after, rfl⟩ := List.append_of_mem listed
  obtain ⟨-, apart, others⟩ := List.nodup_append.mp distinct
  have none (list : List T) (inside : ∀ other ∈ list, other ∈ before ++ task :: after)
      (other' : ∀ other ∈ list, other ≠ task) : (list.flatMap effects).count action = 0 := by
    refine List.count_eq_zero.mpr fun member => ?_
    obtain ⟨other, member, own⟩ := List.mem_flatMap.mp member
    exact other' other member (sole other (inside other member) own)
  rw [List.flatMap_append, List.count_append, List.flatMap_cons, List.count_append,
    none before (by simp +contextual) fun other member =>
      others other member task List.mem_cons_self,
    none after (by simp +contextual) fun other member same =>
      (List.nodup_cons.mp apart).1 (same ▸ member)]
  omega

/-- **Exactly once.** When all workers have ended, each task has been taken once, and the
worker that took it has done its actions. -/
theorem Kept.once [Nonempty W] [DecidableEq T] [DecidableEq A]
    (kept : Kept effects tasks log s) (ended : ∀ w, (s.phase w).active = false)
    (distinct : tasks.Nodup) (listed : task ∈ tasks) :
    ∃ w, (log.filter fun step => step.2.task? = some task) = [(w, .take (some task))] ∧
      ∀ action, (effects task).count action = 1 →
        (∀ other ∈ tasks, action ∈ effects other → other = task) →
        (log.filter fun step => step.2.action? = some action) = [(w, .act action)] := by
  have all := (kept.all_taken ended).2
  have one : (log.filter fun step => step.2.task? = some task).length = 1 := by
    rw [length_takes, all]
    exact List.count_eq_one_of_mem distinct listed
  obtain ⟨⟨w, event⟩, single⟩ := List.length_eq_one_iff.mp one
  have taker {step : W × Event T A} (member : step ∈ log) (takes : step.2.task? = some task) :
      step = (w, event) :=
    List.mem_singleton.mp (single ▸ List.mem_filter.mpr ⟨member, decide_eq_true takes⟩)
  have first := List.mem_filter.mp (single ▸ List.mem_singleton_self (w, event))
  obtain rfl := Event.eq_take (of_decide_eq_true first.2)
  refine ⟨w, single, fun action once sole => ?_⟩
  have acted : (log.filter fun step => step.2.action? = some action).length = 1 := by
    rw [length_acts, (kept.acts_perm ended).count_eq, count_flatMap distinct listed sole, once]
  obtain ⟨⟨other, event⟩, found⟩ := List.length_eq_one_iff.mp acted
  have member := List.mem_filter.mp (found ▸ List.mem_singleton_self (other, event))
  obtain rfl := Event.eq_act (of_decide_eq_true member.2)
  have share := kept.share other
  have mine : action ∈ acts (own other log) :=
    List.mem_filterMap.mpr ⟨_, List.mem_filter.mpr ⟨member.1, decide_eq_true rfl⟩, rfl⟩
  have asked : action ∈ (taken (own other log)).flatMap effects :=
    share ▸ List.mem_append_left _ mine
  obtain ⟨task', member', own'⟩ := List.mem_flatMap.mp asked
  obtain ⟨step, stepped, takes⟩ := List.mem_filterMap.mp member'
  obtain ⟨inside, worker⟩ := List.mem_filter.mp stepped
  have same : task' = task :=
    sole task' (all ▸ List.mem_filterMap.mpr ⟨step, inside, takes⟩) own'
  have worker' := congrArg Prod.fst (taker inside (same ▸ takes))
  rw [found, ← of_decide_eq_true worker, worker']

end Once

end Steps

end Pool
