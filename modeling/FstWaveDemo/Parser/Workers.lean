import FstWaveDemo.Parser.Circuit
import FstWaveDemo.Parser.Splitter
import FstWaveDemo.Pool.Stack

/-! # The workers

The threads of `parseFunc` on the shared task queue, and the merge of their lists in
`parseFIR`. A step of a thread is what it does under the lock or to one shared variable
(`FstWaveDemo.Workers.step`), and a schedule names the thread of every step. The queue is a
stack of tasks above an exit flag for every thread (`FstWaveDemo.Workers.ready_of_order`), so
the rules of `Pool` give what every schedule keeps and what it results in
(`FstWaveDemo.Workers.parseFIR_schedules`).
-/

namespace FstWaveDemo

/-- What a parse leaves in the scanner object. -/
structure Parsed where
  root : PNode
  list : List PNode

/-- The exit flags in the queue. -/
def exitFlag : TaskRecord := ⟨0, 0, -1, -1⟩

/-- Where a thread is in `parseFunc`: before it takes a record, before it stores the list of
a task, before it stores the root of the first task, or behind its return. -/
inductive Worker
  | wait
  | list (e : TaskRecord)
  | root (e : TaskRecord)
  | returned
  deriving DecidableEq

/-- The writes of a thread to `lists` and to `globalRoot`. -/
inductive Write
  | list (e : TaskRecord)
  | root (e : TaskRecord)
  deriving DecidableEq

/-- What a thread does in a step. -/
inductive ParseEvent
  | pop (e : TaskRecord)
  | write (write : Write)
  deriving DecidableEq

/-- The entry of `lists` that a step writes. -/
def ParseEvent.index? : ParseEvent → Option Int
  | .write (.list e) => some e.id
  | _ => none

/-- The step writes `globalRoot`. -/
def ParseEvent.writesRoot : ParseEvent → Bool
  | .write (.root _) => true
  | _ => false

/-- The variables that `threads` threads share, and where these are. -/
structure Workers (threads : Nat) where
  taskQueue : List TaskRecord
  lists : List (Option (List PNode))
  globalRoot : PNode
  worker : Fin threads → Worker

/-- A result of `std::sort` by ascending length. -/
structure Sorts (records queue : List TaskRecord) : Prop where
  perm : queue.Perm records
  sorted : queue.Pairwise fun e e' => e.len ≤ e'.len

namespace Workers

variable {threads : Nat} (parse : TaskRecord → Parsed)

/-- The variables when the threads start. -/
def start (queue : List TaskRecord) (id : Nat) : Workers threads :=
  ⟨queue, List.replicate id none, .null, fun _ => .wait⟩

/-- The next step of a thread. There is none if it waits for the queue to fill, if an
assertion or an index fails, or if the thread has returned. -/
def step (s : Workers threads) (tid : Fin threads) : Option (ParseEvent × Workers threads) :=
  match s.worker tid with
  | .wait =>
      s.taskQueue.getLast?.map fun e =>
        (.pop e, { s with
          taskQueue := s.taskQueue.dropLast
          worker := Function.update s.worker tid (if e.id = -1 then .returned else .list e) })
  | .list e =>
      if 0 ≤ e.id ∧ e.id < s.lists.length then
        some (.write (.list e), { s with
          lists := s.lists.set e.id.toNat (some (parse e).list)
          worker := Function.update s.worker tid (if e.id = 0 then .root e else .wait) })
      else none
  | .root e =>
      match (parse e).root with
      | .node .. =>
          some (.write (.root e), { s with
            globalRoot := (parse e).root
            worker := Function.update s.worker tid .wait })
      | _ => none
  | .returned => none

/-- The steps of the threads in the order of a schedule, with what they do. -/
def run : List (Fin threads) → Workers threads →
    Option (List (Fin threads × ParseEvent) × Workers threads)
  | [], s => some ([], s)
  | tid :: schedule, s =>
      (step parse s tid).bind fun (event, s') =>
        (run schedule s').map fun (log, s'') => ((tid, event) :: log, s'')

/-- The loop that appends the other lists to the first one. -/
def mergeLists (lists : List (Option (List PNode))) (id : Nat) : Option (List PNode) :=
  lists[0]?.join.bind fun first =>
    (List.range' 1 (id - 1)).foldlM (fun siblings i =>
      lists[i]?.join.map (PList.concat siblings)) first

/-- `globalRoot`, with the merged lists as its children. -/
def merge (s : Workers threads) (id : Nat) : Option PNode :=
  (mergeLists s.lists id).bind fun siblings =>
    match s.globalRoot with
    | .node type lineno info name extraInfo width sign _ =>
        some (.node type lineno info name extraInfo width sign siblings)
    | _ => none

/-- A record of the queue, as an item of a stack. -/
def item (e : TaskRecord) : Option TaskRecord := if e.id = -1 then none else some e

/-- The writes that a task asks for. -/
def effects (e : TaskRecord) : List Write :=
  if e.id = 0 then [.list e, .root e] else [.list e]

/-- Where a thread is, as the writes it has left. -/
def phase : Worker → Pool.Phase Write
  | .wait => .working []
  | .list e => .working (effects e)
  | .root e => .working [.root e]
  | .returned => .ended

/-- A step of a thread, as one of a worker on a stack. -/
def event : ParseEvent → Pool.Event TaskRecord Write
  | .pop e => .take (item e)
  | .write write => .act write

/-- The threads as workers on a stack. -/
def pool (s : Workers threads) : Pool.State (Fin threads) TaskRecord Write :=
  ⟨(s.taskQueue.map item).reverse, fun tid => phase (s.worker tid)⟩

/-- The steps of the threads as steps on a stack. -/
def poolLog (log : List (Fin threads × ParseEvent)) : Pool.Log (Fin threads) TaskRecord Write :=
  log.map fun step => (step.1, event step.2)

/-- The effect of a write on `lists` and `globalRoot`. -/
def apply (memory : List (Option (List PNode)) × PNode) :
    Write → List (Option (List PNode)) × PNode
  | .list e => (memory.1.set e.id.toNat (some (parse e).list), memory.2)
  | .root e => (memory.1, (parse e).root)

variable {parse} {s s' : Workers threads}

theorem phase_update (worker : Fin threads → Worker) (tid : Fin threads) (next : Worker) :
    (fun other => phase (Function.update worker tid next other)) =
      Function.update (fun other => phase (worker other)) tid (phase next) := by
  funext other
  by_cases same : other = tid
  · subst same
    rw [Function.update_self, Function.update_self]
  · rw [Function.update_of_ne same, Function.update_of_ne same]

/-- **A step of a thread** is a step of a worker on the stack, and changes the memory by
what it writes. -/
theorem step_pool {tid : Fin threads} {done : ParseEvent}
    (stepped : step parse s tid = some (done, s')) :
    Pool.Step effects s.pool (tid, event done) s'.pool ∧
      (s'.lists, s'.globalRoot) =
        ((event done).action?.toList).foldl (apply parse) (s.lists, s.globalRoot) := by
  rw [step] at stepped
  split at stepped
  · rename_i here
    obtain ⟨e, last, same⟩ := Option.map_eq_some_iff.mp stepped
    obtain ⟨rfl, rfl⟩ := Prod.mk.inj same
    obtain ⟨init, queue⟩ := List.getLast?_eq_some_iff.mp last
    refine ⟨?_, rfl⟩
    have idle : s.pool.phase tid = .working [] := by
      change phase (s.worker tid) = _
      rw [here]
      rfl
    have top : s.pool.stack = item e :: (s.taskQueue.dropLast.map item).reverse := by
      rw [pool, queue]
      simp
    have taken := @Pool.Step.take _ _ _ _ effects _ _ _ _ idle top
    have next :
        Pool.entered effects (item e) = phase (if e.id = -1 then .returned else .list e) := by
      unfold item
      split <;> rfl
    rw [next] at taken
    rw [pool, pool, phase_update]
    exact taken
  · rename_i e here
    split at stepped
    · obtain ⟨rfl, rfl⟩ := Prod.mk.inj (Option.some.inj stepped)
      refine ⟨?_, rfl⟩
      have busy : s.pool.phase tid = .working (.list e :: if e.id = 0 then [.root e] else []) := by
        change phase (s.worker tid) = _
        rw [here, phase, effects]
        split <;> rfl
      have acted := @Pool.Step.act _ _ _ _ effects _ _ _ _ busy
      have next : (.working (if e.id = 0 then [.root e] else []) : Pool.Phase Write) =
          phase (if e.id = 0 then .root e else .wait) := by
        split <;> rfl
      rw [next] at acted
      rw [pool, pool, phase_update]
      exact acted
    · exact nomatch stepped
  · rename_i e here
    split at stepped
    · obtain ⟨rfl, rfl⟩ := Prod.mk.inj (Option.some.inj stepped)
      refine ⟨?_, rfl⟩
      have busy : s.pool.phase tid = .working [.root e] := by
        change phase (s.worker tid) = _
        rw [here]
        rfl
      have acted := @Pool.Step.act _ _ _ _ effects _ _ _ _ busy
      rw [pool, pool, phase_update]
      exact acted
    · exact nomatch stepped
  · exact nomatch stepped

/-- **A run of the threads** is a run on the stack, and leaves the memory that its writes
make. -/
theorem run_pool {schedule : List (Fin threads)} {log : List (Fin threads × ParseEvent)}
    (ran : run parse schedule s = some (log, s')) :
    Pool.Run effects s.pool (poolLog log) s'.pool ∧
      (s'.lists, s'.globalRoot) =
        (Pool.acts (poolLog log)).foldl (apply parse) (s.lists, s.globalRoot) := by
  induction schedule generalizing s log with
  | nil =>
      obtain ⟨rfl, rfl⟩ := Prod.mk.inj (Option.some.inj ran)
      exact ⟨.refl, rfl⟩
  | cons tid schedule ih =>
      rw [run] at ran
      obtain ⟨⟨done, middle⟩, stepped, ran⟩ := Option.bind_eq_some_iff.mp ran
      obtain ⟨⟨later, final⟩, others, same⟩ := Option.map_eq_some_iff.mp ran
      obtain ⟨rfl, rfl⟩ := Prod.mk.inj same
      obtain ⟨first, written⟩ := step_pool stepped
      obtain ⟨rest, memory⟩ := ih others
      refine ⟨.step first rest, ?_⟩
      have split : Pool.acts (poolLog ((tid, done) :: later)) =
          (event done).action?.toList ++ Pool.acts (poolLog later) := by
        rw [poolLog, List.map_cons, Pool.acts, List.filterMap_cons]
        cases (event done).action? <;> rfl
      rw [memory, written, split, List.foldl_append]

/-- A sorted list is its records of length 0 before the others. -/
theorem filter_append_filter {queue : List TaskRecord}
    (sorted : queue.Pairwise fun e e' => e.len ≤ e'.len) :
    queue = queue.filter (fun e => e.len = 0) ++ queue.filter (fun e => e.len ≠ 0) := by
  induction queue with
  | nil => rfl
  | cons e queue ih =>
      obtain ⟨first, others⟩ := List.pairwise_cons.mp sorted
      by_cases empty : e.len = 0
      · have keep :
            (e :: queue).filter (fun e => e.len = 0) = e :: queue.filter fun e => e.len = 0 :=
          List.filter_cons_of_pos (by simpa using empty)
        have skip : (e :: queue).filter (fun e => e.len ≠ 0) = queue.filter fun e => e.len ≠ 0 :=
          List.filter_cons_of_neg (by simpa using empty)
        rw [keep, skip, List.cons_append, ← ih others]
      · have none : (e :: queue).filter (fun e => e.len = 0) = [] := by
          refine List.filter_eq_nil_iff.mpr fun e' member => ?_
          rcases List.mem_cons.mp member with rfl | later
          · simpa using empty
          · have longer := first e' later
            simp only [decide_eq_true_eq]
            omega
        have all : (e :: queue).filter (fun e => e.len ≠ 0) = e :: queue := by
          refine List.filter_eq_self.mpr fun e' member => ?_
          rcases List.mem_cons.mp member with rfl | later
          · simpa using empty
          · have longer := first e' later
            simp only [ne_eq, decide_not, Bool.not_eq_true', decide_eq_false_iff_not]
            omega
        rw [none, all, List.nil_append]

variable {tasks queue : List TaskRecord}

/-- However the records are sorted, the exit flags are before the tasks. -/
theorem order_of_sorts (sorts : Sorts (tasks ++ List.replicate threads exitFlag) queue)
    (lengths : ∀ e ∈ tasks, 1 ≤ e.len) :
    ∃ order : List TaskRecord, order.Perm tasks ∧
      queue = List.replicate threads exitFlag ++ order.reverse := by
  have flags : queue.filter (fun e => e.len = 0) = List.replicate threads exitFlag := by
    refine List.perm_replicate.mp ((sorts.perm.filter _).trans ?_)
    rw [List.filter_append, List.filter_eq_nil_iff.mpr fun e member => ?_, List.nil_append,
      List.filter_eq_self.mpr fun e member => ?_]
    · rw [List.eq_of_mem_replicate member]
      rfl
    · have long := lengths e member
      simp only [decide_eq_true_eq]
      omega
  have others : (queue.filter (fun e => e.len ≠ 0)).Perm tasks := by
    refine (sorts.perm.filter _).trans ?_
    rw [List.filter_append, List.filter_eq_self.mpr fun e member => ?_,
      List.filter_eq_nil_iff.mpr fun e member => ?_, List.append_nil]
    · rw [List.eq_of_mem_replicate member]
      simp [exitFlag]
    · have long := lengths e member
      simp only [ne_eq, decide_not, Bool.not_eq_true', decide_eq_false_iff_not]
      omega
  refine ⟨(queue.filter (fun e => e.len ≠ 0)).reverse, (List.reverse_perm _).trans others, ?_⟩
  rw [List.reverse_reverse, ← flags]
  exact filter_append_filter sorts.sorted

/-- **The start.** The queue is a stack of tasks above an exit flag for every thread. -/
theorem ready_of_order {order : List TaskRecord} (proper : ∀ e ∈ order, e.id ≠ -1) (id : Nat) :
    Pool.Ready order
      (start (List.replicate threads exitFlag ++ order.reverse) id : Workers threads).pool := by
  refine ⟨?_, fun _ => rfl⟩
  have real : order.map item = order.map some := List.map_congr_left fun e member =>
    if_neg (proper e member)
  rw [pool, start, List.map_append, List.reverse_append, ← List.map_reverse, List.reverse_reverse,
    real, List.map_replicate, List.reverse_replicate, Fintype.card_fin]
  rfl

/-- The tasks in the order of their ids. -/
structure Tasks (tasks : List TaskRecord) : Prop where
  filled : tasks ≠ []
  ids : tasks.map TaskRecord.id = (List.range tasks.length).map Int.ofNat
  lengths : ∀ e ∈ tasks, 1 ≤ e.len

namespace Tasks

variable (own : Tasks tasks) {e e' : TaskRecord}

include own

theorem id_eq {n : Nat} (here : tasks[n]? = some e) : e.id = n := by
  have same := congrArg (·[n]?) own.ids
  have below : n < tasks.length := (List.getElem?_eq_some_iff.mp here).1
  rw [List.getElem?_map, here, List.getElem?_map, List.getElem?_range below] at same
  exact Option.some.inj same

theorem range (member : e ∈ tasks) : 0 ≤ e.id ∧ e.id < tasks.length := by
  obtain ⟨n, below, rfl⟩ := List.getElem_of_mem member
  rw [own.id_eq (List.getElem?_eq_getElem below)]
  omega

theorem proper (member : e ∈ tasks) : e.id ≠ -1 := by
  have range := own.range member
  omega

theorem distinct : (tasks.map TaskRecord.id).Nodup := by
  rw [own.ids]
  exact List.nodup_range.map fun _ _ same => Int.ofNat.inj same

theorem eq_of_id (member : e ∈ tasks) (member' : e' ∈ tasks) (same : e.id = e'.id) : e = e' :=
  List.inj_on_of_nodup_map own.distinct member member' same

end Tasks

theorem mem_effects {write : Write} {e : TaskRecord} :
    write ∈ effects e ↔ write = .list e ∨ write = .root e ∧ e.id = 0 := by
  unfold effects
  split
  · rename_i zero
    simp [zero]
  · rename_i other
    simp [other]

/-- The writes of the tasks go to different places. -/
theorem Tasks.commute (own : Tasks tasks) (first : Write)
    (member : first ∈ tasks.flatMap effects) (second : Write)
    (member' : second ∈ tasks.flatMap effects) (memory : List (Option (List PNode)) × PNode) :
    apply parse (apply parse memory first) second =
      apply parse (apply parse memory second) first := by
  obtain ⟨e, listed, asked⟩ := List.mem_flatMap.mp member
  obtain ⟨e', listed', asked'⟩ := List.mem_flatMap.mp member'
  rcases mem_effects.mp asked with rfl | ⟨rfl, zero⟩ <;>
    rcases mem_effects.mp asked' with rfl | ⟨rfl, zero'⟩
  · by_cases same : e = e'
    · rw [same]
    · have apart : e.id ≠ e'.id := fun ids => same (own.eq_of_id listed listed' ids)
      have range := own.range listed
      have range' := own.range listed'
      have places : e.id.toNat ≠ e'.id.toNat := by omega
      simp only [apply]
      rw [List.set_comm _ _ places]
  · rfl
  · rfl
  · rw [own.eq_of_id listed listed' (zero.trans zero'.symm)]

/-- What the writes of the tasks leave when they are made in the order of the ids. -/
theorem foldl_effects (rest : List TaskRecord) (before : List (Option (List PNode))) (root : PNode)
    (ids : ∀ n e, rest[n]? = some e → e.id = ((before.length + n : Nat) : Int)) :
    (rest.flatMap effects).foldl (apply parse) (before ++ List.replicate rest.length none, root) =
      (before ++ rest.map (fun e => some (parse e).list),
        if before = [] then (rest.head?.map fun e => (parse e).root).getD root else root) := by
  induction rest generalizing before root with
  | nil => simp
  | cons e rest ih =>
      have id : e.id = before.length := ids 0 e rfl
      have stored : (before ++ List.replicate (rest.length + 1) none).set e.id.toNat
          (some (parse e).list) =
            (before ++ [some (parse e).list]) ++ List.replicate rest.length none := by
        rw [id, Int.toNat_natCast, List.set_append_right _ _ (Nat.le_refl _), Nat.sub_self,
          List.replicate_succ, List.set_cons_zero, List.append_assoc]
        rfl
      have later := fun root => ih (before ++ [some (parse e).list]) root fun n e' here => by
        rw [ids (n + 1) e' here, List.length_append, List.length_singleton]
        omega
      have solid : before ++ [some (parse e).list] ≠ [] := by simp
      rw [List.flatMap_cons, List.foldl_append, List.length_cons]
      by_cases first : before = []
      · have zero : e.id = 0 := by rw [id, first]; rfl
        rw [effects, if_pos zero, if_pos first]
        change List.foldl _ (List.set _ _ _, (parse e).root) _ = _
        rw [stored, later, if_neg solid, List.append_assoc]
        rfl
      · have more : e.id ≠ 0 := by
          have long := List.length_pos_iff.mpr first
          omega
        rw [effects, if_neg more, if_neg first]
        change List.foldl _ (List.set _ _ _, root) _ = _
        rw [stored, later, if_neg solid, List.append_assoc]
        rfl

/-- There is a write for each task, and one more for the first. -/
theorem Tasks.length_effects (own : Tasks tasks) :
    (tasks.flatMap effects).length = tasks.length + 1 := by
  obtain ⟨first, others, rfl⟩ := List.exists_cons_of_ne_nil own.filled
  have zero : first.id = 0 := own.id_eq (n := 0) rfl
  have later : ∀ e ∈ others, (effects e).length = 1 := by
    intro e member
    obtain ⟨n, below, rfl⟩ := List.getElem_of_mem member
    have id := own.id_eq (n := n + 1) (List.getElem?_eq_getElem (Nat.succ_lt_succ below))
    rw [List.getElem_cons_succ] at id
    rw [effects, if_neg (by omega)]
    rfl
  rw [List.flatMap_cons, List.length_append, List.length_flatMap, List.map_congr_left later,
    List.map_const', List.sum_replicate, effects, if_pos zero]
  simp
  omega

/-- The merge loop joins the lists in order. -/
theorem foldlM_concat (before rest : List (Option (List PNode))) (others : List (List PNode))
    (same : rest = others.map some) (first : List PNode) :
    ((List.range' before.length others.length).foldlM (fun siblings i =>
      (before ++ rest)[i]?.join.map (PList.concat siblings)) first) =
        some (first ++ others.flatten) := by
  induction others generalizing before rest first with
  | nil => simp
  | cons list others ih =>
      subst same
      have here : (before ++ (list :: others).map some)[before.length]?.join = some list := by
        rw [List.getElem?_append_right (Nat.le_refl _), Nat.sub_self]
        rfl
      have later := ih (before ++ [some list]) (others.map some) rfl (first ++ list)
      rw [List.length_append, List.length_singleton, List.append_assoc] at later
      rw [List.length_cons, List.range'_succ, List.foldlM_cons, here]
      refine later.trans ?_
      rw [List.flatten_cons, List.append_assoc]

theorem mergeLists_eq (lists : List (List PNode)) (filled : lists ≠ []) :
    mergeLists (lists.map some) lists.length = some lists.flatten := by
  obtain ⟨first, others, rfl⟩ := List.exists_cons_of_ne_nil filled
  exact foldlM_concat [some first] (others.map some) others rfl first

theorem step_queue {tid : Fin threads} {done : ParseEvent}
    (stepped : step parse s tid = some (done, s')) : s'.taskQueue <+: s.taskQueue := by
  rw [step] at stepped
  split at stepped
  · obtain ⟨e, -, same⟩ := Option.map_eq_some_iff.mp stepped
    obtain ⟨-, rfl⟩ := Prod.mk.inj same
    exact List.dropLast_prefix _
  · split at stepped
    · obtain ⟨-, rfl⟩ := Prod.mk.inj (Option.some.inj stepped)
      exact List.prefix_refl _
    · exact nomatch stepped
  · split at stepped
    · obtain ⟨-, rfl⟩ := Prod.mk.inj (Option.some.inj stepped)
      exact List.prefix_refl _
    · exact nomatch stepped
  · exact nomatch stepped

/-- A root is only written if there is one. -/
theorem step_rooted {tid : Fin threads} {e : TaskRecord}
    (stepped : step parse s tid = some (.write (.root e), s')) :
    (parse e).root.type?.isSome = true := by
  rw [step] at stepped
  split at stepped
  · obtain ⟨e', -, same⟩ := Option.map_eq_some_iff.mp stepped
    exact nomatch (Prod.mk.inj same).1
  · split at stepped
    · exact nomatch (Prod.mk.inj (Option.some.inj stepped)).1
    · exact nomatch stepped
  · split at stepped
    · rename_i root
      obtain rfl := Write.root.inj (ParseEvent.write.inj (Prod.mk.inj (Option.some.inj stepped)).1)
      rw [root]
      rfl
    · exact nomatch stepped
  · exact nomatch stepped

variable {schedule : List (Fin threads)} {log : List (Fin threads × ParseEvent)}

theorem run_queue (ran : run parse schedule s = some (log, s')) : s'.taskQueue <+: s.taskQueue := by
  induction schedule generalizing s log with
  | nil =>
      obtain ⟨-, rfl⟩ := Prod.mk.inj (Option.some.inj ran)
      exact List.prefix_refl _
  | cons tid schedule ih =>
      rw [run] at ran
      obtain ⟨⟨done, middle⟩, stepped, ran⟩ := Option.bind_eq_some_iff.mp ran
      obtain ⟨⟨later, final⟩, others, same⟩ := Option.map_eq_some_iff.mp ran
      obtain ⟨-, rfl⟩ := Prod.mk.inj same
      exact (ih others).trans (step_queue stepped)

theorem run_rooted {tid : Fin threads} {e : TaskRecord}
    (ran : run parse schedule s = some (log, s')) (written : (tid, .write (.root e)) ∈ log) :
    (parse e).root.type?.isSome = true := by
  induction schedule generalizing s log with
  | nil =>
      obtain ⟨rfl, -⟩ := Prod.mk.inj (Option.some.inj ran)
      exact nomatch written
  | cons next schedule ih =>
      rw [run] at ran
      obtain ⟨⟨done, middle⟩, stepped, ran⟩ := Option.bind_eq_some_iff.mp ran
      obtain ⟨⟨later, final⟩, others, same⟩ := Option.map_eq_some_iff.mp ran
      obtain ⟨rfl, rfl⟩ := Prod.mk.inj same
      rcases List.mem_cons.mp written with now | after
      · obtain ⟨-, rfl⟩ := Prod.mk.inj now
        exact step_rooted stepped
      · exact ih others after

theorem run_length (ran : run parse schedule s = some (log, s')) :
    log.length = schedule.length := by
  induction schedule generalizing s log with
  | nil =>
      obtain ⟨rfl, -⟩ := Prod.mk.inj (Option.some.inj ran)
      rfl
  | cons tid schedule ih =>
      rw [run] at ran
      obtain ⟨⟨done, middle⟩, stepped, ran⟩ := Option.bind_eq_some_iff.mp ran
      obtain ⟨⟨later, final⟩, others, same⟩ := Option.map_eq_some_iff.mp ran
      obtain ⟨rfl, rfl⟩ := Prod.mk.inj same
      exact congrArg (· + 1) (ih others)

theorem filter_poolLog (holds : Pool.Event TaskRecord Write → Bool) :
    (poolLog log).filter (fun step => holds step.2) =
      poolLog (log.filter fun step => holds (event step.2)) := List.filter_map

/-- A kind of step that is made once on the stack is made once by the threads. -/
theorem single (holds : Pool.Event TaskRecord Write → Bool) (kind : ParseEvent → Bool)
    {tid : Fin threads} {done : Pool.Event TaskRecord Write}
    (found : (poolLog log).filter (fun step => holds step.2) = [(tid, done)])
    (same : ∀ step ∈ log, kind step.2 = holds (event step.2)) :
    ∃ own, log.filter (fun step => kind step.2) = [(tid, own)] ∧ event own = done := by
  rw [filter_poolLog, ← List.filter_congr same] at found
  obtain ⟨⟨tid', own⟩, kept, same⟩ := List.map_eq_singleton_iff.mp found
  obtain ⟨rfl, rfl⟩ := Prod.mk.inj same
  exact ⟨own, kept, rfl⟩

theorem length_filter (holds : Pool.Event TaskRecord Write → Bool) (kind : ParseEvent → Bool)
    (same : ∀ step ∈ log, kind step.2 = holds (event step.2)) :
    (log.filter fun step => kind step.2).length =
      ((poolLog log).filter fun step => holds step.2).length := by
  rw [filter_poolLog, ← List.filter_congr same, poolLog, List.length_map]

theorem pop_iff {e : TaskRecord} (proper : e.id ≠ -1) (done : ParseEvent) :
    decide (done = .pop e) = decide ((event done).task? = some e) := by
  cases done with
  | write write => rfl
  | pop e' =>
      refine decide_eq_decide.mpr ⟨fun same => ?_, fun same => ?_⟩
      · obtain rfl := ParseEvent.pop.inj same
        exact if_neg proper
      · change item e' = some e at same
        unfold item at same
        split at same
        · exact nomatch same
        · rw [Option.some.inj same]

section Schedules

variable (own : Tasks tasks)
  (sorts : Sorts (tasks ++ List.replicate threads exitFlag) queue)
  (ran : run parse schedule (start queue tasks.length) = some (log, s))

include own sorts ran

/-- Every schedule is a run on a stack of the tasks, in some order. -/
theorem kept : ∃ order, order.Perm tasks ∧ Pool.Kept effects order (poolLog log) s.pool := by
  obtain ⟨order, perm, rfl⟩ := order_of_sorts sorts own.lengths
  have ready := @ready_of_order threads _ (fun e member => own.proper (perm.subset member))
    tasks.length
  exact ⟨order, perm, ready.kept (run_pool ran).1⟩

omit own in
theorem mem_queue {e : TaskRecord} (member : e ∈ s.taskQueue) : e ∈ tasks ∨ e = exitFlag := by
  have listed := sorts.perm.subset ((run_queue ran).subset member)
  rcases List.mem_append.mp listed with task | flag
  · exact Or.inl task
  · exact Or.inr (List.eq_of_mem_replicate flag)

theorem flag_iff {e : TaskRecord} (member : e ∈ s.taskQueue) : item e = none ↔ e = exitFlag := by
  constructor
  · intro flag
    rcases mem_queue sorts ran member with task | same
    · rw [item, if_neg (own.proper task)] at flag
      exact nomatch flag
    · exact same
  · rintro rfl
    rfl

/-- Only the tasks ask for writes. -/
theorem task_of_write {write : Write}
    (member : (∃ tid, (tid, ParseEvent.write write) ∈ log) ∨
      ∃ tid, write ∈ (phase (s.worker tid)).left) :
    ∃ e ∈ tasks, write ∈ effects e := by
  obtain ⟨order, perm, kept⟩ := kept own sorts ran
  obtain ⟨e, listed, asked⟩ := @Pool.Kept.asked _ _ _ _ _ _ _ _ _ kept write (by
    rcases member with ⟨tid, done⟩ | waiting
    · exact Or.inl (List.mem_filterMap.mpr ⟨_, List.mem_map_of_mem done, rfl⟩)
    · exact Or.inr waiting)
  exact ⟨e, perm.subset listed, asked⟩

theorem list_iff {e : TaskRecord} (listed : e ∈ tasks) {step : Fin threads × ParseEvent}
    (member : step ∈ log) : decide (step.2.index? = some e.id) =
      decide ((event step.2).action? = some (.list e)) := by
  obtain ⟨tid, done⟩ := step
  cases done with
  | pop e' => rfl
  | write write =>
      cases write with
      | root e' =>
          exact decide_eq_decide.mpr ⟨fun same => (nomatch same), fun same => (nomatch same)⟩
      | list e' =>
          obtain ⟨e'', listed', asked⟩ := task_of_write own sorts ran (Or.inl ⟨tid, member⟩)
          obtain rfl : e' = e'' := by
            rcases mem_effects.mp asked with same | ⟨same, -⟩
            · exact Write.list.inj same
            · exact nomatch same
          refine decide_eq_decide.mpr ⟨fun same => ?_, fun same => ?_⟩
          · rw [own.eq_of_id listed' listed (Option.some.inj same)]
            rfl
          · rw [Write.list.inj (Option.some.inj same)]
            rfl

theorem root_iff {e : TaskRecord} (listed : e ∈ tasks) (zero : e.id = 0)
    {step : Fin threads × ParseEvent} (member : step ∈ log) :
    step.2.writesRoot = decide ((event step.2).action? = some (.root e)) := by
  obtain ⟨tid, done⟩ := step
  cases done with
  | pop e' => rfl
  | write write =>
      cases write with
      | list e' => exact (decide_eq_false fun same => (nomatch same)).symm
      | root e' =>
          obtain ⟨e'', listed', asked⟩ := task_of_write own sorts ran (Or.inl ⟨tid, member⟩)
          rcases mem_effects.mp asked with same | ⟨same, zero'⟩
          · exact nomatch same
          · obtain rfl := Write.root.inj same
            rw [own.eq_of_id listed' listed (zero'.trans zero.symm)]
            exact (decide_eq_true rfl).symm

/-- The exit flags in the queue are those of the threads that have not returned. -/
theorem count_exitFlag : s.taskQueue.count exitFlag =
    (Finset.univ.filter fun tid => s.worker tid ≠ .returned).card := by
  obtain ⟨order, -, kept⟩ := kept own sorts ran
  obtain ⟨left, stack, -, -⟩ := kept.stack
  have counted := congrArg (List.count none) stack
  have flags : s.pool.stack.count none = s.taskQueue.count exitFlag := by
    change (s.taskQueue.map item).reverse.count none = _
    rw [List.count_reverse, List.count, List.countP_map, List.count]
    refine List.countP_congr fun e member => ?_
    have same := flag_iff own sorts ran member
    simpa using same
  have real : (left.map some).count none = 0 := List.count_eq_zero.mpr (by simp)
  rw [flags, List.count_append, real, List.count_replicate_self, Nat.zero_add] at counted
  rw [counted]
  refine congrArg Finset.card (Finset.filter_congr fun tid _ => ?_)
  change (phase (s.worker tid)).active = true ↔ _
  cases s.worker tid <;> simp [phase]

/-- An exit flag is next only when there is nothing else. -/
theorem exitFlag_last (next : s.taskQueue.getLast? = some exitFlag) :
    ∀ e ∈ s.taskQueue, e = exitFlag := by
  obtain ⟨order, -, kept⟩ := kept own sorts ran
  have top : s.pool.stack.head? = some none := by
    change (s.taskQueue.map item).reverse.head? = _
    rw [List.head?_reverse, List.getLast?_map, next]
    rfl
  intro e member
  refine (flag_iff own sorts ran member).mp (kept.markers top _ ?_)
  exact List.mem_reverse.mpr (List.mem_map_of_mem member)

omit own sorts in
theorem length_lists : s.lists.length = tasks.length := by
  have kept (writes : List Write) (memory : List (Option (List PNode)) × PNode) :
      (writes.foldl (apply parse) memory).1.length = memory.1.length := by
    induction writes generalizing memory with
    | nil => rfl
    | cons write writes ih =>
        rw [List.foldl_cons, ih]
        cases write with
        | list e => exact List.length_set
        | root e => rfl
  have memory := congrArg (fun memory => memory.1.length) (run_pool ran).2
  rw [kept] at memory
  exact memory.trans List.length_replicate

/-- A thread that waits finds the queue filled. -/
theorem queue_ne_nil {tid : Fin threads} (wait : s.worker tid = .wait) : s.taskQueue ≠ [] := by
  obtain ⟨order, -, kept⟩ := kept own sorts ran
  have filled := kept.stack_ne_nil (w := tid) (by
    change (phase (s.worker tid)).active = true
    rw [wait]
    rfl)
  intro empty
  exact filled (by rw [pool, empty]; rfl)

/-- **No thread is stuck**: a thread that has not returned finds the queue filled, an entry
of `lists` for its task, and a root if the first task leaves one. -/
theorem step_isSome (rooted : ∀ e ∈ tasks, e.id = 0 → (parse e).root.type?.isSome = true)
    {tid : Fin threads} (active : s.worker tid ≠ .returned) :
    (step parse s tid).isSome = true := by
  rw [step]
  cases here : s.worker tid with
  | returned => exact absurd here active
  | wait =>
      rw [List.getLast?_eq_some_getLast (queue_ne_nil own sorts ran here)]
      rfl
  | list e =>
      obtain ⟨e', listed, asked⟩ := task_of_write own sorts ran (Or.inr ⟨tid, by
        rw [here]
        exact mem_effects.mpr (Or.inl rfl)⟩)
      obtain rfl : e = e' := by
        rcases mem_effects.mp asked with same | ⟨same, -⟩
        · exact Write.list.inj same
        · exact nomatch same
      have range := own.range listed
      rw [← length_lists ran] at range
      simp only [if_pos range, Option.isSome_some]
  | root e =>
      obtain ⟨e', listed, asked⟩ := task_of_write own sorts ran
        (Or.inr ⟨tid, show Write.root e ∈ (phase (s.worker tid)).left by
          rw [here]
          exact List.mem_singleton_self _⟩)
      obtain ⟨rfl, zero⟩ : e = e' ∧ e'.id = 0 := by
        rcases mem_effects.mp asked with same | ⟨same, zero⟩
        · exact nomatch same
        · exact ⟨Write.root.inj same, zero⟩
      have rooted := rooted e listed zero
      cases root : (parse e).root with
      | null =>
          rw [root] at rooted
          exact nomatch rooted
      | undefined =>
          rw [root] at rooted
          exact nomatch rooted
      | node type lineno info name extraInfo width sign child =>
          simp only [root, Option.isSome_some]

/-- At no time has a task been taken, or its entry or the root been written, twice. -/
theorem at_most_once {e : TaskRecord} (listed : e ∈ tasks) :
    (log.filter fun step => step.2 = .pop e).length ≤ 1 ∧
      (log.filter fun step => step.2.index? = some e.id).length ≤ 1 ∧
      (e.id = 0 → (log.filter fun step => step.2.writesRoot).length ≤ 1) := by
  obtain ⟨order, perm, kept⟩ := kept own sorts ran
  have distinct := perm.nodup_iff.mpr own.distinct.of_map
  have member := perm.symm.subset listed
  have sole {write : Write} (asked : write ∈ effects e) : ∀ other ∈ order, write ∈ effects other →
      other = e := by
    intro other listed' asked'
    rcases mem_effects.mp asked with rfl | ⟨rfl, -⟩ <;>
      rcases mem_effects.mp asked' with same | ⟨same, -⟩
    · exact (Write.list.inj same).symm
    · exact nomatch same
    · exact nomatch same
    · exact (Write.root.inj same).symm
  have once {write : Write} (asked : write ∈ effects e) :
      (order.flatMap effects).count write ≤ 1 := by
    rw [Pool.count_flatMap distinct member (sole asked), effects]
    refine List.nodup_iff_count_le_one.mp ?_ write
    split <;> simp
  refine ⟨?_, ?_, fun zero => ?_⟩
  · refine (length_filter (fun done => decide (done.task? = some e))
      (fun done => decide (done = .pop e)) fun step _ => ?_).trans_le (kept.takes_le_one distinct e)
    exact pop_iff (own.proper listed) step.2
  · refine (length_filter (fun done => decide (done.action? = some (.list e)))
      (fun done => decide (done.index? = some e.id)) fun step inside => ?_).trans_le
        ((kept.acts_le _).trans (once (mem_effects.mpr (Or.inl rfl))))
    exact list_iff own sorts ran listed inside
  · refine (length_filter (fun done => decide (done.action? = some (.root e)))
      ParseEvent.writesRoot fun step inside => ?_).trans_le
        ((kept.acts_le _).trans (once (mem_effects.mpr (Or.inr ⟨rfl, zero⟩))))
    exact root_iff own sorts ran listed zero inside

section Returned

variable [NeZero threads] (returned : ∀ tid, s.worker tid = .returned)

include returned

/-- When all threads have returned, each task has been taken once, and its entry of `lists`
has been written once, by the same thread, which for the first task has written the root. -/
theorem exactly_once {e : TaskRecord} (listed : e ∈ tasks) :
    ∃ tid, (log.filter fun step => step.2 = .pop e) = [(tid, .pop e)] ∧
      (log.filter fun step => step.2.index? = some e.id) = [(tid, .write (.list e))] ∧
      (e.id = 0 → (log.filter fun step => step.2.writesRoot) = [(tid, .write (.root e))]) := by
  obtain ⟨order, perm, kept⟩ := kept own sorts ran
  have ended (tid : Fin threads) : (s.pool.phase tid).active = false := by
    change (phase (s.worker tid)).active = false
    rw [returned tid]
    rfl
  have distinct := perm.nodup_iff.mpr own.distinct.of_map
  obtain ⟨tid, taken, acted⟩ := kept.once ended distinct (perm.symm.subset listed)
  have sole {write : Write} (asked : write ∈ effects e) : (effects e).count write = 1 ∧
      ∀ other ∈ order, write ∈ effects other → other = e := by
    refine ⟨List.count_eq_one_of_mem ?_ asked, fun other listed' asked' => ?_⟩
    · rw [effects]
      split <;> simp
    · rcases mem_effects.mp asked with rfl | ⟨rfl, -⟩ <;>
        rcases mem_effects.mp asked' with same | ⟨same, -⟩
      · exact (Write.list.inj same).symm
      · exact nomatch same
      · exact nomatch same
      · exact (Write.root.inj same).symm
  refine ⟨tid, ?_, ?_, fun zero => ?_⟩
  · obtain ⟨done, popped, same⟩ := single (fun done => decide (done.task? = some e))
      (fun done => decide (done = .pop e)) taken fun step _ => pop_iff (own.proper listed) step.2
    have pop := (List.mem_filter.mp (popped ▸ List.mem_singleton_self (tid, done))).2
    obtain rfl : done = .pop e := of_decide_eq_true pop
    exact popped
  · have asked : Write.list e ∈ effects e := mem_effects.mpr (Or.inl rfl)
    obtain ⟨done, written, same⟩ := single (fun done => decide (done.action? = some (.list e)))
      (fun done => decide (done.index? = some e.id)) (acted _ (sole asked).1 (sole asked).2)
      fun step inside => list_iff own sorts ran listed inside
    rw [written]
    cases done with
    | pop e' => exact nomatch same
    | write write => rw [Pool.Event.act.inj same]
  · have asked : Write.root e ∈ effects e := mem_effects.mpr (Or.inr ⟨rfl, zero⟩)
    obtain ⟨done, written, same⟩ := single (fun done => decide (done.action? = some (.root e)))
      ParseEvent.writesRoot (acted _ (sole asked).1 (sole asked).2)
      fun step inside => root_iff own sorts ran listed zero inside
    rw [written]
    cases done with
    | pop e' => exact nomatch same
    | write write => rw [Pool.Event.act.inj same]

/-- When all threads have returned, the queue is empty, and the merged root has the lists of
the tasks in the order of their ids. -/
theorem merged : s.taskQueue = [] ∧ ∃ p, s.merge tasks.length = some p ∧
    p.children = tasks.flatMap fun e => (parse e).list := by
  obtain ⟨order, perm, kept⟩ := kept own sorts ran
  have ended (tid : Fin threads) : (s.pool.phase tid).active = false := by
    change (phase (s.worker tid)).active = false
    rw [returned tid]
    rfl
  have moved {write : Write} (member : write ∈ order.flatMap effects) :
      write ∈ tasks.flatMap effects := by
    obtain ⟨e, listed, asked⟩ := List.mem_flatMap.mp member
    exact List.mem_flatMap.mpr ⟨e, perm.subset listed, asked⟩
  have result := kept.result ended (apply parse) (List.replicate tasks.length none, .null)
    fun first member second member' => own.commute first (moved member) second (moved member')
  have sorted := (perm.flatMap_right effects).foldl_eq' (f := apply parse)
    (fun first member second member' memory =>
      own.commute first (moved member) second (moved member') memory)
    (List.replicate tasks.length none, PNode.null)
  have memory := ((run_pool ran).2.trans result).trans sorted
  have stored := @foldl_effects parse tasks [] .null fun n e here => by
    rw [own.id_eq here, List.length_nil, Nat.zero_add]
  rw [List.nil_append, List.nil_append, if_pos rfl] at stored
  obtain ⟨lists, root⟩ := Prod.mk.inj (memory.trans stored)
  refine ⟨?_, ?_⟩
  · have empty := (kept.all_taken ended).1
    exact List.map_eq_nil_iff.mp (List.reverse_eq_nil_iff.mp empty)
  · obtain ⟨first, others, rfl⟩ := List.exists_cons_of_ne_nil own.filled
    have lists' : s.lists = ((first :: others).map fun e => (parse e).list).map some := by
      rw [lists, List.map_map]
      rfl
    have joined := mergeLists_eq ((first :: others).map fun e => (parse e).list) (by simp)
    rw [List.length_map] at joined
    have zero : first.id = 0 := own.id_eq (n := 0) rfl
    obtain ⟨tid, -, -, written⟩ := exactly_once own sorts ran returned List.mem_cons_self
    have logged : (tid, ParseEvent.write (.root first)) ∈ log :=
      (List.mem_filter.mp (written zero ▸ List.mem_singleton_self _)).1
    have rooted := run_rooted ran logged
    rw [merge, lists', joined, root]
    change ∃ p, (match (parse first).root with
      | .node type lineno info name extraInfo width sign _ =>
          some (PNode.node type lineno info name extraInfo width sign
            ((first :: others).map fun e => (parse e).list).flatten)
      | _ => none) = some p ∧ _
    cases here : (parse first).root with
    | null =>
        rw [here] at rooted
        exact nomatch rooted
    | undefined =>
        rw [here] at rooted
        exact nomatch rooted
    | node type lineno info name extraInfo width sign child => exact ⟨_, rfl, rfl⟩

end Returned

end Schedules

/-- **The work queue.** For every number of threads, every list of tasks with the exit flags
sorted in any way by length, and every schedule: there are as many exit flags left as threads
that have not returned, no thread waits on an empty queue, an exit flag is only taken after
all tasks, and nothing is taken or written twice. When all threads have returned, the queue
is empty, each task was taken by one thread, which wrote its list, and the first one's also
the root, and the merged root has the lists in the order of the ids. -/
theorem parseFIR_schedules [NeZero threads] (own : Tasks tasks)
    (sorts : Sorts (tasks ++ List.replicate threads exitFlag) queue)
    (ran : run parse schedule (start queue tasks.length) = some (log, s)) :
    s.taskQueue.count exitFlag = (Finset.univ.filter fun tid => s.worker tid ≠ .returned).card ∧
    (∀ tid, s.worker tid = .wait → s.taskQueue ≠ []) ∧
    (s.taskQueue.getLast? = some exitFlag → ∀ e ∈ s.taskQueue, e = exitFlag) ∧
    (∀ e ∈ tasks, (log.filter fun step => step.2 = .pop e).length ≤ 1 ∧
      (log.filter fun step => step.2.index? = some e.id).length ≤ 1 ∧
      (e.id = 0 → (log.filter fun step => step.2.writesRoot).length ≤ 1)) ∧
    ((∀ tid, s.worker tid = .returned) →
      s.taskQueue = [] ∧
      (∀ e ∈ tasks, ∃ tid, (log.filter fun step => step.2 = .pop e) = [(tid, .pop e)] ∧
        (log.filter fun step => step.2.index? = some e.id) = [(tid, .write (.list e))] ∧
        (e.id = 0 → (log.filter fun step => step.2.writesRoot) = [(tid, .write (.root e))])) ∧
      ∃ p, s.merge tasks.length = some p ∧
        p.children = tasks.flatMap fun e => (parse e).list) := by
  refine ⟨count_exitFlag own sorts ran, fun tid wait => queue_ne_nil own sorts ran wait,
    exitFlag_last own sorts ran, fun e listed => at_most_once own sorts ran listed,
    fun returned => ?_⟩
  obtain ⟨done, result⟩ := merged own sorts ran returned
  exact ⟨done, fun e listed => exactly_once own sorts ran returned listed, result⟩

/-- **Every schedule ends.** If the first task leaves a root, a thread that has not returned
can always go on, and all threads have returned exactly after a number of steps that depends
only on the numbers of tasks and threads. -/
theorem schedule_ends [NeZero threads] (own : Tasks tasks)
    (rooted : ∀ e ∈ tasks, e.id = 0 → (parse e).root.type?.isSome = true)
    (sorts : Sorts (tasks ++ List.replicate threads exitFlag) queue)
    (ran : run parse schedule (start queue tasks.length) = some (log, s)) :
    (∀ tid, s.worker tid ≠ .returned → (step parse s tid).isSome = true) ∧
      ((∀ tid, s.worker tid = .returned) ↔
        schedule.length = 2 * tasks.length + 1 + threads) := by
  refine ⟨fun tid active => step_isSome own sorts ran rooted active, ?_⟩
  obtain ⟨order, perm, rfl⟩ := order_of_sorts sorts own.lengths
  have ready := @ready_of_order threads _ (fun e member => own.proper (perm.subset member))
    tasks.length
  have ended := ready.ended_iff (run_pool ran).1
  have steps : (poolLog log).length = schedule.length := by
    rw [poolLog, List.length_map, run_length ran]
  have writes : (order.flatMap effects).length = tasks.length + 1 := by
    rw [(perm.flatMap_right effects).length_eq, own.length_effects]
  rw [steps, perm.length_eq, writes, Fintype.card_fin] at ended
  rw [← show tasks.length + (tasks.length + 1) + threads = 2 * tasks.length + 1 + threads by omega,
    ← ended]
  refine forall_congr' fun tid => ?_
  change _ ↔ (phase (s.worker tid)).active = false
  cases s.worker tid <;> simp [phase]

/-- **The driver.** A text with the pattern is cut into pieces that make it up; if they are
accepted, then whatever the order of the queue and the schedule, once all threads have returned
the root's children are the modules of the pieces in the order of the text. -/
theorem parseFIR_children {text : Text} (plain : CString.NUL ∉ text) (occurs : header <:+: text) :
    ∃ fuel final, Splitter.taskLoop fuel (Splitter.start text) = some (.done final) ∧
      List.intercalate ['\n'] final.taskTexts = text ∧
      ∀ (threads : Nat) [NeZero threads] (parse : TaskRecord → Parsed),
        (∀ e ∈ final.taskQueue, ∃ own : Parse e.lineno.toNat (final.taskText e),
          parse e = ⟨own.root, own.list⟩) →
        ∀ (queue : List TaskRecord) (schedule : List (Fin threads))
          (log : List (Fin threads × ParseEvent)) (s : Workers threads),
          Sorts (final.taskQueue ++ List.replicate threads exitFlag) queue →
          run parse schedule (start queue final.taskQueue.length) = some (log, s) →
          (∀ tid, s.worker tid = .returned) →
          ∃ p lists, s.merge final.taskQueue.length = some p ∧ p.children = lists.flatten ∧
            List.Forall₂ (fun e list => ∃ own : Parse e.lineno.toNat (final.taskText e),
              own.list = list) final.taskQueue lists := by
  obtain ⟨fuel, final, ended, joined, length, ids, -, each⟩ :=
    Splitter.taskLoop_partitions plain occurs
  refine ⟨fuel, final, ended, joined, fun threads _ parse accepted queue schedule log s sorts ran
    returned => ?_⟩
  have texts : final.taskTexts.length = final.taskQueue.length := List.length_map ..
  have filled : final.taskQueue ≠ [] := by
    intro empty
    rw [Splitter.taskTexts, empty] at joined
    obtain rfl : text = [] := joined.symm
    cases List.infix_nil.mp occurs
  have own : Tasks final.taskQueue := by
    refine ⟨filled, texts ▸ ids, fun e member => ?_⟩
    obtain ⟨n, below, rfl⟩ := List.getElem_of_mem member
    obtain ⟨-, -, -, -, len, -⟩ := each n _ _
      (List.getElem?_eq_getElem (texts.symm ▸ below)) (List.getElem?_eq_getElem below)
    rw [len]
    exact Nat.le_add_left 1 _
  obtain ⟨-, p, merge, children⟩ := merged own sorts ran returned
  refine ⟨p, final.taskQueue.map fun e => (parse e).list, merge, ?_, ?_⟩
  · rw [children, List.flatMap]
  · refine List.forall₂_map_right_iff.mpr (List.forall₂_same.mpr fun e member => ?_)
    obtain ⟨own, same⟩ := accepted e member
    exact ⟨own, by rw [same]⟩

/-- Two tasks, sorted with the exit flags of two threads. -/
def twoTasks : List TaskRecord := [⟨0, 9, 1, 0⟩, ⟨9, 5, 4, 1⟩]

/-- A parse of them that leaves a module for each. -/
def twoParses (e : TaskRecord) : Parsed := ⟨.new .P_CIRCUIT e.lineno, [.new .P_MOD e.lineno]⟩

theorem twoTasks_tasks : Tasks twoTasks :=
  ⟨by decide, by decide, by decide⟩

theorem twoTasks_sorts : Sorts (twoTasks ++ List.replicate 2 exitFlag)
    [exitFlag, exitFlag, ⟨9, 5, 4, 1⟩, ⟨0, 9, 1, 0⟩] :=
  ⟨by decide, by decide⟩

/-- Both threads take a task, and the second one is done first. -/
theorem twoTasks_parsed : ∃ log s, run twoParses [0, 1, 1, 0, 0, 1, 0]
    (start [exitFlag, exitFlag, ⟨9, 5, 4, 1⟩, ⟨0, 9, 1, 0⟩] 2 : Workers 2) = some (log, s) ∧
      s.taskQueue = [] ∧ ∃ p, s.merge 2 = some p ∧
        p.children = [.new .P_MOD 1, .new .P_MOD 4] := by
  refine ⟨_, _, rfl, ?_⟩
  have all := parseFIR_schedules twoTasks_tasks twoTasks_sorts
    (rfl : run twoParses [0, 1, 1, 0, 0, 1, 0]
      (start [exitFlag, exitFlag, ⟨9, 5, 4, 1⟩, ⟨0, 9, 1, 0⟩] 2 : Workers 2) = some _)
  obtain ⟨done, -, merged⟩ := all.2.2.2.2 (by decide)
  exact ⟨done, merged⟩

/-- It takes them seven steps. -/
theorem twoTasks_ends : ∃ log s, run twoParses [0, 1, 1, 0, 0, 1, 0]
    (start [exitFlag, exitFlag, ⟨9, 5, 4, 1⟩, ⟨0, 9, 1, 0⟩] 2 : Workers 2) = some (log, s) ∧
      ∀ tid, s.worker tid = .returned := by
  refine ⟨_, _, rfl, ?_⟩
  have ends := schedule_ends twoTasks_tasks (fun _ _ _ => rfl) twoTasks_sorts
    (rfl : run twoParses [0, 1, 1, 0, 0, 1, 0]
      (start [exitFlag, exitFlag, ⟨9, 5, 4, 1⟩, ⟨0, 9, 1, 0⟩] 2 : Workers 2) = some _)
  exact ends.2.mpr rfl

open Splitter (fiveModules sixModules skipLines)

/-- The names of five modules. -/
def fiveNames : List Name :=
  [.id ⟨['A'], by decide +kernel⟩, .id ⟨['B'], by decide +kernel⟩, .id ⟨['C'], by decide +kernel⟩,
    .id ⟨['D'], by decide +kernel⟩, .id ⟨['E'], by decide +kernel⟩]

/-- The name of the sixth. -/
def sixthName : Name := .id ⟨['F'], by decide +kernel⟩

/-- The piece with the version is accepted, with a root. -/
theorem fiveModules_accepted : ∃ parse : Parse 1 fiveModules,
    parse.root.type?.isSome = true ∧
      parse.list.map PNode.name? = fiveNames.map fun name => some name.text := by
  obtain ⟨list, modules, names⟩ := parses_skipModules (1, 7) fiveNames (.token .DEDENT)
  obtain ⟨root, circuit, typed⟩ := parses_versioned (.id ⟨['A'], by decide +kernel⟩) modules
  have scanned : (Lexical.run 200 (Lexical.new 1) fiveModules).any (fun result =>
        spell result.1 (versionTokens ++ (kw .Circuit :: tok .ID ['A'] :: ch ':' :: kw .INDENT ::
          (fiveNames.flatMap skipModule ++ [kw .DEDENT])))) = true := by
    decide +kernel
  obtain ⟨⟨lexemes, s⟩, found, spelled⟩ := (Option.any_eq_true _ _).mp scanned
  obtain ⟨eof, scanned⟩ := Lexical.scanned_of_run found
  have tokens := map_token_of_spell spelled
  obtain ⟨parse, -, root', list'⟩ := Parse.of_scanned scanned (tokens.symm ▸ circuit)
  refine ⟨parse, ?_, ?_⟩
  · rw [← PNode.erase_type?, root', typed]
    rfl
  · rw [← names, ← list', List.map_map]
    exact List.map_congr_left fun p _ => (PNode.erase_name? p).symm

/-- The other piece is accepted. -/
theorem sixth_accepted : ∃ parse : Parse 18 (skipLines 'F'),
    parse.list.map PNode.name? = [some sixthName.text] := by
  obtain ⟨list, modules, names⟩ := parses_skipModules (2, 1) [sixthName] (.token .DEDENT)
  have circuit := parses_circuit modules
  have scanned : (Lexical.run 60 (Lexical.new 18) (skipLines 'F')).any (fun result =>
        spell result.1
          (kw .INDENT :: ([sixthName].flatMap skipModule ++ [kw .DEDENT]))) = true := by
    decide +kernel
  obtain ⟨⟨lexemes, s⟩, found, spelled⟩ := (Option.any_eq_true _ _).mp scanned
  obtain ⟨eof, scanned⟩ := Lexical.scanned_of_run found
  have tokens := map_token_of_spell spelled
  obtain ⟨parse, -, -, list'⟩ := Parse.of_scanned scanned (tokens.symm ▸ circuit)
  refine ⟨parse, ?_⟩
  refine Eq.trans ?_ names
  rw [← list', List.map_map]
  exact List.map_congr_left fun p _ => (PNode.erase_name? p).symm

/-- Two threads on a text that is cut into two pieces: the second piece is done first, and the
modules are merged in the order of the text. -/
theorem sixModules_children : ∃ fuel final,
    Splitter.taskLoop fuel (Splitter.start sixModules) = some (.done final) ∧
      ∃ (parse : TaskRecord → Parsed) (log : List (Fin 2 × ParseEvent)) (s : Workers 2),
        (∀ e ∈ final.taskQueue, ∃ own : Parse e.lineno.toNat (final.taskText e),
          parse e = ⟨own.root, own.list⟩) ∧
        run parse [0, 1, 1, 0, 0, 1, 0] (start [exitFlag, exitFlag, ⟨148, 23, 18, 1⟩,
          ⟨0, 148, 1, 0⟩] final.taskQueue.length) = some (log, s) ∧
        ∃ p, s.merge final.taskQueue.length = some p ∧ p.children.map PNode.name? =
          [some ['A'], some ['B'], some ['C'], some ['D'], some ['E'], some ['F']] := by
  obtain ⟨fuel, final, ended, -, driver⟩ :=
    parseFIR_children Splitter.sixModules_plain Splitter.sixModules_occurs
  obtain ⟨queue, texts⟩ := Splitter.sixModules_done ended
  rw [Splitter.taskTexts, queue] at texts
  obtain ⟨text, text'⟩ := List.cons.inj texts
  obtain ⟨first, rooted, names⟩ := fiveModules_accepted
  obtain ⟨second, names'⟩ := sixth_accepted
  cases root : first.root with
  | node type lineno info name extraInfo width sign child =>
      let parse (e : TaskRecord) : Parsed :=
        if e.id = 0 then ⟨.node type lineno info name extraInfo width sign child, first.list⟩
        else ⟨second.root, second.list⟩
      have accepted : ∀ e ∈ final.taskQueue, ∃ own : Parse e.lineno.toNat (final.taskText e),
          parse e = ⟨own.root, own.list⟩ := by
        rw [queue]
        intro e member
        rcases List.mem_cons.mp member with rfl | member
        · rw [text]
          exact ⟨first, by rw [root]; rfl⟩
        · obtain rfl := List.mem_singleton.mp member
          rw [(List.cons.inj text').1]
          exact ⟨second, rfl⟩
      have sorts : Sorts (final.taskQueue ++ List.replicate 2 exitFlag)
          [exitFlag, exitFlag, ⟨148, 23, 18, 1⟩, ⟨0, 148, 1, 0⟩] := by
        rw [queue]
        exact ⟨by decide, by decide⟩
      have length : final.taskQueue.length = 2 := by rw [queue]; rfl
      have ran : ∃ log s, run parse [0, 1, 1, 0, 0, 1, 0] (start [exitFlag, exitFlag,
          ⟨148, 23, 18, 1⟩, ⟨0, 148, 1, 0⟩] final.taskQueue.length : Workers 2) = some (log, s) ∧
            ∀ tid, s.worker tid = .returned := by
        rw [length]
        exact ⟨_, _, rfl, Fin.forall_fin_two.mpr ⟨rfl, rfl⟩⟩
      obtain ⟨log, s, ran, returned⟩ := ran
      obtain ⟨p, lists, merge, children, each⟩ :=
        driver 2 parse accepted _ _ log s sorts ran returned
      refine ⟨fuel, final, ended, parse, log, s, accepted, ran, p, merge, ?_⟩
      rw [queue] at each
      obtain ⟨_, _, ⟨own, rfl⟩, later, rfl⟩ := List.forall₂_cons_left_iff.mp each
      obtain ⟨_, _, ⟨own', rfl⟩, none, rfl⟩ := List.forall₂_cons_left_iff.mp later
      obtain rfl := List.forall₂_nil_left_iff.mp none
      have same : own.list = first.list := own.list_eq text first
      have same' : own'.list = second.list := own'.list_eq (List.cons.inj text').1 second
      rw [children, same, same', List.flatten_cons, List.flatten_cons, List.map_append,
        List.map_append, names, names']
      rfl
  | _ =>
      rw [root] at rooted
      cases rooted

end Workers

end FstWaveDemo
