import FstWaveDemo.CString.Search
import FstWaveDemo.Parser.PNode

/-! # The splitter

The task loop of `parseFIR`: it cuts the text at every fifth `"\n  module "` and queues
a task for each piece. A null pointer that is incremented and a search that starts
outside the buffer are faults. The loop is described by `FstWaveDemo.Split`; it runs
without a fault exactly if the pattern occurs at all.
-/

namespace FstWaveDemo

open CString (NUL)

/-- `TaskRecord`. -/
structure TaskRecord where
  offset : Nat
  len : Nat
  lineno : Int
  id : Int
  deriving DecidableEq

def MODULES_PER_TASK : Nat := 5

/-- The pattern after its newline. -/
def headerTail : Text := "  module ".toList

/-- The pattern that the splitter searches for. -/
def header : Text := '\n' :: headerTail

/-- The local variables of `parseFIR` in its task loop; `next` is a pointer that may be
null. -/
structure Splitter where
  buffer : Text
  prev : Nat
  next : Option Nat
  next_lineno : Nat
  id : Nat
  modules : Nat
  taskQueue : List TaskRecord

namespace Splitter

/-- The variables before the loop. -/
def start (text : Text) : Splitter :=
  let buffer := text ++ [NUL]
  ⟨buffer, 0, (CString.strstr buffer 0 header).join, 1, 0, 0, []⟩

/-- The inner loop, with the value of `isEnd` after it; no result is a fault. -/
def searchLoop : (left : Nat) → Splitter → Option (Splitter × Bool)
  | 0, s => some (s, false)
  | left + 1, s =>
      s.next.bind fun next => (CString.strstr s.buffer (next + 1) header).bind fun next =>
        let s' := { s with next, modules := s.modules + 1 }
        if next.isNone then some (s', true) else searchLoop left s'

/-- The loop over the newlines from `q`, for at most `fuel` of them. -/
def lineLoop (buffer : Text) : (fuel q next_lineno : Nat) → Option Nat
  | 0, _, _ => none
  | fuel + 1, q, next_lineno =>
      (CString.strchr buffer q '\n').bind fun found =>
        match found with
        | none => some next_lineno
        | some q => lineLoop buffer fuel (q + 1) (next_lineno + 1)

/-- The block that ends a task at `next`. -/
def cutTask (s : Splitter) : Option Splitter :=
  s.next.bind fun next =>
    if s.buffer[next]? = some '\n' then
      let buffer := s.buffer.set next NUL
      (lineLoop buffer buffer.length s.prev s.next_lineno).map fun next_lineno =>
        { s with buffer, next_lineno := next_lineno + 1 }
    else none

/-- One iteration of the task loop, with the value of `isEnd`. -/
def taskStep (s : Splitter) : Option (Splitter × Bool) :=
  (searchLoop MODULES_PER_TASK s).bind fun (s₁, isEnd) =>
    (if isEnd then some s₁ else cutTask s₁).bind fun s₂ =>
      let task := ⟨s₂.prev, CString.strlen s₂.buffer s₂.prev + 1, s.next_lineno, s₂.id⟩
      let s₃ := { s₂ with taskQueue := s₂.taskQueue ++ [task], id := s₂.id + 1 }
      if isEnd then some (s₃, true)
      else s₃.next.map fun next => ({ s₃ with prev := next + 1 }, false)

/-- How the task loop ends. -/
inductive Outcome
  | fault
  | done (s : Splitter)

/-- The variables after a loop without a fault. -/
def Outcome.final? : Outcome → Option Splitter
  | .fault => none
  | .done s => some s

/-- The task loop for at most `fuel` iterations. -/
def taskLoop : (fuel : Nat) → Splitter → Option Outcome
  | 0, _ => none
  | fuel + 1, s =>
      match taskStep s with
      | none => some .fault
      | some (s, true) => some (.done s)
      | some (s, false) => taskLoop fuel s

end Splitter

/-- The number of occurrences of the pattern. -/
abbrev headers (text : Text) : Nat := CString.occurrences header text

/-- How a text is cut into tasks: a task that is not the last has five headers, and is
followed by a newline and another header. `lead` is the newline that has been cut off
before the text, if any. -/
inductive Split : (lead : Text) → (offset lineno id : Nat) → Text → List TaskRecord → List Text →
    Prop
  | last {lead text : Text} {offset lineno id : Nat} (some : 1 ≤ headers (lead ++ text))
      (few : headers (lead ++ text) ≤ MODULES_PER_TASK) :
      Split lead offset lineno id text [⟨offset, text.length + 1, lineno, id⟩] [text]
  | cut {lead first second : Text} {offset lineno id : Nat} {tasks : List TaskRecord}
      {texts : List Text} (full : headers (lead ++ first) = MODULES_PER_TASK)
      (starts : headerTail <+: second)
      (rest : Split ['\n'] (offset + first.length + 1) (lineno + first.count '\n' + 1) (id + 1)
        second tasks texts) :
      Split lead offset lineno id (first ++ '\n' :: second)
        (⟨offset, first.length + 1, lineno, id⟩ :: tasks) (first :: texts)

namespace Splitter

variable {before text after : Text} {s : Splitter}

theorem headerTail_apart : '\n' ∉ headerTail := by decide +kernel

theorem headers_append (first second : Text) :
    headers (first ++ '\n' :: second) = headers first + headers ('\n' :: second) :=
  CString.occurrences_append headerTail_apart first second

theorem headers_cons {second : Text} (starts : headerTail <+: second) :
    headers ('\n' :: second) = headers second + 1 :=
  CString.occurrences_cons second starts

/-- The inner loop from the text after the last header found: it passes as many headers
as it has iterations left, or ends. -/
theorem searchLoop_spec {left position : Nat}
    (buffer : s.buffer = before ++ (text ++ NUL :: after)) (plain : NUL ∉ text)
    (here : s.next = some position) (next : position + 1 = before.length) :
    (headers text < left → searchLoop left s =
        some ({ s with next := none, modules := s.modules + headers text + 1 }, true)) ∧
      (0 < left → left ≤ headers text → ∃ first second, text = first ++ '\n' :: second ∧
        headers first + 1 = left ∧ headerTail <+: second ∧ searchLoop left s =
          some ({ s with
            next := some (before.length + first.length)
            modules := s.modules + left }, false)) := by
  induction left generalizing s before text position with
  | zero => exact ⟨fun impossible => absurd impossible (by omega), fun impossible => by omega⟩
  | succ left ih =>
      have searched : searchLoop (left + 1) s =
          if (CString.find header text).isNone then
            some ({ s with next := none, modules := s.modules + 1 }, true)
          else searchLoop left { s with
            next := (CString.find header text).map (before.length + ·)
            modules := s.modules + 1 } := by
        rw [searchLoop, here, Option.bind_some, next, buffer, CString.strstr_append plain,
          Option.bind_some]
        cases CString.find header text <;> rfl
      cases found : CString.find header text with
      | none =>
          have absent : headers text = 0 := CString.find_none found
          rw [found] at searched
          rw [absent]
          exact ⟨fun _ => searched, fun _ impossible => by omega⟩
      | some position' =>
          obtain ⟨first, second, rfl, rfl, starts, alone⟩ :=
            CString.find_split headerTail_apart found
          rw [found] at searched
          have total : headers (first ++ '\n' :: second) = headers second + 1 := by
            rw [headers_append, headers_cons starts]
            have none : headers first = 0 := alone
            omega
          have plain' : NUL ∉ second := fun member => plain (by simp [member])
          obtain ⟨ends, passes⟩ := @ih (before ++ (first ++ ['\n'])) second { s with
              next := some (before.length + first.length), modules := s.modules + 1 }
            _ (by rw [buffer]; simp) plain' rfl (by simp; omega)
          constructor
          · intro few
            rw [searched]
            refine (ends (by omega)).trans ?_
            rw [total]
            simp [Nat.add_comm, Nat.add_left_comm]
          · intro _ many
            cases left with
            | zero =>
                exact ⟨first, second, rfl, by rw [Nat.add_right_cancel_iff]; exact alone, starts,
                  searched⟩
            | succ left =>
                obtain ⟨first', second', rfl, full, starts', passed⟩ :=
                  passes (by omega) (by omega)
                refine ⟨first ++ '\n' :: first', second', by simp, ?_, starts', ?_⟩
                · rw [CString.prefix_append_iff headerTail_apart] at starts
                  have none : headers first = 0 := alone
                  rw [headers_append, headers_cons starts, none, Nat.zero_add, full]
                · rw [searched]
                  refine passed.trans ?_
                  simp [Nat.add_comm, Nat.add_left_comm]

/-- The loop over the newlines of a string counts them. -/
theorem lineLoop_spec {buffer : Text} {fuel next_lineno : Nat}
    (shape : buffer = before ++ (text ++ NUL :: after)) (plain : NUL ∉ text)
    (enough : text.count '\n' < fuel) :
    lineLoop buffer fuel before.length next_lineno = some (next_lineno + text.count '\n') := by
  induction fuel generalizing before text next_lineno with
  | zero => omega
  | succ fuel ih =>
      rw [lineLoop, CString.strchr, shape, CString.strstr_append plain, Option.bind_some, ← shape]
      cases found : CString.find ['\n'] text with
      | none =>
          have absent := CString.find_none found
          rw [CString.occurrences_single] at absent
          rw [absent]
          rfl
      | some position =>
          obtain ⟨first, second, rfl, rfl, -, alone⟩ :=
            CString.find_split (List.not_mem_nil) found
          rw [CString.occurrences_single] at alone
          have total : (first ++ '\n' :: second).count '\n' = second.count '\n' + 1 := by
            rw [List.count_append, alone, List.count_cons_self, Nat.zero_add]
          have plain' : NUL ∉ second := fun member => plain (by simp [member])
          have onward := @ih (before ++ (first ++ ['\n'])) second (next_lineno + 1)
            (by rw [shape]; simp) plain' (by omega)
          have position :
              (before ++ (first ++ ['\n'])).length = before.length + first.length + 1 := by
            simp [Nat.add_assoc]
          rw [position] at onward
          rw [total]
          refine onward.trans ?_
          congr 1
          omega

/-- The shape of the variables when an iteration begins: the next task starts at the end
of `before`, and the header found last ends in the newline before `later`. -/
structure Ready (s : Splitter) (lead before earlier later : Text) : Prop where
  buffer : s.buffer = before ++ (earlier ++ later ++ [NUL])
  prev : s.prev = before.length
  next : s.next = some ((before ++ earlier).length - 1)
  some : 0 < (before ++ earlier).length
  plain : NUL ∉ earlier ++ later
  found : ∃ first, lead ++ earlier = first ++ ['\n'] ∧ headers first = 0
  starts : headerTail <+: later

namespace Ready

variable {lead earlier later : Text}

/-- The header found last is the only one before the text that is searched next. -/
theorem headers_eq (ready : Ready s lead before earlier later) (text : Text) :
    headers (lead ++ (earlier ++ text)) = headers ('\n' :: text) := by
  obtain ⟨first, same, alone⟩ := ready.found
  rw [← List.append_assoc, same, List.append_assoc, List.singleton_append, headers_append, alone,
    Nat.zero_add]

theorem searched (ready : Ready s lead before earlier later) :
    s.buffer = (before ++ earlier) ++ (later ++ NUL :: []) ∧ NUL ∉ later ∧
      (before ++ earlier).length - 1 + 1 = (before ++ earlier).length :=
  ⟨by rw [ready.buffer]; simp, fun member => ready.plain (List.mem_append_right _ member),
    Nat.sub_add_cancel ready.some⟩

/-- The iteration that ends the loop. -/
theorem step_last (ready : Ready s lead before earlier later)
    (few : headers later < MODULES_PER_TASK) :
    taskStep s = Option.some ({ s with
      next := none, modules := s.modules + headers later + 1, id := s.id + 1,
      taskQueue := s.taskQueue ++
        [⟨before.length, (earlier ++ later).length + 1, s.next_lineno, s.id⟩] }, true) := by
  obtain ⟨buffer, plain, position⟩ := ready.searched
  have found := (searchLoop_spec buffer plain ready.next position).1 few
  have length : CString.strlen s.buffer before.length = (earlier ++ later).length := by
    rw [CString.strlen, ready.buffer, CString.stringAt_append ready.plain]
  rw [taskStep, found]
  simp only [Option.bind_some, ↓reduceIte, ready.prev, length]

/-- An iteration that cuts the text. -/
theorem step_cut (ready : Ready s lead before earlier later)
    (many : MODULES_PER_TASK ≤ headers later) :
    ∃ first second s', later = first ++ '\n' :: second ∧
      headers first + 1 = MODULES_PER_TASK ∧ taskStep s = Option.some (s', false) ∧
      Ready s' ['\n'] (before ++ (earlier ++ first ++ [NUL])) [] second ∧
      s'.next_lineno = s.next_lineno + (earlier ++ first).count '\n' + 1 ∧ s'.id = s.id + 1 ∧
      s'.modules = s.modules + MODULES_PER_TASK ∧
      s'.taskQueue = s.taskQueue ++
        [⟨before.length, (earlier ++ first).length + 1, s.next_lineno, s.id⟩] := by
  obtain ⟨buffer, plain, position⟩ := ready.searched
  obtain ⟨first, second, rfl, full, starts, found⟩ :=
    (searchLoop_spec buffer plain ready.next position).2 (by decide) many
  have place : s.buffer = (before ++ earlier ++ first) ++ '\n' :: (second ++ [NUL]) := by
    rw [ready.buffer]
    simp
  have length :
      (before ++ earlier).length + first.length = (before ++ earlier ++ first).length := by
    simp [Nat.add_assoc]
  have newline : s.buffer[(before ++ earlier).length + first.length]? = Option.some '\n' := by
    rw [place, length, List.getElem?_append_right (Nat.le_refl _), Nat.sub_self]
    rfl
  have written : s.buffer.set ((before ++ earlier).length + first.length) NUL =
      before ++ ((earlier ++ first) ++ NUL :: (second ++ [NUL])) := by
    rw [place, length, List.set_append_right _ _ (Nat.le_refl _), Nat.sub_self]
    simp
  have plain' : NUL ∉ earlier ++ first := by
    intro member
    refine ready.plain ?_
    rw [← List.append_assoc]
    exact List.mem_append_left _ member
  have enough : (earlier ++ first).count '\n' <
      (before ++ ((earlier ++ first) ++ NUL :: (second ++ [NUL]))).length := by
    have below := List.count_le_length (a := '\n') (l := earlier ++ first)
    simp only [List.length_append, List.length_cons] at below ⊢
    omega
  have counted : lineLoop (before ++ ((earlier ++ first) ++ NUL :: (second ++ [NUL]))) _
      before.length s.next_lineno = _ := lineLoop_spec rfl plain' enough
  have cut : cutTask { s with
      next := Option.some ((before ++ earlier).length + first.length),
      modules := s.modules + MODULES_PER_TASK } = Option.some { s with
        buffer := before ++ ((earlier ++ first) ++ NUL :: (second ++ [NUL])),
        next := Option.some ((before ++ earlier).length + first.length),
        next_lineno := s.next_lineno + (earlier ++ first).count '\n' + 1,
        modules := s.modules + MODULES_PER_TASK } := by
    rw [cutTask]
    simp only [Option.bind_some, newline, ↓reduceIte, written, ready.prev, counted, Option.map_some]
  have measured : CString.strlen (before ++ ((earlier ++ first) ++ NUL :: (second ++ [NUL])))
      before.length = (earlier ++ first).length := by
    rw [CString.strlen, CString.stringAt_append plain']
  refine ⟨first, second, ⟨before ++ ((earlier ++ first) ++ NUL :: (second ++ [NUL])),
    (before ++ earlier).length + first.length + 1,
    Option.some ((before ++ earlier).length + first.length),
    s.next_lineno + (earlier ++ first).count '\n' + 1, s.id + 1, s.modules + MODULES_PER_TASK,
    s.taskQueue ++ [⟨before.length, (earlier ++ first).length + 1, s.next_lineno, s.id⟩]⟩, rfl,
    full, ?_, ?_, rfl, rfl, rfl, rfl⟩
  · rw [taskStep, found]
    simp only [Option.bind_some, Bool.false_eq_true, ↓reduceIte, cut]
    simp only [Option.map_some, ready.prev, measured]
  · have size : (before ++ (earlier ++ first ++ [NUL])).length =
        (before ++ earlier).length + first.length + 1 := by
      simp [Nat.add_assoc]
    refine ⟨by simp, size.symm, ?_, ?_, ?_, ⟨[], rfl, rfl⟩, starts⟩
    · rw [List.append_nil, size]
      rfl
    · rw [List.append_nil, size]
      exact Nat.succ_pos _
    · exact fun member => plain (by simp at member; simp [member])

end Ready

/-- **The task loop.** From an iteration on, the loop ends without a fault, having cut
the text as `Split` says, and the buffer holds the texts of the tasks, each with a NUL. -/
theorem taskLoop_split {lead earlier later : Text} (ready : Ready s lead before earlier later) :
    ∃ fuel final tasks texts, taskLoop fuel s = some (.done final) ∧
      Split lead before.length s.next_lineno s.id (earlier ++ later) tasks texts ∧
      final.taskQueue = s.taskQueue ++ tasks ∧ final.modules = s.modules + headers later + 1 ∧
      final.buffer = before ++ (List.intercalate [NUL] texts ++ [NUL]) := by
  induction size : later.length using Nat.strongRecOn generalizing s lead before earlier later with
  | _ size' ih =>
      by_cases few : headers later < MODULES_PER_TASK
      · refine ⟨1, _, _, _, by rw [taskLoop, ready.step_last few], .last ?_ ?_, rfl, rfl, ?_⟩
        · rw [ready.headers_eq, headers_cons ready.starts]
          omega
        · rw [ready.headers_eq, headers_cons ready.starts]
          exact few
        · change s.buffer = _
          rw [ready.buffer, List.intercalate_singleton]
      · obtain ⟨first, second, s', rfl, full, stepped, ready', lines, id, modules, queue⟩ :=
          ready.step_cut (Nat.le_of_not_lt few)
        obtain ⟨fuel, final, tasks, texts, ended, split, queued, counted, buffer⟩ :=
          ih second.length (by rw [← size]; simp; omega) ready' rfl
        have position : (before ++ (earlier ++ first ++ [NUL])).length =
            before.length + (earlier ++ first).length + 1 := by
          simp [Nat.add_assoc]
        rw [position, lines, id, List.nil_append] at split
        have held : headers ('\n' :: first) = MODULES_PER_TASK := by
          have starts := ready.starts
          rw [CString.prefix_append_iff headerTail_apart] at starts
          rw [headers_cons starts, full]
        refine ⟨fuel + 1, final,
          ⟨before.length, (earlier ++ first).length + 1, s.next_lineno, s.id⟩ :: tasks,
          (earlier ++ first) :: texts, ?_, ?_, ?_, ?_, ?_⟩
        · rw [taskLoop, stepped]
          exact ended
        · have held' : headers (lead ++ (earlier ++ first)) = MODULES_PER_TASK := by
            rw [ready.headers_eq]
            exact held
          have cut := Split.cut held' ready'.starts split
          rw [List.append_assoc] at cut
          exact cut
        · rw [queued, queue, List.append_assoc, List.singleton_append]
        · rw [counted, modules, headers_append, headers_cons ready'.starts]
          omega
        · obtain ⟨text, others, rfl⟩ : ∃ text others, texts = text :: others := by
            cases split with
            | last => exact ⟨_, _, rfl⟩
            | cut => exact ⟨_, _, rfl⟩
          rw [buffer, List.intercalate_cons_cons]
          simp

/-- Before the loop, the first header has been found. -/
theorem start_ready {text : Text} (plain : NUL ∉ text) (occurs : header <:+: text) :
    ∃ first second, text = first ++ '\n' :: second ∧ headers text = headers second + 1 ∧
      Ready (start text) [] [] (first ++ ['\n']) second := by
  obtain ⟨position, found⟩ := Option.ne_none_iff_exists'.mp (CString.infix_iff_find.mp occurs)
  obtain ⟨first, second, rfl, rfl, starts, alone⟩ := CString.find_split headerTail_apart found
  have searched : CString.strstr (first ++ '\n' :: second ++ [NUL]) 0 header = _ :=
    CString.strstr_zero plain header
  refine ⟨first, second, rfl, ?_, by simp [start], rfl, ?_, by simp, by simpa using plain,
    ⟨first, rfl, alone⟩, starts⟩
  · have none : headers first = 0 := alone
    rw [headers_append, headers_cons starts, none, Nat.zero_add]
  · change (CString.strstr (first ++ '\n' :: second ++ [NUL]) 0 header).join = _
    rw [searched, header, found]
    simp

/-- Without the pattern, the first iteration increments a null pointer. -/
theorem taskLoop_fault {text : Text} (plain : NUL ∉ text) (absent : ¬ header <:+: text)
    (fuel : Nat) : taskLoop (fuel + 1) (start text) = some .fault := by
  have none : CString.find header text = none := by
    by_contra found
    exact absent (CString.infix_iff_find.mpr found)
  have searched : CString.strstr (text ++ [NUL]) 0 header = _ :=
    CString.strstr_zero plain header
  have null : (start text).next = Option.none := by
    change (CString.strstr (text ++ [NUL]) 0 header).join = _
    rw [searched, none]
    rfl
  rw [taskLoop, taskStep, MODULES_PER_TASK, searchLoop, null]
  rfl

end Splitter

namespace Split

variable {lead text : Text} {offset lineno id : Nat} {tasks : List TaskRecord} {texts : List Text}

theorem texts_cons (split : Split lead offset lineno id text tasks texts) :
    ∃ first others, texts = first :: others := by
  cases split with
  | last => exact ⟨_, _, rfl⟩
  | cut => exact ⟨_, _, rfl⟩

/-- The pieces, joined with newlines, are the text. -/
theorem joined (split : Split lead offset lineno id text tasks texts) :
    List.intercalate ['\n'] texts = text := by
  induction split with
  | last => exact List.intercalate_singleton
  | cut _ _ rest ih =>
      obtain ⟨first, others, rfl⟩ := rest.texts_cons
      rw [List.intercalate_cons_cons, ih]
      simp

/-- There is one task for every five headers, and one for the others. -/
theorem length_eq (split : Split lead offset lineno id text tasks texts) :
    texts.length = (headers (lead ++ text) + 4) / 5 := by
  induction split with
  | last some few =>
      unfold MODULES_PER_TASK at few
      rw [List.length_singleton]
      omega
  | cut full _ _ ih =>
      rw [List.length_cons, ih, ← List.append_assoc, Splitter.headers_append, full,
        List.singleton_append, MODULES_PER_TASK]
      omega

/-- The tasks are numbered in text order. -/
theorem ids (split : Split lead offset lineno id text tasks texts) :
    tasks.map TaskRecord.id = (List.range' id texts.length).map Int.ofNat := by
  induction split with
  | last => rfl
  | cut _ _ _ ih =>
      rw [List.map_cons, ih, List.length_cons, List.range'_succ, List.map_cons]
      rfl

/-- What the buffer holds at the offsets of the tasks. -/
theorem strings (split : Split lead offset lineno id text tasks texts) (plain : NUL ∉ text)
    (before : Text) (place : before.length = offset) :
    tasks.map (fun task => CString.stringAt
      (before ++ (List.intercalate [NUL] texts ++ [NUL])) task.offset) = texts := by
  induction split generalizing before with
  | last =>
      rw [List.map_singleton, List.intercalate_singleton, ← place, CString.stringAt_append plain]
  | @cut lead first second offset lineno id tasks texts full starts rest ih =>
      have plain' : NUL ∉ first := fun member => plain (List.mem_append_left _ member)
      have plain'' : NUL ∉ second := fun member => plain (by simp [member])
      have onward := ih plain'' (before ++ (first ++ [NUL]))
        (by simp [place, Nat.add_assoc])
      obtain ⟨text, others, rfl⟩ := rest.texts_cons
      have same : before ++ (List.intercalate [NUL] (first :: text :: others) ++ [NUL]) =
          before ++ (first ++ [NUL]) ++ (List.intercalate [NUL] (text :: others) ++ [NUL]) := by
        rw [List.intercalate_cons_cons]
        simp
      rw [List.map_cons, same, onward, ← same, List.intercalate_cons_cons, ← place,
        List.append_assoc, List.append_assoc, List.singleton_append, CString.stringAt_append plain']

/-- The headers of the tasks: five in each task that is not the last. -/
theorem held (split : Split lead offset lineno id text tasks texts) {n : Nat} {piece : Text}
    (listed : texts[n]? = some piece) :
    (n + 1 < texts.length → headers ((if n = 0 then lead else ['\n']) ++ piece) = 5) ∧
      1 ≤ headers ((if n = 0 then lead else ['\n']) ++ piece) ∧
      headers ((if n = 0 then lead else ['\n']) ++ piece) ≤ 5 ∧
      (0 < n → headerTail <+: piece) := by
  induction split generalizing n with
  | last some few =>
      cases n with
      | zero =>
          obtain rfl := Option.some.inj listed
          exact ⟨fun impossible => absurd impossible (by simp), some, few,
            fun impossible => absurd impossible (by decide)⟩
      | succ n => exact absurd listed (by simp)
  | cut full starts rest ih =>
      cases n with
      | zero =>
          obtain rfl := Option.some.inj listed
          refine ⟨fun _ => full, ?_, Nat.le_of_eq full,
            fun impossible => absurd impossible (by decide)⟩
          rw [if_pos rfl, full]
          decide
      | succ n =>
          obtain ⟨five, some, few, begins⟩ := ih listed
          have lead' : (if n = 0 then ['\n'] else ['\n']) = ['\n'] := ite_self _
          rw [lead'] at five some few
          rw [if_neg (Nat.succ_ne_zero n)]
          refine ⟨fun more => five (by simpa using more), some, few, fun _ => ?_⟩
          cases n with
          | zero =>
              cases rest with
              | last => exact Option.some.inj listed ▸ starts
              | cut _ _ _ =>
                  rw [CString.prefix_append_iff Splitter.headerTail_apart] at starts
                  exact Option.some.inj listed ▸ starts
          | succ n => exact begins (Nat.succ_pos n)

/-- Where the tasks are in the text, and on which line. -/
theorem placed (split : Split lead offset lineno id text tasks texts) {n : Nat} {piece : Text}
    {task : TaskRecord} (listed : texts[n]? = some piece) (queued : tasks[n]? = some task) :
    task.len = piece.length + 1 ∧ ∃ first rest, text = first ++ (piece ++ rest) ∧
      task.offset = offset + first.length ∧ task.lineno = (lineno + first.count '\n' : Nat) := by
  induction split generalizing n with
  | last some few =>
      cases n with
      | zero =>
          obtain rfl := Option.some.inj listed
          obtain rfl := Option.some.inj queued
          exact ⟨rfl, [], [], by simp, rfl, rfl⟩
      | succ n => exact absurd listed (by simp)
  | @cut lead head second _ _ _ _ _ full starts rest ih =>
      cases n with
      | zero =>
          obtain rfl := Option.some.inj listed
          obtain rfl := Option.some.inj queued
          exact ⟨rfl, [], _, rfl, rfl, rfl⟩
      | succ n =>
          obtain ⟨len, first, others, rfl, place, line⟩ := ih listed queued
          refine ⟨len, head ++ '\n' :: first, others, by simp, ?_, ?_⟩
          · rw [place]
            simp only [List.length_append, List.length_cons]
            omega
          · rw [line, List.count_append, List.count_cons_self]
            omega

end Split

namespace Splitter

/-- The text of a task: from its offset to the next NUL. -/
def taskText (s : Splitter) (task : TaskRecord) : Text := CString.stringAt s.buffer task.offset

/-- The texts of the queued tasks. -/
def taskTexts (s : Splitter) : List Text := s.taskQueue.map s.taskText

/-- How the task loop ends does not depend on the number of iterations it is given. -/
theorem taskLoop_unique {fuel fuel' : Nat} {outcome outcome' : Outcome}
    (first : taskLoop fuel s = some outcome) (second : taskLoop fuel' s = some outcome') :
    outcome = outcome' := by
  induction fuel generalizing fuel' s with
  | zero => exact nomatch first
  | succ fuel ih =>
      cases fuel' with
      | zero => exact nomatch second
      | succ fuel' =>
          rw [taskLoop] at first second
          cases step : taskStep s with
          | none =>
              rw [step] at first second
              exact Option.some.inj (first.symm.trans second)
          | some result =>
              obtain ⟨s', isEnd⟩ := result
              rw [step] at first second
              cases isEnd with
              | true => exact Option.some.inj (first.symm.trans second)
              | false => exact ih first second

/-- The task loop on a text with the pattern ends without a fault, having split it. -/
theorem taskLoop_done {text : Text} (plain : NUL ∉ text) (occurs : header <:+: text) :
    ∃ fuel final, taskLoop fuel (start text) = some (.done final) ∧
      final.modules = headers text ∧ Split [] 0 1 0 text final.taskQueue final.taskTexts := by
  obtain ⟨first, second, rfl, total, ready⟩ := start_ready plain occurs
  obtain ⟨fuel, final, tasks, texts, ended, split, queued, modules, buffer⟩ := taskLoop_split ready
  have whole : first ++ ['\n'] ++ second = first ++ '\n' :: second := by simp
  rw [whole] at split
  have queue : final.taskQueue = tasks := queued
  have same : final.taskTexts = texts := by
    rw [taskTexts, queue]
    refine (List.map_congr_left fun task _ => ?_).trans (split.strings plain [] rfl)
    rw [taskText, buffer]
  refine ⟨fuel, final, ended, ?_, ?_⟩
  · rw [modules, total]
    exact congrArg (· + 1) (Nat.zero_add _)
  · rw [same, queue]
    exact split

/-- **The splitter.** For a text with the pattern, the task loop ends, its tasks joined
with newlines are the text, it queues one task for every five headers in text order, and
every task has its length, its place in the text and its line. -/
theorem taskLoop_partitions {text : Text} (plain : NUL ∉ text) (occurs : header <:+: text) :
    ∃ fuel final, taskLoop fuel (start text) = some (.done final) ∧
      List.intercalate ['\n'] final.taskTexts = text ∧
      final.taskTexts.length = (headers text + 4) / 5 ∧
      final.taskQueue.map TaskRecord.id = (List.range final.taskTexts.length).map Int.ofNat ∧
      final.modules = headers text ∧
      ∀ n piece task, final.taskTexts[n]? = some piece → final.taskQueue[n]? = some task →
        (n + 1 < final.taskTexts.length →
            headers ((if n = 0 then [] else ['\n']) ++ piece) = 5) ∧
          1 ≤ headers ((if n = 0 then [] else ['\n']) ++ piece) ∧
          headers ((if n = 0 then [] else ['\n']) ++ piece) ≤ 5 ∧
          (0 < n → headerTail <+: piece) ∧ task.len = piece.length + 1 ∧
          (text.drop task.offset).take piece.length = piece ∧
          task.lineno = ((1 + (text.take task.offset).count '\n' : Nat) : Int) ∧
          ∀ place ≤ piece.length,
            ((1 + (text.take (task.offset + place)).count '\n' : Nat) : Int) =
              task.lineno + ((piece.take place).count '\n' : Nat) := by
  obtain ⟨fuel, final, ended, modules, split⟩ := taskLoop_done plain occurs
  have ids := split.ids
  rw [← List.range_eq_range'] at ids
  refine ⟨fuel, final, ended, split.joined, split.length_eq, ids, modules, ?_⟩
  intro n piece task listed queued
  obtain ⟨five, some, few, begins⟩ := split.held listed
  obtain ⟨len, first, rest, same, place, line⟩ := split.placed listed queued
  rw [Nat.zero_add] at place
  refine ⟨five, some, few, begins, len, ?_, ?_, ?_⟩
  · rw [same, place, List.drop_left, List.take_left]
  · rw [line, same, place, List.take_left]
  · intro within below
    rw [line, same, place, List.take_append, List.take_of_length_le (by omega),
      Nat.add_sub_cancel_left, List.take_append_of_le_length below, List.count_append]
    omega

/-- **Safety of the splitter.** The task loop ends without a fault, with tasks that cover
the text, exactly if the text has the pattern. -/
theorem taskLoop_safe_iff {text : Text} (plain : NUL ∉ text) :
    (∃ fuel final, taskLoop fuel (start text) = some (.done final) ∧ final.taskQueue ≠ [] ∧
        List.intercalate ['\n'] final.taskTexts = text) ↔ header <:+: text := by
  constructor
  · rintro ⟨fuel, final, ended, -, -⟩
    by_contra absent
    cases fuel with
    | zero => exact absurd ended (by simp [taskLoop])
    | succ fuel => exact absurd ((taskLoop_fault plain absent fuel).symm.trans ended) (by simp)
  · intro occurs
    obtain ⟨fuel, final, ended, -, split⟩ := taskLoop_done plain occurs
    refine ⟨fuel, final, ended, fun empty => ?_, split.joined⟩
    obtain ⟨first, others, filled⟩ := split.texts_cons
    rw [taskTexts, empty] at filled
    exact absurd filled (by simp)

/-- A circuit whose only module is public. -/
def publicOnly : Text := "circuit A :\n  public module A :\n    skip\n".toList

/-- On it, the task loop increments a null pointer. -/
theorem publicOnly_fault : ¬ ∃ fuel final,
    taskLoop fuel (start publicOnly) = some (.done final) := by
  rintro ⟨fuel, final, ended⟩
  cases fuel with
  | zero => exact absurd ended (by simp [taskLoop])
  | succ fuel =>
      have checked : NUL ∉ publicOnly ∧ CString.find ('\n' :: headerTail) publicOnly = none := by
        decide +kernel
      have faulty := taskLoop_fault checked.1 (by
        rw [header, CString.infix_iff_find]
        exact fun found => found checked.2) fuel
      exact absurd (faulty.symm.trans ended) (by simp)

/-- A circuit with a module that the splitter finds. -/
def oneModule : Text := "circuit A :\n  module A :\n    skip\n".toList

theorem oneModule_checked :
    NUL ∉ oneModule ∧ CString.find ('\n' :: headerTail) oneModule = some 11 := by
  decide +kernel

theorem oneModule_occurs : header <:+: oneModule := by
  rw [header, CString.infix_iff_find, oneModule_checked.2]
  exact Option.some_ne_none 11

/-- It is safe to split. -/
theorem oneModule_safe :
    ∃ fuel final, taskLoop fuel (start oneModule) = some (.done final) ∧ final.taskQueue ≠ [] ∧
      List.intercalate ['\n'] final.taskTexts = oneModule :=
  (taskLoop_safe_iff oneModule_checked.1).mpr oneModule_occurs

/-- The lines of a module with a name of one letter. -/
def skipLines (name : Char) : Text := "  module ".toList ++ name :: " :\n    skip\n".toList

/-- A circuit with its version and five modules. -/
def fiveModules : Text :=
  "FIRRTL version 3.3.0\ncircuit A :\n".toList ++
    List.intercalate ['\n'] ("ABCDE".toList.map skipLines)

/-- The same with a sixth module. -/
def sixModules : Text := fiveModules ++ '\n' :: skipLines 'F'

theorem sixModules_checked :
    NUL ∉ sixModules ∧ CString.find ('\n' :: headerTail) sixModules = some 32 ∧
      headers sixModules = 6 ∧ headers ('\n' :: skipLines 'F') = 1 := by
  decide +kernel

theorem sixModules_plain : NUL ∉ sixModules := sixModules_checked.1

theorem sixModules_occurs : header <:+: sixModules := by
  rw [header, CString.infix_iff_find, sixModules_checked.2.1]
  exact Option.some_ne_none 32

/-- However many iterations the task loop is given, it cuts off the sixth module. -/
theorem sixModules_done {fuel : Nat} {final : Splitter}
    (ended : taskLoop fuel (start sixModules) = some (.done final)) :
    final.taskQueue = [⟨0, 148, 1, 0⟩, ⟨148, 23, 18, 1⟩] ∧
      final.taskTexts = [fiveModules, skipLines 'F'] := by
  have computed : ((taskLoop 2 (start sixModules)).bind Outcome.final?).any (fun s =>
      decide (s.taskQueue = [⟨0, 148, 1, 0⟩, ⟨148, 23, 18, 1⟩]) &&
        decide (s.taskTexts = [fiveModules, skipLines 'F'])) = true := by
    decide +kernel
  obtain ⟨s, found, same⟩ := (Option.any_eq_true _ _).mp computed
  obtain ⟨outcome, reached, final'⟩ := Option.bind_eq_some_iff.mp found
  obtain rfl := taskLoop_unique ended reached
  obtain rfl := Option.some.inj final'
  simpa using same

/-- It makes two tasks, and the second one is in the text from line 18. -/
theorem sixModules_partitions :
    ∃ fuel final, taskLoop fuel (start sixModules) = some (.done final) ∧
      List.intercalate ['\n'] final.taskTexts = sixModules ∧ final.taskTexts.length = 2 ∧
      final.taskQueue.map TaskRecord.id = [0, 1] ∧ final.modules = 6 ∧
      headers fiveModules = 5 ∧ headers ('\n' :: skipLines 'F') = 1 ∧
      (sixModules.drop 148).take 22 = skipLines 'F' ∧
      18 = ((1 + (sixModules.take 148).count '\n' : Nat) : Int) := by
  obtain ⟨fuel, final, ended, joined, length, ids, modules, each⟩ :=
    taskLoop_partitions sixModules_plain sixModules_occurs
  obtain ⟨queue, texts⟩ := sixModules_done ended
  obtain ⟨-, -, six, last⟩ := sixModules_checked
  obtain ⟨five, -⟩ := each 0 fiveModules ⟨0, 148, 1, 0⟩ (by rw [texts]; rfl) (by rw [queue]; rfl)
  obtain ⟨-, some, few, -, -, place, line, -⟩ :=
    each 1 (skipLines 'F') ⟨148, 23, 18, 1⟩ (by rw [texts]; rfl) (by rw [queue]; rfl)
  rw [six] at length modules
  rw [texts] at ids five
  exact ⟨fuel, final, ended, joined, length, ids, modules, five (by decide), last, place, line⟩

end Splitter

end FstWaveDemo
