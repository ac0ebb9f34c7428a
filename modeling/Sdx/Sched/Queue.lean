import Sdx.Lib.LinkedList
import Sdx.Lib.Run
import Sdx.Sched.Task
import Mathlib.Data.List.Perm.Basic

/-! # The task queue (`sched/sched.c`, `util/list.h`)

The loops of the queue follow pointers, so they carry a number of steps they may take.
`none` stands for a loop that does not end within them and for a `NULL` that is
dereferenced.

`__sched_queue_add` places a task behind some other task but never moves `task_tail`,
and it has no task to start from other than the tail. `Represents` is what the queue is
meant to satisfy; it survives exactly as long as nothing is added to a queue that has a
task already.
-/

namespace Sdx.Sched

open Lib Lib.LinkedList

/-! ## The operations -/

/-- What the loop of `dlist_del` does once `cur` is found in front of the entry. The successor
    of the entry is pointed back past `cur`. -/
def dlistUnlink (s : SchedState) (cur entry : TaskId) : SchedState :=
  let s := match s.next entry with
    | none => s
    | some after => s.setPrev after (s.prev cur)
  s.setNext cur (s.next entry)

/-- The loop of `dlist_del`. -/
def dlistDelLoop (s : SchedState) (entry : TaskId) : Nat → Option TaskId → Option SchedState
  | 0, _ => none
  | _ + 1, none => some s
  | fuel + 1, some cur =>
      if s.next cur ≠ some entry then dlistDelLoop s entry fuel (s.next cur)
      else some (dlistUnlink s cur entry)

/-- The first part of `dlist_del`: a deleted head is followed by its successor. -/
def dlistDelHead (s : SchedState) (entry : TaskId) : Option SchedState :=
  if s.head ≠ some entry then some s
  else (s.next entry).map fun first => { s with head := some first }.setPrev first none

/-- `dlist_del`, in its use as `__sched_queue_del`. -/
def schedQueueDel (fuel : Nat) (s : SchedState) (entry : TaskId) : Option SchedState := do
  let s ← dlistDelHead s entry
  if s.tail = some entry then
    (s.prev entry).map fun last => { s with tail := some last }.setNext last none
  else if s.head.isSome then dlistDelLoop s entry fuel s.head
  else some s

/-- Placing a task behind `cur`. -/
def schedQueuePlace (s : SchedState) (task cur : TaskId) : SchedState :=
  let s := s.setPrev task (some cur)
  let s := s.setNext task (s.next cur)
  let s := s.setNext cur (some task)
  match s.next task with
  | none => s
  | some after => s.setPrev after (some task)

/-- The reverse walk of `__sched_queue_add`. It goes on after it has placed the task. -/
def schedQueueAddLoop (s : SchedState) (task : TaskId) : Nat → Option TaskId → Option SchedState
  | 0, _ => none
  | _ + 1, none => some s
  | fuel + 1, some cur =>
      if (s.tasks task).prio > (s.tasks cur).prio then schedQueueAddLoop s task fuel (s.prev cur)
      else
        let s := schedQueuePlace s task cur
        schedQueueAddLoop s task fuel (s.prev cur)

/-- `__sched_queue_add`. -/
def schedQueueAdd (fuel : Nat) (s : SchedState) (task : TaskId) : Option SchedState :=
  if s.head = none ∧ s.tail = none then
    some (({ s with head := some task, tail := some task }.setNext task none).setPrev task none)
  else do
    let s ← schedQueueAddLoop s task fuel s.tail
    let current ← s.current
    if (s.tasks task).prio > (s.tasks current).prio then some { s with promoted := some task }
    else some s

/-! ## What the operations do to the links -/

section

variable {s s' : SchedState} {task entry cur t : TaskId} {fuel : Nat}

theorem schedQueuePlace_next : (schedQueuePlace s task cur).next =
    Function.update (Function.update s.next task (s.next cur)) cur (some task) := by
  simp only [schedQueuePlace, SchedState.setPrev_next]
  split <;> simp

/-- Placing a task points the task that follows back at it; other `prev` fields stay. -/
theorem schedQueuePlace_prev (off : cur ≠ task) (other : t ≠ task) (notNext : s.next cur ≠ some t) :
    (schedQueuePlace s task cur).prev t = s.prev t := by
  simp only [schedQueuePlace, SchedState.setPrev_next, SchedState.setNext_next]
  rw [Function.update_of_ne off.symm, Function.update_self]
  cases after : s.next cur with
  | none => simp [other]
  | some u =>
      have apart : t ≠ u := by
        rintro rfl
        exact notNext after
      simp [other, apart]

theorem schedQueuePlace_globals : (schedQueuePlace s task cur).head = s.head ∧
    (schedQueuePlace s task cur).tail = s.tail ∧
    (schedQueuePlace s task cur).current = s.current := by
  unfold schedQueuePlace
  dsimp only
  split <;> simp

theorem schedQueuePlace_linksOnly : s.LinksOnly (schedQueuePlace s task cur) := by
  have placed := ((SchedState.LinksOnly.setPrev s task (some cur)).trans
    (.setNext _ task ((s.setPrev task (some cur)).next cur))).trans (.setNext _ cur (some task))
  unfold schedQueuePlace
  dsimp only
  split
  · exact placed
  · exact placed.trans (.setPrev _ _ _)

/-- The reverse walk from a tail without a predecessor ends there. So a task is placed behind the
    tail or, with a higher priority than the tail's, nowhere. -/
theorem schedQueueAdd_of_tail (off : t ≠ task) (tail : s.tail = some t) (prev : s.prev t = none)
    (ahead : s.next t ≠ some t) (done : schedQueueAdd fuel s task = some s') :
    ∃ promoted, s' =
      { (if (s.tasks task).prio > (s.tasks t).prio then s else schedQueuePlace s task t) with
        promoted := promoted } := by
  simp only [schedQueueAdd, tail, reduceCtorEq, and_false, if_false, Option.bind_eq_bind,
    Option.bind_eq_some_iff] at done
  obtain ⟨placed, loop, current, -, done⟩ := done
  have ended : placed =
      if (s.tasks task).prio > (s.tasks t).prio then s else schedQueuePlace s task t := by
    cases fuel with
    | zero => cases loop
    | succ fuel =>
        rw [schedQueueAddLoop] at loop
        split at loop
        · next higher =>
            rw [prev] at loop
            cases fuel with
            | zero => cases loop
            | succ fuel =>
                cases loop
                rw [if_pos higher]
        · next lower =>
            dsimp only at loop
            rw [schedQueuePlace_prev off off ahead, prev] at loop
            cases fuel with
            | zero => cases loop
            | succ fuel =>
                cases loop
                rw [if_neg lower]
  rw [← ended]
  split at done
  · cases done
    exact ⟨some task, rfl⟩
  · cases done
    exact ⟨s'.promoted, rfl⟩

/-- So the tail stays the tail and gets no predecessor. -/
theorem schedQueueAdd_tail (off : t ≠ task) (tail : s.tail = some t) (prev : s.prev t = none)
    (ahead : s.next t ≠ some t) (done : schedQueueAdd fuel s task = some s') :
    s'.tail = some t ∧ s'.prev t = none := by
  obtain ⟨promoted, rfl⟩ := schedQueueAdd_of_tail off tail prev ahead done
  split
  · exact ⟨tail, prev⟩
  · exact ⟨schedQueuePlace_globals.2.1.trans tail, (schedQueuePlace_prev off off ahead).trans prev⟩

theorem dlistUnlink_next : (dlistUnlink s cur entry).next =
    Function.update s.next cur (s.next entry) := by
  unfold dlistUnlink
  dsimp only
  split <;> simp

theorem dlistUnlink_prev (notNext : s.next entry ≠ some t) :
    (dlistUnlink s cur entry).prev t = s.prev t := by
  unfold dlistUnlink
  dsimp only
  split
  · simp
  · next u after =>
      have apart : t ≠ u := by
        rintro rfl
        exact notNext after
      simp [apart]

theorem dlistUnlink_globals : (dlistUnlink s cur entry).head = s.head ∧
    (dlistUnlink s cur entry).tail = s.tail ∧ (dlistUnlink s cur entry).current = s.current := by
  unfold dlistUnlink
  dsimp only
  split <;> simp

theorem dlistUnlink_linksOnly : s.LinksOnly (dlistUnlink s cur entry) := by
  unfold dlistUnlink
  dsimp only
  split
  · exact .setNext _ _ _
  · exact (SchedState.LinksOnly.setPrev s _ _).trans (.setNext _ _ _)

/-- On a walk that has the entry behind its first task, the loop of `dlist_del` unlinks it. -/
theorem dlistDelLoop_walk {start : Option TaskId} {l : List TaskId} (walk : Walk s.next start l)
    (mem : entry ∈ l.tail) (done : dlistDelLoop s entry fuel start = some s') :
    ∃ l₁ before l₂, l = l₁ ++ before :: entry :: l₂ ∧ s' = dlistUnlink s before entry := by
  induction walk generalizing fuel with
  | stop => cases mem
  | @visit x l walk ih =>
      cases fuel with
      | zero => cases done
      | succ fuel =>
          rw [dlistDelLoop] at done
          split at done
          · next pass =>
              have first := walk.head_eq
              cases l with
              | nil => cases mem
              | cons y l =>
                  rw [List.head?_cons] at first
                  have later : entry ∈ l := by
                    cases mem with
                    | head => exact absurd first pass
                    | tail _ mem => exact mem
                  obtain ⟨l₁, before, l₂, split, unlinked⟩ := ih later done
                  exact ⟨x :: l₁, before, l₂, by rw [split]; rfl, unlinked⟩
          · next here =>
              cases done
              have first := walk.head_eq
              rw [Classical.not_not.mp here] at first
              cases l with
              | nil => cases mem
              | cons y l =>
                  cases first
                  exact ⟨[], x, l, rfl, rfl⟩

/-- Deleting a task that is neither head nor tail. -/
theorem schedQueueDel_walk {l : List TaskId} (walk : Walk s.next s.head l) (mem : entry ∈ l.tail)
    (notTail : s.tail ≠ some entry) (done : schedQueueDel fuel s entry = some s') :
    ∃ l₁ before l₂, l = l₁ ++ before :: entry :: l₂ ∧ s' = dlistUnlink s before entry := by
  have notHead : s.head ≠ some entry := by
    intro head
    have once := walk.nodup
    cases l with
    | nil => cases mem
    | cons x l =>
        have first := walk.head_eq
        rw [head, List.head?_cons] at first
        cases first
        exact (List.nodup_cons.mp once).1 mem
  have some_head : s.head.isSome := by
    cases l with
    | nil => cases mem
    | cons x l => rw [walk.head_eq]; rfl
  simp only [schedQueueDel, dlistDelHead, ne_eq, notHead, not_false_eq_true, if_true,
    Option.bind_eq_bind, Option.bind_some, notTail, if_false, some_head] at done
  exact dlistDelLoop_walk walk mem done

end

/-! ## Runs of the queue -/

/-- The scheduler and the tasks that were added to its queue and not deleted. -/
structure QueueState where
  sched : SchedState
  queued : List TaskId

inductive QueueOp where
  | add (task : TaskId) (prio : Nat)
  | del (task : TaskId)
  /-- The scheduler picks a queued task as `task_current`. -/
  | switch (task : TaskId)
  deriving DecidableEq

namespace QueueState

/-- What the callers of the queue keep to: the added task is a fresh one, `task_current` is
    queued as soon as anything is, and the head is not deleted. -/
def Allowed (q : QueueState) : QueueOp → Prop
  | .add task prio => task ∉ q.queued ∧ 1 ≤ prio ∧ prio ≤ 63 ∧
      (q.queued ≠ [] → ∃ current ∈ q.queued, q.sched.current = some current)
  | .del task => task ∈ q.queued ∧ q.sched.head ≠ some task
  | .switch task => task ∈ q.queued

/-- A fresh task has its priority and no neighbours. -/
def perform (fuel : Nat) (q : QueueState) : QueueOp → Option QueueState
  | .add task prio =>
      let fresh := q.sched.setTask task fun t => { t with prio := prio, next := none, prev := none }
      (schedQueueAdd fuel fresh task).map fun s => ⟨s, task :: q.queued⟩
  | .del task => (schedQueueDel fuel q.sched task).map fun s => ⟨s, q.queued.erase task⟩
  | .switch task => some ⟨{ q.sched with current := some task }, q.queued⟩

def Step (q : QueueState) (op : QueueOp) (q' : QueueState) : Prop :=
  q.Allowed op ∧ ∃ fuel, q.perform fuel op = some q'

def Start (q : QueueState) : Prop := q.sched.head = none ∧ q.sched.tail = none ∧ q.queued = []

/-- Both walks visit the queued tasks, each once, in opposite orders, and priorities never
    increase along the forward walk. -/
def Represents (q : QueueState) : Prop :=
  ∃ l, Holds q.sched.next q.sched.prev q.sched.head q.sched.tail l ∧ l.Perm q.queued ∧
    l.Pairwise fun t u => (q.sched.tasks u).prio ≤ (q.sched.tasks t).prio

/-- An addition happens to an empty queue. -/
def AddsToEmpty (q : QueueState) : QueueOp → Prop
  | .add _ _ => q.queued = []
  | _ => True

end QueueState

/-! ## The states before the first addition to a queue in use -/

open QueueState

/-- The queue is empty or its only task is both head and tail. -/
inductive QueueState.Small (q : QueueState) : Prop where
  | empty : q.sched.head = none → q.sched.tail = none → q.queued = [] → Small q
  | single (t : TaskId) : q.sched.head = some t → q.sched.tail = some t →
      q.sched.next t = none → q.sched.prev t = none → q.queued = [t] → Small q

theorem QueueState.Small.represents {q : QueueState} (small : q.Small) : q.Represents := by
  cases small with
  | empty head tail queued =>
      refine ⟨[], ?_, queued ▸ List.Perm.refl [], .nil⟩
      rw [head, tail]
      exact ⟨.stop, .stop⟩
  | single t head tail next prev queued =>
      refine ⟨[t], ?_, queued ▸ List.Perm.refl [t], List.pairwise_singleton ..⟩
      rw [head, tail]
      constructor
      · apply Walk.visit
        rw [next]
        exact .stop
      · apply Walk.visit
        rw [prev]
        exact .stop

theorem QueueState.Small.keep {q q' : QueueState} {op : QueueOp} (small : q.Small)
    (guard : q.AddsToEmpty op) (step : q.Step op q') : q'.Small := by
  obtain ⟨allowed, fuel, done⟩ := step
  cases op with
  | add task prio =>
      cases small with
      | empty head tail queued =>
          simp only [perform, schedQueueAdd, SchedState.setTask_head, SchedState.setTask_tail, head,
            tail, and_self, if_true, Option.map_some, Option.some.injEq] at done
          subst done
          exact .single task rfl rfl (by simp) (by simp) (by simp [queued])
      | single t _ _ _ _ queued =>
          simp only [AddsToEmpty, queued] at guard
          cases guard
  | del task =>
      obtain ⟨mem, notHead⟩ := allowed
      cases small with
      | empty _ _ queued => simp [queued] at mem
      | single t head _ _ _ queued =>
          rw [queued, List.mem_singleton] at mem
          exact absurd (mem ▸ head) notHead
  | switch task =>
      simp only [perform, Option.some.injEq] at done
      subst done
      cases small with
      | empty head tail queued => exact .empty head tail queued
      | single t head tail next prev queued => exact .single t head tail next prev queued

/-- Adding to a queue with a task leaves the backward walk at that one task. -/
theorem QueueState.Small.breaks {q q' : QueueState} {op : QueueOp} (small : q.Small)
    (guard : ¬ q.AddsToEmpty op) (step : q.Step op q') : ¬ q'.Represents := by
  obtain ⟨allowed, fuel, done⟩ := step
  cases op with
  | add task prio =>
      cases small with
      | empty _ _ queued => exact absurd queued guard
      | single t head tail next prev queued =>
          obtain ⟨fresh, -, -, -⟩ := allowed
          have off : t ≠ task := by
            rintro rfl
            simp [queued] at fresh
          simp only [perform, Option.map_eq_some_iff] at done
          obtain ⟨s', done, rfl⟩ := done
          have prev' : (q.sched.tasks t).prev = none := prev
          have next' : (q.sched.tasks t).next = none := next
          obtain ⟨tail', prev'⟩ := schedQueueAdd_tail off (by simpa using tail)
            (by simpa [SchedState.prev, off] using prev')
            (by simp [SchedState.next, off, next']) done
          rintro ⟨l, holds, perm, -⟩
          have alone : Walk s'.prev s'.tail [t] := by
            rw [tail']
            apply Walk.visit
            rw [prev']
            exact .stop
          have visited := congrArg List.length (holds.backward.unique alone)
          have both := perm.length_eq
          simp [queued] at visited both
          omega
  | del task => exact absurd trivial guard
  | switch task => exact absurd trivial guard

/-- The queue is represented in every state of a run exactly when every addition of the run
    happens to an empty queue. -/
theorem represents_iff_adds_to_empty {past : List (QueueState × QueueOp)} {q : QueueState}
    (run : Run Start Step past q) : Run.Always Represents past q ↔ Run.Guarded AddsToEmpty past :=
  Run.always_iff QueueState.Small (fun _ ⟨head, tail, queued⟩ => .empty head tail queued)
    (fun _ _ _ small guard step => small.keep guard step) (fun _ small => small.represents)
    (fun _ _ _ small guard step => small.breaks guard step) run

/-- The scheduler before `sched_init` has added a task. -/
def emptyQueue : QueueState :=
  ⟨⟨fun _ => default, fun _ => default, none, none, none, none⟩, []⟩

theorem emptyQueue_add : ∃ q, Step emptyQueue (.add 1 1) q ∧ q.Small ∧ q.queued = [1] := by
  refine ⟨_, ⟨⟨by decide, by decide, by decide, fun busy => absurd rfl busy⟩, 1, rfl⟩, ?_, rfl⟩
  exact .single 1 rfl rfl rfl rfl rfl

theorem represents_after_one_add :
    ∃ q, q.queued = [1] ∧ Run.Always Represents [(emptyQueue, QueueOp.add 1 1)] q := by
  obtain ⟨q, step, -, queued⟩ := emptyQueue_add
  have run : Run Start Step [(emptyQueue, QueueOp.add 1 1)] q := .next (.init ⟨rfl, rfl, rfl⟩) step
  refine ⟨q, queued, (represents_iff_adds_to_empty run).mpr ?_⟩
  intro before mem
  cases mem with
  | head => exact rfl
  | tail _ mem => cases mem

/-- Adding task 1 and then, with task 1 running, task 2 loses the queue. -/
theorem not_represents_after_two_adds :
    ∃ past q, Run Start Step past q ∧ ¬ q.Represents := by
  refine ⟨_, _, .next (i := .add 2 1) (.next (i := .switch 1) (.next (i := .add 1 1)
    (.init (s := emptyQueue) ⟨rfl, rfl, rfl⟩) ⟨?_, 1, rfl⟩) ⟨?_, 0, rfl⟩) ⟨?_, 2, rfl⟩, ?_⟩
  · exact ⟨by decide, by decide, by decide, fun busy => absurd rfl busy⟩
  · exact List.mem_singleton_self 1
  · exact ⟨by decide, by decide, by decide, fun _ => ⟨1, List.mem_singleton_self 1, rfl⟩⟩
  · rintro ⟨l, holds, perm, -⟩
    -- the backward walk from the tail stops at task 1 at once
    have alone := holds.backward.unique (.visit (x := 1) .stop)
    have both := perm.length_eq
    rw [List.reverse_eq_cons_iff] at alone
    simp [alone] at both

end Sdx.Sched
