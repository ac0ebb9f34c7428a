import Sdx.Lib.Run
import Sdx.Sched.Pid

/-! # Collecting children (`syscall/wait.c`)

`task_waitq_add` links a new entry behind `waitq_tail` but leaves the tail where it is.
With one entry pending that is right, since head and tail are the same entry; a third
pending entry takes the place of the second one. So every child is reported in order
exactly as long as no entry is added while two are pending.
-/

namespace Sdx.Sched

open Lib

/-- What `sys_wait` reports of a child: its PID and its status. -/
abbrev WaitReport := Int × BitVec 32

/-- The end of `sys_wait`: the next entry is taken, read and freed. -/
def waitReport (s : SchedState) (task : TaskId) : Option WaitReport × SchedState :=
  match taskWaitqPop s task with
  | (none, s) => (none, s)
  | (some w, s) => (some ((s.waitqs w).pid, (s.waitqs w).status), s)

inductive WaitResult where
  | report (child : WaitReport)
  | error (code : Int)
  /-- The task waits and looks again when it runs next. -/
  | waits

/-- `sched_child` for the first child. -/
def schedChild (fuel : Nat) (s : SchedState) (task : TaskId) : Option (Option TaskId) :=
  dlistFind s (fun t => t.ppid == (s.tasks task).pid) fuel s.head

/-- One pass of `sys_wait`. -/
def sysWait (fuel : Nat) (s : SchedState) (task : TaskId) : Option (WaitResult × SchedState) := do
  match waitReport s task with
  | (some child, s) => some (.report child, s)
  | (none, _) =>
      match ← schedChild fuel s task with
      | none => some (.error (-eCHILD), s)
      | some _ => some (.waits, s.setTask task fun t => { t with state := .wait })

/-! ## Runs of one task's queue -/

/-- The scheduler, the reports of the entries that were added and not collected, oldest first,
    and the addresses of the entries that are not freed. -/
structure WaitState where
  sched : SchedState
  pending : List WaitReport
  inUse : List WaitqId

inductive WaitOp where
  /-- A dead child is collected; its entry gets the address `waitq`. -/
  | add (waitq : WaitqId) (child : TaskId)
  | pop

/-- The report of a dead child. -/
def childReport (child : Task) : WaitReport := (child.pid, waitqStatus child)

namespace WaitState

variable (task : TaskId)

def perform (w : WaitState) : WaitOp → WaitState
  | .add waitq child =>
      ⟨(taskWaitqAdd w.sched (some waitq) task child).2,
        w.pending ++ [childReport (w.sched.tasks child)], waitq :: w.inUse⟩
  | .pop =>
      ⟨(waitReport w.sched task).2, w.pending.tail,
        w.inUse.filter fun e => (taskWaitqPop w.sched task).1 ≠ some e⟩

/-- The heap hands out an address that is not in use. -/
def Step (w : WaitState) (op : WaitOp) (w' : WaitState) : Prop :=
  (∀ waitq child, op = .add waitq child → waitq ∉ w.inUse) ∧ w' = w.perform task op

def Start (w : WaitState) : Prop := (w.sched.tasks task).waitqHead = none ∧ w.pending = []

/-- What the pops from here on return, by their number. -/
def nthReport (s : SchedState) : Nat → Option WaitReport
  | 0 => (waitReport s task).1
  | n + 1 => nthReport (waitReport s task).2 n

/-- The pops return the pending entries in the order they were added, each once, and then nothing. -/
def InOrder (w : WaitState) : Prop := ∀ n, nthReport task w.sched n = w.pending[n]?

/-- An entry is added while at most one is pending. -/
def AddsBehindOne (w : WaitState) : WaitOp → Prop
  | .add _ _ => w.pending.length ≤ 1
  | .pop => True

end WaitState

open WaitState

/-! ## The states with at most two pending entries -/

section

variable {task : TaskId}

/-- The report an entry holds. -/
def SchedState.reportAt (s : SchedState) (w : WaitqId) : WaitReport :=
  ((s.waitqs w).pid, (s.waitqs w).status)

/-- At most two entries are pending, and head and tail are the first of them. -/
inductive Short (task : TaskId) (w : WaitState) : Prop where
  | none : (w.sched.tasks task).waitqHead = .none → w.pending = [] → Short task w
  | one (a : WaitqId) : (w.sched.tasks task).waitqHead = some a →
      (w.sched.tasks task).waitqTail = some a → (w.sched.waitqs a).next = .none →
      w.pending = [w.sched.reportAt a] → a ∈ w.inUse → Short task w
  | two (a b : WaitqId) : a ≠ b → (w.sched.tasks task).waitqHead = some a →
      (w.sched.tasks task).waitqTail = some a → (w.sched.waitqs a).next = some b →
      (w.sched.waitqs b).next = .none → w.pending = [w.sched.reportAt a, w.sched.reportAt b] →
      a ∈ w.inUse → b ∈ w.inUse → Short task w

theorem waitReport_empty {s : SchedState} (head : (s.tasks task).waitqHead = none) :
    waitReport s task = (none, s) := by
  simp [waitReport, taskWaitqPop, head]

/-- Taking an entry that is head and tail moves both to the entry behind it. -/
theorem taskWaitqPop_first {s : SchedState} {a : WaitqId}
    (head : (s.tasks task).waitqHead = some a) (tail : (s.tasks task).waitqTail = some a) :
    ∃ s', taskWaitqPop s task = (some a, s') ∧ s'.waitqs = s.waitqs ∧
      (s'.tasks task).waitqHead = (s.waitqs a).next ∧
      (s'.tasks task).waitqTail = (s.waitqs a).next := by
  simp only [taskWaitqPop, head, SchedState.setTask_same, tail, if_true]
  exact ⟨_, rfl, rfl, by simp, by simp⟩

theorem waitReport_first {s : SchedState} {a : WaitqId} (head : (s.tasks task).waitqHead = some a)
    (tail : (s.tasks task).waitqTail = some a) :
    ∃ s', waitReport s task = (some (s.reportAt a), s') ∧ s'.waitqs = s.waitqs ∧
      (s'.tasks task).waitqHead = (s.waitqs a).next ∧
      (s'.tasks task).waitqTail = (s.waitqs a).next := by
  obtain ⟨s', pop, waitqs, head', tail'⟩ := taskWaitqPop_first head tail
  refine ⟨s', ?_, waitqs, head', tail'⟩
  simp only [waitReport, pop, SchedState.reportAt, waitqs]

theorem nthReport_empty {s : SchedState} (head : (s.tasks task).waitqHead = none) (n : Nat) :
    nthReport task s n = none := by
  induction n with
  | zero => rw [nthReport, waitReport_empty head]
  | succ n ih => rw [nthReport, waitReport_empty head, ih]

/-- From a state with one entry. -/
theorem nthReport_one {s : SchedState} {a : WaitqId} (head : (s.tasks task).waitqHead = some a)
    (tail : (s.tasks task).waitqTail = some a) (next : (s.waitqs a).next = none) (n : Nat) :
    nthReport task s n = [s.reportAt a][n]? := by
  obtain ⟨s', pop, -, head', -⟩ := waitReport_first head tail
  cases n with
  | zero => rw [nthReport, pop]; rfl
  | succ n =>
      rw [nthReport, pop, nthReport_empty (head'.trans next)]
      rfl

/-- From a state with two entries. -/
theorem nthReport_two {s : SchedState} {a b : WaitqId} (head : (s.tasks task).waitqHead = some a)
    (tail : (s.tasks task).waitqTail = some a) (next : (s.waitqs a).next = some b)
    (last : (s.waitqs b).next = none) (n : Nat) :
    nthReport task s n = [s.reportAt a, s.reportAt b][n]? := by
  obtain ⟨s', pop, waitqs, head', tail'⟩ := waitReport_first head tail
  cases n with
  | zero => rw [nthReport, pop]; rfl
  | succ n =>
      have rest := nthReport_one (head'.trans next) (tail'.trans next) (waitqs ▸ last) n
      rw [nthReport, pop, rest]
      simp [SchedState.reportAt, waitqs]

/-- The first entry becomes head and tail. -/
theorem taskWaitqAdd_empty {s : SchedState} (head : (s.tasks task).waitqHead = none) (w : WaitqId)
    (child : TaskId) : ∃ s', taskWaitqAdd s (some w) task child = (0, s') ∧
      (s'.tasks task).waitqHead = some w ∧ (s'.tasks task).waitqTail = some w ∧
      (s'.waitqs w).next = none ∧ s'.reportAt w = childReport (s.tasks child) := by
  simp only [taskWaitqAdd, SchedState.setWaitq_tasks, head]
  exact ⟨_, rfl, by simp, by simp, by simp, by simp [SchedState.reportAt, childReport]⟩

/-- A further entry goes behind the tail, whatever was there. -/
theorem taskWaitqAdd_behind {s : SchedState} {a w : WaitqId}
    (head : (s.tasks task).waitqHead = some a) (tail : (s.tasks task).waitqTail = some a)
    (off : a ≠ w) (child : TaskId) : ∃ s', taskWaitqAdd s (some w) task child = (0, s') ∧
      s'.tasks = s.tasks ∧ (s'.waitqs a).next = some w ∧ (s'.waitqs w).next = none ∧
      s'.reportAt a = s.reportAt a ∧ s'.reportAt w = childReport (s.tasks child) := by
  simp only [taskWaitqAdd, SchedState.setWaitq_tasks, head, tail]
  refine ⟨_, rfl, rfl, ?_, ?_, ?_, ?_⟩
  · simp
  · simp [off.symm]
  · simp [SchedState.reportAt, off]
  · simp [SchedState.reportAt, off.symm, childReport]

theorem Short.inOrder {w : WaitState} (short : Short task w) : w.InOrder task := by
  intro n
  cases short with
  | none head pending =>
      rw [nthReport_empty head, pending]
      rfl
  | one a head tail next pending => rw [nthReport_one head tail next, pending]
  | two a b _ head tail next last pending => rw [nthReport_two head tail next last, pending]

theorem Short.keep {w w' : WaitState} {op : WaitOp} (short : Short task w)
    (guard : w.AddsBehindOne op) (step : w.Step task op w') : Short task w' := by
  obtain ⟨fresh, rfl⟩ := step
  cases op with
  | add c child =>
      cases short with
      | none head pending =>
          obtain ⟨s', add, head', tail', next', report⟩ := taskWaitqAdd_empty head c child
          refine .one c ?_ ?_ ?_ ?_ List.mem_cons_self <;> simp only [perform, add]
          · exact head'
          · exact tail'
          · exact next'
          · rw [pending, report]; rfl
      | one a head tail next pending mem =>
          have off : a ≠ c := by
            rintro rfl
            exact fresh a child rfl mem
          obtain ⟨s', add, tasks, next', last', first, report⟩ :=
            taskWaitqAdd_behind head tail off child
          refine .two a c off ?_ ?_ ?_ ?_ ?_ (List.mem_cons_of_mem _ mem) List.mem_cons_self <;>
            simp only [perform, add]
          · rw [tasks]; exact head
          · rw [tasks]; exact tail
          · exact next'
          · exact last'
          · rw [pending, first, report]; rfl
      | two a b _ _ _ _ _ pending =>
          simp only [AddsBehindOne, pending, List.length_cons, List.length_nil] at guard
          omega
  | pop =>
      cases short with
      | none head pending =>
          refine .none ?_ ?_ <;> simp only [perform, waitReport_empty head]
          · exact head
          · rw [pending]; rfl
      | one a head tail next pending mem =>
          obtain ⟨s', pop, -, head', -⟩ := waitReport_first head tail
          refine .none ?_ ?_ <;> simp only [perform, pop]
          · exact head'.trans next
          · rw [pending]; rfl
      | two a b off head tail next last pending _ mem =>
          obtain ⟨s', pop, waitqs, head', tail'⟩ := waitReport_first head tail
          obtain ⟨_, popped, -⟩ := taskWaitqPop_first head tail
          refine .one b ?_ ?_ ?_ ?_ ?_ <;> simp only [perform, pop]
          · exact head'.trans next
          · exact tail'.trans next
          · rw [waitqs]; exact last
          · rw [pending]
            simp [SchedState.reportAt, waitqs]
          · simp [popped, mem, off]

/-- A third entry takes the place of the second. -/
theorem Short.breaks {w w' : WaitState} {op : WaitOp} (short : Short task w)
    (guard : ¬ w.AddsBehindOne op) (step : w.Step task op w') : ¬ w'.InOrder task := by
  obtain ⟨fresh, rfl⟩ := step
  cases op with
  | add c child =>
      cases short with
      | none _ pending => simp [AddsBehindOne, pending] at guard
      | one _ _ _ _ pending _ => simp [AddsBehindOne, pending] at guard
      | two a b _ head tail next last pending mem _ =>
          have off : a ≠ c := by
            rintro rfl
            exact fresh a child rfl mem
          obtain ⟨s', add, tasks, next', last', -, -⟩ := taskWaitqAdd_behind head tail off child
          intro inOrder
          have third := inOrder 2
          simp only [perform, add, pending] at third
          rw [nthReport_two (tasks ▸ head) (tasks ▸ tail) next' last'] at third
          simp at third
  | pop => exact absurd trivial guard

/-- The pending entries are reported in order in every state of a run exactly when the run never
    adds an entry while two are pending. -/
theorem inOrder_iff_addsBehindOne {past : List (WaitState × WaitOp)} {w : WaitState}
    (run : Run (WaitState.Start task) (WaitState.Step task) past w) :
    Run.Always (InOrder task) past w ↔ Run.Guarded AddsBehindOne past :=
  Run.always_iff (Short task) (fun _ ⟨head, pending⟩ => .none head pending)
    (fun _ _ _ short guard step => short.keep guard step) (fun _ short => short.inOrder)
    (fun _ _ _ short guard step => short.breaks guard step) run

/-- Where the pending entries are in order, `sys_wait` reports the oldest one and waits or fails
    only without any. -/
theorem sysWait_report {w : WaitState} (inOrder : w.InOrder task) (fuel : Nat)
    {child : WaitReport} {rest : List WaitReport} (pending : w.pending = child :: rest) :
    ∃ s', sysWait fuel w.sched task = some (.report child, s') := by
  have first := inOrder 0
  rw [pending, nthReport] at first
  rcases report : waitReport w.sched task with ⟨result, s'⟩
  rw [report] at first
  cases first
  exact ⟨s', by simp [sysWait, report]⟩

end

/-- Tasks whose PIDs are their addresses, none of them with an entry. -/
def noEntries : WaitState :=
  ⟨{ emptyQueue.sched with tasks := fun t => { (default : Task) with pid := t } }, [], []⟩

theorem inOrder_two_adds : ∃ past w, Run (WaitState.Start 1) (WaitState.Step 1) past w ∧
    past.map Prod.snd = [.pop, .add 200 3, .add 100 2] ∧ Run.Always (InOrder 1) past w := by
  have run : ∃ past w, Run (WaitState.Start 1) (WaitState.Step 1) past w ∧
      past.map Prod.snd = [.pop, .add 200 3, .add 100 2] ∧ Run.Guarded AddsBehindOne past := by
    refine ⟨_, _, .next (i := .pop) (.next (i := .add 200 3) (.next (i := .add 100 2)
      (.init (s := noEntries) ⟨rfl, rfl⟩) ⟨?_, rfl⟩) ⟨?_, rfl⟩) ⟨nofun, rfl⟩, rfl, ?_⟩
    · rintro _ _ ⟨⟩
      decide
    · rintro _ _ ⟨⟩
      decide
    · simp [Run.Guarded, AddsBehindOne, noEntries, WaitState.perform]
  obtain ⟨past, w, run, ops, guarded⟩ := run
  exact ⟨past, w, run, ops, (inOrder_iff_addsBehindOne run).mpr guarded⟩

/-- Three dead children of task 1 with PIDs 2, 3 and 4: the one with PID 3 is never reported. -/
theorem not_inOrder_three_adds : ∃ past w, Run (WaitState.Start 1) (WaitState.Step 1) past w ∧
    past.map Prod.snd = [.add 300 4, .add 200 3, .add 100 2] ∧ ¬ w.InOrder 1 := by
  refine ⟨_, _, .next (i := .add 300 4) (.next (i := .add 200 3) (.next (i := .add 100 2)
    (.init (s := noEntries) ⟨rfl, rfl⟩) ⟨?_, rfl⟩) ⟨?_, rfl⟩) ⟨?_, rfl⟩, rfl, ?_⟩
  · rintro _ _ ⟨⟩
    decide
  · rintro _ _ ⟨⟩
    decide
  · rintro _ _ ⟨⟩
    decide
  · intro inOrder
    exact absurd (inOrder 1) (by decide)

end Sdx.Sched
