import Mathlib.Logic.Function.Basic
import Sdx.Base

/-! # Tasks and the globals of the scheduler (`inc/sched/task.h`, `sched/sched.c`)

A task and a wait queue entry live on the kernel heap and are named by their address.
`SchedState` is that part of the heap together with the four globals of `sched.c`; a pointer
is an `Option`, with `none` for `NULL`.
-/

namespace Sdx.Sched

/-- The address of a `task_t`. -/
abbrev TaskId := Nat

/-- The address of a `task_waitq_t`. -/
abbrev WaitqId := Nat

/-- `task_regs_t`. -/
structure TaskRegs where
  r15 : BitVec 64
  r14 : BitVec 64
  r13 : BitVec 64
  r12 : BitVec 64
  r11 : BitVec 64
  r10 : BitVec 64
  r9 : BitVec 64
  r8 : BitVec 64
  rdi : BitVec 64
  rsi : BitVec 64
  rbp : BitVec 64
  rdx : BitVec 64
  rcx : BitVec 64
  rbx : BitVec 64
  rax : BitVec 64
  rip : BitVec 64
  cs : BitVec 64
  ss : BitVec 64
  rflags : BitVec 64
  rsp : BitVec 64
  deriving DecidableEq, Inhabited

/-- The task's state; the field has four bits but only these values are stored in it. -/
inductive TaskState where
  /-- The task is holding the scheduler. -/
  | hold
  | ready
  /-- The registers of the task were saved by itself. -/
  | save
  | wait
  | dead
  | fork
  deriving DecidableEq, Inhabited

/-- `TASK_PRIO_LOW`. -/
def taskPrioLow : Nat := 1

/-- `TASK_TICKS_DEFAULT`. -/
def taskTicksDefault : Nat := 20

/-- `task_t`. The signal queue is the list of its values. -/
structure Task where
  pid : Int
  ppid : Int
  cpid : Int
  regs : TaskRegs
  ticks : Nat
  state : TaskState
  prio : Nat
  sighand : Nat → Nat
  signal : List Int
  waitqHead : Option WaitqId
  waitqTail : Option WaitqId
  termCode : Int
  exitCode : Int
  /-- The addresses on the memory region list. -/
  mem : List Nat
  vmm : Nat
  old : Bool
  next : Option TaskId
  prev : Option TaskId
  deriving Inhabited

/-- `task_waitq_t`. -/
structure Waitq where
  pid : Int
  status : BitVec 32
  next : Option WaitqId
  deriving Inhabited

structure SchedState where
  tasks : TaskId → Task
  waitqs : WaitqId → Waitq
  head : Option TaskId
  tail : Option TaskId
  current : Option TaskId
  promoted : Option TaskId

namespace SchedState

/-- Write to fields of one task. -/
def setTask (s : SchedState) (t : TaskId) (f : Task → Task) : SchedState :=
  { s with tasks := Function.update s.tasks t (f (s.tasks t)) }

/-- Write to fields of one wait queue entry. -/
def setWaitq (s : SchedState) (w : WaitqId) (f : Waitq → Waitq) : SchedState :=
  { s with waitqs := Function.update s.waitqs w (f (s.waitqs w)) }

/-- The `next` field of every task. -/
def next (s : SchedState) (t : TaskId) : Option TaskId := (s.tasks t).next

/-- The `prev` field of every task. -/
def prev (s : SchedState) (t : TaskId) : Option TaskId := (s.tasks t).prev

section

variable (s : SchedState) (t u : TaskId) (w v : WaitqId) (f : Task → Task) (g : Waitq → Waitq)

@[simp] theorem setTask_head : (s.setTask t f).head = s.head := rfl
@[simp] theorem setTask_tail : (s.setTask t f).tail = s.tail := rfl
@[simp] theorem setTask_current : (s.setTask t f).current = s.current := rfl
@[simp] theorem setTask_promoted : (s.setTask t f).promoted = s.promoted := rfl
@[simp] theorem setTask_waitqs : (s.setTask t f).waitqs = s.waitqs := rfl
@[simp] theorem setWaitq_head : (s.setWaitq w g).head = s.head := rfl
@[simp] theorem setWaitq_tail : (s.setWaitq w g).tail = s.tail := rfl
@[simp] theorem setWaitq_current : (s.setWaitq w g).current = s.current := rfl
@[simp] theorem setWaitq_tasks : (s.setWaitq w g).tasks = s.tasks := rfl

@[simp] theorem setTask_same : (s.setTask t f).tasks t = f (s.tasks t) := Function.update_self ..

@[simp] theorem setWaitq_same : (s.setWaitq w g).waitqs w = g (s.waitqs w) :=
  Function.update_self ..

@[simp] theorem setTask_other (off : u ≠ t) : (s.setTask t f).tasks u = s.tasks u :=
  Function.update_of_ne off ..

@[simp] theorem setWaitq_other (off : v ≠ w) : (s.setWaitq w g).waitqs v = s.waitqs v :=
  Function.update_of_ne off ..

end

/-- `task->next = n`. -/
def setNext (s : SchedState) (t : TaskId) (n : Option TaskId) : SchedState :=
  s.setTask t fun task => { task with next := n }

/-- `task->prev = p`. -/
def setPrev (s : SchedState) (t : TaskId) (p : Option TaskId) : SchedState :=
  s.setTask t fun task => { task with prev := p }

/-- A write that keeps a field of the task keeps it in every task. -/
theorem setTask_field {β : Type} (field : Task → β) (s : SchedState) (t : TaskId) (f : Task → Task)
    (same : ∀ task, field (f task) = field task) (u : TaskId) :
    field ((s.setTask t f).tasks u) = field (s.tasks u) := by
  by_cases here : u = t
  · rw [here, setTask_same, same]
  · rw [setTask_other _ _ _ _ here]

section

variable (s : SchedState) (t : TaskId) (n : Option TaskId)

@[simp] theorem setNext_head : (s.setNext t n).head = s.head := rfl
@[simp] theorem setNext_tail : (s.setNext t n).tail = s.tail := rfl
@[simp] theorem setNext_current : (s.setNext t n).current = s.current := rfl
@[simp] theorem setPrev_head : (s.setPrev t n).head = s.head := rfl
@[simp] theorem setPrev_tail : (s.setPrev t n).tail = s.tail := rfl
@[simp] theorem setPrev_current : (s.setPrev t n).current = s.current := rfl

@[simp] theorem setNext_next : (s.setNext t n).next = Function.update s.next t n := by
  funext u
  by_cases here : u = t
  · simp [next, setNext, here]
  · simp [next, setNext, here]

@[simp] theorem setPrev_prev : (s.setPrev t n).prev = Function.update s.prev t n := by
  funext u
  by_cases here : u = t
  · simp [prev, setPrev, here]
  · simp [prev, setPrev, here]

@[simp] theorem setNext_prev : (s.setNext t n).prev = s.prev :=
  funext fun u => s.setTask_field Task.prev t (fun task => { task with next := n }) (fun _ => rfl) u

@[simp] theorem setPrev_next : (s.setPrev t n).next = s.next :=
  funext fun u => s.setTask_field Task.next t (fun task => { task with prev := n }) (fun _ => rfl) u

end

/-- `s'` differs from `s` in the links of tasks and the globals only. -/
def LinksOnly (s s' : SchedState) : Prop :=
  s'.waitqs = s.waitqs ∧ ∀ u, ∃ n p, s'.tasks u = { s.tasks u with next := n, prev := p }

namespace LinksOnly

variable {s s' s'' : SchedState}

theorem refl (s : SchedState) : LinksOnly s s := ⟨rfl, fun u => ⟨s.next u, s.prev u, rfl⟩⟩

theorem trans (first : LinksOnly s s') (second : LinksOnly s' s'') : LinksOnly s s'' := by
  refine ⟨second.1.trans first.1, fun u => ?_⟩
  obtain ⟨n, p, same⟩ := first.2 u
  obtain ⟨n', p', same'⟩ := second.2 u
  exact ⟨n', p', by rw [same', same]⟩

theorem setNext (s : SchedState) (t : TaskId) (n : Option TaskId) : LinksOnly s (s.setNext t n) := by
  refine ⟨rfl, fun u => ?_⟩
  by_cases here : u = t
  · exact ⟨n, s.prev u, by rw [here, SchedState.setNext, setTask_same]; rfl⟩
  · exact ⟨s.next u, s.prev u, by rw [SchedState.setNext, setTask_other _ _ _ _ here]; rfl⟩

theorem setPrev (s : SchedState) (t : TaskId) (p : Option TaskId) : LinksOnly s (s.setPrev t p) := by
  refine ⟨rfl, fun u => ?_⟩
  by_cases here : u = t
  · exact ⟨s.next u, p, by rw [here, SchedState.setPrev, setTask_same]; rfl⟩
  · exact ⟨s.next u, s.prev u, by rw [SchedState.setPrev, setTask_other _ _ _ _ here]; rfl⟩

/-- What a task has besides its links is the same before and after. -/
theorem field {β : Type} (links : LinksOnly s s') (f : Task → β)
    (same : ∀ task n p, f { task with next := n, prev := p } = f task) (u : TaskId) :
    f (s'.tasks u) = f (s.tasks u) := by
  obtain ⟨n, p, eq⟩ := links.2 u
  rw [eq, same]

end LinksOnly

end SchedState

end Sdx.Sched
