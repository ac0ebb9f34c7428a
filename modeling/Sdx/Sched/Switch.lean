import Sdx.Lib.Run
import Sdx.Sched.Task

/-! # Saving and loading registers (`inc/sched/task.h`, `inc/core/im.h`)

The timer handler saves the interrupted task's registers from the interrupt frame and
loads the next task's registers into it. The frame has a slot for `r10` and so has
`task_regs_t`, but neither copy moves it: a task gets back every register but that one,
which it inherits from whatever ran before.
-/

namespace Sdx.Sched

open Lib

/-- `im_stack_t`. -/
structure ImStack where
  r15 : BitVec 64
  r14 : BitVec 64
  r13 : BitVec 64
  r12 : BitVec 64
  r11 : BitVec 64
  r10 : BitVec 64
  r9 : BitVec 64
  r8 : BitVec 64
  rdi : BitVec 64
  rsi : BitVec 64
  rbp : BitVec 64
  rdx : BitVec 64
  rcx : BitVec 64
  rbx : BitVec 64
  rax : BitVec 64
  vector : BitVec 64
  error : BitVec 64
  rip : BitVec 64
  cs : BitVec 64
  rflags : BitVec 64
  rsp : BitVec 64
  ss : BitVec 64
  deriving DecidableEq, Inhabited

/-- `__stack_to_regs`. -/
def stackToRegs (regs : TaskRegs) (stack : ImStack) : TaskRegs :=
  { regs with
    r15 := stack.r15
    r14 := stack.r14
    r13 := stack.r13
    r12 := stack.r12
    r11 := stack.r11
    r9 := stack.r9
    r8 := stack.r8
    rdi := stack.rdi
    rsi := stack.rsi
    rbp := stack.rbp
    rsp := stack.rsp
    rdx := stack.rdx
    rcx := stack.rcx
    rbx := stack.rbx
    rax := stack.rax
    rip := stack.rip
    rflags := stack.rflags
    cs := stack.cs
    ss := stack.ss }

/-- `__regs_to_stack`. -/
def regsToStack (regs : TaskRegs) (stack : ImStack) : ImStack :=
  { stack with
    r15 := regs.r15
    r14 := regs.r14
    r13 := regs.r13
    r12 := regs.r12
    r11 := regs.r11
    r9 := regs.r9
    r8 := regs.r8
    rdi := regs.rdi
    rsi := regs.rsi
    rbp := regs.rbp
    rsp := regs.rsp
    rdx := regs.rdx
    rcx := regs.rcx
    rbx := regs.rbx
    rax := regs.rax
    rip := regs.rip
    rflags := regs.rflags
    cs := regs.cs
    ss := regs.ss }

/-- `task_update_regs`. -/
def taskUpdateRegs (s : SchedState) (task : TaskId) (stack : ImStack) : SchedState :=
  s.setTask task fun t => { t with regs := stackToRegs t.regs stack }

/-- `task_update_stack`. -/
def taskUpdateStack (s : SchedState) (task : TaskId) (stack : ImStack) : ImStack :=
  regsToStack (s.tasks task).regs stack

/-- The registers the interrupted code sees when the handler returns through `stack`. -/
def ImStack.regs (stack : ImStack) : TaskRegs where
  r15 := stack.r15
  r14 := stack.r14
  r13 := stack.r13
  r12 := stack.r12
  r11 := stack.r11
  r10 := stack.r10
  r9 := stack.r9
  r8 := stack.r8
  rdi := stack.rdi
  rsi := stack.rsi
  rbp := stack.rbp
  rdx := stack.rdx
  rcx := stack.rcx
  rbx := stack.rbx
  rax := stack.rax
  rip := stack.rip
  cs := stack.cs
  ss := stack.ss
  rflags := stack.rflags
  rsp := stack.rsp

theorem regs_regsToStack (regs : TaskRegs) (stack : ImStack) :
    (regsToStack regs stack).regs = { regs with r10 := stack.r10 } := rfl

theorem stackToRegs_eq (regs : TaskRegs) (stack : ImStack) :
    stackToRegs regs stack = { stack.regs with r10 := regs.r10 } := rfl

/-! ## Schedules -/

/-- The tasks and the one interrupt stack frame they are saved from and loaded into. -/
structure SwitchState where
  sched : SchedState
  frame : ImStack

inductive SwitchOp where
  /-- An interrupt: the processor and the entry stub write a frame. -/
  | interrupt (frame : ImStack)
  | save (task : TaskId)
  | load (task : TaskId)

namespace SwitchState

def perform (w : SwitchState) : SwitchOp → SwitchState
  | .interrupt frame => { w with frame := frame }
  | .save task => { w with sched := taskUpdateRegs w.sched task w.frame }
  | .load task => { w with frame := taskUpdateStack w.sched task w.frame }

/-- The step spares the task `a`: it saves and loads other tasks only. -/
def Spares (a : TaskId) : SwitchOp → Prop
  | .interrupt _ => True
  | .save task => task ≠ a
  | .load task => task ≠ a

/-- The schedules that begin with `stack` saved into `a` and then leave `a` alone. -/
def AwayFrom (a : TaskId) (stack : ImStack) : List (SwitchState × SwitchOp) → SwitchState → Prop :=
  Run (fun w => ∃ s, w = ⟨taskUpdateRegs s a stack, stack⟩)
    (fun w op w' => Spares a op ∧ w' = w.perform op)

end SwitchState

open SwitchState

/-- While other tasks are saved and loaded, a saved task keeps all but `r10` of its frame. -/
theorem saved_regs_kept {a : TaskId} {stack : ImStack} {past : List (SwitchState × SwitchOp)}
    {w : SwitchState} (away : AwayFrom a stack past w) :
    ∃ regs, (w.sched.tasks a).regs = stackToRegs regs stack := by
  induction away with
  | init first =>
      obtain ⟨s, rfl⟩ := first
      exact ⟨(s.tasks a).regs, by simp [taskUpdateRegs]⟩
  | @next _ _ op _ _ taken ih =>
      obtain ⟨spares, rfl⟩ := taken
      obtain ⟨regs, kept⟩ := ih
      refine ⟨regs, Eq.trans ?_ kept⟩
      cases op with
      | interrupt frame => rfl
      | save task =>
          have off : a ≠ task := fun same => spares same.symm
          simp [perform, taskUpdateRegs, off]
      | load task => rfl

theorem loaded_regs {a : TaskId} {stack : ImStack} {past : List (SwitchState × SwitchOp)}
    {w : SwitchState} (away : AwayFrom a stack past w) :
    (w.perform (.load a)).frame.regs = { stack.regs with r10 := w.frame.r10 } := by
  obtain ⟨regs, kept⟩ := saved_regs_kept away
  simp only [perform, taskUpdateStack, kept, regs_regsToStack, stackToRegs_eq]

/-- A task that is loaded again sees its frame exactly when the frame it is loaded into
    happens to hold its `r10`. -/
theorem loaded_regs_eq_iff {a : TaskId} {stack : ImStack} {past : List (SwitchState × SwitchOp)}
    {w : SwitchState} (away : AwayFrom a stack past w) :
    (w.perform (.load a)).frame.regs = stack.regs ↔ w.frame.r10 = stack.r10 := by
  rw [loaded_regs away]
  constructor
  · intro same
    exact congrArg TaskRegs.r10 same
  · intro same
    rw [same]
    rfl

/-- A schedule that saves task 1 with 1 in `r10`, is interrupted with `r10` in `r10`, and then
    loads and saves task 2. -/
def twoTasks (r10 : BitVec 64) : List SwitchOp :=
  [.interrupt { (default : ImStack) with r10 := r10 }, .save 2, .load 2]

theorem twoTasks_away (r10 : BitVec 64) : ∃ past w,
    AwayFrom 1 { (default : ImStack) with r10 := 1 } past w ∧ w.frame.r10 = r10 ∧
      past.map Prod.snd = (twoTasks r10).reverse := by
  refine ⟨_, _, .next (.next (.next (.init ⟨⟨fun _ => default, fun _ => default, none, none, none,
    none⟩, rfl⟩) ⟨?_, rfl⟩) ⟨?_, rfl⟩) ⟨?_, rfl⟩, rfl, rfl⟩
  · exact trivial
  · exact (by decide : (2 : Nat) ≠ 1)
  · exact (by decide : (2 : Nat) ≠ 1)

theorem loaded_regs_twoTasks : ∃ past w, AwayFrom 1 { (default : ImStack) with r10 := 1 } past w ∧
    (w.perform (.load 1)).frame.regs = { (default : ImStack) with r10 := 1 }.regs := by
  obtain ⟨past, w, away, r10, -⟩ := twoTasks_away 1
  exact ⟨past, w, away, (loaded_regs_eq_iff away).mpr r10⟩

/-- Task 2 runs with 2 in `r10`, and task 1 finds it there. -/
theorem r10_leaks : ∃ past w, AwayFrom 1 { (default : ImStack) with r10 := 1 } past w ∧
    (w.perform (.load 1)).frame.regs ≠ { (default : ImStack) with r10 := 1 }.regs := by
  obtain ⟨past, w, away, r10, -⟩ := twoTasks_away 2
  refine ⟨past, w, away, fun same => ?_⟩
  rw [loaded_regs away, r10] at same
  exact absurd (congrArg TaskRegs.r10 same) (by decide)

end Sdx.Sched
