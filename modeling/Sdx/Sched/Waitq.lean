import Sdx.Sched.Task

/-! # The wait queue (`sched/waitq.c`, `syscall/wait.c`)

`heap_alloc` is the argument `waitq` of `taskWaitqAdd`: the address it returns, or `none`.
-/

namespace Sdx.Sched

/-- `child->exit_code << 8 | child->term_code & 0xffff` on `int32_t`. -/
def waitqStatus (child : Task) : BitVec 32 :=
  BitVec.ofInt 32 child.exitCode <<< 8 ||| (BitVec.ofInt 32 child.termCode &&& 0xffff#32)

/-- `task_waitq_add` with both arguments given. -/
def taskWaitqAdd (s : SchedState) (waitq : Option WaitqId) (task child : TaskId) : Int × SchedState :=
  match waitq with
  | none => (-eNOMEM, s)
  | some w =>
      let s := s.setWaitq w fun _ => ⟨(s.tasks child).pid, waitqStatus (s.tasks child), none⟩
      match (s.tasks task).waitqHead, (s.tasks task).waitqTail with
      | some _, some tail => (0, s.setWaitq tail fun entry => { entry with next := some w })
      | _, _ => (0, s.setTask task fun t => { t with waitqHead := some w, waitqTail := some w })

/-- Adding an entry writes to the two queue pointers of the task only. -/
theorem taskWaitqAdd_field {β : Type} (field : Task → β)
    (same : ∀ t head tail, field { t with waitqHead := head, waitqTail := tail } = field t)
    (s : SchedState) (waitq : Option WaitqId) (task child u : TaskId) :
    field ((taskWaitqAdd s waitq task child).2.tasks u) = field (s.tasks u) := by
  cases waitq with
  | none => rfl
  | some w =>
      simp only [taskWaitqAdd]
      split
      · rfl
      · exact SchedState.setTask_field field _ task
          (fun t => { t with waitqHead := some w, waitqTail := some w }) (fun t => same t _ _) u

theorem taskWaitqAdd_globals (s : SchedState) (waitq : Option WaitqId) (task child : TaskId) :
    (taskWaitqAdd s waitq task child).2.head = s.head ∧
    (taskWaitqAdd s waitq task child).2.tail = s.tail ∧
    (taskWaitqAdd s waitq task child).2.current = s.current := by
  cases waitq with
  | none => exact ⟨rfl, rfl, rfl⟩
  | some w =>
      simp only [taskWaitqAdd]
      split <;> exact ⟨rfl, rfl, rfl⟩

/-- `task_waitq_pop` with the argument given. `slist_del` only takes the head here. -/
def taskWaitqPop (s : SchedState) (task : TaskId) : Option WaitqId × SchedState :=
  match (s.tasks task).waitqHead with
  | none => (none, s)
  | some w =>
      let s := s.setTask task fun t => { t with waitqHead := (s.waitqs w).next }
      if (s.tasks task).waitqTail = some w then
        (some w, s.setTask task fun t => { t with waitqTail := (s.waitqs w).next })
      else (some w, s)

end Sdx.Sched
