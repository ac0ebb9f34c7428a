import Sdx.Sched.Pid

/-! # The timer interrupt (`sched/sched.c`, `sched/signal.c`)

`sched()` raises the timer interrupt itself, so a task calls the handler directly. A task in
state `save` tells the handler that its saved registers are newer than the frame, and the
handler writes them over the frame. They are newer only for a task that has just written
them itself.
-/

namespace Sdx.Sched

open Lib Lib.LinkedList

/-! ## Signals -/

/-- `SIG_MIN` and `SIG_MAX`. -/
def sigMin : Int := 1
def sigMax : Int := 5

/-- `SIG_EXIT_CODE`. -/
def sigExitCode : Int := 128

inductive SigAction where
  | dfl
  | ign
  | handler
  deriving DecidableEq

/-- What `task->sighand[signal]` holds. The table ends at `SIG_MAX - 1`; behind it lies the
    pointer to the signal queue. -/
def signalAction (t : Task) (signal : Int) : SigAction :=
  if signal = sigMax then (if t.signal = [] then .dfl else .handler)
  else
    match t.sighand signal.toNat with
    | 0 => .dfl
    | 1 => .ign
    | _ => .handler

/-- `task_signal_pop` and what follows from it: a signal with the default action makes the task
    exit, and `sched_exit` raises the timer interrupt again, which takes the next signal. The
    result says whether the task has exited. -/
def timerSignals (fuel : Nat) (s : SchedState) (current : TaskId) :
    List Int → Option (Bool × SchedState)
  | [] => some (false, s)
  | signal :: rest =>
      let s := s.setTask current fun t => { t with signal := rest }
      if signal > sigMax ∨ signal < sigMin then some (false, s)
      else if signalAction (s.tasks current) signal = .dfl then do
        let s := s.setTask current fun t => { t with termCode := signal }
        let s ← schedExit fuel s (sigExitCode + signal)
        let (_, s) ← timerSignals fuel s current rest
        some (true, s)
      else some (false, s)

/-! ## The handler -/

/-- What the handler gets from the rest of the kernel: the frame of an interrupt inside it, the
    current address space, and the results of allocations. -/
structure TimerEnv where
  nested : ImStack
  vmm : Nat
  waitq : Option WaitqId
  copy : TaskId
  copyVmm : Nat
  copyMem : Option (List Nat)

/-- One step of `__sched_queue_next`: the promoted task, the next one, or the first one. -/
def schedQueuePick (s : SchedState) (pos : Option TaskId) : Option (TaskId × SchedState) :=
  match s.promoted with
  | some promoted => some (promoted, { s with promoted := none })
  | none =>
      match pos.bind s.next with
      | some next => some (next, s)
      | none => s.head.map fun head => (head, s)

/-- `__sched_queue_next` from `pos`, with the promoted task it uses up. -/
def schedQueueNext (s : SchedState) : Nat → Option TaskId → Option (TaskId × SchedState)
  | 0, _ => none
  | fuel + 1, pos => do
      let (pos, s) ← schedQueuePick s pos
      if (s.tasks pos).state = .dead then schedQueueNext s fuel (some pos) else some (pos, s)

/-- `task_switch` as far as the task itself is written. -/
def taskSwitch (vmm : Nat) (s : SchedState) (task : TaskId) : SchedState :=
  if vmm = (s.tasks task).vmm then s else s.setTask task fun t => { t with old := false }

/-- The handler's switch to the next task. -/
def timerNext (fuel : Nat) (env : TimerEnv) (s : SchedState) (stack : ImStack) :
    Option (SchedState × ImStack) := do
  let (next, s) ← schedQueueNext s fuel s.current
  let s := { s with current := some next }
  let s := s.setTask next fun t => { t with ticks := t.prio * taskTicksDefault % 256 }
  let stack := taskUpdateStack s next stack
  let s ← schedQueueClean fuel (taskSwitch env.vmm s next) env.waitq
  some (s, stack)

/-- The current task is gone or out of ticks. -/
def timerEnded (s : SchedState) : Bool :=
  match s.current with
  | none => true
  | some current => (s.tasks current).ticks == 0

/-- The end of the handler: one tick less for the task that runs now. -/
def timerLeave (s : SchedState) (stack : ImStack) : Option (SchedState × ImStack) :=
  s.current.map fun current => (s.setTask current fun t =>
    { t with state := .ready, ticks := (t.ticks + 255) % 256 }, stack)

/-- The handler behind the `switch` over the state. -/
def timerTail (fuel : Nat) (env : TimerEnv) (s : SchedState) (stack : ImStack) :
    Option (SchedState × ImStack) :=
  if timerEnded s then do
    let (s, stack) ← timerNext fuel env s stack
    timerLeave s stack
  else timerLeave s stack

/-- The handler behind the signals, for a current task. -/
def timerState (fuel : Nat) (env : TimerEnv) (s : SchedState) (current : TaskId) (stack : ImStack) :
    Option (SchedState × ImStack) :=
  match (s.tasks current).state with
  | .hold => some (s, stack)
  | .ready => timerTail fuel env (taskUpdateRegs s current stack) stack
  | .save => timerTail fuel env s (taskUpdateStack s current stack)
  | .wait =>
      timerTail fuel env ((taskUpdateRegs s current stack).setTask current
        fun t => { t with ticks := 0 }) stack
  | .dead => timerTail fuel env { s with current := none } stack
  | .fork => do
      let s ← timerFork fuel s current stack env.copy env.copyVmm env.copyMem
      timerTail fuel env s stack

/-- The task the handler works for; the first time it is the first task of the queue. -/
def timerCurrent (fuel : Nat) (s : SchedState) : Option (TaskId × SchedState) :=
  match s.current with
  | some current => some (current, s)
  | none => (schedQueueNext s fuel none).map fun (first, s) =>
      (first, { s with current := some first })

/-- `__sched_timer_handler`: the tasks and the frame it returns through. -/
def schedTimerHandler (fuel : Nat) (env : TimerEnv) (s : SchedState) (stack : ImStack) :
    Option (SchedState × ImStack) := do
  let (current, s) ← timerCurrent fuel s
  let (exited, s) ← timerSignals fuel s current (s.tasks current).signal
  timerState fuel env s current (if exited then env.nested else stack)

/-! ## What the queue operations leave alone -/

section

variable {s s' : SchedState} {fuel : Nat}

theorem dlistDelLoop_linksOnly {entry : TaskId} {start : Option TaskId}
    (done : dlistDelLoop s entry fuel start = some s') :
    s.LinksOnly s' ∧ s'.current = s.current := by
  induction fuel generalizing start with
  | zero => cases done
  | succ fuel ih =>
      cases start with
      | none =>
          cases done
          exact ⟨.refl s, rfl⟩
      | some cur =>
          rw [dlistDelLoop] at done
          split at done
          · exact ih done
          · cases done
            exact ⟨dlistUnlink_linksOnly, dlistUnlink_globals.2.2⟩

theorem schedQueueDel_linksOnly {entry : TaskId} (done : schedQueueDel fuel s entry = some s') :
    s.LinksOnly s' ∧ s'.current = s.current := by
  simp only [schedQueueDel, Option.bind_eq_bind, Option.bind_eq_some_iff] at done
  obtain ⟨s₁, first, done⟩ := done
  have before : s.LinksOnly s₁ ∧ s₁.current = s.current := by
    unfold dlistDelHead at first
    split at first
    · cases first
      exact ⟨.refl s, rfl⟩
    · obtain ⟨head, -, rfl⟩ := Option.map_eq_some_iff.mp first
      exact ⟨.setPrev { s with head := some head } head none, rfl⟩
  have after : s₁.LinksOnly s' ∧ s'.current = s₁.current := by
    split at done
    · obtain ⟨last, -, rfl⟩ := Option.map_eq_some_iff.mp done
      exact ⟨.setNext { s₁ with tail := some last } last none, rfl⟩
    · split at done
      · exact dlistDelLoop_linksOnly done
      · cases done
        exact ⟨.refl _, rfl⟩
  exact ⟨before.1.trans after.1, after.2.trans before.2⟩

/-- Removing a dead task writes to links and wait queue pointers only. -/
theorem schedQueueClean_field {β : Type} (field : Task → β)
    (links : ∀ t n p, field { t with next := n, prev := p } = field t)
    (waitqs : ∀ t head tail, field { t with waitqHead := head, waitqTail := tail } = field t)
    {waitq : Option WaitqId} (done : schedQueueClean fuel s waitq = some s') (u : TaskId) :
    field (s'.tasks u) = field (s.tasks u) := by
  simp only [schedQueueClean, Option.bind_eq_bind, Option.bind_eq_some_iff] at done
  obtain ⟨found, -, done⟩ := done
  cases found with
  | none =>
      cases done
      rfl
  | some corpse =>
      dsimp only at done
      split at done
      · cases done
        rfl
      obtain ⟨parent, -, done⟩ := Option.bind_eq_some_iff.mp done
      rw [(schedQueueDel_linksOnly done).1.field field links]
      cases parent with
      | none => rfl
      | some parent => exact taskWaitqAdd_field field waitqs s waitq parent corpse u

theorem schedQueueClean_current {waitq : Option WaitqId}
    (done : schedQueueClean fuel s waitq = some s') : s'.current = s.current := by
  simp only [schedQueueClean, Option.bind_eq_bind, Option.bind_eq_some_iff] at done
  obtain ⟨found, -, done⟩ := done
  cases found with
  | none =>
      cases done
      rfl
  | some corpse =>
      dsimp only at done
      split at done
      · cases done
        rfl
      obtain ⟨parent, -, done⟩ := Option.bind_eq_some_iff.mp done
      rw [(schedQueueDel_linksOnly done).2]
      cases parent with
      | none => rfl
      | some parent => exact (taskWaitqAdd_globals s waitq parent corpse).2.2

theorem schedQueueNext_tasks {pos : Option TaskId} {next : TaskId}
    (done : schedQueueNext s fuel pos = some (next, s')) :
    s'.tasks = s.tasks ∧ (s.tasks next).state ≠ .dead := by
  induction fuel generalizing s pos with
  | zero => cases done
  | succ fuel ih =>
      simp only [schedQueueNext, Option.bind_eq_bind, Option.bind_eq_some_iff] at done
      obtain ⟨⟨pos', s₁⟩, chosen, done⟩ := done
      have same : s₁.tasks = s.tasks := by
        unfold schedQueuePick at chosen
        split at chosen
        · cases chosen
          rfl
        split at chosen
        · cases chosen
          rfl
        · obtain ⟨head, -, eq⟩ := Option.map_eq_some_iff.mp chosen
          cases eq
          rfl
      dsimp only at done
      split at done
      · obtain ⟨tasks, alive⟩ := ih done
        exact ⟨tasks.trans same, same ▸ alive⟩
      · next alive =>
          cases done
          exact ⟨same, same ▸ alive⟩

/-- What the switch to another task keeps of every task. -/
def Task.body (t : Task) : TaskRegs × Nat × List Nat × TaskState := (t.regs, t.prio, t.mem, t.state)

/-- The switch loads a task that is not dead and rewrites nothing of any task's body. -/
theorem timerNext_spec {env : TimerEnv} {stack frame : ImStack}
    (done : timerNext fuel env s stack = some (s', frame)) :
    ∃ next, s'.current = some next ∧ (s.tasks next).state ≠ .dead ∧
      frame = regsToStack (s.tasks next).regs stack ∧
      ∀ u, (s'.tasks u).body = (s.tasks u).body := by
  simp only [timerNext, Option.bind_eq_bind, Option.bind_eq_some_iff] at done
  obtain ⟨⟨next, s₁⟩, chosen, s₂, clean, done⟩ := done
  cases done
  obtain ⟨tasks, alive⟩ := schedQueueNext_tasks chosen
  refine ⟨next, ?_, alive, ?_, fun u => ?_⟩
  · rw [schedQueueClean_current clean]
    unfold taskSwitch
    split <;> rfl
  · simp [taskUpdateStack, tasks]
  · rw [schedQueueClean_field Task.body (fun _ _ _ => rfl) (fun _ _ _ => rfl) clean]
    have ticks : ∀ s : SchedState, ((s.setTask next fun t =>
        { t with ticks := t.prio * taskTicksDefault % 256 }).tasks u).body = (s.tasks u).body :=
      fun s => s.setTask_field Task.body next
        (fun t => { t with ticks := t.prio * taskTicksDefault % 256 }) (fun _ => rfl) u
    unfold taskSwitch
    split
    · rw [ticks]
      simp [tasks]
    · rw [SchedState.setTask_field Task.body _ next (fun t => { t with old := false })
        (fun _ => rfl) u, ticks]
      simp [tasks]

theorem timerLeave_spec {stack frame : ImStack} (done : timerLeave s stack = some (s', frame)) :
    s'.current = s.current ∧ frame = stack ∧ ∀ u, (s'.tasks u).regs = (s.tasks u).regs ∧
      (s'.tasks u).prio = (s.tasks u).prio ∧ (s'.tasks u).mem = (s.tasks u).mem ∧
      ((s'.tasks u).state = .ready ∧ s.current = some u ∨
        (s'.tasks u).state = (s.tasks u).state) := by
  obtain ⟨current, here, eq⟩ := Option.map_eq_some_iff.mp done
  cases eq
  refine ⟨rfl, rfl, fun u => ?_⟩
  by_cases same : u = current
  · subst same
    simp [here]
  · simp [same]

/-- The end of the handler for a task that is not dead: the task keeps its registers,
    priority and regions, and if it goes on it does so with these registers in the frame. -/
theorem timerTail_spec {env : TimerEnv} {stack frame : ImStack} {t : TaskId}
    (alive : (s.tasks t).state ≠ .dead)
    (loaded : stack = regsToStack (s.tasks t).regs stack)
    (done : timerTail fuel env s stack = some (s', frame)) :
    (s'.tasks t).regs = (s.tasks t).regs ∧ (s'.tasks t).prio = (s.tasks t).prio ∧
      (s'.tasks t).mem = (s.tasks t).mem ∧ (s'.tasks t).state ≠ .dead ∧
      (s'.current = some t → frame = stack) := by
  unfold timerTail at done
  split at done
  · obtain ⟨⟨s₁, stack₁⟩, switch, leave⟩ := Option.bind_eq_some_iff.mp done
    obtain ⟨next, now, -, frame₁, body⟩ := timerNext_spec switch
    obtain ⟨current', rfl, kept⟩ := timerLeave_spec leave
    obtain ⟨regs, prio, mem, state⟩ := kept t
    have same := body t
    simp only [Task.body, Prod.mk.injEq] at same
    refine ⟨regs.trans same.1, prio.trans same.2.1, mem.trans same.2.2.1, ?_, fun here => ?_⟩
    · obtain ⟨ready, -⟩ | state := state
      · rw [ready]
        exact nofun
      · rw [state, same.2.2.2]
        exact alive
    · rw [current', now] at here
      cases here
      rw [frame₁, ← loaded]
  · obtain ⟨-, rfl, kept⟩ := timerLeave_spec done
    obtain ⟨regs, prio, mem, state⟩ := kept t
    refine ⟨regs, prio, mem, ?_, fun _ => rfl⟩
    obtain ⟨ready, -⟩ | state := state
    · rw [ready]
      exact nofun
    · rw [state]
      exact alive

/-- A dead task is not the one that runs next, and it stays dead. -/
theorem timerTail_dead {env : TimerEnv} {stack frame : ImStack} {t : TaskId}
    (current : s.current = none) (dead : (s.tasks t).state = .dead)
    (done : timerTail fuel env s stack = some (s', frame)) :
    s'.current ≠ some t ∧ (s'.tasks t).state = .dead := by
  simp only [timerTail, timerEnded, current, if_true, Option.bind_eq_bind,
    Option.bind_eq_some_iff] at done
  obtain ⟨⟨s₁, stack₁⟩, switch, leave⟩ := done
  obtain ⟨next, now, alive, -, body⟩ := timerNext_spec switch
  obtain ⟨current', -, kept⟩ := timerLeave_spec leave
  have off : next ≠ t := by
    rintro rfl
    exact alive dead
  rw [current', now]
  refine ⟨by simpa using off, ?_⟩
  have same := body t
  simp only [Task.body, Prod.mk.injEq] at same
  obtain ⟨-, here⟩ | state := (kept t).2.2.2
  · rw [now] at here
    exact absurd (Option.some.inj here) off
  · rw [state, same.2.2.2, dead]

/-- The signal the task would take next does not make it exit. -/
def SignalSpares (t : Task) : Prop :=
  match t.signal with
  | [] => True
  | signal :: rest =>
      signal > sigMax ∨ signal < sigMin ∨ signalAction { t with signal := rest } signal ≠ .dfl

/-- A signal that does not make the task exit only leaves its queue. -/
theorem timerSignals_spares {t : TaskId} (spares : SignalSpares (s.tasks t)) :
    timerSignals fuel s t (s.tasks t).signal =
      some (false, s.setTask t fun task => { task with signal := (s.tasks t).signal.tail }) ∨
    (s.tasks t).signal = [] := by
  unfold SignalSpares at spares
  split at spares
  · next none => exact .inr none
  · next signal rest queue =>
      left
      rw [queue, timerSignals]
      by_cases range : signal > sigMax ∨ signal < sigMin
      · simp [range]
      · have action : signalAction { s.tasks t with signal := rest } signal ≠ .dfl := by tauto
        simp [range, action]

theorem schedExitLoop_state {pid : Int} {start : Option TaskId}
    (done : schedExitLoop s pid fuel start = some s') :
    s'.current = s.current ∧ ∀ u, (s'.tasks u).state = (s.tasks u).state := by
  induction fuel generalizing s start with
  | zero => cases done
  | succ fuel ih =>
      cases start with
      | none =>
          cases done
          exact ⟨rfl, fun _ => rfl⟩
      | some cur =>
          rw [schedExitLoop] at done
          split at done
          · obtain ⟨current, state⟩ := ih done
            exact ⟨current, fun u => (state u).trans (s.setTask_field Task.state cur
              (fun t => { t with ppid := 1 }) (fun _ => rfl) u)⟩
          · exact ih done

theorem schedExit_dead {t : TaskId} {exitCode : Int} (current : s.current = some t)
    (done : schedExit fuel s exitCode = some s') :
    s'.current = some t ∧ (s'.tasks t).state = .dead := by
  simp only [schedExit, current] at done
  split at done
  · cases done
  · obtain ⟨current', state⟩ := schedExitLoop_state done
    exact ⟨current'.trans current, (state t).trans (by simp)⟩

/-- A dead task stays dead whatever further signals it takes. -/
theorem timerSignals_dead {t : TaskId} {signals : List Int} {exited : Bool}
    (current : s.current = some t) (dead : (s.tasks t).state = .dead)
    (done : timerSignals fuel s t signals = some (exited, s')) :
    s'.current = some t ∧ (s'.tasks t).state = .dead := by
  induction signals generalizing s exited with
  | nil =>
      cases done
      exact ⟨current, dead⟩
  | cons signal rest ih =>
      simp only [timerSignals] at done
      split at done
      · cases done
        exact ⟨current, by simpa using dead⟩
      split at done
      · simp only [Option.bind_eq_bind, Option.bind_eq_some_iff] at done
        obtain ⟨s₁, exit, ⟨again, s₂⟩, more, done⟩ := done
        cases done
        obtain ⟨current₁, dead₁⟩ := schedExit_dead (t := t) (by simpa using current) exit
        exact ih current₁ dead₁ more
      · cases done
        exact ⟨current, by simpa using dead⟩

/-- A signal that makes the task exit leaves it dead. -/
theorem timerSignals_exits {t : TaskId} {exited : Bool} (current : s.current = some t)
    (kills : ¬ SignalSpares (s.tasks t))
    (done : timerSignals fuel s t (s.tasks t).signal = some (exited, s')) :
    s'.current = some t ∧ (s'.tasks t).state = .dead := by
  unfold SignalSpares at kills
  split at kills
  · exact absurd trivial kills
  · next signal rest queue =>
      rw [queue] at done
      push Not at kills
      obtain ⟨le, ge, action⟩ := kills
      have range : ¬ (signal > sigMax ∨ signal < sigMin) := by omega
      simp only [timerSignals, range, if_false, SchedState.setTask_same, action, if_true,
        Option.bind_eq_bind, Option.bind_eq_some_iff] at done
      obtain ⟨s₁, exit, ⟨again, s₂⟩, more, done⟩ := done
      cases done
      obtain ⟨current₁, dead₁⟩ := schedExit_dead (t := t) (by simpa using current) exit
      exact timerSignals_dead current₁ dead₁ more

end

end Sdx.Sched
