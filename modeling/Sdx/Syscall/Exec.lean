import Sdx.Fs.VfsRefs
import Sdx.Sched.Timer

/-! # Exec that fails (`syscall/exec.c`, `fs/fmt/fmt.c`)

All error paths of `sys_exec` end where the successful one does: the priority is reset, the
task enters the state in which its saved registers replace the live ones, and the timer
handler runs. A task whose exec has failed has not written its saved registers, so it goes
on from wherever the scheduler has saved it last. The node stays open unless it is
`vfs_open` or the put in `vfs_close` that fails.
-/

namespace Sdx.Syscall

open Sched Fs

/-- `fmt_t`. -/
structure Fmt where
  entry : Nat
  mem : List Nat

/-- An entry of `fmt_table`: its error or 0, and the format it has loaded. -/
abbrev FmtLoader := VfsNode → Int × Fmt

/-- `fmt_load`; a format that is not loaded is freed. -/
def fmtLoad (table : List FmtLoader) (node : VfsNode) : Int × Fmt :=
  match table with
  | [] => (-eNOEXEC, ⟨0, []⟩)
  | load :: rest =>
      let (err, fmt) := load node
      if err = 0 then (0, fmt)
      else if err ≠ -eNOEXEC then (err, ⟨0, []⟩)
      else fmtLoad rest node

structure ExecEnv where
  vfs : VfsEnv
  fmtTable : List FmtLoader

/-- The call that fails. A failing `vfs_close` fails in the file system's close or in the put. -/
inductive ExecPoint where
  | opening
  | directory
  | load
  | fsClose
  | put
  deriving DecidableEq

inductive ExecOutcome where
  | failed (point : ExecPoint) (err : Int) (v : Vfs)
  | loaded (fmt : Fmt) (v : Vfs)

/-- `sys_exec` up to `sched_hold` or the jump to its end. -/
def execSteps (env : ExecEnv) (fuel : Nat) (v : Vfs) (path : Name) : Option ExecOutcome := do
  match ← vfsOpen env.vfs fuel v path with
  | (err, none, v) => some (.failed .opening err v)
  | (err, some n, v) =>
      if err ≠ 0 then some (.failed .opening err v)
      else
        let node ← v.nodes n
        if node.inode.type = .dir then some (.failed .directory (-eACCES) v)
        else
          let (err, fmt) := fmtLoad env.fmtTable node
          if err < 0 then some (.failed .load err v)
          else
            let (err, v) ← vfsClose env.vfs fuel v n
            if err ≠ 0 then
              let point := if fsClose env.vfs node.fs node.inode ≠ 0 then .fsClose else .put
              some (.failed point err v)
            else some (.loaded fmt v)

/-- The end of `sys_exec`: `sched_prio`, `sched_done` and `sched`, whose interrupt has put the
    registers of the caller into `live`. -/
def execEnd (fuel : Nat) (env : TimerEnv) (s : SchedState) (task : TaskId) (live : ImStack) :
    Option (SchedState × ImStack) :=
  schedTimerHandler fuel env (s.setTask task fun t => { t with prio := taskPrioLow, state := .save })
    live

/-! ## What an exec that fails has to keep -/

/-- The registers a task gets when it is loaded are those of the frame; `r10` is not loaded. -/
def SavedAs (regs : TaskRegs) (stack : ImStack) : Prop := { regs with r10 := stack.r10 } = stack.regs

/-- Behind the handler the task goes on where `live` was, now or when it is loaded next. -/
def Resumes (task : TaskId) (live : ImStack) (s : SchedState) (frame : ImStack) : Prop :=
  if s.current = some task then frame.regs = live.regs
  else (s.tasks task).state ≠ .dead ∧ SavedAs (s.tasks task).regs live

/-- The task goes on, with its priority and regions, and every node has its references. -/
structure ExecKeeps (before : SchedState) (v : Vfs) (task : TaskId) (live : ImStack)
    (after : SchedState) (frame : ImStack) (v' : Vfs) : Prop where
  resumes : Resumes task live after frame
  prio : (after.tasks task).prio = (before.tasks task).prio
  mem : (after.tasks task).mem = (before.tasks task).mem
  refs : ∀ n, v'.refs n = v.refs n

section

variable {env : ExecEnv} {fuel : Nat} {v v' : Vfs} {path : Name} {depth : NodeId → Nat}
  {point : ExecPoint} {err : Int}

theorem vfsClose_byFs {env : VfsEnv} {n : NodeId} {node : VfsNode} (here : v.nodes n = some node)
    (failed : fsClose env node.fs node.inode ≠ 0) :
    vfsClose env fuel v n = some (fsClose env node.fs node.inode, v) := by
  simp [vfsClose, here, failed]

theorem vfsClose_drops {env : VfsEnv} {n : NodeId} {node : VfsNode} (here : v.nodes n = some node)
    (closed : fsClose env node.fs node.inode = 0) (done : vfsClose env fuel v n = some (err, v'))
    (m : NodeId) : v'.refs m = v.refs m - one (m = n) := by
  simp only [vfsClose, here, closed, Option.bind_eq_bind, Option.bind_some, ne_eq, not_true,
    if_false, Option.bind_eq_some_iff] at done
  obtain ⟨⟨err', v₁⟩, put, done⟩ := done
  have refs := vfsNodePut_refs put m
  dsimp only at done
  split at done
  · cases done
    exact refs
  · cases done
    exact refs

/-- Only `vfs_open` and the put give back the reference at the node. -/
theorem execSteps_refs (tree : v.Tree depth)
    (failed : execSteps env fuel v path = some (.failed point err v')) :
    (∀ n, v'.refs n = v.refs n) ↔
      (point = .opening ∨ point = .put) ∧ vfsFindLeaks env.vfs fuel v path = false := by
  obtain ⟨⟨err₁, found, v₁⟩, opened, done⟩ := Option.bind_eq_some_iff.mp failed
  have refs := vfsOpen_refs tree opened
  have kept (opening : err₁ ≠ 0 ∨ found = none) :
      (∀ n, v₁.refs n = v.refs n) ↔ vfsFindLeaks env.vfs fuel v path = false := by
    have result : (if err₁ = 0 then found else none) = none := by
      cases opening with
      | inl failed => exact if_neg failed
      | inr none => simp [none]
    rw [result] at refs
    exact refs.unchanged_iff
  cases found with
  | none =>
      cases done
      simpa using kept (.inr rfl)
  | some n =>
      dsimp only at done
      split at done
      · next failed =>
          cases done
          simpa using kept (.inl failed)
      next zero =>
      have held : LookupRefs (vfsFindLeaks env.vfs fuel v path) v.refs v₁ (some n) := by
        rwa [if_pos (not_not.mp zero)] at refs
      have keeps (at_point : ¬ (point = .opening ∨ point = .put)) (same : v' = v₁) :
          (∀ n, v'.refs n = v.refs n) ↔
            (point = .opening ∨ point = .put) ∧ vfsFindLeaks env.vfs fuel v path = false := by
        obtain ⟨m, changed⟩ := held.changed
        constructor
        · intro unchanged
          exact absurd (unchanged m) (same ▸ changed)
        · intro given
          exact absurd given.1 at_point
      obtain ⟨node, here, done⟩ := Option.bind_eq_some_iff.mp done
      split at done
      · cases done
        exact keeps (by simp) rfl
      split at done
      · cases done
        exact keeps (by simp) rfl
      obtain ⟨⟨err₂, v₂⟩, closed, done⟩ := Option.bind_eq_some_iff.mp done
      dsimp only at done
      split at done
      · next failed =>
          cases done
          by_cases byFs : fsClose env.vfs node.fs node.inode ≠ 0
          · rw [vfsClose_byFs here byFs] at closed
            cases closed
            exact keeps (by simp [byFs]) rfl
          · have dropped := (held.drop (vfsClose_drops here (not_not.mp byFs) closed)).unchanged_iff
            simpa [byFs] using dropped
      · cases done

end

section

variable {fuel : Nat} {env : TimerEnv} {s s' : SchedState} {task : TaskId} {live frame : ImStack}

theorem signalSpares_marked (prio : Nat) (state : TaskState) (t : Task) :
    SignalSpares { t with prio := prio, state := state } ↔ SignalSpares t := Iff.rfl

/-- With a signal that spares it, the task enters the end of the handler with its own saved
    registers in the frame. -/
theorem execEnd_tail (current : s.current = some task)
    (done : execEnd fuel env s task live = some (s', frame)) (spares : SignalSpares (s.tasks task)) :
    (s'.tasks task).regs = (s.tasks task).regs ∧ (s'.tasks task).prio = taskPrioLow ∧
      (s'.tasks task).mem = (s.tasks task).mem ∧ (s'.tasks task).state ≠ .dead ∧
      (s'.current = some task → frame = regsToStack (s.tasks task).regs live) := by
  let marked := s.setTask task fun t => { t with prio := taskPrioLow, state := .save }
  have ready : ∀ s₁ : SchedState, (s₁.tasks task).regs = (s.tasks task).regs →
      (s₁.tasks task).prio = taskPrioLow → (s₁.tasks task).mem = (s.tasks task).mem →
      (s₁.tasks task).state = .save → timerState fuel env s₁ task live = some (s', frame) →
      (s'.tasks task).regs = (s.tasks task).regs ∧ (s'.tasks task).prio = taskPrioLow ∧
        (s'.tasks task).mem = (s.tasks task).mem ∧ (s'.tasks task).state ≠ .dead ∧
        (s'.current = some task → frame = regsToStack (s.tasks task).regs live) := by
    intro s₁ regs prio mem state rest
    simp only [timerState, state, taskUpdateStack] at rest
    have alive : (s₁.tasks task).state ≠ .dead := by simp [state]
    have kept := timerTail_spec alive rfl rest
    rw [← regs, ← prio, ← mem]
    exact kept
  unfold execEnd schedTimerHandler at done
  simp only [timerCurrent, SchedState.setTask_current, current, Option.bind_eq_bind,
    Option.bind_some, Option.bind_eq_some_iff] at done
  obtain ⟨⟨exited, s₁⟩, signals, rest⟩ := done
  obtain popped | none := @timerSignals_spares marked fuel task
    (by simpa [marked, signalSpares_marked] using spares)
  · rw [popped] at signals
    cases signals
    exact ready _ (by simp [marked]) (by simp [marked]) (by simp [marked]) (by simp [marked]) rest
  · rw [none] at signals
    cases signals
    exact ready _ (by simp) (by simp) (by simp) (by simp) rest

theorem execEnd_kills (current : s.current = some task)
    (done : execEnd fuel env s task live = some (s', frame))
    (kills : ¬ SignalSpares (s.tasks task)) :
    s'.current ≠ some task ∧ (s'.tasks task).state = .dead := by
  unfold execEnd schedTimerHandler at done
  simp only [timerCurrent, SchedState.setTask_current, current, Option.bind_eq_bind,
    Option.bind_some, Option.bind_eq_some_iff] at done
  obtain ⟨⟨exited, s₁⟩, signals, rest⟩ := done
  obtain ⟨-, dead⟩ := timerSignals_exits (by simpa using current)
    (by simpa [signalSpares_marked] using kills)
    signals
  simp only [timerState, dead] at rest
  exact timerTail_dead (s := { s₁ with current := none }) rfl dead rest

/-- The handler loads the saved registers of the task; the live ones survive only in them. -/
theorem execEnd_resumes (current : s.current = some task)
    (done : execEnd fuel env s task live = some (s', frame)) :
    Resumes task live s' frame ↔
      SavedAs (s.tasks task).regs live ∧ SignalSpares (s.tasks task) := by
  by_cases spares : SignalSpares (s.tasks task)
  · obtain ⟨regs, -, -, alive, frame'⟩ := execEnd_tail current done spares
    unfold Resumes
    split
    · next here =>
        rw [frame' here, regs_regsToStack]
        simp [SavedAs, spares]
    · rw [regs]
      simp [alive, spares]
  · obtain ⟨off, dead⟩ := execEnd_kills current done spares
    simp [Resumes, off, dead, spares]

theorem execEnd_keeps (current : s.current = some task)
    (done : execEnd fuel env s task live = some (s', frame)) (spares : SignalSpares (s.tasks task)) :
    (s'.tasks task).prio = taskPrioLow ∧ (s'.tasks task).mem = (s.tasks task).mem := by
  obtain ⟨-, prio, mem, -⟩ := execEnd_tail current done spares
  exact ⟨prio, mem⟩

/-- With ticks left the handler returns to the task at once. -/
theorem execEnd_returns (fuel : Nat) (env : TimerEnv) (live : ImStack)
    (current : s.current = some task) (ticks : (s.tasks task).ticks ≠ 0)
    (spares : SignalSpares (s.tasks task)) :
    ∃ s', execEnd fuel env s task live =
      some (s', regsToStack (s.tasks task).regs live) ∧ s'.current = some task := by
  have leaves : ∀ s₁ : SchedState, s₁.current = some task →
      (s₁.tasks task).regs = (s.tasks task).regs → (s₁.tasks task).state = .save →
      (s₁.tasks task).ticks = (s.tasks task).ticks →
      ∃ s', timerState fuel env s₁ task live =
        some (s', regsToStack (s.tasks task).regs live) ∧ s'.current = some task := by
    intro s₁ here regs state left
    have goesOn : timerEnded s₁ = false := by simp [timerEnded, here, left, ticks]
    simp [timerState, state, timerTail, goesOn, timerLeave, here, taskUpdateStack, regs]
  obtain popped | none := @timerSignals_spares
    (s.setTask task fun t => { t with prio := taskPrioLow, state := .save }) fuel task
    (by simpa [signalSpares_marked] using spares)
  · simp only [execEnd, schedTimerHandler, timerCurrent, SchedState.setTask_current, current,
      Option.bind_eq_bind, Option.bind_some, popped]
    exact leaves _ current (by simp) (by simp) (by simp)
  · simp only [execEnd, schedTimerHandler, timerCurrent, SchedState.setTask_current, current,
      Option.bind_eq_bind, Option.bind_some, none, timerSignals]
    exact leaves _ current (by simp) (by simp) (by simp)

end

/-- An exec that fails changes nothing exactly when the priority was low, the saved registers are
    the live ones, no signal makes the task exit, and the failing call gave the node back. -/
theorem execKeeps_iff {env : ExecEnv} {timer : TimerEnv} {fuel : Nat} {s s' : SchedState} {v v' : Vfs}
    {path : Name} {depth : NodeId → Nat} {point : ExecPoint} {err : Int} {task : TaskId}
    {live frame : ImStack} (tree : v.Tree depth) (current : s.current = some task)
    (failed : execSteps env fuel v path = some (.failed point err v'))
    (done : execEnd fuel timer s task live = some (s', frame)) :
    ExecKeeps s v task live s' frame v' ↔
      SavedAs (s.tasks task).regs live ∧ SignalSpares (s.tasks task) ∧
        (s.tasks task).prio = taskPrioLow ∧ (point = .opening ∨ point = .put) ∧
        vfsFindLeaks env.vfs fuel v path = false := by
  constructor
  · rintro ⟨resumes, prio, mem, refs⟩
    obtain ⟨saved, spares⟩ := (execEnd_resumes current done).mp resumes
    obtain ⟨low, -⟩ := execEnd_keeps current done spares
    exact ⟨saved, spares, prio.symm.trans low, (execSteps_refs tree failed).mp refs⟩
  · rintro ⟨saved, spares, prio, at_point⟩
    obtain ⟨low, mem⟩ := execEnd_keeps current done spares
    exact ⟨(execEnd_resumes current done).mpr ⟨saved, spares⟩, low.trans prio.symm, mem,
      (execSteps_refs tree failed).mpr at_point⟩

/-! ## A path that is not found -/

/-- Nothing is mounted, and there are no formats. -/
def noMount : Vfs := ⟨fun _ => none, none⟩

theorem noMount_tree : noMount.Tree fun _ => 0 := ⟨nofun, nofun, nofun⟩

def noFs : ExecEnv where
  vfs := ⟨fun _ => ⟨none, none, none⟩, fun _ => none, Fs.noMemory_fresh⟩
  fmtTable := []

/-- Task 1 runs with one tick left and has been saved with these registers. -/
def oneTask (regs : TaskRegs) (prio : Nat) : SchedState where
  tasks := fun _ => { (default : Task) with regs := regs, prio := prio, ticks := 1 }
  waitqs := fun _ => default
  head := some 1
  tail := some 1
  current := some 1
  promoted := none

def noTimer : TimerEnv := ⟨default, 0, none, 0, 0, none⟩

theorem notFound : execSteps noFs 1 noMount ['/', 'x'] = some (.failed .opening (-eNOENT) noMount) :=
  rfl

/-- The saved registers are the live ones. -/
theorem execKeeps_saved : ∃ s' frame,
    execEnd 1 noTimer (oneTask default taskPrioLow) 1 default = some (s', frame) ∧
      ExecKeeps (oneTask default taskPrioLow) noMount 1 default s' frame noMount := by
  obtain ⟨s', done, -⟩ := @execEnd_returns (oneTask default taskPrioLow) 1 1 noTimer
    default rfl (by decide) trivial
  exact ⟨s', _, done, (execKeeps_iff noMount_tree rfl notFound done).mpr
    ⟨rfl, trivial, rfl, .inl rfl, rfl⟩⟩

/-- The task was saved at 0 and makes the call from 4096: it goes on at 0. -/
theorem not_execKeeps : ∃ err v' s' frame,
    execSteps noFs 1 noMount ['/', 'x'] = some (.failed .opening err v') ∧
    execEnd 1 noTimer (oneTask default taskPrioLow) 1 { (default : ImStack) with rip := 4096 } =
      some (s', frame) ∧
    ¬ ExecKeeps (oneTask default taskPrioLow) noMount 1 { (default : ImStack) with rip := 4096 }
      s' frame v' := by
  refine ⟨_, _, _, _, notFound, rfl, fun keeps => ?_⟩
  have rip := congrArg TaskRegs.rip keeps.resumes
  exact absurd rip (by decide)

end Sdx.Syscall
