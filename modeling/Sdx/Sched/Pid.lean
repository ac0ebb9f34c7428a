import Sdx.Sched.Queue
import Sdx.Sched.Switch
import Sdx.Sched.Waitq

/-! # Forks, exits and PIDs (`sched/sched.c`, `sched/task.c`)

`__sched_pid` looks for the highest PID on the backward links from `task_tail`. The tail
stays the main task, which has no predecessor, so the walk sees PID 1 only and every fork
gets PID 2. PIDs are therefore unique exactly as long as no fork happens beside another
child.

What an allocation returns is an argument: the address of a new task, its address space,
and the copies of the memory regions, which can fail.
-/

namespace Sdx.Sched

open Lib Lib.LinkedList

/-! ## The functions -/

/-- `PID_MAX`. -/
def pidMax : Int := 2 ^ 31 - 1

/-- The first task of a `dlist_foreach` that satisfies `p`. -/
def dlistFind (s : SchedState) (p : Task → Bool) : Nat → Option TaskId → Option (Option TaskId)
  | 0, _ => none
  | _ + 1, none => some none
  | fuel + 1, some cur =>
      if p (s.tasks cur) then some (some cur) else dlistFind s p fuel (s.next cur)

/-- `sched_find`. -/
def schedFind (fuel : Nat) (s : SchedState) (pid : Int) : Option (Option TaskId) :=
  dlistFind s (fun t => t.pid == pid) fuel s.head

/-- `__sched_queue_clean` up to `task_free`, which gives back memory that nothing uses any more. -/
def schedQueueClean (fuel : Nat) (s : SchedState) (waitq : Option WaitqId) : Option SchedState := do
  match ← dlistFind s (fun t => t.state == .dead) fuel s.head with
  | none => some s
  | some corpse =>
      if s.current = some corpse then some s
      else
        let s := match ← schedFind fuel s (s.tasks corpse).ppid with
          | none => s
          | some parent => (taskWaitqAdd s waitq parent corpse).2
        schedQueueDel fuel s corpse

/-- The loop of `__sched_pid`. -/
def schedPidLoop (s : SchedState) : Nat → Option TaskId → Int → Option Int
  | 0, _, _ => none
  | _ + 1, none, pid => some pid
  | fuel + 1, some cur, pid =>
      schedPidLoop s fuel (s.prev cur) (if (s.tasks cur).pid > pid then (s.tasks cur).pid else pid)

/-- `__sched_pid`; without a free PID it panics. -/
def schedPid (fuel : Nat) (s : SchedState) (task : TaskId) : Option SchedState := do
  let pid ← schedPidLoop s fuel s.tail 0
  if pid = pidMax then none else some (s.setTask task fun t => { t with pid := pid + 1 })

/-- `task_copy`. When a region cannot be copied the new task stays behind half made. -/
def taskCopy (s : SchedState) (current copy : TaskId) (vmm : Nat) (mem : Option (List Nat)) :
    Option TaskId × SchedState :=
  let s := s.setTask copy fun _ => { (default : Task) with vmm := vmm }
  match mem with
  | none => (none, s)
  | some regions =>
      (some copy, s.setTask copy fun t =>
        { t with mem := regions, regs := (s.tasks current).regs })

/-- The values a forked task gets, and its place in the queue. -/
def forkEnter (fuel : Nat) (s : SchedState) (current new : TaskId) : Option SchedState := do
  let s ← schedPid fuel s new
  let s := s.setTask new fun t =>
    { t with state := .ready, prio := taskPrioLow, ppid := (s.tasks current).pid }
  let s ← schedQueueAdd fuel s new
  some (s.setTask current fun t => { t with cpid := (s.tasks new).pid })

/-- The `TASK_STATE_FORK` branch of `__sched_timer_handler`. -/
def timerFork (fuel : Nat) (s : SchedState) (current : TaskId) (stack : ImStack) (copy : TaskId)
    (vmm : Nat) (mem : Option (List Nat)) : Option SchedState :=
  let s := taskUpdateRegs s current stack
  match taskCopy s current copy vmm mem with
  | (none, s) => some s
  | (some new, s) => forkEnter fuel s current new

/-- The loop of `sched_exit` over the queue. -/
def schedExitLoop (s : SchedState) (pid : Int) : Nat → Option TaskId → Option SchedState
  | 0, _ => none
  | _ + 1, none => some s
  | fuel + 1, some cur =>
      let s := if (s.tasks cur).ppid = pid then s.setTask cur fun t => { t with ppid := 1 } else s
      schedExitLoop s pid fuel (s.next cur)

/-- `sched_exit` up to the call of the scheduler. The first task must not exit. -/
def schedExit (fuel : Nat) (s : SchedState) (exitCode : Int) : Option SchedState :=
  match s.current with
  | none => some s
  | some current =>
      if s.head = some current then none
      else
        let s := s.setTask current fun t => { t with exitCode := exitCode, state := .dead }
        schedExitLoop s (s.tasks current).pid fuel s.head

/-- `sched_init` up to the first call of the scheduler, for a main task at `main`. -/
def schedInit (fuel : Nat) (s : SchedState) (main : TaskId) (vmm : Nat) (mem : List Nat) :
    Option SchedState := do
  let s := { s with current := none, head := none, tail := none }
  let s := s.setTask main fun _ => { (default : Task) with vmm := vmm, mem := mem }
  let s ← schedPid fuel s main
  let s := s.setTask main fun t => { t with state := .ready, prio := taskPrioLow, ppid := 0 }
  schedQueueAdd fuel s main

/-! ## Runs from `sched_init` -/

inductive PidOp where
  | fork (copy : TaskId) (stack : ImStack) (vmm : Nat) (mem : Option (List Nat))
  | exit (exitCode : Int)
  | clean (waitq : Option WaitqId)
  /-- The scheduler runs another task of the queue. -/
  | switch (task : TaskId)
  /-- The current task sets its priority. -/
  | prio (prio : Nat)

namespace SchedState

/-- The tasks of the queue, as `dlist_foreach` visits them. -/
def Queued (s : SchedState) (l : List TaskId) : Prop := Walk s.next s.head l

/-- A new task is at an address that is not in use. -/
def Allowed (s : SchedState) : PidOp → Prop
  | .fork copy _ _ _ => ∀ l, s.Queued l → copy ∉ l
  | .switch task => ∃ l, s.Queued l ∧ task ∈ l
  | .prio prio => 1 ≤ prio ∧ prio ≤ 63
  | _ => True

def perform (fuel : Nat) (s : SchedState) : PidOp → Option SchedState
  | .fork copy stack vmm mem => do
      let current ← s.current
      timerFork fuel s current stack copy vmm mem
  | .exit exitCode => schedExit fuel s exitCode
  | .clean waitq => schedQueueClean fuel s waitq
  | .switch task => some { s with current := some task }
  | .prio prio => do
      let current ← s.current
      some (s.setTask current fun t => { t with prio := prio })

def PidStep (s : SchedState) (op : PidOp) (s' : SchedState) : Prop :=
  s.Allowed op ∧ ∃ fuel, s.perform fuel op = some s'

def PidStart (s : SchedState) : Prop :=
  ∃ fuel s₀ main vmm mem, schedInit fuel s₀ main vmm mem = some s

/-- Different tasks of the queue have different PIDs, all of them at least 1. -/
def PidsUnique (s : SchedState) : Prop :=
  ∃ l, s.Queued l ∧ l.Pairwise (fun t u => (s.tasks t).pid ≠ (s.tasks u).pid) ∧
    ∀ t ∈ l, 1 ≤ (s.tasks t).pid

/-- A fork that makes a task finds only one task in the queue. -/
def ForksAlone (s : SchedState) : PidOp → Prop
  | .fork _ _ _ (some _) => ∃ main, s.Queued [main]
  | _ => True

end SchedState

/-! ## What every state of a run looks like -/

open SchedState

/-- The main task is head and tail, its children follow it, and each of them has PID 2. -/
structure Family (s : SchedState) (main : TaskId) (children : List TaskId) : Prop where
  queued : s.Queued (main :: children)
  tail : s.tail = some main
  prev : s.prev main = none
  mainPid : (s.tasks main).pid = 1
  mainPrio : 1 ≤ (s.tasks main).prio
  mainAlive : (s.tasks main).state ≠ .dead
  childPid : ∀ child ∈ children, (s.tasks child).pid = 2
  current : ∀ current, s.current = some current → current ∈ main :: children

namespace Family

variable {s s' : SchedState} {main : TaskId} {children : List TaskId}

theorem head_eq (family : Family s main children) : s.head = some main :=
  family.queued.head_eq

/-- Of a task the invariant reads the links, the PID, and the priority and state of the main task. -/
theorem congr (family : Family s main children) (next : s'.next = s.next) (prev : s'.prev = s.prev)
    (head : s'.head = s.head) (tail : s'.tail = s.tail)
    (pid : ∀ t ∈ main :: children, (s'.tasks t).pid = (s.tasks t).pid)
    (prio : 1 ≤ (s'.tasks main).prio) (alive : (s'.tasks main).state ≠ .dead)
    (current : ∀ current, s'.current = some current → current ∈ main :: children) :
    Family s' main children := by
  refine ⟨?_, tail.trans family.tail, ?_, ?_, prio, alive, ?_, current⟩
  · rw [Queued, next, head]
    exact family.queued
  · rw [prev]
    exact family.prev
  · rw [pid main List.mem_cons_self]
    exact family.mainPid
  · intro child mem
    rw [pid child (List.mem_cons_of_mem _ mem)]
    exact family.childPid child mem

/-- A write that keeps links and PIDs, and keeps the main task alive with a priority. -/
theorem setTask (family : Family s main children) (t : TaskId) (f : Task → Task)
    (keep : ∀ task, (f task).next = task.next ∧ (f task).prev = task.prev ∧
      (f task).pid = task.pid)
    (mainKept : t = main → 1 ≤ (f (s.tasks main)).prio ∧ (f (s.tasks main)).state ≠ .dead) :
    Family (s.setTask t f) main children := by
  have own : 1 ≤ ((s.setTask t f).tasks main).prio ∧ ((s.setTask t f).tasks main).state ≠ .dead := by
    by_cases here : t = main
    · rw [← here, setTask_same]
      exact here ▸ mainKept here
    · have off : main ≠ t := fun same => here same.symm
      rw [setTask_other _ _ _ _ off]
      exact ⟨family.mainPrio, family.mainAlive⟩
  refine family.congr ?_ ?_ rfl rfl ?_ own.1 own.2 family.current
  · exact funext fun u => s.setTask_field Task.next t f (fun task => (keep task).1) u
  · exact funext fun u => s.setTask_field Task.prev t f (fun task => (keep task).2.1) u
  · exact fun u _ => s.setTask_field Task.pid t f (fun task => (keep task).2.2) u

/-- A write to a task that is not queued. -/
theorem setFresh (family : Family s main children) {t : TaskId} (fresh : t ∉ main :: children)
    (f : Task → Task) : Family (s.setTask t f) main children := by
  have off : ∀ u ∈ main :: children, u ≠ t := by
    rintro u mem rfl
    exact fresh mem
  have kept : ∀ u ∈ main :: children, (s.setTask t f).tasks u = s.tasks u :=
    fun u mem => s.setTask_other t u f (off u mem)
  have first := kept main List.mem_cons_self
  refine ⟨?_, family.tail, ?_, ?_, ?_, ?_, ?_, family.current⟩
  · refine family.queued.congr fun u mem => ?_
    rw [SchedState.next, kept u mem, SchedState.next]
  · rw [SchedState.prev, first]
    exact family.prev
  · rw [first]
    exact family.mainPid
  · rw [first]
    exact family.mainPrio
  · rw [first]
    exact family.mainAlive
  · intro child mem
    rw [kept child (List.mem_cons_of_mem _ mem)]
    exact family.childPid child mem

theorem waitqAdd (family : Family s main children) (waitq : Option WaitqId) (task child : TaskId) :
    Family (taskWaitqAdd s waitq task child).2 main children := by
  obtain ⟨head, tail, current⟩ := taskWaitqAdd_globals s waitq task child
  have prio := taskWaitqAdd_field Task.prio (fun _ _ _ => rfl) s waitq task child main
  have state := taskWaitqAdd_field Task.state (fun _ _ _ => rfl) s waitq task child main
  refine family.congr ?_ ?_ head tail ?_ (prio ▸ family.mainPrio) (state ▸ family.mainAlive)
    (current ▸ family.current)
  · exact funext fun u => taskWaitqAdd_field Task.next (fun _ _ _ => rfl) s waitq task child u
  · exact funext fun u => taskWaitqAdd_field Task.prev (fun _ _ _ => rfl) s waitq task child u
  · exact fun u _ => taskWaitqAdd_field Task.pid (fun _ _ _ => rfl) s waitq task child u

/-- Where only links were written, the tasks that are queued now are a family. -/
theorem relink {children' : List TaskId} (family : Family s main children) (links : s.LinksOnly s')
    (queued : s'.Queued (main :: children')) (tail : s'.tail = s.tail)
    (prev : s'.prev main = s.prev main) (pids : ∀ child ∈ children', (s.tasks child).pid = 2)
    (current : ∀ current, s'.current = some current → current ∈ main :: children') :
    Family s' main children' := by
  refine ⟨queued, tail.trans family.tail, prev.trans family.prev, ?_, ?_, ?_, ?_, current⟩
  · rw [links.field Task.pid (fun _ _ _ => rfl)]
    exact family.mainPid
  · rw [links.field Task.prio (fun _ _ _ => rfl)]
    exact family.mainPrio
  · rw [links.field Task.state (fun _ _ _ => rfl)]
    exact family.mainAlive
  · intro child mem
    rw [links.field Task.pid (fun _ _ _ => rfl)]
    exact pids child mem

/-- A task placed behind the main task joins the children. -/
theorem place (family : Family s main children) {t : TaskId} (fresh : t ∉ main :: children)
    (pid : (s.tasks t).pid = 2) : Family (schedQueuePlace s t main) main (t :: children) := by
  have off : main ≠ t := by
    rintro rfl
    simp at fresh
  have links := @schedQueuePlace_linksOnly s t main
  obtain ⟨head, tail, current⟩ := @schedQueuePlace_globals s t main
  have ahead := Walk.next_ne_first family.queued List.mem_cons_self
  refine family.relink links ?_ tail (schedQueuePlace_prev off off ahead) ?_ ?_
  · rw [Queued, schedQueuePlace_next, head]
    exact @Walk.insertAfter _ _ _ _ [] _ _ _ family.queued fresh
  · intro child mem
    cases mem with
    | head => exact pid
    | tail _ mem => exact family.childPid child mem
  · intro c here
    rw [current] at here
    have mem := family.current c here
    simp only [List.mem_cons] at mem ⊢
    tauto

/-- A child other than the current task that is unlinked leaves the family. -/
theorem unlink (family : Family s main children) {l₁ l₂ : List TaskId} {before corpse : TaskId}
    (split : main :: children = l₁ ++ before :: corpse :: l₂) (notCurrent : s.current ≠ some corpse) :
    ∃ children', children'.Sublist children ∧
      Family (dlistUnlink s before corpse) main children' := by
  obtain ⟨children', rest, sub, kept⟩ : ∃ children', main :: children' = l₁ ++ before :: l₂ ∧
      children'.Sublist children ∧ ∀ t ∈ main :: children, t = corpse ∨ t ∈ main :: children' := by
    cases l₁ with
    | nil =>
        cases split
        refine ⟨l₂, rfl, List.sublist_cons_self _ _, ?_⟩
        intro t mem
        simp only [List.mem_cons] at mem ⊢
        tauto
    | cons x l₁ =>
        rw [List.cons_append, List.cons.injEq] at split
        obtain ⟨rfl, rfl⟩ := split
        refine ⟨l₁ ++ before :: l₂, rfl, ?_, ?_⟩
        · exact List.Sublist.append_left ((List.sublist_cons_self _ _).cons_cons _) _
        · intro t mem
          simp only [List.mem_cons, List.mem_append] at mem ⊢
          tauto
  have links := @dlistUnlink_linksOnly s corpse before
  obtain ⟨head, tail, current⟩ := @dlistUnlink_globals s corpse before
  have corpse_mem : corpse ∈ main :: children := by rw [split]; simp
  have ahead := Walk.next_ne_first family.queued corpse_mem
  refine ⟨children', sub, family.relink links ?_ tail (dlistUnlink_prev ahead) ?_ ?_⟩
  · have walk := family.queued
    rw [Queued, split] at walk
    rw [Queued, dlistUnlink_next, head, rest]
    exact walk.unlink
  · exact fun child mem => family.childPid child (sub.subset mem)
  · intro c here
    rw [current] at here
    obtain rfl | mem := kept c (family.current c here)
    · exact absurd here notCurrent
    · exact mem

end Family

/-! ## The steps -/

section

variable {s s' : SchedState} {main : TaskId} {children : List TaskId} {fuel : Nat}

theorem schedInit_family {vmm : Nat} {mem : List Nat}
    (done : schedInit fuel s main vmm mem = some s') : Family s' main [] := by
  cases fuel with
  | zero => cases done
  | succ fuel =>
      simp only [schedInit, schedPid, schedPidLoop, schedQueueAdd, SchedState.setTask_tail,
        SchedState.setTask_head, Option.bind_eq_bind, Option.bind_some] at done
      rw [if_neg (by decide), Option.bind_some] at done
      cases done
      have noChild : ∀ child : TaskId, child ∉ [] := fun _ => List.not_mem_nil
      refine ⟨?_, rfl, ?_, ?_, ?_, ?_, fun child mem => absurd mem (noChild child), ?_⟩
      · apply Walk.visit
        simp only [SchedState.setPrev_next, SchedState.setNext_next, Function.update_self]
        exact .stop
      · simp
      all_goals simp [SchedState.setNext, SchedState.setPrev, taskPrioLow]

/-- `__sched_pid` sees the main task only. -/
theorem schedPid_family (family : Family s main children) {task : TaskId}
    (done : schedPid fuel s task = some s') : s' = s.setTask task fun t => { t with pid := 2 } := by
  cases fuel with
  | zero => simp [schedPid, schedPidLoop] at done
  | succ fuel =>
      cases fuel with
      | zero => simp [schedPid, schedPidLoop, family.tail] at done
      | succ fuel =>
          simp only [schedPid, schedPidLoop, family.tail, family.prev, family.mainPid, Int.reduceGT,
            if_true, Option.bind_eq_bind, Option.bind_some] at done
          rw [if_neg (by decide)] at done
          cases done
          rfl

theorem taskCopy_family (family : Family s main children) (current : TaskId) {copy : TaskId}
    (vmm : Nat) (mem : Option (List Nat)) (fresh : copy ∉ main :: children) :
    Family (taskCopy s current copy vmm mem).2 main children := by
  have blank := family.setFresh fresh fun _ => { (default : Task) with vmm := vmm }
  cases mem with
  | none => exact blank
  | some regions =>
      let s := s.setTask copy fun _ => { (default : Task) with vmm := vmm }
      exact blank.setFresh fresh fun t => { t with mem := regions, regs := (s.tasks current).regs }

/-- The new task as `forkEnter` puts it into the queue: with the PID behind the main task's. -/
def forkReady (s : SchedState) (current new : TaskId) : SchedState :=
  let s := s.setTask new fun t => { t with pid := 2 }
  s.setTask new fun t =>
    { t with state := .ready, prio := taskPrioLow, ppid := (s.tasks current).pid }

theorem forkReady_family (family : Family s main children) {new : TaskId} (current : TaskId)
    (fresh : new ∉ main :: children) : Family (forkReady s current new) main children := by
  unfold forkReady
  exact (family.setFresh fresh _).setFresh fresh _

/-- No task has a lower priority than the new one, so it is placed behind the main task. -/
theorem forkEnter_eq (family : Family s main children) {current new : TaskId}
    (fresh : new ∉ main :: children) (done : forkEnter fuel s current new = some s') :
    ∃ promoted cpid, s' =
      ({ schedQueuePlace (forkReady s current new) new main with promoted := promoted }).setTask
        current fun t => { t with cpid := cpid } := by
  simp only [forkEnter, Option.bind_eq_bind, Option.bind_eq_some_iff] at done
  obtain ⟨numbered, pid, queued, add, done⟩ := done
  obtain rfl := schedPid_family family pid
  change schedQueueAdd fuel (forkReady s current new) new = some queued at add
  have before := forkReady_family family current fresh
  have prio : ((forkReady s current new).tasks new).prio = 1 := by simp [forkReady, taskPrioLow]
  have off : main ≠ new := by
    rintro rfl
    simp at fresh
  obtain ⟨promoted, rfl⟩ := schedQueueAdd_of_tail off before.tail before.prev
    (Walk.next_ne_first before.queued List.mem_cons_self) add
  rw [prio, if_neg (Nat.not_lt.mpr before.mainPrio)] at done
  cases done
  exact ⟨promoted, _, rfl⟩

theorem forkEnter_family (family : Family s main children) {current new : TaskId}
    (fresh : new ∉ main :: children) (done : forkEnter fuel s current new = some s') :
    Family s' main (new :: children) := by
  obtain ⟨promoted, cpid, rfl⟩ := forkEnter_eq family fresh done
  have pid : ((forkReady s current new).tasks new).pid = 2 := by simp [forkReady]
  have placed := (forkReady_family family current fresh).place fresh pid
  have moved : Family { schedQueuePlace (forkReady s current new) new main with
      promoted := promoted } main (new :: children) :=
    placed.congr rfl rfl rfl rfl (fun _ _ => rfl) placed.mainPrio placed.mainAlive placed.current
  exact moved.setTask current _ (fun _ => ⟨rfl, rfl, rfl⟩) fun _ => ⟨moved.mainPrio, moved.mainAlive⟩

/-- A fork that makes a task puts it among the children. -/
theorem timerFork_family (family : Family s main children) {current copy : TaskId} {stack : ImStack}
    {vmm : Nat} {mem : Option (List Nat)} (fresh : copy ∉ main :: children)
    (done : timerFork fuel s current stack copy vmm mem = some s') :
    Family s' main (if mem.isSome then copy :: children else children) := by
  have saved : Family (taskUpdateRegs s current stack) main children :=
    family.setTask current _ (fun _ => ⟨rfl, rfl, rfl⟩) fun _ => ⟨family.mainPrio, family.mainAlive⟩
  have copied := taskCopy_family saved current vmm mem fresh
  cases mem with
  | none =>
      cases done
      exact copied
  | some regions => exact forkEnter_family copied fresh done

theorem schedExitLoop_family (family : Family s main children) {pid : Int} {start : Option TaskId}
    (done : schedExitLoop s pid fuel start = some s') : Family s' main children := by
  induction fuel generalizing s start with
  | zero => cases done
  | succ fuel ih =>
      cases start with
      | none =>
          cases done
          exact family
      | some cur =>
          refine ih ?_ done
          split
          · exact family.setTask cur _ (fun _ => ⟨rfl, rfl, rfl⟩)
              fun _ => ⟨family.mainPrio, family.mainAlive⟩
          · exact family

theorem schedExit_family (family : Family s main children) {exitCode : Int}
    (done : schedExit fuel s exitCode = some s') : Family s' main children := by
  unfold schedExit at done
  split at done
  · cases done
    exact family
  · next current _ =>
      split at done
      · cases done
      · next notHead =>
          have dead : Family (s.setTask current fun t =>
              { t with exitCode := exitCode, state := .dead }) main children := by
            refine family.setTask current _ (fun _ => ⟨rfl, rfl, rfl⟩) ?_
            rintro rfl
            exact absurd family.head_eq notHead
          exact schedExitLoop_family dead done

theorem dlistFind_mem {p : Task → Bool} {start : Option TaskId} {l : List TaskId} {t : TaskId}
    (walk : Walk s.next start l) (done : dlistFind s p fuel start = some (some t)) :
    t ∈ l ∧ p (s.tasks t) = true := by
  induction walk generalizing fuel with
  | stop =>
      cases fuel with
      | zero => cases done
      | succ fuel => cases done
  | @visit x l _ ih =>
      cases fuel with
      | zero => cases done
      | succ fuel =>
          rw [dlistFind] at done
          split at done
          · next found =>
              cases done
              exact ⟨List.mem_cons_self, found⟩
          · obtain ⟨mem, found⟩ := ih done
            exact ⟨List.mem_cons_of_mem _ mem, found⟩

theorem schedQueueClean_family (family : Family s main children) {waitq : Option WaitqId}
    (done : schedQueueClean fuel s waitq = some s') :
    ∃ children', children'.Sublist children ∧ Family s' main children' := by
  simp only [schedQueueClean, Option.bind_eq_bind, Option.bind_eq_some_iff] at done
  obtain ⟨found, search, done⟩ := done
  cases found with
  | none =>
      cases done
      exact ⟨children, List.Sublist.refl _, family⟩
  | some corpse =>
      dsimp only at done
      split at done
      · cases done
        exact ⟨children, List.Sublist.refl _, family⟩
      next notCurrent =>
      obtain ⟨parent, -, done⟩ := Option.bind_eq_some_iff.mp done
      obtain ⟨mem, dead⟩ := dlistFind_mem family.queued search
      have child : corpse ∈ children := by
        cases mem with
        | head => exact absurd (by simpa using dead) family.mainAlive
        | tail _ mem => exact mem
      have notMain : main ≠ corpse := by
        rintro rfl
        exact family.mainAlive (by simpa using dead)
      generalize told : (match parent with
        | none => s
        | some parent => (taskWaitqAdd s waitq parent corpse).2) = s₁ at done
      have kept : Family s₁ main children ∧ s₁.current = s.current := by
        subst told
        cases parent with
        | none => exact ⟨family, rfl⟩
        | some parent =>
            exact ⟨family.waitqAdd waitq parent corpse, (taskWaitqAdd_globals ..).2.2⟩
      obtain ⟨family, current⟩ := kept
      obtain ⟨l₁, before, l₂, split, rfl⟩ := @schedQueueDel_walk _ _ corpse _ _ family.queued child
        (by rw [family.tail]; simpa using notMain) done
      exact family.unlink split (by rw [current]; exact notCurrent)

end

/-! ## Whole runs -/

namespace Family

variable {s s' : SchedState} {main : TaskId} {children : List TaskId}

theorem pidsUnique (family : Family s main children) (few : children.length ≤ 1) : s.PidsUnique := by
  refine ⟨main :: children, family.queued, ?_, ?_⟩
  · cases children with
    | nil => exact List.pairwise_singleton ..
    | cons child children =>
        cases children with
        | cons _ _ => simp at few
        | nil => simp [family.mainPid, family.childPid child List.mem_cons_self]
  · intro t mem
    cases mem with
    | head => simp [family.mainPid]
    | tail _ mem => simp [family.childPid t mem]

/-- Two children have the same PID. -/
theorem not_pidsUnique {child child' : TaskId} (family : Family s main (child :: child' :: children)) :
    ¬ s.PidsUnique := by
  rintro ⟨l, queued, unique, -⟩
  obtain rfl := family.queued.unique queued
  have apart := (List.pairwise_cons.mp (List.pairwise_cons.mp unique).2).1 child' (by simp)
  exact apart (by rw [family.childPid child (by simp), family.childPid child' (by simp)])

/-- A step keeps the invariant; only a fork that makes a task adds a child. -/
theorem step (family : Family s main children) {op : PidOp} (step : s.PidStep op s') :
    (∃ copy stack vmm regions, op = .fork copy stack vmm (some regions) ∧
      Family s' main (copy :: children)) ∨
    ∃ children', children'.Sublist children ∧ Family s' main children' := by
  obtain ⟨allowed, fuel, done⟩ := step
  have same := List.Sublist.refl children
  cases op with
  | fork copy stack vmm mem =>
      obtain ⟨current, -, done⟩ := Option.bind_eq_some_iff.mp done
      have forked := timerFork_family family (allowed _ family.queued) done
      cases mem with
      | none => exact .inr ⟨children, same, forked⟩
      | some regions => exact .inl ⟨copy, stack, vmm, regions, rfl, forked⟩
  | exit exitCode => exact .inr ⟨children, same, schedExit_family family done⟩
  | clean waitq => exact .inr (schedQueueClean_family family done)
  | switch task =>
      cases done
      obtain ⟨l, queued, mem⟩ := allowed
      obtain rfl := family.queued.unique queued
      refine .inr ⟨children, same, family.congr rfl rfl rfl rfl (fun _ _ => rfl) family.mainPrio
        family.mainAlive ?_⟩
      intro current here
      cases here
      exact mem
  | prio prio =>
      obtain ⟨current, -, done⟩ := Option.bind_eq_some_iff.mp done
      cases done
      exact .inr ⟨children, same, family.setTask current _ (fun _ => ⟨rfl, rfl, rfl⟩)
        fun _ => ⟨allowed.1, family.mainAlive⟩⟩

end Family

/-- A state in which the main task has at most one child. -/
def FewChildren (s : SchedState) : Prop :=
  ∃ main children, Family s main children ∧ children.length ≤ 1

theorem FewChildren.keep {s s' : SchedState} {op : PidOp} (few : FewChildren s)
    (guard : s.ForksAlone op) (step : s.PidStep op s') : FewChildren s' := by
  obtain ⟨main, children, family, le⟩ := few
  obtain ⟨copy, stack, vmm, regions, rfl, family'⟩ | ⟨children', sub, family'⟩ := family.step step
  · obtain ⟨alone, queued⟩ := guard
    cases family.queued.unique queued
    exact ⟨main, [copy], family', Nat.le_refl 1⟩
  · exact ⟨main, children', family', Nat.le_trans sub.length_le le⟩

theorem FewChildren.breaks {s s' : SchedState} {op : PidOp} (few : FewChildren s)
    (guard : ¬ s.ForksAlone op) (step : s.PidStep op s') : ¬ s'.PidsUnique := by
  obtain ⟨main, children, family, -⟩ := few
  cases op with
  | fork copy stack vmm mem =>
      cases mem with
      | none => exact absurd trivial guard
      | some regions =>
          obtain ⟨allowed, fuel, done⟩ := step
          obtain ⟨current, -, done⟩ := Option.bind_eq_some_iff.mp done
          have forked := timerFork_family family (allowed _ family.queued) done
          cases children with
          | nil => exact absurd ⟨main, family.queued⟩ guard
          | cons child children => exact Family.not_pidsUnique forked
  | exit _ => exact absurd trivial guard
  | clean _ => exact absurd trivial guard
  | switch _ => exact absurd trivial guard
  | prio _ => exact absurd trivial guard

theorem PidStart.fewChildren {s : SchedState} (start : PidStart s) : FewChildren s := by
  obtain ⟨_, _, main, _, _, done⟩ := start
  exact ⟨main, [], schedInit_family done, Nat.zero_le 1⟩

theorem fewChildren_of_run {past : List (SchedState × PidOp)} {s : SchedState}
    (run : Run PidStart PidStep past s) (guarded : Run.Guarded ForksAlone past) : FewChildren s :=
  (run.invariant FewChildren (fun _ start => PidStart.fewChildren start)
    (fun _ _ _ few guard step => few.keep guard step) guarded).1

/-- PIDs are unique in every state of a run exactly when every fork of the run that makes a task
    finds the main task alone in the queue. -/
theorem pidsUnique_iff_forksAlone {past : List (SchedState × PidOp)} {s : SchedState}
    (run : Run PidStart PidStep past s) :
    Run.Always PidsUnique past s ↔ Run.Guarded ForksAlone past :=
  Run.always_iff FewChildren
    (fun _ start => PidStart.fewChildren start)
    (fun _ _ _ few guard step => few.keep guard step)
    (fun _ ⟨_, _, family, few⟩ => family.pidsUnique few)
    (fun _ _ _ few guard step => few.breaks guard step) run

/-- The main task at address 1 runs and forks a task at address 2. -/
theorem one_fork : ∃ past s s', Run PidStart PidStep past s ∧
    past.map Prod.snd = [.fork 2 default 0 (some []), .switch 1] ∧ Run.Guarded ForksAlone past ∧
    s.Queued [1, 2] ∧ s.PidStep (.fork 3 default 0 (some [])) s' := by
  refine ⟨_, _, _, .next (i := .fork 2 default 0 (some [])) (.next (i := .switch 1)
    (.init ⟨1, emptyQueue.sched, 1, 0, [], rfl⟩) ⟨?_, 0, rfl⟩) ⟨?_, 2, rfl⟩, rfl, ?_,
    ?_, ?_, 2, rfl⟩
  · exact ⟨[1], .visit .stop, by decide⟩
  · intro l queued
    cases queued.unique (Walk.visit (x := 1) .stop)
    decide
  · intro before mem
    cases mem with
    | head => exact ⟨1, .visit .stop⟩
    | tail _ mem =>
        cases mem with
        | head => exact trivial
        | tail _ mem => cases mem
  · exact Walk.visit (x := 1) (.visit (x := 2) .stop)
  · intro l queued
    cases queued.unique (Walk.visit (x := 1) (.visit (x := 2) .stop))
    decide

theorem pidsUnique_one_fork : ∃ past s, Run PidStart PidStep past s ∧
    past.map Prod.snd = [.fork 2 default 0 (some []), .switch 1] ∧ Run.Always PidsUnique past s := by
  obtain ⟨past, s, -, run, ops, guarded, -, -⟩ := one_fork
  exact ⟨past, s, run, ops, (pidsUnique_iff_forksAlone run).mpr guarded⟩

/-- A second fork of the main task gives two children PID 2. -/
theorem not_pidsUnique_two_forks : ∃ past s, Run PidStart PidStep past s ∧
    past.map Prod.snd = [.fork 3 default 0 (some []), .fork 2 default 0 (some []), .switch 1] ∧
    ¬ s.PidsUnique := by
  obtain ⟨past, s, s', run, ops, guarded, queued, fork⟩ := one_fork
  refine ⟨_, s', .next run fork, by rw [List.map_cons, ops], ?_⟩
  refine (fewChildren_of_run run guarded).breaks ?_ fork
  rintro ⟨main, alone⟩
  cases queued.unique alone

end Sdx.Sched
