import Sdx.Sched.Pid
import Sdx.Sched.Timer

/-! # Parents (`sched/sched.c`)

`sched_exit` gives the children of the dying task to PID 1, by PID. The main task is never dead,
and any other PID a `ppid` can hold is the 2 that every forked task has. So a live task has a live
parent by number whoever forked it; it may be its own.
-/

namespace Sdx.Sched

open Lib Lib.LinkedList SchedState

namespace SchedState

/-- Every live task behind the head has the PID of a live queued task as its `ppid`. -/
def LiveParents (s : SchedState) : Prop :=
  ∃ l, s.Queued l ∧ ∀ t ∈ l, s.head ≠ some t → (s.tasks t).state ≠ .dead →
    ∃ parent ∈ l, (s.tasks parent).state ≠ .dead ∧ (s.tasks parent).pid = (s.tasks t).ppid

end SchedState

/-- A family whose children have the main task, or one of the children, as parent. -/
structure Adopted (s : SchedState) (main : TaskId) (children : List TaskId) : Prop where
  family : Family s main children
  parents : ∀ child ∈ children, (s.tasks child).ppid = 1 ∨ (s.tasks child).ppid = 2

variable {s s' : SchedState} {main : TaskId} {children : List TaskId} {fuel : Nat}

theorem Family.pid (family : Family s main children) {t : TaskId} (mem : t ∈ main :: children) :
    (s.tasks t).pid = 1 ∨ (s.tasks t).pid = 2 := by
  cases mem with
  | head => exact .inl family.mainPid
  | tail _ mem => exact .inr (family.childPid t mem)

theorem Adopted.liveParents (adopted : Adopted s main children) : s.LiveParents := by
  have family := adopted.family
  refine ⟨main :: children, family.queued, ?_⟩
  intro t mem behind alive
  cases mem with
  | head => exact absurd family.head_eq behind
  | tail _ mem =>
      cases adopted.parents t mem with
      | inl main's =>
          exact ⟨main, List.mem_cons_self, family.mainAlive, family.mainPid.trans main's.symm⟩
      | inr child's =>
          exact ⟨t, List.mem_cons_of_mem _ mem, alive, (family.childPid t mem).trans child's.symm⟩

/-- The `ppid` of the queued tasks, and the one a fork gives. -/
theorem forkEnter_ppid (family : Family s main children) {current new : TaskId}
    (mem : current ∈ main :: children) (fresh : new ∉ main :: children)
    (done : forkEnter fuel s current new = some s') :
    (s'.tasks new).ppid = (s.tasks current).pid ∧
      ∀ t, t ≠ new → (s'.tasks t).ppid = (s.tasks t).ppid := by
  obtain ⟨promoted, cpid, rfl⟩ := forkEnter_eq family fresh done
  have links := @schedQueuePlace_linksOnly (forkReady s current new) new main
  have kept : ∀ t, ((({ schedQueuePlace (forkReady s current new) new main with
      promoted := promoted }).setTask current fun t => { t with cpid := cpid }).tasks t).ppid =
        ((forkReady s current new).tasks t).ppid := by
    intro t
    exact (SchedState.setTask_field Task.ppid _ current (fun t => { t with cpid := cpid })
      (fun _ => rfl) t).trans (links.field Task.ppid (fun _ _ _ => rfl) t)
  have off : current ≠ new := ne_of_mem_of_not_mem mem fresh
  constructor
  · rw [kept]
    simp [forkReady, off]
  · intro t other
    rw [kept]
    simp [forkReady, other]

theorem taskCopy_other (s : SchedState) (current : TaskId) {copy t : TaskId} (vmm : Nat)
    (mem : Option (List Nat)) (other : t ≠ copy) :
    (taskCopy s current copy vmm mem).2.tasks t = s.tasks t := by
  cases mem with
  | none => simp only [taskCopy, setTask_other _ _ _ _ other]
  | some regions => simp only [taskCopy, setTask_other _ _ _ _ other]

/-- A fork writes no `ppid` but the new task's. -/
theorem timerFork_ppid (family : Family s main children) {current copy : TaskId} {stack : ImStack}
    {vmm : Nat} {mem : Option (List Nat)} (member : current ∈ main :: children)
    (fresh : copy ∉ main :: children)
    (done : timerFork fuel s current stack copy vmm mem = some s') :
    (mem.isSome → (s'.tasks copy).ppid = (s.tasks current).pid) ∧
      ∀ t, t ≠ copy → (s'.tasks t).ppid = (s.tasks t).ppid := by
  have off : current ≠ copy := ne_of_mem_of_not_mem member fresh
  have saved : Family (taskUpdateRegs s current stack) main children :=
    family.setTask current _ (fun _ => ⟨rfl, rfl, rfl⟩) fun _ => ⟨family.mainPrio, family.mainAlive⟩
  have pid : ((taskUpdateRegs s current stack).tasks current).pid = (s.tasks current).pid :=
    s.setTask_field Task.pid current (fun t => { t with regs := stackToRegs t.regs stack })
      (fun _ => rfl) current
  have ppid : ∀ t, ((taskUpdateRegs s current stack).tasks t).ppid = (s.tasks t).ppid :=
    s.setTask_field Task.ppid current (fun t => { t with regs := stackToRegs t.regs stack })
      fun _ => rfl
  have copied := taskCopy_family saved current vmm mem fresh
  cases mem with
  | none =>
      cases done
      refine ⟨nofun, fun t other => ?_⟩
      rw [setTask_other _ _ _ _ other]
      exact ppid t
  | some regions =>
      obtain ⟨given, kept⟩ := forkEnter_ppid copied member fresh done
      constructor
      · intro _
        rw [given, taskCopy_other _ _ _ _ off, pid]
      · intro t other
        rw [kept t other, taskCopy_other _ _ _ _ other, ppid]

/-- Every `ppid` is kept or becomes 1. -/
theorem schedExitLoop_ppid {pid : Int} {start : Option TaskId}
    (done : schedExitLoop s pid fuel start = some s') (t : TaskId) :
    (s'.tasks t).ppid = (s.tasks t).ppid ∨ (s'.tasks t).ppid = 1 := by
  induction fuel generalizing s start with
  | zero => cases done
  | succ fuel ih =>
      cases start with
      | none =>
          cases done
          exact .inl rfl
      | some cur =>
          rw [schedExitLoop] at done
          cases ih done with
          | inr main's => exact .inr main's
          | inl kept =>
              rw [kept]
              split
              · by_cases here : t = cur
                · subst here
                  exact .inr (by rw [setTask_same])
                · exact .inl (by rw [setTask_other _ _ _ _ here])
              · exact .inl rfl

theorem schedExit_ppid {exitCode : Int} (done : schedExit fuel s exitCode = some s') (t : TaskId) :
    (s'.tasks t).ppid = (s.tasks t).ppid ∨ (s'.tasks t).ppid = 1 := by
  unfold schedExit at done
  split at done
  · cases done
    exact .inl rfl
  · next current _ =>
      split at done
      · cases done
      · have dead := s.setTask_field Task.ppid current
          (fun t => { t with exitCode := exitCode, state := .dead }) (fun _ => rfl) t
        cases schedExitLoop_ppid done t with
        | inl kept => exact .inl (kept.trans dead)
        | inr main's => exact .inr main's

/-- A step that keeps the `ppid` of the children that stay, or makes it 1. -/
theorem Adopted.keep (adopted : Adopted s main children) {children' : List TaskId}
    (family : Family s' main children') (sub : children'.Sublist children)
    (ppid : ∀ t, (s'.tasks t).ppid = (s.tasks t).ppid ∨ (s'.tasks t).ppid = 1) :
    Adopted s' main children' := by
  refine ⟨family, ?_⟩
  intro child mem
  cases ppid child with
  | inl kept =>
      rw [kept]
      exact adopted.parents child (sub.subset mem)
  | inr main's => exact .inl main's

theorem Adopted.step (adopted : Adopted s main children) {op : PidOp} (step : s.PidStep op s') :
    ∃ children', Adopted s' main children' := by
  have family := adopted.family
  have same := List.Sublist.refl children
  obtain ⟨allowed, fuel, done⟩ := step
  cases op with
  | fork copy stack vmm mem =>
      obtain ⟨current, here, done⟩ := Option.bind_eq_some_iff.mp done
      have fresh := allowed _ family.queued
      have member := family.current current here
      have family' := timerFork_family family fresh done
      obtain ⟨given, kept⟩ := timerFork_ppid family member fresh done
      have old : ∀ child ∈ children, (s'.tasks child).ppid = 1 ∨ (s'.tasks child).ppid = 2 := by
        intro child mem'
        rw [kept child (ne_of_mem_of_not_mem (List.mem_cons_of_mem _ mem') fresh)]
        exact adopted.parents child mem'
      cases mem with
      | none => exact ⟨children, family', old⟩
      | some regions =>
          refine ⟨copy :: children, family', ?_⟩
          intro child mem'
          cases mem' with
          | head =>
              rw [given rfl]
              exact family.pid member
          | tail _ mem' => exact old child mem'
  | exit exitCode =>
      exact ⟨children, adopted.keep (schedExit_family family done) same (schedExit_ppid done)⟩
  | clean waitq =>
      obtain ⟨children', sub, family'⟩ := schedQueueClean_family family done
      have kept := schedQueueClean_field Task.ppid (fun _ _ _ => rfl) (fun _ _ _ => rfl) done
      exact ⟨children', adopted.keep family' sub fun t => .inl (kept t)⟩
  | switch task =>
      cases done
      obtain ⟨l, queued, mem⟩ := allowed
      obtain rfl := family.queued.unique queued
      have entered : ∀ current, some task = some current → current ∈ main :: children := by
        intro current here
        cases here
        exact mem
      have family' : Family { s with current := some task } main children :=
        family.congr rfl rfl rfl rfl (fun _ _ => rfl) family.mainPrio family.mainAlive entered
      exact ⟨children, adopted.keep family' same fun t => .inl rfl⟩
  | prio prio =>
      obtain ⟨current, -, done⟩ := Option.bind_eq_some_iff.mp done
      cases done
      have family' := family.setTask current (fun t => { t with prio := prio })
        (fun _ => ⟨rfl, rfl, rfl⟩) fun _ => ⟨allowed.1, family.mainAlive⟩
      have kept := s.setTask_field Task.ppid current (fun t => { t with prio := prio }) fun _ => rfl
      exact ⟨children, adopted.keep family' same fun t => .inl (kept t)⟩

/-- In every state of every run each live task has a live parent. -/
theorem liveParents_always {past : List (SchedState × PidOp)} {s : SchedState}
    (run : Run PidStart PidStep past s) : Run.Always LiveParents past s := by
  have always := run.invariant (fun s => ∃ main children, Adopted s main children)
    (fun s start => by
      obtain ⟨_, _, main, _, _, done⟩ := start
      exact ⟨main, [], schedInit_family done, nofun⟩)
    (fun s op s' ⟨main, _, adopted⟩ (_ : True) step => ⟨main, adopted.step step⟩)
    fun _ _ => trivial
  obtain ⟨⟨_, _, now⟩, earlier⟩ := always
  refine ⟨now.liveParents, fun before mem => ?_⟩
  obtain ⟨_, _, adopted⟩ := earlier before mem
  exact adopted.liveParents

/-- The main task forks, and the child exits. -/
theorem liveParents_child_exits : ∃ past s, Run PidStart PidStep past s ∧
    past.map Prod.snd = [.exit 0, .switch 2, .fork 2 default 0 (some []), .switch 1] ∧
    s.LiveParents := by
  have forked : ∃ past s s', Run PidStart PidStep past s ∧
      past.map Prod.snd = [.switch 2, .fork 2 default 0 (some []), .switch 1] ∧
      s.PidStep (.exit 0) s' := by
    refine ⟨_, _, _, .next (i := .switch 2) (.next (i := .fork 2 default 0 (some []))
      (.next (i := .switch 1) (.init ⟨1, emptyQueue.sched, 1, 0, [], rfl⟩) ⟨?_, 0, rfl⟩)
      ⟨?_, 2, rfl⟩) ⟨?_, 0, rfl⟩, rfl, trivial, 3, rfl⟩
    · exact ⟨[1], .visit .stop, by decide⟩
    · intro l queued
      cases queued.unique (Walk.visit (x := 1) .stop)
      decide
    · exact ⟨[1, 2], .visit (.visit .stop), by decide⟩
  obtain ⟨past, s, s', run, ops, exits⟩ := forked
  refine ⟨_, s', .next run exits, ?_, (liveParents_always (.next run exits)).1⟩
  rw [List.map_cons, ops]

end Sdx.Sched
