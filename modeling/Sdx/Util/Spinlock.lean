import Mathlib.Logic.Function.Basic
import Sdx.Lib.Run
import Sdx.Sched.Task

/-! # Spinlocks (`util/lock.c`, `inc/util/lock.h`)

`spinlock_acquire` tests the lock and sets it in two steps, and does not look at the bit that
`bts` found. So a task that is interrupted between them sets a lock that another task may hold by
then, and both return. That is the only way to get two holders: as long as every `bts` finds
the bit clear the lock excludes.
-/

namespace Sdx.Util

open Sdx.Lib Sdx.Sched

/-- `spinlock_locked`. -/
def spinlockLocked (lock : UInt8) : Bool := lock &&& 1 != 0

/-- `lock bts $0`. -/
def spinlockBts (lock : UInt8) : UInt8 := lock ||| 1

/-- `spinlock_release`. -/
def spinlockRelease : UInt8 := 0

@[simp] theorem locked_bts (lock : UInt8) : spinlockLocked (spinlockBts lock) = true := by
  rw [spinlockLocked, spinlockBts, bne_iff_ne]
  intro clear
  have bit := congrArg (fun x : UInt8 => x.toBitVec.getLsbD 0) clear
  simp at bit

@[simp] theorem locked_release : spinlockLocked spinlockRelease = false := by decide

/-- Where a task is: outside, at the test of `spinlock_acquire`, behind a test that found the
    lock free, or back from `spinlock_acquire`. -/
inductive SpinPc where
  | out
  | test
  | bts
  | held
  deriving DecidableEq

/-- One lock and the tasks that use it, on one CPU. -/
structure SpinState where
  lock : UInt8
  pc : TaskId → SpinPc
  current : TaskId

inductive SpinOp where
  /-- The current task calls `spinlock_acquire`. -/
  | acquire
  /-- It tests the lock, and yields before it tests again if the lock is taken. -/
  | test
  | bts
  | release
  /-- The timer, or the scheduler in `sched_wait`, runs another task. -/
  | switch (task : TaskId)
  deriving DecidableEq

namespace SpinState

def setPc (s : SpinState) (pc : SpinPc) : SpinState :=
  { s with pc := Function.update s.pc s.current pc }

def perform (s : SpinState) : SpinOp → Option SpinState
  | .acquire => if s.pc s.current = .out then some (s.setPc .test) else none
  | .test =>
      if s.pc s.current = .test then
        if spinlockLocked s.lock then some s else some (s.setPc .bts)
      else none
  | .bts =>
      if s.pc s.current = .bts then some { s.setPc .held with lock := spinlockBts s.lock } else none
  | .release =>
      if s.pc s.current = .held then some { s.setPc .out with lock := spinlockRelease } else none
  | .switch task => some { s with current := task }

def Step (s : SpinState) (op : SpinOp) (s' : SpinState) : Prop := s.perform op = some s'

/-- After `spinlock_init`. -/
def Start (s : SpinState) : Prop := s.lock = spinlockRelease ∧ ∀ t, s.pc t = .out

/-- No two tasks hold the lock. -/
def Excludes (s : SpinState) : Prop := ∀ t u, s.pc t = .held → s.pc u = .held → t = u

/-- A `bts` finds the bit clear. -/
def FindsClear (s : SpinState) : SpinOp → Prop
  | .bts => spinlockLocked s.lock = false
  | _ => True

/-- The lock is set exactly while a task holds it, and one task at most does. -/
structure Owned (s : SpinState) : Prop where
  excludes : s.Excludes
  locked_iff : spinlockLocked s.lock = true ↔ ∃ t, s.pc t = .held

section

variable {s s' : SpinState} {op : SpinOp} {pc : SpinPc} {t : TaskId}

@[simp] theorem setPc_self : (s.setPc pc).pc s.current = pc := Function.update_self ..

theorem setPc_of_ne (other : t ≠ s.current) : (s.setPc pc).pc t = s.pc t :=
  Function.update_of_ne other ..

theorem Start.owned (start : Start s) : Owned s := by
  obtain ⟨free, out⟩ := start
  constructor
  · intro t u held
    rw [out t] at held
    cases held
  · rw [free, locked_release]
    constructor
    · intro locked
      cases locked
    · rintro ⟨t, held⟩
      rw [out t] at held
      cases held

/-- A step of the current task between places where it does not hold the lock. -/
theorem Owned.setPc (owned : Owned s) (before : s.pc s.current ≠ .held) (after : pc ≠ .held) :
    Owned (s.setPc pc) := by
  have same : ∀ t, (s.setPc pc).pc t = .held ↔ s.pc t = .held := by
    intro t
    by_cases current : t = s.current
    · subst current
      simp [before, after]
    · rw [setPc_of_ne current]
  constructor
  · intro t u held held'
    exact owned.excludes t u ((same t).mp held) ((same u).mp held')
  · rw [exists_congr same]
    exact owned.locked_iff

theorem Owned.keep (owned : Owned s) (guard : s.FindsClear op) (step : s.Step op s') :
    Owned s' := by
  cases op with
  | acquire =>
      simp only [Step, perform, Option.ite_none_right_eq_some, Option.some.injEq] at step
      obtain ⟨out, rfl⟩ := step
      exact owned.setPc (by rw [out]; decide) (by decide)
  | test =>
      simp only [Step, perform, Option.ite_none_right_eq_some] at step
      obtain ⟨at', step⟩ := step
      split at step
      · cases step
        exact owned
      · cases step
        exact owned.setPc (by rw [at']; decide) (by decide)
  | bts =>
      simp only [Step, perform, Option.ite_none_right_eq_some, Option.some.injEq] at step
      obtain ⟨at', rfl⟩ := step
      have none' : ∀ t, s.pc t ≠ .held := by
        intro t held
        have locked := owned.locked_iff.mpr ⟨t, held⟩
        rw [guard] at locked
        cases locked
      have only : ∀ t, (s.setPc .held).pc t = .held → t = s.current := by
        intro t held
        by_contra other
        rw [setPc_of_ne other] at held
        exact none' t held
      constructor
      · intro t u held held'
        rw [only t held, only u held']
      · rw [locked_bts]
        exact ⟨fun _ => ⟨s.current, setPc_self⟩, fun _ => rfl⟩
  | release =>
      simp only [Step, perform, Option.ite_none_right_eq_some, Option.some.injEq] at step
      obtain ⟨held, rfl⟩ := step
      have none' : ∀ t, (s.setPc .out).pc t ≠ .held := by
        intro t held'
        by_cases current : t = s.current
        · subst current
          rw [setPc_self] at held'
          cases held'
        · rw [setPc_of_ne current] at held'
          exact current (owned.excludes t s.current held' held)
      constructor
      · intro t u held'
        exact absurd held' (none' t)
      · rw [locked_release]
        exact ⟨nofun, fun ⟨t, held'⟩ => absurd held' (none' t)⟩
  | switch task =>
      cases step
      exact ⟨owned.excludes, owned.locked_iff⟩

/-- A `bts` on a held lock makes a second holder. -/
theorem Owned.breaks (owned : Owned s) (guard : ¬ s.FindsClear op) (step : s.Step op s') :
    ¬ s'.Excludes := by
  cases op with
  | bts =>
      simp only [FindsClear, Bool.not_eq_false] at guard
      obtain ⟨holder, held⟩ := owned.locked_iff.mp guard
      simp only [Step, perform, Option.ite_none_right_eq_some, Option.some.injEq] at step
      obtain ⟨at', rfl⟩ := step
      have other : holder ≠ s.current := by
        rintro rfl
        rw [at'] at held
        cases held
      intro excludes
      apply other
      apply excludes
      · exact (setPc_of_ne other).trans held
      · exact setPc_self
  | _ => exact absurd trivial guard

end

/-- No two tasks hold the lock in any state of a run exactly when every `bts` of the run finds
    the bit clear. -/
theorem excludes_iff_findsClear {past : List (SpinState × SpinOp)} {s : SpinState}
    (run : Run Start Step past s) : Run.Always Excludes past s ↔ Run.Guarded FindsClear past :=
  Run.always_iff Owned (fun _ start => start.owned)
    (fun _ _ _ owned guard step => owned.keep guard step) (fun _ owned => owned.excludes)
    (fun _ _ _ owned guard step => owned.breaks guard step) run

/-- The lock before any task uses it, with task 1 running. -/
def freeLock : SpinState := ⟨spinlockRelease, fun _ => .out, 1⟩

/-- Task 1 has found the lock free and not set it yet. -/
theorem freeLock_test :
    Run Start Step [(freeLock.setPc .test, .test), (freeLock, .acquire)]
      ((freeLock.setPc .test).setPc .bts) :=
  .next (.next (.init ⟨rfl, fun _ => rfl⟩) rfl) rfl

theorem excludes_one_task : ∃ past s, Run Start Step past s ∧ s.pc 1 = .held ∧
    Run.Always Excludes past s := by
  have run := Run.next (i := SpinOp.bts) freeLock_test rfl
  refine ⟨_, _, run, rfl, (excludes_iff_findsClear run).mpr ?_⟩
  intro before mem
  cases mem with
  | head => exact rfl
  | tail _ mem =>
      cases mem with
      | head => exact trivial
      | tail _ mem =>
          cases mem with
          | head => exact trivial
          | tail _ mem => cases mem

/-- The timer runs task 2 between the test and the `bts` of task 1. -/
theorem not_excludes_two_tasks : ∃ past s, Run Start Step past s ∧ ¬ s.Excludes := by
  have other := Run.next (i := SpinOp.acquire) (Run.next (i := SpinOp.switch 2) freeLock_test rfl) rfl
  have second := Run.next (i := SpinOp.bts) (Run.next (i := SpinOp.test) other rfl) rfl
  have both := Run.next (i := SpinOp.bts) (Run.next (i := SpinOp.switch 1) second rfl) rfl
  refine ⟨_, _, both, ?_⟩
  intro excludes
  exact absurd (excludes 1 2 rfl rfl) (by decide)

end SpinState

end Sdx.Util
