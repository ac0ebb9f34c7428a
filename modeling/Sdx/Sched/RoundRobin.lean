import Sdx.Lib.Fuel
import Sdx.Sched.Timer

/-! # Round robin (`__sched_queue_next` of `sched/sched.c`)

From the current task on, `__sched_queue_next` goes along the queue and around to its head until
it comes to a task that is not dead. The tasks in the order in which it meets them, the current
one last, are a ring: a selection takes the first task that is not dead to the end of it.
-/

namespace Sdx.Sched

open Lib Lib.LinkedList

namespace SchedState

/-- The task may be selected. -/
def Live (s : SchedState) (t : TaskId) : Bool := (s.tasks t).state != .dead

/-- `n` selections in a row: `task_current` is set to each result. -/
def selections (fuel : Nat) : Nat → SchedState → Option (List TaskId)
  | 0, _ => some []
  | n + 1, s => do
      let (t, s) ← schedQueueNext s fuel s.current
      let rest ← selections fuel n { s with current := some t }
      some (t :: rest)

end SchedState

/-- The tasks of the queue `l` behind `pos`, and then those up to it. -/
inductive Ring (l : List TaskId) : Option TaskId → List TaskId → Prop where
  | all : Ring l none l
  | behind {before : List TaskId} {t : TaskId} {after : List TaskId}
      (split : l = before ++ t :: after) : Ring l (some t) (after ++ (before ++ [t]))

namespace Ring

variable {l ring before after : List TaskId} {pos : Option TaskId} {t : TaskId}

theorem perm (ring' : Ring l pos ring) : ring.Perm l := by
  cases ring' with
  | all => exact List.Perm.refl l
  | @behind before t after split =>
      have turned := @List.perm_append_comm _ after (before ++ [t])
      rwa [List.append_assoc, List.singleton_append, ← split] at turned

/-- A task of the ring becomes its last one. -/
theorem select (ring' : Ring l pos (before ++ t :: after)) :
    Ring l (some t) (after ++ (before ++ [t])) := by
  generalize whole : before ++ t :: after = ring at ring'
  cases ring' with
  | all => exact .behind whole.symm
  | @behind a x b split =>
      have line : l = a ++ [x] ++ b := by rw [split, List.append_assoc, List.singleton_append]
      rcases List.append_eq_append_iff.mp whole.symm with ⟨c, first, rest⟩ | ⟨c, first, rest⟩
      · -- `t` is in front of `x` in the queue, or is `x`
        have turned := @Ring.behind l c t (after ++ b) (by rw [line, rest]; simp)
        rw [first]
        simpa using turned
      · cases c with
        | nil =>
            have line' : l = [] ++ t :: (after ++ b) := by
              rw [line, ← List.nil_append (a ++ [x]), ← rest]
              simp
            have turned := Ring.behind line'
            rw [List.append_nil] at first
            rw [← first]
            simpa using turned
        | cons y c =>
            -- `t` is behind `x`
            obtain ⟨rfl, rfl⟩ := List.cons.inj rest
            have turned := @Ring.behind l (a ++ x :: before) t c (by rw [split, first]; simp)
            simpa using turned

end Ring

section

variable {s : SchedState} {l ring todo : List TaskId} {pos : Option TaskId} {t : TaskId} {fuel : Nat}

theorem schedQueuePick_next {x : TaskId} (promoted : s.promoted = none)
    (next : pos.bind s.next = some x) : schedQueuePick s pos = some (x, s) := by
  rw [schedQueuePick, promoted]
  simp only [next]

theorem schedQueuePick_head {x : TaskId} (promoted : s.promoted = none)
    (last : pos.bind s.next = none) (head : s.head = some x) :
    schedQueuePick s pos = some (x, s) := by
  rw [schedQueuePick, promoted]
  simp only [last, head, Option.map_some]

/-- The loop goes on from a dead task and stops at any other. -/
theorem schedQueueNext_pick {x : TaskId} (pick : schedQueuePick s pos = some (x, s)) :
    schedQueueNext s (fuel + 1) pos =
      if s.Live x then some (x, s) else schedQueueNext s fuel (some x) := by
  rw [schedQueueNext, pick, SchedState.Live]
  simp only [Option.bind_eq_bind, Option.bind_some]
  by_cases dead : (s.tasks x).state = .dead
  · rw [if_pos dead, if_neg (by rw [dead]; decide)]
  · rw [if_neg dead, if_pos (bne_iff_ne.mpr dead)]

/-- The walk ahead of `pos`, up to its first live task. -/
theorem schedQueueNext_ahead (promoted : s.promoted = none)
    (ahead : Walk s.next (pos.bind s.next) todo) (found : todo.find? s.Live = some t)
    (enough : todo.length ≤ fuel) : schedQueueNext s fuel pos = some (t, s) := by
  induction todo generalizing pos fuel with
  | nil => cases found
  | cons x todo ih =>
      obtain ⟨fuel, rfl⟩ := Nat.exists_eq_add_of_le' enough
      have next := ahead.head_eq
      rw [List.head?_cons] at next
      rw [next] at ahead
      rw [List.length_cons, ← Nat.add_assoc, schedQueueNext_pick (schedQueuePick_next promoted next)]
      rw [List.find?_cons] at found
      cases live : s.Live x with
      | true =>
          rw [live] at found
          cases found
          rfl
      | false =>
          rw [live] at found
          exact ih ahead.tail found (Nat.le_add_left ..)

/-- And around, when all tasks ahead are dead. -/
theorem schedQueueNext_around (promoted : s.promoted = none)
    (ahead : Walk s.next (pos.bind s.next) todo) (walk : s.Queued l)
    (found : (todo ++ l).find? s.Live = some t) (enough : (todo ++ l).length ≤ fuel) :
    schedQueueNext s fuel pos = some (t, s) := by
  induction todo generalizing pos fuel with
  | nil =>
      cases l with
      | nil => cases found
      | cons x l =>
          obtain ⟨fuel, rfl⟩ := Nat.exists_eq_add_of_le' enough
          have head := Walk.head_eq walk
          have last := ahead.head_eq
          rw [SchedState.Queued, head] at walk
          rw [List.nil_append, List.length_cons, ← Nat.add_assoc,
            schedQueueNext_pick (schedQueuePick_head promoted last head)]
          rw [List.nil_append, List.find?_cons] at found
          cases live : s.Live x with
          | true =>
              rw [live] at found
              cases found
              rfl
          | false =>
              rw [live] at found
              exact schedQueueNext_ahead promoted walk.tail found (Nat.le_add_left ..)
  | cons x todo ih =>
      obtain ⟨fuel, rfl⟩ := Nat.exists_eq_add_of_le' enough
      have next := ahead.head_eq
      rw [List.head?_cons] at next
      rw [next] at ahead
      rw [List.cons_append, List.length_cons, ← Nat.add_assoc,
        schedQueueNext_pick (schedQueuePick_next promoted next)]
      rw [List.cons_append, List.find?_cons] at found
      cases live : s.Live x with
      | true =>
          rw [live] at found
          cases found
          rfl
      | false =>
          rw [live] at found
          exact ih ahead.tail found (Nat.le_add_left ..)

/-- `__sched_queue_next` selects the first live task of the ring. -/
theorem schedQueueNext_ring (promoted : s.promoted = none) (walk : s.Queued l)
    (ring' : Ring l pos ring) (found : ring.find? s.Live = some t)
    (enough : l.length + l.length ≤ fuel) : schedQueueNext s fuel pos = some (t, s) := by
  cases ring' with
  | all => exact schedQueueNext_around promoted .stop walk found (by rw [List.nil_append]; omega)
  | @behind before x after split =>
      have ahead : Walk s.next ((some x).bind s.next) after := by
        rw [SchedState.Queued, split] at walk
        exact walk.suffix.tail
      have length : after.length ≤ l.length := by
        rw [split, List.length_append, List.length_cons]
        omega
      apply schedQueueNext_around promoted ahead walk ?_ (by rw [List.length_append]; omega)
      -- the loop meets the tasks behind `x` a second time only if it finds none before
      have more : after ++ l = after ++ (before ++ [x]) ++ after := by
        rw [split]
        simp
      rw [more, List.find?_append, found]
      rfl

/-- Selections in a row go along the live tasks of the ring. -/
theorem selections_ring (promoted : s.promoted = none) (walk : s.Queued l)
    (ring' : Ring l s.current ring) {n : Nat} (few : n ≤ (ring.filter s.Live).length)
    (enough : l.length + l.length ≤ fuel) :
    s.selections fuel n = some ((ring.filter s.Live).take n) := by
  induction n generalizing s ring with
  | zero => rfl
  | succ n ih =>
      cases found : ring.find? s.Live with
      | none =>
          rw [List.find?_eq_none] at found
          rw [List.filter_eq_nil_iff.mpr found] at few
          exact absurd few (Nat.not_succ_le_zero n)
      | some t =>
          obtain ⟨live, before, after, shape, dead⟩ := List.find?_eq_some_iff_append.mp found
          have next := schedQueueNext_ring promoted walk ring' found enough
          rw [shape] at ring'
          have skipped : before.filter s.Live = [] := by
            rw [List.filter_eq_nil_iff]
            intro u mem
            simpa using dead u mem
          have ringLive : ring.filter s.Live = t :: after.filter s.Live := by
            rw [shape, List.filter_append, skipped, List.nil_append, List.filter_cons_of_pos live]
          have turnedLive : (after ++ (before ++ [t])).filter s.Live =
              after.filter s.Live ++ [t] := by
            rw [List.filter_append, List.filter_append, skipped, List.nil_append,
              List.filter_cons_of_pos live, List.filter_nil]
          rw [ringLive, List.length_cons] at few
          have rest := @ih { s with current := some t } (after ++ (before ++ [t])) promoted walk
            ring'.select (by
              change n ≤ ((after ++ (before ++ [t])).filter s.Live).length
              rw [turnedLive, List.length_append]
              omega)
          change _ = some (((after ++ (before ++ [t])).filter s.Live).take n) at rest
          rw [SchedState.selections, next]
          simp only [Option.bind_eq_bind, Option.bind_some]
          rw [rest, ringLive, turnedLive, List.take_append_of_le_length (by omega)]
          rfl

theorem ring_of_current (current : ∀ t ∈ s.current, t ∈ l) : ∃ ring, Ring l s.current ring := by
  cases at' : s.current with
  | none => exact ⟨l, .all⟩
  | some t =>
      obtain ⟨before, after, split⟩ := List.append_of_mem (current t at')
      exact ⟨_, .behind split⟩

end

/-- `__sched_queue_next` returns a queued task that is not dead, and as many selections in a row
    as there are such tasks return each of them once. -/
theorem round_robin {s : SchedState} {l : List TaskId} (walk : s.Queued l)
    (promoted : s.promoted = none) (current : ∀ t ∈ s.current, t ∈ l)
    (live : ∃ t ∈ l, (s.tasks t).state ≠ .dead) :
    (∃ t ∈ l, (s.tasks t).state ≠ .dead ∧
      Returns (fun fuel => schedQueueNext s fuel s.current) (t, s)) ∧
    ∃ chosen : List TaskId, Returns (fun fuel => s.selections fuel (l.filter s.Live).length) chosen ∧
      chosen.Nodup ∧ ∀ t, t ∈ chosen ↔ t ∈ l ∧ (s.tasks t).state ≠ .dead := by
  obtain ⟨ring, ring'⟩ := ring_of_current current
  have perm := ring'.perm
  have permLive := perm.filter s.Live
  have notDead : ∀ t, s.Live t = true ↔ (s.tasks t).state ≠ .dead := fun t => bne_iff_ne
  constructor
  · obtain ⟨t, mem, alive⟩ := live
    have some' : (ring.find? s.Live).isSome := by
      rw [List.find?_isSome]
      exact ⟨t, perm.mem_iff.mpr mem, (notDead t).mpr alive⟩
    obtain ⟨u, found⟩ := Option.isSome_iff_exists.mp some'
    refine ⟨u, perm.mem_iff.mp (List.mem_of_find?_eq_some found),
      (notDead u).mp (List.find?_some found), l.length + l.length, ?_⟩
    intro fuel enough
    exact schedQueueNext_ring promoted walk ring' found enough
  · refine ⟨ring.filter s.Live, ⟨l.length + l.length, ?_⟩, ?_, ?_⟩
    · intro fuel enough
      have all := selections_ring promoted walk ring' (Nat.le_of_eq permLive.length_eq.symm) enough
      rwa [List.take_of_length_le (Nat.le_of_eq permLive.length_eq)] at all
    · exact (perm.nodup_iff.mpr (Walk.nodup walk)).filter _
    · intro t
      rw [List.mem_filter, notDead, perm.mem_iff]

/-- Three tasks, the second one dead and still the current one. -/
def threeTasks : SchedState :=
  ⟨fun t => { (default : Task) with
      state := if t = 2 then .dead else .ready
      next := if t < 3 then some (t + 1) else none },
    fun _ => default, some 1, none, some 2, none⟩

theorem round_robin_threeTasks :
    (∃ t ∈ [1, 2, 3], (threeTasks.tasks t).state ≠ .dead ∧
      Returns (fun fuel => schedQueueNext threeTasks fuel threeTasks.current) (t, threeTasks)) ∧
    ∃ chosen : List TaskId, Returns (fun fuel => threeTasks.selections fuel 2) chosen ∧
      chosen.Nodup ∧ ∀ t, t ∈ chosen ↔ t ∈ [1, 2, 3] ∧ (threeTasks.tasks t).state ≠ .dead := by
  have walk : threeTasks.Queued [1, 2, 3] := .visit (.visit (.visit .stop))
  refine round_robin walk rfl ?_ ⟨1, by decide, by decide⟩
  intro t current
  cases current
  decide

end Sdx.Sched
