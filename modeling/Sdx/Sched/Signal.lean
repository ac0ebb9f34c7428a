import Sdx.Lib.Run
import Sdx.Sched.Timer
import Sdx.Util.Slist

/-! # Signals (`sched/signal.c`)

A task has a handler for every signal and a queue of the signals sent to it. The table of the
handlers has `SIG_MAX` entries and is indexed with the signal itself, so the handler of the last
signal, `SIGSEGV`, is the word behind the table. That word is the head of the queue: setting
the handler changes the queue, and the handler of a `SIGSEGV` that is popped is whatever is
queued behind it.
-/

namespace Sdx.Sched

open Lib LinkedList Util

def sigKill : Int := 4

/-- `SIG_DFL`. -/
def sigDfl : Nat := 0

/-- `SIG_IGN`. -/
def sigIgn : Nat := 1

/-- The functions that are default handlers. -/
inductive DefaultHandler where
  /-- `__sighand_term`. -/
  | term
  /-- `__sighand_dump`. -/
  | dump
  deriving DecidableEq

/-- `sigdfl` after `task_signal_setup`. -/
def sigdfl : Int → Option DefaultHandler
  | 0 => some .term
  | 1 => some .term
  | 2 => some .dump
  | 3 => some .term
  | 4 => some .dump
  | _ => none

/-- What the switch of `task_signal_pop` comes to. The call of a handler of the task itself is not
    written yet. -/
inductive Dispatch where
  | default (handler : Option DefaultHandler)
  | ignore
  | handler (address : Nat)
  deriving DecidableEq

/-- The words of a task from `sighand` on, and the fields of the `task_sigset_t` on the heap. -/
structure SignalTask where
  words : Int → Nat
  value : Nat → Int
  next : Nat → Option Nat

namespace SignalTask

/-- A word as a pointer. -/
def pointer (word : Nat) : Option Nat := if word = 0 then none else some word

/-- `task->signal` and the links: the pointer is the word behind the table. -/
def signal (t : SignalTask) : Slist Nat := ⟨t.next, pointer (t.words sigMax)⟩

def setWord (t : SignalTask) (i : Int) (word : Nat) : SignalTask :=
  { t with words := Function.update t.words i word }

def setSignal (t : SignalTask) (list : Slist Nat) : SignalTask :=
  { t.setWord sigMax (list.head.getD 0) with next := list.next }

end SignalTask

/-- What a call returns, the indices it uses into `sighand` and into `sigdfl`, and what it
    dispatches to. -/
structure SignalCall where
  result : Int
  sighand : List Int
  sigdfl : List Int
  dispatch : Option Dispatch
  deriving DecidableEq

open SignalTask

/-- `task_signal_set`. -/
def taskSignalSet (t : SignalTask) (sig : Int) (hand : Nat) : SignalTask × SignalCall :=
  if sig > sigMax ∨ sig < 0 then (t, ⟨-eINVAL, [], [], none⟩)
  else if hand = sigIgn ∧ sig = sigKill then (t, ⟨0, [], [], none⟩)
  else (t.setWord sig hand, ⟨0, [sig], [], none⟩)

/-- `task_signal_add`, given the address the allocation returns; a null one is written to. -/
def taskSignalAdd (t : SignalTask) (sig : Int) (entry fuel : Nat) :
    Option (SignalTask × SignalCall) :=
  if sig > sigMax ∨ sig < sigMin then some (t, ⟨-eINVAL, [], [], none⟩)
  else if entry = 0 then none
  else
    let t := { t with
      value := Function.update t.value entry sig
      next := Function.update t.next entry none }
    (t.signal.addEnd entry fuel).map fun list => (t.setSignal list, ⟨0, [], [], none⟩)

/-- `task_signal_pop`. -/
def taskSignalPop (t : SignalTask) : SignalTask × SignalCall :=
  match t.signal.head with
  | none => (t, ⟨0, [], [], none⟩)
  | some cur =>
      let sig := t.value cur
      let t := t.setSignal { t.signal with head := t.next cur }
      if sig > sigMax ∨ sig < sigMin then (t, ⟨-eINVAL, [], [], none⟩)
      else
        let handler := t.words sig
        if handler = sigDfl then
          (t, ⟨sig, [sig], [sig - 1], some (.default (sigdfl (sig - 1)))⟩)
        else if handler = sigIgn then (t, ⟨sig, [sig], [], some .ignore⟩)
        else (t, ⟨sig, [sig], [], some (.handler handler)⟩)

inductive SignalOp where
  | set (sig : Int) (hand : Nat)
  | add (sig : Int) (entry : Nat)
  | pop
  deriving DecidableEq

namespace SignalTask

def perform (t : SignalTask) (op : SignalOp) (fuel : Nat) : Option (SignalTask × SignalCall) :=
  match op with
  | .set sig hand => some (taskSignalSet t sig hand)
  | .add sig entry => taskSignalAdd t sig entry fuel
  | .pop => some (taskSignalPop t)

end SignalTask

/-! ## What the calls are for -/

/-- What was last set for each signal, and the signals that are pending, oldest first. -/
structure Signals where
  disposition : Int → Nat
  pending : List Int

namespace Signals

/-- A disposition that is accepted. -/
def Accepts (sig : Int) (hand : Nat) : Prop :=
  0 ≤ sig ∧ sig ≤ sigMax ∧ ¬ (hand = sigIgn ∧ sig = sigKill)

instance (sig : Int) (hand : Nat) : Decidable (Accepts sig hand) :=
  inferInstanceAs (Decidable (_ ∧ _ ∧ ¬ _))

def perform (s : Signals) : SignalOp → Signals
  | .set sig hand =>
      if Accepts sig hand then { s with disposition := Function.update s.disposition sig hand }
      else s
  | .add sig _ =>
      if sigMin ≤ sig ∧ sig ≤ sigMax then { s with pending := s.pending ++ [sig] } else s
  | .pop => { s with pending := s.pending.tail }

/-- How a signal is to be handled. -/
def dispatch (s : Signals) (sig : Int) : Dispatch :=
  if s.disposition sig = sigDfl then .default (sigdfl (sig - 1))
  else if s.disposition sig = sigIgn then .ignore
  else .handler (s.disposition sig)

/-- The call stays inside the two tables, and a pop takes the oldest signal and dispatches it to
    what was last set for it. -/
structure Honours (s : Signals) (op : SignalOp) (call : SignalCall) : Prop where
  sighand : ∀ i ∈ call.sighand, 0 ≤ i ∧ i < sigMax
  sigdfl : ∀ i ∈ call.sigdfl, 0 ≤ i ∧ i < sigMax
  oldest : op = .pop → call.result = s.pending.headD 0
  dispatched : op = .pop → call.dispatch = s.pending.head?.map s.dispatch

end Signals

/-- A task, what should have become of it, and the last call with the signals it found. -/
structure SignalLog where
  task : SignalTask
  signals : Signals
  last : Option (Signals × SignalOp × SignalCall)

namespace SignalLog

/-- A zeroed task. -/
def Start (l : SignalLog) : Prop :=
  (∀ i, l.task.words i = 0) ∧ l.signals = ⟨fun _ => sigDfl, []⟩ ∧ l.last = none

/-- The heap gives an address that is not on the queue. -/
def Allocates (t : SignalTask) : SignalOp → Prop
  | .add _ entry => ∀ queue, Walk t.next t.signal.head queue → entry ∉ queue
  | _ => True

def Step (l : SignalLog) (op : SignalOp) (l' : SignalLog) : Prop :=
  Allocates l.task op ∧ ∃ task call, Returns (l.task.perform op) (task, call) ∧
    l' = ⟨task, l.signals.perform op, some (l.signals, op, call)⟩

/-- The last call did what it should. -/
def Honoured (l : SignalLog) : Prop :=
  ∀ s op call, l.last = some (s, op, call) → s.Honours op call

/-- The call neither sets nor handles the last signal. -/
def Below (l : SignalLog) : SignalOp → Prop
  | .set sig _ => sig ≠ sigMax
  | .add _ _ => True
  | .pop => l.signals.pending.head? ≠ some sigMax

/-- The queue holds the pending signals and the table what was set, but for the last signal. -/
structure Agrees (l : SignalLog) : Prop where
  queue : ∃ queue, Walk l.task.next l.task.signal.head queue ∧ (∀ a ∈ queue, a ≠ 0) ∧
    queue.map l.task.value = l.signals.pending
  table : ∀ i, 0 ≤ i → i < sigMax → l.task.words i = l.signals.disposition i
  range : ∀ sig ∈ l.signals.pending, sigMin ≤ sig ∧ sig ≤ sigMax
  last : Honoured l

section

variable {l l' : SignalLog} {t : SignalTask} {op : SignalOp} {sig : Int} {hand : Nat} {queue : List Nat}

@[simp] theorem pointer_getD (p : Option Nat) (nonzero : ∀ a, p = some a → a ≠ 0) :
    pointer (p.getD 0) = p := by
  cases p with
  | none => rfl
  | some a => exact if_neg (nonzero a rfl)

theorem setSignal_signal {list : Slist Nat} (nonzero : ∀ a, list.head = some a → a ≠ 0) :
    (t.setSignal list).signal = list := by
  rw [SignalTask.signal, setSignal, setWord]
  simp only [Function.update_self, pointer_getD _ nonzero]

/-- Setting the queue keeps the table. -/
theorem setSignal_words {list : Slist Nat} {i : Int} (inside : i < sigMax) :
    (t.setSignal list).words i = t.words i :=
  Function.update_of_ne (Int.ne_of_lt inside) ..

/-- Setting a handler in the table keeps the queue. -/
theorem setWord_signal {i : Int} {word : Nat} (inside : i < sigMax) :
    (t.setWord i word).signal = t.signal := by
  have kept : (t.setWord i word).words sigMax = t.words sigMax :=
    Function.update_of_ne (Int.ne_of_gt inside) ..
  rw [SignalTask.signal, kept]
  rfl

theorem taskSignalSet_accepted (accepts : Signals.Accepts sig hand) :
    taskSignalSet t sig hand = (t.setWord sig hand, ⟨0, [sig], [], none⟩) := by
  obtain ⟨low, high, allowed⟩ := accepts
  rw [taskSignalSet, if_neg (by omega), if_neg allowed]

theorem taskSignalSet_refused (refused : ¬ Signals.Accepts sig hand) :
    ∃ result, taskSignalSet t sig hand = (t, ⟨result, [], [], none⟩) := by
  rw [taskSignalSet]
  split
  · exact ⟨_, rfl⟩
  · next inRange =>
      split
      · exact ⟨_, rfl⟩
      · next allowed => exact absurd ⟨by omega, by omega, allowed⟩ refused

/-- A pop of a signal that the table has a handler for. -/
theorem taskSignalPop_inTable {cur : Nat} {rest : List Nat} {s : Signals}
    (walk : Walk t.next t.signal.head (cur :: rest))
    (low : sigMin ≤ t.value cur) (high : t.value cur < sigMax)
    (same : t.words (t.value cur) = s.disposition (t.value cur)) :
    ∃ call, taskSignalPop t = (t.setSignal { t.signal with head := t.next cur }, call) ∧
      call.result = t.value cur ∧ call.dispatch = some (s.dispatch (t.value cur)) ∧
      call.sighand = [t.value cur] ∧ ∀ i ∈ call.sigdfl, i = t.value cur - 1 := by
  obtain head : t.signal.head = some cur := walk.head_eq
  have kept := @setSignal_words t { t.signal with head := t.next cur } _ high
  rw [taskSignalPop, head]
  simp only
  rw [if_neg (by omega), kept, same]
  unfold Signals.dispatch
  split
  · exact ⟨_, rfl, rfl, rfl, rfl, fun i mem => List.mem_singleton.mp mem⟩
  · split
    · exact ⟨_, rfl, rfl, rfl, rfl, fun i mem => absurd mem List.not_mem_nil⟩
    · exact ⟨_, rfl, rfl, rfl, rfl, fun i mem => absurd mem List.not_mem_nil⟩

theorem Start.agrees (start : Start l) : Agrees l := by
  obtain ⟨zero, signals, last⟩ := start
  have empty : l.task.signal.head = none := by
    rw [SignalTask.signal, zero]
    rfl
  constructor
  · refine ⟨[], ?_, nofun, ?_⟩
    · rw [empty]
      exact .stop
    · rw [signals]
      rfl
  · intro i _ _
    rw [zero, signals]
    rfl
  · rw [signals]
    exact nofun
  · intro s op call some'
    rw [last] at some'
    cases some'

theorem Agrees.set (agrees : Agrees l) (below : sig ≠ sigMax) {task : SignalTask}
    {call : SignalCall} (result : taskSignalSet l.task sig hand = (task, call)) :
    Agrees ⟨task, l.signals.perform (.set sig hand), some (l.signals, .set sig hand, call)⟩ := by
  by_cases accepts : Signals.Accepts sig hand
  · rw [taskSignalSet_accepted accepts] at result
    cases result
    have inside : sig < sigMax := Int.lt_iff_le_and_ne.mpr ⟨accepts.2.1, below⟩
    rw [Signals.perform, if_pos accepts]
    constructor
    · rw [setWord_signal inside]
      exact agrees.queue
    · intro i low high
      by_cases here : i = sig
      · subst here
        simp only [setWord, Function.update_self]
      · simp only [setWord, Function.update_of_ne here]
        exact agrees.table i low high
    · exact agrees.range
    · rintro s op call ⟨⟩
      refine ⟨?_, nofun, nofun, nofun⟩
      intro i mem
      rw [List.mem_singleton.mp mem]
      exact ⟨accepts.1, inside⟩
  · obtain ⟨code, refused⟩ := @taskSignalSet_refused l.task sig hand accepts
    rw [refused] at result
    cases result
    rw [Signals.perform, if_neg accepts]
    refine ⟨agrees.queue, agrees.table, agrees.range, ?_⟩
    rintro s op call ⟨⟩
    exact ⟨nofun, nofun, nofun, nofun⟩

theorem Agrees.add (agrees : Agrees l) {entry : Nat} {task : SignalTask} {call : SignalCall}
    (allocates : Allocates l.task (.add sig entry))
    (returns : Returns (taskSignalAdd l.task sig entry) (task, call)) :
    Agrees ⟨task, l.signals.perform (.add sig entry), some (l.signals, .add sig entry, call)⟩ := by
  by_cases inRange : sigMin ≤ sig ∧ sig ≤ sigMax
  · rw [Signals.perform, if_pos inRange]
    obtain ⟨queue, walk, nonzero, values⟩ := agrees.queue
    have fresh : entry ∉ queue := allocates queue walk
    by_cases null : entry = 0
    · have faults : Returns (fun _ => none) (task, call) := by
        refine .congr (fun fuel => ?_) returns
        rw [taskSignalAdd, if_neg (by omega), if_pos null]
      exact absurd (Returns.none_iff.mp faults) nofun
    · have off : ∀ a ∈ queue, a ≠ entry := by
        rintro a mem rfl
        exact fresh mem
      have kept : ∀ a ∈ queue, Function.update l.task.next entry none a = l.task.next a :=
        fun a mem => Function.update_of_ne (off a mem) ..
      let task : SignalTask := ⟨l.task.words, Function.update l.task.value entry sig,
        Function.update l.task.next entry none⟩
      have walk₁ : Walk task.signal.next task.signal.head queue := walk.congr kept
      obtain ⟨list, added, walk'⟩ := Slist.addEnd_returns walk₁ fresh (Function.update_self ..)
      have returns' : Returns (taskSignalAdd l.task sig entry) _ :=
        .congr (fun fuel => by rw [taskSignalAdd, if_neg (by omega), if_neg null])
          (added.map fun list => (SignalTask.setSignal ⟨l.task.words,
            Function.update l.task.value entry sig, Function.update l.task.next entry none⟩ list,
            ⟨0, [], [], none⟩))
      cases returns.unique returns'
      have nonzero' : ∀ a ∈ queue ++ [entry], a ≠ 0 := by
        intro a mem
        rcases List.mem_append.mp mem with old | new
        · exact nonzero a old
        · rwa [List.mem_singleton.mp new]
      have head_nonzero : ∀ a, list.head = some a → a ≠ 0 := by
        intro a head
        rw [walk'.head_eq] at head
        exact nonzero' a (List.mem_of_head? head)
      constructor
      · refine ⟨queue ++ [entry], ?_, nonzero', ?_⟩
        · rw [setSignal_signal head_nonzero]
          exact walk'
        · rw [List.map_append, ← values]
          simp only [setSignal, setWord, List.map_cons, List.map_nil, Function.update_self]
          congr 1
          exact List.map_congr_left fun a mem => Function.update_of_ne (off a mem) ..
      · intro i low high
        rw [setSignal_words high]
        exact agrees.table i low high
      · intro sig' mem
        rcases List.mem_append.mp mem with old | new
        · exact agrees.range sig' old
        · rwa [List.mem_singleton.mp new]
      · rintro s op call ⟨⟩
        exact ⟨nofun, nofun, nofun, nofun⟩
  · have refused : Returns (taskSignalAdd l.task sig entry) (l.task, ⟨-eINVAL, [], [], none⟩) := by
      refine .congr (fun fuel => ?_) (.const _)
      rw [taskSignalAdd, if_pos (by omega)]
    cases returns.unique refused
    rw [Signals.perform, if_neg inRange]
    refine ⟨agrees.queue, agrees.table, agrees.range, ?_⟩
    rintro s op call ⟨⟩
    exact ⟨nofun, nofun, nofun, nofun⟩

theorem Agrees.pop (agrees : Agrees l) (below : l.signals.pending.head? ≠ some sigMax)
    {task : SignalTask} {call : SignalCall} (result : taskSignalPop l.task = (task, call)) :
    Agrees ⟨task, l.signals.perform .pop, some (l.signals, .pop, call)⟩ := by
  obtain ⟨queue, walk, nonzero, values⟩ := agrees.queue
  cases queue with
  | nil =>
      have empty : l.task.signal.head = none := walk.head_eq
      rw [taskSignalPop, empty] at result
      cases result
      rw [List.map_nil] at values
      have walk' : Walk l.task.next l.task.signal.head [] := walk
      refine ⟨⟨[], walk', nofun, ?_⟩, agrees.table, ?_, ?_⟩
      · rw [Signals.perform, ← values]
        rfl
      · intro sig mem
        exact agrees.range sig (List.mem_of_mem_tail mem)
      · rintro s op call ⟨⟩
        refine ⟨nofun, nofun, fun _ => ?_, fun _ => ?_⟩
        · rw [← values]
          rfl
        · rw [← values]
          rfl
  | cons cur rest =>
      rw [List.map_cons] at values
      have first : l.signals.pending.head? = some (l.task.value cur) := by rw [← values]; rfl
      have range := agrees.range (l.task.value cur) (by rw [← values]; exact List.mem_cons_self)
      have high : l.task.value cur < sigMax := by
        refine Int.lt_iff_le_and_ne.mpr ⟨range.2, fun last => below ?_⟩
        rw [first, last]
      have positive : 0 ≤ l.task.value cur := Int.le_trans (by decide) range.1
      obtain ⟨call', popped, took, dispatched, used, usedDfl⟩ := taskSignalPop_inTable walk range.1
        high (agrees.table _ positive high)
      rw [popped] at result
      cases result
      have behind_walk : Walk l.task.next (l.task.next cur) rest := by
        rw [walk.head_eq] at walk
        exact walk.tail
      have nonzero' : ∀ a, l.task.next cur = some a → a ≠ 0 := by
        intro a behind
        have second := behind_walk.head_eq
        rw [behind] at second
        exact nonzero a (List.mem_cons_of_mem _ (List.mem_of_head? second.symm))
      constructor
      · refine ⟨rest, ?_, fun a mem => nonzero a (List.mem_cons_of_mem _ mem), ?_⟩
        · rw [setSignal_signal nonzero']
          exact behind_walk
        · rw [Signals.perform, ← values]
          rfl
      · intro i low high
        rw [setSignal_words high]
        exact agrees.table i low high
      · intro sig mem
        exact agrees.range sig (List.mem_of_mem_tail mem)
      · rintro s op call ⟨⟩
        refine ⟨?_, ?_, fun _ => ?_, fun _ => ?_⟩
        · intro i mem
          rw [used] at mem
          rw [List.mem_singleton.mp mem]
          exact ⟨positive, high⟩
        · intro i mem
          rw [usedDfl i mem]
          have low := range.1
          rw [sigMin] at low
          omega
        · rw [took, ← values]
          rfl
        · rw [dispatched, first]
          rfl

theorem Agrees.keep (agrees : Agrees l) (below : l.Below op) (step : l.Step op l') :
    Agrees l' := by
  obtain ⟨allocates, task, call, returns, rfl⟩ := step
  cases op with
  | set sig hand => exact agrees.set below (Option.some.inj (Returns.const_iff.mp returns))
  | add sig entry => exact agrees.add allocates returns
  | pop => exact agrees.pop below (Option.some.inj (Returns.const_iff.mp returns))

/-- A call that sets or handles the last signal uses the word behind the table. -/
theorem Agrees.breaks (agrees : Agrees l) (below : ¬ l.Below op) (step : l.Step op l') :
    ¬ Honoured l' := by
  obtain ⟨allocates, task, call, returns, rfl⟩ := step
  intro honoured
  have inside := (honoured _ _ _ rfl).sighand
  suffices outside : sigMax ∈ call.sighand from absurd (inside sigMax outside).2 (Int.lt_irrefl _)
  cases op with
  | set sig hand =>
      obtain rfl : sig = sigMax := Classical.not_not.mp below
      have result := Option.some.inj (Returns.const_iff.mp returns)
      have accepts : Signals.Accepts sigMax hand :=
        ⟨by decide, Int.le_refl _, fun ignored => absurd ignored.2 (by decide)⟩
      rw [taskSignalSet_accepted accepts] at result
      cases result
      exact List.mem_singleton_self _
  | add sig entry => exact absurd trivial below
  | pop =>
      have first : l.signals.pending.head? = some sigMax := Classical.not_not.mp below
      obtain ⟨queue, walk, nonzero, values⟩ := agrees.queue
      rw [← values] at first
      cases queue with
      | nil => cases first
      | cons cur rest =>
          have value : l.task.value cur = sigMax := Option.some.inj first
          have head : l.task.signal.head = some cur := walk.head_eq
          have result := Option.some.inj (Returns.const_iff.mp returns)
          rw [taskSignalPop, head] at result
          simp only [value] at result
          rw [if_neg (by decide)] at result
          split at result
          · cases result
            exact List.mem_singleton_self _
          · split at result
            · cases result
              exact List.mem_singleton_self _
            · cases result
              exact List.mem_singleton_self _

end

end SignalLog

end Sdx.Sched
