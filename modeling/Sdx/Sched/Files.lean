import Sdx.Base
import Sdx.Lib.Run

/-! # Descriptors (`sched/file.c`, `syscall/open.c`, `close.c`, `read.c`, `write.c`)

A task has a table of open files and, in `fd_last`, a hint where the search for a free slot
starts. The search does not come back to the slots below the hint. Closing descriptor zero can
take the hint below the table, and a check in `task_file_from` lets the first descriptor behind
the table through.

Every function says which indices it used into the table. What lies around the table is read
as it is in a running task: `fd_last` in front of it, and the zero exit codes behind it.
-/

namespace Sdx.Sched

open Lib

/-- `CONFIG_TASK_FILES_MAX`. -/
def taskFilesMax : Int := 32

/-- `task_file_t`. -/
structure TaskFile where
  node : Nat
  flags : Int
  offset : Nat
  deriving DecidableEq

/-- `fd_last` and `files` of a task. -/
structure FileTable where
  fdLast : Int
  files : Int → Option TaskFile

namespace FileTable

def setFile (t : FileTable) (fd : Int) (file : Option TaskFile) : FileTable :=
  { t with files := fun i => if i = fd then file else t.files i }

/-- `NULL == task->files[fd]`. -/
def isNull (t : FileTable) (fd : Int) : Bool :=
  if fd = -1 then t.fdLast == 0 else (t.files fd).isNone

end FileTable

/-- The loop of `task_file_fd_next`, with the indices it uses. -/
def fdSearch (t : FileTable) : Nat → Int → Int × List Int
  | 0, fd => (fd, [])
  | left + 1, fd =>
      if taskFilesMax > fd then
        if t.isNull fd then (fd, [fd])
        else
          let (found, used) := fdSearch t left (fd + 1)
          (found, fd :: used)
      else (fd, [])

/-- `task_file_fd_next`. -/
def taskFileFdNext (t : FileTable) : Int × FileTable × List Int :=
  let t := if t.fdLast ≥ taskFilesMax then { t with fdLast := 0 } else t
  let (fd, used) := fdSearch t (taskFilesMax - t.fdLast).toNat t.fdLast
  if fd ≥ taskFilesMax then (-eMFILE, t, used) else (fd, t, used)

/-- `task_file_from`. -/
def taskFileFrom (t : FileTable) (fd : Int) : Option TaskFile × List Int :=
  if fd > taskFilesMax ∨ fd < 0 then (none, []) else (t.files fd, [fd])

/-- What a system call returns, the table it leaves, and the indices it used. -/
structure FileCall where
  result : Int
  table : FileTable
  used : List Int

/-- `sys_open`, given what `vfs_open` and the allocation of the file come to. -/
def sysOpen (t : FileTable) (flags : Int) (opened : Except Int Nat) (alloc : Bool) : FileCall :=
  match opened with
  | .error err => ⟨err, t, []⟩
  | .ok node =>
      let (fd, t, used) := taskFileFdNext t
      if fd < 0 then ⟨fd, t, used⟩
      else
        let t := if fd > t.fdLast then { t with fdLast := fd } else t
        if alloc then ⟨fd, t.setFile fd (some ⟨node, flags, 0⟩), used ++ [fd]⟩
        else ⟨-eNOMEM, t, used⟩

/-- `sys_close`, given what `vfs_close` returns. -/
def sysClose (t : FileTable) (fd : Int) (closed : Int) : FileCall :=
  match taskFileFrom t fd with
  | (none, used) => ⟨-eBADF, t, used⟩
  | (some _, used) =>
      if closed ≠ 0 then ⟨closed, t, used⟩
      else
        let t := if fd = t.fdLast then { t with fdLast := t.fdLast - 1 } else t
        ⟨0, t.setFile fd none, used ++ [fd]⟩

/-- `sys_read`, given what `vfs_read` returns; a directory is read entry by entry. -/
def sysRead (t : FileTable) (fd : Int) (ret : Int) (directory : Bool) : FileCall :=
  match taskFileFrom t fd with
  | (none, used) => ⟨-eBADF, t, used⟩
  | (some file, used) =>
      let moved := if ret ≤ 0 then file.offset
        else wrap64 (file.offset + if directory then 1 else ret.toNat)
      ⟨ret, t.setFile fd (some { file with offset := moved }), used⟩

/-- `sys_write`, given what `vfs_write` returns. -/
def sysWrite (t : FileTable) (fd : Int) (ret : Int) : FileCall :=
  match taskFileFrom t fd with
  | (none, used) => ⟨-eBADF, t, used⟩
  | (some file, used) =>
      let moved := if ret ≤ 0 then file.offset else wrap64 (file.offset + ret.toNat)
      ⟨ret, t.setFile fd (some { file with offset := moved }), used⟩

inductive FileOp where
  | open (flags : Int) (opened : Except Int Nat) (alloc : Bool)
  | close (fd : Int) (closed : Int)
  | read (fd : Int) (ret : Int) (directory : Bool)
  | write (fd : Int) (ret : Int)

namespace FileTable

def perform (t : FileTable) : FileOp → FileCall
  | .open flags opened alloc => sysOpen t flags opened alloc
  | .close fd closed => sysClose t fd closed
  | .read fd ret directory => sysRead t fd ret directory
  | .write fd ret => sysWrite t fd ret

/-- The table of a zeroed task. -/
def Start (t : FileTable) : Prop := t.fdLast = 0 ∧ ∀ fd, t.files fd = none

/-- A slot of the table that is not in use. -/
def Free (t : FileTable) (fd : Int) : Prop := 0 ≤ fd ∧ fd < taskFilesMax ∧ t.files fd = none

instance (t : FileTable) (fd : Int) : Decidable (t.Free fd) :=
  inferInstanceAs (Decidable (0 ≤ fd ∧ fd < taskFilesMax ∧ t.files fd = none))

def Full (t : FileTable) : Prop := ∀ fd, ¬ t.Free fd

section

variable {t : FileTable} {fd found low : Int} {left : Nat} {used : List Int}

/-- What the search finds: the first slot from where it starts that reads as `NULL`, or the end
    of the table. -/
theorem fdSearch_spec (reach : low + left = taskFilesMax)
    (search : fdSearch t left low = (found, used)) :
    low ≤ found ∧ found ≤ taskFilesMax ∧
      (∀ fd, low ≤ fd → fd < found → t.isNull fd = false) ∧
      (found < taskFilesMax → t.isNull found = true) ∧
      ∀ i ∈ used, low ≤ i ∧ i < taskFilesMax := by
  induction left generalizing low found used with
  | zero =>
      obtain ⟨rfl, rfl⟩ := Prod.mk.inj search
      refine ⟨Int.le_refl _, by omega, fun fd low high => by omega, fun below => by omega, nofun⟩
  | succ left ih =>
      rw [fdSearch, if_pos (by omega)] at search
      split at search
      case isTrue null =>
          obtain ⟨rfl, rfl⟩ := Prod.mk.inj search
          refine ⟨Int.le_refl _, by omega, fun fd low high => by omega, fun _ => null, ?_⟩
          intro i mem
          rw [List.mem_singleton.mp mem]
          omega
      case isFalse taken =>
          cases next : fdSearch t left (low + 1) with
          | mk found' used' =>
              rw [next] at search
              obtain ⟨rfl, rfl⟩ := Prod.mk.inj search
              obtain ⟨from', to', between, null, inside⟩ := ih (by omega) next
              refine ⟨by omega, to', ?_, null, ?_⟩
              · intro fd atLeast below
                by_cases first : fd = low
                · rw [first]
                  simpa using taken
                · exact between fd (by omega) below
              · intro i mem
                rcases List.mem_cons.mp mem with rfl | mem
                · omega
                · have bounds := inside i mem
                  omega

/-- `task_file_fd_next`, with the hint below the end of the table: the first free slot from the
    hint on, or none. -/
theorem taskFileFdNext_spec (low : -1 ≤ t.fdLast) (high : t.fdLast < taskFilesMax) :
    (∃ fd used, taskFileFdNext t = (fd, t, used) ∧ t.fdLast ≤ fd ∧ t.Free fd ∧
      (∀ fd', t.fdLast ≤ fd' → fd' < fd → ¬ t.Free fd') ∧
      ∀ i ∈ used, t.fdLast ≤ i ∧ i < taskFilesMax) ∨
    ∃ used, taskFileFdNext t = (-eMFILE, t, used) ∧ (∀ fd, t.fdLast ≤ fd → ¬ t.Free fd) ∧
      ∀ i ∈ used, t.fdLast ≤ i ∧ i < taskFilesMax := by
  cases search : fdSearch t (taskFilesMax - t.fdLast).toNat t.fdLast with
  | mk fd used =>
      obtain ⟨atLeast, atMost, between, null, inside⟩ := fdSearch_spec (by omega) search
      have next : taskFileFdNext t =
          if fd ≥ taskFilesMax then (-eMFILE, t, used) else (fd, t, used) := by
        rw [taskFileFdNext, if_neg (Int.not_le.mpr high)]
        simp only [search]
      have before : ∀ fd', t.fdLast ≤ fd' → fd' < fd → ¬ t.Free fd' := by
        intro fd' from' below free
        have taken := between fd' from' below
        have inTable := free.1
        rw [isNull, if_neg (by omega), free.2.2] at taken
        cases taken
      by_cases full : fd ≥ taskFilesMax
      · right
        refine ⟨used, next.trans (if_pos full), ?_, inside⟩
        exact fun fd' from' free => before fd' from' (Int.lt_of_lt_of_le free.2.1 full) free
      · left
        have here := null (Int.not_le.mp full)
        have inFront : fd ≠ -1 := by
          rintro rfl
          -- the hint is in front of the table, and not zero
          have hint : t.fdLast = -1 := by omega
          rw [isNull, if_pos rfl, hint] at here
          cases here
        refine ⟨fd, used, next.trans (if_neg full), atLeast, ⟨by omega, Int.not_le.mp full, ?_⟩,
          before, inside⟩
        rw [isNull, if_neg inFront] at here
        exact Option.isNone_iff_eq_none.mp here

/-! ## Opening and closing -/

/-- The node is opened or closed, the file is allocated, and what is closed is open. -/
def Succeeds (t : FileTable) : FileOp → Prop
  | .open _ opened alloc => (∃ node, opened = .ok node) ∧ alloc = true
  | .close fd closed => 0 ≤ fd ∧ fd < taskFilesMax ∧ (t.files fd).isSome ∧ closed = 0
  | _ => False

def OpenStep (t : FileTable) (op : FileOp) (t' : FileTable) : Prop :=
  t.Succeeds op ∧ t' = (t.perform op).table

/-- `sys_open` returns a free slot if there is one, and `-EMFILE` only if there is none. -/
def FindsFree (t : FileTable) : FileOp → Prop
  | .open flags opened alloc => ((∃ fd, t.Free fd) → t.Free (sysOpen t flags opened alloc).result) ∧
      ((sysOpen t flags opened alloc).result = -eMFILE → t.Full)
  | _ => True

/-- For an open, a slot from the hint on is free, or none is at all. -/
def InReach (t : FileTable) : FileOp → Prop
  | .open _ _ _ => (∃ fd, t.fdLast ≤ fd ∧ t.Free fd) ∨ t.Full
  | _ => True

/-- The hint is a slot, or the place in front of the first one. -/
def Hinted (t : FileTable) : Prop := -1 ≤ t.fdLast ∧ t.fdLast < taskFilesMax

theorem sysOpen_free {flags : Int} {node : Nat}
    (next : taskFileFdNext t = (fd, t, used)) (free : t.Free fd) :
    sysOpen t flags (.ok node) true =
      ⟨fd, (if fd > t.fdLast then { t with fdLast := fd } else t).setFile fd
        (some ⟨node, flags, 0⟩), used ++ [fd]⟩ := by
  have notError : ¬ fd < 0 := Int.not_lt.mpr free.1
  simp only [sysOpen, next, if_neg notError, if_true]

theorem sysOpen_full {flags : Int} {node : Nat} {alloc : Bool}
    (next : taskFileFdNext t = (-eMFILE, t, used)) :
    sysOpen t flags (.ok node) alloc = ⟨-eMFILE, t, used⟩ := by
  have error : -eMFILE < 0 := by decide
  simp only [sysOpen, next, if_pos error]

theorem taskFileFrom_inside (low : 0 ≤ fd) (high : fd ≤ taskFilesMax) :
    taskFileFrom t fd = (t.files fd, [fd]) := if_neg (by omega)

theorem taskFileFrom_outside (outside : fd < 0 ∨ taskFilesMax < fd) :
    taskFileFrom t fd = (none, []) := if_pos (by omega)

theorem sysClose_open {file : TaskFile} (low : 0 ≤ fd) (high : fd < taskFilesMax)
    (opened : t.files fd = some file) :
    sysClose t fd 0 = ⟨0, (if fd = t.fdLast then { t with fdLast := t.fdLast - 1 } else t).setFile
      fd none, [fd] ++ [fd]⟩ := by
  rw [sysClose, taskFileFrom_inside low (Int.le_of_lt high), opened]
  rfl

theorem Hinted.step {t' : FileTable} {op : FileOp} (hinted : Hinted t)
    (step : t.OpenStep op t') : Hinted t' := by
  obtain ⟨succeeds, rfl⟩ := step
  obtain ⟨low, high⟩ := hinted
  cases op with
  | «open» flags opened alloc =>
      obtain ⟨⟨node, rfl⟩, rfl⟩ := succeeds
      rw [perform]
      rcases taskFileFdNext_spec low high with ⟨fd, used, next, -, free, -⟩ | ⟨used, next, -⟩
      · rw [sysOpen_free next free]
        change -1 ≤ (if fd > t.fdLast then { t with fdLast := fd } else t).fdLast ∧ _
        have bounds := free.2.1
        split
        · exact ⟨by simp only; omega, bounds⟩
        · exact ⟨low, high⟩
      · rw [sysOpen_full next]
        exact ⟨low, high⟩
  | close fd closed =>
      obtain ⟨atLeast, below, opened, rfl⟩ := succeeds
      obtain ⟨file, opened⟩ := Option.isSome_iff_exists.mp opened
      rw [perform, sysClose_open atLeast below opened]
      change -1 ≤ (if fd = t.fdLast then { t with fdLast := t.fdLast - 1 } else t).fdLast ∧ _
      split
      · exact ⟨by simp only; omega, by change t.fdLast - 1 < _; omega⟩
      · exact ⟨low, high⟩
  | read fd ret directory => cases succeeds
  | write fd ret => cases succeeds

theorem Hinted.findsFree_iff {t' : FileTable} {op : FileOp} (hinted : Hinted t)
    (step : t.OpenStep op t') : t.FindsFree op ↔ t.InReach op := by
  obtain ⟨succeeds, -⟩ := step
  cases op with
  | «open» flags opened alloc =>
      obtain ⟨⟨node, rfl⟩, rfl⟩ := succeeds
      rw [FindsFree, InReach]
      rcases taskFileFdNext_spec hinted.1 hinted.2 with
        ⟨fd, used, next, from', free, -⟩ | ⟨used, next, none', -⟩
      · rw [sysOpen_free next free]
        constructor
        · exact fun _ => Or.inl ⟨fd, from', free⟩
        · refine fun _ => ⟨fun _ => free, fun error => ?_⟩
          have notError : fd = -eMFILE := error
          have positive := free.1
          rw [notError] at positive
          exact absurd positive (by decide)
      · rw [sysOpen_full next]
        constructor
        · exact fun right => Or.inr (right.2 rfl)
        · rintro (⟨fd, from', free⟩ | full)
          · exact absurd free (none' fd from')
          · exact ⟨fun ⟨fd, free⟩ => absurd free (full fd), fun _ => full⟩
  | close fd closed => exact Iff.rfl
  | read fd ret directory => exact Iff.rfl
  | write fd ret => exact Iff.rfl

end

theorem Start.hinted {t : FileTable} (start : Start t) : Hinted t := by
  rw [Hinted, start.1]
  decide

/-- In a run of opens and closes every `sys_open` finds a free slot, if there is one, exactly when
    each time a slot from the hint on is free or the table is full. -/
theorem findsFree_iff_inReach {past : List (FileTable × FileOp)} {t : FileTable}
    (run : Run Start OpenStep past t) : Run.Guarded FindsFree past ↔ Run.Guarded InReach past := by
  have same : ∀ t op t', Hinted t → OpenStep t op t' → (FindsFree t op ↔ InReach t op) :=
    fun _ _ _ hinted step => hinted.findsFree_iff step
  exact Run.guarded_iff Hinted (fun _ => Start.hinted) (fun _ _ _ hinted => hinted.step) same run

/-- The table after `n` opens. -/
def filled (n : Nat) : FileTable :=
  ⟨(n - 1 : Nat), fun i => if 0 ≤ i ∧ i < n then some ⟨0, 0, 0⟩ else none⟩

theorem filled_open {n : Nat} (room : n < taskFilesMax) :
    (filled n).OpenStep (.open 0 (.ok 0) true) (filled (n + 1)) := by
  refine ⟨⟨⟨0, rfl⟩, rfl⟩, ?_⟩
  have low : (-1 : Int) ≤ (filled n).fdLast := by
    change (-1 : Int) ≤ (n - 1 : Nat)
    omega
  have high : (filled n).fdLast < taskFilesMax := by
    change ((n - 1 : Nat) : Int) < _
    omega
  have here : (filled n).Free n := ⟨by omega, room, if_neg (by omega)⟩
  have hint : (filled n).fdLast ≤ n := by
    change ((n - 1 : Nat) : Int) ≤ n
    omega
  rw [perform]
  rcases taskFileFdNext_spec low high with ⟨fd, used, next, from', free, least, -⟩ | ⟨used, -, none', -⟩
  · have first : fd = n := by
      have atMost : ¬ (n : Int) < fd := fun below => least n hint below here
      have atLeast : ¬ fd < n := by
        intro below
        have taken := free.2.2
        have inTable := free.1
        change (if 0 ≤ fd ∧ fd < n then some _ else none) = none at taken
        rw [if_pos ⟨inTable, below⟩] at taken
        cases taken
      omega
    rw [sysOpen_free next free, first]
    have last : (if (n : Int) > (filled n).fdLast then { filled n with fdLast := n } else filled n) =
        { filled n with fdLast := n } := by
      split
      · rfl
      · next same =>
          have zero : n = 0 := by
            change ¬ (n : Int) > (n - 1 : Nat) at same
            omega
          subst zero
          rfl
    rw [last, setFile, filled, filled]
    simp only [FileTable.mk.injEq]
    refine ⟨by omega, ?_⟩
    funext i
    by_cases at' : i = n
    · rw [if_pos at', if_pos (by omega)]
    · rw [if_neg at']
      congr 1
      apply propext
      omega
  · exact absurd here (none' n hint)

theorem filled_run {n : Nat} (room : n ≤ taskFilesMax) :
    ∃ past, Run Start OpenStep past (filled n) := by
  induction n with
  | zero => exact ⟨_, .init ⟨rfl, fun fd => if_neg (by omega)⟩⟩
  | succ n ih =>
      obtain ⟨past, run⟩ := ih (by omega)
      exact ⟨_, run.next (filled_open (by omega))⟩

theorem findsFree_first_open : Run.Guarded FindsFree [(filled 0, .open 0 (.ok 0) true)] := by
  have run : Run Start OpenStep [(filled 0, .open 0 (.ok 0) true)] (filled 1) :=
    .next (.init ⟨rfl, fun fd => if_neg (by omega)⟩) (filled_open (by decide))
  refine (findsFree_iff_inReach run).mpr ?_
  intro before mem
  rw [List.mem_singleton.mp mem]
  exact Or.inl ⟨0, by decide, show (filled 0).Free 0 by decide⟩

/-- All descriptors are opened and number five is closed: the next open does not find it. -/
theorem not_findsFree_below_hint : ∃ past t, Run Start OpenStep past t ∧
    ¬ Run.Guarded FindsFree past := by
  obtain ⟨past, full⟩ := @filled_run 32 (by decide)
  have closing : (filled 32).OpenStep (.close 5 0) ((filled 32).setFile 5 none) := by
    have opened : (filled 32).files 5 = some ⟨0, 0, 0⟩ := rfl
    refine ⟨⟨by decide, by decide, rfl, rfl⟩, ?_⟩
    rw [perform, sysClose_open (by decide) (by decide) opened]
    rfl
  have closed := full.next closing
  have hinted : Hinted ((filled 32).setFile 5 none) := ⟨by decide, by decide⟩
  have opening : ((filled 32).setFile 5 none).OpenStep (.open 0 (.ok 0) true) _ :=
    ⟨⟨⟨0, rfl⟩, rfl⟩, rfl⟩
  refine ⟨_, _, closed.next opening, fun guarded => ?_⟩
  have reach := (hinted.findsFree_iff opening).mp (guarded _ List.mem_cons_self)
  rcases reach with ⟨fd, from', free⟩ | all
  · have last : fd = 31 := by
      have below := free.2.1
      change (31 : Int) ≤ fd at from'
      unfold taskFilesMax at below
      omega
    rw [last] at free
    exact absurd free (by decide)
  · exact all 5 (by decide)

/-! ## Indices -/

section

variable {t : FileTable} {fd : Int}

@[simp] theorem setFile_fdLast {file : Option TaskFile} : (t.setFile fd file).fdLast = t.fdLast := rfl

/-- `sys_open` uses slots from the hint on and leaves the hint at one of them. -/
theorem sysOpen_inside (low : -1 ≤ t.fdLast) (high : t.fdLast < taskFilesMax) (flags : Int)
    (opened : Except Int Nat) (alloc : Bool) :
    (∀ i ∈ (sysOpen t flags opened alloc).used, t.fdLast ≤ i ∧ i < taskFilesMax) ∧
      t.fdLast ≤ (sysOpen t flags opened alloc).table.fdLast ∧
      (sysOpen t flags opened alloc).table.fdLast < taskFilesMax := by
  cases opened with
  | error err => exact ⟨nofun, Int.le_refl _, high⟩
  | ok node =>
      rcases taskFileFdNext_spec low high with
        ⟨fd, used, next, from', free, -, inside⟩ | ⟨used, next, -, inside⟩
      · have last : (if fd > t.fdLast then { t with fdLast := fd } else t).fdLast = fd := by
          split
          · rfl
          · omega
        have notError : ¬ fd < 0 := Int.not_lt.mpr free.1
        cases alloc with
        | true =>
            rw [sysOpen_free next free, setFile_fdLast, last]
            refine ⟨?_, from', free.2.1⟩
            intro i mem
            rcases List.mem_append.mp mem with searched | stored
            · exact inside i searched
            · rw [List.mem_singleton.mp stored]
              exact ⟨from', free.2.1⟩
        | false =>
            simp only [sysOpen, next, if_neg notError, Bool.false_eq_true, if_false, last]
            exact ⟨inside, from', free.2.1⟩
      · rw [sysOpen_full next]
        exact ⟨inside, Int.le_refl _, high⟩

end

end FileTable

/-- The descriptor a call is given. -/
def FileOp.descriptor : FileOp → Option Int
  | .open _ _ _ => none
  | .close fd _ => some fd
  | .read fd _ _ => some fd
  | .write fd _ => some fd

/-- The call uses slots of the table only, and takes descriptors of the table only. -/
def FileCall.InTable (op : FileOp) (call : FileCall) : Prop :=
  (∀ i ∈ call.used, 0 ≤ i ∧ i < taskFilesMax) ∧
    ∀ fd ∈ op.descriptor, ¬ (0 ≤ fd ∧ fd < taskFilesMax) → call.result = -eBADF

/-- The table of a task and the calls it has made. -/
structure FileLog where
  table : FileTable
  calls : List (FileOp × FileCall)

namespace FileLog

open FileTable

def Start (l : FileLog) : Prop := l.table.Start ∧ l.calls = []

def Step (l : FileLog) (op : FileOp) (l' : FileLog) : Prop :=
  l' = ⟨(l.table.perform op).table, (op, l.table.perform op) :: l.calls⟩

/-- The hint is in range, and all calls have been in the table. -/
def InTable (l : FileLog) : Prop := (0 ≤ l.table.fdLast ∧ l.table.fdLast ≤ taskFilesMax) ∧
  ∀ call ∈ l.calls, FileCall.InTable call.1 call.2

/-- The call is not given the first descriptor behind the table, and it does not close
    descriptor zero while that is the hint. -/
def Within (l : FileLog) (op : FileOp) : Prop :=
  taskFilesMax ∉ op.descriptor ∧
    ¬ ∃ file, op = .close 0 0 ∧ l.table.fdLast = 0 ∧ l.table.files 0 = some file

/-- What holds as long as all calls are within the table: the hint is a slot. -/
structure Tidy (l : FileLog) : Prop where
  low : 0 ≤ l.table.fdLast
  high : l.table.fdLast < taskFilesMax
  calls : ∀ call ∈ l.calls, FileCall.InTable call.1 call.2

section

variable {l l' : FileLog} {op : FileOp} {t : FileTable} {fd ret : Int}

/-- A file is found at the index that is used. -/
theorem used_of_file {file : TaskFile} {used : List Int}
    (from' : taskFileFrom t fd = (some file, used)) : used = [fd] ∧ t.files fd = some file := by
  rw [taskFileFrom] at from'
  split at from'
  · cases (Prod.mk.inj from').1
  · exact ⟨(Prod.mk.inj from').2.symm, (Prod.mk.inj from').1⟩

/-- A call on a descriptor uses the index that `task_file_from` uses. -/
theorem mem_used_iff (given : op.descriptor = some fd) (i : Int) :
    i ∈ (t.perform op).used ↔ i ∈ (taskFileFrom t fd).2 := by
  cases from' : taskFileFrom t fd with
  | mk file used =>
      cases op with
      | «open» _ _ _ => cases given
      | close _ closed =>
          cases given
          rw [perform, sysClose, from']
          cases file with
          | none => rfl
          | some file =>
              obtain ⟨rfl, -⟩ := used_of_file from'
              simp only
              split
              · rfl
              · simp
      | read _ _ _ =>
          cases given
          rw [perform, sysRead, from']
          cases file <;> rfl
      | write _ _ =>
          cases given
          rw [perform, sysWrite, from']
          cases file <;> rfl

theorem result_of_none (given : op.descriptor = some fd) (none' : (taskFileFrom t fd).1 = none) :
    (t.perform op).result = -eBADF := by
  cases from' : taskFileFrom t fd with
  | mk file used =>
      rw [from'] at none'
      cases none'
      cases op with
      | «open» _ _ _ => cases given
      | close _ _ => cases given; rw [perform, sysClose, from']
      | read _ _ _ => cases given; rw [perform, sysRead, from']
      | write _ _ => cases given; rw [perform, sysWrite, from']

/-- Only closing the hint moves it. -/
theorem fdLast_of_descriptor (given : op.descriptor = some fd) :
    (t.perform op).table.fdLast = t.fdLast ∨
      op = .close fd 0 ∧ fd = t.fdLast ∧ ∃ file, t.files fd = some file := by
  cases from' : taskFileFrom t fd with
  | mk file used =>
      cases op with
      | «open» _ _ _ => cases given
      | close _ closed =>
          cases given
          rw [perform, sysClose, from']
          cases file with
          | none => exact Or.inl rfl
          | some file =>
              simp only
              split
              · exact Or.inl rfl
              · next success =>
                  rw [setFile_fdLast]
                  split
                  · next hint =>
                      rw [Classical.not_not.mp success]
                      exact Or.inr ⟨rfl, hint, file, (used_of_file from').2⟩
                  · exact Or.inl rfl
      | read _ _ _ =>
          cases given
          rw [perform, sysRead, from']
          cases file <;> exact Or.inl rfl
      | write _ _ =>
          cases given
          rw [perform, sysWrite, from']
          cases file <;> exact Or.inl rfl

theorem close_hint {file : TaskFile} (low : 0 ≤ t.fdLast) (high : t.fdLast < taskFilesMax)
    (opened : t.files t.fdLast = some file) :
    (t.perform (.close t.fdLast 0)).table.fdLast = t.fdLast - 1 := by
  rw [perform, sysClose_open low high opened, setFile_fdLast, if_pos rfl]

theorem descriptor_inTable (given : op.descriptor = some fd) (notEnd : fd ≠ taskFilesMax) :
    (t.perform op).InTable op := by
  rw [FileCall.InTable, given]
  by_cases inside : 0 ≤ fd ∧ fd < taskFilesMax
  · have from' : taskFileFrom t fd = (t.files fd, [fd]) :=
      taskFileFrom_inside inside.1 (Int.le_of_lt inside.2)
    constructor
    · intro i mem
      rw [mem_used_iff given, from', List.mem_singleton] at mem
      rw [mem]
      exact inside
    · intro fd' same off
      cases same
      exact absurd inside off
  · have from' : taskFileFrom t fd = (none, []) := taskFileFrom_outside (by omega)
    constructor
    · intro i mem
      rw [mem_used_iff given, from'] at mem
      cases mem
    · exact fun _ _ _ => result_of_none given (by rw [from'])

theorem Start.tidy (start : Start l) : Tidy l := by
  obtain ⟨⟨hint, -⟩, calls⟩ := start
  constructor
  · exact Int.le_of_eq hint.symm
  · rw [hint]
    decide
  · rw [calls]
    exact nofun

theorem Tidy.inTable (tidy : Tidy l) : InTable l :=
  ⟨⟨tidy.low, Int.le_of_lt tidy.high⟩, tidy.calls⟩

theorem Tidy.keep (tidy : Tidy l) (within : l.Within op) (step : l.Step op l') : Tidy l' := by
  obtain rfl : l' = _ := step
  obtain ⟨notEnd, notFirst⟩ := within
  have calls : ∀ {call : FileCall}, call.InTable op →
      ∀ c ∈ (op, call) :: l.calls, FileCall.InTable c.1 c.2 := by
    intro call now c mem
    rcases List.mem_cons.mp mem with rfl | mem
    · exact now
    · exact tidy.calls c mem
  cases given : op.descriptor with
  | none =>
      cases op with
      | «open» flags opened alloc =>
          have below : -1 ≤ l.table.fdLast := Int.le_trans (by decide) tidy.low
          obtain ⟨used, low, high⟩ := sysOpen_inside below tidy.high flags opened alloc
          refine ⟨Int.le_trans tidy.low low, high, calls ⟨?_, nofun⟩⟩
          exact fun i mem => ⟨Int.le_trans tidy.low (used i mem).1, (used i mem).2⟩
      | close _ _ => cases given
      | read _ _ _ => cases given
      | write _ _ => cases given
  | some fd =>
      have notEnd' : fd ≠ taskFilesMax := by
        rintro rfl
        exact notEnd given
      have now := @descriptor_inTable op l.table fd given notEnd'
      rcases @fdLast_of_descriptor op l.table fd given with same | ⟨rfl, hint, file, opened⟩
      · exact ⟨by rw [same]; exact tidy.low, by rw [same]; exact tidy.high, calls now⟩
      · have positive : l.table.fdLast ≠ 0 := by
          intro zero
          rw [hint, zero] at opened
          exact notFirst ⟨file, by rw [hint, zero], zero, opened⟩
        have low := tidy.low
        have high := tidy.high
        rw [hint] at opened
        refine ⟨?_, ?_, calls now⟩
        · rw [hint, close_hint low high opened]
          omega
        · rw [hint, close_hint low high opened]
          omega

theorem Tidy.breaks (tidy : Tidy l) (within : ¬ l.Within op) (step : l.Step op l') :
    ¬ InTable l' := by
  obtain rfl : l' = _ := step
  rintro ⟨⟨low, -⟩, calls⟩
  apply within
  constructor
  · intro given
    have used : taskFilesMax ∈ (l.table.perform op).used := by
      rw [mem_used_iff given, taskFileFrom_inside (by decide) (Int.le_refl _)]
      exact List.mem_singleton_self _
    exact absurd ((calls _ List.mem_cons_self).1 _ used).2 (Int.lt_irrefl _)
  · rintro ⟨file, rfl, hint, opened⟩
    have moved := @close_hint l.table file tidy.low tidy.high (by rw [hint]; exact opened)
    rw [hint] at moved
    rw [moved] at low
    exact absurd low (by decide)

end

/-- In a run of calls the hint and all indices stay in the table, and no other descriptor is taken,
    exactly when every call is within the table. -/
theorem inTable_iff_within {past : List (FileLog × FileOp)} {l : FileLog}
    (run : Run Start Step past l) : Run.Always InTable past l ↔ Run.Guarded Within past :=
  Run.always_iff Tidy (fun _ => Start.tidy) (fun _ _ _ tidy => tidy.keep) (fun _ => Tidy.inTable)
    (fun _ _ _ tidy => tidy.breaks) run

/-- The log of a zeroed task. -/
def zeroed : FileLog := ⟨⟨0, fun _ => none⟩, []⟩

theorem inTable_bad_descriptor : ∃ l, Step zeroed (FileOp.read 33 0 false) l ∧
    Run.Always InTable [(zeroed, FileOp.read 33 0 false)] l ∧
    l.calls.map (fun call => call.2.result) = [-eBADF] := by
  obtain ⟨l, step⟩ : ∃ l, Step zeroed (FileOp.read 33 0 false) l := ⟨_, rfl⟩
  have run : Run Start Step [(zeroed, FileOp.read 33 0 false)] l :=
    .next (.init ⟨⟨rfl, fun _ => rfl⟩, rfl⟩) step
  refine ⟨l, step, (inTable_iff_within run).mpr ?_, ?_⟩
  · intro before mem
    rw [List.mem_singleton.mp mem]
    exact ⟨by decide, fun ⟨_, close, _⟩ => by cases close⟩
  · rw [step]
    rfl

/-- A read of descriptor 32, and an open and a close of descriptor zero, both leave the table. -/
theorem not_inTable : (∃ past l, Run Start Step past l ∧ ¬ InTable l ∧
      past.map Prod.snd = [.read 32 0 false]) ∧
    ∃ past l, Run Start Step past l ∧ ¬ InTable l ∧
      past.map Prod.snd = [.close 0 0, .open 0 (.ok 0) true] := by
  have start : Run Start Step [] zeroed := .init ⟨⟨rfl, fun _ => rfl⟩, rfl⟩
  constructor
  · refine ⟨_, _, start.next (i := FileOp.read 32 0 false) rfl, ?_, rfl⟩
    rintro ⟨-, calls⟩
    exact absurd ((calls _ List.mem_cons_self).1 32 (by decide)).2 (by decide)
  · refine ⟨_, _, (start.next (i := FileOp.open 0 (.ok 0) true) rfl).next
      (i := FileOp.close 0 0) rfl, ?_, rfl⟩
    rintro ⟨⟨low, -⟩, -⟩
    exact absurd low (by decide)

end FileLog

end Sdx.Sched
