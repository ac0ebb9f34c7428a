import Sdx.Sched.Fork

/-! # Closing all files of a task (`sched/task.c`, `sched/file.c`)

Two loops close the files of a task. `task_file_clear` skips the slots that are not in use.
`task_free` does not, and reads the node of a file through `NULL` at the first of them, so it only
gets through a full table.
-/

namespace Sdx.Sched

inductive FileEvent where
  /-- `vfs_close` of a node. -/
  | close (node : Nat)
  /-- `heap_free` of a file object. -/
  | free (object : Nat)
  deriving DecidableEq

/-- `vfs_close` and `heap_free` on the states `σ` of the VFS and the heap. -/
structure FileCalls (σ : Type) where
  close : Nat → σ → Int × σ
  free : Nat → σ → σ

/-- The state with the calls that were made, oldest first. -/
structure FileEffects (σ : Type) where
  state : σ
  events : List FileEvent

/-- The file table of a task, and the addresses of the file objects in it. -/
structure OpenFiles where
  table : FileTable
  object : Int → Nat

section

variable {σ : Type} (calls : FileCalls σ)

def vfsCloseNode (node : Nat) (s : FileEffects σ) : Int × FileEffects σ :=
  let (err, state) := calls.close node s.state
  (err, ⟨state, s.events ++ [.close node]⟩)

def heapFreeFile (object : Nat) (s : FileEffects σ) : FileEffects σ :=
  ⟨calls.free object s.state, s.events ++ [.free object]⟩

/-- `task_file_free`. -/
def taskFileFree (object : Nat) (file : TaskFile) (ignoreErr : Bool) (s : FileEffects σ) :
    Int × FileEffects σ :=
  let (err, s) := vfsCloseNode calls file.node s
  if err ≠ 0 ∧ ¬ ignoreErr then (err, s) else (err, heapFreeFile calls object s)

/-- The loop of `task_file_clear`, with `left` slots from `i` on. -/
def taskFileClearLoop : Nat → Int → OpenFiles → FileEffects σ → OpenFiles × FileEffects σ
  | 0, _, files, s => (files, s)
  | left + 1, i, files, s =>
      match files.table.files i with
      | none => taskFileClearLoop left (i + 1) files s
      | some file =>
          let (_, s) := taskFileFree calls (files.object i) file true s
          taskFileClearLoop left (i + 1) { files with table := files.table.setFile i none } s

/-- `task_file_clear`. -/
def taskFileClear (files : OpenFiles) (s : FileEffects σ) : OpenFiles × FileEffects σ :=
  taskFileClearLoop calls taskFilesMax.toNat 0 files s

/-- The loop of `task_free` over the files, with `left` slots from `fd` on. It faults where a slot is
    `NULL`. -/
def taskFreeLoop (files : OpenFiles) : Nat → Int → FileEffects σ → Option (FileEffects σ)
  | 0, _, s => some s
  | left + 1, fd, s =>
      (files.table.files fd).bind fun file =>
        let (_, s) := vfsCloseNode calls file.node s
        taskFreeLoop files left (fd + 1) (heapFreeFile calls (files.object fd) s)

end

/-- The object and the file in each slot in use, of `left` slots from `fd` on. -/
def OpenFiles.inUse (files : OpenFiles) : Nat → Int → List (Nat × TaskFile)
  | 0, _ => []
  | left + 1, fd =>
      match files.table.files fd with
      | none => files.inUse left (fd + 1)
      | some file => (files.object fd, file) :: files.inUse left (fd + 1)

/-- The calls that close and free one file. -/
def closing (slot : Nat × TaskFile) : List FileEvent := [.close slot.2.node, .free slot.1]

section

variable {σ : Type} {calls : FileCalls σ} {files : OpenFiles} {left : Nat} {fd : Int}
  {s : FileEffects σ}

/-- Closing and freeing one file. -/
def closeFile (calls : FileCalls σ) (s : FileEffects σ) (slot : Nat × TaskFile) : FileEffects σ :=
  heapFreeFile calls slot.1 (vfsCloseNode calls slot.2.node s).2

theorem closeFile_events {slot : Nat × TaskFile} :
    (closeFile calls s slot).events = s.events ++ closing slot := by
  simp [closeFile, heapFreeFile, vfsCloseNode, closing]

theorem closeFiles_events {slots : List (Nat × TaskFile)} :
    (slots.foldl (closeFile calls) s).events = s.events ++ slots.flatMap closing := by
  induction slots generalizing s with
  | nil => simp
  | cons slot slots ih =>
      rw [List.foldl_cons, ih, closeFile_events, List.flatMap_cons, List.append_assoc]

/-- Ignoring errors, the file is freed whatever closing it comes to. -/
theorem taskFileFree_ignore {object : Nat} {file : TaskFile} :
    (taskFileFree calls object file true s).2 = closeFile calls s (object, file) := by
  simp [taskFileFree, closeFile]

theorem inUse_setFile {i : Int} (before : i < fd) :
    OpenFiles.inUse { files with table := files.table.setFile i none } left fd =
      files.inUse left fd := by
  induction left generalizing fd with
  | zero => rfl
  | succ left ih =>
      have same : (files.table.setFile i none).files fd = files.table.files fd :=
        if_neg (Int.ne_of_gt before)
      simp only [OpenFiles.inUse, same, ih (show i < fd + 1 by omega)]

/-- `task_file_clear` closes the slots in use and no others. -/
theorem taskFileClearLoop_eq :
    (taskFileClearLoop calls left fd files s).2 = (files.inUse left fd).foldl (closeFile calls) s := by
  induction left generalizing fd files s with
  | zero => rfl
  | succ left ih =>
      rw [taskFileClearLoop, OpenFiles.inUse]
      cases slot : files.table.files fd with
      | none => exact ih
      | some file =>
          simp only [List.foldl_cons]
          rw [ih, inUse_setFile (by omega), taskFileFree_ignore]

/-- The loop of `task_free` does what the other one does if all slots are in use, and faults
    otherwise. -/
theorem taskFreeLoop_eq_some_iff {s' : FileEffects σ} :
    taskFreeLoop calls files left fd s = some s' ↔
      (∀ k < left, (files.table.files (fd + k)).isSome = true) ∧
        s' = (files.inUse left fd).foldl (closeFile calls) s := by
  induction left generalizing fd s with
  | zero =>
      rw [taskFreeLoop, OpenFiles.inUse, Option.some.injEq, eq_comm]
      exact ⟨fun same => ⟨fun k below => absurd below (Nat.not_lt_zero k), same⟩, fun h => h.2⟩
  | succ left ih =>
      have shift : (∀ k < left + 1, (files.table.files (fd + k)).isSome = true) ↔
          (files.table.files fd).isSome = true ∧
            ∀ k < left, (files.table.files (fd + 1 + k)).isSome = true := by
        constructor
        · intro all
          refine ⟨by simpa using all 0 (Nat.succ_pos left), fun k below => ?_⟩
          have here := all (k + 1) (Nat.succ_lt_succ below)
          rwa [show fd + (k + 1 : Nat) = fd + 1 + k by omega] at here
        · rintro ⟨first, rest⟩ k below
          cases k with
          | zero => simpa using first
          | succ k =>
              rw [show fd + (k + 1 : Nat) = fd + 1 + k by omega]
              exact rest k (Nat.lt_of_succ_lt_succ below)
      rw [shift, taskFreeLoop, OpenFiles.inUse]
      cases slot : files.table.files fd with
      | none => simp
      | some file =>
          simp only [Option.bind_some, Option.isSome_some, true_and, List.foldl_cons]
          exact ih

theorem mapM_isSome_iff {α β : Type} {f : α → Option β} {l : List α} :
    (l.mapM f).isSome = true ↔ ∀ a ∈ l, (f a).isSome = true := by
  induction l with
  | nil => simp
  | cons a l ih =>
      rw [List.mapM_cons, List.forall_mem_cons, ← ih]
      cases f a with
      | none => simp
      | some b => cases l.mapM f <;> simp

/-- `task_free` as a whole comes to its end exactly if all slots are in use. -/
theorem taskFree_isSome_iff {m : Machine} {t : TaskId} : (m.taskFree t).isSome = true ↔
    ∀ fd, 0 ≤ fd → fd < taskFilesMax → ((m.tasks t).files.files fd).isSome = true := by
  have returns : (m.taskFree t).isSome = (Machine.taskFreeFiles (m.tasks t).files).isSome := by
    rw [Machine.taskFree]
    cases Machine.taskFreeFiles (m.tasks t).files <;> rfl
  rw [returns, Machine.taskFreeFiles, mapM_isSome_iff]
  have members : ∀ fd : Int,
      fd ∈ (List.range taskFilesMax.toNat).flatMap (fun k : Nat => [(k : Int)]) ↔
        0 ≤ fd ∧ fd < taskFilesMax := by
    intro fd
    simp only [List.mem_flatMap, List.mem_range, List.mem_singleton]
    constructor
    · rintro ⟨k, below, rfl⟩
      omega
    · rintro ⟨low, high⟩
      exact ⟨fd.toNat, by omega, (Int.toNat_of_nonneg low).symm⟩
  constructor
  · intro all fd low high
    have used := all fd ((members fd).mpr ⟨low, high⟩)
    rwa [Option.isSome_map] at used
  · intro all fd mem
    obtain ⟨low, high⟩ := (members fd).mp mem
    rw [Option.isSome_map]
    exact all fd low high

end

/-- The loop of `task_free` closes the node and frees the object of each slot in use, once and in
    order, as `task_file_clear` does, exactly if all slots are in use. Otherwise it goes through
    `NULL`. -/
theorem taskFree_closes_iff {σ : Type} (calls : FileCalls σ) (files : OpenFiles)
    (s : FileEffects σ) :
    (∃ s', taskFreeLoop calls files taskFilesMax.toNat 0 s = some s' ∧
      s'.events = s.events ++ (files.inUse taskFilesMax.toNat 0).flatMap closing ∧
      s' = (taskFileClear calls files s).2) ↔
    ∀ fd, 0 ≤ fd → fd < taskFilesMax → (files.table.files fd).isSome = true := by
  rw [taskFileClear, taskFileClearLoop_eq]
  constructor
  · rintro ⟨s', run, -⟩ fd low high
    have used := (taskFreeLoop_eq_some_iff.mp run).1 fd.toNat (by omega)
    rwa [Int.zero_add, Int.toNat_of_nonneg low] at used
  · intro all
    refine ⟨_, taskFreeLoop_eq_some_iff.mpr ⟨?_, rfl⟩, closeFiles_events, rfl⟩
    intro k below
    exact all _ (by omega) (by omega)

/-- A task that never opened a file. -/
def noOpenFiles : OpenFiles := ⟨⟨0, fun _ => none⟩, fun _ => 0⟩

/-- With nothing to close, `task_file_clear` does nothing and the loop of `task_free` faults. -/
theorem taskFree_faults_unused :
    (∀ (σ : Type) (calls : FileCalls σ) (s : FileEffects σ),
      (taskFileClear calls noOpenFiles s).2 = s) ∧
    ∀ (σ : Type) (calls : FileCalls σ) (s : FileEffects σ),
      taskFreeLoop calls noOpenFiles taskFilesMax.toNat 0 s = none :=
  ⟨fun _ _ _ => rfl, fun _ _ _ => rfl⟩

end Sdx.Sched
