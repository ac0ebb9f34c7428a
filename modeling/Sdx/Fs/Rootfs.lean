import Sdx.Core.DiskPart
import Sdx.Fs.Vfs

/-! # Looking for the root file system (`fs/fs.c`, `main.c`)

File systems are objects on the heap. What a driver makes of a partition is up to the partition:
the error it returns, and the operations it sets up.
-/

namespace Sdx.Fs

open Sdx.Lib Sdx.Core

/-! The numbers of `fs_type_t`. -/

def fsTypeDetect : Nat := 0
def fsTypeFat32 : Nat := 1
def fsTypeDevfs : Nat := 2

/-- `FS_TYPE_MIN`. -/
def fsTypeMin : Nat := fsTypeFat32

/-- `FS_TYPE_MAX`. -/
def fsTypeMax : Nat := fsTypeDevfs

/-- `FS_TYPE_DETECT_FIRST`. -/
def fsTypeDetectFirst : Nat := fsTypeFat32

/-- `FS_TYPE_DETECT_LAST`. -/
def fsTypeDetectLast : Nat := fsTypeFat32

/-- `FS_INIT_NAME`. -/
def fsInitName : Name := ['i', 'n', 'i', 't']

/-- `fs_t`, without what a driver keeps for itself. -/
structure FsObj where
  type : Nat
  part : Option PartPtr
  ops : FsOps

/-- An `fs_t` of zeros. -/
def FsObj.zero : FsObj := ⟨0, none, none, none, none⟩

/-- The file systems that the heap has handed out and not got back. -/
abbrev FsHeap := FsId → Option FsObj

/-- What `fs_new` of a driver returns for a partition, and the operations it leaves. -/
abbrev FsDriver := Option PartPtr → Int × FsOps

/-- An entry of `fs_type_data`. -/
structure FsTypeData where
  new : FsDriver
  supported : Bool

/-- The drivers, `CONFIG_FS_FAT32`, and the heap, which hands out an address that is not in use or
    `NULL`. -/
structure FsEnv where
  configFsFat32 : Bool
  fat32New : FsDriver
  devfsNew : FsDriver
  alloc : FsHeap → Option FsId
  alloc_fresh : ∀ mem fs, alloc mem = some fs → mem fs = none

/-- `__fs_data`. -/
def fsData (env : FsEnv) (type : Nat) : FsTypeData :=
  if type = fsTypeFat32 then ⟨env.fat32New, env.configFsFat32⟩ else ⟨env.devfsNew, true⟩

/-- `__fs_new`. -/
def fsNewOf (env : FsEnv) (fs : FsObj) (type : Nat) : Int × FsObj :=
  if ¬(fsTypeMax ≥ type ∧ type ≥ fsTypeMin) then (-eINVAL, fs)
  else if !(fsData env type).supported then (-eNODEV, fs)
  else
    let (err, ops) := (fsData env type).new fs.part
    let fs := { fs with ops := ops }
    if err = 0 then (err, { fs with type := type }) else (err, fs)

/-- The loop of `fs_new` that tries the types from `type` on. -/
def fsDetect (env : FsEnv) : Nat → FsObj → Nat → Int × FsObj
  | 0, fs, _ => (-eFAULT, fs)
  | left + 1, fs, type =>
      if type ≤ fsTypeDetectLast then
        if (fsData env type).supported then
          let (err, fs) := fsNewOf env fs type
          if err = 0 then (0, fs) else fsDetect env left fs (type + 1)
        else fsDetect env left fs (type + 1)
      else (-eFAULT, fs)

/-- `fs_new`: the error or 0, and what it leaves in `*fs`. Without memory it writes to `NULL`, which
    is no result here. -/
def fsNew (env : FsEnv) (mem : FsHeap) (type : Nat) (part : Option PartPtr) :
    Option (Int × FsId × FsHeap) := do
  let fs ← env.alloc mem
  let obj := { FsObj.zero with part := part }
  let (err, obj) :=
    if type ≠ fsTypeDetect then fsNewOf env obj type
    else fsDetect env (fsTypeDetectLast + 1 - fsTypeDetectFirst) obj fsTypeDetectFirst
  if err = 0 then some (0, fs, Function.update mem fs (some obj))
  else some (err, fs, Function.update (Function.update mem fs (some obj)) fs none)

/-- `fs_namei` on an `fs_t`. -/
def FsOps.lookup (ops : FsOps) (dir : Option FsInode) (name : Option Name) : Except Int FsInode :=
  match ops.namei with
  | some f => f dir name
  | none => .error (-eNOSYS)

/-- `fs_is_rootfs` on an `fs_t`. -/
def fsIsRootfs (ops : FsOps) : Int :=
  match ops.lookup none none with
  | .error err => err
  | .ok root =>
      match ops.lookup (some root) (some fsInitName) with
      | .error err => err
      | .ok inode =>
          if inode.type ≠ .file then -eINVAL
          else if inode.size = 0 then -eINVAL
          else 0

/-- `fs_free`. -/
def fsFree (mem : FsHeap) (fs : FsId) : FsHeap := Function.update mem fs none

/-- The body of the loop of `entry`: whether it leaves the loop, and what is in `rootfs` then. -/
def rootfsTry (env : FsEnv) (mem : FsHeap) (part : PartPtr) : Option (Bool × Option FsId × FsHeap) := do
  let (err, rootfs, mem) ← fsNew env mem fsTypeDetect (some part)
  if err ≠ 0 then some (false, some rootfs, mem)
  else
    let obj ← mem rootfs
    if fsIsRootfs obj.ops = 0 then some (true, some rootfs, mem)
    else some (false, none, fsFree mem rootfs)

/-- The loop of `entry` over the partitions: what it leaves in `rootfs`. -/
def rootfsLoop (env : FsEnv) (m : Disks) :
    Nat → Option PartPtr → Option FsId → FsHeap → Option (Option FsId × FsHeap)
  | 0, _, _, _ => none
  | fuel + 1, part, rootfs, mem => do
      match ← diskNext m part fuel with
      | none => some (rootfs, mem)
      | some part =>
          match ← rootfsTry env mem part with
          | (true, rootfs, mem) => some (rootfs, mem)
          | (false, rootfs, mem) => rootfsLoop env m fuel (some part) rootfs mem

/-- The loop over the partitions in a list. -/
def rootfsOver (env : FsEnv) :
    List PartPtr → Option FsId → FsHeap → Option (Option FsId × FsHeap)
  | [], rootfs, mem => some (rootfs, mem)
  | part :: parts, _, mem => do
      match ← rootfsTry env mem part with
      | (true, rootfs, mem) => some (rootfs, mem)
      | (false, rootfs, mem) => rootfsOver env parts rootfs mem

namespace FsEnv

/-- A file system can be created from this partition. -/
def Creates (env : FsEnv) (part : PartPtr) : Prop :=
  env.configFsFat32 = true ∧ (env.fat32New (some part)).1 = 0

/-- The file system of this partition. -/
def made (env : FsEnv) (part : PartPtr) : FsObj := ⟨fsTypeFat32, some part, (env.fat32New (some part)).2⟩

/-- The file system of this partition can be created and used as the root. -/
def IsRoot (env : FsEnv) (part : PartPtr) : Prop :=
  env.Creates part ∧ fsIsRootfs (env.made part).ops = 0

instance (env : FsEnv) (part : PartPtr) : Decidable (env.Creates part) :=
  inferInstanceAs (Decidable (_ ∧ _))

instance (env : FsEnv) (part : PartPtr) : Decidable (env.IsRoot part) :=
  inferInstanceAs (Decidable (_ ∧ _))

end FsEnv

/-- What the loop is to leave: a file system if a partition has a root file system, and then the
    one of the first such partition, not freed. -/
structure PicksRootfs (env : FsEnv) (parts : List PartPtr) (rootfs : Option FsId) (mem : FsHeap) :
    Prop where
  found : rootfs ≠ none ↔ ∃ part ∈ parts, env.IsRoot part
  first : ∀ fs, rootfs = some fs → ∃ before part after, parts = before ++ part :: after ∧
    (∀ p ∈ before, ¬env.IsRoot p) ∧ env.IsRoot part ∧ mem fs = some (env.made part)

section

variable {env : FsEnv} {m : Disks} {parts : List PartPtr} {pre : Option PartPtr}
  {rootfs rootfs' : Option FsId} {mem mem' : FsHeap} {part : PartPtr} {fs : FsId}

theorem fsNew_creates (alloc : env.alloc mem = some fs) (creates : env.Creates part) :
    fsNew env mem fsTypeDetect (some part) =
      some (0, fs, Function.update mem fs (some (env.made part))) := by
  obtain ⟨config, new⟩ := creates
  simp [fsNew, alloc, fsTypeDetect, fsDetect, fsTypeDetectLast, fsTypeDetectFirst, fsTypeFat32, fsData,
    config, fsNewOf, fsTypeMax, fsTypeMin, fsTypeDevfs, FsObj.zero, new, FsEnv.made]

theorem fsNew_fails (alloc : env.alloc mem = some fs) (fails : ¬env.Creates part) :
    ∃ err, err ≠ 0 ∧ fsNew env mem fsTypeDetect (some part) = some (err, fs, mem) := by
  have free : Function.update mem fs none = mem :=
    Function.update_eq_self_iff.mpr (env.alloc_fresh mem fs alloc).symm
  refine ⟨-eFAULT, by decide, ?_⟩
  by_cases config : env.configFsFat32 = true
  · have new : (env.fat32New (some part)).1 ≠ 0 := fun new => fails ⟨config, new⟩
    simp [fsNew, alloc, fsTypeDetect, fsDetect, fsTypeDetectLast, fsTypeDetectFirst, fsTypeFat32, fsData,
      config, fsNewOf, fsTypeMax, fsTypeMin, fsTypeDevfs, FsObj.zero, new, eFAULT, free]
  · simp [fsNew, alloc, fsTypeDetect, fsDetect, fsTypeDetectLast, fsTypeDetectFirst, fsTypeFat32, fsData,
      config, eFAULT, free]

theorem rootfsTry_isRoot (alloc : env.alloc mem = some fs) (root : env.IsRoot part) :
    rootfsTry env mem part = some (true, some fs, Function.update mem fs (some (env.made part))) := by
  simp only [rootfsTry, fsNew_creates alloc root.1, Option.bind_eq_bind, Option.bind_some, ne_eq,
    not_true_eq_false, if_false, Function.update_self, root.2, if_true]

theorem rootfsTry_created (alloc : env.alloc mem = some fs) (creates : env.Creates part)
    (other : ¬env.IsRoot part) : rootfsTry env mem part = some (false, none, mem) := by
  have refused : ¬fsIsRootfs (env.made part).ops = 0 := fun passes => other ⟨creates, passes⟩
  have free : Function.update mem fs none = mem :=
    Function.update_eq_self_iff.mpr (env.alloc_fresh mem fs alloc).symm
  simp only [rootfsTry, fsNew_creates alloc creates, Option.bind_eq_bind, Option.bind_some, ne_eq,
    not_true_eq_false, if_false, Function.update_self, refused, fsFree, Function.update_idem, free]

/-- A file system that cannot be created stays in `rootfs` all the same. -/
theorem rootfsTry_fails (alloc : env.alloc mem = some fs) (fails : ¬env.Creates part) :
    rootfsTry env mem part = some (false, some fs, mem) := by
  obtain ⟨err, off, new⟩ := fsNew_fails alloc fails
  simp only [rootfsTry, new, Option.bind_eq_bind, Option.bind_some, off, ne_eq, not_false_eq_true,
    if_true]

theorem rootfsTry_noMemory (alloc : env.alloc mem = none) : rootfsTry env mem part = none := by
  simp only [rootfsTry, fsNew, alloc, Option.bind_eq_bind, Option.bind_none]

/-! ## The loop over a list -/

/-- The first partition with a root file system is picked, whatever was in `rootfs`. -/
theorem rootfsOver_found (result : rootfsOver env parts rootfs mem = some (rootfs', mem'))
    (has : ∃ part ∈ parts, env.IsRoot part) :
    ∃ fs before part after, rootfs' = some fs ∧ parts = before ++ part :: after ∧
      (∀ p ∈ before, ¬env.IsRoot p) ∧ env.IsRoot part ∧ mem' fs = some (env.made part) := by
  induction parts generalizing rootfs mem with
  | nil => simp at has
  | cons part parts ih =>
      rw [rootfsOver] at result
      cases alloc : env.alloc mem with
      | none => simp [rootfsTry_noMemory alloc] at result
      | some fs =>
          by_cases root : env.IsRoot part
          · simp only [rootfsTry_isRoot alloc root, Option.bind_eq_bind, Option.bind_some,
              Option.some.injEq, Prod.mk.injEq] at result
            obtain ⟨rfl, rfl⟩ := result
            exact ⟨fs, [], part, parts, rfl, rfl, by simp, root, Function.update_self ..⟩
          · have has : ∃ part ∈ parts, env.IsRoot part := by
              obtain ⟨p, mem, is⟩ := has
              obtain rfl | mem := List.mem_cons.mp mem
              · exact absurd is root
              · exact ⟨p, mem, is⟩
            have rest : ∃ rootfs, rootfsOver env parts rootfs mem = some (rootfs', mem') := by
              by_cases creates : env.Creates part
              · rw [rootfsTry_created alloc creates root] at result
                exact ⟨_, result⟩
              · rw [rootfsTry_fails alloc creates] at result
                exact ⟨_, result⟩
            obtain ⟨_, rest⟩ := rest
            obtain ⟨fs, before, q, after, eq, split, none', is, live⟩ := ih rest has
            refine ⟨fs, part :: before, q, after, eq, by rw [split]; rfl, fun p here => ?_, is, live⟩
            obtain rfl | here := List.mem_cons.mp here
            · exact root
            · exact none' p here

/-- Without one, `rootfs` tells whether the last partition's file system could be created. -/
theorem rootfsOver_none (result : rootfsOver env parts rootfs mem = some (rootfs', mem'))
    (none' : ∀ part ∈ parts, ¬env.IsRoot part) :
    rootfs' = none ↔ parts.getLast?.elim (rootfs = none) env.Creates := by
  induction parts generalizing rootfs mem with
  | nil =>
      cases result
      rfl
  | cons part parts ih =>
      rw [rootfsOver] at result
      have rest {rootfs : Option FsId} (result : rootfsOver env parts rootfs mem = some (rootfs', mem')) :=
        ih result fun p here => none' p (List.mem_cons_of_mem _ here)
      have other := none' part List.mem_cons_self
      rw [List.getLast?_cons]
      cases alloc : env.alloc mem with
      | none => simp [rootfsTry_noMemory alloc] at result
      | some fs =>
          by_cases creates : env.Creates part
          · rw [rootfsTry_created alloc creates other] at result
            rw [rest result]
            cases parts.getLast? <;> simp [creates]
          · rw [rootfsTry_fails alloc creates] at result
            rw [rest result]
            cases parts.getLast? <;> simp [creates]

/-- With memory for one file system the loop comes to an end. -/
theorem rootfsOver_ends (alloc : env.alloc mem = some fs) :
    ∃ r, rootfsOver env parts rootfs mem = some r := by
  induction parts generalizing rootfs with
  | nil => exact ⟨_, rfl⟩
  | cons part parts ih =>
      rw [rootfsOver]
      by_cases root : env.IsRoot part
      · rw [rootfsTry_isRoot alloc root]
        exact ⟨_, rfl⟩
      by_cases creates : env.Creates part
      · rw [rootfsTry_created alloc creates root]
        exact ih
      · rw [rootfsTry_fails alloc creates]
        exact ih

/-! ## The loop over the partitions of the disks -/

/-- The loop of `entry` is the one over the partitions that `disk_next` finds. -/
theorem rootfsLoop_returns (visits : Visits (diskNext m) pre parts) {r : Option FsId × FsHeap} :
    Returns (fun fuel => rootfsLoop env m fuel pre rootfs mem) r ↔
      rootfsOver env parts rootfs mem = some r := by
  induction visits generalizing rootfs mem with
  | done ends =>
      refine (Returns.step_iff fun fuel => rfl).trans (ends.bind_iff.trans ?_)
      exact Returns.const_iff
  | @more pre part parts next _ ih =>
      refine (Returns.step_iff fun fuel => rfl).trans (next.bind_iff.trans ?_)
      rw [rootfsOver]
      cases tried : rootfsTry env mem part with
      | none =>
          simp only [tried, Option.bind_eq_bind, Option.bind_none]
          exact Returns.none_iff
      | some outcome =>
          obtain ⟨stop, rootfs, mem⟩ := outcome
          simp only [tried, Option.bind_eq_bind, Option.bind_some]
          cases stop with
          | true => exact Returns.const_iff
          | false => exact ih

/-- When the loop of `entry` is done, `rootfs` is the file system of the first partition that has
    a root file system, and `NULL` if there is none: so it is when there is such a partition, or when
    the last partition's file system could be created, or without any partition. -/
theorem rootfsLoop_picks (visits : Visits (diskNext m) none parts) :
    (∀ rootfs mem', Returns (fun fuel => rootfsLoop env m fuel none none mem) (rootfs, mem') →
      (PicksRootfs env parts rootfs mem' ↔ (∃ part ∈ parts, env.IsRoot part) ∨
        ∀ last, parts.getLast? = some last → env.Creates last)) ∧
    (env.alloc mem ≠ none →
      ∃ r, Returns (fun fuel => rootfsLoop env m fuel none none mem) r) := by
  constructor
  · intro rootfs mem' returns
    have result := (rootfsLoop_returns visits).mp returns
    by_cases has : ∃ part ∈ parts, env.IsRoot part
    · refine iff_of_true ?_ (.inl has)
      obtain ⟨fs, before, part, after, rfl, rest⟩ := rootfsOver_found result has
      refine ⟨iff_of_true (by simp) has, fun fs' eq => ?_⟩
      cases eq
      exact ⟨before, part, after, rest⟩
    · have none' : ∀ part ∈ parts, ¬env.IsRoot part := fun part here is => has ⟨part, here, is⟩
      have last := rootfsOver_none result none'
      have cond : (∀ last, parts.getLast? = some last → env.Creates last) ↔ rootfs = none := by
        rw [last]
        cases parts.getLast? <;> simp
      rw [or_iff_right has, cond]
      constructor
      · intro picks
        by_contra some'
        exact has (picks.found.mp some')
      · rintro rfl
        exact ⟨iff_of_false (fun ne => ne rfl) has, fun fs eq => by cases eq⟩
  · intro memory
    obtain ⟨fs, alloc⟩ := Option.ne_none_iff_exists'.mp memory
    obtain ⟨r, result⟩ := @rootfsOver_ends env parts none mem fs alloc
    exact ⟨r, (rootfsLoop_returns visits).mpr result⟩

end

/-! ### A drive with one partition, and no file system on it -/

def emptyDrive : FsEnv where
  configFsFat32 := true
  fat32New _ := (-eFAULT, ⟨none, none, none⟩)
  devfsNew _ := (0, ⟨none, none, none⟩)
  alloc mem := if (mem 4096).isNone then some 4096 else none
  alloc_fresh := by
    intro mem fs alloc
    split at alloc
    · next free =>
        cases alloc
        exact Option.isNone_iff_eq_none.mp free
    · cases alloc

def onePartition : Disks where
  disks _ := ⟨true, some 8, 1, none⟩
  parts _ := ⟨1, 64, false, true, 1, none⟩
  first := some 1
  live _ := true
  allocs := []
  registered := []

theorem visits_onePartition : Visits (diskNext onePartition) none [8] :=
  .more (.step (fun _ => rfl) (.step (fun _ => rfl) (.step (fun _ => rfl) (.const (some 8)))))
    (.done (.step (fun _ => rfl) (.step (fun _ => rfl) (.const none))))

theorem rootfsLoop_picks_onePartition :
    (∀ rootfs mem', Returns (fun fuel => rootfsLoop emptyDrive onePartition fuel none none fun _ => none)
        (rootfs, mem') →
      (PicksRootfs emptyDrive [8] rootfs mem' ↔ (∃ part ∈ [8], emptyDrive.IsRoot part) ∨
        ∀ last, [8].getLast? = some last → emptyDrive.Creates last)) ∧
    (emptyDrive.alloc (fun _ => none) ≠ none →
      ∃ r, Returns (fun fuel => rootfsLoop emptyDrive onePartition fuel none none fun _ => none) r) :=
  rootfsLoop_picks visits_onePartition

/-- The file system that could not be created is freed and still in `rootfs` behind the loop. -/
theorem rootfsLoop_not_picks : Visits (diskNext onePartition) none [8] ∧ ∃ rootfs mem',
    Returns (fun fuel => rootfsLoop emptyDrive onePartition fuel none none fun _ => none)
      (some rootfs, mem') ∧
    mem' rootfs = none ∧ ¬PicksRootfs emptyDrive [8] (some rootfs) mem' := by
  have result : rootfsOver emptyDrive [8] none (fun _ => none) = some (some 4096, fun _ => none) := by
    have alloc : emptyDrive.alloc (fun _ => none) = some 4096 := rfl
    rw [rootfsOver, rootfsTry_fails alloc (by decide)]
    rfl
  refine ⟨visits_onePartition, 4096, fun _ => none, (rootfsLoop_returns visits_onePartition).mpr result,
    rfl, fun picks => ?_⟩
  obtain ⟨part, here, is⟩ := picks.found.mp (Option.some_ne_none 4096)
  rw [List.mem_singleton.mp here] at is
  exact absurd is (by decide)

end Sdx.Fs
