import Mathlib.Data.List.Flatten
import Sdx.Lib.Fuel
import Sdx.Lib.LinkedList

/-! # Disks and their partitions (`core/disk/disk.c`, `core/disk/part.c`)

The disks are a linked list, and each disk has a linked list of its partitions. Objects are
named by their addresses; `none` as a pointer is `NULL`.
-/

namespace Sdx.Core

open Sdx.Lib Sdx.Lib.LinkedList

/-- The address of a `disk_part_t`. -/
abbrev PartPtr := Nat

/-- The address of a `disk_t`. -/
abbrev DiskPtr := Nat

/-- `disk_part_t`. -/
structure DiskPart where
  start : Nat
  size : Nat
  bootable : Bool
  available : Bool
  disk : DiskPtr
  next : Option PartPtr
  deriving Inhabited

/-- What the functions below use of a `disk_t`. -/
structure DiskNode where
  available : Bool
  parts : Option PartPtr
  partCount : BitVec 32
  next : Option DiskPtr
  deriving Inhabited

/-- A partition as a loader registers it. -/
structure PartEntry where
  start : Nat
  size : Nat
  bootable : Bool
  deriving DecidableEq

/-- The disks and the partitions in memory, and `disk_first`. `live` are the partitions that the heap
    has handed out and not got back, `allocs` is what it returns from here on, and `NULL` behind
    that. `registered` keeps what the loaders made available, for the statements below. -/
structure Disks where
  disks : DiskPtr → DiskNode
  parts : PartPtr → DiskPart
  first : Option DiskPtr
  live : PartPtr → Bool
  allocs : List (Option PartPtr)
  registered : List PartEntry

namespace Disks

def nextPart (m : Disks) (p : PartPtr) : Option PartPtr := (m.parts p).next

def nextDisk (m : Disks) (d : DiskPtr) : Option DiskPtr := (m.disks d).next

def setPart (m : Disks) (p : PartPtr) (part : DiskPart) : Disks :=
  { m with parts := Function.update m.parts p part }

def setDisk (m : Disks) (d : DiskPtr) (disk : DiskNode) : Disks :=
  { m with disks := Function.update m.disks d disk }

/-- `heap_alloc` of a `disk_part_t`. -/
def heapAlloc (m : Disks) : Option PartPtr × Disks :=
  match m.allocs with
  | [] => (none, m)
  | none :: allocs => (none, { m with allocs := allocs })
  | some p :: allocs => (some p, { m with allocs := allocs, live := Function.update m.live p true })

/-- `heap_free` of a `disk_part_t`. -/
def heapFree (m : Disks) (p : PartPtr) : Disks := { m with live := Function.update m.live p false }

end Disks

/-! ## Enumerating -/

/-- The loop of `disk_next` over the disks: the first partition of the first disk that has one. -/
def diskNextLoop (m : Disks) : Nat → Option DiskPtr → Option (Option PartPtr)
  | 0, _ => none
  | _ + 1, none => some none
  | fuel + 1, some cur =>
      match (m.disks cur).parts with
      | some found => some (some found)
      | none => diskNextLoop m fuel (m.disks cur).next

/-- `disk_next` up to `return_found`. -/
def diskNextFound (m : Disks) (pre : Option PartPtr) (fuel : Nat) : Option (Option PartPtr) :=
  match pre.bind m.nextPart with
  | some found => some (some found)
  | none =>
      diskNextLoop m fuel (match pre with
        | none => m.first
        | some pre => m.nextDisk (m.parts pre).disk)

/-- `disk_next`; the call of itself uses up a step. -/
def diskNext (m : Disks) : Option PartPtr → Nat → Option (Option PartPtr)
  | _, 0 => none
  | pre, fuel + 1 => do
      match ← diskNextFound m pre fuel with
      | none => some none
      | some found => if !(m.parts found).available then diskNext m (some found) fuel else some (some found)

/-- The disks `ds`, each with its partitions, as they follow each other in memory. -/
structure Listing (m : Disks) (ds : List (DiskPtr × List PartPtr)) : Prop where
  disks : Walk m.nextDisk m.first (ds.map Prod.fst)
  parts : ∀ d ∈ ds, Walk m.nextPart (m.disks d.1).parts d.2
  owner : ∀ d ∈ ds, ∀ p ∈ d.2, (m.parts p).disk = d.1

/-- All partitions of the disks. -/
def allParts (ds : List (DiskPtr × List PartPtr)) : List PartPtr := ds.flatMap Prod.snd

section

variable {m : Disks} {ds : List (DiskPtr × List PartPtr)} {pre : Option PartPtr}
  {cur : Option DiskPtr}

/-- The rest of a disk's partitions is found from each of them, and then what `rest` is. -/
theorem diskNextFound_inside {d : DiskPtr} {rest ps : List PartPtr} {p : PartPtr}
    (later : ∀ pre, (∀ r, Returns (fun fuel => diskNextLoop m fuel (m.nextDisk d)) r →
      Returns (diskNextFound m pre) r) → Visits (diskNextFound m) pre rest)
    (walk : Walk m.nextPart (some p) (p :: ps)) (owner : ∀ q ∈ p :: ps, (m.parts q).disk = d) :
    Visits (diskNextFound m) (some p) (ps ++ rest) := by
  induction ps generalizing p with
  | nil =>
      have ends : m.nextPart p = none := walk.tail.head_eq
      refine later (some p) fun r returns => returns.congr fun fuel => ?_
      simp only [diskNextFound, Option.bind_some, ends, owner p List.mem_cons_self]
  | cons q ps ih =>
      have next : m.nextPart p = some q := walk.tail.head_eq
      have tail := walk.tail
      rw [next] at tail
      refine .more ?_ (ih tail fun x mem => owner x (List.mem_cons_of_mem _ mem))
      refine .congr (fun fuel => ?_) (.const (some q))
      simp only [diskNextFound, Option.bind_some, next]

theorem diskNextLoop_end : Returns (fun fuel => diskNextLoop m fuel none) none :=
  .step (fun _ => rfl) (.const none)

theorem diskNextLoop_found {d : DiskPtr} {p : PartPtr} (has : (m.disks d).parts = some p) :
    Returns (fun fuel => diskNextLoop m fuel (some d)) (some p) :=
  .step (fun fuel => by rw [diskNextLoop, has]) (.const (some p))

theorem diskNextLoop_empty {d : DiskPtr} {r : Option PartPtr} (has : (m.disks d).parts = none)
    (rest : Returns (fun fuel => diskNextLoop m fuel (m.nextDisk d)) r) :
    Returns (fun fuel => diskNextLoop m fuel (some d)) r :=
  .step (fun fuel => by rw [diskNextLoop, has]; rfl) rest

/-- From a place that goes on with the disks at `cur`, all of their partitions are found. The
    induction is on the disks; a disk without partitions is passed over. -/
theorem diskNextFound_visits (disks : Walk m.nextDisk cur (ds.map Prod.fst))
    (parts : ∀ d ∈ ds, Walk m.nextPart (m.disks d.1).parts d.2)
    (owner : ∀ d ∈ ds, ∀ p ∈ d.2, (m.parts p).disk = d.1)
    (enters : ∀ r, Returns (fun fuel => diskNextLoop m fuel cur) r →
      Returns (diskNextFound m pre) r) :
    Visits (diskNextFound m) pre (allParts ds) := by
  induction ds generalizing pre cur with
  | nil =>
      obtain rfl : cur = none := disks.head_eq
      exact .done (enters none diskNextLoop_end)
  | cons disk ds ih =>
      obtain ⟨d, ps⟩ := disk
      obtain rfl : cur = some d := disks.head_eq
      have onward := disks.tail
      have walk := parts _ List.mem_cons_self
      have ours := owner _ List.mem_cons_self
      have later (pre : Option PartPtr)
          (enters : ∀ r, Returns (fun fuel => diskNextLoop m fuel (m.nextDisk d)) r →
            Returns (diskNextFound m pre) r) : Visits (diskNextFound m) pre (allParts ds) :=
        ih onward (fun d mem => parts d (List.mem_cons_of_mem _ mem))
          (fun d mem => owner d (List.mem_cons_of_mem _ mem)) enters
      cases ps with
      | nil =>
          have none' : (m.disks d).parts = none := walk.head_eq
          exact later pre fun r returns => enters r (diskNextLoop_empty none' returns)
      | cons p ps =>
          have some' : (m.disks d).parts = some p := walk.head_eq
          simp only [some'] at walk
          exact .more (enters _ (diskNextLoop_found some')) (diskNextFound_inside later walk ours)

/-- What `disk_next` does with what it found. -/
theorem diskNext_step {p : Option PartPtr} {r : Option PartPtr}
    (found : Returns (diskNextFound m pre) p)
    (rest : Returns (fun fuel => match p with
      | none => some none
      | some found =>
          if !(m.parts found).available then diskNext m (some found) fuel else some (some found)) r) :
    Returns (diskNext m pre) r :=
  .step (fun _ => rfl) (found.bind rest)

theorem Listing.nodup (listing : Listing m ds) : (allParts ds).Nodup := by
  refine List.nodup_flatMap.mpr ⟨fun d mem => (listing.parts d mem).nodup, ?_⟩
  have apart : ds.Pairwise fun d d' => d.1 ≠ d'.1 := List.pairwise_map.mp listing.disks.nodup
  refine apart.imp_of_mem fun {d d'} mem mem' off => ?_
  intro p here there
  exact off ((listing.owner d mem p here).symm.trans (listing.owner d' mem' p there))

/-- Calling `disk_next` over and over gives the available partitions, each once, in the order of
    the disks and of their partitions. -/
theorem diskNext_visits (listing : Listing m ds) : ∃ l,
    l = (allParts ds).filter (fun p => (m.parts p).available) ∧ l.Nodup ∧
      Visits (diskNext m) none l := by
  have found : Visits (diskNextFound m) none (allParts ds) :=
    diskNextFound_visits listing.disks listing.parts listing.owner fun r returns =>
      returns.congr fun fuel => rfl
  refine ⟨_, rfl, listing.nodup.filter _, found.filter ?_ ?_ ?_⟩
  · exact fun pre ends => diskNext_step ends (.const none)
  · intro pre p kept returns
    refine diskNext_step returns (.congr (fun fuel => ?_) (.const (some p)))
    simp [kept]
  · intro pre p r skipped returns rest
    refine diskNext_step returns (rest.congr fun fuel => ?_)
    simp [skipped]

end

/-! ### Three disks, the middle one empty -/

def threeDisks : Disks where
  disks d :=
    if d = 1 then ⟨true, some 10, 2, some 2⟩
    else if d = 2 then ⟨true, none, 0, some 3⟩
    else ⟨true, some 12, 1, none⟩
  parts p :=
    if p = 10 then ⟨0, 8, false, false, 1, some 11⟩
    else if p = 11 then ⟨8, 8, false, false, 1, none⟩
    else ⟨0, 8, true, true, 3, none⟩
  first := some 1
  live _ := true
  allocs := []
  registered := []

theorem listing_threeDisks : Listing threeDisks [(1, [10, 11]), (2, []), (3, [12])] where
  disks := .visit (.visit (.visit .stop))
  parts := by
    intro d mem
    simp only [List.mem_cons, List.not_mem_nil, or_false] at mem
    obtain rfl | rfl | rfl := mem
    · exact .visit (.visit .stop)
    · exact .stop
    · exact .visit .stop
  owner := by decide

theorem diskNext_visits_threeDisks : ∃ l,
    l = [12] ∧ l.Nodup ∧ Visits (diskNext threeDisks) none l :=
  diskNext_visits listing_threeDisks

end Sdx.Core
