import Sdx.Core.Disk
import Sdx.Lib.Trace

/-! # The requests of a disk read (`core/disk/disk.c`)

The functions that read the disk again, with the requests they make of the controller. Without
the requests they are the functions themselves, and a read asks for no sector before the one it
starts in and none behind its last byte.
-/

namespace Sdx.Core

open Sdx.Lib.Bytes Sdx.Lib.Trace

/-- A request for `sectorCount` sectors from `lba` on. -/
structure DiskRequest where
  lba : Nat
  sectorCount : Nat
  deriving DecidableEq

def diskDoTraced (disk : Disk) (lba sectorCount buf : Nat) (mem : Memory) :
    Traced DiskRequest (Bool × Memory) :=
  .request ⟨lba, sectorCount⟩ (diskDo disk lba sectorCount buf mem)

def diskReadWholeTraced (disk : Disk) :
    Nat → Nat → Nat → Memory → Traced DiskRequest (Bool × Memory)
  | 0, _, _, mem => pure (true, mem)
  | count + 1, lba, buf, mem => do
      match ← diskDoTraced disk lba 1 buf mem with
      | (false, mem) => pure (false, mem)
      | (true, mem) => diskReadWholeTraced disk count (wrap64 (lba + 1)) (buf + disk.sectorSize) mem

def diskReadLbaTraced (disk : Disk) (lba size buf : Nat) (mem : Memory) :
    Traced DiskRequest (Bool × Memory) :=
  let remSize := size % disk.sectorSize
  let whole := divFloor size disk.sectorSize
  if remSize = 0 then diskDoTraced disk lba whole buf mem
  else do
    match ← diskReadWholeTraced disk whole lba buf mem with
    | (false, mem) => pure (false, mem)
    | (true, mem) =>
        let (ret, remBuf) ← diskDoTraced disk (wrap64 (lba + whole)) 1 0 disk.stack
        pure (ret, store mem (buf + whole * disk.sectorSize) (slice remBuf 0 remSize))

def diskReadTraced (disk : Disk) (offset size buf : Nat) (mem : Memory) :
    Traced DiskRequest (Bool × Memory) :=
  let remOffset := offset % disk.sectorSize
  let lba := divFloor offset disk.sectorSize
  if remOffset = 0 then diskReadLbaTraced disk lba size buf mem
  else do
    let (ret, fullBuf) ← diskReadLbaTraced disk lba (wrap64 (remOffset + size)) 0 disk.stack
    pure (ret, store mem buf (slice fullBuf remOffset size))

section

variable {disk : Disk} {lba sectorCount count size offset buf hi : Nat} {mem : Memory}

@[simp] theorem diskDoTraced_value :
    (diskDoTraced disk lba sectorCount buf mem).value = diskDo disk lba sectorCount buf mem := rfl

@[simp] theorem diskReadWholeTraced_value : (diskReadWholeTraced disk count lba buf mem).value =
    diskReadWhole disk count lba buf mem := by
  induction count generalizing lba buf mem with
  | zero => rfl
  | succ count ih =>
      rw [diskReadWholeTraced, diskReadWhole, Traced.value_bind, diskDoTraced_value]
      rcases diskDo disk lba 1 buf mem with ⟨_ | _, mem₁⟩
      · rfl
      · exact ih

@[simp] theorem diskReadLbaTraced_value :
    (diskReadLbaTraced disk lba size buf mem).value = diskReadLba disk lba size buf mem := by
  simp only [diskReadLbaTraced, diskReadLba]
  split
  · rfl
  · rw [Traced.value_bind, diskReadWholeTraced_value]
    rcases diskReadWhole disk (divFloor size disk.sectorSize) lba buf mem with ⟨_ | _, mem₁⟩
    · rfl
    · rfl

@[simp] theorem diskReadTraced_value :
    (diskReadTraced disk offset size buf mem).value = diskRead disk offset size buf mem := by
  simp only [diskReadTraced, diskRead]
  split
  · exact diskReadLbaTraced_value
  · rw [Traced.value_bind, diskReadLbaTraced_value]
    rfl

/-! ## The sectors of a read -/

/-- All sectors of the request are from `lo` to `hi`. -/
def DiskRequest.Between (lo hi : Nat) (r : DiskRequest) : Prop :=
  lo ≤ r.lba ∧ r.lba + r.sectorCount ≤ hi

theorem diskReadWholeTraced_between (fits : lba + count ≤ hi) (small : hi < 2 ^ 64) :
    (diskReadWholeTraced disk count lba buf mem).Only (DiskRequest.Between lba hi) := by
  induction count generalizing lba buf mem with
  | zero => exact .pure
  | succ count ih =>
      refine .bind (.request ⟨Nat.le_refl lba, by dsimp only; omega⟩) ?_
      split
      · exact .pure
      · rw [wrap64_of_lt (by omega)]
        exact (ih (by omega)).mono fun r between => ⟨by have low := between.1; omega, between.2⟩

/-- A read that ends before a sector asks for none from this sector on. -/
theorem diskReadLbaTraced_between (sized : 0 < disk.sectorSize)
    (fits : lba * disk.sectorSize + size ≤ hi * disk.sectorSize) (small : hi < 2 ^ 64) :
    (diskReadLbaTraced disk lba size buf mem).Only (DiskRequest.Between lba hi) := by
  have parts := Nat.div_add_mod' size disk.sectorSize
  have bytes : (lba + size / disk.sectorSize) * disk.sectorSize + size % disk.sectorSize ≤
      hi * disk.sectorSize := by
    rw [Nat.add_mul]
    omega
  have whole : lba + size / disk.sectorSize ≤ hi :=
    Nat.le_of_mul_le_mul_right (by omega) sized
  simp only [diskReadLbaTraced, divFloor]
  split
  · exact .request ⟨Nat.le_refl lba, whole⟩
  next part =>
  have less : lba + size / disk.sectorSize < hi := Nat.lt_of_mul_lt_mul_right (a := disk.sectorSize)
    (by omega)
  refine .bind (diskReadWholeTraced_between whole small) ?_
  split
  · exact .pure
  · refine .bind (.request ?_) .pure
    rw [wrap64_of_lt (by omega)]
    exact ⟨Nat.le_add_right .., less⟩

theorem diskReadTraced_between (sized : 0 < disk.sectorSize) (fits : offset + size ≤ hi * disk.sectorSize)
    (small : hi * disk.sectorSize < 2 ^ 64) :
    (diskReadTraced disk offset size buf mem).Only
      (DiskRequest.Between (offset / disk.sectorSize) hi) := by
  have parts := Nat.div_add_mod' offset disk.sectorSize
  have le : hi ≤ hi * disk.sectorSize := Nat.le_mul_of_pos_right hi sized
  simp only [diskReadTraced, divFloor]
  split
  · exact diskReadLbaTraced_between sized (by omega) (by omega)
  · rw [wrap64_of_lt (by omega)]
    exact .bind (diskReadLbaTraced_between sized (by omega) (by omega)) .pure

/-! ## When a read goes well -/

/-- The controller reads the sectors of the request. -/
def DiskRequest.Answered (disk : Disk) (r : DiskRequest) : Prop :=
  r.sectorCount ≠ 0 ∧ disk.answers r.lba r.sectorCount = true

theorem diskDoTraced_answered :
    (diskDoTraced disk lba sectorCount buf mem).Only (DiskRequest.Answered disk) ↔
      (diskDo disk lba sectorCount buf mem).1 = true := by
  rw [diskDoTraced, Traced.Only.request_iff, DiskRequest.Answered, diskDo]
  split
  · next answered => exact iff_of_true answered rfl
  · next refused => exact iff_of_false refused Bool.false_ne_true

theorem diskReadWholeTraced_answered :
    (diskReadWholeTraced disk count lba buf mem).Only (DiskRequest.Answered disk) ↔
      (diskReadWhole disk count lba buf mem).1 = true := by
  induction count generalizing lba buf mem with
  | zero => exact iff_of_true .pure rfl
  | succ count ih =>
      rw [diskReadWholeTraced, Traced.Only.bind_iff, diskDoTraced_answered, diskDoTraced_value,
        diskReadWhole]
      cases first : diskDo disk lba 1 buf mem with
      | mk ok mem₁ =>
          cases ok with
          | false => exact iff_of_false (fun both => Bool.false_ne_true both.1) Bool.false_ne_true
          | true => exact (and_iff_right rfl).trans ih

theorem diskReadLbaTraced_answered :
    (diskReadLbaTraced disk lba size buf mem).Only (DiskRequest.Answered disk) ↔
      (diskReadLba disk lba size buf mem).1 = true := by
  simp only [diskReadLbaTraced, diskReadLba]
  split
  · exact diskDoTraced_answered
  · rw [Traced.Only.bind_iff, diskReadWholeTraced_answered, diskReadWholeTraced_value]
    cases loop : diskReadWhole disk (divFloor size disk.sectorSize) lba buf mem with
    | mk ok mem₁ =>
        cases ok with
        | false => exact iff_of_false (fun both => Bool.false_ne_true both.1) Bool.false_ne_true
        | true =>
            refine (and_iff_right rfl).trans ?_
            rw [Traced.Only.bind_iff, diskDoTraced_answered, Traced.Only.pure_iff, and_true]

theorem diskReadTraced_answered :
    (diskReadTraced disk offset size buf mem).Only (DiskRequest.Answered disk) ↔
      (diskRead disk offset size buf mem).1 = true := by
  simp only [diskReadTraced, diskRead]
  split
  · exact diskReadLbaTraced_answered
  · rw [Traced.Only.bind_iff, diskReadLbaTraced_answered, Traced.Only.pure_iff, and_true]

/-! ## No request is for no sectors -/

theorem diskReadWholeTraced_some :
    (diskReadWholeTraced disk count lba buf mem).Only fun r => r.sectorCount ≠ 0 := by
  induction count generalizing lba buf mem with
  | zero => exact .pure
  | succ count ih =>
      refine .bind (.request Nat.one_ne_zero) ?_
      split
      · exact .pure
      · exact ih

theorem diskReadLbaTraced_some (some' : size ≠ 0) :
    (diskReadLbaTraced disk lba size buf mem).Only fun r => r.sectorCount ≠ 0 := by
  have parts := Nat.div_add_mod' size disk.sectorSize
  simp only [diskReadLbaTraced, divFloor]
  split
  · next whole =>
      refine .request fun none' => some' ?_
      rw [whole, show size / disk.sectorSize = 0 from none'] at parts
      omega
  · refine .bind diskReadWholeTraced_some ?_
    split
    · exact .pure
    · exact .bind (.request Nat.one_ne_zero) .pure

theorem diskReadTraced_some (some' : size ≠ 0)
    (small : offset % disk.sectorSize + size < 2 ^ 64) :
    (diskReadTraced disk offset size buf mem).Only fun r => r.sectorCount ≠ 0 := by
  simp only [diskReadTraced]
  split
  · exact diskReadLbaTraced_some some'
  · rw [wrap64_of_lt small]
    exact .bind (diskReadLbaTraced_some (by omega)) .pure

/-! ## Reads and the disk -/

/-- A read goes well if and only if the controller reads every request of it, and then the bytes
of the disk are at `buf` and the rest of the memory is as before, whatever the alignment. -/
theorem diskRead_bytes (disk : Disk) (sized : 1 ≤ disk.sectorSize) (offset size buf : Nat)
    (some' : 1 ≤ size) (fits : offset + size < 2 ^ 63) (mem : Memory) :
    (∀ r ∈ (diskReadTraced disk offset size buf mem).requests, 1 ≤ r.sectorCount) ∧
    ((diskRead disk offset size buf mem).1 = true ↔
      ∀ r ∈ (diskReadTraced disk offset size buf mem).requests,
        disk.answers r.lba r.sectorCount = true) ∧
    ((diskRead disk offset size buf mem).1 = true →
      (∀ k < size, (diskRead disk offset size buf mem).2 (buf + k) = disk.data (offset + k)) ∧
      ∀ x, x < buf ∨ buf + size ≤ x → (diskRead disk offset size buf mem).2 x = mem x) := by
  have rem_le := Nat.mod_le offset disk.sectorSize
  have asks := @diskReadTraced_some disk size offset buf mem (by omega) (by omega)
  refine ⟨fun r made => Nat.pos_of_ne_zero (asks r made), ?_, fun ok => ?_⟩
  · rw [← diskReadTraced_answered]
    exact ⟨fun all r made => (all r made).2, fun all r made => ⟨asks r made, all r made⟩⟩
  · have lba_le := Nat.div_le_self offset disk.sectorSize
    have count_le := Nat.div_le_self (offset % disk.sectorSize + size) disk.sectorSize
    have value := @diskRead_true disk size offset buf mem (diskRead disk offset size buf mem).2
      sized (by omega) (by omega) (Prod.ext ok rfl)
    rw [value]
    refine ⟨fun k inside => ?_, fun x outside => store_outside (by rwa [length_slice])⟩
    rw [store_inside (by rwa [length_slice]), getElem_slice]

end

/-- A disk of sectors of four bytes that reads everything. -/
def countingDisk : Disk where
  sectorSize := 4
  data := fun x => UInt8.ofNat x
  answers := fun _ _ => true
  stack := fun _ => 0

/-- Five bytes from the third on, which end in the second sector. -/
theorem diskRead_bytes_counting : (diskRead countingDisk 2 5 100 fun _ => 0).1 = true ∧
    ∀ k < 5, (diskRead countingDisk 2 5 100 fun _ => 0).2 (100 + k) = UInt8.ofNat (2 + k) := by
  have read : (diskRead countingDisk 2 5 100 fun _ => 0).1 = true := by decide
  refine ⟨read, ?_⟩
  exact ((diskRead_bytes countingDisk (by decide) 2 5 100 (by decide) (by decide) fun _ => 0).2.2
    read).1

end Sdx.Core
