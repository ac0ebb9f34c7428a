import Sdx.Core.Disk

/-! # Writing the disk (`core/disk/disk.c`)

A write divides the sector size by the offset and by the size of the request, so it goes through
for one sector and, of the offsets it takes, only the sector size itself is a whole number of
sectors.
-/

namespace Sdx.Core

open Sdx.Lib.Bytes

/-- `disk_do` with `DISK_OP_WRITE`: the sectors at `buf` go to the disk. `ahci_do` refuses a
request for no sectors. -/
def diskDoWrite (disk : Disk) (accepts : Nat → Nat → Bool) (lba sectorCount buf : Nat)
    (mem : Memory) : Bool × Disk :=
  if sectorCount ≠ 0 ∧ accepts lba sectorCount then
    (true, { disk with
      data := store disk.data (lba * disk.sectorSize)
        (slice mem buf (sectorCount * disk.sectorSize)) })
  else (false, disk)

/-- `disk_write_lba`. There is no result when it divides by zero. -/
def diskWriteLba (disk : Disk) (accepts : Nat → Nat → Bool) (lba size buf : Nat) (mem : Memory) :
    Option (Bool × Disk) :=
  if size = 0 then none
  else if disk.sectorSize % size ≠ 0 then some (false, disk)
  else some (diskDoWrite disk accepts lba (divFloor size disk.sectorSize) buf mem)

/-- `disk_write`. There is no result when it divides by zero. -/
def diskWrite (disk : Disk) (accepts : Nat → Nat → Bool) (offset size buf : Nat) (mem : Memory) :
    Option (Bool × Disk) :=
  if offset = 0 then none
  else if disk.sectorSize % offset ≠ 0 then some (false, disk)
  else diskWriteLba disk accepts (divFloor offset disk.sectorSize) size buf mem

section

variable {disk : Disk} {accepts : Nat → Nat → Bool} {lba sectorCount offset size buf : Nat}
  {mem : Memory}

/-- What a write does, by what divides the sector size. -/
theorem diskWrite_eq (sized : 0 < disk.sectorSize) (some' : 0 < size) :
    diskWrite disk accepts offset size buf mem =
      if offset = 0 then none
      else if offset ∣ disk.sectorSize ∧ size = disk.sectorSize then
        some (diskDoWrite disk accepts (offset / disk.sectorSize) 1 buf mem)
      else some (false, disk) := by
  have no_sectors {lba} : diskDoWrite disk accepts lba 0 buf mem = (false, disk) :=
    if_neg fun both => both.1 rfl
  unfold diskWrite
  split
  · rfl
  by_cases divides : offset ∣ disk.sectorSize
  · rw [if_neg (not_not.mpr (Nat.mod_eq_zero_of_dvd divides)), diskWriteLba, if_neg some'.ne']
    by_cases one : size = disk.sectorSize
    · rw [if_neg (by rw [one, Nat.mod_self]; exact not_not.mpr rfl), if_pos ⟨divides, one⟩, one,
        divFloor, divFloor, Nat.div_self sized]
    have other : ¬(offset ∣ disk.sectorSize ∧ size = disk.sectorSize) := fun both => one both.2
    rw [if_neg other]
    by_cases part : disk.sectorSize % size = 0
    · -- a proper divisor of the sector size is no sector at all
      have le := Nat.le_of_dvd sized (Nat.dvd_of_mod_eq_zero part)
      rw [if_neg (not_not.mpr part), divFloor, divFloor,
        Nat.div_eq_of_lt (show size < disk.sectorSize by omega), no_sectors]
    · rw [if_pos part]
  · rw [if_pos (fun whole => divides (Nat.dvd_of_mod_eq_zero whole)),
      if_neg fun both => divides both.1]

/-- A write of sectors leaves the other bytes of the disk. -/
theorem diskDoWrite_frame {x : Nat}
    (outside : x < lba * disk.sectorSize ∨
      lba * disk.sectorSize + sectorCount * disk.sectorSize ≤ x) :
    (diskDoWrite disk accepts lba sectorCount buf mem).2.data x = disk.data x := by
  unfold diskDoWrite
  split
  · exact store_outside (by rwa [length_slice])
  · rfl

/-- One sector that was written is read back. -/
theorem diskRead_written (sized : 0 < disk.sectorSize)
    (reads : ∀ lba n, n ≠ 0 → disk.answers lba n = true)
    (stores : ∀ lba n, n ≠ 0 → accepts lba n = true) {into : Nat} {mem' : Memory} :
    diskRead (diskDoWrite disk accepts lba 1 buf mem).2 (lba * disk.sectorSize) disk.sectorSize
        into mem' =
      (true, store mem' into (slice mem buf disk.sectorSize)) := by
  rw [diskDoWrite, if_pos ⟨Nat.one_ne_zero, stores lba 1 Nat.one_ne_zero⟩]
  have back := @slice_store disk.data (lba * disk.sectorSize)
    (slice mem buf (1 * disk.sectorSize)) disk.sectorSize 0 (by rw [length_slice]; omega)
  simp only [diskRead, diskReadLba, divFloor, Nat.mul_mod_left, Nat.mod_self, if_pos,
    Nat.mul_div_cancel _ sized, Nat.div_self sized, diskDo,
    reads lba 1 Nat.one_ne_zero, ne_eq, Nat.one_ne_zero, not_false_eq_true, and_self]
  rw [Nat.add_zero] at back
  rw [Nat.one_mul] at back ⊢
  rw [back, List.drop_zero, List.take_of_length_le (Nat.le_of_eq length_slice)]

/-! ## Writing and reading back -/

/-- A write of whole sectors is read back and changes nothing else, another one is refused. -/
def WritesBack (disk : Disk) (accepts : Nat → Nat → Bool) (offset size buf : Nat)
    (mem : Memory) : Prop :=
  if disk.sectorSize ∣ offset ∧ disk.sectorSize ∣ size then
    ∃ written, diskWrite disk accepts offset size buf mem = some (true, written) ∧
      (∀ into mem', (diskRead written offset size into mem').1 = true ∧
        slice (diskRead written offset size into mem').2 into size = slice mem buf size) ∧
      ∀ x, x < offset ∨ offset + size ≤ x → written.data x = disk.data x
  else diskWrite disk accepts offset size buf mem = some (false, disk)

/-- Of the writes of whole sectors only that of the second sector works; the others are refused
unless the offset is zero, or divides the sector size while the size is the sector size. -/
theorem writesBack_iff (disk : Disk) (accepts : Nat → Nat → Bool) (sized : 0 < disk.sectorSize)
    (reads : ∀ lba n, n ≠ 0 → disk.answers lba n = true)
    (stores : ∀ lba n, n ≠ 0 → accepts lba n = true) (offset size buf : Nat) (some' : 0 < size)
    (mem : Memory) :
    WritesBack disk accepts offset size buf mem ↔
      (offset = disk.sectorSize ∧ size = disk.sectorSize) ∨
      (offset ≠ 0 ∧ ¬(disk.sectorSize ∣ offset ∧ disk.sectorSize ∣ size) ∧
        ¬(offset ∣ disk.sectorSize ∧ size = disk.sectorSize)) := by
  have step := @diskWrite_eq disk accepts offset size buf mem sized some'
  have stored {lba} : (diskDoWrite disk accepts lba 1 buf mem).1 = true := by
    rw [diskDoWrite, if_pos ⟨Nat.one_ne_zero, stores lba 1 Nat.one_ne_zero⟩]
  unfold WritesBack
  split
  case isTrue whole =>
      constructor
      · rintro ⟨written, done, -⟩
        rw [step] at done
        split at done
        · cases done
        split at done
        · next both => exact Or.inl ⟨Nat.dvd_antisymm both.1 whole.1, both.2⟩
        · cases done
      · rintro (⟨rfl, rfl⟩ | ⟨-, part, -⟩)
        · rw [if_neg sized.ne', if_pos ⟨dvd_refl _, rfl⟩, Nat.div_self sized] at step
          have back := @diskRead_written disk accepts 1 buf mem sized reads stores
          rw [Nat.one_mul] at back
          refine ⟨_, step.trans (congrArg some (Prod.ext stored rfl)), fun into mem' => ?_,
            fun x outside => diskDoWrite_frame (by rwa [Nat.one_mul])⟩
          rw [back]
          have same := @slice_store mem' into (slice mem buf disk.sectorSize) disk.sectorSize 0
            (by rw [length_slice]; omega)
          rw [Nat.add_zero, List.drop_zero,
            List.take_of_length_le (Nat.le_of_eq length_slice)] at same
          exact ⟨rfl, same⟩
        · exact absurd whole part
  case isFalse part =>
      rw [step]
      constructor
      · intro refused
        split at refused
        · cases refused
        next nonzero =>
        split at refused
        · have taken := congrArg Prod.fst (Option.some.inj refused)
          rw [stored] at taken
          cases taken
        · next other => exact Or.inr ⟨nonzero, part, other⟩
      · rintro (⟨rfl, rfl⟩ | ⟨nonzero, -, other⟩)
        · exact absurd ⟨dvd_refl _, dvd_refl _⟩ part
        · rw [if_neg nonzero, if_neg other]

end

/-- A disk of sectors of 512 bytes that reads everything. -/
def blankDisk : Disk where
  sectorSize := 512
  data := fun _ => 0
  answers := fun _ _ => true
  stack := fun _ => 0

theorem writesBack_iff_secondSector :
    WritesBack blankDisk (fun _ _ => true) 512 512 0 fun x => UInt8.ofNat x :=
  (writesBack_iff blankDisk (fun _ _ => true) (by decide) (fun _ _ _ => rfl) (fun _ _ _ => rfl)
    512 512 0 (by decide) fun x => UInt8.ofNat x).mpr (Or.inl ⟨rfl, rfl⟩)

/-- A write of the first sector divides by zero. -/
theorem not_writesBack_firstSector :
    ¬∀ (disk : Disk) (accepts : Nat → Nat → Bool) (offset size buf : Nat) (mem : Memory),
      0 < disk.sectorSize → (∀ lba n, n ≠ 0 → disk.answers lba n = true) →
      (∀ lba n, n ≠ 0 → accepts lba n = true) → 0 < size →
      WritesBack disk accepts offset size buf mem := by
  intro always
  have first := always blankDisk (fun _ _ => true) 0 512 0 (fun _ => 0) (by decide)
    (fun _ _ _ => rfl) (fun _ _ _ => rfl) (by decide)
  rw [WritesBack, if_pos ⟨by decide, by decide⟩] at first
  obtain ⟨written, done, -⟩ := first
  cases done

end Sdx.Core
