import Sdx.Base
import Sdx.Lib.Bytes

/-! # Reading the disk (`core/disk/disk.c`)

A disk is its bytes. The controller either copies the sectors it is asked for or refuses, and it
refuses a request for no sectors. The buffers of the functions themselves are apart from the
caller's memory and hold what was on the stack before.
-/

namespace Sdx.Core

open Sdx.Lib.Bytes

/-- `disk_t` as far as reads go. -/
structure Disk where
  sectorSize : Nat
  data : Memory
  /-- Whether the controller reads a number of sectors from a sector on. -/
  answers : Nat → Nat → Bool
  /-- What a local buffer holds before it is written. -/
  stack : Memory

/-- `disk_do` with `DISK_OP_READ`: whether it went well, and the memory with the sectors at `buf`. -/
def diskDo (disk : Disk) (lba sectorCount buf : Nat) (mem : Memory) : Bool × Memory :=
  if sectorCount ≠ 0 ∧ disk.answers lba sectorCount then
    (true, store mem buf
      (slice disk.data (lba * disk.sectorSize) (sectorCount * disk.sectorSize)))
  else (false, mem)

/-- The loop of `disk_read_lba` over the whole sectors, `count` of them left. -/
def diskReadWhole (disk : Disk) : Nat → Nat → Nat → Memory → Bool × Memory
  | 0, _, _, mem => (true, mem)
  | count + 1, lba, buf, mem =>
      match diskDo disk lba 1 buf mem with
      | (false, mem) => (false, mem)
      | (true, mem) => diskReadWhole disk count (wrap64 (lba + 1)) (buf + disk.sectorSize) mem

/-- `disk_read_lba`. -/
def diskReadLba (disk : Disk) (lba size buf : Nat) (mem : Memory) : Bool × Memory :=
  let remSize := size % disk.sectorSize
  let whole := divFloor size disk.sectorSize
  if remSize = 0 then diskDo disk lba whole buf mem
  else
    match diskReadWhole disk whole lba buf mem with
    | (false, mem) => (false, mem)
    | (true, mem) =>
        -- the last sector goes through a buffer, which is copied even when the read failed
        let (ret, remBuf) := diskDo disk (wrap64 (lba + whole)) 1 0 disk.stack
        (ret, store mem (buf + whole * disk.sectorSize) (slice remBuf 0 remSize))

/-- `disk_read`. -/
def diskRead (disk : Disk) (offset size buf : Nat) (mem : Memory) : Bool × Memory :=
  let remOffset := offset % disk.sectorSize
  let lba := divFloor offset disk.sectorSize
  if remOffset = 0 then diskReadLba disk lba size buf mem
  else
    let (ret, fullBuf) := diskReadLba disk lba (wrap64 (remOffset + size)) 0 disk.stack
    (ret, store mem buf (slice fullBuf remOffset size))

/-- The controller reads whatever lies in the `count` sectors from `lba` on. -/
def Disk.Readable (disk : Disk) (lba count : Nat) : Prop :=
  ∀ from' n, n ≠ 0 → lba ≤ from' → from' + n ≤ lba + count → disk.answers from' n = true

section

variable {disk : Disk} {lba sectorCount count size offset buf : Nat} {mem mem' : Memory}

theorem diskDo_true (read : diskDo disk lba sectorCount buf mem = (true, mem')) :
    mem' = store mem buf
      (slice disk.data (lba * disk.sectorSize) (sectorCount * disk.sectorSize)) := by
  unfold diskDo at read
  split at read
  · exact (Prod.mk.inj read).2.symm
  · cases (Prod.mk.inj read).1

theorem diskDo_readable (some' : sectorCount ≠ 0) (readable : disk.Readable lba sectorCount) :
    diskDo disk lba sectorCount buf mem = (true, store mem buf
      (slice disk.data (lba * disk.sectorSize) (sectorCount * disk.sectorSize))) := by
  have answered := readable lba sectorCount some' (Nat.le_refl _) (Nat.le_refl _)
  rw [diskDo, if_pos ⟨some', answered⟩]

theorem diskReadWhole_true (fits : lba + count < 2 ^ 64)
    (read : diskReadWhole disk count lba buf mem = (true, mem')) :
    mem' = store mem buf (slice disk.data (lba * disk.sectorSize) (count * disk.sectorSize)) := by
  induction count generalizing lba buf mem with
  | zero =>
      cases (Prod.mk.inj read).2
      simp [slice]
  | succ count ih =>
      unfold diskReadWhole at read
      cases first : diskDo disk lba 1 buf mem with
      | mk ok mem₁ =>
          rw [first] at read
          cases ok with
          | false => cases (Prod.mk.inj read).1
          | true =>
              have head := diskDo_true first
              rw [Nat.one_mul] at head
              rw [wrap64_of_lt (by omega)] at read
              rw [ih (by omega) read, head]
              have join := @store_append mem buf (slice disk.data (lba * disk.sectorSize)
                disk.sectorSize) (slice disk.data ((lba + 1) * disk.sectorSize)
                (count * disk.sectorSize))
              rw [length_slice] at join
              rw [join, Nat.succ_mul lba, ← slice_add, Nat.succ_mul count, Nat.add_comm]

theorem diskReadWhole_readable (fits : lba + count < 2 ^ 64) (readable : disk.Readable lba count) :
    ∃ mem', diskReadWhole disk count lba buf mem = (true, mem') := by
  induction count generalizing lba buf mem with
  | zero => exact ⟨mem, rfl⟩
  | succ count ih =>
      have first : disk.Readable lba 1 := fun from' n some' low high =>
        readable from' n some' low (by omega)
      have rest : disk.Readable (lba + 1) count := fun from' n some' low high =>
        readable from' n some' (by omega) (by omega)
      rw [diskReadWhole, diskDo_readable Nat.one_ne_zero first, wrap64_of_lt (by omega)]
      exact ih (by omega) rest

/-- The bytes that a request into a local buffer brings, from `start'` on. -/
theorem slice_local {bytes : List UInt8} {start' : Nat} (within : start' + size ≤ bytes.length) :
    slice (store disk.stack 0 bytes) start' size = (bytes.drop start').take size := by
  have inside := @slice_store disk.stack 0 bytes size start' within
  rwa [Nat.zero_add] at inside

/-- What `disk_read_lba` reads when it says it went well. -/
theorem diskReadLba_true (sized : 0 < disk.sectorSize)
    (fits : lba + size / disk.sectorSize + 1 < 2 ^ 64)
    (read : diskReadLba disk lba size buf mem = (true, mem')) :
    mem' = store mem buf (slice disk.data (lba * disk.sectorSize) size) := by
  have parts := Nat.div_add_mod' size disk.sectorSize
  have short := Nat.mod_lt size sized
  simp only [diskReadLba, divFloor] at read
  split at read
  case isTrue whole =>
      rw [whole, Nat.add_zero] at parts
      rw [diskDo_true read, parts]
  case isFalse =>
      cases loop : diskReadWhole disk (size / disk.sectorSize) lba buf mem with
      | mk ok mem₁ =>
          rw [loop] at read
          cases ok with
          | false => cases (Prod.mk.inj read).1
          | true =>
              rw [wrap64_of_lt (by omega)] at read
              cases last : diskDo disk (lba + size / disk.sectorSize) 1 0 disk.stack with
              | mk ok remBuf =>
                  rw [last] at read
                  obtain ⟨rfl, stored⟩ := Prod.mk.inj read
                  have tail : slice remBuf 0 (size % disk.sectorSize) = slice disk.data
                      ((lba + size / disk.sectorSize) * disk.sectorSize)
                      (size % disk.sectorSize) := by
                    rw [diskDo_true last, slice_local (by rw [length_slice]; omega),
                      drop_slice (by omega), Nat.add_zero]
                  have join := @store_append mem buf
                    (slice disk.data (lba * disk.sectorSize)
                      (size / disk.sectorSize * disk.sectorSize))
                    (slice remBuf 0 (size % disk.sectorSize))
                  rw [length_slice] at join
                  rw [← stored, diskReadWhole_true (by omega) loop, join, tail, Nat.add_mul,
                    ← slice_add, parts]

/-- `disk_read_lba` reads what the controller can read. -/
theorem diskReadLba_readable (sized : 0 < disk.sectorSize) (some' : size ≠ 0)
    (fits : lba + size / disk.sectorSize + 1 < 2 ^ 64)
    (readable : disk.Readable lba ((size + disk.sectorSize - 1) / disk.sectorSize)) :
    (diskReadLba disk lba size buf mem).1 = true := by
  have parts := Nat.div_add_mod' size disk.sectorSize
  simp only [diskReadLba, divFloor]
  split
  case isTrue whole =>
      have count : (size + disk.sectorSize - 1) / disk.sectorSize = size / disk.sectorSize := by
        rw [whole, Nat.add_zero] at parts
        have shape : size + disk.sectorSize - 1 =
            disk.sectorSize - 1 + disk.sectorSize * (size / disk.sectorSize) := by
          rw [Nat.mul_comm, parts]
          omega
        rw [shape, Nat.add_mul_div_left _ _ sized, Nat.div_eq_of_lt (by omega), Nat.zero_add]
      have some'' : size / disk.sectorSize ≠ 0 := by
        intro none'
        rw [none', whole] at parts
        omega
      rw [count] at readable
      rw [diskDo_readable some'' readable]
  case isFalse part =>
      have count : (size + disk.sectorSize - 1) / disk.sectorSize =
          size / disk.sectorSize + 1 := by
        have shape : size + disk.sectorSize - 1 = size % disk.sectorSize - 1 +
            disk.sectorSize * (size / disk.sectorSize + 1) := by
          rw [Nat.mul_add, Nat.mul_comm, Nat.mul_one]
          omega
        have short := Nat.mod_lt size sized
        rw [shape, Nat.add_mul_div_left _ _ sized, Nat.div_eq_of_lt (by omega), Nat.zero_add]
      rw [count] at readable
      have whole : disk.Readable lba (size / disk.sectorSize) := fun from' n some' low high =>
        readable from' n some' low (by omega)
      have last : disk.Readable (lba + size / disk.sectorSize) 1 := fun from' n some' low high =>
        readable from' n some' (Nat.le_trans (Nat.le_add_right ..) low) (by omega)
      obtain ⟨mem₁, loop⟩ := @diskReadWhole_readable disk lba _ buf mem (by omega) whole
      rw [loop, wrap64_of_lt (by omega), diskDo_readable Nat.one_ne_zero last]

/-- What `disk_read` reads when it says it went well. -/
theorem diskRead_true (sized : 0 < disk.sectorSize)
    (fits : offset / disk.sectorSize + (offset % disk.sectorSize + size) / disk.sectorSize + 1 <
      2 ^ 64) (small : offset % disk.sectorSize + size < 2 ^ 64)
    (read : diskRead disk offset size buf mem = (true, mem')) :
    mem' = store mem buf (slice disk.data offset size) := by
  have parts := Nat.div_add_mod' offset disk.sectorSize
  simp only [diskRead, divFloor] at read
  split at read
  case isTrue whole =>
      rw [whole, Nat.add_zero] at parts
      rw [whole, Nat.zero_add] at fits
      rw [diskReadLba_true sized fits read, parts]
  case isFalse =>
      rw [wrap64_of_lt small] at read
      cases full : diskReadLba disk (offset / disk.sectorSize)
          (offset % disk.sectorSize + size) 0 disk.stack with
      | mk ok fullBuf =>
          rw [full] at read
          obtain ⟨rfl, stored⟩ := Prod.mk.inj read
          rw [← stored, diskReadLba_true sized fits full, slice_local (Nat.le_of_eq length_slice.symm),
            drop_slice (Nat.le_refl _), parts]

/-- `disk_read` reads what the controller can read. -/
theorem diskRead_readable (sized : 0 < disk.sectorSize) (some' : size ≠ 0)
    (fits : offset / disk.sectorSize + (offset % disk.sectorSize + size) / disk.sectorSize + 1 <
      2 ^ 64) (small : offset % disk.sectorSize + size < 2 ^ 64)
    (readable : disk.Readable (offset / disk.sectorSize)
      ((offset % disk.sectorSize + size + disk.sectorSize - 1) / disk.sectorSize)) :
    diskRead disk offset size buf mem =
      (true, store mem buf (slice disk.data offset size)) := by
  have ok : (diskRead disk offset size buf mem).1 = true := by
    simp only [diskRead, divFloor]
    split
    case isTrue whole =>
        rw [whole, Nat.zero_add] at readable fits
        exact diskReadLba_readable sized some' fits readable
    case isFalse =>
        rw [wrap64_of_lt small]
        exact diskReadLba_readable sized (by omega) fits readable
  have value := @diskRead_true disk size offset buf mem (diskRead disk offset size buf mem).2
    sized fits small (Prod.ext ok rfl)
  exact Prod.ext ok value

/-! ## Whether a read goes well does not depend on what is read -/

variable {disk' : Disk} {buf' : Nat} {mem₁ : Memory}

theorem diskDo_ok_congr (answers : disk'.answers = disk.answers) :
    (diskDo disk' lba sectorCount buf' mem₁).1 = (diskDo disk lba sectorCount buf mem).1 := by
  unfold diskDo
  rw [answers]
  split <;> rfl

theorem diskReadWhole_ok_congr (answers : disk'.answers = disk.answers) :
    (diskReadWhole disk' count lba buf' mem₁).1 = (diskReadWhole disk count lba buf mem).1 := by
  induction count generalizing lba buf mem buf' mem₁ with
  | zero => rfl
  | succ count ih =>
      have first := @diskDo_ok_congr disk lba 1 buf mem disk' buf' mem₁ answers
      rw [diskReadWhole, diskReadWhole]
      generalize diskDo disk' lba 1 buf' mem₁ = read' at first ⊢
      generalize diskDo disk lba 1 buf mem = read at first ⊢
      obtain ⟨ok', mem'⟩ := read'
      obtain ⟨ok, mem⟩ := read
      obtain rfl : ok' = ok := first
      cases ok' with
      | false => rfl
      | true => exact ih

theorem diskReadLba_ok_congr (answers : disk'.answers = disk.answers)
    (sectorSize : disk'.sectorSize = disk.sectorSize) :
    (diskReadLba disk' lba size buf' mem₁).1 = (diskReadLba disk lba size buf mem).1 := by
  simp only [diskReadLba, sectorSize]
  split
  · exact diskDo_ok_congr answers
  have loop := @diskReadWhole_ok_congr disk lba (divFloor size disk.sectorSize) buf mem disk' buf'
    mem₁ answers
  generalize diskReadWhole disk' (divFloor size disk.sectorSize) lba buf' mem₁ = read' at loop ⊢
  generalize diskReadWhole disk (divFloor size disk.sectorSize) lba buf mem = read at loop ⊢
  obtain ⟨ok', mem'⟩ := read'
  obtain ⟨ok, mem⟩ := read
  obtain rfl : ok' = ok := loop
  cases ok' with
  | false => rfl
  | true => exact diskDo_ok_congr answers

/-! ## What a read leaves alone -/

variable {x : Nat}

theorem diskDo_frame (after : buf + sectorCount * disk.sectorSize ≤ x) :
    (diskDo disk lba sectorCount buf mem).2 x = mem x := by
  unfold diskDo
  split
  · exact store_outside (Or.inr (by rwa [length_slice]))
  · rfl

theorem diskReadWhole_frame (after : buf + count * disk.sectorSize ≤ x) :
    (diskReadWhole disk count lba buf mem).2 x = mem x := by
  induction count generalizing lba buf mem with
  | zero => rfl
  | succ count ih =>
      rw [Nat.succ_mul] at after
      have first := @diskDo_frame disk lba 1 buf mem x (by omega)
      rw [diskReadWhole]
      cases head : diskDo disk lba 1 buf mem with
      | mk ok mem₁ =>
          rw [head] at first
          cases ok with
          | false => exact first
          | true => exact (ih (by omega)).trans first

theorem diskReadLba_frame (after : buf + size ≤ x) :
    (diskReadLba disk lba size buf mem).2 x = mem x := by
  have parts := Nat.div_add_mod' size disk.sectorSize
  simp only [diskReadLba, divFloor]
  split
  case isTrue whole =>
      apply diskDo_frame
      omega
  case isFalse =>
      have first := @diskReadWhole_frame disk lba (size / disk.sectorSize) buf mem x (by omega)
      cases loop : diskReadWhole disk (size / disk.sectorSize) lba buf mem with
      | mk ok mem₁ =>
          rw [loop] at first
          cases ok with
          | false => exact first
          | true =>
              refine (store_outside (Or.inr ?_)).trans first
              rw [length_slice]
              omega

/-- Nothing behind the size is written, whether the read went well or not. -/
theorem diskRead_frame (after : buf + size ≤ x) :
    (diskRead disk offset size buf mem).2 x = mem x := by
  simp only [diskRead]
  split
  · exact diskReadLba_frame after
  · exact store_outside (Or.inr (by rwa [length_slice]))

end

end Sdx.Core
