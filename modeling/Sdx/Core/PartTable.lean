import Sdx.Core.Disk
import Sdx.Core.DiskPart

/-! # Scanning a disk for partitions (`core/disk/part.c`, `core/gpt.c`, `core/mbr.c`)

A scan marks all partitions of the disk as not available, lets a loader register what the
partition table says, and takes out what no loader registered. Loops over a linked list carry a
number of steps; `none` as a result is a loop that does not end within them, or a division by zero.
-/

namespace Sdx.Core

open Sdx.Lib.Bytes

/-! ## The list of partitions -/

/-- The search of `disk_part_add`. -/
def diskPartFind (m : Disks) (start size : Nat) : Nat → Option PartPtr → Option (Option PartPtr)
  | 0, _ => none
  | _ + 1, none => some none
  | fuel + 1, some cur =>
      if (m.parts cur).start = start ∧ (m.parts cur).size = size then some (some cur)
      else diskPartFind m start size fuel (m.nextPart cur)

/-- The end of `disk_part_add`: a new partition at the start of the list. -/
def diskPartInsert (m : Disks) (disk : DiskPtr) (new : PartPtr) (start size : Nat) : Disks :=
  let m := m.setPart new ⟨start, size, false, false, disk, (m.disks disk).parts⟩
  m.setDisk disk { m.disks disk with
    parts := some new
    partCount := (m.disks disk).partCount + 1 }

/-- `disk_part_add`: the partition, or `NULL`. -/
def diskPartAdd (fuel : Nat) (m : Disks) (disk : DiskPtr) (start size : Nat) :
    Option (Option PartPtr × Disks) := do
  match ← diskPartFind m start size fuel (m.disks disk).parts with
  | some new => some (some new, m)
  | none =>
      match m.heapAlloc with
      | (none, m) => some (none, m)
      | (some new, m) => some (some new, diskPartInsert m disk new start size)

/-- The loop of `__disk_part_block`. -/
def diskPartBlockLoop : Nat → Disks → Option PartPtr → Option Disks
  | 0, _, _ => none
  | _ + 1, m, none => some m
  | fuel + 1, m, some cur =>
      let m := m.setPart cur { m.parts cur with available := false }
      diskPartBlockLoop fuel m (m.nextPart cur)

/-- `__disk_part_block`. -/
def diskPartBlock (fuel : Nat) (m : Disks) (disk : DiskPtr) : Option Disks :=
  diskPartBlockLoop fuel m (m.disks disk).parts

/-- The loop of `disk_part_clear`. -/
def diskPartClearLoop (disk : DiskPtr) :
    Nat → Disks → Option PartPtr → Option PartPtr → Option Disks
  | 0, _, _, _ => none
  | _ + 1, m, _, none => some m
  | fuel + 1, m, pre, some trav =>
      if (m.parts trav).available then diskPartClearLoop disk fuel m (some trav) (m.nextPart trav)
      else
        let m := m.setDisk disk { m.disks disk with partCount := (m.disks disk).partCount - 1 }
        match pre with
        | none =>
            let m := m.setDisk disk { m.disks disk with parts := m.nextPart trav }
            let m := m.heapFree trav
            diskPartClearLoop disk fuel m none (m.disks disk).parts
        | some pre =>
            let m := m.setPart pre { m.parts pre with next := m.nextPart trav }
            let m := m.heapFree trav
            diskPartClearLoop disk fuel m (some pre) (m.nextPart pre)

/-- `disk_part_clear`. -/
def diskPartClear (fuel : Nat) (m : Disks) (disk : DiskPtr) : Option Disks :=
  diskPartClearLoop disk fuel m none (m.disks disk).parts

/-- What the loaders do with a partition: it is added, and made available. -/
def loadPart (fuel : Nat) (m : Disks) (disk : DiskPtr) (part : PartEntry) : Option Disks := do
  match ← diskPartAdd fuel m disk part.start part.size with
  | (none, m) => some m
  | (some dp, m) =>
      let m := m.setPart dp { m.parts dp with bootable := part.bootable, available := true }
      some { m with registered := m.registered ++ [part] }

/-! ## GPT -/

/-- `GPT_SIGNATURE` and `GPT_LBA`. -/
def gptSignature : Nat := 0x5452415020494645
def gptLba : Nat := 1

/-- `struct gpt_table_header` as far as it is used. -/
structure GptTableHeader where
  signature : Nat
  lbaArray : Nat
  entryCount : Nat
  entrySize : Nat

def GptTableHeader.ofBytes (header : Memory) : GptTableHeader :=
  ⟨read header 0 8, read header 72 8, read header 80 4, read header 84 4⟩

/-- The partition `__gpt_load_entry` takes from the `struct gpt_part_entry` at `part`, if it does. -/
def gptEntry (entries : Memory) (part : Nat) : Option PartEntry :=
  let attr := read entries (part + 48) 8
  if read entries part 8 = 0 ∧ read entries (part + 8) 8 = 0 then none
  else if attr.testBit 1 then none
  else
    let startLba := read entries (part + 32) 8
    let endLba := read entries (part + 40) 8
    some ⟨startLba, sub64 (wrap64 (endLba + 1)) startLba, attr.testBit 2⟩

/-- `__gpt_load_entry`. -/
def gptLoadEntry (fuel : Nat) (m : Disks) (disk : DiskPtr) (entries : Memory) (part : Nat) :
    Option Disks :=
  match gptEntry entries part with
  | none => some m
  | some part => loadPart fuel m disk part

/-- The loop of `gpt_load` over the last `count` entries of a sector; `e` counts up. -/
def gptLoadSector (fuel : Nat) (disk : DiskPtr) (entries : Memory) (entrySize : Nat) :
    Nat → Nat → Disks → Option Disks
  | 0, _, m => some m
  | count + 1, e, m => do
      let m ← gptLoadEntry fuel m disk entries (e * entrySize)
      gptLoadSector fuel disk entries entrySize count (e + 1) m

/-- The loop of `gpt_load` over the sectors. Every round goes on by an entry or more, so there are
    at most as many as entries. -/
def gptLoadLoop (fuel : Nat) (dev : Disk) (disk : DiskPtr) (header : GptTableHeader)
    (entryPerSector : Nat) : Nat → Nat → Memory → Disks → Option Disks
  | 0, _, _, m => some m
  | rounds + 1, i, entries, m =>
      if i < header.entryCount then
        if entryPerSector = 0 then none
        else
          match diskDo dev (wrap64 (header.lbaArray + i / entryPerSector)) 1 0 entries with
          | (false, entries) =>
              gptLoadLoop fuel dev disk header entryPerSector rounds (i + entryPerSector) entries m
          | (true, entries) => do
              let m ← gptLoadSector fuel disk entries header.entrySize entryPerSector 0 m
              gptLoadLoop fuel dev disk header entryPerSector rounds (i + entryPerSector) entries m
      else some m

/-- `gpt_load`. -/
def gptLoad (fuel : Nat) (dev : Disk) (m : Disks) (disk : DiskPtr) : Option (Bool × Disks) :=
  match diskReadLba dev gptLba 92 0 (fun _ => 0) with
  | (false, _) => some (false, m)
  | (true, header) =>
      let header := GptTableHeader.ofBytes header
      if header.signature ≠ gptSignature then some (false, m)
      else if header.entrySize = 0 then none
      else if dev.sectorSize % header.entrySize ≠ 0 then some (false, m)
      else
        (gptLoadLoop fuel dev disk header (divFloor dev.sectorSize header.entrySize) header.entryCount
          0 dev.stack m).map fun m => (true, m)

/-! ## MBR -/

/-- `MBR_SIGNATURE` and `MBR_LBA`. -/
def mbrSignature : Nat := 0xAA55
def mbrLba : Nat := 0

/-- The partition `mbr_load` takes from the `struct mbr_part` at `part`, if it does. -/
def mbrEntry (mbr : Memory) (part : Nat) : Option PartEntry :=
  let startChs := read mbr (part + 1) 3
  let type := read mbr (part + 4) 1
  let endChs := read mbr (part + 5) 3
  let startLba := read mbr (part + 8) 4
  let sectorCount := read mbr (part + 12) 4
  if startChs = mbrLba ∨ endChs = mbrLba ∨ startLba = mbrLba ∨ sectorCount = 0 then none
  else some ⟨startLba, sectorCount, type.testBit 7⟩

/-- The loop of `mbr_load` over the last `count` partitions; `i` counts up. -/
def mbrLoadLoop (fuel : Nat) (disk : DiskPtr) (mbr : Memory) : Nat → Nat → Disks → Option Disks
  | 0, _, m => some m
  | count + 1, i, m =>
      match mbrEntry mbr (446 + i * 16) with
      | none => mbrLoadLoop fuel disk mbr count (i + 1) m
      | some part => do
          let m ← loadPart fuel m disk part
          mbrLoadLoop fuel disk mbr count (i + 1) m

/-- `mbr_load`. -/
def mbrLoad (fuel : Nat) (dev : Disk) (m : Disks) (disk : DiskPtr) : Option (Bool × Disks) :=
  match diskReadLba dev mbrLba 512 0 dev.stack with
  | (false, _) => some (false, m)
  | (true, mbr) =>
      if read mbr 510 2 ≠ mbrSignature then some (false, m)
      else (mbrLoadLoop fuel disk mbr 4 0 m).map fun m => (true, m)

/-! ## The scan -/

/-- The loaders one after the other; `coreGpt` is whether there is `CONFIG_CORE_GPT`. -/
def partLoad (coreGpt : Bool) (fuel : Nat) (dev : Disk) (m : Disks) (disk : DiskPtr) :
    Option (Bool × Disks) := do
  let (loaded, m) ← if coreGpt then gptLoad fuel dev m disk else some (false, m)
  if loaded then some (true, m) else mbrLoad fuel dev m disk

/-- `disk_part_scan`; `info` is the disk behind a `DISK_OP_INFO` that went well. -/
def diskPartScan (coreGpt : Bool) (fuel : Nat) (info : Option Disk) (m : Disks) (disk : DiskPtr) :
    Option (Bool × Disks) := do
  let m := m.setDisk disk { m.disks disk with available := false }
  let m ← diskPartBlock fuel m disk
  match info with
  | none => some (false, m)
  | some dev => do
      let (loaded, m) ← partLoad coreGpt fuel dev m disk
      if !loaded then some (false, m)
      else
        let m ← diskPartClear fuel m disk
        some (true, m.setDisk disk { m.disks disk with available := true })

end Sdx.Core
