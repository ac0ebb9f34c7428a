import Sdx.Core.Disk
import Sdx.Fs.Vfs
import Sdx.Util.Str

/-! # The FAT32 driver (`fs/fat32/fat32.c`, `fs/fat32/entry.c`)

A volume is the disk it is on and what `fat32_new` found in its boot record. A directory
cluster is the list of its entries of 32 bytes; a scan that leaves the cluster buffer has no
result. The walks from one cluster to the next carry a number of steps, since the FAT may hold
a cycle.
-/

namespace Sdx.Fs

open Sdx.Lib.Bytes Sdx.Core Sdx.Util

/-- The volume: `struct fat32_data`, the partition it was found on and its disk. -/
structure Fat32 where
  disk : Disk
  start : Nat
  clusterSectorCount : Nat
  fatSector : Nat
  firstDataSector : Nat

namespace Fat32

/-- `fs_sector_size`. -/
def sectorSize (fs : Fat32) : Nat := fs.disk.sectorSize

/-- `fat32_data_bytes_per_cluster`. -/
def bytesPerCluster (fs : Fat32) : Nat := wrap64 (fs.sectorSize * fs.clusterSectorCount)

/-- `fat32_data_cluster_to_sector`. -/
def clusterToSector (fs : Fat32) (cluster : Nat) : Nat :=
  wrap64 (fs.firstDataSector + wrap64 (fs.clusterSectorCount * sub64 cluster 2))

/-- `fat32_data_cluster_to_bytes`. -/
def clusterToBytes (fs : Fat32) (cluster : Nat) : Nat :=
  wrap64 (fs.clusterToSector cluster * fs.sectorSize)

/-- `__fat32_read_raw`. -/
def readRaw (fs : Fat32) (lba sectorCount buf : Nat) (mem : Memory) : Bool × Memory :=
  diskDo fs.disk (wrap64 (fs.start + lba)) sectorCount buf mem

/-- `__fat32_read_cluster`. -/
def readCluster (fs : Fat32) (cluster buf : Nat) (mem : Memory) : Bool × Memory :=
  fs.readRaw (fs.clusterToSector cluster) fs.clusterSectorCount buf mem

/-- `__fat32_read`. -/
def read (fs : Fat32) (offset size buf : Nat) (mem : Memory) : Bool × Memory :=
  diskRead fs.disk (wrap64 (offset + wrap64 (fs.start * fs.sectorSize))) size buf mem

end Fat32

/-- `fat32_cluster_next`: the next cluster, or zero. -/
def fat32ClusterNext (fs : Fat32) (cluster : Nat) : Nat :=
  let offset := wrap64 (cluster * 4) % fs.sectorSize % 2 ^ 32
  match fs.readRaw fs.fatSector 1 0 fs.disk.stack with
  | (false, _) => 0
  | (true, fatTable) =>
      let cluster := read fatTable offset 4 &&& 0x0FFFFFFF
      if cluster ≥ 0x0FFFFFF8 ∨ cluster = 0x0FFFFFF7 then 0 else cluster

/-! ## Directory entries -/

/-- `struct fat32_dir_entry`, which is also read as `struct fat32_lfn`. -/
structure DirEntry where
  bytes : Vector UInt8 32
  deriving DecidableEq

namespace DirEntry

def byte (entry : DirEntry) (k : Fin 32) : UInt8 := entry.bytes[k]

/-- The `name` field. -/
def name (entry : DirEntry) : List UInt8 := entry.bytes.toList.take 11

def attr (entry : DirEntry) : UInt8 := entry.byte 11

/-- `fat32_entry_is_last`. -/
def isLast (entry : DirEntry) : Bool := entry.byte 0 == 0

/-- `fat32_entry_is_unused`. -/
def isUnused (entry : DirEntry) : Bool := entry.byte 0 == 0xe5

end DirEntry

/-- `FAT32_ATTR_LFN`. -/
def fat32AttrLfn : UInt8 := 0x0f

/-- `FAT32_CHARS_PER_LFN`. -/
def fat32CharsPerLfn : Nat := 13

/-- `fat32_lfn_order`. -/
def fat32LfnOrder (lfn : DirEntry) : Nat := (lfn.byte 0 &&& 0b11111).toNat

/-- `fat32_lfn_is_last`. -/
def fat32LfnIsLast (lfn : DirEntry) : Bool := (lfn.byte 0 >>> 6) &&& 1 != 0

/-- A character ends the section it is in. -/
def lfnEnds (c : UInt8) : Bool := c == 0 || c == 0xff

/-- The low bytes of `chars_first`, `chars_mid` and `chars_last`. -/
def lfnChars (lfn : DirEntry) : List UInt8 × List UInt8 × List UInt8 :=
  ([1, 3, 5, 7, 9].map lfn.byte, [14, 16, 18, 20, 22, 24].map lfn.byte, [28, 30].map lfn.byte)

/-- `__fat32_lfn_read`: the bytes it puts into the buffer. -/
def fat32LfnRead (lfn : DirEntry) : List UInt8 :=
  let (first, mid, last) := lfnChars lfn
  first.takeWhile (!lfnEnds ·) ++ mid.takeWhile (!lfnEnds ·) ++ last.takeWhile (!lfnEnds ·)

/-- `__fat32_lfn_calc_size`. -/
def fat32LfnCalcSize (lfn : DirEntry) (lastSize : Nat) : Nat :=
  if !fat32LfnIsLast lfn then 0
  else if fat32LfnOrder lfn ≤ 0 then 0
  else (fat32LfnOrder lfn - 1) * fat32CharsPerLfn + lastSize

/-! ## Names -/

/-- `name_check`: the error, if there is one. -/
def nameCheck (size : Int) (s : Nat) : Option Int :=
  if s > nameMax then some (-eNAMETOOLONG)
  else if (s : Int) > size then some (-eOVERFLOW)
  else none

/-- `name_append`, for one character after the other from `nameIndex` on: `name_index` after
    the last one, or the error, and the memory. -/
def nameAppend (size : Int) (name : Nat) : Nat → Memory → List UInt8 → Int × Memory
  | nameIndex, mem, [] => (nameIndex, mem)
  | nameIndex, mem, c :: cs =>
      match nameCheck size (nameIndex + 1) with
      | some err => (err, mem)
      | none => nameAppend size name (nameIndex + 1) (store mem (name + nameIndex) [c]) cs

/-- The characters of the `name` field from the `i`-th on, up to the first space. -/
def shortChars : Nat → List UInt8 → List UInt8
  | _, [] => []
  | i, c :: cs =>
      if c = 0x20 then []
      else (if i = 8 then [0x2e] else []) ++ c :: shortChars (i + 1) cs

/-- What parsing one entry comes to: the name is done, or the next entry is needed. -/
inductive Parsed where
  | done (value : Int) (mem : Memory)
  | more (lfnTotal nameIndex : Nat) (mem : Memory)

/-- `parse_entry` of `__fat32_entry_name`, up to the search for the next entry. -/
def parseEntry (size : Int) (name : Nat) (lfnTotal nameIndex : Nat) (mem : Memory)
    (entry : DirEntry) : Parsed :=
  if entry.attr ≠ fat32AttrLfn then
    let chars := if nameIndex ≠ 0 then [] else shortChars 0 entry.name
    let (value, mem) := nameAppend size name nameIndex mem (chars ++ [0])
    .done value mem
  else
    let lfnBuffer := fat32LfnRead entry
    let lfnSize := lfnBuffer.length
    let total := if lfnTotal = 0 then fat32LfnCalcSize entry lfnSize else lfnTotal
    let index := if lfnTotal = 0 then total else nameIndex
    if total = 0 then .more total index mem
    else
      let index := (index + (2 ^ 16 - lfnSize)) % 2 ^ 16
      match nameCheck size (index + lfnSize) with
      | some err => .done err mem
      | none =>
          let mem := store mem (name + index) lfnBuffer
          .more total (if index = 0 then total else index) mem

/-- What `__fat32_entry_name` leaves: its value, the memory, and the entries from `*entry` on. -/
structure EntryName where
  value : Int
  mem : Memory
  entry : List DirEntry

/-- `__fat32_entry_name` from the search for the next entry on. -/
def nextEntryName (size : Int) (name : Nat) : Nat → Nat → Memory → List DirEntry → Option EntryName
  | _, _, _, [] => none
  | lfnTotal, nameIndex, mem, entry :: rest =>
      if entry.isLast then some ⟨-eRANGE, mem, entry :: rest⟩
      else if entry.isUnused then nextEntryName size name lfnTotal nameIndex mem rest
      else
        match parseEntry size name lfnTotal nameIndex mem entry with
        | .done value mem => some ⟨value, mem, entry :: rest⟩
        | .more lfnTotal nameIndex mem => nextEntryName size name lfnTotal nameIndex mem rest

/-- `__fat32_entry_name`. -/
def fat32EntryName (size : Int) (name : Nat) (mem : Memory) : List DirEntry → Option EntryName
  | [] => none
  | entry :: rest =>
      match parseEntry size name 0 0 mem entry with
      | .done value mem => some ⟨value, mem, entry :: rest⟩
      | .more lfnTotal nameIndex mem => nextEntryName size name lfnTotal nameIndex mem rest

/-! ## Listing and lookup -/

/-- The entries of a cluster in a buffer at zero. -/
def clusterEntries (fs : Fat32) (buffer : Memory) : List DirEntry :=
  (List.range (fs.bytesPerCluster / 32)).map fun i => ⟨Vector.ofFn fun k => buffer (32 * i + k)⟩

/-- The entries that the functions read at a cluster, unless the read fails. -/
def readEntries (fs : Fat32) (cluster : Nat) : Option (List DirEntry) :=
  match fs.readCluster cluster 0 fs.disk.stack with
  | (false, _) => none
  | (true, clusterBuffer) => some (clusterEntries fs clusterBuffer)

/-- Where the loop of `fat32_entry_get` over a cluster stops. -/
inductive GetScan where
  /-- The loop left the buffer. -/
  | outside
  /-- The last entry of the directory in this cluster, with what is left of the offset. -/
  | last (offset : Nat)
  | found (entry : List DirEntry)

/-- The loop of `fat32_entry_get` over a cluster. -/
def getScan : Nat → List DirEntry → GetScan
  | _, [] => .outside
  | offset, entry :: rest =>
      if entry.isLast then .last offset
      else if entry.isUnused then getScan offset rest
      else if offset ≠ 0 ∧ entry.attr = fat32AttrLfn then getScan offset rest
      else if offset = 0 then .found (entry :: rest)
      else getScan (offset - 1) rest

/-- `fat32_entry_get`: the value it returns, and the memory with the name in `buffer`. -/
def fat32EntryGet (fs : Fat32) (size : Int) (buffer : Nat) (mem : Memory) :
    Nat → Nat → Nat → Option (Int × Memory)
  | 0, _, _ => none
  | fuel + 1, cluster, offset =>
      match readEntries fs cluster with
      | none => some (-eFAULT, mem)
      | some entries =>
          match getScan offset entries with
          | .outside => none
          | .last offset =>
              let cluster := fat32ClusterNext fs cluster
              if cluster = 0 then some (-eRANGE, mem)
              else fat32EntryGet fs size buffer mem fuel cluster offset
          | .found entry =>
              (fat32EntryName size buffer mem entry).map fun result => (result.value, result.mem)

/-- Where the loop of `fat32_entry_from` over a cluster stops, with the name buffer. -/
inductive FromScan where
  | outside
  | last (nameBuffer : Memory)
  | found (entry : DirEntry)

/-- The loop of `fat32_entry_from` over a cluster; every pass uses up an entry. -/
def fromScan (size : Int) (name : List UInt8) : Nat → Memory → List DirEntry → FromScan
  | 0, _, _ => .outside
  | _, _, [] => .outside
  | passes + 1, nameBuffer, cur :: rest =>
      if cur.isLast then .last nameBuffer
      else if cur.isUnused then fromScan size name passes nameBuffer rest
      else
        match fat32EntryName size 0 nameBuffer (cur :: rest) with
        | none => .outside
        | some result =>
            if result.value < 0 then fromScan size name passes result.mem result.entry.tail
            else
              match result.entry with
              | [] => .outside
              | cur :: rest =>
                  if strcmp result.mem 0 name = 0 then .found cur
                  else fromScan size name passes result.mem rest

/-- The clusters that `fat32_entry_from` scans. -/
def fromClusters (fs : Fat32) (size : Int) (name : List UInt8) :
    Nat → Nat → Memory → Option (Int × Option DirEntry)
  | 0, _, _ => none
  | fuel + 1, cluster, nameBuffer =>
      match readEntries fs cluster with
      | none => some (-eFAULT, none)
      | some entries =>
          match fromScan size name entries.length nameBuffer entries with
          | .outside => none
          | .last nameBuffer =>
              let cluster := fat32ClusterNext fs cluster
              if cluster = 0 then some (-eNOENT, none)
              else fromClusters fs size name fuel cluster nameBuffer
          | .found entry => some (0, some entry)

/-- `fat32_entry_from`: the value it returns, and the entry it copies. -/
def fat32EntryFrom (fs : Fat32) (cluster : Nat) (name : List UInt8) (fuel : Nat) :
    Option (Int × Option DirEntry) :=
  let nameSize := name.length + 1
  if nameSize > nameMax + 1 then some (-eNAMETOOLONG, none)
  else fromClusters fs nameSize name fuel cluster fs.disk.stack

/-! ## Reading -/

/-- The loop of `fat32_read` that skips clusters: the cluster and the offset into it. A cluster
    is not empty, so `offset + 1` passes are enough. -/
def skipClusters (fs : Fat32) : Nat → Nat → Nat → Option (Nat × Nat)
  | 0, _, _ => none
  | passes + 1, cluster, offset =>
      if offset > fs.bytesPerCluster then
        let cluster := fat32ClusterNext fs cluster
        if cluster = 0 then none
        else skipClusters fs passes cluster (offset - fs.bytesPerCluster)
      else some (cluster, offset)

/-- The loop of `fat32_read` that copies clusters, and the copy of what is left after it. As
    above, `curSize + 1` passes are enough. -/
def copyClusters (fs : Fat32) (size : Nat) : Nat → Nat → Nat → Nat → Nat → Memory → Int × Memory
  | 0, _, _, _, _, mem => (- eIO, mem)
  | passes + 1, cluster, offset, curSize, buffer, mem =>
      let clusterSize := fs.bytesPerCluster
      let at' := wrap64 (fs.clusterToBytes cluster + offset)
      if curSize > clusterSize then
        match fs.readRaw at' clusterSize buffer mem with
        | (false, mem) => (- eIO, mem)
        | (true, mem) =>
            let cluster := fat32ClusterNext fs cluster
            if cluster = 0 then (-eINVAL, mem)
            else copyClusters fs size passes cluster 0 (curSize - clusterSize)
              (buffer + clusterSize) mem
      else if curSize > 0 then
        match fs.read at' curSize buffer mem with
        | (false, mem) => (- eIO, mem)
        | (true, mem) => (size, mem)
      else (size, mem)

/-- `fat32_read` on an inode, with the number of clusters a directory scan may take. -/
def fat32Read (fs : Fat32) (inode : FsInode) (offset size buffer : Nat) (mem : Memory)
    (fuel : Nat) : Option (Int × Memory) :=
  if buffer = 0 ∨ size = 0 then some (-eINVAL, mem)
  else
    match inode.type with
    | .dir =>
        -- the size becomes an `int64_t`
        let result := fat32EntryGet fs (BitVec.ofNat 64 size).toInt buffer mem fuel inode.addr offset
        result.map fun (err, mem) => if err = -eRANGE then (0, mem) else (err, mem)
    | .file =>
        if offset ≥ inode.size then some (0, mem)
        else
          let size := if size > inode.size - offset then inode.size - offset else size
          match skipClusters fs (offset + 1) inode.addr offset with
          | none => some (-eINVAL, mem)
          | some (cluster, offset) =>
              some (copyClusters fs size (size + 1) cluster offset size buffer mem)
    | .link => some (-eINVAL, mem)

end Sdx.Fs
