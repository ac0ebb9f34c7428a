import Sdx.Core.DiskPart
import Sdx.Fs.Fat32Requests
import Sdx.Util.Timestamp

/-! # Mounting and lookup (`fat32_new` and `fat32_namei` of `fs/fat32/fat32.c`)

`fat32_new` takes the layout of a volume from its boot record and compares nothing in it with the
size of the partition. `fat32_namei` makes an inode out of the entry that `fat32_entry_from` finds.
-/

namespace Sdx.Fs

open Sdx.Lib.Bytes Sdx.Lib.Trace Sdx.Core Sdx.Util

/-! ## The boot record -/

/-- What `fat32_new` uses of `struct fat32_boot_record`. -/
structure Fat32BootRecord where
  clusterSectorCount : Nat
  reservedSectorCount : Nat
  fatCount : Nat
  fatSectorCount : Nat
  rootCluster : Nat
  fsinfoSector : Nat
  signature : Nat
  deriving DecidableEq

/-- `sizeof(struct fat32_boot_record)`. -/
def fat32BootRecordSize : Nat := 90

def fat32BootRecord (mem : Memory) : Fat32BootRecord where
  clusterSectorCount := read mem 13 1
  reservedSectorCount := read mem 14 2
  fatCount := read mem 16 1
  fatSectorCount := read mem 36 4
  rootCluster := read mem 44 4
  fsinfoSector := read mem 48 2
  signature := read mem 66 1

/-- `fat32_verify_extended`. -/
def fat32VerifyExtended (boot : Fat32BootRecord) : Bool :=
  boot.signature == 0x29 || boot.signature == 0x28

/-- `sizeof(struct fat32_fsinfo)`. -/
def fat32FsinfoSize : Nat := 512

/-- `fat32_verify_fsinfo`. -/
def fat32VerifyFsinfo (fsinfo : Memory) : Bool :=
  read fsinfo 0 4 == 0x41615252 && read fsinfo 484 4 == 0x61417272 &&
    read fsinfo 508 4 == 0xAA550000

/-- An `fs_t` that `fat32_new` has set up, at an address, with its `struct fat32_data`. -/
structure Fat32Fs where
  address : Nat
  volume : Fat32
  rootCluster : Nat

/-- The `fs_t` with the data that `fat32_new` stores for a boot record. -/
def fat32Fs (address : Nat) (disk : Disk) (part : DiskPart) (boot : Fat32BootRecord) : Fat32Fs where
  address := address
  volume :=
    { disk := disk
      start := part.start
      clusterSectorCount := boot.clusterSectorCount
      fatSector := boot.reservedSectorCount
      -- on `uint32_t`
      firstDataSector :=
        (boot.reservedSectorCount + boot.fatCount * boot.fatSectorCount) % 2 ^ 32 }
  rootCluster := boot.rootCluster

/-- `fat32_new` for the `fs_t` at an address, where the heap has room for the data or has not. -/
def fat32New (disk : Disk) (part : Option DiskPart) (address : Nat) (heapAlloc : Bool) :
    Except Int Fat32Fs :=
  match part with
  | none => .error (-eINVAL)
  | some part =>
      match diskReadLba disk (wrap64 (part.start + 0)) fat32BootRecordSize 0 disk.stack with
      | (false, _) => .error (-eFAULT)
      | (true, mem) =>
          let boot := fat32BootRecord mem
          if !fat32VerifyExtended boot then .error (-eFAULT)
          else
            match diskReadLba disk (wrap64 (part.start + boot.fsinfoSector)) fat32FsinfoSize 0
                disk.stack with
            | (false, _) => .error (-eFAULT)
            | (true, fsinfo) =>
                if !fat32VerifyFsinfo fsinfo then .error (-eFAULT)
                else if !heapAlloc then .error (-eFAULT)
                else .ok (fat32Fs address disk part boot)

/-! ## Inodes -/

namespace DirEntry

/-- Two bytes of the entry as a `uint16_t`. -/
def word (entry : DirEntry) (k : Fin 31) : Nat :=
  (entry.byte k.castSucc).toNat + 256 * (entry.byte k.succ).toNat

/-- `fat32_entry_cluster`. -/
def cluster (entry : DirEntry) : Nat := entry.word 26 + 2 ^ 16 * entry.word 20

def size (entry : DirEntry) : Nat := entry.word 28 + 2 ^ 16 * entry.word 30

def isDirectory (entry : DirEntry) : Bool := entry.attr &&& 0x10 != 0

end DirEntry

/-- `fat32_entry_time_to_timestamp` of a `struct creation_date` and a `struct creation_time`. -/
def fat32EntryTimeToTimestamp (date : Nat) (time : Option Nat) : Nat :=
  let year := date / 2 ^ 9
  let month := date / 2 ^ 5 % 2 ^ 4
  let day := date % 2 ^ 5
  match time with
  | none => timestampCalc (year + 1980) month day 0 0 0
  | some time => timestampCalc (year + 1980) month day (time / 2 ^ 11) (time / 2 ^ 5 % 2 ^ 6)
      (time % 2 ^ 5 * 2)

/-- `fs_inode_serial` of an inode with this address and size. -/
def fsInodeSerial (fs : Fat32Fs) (addr size : Nat) : Nat := wrap64 (fs.address + addr + size)

/-- The inode that `fat32_namei` gives the root directory. -/
def fat32RootInode (fs : Fat32Fs) : FsInode where
  type := .dir
  size := 0
  addr := fs.rootCluster
  serial := fsInodeSerial fs fs.rootCluster 0
  ctime := 0
  atime := 0
  mtime := 0
  mode := 0o777

/-- The inode that `fat32_namei` makes out of an entry of a directory. -/
def fat32EntryInode (fs : Fat32Fs) (dir : FsInode) (entry : DirEntry) : FsInode where
  type := if entry.isDirectory then .dir else .file
  size := entry.size
  addr := entry.cluster
  serial := fsInodeSerial fs entry.cluster entry.size
  ctime := fat32EntryTimeToTimestamp (entry.word 16) (some (entry.word 14))
  atime := fat32EntryTimeToTimestamp (entry.word 18) none
  mtime := fat32EntryTimeToTimestamp (entry.word 24) (some (entry.word 22))
  mode := dir.mode

/-- What `fat32_namei` returns for what `fat32_entry_from` did. -/
def fat32NameiResult (fs : Fat32Fs) (dir : FsInode) : Int × Option DirEntry → Except Int FsInode
  | (err, some entry) => if err ≠ 0 then .error err else .ok (fat32EntryInode fs dir entry)
  | (err, none) => .error err

/-- `fat32_namei`, with the number of clusters the lookup may take. -/
def fat32Namei (fs : Fat32Fs) (dir : Option FsInode) (name : List UInt8) (fuel : Nat) :
    Option (Except Int FsInode) :=
  match dir with
  | none => some (.ok (fat32RootInode fs))
  | some dir => (fat32EntryFrom fs.volume dir.addr name fuel).map (fat32NameiResult fs dir)

/-- `fat32_namei` with its requests. -/
def fat32NameiTraced (fs : Fat32Fs) (dir : Option FsInode) (name : List UInt8) (fuel : Nat) :
    Traced DiskRequest (Option (Except Int FsInode)) :=
  match dir with
  | none => pure (some (.ok (fat32RootInode fs)))
  | some dir => do
      let result ← fat32EntryFromTraced fs.volume dir.addr name fuel
      pure (result.map (fat32NameiResult fs dir))

section

variable {fs : Fat32Fs} {disk : Disk} {part : DiskPart} {address : Nat} {heapAlloc : Bool}
  {dir : Option FsInode} {name : List UInt8} {fuel : Nat}

/-- What `fat32_new` sets up comes from a boot record. -/
theorem fat32New_ok (made : fat32New disk (some part) address heapAlloc = .ok fs) :
    ∃ boot, fs = fat32Fs address disk part boot := by
  simp only [fat32New] at made
  split at made
  · cases made
  next mem _ =>
  split at made
  · cases made
  split at made
  · cases made
  split at made
  · cases made
  split at made
  · cases made
  · exact ⟨fat32BootRecord mem, (Except.ok.inj made).symm⟩

/-- A read into a local structure of at most a few sectors: its fields are those on the disk. -/
theorem readLba_fields {lba size : Nat} (sized : 0 < disk.sectorSize)
    (readable : ∀ lba n, n ≠ 0 → disk.answers lba n) (some' : size ≠ 0)
    (fits : lba + size + 1 < 2 ^ 64) : ∃ mem, diskReadLba disk lba size 0 disk.stack = (true, mem) ∧
      ∀ k w, k + w ≤ size →
        read mem k w = read (fun x => disk.data (lba * disk.sectorSize + x)) k w := by
  have sectors : size / disk.sectorSize ≤ size := Nat.div_le_self ..
  have done := @diskReadLba_readable disk lba size 0 disk.stack sized some' (by omega)
    fun lba' n some'' _ _ => readable lba' n some''
  cases result : diskReadLba disk lba size 0 disk.stack with
  | mk ok mem =>
      rw [result] at done
      subst done
      refine ⟨mem, rfl, fun k w within => read_congr fun x _ high => ?_⟩
      have here : x < (slice disk.data (lba * disk.sectorSize) size).length := by
        rw [length_slice]
        omega
      have value := @store_inside disk.stack 0 _ _ here
      rw [Nat.zero_add, getElem_slice] at value
      rw [diskReadLba_true sized (by omega) result, value]

/-- `fat32_new` accepts a partition that can be read and has the signatures. -/
theorem fat32New_accepts (sized : 0 < disk.sectorSize)
    (readable : ∀ lba n, n ≠ 0 → disk.answers lba n) (fits : part.start + 2 ^ 17 < 2 ^ 64)
    {boot : Fat32BootRecord}
    (record : fat32BootRecord (fun x => disk.data (part.start * disk.sectorSize + x)) = boot)
    (extended : fat32VerifyExtended boot = true)
    (fsinfo : fat32VerifyFsinfo (fun x =>
      disk.data ((part.start + boot.fsinfoSector) * disk.sectorSize + x)) = true) :
    fat32New disk (some part) address true = .ok (fat32Fs address disk part boot) := by
  have sector_lt : boot.fsinfoSector < 256 ^ 2 := by
    rw [← record]
    exact @read_lt (fun x => disk.data (part.start * disk.sectorSize + x)) 48 2
  obtain ⟨mem, bootRead, field⟩ := @readLba_fields disk part.start fat32BootRecordSize sized
    readable (by decide) (by rw [fat32BootRecordSize]; omega)
  obtain ⟨info, infoRead, field'⟩ := @readLba_fields disk (part.start + boot.fsinfoSector)
    fat32FsinfoSize sized readable (by decide) (by rw [fat32FsinfoSize]; omega)
  have sameRecord : fat32BootRecord mem = boot := by
    rw [← record]
    unfold fat32BootRecord
    rw [field 13 1 (by decide), field 14 2 (by decide), field 16 1 (by decide),
      field 36 4 (by decide), field 44 4 (by decide), field 48 2 (by decide),
      field 66 1 (by decide)]
  have sameInfo : fat32VerifyFsinfo info = true := by
    rw [← fsinfo]
    unfold fat32VerifyFsinfo
    rw [field' 0 4 (by decide), field' 484 4 (by decide), field' 508 4 (by decide)]
  simp only [fat32New]
  rw [Nat.add_zero, wrap64_of_lt (by omega), bootRead]
  dsimp only
  rw [sameRecord, extended, wrap64_of_lt (by omega), infoRead]
  dsimp only
  rw [sameInfo]
  rfl

@[simp] theorem fat32NameiTraced_value :
    (fat32NameiTraced fs dir name fuel).value = fat32Namei fs dir name fuel := by
  cases dir with
  | none => rfl
  | some dir =>
      rw [fat32NameiTraced, fat32Namei, Traced.value_bind, fat32EntryFromTraced_value]
      rfl

end

end Sdx.Fs
