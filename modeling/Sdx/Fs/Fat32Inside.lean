import Sdx.Fs.Fat32Namei
import Sdx.Fs.Fat32Volume

/-! # The sectors the driver asks for

Where the FAT and the data clusters lie in the partition and the successors of data clusters are
data clusters, the driver stays in the partition on every inode that starts in a data cluster.
Nothing checks the cluster numbers of a volume, so a boot record can lead it out.
-/

namespace Sdx.Fs

open Sdx.Lib.Bytes Sdx.Lib.Trace Sdx.Core

/-- The request is for sectors of the partition. -/
def InPart (part : DiskPart) : DiskRequest → Prop :=
  DiskRequest.Between part.start (part.start + part.size)

instance (part : DiskPart) (r : DiskRequest) : Decidable (InPart part r) :=
  inferInstanceAs (Decidable (part.start ≤ r.lba ∧ r.lba + r.sectorCount ≤ part.start + part.size))

/-- A volume whose FAT and this many data clusters are in the partition, where the words that are
    taken for the successors of data clusters lead to data clusters or nowhere. -/
structure Fat32Confined (fs : Fat32) (part : DiskPart) (clusters : Nat) : Prop where
  sector : 0 < fs.sectorSize
  sector_words : 4 ∣ fs.sectorSize
  size_lt : (part.start + part.size) * fs.sectorSize < 2 ^ 64
  fat_lt : fs.fatSector < part.size
  clusters_le : fs.firstDataSector + fs.clusterSectorCount * clusters ≤ part.size
  clusters_lt : clusters + 2 ≤ 0x0FFFFFF7
  links : ∀ cluster, IsCluster clusters cluster →
    fatEnds (fs.fatEntry (Fat32Volume.seen fs cluster)) ∨
      IsCluster clusters (fs.fatEntry (Fat32Volume.seen fs cluster))

/-- Where in its cluster a read at an offset starts; a cluster is left behind its end only. -/
def offsetInCluster (clusterSize offset : Nat) : Nat :=
  if offset ≤ clusterSize then offset else (offset - 1) % clusterSize + 1

/-- The read takes no byte, or only bytes of one data cluster of a file, or it is for an entry of a
    directory in a data cluster. -/
def ReadsConfined (fs : Fat32) (clusters : Nat) (inode : FsInode) (offset size : Nat) : Prop :=
  match inode.type with
  | .dir => IsCluster clusters inode.addr
  | .file => offset < inode.size → IsCluster clusters inode.addr ∧
      offsetInCluster fs.bytesPerCluster offset + min size (inode.size - offset) ≤
        fs.bytesPerCluster
  | .link => True

instance (fs : Fat32) (clusters : Nat) (inode : FsInode) (offset size : Nat) :
    Decidable (ReadsConfined fs clusters inode offset size) := by
  unfold ReadsConfined
  split <;> infer_instance

namespace Fat32Confined

variable {fs : Fat32} {part : DiskPart} {clusters cluster cluster' buf offset offset' size fuel passes
  curSize : Nat} {mem : Memory} {name : List UInt8} {inode : FsInode}

theorem lba_lt (confined : Fat32Confined fs part clusters) : part.start + part.size < 2 ^ 64 :=
  Nat.lt_of_le_of_lt (Nat.le_mul_of_pos_right _ confined.sector) confined.size_lt

theorem fat (confined : Fat32Confined fs part clusters) (here : fs.start = part.start) :
    (fs.readRawTraced fs.fatSector 1 buf mem).Only (InPart part) := by
  have bound := confined.lba_lt
  have inside := confined.fat_lt
  refine .request ?_
  rw [here, wrap64_of_lt (by omega)]
  exact ⟨Nat.le_add_right .., by dsimp only; omega⟩

/-- The successor of a data cluster is a data cluster. -/
theorem clusterNext (confined : Fat32Confined fs part clusters) (here : fs.start = part.start)
    (is : IsCluster clusters cluster) (more : fat32ClusterNext fs cluster ≠ 0) :
    IsCluster clusters (fat32ClusterNext fs cluster) := by
  have bound := confined.lba_lt
  have inside := confined.fat_lt
  have small : cluster < 0x0FFFFFF7 := Nat.lt_of_lt_of_le is.2 confined.clusters_lt
  cases answer : fs.readRaw fs.fatSector 1 0 fs.disk.stack with
  | mk ok table =>
      cases ok with
      | false =>
          rw [fat32ClusterNext, answer] at more
          exact absurd rfl more
      | true =>
          rw [Fat32Volume.clusterNext_read confined.sector confined.sector_words small
            (by omega) answer] at more ⊢
          split at more
          · exact absurd rfl more
          next low =>
          rw [if_neg low]
          obtain (zero | high) | is' := confined.links cluster is
          · exact absurd zero more
          · exact absurd high low
          · exact is'

theorem clusterNext_only (confined : Fat32Confined fs part clusters) (here : fs.start = part.start) :
    (fat32ClusterNextTraced fs cluster).Only (InPart part) := by
  refine .bind (confined.fat here) ?_
  split
  · exact .pure
  · exact .pure

/-- What goes on with the next cluster, if there is one, goes on with a data cluster. -/
theorem thenNext (confined : Fat32Confined fs part clusters) (here : fs.start = part.start)
    (is : IsCluster clusters cluster) {α : Type} {stop : Traced DiskRequest α}
    {more : Nat → Traced DiskRequest α} (stops : stop.Only (InPart part))
    (goes : ∀ next, IsCluster clusters next → (more next).Only (InPart part)) :
    (fat32ClusterNextTraced fs cluster >>= fun next =>
      if next = 0 then stop else more next).Only (InPart part) := by
  refine .bind (confined.clusterNext_only here) ?_
  rw [fat32ClusterNextTraced_value]
  split
  · exact stops
  · next next_ne => exact goes _ (confined.clusterNext here is next_ne)

/-- The sectors of a data cluster are in the partition. -/
theorem cluster_le (confined : Fat32Confined fs part clusters) (is : IsCluster clusters cluster) :
    fs.clusterToSector cluster + fs.clusterSectorCount ≤ part.size := by
  have within := @Fat32Volume.within fs clusters cluster is
  have bound := confined.lba_lt
  have le := confined.clusters_le
  have clusters_lt := confined.clusters_lt
  obtain ⟨low, high⟩ := is
  have product : fs.clusterSectorCount * (cluster - 2) < 2 ^ 64 := by omega
  rw [Fat32.clusterToSector, sub64_of_le low (by omega), wrap64_of_lt product,
    wrap64_of_lt (by omega)]
  omega

theorem readEntries_only (confined : Fat32Confined fs part clusters) (here : fs.start = part.start)
    (is : IsCluster clusters cluster) : (readEntriesTraced fs cluster).Only (InPart part) := by
  have bound := confined.lba_lt
  have inside := confined.cluster_le is
  refine .bind (.request ?_) ?_
  · rw [here, wrap64_of_lt (by omega)]
    exact ⟨Nat.le_add_right .., by dsimp only; omega⟩
  · split
    · exact .pure
    · exact .pure

/-- A listing goes from data cluster to data cluster. -/
theorem entryGet_only (confined : Fat32Confined fs part clusters) (here : fs.start = part.start)
    {bytes : Int} (is : IsCluster clusters cluster) :
    (fat32EntryGetTraced fs bytes buf mem fuel cluster offset).Only (InPart part) := by
  induction fuel generalizing cluster offset with
  | zero => exact .pure
  | succ fuel ih =>
      refine .bind (confined.readEntries_only here is) ?_
      split
      · exact .pure
      split
      · exact .pure
      · exact confined.thenNext here is .pure fun next => ih
      · exact .pure

/-- So does a lookup. -/
theorem fromClusters_only (confined : Fat32Confined fs part clusters)
    (here : fs.start = part.start) {bytes : Int} (is : IsCluster clusters cluster) :
    (fromClustersTraced fs bytes name fuel cluster mem).Only (InPart part) := by
  induction fuel generalizing cluster mem with
  | zero => exact .pure
  | succ fuel ih =>
      refine .bind (confined.readEntries_only here is) ?_
      split
      · exact .pure
      split
      · exact .pure
      · exact confined.thenNext here is .pure fun next => ih
      · exact .pure

theorem entryFrom_only (confined : Fat32Confined fs part clusters) (here : fs.start = part.start)
    (is : IsCluster clusters cluster) :
    (fat32EntryFromTraced fs cluster name fuel).Only (InPart part) := by
  simp only [fat32EntryFromTraced]
  split
  · exact .pure
  · exact confined.fromClusters_only here is

/-! ## Files -/

theorem skipClusters_only (confined : Fat32Confined fs part clusters)
    (here : fs.start = part.start) (is : IsCluster clusters cluster) :
    (skipClustersTraced fs passes cluster offset).Only (InPart part) := by
  induction passes generalizing cluster offset with
  | zero => exact .pure
  | succ passes ih =>
      rw [skipClustersTraced]
      split
      · exact confined.thenNext here is .pure fun next => ih
      · exact .pure

theorem offsetInCluster_sub {clusterSize : Nat} (behind : clusterSize < offset) :
    offsetInCluster clusterSize (offset - clusterSize) = offsetInCluster clusterSize offset := by
  unfold offsetInCluster
  rw [if_neg (Nat.not_le.mpr behind)]
  have shape : offset - 1 = offset - clusterSize - 1 + clusterSize := by omega
  split
  · rw [shape, Nat.add_mod_right, Nat.mod_eq_of_lt]
    · omega
    · omega
  · rw [shape, Nat.add_mod_right]

/-- The loop that skips clusters ends in a data cluster, at the offset in it. -/
theorem skipClusters_some (confined : Fat32Confined fs part clusters)
    (here : fs.start = part.start) (is : IsCluster clusters cluster)
    (found : skipClusters fs passes cluster offset = some (cluster', offset')) :
    IsCluster clusters cluster' ∧ offset' = offsetInCluster fs.bytesPerCluster offset := by
  induction passes generalizing cluster offset with
  | zero => cases found
  | succ passes ih =>
      rw [skipClusters] at found
      split at found
      · next behind =>
        dsimp only at found
        split at found
        · cases found
        next more =>
        obtain ⟨is', eq⟩ := ih (confined.clusterNext here is more) found
        exact ⟨is', eq.trans (offsetInCluster_sub behind)⟩
      · next inside =>
        obtain ⟨rfl, rfl⟩ := Prod.mk.inj (Option.some.inj found)
        exact ⟨is, (if_pos (Nat.not_lt.mp inside)).symm⟩

/-- The bytes of a data cluster are read from its sectors. -/
theorem read_only (confined : Fat32Confined fs part clusters) (here : fs.start = part.start)
    (is : IsCluster clusters cluster) (within : offset + size ≤ fs.bytesPerCluster) :
    (fs.readTraced (wrap64 (fs.clusterToBytes cluster + offset)) size buf mem).Only
      (InPart part) := by
  have sector := confined.sector
  have inside := confined.cluster_le is
  have total := confined.size_lt
  have product : fs.bytesPerCluster ≤ fs.sectorSize * fs.clusterSectorCount := Nat.mod_le ..
  have sectors : (part.start + fs.clusterToSector cluster + fs.clusterSectorCount) *
      fs.sectorSize ≤ (part.start + part.size) * fs.sectorSize :=
    Nat.mul_le_mul_right _ (by omega)
  have bytes := sectors
  rw [Nat.add_mul, Nat.add_mul, Nat.mul_comm fs.clusterSectorCount] at bytes
  have address : wrap64 (wrap64 (fs.clusterToBytes cluster + offset) +
      wrap64 (fs.start * fs.sectorSize)) =
      (part.start + fs.clusterToSector cluster) * fs.sectorSize + offset := by
    have start_lt : part.start * fs.sectorSize < 2 ^ 64 := by omega
    have first_lt : fs.clusterToSector cluster * fs.sectorSize < 2 ^ 64 := by omega
    have offset_lt : fs.clusterToSector cluster * fs.sectorSize + offset < 2 ^ 64 := by omega
    rw [here, Fat32.clusterToBytes, wrap64_of_lt start_lt, wrap64_of_lt first_lt,
      wrap64_of_lt offset_lt, wrap64_of_lt (by omega), Nat.add_mul]
    omega
  rw [Fat32.readTraced, address]
  refine (diskReadTraced_between sector ?_ (Nat.lt_of_le_of_lt sectors total)).mono ?_
  · change _ ≤ _ * fs.sectorSize
    rw [Nat.add_mul _ fs.clusterSectorCount, Nat.mul_comm fs.clusterSectorCount]
    omega
  · rintro r ⟨low, high⟩
    have first : part.start + fs.clusterToSector cluster ≤
        ((part.start + fs.clusterToSector cluster) * fs.sectorSize + offset) / fs.sectorSize :=
      (Nat.le_div_iff_mul_le sector).mpr (Nat.le_add_right ..)
    refine ⟨?_, ?_⟩
    · exact Nat.le_trans (Nat.le_trans (Nat.le_add_right ..) first) low
    · exact Nat.le_trans high (by omega)

/-- A copy of what one cluster holds. -/
theorem copyClusters_only (confined : Fat32Confined fs part clusters)
    (here : fs.start = part.start) (is : IsCluster clusters cluster)
    (within : offset + curSize ≤ fs.bytesPerCluster) :
    (copyClustersTraced fs size (passes + 1) cluster offset curSize buf mem).Only
      (InPart part) := by
  rw [copyClustersTraced, if_neg (by omega)]
  split
  · refine .bind (confined.read_only here is within) ?_
    split
    · exact .pure
    · exact .pure
  · exact .pure

theorem readInode_only (confined : Fat32Confined fs part clusters) (here : fs.start = part.start)
    (reads : ReadsConfined fs clusters inode offset size) :
    (fat32ReadTraced fs inode offset size buf mem fuel).Only (InPart part) := by
  unfold ReadsConfined at reads
  simp only [fat32ReadTraced]
  split
  · exact .pure
  split
  · next directory =>
    rw [directory] at reads
    exact .bind (confined.entryGet_only here reads) .pure
  · next file =>
    rw [file] at reads
    split
    · exact .pure
    next some' =>
    obtain ⟨is, one⟩ := reads (Nat.not_le.mp some')
    have bytes : (if size > inode.size - offset then inode.size - offset else size) =
        min size (inode.size - offset) := by
      rw [Nat.min_def]
      split <;> split <;> omega
    refine .bind (confined.skipClusters_only here is) ?_
    rw [skipClustersTraced_value, bytes]
    split
    · exact .pure
    next cluster' offset' found =>
    obtain ⟨is', eq⟩ := confined.skipClusters_some here is found
    rw [← eq] at one
    exact .bind (confined.copyClusters_only here is' one) .pure
  · exact .pure

end Fat32Confined

/-- The inodes that `fat32_namei` hands out. -/
inductive Fat32Inode (fs : Fat32Fs) : FsInode → Prop where
  | root {name fuel inode} (found : fat32Namei fs none name fuel = some (.ok inode)) :
      Fat32Inode fs inode
  | entry {dir name fuel inode} (of : Fat32Inode fs dir)
      (found : fat32Namei fs (some dir) name fuel = some (.ok inode)) : Fat32Inode fs inode

/-- Whatever `fat32_new` accepts on this partition, no lookup in and no read of an inode of it asks
    for a sector outside. -/
def StaysInPart (disk : Disk) (part : DiskPart) : Prop :=
  ∀ address heapAlloc fs, fat32New disk (some part) address heapAlloc = .ok fs →
    ∀ inode, Fat32Inode fs inode →
      (∀ name fuel, (fat32NameiTraced fs (some inode) name fuel).Only (InPart part)) ∧
      ∀ offset size buffer mem fuel,
        (fat32ReadTraced fs.volume inode offset size buffer mem fuel).Only (InPart part)

/-- Lookups in inodes that start in a data cluster, and reads of entries of them or of bytes of one
    cluster, ask for sectors of the partition only. -/
theorem fat32_confined {disk : Disk} {part : DiskPart} {address clusters : Nat} {heapAlloc : Bool}
    {fs : Fat32Fs} (made : fat32New disk (some part) address heapAlloc = .ok fs)
    (confined : Fat32Confined fs.volume part clusters) :
    (∀ dir name fuel, (∀ inode ∈ dir, IsCluster clusters inode.addr) →
      (fat32NameiTraced fs dir name fuel).Only (InPart part)) ∧
    ∀ inode offset size buffer mem fuel, ReadsConfined fs.volume clusters inode offset size →
      (fat32ReadTraced fs.volume inode offset size buffer mem fuel).Only (InPart part) := by
  obtain ⟨boot, rfl⟩ := fat32New_ok made
  constructor
  · intro dir name fuel starts
    cases dir with
    | none => exact .pure
    | some dir => exact .bind (confined.entryFrom_only rfl (starts dir rfl)) .pure
  · intro inode offset size buffer mem fuel reads
    exact confined.readInode_only rfl reads

/-- The bytes of a disk with a partition from its third sector on: a boot record that puts the FAT
    into the third sector of the partition, its `struct fat32_fsinfo`, and a FAT in which cluster 2
    is the last of its chain. -/
def smallBytes (rootCluster : UInt8) : List (Nat × UInt8) :=
  [(1037, 1), (1038, 2), (1040, 1), (1060, 1), (1068, rootCluster), (1072, 1), (1090, 0x29),
    (1536, 0x52), (1537, 0x52), (1538, 0x61), (1539, 0x41), (2020, 0x72), (2021, 0x72),
    (2022, 0x41), (2023, 0x61), (2046, 0x55), (2047, 0xAA), (2056, 0xff), (2057, 0xff),
    (2058, 0xff), (2059, 0x0f)]

def smallDisk (rootCluster : UInt8) : Disk where
  sectorSize := 512
  data := fun x => ((smallBytes rootCluster).lookup x).getD 0
  answers := fun _ _ => true
  stack := fun _ => 0

/-- Eight sectors, five of them data clusters. -/
def smallPart : DiskPart := ⟨2, 8, false, true, 0, none⟩

def smallBoot (rootCluster : Nat) : Fat32BootRecord := ⟨1, 2, 1, 1, rootCluster, 1, 0x29⟩

theorem smallDisk_accepts {rootCluster : UInt8}
    (record : fat32BootRecord (fun x => (smallDisk rootCluster).data (smallPart.start * 512 + x)) =
      smallBoot rootCluster.toNat)
    (fsinfo : fat32VerifyFsinfo (fun x =>
      (smallDisk rootCluster).data ((smallPart.start + 1) * 512 + x)) = true) :
    fat32New (smallDisk rootCluster) (some smallPart) 0 true =
      .ok (fat32Fs 0 (smallDisk rootCluster) smallPart (smallBoot rootCluster.toNat)) :=
  fat32New_accepts (Nat.succ_pos 511) (fun _ _ _ => rfl) (by decide) record rfl fsinfo

theorem fat32_confined_small :
    (fat32NameiTraced (fat32Fs 0 (smallDisk 2) smallPart (smallBoot 2))
      (some (fat32RootInode (fat32Fs 0 (smallDisk 2) smallPart (smallBoot 2)))) [0x61] 3).Only
        (InPart smallPart) ∧
    (fat32ReadTraced (fat32Fs 0 (smallDisk 2) smallPart (smallBoot 2)).volume
      (fat32RootInode (fat32Fs 0 (smallDisk 2) smallPart (smallBoot 2))) 0 64 4096 (fun _ => 0)
        3).Only (InPart smallPart) := by
  have made := @smallDisk_accepts 2 (by decide) (by decide)
  have links : ∀ cluster, cluster < 7 → 2 ≤ cluster →
      fatEnds ((fat32Fs 0 (smallDisk 2) smallPart (smallBoot 2)).volume.fatEntry cluster) := by
    decide
  have confined : Fat32Confined (fat32Fs 0 (smallDisk 2) smallPart (smallBoot 2)).volume smallPart
      5 :=
    { sector := by decide
      sector_words := by decide
      size_lt := by decide
      fat_lt := by decide
      clusters_le := by decide
      clusters_lt := by decide
      links := by
        rintro cluster ⟨low, high⟩
        have seen : Fat32Volume.seen (fat32Fs 0 (smallDisk 2) smallPart (smallBoot 2)).volume
            cluster = cluster := by
          change 4 * cluster % 512 / 4 = cluster
          omega
        rw [seen]
        exact Or.inl (links cluster high low) }
  obtain ⟨lookups, reads⟩ := fat32_confined made confined
  have root : IsCluster 5 2 := by decide
  refine ⟨lookups _ _ _ ?_, reads _ _ _ _ _ _ root⟩
  rintro inode ⟨⟩
  exact root

/-- A boot record whose root directory is cluster 200. -/
theorem staysInPart_farRoot : ¬ StaysInPart (smallDisk 200) smallPart := by
  intro stays
  have made := @smallDisk_accepts 200 (by decide) (by decide)
  have root : Fat32Inode (fat32Fs 0 (smallDisk 200) smallPart (smallBoot 200))
      (fat32RootInode (fat32Fs 0 (smallDisk 200) smallPart (smallBoot 200))) :=
    @Fat32Inode.root _ [] 0 _ rfl
  have inside := (stays 0 true _ made _ root).1 [] 1 ⟨203, 1⟩ (List.mem_cons_self ..)
  exact absurd inside (by decide)

end Sdx.Fs
