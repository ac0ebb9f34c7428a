import Sdx.Fs.Fat32

/-! # FAT32 volumes

What makes a volume well formed: the FAT lies before the data clusters, its words lead to data
clusters or nowhere, and the controller reads all of it. On such a volume the driver reads the
clusters where they are. The word it takes for the successor of a cluster is the one the first
sector of the FAT has at that position, whichever cluster that word belongs to.
-/

namespace Sdx.Fs

open Sdx.Lib Sdx.Lib.Bytes Sdx.Core

namespace Fat32

/-- The word of the FAT for a cluster, without its four high bits. -/
def fatEntry (fs : Fat32) (cluster : Nat) : Nat :=
  Bytes.read fs.disk.data ((fs.start + fs.fatSector) * fs.sectorSize + 4 * cluster) 4 &&& 0x0FFFFFFF

/-- The number of the word in the first sector of the FAT that `fat32_cluster_next` takes for a
    cluster. -/
def wordSeen (fs : Fat32) (cluster : Nat) : Nat :=
  wrap64 (cluster * 4) % fs.sectorSize % 2 ^ 32 / 4

/-- Where a data cluster is on the disk. -/
def clusterAddress (fs : Fat32) (cluster : Nat) : Nat :=
  (fs.start + (fs.firstDataSector + fs.clusterSectorCount * (cluster - 2))) * fs.sectorSize

/-- The number of bytes in a cluster. -/
def clusterSize (fs : Fat32) : Nat := fs.clusterSectorCount * fs.sectorSize

/-- The same volume with other bytes on its disk. -/
def withData (fs : Fat32) (data : Memory) : Fat32 := { fs with disk := { fs.disk with data := data } }

/-- The directory entries in a cluster. -/
def entriesIn (fs : Fat32) (cluster : Nat) : List DirEntry :=
  (List.range (fs.clusterSize / 32)).map fun i =>
    ⟨Vector.ofFn fun k => fs.disk.data (fs.clusterAddress cluster + (32 * i + k))⟩

end Fat32

/-- A FAT word that leads to no cluster: a free, a bad or the last cluster of its chain. -/
def fatEnds (word : Nat) : Prop := word = 0 ∨ 0x0FFFFFF7 ≤ word

instance (word : Nat) : Decidable (fatEnds word) :=
  inferInstanceAs (Decidable (word = 0 ∨ 0x0FFFFFF7 ≤ word))

/-- A FAT32 volume with this many data clusters, which count from two. -/
structure Fat32Volume (fs : Fat32) (clusters : Nat) : Prop where
  sector : 0 < fs.sectorSize
  sector_entries : 32 ∣ fs.sectorSize
  cluster_sectors : 0 < fs.clusterSectorCount
  fat_covers : 4 * (clusters + 2) ≤ (fs.firstDataSector - fs.fatSector) * fs.sectorSize
  clusters_lt : clusters + 2 ≤ 0x0FFFFFF7
  links : ∀ cluster, cluster < clusters + 2 → fatEnds (fs.fatEntry cluster) ∨
    2 ≤ fs.fatEntry cluster ∧ fs.fatEntry cluster < clusters + 2
  size_lt : (fs.start + (fs.firstDataSector + fs.clusterSectorCount * clusters)) * fs.sectorSize <
    2 ^ 64
  readable : fs.disk.Readable fs.start (fs.firstDataSector + fs.clusterSectorCount * clusters)

/-- A number of one of the data clusters. -/
def IsCluster (clusters cluster : Nat) : Prop := 2 ≤ cluster ∧ cluster < clusters + 2

instance (clusters cluster : Nat) : Decidable (IsCluster clusters cluster) :=
  inferInstanceAs (Decidable (2 ≤ cluster ∧ cluster < clusters + 2))

namespace Fat32Volume

variable {fs : Fat32} {clusters cluster lba sectorCount buf offset n : Nat} {mem data : Memory}

/-- The sectors of a cluster are among those of the volume. -/
theorem within (is : IsCluster clusters cluster) :
    fs.clusterSectorCount * (cluster - 2) + fs.clusterSectorCount ≤
      fs.clusterSectorCount * clusters := by
  rw [← Nat.mul_succ]
  obtain ⟨low, high⟩ := is
  exact Nat.mul_le_mul_left _ (by omega)

theorem sector_lt (volume : Fat32Volume fs clusters)
    (inside : lba ≤ fs.firstDataSector + fs.clusterSectorCount * clusters) :
    (fs.start + lba) * fs.sectorSize < 2 ^ 64 :=
  Nat.lt_of_le_of_lt (Nat.mul_le_mul_right _ (Nat.add_le_add_left inside _)) volume.size_lt

theorem lba_lt (volume : Fat32Volume fs clusters)
    (inside : lba ≤ fs.firstDataSector + fs.clusterSectorCount * clusters) :
    fs.start + lba < 2 ^ 64 :=
  Nat.lt_of_le_of_lt (Nat.le_mul_of_pos_right _ volume.sector) (volume.sector_lt inside)

theorem readRaw_eq (volume : Fat32Volume fs clusters) (some' : sectorCount ≠ 0)
    (inside : lba + sectorCount ≤ fs.firstDataSector + fs.clusterSectorCount * clusters) :
    fs.readRaw lba sectorCount buf mem = (true, store mem buf
      (slice fs.disk.data ((fs.start + lba) * fs.sectorSize) (sectorCount * fs.sectorSize))) := by
  rw [Fat32.readRaw, wrap64_of_lt (volume.lba_lt (by omega))]
  exact diskDo_readable some' fun from' n some'' low high =>
    volume.readable from' n some'' (by omega) (by omega)

theorem clusterToSector_eq (volume : Fat32Volume fs clusters) (is : IsCluster clusters cluster) :
    fs.clusterToSector cluster =
      fs.firstDataSector + fs.clusterSectorCount * (cluster - 2) := by
  have bound := @within fs clusters cluster is
  have small := volume.lba_lt (Nat.le_refl _)
  have cluster_lt := volume.clusters_lt
  obtain ⟨low, high⟩ := is
  have product : fs.clusterSectorCount * (cluster - 2) < 2 ^ 64 := by omega
  rw [Fat32.clusterToSector, sub64_of_le low (by omega), wrap64_of_lt product,
    wrap64_of_lt (by omega)]

theorem bytesPerCluster_eq (volume : Fat32Volume fs clusters) (is : IsCluster clusters cluster) :
    fs.bytesPerCluster = fs.clusterSize := by
  have bound := @within fs clusters cluster is
  have sectors : fs.clusterSectorCount ≤
      fs.start + (fs.firstDataSector + fs.clusterSectorCount * clusters) := by omega
  have bytes := Nat.mul_le_mul_right fs.sectorSize sectors
  have small := volume.size_lt
  rw [Fat32.bytesPerCluster, Nat.mul_comm, Fat32.clusterSize]
  exact wrap64_of_lt (by omega)

/-- The driver reads the entries of a cluster. -/
theorem readEntries_eq (volume : Fat32Volume fs clusters) (is : IsCluster clusters cluster) :
    readEntries fs cluster = some (fs.entriesIn cluster) := by
  have bound := @within fs clusters cluster is
  have read := @readRaw_eq fs clusters (fs.clusterToSector cluster) fs.clusterSectorCount 0
    fs.disk.stack volume (Nat.pos_iff_ne_zero.mp volume.cluster_sectors)
    (by rw [volume.clusterToSector_eq is]; omega)
  rw [readEntries, Fat32.readCluster, read]
  simp only [clusterEntries, volume.bytesPerCluster_eq is, Fat32.entriesIn, Option.some.injEq]
  apply List.map_congr_left
  intro i mem
  have room : 32 * i + 32 ≤ fs.clusterSize := by
    have below := List.mem_range.mp mem
    have whole := Nat.div_mul_le_self fs.clusterSize 32
    omega
  congr 2
  funext k
  have here : 32 * i + k.val < (slice fs.disk.data
      ((fs.start + fs.clusterToSector cluster) * fs.sectorSize)
      (fs.clusterSectorCount * fs.sectorSize)).length := by
    rw [length_slice]
    change _ < fs.clusterSize
    omega
  have value := @store_inside fs.disk.stack 0 _ _ here
  rw [Nat.zero_add] at value
  rw [value, getElem_slice, volume.clusterToSector_eq is, Fat32.clusterAddress]

theorem fat_inside (volume : Fat32Volume fs clusters) : fs.fatSector + 1 ≤ fs.firstDataSector := by
  have covers := volume.fat_covers
  rcases Nat.lt_or_ge fs.fatSector fs.firstDataSector with before | after
  · exact before
  · rw [Nat.sub_eq_zero_of_le after, Nat.zero_mul] at covers
    omega

/-- The word that `fat32_cluster_next` looks at. -/
def seen (fs : Fat32) (cluster : Nat) : Nat := 4 * cluster % fs.sectorSize / 4

theorem seen_le : seen fs cluster ≤ cluster := by
  have le := Nat.mod_le (4 * cluster) fs.sectorSize
  unfold seen
  omega

/-- `fat32_cluster_next` gives the word it takes, or zero, when it can read the FAT. -/
theorem clusterNext_word (sector : 0 < fs.sectorSize) (words : 4 ∣ fs.sectorSize)
    (fits : fs.start + fs.fatSector < 2 ^ 64)
    (read : fs.readRaw fs.fatSector 1 0 fs.disk.stack = (true, mem)) :
    fat32ClusterNext fs cluster =
      if 0x0FFFFFF7 ≤ fs.fatEntry (fs.wordSeen cluster) then 0
      else fs.fatEntry (fs.wordSeen cluster) := by
  have inSector := Nat.mod_lt (wrap64 (cluster * 4)) sector
  have le := Nat.mod_le (wrap64 (cluster * 4) % fs.sectorSize) (2 ^ 32)
  have whole : 4 ∣ wrap64 (cluster * 4) := by
    rw [wrap64]
    omega
  have whole' : 4 ∣ wrap64 (cluster * 4) % fs.sectorSize := (Nat.dvd_mod_iff words).mpr whole
  have aligned : 4 * fs.wordSeen cluster = wrap64 (cluster * 4) % fs.sectorSize % 2 ^ 32 :=
    Nat.mul_div_cancel' ((Nat.dvd_mod_iff (by decide)).mpr whole')
  have room : 4 * fs.wordSeen cluster + 4 ≤ fs.sectorSize := by
    obtain ⟨k, eq⟩ := words
    omega
  have table : mem = store fs.disk.stack 0 (slice fs.disk.data
      ((fs.start + fs.fatSector) * fs.sectorSize) (1 * fs.sectorSize)) := by
    rw [Fat32.readRaw, wrap64_of_lt fits] at read
    exact diskDo_true read
  have word : Bytes.read mem (4 * fs.wordSeen cluster) 4 = Bytes.read fs.disk.data
      ((fs.start + fs.fatSector) * fs.sectorSize + 4 * fs.wordSeen cluster) 4 := by
    have bytes := @slice_local fs.disk 4 (slice fs.disk.data
      ((fs.start + fs.fatSector) * fs.sectorSize) (1 * fs.sectorSize)) (4 * fs.wordSeen cluster)
      (by rw [length_slice]; omega)
    rw [drop_slice (by omega)] at bytes
    unfold Bytes.read
    rw [table]
    exact congrArg decode bytes
  rw [fat32ClusterNext, read]
  simp only [← aligned, word]
  change (if fs.fatEntry (fs.wordSeen cluster) ≥ 0x0FFFFFF8 ∨
    fs.fatEntry (fs.wordSeen cluster) = 0x0FFFFFF7 then 0
      else fs.fatEntry (fs.wordSeen cluster)) = _
  congr 1
  apply propext
  omega

theorem wordSeen_eq (small : cluster < 0x0FFFFFF7) : fs.wordSeen cluster = seen fs cluster := by
  have le := Nat.mod_le (4 * cluster) fs.sectorSize
  rw [Fat32.wordSeen, wrap64_of_lt (by omega), Nat.mul_comm cluster 4, Nat.mod_eq_of_lt (by omega)]
  rfl

theorem clusterNext_read (sector : 0 < fs.sectorSize) (words : 4 ∣ fs.sectorSize)
    (small : cluster < 0x0FFFFFF7) (fits : fs.start + fs.fatSector < 2 ^ 64)
    (read : fs.readRaw fs.fatSector 1 0 fs.disk.stack = (true, mem)) :
    fat32ClusterNext fs cluster =
      if 0x0FFFFFF7 ≤ fs.fatEntry (seen fs cluster) then 0 else fs.fatEntry (seen fs cluster) := by
  rw [clusterNext_word sector words fits read, wordSeen_eq small]

/-- `fat32_cluster_next` gives the word it sees, or zero. -/
theorem clusterNext_eq (volume : Fat32Volume fs clusters) (small : cluster < clusters + 2) :
    fat32ClusterNext fs cluster =
      if 0x0FFFFFF7 ≤ fs.fatEntry (seen fs cluster) then 0 else fs.fatEntry (seen fs cluster) := by
  have four : 4 ∣ fs.sectorSize := Nat.dvd_trans (by decide) volume.sector_entries
  have fat := volume.fat_inside
  have read := @readRaw_eq fs clusters fs.fatSector 1 0 fs.disk.stack volume Nat.one_ne_zero
    (by omega)
  exact clusterNext_read volume.sector four (Nat.lt_of_lt_of_le small volume.clusters_lt)
    (volume.lba_lt (by omega)) read

/-- The walk stays among the clusters. -/
theorem clusterNext_cluster (volume : Fat32Volume fs clusters) (small : cluster < clusters + 2)
    (more : fat32ClusterNext fs cluster ≠ 0) : IsCluster clusters (fat32ClusterNext fs cluster) := by
  have bound := volume.clusters_lt
  rw [volume.clusterNext_eq small] at more ⊢
  split at more
  · exact absurd rfl more
  · rename_i open'
    rw [if_neg open']
    rcases volume.links _ (Nat.lt_of_le_of_lt seen_le small) with ends | links
    · rcases ends with zero | high
      · exact absurd zero more
      · exact absurd high open'
    · exact links

/-! ## Other data in the clusters -/

variable {other : Nat}

theorem clusterNext_zero (volume : Fat32Volume fs clusters) (small : cluster < clusters + 2) :
    fat32ClusterNext fs cluster = 0 ↔ fatEnds (fs.fatEntry (seen fs cluster)) := by
  rw [volume.clusterNext_eq small, fatEnds]
  split
  case isTrue high => exact iff_of_true rfl (Or.inr high)
  case isFalse low =>
      constructor
      · exact Or.inl
      · intro ends
        rcases ends with zero | high
        · exact zero
        · exact absurd high low

/-- The FAT lies before the data clusters. -/
theorem fat_below (volume : Fat32Volume fs clusters) (small : cluster < clusters + 2) :
    (fs.start + fs.fatSector) * fs.sectorSize + 4 * cluster + 4 ≤
      (fs.start + fs.firstDataSector) * fs.sectorSize := by
  have inside := volume.fat_inside
  have covers := volume.fat_covers
  have whole : (fs.start + fs.firstDataSector) * fs.sectorSize =
      (fs.start + fs.fatSector) * fs.sectorSize +
        (fs.firstDataSector - fs.fatSector) * fs.sectorSize := by
    rw [← Nat.add_mul]
    congr 1
    omega
  omega

theorem data_below : (fs.start + fs.firstDataSector) * fs.sectorSize ≤ fs.clusterAddress cluster :=
  Nat.mul_le_mul_right _ (by omega)

theorem clusterAddress_add (low : 2 ≤ cluster) :
    fs.clusterAddress cluster + fs.clusterSize = fs.clusterAddress (cluster + 1) := by
  have next : cluster + 1 - 2 = cluster - 2 + 1 := by omega
  rw [Fat32.clusterAddress, Fat32.clusterSize, Fat32.clusterAddress, next, Nat.mul_succ,
    ← Nat.add_mul, Nat.add_assoc, Nat.add_assoc]

theorem clusterAddress_mono (le : cluster ≤ other) :
    fs.clusterAddress cluster ≤ fs.clusterAddress other := by
  unfold Fat32.clusterAddress
  apply Nat.mul_le_mul_right
  have sectors := Nat.mul_le_mul_left fs.clusterSectorCount (Nat.sub_le_sub_right le 2)
  omega

/-- Two clusters do not share a byte. -/
theorem clusters_apart (low : 2 ≤ cluster) (low' : 2 ≤ other) (apart : cluster ≠ other) :
    fs.clusterAddress cluster + fs.clusterSize ≤ fs.clusterAddress other ∨
      fs.clusterAddress other + fs.clusterSize ≤ fs.clusterAddress cluster := by
  rw [clusterAddress_add low, clusterAddress_add low']
  rcases Nat.lt_or_gt_of_ne apart with before | after
  · exact Or.inl (clusterAddress_mono before)
  · exact Or.inr (clusterAddress_mono after)

theorem fatEntry_withData (volume : Fat32Volume fs clusters) (small : cluster < clusters + 2)
    (same : ∀ x, x < (fs.start + fs.firstDataSector) * fs.sectorSize → data x = fs.disk.data x) :
    (fs.withData data).fatEntry cluster = fs.fatEntry cluster := by
  have below := volume.fat_below small
  have word : Bytes.read data ((fs.start + fs.fatSector) * fs.sectorSize + 4 * cluster) 4 =
      Bytes.read fs.disk.data ((fs.start + fs.fatSector) * fs.sectorSize + 4 * cluster) 4 :=
    read_congr fun x _ high => same x (by omega)
  exact congrArg (· &&& 0x0FFFFFFF) word

/-- The data clusters do not matter to the volume. -/
theorem withData (volume : Fat32Volume fs clusters)
    (same : ∀ x, x < (fs.start + fs.firstDataSector) * fs.sectorSize → data x = fs.disk.data x) :
    Fat32Volume (fs.withData data) clusters where
  sector := volume.sector
  sector_entries := volume.sector_entries
  cluster_sectors := volume.cluster_sectors
  fat_covers := volume.fat_covers
  clusters_lt := volume.clusters_lt
  links := by
    intro cluster small
    rw [volume.fatEntry_withData small same]
    exact volume.links cluster small
  size_lt := volume.size_lt
  readable := volume.readable

theorem clusterNext_withData (volume : Fat32Volume fs clusters) (small : cluster < clusters + 2)
    (same : ∀ x, x < (fs.start + fs.firstDataSector) * fs.sectorSize → data x = fs.disk.data x) :
    fat32ClusterNext (fs.withData data) cluster = fat32ClusterNext fs cluster := by
  have word := volume.fatEntry_withData (Nat.lt_of_le_of_lt (@seen_le fs cluster) small) same
  rw [(volume.withData same).clusterNext_eq small, volume.clusterNext_eq small]
  change (if _ ≤ (fs.withData data).fatEntry (seen fs cluster) then 0
    else (fs.withData data).fatEntry (seen fs cluster)) = _
  rw [word]

end Fat32Volume

end Sdx.Fs
