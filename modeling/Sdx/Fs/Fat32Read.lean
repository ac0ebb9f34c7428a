import Mathlib.Logic.Function.Iterate
import Sdx.Fs.Fat32Volume

/-! # Reading a file

`fat32_read` skips whole clusters up to the offset, copies whole clusters while there is more
than one left to read, and reads the rest. The copy of a whole cluster takes the byte address for
the sector and the number of bytes for the number of sectors, so that no read of more than a
cluster is right. The rest is read without a look at the end of the cluster, so that it is
right only where the next cluster of the file is the next one on the disk.
-/

namespace Sdx.Fs

open Sdx.Lib Sdx.Lib.Bytes Sdx.Core

namespace Fat32

/-- The clusters of a file in their order. -/
def fileCluster (fs : Fat32) (inode : FsInode) (i : Nat) : Nat := fs.fatEntry^[i] inode.addr

/-- The bytes in the first `count` clusters of a file. -/
def fileBytes (fs : Fat32) (inode : FsInode) (count : Nat) : List UInt8 :=
  (List.range count).flatMap fun i =>
    slice fs.disk.data (fs.clusterAddress (fs.fileCluster inode i)) fs.clusterSize

/-- The word of the FAT's first sector that is taken for the one of a cluster. -/
def seenEntry (fs : Fat32) (cluster : Nat) : Nat := fs.fatEntry (Fat32Volume.seen fs cluster)

/-- Where the words of the first sector lead from a cluster, unless they end before. -/
def seenCluster (fs : Fat32) : Nat → Nat → Option Nat
  | 0, cluster => some cluster
  | steps + 1, cluster =>
      if fatEnds (fs.seenEntry cluster) then none
      else fs.seenCluster steps (fs.seenEntry cluster)

/-- The data has the same sectors before the data clusters. -/
def SameFat (fs : Fat32) (data : Memory) : Prop :=
  ∀ x, x < (fs.start + fs.firstDataSector) * fs.sectorSize → data x = fs.disk.data x

/-- The data with the byte at one address unlike the one at another. -/
def otherByte (fs : Fat32) (address address' : Nat) : Memory := fun x =>
  if x = address then fs.disk.data address' + 1 else fs.disk.data x

end Fat32

/-- The chain of a file ends after `count` clusters, which are enough for its size. -/
structure FatChain (fs : Fat32) (clusters : Nat) (inode : FsInode) (count : Nat) : Prop where
  file : inode.type = .file
  cluster : ∀ i, i < count → IsCluster clusters (fs.fileCluster inode i)
  ends : 0 < count → 0x0FFFFFF8 ≤ fs.fileCluster inode count
  long : inode.size ≤ count * fs.clusterSize

/-- The number of bytes that there are to read. -/
def readSize (inode : FsInode) (offset size : Nat) : Nat := min size (inode.size - offset)

/-- The bytes from the offset on are read, and nothing else is written. -/
def ReadsFile (fs : Fat32) (inode : FsInode) (count offset size : Nat) : Prop :=
  ∀ buffer mem fuel, buffer ≠ 0 →
    fat32Read fs inode offset size buffer mem fuel = some (((readSize inode offset size : Nat) : Int),
      store mem buffer (((fs.fileBytes inode count).drop offset).take (readSize inode offset size)))

/-- The clusters that the first loop skips. -/
def skipped (fs : Fat32) (offset : Nat) : Nat := (offset - 1) / fs.clusterSize

/-- What is left of the offset then. -/
def leftOffset (fs : Fat32) (offset : Nat) : Nat := offset - skipped fs offset * fs.clusterSize

/-- No more than a cluster is read, the walk through the first sector of the FAT gets to the
    cluster of the offset, and the cluster behind it on the disk is the next one of the file if
    the read gets there. -/
def InPlace (fs : Fat32) (inode : FsInode) (offset size : Nat) : Prop :=
  readSize inode offset size ≤ fs.clusterSize ∧
    ∃ cluster, fs.seenCluster (skipped fs offset) inode.addr = some cluster ∧
      (leftOffset fs offset < fs.clusterSize →
        fs.fileCluster inode (skipped fs offset) = cluster) ∧
      (fs.clusterSize < leftOffset fs offset + readSize inode offset size →
        fs.fileCluster inode (skipped fs offset + 1) = cluster + 1)

/-! ## The loops -/

section

variable {fs : Fat32} {clusters cluster passes offset size curSize buffer count i : Nat}
  {inode : FsInode} {mem data : Memory}

theorem seenCluster_is (volume : Fat32Volume fs clusters) {steps : Nat}
    (is : IsCluster clusters cluster) {last : Nat}
    (walk : fs.seenCluster steps cluster = some last) : IsCluster clusters last := by
  induction steps generalizing cluster with
  | zero =>
      cases walk
      exact is
  | succ steps ih =>
      rw [Fat32.seenCluster] at walk
      split at walk
      case isTrue => cases walk
      case isFalse open' =>
          rcases volume.links _ (Nat.lt_of_le_of_lt Fat32Volume.seen_le is.2) with ends | links
          · exact absurd ends open'
          · exact ih links walk

/-- The first loop follows the words of the first sector. -/
theorem skipClusters_eq (volume : Fat32Volume fs clusters) (is : IsCluster clusters cluster)
    (enough : offset < passes) :
    skipClusters fs passes cluster offset =
      (fs.seenCluster (skipped fs offset) cluster).map
        fun cluster => (cluster, leftOffset fs offset) := by
  have positive : 0 < fs.clusterSize := Nat.mul_pos volume.cluster_sectors volume.sector
  induction passes generalizing cluster offset with
  | zero => cases enough
  | succ passes ih =>
      rw [skipClusters, volume.bytesPerCluster_eq is]
      by_cases more : offset > fs.clusterSize
      · have steps : skipped fs offset = skipped fs (offset - fs.clusterSize) + 1 := by
          rw [skipped, skipped, ← Nat.add_div_right _ positive]
          congr 1
          omega
        have left : leftOffset fs offset = leftOffset fs (offset - fs.clusterSize) := by
          rw [leftOffset, leftOffset, steps, Nat.succ_mul]
          omega
        have zero := volume.clusterNext_zero is.2
        rw [if_pos more, steps, Fat32.seenCluster]
        by_cases ends : fatEnds (fs.seenEntry cluster)
        · simp only [if_pos ends, if_pos (zero.mpr ends), Option.map_none]
        · have some' := fun none' => ends (zero.mp none')
          have next : fat32ClusterNext fs cluster = fs.seenEntry cluster := by
            rw [volume.clusterNext_eq is.2]
            exact if_neg fun high => ends (Or.inr high)
          have is' := volume.clusterNext_cluster is.2 some'
          simp only [if_neg ends, if_neg some']
          rw [ih is' (by omega), next, left]
      · have steps : skipped fs offset = 0 := Nat.div_eq_of_lt (by omega)
        rw [if_neg more, leftOffset, steps, Nat.zero_mul, Nat.sub_zero]
        rfl

/-- What is left after the whole clusters does not write behind its end. -/
theorem copyClusters_frame (last : curSize ≤ fs.bytesPerCluster) :
    (copyClusters fs size passes cluster offset curSize buffer mem).2 (buffer + curSize) =
      mem (buffer + curSize) := by
  cases passes with
  | zero => rfl
  | succ passes =>
      have frame := @diskRead_frame fs.disk curSize (wrap64 (wrap64 (fs.clusterToBytes cluster +
        offset) + wrap64 (fs.start * fs.sectorSize))) buffer mem _ (Nat.le_refl (buffer + curSize))
      rw [copyClusters]
      simp only
      rw [if_neg (by omega)]
      split
      · rw [Fat32.read]
        cases read : diskRead fs.disk (wrap64 (wrap64 (fs.clusterToBytes cluster + offset) +
            wrap64 (fs.start * fs.sectorSize))) curSize buffer mem with
        | mk ok mem' =>
            rw [read] at frame
            cases ok with
            | false => exact frame
            | true => exact frame
      · rfl

/-- A read of more than a cluster leaves a byte of the disk behind the bytes it should read. -/
theorem copyClusters_over (sized : 2 < fs.sectorSize) (positive : 0 < fs.bytesPerCluster)
    (more : fs.bytesPerCluster < curSize) :
    ∃ b, ∀ mem, (copyClusters fs size passes cluster offset curSize buffer mem).1 = size →
      (copyClusters fs size passes cluster offset curSize buffer mem).2 (buffer + curSize) = b := by
  induction passes generalizing cluster offset curSize buffer with
  | zero =>
      refine ⟨0, fun mem same => ?_⟩
      change (-5 : Int) = size at same
      omega
  | succ passes ih =>
      by_cases answered : fs.disk.answers (wrap64 (fs.start + wrap64 (fs.clusterToBytes cluster +
          offset))) fs.bytesPerCluster = true
      · obtain ⟨bytes, length, read⟩ : ∃ bytes : List UInt8, 3 * fs.bytesPerCluster ≤ bytes.length ∧
            ∀ mem, fs.readRaw (wrap64 (fs.clusterToBytes cluster + offset)) fs.bytesPerCluster
              buffer mem = (true, store mem buffer bytes) := by
          refine ⟨slice fs.disk.data (wrap64 (fs.start + wrap64 (fs.clusterToBytes cluster +
            offset)) * fs.disk.sectorSize) (fs.bytesPerCluster * fs.disk.sectorSize), ?_, ?_⟩
          · rw [length_slice, Nat.mul_comm]
            exact Nat.mul_le_mul_left _ sized
          · intro mem
            exact if_pos ⟨Nat.pos_iff_ne_zero.mp positive, answered⟩
        have place : buffer + fs.bytesPerCluster + (curSize - fs.bytesPerCluster) =
            buffer + curSize := by omega
        simp only [copyClusters, if_pos more, read]
        by_cases none' : fat32ClusterNext fs cluster = 0
        · refine ⟨0, fun mem same => ?_⟩
          rw [if_pos none'] at same
          change (-22 : Int) = size at same
          omega
        · simp only [if_neg none']
          by_cases more' : fs.bytesPerCluster < curSize - fs.bytesPerCluster
          · obtain ⟨b, all⟩ := @ih (fat32ClusterNext fs cluster) 0 (curSize - fs.bytesPerCluster)
              (buffer + fs.bytesPerCluster) more'
            refine ⟨b, fun mem same => ?_⟩
            rw [← place]
            exact all _ same
          · have inside : curSize < bytes.length := by omega
            refine ⟨bytes[curSize], fun mem same => ?_⟩
            rw [← place, copyClusters_frame (by omega), place]
            exact store_inside inside
      · have read (mem : Memory) : fs.readRaw (wrap64 (fs.clusterToBytes cluster + offset))
            fs.bytesPerCluster buffer mem = (false, mem) :=
          if_neg fun both => answered both.2
        simp only [copyClusters, if_pos more, read]
        refine ⟨0, fun mem same => ?_⟩
        change (-5 : Int) = size at same
        omega

/-! ## One read -/

theorem clusterToBytes_add (volume : Fat32Volume fs clusters) (is : IsCluster clusters cluster)
    (within : offset ≤ fs.clusterSize) :
    wrap64 (wrap64 (fs.clusterToBytes cluster + offset) + wrap64 (fs.start * fs.sectorSize)) =
      fs.clusterAddress cluster + offset ∧
      fs.clusterAddress cluster + fs.clusterSize ≤
        (fs.start + (fs.firstDataSector + fs.clusterSectorCount * clusters)) * fs.sectorSize := by
  have bound := @Fat32Volume.within fs clusters cluster is
  have small := volume.size_lt
  have sectors : fs.firstDataSector + fs.clusterSectorCount * (cluster - 2) +
      fs.clusterSectorCount ≤ fs.firstDataSector + fs.clusterSectorCount * clusters := by omega
  have inside := Nat.mul_le_mul_right fs.sectorSize (Nat.add_le_add_left sectors fs.start)
  rw [Nat.add_mul, Nat.add_mul (fs.firstDataSector + _)] at inside
  have size : fs.clusterSize = fs.clusterSectorCount * fs.sectorSize := rfl
  have address : fs.clusterAddress cluster = fs.start * fs.sectorSize +
      (fs.firstDataSector + fs.clusterSectorCount * (cluster - 2)) * fs.sectorSize := by
    rw [Fat32.clusterAddress, Nat.add_mul]
  rw [← size] at inside
  constructor
  · have bytes := wrap64_of_lt (show (fs.firstDataSector + fs.clusterSectorCount * (cluster - 2)) *
      fs.sectorSize < 2 ^ 64 by omega)
    have start := wrap64_of_lt (show fs.start * fs.sectorSize < 2 ^ 64 by omega)
    rw [Fat32.clusterToBytes, volume.clusterToSector_eq is, bytes, start]
    rw [wrap64_of_lt (show (fs.firstDataSector + fs.clusterSectorCount * (cluster - 2)) *
      fs.sectorSize + offset < 2 ^ 64 by omega), wrap64_of_lt (by omega), address]
    omega
  · omega

theorem IsCluster.some (is : IsCluster clusters cluster) : 0 < clusters := by
  obtain ⟨low, high⟩ := is
  omega

theorem sector_le (volume : Fat32Volume fs clusters) : 32 ≤ fs.sectorSize :=
  Nat.le_of_dvd volume.sector volume.sector_entries

/-- The arithmetic of a read that starts in the volume does not overflow. -/
theorem read_bounds (volume : Fat32Volume fs clusters) (some' : 0 < clusters) {address : Nat}
    (inside : address ≤
      (fs.start + (fs.firstDataSector + fs.clusterSectorCount * clusters)) * fs.sectorSize)
    (small : curSize ≤ fs.clusterSize) :
    address / fs.sectorSize + (address % fs.sectorSize + curSize) / fs.sectorSize + 1 < 2 ^ 64 ∧
      address % fs.sectorSize + curSize < 2 ^ 64 := by
  have sector := sector_le volume
  have fat := volume.fat_inside
  have size_lt := volume.size_lt
  have sectors : fs.clusterSectorCount ≤ fs.clusterSectorCount * clusters :=
    Nat.le_mul_of_pos_right _ some'
  have total := Nat.mul_le_mul_right fs.sectorSize (show 1 + fs.clusterSectorCount ≤
    fs.start + (fs.firstDataSector + fs.clusterSectorCount * clusters) by omega)
  rw [Nat.add_mul, Nat.one_mul] at total
  have size : fs.clusterSize = fs.clusterSectorCount * fs.sectorSize := rfl
  have mod := Nat.mod_lt address volume.sector
  have quotient : ∀ m, 32 * (m / fs.sectorSize) ≤ m := by
    intro m
    have le := Nat.mul_le_mul_right (m / fs.sectorSize) sector
    exact Nat.le_trans le (Nat.mul_div_le m fs.sectorSize)
  have first := quotient address
  have second := quotient (address % fs.sectorSize + curSize)
  omega

/-- A read that goes well brings the bytes from its address on. -/
theorem read_true (volume : Fat32Volume fs clusters) (is : IsCluster clusters cluster)
    (within : offset ≤ fs.clusterSize) (small : curSize ≤ fs.clusterSize) {mem' : Memory}
    (read : diskRead fs.disk (fs.clusterAddress cluster + offset) curSize buffer mem =
      (true, mem')) :
    mem' = store mem buffer (slice fs.disk.data (fs.clusterAddress cluster + offset) curSize) := by
  obtain ⟨-, inside⟩ := clusterToBytes_add volume is within
  obtain ⟨fits, fits'⟩ := @read_bounds fs clusters curSize volume is.some
    (fs.clusterAddress cluster + offset) (by omega) small
  exact diskRead_true volume.sector fits fits' read

/-- A read that ends in the volume goes well. -/
theorem read_readable (volume : Fat32Volume fs clusters) (is : IsCluster clusters cluster)
    (some' : curSize ≠ 0) (small : curSize ≤ fs.clusterSize)
    (inside : fs.clusterAddress cluster + offset + curSize ≤
      (fs.start + (fs.firstDataSector + fs.clusterSectorCount * clusters)) * fs.sectorSize) :
    diskRead fs.disk (fs.clusterAddress cluster + offset) curSize buffer mem =
      (true, store mem buffer
        (slice fs.disk.data (fs.clusterAddress cluster + offset) curSize)) := by
  obtain ⟨fits, fits'⟩ := @read_bounds fs clusters curSize volume is.some
    (fs.clusterAddress cluster + offset) (by omega) small
  apply diskRead_readable volume.sector some' fits fits'
  have data := @Fat32Volume.data_below fs cluster
  have start : fs.start ≤ (fs.clusterAddress cluster + offset) / fs.sectorSize := by
    rw [Nat.le_div_iff_mul_le volume.sector]
    have low := Nat.mul_le_mul_right fs.sectorSize (Nat.le_add_right fs.start fs.firstDataSector)
    omega
  have stop : (fs.clusterAddress cluster + offset) / fs.sectorSize +
      ((fs.clusterAddress cluster + offset) % fs.sectorSize + curSize + fs.sectorSize - 1) /
        fs.sectorSize ≤
      fs.start + (fs.firstDataSector + fs.clusterSectorCount * clusters) := by
    have parts := Nat.div_add_mod' (fs.clusterAddress cluster + offset) fs.sectorSize
    have positive := volume.sector
    have below : (fs.clusterAddress cluster + offset) / fs.sectorSize ≤
        fs.start + (fs.firstDataSector + fs.clusterSectorCount * clusters) := by
      apply Nat.div_le_of_le_mul
      rw [Nat.mul_comm]
      omega
    obtain ⟨rest, sectors⟩ := Nat.exists_eq_add_of_le below
    rw [sectors, Nat.add_mul] at inside
    rw [sectors]
    apply Nat.add_le_add_left
    rw [← Nat.lt_succ_iff, Nat.div_lt_iff_lt_mul positive, Nat.succ_mul]
    omega
  intro from' n some'' low high
  exact volume.readable from' n some'' (Nat.le_trans start low) (Nat.le_trans high stop)

/-- What is left to read is read in one go. -/
theorem copyClusters_rest (volume : Fat32Volume fs clusters) (is : IsCluster clusters cluster)
    (within : offset ≤ fs.clusterSize) (some' : 0 < curSize) (small : curSize ≤ fs.clusterSize) :
    copyClusters fs size (passes + 1) cluster offset curSize buffer mem =
      match diskRead fs.disk (fs.clusterAddress cluster + offset) curSize buffer mem with
      | (false, mem) => (- eIO, mem)
      | (true, mem) => (size, mem) := by
  obtain ⟨address, inside⟩ := clusterToBytes_add volume is within
  rw [copyClusters, volume.bytesPerCluster_eq is]
  simp only
  rw [if_neg (by omega), if_pos some', Fat32.read]
  rcases read : diskRead fs.disk (fs.clusterAddress cluster + offset) curSize buffer mem with
    ⟨ok, mem'⟩
  cases ok with
  | false => simp only [address, read]
  | true => simp only [address, read]

theorem fat32Read_eq (volume : Fat32Volume fs clusters) (chain : FatChain fs clusters inode count)
    (some' : 0 < size) (some'' : buffer ≠ 0) (inside : offset < inode.size) (fuel : Nat) :
    fat32Read fs inode offset size buffer mem fuel =
      match fs.seenCluster (skipped fs offset) inode.addr with
      | none => some (-eINVAL, mem)
      | some cluster => some (copyClusters fs (readSize inode offset size)
          (readSize inode offset size + 1) cluster (leftOffset fs offset)
          (readSize inode offset size) buffer mem) := by
  have least : (if size > inode.size - offset then inode.size - offset else size) =
      readSize inode offset size := by
    unfold readSize
    split <;> omega
  have first : IsCluster clusters inode.addr := by
    apply chain.cluster 0
    have long := chain.long
    by_contra none'
    rw [Nat.eq_zero_of_not_pos none', Nat.zero_mul] at long
    omega
  have skip := skipClusters_eq volume first (Nat.lt_succ_self offset)
  rw [fat32Read, if_neg (by omega), chain.file]
  simp only
  rw [if_neg (by omega), least, skip]
  cases fs.seenCluster (skipped fs offset) inode.addr with
  | none => rfl
  | some cluster => rfl

/-! ## The bytes of the file -/

/-- Where a byte of a file is on the disk. -/
def Fat32.fileAddress (fs : Fat32) (inode : FsInode) (p : Nat) : Nat :=
  fs.clusterAddress (fs.fileCluster inode (p / fs.clusterSize)) + p % fs.clusterSize

theorem fileBytes_part {n : Nat} (inside : offset + n ≤ count * fs.clusterSize) :
    ((fs.fileBytes inode count).drop offset).take n =
      (List.range n).map fun i => fs.disk.data (fs.fileAddress inode (offset + i)) := by
  rw [Fat32.fileBytes, flatMap_slice]
  apply List.ext_getElem
  · simp only [List.length_take, List.length_drop, List.length_map, List.length_range]
    omega
  · intro i _ _
    simp only [List.getElem_take, List.getElem_drop, List.getElem_map, List.getElem_range]
    rfl

theorem leftOffset_le (positive : 0 < fs.clusterSize) :
    skipped fs offset * fs.clusterSize + leftOffset fs offset = offset ∧
      leftOffset fs offset ≤ fs.clusterSize := by
  have parts := Nat.div_add_mod' (offset - 1) fs.clusterSize
  have below := Nat.mod_lt (offset - 1) positive
  unfold leftOffset skipped
  omega

theorem fileAddress_here (positive : 0 < fs.clusterSize)
    (here : leftOffset fs offset + i < fs.clusterSize) :
    fs.fileAddress inode (offset + i) =
      fs.clusterAddress (fs.fileCluster inode (skipped fs offset)) + (leftOffset fs offset + i) := by
  obtain ⟨parts, -⟩ := @leftOffset_le fs offset positive
  have shape : offset + i =
      (leftOffset fs offset + i) + skipped fs offset * fs.clusterSize := by omega
  rw [Fat32.fileAddress, shape, Nat.add_mul_div_right _ _ positive, Nat.div_eq_of_lt here,
    Nat.zero_add, Nat.add_mul_mod_self_right, Nat.mod_eq_of_lt here]

theorem fileAddress_next (positive : 0 < fs.clusterSize)
    (next : fs.clusterSize ≤ leftOffset fs offset + i)
    (below : leftOffset fs offset + i < 2 * fs.clusterSize) :
    fs.fileAddress inode (offset + i) =
      fs.clusterAddress (fs.fileCluster inode (skipped fs offset + 1)) +
        (leftOffset fs offset + i - fs.clusterSize) := by
  obtain ⟨parts, -⟩ := @leftOffset_le fs offset positive
  have small : leftOffset fs offset + i - fs.clusterSize < fs.clusterSize := by omega
  have shape : offset + i = (leftOffset fs offset + i - fs.clusterSize) +
      (skipped fs offset + 1) * fs.clusterSize := by
    rw [Nat.succ_mul]
    omega
  rw [Fat32.fileAddress, shape, Nat.add_mul_div_right _ _ positive, Nat.div_eq_of_lt small,
    Nat.zero_add, Nat.add_mul_mod_self_right, Nat.mod_eq_of_lt small]

theorem clusterAddress_inj (positive : 0 < fs.clusterSize) {other : Nat} (low : 2 ≤ cluster)
    (low' : 2 ≤ other) (same : fs.clusterAddress cluster = fs.clusterAddress other) :
    cluster = other := by
  by_contra apart
  have disjoint := @Fat32Volume.clusters_apart fs cluster other low low' apart
  omega

theorem FatChain.inside (chain : FatChain fs clusters inode count) {p : Nat}
    (below : p < inode.size) : IsCluster clusters (fs.fileCluster inode (p / fs.clusterSize)) := by
  apply chain.cluster
  apply Nat.div_lt_of_lt_mul
  rw [Nat.mul_comm]
  exact Nat.lt_of_lt_of_le below chain.long

/-- The bytes of the file are behind each other on the disk just when the read stays in its
    cluster or goes on in the next one of the file. -/
theorem inPlace_iff (volume : Fat32Volume fs clusters) (chain : FatChain fs clusters inode count)
    (some' : 0 < size) (inside : offset < inode.size)
    (small : readSize inode offset size ≤ fs.clusterSize) (is : IsCluster clusters cluster) :
    ((leftOffset fs offset < fs.clusterSize →
        fs.fileCluster inode (skipped fs offset) = cluster) ∧
      (fs.clusterSize < leftOffset fs offset + readSize inode offset size →
        fs.fileCluster inode (skipped fs offset + 1) = cluster + 1)) ↔
      ∀ i, i < readSize inode offset size →
        fs.fileAddress inode (offset + i) = fs.clusterAddress cluster + leftOffset fs offset + i := by
  have positive : 0 < fs.clusterSize := Nat.mul_pos volume.cluster_sectors volume.sector
  obtain ⟨parts, left_le⟩ := @leftOffset_le fs offset positive
  have next := @Fat32Volume.clusterAddress_add fs cluster is.1
  have least : 0 < readSize inode offset size ∧ offset + readSize inode offset size ≤ inode.size := by
    unfold readSize
    omega
  constructor
  · rintro ⟨here, there⟩ i below
    by_cases first : leftOffset fs offset + i < fs.clusterSize
    · rw [fileAddress_here positive first, here (by omega), Nat.add_assoc]
    · rw [fileAddress_next positive (by omega) (by omega), there (by omega), ← next]
      omega
  · intro all
    constructor
    · intro first
      have same := all 0 least.1
      have is' := chain.inside (show offset + 0 < inode.size by omega)
      have index : (offset + 0) / fs.clusterSize = skipped fs offset := by
        have shape : offset + 0 =
            leftOffset fs offset + skipped fs offset * fs.clusterSize := by omega
        rw [shape, Nat.add_mul_div_right _ _ positive, Nat.div_eq_of_lt first, Nat.zero_add]
      rw [fileAddress_here positive (by omega)] at same
      rw [index] at is'
      exact clusterAddress_inj positive is'.1 is.1 (by omega)
    · intro second
      have same := all (fs.clusterSize - leftOffset fs offset) (by omega)
      have is' := chain.inside
        (show offset + (fs.clusterSize - leftOffset fs offset) < inode.size by omega)
      have index : (offset + (fs.clusterSize - leftOffset fs offset)) / fs.clusterSize =
          skipped fs offset + 1 := by
        have shape : offset + (fs.clusterSize - leftOffset fs offset) =
            (skipped fs offset + 1) * fs.clusterSize := by
          rw [Nat.succ_mul]
          omega
        rw [shape, Nat.mul_div_cancel _ positive]
      rw [fileAddress_next positive (by omega) (by omega)] at same
      rw [index] at is'
      exact clusterAddress_inj positive is'.1 (by have low := is.1; omega) (by omega)

/-! ## One volume -/

theorem readsFile_of_place (volume : Fat32Volume fs clusters)
    (chain : FatChain fs clusters inode count) (some' : 0 < size) (inside : offset < inode.size)
    (small : readSize inode offset size ≤ fs.clusterSize)
    (walk : fs.seenCluster (skipped fs offset) inode.addr = some cluster)
    (place : ∀ i, i < readSize inode offset size →
      fs.fileAddress inode (offset + i) = fs.clusterAddress cluster + leftOffset fs offset + i) :
    ReadsFile fs inode count offset size := by
  have positive : 0 < fs.clusterSize := Nat.mul_pos volume.cluster_sectors volume.sector
  have first := chain.inside (Nat.lt_of_le_of_lt (Nat.zero_le offset) inside)
  rw [Nat.zero_div] at first
  have is := seenCluster_is volume first walk
  have least : 0 < readSize inode offset size ∧ offset + readSize inode offset size ≤ inode.size := by
    unfold readSize
    omega
  have long := chain.long
  have within : fs.clusterAddress cluster + leftOffset fs offset + readSize inode offset size ≤
      (fs.start + (fs.firstDataSector + fs.clusterSectorCount * clusters)) * fs.sectorSize := by
    have last := place (readSize inode offset size - 1) (by omega)
    have is' := chain.inside
      (show offset + (readSize inode offset size - 1) < inode.size by omega)
    obtain ⟨-, bound⟩ := clusterToBytes_add volume is' (Nat.zero_le _)
    have mod := Nat.mod_lt (offset + (readSize inode offset size - 1)) positive
    rw [Fat32.fileAddress] at last
    omega
  intro buffer mem fuel some''
  rw [fat32Read_eq volume chain some' some'' inside, walk]
  simp only
  rw [copyClusters_rest volume is (leftOffset_le positive).2 least.1 small,
    read_readable volume is (Nat.pos_iff_ne_zero.mp least.1) small within]
  simp only
  rw [fileBytes_part (by omega)]
  congr 3
  apply List.map_congr_left
  intro i mem
  rw [place i (List.mem_range.mp mem)]

/-- What a read that is right says of the volume. -/
theorem place_of_readsFile (volume : Fat32Volume fs clusters)
    (chain : FatChain fs clusters inode count) (some' : 0 < size) (inside : offset < inode.size)
    (reads : ReadsFile fs inode count offset size) :
    readSize inode offset size ≤ fs.clusterSize ∧
      ∃ cluster, fs.seenCluster (skipped fs offset) inode.addr = some cluster ∧
        ∀ i, i < readSize inode offset size →
          fs.disk.data (fs.clusterAddress cluster + leftOffset fs offset + i) =
            fs.disk.data (fs.fileAddress inode (offset + i)) := by
  have positive : 0 < fs.clusterSize := Nat.mul_pos volume.cluster_sectors volume.sector
  have first := chain.inside (Nat.lt_of_le_of_lt (Nat.zero_le offset) inside)
  rw [Nat.zero_div] at first
  have least : 0 < readSize inode offset size ∧ offset + readSize inode offset size ≤ inode.size := by
    unfold readSize
    omega
  have long := chain.long
  have result (mem : Memory) := reads 1 mem 0 Nat.one_ne_zero
  simp only [fat32Read_eq volume chain some' Nat.one_ne_zero inside] at result
  cases walk : fs.seenCluster (skipped fs offset) inode.addr with
  | none =>
      rw [walk] at result
      have value := congrArg Prod.fst (Option.some.inj (result fs.disk.data))
      change (-22 : Int) = (readSize inode offset size : Nat) at value
      omega
  | some cluster =>
      have is := seenCluster_is volume first walk
      rw [walk] at result
      simp only [Option.some.injEq] at result
      have small : readSize inode offset size ≤ fs.clusterSize := by
        by_contra more
        have sector := sector_le volume
        rw [← volume.bytesPerCluster_eq is] at more positive
        obtain ⟨b, all⟩ := @copyClusters_over fs cluster (readSize inode offset size + 1)
          (leftOffset fs offset) (readSize inode offset size) (readSize inode offset size) 1
          (by omega) positive (by omega)
        have behind := all (fun _ => b + 1) (congrArg Prod.fst (result _))
        rw [result] at behind
        simp only at behind
        rw [store_outside (Or.inr (by rw [List.length_take]; omega))] at behind
        exact absurd behind (by simp)
      refine ⟨small, cluster, rfl, ?_⟩
      have read := result fs.disk.data
      rw [copyClusters_rest volume is (leftOffset_le positive).2 least.1 small] at read
      cases done : diskRead fs.disk (fs.clusterAddress cluster + leftOffset fs offset)
          (readSize inode offset size) 1 fs.disk.data with
      | mk ok mem' =>
          rw [done] at read
          cases ok with
          | false =>
              have value := congrArg Prod.fst read
              change (-5 : Int) = (readSize inode offset size : Nat) at value
              omega
          | true =>
              have bytes := read_true volume is (leftOffset_le positive).2 small done
              have stored := congrArg Prod.snd read
              simp only at stored
              rw [bytes, fileBytes_part (by omega)] at stored
              intro i below
              have here := congrFun stored (1 + i)
              rw [store_inside (by rw [length_slice]; exact below), getElem_slice,
                store_inside (by simpa using below)] at here
              simpa using here

/-! ## All volumes with the FAT -/

theorem fileCluster_succ : fs.fileCluster inode (i + 1) = fs.fatEntry (fs.fileCluster inode i) :=
  Function.iterate_succ_apply' fs.fatEntry i inode.addr

theorem fileCluster_withData (volume : Fat32Volume fs clusters)
    (chain : FatChain fs clusters inode count) (same : fs.SameFat data) (le : i ≤ count) :
    (fs.withData data).fileCluster inode i = fs.fileCluster inode i := by
  induction i with
  | zero => rfl
  | succ i ih =>
      have is := chain.cluster i le
      rw [fileCluster_succ, ih (Nat.le_of_succ_le le), fileCluster_succ]
      exact volume.fatEntry_withData is.2 same

theorem FatChain.withData (volume : Fat32Volume fs clusters)
    (chain : FatChain fs clusters inode count) (same : fs.SameFat data) :
    FatChain (fs.withData data) clusters inode count where
  file := chain.file
  cluster := by
    intro i below
    rw [fileCluster_withData volume chain same (Nat.le_of_lt below)]
    exact chain.cluster i below
  ends := by
    intro some'
    rw [fileCluster_withData volume chain same (Nat.le_refl _)]
    exact chain.ends some'
  long := chain.long

theorem seenCluster_withData (volume : Fat32Volume fs clusters) (same : fs.SameFat data)
    {steps : Nat} (is : IsCluster clusters cluster) :
    (fs.withData data).seenCluster steps cluster = fs.seenCluster steps cluster := by
  induction steps generalizing cluster with
  | zero => rfl
  | succ steps ih =>
      have small := Nat.lt_of_le_of_lt (@Fat32Volume.seen_le fs cluster) is.2
      have entry : (fs.withData data).seenEntry cluster = fs.seenEntry cluster :=
        volume.fatEntry_withData small same
      rw [Fat32.seenCluster, Fat32.seenCluster, entry]
      split
      case isTrue => rfl
      case isFalse open' =>
          rcases volume.links _ small with ends | links
          · exact absurd ends open'
          · exact ih links

theorem fileAddress_withData (volume : Fat32Volume fs clusters)
    (chain : FatChain fs clusters inode count) (same : fs.SameFat data) {p : Nat}
    (below : p < inode.size) : (fs.withData data).fileAddress inode p = fs.fileAddress inode p := by
  have index : p / fs.clusterSize < count := by
    apply Nat.div_lt_of_lt_mul
    rw [Nat.mul_comm]
    exact Nat.lt_of_lt_of_le below chain.long
  have cluster := fileCluster_withData volume chain same (Nat.le_of_lt index)
  exact congrArg (fun c => fs.clusterAddress c + p % fs.clusterSize) cluster

/-- A read past the end reads nothing. -/
theorem readsFile_past (chain : FatChain fs clusters inode count) (some' : 0 < size)
    (past : inode.size ≤ offset) : ReadsFile fs inode count offset size := by
  have none' : readSize inode offset size = 0 := by
    unfold readSize
    omega
  intro buffer mem fuel some''
  rw [fat32Read, if_neg (by omega), chain.file, none', List.take_zero, store_nil]
  simp only
  rw [if_pos past]
  rfl

/-- On every volume with a FAT the file is read right exactly when the read starts behind the
    file or its bytes are in place. -/
theorem readsFile_iff (volume : Fat32Volume fs clusters)
    (chain : FatChain fs clusters inode count) (some' : 0 < size) :
    (∀ data, fs.SameFat data → ReadsFile (fs.withData data) inode count offset size) ↔
      inode.size ≤ offset ∨ InPlace fs inode offset size := by
  constructor
  · intro reads
    rcases Nat.lt_or_ge offset inode.size with inside | past
    · right
      have first := chain.inside (Nat.lt_of_le_of_lt (Nat.zero_le offset) inside)
      rw [Nat.zero_div] at first
      obtain ⟨small, cluster, walk, -⟩ := place_of_readsFile volume chain some' inside
        (reads fs.disk.data fun _ _ => rfl)
      have is := seenCluster_is volume first walk
      refine ⟨small, cluster, walk, ?_⟩
      rw [inPlace_iff volume chain some' inside small is]
      intro i below
      by_contra apart
      have within : offset + i < inode.size := by
        unfold readSize at below
        omega
      have same : fs.SameFat (fs.otherByte (fs.fileAddress inode (offset + i))
          (fs.clusterAddress cluster + leftOffset fs offset + i)) := by
        intro x low
        have data := @Fat32Volume.data_below fs
          (fs.fileCluster inode ((offset + i) / fs.clusterSize))
        apply if_neg
        rw [Fat32.fileAddress]
        omega
      obtain ⟨-, cluster', walk', bytes⟩ := place_of_readsFile (volume.withData same)
        (chain.withData volume same) some' inside (reads _ same)
      have again := (seenCluster_withData volume same first).symm.trans walk'
      cases walk.symm.trans again
      have here := bytes i below
      rw [fileAddress_withData volume chain same within] at here
      change fs.otherByte _ _ (fs.clusterAddress cluster + leftOffset fs offset + i) =
        fs.otherByte _ _ (fs.fileAddress inode (offset + i)) at here
      rw [Fat32.otherByte, Fat32.otherByte, if_neg (Ne.symm apart), if_pos rfl] at here
      exact absurd here (by simp)
    · exact Or.inl past
  · intro condition data same
    have volume' := volume.withData same
    have chain' := chain.withData volume same
    rcases Nat.lt_or_ge offset inode.size with inside | past
    · rcases condition with past | ⟨small, cluster, walk, places⟩
      · omega
      · have first := chain.inside (Nat.lt_of_le_of_lt (Nat.zero_le offset) inside)
        rw [Nat.zero_div] at first
        have is := seenCluster_is volume first walk
        rw [inPlace_iff volume chain some' inside small is] at places
        apply @readsFile_of_place (fs.withData data) clusters cluster offset size count inode
          volume' chain' some' inside small
        · exact (seenCluster_withData volume same first).trans walk
        · intro i below
          have within : offset + i < inode.size := by
            unfold readSize at below
            omega
          exact (fileAddress_withData volume chain same within).trans (places i below)
    · exact readsFile_past chain' some' past

end

/-- A volume with three clusters, where cluster 4 is behind cluster 2 in the FAT. -/
def gapped : Fat32 where
  disk :=
    { sectorSize := 512
      data := fun x => if x = 520 then 4 else if 528 ≤ x ∧ x < 532 then 0xff else 0
      answers := fun _ _ => true
      stack := fun _ => 0 }
  start := 0
  clusterSectorCount := 1
  fatSector := 1
  firstDataSector := 2

theorem volume_gapped : Fat32Volume gapped 3 where
  sector := by decide
  sector_entries := by decide
  cluster_sectors := by decide
  fat_covers := by decide
  clusters_lt := by decide
  links := by decide
  size_lt := by decide
  readable := fun _ _ _ _ _ => rfl

/-- The file in the clusters 2 and 4. -/
def gappedFile : FsInode := { (default : FsInode) with type := .file, size := 1024, addr := 2 }

theorem chain_gappedFile : FatChain gapped 3 gappedFile 2 where
  file := rfl
  cluster := by decide
  ends := by decide
  long := by decide

/-- The first cluster is read on its own. -/
theorem readsFile_gappedFile : ReadsFile gapped gappedFile 2 0 512 := by
  have place : InPlace gapped gappedFile 0 512 :=
    ⟨by decide, 2, rfl, fun _ => rfl, fun more => absurd more (by decide)⟩
  exact (readsFile_iff volume_gapped chain_gappedFile (by decide)).mpr (Or.inr place)
    gapped.disk.data fun _ _ => rfl

/-- The file of two clusters is not read as a whole. -/
theorem not_readsFile_gappedFile :
    Fat32Volume gapped 3 ∧ FatChain gapped 3 gappedFile 2 ∧
      ¬ ReadsFile gapped gappedFile 2 0 1024 := by
  refine ⟨volume_gapped, chain_gappedFile, fun reads => ?_⟩
  have small := (place_of_readsFile volume_gapped chain_gappedFile (by decide) (by decide) reads).1
  exact absurd small (by decide)

end Sdx.Fs
