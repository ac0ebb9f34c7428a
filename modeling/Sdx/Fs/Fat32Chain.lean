import Sdx.Fs.Fat32Listing
import Sdx.Lib.LinkedList

/-! # Following the FAT

`fat32_cluster_next` splits the position of a word in the FAT into a sector and an offset in it,
but reads the first sector of the FAT for every cluster.
-/

namespace Sdx.Fs

open Sdx.Lib.Bytes Sdx.Lib.LinkedList Sdx.Core

namespace Fat32

/-- The successor that the FAT has for a cluster, or zero. -/
def fatNext (fs : Fat32) (cluster : Nat) : Nat :=
  if fs.fatEntry cluster < 0x0FFFFFF7 then fs.fatEntry cluster else 0

/-- The word that is taken for a cluster has the same successor as the word of the cluster. -/
def TakesWord (fs : Fat32) (cluster : Nat) : Prop :=
  fs.fatEntry (fs.wordSeen cluster) = fs.fatEntry cluster ∨
    fatEnds (fs.fatEntry (fs.wordSeen cluster)) ∧ fatEnds (fs.fatEntry cluster)

end Fat32

/-- The first sector of the FAT can be read, and holds whole words. -/
structure FatReads (fs : Fat32) : Prop where
  sector : 0 < fs.sectorSize
  sector_words : 4 ∣ fs.sectorSize
  fits : fs.start + fs.fatSector < 2 ^ 64
  answers : fs.disk.answers (fs.start + fs.fatSector) 1 = true

/-- The link of a chain that a function for the successors gives. -/
def clusterLink (next : Nat → Nat) (cluster : Nat) : Option Nat :=
  if next cluster = 0 then none else some (next cluster)

section

variable {fs : Fat32} {cluster n : Nat} {next next' : Nat → Nat}

theorem clusterLink_eq_iff :
    clusterLink next' cluster = clusterLink next cluster ↔ next' cluster = next cluster := by
  unfold clusterLink
  by_cases ends : next cluster = 0
  · by_cases ends' : next' cluster = 0
    · simp [ends, ends']
    · simp [ends, ends']
  · by_cases ends' : next' cluster = 0
    · simp [ends, ends', Ne.symm ends]
    · simp [ends, ends']

theorem FatReads.clusterNext_eq (reads : FatReads fs) :
    fat32ClusterNext fs cluster =
      if 0x0FFFFFF7 ≤ fs.fatEntry (fs.wordSeen cluster) then 0
      else fs.fatEntry (fs.wordSeen cluster) := by
  have answered : fs.readRaw fs.fatSector 1 0 fs.disk.stack = (true, store fs.disk.stack 0
      (slice fs.disk.data ((fs.start + fs.fatSector) * fs.disk.sectorSize)
        (1 * fs.disk.sectorSize))) := by
    rw [Fat32.readRaw, wrap64_of_lt reads.fits, diskDo, if_pos ⟨Nat.one_ne_zero, reads.answers⟩]
  exact Fat32Volume.clusterNext_word reads.sector reads.sector_words reads.fits answered

theorem FatReads.next_iff (reads : FatReads fs) :
    fat32ClusterNext fs cluster = fs.fatNext cluster ↔ fs.TakesWord cluster := by
  rw [reads.clusterNext_eq, Fat32.fatNext, Fat32.TakesWord, fatEnds, fatEnds]
  generalize fs.fatEntry (fs.wordSeen cluster) = taken
  generalize fs.fatEntry cluster = word
  split
  · split
    · omega
    · omega
  · split
    · omega
    · omega

/-- The words of the first sector are the ones that are taken. -/
theorem Fat32.takesWord_of_lt (first : 4 * cluster < fs.sectorSize)
    (small : fs.sectorSize ≤ 2 ^ 32) : fs.TakesWord cluster := by
  have taken : fs.wordSeen cluster = cluster := by
    have inSector : cluster * 4 % fs.sectorSize = cluster * 4 := Nat.mod_eq_of_lt (by omega)
    rw [Fat32.wordSeen, wrap64_of_lt (by omega), inSector, Nat.mod_eq_of_lt (by omega)]
    omega
  rw [Fat32.TakesWord, taken]
  exact Or.inl rfl

/-- The driver finds the successor of a cluster in the FAT, exactly if the word it takes has the
    same successor, and walks a chain as the FAT has it, exactly if that is so for all clusters of
    the chain but the last one walked. -/
theorem fat_followed_iff (reads : FatReads fs) (cluster : Nat) :
    (fat32ClusterNext fs cluster = fs.fatNext cluster ↔ fs.TakesWord cluster) ∧
    ∀ n, visits (clusterLink (fat32ClusterNext fs)) (n + 1) cluster =
        visits (clusterLink fs.fatNext) (n + 1) cluster ↔
      ∀ passed ∈ visits (clusterLink fs.fatNext) n cluster, fs.TakesWord passed := by
  refine ⟨reads.next_iff, fun n => ?_⟩
  rw [visits_eq_iff]
  apply forall₂_congr
  intro passed _
  rw [clusterLink_eq_iff]
  exact reads.next_iff

end

theorem fat_followed_iff_twoFatSectors :
    fat32ClusterNext twoFatSectors 2 = twoFatSectors.fatNext 2 ↔ twoFatSectors.TakesWord 2 :=
  (fat_followed_iff ⟨by decide, by decide, by decide, rfl⟩ 2).1

/-- The word of cluster 130, which ends its chain, is in the second sector of the FAT. -/
theorem fat_not_followed :
    fat32ClusterNext twoFatSectors 130 = 3 ∧ twoFatSectors.fatNext 130 = 0 := by
  have reads : FatReads twoFatSectors := ⟨by decide, by decide, by decide, rfl⟩
  have word : twoFatSectors.fatEntry (twoFatSectors.wordSeen 130) = 3 := by decide
  refine ⟨?_, by decide⟩
  rw [reads.clusterNext_eq, word]
  rfl

end Sdx.Fs
