import Sdx.Core.DiskRequests
import Sdx.Fs.Fat32

/-! # The requests of the driver (`fs/fat32/fat32.c`, `fs/fat32/entry.c`)

The functions that read a volume again, with the requests they make of the disk. Without the
requests they are the functions themselves.
-/

namespace Sdx.Fs

open Sdx.Lib.Bytes Sdx.Lib.Trace Sdx.Core

namespace Fat32

def readRawTraced (fs : Fat32) (lba sectorCount buf : Nat) (mem : Memory) :
    Traced DiskRequest (Bool × Memory) :=
  diskDoTraced fs.disk (wrap64 (fs.start + lba)) sectorCount buf mem

def readClusterTraced (fs : Fat32) (cluster buf : Nat) (mem : Memory) :
    Traced DiskRequest (Bool × Memory) :=
  fs.readRawTraced (fs.clusterToSector cluster) fs.clusterSectorCount buf mem

def readTraced (fs : Fat32) (offset size buf : Nat) (mem : Memory) :
    Traced DiskRequest (Bool × Memory) :=
  diskReadTraced fs.disk (wrap64 (offset + wrap64 (fs.start * fs.sectorSize))) size buf mem

end Fat32

def fat32ClusterNextTraced (fs : Fat32) (cluster : Nat) : Traced DiskRequest Nat := do
  let offset := wrap64 (cluster * 4) % fs.sectorSize % 2 ^ 32
  match ← fs.readRawTraced fs.fatSector 1 0 fs.disk.stack with
  | (false, _) => pure 0
  | (true, fatTable) =>
      let cluster := read fatTable offset 4 &&& 0x0FFFFFFF
      pure (if cluster ≥ 0x0FFFFFF8 ∨ cluster = 0x0FFFFFF7 then 0 else cluster)

def readEntriesTraced (fs : Fat32) (cluster : Nat) : Traced DiskRequest (Option (List DirEntry)) := do
  match ← fs.readClusterTraced cluster 0 fs.disk.stack with
  | (false, _) => pure none
  | (true, clusterBuffer) => pure (some (clusterEntries fs clusterBuffer))

def fat32EntryGetTraced (fs : Fat32) (size : Int) (buffer : Nat) (mem : Memory) :
    Nat → Nat → Nat → Traced DiskRequest (Option (Int × Memory))
  | 0, _, _ => pure none
  | fuel + 1, cluster, offset => do
      match ← readEntriesTraced fs cluster with
      | none => pure (some (-eFAULT, mem))
      | some entries =>
          match getScan offset entries with
          | .outside => pure none
          | .last offset =>
              let cluster ← fat32ClusterNextTraced fs cluster
              if cluster = 0 then pure (some (-eRANGE, mem))
              else fat32EntryGetTraced fs size buffer mem fuel cluster offset
          | .found entry =>
              pure ((fat32EntryName size buffer mem entry).map fun result => (result.value, result.mem))

def fromClustersTraced (fs : Fat32) (size : Int) (name : List UInt8) :
    Nat → Nat → Memory → Traced DiskRequest (Option (Int × Option DirEntry))
  | 0, _, _ => pure none
  | fuel + 1, cluster, nameBuffer => do
      match ← readEntriesTraced fs cluster with
      | none => pure (some (-eFAULT, none))
      | some entries =>
          match fromScan size name entries.length nameBuffer entries with
          | .outside => pure none
          | .last nameBuffer =>
              let cluster ← fat32ClusterNextTraced fs cluster
              if cluster = 0 then pure (some (-eNOENT, none))
              else fromClustersTraced fs size name fuel cluster nameBuffer
          | .found entry => pure (some (0, some entry))

def fat32EntryFromTraced (fs : Fat32) (cluster : Nat) (name : List UInt8) (fuel : Nat) :
    Traced DiskRequest (Option (Int × Option DirEntry)) :=
  let nameSize := name.length + 1
  if nameSize > nameMax + 1 then pure (some (-eNAMETOOLONG, none))
  else fromClustersTraced fs nameSize name fuel cluster fs.disk.stack

def skipClustersTraced (fs : Fat32) : Nat → Nat → Nat → Traced DiskRequest (Option (Nat × Nat))
  | 0, _, _ => pure none
  | passes + 1, cluster, offset =>
      if offset > fs.bytesPerCluster then do
        let cluster ← fat32ClusterNextTraced fs cluster
        if cluster = 0 then pure none
        else skipClustersTraced fs passes cluster (offset - fs.bytesPerCluster)
      else pure (some (cluster, offset))

def copyClustersTraced (fs : Fat32) (size : Nat) :
    Nat → Nat → Nat → Nat → Nat → Memory → Traced DiskRequest (Int × Memory)
  | 0, _, _, _, _, mem => pure (- eIO, mem)
  | passes + 1, cluster, offset, curSize, buffer, mem =>
      let clusterSize := fs.bytesPerCluster
      let at' := wrap64 (fs.clusterToBytes cluster + offset)
      if curSize > clusterSize then do
        match ← fs.readRawTraced at' clusterSize buffer mem with
        | (false, mem) => pure (- eIO, mem)
        | (true, mem) =>
            let cluster ← fat32ClusterNextTraced fs cluster
            if cluster = 0 then pure (-eINVAL, mem)
            else
              copyClustersTraced fs size passes cluster 0 (curSize - clusterSize)
                (buffer + clusterSize) mem
      else if curSize > 0 then do
        match ← fs.readTraced at' curSize buffer mem with
        | (false, mem) => pure (- eIO, mem)
        | (true, mem) => pure (size, mem)
      else pure (size, mem)

/-- `fat32_read`. Where a cluster has no sectors the loop that skips clusters only ends at the end of
    the chain, so it has passes to spare. -/
def fat32ReadTraced (fs : Fat32) (inode : FsInode) (offset size buffer : Nat) (mem : Memory)
    (fuel : Nat) : Traced DiskRequest (Option (Int × Memory)) :=
  if buffer = 0 ∨ size = 0 then pure (some (-eINVAL, mem))
  else
    match inode.type with
    | .dir => do
        let result ← fat32EntryGetTraced fs (BitVec.ofNat 64 size).toInt buffer mem fuel inode.addr
          offset
        pure (result.map fun (err, mem) => if err = -eRANGE then (0, mem) else (err, mem))
    | .file =>
        if offset ≥ inode.size then pure (some (0, mem))
        else do
          let size := if size > inode.size - offset then inode.size - offset else size
          match ← skipClustersTraced fs (offset + 1 + fuel) inode.addr offset with
          | none => pure (some (-eINVAL, mem))
          | some (cluster, offset) => do
              let result ← copyClustersTraced fs size (size + 1) cluster offset size buffer mem
              pure (some result)
    | .link => pure (some (-eINVAL, mem))

/-! ## Without the requests -/

section

variable {fs : Fat32} {cluster lba sectorCount size buf offset curSize passes fuel : Nat}
  {mem : Memory} {name : List UInt8} {inode : FsInode}

@[simp] theorem Fat32.readRawTraced_value :
    (fs.readRawTraced lba sectorCount buf mem).value = fs.readRaw lba sectorCount buf mem := rfl

@[simp] theorem Fat32.readClusterTraced_value :
    (fs.readClusterTraced cluster buf mem).value = fs.readCluster cluster buf mem := rfl

@[simp] theorem Fat32.readTraced_value :
    (fs.readTraced offset size buf mem).value = fs.read offset size buf mem := diskReadTraced_value

@[simp] theorem fat32ClusterNextTraced_value :
    (fat32ClusterNextTraced fs cluster).value = fat32ClusterNext fs cluster := by
  rw [fat32ClusterNextTraced, fat32ClusterNext, Traced.value_bind, Fat32.readRawTraced_value]
  rcases fs.readRaw fs.fatSector 1 0 fs.disk.stack with ⟨_ | _, mem₁⟩
  · rfl
  · rfl

@[simp] theorem readEntriesTraced_value :
    (readEntriesTraced fs cluster).value = readEntries fs cluster := by
  rw [readEntriesTraced, readEntries, Traced.value_bind, Fat32.readClusterTraced_value]
  rcases fs.readCluster cluster 0 fs.disk.stack with ⟨_ | _, mem₁⟩
  · rfl
  · rfl

@[simp] theorem fat32EntryGetTraced_value {bytes : Int} :
    (fat32EntryGetTraced fs bytes buf mem fuel cluster offset).value =
      fat32EntryGet fs bytes buf mem fuel cluster offset := by
  induction fuel generalizing cluster offset with
  | zero => rfl
  | succ fuel ih =>
      rw [fat32EntryGetTraced, fat32EntryGet, Traced.value_bind, readEntriesTraced_value]
      cases readEntries fs cluster with
      | none => rfl
      | some entries =>
          dsimp only
          cases getScan offset entries with
          | outside => rfl
          | found entry => rfl
          | last offset =>
              rw [Traced.value_bind, fat32ClusterNextTraced_value]
              by_cases ends : fat32ClusterNext fs cluster = 0
              · simp only [ends, if_true, Traced.value_pure]
              · simp only [ends, if_false, ih]

@[simp] theorem fat32EntryFromTraced_value :
    (fat32EntryFromTraced fs cluster name fuel).value = fat32EntryFrom fs cluster name fuel := by
  have clusters {bytes : Int} {nameBuffer : Memory} :
      (fromClustersTraced fs bytes name fuel cluster nameBuffer).value =
        fromClusters fs bytes name fuel cluster nameBuffer := by
    induction fuel generalizing cluster nameBuffer with
    | zero => rfl
    | succ fuel ih =>
        rw [fromClustersTraced, fromClusters, Traced.value_bind, readEntriesTraced_value]
        cases readEntries fs cluster with
        | none => rfl
        | some entries =>
            dsimp only
            cases fromScan bytes name entries.length nameBuffer entries with
            | outside => rfl
            | found entry => rfl
            | last nameBuffer =>
                rw [Traced.value_bind, fat32ClusterNextTraced_value]
                by_cases ends : fat32ClusterNext fs cluster = 0
                · simp only [ends, if_true, Traced.value_pure]
                · simp only [ends, if_false, ih]
  simp only [fat32EntryFromTraced, fat32EntryFrom]
  split
  · rfl
  · exact clusters

@[simp] theorem skipClustersTraced_value :
    (skipClustersTraced fs passes cluster offset).value = skipClusters fs passes cluster offset := by
  induction passes generalizing cluster offset with
  | zero => rfl
  | succ passes ih =>
      rw [skipClustersTraced, skipClusters]
      split
      · rw [Traced.value_bind, fat32ClusterNextTraced_value]
        by_cases ends : fat32ClusterNext fs cluster = 0
        · simp only [ends, if_true, Traced.value_pure]
        · simp only [ends, if_false, ih]
      · rfl

@[simp] theorem copyClustersTraced_value :
    (copyClustersTraced fs size passes cluster offset curSize buf mem).value =
      copyClusters fs size passes cluster offset curSize buf mem := by
  induction passes generalizing cluster offset curSize buf mem with
  | zero => rfl
  | succ passes ih =>
      rw [copyClustersTraced, copyClusters]
      by_cases whole : curSize > fs.bytesPerCluster
      · rw [if_pos whole, if_pos whole, Traced.value_bind, Fat32.readRawTraced_value]
        generalize fs.readRaw (wrap64 (fs.clusterToBytes cluster + offset)) fs.bytesPerCluster buf
          mem = result
        obtain ⟨_ | _, mem₁⟩ := result
        · rfl
        · dsimp only
          rw [Traced.value_bind, fat32ClusterNextTraced_value]
          by_cases ends : fat32ClusterNext fs cluster = 0
          · rw [if_pos ends, if_pos ends, Traced.value_pure]
          · rw [if_neg ends, if_neg ends, ih]
      · rw [if_neg whole, if_neg whole]
        by_cases part : curSize > 0
        · have value := @Fat32.readTraced_value fs curSize buf
            (wrap64 (fs.clusterToBytes cluster + offset)) mem
          -- the read made opaque, since comparing it would compute with its numbers
          generalize fs.readTraced (wrap64 (fs.clusterToBytes cluster + offset)) curSize buf mem =
            traced at value ⊢
          rw [if_pos part, if_pos part, ← value]
          rcases traced with ⟨⟨_ | _, mem₁⟩, requests⟩
          · rfl
          · rfl
        · rw [if_neg part, if_neg part, Traced.value_pure]

/-- More passes than the offset has bytes make no difference. -/
theorem skipClusters_more (positive : 0 < fs.bytesPerCluster) (enough : offset < passes)
    (enough' : offset < fuel) : skipClusters fs passes cluster offset =
      skipClusters fs fuel cluster offset := by
  induction passes generalizing fuel cluster offset with
  | zero => cases enough
  | succ passes ih =>
      cases fuel with
      | zero => cases enough'
      | succ fuel =>
          rw [skipClusters, skipClusters]
          split
          · have less : offset - fs.bytesPerCluster < passes := by omega
            have less' : offset - fs.bytesPerCluster < fuel := by omega
            dsimp only
            rw [ih less less']
          · rfl

/-- Without its requests it is `fat32_read`, where a cluster has sectors. -/
theorem fat32ReadTraced_value (positive : 0 < fs.bytesPerCluster) :
    (fat32ReadTraced fs inode offset size buf mem fuel).value =
      fat32Read fs inode offset size buf mem fuel := by
  simp only [fat32ReadTraced, fat32Read]
  split
  · rfl
  cases inode.type with
  | link => rfl
  | dir =>
      rw [Traced.value_bind, fat32EntryGetTraced_value]
      rfl
  | file =>
      dsimp only
      split
      · rfl
      rw [Traced.value_bind, skipClustersTraced_value,
        @skipClusters_more fs inode.addr offset (offset + 1 + fuel) (offset + 1) positive (by omega)
          (by omega)]
      rcases skipClusters fs (offset + 1) inode.addr offset with _ | ⟨cluster, left⟩
      · rfl
      · dsimp only
        rw [Traced.value_bind, copyClustersTraced_value]
        rfl

end

end Sdx.Fs
