import Sdx.Fs.Fat32Scan
import Sdx.Fs.Fat32Volume
import Sdx.Lib.Fuel

/-! # Listing a directory and looking a name up

`fat32_entry_get` gives the names of a directory one after the other, and `fat32_entry_from`
finds an entry by its name. They agree on a directory of one cluster if the walk ends behind
it. The word that decides this is the one that the first sector of the FAT has at the
directory's position: on a volume with a longer FAT it may be the link of another file, and then
what that file holds is listed as if it were entries.
-/

namespace Sdx.Fs

open Sdx.Lib Sdx.Lib.Bytes

/-- A directory in one cluster, with its slots. -/
structure Directory (fs : Fat32) (clusters cluster : Nat) (slots : List Slot) : Prop where
  volume : Fat32Volume fs clusters
  is : IsCluster clusters cluster
  one : 0x0FFFFFF8 ≤ fs.fatEntry cluster
  holds : ∃ last others, fs.entriesIn cluster = slotEntries slots ++ last :: others ∧
    last.isLast = true

/-- The names come out at their offsets and nothing behind them, and each is found. -/
structure ListingAgrees (fs : Fat32) (cluster : Nat) (slots : List Slot) : Prop where
  get : ∀ k file size buffer mem, (filesOf slots)[k]? = some file →
    (file.name.length + 1 : Int) ≤ size → ∃ mem',
      Returns (fun fuel => fat32EntryGet fs size buffer mem fuel cluster k)
        ((file.name.length + 1 : Nat), mem') ∧ Lib.Bytes.Holds mem' buffer (file.name ++ [0])
  past : ∀ k size buffer mem, (filesOf slots).length ≤ k → ∃ mem',
    Returns (fun fuel => fat32EntryGet fs size buffer mem fuel cluster k) (-eRANGE, mem')
  lookup : ∀ file ∈ filesOf slots, ∃ found ∈ filesOf slots, found.HasName file.name ∧
    Returns (fun fuel => fat32EntryFrom fs cluster file.name fuel) (0, some found.short.entry)

/-- The data has the same sectors before the data clusters, and the same directory. -/
def SameDirectory (fs : Fat32) (cluster : Nat) (data : Memory) : Prop :=
  (∀ x, x < (fs.start + fs.firstDataSector) * fs.sectorSize → data x = fs.disk.data x) ∧
    ∀ x, fs.clusterAddress cluster ≤ x → x < fs.clusterAddress cluster + fs.clusterSize →
      data x = fs.disk.data x

/-! ## Other data around the directory -/

section

variable {fs : Fat32} {clusters cluster other k : Nat} {data : Memory} {slots : List Slot}

/-- The entries of a cluster do not depend on the other bytes. -/
theorem entriesIn_withData (same : ∀ x, fs.clusterAddress cluster ≤ x →
      x < fs.clusterAddress cluster + fs.clusterSize → data x = fs.disk.data x) :
    (fs.withData data).entriesIn cluster = fs.entriesIn cluster := by
  apply List.map_congr_left
  intro i mem
  have below := List.mem_range.mp mem
  have room : 32 * i + 32 ≤ fs.clusterSize := by
    have whole := Nat.div_mul_le_self fs.clusterSize 32
    change i < fs.clusterSize / 32 at below
    omega
  congr 2
  funext k
  apply same _ (Nat.le_add_right ..)
  omega

namespace Directory

theorem small (dir : Directory fs clusters cluster slots) : cluster < clusters + 2 := dir.is.2

theorem withData (dir : Directory fs clusters cluster slots)
    (same : SameDirectory fs cluster data) :
    Directory (fs.withData data) clusters cluster slots where
  volume := dir.volume.withData same.1
  is := dir.is
  one := by
    rw [dir.volume.fatEntry_withData dir.small same.1]
    exact dir.one
  holds := by
    rw [entriesIn_withData same.2]
    exact dir.holds

end Directory

end

/-! ## The walk over the directory -/

section

variable {fs : Fat32} {clusters cluster k buffer fuel : Nat} {size : Int} {mem : Memory}
  {slots : List Slot} {file : FileEntry}

namespace Directory

theorem get_at (dir : Directory fs clusters cluster slots) (at' : (filesOf slots)[k]? = some file) :
    ∃ rest, fat32EntryGet fs size buffer mem (fuel + 1) cluster k =
      (fat32EntryName size buffer mem (file.entries ++ rest)).map
        fun result => (result.value, result.mem) := by
  obtain ⟨last, others, entries, -⟩ := dir.holds
  obtain ⟨rest, found⟩ := @getScan_at k (last :: others) file slots at'
  refine ⟨rest, ?_⟩
  rw [fat32EntryGet, dir.volume.readEntries_eq dir.is, entries]
  simp only [found]

/-- Behind its files the walk leaves the directory. -/
theorem get_past (dir : Directory fs clusters cluster slots) (past : (filesOf slots).length ≤ k) :
    fat32EntryGet fs size buffer mem (fuel + 1) cluster k =
      if fat32ClusterNext fs cluster = 0 then some (-eRANGE, mem)
      else fat32EntryGet fs size buffer mem fuel (fat32ClusterNext fs cluster)
        (k - (filesOf slots).length) := by
  obtain ⟨last, others, entries, isLast⟩ := dir.holds
  have scan := @getScan_past k (last :: others) slots past
  rw [getScan, isLast, if_pos rfl] at scan
  rw [fat32EntryGet, dir.volume.readEntries_eq dir.is, entries]
  simp only [scan]

theorem lookup_found (dir : Directory fs clusters cluster slots)
    (readable : ∀ file ∈ filesOf slots, file.Readable) (listed : file ∈ filesOf slots) :
    ∃ found ∈ filesOf slots, found.HasName file.name ∧ ∀ fuel,
      fat32EntryFrom fs cluster file.name (fuel + 1) = some (0, some found.short.entry) := by
  obtain ⟨last, others, entries, -⟩ := dir.holds
  obtain ⟨found, listed', has, scan⟩ := @fromScan_found
    (slotEntries slots ++ last :: others).length fs.disk.stack file.name (last :: others) slots
    readable file.name_ne_zero ⟨file, listed, rfl⟩ (by rw [List.length_append]; omega)
  refine ⟨found, listed', has, fun fuel => ?_⟩
  have short : ¬ file.name.length + 1 > nameMax + 1 := by
    have length := file.name_length_lt
    omega
  rw [fat32EntryFrom, if_neg short, fromClusters, dir.volume.readEntries_eq dir.is, entries]
  simp only [scan]

/-- Readable names are listed and found when the walk ends with the directory. -/
theorem agrees (dir : Directory fs clusters cluster slots) (ends : fat32ClusterNext fs cluster = 0)
    (readable : ∀ file ∈ filesOf slots, file.Readable) : ListingAgrees fs cluster slots where
  get := by
    intro k file size buffer mem at' room
    have listed := List.mem_of_getElem? at'
    refine ⟨store mem buffer (file.name ++ [0]), ⟨1, ?_⟩, holds_store⟩
    intro fuel le
    obtain ⟨fuel, rfl⟩ := Nat.exists_eq_add_of_le' le
    obtain ⟨rest, walk⟩ := @get_at fs clusters cluster k buffer fuel size mem slots file dir at'
    simp only [walk]
    rw [FileEntry.entryName_readable (readable file listed) room]
    rfl
  past := by
    intro k size buffer mem past
    refine ⟨mem, 1, ?_⟩
    intro fuel le
    obtain ⟨fuel, rfl⟩ := Nat.exists_eq_add_of_le' le
    simp only [dir.get_past past]
    rw [if_pos ends]
  lookup := by
    intro file listed
    obtain ⟨found, listed', has, walk⟩ := dir.lookup_found readable listed
    refine ⟨found, listed', has, 1, ?_⟩
    intro fuel le
    obtain ⟨fuel, rfl⟩ := Nat.exists_eq_add_of_le' le
    exact walk fuel

/-- Names that are listed are readable. -/
theorem readable (dir : Directory fs clusters cluster slots)
    (agrees : ListingAgrees fs cluster slots) : ∀ file ∈ filesOf slots, file.Readable := by
  intro file listed
  obtain ⟨k, at'⟩ := List.mem_iff_getElem?.mp listed
  have room : (file.name.length + 1 : Int) ≤ (file.name.length + 1 : Nat) := by omega
  obtain ⟨mem', ⟨fuel, returns⟩, holds⟩ := agrees.get k file (file.name.length + 1 : Nat) 0
    fs.disk.stack at' room
  obtain ⟨rest, walk⟩ := @get_at fs clusters cluster k 0 fuel (file.name.length + 1 : Nat)
    fs.disk.stack slots file dir at'
  have result := returns (fuel + 1) (Nat.le_succ fuel)
  simp only at result
  rw [walk, Option.map_eq_some_iff] at result
  obtain ⟨⟨value, mem₁, rest'⟩, read, eq⟩ := result
  cases eq
  exact FileEntry.readable_of_entryName room read holds

end Directory

end

/-! ## A walk that goes on -/

/-- An entry that file data may come to. -/
def filledEntry : ShortEntry where
  entry := ⟨Vector.replicate 32 0x41⟩
  named := by decide +kernel
  used := by decide
  short := by decide

/-- The data with a cluster full of letters. -/
def Fat32.filled (fs : Fat32) (cluster : Nat) : Memory := fun x =>
  if fs.clusterAddress cluster ≤ x ∧ x < fs.clusterAddress cluster + fs.clusterSize then 0x41
  else fs.disk.data x

section

variable {fs : Fat32} {clusters cluster other k m buffer fuel : Nat} {size : Int}
  {mem data : Memory} {slots : List Slot}

theorem sameDirectory_filled (low : 2 ≤ cluster) (low' : 2 ≤ other) (apart : cluster ≠ other) :
    SameDirectory fs cluster (fs.filled other) := by
  constructor
  · intro x below
    have data := @Fat32Volume.data_below fs other
    exact if_neg (by omega)
  · intro x low'' high
    have disjoint := @Fat32Volume.clusters_apart fs cluster other low low' apart
    exact if_neg (by omega)

theorem entriesIn_cons (sized : 32 ≤ fs.clusterSize) :
    ∃ rest, fs.entriesIn other =
      ⟨Vector.ofFn fun k => fs.disk.data (fs.clusterAddress other + (32 * 0 + k))⟩ :: rest := by
  have some' : 1 ≤ fs.clusterSize / 32 := (Nat.one_le_div_iff (by decide)).mpr sized
  obtain ⟨n, count⟩ := Nat.exists_eq_add_of_le' some'
  rw [Fat32.entriesIn, count, List.range_succ_eq_map, List.map_cons]
  exact ⟨_, rfl⟩

/-- The entries of a cluster whose bytes from the `k`-th entry on are letters. -/
theorem entriesIn_letters (count : fs.clusterSize / 32 = k + m)
    (same : ∀ x, x < fs.clusterAddress cluster + 32 * k → data x = fs.disk.data x)
    (letters : ∀ x, fs.clusterAddress cluster + 32 * k ≤ x →
      x < fs.clusterAddress cluster + fs.clusterSize → data x = 0x41) :
    (fs.withData data).entriesIn cluster =
      (fs.entriesIn cluster).take k ++ List.replicate m filledEntry.entry := by
  have whole := Nat.div_mul_le_self fs.clusterSize 32
  have count' : (fs.withData data).clusterSize / 32 = k + m := count
  rw [Fat32.entriesIn, Fat32.entriesIn, count, count', List.range_add, List.map_append,
    List.map_append, List.take_left' (by simp)]
  refine congr_arg₂ _ ?_ ?_
  · apply List.map_congr_left
    intro i listed
    have below := List.mem_range.mp listed
    congr 2
    funext byte
    exact same _ (by change fs.clusterAddress cluster + (32 * i + byte) < _; omega)
  · rw [List.map_map, List.eq_replicate_iff]
    refine ⟨by simp, fun entry listed => ?_⟩
    obtain ⟨i, listed', rfl⟩ := List.mem_map.mp listed
    have below := List.mem_range.mp listed'
    have bytes : (Vector.ofFn fun byte : Fin 32 =>
        data (fs.clusterAddress cluster + (32 * (k + i) + byte))) = Vector.replicate 32 0x41 := by
      apply Vector.ext
      intro byte small
      rw [Vector.getElem_ofFn, Vector.getElem_replicate]
      exact letters _ (by dsimp only; omega) (by dsimp only; omega)
    exact congrArg DirEntry.mk bytes

theorem entriesIn_filled (sized : 32 ≤ fs.clusterSize) :
    ∃ rest, (fs.withData (fs.filled other)).entriesIn other = filledEntry.entry :: rest := by
  have some' : 1 ≤ fs.clusterSize / 32 := (Nat.one_le_div_iff (by decide)).mpr sized
  obtain ⟨n, count⟩ := Nat.exists_eq_add_of_le some'
  have entries := @entriesIn_letters fs other 0 (1 + n) (fs.filled other) (by omega)
    (fun _ below => if_neg (by omega)) fun _ low high => if_pos ⟨low, high⟩
  refine ⟨List.replicate n filledEntry.entry, ?_⟩
  rw [entries, Nat.add_comm 1 n]
  rfl

/-- Where the data of a file is read as a directory, its first bytes are listed. -/
theorem get_filled (volume : Fat32Volume fs clusters) (is : IsCluster clusters other)
    (buffer : Nat) (mem : Memory) (fuel : Nat)
    (same : ∀ x, x < (fs.start + fs.firstDataSector) * fs.sectorSize →
      fs.filled other x = fs.disk.data x) :
    ∃ mem', fat32EntryGet (fs.withData (fs.filled other)) 13 buffer mem (fuel + 1) other 0 =
      some (((filledEntry.shortName.length + 1 : Nat) : Int), mem') := by
  have sized : 32 ≤ fs.clusterSize := by
    have sector := Nat.le_of_dvd volume.sector volume.sector_entries
    have sectors := Nat.le_mul_of_pos_left fs.sectorSize volume.cluster_sectors
    exact Nat.le_trans sector sectors
  obtain ⟨rest, entries⟩ := @entriesIn_filled fs other sized
  have room := filledEntry.length_shortName_le
  rw [fat32EntryGet, (volume.withData same).readEntries_eq is, entries]
  simp only [getScan_found filledEntry.notLast filledEntry.used]
  rw [filledEntry.entryName_eq, filledEntry.decoded_fits (by omega)]
  exact ⟨_, rfl⟩

/-- An empty directory that leads to itself is walked forever. -/
theorem get_cycle (dir : Directory fs clusters cluster slots) (none' : filesOf slots = [])
    (next : fat32ClusterNext fs cluster = cluster) :
    fat32EntryGet fs size buffer mem fuel cluster 0 = none := by
  induction fuel with
  | zero => rfl
  | succ fuel ih =>
      have two := dir.is.1
      rw [dir.get_past (by rw [none']; exact Nat.le_refl 0), next, if_neg (by omega), none']
      exact ih

namespace Directory

/-- When nothing is ever listed behind the directory, the walk ends with it. -/
theorem ends (dir : Directory fs clusters cluster slots)
    (agrees : ∀ data, SameDirectory fs cluster data →
      ListingAgrees (fs.withData data) cluster slots) : fat32ClusterNext fs cluster = 0 := by
  by_contra more
  have is := dir.volume.clusterNext_cluster dir.small more
  by_cases cycle : fat32ClusterNext fs cluster = cluster
  · have self := agrees fs.disk.data ⟨fun _ _ => rfl, fun _ _ _ => rfl⟩
    change ListingAgrees fs cluster slots at self
    obtain ⟨mem', enough, returns⟩ := self.past (filesOf slots).length 256 0 fs.disk.stack
      (Nat.le_refl _)
    have result := returns (enough + 1) (Nat.le_succ enough)
    simp only at result
    rw [dir.get_past (Nat.le_refl _), if_neg more, cycle, Nat.sub_self] at result
    cases first : filesOf slots with
    | nil =>
        rw [get_cycle dir first cycle] at result
        cases result
    | cons file files =>
        have room := file.name_length_lt
        obtain ⟨mem₁, returns', -⟩ := self.get 0 file 256 0 fs.disk.stack (by rw [first]; rfl)
          (by unfold nameMax at room; omega)
        have returned : Returns (fun fuel => fat32EntryGet fs 256 0 fs.disk.stack fuel cluster 0)
            (-eRANGE, mem') := by
          refine ⟨enough, fun fuel le => ?_⟩
          have later := returns (fuel + 1) (by omega)
          simp only at later
          rwa [dir.get_past (Nat.le_refl _), if_neg more, cycle, Nat.sub_self] at later
        have same := congrArg Prod.fst (returns'.unique returned)
        change ((file.name.length + 1 : Nat) : Int) = -34 at same
        omega
  · have same := @sameDirectory_filled fs cluster (fat32ClusterNext fs cluster) dir.is.1 is.1
      (Ne.symm cycle)
    obtain ⟨mem', enough, returns⟩ := (agrees _ same).past (filesOf slots).length 13 0
      fs.disk.stack (Nat.le_refl _)
    obtain ⟨mem₁, listed⟩ := get_filled dir.volume is 0 fs.disk.stack enough same.1
    have result := returns (enough + 2) (by omega)
    simp only at result
    rw [(dir.withData same).get_past (Nat.le_refl _),
      dir.volume.clusterNext_withData dir.small same.1, if_neg more, Nat.sub_self, listed,
      Option.some.injEq] at result
    have value := congrArg Prod.fst result
    change ((filledEntry.shortName.length + 1 : Nat) : Int) = -34 at value
    omega

end Directory

/-- Listing and lookup agree on a directory, whatever other files hold, exactly when its names
    are readable and the first sector of the FAT has the end of a chain at its position. -/
theorem listingAgrees_iff (dir : Directory fs clusters cluster slots) :
    (∀ data, SameDirectory fs cluster data → ListingAgrees (fs.withData data) cluster slots) ↔
      fatEnds (fs.fatEntry (Fat32Volume.seen fs cluster)) ∧
        ∀ file ∈ filesOf slots, file.Readable := by
  rw [← dir.volume.clusterNext_zero dir.small]
  constructor
  · intro agrees
    have self := agrees fs.disk.data ⟨fun _ _ => rfl, fun _ _ _ => rfl⟩
    exact ⟨dir.ends agrees, dir.readable self⟩
  · rintro ⟨ends, readable⟩ data same
    have next := dir.volume.clusterNext_withData dir.small same.1
    exact (dir.withData same).agrees (next.trans ends) readable

end

/-- A volume with one data cluster: a directory with one file. -/
def oneFile : Fat32 where
  disk :=
    { sectorSize := 512
      data := fun x =>
        if 520 ≤ x ∧ x < 524 then 0xff else if 1024 ≤ x ∧ x < 1056 then 0x41 else 0
      answers := fun _ _ => true
      stack := fun _ => 0 }
  start := 0
  clusterSectorCount := 1
  fatSector := 1
  firstDataSector := 2

theorem directory_oneFile : Directory oneFile 1 2 [.used ⟨none, filledEntry⟩] where
  volume :=
    { sector := by decide
      sector_entries := by decide
      cluster_sectors := by decide
      fat_covers := by decide
      clusters_lt := by decide
      links := by decide
      size_lt := by decide
      readable := fun _ _ _ _ _ => rfl }
  is := by decide
  one := by decide
  holds := ⟨⟨Vector.replicate 32 0⟩, List.replicate 14 ⟨Vector.replicate 32 0⟩,
    by decide +kernel, by decide⟩

theorem listingAgrees_oneFile : ListingAgrees oneFile 2 [.used ⟨none, filledEntry⟩] := by
  have readable : ∀ file ∈ filesOf [.used ⟨none, filledEntry⟩], file.Readable := by
    intro file listed long has
    rw [List.mem_singleton.mp listed] at has
    cases has
  exact (listingAgrees_iff directory_oneFile).mpr ⟨by decide, readable⟩ oneFile.disk.data
    ⟨fun _ _ => rfl, fun _ _ _ => rfl⟩

/-- A volume whose FAT takes two sectors. The directory is cluster 130, the first word of the
    second sector but two; cluster 2 is followed by cluster 3. -/
def twoFatSectors : Fat32 where
  disk :=
    { sectorSize := 512
      data := fun x =>
        if x = 520 then 3 else if 524 ≤ x ∧ x < 528 ∨ 1032 ≤ x ∧ x < 1036 then 0xff else 0
      answers := fun _ _ => true
      stack := fun _ => 0 }
  start := 0
  clusterSectorCount := 1
  fatSector := 1
  firstDataSector := 3

theorem directory_twoFatSectors : Directory twoFatSectors 129 130 [] where
  volume :=
    { sector := by decide
      sector_entries := by decide
      cluster_sectors := by decide
      fat_covers := by decide
      clusters_lt := by decide
      links := by decide
      size_lt := by decide
      readable := fun _ _ _ _ _ => rfl }
  is := by decide
  one := by decide
  holds := by
    obtain ⟨rest, entries⟩ := @entriesIn_cons twoFatSectors 130 (by decide)
    exact ⟨_, rest, entries, by decide⟩

/-- The empty directory of cluster 130 lists what the file in cluster 3 holds. -/
theorem not_listingAgrees_twoFatSectors :
    Directory (twoFatSectors.withData (twoFatSectors.filled 3)) 129 130 [] ∧
      ¬ ListingAgrees (twoFatSectors.withData (twoFatSectors.filled 3)) 130 [] := by
  have same := @sameDirectory_filled twoFatSectors 130 3 (by decide) (by decide) (by decide)
  have dir := directory_twoFatSectors.withData same
  refine ⟨dir, fun agrees => ?_⟩
  have next : fat32ClusterNext (twoFatSectors.withData (twoFatSectors.filled 3)) 130 = 3 := by
    have volume := directory_twoFatSectors.volume
    have word : twoFatSectors.fatEntry (Fat32Volume.seen twoFatSectors 130) = 3 := by
      decide
    rw [volume.clusterNext_withData (by decide) same.1, volume.clusterNext_eq (by decide), word]
    rfl
  obtain ⟨mem', enough, returns⟩ := agrees.past 0 13 0 (fun _ => 0) (Nat.le_refl 0)
  obtain ⟨mem₁, listed⟩ := @get_filled twoFatSectors 129 3 directory_twoFatSectors.volume
    (by decide) 0 (fun _ => 0) enough same.1
  have result := returns (enough + 2) (by omega)
  simp only at result
  rw [dir.get_past (Nat.le_refl 0), next, if_neg (by decide)] at result
  change fat32EntryGet _ 13 0 _ (enough + 1) 3 0 = _ at result
  rw [listed, Option.some.injEq] at result
  have value := congrArg Prod.fst result
  change ((filledEntry.shortName.length + 1 : Nat) : Int) = -34 at value
  omega

end Sdx.Fs
