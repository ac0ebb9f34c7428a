import Sdx.Fs.Fat32Chain
import Sdx.Fs.Fat32Read
import Sdx.Fs.Fat32Requests

/-! # Looking a name up in a directory of several clusters

`fat32_entry_from` goes on to the next cluster only at a zero entry. It neither counts the
entries in its buffer nor carries a name that it has begun to read into the next cluster, and
behind the entries of a long name without a short one it passes over the zero entry as well.
-/

namespace Sdx.Fs

open Sdx.Lib Sdx.Lib.Bytes Sdx.Lib.LinkedList Sdx.Lib.Trace Sdx.Core

/-- Entries of a long name that have no short entry behind them: the first ones of the name, or
    later ones, and deleted entries behind. -/
inductive Orphan : List DirEntry → Prop where
  | leading {chars : List UInt8} {part missing deleted : List DirEntry}
      (set : LfnSet chars (part ++ missing)) (length_lt : chars.length < nameMax)
      (some' : part ≠ []) (unused : ∀ entry ∈ deleted, entry.isUnused = true) :
      Orphan (part ++ deleted)
  | following {chars : List UInt8} {i : Nat} {part missing deleted : List DirEntry}
      (run : LfnRun chars i (part ++ missing)) (small : i ≤ 20) (some' : part ≠ [])
      (unused : ∀ entry ∈ deleted, entry.isUnused = true) : Orphan (part ++ deleted)

/-- What is behind the entries of a directory: a zero entry and anything, or the end of its chain. -/
inductive DirectoryEnd : Bool → List DirEntry → Prop where
  | marked {last : DirEntry} {others : List DirEntry} (isLast : last.isLast = true) :
      DirectoryEnd true (last :: others)
  | chain : DirectoryEnd false []

/-- A directory in a chain of clusters: its slots, and at the end what is left of a name. -/
structure DirectoryChain (fs : Fat32) (clusters cluster : Nat) (chain : List Nat)
    (slots : List Slot) (orphan : List DirEntry) (marked : Bool) : Prop where
  volume : Fat32Volume fs clusters
  is : IsCluster clusters cluster
  walk : Walk (clusterLink fs.fatNext) (some cluster) chain
  readable : ∀ file ∈ filesOf slots, file.Readable
  orphaned : orphan = [] ∨ Orphan orphan
  holds : ∃ behind, chain.flatMap fs.entriesIn = slotEntries slots ++ orphan ++ behind ∧
    DirectoryEnd marked behind

/-- A name of a file is found, another name is not, and nothing is read but the FAT and the
    clusters of the directory. -/
structure LooksUpAll (fs : Fat32) (cluster : Nat) (chain : List Nat) (slots : List Slot) : Prop where
  found : ∀ s : List UInt8, (∀ c ∈ s, c ≠ 0) → s.length ≤ nameMax →
    (∃ file ∈ filesOf slots, file.HasName s) →
    ∃ file ∈ filesOf slots, file.HasName s ∧
      Returns (fun fuel => fat32EntryFrom fs cluster s fuel) (0, some file.short.entry)
  missing : ∀ s : List UInt8, (∀ c ∈ s, c ≠ 0) → s.length ≤ nameMax →
    (∀ file ∈ filesOf slots, ¬ file.HasName s) →
    Returns (fun fuel => fat32EntryFrom fs cluster s fuel) (-eNOENT, none)
  inside : ∀ s fuel, (fat32EntryFromTraced fs cluster s fuel).Only fun request =>
    request = ⟨fs.start + fs.fatSector, 1⟩ ∨ ∃ passed ∈ chain, request =
      ⟨fs.start + (fs.firstDataSector + fs.clusterSectorCount * (passed - 2)),
        fs.clusterSectorCount⟩

/-- Names are looked up in the directory whatever the volume holds besides. -/
def LooksUpAlways (fs : Fat32) (clusters cluster : Nat) (chain : List Nat) (slots : List Slot)
    (orphan : List DirEntry) (marked : Bool) : Prop :=
  ∀ data, fs.SameFat data →
    DirectoryChain (fs.withData data) clusters cluster chain slots orphan marked →
    LooksUpAll (fs.withData data) cluster chain slots

/-! ## Clusters without a zero entry -/

section

variable {size : Int} {name total index passes fuel clusters cluster : Nat} {mem mem' : Memory}
  {s : List UInt8} {list : List DirEntry} {result : EntryName} {fs : Fat32}

theorem nextEntryName_suffix (decode : nextEntryName size name total index mem list = some result) :
    result.entry <:+ list := by
  induction list generalizing total index mem with
  | nil => cases decode
  | cons entry rest ih =>
      rw [nextEntryName] at decode
      split at decode
      · cases decode
        exact List.suffix_refl _
      split at decode
      · exact (ih decode).trans (List.suffix_cons entry rest)
      split at decode
      · cases decode
        exact List.suffix_refl _
      · exact (ih decode).trans (List.suffix_cons entry rest)

theorem entryName_suffix (decode : fat32EntryName size name mem list = some result) :
    result.entry <:+ list := by
  cases list with
  | nil => cases decode
  | cons entry rest =>
      rw [fat32EntryName] at decode
      split at decode
      · cases decode
        exact List.suffix_refl _
      · exact (nextEntryName_suffix decode).trans (List.suffix_cons entry rest)

/-- Only a zero entry takes the scan to the next cluster. -/
theorem fromScan_ne_last (full : ∀ entry ∈ list, entry.isLast = false) :
    fromScan size s passes mem list ≠ .last mem' := by
  induction passes generalizing list mem with
  | zero =>
      intro found
      cases found
  | succ passes ih =>
      cases list with
      | nil =>
          intro found
          cases found
      | cons cur rest =>
          have behind {others : List DirEntry} (suffix : others <:+ cur :: rest) :
              ∀ entry ∈ others, entry.isLast = false :=
            fun entry listed => full entry (suffix.subset listed)
          rw [fromScan, full cur List.mem_cons_self]
          simp only [Bool.false_eq_true, if_false]
          split
          · exact ih (behind (List.suffix_cons cur rest))
          cases decode : fat32EntryName size 0 mem (cur :: rest) with
          | none =>
              intro found
              cases found
          | some result =>
              have suffix := entryName_suffix decode
              dsimp only
              split
              · exact ih (behind ((List.tail_suffix _).trans suffix))
              cases here : result.entry with
              | nil =>
                  intro found
                  cases found
              | cons cur' rest' =>
                  rw [here] at suffix
                  dsimp only
                  split
                  · intro found
                    cases found
                  · exact ih (behind ((List.suffix_cons cur' rest').trans suffix))

/-- A scan that does not come to a zero entry does not miss a name. -/
theorem fromClusters_ne_missing (volume : Fat32Volume fs clusters) (is : IsCluster clusters cluster)
    (open' : ∀ mem', fromScan size s (fs.entriesIn cluster).length mem (fs.entriesIn cluster) ≠
      .last mem') : fromClusters fs size s fuel cluster mem ≠ some (-eNOENT, none) := by
  cases fuel with
  | zero =>
      intro missing
      cases missing
  | succ fuel =>
      rw [fromClusters, volume.readEntries_eq is]
      dsimp only
      cases scan : fromScan size s (fs.entriesIn cluster).length mem (fs.entriesIn cluster) with
      | outside =>
          intro missing
          cases missing
      | last mem' => exact absurd scan (open' mem')
      | found entry =>
          intro missing
          cases missing

/-- At a zero entry the scan goes on with the cluster that is taken for the next one. -/
theorem fromClusters_last (volume : Fat32Volume fs clusters) (is : IsCluster clusters cluster)
    (scan : fromScan size s (fs.entriesIn cluster).length mem (fs.entriesIn cluster) = .last mem') :
    fromClusters fs size s (fuel + 1) cluster mem =
      if fat32ClusterNext fs cluster = 0 then some (-eNOENT, none)
      else fromClusters fs size s fuel (fat32ClusterNext fs cluster) mem' := by
  rw [fromClusters, volume.readEntries_eq is]
  simp only [scan]

/-- A cluster that leads to itself is scanned forever. -/
theorem fromClusters_cycle (volume : Fat32Volume fs clusters) (is : IsCluster clusters cluster)
    (scan : ∀ mem, ∃ mem', fromScan size s (fs.entriesIn cluster).length mem
      (fs.entriesIn cluster) = .last mem')
    (next : fat32ClusterNext fs cluster = cluster) :
    fromClusters fs size s fuel cluster mem = none := by
  induction fuel generalizing mem with
  | zero => rfl
  | succ fuel ih =>
      obtain ⟨mem', last⟩ := scan mem
      have two := is.1
      rw [fromClusters_last volume is last, next, if_neg (by omega)]
      exact ih

theorem fat32EntryFrom_eq (short : s.length ≤ nameMax) : fat32EntryFrom fs cluster s fuel =
    fromClusters fs (s.length + 1 : Nat) s fuel cluster fs.disk.stack := by
  rw [fat32EntryFrom, if_neg (by omega)]

/-- More steps do not change a result. -/
theorem fromClusters_more {r : Int × Option DirEntry}
    (done : fromClusters fs size s fuel cluster mem = some r) (more : Nat) :
    fromClusters fs size s (fuel + more) cluster mem = some r := by
  induction fuel generalizing cluster mem with
  | zero => cases done
  | succ fuel ih =>
      rw [Nat.add_right_comm]
      rw [fromClusters] at done ⊢
      cases read : readEntries fs cluster with
      | none =>
          rw [read] at done
          exact done
      | some entries =>
          rw [read] at done
          dsimp only at done ⊢
          cases scan : fromScan size s entries.length mem entries with
          | outside =>
              rw [scan] at done
              cases done
          | found entry =>
              rw [scan] at done
              exact done
          | last mem' =>
              rw [scan] at done
              dsimp only at done ⊢
              split at done
              · next ended =>
                  rw [if_pos ended]
                  exact done
              · next goes =>
                  rw [if_neg goes]
                  exact ih done

theorem fat32EntryFrom_returns {r : Int × Option DirEntry}
    (done : fat32EntryFrom fs cluster s fuel = some r) :
    Returns (fun fuel => fat32EntryFrom fs cluster s fuel) r := by
  refine @Returns.of_more _ _ _ fuel fun more => ?_
  rw [fat32EntryFrom] at done ⊢
  split at done
  · next long =>
      rw [if_pos long]
      exact done
  · next fits =>
      rw [if_neg fits]
      exact fromClusters_more done more

theorem fat32EntryFrom_missing (volume : Fat32Volume fs clusters) (is : IsCluster clusters cluster)
    (short : s.length ≤ nameMax) (next : fat32ClusterNext fs cluster = 0)
    (scan : fromScan (s.length + 1 : Nat) s (fs.entriesIn cluster).length fs.disk.stack
      (fs.entriesIn cluster) = .last mem') :
    Returns (fun fuel => fat32EntryFrom fs cluster s fuel) (-eNOENT, none) := by
  refine .step (fun fuel => ?_) (.const _)
  rw [fat32EntryFrom_eq short, fromClusters_last volume is scan, if_pos next]

end

/-! ## What the scan makes of an orphan -/

section

variable {size : Int} {name total index passes : Nat} {mem : Memory} {s : List UInt8}
  {deleted others entries : List DirEntry} {last : DirEntry} {slots : List Slot}

/-- An orphan is entries of a name and deleted ones. -/
theorem Orphan.parts (orphan : Orphan entries) : ∃ lfn part deleted,
    entries = lfn :: part ++ deleted ∧
      (∀ entry ∈ lfn :: part, entry.isLast = false ∧ entry.isUnused = false) ∧
      ∀ entry ∈ deleted, entry.isUnused = true := by
  have split' {part missing deleted : List DirEntry} (some' : part ≠ [])
      (lfns : ∀ entry ∈ part ++ missing, entry.isLast = false ∧ entry.isUnused = false ∧
        entry.attr = fat32AttrLfn) (unused : ∀ entry ∈ deleted, entry.isUnused = true) :
      ∃ lfn part' deleted', part ++ deleted = lfn :: part' ++ deleted' ∧
        (∀ entry ∈ lfn :: part', entry.isLast = false ∧ entry.isUnused = false) ∧
        ∀ entry ∈ deleted', entry.isUnused = true := by
    obtain ⟨lfn, part', rfl⟩ := List.exists_cons_of_ne_nil some'
    refine ⟨lfn, part', deleted, rfl, fun entry listed => ?_, unused⟩
    obtain ⟨notLast, used, -⟩ := lfns entry (List.mem_append_left _ listed)
    exact ⟨notLast, used⟩
  cases orphan with
  | leading set length_lt some' unused => exact split' some' (set.lfns length_lt) unused
  | following run small some' unused => exact split' some' (run.lfns small) unused

theorem Orphan.notLast (orphan : Orphan entries) : ∀ entry ∈ entries, entry.isLast = false := by
  obtain ⟨lfn, part, deleted, rfl, lfns, unused⟩ := orphan.parts
  intro entry listed
  obtain here | there := List.mem_append.mp listed
  · exact (lfns entry here).1
  · exact not_last_of_unused (unused entry there)

theorem nextEntryName_deleted (unused : ∀ entry ∈ deleted, entry.isUnused = true)
    (isLast : last.isLast = true) :
    nextEntryName size name total index mem (deleted ++ last :: others) =
      some ⟨-eRANGE, mem, last :: others⟩ := by
  induction deleted with
  | nil => rw [List.nil_append, nextEntryName, isLast, if_pos rfl]
  | cons entry deleted ih =>
      have here := unused entry List.mem_cons_self
      rw [List.cons_append, nextEntryName, not_last_of_unused here, here]
      exact ih fun entry listed => unused entry (List.mem_cons_of_mem _ listed)

/-- With room for any name, decoding an orphan ends at the zero entry. -/
theorem Orphan.entryName_eq (orphan : Orphan entries) (isLast : last.isLast = true) :
    ∃ mem', fat32EntryName (nameMax + 1 : Nat) name mem (entries ++ last :: others) =
      some ⟨-eRANGE, mem', last :: others⟩ := by
  cases orphan with
  | @leading chars part missing deleted set length_lt some' unused =>
      cases part with
      | nil => exact absurd rfl some'
      | cons lfn part =>
          cases set with
          | @mk i _ _ order is run low high =>
              have twenty := length_lt
              unfold nameMax at twenty
              have read := is.length_le
              rw [List.length_take, List.length_drop] at read
              rw [List.append_assoc, List.cons_append, fat32EntryName,
                parseEntry_first order is (by omega)]
              by_cases none' : 13 * i + (fat32LfnRead lfn).length = 0
              · rw [if_pos none']
                dsimp only
                rw [nextEntryName_stray run (by omega), nextEntryName_deleted unused isLast]
                exact ⟨mem, rfl⟩
              · rw [if_neg none', nameCheck_fits (by unfold nameMax; omega) (by unfold nameMax; omega)]
                dsimp only
                obtain ⟨index, mem', walk⟩ := @nextEntryName_part (nameMax + 1 : Nat) name i
                  (13 * i + (fat32LfnRead lfn).length) 0 (store mem (name + 13 * i)
                    (fat32LfnRead lfn)) chars part missing (deleted ++ last :: others) run none'
                  (by unfold nameMax; omega) (by unfold nameMax; omega)
                rw [Nat.add_zero (13 * i)] at walk
                rw [walk, nextEntryName_deleted unused isLast]
                exact ⟨mem', rfl⟩
  | @following chars i part missing deleted run small some' unused =>
      cases part with
      | nil => exact absurd rfl some'
      | cons lfn part =>
          cases run with
          | @cons i _ _ order is run =>
              obtain ⟨-, -, notFirst⟩ := lfn_order (by omega) order
              rw [List.append_assoc, List.cons_append, fat32EntryName,
                parseEntry_stray is.attr notFirst]
              dsimp only
              rw [nextEntryName_stray run (by omega), nextEntryName_deleted unused isLast]
              exact ⟨mem, rfl⟩

/-- So the scan goes on behind the zero entry. -/
theorem Orphan.fromScan_eq (orphan : Orphan entries) (isLast : last.isLast = true) :
    ∃ mem', fromScan (nameMax + 1 : Nat) s (passes + 1) mem (entries ++ last :: others) =
      fromScan (nameMax + 1 : Nat) s passes mem' others := by
  obtain ⟨mem', decode⟩ := @Orphan.entryName_eq 0 mem others entries last orphan isLast
  obtain ⟨lfn, part, deleted, rfl, lfns, -⟩ := orphan.parts
  obtain ⟨notLast, used⟩ := lfns lfn List.mem_cons_self
  rw [List.cons_append, List.cons_append] at decode ⊢
  have failed : -eRANGE < 0 := by decide
  exact ⟨mem', fromScan_failed notLast used decode failed⟩

/-- Nothing of the slots ends the directory. -/
theorem slotEntries_notLast : ∀ entry ∈ slotEntries slots, entry.isLast = false := by
  intro entry listed
  obtain ⟨slot, -, listed'⟩ := List.mem_flatMap.mp listed
  cases slot with
  | deleted entry' unused =>
      rw [List.mem_singleton.mp listed']
      exact not_last_of_unused unused
  | used file =>
      obtain ⟨long, short⟩ := file
      cases long with
      | none =>
          rw [List.mem_singleton.mp listed']
          exact short.notLast
      | some long =>
          obtain lfn | closing := List.mem_append.mp listed'
          · exact (long.lfns entry lfn).1
          · rw [List.mem_singleton.mp closing]
            exact short.notLast

/-- Where no file answers to the name, the scan ends at the zero entry behind the slots. -/
theorem fromScan_missing (readable : ∀ file ∈ filesOf slots, file.Readable)
    (nonzero' : ∀ c ∈ s, c ≠ 0) (isLast : last.isLast = true)
    (others' : ∀ file ∈ filesOf slots, ¬ file.Answers s) :
    ∃ mem', fromScan (s.length + 1 : Nat) s (slotEntries slots ++ last :: others).length mem
      (slotEntries slots ++ last :: others) = .last mem' := by
  obtain ⟨file, listed, answers, -⟩ | ⟨-, passes', mem', left', next⟩ :=
    @fromScan_slots (slotEntries slots ++ last :: others).length mem s (last :: others) slots
      readable nonzero' (by rw [List.length_append]; omega)
  · exact absurd answers (others' file listed)
  · rw [List.length_append, List.length_cons] at left'
    obtain ⟨passes, rfl⟩ := Nat.exists_eq_add_of_le' (show 1 ≤ passes' by omega)
    refine ⟨mem', ?_⟩
    rw [next, fromScan, if_pos isLast]

end

/-! ## Other data behind the directory -/

/-- The data with a cluster full of letters from an entry on. -/
def Fat32.filledFrom (fs : Fat32) (cluster k : Nat) : Memory := fun x =>
  if fs.clusterAddress cluster + 32 * k ≤ x ∧ x < fs.clusterAddress cluster + fs.clusterSize then 0x41
  else fs.disk.data x

section

variable {fs : Fat32} {clusters cluster other k m : Nat} {chain : List Nat} {data : Memory}
  {slots : List Slot} {orphan others : List DirEntry} {last : DirEntry} {marked : Bool}

theorem sameFat_filledFrom : fs.SameFat (fs.filledFrom cluster k) := by
  intro x below
  have data := @Fat32Volume.data_below fs cluster
  exact if_neg (by omega)

theorem entriesIn_filledFrom (count : fs.clusterSize / 32 = k + m) :
    (fs.withData (fs.filledFrom cluster k)).entriesIn cluster =
      (fs.entriesIn cluster).take k ++ List.replicate m filledEntry.entry :=
  entriesIn_letters count (fun _ below => if_neg (by omega)) fun _ low high => if_pos ⟨low, high⟩

theorem filled_notLast : ∀ entry ∈ List.replicate m filledEntry.entry, entry.isLast = false := by
  intro entry listed
  rw [List.eq_of_mem_replicate listed]
  exact filledEntry.notLast

theorem fatNext_cluster (volume : Fat32Volume fs clusters) (small : cluster < clusters + 2)
    (more : fs.fatNext cluster ≠ 0) : IsCluster clusters (fs.fatNext cluster) := by
  rw [Fat32.fatNext] at more ⊢
  split at more
  case isFalse => exact absurd rfl more
  case isTrue low =>
      rw [if_pos low]
      obtain (zero | high) | is := volume.links cluster small
      · exact absurd zero more
      · exact absurd low (Nat.not_lt.mpr high)
      · exact is

/-- A chain of the FAT stays among the clusters. -/
theorem chain_clusters (volume : Fat32Volume fs clusters) (is : IsCluster clusters cluster)
    (walk : Walk (clusterLink fs.fatNext) (some cluster) chain) :
    ∀ passed ∈ chain, IsCluster clusters passed := by
  induction chain generalizing cluster with
  | nil => exact fun passed none' => absurd none' List.not_mem_nil
  | cons first more ih =>
      cases walk with
      | visit walk =>
          intro passed listed
          obtain rfl | later := List.mem_cons.mp listed
          · exact is
          rw [clusterLink] at walk
          split at walk
          · cases walk
            cases later
          · next link => exact ih (fatNext_cluster volume is.2 link) walk passed later

namespace DirectoryChain

theorem chain_cons (dir : DirectoryChain fs clusters cluster chain slots orphan marked) :
    ∃ more, chain = cluster :: more := by
  cases dir.walk with
  | visit walk => exact ⟨_, rfl⟩

theorem notLast (dir : DirectoryChain fs clusters cluster chain slots orphan marked) :
    ∀ entry ∈ slotEntries slots ++ orphan, entry.isLast = false := by
  intro entry listed
  obtain slot | left' := List.mem_append.mp listed
  · exact slotEntries_notLast entry slot
  · obtain rfl | orphaned := dir.orphaned
    · cases left'
    · exact orphaned.notLast entry left'

/-- With other data the directory is the same where its first cluster is, up to the zero entry. -/
theorem withData (dir : DirectoryChain fs clusters cluster chain slots orphan marked)
    (same : fs.SameFat data) (isLast : last.isLast = true)
    (first : (fs.withData data).entriesIn cluster = slotEntries slots ++ orphan ++ last :: others) :
    DirectoryChain (fs.withData data) clusters cluster chain slots orphan true where
  volume := dir.volume.withData same
  is := dir.is
  walk := by
    refine dir.walk.congr fun passed listed => clusterLink_eq_iff.mpr ?_
    have small := (chain_clusters dir.volume dir.is dir.walk passed listed).2
    rw [Fat32.fatNext, dir.volume.fatEntry_withData small same]
    rfl
  readable := dir.readable
  orphaned := dir.orphaned
  holds := by
    obtain ⟨more, rfl⟩ := dir.chain_cons
    refine ⟨last :: (others ++ more.flatMap (fs.withData data).entriesIn), ?_, .marked isLast⟩
    rw [List.flatMap_cons, first, List.append_assoc, List.cons_append]

/-- A zero entry in the first cluster is the one that ends the directory. -/
theorem first (dir : DirectoryChain fs clusters cluster chain slots orphan marked)
    (zero : ∃ entry ∈ fs.entriesIn cluster, entry.isLast = true) : marked = true ∧
      ∃ last others, fs.entriesIn cluster = slotEntries slots ++ orphan ++ last :: others ∧
        last.isLast = true := by
  obtain ⟨entry, listed, isLast⟩ := zero
  obtain ⟨more, rfl⟩ := dir.chain_cons
  obtain ⟨behind, holds, ends⟩ := dir.holds
  rw [List.flatMap_cons] at holds
  have outside : entry ∉ slotEntries slots ++ orphan := by
    intro inside
    rw [dir.notLast entry inside] at isLast
    cases isLast
  obtain ⟨part, whole, -⟩ | ⟨part, whole, rest⟩ := List.append_eq_append_iff.mp holds
  · exact absurd (whole ▸ List.mem_append_left part listed) outside
  · cases part with
    | nil =>
        rw [List.append_nil] at whole
        exact absurd (whole ▸ listed) outside
    | cons last others =>
        rw [List.cons_append] at rest
        subst rest
        cases ends with
        | marked isLast => exact ⟨rfl, last, others, whole, isLast⟩

/-- The first cluster has a zero entry when it has room behind the slots. -/
theorem zero_of_room (dir : DirectoryChain fs clusters cluster chain slots [] true)
    (room : (slotEntries slots).length < fs.clusterSize / 32) :
    ∃ entry ∈ fs.entriesIn cluster, entry.isLast = true := by
  obtain ⟨more, rfl⟩ := dir.chain_cons
  obtain ⟨behind, holds, ends⟩ := dir.holds
  rw [List.flatMap_cons, List.append_nil] at holds
  cases ends with
  | @marked last others isLast =>
      have length : (fs.entriesIn cluster).length = fs.clusterSize / 32 := by
        simp [Fat32.entriesIn]
      obtain ⟨part, whole, -⟩ | ⟨part, whole, rest⟩ := List.append_eq_append_iff.mp holds
      · have lengths := congrArg List.length whole
        rw [List.length_append] at lengths
        omega
      · cases part with
        | nil =>
            have lengths := congrArg List.length whole
            rw [List.append_nil] at lengths
            omega
        | cons last' others' =>
            obtain ⟨rfl, -⟩ := List.cons.inj rest
            refine ⟨last, ?_, isLast⟩
            rw [whole]
            exact List.mem_append_right _ List.mem_cons_self

end DirectoryChain

end

/-! ## A name that no file has -/

/-- It is longer than the names of files. -/
def longestName : List UInt8 := List.replicate nameMax 0x42

theorem length_longestName : longestName.length = nameMax := List.length_replicate

theorem longestName_ne_zero : ∀ c ∈ longestName, c ≠ 0 := by
  intro c listed
  rw [List.eq_of_mem_replicate listed]
  decide

theorem not_hasName_longestName (file : FileEntry) : ¬ file.HasName longestName := by
  rintro (short | ⟨long, -, same⟩)
  · have le := file.short.length_shortName_le
    rw [← short, length_longestName] at le
    exact absurd le (by decide)
  · have lt := long.length_lt
    rw [← same, length_longestName] at lt
    exact Nat.lt_irrefl _ lt

section

variable {fs : Fat32} {clusters cluster fuel : Nat} {chain : List Nat} {s : List UInt8}
  {slots : List Slot} {orphan others : List DirEntry} {last : DirEntry} {marked : Bool}

theorem LooksUpAll.longest (looks : LooksUpAll fs cluster chain slots) : ∃ fuel,
    fromClusters fs (nameMax + 1 : Nat) longestName (fuel + 2) cluster fs.disk.stack =
      some (-eNOENT, none) := by
  have le := Nat.le_of_eq length_longestName
  obtain ⟨enough, returns⟩ := looks.missing longestName longestName_ne_zero le
    fun file _ => not_hasName_longestName file
  have result := returns (enough + 2) (by omega)
  dsimp only at result
  rw [fat32EntryFrom_eq le, length_longestName] at result
  exact ⟨enough, result⟩

namespace DirectoryChain

theorem zero_of_looksUpAll (dir : DirectoryChain fs clusters cluster chain slots orphan marked)
    (looks : LooksUpAll fs cluster chain slots) :
    ∃ entry ∈ fs.entriesIn cluster, entry.isLast = true := by
  by_contra none'
  have full : ∀ entry ∈ fs.entriesIn cluster, entry.isLast = false :=
    fun entry listed => Bool.eq_false_iff.mpr fun isLast => none' ⟨entry, listed, isLast⟩
  obtain ⟨fuel, result⟩ := looks.longest
  exact fromClusters_ne_missing dir.volume dir.is (fun mem' => fromScan_ne_last full) result

/-- An orphan takes the scan behind the zero entry, where it may find entries up to the end of the
    buffer. -/
theorem orphan_eq_nil (dir : DirectoryChain fs clusters cluster chain slots orphan true)
    (first : fs.entriesIn cluster = slotEntries slots ++ orphan ++ last :: others)
    (isLast : last.isLast = true)
    (looks : LooksUpAlways fs clusters cluster chain slots orphan true) : orphan = [] := by
  by_contra some'
  have orphaned := dir.orphaned.resolve_left some'
  have count : fs.clusterSize / 32 = (slotEntries slots ++ orphan).length + 1 + others.length := by
    have length : (fs.entriesIn cluster).length = fs.clusterSize / 32 := by simp [Fat32.entriesIn]
    rw [← length, first, List.length_append, List.length_cons]
    omega
  have entries := @entriesIn_filledFrom fs cluster _ _ count
  have part : slotEntries slots ++ orphan ++ last :: others =
      (slotEntries slots ++ orphan ++ [last]) ++ others := by
    rw [List.append_assoc _ [last] others, List.singleton_append]
  rw [first, part, List.take_left' (by rw [List.length_append, List.length_singleton]),
    List.append_assoc _ [last], List.singleton_append] at entries
  have dir' := dir.withData sameFat_filledFrom isLast entries
  obtain ⟨fuel, result⟩ := (looks _ sameFat_filledFrom dir').longest
  refine fromClusters_ne_missing dir'.volume dir.is (fun mem' => ?_) result
  rw [entries, List.append_assoc]
  have walk := @fromScan_slots (slotEntries slots ++ (orphan ++
      last :: List.replicate others.length filledEntry.entry)).length fs.disk.stack longestName
    (orphan ++ last :: List.replicate others.length filledEntry.entry) slots dir.readable
    longestName_ne_zero (by rw [List.length_append]; omega)
  rw [length_longestName] at walk
  obtain ⟨file, -, answers, -⟩ | ⟨-, passes, mem, left', next⟩ := walk
  · exact absurd answers.hasName (not_hasName_longestName file)
  · rw [List.length_append, List.length_append, List.length_cons] at left'
    obtain ⟨passes, rfl⟩ := Nat.exists_eq_add_of_le' (show 1 ≤ passes by omega)
    obtain ⟨mem₁, behind⟩ := @Orphan.fromScan_eq passes mem longestName
      (List.replicate others.length filledEntry.entry) orphan last orphaned isLast
    change fromScan _ _ _ fs.disk.stack _ ≠ _
    rw [next, behind]
    exact fromScan_ne_last filled_notLast

/-- The word that is taken for the successor of the first cluster ends the walk. -/
theorem successor_eq_zero (dir : DirectoryChain fs clusters cluster chain slots [] true)
    (first : fs.entriesIn cluster = slotEntries slots ++ last :: others)
    (isLast : last.isLast = true)
    (looks : LooksUpAlways fs clusters cluster chain slots [] true) :
    fat32ClusterNext fs cluster = 0 := by
  by_contra more
  have is := dir.volume.clusterNext_cluster dir.is.2 more
  have scan (mem : Memory) : ∃ mem', fromScan (nameMax + 1 : Nat) longestName
      (fs.entriesIn cluster).length mem (fs.entriesIn cluster) = .last mem' := by
    have missing := @fromScan_missing mem longestName others last slots dir.readable
      longestName_ne_zero isLast fun file _ answers =>
        not_hasName_longestName file answers.hasName
    rw [length_longestName, ← first] at missing
    exact missing
  by_cases cycle : fat32ClusterNext fs cluster = cluster
  · obtain ⟨fuel, result⟩ := (looks fs.disk.data (fun _ _ => rfl) dir).longest
    have cycles := @fromClusters_cycle (nameMax + 1 : Nat) (fuel + 2) clusters cluster fs.disk.stack
      longestName fs dir.volume dir.is scan cycle
    exact absurd (result.symm.trans cycles) (Option.some_ne_none _)
  · have data : ∀ x, fs.clusterAddress cluster ≤ x →
        x < fs.clusterAddress cluster + fs.clusterSize →
        fs.filledFrom (fat32ClusterNext fs cluster) 0 x = fs.disk.data x := by
      intro x low high
      have apart := @Fat32Volume.clusters_apart fs cluster _ dir.is.1 is.1 (Ne.symm cycle)
      exact if_neg (by omega)
    have same := @sameFat_filledFrom fs (fat32ClusterNext fs cluster) 0
    have entries := (entriesIn_withData data).trans first
    have entries' : (fs.withData (fs.filledFrom (fat32ClusterNext fs cluster) 0)).entriesIn cluster =
        slotEntries slots ++ [] ++ last :: others := by rw [entries, List.append_nil]
    have dir' := dir.withData same isLast entries'
    obtain ⟨fuel, result⟩ : ∃ fuel,
        fromClusters (fs.withData (fs.filledFrom (fat32ClusterNext fs cluster) 0)) (nameMax + 1 : Nat)
          longestName (fuel + 2) cluster fs.disk.stack = some (-eNOENT, none) :=
      (looks _ same dir').longest
    obtain ⟨mem', ends⟩ := scan fs.disk.stack
    have ends' : fromScan (nameMax + 1 : Nat) longestName
        ((fs.withData (fs.filledFrom (fat32ClusterNext fs cluster) 0)).entriesIn cluster).length
        fs.disk.stack
        ((fs.withData (fs.filledFrom (fat32ClusterNext fs cluster) 0)).entriesIn cluster) =
          .last mem' := by
      rw [entriesIn_withData data]
      exact ends
    rw [fromClusters_last dir'.volume dir.is ends',
      dir.volume.clusterNext_withData dir.is.2 same, if_neg more] at result
    refine fromClusters_ne_missing dir'.volume is (fun mem' => ?_) result
    rw [entriesIn_filledFrom (Nat.zero_add _).symm, List.take_zero, List.nil_append]
    exact fromScan_ne_last filled_notLast

/-- A file is found under its short name, by that name or by the long name of another file. -/
theorem answers_shortName (dir : DirectoryChain fs clusters cluster chain slots [] true)
    (first : fs.entriesIn cluster = slotEntries slots ++ last :: others)
    (isLast : last.isLast = true) (next : fat32ClusterNext fs cluster = 0)
    (looks : LooksUpAll fs cluster chain slots) (file : FileEntry) (listed : file ∈ filesOf slots) :
    ∃ other ∈ filesOf slots, other.Answers file.short.shortName := by
  by_contra none'
  have le : file.short.shortName.length ≤ nameMax :=
    Nat.le_trans file.short.length_shortName_le (by decide)
  obtain ⟨found, -, -, returns⟩ :=
    looks.found _ file.short.shortName_ne_zero le ⟨file, listed, Or.inl rfl⟩
  obtain ⟨mem', scan⟩ := @fromScan_missing fs.disk.stack file.short.shortName others last slots
    dir.readable file.short.shortName_ne_zero isLast fun other listed' answers =>
      none' ⟨other, listed', answers⟩
  rw [← first] at scan
  cases returns.unique (fat32EntryFrom_missing dir.volume dir.is le next scan)

/-- What a lookup asks of the disk when the walk ends with the first cluster. -/
theorem inside (dir : DirectoryChain fs clusters cluster chain slots orphan marked)
    (next : fat32ClusterNext fs cluster = 0) :
    (fat32EntryFromTraced fs cluster s fuel).Only fun request =>
      request = ⟨fs.start + fs.fatSector, 1⟩ ∨ ∃ passed ∈ chain, request =
        ⟨fs.start + (fs.firstDataSector + fs.clusterSectorCount * (passed - 2)),
          fs.clusterSectorCount⟩ := by
  obtain ⟨more, rfl⟩ := dir.chain_cons
  have fat := dir.volume.fat_inside
  have within := @Fat32Volume.within fs clusters cluster dir.is
  simp only [fat32EntryFromTraced]
  split
  · exact .pure
  cases fuel with
  | zero => exact .pure
  | succ fuel =>
      rw [fromClustersTraced]
      refine .bind (.bind (.request (Or.inr ⟨cluster, List.mem_cons_self, ?_⟩)) ?_) ?_
      · rw [dir.volume.clusterToSector_eq dir.is, wrap64_of_lt (dir.volume.lba_lt (by omega))]
      · split <;> exact .pure
      · split
        · exact .pure
        split
        · exact .pure
        · refine .bind (.bind (.request (Or.inl ?_)) ?_) ?_
          · rw [wrap64_of_lt (dir.volume.lba_lt (by omega))]
          · split <;> exact .pure
          · rw [fat32ClusterNextTraced_value, next]
            exact .pure
        · exact .pure

theorem looksUpAll (dir : DirectoryChain fs clusters cluster chain slots [] true)
    (room : (slotEntries slots).length < fs.clusterSize / 32)
    (next : fat32ClusterNext fs cluster = 0)
    (aliases : ∀ file ∈ filesOf slots, ∃ other ∈ filesOf slots,
      other.Answers file.short.shortName) : LooksUpAll fs cluster chain slots := by
  obtain ⟨-, last, others, first, isLast⟩ := dir.first (dir.zero_of_room room)
  rw [List.append_nil] at first
  constructor
  case found =>
      intro s nonzero le named
      have answered : ∃ file ∈ filesOf slots, file.Answers s := by
        obtain ⟨file, listed, rfl | ⟨long, has, rfl⟩⟩ := named
        · exact aliases file listed
        · refine ⟨file, listed, Or.inl ?_⟩
          rw [FileEntry.name, Option.mem_def.mp has]
      obtain ⟨file, listed, answers, scan⟩ | ⟨none', -⟩ := @fromScan_slots
        (fs.entriesIn cluster).length fs.disk.stack s (last :: others) slots dir.readable nonzero
        (by rw [first, List.length_append]; omega)
      · refine ⟨file, listed, answers.hasName, .step (fun fuel => ?_) (.const _)⟩
        rw [← first] at scan
        rw [fat32EntryFrom_eq le, fromClusters, dir.volume.readEntries_eq dir.is]
        simp only [scan]
      · obtain ⟨file, listed, answers⟩ := answered
        exact absurd answers (none' file listed)
  case missing =>
      intro s nonzero le none'
      obtain ⟨mem', scan⟩ := @fromScan_missing fs.disk.stack s others last slots dir.readable
        nonzero isLast fun file listed answers => none' file listed answers.hasName
      rw [← first] at scan
      exact fat32EntryFrom_missing dir.volume dir.is le next scan
  case inside => exact fun s fuel => dir.inside next

end DirectoryChain

/-- Names are looked up in a directory, whatever the volume holds besides, exactly if the zero entry
    that ends it is in its first cluster with no orphan before it, the word that is taken for the
    successor of that cluster ends the walk, and each file has a short name that is answered. -/
theorem looksUpAlways_iff (dir : DirectoryChain fs clusters cluster chain slots orphan marked) :
    LooksUpAlways fs clusters cluster chain slots orphan marked ↔
      marked = true ∧ (slotEntries slots).length < fs.clusterSize / 32 ∧ orphan = [] ∧
        fatEnds (fs.fatEntry (Fat32Volume.seen fs cluster)) ∧
        ∀ file ∈ filesOf slots, ∃ other ∈ filesOf slots, other.Answers file.short.shortName := by
  rw [← dir.volume.clusterNext_zero dir.is.2]
  constructor
  · intro looks
    have here : LooksUpAll fs cluster chain slots := looks fs.disk.data (fun _ _ => rfl) dir
    obtain ⟨rfl, last, others, first, isLast⟩ := dir.first (dir.zero_of_looksUpAll here)
    obtain rfl := dir.orphan_eq_nil first isLast looks
    rw [List.append_nil] at first
    have next := dir.successor_eq_zero first isLast looks
    refine ⟨rfl, ?_, rfl, next, dir.answers_shortName first isLast next here⟩
    have length : (fs.entriesIn cluster).length = fs.clusterSize / 32 := by simp [Fat32.entriesIn]
    rw [← length, first, List.length_append, List.length_cons]
    omega
  · rintro ⟨rfl, room, rfl, next, aliases⟩ data same dir'
    have next' := dir.volume.clusterNext_withData dir.is.2 same
    exact dir'.looksUpAll room (next'.trans next) aliases

end

theorem directoryChain_oneFile :
    DirectoryChain oneFile 1 2 [2] [.used ⟨none, filledEntry⟩] [] true where
  volume := directory_oneFile.volume
  is := by decide
  walk := by
    have ends : clusterLink oneFile.fatNext 2 = none := by decide
    refine .visit ?_
    rw [ends]
    exact .stop
  readable := by
    intro file listed long has
    rw [List.mem_singleton.mp listed] at has
    cases has
  orphaned := Or.inl rfl
  holds := by
    obtain ⟨last, others, entries, isLast⟩ := directory_oneFile.holds
    refine ⟨last :: others, ?_, .marked isLast⟩
    rw [List.flatMap_singleton, entries, List.append_nil]

theorem looksUpAlways_oneFile :
    LooksUpAlways oneFile 1 2 [2] [.used ⟨none, filledEntry⟩] [] true := by
  have aliases : ∀ file ∈ filesOf [.used ⟨none, filledEntry⟩],
      ∃ other ∈ filesOf [.used ⟨none, filledEntry⟩], other.Answers file.short.shortName := by
    intro file listed
    refine ⟨file, listed, Or.inl ?_⟩
    rw [List.mem_singleton.mp listed]
    rfl
  exact (looksUpAlways_iff directoryChain_oneFile).mpr
    ⟨rfl, by decide, rfl, by decide, aliases⟩

/-- The volume of `oneFile` with deleted entries behind the file, up to the end of the cluster. -/
def fullCluster : Fat32 := oneFile.withData fun x =>
  if 1056 ≤ x ∧ x < 1536 then 0xe5 else oneFile.disk.data x

/-- The slots of its directory. -/
def fullSlots : List Slot :=
  .used ⟨none, filledEntry⟩ :: List.replicate 15 (.deleted ⟨Vector.replicate 32 0xe5⟩ (by decide))

/-- A directory that fills its cluster is no directory in which all names are looked up. -/
theorem not_looksUpAll_fullCluster : DirectoryChain fullCluster 1 2 [2] fullSlots [] false ∧
    ¬ LooksUpAll fullCluster 2 [2] fullSlots := by
  have entries : fullCluster.entriesIn 2 = slotEntries fullSlots := by decide +kernel
  have dir : DirectoryChain fullCluster 1 2 [2] fullSlots [] false := by
    refine ⟨directory_oneFile.volume.withData ?_, by decide, .visit ?_, ?_, Or.inl rfl, [], ?_, .chain⟩
    · intro x below
      have first : x < 1024 := below
      exact if_neg (by omega)
    · have ends : clusterLink fullCluster.fatNext 2 = none := by decide
      rw [ends]
      exact .stop
    · intro file listed long has
      have only : filesOf fullSlots = [⟨none, filledEntry⟩] := rfl
      rw [only] at listed
      rw [List.mem_singleton.mp listed] at has
      cases has
    · rw [List.flatMap_singleton, entries, List.append_nil, List.append_nil]
  refine ⟨dir, fun looks => ?_⟩
  obtain ⟨entry, listed, isLast⟩ := dir.zero_of_looksUpAll looks
  rw [entries] at listed
  rw [slotEntries_notLast entry listed] at isLast
  cases isLast

end Sdx.Fs
