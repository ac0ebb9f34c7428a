import Sdx.Fs.Fat32Lookup

/-! # Where a walk over a directory ends

`fat32_entry_get` and `fat32_entry_from` go on from cluster to cluster until the FAT has no next
one. `fat32_entry_from` also passes over a zero entry when it is reading a long name there, and
leaves its buffer when no other one follows.
-/

namespace Sdx.Fs

open Sdx.Lib Sdx.Lib.Bytes Sdx.Lib.LinkedList Sdx.Core Sdx.Util

/-- The cluster that is scanned after a cluster. -/
def directoryLink (fs : Fat32) (cluster : Nat) : Option Nat :=
  match readEntries fs cluster with
  | none => none
  | some _ => clusterLink (fat32ClusterNext fs) cluster

/-- Each cluster of a directory has a zero entry. -/
def ZeroEntries (fs : Fat32) (cluster : Nat) : Prop :=
  ∀ n, ∀ passed ∈ visits (directoryLink fs) n cluster, ∀ entries,
    readEntries fs passed = some entries → ∃ entry ∈ entries, entry.isLast = true

/-- Lookup returns for every name, and listing for every offset. -/
structure LookupEnds (fs : Fat32) (cluster : Nat) : Prop where
  from' : ∀ s : List UInt8, (∀ c ∈ s, c ≠ 0) →
    ∃ r, Returns (fun fuel => fat32EntryFrom fs cluster s fuel) r
  get : ∀ (size : Int) (buffer : Nat) (mem : Memory) (offset : Nat),
    ∃ r, Returns (fun fuel => fat32EntryGet fs size buffer mem fuel cluster offset) r

/-! ## When the scan for a name ends -/

/-- `lfn_total` and `name_index` when the next entry is needed for the name. -/
def Parsed.left : Parsed → Option (Nat × Nat)
  | .done _ _ => none
  | .more lfnTotal nameIndex _ => some (lfnTotal, nameIndex)

/-- What is left of a name behind an entry, from what was left before it. -/
def nameLeft (size : Int) (left : Option (Nat × Nat)) (entry : DirEntry) : Option (Nat × Nat) :=
  let (lfnTotal, nameIndex) := left.getD (0, 0)
  (parseEntry size 0 lfnTotal nameIndex (fun _ => 0) entry).left

/-- A scan that reads names into a buffer of some size comes to a zero entry with nothing left of
    a name. -/
def scanStops (size : Int) : Option (Nat × Nat) → List DirEntry → Bool
  | _, [] => false
  | left, entry :: rest =>
      if entry.isLast then left.isNone || scanStops size none rest
      else if entry.isUnused then scanStops size left rest
      else scanStops size (nameLeft size left entry) rest

def StopsAtZero (fs : Fat32) (size : Int) (cluster : Nat) : Prop :=
  ∀ entries, readEntries fs cluster = some entries → scanStops size none entries = true

/-- The buffers with the names that a scan reads, and the buffer at the zero entry where it stops. -/
def scanReads (size : Int) : Nat → Memory → List DirEntry → List Memory × Option Memory
  | 0, _, _ => ([], none)
  | _, _, [] => ([], none)
  | passes + 1, nameBuffer, cur :: rest =>
      if cur.isLast then ([], some nameBuffer)
      else if cur.isUnused then scanReads size passes nameBuffer rest
      else
        match fat32EntryName size 0 nameBuffer (cur :: rest) with
        | none => ([], none)
        | some result =>
            match result.entry with
            | [] => ([], none)
            | _ :: rest =>
                let (buffers, stop) := scanReads size passes result.mem rest
                (if result.value < 0 then buffers else result.mem :: buffers, stop)

/-- The buffers with the names that are read in the clusters of a chain, up to the first cluster
    where the scan does not stop. -/
def chainReads (fs : Fat32) (size : Int) : List Nat → Memory → List Memory
  | [], _ => []
  | cluster :: chain, nameBuffer =>
      match readEntries fs cluster with
      | none => []
      | some entries =>
          let (buffers, stop) := scanReads size entries.length nameBuffer entries
          buffers ++ stop.elim [] (chainReads fs size chain)

section

variable {size : Int} {name total index passes fuel cluster : Nat} {mem : Memory}
  {left : Option (Nat × Nat)} {entry : DirEntry} {list : List DirEntry} {s : List UInt8} {fs : Fat32}
  {chain : List Nat}

/-- How an entry is parsed does not depend on the memory. -/
theorem parseEntry_left : (parseEntry size name total index mem entry).left =
    nameLeft size (some (total, index)) entry := by
  simp only [nameLeft, Option.getD_some, parseEntry]
  split
  · rfl
  generalize (if total = 0 then fat32LfnCalcSize entry (fat32LfnRead entry).length else total) = total
  generalize (if _ = 0 then total else index) = index
  split
  · rfl
  split
  · rfl
  · rfl

theorem scanStops_left : scanStops size (some (total, index)) list =
    (nextEntryName size name total index mem list).elim false fun result =>
      scanStops size none result.entry.tail := by
  induction list generalizing total index mem with
  | nil => rfl
  | cons entry rest ih =>
      rw [scanStops, nextEntryName]
      split
      · rfl
      split
      · exact ih
      · rw [← @parseEntry_left size name total index mem entry]
        cases parseEntry size name total index mem entry with
        | done value mem => rfl
        | more total index mem => exact ih

/-- The scan goes on behind the entries of the name that it reads first. -/
theorem scanStops_name (notLast : entry.isLast = false) (used : entry.isUnused = false) :
    scanStops size none (entry :: list) =
      (fat32EntryName size name mem (entry :: list)).elim false fun result =>
        scanStops size none result.entry.tail := by
  rw [scanStops, notLast, used, fat32EntryName]
  have first : nameLeft size none entry = nameLeft size (some (0, 0)) entry := rfl
  rw [first, ← @parseEntry_left size name 0 0 mem entry]
  cases parseEntry size name 0 0 mem entry with
  | done value mem => rfl
  | more total index mem => exact scanStops_left

/-- With a pass for each entry, the scan stops as the entries have it. -/
theorem scanReads_stops (enough : list.length ≤ passes) :
    (scanReads size passes mem list).2.isSome = scanStops size none list := by
  induction passes generalizing list mem with
  | zero =>
      rw [List.eq_nil_of_length_eq_zero (Nat.le_zero.mp enough)]
      rfl
  | succ passes ih =>
      cases list with
      | nil => rfl
      | cons cur rest =>
          have short : rest.length ≤ passes := Nat.le_of_succ_le_succ enough
          rw [scanReads]
          split
          · next isLast =>
              rw [scanStops, if_pos isLast]
              rfl
          next notLast =>
          split
          · next unused =>
              rw [scanStops, if_neg notLast, if_pos unused]
              exact ih short
          next used =>
          rw [@scanStops_name size 0 mem cur rest (Bool.eq_false_iff.mpr notLast)
            (Bool.eq_false_iff.mpr used)]
          cases decode : fat32EntryName size 0 mem (cur :: rest) with
          | none => rfl
          | some result =>
              have suffix := (entryName_suffix decode).length_le
              rw [List.length_cons] at suffix
              dsimp only [Option.elim_some]
              cases here : result.entry with
              | nil => rfl
              | cons last others =>
                  rw [here, List.length_cons] at suffix
                  exact ih (by omega)

/-- The scan finds a name exactly if it is the same as one that is read, and else stops where the
    others are read. -/
theorem fromScan_reads :
    (∃ entry, fromScan size s passes mem list = .found entry) ∧
        (∃ buffer ∈ (scanReads size passes mem list).1, strcmp buffer 0 s = 0) ∨
      (∀ buffer ∈ (scanReads size passes mem list).1, strcmp buffer 0 s ≠ 0) ∧
        fromScan size s passes mem list =
          (scanReads size passes mem list).2.elim .outside .last := by
  have none' : ∀ buffer ∈ ([] : List Memory), strcmp buffer 0 s ≠ 0 :=
    fun buffer listed => absurd listed List.not_mem_nil
  induction passes generalizing list mem with
  | zero => exact Or.inr ⟨none', rfl⟩
  | succ passes ih =>
      cases list with
      | nil => exact Or.inr ⟨none', rfl⟩
      | cons cur rest =>
          rw [fromScan, scanReads]
          split
          · exact Or.inr ⟨none', rfl⟩
          split
          · exact ih
          cases fat32EntryName size 0 mem (cur :: rest) with
          | none => exact Or.inr ⟨none', rfl⟩
          | some result =>
              dsimp only
              cases here : result.entry with
              | nil =>
                  refine Or.inr ⟨none', ?_⟩
                  split
                  · rw [List.tail_nil]
                    cases passes with
                    | zero => rfl
                    | succ passes => rfl
                  · rfl
              | cons last others =>
                  dsimp only [List.tail_cons]
                  by_cases failed : result.value < 0
                  · rw [if_pos failed, if_pos failed]
                    exact ih
                  rw [if_neg failed, if_neg failed]
                  by_cases same : strcmp result.mem 0 s = 0
                  · rw [if_pos same]
                    exact Or.inl ⟨⟨last, rfl⟩, result.mem, List.mem_cons_self, same⟩
                  rw [if_neg same]
                  obtain ⟨found, buffer, listed, equal⟩ | ⟨others', scan⟩ := @ih result.mem others
                  · exact Or.inl ⟨found, buffer, List.mem_cons_of_mem _ listed, equal⟩
                  · exact Or.inr ⟨List.forall_mem_cons.mpr ⟨same, others'⟩, scan⟩

end

/-! ## A name that no scan finds -/

section

variable {size value : Int} {name total index passes fuel cluster : Nat} {mem mem' : Memory}
  {cs : List UInt8} {entry : DirEntry} {list : List DirEntry} {fs : Fat32} {result : EntryName}
  {r : Int × Option DirEntry}

theorem nameCheck_neg {err : Int} (check : nameCheck size index = some err) : err < 0 := by
  unfold nameCheck at check
  split at check
  · cases check
    decide
  split at check
  · cases check
    decide
  · cases check

/-- A name that is read ends within `NAME_MAX` bytes. -/
theorem nameAppend_ends (named : 0 ≤ (nameAppend size name index mem (cs ++ [0])).1) :
    ∃ i < nameMax, (nameAppend size name index mem (cs ++ [0])).2 (name + i) = 0 := by
  by_cases fits : index + (cs ++ [0]).length ≤ nameMax ∧ (index + (cs ++ [0]).length : Int) ≤ size
  · rw [nameAppend_fits fits.1 fits.2]
    have length : (cs ++ [0]).length = cs.length + 1 := List.length_append
    refine ⟨index + cs.length, by omega, ?_⟩
    have last : cs.length < (cs ++ [0]).length := by omega
    dsimp only
    rw [← Nat.add_assoc, store_inside last, List.getElem_concat_length rfl]
  · have failed := @nameAppend_over size name index mem (cs ++ [0])
      (List.append_ne_nil_of_right_ne_nil _ (List.cons_ne_nil _ _)) (by omega)
    omega

theorem parseEntry_ends (parsed : parseEntry size name total index mem entry = .done value mem')
    (named : 0 ≤ value) : ∃ i < nameMax, mem' (name + i) = 0 := by
  rw [parseEntry] at parsed
  split at parsed
  · cases parsed
    exact nameAppend_ends named
  dsimp only at parsed
  generalize (if total = 0 then fat32LfnCalcSize entry (fat32LfnRead entry).length else total) =
    total at parsed
  split at parsed
  · cases parsed
  split at parsed
  · next err check =>
      cases parsed
      exact absurd named (Int.not_le.mpr (nameCheck_neg check))
  · cases parsed

theorem nextEntryName_ends (decode : nextEntryName size name total index mem list = some result)
    (named : 0 ≤ result.value) : ∃ i < nameMax, result.mem (name + i) = 0 := by
  induction list generalizing total index mem with
  | nil => cases decode
  | cons entry rest ih =>
      rw [nextEntryName] at decode
      split at decode
      · cases decode
        have failed : ¬ 0 ≤ -eRANGE := by decide
        exact absurd named failed
      split at decode
      · exact ih decode
      split at decode
      · next parsed =>
          cases decode
          exact parseEntry_ends parsed named
      · exact ih decode

theorem entryName_ends (decode : fat32EntryName size name mem list = some result)
    (named : 0 ≤ result.value) : ∃ i < nameMax, result.mem (name + i) = 0 := by
  cases list with
  | nil => cases decode
  | cons entry rest =>
      rw [fat32EntryName] at decode
      split at decode
      · next parsed =>
          cases decode
          exact parseEntry_ends parsed named
      · exact nextEntryName_ends decode named

theorem scanReads_end : ∀ buffer ∈ (scanReads size passes mem list).1,
    ∃ i < nameMax, buffer (0 + i) = 0 := by
  have none' : ∀ buffer ∈ ([] : List Memory), ∃ i < nameMax, buffer (0 + i) = 0 :=
    fun buffer listed => absurd listed List.not_mem_nil
  induction passes generalizing list mem with
  | zero => exact none'
  | succ passes ih =>
      cases list with
      | nil => exact none'
      | cons cur rest =>
          rw [scanReads]
          split
          · exact none'
          split
          · exact ih
          cases decode : fat32EntryName size 0 mem (cur :: rest) with
          | none => exact none'
          | some result =>
              dsimp only
              cases result.entry with
              | nil => exact none'
              | cons last others =>
                  dsimp only
                  split
                  · exact ih
                  · next named =>
                      exact List.forall_mem_cons.mpr
                        ⟨entryName_ends decode (Int.not_lt.mp named), ih⟩

end

/-! ## Walking a chain -/

section

variable {size : Int} {name total index offset cluster : Nat} {mem : Memory} {s : List UInt8}
  {list entries : List DirEntry} {fs : Fat32} {chain : List Nat}

theorem directoryLink_read (read : readEntries fs cluster = some entries) :
    directoryLink fs cluster = clusterLink (fat32ClusterNext fs) cluster := by
  rw [directoryLink, read]

theorem stopsAtZero_iff (read : readEntries fs cluster = some entries) :
    StopsAtZero fs size cluster ↔ scanStops size none entries = true := by
  constructor
  · intro stops
    exact stops entries read
  · intro stops entries' read'
    rw [read] at read'
    cases read'
    exact stops

theorem fromClusters_some_iff : (∃ fuel r, fromClusters fs size s fuel cluster mem = some r) ↔
    ∃ fuel r, fromClusters fs size s (fuel + 1) cluster mem = some r := by
  constructor
  · rintro ⟨fuel, r, done⟩
    cases fuel with
    | zero => cases done
    | succ fuel => exact ⟨fuel, r, done⟩
  · rintro ⟨fuel, r, done⟩
    exact ⟨fuel + 1, r, done⟩

/-- The lookup ends in a cluster where the name is read, and else goes on where the scan stops. -/
theorem fromClusters_scan (read : readEntries fs cluster = some entries) :
    (∃ entry, ∀ fuel, fromClusters fs size s (fuel + 1) cluster mem = some (0, some entry)) ∧
        (∃ buffer ∈ (scanReads size entries.length mem entries).1, strcmp buffer 0 s = 0) ∨
      (∀ buffer ∈ (scanReads size entries.length mem entries).1, strcmp buffer 0 s ≠ 0) ∧
        ∀ fuel, fromClusters fs size s (fuel + 1) cluster mem =
          (scanReads size entries.length mem entries).2.elim none fun mem' =>
            if fat32ClusterNext fs cluster = 0 then some (-eNOENT, none)
            else fromClusters fs size s fuel (fat32ClusterNext fs cluster) mem' := by
  obtain ⟨⟨entry, scan⟩, same⟩ | ⟨others, scan⟩ := @fromScan_reads size entries.length mem entries s
  · refine Or.inl ⟨⟨entry, fun fuel => ?_⟩, same⟩
    rw [fromClusters, read]
    simp only [scan]
  · refine Or.inr ⟨others, fun fuel => ?_⟩
    rw [fromClusters, read]
    simp only [scan]
    cases (scanReads size entries.length mem entries).2 with
    | none => rfl
    | some mem' => rfl

/-- Along a chain that ends, the lookup returns exactly if the scans stop in all clusters, or the
    name is one of those that are read before. -/
theorem fromClusters_ends_iff (walk : Walk (directoryLink fs) (some cluster) chain) :
    (∃ fuel r, fromClusters fs size s fuel cluster mem = some r) ↔
      (∀ passed ∈ chain, StopsAtZero fs size passed) ∨
        ∃ buffer ∈ chainReads fs size chain mem, strcmp buffer 0 s = 0 := by
  rw [fromClusters_some_iff]
  induction chain generalizing cluster mem with
  | nil => cases walk
  | cons cluster chain ih =>
      cases walk with
      | visit walk =>
          cases read : readEntries fs cluster with
          | none =>
              rw [directoryLink, read] at walk
              cases walk
              refine iff_of_true ⟨0, (-eFAULT, none), ?_⟩ (Or.inl fun passed listed entries read' => ?_)
              · rw [fromClusters, read]
              · rw [List.mem_singleton.mp listed, read] at read'
                cases read'
          | some entries =>
              rw [List.forall_mem_cons, stopsAtZero_iff read,
                ← @scanReads_stops size entries.length mem entries (Nat.le_refl _), chainReads, read]
              rw [directoryLink_read read, clusterLink] at walk
              dsimp only
              obtain ⟨⟨entry, found⟩, buffer, listed, same⟩ | ⟨others, step⟩ :=
                @fromClusters_scan size cluster mem s entries fs read
              · exact iff_of_true ⟨0, (0, some entry), found 0⟩
                  (Or.inr ⟨buffer, List.mem_append_left _ listed, same⟩)
              simp only [step]
              cases (scanReads size entries.length mem entries).2 with
              | none =>
                  refine iff_of_false ?_ ?_
                  · rintro ⟨fuel, r, done⟩
                    cases done
                  · rintro (⟨stopped, -⟩ | ⟨buffer, listed, same⟩)
                    · cases stopped
                    · rw [Option.elim_none, List.append_nil] at listed
                      exact others buffer listed same
              | some mem' =>
                  dsimp only [Option.elim_some]
                  by_cases ended : fat32ClusterNext fs cluster = 0
                  · rw [if_pos ended] at walk
                    cases walk
                    refine iff_of_true ⟨0, (-eNOENT, none), ?_⟩
                      (Or.inl ⟨rfl, fun passed listed => absurd listed List.not_mem_nil⟩)
                    rw [if_pos ended]
                  · rw [if_neg ended] at walk
                    simp only [if_neg ended]
                    rw [fromClusters_some_iff, ih walk]
                    refine or_congr (and_iff_right rfl).symm ?_
                    constructor
                    · rintro ⟨buffer, listed, same⟩
                      exact ⟨buffer, List.mem_append_right _ listed, same⟩
                    · rintro ⟨buffer, listed, same⟩
                      obtain here | there := List.mem_append.mp listed
                      · exact absurd same (others buffer here)
                      · exact ⟨buffer, there, same⟩

/-- The longest name is not found, so the walk that looks for it is walked to its end. -/
theorem walk_of_longestName {fuel : Nat} {r : Int × Option DirEntry}
    (done : fromClusters fs (nameMax + 1 : Nat) longestName fuel cluster mem = some r) :
    ∃ chain, Walk (directoryLink fs) (some cluster) chain := by
  induction fuel generalizing cluster mem with
  | zero => cases done
  | succ fuel ih =>
      cases read : readEntries fs cluster with
      | none =>
          refine ⟨[cluster], .visit ?_⟩
          rw [directoryLink, read]
          exact .stop
      | some entries =>
          have link := directoryLink_read read
          rw [clusterLink] at link
          obtain ⟨-, buffer, listed, same⟩ | ⟨-, step⟩ :=
            @fromClusters_scan (nameMax + 1 : Nat) cluster mem longestName entries fs read
          · have ends := scanReads_end buffer listed
            rw [← length_longestName] at ends
            exact absurd same (strcmp_ne_zero ends longestName_ne_zero)
          rw [step] at done
          cases stop : (scanReads (nameMax + 1 : Nat) entries.length mem entries).2 with
          | none =>
              rw [stop] at done
              cases done
          | some mem' =>
              rw [stop] at done
              dsimp only [Option.elim_some] at done
              split at done
              · next ended =>
                  refine ⟨[cluster], .visit ?_⟩
                  rw [link, if_pos ended]
                  exact .stop
              · next goes =>
                  obtain ⟨chain, walk⟩ := ih done
                  refine ⟨cluster :: chain, .visit ?_⟩
                  rw [link, if_neg goes]
                  exact walk

theorem nextEntryName_some' (zero : ∃ entry ∈ list, entry.isLast = true) :
    ∃ result, nextEntryName size name total index mem list = some result := by
  induction list generalizing total index mem with
  | nil =>
      obtain ⟨entry, listed, -⟩ := zero
      cases listed
  | cons entry rest ih =>
      rw [nextEntryName]
      split
      · exact ⟨_, rfl⟩
      next notLast =>
      have behind := (List.or_exists_of_exists_mem_cons zero).resolve_left notLast
      split
      · exact ih behind
      split
      · exact ⟨_, rfl⟩
      · exact ih behind

theorem entryName_some {entry : DirEntry} (zero : ∃ last ∈ list, last.isLast = true) :
    ∃ result, fat32EntryName size name mem (entry :: list) = some result := by
  rw [fat32EntryName]
  split
  · exact ⟨_, rfl⟩
  · exact nextEntryName_some' zero

/-- In a cluster with a zero entry, listing stops there or in front of it. -/
theorem getScan_zero (zero : ∃ entry ∈ list, entry.isLast = true) :
    (∃ left, getScan offset list = .last left) ∨
      ∃ cur rest, getScan offset list = .found (cur :: rest) ∧ ∃ entry ∈ rest, entry.isLast = true := by
  induction list generalizing offset with
  | nil =>
      obtain ⟨entry, listed, -⟩ := zero
      cases listed
  | cons entry rest ih =>
      rw [getScan]
      split
      · exact Or.inl ⟨offset, rfl⟩
      next notLast =>
      have behind := (List.or_exists_of_exists_mem_cons zero).resolve_left notLast
      split
      · exact ih behind
      split
      · exact ih behind
      split
      · exact Or.inr ⟨entry, rest, rfl, behind⟩
      · exact ih behind

/-- Along a chain that ends, listing returns. -/
theorem fat32EntryGet_returns {buffer : Nat} (walk : Walk (directoryLink fs) (some cluster) chain)
    (zero : ∀ passed ∈ chain, ∀ entries, readEntries fs passed = some entries →
      ∃ entry ∈ entries, entry.isLast = true) :
    ∃ r, Returns (fun fuel => fat32EntryGet fs size buffer mem fuel cluster offset) r := by
  induction chain generalizing cluster offset with
  | nil => cases walk
  | cons cluster chain ih =>
      cases walk with
      | visit walk =>
          cases read : readEntries fs cluster with
          | none =>
              refine ⟨(-eFAULT, mem), .step (fun fuel => ?_) (.const _)⟩
              rw [fat32EntryGet, read]
          | some entries =>
              rw [directoryLink_read read, clusterLink] at walk
              have here := zero cluster List.mem_cons_self entries read
              obtain ⟨left, scan⟩ | ⟨cur, rest, scan, behind⟩ := @getScan_zero offset entries here
              · by_cases ended : fat32ClusterNext fs cluster = 0
                · refine ⟨(-eRANGE, mem), .step (fun fuel => ?_) (.const _)⟩
                  rw [fat32EntryGet, read]
                  simp only [scan]
                  rw [if_pos ended]
                · rw [if_neg ended] at walk
                  obtain ⟨r, returns⟩ := @ih left _ walk fun passed listed =>
                    zero passed (List.mem_cons_of_mem _ listed)
                  refine ⟨r, .step (fun fuel => ?_) returns⟩
                  rw [fat32EntryGet, read]
                  simp only [scan]
                  rw [if_neg ended]
              · obtain ⟨result, decode⟩ := @entryName_some size buffer mem rest cur behind
                refine ⟨(result.value, result.mem), .step (fun fuel => ?_) (.const _)⟩
                rw [fat32EntryGet, read]
                simp only [scan]
                rw [decode]
                rfl

/-- In a directory whose clusters have zero entries, lookup returns for every name and listing for
    every offset, exactly if the walk over the clusters ends, and for each length of names the scan
    stops in all of them, or all the names of that length are read before. -/
theorem lookupEnds_iff (zero : ZeroEntries fs cluster) :
    LookupEnds fs cluster ↔ ∃ chain, Walk (directoryLink fs) (some cluster) chain ∧
      ∀ n ≤ nameMax, (∀ passed ∈ chain, StopsAtZero fs (n + 1 : Nat) passed) ∨
        ∀ s : List UInt8, (∀ c ∈ s, c ≠ 0) → s.length = n →
          ∃ buffer ∈ chainReads fs (n + 1 : Nat) chain fs.disk.stack, strcmp buffer 0 s = 0 := by
  constructor
  · rintro ⟨found, -⟩
    have done (s : List UInt8) (nonzero : ∀ c ∈ s, c ≠ 0) (short : s.length ≤ nameMax) :
        ∃ fuel r, fromClusters fs (s.length + 1 : Nat) s fuel cluster fs.disk.stack = some r := by
      obtain ⟨r, enough, returns⟩ := found s nonzero
      have result := returns enough (Nat.le_refl _)
      dsimp only at result
      rw [fat32EntryFrom_eq short] at result
      exact ⟨enough, r, result⟩
    obtain ⟨fuel, r, longest⟩ := done longestName longestName_ne_zero (Nat.le_of_eq length_longestName)
    rw [length_longestName] at longest
    obtain ⟨chain, walk⟩ := walk_of_longestName longest
    refine ⟨chain, walk, fun n small => ?_⟩
    by_cases stops : ∀ passed ∈ chain, StopsAtZero fs (n + 1 : Nat) passed
    · exact Or.inl stops
    · refine Or.inr fun s nonzero length => ?_
      subst length
      exact ((fromClusters_ends_iff walk).mp (done s nonzero small)).resolve_left stops
  · rintro ⟨chain, walk, scans⟩
    refine ⟨fun s nonzero => ?_, fun size buffer mem offset => ?_⟩
    · by_cases short : s.length ≤ nameMax
      · have ends : (∀ passed ∈ chain, StopsAtZero fs (s.length + 1 : Nat) passed) ∨
            ∃ buffer ∈ chainReads fs (s.length + 1 : Nat) chain fs.disk.stack,
              strcmp buffer 0 s = 0 := by
          obtain stops | reads := scans s.length short
          · exact Or.inl stops
          · exact Or.inr (reads s nonzero rfl)
        obtain ⟨fuel, r, done⟩ := (fromClusters_ends_iff walk).mpr ends
        rw [← fat32EntryFrom_eq short] at done
        exact ⟨r, fat32EntryFrom_returns done⟩
      · refine ⟨(-eNAMETOOLONG, none), .congr (fun fuel => ?_) (.const _)⟩
        rw [fat32EntryFrom, if_pos (by omega)]
    · refine fat32EntryGet_returns walk fun passed listed => ?_
      refine zero chain.length passed ?_
      rwa [walk.visits_eq]

end

theorem scanStops_short {size : Int} {short : ShortEntry} {list : List DirEntry} :
    scanStops size none (short.entry :: list) = scanStops size none list := by
  rw [@scanStops_name size 0 (fun _ => 0) short.entry list short.notLast short.used,
    short.entryName_eq]
  rfl

/-- A directory of one cluster that is followed by no other one. -/
theorem zeroEntries_of_one {fs : Fat32} {cluster : Nat} {entries : List DirEntry}
    (stays : ∀ next, directoryLink fs cluster = some next → next = cluster)
    (read : readEntries fs cluster = some entries) (zero : ∃ entry ∈ entries, entry.isLast = true) :
    ZeroEntries fs cluster := by
  intro n passed listed entries' read'
  rw [visits_only stays passed listed, read] at read'
  cases read'
  exact zero

theorem entriesIn_oneFile : ∃ last others, last.isLast = true ∧
    oneFile.entriesIn 2 = filledEntry.entry :: last :: others := by
  obtain ⟨last, others, entries, isLast⟩ := directory_oneFile.holds
  exact ⟨last, others, isLast, entries⟩

theorem lookupEnds_oneFile : LookupEnds oneFile 2 := by
  obtain ⟨last, others, isLast, entries⟩ := entriesIn_oneFile
  have read := directory_oneFile.volume.readEntries_eq directory_oneFile.is
  rw [entries] at read
  have ends : directoryLink oneFile 2 = none := by decide +kernel
  have walk : Walk (directoryLink oneFile) (some 2) [2] := by
    refine .visit ?_
    rw [ends]
    exact .stop
  have zero : ZeroEntries oneFile 2 := by
    refine zeroEntries_of_one (fun next link => ?_) read ⟨last, by simp, isLast⟩
    rw [ends] at link
    cases link
  refine (lookupEnds_iff zero).mpr ⟨[2], walk, fun n _ => Or.inl fun passed listed => ?_⟩
  rw [List.mem_singleton.mp listed, stopsAtZero_iff read, scanStops_short, scanStops, isLast]
  rfl

/-- The volume of `oneFile` with the word of cluster 2 leading to cluster 2. -/
def ringed : Fat32 := oneFile.withData fun x =>
  if x = 520 then 2 else if 520 < x ∧ x < 524 then 0 else oneFile.disk.data x

/-- A lookup never leaves a cluster that is its own successor. -/
theorem not_lookupEnds_ringed : ZeroEntries ringed 2 ∧ ¬ LookupEnds ringed 2 := by
  have link : directoryLink ringed 2 = some 2 := by decide +kernel
  have volume : Fat32Volume ringed 1 :=
    { sector := by decide
      sector_entries := by decide
      cluster_sectors := by decide
      fat_covers := by decide
      clusters_lt := by decide
      links := by decide
      size_lt := by decide
      readable := fun _ _ _ _ _ => rfl }
  have same : ringed.entriesIn 2 = oneFile.entriesIn 2 := by
    refine entriesIn_withData fun x low _ => ?_
    have behind : 1024 ≤ x := low
    rw [if_neg (by omega), if_neg (by omega)]
  constructor
  · obtain ⟨last, others, isLast, entries⟩ := entriesIn_oneFile
    have read := volume.readEntries_eq directory_oneFile.is
    rw [same, entries] at read
    refine zeroEntries_of_one (fun next link' => ?_) read ⟨last, by simp, isLast⟩
    exact (Option.some.inj (link.symm.trans link')).symm
  · rintro ⟨found, -⟩
    obtain ⟨r, enough, returns⟩ := found longestName longestName_ne_zero
    have done := returns enough (Nat.le_refl _)
    dsimp only at done
    rw [fat32EntryFrom_eq (Nat.le_of_eq length_longestName), length_longestName] at done
    obtain ⟨chain, walk⟩ := walk_of_longestName done
    cases walk with
    | visit walk => exact (Walk.visit walk).next_ne_first List.mem_cons_self link

end Sdx.Fs
