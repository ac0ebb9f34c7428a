import Mathlib.Data.Finset.Card
import Mathlib.Tactic.IntervalCases
import Sdx.Core.DiskScan

/-! # The partitions of a GPT (`core/gpt.c`)

`gpt_load` registers what it finds in the slots of the sectors it reads, one after the other.
It reads whole sectors, so the slots behind the last entry of the table count as well.
-/

namespace Sdx.Core

open Sdx.Lib Sdx.Lib.Bytes Sdx.Lib.LinkedList

/-- The heap has this many more partitions to hand out. -/
def Disks.Supplies (m : Disks) (count : Nat) : Prop :=
  ∀ i, i < count → ∃ p, m.allocs[i]? = some (some p)

section

variable {m m₀ : Disks} {disk : DiskPtr} {cur : Option PartPtr} {l l₀ : List PartPtr}
  {registered : List PartEntry} {start size fuel count : Nat}

theorem Disks.Supplies.mono {fewer : Nat} (supplies : m.Supplies count) (le : fewer ≤ count) :
    m.Supplies fewer := fun i lt => supplies i (Nat.lt_of_lt_of_le lt le)

/-! ## Registering a list of partitions -/

/-- The search ends with the list. -/
theorem diskPartFind_returns (walk : Walk m.nextPart cur l) :
    ∃ r, ∀ fuel, l.length < fuel → diskPartFind m start size fuel cur = some r := by
  induction l generalizing cur with
  | nil =>
      obtain rfl : cur = none := walk.head_eq
      refine ⟨none, fun fuel enough => ?_⟩
      obtain ⟨fuel, rfl⟩ := Nat.exists_eq_add_one_of_ne_zero (Nat.ne_zero_of_lt enough)
      rfl
  | cons x l ih =>
      obtain rfl : cur = some x := walk.head_eq
      by_cases here : (m.parts x).start = start ∧ (m.parts x).size = size
      · refine ⟨some x, fun fuel enough => ?_⟩
        obtain ⟨fuel, rfl⟩ := Nat.exists_eq_add_one_of_ne_zero (Nat.ne_zero_of_lt enough)
        exact if_pos here
      · obtain ⟨r, rest⟩ := ih walk.tail
        refine ⟨r, fun fuel enough => ?_⟩
        obtain ⟨fuel, rfl⟩ := Nat.exists_eq_add_one_of_ne_zero (Nat.ne_zero_of_lt enough)
        exact (if_neg here).trans (rest fuel (Nat.lt_of_succ_lt_succ enough))

/-- One partition is registered, unless the heap is exhausted. -/
theorem loadPart_loads (loading : Loading m₀ m disk l₀ l registered) (part : PartEntry) :
    ∃ m' l' registered', (∀ fuel, l.length < fuel → loadPart fuel m disk part = some m') ∧
      Loading m₀ m' disk l₀ l' registered' ∧ l'.length ≤ l.length + 1 ∧
      ∀ count, m.Supplies (count + 1) →
        m'.Supplies count ∧ registered' = registered ++ [part] := by
  obtain ⟨found, search⟩ :=
    @diskPartFind_returns m _ l part.start part.size loading.parts.walk
  have spec := diskPartFind_spec loading.parts.walk (search _ (Nat.lt_succ_self _))
  cases found with
  | some p =>
      refine ⟨_, l, _, ?_, loading.mark spec.1 spec.2, Nat.le_succ _, fun count supplies => ?_⟩
      · intro fuel enough
        simp only [loadPart, diskPartAdd, search fuel enough, Option.bind_eq_bind, Option.bind_some]
        rfl
      · exact ⟨supplies.mono (Nat.le_succ count), rfl⟩
  | none =>
      cases given : m.allocs with
      | nil =>
          refine ⟨m, l, registered, ?_, loading, Nat.le_succ _, fun count supplies => ?_⟩
          · intro fuel enough
            simp only [loadPart, diskPartAdd, search fuel enough, Option.bind_eq_bind,
              Option.bind_some, Disks.heapAlloc, given]
          · obtain ⟨p, first⟩ := supplies 0 (Nat.succ_pos count)
            rw [given] at first
            cases first
      | cons new allocs =>
          cases new with
          | none =>
              refine ⟨{ m with allocs := allocs }, l, registered, ?_, loading.exhausted given,
                Nat.le_succ _, fun count supplies => ?_⟩
              · intro fuel enough
                simp only [loadPart, diskPartAdd, search fuel enough, Option.bind_eq_bind,
                  Option.bind_some, Disks.heapAlloc, given]
              · obtain ⟨p, first⟩ := supplies 0 (Nat.succ_pos count)
                rw [given] at first
                cases first
          | some new =>
              obtain ⟨m₁, inserted, key, loading⟩ := loading.insert given spec
              refine ⟨_, new :: l, _, ?_, loading.mark List.mem_cons_self key, Nat.le_refl _,
                fun count supplies => ⟨fun i lt => ?_, rfl⟩⟩
              · intro fuel enough
                simp only [loadPart, diskPartAdd, search fuel enough, Option.bind_eq_bind,
                  Option.bind_some, Disks.heapAlloc, given, inserted]
                rfl
              · obtain ⟨p, next⟩ := supplies (i + 1) (Nat.succ_lt_succ lt)
                rw [given] at next
                rw [← inserted]
                exact ⟨p, next⟩

/-- One partition after the other. -/
def loadParts (fuel : Nat) (disk : DiskPtr) (parts : List PartEntry) (m : Disks) : Option Disks :=
  parts.foldlM (fun m part => loadPart fuel m disk part) m

theorem loadParts_loads {parts : List PartEntry} (loading : Loading m₀ m disk l₀ l registered) :
    ∃ m' l' registered',
      (∀ fuel, l.length + parts.length ≤ fuel → loadParts fuel disk parts m = some m') ∧
      Loading m₀ m' disk l₀ l' registered' ∧
      (m.Supplies parts.length → registered' = registered ++ parts) := by
  induction parts generalizing m l registered with
  | nil => exact ⟨m, l, registered, fun _ _ => rfl, loading, fun _ => (List.append_nil _).symm⟩
  | cons part parts ih =>
      obtain ⟨m₁, l₁, registered₁, first, loading₁, length, all₁⟩ := loadPart_loads loading part
      obtain ⟨m', l', registered', rest, loading', all'⟩ := ih loading₁
      refine ⟨m', l', registered', fun fuel enough => ?_, loading', fun supplies => ?_⟩
      · rw [List.length_cons] at enough
        rw [loadParts, List.foldlM_cons, first fuel (by omega)]
        exact rest fuel (by omega)
      · obtain ⟨supplies₁, rfl⟩ := all₁ _ supplies
        rw [all' supplies₁, List.append_assoc, List.singleton_append]

/-! ## What the sectors hold -/

/-- The partitions in the slots `e, e + 1, …` of a buffer. -/
def gptSlots (entries : Memory) (entrySize e count : Nat) : List PartEntry :=
  (List.range' e count).filterMap fun e => gptEntry entries (e * entrySize)

/-- The partitions that the loop of `gpt_load` comes across. -/
def gptFound (dev : Disk) (header : GptTableHeader) (entryPerSector : Nat) :
    Nat → Nat → Memory → List PartEntry
  | 0, _, _ => []
  | rounds + 1, i, entries =>
      if i < header.entryCount then
        match diskDo dev (wrap64 (header.lbaArray + i / entryPerSector)) 1 0 entries with
        | (false, entries) => gptFound dev header entryPerSector rounds (i + entryPerSector) entries
        | (true, entries) => gptSlots entries header.entrySize 0 entryPerSector ++
            gptFound dev header entryPerSector rounds (i + entryPerSector) entries
      else []

variable {dev : Disk} {header : GptTableHeader} {entries : Memory}
  {entrySize entryPerSector rounds i e : Nat}

theorem gptLoadSector_eq : gptLoadSector fuel disk entries entrySize count e m =
    loadParts fuel disk (gptSlots entries entrySize e count) m := by
  induction count generalizing e m with
  | zero => rfl
  | succ count ih =>
      have tail (m : Disks) := @ih m (e + 1)
      rw [gptLoadSector, gptSlots, List.range'_succ, gptLoadEntry]
      cases taken : gptEntry entries (e * entrySize) with
      | none =>
          simp only [List.filterMap_cons, taken]
          exact tail m
      | some part =>
          simp only [List.filterMap_cons, taken, loadParts, List.foldlM_cons]
          exact congrArg (Option.bind _) (funext tail)

theorem gptLoadLoop_eq (some' : entryPerSector ≠ 0) :
    gptLoadLoop fuel dev disk header entryPerSector rounds i entries m =
      loadParts fuel disk (gptFound dev header entryPerSector rounds i entries) m := by
  induction rounds generalizing i entries m with
  | zero => rfl
  | succ rounds ih =>
      rw [gptLoadLoop, gptFound]
      by_cases more : i < header.entryCount
      swap
      · rw [if_neg more, if_neg more]
        rfl
      rw [if_pos more, if_pos more, if_neg some']
      cases sector : diskDo dev (wrap64 (header.lbaArray + i / entryPerSector)) 1 0 entries with
      | mk ok entries₁ =>
          cases ok with
          | false => exact ih
          | true =>
              rw [loadParts, List.foldlM_append]
              dsimp only
              rw [gptLoadSector_eq]
              exact congrArg (Option.bind _) (funext fun m => ih)

/-! ## The slots on the disk -/

/-- Where slot `i` of the table is on the disk. -/
def gptSlotAt (dev : Disk) (header : GptTableHeader) (i : Nat) : Nat :=
  let entryPerSector := divFloor dev.sectorSize header.entrySize
  wrap64 (header.lbaArray + i / entryPerSector) * dev.sectorSize +
    i % entryPerSector * header.entrySize

def gptSlot (dev : Disk) (header : GptTableHeader) (i : Nat) : Option PartEntry :=
  gptEntry dev.data (gptSlotAt dev header i)

/-- The sectors that the entries of the table take. -/
def gptSectors (dev : Disk) (header : GptTableHeader) : Nat :=
  let entryPerSector := divFloor dev.sectorSize header.entrySize
  (header.entryCount + entryPerSector - 1) / entryPerSector

/-- The slots in the sectors of the table. -/
def gptSlotCount (dev : Disk) (header : GptTableHeader) : Nat :=
  gptSectors dev header * divFloor dev.sectorSize header.entrySize

theorem read_shift {m m' : Memory} {a a' w : Nat} (same : ∀ k, k < w → m (a + k) = m' (a' + k)) :
    read m a w = read m' a' w :=
  congrArg decode (List.map_congr_left fun k mem => same k (List.mem_range.mp mem))

/-- An entry is its first 56 bytes. -/
theorem gptEntry_congr {bytes bytes' : Memory} {at' at'' : Nat}
    (same : ∀ k, k < 56 → bytes (at' + k) = bytes' (at'' + k)) :
    gptEntry bytes at' = gptEntry bytes' at'' := by
  have field (off : Nat) (inside : off + 8 ≤ 56) :
      read bytes (at' + off) 8 = read bytes' (at'' + off) 8 :=
    read_shift fun k lt => by
      rw [Nat.add_assoc, Nat.add_assoc]
      exact same (off + k) (by omega)
  have first := field 0 (by decide)
  rw [Nat.add_zero, Nat.add_zero] at first
  simp only [gptEntry, first, field 8 (by decide), field 32 (by decide), field 40 (by decide),
    field 48 (by decide)]

theorem lt_gptSectors {j : Nat} (some' : divFloor dev.sectorSize header.entrySize ≠ 0) :
    j < gptSectors dev header ↔ j * divFloor dev.sectorSize header.entrySize < header.entryCount := by
  have le := @Nat.le_div_iff_mul_le (divFloor dev.sectorSize header.entrySize) (j + 1)
    (header.entryCount + divFloor dev.sectorSize header.entrySize - 1) (Nat.pos_of_ne_zero some')
  rw [Nat.succ_mul] at le
  unfold gptSectors
  exact le.trans (by omega)

/-- A sector takes an entry or more. -/
theorem gptSectors_le (some' : divFloor dev.sectorSize header.entrySize ≠ 0) :
    gptSectors dev header ≤ header.entryCount := by
  refine Nat.le_of_not_lt fun more => ?_
  have last := (lt_gptSectors some').mp more
  exact Nat.not_lt.mpr (Nat.le_mul_of_pos_right _ (Nat.pos_of_ne_zero some')) last

theorem entryCount_le_gptSlotCount (some' : divFloor dev.sectorSize header.entrySize ≠ 0) :
    header.entryCount ≤ gptSlotCount dev header := by
  have last := @lt_gptSectors dev header (gptSectors dev header) some'
  exact Nat.le_of_not_lt fun less => Nat.lt_irrefl _ (last.mpr less)

/-- All sectors of the table can be read. -/
def GptReadable (dev : Disk) (header : GptTableHeader) : Prop :=
  ∀ j, j < gptSectors dev header → dev.answers (wrap64 (header.lbaArray + j)) 1 = true

/-- A sector that was read holds the slots of the disk. -/
theorem gptSlots_sector (long : 56 ≤ header.entrySize) (divides : header.entrySize ∣ dev.sectorSize)
    {j : Nat} (entryPerSector_eq : entryPerSector = divFloor dev.sectorSize header.entrySize) :
    gptSlots (store entries 0 (slice dev.data (wrap64 (header.lbaArray + j) * dev.sectorSize)
        (1 * dev.sectorSize))) header.entrySize 0 entryPerSector =
      (List.range' (j * entryPerSector) entryPerSector).filterMap (gptSlot dev header) := by
  have parts : entryPerSector * header.entrySize = dev.sectorSize := by
    rw [entryPerSector_eq, divFloor, Nat.div_mul_cancel divides]
  have shift := List.map_add_range' (a := j * entryPerSector) 0 entryPerSector 1
  rw [Nat.add_zero] at shift
  rw [gptSlots, ← shift, List.filterMap_map]
  refine List.filterMap_congr fun e mem => ?_
  have lt : e < entryPerSector := by simpa using (List.mem_range'_1.mp mem).2
  have inside : e * header.entrySize + header.entrySize ≤ dev.sectorSize := by
    rw [← parts, ← Nat.succ_mul]
    exact Nat.mul_le_mul_right _ lt
  rw [Function.comp_apply, gptSlot, gptSlotAt, ← entryPerSector_eq]
  refine gptEntry_congr fun k small => ?_
  rw [Nat.mul_comm j, Nat.mul_add_div (by omega), Nat.div_eq_of_lt lt, Nat.add_zero,
    Nat.mul_add_mod, Nat.mod_eq_of_lt lt]
  have there := @store_inside entries 0 (slice dev.data
    (wrap64 (header.lbaArray + j) * dev.sectorSize) (1 * dev.sectorSize))
    (e * header.entrySize + k) (by rw [length_slice]; omega)
  rw [Nat.zero_add, getElem_slice, ← Nat.add_assoc] at there
  exact there

/-- When all sectors can be read, the loop comes across what the slots hold. -/
theorem gptFound_eq (long : 56 ≤ header.entrySize) (divides : header.entrySize ∣ dev.sectorSize)
    (entryPerSector_eq : entryPerSector = divFloor dev.sectorSize header.entrySize)
    (some' : entryPerSector ≠ 0) (readable : GptReadable dev header) {j : Nat}
    (enough : gptSectors dev header - j ≤ rounds) :
    gptFound dev header entryPerSector rounds (j * entryPerSector) entries =
      (List.range' (j * entryPerSector) ((gptSectors dev header - j) * entryPerSector)).filterMap
        (gptSlot dev header) := by
  induction rounds generalizing j entries with
  | zero =>
      rw [Nat.le_zero.mp enough, Nat.zero_mul]
      rfl
  | succ rounds ih =>
      have more := @lt_gptSectors dev header j (entryPerSector_eq ▸ some')
      rw [← entryPerSector_eq] at more
      rw [gptFound]
      by_cases inside : j < gptSectors dev header
      · have answered : diskDo dev (wrap64 (header.lbaArray + j)) 1 0 entries = (true, _) :=
          if_pos ⟨Nat.one_ne_zero, readable j inside⟩
        rw [if_pos (more.mp inside), Nat.mul_div_cancel _ (Nat.pos_of_ne_zero some'), answered]
        dsimp only
        rw [gptSlots_sector long divides entryPerSector_eq, ← Nat.succ_mul, ih (by omega),
          show gptSectors dev header - j = gptSectors dev header - (j + 1) + 1 by omega,
          Nat.succ_mul (gptSectors dev header - (j + 1)), Nat.add_comm _ entryPerSector,
          ← List.range'_append_1, List.filterMap_append, Nat.succ_mul]
      · rw [if_neg fun less => inside (more.mpr less), Nat.sub_eq_zero_of_le (Nat.le_of_not_lt inside),
          Nat.zero_mul]
        rfl

/-! ## What `gpt_load` makes available -/

/-- A partition of the disk at this place, that is with this start and size, is available. -/
def Disks.Available (m : Disks) (disk : DiskPtr) (key : Nat × Nat) : Prop :=
  ∃ l, Walk m.nextPart (m.disks disk).parts l ∧
    ∃ p ∈ l, m.key p = key ∧ (m.parts p).available = true

theorem Loading.available_iff (loading : Loading m₀ m disk l₀ l registered) {key : Nat × Nat} :
    m.Available disk key ↔ key ∈ registered.map PartEntry.key := by
  constructor
  · rintro ⟨l', walk, p, mem, rfl, available⟩
    obtain rfl := walk.unique loading.parts.walk
    have last := loading.marked p mem
    rw [if_pos available] at last
    exact mem_of_lastBootable last
  · intro there
    obtain ⟨part, mem, rfl⟩ := List.mem_map.mp there
    obtain ⟨p, mem', place⟩ := loading.all part mem
    refine ⟨l, loading.parts.walk, p, mem', place, ?_⟩
    by_contra off
    have none' := loading.marked p mem'
    rw [if_neg off, place, lastBootable, Option.map_eq_none_iff, List.getLast?_eq_none_iff] at none'
    have some' : part ∈ registered.filter fun other => other.key = part.key :=
      List.mem_filter.mpr ⟨mem, decide_eq_true rfl⟩
    rw [none'] at some'
    cases some'

/-- The header that the disk has. -/
def gptHeader (dev : Disk) : GptTableHeader :=
  GptTableHeader.ofBytes (store (fun _ => 0) 0 (slice dev.data (gptLba * dev.sectorSize) 92))

/-- A read of the header that goes well reads what the disk has. -/
theorem diskReadLba_gptHeader (sized : 0 < dev.sectorSize)
    (header_read : (diskReadLba dev gptLba 92 0 fun _ => 0).1 = true) :
    ∃ bytes, diskReadLba dev gptLba 92 0 (fun _ => 0) = (true, bytes) ∧
      GptTableHeader.ofBytes bytes = gptHeader dev := by
  have header := @diskReadLba_true dev gptLba 92 0 (fun _ => 0)
    (diskReadLba dev gptLba 92 0 fun _ => 0).2 sized
    (by have := Nat.div_le_self 92 dev.sectorSize; unfold gptLba; omega)
    (Prod.ext header_read rfl)
  exact ⟨_, Prod.ext header_read header, rfl⟩

theorem gptHeader_entryCount_lt : (gptHeader dev).entryCount < 2 ^ 32 := read_lt

/-- The table of a disk has the right signature and entries of a size that `gpt_load` takes, and
    all of it can be read. -/
structure GptTable (dev : Disk) : Prop where
  sized : 0 < dev.sectorSize
  sized' : dev.sectorSize < 2 ^ 64
  header_read : (diskReadLba dev gptLba 92 0 fun _ => 0).1 = true
  readable : GptReadable dev (gptHeader dev)
  signature : (gptHeader dev).signature = gptSignature
  long : 56 ≤ (gptHeader dev).entrySize
  divides : (gptHeader dev).entrySize ∣ dev.sectorSize

/-- The state in which a scan calls a loader: nothing is available. -/
structure Disks.Blocked (m : Disks) (disk : DiskPtr) (l : List PartPtr) : Prop where
  parts : m.Parts disk l
  fresh : m.Fresh
  unavailable : ∀ p ∈ l, (m.parts p).available = false

theorem Disks.Blocked.loading (blocked : m.Blocked disk l) : Loading m m disk l l [] := by
  have same : m.blocked l = m := by
    have parts : (m.blocked l).parts = m.parts := by
      funext p
      by_cases mem : p ∈ l
      · simp only [Disks.blocked, if_pos mem, ← blocked.unavailable p mem]
      · simp only [Disks.blocked, if_neg mem]
    exact congrArg (fun parts => { m with parts := parts }) parts
  have start := Loading.init blocked.parts blocked.fresh
  rwa [same] at start

namespace GptTable

variable (table : GptTable dev)
include table

theorem entryPerSector_ne : divFloor dev.sectorSize (gptHeader dev).entrySize ≠ 0 :=
  (Nat.div_pos (Nat.le_of_dvd table.sized table.divides) (by have := table.long; omega)).ne'

/-- `gpt_load` is the loop, and the loop registers what the slots hold. -/
theorem gptLoad_eq : gptLoad fuel dev m disk =
    (loadParts fuel disk ((List.range (gptSlotCount dev (gptHeader dev))).filterMap
      (gptSlot dev (gptHeader dev))) m).map fun m => (true, m) := by
  have size_ne : (gptHeader dev).entrySize ≠ 0 := by have := table.long; omega
  have enough : gptSectors dev (gptHeader dev) - 0 ≤ (gptHeader dev).entryCount :=
    gptSectors_le table.entryPerSector_ne
  have found := @gptFound_eq dev (gptHeader dev) dev.stack _ _ table.long table.divides rfl
    table.entryPerSector_ne table.readable 0 enough
  rw [Nat.zero_mul, Nat.sub_zero, ← List.range_eq_range'] at found
  obtain ⟨bytes, read, header⟩ := diskReadLba_gptHeader table.sized table.header_read
  rw [gptLoad, read]
  dsimp only
  rw [header, if_neg (not_not.mpr table.signature), if_neg size_ne,
    if_neg (not_not.mpr (Nat.mod_eq_zero_of_dvd table.divides)),
    gptLoadLoop_eq table.entryPerSector_ne, found]
  rfl

/-- After `gpt_load` the places that any of the slots names are available. -/
theorem gptLoad_available (blocked : m.Blocked disk l)
    (supplies : m.Supplies (gptSlotCount dev (gptHeader dev))) :
    ∃ m', Returns (fun fuel => gptLoad fuel dev m disk) (true, m') ∧
      ∀ key, m'.Available disk key ↔ ∃ i, i < gptSlotCount dev (gptHeader dev) ∧
        ∃ part, gptSlot dev (gptHeader dev) i = some part ∧ part.key = key := by
  generalize slots : (List.range (gptSlotCount dev (gptHeader dev))).filterMap
    (gptSlot dev (gptHeader dev)) = parts
  have fewer : parts.length ≤ gptSlotCount dev (gptHeader dev) := by
    rw [← slots]
    exact (List.length_filterMap_le _ _).trans (Nat.le_of_eq List.length_range)
  obtain ⟨m', l', registered', run, loading, all⟩ :=
    @loadParts_loads m m disk l l [] parts blocked.loading
  have returns : Returns (fun fuel => loadParts fuel disk parts m) m' := ⟨_, run⟩
  refine ⟨m', (returns.map fun m => (true, m)).congr fun fuel => ?_, fun key => ?_⟩
  · rw [table.gptLoad_eq, slots]
  · rw [loading.available_iff, all (supplies.mono fewer), List.nil_append, ← slots]
    simp only [List.mem_map, List.mem_filterMap, List.mem_range]
    constructor
    · rintro ⟨part, ⟨i, lt, holds⟩, rfl⟩
      exact ⟨i, lt, part, holds, rfl⟩
    · rintro ⟨i, lt, part, holds, rfl⟩
      exact ⟨part, ⟨i, lt, holds⟩, rfl⟩

end GptTable

/-! ## The table and the slots behind it -/

/-- Slot `i` is in use, the firmware leaves it to the system, and it lies at `key`. -/
def GptEntryAt (dev : Disk) (header : GptTableHeader) (i : Nat) (key : Nat × Nat) : Prop :=
  let entry := gptSlotAt dev header i
  let startLba := read dev.data (entry + 32) 8
  let endLba := read dev.data (entry + 40) 8
  ¬(read dev.data entry 8 = 0 ∧ read dev.data (entry + 8) 8 = 0) ∧
  (read dev.data (entry + 48) 8).testBit 1 = false ∧
  key = (startLba, sub64 (wrap64 (endLba + 1)) startLba)

theorem gptSlot_key_iff {key : Nat × Nat} :
    (∃ part, gptSlot dev header i = some part ∧ part.key = key) ↔ GptEntryAt dev header i key := by
  simp only [gptSlot, gptEntry, GptEntryAt, PartEntry.key]
  split
  · next unused =>
      refine iff_of_false ?_ fun all => all.1 unused
      rintro ⟨_, no, -⟩
      cases no
  next used =>
  split
  · next firmware =>
      refine iff_of_false ?_ fun all => Bool.noConfusion (firmware.symm.trans all.2.1)
      rintro ⟨_, no, -⟩
      cases no
  · next free =>
      constructor
      · rintro ⟨part, holds, rfl⟩
        obtain rfl := Option.some.inj holds
        exact ⟨used, Bool.eq_false_iff.mpr free, rfl⟩
      · rintro ⟨-, -, rfl⟩
        exact ⟨_, rfl, rfl⟩

/-- `gpt_load` succeeds, and what is available then is what the entries of the table name. -/
def GptRegisters (dev : Disk) (m : Disks) (disk : DiskPtr) : Prop :=
  ∃ m', Returns (fun fuel => gptLoad fuel dev m disk) (true, m') ∧
    ∀ key, m'.Available disk key ↔
      ∃ i, i < (gptHeader dev).entryCount ∧ GptEntryAt dev (gptHeader dev) i key

/-- `dev'` differs from `dev` at most behind the last entry of the table. -/
structure SameTable (dev dev' : Disk) : Prop where
  sectorSize : dev'.sectorSize = dev.sectorSize
  answers : dev'.answers = dev.answers
  header : ∀ k, k < 92 →
    dev'.data (gptLba * dev.sectorSize + k) = dev.data (gptLba * dev.sectorSize + k)
  entries : ∀ i, i < (gptHeader dev).entryCount → ∀ k, k < (gptHeader dev).entrySize →
    dev'.data (gptSlotAt dev (gptHeader dev) i + k) = dev.data (gptSlotAt dev (gptHeader dev) i + k)

/-- After `gpt_load` a partition at `key` is available. -/
def GptOffers (dev : Disk) (m : Disks) (disk : DiskPtr) (key : Nat × Nat) : Prop :=
  ∃ loaded m', Returns (fun fuel => gptLoad fuel dev m disk) (loaded, m') ∧ m'.Available disk key

/-- What is behind the table makes no difference. -/
def IgnoresTail (dev : Disk) (m : Disks) (disk : DiskPtr) : Prop :=
  ∀ dev', SameTable dev dev' → ∀ key, GptOffers dev' m disk key ↔ GptOffers dev m disk key

/-- The sectors of the table are not those of the header. -/
def HeaderApart (dev : Disk) : Prop :=
  ∀ j, j < gptSectors dev (gptHeader dev) →
    gptLba * dev.sectorSize + 92 ≤ wrap64 ((gptHeader dev).lbaArray + j) * dev.sectorSize ∨
    (wrap64 ((gptHeader dev).lbaArray + j) + 1) * dev.sectorSize ≤ gptLba * dev.sectorSize

theorem GptTable.gptOffers_iff (table : GptTable dev) (blocked : m.Blocked disk l)
    (supplies : m.Supplies (gptSlotCount dev (gptHeader dev))) (key : Nat × Nat) :
    GptOffers dev m disk key ↔ ∃ i, i < gptSlotCount dev (gptHeader dev) ∧
      GptEntryAt dev (gptHeader dev) i key := by
  obtain ⟨m', returns, available⟩ := table.gptLoad_available blocked supplies
  have named := available key
  simp only [gptSlot_key_iff] at named
  rw [← named]
  constructor
  · rintro ⟨loaded, m₁, returns₁, there⟩
    obtain ⟨-, rfl⟩ := Prod.mk.inj (returns.unique returns₁)
    exact there
  · exact fun there => ⟨true, m', returns, there⟩

/-- Slots are apart from each other. -/
theorem GptTable.gptSlotAt_apart (table : GptTable dev) {i' : Nat} (ne : i ≠ i')
    (small : i < 2 ^ 64) (small' : i' < 2 ^ 64) :
    gptSlotAt dev (gptHeader dev) i + (gptHeader dev).entrySize ≤ gptSlotAt dev (gptHeader dev) i' ∨
    gptSlotAt dev (gptHeader dev) i' + (gptHeader dev).entrySize ≤
      gptSlotAt dev (gptHeader dev) i := by
  dsimp only [gptSlotAt]
  have parts : divFloor dev.sectorSize (gptHeader dev).entrySize * (gptHeader dev).entrySize =
      dev.sectorSize := Nat.div_mul_cancel table.divides
  have some' := Nat.pos_of_ne_zero table.entryPerSector_ne
  generalize divFloor dev.sectorSize (gptHeader dev).entrySize = entryPerSector at parts some'
  generalize (gptHeader dev).entrySize = entrySize at parts
  have inside (i : Nat) : i % entryPerSector * entrySize + entrySize ≤ dev.sectorSize := by
    rw [← parts, ← Nat.succ_mul]
    exact Nat.mul_le_mul_right _ (Nat.mod_lt i some')
  have behind {q q' : Nat} (lt : q < q') (i i' : Nat) :
      q * dev.sectorSize + i % entryPerSector * entrySize + entrySize ≤
        q' * dev.sectorSize + i' % entryPerSector * entrySize := by
    have le := Nat.mul_le_mul_right dev.sectorSize (Nat.succ_le_of_lt lt)
    rw [Nat.succ_mul] at le
    have := inside i
    omega
  by_cases same : i / entryPerSector = i' / entryPerSector
  · have off : i % entryPerSector ≠ i' % entryPerSector := by
      intro same'
      apply ne
      rw [← Nat.div_add_mod i entryPerSector, ← Nat.div_add_mod i' entryPerSector, same, same']
    have within {r r' : Nat} (lt : r < r') : r * entrySize + entrySize ≤ r' * entrySize := by
      rw [← Nat.succ_mul]
      exact Nat.mul_le_mul_right _ lt
    rw [same, Nat.add_assoc, Nat.add_assoc]
    obtain lt | lt := Nat.lt_or_gt_of_ne off
    · exact Or.inl (Nat.add_le_add_left (within lt) _)
    · exact Or.inr (Nat.add_le_add_left (within lt) _)
  · have le := Nat.div_le_self i entryPerSector
    have le' := Nat.div_le_self i' entryPerSector
    have off : wrap64 ((gptHeader dev).lbaArray + i / entryPerSector) ≠
        wrap64 ((gptHeader dev).lbaArray + i' / entryPerSector) := by
      generalize i / entryPerSector = q at same le
      generalize i' / entryPerSector = q' at same le'
      unfold wrap64
      omega
    obtain lt | lt := Nat.lt_or_gt_of_ne off
    · exact Or.inl (behind lt i i')
    · exact Or.inr (behind lt i' i)

/-- The header and the entries of the table are the same on both disks. -/
theorem SameTable.gptHeader_eq {dev' : Disk} (same : SameTable dev dev') :
    gptHeader dev' = gptHeader dev := by
  have bytes : slice dev'.data (gptLba * dev'.sectorSize) 92 =
      slice dev.data (gptLba * dev.sectorSize) 92 := by
    rw [same.sectorSize]
    exact List.map_congr_left fun k mem => same.header k (List.mem_range.mp mem)
  unfold gptHeader
  rw [bytes]

theorem SameTable.gptSlotAt_eq {dev' : Disk} (same : SameTable dev dev') :
    gptSlotAt dev' header i = gptSlotAt dev header i := by
  simp only [gptSlotAt, same.sectorSize]

theorem SameTable.gptTable {dev' : Disk} (same : SameTable dev dev') (table : GptTable dev) :
    GptTable dev' := by
  have header := same.gptHeader_eq
  refine ⟨?_, ?_, ?_, ?_, ?_, ?_, ?_⟩
  · rw [same.sectorSize]
    exact table.sized
  · rw [same.sectorSize]
    exact table.sized'
  · exact (diskReadLba_ok_congr same.answers same.sectorSize).trans table.header_read
  · rw [header]
    intro j lt
    rw [same.answers]
    refine table.readable j ?_
    rwa [gptSectors, same.sectorSize] at lt
  · rw [header]
    exact table.signature
  · rw [header]
    exact table.long
  · rw [header, same.sectorSize]
    exact table.divides

theorem SameTable.gptEntryAt_iff {dev' : Disk} (same : SameTable dev dev') (table : GptTable dev)
    (inside : i < (gptHeader dev).entryCount) {key : Nat × Nat} :
    GptEntryAt dev' (gptHeader dev') i key ↔ GptEntryAt dev (gptHeader dev) i key := by
  have entry : gptSlot dev' (gptHeader dev) i = gptSlot dev (gptHeader dev) i := by
    unfold gptSlot
    rw [same.gptSlotAt_eq]
    exact gptEntry_congr fun k lt => same.entries i inside k (Nat.lt_of_lt_of_le lt table.long)
  rw [same.gptHeader_eq, ← gptSlot_key_iff, ← gptSlot_key_iff, entry]

/-- The bytes of an entry of one sector. -/
def usedEntry (lba : Nat) : List UInt8 :=
  encode 8 1 ++ (encode 8 0 ++ (encode 8 0 ++ (encode 8 0 ++ (encode 8 lba ++ (encode 8 lba ++
    encode 8 0)))))

theorem length_usedEntry {lba : Nat} : (usedEntry lba).length = 56 := by simp [usedEntry]

/-- The disk with this entry in slot `i`. -/
def Disk.withEntry (dev : Disk) (i lba : Nat) : Disk :=
  { dev with data := store dev.data (gptSlotAt dev (gptHeader dev) i) (usedEntry lba) }

theorem Disk.withEntry_outside {lba x : Nat} (outside : x < gptSlotAt dev (gptHeader dev) i ∨
    gptSlotAt dev (gptHeader dev) i + 56 ≤ x) : (dev.withEntry i lba).data x = dev.data x := by
  rw [← @length_usedEntry lba] at outside
  unfold Disk.withEntry
  dsimp only
  exact store_outside outside

theorem usedEntry_read {bytes : Memory} {at' off lba value : Nat} (within : off + 8 ≤ 56)
    (field : ((usedEntry lba).drop off).take 8 = encode 8 value) (fits : value < 256 ^ 8) :
    read (store bytes at' (usedEntry lba)) (at' + off) 8 = value := by
  have stored := @slice_store bytes at' (usedEntry lba) 8 off
    (by rwa [length_usedEntry])
  rw [field] at stored
  have value_eq := congrArg decode stored
  rw [decode_encode, Nat.mod_eq_of_lt fits] at value_eq
  exact value_eq

theorem gptEntryAt_withEntry {lba : Nat} (fits : lba < 2 ^ 64)
    (same : SameTable dev (dev.withEntry i lba)) :
    GptEntryAt (dev.withEntry i lba) (gptHeader (dev.withEntry i lba)) i (lba, 1) := by
  have fits' : lba < 256 ^ 8 := fits
  simp only [GptEntryAt, same.gptHeader_eq, same.gptSlotAt_eq]
  dsimp only [Disk.withEntry]
  generalize gptSlotAt dev (gptHeader dev) i = at'
  have used := @usedEntry_read dev.data at' 0 lba 1 (by decide) rfl (by decide)
  rw [Nat.add_zero] at used
  rw [used, @usedEntry_read dev.data at' 32 lba lba (by decide) rfl fits',
    @usedEntry_read dev.data at' 40 lba lba (by decide) rfl fits',
    @usedEntry_read dev.data at' 48 lba 0 (by decide) rfl (by decide)]
  refine ⟨fun zero => Nat.one_ne_zero zero.1, rfl, Prod.ext rfl ?_⟩
  simp only [wrap64, sub64]
  omega

/-- An entry behind the table changes nothing of the header and of the table. -/
theorem GptTable.sameTable_withEntry (table : GptTable dev) (apart : HeaderApart dev) {lba : Nat}
    (behind : (gptHeader dev).entryCount ≤ i) (inside : i < gptSlotCount dev (gptHeader dev))
    (small : i < 2 ^ 64) : SameTable dev (dev.withEntry i lba) := by
  have long := table.long
  refine ⟨by simp only [Disk.withEntry], by simp only [Disk.withEntry], fun k lt => ?_,
    fun i' below k lt => ?_⟩
  · have sector : i / divFloor dev.sectorSize (gptHeader dev).entrySize <
        gptSectors dev (gptHeader dev) :=
      Nat.div_lt_of_lt_mul (by rw [Nat.mul_comm]; exact inside)
    have end' : i % divFloor dev.sectorSize (gptHeader dev).entrySize * (gptHeader dev).entrySize +
        (gptHeader dev).entrySize ≤ dev.sectorSize := by
      have le := Nat.mul_le_mul_right (gptHeader dev).entrySize
        (Nat.succ_le_of_lt (Nat.mod_lt i (Nat.pos_of_ne_zero table.entryPerSector_ne)))
      rwa [Nat.succ_mul, divFloor, Nat.div_mul_cancel table.divides] at le
    refine Disk.withEntry_outside ?_
    dsimp only [gptSlotAt]
    obtain before | after := apart _ sector
    · omega
    · rw [Nat.succ_mul] at after
      omega
  · refine Disk.withEntry_outside ?_
    obtain before | after := @GptTable.gptSlotAt_apart dev i' table i (by omega) (by omega) small
    · omega
    · omega

theorem GptTable.exists_sameTable (table : GptTable dev) (apart : HeaderApart dev) {lba : Nat}
    (fits : lba < 2 ^ 64) (inside : (gptHeader dev).entryCount < gptSlotCount dev (gptHeader dev))
    (small : (gptHeader dev).entryCount < 2 ^ 64) : ∃ dev', SameTable dev dev' ∧
      GptEntryAt dev' (gptHeader dev') (gptHeader dev).entryCount (lba, 1) := by
  have same := @GptTable.sameTable_withEntry dev (gptHeader dev).entryCount table apart lba
    (Nat.le_refl _) inside small
  exact ⟨_, same, gptEntryAt_withEntry fits same⟩

theorem SameTable.gptSlotCount_eq {dev' : Disk} (same : SameTable dev dev') :
    gptSlotCount dev' (gptHeader dev') = gptSlotCount dev (gptHeader dev) := by
  rw [same.gptHeader_eq]
  simp only [gptSlotCount, gptSectors, same.sectorSize]

theorem GptTable.gptSlotCount_lt (table : GptTable dev) :
    gptSlotCount dev (gptHeader dev) < 2 ^ 64 := by
  have le : gptSlotCount dev (gptHeader dev) ≤ (gptHeader dev).entryCount +
      divFloor dev.sectorSize (gptHeader dev).entrySize - 1 := Nat.div_mul_le_self ..
  have parts : divFloor dev.sectorSize (gptHeader dev).entrySize * (gptHeader dev).entrySize =
      dev.sectorSize := Nat.div_mul_cancel table.divides
  have long := Nat.mul_le_mul_left (divFloor dev.sectorSize (gptHeader dev).entrySize) table.long
  have count := @gptHeader_entryCount_lt dev
  have sized := table.sized'
  omega

/-- There are slots behind the table unless it ends with a sector. -/
theorem GptTable.gptSlotCount_eq_iff (table : GptTable dev) :
    gptSlotCount dev (gptHeader dev) = (gptHeader dev).entryCount ↔
      divFloor dev.sectorSize (gptHeader dev).entrySize ∣ (gptHeader dev).entryCount := by
  have some' := table.entryPerSector_ne
  unfold gptSlotCount gptSectors
  generalize divFloor dev.sectorSize (gptHeader dev).entrySize = entryPerSector at some'
  generalize (gptHeader dev).entryCount = entryCount
  dsimp only
  constructor
  · intro eq
    rw [← eq]
    exact Nat.dvd_mul_left ..
  · rintro ⟨sectors, rfl⟩
    have shape : entryPerSector * sectors + entryPerSector - 1 =
        entryPerSector - 1 + entryPerSector * sectors := by omega
    rw [shape, Nat.add_mul_div_left _ _ (Nat.pos_of_ne_zero some'),
      Nat.div_eq_of_lt (by omega), Nat.zero_add, Nat.mul_comm]

/-- If what is behind the table made no difference, any place in front of `2^64` would be named by
    one of the slots. -/
theorem IgnoresTail.divides (ignores : IgnoresTail dev m disk) (table : GptTable dev)
    (blocked : m.Blocked disk l) (supplies : m.Supplies (gptSlotCount dev (gptHeader dev)))
    (apart : HeaderApart dev) :
    divFloor dev.sectorSize (gptHeader dev).entrySize ∣ (gptHeader dev).entryCount := by
  rw [← table.gptSlotCount_eq_iff]
  by_contra more
  have small := table.gptSlotCount_lt
  have inside : (gptHeader dev).entryCount < gptSlotCount dev (gptHeader dev) :=
    Nat.lt_of_le_of_ne (entryCount_le_gptSlotCount table.entryPerSector_ne) (Ne.symm more)
  have named (lba : Nat) (fits : lba < 2 ^ 64) : ∃ i, i < gptSlotCount dev (gptHeader dev) ∧
      GptEntryAt dev (gptHeader dev) i (lba, 1) := by
    obtain ⟨dev', same, holds⟩ :=
      table.exists_sameTable apart fits inside (Nat.lt_trans inside small)
    rw [← table.gptOffers_iff blocked supplies, ← ignores dev' same,
      (same.gptTable table).gptOffers_iff blocked (same.gptSlotCount_eq ▸ supplies),
      same.gptSlotCount_eq]
    exact ⟨_, inside, holds⟩
  choose! slot slot_lt slot_at using named
  generalize 2 ^ 64 = places at small slot_lt slot_at
  have fewer : (Finset.range (gptSlotCount dev (gptHeader dev))).card <
      (Finset.range places).card := by
    rwa [Finset.card_range, Finset.card_range]
  obtain ⟨lba, mem, lba', mem', ne, same⟩ := Finset.exists_ne_map_eq_of_card_lt_of_maps_to fewer
    (fun lba mem => Finset.mem_coe.mpr (Finset.mem_range.mpr
      (slot_lt lba (Finset.mem_range.mp (Finset.mem_coe.mp mem)))))
  have here := slot_at lba (Finset.mem_range.mp mem)
  have here' := slot_at lba' (Finset.mem_range.mp mem')
  rw [same] at here
  exact ne (Prod.mk.inj (here.2.2.trans here'.2.2.symm)).1

/-- What `gpt_load` makes available is what the entries of the table name exactly if the slots
    behind them, in the last sector, name nothing else; and what is behind the table makes no
    difference exactly if the table ends with a sector. -/
theorem gptLoad_registers_iff (dev : Disk) (m : Disks) (disk : DiskPtr) (l : List PartPtr)
    (table : GptTable dev) (blocked : m.Blocked disk l)
    (supplies : m.Supplies (gptSlotCount dev (gptHeader dev))) :
    (GptRegisters dev m disk ↔ ∀ i key, (gptHeader dev).entryCount ≤ i →
      i < gptSlotCount dev (gptHeader dev) → GptEntryAt dev (gptHeader dev) i key →
      ∃ i', i' < (gptHeader dev).entryCount ∧ GptEntryAt dev (gptHeader dev) i' key) ∧
    (HeaderApart dev → (IgnoresTail dev m disk ↔
      divFloor dev.sectorSize (gptHeader dev).entrySize ∣ (gptHeader dev).entryCount)) := by
  obtain ⟨m', returns, available⟩ := table.gptLoad_available blocked supplies
  have le := @entryCount_le_gptSlotCount dev (gptHeader dev) table.entryPerSector_ne
  simp only [gptSlot_key_iff] at available
  refine ⟨⟨?_, fun covered => ?_⟩, fun apart =>
    ⟨fun ignores => ignores.divides table blocked supplies apart, fun divides dev' same key => ?_⟩⟩
  · rintro ⟨m₁, returns₁, named⟩ i key - inside holds
    obtain ⟨-, rfl⟩ := Prod.mk.inj (returns.unique returns₁)
    exact (named key).mp ((available key).mpr ⟨i, inside, holds⟩)
  · refine ⟨m', returns, fun key => (available key).trans ⟨?_, ?_⟩⟩
    · rintro ⟨i, inside, holds⟩
      by_cases below : i < (gptHeader dev).entryCount
      · exact ⟨i, below, holds⟩
      · exact covered i key (Nat.le_of_not_lt below) inside holds
    · rintro ⟨i, below, holds⟩
      exact ⟨i, Nat.lt_of_lt_of_le below le, holds⟩
  · have count := table.gptSlotCount_eq_iff.mpr divides
    rw [(same.gptTable table).gptOffers_iff blocked (same.gptSlotCount_eq ▸ supplies),
      table.gptOffers_iff blocked supplies, same.gptSlotCount_eq, count]
    refine exists_congr fun i => and_congr_right fun inside => ?_
    exact same.gptEntryAt_iff table inside

end

/-! ### A table of entries of 128 bytes -/

/-- An entry in use, as the disk has it. -/
def entryBytes (startLba endLba : Nat) : List UInt8 :=
  encode 8 1 ++ encode 24 0 ++ encode 8 startLba ++ encode 8 endLba ++ encode 80 0

/-- A disk with the partitions 34 to 40 and 50 to 60 in the first two slots of sector 2. -/
def gptDisk (entryCount : Nat) : Disk where
  sectorSize := 512
  data := store (store (fun _ => 0) 512 (encode 8 gptSignature ++ encode 64 0 ++ encode 8 2 ++
    encode 4 entryCount ++ encode 4 128)) 1024 (entryBytes 34 40 ++ entryBytes 50 60)
  answers _ _ := true
  stack _ := 0

def noParts : Disks where
  disks _ := ⟨false, none, 0, none⟩
  parts _ := ⟨0, 0, false, false, 1, none⟩
  first := some 1
  live _ := false
  allocs := [some 10, some 11, some 12, some 13]
  registered := []

theorem blocked_noParts : noParts.Blocked 1 [] where
  parts := ⟨.stop, by decide, by decide, by decide⟩
  fresh := ⟨fun _ _ => rfl, by decide⟩
  unavailable := by decide

theorem supplies_noParts : noParts.Supplies 4 := by
  intro i lt
  interval_cases i
  exacts [⟨10, rfl⟩, ⟨11, rfl⟩, ⟨12, rfl⟩, ⟨13, rfl⟩]

theorem gptHeader_gptDisk {entryCount : Nat} (among : entryCount ∈ [1, 4]) :
    gptHeader (gptDisk entryCount) = ⟨gptSignature, 2, entryCount, 128⟩ := by
  have fields : ∀ n ∈ [1, 4], (gptHeader (gptDisk n)).signature = gptSignature ∧
      (gptHeader (gptDisk n)).lbaArray = 2 ∧ (gptHeader (gptDisk n)).entryCount = n ∧
      (gptHeader (gptDisk n)).entrySize = 128 := by decide
  obtain ⟨signature, lbaArray, count, size⟩ := fields entryCount among
  generalize gptHeader (gptDisk entryCount) = header at signature lbaArray count size
  obtain ⟨signature', lbaArray', count', size'⟩ := header
  rw [GptTableHeader.mk.injEq]
  exact ⟨signature, lbaArray, count, size⟩

theorem gptTable_gptDisk {entryCount : Nat} (among : entryCount ∈ [1, 4]) :
    GptTable (gptDisk entryCount) := by
  have header := gptHeader_gptDisk among
  have sectorSize : (gptDisk entryCount).sectorSize = 512 := by simp only [gptDisk]
  have sized : 0 < (gptDisk entryCount).sectorSize := by rw [sectorSize]; decide
  have answered : (gptDisk entryCount).Readable gptLba 1 := fun _ _ _ _ _ => by simp only [gptDisk]
  refine ⟨sized, by rw [sectorSize]; decide, diskReadLba_readable sized (by decide) ?_ ?_, ?_, ?_,
    ?_, ?_⟩
  · rw [sectorSize]
    decide
  · rw [sectorSize]
    exact answered
  · exact fun _ _ => by simp only [gptDisk]
  · rw [header]
  · rw [header]
    exact (by decide : 56 ≤ 128)
  · rw [header, sectorSize]
    exact (by decide : 128 ∣ 512)

/-- Four entries take the sector. -/
theorem gptLoad_registers_iff_gptDisk : GptRegisters (gptDisk 4) noParts 1 := by
  have header := @gptHeader_gptDisk 4 (by decide)
  have count : gptSlotCount (gptDisk 4) (gptHeader (gptDisk 4)) = 4 := by
    rw [header]
    decide
  refine (gptLoad_registers_iff (gptDisk 4) noParts 1 [] (gptTable_gptDisk (by decide))
    blocked_noParts (count ▸ supplies_noParts)).1.mpr fun i key low high => ?_
  rw [header] at low
  rw [count] at high
  exact absurd high (Nat.not_lt.mpr low)

/-- With one entry the second slot is registered as well. -/
theorem not_gptRegisters : ¬∀ (dev : Disk) (m : Disks) (disk : DiskPtr) (l : List PartPtr),
    GptTable dev → m.Blocked disk l → m.Supplies (gptSlotCount dev (gptHeader dev)) →
    GptRegisters dev m disk := by
  intro always
  have header := @gptHeader_gptDisk 1 (by decide)
  have table := @gptTable_gptDisk 1 (by decide)
  have count : gptSlotCount (gptDisk 1) (gptHeader (gptDisk 1)) = 4 := by
    rw [header]
    decide
  have supplies : noParts.Supplies (gptSlotCount (gptDisk 1) (gptHeader (gptDisk 1))) :=
    count ▸ supplies_noParts
  obtain ⟨m', returns, named⟩ := always (gptDisk 1) noParts 1 [] table blocked_noParts supplies
  obtain ⟨m₁, returns₁, available⟩ := table.gptLoad_available blocked_noParts supplies
  obtain ⟨-, rfl⟩ := Prod.mk.inj (returns.unique returns₁)
  have second : gptSlot (gptDisk 1) (gptHeader (gptDisk 1)) 1 = some ⟨50, 11, false⟩ := by
    rw [header]
    decide
  obtain ⟨i, below, holds⟩ := (named (50, 11)).mp ((available (50, 11)).mpr
    ⟨1, by rw [count]; decide, _, second, rfl⟩)
  rw [header] at below holds
  obtain rfl : i = 0 := Nat.lt_one_iff.mp below
  have first : (50, 11) = (34, 7) := holds.2.2.trans (by decide)
  exact absurd first (by decide)

end Sdx.Core
