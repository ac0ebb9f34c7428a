import Sdx.Core.GptParts
import Sdx.Lib.Trace

/-! # The fields that `gpt_load` reads (`core/gpt.c`)

`gpt_load` again, with the fields of the entries it reads out of the buffer for one sector. The
size of an entry comes from the disk, and is only asked to divide the sector size.
-/

namespace Sdx.Core

open Sdx.Lib Sdx.Lib.Bytes Sdx.Lib.Trace

/-- A read of a field from the buffer of the entries. -/
structure FieldRead where
  offset : Nat
  width : Nat

/-- The read is inside a buffer of this size. -/
def FieldRead.Inside (size : Nat) (r : FieldRead) : Prop := r.offset + r.width ≤ size

def readField (entries : Memory) (offset : Nat) : Traced FieldRead Nat :=
  .request ⟨offset, 8⟩ (read entries offset 8)

/-- `__gpt_load_entry` up to the partition it takes. -/
def gptEntryTraced (entries : Memory) (part : Nat) : Traced FieldRead (Option PartEntry) := do
  let type₀ ← readField entries part
  let type₁ ← readField entries (part + 8)
  let _guid₀ ← readField entries (part + 16)
  let _guid₁ ← readField entries (part + 24)
  if type₀ = 0 ∧ type₁ = 0 then pure none
  else do
    let attr ← readField entries (part + 48)
    if attr.testBit 1 then pure none
    else do
      let startLba ← readField entries (part + 32)
      let endLba ← readField entries (part + 40)
      pure (some ⟨startLba, sub64 (wrap64 (endLba + 1)) startLba, attr.testBit 2⟩)

def gptLoadEntryTraced (fuel : Nat) (m : Disks) (disk : DiskPtr) (entries : Memory) (part : Nat) :
    Traced FieldRead (Option Disks) := do
  match ← gptEntryTraced entries part with
  | none => pure (some m)
  | some part => pure (loadPart fuel m disk part)

def gptLoadSectorTraced (fuel : Nat) (disk : DiskPtr) (entries : Memory) (entrySize : Nat) :
    Nat → Nat → Disks → Traced FieldRead (Option Disks)
  | 0, _, m => pure (some m)
  | count + 1, e, m => do
      match ← gptLoadEntryTraced fuel m disk entries (e * entrySize) with
      | none => pure none
      | some m => gptLoadSectorTraced fuel disk entries entrySize count (e + 1) m

def gptLoadLoopTraced (fuel : Nat) (dev : Disk) (disk : DiskPtr) (header : GptTableHeader)
    (entryPerSector : Nat) : Nat → Nat → Memory → Disks → Traced FieldRead (Option Disks)
  | 0, _, _, m => pure (some m)
  | rounds + 1, i, entries, m =>
      if i < header.entryCount then
        if entryPerSector = 0 then pure none
        else
          match diskDo dev (wrap64 (header.lbaArray + i / entryPerSector)) 1 0 entries with
          | (false, entries) =>
              gptLoadLoopTraced fuel dev disk header entryPerSector rounds (i + entryPerSector)
                entries m
          | (true, entries) => do
              match ← gptLoadSectorTraced fuel disk entries header.entrySize entryPerSector 0 m with
              | none => pure none
              | some m =>
                  gptLoadLoopTraced fuel dev disk header entryPerSector rounds (i + entryPerSector)
                    entries m
      else pure (some m)

def gptLoadTraced (fuel : Nat) (dev : Disk) (m : Disks) (disk : DiskPtr) :
    Traced FieldRead (Option (Bool × Disks)) :=
  match diskReadLba dev gptLba 92 0 (fun _ => 0) with
  | (false, _) => pure (some (false, m))
  | (true, header) =>
      let header := GptTableHeader.ofBytes header
      if header.signature ≠ gptSignature then pure (some (false, m))
      else if header.entrySize = 0 then pure none
      else if dev.sectorSize % header.entrySize ≠ 0 then pure (some (false, m))
      else do
        let loaded ← gptLoadLoopTraced fuel dev disk header
          (divFloor dev.sectorSize header.entrySize) header.entryCount 0 dev.stack m
        pure (loaded.map fun m => (true, m))

section

variable {fuel : Nat} {dev : Disk} {m m' : Disks} {disk : DiskPtr} {header : GptTableHeader}
  {entries : Memory} {part entrySize entryPerSector rounds i e count size : Nat}

/-! ## Without the reads -/

@[simp] theorem readField_value : (readField entries part).value = read entries part 8 := by
  rw [readField, Traced.value_request]

@[simp] theorem gptEntryTraced_value :
    (gptEntryTraced entries part).value = gptEntry entries part := by
  simp only [gptEntryTraced, gptEntry, Traced.value_bind, readField_value]
  by_cases unused : read entries part 8 = 0 ∧ read entries (part + 8) 8 = 0
  · rw [if_pos unused, if_pos unused, Traced.value_pure]
  rw [if_neg unused, if_neg unused, Traced.value_bind, readField_value]
  by_cases firmware : (read entries (part + 48) 8).testBit 1 = true
  · rw [if_pos firmware, if_pos firmware, Traced.value_pure]
  · rw [if_neg firmware, if_neg firmware]
    simp only [Traced.value_bind, readField_value, Traced.value_pure]

@[simp] theorem gptLoadEntryTraced_value :
    (gptLoadEntryTraced fuel m disk entries part).value = gptLoadEntry fuel m disk entries part := by
  rw [gptLoadEntryTraced, gptLoadEntry, Traced.value_bind, gptEntryTraced_value]
  cases gptEntry entries part with
  | none => rfl
  | some part => rfl

@[simp] theorem gptLoadSectorTraced_value :
    (gptLoadSectorTraced fuel disk entries entrySize count e m).value =
      gptLoadSector fuel disk entries entrySize count e m := by
  induction count generalizing e m with
  | zero => rfl
  | succ count ih =>
      rw [gptLoadSectorTraced, gptLoadSector, Traced.value_bind, gptLoadEntryTraced_value]
      cases gptLoadEntry fuel m disk entries (e * entrySize) with
      | none => rfl
      | some m => exact ih

@[simp] theorem gptLoadLoopTraced_value :
    (gptLoadLoopTraced fuel dev disk header entryPerSector rounds i entries m).value =
      gptLoadLoop fuel dev disk header entryPerSector rounds i entries m := by
  induction rounds generalizing i entries m with
  | zero => rfl
  | succ rounds ih =>
      rw [gptLoadLoopTraced, gptLoadLoop]
      split
      swap
      · rfl
      split
      · rfl
      rcases diskDo dev (wrap64 (header.lbaArray + i / entryPerSector)) 1 0 entries with ⟨_ | _, entries⟩
      · exact ih
      · dsimp only
        rw [Traced.value_bind, gptLoadSectorTraced_value]
        cases gptLoadSector fuel disk entries header.entrySize entryPerSector 0 m with
        | none => rfl
        | some m => exact ih

theorem gptLoadTraced_value :
    (gptLoadTraced fuel dev m disk).value = gptLoad fuel dev m disk := by
  rw [gptLoadTraced, gptLoad]
  rcases diskReadLba dev gptLba 92 0 (fun _ => 0) with ⟨_ | _, bytes⟩
  · rfl
  · dsimp only
    split
    · rfl
    split
    · rfl
    split
    · rfl
    · rw [Traced.value_bind, gptLoadLoopTraced_value]
      rfl

/-! ## Reads inside -/

theorem readField_inside (within : part + 8 ≤ size) :
    (readField entries part).Only (FieldRead.Inside size) := .request within

/-- The entry has no type. -/
def Unused (entries : Memory) (part : Nat) : Prop :=
  read entries part 8 = 0 ∧ read entries (part + 8) 8 = 0

/-- An entry is read inside the buffer if it has room for the fields up to the attributes, or up
    to the GUID and no type. -/
theorem gptEntryTraced_inside (within : part + 32 ≤ size)
    (fields : part + 56 ≤ size ∨ Unused entries part) :
    (gptEntryTraced entries part).Only (FieldRead.Inside size) := by
  refine .bind (readField_inside (by omega)) (.bind (readField_inside (by omega))
    (.bind (readField_inside (by omega)) (.bind (readField_inside (by omega)) ?_)))
  rw [readField_value, readField_value]
  split
  · exact .pure
  next used =>
  have within' : part + 56 ≤ size := fields.resolve_right used
  refine .bind (readField_inside (by omega)) ?_
  split
  · exact .pure
  · exact .bind (readField_inside (by omega)) (.bind (readField_inside (by omega)) .pure)

variable {P : FieldRead → Prop}

theorem gptLoadEntryTraced_only (only : (gptEntryTraced entries part).Only P) :
    (gptLoadEntryTraced fuel m disk entries part).Only P := by
  refine .bind only ?_
  split
  · exact .pure
  · exact .pure

theorem gptLoadSectorTraced_only (only : ∀ e', e ≤ e' → e' < e + count →
      (gptEntryTraced entries (e' * entrySize)).Only P) :
    (gptLoadSectorTraced fuel disk entries entrySize count e m).Only P := by
  induction count generalizing e m with
  | zero => exact .pure
  | succ count ih =>
      refine .bind (gptLoadEntryTraced_only (only e (Nat.le_refl e) (by omega))) ?_
      split
      · exact .pure
      · exact ih fun e' low high => only e' (by omega) (by omega)

/-- The buffer behind a read of sector `j` of the table. -/
def gptBuffer (dev : Disk) (header : GptTableHeader) (j : Nat) (entries : Memory) : Memory :=
  store entries 0 (slice dev.data (wrap64 (header.lbaArray + j) * dev.sectorSize)
    (1 * dev.sectorSize))

theorem diskDo_gptBuffer {j : Nat} :
    diskDo dev (wrap64 (header.lbaArray + j)) 1 0 entries =
      if dev.answers (wrap64 (header.lbaArray + j)) 1 = true then
        (true, gptBuffer dev header j entries)
      else (false, entries) := by
  unfold diskDo
  simp only [ne_eq, Nat.one_ne_zero, not_false_eq_true, true_and]
  rfl

theorem gptLoadLoopTraced_only
    (entryPerSector_eq : entryPerSector = divFloor dev.sectorSize header.entrySize) {j : Nat}
    (only : ∀ j, j < gptSectors dev header → dev.answers (wrap64 (header.lbaArray + j)) 1 = true →
      ∀ entries e, e < entryPerSector →
        (gptEntryTraced (gptBuffer dev header j entries) (e * header.entrySize)).Only P) :
    (gptLoadLoopTraced fuel dev disk header entryPerSector rounds (j * entryPerSector) entries
      m).Only P := by
  induction rounds generalizing j entries m with
  | zero => exact .pure
  | succ rounds ih =>
      rw [gptLoadLoopTraced]
      split
      swap
      · exact .pure
      next more =>
      split
      · exact .pure
      next some' =>
      rw [Nat.mul_div_cancel _ (Nat.pos_of_ne_zero some'), diskDo_gptBuffer]
      have inside : j < gptSectors dev header :=
        (lt_gptSectors (entryPerSector_eq ▸ some')).mpr (entryPerSector_eq ▸ more)
      by_cases answered : dev.answers (wrap64 (header.lbaArray + j)) 1 = true
      · rw [if_pos answered]
        dsimp only
        refine .bind (gptLoadSectorTraced_only fun e _ below =>
          only j inside answered entries e (by omega)) ?_
        split
        · exact .pure
        · rw [← Nat.succ_mul]
          exact ih
      · rw [if_neg answered]
        dsimp only
        rw [← Nat.succ_mul]
        exact ih

/-! ## Reads of a run that ends -/

/-- The GUID is read in any case, and of an entry in use the attributes. -/
theorem gptEntryTraced_reads (only : (gptEntryTraced entries part).Only P) :
    P ⟨part + 24, 8⟩ ∧ (Unused entries part ∨ P ⟨part + 48, 8⟩) := by
  simp only [gptEntryTraced, Traced.Only.bind_iff, readField_value] at only
  obtain ⟨-, -, -, guid, rest⟩ := only
  refine ⟨Traced.Only.request_iff.mp guid, ?_⟩
  by_cases unused : read entries part 8 = 0 ∧ read entries (part + 8) 8 = 0
  · exact Or.inl unused
  · rw [if_neg unused, Traced.Only.bind_iff] at rest
    exact Or.inr (Traced.Only.request_iff.mp rest.1)

theorem gptLoadSectorTraced_reads
    (only : (gptLoadSectorTraced fuel disk entries entrySize count e m).Only P)
    (run : gptLoadSector fuel disk entries entrySize count e m = some m') {e' : Nat}
    (low : e ≤ e') (high : e' < e + count) : (gptEntryTraced entries (e' * entrySize)).Only P := by
  induction count generalizing e m with
  | zero => omega
  | succ count ih =>
      rw [gptLoadSectorTraced, Traced.Only.bind_iff, gptLoadEntryTraced_value] at only
      rw [gptLoadSector] at run
      obtain ⟨m₁, entry, run⟩ := Option.bind_eq_some_iff.mp run
      rw [entry] at only
      by_cases here : e' = e
      · have first := only.1
        rw [gptLoadEntryTraced, Traced.Only.bind_iff] at first
        exact here ▸ first.1
      · exact ih only.2 run (by omega) (by omega)

theorem gptLoadLoopTraced_reads
    (entryPerSector_eq : entryPerSector = divFloor dev.sectorSize header.entrySize)
    (some' : entryPerSector ≠ 0) {j j' : Nat}
    (only : (gptLoadLoopTraced fuel dev disk header entryPerSector rounds (j * entryPerSector) entries
      m).Only P)
    (run : gptLoadLoop fuel dev disk header entryPerSector rounds (j * entryPerSector) entries m =
      some m')
    (low : j ≤ j') (high : j' < gptSectors dev header) (enough : gptSectors dev header - j ≤ rounds)
    (answered : dev.answers (wrap64 (header.lbaArray + j')) 1 = true) :
    ∃ entries, ∀ e, e < entryPerSector →
      (gptEntryTraced (gptBuffer dev header j' entries) (e * header.entrySize)).Only P := by
  induction rounds generalizing j entries m with
  | zero => omega
  | succ rounds ih =>
      have more : j * entryPerSector < header.entryCount := by
        have below := @lt_gptSectors dev header j (entryPerSector_eq ▸ some')
        rw [← entryPerSector_eq] at below
        exact below.mp (by omega)
      rw [gptLoadLoopTraced, if_pos more, if_neg some',
        Nat.mul_div_cancel _ (Nat.pos_of_ne_zero some'), diskDo_gptBuffer] at only
      rw [gptLoadLoop, if_pos more, if_neg some',
        Nat.mul_div_cancel _ (Nat.pos_of_ne_zero some'), diskDo_gptBuffer] at run
      by_cases read : dev.answers (wrap64 (header.lbaArray + j)) 1 = true
      · rw [if_pos read] at only run
        dsimp only at only run
        obtain ⟨m₁, sector, run⟩ := Option.bind_eq_some_iff.mp run
        rw [Traced.Only.bind_iff, gptLoadSectorTraced_value, sector] at only
        by_cases here : j' = j
        · subst here
          exact ⟨entries, fun e below =>
            gptLoadSectorTraced_reads only.1 sector (Nat.zero_le e) (by omega)⟩
        · rw [← Nat.succ_mul] at run
          have rest := only.2
          dsimp only at rest
          rw [← Nat.succ_mul] at rest
          exact ih rest run (by omega) (by omega)
      · rw [if_neg read] at only run
        dsimp only at only run
        rw [← Nat.succ_mul] at only run
        have off : j' ≠ j := by
          rintro rfl
          exact read answered
        exact ih only run (by omega) (by omega)

/-! ## The whole table -/

/-- `gpt_load` returns, and reads the fields of the entries inside the buffer for one sector. -/
def GptReadsInside (dev : Disk) (m : Disks) (disk : DiskPtr) : Prop :=
  (∃ r, Returns (fun fuel => gptLoad fuel dev m disk) r) ∧
    ∀ fuel, (gptLoadTraced fuel dev m disk).Only (FieldRead.Inside dev.sectorSize)

/-- The last slot of sector `j` of the table on the disk. -/
def gptLastSlotAt (dev : Disk) (header : GptTableHeader) (j : Nat) : Nat :=
  wrap64 (header.lbaArray + j) * dev.sectorSize + (dev.sectorSize - header.entrySize)

/-- The entries of the table have room for their fields up to the attributes, or up to the GUID
    while the last slot of every sector that is read has no type. -/
def GptEntriesFit (dev : Disk) (header : GptTableHeader) : Prop :=
  56 ≤ header.entrySize ∨ ∀ j, j < gptSectors dev header →
    dev.answers (wrap64 (header.lbaArray + j)) 1 = true →
    32 ≤ header.entrySize ∧ Unused dev.data (gptLastSlotAt dev header j)

theorem unused_gptBuffer {j : Nat} {entries : Memory} (divides : header.entrySize ∣ dev.sectorSize)
    (sized : 0 < dev.sectorSize) (long : 32 ≤ header.entrySize) :
    Unused (gptBuffer dev header j entries)
        ((divFloor dev.sectorSize header.entrySize - 1) * header.entrySize) ↔
      Unused dev.data (gptLastSlotAt dev header j) := by
  have last : (divFloor dev.sectorSize header.entrySize - 1) * header.entrySize =
      dev.sectorSize - header.entrySize := by
    rw [Nat.sub_mul, divFloor, Nat.div_mul_cancel divides, Nat.one_mul]
  have le := Nat.le_of_dvd sized divides
  rw [last]
  have field (off : Nat) (inside : off + 8 ≤ 32) :
      read (gptBuffer dev header j entries) (dev.sectorSize - header.entrySize + off) 8 =
        read dev.data (gptLastSlotAt dev header j + off) 8 := by
    refine read_shift fun k lt => ?_
    have there := @store_inside entries 0 (slice dev.data
      (wrap64 (header.lbaArray + j) * dev.sectorSize) (1 * dev.sectorSize))
      (dev.sectorSize - header.entrySize + off + k) (by rw [length_slice]; omega)
    rw [Nat.zero_add, getElem_slice] at there
    rw [gptBuffer, there, gptLastSlotAt]
    congr 1
    omega
  have first := field 0 (by decide)
  rw [Nat.add_zero, Nat.add_zero] at first
  rw [Unused, Unused, first, field 8 (by decide)]

/-- The runs of `gpt_load` over a table with the right signature. -/
theorem gptLoad_ends {l : List PartPtr} (sized : 0 < dev.sectorSize)
    (size_ne : (gptHeader dev).entrySize ≠ 0) (blocked : m.Blocked disk l)
    (header_read : (diskReadLba dev gptLba 92 0 fun _ => 0).1 = true)
    (signature : (gptHeader dev).signature = gptSignature) :
    ∃ r, Returns (fun fuel => gptLoad fuel dev m disk) r := by
  obtain ⟨bytes, read, header⟩ := diskReadLba_gptHeader sized header_read
  by_cases divides : (gptHeader dev).entrySize ∣ dev.sectorSize
  · have some' : divFloor dev.sectorSize (gptHeader dev).entrySize ≠ 0 :=
      (Nat.div_pos (Nat.le_of_dvd sized divides) (Nat.pos_of_ne_zero size_ne)).ne'
    obtain ⟨m', l', registered', run, -, -⟩ := @loadParts_loads m m disk l l []
      (gptFound dev (gptHeader dev) (divFloor dev.sectorSize (gptHeader dev).entrySize)
        (gptHeader dev).entryCount 0 dev.stack) blocked.loading
    refine ⟨(true, m'), (Returns.map ⟨_, run⟩ fun m => (true, m)).congr fun fuel => ?_⟩
    rw [gptLoad, read]
    dsimp only
    rw [header, if_neg (not_not.mpr signature), if_neg size_ne,
      if_neg (not_not.mpr (Nat.mod_eq_zero_of_dvd divides)), gptLoadLoop_eq some']
  · refine ⟨(false, m), .congr (fun fuel => ?_) (.const _)⟩
    rw [gptLoad, read]
    dsimp only
    rw [header, if_neg (not_not.mpr signature), if_neg size_ne,
      if_pos fun whole => divides (Nat.dvd_of_mod_eq_zero whole)]

theorem GptEntriesFit.inside (fits : GptEntriesFit dev (gptHeader dev)) (sized : 0 < dev.sectorSize)
    (divides : (gptHeader dev).entrySize ∣ dev.sectorSize) {j : Nat}
    (below : j < gptSectors dev (gptHeader dev))
    (answered : dev.answers (wrap64 ((gptHeader dev).lbaArray + j)) 1 = true)
    (lt : e < divFloor dev.sectorSize (gptHeader dev).entrySize) :
    (gptEntryTraced (gptBuffer dev (gptHeader dev) j entries) (e * (gptHeader dev).entrySize)).Only
      (FieldRead.Inside dev.sectorSize) := by
  have parts : divFloor dev.sectorSize (gptHeader dev).entrySize * (gptHeader dev).entrySize =
      dev.sectorSize := Nat.div_mul_cancel divides
  have room := Nat.mul_le_mul_right (gptHeader dev).entrySize (Nat.succ_le_of_lt lt)
  rw [parts, Nat.succ_mul] at room
  obtain long | short := fits
  · exact gptEntryTraced_inside (by omega) (Or.inl (by omega))
  obtain ⟨long, unused⟩ := short j below answered
  refine gptEntryTraced_inside (by omega) ?_
  by_cases last : e = divFloor dev.sectorSize (gptHeader dev).entrySize - 1
  · rw [last]
    exact Or.inr ((unused_gptBuffer divides sized long).mpr unused)
  · -- another slot follows, and two of them are long enough
    have room' := Nat.mul_le_mul_right (gptHeader dev).entrySize
      (show e + 2 ≤ divFloor dev.sectorSize (gptHeader dev).entrySize by omega)
    rw [parts, Nat.add_mul] at room'
    exact Or.inl (by omega)

/-- `gpt_load` returns without a division by zero and reads inside its buffer exactly if the size of
    the entries is not zero and, when it divides the sector size, the entries have room for what is
    read of them. -/
theorem gptLoad_readsInside_iff (dev : Disk) (m : Disks) (disk : DiskPtr) (l : List PartPtr)
    (sized : 512 ≤ dev.sectorSize) (blocked : m.Blocked disk l)
    (header_read : (diskReadLba dev gptLba 92 0 fun _ => 0).1 = true)
    (signature : (gptHeader dev).signature = gptSignature) :
    GptReadsInside dev m disk ↔ (gptHeader dev).entrySize ≠ 0 ∧
      ((gptHeader dev).entrySize ∣ dev.sectorSize → GptEntriesFit dev (gptHeader dev)) := by
  have sized' : 0 < dev.sectorSize := by omega
  obtain ⟨bytes, read, header⟩ := diskReadLba_gptHeader sized' header_read
  constructor
  · rintro ⟨⟨r, enough, run⟩, only⟩
    have run : gptLoad enough dev m disk = some r := run enough (Nat.le_refl enough)
    have only := only enough
    rw [gptLoad, read] at run
    rw [gptLoadTraced, read] at only
    dsimp only at run only
    rw [header, if_neg (not_not.mpr signature)] at run only
    by_cases size_ne : (gptHeader dev).entrySize = 0
    · rw [if_pos size_ne] at run
      cases run
    refine ⟨size_ne, fun divides => ?_⟩
    have some' : divFloor dev.sectorSize (gptHeader dev).entrySize ≠ 0 :=
      (Nat.div_pos (Nat.le_of_dvd sized' divides) (Nat.pos_of_ne_zero size_ne)).ne'
    have parts : divFloor dev.sectorSize (gptHeader dev).entrySize * (gptHeader dev).entrySize =
        dev.sectorSize := Nat.div_mul_cancel divides
    rw [if_neg size_ne, if_neg (not_not.mpr (Nat.mod_eq_zero_of_dvd divides))] at run only
    obtain ⟨m', loop, -⟩ := Option.map_eq_some_iff.mp run
    have only := (Traced.Only.bind_iff.mp only).1
    rw [← Nat.zero_mul (divFloor dev.sectorSize (gptHeader dev).entrySize)] at loop only
    have rounds : gptSectors dev (gptHeader dev) - 0 ≤ (gptHeader dev).entryCount :=
      gptSectors_le some'
    by_cases long : 56 ≤ (gptHeader dev).entrySize
    · exact Or.inl long
    refine Or.inr fun j below answered => ?_
    obtain ⟨entries, reads⟩ :=
      gptLoadLoopTraced_reads rfl some' only loop (Nat.zero_le j) below rounds answered
    obtain ⟨guid, attr⟩ := gptEntryTraced_reads (reads
      (divFloor dev.sectorSize (gptHeader dev).entrySize - 1) (by omega))
    have le := Nat.le_of_dvd sized' divides
    have last : (divFloor dev.sectorSize (gptHeader dev).entrySize - 1) * (gptHeader dev).entrySize =
        dev.sectorSize - (gptHeader dev).entrySize := by
      rw [Nat.sub_mul, parts, Nat.one_mul]
    have guid' : 32 ≤ (gptHeader dev).entrySize := by
      unfold FieldRead.Inside at guid
      dsimp only at guid
      omega
    refine ⟨guid', ?_⟩
    obtain unused | attr := attr
    · exact (unused_gptBuffer divides sized' guid').mp unused
    · unfold FieldRead.Inside at attr
      dsimp only at attr
      omega
  · rintro ⟨size_ne, fits⟩
    refine ⟨gptLoad_ends sized' size_ne blocked header_read signature, fun fuel => ?_⟩
    rw [gptLoadTraced, read]
    dsimp only
    rw [header, if_neg (not_not.mpr signature), if_neg size_ne]
    by_cases divides : (gptHeader dev).entrySize ∣ dev.sectorSize
    · rw [if_neg (not_not.mpr (Nat.mod_eq_zero_of_dvd divides))]
      refine .bind ?_ .pure
      rw [← Nat.zero_mul (divFloor dev.sectorSize (gptHeader dev).entrySize)]
      exact gptLoadLoopTraced_only rfl fun j below answered entries e lt =>
        (fits divides).inside sized' divides below answered lt
    · rw [if_pos fun whole => divides (Nat.dvd_of_mod_eq_zero whole)]
      exact .pure

end

theorem gptLoad_readsInside_iff_gptDisk : GptReadsInside (gptDisk 4) noParts 1 := by
  have header := @gptHeader_gptDisk 4 (by decide)
  have table := @gptTable_gptDisk 4 (by decide)
  refine (gptLoad_readsInside_iff (gptDisk 4) noParts 1 [] (by decide) blocked_noParts
    table.header_read table.signature).mpr ⟨?_, fun _ => Or.inl table.long⟩
  rw [header]
  decide

/-- A disk with a header that has nothing but the signature. -/
def bareDisk : Disk where
  sectorSize := 512
  data := store (fun _ => 0) 512 (encode 8 gptSignature)
  answers _ _ := true
  stack _ := 0

/-- Entries of no size make `gpt_load` divide by zero. -/
theorem not_gptReadsInside : ¬∀ (dev : Disk) (m : Disks) (disk : DiskPtr) (l : List PartPtr),
    512 ≤ dev.sectorSize → m.Blocked disk l →
    (diskReadLba dev gptLba 92 0 fun _ => 0).1 = true →
    (gptHeader dev).signature = gptSignature → GptReadsInside dev m disk := by
  intro always
  have header_read : (diskReadLba bareDisk gptLba 92 0 fun _ => 0).1 = true :=
    diskReadLba_readable (by decide) (by decide) (by decide) fun _ _ _ _ _ => rfl
  have signature : (gptHeader bareDisk).signature = gptSignature := by decide
  have size_eq : (gptHeader bareDisk).entrySize = 0 := by decide
  obtain ⟨⟨r, returns⟩, -⟩ := always bareDisk noParts 1 [] (by decide) blocked_noParts header_read
    signature
  obtain ⟨bytes, read, header⟩ := @diskReadLba_gptHeader bareDisk (by decide) header_read
  have faults : Returns (fun _ : Nat => (none : Option (Bool × Disks))) r := by
    refine returns.congr fun fuel => ?_
    rw [gptLoad, read]
    dsimp only
    rw [header, if_neg (not_not.mpr signature), if_pos size_eq]
  cases Returns.none_iff.mp faults

end Sdx.Core
