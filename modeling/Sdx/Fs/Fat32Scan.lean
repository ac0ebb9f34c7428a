import Sdx.Fs.Fat32Name

/-! # Scanning a directory

A directory is a list of slots that are deleted or hold a file. `fat32_entry_get` counts the
files, and `fat32_entry_from` decodes one name after the other into a buffer that has room for
the name it looks for. When that buffer is too small for a long name it goes on with what is
left of the name's entries, and is back in step at the short entry.
-/

namespace Sdx.Fs

open Sdx.Lib.Bytes Sdx.Util

/-- The entries of a file: a short one, behind those of a long name if it has one. -/
structure FileEntry where
  long : Option LongName
  short : ShortEntry

namespace FileEntry

def entries (file : FileEntry) : List DirEntry :=
  match file.long with
  | none => [file.short.entry]
  | some long => long.entries ++ [file.short.entry]

/-- The long name, or else the short one. -/
def name (file : FileEntry) : List UInt8 :=
  match file.long with
  | none => file.short.shortName
  | some long => long.chars

/-- The name comes out of the entries as it was written: no character of a long name reads as
    padding, or nothing is read of it and the short name is the same. -/
def Readable (file : FileEntry) : Prop :=
  ∀ long ∈ file.long, Plain long.chars ∨ long.Hidden ∧ file.short.shortName = long.chars

/-- One of the names of the file. -/
def HasName (file : FileEntry) (name : List UInt8) : Prop :=
  name = file.short.shortName ∨ ∃ long ∈ file.long, name = long.chars

/-- The lookup of a name takes the file: it is the name of the file, or the short name behind a
    long one that overflows the name buffer at its first entry. -/
def Answers (file : FileEntry) (name : List UInt8) : Prop :=
  file.name = name ∨ file.short.shortName = name ∧ name.length + 1 < file.name.length

end FileEntry

inductive Slot where
  | deleted (entry : DirEntry) (unused : entry.isUnused = true)
  | used (file : FileEntry)

def Slot.entries : Slot → List DirEntry
  | .deleted entry _ => [entry]
  | .used file => file.entries

def Slot.file? : Slot → Option FileEntry
  | .deleted _ _ => none
  | .used file => some file

/-- The entries of a directory, without the one that ends it. -/
def slotEntries (slots : List Slot) : List DirEntry := slots.flatMap Slot.entries

/-- The files of a directory in their order. -/
def filesOf (slots : List Slot) : List FileEntry := slots.filterMap Slot.file?

/-! ## Counting -/

section

variable {k : Nat} {chars : List UInt8} {entries rest tail : List DirEntry} {file : FileEntry}
  {slots : List Slot}

theorem not_last_of_unused {entry : DirEntry} (unused : entry.isUnused = true) :
    entry.isLast = false := by
  rw [DirEntry.isUnused, beq_iff_eq] at unused
  rw [DirEntry.isLast, unused]
  rfl

theorem LfnRun.lfns {i : Nat} (run : LfnRun chars i entries) (small : i ≤ 20) :
    ∀ lfn ∈ entries, lfn.isLast = false ∧ lfn.isUnused = false ∧ lfn.attr = fat32AttrLfn := by
  induction run with
  | nil => exact fun lfn mem => absurd mem List.not_mem_nil
  | cons order is run ih =>
      obtain ⟨notLast, used, -⟩ := lfn_order (by omega) order
      intro lfn mem
      rcases List.mem_cons.mp mem with rfl | mem
      · exact ⟨notLast, used, is.attr⟩
      · exact ih (by omega) lfn mem

theorem LfnSet.lfns (set : LfnSet chars entries) (length_lt : chars.length < nameMax) :
    ∀ lfn ∈ entries, lfn.isLast = false ∧ lfn.isUnused = false ∧ lfn.attr = fat32AttrLfn := by
  cases set with
  | @mk i _ _ order is run low high =>
      have small : i < 20 := by
        unfold nameMax at length_lt
        omega
      obtain ⟨notLast, used, -⟩ := lfn_order_first small order
      intro lfn mem
      rcases List.mem_cons.mp mem with rfl | mem
      · exact ⟨notLast, used, is.attr⟩
      · exact run.lfns (by omega) lfn mem

theorem LongName.lfns (long : LongName) :
    ∀ lfn ∈ long.entries,
      lfn.isLast = false ∧ lfn.isUnused = false ∧ lfn.attr = fat32AttrLfn :=
  long.set.lfns long.length_lt

theorem getScan_lfns (lfns : ∀ lfn ∈ entries,
      lfn.isLast = false ∧ lfn.isUnused = false ∧ lfn.attr = fat32AttrLfn) :
    getScan (k + 1) (entries ++ rest) = getScan (k + 1) rest := by
  induction entries with
  | nil => rfl
  | cons lfn entries ih =>
      obtain ⟨notLast, used, attr⟩ := lfns lfn List.mem_cons_self
      rw [List.cons_append, getScan, notLast, used, if_neg (by decide), if_neg (by decide),
        if_pos ⟨Nat.succ_ne_zero k, attr⟩]
      exact ih fun lfn mem => lfns lfn (List.mem_cons_of_mem _ mem)

theorem getScan_short (short : ShortEntry) :
    getScan (k + 1) (short.entry :: rest) = getScan k rest := by
  rw [getScan, short.notLast, short.used, if_neg (by decide), if_neg (by decide),
    if_neg (fun lfn => short.short lfn.2), if_neg (Nat.succ_ne_zero k), Nat.add_sub_cancel]

/-- The scan stops at an entry in use once the offset is used up. -/
theorem getScan_found {entry : DirEntry} (notLast : entry.isLast = false)
    (used : entry.isUnused = false) :
    getScan 0 (entry :: rest) = .found (entry :: rest) := by
  rw [getScan, notLast, used, if_neg (by decide), if_neg (by decide),
    if_neg (fun lfn => lfn.1 rfl), if_pos rfl]

theorem FileEntry.entries_cons (file : FileEntry) :
    ∃ entry others, file.entries = entry :: others ∧ entry.isLast = false ∧
      entry.isUnused = false := by
  cases long : file.long with
  | none =>
      exact ⟨file.short.entry, [], by rw [FileEntry.entries, long], file.short.notLast,
        file.short.used⟩
  | some long' =>
      cases first : long'.entries with
      | nil =>
          have set := long'.set
          rw [first] at set
          cases set
      | cons lfn others =>
          obtain ⟨notLast, used, -⟩ := long'.lfns lfn (by rw [first]; exact List.mem_cons_self)
          refine ⟨lfn, others ++ [file.short.entry], ?_, notLast, used⟩
          rw [FileEntry.entries, long]
          simp only [first, List.cons_append]

theorem getScan_file_zero (file : FileEntry) :
    getScan 0 (file.entries ++ rest) = .found (file.entries ++ rest) := by
  obtain ⟨entry, others, shape, notLast, used⟩ := file.entries_cons
  rw [shape, List.cons_append]
  exact getScan_found notLast used

theorem getScan_file_succ (file : FileEntry) :
    getScan (k + 1) (file.entries ++ rest) = getScan k rest := by
  cases long : file.long with
  | none =>
      rw [FileEntry.entries, long]
      exact getScan_short file.short
  | some long' =>
      rw [FileEntry.entries, long]
      simp only [List.append_assoc, List.singleton_append]
      rw [getScan_lfns long'.lfns, getScan_short]

/-- The scan stops at the `k`-th file. -/
theorem getScan_at (at' : (filesOf slots)[k]? = some file) :
    ∃ rest, getScan k (slotEntries slots ++ tail) = .found (file.entries ++ rest) := by
  induction slots generalizing k with
  | nil => cases at'
  | cons slot slots ih =>
      rw [slotEntries, List.flatMap_cons, List.append_assoc]
      cases slot with
      | deleted entry unused =>
          obtain ⟨rest, found⟩ := ih at'
          refine ⟨rest, ?_⟩
          rw [Slot.entries, List.singleton_append, getScan, not_last_of_unused unused, unused]
          exact found
      | used first =>
          rw [Slot.entries]
          cases k with
          | zero =>
              cases at'
              exact ⟨_, getScan_file_zero file⟩
          | succ k =>
              obtain ⟨rest, found⟩ := ih at'
              refine ⟨rest, ?_⟩
              rw [getScan_file_succ]
              exact found

/-- An offset past the files gets to the end of the directory. -/
theorem getScan_past (past : (filesOf slots).length ≤ k) :
    getScan k (slotEntries slots ++ tail) = getScan (k - (filesOf slots).length) tail := by
  induction slots generalizing k with
  | nil => rfl
  | cons slot slots ih =>
      rw [slotEntries, List.flatMap_cons, List.append_assoc]
      cases slot with
      | deleted entry unused =>
          rw [Slot.entries, List.singleton_append, getScan, not_last_of_unused unused, unused]
          exact ih past
      | used first =>
          have count : (filesOf (.used first :: slots)).length = (filesOf slots).length + 1 := rfl
          rw [count] at past ⊢
          obtain ⟨k, rfl⟩ := Nat.exists_eq_add_of_le' (Nat.le_trans (Nat.le_add_left 1 _) past)
          rw [Slot.entries, getScan_file_succ, Nat.add_sub_add_right]
          exact ih (Nat.le_of_succ_le_succ past)

end

/-! ## Names of files -/

section

variable {size : Int} {buffer passes a : Nat} {mem : Memory} {chars s : List UInt8}
  {cur : DirEntry} {list rest tail : List DirEntry} {file : FileEntry} {short : ShortEntry}
  {slots : List Slot} {result : EntryName}

namespace FileEntry

theorem name_length_lt (file : FileEntry) : file.name.length < nameMax := by
  unfold FileEntry.name
  cases file.long with
  | none =>
      have short := file.short.length_shortName_le
      simp only
      unfold nameMax
      omega
  | some long => exact long.length_lt

theorem name_ne_zero (file : FileEntry) : ∀ c ∈ file.name, c ≠ 0 := by
  unfold FileEntry.name
  cases file.long with
  | none => exact file.short.shortName_ne_zero
  | some long => exact long.nonzero

theorem hasName_name (file : FileEntry) : file.HasName file.name := by
  unfold FileEntry.HasName FileEntry.name
  cases file.long with
  | none => exact Or.inl rfl
  | some long => exact Or.inr ⟨long, rfl, rfl⟩

/-- The name of a file is what is decoded of its entries. -/
theorem entryName_readable (readable : file.Readable) (room : (file.name.length + 1 : Int) ≤ size) :
    fat32EntryName size buffer mem (file.entries ++ rest) =
      some ⟨(file.name.length + 1 : Nat), store mem buffer (file.name ++ [0]),
        file.short.entry :: rest⟩ := by
  obtain ⟨long, short⟩ := file
  cases long with
  | none =>
      change fat32EntryName size buffer mem (short.entry :: rest) = _
      rw [short.entryName_eq, short.decoded_fits room]
      rfl
  | some long =>
      change fat32EntryName size buffer mem ((long.entries ++ [short.entry]) ++ rest) = _
      rw [List.append_assoc, List.singleton_append]
      rcases readable long rfl with plain | ⟨hidden, same⟩
      · exact LongName.entryName_plain plain short room
      · have short_room : (short.shortName.length + 1 : Int) ≤ size := by
          rw [same]
          exact room
        rw [LongName.entryName_hidden hidden short, short.decoded_fits short_room, same]
        rfl

/-- A file whose name comes out of its entries is readable. -/
theorem readable_of_entryName {mem' : Memory} {rest' : List DirEntry}
    (room : (file.name.length + 1 : Int) ≤ size)
    (read : fat32EntryName size buffer mem (file.entries ++ rest) =
      some ⟨(file.name.length + 1 : Nat), mem', rest'⟩)
    (holds : Lib.Bytes.Holds mem' buffer (file.name ++ [0])) : file.Readable := by
  obtain ⟨long, short⟩ := file
  cases long with
  | none =>
      intro long mem
      cases mem
  | some long =>
      intro long' mem
      cases mem
      change fat32EntryName size buffer _ ((long.entries ++ [short.entry]) ++ rest) = _ at read
      rw [List.append_assoc, List.singleton_append] at read
      exact LongName.plain_or_hidden short room read holds

end FileEntry

/-! ## Looking up -/

/-- A name that does not fit takes the scan to the entry after the one where decoding stopped. -/
theorem fromScan_failed (notLast : cur.isLast = false) (used : cur.isUnused = false)
    (decode : fat32EntryName size 0 mem (cur :: rest) = some result) (failed : result.value < 0) :
    fromScan size s (passes + 1) mem (cur :: rest) =
      fromScan size s passes result.mem result.entry.tail := by
  rw [fromScan, notLast, used, decode]
  simp only [Bool.false_eq_true, if_false]
  rw [if_pos failed]

/-- A name that fits is compared. -/
theorem fromScan_named {mem' : Memory} {rest' : List DirEntry} (notLast : cur.isLast = false)
    (used : cur.isUnused = false) (nonzero : ∀ c ∈ chars, c ≠ 0) (nonzero' : ∀ c ∈ s, c ≠ 0)
    (decode : fat32EntryName size 0 mem (cur :: rest) =
      some ⟨(chars.length + 1 : Nat), store mem' 0 (chars ++ [0]), short.entry :: rest'⟩) :
    fromScan size s (passes + 1) mem (cur :: rest) =
      if chars = s then .found short.entry
      else fromScan size s passes (store mem' 0 (chars ++ [0])) rest' := by
  have same := @strcmp_eq_zero (store mem' 0 (chars ++ [0])) 0 chars s holds_store nonzero nonzero'
  rw [fromScan, notLast, used, decode]
  simp only [Bool.false_eq_true, if_false]
  rw [if_neg (by omega)]
  by_cases eq : chars = s
  · rw [if_pos eq, if_pos (same.mpr eq)]
  · rw [if_neg eq, if_neg (fun zero => eq (same.mp zero))]

theorem FileEntry.Answers.hasName (answers : file.Answers s) : file.HasName s := by
  obtain rfl | ⟨rfl, -⟩ := answers
  · exact file.hasName_name
  · exact Or.inl rfl

/-- Entries that decode to a short name end the scan or are passed over. -/
theorem fromScan_short (notLast : cur.isLast = false) (used : cur.isUnused = false)
    (nonzero' : ∀ c ∈ s, c ≠ 0)
    (decode : fat32EntryName (s.length + 1 : Nat) 0 mem (cur :: list) =
      some (short.decoded (s.length + 1 : Nat) 0 mem rest)) :
    (fromScan (s.length + 1 : Nat) s (passes + 1) mem (cur :: list) = .found short.entry ∧
        s = short.shortName) ∨
      short.shortName ≠ s ∧ ∃ mem', fromScan (s.length + 1 : Nat) s (passes + 1) mem (cur :: list) =
        fromScan (s.length + 1 : Nat) s passes mem' rest := by
  by_cases fits : short.shortName.length ≤ s.length
  · rw [short.decoded_fits (by omega)] at decode
    rw [fromScan_named notLast used short.shortName_ne_zero nonzero' decode]
    by_cases same : short.shortName = s
    · rw [if_pos same]
      exact Or.inl ⟨rfl, same.symm⟩
    · rw [if_neg same]
      exact Or.inr ⟨same, _, rfl⟩
  · have failed := @ShortEntry.decoded_over (s.length + 1 : Nat) 0 mem rest short (by omega)
    right
    constructor
    · rintro rfl
      exact fits (Nat.le_refl _)
    · exact ⟨_, fromScan_failed notLast used decode failed⟩

/-- What is left of a set after its first entry leaves the short name. -/
theorem entryName_stray {i : Nat} (run : LfnRun chars i list) (small : i ≤ 20) (short : ShortEntry) :
    ∃ cur list', list ++ short.entry :: rest = cur :: list' ∧ cur.isLast = false ∧
      cur.isUnused = false ∧ fat32EntryName size buffer mem (cur :: list') =
        some (short.decoded size buffer mem rest) := by
  cases run with
  | nil => exact ⟨short.entry, rest, rfl, short.notLast, short.used, short.entryName_eq⟩
  | @cons i lfn others order is run =>
      obtain ⟨notLast, used, notFirst⟩ := lfn_order (by omega) order
      refine ⟨lfn, others ++ short.entry :: rest, rfl, notLast, used, ?_⟩
      rw [fat32EntryName, parseEntry_stray is.attr notFirst]
      change nextEntryName size buffer 0 0 mem (others ++ short.entry :: rest) = _
      have run' : LfnRun chars i (others ++ []) := by rwa [List.append_nil]
      rw [nextEntryName_stray run' (by omega), short.nextEntryName_zero]

/-- Where a lookup gets from a file: it stops at the file under one of its names, or goes on
    behind a file of another name. -/
def LookedUp (file : FileEntry) (s : List UInt8) (passes : Nat) (rest : List DirEntry)
    (scan : FromScan) : Prop :=
  (scan = .found file.short.entry ∧ file.HasName s) ∨
    file.name ≠ s ∧ ∃ passes' mem', passes ≤ passes' + file.entries.length ∧
      scan = fromScan (s.length + 1 : Nat) s passes' mem' rest

/-- Where a lookup gets from a file, exactly. -/
def Taken (file : FileEntry) (s : List UInt8) (passes : Nat) (rest : List DirEntry)
    (scan : FromScan) : Prop :=
  (scan = .found file.short.entry ∧ file.Answers s) ∨
    ¬ file.Answers s ∧ ∃ passes' mem', passes ≤ passes' + file.entries.length ∧
      scan = fromScan (s.length + 1 : Nat) s passes' mem' rest

theorem Taken.lookedUp {scan : FromScan} (taken : Taken file s passes rest scan) :
    LookedUp file s passes rest scan := by
  obtain ⟨found, answers⟩ | ⟨other, next⟩ := taken
  · exact Or.inl ⟨found, answers.hasName⟩
  · exact Or.inr ⟨fun same => other (Or.inl same), next⟩

/-- The buffer is too small for the long name: what is left of the set comes next. -/
theorem fromScan_over (long : LongName) (plain : Plain long.chars) (nonzero' : ∀ c ∈ s, c ≠ 0)
    (beyond : s.length < long.chars.length) (enough : long.entries.length + 1 ≤ passes) :
    Taken ⟨some long, short⟩ s passes rest
      (fromScan (s.length + 1 : Nat) s passes mem (long.entries ++ short.entry :: rest)) := by
  obtain ⟨result, decode, failed, stopped⟩ := @LongName.entryName_over (s.length + 1 : Nat) 0 mem
    long rest plain short (by omega)
  have other : FileEntry.name ⟨some long, short⟩ ≠ s := by
    rintro rfl
    exact Nat.lt_irrefl _ beyond
  obtain ⟨chars, entries, length_lt, nonzero, set⟩ := long
  cases set with
  | @mk i lfn others order is run low high =>
      have twenty : i < 20 := by
        unfold nameMax at length_lt
        omega
      obtain ⟨notLast, used, -⟩ := lfn_order_first twenty order
      simp only [List.length_cons] at enough
      obtain ⟨passes, rfl⟩ := Nat.exists_eq_add_of_le' (Nat.le_trans (Nat.le_add_left 2 _) enough)
      have length : FileEntry.entries ⟨some ⟨chars, lfn :: others, length_lt, nonzero,
          .mk order is run low high⟩, short⟩ = lfn :: others ++ [short.entry] := rfl
      rw [Taken, length]
      rw [List.cons_append] at decode ⊢
      rw [fromScan_failed notLast used decode failed]
      rcases stopped with ⟨first, long⟩ | ⟨last, fits⟩
      · obtain ⟨cur, list, shape, notLast', used', decode'⟩ := @entryName_stray
          (s.length + 1 : Nat) 0 result.mem chars others rest i run (Nat.le_of_lt twenty) short
        rw [first, List.cons_append, List.tail_cons, shape]
        rcases @fromScan_short passes result.mem s cur list rest short notLast' used' nonzero'
          decode' with ⟨found, name⟩ | ⟨differs, mem', next⟩
        · exact Or.inl ⟨found, Or.inr ⟨name.symm, Int.ofNat_lt.mp long⟩⟩
        · refine Or.inr ⟨?_, passes, mem', ?_, next⟩
          · rintro (same | ⟨same, -⟩)
            · exact other same
            · exact differs same
          · simp only [List.cons_append, List.length_cons, List.length_append]
            omega
      · rw [last, List.tail_cons]
        refine Or.inr ⟨?_, passes + 1, result.mem, ?_, rfl⟩
        · rintro (same | ⟨-, long⟩)
          · exact other same
          · exact absurd (Int.ofNat_le.mp fits) (Nat.not_le.mpr long)
        · simp only [List.cons_append, List.length_cons, List.length_append]
          omega

/-- The lookup takes a readable file as a whole. -/
theorem fromScan_file (readable : file.Readable) (nonzero' : ∀ c ∈ s, c ≠ 0)
    (enough : file.entries.length ≤ passes) :
    Taken file s passes rest
      (fromScan (s.length + 1 : Nat) s passes mem (file.entries ++ rest)) := by
  obtain ⟨cur, others, shape, notLast, used⟩ := file.entries_cons
  have more : 1 ≤ passes := by
    rw [shape] at enough
    exact Nat.le_trans (Nat.le_add_left 1 _) enough
  by_cases fits : file.name.length ≤ s.length
  · have decode := @FileEntry.entryName_readable (s.length + 1 : Nat) 0 mem rest file readable
      (by omega)
    obtain ⟨passes, rfl⟩ := Nat.exists_eq_add_of_le' more
    rw [Taken]
    rw [shape, List.cons_append] at decode ⊢
    rw [fromScan_named notLast used file.name_ne_zero nonzero' decode]
    by_cases same : file.name = s
    · rw [if_pos same]
      exact Or.inl ⟨rfl, Or.inl same⟩
    · rw [if_neg same]
      refine Or.inr ⟨?_, passes, _, ?_, rfl⟩
      · rintro (same' | ⟨-, long⟩)
        · exact same same'
        · omega
      · simp only [List.length_cons]
        omega
  · obtain ⟨long, short⟩ := file
    have short_case (name : FileEntry.name ⟨long, short⟩ = short.shortName)
        (decode : fat32EntryName (s.length + 1 : Nat) 0 mem (cur :: (others ++ rest)) =
          some (short.decoded (s.length + 1 : Nat) 0 mem rest)) :
        Taken ⟨long, short⟩ s passes rest
          (fromScan (s.length + 1 : Nat) s passes mem (cur :: (others ++ rest))) := by
      obtain ⟨passes, rfl⟩ := Nat.exists_eq_add_of_le' more
      rcases @fromScan_short passes mem s cur _ rest short notLast used nonzero' decode with
        ⟨found, same⟩ | ⟨other, mem', next⟩
      · exact Or.inl ⟨found, Or.inl (name.trans same.symm)⟩
      · refine Or.inr ⟨?_, passes, mem', ?_, next⟩
        · rintro (same | ⟨same, -⟩)
          · exact other (name.symm.trans same)
          · exact other same
        · rw [shape, List.length_cons]
          omega
    rw [shape, List.cons_append]
    cases long with
    | none =>
        cases shape
        exact short_case rfl short.entryName_eq
    | some long =>
        have whole : long.entries ++ short.entry :: rest = cur :: (others ++ rest) := by
          rw [← List.cons_append, ← shape, FileEntry.entries, List.append_assoc]
          rfl
        rcases readable long rfl with plain | ⟨hidden, same⟩
        · rw [← whole]
          apply fromScan_over long plain nonzero' (Nat.lt_of_not_le fits)
          simpa [FileEntry.entries] using enough
        · apply short_case same.symm
          rw [← whole]
          exact LongName.entryName_hidden hidden short

/-- The lookup takes the first file that answers to the name, or goes on behind the slots. -/
theorem fromScan_slots (readable : ∀ file ∈ filesOf slots, file.Readable)
    (nonzero' : ∀ c ∈ s, c ≠ 0) (enough : (slotEntries slots).length ≤ passes) :
    (∃ file ∈ filesOf slots, file.Answers s ∧
      fromScan (s.length + 1 : Nat) s passes mem (slotEntries slots ++ tail) =
        .found file.short.entry) ∨
    (∀ file ∈ filesOf slots, ¬ file.Answers s) ∧ ∃ passes' mem',
      passes ≤ passes' + (slotEntries slots).length ∧
      fromScan (s.length + 1 : Nat) s passes mem (slotEntries slots ++ tail) =
        fromScan (s.length + 1 : Nat) s passes' mem' tail := by
  induction slots generalizing passes mem with
  | nil =>
      exact Or.inr ⟨fun file none' => absurd none' List.not_mem_nil, passes, mem,
        Nat.le_add_right .., rfl⟩
  | cons slot slots ih =>
      rw [slotEntries, List.flatMap_cons] at enough ⊢
      rw [List.append_assoc]
      rw [List.length_append] at enough
      cases slot with
      | deleted entry unused =>
          rw [Slot.entries, List.length_singleton] at enough
          obtain ⟨passes, rfl⟩ := Nat.exists_eq_add_of_le' (Nat.le_trans (Nat.le_add_right 1 _) enough)
          rw [Slot.entries, List.singleton_append, fromScan, not_last_of_unused unused, unused]
          obtain found | ⟨others, passes', mem', left', next⟩ := @ih passes mem readable
            (Nat.le_of_succ_le_succ (by rwa [Nat.add_comm] at enough))
          · exact Or.inl found
          · refine Or.inr ⟨others, passes', mem', ?_, next⟩
            rw [slotEntries] at left'
            rw [List.length_append, List.length_singleton]
            omega
      | used first =>
          have here : first ∈ filesOf (.used first :: slots) := List.mem_cons_self
          rw [Slot.entries] at enough ⊢
          rcases @fromScan_file passes mem s (slots.flatMap Slot.entries ++ tail) first
            (readable first here) nonzero' (by omega) with
            ⟨found, answers⟩ | ⟨other, passes', mem', left', next⟩
          · exact Or.inl ⟨first, here, answers, found⟩
          · rw [next]
            obtain ⟨file, listed, answers, found⟩ | ⟨others, passes₂, mem₂, left₂, next₂⟩ :=
              @ih passes' mem' (fun file mem => readable file (List.mem_cons_of_mem _ mem))
                (by change (slots.flatMap Slot.entries).length ≤ passes'; omega)
            · exact Or.inl ⟨file, List.mem_cons_of_mem _ listed, answers, found⟩
            · refine Or.inr ⟨?_, passes₂, mem₂, ?_, next₂⟩
              · intro file listed
                obtain rfl | later := List.mem_cons.mp listed
                · exact other
                · exact others file later
              · rw [slotEntries] at left₂
                rw [List.length_append]
                omega

/-- A name of the directory is found. -/
theorem fromScan_found (readable : ∀ file ∈ filesOf slots, file.Readable)
    (nonzero' : ∀ c ∈ s, c ≠ 0) (named : ∃ file ∈ filesOf slots, file.name = s)
    (enough : (slotEntries slots).length ≤ passes) :
    ∃ file ∈ filesOf slots, file.HasName s ∧
      fromScan (s.length + 1 : Nat) s passes mem (slotEntries slots ++ tail) =
        .found file.short.entry := by
  obtain ⟨file, listed, answers, found⟩ | ⟨others, -⟩ :=
    @fromScan_slots passes mem s tail slots readable nonzero' enough
  · exact ⟨file, listed, answers.hasName, found⟩
  · obtain ⟨file, listed, same⟩ := named
    exact absurd (Or.inl same) (others file listed)

end

end Sdx.Fs
