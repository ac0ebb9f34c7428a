import Sdx.Fs.ElfCheck
import Sdx.Fs.ElfContents

/-! # One bias for the whole image

The code in an image addresses its data relative to `rip`, so all segments have to move by the
same distance. `__elf_load_dyn` never looks at `vaddr` when it places a segment: it puts the first
one to a page boundary and each other one to the next page behind the last. So there is a bias
just when the file has its segments laid out in this way, from address 0 on.
-/

namespace Sdx.Fs

open Sdx.Lib Sdx.Mm

/-! ## The segments in a file -/

/-- A program header in a file. -/
def filePh (file : FsFile) (i : Nat) : ElfProgramHeader :=
  elfProgramHeader (Bytes.store (fun _ => 0) 0
    ((file.bytes.drop ((fileHeader file).phoff + elfProgramHeaderSize * i)).take
      elfProgramHeaderSize))

/-- The LOAD segments of a file that are not empty. -/
def fileSegments (file : FsFile) : List ElfProgramHeader :=
  ((List.range (fileHeader file).phnum).map (filePh file)).filter
    fun ph => ph.type = elfPhTypeLoad ∧ ph.memsz ≠ 0

/-- The last page of a segment lies in front of the first page of the other one. -/
def PagesBefore (ph ph' : ElfProgramHeader) : Prop :=
  (ph.vaddr + ph.memsz - 1) / pageSize < ph'.vaddr / pageSize

instance (ph ph' : ElfProgramHeader) : Decidable (PagesBefore ph ph') :=
  inferInstanceAs (Decidable (_ < _))

/-- A well-formed DYN file: its segments have their bytes in the file, their page ranges are
    disjoint and ascend, and one of them contains the entry point. -/
structure WellFormed (file : FsFile) : Prop where
  real : RealElf file
  whole : ∀ ph ∈ fileSegments file, WholeSegment file ph
  ordered : (fileSegments file).Pairwise PagesBefore
  entry : ∃ ph ∈ fileSegments file, ph.vaddr ≤ (fileHeader file).entry ∧
    (fileHeader file).entry < ph.vaddr + ph.memsz

/-- The segments are laid out without gaps from address 0 on, and the entry point lies behind the
    first byte of the first one. -/
structure Compact (file : FsFile) : Prop where
  vaddr : ∀ p ∈ elfLayout 0 (fileSegments file), p.2.vaddr = p.1 * pageSize
  entry : ∃ ph, (fileSegments file).head? = some ph ∧ 0 < (fileHeader file).entry ∧
    (fileHeader file).entry < ph.memsz

/-- Reading the headers and the segments of the file does not fail. -/
structure ReadsWell (file : FsFile) : Prop where
  header : file.error 0 elfHeaderSize = none
  headers : ∀ i, i < (fileHeader file).phnum →
    file.error ((fileHeader file).phoff + elfProgramHeaderSize * i) elfProgramHeaderSize = none
  segments : ∀ ph ∈ fileSegments file, Readable file ph

/-- Mapping did not fail. -/
def ElfExit.Mapped : ElfExit → Prop
  | .noRegion | .notMapped _ | .endless => False
  | _ => True

/-- A segment is in memory with a bias: the byte for its address is at the address and the bias. -/
def AtBias (file : FsFile) (s : Space) (b : Int) (ph : ElfProgramHeader) : Prop :=
  ∀ i, i < ph.memsz → ∃ a : Nat, (a : Int) = b + ph.vaddr + i ∧
    s.load a = some (segmentByte file ph i)

/-- The load returned 0, and one bias holds for all segments and the entry point. -/
def OneBias (file : FsFile) (exit : ElfExit) (fmt : Fmt) (s : Space) : Prop :=
  exit = .ret 0 ∧ ∃ b : Int, (∀ ph ∈ fileSegments file, AtBias file s b ph) ∧
    (fmt.entry : Int) = b + (fileHeader file).entry

section

variable {env : SpaceEnv} {file : FsFile} {header : ElfHeader} {ph : ElfProgramHeader}
  {phs : List ElfProgramHeader} {m m' : Bytes.Memory} {fmt : Fmt} {s s' s₀ : Space}
  {page at_page : Nat} {st st' : ElfLoad}

theorem elfProgramHeader_congr (same : ∀ x, x < elfProgramHeaderSize → m' x = m x) :
    elfProgramHeader m' = elfProgramHeader m := by
  unfold elfProgramHeader elfProgramHeaderSize at *
  rw [Bytes.read_congr fun x _ lt => same x (by omega),
    Bytes.read_congr fun x _ lt => same x (by omega),
    Bytes.read_congr fun x _ lt => same x (by omega),
    Bytes.read_congr fun x _ lt => same x (by omega),
    Bytes.read_congr fun x _ lt => same x (by omega),
    Bytes.read_congr fun x _ lt => same x (by omega)]

/-- A program header that lies in the file is read as it is there. -/
theorem elfPhNext_file (real : RealElf file) (reads : ReadsWell file) {phPos : Nat}
    (lt : phPos < (fileHeader file).phnum) : ∃ m',
      elfPhNext file (fileHeader file) phPos m = (56, m', phPos + 1) ∧
        elfProgramHeader m' = filePh file phPos := by
  have inside := real.inside (by omega)
  have size_lt := file.size_lt
  unfold HeadersInside elfProgramHeaderSize at inside
  have next : 56 * phPos + 56 ≤ 56 * (fileHeader file).phnum := by omega
  have phentsize : (fileHeader file).phentsize = 56 := real.phentsize (by omega)
  have offset : wrap64 ((fileHeader file).phoff + 56 * phPos) =
      (fileHeader file).phoff + 56 * phPos := wrap64_of_lt (by omega)
  have length : ((file.bytes.drop ((fileHeader file).phoff + 56 * phPos)).take 56).length = 56 := by
    rw [List.length_take, List.length_drop]
    omega
  refine ⟨Bytes.store m 0 ((file.bytes.drop ((fileHeader file).phoff + 56 * phPos)).take 56), ?_, ?_⟩
  · unfold elfPhNext vfsRead elfProgramHeaderSize
    have read : file.error ((fileHeader file).phoff + 56 * phPos) 56 = none := reads.headers phPos lt
    rw [if_neg (Nat.not_le.mpr lt), phentsize, offset]
    simp only [ne_eq, not_true_eq_false, if_false, read, length]
    rfl
  · apply elfProgramHeader_congr
    intro x lt
    have in_bytes := Nat.lt_of_lt_of_eq lt length.symm
    have here := @Bytes.store_inside m 0 _ x in_bytes
    have there := @Bytes.store_inside (fun _ => 0) 0 _ x in_bytes
    rw [Nat.zero_add] at here there
    exact here.trans there.symm

/-- All headers are read, one after the other. -/
theorem elfSegments_file (real : RealElf file) (reads : ReadsWell file) {fuel phPos : Nat}
    (le : phPos ≤ (fileHeader file).phnum) (enough : (fileHeader file).phnum < phPos + fuel) :
    elfSegments file (fileHeader file) fuel phPos m =
      (((List.range' phPos ((fileHeader file).phnum - phPos)).map (filePh file)).filter
        fun ph => ph.type = elfPhTypeLoad ∧ ph.memsz ≠ 0, 0) := by
  induction fuel generalizing phPos m with
  | zero => omega
  | succ fuel ih =>
      rw [elfSegments]
      by_cases last : phPos = (fileHeader file).phnum
      · subst last
        rw [elfPhNext, if_pos (Nat.le_refl _), Nat.sub_self]
        rfl
      · obtain ⟨m', next, header⟩ := @elfPhNext_file file m real reads phPos (by omega)
        have more : (fileHeader file).phnum - phPos = (fileHeader file).phnum - (phPos + 1) + 1 := by
          omega
        rw [next, more, List.range'_succ, List.map_cons, List.filter_cons]
        simp only [header, ih (by omega : phPos + 1 ≤ _) (by omega)]
        by_cases skip : (filePh file phPos).type ≠ elfPhTypeLoad ∨ (filePh file phPos).memsz = 0
        · rw [if_pos (by decide), if_pos skip, if_neg]
          rw [decide_eq_true_eq]
          rintro ⟨load, some_byte⟩
          exact skip.elim (fun other => other load) some_byte
        · rw [if_pos (by decide), if_neg skip, if_pos]
          rw [decide_eq_true_eq]
          exact ⟨not_not.mp (not_or.mp skip).1, (not_or.mp skip).2⟩

theorem RealElf.passes (real : RealElf file) (reads : ReadsWell file) :
    HeaderPasses file ∧ (elfReadHeader file).2 = fileHeader file := by
  have read : 0 ≤ (elfReadHeader file).1 := by
    simp only [elfReadHeader, vfsRead, reads.header]
    exact Int.natCast_nonneg _
  have header := elfReadHeader_eq read
  refine ⟨⟨read, ?_, ?_⟩, header⟩
  · rw [header]
    unfold elfCheck
    rw [elfCheckMagic_of_start real.magic]
    simp only [Bool.not_true, Bool.false_eq_true, if_false, real.class64, real.littleEndian,
      real.machine, real.version, ne_eq, not_true_eq_false]
  · rw [header]
    exact real.type

theorem RealElf.segments (real : RealElf file) (reads : ReadsWell file) :
    elfFileSegments file m = (fileSegments file, 0) := by
  unfold elfFileSegments fileSegments
  rw [(real.passes reads).2, elfSegments_file real reads (Nat.zero_le _) (by omega), Nat.sub_zero,
    ← List.range_eq_range']

theorem fileSegments_small (mem : ph ∈ fileSegments file) : 0 < ph.memsz ∧ ph.memsz < 2 ^ 64 := by
  obtain ⟨at_ph, load⟩ := List.mem_filter.mp mem
  obtain ⟨i, -, rfl⟩ := List.mem_map.mp at_ph
  rw [decide_eq_true_eq] at load
  exact ⟨Nat.pos_of_ne_zero load.2, Bytes.read_lt⟩

/-! ## Loads of well-formed files -/

/-- A load that maps all segments of a well-formed file gets through them. -/
theorem elfRun_mapped {e : ElfExit × ElfLoad} (pos : st.pos = at_page * pageSize)
    (readable : ∀ ph ∈ phs, Readable file ph) (whole : ∀ ph ∈ phs, WholeSegment file ph)
    (small : ∀ ph ∈ phs, ph.memsz < 2 ^ 64)
    (failed : elfRun env file header phs st = .error e) : ¬ e.1.Mapped := by
  induction phs generalizing at_page st with
  | nil => cases failed
  | cons ph phs ih =>
      obtain ⟨readable_here, readable⟩ := List.forall_mem_cons.mp readable
      obtain ⟨whole_here, whole⟩ := List.forall_mem_cons.mp whole
      obtain ⟨small_here, small⟩ := List.forall_mem_cons.mp small
      have segment := @elfLoadSegment_segment env file header ph st at_page pos
      rw [elfRun] at failed
      generalize elfLoadSegment env file header st ph = result at segment failed
      cases segment with
      | noRegion | endless | notMapped =>
          cases failed
          exact id
      | notFilled page frame exit heap found not_null got not_filled =>
          have below := (Space.place_spec found elfPages_pos not_null).1
          have size := (elfPages_memsz small_here (by omega)).1
          have noFault : NoFault file st.space page ph := by
            intro i lt behind
            rw [elfContents_length whole_here] at lt
            have le := whole_here.1
            unfold pageSize at *
            omega
          obtain ⟨space, filled⟩ :=
            elfMapped_fills found not_null readable_here small_here noFault frame
          rw [filled] at not_filled
          cases not_filled
      | loaded page frame space => exact @ih _ ⟨_, _, _, space⟩ rfl readable whole small failed

/-! ## Where a bias leads -/

theorem elfLayout_mem {p : Nat × ElfProgramHeader} (mem : p ∈ elfLayout at_page phs) :
    p.2 ∈ phs ∧ at_page ≤ p.1 := by
  induction phs generalizing at_page with
  | nil => cases mem
  | cons ph phs ih =>
      rcases List.mem_cons.mp mem with rfl | later
      · exact ⟨List.mem_cons_self, Nat.le_refl at_page⟩
      · obtain ⟨at_ph, le⟩ := ih later
        exact ⟨List.mem_cons_of_mem ph at_ph, by omega⟩

/-- Segments that ascend by pages, from the place of the first one on and ending in places of the
    layout, have the distances of the layout. -/
theorem layout_tight {b : Int} (aligned : (pageSize : Int) ∣ b)
    (sizes : ∀ ph ∈ phs, 0 < ph.memsz ∧ ph.memsz ≤ elfPages ph * pageSize ∧
      elfPages ph * pageSize < ph.memsz + pageSize)
    (ordered : phs.Pairwise PagesBefore)
    (first : ∀ ph ∈ phs.head?, (at_page * pageSize : Int) ≤ b + ph.vaddr)
    (inside : ∀ ph ∈ phs, ∃ p ∈ elfLayout at_page phs,
      (p.1 * pageSize : Int) ≤ b + ph.vaddr + (ph.memsz - 1) ∧
        b + ph.vaddr + (ph.memsz - 1) < p.1 * pageSize + p.2.memsz) :
    ∀ p ∈ elfLayout at_page phs, b + p.2.vaddr = p.1 * pageSize := by
  induction phs generalizing at_page with
  | nil => exact nofun
  | cons ph phs ih =>
      obtain ⟨⟨some_byte, size, tight⟩, sizes⟩ := List.forall_mem_cons.mp sizes
      obtain ⟨before, ordered⟩ := List.pairwise_cons.mp ordered
      obtain ⟨inside_here, inside⟩ := List.forall_mem_cons.mp inside
      have low : (at_page * pageSize : Int) ≤ b + ph.vaddr := first ph rfl
      -- the pages in between push the other segments behind this one
      have next_low : ∀ ph' ∈ phs, ((at_page + elfPages ph : Nat) * pageSize : Int) ≤ b + ph'.vaddr := by
        intro ph' at_ph'
        have before := before ph' at_ph'
        unfold PagesBefore pageSize at *
        omega
      have tail : ∀ p ∈ elfLayout (at_page + elfPages ph) phs, b + p.2.vaddr = p.1 * pageSize := by
        apply ih sizes ordered
        · intro ph' at_ph'
          exact next_low ph' (List.mem_of_mem_head? at_ph')
        · intro ph' at_ph'
          obtain ⟨p, at_p, from_p, to_p⟩ := inside ph' at_ph'
          rcases List.mem_cons.mp at_p with rfl | later
          · have next_low := next_low ph' at_ph'
            have some_byte' := (sizes ph' at_ph').1
            have to_p : b + ph'.vaddr + (ph'.memsz - 1) < at_page * pageSize + ph.memsz := to_p
            unfold pageSize at *
            omega
          · exact ⟨p, later, from_p, to_p⟩
      intro p at_p
      rcases List.mem_cons.mp at_p with rfl | later
      · obtain ⟨p, at_p, from_p, to_p⟩ := inside_here
        rcases List.mem_cons.mp at_p with rfl | later
        · simp only at *
          omega
        · have place := tail p later
          have before := before p.2 (elfLayout_mem later).1
          unfold PagesBefore pageSize at *
          omega
      · exact tail p later

theorem elfLayout_shift {c : Nat} :
    elfLayout (c + at_page) phs = (elfLayout at_page phs).map fun p => (c + p.1, p.2) := by
  induction phs generalizing at_page with
  | nil => rfl
  | cons ph phs ih =>
      rw [elfLayout, elfLayout, List.map_cons, Nat.add_assoc, ih]

/-- The entry comes from a segment that contains it. -/
theorem elfEntry_cases {entry : Nat} {layout : List (Nat × ElfProgramHeader)} :
    elfEntry header entry layout = entry ∨ ∃ p ∈ layout, p.2.vaddr < header.entry ∧
      header.entry < wrap64 (p.2.vaddr + p.2.memsz) ∧
      elfEntry header entry layout = wrap64 (p.1 * pageSize + header.entry) := by
  induction layout generalizing entry with
  | nil => exact .inl rfl
  | cons p layout ih =>
      have step : elfEntry header entry (p :: layout) =
          elfEntry header (elfEntryAfter header p.2 (p.1 * pageSize) entry) layout := rfl
      rw [step]
      rcases ih with same | ⟨q, at_q, low, high, here⟩
      · rw [same, elfEntryAfter]
        split
        · next contains => exact .inr ⟨p, List.mem_cons_self, contains.1, contains.2, rfl⟩
        · exact .inl rfl
      · exact .inr ⟨q, List.mem_cons_of_mem p at_q, low, high, here⟩

/-- Segments that start behind the entry leave it as it is. -/
theorem elfEntry_behind {entry : Nat} {layout : List (Nat × ElfProgramHeader)}
    (behind : ∀ p ∈ layout, header.entry ≤ p.2.vaddr) :
    elfEntry header entry layout = entry := by
  rcases @elfEntry_cases header entry layout with same | ⟨p, at_p, low, -⟩
  · exact same
  · exact absurd low (Nat.not_lt.mpr (behind p at_p))

/-- In a hole of a space that is otherwise full, all other bytes are as they were. -/
theorem Contents.hole_load {num stop : Nat} {byte : UInt8} {layout : List (Nat × ElfProgramHeader)}
    {regions : List Region} {a : Nat}
    (contents : Contents file (onlyHole page num byte) page stop layout regions s)
    (filled : page + num ≤ stop)
    (off : ∀ p ∈ layout, a < p.1 * pageSize ∨ p.1 * pageSize + p.2.memsz ≤ a) :
    s.load a = some byte := by
  by_cases inside : page ≤ a / pageSize ∧ a / pageSize < stop
  · obtain ⟨x, here⟩ := contents.rest a inside.1 inside.2 off
    exact here
  · have here : s.page (a / pageSize) = some 0 := by
      rw [contents.image.page_outside (by omega)]
      exact if_neg (by omega)
    have clean := contents.clean (0 * pageSize + a % pageSize) fun mem at_mem holds => by
      have pos := contents.image.holds_pos at_mem holds
      unfold pageSize at pos
      omega
    rw [Space.load, here, Option.map_some, clean]
    rfl

/-- What is in memory with a bias, whatever was in memory before, lies in the segments. -/
theorem AtBias.inside {num stop stop' i : Nat} {layout : List (Nat × ElfProgramHeader)}
    {regions regions' : List Region} {b : Int}
    (zeros : Contents file (onlyHole page num 0) page stop layout regions s)
    (ones : Contents file (onlyHole page num 1) page stop' layout regions' s')
    (filled : page + num ≤ stop) (filled' : page + num ≤ stop')
    (at_bias : AtBias file s b ph) (at_bias' : AtBias file s' b ph) (lt : i < ph.memsz) :
    ∃ p ∈ layout, (p.1 * pageSize : Int) ≤ b + ph.vaddr + i ∧
      b + ph.vaddr + i < p.1 * pageSize + p.2.memsz := by
  obtain ⟨a, at_a, here⟩ := at_bias i lt
  obtain ⟨a', at_a', here'⟩ := at_bias' i lt
  cases Int.ofNat.inj (at_a.trans at_a'.symm)
  by_contra none
  have off : ∀ p ∈ layout, a < p.1 * pageSize ∨ p.1 * pageSize + p.2.memsz ≤ a := by
    intro p at_p
    by_contra inside
    exact none ⟨p, at_p, by omega, by omega⟩
  have zero := (zeros.hole_load filled off).symm.trans here
  have one := (ones.hole_load filled' off).symm.trans here'
  cases zero.trans one.symm

/-- A bias that the entry point shares makes the layout of the file start at 0. -/
theorem compact_of_tight {b : Int} (segments : fileSegments file = ph :: phs)
    (tight : ∀ p ∈ elfLayout page (ph :: phs), b + p.2.vaddr = p.1 * pageSize)
    (found : elfEntry (fileHeader file) 0 (elfLayout page (ph :: phs)) ≠ 0)
    (entry : (elfEntry (fileHeader file) 0 (elfLayout page (ph :: phs)) : Int) =
      b + (fileHeader file).entry) : Compact file := by
  have small : (fileHeader file).entry < 2 ^ 64 := Bytes.read_lt
  have some_pages : 0 < elfPages ph := elfPages_pos
  obtain none | ⟨p, at_p, low, high, here⟩ :=
    @elfEntry_cases (fileHeader file) 0 (elfLayout page (ph :: phs))
  · exact absurd none found
  have at_first := tight (page, ph) List.mem_cons_self
  have at_entry := tight p at_p
  have le := (elfLayout_mem at_p).2
  -- the segment of the entry is at the bias, so it is the first one
  have start : p.2.vaddr = 0 ∧ b = p.1 * pageSize := by
    rw [here] at entry
    unfold wrap64 pageSize at *
    omega
  obtain ⟨vaddr, bias⟩ := start
  have first : p = (page, ph) := by
    rcases List.mem_cons.mp at_p with head | later
    · exact head
    · have behind := (elfLayout_mem later).2
      unfold pageSize at *
      simp only at at_first
      omega
  subst first
  refine ⟨?_, ph, ?_, ?_, ?_⟩
  · rw [segments]
    intro q at_q
    have shifted : (page + q.1, q.2) ∈ elfLayout (page + 0) (ph :: phs) := by
      rw [elfLayout_shift]
      exact List.mem_map_of_mem at_q
    have place := tight _ shifted
    unfold pageSize at *
    simp only at place bias
    omega
  · rw [segments]
    rfl
  · omega
  · have high : (fileHeader file).entry < wrap64 (ph.vaddr + ph.memsz) := high
    have vaddr : ph.vaddr = 0 := vaddr
    unfold wrap64 at high
    omega

/-! ## When there is one bias -/

/-- What the load of a well-formed file comes to. -/
theorem elfLoad_wellFormed (real : RealElf file) (reads : ReadsWell file) :
    elfLoad env file m fmt s = ((elfOutcome env file m s).1,
        ⟨(elfOutcome env file m s).2.entry, (elfOutcome env file m s).2.mem⟩,
        (elfOutcome env file m s).2.space) ∧
      elfOutcome env file m s =
        elfEnd 0 (elfRun env file (fileHeader file) (fileSegments file) ⟨0, [], 0, s⟩) := by
  obtain ⟨passes, header⟩ := real.passes reads
  refine ⟨elfLoad_passed passes, ?_⟩
  unfold elfOutcome
  rw [header, real.segments reads]

/-- A segment of a well-formed file fills the pages of its region but for the last one. -/
theorem fileSegments_size (mem : ph ∈ fileSegments file) (few : elfPages ph < 2 ^ 52) :
    0 < ph.memsz ∧ ph.memsz ≤ elfPages ph * pageSize ∧
      elfPages ph * pageSize < ph.memsz + pageSize := by
  obtain ⟨some_byte, small⟩ := fileSegments_small mem
  exact ⟨some_byte, elfPages_memsz small few⟩

/-- Loaded into a hole the file shows a bias that holds for all bytes of memory. -/
theorem oneBias_hole (wf : WellFormed file) (reads : ReadsWell file) (m : Bytes.Memory)
    (segments : fileSegments file = ph :: phs) (pos : 0 < page)
    (places : Placeable page (ph :: phs))
    (good : ∀ env fmt s, (elfLoad env file m fmt s).1.Mapped → OneBias file
      (elfLoad env file m fmt s).1 (elfLoad env file m fmt s).2.1 (elfLoad env file m fmt s).2.2)
    (byte : UInt8) : ∃ stop regions s, Contents file (onlyHole page (elfPages ph) byte) page stop
        (elfLayout page (ph :: phs)) regions s ∧
      elfEntry (fileHeader file) 0 (elfLayout page (ph :: phs)) ≠ 0 ∧
      ∃ b : Int, (∀ ph ∈ fileSegments file, AtBias file s b ph) ∧
        (elfEntry (fileHeader file) 0 (elfLayout page (ph :: phs)) : Int) =
          b + (fileHeader file).entry := by
  have small : ∀ ph' ∈ ph :: phs, ph'.memsz < 2 ^ 64 := fun ph' mem =>
    (fileSegments_small (segments ▸ mem)).2
  obtain ⟨first, st, done⟩ := @onlyHole_loads file (fileHeader file) ph phs page byte pos
    (segments ▸ reads.segments) small places
  obtain ⟨start, stop, at_start, -, contents, entry⟩ :=
    elfRun_ok_contents (segments ▸ wf.whole) small done
  cases first.symm.trans at_start
  obtain ⟨load, outcome⟩ := @elfLoad_wellFormed plentyOfMemory file m ⟨0, []⟩
    (onlyHole page (elfPages ph) byte) wf.real reads
  rw [segments, done] at outcome
  have one := good plentyOfMemory ⟨0, []⟩ (onlyHole page (elfPages ph) byte)
  rw [load, outcome] at one
  obtain ⟨zero, b, at_bias, at_entry⟩ := one trivial
  refine ⟨stop, st.mem, st.space, contents, ?_, b, at_bias, entry ▸ at_entry⟩
  intro none
  have zero := ElfExit.ret.inj zero
  rw [if_neg (by decide), if_pos (entry.trans none)] at zero
  cases zero

theorem elfLayout_snd : (elfLayout at_page phs).map Prod.snd = phs := by
  induction phs generalizing at_page with
  | nil => rfl
  | cons ph phs ih => rw [elfLayout, List.map_cons, ih]

theorem Placeable.few (places : Placeable page phs) : ∀ ph ∈ phs, elfPages ph < 2 ^ 52 := by
  cases phs with
  | nil => exact nofun
  | cons first phs =>
      obtain ⟨low, rooms⟩ := places
      refine List.forall_mem_cons.mpr ⟨by omega, fun ph at_ph => ?_⟩
      rw [← @elfLayout_snd phs (page + elfPages first)] at at_ph
      obtain ⟨p, at_p, rfl⟩ := List.mem_map.mp at_ph
      have below := (rooms p at_p).lt elfPages_pos
      omega

/-- A file that is always loaded with one bias has the layout the loader gives it. -/
theorem compact_of_oneBias (wf : WellFormed file) (reads : ReadsWell file) (m : Bytes.Memory)
    (pos : 0 < page) (places : Placeable page (fileSegments file))
    (good : ∀ env fmt s, (elfLoad env file m fmt s).1.Mapped → OneBias file
      (elfLoad env file m fmt s).1 (elfLoad env file m fmt s).2.1 (elfLoad env file m fmt s).2.2) :
    Compact file := by
  cases segments : fileSegments file with
  | nil =>
      obtain ⟨ph, at_ph, -⟩ := wf.entry
      rw [segments] at at_ph
      cases at_ph
  | cons ph phs =>
      rw [segments] at places
      obtain ⟨stop, regions, s, zeros, found, b, at_bias, entry⟩ :=
        oneBias_hole wf reads m segments pos places good 0
      obtain ⟨stop', regions', s', ones, -, b', at_bias', entry'⟩ :=
        oneBias_hole wf reads m segments pos places good 1
      obtain rfl : b = b' := by omega
      have filled := (zeros.inside (page, ph) List.mem_cons_self).2.1
      have filled' := (ones.inside (page, ph) List.mem_cons_self).2.1
      have inside {ph' : ElfProgramHeader} (mem : ph' ∈ fileSegments file) {i : Nat}
          (lt : i < ph'.memsz) :=
        AtBias.inside zeros ones filled filled' (at_bias ph' mem) (at_bias' ph' mem) lt
      have aligned : (pageSize : Int) ∣ b := by
        obtain none | ⟨p, -, -, -, here⟩ :=
          @elfEntry_cases (fileHeader file) 0 (elfLayout page (ph :: phs))
        · exact absurd none found
        · rw [here] at entry
          unfold wrap64 pageSize at *
          omega
      apply compact_of_tight segments ?_ found entry
      apply layout_tight aligned
      · intro ph' mem
        exact fileSegments_size (segments ▸ mem) (places.few ph' mem)
      · exact segments ▸ wf.ordered
      · intro first head
        cases head
        have mem : ph ∈ fileSegments file := segments ▸ List.mem_cons_self
        obtain ⟨p, at_p, low, -⟩ := inside mem (fileSegments_small mem).1
        have le := (elfLayout_mem at_p).2
        unfold pageSize at *
        omega
      · intro ph' at_ph
        have mem : ph' ∈ fileSegments file := segments ▸ at_ph
        have some_byte := (fileSegments_small mem).1
        obtain ⟨p, at_p, low, high⟩ := inside mem (Nat.sub_one_lt (Nat.ne_of_gt some_byte))
        exact ⟨p, at_p, by omega, by omega⟩

theorem Compact.place (compact : Compact file) (start : Nat) :
    ∀ p ∈ elfLayout start (fileSegments file), start * pageSize + p.2.vaddr = p.1 * pageSize := by
  intro p at_p
  rw [← Nat.add_zero start, elfLayout_shift] at at_p
  obtain ⟨q, at_q, rfl⟩ := List.mem_map.mp at_p
  have vaddr := compact.vaddr q at_q
  simp only [vaddr, Nat.add_mul]

/-- Then only the first segment contains the entry point. -/
theorem elfEntry_compact {start : Nat}
    (place : ∀ p ∈ elfLayout start (ph :: phs), start * pageSize + p.2.vaddr = p.1 * pageSize)
    (size : ph.memsz ≤ elfPages ph * pageSize) (small : ph.memsz < 2 ^ 64)
    (high : start + elfPages ph ≤ 2 ^ 37) (entry_pos : 0 < header.entry)
    (entry_lt : header.entry < ph.memsz) :
    elfEntry header 0 (elfLayout start (ph :: phs)) = start * pageSize + header.entry := by
  have vaddr : ph.vaddr = 0 := by
    have here := place (start, ph) List.mem_cons_self
    simp only at here
    omega
  have step : elfEntry header 0 (elfLayout start (ph :: phs)) =
      elfEntry header (elfEntryAfter header ph (start * pageSize) 0)
        (elfLayout (start + elfPages ph) phs) := rfl
  have first : elfEntryAfter header ph (start * pageSize) 0 = start * pageSize + header.entry := by
    rw [elfEntryAfter, vaddr, Nat.zero_add, wrap64_of_lt small, if_pos ⟨entry_pos, entry_lt⟩]
    apply wrap64_of_lt
    unfold pageSize at *
    omega
  rw [step, first]
  apply elfEntry_behind
  intro p at_p
  have here := place p (List.mem_cons_of_mem _ at_p)
  have behind := (elfLayout_mem at_p).2
  unfold pageSize at *
  omega

/-- A file laid out as the loader places it is loaded with one bias. -/
theorem oneBias_of_compact (wf : WellFormed file) (reads : ReadsWell file)
    (compact : (∃ page, 0 < page ∧ Placeable page (fileSegments file)) → Compact file)
    (mapped : (elfLoad env file m fmt s).1.Mapped) : OneBias file
      (elfLoad env file m fmt s).1 (elfLoad env file m fmt s).2.1
      (elfLoad env file m fmt s).2.2 := by
  obtain ⟨load, outcome⟩ := @elfLoad_wellFormed env file m fmt s wf.real reads
  have small : ∀ ph ∈ fileSegments file, ph.memsz < 2 ^ 64 := fun ph mem =>
    (fileSegments_small mem).2
  rw [load, outcome] at mapped ⊢
  cases done : elfRun env file (fileHeader file) (fileSegments file) ⟨0, [], 0, s⟩ with
  | error e =>
      rw [done] at mapped
      exact absurd mapped (elfRun_mapped begun_empty.1 reads.segments wf.whole small done)
  | ok st =>
      cases segments : fileSegments file with
      | nil =>
          obtain ⟨ph, at_ph, -⟩ := wf.entry
          rw [segments] at at_ph
          cases at_ph
      | cons ph phs =>
          rw [segments] at done small
          obtain ⟨page, pos, places, -⟩ := elfRun_places done
          have compact := compact ⟨page, pos, segments ▸ places⟩
          obtain ⟨start, stop, at_start, -, contents, entry⟩ :=
            elfRun_ok_contents (segments ▸ wf.whole) small done
          have high :=
            (Space.findContiguous_user (Space.place_zero.symm.trans at_start) elfPages_pos).2.1
          have size := (contents.inside (start, ph) List.mem_cons_self).2.2
          have place : ∀ p ∈ elfLayout start (ph :: phs),
              start * pageSize + p.2.vaddr = p.1 * pageSize := segments ▸ compact.place start
          obtain ⟨first, head, entry_pos, entry_lt⟩ := compact.entry
          rw [segments] at head
          cases head
          have at_entry : st.entry = start * pageSize + (fileHeader file).entry :=
            entry.trans (elfEntry_compact place size (small ph List.mem_cons_self) high
              entry_pos entry_lt)
          refine ⟨?_, start * pageSize, ?_, ?_⟩
          · have found : st.entry ≠ 0 := by omega
            simp only [elfEnd, found, if_false]
            rfl
          · intro ph' at_ph'
            rw [segments, ← @elfLayout_snd (ph :: phs) start] at at_ph'
            obtain ⟨p, at_p, rfl⟩ := List.mem_map.mp at_ph'
            intro i lt
            refine ⟨p.1 * pageSize + i, ?_, contents.bytes p at_p i lt⟩
            have here := place p at_p
            unfold pageSize at *
            omega
          · simp only [elfEnd, at_entry]
            unfold pageSize
            omega

/-- A well-formed file is loaded with one bias, whenever mapping and reading succeed, just when it
    has its segments one behind the other from address 0 on and its entry point behind the first
    byte of the first one; a file that fits no address space is never loaded. -/
theorem oneBias_iff_compact (wf : WellFormed file) (reads : ReadsWell file) (m : Bytes.Memory) :
    (∀ env fmt s, (elfLoad env file m fmt s).1.Mapped → OneBias file
      (elfLoad env file m fmt s).1 (elfLoad env file m fmt s).2.1
      (elfLoad env file m fmt s).2.2) ↔
    ((∃ page, 0 < page ∧ Placeable page (fileSegments file)) → Compact file) := by
  constructor
  · intro good ⟨page, pos, places⟩
    exact compact_of_oneBias wf reads m pos places good
  · intro compact env fmt s mapped
    exact oneBias_of_compact wf reads compact mapped

end

/-- A file with one segment of two bytes. -/
def oneSegmentFile : FsFile :=
  ⟨elfFileBytes elfMagic 1 [zeroSegment 0 2], by decide, fun _ _ => none, noError_neg⟩

/-- A file with a page between its segments. -/
def gapFile : FsFile :=
  ⟨elfFileBytes elfMagic 1 [zeroSegment 0 2, zeroSegment 8192 1], by decide +kernel,
    fun _ _ => none, noError_neg⟩

theorem oneSegmentFile_segments : fileSegments oneSegmentFile = [zeroSegment 0 2] := by
  decide

theorem gapFile_segments : fileSegments gapFile = [zeroSegment 0 2, zeroSegment 8192 1] := by
  decide

theorem oneSegmentFile_wellFormed : WellFormed oneSegmentFile := by
  constructor
  · constructor <;> decide
  all_goals
    rw [oneSegmentFile_segments]
    decide +kernel

theorem gapFile_wellFormed : WellFormed gapFile := by
  constructor
  · constructor <;> decide +kernel
  all_goals
    rw [gapFile_segments]
    decide +kernel

theorem readsWell_of_none {file : FsFile} (none : file.error = fun _ _ => none) :
    ReadsWell file := by
  constructor
  · rw [none]
  · intro i lt
    rw [none]
  · intro ph mem
    exact .inr (by rw [none])

/-- The statement above for a file that is loaded with one bias. -/
theorem oneBias_oneSegmentFile :
    (∀ env fmt s, (elfLoad env oneSegmentFile (fun _ => 0) fmt s).1.Mapped → OneBias oneSegmentFile
      (elfLoad env oneSegmentFile (fun _ => 0) fmt s).1
      (elfLoad env oneSegmentFile (fun _ => 0) fmt s).2.1
      (elfLoad env oneSegmentFile (fun _ => 0) fmt s).2.2) ↔
    ((∃ page, 0 < page ∧ Placeable page (fileSegments oneSegmentFile)) →
      Compact oneSegmentFile) :=
  oneBias_iff_compact oneSegmentFile_wellFormed (readsWell_of_none rfl) fun _ => 0

/-- A page between the segments of the file is not there in memory. -/
theorem not_oneBias : ¬ ∀ (file : FsFile), WellFormed file → ReadsWell file →
    ∀ (env : SpaceEnv) (m : Bytes.Memory) (fmt : Fmt) (s : Space),
      (elfLoad env file m fmt s).1.Mapped → OneBias file (elfLoad env file m fmt s).1
        (elfLoad env file m fmt s).2.1 (elfLoad env file m fmt s).2.2 := by
  intro always
  have reads : ReadsWell gapFile := readsWell_of_none rfl
  have places : Placeable 1 (fileSegments gapFile) := by
    rw [gapFile_segments]
    exact ⟨by decide, by decide⟩
  have compact := compact_of_oneBias gapFile_wellFormed reads (fun _ => 0) Nat.one_pos places
    fun env => always gapFile gapFile_wellFormed reads env fun _ => 0
  have second := compact.vaddr (1, zeroSegment 8192 1)
  rw [gapFile_segments] at second
  exact absurd (second (by decide)) (by decide)

end Sdx.Fs
