import Sdx.Fs.Elf
import Sdx.Mm.RegionMap

/-! # Loading the segments of an ELF file

The loop of `__elf_load_dyn` is a fold over the segments that are read from the program headers.
What one segment does is said once, by `Segment`, and an image grows by one region with each
segment that gets its place.
-/

namespace Sdx.Fs

open Sdx.Lib Sdx.Mm

section

variable {env : SpaceEnv} {file : FsFile} {header : ElfHeader} {ph : ElfProgramHeader}
  {s s' : Space}

/-! ## The size of a segment -/

/-- The number of pages of a segment. -/
def elfPages (ph : ElfProgramHeader) : Nat := vmmCalc (vmmAlign ph.memsz)

/-- A size that is aligned and not 0 is a number of pages; from 0 comes one past all pages. -/
private theorem elfPages_eq :
    elfPages ph = if vmmAlign ph.memsz = 0 then 2 ^ 52 else vmmAlign ph.memsz / pageSize := by
  have whole := dvd_roundUp ph.memsz (by decide : pageSize ≠ 0)
  have small : vmmAlign ph.memsz < 2 ^ 64 := by
    unfold vmmAlign roundUp wrap64 pageSize
    split
    · contradiction
    · omega
  unfold elfPages vmmCalc divCeil sub64 wrap64
  unfold vmmAlign pageSize at *
  split <;> omega

theorem elfPages_pos : 0 < elfPages ph := by
  have whole := dvd_roundUp ph.memsz (by decide : pageSize ≠ 0)
  rw [elfPages_eq]
  split
  · decide
  · unfold vmmAlign pageSize at *
    omega

theorem vmmAlign_pages (few : elfPages ph < 2 ^ 52) : vmmAlign ph.memsz = elfPages ph * pageSize := by
  have whole := dvd_roundUp ph.memsz (by decide : pageSize ≠ 0)
  rw [elfPages_eq] at few ⊢
  split at few
  · contradiction
  · next some_page =>
      rw [if_neg some_page]
      exact (Nat.div_mul_cancel whole).symm

theorem elfPages_memsz (fits : ph.memsz < 2 ^ 64) (few : elfPages ph < 2 ^ 52) :
    ph.memsz ≤ elfPages ph * pageSize ∧ elfPages ph * pageSize < ph.memsz + pageSize := by
  have some_page : 0 < elfPages ph := elfPages_pos
  have whole := vmmAlign_pages few
  rw [← whole]
  simp only [vmmAlign, roundUp, if_neg (by decide : pageSize ≠ 0), wrap64] at whole ⊢
  unfold pageSize at *
  omega

/-! ## The contents of a segment -/

/-- The bytes the file has for a segment. -/
def elfContents (file : FsFile) (ph : ElfProgramHeader) : List UInt8 :=
  if ph.filesz ≠ 0 then (file.bytes.drop ph.offset).take ph.filesz else []

/-- The zeros behind them. -/
def elfZeros (ph : ElfProgramHeader) : List UInt8 := List.replicate (ph.memsz - ph.filesz) 0

/-- The contents of a segment can be read. -/
def Readable (file : FsFile) (ph : ElfProgramHeader) : Prop :=
  ph.filesz = 0 ∨ file.error ph.offset ph.filesz = none

theorem elfRead_eq (readable : Readable file ph) :
    (if ph.filesz ≠ 0 then vfsRead file ph.offset ph.filesz else (0, [])) =
      (((elfContents file ph).length : Int), elfContents file ph) := by
  unfold elfContents
  split
  · next some_byte => simp only [vfsRead, readable.resolve_left some_byte]
  · rfl

theorem elfFillSegment_read (readable : Readable file ph) (pos : Nat) :
    elfFillSegment file s pos ph =
      match (s.store pos (elfContents file ph)).bind (·.store (pos + ph.filesz) (elfZeros ph)) with
      | none => .error .fault
      | some s => .ok s := by
  have good : ¬ ((elfContents file ph).length : Int) < 0 := Int.not_lt.mpr (Int.natCast_nonneg _)
  simp only [elfFillSegment, elfRead_eq readable, good, if_false, elfZeros]
  cases s.store pos (elfContents file ph) with
  | none => rfl
  | some s => rfl

theorem elfFillSegment_notRead (failed : ¬ Readable file ph) (pos : Nat) :
    elfFillSegment file s pos ph = .error .notRead := by
  obtain ⟨some_byte, failed⟩ := not_or.mp failed
  obtain ⟨err, failed⟩ := Option.ne_none_iff_exists'.mp failed
  have neg := file.error_neg _ _ _ failed
  simp only [elfFillSegment, ne_eq, some_byte, not_false_eq_true, if_true, vfsRead, failed, neg]

/-- The bytes of a segment lie in mapped pages: those of its own range in the range, and what the
    file has beyond that in pages that are mapped behind it. -/
def NoFault (file : FsFile) (s : Space) (page : Nat) (ph : ElfProgramHeader) : Prop :=
  ∀ i, i < (elfContents file ph).length → elfPages ph ≤ i / pageSize →
    (s.page (page + i / pageSize)).isSome

/-! ## One segment -/

/-- The region of a segment. -/
def elfRegion (ph : ElfProgramHeader) (page frame : Nat) : Region :=
  ⟨elfRegionType ph, true, page * pageSize, frame * pageSize, elfPages ph⟩

/-- The space with the object of one more region. -/
def grown (s : Space) : Space := { s with regions := s.regions + 1 }

/-- The entry after a segment that starts at `pos`. -/
def elfEntryAfter (header : ElfHeader) (ph : ElfProgramHeader) (pos entry : Nat) : Nat :=
  if ph.vaddr < header.entry ∧ wrap64 (ph.vaddr + ph.memsz) > header.entry
  then wrap64 (pos + header.entry) else entry

/-- The state once the pages of a segment are mapped. -/
def elfMapped (st : ElfLoad) (ph : ElfProgramHeader) (page frame : Nat) : ElfLoad where
  entry := st.entry
  mem := st.mem ++ [elfRegion ph page frame]
  pos := page * pageSize
  space := (grown st.space).placed page frame (elfPages ph)

/-- What the loader does with a segment that goes to the page `at_page`, or anywhere if that is 0. -/
inductive Segment (env : SpaceEnv) (file : FsFile) (header : ElfHeader) (st : ElfLoad)
    (at_page : Nat) (ph : ElfProgramHeader) : Except (ElfExit × ElfLoad) ElfLoad → Prop
  | noRegion : env.heapAlloc st.space.regions = false →
      Segment env file header st at_page ph (.error (.noRegion, st))
  | endless : env.heapAlloc st.space.regions = true →
      st.space.place at_page (elfPages ph) = none →
      Segment env file header st at_page ph
        (.error (.endless, { st with space := grown st.space }))
  | notMapped (page : Nat) : env.heapAlloc st.space.regions = true →
      st.space.place at_page (elfPages ph) = some page →
      page = 0 ∨ env.pmmAlloc st.space.used (elfPages ph) = none →
      Segment env file header st at_page ph
        (.error (.notMapped (-eFAULT), { st with space := grown st.space }))
  | notFilled (page frame : Nat) (exit : ElfExit) : env.heapAlloc st.space.regions = true →
      st.space.place at_page (elfPages ph) = some page → page ≠ 0 →
      env.pmmAlloc st.space.used (elfPages ph) = some frame →
      elfFillSegment file (elfMapped st ph page frame).space (page * pageSize) ph = .error exit →
      Segment env file header st at_page ph (.error (exit, elfMapped st ph page frame))
  | loaded (page frame : Nat) (space : Space) : env.heapAlloc st.space.regions = true →
      st.space.place at_page (elfPages ph) = some page → page ≠ 0 →
      env.pmmAlloc st.space.used (elfPages ph) = some frame →
      elfFillSegment file (elfMapped st ph page frame).space (page * pageSize) ph = .ok space →
      Segment env file header st at_page ph (.ok
        ⟨elfEntryAfter header ph (page * pageSize) st.entry, st.mem ++ [elfRegion ph page frame],
          (page + elfPages ph) * pageSize, space⟩)

private theorem elfLoadSegment_new {st : ElfLoad} (heap : env.heapAlloc st.space.regions = true) :
    elfLoadSegment env file header st ph =
      match regionMap env (grown st.space) ⟨elfRegionType ph, true, st.pos, 0, elfPages ph⟩ with
      | none => .error (.endless, { st with space := grown st.space })
      | some (err, mem, space) =>
          if err ≠ 0 then .error (.notMapped err, { st with space := space })
          else
            let pos := if st.pos = 0 then mem.vaddr else st.pos
            match elfFillSegment file space pos ph with
            | .error exit => .error (exit, ⟨st.entry, st.mem ++ [mem], pos, space⟩)
            | .ok space => .ok ⟨elfEntryAfter header ph pos st.entry, st.mem ++ [mem],
                wrap64 (pos + vmmAlign ph.memsz), space⟩ := by
  simp only [elfLoadSegment, regionNew, heap, if_true]
  rfl

/-- The contents of a segment go to the first page of its region. -/
theorem elfPos_eq {st : ElfLoad} {at_page page : Nat} (pos : st.pos = at_page * pageSize)
    (found : s.place at_page (elfPages ph) = some page) (not_null : page ≠ 0) :
    (if st.pos = 0 then page * pageSize else st.pos) = page * pageSize := by
  rw [pos]
  rcases (Space.place_spec found elfPages_pos not_null).2 with ⟨rfl, -⟩ | ⟨rfl, -⟩
  · rw [if_pos (Nat.zero_mul _)]
  · rw [if_neg (mt page_address_zero.mp not_null)]

theorem elfLoadSegment_segment {st : ElfLoad} {at_page : Nat} (pos : st.pos = at_page * pageSize) :
    Segment env file header st at_page ph (elfLoadSegment env file header st ph) := by
  by_cases heap : env.heapAlloc st.space.regions = true
  · have same : (grown st.space).place at_page (elfPages ph) = st.space.place at_page (elfPages ph) :=
      Space.place_congr rfl
    rw [elfLoadSegment_new heap]
    rcases @regionMap_cases env (grown st.space) (elfRegionType ph) at_page (elfPages ph) elfPages_pos
      with ⟨nowhere, mapped⟩ | ⟨page, mem, found, failed, mapped⟩ |
        ⟨page, frame, found, not_null, got, mapped⟩
    · rw [pos, mapped, ← pos]
      exact .endless heap (same ▸ nowhere)
    · rw [pos, mapped, ← pos]
      exact .notMapped page heap (same ▸ found) failed
    · have start := elfPos_eq pos found not_null
      have below := (Space.place_spec found elfPages_pos not_null).1
      have next : wrap64 (page * pageSize + vmmAlign ph.memsz) = (page + elfPages ph) * pageSize := by
        rw [vmmAlign_pages (by omega), ← Nat.add_mul]
        apply wrap64_of_lt
        unfold pageSize
        omega
      rw [pos, mapped, ← pos]
      simp only [ne_eq, not_true_eq_false, if_false, start, next]
      cases filled : elfFillSegment file ((grown st.space).placed page frame (elfPages ph))
        (page * pageSize) ph with
      | error exit => exact .notFilled page frame exit heap (same ▸ found) not_null got filled
      | ok space => exact .loaded page frame space heap (same ▸ found) not_null got filled
  · simp only [elfLoadSegment, regionNew, heap]
    exact .noRegion (Bool.not_eq_true _ ▸ heap)

theorem elfFillSegment_error {pos : Nat} {exit : ElfExit}
    (failed : elfFillSegment file s pos ph = .error exit) : exit = .notRead ∨ exit = .fault := by
  by_cases readable : Readable file ph
  · rw [elfFillSegment_read readable] at failed
    split at failed
    · exact .inr (Except.error.inj failed).symm
    · cases failed
  · rw [elfFillSegment_notRead readable] at failed
    exact .inl (Except.error.inj failed).symm

theorem elfFillSegment_ok {pos : Nat} (filled : elfFillSegment file s pos ph = .ok s') :
    Readable file ph ∧ ∃ between, s.store pos (elfContents file ph) = some between ∧
      between.store (pos + ph.filesz) (elfZeros ph) = some s' := by
  by_cases readable : Readable file ph
  · rw [elfFillSegment_read readable] at filled
    split at filled
    · cases filled
    · next done =>
        cases filled
        exact ⟨readable, Option.bind_eq_some_iff.mp done⟩
  · rw [elfFillSegment_notRead readable] at filled
    cases filled

theorem elfFillSegment_same {pos : Nat} (filled : elfFillSegment file s pos ph = .ok s') :
    Space.SameButData s s' := by
  obtain ⟨-, between, first, second⟩ := elfFillSegment_ok filled
  exact (Space.store_same first).trans (Space.store_same second)

/-! ## All segments -/

/-- The segments that are read from the program headers from `ph_pos` on, and what the last read
    returns. -/
def elfSegments (file : FsFile) (header : ElfHeader) :
    Nat → Nat → Bytes.Memory → List ElfProgramHeader × Int
  | 0, _, _ => ([], 0)
  | fuel + 1, phPos, m =>
      let (err, m, phPos) := elfPhNext file header phPos m
      if err > 0 then
        let ph := elfProgramHeader m
        let (phs, err) := elfSegments file header fuel phPos m
        if ph.type ≠ elfPhTypeLoad ∨ ph.memsz = 0 then (phs, err) else (ph :: phs, err)
      else ([], err)

/-- The segments are loaded one after the other. -/
def elfRun (env : SpaceEnv) (file : FsFile) (header : ElfHeader) :
    List ElfProgramHeader → ElfLoad → Except (ElfExit × ElfLoad) ElfLoad
  | [], st => .ok st
  | ph :: phs, st => (elfLoadSegment env file header st ph).bind (elfRun env file header phs)

theorem elfLoadDynLoop_eq {fuel phPos : Nat} {m : Bytes.Memory} {st : ElfLoad} :
    elfLoadDynLoop env file header fuel phPos m st =
      (elfRun env file header (elfSegments file header fuel phPos m).1 st).map
        fun st => ((elfSegments file header fuel phPos m).2, st) := by
  induction fuel generalizing phPos m st with
  | zero => rfl
  | succ fuel ih =>
      rw [elfLoadDynLoop, elfSegments]
      rcases elfPhNext file header phPos m with ⟨err, m, phPos⟩
      simp only
      by_cases more : err > 0
      · rw [if_pos more, if_pos more]
        by_cases skip : (elfProgramHeader m).type ≠ elfPhTypeLoad ∨ (elfProgramHeader m).memsz = 0
        · rw [if_pos skip, if_pos skip, ih]
        · rw [if_neg skip, if_neg skip, elfRun]
          cases elfLoadSegment env file header st (elfProgramHeader m) with
          | error e => rfl
          | ok st => exact ih
      · rw [if_neg more, if_neg more]
        rfl

/-- The segments of a file; `m` is what the program header holds before the first one is read. -/
def elfFileSegments (file : FsFile) (m : Bytes.Memory) : List ElfProgramHeader × Int :=
  elfSegments file (elfReadHeader file).2 ((elfReadHeader file).2.phnum + 1) 0 m

/-- A size in a program header is a `uint64_t`. -/
theorem elfSegments_small {fuel phPos : Nat} {m : Bytes.Memory}
    (mem : ph ∈ (elfSegments file header fuel phPos m).1) : ph.memsz < 2 ^ 64 := by
  induction fuel generalizing phPos m with
  | zero => cases mem
  | succ fuel ih =>
      rw [elfSegments] at mem
      rcases elfPhNext file header phPos m with ⟨err, m, phPos⟩
      simp only at mem
      split at mem
      · split at mem
        · exact ih mem
        · rcases List.mem_cons.mp mem with rfl | later
          · exact Bytes.read_lt
          · exact ih later
      · cases mem

/-- The checks of the ELF header let the file pass. -/
def HeaderPasses (file : FsFile) : Prop :=
  0 ≤ (elfReadHeader file).1 ∧ elfCheck (elfReadHeader file).2 = none ∧
    (elfReadHeader file).2.type = elfTypeDyn

instance : Decidable (HeaderPasses file) :=
  inferInstanceAs (Decidable (_ ∧ _ ∧ _))

/-- What becomes of a load once the segments are in memory. -/
def elfEnd (err : Int) : Except (ElfExit × ElfLoad) ElfLoad → ElfExit × ElfLoad
  | .error e => e
  | .ok st => (.ret (if err < 0 then err else if st.entry = 0 then -eNOEXEC else 0), st)

/-- How the load of a file ends whose header passes. -/
def elfOutcome (env : SpaceEnv) (file : FsFile) (m : Bytes.Memory) (s : Space) : ElfExit × ElfLoad :=
  elfEnd (elfFileSegments file m).2
    (elfRun env file (elfReadHeader file).2 (elfFileSegments file m).1 ⟨0, [], 0, s⟩)

/-- The regions that `elf_load` hands over. -/
def elfImage (env : SpaceEnv) (file : FsFile) (m : Bytes.Memory) (s : Space) : List Region :=
  (elfLoad env file m ⟨0, []⟩ s).2.1.mem

theorem elfLoad_rejected (rejected : ¬ HeaderPasses file) :
    ∃ err, err < 0 ∧ ∀ env m fmt s, elfLoad env file m fmt s = (.ret err, fmt, s) := by
  unfold elfLoad
  by_cases read : (elfReadHeader file).1 < 0
  · exact ⟨_, read, fun _ _ _ _ => if_pos read⟩
  · refine ⟨-eNOEXEC, by decide, fun env m fmt s => ?_⟩
    simp only [if_neg read]
    by_cases check : (elfCheck (elfReadHeader file).2).isSome
    · rw [if_pos check]
    · rw [if_neg check]
      apply if_pos
      intro dyn
      exact rejected ⟨Int.not_lt.mp read, Option.not_isSome_iff_eq_none.mp check, dyn⟩

theorem elfLoad_passed (passes : HeaderPasses file) {m : Bytes.Memory} {fmt : Fmt} :
    elfLoad env file m fmt s = ((elfOutcome env file m s).1,
      ⟨(elfOutcome env file m s).2.entry, (elfOutcome env file m s).2.mem⟩,
      (elfOutcome env file m s).2.space) := by
  obtain ⟨read, check, dyn⟩ := passes
  have dyn_eq : elfLoadDyn env file (elfReadHeader file).2 m ⟨0, [], 0, s⟩ =
      elfOutcome env file m s := by
    unfold elfLoadDyn elfOutcome elfFileSegments
    rw [elfLoadDynLoop_eq]
    cases elfRun env file (elfReadHeader file).2
      (elfSegments file (elfReadHeader file).2 ((elfReadHeader file).2.phnum + 1) 0 m).1
      ⟨0, [], 0, s⟩ with
    | error e => rfl
    | ok st =>
        simp only [Except.map, elfEnd]
        split
        · rfl
        · split <;> rfl
  unfold elfLoad
  simp only [Int.not_lt.mpr read, check, dyn, dyn_eq, if_false, Option.isSome_none,
    Bool.false_eq_true, ne_eq, not_true_eq_false]

/-! ## The image -/

/-- The pages and the frames of a region. -/
def Covers (mem : Region) (page : Nat) : Prop :=
  mem.vaddr / pageSize ≤ page ∧ page < mem.vaddr / pageSize + mem.num

def Holds (mem : Region) (frame : Nat) : Prop :=
  mem.paddr / pageSize ≤ frame ∧ frame < mem.paddr / pageSize + mem.num

/-- The regions are mapped one behind the other from page `start` up to page `stop`, each to fresh
    frames; otherwise only the bytes of memory are not those of `s₀`. -/
inductive Image (s₀ : Space) (start : Nat) : Nat → List Region → Space → Prop
  | empty : Image s₀ start start [] s₀
  | region {stop : Nat} {regions : List Region} {s s' : Space} (type : RegionType)
      (frame num : Nat) (before : Image s₀ start stop regions s) (some_page : 0 < num)
      (not_null : 0 < frame) (fresh : ∀ k, k < num → s.used (frame + k) = false)
      (now : Space.SameButData ((grown s).placed stop frame num) s') :
      Image s₀ start (stop + num)
        (regions ++ [⟨type, true, stop * pageSize, frame * pageSize, num⟩]) s'

namespace Image

variable {s₀ : Space} {start stop q f : Nat} {regions : List Region} {mem : Region}

theorem le (image : Image s₀ start stop regions s) : start ≤ stop := by
  induction image with
  | empty => exact Nat.le_refl start
  | region => omega

theorem covers_new {type : RegionType} {page frame num : Nat} :
    Covers ⟨type, true, page * pageSize, frame * pageSize, num⟩ q ↔ page ≤ q ∧ q < page + num := by
  unfold Covers
  rw [Nat.mul_div_cancel page (by decide : 0 < pageSize)]

theorem holds_new {type : RegionType} {page frame num : Nat} :
    Holds ⟨type, true, page * pageSize, frame * pageSize, num⟩ f ↔
      frame ≤ f ∧ f < frame + num := by
  unfold Holds
  rw [Nat.mul_div_cancel frame (by decide : 0 < pageSize)]

/-- The regions cover the pages of the image. -/
theorem covered (image : Image s₀ start stop regions s) :
    (∃ mem ∈ regions, Covers mem q) ↔ start ≤ q ∧ q < stop := by
  induction image with
  | empty =>
      simp only [List.not_mem_nil, false_and, exists_false, false_iff]
      omega
  | region type frame num before some_page not_null fresh now ih =>
      have le := before.le
      simp only [List.mem_append, List.mem_singleton, or_and_right, exists_or, ih, exists_eq_left,
        covers_new]
      omega

/-- No two regions share a page. -/
theorem disjoint (image : Image s₀ start stop regions s) :
    regions.Pairwise fun mem other => ∀ q, ¬ (Covers mem q ∧ Covers other q) := by
  induction image with
  | empty => exact .nil
  | region type frame num before some_page not_null fresh now ih =>
      apply List.pairwise_append.mpr ⟨ih, List.pairwise_singleton .., ?_⟩
      intro mem at_mem other at_other q both
      rw [List.mem_singleton.mp at_other, covers_new] at both
      have inside := before.covered.mp ⟨mem, at_mem, both.1⟩
      omega

theorem page_outside (image : Image s₀ start stop regions s) (off : q < start ∨ stop ≤ q) :
    s.page q = s₀.page q := by
  induction image with
  | empty => rfl
  | region type frame num before some_page not_null fresh now ih =>
      have le := before.le
      rw [now.1]
      exact (overlay_outside (by omega)).trans (ih (by omega))

/-- The pages of the image stand for the frames of the regions. -/
theorem page_inside (image : Image s₀ start stop regions s) (low : start ≤ q) (high : q < stop) :
    ∃ f, s.page q = some f ∧ 0 < f ∧ ∃ mem ∈ regions, Holds mem f := by
  induction image with
  | empty => omega
  | @region stop regions s s' type frame num before some_page not_null fresh now ih =>
      rw [now.1]
      by_cases new : stop ≤ q
      · refine ⟨frame + (q - stop), overlay_inside new high, by omega, _,
          List.mem_append_right _ (List.mem_singleton_self _), holds_new.mpr ?_⟩
        omega
      · obtain ⟨f, here, pos, mem, at_mem, holds⟩ := ih (by omega)
        refine ⟨f, ?_, pos, mem, List.mem_append_left _ at_mem, holds⟩
        exact (overlay_outside (by omega)).trans here

theorem used (image : Image s₀ start stop regions s) :
    s.used f = true ↔ s₀.used f = true ∨ ∃ mem ∈ regions, Holds mem f := by
  induction image with
  | empty => simp
  | region type frame num before some_page not_null fresh now ih =>
      rw [now.2.1]
      simp only [Space.placed, grown, Bool.or_eq_true, Bool.and_eq_true, decide_eq_true_eq, ih,
        List.mem_append, List.mem_singleton, or_and_right, exists_or, exists_eq_left, holds_new,
        or_assoc]

/-- The frames of the regions were free. -/
theorem unused (image : Image s₀ start stop regions s) (at_mem : mem ∈ regions)
    (holds : Holds mem f) : s₀.used f = false := by
  induction image with
  | empty => cases at_mem
  | @region stop regions s s' type frame num before some_page not_null fresh now ih =>
      rcases List.mem_append.mp at_mem with old | new
      · exact ih old
      · rw [List.mem_singleton.mp new, holds_new] at holds
        have free := fresh (f - frame) (by omega)
        rw [Nat.add_sub_cancel' holds.1] at free
        apply Bool.eq_false_iff.mpr
        intro taken
        rw [before.used.mpr (.inl taken)] at free
        cases free

/-- No two pages of the image stand for one frame. -/
theorem injective (image : Image s₀ start stop regions s) {q' : Nat} (low : start ≤ q)
    (high : q < stop) (low' : start ≤ q') (high' : q' < stop) (same : s.page q = s.page q') :
    q = q' := by
  induction image with
  | empty => omega
  | @region stop regions s s' type frame num before some_page not_null fresh now ih =>
      have apart {q q' : Nat} (low : start ≤ q) (old : q < stop) (new : stop ≤ q')
          (high : q' < stop + num) (same : s'.page q = s'.page q') : False := by
        obtain ⟨f, here, -, mem, at_mem, holds⟩ := before.page_inside low old
        rw [now.1] at same
        have at_q : ((grown s).placed stop frame num).page q = some f :=
          (overlay_outside (.inl old)).trans here
        have at_q' : ((grown s).placed stop frame num).page q' = some (frame + (q' - stop)) :=
          overlay_inside new high
        rw [at_q, at_q'] at same
        cases same
        have free := fresh (q' - stop) (by omega)
        rw [before.used.mpr (.inr ⟨mem, at_mem, holds⟩)] at free
        cases free
      by_cases old : q < stop
      · by_cases old' : q' < stop
        · rw [now.1] at same
          apply ih old old'
          have at_q : ((grown s).placed stop frame num).page q = s.page q :=
            overlay_outside (.inl old)
          have at_q' : ((grown s).placed stop frame num).page q' = s.page q' :=
            overlay_outside (.inl old')
          rwa [at_q, at_q'] at same
        · exact (apart low old (Nat.not_lt.mp old') high' same).elim
      · by_cases old' : q' < stop
        · exact (apart low' old' (Nat.not_lt.mp old) high same.symm).elim
        · rw [now.1] at same
          have at_q : ((grown s).placed stop frame num).page q = some (frame + (q - stop)) :=
            overlay_inside (Nat.not_lt.mp old) high
          have at_q' : ((grown s).placed stop frame num).page q' = some (frame + (q' - stop)) :=
            overlay_inside (Nat.not_lt.mp old') high'
          rw [at_q, at_q'] at same
          have same := Option.some.inj same
          omega

/-- No two addresses of the image share a byte. -/
theorem own (image : Image s₀ start stop regions s) {a b : Nat} (low : start ≤ a / pageSize)
    (high : a / pageSize < stop) (low' : start ≤ b / pageSize) (high' : b / pageSize < stop)
    (same : s.physical a = s.physical b) : a = b := by
  obtain ⟨f, at_a, -⟩ := image.page_inside low high
  obtain ⟨g, at_b, -⟩ := image.page_inside low' high'
  unfold Space.physical at same
  rw [at_a, at_b] at same
  have same : f * pageSize + a % pageSize = g * pageSize + b % pageSize := Option.some.inj same
  unfold pageSize at *
  have frames : f = g := by omega
  have pages := image.injective low high low' high' (at_a.trans (frames ▸ at_b.symm))
  omega

/-- The frames of the regions are not the first one. -/
theorem holds_pos (image : Image s₀ start stop regions s) (at_mem : mem ∈ regions)
    (holds : Holds mem f) : 0 < f := by
  induction image with
  | empty => cases at_mem
  | region type frame num before some_page not_null fresh now ih =>
      rcases List.mem_append.mp at_mem with old | new
      · exact ih old
      · rw [List.mem_singleton.mp new, holds_new] at holds
        omega

theorem freed (image : Image s₀ start stop regions s) : s.freed = s₀.freed := by
  induction image with
  | empty => rfl
  | region type frame num before some_page not_null fresh now ih => exact now.2.2.1.trans ih

/-- Nothing is loaded yet. -/
theorem nil (image : Image s₀ start stop [] s) : start = stop ∧ s = s₀ := by
  generalize none : ([] : List Region) = regions at image
  cases image with
  | empty => exact ⟨rfl, rfl⟩
  | region => exact absurd none.symm (List.append_ne_nil_of_right_ne_nil _ (List.cons_ne_nil _ _))

/-- One region lies on the space as it was. -/
theorem singleton (image : Image s₀ start stop [mem] s) :
    ∃ frame num, 0 < num ∧ 0 < frame ∧ stop = start + num ∧ mem.vaddr = start * pageSize ∧
      mem.paddr = frame * pageSize ∧ mem.num = num ∧
      (∀ k, k < num → s₀.used (frame + k) = false) ∧
      Space.SameButData ((grown s₀).placed start frame num) s := by
  generalize one : [mem] = regions at image
  cases image with
  | empty => cases one
  | @region stop before s _ type frame num image some_page not_null fresh now =>
      obtain ⟨rfl, last⟩ := List.append_eq_singleton_iff.mp one.symm |>.resolve_right (by simp)
      obtain ⟨rfl, rfl⟩ := image.nil
      cases last
      exact ⟨frame, num, some_page, not_null, rfl, rfl, rfl, rfl, fresh, now⟩

theorem some_page (image : Image s₀ start stop regions s) (at_mem : mem ∈ regions) : 0 < mem.num := by
  induction image with
  | empty => cases at_mem
  | region type frame num before some_page not_null fresh now ih =>
      rcases List.mem_append.mp at_mem with old | new
      · exact ih old
      · rw [List.mem_singleton.mp new]
        exact some_page

theorem regions_eq (image : Image s₀ start stop regions s) :
    s.regions = s₀.regions + regions.length := by
  induction image with
  | empty => rfl
  | region type frame num before some_page not_null fresh now ih =>
      rw [now.2.2.2, List.length_append, List.length_singleton, ← Nat.add_assoc, ← ih]
      rfl

end Image

/-! ## Runs -/

/-- In front of a segment: nothing is loaded yet, or the image ends at the page `at_page`. -/
def Begun (s₀ : Space) (at_page : Nat) (st : ElfLoad) : Prop :=
  st.pos = at_page * pageSize ∧
    ((at_page = 0 ∧ st.mem = [] ∧ st.space = s₀) ∨
      (0 < at_page ∧ ∃ start, 0 < start ∧ Image s₀ start at_page st.mem st.space))

theorem begun_empty {s₀ : Space} : Begun s₀ 0 ⟨0, [], 0, s₀⟩ :=
  ⟨rfl, .inl ⟨rfl, rfl, rfl⟩⟩

namespace Begun

variable {s₀ : Space} {at_page page frame : Nat} {st : ElfLoad}

/-- Where the next segment goes the image can go on. -/
theorem image (begun : Begun s₀ at_page st)
    (found : st.space.place at_page (elfPages ph) = some page) (not_null : page ≠ 0) :
    ∃ start, 0 < start ∧ Image s₀ start page st.mem st.space := by
  obtain ⟨-, ⟨rfl, empty, same⟩ | ⟨pos, start, start_pos, image⟩⟩ := begun
  · rw [empty, same]
    exact ⟨page, Nat.pos_of_ne_zero not_null, .empty⟩
  · obtain ⟨-, ⟨first, -⟩ | ⟨rfl, -⟩⟩ := Space.place_spec found elfPages_pos not_null
    · omega
    · exact ⟨start, start_pos, image⟩

theorem mapped (begun : Begun s₀ at_page st)
    (found : st.space.place at_page (elfPages ph) = some page) (not_null : page ≠ 0)
    (got : env.pmmAlloc st.space.used (elfPages ph) = some frame)
    (same : Space.SameButData (elfMapped st ph page frame).space s') :
    ∃ start, 0 < start ∧
      Image s₀ start (page + elfPages ph) (st.mem ++ [elfRegion ph page frame]) s' := by
  obtain ⟨start, pos, image⟩ := begun.image found not_null
  obtain ⟨frame_pos, fresh⟩ := env.pmmAlloc_free _ _ _ got
  exact ⟨start, pos, .region _ _ _ image elfPages_pos frame_pos fresh same⟩

theorem next {entry : Nat} (begun : Begun s₀ at_page st)
    (found : st.space.place at_page (elfPages ph) = some page) (not_null : page ≠ 0)
    (got : env.pmmAlloc st.space.used (elfPages ph) = some frame)
    (same : Space.SameButData (elfMapped st ph page frame).space s') :
    Begun s₀ (page + elfPages ph)
      ⟨entry, st.mem ++ [elfRegion ph page frame], (page + elfPages ph) * pageSize, s'⟩ := by
  obtain ⟨start, pos, image⟩ := begun.mapped found not_null got same
  exact ⟨rfl, .inr ⟨by omega, start, pos, image⟩⟩

/-- A place behind the image is a place there was before. -/
theorem place {num : Nat} (begun : Begun s₀ at_page st) :
    st.space.place at_page num = s₀.place at_page num := by
  obtain ⟨-, ⟨-, -, same⟩ | ⟨pos, -⟩⟩ := begun
  · rw [same]
  · have given : at_page ≠ 0 := by omega
    simp only [Space.place, given, if_false]

end Begun

/-- The load ended with a region that was made and not mapped. -/
def ElfExit.Leaks : ElfExit → Prop
  | .endless | .notMapped _ => True
  | _ => False

/-- How a load ends: with an image, and with the object of a region that could not be mapped. -/
def Ended (s₀ : Space) : Except (ElfExit × ElfLoad) ElfLoad → Prop
  | .ok st => ∃ at_page, Begun s₀ at_page st
  | .error (exit, st) => ∃ start stop space, Image s₀ start stop st.mem space ∧
      (exit.Leaks ∧ st.space = grown space ∨ ¬ exit.Leaks ∧ st.space = space)

theorem Begun.ended {s₀ : Space} {at_page : Nat} {st : ElfLoad} (begun : Begun s₀ at_page st) :
    ∃ start stop, Image s₀ start stop st.mem st.space := by
  obtain ⟨-, ⟨-, empty, same⟩ | ⟨-, start, -, image⟩⟩ := begun
  · rw [empty, same]
    exact ⟨0, 0, .empty⟩
  · exact ⟨start, at_page, image⟩

/-- One segment keeps the image or ends the load. -/
theorem elfLoadSegment_ended {s₀ : Space} {at_page : Nat} {st : ElfLoad}
    (begun : Begun s₀ at_page st) : Ended s₀ (elfLoadSegment env file header st ph) := by
  have segment := @elfLoadSegment_segment env file header ph st at_page begun.1
  generalize elfLoadSegment env file header st ph = result at segment
  cases segment with
  | noRegion heap =>
      obtain ⟨start, stop, image⟩ := begun.ended
      exact ⟨start, stop, _, image, .inr ⟨id, rfl⟩⟩
  | endless heap nowhere =>
      obtain ⟨start, stop, image⟩ := begun.ended
      exact ⟨start, stop, _, image, .inl ⟨trivial, rfl⟩⟩
  | notMapped page heap found failed =>
      obtain ⟨start, stop, image⟩ := begun.ended
      exact ⟨start, stop, _, image, .inl ⟨trivial, rfl⟩⟩
  | notFilled page frame exit heap found not_null got failed =>
      obtain ⟨start, -, image⟩ := begun.mapped found not_null got ⟨rfl, rfl, rfl, rfl⟩
      refine ⟨start, _, _, image, .inr ⟨?_, rfl⟩⟩
      obtain rfl | rfl := elfFillSegment_error failed <;> exact id
  | loaded page frame space heap found not_null got filled =>
      exact ⟨_, begun.next found not_null got (elfFillSegment_same filled)⟩

/-- However far the load gets, what it leaves is an image. -/
theorem elfRun_ended {s₀ : Space} {phs : List ElfProgramHeader} {at_page : Nat} {st : ElfLoad}
    (begun : Begun s₀ at_page st) : Ended s₀ (elfRun env file header phs st) := by
  induction phs generalizing at_page st with
  | nil => exact ⟨at_page, begun⟩
  | cons ph phs ih =>
      have first := @elfLoadSegment_ended env file header ph s₀ at_page st begun
      rw [elfRun]
      cases step : elfLoadSegment env file header st ph with
      | error e =>
          rw [step] at first
          exact first
      | ok st =>
          rw [step] at first
          obtain ⟨at_page, begun⟩ := first
          exact ih begun

theorem Ended.image {s₀ : Space} {result : Except (ElfExit × ElfLoad) ElfLoad}
    (ended : Ended s₀ result) (err : Int) : ∃ start stop space,
      Image s₀ start stop (elfEnd err result).2.mem space ∧
        ((elfEnd err result).1.Leaks ∧ (elfEnd err result).2.space = grown space ∨
          ¬ (elfEnd err result).1.Leaks ∧ (elfEnd err result).2.space = space) := by
  cases result with
  | error e => exact ended
  | ok st =>
      obtain ⟨at_page, begun⟩ := ended
      obtain ⟨start, stop, image⟩ := begun.ended
      exact ⟨start, stop, _, image, .inr ⟨id, rfl⟩⟩

/-- Regions stay in the list. -/
theorem elfRun_mem {phs : List ElfProgramHeader} {at_page : Nat} {st : ElfLoad}
    (pos : st.pos = at_page * pageSize) (err : Int) :
    st.mem <+: (elfEnd err (elfRun env file header phs st)).2.mem := by
  induction phs generalizing at_page st with
  | nil => exact List.prefix_refl st.mem
  | cons ph phs ih =>
      have segment := @elfLoadSegment_segment env file header ph st at_page pos
      rw [elfRun]
      generalize elfLoadSegment env file header st ph = result at segment
      cases segment with
      | noRegion | endless | notMapped => exact List.prefix_refl st.mem
      | notFilled page frame => exact List.prefix_append st.mem _
      | loaded page frame space =>
          apply (List.prefix_append st.mem [elfRegion ph page frame]).trans
          exact @ih _ ⟨_, _, _, space⟩ rfl

theorem elfOutcome_image {m : Bytes.Memory} : ∃ start stop space,
    Image s start stop (elfOutcome env file m s).2.mem space ∧
      ((elfOutcome env file m s).1.Leaks ∧ (elfOutcome env file m s).2.space = grown space ∨
        ¬ (elfOutcome env file m s).1.Leaks ∧ (elfOutcome env file m s).2.space = space) :=
  (elfRun_ended begun_empty).image _

end

end Sdx.Fs
