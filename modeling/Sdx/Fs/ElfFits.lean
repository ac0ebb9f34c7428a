import Sdx.Fs.ElfLoad

/-! # Loads that succeed

Where memory does not run out, a segment is loaded when there is a place for it, its contents can
be read and no byte of it falls on a page that is not mapped. The segments then lie one behind the
other, and the entry follows from where they lie.
-/

namespace Sdx.Fs

open Sdx.Lib Sdx.Mm

section

variable {env : SpaceEnv} {file : FsFile} {header : ElfHeader} {ph : ElfProgramHeader}
  {phs : List ElfProgramHeader} {s s' s₀ : Space} {page at_page : Nat} {st st' : ElfLoad}

/-! ## The layout -/

/-- The segments with the pages they start at. -/
def elfLayout : Nat → List ElfProgramHeader → List (Nat × ElfProgramHeader)
  | _, [] => []
  | page, ph :: phs => (page, ph) :: elfLayout (page + elfPages ph) phs

/-- The entry of segments in their places. -/
def elfEntry (header : ElfHeader) (entry : Nat) (layout : List (Nat × ElfProgramHeader)) : Nat :=
  layout.foldl (fun entry p => elfEntryAfter header p.2 (p.1 * pageSize) entry) entry

/-- The first step of a load that succeeds, and the rest of it. -/
theorem elfRun_cons_ok (pos : st.pos = at_page * pageSize)
    (done : elfRun env file header (ph :: phs) st = .ok st') : ∃ page frame space,
      st.space.place at_page (elfPages ph) = some page ∧ page ≠ 0 ∧
      env.pmmAlloc st.space.used (elfPages ph) = some frame ∧
      elfFillSegment file (elfMapped st ph page frame).space (page * pageSize) ph = .ok space ∧
      elfRun env file header phs
        ⟨elfEntryAfter header ph (page * pageSize) st.entry, st.mem ++ [elfRegion ph page frame],
          (page + elfPages ph) * pageSize, space⟩ = .ok st' := by
  have segment := @elfLoadSegment_segment env file header ph st at_page pos
  rw [elfRun] at done
  generalize elfLoadSegment env file header st ph = result at segment done
  cases segment with
  | noRegion | endless | notMapped | notFilled => cases done
  | loaded page frame space heap found not_null got filled =>
      exact ⟨page, frame, space, found, not_null, got, filled, done⟩

/-- Behind the image there is no choice. -/
theorem place_given {num : Nat} (found : s.place at_page num = some page) (some_page : 0 < num)
    (not_null : page ≠ 0) (given : at_page ≠ 0) : page = at_page ∧ Space.Room at_page num := by
  obtain ⟨-, ⟨first, -⟩ | ⟨rfl, room⟩⟩ := Space.place_spec found some_page not_null
  · exact absurd first given
  · exact ⟨rfl, room⟩

theorem elfRun_entry (pos : st.pos = at_page * pageSize) (given : at_page ≠ 0)
    (done : elfRun env file header phs st = .ok st') :
    st'.entry = elfEntry header st.entry (elfLayout at_page phs) := by
  induction phs generalizing at_page st with
  | nil =>
      cases done
      rfl
  | cons ph phs ih =>
      obtain ⟨page, frame, space, found, not_null, -, -, rest⟩ := elfRun_cons_ok pos done
      obtain ⟨rfl, -⟩ := place_given found elfPages_pos not_null given
      exact ih rfl (by omega) rest

/-- A load that succeeds: the place the first segment got, and the entry. -/
theorem elfRun_ok (done : elfRun env file header (ph :: phs) ⟨0, [], 0, s⟩ = .ok st') :
    ∃ page, s.place 0 (elfPages ph) = some page ∧ page ≠ 0 ∧
      st'.entry = elfEntry header 0 (elfLayout page (ph :: phs)) := by
  obtain ⟨page, frame, space, found, not_null, -, -, rest⟩ := elfRun_cons_ok begun_empty.1 done
  exact ⟨page, found, not_null, elfRun_entry rfl (by omega) rest⟩

theorem elfRun_regions (pos : st.pos = at_page * pageSize)
    (done : elfRun env file header phs st = .ok st') :
    st'.mem.length = st.mem.length + phs.length := by
  induction phs generalizing at_page st with
  | nil =>
      cases done
      rfl
  | cons ph phs ih =>
      obtain ⟨page, frame, space, -, -, -, -, rest⟩ := elfRun_cons_ok pos done
      rw [ih rfl rest]
      simp only [List.length_append, List.length_cons, List.length_nil]
      omega

/-! ## Where memory does not run out -/

/-- There is memory for every region object, and frames as long as not all are taken. -/
structure Plentiful (env : SpaceEnv) : Prop where
  heap : ∀ regions, env.heapAlloc regions = true
  frames : ∀ used num, (∃ bound, ∀ f, bound ≤ f → used f = false) → env.pmmAlloc used num ≠ none

open Classical in
/-- Memory that does not run out. -/
noncomputable def plentyOfMemory : SpaceEnv where
  pmmAlloc used num :=
    if free : ∃ frame, 0 < frame ∧ ∀ k, k < num → used (frame + k) = false
    then some free.choose else none
  pmmAlloc_free := by
    intro used num frame got
    split at got
    · next free =>
        cases got
        exact free.choose_spec
    · cases got
  heapAlloc _ := true

theorem plentyOfMemory_plentiful : Plentiful plentyOfMemory where
  heap _ := rfl
  frames := by
    intro used num ⟨bound, free⟩
    have found : ∃ frame, 0 < frame ∧ ∀ k, k < num → used (frame + k) = false :=
      ⟨bound + 1, Nat.succ_pos bound, fun k _ => free _ (by omega)⟩
    simp only [plentyOfMemory, found, dif_pos]
    exact Option.some_ne_none _

/-- Not all frames are taken. -/
def Bounded (s : Space) : Prop := ∃ bound, ∀ f, bound ≤ f → s.used f = false

theorem noFault_congr (same : ∀ q, page + elfPages ph ≤ q → s'.page q = s.page q) :
    NoFault file s' page ph ↔ NoFault file s page ph := by
  apply forall_congr'
  intro i
  apply imp_congr_right
  intro lt
  apply imp_congr_right
  intro behind
  rw [same _ (by omega)]

theorem page_of_offset (page i : Nat) :
    (page * pageSize + i) / pageSize = page + i / pageSize := by
  rw [Nat.add_comm, Nat.add_mul_div_right _ _ (by decide : 0 < pageSize), Nat.add_comm]

theorem elfFillSegment_noFault (filled : elfFillSegment file s (page * pageSize) ph = .ok s') :
    NoFault file s page ph := by
  intro i lt _
  obtain ⟨-, between, first, -⟩ := elfFillSegment_ok filled
  have mapped := Space.store_isSome.mp (Option.isSome_of_eq_some first) i lt
  rwa [page_of_offset] at mapped

theorem elfFillSegment_fills (readable : Readable file ph)
    (fits : ph.memsz ≤ elfPages ph * pageSize)
    (mapped : ∀ i, i < elfPages ph → (s.page (page + i)).isSome)
    (noFault : NoFault file s page ph) :
    ∃ s', elfFillSegment file s (page * pageSize) ph = .ok s' := by
  have first : (s.store (page * pageSize) (elfContents file ph)).isSome := by
    apply Space.store_isSome.mpr
    intro i lt
    rw [page_of_offset]
    by_cases inside : i / pageSize < elfPages ph
    · exact mapped _ inside
    · exact noFault i lt (Nat.not_lt.mp inside)
  obtain ⟨between, first⟩ := Option.isSome_iff_exists.mp first
  have second : (between.store (page * pageSize + ph.filesz) (elfZeros ph)).isSome := by
    apply Space.store_isSome.mpr
    intro i lt
    rw [(Space.store_same first).1, Nat.add_assoc, page_of_offset]
    rw [elfZeros, List.length_replicate] at lt
    apply mapped
    apply Nat.div_lt_of_lt_mul
    rw [Nat.mul_comm]
    omega
  obtain ⟨after, second⟩ := Option.isSome_iff_exists.mp second
  refine ⟨after, ?_⟩
  rw [elfFillSegment_read readable, first, Option.bind_some, second]

/-- In a state in front of a segment not all frames are taken. -/
theorem Image.bounded {start stop : Nat} {regions : List Region}
    (image : Image s₀ start stop regions s) (bounded : Bounded s₀) : Bounded s := by
  induction image with
  | empty => exact bounded
  | region type frame num before some_page not_null fresh now ih =>
      obtain ⟨bound, free⟩ := ih
      refine ⟨max bound (frame + num), fun f le => ?_⟩
      rw [now.2.1]
      have here := free f (by omega)
      simp only [Space.placed, grown, here, Bool.false_or, Bool.and_eq_false_iff,
        decide_eq_false_iff_not]
      omega

/-- A segment that has its place is mapped, and loaded if it can be filled. -/
theorem elfLoadSegment_maps (plenty : Plentiful env) (bounded : Bounded s₀)
    (begun : Begun s₀ at_page st) (found : st.space.place at_page (elfPages ph) = some page)
    (not_null : page ≠ 0) : ∃ frame, env.pmmAlloc st.space.used (elfPages ph) = some frame ∧
      elfLoadSegment env file header st ph =
        match elfFillSegment file (elfMapped st ph page frame).space (page * pageSize) ph with
        | .error exit => .error (exit, elfMapped st ph page frame)
        | .ok space => .ok
            ⟨elfEntryAfter header ph (page * pageSize) st.entry, st.mem ++ [elfRegion ph page frame],
              (page + elfPages ph) * pageSize, space⟩ := by
  obtain ⟨start, -, image⟩ := begun.image found not_null
  have frames := plenty.frames st.space.used (elfPages ph) (image.bounded bounded)
  have segment := @elfLoadSegment_segment env file header ph st at_page begun.1
  generalize elfLoadSegment env file header st ph = result at segment
  cases segment with
  | noRegion heap => exact absurd (plenty.heap _) (Bool.eq_false_iff.mp heap)
  | endless heap nowhere => exact absurd (found.symm.trans nowhere) (Option.some_ne_none page)
  | notMapped other heap found' failed =>
      cases found.symm.trans found'
      exact absurd (failed.resolve_left not_null) frames
  | notFilled other frame exit heap found' not_null' got failed =>
      cases found.symm.trans found'
      exact ⟨frame, got, by rw [failed]⟩
  | loaded other frame space heap found' not_null' got filled =>
      cases found.symm.trans found'
      exact ⟨frame, got, by rw [filled]⟩

/-- The pages of a segment are mapped for it, so it can be filled. -/
theorem elfMapped_fills (found : st.space.place at_page (elfPages ph) = some page)
    (not_null : page ≠ 0) (readable : Readable file ph) (small : ph.memsz < 2 ^ 64)
    (noFault : NoFault file st.space page ph) (frame : Nat) : ∃ space,
      elfFillSegment file (elfMapped st ph page frame).space (page * pageSize) ph = .ok space := by
  have below := (Space.place_spec found elfPages_pos not_null).1
  apply elfFillSegment_fills readable (elfPages_memsz small (by omega)).1
  · intro i lt
    exact Option.isSome_of_eq_some (overlay_inside (Nat.le_add_right page i) (by omega))
  · exact (noFault_congr fun q le => overlay_outside (.inr le)).mpr noFault

/-- A segment that was loaded does not fault where it was begun. -/
theorem Begun.noFault {frame : Nat} {space : Space} (begun : Begun s₀ at_page st)
    (found : st.space.place at_page (elfPages ph) = some page) (not_null : page ≠ 0)
    (filled : elfFillSegment file (elfMapped st ph page frame).space (page * pageSize) ph = .ok space) :
    NoFault file s₀ page ph := by
  obtain ⟨start, -, image⟩ := begun.image found not_null
  apply (noFault_congr fun q le => ?_).mp (elfFillSegment_noFault filled)
  exact (overlay_outside (.inr le)).trans (image.page_outside (.inr (Nat.le_of_add_right_le le)))

/-- A segment that has its place, can be read and does not fault where it was begun is loaded. -/
theorem Begun.fills (begun : Begun s₀ at_page st)
    (found : st.space.place at_page (elfPages ph) = some page) (not_null : page ≠ 0)
    (readable : Readable file ph) (small : ph.memsz < 2 ^ 64) (noFault : NoFault file s₀ page ph)
    (frame : Nat) : ∃ space,
      elfFillSegment file (elfMapped st ph page frame).space (page * pageSize) ph = .ok space := by
  obtain ⟨start, -, image⟩ := begun.image found not_null
  apply elfMapped_fills found not_null readable small
  apply (noFault_congr fun q le => ?_).mpr noFault
  exact image.page_outside (.inr (Nat.le_of_add_right_le le))

/-- The segments have their places one behind the other, can be read and do not fault. -/
def Fits (file : FsFile) (s : Space) : Nat → List ElfProgramHeader → Prop
  | _, [] => True
  | at_page, ph :: phs => ∃ page, s.place at_page (elfPages ph) = some page ∧ page ≠ 0 ∧
      Readable file ph ∧ NoFault file s page ph ∧ Fits file s (page + elfPages ph) phs

theorem elfRun_loads (plenty : Plentiful env) (bounded : Bounded s₀) (begun : Begun s₀ at_page st)
    (small : ∀ ph ∈ phs, ph.memsz < 2 ^ 64) (fits : Fits file s₀ at_page phs) :
    ∃ st', elfRun env file header phs st = .ok st' := by
  induction phs generalizing at_page st with
  | nil => exact ⟨st, rfl⟩
  | cons ph phs ih =>
      obtain ⟨page, found, not_null, readable, noFault, fits⟩ := fits
      rw [← begun.place] at found
      obtain ⟨frame, got, loaded⟩ := @elfLoadSegment_maps env file header ph s₀ page at_page st
        plenty bounded begun found not_null
      obtain ⟨space, filled⟩ :=
        begun.fills found not_null readable (small ph List.mem_cons_self) noFault frame
      rw [filled] at loaded
      rw [elfRun, loaded]
      exact ih (begun.next found not_null got (elfFillSegment_same filled))
        (fun ph at_ph => small ph (List.mem_cons_of_mem _ at_ph)) fits

end

/-! ## Small files -/

/-- The bytes of a program header. -/
def elfPhBytes (ph : ElfProgramHeader) : List UInt8 :=
  Bytes.encode 4 ph.type ++ Bytes.encode 4 ph.flags ++ Bytes.encode 8 ph.offset ++
    Bytes.encode 8 ph.vaddr ++ Bytes.encode 8 0 ++ Bytes.encode 8 ph.filesz ++
    Bytes.encode 8 ph.memsz ++ Bytes.encode 8 0

/-- These first bytes, then an ELF header without them and program headers. -/
def elfFileBytes (magic : List UInt8) (entry : Nat) (phs : List ElfProgramHeader) : List UInt8 :=
  magic ++ [elfClass64, elfData2Lsb, elfVersionCurrent] ++ List.replicate 9 0 ++
    Bytes.encode 2 elfTypeDyn ++ Bytes.encode 2 elfMachineX86_64 ++ Bytes.encode 4 1 ++
    Bytes.encode 8 entry ++ Bytes.encode 8 elfHeaderSize ++ List.replicate 14 0 ++
    Bytes.encode 2 elfProgramHeaderSize ++ Bytes.encode 2 phs.length ++ List.replicate 6 0 ++
    phs.flatMap elfPhBytes

/-- A segment without contents in the file. -/
def zeroSegment (vaddr memsz : Nat) : ElfProgramHeader := ⟨elfPhTypeLoad, 5, 0, vaddr, 0, memsz⟩

/-- A space in which only a range of pages is not mapped, and all bytes of memory are the same. -/
def onlyHole (page num : Nat) (byte : UInt8) : Space :=
  ⟨fun q => if page ≤ q ∧ q < page + num then none else some 0, fun _ => byte, fun _ => false,
    fun _ => 0, 0⟩

/-- A space in which nothing is mapped. -/
def emptySpace : Space := ⟨fun _ => none, fun _ => 0, fun _ => false, fun _ => 0, 0⟩

theorem emptySpace_bounded : Bounded emptySpace := ⟨0, fun _ _ => rfl⟩

theorem emptySpace_place {num : Nat} (some_page : 0 < num) (few : num < 2 ^ 37) :
    emptySpace.place 0 num = some 1 := by
  have first : emptySpace.findContiguous num vmmAttrUser = some 1 :=
    Space.findContiguous_first (Nat.one_pos) some_page (by omega) (fun q low high => by omega)
      fun _ _ => rfl
  rw [Space.place_zero, first]

end Sdx.Fs
