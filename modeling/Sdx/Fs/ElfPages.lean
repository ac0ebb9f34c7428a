import Sdx.Fs.ElfFits

/-! # The pages of an image

Only the place of the first segment is searched for. The regions of the others are mapped behind
it with `VMM_ATTR_REUSE`, so they take pages that are mapped already. The regions never take pages
from each other.
-/

namespace Sdx.Fs

open Sdx.Lib Sdx.Mm

/-- No page of the regions was mapped before, and no two regions share a page. -/
def PagesOwn (s : Space) (regions : List Region) : Prop :=
  (∀ mem ∈ regions, ∀ q, Covers mem q → s.page q = none) ∧
    regions.Pairwise fun mem other => ∀ q, ¬ (Covers mem q ∧ Covers other q)

/-- The segments find nothing mapped in their places, up to one that has no place, cannot be read
    or faults. -/
def FreeBehind (file : FsFile) (s : Space) : Nat → List ElfProgramHeader → Prop
  | _, [] => True
  | at_page, ph :: phs => ∀ page, s.place at_page (elfPages ph) = some page → page ≠ 0 →
      (∀ i, i < elfPages ph → s.page (page + i) = none) ∧
        (Readable file ph → NoFault file s page ph →
          FreeBehind file s (page + elfPages ph) phs)

section

variable {env : SpaceEnv} {file : FsFile} {header : ElfHeader} {ph : ElfProgramHeader}
  {phs : List ElfProgramHeader} {s s' s₀ : Space} {page at_page : Nat} {st st' : ElfLoad}

/-- Only the pages of the space count. -/
theorem freeBehind_congr (same : s'.page = s.page) :
    FreeBehind file s' at_page phs ↔ FreeBehind file s at_page phs := by
  induction phs generalizing at_page with
  | nil => exact Iff.rfl
  | cons ph phs ih =>
      unfold FreeBehind NoFault
      simp only [Space.place_congr same, same, ih]

/-- Where nothing is mapped behind the image, the load takes free pages only. -/
theorem elfRun_own (err : Int) (begun : Begun s₀ at_page st)
    (own : ∀ mem ∈ st.mem, ∀ q, Covers mem q → s₀.page q = none)
    (free : FreeBehind file s₀ at_page phs) :
    ∀ mem ∈ (elfEnd err (elfRun env file header phs st)).2.mem, ∀ q, Covers mem q →
      s₀.page q = none := by
  induction phs generalizing at_page st with
  | nil => exact own
  | cons ph phs ih =>
      have segment := @elfLoadSegment_segment env file header ph st at_page begun.1
      have grows {page frame : Nat} (found : st.space.place at_page (elfPages ph) = some page)
          (not_null : page ≠ 0) : ∀ mem ∈ st.mem ++ [elfRegion ph page frame],
            ∀ q, Covers mem q → s₀.page q = none := by
        intro mem at_mem q covers
        rcases List.mem_append.mp at_mem with old | new
        · exact own mem old q covers
        · rw [List.mem_singleton.mp new] at covers
          have inside := Image.covers_new.mp covers
          have unused := (free page (begun.place ▸ found) not_null).1 (q - page) (by omega)
          rwa [Nat.add_sub_cancel' inside.1] at unused
      rw [elfRun]
      generalize elfLoadSegment env file header st ph = result at segment
      cases segment with
      | noRegion | endless | notMapped => exact own
      | notFilled page frame exit heap found not_null => exact grows found not_null
      | loaded page frame space heap found not_null got filled =>
          have noFault := begun.noFault found not_null filled
          exact @ih _ ⟨_, _, _, space⟩ (begun.next found not_null got (elfFillSegment_same filled))
            (grows found not_null)
            ((free page (begun.place ▸ found) not_null).2 (elfFillSegment_ok filled).1 noFault)

/-- Where memory does not run out, a load that takes free pages only found nothing mapped behind
    its image. -/
theorem elfRun_free (plenty : Plentiful env) (bounded : Bounded s₀) (err : Int)
    (begun : Begun s₀ at_page st) (small : ∀ ph ∈ phs, ph.memsz < 2 ^ 64)
    (own : ∀ mem ∈ (elfEnd err (elfRun env file header phs st)).2.mem, ∀ q, Covers mem q →
      s₀.page q = none) : FreeBehind file s₀ at_page phs := by
  induction phs generalizing at_page st with
  | nil => trivial
  | cons ph phs ih =>
      intro page at_place not_null
      have found := begun.place.trans at_place
      obtain ⟨frame, got, mapped⟩ := @elfLoadSegment_maps env file header ph s₀ page at_page st
        plenty bounded begun found not_null
      have region_own {st' : ElfLoad} (grows : (st.mem ++ [elfRegion ph page frame]) <+: st'.mem)
          (own : ∀ mem ∈ st'.mem, ∀ q, Covers mem q → s₀.page q = none) (i : Nat)
          (lt : i < elfPages ph) : s₀.page (page + i) = none := by
        apply own (elfRegion ph page frame)
        · exact grows.subset (List.mem_append_right _ (List.mem_singleton_self _))
        · exact Image.covers_new.mpr ⟨Nat.le_add_right page i, by omega⟩
      rw [elfRun, mapped] at own
      cases filled : elfFillSegment file (elfMapped st ph page frame).space (page * pageSize) ph with
      | error exit =>
          rw [filled] at own
          refine ⟨region_own (List.prefix_refl _) own, fun readable noFault => ?_⟩
          obtain ⟨space, filled'⟩ :=
            begun.fills found not_null readable (small ph List.mem_cons_self) noFault frame
          rw [filled'] at filled
          cases filled
      | ok space =>
          rw [filled] at own
          refine ⟨region_own (@elfRun_mem env file header phs _ ⟨_, _, _, space⟩ rfl err) own,
            fun _ _ => ?_⟩
          exact ih (begun.next found not_null got (elfFillSegment_same filled))
            (fun ph at_ph => small ph (List.mem_cons_of_mem _ at_ph)) own

/-! ## The pages `elf_load` takes -/

/-- The regions of an image never share a page. -/
theorem elfImage_disjoint {m : Bytes.Memory} : (elfImage env file m s).Pairwise
    fun mem other => ∀ q, ¬ (Covers mem q ∧ Covers other q) := by
  unfold elfImage
  by_cases passes : HeaderPasses file
  · obtain ⟨start, stop, space, image, -⟩ := @elfOutcome_image env file s m
    rw [elfLoad_passed passes]
    exact image.disjoint
  · obtain ⟨code, -, rejected⟩ := elfLoad_rejected passes
    rw [rejected]
    exact .nil

/-- A file is loaded to free pages, whatever memory there is, just when nothing is mapped where its
    segments go, the first one to a free range and the others behind it. -/
theorem pagesOwn_iff_freeBehind (file : FsFile) (m : Bytes.Memory) (s₀ : Space) :
    (∀ env s, s.page = s₀.page → PagesOwn s (elfImage env file m s)) ↔
      (HeaderPasses file → FreeBehind file s₀ 0 (elfFileSegments file m).1) := by
  constructor
  · intro own passes
    let s : Space := { s₀ with used := fun _ => false }
    have own := (own plentyOfMemory s rfl).1
    unfold elfImage at own
    rw [elfLoad_passed passes] at own
    have same : s.page = s₀.page := rfl
    apply (freeBehind_congr same).mp
    exact elfRun_free plentyOfMemory_plentiful ⟨0, fun _ _ => rfl⟩ _ begun_empty
      (fun ph => elfSegments_small) own
  · intro free env s same
    refine ⟨?_, elfImage_disjoint⟩
    unfold elfImage
    by_cases passes : HeaderPasses file
    · rw [elfLoad_passed passes]
      exact elfRun_own _ begun_empty nofun ((freeBehind_congr same).mpr (free passes))
    · obtain ⟨code, -, rejected⟩ := elfLoad_rejected passes
      rw [rejected]
      exact nofun

end

/-- Two segments of a page each. -/
def twoPageFile : FsFile :=
  ⟨elfFileBytes elfMagic 1 [zeroSegment 0 2, zeroSegment 4096 1], by decide +kernel,
    fun _ _ => none, noError_neg⟩

/-- A space in which the second page that may be used is mapped. -/
def holeSpace : Space :=
  ⟨fun q => if q = 2 then some 9 else none, fun _ => 0, fun f => f = 9, fun _ => 0, 0⟩

/-- Behind a hole of one page the second segment takes a page that is mapped. -/
theorem not_pagesOwn : ¬ ∀ (env : SpaceEnv) (file : FsFile) (m : Bytes.Memory) (s : Space),
    PagesOwn s (elfImage env file m s) := by
  intro always
  have own := (always plentyOfMemory twoPageFile (fun _ => 0) holeSpace).1
  have passes : HeaderPasses twoPageFile := by decide
  have segments : elfFileSegments twoPageFile (fun _ => 0) =
      ([zeroSegment 0 2, zeroSegment 4096 1], 0) := by decide
  unfold elfImage at own
  rw [elfLoad_passed passes, elfOutcome, segments] at own
  have bounded : Bounded holeSpace := by
    refine ⟨10, fun f le => decide_eq_false ?_⟩
    omega
  have free := elfRun_free plentyOfMemory_plentiful bounded 0 begun_empty (by decide) own
  have first : holeSpace.place 0 (elfPages (zeroSegment 0 2)) = some 1 := by
    rw [Space.place_zero]
    apply Space.findContiguous_first Nat.one_pos elfPages_pos (by decide)
    · intro q low high
      omega
    · intro i lt
      have pages : elfPages (zeroSegment 0 2) = 1 := by decide
      exact if_neg (by omega)
  have second : holeSpace.place 2 (elfPages (zeroSegment 4096 1)) = some 2 := by
    decide
  have later := (free 1 first (by decide)).2 (.inl rfl) nofun
  have taken := (later 2 second (by decide)).1 0 elfPages_pos
  cases taken

end Sdx.Fs
