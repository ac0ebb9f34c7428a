import Sdx.Fs.ElfFits

/-! # Loads that fail (`fs/fmt/fmt.c`)

`fmt_free` is meant to take back what a loader has mapped. It unmaps the first region of the image
once for each region of it, so what is mapped for the others stays, while the frames of all of
them are freed. A region that could not be mapped is not in the list and its object is lost.
-/

namespace Sdx.Fs

open Sdx.Lib Sdx.Mm

/-- The pages the loader maps were not mapped before. -/
def PagesFresh (env : SpaceEnv) (file : FsFile) (m : Bytes.Memory) (s : Space) : Prop :=
  ∀ mem ∈ elfImage env file m s, ∀ q, Covers mem q → s.page q = none

/-- The space is as it was: addresses lead where they led, the pages of the image are not mapped,
    each of its frames was given back once, and no region object is left. -/
structure LoadUndone (s s' : Space) (image : List Region) : Prop where
  resolve : ∀ vaddr, s'.resolve vaddr = s.resolve vaddr
  unmapped : ∀ mem ∈ image, ∀ q, Covers mem q → s'.page q = none
  unused : ∀ mem ∈ image, ∀ f, Holds mem f → s'.used f = false
  freed : ∀ mem ∈ image, ∀ f, Holds mem f → s'.freed f = s.freed f + 1
  regions : s'.regions = s.regions

/-- The first segment, if it gets that far, can be mapped, and no second region is made. -/
def FewRegions (env : SpaceEnv) (file : FsFile) (s : Space) : List ElfProgramHeader → Prop
  | [] => True
  | ph :: phs => env.heapAlloc s.regions = true → env.pmmAlloc s.used (elfPages ph) ≠ none ∧
      (phs = [] ∨ ¬ Readable file ph ∨ env.heapAlloc (s.regions + 1) = false)

/-- The load comes to an end before a second region is made, and not because the first one could
    not be mapped. -/
def OneRegionAtMost (env : SpaceEnv) (file : FsFile) (m : Bytes.Memory) (s : Space) : Prop :=
  HeaderPasses file → FewRegions env file s (elfFileSegments file m).1

section

variable {env : SpaceEnv} {file : FsFile} {m : Bytes.Memory} {s s' s₀ : Space}
  {regions : List Region} {mem : Region} {start stop q : Nat}

/-! ## What `fmt_free` does -/

/-- The first loop of `fmt_free`. -/
def unmapHead (s : Space) (head : Region) (regions : List Region) : Space :=
  regions.foldl (fun s _ => (regionUnmap s head).2) s

theorem fmtFree_cons {entry : Nat} :
    (fmtFree s ⟨entry, mem :: regions⟩).1 =
      (mem :: regions).foldl regionFree (unmapHead s mem (mem :: regions)) := rfl

theorem unmapHead_page (off : ¬ Covers mem q) : (unmapHead s mem regions).page q = s.page q := by
  induction regions generalizing s with
  | nil => rfl
  | cons _ regions ih =>
      apply ih.trans
      apply Space.unmap_outside
      unfold Covers at off
      omega

theorem unmapHead_regions : (unmapHead s mem regions).regions = s.regions := by
  induction regions generalizing s with
  | nil => rfl
  | cons _ regions ih => exact ih.trans Space.unmap_regions

theorem regionFree_page : (regionFree s mem).page = s.page := by
  unfold regionFree
  split <;> rfl

theorem regionFree_regions : (regionFree s mem).regions = s.regions - 1 := by
  unfold regionFree
  split <;> rfl

theorem regionFree_all_page : (regions.foldl regionFree s).page = s.page := by
  induction regions generalizing s with
  | nil => rfl
  | cons mem regions ih => exact ih.trans regionFree_page

theorem regionFree_all_regions :
    (regions.foldl regionFree s).regions = s.regions - regions.length := by
  induction regions generalizing s with
  | nil => rfl
  | cons mem regions ih =>
      rw [List.foldl_cons, ih, regionFree_regions, List.length_cons]
      omega

theorem fmtFree_regions {entry : Nat} :
    (fmtFree s ⟨entry, regions⟩).1.regions = s.regions - regions.length := by
  cases regions with
  | nil => rfl
  | cons mem regions => rw [fmtFree_cons, regionFree_all_regions, unmapHead_regions]

theorem loadUndone_nil : LoadUndone s s [] :=
  ⟨fun _ => rfl, nofun, nofun, nofun, rfl⟩

theorem resolve_congr (same : s'.page = s.page) (vaddr : Nat) : s'.resolve vaddr = s.resolve vaddr := by
  unfold Space.resolve
  rw [same]

/-- With one region `fmt_free` does what it should. -/
theorem fmtFree_singleton {entry : Nat} (image : Image s₀ start stop [mem] s)
    (fresh : ∀ q, start ≤ q → q < stop → s₀.page q = none) :
    LoadUndone s₀ (fmtFree s ⟨entry, [mem]⟩).1 [mem] := by
  obtain ⟨frame, num, some_page, not_null, rfl, vaddr, paddr, rfl, unused, now⟩ := image.singleton
  have at_start : mem.vaddr / pageSize = start := by
    rw [vaddr, Nat.mul_div_cancel start (by decide : 0 < pageSize)]
  have at_frame : mem.paddr / pageSize = frame := by
    rw [paddr, Nat.mul_div_cancel frame (by decide : 0 < pageSize)]
  have mapped : ∀ i, i < mem.num → (s.page (start + i)).isSome := fun i lt => by
    rw [now.1]
    exact Option.isSome_of_eq_some (overlay_inside (Nat.le_add_right start i) (by omega))
  have freed : (fmtFree s ⟨entry, [mem]⟩).1 = regionFree
      { s with page := fun q => if start ≤ q ∧ q < start + mem.num then none else s.page q } mem := by
    change regionFree (regionUnmap s mem).2 mem = _
    rw [regionUnmap, at_start, Space.unmap_mapped mapped]
  have page : (fmtFree s ⟨entry, [mem]⟩).1.page = s₀.page := by
    rw [freed, regionFree_page]
    funext q
    simp only
    split
    · next inside => exact (fresh q inside.1 inside.2).symm
    · next outside =>
        rw [now.1]
        exact overlay_outside (by omega)
  have given : mem.paddr ≠ 0 := by
    rw [paddr]
    exact mt page_address_zero.mp (by omega)
  have holds {f : Nat} : Holds mem f → frame ≤ f ∧ f < frame + mem.num := fun holds => by
    unfold Holds at holds
    rwa [at_frame] at holds
  refine ⟨resolve_congr page, ?unmapped, ?unused, ?freed, ?regions⟩
  case unmapped =>
    intro _ at_mem q covers
    rw [List.mem_singleton.mp at_mem] at covers
    unfold Covers at covers
    rw [page]
    exact fresh q (by omega) (by omega)
  case unused =>
    intro _ at_mem f held
    rw [List.mem_singleton.mp at_mem] at held
    have inside := holds held
    rw [freed, regionFree, if_pos given]
    simp only [Space.pmmFree, at_frame, inside, decide_true, Bool.and_self, Bool.not_true,
      Bool.and_false]
  case freed =>
    intro _ at_mem f held
    rw [List.mem_singleton.mp at_mem] at held
    have inside := holds held
    rw [freed, regionFree, if_pos given]
    simp only [Space.pmmFree, at_frame, inside, and_self, if_true, now.2.2.1]
    rfl
  case regions =>
    rw [fmtFree_regions, now.2.2.2]
    exact Nat.add_sub_cancel ..

/-- The pages of a second region stay mapped. -/
theorem fmtFree_second {entry : Nat} {other : Region}
    (image : Image s₀ start stop (mem :: other :: regions) s) :
    ¬ LoadUndone s₀ (fmtFree s ⟨entry, mem :: other :: regions⟩).1 (mem :: other :: regions) := by
  intro undone
  have at_other : other ∈ mem :: other :: regions := List.mem_cons_of_mem _ List.mem_cons_self
  have some_page := image.some_page at_other
  have covers : Covers other (other.vaddr / pageSize) := ⟨Nat.le_refl _, by omega⟩
  have off : ¬ Covers mem (other.vaddr / pageSize) := fun both =>
    (List.pairwise_cons.mp image.disjoint).1 other List.mem_cons_self _ ⟨both, covers⟩
  obtain ⟨low, high⟩ := image.covered.mp ⟨other, at_other, covers⟩
  obtain ⟨frame, here, -⟩ := image.page_inside low high
  have gone := undone.unmapped other at_other _ covers
  rw [fmtFree_cons, regionFree_all_page, unmapHead_page off, here] at gone
  cases gone

/-- `fmt_free` takes back an image of one region at most, unless an object was lost. -/
theorem fmtFree_undone_iff {space : Space} {exit : ElfExit} {entry : Nat}
    (image : Image s₀ start stop regions space)
    (left : exit.Leaks ∧ s = grown space ∨ ¬ exit.Leaks ∧ s = space)
    (fresh : ∀ mem ∈ regions, ∀ q, Covers mem q → s₀.page q = none) :
    LoadUndone s₀ (fmtFree s ⟨entry, regions⟩).1 regions ↔
      ¬ exit.Leaks ∧ regions.length ≤ 1 := by
  rcases left with ⟨leaks, rfl⟩ | ⟨kept, rfl⟩
  · constructor
    · intro undone
      have count := undone.regions
      rw [fmtFree_regions] at count
      have made : (grown space).regions = s₀.regions + regions.length + 1 :=
        congrArg (· + 1) image.regions_eq
      omega
    · rintro ⟨kept, -⟩
      exact absurd leaks kept
  · rcases regions with _ | ⟨mem, _ | ⟨other, regions⟩⟩
    · obtain ⟨-, rfl⟩ := image.nil
      exact ⟨fun _ => ⟨kept, Nat.zero_le 1⟩, fun _ => loadUndone_nil⟩
    · refine ⟨fun _ => ⟨kept, Nat.le_refl 1⟩, fun _ => fmtFree_singleton image fun q low high => ?_⟩
      obtain ⟨mem, at_mem, covers⟩ := image.covered.mpr ⟨low, high⟩
      exact fresh mem at_mem q covers
    · constructor
      · intro undone
        exact absurd undone (fmtFree_second image)
      · rintro ⟨-, few⟩
        simp only [List.length_cons] at few
        omega

/-! ## What `fmt_load` leaves -/

theorem fmtLoad_cases {err : Int} {fmt : Fmt} (done : fmtLoad env file m s = some (err, fmt, s'))
    (failed : err ≠ 0) :
    (elfLoad env file m ⟨0, []⟩ s).1.err = some err ∧
      s' = (fmtFree (elfLoad env file m ⟨0, []⟩ s).2.2 (elfLoad env file m ⟨0, []⟩ s).2.1).1 := by
  unfold fmtLoad fmtLoadLoop at done
  simp only at done
  split at done
  · cases done
  · next code at_err =>
      rw [at_err]
      split at done
      · cases done
        exact absurd rfl failed
      · split at done
        · cases done
          exact ⟨rfl, rfl⟩
        · next format =>
            cases done
            exact ⟨congrArg some (not_not.mp format), rfl⟩

section

variable {header : ElfHeader} {end_err err : Int}

/-- Behind a first region another one is made or lost, unless there is no second segment or no
    memory for its object. -/
theorem elfRun_second {phs : List ElfProgramHeader} {at_page : Nat} {st : ElfLoad}
    (pos : st.pos = at_page * pageSize) (one : st.mem.length = 1)
    (back : (elfEnd end_err (elfRun env file header phs st)).1.err = some err) :
    (¬ (elfEnd end_err (elfRun env file header phs st)).1.Leaks ∧
        (elfEnd end_err (elfRun env file header phs st)).2.mem.length ≤ 1) ↔
      phs = [] ∨ env.heapAlloc st.space.regions = false := by
  cases phs with
  | nil => exact ⟨fun _ => .inl rfl, fun _ => ⟨id, Nat.le_of_eq one⟩⟩
  | cons ph phs =>
      have segment := @elfLoadSegment_segment env file header ph st at_page pos
      have more {st' : ElfLoad} {region : Region} (grows : (st.mem ++ [region]) <+: st'.mem) :
          ¬ st'.mem.length ≤ 1 := by
        have le := grows.length_le
        rw [List.length_append, List.length_singleton, one] at le
        omega
      rw [elfRun] at back ⊢
      generalize elfLoadSegment env file header st ph = result at segment back ⊢
      simp only [List.cons_ne_nil, false_or]
      cases segment with
      | noRegion heap => exact ⟨fun _ => heap, fun _ => ⟨id, Nat.le_of_eq one⟩⟩
      | endless => cases back
      | notMapped page heap =>
          constructor
          · rintro ⟨kept, -⟩
            exact absurd trivial kept
          · intro none
            rw [heap] at none
            cases none
      | notFilled page frame exit heap =>
          constructor
          · rintro ⟨-, few⟩
            exact absurd few (more (List.prefix_refl _))
          · intro none
            rw [heap] at none
            cases none
      | loaded page frame space heap =>
          constructor
          · rintro ⟨-, few⟩
            exact absurd few (more (@elfRun_mem env file header phs _ ⟨_, _, _, space⟩ rfl end_err))
          · intro none
            rw [heap] at none
            cases none

/-- When a load comes back with one region at most and no object lost. -/
theorem elfRun_one_region {phs : List ElfProgramHeader}
    (back : (elfEnd end_err (elfRun env file header phs ⟨0, [], 0, s⟩)).1.err = some err) :
    (¬ (elfEnd end_err (elfRun env file header phs ⟨0, [], 0, s⟩)).1.Leaks ∧
        (elfEnd end_err (elfRun env file header phs ⟨0, [], 0, s⟩)).2.mem.length ≤ 1) ↔
      FewRegions env file s phs := by
  cases phs with
  | nil => exact ⟨fun _ => trivial, fun _ => ⟨id, Nat.zero_le 1⟩⟩
  | cons ph phs =>
      have segment := @elfLoadSegment_segment env file header ph ⟨0, [], 0, s⟩ 0 begun_empty.1
      rw [elfRun] at back ⊢
      generalize elfLoadSegment env file header ⟨0, [], 0, s⟩ ph = result at segment back ⊢
      unfold FewRegions
      cases segment with
      | noRegion heap =>
          refine ⟨fun _ made => ?_, fun _ => ⟨id, Nat.zero_le 1⟩⟩
          rw [heap] at made
          cases made
      | endless => cases back
      | notMapped page heap found failed =>
          constructor
          · rintro ⟨kept, -⟩
            exact absurd trivial kept
          · intro few
            have pos :=
              (Space.findContiguous_user (Space.place_zero.symm.trans found) elfPages_pos).1
            exact absurd (failed.resolve_left (by omega)) (few heap).1
      | notFilled page frame exit heap found not_null got failed =>
          refine ⟨fun _ _ => ⟨?_, .inr (.inl fun readable => ?_)⟩, fun _ => ⟨?_, Nat.le_refl 1⟩⟩
          · rw [got]
            exact Option.some_ne_none frame
          · rw [elfFillSegment_read readable] at failed
            split at failed
            · cases failed
              cases back
            · cases failed
          · obtain rfl | rfl := elfFillSegment_error failed <;> exact id
      | loaded page frame space heap found not_null got filled =>
          have readable := (elfFillSegment_ok filled).1
          have made : space.regions = s.regions + 1 := (elfFillSegment_same filled).2.2.2
          have second := @elfRun_second env file header end_err err phs _
            ⟨_, [elfRegion ph page frame], _, space⟩ rfl rfl back
          rw [made] at second
          apply second.trans
          constructor
          · intro few _
            refine ⟨?_, few.imp_right .inr⟩
            rw [got]
            exact Option.some_ne_none frame
          · intro few
            exact (few heap).2.imp_right fun late => late.resolve_left (not_not.mpr readable)

end

/-- When `fmt_load` fails and the pages of the image were free, it has undone the load just when
    no more than one region was made and mapped. -/
theorem fmtLoad_undone_iff {err : Int} {fmt : Fmt}
    (done : fmtLoad env file m s = some (err, fmt, s')) (failed : err ≠ 0)
    (fresh : PagesFresh env file m s) :
    LoadUndone s s' (elfImage env file m s) ↔ OneRegionAtMost env file m s := by
  obtain ⟨back, rfl⟩ := fmtLoad_cases done failed
  by_cases passes : HeaderPasses file
  · unfold PagesFresh elfImage at *
    rw [elfLoad_passed passes] at back fresh ⊢
    obtain ⟨start, stop, space, image, left⟩ := @elfOutcome_image env file s m
    rw [fmtFree_undone_iff image left fresh]
    exact (elfRun_one_region back).trans ⟨fun few _ => few, fun few => few passes⟩
  · obtain ⟨code, -, rejected⟩ := elfLoad_rejected passes
    unfold elfImage OneRegionAtMost
    rw [rejected]
    exact ⟨fun _ passed => absurd passed passes, fun _ => loadUndone_nil⟩

end

/-! ## A load that stays -/

/-- Two segments of a page each and no entry point. -/
def noEntryFile : FsFile :=
  ⟨elfFileBytes elfMagic 0 [zeroSegment 0 1, zeroSegment 4096 1], by decide +kernel,
    fun _ _ => none, noError_neg⟩

theorem noEntryFile_passes : HeaderPasses noEntryFile := by
  decide

theorem noEntryFile_segments :
    elfFileSegments noEntryFile (fun _ => 0) = ([zeroSegment 0 1, zeroSegment 4096 1], 0) := by
  decide

theorem noEntryFile_fits : Fits noEntryFile emptySpace 0 [zeroSegment 0 1, zeroSegment 4096 1] := by
  have pages (vaddr : Nat) : elfPages (zeroSegment vaddr 1) = 1 :=
    (by decide : vmmCalc (vmmAlign 1) = 1)
  refine ⟨1, ?_, by decide, .inl rfl, nofun, 2, ?_, by decide, .inl rfl, nofun, trivial⟩
  · rw [pages]
    exact emptySpace_place Nat.one_pos (by decide)
  · rw [pages, pages]
    exact if_neg (by decide)

/-- Both segments are loaded, and then there is no entry point. -/
theorem noEntryFile_fails :
    (elfLoad plentyOfMemory noEntryFile (fun _ => 0) ⟨0, []⟩ emptySpace).1 = .ret (-eNOEXEC) ∧
      (elfImage plentyOfMemory noEntryFile (fun _ => 0) emptySpace).length = 2 := by
  obtain ⟨st, done⟩ := @elfRun_loads plentyOfMemory noEntryFile (elfReadHeader noEntryFile).2
    [zeroSegment 0 1, zeroSegment 4096 1] emptySpace 0 ⟨0, [], 0, emptySpace⟩
    plentyOfMemory_plentiful emptySpace_bounded begun_empty (by decide) noEntryFile_fits
  obtain ⟨page, -, -, entry⟩ := elfRun_ok done
  have regions := elfRun_regions begun_empty.1 done
  have no_entry : (elfReadHeader noEntryFile).2.entry = 0 := by decide
  have outcome : elfOutcome plentyOfMemory noEntryFile (fun _ => 0) emptySpace =
      (.ret (-eNOEXEC), st) := by
    have none : st.entry = 0 := by
      rw [entry]
      simp only [elfLayout, elfEntry, List.foldl_cons, List.foldl_nil, elfEntryAfter, no_entry,
        Nat.not_lt_zero, false_and, if_false]
    unfold elfOutcome
    rw [noEntryFile_segments, done, elfEnd, none]
    rfl
  unfold elfImage
  rw [elfLoad_passed noEntryFile_passes, outcome]
  exact ⟨rfl, regions⟩

theorem fmtLoad_of_exit {env : SpaceEnv} {file : FsFile} {m : Bytes.Memory} {s : Space} {err : Int}
    (exit : (elfLoad env file m ⟨0, []⟩ s).1.err = some err) (failed : err ≠ 0) :
    ∃ fmt s', fmtLoad env file m s = some (err, fmt, s') := by
  unfold fmtLoad fmtLoadLoop
  simp only [exit, failed, if_false]
  by_cases format : err ≠ -eNOEXEC
  · rw [if_pos format]
    exact ⟨_, _, rfl⟩
  · rw [if_neg format, not_not.mp format]
    exact ⟨_, _, rfl⟩

theorem noEntryFile_fresh : PagesFresh plentyOfMemory noEntryFile (fun _ => 0) emptySpace :=
  fun _ _ _ _ => rfl

/-- A file on which the statement above says that not all is undone. -/
theorem fmtLoad_undone_iff_noEntry : ∃ fmt s',
    fmtLoad plentyOfMemory noEntryFile (fun _ => 0) emptySpace = some (-eNOEXEC, fmt, s') ∧
      (LoadUndone emptySpace s' (elfImage plentyOfMemory noEntryFile (fun _ => 0) emptySpace) ↔
        OneRegionAtMost plentyOfMemory noEntryFile (fun _ => 0) emptySpace) := by
  obtain ⟨fmt, s', done⟩ := fmtLoad_of_exit
    (congrArg ElfExit.err noEntryFile_fails.1) (by decide : -eNOEXEC ≠ 0)
  exact ⟨fmt, s', done, fmtLoad_undone_iff done (by decide) noEntryFile_fresh⟩

/-- Two segments of a file that turns out to have no entry point stay mapped. -/
theorem not_fmtLoad_undone : ¬ ∀ (env : SpaceEnv) (file : FsFile) (m : Bytes.Memory) (s s' : Space)
    (err : Int) (fmt : Fmt), fmtLoad env file m s = some (err, fmt, s') → err ≠ 0 →
      PagesFresh env file m s → LoadUndone s s' (elfImage env file m s) := by
  intro always
  obtain ⟨fmt, s', done⟩ := fmtLoad_of_exit
    (congrArg ElfExit.err noEntryFile_fails.1) (by decide : -eNOEXEC ≠ 0)
  have undone := always _ _ _ _ _ _ _ done (by decide) noEntryFile_fresh
  obtain ⟨-, rfl⟩ := fmtLoad_cases done (by decide)
  have two := noEntryFile_fails.2
  unfold elfImage at undone two
  rw [elfLoad_passed noEntryFile_passes] at undone two
  obtain ⟨start, stop, space, image, left⟩ :=
    @elfOutcome_image plentyOfMemory noEntryFile emptySpace fun _ => 0
  have few := ((fmtFree_undone_iff image left fun _ _ _ _ => rfl).mp undone).2
  exact absurd two (Nat.ne_of_lt (Nat.lt_succ_of_le few))

end Sdx.Fs
