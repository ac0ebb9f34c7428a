import Sdx.Mm.VmmExact

/-! # Mapping without frames for the tables

`__vmm_map_to_paddr_internal` does not look at what `pmm_alloc` returns for a table. With 0 it links
frame 0, and goes on; its own result is the address it was given.
-/

namespace Sdx.Mm

variable {boot : BootInfo} {s s' : Vmm} {paddr vaddr : BitVec 64} {num : Nat} {attr : BitVec 32}

/-! ## Running out of frames -/

/-- The table below `entry` is missing, and `pmm_alloc` has no frame for it. -/
def TableStarves (boot : BootInfo) (s : Vmm) (entry : BitVec 64) : Prop :=
  s.read entry = some 0#64 ∧ (pmmAlloc boot s.pmm 1 0).1 = 0

/-- One of the three tables above a page: the ones in front of it are there, or were created. -/
inductive TablesStarve (boot : BootInfo) (s : Vmm) (vaddr flags : BitVec 64) : Prop where
  | pdpt (starves : TableStarves boot s (vmmPml4Entry vaddr))
  | pd {s₁ : Vmm}
      (pdpt : vmmGetTable boot s (vmmPml4Entry vaddr) (vmmPdptVaddr vaddr) flags true = some s₁)
      (starves : TableStarves boot s₁ (vmmPdptEntry vaddr))
  | pt {s₁ s₂ : Vmm}
      (pdpt : vmmGetTable boot s (vmmPml4Entry vaddr) (vmmPdptVaddr vaddr) flags true = some s₁)
      (pd : vmmGetTable boot s₁ (vmmPdptEntry vaddr) (vmmPdVaddr vaddr) flags false = some s₂)
      (starves : TableStarves boot s₂ (vmmPdEntry vaddr))

/-- One of the pages of a range: the ones in front of it were mapped. -/
inductive PagesStarve (boot : BootInfo) (attr : BitVec 32) :
    Vmm → BitVec 64 → BitVec 64 → Nat → Prop where
  | here {s : Vmm} {paddr vaddr : BitVec 64} {num : Nat}
      (starve : TablesStarve boot s vaddr (vmmAttrToFlags attr true)) :
      PagesStarve boot attr s paddr vaddr (num + 1)
  | later {s s₁ : Vmm} {paddr vaddr : BitVec 64} {num : Nat}
      (page : vmmMapPage boot s paddr vaddr attr = some s₁)
      (starve : PagesStarve boot attr s₁ (paddr + 4096#64) (vaddr + 4096#64) num) :
      PagesStarve boot attr s paddr vaddr (num + 1)

/-- The call returns `NULL`, and frame 0 is no page table. -/
def FailsCleanly (boot : BootInfo) (s : Vmm) (paddr vaddr : BitVec 64) (num : Nat)
    (attr : BitVec 32) : Prop :=
  ∃ s', vmmMapToPaddrInternal boot s paddr vaddr num attr = some (0, s') ∧
    ∀ level, level < 4 → ¬HwTable s'.mem s'.cr3 level 0

theorem not_failsCleanly (nonnull : vaddr ≠ 0#64) : ¬FailsCleanly boot s paddr vaddr num attr := by
  rintro ⟨s', done, -⟩
  exact nonnull (vmmMapToPaddrInternal_vaddr done).symm

/-- A call that needs a table `pmm_alloc` has no frame for never fails cleanly. The callers map no page
    at `NULL`. -/
theorem vmmMapToPaddrInternal_cleanly_iff (nonnull : vaddr ≠ 0#64) :
    (PagesStarve boot attr s paddr vaddr num → FailsCleanly boot s paddr vaddr num attr) ↔
      ¬PagesStarve boot attr s paddr vaddr num := by
  constructor
  · intro clean starve
    exact not_failsCleanly nonnull (clean starve)
  · intro enough starve
    exact absurd starve enough

/-! ## The table in frame 0 -/

namespace PageTree

variable {tables : Tables}

/-- A table that is there is there still, and no other entry has changed. -/
theorem getTable_there (tree : PageTree s.mem s.cr3 tables) {path : List Index} {i : Index}
    {t below : Frame} {flags : BitVec 64} (at_path : tables path = some t)
    (there : tables (path ++ [i]) = some below) (within : flags &&& 7#64 = flags) (pml4 : Bool) :
    ∃ s', vmmGetTable boot s (vmmEntryAt (windowOf path) (i.setWidth 64)) (windowOf (path ++ [i]))
        flags pml4 = some s' ∧
      PageTree s'.mem s'.cr3 tables ∧ s'.pmm = s.pmm ∧
      ∀ {q u j}, tables q = some u → q ≠ path → s'.mem u j = s.mem u j := by
  obtain ⟨branch, above, at_above, pointer, -⟩ := tree.child.mp there
  cases at_path.symm.trans at_above
  obtain ⟨alerts, done⟩ :=
    @vmmGetTable_used boot s tables path i t flags tree at_path pointer.ne_zero pml4
  refine ⟨_, done, (tree.set_flags at_path branch.1 pointer within).1, rfl, fun at_q off => ?_⟩
  exact tree.set_other at_path at_q fun eq => absurd eq off

/-- A table there is no frame for is linked in frame 0. -/
theorem getTable_starved (tree : PageTree s.mem s.cr3 tables) {path : List Index} {i : Index} {t : Frame}
    {flags : BitVec 64} (branch : Branch path i) (at_path : tables path = some t)
    (unused : s.mem t i = 0#64) (starves : (pmmAlloc boot s.pmm 1 0).1 = 0)
    (fresh : ∀ path, tables path ≠ some 0) (within : flags &&& 7#64 = flags)
    (present : hwPresent flags = true) (pml4 : Bool) :
    ∃ s', vmmGetTable boot s (vmmEntryAt (windowOf path) (i.setWidth 64)) (windowOf (path ++ [i]))
        flags pml4 = some s' ∧
      PageTree s'.mem s'.cr3 (Function.update tables (path ++ [i]) (some 0)) := by
  obtain ⟨pointer, frame⟩ := hwPointer_frame 0 within present
  have done := @vmmGetTable_unused boot s tables path i t 0 flags tree branch at_path unused fresh within
    present starves pml4
  exact ⟨_, done, tree.grow branch at_path unused fresh pointer frame⟩

/-- If the PT of a page is missing and `pmm_alloc` returns 0, the page is mapped all the same, in a PT
    in frame 0. -/
theorem mapPage_starved (tree : PageTree s.mem s.cr3 tables) (slot : hwIndex vaddr 4 ≠ 510)
    {pdpt pd : Frame} (at_pdpt : tables [hwIndex vaddr 4] = some pdpt)
    (at_pd : tables [hwIndex vaddr 4, hwIndex vaddr 3] = some pd)
    (unused : s.mem pd (hwIndex vaddr 2) = 0#64) (starves : (pmmAlloc boot s.pmm 1 0).1 = 0)
    (fresh : ∀ path, tables path ≠ some 0) :
    TablesStarve boot s vaddr (vmmAttrToFlags attr true) ∧
      ∃ s', vmmMapPage boot s paddr vaddr attr = some s' ∧ HwTable s'.mem s'.cr3 1 0 := by
  obtain ⟨within, present⟩ := vmmAttrToFlags_table attr
  obtain ⟨s₁, get₁, tree₁, pmm₁, kept₁⟩ := @getTable_there boot s tables tree [] (hwIndex vaddr 4) s.cr3
    pdpt (vmmAttrToFlags attr true) tree.root at_pdpt within true
  obtain ⟨s₂, get₂, tree₂, pmm₂, kept₂⟩ := @getTable_there boot s₁ tables tree₁ [hwIndex vaddr 4]
    (hwIndex vaddr 3) pdpt pd (vmmAttrToFlags attr true) at_pdpt at_pd within false
  have before : [hwIndex vaddr 4, hwIndex vaddr 3] ++ [hwIndex vaddr 2] <+: ptPath vaddr := ⟨[], rfl⟩
  have unused₂ : s₂.mem pd (hwIndex vaddr 2) = 0#64 := by
    rw [kept₂ at_pd (by simp), kept₁ at_pd (by simp), unused]
  have starves₂ : (pmmAlloc boot s₂.pmm 1 0).1 = 0 := by rw [pmm₂, pmm₁, starves]
  obtain ⟨s₃, get₃, tree₃⟩ := @getTable_starved boot s₂ tables tree₂ _ _ _ (vmmAttrToFlags attr true)
    (ptPath_branch slot before) at_pd unused₂ starves₂ fresh within present false
  have at_pt : Function.update tables ([hwIndex vaddr 4, hwIndex vaddr 3] ++ [hwIndex vaddr 2]) (some 0)
      (ptPath vaddr) = some 0 := Function.update_self ..
  have page : hwPresent (paddr ||| vmmAttrToFlags attr false) = true := by
    have present := (vmmAttrToFlags_page attr).2.1
    rw [hwPresent] at present ⊢
    rw [BitVec.getLsbD_or, present, Bool.or_true]
  have read := tree₃.read at_pt (hwIndex vaddr 1)
  have write := tree₃.write at_pt (hwIndex vaddr 1) (paddr ||| vmmAttrToFlags attr false)
  have tree₄ := tree₃.set_page (i := hwIndex vaddr 1) at_pt rfl page
  have slot₂ := tree₂.read at_pd (hwIndex vaddr 2)
  rw [← vmmPdEntry_eq, unused₂] at slot₂
  rw [← vmmPml4Entry_eq, List.nil_append, ← vmmPdptVaddr_eq] at get₁
  rw [← vmmPdptEntry_eq, List.singleton_append, ← vmmPdVaddr_eq] at get₂
  rw [← vmmPdEntry_eq, List.cons_append, List.singleton_append, ← vmmPtVaddr_eq] at get₃
  rw [ptPath, ← vmmPtEntry_eq] at read write
  refine ⟨.pt get₁ get₂ ⟨slot₂, starves₂⟩,
    { s₃ with mem := s₃.mem.set 0 (hwIndex vaddr 1) (paddr ||| vmmAttrToFlags attr false) }, ?_,
    tree₄.hwTable at_pt⟩
  rw [vmmMapPage, vmmGetTables, get₁, Option.bind_eq_bind, Option.bind_some, get₂, Option.bind_some, get₃,
    Option.bind_some, Vmm.read, read, Option.bind_eq_bind, Option.bind_some, Vmm.write, write]
  rfl

end PageTree

/-! ### A second PT that there is no frame for -/

/-- `onePageMap` with all pages of the PMM in use. -/
def fullMap : Vmm :=
  { onePageMap 0x10000 with
    pmm := { (onePageMap 0x10000).pmm with bm := fun _ => 0xffffffffffffffff } }

theorem vmmMapToPaddrInternal_cleanly_iff_full :
    (PagesStarve freeBoot vmmAttrUser fullMap 0x40000 0x200000 1 →
        FailsCleanly freeBoot fullMap 0x40000 0x200000 1 vmmAttrUser) ↔
      ¬PagesStarve freeBoot vmmAttrUser fullMap 0x40000 0x200000 1 :=
  vmmMapToPaddrInternal_cleanly_iff (by decide)

theorem vmmMapToPaddrInternal_frame0 :
    PagesStarve freeBoot vmmAttrUser fullMap 0x40000 0x200000 1 ∧
    (∃ s', vmmMapToPaddrInternal freeBoot fullMap 0x40000 0x200000 1 vmmAttrUser = some (0x200000, s') ∧
      HwTable s'.mem s'.cr3 1 0) ∧
    ¬FailsCleanly freeBoot fullMap 0x40000 0x200000 1 vmmAttrUser := by
  have tree : PageTree fullMap.mem fullMap.cr3 onePageTables := onePage_tree (by decide)
  have fresh (path : List Index) : onePageTables path ≠ some 0 := by
    intro at_path
    obtain ⟨-, eq⟩ | ⟨-, eq⟩ | ⟨-, eq⟩ | ⟨-, eq⟩ := onePageTables_cases at_path
    all_goals exact absurd eq (by decide)
  have starves : (pmmAlloc freeBoot fullMap.pmm 1 0).1 = 0 := by decide
  obtain ⟨starve, s', done, frame⟩ := @PageTree.mapPage_starved freeBoot fullMap 0x40000 0x200000
    vmmAttrUser onePageTables tree (by decide) 2 3 rfl rfl (by decide) starves fresh
  refine ⟨.here starve, ⟨s', ?_, frame⟩, not_failsCleanly (by decide)⟩
  rw [vmmMapToPaddrInternal, vmmMapPages, done]
  rfl

end Sdx.Mm
