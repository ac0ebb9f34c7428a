import Sdx.Mm.PageTreeEdit
import Sdx.Mm.VmmMapped

/-! # Pages among other pages

`vmm_map` and `vmm_unmap` go page after page, and every new table has a page below it. The tree
from before stays the base of all states in between: what it has mapped is translated as ever,
and data may be written.
-/

namespace Sdx.Mm

variable {boot : BootInfo} {b : MapBase boot}

/-! ## Slots of pages -/

/-- A page can be mapped at `vaddr`: the entries above its own are unused or point to tables. -/
structure Open (b : MapBase boot) (vaddr : BitVec 64) : Prop where
  slot : hwIndex vaddr 4 ≠ 510
  upper : ∀ {path i}, path ++ [i] <+: ptPath vaddr →
    b.old path i = 0#64 ∨ hwPointer (b.old path i)
  unused : b.old (ptPath vaddr) (hwIndex vaddr 1) = 0#64

/-- The pages with one more, or one less. -/
def setPage (pages : Pages) (vaddr : BitVec 64) (page : Option (BitVec 64)) : Pages :=
  Function.update pages (ptPath vaddr) (Function.update (pages (ptPath vaddr)) (hwIndex vaddr 1) page)

section

variable {pages : Pages} {vaddr : BitVec 64} {page : Option (BitVec 64)}

@[simp] theorem setPage_self : setPage pages vaddr page (ptPath vaddr) (hwIndex vaddr 1) = page := by
  simp [setPage]

theorem setPage_other {path : List Index} {i : Index}
    (off : path = ptPath vaddr → i ≠ hwIndex vaddr 1) :
    setPage pages vaddr page path i = pages path i := by
  by_cases same : path = ptPath vaddr
  · subst same
    simp [setPage, off rfl]
  · simp [setPage, same]

theorem Under.setPage {path : List Index} (under : Under pages path) (page : Option (BitVec 64)) :
    path <+: ptPath vaddr ∨ Under (setPage pages vaddr page) path := by
  obtain ⟨pt, i, entry, here, before⟩ := under
  by_cases slot : pt = ptPath vaddr ∧ i = hwIndex vaddr 1
  · exact .inl (slot.1 ▸ before)
  · refine .inr ⟨pt, i, entry, ?_, before⟩
    rwa [setPage_other fun same index => slot ⟨same, index⟩]

theorem under_setPage {path : List Index} {entry : BitVec 64} (before : path <+: ptPath vaddr) :
    Under (Mm.setPage pages vaddr (some entry)) path :=
  ⟨ptPath vaddr, hwIndex vaddr 1, entry, setPage_self, before⟩

end

/-! ## Failures of `pmm_alloc` -/

theorem pmmBmSetRange_failed (p : Pmm) (pos : PmmBmPos) (num : Nat) :
    (pmmBmSetRange p pos num).failed = p.failed := by
  induction num generalizing p pos with
  | zero => rfl
  | succ num ih => exact ih ..

theorem pmmAlloc_failed_le (p : Pmm) (num align : Nat) :
    p.failed ≤ (pmmAlloc boot p num align).2.failed := by
  unfold pmmAlloc pmmAllocNoBm Pmm.fail
  split
  · exact Nat.le_succ _
  split
  · dsimp only
    split
    · exact Nat.le_succ _
    · exact Nat.le_refl _
  dsimp only
  split
  · exact Nat.le_succ _
  split
  · exact Nat.le_of_eq (pmmBmSetRange_failed ..).symm
  · exact Nat.le_refl _

section

variable {s s' : Vmm} {attr : BitVec 32} {paddr vaddr : BitVec 64}

theorem vmmGetTable_failed_le {entry table flags : BitVec 64} {pml4 : Bool}
    (done : vmmGetTable boot s entry table flags pml4 = some s') :
    s.pmm.failed ≤ s'.pmm.failed := by
  obtain ⟨old, read, -⟩ := Option.bind_eq_some_iff.mp done
  rw [vmmGetTable_pmm read done]
  split
  · exact pmmAlloc_failed_le ..
  · exact Nat.le_refl _

theorem vmmMapPage_failed_le (done : vmmMapPage boot s paddr vaddr attr = some s') :
    s.pmm.failed ≤ s'.pmm.failed := by
  obtain ⟨s₁, tables, done⟩ := Option.bind_eq_some_iff.mp done
  obtain ⟨old, -, done⟩ := Option.bind_eq_some_iff.mp done
  obtain ⟨s₂, pdpt, tables⟩ := Option.bind_eq_some_iff.mp tables
  obtain ⟨s₃, pd, pt⟩ := Option.bind_eq_some_iff.mp tables
  rw [Vmm.write_pmm done]
  have le₁ := vmmGetTable_failed_le pdpt
  have le₂ := vmmGetTable_failed_le pd
  have le₃ := vmmGetTable_failed_le pt
  omega

theorem vmmMapPages_failed_le {num : Nat}
    (done : vmmMapPages boot s paddr vaddr attr num = some s') :
    s.pmm.failed ≤ s'.pmm.failed := by
  induction num generalizing s paddr vaddr with
  | zero =>
      cases done
      exact Nat.le_refl _
  | succ num ih =>
      obtain ⟨s₁, page, rest⟩ := Option.bind_eq_some_iff.mp done
      exact Nat.le_trans (vmmMapPage_failed_le page) (ih rest)

theorem vmmMap_failed_le {fuel num align : Nat}
    (done : vmmMap boot s fuel num align attr = some (vaddr, s')) : s.pmm.failed ≤ s'.pmm.failed := by
  obtain ⟨found, -, done⟩ := Option.bind_eq_some_iff.mp done
  split at done
  · cases done
    exact Nat.le_refl _
  have alloc := @pmmAlloc_failed_le boot s.pmm num align
  rw [vmmMapToVaddrInternal] at done
  dsimp only at done
  split at done
  · cases done
    exact alloc
  · obtain ⟨s₁, loop, same⟩ := Option.map_eq_some_iff.mp done
    cases same
    exact Nat.le_trans alloc (vmmMapPages_failed_le loop)

theorem pmmFreeLoop_failed (p : Pmm) (pos : PmmBmPos) (val : Int) (num : Nat) :
    (pmmFreeLoop p pos val num).2.failed = p.failed := by
  induction num generalizing p pos val with
  | zero => rfl
  | succ num ih =>
      rw [pmmFreeLoop]
      split
      · rfl
      · split
        · rfl
        · exact ih ..

theorem pmmFree_failed (p : Pmm) (paddr num : Nat) : (pmmFree p paddr num).2.failed = p.failed := by
  unfold pmmFree
  split
  · rfl
  · exact pmmFreeLoop_failed ..

theorem vmmFreeTable_failed {table entry : BitVec 64} {pml4 : Bool}
    (done : vmmFreeTable s table entry pml4 = some s') : s'.pmm.failed = s.pmm.failed := by
  obtain ⟨free, -, done⟩ := Option.bind_eq_some_iff.mp done
  split at done
  · obtain ⟨value, -, done⟩ := Option.bind_eq_some_iff.mp done
    obtain ⟨s₁, write, done⟩ := Option.bind_eq_some_iff.mp done
    have kept := (congrArg Pmm.failed (Vmm.write_pmm write)).trans
      (pmmFree_failed s.pmm (vmmEntryToAddr value).toNat 1)
    cases done
    split
    · exact kept
    · exact kept
  · cases done
    rfl

theorem vmmUnmapPage_failed {err : Int} (done : vmmUnmapPage s vaddr attr = some (err, s')) :
    s'.pmm.failed = s.pmm.failed := by
  obtain ⟨found, -, done⟩ := Option.bind_eq_some_iff.mp done
  cases found with
  | none =>
      cases done
      rfl
  | some entry =>
      obtain ⟨value, -, done⟩ := Option.bind_eq_some_iff.mp done
      have freed : (vmmFreePage s.pmm value attr).2.failed = s.pmm.failed := by
        unfold vmmFreePage
        split
        · exact pmmFree_failed ..
        · rfl
      dsimp only at done
      split at done
      · cases done
        exact freed
      · obtain ⟨s₁, write, done⟩ := Option.bind_eq_some_iff.mp done
        obtain ⟨s₂, tables, done⟩ := Option.bind_eq_some_iff.mp done
        obtain ⟨s₃, pd, tables⟩ := Option.bind_eq_some_iff.mp tables
        obtain ⟨s₄, pdpt, pml4⟩ := Option.bind_eq_some_iff.mp tables
        cases done
        rw [vmmFreeTable_failed pml4, vmmFreeTable_failed pdpt, vmmFreeTable_failed pd,
          Vmm.write_pmm write]
        exact freed

theorem vmmUnmap_failed {num : Nat} {err : Int} (done : vmmUnmap s vaddr attr num = some (err, s')) :
    s'.pmm.failed = s.pmm.failed := by
  induction num generalizing s vaddr with
  | zero =>
      cases done
      rfl
  | succ num ih =>
      obtain ⟨⟨err₁, s₁⟩, page, done⟩ := Option.bind_eq_some_iff.mp done
      dsimp only at done
      split at done
      · cases done
        exact vmmUnmapPage_failed page
      · exact (ih done).trans (vmmUnmapPage_failed page)

end

/-! ## One page -/

namespace Mapped

variable {s s' : Vmm} {grafts : Grafts} {pages : Pages} {data : Nat → Prop} {attr : BitVec 32}
  {paddr vaddr : BitVec 64}

/-- The tables above a page. -/
theorem getTables (mapped : Mapped b s grafts pages data) (free : Open b vaddr)
    (done : vmmGetTables boot s vaddr b.flags = some s') (ok : s'.pmm.failed = s.pmm.failed) :
    ∃ grafts', Mapped b s' grafts' pages data ∧ (b.all grafts' (ptPath vaddr)).isSome ∧
      (∀ path, ¬ path <+: ptPath vaddr → grafts' path = grafts path) ∧ Outside b grafts grafts' s s' := by
  obtain ⟨s₁, pdpt, done⟩ := Option.bind_eq_some_iff.mp done
  obtain ⟨s₂, pd, pt⟩ := Option.bind_eq_some_iff.mp done
  have le₁ := vmmGetTable_failed_le pdpt
  have le₂ := vmmGetTable_failed_le pd
  have le₃ := vmmGetTable_failed_le pt
  have before₁ : [] ++ [hwIndex vaddr 4] <+: ptPath vaddr := ⟨[_, _], rfl⟩
  have before₂ : [hwIndex vaddr 4] ++ [hwIndex vaddr 3] <+: ptPath vaddr := ⟨[_], rfl⟩
  have before₃ : [hwIndex vaddr 4, hwIndex vaddr 3] ++ [hwIndex vaddr 2] <+: ptPath vaddr :=
    ⟨[], rfl⟩
  rw [vmmPml4Entry_eq, vmmPdptVaddr_eq] at pdpt
  rw [vmmPdptEntry_eq, vmmPdVaddr_eq] at pd
  rw [vmmPdEntry_eq, vmmPtVaddr_eq] at pt
  obtain ⟨grafts₁, mapped₁, reached₁, same₁, out₁⟩ := mapped.getTable (ptPath_branch free.slot before₁)
    mapped.mem.tree.root (free.upper before₁) pdpt (by omega)
  obtain ⟨t₁, at_pdpt⟩ := Option.isSome_iff_exists.mp reached₁
  obtain ⟨grafts₂, mapped₂, reached₂, same₂, out₂⟩ := mapped₁.getTable (ptPath_branch free.slot before₂)
    at_pdpt (free.upper before₂) pd (by omega)
  obtain ⟨t₂, at_pd⟩ := Option.isSome_iff_exists.mp reached₂
  obtain ⟨grafts₃, mapped₃, reached₃, same₃, out₃⟩ := mapped₂.getTable (ptPath_branch free.slot before₃)
    at_pd (free.upper before₃) pt (by omega)
  refine ⟨grafts₃, mapped₃, reached₃, fun path off => ?_, (out₁.trans out₂).trans out₃⟩
  have off₁ : path ≠ [] ++ [hwIndex vaddr 4] := fun eq => off (eq ▸ before₁)
  have off₂ : path ≠ [hwIndex vaddr 4] ++ [hwIndex vaddr 3] := fun eq => off (eq ▸ before₂)
  have off₃ : path ≠ [hwIndex vaddr 4, hwIndex vaddr 3] ++ [hwIndex vaddr 2] :=
    fun eq => off (eq ▸ before₃)
  rw [same₃ path off₃, same₂ path off₂, same₁ path off₁]

/-- `vmm_map` maps one page. -/
theorem mapPage (mapped : Mapped b s grafts pages data) (tight : Tight grafts pages)
    (free : Open b vaddr) (flags : vmmAttrToFlags attr true = b.flags)
    (present : hwPresent (paddr ||| vmmAttrToFlags attr false) = true)
    (done : vmmMapPage boot s paddr vaddr attr = some s') (ok : s'.pmm.failed = s.pmm.failed) :
    ∃ grafts', Mapped b s' grafts'
        (setPage pages vaddr (some (paddr ||| vmmAttrToFlags attr false))) data ∧
      Tight grafts' (setPage pages vaddr (some (paddr ||| vmmAttrToFlags attr false))) ∧
      Outside b grafts grafts' s s' := by
  obtain ⟨s₁, tables, done⟩ := Option.bind_eq_some_iff.mp done
  obtain ⟨old, -, done⟩ := Option.bind_eq_some_iff.mp done
  rw [flags] at tables
  rw [Vmm.write_pmm done] at ok
  obtain ⟨grafts', mapped', reached, same, out⟩ := mapped.getTables free tables ok
  obtain ⟨t, at_pt⟩ := Option.isSome_iff_exists.mp reached
  rw [vmmPtEntry_eq] at done
  have written := mapped'.write at_pt (hwIndex vaddr 1) (paddr ||| vmmAttrToFlags attr false) s₁.pmm
  cases done.symm.trans written
  have grafted := mapped'.mem.set_page at_pt rfl free.unused
    (some (paddr ||| vmmAttrToFlags attr false)) fun entry eq => Option.some.inj eq ▸ present
  refine ⟨grafts', ⟨mapped'.cr3, grafted, mapped'.pmm⟩, fun path k here => ?_,
    out.trans (.set at_pt rfl)⟩
  by_cases before : path <+: ptPath vaddr
  · exact under_setPage before
  · rw [same path before] at here
    exact ((tight path k here).setPage _).resolve_left before

/-- The tables above a page that is mapped. -/
theorem tables_above (mapped : Mapped b s grafts pages data) {entry : BitVec 64}
    (page : pages (ptPath vaddr) (hwIndex vaddr 1) = some entry) : ∃ t₃ t₂ t₁,
    b.all grafts [hwIndex vaddr 4] = some t₃ ∧
    b.all grafts [hwIndex vaddr 4, hwIndex vaddr 3] = some t₂ ∧
    b.all grafts (ptPath vaddr) = some t₁ ∧
    hwPointer (s.mem b.cr3 (hwIndex vaddr 4)) ∧ hwPointer (s.mem t₃ (hwIndex vaddr 3)) ∧
    hwPointer (s.mem t₂ (hwIndex vaddr 2)) ∧ s.mem t₁ (hwIndex vaddr 1) = entry := by
  obtain ⟨-, reached, -, -⟩ := mapped.mem.page page
  obtain ⟨t₁, at_pt⟩ := Option.isSome_iff_exists.mp reached
  obtain ⟨branch₂, t₂, at_pd⟩ := @Grafted.child_reached _ _ _ _ _
    [hwIndex vaddr 4, hwIndex vaddr 3] _ mapped.mem _ at_pt
  obtain ⟨branch₃, t₃, at_pdpt⟩ := @Grafted.child_reached _ _ _ _ _ [hwIndex vaddr 4] _ mapped.mem
    _ at_pd
  obtain ⟨branch₄, t₄, at_pml4⟩ := @Grafted.child_reached _ _ _ _ _ [] _ mapped.mem _ at_pdpt
  cases mapped.mem.tree.root.symm.trans at_pml4
  have value := mapped.mem.leaf at_pt rfl (hwIndex vaddr 1)
  rw [page] at value
  exact ⟨t₃, t₂, t₁, at_pdpt, at_pd, at_pt, ((mapped.mem.pointer_iff branch₄ at_pml4).mp at_pdpt).1,
    ((mapped.mem.pointer_iff branch₃ at_pdpt).mp at_pd).1,
    ((mapped.mem.pointer_iff branch₂ at_pd).mp at_pt).1, value⟩

/-- `__vmm_entry_from_vaddr` finds a page that is mapped. -/
theorem entryFromVaddr (mapped : Mapped b s grafts pages data) {entry : BitVec 64}
    (page : pages (ptPath vaddr) (hwIndex vaddr 1) = some entry) :
    vmmEntryFromVaddr s vaddr = some (some (vmmPtEntry vaddr)) ∧
      s.read (vmmPtEntry vaddr) = some entry := by
  have present := (mapped.mem.page page).2.2.2
  obtain ⟨t₃, t₂, t₁, at_pdpt, at_pd, at_pt, pointer₄, pointer₃, pointer₂, value⟩ :=
    mapped.tables_above page
  have read₄ := mapped.read mapped.mem.tree.root (hwIndex vaddr 4)
  have read₃ := mapped.read at_pdpt (hwIndex vaddr 3)
  have read₂ := mapped.read at_pd (hwIndex vaddr 2)
  have read₁ := mapped.read at_pt (hwIndex vaddr 1)
  rw [← vmmPml4Entry_eq] at read₄
  rw [← vmmPdptEntry_eq] at read₃
  rw [← vmmPdEntry_eq] at read₂
  rw [ptPath, ← vmmPtEntry_eq, value] at read₁
  have used : entry ≠ 0#64 := by
    rintro rfl
    cases present
  have small := (pteFlagPS_unset_iff _).mpr pointer₂.2
  refine ⟨?_, read₁⟩
  simp [vmmEntryFromVaddr, read₄, pointer₄.ne_zero, read₃, pointer₃.ne_zero, read₂, pointer₂.ne_zero,
    small, read₁, used]

/-- The tables above a page that is unmapped, from the PT upwards. -/
theorem freeTables (mapped : Mapped b s grafts pages data) {t₃ t₂ t₁ : Frame}
    (at_pdpt : b.all grafts [hwIndex vaddr 4] = some t₃)
    (at_pd : b.all grafts [hwIndex vaddr 4, hwIndex vaddr 3] = some t₂)
    (at_pt : b.all grafts (ptPath vaddr) = some t₁)
    (near : ∀ q k, grafts q = some k → q <+: ptPath vaddr ∨ Under pages q) :
    ∃ s' grafts', vmmFreeTables s vaddr = some s' ∧ Mapped b s' grafts' pages data ∧
      Tight grafts' pages ∧ Outside b grafts' grafts s' s := by
  have all {grafts grafts' : Grafts} {path : List Index} {t : Frame} (same : grafts' path = grafts path)
      (at_path : b.all grafts path = some t) : b.all grafts' path = some t := by
    rwa [MapBase.all, same]
  obtain ⟨s₁, grafts₁, free₁, mapped₁, same₁, near₁, out₁⟩ := mapped.freeTable (i := hwIndex vaddr 2)
    at_pd (Option.isSome_iff_exists.mpr ⟨t₁, at_pt⟩) near false
  have at_pd₁ := all (same₁ [hwIndex vaddr 4, hwIndex vaddr 3] (by simp)) at_pd
  have at_pdpt₁ := all (same₁ [hwIndex vaddr 4] (by simp)) at_pdpt
  obtain ⟨s₂, grafts₂, free₂, mapped₂, same₂, near₂, out₂⟩ := mapped₁.freeTable (i := hwIndex vaddr 3)
    at_pdpt₁ (Option.isSome_iff_exists.mpr ⟨t₂, at_pd₁⟩) near₁ false
  have at_pdpt₂ := all (same₂ [hwIndex vaddr 4] (by simp)) at_pdpt₁
  obtain ⟨s₃, grafts₃, free₃, mapped₃, -, near₃, out₃⟩ := mapped₂.freeTable (i := hwIndex vaddr 4)
    mapped₂.mem.tree.root (Option.isSome_iff_exists.mpr ⟨t₃, at_pdpt₂⟩) near₂ true
  refine ⟨s₃, grafts₃, ?_, mapped₃, fun q k here => ?_, (out₃.trans out₂).trans out₁⟩
  · simp only [List.nil_append, List.cons_append] at free₁ free₂ free₃
    simp only [vmmFreeTables, vmmPtVaddr_eq, vmmPdEntry_eq, vmmPdVaddr_eq, vmmPdptEntry_eq,
      vmmPdptVaddr_eq, vmmPml4Entry_eq, free₁, free₂, free₃, Option.bind_eq_bind, Option.bind_some]
  · refine (near₃ q k here).resolve_left fun nil => ?_
    obtain ⟨-, -, above, i, split, -⟩ := mapped₃.mem.graft here
    rw [List.prefix_nil.mp nil] at split
    simp at split

/-- `vmm_unmap` takes one page away, and the PMM may get its frame. -/
theorem unmapPage (mapped : Mapped b s grafts pages data) (tight : Tight grafts pages)
    (free : Open b vaddr) {entry : BitVec 64}
    (page : pages (ptPath vaddr) (hwIndex vaddr 1) = some entry) {attr : BitVec 32} {pmm : Pmm}
    {left : Nat → Prop} (give : vmmFreePage s.pmm entry attr = (0, pmm))
    (marked : Marked b pmm grafts left) :
    ∃ s' grafts', vmmUnmapPage s vaddr attr = some (0, s') ∧
      Mapped b s' grafts' (setPage pages vaddr none) left ∧ Tight grafts' (setPage pages vaddr none) ∧
      Outside b grafts' grafts s' s := by
  obtain ⟨found, read⟩ := mapped.entryFromVaddr page
  obtain ⟨t₃, t₂, t₁, at_pdpt, at_pd, at_pt, -⟩ := mapped.tables_above page
  have grafted := mapped.mem.set_page at_pt rfl free.unused none nofun
  have written := mapped.write at_pt (hwIndex vaddr 1) 0#64 pmm
  rw [ptPath, ← vmmPtEntry_eq] at written
  have next : Mapped b { s with pmm := pmm, mem := s.mem.set t₁ (hwIndex vaddr 1) 0#64 } grafts
      (setPage pages vaddr none) left := ⟨mapped.cr3, grafted, marked⟩
  obtain ⟨s', grafts', tables, mapped', tight', out⟩ := next.freeTables at_pdpt at_pd at_pt
    fun q k graft => (tight q k graft).setPage none
  refine ⟨s', grafts', ?_, mapped', tight', out.tables, fun off => ?_⟩
  · simp [vmmUnmapPage, found, read, give, written, tables]
  · exact (PhysMem.set_frame _ _ fun eq => off _ (eq ▸ at_pt)).symm.trans (out.mem off)

end Mapped

/-! ## Ranges of pages -/

/-- The address `j` pages behind another. -/
def pageAfter (a : BitVec 64) (j : Nat) : BitVec 64 := a + BitVec.ofNat 64 (j * 4096)

@[simp] theorem pageAfter_zero (a : BitVec 64) : pageAfter a 0 = a := by
  simp [pageAfter]

theorem pageAfter_add (a : BitVec 64) (j k : Nat) :
    pageAfter (pageAfter a j) k = pageAfter a (j + k) := by
  rw [pageAfter, pageAfter, pageAfter, BitVec.add_assoc, ← BitVec.ofNat_add, Nat.add_mul]

theorem pageAfter_succ (a : BitVec 64) (j : Nat) : pageAfter a j + 4096#64 = pageAfter a (j + 1) :=
  pageAfter_add a j 1

/-- `num` pages from `vaddr` on are inside the VMA that is asked for, below slot 510. -/
def InVma (attr : BitVec 32) (vaddr : BitVec 64) (num : Nat) : Prop :=
  if attr &&& vmmAttrUser ≠ 0#32 then 4096 ≤ vaddr.toNat ∧ vaddr.toNat + num * 4096 ≤ 2 ^ 47
  else 0xffff800000000000 ≤ vaddr.toNat ∧ vaddr.toNat + num * 4096 ≤ 0xffffff0000000000

namespace InVma

variable {attr : BitVec 32} {vaddr : BitVec 64} {num j k : Nat}

theorem bounds (range : InVma attr vaddr num) : 0 < vaddr.toNat ∧
    (vaddr.toNat + num * 4096 ≤ 2 ^ 47 ∨
      0xffff800000000000 ≤ vaddr.toNat ∧ vaddr.toNat + num * 4096 ≤ 0xffffff0000000000) := by
  unfold InVma at range
  split at range <;> omega

theorem toNat_pageAfter (range : InVma attr vaddr num) (lt : j < num) :
    (pageAfter vaddr j).toNat = vaddr.toNat + j * 4096 := by
  obtain ⟨-, bounds⟩ := range.bounds
  rw [pageAfter, BitVec.toNat_add, BitVec.toNat_ofNat]
  omega

theorem slot (range : InVma attr vaddr num) (lt : j < num) : hwIndex (pageAfter vaddr j) 4 ≠ 510 := by
  obtain ⟨-, bounds⟩ := range.bounds
  intro eq
  have value := congrArg BitVec.toNat eq
  have top : (510 : Index).toNat = 510 := rfl
  rw [hwIndex_toNat, range.toNat_pageAfter lt, top] at value
  omega

theorem slot_inj (range : InVma attr vaddr num) (lt : j < num) (lt' : k < num)
    (path : ptPath (pageAfter vaddr j) = ptPath (pageAfter vaddr k))
    (index : hwIndex (pageAfter vaddr j) 1 = hwIndex (pageAfter vaddr k) 1) : j = k := by
  obtain ⟨-, bounds⟩ := range.bounds
  have same := page_of_slot path index
  rw [range.toNat_pageAfter lt, range.toNat_pageAfter lt'] at same
  omega

end InVma

/-- The pages that are mapped are those from `lo` to `hi` of a range. -/
def Covers (value : Nat → BitVec 64) (vaddr : BitVec 64) (pages : Pages) (lo hi : Nat) : Prop :=
  ∀ path i entry, pages path i = some entry ↔ ∃ j, lo ≤ j ∧ j < hi ∧
    path = ptPath (pageAfter vaddr j) ∧ i = hwIndex (pageAfter vaddr j) 1 ∧ entry = value j

namespace Covers

variable {value : Nat → BitVec 64} {vaddr : BitVec 64} {pages : Pages} {lo hi num : Nat}
  {attr : BitVec 32}

theorem congr {value' : Nat → BitVec 64} (covers : Covers value vaddr pages lo hi)
    (same : ∀ j, j < hi → value j = value' j) : Covers value' vaddr pages lo hi := by
  intro path i entry
  rw [covers]
  constructor
  · rintro ⟨j, ge, lt, path, index, rfl⟩
    exact ⟨j, ge, lt, path, index, same j lt⟩
  · rintro ⟨j, ge, lt, path, index, rfl⟩
    exact ⟨j, ge, lt, path, index, (same j lt).symm⟩

theorem none (covers : Covers value vaddr pages hi hi) (path : List Index) (i : Index) :
    pages path i = .none := by
  rw [Option.eq_none_iff_forall_ne_some]
  intro entry here
  obtain ⟨j, ge, lt, -⟩ := (covers path i entry).mp here
  omega

theorem unmap (covers : Covers value vaddr pages lo num) (range : InVma attr vaddr num)
    (lt : lo < num) :
    Covers value vaddr (setPage pages (pageAfter vaddr lo) .none) (lo + 1) num := by
  intro path i entry
  by_cases slot : path = ptPath (pageAfter vaddr lo) ∧ i = hwIndex (pageAfter vaddr lo) 1
  · obtain ⟨rfl, rfl⟩ := slot
    rw [setPage_self]
    constructor
    · rintro ⟨⟩
    · rintro ⟨j, after, before, path, index, -⟩
      have eq := range.slot_inj lt before path index
      omega
  · rw [setPage_other fun path index => slot ⟨path, index⟩, covers]
    constructor
    · rintro ⟨j, ge, before, path, index, rest⟩
      have off : j ≠ lo := by
        rintro rfl
        exact slot ⟨path, index⟩
      exact ⟨j, by omega, before, path, index, rest⟩
    · rintro ⟨j, ge, before, rest⟩
      exact ⟨j, by omega, before, rest⟩

end Covers

/-- The pages from `lo` to `hi` of a range have the entries `value`, all others those of `rest`. -/
structure Overlay (value : Nat → BitVec 64) (vaddr : BitVec 64) (rest pages : Pages) (lo hi : Nat) :
    Prop where
  on : ∀ j, lo ≤ j → j < hi →
    pages (ptPath (pageAfter vaddr j)) (hwIndex (pageAfter vaddr j) 1) = some (value j)
  off : ∀ {path i}, (∀ j, lo ≤ j → j < hi → path = ptPath (pageAfter vaddr j) →
    i ≠ hwIndex (pageAfter vaddr j) 1) → pages path i = rest path i

namespace Overlay

variable {value : Nat → BitVec 64} {vaddr : BitVec 64} {rest pages : Pages} {lo hi num : Nat}
  {attr : BitVec 32}

theorem refl {n : Nat} : Overlay value vaddr rest rest n n :=
  ⟨fun _ ge lt => absurd lt (Nat.not_lt.mpr ge), fun _ => rfl⟩

theorem congr {value' : Nat → BitVec 64} (overlay : Overlay value vaddr rest pages lo hi)
    (same : ∀ j, j < hi → value j = value' j) : Overlay value' vaddr rest pages lo hi :=
  ⟨fun j ge lt => by rw [overlay.on j ge lt, same j lt], overlay.off⟩

theorem map (overlay : Overlay value vaddr rest pages lo hi) (range : InVma attr vaddr num)
    (le : lo ≤ hi) (lt : hi < num) :
    Overlay value vaddr rest (setPage pages (pageAfter vaddr hi) (some (value hi))) lo (hi + 1) where
  on j ge before := by
    by_cases last : j = hi
    · rw [last, setPage_self]
    · rw [setPage_other fun path index => last (range.slot_inj (by omega) lt path index)]
      exact overlay.on j ge (by omega)
  off other := by
    rw [setPage_other (other hi le (Nat.lt_succ_self hi))]
    exact overlay.off fun j ge before => other j ge (by omega)

theorem unmap (overlay : Overlay value vaddr rest pages lo num) (range : InVma attr vaddr num)
    (lt : lo < num)
    (unused : rest (ptPath (pageAfter vaddr lo)) (hwIndex (pageAfter vaddr lo) 1) = none) :
    Overlay value vaddr rest (setPage pages (pageAfter vaddr lo) none) (lo + 1) num where
  on j ge before := by
    rw [setPage_other fun path index => by
      have eq := range.slot_inj before lt path index
      omega]
    exact overlay.on j (by omega) before
  off {path i} other := by
    by_cases slot : path = ptPath (pageAfter vaddr lo) ∧ i = hwIndex (pageAfter vaddr lo) 1
    · obtain ⟨rfl, rfl⟩ := slot
      rw [setPage_self, unused]
    · rw [setPage_other fun path index => slot ⟨path, index⟩]
      refine overlay.off fun j ge before path index => ?_
      by_cases first : j = lo
      · exact slot ⟨first ▸ path, first ▸ index⟩
      · exact other j (by omega) before path index

/-- Pages with those of a range taken out. -/
theorem exists_rest (on : ∀ j, j < num →
    pages (ptPath (pageAfter vaddr j)) (hwIndex (pageAfter vaddr j) 1) = some (value j)) :
    ∃ rest, Overlay value vaddr rest pages 0 num ∧ ∀ j, j < num →
      rest (ptPath (pageAfter vaddr j)) (hwIndex (pageAfter vaddr j) 1) = none := by
  classical
  refine ⟨fun path i => if ∃ j, j < num ∧ path = ptPath (pageAfter vaddr j) ∧
    i = hwIndex (pageAfter vaddr j) 1 then none else pages path i, ⟨fun j _ lt => on j lt, ?_⟩, ?_⟩
  · intro path i other
    rw [if_neg]
    rintro ⟨j, lt, here, index⟩
    exact other j (Nat.zero_le j) lt here index
  · intro j lt
    exact if_pos ⟨j, lt, rfl, rfl⟩

theorem covers (overlay : Overlay value vaddr (fun _ _ => none) pages lo hi) :
    Covers value vaddr pages lo hi := by
  intro path i entry
  constructor
  · intro here
    by_contra other
    rw [overlay.off fun j ge lt path index => other ⟨j, ge, lt, path, index, ?_⟩] at here
    · cases here
    · rw [path, index, overlay.on j ge lt] at here
      exact (Option.some.inj here).symm
  · rintro ⟨j, ge, lt, rfl, rfl, rfl⟩
    exact overlay.on j ge lt

end Overlay

/-! ## The flags -/

theorem vmmAttrToFlags_table (attr : BitVec 32) :
    vmmAttrToFlags attr true &&& 7#64 = vmmAttrToFlags attr true ∧
      hwPresent (vmmAttrToFlags attr true) = true := by
  unfold vmmAttrToFlags
  by_cases user : attr &&& vmmAttrUser = 0#32
  · simp only [user, ne_eq, not_true, if_true, if_false]
    decide
  · simp only [user, ne_eq, not_false_iff, if_true]
    decide

theorem vmmAttrToFlags_page (attr : BitVec 32) :
    vmmAttrToFlags attr false &&& pteFlagsClear = 0#64 ∧
      hwPresent (vmmAttrToFlags attr false) = true ∧
      (attr &&& vmmAttrSave = 0#32 → (vmmAttrToFlags attr false).getLsbD 9 = true) := by
  unfold vmmAttrToFlags
  by_cases user : attr &&& vmmAttrUser = 0#32 <;> by_cases save : attr &&& vmmAttrSave = 0#32 <;>
    by_cases noExec : attr &&& vmmAttrNoExec = 0#32 <;>
    by_cases noCache : attr &&& vmmAttrNoCache = 0#32 <;>
    by_cases rdonly : attr &&& vmmAttrRdonly = 0#32 <;>
    simp only [user, save, noExec, noCache, rdonly, ne_eq, not_true, not_false_iff, if_true, if_false,
      Bool.false_eq_true] <;>
    decide

/-! ## Loops over pages -/

namespace Mapped

variable {s s' : Vmm} {grafts : Grafts} {pages : Pages} {data : Nat → Prop} {attr : BitVec 32}
  {paddr vaddr : BitVec 64} {num : Nat}

/-- `vmm_map` maps page after page. -/
theorem mapPages (mapped : Mapped b s grafts pages data) (tight : Tight grafts pages)
    (range : InVma attr vaddr num) (free : ∀ j, j < num → Open b (pageAfter vaddr j))
    (flags : vmmAttrToFlags attr true = b.flags) {n j : Nat} (left : j + n = num) {rest : Pages}
    (overlay : Overlay (fun j => pageAfter paddr j ||| vmmAttrToFlags attr false) vaddr rest pages 0 j)
    (done : vmmMapPages boot s (pageAfter paddr j) (pageAfter vaddr j) attr n = some s')
    (ok : s'.pmm.failed = s.pmm.failed) :
    ∃ grafts' pages', Mapped b s' grafts' pages' data ∧ Tight grafts' pages' ∧
      Overlay (fun j => pageAfter paddr j ||| vmmAttrToFlags attr false) vaddr rest pages' 0 num ∧
      Outside b grafts grafts' s s' := by
  induction n generalizing s grafts pages j with
  | zero =>
      obtain rfl : j = num := left
      cases done
      exact ⟨grafts, pages, mapped, tight, overlay, .refl b grafts _⟩
  | succ n ih =>
      obtain ⟨s₁, page, rest'⟩ := Option.bind_eq_some_iff.mp done
      have le₁ := vmmMapPage_failed_le page
      have le₂ := vmmMapPages_failed_le rest'
      have present : hwPresent (pageAfter paddr j ||| vmmAttrToFlags attr false) = true := by
        have present := (vmmAttrToFlags_page attr).2.1
        simp only [hwPresent] at present
        rw [hwPresent, BitVec.getLsbD_or, present, Bool.or_true]
      obtain ⟨grafts₁, mapped₁, tight₁, out₁⟩ := mapped.mapPage tight (free j (by omega)) flags present
        page (by omega)
      rw [pageAfter_succ, pageAfter_succ] at rest'
      obtain ⟨grafts₂, pages₂, mapped₂, tight₂, overlay₂, out₂⟩ := ih mapped₁ tight₁ (by omega)
        (overlay.map range (Nat.zero_le j) (by omega)) rest' (by omega)
      exact ⟨grafts₂, pages₂, mapped₂, tight₂, overlay₂, out₁.trans out₂⟩

/-- `vmm_unmap` takes page after page away. -/
theorem unmapPages {first j n : Nat}
    (mapped : Mapped b s grafts pages (fun k => first + j ≤ k ∧ k < first + num))
    (tight : Tight grafts pages) (range : InVma attr vaddr num)
    (free : ∀ j, j < num → Open b (pageAfter vaddr j)) (save : attr &&& vmmAttrSave = 0#32)
    (left : j + n = num)
    (covers : Covers (fun j => BitVec.ofNat 64 (b.pmm.pageAt (first + j)) |||
      vmmAttrToFlags attr false) vaddr pages j num) :
    ∃ s' grafts' pages', vmmUnmap s (pageAfter vaddr j) 0#32 n = some (0, s') ∧
      Mapped b s' grafts' pages' (fun _ => False) ∧ Tight grafts' pages' ∧
      ∀ path i, pages' path i = none := by
  induction n generalizing s grafts pages j with
  | zero =>
      obtain rfl : j = num := left
      have none : (fun k => first + j ≤ k ∧ k < first + j) = fun _ => False := by
        funext k
        simp only [eq_iff_iff, iff_false]
        omega
      rw [none] at mapped
      exact ⟨s, grafts, pages, rfl, mapped, tight, covers.none⟩
  | succ n ih =>
      have page := (covers _ _ _).mpr ⟨j, Nat.le_refl j, by omega, rfl, rfl, rfl⟩
      have here : first + j ≤ first + j ∧ first + j < first + num := by omega
      obtain ⟨-, -, aligned, low⟩ := b.page_spec (mapped.pmm.data_available (first + j) here).1
      obtain ⟨clear, -, bit⟩ := vmmAttrToFlags_page attr
      have flag : (BitVec.ofNat 64 (b.pmm.pageAt (first + j)) ||| vmmAttrToFlags attr false) &&&
          pteFlagPMM ≠ 0#64 := by
        intro unset
        have at_bit := congrArg (BitVec.getLsbD · 9) unset
        simp only [BitVec.getLsbD_and, BitVec.getLsbD_or, bit save, Bool.or_true, Bool.true_and] at at_bit
        exact absurd at_bit (by decide)
      have addr : (vmmEntryToAddr (BitVec.ofNat 64 (b.pmm.pageAt (first + j)) |||
          vmmAttrToFlags attr false)).toNat = b.pmm.pageAt (first + j) := by
        rw [vmmEntryToAddr_page aligned low clear, BitVec.toNat_ofNat]
        exact Nat.mod_eq_of_lt (by omega)
      obtain ⟨pmm₁, freed, marked⟩ := mapped.pmm.free_data here
      have give : vmmFreePage s.pmm (BitVec.ofNat 64 (b.pmm.pageAt (first + j)) |||
          vmmAttrToFlags attr false) 0#32 = (0, pmm₁) := by
        rw [vmmFreePage, if_pos ⟨flag, by decide⟩, addr, freed]
      obtain ⟨s₁, grafts₁, unmap, mapped₁, tight₁, -⟩ := mapped.unmapPage tight (free j (by omega)) page
        give marked
      have less : (fun k => (first + j ≤ k ∧ k < first + num) ∧ k ≠ first + j) =
          fun k => first + (j + 1) ≤ k ∧ k < first + num := by
        funext k
        rw [eq_iff_iff]
        omega
      rw [less] at mapped₁
      obtain ⟨s₂, grafts₂, pages₂, rest, ends⟩ := ih mapped₁ tight₁ (by omega)
        (covers.unmap range (by omega))
      refine ⟨s₂, grafts₂, pages₂, ?_, ends⟩
      rw [vmmUnmap, unmap, Option.bind_eq_bind, Option.bind_some, pageAfter_succ]
      simp [rest]

/-- `vmm_unmap` of a range with `VMM_ATTR_SAVE`, which leaves the other pages and all data. -/
theorem unmapSaved (mapped : Mapped b s grafts pages data) (tight : Tight grafts pages)
    (range : InVma attr vaddr num) (free : ∀ j, j < num → Open b (pageAfter vaddr j)) {j n : Nat}
    (left : j + n = num) {value : Nat → BitVec 64} {rest : Pages}
    (overlay : Overlay value vaddr rest pages j num)
    (unused : ∀ j, j < num → rest (ptPath (pageAfter vaddr j)) (hwIndex (pageAfter vaddr j) 1) = none) :
    ∃ s' grafts' pages', vmmUnmap s (pageAfter vaddr j) vmmAttrSave n = some (0, s') ∧
      Mapped b s' grafts' pages' data ∧ Tight grafts' pages' ∧
      Overlay value vaddr rest pages' num num ∧ Outside b grafts' grafts s' s := by
  induction n generalizing s grafts pages j with
  | zero =>
      obtain rfl : j = num := left
      exact ⟨s, grafts, pages, rfl, mapped, tight, overlay, .refl b grafts s⟩
  | succ n ih =>
      have page := overlay.on j (Nat.le_refl j) (by omega)
      have save : vmmFreePage s.pmm (value j) vmmAttrSave = (0, s.pmm) :=
        if_neg fun free => absurd free.2 (by decide)
      obtain ⟨s₁, grafts₁, unmap, mapped₁, tight₁, out₁⟩ :=
        mapped.unmapPage tight (free j (by omega)) page save mapped.pmm
      obtain ⟨s₂, grafts₂, pages₂, rest', mapped₂, tight₂, overlay₂, out₂⟩ := ih mapped₁ tight₁ (by omega)
        (overlay.unmap range (by omega) (unused j (by omega)))
      refine ⟨s₂, grafts₂, pages₂, ?_, mapped₂, tight₂, overlay₂, out₂.trans out₁⟩
      rw [vmmUnmap, unmap, Option.bind_eq_bind, Option.bind_some, pageAfter_succ]
      simp [rest']

end Mapped

/-! ## Translation -/

/-- What `__vmm_entry_from_vaddr` finds no entry for has no page. -/
theorem hwLeaf_unmapped {s : Vmm} (rec : Recursive s.mem s.cr3) {vaddr : BitVec 64}
    (unmapped : vmmEntryFromVaddr s vaddr = some none) : hwLeaf s.mem s.cr3 vaddr = none := by
  have found := (vmmFinds rec vaddr).entry
  rw [unmapped] at found
  exact Option.map_eq_none_iff.mp (Option.some.inj found).symm

theorem Similar.hwPage {old entry : BitVec 64} (similar : Similar old entry) {level : Nat}
    (pos : 0 < level) (le : level ≤ 4) (vaddr : BitVec 64) :
    Mm.hwPage level entry vaddr = Mm.hwPage level old vaddr := by
  obtain ⟨flags, within, -, rfl⟩ := similar
  apply BitVec.eq_of_getLsbD_eq
  intro i lt
  rw [getLsbD_hwPage le _ _ lt, getLsbD_hwPage le _ _ lt]
  split
  · rfl
  · rw [BitVec.getLsbD_or, getLsbD_tableFlags within (by omega), Bool.or_false]

namespace Grafted

variable {mem : PhysMem} {grafts : Grafts} {pages : Pages}

/-- An entry that was in use has at most got flags. -/
theorem similar_used (grafted : Grafted b mem grafts pages) {path : List Index} {t : Frame} {i : Index}
    (at_path : b.tables path = some t) (used : b.mem t i ≠ 0#64) : Similar (b.mem t i) (mem t i) := by
  have reached := @all_of_old _ _ grafts _ _ at_path
  have old := b.old_eq at_path i
  rw [← old] at used ⊢
  by_cases low : path.length = 3
  · rw [grafted.leaf reached low i]
    cases page : pages path i with
    | none => exact .refl _
    | some entry => exact absurd (grafted.page page).2.2.1 used
  · have short := grafted.length_le reached
    obtain ⟨k, here, -⟩ | ⟨-, similar⟩ := grafted.upper reached (by omega) i
    · exact absurd (grafted.graft_concat here).2.2.2.2 used
    · exact similar

/-- The walk of an address that was mapped ends at the same entry. -/
theorem walk_mapped (grafted : Grafted b mem grafts pages) {vaddr : BitVec 64} {level l : Nat}
    {entry : BitVec 64} {path : List Index} {t : Frame} (at_path : b.tables path = some t)
    (short : path.length + level ≤ 4) (found : (hwWalk b.mem vaddr level t).2 = some (l, entry)) :
    0 < l ∧ l ≤ level ∧
      ∃ entry', (hwWalk mem vaddr level t).2 = some (l, entry') ∧ Similar entry entry' := by
  induction level generalizing path t with
  | zero => cases found
  | succ level ih =>
      by_cases unused : b.mem t (hwIndex vaddr (level + 1)) = 0#64
      · rw [hwWalk_unused unused] at found
        cases found
      have similar := grafted.similar_used at_path unused
      have present := b.tree.present at_path unused
      have present' := similar.hwPresent present
      by_cases last : level = 0 ∨ level < 3 ∧ hwLarge (b.mem t (hwIndex vaddr (level + 1))) = true
      · rw [hwWalk_page present last] at found
        cases found
        rw [hwWalk_page present' (by rwa [similar.hwLarge])]
        exact ⟨Nat.succ_pos level, Nat.le_refl _, _, rfl, similar⟩
      · rw [hwWalk_table present last] at found
        rw [hwWalk_table present' (by rwa [similar.hwLarge]), similar.hwFrame]
        obtain ⟨path', at_path', short', -⟩ := b.tree.below at_path short unused last
        obtain ⟨pos, le, rest⟩ := ih at_path' short' found
        exact ⟨pos, by omega, rest⟩

end Grafted

namespace Mapped

variable {s s' : Vmm} {grafts : Grafts} {pages : Pages} {data : Nat → Prop} {vaddr paddr : BitVec 64}

/-- An address that was mapped has the same physical address. -/
theorem translate_old (mapped : Mapped b s grafts pages data)
    (found : hwTranslate b.mem b.cr3 vaddr = some paddr) :
    hwTranslate s.mem s.cr3 vaddr = some paddr := by
  rw [hwTranslate] at found ⊢
  split at found
  · next canon =>
      rw [if_pos canon, mapped.cr3]
      obtain ⟨⟨level, entry⟩, walk, page⟩ := Option.map_eq_some_iff.mp found
      obtain ⟨pos, le, entry', walk', similar⟩ := mapped.mem.walk_mapped b.tree.root (by simp) walk
      rw [walk']
      exact congrArg some ((similar.hwPage pos le vaddr).trans page)
  · cases found

/-- An address that was mapped is resolved as before. -/
theorem resolve_old (mapped : Mapped b s grafts pages data) {s₀ : Vmm} (mem : s₀.mem = b.mem)
    (cr3 : s₀.cr3 = b.cr3) (found : hwLeaf b.mem b.cr3 vaddr ≠ none) :
    vmmResolve s vaddr = vmmResolve s₀ vaddr := by
  obtain ⟨⟨level, entry⟩, walk⟩ := Option.ne_none_iff_exists'.mp found
  obtain ⟨-, -, entry', walk', similar⟩ := mapped.mem.walk_mapped b.tree.root (by simp) walk
  have tree := mapped.mem.tree.recursive
  have tree₀ := b.tree.recursive
  rw [← mapped.cr3] at tree
  rw [← mem, ← cr3] at tree₀
  rw [hwLeaf] at walk
  rw [vmmResolve_eq tree, vmmResolve_eq tree₀, mapped.cr3, mem, cr3, walk, walk']
  exact congrArg some (similar.vmmResolveEntry vaddr)

/-- An address of a new page is in the frame of its entry. -/
theorem translate_page (mapped : Mapped b s grafts pages data) {entry : BitVec 64}
    (page : pages (ptPath vaddr) (hwIndex vaddr 1) = some entry) (canon : canonical vaddr = true) :
    hwTranslate s.mem s.cr3 vaddr = some (hwPage 1 entry vaddr) := by
  obtain ⟨-, -, t, -, -, at_pt, -, -, -, value⟩ := mapped.tables_above page
  have present := (mapped.mem.page page).2.2.2
  have used : s.mem t (hwIndex vaddr 1) ≠ 0#64 := by
    rw [value]
    rintro rfl
    cases present
  have leaf := mapped.mem.tree.leaf_of_pt at_pt used
  rw [hwLeaf, value] at leaf
  rw [hwTranslate, if_pos canon, mapped.cr3, leaf]
  rfl

/-- Data may be written: the tables decide what is mapped. -/
theorem congr (mapped : Mapped b s grafts pages data) {mem : PhysMem}
    (same : ∀ {path t}, b.all grafts path = some t → mem t = s.mem t) :
    Mapped b { s with mem := mem } grafts pages data where
  cr3 := mapped.cr3
  pmm := mapped.pmm
  mem := { mapped.mem with
    holds := fun at_path i => by
      dsimp only
      rw [same at_path]
      exact mapped.mem.holds at_path i }

/-- The code finds no page where one can be mapped and was not. -/
theorem unmapped_of_open (mapped : Mapped b s grafts pages data) (free : Open b vaddr)
    (noPage : pages (ptPath vaddr) (hwIndex vaddr 1) = none) : vmmEntryFromVaddr s vaddr = some none := by
  have tree := mapped.mem.tree
  have leaf : hwLeaf s.mem b.cr3 vaddr = none := by
    refine tree.leaf_none free.slot (fun {path t i} before at_path => ?_) fun {t} at_pt => ?_
    · obtain ⟨k, here, entry⟩ | ⟨-, similar⟩ :=
        mapped.mem.upper at_path (ptPath_branch free.slot before).1 i
      · rw [entry]
        exact .inr (b.pointer_spec (mapped.mem.graft_concat here).2.1.1).1
      · obtain unused | pointer := free.upper before
        · exact .inl (similar.eq_zero_iff.mpr unused)
        · exact .inr ⟨similar.hwPresent pointer.1, similar.hwLarge.trans pointer.2⟩
    · rw [mapped.mem.leaf at_pt rfl, noPage, Option.getD_none, free.unused]
  rw [← mapped.cr3] at tree leaf
  rw [hwLeaf] at leaf
  rw [(vmmFinds tree.recursive vaddr).entry, leaf]
  rfl

/-- Where the code finds no page, one can be mapped, and there is no new page yet. -/
theorem open_of_unmapped (mapped : Mapped b s grafts pages data) (slot : hwIndex vaddr 4 ≠ 510)
    (unmapped : vmmEntryFromVaddr s vaddr = some none) :
    Open b vaddr ∧ pages (ptPath vaddr) (hwIndex vaddr 1) = none := by
  have tree := mapped.mem.tree
  rw [← mapped.cr3] at tree
  obtain ⟨ways, last⟩ := tree.open_way (hwLeaf_unmapped tree.recursive unmapped)
  refine ⟨⟨slot, fun {path i} before => ?_, ?_⟩, ?_⟩
  · rw [or_iff_not_imp_left]
    intro used
    obtain ⟨t, at_path, old⟩ := MapBase.exists_of_old used
    rw [old] at used ⊢
    have similar := mapped.mem.similar_used at_path used
    have pointer :=
      (ways before (Grafted.all_of_old at_path)).resolve_left (mt similar.eq_zero_iff.mp used)
    exact ⟨b.tree.present at_path used, similar.hwLarge.symm.trans pointer.2⟩
  · by_contra used
    obtain ⟨t, at_pt, old⟩ := MapBase.exists_of_old used
    rw [old] at used
    have similar := mapped.mem.similar_used at_pt used
    exact used (similar.eq_zero_iff.mp (last (Grafted.all_of_old at_pt)))
  · rw [Option.eq_none_iff_forall_ne_some]
    intro entry page
    obtain ⟨-, reached, -, present⟩ := mapped.mem.page page
    obtain ⟨t, at_pt⟩ := Option.isSome_iff_exists.mp reached
    have value := mapped.mem.leaf at_pt rfl (hwIndex vaddr 1)
    rw [page, last at_pt] at value
    obtain rfl : 0#64 = entry := value
    cases present

end Mapped

end Sdx.Mm
