import Sdx.Lib.Scan
import Sdx.Mm.VmmPages

/-! # Mapping and unmapping

`vmm_map` goes from the beginning to a state in which every new table has a page below it,
one page after the other, and `vmm_unmap` takes the same pages away. The tables that become
empty go with them, so the tree and the bitmap are in the end what they were.
-/

namespace Sdx.Mm

open Sdx.Lib.Scan

variable {boot : BootInfo} {b : MapBase boot}

/-! ## The range that is found -/

/-- From `vaddr` on there are `num` pages that are not mapped, and `vaddr` is aligned. -/
def Vacant (s : Vmm) (num align : Nat) (vaddr : BitVec 64) : Prop :=
  (align = 0 ∨ vaddr.toNat % align = 0) ∧
    ∀ j, j < num → vmmEntryFromVaddr s (pageAfter vaddr j) = some none

theorem fitsAt_iff_vacant {s : Vmm} {base : BitVec 64} {num align k : Nat} :
    FitsAt (pageAfter base) (fun pos => align = 0 ∨ pos.toNat % align = 0)
      (fun j => vmmEntryFromVaddr s (pageAfter base j) = some none) num k ↔
    Vacant s num align (pageAfter base k) := by
  refine and_congr_right' ⟨fun unused j lt => ?_, fun unused j low high => ?_⟩
  · rw [pageAfter_add]
    exact unused (k + j) (by omega) (by omega)
  · have here := unused (j - k) (by omega)
    rwa [pageAfter_add, Nat.add_sub_cancel' low] at here

theorem vmmFindContiguousLoop_first {s : Vmm} {base : BitVec 64} {num align fuel k cur : Nat}
    {start vaddr : BitVec 64}
    (first : FirstAt (pageAfter base) (fun pos => align = 0 ∨ pos.toNat % align = 0)
      (fun j => vmmEntryFromVaddr s (pageAfter base j) = some none) num k start cur)
    (done : vmmFindContiguousLoop s num align fuel (pageAfter base k) start cur = some vaddr)
    (some_page : 0 < num) (found : vaddr ≠ 0#64) :
    ∃ k, vaddr = pageAfter base k ∧ Vacant s num align vaddr ∧
      ∀ k', Vacant s num align (pageAfter base k') → k ≤ k' := by
  induction fuel generalizing k start cur with
  | zero => cases done
  | succ fuel ih =>
      rw [vmmFindContiguousLoop] at done
      by_cases more : num > cur
      · rw [if_pos more] at done
        by_cases skip : cur = 0 ∧ align ≠ 0 ∧ (pageAfter base k).toNat % align ≠ 0
        · rw [if_pos skip, pageAfter_succ] at done
          obtain ⟨rfl, unaligned⟩ := skip
          exact ih (first.skip (not_or.mpr unaligned)) done
        · rw [if_neg skip] at done
          obtain ⟨entry, here, done⟩ := Option.bind_eq_some_iff.mp done
          rw [pageAfter_succ] at done
          cases entry with
          | some entry =>
              refine ih (first.reset more fun unused => ?_) done
              rw [here] at unused
              cases unused
          | none =>
              refine ih (first.extend (fun zero => ?_) here) done
              simp only [zero, true_and, not_and_or, not_not] at skip
              exact skip
      · rw [if_neg more] at done
        by_cases all : cur = num
        · subst all
          rw [if_neg (by simp)] at done
          cases done
          obtain ⟨k, rfl, fits, least⟩ := first.found some_page
          exact ⟨k, rfl, fitsAt_iff_vacant.mp fits,
            fun k' fits' => least k' (fitsAt_iff_vacant.mpr fits')⟩
        · rw [if_pos all] at done
          exact absurd (Option.some.inj done).symm found

/-- Where `__vmm_find_contiguous` begins. -/
def vmmFindStart (attr : BitVec 32) : BitVec 64 :=
  if attr &&& vmmAttrUser ≠ 0#32 then vmmVmaUserStart else vmmVmaKernelStart

/-- `__vmm_find_contiguous` finds the first aligned range of pages that are not mapped. -/
theorem vmmFindContiguous_first {s : Vmm} {fuel num align : Nat} {attr : BitVec 32}
    {vaddr : BitVec 64} (done : vmmFindContiguous s fuel num align attr = some vaddr)
    (some_page : 0 < num) (found : vaddr ≠ 0#64) :
    ∃ k, vaddr = pageAfter (vmmFindStart attr) k ∧ Vacant s num align vaddr ∧
      ∀ k', Vacant s num align (pageAfter (vmmFindStart attr) k') → k ≤ k' := by
  rw [vmmFindContiguous, ← vmmFindStart, ← pageAfter_zero (vmmFindStart attr)] at done
  exact vmmFindContiguousLoop_first .init done some_page found

theorem vmmFindContiguous_spec {s : Vmm} {fuel num align : Nat} {attr : BitVec 32} {vaddr : BitVec 64}
    (done : vmmFindContiguous s fuel num align attr = some vaddr) (some_page : 0 < num)
    (found : vaddr ≠ 0#64) : Vacant s num align vaddr := by
  obtain ⟨-, -, vacant, -⟩ := vmmFindContiguous_first done some_page found
  exact vacant

/-- `vmm_map` maps a range where there were no pages, neither of the tree nor new ones. -/
theorem Mapped.vmmMap {s s' : Vmm} {grafts : Grafts} {pages : Pages} {data : Nat → Prop}
    (mapped : Mapped b s grafts pages data) (tight : Tight grafts pages) {fuel num align : Nat}
    {attr : BitVec 32} {vaddr : BitVec 64} (flags : vmmAttrToFlags attr true = b.flags)
    (some_page : 0 < num) (done : vmmMap boot s fuel num align attr = some (vaddr, s'))
    (range : InVma attr vaddr num) (ok : s'.pmm.failed = s.pmm.failed) :
    (∀ j, j < num → Open b (pageAfter vaddr j) ∧
      pages (ptPath (pageAfter vaddr j)) (hwIndex (pageAfter vaddr j) 1) = none) ∧
    ∃ first grafts' pages', (∀ k, first ≤ k → k < first + num → b.pmm.Available boot k ∧ ¬ data k) ∧
      Mapped b s' grafts' pages' (fun k => data k ∨ first ≤ k ∧ k < first + num) ∧
      Tight grafts' pages' ∧
      Overlay (fun j => BitVec.ofNat 64 (b.pmm.pageAt (first + j)) ||| vmmAttrToFlags attr false) vaddr
        pages pages' 0 num ∧
      Outside b grafts grafts' s s' := by
  have positive : 0#64 ≠ vaddr := by
    rintro rfl
    exact absurd range.bounds.1 (by decide)
  obtain ⟨found, contiguous, done⟩ := Option.bind_eq_some_iff.mp done
  split at done
  · exact absurd (congrArg Prod.fst (Option.some.inj done)) positive
  next nonzero =>
  have unmapped := (vmmFindContiguous_spec contiguous some_page nonzero).2
  unfold vmmMapToVaddrInternal at done
  obtain fails | ⟨first, pmm, alloc, kept, available, marked⟩ := mapped.pmm.allocPages align some_page
  · rw [fails] at done
    exact absurd (congrArg Prod.fst (Option.some.inj done)) positive
  have data (j : Nat) (lt : j < num) :
      b.pmm.pageAt (first + j) = b.pmm.regFree.start + (first + j) * pageSize ∧
        0 < b.pmm.pageAt (first + j) := by
    obtain ⟨exact', pos, -⟩ := b.page_spec (available (first + j) (by omega) (by omega)).1.1
    exact ⟨exact', pos⟩
  obtain ⟨exact₀, pos₀⟩ := data 0 some_page
  rw [Nat.add_zero] at exact₀ pos₀
  rw [alloc] at done
  dsimp only at done
  rw [if_neg (Nat.ne_of_gt pos₀)] at done
  obtain ⟨s₁, loop, same⟩ := Option.map_eq_some_iff.mp done
  obtain ⟨rfl, rfl⟩ := Prod.mk.inj same
  have free (j : Nat) (lt : j < num) := mapped.open_of_unmapped (range.slot lt) (unmapped j lt)
  have next : Mapped b { s with pmm := pmm } grafts pages _ := ⟨mapped.cr3, mapped.mem, marked⟩
  rw [← pageAfter_zero (BitVec.ofNat 64 (b.pmm.pageAt first)), ← pageAfter_zero found] at loop
  obtain ⟨grafts', pages', mapped', tight', overlay, out⟩ := next.mapPages tight range
    (fun j lt => (free j lt).1) flags (Nat.zero_add num) .refl loop (ok.trans kept.symm)
  refine ⟨free, first, grafts', pages', available, mapped', tight', overlay.congr fun j lt => ?_,
    out.tables, out.mem⟩
  obtain ⟨exact', -⟩ := data j lt
  rw [pageAfter, ← BitVec.ofNat_add, exact', exact₀, pageSize]
  congr 2
  omega

/-! ## The two ends -/

namespace Grafted

variable {mem : PhysMem} {grafts : Grafts} {pages : Pages}

/-- Without grafts only table flags are left. -/
theorem similar (grafted : Grafted b mem grafts pages) (noGraft : ∀ path, grafts path = none)
    (noPage : ∀ path i, pages path i = none) {path : List Index} {t : Frame}
    (at_path : b.tables path = some t) (i : Index) : Similar (b.mem t i) (mem t i) := by
  have reached := @Grafted.all_of_old _ _ grafts _ _ at_path
  rw [← b.old_eq at_path]
  by_cases low : path.length = 3
  · rw [grafted.leaf reached low i, noPage]
    exact .refl _
  · have short := grafted.length_le reached
    obtain ⟨k, here, -⟩ | ⟨-, similar⟩ := grafted.upper reached (by omega) i
    · rw [noGraft] at here
      cases here
    · exact similar

/-- Without grafts `vmm_resolve` makes the same of where the processor's walk ends. -/
theorem walk_similar (grafted : Grafted b mem grafts pages) (noGraft : ∀ path, grafts path = none)
    (noPage : ∀ path i, pages path i = none) (vaddr : BitVec 64) (level : Nat) {path : List Index}
    {t : Frame} (at_path : b.tables path = some t) (short : path.length + level ≤ 4) :
    (hwWalk mem vaddr level t).2.elim 0 (fun (_, entry) => vmmResolveEntry entry vaddr) =
      (hwWalk b.mem vaddr level t).2.elim 0 fun (_, entry) => vmmResolveEntry entry vaddr := by
  induction level generalizing path t with
  | zero => rfl
  | succ level ih =>
      have similar := grafted.similar noGraft noPage at_path (hwIndex vaddr (level + 1))
      by_cases unused : b.mem t (hwIndex vaddr (level + 1)) = 0#64
      · rw [hwWalk_unused unused, hwWalk_unused (similar.eq_zero_iff.mpr unused)]
      have present := b.tree.present at_path unused
      have present' := similar.hwPresent present
      by_cases last : level = 0 ∨
          level < 3 ∧ hwLarge (b.mem t (hwIndex vaddr (level + 1))) = true
      · rw [hwWalk_page present last, hwWalk_page present' (by rwa [similar.hwLarge])]
        exact similar.vmmResolveEntry vaddr
      · rw [hwWalk_table present last, hwWalk_table present' (by rwa [similar.hwLarge]),
          similar.hwFrame]
        obtain ⟨path', at_path', short', -⟩ := b.tree.below at_path short unused last
        exact ih at_path' short'

end Grafted

/-- What `vmm_map` and `vmm_unmap` rely on: the page tables are a tree whose tables below the PML4
    are not empty, and the PMM has its bitmap and hands out no table of the tree. -/
structure MapReady (boot : BootInfo) (s : Vmm) (tables : Tables) : Prop where
  tree : PageTree s.mem s.cr3 tables
  full : ∀ {path t}, tables path = some t → path ≠ [] → ∃ i, s.mem t i ≠ 0#64
  ready : s.pmm.bmIsReady = true
  nonempty : 0 < s.pmm.covered
  start : 0 < s.pmm.regFree.start ∧ 4096 ∣ s.pmm.regFree.start
  unused : ∀ {k}, s.pmm.Available boot k → ∀ path, tables path ≠ some (s.pmm.frameOf k)

namespace MapReady

variable {s : Vmm} {tables : Tables}

def base (ready : MapReady boot s tables)
    (low : s.pmm.regFree.start + s.pmm.covered * pageSize ≤ 2 ^ 47) (attr : BitVec 32) : MapBase boot :=
  { ready with
    mem := s.mem
    cr3 := s.cr3
    tables := tables
    pmm := s.pmm
    low := low
    flags := vmmAttrToFlags attr true
    flags_within := (vmmAttrToFlags_table attr).1
    flags_present := (vmmAttrToFlags_table attr).2 }

theorem mapped (ready : MapReady boot s tables)
    (low : s.pmm.regFree.start + s.pmm.covered * pageSize ≤ 2 ^ 47) (attr : BitVec 32) :
    Mapped (ready.base low attr) s (fun _ => none) (fun _ _ => none) fun _ => False where
  cr3 := rfl
  mem := by
    refine ⟨fun {path t} at_path i => ?_, nofun, nofun, nofun⟩
    have old : (ready.base low attr).tables path = some t := by
      obtain old | ⟨-, k, here, -⟩ := Grafted.all_cases at_path
      · exact old
      · cases here
    have entry : s.mem t i = (ready.base low attr).old path i := ((ready.base low attr).old_eq old i).symm
    unfold MapBase.Holds
    split
    · exact entry
    · rw [entry]
      exact .refl _
  pmm := ⟨⟨rfl, rfl, rfl, rfl⟩, fun k => by simp [base], nofun, nofun⟩

/-- What `vmm_map` comes to: the pages of the range are mapped, and every new table is there for one
    of them. -/
theorem vmmMap_spec (ready : MapReady boot s tables)
    (low : s.pmm.regFree.start + s.pmm.covered * pageSize ≤ 2 ^ 47) {s' : Vmm} {fuel num align : Nat}
    {attr : BitVec 32} {vaddr : BitVec 64} (some_page : 0 < num)
    (done : vmmMap boot s fuel num align attr = some (vaddr, s')) (range : InVma attr vaddr num)
    (ok : s'.pmm.failed = s.pmm.failed) :
    (∀ j, j < num → Open (ready.base low attr) (pageAfter vaddr j)) ∧
      ∃ first grafts pages,
        Mapped (ready.base low attr) s' grafts pages (fun k => first ≤ k ∧ k < first + num) ∧
        Tight grafts pages ∧ Covers (fun j => BitVec.ofNat 64 (s.pmm.pageAt (first + j)) |||
          vmmAttrToFlags attr false) vaddr pages 0 num := by
  obtain ⟨free, first, grafts, pages, -, mapped, tight, overlay, -⟩ :=
    (ready.mapped low attr).vmmMap .empty rfl some_page done range ok
  simp only [false_or] at mapped
  exact ⟨fun j lt => (free j lt).1, first, grafts, pages, mapped, tight, overlay.covers⟩

end MapReady

/-- Without pages `vmm_resolve` and the bitmap are those of the beginning. -/
theorem Mapped.ends {s s' : Vmm} {grafts : Grafts} {pages : Pages}
    (mapped : Mapped b s' grafts pages fun _ => False) (tight : Tight grafts pages)
    (noPage : ∀ path i, pages path i = none) (mem : s.mem = b.mem) (cr3 : s.cr3 = b.cr3) :
    (∀ v, vmmResolve s' v = vmmResolve s v) ∧ s'.pmm.bm = b.pmm.bm := by
  have noGraft (path : List Index) : grafts path = none := by
    rw [Option.eq_none_iff_forall_ne_some]
    intro k here
    obtain ⟨pt, i, entry, page, -⟩ := tight path k here
    rw [noPage] at page
    cases page
  constructor
  · intro v
    have tree' := mapped.mem.tree.recursive
    have tree := b.tree.recursive
    rw [← mapped.cr3] at tree'
    rw [← mem, ← cr3] at tree
    rw [vmmResolve_eq tree', vmmResolve_eq tree, mapped.cr3, mem, cr3,
      mapped.mem.walk_similar noGraft noPage v 4 b.tree.root (by simp)]
  · funext w
    apply BitVec.eq_of_getLsbD_eq
    intro i lt
    have bits := mapped.pmm.bits (64 * w + i)
    have word : (64 * w + i) / 64 = w := by omega
    have bit : (64 * w + i) % 64 = i := by omega
    simp only [Pmm.bitAt, word, bit, noGraft, reduceCtorEq, exists_false, or_false] at bits
    rwa [← Bool.eq_iff_iff] at bits

/-- Behind `vmm_map`, `vmm_unmap` of the same pages returns 0, and `vmm_resolve` of every address and
    the PMM's bitmap are what they were before, if the PMM covers memory below `2 ^ 47`: the code
    takes bit 47 of an entry for the sign of an address. -/
theorem vmmUnmap_vmmMap {s s' : Vmm} {tables : Tables} (ready : MapReady boot s tables)
    (low : s.pmm.regFree.start + s.pmm.covered * pageSize ≤ 2 ^ 47) {fuel num align : Nat}
    {attr : BitVec 32} {vaddr : BitVec 64} (some_page : 0 < num)
    (save : attr &&& vmmAttrSave = 0#32)
    (done : vmmMap boot s fuel num align attr = some (vaddr, s')) (range : InVma attr vaddr num)
    (ok : s'.pmm.failed = s.pmm.failed) :
    ∃ s'', vmmUnmap s' vaddr 0#32 num = some (0, s'') ∧
      (∀ v, vmmResolve s'' v = vmmResolve s v) ∧ s''.pmm.bm = s.pmm.bm := by
  obtain ⟨free, first, grafts, pages, mapped, tight, covers⟩ :=
    ready.vmmMap_spec low some_page done range ok
  obtain ⟨s'', grafts', pages', unmapped, mapped', tight', noPage⟩ :=
    mapped.unmapPages tight range free save (Nat.zero_add num) covers
  rw [pageAfter_zero] at unmapped
  exact ⟨s'', unmapped, mapped'.ends tight' noPage rfl rfl⟩

/-! ### One table of each level -/

/-- The tables of a chain. -/
def chainTables (i₄ i₃ i₂ : Index) : Tables := fun path =>
  if path = [] then some 1
  else if path = [i₄] then some 2
  else if path = [i₄, i₃] then some 3
  else if path = [i₄, i₃, i₂] then some 4
  else none

/-- One table of each level, in frames 1 to 4, and nothing else but the pages of the PT. -/
structure Chain (mem : PhysMem) (i₄ i₃ i₂ : Index) : Prop where
  slot : i₄ ≠ 510
  pml4 : ∀ i, mem 1 i = if i = i₄ then 0x2003 else if i = 510 then 0x1003 else 0
  pdpt : ∀ i, mem 2 i = if i = i₃ then 0x3003 else 0
  pd : ∀ i, mem 3 i = if i = i₂ then 0x4003 else 0
  pt : ∀ i, mem 4 i ≠ 0#64 → hwPresent (mem 4 i) = true

namespace Chain

variable {mem : PhysMem} {i₄ i₃ i₂ : Index} {path : List Index} {t : Frame} {i : Index}

theorem cases_path (at_path : chainTables i₄ i₃ i₂ path = some t) : path = [] ∧ t = 1 ∨
    path = [i₄] ∧ t = 2 ∨ path = [i₄, i₃] ∧ t = 3 ∨ path = [i₄, i₃, i₂] ∧ t = 4 := by
  unfold chainTables at at_path
  grind

theorem low (at_path : chainTables i₄ i₃ i₂ path = some t) : t.toNat ≤ 4 := by
  obtain ⟨-, rfl⟩ | ⟨-, rfl⟩ | ⟨-, rfl⟩ | ⟨-, rfl⟩ := cases_path at_path <;> decide

/-- The entries in use but slot 510. -/
theorem entry (chain : Chain mem i₄ i₃ i₂) (at_path : chainTables i₄ i₃ i₂ path = some t)
    (slot : path = [] → i ≠ 510) (used : mem t i ≠ 0#64) : path.length = 3 ∨
      path.length < 3 ∧ hwPointer (mem t i) ∧
        chainTables i₄ i₃ i₂ (path ++ [i]) = some (hwFrame (mem t i)) := by
  have next (n : Index) {entry : BitVec 64} (row : mem t i = if i = n then entry else 0) :
      i = n ∧ mem t i = entry := by
    by_cases here : i = n
    · exact ⟨here, row.trans (if_pos here)⟩
    · exact absurd (row.trans (if_neg here)) used
  obtain ⟨rfl, rfl⟩ | ⟨rfl, rfl⟩ | ⟨rfl, rfl⟩ | ⟨rfl, rfl⟩ := cases_path at_path
  · have row := chain.pml4 i
    rw [if_neg (slot rfl)] at row
    obtain ⟨rfl, entry⟩ := next i₄ row
    rw [entry]
    exact .inr ⟨by decide, by decide, by simp [chainTables]; decide⟩
  · obtain ⟨rfl, entry⟩ := next i₃ (chain.pdpt i)
    rw [entry]
    exact .inr ⟨by simp, by decide, by simp [chainTables]; decide⟩
  · obtain ⟨rfl, entry⟩ := next i₂ (chain.pd i)
    rw [entry]
    exact .inr ⟨by simp, by decide, by simp [chainTables]; decide⟩
  · exact .inl rfl

theorem tree (chain : Chain mem i₄ i₃ i₂) : PageTree mem 1 (chainTables i₄ i₃ i₂) where
  self := by
    have row := chain.pml4 510
    rw [if_neg chain.slot.symm, if_pos rfl] at row
    constructor <;> rw [row] <;> decide
  root := rfl
  child := by
    intro path i t
    constructor
    · intro at_child
      have row₄ := chain.pml4 i₄
      have row₃ := chain.pdpt i₃
      have row₂ := chain.pd i₂
      rw [if_pos rfl] at row₄ row₃ row₂
      obtain ⟨eq, -⟩ | ⟨eq, rfl⟩ | ⟨eq, rfl⟩ | ⟨eq, rfl⟩ := cases_path at_child
      · simp at eq
      · obtain ⟨rfl, rfl⟩ : path = [] ∧ i = i₄ := by
          simpa using @List.append_inj' _ path [i] [] [i₄] eq rfl
        exact ⟨⟨by decide, fun _ => chain.slot⟩, 1, rfl, by rw [row₄]; decide, by rw [row₄]; decide⟩
      · obtain ⟨rfl, rfl⟩ : path = [i₄] ∧ i = i₃ := by
          simpa using @List.append_inj' _ path [i] [i₄] [i₃] eq rfl
        exact ⟨⟨by simp, by simp⟩, 2, by simp [chainTables], by rw [row₃]; decide, by rw [row₃]; decide⟩
      · obtain ⟨rfl, rfl⟩ : path = [i₄, i₃] ∧ i = i₂ := by
          simpa using @List.append_inj' _ path [i] [i₄, i₃] [i₂] eq rfl
        exact ⟨⟨by simp, by simp⟩, 3, by simp [chainTables], by rw [row₂]; decide, by rw [row₂]; decide⟩
    · rintro ⟨⟨short, slot⟩, above, at_path, pointer, rfl⟩
      obtain low | ⟨-, -, at_child⟩ := chain.entry at_path slot pointer.ne_zero
      · omega
      · exact at_child
  inj := by
    intro path path' t at_path at_path'
    obtain ⟨rfl, rfl⟩ | ⟨rfl, rfl⟩ | ⟨rfl, rfl⟩ | ⟨rfl, rfl⟩ := cases_path at_path <;>
      obtain ⟨rfl, eq⟩ | ⟨rfl, eq⟩ | ⟨rfl, eq⟩ | ⟨rfl, eq⟩ := cases_path at_path' <;>
      first | rfl | exact absurd eq (by decide)
  present := by
    intro path t i at_path used
    by_cases self : path = [] ∧ i = 510
    · obtain ⟨rfl, rfl⟩ := self
      cases at_path
      have row := chain.pml4 510
      rw [if_neg chain.slot.symm, if_pos rfl] at row
      rw [row]
      decide
    · obtain low | ⟨-, pointer, -⟩ := chain.entry at_path (fun root index => self ⟨root, index⟩) used
      · obtain ⟨rfl, -⟩ | ⟨rfl, -⟩ | ⟨rfl, -⟩ | ⟨-, rfl⟩ := cases_path at_path
        · cases low
        · cases low
        · cases low
        · exact chain.pt i used
      · exact pointer.1
  small := by
    intro path t i at_path high
    obtain ⟨rfl, rfl⟩ | ⟨rfl, rfl⟩ | ⟨rfl, -⟩ | ⟨rfl, -⟩ := cases_path at_path
    · rw [chain.pml4]
      split
      · rfl
      · split <;> rfl
    · rw [chain.pdpt]
      split <;> rfl
    · simp at high
    · simp at high

end Chain

/-- All memory below `2 ^ 63` is free memory, but what the kernel knows of. -/
def freeBoot : BootInfo := ⟨0, 1, 0, 0, 24, fun _ => ⟨0, 2 ^ 63, 1⟩, by decide, by decide⟩

/-- A PMM for 64 free pages from `start` on. -/
def freePages (start : Nat) : Pmm := ⟨⟨start, start + 64 * pageSize, start⟩, fun _ => 0, true, 8, 0⟩

theorem freePages_frameOf {start k : Nat} (aligned : 4096 ∣ start)
    (below : start + 64 * pageSize ≤ 2 ^ 52)
    (available : (freePages start).Available freeBoot k) :
    ((freePages start).frameOf k).toNat = start / 4096 + k := by
  have inside : k < 8 / 8 * 64 := available.1
  have page : (freePages start).pageAt k = start + k * pageSize := by
    apply Pmm.pageAt_of_lt
    show start + k * pageSize < 2 ^ 64
    simp only [pageSize] at *
    omega
  rw [Pmm.frameOf, page, BitVec.toNat_ofNat]
  simp only [pageSize] at *
  omega

theorem Chain.ready {mem : PhysMem} {i₄ i₃ i₂ i : Index} (chain : Chain mem i₄ i₃ i₂)
    (used : mem 4 i ≠ 0#64) {start : Nat} (aligned : 4096 ∣ start) (above : 0x10000 ≤ start)
    (below : start + 64 * pageSize ≤ 2 ^ 52) :
    MapReady freeBoot ⟨mem, 1, freePages start, 0⟩ (chainTables i₄ i₃ i₂) where
  tree := chain.tree
  full {path t} at_path off := by
    obtain ⟨rfl, -⟩ | ⟨-, rfl⟩ | ⟨-, rfl⟩ | ⟨-, rfl⟩ := cases_path at_path
    · exact absurd rfl off
    · exact ⟨i₃, (chain.pdpt i₃).trans_ne (by rw [if_pos rfl]; decide)⟩
    · exact ⟨i₂, (chain.pd i₂).trans_ne (by rw [if_pos rfl]; decide)⟩
    · exact ⟨i, used⟩
  ready := rfl
  nonempty := by
    show 0 < 8 / 8 * 64
    decide
  start := ⟨Nat.lt_of_lt_of_le (by decide) above, aligned⟩
  unused {k} available path at_path := by
    have table := low at_path
    rw [freePages_frameOf aligned below available] at table
    omega

/-! ### One page -/

/-- The tables of `onePage`. -/
def onePageTables : Tables := fun path =>
  if path = [] then some 1
  else if path = [0] then some 2
  else if path = [0, 0] then some 3
  else if path = [0, 0, 0] then some 4
  else none

theorem onePageTables_cases {path : List Index} {t : Frame} (at_path : onePageTables path = some t) :
    path = [] ∧ t = 1 ∨ path = [0] ∧ t = 2 ∨ path = [0, 0] ∧ t = 3 ∨ path = [0, 0, 0] ∧ t = 4 :=
  Chain.cases_path at_path

theorem onePage_chain {entry : BitVec 64} (present : hwPresent entry = true) :
    Chain (onePage entry) 0 0 0 where
  slot := by decide
  pml4 i := by
    by_cases self : i = 510#9
    · subst self
      rfl
    · simp [onePage, self]
  pdpt i := by simp [onePage]
  pd i := by simp [onePage]
  pt i used := by
    by_cases here : i = 2#9
    · subst here
      exact present
    · simp [onePage, here] at used

theorem onePage_tree {entry : BitVec 64} (present : hwPresent entry = true) :
    PageTree (onePage entry) 1 onePageTables := (onePage_chain present).tree

/-- The memory with one page, and a PMM for 64 free pages from `start` on. -/
def onePageMap (start : Nat) : Vmm :=
  ⟨onePage 0x5003, 1, ⟨⟨start, start + 64 * pageSize, start⟩, fun _ => 0, true, 8, 0⟩, 0⟩

theorem onePageMap_ready {start : Nat} (aligned : 4096 ∣ start) (above : 0x10000 ≤ start)
    (below : start + 64 * pageSize ≤ 2 ^ 52) :
    MapReady freeBoot (onePageMap start) onePageTables :=
  (onePage_chain (by decide)).ready (i := 2) (by decide) aligned above below

/-- Two pages behind the one that is mapped. -/
theorem vmmUnmap_twoPages : ∃ s' s'',
    vmmMap freeBoot (onePageMap 0x10000) 8 2 0 vmmAttrUser = some (0x3000, s') ∧
    vmmUnmap s' 0x3000 0#32 2 = some (0, s'') ∧
    (∀ v, vmmResolve s'' v = vmmResolve (onePageMap 0x10000) v) ∧
    s''.pmm.bm = (onePageMap 0x10000).pmm.bm := by
  have run : (vmmMap freeBoot (onePageMap 0x10000) 8 2 0 vmmAttrUser).map
      (fun (vaddr, s') => (vaddr, s'.pmm.failed)) = some (0x3000, 0) := by decide +kernel
  obtain ⟨⟨vaddr, s'⟩, done, same⟩ := Option.map_eq_some_iff.mp run
  obtain ⟨rfl, failed⟩ := Prod.mk.inj same
  obtain ⟨s'', trip⟩ := vmmUnmap_vmmMap
    (onePageMap_ready (by decide) (by decide) (by decide)) (by decide) (by decide) (by decide) done
    (by rw [InVma, if_pos (by decide)]; decide) failed
  exact ⟨s', s'', done, trip⟩

/-- With memory from `2 ^ 47` on `vmm_unmap` hands `pmm_free` an address it does not know. -/
theorem vmmUnmap_high : MapReady freeBoot (onePageMap (2 ^ 47)) onePageTables ∧
    ∃ s' s'', vmmMap freeBoot (onePageMap (2 ^ 47)) 8 2 0 vmmAttrUser = some (0x3000, s') ∧
      InVma vmmAttrUser 0x3000 2 ∧ s'.pmm.failed = (onePageMap (2 ^ 47)).pmm.failed ∧
      vmmUnmap s' 0x3000 0#32 2 = some (-eFAULT, s'') := by
  refine ⟨onePageMap_ready (by decide) (by decide) (by decide), ?_⟩
  have run : (vmmMap freeBoot (onePageMap (2 ^ 47)) 8 2 0 vmmAttrUser).bind
      (fun mapped => (vmmUnmap mapped.2 mapped.1 0#32 2).map fun unmapped =>
        (mapped.1, mapped.2.pmm.failed, unmapped.1)) = some (0x3000, 0, -eFAULT) := by decide +kernel
  obtain ⟨⟨vaddr, s'⟩, done, run⟩ := Option.bind_eq_some_iff.mp run
  obtain ⟨⟨err, s''⟩, unmap, same⟩ := Option.map_eq_some_iff.mp run
  obtain ⟨rfl, failed, rfl⟩ := by simpa only [Prod.mk.injEq] using same
  exact ⟨s', s'', done, by rw [InVma, if_pos (by decide)]; decide, failed, unmap⟩

end Sdx.Mm
