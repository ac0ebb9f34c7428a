import Sdx.Mm.PageTree

/-! # Pages and tables grafted onto a tree

`vmm_map` leaves all tables of the tree in their place and adds to it: flags to entries in
use, new tables in empty slots, and pages in empty slots of PTs. `Grafted` says of a memory
that it is the tree at the beginning with certain tables and pages grafted onto it. Every
write of `vmm_map` and `vmm_unmap` moves from one such memory to another, so the way back
ends where the way there began.
-/

namespace Sdx.Mm

/-! ## Entries of pages -/

theorem getLsbD_aligned {a i : Nat} (aligned : 4096 ∣ a) (below : i < 12) :
    (BitVec.ofNat 64 a).getLsbD i = false := by
  obtain ⟨q, rfl⟩ := aligned
  have bit : (2 ^ 12 * q).testBit i = false := by
    rw [Nat.testBit_two_pow_mul, decide_eq_false (by omega), Bool.false_and]
  rw [BitVec.getLsbD_ofNat, show 4096 = 2 ^ 12 from rfl, bit, Bool.and_false]

/-- Bits an address of a page does not have. -/
theorem getLsbD_page {a i : Nat} (aligned : 4096 ∣ a) (low : a < 2 ^ 47) (off : i < 12 ∨ 47 ≤ i) :
    (BitVec.ofNat 64 a).getLsbD i = false := by
  obtain below | above := off
  · exact getLsbD_aligned aligned below
  · have bit : a.testBit i = false := by
      apply Nat.testBit_lt_two_pow
      calc a < 2 ^ 47 := low
        _ ≤ 2 ^ i := Nat.pow_le_pow_right (by decide) above
    rw [BitVec.getLsbD_ofNat, bit, Bool.and_false]

theorem getLsbD_flags {flags : BitVec 64} (clear : flags &&& pteFlagsClear = 0#64) {i : Nat}
    (ge : 10 ≤ i) (lt : i < 63) : flags.getLsbD i = false := by
  have bit := congrArg (BitVec.getLsbD · i) clear
  simp only [BitVec.getLsbD_and, getLsbD_pteFlagsClear (Nat.lt_trans lt (by decide : 63 < 64))] at bit
  have mask : (decide (10 ≤ i) && decide (i ≠ 63)) = true := by
    have off : i ≠ 63 := by omega
    simp [ge, off]
  rw [mask, Bool.and_true] at bit
  simpa using bit

theorem getLsbD_tableFlags {flags : BitVec 64} (within : flags &&& 7#64 = flags) {i : Nat}
    (ge : 3 ≤ i) : flags.getLsbD i = false := by
  have mask : 7#64 = BitVec.allOnes 64 >>> 61 := by decide
  have outside : ¬ 61 + i < 64 := by omega
  rw [← within, BitVec.getLsbD_and, mask, BitVec.getLsbD_ushiftRight, BitVec.getLsbD_allOnes,
    decide_eq_false outside, Bool.and_false]

theorem tableFlags_clear {flags : BitVec 64} (within : flags &&& 7#64 = flags) :
    flags &&& pteFlagsClear = 0#64 := by
  rw [← within, BitVec.and_assoc, show 7#64 &&& pteFlagsClear = 0#64 by decide, BitVec.and_zero]

section

variable {a : Nat} {flags : BitVec 64}

/-- The entry of a page with flags leads back to the page. -/
theorem hwFrame_page (clear : flags &&& pteFlagsClear = 0#64) :
    hwFrame (BitVec.ofNat 64 a ||| flags) = BitVec.ofNat 40 (a / 4096) := by
  apply BitVec.eq_of_getLsbD_eq
  intro i lt
  have none := getLsbD_flags clear (i := 12 + i) (by omega) (by omega)
  rw [hwFrame, BitVec.getLsbD_extractLsb', BitVec.getLsbD_or, none, Bool.or_false,
    BitVec.getLsbD_ofNat, BitVec.getLsbD_ofNat, show 4096 = 2 ^ 12 from rfl, Nat.testBit_div_two_pow]
  have inside : i + 12 < 64 := by omega
  simp [lt, inside, Nat.add_comm]

theorem hwPointer_table (aligned : 4096 ∣ a) (within : flags &&& 7#64 = flags)
    (present : hwPresent flags = true) : hwPointer (BitVec.ofNat 64 a ||| flags) := by
  simp only [hwPresent] at present
  constructor
  · rw [hwPresent, BitVec.getLsbD_or, present, Bool.or_true]
  · rw [hwLarge, BitVec.getLsbD_or, getLsbD_aligned aligned (by decide),
      getLsbD_tableFlags within (by decide), Bool.or_false]

/-- An aligned canonical address comes back from an entry. -/
theorem vmmEntryToAddr_canonical {paddr : BitVec 64} (aligned : 4096 ∣ paddr.toNat)
    (canon : canonical paddr = true) (clear : flags &&& pteFlagsClear = 0#64) :
    vmmEntryToAddr (paddr ||| flags) = paddr := by
  apply BitVec.eq_of_getLsbD_eq
  intro i lt
  rw [getLsbD_vmmEntryToAddr_sign _ lt, BitVec.getLsbD_or, BitVec.getLsbD_or,
    getLsbD_flags clear (by decide : 10 ≤ 47) (by decide), Bool.or_false]
  split
  · by_cases kept : 10 ≤ i
    · rw [getLsbD_flags clear kept (by omega)]
      simp [kept]
    · have below := getLsbD_aligned aligned (i := i) (by omega)
      rw [BitVec.ofNat_toNat, BitVec.setWidth_eq] at below
      simp [kept, below]
  · exact (canonical_iff.mp canon i (by omega) lt).symm

theorem vmmEntryToAddr_page (aligned : 4096 ∣ a) (low : a < 2 ^ 47)
    (clear : flags &&& pteFlagsClear = 0#64) :
    vmmEntryToAddr (BitVec.ofNat 64 a ||| flags) = BitVec.ofNat 64 a := by
  have value : (BitVec.ofNat 64 a).toNat = a := by
    rw [BitVec.toNat_ofNat]
    omega
  exact vmmEntryToAddr_canonical (value.symm ▸ aligned) (canonical_of_low (value.symm ▸ low)) clear

end

/-- `entry` is `old` with table flags added, if it is in use. -/
def Similar (old entry : BitVec 64) : Prop :=
  ∃ flags, flags &&& 7#64 = flags ∧ (old = 0#64 → flags = 0#64) ∧ entry = old ||| flags

namespace Similar

variable {old entry : BitVec 64}

theorem refl (old : BitVec 64) : Similar old old := ⟨0#64, by simp, fun _ => rfl, by simp⟩

theorem or_flags (similar : Similar old entry) (used : old ≠ 0#64) {flags : BitVec 64}
    (within : flags &&& 7#64 = flags) : Similar old (entry ||| flags) := by
  obtain ⟨before, within', -, rfl⟩ := similar
  refine ⟨before ||| flags, ?_, fun unused => absurd unused used, BitVec.or_assoc ..⟩
  rw [BitVec.and_or_distrib_right, within', within]

theorem eq_zero_iff (similar : Similar old entry) : entry = 0#64 ↔ old = 0#64 := by
  obtain ⟨flags, -, unused, rfl⟩ := similar
  constructor
  · intro zero
    exact (BitVec.or_eq_zero_iff.mp zero).1
  · intro zero
    simp [zero, unused zero]

theorem hwPresent (similar : Similar old entry) (present : Mm.hwPresent old = true) :
    Mm.hwPresent entry = true := by
  obtain ⟨flags, -, -, rfl⟩ := similar
  rw [Mm.hwPresent, BitVec.getLsbD_or]
  simp only [Mm.hwPresent] at present
  rw [present, Bool.true_or]

theorem hwLarge (similar : Similar old entry) : Mm.hwLarge entry = Mm.hwLarge old := by
  obtain ⟨flags, within, -, rfl⟩ := similar
  rw [Mm.hwLarge, BitVec.getLsbD_or, getLsbD_tableFlags within (by decide), Bool.or_false, Mm.hwLarge]

theorem hwFrame (similar : Similar old entry) : Mm.hwFrame entry = Mm.hwFrame old := by
  obtain ⟨flags, within, -, rfl⟩ := similar
  apply BitVec.eq_of_getLsbD_eq
  intro i lt
  rw [Mm.hwFrame, Mm.hwFrame, BitVec.getLsbD_extractLsb', BitVec.getLsbD_extractLsb',
    BitVec.getLsbD_or, getLsbD_tableFlags within (by omega), Bool.or_false]

theorem vmmResolveEntry (similar : Similar old entry) (vaddr : BitVec 64) :
    Mm.vmmResolveEntry entry vaddr = Mm.vmmResolveEntry old vaddr := by
  have large := similar.hwLarge
  obtain ⟨flags, within, -, rfl⟩ := similar
  have addr : vmmEntryToAddr (old ||| flags) = vmmEntryToAddr old := by
    have same : (old ||| flags) &&& pteFlagsClear = old &&& pteFlagsClear := by
      rw [BitVec.and_or_distrib_right, tableFlags_clear within, BitVec.or_zero]
    rw [vmmEntryToAddr, same, vmmEntryToAddr]
  unfold Mm.vmmResolveEntry
  simp only [ne_eq, pteFlagPS_unset_iff, large, addr]

end Similar

/-! ## The beginning -/

/-- The frame of a page of the PMM. -/
def Pmm.frameOf (p : Pmm) (k : Nat) : Frame := BitVec.ofNat 40 (p.pageAt k / 4096)

/-- A tree of page tables whose tables below the PML4 are not empty, and a PMM that covers memory
    below `2 ^ 47` and hands out no table of the tree; and the flags of new tables. -/
structure MapBase (boot : BootInfo) where
  mem : PhysMem
  cr3 : Frame
  tables : Tables
  pmm : Pmm
  flags : BitVec 64
  tree : PageTree mem cr3 tables
  full : ∀ {path t}, tables path = some t → path ≠ [] → ∃ i, mem t i ≠ 0#64
  ready : pmm.bmIsReady = true
  nonempty : 0 < pmm.covered
  start : 0 < pmm.regFree.start ∧ 4096 ∣ pmm.regFree.start
  low : pmm.regFree.start + pmm.covered * pageSize ≤ 2 ^ 47
  unused : ∀ {k}, pmm.Available boot k → ∀ path, tables path ≠ some (pmm.frameOf k)
  flags_within : flags &&& 7#64 = flags
  flags_present : hwPresent flags = true

/-- The page of the PMM each new table is in. -/
abbrev Grafts := List Index → Option Nat

/-- The entries of the pages that are mapped. -/
abbrev Pages := List Index → Index → Option (BitVec 64)

namespace MapBase

variable {boot : BootInfo} (b : MapBase boot)

/-- An entry of the tree, 0 where it has no table. -/
def old (path : List Index) (i : Index) : BitVec 64 :=
  ((b.tables path).map fun t => b.mem t i).getD 0#64

/-- The tables of the tree and the new ones. -/
def all (grafts : Grafts) : Tables := fun path =>
  (b.tables path).or ((grafts path).map b.pmm.frameOf)

/-- An entry for a page of the PMM with table flags. -/
def pointer (k : Nat) : BitVec 64 := BitVec.ofNat 64 (b.pmm.pageAt k) ||| b.flags

/-- What an entry is with tables and pages grafted onto the tree. -/
def Holds (grafts : Grafts) (pages : Pages) (path : List Index) (i : Index) (entry : BitVec 64) :
    Prop :=
  if path.length = 3 then entry = (pages path i).getD (b.old path i)
  else
    match grafts (path ++ [i]) with
    | some k => entry = b.pointer k
    | none => Similar (b.old path i) entry

variable {b} {path : List Index} {i : Index} {k : Nat}

theorem old_eq {t : Frame} (at_path : b.tables path = some t) (i : Index) :
    b.old path i = b.mem t i := by
  simp [old, at_path]

theorem old_none (gone : b.tables path = none) (i : Index) : b.old path i = 0#64 := by
  simp [old, gone]

theorem exists_of_old (used : b.old path i ≠ 0#64) :
    ∃ t, b.tables path = some t ∧ b.old path i = b.mem t i := by
  cases at_path : b.tables path with
  | none => exact absurd (old_none at_path i) used
  | some t => exact ⟨t, rfl, old_eq at_path i⟩

theorem page_spec (inside : k < b.pmm.covered) : b.pmm.pageAt k = b.pmm.regFree.start + k * pageSize ∧
    0 < b.pmm.pageAt k ∧ 4096 ∣ b.pmm.pageAt k ∧ b.pmm.pageAt k < 2 ^ 47 := by
  have low := b.low
  obtain ⟨pos, q, aligned⟩ := b.start
  have exact : b.pmm.pageAt k = b.pmm.regFree.start + k * pageSize := by
    apply Pmm.pageAt_of_lt
    simp only [pageSize] at *
    omega
  simp only [pageSize] at *
  refine ⟨exact, by omega, ⟨q + k, by omega⟩, by omega⟩

theorem frameOf_inj {k' : Nat} (inside : k < b.pmm.covered) (inside' : k' < b.pmm.covered)
    (same : b.pmm.frameOf k = b.pmm.frameOf k') : k = k' := by
  obtain ⟨exact, -, ⟨q, aligned⟩, low⟩ := b.page_spec inside
  obtain ⟨exact', -, ⟨q', aligned'⟩, low'⟩ := b.page_spec inside'
  have value := congrArg BitVec.toNat same
  simp only [Pmm.frameOf, BitVec.toNat_ofNat, pageSize] at *
  omega

theorem pointer_spec (inside : k < b.pmm.covered) :
    hwPointer (b.pointer k) ∧ hwFrame (b.pointer k) = b.pmm.frameOf k := by
  obtain ⟨-, -, aligned, -⟩ := b.page_spec inside
  exact ⟨hwPointer_table aligned b.flags_within b.flags_present,
    hwFrame_page (tableFlags_clear b.flags_within)⟩

theorem pointer_ne_zero (inside : k < b.pmm.covered) : b.pointer k ≠ 0#64 := by
  intro zero
  have present := (b.pointer_spec inside).1.1
  rw [zero] at present
  cases present

end MapBase

/-- `mem` is the tree of `b` with tables and pages grafted onto it, into empty slots. -/
structure Grafted {boot : BootInfo} (b : MapBase boot) (mem : PhysMem) (grafts : Grafts)
    (pages : Pages) : Prop where
  holds : ∀ {path t}, b.all grafts path = some t → ∀ i, b.Holds grafts pages path i (mem t i)
  graft : ∀ {path k}, grafts path = some k → b.tables path = none ∧ b.pmm.Available boot k ∧
    ∃ above i, path = above ++ [i] ∧ Branch above i ∧ (b.all grafts above).isSome ∧
      b.old above i = 0#64
  graft_inj : ∀ {path path' k}, grafts path = some k → grafts path' = some k → path = path'
  page : ∀ {path i entry}, pages path i = some entry → path.length = 3 ∧
    (b.all grafts path).isSome ∧ b.old path i = 0#64 ∧ hwPresent entry = true

namespace Grafted

variable {boot : BootInfo} {b : MapBase boot} {mem : PhysMem} {grafts : Grafts} {pages : Pages}
  {path : List Index} {i : Index} {k : Nat} {t : Frame}

theorem graft_concat (grafted : Grafted b mem grafts pages) (here : grafts (path ++ [i]) = some k) :
    b.tables (path ++ [i]) = none ∧ b.pmm.Available boot k ∧ Branch path i ∧
      (b.all grafts path).isSome ∧ b.old path i = 0#64 := by
  obtain ⟨gone, available, above, j, split, branch, reached, unused⟩ := grafted.graft here
  obtain ⟨rfl, same⟩ := List.append_inj' split rfl
  cases same
  exact ⟨gone, available, branch, reached, unused⟩

/-- A table is one of the tree or a new one. -/
theorem all_cases (at_path : b.all grafts path = some t) : b.tables path = some t ∨
    b.tables path = none ∧ ∃ k, grafts path = some k ∧ t = b.pmm.frameOf k := by
  unfold MapBase.all at at_path
  cases old : b.tables path with
  | some t' =>
      rw [old] at at_path
      exact .inl at_path
  | none =>
      rw [old, Option.none_or, Option.map_eq_some_iff] at at_path
      obtain ⟨k, here, rfl⟩ := at_path
      exact .inr ⟨rfl, k, here, rfl⟩

theorem all_of_old (old : b.tables path = some t) : b.all grafts path = some t := by
  simp [MapBase.all, old]

theorem all_of_graft (grafted : Grafted b mem grafts pages) (here : grafts path = some k) :
    b.all grafts path = some (b.pmm.frameOf k) := by
  simp [MapBase.all, here, (grafted.graft here).1]

/-- What an entry above the PTs points to. -/
theorem upper (grafted : Grafted b mem grafts pages) (at_path : b.all grafts path = some t)
    (high : path.length < 3) (i : Index) :
    (∃ k, grafts (path ++ [i]) = some k ∧ mem t i = b.pointer k) ∨
      grafts (path ++ [i]) = none ∧ Similar (b.old path i) (mem t i) := by
  have holds := grafted.holds at_path i
  unfold MapBase.Holds at holds
  rw [if_neg (by omega)] at holds
  cases here : grafts (path ++ [i]) with
  | some k =>
      rw [here] at holds
      exact .inl ⟨k, rfl, holds⟩
  | none =>
      rw [here] at holds
      exact .inr ⟨rfl, holds⟩

theorem leaf (grafted : Grafted b mem grafts pages) (at_path : b.all grafts path = some t)
    (low : path.length = 3) (i : Index) : mem t i = (pages path i).getD (b.old path i) := by
  have holds := grafted.holds at_path i
  unfold MapBase.Holds at holds
  rwa [if_pos low] at holds

theorem similar_self (grafted : Grafted b mem grafts pages) :
    Similar (b.mem b.cr3 510) (mem b.cr3 510) := by
  rw [← b.old_eq b.tree.root]
  obtain ⟨k, here, -⟩ | ⟨-, similar⟩ := grafted.upper (all_of_old b.tree.root) (by simp) 510
  · exact absurd rfl ((grafted.graft_concat here).2.2.1.2 rfl)
  · exact similar

theorem pointer_iff (grafted : Grafted b mem grafts pages) (branch : Branch path i)
    (at_path : b.all grafts path = some t) {below : Frame} :
    b.all grafts (path ++ [i]) = some below ↔ hwPointer (mem t i) ∧ hwFrame (mem t i) = below := by
  obtain ⟨k, here, entry⟩ | ⟨none, similar⟩ := grafted.upper at_path branch.1 i
  · obtain ⟨pointer, frame⟩ := b.pointer_spec (grafted.graft_concat here).2.1.1
    rw [grafted.all_of_graft here, entry, frame]
    simp [pointer]
  · have tables : b.all grafts (path ++ [i]) = b.tables (path ++ [i]) := by
      simp [MapBase.all, none]
    rw [tables, b.tree.child, similar.hwFrame, hwPointer, similar.hwLarge]
    constructor
    · rintro ⟨-, above, old, ⟨present, small⟩, frame⟩
      rw [b.old_eq old] at similar ⊢
      exact ⟨⟨similar.hwPresent present, small⟩, frame⟩
    · rintro ⟨⟨present, small⟩, frame⟩
      have used : b.old path i ≠ 0#64 := by
        intro unused
        rw [similar.eq_zero_iff.mpr unused] at present
        cases present
      obtain ⟨above, old, eq⟩ := b.exists_of_old used
      rw [eq] at used small frame
      exact ⟨branch, above, old, ⟨b.tree.present old used, small⟩, frame⟩

theorem child_reached (grafted : Grafted b mem grafts pages) {below : Frame}
    (at_child : b.all grafts (path ++ [i]) = some below) :
    Branch path i ∧ ∃ t, b.all grafts path = some t := by
  obtain old | ⟨-, k, here, -⟩ := all_cases at_child
  · obtain ⟨branch, above, old, -⟩ := b.tree.child.mp old
    exact ⟨branch, above, all_of_old old⟩
  · obtain ⟨-, -, branch, reached, -⟩ := grafted.graft_concat here
    exact ⟨branch, Option.isSome_iff_exists.mp reached⟩

theorem length_le (grafted : Grafted b mem grafts pages) (at_path : b.all grafts path = some t) :
    path.length ≤ 3 := by
  cases path using List.reverseRecOn with
  | nil => simp
  | append_singleton path i =>
      have short := (grafted.child_reached at_path).1.1
      rw [List.length_append, List.length_singleton]
      omega

/-- The grafts make a tree again. -/
theorem tree (grafted : Grafted b mem grafts pages) : PageTree mem b.cr3 (b.all grafts) where
  self := by
    have similar := grafted.similar_self
    exact ⟨similar.hwPresent b.tree.self.present, similar.hwLarge.trans b.tree.self.small,
      similar.hwFrame.trans b.tree.self.frame⟩
  root := all_of_old b.tree.root
  child := by
    intro path i below
    constructor
    · intro at_child
      obtain ⟨branch, t, at_path⟩ := grafted.child_reached at_child
      exact ⟨branch, t, at_path, (grafted.pointer_iff branch at_path).mp at_child⟩
    · rintro ⟨branch, t, at_path, pointer⟩
      exact (grafted.pointer_iff branch at_path).mpr pointer
  inj := by
    intro path path' t at_path at_path'
    obtain old | ⟨-, k, here, rfl⟩ := all_cases at_path
    · obtain old' | ⟨-, k', here', rfl⟩ := all_cases at_path'
      · exact b.tree.inj old old'
      · exact absurd old (b.unused (grafted.graft here').2.1 path)
    · have available := (grafted.graft here).2.1
      obtain old' | ⟨-, k', here', same⟩ := all_cases at_path'
      · exact absurd old' (b.unused available path')
      · obtain rfl := b.frameOf_inj available.1 (grafted.graft here').2.1.1 same
        exact grafted.graft_inj here here'
  present := by
    intro path t i at_path used
    have old_present : b.old path i ≠ 0#64 → hwPresent (b.old path i) = true := by
      intro used
      obtain ⟨above, old, eq⟩ := b.exists_of_old used
      rw [eq] at used ⊢
      exact b.tree.present old used
    by_cases low : path.length = 3
    · rw [grafted.leaf at_path low] at used ⊢
      cases page : pages path i with
      | some entry => exact (grafted.page page).2.2.2
      | none =>
          rw [page] at used
          exact old_present used
    · have short := grafted.length_le at_path
      obtain ⟨k, here, entry⟩ | ⟨-, similar⟩ := grafted.upper at_path (by omega) i
      · rw [entry]
        exact (b.pointer_spec (grafted.graft_concat here).2.1.1).1.1
      · exact similar.hwPresent (old_present (mt similar.eq_zero_iff.mpr used))
  small := by
    intro path t i at_path high
    obtain ⟨k, here, entry⟩ | ⟨-, similar⟩ := grafted.upper at_path (by omega) i
    · rw [entry]
      exact (b.pointer_spec (grafted.graft_concat here).2.1.1).1.2
    · rw [similar.hwLarge]
      cases old : b.tables path with
      | none =>
          rw [b.old_none old]
          rfl
      | some above =>
          rw [b.old_eq old]
          exact b.tree.small old high

/-! ### Writes -/

/-- A write to one entry is what `Holds` wants of new grafts and pages, if they want the same as
    before of the others. -/
theorem holds_set (grafted : Grafted b mem grafts pages) {grafts' : Grafts} {pages' : Pages}
    {entry : BitVec 64} (at_path : b.all grafts path = some t)
    (here : b.Holds grafts' pages' path i entry) {path' : List Index} {t' : Frame}
    (at_path' : b.all grafts path' = some t') (i' : Index)
    (other : (path', i') ≠ (path, i) → b.Holds grafts pages path' i' (mem t' i') →
      b.Holds grafts' pages' path' i' (mem t' i')) :
    b.Holds grafts' pages' path' i' (mem.set t i entry t' i') := by
  have before := grafted.holds at_path' i'
  by_cases same : t' = t
  · subst same
    obtain rfl := grafted.tree.inj at_path at_path'
    by_cases index : i' = i
    · subst index
      rw [PhysMem.set_same]
      exact here
    · rw [PhysMem.set_index _ _ index]
      exact other (fun eq => index (Prod.mk.inj eq).2) before
  · rw [PhysMem.set_frame _ _ same]
    refine other (fun eq => ?_) before
    rw [(Prod.mk.inj eq).1, at_path] at at_path'
    exact same (Option.some.inj at_path').symm

/-- Adding table flags to an entry in use. -/
theorem or_flags (grafted : Grafted b mem grafts pages) (at_path : b.all grafts path = some t)
    (high : path.length < 3) (used : mem t i ≠ 0#64) :
    Grafted b (mem.set t i (mem t i ||| b.flags)) grafts pages where
  holds at_path' i' := by
    refine grafted.holds_set at_path ?_ at_path' i' fun _ => id
    unfold MapBase.Holds
    rw [if_neg (by omega)]
    obtain ⟨k, here, entry⟩ | ⟨none, similar⟩ := grafted.upper at_path high i
    · simp only [here, entry, MapBase.pointer, BitVec.or_assoc, BitVec.or_self]
    · simp only [none]
      exact similar.or_flags (mt similar.eq_zero_iff.mpr used) b.flags_within
  graft := grafted.graft
  graft_inj := grafted.graft_inj
  page := grafted.page

/-- Writing or clearing the entry of a page in a slot that is empty in the tree. -/
theorem set_page (grafted : Grafted b mem grafts pages) (at_path : b.all grafts path = some t)
    (low : path.length = 3) (unused : b.old path i = 0#64) (page : Option (BitVec 64))
    (present : ∀ entry, page = some entry → hwPresent entry = true) :
    Grafted b (mem.set t i (page.getD 0#64)) grafts
      (Function.update pages path (Function.update (pages path) i page)) where
  holds {path' t'} at_path' i' := by
    refine grafted.holds_set at_path ?_ at_path' i' fun off holds => ?_
    · unfold MapBase.Holds
      rw [if_pos low]
      simp [unused]
    · have same : Function.update pages path (Function.update (pages path) i page) path' i' =
          pages path' i' := by
        by_cases here : path' = path
        · subst here
          have index : i' ≠ i := fun eq => off (eq ▸ rfl)
          simp [index]
        · simp [here]
      unfold MapBase.Holds at holds ⊢
      rwa [same]
  graft := grafted.graft
  graft_inj := grafted.graft_inj
  page {path' i' entry} here := by
    by_cases slot : path' = path
    · subst slot
      by_cases index : i' = i
      · subst index
        simp only [Function.update_self] at here
        exact ⟨low, by simp [at_path], unused, present entry here⟩
      · simp only [Function.update_self, Function.update_of_ne index] at here
        exact grafted.page here
    · simp only [Function.update_of_ne slot] at here
      exact grafted.page here

/-- An empty slot has no table below it. -/
theorem empty_slot (grafted : Grafted b mem grafts pages) (branch : Branch path i)
    (at_path : b.all grafts path = some t) (unused : mem t i = 0#64) :
    b.all grafts (path ++ [i]) = none ∧ b.tables (path ++ [i]) = none ∧
      grafts (path ++ [i]) = none ∧ b.old path i = 0#64 := by
  obtain ⟨k, here, entry⟩ | ⟨none, similar⟩ := grafted.upper at_path branch.1 i
  · rw [unused] at entry
    exact absurd entry.symm (b.pointer_ne_zero (grafted.graft_concat here).2.1.1)
  · have gone : b.all grafts (path ++ [i]) = Option.none := by
      rw [Option.eq_none_iff_forall_ne_some]
      intro below at_child
      have pointer := ((grafted.pointer_iff branch at_path).mp at_child).1
      exact pointer.ne_zero unused
    refine ⟨gone, ?_, none, similar.eq_zero_iff.mp unused⟩
    unfold MapBase.all at gone
    rw [none, Option.map_none, Option.or_none] at gone
    exact gone

/-- The frame of a page that is not in use is no table. -/
theorem fresh_frame (grafted : Grafted b mem grafts pages) (available : b.pmm.Available boot k)
    (fresh : ∀ path', grafts path' ≠ some k) (path' : List Index) :
    b.all grafts path' ≠ some (b.pmm.frameOf k) := by
  intro at_path'
  obtain old | ⟨-, k', here, same⟩ := all_cases at_path'
  · exact b.unused available path' old
  · obtain rfl := b.frameOf_inj available.1 (grafted.graft here).2.1.1 same
    exact fresh path' here

/-- A new table in an empty slot. -/
theorem graft_new (grafted : Grafted b mem grafts pages) (branch : Branch path i)
    (at_path : b.all grafts path = some t) (unused : mem t i = 0#64)
    (available : b.pmm.Available boot k) (fresh : ∀ path', grafts path' ≠ some k) :
    Grafted b (Function.update (mem.set t i (b.pointer k)) (b.pmm.frameOf k) fun _ => 0#64)
      (Function.update grafts (path ++ [i]) (some k)) pages := by
  obtain ⟨gone, noTable, noGraft, empty⟩ := grafted.empty_slot branch at_path unused
  have all : ∀ path', b.all (Function.update grafts (path ++ [i]) (some k)) path' =
      if path' = path ++ [i] then some (b.pmm.frameOf k) else b.all grafts path' := by
    intro path'
    split
    · next eq => simp [MapBase.all, eq, noTable]
    · next off => simp [MapBase.all, off]
  have more : ∀ path', (b.all grafts path').isSome →
      (b.all (Function.update grafts (path ++ [i]) (some k)) path').isSome := by
    intro path' reached
    rw [all]
    split
    · rfl
    · exact reached
  refine ⟨fun {path' t'} at_path' i' => ?_, fun {path' k'} here => ?_, fun {q q' k'} here here' => ?_,
    fun {path' i' entry} here => ?_⟩
  · rw [all] at at_path'
    split at at_path'
    · next eq =>
        subst eq
        cases at_path'
        rw [Function.update_self]
        unfold MapBase.Holds
        split
        · next low =>
            cases page : pages (path ++ [i]) i' with
            | none => simp [b.old_none noTable]
            | some entry =>
                have reached := (grafted.page page).2.1
                rw [gone] at reached
                cases reached
        · have off : path ++ [i] ++ [i'] ≠ path ++ [i] := by simp
          have noChild : grafts (path ++ [i] ++ [i']) = none := by
            rw [Option.eq_none_iff_forall_ne_some]
            intro k' here
            have reached := (grafted.graft_concat here).2.2.2.1
            rw [gone] at reached
            cases reached
          rw [Function.update_of_ne off, noChild, b.old_none noTable]
          exact .refl 0#64
    · next off =>
        have apart : t' ≠ b.pmm.frameOf k := by
          rintro rfl
          exact grafted.fresh_frame available fresh path' at_path'
        rw [Function.update_of_ne apart]
        refine grafted.holds_set at_path ?_ at_path' i' fun slot holds => ?_
        · have high := branch.1
          unfold MapBase.Holds
          rw [if_neg (by omega), Function.update_self]
        · unfold MapBase.Holds at holds ⊢
          have slot' : path' ++ [i'] ≠ path ++ [i] := by
            intro eq
            obtain ⟨rfl, same⟩ := List.append_inj' eq rfl
            cases same
            exact slot rfl
          rwa [Function.update_of_ne slot']
  · by_cases new : path' = path ++ [i]
    · subst new
      rw [Function.update_self] at here
      cases here
      exact ⟨noTable, available, path, i, rfl, branch, more path (by simp [at_path]), empty⟩
    · rw [Function.update_of_ne new] at here
      obtain ⟨old, available', above, j, split, branch', reached, unused'⟩ := grafted.graft here
      exact ⟨old, available', above, j, split, branch', more above reached, unused'⟩
  · by_cases new : q = path ++ [i]
    · by_cases new' : q' = path ++ [i]
      · exact new.trans new'.symm
      · rw [new, Function.update_self] at here
        rw [Function.update_of_ne new'] at here'
        cases here
        exact absurd here' (fresh q')
    · rw [Function.update_of_ne new] at here
      by_cases new' : q' = path ++ [i]
      · rw [new', Function.update_self] at here'
        cases here'
        exact absurd here (fresh q)
      · rw [Function.update_of_ne new'] at here'
        exact grafted.graft_inj here here'
  · obtain ⟨low, reached, unused', present⟩ := grafted.page here
    exact ⟨low, more path' reached, unused', present⟩

/-- Removing a new table that is empty. -/
theorem cut (grafted : Grafted b mem grafts pages) (at_path : b.all grafts path = some t)
    (here : grafts (path ++ [i]) = some k) (empty : ∀ j, mem (b.pmm.frameOf k) j = 0#64) :
    Grafted b (mem.set t i 0#64) (Function.update grafts (path ++ [i]) none) pages := by
  have at_child := grafted.all_of_graft here
  obtain ⟨noTable, -, branch, -, unused⟩ := grafted.graft_concat here
  have noChild : ∀ j, grafts (path ++ [i] ++ [j]) = none := by
    intro j
    rw [Option.eq_none_iff_forall_ne_some]
    intro k' child
    obtain ⟨-, available, branch', -⟩ := grafted.graft_concat child
    obtain ⟨k'', child', entry⟩ | ⟨none, -⟩ := grafted.upper at_child branch'.1 j
    · rw [empty j] at entry
      exact b.pointer_ne_zero (grafted.graft_concat child').2.1.1 entry.symm
    · rw [none] at child
      cases child
  have noPage : ∀ j, pages (path ++ [i]) j = none := by
    intro j
    rw [Option.eq_none_iff_forall_ne_some]
    intro entry page
    obtain ⟨low, -, -, present⟩ := grafted.page page
    have value := grafted.leaf at_child low j
    rw [empty j, page, Option.getD_some] at value
    rw [← value] at present
    cases present
  have all : ∀ path', path' ≠ path ++ [i] →
      b.all (Function.update grafts (path ++ [i]) none) path' = b.all grafts path' := by
    intro path' off
    simp [MapBase.all, off]
  refine ⟨fun {path' t'} at_path' i' => ?_, fun {path' k'} here => ?_, fun {q q' k'} here here' => ?_,
    fun {path' i' entry} page => ?_⟩
  · by_cases off : path' = path ++ [i]
    · subst off
      simp [MapBase.all, noTable] at at_path'
    · rw [all path' off] at at_path'
      refine grafted.holds_set at_path ?_ at_path' i' fun slot holds => ?_
      · have high := branch.1
        unfold MapBase.Holds
        rw [if_neg (by omega), Function.update_self, unused]
        exact .refl 0#64
      · unfold MapBase.Holds at holds ⊢
        have slot' : path' ++ [i'] ≠ path ++ [i] := by
          intro eq
          obtain ⟨rfl, same⟩ := List.append_inj' eq rfl
          cases same
          exact slot rfl
        rwa [Function.update_of_ne slot']
  · by_cases cutOff : path' = path ++ [i]
    · rw [cutOff, Function.update_self] at here
      cases here
    · rw [Function.update_of_ne cutOff] at here
      obtain ⟨old, available, above, j, rfl, branch', reached, unused'⟩ := grafted.graft here
      have off : above ≠ path ++ [i] := by
        rintro rfl
        rw [noChild j] at here
        cases here
      exact ⟨old, available, above, j, rfl, branch', by rwa [all above off], unused'⟩
  · have kept : ∀ q, Function.update grafts (path ++ [i]) none q = some k' → grafts q = some k' := by
      intro q here
      by_cases cutOff : q = path ++ [i]
      · rw [cutOff, Function.update_self] at here
        cases here
      · rwa [Function.update_of_ne cutOff] at here
    exact grafted.graft_inj (kept q here) (kept q' here')
  · obtain ⟨low, reached, unused', present⟩ := grafted.page page
    have off : path' ≠ path ++ [i] := by
      rintro rfl
      rw [noPage i'] at page
      cases page
    exact ⟨low, by rwa [all path' off], unused', present⟩

/-- A table of the tree is not empty whatever is grafted onto it. -/
theorem old_not_empty (grafted : Grafted b mem grafts pages) (old : b.tables path = some t)
    (below : path ≠ []) : ∃ j, mem t j ≠ 0#64 := by
  obtain ⟨j, used⟩ := b.full old below
  rw [← b.old_eq old] at used
  have at_path := @all_of_old _ _ grafts _ _ old
  refine ⟨j, fun zero => ?_⟩
  by_cases low : path.length = 3
  · have value := grafted.leaf at_path low j
    cases page : pages path j with
    | some entry => exact used (grafted.page page).2.2.1
    | none =>
        rw [page, zero] at value
        exact used value.symm
  · have short := grafted.length_le at_path
    obtain ⟨k, here, -⟩ | ⟨-, similar⟩ := grafted.upper at_path (by omega) j
    · exact used (grafted.graft_concat here).2.2.2.2
    · exact used (similar.eq_zero_iff.mp zero)

end Grafted

/-- A page is mapped below a path. -/
def Under (pages : Pages) (path : List Index) : Prop :=
  ∃ pt i entry, pages pt i = some entry ∧ path <+: pt

/-- Every new table is there for a page. -/
def Tight (grafts : Grafts) (pages : Pages) : Prop :=
  ∀ path k, grafts path = some k → Under pages path

theorem Tight.empty {pages : Pages} : Tight (fun _ => none) pages := by
  intro path k here
  cases here

/-- A new table that is not empty is there for a page if the tables below it are. -/
theorem Grafted.under {boot : BootInfo} {b : MapBase boot} {mem : PhysMem} {grafts : Grafts}
    {pages : Pages} {path : List Index} {k : Nat} {j : Index} (grafted : Grafted b mem grafts pages)
    (here : grafts path = some k) (used : mem (b.pmm.frameOf k) j ≠ 0#64)
    (below : ∀ k', grafts (path ++ [j]) = some k' → Under pages (path ++ [j])) :
    Under pages path := by
  have at_path := grafted.all_of_graft here
  have none := b.old_none (grafted.graft here).1 j
  by_cases low : path.length = 3
  · rw [grafted.leaf at_path low j, none] at used
    cases page : pages path j with
    | some entry => exact ⟨path, j, entry, page, List.prefix_refl path⟩
    | none =>
        rw [page] at used
        exact absurd rfl used
  · have short := grafted.length_le at_path
    obtain ⟨k', child, -⟩ | ⟨-, similar⟩ := grafted.upper at_path (by omega) j
    · obtain ⟨pt, i, entry, page, before⟩ := below k' child
      exact ⟨pt, i, entry, page, (List.prefix_append path [j]).trans before⟩
    · exact absurd (similar.eq_zero_iff.mpr none) used

end Sdx.Mm
