import Sdx.Mm.Vmm

/-! # The software walk and the hardware walk

`vmm_indexes_to_addr` with 510 in front names a table by the path to it, and the processor's
walk of that address is the path followed from the PML4. So an access through the window is
an access to the table itself, and `__vmm_entry_from_vaddr` reads what the processor reads.
What `vmm_resolve` makes of the entry is not always the processor's address: it drops fewer
bits than the processor, and it takes bit 7 for the page size in an entry of a PT as well.
-/

namespace Sdx.Mm

/-! ## Window addresses -/

/-- The address of the table that is found at three indexes from the PML4. -/
def windowAddr (i₃ i₂ i₁ : Index) : BitVec 64 :=
  vmmIndexesToAddr 510#64 (i₃.setWidth 64) (i₂.setWidth 64) (i₁.setWidth 64)

theorem toNat_shiftLeft_index (x : Index) {k : Nat} (le : k ≤ 55) :
    (x.setWidth 64 <<< k).toNat = 2 ^ k * x.toNat := by
  have lt := x.isLt
  have pow : 2 ^ k ≤ 2 ^ 55 := Nat.pow_le_pow_right (by decide) le
  have fits : 2 ^ k * x.toNat < 2 ^ 64 :=
    calc 2 ^ k * x.toNat ≤ 2 ^ 55 * 511 := Nat.mul_le_mul pow (by omega)
      _ < 2 ^ 64 := by decide
  rw [BitVec.toNat_shiftLeft, BitVec.toNat_setWidth, Nat.shiftLeft_eq,
    Nat.mod_eq_of_lt (a := x.toNat) (by omega), Nat.mul_comm]
  exact Nat.mod_eq_of_lt fits

/-- Disjoint bits add up. -/
theorem toNat_or_of_lt {x y : BitVec 64} {k a : Nat} (hx : x.toNat = 2 ^ k * a)
    (hy : y.toNat < 2 ^ k) : (x ||| y).toNat = x.toNat + y.toNat := by
  rw [BitVec.toNat_or, hx, ← Nat.two_pow_add_eq_or_of_lt hy]

theorem windowAddr_toNat (i₃ i₂ i₁ : Index) : (windowAddr i₃ i₂ i₁).toNat =
    0xffffff0000000000 + i₃.toNat * 2 ^ 30 + i₂.toNat * 2 ^ 21 + i₁.toNat * 2 ^ 12 := by
  have lt₃ := i₃.isLt
  have lt₂ := i₂.isLt
  have lt₁ := i₁.isLt
  have pdpt := toNat_shiftLeft_index i₃ (k := 30) (by decide)
  have pd := toNat_shiftLeft_index i₂ (k := 21) (by decide)
  have pt := toNat_shiftLeft_index i₁ (k := 12) (by decide)
  have low := toNat_or_of_lt (y := i₁.setWidth 64 <<< 12) pd (by omega)
  have mid := toNat_or_of_lt (y := i₂.setWidth 64 <<< 21 ||| i₁.setWidth 64 <<< 12) pdpt (by omega)
  have all := toNat_or_of_lt (x := 0xffffff0000000000#64) (k := 39) (a := 0x1fffffe)
    (y := i₃.setWidth 64 <<< 30 ||| (i₂.setWidth 64 <<< 21 ||| i₁.setWidth 64 <<< 12)) rfl (by omega)
  have top : 510#64 <<< 39 ||| 0xffff#64 <<< 48 = 0xffffff0000000000#64 := by decide
  have order : ∀ a b c d h : BitVec 64, a ||| b ||| c ||| d ||| h = a ||| h ||| (b ||| (c ||| d)) := by
    intro a b c d h
    ac_rfl
  have const : (0xffffff0000000000#64).toNat = 0xffffff0000000000 := rfl
  rw [windowAddr, vmmIndexesToAddr, if_pos (by decide), order, top]
  omega

section

variable (i₃ i₂ i₁ i : Index)

theorem windowEntry_toNat : (vmmEntryAt (windowAddr i₃ i₂ i₁) (i.setWidth 64)).toNat =
    0xffffff0000000000 + i₃.toNat * 2 ^ 30 + i₂.toNat * 2 ^ 21 + i₁.toNat * 2 ^ 12 +
      i.toNat * 8 := by
  have lt₃ := i₃.isLt
  have lt₂ := i₂.isLt
  have lt₁ := i₁.isLt
  have lt := i.isLt
  have base := windowAddr_toNat i₃ i₂ i₁
  have scaled : (8#64 * i.setWidth 64).toNat = 8 * i.toNat := by
    rw [BitVec.toNat_mul, BitVec.toNat_setWidth]
    simp only [BitVec.toNat_ofNat]
    omega
  rw [vmmEntryAt, BitVec.toNat_add, scaled]
  omega

theorem hwIndex_windowEntry :
    hwIndex (vmmEntryAt (windowAddr i₃ i₂ i₁) (i.setWidth 64)) 4 = 510 ∧
    hwIndex (vmmEntryAt (windowAddr i₃ i₂ i₁) (i.setWidth 64)) 3 = i₃ ∧
    hwIndex (vmmEntryAt (windowAddr i₃ i₂ i₁) (i.setWidth 64)) 2 = i₂ ∧
    hwIndex (vmmEntryAt (windowAddr i₃ i₂ i₁) (i.setWidth 64)) 1 = i₁ := by
  have lt₃ := i₃.isLt
  have lt₂ := i₂.isLt
  have lt₁ := i₁.isLt
  have lt := i.isLt
  have value := windowEntry_toNat i₃ i₂ i₁ i
  refine ⟨?_, ?_, ?_, ?_⟩ <;> apply BitVec.eq_of_toNat_eq <;> rw [hwIndex_toNat, value]
  · have top : (510 : Index).toNat = 510 := rfl
    omega
  · omega
  · omega
  · omega

theorem hwWord_windowEntry : hwWord (vmmEntryAt (windowAddr i₃ i₂ i₁) (i.setWidth 64)) = i := by
  have lt := i.isLt
  have value := windowEntry_toNat i₃ i₂ i₁ i
  apply BitVec.eq_of_toNat_eq
  rw [hwWord_toNat, value]
  omega

theorem canonical_windowEntry :
    canonical (vmmEntryAt (windowAddr i₃ i₂ i₁) (i.setWidth 64)) = true := by
  apply canonical_of_high
  rw [windowEntry_toNat]
  omega

end

/-! ## Paths -/

/-- Entry 510 of the PML4 points to the PML4. -/
structure SelfMapped (mem : PhysMem) (cr3 : Frame) : Prop where
  present : hwPresent (mem cr3 510) = true
  small : hwLarge (mem cr3 510) = false
  frame : hwFrame (mem cr3 510) = cr3

/-- An entry that points to a table. -/
def hwPointer (entry : BitVec 64) : Prop := hwPresent entry = true ∧ hwLarge entry = false

instance (entry : BitVec 64) : Decidable (hwPointer entry) := by
  unfold hwPointer
  infer_instance

theorem hwPointer.ne_zero {entry : BitVec 64} (pointer : hwPointer entry) : entry ≠ 0#64 := by
  rintro rfl
  exact absurd pointer.1 (by decide)

/-- The table at the end of a path of indexes. -/
def follow (mem : PhysMem) : Frame → List Index → Option Frame
  | table, [] => some table
  | table, i :: path =>
      if hwPointer (mem table i) then follow mem (hwFrame (mem table i)) path else none

/-- The window address of the table a path from the PML4 ends at. -/
def windowOf : List Index → BitVec 64
  | [] => windowAddr 510 510 510
  | [i] => windowAddr 510 510 i
  | [i, j] => windowAddr 510 i j
  | i :: j :: k :: _ => windowAddr i j k

section

variable {mem : PhysMem} {cr3 : Frame}

theorem follow_cons {table t : Frame} {i : Index} {path : List Index} :
    follow mem table (i :: path) = some t ↔
      hwPointer (mem table i) ∧ follow mem (hwFrame (mem table i)) path = some t := by
  rw [follow]
  by_cases pointer : hwPointer (mem table i) <;> simp [pointer]

theorem follow_concat {table t : Frame} {path : List Index} {i : Index} :
    follow mem table (path ++ [i]) = some t ↔ ∃ last, follow mem table path = some last ∧
      hwPointer (mem last i) ∧ hwFrame (mem last i) = t := by
  induction path generalizing table with
  | nil => simp [follow]
  | cons j path ih => simp [follow_cons, ih, and_assoc]

namespace SelfMapped

theorem follow_self (self : SelfMapped mem cr3) (path : List Index) :
    follow mem cr3 (510 :: path) = follow mem cr3 path := by
  rw [follow, if_pos ⟨self.present, self.small⟩, self.frame]

/-- The walk of a window address follows the path and ends at the table as at a page. -/
theorem walk_window (self : SelfMapped mem cr3) {i₃ i₂ i₁ : Index} {t : Frame}
    (path : follow mem cr3 [i₃, i₂, i₁] = some t) (i : Index) : ∃ entry,
    (hwWalk mem (vmmEntryAt (windowAddr i₃ i₂ i₁) (i.setWidth 64)) 4 cr3).2 = some (1, entry) ∧
      hwFrame entry = t := by
  obtain ⟨index₄, index₃, index₂, index₁⟩ := hwIndex_windowEntry i₃ i₂ i₁ i
  obtain ⟨⟨present₃, small₃⟩, path⟩ := follow_cons.mp path
  obtain ⟨⟨present₂, small₂⟩, path⟩ := follow_cons.mp path
  obtain ⟨⟨present₁, small₁⟩, path⟩ := follow_cons.mp path
  refine ⟨_, ?_, Option.some.inj path⟩
  simp only [hwWalk, index₄, index₃, index₂, index₁, self.present, self.frame, present₃, present₂,
    present₁, small₃, small₂]
  simp

theorem translate_window (self : SelfMapped mem cr3) {i₃ i₂ i₁ : Index} {t : Frame}
    (path : follow mem cr3 [i₃, i₂, i₁] = some t) (i : Index) : ∃ paddr,
    hwTranslate mem cr3 (vmmEntryAt (windowAddr i₃ i₂ i₁) (i.setWidth 64)) = some paddr ∧
      hwFrame paddr = t ∧ hwWord paddr = i := by
  obtain ⟨entry, walk, frame⟩ := self.walk_window path i
  refine ⟨_, ?_, (hwFrame_hwPage entry _).trans frame,
    (hwWord_hwPage (by decide) (by decide) entry _).trans (hwWord_windowEntry i₃ i₂ i₁ i)⟩
  rw [hwTranslate, canonical_windowEntry, if_pos rfl, walk]
  rfl

/-- The window address of a path of at most three indexes stands for the table at its end. -/
theorem translate_windowOf (self : SelfMapped mem cr3) {path : List Index} {t : Frame}
    (short : path.length ≤ 3) (at_path : follow mem cr3 path = some t) (i : Index) : ∃ paddr,
    hwTranslate mem cr3 (vmmEntryAt (windowOf path) (i.setWidth 64)) = some paddr ∧
      hwFrame paddr = t ∧ hwWord paddr = i := by
  match path, short with
  | [], _ =>
      rw [← self.follow_self, ← self.follow_self, ← self.follow_self] at at_path
      exact self.translate_window at_path i
  | [_], _ =>
      rw [← self.follow_self, ← self.follow_self] at at_path
      exact self.translate_window at_path i
  | [_, _], _ =>
      rw [← self.follow_self] at at_path
      exact self.translate_window at_path i
  | [_, _, _], _ => exact self.translate_window at_path i

theorem read_windowOf (self : SelfMapped mem cr3) {path : List Index} {t : Frame}
    (short : path.length ≤ 3) (at_path : follow mem cr3 path = some t) (i : Index) :
    hwRead mem cr3 (vmmEntryAt (windowOf path) (i.setWidth 64)) = some (mem t i) := by
  obtain ⟨paddr, translate, rfl, rfl⟩ := self.translate_windowOf short at_path i
  rw [hwRead, translate]
  rfl

theorem write_windowOf (self : SelfMapped mem cr3) {path : List Index} {t : Frame}
    (short : path.length ≤ 3) (at_path : follow mem cr3 path = some t) (i : Index)
    (value : BitVec 64) : hwWrite mem cr3 (vmmEntryAt (windowOf path) (i.setWidth 64)) value =
      some (mem.set t i value) := by
  obtain ⟨paddr, translate, rfl, rfl⟩ := self.translate_windowOf short at_path i
  rw [hwWrite, translate]
  rfl

end SelfMapped

end

/-! ## Tables -/

/-- The tables of the four levels that can be reached from the PML4. -/
inductive HwTable (mem : PhysMem) (cr3 : Frame) : Nat → Frame → Prop where
  | pml4 : HwTable mem cr3 4 cr3
  | next (level : Nat) {table : Frame} {i : Index} (above : HwTable mem cr3 (level + 2) table)
      (used : mem table i ≠ 0#64) (small : ¬ (level < 2 ∧ hwLarge (mem table i))) :
      HwTable mem cr3 (level + 1) (hwFrame (mem table i))

/-- Entry 510 of the PML4 points to the PML4, entries in use are present, and there are no pages
    of 1 GiB. The PML4 is a PDPT as well. -/
structure Recursive (mem : PhysMem) (cr3 : Frame) : Prop where
  self : mem cr3 510 ≠ 0#64 ∧ hwFrame (mem cr3 510) = cr3
  present : ∀ {level table} {i : Index}, HwTable mem cr3 level table → mem table i ≠ 0#64 →
    hwPresent (mem table i) = true
  small : ∀ {table} {i : Index}, HwTable mem cr3 3 table → hwLarge (mem table i) = false

namespace Recursive

variable {mem : PhysMem} {cr3 : Frame}

theorem pdpt_self (rec : Recursive mem cr3) : HwTable mem cr3 3 cr3 := by
  have below := HwTable.next 2 .pml4 rec.self.1 (by simp)
  rwa [rec.self.2] at below

theorem selfMapped (rec : Recursive mem cr3) : SelfMapped mem cr3 :=
  ⟨rec.present .pml4 rec.self.1, rec.small rec.pdpt_self, rec.self.2⟩

end Recursive

/-! ## The macros -/

theorem setWidth_hwIndex (vaddr : BitVec 64) (level : Nat) :
    (vaddr >>> (9 * level + 3)) &&& 0x1ff#64 = (hwIndex vaddr level).setWidth 64 := by
  apply BitVec.eq_of_toNat_eq
  rw [BitVec.toNat_and, BitVec.toNat_ushiftRight, BitVec.toNat_setWidth, hwIndex_toNat,
    Nat.shiftRight_eq_div_pow, show (0x1ff#64).toNat = 2 ^ 9 - 1 from rfl,
    Nat.and_two_pow_sub_one_eq_mod]
  omega

section

variable (vaddr : BitVec 64)

theorem vmmPml4Index_eq : vmmPml4Index vaddr = (hwIndex vaddr 4).setWidth 64 :=
  setWidth_hwIndex vaddr 4

theorem vmmPdptIndex_eq : vmmPdptIndex vaddr = (hwIndex vaddr 3).setWidth 64 :=
  setWidth_hwIndex vaddr 3

theorem vmmPdIndex_eq : vmmPdIndex vaddr = (hwIndex vaddr 2).setWidth 64 :=
  setWidth_hwIndex vaddr 2

theorem vmmPtIndex_eq : vmmPtIndex vaddr = (hwIndex vaddr 1).setWidth 64 :=
  setWidth_hwIndex vaddr 1

theorem vmmPdptVaddr_eq : vmmPdptVaddr vaddr = windowOf [hwIndex vaddr 4] := by
  rw [vmmPdptVaddr, vmmPml4Index_eq]
  rfl

theorem vmmPdVaddr_eq : vmmPdVaddr vaddr = windowOf [hwIndex vaddr 4, hwIndex vaddr 3] := by
  rw [vmmPdVaddr, vmmPml4Index_eq, vmmPdptIndex_eq]
  rfl

theorem vmmPtVaddr_eq :
    vmmPtVaddr vaddr = windowOf [hwIndex vaddr 4, hwIndex vaddr 3, hwIndex vaddr 2] := by
  rw [vmmPtVaddr, vmmPml4Index_eq, vmmPdptIndex_eq, vmmPdIndex_eq]
  rfl

theorem vmmPml4Entry_eq :
    vmmPml4Entry vaddr = vmmEntryAt (windowOf []) ((hwIndex vaddr 4).setWidth 64) := by
  rw [vmmPml4Entry, vmmPml4Index_eq]
  rfl

theorem vmmPdptEntry_eq : vmmPdptEntry vaddr =
    vmmEntryAt (windowOf [hwIndex vaddr 4]) ((hwIndex vaddr 3).setWidth 64) := by
  rw [vmmPdptEntry, vmmPdptIndex_eq, vmmPdptVaddr_eq]

theorem vmmPdEntry_eq : vmmPdEntry vaddr = vmmEntryAt
    (windowOf [hwIndex vaddr 4, hwIndex vaddr 3]) ((hwIndex vaddr 2).setWidth 64) := by
  rw [vmmPdEntry, vmmPdIndex_eq, vmmPdVaddr_eq]

theorem vmmPtEntry_eq : vmmPtEntry vaddr = vmmEntryAt
    (windowOf [hwIndex vaddr 4, hwIndex vaddr 3, hwIndex vaddr 2])
      ((hwIndex vaddr 1).setWidth 64) := by
  rw [vmmPtEntry, vmmPtIndex_eq, vmmPtVaddr_eq]

end

/-! ## The walk of the code -/

theorem pteFlagPS_unset_iff (entry : BitVec 64) :
    entry &&& pteFlagPS = 0#64 ↔ hwLarge entry = false := by
  have flag : pteFlagPS = BitVec.twoPow 64 7 := by decide
  have zero : BitVec.twoPow 64 7 ≠ 0#64 := by decide
  rw [flag, BitVec.and_twoPow, hwLarge]
  cases entry.getLsbD 7 <;> simp [zero]

section

variable {mem : PhysMem} {vaddr : BitVec 64} {level : Nat} {table : Frame}

theorem hwWalk_unused (unused : mem table (hwIndex vaddr (level + 1)) = 0#64) :
    hwWalk mem vaddr (level + 1) table = ([0#64], none) := by
  have absent : hwPresent 0#64 = false := rfl
  simp [hwWalk, unused, absent]

theorem hwWalk_page (present : hwPresent (mem table (hwIndex vaddr (level + 1))) = true)
    (last : level = 0 ∨ level < 3 ∧ hwLarge (mem table (hwIndex vaddr (level + 1))) = true) :
    hwWalk mem vaddr (level + 1) table = ([mem table (hwIndex vaddr (level + 1))],
      some (level + 1, mem table (hwIndex vaddr (level + 1)))) := by
  simp [hwWalk, present, last]

theorem hwWalk_table (present : hwPresent (mem table (hwIndex vaddr (level + 1))) = true)
    (more : ¬ (level = 0 ∨ level < 3 ∧ hwLarge (mem table (hwIndex vaddr (level + 1))) = true)) :
    hwWalk mem vaddr (level + 1) table = (mem table (hwIndex vaddr (level + 1)) ::
        (hwWalk mem vaddr level (hwFrame (mem table (hwIndex vaddr (level + 1))))).1,
      (hwWalk mem vaddr level (hwFrame (mem table (hwIndex vaddr (level + 1))))).2) := by
  simp [hwWalk, present, more]

end

/-- The window addresses of the entries for `vaddr`, from the PML4 downwards. -/
def vmmEntries (vaddr : BitVec 64) : List (BitVec 64) :=
  [vmmPml4Entry vaddr, vmmPdptEntry vaddr, vmmPdEntry vaddr, vmmPtEntry vaddr]

/-- The window address of the entry of a page. -/
def vmmPageEntry (level : Nat) (vaddr : BitVec 64) : BitVec 64 :=
  if level = 1 then vmmPtEntry vaddr else vmmPdEntry vaddr

/-- What the code finds at `vaddr` when the processor's walk ends with `walk`. -/
structure VmmFinds (s : Vmm) (vaddr : BitVec 64)
    (walk : List (BitVec 64) × Option (Nat × BitVec 64)) : Prop where
  reads : ((vmmEntries vaddr).take walk.1.length).map s.read = walk.1.map some
  entry : vmmEntryFromVaddr s vaddr =
    some (walk.2.map fun (level, _) => vmmPageEntry level vaddr)
  page : ∀ level entry, walk.2 = some (level, entry) →
    (level = 1 ∨ level = 2 ∧ hwLarge entry = true) ∧ s.read (vmmPageEntry level vaddr) = some entry ∧
      entry ≠ 0#64 ∧ ∃ table i, HwTable s.mem s.cr3 level table ∧ s.mem table i = entry

theorem vmmFinds {s : Vmm} (rec : Recursive s.mem s.cr3) (vaddr : BitVec 64) :
    VmmFinds s vaddr (hwWalk s.mem vaddr 4 s.cr3) := by
  have read {path : List Index} {t : Frame} (short : path.length ≤ 3)
      (at_path : follow s.mem s.cr3 path = some t) (i : Index) :
      s.read (vmmEntryAt (windowOf path) (i.setWidth 64)) = some (s.mem t i) :=
    rec.selfMapped.read_windowOf short at_path i
  have read₄ : s.read (vmmPml4Entry vaddr) = some (s.mem s.cr3 (hwIndex vaddr 4)) := by
    rw [vmmPml4Entry_eq]
    exact read (by simp) rfl _
  by_cases used₄ : s.mem s.cr3 (hwIndex vaddr 4) = 0#64
  · rw [hwWalk_unused used₄]
    rw [used₄] at read₄
    exact ⟨by simp [vmmEntries, read₄], by simp [vmmEntryFromVaddr, read₄], by simp⟩
  have pdpt := HwTable.next 2 .pml4 used₄ (by simp)
  have pointer₄ : hwPointer (s.mem s.cr3 (hwIndex vaddr 4)) :=
    ⟨rec.present .pml4 used₄, rec.small rec.pdpt_self⟩
  have path₃ : follow s.mem s.cr3 [hwIndex vaddr 4] = some _ := follow_cons.mpr ⟨pointer₄, rfl⟩
  have read₃ := read (by simp) path₃ (hwIndex vaddr 3)
  rw [← vmmPdptEntry_eq] at read₃
  rw [hwWalk_table pointer₄.1 (by simp)]
  by_cases used₃ : s.mem (hwFrame (s.mem s.cr3 (hwIndex vaddr 4))) (hwIndex vaddr 3) = 0#64
  · rw [hwWalk_unused used₃]
    rw [used₃] at read₃
    exact ⟨by simp [vmmEntries, read₄, read₃], by simp [vmmEntryFromVaddr, read₄, read₃], by simp⟩
  have small₃ := rec.small (i := hwIndex vaddr 3) pdpt
  have pd := HwTable.next 1 pdpt used₃ (by simp [small₃])
  have pointer₃ : hwPointer (s.mem (hwFrame (s.mem s.cr3 (hwIndex vaddr 4))) (hwIndex vaddr 3)) :=
    ⟨rec.present pdpt used₃, small₃⟩
  have path₂ : follow s.mem s.cr3 [hwIndex vaddr 4, hwIndex vaddr 3] = some _ :=
    follow_cons.mpr ⟨pointer₄, follow_cons.mpr ⟨pointer₃, rfl⟩⟩
  have path₁ (pointer₂) : follow s.mem s.cr3 [hwIndex vaddr 4, hwIndex vaddr 3, hwIndex vaddr 2] =
      some _ := follow_cons.mpr ⟨pointer₄, follow_cons.mpr ⟨pointer₃, follow_cons.mpr
        ⟨pointer₂, rfl⟩⟩⟩
  have read₂ := read (by simp) path₂ (hwIndex vaddr 2)
  rw [← vmmPdEntry_eq] at read₂
  rw [hwWalk_table pointer₃.1 (by simp [small₃])]
  generalize hwFrame (s.mem (hwFrame (s.mem s.cr3 (hwIndex vaddr 4))) (hwIndex vaddr 3)) = t₂ at *
  by_cases used₂ : s.mem t₂ (hwIndex vaddr 2) = 0#64
  · rw [hwWalk_unused used₂]
    rw [used₂] at read₂
    exact ⟨by simp [vmmEntries, read₄, read₃, read₂],
      by simp [vmmEntryFromVaddr, read₄, read₃, read₂], by simp⟩
  by_cases large : hwLarge (s.mem t₂ (hwIndex vaddr 2)) = true
  · rw [hwWalk_page (rec.present pd used₂) (by simp [large])]
    refine ⟨by simp [vmmEntries, read₄, read₃, read₂], ?_, ?_⟩
    · simp [vmmEntryFromVaddr, read₄, used₄, read₃, used₃, read₂, used₂, pteFlagPS_unset_iff, large,
        vmmPageEntry]
    · rintro level entry page
      cases page
      exact ⟨.inr ⟨rfl, large⟩, by simpa [vmmPageEntry] using read₂, used₂, t₂, _, pd, rfl⟩
  have pt := HwTable.next 0 pd used₂ (by simp [large])
  have pointer₂ : hwPointer (s.mem t₂ (hwIndex vaddr 2)) := ⟨rec.present pd used₂, by simpa using large⟩
  have read₁ := read (by simp) (path₁ pointer₂) (hwIndex vaddr 1)
  rw [← vmmPtEntry_eq] at read₁
  rw [hwWalk_table (rec.present pd used₂) (by simp [large])]
  by_cases used₁ : s.mem (hwFrame (s.mem t₂ (hwIndex vaddr 2))) (hwIndex vaddr 1) = 0#64
  · rw [hwWalk_unused used₁]
    rw [used₁] at read₁
    refine ⟨by simp [vmmEntries, read₄, read₃, read₂, read₁], ?_, by simp⟩
    simp [vmmEntryFromVaddr, read₄, read₃, read₂, pteFlagPS_unset_iff, large, read₁]
  · rw [hwWalk_page (rec.present pt used₁) (.inl rfl)]
    refine ⟨by simp [vmmEntries, read₄, read₃, read₂, read₁], ?_, ?_⟩
    · simp [vmmEntryFromVaddr, read₄, used₄, read₃, used₃, read₂, used₂, pteFlagPS_unset_iff, large,
        read₁, used₁, vmmPageEntry]
    · rintro level entry page
      cases page
      exact ⟨.inl rfl, by simpa [vmmPageEntry] using read₁, used₁, _, _, pt, rfl⟩

/-- `vmm_resolve` is 0 or computed from the entry the processor's walk ends at. -/
theorem vmmResolve_eq {s : Vmm} (rec : Recursive s.mem s.cr3) (vaddr : BitVec 64) :
    vmmResolve s vaddr = some ((hwWalk s.mem vaddr 4 s.cr3).2.elim 0
      fun (_, entry) => vmmResolveEntry entry vaddr) := by
  obtain ⟨-, found, page⟩ := vmmFinds rec vaddr
  unfold vmmResolve
  rw [found]
  cases walk : (hwWalk s.mem vaddr 4 s.cr3).2 with
  | none => rfl
  | some last =>
      obtain ⟨-, read, -⟩ := page _ _ walk
      simp [read]

/-! ## Addresses of entries -/

section

variable {entry vaddr : BitVec 64} {i : Nat}

theorem getLsbD_pteFlagsClear (lt : i < 64) :
    pteFlagsClear.getLsbD i = (decide (10 ≤ i) && decide (i ≠ 63)) := by
  have mask : pteFlagsClear = ~~~(BitVec.allOnes 64 >>> 54 ||| BitVec.twoPow 64 63) := by decide
  have flags : decide (54 + i < 64) = !decide (10 ≤ i) := by
    rw [← decide_not, decide_eq_decide]
    omega
  rw [mask, BitVec.getLsbD_not, BitVec.getLsbD_or, BitVec.getLsbD_ushiftRight,
    BitVec.getLsbD_allOnes, flags, BitVec.getLsbD_twoPow]
  simp [lt, eq_comm]

theorem getLsbD_signExtension (lt : i < 64) : (0xffff#64 <<< 48).getLsbD i = decide (48 ≤ i) := by
  have mask : 0xffff#64 <<< 48 = BitVec.allOnes 64 <<< 48 := by decide
  have inside : i - 48 < 64 := by omega
  rw [mask, BitVec.getLsbD_shiftLeft, BitVec.getLsbD_allOnes]
  simp only [lt, inside, decide_true, Bool.true_and, Bool.and_true]
  rw [← decide_not, decide_eq_decide]
  omega

theorem getLsbD_of_low (low : (hwFrame entry).toNat < 2 ^ 35) (ge : 47 ≤ i) (lt : i < 52) :
    entry.getLsbD i = false := by
  have inside : i - 12 < 40 := by omega
  have above : (hwFrame entry).getLsbD (i - 12) = false := by
    apply Nat.testBit_lt_two_pow
    calc (hwFrame entry).toNat < 2 ^ 35 := low
      _ ≤ 2 ^ (i - 12) := Nat.pow_le_pow_right (by decide) (by omega)
  rw [hwFrame, BitVec.getLsbD_extractLsb'] at above
  have bit : 12 + (i - 12) = i := by omega
  simpa [inside, bit] using above

/-- The code keeps bits 10 to 46 of an entry and extends bit 47. -/
theorem getLsbD_vmmEntryToAddr_sign (entry : BitVec 64) (lt : i < 64) :
    (vmmEntryToAddr entry).getLsbD i =
      if i < 47 then decide (10 ≤ i) && entry.getLsbD i else entry.getLsbD 47 := by
  have top : (entry &&& pteFlagsClear).getLsbD 47 = entry.getLsbD 47 := by
    rw [BitVec.getLsbD_and, getLsbD_pteFlagsClear (by decide)]
    simp
  rw [vmmEntryToAddr, top]
  split
  · next set =>
      rw [BitVec.getLsbD_or, BitVec.getLsbD_and, getLsbD_pteFlagsClear lt, getLsbD_signExtension lt]
      by_cases bit : i = 47
      · subst bit
        simp
      · grind
  · next unset =>
      rw [BitVec.getLsbD_and, BitVec.getLsbD_and, BitVec.getLsbD_not, getLsbD_pteFlagsClear lt,
        getLsbD_signExtension lt]
      by_cases bit : i = 47
      · subst bit
        simp
      · grind

/-- Of an entry that points below `2 ^ 47` only bits 10 to 46 are left. -/
theorem getLsbD_vmmEntryToAddr (low : (hwFrame entry).toNat < 2 ^ 35) (lt : i < 64) :
    (vmmEntryToAddr entry).getLsbD i = (decide (10 ≤ i ∧ i < 47) && entry.getLsbD i) := by
  rw [getLsbD_vmmEntryToAddr_sign entry lt, getLsbD_of_low low (Nat.le_refl 47) (by decide)]
  by_cases below : i < 47
  · simp [below]
  · simp [below]

theorem getLsbD_vmmResolveEntry (low : (hwFrame entry).toNat < 2 ^ 35) (lt : i < 64) :
    (vmmResolveEntry entry vaddr).getLsbD i = (decide (10 ≤ i ∧ i < 47) && entry.getLsbD i ||
      decide (i < if hwLarge entry then 21 else 12) && vaddr.getLsbD i) := by
  have large : 0x1fffff#64 = BitVec.allOnes 64 >>> 43 := by decide
  have small : 0xfff#64 = BitVec.allOnes 64 >>> 52 := by decide
  have large' : decide (43 + i < 64) = decide (i < 21) := by
    rw [decide_eq_decide]
    omega
  have small' : decide (52 + i < 64) = decide (i < 12) := by
    rw [decide_eq_decide]
    omega
  unfold vmmResolveEntry
  cases page : hwLarge entry with
  | false =>
      rw [if_neg (not_not.mpr ((pteFlagPS_unset_iff entry).mpr page)), BitVec.getLsbD_or,
        getLsbD_vmmEntryToAddr low lt, small, BitVec.getLsbD_and, BitVec.getLsbD_ushiftRight,
        BitVec.getLsbD_allOnes, small', Bool.and_comm (vaddr.getLsbD i)]
      rfl
  | true =>
      rw [if_pos (fun unset => by simp [(pteFlagPS_unset_iff entry).mp unset] at page),
        BitVec.getLsbD_or, getLsbD_vmmEntryToAddr low lt, large, BitVec.getLsbD_and,
        BitVec.getLsbD_ushiftRight, BitVec.getLsbD_allOnes, large', Bool.and_comm (vaddr.getLsbD i)]
      rfl

end

/-- In the bits from `lo` to `hi`, `x` has no bit that `y` does not have. -/
def BitsWithin (x y : BitVec 64) (lo hi : Nat) : Prop :=
  ∀ i, lo ≤ i → i < hi → x.getLsbD i = true → y.getLsbD i = true

/-- The code's address of a page's entry is the processor's: the bits the processor ignores are
    bits of `vaddr` as well, and in an entry of a PT with bit 7 those of `vaddr` it takes for a
    large page's offset are bits of the entry. -/
def EntryAgrees (level : Nat) (entry vaddr : BitVec 64) : Prop :=
  if level = 1 then
    BitsWithin entry vaddr 10 12 ∧ (hwLarge entry = true → BitsWithin vaddr entry 12 21)
  else BitsWithin entry vaddr 10 21

theorem vmmResolveEntry_eq_iff {level : Nat} {entry vaddr : BitVec 64}
    (page : level = 1 ∨ level = 2 ∧ hwLarge entry = true)
    (low : (hwFrame entry).toNat < 2 ^ 35) :
    vmmResolveEntry entry vaddr = hwPage level entry vaddr ↔ EntryAgrees level entry vaddr := by
  have bits : vmmResolveEntry entry vaddr = hwPage level entry vaddr ↔ ∀ i, i < 64 →
      (decide (10 ≤ i ∧ i < 47) && entry.getLsbD i ||
        decide (i < if hwLarge entry then 21 else 12) && vaddr.getLsbD i) =
      if i < 9 * level + 3 then vaddr.getLsbD i else (decide (i < 52) && entry.getLsbD i) := by
    constructor
    · intro same i lt
      rw [← getLsbD_vmmResolveEntry low lt, same, getLsbD_hwPage (by omega) _ _ lt]
    · intro same
      apply BitVec.eq_of_getLsbD_eq
      intro i lt
      rw [getLsbD_vmmResolveEntry low lt, same i lt, getLsbD_hwPage (by omega) _ _ lt]
  have above : ∀ i, 47 ≤ i → i < 52 → entry.getLsbD i = false :=
    fun i ge lt => getLsbD_of_low low ge lt
  rw [bits]
  unfold EntryAgrees BitsWithin
  obtain rfl | ⟨rfl, large⟩ := page
  · constructor
    · intro same
      refine ⟨fun i ge lt set => ?_, fun large i ge lt set => ?_⟩
      · have here := same i (by omega)
        grind
      · have here := same i (by omega)
        grind
    · rintro ⟨low, high⟩ i lt
      grind
  · constructor
    · intro same i ge lt set
      have here := same i (by omega)
      grind
    · intro within i lt
      grind

/-- Through the window the code reads the entries the processor consults, and `vmm_resolve` gives
    the processor's address, or 0 for none, exactly when the code's address of the entry agrees. -/
theorem vmmResolve_iff {s : Vmm} (rec : Recursive s.mem s.cr3)
    (low : ∀ {level table} {i : Index}, HwTable s.mem s.cr3 level table → s.mem table i ≠ 0#64 →
      (hwFrame (s.mem table i)).toNat < 2 ^ 35)
    {vaddr : BitVec 64} (canon : canonical vaddr = true) :
    (((vmmEntries vaddr).take (hwWalk s.mem vaddr 4 s.cr3).1.length).map s.read =
        (hwWalk s.mem vaddr 4 s.cr3).1.map some ∧
      vmmResolve s vaddr = some ((hwTranslate s.mem s.cr3 vaddr).getD 0)) ↔
    ∀ level entry, (hwWalk s.mem vaddr 4 s.cr3).2 = some (level, entry) →
      EntryAgrees level entry vaddr := by
  obtain ⟨reads, -, page⟩ := vmmFinds rec vaddr
  have resolve := vmmResolve_eq rec vaddr
  rw [hwTranslate, if_pos canon]
  cases walk : (hwWalk s.mem vaddr 4 s.cr3).2 with
  | none =>
      rw [walk] at resolve
      simp [reads, resolve]
  | some last =>
      obtain ⟨level, entry⟩ := last
      obtain ⟨leaf, -, used, table, i, reached, rfl⟩ := page level entry walk
      rw [walk] at resolve
      simp [reads, resolve, ← vmmResolveEntry_eq_iff leaf (low reached used)]

/-! ## One mapped page -/

/-- A PML4 in frame 1 and one page at `0x2000`, with its PDPT, PD and PT in frames 2 to 4. -/
def onePage (entry : BitVec 64) : PhysMem := fun table i =>
  if table = 1 ∧ i = 510 then 0x1003
  else if table = 1 ∧ i = 0 then 0x2003
  else if table = 2 ∧ i = 0 then 0x3003
  else if table = 3 ∧ i = 0 then 0x4003
  else if table = 4 ∧ i = 2 then entry
  else 0

theorem onePage_cases {entry : BitVec 64} (motive : Frame → BitVec 64 → Prop)
    (unused : ∀ table, motive table 0) (self : motive 1 0x1003) (pdpt : motive 1 0x2003)
    (pd : motive 2 0x3003) (pt : motive 3 0x4003) (page : motive 4 entry) (table : Frame)
    (i : Index) : motive table (onePage entry table i) := by
  unfold onePage
  split
  · next here => exact here.1 ▸ self
  split
  · next here => exact here.1 ▸ pdpt
  split
  · next here => exact here.1 ▸ pd
  split
  · next here => exact here.1 ▸ pt
  split
  · next here => exact here.1 ▸ page
  · exact unused table

theorem onePage_table {entry : BitVec 64} {level : Nat} {table : Frame}
    (reach : HwTable (onePage entry) 1 level table) : 0 < table.toNat ∧ table.toNat + level ≤ 5 := by
  induction reach with
  | pml4 => decide
  | @next level table i above used small ih =>
      have step := @onePage_cases entry (fun table value => value ≠ 0#64 →
        table.toNat + 2 ≤ 5 →
          0 < (hwFrame value).toNat ∧ (hwFrame value).toNat ≤ table.toNat + 1)
        (fun _ used => absurd rfl used) (by decide) (by decide) (by decide) (by decide)
        (fun _ deep => absurd deep (by decide)) table i
      have := step used (by omega)
      omega

theorem onePage_recursive {entry : BitVec 64} (present : hwPresent entry = true) :
    Recursive (onePage entry) 1 where
  self := by
    have self : onePage entry 1 510 = 0x1003 := if_pos ⟨rfl, rfl⟩
    rw [self]
    decide
  present {_ table i} _ used :=
    onePage_cases (fun _ value => value ≠ 0#64 → hwPresent value = true)
      (fun _ used => absurd rfl used) (by decide) (by decide) (by decide) (by decide)
      (fun _ => present) table i used
  small {table i} reach :=
    onePage_cases (fun table value => table.toNat + 3 ≤ 5 → hwLarge value = false)
      (fun _ _ => rfl) (by decide) (by decide) (by decide) (by decide)
      (fun deep => absurd deep (by decide)) table i (onePage_table reach).2

theorem onePage_low {entry : BitVec 64} (low : (hwFrame entry).toNat < 2 ^ 35) (table : Frame)
    (i : Index) (used : onePage entry table i ≠ 0#64) :
    (hwFrame (onePage entry table i)).toNat < 2 ^ 35 :=
  onePage_cases (fun _ value => value ≠ 0#64 → (hwFrame value).toNat < 2 ^ 35)
    (fun _ used => absurd rfl used) (by decide) (by decide) (by decide) (by decide)
    (fun _ => low) table i used

/-- The memory with one page, without a PMM. -/
def onePageVmm (entry : BitVec 64) : Vmm := ⟨onePage entry, 1, ⟨⟨0, 0, 0⟩, fun _ => 0, false, 0, 0⟩, 0⟩

/-- A page with no flag the code mistakes. -/
theorem vmmResolve_onePage :
    ((vmmEntries 0x2000).take (hwWalk (onePage 0x5003) 0x2000 4 1).1.length).map
        (onePageVmm 0x5003).read = (hwWalk (onePage 0x5003) 0x2000 4 1).1.map some ∧
    vmmResolve (onePageVmm 0x5003) 0x2000 =
      some ((hwTranslate (onePage 0x5003) 1 0x2000).getD 0) := by
  have tables : Recursive (onePage 0x5003) 1 := onePage_recursive (by decide)
  have walk : (hwWalk (onePage 0x5003) 0x2000 4 1).2 = some (1, 0x5003) := by decide
  refine (vmmResolve_iff (s := onePageVmm 0x5003) tables
    (fun _ used => onePage_low (by decide) _ _ used) (by decide)).mpr fun level entry page => ?_
  obtain ⟨rfl, rfl⟩ := Prod.mk.inj (Option.some.inj (walk.symm.trans page))
  refine ⟨fun i ge lt set => ?_, fun large => absurd large (by decide)⟩
  obtain rfl | rfl : i = 10 ∨ i = 11 := by omega
  · exact absurd set (by decide)
  · exact absurd set (by decide)

/-- With the PAT bit in its entry, the page in frame 5 is resolved to frame 7. -/
theorem vmmResolve_pat : Recursive (onePage 0x5083) 1 ∧
    (∀ table i, onePage 0x5083 table i ≠ 0#64 → (hwFrame (onePage 0x5083 table i)).toNat < 2 ^ 35) ∧
    canonical 0x2000 = true ∧
    hwTranslate (onePage 0x5083) 1 0x2000 = some 0x5000 ∧
    vmmResolve (onePageVmm 0x5083) 0x2000 = some 0x7000 := by
  refine ⟨onePage_recursive (by decide), onePage_low (by decide), by decide, ?_, ?_⟩
  · decide
  · decide

end Sdx.Mm
