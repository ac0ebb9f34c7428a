import Sdx.Mm.Region
import Sdx.Mm.VmmMapTo
import Sdx.Mm.VmmMapped

/-! # More than one PML4 (`mm/vmm.c`)

A task has its own PML4. `vmm_sync` fills it through a page that it maps for that and unmaps
again: the lower half is cleared, the upper half is copied from the PML4 that is loaded. The
last entry of the lower half is in neither range.
-/

namespace Sdx.Mm

/-! ## Mapping at given addresses -/

/-- `vmm_map_paddr`: the address, or 0 for `NULL`. -/
def vmmMapPaddr (boot : BootInfo) (s : Vmm) (fuel : Nat) (paddr : BitVec 64) (num : Nat)
    (attr : BitVec 32) : Option (BitVec 64 × Vmm) := do
  let vaddr ← vmmFindContiguous s fuel num 0 attr
  if vaddr = 0#64 then some (0, s)
  else if paddr.toNat % pageSize ≠ 0 then some (0, s)
  else vmmMapToPaddrInternal boot s paddr vaddr num attr

/-- The loop of `vmm_map_vaddr`: whether it gets through all pages. -/
def vmmMapVaddrLoop (s : Vmm) (attr : BitVec 32) (vaddrPos : BitVec 64) : Nat → Option Bool
  | 0 => some true
  | num + 1 =>
      if !vmmVmaDoesContain vaddrPos.toNat then some false
      else if attr &&& vmmAttrReuse ≠ 0#32 then vmmMapVaddrLoop s attr (vaddrPos + 4096#64) num
      else do
        let entry ← vmmEntryFromVaddr s vaddrPos
        if entry.isSome then some false else vmmMapVaddrLoop s attr (vaddrPos + 4096#64) num

/-- `vmm_map_vaddr`: the address, or 0 for `NULL`. -/
def vmmMapVaddr (boot : BootInfo) (s : Vmm) (vaddr : BitVec 64) (num align : Nat)
    (attr : BitVec 32) : Option (BitVec 64 × Vmm) := do
  let fits ← vmmMapVaddrLoop s attr vaddr num
  if fits then vmmMapToVaddrInternal boot s vaddr num align attr else some (0, s)

/-- The range `vmm_map_exact` is left with, and how far it got. -/
structure VmmExact where
  paddr : BitVec 64
  vaddr : BitVec 64
  num : Nat
  cur : Nat

/-- A page that is mapped as wanted is left out of the range if it is the first one. -/
def VmmExact.skip (e : VmmExact) (entry paddrPos : BitVec 64) : VmmExact :=
  if e.cur = 0 ∧ vmmEntryToAddr entry = paddrPos then
    { e with paddr := e.paddr + 4096#64, vaddr := e.vaddr + 4096#64, num := e.num - 1 }
  else e

/-- The loop of `vmm_map_exact`, at most as often as there are pages. -/
def vmmMapExactLoop (s : Vmm) (attr : BitVec 32) :
    Nat → BitVec 64 → BitVec 64 → VmmExact → Option VmmExact
  | 0, _, _, e => some e
  | fuel + 1, paddrPos, vaddrPos, e =>
      if ¬ e.num > e.cur then some e
      else if !vmmVmaDoesContain vaddrPos.toNat then some e
      else do
        match ← vmmEntryFromVaddr s vaddrPos with
        | none =>
            vmmMapExactLoop s attr fuel (paddrPos + 4096#64) (vaddrPos + 4096#64)
              { e with cur := e.cur + 1 }
        | some entry =>
            let value ← s.read entry
            let e := e.skip value paddrPos
            if attr &&& vmmAttrReuse = 0#32 then some e
            else
              vmmMapExactLoop s attr fuel (paddrPos + 4096#64) (vaddrPos + 4096#64)
                { e with cur := e.cur + 1 }

/-- `vmm_map_exact`: the address, or 0 for `NULL`. -/
def vmmMapExact (boot : BootInfo) (s : Vmm) (paddr vaddr : BitVec 64) (num : Nat)
    (attr : BitVec 32) : Option (BitVec 64 × Vmm) := do
  let e ← vmmMapExactLoop s attr num paddr vaddr ⟨paddr, vaddr, num, 0⟩
  if e.cur ≠ e.num then some (0, s)
  else vmmMapToPaddrInternal boot s e.paddr e.vaddr e.num attr

/-! ## Copying -/

/-- The loop of `memcpy` over words. -/
def Vmm.memcpyLoop (s : Vmm) (dst src : BitVec 64) : Nat → Option Vmm
  | 0 => some s
  | words + 1 => do
      let value ← s.read src
      let s ← s.write dst value
      s.memcpyLoop (dst + 8#64) (src + 8#64) words

/-- `memcpy` of whole words. -/
def Vmm.memcpy (s : Vmm) (dst src size : BitVec 64) : Option Vmm :=
  if dst = 0#64 ∨ src = 0#64 ∨ size.sle 0#64 then some s
  else s.memcpyLoop dst src (size.toNat / 8)

/-! ## The PML4 of a task -/

/-- `VMM_VMA_USER_END`. -/
def vmmVmaUserEndVaddr : BitVec 64 := BitVec.ofNat 64 vmmVmaUserEnd

/-- `vmm_get`. -/
def vmmGet (s : Vmm) : BitVec 64 := s.cr3.setWidth 64 <<< 12

/-- The part of `vmm_sync` that writes the PML4 at `vmm`, which is mapped at `pml4`. -/
def vmmSyncPml4 (s : Vmm) (vmm pml4 : BitVec 64) : Option Vmm := do
  let s ← s.bzero pml4 (vmmPml4Index vmmVmaUserEndVaddr).toNat
  let s ← s.memcpy (vmmEntryAt pml4 (vmmPml4Index vmmVmaKernelStart))
    (vmmEntryAt vmmPml4Vaddr (vmmPml4Index vmmVmaKernelStart))
    ((BitVec.ofNat 64 pteCount - vmmPml4Index vmmVmaKernelStart) * 8#64)
  s.write (vmmEntryAt pml4 510#64) (vmm ||| pteFlagsDefault)

/-- `vmm_sync`. -/
def vmmSync (boot : BootInfo) (fuel : Nat) (s : Vmm) (vmm : BitVec 64) : Option (Int × Vmm) := do
  let (pml4, s) ← vmmMapPaddr boot s fuel vmm 1 vmmAttrSave
  if pml4 = 0#64 then some (-eFAULT, s)
  else
    let s ← vmmSyncPml4 s vmm pml4
    vmmUnmap s pml4 vmmAttrSave 1

/-- `vmm_new`: the PML4, or 0 for `NULL`. -/
def vmmNew (boot : BootInfo) (fuel : Nat) (s : Vmm) : Option (BitVec 64 × Vmm) :=
  let (pml4, pmm) := pmmAlloc boot s.pmm 1 0
  if pml4 = 0 then some (0, { s with pmm := pmm })
  else do
    let (err, s) ← vmmSync boot fuel { s with pmm := pmm } (BitVec.ofNat 64 pml4)
    if err ≠ 0 then some (0, { s with pmm := (pmmFree s.pmm pml4 1).2 })
    else some (BitVec.ofNat 64 pml4, s)

/-- `vmm_switch`. -/
def vmmSwitch (s : Vmm) (vmm : BitVec 64) : Int × Vmm :=
  if vmm = 0#64 then (-eINVAL, s) else (0, { s with cr3 := hwFrame vmm })

/-- `vmm_free`. -/
def vmmFree (s : Vmm) (vmm : BitVec 64) : Int × Vmm :=
  let (err, pmm) := pmmFree s.pmm vmm.toNat 1
  (err, { s with pmm := pmm })

/-! ## A page in a frame of its own -/

/-- The walk depends on the indexes only. -/
theorem hwWalk_congr {mem : PhysMem} {vaddr vaddr' : BitVec 64} {level : Nat} {table : Frame}
    (same : ∀ l, 0 < l → l ≤ level → hwIndex vaddr l = hwIndex vaddr' l) :
    hwWalk mem vaddr level table = hwWalk mem vaddr' level table := by
  induction level generalizing table with
  | zero => rfl
  | succ level ih =>
      have rest : ∀ table, hwWalk mem vaddr level table = hwWalk mem vaddr' level table :=
        fun table => ih fun l pos le => same l pos (by omega)
      simp only [hwWalk, same (level + 1) (by omega) (Nat.le_refl _), rest]

section

variable {page : BitVec 64} (aligned : 4096 ∣ page.toNat) (i : Index)

include aligned

theorem vmmEntryAt_page_toNat :
    (vmmEntryAt page (i.setWidth 64)).toNat = page.toNat + 8 * i.toNat := by
  have lt := page.isLt
  have below := i.isLt
  obtain ⟨q, eq⟩ := aligned
  rw [vmmEntryAt, BitVec.toNat_add, BitVec.toNat_mul, BitVec.toNat_setWidth, BitVec.toNat_ofNat]
  omega

theorem hwIndex_page {level : Nat} (pos : 0 < level) (le : level ≤ 4) :
    hwIndex (vmmEntryAt page (i.setWidth 64)) level = hwIndex page level := by
  have below := i.isLt
  obtain ⟨q, eq⟩ := aligned
  apply BitVec.eq_of_toNat_eq
  rw [hwIndex_toNat, hwIndex_toNat, vmmEntryAt_page_toNat ⟨q, eq⟩, eq]
  obtain rfl | rfl | rfl | rfl : level = 1 ∨ level = 2 ∨ level = 3 ∨ level = 4 := by omega
  all_goals omega

theorem hwWord_page : hwWord (vmmEntryAt page (i.setWidth 64)) = i := by
  have below := i.isLt
  obtain ⟨q, eq⟩ := aligned
  apply BitVec.eq_of_toNat_eq
  rw [hwWord_toNat, vmmEntryAt_page_toNat ⟨q, eq⟩, eq]
  omega

theorem canonical_page (high : 0xffff800000000000 ≤ page.toNat) :
    canonical (vmmEntryAt page (i.setWidth 64)) = true := by
  apply canonical_of_high
  rw [vmmEntryAt_page_toNat aligned]
  omega

end

/-- The frames of the tables on the way to the entry of a page. -/
structure TablesAt (mem : PhysMem) (cr3 : Frame) (vaddr : BitVec 64) (pdpt pd pt : Frame) : Prop where
  self : SelfMapped mem cr3
  at_pdpt : hwPointer (mem cr3 (hwIndex vaddr 4)) ∧ hwFrame (mem cr3 (hwIndex vaddr 4)) = pdpt
  at_pd : hwPointer (mem pdpt (hwIndex vaddr 3)) ∧ hwFrame (mem pdpt (hwIndex vaddr 3)) = pd
  at_pt : hwPointer (mem pd (hwIndex vaddr 2)) ∧ hwFrame (mem pd (hwIndex vaddr 2)) = pt

namespace TablesAt

variable {s : Vmm} {vaddr : BitVec 64} {pdpt pd pt f : Frame}

theorem congr {mem mem' : PhysMem} {cr3 : Frame} (tables : TablesAt mem cr3 vaddr pdpt pd pt)
    (same : ∀ t, t ≠ f → mem' t = mem t) (off : f ≠ cr3 ∧ f ≠ pdpt ∧ f ≠ pd) :
    TablesAt mem' cr3 vaddr pdpt pd pt := by
  have root : mem' cr3 = mem cr3 := same cr3 off.1.symm
  refine ⟨⟨?_, ?_, ?_⟩, ?_, ?_, ?_⟩
  · rw [root]
    exact tables.self.present
  · rw [root]
    exact tables.self.small
  · rw [root]
    exact tables.self.frame
  · rw [root]
    exact tables.at_pdpt
  · rw [same pdpt off.2.1.symm]
    exact tables.at_pd
  · rw [same pd off.2.2.symm]
    exact tables.at_pt

theorem follow_pdpt (tables : TablesAt s.mem s.cr3 vaddr pdpt pd pt) :
    follow s.mem s.cr3 [hwIndex vaddr 4] = some pdpt :=
  follow_cons.mpr ⟨tables.at_pdpt.1, congrArg some tables.at_pdpt.2⟩

theorem follow_pd (tables : TablesAt s.mem s.cr3 vaddr pdpt pd pt) :
    follow s.mem s.cr3 [hwIndex vaddr 4, hwIndex vaddr 3] = some pd := by
  refine follow_cons.mpr ⟨tables.at_pdpt.1, ?_⟩
  rw [tables.at_pdpt.2]
  exact follow_cons.mpr ⟨tables.at_pd.1, congrArg some tables.at_pd.2⟩

theorem follow_pt (tables : TablesAt s.mem s.cr3 vaddr pdpt pd pt) :
    follow s.mem s.cr3 [hwIndex vaddr 4, hwIndex vaddr 3, hwIndex vaddr 2] = some pt := by
  refine follow_cons.mpr ⟨tables.at_pdpt.1, ?_⟩
  rw [tables.at_pdpt.2]
  refine follow_cons.mpr ⟨tables.at_pd.1, ?_⟩
  rw [tables.at_pd.2]
  exact follow_cons.mpr ⟨tables.at_pt.1, congrArg some tables.at_pt.2⟩

theorem read_pml4 (tables : TablesAt s.mem s.cr3 vaddr pdpt pd pt) (i : Index) :
    s.read (vmmEntryAt vmmPml4Vaddr (i.setWidth 64)) = some (s.mem s.cr3 i) :=
  tables.self.read_windowOf (by decide : ([] : List Index).length ≤ 3) rfl i

theorem read_pdpt (tables : TablesAt s.mem s.cr3 vaddr pdpt pd pt) (i : Index) :
    s.read (vmmEntryAt (vmmPdptVaddr vaddr) (i.setWidth 64)) = some (s.mem pdpt i) := by
  rw [vmmPdptVaddr_eq]
  exact tables.self.read_windowOf (by simp) tables.follow_pdpt i

theorem read_pd (tables : TablesAt s.mem s.cr3 vaddr pdpt pd pt) (i : Index) :
    s.read (vmmEntryAt (vmmPdVaddr vaddr) (i.setWidth 64)) = some (s.mem pd i) := by
  rw [vmmPdVaddr_eq]
  exact tables.self.read_windowOf (by simp) tables.follow_pd i

theorem read_pt (tables : TablesAt s.mem s.cr3 vaddr pdpt pd pt) (i : Index) :
    s.read (vmmEntryAt (vmmPtVaddr vaddr) (i.setWidth 64)) = some (s.mem pt i) := by
  rw [vmmPtVaddr_eq]
  exact tables.self.read_windowOf (by simp) tables.follow_pt i

theorem write_pt (tables : TablesAt s.mem s.cr3 vaddr pdpt pd pt) (value : BitVec 64) :
    s.write (vmmPtEntry vaddr) value =
      some { s with mem := s.mem.set pt (hwIndex vaddr 1) value } := by
  rw [Vmm.write, vmmPtEntry, vmmPtVaddr_eq, vmmPtIndex_eq,
    tables.self.write_windowOf (by simp) tables.follow_pt]
  rfl

/-- The entry of a page that is mapped below these tables. -/
theorem entryFromVaddr (tables : TablesAt s.mem s.cr3 vaddr pdpt pd pt) :
    vmmEntryFromVaddr s vaddr =
      some (if s.mem pt (hwIndex vaddr 1) = 0#64 then none else some (vmmPtEntry vaddr)) := by
  have small := (pteFlagPS_unset_iff _).mpr tables.at_pt.1.2
  unfold vmmEntryFromVaddr
  rw [vmmPml4Entry, vmmPml4Index_eq, tables.read_pml4, Option.bind_eq_bind, Option.bind_some,
    if_neg tables.at_pdpt.1.ne_zero, vmmPdptEntry, vmmPdptIndex_eq, tables.read_pdpt,
    Option.bind_some, if_neg tables.at_pd.1.ne_zero, vmmPdEntry, vmmPdIndex_eq, tables.read_pd,
    Option.bind_some, if_neg tables.at_pt.1.ne_zero, if_neg (not_not.mpr small), vmmPtEntry,
    vmmPtIndex_eq, tables.read_pt, Option.bind_some]

end TablesAt

/-- A table with an entry in use is kept. -/
theorem vmmFreeTable_used {s : Vmm} {table entry : BitVec 64} {pml4 : Bool} {row : Index → BitVec 64}
    (read : ∀ i : Index, s.read (vmmEntryAt table (i.setWidth 64)) = some (row i)) {i : Index}
    (used : row i ≠ 0#64) : vmmFreeTable s table entry pml4 = some s := by
  obtain ⟨free, result, all⟩ := vmmIsTableFree_eq read
  have kept : free = false := by
    cases free with
    | false => rfl
    | true => exact absurd (all.mp rfl i) used
  rw [vmmFreeTable, result, kept]
  rfl

/-- Unmapping a page whose PT has another one, with `VMM_ATTR_SAVE`. -/
theorem TablesAt.unmap {s : Vmm} {vaddr : BitVec 64} {pdpt pd pt : Frame}
    (tables : TablesAt s.mem s.cr3 vaddr pdpt pd pt) (off : pt ≠ s.cr3 ∧ pt ≠ pdpt ∧ pt ≠ pd)
    (mapped : s.mem pt (hwIndex vaddr 1) ≠ 0#64) {j : Index} (other : j ≠ hwIndex vaddr 1)
    (used : s.mem pt j ≠ 0#64) : vmmUnmap s vaddr vmmAttrSave 1 =
      some (0, { s with mem := s.mem.set pt (hwIndex vaddr 1) 0#64 }) := by
  have save : ¬ (s.mem pt (hwIndex vaddr 1) &&& pteFlagPMM ≠ 0#64 ∧
      vmmAttrSave &&& vmmAttrSave = 0#32) := fun free => absurd free.2 (by decide)
  have tables' : TablesAt (s.mem.set pt (hwIndex vaddr 1) 0#64) s.cr3 vaddr pdpt pd pt :=
    tables.congr (fun t ne => PhysMem.set_frame _ _ ne) off
  have left : (s.mem.set pt (hwIndex vaddr 1) 0#64) pt j ≠ 0#64 := by
    rw [PhysMem.set_index _ _ other]
    exact used
  have entry := tables.read_pt (hwIndex vaddr 1)
  rw [← vmmPtIndex_eq, ← vmmPtEntry] at entry
  have freed : vmmFreePage s.pmm (s.mem pt (hwIndex vaddr 1)) vmmAttrSave = (0, s.pmm) := if_neg save
  have kept : vmmFreeTables { s with mem := s.mem.set pt (hwIndex vaddr 1) 0#64 } vaddr =
      some { s with mem := s.mem.set pt (hwIndex vaddr 1) 0#64 } := by
    rw [vmmFreeTables, vmmFreeTable_used (read_pt tables') left, Option.bind_eq_bind,
      Option.bind_some, vmmFreeTable_used (read_pd tables') tables'.at_pt.1.ne_zero,
      Option.bind_some, vmmFreeTable_used (read_pdpt tables') tables'.at_pd.1.ne_zero]
  have page : vmmUnmapPage s vaddr vmmAttrSave =
      some (0, { s with mem := s.mem.set pt (hwIndex vaddr 1) 0#64 }) := by
    simp only [vmmUnmapPage, tables.entryFromVaddr, if_neg mapped, Option.bind_eq_bind,
      Option.bind_some, entry, freed, ne_eq, not_true_eq_false, if_false, tables.write_pt, kept]
  simp only [vmmUnmap, page, Option.bind_eq_bind, Option.bind_some, ne_eq, not_true_eq_false,
    if_false]

/-- The page at `page`, in the upper half, is frame `f`, whatever is in the frame. -/
structure PageAt (mem : PhysMem) (cr3 : Frame) (page : BitVec 64) (f : Frame) : Prop where
  aligned : 4096 ∣ page.toNat
  high : 0xffff800000000000 ≤ page.toNat
  walk : ∀ mem' : PhysMem, (∀ t, t ≠ f → mem' t = mem t) →
    ∃ entry, (hwWalk mem' page 4 cr3).2 = some (1, entry) ∧ hwFrame entry = f

namespace PageAt

variable {mem mem' : PhysMem} {cr3 f : Frame} {page : BitVec 64}

/-- A page whose tables are in other frames. -/
theorem of_tables {pdpt pd pt : Frame} (tables : TablesAt mem cr3 page pdpt pd pt)
    (aligned : 4096 ∣ page.toNat) (high : 0xffff800000000000 ≤ page.toNat)
    (here : hwPresent (mem pt (hwIndex page 1)) = true ∧ hwFrame (mem pt (hwIndex page 1)) = f)
    (off : f ≠ cr3 ∧ f ≠ pdpt ∧ f ≠ pd ∧ f ≠ pt) : PageAt mem cr3 page f where
  aligned := aligned
  high := high
  walk mem' same := by
    obtain ⟨off₄, off₃, off₂, off₁⟩ := off
    obtain ⟨-, ⟨⟨present₃, small₃⟩, frame₃⟩, ⟨⟨present₂, small₂⟩, frame₂⟩, ⟨⟨present₁, small₁⟩, frame₁⟩⟩ :=
      tables.congr same ⟨off₄, off₃, off₂⟩
    obtain ⟨present, frame⟩ := here
    refine ⟨mem pt (hwIndex page 1), ?_, frame⟩
    simp [hwWalk, same pt off₁.symm, present₃, small₃, frame₃, present₂, small₂, frame₂, present₁,
      small₁, frame₁, present]

theorem congr (at_page : PageAt mem cr3 page f) (same : ∀ t, t ≠ f → mem' t = mem t) :
    PageAt mem' cr3 page f :=
  ⟨at_page.aligned, at_page.high, fun mem'' same' =>
    at_page.walk mem'' fun t off => (same' t off).trans (same t off)⟩

theorem translate (at_page : PageAt mem cr3 page f) (i : Index) : ∃ paddr,
    hwTranslate mem cr3 (vmmEntryAt page (i.setWidth 64)) = some paddr ∧ hwFrame paddr = f ∧
      hwWord paddr = i := by
  obtain ⟨entry, walk, frame⟩ := at_page.walk mem fun _ _ => rfl
  have same : hwWalk mem (vmmEntryAt page (i.setWidth 64)) 4 cr3 = hwWalk mem page 4 cr3 :=
    hwWalk_congr fun l pos le => hwIndex_page at_page.aligned i pos le
  refine ⟨_, ?_, (hwFrame_hwPage entry _).trans frame,
    (hwWord_hwPage (by decide) (by decide) entry _).trans (hwWord_page at_page.aligned i)⟩
  rw [hwTranslate, if_pos (canonical_page at_page.aligned i at_page.high), same, walk]
  rfl

theorem write (at_page : PageAt mem cr3 page f) (same : ∀ t, t ≠ f → mem' t = mem t) (i : Index)
    (value : BitVec 64) : hwWrite mem' cr3 (vmmEntryAt page (i.setWidth 64)) value =
      some (mem'.set f i value) := by
  obtain ⟨paddr, translate, rfl, rfl⟩ := (at_page.congr same).translate i
  rw [hwWrite, translate]
  rfl

end PageAt

/-! ## The copy of the upper half -/

/-- The memory with words of a frame replaced by those of `row`. -/
def PhysMem.copy (mem : PhysMem) (f : Frame) (row : Index → BitVec 64) (first words : Nat) : PhysMem :=
  Function.update mem f fun i =>
    if first ≤ i.toNat ∧ i.toNat < first + words then row i else mem f i

theorem PhysMem.copy_set {mem : PhysMem} {f : Frame} {row : Index → BitVec 64} {j : Index}
    {words : Nat} : (mem.set f j (row j)).copy f row (j.toNat + 1) words =
      mem.copy f row j.toNat (words + 1) := by
  funext t i
  by_cases frame : t = f
  · subst frame
    simp only [copy, Function.update_self]
    by_cases first : i = j
    · subst first
      simp
    · have other : i.toNat ≠ j.toNat := fun eq => first (BitVec.eq_of_toNat_eq eq)
      have bounds : (j.toNat + 1 ≤ i.toNat ∧ i.toNat < j.toNat + 1 + words) ↔
          (j.toNat ≤ i.toNat ∧ i.toNat < j.toNat + (words + 1)) := by omega
      rw [set_index _ _ first]
      simp only [bounds]
  · simp [copy, frame]

theorem vmmEntryAt_succ (table : BitVec 64) (i : Nat) :
    vmmEntryAt table (BitVec.ofNat 64 i) + 8#64 = vmmEntryAt table (BitVec.ofNat 64 (i + 1)) := by
  rw [vmmEntryAt, vmmEntryAt, BitVec.ofNat_add, BitVec.mul_add, BitVec.add_assoc]
  rfl

/-- `memcpy` between tables, into a frame that neither of them needs. -/
theorem memcpyLoop_eq {s : Vmm} {dst src : BitVec 64} {f : Frame} {row : Index → BitVec 64}
    (write : ∀ mem' : PhysMem, (∀ t, t ≠ f → mem' t = s.mem t) → ∀ (i : Index) value,
      hwWrite mem' s.cr3 (vmmEntryAt dst (i.setWidth 64)) value = some (mem'.set f i value))
    (read : ∀ mem' : PhysMem, (∀ t, t ≠ f → mem' t = s.mem t) → ∀ i : Index,
      hwRead mem' s.cr3 (vmmEntryAt src (i.setWidth 64)) = some (row i))
    {i words : Nat} (le : i + words ≤ 512) :
    s.memcpyLoop (vmmEntryAt dst (BitVec.ofNat 64 i)) (vmmEntryAt src (BitVec.ofNat 64 i)) words =
      some { s with mem := s.mem.copy f row i words } := by
  have loop : ∀ mem' : PhysMem, (∀ t, t ≠ f → mem' t = s.mem t) →
      { s with mem := mem' }.memcpyLoop (vmmEntryAt dst (BitVec.ofNat 64 i))
        (vmmEntryAt src (BitVec.ofNat 64 i)) words =
      some { s with mem := mem'.copy f row i words } := by
    induction words generalizing i with
    | zero =>
        intro mem' _
        have none : ∀ j : Index, ¬ (i ≤ j.toNat ∧ j.toNat < i) := fun j inside => by omega
        simp [Vmm.memcpyLoop, PhysMem.copy, none]
    | succ words ih =>
        intro mem' same
        obtain ⟨j, rfl, at_word⟩ : ∃ j : Index, j.toNat = i ∧
            j.setWidth 64 = BitVec.ofNat 64 i := by
          refine ⟨BitVec.ofNat 9 i, ?_, ofNat_setWidth (by omega)⟩
          rw [BitVec.toNat_ofNat]
          omega
        have from_word := read mem' same j
        have to_word := write mem' same j (row j)
        have rest := ih (i := j.toNat + 1) (by omega) (mem'.set f j (row j)) fun t off => by
          rw [PhysMem.set_frame _ _ off, same t off]
        rw [at_word] at from_word to_word
        simp only [Vmm.memcpyLoop, Vmm.read, Vmm.write, from_word, to_word, Option.map_some,
          Option.bind_eq_bind, Option.bind_some, vmmEntryAt_succ]
        rw [rest, PhysMem.copy_set]
  exact loop s.mem fun _ _ => rfl

/-- What `vmm_sync` leaves in the PML4 at `vmm` that held `old`, if `cur` is loaded: the last entry of
    the lower half stays as it was. -/
def vmmSyncRow (cur old : Index → BitVec 64) (vmm : BitVec 64) : Index → BitVec 64 := fun i =>
  if i = 510 then vmm ||| pteFlagsDefault
  else if 256 ≤ i.toNat then cur i
  else if i.toNat < 255 then 0#64
  else old i

/-- The memory with the PML4 in frame `f` brought up to date with the one in `cr3`. -/
def PhysMem.synced (mem : PhysMem) (cr3 f : Frame) (vmm : BitVec 64) : PhysMem :=
  Function.update mem f (vmmSyncRow (mem cr3) (mem f) vmm)

theorem PhysMem.synced_frame {mem : PhysMem} {cr3 f : Frame} {vmm : BitVec 64} {t : Frame}
    (off : t ≠ f) : mem.synced cr3 f vmm t = mem t := Function.update_of_ne off _ _

theorem PhysMem.clear_copy_set (mem : PhysMem) (cr3 f : Frame) (vmm : BitVec 64) :
    ((mem.clear f 255).copy f (mem cr3) 256 256).set f 510 (vmm ||| pteFlagsDefault) =
      mem.synced cr3 f vmm := by
  unfold synced
  funext t i
  by_cases frame : t = f
  · subst frame
    rw [Function.update_self]
    by_cases last : i = 510
    · subst last
      rw [set_same, vmmSyncRow, if_pos rfl]
    · have inside : i.toNat < 256 + 256 := i.isLt
      rw [set_index _ _ last, vmmSyncRow, if_neg last, copy, clear, Function.update_self,
        Function.update_self]
      simp only [inside, and_true]
  · simp [copy, clear, frame]

/-- The writes of `vmm_sync` through its temporary page. -/
theorem vmmSyncPml4_eq {s : Vmm} {vmm pml4 : BitVec 64} {f : Frame}
    (at_page : PageAt s.mem s.cr3 pml4 f) (self : SelfMapped s.mem s.cr3) (off : f ≠ s.cr3) :
    vmmSyncPml4 s vmm pml4 = some { s with mem := s.mem.synced s.cr3 f vmm } := by
  have read : ∀ mem' : PhysMem, (∀ t, t ≠ f → mem' t = s.mem t) → ∀ i : Index,
      hwRead mem' s.cr3 (vmmEntryAt vmmPml4Vaddr (i.setWidth 64)) = some (s.mem s.cr3 i) := by
    intro mem' same i
    have row := same s.cr3 off.symm
    have self' : SelfMapped mem' s.cr3 := by
      constructor <;> rw [row]
      exacts [self.present, self.small, self.frame]
    rw [← row]
    exact self'.read_windowOf (by decide : ([] : List Index).length ≤ 3) rfl i
  have clear := bzero_clear (s := s) (by decide : 255 ≤ 512)
    fun mem' same i => at_page.write same i 0#64
  have copy := @memcpyLoop_eq { s with mem := s.mem.clear f 255 } pml4 vmmPml4Vaddr f (s.mem s.cr3)
    (fun mem' same i value => at_page.write (fun t off => by
      rw [same t off]
      exact Function.update_of_ne off _ _) i value)
    (fun mem' same i => read mem' (fun t off => by
      rw [same t off]
      exact Function.update_of_ne off _ _) i) 256 256 (by decide)
  have others : ∀ t, t ≠ f → (s.mem.clear f 255).copy f (s.mem s.cr3) 256 256 t = s.mem t :=
    fun t off => by simp [PhysMem.copy, PhysMem.clear, off]
  have last := at_page.write others 510 (vmm ||| pteFlagsDefault)
  have bytes : vmmEntryAt pml4 256#64 ≠ 0#64 := by
    intro zero
    have value := vmmEntryAt_page_toNat at_page.aligned 256
    rw [show (256 : Index).setWidth 64 = 256#64 from rfl, zero] at value
    have high := at_page.high
    rw [show (0#64).toNat = 0 from rfl] at value
    omega
  unfold vmmSyncPml4
  rw [show (vmmPml4Index vmmVmaUserEndVaddr).toNat = 255 by decide,
    show vmmPml4Index vmmVmaKernelStart = 256#64 by decide, clear, Option.bind_eq_bind,
    Option.bind_some]
  unfold Vmm.memcpy
  rw [if_neg (by simp only [bytes, false_or]; decide),
    show ((BitVec.ofNat 64 pteCount - 256#64) * 8#64).toNat / 8 = 256 by decide]
  rw [show (510 : Index).setWidth 64 = 510#64 from rfl] at last
  rw [copy, Option.bind_some, Vmm.write]
  dsimp only
  rw [last, Option.map_some]
  rw [PhysMem.clear_copy_set]

theorem onePageMap_kernelRequest {paddr : BitVec 64} (aligned : 4096 ∣ paddr.toNat)
    (low : paddr.toNat + 4096 < 2 ^ 47) :
    MapRequest freeBoot (onePageMap 0x10000) onePageTables paddr vmmVmaKernelStart 1 where
  tree := onePage_tree (by decide)
  aligned := ⟨by decide, aligned⟩
  low := low
  range := ⟨0, by rw [InVma, if_neg (by decide)]; decide⟩
  small := by
    have unmapped : ∀ j, j < 1 → hwLeaf (onePageMap 0x10000).mem (onePageMap 0x10000).cr3
        (pageAfter vmmVmaKernelStart j) = none := by decide
    intro j lt entry leaf
    rw [unmapped j lt] at leaf
    cases leaf
  supply := by
    refine ⟨[16, 17, 18], ⟨⟨by decide, by decide, by decide, trivial⟩,
      by decide, fun f here => onePageTables_fresh ?_⟩, by decide⟩
    simp only [List.mem_cons, List.not_mem_nil, or_false] at here
    obtain rfl | rfl | rfl := here <;> decide

theorem onePageMap_mapPaddr {paddr : BitVec 64} {attr : BitVec 32} (aligned : 4096 ∣ paddr.toNat)
    (low : paddr.toNat + 4096 < 2 ^ 47) (kernel : attr &&& vmmAttrUser = 0#32) :
    ∃ s', vmmMapPaddr freeBoot (onePageMap 0x10000) 8 paddr 1 attr = some (vmmVmaKernelStart, s') := by
  have find : vmmFindContiguous (onePageMap 0x10000) 8 1 0 attr = some vmmVmaKernelStart := by
    rw [vmmFindContiguous, if_neg (not_not.mpr kernel)]
    decide
  have whole : paddr.toNat % pageSize = 0 := Nat.mod_eq_zero_of_dvd aligned
  obtain ⟨s', mapped, -⟩ := vmmMapToPaddrInternal_exact (onePageMap_kernelRequest aligned low) attr
  refine ⟨s', ?_⟩
  rw [vmmMapPaddr, find, Option.bind_eq_bind, Option.bind_some, if_neg (by decide),
    if_neg (not_not.mpr whole)]
  exact mapped

end Sdx.Mm
