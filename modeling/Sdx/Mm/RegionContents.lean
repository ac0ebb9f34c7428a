import Sdx.Mm.RegionCopy
import Sdx.Mm.VmmRoundTrip

/-! # What a copied region holds

`region_copy` fills the frames of the copy through pages it maps for that. In between it asks the
heap for the object of the copy, and the heap may map pages for itself. The temporary pages go
with `VMM_ATTR_SAVE`: the frames stay allocated, and the address space is left as it was, but for
the heap.
-/

namespace Sdx.Mm

variable {boot : BootInfo} {fuel : Nat}

/-! ## The heap -/

/-- The words of a page. -/
def pageWords (page : BitVec 64) : Set (BitVec 64) :=
  {a | ∃ i : Index, a = vmmEntryAt page (i.setWidth 64)}

/-- What the heap does in a call: it maps up to so many pages as `__heap_extend` does, and writes words
    of its pages. -/
inductive HeapRun (boot : BootInfo) (fuel : Nat) :
    Nat → Set (BitVec 64) → Vmm → Set (BitVec 64) → Vmm → Prop where
  | done {n : Nat} {heap : Set (BitVec 64)} {s : Vmm} : HeapRun boot fuel n heap s heap s
  | extend {n : Nat} {heap heap' : Set (BitVec 64)} {s s₁ s' : Vmm} {page : BitVec 64}
      (map : vmmMap boot s fuel 1 0 0#32 = some (page, s₁)) (found : page ≠ 0#64)
      (rest : HeapRun boot fuel n (heap ∪ pageWords page) s₁ heap' s') :
      HeapRun boot fuel (n + 1) heap s heap' s'
  | write {n : Nat} {heap heap' : Set (BitVec 64)} {s s₁ s' : Vmm} {a value : BitVec 64}
      (inside : a ∈ heap) (write : s.write a value = some s₁)
      (rest : HeapRun boot fuel n heap s₁ heap' s') :
      HeapRun boot fuel n heap s heap' s'

/-- `sizeof(region_t)` in words. -/
def regionWords : Nat := 5

/-- `heap_alloc(sizeof(region_t))` with the words `heap` in its pages: the block it returns is in a page
    of the heap. -/
def AllocatesRegion (boot : BootInfo) (fuel pages : Nat) (heap : Set (BitVec 64))
    (heapAlloc : Vmm → Option (BitVec 64 × Vmm)) : Prop :=
  ∀ {s s' block}, heapAlloc s = some (block, s') → block ≠ 0#64 →
    ∃ heap', HeapRun boot fuel pages heap s heap' s' ∧
      ∀ i, i < regionWords → vmmEntryAt block (BitVec.ofNat 64 i) ∈ heap'

/-! ## `region_copy` -/

/-- `REGION_TYPE_CODE` to `REGION_TYPE_STACK`. -/
def RegionType.number : RegionType → BitVec 64
  | .code => 1
  | .rdonly => 2
  | .data => 3
  | .heap => 4
  | .stack => 5

/-- `VMM_VMA_KERNEL` and `VMM_VMA_USER`. -/
def Region.vma (mem : Region) : BitVec 64 := if mem.user then 2 else 1

/-- The object at `copy` has the words of `row`. -/
def Vmm.Holds (s : Vmm) (copy : BitVec 64) (row : Nat → BitVec 64) : Prop :=
  ∀ i, i < regionWords → s.read (vmmEntryAt copy (BitVec.ofNat 64 i)) = some (row i)

/-- The words of a `region_t`; `type` and `vma` are the first two bytes. -/
def Region.words (mem : Region) : List (BitVec 64) :=
  [mem.type.number ||| mem.vma <<< 8, BitVec.ofNat 64 mem.vaddr, BitVec.ofNat 64 mem.paddr,
    BitVec.ofNat 64 mem.num, 0#64]

/-- There is a `region_t` at `copy`. -/
def Vmm.RegionAt (s : Vmm) (copy : BitVec 64) (mem : Region) : Prop :=
  s.Holds copy fun i => mem.words.getD i 0#64

/-- The part of `region_copy` that fills the pages at `vaddr` and the object at `copy`. -/
def Vmm.regionFill (s : Vmm) (vaddr copy : BitVec 64) (mem : Region) : Option Vmm := do
  let s ← s.memcpy vaddr (BitVec.ofNat 64 mem.vaddr) (BitVec.ofNat 64 (mem.num * pageSize))
  let s ← s.bzero copy regionWords
  let s ← s.write (vmmEntryAt copy 0#64) mem.type.number
  let s ← s.write (vmmEntryAt copy 1#64) (BitVec.ofNat 64 mem.vaddr)
  let s ← s.write (vmmEntryAt copy 0#64) (mem.type.number ||| mem.vma <<< 8)
  let paddr ← vmmResolve s vaddr
  let s ← s.write (vmmEntryAt copy 2#64) paddr
  s.write (vmmEntryAt copy 3#64) (BitVec.ofNat 64 mem.num)

/-- `region_copy` with the object of the copy in memory: its address, or 0 for `NULL`. -/
def Vmm.regionCopyTo (boot : BootInfo) (fuel : Nat) (heapAlloc : Vmm → Option (BitVec 64 × Vmm))
    (s : Vmm) (mem : Region) : Option (BitVec 64 × Vmm) := do
  let (vaddr, s) ← vmmMap boot s fuel mem.num 0 0#32
  if vaddr = 0#64 then some (0, s)
  else
    let (copy, s) ← heapAlloc s
    if copy = 0#64 then
      let (_, s) ← vmmUnmap s vaddr vmmAttrSave mem.num
      some (0, s)
    else
      let s ← s.regionFill vaddr copy mem
      let (_, s) ← vmmUnmap s vaddr vmmAttrSave mem.num
      some (copy, s)

/-! ## Addresses -/

theorem hwWalk_level {mem : PhysMem} {a entry : BitVec 64} {level l : Nat} {table : Frame}
    (found : (hwWalk mem a level table).2 = some (l, entry)) : 0 < l ∧ l ≤ level := by
  induction level generalizing table with
  | zero => cases found
  | succ level ih =>
      simp only [hwWalk] at found
      split at found
      · cases found
      · split at found
        · cases found
          exact ⟨Nat.succ_pos level, Nat.le_refl _⟩
        · obtain ⟨pos, le⟩ := ih found
          exact ⟨pos, by omega⟩

/-- A word stays at its place in the frame. -/
theorem hwWord_translate {mem : PhysMem} {cr3 : Frame} {a paddr : BitVec 64}
    (found : hwTranslate mem cr3 a = some paddr) : hwWord paddr = hwWord a := by
  rw [hwTranslate] at found
  split at found
  · obtain ⟨⟨level, entry⟩, walk, rfl⟩ := Option.map_eq_some_iff.mp found
    obtain ⟨pos, le⟩ := hwWalk_level walk
    exact hwWord_hwPage le pos entry a
  · cases found

theorem hwWord_vmmEntryAt (a : BitVec 64) {i : Nat} (lt : i < 512) :
    (hwWord (vmmEntryAt a (BitVec.ofNat 64 i))).toNat = ((hwWord a).toNat + i) % 512 := by
  have below := a.isLt
  rw [hwWord_toNat, hwWord_toNat, vmmEntryAt, BitVec.toNat_add, BitVec.toNat_mul, BitVec.toNat_ofNat,
    BitVec.toNat_ofNat]
  omega

/-- The words of an object are at different places in their frames. -/
theorem hwWord_vmmEntryAt_inj (a : BitVec 64) {i j : Nat} (lt : i < 512) (lt' : j < 512)
    (same : hwWord (vmmEntryAt a (BitVec.ofNat 64 i)) = hwWord (vmmEntryAt a (BitVec.ofNat 64 j))) :
    i = j := by
  have value := congrArg BitVec.toNat same
  rw [hwWord_vmmEntryAt a lt, hwWord_vmmEntryAt a lt'] at value
  have below := (hwWord a).isLt
  omega

theorem ptPath_page {page : BitVec 64} (aligned : 4096 ∣ page.toNat) (i : Index) :
    ptPath (vmmEntryAt page (i.setWidth 64)) = ptPath page := by
  simp only [ptPath, hwIndex_page aligned i (by decide : 0 < 4) (by decide),
    hwIndex_page aligned i (by decide : 0 < 3) (by decide),
    hwIndex_page aligned i (by decide : 0 < 2) (by decide)]

/-- The words of consecutive pages. -/
theorem vmmEntryAt_page (a : BitVec 64) (w : Nat) : vmmEntryAt a (BitVec.ofNat 64 w) =
    vmmEntryAt (pageAfter a (w / 512)) ((BitVec.ofNat 9 w).setWidth 64) := by
  apply BitVec.eq_of_toNat_eq
  simp only [vmmEntryAt, pageAfter, BitVec.toNat_add, BitVec.toNat_mul, BitVec.toNat_ofNat,
    BitVec.toNat_setWidth]
  omega

/-! ## Room for pages -/

/-- The pages from `VMM_VMA_KERNEL_START` to the window. -/
def kernelPages : Nat := 0x7f0000000

theorem kernelPages_inVma : InVma 0#32 vmmVmaKernelStart kernelPages := by
  rw [InVma, if_neg (by decide)]
  decide

theorem toNat_kernelPage {k : Nat} (lt : k < kernelPages) :
    (pageAfter vmmVmaKernelStart k).toNat = 0xffff800000000000 + k * 4096 :=
  kernelPages_inVma.toNat_pageAfter lt

/-- There are `n` pages in a row in the kernel's VMA that can be mapped and are not. -/
def KernelRoom (b : MapBase boot) (pages : Pages) (n : Nat) : Prop :=
  ∃ k, k + n ≤ kernelPages ∧ ∀ j, j < n → Open b (pageAfter vmmVmaKernelStart (k + j)) ∧
    pages (ptPath (pageAfter vmmVmaKernelStart (k + j)))
      (hwIndex (pageAfter vmmVmaKernelStart (k + j)) 1) = none

theorem vmmMap_finds {s s' : Vmm} {num align : Nat} {attr : BitVec 32} {vaddr : BitVec 64}
    (done : vmmMap boot s fuel num align attr = some (vaddr, s')) (not_null : vaddr ≠ 0#64) :
    vmmFindContiguous s fuel num align attr = some vaddr := by
  obtain ⟨found, find, done⟩ := Option.bind_eq_some_iff.mp done
  split at done
  · cases done
    exact absurd rfl not_null
  rw [vmmMapToVaddrInternal] at done
  dsimp only at done
  split at done
  · cases done
    exact absurd rfl not_null
  · obtain ⟨s₁, -, same⟩ := Option.map_eq_some_iff.mp done
    cases same
    exact find

section

variable {b : MapBase boot} {s s' : Vmm} {grafts : Grafts} {pages : Pages} {data : Nat → Prop}
  {num n : Nat} {vaddr : BitVec 64}

/-- The first fit is not behind the room there is. -/
theorem Mapped.finds_room (mapped : Mapped b s grafts pages data) (room : KernelRoom b pages (num + n))
    (some_page : 0 < num) (find : vmmFindContiguous s fuel num 0 0#32 = some vaddr)
    (not_null : vaddr ≠ 0#64) : InVma 0#32 vaddr num ∧ 4096 ∣ vaddr.toNat ∧
      ∀ {pages' value}, Overlay value vaddr pages pages' 0 num → KernelRoom b pages' n := by
  obtain ⟨k, inside, free⟩ := room
  obtain ⟨q, rfl, -, least⟩ := vmmFindContiguous_first find some_page not_null
  rw [vmmFindStart, if_neg (by decide)] at *
  have le : q ≤ k := by
    refine least k ⟨.inl rfl, fun j lt => ?_⟩
    rw [pageAfter_add]
    exact mapped.unmapped_of_open (free j (by omega)).1 (free j (by omega)).2
  have start := @toNat_kernelPage q (by omega)
  have small : kernelPages * 4096 = 0x7f0000000000 := by decide
  refine ⟨?_, ?_, fun {pages' value} overlay => ⟨k + num, by omega, fun j lt => ?_⟩⟩
  · rw [InVma, if_neg (by decide), start]
    omega
  · rw [start]
    omega
  · have behind : k + num + j = k + (num + j) := Nat.add_assoc ..
    rw [behind]
    refine ⟨(free (num + j) (by omega)).1, ?_⟩
    rw [overlay.off fun i _ before path index => ?_]
    · exact (free (num + j) (by omega)).2
    · rw [pageAfter_add] at path index
      have same := kernelPages_inVma.slot_inj (by omega) (by omega) path index
      omega

end

/-! ## The states of a copy -/

/-- A frame that holds no table, and that the PMM does not hand out. -/
def MapBase.Plain (b : MapBase boot) (f : Frame) : Prop :=
  (∀ path, b.tables path ≠ some f) ∧ ∀ k, b.pmm.Available boot k → b.pmm.frameOf k ≠ f

theorem MapBase.Plain.no_table {b : MapBase boot} {mem : PhysMem} {grafts : Grafts} {pages : Pages}
    {f : Frame} (plain : b.Plain f) (grafted : Grafted b mem grafts pages) (path : List Index) :
    b.all grafts path ≠ some f := by
  intro at_path
  obtain old | ⟨-, k, here, rfl⟩ := Grafted.all_cases at_path
  · exact plain.1 path old
  · exact plain.2 k (grafted.graft here).2.1 rfl

/-- The beginning with the words of the heap, and the pages from `vaddr` on for the frames from `first`
    on: those of the copy. -/
structure CopyBase (boot : BootInfo) extends MapBase boot where
  heap : Set (BitVec 64)
  vaddr : BitVec 64
  num : Nat
  first : Nat
  heap_plain : ∀ {a}, a ∈ heap → ∃ paddr, hwTranslate mem cr3 a = some paddr ∧
    toMapBase.Plain (hwFrame paddr)
  kernel : vmmAttrToFlags 0#32 true = flags
  range : InVma 0#32 vaddr num
  aligned : 4096 ∣ vaddr.toNat
  free : ∀ j, j < num → Open toMapBase (pageAfter vaddr j)
  available : ∀ k, first ≤ k → k < first + num → pmm.Available boot k

namespace CopyBase

/-- The pages of the PMM that are for the copy. -/
def Data (c : CopyBase boot) (k : Nat) : Prop := c.first ≤ k ∧ k < c.first + c.num

/-- The entries of the pages of the copy. -/
def entry (c : CopyBase boot) (j : Nat) : BitVec 64 :=
  BitVec.ofNat 64 (c.pmm.pageAt (c.first + j)) ||| vmmAttrToFlags 0#32 false

/-- The physical address of a word of the heap: in a page from the beginning or a new one. -/
def HeapAt (c : CopyBase boot) (pages : Pages) (own : Nat → Prop) (a paddr : BitVec 64) : Prop :=
  (a ∈ c.heap ∧ hwTranslate c.mem c.cr3 a = some paddr) ∨
    ∃ k entry, own k ∧ pages (ptPath a) (hwIndex a 1) = some entry ∧ hwFrame entry = c.pmm.frameOf k ∧
      canonical a = true ∧ paddr = hwPage 1 entry a

/-- A word in a plain frame that is not the heap's. -/
def Untouched (c : CopyBase boot) (f : Frame) (i : Index) : Prop :=
  c.Plain f ∧ ∀ {a paddr}, a ∈ c.heap → hwTranslate c.mem c.cr3 a = some paddr → hwFrame paddr = f →
    hwWord paddr ≠ i

end CopyBase

/-- A state between mapping the pages of the copy and unmapping them. The heap has the pages `own` of the
    PMM besides. -/
structure Copying (c : CopyBase boot) (s : Vmm) (grafts : Grafts) (pages : Pages) (own : Nat → Prop)
    (heap : Set (BitVec 64)) : Prop where
  mapped : Mapped c.toMapBase s grafts pages fun k => own k ∨ c.Data k
  tight : Tight grafts pages
  apart : ∀ {k}, own k → ¬c.Data k
  heap : ∀ {a}, a ∈ heap → ∃ paddr, c.HeapAt pages own a paddr
  kept : ∀ {f i}, c.Untouched f i → s.mem f i = c.mem f i

/-- The pages of the copy are mapped. -/
def CopyBase.Temporary (c : CopyBase boot) (pages : Pages) : Prop :=
  ∀ j, j < c.num →
    pages (ptPath (pageAfter c.vaddr j)) (hwIndex (pageAfter c.vaddr j) 1) = some (c.entry j)

namespace Copying

variable {c : CopyBase boot} {s s' : Vmm} {grafts : Grafts} {pages : Pages} {own : Nat → Prop}
  {heap : Set (BitVec 64)} {a paddr : BitVec 64}

/-- A frame of the PMM with data is no table. -/
theorem data_no_table (copying : Copying c s grafts pages own heap) {k : Nat} (data : own k ∨ c.Data k)
    (path : List Index) : c.all grafts path ≠ some (c.pmm.frameOf k) := by
  have available := copying.mapped.pmm.data_available k data
  intro at_path
  obtain old | ⟨-, k', here, same⟩ := Grafted.all_cases at_path
  · exact c.unused available path old
  · obtain ⟨available', apart⟩ := copying.mapped.pmm.graft here
    exact apart (c.frameOf_inj available.1 available'.1 same ▸ data)

/-- Where a word of the heap is. -/
theorem heap_spec (copying : Copying c s grafts pages own heap) (here : c.HeapAt pages own a paddr) :
    hwTranslate s.mem s.cr3 a = some paddr ∧ (∀ path, c.all grafts path ≠ some (hwFrame paddr)) ∧
      (∀ k, c.Data k → c.pmm.frameOf k ≠ hwFrame paddr) ∧
      ¬c.Untouched (hwFrame paddr) (hwWord paddr) := by
  obtain ⟨inside, found⟩ | ⟨k, entry, mine, page, frame, canon, rfl⟩ := here
  · obtain ⟨paddr', found', plain⟩ := c.heap_plain inside
    cases found.symm.trans found'
    exact ⟨copying.mapped.translate_old found, plain.no_table copying.mapped.mem,
      fun k data => plain.2 k (copying.mapped.pmm.data_available k (.inr data)),
      fun untouched => untouched.2 inside found rfl rfl⟩
  · have available := copying.mapped.pmm.data_available k (.inl mine)
    rw [hwFrame_hwPage, frame]
    refine ⟨copying.mapped.translate_page page canon, copying.data_no_table (.inl mine),
      fun k' data same => ?_, fun untouched => untouched.1.2 k available rfl⟩
    have available' := copying.mapped.pmm.data_available k' (.inr data)
    exact copying.apart mine (c.frameOf_inj available'.1 available.1 same ▸ data)

/-- Writing a word that is neither in a table nor untouched. -/
theorem set (copying : Copying c s grafts pages own heap) {f : Frame} {i : Index} (value : BitVec 64)
    (noTable : ∀ path, c.all grafts path ≠ some f) (touched : ¬c.Untouched f i) :
    Copying c { s with mem := s.mem.set f i value } grafts pages own heap where
  mapped := copying.mapped.congr fun {path t} at_path =>
    PhysMem.set_frame _ _ fun eq => noTable path (eq ▸ at_path)
  tight := copying.tight
  apart := copying.apart
  heap := copying.heap
  kept {f' i'} untouched := by
    rw [← copying.kept untouched]
    refine PhysMem.set_slot _ _ fun frame index => touched ?_
    rwa [← frame, ← index]

/-- The heap writes one of its words. -/
theorem writeHeap (copying : Copying c s grafts pages own heap) (inside : a ∈ heap) {value : BitVec 64}
    (done : s.write a value = some s') : Copying c s' grafts pages own heap ∧
      ∃ paddr, c.HeapAt pages own a paddr ∧
        s' = { s with mem := s.mem.set (hwFrame paddr) (hwWord paddr) value } := by
  obtain ⟨paddr, here⟩ := copying.heap inside
  obtain ⟨found, noTable, -, touched⟩ := copying.heap_spec here
  rw [Vmm.write, hwWrite, found] at done
  cases done
  exact ⟨copying.set value noTable touched, paddr, here, rfl⟩

/-- The heap maps a page. -/
theorem extend (copying : Copying c s grafts pages own heap) (temporary : c.Temporary pages) {n : Nat}
    (room : KernelRoom c.toMapBase pages (1 + n)) {page : BitVec 64}
    (map : vmmMap boot s fuel 1 0 0#32 = some (page, s')) (found : page ≠ 0#64)
    (ok : s'.pmm.failed = s.pmm.failed) : ∃ grafts' pages' own',
      Copying c s' grafts' pages' own' (heap ∪ pageWords page) ∧ c.Temporary pages' ∧
      KernelRoom c.toMapBase pages' n := by
  obtain ⟨range, aligned, left⟩ :=
    copying.mapped.finds_room room (by decide) (vmmMap_finds map found) found
  obtain ⟨free, k, grafts', pages', new, mapped, tight, overlay, out⟩ :=
    copying.mapped.vmmMap copying.tight c.kernel (by decide) map range ok
  have fresh := new k (Nat.le_refl k) (Nat.lt_succ_self k)
  have vacant := (free 0 (by decide)).2
  have here := overlay.on 0 (Nat.le_refl 0) (by decide)
  rw [pageAfter_zero] at vacant here
  have same {path : List Index} {i : Index} {entry : BitVec 64} (mine : pages path i = some entry) :
      pages' path i = some entry := by
    rw [overlay.off fun j _ lt path' index => ?_]
    · exact mine
    · obtain rfl : j = 0 := by omega
      rw [pageAfter_zero] at path' index
      rw [path', index, vacant] at mine
      cases mine
  have data : (fun k' => (own k' ∨ c.Data k') ∨ k ≤ k' ∧ k' < k + 1) =
      fun k' => (own k' ∨ k' = k) ∨ c.Data k' := by
    funext k'
    have only : (k ≤ k' ∧ k' < k + 1) = (k' = k) := by
      rw [eq_iff_iff]
      omega
    rw [only, or_right_comm]
  rw [data] at mapped
  refine ⟨grafts', pages', fun k' => own k' ∨ k' = k, ⟨mapped, tight, fun {k'} mine => ?_,
    fun {a} word => ?_, fun {f i} untouched => ?_⟩, fun j lt => same (temporary j lt), left overlay⟩
  · obtain mine | rfl := mine
    · exact copying.apart mine
    · exact fun data => fresh.2 (.inr data)
  · obtain old | ⟨i, rfl⟩ := word
    · obtain ⟨paddr, old | ⟨k', entry, mine, page', rest⟩⟩ := copying.heap old
      · exact ⟨paddr, .inl old⟩
      · exact ⟨paddr, .inr ⟨k', entry, .inl mine, same page', rest⟩⟩
    · have high : 0xffff800000000000 ≤ page.toNat := by
        rw [InVma, if_neg (by decide)] at range
        exact range.1
      rw [← ptPath_page aligned i, ← hwIndex_page aligned i (by decide : 0 < 1) (by decide)] at here
      exact ⟨_, .inr ⟨k, _, .inr rfl, here, hwFrame_page (vmmAttrToFlags_page 0#32).1,
        canonical_page aligned i high, rfl⟩⟩
  · rw [← copying.kept untouched, out.mem fun path => untouched.1.no_table mapped.mem path]

end Copying

theorem HeapRun.failed_le {n : Nat} {heap heap' : Set (BitVec 64)} {s s' : Vmm}
    (run : HeapRun boot fuel n heap s heap' s') : s.pmm.failed ≤ s'.pmm.failed := by
  induction run with
  | done => exact Nat.le_refl _
  | extend map found rest ih => exact Nat.le_trans (vmmMap_failed_le map) ih
  | write inside write rest ih => rwa [Vmm.write_pmm write] at ih

/-- What a call of the heap leaves. -/
theorem Copying.run {c : CopyBase boot} {n : Nat} {heap heap' : Set (BitVec 64)} {s s' : Vmm}
    (run : HeapRun boot fuel n heap s heap' s') {grafts : Grafts} {pages : Pages} {own : Nat → Prop}
    (copying : Copying c s grafts pages own heap) (temporary : c.Temporary pages)
    (room : KernelRoom c.toMapBase pages n) (ok : s'.pmm.failed = s.pmm.failed) :
    ∃ grafts' pages' own', Copying c s' grafts' pages' own' heap' ∧ c.Temporary pages' := by
  induction run generalizing grafts pages own with
  | done => exact ⟨grafts, pages, own, copying, temporary⟩
  | extend map found rest ih =>
      have le := vmmMap_failed_le map
      have le' := rest.failed_le
      rw [Nat.add_comm] at room
      obtain ⟨grafts₁, pages₁, own₁, copying₁, temporary₁, room₁⟩ :=
        copying.extend temporary room map found (by omega)
      exact ih copying₁ temporary₁ room₁ (by omega)
  | write inside write rest ih =>
      rw [← Vmm.write_pmm write] at ok
      exact ih (copying.writeHeap inside write).1 temporary room ok

/-! ## The contents -/

/-- A word of the frames of the copy. -/
def CopyBase.word (c : CopyBase boot) (mem : PhysMem) (w : Nat) : BitVec 64 :=
  mem (c.pmm.frameOf (c.first + w / 512)) (BitVec.ofNat 9 w)

theorem CopyBase.data_word {c : CopyBase boot} {w : Nat} (lt : w < c.num * 512) :
    c.Data (c.first + w / 512) := by
  have page : w / 512 < c.num := Nat.div_lt_of_lt_mul (by omega)
  exact ⟨Nat.le_add_right .., Nat.add_lt_add_left page _⟩

theorem CopyBase.num_lt (c : CopyBase boot) (some_page : 0 < c.num) : c.num * 4096 < 2 ^ 47 := by
  have low := c.low
  have start := c.start.1
  have last := (c.available (c.first + (c.num - 1)) (by omega) (by omega)).1
  rw [pageSize] at low
  omega

/-- The object at `copy` has the words of `row`, and the frames of the copy those of `words`. -/
structure CopyBase.Filled (c : CopyBase boot) (s : Vmm) (copy : BitVec 64) (row words : Nat → BitVec 64) :
    Prop where
  object : s.Holds copy row
  words : ∀ w, w < c.num * 512 → c.word s.mem w = words w

theorem CopyBase.Filled.congr {c : CopyBase boot} {s : Vmm} {copy : BitVec 64}
    {row row' words : Nat → BitVec 64} (filled : c.Filled s copy row words)
    (same : ∀ i, i < regionWords → row i = row' i) : c.Filled s copy row' words :=
  ⟨fun i lt => by rw [filled.object i lt, same i lt], filled.words⟩

theorem CopyBase.word_set {c : CopyBase boot} {v w : Nat} (lt : v < c.num * 512) (lt' : w < c.num * 512)
    (off : v ≠ w) (mem : PhysMem) (value : BitVec 64) :
    c.word (mem.set (c.pmm.frameOf (c.first + w / 512)) (BitVec.ofNat 9 w) value) v = c.word mem v := by
  refine PhysMem.set_slot _ _ fun frame index => ?_
  have data := c.data_word lt
  have data' := c.data_word lt'
  have page := c.frameOf_inj (c.available _ data.1 data.2).1 (c.available _ data'.1 data'.2).1 frame
  have value := congrArg BitVec.toNat index
  rw [BitVec.toNat_ofNat, BitVec.toNat_ofNat] at value
  omega

namespace Copying

variable {c : CopyBase boot} {s : Vmm} {grafts : Grafts} {pages : Pages} {own : Nat → Prop}
  {heap : Set (BitVec 64)}

/-- Where the pages of the copy lead. -/
theorem translate_temporary (copying : Copying c s grafts pages own heap) (temporary : c.Temporary pages)
    {w : Nat} (lt : w < c.num * 512) :
    ∃ paddr, hwTranslate s.mem s.cr3 (vmmEntryAt c.vaddr (BitVec.ofNat 64 w)) = some paddr ∧
      hwFrame paddr = c.pmm.frameOf (c.first + w / 512) ∧ hwWord paddr = BitVec.ofNat 9 w := by
  have page : w / 512 < c.num := Nat.div_lt_of_lt_mul (by omega)
  have range := c.range
  have value := range.toNat_pageAfter page
  rw [InVma, if_neg (by decide)] at range
  have aligned : 4096 ∣ (pageAfter c.vaddr (w / 512)).toNat := by
    obtain ⟨q, eq⟩ := c.aligned
    rw [value, eq]
    exact ⟨q + w / 512, by omega⟩
  have here := temporary (w / 512) page
  rw [vmmEntryAt_page]
  generalize BitVec.ofNat 9 w = i at *
  rw [← ptPath_page aligned i, ← hwIndex_page aligned i (by decide : 0 < 1) (by decide)] at here
  refine ⟨_, copying.mapped.translate_page here (canonical_page aligned i (by omega)), ?_, ?_⟩
  · rw [hwFrame_hwPage]
    exact hwFrame_page (vmmAttrToFlags_page 0#32).1
  · rw [hwWord_hwPage (by decide) (by decide), hwWord_page aligned i]

/-- The copy through the pages that are mapped for it. -/
theorem memcpyLoop (copying : Copying c s grafts pages own heap) (temporary : c.Temporary pages)
    {src : BitVec 64} (source : ∀ w, w < c.num * 512 →
      ∃ paddr, hwTranslate c.mem c.cr3 (vmmEntryAt src (BitVec.ofNat 64 w)) = some paddr ∧
        ∀ k, c.Data k → c.pmm.frameOf k ≠ hwFrame paddr) {w n : Nat} (left : w + n = c.num * 512) :
    ∃ mem, s.memcpyLoop (vmmEntryAt c.vaddr (BitVec.ofNat 64 w)) (vmmEntryAt src (BitVec.ofNat 64 w)) n =
        some { s with mem := mem } ∧
      Copying c { s with mem := mem } grafts pages own heap ∧
      (∀ v, v < w → c.word mem v = c.word s.mem v) ∧
      ∀ v, w ≤ v → v < c.num * 512 →
        s.read (vmmEntryAt src (BitVec.ofNat 64 v)) = some (c.word mem v) := by
  induction n generalizing s w with
  | zero => exact ⟨s.mem, rfl, copying, fun _ _ => rfl, fun v ge lt => by omega⟩
  | succ n ih =>
      have here : w < c.num * 512 := by omega
      have data := c.data_word here
      obtain ⟨to_word, place, frame, index⟩ := copying.translate_temporary temporary here
      obtain ⟨from_word, found, -⟩ := source w here
      have read {s' : Vmm} {paddr : BitVec 64} {v : Nat} (copying' : Copying c s' grafts pages own heap)
          (found : hwTranslate c.mem c.cr3 (vmmEntryAt src (BitVec.ofNat 64 v)) = some paddr) :
          s'.read (vmmEntryAt src (BitVec.ofNat 64 v)) =
            some (s'.mem (hwFrame paddr) (hwWord paddr)) := by
        rw [Vmm.read, hwRead, copying'.mapped.translate_old found]
        rfl
      have touched : ¬c.Untouched (c.pmm.frameOf (c.first + w / 512)) (BitVec.ofNat 9 w) :=
        fun untouched => untouched.1.2 _ (c.available _ data.1 data.2) rfl
      have copying₁ := copying.set (s.mem (hwFrame from_word) (hwWord from_word))
        (copying.data_no_table (.inr data)) touched
      have left' : w + 1 + n = c.num * 512 := by omega
      obtain ⟨mem, rest, copying₂, before, behind⟩ := ih copying₁ left'
      refine ⟨mem, ?_, copying₂, fun v lt => ?_, fun v ge lt => ?_⟩
      · rw [Vmm.memcpyLoop, read copying found, Option.bind_eq_bind, Option.bind_some, Vmm.write, hwWrite,
          place, Option.map_some, Option.map_some, Option.bind_eq_bind, Option.bind_some, vmmEntryAt_succ,
          vmmEntryAt_succ, frame, index]
        exact rest
      · rw [before v (by omega)]
        exact c.word_set (by omega) here (by omega) _ _
      · by_cases last : v = w
        · rw [last, read copying found, before w (by omega)]
          exact congrArg some (PhysMem.set_same ..).symm
        · obtain ⟨paddr, found', apart⟩ := source v lt
          have unchanged := behind v (by omega) lt
          rw [read copying₁ found'] at unchanged
          rw [read copying found', ← unchanged]
          exact congrArg some (congrFun (PhysMem.set_frame _ _ (apart _ data).symm) _).symm

/-- `memcpy` copies all words of the region. -/
theorem memcpy (copying : Copying c s grafts pages own heap) (temporary : c.Temporary pages)
    (some_page : 0 < c.num) {src : BitVec 64} (not_null : src ≠ 0#64)
    (source : ∀ w, w < c.num * 512 →
      ∃ paddr, hwTranslate c.mem c.cr3 (vmmEntryAt src (BitVec.ofNat 64 w)) = some paddr ∧
        ∀ k, c.Data k → c.pmm.frameOf k ≠ hwFrame paddr) :
    ∃ mem, s.memcpy c.vaddr src (BitVec.ofNat 64 (c.num * pageSize)) = some { s with mem := mem } ∧
      Copying c { s with mem := mem } grafts pages own heap ∧
      ∀ v, v < c.num * 512 → s.read (vmmEntryAt src (BitVec.ofNat 64 v)) = some (c.word mem v) := by
  have small := c.num_lt some_page
  have range := c.range.bounds.1
  have left : 0 + c.num * 512 = c.num * 512 := Nat.zero_add _
  obtain ⟨mem, run, copying', -, copied⟩ := copying.memcpyLoop temporary source left
  refine ⟨mem, ?_, copying', fun v lt => copied v (Nat.zero_le v) lt⟩
  have size : (BitVec.ofNat 64 (c.num * pageSize)).toNat = c.num * 4096 := by
    rw [BitVec.toNat_ofNat, pageSize]
    omega
  have positive : ¬(BitVec.ofNat 64 (c.num * pageSize)).sle 0#64 = true := by
    have sign : 2 * (BitVec.ofNat 64 (c.num * pageSize)).toNat < 2 ^ 64 := by omega
    rw [BitVec.sle_iff_toInt_le, BitVec.toInt_eq_toNat_of_lt sign, size]
    simp only [BitVec.toInt_zero]
    omega
  have there : c.vaddr ≠ 0#64 := by
    intro null
    rw [null] at range
    exact absurd range (by decide)
  have words : (BitVec.ofNat 64 (c.num * pageSize)).toNat / 8 = c.num * 512 := by
    rw [size]
    omega
  rw [Vmm.memcpy, if_neg (not_or.mpr ⟨there, not_or.mpr ⟨not_null, positive⟩⟩), words]
  simpa only [vmmEntryAt, BitVec.ofNat_eq_ofNat, BitVec.mul_zero, BitVec.add_zero] using run

/-- Writing a word of an object of the heap. -/
theorem writeWord (copying : Copying c s grafts pages own heap) {copy : BitVec 64}
    (inside : ∀ i, i < regionWords → vmmEntryAt copy (BitVec.ofNat 64 i) ∈ heap)
    {row words : Nat → BitVec 64} (filled : c.Filled s copy row words) {j : Nat} (lt : j < regionWords)
    (value : BitVec 64) : ∃ s', s.write (vmmEntryAt copy (BitVec.ofNat 64 j)) value = some s' ∧
      Copying c s' grafts pages own heap ∧ c.Filled s' copy (Function.update row j value) words := by
  have few : regionWords = 5 := rfl
  obtain ⟨paddr, here⟩ := copying.heap (inside j lt)
  obtain ⟨found, noTable, apart, touched⟩ := copying.heap_spec here
  have copying' := copying.set value noTable touched
  refine ⟨_, ?_, copying', fun i lt' => ?_, fun w below => ?_⟩
  · rw [Vmm.write, hwWrite, found]
    rfl
  · obtain ⟨paddr', here'⟩ := copying.heap (inside i lt')
    have found' := (copying'.heap_spec here').1
    rw [Vmm.read, hwRead, found', Option.map_some]
    by_cases same : i = j
    · subst same
      cases (copying'.heap_spec here).1.symm.trans found'
      rw [Function.update_self]
      exact congrArg some (PhysMem.set_same ..)
    · have old := filled.object i lt'
      rw [Vmm.read, hwRead, (copying.heap_spec here').1, Option.map_some] at old
      rw [Function.update_of_ne same, ← old]
      refine congrArg some (PhysMem.set_slot _ _ fun _ index => ?_)
      rw [hwWord_translate found, hwWord_translate found'] at index
      exact same (hwWord_vmmEntryAt_inj copy (by omega) (by omega) index)
  · rw [← filled.words w below]
    exact congrFun (PhysMem.set_frame _ _ (apart _ (c.data_word below))) _

/-- `bzero` of the first words of an object of the heap. -/
theorem bzero (copying : Copying c s grafts pages own heap) {copy : BitVec 64}
    (inside : ∀ i, i < regionWords → vmmEntryAt copy (BitVec.ofNat 64 i) ∈ heap)
    {row words : Nat → BitVec 64} (filled : c.Filled s copy row words) {n : Nat} (le : n ≤ regionWords) :
    ∃ s', s.bzero copy n = some s' ∧ Copying c s' grafts pages own heap ∧
      c.Filled s' copy (fun i => if i < n then 0#64 else row i) words := by
  induction n generalizing s row with
  | zero => exact ⟨s, rfl, copying, filled⟩
  | succ n ih =>
      obtain ⟨s₁, write, copying₁, filled₁⟩ := copying.writeWord inside filled le 0#64
      obtain ⟨s', rest, copying', filled'⟩ := ih copying₁ filled₁ (Nat.le_of_succ_le le)
      refine ⟨s', ?_, copying', filled'.congr fun i _ => ?_⟩
      · rw [Vmm.bzero, write, Option.bind_eq_bind, Option.bind_some, rest]
      · by_cases last : i = n
        · simp [last]
        · have bound : i < n + 1 ↔ i < n := by omega
          simp only [bound, Function.update_of_ne last]

/-- `vmm_resolve` of the pages of the copy is their first frame. -/
theorem resolve (copying : Copying c s grafts pages own heap) (temporary : c.Temporary pages)
    (some_page : 0 < c.num) : vmmResolve s c.vaddr = some (BitVec.ofNat 64 (c.pmm.pageAt c.first)) := by
  have page := temporary 0 some_page
  rw [pageAfter_zero] at page
  obtain ⟨found, read⟩ := copying.mapped.entryFromVaddr page
  obtain ⟨-, -, aligned, low⟩ := c.page_spec (c.available c.first (Nat.le_refl _) (by omega)).1
  have small : c.entry 0 &&& pteFlagPS = 0#64 := by
    rw [pteFlagPS_unset_iff, hwLarge, CopyBase.entry, BitVec.getLsbD_or, Nat.add_zero,
      getLsbD_aligned aligned (by decide)]
    decide
  have offset : c.vaddr &&& 0xfff#64 = 0#64 := by
    have inside := c.aligned
    apply BitVec.eq_of_toNat_eq
    rw [BitVec.toNat_and, show (0xfff#64).toNat = 2 ^ 12 - 1 from rfl, Nat.and_two_pow_sub_one_eq_mod]
    exact Nat.mod_eq_zero_of_dvd inside
  rw [vmmResolve, found, Option.bind_eq_bind, Option.bind_some]
  dsimp only
  rw [read, Option.bind_eq_bind, Option.bind_some, vmmResolveEntry, if_neg (not_not.mpr small), offset,
    BitVec.or_zero, CopyBase.entry, Nat.add_zero,
    vmmEntryToAddr_page aligned low (vmmAttrToFlags_page 0#32).1]

/-- The copy and its object are filled. -/
theorem regionFill (copying : Copying c s grafts pages own heap) (temporary : c.Temporary pages)
    (some_page : 0 < c.num) {copy : BitVec 64}
    (inside : ∀ i, i < regionWords → vmmEntryAt copy (BitVec.ofNat 64 i) ∈ heap) {mem : Region}
    (num : c.num = mem.num) (not_null : BitVec.ofNat 64 mem.vaddr ≠ 0#64)
    (source : ∀ w, w < c.num * 512 → ∃ paddr, hwTranslate c.mem c.cr3
      (vmmEntryAt (BitVec.ofNat 64 mem.vaddr) (BitVec.ofNat 64 w)) = some paddr ∧
        ∀ k, c.Data k → c.pmm.frameOf k ≠ hwFrame paddr) :
    ∃ s', s.regionFill c.vaddr copy mem = some s' ∧ Copying c s' grafts pages own heap ∧
      s'.RegionAt copy { mem with paddr := c.pmm.pageAt c.first } ∧
      ∀ w, w < c.num * 512 →
        s.read (vmmEntryAt (BitVec.ofNat 64 mem.vaddr) (BitVec.ofNat 64 w)) = some (c.word s'.mem w) := by
  have few : regionWords = 5 := rfl
  obtain ⟨words, copied, copying₁, contents⟩ := copying.memcpy temporary some_page not_null source
  have filled₁ : c.Filled { s with mem := words } copy
      (fun i => (Vmm.read { s with mem := words } (vmmEntryAt copy (BitVec.ofNat 64 i))).getD 0#64)
      (c.word words) := by
    refine ⟨fun i lt => ?_, fun _ _ => rfl⟩
    obtain ⟨paddr, here⟩ := copying₁.heap (inside i lt)
    rw [Vmm.read, hwRead, (copying₁.heap_spec here).1]
    rfl
  obtain ⟨s₂, zero, copying₂, filled₂⟩ := copying₁.bzero inside filled₁ (Nat.le_refl _)
  obtain ⟨s₃, type, copying₃, filled₃⟩ :=
    copying₂.writeWord inside filled₂ (by decide : 0 < regionWords) mem.type.number
  obtain ⟨s₄, vaddr, copying₄, filled₄⟩ :=
    copying₃.writeWord inside filled₃ (by decide : 1 < regionWords) (BitVec.ofNat 64 mem.vaddr)
  obtain ⟨s₅, vma, copying₅, filled₅⟩ :=
    copying₄.writeWord inside filled₄ (by decide : 0 < regionWords) (mem.type.number ||| mem.vma <<< 8)
  have resolve := copying₅.resolve temporary some_page
  obtain ⟨s₆, paddr, copying₆, filled₆⟩ :=
    copying₅.writeWord inside filled₅ (by decide : 2 < regionWords)
      (BitVec.ofNat 64 (c.pmm.pageAt c.first))
  obtain ⟨s₇, count, copying₇, filled₇⟩ :=
    copying₆.writeWord inside filled₆ (by decide : 3 < regionWords) (BitVec.ofNat 64 mem.num)
  refine ⟨s₇, ?_, copying₇, fun i lt => ?_, fun w lt => ?_⟩
  · rw [num] at copied
    simp only [Vmm.regionFill, copied, zero, type, vaddr, vma, resolve, paddr, count, Option.bind_eq_bind,
      Option.bind_some]
  · rw [filled₇.object i lt]
    obtain rfl | rfl | rfl | rfl | rfl : i = 0 ∨ i = 1 ∨ i = 2 ∨ i = 3 ∨ i = 4 := by omega
    all_goals rfl
  · rw [contents w lt, filled₇.words w lt]

/-- The pages of the copy are unmapped. The frames stay allocated, and the heap keeps its pages. -/
theorem unmap (copying : Copying c s grafts pages own heap) (temporary : c.Temporary pages) :
    ∃ s' grafts' pages', vmmUnmap s c.vaddr vmmAttrSave c.num = some (0, s') ∧
      Copying c s' grafts' pages' own heap ∧ (∀ {a}, a ∈ heap → s'.read a = s.read a) ∧
      ∀ w, w < c.num * 512 → c.word s'.mem w = c.word s.mem w := by
  obtain ⟨rest, overlay, unused⟩ := Overlay.exists_rest temporary
  obtain ⟨s', grafts', pages', done, mapped, tight, overlay', out⟩ :=
    copying.mapped.unmapSaved copying.tight c.range c.free (Nat.zero_add _) overlay unused
  rw [pageAfter_zero] at done
  have same (path : List Index) (i : Index) : pages' path i = rest path i :=
    overlay'.off fun j ge lt => absurd ge (Nat.not_le.mpr lt)
  have stays {a paddr : BitVec 64} (here : c.HeapAt pages own a paddr) : c.HeapAt pages' own a paddr := by
    obtain old | ⟨k, entry, mine, page, frame, canon, rfl⟩ := here
    · exact .inl old
    · refine .inr ⟨k, entry, mine, ?_, frame, canon, rfl⟩
      rw [same, ← overlay.off fun j _ lt path index => ?_]
      · exact page
      · -- the frame of a page of the copy is not the heap's
        rw [path, index, temporary j lt] at page
        cases page
        have data : c.Data (c.first + j) := ⟨Nat.le_add_right .., Nat.add_lt_add_left lt _⟩
        have available := copying.mapped.pmm.data_available k (.inl mine)
        have available' := c.available _ data.1 data.2
        rw [CopyBase.entry, hwFrame_page (vmmAttrToFlags_page 0#32).1] at frame
        exact copying.apart mine (c.frameOf_inj available'.1 available.1 frame ▸ data)
  have copying' : Copying c s' grafts' pages' own heap := by
    refine ⟨mapped, tight, copying.apart, fun word => ?_, fun {f i} untouched => ?_⟩
    · obtain ⟨paddr, here⟩ := copying.heap word
      exact ⟨paddr, stays here⟩
    · rw [← copying.kept untouched, out.mem fun path => untouched.1.no_table copying.mapped.mem path]
  refine ⟨s', grafts', pages', done, copying', fun {a} word => ?_, fun w lt => ?_⟩
  · obtain ⟨paddr, here⟩ := copying.heap word
    obtain ⟨found, noTable, -⟩ := copying.heap_spec here
    rw [Vmm.read, hwRead, (copying'.heap_spec (stays here)).1, Vmm.read, hwRead, found, Option.map_some,
      Option.map_some, out.mem noTable]
  · exact congrFun (out.mem (copying.data_no_table (.inr (c.data_word lt)))).symm _

/-- The frames of the copy were free, and are allocated. -/
theorem frames (copying : Copying c s grafts pages own heap) {j : Nat} (lt : j < c.num) :
    (∃ k, c.pmm.Available boot k ∧ c.pmm.pageAt k = c.pmm.pageAt c.first + j * pageSize) ∧
      pmmIsAllocated c.pmm (c.pmm.pageAt c.first + j * pageSize) = false ∧
      pmmIsAllocated s.pmm (c.pmm.pageAt c.first + j * pageSize) = true := by
  have data : c.Data (c.first + j) := ⟨Nat.le_add_right .., Nat.add_lt_add_left lt _⟩
  have available := c.available _ data.1 data.2
  have low := c.low
  have first := (c.page_spec (c.available c.first (Nat.le_refl _) (by omega)).1).1
  have page : c.pmm.pageAt (c.first + j) = c.pmm.pageAt c.first + j * pageSize := by
    rw [(c.page_spec available.1).1, first, Nat.add_mul, Nat.add_assoc]
  rw [← page]
  obtain ⟨ready, start, fits, -⟩ := copying.mapped.pmm.usable
  refine ⟨⟨_, available, rfl⟩, ?_, ?_⟩
  · rw [pageSize] at low
    rw [pmmIsAllocated_pageAt c.ready (by omega) (by omega) available.1]
    exact available.2.1
  · rw [← copying.mapped.pmm.pageAt, pmmIsAllocated_pageAt ready start fits]
    · exact (copying.mapped.pmm.bits _).mpr (.inr (.inl (.inr data)))
    · rw [copying.mapped.pmm.covered]
      exact available.1

end Copying

/-! ## The call -/

/-- The word at a physical address. -/
def PhysMem.wordAt (mem : PhysMem) (paddr : BitVec 64) : BitVec 64 := mem (hwFrame paddr) (hwWord paddr)

/-- The word at a physical address is in no page table and is no word of the heap. -/
def Aside (s : Vmm) (tables : Tables) (heap : Set (BitVec 64)) (paddr : BitVec 64) : Prop :=
  (∀ path, tables path ≠ some (hwFrame paddr)) ∧
    ∀ {a p}, a ∈ heap → hwTranslate s.mem s.cr3 a = some p → hwFrame p = hwFrame paddr →
      hwWord p ≠ hwWord paddr

/-- What `region_copy` relies on: the PMM has memory below `2 ^ 47` and hands out no frame that is mapped,
    the heap is mapped and is no page table, the pages of the region are mapped, and the kernel's VMA has
    room for the copy and for the pages of the heap. -/
structure CopyRequest (boot : BootInfo) (s : Vmm) (tables : Tables) (heap : Set (BitVec 64)) (pages : Nat)
    (mem : Region) : Prop extends MapReady boot s tables where
  low : s.pmm.regFree.start + s.pmm.covered * pageSize ≤ 2 ^ 47
  held : ∀ {a paddr}, hwTranslate s.mem s.cr3 a = some paddr →
    ∀ k, s.pmm.Available boot k → s.pmm.frameOf k ≠ hwFrame paddr
  heap : ∀ {a}, a ∈ heap → ∃ paddr, hwTranslate s.mem s.cr3 a = some paddr ∧
    ∀ path, tables path ≠ some (hwFrame paddr)
  some_page : 0 < mem.num
  not_null : BitVec.ofNat 64 mem.vaddr ≠ 0#64
  mapped : ∀ w, w < mem.num * 512 → ∃ paddr, hwTranslate s.mem s.cr3
    (vmmEntryAt (BitVec.ofNat 64 mem.vaddr) (BitVec.ofNat 64 w)) = some paddr
  room : ∃ k, k + (mem.num + pages) ≤ kernelPages ∧
    Vacant s (mem.num + pages) 0 (pageAfter vmmVmaKernelStart k)

/-- What `region_copy` returns, and what it leaves as it was. -/
structure RegionCopied (boot : BootInfo) (s s' : Vmm) (tables : Tables) (heap : Set (BitVec 64))
    (mem : Region) (copy : BitVec 64) (paddr : Nat) : Prop where
  object : s'.RegionAt copy { mem with paddr := paddr }
  frames : ∀ j, j < mem.num → (∃ k, s.pmm.Available boot k ∧ s.pmm.pageAt k = paddr + j * pageSize) ∧
    pmmIsAllocated s.pmm (paddr + j * pageSize) = false ∧
    pmmIsAllocated s'.pmm (paddr + j * pageSize) = true
  contents : ∀ {w p}, w < mem.num * 512 →
    hwTranslate s.mem s.cr3 (vmmEntryAt (BitVec.ofNat 64 mem.vaddr) (BitVec.ofNat 64 w)) = some p →
    Aside s tables heap p → s'.mem.wordAt (BitVec.ofNat 64 (paddr + 8 * w)) = s.mem.wordAt p
  mapped : ∀ {a p}, hwTranslate s.mem s.cr3 a = some p → vmmResolve s' a = vmmResolve s a ∧
    hwTranslate s'.mem s'.cr3 a = some p ∧ (Aside s tables heap p → s'.mem.wordAt p = s.mem.wordAt p)

theorem CopyBase.wordAt {c : CopyBase boot} {w : Nat} (lt : w < c.num * 512) (mem : PhysMem) :
    mem.wordAt (BitVec.ofNat 64 (c.pmm.pageAt c.first + 8 * w)) = c.word mem w := by
  have data := c.data_word lt
  obtain ⟨exact', -, ⟨q, aligned⟩, low⟩ := c.page_spec (c.available _ data.1 data.2).1
  obtain ⟨exact₀, -, ⟨q₀, aligned₀⟩, -⟩ :=
    c.page_spec (c.available c.first (Nat.le_refl _) (by have := data.2; omega)).1
  rw [pageSize] at exact' exact₀
  rw [PhysMem.wordAt, CopyBase.word]
  congr 1
  · apply BitVec.eq_of_toNat_eq
    rw [hwFrame, BitVec.extractLsb'_toNat, Pmm.frameOf, BitVec.toNat_ofNat, BitVec.toNat_ofNat,
      Nat.shiftRight_eq_div_pow]
    omega
  · apply BitVec.eq_of_toNat_eq
    rw [hwWord_toNat, BitVec.toNat_ofNat, BitVec.toNat_ofNat]
    omega

/-- The base of a call. -/
structure CopyBase.Begins (c : CopyBase boot) (s : Vmm) (tables : Tables) (heap : Set (BitVec 64))
    (vaddr : BitVec 64) (num : Nat) : Prop where
  mem : c.mem = s.mem
  cr3 : c.cr3 = s.cr3
  tables : c.tables = tables
  pmm : c.pmm = s.pmm
  heap : c.heap = heap
  vaddr : c.vaddr = vaddr
  num : c.num = num

namespace CopyRequest

variable {s : Vmm} {tables : Tables} {heap : Set (BitVec 64)} {pages : Nat} {mem : Region}

/-- There is room for the pages at the beginning. -/
theorem has_room (request : CopyRequest boot s tables heap pages mem) :
    KernelRoom (request.base request.low 0#32) (fun _ _ => none) (mem.num + pages) := by
  obtain ⟨k, inside, -, vacant⟩ := request.room
  refine ⟨k, inside, fun j lt => ?_⟩
  have unmapped := vacant j lt
  rw [pageAfter_add] at unmapped
  exact (request.toMapReady.mapped request.low 0#32).open_of_unmapped
    (kernelPages_inVma.slot (by omega)) unmapped

/-- With the pages of the copy mapped. -/
theorem begins (request : CopyRequest boot s tables heap pages mem) {vaddr : BitVec 64} {s₁ : Vmm}
    (map : vmmMap boot s fuel mem.num 0 0#32 = some (vaddr, s₁)) (not_null : vaddr ≠ 0#64)
    (ok : s₁.pmm.failed = s.pmm.failed) : ∃ (c : CopyBase boot) (grafts : Grafts) (pages' : Pages),
      c.Begins s tables heap vaddr mem.num ∧ Copying c s₁ grafts pages' (fun _ => False) heap ∧
      c.Temporary pages' ∧ KernelRoom c.toMapBase pages' pages := by
  have mapped := request.toMapReady.mapped request.low 0#32
  obtain ⟨range, aligned, left⟩ :=
    mapped.finds_room request.has_room request.some_page (vmmMap_finds map not_null) not_null
  obtain ⟨free, first, grafts, pages', new, mapped', tight, overlay, out⟩ :=
    mapped.vmmMap .empty rfl request.some_page map range ok
  let c : CopyBase boot :=
    { toMapBase := request.base request.low 0#32
      heap := heap
      vaddr := vaddr
      num := mem.num
      first := first
      heap_plain := fun word => by
        obtain ⟨paddr, found, noTable⟩ := request.heap word
        exact ⟨paddr, found, noTable, request.held found⟩
      kernel := rfl
      range := range
      aligned := aligned
      free := fun j lt => (free j lt).1
      available := fun k ge lt => (new k ge lt).1 }
  refine ⟨c, grafts, pages', ⟨rfl, rfl, rfl, rfl, rfl, rfl, rfl⟩, ⟨mapped', tight, False.elim, ?_, ?_⟩,
    fun j lt => overlay.on j (Nat.zero_le j) lt, left overlay⟩
  · intro a word
    obtain ⟨paddr, found, -⟩ := request.heap word
    exact ⟨paddr, .inl ⟨word, found⟩⟩
  · intro f i untouched
    exact congrFun (out.mem fun path => untouched.1.no_table mapped'.mem path) i

/-- The call, once its pages are mapped and the heap has returned a block. -/
theorem copies (request : CopyRequest boot s tables heap pages mem)
    {heapAlloc : Vmm → Option (BitVec 64 × Vmm)} (alloc : AllocatesRegion boot fuel pages heap heapAlloc)
    {vaddr copy : BitVec 64} {s₁ s₂ : Vmm} (map : vmmMap boot s fuel mem.num 0 0#32 = some (vaddr, s₁))
    (not_null : vaddr ≠ 0#64) (block : heapAlloc s₁ = some (copy, s₂)) (found : copy ≠ 0#64)
    (ok : s₂.pmm.failed = s.pmm.failed) :
    ∃ s' paddr, s.regionCopyTo boot fuel heapAlloc mem = some (copy, s') ∧
      s'.pmm.failed = s.pmm.failed ∧ RegionCopied boot s s' tables heap mem copy paddr := by
  obtain ⟨heap', run, inside⟩ := alloc block found
  have le₁ := vmmMap_failed_le map
  have le₂ := run.failed_le
  obtain ⟨c, grafts, pages₁, ⟨mem_eq, cr3_eq, rfl, pmm_eq, rfl, rfl, num⟩, copying₁, temporary₁, room⟩ :=
    request.begins map not_null (by omega)
  obtain ⟨grafts₂, pages₂, own, copying₂, temporary₂⟩ := copying₁.run run temporary₁ room (by omega)
  have some_page := request.some_page
  rw [← num] at some_page
  have mapped := request.mapped
  have held := @request.held
  rw [← mem_eq, ← cr3_eq] at mapped held
  rw [← pmm_eq] at held
  obtain ⟨s₃, fill, copying₃, object, contents⟩ := copying₂.regionFill temporary₂ some_page inside num
    request.not_null fun w lt => by
      obtain ⟨paddr, source⟩ := mapped w (num ▸ lt)
      exact ⟨paddr, source, fun k data => held source k (c.available k data.1 data.2)⟩
  obtain ⟨s', grafts', pages', unmap, copying', reads, words⟩ := copying₃.unmap temporary₂
  have untouched {a p : BitVec 64} (source : hwTranslate s.mem s.cr3 a = some p)
      (aside : Aside s c.tables c.heap p) : c.Untouched (hwFrame p) (hwWord p) := by
    refine ⟨⟨aside.1, fun k available => ?_⟩, fun {a' p'} word found' => ?_⟩
    · rw [pmm_eq] at available ⊢
      exact request.held source k available
    · rw [mem_eq, cr3_eq] at found'
      exact aside.2 word found'
  have stays {a p : BitVec 64} (source : hwTranslate s.mem s.cr3 a = some p)
      (aside : Aside s c.tables c.heap p) {t : Vmm} {grafts : Grafts} {pages : Pages}
      {heap : Set (BitVec 64)}
      (copying : Copying c t grafts pages own heap) : t.mem.wordAt p = s.mem.wordAt p := by
    rw [PhysMem.wordAt, copying.kept (untouched source aside), mem_eq]
    rfl
  have old {t : Vmm} {grafts : Grafts} {pages : Pages} {heap : Set (BitVec 64)} {a p : BitVec 64}
      (copying : Copying c t grafts pages own heap) (source : hwTranslate s.mem s.cr3 a = some p) :
      hwTranslate t.mem t.cr3 a = some p := by
    rw [← mem_eq, ← cr3_eq] at source
    exact copying.mapped.translate_old source
  rw [num] at unmap
  refine ⟨s', c.pmm.pageAt c.first, ?_, ?_, fun i lt => ?_, fun j lt => ?_,
    fun {w p} lt source aside => ?_,
    fun {a p} source => ⟨?_, old copying' source, fun aside => stays source aside copying'⟩⟩
  · simp only [Vmm.regionCopyTo, map, block, fill, unmap, Option.bind_eq_bind, Option.bind_some,
      if_neg not_null, if_neg found]
  · rw [← pmm_eq]
    exact copying'.mapped.pmm.config.2.2.2
  · rw [reads (inside i lt), object i lt]
  · rw [← pmm_eq]
    exact copying'.frames (num ▸ lt)
  · rw [← num] at lt
    have copied := contents w lt
    rw [Vmm.read, hwRead, old copying₂ source] at copied
    rw [c.wordAt lt, words w lt, ← stays source aside copying₂]
    exact (Option.some.inj copied).symm
  · have leaf : hwLeaf c.mem c.cr3 a ≠ none := by
      rw [mem_eq, cr3_eq]
      intro none
      rw [hwLeaf] at none
      rw [hwTranslate, none] at source
      split at source <;> cases source
    exact copying'.mapped.resolve_old mem_eq.symm cr3_eq.symm leaf

end CopyRequest

theorem Vmm.memcpyLoop_pmm {s s' : Vmm} {dst src : BitVec 64} {words : Nat}
    (done : s.memcpyLoop dst src words = some s') : s'.pmm = s.pmm := by
  induction words generalizing s dst src with
  | zero =>
      cases done
      rfl
  | succ words ih =>
      obtain ⟨value, -, done⟩ := Option.bind_eq_some_iff.mp done
      obtain ⟨s₁, write, rest⟩ := Option.bind_eq_some_iff.mp done
      exact (ih rest).trans (Vmm.write_pmm write)

theorem Vmm.regionFill_pmm {s s' : Vmm} {vaddr copy : BitVec 64} {mem : Region}
    (done : s.regionFill vaddr copy mem = some s') : s'.pmm = s.pmm := by
  obtain ⟨s₁, copied, done⟩ := Option.bind_eq_some_iff.mp done
  obtain ⟨s₂, zero, done⟩ := Option.bind_eq_some_iff.mp done
  obtain ⟨s₃, write₃, done⟩ := Option.bind_eq_some_iff.mp done
  obtain ⟨s₄, write₄, done⟩ := Option.bind_eq_some_iff.mp done
  obtain ⟨s₅, write₅, done⟩ := Option.bind_eq_some_iff.mp done
  obtain ⟨paddr, -, done⟩ := Option.bind_eq_some_iff.mp done
  obtain ⟨s₆, write₆, write₇⟩ := Option.bind_eq_some_iff.mp done
  rw [Vmm.write_pmm write₇, Vmm.write_pmm write₆, Vmm.write_pmm write₅, Vmm.write_pmm write₄,
    Vmm.write_pmm write₃, Vmm.bzero_pmm zero]
  rw [Vmm.memcpy] at copied
  split at copied
  · cases copied
    rfl
  · exact Vmm.memcpyLoop_pmm copied

/-- A region that `region_copy` returns is a copy: in frames that were free and are allocated, with the
    words of the region; what was mapped is mapped as it was, and has the words it had, but for page
    tables and the heap. The PMM must not run out of pages for tables. -/
theorem regionCopyTo_copies {s s' : Vmm} {tables : Tables} {heap : Set (BitVec 64)} {pages : Nat}
    {mem : Region} {heapAlloc : Vmm → Option (BitVec 64 × Vmm)} {copy : BitVec 64}
    (request : CopyRequest boot s tables heap pages mem)
    (alloc : AllocatesRegion boot fuel pages heap heapAlloc)
    (done : s.regionCopyTo boot fuel heapAlloc mem = some (copy, s')) (found : copy ≠ 0#64)
    (ok : s'.pmm.failed = s.pmm.failed) : ∃ paddr, RegionCopied boot s s' tables heap mem copy paddr := by
  have run := done
  obtain ⟨⟨vaddr, s₁⟩, map, run⟩ := Option.bind_eq_some_iff.mp run
  dsimp only at run
  split at run
  · cases run
    exact absurd rfl found
  next not_null =>
  obtain ⟨⟨copy', s₂⟩, block, run⟩ := Option.bind_eq_some_iff.mp run
  dsimp only at run
  split at run
  · obtain ⟨unmapped, -, same⟩ := Option.bind_eq_some_iff.mp run
    cases same
    exact absurd rfl found
  obtain ⟨s₃, fill, run⟩ := Option.bind_eq_some_iff.mp run
  obtain ⟨⟨err, s₄⟩, unmap, same⟩ := Option.bind_eq_some_iff.mp run
  cases same
  rw [vmmUnmap_failed unmap, Vmm.regionFill_pmm fill] at ok
  obtain ⟨s₅, paddr, done', -, copied⟩ := request.copies alloc map not_null block found ok
  cases done.symm.trans done'
  exact ⟨paddr, copied⟩

/-! ### A page of a stack -/

/-- A page of the heap with three free chunks, a page of a stack and one with the variables of the heap,
    in frames 5 to 7. -/
def stackMem : PhysMem := fun table i =>
  if table = 1 then if i = 256 then 0x2003 else if i = 510 then 0x1003 else 0
  else if table = 2 then if i = 0 then 0x3003 else 0
  else if table = 3 then if i = 0 then 0x4003 else 0
  else if table = 4 then
    if i = 0 then 0x5003 else if i = 1 then 0x6003 else if i = 2 then 0x7003 else 0
  else if table = 5 then
    if i = 0 then 0xffff800000000020 else if i = 4 then 0xffff800000000040
    else if i = 5 then 0xffff800000000000 else if i = 9 then 0xffff800000000020 else 0
  else if table = 7 then
    if i = 0 then 0xffff800000000000 else if i = 1 then 0xffff800000000040 else 0
  else 0

def stackVmm : Vmm := ⟨stackMem, 1, freePages 0x10000, 0⟩

def stackRegion : Region := ⟨.stack, false, 0xffff800000001000, 0x6000, 1⟩

/-- The words `heap_alloc` may write: those of its page, and its variables. -/
def stackHeap : Set (BitVec 64) := pageWords 0xffff800000000000 ∪ pageWords 0xffff800000002000

/-- `heap_alloc` of two chunks, with that many in front of the list. -/
def takeChunks (s : Vmm) : Option (BitVec 64 × Vmm) := do
  let s ← s.write 0xffff800000000048 0
  let s ← s.write 0xffff800000002000 0xffff800000000040
  let s ← s.write 0xffff800000000000 0xa71e394b53a81759
  let s ← s.write 0xffff800000000008 48
  some (0xffff800000000010, s)

theorem stackMem_pt (i : Index) : stackMem 4 i =
    if i = 0 then 0x5003 else if i = 1 then 0x6003 else if i = 2 then 0x7003 else 0 := rfl

theorem stackMem_chain : Chain stackMem 256 0 0 where
  slot := by decide
  pml4 i := rfl
  pdpt i := rfl
  pd i := rfl
  pt i used := by
    rw [stackMem_pt] at used ⊢
    split
    · rfl
    · split
      · rfl
      · split
        · rfl
        · simp_all

theorem stackMem_page {page : BitVec 64} {f : Frame} (here : page = 0xffff800000000000 ∧ f = 5 ∨
    page = 0xffff800000001000 ∧ f = 6 ∨ page = 0xffff800000002000 ∧ f = 7) :
    PageAt stackMem 1 page f := by
  obtain ⟨rfl, rfl⟩ | ⟨rfl, rfl⟩ | ⟨rfl, rfl⟩ := here <;>
    exact @PageAt.of_tables _ _ _ _ 2 3 4
      ⟨(Chain.tree stackMem_chain).self, by decide, by decide, by decide⟩ (by decide) (by decide) (by decide)
      (by decide)

theorem stackMem_entry {path : List Index} {t : Frame} (at_path : chainTables 256 0 0 path = some t)
    (i : Index) : (hwFrame (stackMem t i)).toNat ≤ 7 ∧ hwLarge (stackMem t i) = false := by
  obtain ⟨-, rfl⟩ | ⟨-, rfl⟩ | ⟨-, rfl⟩ | ⟨-, rfl⟩ := Chain.cases_path at_path
  · rw [Chain.pml4 stackMem_chain]
    split
    · decide
    · split <;> decide
  · rw [Chain.pdpt stackMem_chain]
    split <;> decide
  · rw [Chain.pd stackMem_chain]
    split <;> decide
  · rw [stackMem_pt]
    split
    · decide
    · split
      · decide
      · split <;> decide

/-- What is mapped is in the first frames. -/
theorem stackMem_low {a paddr : BitVec 64} (found : hwTranslate stackMem 1 a = some paddr) :
    (hwFrame paddr).toNat ≤ 7 := by
  have tree := Chain.tree stackMem_chain
  rw [hwTranslate] at found
  split at found
  · obtain ⟨⟨level, entry⟩, walk, rfl⟩ := Option.map_eq_some_iff.mp found
    obtain ⟨leaf, -, -, t, i, reached, rfl⟩ :=
      (@vmmFinds stackVmm tree.recursive a).page level entry walk
    obtain ⟨path, at_path, -⟩ := tree.table_of_hwTable reached
    obtain ⟨low, small⟩ := stackMem_entry at_path i
    obtain rfl | ⟨-, large⟩ := leaf
    · rw [hwFrame_hwPage]
      exact low
    · rw [show stackVmm.mem t i = stackMem t i from rfl, small] at large
      cases large
  · cases found

theorem stackMem_word {page : BitVec 64} {f : Frame} (here : page = 0xffff800000000000 ∧ f = 5 ∨
    page = 0xffff800000001000 ∧ f = 6 ∨ page = 0xffff800000002000 ∧ f = 7) (i : Index) :
    ∃ paddr, hwTranslate stackMem 1 (vmmEntryAt page (i.setWidth 64)) = some paddr ∧
      4 < (hwFrame paddr).toNat := by
  obtain ⟨paddr, found, frame, -⟩ := (stackMem_page here).translate i
  refine ⟨paddr, found, ?_⟩
  rw [frame]
  obtain ⟨-, rfl⟩ | ⟨-, rfl⟩ | ⟨-, rfl⟩ := here <;> decide

theorem stackVmm_request :
    CopyRequest freeBoot stackVmm (chainTables 256 0 0) stackHeap 0 stackRegion where
  toMapReady := Chain.ready stackMem_chain (i := 0) (by decide) (by decide) (by decide) (by decide)
  low := by decide
  held found k available same := by
    have low := stackMem_low found
    rw [← same, show stackVmm.pmm = freePages 0x10000 from rfl,
      freePages_frameOf (by decide) (by decide) available] at low
    omega
  heap {a} word := by
    have place : ∃ paddr, hwTranslate stackMem 1 a = some paddr ∧ 4 < (hwFrame paddr).toNat := by
      obtain ⟨i, rfl⟩ | ⟨i, rfl⟩ := word
      · exact stackMem_word (.inl ⟨rfl, rfl⟩) i
      · exact stackMem_word (.inr (.inr ⟨rfl, rfl⟩)) i
    obtain ⟨paddr, found, high⟩ := place
    refine ⟨paddr, found, fun path at_path => ?_⟩
    have low := Chain.low at_path
    omega
  some_page := by decide
  not_null := by decide
  mapped w lt := by
    obtain ⟨paddr, found, -⟩ := stackMem_word (.inr (.inl ⟨rfl, rfl⟩)) (BitVec.ofNat 9 w)
    have inside : w < 512 := by simpa [stackRegion] using lt
    rw [ofNat_setWidth inside] at found
    exact ⟨paddr, found⟩
  room := by
    have vacant : vmmEntryFromVaddr stackVmm (pageAfter (pageAfter vmmVmaKernelStart 3) 0) =
        some none := by decide
    refine ⟨3, by decide, .inl rfl, fun j lt => ?_⟩
    obtain rfl : j = 0 := by
      have one : j < 1 := lt
      omega
    exact vacant

theorem takeChunks_allocates {boot : BootInfo} {fuel : Nat} :
    AllocatesRegion boot fuel 0 stackHeap takeChunks := by
  intro s s' block done _
  obtain ⟨s₁, write₁, done⟩ := Option.bind_eq_some_iff.mp done
  obtain ⟨s₂, write₂, done⟩ := Option.bind_eq_some_iff.mp done
  obtain ⟨s₃, write₃, done⟩ := Option.bind_eq_some_iff.mp done
  obtain ⟨s₄, write₄, same⟩ := Option.bind_eq_some_iff.mp done
  cases same
  refine ⟨stackHeap, .write (.inl ⟨9, by decide⟩) write₁ (.write (.inr ⟨0, by decide⟩) write₂
    (.write (.inl ⟨0, by decide⟩) write₃ (.write (.inl ⟨1, by decide⟩) write₄ .done))),
    fun i lt => .inl ?_⟩
  have few : i < 5 := lt
  obtain rfl | rfl | rfl | rfl | rfl : i = 0 ∨ i = 1 ∨ i = 2 ∨ i = 3 ∨ i = 4 := by omega
  · exact ⟨2, by decide⟩
  · exact ⟨3, by decide⟩
  · exact ⟨4, by decide⟩
  · exact ⟨5, by decide⟩
  · exact ⟨6, by decide⟩

/-- The copy of the page of the stack. -/
theorem stackRegion_copies : ∃ s' paddr,
    stackVmm.regionCopyTo freeBoot 8 takeChunks stackRegion = some (0xffff800000000010, s') ∧
      s'.pmm.failed = stackVmm.pmm.failed ∧
      RegionCopied freeBoot stackVmm s' (chainTables 256 0 0) stackHeap stackRegion 0xffff800000000010
        paddr := by
  have run : (vmmMap freeBoot stackVmm 8 1 0 0#32).bind (fun mapped =>
      (takeChunks mapped.2).map fun taken => (mapped.1, taken.1, taken.2.pmm.failed)) =
      some (0xffff800000003000, 0xffff800000000010, 0) := by decide
  obtain ⟨⟨vaddr, s₁⟩, map, run⟩ := Option.bind_eq_some_iff.mp run
  obtain ⟨⟨copy, s₂⟩, block, same⟩ := Option.map_eq_some_iff.mp run
  obtain ⟨rfl, rfl, failed⟩ := by simpa only [Prod.mk.injEq] using same
  exact CopyRequest.copies stackVmm_request takeChunks_allocates map (by decide) block (by decide) failed

theorem regionCopyTo_copies_stack : ∃ s' paddr,
    stackVmm.regionCopyTo freeBoot 8 takeChunks stackRegion = some (0xffff800000000010, s') ∧
      RegionCopied freeBoot stackVmm s' (chainTables 256 0 0) stackHeap stackRegion 0xffff800000000010
        paddr := by
  obtain ⟨s', -, done, ok, -⟩ := stackRegion_copies
  obtain ⟨paddr, copied⟩ :=
    regionCopyTo_copies stackVmm_request takeChunks_allocates done (by decide) ok
  exact ⟨s', paddr, done, copied⟩

/-- The object of the copy is in a page that was mapped before. -/
theorem regionCopyTo_object :
    CopyRequest freeBoot stackVmm (chainTables 256 0 0) stackHeap 0 stackRegion ∧
      ∃ s', stackVmm.regionCopyTo freeBoot 8 takeChunks stackRegion = some (0xffff800000000010, s') ∧
        stackVmm.read 0xffff800000000028 = some 0xffff800000000000 ∧
        s'.read 0xffff800000000028 = some 1 := by
  obtain ⟨s', paddr, done, -, copied⟩ := stackRegion_copies
  have before : stackVmm.read 0xffff800000000028 = some 0xffff800000000000 := by decide
  exact ⟨stackVmm_request, s', done, before, copied.object 3 (by decide)⟩

end Sdx.Mm
