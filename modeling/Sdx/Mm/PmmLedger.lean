import Sdx.Mm.PmmFlat
import Mathlib.Data.Set.Lattice
import Mathlib.Order.CompletePartialOrder

/-! # Who owns which physical page

`Ledger` follows the PMM together with the extents its callers hold. A run starts
behind the region setup of `pmm_init`, allocates from the bump cursor, hands over to
the bitmap once and then allocates and frees in any order. `Booting` and `Running`
are the invariants of the two phases; the hand-over is where they meet.
-/

namespace Sdx.Mm

open Pmm

/-- The pages of an extent, given as its address and its number of pages. -/
def extentPages (extent : Nat × Nat) : Set Nat :=
  {a | ∃ i < extent.2, a = wrap64 (extent.1 + i * pageSize)}

/-- Two extents have no page in common. -/
def Apart (x y : Nat × Nat) : Prop := Disjoint (extentPages x) (extentPages y)

/-- The PMM and what its callers know: the extents that are returned and not freed, and the
    pages below the cursor at the hand-over that were not freed since. -/
structure Ledger where
  pmm : Pmm
  live : List (Nat × Nat)
  boot : Set Nat

namespace Ledger

/-- A call of `pmm_alloc`. It returns an extent unless it reports a failure. -/
def alloc (info : BootInfo) (l : Ledger) (num align : Nat) : Ledger :=
  let result := pmmAlloc info l.pmm num align
  { l with
    pmm := result.2
    live := if result.2.failed = l.pmm.failed then (result.1, num) :: l.live else l.live }

/-- The end of `pmm_init`. -/
def handOver (l : Ledger) : Ledger :=
  { l with
    pmm := pmmInitMark l.pmm
    boot := {a | ∃ k, l.pmm.regFree.start + k * pageSize < l.pmm.regFree.pos ∧ a = l.pmm.pageAt k} }

/-- A call of `pmm_free` for an extent that is live. -/
def free (l : Ledger) (extent : Nat × Nat) : Ledger where
  pmm := (pmmFree l.pmm extent.1 extent.2).2
  live := l.live.erase extent
  boot := l.boot \ extentPages extent

/-- The runs of the PMM under the calls its callers may make. -/
inductive Reach (info : BootInfo) : Ledger → Prop where
  | init {pmm} : pmmInitRegion info = .ok pmm → Reach info ⟨pmm, [], ∅⟩
  | alloc {l num} (align) : Reach info l → 1 ≤ num → Reach info (l.alloc info num align)
  | handOver {l} : Reach info l → l.pmm.bmMapped = false →
      l.pmm.regFree.pos ≤ l.pmm.regFree.start + l.pmm.covered * pageSize →
      Reach info l.handOver
  | free {l extent} : Reach info l → l.pmm.bmMapped = true → extent ∈ l.live →
      Reach info (l.free extent)

end Ledger

/-! ## Extents as ranges of flat positions -/

/-- The extent is the `extent.2` pages from the flat position `s` on, all of them free memory
    in front of position `bound`. -/
structure PlacedAt (info : BootInfo) (p : Pmm) (bound : Nat) (extent : Nat × Nat) (s : Nat) :
    Prop where
  addr : extent.1 = p.pageAt s
  pos : 0 < extent.2
  below : s + extent.2 ≤ bound
  memory : ∀ j, s ≤ j → j < s + extent.2 → pmmIsFreeMemory info (p.pageAt j) = true

def Placed (info : BootInfo) (p : Pmm) (bound : Nat) (extent : Nat × Nat) : Prop :=
  ∃ s, PlacedAt info p bound extent s

namespace PlacedAt

variable {info : BootInfo} {p : Pmm} {bound s : Nat} {extent : Nat × Nat}

theorem mem_iff (placed : PlacedAt info p bound extent s) (a : Nat) :
    a ∈ extentPages extent ↔ ∃ j, s ≤ j ∧ j < s + extent.2 ∧ a = p.pageAt j := by
  simp only [extentPages, Set.mem_ofPred_eq, placed.addr, pageAt_add]
  constructor
  · rintro ⟨i, lt, rfl⟩
    exact ⟨s + i, by omega, by omega, rfl⟩
  · rintro ⟨j, lo, hi, rfl⟩
    exact ⟨j - s, by omega, by rw [Nat.add_sub_of_le lo]⟩

theorem pageAt_mem_iff (placed : PlacedAt info p bound extent s) (bounded : bound ≤ 2 ^ 52)
    {k : Nat} (hk : k < 2 ^ 52) : p.pageAt k ∈ extentPages extent ↔ s ≤ k ∧ k < s + extent.2 := by
  have below := placed.below
  rw [placed.mem_iff]
  constructor
  · rintro ⟨j, lo, hi, same⟩
    obtain rfl := pageAt_inj hk (by omega) same
    exact ⟨lo, hi⟩
  · rintro ⟨lo, hi⟩
    exact ⟨k, lo, hi, rfl⟩

theorem freeMemory (placed : PlacedAt info p bound extent s) {a : Nat}
    (mem : a ∈ extentPages extent) : pmmIsFreeMemory info a = true := by
  obtain ⟨j, lo, hi, rfl⟩ := (placed.mem_iff a).mp mem
  exact placed.memory j lo hi

/-- Extents over disjoint ranges of positions are apart. -/
theorem apart {other : Nat × Nat} {t : Nat} (placed : PlacedAt info p bound extent s)
    (placed' : PlacedAt info p bound other t) (bounded : bound ≤ 2 ^ 52)
    (ranges : ∀ j, s ≤ j → j < s + extent.2 → t ≤ j → j < t + other.2 → False) :
    Apart extent other := by
  rw [Apart, Set.disjoint_left]
  rintro a mem mem'
  obtain ⟨j, lo, hi, rfl⟩ := (placed.mem_iff a).mp mem
  have below := placed.below
  obtain ⟨lo', hi'⟩ := (placed'.pageAt_mem_iff bounded (by omega)).mp mem'
  exact ranges j lo hi lo' hi'

end PlacedAt

theorem Placed.mono {info : BootInfo} {p : Pmm} {bound bound' : Nat} {extent : Nat × Nat}
    (le : bound ≤ bound') (placed : Placed info p bound extent) : Placed info p bound' extent := by
  obtain ⟨s, placed⟩ := placed
  exact ⟨s, placed.addr, placed.pos, Nat.le_trans placed.below le, placed.memory⟩

/-- Where an extent lies depends on the start of the region only. -/
theorem Placed.congr {info : BootInfo} {p p' : Pmm} {bound : Nat} {extent : Nat × Nat}
    (placed : Placed info p bound extent) (start : p'.regFree.start = p.regFree.start) :
    Placed info p' bound extent := by
  have pageAt_eq : p'.pageAt = p.pageAt := by
    funext k
    rw [pageAt, start, pageAt]
  obtain ⟨s, placed⟩ := placed
  exact ⟨s, pageAt_eq ▸ placed.addr, placed.pos, placed.below, pageAt_eq ▸ placed.memory⟩

theorem Apart.symm {x y : Nat × Nat} (h : Apart x y) : Apart y x := Disjoint.symm h

/-- Taking an extent out of the list leaves extents that are apart from it and from each other. -/
theorem apart_erase {live : List (Nat × Nat)} {extent : Nat × Nat} (mem : extent ∈ live)
    (apart : live.Pairwise Apart) :
    (∀ x ∈ live.erase extent, Apart extent x) ∧ (live.erase extent).Pairwise Apart := by
  have perm := List.perm_cons_erase mem
  exact List.pairwise_cons.mp ((perm.pairwise_iff Apart.symm).mp apart)

/-! ## The two phases -/

/-- The region after `pmm_init` has aligned it, `e` pages long with the cursor behind `c` of them. -/
structure RegionAt (p : Pmm) (c e : Nat) : Prop where
  stop : p.regFree.stop = p.regFree.start + e * pageSize
  pos : p.regFree.pos = p.regFree.start + c * pageSize
  le : c ≤ e
  lt : p.regFree.start + e * pageSize < 2 ^ 64
  bitmap : 4096 ∣ p.bmSize
  fits : p.covered ≤ 2 ^ 52

/-- The bitmap does not exist: every live extent lies in front of the cursor. -/
structure Booting (info : BootInfo) (l : Ledger) : Prop where
  notReady : l.pmm.bmIsReady = false
  region : ∃ c e, RegionAt l.pmm c e ∧ ∀ x ∈ l.live, Placed info l.pmm c x
  apart : l.live.Pairwise Apart

/-- The bitmap exists and marks exactly the live extents and what is left from the boot. -/
structure Running (info : BootInfo) (l : Ledger) : Prop where
  ready : l.pmm.bmIsReady = true
  start_lt : l.pmm.regFree.start < 2 ^ 64
  fits : l.pmm.covered ≤ 2 ^ 52
  nonempty : 0 < l.pmm.covered
  placed : ∀ x ∈ l.live, Placed info l.pmm l.pmm.covered x
  apart : l.live.Pairwise Apart
  marked : ∀ k < l.pmm.covered, l.pmm.bitAt k = true ↔
    (∃ x ∈ l.live, l.pmm.pageAt k ∈ extentPages x) ∨ l.pmm.pageAt k ∈ l.boot

theorem RegionAt.e_lt {p : Pmm} {c e : Nat} (region : RegionAt p c e) : e ≤ 2 ^ 52 := by
  have := region.lt
  simp only [pageSize] at this
  omega

theorem RegionAt.pageAt_le {p : Pmm} {c e k : Nat} (region : RegionAt p c e) (le : k ≤ e) :
    p.pageAt k = p.regFree.start + k * pageSize := by
  refine pageAt_of_lt (Nat.lt_of_le_of_lt ?_ region.lt)
  exact Nat.add_le_add_left (Nat.mul_le_mul_right pageSize le) _

theorem RegionAt.congr {p p' : Pmm} {c e : Nat} (region : RegionAt p c e)
    (reg : p'.regFree = p.regFree) (size : p'.bmSize = p.bmSize) : RegionAt p' c e := by
  have covered : p'.covered = p.covered := by simp only [Pmm.covered, bmGetMaxIndex, size]
  exact ⟨reg ▸ region.stop, reg ▸ region.pos, region.le, reg ▸ region.lt, size ▸ region.bitmap,
    covered ▸ region.fits⟩

/-- The addresses in front of the cursor are the pages in front of position `c`. -/
theorem RegionAt.below_iff {p : Pmm} {c e k : Nat} (region : RegionAt p c e) :
    p.regFree.start + k * pageSize < p.regFree.pos ↔ k < c := by
  rw [region.pos]
  simp only [pageSize]
  omega

theorem pmmInitReg_stop_lt (info : BootInfo) : (pmmInitReg info).stop < 2 ^ 64 := by
  refine List.foldlRecOn (motive := fun r : PmmReg => r.stop < 2 ^ 64)
    (pmmForeachMbMmapEntry info) PmmReg.grow (by decide) ?_
  intro r lt map _
  unfold PmmReg.grow
  split
  · exact lt
  · dsimp only
    split
    · exact Nat.mod_lt _ (by decide)
    · exact lt

/-- A valid region of whole pages starts its life with the cursor in front of its first page. -/
theorem RegionAt.of_valid {reg : PmmReg} (start : 4096 ∣ reg.start) (stop : 4096 ∣ reg.stop)
    (lt : reg.stop < 2 ^ 64) (valid : reg.posReset.isValid = true) :
    RegionAt ⟨reg.posReset, fun _ => 0, false, roundUp (reg.posReset.size / pageSize / 8) pageSize, 0⟩
      0 ((reg.stop - reg.start) / pageSize) := by
  have gt : reg.start < reg.stop := by
    simp only [PmmReg.isValid, PmmReg.posReset, Bool.and_eq_true] at valid
    simpa using valid.1.1
  have size : reg.posReset.size = reg.stop - reg.start := sub64_of_le (Nat.le_of_lt gt) lt
  have small : reg.posReset.size / pageSize / 8 ≤ 2 ^ 49 := by
    rw [size, pageSize]
    omega
  have bm_dvd : 4096 ∣ roundUp (reg.posReset.size / pageSize / 8) pageSize :=
    dvd_roundUp _ (by decide)
  have bm_le : roundUp (reg.posReset.size / pageSize / 8) pageSize ≤ 2 ^ 49 := by
    generalize reg.posReset.size / pageSize / 8 = bytes at small
    simp only [roundUp, pageSize, wrap64, Nat.reduceEqDiff, if_false]
    omega
  have pages : (reg.stop - reg.start) / pageSize * pageSize = reg.stop - reg.start :=
    Nat.div_mul_cancel (Nat.dvd_sub stop start)
  refine ⟨?_, (Nat.zero_mul pageSize).symm ▸ rfl, Nat.zero_le _, ?_, bm_dvd, ?_⟩
  · rw [pages]
    exact (Nat.add_sub_of_le (Nat.le_of_lt gt)).symm
  · rw [pages]
    exact (Nat.add_sub_of_le (Nat.le_of_lt gt)).trans_lt lt
  · simp only [covered, bmGetMaxIndex, pmmBmEntryBitSize]
    omega

theorem pmmInitRegion_regionAt {info : BootInfo} {p : Pmm} (init : pmmInitRegion info = .ok p) :
    p.bmIsReady = false ∧ ∃ e, RegionAt p 0 e := by
  simp only [pmmInitRegion] at init
  split at init
  · cases init
  next valid =>
  cases init
  refine ⟨rfl, _, RegionAt.of_valid (dvd_roundUp _ (by decide)) (dvd_roundDown _ (by decide)) ?_
    (by simpa using valid)⟩
  exact Nat.lt_of_le_of_lt (roundDown_le _ pageSize) (pmmInitReg_stop_lt info)

/-- The marking loop of `pmm_init` turns the cursor into the bits in front of it. -/
theorem pmmInitMark_ready {p : Pmm} {c e : Nat} (region : RegionAt p c e) (size : p.bmSize ≠ 0) :
    ∃ bm, pmmInitMark p = { p with bm := bm, bmMapped := true } ∧
      ∀ j, { p with bm := bm }.bitAt j = decide (j < c) := by
  let clear : Pmm := { p with bm := fun _ => 0, bmMapped := true }
  have ready : clear.bmIsReady = true := by simp [clear, bmIsReady, size]
  have steps : c - 0 < (p.regFree.pos - p.regFree.start) / pageSize + 1 := by
    rw [region.pos]
    simp only [pageSize]
    omega
  have fits : p.regFree.start + c * pageSize < 2 ^ 64 :=
    Nat.lt_of_le_of_lt (Nat.add_le_add_left (Nat.mul_le_mul_right pageSize region.le) _) region.lt
  have cursor : clear.regFree.pos = clear.pageAt c := region.pos.trans (pageAt_of_lt fits).symm
  obtain ⟨bm, mark, bits⟩ := pmmInitMarkLoop_spec ready cursor fits (Nat.zero_le c) steps
  refine ⟨bm, mark, fun j => (bits j).trans ?_⟩
  simp [clear, bitAt]

/-- Without a bitmap there is nothing to mark, and the cursor has not moved. -/
theorem pmmInitMark_empty {p : Pmm} {e : Nat} (region : RegionAt p 0 e) :
    pmmInitMark p = { p with bm := fun _ => 0, bmMapped := true } := by
  rw [pmmInitMark, pmmInitMarkLoop, if_neg]
  have pos := region.pos
  have first := region.pageAt_le (Nat.zero_le e)
  rw [show (⟨0, 0⟩ : PmmBmPos) = .ofFlat 0 from rfl, bmPosToAddr_ofFlat]
  show ¬ p.regFree.pos > p.pageAt 0
  omega

/-! ## Each call keeps the invariant of its phase -/

section

variable {info : BootInfo} {l : Ledger}

theorem Booting.init {p : Pmm} (init : pmmInitRegion info = .ok p) : Booting info ⟨p, [], ∅⟩ := by
  obtain ⟨notReady, e, region⟩ := pmmInitRegion_regionAt init
  exact ⟨notReady, ⟨0, e, region, nofun⟩, .nil⟩

theorem Booting.alloc (booting : Booting info l) {num : Nat} (align : Nat) (some_page : 1 ≤ num) :
    Booting info (l.alloc info num align) := by
  obtain ⟨notReady, ⟨c, e, region, placed⟩, apart⟩ := booting
  have stop : l.pmm.regFree.stop = l.pmm.pageAt e :=
    region.stop.trans (region.pageAt_le (Nat.le_refl e)).symm
  have pos : l.pmm.regFree.pos = l.pmm.pageAt c := region.pos.trans (region.pageAt_le region.le).symm
  obtain failed | ⟨s, taken, all⟩ := pmmAlloc_noBm info align notReady stop pos region.le some_page
  · have same : l.alloc info num align = { l with pmm := l.pmm.fail } := by
      simp [Ledger.alloc, failed, Pmm.fail]
    rw [same]
    exact ⟨notReady, ⟨c, e, region.congr rfl rfl, fun x mem => (placed x mem).congr rfl⟩, apart⟩
  · have first := all s (Nat.le_refl s) (by omega)
    have last := all (s + num - 1) (by omega) (by omega)
    have moved : l.alloc info num align =
        { l with
          pmm := { l.pmm with regFree := { l.pmm.regFree with pos := l.pmm.pageAt (s + num) } }
          live := (l.pmm.pageAt s, num) :: l.live } := by
      simp [Ledger.alloc, taken]
    rw [moved]
    have new : PlacedAt info l.pmm (s + num) (l.pmm.pageAt s, num) s :=
      ⟨rfl, some_page, Nat.le_refl _, fun j lo hi => (all j lo hi).2.2⟩
    have le : s + num ≤ e := by omega
    refine ⟨notReady, ⟨s + num, e, ⟨region.stop, region.pageAt_le le, le, region.lt, region.bitmap,
      region.fits⟩, ?_⟩, ?_⟩
    · intro x mem
      obtain rfl | mem := List.mem_cons.mp mem
      · exact Placed.congr ⟨s, new⟩ rfl
      · have grown : c ≤ s + num := by omega
        exact ((placed x mem).mono grown).congr rfl
    · refine List.pairwise_cons.mpr ⟨fun x mem => ?_, apart⟩
      obtain ⟨t, old⟩ := placed x mem
      have below := old.below
      have old' : PlacedAt info l.pmm (s + num) x t :=
        ⟨old.addr, old.pos, by omega, old.memory⟩
      -- what was handed out before ends in front of the cursor, where the new extent begins
      exact new.apart old' (Nat.le_trans le region.e_lt) (fun j lo hi lo' hi' => by omega)

theorem Booting.free (booting : Booting info l) {extent : Nat × Nat} (mem : extent ∈ l.live) :
    Booting info (l.free extent) := by
  obtain ⟨notReady, ⟨c, e, region, placed⟩, apart⟩ := booting
  have same : (pmmFree l.pmm extent.1 extent.2).2 = l.pmm := by
    simp [pmmFree, bmPosFromAddr, notReady]
  have step : l.free extent =
      { l with live := l.live.erase extent, boot := l.boot \ extentPages extent } := by
    rw [Ledger.free, same]
  rw [step]
  exact ⟨notReady, ⟨c, e, region, fun x hx => placed x (List.mem_of_mem_erase hx)⟩,
    (apart_erase mem apart).2⟩

theorem Booting.handOver (booting : Booting info l)
    (inside : l.pmm.regFree.pos ≤ l.pmm.regFree.start + l.pmm.covered * pageSize) :
    Booting info l.handOver ∨ Running info l.handOver := by
  obtain ⟨notReady, ⟨c, e, region, placed⟩, apart⟩ := booting
  have c_le_covered : c ≤ l.pmm.covered := by
    rw [region.pos] at inside
    simp only [pageSize] at inside
    omega
  have c_le : c ≤ 2 ^ 52 := Nat.le_trans c_le_covered region.fits
  by_cases size : l.pmm.bmSize = 0
  · left
    have none : l.pmm.covered = 0 := by simp [covered, bmGetMaxIndex, size]
    obtain rfl : c = 0 := by omega
    refine ⟨?_, ⟨0, e, ?_, fun x mem => ?_⟩, apart⟩ <;> rw [Ledger.handOver, pmmInitMark_empty region]
    · simp [bmIsReady, size]
    · exact region.congr rfl rfl
    · exact (placed x mem).congr rfl
  · right
    obtain ⟨bm, mark, bits⟩ := pmmInitMark_ready region size
    have step : l.handOver =
        ⟨{ l.pmm with bm := bm, bmMapped := true }, l.live, {a | ∃ k < c, a = l.pmm.pageAt k}⟩ := by
      simp only [Ledger.handOver, mark, region.below_iff]
    rw [step]
    refine ⟨?_, Nat.lt_of_le_of_lt (Nat.le_add_right _ _) region.lt, region.fits, ?_, fun x mem => ?_,
      apart, fun k hk => ?_⟩
    · simp [bmIsReady, size]
    · have dvd := region.bitmap
      simp only [covered, bmGetMaxIndex, pmmBmEntryBitSize]
      omega
    · exact ((placed x mem).mono c_le_covered).congr rfl
    · have k_lt : k < 2 ^ 52 := Nat.lt_of_lt_of_le hk region.fits
      have marked : { l.pmm with bm := bm }.bitAt k = true ↔ k < c := by simp [bits k]
      refine marked.trans ⟨fun lt => .inr ⟨k, lt, rfl⟩, ?_⟩
      -- the live extents of the boot lie in front of the cursor too
      rintro (⟨x, mem, page⟩ | ⟨j, lt, same⟩)
      · obtain ⟨s, old⟩ := placed x mem
        have range := (old.pageAt_mem_iff c_le k_lt).mp page
        have below := old.below
        omega
      · exact pageAt_inj k_lt (Nat.lt_of_lt_of_le lt c_le) same ▸ lt

theorem Running.alloc (running : Running info l) {num : Nat} (align : Nat) (some_page : 1 ≤ num) :
    Running info (l.alloc info num align) := by
  obtain ⟨ready, start_lt, fits, nonempty, placed, apart, marked⟩ := running
  obtain failed | ⟨s, bm, taken, all, bits⟩ := pmmAlloc_bm info align ready start_lt fits nonempty
    some_page
  · have same : l.alloc info num align = { l with pmm := l.pmm.fail } := by
      simp [Ledger.alloc, failed, Pmm.fail]
    rw [same]
    exact ⟨ready, start_lt, fits, nonempty, fun x mem => (placed x mem).congr rfl, apart, marked⟩
  · have step : l.alloc info num align =
        { l with
          pmm := { l.pmm with bm := bm }
          live := (l.pmm.pageAt s, num) :: l.live } := by
      simp [Ledger.alloc, taken]
    rw [step]
    have last := (all (s + num - 1) (by omega) (by omega)).1
    have new : PlacedAt info l.pmm l.pmm.covered (l.pmm.pageAt s, num) s :=
      ⟨rfl, some_page, by show s + num ≤ _; omega, fun j lo hi => (all j lo hi).2.2⟩
    refine ⟨ready, start_lt, fits, nonempty, fun x mem => ?_, ?_, fun k hk => ?_⟩
    · obtain rfl | mem := List.mem_cons.mp mem
      · exact Placed.congr ⟨s, new⟩ rfl
      · exact (placed x mem).congr rfl
    · refine List.pairwise_cons.mpr ⟨fun x mem => ?_, apart⟩
      obtain ⟨t, old⟩ := placed x mem
      refine new.apart old fits (fun j lo hi lo' hi' => ?_)
      -- a page of a live extent is marked, a page that was handed out was not
      obtain ⟨inside, clear, -⟩ := all j lo hi
      have page := (old.pageAt_mem_iff fits (Nat.lt_of_lt_of_le inside fits)).mpr ⟨lo', hi'⟩
      have set := (marked j inside).mpr (.inl ⟨x, mem, page⟩)
      rw [clear] at set
      cases set
    · have here := new.pageAt_mem_iff fits (Nat.lt_of_lt_of_le hk fits)
      have old := marked k hk
      rw [bits k, Bool.or_eq_true, decide_eq_true_eq, old, ← here]
      show _ ↔ (∃ x ∈ (l.pmm.pageAt s, num) :: l.live, l.pmm.pageAt k ∈ extentPages x) ∨
        l.pmm.pageAt k ∈ l.boot
      simp only [List.mem_cons, exists_eq_or_imp]
      exact or_right_comm.trans (or_congr_left or_comm)

theorem Running.free (running : Running info l) {extent : Nat × Nat} (mem : extent ∈ l.live) :
    Running info (l.free extent) := by
  obtain ⟨ready, start_lt, fits, nonempty, placed, apart, marked⟩ := running
  obtain ⟨s, here⟩ := placed extent mem
  have below := here.below
  have set : ∀ j, s ≤ j → j < s + extent.2 → j < l.pmm.covered ∧ l.pmm.bitAt j = true := by
    intro j lo hi
    have inside : j < l.pmm.covered := by omega
    refine ⟨inside, (marked j inside).mpr (.inl ⟨extent, mem, ?_⟩)⟩
    exact (here.pageAt_mem_iff fits (Nat.lt_of_lt_of_le inside fits)).mpr ⟨lo, hi⟩
  obtain ⟨bm, freed, bits⟩ := pmmFree_marked ready start_lt fits here.pos set
  have step : l.free extent =
      ⟨{ l.pmm with bm := bm }, l.live.erase extent, l.boot \ extentPages extent⟩ := by
    rw [Ledger.free, here.addr, freed]
  obtain ⟨away, apart⟩ := apart_erase mem apart
  rw [step]
  refine ⟨ready, start_lt, fits, nonempty, fun x hx => ?_, apart, fun k hk => ?_⟩
  · exact (placed x (List.mem_of_mem_erase hx)).congr rfl
  · rw [bits k, Bool.and_eq_true, Bool.not_eq_true', decide_eq_false_iff_not, marked k hk,
      ← here.pageAt_mem_iff fits (Nat.lt_of_lt_of_le hk fits)]
    show _ ↔ (∃ x ∈ l.live.erase extent, l.pmm.pageAt k ∈ extentPages x) ∨
      l.pmm.pageAt k ∈ l.boot \ extentPages extent
    constructor
    · rintro ⟨⟨x, hx, page⟩ | boot, out⟩
      · obtain rfl | other := List.mem_cons.mp ((List.perm_cons_erase mem).mem_iff.mp hx)
        · exact absurd page out
        · exact .inl ⟨x, other, page⟩
      · exact .inr ⟨boot, out⟩
    · rintro (⟨x, hx, page⟩ | ⟨boot, out⟩)
      · exact ⟨.inl ⟨x, List.mem_of_mem_erase hx, page⟩,
          fun both => Set.disjoint_left.mp (away x hx) both page⟩
      · exact ⟨.inr boot, out⟩

end

/-! ## Whole runs -/

theorem Ledger.Reach.phase {info : BootInfo} {l : Ledger} (run : Reach info l) :
    Booting info l ∨ Running info l := by
  induction run with
  | init ok => exact .inl (.init ok)
  | alloc align _ some_page ih =>
      exact ih.imp (·.alloc align some_page) (·.alloc align some_page)
  | handOver _ unmapped inside ih =>
      obtain booting | running := ih
      · exact booting.handOver inside
      · have ready := running.ready
        rw [bmIsReady, unmapped] at ready
        cases ready
  | free _ _ mem ih => exact ih.imp (·.free mem) (·.free mem)

/-- In every reachable state the live extents have no page in common and lie in free memory, and
    the bitmap marks exactly the pages of live extents and those left from before it existed. -/
theorem ledger_sound {info : BootInfo} {l : Ledger} (run : Ledger.Reach info l) :
    l.live.Pairwise Apart ∧
    (∀ extent ∈ l.live, ∀ page ∈ extentPages extent, pmmIsFreeMemory info page = true) ∧
    (l.pmm.bmIsReady = true → ∀ k < l.pmm.covered,
      pmmIsAllocated l.pmm (l.pmm.pageAt k) = true ↔
        (∃ extent ∈ l.live, l.pmm.pageAt k ∈ extentPages extent) ∨ l.pmm.pageAt k ∈ l.boot) := by
  obtain booting | running := run.phase
  · obtain ⟨notReady, ⟨c, e, -, placed⟩, apart⟩ := booting
    refine ⟨apart, fun extent mem page hp => ?_, fun ready => ?_⟩
    · obtain ⟨s, here⟩ := placed extent mem
      exact here.freeMemory hp
    · rw [notReady] at ready
      cases ready
  · obtain ⟨ready, start_lt, fits, -, placed, apart, marked⟩ := running
    refine ⟨apart, fun extent mem page hp => ?_, fun _ k hk => ?_⟩
    · obtain ⟨s, here⟩ := placed extent mem
      exact here.freeMemory hp
    · rw [pmmIsAllocated_pageAt ready start_lt fits hk]
      exact marked k hk

/-- A machine with 16 pages of memory behind the kernel, in one record. -/
def smallMachine : BootInfo where
  kernelStart := 0x100000
  kernelEnd := 0x200000
  mbInfoStart := 0x1000
  mbInfoEnd := 0x2000
  mmapTagSize := 24
  mmapEntry _ := ⟨0, 0x210000, multibootMemoryAvailable⟩
  kernelEnd_pos := by decide
  kernelEnd_le := by decide

/-- Two pages from the cursor, the hand-over, two more pages from the bitmap, and the first
    two freed. -/
def smallRun : Ledger :=
  let start : Ledger := ⟨⟨⟨0x200000, 0x210000, 0x200000⟩, fun _ => 0, false, 4096, 0⟩, [], ∅⟩
  let booted := (start.alloc smallMachine 2 0).handOver
  (booted.alloc smallMachine 2 8192).free (0x200000, 2)

theorem ledger_sound_smallRun :
    smallRun.live.Pairwise Apart ∧
    (∀ extent ∈ smallRun.live, ∀ page ∈ extentPages extent,
      pmmIsFreeMemory smallMachine page = true) ∧
    (smallRun.pmm.bmIsReady = true → ∀ k < smallRun.pmm.covered,
      pmmIsAllocated smallRun.pmm (smallRun.pmm.pageAt k) = true ↔
        (∃ extent ∈ smallRun.live, smallRun.pmm.pageAt k ∈ extentPages extent) ∨
          smallRun.pmm.pageAt k ∈ smallRun.boot) := by
  refine ledger_sound (.free (.alloc 8192 (.handOver (.alloc 0 (.init ?_)
    (by decide)) ?_ ?_) (by decide)) ?_ ?_)
  · rfl
  · decide
  · decide
  · decide
  · decide

end Sdx.Mm
