import Sdx.Mm.PmmInit
import Sdx.Mm.PmmLedger

/-! # The page of the multiboot information

`paging_mb_data_addr` is the address that the loader was given, and only pages from it on are kept
from the allocator. The information begins in the page in front of it, if it begins inside a page.
-/

namespace Sdx.Mm

open Pmm

variable {info : BootInfo}

/-! ## The region stays where it is -/

/-- Another state of the same region. -/
structure SameRegion (p q : Pmm) : Prop where
  start : q.regFree.start = p.regFree.start
  bmSize : q.bmSize = p.bmSize

namespace SameRegion

variable {p q r : Pmm}

theorem refl (p : Pmm) : SameRegion p p := ⟨rfl, rfl⟩

theorem trans (first : SameRegion p q) (second : SameRegion q r) : SameRegion p r :=
  ⟨second.start.trans first.start, second.bmSize.trans first.bmSize⟩

theorem setRange (pos : PmmBmPos) (num : Nat) : SameRegion p (pmmBmSetRange p pos num) := by
  induction num generalizing p pos with
  | zero => exact .refl p
  | succ num ih =>
      have first : SameRegion p (p.bmPosSet pos) := ⟨rfl, rfl⟩
      exact first.trans (ih _)

theorem alloc (num align : Nat) : SameRegion p (pmmAlloc info p num align).2 := by
  unfold pmmAlloc
  split
  · exact ⟨rfl, rfl⟩
  · split
    · unfold pmmAllocNoBm
      dsimp only
      split <;> exact ⟨rfl, rfl⟩
    · dsimp only
      split
      · exact ⟨rfl, rfl⟩
      · split
        · exact setRange ..
        · exact .refl p

theorem freeLoop (pos : PmmBmPos) (val : Int) (num : Nat) :
    SameRegion p (pmmFreeLoop p pos val num).2 := by
  induction num generalizing p pos val with
  | zero => exact .refl p
  | succ num ih =>
      rw [pmmFreeLoop]
      split
      · exact .refl p
      · split
        · exact .refl p
        · have first : SameRegion p (p.bmPosClear pos) := ⟨rfl, rfl⟩
          exact first.trans (ih ..)

theorem free (paddr num : Nat) : SameRegion p (pmmFree p paddr num).2 := by
  unfold pmmFree
  split
  · exact .refl p
  · exact freeLoop ..

theorem mark : SameRegion p (pmmInitMark p) := by
  obtain ⟨bm, marked⟩ := @pmmInitMarkLoop_keeps { p with bm := fun _ => 0, bmMapped := true }
    ((p.regFree.pos - p.regFree.start) / pageSize + 1) ⟨0, 0⟩
  rw [pmmInitMark, marked]
  exact ⟨rfl, rfl⟩

end SameRegion

theorem Ledger.Reach.region {l : Ledger} (run : Reach info l) :
    ∃ p, pmmInitRegion info = .ok p ∧ SameRegion p l.pmm := by
  induction run with
  | init ok => exact ⟨_, ok, .refl _⟩
  | alloc align _ _ ih =>
      obtain ⟨p, ok, same⟩ := ih
      exact ⟨p, ok, same.trans (.alloc ..)⟩
  | handOver _ _ _ ih =>
      obtain ⟨p, ok, same⟩ := ih
      exact ⟨p, ok, same.trans .mark⟩
  | free _ _ _ ih =>
      obtain ⟨p, ok, same⟩ := ih
      exact ⟨p, ok, same.trans (.free ..)⟩

/-! ## The pages that are handed out -/

theorem pmmRegFree_start (info : BootInfo) :
    info.kernelEnd ≤ (pmmRegFree info).start ∧
      ∀ a, pageSize ∣ a → info.kernelEnd ≤ a → (pmmRegFree info).start ≤ a := by
  have pos := info.kernelEnd_pos
  have le := info.kernelEnd_le
  have start : (pmmRegFree info).start = roundUp info.kernelEnd pageSize := by
    rw [pmmRegFree, pmmInitReg, foldl_grow]
    simp only [pos, if_true]
    rfl
  have value : roundUp info.kernelEnd pageSize = (info.kernelEnd + 4095) / 4096 * 4096 := by
    rw [roundUp, if_neg (by decide), wrap64_of_lt (by rw [pageSize]; omega)]
    rfl
  rw [start, value]
  refine ⟨by omega, fun a dvd above => ?_⟩
  rw [pageSize] at dvd
  omega

theorem pmmInitRegion_eq {p : Pmm} (ok : pmmInitRegion info = .ok p) :
    p.regFree = pmmRegFree info ∧
      p.bmSize = roundUp ((pmmRegFree info).size / pageSize / 8) pageSize ∧
      (pmmRegFree info).isValid = true := by
  simp only [pmmInitRegion] at ok
  split at ok
  · cases ok
  · next valid =>
      cases ok
      have valid' : (pmmInitReg info).align.posReset.isValid = true := by simpa using valid
      exact ⟨rfl, rfl, valid'⟩

/-- The bitmap ends less than 2 ^ 27 bytes of memory behind the region. -/
theorem covered_le {p : Pmm} (ok : pmmInitRegion info = .ok p)
    (below : (pmmInitReg info).stop ≤ 2 ^ 63) :
    (pmmRegFree info).start + p.covered * pageSize < 2 ^ 64 := by
  obtain ⟨-, bmSize, valid⟩ := pmmInitRegion_eq ok
  have stop : (pmmRegFree info).stop ≤ 2 ^ 63 := (roundDown_le _ pageSize).trans below
  have gt : (pmmRegFree info).start < (pmmRegFree info).stop := by
    simp only [PmmReg.isValid, Bool.and_eq_true, decide_eq_true_eq] at valid
    exact valid.1.1
  have size : (pmmRegFree info).size = (pmmRegFree info).stop - (pmmRegFree info).start :=
    sub64_of_le (Nat.le_of_lt gt) (by omega)
  have rounded : roundUp ((pmmRegFree info).size / pageSize / 8) pageSize ≤
      (pmmRegFree info).size / pageSize / 8 + 4095 := by
    rw [roundUp, if_neg (by decide), Nat.add_sub_assoc (by decide)]
    exact (Nat.div_mul_le_self ..).trans (Nat.mod_le ..)
  rw [← bmSize] at rounded
  have covered : p.covered * pageSize ≤ p.bmSize * 8 * 4096 := by
    refine Nat.mul_le_mul_right 4096 ?_
    simp only [Pmm.covered, bmGetMaxIndex, pmmBmEntryBitSize]
    omega
  have pages : (pmmRegFree info).size / pageSize / 8 * 8 * 4096 ≤ (pmmRegFree info).size :=
    (Nat.mul_le_mul_right 4096 (Nat.div_mul_le_self ..)).trans (Nat.div_mul_le_self ..)
  omega

/-- What is handed out are whole pages of free memory behind the kernel. -/
theorem Ledger.Reach.pages {l : Ledger} (run : Reach info l) (below : (pmmInitReg info).stop ≤ 2 ^ 63)
    {extent : Nat × Nat} (live : extent ∈ l.live) {a : Nat} (inside : a ∈ extentPages extent) :
    pageSize ∣ a ∧ info.kernelEnd ≤ a ∧ pmmIsFreeMemory info a = true := by
  obtain ⟨p, ok, same⟩ := run.region
  obtain ⟨regFree, -⟩ := pmmInitRegion_eq ok
  obtain ⟨from_, -⟩ := pmmRegFree_start info
  have start : l.pmm.regFree.start = (pmmRegFree info).start := by rw [same.start, regFree]
  have dvd : pageSize ∣ (pmmRegFree info).start := dvd_roundUp _ (by decide)
  -- the positions of both phases are in front of the end of the address space
  obtain ⟨bound, placed, fits⟩ : ∃ bound, Placed info l.pmm bound extent ∧
      l.pmm.regFree.start + bound * pageSize ≤ 2 ^ 64 := by
    obtain booting | running := run.phase
    · obtain ⟨c, e, region, placed⟩ := booting.region
      refine ⟨c, placed extent live, ?_⟩
      have le := Nat.mul_le_mul_right pageSize region.le
      have lt := region.lt
      omega
    · refine ⟨_, running.placed extent live, ?_⟩
      have covered : l.pmm.covered = p.covered := by
        simp only [Pmm.covered, bmGetMaxIndex, same.bmSize]
      rw [start, covered]
      exact (covered_le ok below).le
  obtain ⟨s, here⟩ := placed
  refine ⟨?_, ?_, here.freeMemory inside⟩
  all_goals
    obtain ⟨j, -, hi, rfl⟩ := (here.mem_iff a).mp inside
    have lt : j < bound := hi.trans_le here.below
    have page := Nat.mul_lt_mul_of_pos_right lt (by decide : 0 < pageSize)
    rw [pageAt, wrap64_of_lt (by omega), start]
  · exact Nat.dvd_add dvd (Nat.dvd_mul_left ..)
  · omega

/-! ## Asking for a page -/

theorem pmmAllocNoBmLoop_skip {stop align k : Nat} (fuel a start : Nat)
    (below : a + k * pageSize ≤ stop) (fits : stop < 2 ^ 64)
    (off : ∀ j < k, pmmMisaligned (a + j * pageSize) align = true) :
    ∃ start', pmmAllocNoBmLoop info stop 1 align (fuel + k) a start 0 =
      pmmAllocNoBmLoop info stop 1 align fuel (a + k * pageSize) start' 0 := by
  induction k generalizing a start with
  | zero => exact ⟨start, by rw [Nat.zero_mul]; rfl⟩
  | succ k ih =>
      have first := off 0 (by omega)
      rw [Nat.zero_mul, Nat.add_zero] at first
      rw [Nat.succ_mul] at below
      have page : 0 < pageSize := by decide
      have next : wrap64 (a + pageSize) = a + pageSize := wrap64_of_lt (by omega)
      obtain ⟨start', rest⟩ := ih (a + pageSize) a (by omega) fun j lt => by
        have later := off (j + 1) (by omega)
        rwa [Nat.succ_mul, Nat.add_comm (j * pageSize), ← Nat.add_assoc] at later
      refine ⟨start', ?_⟩
      have sum : a + (k + 1) * pageSize = a + pageSize + k * pageSize := by
        rw [Nat.succ_mul]
        omega
      rw [sum, ← rest, ← Nat.add_assoc, pmmAllocNoBmLoop]
      simp only [gt_iff_lt, Nat.zero_lt_one, if_true, true_and, first, next]
      rw [if_neg (by omega)]

/-- A page of free memory behind the kernel is handed out first when it is asked for with its own
    address as the alignment. -/
theorem pmmAlloc_page {p : Pmm} {a : Nat} (ok : pmmInitRegion info = .ok p) (dvd : pageSize ∣ a)
    (behind : info.kernelEnd ≤ a) (inside : a + pageSize ≤ (pmmRegFree info).stop)
    (fits : (pmmRegFree info).stop < 2 ^ 64) (free : pmmIsFreeMemory info a = true) :
    ∃ q, pmmAlloc info p 1 a = (a, q) ∧ q.failed = p.failed := by
  have pos := info.kernelEnd_pos
  obtain ⟨regFree, -⟩ := pmmInitRegion_eq ok
  obtain ⟨notReady, -⟩ := pmmInitRegion_regionAt ok
  obtain ⟨above, least⟩ := pmmRegFree_start info
  have le := least a dvd behind
  have dvd' : pageSize ∣ (pmmRegFree info).start := dvd_roundUp _ (by decide)
  obtain ⟨k, page⟩ := Nat.dvd_sub dvd dvd'
  have at_ : a = (pmmRegFree info).start + k * pageSize := by
    rw [Nat.mul_comm k, ← page]
    omega
  have cursor : p.regFree.pos = (pmmRegFree info).start := by rw [regFree]; rfl
  have valid : pmmAlignInvalid a = false := by
    obtain ⟨j, rfl⟩ := dvd
    simp [pmmAlignInvalid, pageSize]
    omega
  have aligned : pmmMisaligned a a = false := by
    have some' : a ≠ 0 := by omega
    simp [pmmMisaligned, some']
  -- the pages in front of it are smaller than the alignment
  have off : ∀ j < k, pmmMisaligned ((pmmRegFree info).start + j * pageSize) a = true := by
    intro j lt
    have some' : a ≠ 0 := by omega
    have less := Nat.mul_lt_mul_of_pos_right lt (by decide : 0 < pageSize)
    have mod : ((pmmRegFree info).start + j * pageSize) % a = (pmmRegFree info).start + j * pageSize :=
      Nat.mod_eq_of_lt (by omega)
    simp [pmmMisaligned, some', mod]
    omega
  have count : k + 2 ≤ ((pmmRegFree info).stop - (pmmRegFree info).start) / pageSize + 1 := by
    refine Nat.succ_le_succ ((Nat.le_div_iff_mul_le (by decide)).mpr ?_)
    rw [Nat.succ_mul]
    omega
  obtain ⟨fuel, fuel_eq⟩ := Nat.exists_eq_add_of_le count
  obtain ⟨start', skipped⟩ := @pmmAllocNoBmLoop_skip info (pmmRegFree info).stop a k (fuel + 2)
    (pmmRegFree info).start 0 (by omega) fits off
  have steps : ((pmmRegFree info).stop - (pmmRegFree info).start) / pageSize + 1 = fuel + 2 + k := by
    omega
  have taken : pmmAllocNoBmLoop info (pmmRegFree info).stop 1 a (fuel + 2) a start' 0 =
      (a + pageSize, a, 1) := by
    have page : 0 < pageSize := by decide
    have next : wrap64 (a + pageSize) = a + pageSize := wrap64_of_lt (by omega)
    have before : ¬ a ≥ (pmmRegFree info).stop := by omega
    simp [pmmAllocNoBmLoop, aligned, free, next, before]
  refine ⟨{ p with regFree := { pmmRegFree info with pos := a + pageSize } }, ?_, rfl⟩
  rw [pmmAlloc, valid, notReady]
  simp only [Bool.false_eq_true, if_false, Bool.not_false, if_true]
  rw [pmmAllocNoBm, cursor, regFree, steps, skipped, ← at_, taken]
  rfl

/-- The region reaches to the end of every page of free memory. -/
theorem inside_of_free {a : Nat} (dvd : pageSize ∣ a) (fits : a + pageSize < 2 ^ 64)
    (free : pmmIsFreeMemory info a = true) : a + pageSize ≤ (pmmRegFree info).stop := by
  -- the first record that makes the page free memory
  obtain ⟨map, mem, type, high⟩ : ∃ map ∈ pmmForeachMbMmapEntry info,
      map.type = multibootMemoryAvailable ∧ a + pageSize ≤ wrap64 (map.addr + map.len) := by
    unfold pmmIsFreeMemory at free
    split at free
    · cases free
    · split at free
      · cases free
      · split at free
        · cases free
        · obtain ⟨map, mem, frees⟩ := List.any_eq_true.mp free
          simp only [Bool.and_eq_true, beq_iff_eq, Bool.not_eq_true', Bool.or_eq_false_iff,
            decide_eq_false_iff_not, wrap64_of_lt fits] at frees
          exact ⟨map, mem, frees.1, by omega⟩
  have reach : map.reach = wrap64 (map.addr + map.len) := if_pos type
  have above : ∀ (maps : List MultibootMmapEntry) stop, stop ≤
      maps.foldl (fun stop map => max stop map.reach) stop := by
    intro maps
    induction maps with
    | nil => exact fun stop => Nat.le_refl stop
    | cons map maps ih => exact fun stop => (Nat.le_max_left ..).trans (ih _)
  have le : ∀ (maps : List MultibootMmapEntry) stop, map ∈ maps → map.reach ≤
      maps.foldl (fun stop map => max stop map.reach) stop := by
    intro maps
    induction maps with
    | nil => exact nofun
    | cons other maps ih =>
        intro stop mem
        obtain rfl | mem := List.mem_cons.mp mem
        · exact (Nat.le_max_right ..).trans (above maps _)
        · exact ih _ mem
  have stop : (pmmInitReg info).stop =
      (pmmForeachMbMmapEntry info).foldl (fun stop map => max stop map.reach) 0 := by
    rw [pmmInitReg, foldl_grow]
  have far := le _ 0 mem
  rw [← stop, reach] at far
  have down : (pmmRegFree info).stop = (pmmInitReg info).stop / pageSize * pageSize := by
    have rounded : (pmmRegFree info).stop = roundDown (pmmInitReg info).stop pageSize := rfl
    rw [rounded, roundDown, if_neg (by decide)]
  obtain ⟨k, rfl⟩ := dvd
  rw [down, ← Nat.mul_succ, Nat.mul_comm pageSize]
  refine Nat.mul_le_mul_right pageSize ((Nat.le_div_iff_mul_le (by decide)).mpr ?_)
  rw [Nat.mul_comm, Nat.mul_succ]
  exact high.trans far

/-- In no run a page with a part of the multiboot information is handed out, if and only if the
    information begins on a page or the page that it begins in cannot be had at all: it ends in front
    of the kernel's end or is no free memory. -/
theorem info_kept_iff (below : (pmmInitReg info).stop ≤ 2 ^ 63)
    (addr : info.mbInfoStart < 2 ^ 32) (some' : info.mbInfoStart < info.mbInfoEnd) :
    (∀ l, Ledger.Reach info l → ∀ extent ∈ l.live, ∀ a ∈ extentPages extent,
      a + pageSize ≤ info.mbInfoStart ∨ info.mbInfoEnd ≤ a) ↔
    pageSize ∣ info.mbInfoStart ∨ info.mbInfoStart / pageSize * pageSize < info.kernelEnd ∨
      pmmIsFreeMemory info (info.mbInfoStart / pageSize * pageSize) = false := by
  have page : info.mbInfoStart / pageSize * pageSize ≤ info.mbInfoStart ∧
      info.mbInfoStart < info.mbInfoStart / pageSize * pageSize + pageSize := by
    rw [pageSize]
    omega
  have dvd : pageSize ∣ info.mbInfoStart / pageSize * pageSize := Nat.dvd_mul_left ..
  constructor
  · intro kept
    by_contra usable
    rw [not_or, not_or, Nat.not_lt, Bool.not_eq_false] at usable
    obtain ⟨off, behind, free⟩ := usable
    have fits : info.mbInfoStart / pageSize * pageSize + pageSize < 2 ^ 64 := by
      rw [pageSize]
      omega
    have inside := inside_of_free dvd fits free
    have stop : (pmmRegFree info).stop ≤ 2 ^ 63 := (roundDown_le _ pageSize).trans below
    obtain ⟨-, least⟩ := pmmRegFree_start info
    have start := least _ dvd behind
    have valid : (pmmRegFree info).isValid = true := by
      have pos : (pmmRegFree info).pos = (pmmRegFree info).start := rfl
      have size : 0 < pageSize := by decide
      simp only [PmmReg.isValid, pos, Bool.and_eq_true, decide_eq_true_eq]
      omega
    rw [pmmRegFree] at valid
    obtain ⟨p, ok⟩ : ∃ p, pmmInitRegion info = .ok p := by
      refine ⟨_, if_neg ?_⟩
      rw [valid]
      decide
    obtain ⟨q, taken, same⟩ := pmmAlloc_page ok dvd behind inside (by omega) free
    have run := Ledger.Reach.alloc (info.mbInfoStart / pageSize * pageSize) (.init ok) (Nat.le_refl 1)
    have live : (info.mbInfoStart / pageSize * pageSize, 1) ∈ (Ledger.alloc info ⟨p, [], ∅⟩ 1
        (info.mbInfoStart / pageSize * pageSize)).live := by
      simp only [Ledger.alloc, taken, same, if_true]
      exact List.mem_cons_self
    have here : info.mbInfoStart / pageSize * pageSize ∈
        extentPages (info.mbInfoStart / pageSize * pageSize, 1) := by
      refine ⟨0, Nat.one_pos, ?_⟩
      rw [Nat.zero_mul, Nat.add_zero, wrap64_of_lt (by omega)]
    have apart := kept _ run _ live _ here
    rw [Nat.dvd_iff_div_mul_eq] at off
    omega
  · rintro usable l run extent live a inside
    obtain ⟨dvd', behind, free⟩ := run.pages below live inside
    by_contra overlaps
    rw [not_or, Nat.not_le, Nat.not_le] at overlaps
    -- a page that the code keeps begins in the information
    have outside : a < info.mbInfoStart := by
      by_contra from_
      have reserved : (decide (info.mbInfoStart ≤ a) && decide (info.mbInfoEnd > a)) = true := by
        simp only [Bool.and_eq_true, decide_eq_true_eq]
        omega
      unfold pmmIsFreeMemory at free
      rw [if_pos reserved] at free
      split at free
      · cases free
      · split at free <;> cases free
    have first : a = info.mbInfoStart / pageSize * pageSize := by
      obtain ⟨k, rfl⟩ := dvd'
      rw [pageSize] at *
      omega
    obtain aligned | front | used := usable
    · rw [Nat.dvd_iff_div_mul_eq] at aligned
      omega
    · omega
    · rw [← first, free] at used
      cases used

/-! ### Information inside a page -/

/-- The information begins 16 bytes behind the start of the page behind the kernel. -/
def insideMachine : BootInfo := { smallMachine with mbInfoStart := 0x200010, mbInfoEnd := 0x201000 }

theorem info_kept_iff_inside : ¬ ∀ l, Ledger.Reach insideMachine l → ∀ extent ∈ l.live,
    ∀ a ∈ extentPages extent, a + pageSize ≤ 0x200010 ∨ 0x201000 ≤ a := by
  refine (@info_kept_iff insideMachine ?_ ?_ ?_).not.mpr ?_
  · decide
  · decide
  · decide
  · decide

end Sdx.Mm
