import Sdx.Lib.Scan
import Sdx.Mm.Pmm
import Mathlib.Data.List.Basic

/-! # The bitmap as a flat sequence of positions

A position of the bitmap is a word and a bit. Read as one number it is the page's
distance from `pmm_reg_free.start`, and each loop of `pmm.c` is one statement about
flat positions; the carry between words is gone from here on.
-/

namespace Sdx.Mm

open Sdx.Lib.Scan

/-! ## Flat positions -/

/-- The position with flat number `k`. -/
def PmmBmPos.ofFlat (k : Nat) : PmmBmPos := ⟨k % 64, k / 64⟩

namespace Pmm

/-- The number of pages the bitmap has a bit for. -/
def covered (p : Pmm) : Nat := p.bmGetMaxIndex * pmmBmEntryBitSize

/-- The bit of the flat position `k`. -/
def bitAt (p : Pmm) (k : Nat) : Bool := (p.bm (k / 64)).getLsbD (k % 64)

/-- The address of the page with flat position `k`. The bitmap's size is rounded up, so its
    last positions can be behind the end of the address space. -/
def pageAt (p : Pmm) (k : Nat) : Nat := wrap64 (p.regFree.start + k * pageSize)

/-- What `__pmm_bm_pos_next` reads at `k`: the bit, or an error at the end. -/
def valAt (p : Pmm) (k : Nat) : Int :=
  if k < p.covered then (if p.bitAt k then 1 else 0) else -eRANGE

theorem bmPosGet_ofFlat (p : Pmm) (k : Nat) :
    p.bmPosGet (.ofFlat k) = if p.bitAt k then 1 else 0 := by
  simp only [bmPosGet, PmmBmPos.ofFlat, bitAt, BitVec.and_one_eq_setWidth_ofBool_getLsbD,
    BitVec.getLsbD_ushiftRight, Nat.add_zero]
  by_cases bit : (p.bm (k / 64)).getLsbD (k % 64) <;> simp [bit]

theorem bmPosGet_eq_valAt {p : Pmm} {k : Nat} (inside : k < p.covered) :
    p.bmPosGet (.ofFlat k) = p.valAt k := by
  simp [bmPosGet_ofFlat, valAt, inside]

theorem bmPosNext_ofFlat {p : Pmm} (ready : p.bmIsReady) (k : Nat) :
    p.bmPosNext (.ofFlat k) = (.ofFlat (k + 1), p.valAt (k + 1)) := by
  have step : (if k % 64 + 1 ≥ 64 then (⟨0, k / 64 + 1⟩ : PmmBmPos) else ⟨k % 64 + 1, k / 64⟩) =
      .ofFlat (k + 1) := by
    split <;> simp only [PmmBmPos.ofFlat, PmmBmPos.mk.injEq] <;> omega
  have inside : p.bmGetMaxIndex ≤ (k + 1) / 64 ↔ ¬ k + 1 < p.covered := by
    simp only [covered, pmmBmEntryBitSize]
    omega
  simp only [bmPosNext, ready, Bool.not_true, Bool.false_eq_true, if_false]
  rw [show PmmBmPos.ofFlat k = ⟨k % 64, k / 64⟩ from rfl]
  simp only [pmmBmEntryBitSize, step, valAt, ← bmPosGet_ofFlat, ge_iff_le]
  rw [show (PmmBmPos.ofFlat (k + 1)).index = (k + 1) / 64 from rfl]
  simp only [inside]
  split <;> simp_all

theorem bmPosToAddr_ofFlat (p : Pmm) (k : Nat) : p.bmPosToAddr (.ofFlat k) = p.pageAt k := by
  have flat : k % 64 + k / 64 * 64 = k := by omega
  simp only [bmPosToAddr, PmmBmPos.ofFlat, pmmBmEntryBitSize, flat, pageAt]

theorem bmPosFromAddr_pageAt {p : Pmm} (ready : p.bmIsReady) (start_lt : p.regFree.start < 2 ^ 64)
    {k : Nat} (inside : k < p.covered) (fits : p.covered ≤ 2 ^ 52) :
    p.bmPosFromAddr (p.pageAt k) = some (.ofFlat k) := by
  have page : sub64 (p.pageAt k) p.regFree.start / pageSize = k := by
    simp only [sub64, pageAt, wrap64, pageSize]
    omega
  have valid : p.bmGetMaxIndex > k / 64 := by
    simp only [covered, pmmBmEntryBitSize] at inside
    omega
  simp [bmPosFromAddr, ready, page, pmmBmEntryBitSize, bmPosIsValid, PmmBmPos.ofFlat, valid]

theorem bitAt_bmPosSet (p : Pmm) (j k : Nat) :
    (p.bmPosSet (.ofFlat k)).bitAt j = (p.bitAt j || decide (j = k)) := by
  simp only [bitAt, bmPosSet, PmmBmPos.ofFlat, Function.update_apply]
  split
  · next word =>
      simp only [BitVec.getLsbD_or, BitVec.getLsbD_shiftLeft, BitVec.getLsbD_one, word]
      congr 1
      grind
  · next word =>
      have off : j ≠ k := fun same => word (same ▸ rfl)
      simp [off]

theorem bitAt_bmPosClear (p : Pmm) (j k : Nat) :
    (p.bmPosClear (.ofFlat k)).bitAt j = (p.bitAt j && !decide (j = k)) := by
  simp only [bitAt, bmPosClear, PmmBmPos.ofFlat, Function.update_apply]
  split
  · next word =>
      simp only [BitVec.getLsbD_and, BitVec.getLsbD_not, BitVec.getLsbD_shiftLeft,
        BitVec.getLsbD_one, word]
      congr 1
      grind
  · next word =>
      have off : j ≠ k := fun same => word (same ▸ rfl)
      simp [off]

theorem pageAt_of_lt {p : Pmm} {k : Nat} (fits : p.regFree.start + k * pageSize < 2 ^ 64) :
    p.pageAt k = p.regFree.start + k * pageSize := wrap64_of_lt fits

theorem pageAt_lt {p : Pmm} {j k : Nat} (h : j < k)
    (fits : p.regFree.start + k * pageSize < 2 ^ 64) : p.pageAt j < p.pageAt k := by
  simp only [pageAt, pageSize, wrap64] at *
  omega

theorem pageAt_inj {p : Pmm} {j k : Nat} (hj : j < 2 ^ 52) (hk : k < 2 ^ 52)
    (h : p.pageAt j = p.pageAt k) : j = k := by
  simp only [pageAt, pageSize, wrap64] at h
  omega

theorem pageAt_add (p : Pmm) (k n : Nat) :
    wrap64 (p.pageAt k + n * pageSize) = p.pageAt (k + n) := by
  simp only [pageAt, pageSize, wrap64]
  omega

end Pmm

/-! ## The loops over flat positions -/

open Pmm

/-- A page `pmm_alloc` may hand out: its bit is clear and its memory is free memory. -/
def Pmm.Available (boot : BootInfo) (p : Pmm) (k : Nat) : Prop :=
  k < p.covered ∧ p.bitAt k = false ∧ pmmIsFreeMemory boot (p.pageAt k) = true

/-- The run of pages that `pmm_alloc` looks for, at the flat position `s`. -/
def Pmm.Extent (boot : BootInfo) (p : Pmm) (num align s : Nat) : Prop :=
  FitsAt p.pageAt (fun a => pmmMisaligned a align = false) (p.Available boot) num s

/-- The scan of `pmm_alloc` finds the first extent, or that there is none. The budget is one step
    for every place and one for the end. -/
theorem pmmAllocLoop_first {boot : BootInfo} {p : Pmm} {num align fuel k start cur : Nat}
    (ready : p.bmIsReady) (some_page : 0 < num)
    (first : FirstAt p.pageAt (fun a => pmmMisaligned a align = false) (p.Available boot) num k
      start cur) (le : cur ≤ num) (inside : k ≤ p.covered) (enough : p.covered < k + fuel)
    {start' cur' : Nat}
    (done : pmmAllocLoop boot p num align fuel (.ofFlat k) (p.valAt k) start cur = (start', cur')) :
    (cur' = num ∧ ∃ s, start' = p.pageAt s ∧ p.Extent boot num align s ∧
      ∀ s', p.Extent boot num align s' → s ≤ s') ∨
    (cur' ≠ num ∧ ∀ s, ¬p.Extent boot num align s) := by
  induction fuel generalizing k start cur with
  | zero => omega
  | succ fuel ih =>
      rw [pmmAllocLoop] at done
      by_cases more : num > cur
      swap
      · rw [if_neg more] at done
        cases done
        obtain rfl : cur' = num := by omega
        exact .inl ⟨rfl, first.found some_page⟩
      rw [if_pos more] at done
      by_cases beyond : p.valAt k < 0
      · rw [if_pos beyond] at done
        cases done
        have outside : ¬k < p.covered := by
          intro inside
          simp only [valAt, inside, if_true] at beyond
          split at beyond <;> omega
        exact .inr ⟨by omega, first.none_fits more fun j le available => by
          have := available.1
          omega⟩
      rw [if_neg beyond] at done
      have below : k < p.covered := by
        by_contra outside
        simp [valAt, outside, eRANGE] at beyond
      simp only [bmPosNext_ofFlat ready, bmPosToAddr_ofFlat] at done
      by_cases skip : cur = 0 ∧ pmmMisaligned (if cur = 0 then p.pageAt k else start) align = true
      · rw [if_pos skip] at done
        obtain ⟨rfl, misaligned⟩ := skip
        simp only [if_true] at misaligned
        exact ih (first.skip (by simp [misaligned])) le below (by omega) done
      rw [if_neg skip] at done
      by_cases used : p.valAt k ≠ 0 ∨ (!pmmIsFreeMemory boot (p.pageAt k)) = true
      · rw [if_pos used] at done
        refine ih (first.reset more fun available => ?_) (Nat.zero_le _) below (by omega) done
        obtain ⟨-, clear, free⟩ := available
        simp [valAt, below, clear, free] at used
      rw [if_neg used] at done
      have here : p.Available boot k := by
        refine ⟨below, ?_, ?_⟩
        · by_contra set
          simp [valAt, below, set] at used
        · simpa using (not_or.mp used).2
      refine ih (first.extend (fun zero => ?_) here) more below (by omega) done
      simpa [zero] using skip

theorem pmmBmSetRange_spec {p : Pmm} (ready : p.bmIsReady) (s num : Nat) :
    ∃ bm, pmmBmSetRange p (.ofFlat s) num = { p with bm := bm } ∧
      ∀ j, { p with bm := bm }.bitAt j = (p.bitAt j || decide (s ≤ j ∧ j < s + num)) := by
  induction num generalizing p s with
  | zero =>
      exact ⟨p.bm, rfl, fun j => by simp [show ¬ (s ≤ j ∧ j < s) by omega]⟩
  | succ num ih =>
      obtain ⟨bm, range, bits⟩ := ih (p := p.bmPosSet (.ofFlat s)) ready (s + 1)
      refine ⟨bm, ?_, fun j => ?_⟩
      · rw [pmmBmSetRange, bmPosNext_ofFlat ready, range]
        rfl
      · refine (bits j).trans ?_
        rw [bitAt_bmPosSet, Bool.or_assoc, ← Bool.decide_or]
        congr 2
        grind

/-- The loop of `pmm_free` at a page that is allocated. -/
theorem pmmFreeLoop_succ {p : Pmm} (ready : p.bmIsReady) {s num : Nat} (inside : s < p.covered)
    (here : p.bitAt s = true) : pmmFreeLoop p (.ofFlat s) (p.valAt s) (num + 1) =
      pmmFreeLoop (p.bmPosClear (.ofFlat s)) (.ofFlat (s + 1))
        ((p.bmPosClear (.ofFlat s)).valAt (s + 1)) num := by
  have one : p.valAt s = 1 := by simp [valAt, inside, here]
  rw [pmmFreeLoop, one]
  simp only [Int.reduceLT, if_false, Int.one_ne_zero]
  rw [bmPosNext_ofFlat (p := p.bmPosClear (.ofFlat s)) ready]

theorem bitAt_clear_range {p : Pmm} {s t j : Nat} (before : s < t) :
    ((p.bmPosClear (.ofFlat s)).bitAt j && !decide (s + 1 ≤ j ∧ j < t)) =
      (p.bitAt j && !decide (s ≤ j ∧ j < t)) := by
  rw [bitAt_bmPosClear, Bool.and_assoc, ← Bool.not_or, ← Bool.decide_or]
  congr 3
  grind

theorem pmmFreeLoop_spec {p : Pmm} (ready : p.bmIsReady) {s num : Nat}
    (set : ∀ j, s ≤ j → j < s + num → j < p.covered ∧ p.bitAt j = true) :
    ∃ bm, pmmFreeLoop p (.ofFlat s) (p.valAt s) num = (0, { p with bm := bm }) ∧
      ∀ j, { p with bm := bm }.bitAt j = (p.bitAt j && !decide (s ≤ j ∧ j < s + num)) := by
  induction num generalizing p s with
  | zero =>
      exact ⟨p.bm, rfl, fun j => by simp [show ¬ (s ≤ j ∧ j < s) by omega]⟩
  | succ num ih =>
      obtain ⟨inside, here⟩ := set s (Nat.le_refl s) (by omega)
      obtain ⟨bm, free, bits⟩ := @ih (p.bmPosClear (.ofFlat s)) ready (s + 1) (fun j lo hi => by
        obtain ⟨inside, bit⟩ := set j (by omega) (by omega)
        refine ⟨inside, ?_⟩
        have off : j ≠ s := by omega
        simp [bitAt_bmPosClear, bit, off])
      refine ⟨bm, (pmmFreeLoop_succ ready inside here).trans free, fun j => (bits j).trans ?_⟩
      rw [Nat.add_assoc, Nat.add_comm 1 num]
      exact bitAt_clear_range (by omega)

theorem pmmInitMarkLoop_spec {p : Pmm} (ready : p.bmIsReady) {c : Nat}
    (cursor : p.regFree.pos = p.pageAt c) (fits : p.regFree.start + c * pageSize < 2 ^ 64)
    {fuel k : Nat}
    (le : k ≤ c) (enough : c - k < fuel) :
    ∃ bm, pmmInitMarkLoop p fuel (.ofFlat k) = { p with bm := bm } ∧
      ∀ j, { p with bm := bm }.bitAt j = (p.bitAt j || decide (k ≤ j ∧ j < c)) := by
  induction fuel generalizing p k with
  | zero => omega
  | succ fuel ih =>
      rw [pmmInitMarkLoop]
      by_cases last : k = c
      · subst last
        rw [bmPosToAddr_ofFlat, if_neg (by omega)]
        exact ⟨p.bm, rfl, fun j => by
          have none : ¬ (k ≤ j ∧ j < k) := by omega
          simp only [none, decide_false, Bool.or_false]⟩
      · have before : k < c := by omega
        have below := pageAt_lt before fits
        rw [bmPosToAddr_ofFlat, if_pos (by omega), bmPosNext_ofFlat ready]
        obtain ⟨bm, mark, bits⟩ := ih (p := p.bmPosSet (.ofFlat k)) (k := k + 1) ready cursor fits
          (by omega) (by omega)
        refine ⟨bm, mark, fun j => (bits j).trans ?_⟩
        rw [bitAt_bmPosSet, Bool.or_assoc, ← Bool.decide_or]
        congr 2
        grind

theorem pmmAllocNoBmLoop_run {boot : BootInfo} {p : Pmm} {num align : Nat} {low e : Nat}
    (some_page : 0 < num) {fuel k start cur : Nat}
    (run : RunAt p.pageAt (fun a => pmmMisaligned a align = false)
      (fun j => low ≤ j ∧ j < e ∧ pmmIsFreeMemory boot (p.pageAt j) = true) k start cur)
    (lower : low ≤ k) (upper : k ≤ e) {pos' start' : Nat}
    (done : pmmAllocNoBmLoop boot (p.pageAt e) num align fuel (p.pageAt k) start cur =
      (pos', start', num)) :
    ∃ s, start' = p.pageAt s ∧ pos' = p.pageAt (s + num) ∧ pmmMisaligned start' align = false ∧
      ∀ j, s ≤ j → j < s + num → low ≤ j ∧ j < e ∧ pmmIsFreeMemory boot (p.pageAt j) = true := by
  have finish : ∀ k, RunAt p.pageAt (fun a => pmmMisaligned a align = false)
      (fun j => low ≤ j ∧ j < e ∧ pmmIsFreeMemory boot (p.pageAt j) = true) k start' num →
      pos' = p.pageAt k →
      ∃ s, start' = p.pageAt s ∧ pos' = p.pageAt (s + num) ∧ pmmMisaligned start' align = false ∧
        ∀ j, s ≤ j → j < s + num →
          low ≤ j ∧ j < e ∧ pmmIsFreeMemory boot (p.pageAt j) = true := by
    rintro k run rfl
    obtain ⟨s, rfl, start_eq, aligned, all⟩ := run.found some_page
    exact ⟨s, start_eq, rfl, aligned, all⟩
  induction fuel generalizing k start cur with
  | zero =>
      obtain ⟨rfl, rfl, rfl⟩ := by simpa [pmmAllocNoBmLoop] using done
      exact finish k run rfl
  | succ fuel ih =>
      rw [pmmAllocNoBmLoop] at done
      by_cases more : num > cur
      swap
      · rw [if_neg more] at done
        obtain ⟨rfl, rfl, rfl⟩ := by simpa using done
        exact finish k run rfl
      rw [if_pos more] at done
      by_cases beyond : p.pageAt k ≥ p.pageAt e
      · rw [if_pos beyond] at done
        obtain ⟨rfl, rfl, rfl⟩ := by simpa using done
        exact finish k run rfl
      rw [if_neg beyond] at done
      have inside : k < e := Nat.lt_of_le_of_ne upper (fun same => beyond (same ▸ Nat.le_refl _))
      have next : wrap64 (p.pageAt k + pageSize) = p.pageAt (k + 1) := by
        simpa only [Nat.one_mul] using p.pageAt_add k 1
      simp only [next] at done
      by_cases skip : cur = 0 ∧ pmmMisaligned (if cur = 0 then p.pageAt k else start) align = true
      · rw [if_pos skip] at done
        exact ih (.empty skip.1) (by omega) inside done
      rw [if_neg skip] at done
      by_cases used : (!pmmIsFreeMemory boot (p.pageAt k)) = true
      · rw [if_pos used] at done
        exact ih (.empty rfl) (by omega) inside done
      rw [if_neg used] at done
      refine ih (run.extend (fun zero => ?_) ⟨lower, inside, by simpa using used⟩) (by omega) inside
        done
      simpa [zero] using skip

/-! ## The functions over flat positions -/

/-- In bitmap mode `pmm_alloc` either fails or takes a run of available pages. -/
theorem pmmAlloc_bm (boot : BootInfo) {p : Pmm} {num : Nat} (align : Nat) (ready : p.bmIsReady)
    (start_lt : p.regFree.start < 2 ^ 64) (fits : p.covered ≤ 2 ^ 52) (nonempty : 0 < p.covered)
    (some_page : 0 < num) :
    pmmAlloc boot p num align = (0, p.fail) ∨
    ∃ s bm, pmmAlloc boot p num align = (p.pageAt s, { p with bm := bm }) ∧
      (∀ j, s ≤ j → j < s + num → p.Available boot j) ∧
      ∀ j, { p with bm := bm }.bitAt j = (p.bitAt j || decide (s ≤ j ∧ j < s + num)) := by
  rw [pmmAlloc]
  split
  · exact .inl rfl
  simp only [ready, Bool.not_true, Bool.false_eq_true, if_false]
  rw [show (⟨0, 0⟩ : PmmBmPos) = .ofFlat 0 from rfl, bmPosGet_eq_valAt nonempty]
  rcases result : pmmAllocLoop boot p num align (p.bmGetMaxIndex * pmmBmEntryBitSize + 1)
    (.ofFlat 0) (p.valAt 0) 0 0 with ⟨start, cur⟩
  have scanned := pmmAllocLoop_first ready some_page .init (Nat.zero_le _) (Nat.zero_le _)
    (by rw [covered]; omega) result
  rcases scanned with ⟨rfl, s, rfl, ⟨-, all⟩, -⟩ | ⟨short, -⟩
  · have inside := (all s (Nat.le_refl s) (by omega)).1
    have addr := bmPosFromAddr_pageAt ready start_lt inside fits
    obtain ⟨bm, range, bits⟩ := pmmBmSetRange_spec ready s cur
    exact .inr ⟨s, bm, by simp [addr, range], all, bits⟩
  · exact .inl (by simp [short])

/-- Before the bitmap exists `pmm_alloc` either fails or takes free memory behind the cursor. -/
theorem pmmAlloc_noBm (boot : BootInfo) {p : Pmm} {num low e : Nat} (align : Nat)
    (ready : p.bmIsReady = false) (stop : p.regFree.stop = p.pageAt e)
    (pos : p.regFree.pos = p.pageAt low) (le : low ≤ e) (some_page : 0 < num) :
    pmmAlloc boot p num align = (0, p.fail) ∨
    ∃ s, pmmAlloc boot p num align =
        (p.pageAt s, { p with regFree := { p.regFree with pos := p.pageAt (s + num) } }) ∧
      ∀ j, s ≤ j → j < s + num →
        low ≤ j ∧ j < e ∧ pmmIsFreeMemory boot (p.pageAt j) = true := by
  rw [pmmAlloc]
  split
  · exact .inl rfl
  simp only [ready, Bool.not_false, if_true, pmmAllocNoBm]
  rw [stop, pos]
  rcases result : pmmAllocNoBmLoop boot (p.pageAt e) num align
    ((p.pageAt e - p.pageAt low) / pageSize + 1) (p.pageAt low) 0 0 with ⟨pos', start', cur⟩
  by_cases enough : cur = num
  · subst enough
    obtain ⟨s, rfl, rfl, -, all⟩ :=
      pmmAllocNoBmLoop_run some_page (.empty rfl) (Nat.le_refl low) le result
    exact .inr ⟨s, by simp, all⟩
  · exact .inl (by simp [enough])

/-- Freeing pages that are all marked clears exactly them and succeeds. -/
theorem pmmFree_marked {p : Pmm} {s num : Nat} (ready : p.bmIsReady)
    (start_lt : p.regFree.start < 2 ^ 64) (fits : p.covered ≤ 2 ^ 52) (some_page : 0 < num)
    (set : ∀ j, s ≤ j → j < s + num → j < p.covered ∧ p.bitAt j = true) :
    ∃ bm, pmmFree p (p.pageAt s) num = (0, { p with bm := bm }) ∧
      ∀ j, { p with bm := bm }.bitAt j = (p.bitAt j && !decide (s ≤ j ∧ j < s + num)) := by
  have inside := (set s (Nat.le_refl s) (by omega)).1
  have addr := bmPosFromAddr_pageAt ready start_lt inside fits
  obtain ⟨bm, free, bits⟩ := pmmFreeLoop_spec ready set
  exact ⟨bm, by simp [pmmFree, addr, bmPosGet_eq_valAt inside, free], bits⟩

theorem pmmIsAllocated_pageAt {p : Pmm} (ready : p.bmIsReady) (start_lt : p.regFree.start < 2 ^ 64)
    (fits : p.covered ≤ 2 ^ 52) {k : Nat} (inside : k < p.covered) :
    pmmIsAllocated p (p.pageAt k) = p.bitAt k := by
  have addr := bmPosFromAddr_pageAt ready start_lt inside fits
  simp only [pmmIsAllocated, addr, bmPosGet_ofFlat]
  cases p.bitAt k <;> rfl

end Sdx.Mm
