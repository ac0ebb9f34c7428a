import Sdx.Lib.Run
import Sdx.Lib.Trace
import Sdx.Mm.PageCount
import Sdx.Mm.VmmSync
import Sdx.Video.Fb

/-! # The bytes of the framebuffer that are accessed (`video/fb.c`)

The console again, with the offset of each byte it reads or writes. `fb_init` maps as many pages as
the cells would need if each were one byte, so that the buffer can be left; nothing stops an access
behind its end here.
-/

namespace Sdx.Video

open Sdx.Lib Sdx.Lib.Trace Sdx.Mm

/-- What `fb_init` reads of a `struct multiboot_tag_framebuffer_common`. -/
structure FbTag where
  framebufferAddr : BitVec 64
  framebufferWidth : BitVec 32
  framebufferHeight : BitVec 32
  framebufferBpp : UInt8

/-- The console with the number of pages that are mapped for its buffer, and the offsets of the bytes
    the last call accessed. -/
structure FbConsole where
  fb : Fb
  addr : BitVec 64
  pages : Nat
  accessed : List Nat

/-- `fb_init`; `screen` is the screen before it, with the cells that are then the buffer. -/
def fbInit (boot : BootInfo) (s : Vmm) (fuel : Nat) (screen : Fb) :
    Option FbTag → Option (Except Int FbConsole × Vmm)
  | none => some (.error (-eINVAL), s)
  | some tag =>
      if tag.framebufferBpp.toNat ≠ fbSupportedCharSize * 8 then some (.error (-eINVAL), s)
      else do
        let fb : Fb :=
          { screen with
            width := tag.framebufferWidth.toNat
            height := tag.framebufferHeight.toNat
            x := 0
            y := 0
            color := 0 }
        let pages := vmmCalc (wrap32 (fb.width * fb.height))
        let (addr, s) ← vmmMapPaddr boot s fuel tag.framebufferAddr pages vmmAttrNoCache
        if addr = 0 then some (.error (-eFAULT), s) else some (.ok ⟨fb, addr, pages, []⟩, s)

/-! ## The calls with their accesses -/

/-- Reading `__fb_buf16()[i]`. -/
def fbGet (fb : Fb) (i : Nat) : Traced Nat FbCell := ⟨fb.cells i, [2 * i, 2 * i + 1]⟩

/-- Writing `__fb_buf16()[i]`. -/
def fbSet (fb : Fb) (i : Nat) (cell : FbCell) : Traced Nat Fb :=
  ⟨fb.withCells (Function.update fb.cells i cell), [2 * i, 2 * i + 1]⟩

/-- Writing `__fb_buf8()[p]`. -/
def fbSetByte (fb : Fb) (p : Nat) (b : UInt8) : Traced Nat Fb :=
  let cell := fb.cells (p / 2)
  ⟨fb.withCells (Function.update fb.cells (p / 2)
    (if p % 2 = 0 then { cell with char := b } else { cell with color := b })), [p]⟩

def fbZeroTraced (fb : Fb) (i : Nat) : Nat → Traced Nat Fb
  | 0 => pure fb
  | n + 1 => do
      let fb ← fbSet fb i ⟨0, 0⟩
      fbZeroTraced fb (i + 1) n

/-- `fb_clear`. -/
def fbClearTraced (fb : Fb) : Traced Nat Fb := do
  let fb ← fbZeroTraced fb 0 (wrap32 (fb.width * fb.height))
  pure { fb with x := 0, y := 0 }

def fbCopyLineTraced (fb : Fb) (i : Nat) : Nat → Traced Nat Fb
  | 0 => pure fb
  | n + 1 => do
      let cell ← fbGet fb (wrap32 (i + fb.width))
      let fb ← fbSet fb i cell
      fbCopyLineTraced fb (i + 1) n

def fbScrollLinesTraced (fb : Fb) (line : Nat) : Nat → Traced Nat Fb
  | 0 => pure fb
  | n + 1 => do
      let first := wrap32 (line * fb.width)
      let fb ←
        if line = pred32 fb.height then
          fbZeroTraced fb first (wrap32 (fb.width * fbSupportedCharSize) / 2)
        else fbCopyLineTraced fb first (wrap32 ((line + 1) * fb.width) - first)
      fbScrollLinesTraced fb (line + 1) n

/-- `__fb_scroll`. -/
def fbScrollTraced (fb : Fb) : Nat → Traced Nat (Option Fb)
  | 0 => pure none
  | fuel + 1 =>
      if fb.height > fb.y then pure (some fb)
      else do
        let fb ← fbScrollLinesTraced fb 0 fb.height
        fbScrollTraced { fb with y := pred32 fb.y } fuel

/-- `__fb_cursor_update`. -/
def fbCursorUpdateTraced (fb : Fb) : Traced Nat (Option Fb) := do
  match ← fbScrollTraced fb (fb.y + 1) with
  | none => pure none
  | some fb => do
      let pos := fb.cursorPos
      let cell ← fbGet fb pos
      let fb ← if cell.char = 0 then fbSet fb pos ⟨0, fb.color⟩ else pure fb
      pure (some { fb with locationLow := UInt8.ofNat pos, locationHigh := UInt8.ofNat (pos / 256) })

/-- The loop of `fb_cursor_set_pos`: `x` and `y`. -/
def fbCursorLoop (width : Nat) : Nat → Nat → Nat → Option (Nat × Nat)
  | 0, _, _ => none
  | fuel + 1, x, y =>
      if x > width then fbCursorLoop width fuel (x - width) (wrap32 (y + 1)) else some (x, y)

/-- `fb_cursor_set_pos`; the loop takes at least one off `x` each time. -/
def fbCursorSetPosTraced (fb : Fb) (x y : BitVec 32) : Traced Nat (Option Fb) :=
  match fbCursorLoop fb.width (x.toNat + 1) x.toNat y.toNat with
  | none => pure none
  | some (x, y) => fbCursorUpdateTraced { fb with x, y }

/-- `fb_write`. -/
def fbWriteTraced (fb : Fb) (c : UInt8) : Traced Nat (Option Fb) :=
  if c = newline then fbCursorUpdateTraced { fb with x := 0, y := wrap32 (fb.y + 1) }
  else if c = carriageReturn then fbCursorUpdateTraced { fb with x := 0 }
  else if c = 0 then pure (some fb)
  else do
    let pos := fb.pos
    let fb ← fbSetByte fb pos c
    let fb ← fbSetByte fb (wrap32 (pos + 1)) fb.color
    let x := wrap32 (fb.x + 1)
    fbCursorUpdateTraced (if x > pred32 fb.width then { fb with x := 0, y := wrap32 (fb.y + 1) }
      else { fb with x })

inductive FbCall where
  | write (c : UInt8)
  | clear
  | cursorSetPos (x y : BitVec 32)
  deriving DecidableEq

def fbCall (fb : Fb) : FbCall → Traced Nat (Option Fb)
  | .write c => fbWriteTraced fb c
  | .clear => do
      let fb ← fbClearTraced fb
      pure (some fb)
  | .cursorSetPos x y => fbCursorSetPosTraced fb x y

section

variable {fb fb' : Fb} {i n line p w : Nat} {cell : FbCell} {b c : UInt8}

/-! ## What the loops change -/

theorem fbZeroTraced_value : ∃ cells, (fbZeroTraced fb i n).value = fb.withCells cells := by
  induction n generalizing fb i with
  | zero => exact ⟨fb.cells, rfl⟩
  | succ n ih =>
      obtain ⟨cells, rest⟩ := @ih (fbSet fb i ⟨0, 0⟩).value (i + 1)
      exact ⟨cells, rest⟩

theorem fbCopyLineTraced_value : ∃ cells, (fbCopyLineTraced fb i n).value = fb.withCells cells := by
  induction n generalizing fb i with
  | zero => exact ⟨fb.cells, rfl⟩
  | succ n ih =>
      obtain ⟨cells, rest⟩ := @ih (fbSet fb i (fb.cells (wrap32 (i + fb.width)))).value (i + 1)
      exact ⟨cells, rest⟩

theorem fbScrollLinesTraced_value :
    ∃ cells, (fbScrollLinesTraced fb line n).value = fb.withCells cells := by
  induction n generalizing fb line with
  | zero => exact ⟨fb.cells, rfl⟩
  | succ n ih =>
      simp only [fbScrollLinesTraced]
      split
      · obtain ⟨cells, cleared⟩ := @fbZeroTraced_value fb (wrap32 (line * fb.width))
          (wrap32 (fb.width * fbSupportedCharSize) / 2)
        rw [Traced.value_bind, cleared]
        exact ih
      · obtain ⟨cells, copied⟩ := @fbCopyLineTraced_value fb (wrap32 (line * fb.width))
          (wrap32 ((line + 1) * fb.width) - wrap32 (line * fb.width))
        rw [Traced.value_bind, copied]
        exact ih

/-- Scrolling ends with the cursor on the screen. -/
theorem fbScrollTraced_value (rows : 1 ≤ fb.height) (enough : fb.y < n) : ∃ cells,
    (fbScrollTraced fb n).value =
      some { fb.withCells cells with y := min fb.y (fb.height - 1) } := by
  induction n generalizing fb with
  | zero => cases enough
  | succ n ih =>
      rw [fbScrollTraced]
      split
      · refine ⟨fb.cells, ?_⟩
        rw [Nat.min_eq_left (by omega)]
        rfl
      · obtain ⟨cells, lines⟩ := @fbScrollLinesTraced_value fb fb.height 0
        rw [Traced.value_bind, lines, pred32_eq (by simp; omega)]
        obtain ⟨cells', rest⟩ := @ih { fb.withCells cells with y := fb.y - 1 } rows (by simp; omega)
        refine ⟨cells', rest.trans ?_⟩
        simp only [Fb.withCells, Option.some.injEq, Fb.mk.injEq, true_and, and_true]
        omega

/-! ## Within the cells -/

/-- The byte is of a cell. -/
def Fb.Below (fb : Fb) (o : Nat) : Prop := o < fb.width * fb.height * fbSupportedCharSize

theorem Fb.below_iff {o : Nat} : fb.Below o ↔ o / 2 < fb.size := by
  rw [Fb.Below, Fb.size, fbSupportedCharSize]
  omega

theorem fbGet_follows : (fbGet fb i).Follows fb.Below (fb.get i) := by
  intro cell got
  obtain ⟨inside, ⟨⟩⟩ := Option.ite_none_right_eq_some.mp got
  refine ⟨rfl, fun o accessed => ?_⟩
  simp only [fbGet, List.mem_cons, List.not_mem_nil, or_false] at accessed
  rw [Fb.below_iff]
  omega

theorem fbSet_follows : (fbSet fb i cell).Follows fb.Below (fb.set i cell) := by
  intro fb' set
  obtain ⟨inside, ⟨⟩⟩ := Option.ite_none_right_eq_some.mp set
  refine ⟨rfl, fun o accessed => ?_⟩
  simp only [fbSet, List.mem_cons, List.not_mem_nil, or_false] at accessed
  rw [Fb.below_iff]
  omega

theorem fbSetByte_follows : (fbSetByte fb p b).Follows fb.Below (fb.setByte p b) := by
  intro fb' set
  obtain ⟨cell, got, set⟩ := Option.bind_eq_some_iff.mp set
  obtain ⟨inside, ⟨⟩⟩ := Option.ite_none_right_eq_some.mp got
  obtain ⟨-, ⟨⟩⟩ := Option.ite_none_right_eq_some.mp set
  refine ⟨rfl, fun o accessed => ?_⟩
  rw [List.mem_singleton.mp accessed, Fb.below_iff]
  exact inside

/-- A step of a loop, with the rest of it on the changed cells. -/
theorem fbZeroTraced_follows : (fbZeroTraced fb i n).Follows fb.Below (fbZero fb i n) := by
  induction n generalizing fb i with
  | zero => exact .pure
  | succ n ih =>
      refine .bind fbSet_follows fun fb₁ set => ?_
      obtain ⟨rfl, -⟩ := fbSet_follows fb₁ set
      exact ih

theorem fbCopyLineTraced_follows :
    (fbCopyLineTraced fb i n).Follows fb.Below (fbCopyLine fb i n) := by
  induction n generalizing fb i with
  | zero => exact .pure
  | succ n ih =>
      refine .bind fbGet_follows fun cell got => .bind fbSet_follows fun fb₁ set => ?_
      obtain ⟨rfl, -⟩ := fbSet_follows fb₁ set
      exact ih

theorem fbScrollLinesTraced_follows :
    (fbScrollLinesTraced fb line n).Follows fb.Below (fbScrollLines fb line n) := by
  induction n generalizing fb line with
  | zero => exact .pure
  | succ n ih =>
      refine .ite (fun _ => .bind fbZeroTraced_follows fun fb₁ cleared => ?_)
        (fun _ => .bind fbCopyLineTraced_follows fun fb₁ copied => ?_)
      · obtain ⟨rfl, -⟩ := fbZeroTraced_follows fb₁ cleared
        obtain ⟨cells, value⟩ := @fbZeroTraced_value fb (wrap32 (line * fb.width))
          (wrap32 (fb.width * fbSupportedCharSize) / 2)
        rw [value]
        exact ih
      · obtain ⟨rfl, -⟩ := fbCopyLineTraced_follows fb₁ copied
        obtain ⟨cells, value⟩ := @fbCopyLineTraced_value fb (wrap32 (line * fb.width))
          (wrap32 ((line + 1) * fb.width) - wrap32 (line * fb.width))
        rw [value]
        exact ih

/-- All lines are within the cells if the numbers do not wrap. -/
theorem fbScrollTraced_only (rows : 1 ≤ fb.height) (columns : 1 ≤ fb.width)
    (small : fb.size * fbSupportedCharSize < 2 ^ 32) : (fbScrollTraced fb n).Only fb.Below := by
  induction n generalizing fb with
  | zero => exact .pure
  | succ n ih =>
      rw [fbScrollTraced]
      split
      · exact .pure
      · have lines := fbScrollLines_eq (Nat.zero_mul _).symm (Nat.zero_add _) small columns
        obtain ⟨value, only⟩ := fbScrollLinesTraced_follows _ lines
        refine .bind only ?_
        rw [value]
        exact ih rows columns small

/-! ## The cursor -/

/-- The cell that `__fb_cursor_update` goes to. -/
def Fb.cursorCell (fb : Fb) : Nat := min fb.y (fb.height - 1) * fb.width + fb.x

theorem Fb.cursorCell_le (rows : 1 ≤ fb.height) (within : fb.x ≤ fb.width) :
    fb.cursorCell ≤ fb.size := by
  have upper : min fb.y (fb.height - 1) * fb.width ≤ (fb.height - 1) * fb.width :=
    Nat.mul_le_mul_right _ (Nat.min_le_right ..)
  have size : fb.size = (fb.height - 1) * fb.width + fb.width := by
    rw [Fb.size, ← Nat.succ_mul, Nat.mul_comm]
    congr
    omega
  rw [Fb.cursorCell]
  omega

/-- At the end of a line the cursor is on the next one, which the last line does not have. -/
theorem Fb.cursorCell_lt_iff (rows : 1 ≤ fb.height) (columns : 1 ≤ fb.width)
    (within : fb.x ≤ fb.width) :
    fb.cursorCell < fb.size ↔ fb.x < fb.width ∨ fb.y + 1 < fb.height := by
  obtain ⟨last, height⟩ : ∃ last, fb.height = last + 1 := ⟨fb.height - 1, by omega⟩
  have size : fb.size = last * fb.width + fb.width := by
    rw [Fb.size, height, Nat.mul_comm, Nat.succ_mul]
  rw [Fb.cursorCell, size, height, Nat.add_sub_cancel]
  by_cases above : fb.y < last
  · have next : (fb.y + 1) * fb.width ≤ last * fb.width := Nat.mul_le_mul_right _ above
    rw [Nat.succ_mul] at next
    rw [Nat.min_eq_left (by omega)]
    omega
  · rw [Nat.min_eq_right (by omega)]
    omega

/-- The cursor is on a cell, and the numbers of the cells and bytes do not wrap. -/
structure Fb.Placed (fb : Fb) : Prop where
  columns : 1 ≤ fb.width
  rows : 1 ≤ fb.height
  small : fb.size * fbSupportedCharSize < 2 ^ 32
  x_le : fb.x ≤ fb.width
  y_lt : fb.y < fb.height
  inside : fb.y * fb.width + fb.x < fb.size

theorem fbCursorUpdateTraced_value (rows : 1 ≤ fb.height) : ∃ fb',
    (fbCursorUpdateTraced fb).value = some fb' ∧ fb'.width = fb.width ∧ fb'.height = fb.height ∧
      fb'.x = fb.x ∧ fb'.y = min fb.y (fb.height - 1) := by
  obtain ⟨cells, scrolled⟩ := fbScrollTraced_value rows (Nat.lt_succ_self fb.y)
  simp only [fbCursorUpdateTraced, Traced.value_bind, scrolled]
  split
  · exact ⟨_, rfl, rfl, rfl, rfl, rfl⟩
  · exact ⟨_, rfl, rfl, rfl, rfl, rfl⟩

/-- A cursor update reads its cell. -/
theorem fbCursorUpdateTraced_reads (rows : 1 ≤ fb.height) (fits : fb.cursorCell < 2 ^ 32) :
    2 * fb.cursorCell ∈ (fbCursorUpdateTraced fb).requests := by
  obtain ⟨cells, scrolled⟩ := fbScrollTraced_value rows (Nat.lt_succ_self fb.y)
  rw [Fb.cursorCell] at fits
  simp [fbCursorUpdateTraced, scrolled, fbGet, Fb.cursorPos, wrap32, Fb.cursorCell]
  omega

theorem fbCursorUpdateTraced_only (rows : 1 ≤ fb.height) (columns : 1 ≤ fb.width)
    (small : fb.size * fbSupportedCharSize < 2 ^ 32) (inside : fb.cursorCell < fb.size) :
    (fbCursorUpdateTraced fb).Only fb.Below := by
  obtain ⟨cells, scrolled⟩ := fbScrollTraced_value rows (Nat.lt_succ_self fb.y)
  have cell (fb' : Fb) (at' : fb'.cursorPos = fb.cursorCell) (same : fb'.Below = fb.Below) :
      (fbGet fb' fb'.cursorPos).Only fb.Below ∧
        (fbSet fb' fb'.cursorPos ⟨0, fb'.color⟩).Only fb.Below := by
    constructor
    · intro o accessed
      simp only [fbGet, at', List.mem_cons, List.not_mem_nil, or_false] at accessed
      rw [Fb.below_iff]
      omega
    · intro o accessed
      simp only [fbSet, at', List.mem_cons, List.not_mem_nil, or_false] at accessed
      rw [Fb.below_iff]
      omega
  refine .bind (fbScrollTraced_only rows columns small) ?_
  rw [scrolled]
  have at' : Fb.cursorPos { fb.withCells cells with y := min fb.y (fb.height - 1) } =
      fb.cursorCell := by
    rw [Fb.cursorCell] at inside
    simp [Fb.cursorPos, Fb.cursorCell, wrap32, fbSupportedCharSize] at small ⊢
    omega
  obtain ⟨reads, writes⟩ := cell _ at' rfl
  refine .bind reads ?_
  split
  · exact .bind writes .pure
  · exact .pure

/-- What the loop of `fb_cursor_set_pos` leaves: a column from 1 on, unless it was 0. -/
theorem fbCursorLoop_eq {x y : Nat} (columns : 1 ≤ w) (enough : x < n) (fits : y < 2 ^ 32) :
    fbCursorLoop w n x y =
      some (if x = 0 then (0, y) else ((x - 1) % w + 1, wrap32 (y + (x - 1) / w))) := by
  induction n generalizing x y with
  | zero => cases enough
  | succ n ih =>
      rw [fbCursorLoop]
      split
      · next above =>
          have next : x - 1 = x - w - 1 + w := by omega
          have small : wrap32 (y + 1) < 2 ^ 32 := Nat.mod_lt _ (by decide)
          rw [ih (by omega) small, if_neg (by omega), if_neg (by omega), next, Nat.add_mod_right,
            Nat.add_div_right _ columns, wrap32, wrap32, Nat.mod_add_mod, wrap32, Nat.add_assoc,
            Nat.add_comm 1]
      · next within =>
          split
          · next zero => rw [zero]
          · have same : wrap32 (y + 0) = y := wrap32_of_lt fits
            rw [Nat.mod_eq_of_lt (by omega), Nat.div_eq_of_lt (by omega), same]
            congr 2
            omega

/-- `fb_cursor_set_pos` does not go to the end of the last line. -/
def EndsOnScreen (fb : Fb) : FbCall → Prop
  | .cursorSetPos x y => x.toNat = 0 ∨ x.toNat % fb.width ≠ 0 ∨
      wrap32 (y.toNat + (x.toNat / fb.width - 1)) + 1 < fb.height
  | _ => True

/-- The column is the last one behind a multiple of the width. -/
theorem column_lt_iff {x : Nat} (columns : 1 ≤ w) (nonzero : x ≠ 0) :
    (x - 1) % w + 1 < w ↔ x % w ≠ 0 := by
  obtain ⟨k, rfl⟩ := Nat.exists_eq_succ_of_ne_zero nonzero
  have below := Nat.mod_lt k columns
  rw [Nat.succ_sub_one, Nat.succ_eq_add_one, Nat.add_mod]
  by_cases last : k % w + 1 < w
  · rw [Nat.mod_eq_of_lt (show 1 < w by omega), Nat.mod_eq_of_lt last]
    omega
  · have whole : (k % w + 1 % w) % w = 0 := by
      rw [← Nat.add_mod, ← Nat.mod_add_mod, show k % w + 1 = w by omega, Nat.mod_self]
    omega

theorem row_eq {x : Nat} (columns : 1 ≤ w) (nonzero : x ≠ 0) (multiple : x % w = 0) :
    (x - 1) / w = x / w - 1 := by
  obtain ⟨k, rfl⟩ := Nat.dvd_of_mod_eq_zero multiple
  obtain ⟨k, rfl⟩ := Nat.exists_eq_succ_of_ne_zero (Nat.ne_zero_of_mul_ne_zero_right nonzero)
  have last : w * (k + 1) - 1 = w * k + (w - 1) := by
    rw [Nat.mul_succ]
    omega
  rw [last, Nat.mul_add_div columns, Nat.div_eq_of_lt (by omega), Nat.mul_div_cancel_left _ columns,
    Nat.add_zero, Nat.succ_sub_one]

/-- The place `fb_cursor_set_pos` goes to is on a cell exactly where it does not. -/
theorem fbCursorLoop_inside {x y : BitVec 32} (rows : 1 ≤ fb.height) (columns : 1 ≤ fb.width) :
    ∃ fb', fbCursorSetPosTraced fb x y = fbCursorUpdateTraced fb' ∧ fb'.width = fb.width ∧
      fb'.height = fb.height ∧ fb'.x ≤ fb.width ∧
      (fb'.cursorCell < fb'.size ↔ EndsOnScreen fb (.cursorSetPos x y)) := by
  rw [fbCursorSetPosTraced, fbCursorLoop_eq columns (Nat.lt_succ_self _) y.isLt]
  by_cases zero : x.toNat = 0
  · rw [if_pos zero]
    refine ⟨_, rfl, rfl, rfl, Nat.zero_le _, ?_⟩
    have cell := @Fb.cursorCell_lt_iff { fb with x := 0, y := y.toNat } rows columns (Nat.zero_le _)
    exact cell.trans (iff_of_true (.inl columns) (.inl zero))
  · have within : (x.toNat - 1) % fb.width + 1 ≤ fb.width := Nat.mod_lt _ columns
    rw [if_neg zero]
    refine ⟨_, rfl, rfl, rfl, within, ?_⟩
    refine (@Fb.cursorCell_lt_iff { fb with
      x := (x.toNat - 1) % fb.width + 1, y := wrap32 (y.toNat + (x.toNat - 1) / fb.width) }
      rows columns within).trans ?_
    simp only [EndsOnScreen, zero, false_or, column_lt_iff columns zero]
    refine or_congr_right' fun multiple => ?_
    rw [row_eq columns zero (not_not.mp multiple)]

/-! ## One call -/

/-- The call returns with the cursor on a cell, and accessed only cells. -/
def Keeps (fb : Fb) (call : Traced Nat (Option Fb)) : Prop :=
  ∃ fb', call.value = some fb' ∧ fb'.width = fb.width ∧ fb'.height = fb.height ∧ fb'.Placed ∧
    call.Only fb.Below

theorem fbCursorUpdateTraced_keeps (rows : 1 ≤ fb.height) (columns : 1 ≤ fb.width)
    (small : fb.size * fbSupportedCharSize < 2 ^ 32) (within : fb.x ≤ fb.width)
    (inside : fb.cursorCell < fb.size) : Keeps fb (fbCursorUpdateTraced fb) := by
  obtain ⟨fb', value, width, height, x, y⟩ := fbCursorUpdateTraced_value rows
  have size : fb'.size = fb.size := by rw [Fb.size, width, height, Fb.size]
  refine ⟨fb', value, width, height, ?_, fbCursorUpdateTraced_only rows columns small inside⟩
  exact {
    columns := by rwa [width]
    rows := by rwa [height]
    small := by rwa [size]
    x_le := by rwa [x, width]
    y_lt := by omega
    inside := by rwa [x, y, width, size] }

/-- The start of a row is on the screen, at the end of the buffer after scrolling. -/
theorem fbCursorUpdateTraced_row (placed : fb.Placed) {y : Nat} :
    Keeps fb (fbCursorUpdateTraced { fb with x := 0, y }) :=
  fbCursorUpdateTraced_keeps placed.rows placed.columns placed.small (Nat.zero_le _)
    ((@Fb.cursorCell_lt_iff { fb with x := 0, y } placed.rows placed.columns (Nat.zero_le _)).mpr
      (.inl placed.columns))

theorem Fb.Placed.pos_eq (placed : fb.Placed) : fb.pos = 2 * (fb.y * fb.width + fb.x) := by
  have inside := placed.inside
  have small := placed.small
  have wide : fb.width ≤ fb.size := Nat.le_mul_of_pos_right _ placed.rows
  have bytes : fb.y * (fb.width * 2) = 2 * (fb.y * fb.width) := by
    rw [Nat.mul_comm fb.width, Nat.mul_left_comm]
  rw [fbSupportedCharSize] at small
  rw [Fb.pos, fbSupportedCharSize, wrap32_of_lt (show fb.width * 2 < 2 ^ 32 by omega), bytes,
    wrap32_of_lt (show 2 * (fb.y * fb.width) < 2 ^ 32 by omega),
    wrap32_of_lt (show fb.x * 2 < 2 ^ 32 by omega), wrap32_of_lt (by omega)]
  omega

theorem Fb.Placed.withCells {cells : Nat → FbCell} (placed : fb.Placed) :
    (fb.withCells cells).Placed :=
  ⟨placed.columns, placed.rows, placed.small, placed.x_le, placed.y_lt, placed.inside⟩

/-- Behind a character the cursor is on the next column, or on the next row. -/
theorem fbCursorUpdateTraced_advance (placed : fb.Placed) : Keeps fb (fbCursorUpdateTraced
    (if wrap32 (fb.x + 1) > pred32 fb.width then { fb with x := 0, y := wrap32 (fb.y + 1) }
      else { fb with x := wrap32 (fb.x + 1) })) := by
  have columns := placed.columns
  split
  · exact fbCursorUpdateTraced_row placed
  · next within =>
      have wide : fb.width ≤ fb.size := Nat.le_mul_of_pos_right _ placed.rows
      have small := placed.small
      have x_le := placed.x_le
      rw [fbSupportedCharSize] at small
      rw [pred32_eq columns] at within
      have next : wrap32 (fb.x + 1) < fb.width := by omega
      exact fbCursorUpdateTraced_keeps placed.rows columns placed.small next.le
        ((@Fb.cursorCell_lt_iff { fb with x := wrap32 (fb.x + 1) } placed.rows columns next.le).mpr
          (.inl next))

/-- `fb_write`. -/
theorem fbWriteTraced_keeps (placed : fb.Placed) : Keeps fb (fbWriteTraced fb c) := by
  rw [fbWriteTraced]
  split
  · exact fbCursorUpdateTraced_row placed
  split
  · exact fbCursorUpdateTraced_row placed
  split
  · exact ⟨fb, rfl, rfl, rfl, placed, .pure⟩
  · have inside := placed.inside
    have small := placed.small
    rw [fbSupportedCharSize] at small
    have char : (fbSetByte fb fb.pos c).Only fb.Below := by
      intro o accessed
      rw [List.mem_singleton.mp accessed, placed.pos_eq, Fb.below_iff]
      omega
    have color : (fbSetByte (fbSetByte fb fb.pos c).value (wrap32 (fb.pos + 1)) fb.color).Only
        fb.Below := by
      intro o accessed
      rw [List.mem_singleton.mp accessed, placed.pos_eq, Fb.below_iff, wrap32_of_lt (by omega)]
      omega
    obtain ⟨fb', value, width, height, placed', only⟩ :=
      fbCursorUpdateTraced_advance (placed.withCells.withCells)
    exact ⟨fb', value, width, height, placed', .bind char (.bind color only)⟩

/-- `fb_clear`. -/
theorem fbClearTraced_keeps (placed : fb.Placed) : Keeps fb (fbCall fb .clear) := by
  obtain ⟨cells, value⟩ := @fbZeroTraced_value fb 0 (wrap32 (fb.width * fb.height))
  have fits : 0 + wrap32 (fb.width * fb.height) ≤ fb.size := by
    rw [Nat.zero_add]
    exact Nat.mod_le _ _
  obtain ⟨-, only⟩ := fbZeroTraced_follows _ (fbZero_eq fits)
  have cleared : (fbCall fb .clear).value = some { fb.withCells cells with x := 0, y := 0 } := by
    simp [fbCall, fbClearTraced, value]
  have some_cell : 0 < fb.size := Nat.mul_pos placed.columns placed.rows
  refine ⟨_, cleared, rfl, rfl, ?_, .bind (.bind only .pure) .pure⟩
  exact {
    columns := placed.columns
    rows := placed.rows
    small := placed.small
    x_le := Nat.zero_le _
    y_lt := placed.rows
    inside := (Nat.zero_mul fb.width).trans_lt some_cell }

/-- `fb_cursor_set_pos` keeps to the cells if it ends on the screen. -/
theorem fbCursorSetPosTraced_keeps (placed : fb.Placed) {x y : BitVec 32}
    (ends : EndsOnScreen fb (.cursorSetPos x y)) : Keeps fb (fbCursorSetPosTraced fb x y) := by
  obtain ⟨fb₁, call, width, height, within, inside⟩ :=
    @fbCursorLoop_inside fb x y placed.rows placed.columns
  have size : fb₁.size = fb.size := by rw [Fb.size, width, height, Fb.size]
  have below : fb₁.Below = fb.Below := by
    funext o
    rw [Fb.Below, width, height, Fb.Below]
  have keeps := @fbCursorUpdateTraced_keeps fb₁ (height ▸ placed.rows) (width ▸ placed.columns)
    (size ▸ placed.small) (width ▸ within) (inside.mpr ends)
  rwa [Keeps, width, height, below, ← call] at keeps

/-- Without that it goes to the cell behind the last one. -/
theorem fbCall_leaves {call : FbCall} (placed : fb.Placed) (off : ¬ EndsOnScreen fb call) :
    ¬ (fbCall fb call).Only fb.Below := by
  cases call with
  | write c => exact absurd trivial off
  | clear => exact absurd trivial off
  | cursorSetPos x y =>
      obtain ⟨fb₁, call, width, height, within, inside⟩ :=
        @fbCursorLoop_inside fb x y placed.rows placed.columns
      have size : fb₁.size = fb.size := by rw [Fb.size, width, height, Fb.size]
      have rows : 1 ≤ fb₁.height := height ▸ placed.rows
      have behind : fb₁.size ≤ fb₁.cursorCell := Nat.not_lt.mp (mt inside.mp off)
      have last := Fb.cursorCell_le rows (width ▸ within)
      have small := placed.small
      rw [fbSupportedCharSize] at small
      intro only
      have read := only (2 * fb₁.cursorCell) (by
        rw [fbCall, call]
        exact fbCursorUpdateTraced_reads rows (by omega))
      rw [Fb.below_iff] at read
      omega

theorem fbCall_keeps {call : FbCall} (placed : fb.Placed) (ends : EndsOnScreen fb call) :
    Keeps fb (fbCall fb call) := by
  cases call with
  | write c => exact fbWriteTraced_keeps placed
  | clear => exact fbClearTraced_keeps placed
  | cursorSetPos x y => exact fbCursorSetPosTraced_keeps placed ends

/-- Every call returns, wherever the cursor is. -/
theorem fbCall_value {call : FbCall} (rows : 1 ≤ fb.height) (columns : 1 ≤ fb.width) :
    ∃ fb', (fbCall fb call).value = some fb' ∧ fb'.width = fb.width ∧ fb'.height = fb.height := by
  have update (fb₁ : Fb) (width : fb₁.width = fb.width) (height : fb₁.height = fb.height) : ∃ fb',
      (fbCursorUpdateTraced fb₁).value = some fb' ∧ fb'.width = fb.width ∧ fb'.height = fb.height := by
    obtain ⟨fb', value, width', height', -⟩ := fbCursorUpdateTraced_value (height ▸ rows)
    exact ⟨fb', value, width'.trans width, height'.trans height⟩
  cases call with
  | write c =>
      rw [fbCall, fbWriteTraced]
      split
      · exact update _ rfl rfl
      split
      · exact update _ rfl rfl
      split
      · exact ⟨fb, rfl, rfl, rfl⟩
      · simp only [Traced.value_bind]
        split
        · exact update _ rfl rfl
        · exact update _ rfl rfl
  | clear =>
      obtain ⟨cells, value⟩ := @fbZeroTraced_value fb 0 (wrap32 (fb.width * fb.height))
      simp only [fbCall, fbClearTraced, Traced.value_bind, value]
      exact ⟨_, rfl, rfl, rfl⟩
  | cursorSetPos x y =>
      obtain ⟨fb₁, call, width, height, -⟩ := @fbCursorLoop_inside fb x y rows columns
      rw [fbCall, call]
      exact update fb₁ width height

end

/-! ## Runs -/

/-- The console behind `fb_init`. -/
def FbStart (boot : BootInfo) (s : Vmm) (fuel : Nat) (screen : Fb) (tag : FbTag)
    (console : FbConsole) : Prop :=
  ∃ s', fbInit boot s fuel screen (some tag) = some (.ok console, s')

/-- A call that returns. -/
def FbStep (console : FbConsole) (call : FbCall) (console' : FbConsole) : Prop :=
  ∃ fb, (fbCall console.fb call).value = some fb ∧
    console' = { console with fb, accessed := (fbCall console.fb call).requests }

/-- Every byte that was accessed is on a mapped page, and of a cell. -/
def FbConsole.Inside (console : FbConsole) : Prop :=
  ∀ o ∈ console.accessed, o < pageSize * console.pages ∧
    o < console.fb.width * console.fb.height * fbSupportedCharSize

section

variable {boot : BootInfo} {s : Vmm} {fuel : Nat} {screen : Fb} {tag : FbTag}
  {console console' : FbConsole} {call : FbCall}

/-- What `fb_init` leaves: the size of the tag, and pages for its number of cells. -/
theorem FbStart.fields (start : FbStart boot s fuel screen tag console) :
    console.fb.width = tag.framebufferWidth.toNat ∧
      console.fb.height = tag.framebufferHeight.toNat ∧ console.fb.x = 0 ∧ console.fb.y = 0 ∧
      console.pages = vmmCalc (wrap32 (console.fb.width * console.fb.height)) ∧
      console.accessed = [] := by
  obtain ⟨s', init⟩ := start
  rw [fbInit] at init
  split at init
  · cases init
  obtain ⟨⟨addr, s₁⟩, mapped, init⟩ := Option.bind_eq_some_iff.mp init
  dsimp only at init
  split at init
  · cases init
  · cases init
    exact ⟨rfl, rfl, rfl, rfl, rfl, rfl⟩

theorem vmmCalc_eq {m : Nat} (some' : 1 ≤ m) (small : m < 2 ^ 32) : vmmCalc m = (m + 4095) / 4096 := by
  rw [vmmCalc, divCeil_eq_ceilDiv some' (by decide) (by rw [pageSize]; omega),
    Nat.ceilDiv_eq_add_pred_div]
  rfl

/-- The pages are enough for the bytes of the cells. -/
structure FbConsole.Fitting (console : FbConsole) : Prop where
  placed : console.fb.Placed
  pages : console.fb.width * console.fb.height * fbSupportedCharSize ≤ pageSize * console.pages
  inside : console.Inside

theorem FbStart.fitting (columns : 1 ≤ tag.framebufferWidth.toNat)
    (rows : 1 ≤ tag.framebufferHeight.toNat)
    (fits : tag.framebufferWidth.toNat * tag.framebufferHeight.toNat ≤ 2048)
    (start : FbStart boot s fuel screen tag console) : console.Fitting := by
  obtain ⟨width, height, x, y, pages, accessed⟩ := start.fields
  have cells : console.fb.size = tag.framebufferWidth.toNat * tag.framebufferHeight.toNat := by
    rw [Fb.size, width, height]
  have some_cell := Nat.mul_pos columns rows
  have pages' : console.pages = (console.fb.size + 4095) / 4096 := by
    rw [pages, ← Fb.size, wrap32_of_lt (by omega), vmmCalc_eq (by omega) (by omega)]
  constructor
  · exact {
      columns := by omega
      rows := by omega
      small := by rw [fbSupportedCharSize]; omega
      x_le := by omega
      y_lt := by omega
      inside := by rw [x, y, Nat.zero_mul]; omega }
  · rw [← Fb.size, fbSupportedCharSize, pageSize]
    omega
  · simp [FbConsole.Inside, accessed]

theorem FbStep.fitting (fitting : console.Fitting) (ends : EndsOnScreen console.fb call)
    (step : FbStep console call console') : console'.Fitting := by
  obtain ⟨fb, value, rfl⟩ := step
  obtain ⟨fb', value', width, height, placed, only⟩ := fbCall_keeps fitting.placed ends
  cases value.symm.trans value'
  refine ⟨placed, ?_, fun o accessed => ?_⟩
  · simpa only [width, height] using fitting.pages
  · have below : o < _ := only o accessed
    simp only [width, height]
    exact ⟨Nat.lt_of_lt_of_le below fitting.pages, below⟩

theorem FbStep.leaves (fitting : console.Fitting) (off : ¬ EndsOnScreen console.fb call)
    (step : FbStep console call console') : ¬ console'.Inside := by
  obtain ⟨fb, value, rfl⟩ := step
  obtain ⟨fb', value', width, height⟩ :=
    @fbCall_value _ call fitting.placed.rows fitting.placed.columns
  cases value.symm.trans value'
  intro inside
  apply fbCall_leaves fitting.placed off
  intro o accessed
  have below := (inside o accessed).2
  simp only [width, height] at below
  exact below

/-! ## Screens that are too large -/

theorem fbZeroTraced_writes {fb : Fb} {i n k : Nat} (below : k < n) :
    2 * (i + k) ∈ (fbZeroTraced fb i n).requests := by
  induction n generalizing fb i k with
  | zero => cases below
  | succ n ih =>
      rw [fbZeroTraced, Traced.requests_bind, List.mem_append]
      cases k with
      | zero =>
          left
          simp [fbSet]
      | succ k =>
          right
          rw [Nat.add_comm k, ← Nat.add_assoc]
          exact ih (by omega)

/-- An access that is on no page. -/
theorem FbStep.exists_leaving {o : Nat} (rows : 1 ≤ console.fb.height)
    (columns : 1 ≤ console.fb.width) (accessed : o ∈ (fbCall console.fb call).requests)
    (off : pageSize * console.pages ≤ o) :
    ∃ console', FbStep console call console' ∧ ¬ console'.Inside := by
  obtain ⟨fb, value, -⟩ := @fbCall_value _ call rows columns
  refine ⟨_, ⟨fb, value, rfl⟩, fun inside => ?_⟩
  have below := (inside o accessed).1
  simp only at below
  omega

/-- Clearing goes beyond the pages, or the cursor can be put there. -/
theorem FbStart.exists_leaving (columns : 1 ≤ tag.framebufferWidth.toNat)
    (rows : 1 ≤ tag.framebufferHeight.toNat)
    (large : 2048 < tag.framebufferWidth.toNat * tag.framebufferHeight.toNat)
    (some' : ¬ 2 ^ 32 ∣ tag.framebufferWidth.toNat * tag.framebufferHeight.toNat)
    (start : FbStart boot s fuel screen tag console) : ∃ call console',
      EndsOnScreen console.fb call ∧ FbStep console call console' ∧ ¬ console'.Inside := by
  obtain ⟨width, height, x, y, pages, accessed⟩ := start.fields
  rw [← width, ← height] at large some'
  rw [← width] at columns
  rw [← height] at rows
  have wrapped : wrap32 (console.fb.width * console.fb.height) ≠ 0 := mt Nat.dvd_of_mod_eq_zero some'
  have small : wrap32 (console.fb.width * console.fb.height) < 2 ^ 32 := Nat.mod_lt _ (by decide)
  rw [vmmCalc_eq (Nat.pos_of_ne_zero wrapped) small] at pages
  generalize cells_eq : wrap32 (console.fb.width * console.fb.height) = cells at pages wrapped small
  by_cases many : 2048 < cells
  · have write : 2 * (0 + (cells - 1)) ∈ (fbCall console.fb .clear).requests := by
      simp only [fbCall, fbClearTraced, cells_eq, Traced.requests_bind, List.mem_append]
      exact .inl (.inl (fbZeroTraced_writes (by omega)))
    obtain ⟨console', step, leaves⟩ := FbStep.exists_leaving rows columns write (by
      rw [pageSize, pages]
      omega)
    exact ⟨.clear, console', trivial, step, leaves⟩
  · -- one page is mapped, and the cursor can be put on cell 2048
    have place : 2048 / console.fb.width * console.fb.width + 2048 % console.fb.width = 2048 :=
      Nat.div_add_mod' 2048 _
    have column := Nat.mod_lt 2048 columns
    have row : 2048 / console.fb.width < console.fb.height :=
      (Nat.div_lt_iff_lt_mul columns).mpr (Nat.mul_comm .. ▸ large)
    have x_lt : 2048 % console.fb.width ≤ 2048 := Nat.mod_le _ _
    have y_lt : 2048 / console.fb.width ≤ 2048 := Nat.div_le_self _ _
    generalize 2048 / console.fb.width = y at place row y_lt
    generalize 2048 % console.fb.width = x at place column x_lt
    have x_eq : (BitVec.ofNat 32 x).toNat = x := by
      rw [BitVec.toNat_ofNat]
      omega
    have y_eq : (BitVec.ofNat 32 y).toNat = y := by
      rw [BitVec.toNat_ofNat]
      omega
    have goes : fbCursorSetPosTraced console.fb (BitVec.ofNat 32 x) (BitVec.ofNat 32 y) =
        fbCursorUpdateTraced { console.fb with x, y } := by
      rw [fbCursorSetPosTraced, fbCursorLoop, x_eq, y_eq, if_neg (by omega)]
    have cell : Fb.cursorCell { console.fb with x, y } = 2048 := by
      show min y (console.fb.height - 1) * console.fb.width + x = 2048
      rw [Nat.min_eq_left (by omega), place]
    have read := @fbCursorUpdateTraced_reads { console.fb with x, y } rows (by rw [cell]; decide)
    rw [cell, ← goes] at read
    have one_page : pageSize * console.pages ≤ 2 * 2048 := by
      rw [pageSize, pages]
      omega
    obtain ⟨console', step, leaves⟩ := @FbStep.exists_leaving _ (.cursorSetPos _ _) _ rows columns
      read one_page
    refine ⟨_, console', ?_, step, leaves⟩
    rw [EndsOnScreen, x_eq, Nat.mod_eq_of_lt column]
    omega

/-- A run does not change the size of the screen. -/
theorem fbConsole_size {past : List (FbConsole × FbCall)}
    (columns : 1 ≤ tag.framebufferWidth.toNat) (rows : 1 ≤ tag.framebufferHeight.toNat)
    (run : Run (FbStart boot s fuel screen tag) FbStep past console) :
    1 ≤ console.fb.width ∧ 1 ≤ console.fb.height := by
  have every : Run.Guarded (fun _ _ => True) past := fun _ _ => trivial
  refine (run.invariant (fun console => 1 ≤ console.fb.width ∧ 1 ≤ console.fb.height) ?_ ?_ every).1
  · intro console start
    obtain ⟨width, height, -⟩ := start.fields
    rw [width, height]
    exact ⟨columns, rows⟩
  · rintro console call console' ⟨columns, rows⟩ - ⟨fb, value, rfl⟩
    obtain ⟨fb', value', width, height⟩ := @fbCall_value _ call rows columns
    cases value.symm.trans value'
    simp only [width, height]
    exact ⟨columns, rows⟩

/-- On a screen of up to 2048 cells the console keeps to its buffer exactly as long as the cursor is
    not set to the end of the last line. A larger screen is left by a run that never does that, unless
    its number of cells is 0 on `uint32_t`. Every call returns. -/
theorem fbConsole_inside_iff (boot : BootInfo) (s : Vmm) (fuel : Nat) (screen : Fb) (tag : FbTag)
    (columns : 1 ≤ tag.framebufferWidth.toNat) (rows : 1 ≤ tag.framebufferHeight.toNat) :
    (∀ past console, Run (FbStart boot s fuel screen tag) FbStep past console →
      (∀ call, ∃ console', FbStep console call console') ∧
      (tag.framebufferWidth.toNat * tag.framebufferHeight.toNat ≤ 2048 →
        (Run.Always FbConsole.Inside past console ↔
          Run.Guarded (fun console => EndsOnScreen console.fb) past))) ∧
    (2048 < tag.framebufferWidth.toNat * tag.framebufferHeight.toNat →
      ¬ 2 ^ 32 ∣ tag.framebufferWidth.toNat * tag.framebufferHeight.toNat →
      ∀ console, FbStart boot s fuel screen tag console → ∃ past console',
        Run (FbStart boot s fuel screen tag) FbStep past console' ∧
        Run.Guarded (fun console => EndsOnScreen console.fb) past ∧ ¬ console'.Inside) := by
  constructor
  · intro past console run
    constructor
    · intro call
      obtain ⟨columns, rows⟩ := fbConsole_size columns rows run
      obtain ⟨fb, value, -⟩ := @fbCall_value _ call rows columns
      exact ⟨_, fb, value, rfl⟩
    · intro fits
      exact run.always_iff FbConsole.Fitting (fun _ start => start.fitting columns rows fits)
        (fun _ _ _ fitting ends step => step.fitting fitting ends) (fun _ fitting => fitting.inside)
        (fun _ _ _ fitting off step => step.leaves fitting off)
  · intro large some' console start
    obtain ⟨call, console', ends, step, leaves⟩ := start.exists_leaving columns rows large some'
    refine ⟨_, console', .next (.init start) step, ?_, leaves⟩
    intro before mem
    rw [List.mem_singleton.mp mem]
    exact ends

/-! ### The text screen of 80 by 25 cells -/

def textTag : FbTag := ⟨0xb8000, 80, 25, 16⟩

def blankScreen : Fb := ⟨0, 0, 0, 0, 0, fun _ => ⟨0, 0⟩, 0, 0⟩

theorem textScreen_start : ∃ console,
    FbStart freeBoot (onePageMap 0x10000) 8 blankScreen textTag console := by
  obtain ⟨s', map⟩ := @onePageMap_mapPaddr textTag.framebufferAddr vmmAttrNoCache (by decide)
    (by decide) (by decide)
  have pages : vmmCalc (wrap32 (textTag.framebufferWidth.toNat * textTag.framebufferHeight.toNat)) =
      1 := by decide
  refine ⟨⟨{ blankScreen with width := 80, height := 25 }, vmmVmaKernelStart, 1, []⟩, s', ?_⟩
  rw [fbInit, if_neg (by decide)]
  dsimp only
  rw [pages, map]
  rfl

/-- Clearing this screen. -/
theorem fbConsole_inside_iff_text : ∃ console console',
    Run (FbStart freeBoot (onePageMap 0x10000) 8 blankScreen textTag) FbStep
      [(console, FbCall.clear)] console' ∧
    (Run.Always FbConsole.Inside [(console, FbCall.clear)] console' ↔
      Run.Guarded (fun console => EndsOnScreen console.fb) [(console, FbCall.clear)]) := by
  obtain ⟨console, start⟩ := textScreen_start
  have all := fbConsole_inside_iff freeBoot (onePageMap 0x10000) 8 blankScreen textTag (by decide)
    (by decide)
  obtain ⟨console', step⟩ := (all.1 [] console (.init start)).1 FbCall.clear
  have run := Run.next (.init start) step
  exact ⟨console, console', run, (all.1 [(console, FbCall.clear)] console' run).2 (by decide)⟩

/-- Putting the cursor at the end of the last line reads the byte at 4000. -/
theorem not_fbConsole_inside : ¬ ∀ (boot : BootInfo) (s : Vmm) (fuel : Nat) (screen : Fb) (tag : FbTag),
    1 ≤ tag.framebufferWidth.toNat → 1 ≤ tag.framebufferHeight.toNat → ∀ past console,
    Run (FbStart boot s fuel screen tag) FbStep past console →
    Run.Always FbConsole.Inside past console := by
  intro always
  obtain ⟨console, start⟩ := textScreen_start
  have fitting := start.fitting (by decide) (by decide) (by decide)
  obtain ⟨width, height, -⟩ := start.fields
  have off : ¬ EndsOnScreen console.fb (.cursorSetPos 80 24) := by
    rw [EndsOnScreen, width, height]
    decide
  obtain ⟨fb, value, -⟩ := @fbCall_value _ (.cursorSetPos 80 24) fitting.placed.rows
    fitting.placed.columns
  have step : FbStep console (.cursorSetPos 80 24) _ := ⟨fb, value, rfl⟩
  exact step.leaves fitting off
    (always _ _ _ _ _ (by decide) (by decide) _ _ (.next (.init start) step)).1

end

end Sdx.Video
