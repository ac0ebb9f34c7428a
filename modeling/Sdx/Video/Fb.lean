import Mathlib.Logic.Function.Basic
import Sdx.Base

/-! # The framebuffer console (`video/fb.c`)

The buffer has a cell of two bytes for each place on the screen, `width` cells a row. An access
behind its last cell is no result here. The numbers are `uint32_t`.
-/

namespace Sdx.Video

/-- `uint32_t` arithmetic is modulo `2^32`. -/
def wrap32 (x : Nat) : Nat := x % 2 ^ 32

/-- `x - 1` on `uint32_t`. -/
def pred32 (x : Nat) : Nat := if x = 0 then 2 ^ 32 - 1 else x - 1

/-- A `uint16_t` of the buffer: its low and its high byte. -/
structure FbCell where
  char : UInt8
  color : UInt8
  deriving DecidableEq

/-- `struct fb_data`, with the cells at `addr` and the cursor location registers of the screen. -/
structure Fb where
  width : Nat
  height : Nat
  x : Nat
  y : Nat
  color : UInt8
  cells : Nat → FbCell
  locationLow : UInt8
  locationHigh : UInt8

/-- `FB_SUPPORTED_CHAR_SIZE`, which `char_size` is after `fb_init`. -/
def fbSupportedCharSize : Nat := 2

namespace Fb

/-- The number of cells in the buffer. -/
def size (fb : Fb) : Nat := fb.width * fb.height

def withCells (fb : Fb) (cells : Nat → FbCell) : Fb := { fb with cells }

/-- Reading `__fb_buf16()[i]`. -/
def get (fb : Fb) (i : Nat) : Option FbCell := if i < fb.size then some (fb.cells i) else none

/-- Writing `__fb_buf16()[i]`. -/
def set (fb : Fb) (i : Nat) (cell : FbCell) : Option Fb :=
  if i < fb.size then some (fb.withCells (Function.update fb.cells i cell)) else none

/-- Writing `__fb_buf8()[p]`. -/
def setByte (fb : Fb) (p : Nat) (b : UInt8) : Option Fb := do
  let cell ← fb.get (p / 2)
  fb.set (p / 2) (if p % 2 = 0 then { cell with char := b } else { cell with color := b })

/-- `__fb_pos`. -/
def pos (fb : Fb) : Nat :=
  wrap32 (wrap32 (fb.y * wrap32 (fb.width * fbSupportedCharSize)) +
    wrap32 (fb.x * fbSupportedCharSize))

/-- `__fb_cursor_pos`. -/
def cursorPos (fb : Fb) : Nat := wrap32 (wrap32 (fb.y * fb.width) + fb.x)

end Fb

/-- `n` cells from `i` on are set to zero. -/
def fbZero (fb : Fb) (i : Nat) : Nat → Option Fb
  | 0 => some fb
  | n + 1 => do
      let fb ← fb.set i ⟨0, 0⟩
      fbZero fb (i + 1) n

/-- `fb_clear`. -/
def fbClear (fb : Fb) : Option Fb := do
  let fb ← fbZero fb 0 (wrap32 (fb.width * fb.height))
  some { fb with x := 0, y := 0 }

/-- The loop of `__fb_scroll` over the `n` cells of a line from `i` on. -/
def fbCopyLine (fb : Fb) (i : Nat) : Nat → Option Fb
  | 0 => some fb
  | n + 1 => do
      let cell ← fb.get (wrap32 (i + fb.width))
      let fb ← fb.set i cell
      fbCopyLine fb (i + 1) n

/-- The loop of `__fb_scroll` over the `n` lines from `line` on. -/
def fbScrollLines (fb : Fb) (line : Nat) : Nat → Option Fb
  | 0 => some fb
  | n + 1 => do
      let first := wrap32 (line * fb.width)
      let fb ←
        if line = pred32 fb.height then
          fbZero fb first (wrap32 (fb.width * fbSupportedCharSize) / 2)
        else fbCopyLine fb first (wrap32 ((line + 1) * fb.width) - first)
      fbScrollLines fb (line + 1) n

/-- `__fb_scroll`; each call of itself takes a row off `y`. -/
def fbScroll (fb : Fb) : Nat → Option Fb
  | 0 => none
  | fuel + 1 =>
      if fb.height > fb.y then some fb
      else do
        let fb ← fbScrollLines fb 0 fb.height
        fbScroll { fb with y := pred32 fb.y } fuel

/-- `__fb_cursor_update`. -/
def fbCursorUpdate (fb : Fb) : Option Fb := do
  let fb ← fbScroll fb (fb.y + 1)
  let pos := fb.cursorPos
  let cell ← fb.get pos
  let fb ← if cell.char = 0 then fb.set pos ⟨0, fb.color⟩ else some fb
  some { fb with locationLow := UInt8.ofNat pos, locationHigh := UInt8.ofNat (pos / 256) }

/-- `'\n'`. -/
def newline : UInt8 := 0x0a

/-- `'\r'`. -/
def carriageReturn : UInt8 := 0x0d

/-- `fb_write`. -/
def fbWrite (fb : Fb) (c : UInt8) : Option Fb :=
  if c = newline then fbCursorUpdate { fb with x := 0, y := wrap32 (fb.y + 1) }
  else if c = carriageReturn then fbCursorUpdate { fb with x := 0 }
  else if c = 0 then some fb
  else do
    let pos := fb.pos
    let fb ← fb.setByte pos c
    let fb ← fb.setByte (wrap32 (pos + 1)) fb.color
    let x := wrap32 (fb.x + 1)
    fbCursorUpdate (if x > pred32 fb.width then { fb with x := 0, y := wrap32 (fb.y + 1) }
      else { fb with x })

/-- Writing bytes one after the other, each with the color that is set then. -/
def fbWriteAll (fb : Fb) : List (UInt8 × UInt8) → Option Fb
  | [] => some fb
  | (color, c) :: bytes => do
      let fb ← fbWrite { fb with color } c
      fbWriteAll fb bytes

/-! ## What the loops do -/

section

variable {fb : Fb} {i n line : Nat} {cell : FbCell} {b : UInt8}

theorem wrap32_of_lt {x : Nat} (lt : x < 2 ^ 32) : wrap32 x = x := Nat.mod_eq_of_lt lt

theorem pred32_eq {x : Nat} (some' : 1 ≤ x) : pred32 x = x - 1 := if_neg (by omega)

namespace Fb

variable {cells : Nat → FbCell}

@[simp] theorem withCells_cells : (fb.withCells cells).cells = cells := rfl

@[simp] theorem withCells_width : (fb.withCells cells).width = fb.width := rfl

@[simp] theorem withCells_height : (fb.withCells cells).height = fb.height := rfl

@[simp] theorem withCells_x : (fb.withCells cells).x = fb.x := rfl

@[simp] theorem withCells_y : (fb.withCells cells).y = fb.y := rfl

@[simp] theorem withCells_size : (fb.withCells cells).size = fb.size := rfl

@[simp] theorem withCells_withCells {cells' : Nat → FbCell} :
    (fb.withCells cells).withCells cells' = fb.withCells cells' := rfl

theorem get_eq (inside : i < fb.size) : fb.get i = some (fb.cells i) := if_pos inside

theorem set_eq (inside : i < fb.size) :
    fb.set i cell = some (fb.withCells (Function.update fb.cells i cell)) := if_pos inside

end Fb

theorem fbZero_eq (fits : i + n ≤ fb.size) : fbZero fb i n =
    some (fb.withCells fun j => if i ≤ j ∧ j < i + n then ⟨0, 0⟩ else fb.cells j) := by
  induction n generalizing fb i with
  | zero =>
      simp only [fbZero, Nat.add_zero, show ∀ j, ¬(i ≤ j ∧ j < i) from fun j => by omega, if_false]
      rfl
  | succ n ih =>
      have rest := @ih (fb.withCells (Function.update fb.cells i ⟨0, 0⟩)) (i + 1)
        (by rw [Fb.withCells_size]; omega)
      rw [fbZero, Fb.set_eq (by omega), Option.bind_eq_bind, Option.bind_some, rest,
        Fb.withCells_withCells]
      congr 2
      funext j
      simp only [Fb.withCells_cells, Function.update_apply]
      grind

/-- A line takes the cells of the one below it. -/
theorem fbCopyLine_eq (fits : i + n + fb.width ≤ fb.size) (small : fb.size < 2 ^ 32)
    (some' : 1 ≤ fb.width) : fbCopyLine fb i n = some (fb.withCells fun j =>
      if i ≤ j ∧ j < i + n then fb.cells (j + fb.width) else fb.cells j) := by
  induction n generalizing fb i with
  | zero =>
      simp only [fbCopyLine, Nat.add_zero, show ∀ j, ¬(i ≤ j ∧ j < i) from fun j => by omega, if_false]
      rfl
  | succ n ih =>
      have rest := @ih (fb.withCells (Function.update fb.cells i (fb.cells (i + fb.width)))) (i + 1)
        (by rw [Fb.withCells_size, Fb.withCells_width]; omega) small some'
      rw [fbCopyLine, wrap32_of_lt (by omega), Fb.get_eq (by omega), Option.bind_eq_bind,
        Option.bind_some, Fb.set_eq (by omega), Option.bind_eq_bind, Option.bind_some, rest,
        Fb.withCells_withCells]
      congr 2
      funext j
      simp only [Fb.withCells_cells, Fb.withCells_width, Function.update_apply]
      grind

/-- From `line` on each line takes the cells of the one below it, and the last one is cleared. -/
theorem fbScrollLines_eq {start : Nat} (at' : start = line * fb.width) (lines : line + n = fb.height)
    (small : fb.size * fbSupportedCharSize < 2 ^ 32) (some' : 1 ≤ fb.width) :
    fbScrollLines fb line n = some (fb.withCells fun j =>
      if start ≤ j ∧ j < fb.size then
        (if j + fb.width < fb.size then fb.cells (j + fb.width) else ⟨0, 0⟩)
      else fb.cells j) := by
  induction n generalizing fb line start with
  | zero =>
      have end' : start = fb.size := by rw [at', Fb.size, ← lines, Nat.mul_comm, Nat.add_zero]
      simp only [fbScrollLines, show ∀ j, ¬(start ≤ j ∧ j < fb.size) from fun j => by omega, if_false]
      rfl
  | succ n ih =>
      have size : start + (n * fb.width + fb.width) = fb.size := by
        rw [at', Fb.size, ← lines, Nat.mul_comm fb.width, Nat.add_mul, Nat.succ_mul]
      have height : fb.height ≤ fb.size := by
        rw [Fb.size]
        exact Nat.le_mul_of_pos_left _ some'
      simp only [fbSupportedCharSize] at small
      have next : (line + 1) * fb.width = start + fb.width := by rw [at', Nat.succ_mul]
      rw [fbScrollLines, pred32_eq (by omega), ← at', next, wrap32_of_lt (by omega),
        fbSupportedCharSize, wrap32_of_lt (by omega)]
      by_cases last : n = 0
      · subst last
        rw [Nat.zero_mul, Nat.zero_add] at size
        rw [if_pos (by omega), Nat.mul_div_cancel _ (by decide), fbZero_eq (by omega)]
        simp only [Option.bind_eq_bind, Option.bind_some, fbScrollLines]
        congr 2
        funext j
        grind
      · have below : fb.width ≤ n * fb.width := Nat.le_mul_of_pos_left _ (Nat.pos_of_ne_zero last)
        rw [if_neg (by omega), wrap32_of_lt (show start + fb.width < 2 ^ 32 by omega),
          Nat.add_sub_cancel_left, fbCopyLine_eq (by omega) (by omega) some',
          Option.bind_eq_bind, Option.bind_some]
        have rest (cells : Nat → FbCell) := @ih (fb.withCells cells) (line + 1) (start + fb.width)
          next.symm (by rw [Fb.withCells_height]; omega) small some'
        refine (rest _).trans ?_
        rw [Fb.withCells_withCells]
        congr 2
        funext j
        simp only [Fb.withCells_cells, Fb.withCells_width, Fb.withCells_size]
        grind

/-- The screen one line up, with an empty last line. -/
def Fb.scrolled (fb : Fb) : Fb := fb.withCells fun j =>
  if j < fb.size then (if j + fb.width < fb.size then fb.cells (j + fb.width) else ⟨0, 0⟩)
  else fb.cells j

/-- With the cursor one row behind the screen, the screen moves by one line. -/
theorem fbScroll_eq (within : fb.y ≤ fb.height) (small : fb.size * fbSupportedCharSize < 2 ^ 32)
    (some' : 1 ≤ fb.width) (rows : 1 ≤ fb.height) : fbScroll fb (fb.y + 1) =
      some (if fb.height > fb.y then fb else { fb.scrolled with y := fb.height - 1 }) := by
  have stops (fb : Fb) (fuel : Nat) (above : fb.height > fb.y) : fbScroll fb (fuel + 1) = some fb := by
    rw [fbScroll, if_pos above]
  by_cases above : fb.height > fb.y
  · rw [if_pos above, stops fb fb.y above]
  have height : fb.height ≤ fb.size := by
    rw [Fb.size]
    exact Nat.le_mul_of_pos_left _ some'
  simp only [fbSupportedCharSize] at small
  obtain ⟨y, behind⟩ : ∃ y, fb.y = y + 1 := ⟨fb.y - 1, by omega⟩
  have last : pred32 (y + 1) = fb.height - 1 := by
    rw [pred32_eq (by omega)]
    omega
  have lines := fbScrollLines_eq (Nat.zero_mul _).symm (Nat.zero_add _) small some'
  simp only [Nat.zero_le, true_and] at lines
  rw [if_neg above, fbScroll, if_neg above, lines, Option.bind_eq_bind, Option.bind_some]
  simp only [Fb.withCells_y, behind, last]
  exact stops _ y (by simp only [Fb.withCells_height]; omega)

end

end Sdx.Video
