import Mathlib.Data.List.Basic
import Sdx.Video.Fb

/-! # The framebuffer console is a scrolling terminal

The terminal keeps `h` rows of `w` characters and a cursor. The framebuffer shows its rows in the
low bytes of the cells; a zero there is an empty place, and only there the cursor changes a cell.
-/

namespace Sdx.Video

/-- A terminal of `h` rows of `w` characters, with a cursor on one of them. -/
structure Terminal (w h : Nat) where
  rows : List (List UInt8)
  x : Nat
  y : Nat
  height : rows.length = h
  width : ∀ row ∈ rows, row.length = w
  x_lt : x < w
  y_lt : y < h

namespace Terminal

variable {w h : Nat}

/-- An empty row. -/
def blank (w : Nat) : List UInt8 := List.replicate w 0

/-- The empty terminal. -/
def clear (wide : 1 ≤ w) (high : 1 ≤ h) : Terminal w h where
  rows := List.replicate h (blank w)
  x := 0
  y := 0
  height := List.length_replicate
  width row mem := by rw [List.eq_of_mem_replicate mem, blank, List.length_replicate]
  x_lt := wide
  y_lt := high

/-- To the start of the next row. Behind the last one the top row is dropped. -/
def newRow (t : Terminal w h) : Terminal w h :=
  if below : t.y + 1 < h then
    { t with x := 0, y := t.y + 1, x_lt := Nat.zero_lt_of_lt t.x_lt, y_lt := below }
  else
    { t with
      rows := t.rows.tail ++ [blank w]
      x := 0
      x_lt := Nat.zero_lt_of_lt t.x_lt
      height := by
        have high := t.height
        have some' := t.y_lt
        rw [List.length_append, List.length_tail, List.length_singleton]
        omega
      width := by
        intro row mem
        obtain mem | mem := List.mem_append.mp mem
        · exact t.width row (List.mem_of_mem_tail mem)
        · rw [List.mem_singleton.mp mem, blank, List.length_replicate] }

/-- To column 0. -/
def toFirst (t : Terminal w h) : Terminal w h := { t with x := 0, x_lt := Nat.zero_lt_of_lt t.x_lt }

/-- A character at the cursor. -/
def place (t : Terminal w h) (c : UInt8) : Terminal w h :=
  { t with
    rows := t.rows.modify t.y fun row => row.set t.x c
    height := by rw [List.length_modify, t.height]
    width := by
      intro row mem
      obtain ⟨r, inside, rfl⟩ := List.getElem_of_mem mem
      rw [List.length_modify] at inside
      rw [List.getElem_modify]
      split
      · rw [List.length_set, t.width _ (List.getElem_mem inside)]
      · exact t.width _ (List.getElem_mem inside) }

/-- The cursor goes to the next column, or to the next row. -/
def advance (t : Terminal w h) : Terminal w h :=
  if within : t.x + 1 < w then { t with x := t.x + 1, x_lt := within } else t.newRow

def write (t : Terminal w h) (c : UInt8) : Terminal w h :=
  if c = newline then t.newRow
  else if c = carriageReturn then t.toFirst
  else if c = 0 then t
  else (t.place c).advance

end Terminal

/-! ## The characters of the cells, row by row -/

/-- `h` rows of the `w` values of `f`. -/
def planeOf (w h : Nat) (f : Nat → UInt8) : List (List UInt8) :=
  (List.range h).map fun r => (List.range w).map fun c => f (r * w + c)

section

variable {w h x y : Nat} {f g : Nat → UInt8} {c : UInt8}

theorem flat_lt {r k : Nat} (row : r < h) (column : k < w) : r * w + k < w * h := by
  have rows := Nat.mul_le_mul_right w row
  rw [Nat.succ_mul, Nat.mul_comm h] at rows
  omega

theorem planeOf_congr (same : ∀ i, i < w * h → f i = g i) : planeOf w h f = planeOf w h g := by
  refine List.map_congr_left fun r row => List.map_congr_left fun k column => same _ ?_
  exact flat_lt (List.mem_range.mp row) (List.mem_range.mp column)

theorem planeOf_zero (zero : ∀ i, i < w * h → f i = 0) :
    planeOf w h f = List.replicate h (Terminal.blank w) := by
  rw [planeOf_congr (g := fun _ => 0) zero]
  simp only [planeOf, List.map_const', List.length_range, Terminal.blank]

/-- A line up, with an empty last line. -/
theorem planeOf_scroll (some' : 1 ≤ h) :
    planeOf w h (fun i => if i + w < w * h then f (i + w) else 0) =
      (planeOf w h f).tail ++ [Terminal.blank w] := by
  obtain ⟨h, rfl⟩ : ∃ n, h = n + 1 := ⟨h - 1, by omega⟩
  have rows : w * (h + 1) = w * h + w := Nat.mul_succ w h
  have upper : (planeOf w (h + 1) f).tail = planeOf w h fun i => f (i + w) := by
    rw [planeOf, List.range_succ_eq_map, List.map_cons, List.tail_cons, List.map_map]
    refine List.map_congr_left fun r _ => List.map_congr_left fun k _ => ?_
    exact congrArg f (by rw [Nat.succ_mul, Nat.add_right_comm])
  have lower : planeOf w (h + 1) (fun i => if i + w < w * (h + 1) then f (i + w) else 0) =
      planeOf w h (fun i => f (i + w)) ++ [Terminal.blank w] := by
    rw [planeOf, List.range_succ, List.map_append, List.map_singleton]
    congr 1
    · exact planeOf_congr (f := fun i => if i + w < w * (h + 1) then f (i + w) else 0)
        fun i below => if_pos (by omega)
    · rw [Terminal.blank, List.singleton_inj, List.eq_replicate_iff]
      refine ⟨by rw [List.length_map, List.length_range], fun b mem => ?_⟩
      obtain ⟨k, -, rfl⟩ := List.mem_map.mp mem
      refine if_neg ?_
      rw [Nat.mul_comm h w]
      omega
  rw [lower, upper]

theorem planeOf_put (column : x < w) :
    planeOf w h (Function.update f (y * w + x) c) =
      (planeOf w h f).modify y fun row => row.set x c := by
  apply List.ext_getElem
  · simp only [planeOf, List.length_map, List.length_range, List.length_modify]
  intro r inside _
  apply List.ext_getElem
  · rw [List.getElem_modify]
    split <;> simp only [planeOf, List.getElem_map, List.length_map, List.length_range, List.length_set]
  intro k inside' _
  simp only [planeOf, List.length_map, List.length_range, List.getElem_map] at inside inside'
  have place : r * w + k = y * w + x ↔ y = r ∧ x = k := by
    constructor
    · intro same
      have rows := congrArg (· / w) same
      have columns := congrArg (· % w) same
      simp only [Nat.mul_comm _ w, Nat.mul_add_div (Nat.zero_lt_of_lt column), Nat.div_eq_of_lt column,
        Nat.div_eq_of_lt inside', Nat.mul_add_mod, Nat.mod_eq_of_lt column, Nat.mod_eq_of_lt inside']
        at rows columns
      omega
    · rintro ⟨rfl, rfl⟩
      rfl
  simp only [planeOf, List.getElem_map, List.getElem_range, List.getElem_modify, Function.update_apply,
    place]
  by_cases here : y = r
  · simp [here, List.getElem_set]
  · simp [here]

end

/-- The low bytes of the cells. -/
def Fb.chars (fb : Fb) : List (List UInt8) :=
  planeOf fb.width fb.height fun i => (fb.cells i).char

/-- The framebuffer has the characters of the terminal, and the cursor where it is. -/
structure Shows {w h : Nat} (fb : Fb) (t : Terminal w h) : Prop where
  width : fb.width = w
  height : fb.height = h
  x : fb.x = t.x
  y : fb.y = t.y
  chars : fb.chars = t.rows

section

variable {w h : Nat} {fb fb' : Fb} {t : Terminal w h} {c : UInt8}

/-- A cell without a character takes the color of the cursor. -/
theorem chars_cursor {pos : Nat} (empty : (fb.cells pos).char = 0) :
    (fb.withCells (Function.update fb.cells pos ⟨0, fb.color⟩)).chars = fb.chars := by
  refine planeOf_congr fun i _ => ?_
  simp only [Fb.withCells_cells, Function.update_apply]
  split
  · next here => rw [here, empty]
  · rfl

/-- The cursor is put in its place, and a row behind the screen is brought in. -/
theorem fbCursorUpdate_eq (column : fb.x < fb.width) (within : fb.y ≤ fb.height)
    (rows : 1 ≤ fb.height) (small : fb.size * fbSupportedCharSize < 2 ^ 32) :
    ∃ fb', fbCursorUpdate fb = some fb' ∧
      fb'.width = fb.width ∧ fb'.height = fb.height ∧ fb'.x = fb.x ∧
      fb'.y = (if fb.height > fb.y then fb.y else fb.height - 1) ∧
      fb'.chars = if fb.height > fb.y then fb.chars else fb.chars.tail ++ [Terminal.blank fb.width] := by
  have scroll := fbScroll_eq within small (Nat.one_le_of_lt column) rows
  obtain ⟨g, scroll, width, height, x, y, chars⟩ : ∃ g, fbScroll fb (fb.y + 1) = some g ∧
      g.width = fb.width ∧ g.height = fb.height ∧ g.x = fb.x ∧
      g.y = (if fb.height > fb.y then fb.y else fb.height - 1) ∧
      g.chars = if fb.height > fb.y then fb.chars else fb.chars.tail ++ [Terminal.blank fb.width] := by
    by_cases above : fb.height > fb.y
    · rw [if_pos above] at scroll
      exact ⟨_, scroll, rfl, rfl, rfl, (if_pos above).symm, (if_pos above).symm⟩
    · rw [if_neg above] at scroll
      refine ⟨_, scroll, rfl, rfl, rfl, (if_neg above).symm, ?_⟩
      rw [if_neg above]
      refine Eq.trans (planeOf_congr fun i below => ?_) (planeOf_scroll rows)
      have below : i < fb.size := below
      simp only [Fb.scrolled, Fb.withCells_cells, below, if_true]
      rw [apply_ite FbCell.char]
      rfl
  have row : g.y < g.height := by
    rw [y, height]
    split <;> omega
  have inside : g.y * g.width + g.x < g.size := flat_lt row (by rw [x, width]; exact column)
  have size : g.size = fb.size := by rw [Fb.size, Fb.size, width, height]
  have pos : g.cursorPos = g.y * g.width + g.x := by
    simp only [fbSupportedCharSize] at small
    rw [Fb.cursorPos, wrap32_of_lt (x := g.y * g.width) (by omega), wrap32_of_lt (by omega)]
  rw [fbCursorUpdate, scroll]
  simp only [Option.bind_eq_bind, Option.bind_some, pos, Fb.get_eq inside]
  by_cases empty : (g.cells (g.y * g.width + g.x)).char = 0
  · simp only [empty, if_true, Fb.set_eq inside, Option.bind_some]
    exact ⟨_, rfl, width, height, x, y, (chars_cursor empty).trans chars⟩
  · simp only [empty, if_false]
    exact ⟨_, rfl, width, height, x, y, chars⟩

namespace Shows

theorem size_eq (shows : Shows fb t) : fb.size = w * h := by rw [Fb.size, shows.width, shows.height]

/-- With the cursor on the screen the update shows the same. -/
theorem update (shows : Shows fb t) (small : w * h * fbSupportedCharSize < 2 ^ 32) :
    ∃ fb', fbCursorUpdate fb = some fb' ∧ Shows fb' t := by
  have column := t.x_lt
  have row := t.y_lt
  rw [← shows.x, ← shows.width] at column
  rw [← shows.y, ← shows.height] at row
  obtain ⟨fb', done, width, height, x, y, chars⟩ := fbCursorUpdate_eq column (Nat.le_of_lt row)
    (Nat.one_le_of_lt row) (by rw [shows.size_eq]; exact small)
  rw [if_pos row] at y chars
  exact ⟨fb', done, width.trans shows.width, height.trans shows.height, x.trans shows.x,
    y.trans shows.y, chars.trans shows.chars⟩

/-- The row behind the cursor's has a number. -/
theorem next_row (shows : Shows fb t) (small : w * h * fbSupportedCharSize < 2 ^ 32) :
    wrap32 (fb.y + 1) = t.y + 1 := by
  have row := t.y_lt
  have height_le : h ≤ w * h := Nat.le_mul_of_pos_left h (Nat.zero_lt_of_lt t.x_lt)
  simp only [fbSupportedCharSize] at small
  rw [shows.y, wrap32_of_lt (by omega)]

/-- With the cursor in the next row the update shows a new row. -/
theorem newRow (width : fb.width = w) (height : fb.height = h) (x : fb.x = 0) (y : fb.y = t.y + 1)
    (chars : fb.chars = t.rows) (small : w * h * fbSupportedCharSize < 2 ^ 32) :
    ∃ fb', fbCursorUpdate fb = some fb' ∧ Shows fb' t.newRow := by
  have wide := Nat.zero_lt_of_lt t.x_lt
  have row := t.y_lt
  obtain ⟨fb', done, width', height', x', y', chars'⟩ := @fbCursorUpdate_eq fb
    (by rw [x, width]; exact wide) (by rw [y, height]; exact row) (by rw [height]; omega)
    (by rw [Fb.size, width, height]; exact small)
  refine ⟨fb', done, ?_⟩
  rw [height, y] at y' chars'
  rw [chars, width] at chars'
  rw [Terminal.newRow]
  split
  · next below =>
      rw [if_pos below] at y' chars'
      exact ⟨width'.trans width, height'.trans height, x'.trans x, y', chars'⟩
  · next last =>
      rw [if_neg last] at y' chars'
      refine ⟨width'.trans width, height'.trans height, x'.trans x, ?_, chars'⟩
      simp only [y']
      omega

/-- A character is put into its cell. -/
theorem place (shows : Shows fb t) (small : w * h * fbSupportedCharSize < 2 ^ 32) : ∃ g,
    ((fb.setByte fb.pos c).bind fun g => g.setByte (wrap32 (fb.pos + 1)) g.color) = some g ∧
      Shows g (t.place c) := by
  have wide := Nat.zero_lt_of_lt t.x_lt
  have inside : t.y * w + t.x < fb.size := by
    rw [shows.size_eq]
    exact flat_lt t.y_lt t.x_lt
  have size := shows.size_eq
  have twice : t.y * (w * 2) = t.y * w * 2 := (Nat.mul_assoc t.y w 2).symm
  have wide_le : w ≤ w * h := Nat.le_mul_of_pos_right w (Nat.zero_lt_of_lt t.y_lt)
  have column := t.x_lt
  simp only [fbSupportedCharSize] at small
  have pos : fb.pos = (t.y * w + t.x) * 2 := by
    rw [Fb.pos, shows.x, shows.y, shows.width, fbSupportedCharSize, wrap32_of_lt (x := w * 2) (by omega),
      twice, wrap32_of_lt (x := t.y * w * 2) (by omega), wrap32_of_lt (x := t.x * 2) (by omega),
      wrap32_of_lt (by omega), Nat.add_mul]
  have low : fb.setByte ((t.y * w + t.x) * 2) c = some (fb.withCells
      (Function.update fb.cells (t.y * w + t.x) ⟨c, (fb.cells (t.y * w + t.x)).color⟩)) := by
    rw [Fb.setByte, Nat.mul_div_cancel _ (by decide), Fb.get_eq inside, Option.bind_eq_bind,
      Option.bind_some, Nat.mul_mod_left, if_pos rfl, Fb.set_eq inside]
  have high (cells : Nat → FbCell) (b : UInt8) :
      (fb.withCells cells).setByte ((t.y * w + t.x) * 2 + 1) b = some (fb.withCells
        (Function.update cells (t.y * w + t.x) ⟨(cells (t.y * w + t.x)).char, b⟩)) := by
    rw [Fb.setByte, show ((t.y * w + t.x) * 2 + 1) / 2 = t.y * w + t.x by omega,
      Fb.get_eq (by exact inside), Option.bind_eq_bind, Option.bind_some, if_neg (by omega),
      Fb.set_eq (by exact inside)]
    rfl
  refine ⟨fb.withCells (Function.update fb.cells (t.y * w + t.x) ⟨c, fb.color⟩), ?_, shows.width,
    shows.height, shows.x, shows.y, ?_⟩
  · rw [pos, low, Option.bind_some, wrap32_of_lt (by omega), high]
    simp only [Function.update_self, Function.update_idem]
    rfl
  · have chars := shows.chars
    simp only [Fb.chars, shows.width, shows.height] at chars
    simp only [Fb.chars, Fb.withCells_width, Fb.withCells_height, Fb.withCells_cells, shows.width,
      shows.height, Terminal.place, ← chars, ← planeOf_put t.x_lt]
    refine planeOf_congr fun i _ => ?_
    simp only [Function.update_apply]
    split <;> rfl

/-- The cursor moves behind the character. -/
theorem advance (shows : Shows fb t) (small : w * h * fbSupportedCharSize < 2 ^ 32) : ∃ fb',
    fbCursorUpdate (if wrap32 (fb.x + 1) > pred32 fb.width then
      { fb with x := 0, y := wrap32 (fb.y + 1) } else { fb with x := wrap32 (fb.x + 1) }) = some fb' ∧
      Shows fb' t.advance := by
  have column := t.x_lt
  have wide_le : w ≤ w * h := Nat.le_mul_of_pos_right w (Nat.zero_lt_of_lt t.y_lt)
  have row := shows.next_row small
  simp only [fbSupportedCharSize] at small
  have next : wrap32 (fb.x + 1) = t.x + 1 := by rw [shows.x, wrap32_of_lt (by omega)]
  have last : pred32 fb.width = w - 1 := by rw [shows.width, pred32_eq (by omega)]
  rw [Terminal.advance]
  split
  · next behind =>
      rw [next, last] at behind
      rw [dif_neg (by omega)]
      exact newRow shows.width shows.height rfl row shows.chars small
  · next inside =>
      rw [next, last] at inside
      rw [dif_pos (show t.x + 1 < w by omega)]
      exact update ⟨shows.width, shows.height, next, shows.y, shows.chars⟩ small

/-- `fb_write` does what the terminal does. -/
theorem write (shows : Shows fb t) (small : w * h * fbSupportedCharSize < 2 ^ 32) :
    ∃ fb', fbWrite fb c = some fb' ∧ Shows fb' (t.write c) := by
  rw [fbWrite, Terminal.write]
  split
  · exact newRow shows.width shows.height rfl (shows.next_row small) shows.chars small
  split
  · exact @update w h { fb with x := 0 } t.toFirst
      ⟨shows.width, shows.height, rfl, shows.y, shows.chars⟩ small
  split
  · exact ⟨fb, rfl, shows⟩
  obtain ⟨g, placed, shows⟩ := @place w h fb t c shows small
  obtain ⟨lower, first, second⟩ := Option.bind_eq_some_iff.mp placed
  simp only [first, second, Option.bind_eq_bind, Option.bind_some]
  exact shows.advance small

end Shows

/-- `fb_clear` clears the screen. -/
theorem fbClear_shows (wide : 1 ≤ w) (high : 1 ≤ h) (width : fb.width = w) (height : fb.height = h)
    (small : w * h * fbSupportedCharSize < 2 ^ 32) :
    ∃ fb', fbClear fb = some fb' ∧ Shows fb' (Terminal.clear wide high) := by
  have size : fb.size = w * h := by rw [Fb.size, width, height]
  simp only [fbSupportedCharSize] at small
  rw [fbClear, width, height, wrap32_of_lt (by omega), fbZero_eq (by omega), Option.bind_eq_bind,
    Option.bind_some]
  refine ⟨_, rfl, width, height, rfl, rfl, ?_⟩
  simp only [Fb.chars, Fb.withCells_width, Fb.withCells_height, Fb.withCells_cells, width, height,
    Nat.zero_le, Nat.zero_add, true_and]
  refine planeOf_zero fun i below => ?_
  rw [if_pos below]

/-- The colors leave no trace among the characters. -/
theorem fbWriteAll_shows (shows : Shows fb t) (small : w * h * fbSupportedCharSize < 2 ^ 32)
    (bytes : List (UInt8 × UInt8)) : ∃ fb', fbWriteAll fb bytes = some fb' ∧
      Shows fb' ((bytes.map Prod.snd).foldl Terminal.write t) := by
  induction bytes generalizing fb t with
  | nil => exact ⟨fb, rfl, shows⟩
  | cons byte bytes ih =>
      obtain ⟨color, c⟩ := byte
      obtain ⟨g, written, shows⟩ := @Shows.write w h { fb with color } t c
        ⟨shows.width, shows.height, shows.x, shows.y, shows.chars⟩ small
      obtain ⟨fb', rest, shows⟩ := ih shows
      exact ⟨fb', by rw [fbWriteAll, written]; exact rest, shows⟩

/-- The console is a terminal: after `fb_clear` and any bytes, in any colors, all accesses were to
    cells of the buffer, the cursor is on the screen, and it and the characters are those of the
    terminal. -/
theorem fbWriteAll_terminal (wide : 1 ≤ w) (high : 1 ≤ h)
    (small : w * h * fbSupportedCharSize < 2 ^ 32) (width : fb.width = w) (height : fb.height = h)
    (bytes : List (UInt8 × UInt8)) :
    ∃ fb' t, t = (bytes.map Prod.snd).foldl Terminal.write (Terminal.clear wide high) ∧
      ((fbClear fb).bind fun fb => fbWriteAll fb bytes) = some fb' ∧ fb'.x < w ∧ fb'.y < h ∧
      fb'.x = t.x ∧ fb'.y = t.y ∧ fb'.chars = t.rows := by
  obtain ⟨cleared, clear, shows⟩ := fbClear_shows wide high width height small
  obtain ⟨fb', written, shows⟩ := fbWriteAll_shows shows small bytes
  refine ⟨fb', _, rfl, by rw [clear]; exact written, ?_, ?_, shows.x, shows.y, shows.chars⟩
  · rw [shows.x]
    exact Terminal.x_lt _
  · rw [shows.y]
    exact Terminal.y_lt _

end

/-! ### Two rows of three characters -/

def smallScreen : Fb := ⟨3, 2, 1, 1, 0x0f, fun _ => ⟨0x20, 0⟩, 0, 0⟩

/-- `"abcd\ne"` scrolls the first row away. -/
def fiveLetters : List (UInt8 × UInt8) :=
  [0x61, 0x62, 0x63, 0x64, newline, 0x65].map fun c => (0x0f, c)

theorem fbWriteAll_terminal_smallScreen :
    ∃ fb' t, t = (fiveLetters.map Prod.snd).foldl Terminal.write
        (Terminal.clear (w := 3) (h := 2) (by decide) (by decide)) ∧
      ((fbClear smallScreen).bind fun fb => fbWriteAll fb fiveLetters) = some fb' ∧ fb'.x < 3 ∧
      fb'.y < 2 ∧ fb'.x = t.x ∧ fb'.y = t.y ∧ fb'.chars = t.rows :=
  @fbWriteAll_terminal 3 2 smallScreen (by decide) (by decide) (by decide) rfl rfl fiveLetters

end Sdx.Video
