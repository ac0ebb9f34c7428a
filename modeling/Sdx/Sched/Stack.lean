import Sdx.Base
import Sdx.Lib.Bytes

/-! # Arguments on the user stack (`sched/stack.c`)

`task_stack_add_list` lays out a list of strings below the stack pointer: the pointers, with a
`NULL` behind them, and below them the strings, each put as low as the alignment wants it. The
pointer of a string is the stack pointer after the alignment, so it is in front of the copy by
the padding.
-/

namespace Sdx.Sched

open Sdx.Lib.Bytes

/-! ## The code -/

/-- A string, without its terminating `NUL`. -/
structure CString where
  chars : List UInt8
  noNul : 0 ∉ chars

namespace CString

/-- The string as it is in memory. -/
def bytes (str : CString) : List UInt8 := str.chars ++ [0]

/-- `strlen(str) + 1`. -/
def size (str : CString) : Nat := str.chars.length + 1

end CString

/-- What `stack.c` reads and writes: memory, and `regs.rsp` of the task. -/
structure TaskStack where
  mem : Memory
  rsp : Nat

/-- The loop of `task_stack_add` that fixes the alignment. -/
def taskStackAlign : Nat → Nat → Nat × Nat
  | 0, size => (0, size)
  | rsp + 1, size => if (rsp + 1) % 8 ≠ 0 then taskStackAlign rsp (size + 1) else (rsp + 1, size)

/-- `task_stack_add`. -/
def taskStackAdd (s : TaskStack) (val : List UInt8) : Nat × TaskStack :=
  let rsp := sub64 s.rsp val.length
  let mem := store s.mem rsp val
  let (rsp, size) := taskStackAlign rsp val.length
  (size, ⟨mem, rsp⟩)

/-- The loop of `task_stack_add_list` that makes room for the pointers. -/
def taskStackReserve (limit i : Nat) (s : TaskStack) : List CString → Int × TaskStack
  | [] => (0, s)
  | _ :: list =>
      if i > limit then (-e2BIG, s)
      else taskStackReserve limit (i + 1) { s with rsp := sub64 s.rsp 8 } list

/-- The loop of `task_stack_add_list` that copies the strings, and the `NULL` behind the pointers. -/
def taskStackCopy (limit total cur : Nat) (s : TaskStack) : List CString → Int × TaskStack
  | [] => (0, { s with mem := store s.mem cur (encode 8 0) })
  | str :: list =>
      let total := wrap64 (total + str.size)
      if total > limit then (-e2BIG, s)
      else
        let (_, s) := taskStackAdd s str.bytes
        taskStackCopy limit total (cur + 8) { s with mem := store s.mem cur (encode 8 s.rsp) } list

/-- `task_stack_add_list`: the error or 0, and what it writes to `stack`. -/
def taskStackAddList (s : TaskStack) (list : Option (List CString)) (limit : Nat) :
    Int × Option Nat × TaskStack :=
  let list := list.getD []
  let (err, s) := taskStackReserve limit 0 s list
  if err ≠ 0 then (err, none, s)
  else
    let s := { s with rsp := sub64 s.rsp 8 }
    let stack := s.rsp
    let (err, s) := taskStackCopy limit 0 stack s list
    (err, some stack, s)

/-! ## Where the strings go -/

/-- What the alignment adds to a size. -/
def stackPad (size : Nat) : Nat := (8 - size % 8) % 8

/-- The room that the strings of a list take. -/
def stringsRoom (list : List CString) : Nat := (list.map fun str => str.size + stackPad str.size).sum

/-- The pointer that is recorded for the string `i`, with the strings below `top`. -/
def stringAt (top : Nat) (list : List CString) (i : Nat) : Nat := top - stringsRoom (list.take (i + 1))

/-- The room that a list takes, with its pointers. -/
def listRoom (list : List CString) : Nat := 8 * (list.length + 1) + stringsRoom list

/-- The memory at the pointer that is recorded for a string reads as that string: there is no
    padding, or the padding already held it. -/
def ReadsBack (m : Memory) (a : Nat) (str : CString) : Prop :=
  8 ∣ str.size ∨ (str.size ≤ stackPad str.size ∧ Holds m a str.bytes)

/-- The memory at `stack` is the list, and the rest is as it was. -/
structure ListOnStack (s s' : TaskStack) (stack : Nat) (list : List CString) : Prop where
  pointers : ∀ i, i < list.length → read s'.mem (stack + 8 * i) 8 ≠ 0
  ends : read s'.mem (stack + 8 * list.length) 8 = 0
  strings : ∀ i, (h : i < list.length) → Holds s'.mem (read s'.mem (stack + 8 * i) 8) list[i].bytes
  apart : ∀ i, (h : i < list.length) → read s'.mem (stack + 8 * i) 8 + list[i].size ≤ stack
  aligned : 8 ∣ s'.rsp
  below : s'.rsp ≤ stack ∧ ∀ i, i < list.length → s'.rsp ≤ read s'.mem (stack + 8 * i) 8
  intact : ∀ x, s.rsp ≤ x → s'.mem x = s.mem x

section

variable {s : TaskStack} {str : CString} {list : List CString} {top i limit total cur : Nat}

@[simp] theorem CString.length_bytes : str.bytes.length = str.size := by
  simp [bytes, size]

theorem CString.size_pos : 0 < str.size := Nat.succ_pos _

theorem dvd_add_stackPad (size : Nat) : 8 ∣ size + stackPad size := by
  unfold stackPad
  omega

theorem stackPad_eq_zero {size : Nat} : stackPad size = 0 ↔ 8 ∣ size := by
  unfold stackPad
  omega

@[simp] theorem stringsRoom_nil : stringsRoom [] = 0 := rfl

@[simp] theorem stringsRoom_cons :
    stringsRoom (str :: list) = str.size + stackPad str.size + stringsRoom list := rfl

theorem dvd_stringsRoom (list : List CString) : 8 ∣ stringsRoom list := by
  induction list with
  | nil => exact Nat.dvd_zero 8
  | cons str list ih => exact Nat.dvd_add (dvd_add_stackPad str.size) ih

theorem stringAt_zero : stringAt top (str :: list) 0 = top - (str.size + stackPad str.size) := by
  simp [stringAt]

theorem stringAt_succ : stringAt top (str :: list) (i + 1) =
    stringAt (top - (str.size + stackPad str.size)) list i := by
  rw [stringAt, List.take_succ_cons, stringsRoom_cons, Nat.sub_add_eq, stringAt]

/-- Every string is between the new stack pointer and the old one. -/
theorem stringAt_bounds (room : stringsRoom list ≤ top) (h : i < list.length) :
    top - stringsRoom list ≤ stringAt top list i ∧
      stringAt top list i + (list[i].size + stackPad list[i].size) ≤ top := by
  induction list generalizing top i with
  | nil => exact absurd h (Nat.not_lt_zero _)
  | cons str list ih =>
      rw [stringsRoom_cons] at room
      cases i with
      | zero =>
          rw [stringAt_zero, stringsRoom_cons, List.getElem_cons_zero]
          omega
      | succ i =>
          rw [stringAt_succ, stringsRoom_cons, List.getElem_cons_succ]
          have := @ih (top - (str.size + stackPad str.size)) i (by omega)
            (Nat.lt_of_succ_lt_succ h)
          omega

theorem taskStackAlign_eq (rsp size : Nat) :
    taskStackAlign rsp size = (rsp - rsp % 8, size + rsp % 8) := by
  induction rsp generalizing size with
  | zero => rfl
  | succ rsp ih =>
      rw [taskStackAlign]
      split
      case isTrue off =>
        rw [ih]
        simp only [Prod.mk.injEq]
        omega
      case isFalse aligned =>
        simp only [Prod.mk.injEq]
        omega

theorem CString.bytes_last (h : str.size - 1 < str.bytes.length) : str.bytes[str.size - 1] = 0 := by
  simp [bytes, size]

theorem CString.bytes_char {k : Nat} (h : k + 1 < str.size) (bound : k < str.bytes.length) :
    str.bytes[k] ≠ 0 := by
  have inside : k < str.chars.length := Nat.lt_of_succ_lt_succ h
  have char : str.bytes[k] = str.chars[k] := List.getElem_append_left inside
  rw [char]
  intro zero
  exact str.noNul (zero ▸ List.getElem_mem inside)

/-- A string is read in front of its copy only if it was there before: a copy that began
    earlier would have its `NUL` on a character. -/
theorem holds_store_pad {m : Memory} {a pad : Nat} :
    Holds (store m (a + pad) str.bytes) a str.bytes ↔
      pad = 0 ∨ (str.size ≤ pad ∧ Holds m a str.bytes) := by
  have front : str.size ≤ pad → ∀ x, a ≤ x → x < a + str.bytes.length →
      store m (a + pad) str.bytes x = m x := by
    intro small x _ high
    rw [CString.length_bytes] at high
    exact store_outside (.inl (by omega))
  constructor
  · intro holds
    by_cases none : pad = 0
    · exact .inl none
    · by_cases small : str.size ≤ pad
      · exact .inr ⟨small, (Holds.congr_iff (front small)).mp holds⟩
      · exfalso
        have inside : str.size - 1 < str.bytes.length := by rw [CString.length_bytes]; omega
        have inside' : str.size - 1 - pad < str.bytes.length := by omega
        have last := holds (str.size - 1) inside
        have copy : store m (a + pad) str.bytes (a + pad + (str.size - 1 - pad)) =
            str.bytes[str.size - 1 - pad] := store_inside _
        rw [show a + pad + (str.size - 1 - pad) = a + (str.size - 1) by omega, last] at copy
        exact CString.bytes_char (by omega) inside' (copy.symm.trans (CString.bytes_last inside))
  · rintro (rfl | ⟨small, holds⟩)
    · exact holds_store
    · exact (Holds.congr_iff (front small)).mpr holds

/-- One string on the stack: what `task_stack_add` leaves behind when the stack pointer is aligned. -/
theorem taskStackAdd_eq (aligned : 8 ∣ s.rsp) (small : s.rsp < 2 ^ 64)
    (room : str.size + stackPad str.size ≤ s.rsp) :
    (taskStackAdd s str.bytes).2 =
      ⟨store s.mem (s.rsp - str.size) str.bytes, s.rsp - (str.size + stackPad str.size)⟩ := by
  have pad : (s.rsp - str.size) % 8 = stackPad str.size := by
    unfold stackPad
    omega
  rw [taskStackAdd, CString.length_bytes, sub64_of_le (by omega) small, taskStackAlign_eq, pad,
    Nat.sub_sub]

/-- The strings of a list, below an aligned stack pointer and the pointers. -/
structure Copied (s s' : TaskStack) (cur : Nat) (list : List CString) : Prop where
  rsp : s'.rsp = s.rsp - stringsRoom list
  below : ∀ x, x < s'.rsp → s'.mem x = s.mem x
  above : ∀ x, s.rsp ≤ x → x < cur ∨ cur + 8 * (list.length + 1) ≤ x → s'.mem x = s.mem x
  pointers : ∀ i, i < list.length → read s'.mem (cur + 8 * i) 8 = stringAt s.rsp list i
  ends : read s'.mem (cur + 8 * list.length) 8 = 0
  strings : ∀ i, (h : i < list.length) → (Holds s'.mem (stringAt s.rsp list i) list[i].bytes ↔
    ReadsBack s.mem (stringAt s.rsp list i) list[i])

/-- The stack behind one string and its pointer. -/
def taskStackPut (s : TaskStack) (cur : Nat) (str : CString) : TaskStack where
  mem := store (store s.mem (s.rsp - str.size) str.bytes) cur
    (encode 8 (s.rsp - (str.size + stackPad str.size)))
  rsp := s.rsp - (str.size + stackPad str.size)

theorem taskStackCopy_cons (aligned : 8 ∣ s.rsp) (small : s.rsp < 2 ^ 64)
    (room : str.size + stackPad str.size ≤ s.rsp) (fits : total + str.size ≤ limit)
    (limit_lt : limit < 2 ^ 64) : taskStackCopy limit total cur s (str :: list) =
      taskStackCopy limit (total + str.size) (cur + 8) (taskStackPut s cur str) list := by
  have within : ¬ total + str.size > limit := by omega
  rw [taskStackCopy, wrap64_of_lt (by omega)]
  simp only [if_neg within, taskStackAdd_eq aligned small room]
  rfl

theorem taskStackPut_below {x : Nat} (apart : s.rsp ≤ cur) (low : x < (taskStackPut s cur str).rsp) :
    (taskStackPut s cur str).mem x = s.mem x := by
  simp only [taskStackPut] at low ⊢
  rw [store_outside (.inl (by omega)), store_outside (.inl (by omega))]

theorem taskStackPut_above {x : Nat} (room : str.size ≤ s.rsp) (high : s.rsp ≤ x)
    (out : x < cur ∨ cur + 8 ≤ x) : (taskStackPut s cur str).mem x = s.mem x := by
  have size : str.bytes.length = str.size := CString.length_bytes
  simp only [taskStackPut]
  rw [store_outside (by rw [length_encode]; exact out), store_outside (.inr (by omega))]

theorem taskStackPut_string {x : Nat} (room : str.size + stackPad str.size ≤ s.rsp)
    (out : x < cur) : (taskStackPut s cur str).mem x =
      store s.mem ((taskStackPut s cur str).rsp + stackPad str.size) str.bytes x := by
  have copy : s.rsp - (str.size + stackPad str.size) + stackPad str.size = s.rsp - str.size := by
    omega
  simp only [taskStackPut, copy]
  exact store_outside (.inl out)

/-- The rest of the list, below the first string. -/
theorem Copied.cons {s' : TaskStack} (small : s.rsp < 2 ^ 64) (apart : s.rsp ≤ cur)
    (room : str.size + stackPad str.size + stringsRoom list ≤ s.rsp)
    (copied : Copied (taskStackPut s cur str) s' (cur + 8) list) :
    Copied s s' cur (str :: list) := by
  obtain ⟨rsp, below, above, pointers, ends, strings⟩ := copied
  have rsp₂ : (taskStackPut s cur str).rsp = s.rsp - (str.size + stackPad str.size) := rfl
  have stored : Holds (taskStackPut s cur str).mem cur
      (encode 8 (s.rsp - (str.size + stackPad str.size))) := holds_store
  have low₂ (x : Nat) := @taskStackPut_below s str cur x apart
  have high₂ (x : Nat) := @taskStackPut_above s str cur x (by omega)
  have string₂ (x : Nat) := @taskStackPut_string s str cur x (by omega)
  generalize taskStackPut s cur str = s₂ at *
  refine ⟨?_, fun x low => ?_, fun x low out => ?_, fun i h => ?_, ?_, fun i h => ?_⟩
  · rw [rsp, rsp₂, stringsRoom_cons, Nat.sub_sub]
  · rw [below x low]
    exact low₂ x (by omega)
  · rw [List.length_cons] at out
    rw [above x (by omega) (by omega)]
    exact high₂ x low (by omega)
  · cases i with
    | zero =>
        rw [stringAt_zero, Nat.mul_zero, Nat.add_zero]
        refine read_eq_of_encode (stored.congr fun x low high => ?_) (by omega)
        rw [length_encode] at high
        exact above x (by omega) (.inl (by omega))
    | succ i =>
        have shift : cur + 8 * (i + 1) = cur + 8 + 8 * i := by omega
        rw [stringAt_succ, ← rsp₂, shift, pointers i (Nat.lt_of_succ_lt_succ h)]
  · have shift : cur + 8 * (list.length + 1) = cur + 8 + 8 * list.length := by omega
    rw [List.length_cons, shift, ends]
  · cases i with
    | zero =>
        have here : ∀ x, s₂.rsp ≤ x → x < s₂.rsp + str.bytes.length →
            s'.mem x = store s.mem (s₂.rsp + stackPad str.size) str.bytes x := by
          intro x low high
          rw [CString.length_bytes] at high
          rw [above x low (.inl (by omega)), string₂ x (by omega)]
        rw [List.getElem_cons_zero, stringAt_zero, ← rsp₂, Holds.congr_iff here, holds_store_pad,
          ReadsBack, stackPad_eq_zero]
    | succ i =>
        have inside := Nat.lt_of_succ_lt_succ h
        have bounds := @stringAt_bounds list s₂.rsp i (by omega) inside
        rw [List.getElem_cons_succ, stringAt_succ, ← rsp₂, strings i inside, ReadsBack, ReadsBack]
        refine or_congr_right (and_congr_right fun small => Holds.congr_iff ?_)
        intro x _ high
        rw [CString.length_bytes] at high
        exact low₂ x (by omega)

theorem taskStackCopy_copied (aligned : 8 ∣ s.rsp) (small : s.rsp < 2 ^ 64) (apart : s.rsp ≤ cur)
    (room : stringsRoom list ≤ s.rsp) (fits : total + (list.map CString.size).sum ≤ limit)
    (limit_lt : limit < 2 ^ 64) :
    ∃ s', taskStackCopy limit total cur s list = (0, s') ∧ Copied s s' cur list := by
  induction list generalizing s total cur with
  | nil =>
      refine ⟨_, rfl, rfl, fun x low => ?_, fun x low out => ?_, nofun, ?_, nofun⟩
      · have : x < s.rsp := low
        exact store_outside (.inl (by omega))
      · simp only [List.length_nil] at out
        exact store_outside (by simp only [length_encode]; omega)
      · exact read_eq_of_encode holds_store (by decide)
  | cons str list ih =>
      rw [stringsRoom_cons] at room
      rw [List.map_cons, List.sum_cons] at fits
      have padded := dvd_add_stackPad str.size
      have rsp₂ : (taskStackPut s cur str).rsp = s.rsp - (str.size + stackPad str.size) := rfl
      obtain ⟨s', result, copied⟩ := @ih (taskStackPut s cur str) (total + str.size) (cur + 8)
        (by omega) (by omega) (by omega) (by omega) (by omega)
      refine ⟨s', ?_, copied.cons small apart room⟩
      rw [taskStackCopy_cons aligned small (by omega) (by omega) limit_lt, result]

theorem taskStackReserve_eq (small : s.rsp < 2 ^ 64) (room : 8 * list.length ≤ s.rsp)
    (fits : i + list.length ≤ limit + 1) :
    taskStackReserve limit i s list = (0, { s with rsp := s.rsp - 8 * list.length }) := by
  induction list generalizing s i with
  | nil => rfl
  | cons str list ih =>
      rw [List.length_cons] at room fits ⊢
      rw [taskStackReserve, if_neg (by omega), sub64_of_le (by omega) small]
      rw [ih (by dsimp only; omega) (by dsimp only; omega) (by omega)]
      simp only [Prod.mk.injEq, TaskStack.mk.injEq, true_and]
      omega

theorem length_le_sizes : list.length ≤ (list.map CString.size).sum := by
  induction list with
  | nil => exact Nat.le_refl 0
  | cons str list ih =>
      have := str.size_pos
      rw [List.length_cons, List.map_cons, List.sum_cons]
      omega

/-- A list that fits is copied below the space for its pointers. -/
theorem taskStackAddList_copied {list : Option (List CString)} (aligned : 8 ∣ s.rsp)
    (small : s.rsp < 2 ^ 64) (room : listRoom (list.getD []) ≤ s.rsp)
    (fits : ((list.getD []).map CString.size).sum ≤ limit) (limit_lt : limit < 2 ^ 64) :
    ∃ s', taskStackAddList s list limit =
        (0, some (s.rsp - 8 * ((list.getD []).length + 1)), s') ∧
      Copied ⟨s.mem, s.rsp - 8 * ((list.getD []).length + 1)⟩ s'
        (s.rsp - 8 * ((list.getD []).length + 1)) (list.getD []) := by
  simp only [taskStackAddList]
  generalize list.getD [] = list at *
  have count := @length_le_sizes list
  rw [listRoom] at room
  -- the strings go below the pointers
  have reserve := @taskStackReserve_eq s list 0 limit small (by omega) (by omega)
  have stack_eq : sub64 (s.rsp - 8 * list.length) 8 = s.rsp - 8 * (list.length + 1) := by
    rw [sub64_of_le (by omega) (by omega)]
    omega
  obtain ⟨s', result, copied⟩ := @taskStackCopy_copied ⟨s.mem, s.rsp - 8 * (list.length + 1)⟩ list
    limit 0 (s.rsp - 8 * (list.length + 1)) (by dsimp only; omega) (by dsimp only; omega)
    (Nat.le_refl _) (by dsimp only; omega) (by omega) limit_lt
  refine ⟨s', ?_, copied⟩
  rw [reserve]
  simp only [ne_eq, not_true, if_false, stack_eq, result]

/-- A list that fits is put onto the stack as it is exactly when every string reads back from
    the pointer that is recorded for it. -/
theorem taskStackAddList_listOnStack_iff {low : Nat} {list : Option (List CString)}
    (aligned : 8 ∣ s.rsp) (small : s.rsp < 2 ^ 64) (low_pos : 0 < low)
    (room : low + listRoom (list.getD []) ≤ s.rsp)
    (fits : ((list.getD []).map CString.size).sum ≤ limit) (limit_lt : limit < 2 ^ 64) :
    ∃ s' stack, taskStackAddList s list limit = (0, some stack, s') ∧
      (ListOnStack s s' stack (list.getD []) ↔ ∀ i, (h : i < (list.getD []).length) →
        ReadsBack s.mem (stringAt (s.rsp - 8 * ((list.getD []).length + 1)) (list.getD []) i)
          (list.getD [])[i]) := by
  obtain ⟨s', result, rsp, below, above, pointers, ends, strings⟩ :=
    @taskStackAddList_copied s limit list aligned small (by omega) fits limit_lt
  generalize list.getD [] = list at *
  rw [listRoom] at room
  dsimp only at rsp below above pointers ends strings
  refine ⟨s', s.rsp - 8 * (list.length + 1), result, ?_⟩
  have bounds (i : Nat) (h : i < list.length) :=
    @stringAt_bounds list (s.rsp - 8 * (list.length + 1)) i (by omega) h
  have read_back : (∀ i, (h : i < list.length) →
      Holds s'.mem (read s'.mem (s.rsp - 8 * (list.length + 1) + 8 * i) 8) list[i].bytes) ↔
      ∀ i, (h : i < list.length) → ReadsBack s.mem
        (stringAt (s.rsp - 8 * (list.length + 1)) list i) list[i] := by
    refine forall_congr' fun i => forall_congr' fun h => ?_
    rw [pointers i h]
    exact strings i h
  refine ⟨fun onStack => read_back.mp onStack.strings, fun every => ?_⟩
  refine ⟨fun i h => ?_, ends, read_back.mpr every, fun i h => ?_, ?_, ⟨?_, fun i h => ?_⟩,
    fun x high => ?_⟩
  · rw [pointers i h]
    have := bounds i h
    omega
  · rw [pointers i h]
    have := bounds i h
    omega
  · have := dvd_stringsRoom list
    omega
  · omega
  · rw [pointers i h, rsp]
    exact (bounds i h).1
  · exact above x (by omega) (.inr (by omega))

/-- A list on the stack stays there while another one is added. -/
theorem ListOnStack.later {s₀ s₁ : TaskStack} {stack stack₁ : Nat} {list list₁ : List CString}
    (first : ListOnStack s₀ s stack list) (second : ListOnStack s s₁ stack₁ list₁) :
    read s₁.mem (stack + 8 * list.length) 8 = 0 ∧ ∀ i, (h : i < list.length) →
      read s₁.mem (stack + 8 * i) 8 = read s.mem (stack + 8 * i) 8 ∧
        Holds s₁.mem (read s₁.mem (stack + 8 * i) 8) list[i].bytes := by
  have same (i : Nat) : read s₁.mem (stack + 8 * i) 8 = read s.mem (stack + 8 * i) 8 :=
    read_congr fun x low _ => second.intact x (by have := first.below.1; omega)
  refine ⟨(same _).trans first.ends, fun i h => ⟨same i, ?_⟩⟩
  rw [same i]
  exact (first.strings i h).congr fun x low _ =>
    second.intact x (Nat.le_trans (first.below.2 i h) low)

end

/-! ## Strings that end at the alignment, and others -/

/-- With its `NUL` the string fills a word. -/
theorem taskStackAddList_oneWord : ∃ s' stack,
    taskStackAddList ⟨fun _ => 255, 64⟩ (some [⟨[104, 105, 106, 107, 108, 109, 110], by decide⟩]) 16 =
        (0, some stack, s') ∧
      ListOnStack ⟨fun _ => 255, 64⟩ s' stack [⟨[104, 105, 106, 107, 108, 109, 110], by decide⟩] := by
  obtain ⟨s', stack, result, onStack⟩ := @taskStackAddList_listOnStack_iff ⟨fun _ => 255, 64⟩ 16 8
    (some [⟨[104, 105, 106, 107, 108, 109, 110], by decide⟩])
    (by decide) (by decide) (by decide) (by decide) (by decide) (by decide)
  refine ⟨s', stack, result, onStack.mpr fun i h => ?_⟩
  obtain rfl : i = 0 := by simpa using h
  exact .inl ⟨1, rfl⟩

/-- The string `hi` goes to 45, and the pointer is 40. -/
theorem not_listOnStack : ∃ s' stack,
    taskStackAddList ⟨fun _ => 255, 64⟩ (some [⟨[104, 105], by decide⟩]) 16 = (0, some stack, s') ∧
      ¬ ListOnStack ⟨fun _ => 255, 64⟩ s' stack [⟨[104, 105], by decide⟩] := by
  refine ⟨_, _, rfl, fun onStack => ?_⟩
  exact absurd (onStack.strings 0 (by decide) 0 (by decide)) (by decide)

end Sdx.Sched
