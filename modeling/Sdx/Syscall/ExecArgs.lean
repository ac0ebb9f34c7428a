import Sdx.Fs.Vfs
import Sdx.Mm.Region
import Sdx.Util.Charlist

/-! # The arguments of a new program (`syscall/exec.c`, `sched/stack.c`)

`sys_exec` puts the environment, the arguments and the pointers to both on the user stack. The
limits on the two lists count characters; what a list takes on the stack is a pointer for each
string and the string with its padding. Nothing compares that with the size of the stack.
-/

namespace Sdx.Syscall

open Lib.Bytes Fs Mm Sched Util

/-- `ARG_MAX`. -/
def argMax : Nat := pageSize

/-- `ENV_MAX`, which is `INT32_MAX`. -/
def envMax : Nat := 0x7fffffff

theorem argMax_lt : argMax < 2 ^ 64 := by
  unfold argMax pageSize
  omega

theorem envMax_lt : envMax < 2 ^ 64 := by
  unfold envMax
  omega

/-- `CONFIG_TASK_STACK_PAGES`. -/
def taskStackPages : Nat := 4

/-- `task_stack_get`, in the regions of a task. -/
def taskStackGet (mem : List Region) (user : Bool) : Option Nat :=
  (mem.find? fun cur => cur.type = .stack ∧ cur.user = user).map fun stack =>
    stack.vaddr + stack.num * pageSize

/-- The bytes of the two pointers at the end. -/
def execPushPointers (s : TaskStack) (stackEnvp stackArgv : List UInt8) : TaskStack :=
  let (_, s) := taskStackAdd s stackEnvp
  let (_, s) := taskStackAdd s stackArgv
  s

/-- `sys_exec` from the first `task_stack_add_list` on: the error that it panics with, or 0, and the
    stack. -/
def execPush (s : TaskStack) (argvCopy envpCopy : Option (List CString)) (name : CString) :
    Int × TaskStack :=
  let (err, stackEnvp, s) := taskStackAddList s envpCopy envMax
  if err ≠ 0 then (err, s)
  else
    -- a `NULL` list of arguments is replaced
    let (err, stackArgv, s) := taskStackAddList s (some (argvCopy.getD [name])) argMax
    if err ≠ 0 then (err, s)
    else (0, execPushPointers s (encode 8 (stackEnvp.getD 0)) (encode 8 (stackArgv.getD 0)))

/-- The copies of the two lists, if there are any, and the name of the task. -/
structure ExecArgs where
  argv : Option (List CString)
  envp : Option (List CString)
  name : CString
  argv_within : ∀ list, argv = some list → WithinLimit list argMax
  envp_within : ∀ list, envp = some list → WithinLimit list envMax
  name_fits : name.chars.length ≤ nameMax

/-- The user stack of a task. -/
structure UserStack where
  mem : List Region
  vaddr : Nat
  found : taskStackGet mem true = some (vaddr + taskStackPages * pageSize)
  aligned : pageSize ∣ vaddr
  inSpace : vaddr + taskStackPages * pageSize ≤ vmmVmaUserEnd

namespace ExecArgs

/-- The list that is put on the stack as the arguments. -/
def argvUsed (args : ExecArgs) : List CString := args.argv.getD [args.name]

/-- What the lists and the two pointers take on the stack. -/
def room (args : ExecArgs) : Nat := listRoom (args.envp.getD []) + listRoom args.argvUsed + 16

end ExecArgs

namespace UserStack

def top (stack : UserStack) : Nat := stack.vaddr + taskStackPages * pageSize

def Contains (stack : UserStack) (x : Nat) : Prop := stack.vaddr ≤ x ∧ x < stack.top

/-- The top of the user stack is the address of a word. -/
theorem top_aligned (stack : UserStack) : 8 ∣ stack.top := by
  have aligned := stack.aligned
  unfold UserStack.top taskStackPages pageSize at *
  omega

theorem top_lt (stack : UserStack) : stack.top < 2 ^ 64 := by
  have base := stack.inSpace
  unfold UserStack.top
  unfold vmmVmaUserEnd at base
  omega

end UserStack

section

variable {s : TaskStack} {list : List CString} {limit total cur i : Nat} {val : List UInt8}

theorem sub64_lt {x y : Nat} : sub64 x y < 2 ^ 64 := Nat.mod_lt _ (by decide)

theorem sub64_sub64 {x y z : Nat} (fits : y + z ≤ 2 ^ 64) :
    sub64 (sub64 x y) z = sub64 x (y + z) := by
  unfold sub64 wrap64
  omega

theorem dvd_sub64 {x y : Nat} (aligned : 8 ∣ x) (aligned' : 8 ∣ y) (fits : y ≤ 2 ^ 64) :
    8 ∣ sub64 x y := by
  unfold sub64 wrap64
  omega

/-- `task_stack_add` moves the stack pointer by the padded size, even below zero. -/
theorem taskStackAdd_rsp (aligned : 8 ∣ s.rsp) (fits : val.length + stackPad val.length ≤ 2 ^ 64) :
    (taskStackAdd s val).2.rsp = sub64 s.rsp (val.length + stackPad val.length) := by
  rw [taskStackAdd, taskStackAlign_eq]
  simp only
  unfold sub64 wrap64 stackPad at *
  omega

/-- Eight bytes need no padding. -/
theorem taskStackAdd_eight (aligned : 8 ∣ s.rsp) (length : val.length = 8) :
    (taskStackAdd s val).2 = ⟨store s.mem (sub64 s.rsp 8) val, sub64 s.rsp 8⟩ := by
  have moved := @taskStackAdd_rsp s val aligned (by rw [length]; decide)
  rw [length] at moved
  rw [taskStackAdd, taskStackAlign_eq, length] at moved ⊢
  simp only at moved ⊢
  rw [moved]
  rfl

theorem taskStackReserve_rsp (fits : i + list.length ≤ limit + 1) (small : 8 * list.length ≤ 2 ^ 64)
    (rsp : s.rsp < 2 ^ 64) :
    taskStackReserve limit i s list = (0, { s with rsp := sub64 s.rsp (8 * list.length) }) := by
  induction list generalizing s i with
  | nil =>
      rw [taskStackReserve, List.length_nil, Nat.mul_zero, sub64_of_le (Nat.zero_le _) rsp]
      rfl
  | cons str list ih =>
      rw [List.length_cons] at fits small ⊢
      rw [taskStackReserve, if_neg (by omega), ih (by omega) (by omega) sub64_lt]
      rw [sub64_sub64 (by omega), Nat.mul_succ, Nat.add_comm]

theorem taskStackCopy_rsp (aligned : 8 ∣ s.rsp) (rsp : s.rsp < 2 ^ 64)
    (small : stringsRoom list ≤ 2 ^ 64) (fits : total + (list.map CString.size).sum ≤ limit)
    (limit_lt : limit < 2 ^ 64) : ∃ s', taskStackCopy limit total cur s list = (0, s') ∧
      s'.rsp = sub64 s.rsp (stringsRoom list) := by
  induction list generalizing s total cur with
  | nil =>
      refine ⟨_, rfl, ?_⟩
      rw [stringsRoom_nil, sub64_of_le (Nat.zero_le _) rsp]
      rfl
  | cons str list ih =>
      rw [stringsRoom_cons] at small ⊢
      rw [List.map_cons, List.sum_cons] at fits
      have added := @taskStackAdd_rsp s str.bytes aligned (by rw [CString.length_bytes]; omega)
      rw [CString.length_bytes] at added
      have aligned' : 8 ∣ (taskStackAdd s str.bytes).2.rsp := by
        rw [added]
        exact dvd_sub64 aligned (dvd_add_stackPad _) (by omega)
      obtain ⟨s', copied, moved⟩ := @ih
        ⟨store (taskStackAdd s str.bytes).2.mem cur (encode 8 (taskStackAdd s str.bytes).2.rsp),
          (taskStackAdd s str.bytes).2.rsp⟩ (total + str.size) (cur + 8) aligned'
        (by rw [added]; exact sub64_lt) (by omega) (by omega)
      refine ⟨s', ?_, ?_⟩
      · rw [taskStackCopy, wrap64_of_lt (by omega)]
        simp only
        rw [if_neg (by omega)]
        exact copied
      · rw [moved, added, sub64_sub64 (by omega)]

/-- What `task_stack_add_list` returns for a list within the limit, wherever the stack ends. -/
theorem taskStackAddList_rsp {list : Option (List CString)} (aligned : 8 ∣ s.rsp)
    (rsp : s.rsp < 2 ^ 64) (small : listRoom (list.getD []) ≤ 2 ^ 64)
    (within : ((list.getD []).map CString.size).sum ≤ limit) (limit_lt : limit < 2 ^ 64) :
    ∃ s', taskStackAddList s list limit =
        (0, some (sub64 s.rsp (8 * ((list.getD []).length + 1))), s') ∧
      s'.rsp = sub64 s.rsp (listRoom (list.getD [])) := by
  simp only [taskStackAddList]
  generalize list.getD [] = list at *
  have count := @length_le_sizes list
  rw [listRoom] at small ⊢
  have below : sub64 (sub64 s.rsp (8 * list.length)) 8 = sub64 s.rsp (8 * (list.length + 1)) := by
    rw [sub64_sub64 (by omega), Nat.mul_succ]
  obtain ⟨s', copied, moved⟩ := @taskStackCopy_rsp
    ⟨s.mem, sub64 s.rsp (8 * (list.length + 1))⟩ list limit 0 (sub64 s.rsp (8 * (list.length + 1)))
    (dvd_sub64 aligned (Nat.dvd_mul_right 8 _) (by omega)) sub64_lt (by omega) (by omega) limit_lt
  refine ⟨s', ?_, ?_⟩
  · rw [taskStackReserve_rsp (by omega) (by omega) rsp]
    simp only [ne_eq, not_true, if_false, below, copied]
  · rw [moved, sub64_sub64 (by omega)]

/-- From `s` to `s'` the stack grew by `n` bytes, and the memory around them is as it was. -/
structure Pushed (s s' : TaskStack) (n : Nat) : Prop where
  rsp : s'.rsp + n = s.rsp
  around : ∀ x, x < s'.rsp ∨ s.rsp ≤ x → s'.mem x = s.mem x

theorem Pushed.trans {s s' s'' : TaskStack} {n k : Nat} (first : Pushed s s' n)
    (second : Pushed s' s'' k) : Pushed s s'' (n + k) := by
  have rsp := first.rsp
  have rsp' := second.rsp
  refine ⟨by omega, fun x out => ?_⟩
  rw [second.around x (by omega), first.around x (by omega)]

theorem taskStackAddList_pushed {list : Option (List CString)} (aligned : 8 ∣ s.rsp)
    (rsp : s.rsp < 2 ^ 64) (room : listRoom (list.getD []) ≤ s.rsp)
    (within : ((list.getD []).map CString.size).sum ≤ limit) (limit_lt : limit < 2 ^ 64) :
    ∃ stack s', taskStackAddList s list limit = (0, some stack, s') ∧
      Pushed s s' (listRoom (list.getD [])) := by
  obtain ⟨s', result, copied⟩ :=
    @taskStackAddList_copied s limit list aligned rsp room within limit_lt
  generalize list.getD [] = list at *
  have moved := copied.rsp
  rw [listRoom] at room ⊢
  dsimp only at moved
  refine ⟨s.rsp - 8 * (list.length + 1), s', result, by omega, ?_⟩
  rintro x (low | high)
  · exact copied.below x low
  · exact copied.above x (by dsimp only; omega) (.inr (by omega))

section

variable {stackEnvp stackArgv : List UInt8}

theorem execPushPointers_eq (aligned : 8 ∣ s.rsp) (envp : stackEnvp.length = 8)
    (argv : stackArgv.length = 8) : execPushPointers s stackEnvp stackArgv =
      ⟨store (store s.mem (sub64 s.rsp 8) stackEnvp) (sub64 s.rsp 16) stackArgv, sub64 s.rsp 16⟩ := by
  have aligned' : 8 ∣ sub64 s.rsp 8 := dvd_sub64 aligned (Nat.dvd_refl 8) (by decide)
  have both : sub64 (sub64 s.rsp 8) 8 = sub64 s.rsp 16 := sub64_sub64 (by decide)
  rw [execPushPointers]
  simp only
  rw [taskStackAdd_eight aligned envp, ← both]
  generalize sub64 s.rsp 8 = rsp at *
  rw [@taskStackAdd_eight ⟨store s.mem rsp stackEnvp, rsp⟩ stackArgv aligned' argv]

theorem execPushPointers_pushed (aligned : 8 ∣ s.rsp) (rsp : s.rsp < 2 ^ 64) (room : 16 ≤ s.rsp)
    (envp : stackEnvp.length = 8) (argv : stackArgv.length = 8) :
    Pushed s (execPushPointers s stackEnvp stackArgv) 16 := by
  rw [execPushPointers_eq aligned envp argv, sub64_of_le room rsp, sub64_of_le (by omega) rsp]
  refine ⟨by dsimp only; omega, fun x out => ?_⟩
  dsimp only at out ⊢
  rw [store_outside (by omega), store_outside (by omega)]

end

end

namespace ExecArgs

variable {args : ExecArgs} {s : TaskStack} {limit : Nat}

theorem withinLimit_room {list : List CString} (within : WithinLimit list limit) :
    listRoom list ≤ 16 * limit := by
  have strings : stringsRoom list ≤ (list.map CString.size).sum + 7 * list.length := by
    clear within
    induction list with
    | nil => exact Nat.le_refl 0
    | cons str list ih =>
        rw [stringsRoom_cons, List.map_cons, List.sum_cons, List.length_cons]
        unfold stackPad
        omega
  have count := within.count
  have size := within.size
  rw [listRoom]
  omega

theorem envp_sizes (args : ExecArgs) :
    ((args.envp.getD []).map CString.size).sum ≤ envMax ∧
      listRoom (args.envp.getD []) ≤ 16 * envMax := by
  cases given : args.envp with
  | none => exact ⟨by decide, by decide⟩
  | some list =>
      have within := args.envp_within list given
      exact ⟨within.size, withinLimit_room within⟩

theorem argv_sizes (args : ExecArgs) :
    (args.argvUsed.map CString.size).sum ≤ argMax ∧ listRoom args.argvUsed ≤ 16 * argMax := by
  rw [argvUsed]
  cases given : args.argv with
  | some list =>
      have within := args.argv_within list given
      exact ⟨within.size, withinLimit_room within⟩
  | none =>
      have fits := args.name_fits
      unfold nameMax at fits
      have within : WithinLimit [args.name] argMax := by
        refine ⟨by rw [List.length_singleton]; decide, ?_⟩
        simp only [List.map_cons, List.map_nil, List.sum_cons, List.sum_nil, CString.size, argMax,
          pageSize]
        omega
      exact ⟨within.size, withinLimit_room within⟩

theorem room_le (args : ExecArgs) : args.room < 2 ^ 40 := by
  have envp := args.envp_sizes.2
  have argv := args.argv_sizes.2
  unfold envMax at envp
  unfold argMax pageSize at argv
  rw [room]
  omega

theorem execPush_eq {s₁ s₂ : TaskStack} {stackEnvp stackArgv : Nat}
    (envp : taskStackAddList s args.envp envMax = (0, some stackEnvp, s₁))
    (argv : taskStackAddList s₁ (some args.argvUsed) argMax = (0, some stackArgv, s₂)) :
    execPush s args.argv args.envp args.name =
      (0, execPushPointers s₂ (encode 8 stackEnvp) (encode 8 stackArgv)) := by
  rw [argvUsed] at argv
  simp only [execPush, envp, argv, ne_eq, not_true, if_false, Option.getD_some]

/-- `sys_exec` does not panic, and the pointer to the arguments is the last thing on the stack. -/
theorem execPush_rsp (args : ExecArgs) (aligned : 8 ∣ s.rsp) (rsp : s.rsp < 2 ^ 64) :
    ∃ s', execPush s args.argv args.envp args.name = (0, s') ∧ s'.rsp = sub64 s.rsp args.room ∧
      Holds s'.mem s'.rsp (encode 8
        (sub64 (sub64 s.rsp (listRoom (args.envp.getD []))) (8 * (args.argvUsed.length + 1)))) := by
  obtain ⟨envp_size, envp_room⟩ := args.envp_sizes
  obtain ⟨argv_size, argv_room⟩ := args.argv_sizes
  unfold envMax at envp_size envp_room
  unfold argMax pageSize at argv_size argv_room
  have envp_aligned : 8 ∣ listRoom (args.envp.getD []) :=
    Nat.dvd_add (Nat.dvd_mul_right 8 _) (dvd_stringsRoom _)
  have argv_aligned : 8 ∣ listRoom args.argvUsed :=
    Nat.dvd_add (Nat.dvd_mul_right 8 _) (dvd_stringsRoom _)
  obtain ⟨s₁, envp, moved₁⟩ := taskStackAddList_rsp aligned rsp (by omega) envp_size envMax_lt
  have aligned₁ : 8 ∣ s₁.rsp := by
    rw [moved₁]
    exact dvd_sub64 aligned envp_aligned (by omega)
  obtain ⟨s₂, argv, moved₂⟩ := @taskStackAddList_rsp s₁ argMax (some args.argvUsed) aligned₁
    (by rw [moved₁]; exact sub64_lt) (by rw [Option.getD_some]; omega) argv_size argMax_lt
  rw [Option.getD_some] at argv moved₂
  have aligned₂ : 8 ∣ s₂.rsp := by
    rw [moved₂]
    exact dvd_sub64 aligned₁ argv_aligned (by omega)
  refine ⟨_, execPush_eq envp argv, ?_, ?_⟩
  · rw [execPushPointers_eq aligned₂ length_encode length_encode]
    simp only
    rw [moved₂, moved₁, sub64_sub64 (by omega), sub64_sub64 (by omega), room, Nat.add_assoc]
  · rw [execPushPointers_eq aligned₂ length_encode length_encode, ← moved₁]
    simp only
    exact holds_store

/-- On a stack with room for it nothing is written around what is pushed. -/
theorem execPush_pushed (args : ExecArgs) (aligned : 8 ∣ s.rsp) (rsp : s.rsp < 2 ^ 64)
    (fits : args.room ≤ s.rsp) :
    ∃ s', execPush s args.argv args.envp args.name = (0, s') ∧ Pushed s s' args.room := by
  rw [room] at fits ⊢
  have envp_aligned : 8 ∣ listRoom (args.envp.getD []) :=
    Nat.dvd_add (Nat.dvd_mul_right 8 _) (dvd_stringsRoom _)
  have argv_aligned : 8 ∣ listRoom args.argvUsed :=
    Nat.dvd_add (Nat.dvd_mul_right 8 _) (dvd_stringsRoom _)
  obtain ⟨stackEnvp, s₁, envp, pushed₁⟩ := taskStackAddList_pushed aligned rsp (by omega)
    args.envp_sizes.1 envMax_lt
  have moved₁ := pushed₁.rsp
  obtain ⟨stackArgv, s₂, argv, pushed₂⟩ := @taskStackAddList_pushed s₁ argMax (some args.argvUsed)
    (by omega) (by omega) (by rw [Option.getD_some]; omega) args.argv_sizes.1 argMax_lt
  rw [Option.getD_some] at pushed₂
  have moved₂ := pushed₂.rsp
  refine ⟨_, execPush_eq envp argv, (pushed₁.trans pushed₂).trans ?_⟩
  exact execPushPointers_pushed (by omega) (by omega) (by omega) length_encode length_encode

/-- `sys_exec` writes to the user stack only. -/
def StaysOnStack (args : ExecArgs) (stack : UserStack) : Prop :=
  ∀ m x, ¬ stack.Contains x →
    (execPush ⟨m, stack.top⟩ args.argv args.envp args.name).2.mem x = m x

theorem not_staysOnStack (args : ExecArgs) (stack : UserStack)
    (large : taskStackPages * pageSize < args.room) : ¬ args.StaysOnStack stack := by
  intro inside
  have base := stack.inSpace
  unfold vmmVmaUserEnd taskStackPages pageSize at base
  -- the first byte of the last pointer, which does not depend on the memory
  let bytes := encode 8 (sub64 (sub64 stack.top (listRoom (args.envp.getD [])))
    (8 * (args.argvUsed.length + 1)))
  have first : 0 < bytes.length := by
    rw [length_encode]
    decide
  let m : Memory := fun _ => bytes[0] + 1
  obtain ⟨s', pushed, moved, holds⟩ := @execPush_rsp ⟨m, stack.top⟩ args stack.top_aligned
    stack.top_lt
  have written := holds 0 first
  have room := args.room_le
  have outside : ¬ stack.Contains s'.rsp := by
    rw [moved]
    rintro ⟨low, high⟩
    unfold UserStack.top taskStackPages pageSize sub64 wrap64 at *
    dsimp only at *
    omega
  have kept := inside m s'.rsp outside
  rw [pushed] at kept
  rw [Nat.add_zero] at written
  exact absurd (written.symm.trans kept) (by simp [m, bytes])

theorem staysOnStack_of_room (args : ExecArgs) (stack : UserStack)
    (room : args.room ≤ taskStackPages * pageSize) : args.StaysOnStack stack := by
  intro m x outside
  have base := stack.inSpace
  unfold vmmVmaUserEnd taskStackPages pageSize at base
  obtain ⟨s', pushed, grown⟩ := @execPush_pushed ⟨m, stack.top⟩ args stack.top_aligned
    stack.top_lt (Nat.le_trans room (Nat.le_add_left _ _))
  rw [pushed]
  have moved := grown.rsp
  refine grown.around x ?_
  unfold UserStack.Contains UserStack.top at outside
  unfold UserStack.top at moved ⊢
  dsimp only at moved ⊢
  omega

end ExecArgs

/-- Whatever is in memory, `sys_exec` writes nothing outside the user stack exactly if the strings
    with their padding and all the pointers take no more than the pages of the stack. -/
theorem staysOnStack_iff (args : ExecArgs) (stack : UserStack) :
    args.StaysOnStack stack ↔ args.room ≤ taskStackPages * pageSize := by
  constructor
  · intro inside
    by_contra large
    exact args.not_staysOnStack stack (Nat.lt_of_not_le large) inside
  · exact args.staysOnStack_of_room stack

/-- 1023 arguments of three characters each. -/
def manyArgs : ExecArgs where
  argv := some (List.replicate 1023 ⟨[97, 97, 97], by decide⟩)
  envp := none
  name := ⟨[97], by decide⟩
  argv_within := by
    rintro list ⟨⟩
    constructor
    · rw [List.length_replicate]
      decide
    · rw [List.map_replicate, List.sum_replicate_nat]
      decide
  envp_within := nofun
  name_fits := by decide

/-- Four pages at `0x10000`. -/
def lowStack : UserStack where
  mem := [⟨.stack, true, 0x10000, 0x80000, taskStackPages⟩]
  vaddr := 0x10000
  found := by decide
  aligned := by decide
  inSpace := by decide

theorem not_staysOnStack_manyArgs : ¬ manyArgs.StaysOnStack lowStack := by
  apply ExecArgs.not_staysOnStack
  have strings : ∀ (n : Nat) (str : CString),
      stringsRoom (List.replicate n str) = n * (str.size + stackPad str.size) := by
    intro n str
    rw [stringsRoom, List.map_replicate, List.sum_replicate_nat]
  rw [ExecArgs.room, ExecArgs.argvUsed, manyArgs, Option.getD_some, listRoom, listRoom, strings,
    List.length_replicate]
  decide

end Sdx.Syscall
