import Sdx.Core.Handler

/-! # The way of a system call (`slibc/sys.S`, `syscall/syscall.S`)

A program calls `syscall` with a number and arguments, and `sys_handler` calls the function that
the table `syscalls` has for the number, on the kernel stack of the task. The instruction between
the two keeps the address it returns to in `rcx`, where `syscall` has put the fourth argument.
-/

namespace Sdx.Syscall

open Sdx.Lib Sdx.Lib.Asm Sdx.Lib.Bytes Sdx.Core

/-- `VMM_VMA_KERNEL`. -/
def vmmVmaKernel : BitVec 64 := 1

inductive SysLabel where
  /-- `syscall` of slibc, up to the instruction of that name. -/
  | syscall
  /-- `sys_handler`. -/
  | sysHandler
  /-- Behind `call task_stack_get`. -/
  | gotStack
  /-- `.Luser_handler_check_call`. -/
  | checkCall
  /-- Behind the test for the end of the table. -/
  | compare
  /-- Behind the loop. -/
  | call
  /-- `.Luser_handler_ret`, up to `sysretq`. -/
  | handlerRet

/-- The addresses `syscall.S` names, what the functions it calls do, and what the processor has
    in its flags and for the address behind the instruction `syscall`. -/
structure SysImage where
  taskCurrent : BitVec 64
  taskStackGet : BitVec 64
  syscalls : BitVec 64
  outside : BitVec 64 → Machine 64 → Machine 64
  back : BitVec 64
  rflags : BitVec 64

namespace SysImage

/-- The instruction `syscall`: it goes on at `LSTAR`, which `sys_setup` has set. -/
def enter (im : SysImage) (s : Machine 64) : Machine 64 := (s.set .rcx im.back).set .r11 im.rflags

def block (im : SysImage) : SysLabel → Block 64 SysLabel
  | .syscall =>
      ⟨[.mov .full (.reg .rdi) (.reg .rax),
        .mov .full (.reg .rsi) (.reg .rdi),
        .mov .full (.reg .rdx) (.reg .rsi),
        .mov .full (.reg .rcx) (.reg .rdx),
        .mov .full (.reg .r8) (.reg .rcx),
        .other im.enter],
       .jmp .sysHandler⟩
  | .sysHandler =>
      ⟨pushes pushAllSaveRet ++
        [.mov .full (.reg .rax) (.reg .r8),
         .mov .full (.reg .rdi) (.reg .r12),
         .mov .full (.reg .rsi) (.reg .r11),
         .mov .full (.reg .rdx) (.reg .r10),
         .mov .full (.reg .rcx) (.reg .r9),
         .mov .full (.abs im.taskCurrent) (.reg .rdi),
         .mov .full (.imm vmmVmaKernel) (.reg .rsi)],
       .foreign (.imm im.taskStackGet) .gotStack⟩
  | .gotStack =>
      ⟨[.alu .sub .full (.imm 8) (.reg .rax),
        .mov .full (.reg .rsp) (.at 0 .rax),
        .mov .full (.reg .rax) (.reg .rsp),
        .mov .full (.imm im.syscalls) (.reg .r15)],
       .jmp .checkCall⟩
  | .checkCall =>
      ⟨[.mov .full (.imm (BitVec.ofInt 64 (-eNOSYS))) (.reg .r14),
        .mov .full (.at 8 .r15) (.reg .r13),
        .test .full (.reg .r13) (.reg .r13),
        .cmove (.reg .r14) (.reg .rax)],
       .jcc .e .handlerRet .compare⟩
  | .compare =>
      ⟨[.mov .full (.at 0 .r15) (.reg .r14),
        .alu .add .full (.imm 16) (.reg .r15),
        .cmp .full (.reg .r14) (.reg .r8)],
       .jcc .ne .checkCall .call⟩
  | .call =>
      ⟨[.mov .full (.reg .r12) (.reg .rdi),
        .mov .full (.reg .r11) (.reg .rsi),
        .mov .full (.reg .r10) (.reg .rdx),
        .mov .full (.reg .r9) (.reg .rcx)],
       .foreign (.reg .r13) .handlerRet⟩
  | .handlerRet =>
      ⟨.pop (.reg .rsp) :: pops popAllSaveRet,
       -- sysretq
       .stop⟩

/-- Both files, where no routine of theirs is called. -/
def code (im : SysImage) : Code 64 SysLabel := ⟨im.block, fun _ => 0, im.outside⟩

end SysImage

/-! ## The table -/

/-- `struct syscall`. -/
structure SyscallEntry where
  code : BitVec 64
  func : BitVec 64

/-- The words of a table, with the entry at its end that has no function. -/
def tableWords (calls : List SyscallEntry) : List (BitVec 64) :=
  calls.flatMap (fun c => [c.code, c.func]) ++ [0, 0]

/-- Where the functions are that `syscalls` names. -/
structure SysFuncs where
  exit : BitVec 64
  fork : BitVec 64
  exec : BitVec 64
  wait : BitVec 64
  open' : BitVec 64
  close : BitVec 64
  read : BitVec 64
  write : BitVec 64
  mount : BitVec 64
  umount : BitVec 64

/-- `syscalls`, without the entry at its end. -/
def syscalls (f : SysFuncs) : List SyscallEntry :=
  [⟨0, f.exit⟩, ⟨1, f.fork⟩, ⟨2, f.exec⟩, ⟨3, f.wait⟩, ⟨4, f.open'⟩, ⟨5, f.close⟩, ⟨6, f.read⟩,
   ⟨7, f.write⟩, ⟨8, f.mount⟩, ⟨9, f.umount⟩]

/-- The function for a number, if the table has one. -/
def funcFor (calls : List SyscallEntry) (number : BitVec 64) : Option (BitVec 64) :=
  (calls.find? fun c => c.code == number).map (·.func)

/-! ## The search through the table -/

section

variable (im : SysImage) {s : Machine 64} {code func : BitVec 64}

theorem load_pair (holds : Holds s.mem (s.regs .r15).toNat (words [code, func]))
    (fits : (s.regs .r15).toNat + 16 ≤ 2 ^ 64) :
    (∀ s' : Machine 64, s'.mem = s.mem → s'.load (s.regs .r15) 8 = code) ∧
      ∀ s' : Machine 64, s'.mem = s.mem → s'.load (8#64 + s.regs .r15) 8 = func := by
  have first := Machine.load_words (i := 0) (by omega) holds (by simpa using fits) (by simp)
  have second := Machine.load_words (i := 1) (by omega) holds (by simpa using fits) (by simp)
  refine ⟨fun s' mem => ?_, fun s' mem => ?_⟩
  · rw [Machine.load_congr mem]
    simpa using first
  · rw [Machine.load_congr mem, BitVec.add_comm]
    simpa using second

/-- At an entry with a function the loop goes on to compare. -/
theorem after_checkCall (holds : Holds s.mem (s.regs .r15).toNat (words [code, func]))
    (fits : (s.regs .r15).toNat + 16 ≤ 2 ^ 64) (real : func ≠ 0#64) :
    let s' := im.code.after .checkCall s
    Machine.Keeps [.r13, .r14] s s' ∧ s'.regs .r13 = func ∧ s'.zf = false := by
  obtain ⟨-, second⟩ := load_pair holds fits
  simp [Code.after, SysImage.code, SysImage.block, runAll, Machine.set, second, real]
  exact ⟨rfl, fun r off => by simp_all [Function.update_of_ne]⟩

/-- At the entry without one it is over, with an error. -/
theorem after_checkCall_last (holds : Holds s.mem (s.regs .r15).toNat (words [code, 0]))
    (fits : (s.regs .r15).toNat + 16 ≤ 2 ^ 64) :
    let s' := im.code.after .checkCall s
    Machine.Keeps [.r13, .r14, .rax] s s' ∧ s'.regs .rax = BitVec.ofInt 64 (-eNOSYS) ∧
      s'.zf = true := by
  obtain ⟨-, second⟩ := load_pair holds fits
  simp [Code.after, SysImage.code, SysImage.block, runAll, Machine.set, second]
  exact ⟨rfl, fun r off => by simp_all [Function.update_of_ne]⟩

theorem after_compare (holds : Holds s.mem (s.regs .r15).toNat (words [code, func]))
    (fits : (s.regs .r15).toNat + 16 ≤ 2 ^ 64) :
    let s' := im.code.after .compare s
    Machine.Keeps [.r14, .r15] s s' ∧ s'.regs .r15 = s.regs .r15 + 16 ∧
      (s'.zf = true ↔ code = s.regs .r8) := by
  obtain ⟨first, -⟩ := load_pair holds fits
  simp [Code.after, SysImage.code, SysImage.block, runAll, Machine.set, first]
  refine ⟨?_, eq_comm⟩
  exact ⟨rfl, fun r off => by simp_all [Function.update_of_ne]⟩

theorem funcFor_cons {c : SyscallEntry} {calls : List SyscallEntry} {number : BitVec 64} :
    funcFor (c :: calls) number = if c.code = number then some c.func else funcFor calls number := by
  unfold funcFor
  rw [List.find?_cons]
  by_cases same : c.code = number
  · simp [same]
  · have off : (c.code == number) = false := by simpa using same
    simp [same, off]

/-- The table at `r15`. -/
structure TableAt (s : Machine 64) (calls : List SyscallEntry) : Prop where
  holds : Holds s.mem (s.regs .r15).toNat (words (tableWords calls))
  fits : (s.regs .r15).toNat + (calls.length + 1) * 16 ≤ 2 ^ 64
  real : ∀ c ∈ calls, c.func ≠ 0#64

/-- An entry that is not the last one: the loop finds its function, or goes on behind it. -/
theorem ends_checkCall {c : SyscallEntry} {calls : List SyscallEntry} (table : TableAt s (c :: calls)) :
    ∃ s', Machine.Keeps [.r13, .r14, .r15] s s' ∧ s'.regs .r13 = c.func ∧ TableAt s' calls ∧
      ∀ out, im.code.Ends (if c.code = s.regs .r8 then .call else .checkCall) s' out →
        im.code.Ends .checkCall s out := by
  have holds := table.holds
  have fits := table.fits
  have split : tableWords (c :: calls) = [c.code, c.func] ++ tableWords calls := rfl
  rw [split, words_append, holds_append, length_words] at holds
  rw [List.length_cons] at fits
  obtain ⟨checked, r13, more⟩ := after_checkCall im holds.1 (by omega)
    (table.real c List.mem_cons_self)
  have r15 : (im.code.after .checkCall s).regs .r15 = s.regs .r15 := checked.regs _ (by simp)
  obtain ⟨compared, next, same⟩ := after_compare im (s := im.code.after .checkCall s)
    (by rw [checked.mem, r15]; exact holds.1) (by rw [r15]; omega)
  have wide : ∀ {rs : List Reg} {s s' : Machine 64}, rs ⊆ [.r13, .r14, .r15] →
      Machine.Keeps rs s s' → Machine.Keeps [.r13, .r14, .r15] s s' := fun sub keeps =>
    ⟨keeps.mem, fun r off => keeps.regs r fun mem => off (sub mem)⟩
  have kept := (wide (by simp) checked).trans (wide (by simp) compared)
  have place : (s.regs .r15 + 16).toNat = (s.regs .r15).toNat + 16 :=
    toNat_add_ofNat (n := 16) (by omega)
  refine ⟨_, kept, (compared.regs _ (by simp)).trans r13, ⟨?_, ?_, ?_⟩, fun out ends => ?_⟩
  · rw [next, r15, place, kept.mem]
    exact holds.2
  · rw [next, r15, place]
    omega
  · exact fun c mem => table.real c (List.mem_cons_of_mem _ mem)
  · have untested : ¬ Cond.e.holds (im.code.after .checkCall s) := by simp [Cond.holds, more]
    refine .untaken rfl untested ?_
    rw [checked.regs .r8 (by simp)] at same
    by_cases found : c.code = s.regs .r8
    · rw [if_pos found] at ends
      refine .untaken rfl ?_ ends
      simp [Cond.holds, same.mpr found]
    · rw [if_neg found] at ends
      refine .taken rfl ?_ ends
      have zf : ¬ _ := mt same.mp found
      simpa [Cond.holds] using zf

/-- The loop finds the function for the number in `r8`. -/
theorem ends_found {calls : List SyscallEntry} (table : TableAt s calls)
    (found : funcFor calls (s.regs .r8) = some func) :
    ∃ s', Machine.Keeps [.r13, .r14, .r15] s s' ∧ s'.regs .r13 = func ∧
      ∀ out, im.code.Ends .call s' out → im.code.Ends .checkCall s out := by
  induction calls generalizing s with
  | nil => cases found
  | cons c calls ih =>
      obtain ⟨s', kept, r13, rest, back⟩ := ends_checkCall im table
      rw [funcFor_cons] at found
      by_cases same : c.code = s.regs .r8
      · rw [if_pos same] at found back
        exact ⟨s', kept, r13.trans (Option.some.inj found), back⟩
      · rw [if_neg same] at found back
        rw [← kept.regs .r8 (by simp)] at found
        obtain ⟨s'', kept', r13', back'⟩ := ih rest found
        exact ⟨s'', kept.trans kept', r13', fun out ends => back out (back' out ends)⟩

/-- A number that the table does not have is an error. -/
theorem ends_unknown {calls : List SyscallEntry} (table : TableAt s calls)
    (unknown : funcFor calls (s.regs .r8) = none) :
    ∃ s', Machine.Keeps [.r13, .r14, .r15, .rax] s s' ∧
      s'.regs .rax = BitVec.ofInt 64 (-eNOSYS) ∧
      ∀ out, im.code.Ends .handlerRet s' out → im.code.Ends .checkCall s out := by
  induction calls generalizing s with
  | nil =>
      obtain ⟨kept, rax, last⟩ := after_checkCall_last im table.holds table.fits
      refine ⟨_, ⟨kept.mem, fun r off => kept.regs r ?_⟩, rax, fun out ends => .taken rfl last ends⟩
      simp_all
  | cons c calls ih =>
      obtain ⟨s', kept, -, rest, back⟩ := ends_checkCall im table
      rw [funcFor_cons] at unknown
      by_cases same : c.code = s.regs .r8
      · rw [if_pos same] at unknown
        cases unknown
      · rw [if_neg same] at unknown back
        rw [← kept.regs .r8 (by simp)] at unknown
        obtain ⟨s'', kept', rax, back'⟩ := ih rest unknown
        refine ⟨s'', ⟨kept'.mem.trans kept.mem, fun r off => ?_⟩, rax,
          fun out ends => back out (back' out ends)⟩
        rw [kept'.regs r off, kept.regs r (by simp_all)]

end

/-! ## A system call -/

/-- The words in `sys_handler` that come from the program's registers. -/
def savedWords (u : Machine 64) : List (BitVec 64) := popAllSaveRet.map u.regs

section

variable (im : SysImage) {calls : List SyscallEntry} {u : Machine 64} {func : BitVec 64}

/-- The state in which `task_stack_get` is called. -/
def beforeStack (u : Machine 64) : Machine 64 := im.code.after .sysHandler u

/-- The state it comes back in. -/
def gotStack (u : Machine 64) : Machine 64 := im.outside im.taskStackGet (beforeStack im u)

/-- A program's state at `sys_handler`: there is room on its stack, and the table is in memory
    above. -/
structure SysEntry (calls : List SyscallEntry) (u : Machine 64) : Prop where
  room : 112 ≤ u.rsp.toNat
  above : u.rsp.toNat ≤ im.syscalls.toNat
  table : Holds u.mem im.syscalls.toNat (words (tableWords calls))
  fits : im.syscalls.toNat + (calls.length + 1) * 16 ≤ 2 ^ 64
  real : ∀ c ∈ calls, c.func ≠ 0#64

/-- `task_stack_get` comes back as a function does, with a stack that is above the program's and
    away from the table. -/
structure StackGot (calls : List SyscallEntry) (u : Machine 64) : Prop where
  rsp : (gotStack im u).rsp = (beforeStack im u).rsp
  r12 : (gotStack im u).regs .r12 = (beforeStack im u).regs .r12
  mem : ∀ a, u.rsp.toNat - 112 ≤ a → (gotStack im u).mem a = (beforeStack im u).mem a
  above : u.rsp.toNat + 8 ≤ ((gotStack im u).regs .rax).toNat
  apart : ((gotStack im u).regs .rax).toNat ≤ im.syscalls.toNat ∨
    im.syscalls.toNat + (calls.length + 1) * 16 + 8 ≤ ((gotStack im u).regs .rax).toNat

theorem runAll_pushAllSaveRet (s : Machine 64) :
    runAll (pushes pushAllSaveRet) s = s.pushed (pushAllSaveRet.map s.regs) :=
  runAll_pushes (by simp [pushAllSaveRet])

/-- What `task_stack_get` is called with. -/
theorem beforeStack_eq (room : 112 ≤ u.rsp.toNat) :
    (beforeStack im u).rsp.toNat = u.rsp.toNat - 112 ∧
      (beforeStack im u).mem = (u.pushed (pushAllSaveRet.map u.regs)).mem ∧
      (beforeStack im u).regs .r8 = u.regs .rax ∧ (beforeStack im u).regs .r12 = u.regs .rdi ∧
      (beforeStack im u).regs .r11 = u.regs .rsi ∧ (beforeStack im u).regs .r10 = u.regs .rdx ∧
      (beforeStack im u).regs .r9 = u.regs .rcx := by
  have first : beforeStack im u = runAll
      [.mov .full (.reg .rax) (.reg .r8), .mov .full (.reg .rdi) (.reg .r12),
        .mov .full (.reg .rsi) (.reg .r11), .mov .full (.reg .rdx) (.reg .r10),
        .mov .full (.reg .rcx) (.reg .r9), .mov .full (.abs im.taskCurrent) (.reg .rdi),
        .mov .full (.imm vmmVmaKernel) (.reg .rsi)]
      (u.pushed (pushAllSaveRet.map u.regs)) := by
    rw [← runAll_pushAllSaveRet]
    exact runAll_append ..
  have below := @Machine.toNat_pushed_rsp 64 u (pushAllSaveRet.map u.regs)
    (by simpa [pushAllSaveRet] using room)
  have kept : ∀ r, r ≠ .rsp → (u.pushed (pushAllSaveRet.map u.regs)).regs r = u.regs r :=
    fun r off => Machine.pushed_reg off
  generalize u.pushed (pushAllSaveRet.map u.regs) = s at first below kept
  rw [first]
  simp [runAll, Machine.set, Machine.rsp, kept, Function.update_of_ne]
  simpa [pushAllSaveRet, Machine.rsp] using below

/-- The switch to the task's kernel stack. -/
theorem after_gotStack {g : Machine 64} :
    let k := im.code.after .gotStack g
    k.rsp = g.regs .rax - 8 ∧ k.regs .r15 = im.syscalls ∧
      k.mem = Bytes.store g.mem (g.regs .rax - 8).toNat (encode 8 g.rsp.toNat) ∧
      ∀ r, r ∉ [.rax, .rsp, .r15] → k.regs r = g.regs r := by
  simp [Code.after, SysImage.code, SysImage.block, runAll, Machine.set, Machine.store, Machine.rsp]
  intro r rax rsp r15
  simp [Function.update_of_ne, *]

/-- Behind the switch the table is where the loop looks for it, the old stack pointer is on top of
    the new stack, and the program's registers are on the old one. -/
structure Switched (im : SysImage) (calls : List SyscallEntry) (u k : Machine 64) : Prop where
  rsp : k.rsp = (gotStack im u).regs .rax - 8
  table : TableAt k calls
  top : Holds k.mem k.rsp.toNat (encode 8 (u.rsp.toNat - 112))
  saved : Holds k.mem (u.rsp.toNat - 112) (words (savedWords u))
  regs : ∀ r, r ∉ [.rax, .rsp, .r15] → k.regs r = (gotStack im u).regs r

theorem switched (entry : SysEntry im calls u) (got : StackGot im calls u) :
    Switched im calls u (im.code.after .gotStack (gotStack im u)) := by
  obtain ⟨rsp, r15, mem, regs⟩ := after_gotStack im (g := gotStack im u)
  obtain ⟨pointer, pushed, -⟩ := beforeStack_eq im entry.room
  have room := entry.room
  have fits := entry.fits
  have above := got.above
  have count : (pushAllSaveRet.map u.regs).length * (64 / 8) = 112 := by simp [pushAllSaveRet]
  have slot : ((gotStack im u).regs .rax - 8).toNat = ((gotStack im u).regs .rax).toNat - 8 :=
    toNat_sub_ofNat (n := 8) (by omega)
  have old : (gotStack im u).rsp.toNat = u.rsp.toNat - 112 := by rw [got.rsp, pointer]
  -- the new stack's word is written above everything that was pushed, and outside of the table
  have outside : ∀ a, u.rsp.toNat ≤ a → a < ((gotStack im u).regs .rax).toNat - 8 ∨
      ((gotStack im u).regs .rax).toNat ≤ a →
      (im.code.after .gotStack (gotStack im u)).mem a = u.mem a := by
    intro a lower out
    rw [mem, slot, store_outside (by rw [length_encode]; omega), got.mem a (by omega), pushed,
      Machine.pushed_outside (by rw [count]; exact room) (by rw [count]; omega)]
  refine ⟨rsp, ⟨?_, ?_, entry.real⟩, ?_, ?_, regs⟩
  · rw [r15]
    refine entry.table.congr fun a lower upper => outside a ?_ ?_
    · exact Nat.le_trans entry.above lower
    · have length : (words (tableWords calls)).length = (calls.length + 1) * 16 := by
        rw [length_words]
        simp [tableWords]
        omega
      have apart := got.apart
      omega
  · rw [r15]
    exact fits
  · rw [rsp, mem, old]
    exact holds_store
  · have holds := @Machine.holds_pushed 64 u (pushAllSaveRet.map u.regs) (by rw [count]; exact room)
    rw [Machine.toNat_pushed_rsp (by rw [count]; exact room), count, ← List.map_reverse] at holds
    refine holds.congr fun a lower upper => ?_
    have length : (words (pushAllSaveRet.reverse.map u.regs)).length = 112 := by
      simp [pushAllSaveRet]
    rw [length] at upper
    rw [mem, slot, store_outside (by rw [length_encode]; omega), got.mem a (by omega), pushed]

/-- With the old stack pointer on top, the program gets its registers back but `rax`. -/
theorem ends_handlerRet {h : Machine 64} (room : 112 ≤ u.rsp.toNat)
    (top : Holds h.mem h.rsp.toNat (encode 8 (u.rsp.toNat - 112)))
    (saved : Holds h.mem (u.rsp.toNat - 112) (words (savedWords u))) :
    ∃ s', im.code.Ends .handlerRet h (.handlerRet, s') ∧
      s'.regs = Function.update u.regs .rax (h.regs .rax) ∧ s'.mem = h.mem := by
  have lt := u.rsp.isLt
  have pointer : h.top = u.rsp - BitVec.ofNat 64 112 := by
    have below : (u.rsp - BitVec.ofNat 64 112).toNat = u.rsp.toNat - 112 := toNat_sub_ofNat room
    refine ofNat_read_of_holds (by omega) ?_
    rw [below]
    exact top
  -- the state behind `pop %rsp`
  obtain ⟨p, popped, place, rax, mem⟩ : ∃ p : Machine 64,
      im.code.after .handlerRet h = runAll (pops popAllSaveRet) p ∧
      p.rsp = u.rsp - BitVec.ofNat 64 112 ∧ p.regs .rax = h.regs .rax ∧ p.mem = h.mem := by
    have first : Instr.run (.pop (.reg .rsp)) h = h.drop.set .rsp h.top := by simp
    refine ⟨h.drop.set .rsp h.top, ?_, ?_, ?_, rfl⟩
    · rw [← first, ← runAll_cons]
      rfl
    · rw [← pointer]
      exact Machine.set_self
    · rw [Machine.set_of_ne (by simp), Machine.drop, Machine.set_of_ne (by simp)]
  have number : p.rsp.toNat = u.rsp.toNat - 112 := by rw [place, toNat_sub_ofNat room]
  have back : p.rsp + BitVec.ofNat 64 (popAllSaveRet.length * (64 / 8)) = u.rsp := by
    rw [place]
    exact BitVec.sub_add_cancel ..
  have registers := @runAll_pops 64 p popAllSaveRet u.regs (by omega) (by simp [popAllSaveRet])
    (by rw [number, mem]; exact saved) (by rw [number]; simp [popAllSaveRet]; omega)
  rw [back] at registers
  refine ⟨_, .stop rfl, ?_, ?_⟩
  · rw [popped, registers, ← rax]
    funext r
    cases r <;> rfl
  · rw [popped, registers, ← mem]

/-- The function that was called keeps the stack pointer, the word on top of its stack and the
    registers on the program's stack. -/
structure CallReturned (u seen h : Machine 64) : Prop where
  rsp : h.rsp = seen.rsp
  top : ∀ k < 8, h.mem (seen.rsp.toNat + k) = seen.mem (seen.rsp.toNat + k)
  saved : ∀ k < 112, h.mem (u.rsp.toNat - 112 + k) = seen.mem (u.rsp.toNat - 112 + k)

/-- A number that is in the table: its function runs on the stack that `task_stack_get` found, with
    the first argument, and with the others as far as `task_stack_get` has left them; then the
    program has its registers back, with the result in `rax`. -/
theorem sys_handler_calls (entry : SysEntry im calls u) (got : StackGot im calls u)
    (found : funcFor calls ((gotStack im u).regs .r8) = some func) :
    ∃ seen : Machine 64, seen.rsp = (gotStack im u).regs .rax - 8 ∧
      seen.regs .rdi = u.regs .rdi ∧ seen.regs .rsi = (gotStack im u).regs .r11 ∧
      seen.regs .rdx = (gotStack im u).regs .r10 ∧ seen.regs .rcx = (gotStack im u).regs .r9 ∧
      (CallReturned u seen (im.outside func seen) → ∃ s',
        im.code.Ends .sysHandler u (.handlerRet, s') ∧
          s'.regs = Function.update u.regs .rax ((im.outside func seen).regs .rax) ∧
          s'.mem = (im.outside func seen).mem) := by
  have start := switched im entry got
  obtain ⟨-, -, -, r12, -⟩ := beforeStack_eq im entry.room
  generalize known : im.code.after .gotStack (gotStack im u) = k at start
  obtain ⟨s', kept, r13, back⟩ := ends_found im start.table
    (by rw [start.regs .r8 (by simp)]; exact found)
  have reg : ∀ r, r ∉ [.rax, .rsp, .r15, .r13, .r14] → s'.regs r = (gotStack im u).regs r := by
    intro r off
    rw [kept.regs r (by simp_all), start.regs r (by simp_all)]
  have rsp : s'.rsp = k.rsp := kept.regs .rsp (by simp)
  have seen_mem : (im.code.after .call s').mem = k.mem := kept.mem
  have seen_rsp : (im.code.after .call s').rsp = k.rsp := rsp
  have seen_func : (im.code.after .call s').regs .r13 = func := r13
  refine ⟨im.code.after .call s', ?_, ?_, ?_, ?_, ?_, fun returned => ?_⟩
  · rw [seen_rsp, start.rsp]
  · have rdi : (im.code.after .call s').regs .rdi = s'.regs .r12 := rfl
    rw [rdi, reg .r12 (by simp), got.r12, r12]
  · have rsi : (im.code.after .call s').regs .rsi = s'.regs .r11 := rfl
    rw [rsi, reg .r11 (by simp)]
  · have rdx : (im.code.after .call s').regs .rdx = s'.regs .r10 := rfl
    rw [rdx, reg .r10 (by simp)]
  · have rcx : (im.code.after .call s').regs .rcx = s'.regs .r9 := rfl
    rw [rcx, reg .r9 (by simp)]
  · have top : Holds (im.outside func (im.code.after .call s')).mem
        (im.outside func (im.code.after .call s')).rsp.toNat (encode 8 (u.rsp.toNat - 112)) := by
      rw [returned.rsp, seen_rsp]
      refine start.top.congr fun a lower upper => ?_
      rw [length_encode] at upper
      have same := returned.top (a - k.rsp.toNat) (by omega)
      rwa [seen_rsp, Nat.add_sub_cancel' lower, seen_mem] at same
    have saved : Holds (im.outside func (im.code.after .call s')).mem (u.rsp.toNat - 112)
        (words (savedWords u)) := by
      refine start.saved.congr fun a lower upper => ?_
      have length : (words (savedWords u)).length = 112 := by simp [savedWords, popAllSaveRet]
      have same := returned.saved (a - (u.rsp.toNat - 112)) (by omega)
      rwa [Nat.add_sub_cancel' lower, seen_mem] at same
    obtain ⟨s'', ends, regs, mem⟩ := ends_handlerRet im entry.room top saved
    refine ⟨s'', ?_, regs, mem⟩
    have called := back _ (.foreign rfl (seen_func ▸ ends))
    rw [← known] at called
    exact .foreign rfl (.jmp rfl called)

/-- A number that is not in the table: the program has its registers back, with an error in
    `rax`. -/
theorem sys_handler_unknown (entry : SysEntry im calls u) (got : StackGot im calls u)
    (unknown : funcFor calls ((gotStack im u).regs .r8) = none) :
    ∃ s', im.code.Ends .sysHandler u (.handlerRet, s') ∧
      s'.regs = Function.update u.regs .rax (BitVec.ofInt 64 (-eNOSYS)) := by
  have start := switched im entry got
  generalize known : im.code.after .gotStack (gotStack im u) = k at start
  obtain ⟨s', kept, rax, back⟩ := ends_unknown im start.table
    (by rw [start.regs .r8 (by simp)]; exact unknown)
  have rsp : s'.rsp = k.rsp := kept.regs .rsp (by simp)
  obtain ⟨s'', ends, regs, -⟩ := ends_handlerRet im entry.room
    (by rw [kept.mem, rsp]; exact start.top) (by rw [kept.mem]; exact start.saved)
  have ended := back _ ends
  rw [← known] at ended
  exact ⟨s'', .foreign rfl (.jmp rfl ended), by rw [regs, rax]⟩

/-- The state in which a program enters the kernel. -/
theorem after_syscall (p : Machine 64) :
    let u := im.code.after .syscall p
    u.mem = p.mem ∧ u.regs .rax = p.regs .rdi ∧ u.regs .rdi = p.regs .rsi ∧
      u.regs .rsi = p.regs .rdx ∧ u.regs .rdx = p.regs .rcx ∧ u.regs .rcx = im.back ∧
      u.regs .r11 = im.rflags ∧
      ∀ r, r ∉ [.rax, .rcx, .r11, .rdi, .rsi, .rdx] → u.regs r = p.regs r := by
  simp [Code.after, SysImage.code, SysImage.block, SysImage.enter, runAll, Machine.set]
  intro r rax rcx r11 rdi rsi rdx
  simp [Function.update_of_ne, *]

/-- A call of `syscall`, where `task_stack_get` leaves the registers alone in which the arguments
    wait for it. The function for the number gets three arguments of the program's, and the address
    behind the instruction `syscall` for the fourth, whatever that was. -/
theorem syscall_arguments {p : Machine 64} (entry : SysEntry im calls (im.code.after .syscall p))
    (got : StackGot im calls (im.code.after .syscall p))
    (scratch : ∀ r ∈ [Reg.r8, .r9, .r10, .r11], (gotStack im (im.code.after .syscall p)).regs r =
      (beforeStack im (im.code.after .syscall p)).regs r)
    (found : funcFor calls (p.regs .rdi) = some func) :
    ∃ seen : Machine 64, seen.regs .rdi = p.regs .rsi ∧ seen.regs .rsi = p.regs .rdx ∧
      seen.regs .rdx = p.regs .rcx ∧ seen.regs .rcx = im.back ∧
      (CallReturned (im.code.after .syscall p) seen (im.outside func seen) → ∃ s',
        im.code.Ends .syscall p (.handlerRet, s') ∧ s'.regs .rcx = im.back ∧
          s'.regs .r11 = im.rflags ∧ s'.regs .rax = (im.outside func seen).regs .rax ∧
          ∀ r, r ∉ [.rax, .rcx, .r11, .rdi, .rsi, .rdx] → s'.regs r = p.regs r) := by
  obtain ⟨-, rax, rdi, rsi, rdx, rcx, r11, others⟩ := after_syscall im p
  obtain ⟨-, -, r8, -, r11', r10, r9⟩ := beforeStack_eq im entry.room
  have number : (gotStack im (im.code.after .syscall p)).regs .r8 = p.regs .rdi := by
    rw [scratch .r8 (by simp), r8, rax]
  obtain ⟨seen, -, first, second, third, fourth, finish⟩ := sys_handler_calls im entry got
    (by rw [number]; exact found)
  refine ⟨seen, ?_, ?_, ?_, ?_, fun returned => ?_⟩
  · rw [first, rdi]
  · rw [second, scratch .r11 (by simp), r11', rsi]
  · rw [third, scratch .r10 (by simp), r10, rdx]
  · rw [fourth, scratch .r9 (by simp), r9, rcx]
  · obtain ⟨s', ends, regs, -⟩ := finish returned
    refine ⟨s', .jmp rfl ends, ?_, ?_, ?_, fun r off => ?_⟩
    · rw [regs, Function.update_of_ne (by simp), rcx]
    · rw [regs, Function.update_of_ne (by simp), r11]
    · rw [regs, Function.update_self]
    · rw [regs, Function.update_of_ne (by simp_all), others r off]

/-! ## One call of `mount` -/

/-- A kernel with the table at `0x2000` and a stack that ends at `0x10000`, where `task_stack_get`
    is at 1 and every other function returns 7. -/
def mountKernel : SysImage where
  taskCurrent := 0
  taskStackGet := 1
  syscalls := 0x2000
  outside := fun a s => s.set .rax (if a = 1 then 0x10000 else 7)
  back := 0x400
  rflags := 0

def mountTable : List SyscallEntry := syscalls ⟨2, 3, 4, 5, 6, 7, 8, 9, 10, 11⟩

/-- A program that mounts with the flags 5. -/
def mountProgram (number : BitVec 64) : Machine 64 where
  regs := fun r =>
    match r with
    | .rdi => number
    | .rsp => 0x1000
    | .r8 => 5
    | _ => 0
  mem := Bytes.store (fun _ => 0) 0x2000 (words (tableWords mountTable))
  zf := false
  cf := false

theorem mountKernel_entry (number : BitVec 64) :
    SysEntry mountKernel mountTable (mountKernel.code.after .syscall (mountProgram number)) := by
  obtain ⟨mem, -, -, -, -, -, -, others⟩ := after_syscall mountKernel (mountProgram number)
  have rsp : (mountKernel.code.after .syscall (mountProgram number)).rsp = 0x1000 :=
    others .rsp (by simp)
  refine ⟨?_, ?_, ?_, by simp [mountKernel, mountTable, syscalls], by simp [mountTable, syscalls]⟩
  · rw [rsp]
    simp
  · rw [rsp]
    simp [mountKernel]
  · rw [mem]
    exact holds_store

theorem mountKernel_gotStack (u : Machine 64) :
    gotStack mountKernel u = (beforeStack mountKernel u).set .rax 0x10000 := by
  simp only [gotStack]
  rfl

theorem mountKernel_got (number : BitVec 64) :
    StackGot mountKernel mountTable (mountKernel.code.after .syscall (mountProgram number)) := by
  obtain ⟨-, -, -, -, -, -, -, others⟩ := after_syscall mountKernel (mountProgram number)
  have rsp : (mountKernel.code.after .syscall (mountProgram number)).rsp = 0x1000 :=
    others .rsp (by simp)
  have got := mountKernel_gotStack (mountKernel.code.after .syscall (mountProgram number))
  refine ⟨?_, ?_, fun a _ => ?_, ?_, ?_⟩
  · rw [got]
    exact Machine.set_of_ne (by simp)
  · rw [got]
    exact Machine.set_of_ne (by simp)
  · rw [got, Machine.set_mem]
  · rw [got, Machine.set_self, rsp]
    simp
  · rw [got, Machine.set_self]
    simp [mountKernel, mountTable, syscalls]

theorem mountKernel_number (number : BitVec 64) :
    (gotStack mountKernel (mountKernel.code.after .syscall (mountProgram number))).regs .r8 =
      number := by
  obtain ⟨-, rax, -⟩ := after_syscall mountKernel (mountProgram number)
  obtain ⟨-, -, r8, -⟩ := beforeStack_eq mountKernel (mountKernel_entry number).room
  rw [mountKernel_gotStack, Machine.set_of_ne (by simp), r8, rax]
  rfl

theorem sys_handler_calls_mount : ∃ s', mountKernel.code.Ends .sysHandler
    (mountKernel.code.after .syscall (mountProgram 8)) (.handlerRet, s') ∧ s'.regs .rax = 7 := by
  obtain ⟨seen, -, -, -, -, -, finish⟩ := sys_handler_calls mountKernel (mountKernel_entry 8)
    (mountKernel_got 8)
    (by rw [mountKernel_number]; exact (show funcFor mountTable 8 = some 10 from rfl))
  obtain ⟨s', ends, regs, -⟩ := finish
    ⟨Machine.set_of_ne (by simp), fun k _ => rfl, fun k _ => rfl⟩
  refine ⟨s', ends, ?_⟩
  rw [regs, Function.update_self]
  rfl

theorem sys_handler_unknown_ten : ∃ s', mountKernel.code.Ends .sysHandler
    (mountKernel.code.after .syscall (mountProgram 10)) (.handlerRet, s') ∧
      s'.regs .rax = BitVec.ofInt 64 (-38) := by
  obtain ⟨s', ends, regs⟩ := sys_handler_unknown mountKernel (mountKernel_entry 10)
    (mountKernel_got 10)
    (by rw [mountKernel_number]; exact (show funcFor mountTable 10 = none from rfl))
  refine ⟨s', ends, ?_⟩
  rw [regs, Function.update_self]
  rfl

theorem syscall_arguments_mount : ∃ s',
    mountKernel.code.Ends .syscall (mountProgram 8) (.handlerRet, s') ∧ s'.regs .rax = 7 := by
  have scratch : ∀ r ∈ [Reg.r8, .r9, .r10, .r11],
      (gotStack mountKernel (mountKernel.code.after .syscall (mountProgram 8))).regs r =
        (beforeStack mountKernel (mountKernel.code.after .syscall (mountProgram 8))).regs r := by
    intro r mem
    rw [mountKernel_gotStack]
    refine Machine.set_of_ne ?_
    rintro rfl
    simp at mem
  obtain ⟨seen, -, -, -, -, finish⟩ := syscall_arguments mountKernel (mountKernel_entry 8)
    (mountKernel_got 8) scratch (show funcFor mountTable 8 = some 10 from rfl)
  obtain ⟨s', ends, -, -, rax, -⟩ := finish
    ⟨Machine.set_of_ne (by simp), fun k _ => rfl, fun k _ => rfl⟩
  exact ⟨s', ends, rax⟩

end

end Sdx.Syscall
