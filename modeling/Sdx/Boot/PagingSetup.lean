import Sdx.Lib.AsmStack

/-! # The first page tables (`boot/paging.S`)

Before the processor can run 64-bit code `__paging_setup` fills four tables: they map the first
2 MiB and the page of the multiboot information, at 0 and at the -2 GiB mark, and the PML4 into
itself. The tables are in the kernel's zeroed memory, and only the lower half of an entry is
written.
-/

namespace Sdx.Boot

open Sdx.Lib Sdx.Lib.Asm Sdx.Lib.Bytes

inductive PagingLabel where
  /-- `__paging_setup`. -/
  | setup
  /-- Behind the check of the kernel's size. -/
  | info
  /-- `.Lpaging_setup_align_mb_addr`. -/
  | align
  /-- Behind the test of the remainder. -/
  | decrement
  /-- `.Lpaging_setup_align_mb_done`. -/
  | aligned
  /-- Behind the check of the information's size. -/
  | tables
  /-- `.Lpaging_setup_fail_kernel_large`. -/
  | kernelLarge
  /-- `.Lpaging_setup_fail_mb_large`. -/
  | mbLarge
  deriving DecidableEq

/-- The physical addresses of what `paging.S` names, and where the kernel ends. -/
structure PagingImage where
  kernelEnd : BitVec 32
  pagingTempTables : BitVec 32
  pagingMbDataAddr : BitVec 32
  pagingMbDataOffset : BitVec 32
  errPagingKernelLarge : BitVec 32
  errPagingMbDataLarge : BitVec 32

/-- `PTE_FLAGS_DEFAULT`. -/
def pteDefault : BitVec 32 := 3

/-- `PTE_FLAG_PS`. -/
def ptePs : BitVec 32 := 1 <<< 7

/-- The lower half of an entry, and the flags. -/
def putEntry (v dst : Operand 32) : List (Instr 32) :=
  [.mov .full v dst, .alu .or .full (.imm pteDefault) dst]

namespace PagingImage

def block (im : PagingImage) : PagingLabel → Block 32 PagingLabel
  | .setup =>
      ⟨[.push (.reg .rbp),
        .mov .full (.reg .rsp) (.reg .rbp),
        .alu .sub .full (.imm 4) (.reg .rsp),
        .push (.reg .rbx),
        .push (.reg .rcx),
        .push (.reg .rdx),
        .mov .full (.imm im.kernelEnd) (.reg .rax),
        .cmp .full (.imm (2 * 1024 * 1024)) (.reg .rax)],
       .jcc .a .kernelLarge .info⟩
  | .info =>
      ⟨[.mov .full (.at 8 .rbp) (.reg .rbx),
        .mov .full (.at 0 .rbx) (.reg .rcx),
        .mov .full (.reg .rcx) (.at 12 .rsp),
        .mov .full (.reg .rbx) (.abs im.pagingMbDataAddr)],
       .jmp .align⟩
  | .align =>
      ⟨[.alu .xor .full (.reg .rdx) (.reg .rdx),
        .mov .full (.reg .rbx) (.reg .rax),
        .mov .full (.imm 4096) (.reg .rcx),
        .div (.reg .rcx),
        .test .full (.reg .rdx) (.reg .rdx)],
       .jcc .e .aligned .decrement⟩
  | .decrement =>
      ⟨[.dec .full (.reg .rbx),
        .inc .full (.at 12 .rsp)],
       .jmp .align⟩
  | .aligned =>
      ⟨[.mov .full (.reg .rbx) (.reg .rdx),
        .mov .full (.at 12 .rsp) (.reg .rbx),
        .mov .full (.reg .rbx) (.abs im.pagingMbDataOffset),
        .mov .full (.at 8 .rbp) (.reg .rbx),
        .mov .full (.at 0 .rbx) (.reg .rbx),
        .alu .sub .full (.reg .rbx) (.abs im.pagingMbDataOffset),
        .mov .full (.at 12 .rsp) (.reg .rcx),
        .cmp .full (.imm 4096) (.reg .rcx)],
       .jcc .a .mbLarge .tables⟩
  | .tables =>
      ⟨[.mov .full (.imm im.pagingTempTables) (.reg .rax),
        .mov .full (.reg .rax) (.reg .rbx),
        .alu .add .full (.imm (512 * 8)) (.reg .rbx),
        .mov .full (.reg .rbx) (.reg .rcx),
        .alu .add .full (.imm (512 * 8)) (.reg .rcx)] ++
        -- PML4
        putEntry (.reg .rbx) (.at 0 .rax) ++
        putEntry (.reg .rax) (.at (510 * 8) .rax) ++
        putEntry (.reg .rbx) (.at (511 * 8) .rax) ++
        -- PDPT
        putEntry (.reg .rcx) (.at 0 .rbx) ++
        putEntry (.reg .rcx) (.at (510 * 8) .rbx) ++
        -- PD
        [.mov .full (.imm (pteDefault ||| ptePs)) (.at 0 .rcx),
         .alu .add .full (.imm (512 * 8 * 2)) (.reg .rbx)] ++
        putEntry (.reg .rbx) (.at 8 .rcx) ++
        -- PT
        putEntry (.reg .rdx) (.at 0 .rbx) ++
        [.pop (.reg .rdx),
         .pop (.reg .rcx),
         .pop (.reg .rbx),
         .mov .full (.reg .rbp) (.reg .rsp),
         .pop (.reg .rbp)],
       .ret⟩
  -- The call of `__fail` does not come back.
  | .kernelLarge => ⟨[.push (.imm im.errPagingKernelLarge)], .stop⟩
  | .mbLarge => ⟨[.push (.imm im.errPagingMbDataLarge)], .stop⟩

def code (im : PagingImage) : Code 32 PagingLabel := ⟨im.block, fun _ => 0, fun _ s => s⟩

end PagingImage

/-! ## Where everything is -/

/-- Two parts of memory without a byte in common. -/
def Apart (p q : Nat × Nat) : Prop := p.1 + p.2 ≤ q.1 ∨ q.1 + q.2 ≤ p.1

/-- The state in which `__paging_setup` is called, with the address of the multiboot information on
    the stack. -/
structure PagingEntry (im : PagingImage) (s : Machine 32) (back mb size : BitVec 32) : Prop where
  stack : Holds s.mem s.rsp.toNat (words [back, mb])
  info : Holds s.mem mb.toNat (words [size])
  room : 20 ≤ s.rsp.toNat ∧ s.rsp.toNat + 8 ≤ 2 ^ 32
  whole : 4096 ∣ im.pagingTempTables.toNat
  fits : im.pagingTempTables.toNat + 0x4000 ≤ 2 ^ 32
  zero : ∀ k < 0x4000, s.mem (im.pagingTempTables.toNat + k) = 0
  apart : [(im.pagingTempTables.toNat, 0x4000), (s.rsp.toNat - 20, 28), (mb.toNat, 4),
    (im.pagingMbDataAddr.toNat, 4), (im.pagingMbDataOffset.toNat, 4)].Pairwise Apart

section

variable {im : PagingImage} {s₀ s s' : Machine 32} {back mb size loc v : BitVec 32}

/-- The words that `__paging_setup` keeps on the stack, with `loc` for the size of the information. -/
def setupFrame (s₀ : Machine 32) (back mb loc : BitVec 32) : List (BitVec 32) :=
  [s₀.regs .rdx, s₀.regs .rcx, s₀.regs .rbx, loc, s₀.regs .rbp, back, mb]

/-- While the tables are not filled, memory is written below the stack pointer and in the two
    variables only. -/
structure InSetup (im : PagingImage) (s₀ : Machine 32) (back mb loc : BitVec 32) (s : Machine 32) :
    Prop where
  rsp : s.regs .rsp = s₀.rsp - 20
  rbp : s.regs .rbp = s₀.rsp - 4
  frame : Holds s.mem (s₀.rsp.toNat - 20) (words (setupFrame s₀ back mb loc))
  same : ∀ a, Apart (a, 1) (s₀.rsp.toNat - 20, 20) → Apart (a, 1) (im.pagingMbDataAddr.toNat, 4) →
    Apart (a, 1) (im.pagingMbDataOffset.toNat, 4) → s.mem a = s₀.mem a

namespace InSetup

theorem of_eq (h : InSetup im s₀ back mb loc s) (mem : s'.mem = s.mem)
    (rsp : s'.regs .rsp = s.regs .rsp) (rbp : s'.regs .rbp = s.regs .rbp) :
    InSetup im s₀ back mb loc s' :=
  ⟨rsp.trans h.rsp, rbp.trans h.rbp, mem ▸ h.frame, mem ▸ h.same⟩

theorem rsp_toNat (h : InSetup im s₀ back mb loc s) (entry : PagingEntry im s₀ back mb size) :
    (s.regs .rsp).toNat = s₀.rsp.toNat - 20 := by
  rw [h.rsp]
  exact toNat_sub_ofNat (n := 20) entry.room.1

theorem rbp_toNat (h : InSetup im s₀ back mb loc s) (entry : PagingEntry im s₀ back mb size) :
    (s.regs .rbp).toNat = s₀.rsp.toNat - 20 + 16 := by
  have room := entry.room.1
  have above : (s₀.rsp - 4).toNat = s₀.rsp.toNat - 4 := toNat_sub_ofNat (n := 4) (by omega)
  rw [h.rbp, above]
  omega

/-- The words of the frame, by their place in it. -/
theorem load (h : InSetup im s₀ back mb loc s) (entry : PagingEntry im s₀ back mb size)
    {x : BitVec 32} {i : Nat} (at_ : x.toNat = s₀.rsp.toNat - 20 + i * 4)
    (lt : i < (setupFrame s₀ back mb loc).length) (mem : s'.mem = s.mem) :
    s'.load x 4 = (setupFrame s₀ back mb loc)[i] := by
  have room := entry.room
  have base := h.rsp_toNat entry
  have fits : (s.regs .rsp).toNat + (setupFrame s₀ back mb loc).length * (32 / 8) ≤ 2 ^ 32 := by
    rw [base]
    simp only [setupFrame, List.length_cons, List.length_nil]
    omega
  have word := Machine.load_words (i := i) (by omega) (base ▸ h.frame) fits lt
  have same : s.regs .rsp + BitVec.ofNat 32 (i * (32 / 8)) = x := by
    apply BitVec.eq_of_toNat_eq
    rw [toNat_add_ofNat (by simp only [setupFrame, List.length_cons, List.length_nil] at lt; omega),
      base, at_]
  rw [same] at word
  rw [Machine.load_congr mem]
  exact word

theorem load_size (h : InSetup im s₀ back mb loc s) (entry : PagingEntry im s₀ back mb size)
    (mem : s'.mem = s.mem) : s'.load mb 4 = size := by
  have room := entry.room.1
  have apart := entry.apart
  simp only [List.pairwise_cons, List.mem_cons, forall_eq_or_imp, Apart] at apart
  have info := entry.info
  rw [words_cons, words_nil, List.append_nil] at info
  have holds : Holds s'.mem mb.toNat (encode (32 / 8) size.toNat) := by
    refine info.congr fun a low high => ?_
    rw [length_encode] at high
    rw [mem]
    refine h.same a ?_ ?_ ?_ <;> simp only [Apart] <;> omega
  exact ofNat_read_of_holds (by omega) holds

/-- The size on the stack is changed. -/
theorem store_local (h : InSetup im s₀ back mb loc s) (entry : PagingEntry im s₀ back mb size)
    {a : Nat} (at_ : a = s₀.rsp.toNat - 20 + 12)
    (mem : s'.mem = Bytes.store s.mem a (encode 4 v.toNat))
    (rsp : s'.regs .rsp = s.regs .rsp) (rbp : s'.regs .rbp = s.regs .rbp) :
    InSetup im s₀ back mb v s' := by
  have room := entry.room.1
  refine ⟨rsp.trans h.rsp, rbp.trans h.rbp, ?_, fun x out addr offset => ?_⟩
  · have written := holds_set (i := 3) (v := v) h.frame (by simp [setupFrame])
    rw [mem, at_]
    exact written
  · rw [mem, store_outside, h.same x out addr offset]
    rw [length_encode]
    simp only [Apart] at out
    omega

/-- A variable is written. -/
theorem store_var (h : InSetup im s₀ back mb loc s) (entry : PagingEntry im s₀ back mb size)
    {x : BitVec 32} (var : x = im.pagingMbDataAddr ∨ x = im.pagingMbDataOffset)
    (mem : s'.mem = Bytes.store s.mem x.toNat (encode 4 v.toNat))
    (rsp : s'.regs .rsp = s.regs .rsp) (rbp : s'.regs .rbp = s.regs .rbp) :
    InSetup im s₀ back mb loc s' := by
  have room := entry.room.1
  have apart := entry.apart
  simp only [List.pairwise_cons, List.mem_cons, forall_eq_or_imp, Apart] at apart
  have length : (words (setupFrame s₀ back mb loc)).length = 28 := by simp [setupFrame]
  refine ⟨rsp.trans h.rsp, rbp.trans h.rbp, ?_, fun a out addr offset => ?_⟩
  · rw [mem]
    refine h.frame.store ?_
    rw [length, length_encode]
    rcases var with rfl | rfl <;> omega
  · rw [mem, store_outside, h.same a out addr offset]
    rw [length_encode]
    simp only [Apart] at addr offset
    rcases var with rfl | rfl <;> omega

end InSetup

end

/-! ## The parts of `__paging_setup` -/

section

variable {im : PagingImage} {s₀ s : Machine 32} {back mb size loc : BitVec 32}

theorem above_iff {x y : BitVec 32} : y ≤ x ∧ ¬ x = y ↔ y.toNat < x.toNat := by
  rw [BitVec.le_def, ← BitVec.toNat_inj]
  omega

/-- The place for the size, under the saved `ebp`. -/
theorem run_local :
    ∃ t, runAll [.push (.reg .rbp), .mov .full (.reg .rsp) (.reg .rbp),
        .alu .sub .full (.imm 4) (.reg .rsp)] s₀ = t ∧
      t.mem = (s₀.pushed [s₀.regs .rbp]).mem ∧ t.rsp = s₀.rsp - 8 ∧
      t.regs .rbp = s₀.rsp - 4 ∧ ∀ r, r ≠ .rsp → r ≠ .rbp → t.regs r = s₀.regs r := by
  have pointer : (s₀.push (s₀.regs .rbp)).regs .rsp = s₀.rsp - 4 := Machine.push_rsp
  have kept : ∀ r, r ≠ .rsp → (s₀.push (s₀.regs .rbp)).regs r = s₀.regs r :=
    fun r off => Machine.push_reg off
  refine ⟨_, rfl, ?_, ?_, ?_, fun r rsp rbp => ?_⟩
  · simp [runAll]
    rfl
  · have four : (4#32 : BitVec 32) + 4#32 = 8#32 := rfl
    simp [runAll, Machine.rsp, pointer, BitVec.sub_sub, four]
  · simp [runAll, pointer]
  · simp [runAll, rsp, rbp, kept]

theorem after_setup (entry : PagingEntry im s₀ back mb size) :
    ∃ loc, InSetup im s₀ back mb loc (im.code.after .setup s₀) ∧
      (Cond.a.holds (im.code.after .setup s₀) ↔ 2 * 1024 * 1024 < im.kernelEnd.toNat) := by
  have room := entry.room
  obtain ⟨t, first, mem, rsp, rbp, others⟩ := @run_local s₀
  have saved : runAll (pushes [.rbx, .rcx, .rdx]) t =
      t.pushed [s₀.regs .rbx, s₀.regs .rcx, s₀.regs .rdx] := by
    rw [runAll_pushes (by simp)]
    simp [others]
  have ended : im.code.after .setup s₀ = runAll [.mov .full (.imm im.kernelEnd) (.reg .rax),
      .cmp .full (.imm (2 * 1024 * 1024)) (.reg .rax)]
        (t.pushed [s₀.regs .rbx, s₀.regs .rcx, s₀.regs .rdx]) := by
    rw [← saved, ← first, ← runAll_append, ← runAll_append]
    rfl
  have place : t.rsp.toNat = s₀.rsp.toNat - 8 := by
    rw [rsp]
    exact toNat_sub_ofNat (n := 8) (by omega)
  have three : [s₀.regs .rbx, s₀.regs .rcx, s₀.regs .rdx].length * (32 / 8) = 12 := rfl
  have pushed := @Machine.pushed_mem 32 t [s₀.regs .rbx, s₀.regs .rcx, s₀.regs .rdx] (by omega)
  have pointer := @Machine.toNat_pushed_rsp 32 t [s₀.regs .rbx, s₀.regs .rcx, s₀.regs .rdx] (by omega)
  have rbp' := @Machine.pushed_reg 32 t [s₀.regs .rbx, s₀.regs .rcx, s₀.regs .rdx] .rbp (by simp)
  generalize t.pushed [s₀.regs .rbx, s₀.regs .rcx, s₀.regs .rdx] = p at *
  have last : (im.code.after .setup s₀).mem = p.mem ∧
      (im.code.after .setup s₀).regs .rsp = p.regs .rsp ∧
      (im.code.after .setup s₀).regs .rbp = p.regs .rbp ∧
      (Cond.a.holds (im.code.after .setup s₀) ↔ 2 * 1024 * 1024 < im.kernelEnd.toNat) := by
    rw [ended]
    simp [runAll, Cond.holds]
    exact above_iff
  obtain ⟨mem', rsp', rbp'', large⟩ := last
  rw [three, place] at pushed pointer
  refine ⟨BitVec.ofNat 32 (Bytes.read s₀.mem (s₀.rsp.toNat - 8) 4), ⟨?_, ?_, ?_, ?_⟩, large⟩
  · apply BitVec.eq_of_toNat_eq
    have below : (s₀.rsp - 20).toNat = s₀.rsp.toNat - 20 := toNat_sub_ofNat (n := 20) room.1
    rw [rsp', below]
    exact pointer.trans (by omega)
  · rw [rbp'', rbp', rbp]
  · have split : setupFrame s₀ back mb (BitVec.ofNat 32 (Bytes.read s₀.mem (s₀.rsp.toNat - 8) 4)) =
        [s₀.regs .rbx, s₀.regs .rcx, s₀.regs .rdx].reverse ++
          ([BitVec.ofNat 32 (Bytes.read s₀.mem (s₀.rsp.toNat - 8) 4)] ++
            ([s₀.regs .rbp].reverse ++ [back, mb])) := rfl
    have loc : (BitVec.ofNat 32 (Bytes.read s₀.mem (s₀.rsp.toNat - 8) 4)).toNat =
        Bytes.read s₀.mem (s₀.rsp.toNat - 8) 4 := by
      have lt : Bytes.read s₀.mem (s₀.rsp.toNat - 8) 4 < 2 ^ 32 := read_lt
      rw [BitVec.toNat_ofNat, Nat.mod_eq_of_lt lt]
    have one : [s₀.regs .rbp].length * (32 / 8) = 4 := rfl
    have ebp := @Machine.holds_pushed 32 s₀ [s₀.regs .rbp] (by omega)
    have ebp_at := @Machine.toNat_pushed_rsp 32 s₀ [s₀.regs .rbp] (by omega)
    have outside := fun a out => @Machine.pushed_outside 32 s₀ [s₀.regs .rbp] a (by omega) out
    rw [ebp_at, one] at ebp
    rw [one] at outside
    have a₁ : s₀.rsp.toNat - 8 - 12 + 3 * (32 / 8) = s₀.rsp.toNat - 8 := by omega
    have a₂ : s₀.rsp.toNat - 8 + 1 * (32 / 8) = s₀.rsp.toNat - 4 := by omega
    have a₃ : s₀.rsp.toNat - 4 + 1 * (32 / 8) = s₀.rsp.toNat := by omega
    have a₀ : s₀.rsp.toNat - 20 = s₀.rsp.toNat - 8 - 12 := by omega
    rw [split, mem', pushed, mem, a₀, words_append, holds_append, words_append, holds_append,
      words_append, holds_append, length_words, length_words, length_words, List.length_reverse,
      List.length_reverse]
    simp only [List.length_cons, List.length_nil, Nat.zero_add, a₁, a₂, a₃]
    have apart : s₀.rsp.toNat - 8 - 12 +
        (words [s₀.regs .rbx, s₀.regs .rcx, s₀.regs .rdx].reverse).length ≤ s₀.rsp.toNat - 8 := by
      simp
      omega
    refine ⟨holds_store, Holds.store ?_ (.inr apart), Holds.store ebp (.inr (by omega)),
      Holds.store ?_ (.inr (by omega))⟩
    · rw [words_cons, words_nil, List.append_nil, loc]
      refine holds_read.congr fun a low high => outside a ?_
      rw [length_encode] at high
      omega
    · exact entry.stack.congr fun a low high => outside a (.inr low)
  · intro a out _ _
    simp only [Apart] at out
    rw [mem', pushed, store_outside (by simp; omega), mem, Machine.pushed_outside (by simp; omega)]
    simp
    omega

/-- The address and the size of the information are fetched. -/
theorem after_info (h : InSetup im s₀ back mb loc s) (entry : PagingEntry im s₀ back mb size) :
    InSetup im s₀ back mb size (im.code.after .info s) ∧
      (im.code.after .info s).regs .rbx = mb ∧
      Holds (im.code.after .info s).mem im.pagingMbDataAddr.toNat (encode 4 mb.toNat) := by
  have room := entry.room
  have rsp := h.rsp_toNat entry
  have rbp := h.rbp_toNat entry
  have arg : ∀ s' : Machine 32, s'.mem = s.mem → s'.load (8#32 + s.regs .rbp) 4 = mb :=
    fun s' mem => h.load entry (i := 6)
      (by rw [BitVec.add_comm, toNat_add_ofNat (n := 8) (by omega), rbp]) (by simp [setupFrame]) mem
  have total : ∀ s' : Machine 32, s'.mem = s.mem → s'.load mb 4 = size := fun s' =>
    h.load_size entry
  have place : (12#32 + s.regs .rsp).toNat = s₀.rsp.toNat - 20 + 12 := by
    rw [BitVec.add_comm, toNat_add_ofNat (n := 12) (by omega), rsp]
  -- both stores, one after the other
  have local' : InSetup im s₀ back mb size (s.store (12#32 + s.regs .rsp) 4 size) :=
    h.store_local entry place rfl rfl rfl
  have var : InSetup im s₀ back mb size ((s.store (12#32 + s.regs .rsp) 4 size).store
      im.pagingMbDataAddr 4 mb) :=
    local'.store_var entry (.inl rfl) rfl rfl rfl
  have eq : (im.code.after .info s).mem = ((s.store (12#32 + s.regs .rsp) 4 size).store
        im.pagingMbDataAddr 4 mb).mem ∧ (im.code.after .info s).regs .rsp = s.regs .rsp ∧
      (im.code.after .info s).regs .rbp = s.regs .rbp ∧
      (im.code.after .info s).regs .rbx = mb := by
    simp [Code.after, PagingImage.code, PagingImage.block, runAll, arg, Machine.store]
    rw [total _ Machine.set_mem]
  refine ⟨var.of_eq eq.1 eq.2.1 eq.2.2.1, eq.2.2.2, ?_⟩
  rw [eq.1]
  exact holds_store

/-- One round: `ebx` is on a page or it is not. -/
theorem after_align (h : InSetup im s₀ back mb loc s) :
    InSetup im s₀ back mb loc (im.code.after .align s) ∧
      (im.code.after .align s).mem = s.mem ∧
      (im.code.after .align s).regs .rbx = s.regs .rbx ∧
      ((im.code.after .align s).zf = true ↔ (s.regs .rbx).toNat % 4096 = 0) := by
  have zero : BitVec.ofNat 32 ((s.regs .rbx).toNat % 4096) = 0#32 ↔
      (s.regs .rbx).toNat % 4096 = 0 := by
    rw [← BitVec.toNat_inj, BitVec.toNat_ofNat, Nat.mod_eq_of_lt (by omega)]
    rfl
  have eq : (im.code.after .align s).mem = s.mem ∧
      (im.code.after .align s).regs .rsp = s.regs .rsp ∧
      (im.code.after .align s).regs .rbp = s.regs .rbp ∧
      (im.code.after .align s).regs .rbx = s.regs .rbx ∧
      ((im.code.after .align s).zf = true ↔ (s.regs .rbx).toNat % 4096 = 0) := by
    simp [Code.after, PagingImage.code, PagingImage.block, runAll, zero]
  exact ⟨h.of_eq eq.1 eq.2.1 eq.2.2.1, eq.1, eq.2.2.2⟩

theorem after_decrement (h : InSetup im s₀ back mb loc s) (entry : PagingEntry im s₀ back mb size) :
    InSetup im s₀ back mb (loc + 1) (im.code.after .decrement s) ∧
      (∀ a, Apart (a, 1) (s₀.rsp.toNat - 20, 20) → (im.code.after .decrement s).mem a = s.mem a) ∧
      (im.code.after .decrement s).regs .rbx = s.regs .rbx - 1 := by
  have room := entry.room
  have rsp := h.rsp_toNat entry
  have place : (12#32 + s.regs .rsp).toNat = s₀.rsp.toNat - 20 + 12 := by
    rw [BitVec.add_comm, toNat_add_ofNat (n := 12) (by omega), rsp]
  have word : ∀ s' : Machine 32, s'.mem = s.mem → s'.load (12#32 + s.regs .rsp) 4 = loc :=
    fun s' mem => h.load entry (i := 3) place (by simp [setupFrame]) mem
  have local' : InSetup im s₀ back mb (loc + 1) (s.store (12#32 + s.regs .rsp) 4 (loc + 1)) :=
    h.store_local entry place rfl rfl rfl
  have eq : (im.code.after .decrement s).mem = (s.store (12#32 + s.regs .rsp) 4 (loc + 1)).mem ∧
      (im.code.after .decrement s).regs .rsp = s.regs .rsp ∧
      (im.code.after .decrement s).regs .rbp = s.regs .rbp ∧
      (im.code.after .decrement s).regs .rbx = s.regs .rbx - 1 := by
    simp [Code.after, PagingImage.code, PagingImage.block, runAll, word, Machine.store]
  refine ⟨local'.of_eq eq.1 eq.2.1 eq.2.2.1, fun a out => ?_, eq.2.2.2⟩
  simp only [Apart] at out
  rw [eq.1, Machine.store_mem, store_outside (by rw [length_encode, place]; omega)]

/-- The address goes down to its page, and the size grows by as much. -/
theorem ends_align (h : InSetup im s₀ back mb loc s) (entry : PagingEntry im s₀ back mb size) :
    ∃ s', InSetup im s₀ back mb (loc + BitVec.ofNat 32 ((s.regs .rbx).toNat % 4096)) s' ∧
      (∀ a, Apart (a, 1) (s₀.rsp.toNat - 20, 20) → s'.mem a = s.mem a) ∧
      (s'.regs .rbx).toNat = (s.regs .rbx).toNat / 4096 * 4096 ∧
      ∀ out, im.code.Ends .aligned s' out → im.code.Ends .align s out := by
  generalize rest : (s.regs .rbx).toNat % 4096 = r
  induction r generalizing s loc with
  | zero =>
      obtain ⟨h', mem, rbx, zf⟩ := after_align h
      refine ⟨_, ?_, fun a _ => congrFun mem a, ?_, fun out ends => .taken rfl (zf.mpr rest) ends⟩
      · have same : loc + BitVec.ofNat 32 0 = loc := BitVec.add_zero _
        rw [same]
        exact h'
      · rw [rbx]
        omega
  | succ r ih =>
      obtain ⟨h', mem, rbx, zf⟩ := after_align h
      obtain ⟨h'', outside, less⟩ := after_decrement h' entry
      have one : (s.regs .rbx - 1).toNat = (s.regs .rbx).toNat - 1 :=
        toNat_sub_ofNat (n := 1) (by omega)
      rw [rbx] at less
      obtain ⟨s', done, outside', page, back⟩ := ih h'' (by rw [less, one]; omega)
      refine ⟨s', ?_, fun a out => ?_, ?_, fun out ends => .untaken rfl ?_ (.jmp rfl (back out ends))⟩
      · have sum : loc + 1 + BitVec.ofNat 32 r = loc + BitVec.ofNat 32 (r + 1) := by
          rw [BitVec.add_assoc, BitVec.ofNat_add, BitVec.add_comm 1]
          rfl
        rwa [sum] at done
      · rw [outside' a out, outside a out, mem]
      · rw [page, less, one]
        omega
      · have more : ¬ (im.code.after .align s).zf = true := mt zf.mp (by omega)
        simpa [Cond.holds] using more

/-- The offset of the information in its page is what its size has grown by. -/
theorem after_aligned (h : InSetup im s₀ back mb loc s) (entry : PagingEntry im s₀ back mb size) :
    InSetup im s₀ back mb loc (im.code.after .aligned s) ∧
      (∀ a, Apart (a, 1) (im.pagingMbDataOffset.toNat, 4) →
        (im.code.after .aligned s).mem a = s.mem a) ∧
      Holds (im.code.after .aligned s).mem im.pagingMbDataOffset.toNat
        (encode 4 (loc - size).toNat) ∧
      (im.code.after .aligned s).regs .rdx = s.regs .rbx ∧
      (Cond.a.holds (im.code.after .aligned s) ↔ 4096 < loc.toNat) := by
  have room := entry.room
  have rsp := h.rsp_toNat entry
  have rbp := h.rbp_toNat entry
  -- the memory behind each of the two writes to the variable
  obtain ⟨m, m_eq⟩ : ∃ m, Bytes.store s.mem im.pagingMbDataOffset.toNat (encode 4 loc.toNat) = m :=
    ⟨_, rfl⟩
  obtain ⟨m', m'_eq⟩ : ∃ m', Bytes.store m im.pagingMbDataOffset.toNat
      (encode 4 (loc - size).toNat) = m' := ⟨_, rfl⟩
  have var : InSetup im s₀ back mb loc { s with mem := m } :=
    h.store_var entry (.inr rfl) m_eq.symm rfl rfl
  have var' : InSetup im s₀ back mb loc { s with mem := m' } :=
    var.store_var entry (.inr rfl) m'_eq.symm rfl rfl
  have size_at : (12#32 + s.regs .rsp).toNat = s₀.rsp.toNat - 20 + 3 * 4 := by
    rw [BitVec.add_comm, toNat_add_ofNat (n := 12) (by omega), rsp]
  have arg_at : (8#32 + s.regs .rbp).toNat = s₀.rsp.toNat - 20 + 6 * 4 := by
    rw [BitVec.add_comm, toNat_add_ofNat (n := 8) (by omega), rbp]
  have first : ∀ s' : Machine 32, s'.mem = s.mem → s'.load (12#32 + s.regs .rsp) 4 = loc :=
    fun s' mem => h.load entry size_at (by simp [setupFrame]) mem
  have arg : ∀ s' : Machine 32, s'.mem = m → s'.load (8#32 + s.regs .rbp) 4 = mb :=
    fun s' mem => var.load entry arg_at (by simp [setupFrame]) mem
  have total : ∀ s' : Machine 32, s'.mem = m → s'.load mb 4 = size := fun s' mem =>
    var.load_size entry mem
  have again : ∀ s' : Machine 32, s'.mem = m → s'.load im.pagingMbDataOffset 4 = loc :=
    fun s' mem => ofNat_read_of_holds (by omega) (mem ▸ m_eq ▸ holds_store)
  have last : ∀ s' : Machine 32, s'.mem = m' → s'.load (12#32 + s.regs .rsp) 4 = loc :=
    fun s' mem => var'.load entry size_at (by simp [setupFrame]) mem
  simp [Code.after, PagingImage.code, PagingImage.block, runAll, Machine.set, Machine.store, first,
    m_eq, arg, total, again, m'_eq, last, -BitVec.toNat_sub]
  refine ⟨var'.of_eq rfl rfl rfl, fun a out => ?_, ?_, ?_⟩
  · simp only [Apart] at out
    rw [← m'_eq, store_outside (by rw [length_encode]; omega), ← m_eq,
      store_outside (by rw [length_encode]; omega)]
  · rw [← m'_eq]
    exact holds_store
  · simp [Cond.holds]
    exact above_iff

end

/-! ## Filling the tables -/

/-- The entries of four tables, one behind the other. -/
def Slots (m : Memory) (at_ : Nat) (f : Nat → BitVec 32) : Prop :=
  ∀ k < 2048, Holds m (at_ + 8 * k) (encode 8 (f k).toNat)

/-- What `__paging_setup` puts into the tables, with the PML4 first. -/
def bootEntry (pml4 page : BitVec 32) : Nat → BitVec 32
  | 0 | 511 => (pml4 + 0x1000) ||| pteDefault
  | 510 => pml4 ||| pteDefault
  | 512 | 1022 => (pml4 + 0x2000) ||| pteDefault
  | 1024 => pteDefault ||| ptePs
  | 1025 => (pml4 + 0x3000) ||| pteDefault
  | 1536 => page ||| pteDefault
  | _ => 0

section

variable {m : Memory} {at_ k : Nat} {f : Nat → BitVec 32} {v : BitVec 32}

/-- The lower half of an entry is enough, as long as the upper one is zero. -/
theorem Slots.put (slots : Slots m at_ f) (lt : k < 2048) :
    Slots (Bytes.store m (at_ + 8 * k) (encode 4 v.toNat)) at_ (Function.update f k v) := by
  have halves : ∀ x : BitVec 32, encode 8 x.toNat = encode 4 x.toNat ++ List.replicate 4 0 :=
    fun x => encode_of_lt (v := 4) (w := 4) x.isLt
  intro j lt'
  by_cases here : j = k
  · subst here
    have old := slots j lt
    rw [Function.update_self, halves, holds_append] at *
    rw [length_encode] at *
    exact ⟨holds_store, old.2.store (.inr (by rw [length_encode]))⟩
  · rw [Function.update_of_ne here]
    refine (slots j lt').store ?_
    rw [length_encode, length_encode]
    omega

theorem store_store {a : Nat} {bytes other : List UInt8} (length : bytes.length = other.length) :
    Bytes.store (Bytes.store m a bytes) a other = Bytes.store m a other := by
  funext x
  by_cases inside : a ≤ x ∧ x < a + other.length
  · obtain ⟨j, rfl⟩ := Nat.exists_eq_add_of_le inside.1
    rw [store_inside (by omega), store_inside (by omega)]
  · rw [store_outside (by omega), store_outside (by omega), store_outside (by omega)]

/-- An entry with its flags. -/
theorem run_putEntry (s : Machine 32) (r b : Reg) (d : BitVec 32) :
    (runAll (putEntry (.reg r) (.at d b)) s).regs = s.regs ∧
      (runAll (putEntry (.reg r) (.at d b)) s).mem =
        Bytes.store s.mem (d + s.regs b).toNat (encode 4 (s.regs r ||| pteDefault).toNat) := by
  have back : ∀ s' : Machine 32, s'.mem = Bytes.store s.mem (d + s.regs b).toNat
      (encode 4 (s.regs r).toNat) → s'.load (d + s.regs b) 4 = s.regs r := fun s' mem =>
    ofNat_read_of_holds (by omega) (mem ▸ holds_store)
  simp [putEntry, runAll, Machine.store, back, store_store, -BitVec.toNat_add, -BitVec.toNat_or]

/-- The same, where the entry is in the tables. -/
theorem Slots.run_putEntry {s : Machine 32} {r b : Reg} {d : BitVec 32} (slots : Slots s.mem at_ f)
    (place : (d + s.regs b).toNat = at_ + 8 * k) (lt : k < 2048) :
    (runAll (putEntry (.reg r) (.at d b)) s).regs = s.regs ∧
      Slots (runAll (putEntry (.reg r) (.at d b)) s).mem at_
        (Function.update f k (s.regs r ||| pteDefault)) ∧
      ∀ a, Apart (a, 1) (at_, 0x4000) →
        (runAll (putEntry (.reg r) (.at d b)) s).mem a = s.mem a := by
  obtain ⟨regs, mem⟩ := Boot.run_putEntry s r b d
  refine ⟨regs, ?_, fun a out => ?_⟩
  · rw [mem, place]
    exact slots.put lt
  · simp only [Apart] at out
    rw [mem, place, store_outside (by rw [length_encode]; omega)]

variable {im : PagingImage} {s₀ s : Machine 32} {back mb size loc : BitVec 32}

theorem InSetup.slots (h : InSetup im s₀ back mb loc s) (entry : PagingEntry im s₀ back mb size) :
    Slots s.mem im.pagingTempTables.toNat fun _ => 0 := by
  have room := entry.room.1
  have apart := entry.apart
  simp only [List.pairwise_cons, List.mem_cons, forall_eq_or_imp, Apart] at apart
  intro k lt j inside
  rw [length_encode] at inside
  have zero := entry.zero (8 * k + j) (by omega)
  have same := h.same (im.pagingTempTables.toNat + (8 * k + j)) (by simp only [Apart]; omega)
    (by simp only [Apart]; omega) (by simp only [Apart]; omega)
  have none : encode 8 (0 : BitVec 32).toNat = List.replicate 8 0 := encode_zero
  rw [Nat.add_assoc, same, zero]
  simp only [none, List.getElem_replicate]

/-- The state while the tables are filled, from `s` on: `rbx` is the PDPT, and then the PT. -/
structure Filling (im : PagingImage) (s : Machine 32) (rbx : BitVec 32) (f : Nat → BitVec 32)
    (t : Machine 32) : Prop where
  rax : t.regs .rax = im.pagingTempTables
  rbx : t.regs .rbx = rbx
  rcx : t.regs .rcx = im.pagingTempTables + 0x2000
  others : ∀ r ∈ [Reg.rdx, .rsp, .rbp], t.regs r = s.regs r
  slots : Slots t.mem im.pagingTempTables.toNat f
  same : ∀ a, Apart (a, 1) (im.pagingTempTables.toNat, 0x4000) → t.mem a = s.mem a

namespace Filling

variable {t : Machine 32} {rbx : BitVec 32} {r b : Reg} {n d : Nat}

theorem put (fill : Filling im s rbx f t) (fits : im.pagingTempTables.toNat + 0x4000 ≤ 2 ^ 32)
    (value : t.regs r = v) (base : (t.regs b).toNat = im.pagingTempTables.toNat + n)
    (slot : n + d = 8 * k) (lt : k < 2048) :
    ∃ t', runAll (putEntry (.reg r) (.at (BitVec.ofNat 32 d) b)) t = t' ∧
      Filling im s rbx (Function.update f k (v ||| pteDefault)) t' := by
  have place : (BitVec.ofNat 32 d + t.regs b).toNat = im.pagingTempTables.toNat + 8 * k := by
    rw [BitVec.add_comm, toNat_add_ofNat (by omega), base]
    omega
  obtain ⟨regs, slots, same⟩ := fill.slots.run_putEntry (r := r) place lt
  rw [value] at slots
  exact ⟨_, rfl, regs ▸ fill.rax, regs ▸ fill.rbx, regs ▸ fill.rcx, regs ▸ fill.others, slots,
    fun a out => (same a out).trans (fill.same a out)⟩

/-- The entry of the first 2 MiB has no address, and the PT is behind the PD. -/
theorem large (fill : Filling im s (im.pagingTempTables + 0x1000) f t)
    (fits : im.pagingTempTables.toNat + 0x4000 ≤ 2 ^ 32) :
    Filling im s (im.pagingTempTables + 0x3000) (Function.update f 1024 (pteDefault ||| ptePs))
      (runAll [.mov .full (.imm (pteDefault ||| ptePs)) (.at 0 .rcx),
        .alu .add .full (.imm (512 * 8 * 2)) (.reg .rbx)] t) := by
  have place : (im.pagingTempTables + 0x2000).toNat = im.pagingTempTables.toNat + 8 * 1024 :=
    toNat_add_ofNat (n := 0x2000) (by omega)
  have mem : (runAll [.mov .full (.imm (pteDefault ||| ptePs)) (.at 0 .rcx),
      .alu .add .full (.imm (512 * 8 * 2)) (.reg .rbx)] t).mem = Bytes.store t.mem
        (im.pagingTempTables.toNat + 8 * 1024) (encode 4 (pteDefault ||| ptePs).toNat) := by
    rw [← place, ← fill.rcx]
    simp [runAll]
  have regs : (runAll [.mov .full (.imm (pteDefault ||| ptePs)) (.at 0 .rcx),
      .alu .add .full (.imm (512 * 8 * 2)) (.reg .rbx)] t).regs =
        Function.update t.regs .rbx (t.regs .rbx + 0x2000) := by
    simp [runAll, Machine.set]
  have behind : im.pagingTempTables + 0x1000 + 0x2000 = im.pagingTempTables + 0x3000 := by
    rw [BitVec.add_assoc]
    rfl
  refine ⟨?_, ?_, ?_, fun r member => ?_, ?_, fun a out => ?_⟩
  · rw [regs, Function.update_of_ne (by simp), fill.rax]
  · rw [regs, Function.update_self, fill.rbx, behind]
  · rw [regs, Function.update_of_ne (by simp), fill.rcx]
  · rw [regs, Function.update_of_ne (by rintro rfl; simp at member), fill.others r member]
  · rw [mem]
    exact fill.slots.put (by omega)
  · simp only [Apart] at out
    rw [mem, store_outside (by rw [length_encode]; omega), fill.same a (by simp only [Apart]; omega)]

end Filling

/-- The addresses of the PML4, the PDPT and the PD. -/
theorem filling_start (h : InSetup im s₀ back mb loc s) (entry : PagingEntry im s₀ back mb size) :
    Filling im s (im.pagingTempTables + 0x1000) (fun _ => 0) (runAll
      [.mov .full (.imm im.pagingTempTables) (.reg .rax),
        .mov .full (.reg .rax) (.reg .rbx),
        .alu .add .full (.imm (512 * 8)) (.reg .rbx),
        .mov .full (.reg .rbx) (.reg .rcx),
        .alu .add .full (.imm (512 * 8)) (.reg .rcx)] s) := by
  have sum : (4096#32 : BitVec 32) + 4096#32 = 8192#32 := rfl
  refine ⟨?_, ?_, ?_, fun r member => ?_, h.slots entry, fun a _ => rfl⟩
  · simp [runAll]
  · simp [runAll]
  · simp [runAll, BitVec.add_assoc, sum]
  · simp only [List.mem_cons, List.not_mem_nil, or_false] at member
    rcases member with rfl | rfl | rfl <;> simp [runAll]

theorem bootEntry_eq (pml4 page : BitVec 32) : bootEntry pml4 page =
    Function.update (Function.update (Function.update (Function.update (Function.update
      (Function.update (Function.update (Function.update (fun _ => 0)
        0 ((pml4 + 0x1000) ||| pteDefault))
        510 (pml4 ||| pteDefault))
        511 ((pml4 + 0x1000) ||| pteDefault))
        512 ((pml4 + 0x2000) ||| pteDefault))
        1022 ((pml4 + 0x2000) ||| pteDefault))
        1024 (pteDefault ||| ptePs))
        1025 ((pml4 + 0x3000) ||| pteDefault))
        1536 (page ||| pteDefault) := by
  funext k
  unfold bootEntry
  simp only [Function.update_apply]
  split <;> simp_all

/-- The tables are filled before the registers come back. -/
theorem filled (h : InSetup im s₀ back mb loc s) (entry : PagingEntry im s₀ back mb size) :
    ∃ t, Filling im s (im.pagingTempTables + 0x3000)
        (bootEntry im.pagingTempTables (s.regs .rdx)) t ∧
      im.code.after .tables s = runAll (leave [.rdx, .rcx, .rbx]) t := by
  have fits := entry.fits
  have pml4 : ∀ x, x = im.pagingTempTables → x.toNat = im.pagingTempTables.toNat + 0 := by
    rintro x rfl
    rfl
  have behind : ∀ n x, n < 0x4000 → x = im.pagingTempTables + BitVec.ofNat 32 n →
      x.toNat = im.pagingTempTables.toNat + n := by
    rintro n x lt rfl
    exact toNat_add_ofNat (by omega)
  have fill₀ := filling_start h entry
  have page : ∀ {t f rbx}, Filling im s rbx f t → t.regs .rdx = s.regs .rdx := fun fill =>
    fill.others .rdx (by simp)
  simp only [Code.after, PagingImage.code, PagingImage.block, runAll_append]
  generalize runAll _ s = t₀ at fill₀ ⊢
  obtain ⟨t₁, e₁, fill₁⟩ := fill₀.put (d := 0) (k := 0) fits fill₀.rbx (pml4 _ fill₀.rax) rfl
    (by omega)
  obtain ⟨t₂, e₂, fill₂⟩ := fill₁.put (d := 4080) (k := 510) fits fill₁.rax (pml4 _ fill₁.rax) rfl
    (by omega)
  obtain ⟨t₃, e₃, fill₃⟩ := fill₂.put (d := 4088) (k := 511) fits fill₂.rbx (pml4 _ fill₂.rax) rfl
    (by omega)
  obtain ⟨t₄, e₄, fill₄⟩ := fill₃.put (d := 0) (k := 512) fits fill₃.rcx
    (behind 0x1000 _ (by omega) fill₃.rbx) rfl (by omega)
  obtain ⟨t₅, e₅, fill₅⟩ := fill₄.put (d := 4080) (k := 1022) fits fill₄.rcx
    (behind 0x1000 _ (by omega) fill₄.rbx) rfl (by omega)
  have fill₆ := fill₅.large fits
  generalize e₆ : runAll _ t₅ = t₆ at fill₆
  obtain ⟨t₇, e₇, fill₇⟩ := fill₆.put (d := 8) (k := 1025) fits fill₆.rbx
    (behind 0x2000 _ (by omega) fill₆.rcx) rfl (by omega)
  obtain ⟨t₈, e₈, fill₈⟩ := fill₇.put (d := 0) (k := 1536) fits (page fill₇)
    (behind 0x3000 _ (by omega) fill₇.rbx) rfl (by omega)
  rw [← bootEntry_eq] at fill₈
  refine ⟨t₈, fill₈, ?_⟩
  have last : [.pop (.reg .rdx), .pop (.reg .rcx), .pop (.reg .rbx),
      .mov .full (.reg .rbp) (.reg .rsp), .pop (.reg .rbp)] = @leave 32 [.rdx, .rcx, .rbx] := rfl
  change runAll _ (runAll (putEntry _ (.at (BitVec.ofNat 32 0) _)) (runAll (putEntry _
    (.at (BitVec.ofNat 32 8) _)) (runAll _ (runAll (putEntry _ (.at (BitVec.ofNat 32 4080) _))
      (runAll (putEntry _ (.at (BitVec.ofNat 32 0) _)) (runAll (putEntry _
        (.at (BitVec.ofNat 32 4088) _)) (runAll (putEntry _ (.at (BitVec.ofNat 32 4080) _))
          (runAll (putEntry _ (.at (BitVec.ofNat 32 0) _)) t₀)))))))) = _
  rw [e₁, e₂, e₃, e₄, e₅, e₆, e₇, e₈, last]

/-- The tables are filled, and the registers are back. -/
theorem after_tables (h : InSetup im s₀ back mb loc s) (entry : PagingEntry im s₀ back mb size) :
    (im.code.after .tables s).regs .rax = im.pagingTempTables ∧
      (im.code.after .tables s).rsp = s₀.rsp ∧
      (∀ r ∈ [Reg.rbx, .rcx, .rdx, .rbp], (im.code.after .tables s).regs r = s₀.regs r) ∧
      Slots (im.code.after .tables s).mem im.pagingTempTables.toNat
        (bootEntry im.pagingTempTables (s.regs .rdx)) ∧
      ∀ a, Apart (a, 1) (im.pagingTempTables.toNat, 0x4000) →
        (im.code.after .tables s).mem a = s.mem a := by
  have room := entry.room
  have apart := entry.apart
  simp only [List.pairwise_cons, List.mem_cons, forall_eq_or_imp, Apart] at apart
  obtain ⟨t, fill, ended⟩ := filled h entry
  have base : t.rsp.toNat = s₀.rsp.toNat - 20 := by
    rw [← h.rsp_toNat entry, ← fill.others .rsp (by simp)]
    rfl
  -- the frame is not in the tables
  have frame : Holds t.mem t.rsp.toNat (words (setupFrame s₀ back mb loc)) := by
    rw [base]
    refine h.frame.congr fun a low high => fill.same a ?_
    have length : (words (setupFrame s₀ back mb loc)).length = 28 := by simp [setupFrame]
    rw [length] at high
    simp only [Apart]
    omega
  have split : setupFrame s₀ back mb loc = [Reg.rdx, .rcx, .rbx].map s₀.regs ++
    [loc, s₀.regs .rbp, back, mb] := rfl
  rw [split, words_append, holds_append] at frame
  have pointer : t.regs .rbp = s₀.rsp - 4 := (fill.others .rbp (by simp)).trans h.rbp
  have above : (s₀.rsp - 4).toNat = s₀.rsp.toNat - 4 := toNat_sub_ofNat (n := 4) (by omega)
  -- `ebp` is on the stack behind the size
  have saved : Holds t.mem (t.regs .rbp).toNat (words [s₀.regs .rbp]) := by
    have word := frame.2
    rw [words_cons, holds_append, words_cons, holds_append] at word
    have place : (t.regs .rbp).toNat = t.rsp.toNat +
        (words (List.map s₀.regs [.rdx, .rcx, .rbx])).length + (encode (32 / 8) loc.toNat).length := by
      rw [pointer, above, base]
      simp
      omega
    rw [words_cons, words_nil, List.append_nil, place]
    exact word.2.1
  obtain ⟨mem, regs⟩ := runAll_leave (by omega) (by simp) (by simp) frame.1
    (by rw [base]; simp; omega) saved
  have up : s₀.rsp - 4 + BitVec.ofNat 32 (32 / 8) = s₀.rsp := BitVec.sub_add_cancel _ _
  rw [pointer, up] at regs
  rw [ended, mem]
  refine ⟨?_, ?_, fun r member => ?_, fill.slots, fill.same⟩
  · rw [regs, restored, if_neg (by simp), if_neg (by simp)]
    exact fill.rax
  · rw [Machine.rsp, regs]
    exact if_pos rfl
  · simp only [List.mem_cons, List.not_mem_nil, or_false] at member
    rw [regs, restored]
    rcases member with rfl | rfl | rfl | rfl <;> simp

end

/-! ## The whole function -/

/-- What is left behind: the tables with the page of the information, its address and its offset in
    the page. -/
structure PagingDone (im : PagingImage) (s₀ : Machine 32) (mb : BitVec 32) (s : Machine 32) : Prop where
  rax : s.regs .rax = im.pagingTempTables
  rsp : s.rsp = s₀.rsp
  kept : ∀ r ∈ [Reg.rbx, .rcx, .rdx, .rbp], s.regs r = s₀.regs r
  slots : Slots s.mem im.pagingTempTables.toNat
    (bootEntry im.pagingTempTables (BitVec.ofNat 32 (mb.toNat / 4096 * 4096)))
  addr : Holds s.mem im.pagingMbDataAddr.toNat (encode 4 mb.toNat)
  offset : Holds s.mem im.pagingMbDataOffset.toNat (encode 4 (mb.toNat % 4096))
  same : ∀ a, Apart (a, 1) (im.pagingTempTables.toNat, 0x4000) →
    Apart (a, 1) (s₀.rsp.toNat - 20, 20) → Apart (a, 1) (im.pagingMbDataAddr.toNat, 4) →
      Apart (a, 1) (im.pagingMbDataOffset.toNat, 4) → s.mem a = s₀.mem a

section

variable {im : PagingImage} {s : Machine 32} {back mb size : BitVec 32}

/-- The kernel has to end in the first 2 MiB and the information in its first page. The sum that is
    checked has 32 bits. -/
theorem paging_setup (entry : PagingEntry im s back mb size) :
    ∃ out, im.code.Ends .setup s out ∧
      (2 * 1024 * 1024 < im.kernelEnd.toNat →
        out.1 = .kernelLarge ∧ out.2.top = im.errPagingKernelLarge) ∧
      (im.kernelEnd.toNat ≤ 2 * 1024 * 1024 →
        4096 < (size + BitVec.ofNat 32 (mb.toNat % 4096)).toNat →
          out.1 = .mbLarge ∧ out.2.top = im.errPagingMbDataLarge) ∧
      (im.kernelEnd.toNat ≤ 2 * 1024 * 1024 →
        (size + BitVec.ofNat 32 (mb.toNat % 4096)).toNat ≤ 4096 →
          out.1 = .tables ∧ PagingDone im s mb out.2) := by
  have room := entry.room
  have apart := entry.apart
  simp only [List.pairwise_cons, List.mem_cons, forall_eq_or_imp, Apart] at apart
  have pushed : ∀ (t : Machine 32) v, (t.push v).top = v := fun t v =>
    ofNat_read_of_holds (by omega) holds_store
  obtain ⟨loc, inSetup, large⟩ := after_setup entry
  by_cases kernel : 2 * 1024 * 1024 < im.kernelEnd.toNat
  · exact ⟨_, .taken rfl (large.mpr kernel) (.stop rfl), fun _ => ⟨rfl, pushed ..⟩,
      fun small => absurd kernel (by omega), fun small => absurd kernel (by omega)⟩
  obtain ⟨inInfo, rbx, addr⟩ := after_info inSetup entry
  generalize info : im.code.after .info (im.code.after .setup s) = t at *
  obtain ⟨u, inAlign, kept, page, aligned⟩ := ends_align inInfo entry
  rw [rbx] at page inAlign
  obtain ⟨inAligned, kept', offset, rdx, tooLarge⟩ := after_aligned inAlign entry
  -- up to the check of the information
  have before : ∀ {out}, im.code.Ends .aligned u out → im.code.Ends .setup s out := fun ends =>
    .untaken rfl (mt large.mp kernel) (.jmp rfl (by rw [info]; exact aligned _ ends))
  by_cases big : 4096 < (size + BitVec.ofNat 32 (mb.toNat % 4096)).toNat
  · exact ⟨_, before (.taken rfl (tooLarge.mpr big) (.stop rfl)), fun large => absurd large kernel,
      fun _ _ => ⟨rfl, pushed ..⟩, fun _ small => absurd big (by omega)⟩
  refine ⟨_, before (.untaken rfl (mt tooLarge.mp big) (.ret rfl)), fun large => absurd large kernel,
    fun _ large => absurd large big, fun _ _ => ⟨rfl, ?_⟩⟩
  obtain ⟨rax, rsp, regs, slots, same⟩ := after_tables inAligned entry
  have at_page : u.regs .rbx = BitVec.ofNat 32 (mb.toNat / 4096 * 4096) := by
    apply BitVec.eq_of_toNat_eq
    rw [page, BitVec.toNat_ofNat, Nat.mod_eq_of_lt (by omega)]
  have grown : size + BitVec.ofNat 32 (mb.toNat % 4096) - size = BitVec.ofNat 32 (mb.toNat % 4096) := by
    rw [BitVec.add_comm, BitVec.add_sub_cancel]
  have less : (BitVec.ofNat 32 (mb.toNat % 4096)).toNat = mb.toNat % 4096 := by
    rw [BitVec.toNat_ofNat, Nat.mod_eq_of_lt (by omega)]
  rw [rdx, at_page] at slots
  rw [grown, less] at offset
  refine ⟨rax, rsp, regs, slots, ?_, ?_, fun a tables stack var var' => ?_⟩
  · refine addr.congr fun a low high => ?_
    rw [length_encode] at high
    rw [same a (by simp only [Apart]; omega), kept' a (by simp only [Apart]; omega),
      kept a (by simp only [Apart]; omega)]
  · refine offset.congr fun a low high => same a ?_
    rw [length_encode] at high
    simp only [Apart]
    omega
  · rw [same a tables]
    exact inAligned.same a stack var var'

end

end Sdx.Boot
