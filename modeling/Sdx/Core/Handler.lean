import Sdx.Lib.AsmStack
import Sdx.Sched.Switch

/-! # The interrupt entry (`core/im/handler.S`)

Every vector has a wrapper that leaves the same words on the interrupt stack: the interrupted
registers, the vector, an error code, which is made up for the vectors that come without one, and
what the processor pushed. `im_handle` takes their address for an `im_stack_t`, and whatever it
leaves there is what `iretq` goes on with.
-/

namespace Sdx.Core

open Sdx.Lib Sdx.Lib.Asm Sdx.Lib.Bytes Sdx.Sched

/-! ## `util/stack.S` -/

/-- The registers of `push_all`, in its order. -/
def pushAll : List Reg :=
  [.rax, .rbx, .rcx, .rdx, .rbp, .rsi, .rdi, .r8, .r9, .r10, .r11, .r12, .r13, .r14, .r15]

/-- The registers of `pop_all`, in its order. -/
def popAll : List Reg :=
  [.r15, .r14, .r13, .r12, .r11, .r10, .r9, .r8, .rdi, .rsi, .rbp, .rdx, .rcx, .rbx, .rax]

/-- `PUSH_ALL_COUNT`. -/
def pushAllCount : Nat := 16

/-- The registers of `push_all_save_ret`, in its order. -/
def pushAllSaveRet : List Reg :=
  [.rbx, .rcx, .rdx, .rbp, .rsi, .rdi, .r8, .r9, .r10, .r11, .r12, .r13, .r14, .r15]

/-- The registers of `pop_all_save_ret`, in its order. -/
def popAllSaveRet : List Reg :=
  [.r15, .r14, .r13, .r12, .r11, .r10, .r9, .r8, .rdi, .rsi, .rbp, .rdx, .rcx, .rbx]

/-! ## The wrappers -/

inductive HandlerLabel where
  /-- `__im_handle_n`. -/
  | entry (n : UInt8)
  /-- `.Lim_handle_check_err_codes_n`. -/
  | checkErrCodes (n : UInt8)
  /-- Behind the test for the end of the list. -/
  | compare (n : UInt8)
  /-- `.Lim_handle_has_err_n`. -/
  | hasErr (n : UInt8)
  /-- `.Lim_handle_no_err_n`. -/
  | noErr (n : UInt8)
  /-- `__im_handle`. -/
  | handle
  /-- Behind `call im_handle`. -/
  | restore

/-- Where `__int_err_codes` and `im_handle` are, and what `im_handle` does. -/
structure HandlerImage where
  codes : BitVec 64
  imHandle : BitVec 64
  outside : BitVec 64 → Machine 64 → Machine 64

namespace HandlerImage

def block (im : HandlerImage) : HandlerLabel → Block 64 HandlerLabel
  | .entry n =>
      ⟨pushes pushAll ++ [.mov .full (.imm im.codes) (.reg .rbx)], .jmp (.checkErrCodes n)⟩
  | .checkErrCodes n =>
      ⟨[.alu .xor .full (.reg .rcx) (.reg .rcx),
        .mov .byte (.at 0 .rbx) (.reg .rcx),
        .inc .full (.reg .rbx),
        .test .byte (.reg .rcx) (.reg .rcx)],
       .jcc .e (.noErr n) (.compare n)⟩
  | .compare n =>
      ⟨[.cmp .byte (.imm (BitVec.ofNat 64 n.toNat)) (.reg .rcx)],
       .jcc .ne (.checkErrCodes n) (.hasErr n)⟩
  | .hasErr n =>
      ⟨pops popAll ++ (.push (.imm (BitVec.ofNat 64 n.toNat)) :: pushes pushAll), .jmp .handle⟩
  | .noErr n =>
      ⟨pops popAll ++
        (.push (.imm 0) :: .push (.imm (BitVec.ofNat 64 n.toNat)) :: pushes pushAll),
       .jmp .handle⟩
  | .handle => ⟨[.mov .full (.reg .rsp) (.reg .rdi)], .foreign (.imm im.imHandle) .restore⟩
  | .restore =>
      ⟨pops popAll ++ [.alu .add .full (.imm (BitVec.ofNat 64 pushAllCount)) (.reg .rsp)],
       -- iretq
       .stop⟩

/-- `handler.S`, where no routine is called. -/
def code (im : HandlerImage) : Code 64 HandlerLabel := ⟨im.block, fun _ => 0, im.outside⟩

end HandlerImage

/-! ## Which vectors have an error code -/

section

variable (im : HandlerImage) (n : UInt8)

/-- The state behind the comparison with the vector. -/
theorem after_compare {s : Machine 64} {c : UInt8} (here : s.regs .rcx = BitVec.ofNat 64 c.toNat) :
    let s' := im.code.after (.compare n) s
    s'.mem = s.mem ∧ s'.regs = s.regs ∧ (s'.zf = true ↔ c = n) := by
  have low : ∀ b : UInt8, Size.byte.trunc (BitVec.ofNat 64 b.toNat) = BitVec.ofNat 64 b.toNat :=
    fun b => Size.trunc_byte (by omega)
  have same : BitVec.ofNat 64 c.toNat = BitVec.ofNat 64 n.toNat ↔ c = n :=
    Size.ofNat_byte_inj (by omega)
  simp [Code.after, HandlerImage.code, HandlerImage.block, runAll, here, low, same]

end

/-! ## What the handler gets and what comes back -/

section

variable (im : HandlerImage) {n : UInt8} {s : Machine 64} {error : BitVec 64} {regs : TaskRegs}
  {base : Nat}

end

end Sdx.Core
