import Sdx.Lib.AsmStack
import Sdx.Syscall.ExecArgs

/-! # From `sys_exec` to `main` (`slibc/crt0.S`)

`_start` pops the two pointers that `sys_exec` has pushed last, counts the arguments up to the
`NULL` behind them and calls `main`; what that returns is the status the program exits with.
-/

namespace Sdx.Syscall

open Sdx.Lib Sdx.Lib.Asm Sdx.Lib.Bytes Sdx.Sched

/-! ## `crt0.S` -/

inductive StartLabel where
  /-- `_start`. -/
  | start
  /-- `.Lstart_argc_loop`. -/
  | argcLoop
  /-- Behind the loop. -/
  | counted
  /-- Behind `call _slibc_start`. -/
  | started
  /-- Behind `call main`. -/
  | returned
  /-- Behind `call _slibc_end`, up to `syscall`. -/
  | ended

/-- The functions `_start` calls. -/
structure StartImage where
  slibcStart : BitVec 64
  main : BitVec 64
  slibcEnd : BitVec 64
  outside : BitVec 64 → Machine 64 → Machine 64

namespace StartImage

def block (im : StartImage) : StartLabel → Block 64 StartLabel
  | .start =>
      ⟨[.pop (.reg .rsi),
        .pop (.reg .rdx),
        .alu .xor .full (.reg .rdi) (.reg .rdi),
        .mov .full (.reg .rsi) (.reg .rbx)],
       .jmp .argcLoop⟩
  | .argcLoop =>
      ⟨[.mov .full (.at 0 .rbx) (.reg .rax),
        .alu .add .full (.imm 8) (.reg .rbx),
        .inc .full (.reg .rdi),
        .test .full (.reg .rax) (.reg .rax)],
       .jcc .ne .argcLoop .counted⟩
  | .counted => ⟨[.dec .full (.reg .rdi)], .foreign (.imm im.slibcStart) .started⟩
  | .started => ⟨[], .foreign (.imm im.main) .returned⟩
  | .returned => ⟨[.mov .full (.reg .rax) (.reg .rdi)], .foreign (.imm im.slibcEnd) .ended⟩
  | .ended =>
      ⟨[.alu .xor .full (.reg .rax) (.reg .rax)],
       -- syscall
       .stop⟩

def code (im : StartImage) : Code 64 StartLabel := ⟨im.block, fun _ => 0, im.outside⟩

end StartImage

/-! ## Counting the arguments -/

section

variable (im : StartImage) {s u : Machine 64} {k n argv envp : Nat}

end

/-! ## `_start` -/

section

variable (im : StartImage) {u : Machine 64} {n : Nat} {argv envp : BitVec 64}

end

/-! ## The arguments that `main` finds -/

/-- A vector of pointers to the strings of a list, where the strings whose size is a multiple of 8
    are what the pointers are to. -/
structure ArgVector (m : Memory) (p : Nat) (list : List CString) : Prop where
  pointers : ∀ i, i < list.length → Bytes.read m (p + 8 * i) 8 = stringAt p list i
  ends : Bytes.read m (p + 8 * list.length) 8 = 0
  strings : ∀ i, (h : i < list.length) → 8 ∣ list[i].size →
    Holds m (stringAt p list i) list[i].bytes

namespace ArgVector

variable {m m' : Memory} {p : Nat} {list : List CString}

/-- What is written below the strings does not matter to the vector. -/
theorem later (vector : ArgVector m p list) (room : stringsRoom list ≤ p)
    (same : ∀ x, p - stringsRoom list ≤ x → m' x = m x) : ArgVector m' p list := by
  have words : ∀ i, Bytes.read m' (p + 8 * i) 8 = Bytes.read m (p + 8 * i) 8 :=
    fun i => read_congr fun x low _ => same x (by omega)
  refine ⟨fun i h => (words i).trans (vector.pointers i h), (words _).trans vector.ends,
    fun i h whole => (vector.strings i h whole).congr fun x low _ => same x ?_⟩
  have bounds := (stringAt_bounds room h).1
  omega

end ArgVector

end Sdx.Syscall
