import Mathlib.Logic.Function.Basic
import Sdx.Lib.Bytes
import Sdx.Lib.Fuel

/-! # Assembly routines

A machine has general registers of `w` bits, a memory of bytes and the two flags that the jumps
here test. A routine is a table of blocks: instructions without jumps, and how the block is left.
A call pushes the address of the block behind it, and the routine that was called comes back only
with that address on the stack. What a function outside of the table does is a parameter.
-/

namespace Sdx.Lib.Asm

open Bytes

/-! ## Machines -/

inductive Reg where
  | rax | rbx | rcx | rdx | rbp | rsi | rdi | rsp
  | r8 | r9 | r10 | r11 | r12 | r13 | r14 | r15
  deriving DecidableEq

structure Machine (w : Nat) where
  regs : Reg → BitVec w
  mem : Memory
  zf : Bool
  cf : Bool

/-- How much of its operands an instruction works on. -/
inductive Size where
  | byte
  | word
  | full
  deriving DecidableEq

namespace Size

def bits (w : Nat) : Size → Nat
  | byte => 8
  | word => 16
  | full => w

/-- The bits of a value that an instruction of the size sees. -/
def trunc {w : Nat} : Size → BitVec w → BitVec w
  | full, v => v
  | size, v => v &&& BitVec.ofNat w (2 ^ size.bits w - 1)

/-- A register where an instruction of the size has put a value. -/
def merge {w : Nat} : Size → BitVec w → BitVec w → BitVec w
  | full, _, v => v
  | size, old, v => old &&& ~~~BitVec.ofNat w (2 ^ size.bits w - 1) ||| size.trunc v

variable {w : Nat} {size : Size} {v : BitVec w}

@[simp] theorem bits_byte : byte.bits w = 8 := rfl

@[simp] theorem bits_word : word.bits w = 16 := rfl

@[simp] theorem bits_full : full.bits w = w := rfl

@[simp] theorem trunc_full : full.trunc v = v := rfl

@[simp] theorem merge_full {old : BitVec w} : full.merge old v = v := rfl

theorem toNat_trunc (fits : size.bits w ≤ w) : (size.trunc v).toNat = v.toNat % 2 ^ size.bits w := by
  have lt := v.isLt
  have masked : ∀ k, k ≤ w → (v &&& BitVec.ofNat w (2 ^ k - 1)).toNat = v.toNat % 2 ^ k := by
    intro k le
    have small : 2 ^ k - 1 < 2 ^ w := by
      have := Nat.pow_le_pow_right (show 0 < 2 by omega) le
      have := Nat.two_pow_pos k
      omega
    rw [BitVec.toNat_and, BitVec.toNat_ofNat, Nat.mod_eq_of_lt small, Nat.and_two_pow_sub_one_eq_mod]
  cases size with
  | full => exact (Nat.mod_eq_of_lt lt).symm
  | byte => exact masked 8 fits
  | word => exact masked 16 fits

theorem trunc_of_lt (fits : size.bits w ≤ w) (lt : v.toNat < 2 ^ size.bits w) : size.trunc v = v := by
  apply BitVec.eq_of_toNat_eq
  rw [toNat_trunc fits, Nat.mod_eq_of_lt lt]

theorem trunc_byte {c : UInt8} (fits : 8 ≤ w) :
    byte.trunc (BitVec.ofNat w c.toNat) = BitVec.ofNat w c.toNat := by
  have lt := c.toNat_lt
  refine trunc_of_lt fits (Nat.lt_of_le_of_lt ?_ lt)
  rw [BitVec.toNat_ofNat]
  exact Nat.mod_le ..

theorem ofNat_byte_inj {c d : UInt8} (fits : 8 ≤ w) :
    BitVec.ofNat w c.toNat = BitVec.ofNat w d.toNat ↔ c = d := by
  have wide := Nat.pow_le_pow_right (show 0 < 2 by omega) fits
  have small : ∀ b : UInt8, b.toNat % 2 ^ w = b.toNat := fun b =>
    Nat.mod_eq_of_lt (Nat.lt_of_lt_of_le b.toNat_lt wide)
  rw [← BitVec.toNat_inj, BitVec.toNat_ofNat, BitVec.toNat_ofNat, small, small, UInt8.toNat_inj]

@[simp] theorem merge_zero : size.merge 0#w v = size.trunc v := by
  cases size with
  | full => rfl
  | byte | word => simp [merge]

end Size

/-- `disp(base, index, 1)`. -/
structure Addr (w : Nat) where
  disp : BitVec w
  base : Option Reg
  index : Option Reg

inductive Operand (w : Nat) where
  | imm (v : BitVec w)
  | reg (r : Reg)
  /-- The second byte of a register. -/
  | high (r : Reg)
  | mem (a : Addr w)

/-- `disp(r)`. -/
@[simp] def Operand.at {w : Nat} (disp : BitVec w) (r : Reg) : Operand w := .mem ⟨disp, some r, none⟩

/-- `disp`. -/
@[simp] def Operand.abs {w : Nat} (disp : BitVec w) : Operand w := .mem ⟨disp, none, none⟩

namespace Machine

variable {w : Nat}

def rsp (s : Machine w) : BitVec w := s.regs .rsp

def set (s : Machine w) (r : Reg) (v : BitVec w) : Machine w :=
  { s with regs := Function.update s.regs r v }

@[simp] theorem set_self {s : Machine w} {r : Reg} {v : BitVec w} : (s.set r v).regs r = v :=
  Function.update_self ..

@[simp] theorem set_of_ne {s : Machine w} {r r' : Reg} {v : BitVec w} (off : r' ≠ r) :
    (s.set r v).regs r' = s.regs r' :=
  Function.update_of_ne off ..

@[simp] theorem set_mem {s : Machine w} {r : Reg} {v : BitVec w} : (s.set r v).mem = s.mem := rfl

def addr (s : Machine w) (a : Addr w) : BitVec w :=
  a.disp + a.base.elim 0 s.regs + a.index.elim 0 s.regs

@[simp] theorem addr_abs {s : Machine w} {d : BitVec w} : s.addr ⟨d, none, none⟩ = d := by
  simp [addr]

@[simp] theorem addr_at {s : Machine w} {d : BitVec w} {r : Reg} :
    s.addr ⟨d, some r, none⟩ = d + s.regs r := by
  simp [addr]

@[simp] theorem addr_index {s : Machine w} {d : BitVec w} {r r' : Reg} :
    s.addr ⟨d, some r, some r'⟩ = d + s.regs r + s.regs r' := by
  simp [addr]

/-- The `n` bytes at an address. -/
def load (s : Machine w) (a : BitVec w) (n : Nat) : BitVec w := BitVec.ofNat w (Bytes.read s.mem a.toNat n)

def store (s : Machine w) (a : BitVec w) (n : Nat) (v : BitVec w) : Machine w :=
  { s with mem := Bytes.store s.mem a.toNat (encode n v.toNat) }

@[simp] def read (s : Machine w) (size : Size) : Operand w → BitVec w
  | .imm v => size.trunc v
  | .reg r => size.trunc (s.regs r)
  | .high r => size.trunc (s.regs r >>> 8)
  | .mem a => s.load (s.addr a) (size.bits w / 8)

@[simp] def write (s : Machine w) (size : Size) (v : BitVec w) : Operand w → Machine w
  | .imm _ => s
  | .reg r => s.set r (size.merge (s.regs r) v)
  | .high r => s.set r (s.regs r &&& ~~~BitVec.ofNat w 0xff00 ||| size.trunc v <<< 8)
  | .mem a => s.store (s.addr a) (size.bits w / 8) v

def push (s : Machine w) (v : BitVec w) : Machine w :=
  let s := s.set .rsp (s.rsp - BitVec.ofNat w (w / 8))
  s.store s.rsp (w / 8) v

/-- What is on top of the stack. -/
def top (s : Machine w) : BitVec w := s.load s.rsp (w / 8)

def drop (s : Machine w) : Machine w := s.set .rsp (s.rsp + BitVec.ofNat w (w / 8))

@[simp] theorem store_mem {s : Machine w} {a v : BitVec w} {n : Nat} :
    (s.store a n v).mem = Bytes.store s.mem a.toNat (encode n v.toNat) := rfl

@[simp] theorem store_regs {s : Machine w} {a v : BitVec w} {n : Nat} :
    (s.store a n v).regs = s.regs := rfl

theorem load_congr {s s' : Machine w} {a : BitVec w} {n : Nat} (mem : s'.mem = s.mem) :
    s'.load a n = s.load a n := by
  rw [load, load, mem]

@[simp] theorem load_one {s : Machine w} {a : BitVec w} :
    s.load a 1 = BitVec.ofNat w (s.mem a.toNat).toNat := by
  simp [load, Bytes.read, decode]

/-- Memory is as it was, and so are the registers but `changed`. -/
structure Keeps (changed : List Reg) (s s' : Machine w) : Prop where
  mem : s'.mem = s.mem
  regs : ∀ r, r ∉ changed → s'.regs r = s.regs r

theorem Keeps.trans {changed : List Reg} {s s' s'' : Machine w} (h : Keeps changed s s')
    (h' : Keeps changed s' s'') : Keeps changed s s'' :=
  ⟨h'.mem.trans h.mem, fun r off => (h'.regs r off).trans (h.regs r off)⟩

end Machine

/-! ## Instructions -/

inductive Alu where
  | add | sub | and | or | xor

@[simp] def Alu.eval {w : Nat} : Alu → BitVec w → BitVec w → BitVec w
  | add, x, y => x + y
  | sub, x, y => x - y
  | and, x, y => x &&& y
  | or, x, y => x ||| y
  | xor, x, y => x ^^^ y

/-- The carry of an operation on so many bits. -/
def Alu.carry {w : Nat} : Alu → Nat → BitVec w → BitVec w → Bool
  | add, bits, x, y => 2 ^ bits ≤ x.toNat + y.toNat
  | sub, _, x, y => x < y
  | _, _, _, _ => false

/-- The operands are in the order of the source: what is read first, what is written last. -/
inductive Instr (w : Nat) where
  | mov (size : Size) (src dst : Operand w)
  | push (src : Operand w)
  | pop (dst : Operand w)
  | alu (op : Alu) (size : Size) (src dst : Operand w)
  | inc (size : Size) (dst : Operand w)
  | dec (size : Size) (dst : Operand w)
  | cmp (size : Size) (src dst : Operand w)
  | test (size : Size) (src dst : Operand w)
  | cmove (src dst : Operand w)
  | div (src : Operand w)
  /-- An instruction that asks or tells the processor something. -/
  | other (effect : Machine w → Machine w)

@[simp] def Instr.run {w : Nat} : Instr w → Machine w → Machine w
  | mov size src dst, s => s.write size (s.read size src) dst
  | push src, s => s.push (s.read .full src)
  | pop dst, s => s.drop.write .full s.top dst
  | alu op size src dst, s =>
      let x := s.read size dst
      let y := s.read size src
      let v := size.trunc (op.eval x y)
      { s.write size v dst with zf := v == 0, cf := op.carry (size.bits w) x y }
  | inc size dst, s =>
      let v := size.trunc (s.read size dst + 1)
      { s.write size v dst with zf := v == 0 }
  | dec size dst, s =>
      let v := size.trunc (s.read size dst - 1)
      { s.write size v dst with zf := v == 0 }
  | cmp size src dst, s =>
      { s with zf := s.read size dst == s.read size src, cf := s.read size dst < s.read size src }
  | test size src dst, s => { s with zf := s.read size dst &&& s.read size src == 0, cf := false }
  | cmove src dst, s => if s.zf then s.write .full (s.read .full src) dst else s
  | div src, s =>
      let n := (s.regs .rdx).toNat * 2 ^ w + (s.regs .rax).toNat
      let d := (s.read .full src).toNat
      (s.set .rax (BitVec.ofNat w (n / d))).set .rdx (BitVec.ofNat w (n % d))
  | other effect, s => effect s

/-- Instructions one after the other. -/
def runAll {w : Nat} (body : List (Instr w)) (s : Machine w) : Machine w :=
  body.foldl (fun s i => i.run s) s

theorem runAll_cons {w : Nat} {i : Instr w} {body : List (Instr w)} {s : Machine w} :
    runAll (i :: body) s = runAll body (i.run s) := rfl

/-! ## Routines -/

inductive Cond where
  | e | ne | a | b

def Cond.holds {w : Nat} (c : Cond) (s : Machine w) : Prop :=
  match c with
  | e => s.zf = true
  | ne => s.zf = false
  | a => s.cf = false ∧ s.zf = false
  | b => s.cf = true

instance {w : Nat} (c : Cond) (s : Machine w) : Decidable (c.holds s) := by
  unfold Cond.holds
  cases c <;> infer_instance

/-- How a block is left. -/
inductive Exit (w : Nat) (ι : Type) where
  | jmp (target : ι)
  | jcc (c : Cond) (target next : ι)
  | call (target next : ι)
  /-- The call of a function that is not in the table. -/
  | foreign (fn : Operand w) (next : ι)
  | ret
  /-- An instruction behind which something else runs. -/
  | stop

structure Block (w : Nat) (ι : Type) where
  body : List (Instr w)
  exit : Exit w ι

/-- A table of blocks, where the blocks behind calls are, and the functions outside. -/
structure Code (w : Nat) (ι : Type) where
  block : ι → Block w ι
  address : ι → BitVec w
  foreign : BitVec w → Machine w → Machine w

variable {w : Nat} {ι : Type}

namespace Code

/-- The block that a run ends in, and the state before its last instruction. -/
def exec (code : Code w ι) : Nat → ι → Machine w → Option (ι × Machine w)
  | 0, _, _ => none
  | fuel + 1, l, s =>
      let s := runAll (code.block l).body s
      match (code.block l).exit with
      | .jmp target => code.exec fuel target s
      | .jcc c target next =>
          if c.holds s then code.exec fuel target s else code.exec fuel next s
      | .call target next => do
          let (l', s) ← code.exec fuel target (s.push (code.address next))
          match (code.block l').exit with
          | .ret => if s.top = code.address next then code.exec fuel next s.drop else none
          | _ => some (l', s)
      | .foreign fn next => code.exec fuel next (code.foreign (s.read .full fn) s)
      | .ret => some (l, s)
      | .stop => some (l, s)

/-- From `l` the run ends in `out`. -/
def Ends (code : Code w ι) (l : ι) (s : Machine w) (out : ι × Machine w) : Prop :=
  Returns (fun fuel => code.exec fuel l s) out

section

variable {code : Code w ι} {l target next : ι} {s : Machine w} {out : ι × Machine w} {c : Cond}
  {fn : Operand w}

/-- The state at the end of a block. -/
def after (code : Code w ι) (l : ι) (s : Machine w) : Machine w := runAll (code.block l).body s

/-- One block, and what its last instruction goes on with. -/
theorem exec_succ (fuel : Nat) (l : ι) (s : Machine w) : code.exec (fuel + 1) l s =
    match (code.block l).exit with
    | .jmp target => code.exec fuel target (code.after l s)
    | .jcc c target next =>
        if c.holds (code.after l s) then code.exec fuel target (code.after l s)
        else code.exec fuel next (code.after l s)
    | .call target next => do
        let (l', s) ← code.exec fuel target ((code.after l s).push (code.address next))
        match (code.block l').exit with
        | .ret => if s.top = code.address next then code.exec fuel next s.drop else none
        | _ => some (l', s)
    | .foreign fn next =>
        code.exec fuel next (code.foreign ((code.after l s).read .full fn) (code.after l s))
    | .ret => some (l, code.after l s)
    | .stop => some (l, code.after l s) := rfl

namespace Ends

theorem ret (exit : (code.block l).exit = .ret) : code.Ends l s (l, code.after l s) := by
  refine Returns.step (fun fuel => ?_) (Returns.const _)
  rw [exec_succ, exit]

theorem stop (exit : (code.block l).exit = .stop) : code.Ends l s (l, code.after l s) := by
  refine Returns.step (fun fuel => ?_) (Returns.const _)
  rw [exec_succ, exit]

theorem jmp (exit : (code.block l).exit = .jmp target)
    (rest : code.Ends target (code.after l s) out) : code.Ends l s out := by
  refine Returns.step (fun fuel => ?_) rest
  rw [exec_succ, exit]

theorem taken (exit : (code.block l).exit = .jcc c target next) (holds : c.holds (code.after l s))
    (rest : code.Ends target (code.after l s) out) : code.Ends l s out := by
  refine Returns.step (fun fuel => ?_) rest
  rw [exec_succ, exit]
  exact if_pos holds

theorem untaken (exit : (code.block l).exit = .jcc c target next)
    (fails : ¬ c.holds (code.after l s)) (rest : code.Ends next (code.after l s) out) :
    code.Ends l s out := by
  refine Returns.step (fun fuel => ?_) rest
  rw [exec_succ, exit]
  exact if_neg fails

theorem foreign (exit : (code.block l).exit = .foreign fn next)
    (rest : code.Ends next
      (code.foreign ((code.after l s).read .full fn) (code.after l s)) out) :
    code.Ends l s out := by
  refine Returns.step (fun fuel => ?_) rest
  rw [exec_succ, exit]

end Ends

end

end Code

end Sdx.Lib.Asm
