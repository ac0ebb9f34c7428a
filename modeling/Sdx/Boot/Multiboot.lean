import Sdx.Lib.AsmStack

/-! # The multiboot information (`boot/multiboot.S`, `boot/multiboot.c`)

The information is a list of tags. The loader looks for a tag before paging is on, in 32-bit code
and by physical addresses, and the kernel does it again in C, by the addresses of the map. Both look
at the memory that the boot loader has left, which says itself where the next tag is.
-/

namespace Sdx.Boot

open Sdx.Lib Sdx.Lib.Asm Sdx.Lib.Bytes

/-! ## Tags -/

/-- `struct multiboot_tag`. -/
structure MultibootTag where
  type : BitVec 32
  size : BitVec 32

/-- `MULTIBOOT_TAG_TYPE_END`. -/
def multibootTagTypeEnd : BitVec 32 := 0

/-- How far it is to the next tag, which begins on 8 bytes. -/
def MultibootTag.space (tag : MultibootTag) : Nat := (tag.size.toNat + 7) / 8 * 8

/-- Tags one behind the other, and the one of the end behind them. -/
def TagsAt (m : Memory) : Nat → List MultibootTag → Prop
  | a, [] => Holds m a (words [multibootTagTypeEnd])
  | a, tag :: tags => tag.type ≠ multibootTagTypeEnd ∧ Holds m a (words [tag.type, tag.size]) ∧
      TagsAt m (a + tag.space) tags

/-- The bytes up to the end of the last tag. -/
def tagsSize : List MultibootTag → Nat
  | [] => 8
  | tag :: tags => tag.space + tagsSize tags

/-- How far it is to the first tag of a type. -/
def firstTag (type : BitVec 32) : List MultibootTag → Option Nat
  | [] => none
  | tag :: tags => if type = tag.type then some 0 else (firstTag type tags).map (tag.space + ·)

/-! ## In C -/

/-- A field of 32 bits. -/
def field32 (m : Memory) (a : BitVec 64) : BitVec 32 := BitVec.ofNat 32 (Bytes.read m a.toNat 4)

/-- The loop of `mb_get` from a tag on. -/
def mbGetLoop (m : Memory) (type : BitVec 32) : Nat → BitVec 64 → Option (Option (BitVec 64))
  | 0, _ => none
  | fuel + 1, tag =>
      if field32 m tag = multibootTagTypeEnd then some none
      else if type = field32 m tag then some (some tag)
      else mbGetLoop m type fuel (tag + ((field32 m (tag + 4) + 7) &&& ~~~7#32).setWidth 64)

/-- `mb_get`, where `mb_data` may be `NULL`. -/
def mbGet (m : Memory) (mbData : Option (BitVec 64)) (type : BitVec 32) (fuel : Nat) :
    Option (Option (BitVec 64)) :=
  match mbData with
  | none => some none
  | some data => mbGetLoop m type fuel (data + 8)

/-! ## In the loader -/

inductive TagLabel where
  /-- `__mb_get_tag`. -/
  | getTag
  /-- `.Lmb_get_tag_find`. -/
  | find
  /-- Behind the test of the end. -/
  | next
  /-- `.Lmb_get_tag_end`. -/
  | done
  deriving DecidableEq

def tagBody : TagLabel → List (Instr 32)
  | .getTag =>
      [.push (.reg .rbp),
       .mov .full (.reg .rsp) (.reg .rbp),
       .push (.reg .rbx),
       .push (.reg .rcx),
       .push (.reg .rsi),
       .push (.reg .rdi),
       .mov .full (.at 8 .rbp) (.reg .rbx),
       .mov .full (.at 12 .rbp) (.reg .rcx),
       .alu .add .full (.imm 8) (.reg .rbx)]
  | .find =>
      [.alu .xor .full (.reg .rax) (.reg .rax),
       .mov .full (.at 0 .rbx) (.reg .rsi),
       .mov .full (.at 4 .rbx) (.reg .rdi),
       .cmp .full (.imm multibootTagTypeEnd) (.reg .rsi)]
  | .next =>
      [.alu .add .full (.imm 7) (.reg .rdi),
       .alu .and .full (.imm (-8)) (.reg .rdi),
       .mov .full (.reg .rbx) (.reg .rax),
       .alu .add .full (.reg .rdi) (.reg .rbx),
       .cmp .full (.reg .rsi) (.reg .rcx)]
  | .done =>
      [.pop (.reg .rdi),
       .pop (.reg .rsi),
       .pop (.reg .rcx),
       .pop (.reg .rbx),
       .mov .full (.reg .rbp) (.reg .rsp),
       .pop (.reg .rbp)]

/-- `__mb_get_tag` in a larger routine, with the labels that its own have there. -/
def tagBlock {ι : Type} (label : TagLabel → ι) (l : TagLabel) : Block 32 ι where
  body := tagBody l
  exit :=
    match l with
    | .getTag => .jmp (label .find)
    | .find => .jcc .e (label .done) (label .next)
    | .next => .jcc .ne (label .find) (label .done)
    | .done => .ret

/-! ## The distance to the next tag -/

theorem toNat_and_eight (x : BitVec 32) : (x &&& ~~~7#32).toNat = x.toNat / 8 * 8 := by
  have lt := x.isLt
  have shifts : x &&& ~~~7#32 = (x >>> 3) <<< 3 := by
    apply BitVec.eq_of_getLsbD_eq
    intro i lt
    have low : (7#32).getLsbD i = decide (i < 3) := Nat.testBit_two_pow_sub_one 3 i
    rw [BitVec.getLsbD_and, BitVec.getLsbD_not, low, BitVec.getLsbD_shiftLeft,
      BitVec.getLsbD_ushiftRight]
    by_cases small : i < 3
    · simp [small]
    · have back : 3 + (i - 3) = i := by omega
      simp [small, lt, back]
  rw [shifts, BitVec.toNat_shiftLeft, BitVec.toNat_ushiftRight, Nat.shiftRight_eq_div_pow,
    Nat.shiftLeft_eq]
  omega

section

variable {n : Nat} {type : BitVec 32} {tag : MultibootTag} {tags : List MultibootTag}

theorem eight_le_tagsSize (tags : List MultibootTag) : 8 ≤ tagsSize tags := by
  induction tags with
  | nil => exact Nat.le_refl 8
  | cons tag tags ih =>
      rw [tagsSize]
      omega

/-- The sum of the code has 32 bits. -/
theorem toNat_space (fits : tagsSize (tag :: tags) ≤ 2 ^ 32) :
    ((tag.size + 7) &&& ~~~7#32).toNat = tag.space := by
  have lt := tag.size.isLt
  have behind := eight_le_tagsSize tags
  rw [tagsSize, MultibootTag.space] at fits
  have seven : (7 : BitVec 32).toNat = 7 := rfl
  rw [toNat_and_eight, BitVec.toNat_add, MultibootTag.space, seven, Nat.mod_eq_of_lt (by omega)]

theorem firstTag_inside (found : firstTag type tags = some n) : n + 8 ≤ tagsSize tags := by
  induction tags generalizing n with
  | nil => cases found
  | cons tag tags ih =>
      have behind := eight_le_tagsSize tags
      rw [firstTag] at found
      rw [tagsSize]
      split at found
      · cases found
        omega
      · obtain ⟨k, rest, rfl⟩ := Option.map_eq_some_iff.mp found
        have inside := ih rest
        omega

end

/-! ## The kernel's search -/

section

variable {m : Memory} {type : BitVec 32} {tags : List MultibootTag} {v : BitVec 64} {w : BitVec 32}

theorem field32_of_holds {a : Nat} (at_ : v.toNat = a) (holds : Holds m a (encode 4 w.toNat)) :
    field32 m v = w := by
  have lt := w.isLt
  rw [field32, at_, read_eq_of_encode holds (by omega)]
  exact BitVec.ofNat_toNat ..

/-- The C code finds the first tag of the type. -/
theorem mbGetLoop_returns (at_ : TagsAt m v.toNat tags) (fits : v.toNat + tagsSize tags ≤ 2 ^ 64)
    (small : tagsSize tags ≤ 2 ^ 32) :
    Returns (fun fuel => mbGetLoop m type fuel v)
      ((firstTag type tags).map fun n => v + BitVec.ofNat 64 n) := by
  induction tags generalizing v with
  | nil =>
      rw [TagsAt, words_cons, words_nil, List.append_nil] at at_
      have last : field32 m v = multibootTagTypeEnd := field32_of_holds rfl at_
      refine .step (fun fuel => ?_) (.const _)
      rw [mbGetLoop, if_pos last]
      rfl
  | cons tag tags ih =>
      obtain ⟨more, here, rest⟩ := at_
      rw [words_cons, words_cons, words_nil, List.append_nil, holds_append, length_encode] at here
      have behind := eight_le_tagsSize tags
      have space := toNat_space small
      have room : 8 ≤ tag.space ∨ tag.space = 0 := by
        rw [MultibootTag.space]
        omega
      have lt := tag.size.isLt
      rw [tagsSize] at fits small
      have type_eq : field32 m v = tag.type := field32_of_holds rfl here.1
      have size_eq : field32 m (v + 4) = tag.size :=
        field32_of_holds (toNat_add_ofNat (n := 4) (by omega)) here.2
      have next : (v + ((tag.size + 7) &&& ~~~7#32).setWidth 64).toNat = v.toNat + tag.space := by
        rw [BitVec.toNat_add, BitVec.toNat_setWidth, space, Nat.mod_eq_of_lt (by omega : tag.space < _),
          Nat.mod_eq_of_lt (by omega)]
      by_cases same : type = tag.type
      · refine .step (fun fuel => ?_) (.const _)
        rw [mbGetLoop, type_eq, if_neg more, if_pos same, firstTag, if_pos same]
        simp
      · have found := @ih (v + ((tag.size + 7) &&& ~~~7#32).setWidth 64) (by rw [next]; exact rest)
          (by rw [next]; omega) (by omega)
        have sum : ((firstTag type tags).map fun n =>
            v + ((tag.size + 7) &&& ~~~7#32).setWidth 64 + BitVec.ofNat 64 n) =
              (firstTag type (tag :: tags)).map fun n => v + BitVec.ofNat 64 n := by
          rw [firstTag, if_neg same, Option.map_map]
          congr 1
          funext n
          have step : ((tag.size + 7) &&& ~~~7#32).setWidth 64 = BitVec.ofNat 64 tag.space := by
            apply BitVec.eq_of_toNat_eq
            rw [BitVec.toNat_setWidth, space, BitVec.toNat_ofNat]
          rw [step, BitVec.add_assoc, ← BitVec.ofNat_add]
          rfl
        rw [sum] at found
        refine .step (fun fuel => ?_) found
        rw [mbGetLoop, type_eq, size_eq, if_neg more, if_neg same]

end

/-! ## The loader's search -/

/-- The registers that `__mb_get_tag` keeps on the stack. -/
def tagSaved : List Reg := [.rbx, .rcx, .rsi, .rdi]

/-- `__mb_get_tag` was entered from `s₀`, and only registers for its own use have changed since. -/
structure Searching (s₀ : Machine 32) (type : BitVec 32) (s : Machine 32) : Prop where
  rcx : s.regs .rcx = type
  rsp : s.rsp = s₀.rsp - 20
  rbp : s.regs .rbp = s₀.rsp - 4
  others : ∀ r, r ∉ [Reg.rax, .rbx, .rcx, .rsi, .rdi, .rsp, .rbp] → s.regs r = s₀.regs r
  mem : s.mem = (s₀.pushed (s₀.regs .rbp :: tagSaved.map s₀.regs)).mem

section

variable {s₀ s : Machine 32} {back mb type a : BitVec 32} {tags : List MultibootTag}

namespace Searching

/-- Only the four registers of the loop have changed. -/
theorem keep (h : Searching s₀ type s) {s' : Machine 32}
    (keeps : s.Keeps [.rax, .rbx, .rsi, .rdi] s') : Searching s₀ type s' where
  rcx := (keeps.regs _ (by simp)).trans h.rcx
  rsp := (keeps.regs .rsp (by simp)).trans h.rsp
  rbp := (keeps.regs _ (by simp)).trans h.rbp
  others r off := by
    simp only [List.mem_cons, List.not_mem_nil, or_false, not_or] at off
    exact (keeps.regs r (by simp [off])).trans (h.others r (by simp [off]))
  mem := keeps.mem.trans h.mem

/-- Behind the frame memory is as it was. -/
theorem outside (h : Searching s₀ type s) (room : 20 ≤ s₀.rsp.toNat) {x : Nat}
    (out : x < s₀.rsp.toNat - 20 ∨ s₀.rsp.toNat ≤ x) : s.mem x = s₀.mem x := by
  rw [h.mem]
  exact Machine.pushed_outside room out

end Searching

theorem after_getTag (stack : Holds s₀.mem s₀.rsp.toNat (words [back, mb, type]))
    (room : 20 ≤ s₀.rsp.toNat ∧ s₀.rsp.toNat + 12 ≤ 2 ^ 32) :
    Searching s₀ type (runAll (tagBody .getTag) s₀) ∧
      (runAll (tagBody .getTag) s₀).regs .rbx = mb + 8 := by
  obtain ⟨p, p_eq⟩ : ∃ p, s₀.pushed (s₀.regs .rbp :: tagSaved.map s₀.regs) = p := ⟨_, rfl⟩
  have entered := @runAll_enter 32 s₀ tagSaved (by decide) (by decide)
  rw [p_eq] at entered
  have start : runAll (tagBody .getTag) s₀ = runAll
      [.mov .full (.at 8 .rbp) (.reg .rbx), .mov .full (.at 12 .rbp) (.reg .rcx),
        .alu .add .full (.imm 8) (.reg .rbx)] (p.set .rbp (s₀.rsp - 4#32)) := by
    have four : s₀.rsp - 4#32 = s₀.rsp - BitVec.ofNat 32 (32 / 8) := rfl
    rw [four, ← entered, ← runAll_append]
    rfl
  have count : (s₀.regs .rbp :: tagSaved.map s₀.regs).length * (32 / 8) = 20 := rfl
  have mem : ∀ x, s₀.rsp.toNat ≤ x → p.mem x = s₀.mem x := fun x le => by
    rw [← p_eq]
    exact Machine.pushed_outside (by rw [count]; exact room.1) (.inr le)
  have pointer : p.regs .rsp = s₀.rsp - 20 := by
    apply BitVec.eq_of_toNat_eq
    have below : (s₀.rsp - 20).toNat = s₀.rsp.toNat - 20 := toNat_sub_ofNat (n := 20) room.1
    have at_ := @Machine.toNat_pushed_rsp 32 s₀ (s₀.regs .rbp :: tagSaved.map s₀.regs)
      (by rw [count]; exact room.1)
    rw [below, ← p_eq]
    exact at_
  have kept : ∀ r, r ≠ .rsp → p.regs r = s₀.regs r := fun r off => p_eq ▸ Machine.pushed_reg off
  -- the arguments are above the frame
  have holds : Holds p.mem s₀.rsp.toNat (words [back, mb, type]) :=
    stack.congr fun x low _ => mem x low
  rw [words_cons, holds_append, words_cons, holds_append, words_cons, words_nil, List.append_nil,
    length_encode, length_encode] at holds
  have above : (s₀.rsp - 4#32).toNat = s₀.rsp.toNat - 4 := toNat_sub_ofNat (n := 4) (by omega)
  have first : (8#32 + (s₀.rsp - 4#32)).toNat = s₀.rsp.toNat + 4 := by
    rw [BitVec.add_comm, toNat_add_ofNat (n := 8) (by omega), above]
    omega
  have second : (12#32 + (s₀.rsp - 4#32)).toNat = s₀.rsp.toNat + 4 + 4 := by
    rw [BitVec.add_comm, toNat_add_ofNat (n := 12) (by omega), above]
    omega
  have mb_eq : ∀ t : Machine 32, t.mem = p.mem → t.load (8#32 + (s₀.rsp - 4#32)) 4 = mb :=
    fun t mem => ofNat_read_of_holds (by omega) (by rw [mem, first]; exact holds.2.1)
  have type_eq : ∀ t : Machine 32, t.mem = p.mem → t.load (12#32 + (s₀.rsp - 4#32)) 4 = type :=
    fun t mem => ofNat_read_of_holds (by omega) (by rw [mem, second]; exact holds.2.2)
  rw [start]
  refine ⟨⟨?_, ?_, ?_, fun r off => ?_, ?_⟩, ?_⟩
  · simp [runAll, Machine.set, type_eq]
  · simp [runAll, Machine.rsp, pointer]
  · simp [runAll]
  · simp only [List.mem_cons, List.not_mem_nil, or_false, not_or] at off
    simp [runAll, off, kept r off.2.2.2.2.2.1]
  · simp [runAll, p_eq]
  · simp [runAll, Machine.set, mb_eq]

/-- At a tag, or at the end. -/
theorem after_find {word size : BitVec 32} (holds : Holds s.mem a.toNat (words [word, size]))
    (fits : a.toNat + 8 ≤ 2 ^ 32) (rbx : s.regs .rbx = a) :
    s.Keeps [.rax, .rbx, .rsi, .rdi] (runAll (tagBody .find) s) ∧
      (runAll (tagBody .find) s).regs .rax = 0 ∧ (runAll (tagBody .find) s).regs .rbx = a ∧
      (runAll (tagBody .find) s).regs .rsi = word ∧ (runAll (tagBody .find) s).regs .rdi = size ∧
      (Cond.e.holds (runAll (tagBody .find) s) ↔ word = multibootTagTypeEnd) := by
  rw [words_cons, words_cons, words_nil, List.append_nil, holds_append, length_encode] at holds
  have second : (4#32 + a).toNat = a.toNat + 4 := by
    rw [BitVec.add_comm, toNat_add_ofNat (n := 4) (by omega)]
  have word_eq : ∀ t : Machine 32, t.mem = s.mem → t.load a 4 = word := fun t mem =>
    ofNat_read_of_holds (by omega) (mem ▸ holds.1)
  have size_eq : ∀ t : Machine 32, t.mem = s.mem → t.load (4#32 + a) 4 = size := fun t mem =>
    ofNat_read_of_holds (by omega) (by rw [mem, second]; exact holds.2)
  refine ⟨⟨?_, fun r off => ?_⟩, ?_, ?_, ?_, ?_, ?_⟩
  · simp [tagBody, runAll]
  · simp only [List.mem_cons, List.not_mem_nil, or_false, not_or] at off
    simp [tagBody, runAll, off]
  · simp [tagBody, runAll]
  · simp [tagBody, runAll, rbx]
  · simp [tagBody, runAll, rbx, word_eq]
  · simp [tagBody, runAll, Machine.set, rbx, size_eq]
  · simp [tagBody, runAll, rbx, word_eq, Cond.holds]

/-- The next tag is looked at, with the address of this one kept. -/
theorem after_next {word size : BitVec 32} (rbx : s.regs .rbx = a) (rsi : s.regs .rsi = word)
    (rdi : s.regs .rdi = size) :
    s.Keeps [.rax, .rbx, .rsi, .rdi] (runAll (tagBody .next) s) ∧
      (runAll (tagBody .next) s).regs .rax = a ∧
      (runAll (tagBody .next) s).regs .rbx = a + ((size + 7) &&& ~~~7#32) ∧
      (Cond.ne.holds (runAll (tagBody .next) s) ↔ s.regs .rcx ≠ word) := by
  refine ⟨⟨?_, fun r off => ?_⟩, ?_, ?_, ?_⟩
  · simp [tagBody, runAll]
  · simp only [List.mem_cons, List.not_mem_nil, or_false, not_or] at off
    simp [tagBody, runAll, off]
  · simp [tagBody, runAll, rbx]
  · simp [tagBody, runAll, rbx, rdi]
  · simp [tagBody, runAll, rsi, Cond.holds]

/-- The same bytes at another address are the same tags. -/
theorem TagsAt.moved {m m' : Memory} {x y : Nat} (at_ : TagsAt m x tags)
    (same : ∀ k < tagsSize tags, m' (y + k) = m (x + k)) : TagsAt m' y tags := by
  induction tags generalizing x y with
  | nil =>
      refine fun k h => (same k ?_).trans (at_ k h)
      simp only [words_cons, words_nil, List.append_nil, length_encode] at h
      rw [tagsSize]
      omega
  | cons tag tags ih =>
      obtain ⟨more, here, rest⟩ := at_
      have behind := eight_le_tagsSize tags
      rw [tagsSize] at same
      refine ⟨more, fun k h => (same k ?_).trans (here k h), ih rest fun k lt => ?_⟩
      · simp only [words_cons, words_nil, List.append_nil, List.length_append, length_encode] at h
        omega
      · rw [Nat.add_assoc, Nat.add_assoc]
        exact same _ (by omega)

variable {ι : Type} {code : Code 32 ι} {label : TagLabel → ι}

/-- The tags from `rbx` on are looked through. -/
theorem ends_find (linked : ∀ l, code.block (label l) = tagBlock label l) (h : Searching s₀ type s)
    (at_ : TagsAt s.mem (s.regs .rbx).toNat tags)
    (fits : (s.regs .rbx).toNat + tagsSize tags ≤ 2 ^ 32) :
    ∃ s', Searching s₀ type s' ∧
      s'.regs .rax = ((firstTag type tags).map fun n => s.regs .rbx + BitVec.ofNat 32 n).getD 0 ∧
      ∀ out, code.Ends (label .done) s' out → code.Ends (label .find) s out := by
  have after : ∀ l s, code.after (label l) s = runAll (tagBody l) s := fun l s => by
    rw [Code.after, linked]
    rfl
  have exit : ∀ l, (code.block (label l)).exit = (tagBlock label l).exit := fun l => by rw [linked]
  have behind := eight_le_tagsSize tags
  induction tags generalizing s with
  | nil =>
      have words_at : Holds s.mem (s.regs .rbx).toNat (words [multibootTagTypeEnd,
          BitVec.ofNat 32 (Bytes.read s.mem ((s.regs .rbx).toNat + 4) 4)]) := by
        rw [TagsAt, words_cons, words_nil, List.append_nil] at at_
        rw [words_cons, words_cons, words_nil, List.append_nil, holds_append, length_encode]
        have lt : Bytes.read s.mem ((s.regs .rbx).toNat + 4) 4 < 2 ^ 32 := read_lt
        rw [BitVec.toNat_ofNat, Nat.mod_eq_of_lt lt]
        exact ⟨at_, holds_read⟩
      obtain ⟨keeps, rax, -, -, -, last⟩ := after_find words_at (by omega) rfl
      refine ⟨_, h.keep keeps, rax, fun out ends => .taken (exit .find) ?_ ?_⟩
      · rw [after]
        exact last.mpr rfl
      · rw [after]
        exact ends
  | cons tag tags ih =>
      obtain ⟨more, here, rest⟩ := at_
      have space := @toNat_space tag tags (by omega)
      have smaller := eight_le_tagsSize tags
      rw [tagsSize] at fits behind
      obtain ⟨keeps, -, rbx, rsi, rdi, last⟩ := after_find here (by omega) rfl
      obtain ⟨keeps', rax, next, other⟩ := after_next rbx rsi rdi
      have found := (h.keep keeps).keep keeps'
      rw [(h.keep keeps).rcx] at other
      have step : (s.regs .rbx + ((tag.size + 7) &&& ~~~7#32)).toNat = (s.regs .rbx).toNat + tag.space := by
        rw [BitVec.toNat_add, space, Nat.mod_eq_of_lt (by omega)]
      by_cases same : type = tag.type
      · refine ⟨_, found, ?_, fun out ends => .untaken (exit .find) ?_ (.untaken (exit .next) ?_ ?_)⟩
        · rw [rax, firstTag, if_pos same]
          simp
        · rw [after]
          exact mt last.mp more
        · rw [after, after]
          exact fun off => other.mp off same
        · rw [after, after]
          exact ends
      · obtain ⟨s', searched, rax', back⟩ := ih found
          (by rw [next, step, keeps'.mem, keeps.mem]; exact rest) (by rw [next, step]; omega) smaller
        refine ⟨s', searched, ?_, fun out ends =>
          .untaken (exit .find) ?_ (.taken (exit .next) ?_ ?_)⟩
        · have sum : ∀ n, s.regs .rbx + ((tag.size + 7) &&& ~~~7#32) + BitVec.ofNat 32 n =
              s.regs .rbx + BitVec.ofNat 32 (tag.space + n) := by
            intro n
            have whole : (tag.size + 7) &&& ~~~7#32 = BitVec.ofNat 32 tag.space := by
              apply BitVec.eq_of_toNat_eq
              rw [space, BitVec.toNat_ofNat, Nat.mod_eq_of_lt (by omega)]
            rw [whole, BitVec.add_assoc, ← BitVec.ofNat_add]
          rw [rax', next, firstTag, if_neg same, Option.map_map]
          simp only [sum]
          rfl
        · rw [after]
          exact mt last.mp more
        · rw [after, after]
          exact other.mpr same
        · rw [after, after]
          exact back out ends

/-- What `__mb_get_tag` leaves behind. -/
structure TagFound (s₀ : Machine 32) (result : BitVec 32) (s : Machine 32) : Prop where
  rax : s.regs .rax = result
  rsp : s.rsp = s₀.rsp
  others : ∀ r, r ≠ .rax → r ≠ .rsp → s.regs r = s₀.regs r
  same : ∀ x, x < s₀.rsp.toNat - 20 ∨ s₀.rsp.toNat ≤ x → s.mem x = s₀.mem x

theorem after_done (h : Searching s₀ type s) (room : 20 ≤ s₀.rsp.toNat) :
    TagFound s₀ (s.regs .rax) (runAll (tagBody .done) s) := by
  have below : (s₀.rsp - 20).toNat = s₀.rsp.toNat - 20 := toNat_sub_ofNat (n := 20) room
  have above : (s₀.rsp - 4).toNat = s₀.rsp.toNat - 4 := toNat_sub_ofNat (n := 4) (by omega)
  have lt := s₀.rsp.isLt
  have count : (s₀.regs .rbp :: tagSaved.map s₀.regs).length * (32 / 8) = 20 := rfl
  have frame : Holds s.mem (s₀.rsp.toNat - 20) (words (tagSaved.reverse.map s₀.regs ++ [s₀.regs .rbp])) := by
    have pushed := @Machine.holds_pushed 32 s₀ (s₀.regs .rbp :: tagSaved.map s₀.regs)
      (by rw [count]; exact room)
    rw [Machine.toNat_pushed_rsp (by rw [count]; exact room), count] at pushed
    rw [h.mem]
    exact pushed
  rw [words_append, holds_append] at frame
  have length : (words (tagSaved.reverse.map s₀.regs)).length = 16 := rfl
  rw [length] at frame
  have left := @runAll_leave 32 s tagSaved.reverse s₀.regs (by omega) (by decide)
    (by decide) (by rw [h.rsp, below]; exact frame.1) (by rw [h.rsp, below]; simp [tagSaved]; omega)
    (by
      rw [h.rbp, above]
      have place : s₀.rsp.toNat - 4 = s₀.rsp.toNat - 20 + 16 := by omega
      rw [place]
      exact frame.2)
  obtain ⟨mem, regs⟩ := left
  have body : tagBody .done = leave tagSaved.reverse := rfl
  have up : s₀.rsp - 4 + BitVec.ofNat 32 (32 / 8) = s₀.rsp := BitVec.sub_add_cancel _ _
  rw [h.rbp, up] at regs
  rw [body]
  refine ⟨?_, ?_, fun r rax rsp => ?_, fun x out => ?_⟩
  · rw [regs]
    rfl
  · rw [Machine.rsp, regs]
    rfl
  · rw [regs, restored, if_neg rsp]
    split
    · rfl
    · next off =>
        simp only [tagSaved, List.reverse_cons, List.reverse_nil, List.nil_append, List.cons_append,
          List.mem_cons, List.not_mem_nil, or_false, not_or] at off
        exact h.others r (by simp [off, rax, rsp])
  · rw [mem]
    exact h.outside room out

/-- `__mb_get_tag` finds the first tag of the type, or 0. -/
theorem mb_get_tag (linked : ∀ l, code.block (label l) = tagBlock label l)
    (stack : Holds s₀.mem s₀.rsp.toNat (words [back, mb, type]))
    (room : 20 ≤ s₀.rsp.toNat ∧ s₀.rsp.toNat + 12 ≤ 2 ^ 32)
    (at_ : TagsAt s₀.mem (mb.toNat + 8) tags) (fits : mb.toNat + 8 + tagsSize tags ≤ 2 ^ 32)
    (apart : mb.toNat + 8 + tagsSize tags ≤ s₀.rsp.toNat - 20 ∨ s₀.rsp.toNat ≤ mb.toNat + 8) :
    ∃ s, code.Ends (label .getTag) s₀ (label .done, s) ∧
      TagFound s₀ (((firstTag type tags).map fun n => mb + 8 + BitVec.ofNat 32 n).getD 0)
        s := by
  obtain ⟨searching, rbx⟩ := after_getTag stack room
  have after : ∀ l s, code.after (label l) s = runAll (tagBody l) s := fun l s => by
    rw [Code.after, linked]
    rfl
  have exit : ∀ l, (code.block (label l)).exit = (tagBlock label l).exit := fun l => by rw [linked]
  have behind := eight_le_tagsSize tags
  have start : (mb + 8).toNat = mb.toNat + 8 := toNat_add_ofNat (n := 8) (by omega)
  have kept : TagsAt (runAll (tagBody .getTag) s₀).mem (mb.toNat + 8) tags :=
    at_.moved fun k lt => searching.outside room.1 (by omega)
  obtain ⟨s, done, rax, back⟩ := @ends_find _ _ _ tags _ _ _ linked searching
    (by rw [rbx, start]; exact kept) (by rw [rbx, start]; exact fits)
  rw [rbx] at rax
  have found := after_done done room.1
  rw [rax] at found
  refine ⟨_, .jmp (exit .getTag) ?_, found⟩
  rw [after]
  refine back _ ?_
  rw [← after]
  exact .ret (exit .done)

/-- The loader and the kernel find the same tag, each by its own addresses, or neither of them finds
    one: the first tag of the type in the list. -/
theorem same_tag (linked : ∀ l, code.block (label l) = tagBlock label l)
    (stack : Holds s₀.mem s₀.rsp.toNat (words [back, mb, type]))
    (room : 20 ≤ s₀.rsp.toNat ∧ s₀.rsp.toNat + 12 ≤ 2 ^ 32)
    (at_ : TagsAt s₀.mem (mb.toNat + 8) tags) (fits : mb.toNat + 8 + tagsSize tags ≤ 2 ^ 32)
    (apart : mb.toNat + 8 + tagsSize tags ≤ s₀.rsp.toNat - 20 ∨ s₀.rsp.toNat ≤ mb.toNat + 8)
    {m : Memory} {data : BitVec 64}
    (mapped : ∀ k, 8 ≤ k → k < 8 + tagsSize tags → m (data.toNat + k) = s₀.mem (mb.toNat + k))
    (fits' : data.toNat + 8 + tagsSize tags ≤ 2 ^ 64) :
    ∃ s tag, code.Ends (label .getTag) s₀ (label .done, s) ∧ s.rsp = s₀.rsp ∧
      (∀ r, r ≠ .rax → r ≠ .rsp → s.regs r = s₀.regs r) ∧
      Returns (mbGet m (some data) type) tag ∧
      (firstTag type tags = none → s.regs .rax = 0 ∧ tag = none) ∧
      ∀ n, firstTag type tags = some n →
        (s.regs .rax).toNat = mb.toNat + 8 + n ∧ tag = some (data + 8 + BitVec.ofNat 64 n) := by
  obtain ⟨s, ends, found⟩ := mb_get_tag linked stack room at_ fits apart
  have behind := eight_le_tagsSize tags
  have start : (data + 8).toNat = data.toNat + 8 := toNat_add_ofNat (n := 8) (by omega)
  have start' : (mb + 8).toNat = mb.toNat + 8 := toNat_add_ofNat (n := 8) (by omega)
  have kernel : TagsAt m (data + 8).toNat tags := by
    rw [start]
    refine at_.moved fun k lt => ?_
    rw [Nat.add_assoc, Nat.add_assoc]
    exact mapped _ (by omega) (by omega)
  have returns := @mbGetLoop_returns _ type _ _ kernel (by rw [start]; omega) (by omega)
  refine ⟨s, _, ends, found.rsp, found.others, returns, fun none => ?_, fun n some' => ?_⟩
  · rw [found.rax, none]
    exact ⟨rfl, rfl⟩
  · have inside := firstTag_inside some'
    rw [found.rax, some']
    refine ⟨?_, rfl⟩
    show (mb + 8 + BitVec.ofNat 32 n).toNat = _
    rw [toNat_add_ofNat (by rw [start']; omega), start']

end

/-! ### Two tags -/

/-- A name of the loader and a framebuffer. -/
def twoTags : List MultibootTag := [⟨2, 13⟩, ⟨8, 32⟩]

def twoTagsMem : Memory :=
  store (store (store (store (fun _ => 0) 0x9000 (words [(0x100123 : BitVec 32), 0x1000, 8]))
    0x1008 (words [(2 : BitVec 32), 13])) 0x1018 (words [(8 : BitVec 32), 32])) 0x1038
      (words [(0 : BitVec 32)])

theorem same_tag_framebuffer : ∃ s tag,
    Code.Ends ⟨tagBlock id, fun _ => 0, fun _ s => s⟩ .getTag
      ⟨Function.update (fun _ => 0) .rsp 0x9000, twoTagsMem, false, false⟩ (.done, s) ∧
    Returns (mbGet (fun x => twoTagsMem (x - 0xffffffff80200000)) (some 0xffffffff80201000) 8) tag ∧
    (s.regs .rax).toNat = 0x1018 ∧ tag = some 0xffffffff80201018 := by
  have at_ : TagsAt twoTagsMem 0x1008 twoTags := by
    refine ⟨by decide, ?_, by decide, ?_, ?_⟩
    · exact ((@holds_store _ _ (words [(2 : BitVec 32), 13])).store (.inl (by decide))).store
        (.inl (by decide))
    · exact (@holds_store _ _ (words [(8 : BitVec 32), 32])).store (.inl (by decide))
    · exact holds_store
  have mapped : ∀ k, twoTagsMem ((0xffffffff80201000 : BitVec 64).toNat + k - 0xffffffff80200000) =
      twoTagsMem ((0x1000 : BitVec 32).toNat + k) := fun k => by
    have first : (0xffffffff80201000 : BitVec 64).toNat = 0xffffffff80201000 := rfl
    have second : (0x1000 : BitVec 32).toNat = 0x1000 := rfl
    have sub : 0xffffffff80201000 + k - 0xffffffff80200000 = 0x1000 + k := by omega
    rw [first, second, sub]
  obtain ⟨s, tag, ends, -, -, returns, -, found⟩ := @same_tag
    ⟨Function.update (fun _ => 0) .rsp 0x9000, twoTagsMem, false, false⟩ 0x100123 0x1000 8 twoTags
    TagLabel ⟨tagBlock id, fun _ => 0, fun _ s => s⟩ id (fun _ => rfl)
    (((holds_store.store (.inr (by decide))).store (.inr (by decide))).store (.inr (by decide)))
    (by decide) at_ (by decide) (by decide)
    (fun x => twoTagsMem (x - 0xffffffff80200000)) 0xffffffff80201000 (fun k _ _ => mapped k) (by decide)
  obtain ⟨rax, rfl⟩ := found 16 (by decide)
  exact ⟨s, _, ends, returns, rax, rfl⟩

end Sdx.Boot
