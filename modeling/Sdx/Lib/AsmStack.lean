import Sdx.Lib.Asm

/-! # Words on the stack

Pushing registers one after the other leaves their values on the stack, the last one on top, and
popping them in the opposite order brings them back. Addresses on the stack are taken as numbers,
with room below the stack pointer.
-/

namespace Sdx.Lib.Asm

open Bytes

variable {w : Nat}

/-- Words in memory, the lowest address first. -/
def words (vs : List (BitVec w)) : List UInt8 := vs.flatMap fun v => encode (w / 8) v.toNat

@[simp] theorem words_nil : words ([] : List (BitVec w)) = [] := rfl

@[simp] theorem words_cons (v : BitVec w) (vs : List (BitVec w)) :
    words (v :: vs) = encode (w / 8) v.toNat ++ words vs := rfl

@[simp] theorem words_append (vs us : List (BitVec w)) : words (vs ++ us) = words vs ++ words us :=
  List.flatMap_append

@[simp] theorem length_words (vs : List (BitVec w)) : (words vs).length = vs.length * (w / 8) := by
  induction vs with
  | nil => rw [words_nil, List.length_nil, List.length_nil, Nat.zero_mul]
  | cons v vs ih =>
      rw [words_cons, List.length_append, length_encode, ih, List.length_cons, Nat.succ_mul,
        Nat.add_comm]

theorem toNat_sub_ofNat {x : BitVec w} {n : Nat} (le : n ≤ x.toNat) :
    (x - BitVec.ofNat w n).toNat = x.toNat - n := by
  have lt := x.isLt
  have small : n < 2 ^ w := Nat.lt_of_le_of_lt le lt
  rw [BitVec.toNat_sub_of_le, BitVec.toNat_ofNat, Nat.mod_eq_of_lt small]
  rw [BitVec.le_def, BitVec.toNat_ofNat, Nat.mod_eq_of_lt small]
  exact le

theorem toNat_add_ofNat {x : BitVec w} {n : Nat} (lt : x.toNat + n < 2 ^ w) :
    (x + BitVec.ofNat w n).toNat = x.toNat + n := by
  rw [BitVec.toNat_add, BitVec.toNat_ofNat, Nat.mod_eq_of_lt (show n < 2 ^ w by omega),
    Nat.mod_eq_of_lt lt]

/-- A word is read back. -/
theorem ofNat_read_of_holds {m : Memory} {a : Nat} {v : BitVec w} (whole : 8 ∣ w)
    (holds : Holds m a (encode (w / 8) v.toNat)) : BitVec.ofNat w (read m a (w / 8)) = v := by
  have bits : 256 ^ (w / 8) = 2 ^ w := by
    rw [show 256 = 2 ^ 8 from rfl, ← Nat.pow_mul, Nat.mul_div_cancel' whole]
  rw [read_eq_of_encode holds (bits ▸ v.isLt), BitVec.ofNat_toNat, BitVec.setWidth_eq]

/-- One of several words in memory is written. -/
theorem holds_set {m : Memory} {a i : Nat} {vs : List (BitVec w)} {v : BitVec w}
    (holds : Holds m a (words vs)) (h : i < vs.length) :
    Holds (Bytes.store m (a + i * (w / 8)) (encode (w / 8) v.toNat)) a (words (vs.set i v)) := by
  induction vs generalizing a i with
  | nil => exact absurd h (Nat.not_lt_zero i)
  | cons u vs ih =>
      rw [words_cons, holds_append, length_encode] at holds
      cases i with
      | zero =>
          rw [Nat.zero_mul, Nat.add_zero, List.set_cons_zero, words_cons, holds_append, length_encode]
          refine ⟨holds_store, holds.2.store (.inr ?_)⟩
          rw [length_encode]
      | succ i =>
          have next : a + (i + 1) * (w / 8) = a + w / 8 + i * (w / 8) := by
            rw [Nat.succ_mul]
            omega
          rw [List.set_cons_succ, words_cons, holds_append, length_encode, next]
          refine ⟨holds.1.store (.inl ?_), ih holds.2 (Nat.lt_of_succ_lt_succ h)⟩
          rw [length_encode]
          omega

namespace Machine

variable {s : Machine w} {v : BitVec w} {vs us : List (BitVec w)} {r : Reg} {a : Nat}

/-- The stack with these values pushed, the first one first. -/
def pushed (s : Machine w) (vs : List (BitVec w)) : Machine w := vs.foldl push s

@[simp] theorem pushed_nil : s.pushed [] = s := rfl

theorem pushed_cons : s.pushed (v :: vs) = (s.push v).pushed vs := rfl

@[simp] theorem push_rsp : (s.push v).rsp = s.rsp - BitVec.ofNat w (w / 8) := by
  simp [push, set, store, rsp]

@[simp] theorem drop_rsp : s.drop.rsp = s.rsp + BitVec.ofNat w (w / 8) := by
  simp [drop, set, rsp]

@[simp] theorem drop_mem : s.drop.mem = s.mem := rfl

theorem push_reg (off : r ≠ .rsp) : (s.push v).regs r = s.regs r := Function.update_of_ne off ..

theorem toNat_push_rsp (room : w / 8 ≤ s.rsp.toNat) : (s.push v).rsp.toNat = s.rsp.toNat - w / 8 := by
  rw [push_rsp, toNat_sub_ofNat room]

theorem push_mem (room : w / 8 ≤ s.rsp.toNat) :
    (s.push v).mem = Bytes.store s.mem (s.rsp.toNat - w / 8) (encode (w / 8) v.toNat) := by
  have place := @toNat_push_rsp w s v room
  rw [← place]
  rfl

theorem pushed_reg (off : r ≠ .rsp) : (s.pushed vs).regs r = s.regs r := by
  induction vs generalizing s with
  | nil => rfl
  | cons v vs ih => rw [pushed_cons, ih, push_reg off]

theorem toNat_pushed_rsp (room : vs.length * (w / 8) ≤ s.rsp.toNat) :
    (s.pushed vs).rsp.toNat = s.rsp.toNat - vs.length * (w / 8) := by
  induction vs generalizing s with
  | nil => rw [pushed_nil, List.length_nil, Nat.zero_mul, Nat.sub_zero]
  | cons v vs ih =>
      rw [List.length_cons, Nat.succ_mul] at room ⊢
      have moved := @toNat_push_rsp w s v (by omega)
      rw [pushed_cons, ih (by omega), moved]
      omega

/-- The values are below the old stack pointer, and nothing else is written. -/
theorem pushed_mem (room : vs.length * (w / 8) ≤ s.rsp.toNat) :
    (s.pushed vs).mem =
      Bytes.store s.mem (s.rsp.toNat - vs.length * (w / 8)) (words vs.reverse) := by
  induction vs generalizing s with
  | nil => rw [pushed_nil, List.reverse_nil, words_nil, store_nil]
  | cons v vs ih =>
      rw [List.length_cons, Nat.succ_mul] at room ⊢
      have moved := @toNat_push_rsp w s v (by omega)
      have start : s.rsp.toNat - w / 8 - vs.length * (w / 8) =
          s.rsp.toNat - (vs.length * (w / 8) + w / 8) := by omega
      have end' : s.rsp.toNat - (vs.length * (w / 8) + w / 8) + (words vs.reverse).length =
          s.rsp.toNat - w / 8 := by
        rw [length_words, List.length_reverse]
        omega
      rw [pushed_cons, ih (by omega), moved, push_mem (by omega), start, ← end',
        store_comm (.inr (Nat.le_refl _)), store_append, List.reverse_cons, words_append,
        words_cons, words_nil, List.append_nil]

theorem holds_pushed (room : vs.length * (w / 8) ≤ s.rsp.toNat) :
    Holds (s.pushed vs).mem (s.pushed vs).rsp.toNat (words vs.reverse) := by
  rw [toNat_pushed_rsp room, pushed_mem room]
  exact holds_store

theorem pushed_outside (room : vs.length * (w / 8) ≤ s.rsp.toNat)
    (out : a < s.rsp.toNat - vs.length * (w / 8) ∨ s.rsp.toNat ≤ a) :
    (s.pushed vs).mem a = s.mem a := by
  rw [pushed_mem room]
  refine store_outside ?_
  rw [length_words, List.length_reverse]
  omega

/-- The word on top, and what is behind it. -/
theorem top_eq (whole : 8 ∣ w) (holds : Holds s.mem s.rsp.toNat (words (v :: vs))) : s.top = v := by
  rw [words_cons, holds_append] at holds
  exact ofNat_read_of_holds whole holds.1

/-- The words at an address are read one by one. -/
theorem load_words {x : BitVec w} {i : Nat} (whole : 8 ∣ w) (holds : Holds s.mem x.toNat (words vs))
    (fits : x.toNat + vs.length * (w / 8) ≤ 2 ^ w) (h : i < vs.length) :
    s.load (x + BitVec.ofNat w (i * (w / 8))) (w / 8) = vs[i] := by
  have size : w / 8 = 0 ∨ 0 < w / 8 := Nat.eq_zero_or_pos _
  induction vs generalizing x i with
  | nil => exact absurd h (Nat.not_lt_zero i)
  | cons v vs ih =>
      rw [words_cons, holds_append, length_encode] at holds
      rw [List.length_cons, Nat.succ_mul] at fits
      cases i with
      | zero =>
          have here : x + BitVec.ofNat w (0 * (w / 8)) = x := by
            rw [Nat.zero_mul]
            exact BitVec.add_zero x
          rw [here]
          exact ofNat_read_of_holds whole holds.1
      | succ i =>
          have left : i < vs.length := Nat.lt_of_succ_lt_succ h
          have next : (x + BitVec.ofNat w (w / 8)).toNat = x.toNat + w / 8 := by
            have lt := x.isLt
            rcases size with none | some
            · simp [none]
            · have pos := Nat.mul_pos (Nat.lt_of_le_of_lt (Nat.zero_le i) left) some
              exact toNat_add_ofNat (by omega)
          have rest := ih (x := x + BitVec.ofNat w (w / 8)) (by rw [next]; exact holds.2)
            (by rw [next]; omega) left
          rw [BitVec.add_assoc, ← BitVec.ofNat_add, Nat.add_comm, ← Nat.succ_mul] at rest
          exact rest

end Machine

/-! ## Saving registers -/

/-- Push registers, the first one first. -/
def pushes (rs : List Reg) : List (Instr w) := rs.map fun r => .push (.reg r)

/-- Pop registers, the first one first. -/
def pops (rs : List Reg) : List (Instr w) := rs.map fun r => .pop (.reg r)

variable {s : Machine w} {rs : List Reg}

theorem runAll_append (body body' : List (Instr w)) :
    runAll (body ++ body') s = runAll body' (runAll body s) := List.foldl_append

theorem runAll_pushes (off : .rsp ∉ rs) : runAll (pushes rs) s = s.pushed (rs.map s.regs) := by
  induction rs generalizing s with
  | nil => rfl
  | cons r rs ih =>
      rw [List.mem_cons, not_or] at off
      have here : runAll (pushes (r :: rs)) s = runAll (pushes rs) (s.push (s.regs r)) := rfl
      have kept : rs.map (s.push (s.regs r)).regs = rs.map s.regs := by
        refine List.map_congr_left fun r' mem => Machine.push_reg ?_
        rintro rfl
        exact off.2 mem
      rw [here, ih off.2, kept]
      rfl

/-- What registers are when these were popped and had the values of `ρ` on the stack. -/
def restored (regs ρ : Reg → BitVec w) (rs : List Reg) (rsp : BitVec w) (r : Reg) : BitVec w :=
  if r = .rsp then rsp else if r ∈ rs then ρ r else regs r

theorem runAll_pops {ρ : Reg → BitVec w} (whole : 8 ∣ w) (off : .rsp ∉ rs)
    (holds : Holds s.mem s.rsp.toNat (words (rs.map ρ)))
    (room : s.rsp.toNat + rs.length * (w / 8) < 2 ^ w) :
    runAll (pops rs) s =
      { s with regs := restored s.regs ρ rs (s.rsp + BitVec.ofNat w (rs.length * (w / 8))) } := by
  induction rs generalizing s with
  | nil =>
      have same : restored s.regs ρ [] s.rsp = s.regs := by
        funext r
        unfold restored
        split
        · next eq => rw [eq]; rfl
        · rfl
      have still : s.rsp + BitVec.ofNat w 0 = s.rsp := BitVec.add_zero _
      rw [List.length_nil, Nat.zero_mul, still, same]
      rfl
  | cons r rs ih =>
      rw [List.mem_cons, not_or] at off
      rw [List.length_cons, Nat.succ_mul] at room ⊢
      rw [List.map_cons, words_cons, holds_append, length_encode] at holds
      have popped : s.top = ρ r := ofNat_read_of_holds whole holds.1
      -- the registers behind the first pop, which is never of the stack pointer
      have here : runAll (pops (r :: rs)) s = runAll (pops rs) (s.drop.set r (ρ r)) := by
        rw [← popped]
        rfl
      have pointer : (s.drop.set r (ρ r)).rsp = s.rsp + BitVec.ofNat w (w / 8) := by
        rw [← Machine.drop_rsp]
        exact Function.update_of_ne off.1 ..
      have above : (s.drop.set r (ρ r)).rsp.toNat = s.rsp.toNat + w / 8 := by
        rw [pointer, toNat_add_ofNat (by omega)]
      rw [here, ih off.2 (by rw [above]; exact holds.2) (by omega), pointer]
      have sum : s.rsp + BitVec.ofNat w (w / 8) + BitVec.ofNat w (rs.length * (w / 8)) =
          s.rsp + BitVec.ofNat w (rs.length * (w / 8) + w / 8) := by
        rw [BitVec.add_assoc, ← BitVec.ofNat_add, Nat.add_comm]
      rw [sum]
      congr 1
      funext r'
      unfold restored
      by_cases stack : r' = .rsp
      · rw [if_pos stack, if_pos stack]
      · rw [if_neg stack, if_neg stack]
        by_cases here : r' = r
        · subst here
          rw [if_pos List.mem_cons_self]
          split
          · rfl
          · exact Function.update_self ..
        · have other : (s.drop.set r (ρ r)).regs r' = s.regs r' := by
            simp [Machine.set, Machine.drop, Function.update_of_ne here, Function.update_of_ne stack]
          simp only [other, List.mem_cons, here, false_or]

namespace Machine

variable {u v : BitVec w} {vs : List (BitVec w)} {r : Reg}

theorem push_set (off : r ≠ .rsp) : (s.set r v).push u = (s.push u).set r v := by
  have pointer : (s.set r v).rsp = s.rsp := Function.update_of_ne off.symm ..
  have moved : (s.set r v).set .rsp (s.rsp - BitVec.ofNat w (w / 8)) =
      (s.set .rsp (s.rsp - BitVec.ofNat w (w / 8))).set r v := by
    rw [set, set, set, set, Function.update_comm off]
  have place : ((s.set .rsp (s.rsp - BitVec.ofNat w (w / 8))).set r v).rsp =
      (s.set .rsp (s.rsp - BitVec.ofNat w (w / 8))).rsp := Function.update_of_ne off.symm ..
  rw [push, push, pointer, moved, place]
  rfl

theorem pushed_set (off : r ≠ .rsp) : (s.set r v).pushed vs = (s.pushed vs).set r v := by
  induction vs generalizing s with
  | nil => rfl
  | cons u vs ih => rw [pushed_cons, push_set off, ih, pushed_cons]

end Machine

/-- The start of a function that addresses its frame by `rbp`. -/
def enter (rs : List Reg) : List (Instr w) :=
  [.push (.reg .rbp), .mov .full (.reg .rsp) (.reg .rbp)] ++ pushes rs

/-- And its end. -/
def leave (rs : List Reg) : List (Instr w) :=
  pops rs ++ [.mov .full (.reg .rbp) (.reg .rsp), .pop (.reg .rbp)]

theorem runAll_enter (off : .rsp ∉ rs) (off' : .rbp ∉ rs) :
    runAll (enter rs) s = (s.pushed (s.regs .rbp :: rs.map s.regs)).set .rbp
      (s.rsp - BitVec.ofNat w (w / 8)) := by
  have first : runAll [.push (.reg .rbp), .mov .full (.reg .rsp) (.reg .rbp)] s =
      (s.push (s.regs .rbp)).set .rbp (s.rsp - BitVec.ofNat w (w / 8)) := by
    rw [← Machine.push_rsp]
    rfl
  have values : rs.map ((s.push (s.regs .rbp)).set .rbp (s.rsp - BitVec.ofNat w (w / 8))).regs =
      rs.map s.regs := by
    refine List.map_congr_left fun r mem => ?_
    have stack : r ≠ .rsp := fun eq => off (eq ▸ mem)
    have frame : r ≠ .rbp := fun eq => off' (eq ▸ mem)
    rw [Machine.set_of_ne frame, Machine.push_reg stack]
  rw [enter, runAll_append, first, runAll_pushes off, values, Machine.pushed_set (by simp)]
  rfl

theorem runAll_leave {ρ : Reg → BitVec w} (whole : 8 ∣ w) (off : .rsp ∉ rs) (off' : .rbp ∉ rs)
    (holds : Holds s.mem s.rsp.toNat (words (rs.map ρ)))
    (room : s.rsp.toNat + rs.length * (w / 8) < 2 ^ w)
    (saved : Holds s.mem (s.regs .rbp).toNat (words [ρ .rbp])) :
    (runAll (leave rs) s).mem = s.mem ∧
      (runAll (leave rs) s).regs =
        restored s.regs ρ (.rbp :: rs) (s.regs .rbp + BitVec.ofNat w (w / 8)) := by
  obtain ⟨p, p_eq⟩ : ∃ p, runAll (pops rs) s = p := ⟨_, rfl⟩
  have popped := runAll_pops whole off holds room
  rw [p_eq] at popped
  have frame : p.regs .rbp = s.regs .rbp := by
    rw [popped]
    simp only [restored, reduceCtorEq, if_false, off']
  have mem : p.mem = s.mem := by rw [popped]
  have word : (p.set .rsp (s.regs .rbp)).top = ρ .rbp := by
    refine @Machine.top_eq _ _ _ [] whole ?_
    rw [Machine.set_mem, mem, Machine.rsp, Machine.set_self]
    exact saved
  have ended : runAll (leave rs) s =
      (p.set .rsp (s.regs .rbp)).drop.set .rbp (p.set .rsp (s.regs .rbp)).top := by
    rw [leave, runAll_append, p_eq, ← frame]
    rfl
  rw [ended, word]
  refine ⟨mem, ?_⟩
  funext r
  by_cases base : r = .rbp
  · subst base
    rw [Machine.set_self, restored, if_neg (by simp), if_pos List.mem_cons_self]
  · rw [Machine.set_of_ne base]
    by_cases stack : r = .rsp
    · subst stack
      rw [restored, if_pos rfl, ← Machine.rsp, Machine.drop_rsp, Machine.rsp, Machine.set_self]
    · have kept : (p.set .rsp (s.regs .rbp)).drop.regs r = p.regs r := by
        rw [Machine.drop, Machine.set_of_ne stack, Machine.set_of_ne stack]
      rw [kept, popped]
      simp only [restored, if_neg stack, List.mem_cons, base, false_or]

end Sdx.Lib.Asm
