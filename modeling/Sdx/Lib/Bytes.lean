import Mathlib.Algebra.Order.Ring.Nat
import Mathlib.Data.List.Basic

/-! # Memory as bytes

A memory gives a byte for each address. `Holds` says that a list of bytes is in memory at an
address; a store puts it there and leaves everything apart from it. Numbers are stored with
their lowest byte first.
-/

namespace Sdx.Lib.Bytes

abbrev Memory := Nat → UInt8

/-- The memory with `bytes` at `a`. -/
def store (m : Memory) (a : Nat) (bytes : List UInt8) : Memory :=
  fun x => if a ≤ x then bytes.getD (x - a) (m x) else m x

/-- `bytes` are in memory at `a`. -/
def Holds (m : Memory) (a : Nat) (bytes : List UInt8) : Prop :=
  ∀ k, (h : k < bytes.length) → m (a + k) = bytes[k]

instance (m : Memory) (a : Nat) (bytes : List UInt8) : Decidable (Holds m a bytes) :=
  inferInstanceAs (Decidable (∀ k, (h : k < bytes.length) → m (a + k) = bytes[k]))

section

variable {m m' : Memory} {a b x : Nat} {bytes other : List UInt8}

theorem store_outside (off : x < a ∨ a + bytes.length ≤ x) : store m a bytes x = m x := by
  unfold store
  split
  · rw [List.getD_eq_getElem?_getD, List.getElem?_eq_none (by omega), Option.getD_none]
  · rfl

theorem store_inside {k : Nat} (h : k < bytes.length) : store m a bytes (a + k) = bytes[k] := by
  unfold store
  rw [if_pos (Nat.le_add_right a k), Nat.add_sub_cancel_left, List.getD_eq_getElem?_getD,
    List.getElem?_eq_getElem h, Option.getD_some]

theorem holds_store : Holds (store m a bytes) a bytes := fun _ => store_inside

theorem holds_cons {c : UInt8} : Holds m a (c :: bytes) ↔ m a = c ∧ Holds m (a + 1) bytes := by
  constructor
  · intro holds
    refine ⟨holds 0 (Nat.zero_lt_succ _), fun k h => ?_⟩
    rw [Nat.add_assoc, Nat.add_comm 1]
    exact holds (k + 1) (Nat.succ_lt_succ h)
  · rintro ⟨first, rest⟩ k h
    cases k with
    | zero => exact first
    | succ k =>
        have here := rest k (Nat.lt_of_succ_lt_succ h)
        rwa [Nat.add_assoc, Nat.add_comm 1] at here

theorem holds_append :
    Holds m a (bytes ++ other) ↔ Holds m a bytes ∧ Holds m (a + bytes.length) other := by
  induction bytes generalizing a with
  | nil => simp [Holds]
  | cons c bytes ih =>
      rw [List.cons_append, holds_cons, holds_cons, ih, and_assoc, List.length_cons, Nat.add_assoc,
        Nat.add_comm 1]

/-- Going through a string from `k` on up to its zero. -/
theorem Holds.upToEnd {P : Nat → Prop} {k : Nat} (holds : Holds m a (bytes ++ [0]))
    (nonzero : ∀ c ∈ bytes, c ≠ 0) (stop : m (a + bytes.length) = 0 → P bytes.length)
    (next : ∀ k, (h : k < bytes.length) → m (a + k) = bytes[k] → bytes[k] ≠ 0 → P (k + 1) → P k)
    (le : k ≤ bytes.length) : P k := by
  obtain ⟨chars, zero⟩ := holds_append.mp holds
  induction le using Nat.decreasingInduction with
  | self => exact stop (zero 0 Nat.one_pos)
  | of_succ k below ih => exact next k below (chars k below) (nonzero _ (List.getElem_mem below)) ih

/-- Only what was stored is there. -/
theorem eq_of_holds_store (holds : Holds (store m a bytes) a other)
    (length : bytes.length = other.length) : bytes = other := by
  apply List.ext_getElem length
  intro k here there
  rw [← holds k there, store_inside here]

@[simp] theorem store_nil : store m a [] = m := by
  funext x
  simp [store]

/-- Two stores next to each other are one. -/
theorem store_append :
    store (store m a bytes) (a + bytes.length) other = store m a (bytes ++ other) := by
  funext x
  by_cases inside : x < a + bytes.length
  · rw [store_outside (Or.inl inside)]
    unfold store
    split
    · have bound : x - a < (bytes ++ other).length := by
        rw [List.length_append]
        omega
      rw [List.getD_eq_getElem?_getD, List.getD_eq_getElem?_getD,
        List.getElem?_append_left (by omega), List.getElem?_eq_getElem (by omega)]
    · rfl
  · unfold store
    rw [if_pos (by omega), if_pos (by omega), if_pos (by omega), List.getD_eq_getElem?_getD,
      List.getD_eq_getElem?_getD, List.getD_eq_getElem?_getD,
      List.getElem?_append_right (by omega), List.getElem?_eq_none (show bytes.length ≤ x - a by omega),
      Option.getD_none, Nat.sub_sub]

/-- Stores apart from each other can change places. -/
theorem store_comm (apart : a + bytes.length ≤ b ∨ b + other.length ≤ a) :
    store (store m a bytes) b other = store (store m b other) a bytes := by
  funext x
  by_cases left : a ≤ x ∧ x < a + bytes.length
  · obtain ⟨k, rfl⟩ := Nat.exists_eq_add_of_le left.1
    rw [store_inside (by omega), store_outside (by omega), store_inside (by omega)]
  · have outside : x < a ∨ a + bytes.length ≤ x := by omega
    rw [store_outside outside]
    by_cases right : b ≤ x ∧ x < b + other.length
    · obtain ⟨k, rfl⟩ := Nat.exists_eq_add_of_le right.1
      rw [store_inside (by omega), store_inside (by omega)]
    · have outside' : x < b ∨ b + other.length ≤ x := by omega
      rw [store_outside outside', store_outside outside', store_outside outside]

/-- The `n` bytes at `a`. -/
def slice (m : Memory) (a n : Nat) : List UInt8 := (List.range n).map fun k => m (a + k)

@[simp] theorem length_slice {n : Nat} : (slice m a n).length = n := by simp [slice]

theorem getElem_slice {n k : Nat} (h : k < (slice m a n).length) : (slice m a n)[k] = m (a + k) := by
  simp [slice]

theorem slice_add {n k : Nat} : slice m a (n + k) = slice m a n ++ slice m (a + n) k := by
  simp only [slice, List.range_add, List.map_append, List.map_map]
  congr 1
  apply List.map_congr_left
  intro i _
  exact congrArg m (Nat.add_assoc a n i).symm

/-- Bytes from within a store. -/
theorem slice_store {n k : Nat} (within : k + n ≤ bytes.length) :
    slice (store m a bytes) (a + k) n = (bytes.drop k).take n := by
  apply List.ext_getElem
  · rw [length_slice, List.length_take, List.length_drop]
    omega
  · intro i h _
    rw [length_slice] at h
    rw [getElem_slice, List.getElem_take, List.getElem_drop, Nat.add_assoc, store_inside (by omega)]

theorem drop_slice {n k : Nat} (within : k + n ≤ b) :
    ((slice m a b).drop k).take n = slice m (a + k) n := by
  apply List.ext_getElem
  · rw [List.length_take, List.length_drop, length_slice, length_slice]
    omega
  · intro i _ _
    rw [List.getElem_take, List.getElem_drop, getElem_slice, getElem_slice, Nat.add_assoc]

/-- Slices of one length behind each other. -/
theorem flatMap_slice {count size : Nat} (address : Nat → Nat) :
    ((List.range count).flatMap fun i => slice m (address i) size) =
      (List.range (count * size)).map fun p => m (address (p / size) + p % size) := by
  rcases Nat.eq_zero_or_pos size with rfl | positive
  · rw [Nat.mul_zero, List.range_zero, List.map_nil, List.flatMap_eq_nil_iff]
    exact fun i _ => rfl
  · induction count with
    | zero => rw [Nat.zero_mul]; rfl
    | succ count ih =>
        rw [List.range_succ, List.flatMap_append, ih, Nat.succ_mul, List.range_add,
          List.map_append, List.flatMap_singleton, List.map_map]
        congr 1
        apply List.map_congr_left
        intro k mem
        have below := List.mem_range.mp mem
        rw [Function.comp_apply, Nat.add_comm (count * size) k, Nat.add_mul_div_right _ _ positive,
          Nat.div_eq_of_lt below, Nat.zero_add, Nat.add_mul_mod_self_right, Nat.mod_eq_of_lt below]

namespace Holds

theorem congr (holds : Holds m a bytes)
    (same : ∀ x, a ≤ x → x < a + bytes.length → m' x = m x) : Holds m' a bytes := by
  intro k h
  rw [same (a + k) (by omega) (by omega)]
  exact holds k h

theorem congr_iff (same : ∀ x, a ≤ x → x < a + bytes.length → m' x = m x) :
    Holds m' a bytes ↔ Holds m a bytes :=
  ⟨fun holds => holds.congr fun x low high => (same x low high).symm, fun holds => holds.congr same⟩

/-- A store apart from the bytes keeps them. -/
theorem store (holds : Holds m a bytes)
    (apart : a + bytes.length ≤ b ∨ b + other.length ≤ a) :
    Holds (Bytes.store m b other) a bytes :=
  holds.congr fun _ low high => store_outside (by omega)

end Holds

end

/-! ## Numbers -/

/-- The `w` lowest bytes of a number, the lowest one first. -/
def encode : Nat → Nat → List UInt8
  | 0, _ => []
  | w + 1, n => UInt8.ofNat n :: encode w (n / 256)

/-- The number with these bytes, the lowest one first. -/
def decode : List UInt8 → Nat
  | [] => 0
  | b :: bytes => b.toNat + 256 * decode bytes

/-- The number in the `w` bytes at `a`. -/
def read (m : Memory) (a w : Nat) : Nat := decode ((List.range w).map fun k => m (a + k))

section

variable {m : Memory} {a w n : Nat}

theorem encode_succ : encode (w + 1) n = UInt8.ofNat n :: encode w (n / 256) := rfl

theorem decode_cons {b : UInt8} {bytes : List UInt8} :
    decode (b :: bytes) = b.toNat + 256 * decode bytes := rfl

@[simp] theorem length_encode : (encode w n).length = w := by
  induction w generalizing n with
  | zero => rfl
  | succ w ih => rw [encode_succ, List.length_cons, ih]

theorem encode_add {v w n : Nat} : encode (v + w) n = encode v n ++ encode w (n / 256 ^ v) := by
  induction v generalizing n with
  | zero => rw [Nat.zero_add, Nat.pow_zero, Nat.div_one]; rfl
  | succ v ih =>
      rw [Nat.succ_add, encode_succ, encode_succ, ih, List.cons_append, Nat.div_div_eq_div_mul, Nat.pow_succ']

theorem encode_zero {w : Nat} : encode w 0 = List.replicate w 0 := by
  induction w with
  | zero => rfl
  | succ w ih => rw [encode_succ, List.replicate_succ, Nat.zero_div, ih]; rfl

/-- A number that fits into its lower bytes. -/
theorem encode_of_lt {v w n : Nat} (fits : n < 256 ^ v) :
    encode (v + w) n = encode v n ++ List.replicate w 0 := by
  rw [encode_add, Nat.div_eq_of_lt fits, encode_zero]

theorem decode_encode : decode (encode w n) = n % 256 ^ w := by
  induction w generalizing n with
  | zero => rw [Nat.pow_zero, Nat.mod_one]; rfl
  | succ w ih =>
      rw [encode_succ, decode_cons, ih, Nat.pow_succ', Nat.mod_mul, UInt8.toNat_ofNat']

theorem decode_lt {bytes : List UInt8} : decode bytes < 256 ^ bytes.length := by
  induction bytes with
  | nil => exact Nat.one_pos
  | cons b bytes ih =>
      have low := b.toNat_lt
      rw [decode_cons, List.length_cons, Nat.pow_succ']
      omega

theorem read_lt : read m a w < 256 ^ w := by
  have below := @decode_lt ((List.range w).map fun k => m (a + k))
  rwa [List.length_map, List.length_range] at below

theorem read_congr {m' : Memory} (same : ∀ x, a ≤ x → x < a + w → m' x = m x) :
    read m' a w = read m a w := by
  unfold read
  congr 1
  refine List.map_congr_left fun k mem => same (a + k) (by omega) ?_
  have := List.mem_range.mp mem
  omega

theorem read_eq_of_holds {bytes : List UInt8} (holds : Holds m a bytes) :
    read m a bytes.length = decode bytes := by
  have same : (List.range bytes.length).map (fun k => m (a + k)) = bytes := by
    apply List.ext_getElem
    · simp
    · intro k _ h
      rw [List.getElem_map, List.getElem_range]
      exact holds k h
  rw [read, same]

/-- What was stored is read back. -/
theorem read_eq_of_encode (holds : Holds m a (encode w n)) (fits : n < 256 ^ w) :
    read m a w = n := by
  have value := read_eq_of_holds holds
  rwa [length_encode, decode_encode, Nat.mod_eq_of_lt fits] at value

theorem encode_decode {bytes : List UInt8} : encode bytes.length (decode bytes) = bytes := by
  induction bytes with
  | nil => rfl
  | cons b bytes ih =>
      have low := b.toNat_lt
      rw [List.length_cons, decode_cons, encode_succ, Nat.add_mul_div_left _ _ (by omega),
        Nat.div_eq_of_lt low, Nat.zero_add, ih]
      congr 1
      apply UInt8.toNat_inj.mp
      rw [UInt8.toNat_ofNat', Nat.add_mul_mod_self_left, Nat.mod_eq_of_lt low]

/-- Bytes in memory are those of the number that is read from them. -/
theorem holds_read : Holds m a (encode w (read m a w)) := by
  have length : ((List.range w).map fun k => m (a + k)).length = w := by simp
  have bytes : encode w (read m a w) = (List.range w).map fun k => m (a + k) := by
    have back := @encode_decode ((List.range w).map fun k => m (a + k))
    rwa [length] at back
  rw [bytes]
  intro k h
  simp

end

end Sdx.Lib.Bytes
