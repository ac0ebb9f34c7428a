import Mathlib.Data.BitVec
import Mathlib.Data.List.Infix
import Mathlib.Order.Bounds.Basic
import Mathlib.Order.Lattice.Nat
import Sdx.Util.Number

/-! # Searching in strings (`util/string.c`)

`strstr` skips with `strchr` to the characters that a match can begin with, and compares there with
`strncmp`, which takes the end of its first string for a match.
-/

namespace Sdx.Util

open Sdx.Lib Sdx.Lib.Bytes

/-- `strncmp`. A `char` is signed, and the difference is converted to `uint64_t`. -/
def strncmp (mem : Memory) (s1 s2 : Nat) : Nat → BitVec 64
  | 0 => 0
  | len + 1 =>
      if mem s1 = 0 then 0
      else if mem s1 ≠ mem s2 then
        (mem s1).toBitVec.signExtend 64 - (mem s2).toBitVec.signExtend 64
      else strncmp mem (s1 + 1) (s2 + 1) len

/-- The loop of `strchr`. -/
def strchrLoop (mem : Memory) (c : UInt8) : Nat → Nat → Option (Option Nat)
  | 0, _ => none
  | fuel + 1, s =>
      if mem s = 0 then some none
      else if mem s = c then some (some s)
      else strchrLoop mem c fuel (s + 1)

/-- `strchr`. -/
def strchr (fuel : Nat) (mem : Memory) (c : UInt8) : Option Nat → Option (Option Nat)
  | none => some none
  | some s => strchrLoop mem c fuel s

/-- The loop of `strstr`. -/
def strstrLoop (mem : Memory) (s2 len : Nat) : Nat → Option Nat → Option (Option Nat)
  | 0, _ => none
  | fuel + 1, p => do
      match ← strchr fuel mem (mem s2) p with
      | none => some none
      | some p =>
          if strncmp mem p s2 len = 0 then some (some p)
          else strstrLoop mem s2 len fuel (some (p + 1))

/-- `strstr`. The length of `NULL` is 0. -/
def strstr (fuel : Nat) (mem : Memory) (s1 : Option Nat) : Option Nat → Option (Option Nat)
  | none => some s1
  | some s2 => do
      let len ← strlen fuel mem (some s2)
      if len = 0 then some s1 else strstrLoop mem s2 len fuel s1

/-! ## First places -/

/-- A pointer to the first of some places behind `a`, or `NULL` if there is none. -/
def FirstAt (a : Nat) (places : Set Nat) : Option Nat → Prop
  | none => places = ∅
  | some p => ∃ k, p = a + k ∧ IsLeast places k

/-- The places at which a string occurs in another one. -/
def occurrences (s1 s2 : List UInt8) : Set Nat := {k | s2 <+: s1.drop k}

/-- The places at which `strncmp` finds no difference. -/
def stops (s1 s2 : List UInt8) : Set Nat :=
  {k | s1.drop k ≠ [] ∧ (s2 <+: s1.drop k ∨ s1.drop k <+: s2)}

section

variable {a n k : Nat} {places : Set Nat} {r : Option Nat} {s1 s2 pre t : List UInt8} {c : UInt8}

theorem FirstAt.of_isLeast (least : IsLeast places k) :
    FirstAt a places r ↔ r = some (a + k) := by
  cases r with
  | none => simp [FirstAt, least.nonempty.ne_empty]
  | some p =>
      simp only [FirstAt, Option.some.injEq]
      constructor
      · rintro ⟨k', rfl, least'⟩
        rw [least.unique least']
      · intro eq
        exact ⟨k, eq, least⟩

theorem FirstAt.of_empty (empty : places = ∅) : FirstAt a places r ↔ r = none := by
  cases r with
  | none => simp [FirstAt, empty]
  | some p => simp [FirstAt, empty, IsLeast]

/-- A place that is passed over. -/
theorem FirstAt.next (differs : 0 ∉ stops (c :: t) s2) (first : FirstAt (a + 1) (stops t s2) r) :
    FirstAt a (stops (c :: t) s2) r := by
  have places : stops (c :: t) s2 = (1 + ·) '' stops t s2 := by
    ext k
    cases k with
    | zero => simp [differs]
    | succ k => simp [stops, Nat.add_comm 1]
  rw [places]
  cases r with
  | none => simpa [FirstAt] using first
  | some p =>
      obtain ⟨k, rfl, least⟩ := first
      have mono : Monotone (1 + ·) := fun _ _ le => Nat.add_le_add_left le 1
      exact ⟨1 + k, Nat.add_assoc a 1 k, mono.map_isLeast least⟩

/-- There is no match in front of the first place with its first character. -/
theorem FirstAt.skip (other : c ∉ pre)
    (first : FirstAt (a + pre.length) (stops t (c :: s2)) r) :
    FirstAt a (stops (pre ++ t) (c :: s2)) r := by
  induction pre generalizing a with
  | nil => exact first
  | cons d pre ih =>
      obtain ⟨ne, other⟩ := not_or.mp (mt List.mem_cons.mpr other)
      apply FirstAt.next
      · simp [stops, List.cons_prefix_cons, ne, Ne.symm ne]
      · apply ih other
        rwa [Nat.add_assoc, Nat.add_comm 1]

/-! ## The three loops -/

theorem signExtend_sub_eq_zero {c d : UInt8} :
    c.toBitVec.signExtend 64 - d.toBitVec.signExtend 64 = 0 ↔ c = d := by
  rw [sub_eq_zero]
  constructor
  · intro same
    have ints := congrArg BitVec.toInt same
    rw [BitVec.toInt_signExtend_of_le (by decide), BitVec.toInt_signExtend_of_le (by decide)] at ints
    exact UInt8.toBitVec_inj.mp (BitVec.eq_of_toInt_eq ints)
  · rintro rfl
    rfl

variable {mem : Memory} {p b : Nat}

/-- `strncmp` finds no difference if one string begins with the other one. -/
theorem strncmp_eq_zero (holds : Holds mem p (t ++ [0])) (nonzero : ∀ c ∈ t, c ≠ 0)
    (holds' : Holds mem b s2) : strncmp mem p b s2.length = 0 ↔ s2 <+: t ∨ t <+: s2 := by
  induction s2 generalizing p b t with
  | nil => simp [strncmp]
  | cons d s2 ih =>
      obtain ⟨first', rest'⟩ := holds_cons.mp holds'
      cases t with
      | nil =>
          obtain ⟨ends, -⟩ := holds_cons.mp holds
          simp [strncmp, ends]
      | cons c t =>
          obtain ⟨first, rest⟩ := holds_cons.mp holds
          have nonzero_c := nonzero c List.mem_cons_self
          have ih := ih rest (fun c mem => nonzero c (List.mem_cons_of_mem _ mem)) rest'
          simp only [List.length_cons, strncmp, first, first', nonzero_c, if_false]
          simp only [List.cons_prefix_cons]
          by_cases same : c = d
          · simpa [same] using ih
          · simpa [same, Ne.symm same] using mt signExtend_sub_eq_zero.mp same

theorem strchrLoop_none (holds : Holds mem p (t ++ [0])) (nonzero : ∀ c ∈ t, c ≠ 0)
    (other : c ∉ t) : Returns (fun fuel => strchrLoop mem c fuel p) none := by
  induction t generalizing p with
  | nil =>
      obtain ⟨ends, -⟩ := holds_cons.mp holds
      refine Returns.step (fun fuel => ?_) (Returns.const none)
      rw [strchrLoop, if_pos ends]
  | cons d t ih =>
      obtain ⟨first, rest⟩ := holds_cons.mp holds
      obtain ⟨ne, other⟩ := not_or.mp (mt List.mem_cons.mpr other)
      refine Returns.step (fun fuel => ?_)
        (ih rest (fun c mem => nonzero c (List.mem_cons_of_mem _ mem)) other)
      simp [strchrLoop, first, nonzero d List.mem_cons_self, Ne.symm ne]

theorem strchrLoop_some (holds : Holds mem p (pre ++ c :: t)) (nonzero : ∀ d ∈ pre, d ≠ 0)
    (some' : c ≠ 0) (other : c ∉ pre) : Returns (fun fuel => strchrLoop mem c fuel p) (some (p + pre.length)) := by
  induction pre generalizing p with
  | nil =>
      obtain ⟨first, -⟩ := holds_cons.mp holds
      refine Returns.step (fun fuel => ?_) (Returns.const _)
      simp [strchrLoop, first, some']
  | cons d pre ih =>
      obtain ⟨first, rest⟩ := holds_cons.mp holds
      obtain ⟨ne, other⟩ := not_or.mp (mt List.mem_cons.mpr other)
      have step := ih rest (fun c mem => nonzero c (List.mem_cons_of_mem _ mem)) other
      rw [Nat.add_assoc, Nat.add_comm 1] at step
      refine Returns.step (fun fuel => ?_) step
      simp [strchrLoop, first, nonzero d (by simp), Ne.symm ne]

/-- The loop goes to the first place at which `strncmp` finds no difference. -/
theorem strstrLoop_returns (holds : Holds mem p (t ++ [0])) (nonzero : ∀ c ∈ t, c ≠ 0)
    (holds' : Holds mem b (c :: s2)) : ∃ r, Returns
      (fun fuel => strstrLoop mem b (c :: s2).length fuel (some p)) r ∧
      FirstAt p (stops t (c :: s2)) r := by
  obtain ⟨rfl, -⟩ := holds_cons.mp holds'
  induction len_eq : t.length using Nat.strong_induction_on generalizing t p with
  | h len ih =>
      by_cases listed : mem b ∈ t
      · obtain ⟨pre, post, rfl, other⟩ := List.eq_append_cons_of_mem listed
        rw [List.append_assoc] at holds
        obtain ⟨-, here⟩ := holds_append.mp holds
        obtain ⟨-, rest⟩ := holds_cons.mp here
        have nonzero_post : ∀ c ∈ mem b :: post, c ≠ 0 := fun c mem =>
          nonzero c (List.mem_append_right _ mem)
        have found := strchrLoop_some holds (fun c mem => nonzero c (List.mem_append_left _ mem))
          (nonzero _ listed) other
        have compare := strncmp_eq_zero here nonzero_post holds'
        by_cases stop : strncmp mem (p + pre.length) b (mem b :: s2).length = 0
        · have least : IsLeast (stops (mem b :: post) (mem b :: s2)) 0 :=
            ⟨⟨by simp, compare.mp stop⟩, fun k _ => Nat.zero_le k⟩
          refine ⟨some (p + pre.length), Returns.step (fun fuel => rfl) (found.bind ?_), ?_⟩
          · simp only [stop, if_true]
            exact Returns.const _
          · exact FirstAt.skip other ((FirstAt.of_isLeast least).mpr rfl)
        · have differs : 0 ∉ stops (mem b :: post) (mem b :: s2) := fun stopped =>
            stop (compare.mpr stopped.2)
          obtain ⟨r, returns, first⟩ := ih post.length (by simp at len_eq; omega) rest
            (fun c mem => nonzero_post c (List.mem_cons_of_mem _ mem)) rfl
          refine ⟨r, Returns.step (fun fuel => rfl) (found.bind ?_), ?_⟩
          · simpa only [stop, if_false] using returns
          · exact FirstAt.skip other (FirstAt.next differs first)
      · have missing := strchrLoop_none holds nonzero listed
        refine ⟨none, Returns.step (fun fuel => rfl) (missing.bind (Returns.const none)), ?_⟩
        have none_left : FirstAt (p + t.length) (stops [] (mem b :: s2)) none := by
          simp [FirstAt, stops]
        simpa using FirstAt.skip listed none_left

/-- `strstr` goes to the first place at which `strncmp` finds no difference. -/
theorem strstr_returns (some' : s2 ≠ []) (holds : Holds mem a (s1 ++ [0]))
    (nonzero : ∀ c ∈ s1, c ≠ 0) (holds' : Holds mem b (s2 ++ [0])) (nonzero' : ∀ c ∈ s2, c ≠ 0) :
    ∃ r, Returns (fun fuel => strstr fuel mem (some a) (some b)) r ∧ FirstAt a (stops s1 s2) r := by
  have length := strlen_returns holds' nonzero'
  cases s2 with
  | nil => cases some' rfl
  | cons c s2 =>
      obtain ⟨r, returns, first⟩ := strstrLoop_returns holds nonzero (holds_append.mp holds').1
      exact ⟨r, length.bind returns, first⟩

/-! ## When the search is exact -/

/-- A string that is searched for is no longer than what begins with it, so that no stop that is not
    an occurrence comes in front of one. -/
theorem isLeast_stops (some' : s2 ≠ []) (least : IsLeast (occurrences s1 s2) k) :
    IsLeast (stops s1 s2) k := by
  have occurs : s2 <+: s1.drop k := least.1
  constructor
  · exact ⟨fun empty => some' (List.prefix_nil.mp (empty ▸ occurs)), .inl occurs⟩
  · rintro j ⟨rest, whole | part⟩
    · exact least.2 whole
    · have shorter := part.length_le
      have longer := occurs.length_le
      have pos := List.length_pos_iff.mpr rest
      simp only [List.length_drop] at shorter longer pos
      omega

/-- The suffixes of a string are what is left of it behind each place. -/
theorem exists_suffix_iff {holds : List UInt8 → Prop} :
    (∃ u, holds u ∧ u <:+ s1) ↔ ∃ k, holds (s1.drop k) := by
  constructor
  · rintro ⟨u, prop, suffix⟩
    exact ⟨s1.length - u.length, List.suffix_iff_eq_drop.mp suffix ▸ prop⟩
  · rintro ⟨k, prop⟩
    exact ⟨s1.drop k, prop, List.drop_suffix k s1⟩

theorem occurrences_eq_empty : occurrences s1 s2 = ∅ ↔ ¬ s2 <:+: s1 := by
  rw [List.infix_iff_prefix_suffix, exists_suffix_iff, Set.eq_empty_iff_forall_notMem, not_exists]
  rfl

/-- Without an occurrence the stops are the ends of the one string that the other one begins with. -/
theorem stops_eq_empty (absent : ¬ s2 <:+: s1) :
    stops s1 s2 = ∅ ↔ ∀ t, t <:+ s1 → t ≠ [] → ¬ t <+: s2 := by
  have nowhere : ∀ k, ¬ s2 <+: s1.drop k :=
    Set.eq_empty_iff_forall_notMem.mp (occurrences_eq_empty.mpr absent)
  have ends := not_congr (@exists_suffix_iff s1 fun t => t ≠ [] ∧ t <+: s2)
  simp only [not_exists, not_and] at ends
  simp only [stops, Set.eq_empty_iff_forall_notMem, Set.mem_ofPred_eq, nowhere, false_or, not_and,
    ← ends]
  constructor
  · intro none t suffix some' part
    exact none t ⟨some', part⟩ suffix
  · rintro none t ⟨some', part⟩ suffix
    exact none t suffix some' part

/-- The first stop is the first occurrence if there is one, or if there is no stop at all. -/
theorem firstAt_occurrences (some' : s2 ≠ []) (first : FirstAt a (stops s1 s2) r) :
    FirstAt a (occurrences s1 s2) r ↔
      s2 <:+: s1 ∨ ∀ t, t <:+ s1 → t ≠ [] → ¬ t <+: s2 := by
  by_cases occurs : s2 <:+: s1
  · have nonempty : (occurrences s1 s2).Nonempty := by
      rw [Set.nonempty_iff_ne_empty]
      exact fun empty => occurrences_eq_empty.mp empty occurs
    obtain ⟨k, least⟩ : ∃ k, IsLeast (occurrences s1 s2) k :=
      ⟨_, Nat.sInf_mem nonempty, fun _ => Nat.sInf_le⟩
    simp only [occurs, true_or, iff_true]
    rw [FirstAt.of_isLeast (isLeast_stops some' least)] at first
    exact (FirstAt.of_isLeast least).mpr first
  · rw [FirstAt.of_empty (occurrences_eq_empty.mpr occurs), or_iff_right occurs,
      ← stops_eq_empty occurs]
    constructor
    · rintro rfl
      exact first
    · intro empty
      exact (FirstAt.of_empty empty).mp first

/-- `strstr` gives the first occurrence, or `NULL` if there is none. -/
def FindsFirst (mem : Memory) (a b : Nat) (s1 s2 : CString) : Prop :=
  ∃ r, Returns (fun fuel => strstr fuel mem (some a) (some b)) r ∧
    FirstAt a (occurrences s1.chars s2.chars) r

/-- The search is exact if the string occurs, or if the other one does not end with a beginning of
    it. -/
theorem findsFirst_iff (mem : Memory) (a b : Nat) (s1 s2 : CString)
    (holds : Holds mem a (s1.chars ++ [0])) (holds' : Holds mem b (s2.chars ++ [0])) :
    FindsFirst mem a b s1 s2 ↔ s2.chars <:+: s1.chars ∨
      ∀ t, t <:+ s1.chars → t ≠ [] → ¬ t <+: s2.chars := by
  by_cases empty : s2.chars = []
  · rw [FindsFirst, empty]
    have length := strlen_returns holds' s2.nonzero
    rw [empty] at length
    refine iff_of_true ⟨some a, length.bind (Returns.const _), 0, rfl, ?_⟩ (.inl List.nil_infix)
    exact ⟨List.nil_prefix, fun k _ => Nat.zero_le k⟩
  · obtain ⟨r, returns, first⟩ := strstr_returns empty holds s1.nonzero holds' s2.nonzero
    rw [← firstAt_occurrences empty first]
    constructor
    · rintro ⟨r', returns', first'⟩
      rwa [returns.unique returns']
    · intro first'
      exact ⟨r, returns, first'⟩

/-- `"HD"` in front of `"HDD"`, at 0 and at 3. -/
def driveNames : Memory := store (fun _ => 0) 0 [0x48, 0x44, 0, 0x48, 0x44, 0x44, 0]

/-- `"HD"` is found in `"HDD"`. -/
theorem findsFirst_iff_driveNames :
    FindsFirst driveNames 3 0 ⟨[0x48, 0x44, 0x44], by simp⟩ ⟨[0x48, 0x44], by simp⟩ :=
  (findsFirst_iff driveNames 3 0 ⟨[0x48, 0x44, 0x44], by simp⟩ ⟨[0x48, 0x44], by simp⟩
    (by decide) (by decide)).mpr (.inl (by decide))

/-- `"HDD"` is found in `"HD"`. -/
theorem not_findsFirst : ¬ ∀ (mem : Memory) (a b : Nat) (s1 s2 : CString),
    Holds mem a (s1.chars ++ [0]) → Holds mem b (s2.chars ++ [0]) → FindsFirst mem a b s1 s2 := by
  intro finds
  obtain ⟨r, returns, first⟩ := finds driveNames 0 3 ⟨[0x48, 0x44], by simp⟩
    ⟨[0x48, 0x44, 0x44], by simp⟩ (by decide) (by decide)
  have least : IsLeast (stops [0x48, 0x44] [0x48, 0x44, 0x44]) 0 :=
    ⟨⟨by decide, .inr (by decide)⟩, fun k _ => Nat.zero_le k⟩
  obtain ⟨r', returns', stop⟩ := @strstr_returns 0 [0x48, 0x44] [0x48, 0x44, 0x44] driveNames 3
    (by decide) (by decide) (by simp) (by decide) (by simp)
  rw [FirstAt.of_isLeast least] at stop
  obtain ⟨k, zero, found⟩ : FirstAt 0 (occurrences [0x48, 0x44] [0x48, 0x44, 0x44]) (some 0) := by
    rwa [returns.unique returns', stop] at first
  obtain rfl : k = 0 := by omega
  exact absurd found.1 (show ¬ [0x48, 0x44, 0x44] <+: [0x48, 0x44] by decide)

end

end Sdx.Util
