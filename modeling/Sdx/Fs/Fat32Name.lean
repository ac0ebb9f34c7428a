import Mathlib.Data.List.TakeWhile
import Sdx.Fs.Fat32

/-! # Names of directory entries

A long name is kept in entries of thirteen characters before the short entry of the file, the
last characters first. `fat32_entry_name` computes the length of the name from the first of
these entries and puts the characters in place from the end. A character 0xff reads as
padding, so that a name that has one comes out shorter or not at all.
-/

namespace Sdx.Fs

open Sdx.Lib.Bytes

/-! ## The entries of a long name -/

/-- The characters of an LFN entry. -/
def lfnBytes (lfn : DirEntry) : List UInt8 :=
  (lfnChars lfn).1 ++ (lfnChars lfn).2.1 ++ (lfnChars lfn).2.2

/-- Characters with their padding: a zero, if there is room for it, and 0xff after it. -/
def lfnPadded (chars : List UInt8) : List UInt8 :=
  (chars ++ 0 :: List.replicate 13 0xff).take 13

/-- An LFN entry with the characters from `13 * i` on. -/
structure IsLfn (name : List UInt8) (i : Nat) (lfn : DirEntry) : Prop where
  attr : lfn.attr = fat32AttrLfn
  chars : lfnBytes lfn = lfnPadded ((name.drop (13 * i)).take 13)

/-- The entries for the first `13 * i` characters. -/
inductive LfnRun (name : List UInt8) : Nat → List DirEntry → Prop where
  | nil : LfnRun name 0 []
  | cons {i : Nat} {lfn : DirEntry} {rest : List DirEntry}
      (order : lfn.byte 0 = UInt8.ofNat (i + 1)) (is : IsLfn name i lfn)
      (run : LfnRun name i rest) : LfnRun name (i + 1) (lfn :: rest)

/-- The entries for a name; the first one has bit six of its order set. -/
inductive LfnSet (name : List UInt8) : List DirEntry → Prop where
  | mk {i : Nat} {lfn : DirEntry} {rest : List DirEntry}
      (order : lfn.byte 0 = UInt8.ofNat (64 + (i + 1))) (is : IsLfn name i lfn)
      (run : LfnRun name i rest) (low : 13 * i < name.length)
      (high : name.length ≤ 13 * (i + 1)) : LfnSet name (lfn :: rest)

/-- No character reads as padding. -/
def Plain (chars : List UInt8) : Prop := ∀ c ∈ chars, lfnEnds c = false

instance (chars : List UInt8) : Decidable (Plain chars) :=
  inferInstanceAs (Decidable (∀ c ∈ chars, lfnEnds c = false))

section

variable {chars pad : List UInt8} {lfn : DirEntry}

/-- Padding ends a section, wherever the section starts. -/
theorem takeWhile_padded {start' n : Nat} (ends : ∀ c ∈ pad, lfnEnds c = true) :
    (((chars ++ pad).drop start').take n).takeWhile (!lfnEnds ·) =
      ((chars.drop start').take n).takeWhile (!lfnEnds ·) := by
  rw [List.drop_append, List.take_append, List.takeWhile_append]
  have none' : ((pad.drop (start' - chars.length)).take (n - (chars.drop start').length)).takeWhile
      (!lfnEnds ·) = [] := by
    cases tail : (pad.drop (start' - chars.length)).take (n - (chars.drop start').length) with
    | nil => rfl
    | cons c cs =>
        have mem : c ∈ pad := by
          apply List.mem_of_mem_drop
          apply List.mem_of_mem_take
          rw [tail]
          exact List.mem_cons_self
        rw [List.takeWhile_cons_of_neg]
        rw [ends c mem]
        decide
  split
  case isTrue all =>
      have prefix' := List.takeWhile_prefix (!lfnEnds ·) (l := (chars.drop start').take n)
      rw [none', List.append_nil]
      exact (prefix'.eq_of_length all).symm
  case isFalse => rfl

/-- What `__fat32_lfn_read` makes of the characters of an entry, section by section. -/
def lfnKept (chars : List UInt8) : List UInt8 :=
  (chars.take 5).takeWhile (!lfnEnds ·) ++ ((chars.drop 5).take 6).takeWhile (!lfnEnds ·) ++
    ((chars.drop 11).take 2).takeWhile (!lfnEnds ·)

theorem lfnRead_eq_kept (bytes : lfnBytes lfn = lfnPadded chars) :
    fat32LfnRead lfn = lfnKept chars := by
  have ends : ∀ c ∈ 0 :: List.replicate 13 (0xff : UInt8), lfnEnds c = true := by
    intro c mem
    rcases List.mem_cons.mp mem with rfl | mem
    · rfl
    · rw [List.eq_of_mem_replicate mem]
      rfl
  have first : (lfnChars lfn).1 = (lfnBytes lfn).take 5 := rfl
  have mid : (lfnChars lfn).2.1 = ((lfnBytes lfn).drop 5).take 6 := rfl
  have last : (lfnChars lfn).2.2 = ((lfnBytes lfn).drop 11).take 2 := rfl
  have start := @takeWhile_padded chars _ 0 5 ends
  rw [List.drop_zero, List.drop_zero] at start
  change (lfnChars lfn).1.takeWhile _ ++ (lfnChars lfn).2.1.takeWhile _ ++
    (lfnChars lfn).2.2.takeWhile _ = _
  rw [first, mid, last, bytes, lfnPadded, List.take_take, List.drop_take, List.drop_take,
    List.take_take, List.take_take]
  change (List.take 5 _).takeWhile _ ++ (List.take 6 _).takeWhile _ ++
    (List.take 2 _).takeWhile _ = _
  rw [start, takeWhile_padded ends, takeWhile_padded ends, lfnKept]

theorem lfnKept_parts (short : chars.length ≤ 13) :
    chars.take 5 ++ (chars.drop 5).take 6 ++ (chars.drop 11).take 2 = chars := by
  have last : (chars.drop 11).take 2 = chars.drop 11 :=
    List.take_of_length_le (by rw [List.length_drop]; omega)
  have rest : (chars.drop 5).take 6 ++ chars.drop 11 = chars.drop 5 := by
    have split' := List.take_append_drop 6 (chars.drop 5)
    rwa [List.drop_drop] at split'
  rw [last, List.append_assoc, rest, List.take_append_drop]

theorem takeWhile_plain (plain : Plain chars) : chars.takeWhile (!lfnEnds ·) = chars := by
  rw [List.takeWhile_eq_self_iff]
  intro c mem
  rw [plain c mem]
  rfl

/-- Of plain characters all are kept. -/
theorem lfnKept_plain (short : chars.length ≤ 13) (plain : Plain chars) : lfnKept chars = chars := by
  have first : Plain (chars.take 5) := fun c mem => plain c (List.mem_of_mem_take mem)
  have mid : Plain ((chars.drop 5).take 6) := fun c mem =>
    plain c (List.mem_of_mem_drop (List.mem_of_mem_take mem))
  have last : Plain ((chars.drop 11).take 2) := fun c mem =>
    plain c (List.mem_of_mem_drop (List.mem_of_mem_take mem))
  rw [lfnKept, takeWhile_plain first, takeWhile_plain mid, takeWhile_plain last,
    lfnKept_parts short]

theorem length_takeWhile_le : (chars.takeWhile (!lfnEnds ·)).length ≤ chars.length :=
  (List.takeWhile_prefix _).length_le

theorem plain_of_length (full : (chars.takeWhile (!lfnEnds ·)).length = chars.length) :
    Plain chars := by
  have self := (List.takeWhile_prefix (!lfnEnds ·) (l := chars)).eq_of_length full
  rw [List.takeWhile_eq_self_iff] at self
  intro c mem
  simpa using self c mem

theorem length_lfnKept_le (short : chars.length ≤ 13) : (lfnKept chars).length ≤ chars.length := by
  have parts := congrArg List.length (lfnKept_parts short)
  have first := @length_takeWhile_le (chars.take 5)
  have mid := @length_takeWhile_le ((chars.drop 5).take 6)
  have last := @length_takeWhile_le ((chars.drop 11).take 2)
  rw [lfnKept]
  rw [List.length_append, List.length_append] at parts ⊢
  omega

/-- When all characters are kept they are plain. -/
theorem plain_of_kept (short : chars.length ≤ 13)
    (full : (lfnKept chars).length = chars.length) : Plain chars := by
  have whole := lfnKept_parts short
  have parts := congrArg List.length whole
  have first := @length_takeWhile_le (chars.take 5)
  have mid := @length_takeWhile_le ((chars.drop 5).take 6)
  have last := @length_takeWhile_le ((chars.drop 11).take 2)
  rw [lfnKept] at full
  rw [List.length_append, List.length_append] at parts full
  have plainFirst := plain_of_length (show _ = (chars.take 5).length by omega)
  have plainMid := plain_of_length (show _ = ((chars.drop 5).take 6).length by omega)
  have plainLast := plain_of_length (show _ = ((chars.drop 11).take 2).length by omega)
  intro c mem
  rw [← whole, List.mem_append, List.mem_append] at mem
  rcases mem with (inFirst | inMid) | inLast
  · exact plainFirst c inFirst
  · exact plainMid c inMid
  · exact plainLast c inLast

end

/-! ## Appending -/

section

variable {size : Int} {name s nameIndex : Nat} {mem : Memory} {cs : List UInt8}

theorem nameCheck_fits (small : s ≤ nameMax) (room : (s : Int) ≤ size) :
    nameCheck size s = none := by
  rw [nameCheck, if_neg (by omega), if_neg (by omega)]

theorem nameCheck_over (beyond : nameMax < s ∨ size < (s : Int)) :
    ∃ err, nameCheck size s = some err ∧ err < 0 := by
  unfold nameCheck
  split
  case isTrue => exact ⟨_, rfl, by decide⟩
  case isFalse short =>
      rw [if_pos (by omega)]
      exact ⟨_, rfl, by decide⟩

theorem nameAppend_fits (small : nameIndex + cs.length ≤ nameMax)
    (room : (nameIndex + cs.length : Int) ≤ size) :
    nameAppend size name nameIndex mem cs =
      (((nameIndex + cs.length : Nat) : Int), store mem (name + nameIndex) cs) := by
  induction cs generalizing nameIndex mem with
  | nil => rw [store_nil]; rfl
  | cons c cs ih =>
      rw [List.length_cons] at small room
      rw [nameAppend, nameCheck_fits (by omega) (by omega)]
      have join := @store_append mem (name + nameIndex) [c] cs
      rw [List.length_singleton, List.singleton_append, Nat.add_assoc] at join
      rw [ih (by omega) (by omega), List.length_cons, join, Nat.add_right_comm, Nat.add_assoc]

theorem nameAppend_over (some' : cs ≠ [])
    (beyond : nameMax < nameIndex + cs.length ∨ size < (nameIndex + cs.length : Int)) :
    (nameAppend size name nameIndex mem cs).1 < 0 := by
  induction cs generalizing nameIndex mem with
  | nil => exact absurd rfl some'
  | cons c cs ih =>
      rw [List.length_cons] at beyond
      rw [nameAppend]
      by_cases fits : nameIndex + 1 ≤ nameMax ∧ ((nameIndex + 1 : Nat) : Int) ≤ size
      · rw [nameCheck_fits fits.1 fits.2]
        have more : cs ≠ [] := by
          rintro rfl
          rw [List.length_nil] at beyond
          omega
        exact ih more (by omega)
      · obtain ⟨err, check, negative⟩ := @nameCheck_over size (nameIndex + 1) (by omega)
        rw [check]
        exact negative

end

/-! ## Decoding a long name -/

/-- The number of characters read from the entries. -/
def lfnsKept (entries : List DirEntry) : Nat :=
  (entries.map fun lfn => (fat32LfnRead lfn).length).sum

/-- Where the name ends, from what is left of `name_index`. -/
def nameEnd (total index : Nat) : Nat := if index = 0 then total else index

section

variable {size : Int} {name i total dropped : Nat} {mem : Memory} {chars : List UInt8}
  {lfn : DirEntry} {entries missing rest : List DirEntry}

theorem lfn_order (small : i < 20) (order : lfn.byte 0 = UInt8.ofNat (i + 1)) :
    lfn.isLast = false ∧ lfn.isUnused = false ∧ fat32LfnIsLast lfn = false := by
  have all : ∀ i, i < 20 → (UInt8.ofNat (i + 1) == 0) = false ∧
      (UInt8.ofNat (i + 1) == 0xe5) = false ∧
      ((UInt8.ofNat (i + 1) >>> 6) &&& 1 != 0) = false := by decide
  rw [DirEntry.isLast, DirEntry.isUnused, fat32LfnIsLast, order]
  exact all i small

theorem lfn_order_first (small : i < 20) (order : lfn.byte 0 = UInt8.ofNat (64 + (i + 1))) :
    lfn.isLast = false ∧ lfn.isUnused = false ∧ fat32LfnIsLast lfn = true ∧
      fat32LfnOrder lfn = i + 1 := by
  have all : ∀ i, i < 20 → (UInt8.ofNat (64 + (i + 1)) == 0) = false ∧
      (UInt8.ofNat (64 + (i + 1)) == 0xe5) = false ∧
      ((UInt8.ofNat (64 + (i + 1)) >>> 6) &&& 1 != 0) = true ∧
      (UInt8.ofNat (64 + (i + 1)) &&& 0b11111).toNat = i + 1 := by decide
  rw [DirEntry.isLast, DirEntry.isUnused, fat32LfnIsLast, fat32LfnOrder, order]
  exact all i small

theorem IsLfn.read (is : IsLfn chars i lfn) :
    fat32LfnRead lfn = lfnKept ((chars.drop (13 * i)).take 13) :=
  lfnRead_eq_kept is.chars

theorem IsLfn.length_le (is : IsLfn chars i lfn) :
    (fat32LfnRead lfn).length ≤ ((chars.drop (13 * i)).take 13).length := by
  rw [is.read]
  exact length_lfnKept_le (List.length_take_le ..)

theorem LfnRun.kept_le (run : LfnRun chars i entries) : lfnsKept entries ≤ 13 * i := by
  induction run with
  | nil => exact Nat.le_refl 0
  | cons order is run ih =>
      have here := is.length_le
      rw [List.length_take] at here
      simp only [lfnsKept, List.map_cons, List.sum_cons] at ih ⊢
      omega

/-- One entry of a run is copied to its place. -/
theorem parseEntry_lfn (is : IsLfn chars i lfn) (total_ne : total ≠ 0)
    (small : 13 * (i + 1) + dropped ≤ nameMax)
    (room : ((13 * (i + 1) + dropped : Nat) : Int) ≤ size) :
    parseEntry size name total (13 * (i + 1) + dropped) mem lfn =
      .more total (nameEnd total (13 * i + (dropped + (13 - (fat32LfnRead lfn).length))))
        (store mem (name + (13 * i + (dropped + (13 - (fat32LfnRead lfn).length))))
          (fat32LfnRead lfn)) := by
  have short := is.length_le
  rw [List.length_take] at short
  have index : (13 * (i + 1) + dropped + (2 ^ 16 - (fat32LfnRead lfn).length)) % 2 ^ 16 =
      13 * i + (dropped + (13 - (fat32LfnRead lfn).length)) := by
    unfold nameMax at small
    omega
  have back : 13 * i + (dropped + (13 - (fat32LfnRead lfn).length)) +
      (fat32LfnRead lfn).length = 13 * (i + 1) + dropped := by omega
  rw [parseEntry, if_neg (by rw [is.attr]; decide)]
  simp only [if_neg total_ne, index, back, nameCheck_fits small room]
  rfl

/-- The entries of a run, after those for the end of the name. -/
theorem nextEntryName_run (run : LfnRun chars i entries) (full : 13 * i ≤ chars.length)
    (long : chars.length < nameMax) (total_ne : total ≠ 0) (small : 13 * i + dropped ≤ nameMax)
    (room : ((13 * i + dropped : Nat) : Int) ≤ size) :
    ∃ mem', nextEntryName size name total (nameEnd total (13 * i + dropped)) mem
        (entries ++ rest) =
      nextEntryName size name total (nameEnd total (dropped + (13 * i - lfnsKept entries)))
        mem' rest ∧
      (dropped = 0 → lfnsKept entries = 13 * i → Plain (chars.take (13 * i)) ∧
        mem' = store mem name (chars.take (13 * i))) := by
  induction run generalizing dropped mem with
  | nil =>
      refine ⟨mem, ?_, fun _ _ => ⟨fun c mem => ?_, ?_⟩⟩
      · rw [Nat.mul_zero, Nat.zero_add, Nat.zero_sub, Nat.add_zero, List.nil_append]
      · rw [Nat.mul_zero, List.take_zero] at mem
        cases mem
      · rw [Nat.mul_zero, List.take_zero, store_nil]
  | @cons i lfn entries order is run ih =>
      have chunk := is.length_le
      have below := run.kept_le
      obtain ⟨notLast, used, -⟩ := lfn_order (by unfold nameMax at long; omega) order
      obtain ⟨mem', walk, contents⟩ := @ih (dropped + (13 - (fat32LfnRead lfn).length))
        (store mem (name + (13 * i + (dropped + (13 - (fat32LfnRead lfn).length))))
          (fat32LfnRead lfn)) (by omega) (by omega) (by omega)
      rw [List.length_take, List.length_drop] at chunk
      have sum : lfnsKept (lfn :: entries) = (fat32LfnRead lfn).length + lfnsKept entries := by
        rw [lfnsKept, List.map_cons, List.sum_cons]
        rfl
      refine ⟨mem', ?_, ?_⟩
      · have here : nameEnd total (13 * (i + 1) + dropped) = 13 * (i + 1) + dropped :=
          if_neg (by omega)
        have left : dropped + (13 - (fat32LfnRead lfn).length) + (13 * i - lfnsKept entries) =
            dropped + (13 * (i + 1) - lfnsKept (lfn :: entries)) := by omega
        rw [here, List.cons_append, nextEntryName, notLast, used,
          parseEntry_lfn is total_ne small room]
        simp only [Bool.false_eq_true, if_false]
        rw [walk, left]
      · intro none' all
        have whole : (fat32LfnRead lfn).length = 13 := by omega
        obtain ⟨plain, stored⟩ := contents (by omega) (by omega)
        have length : ((chars.drop (13 * i)).take 13).length = 13 := by
          rw [List.length_take, List.length_drop]
          omega
        have plainHere : Plain ((chars.drop (13 * i)).take 13) := by
          apply plain_of_kept (Nat.le_of_eq length)
          rw [← is.read, whole, length]
        have read : fat32LfnRead lfn = (chars.drop (13 * i)).take 13 := by
          rw [is.read]
          exact lfnKept_plain (Nat.le_of_eq length) plainHere
        have parts : chars.take (13 * (i + 1)) =
            chars.take (13 * i) ++ (chars.drop (13 * i)).take 13 := by
          rw [Nat.mul_succ, List.take_add]
        have start : (chars.take (13 * i)).length = 13 * i := by
          rw [List.length_take]
          omega
        rw [parts]
        constructor
        · intro c mem
          rcases List.mem_append.mp mem with before | within
          · exact plain c before
          · exact plainHere c within
        · have join := @store_append mem name (chars.take (13 * i))
            ((chars.drop (13 * i)).take 13)
          rw [start] at join
          rw [stored, none', whole, read, ← join]
          exact store_comm (by rw [start]; omega)

/-- The first entry of a name: its characters go to the end, if the whole name has room. -/
theorem parseEntry_first (order : lfn.byte 0 = UInt8.ofNat (64 + (i + 1))) (is : IsLfn chars i lfn)
    (small : i < 20) :
    parseEntry size name 0 0 mem lfn =
      if 13 * i + (fat32LfnRead lfn).length = 0 then .more 0 0 mem
      else
        match nameCheck size (13 * i + (fat32LfnRead lfn).length) with
        | some err => .done err mem
        | none => .more (13 * i + (fat32LfnRead lfn).length)
            (nameEnd (13 * i + (fat32LfnRead lfn).length) (13 * i))
            (store mem (name + 13 * i) (fat32LfnRead lfn)) := by
  have short := is.length_le
  rw [List.length_take] at short
  obtain ⟨-, -, last, number⟩ := lfn_order_first small order
  have size' : fat32LfnCalcSize lfn (fat32LfnRead lfn).length =
      13 * i + (fat32LfnRead lfn).length := by
    rw [fat32LfnCalcSize, last, number, fat32CharsPerLfn]
    simp only [Bool.not_true, Bool.false_eq_true, if_false]
    rw [if_neg (by omega)]
    omega
  have index : (13 * i + (fat32LfnRead lfn).length + (2 ^ 16 - (fat32LfnRead lfn).length)) %
      2 ^ 16 = 13 * i := by omega
  rw [parseEntry, if_neg (by rw [is.attr]; decide)]
  simp only [if_true, size', index]
  split
  case isTrue none' => rw [none']
  case isFalse => rfl

/-- Without the first entry of its set an LFN entry is passed over. -/
theorem parseEntry_stray (attr : lfn.attr = fat32AttrLfn) (notFirst : fat32LfnIsLast lfn = false) :
    parseEntry size name 0 0 mem lfn = .more 0 0 mem := by
  have none' : fat32LfnCalcSize lfn (fat32LfnRead lfn).length = 0 := by
    rw [fat32LfnCalcSize, notFirst]
    rfl
  rw [parseEntry, if_neg (by rw [attr]; decide)]
  simp only [none', if_true]

theorem nextEntryName_stray (run : LfnRun chars i (entries ++ missing)) (small : i ≤ 20) :
    nextEntryName size name 0 0 mem (entries ++ rest) = nextEntryName size name 0 0 mem rest := by
  induction entries generalizing i with
  | nil => rfl
  | cons lfn entries ih =>
      cases run with
      | cons order is run =>
          obtain ⟨notLast, used, notFirst⟩ := lfn_order (by omega) order
          rw [List.cons_append, nextEntryName, notLast, used, parseEntry_stray is.attr notFirst]
          exact ih run (by omega)

/-- The entries for the end of a run are copied to their places. -/
theorem nextEntryName_part (run : LfnRun chars i (entries ++ missing)) (total_ne : total ≠ 0)
    (small : 13 * i + dropped ≤ nameMax) (room : ((13 * i + dropped : Nat) : Int) ≤ size) :
    ∃ index mem', nextEntryName size name total (nameEnd total (13 * i + dropped)) mem
        (entries ++ rest) = nextEntryName size name total index mem' rest := by
  induction entries generalizing i dropped mem with
  | nil => exact ⟨_, mem, rfl⟩
  | cons lfn entries ih =>
      cases run with
      | @cons i _ _ order is run =>
          obtain ⟨notLast, used, -⟩ := lfn_order (by unfold nameMax at small; omega) order
          obtain ⟨index, mem', walk⟩ := @ih i (dropped + (13 - (fat32LfnRead lfn).length))
            (store mem (name + (13 * i + (dropped + (13 - (fat32LfnRead lfn).length))))
              (fat32LfnRead lfn)) run (by omega) (by omega)
          have here : nameEnd total (13 * (i + 1) + dropped) = 13 * (i + 1) + dropped :=
            if_neg (by omega)
          refine ⟨index, mem', ?_⟩
          rw [here, List.cons_append, nextEntryName, notLast, used,
            parseEntry_lfn is total_ne small room]
          simp only [Bool.false_eq_true, if_false]
          exact walk

end

/-! ## Short entries -/

/-- A short entry that is in use ends a name. -/
structure ClosesName (entry : DirEntry) : Prop where
  notLast : entry.isLast = false
  used : entry.isUnused = false
  short : entry.attr ≠ fat32AttrLfn

namespace ClosesName

variable {size : Int} {name total index : Nat} {mem : Memory} {entry : DirEntry}
  {rest : List DirEntry}

theorem parseEntry_eq (closes : ClosesName entry) :
    parseEntry size name total index mem entry =
      .done (nameAppend size name index mem
          ((if index ≠ 0 then [] else shortChars 0 entry.name) ++ [0])).1
        (nameAppend size name index mem
          ((if index ≠ 0 then [] else shortChars 0 entry.name) ++ [0])).2 := by
  rw [parseEntry, if_pos closes.short]

theorem nextEntryName_eq (closes : ClosesName entry) :
    nextEntryName size name total index mem (entry :: rest) =
      some ⟨(nameAppend size name index mem
          ((if index ≠ 0 then [] else shortChars 0 entry.name) ++ [0])).1,
        (nameAppend size name index mem
          ((if index ≠ 0 then [] else shortChars 0 entry.name) ++ [0])).2, entry :: rest⟩ := by
  rw [nextEntryName, closes.notLast, closes.used, closes.parseEntry_eq]
  rfl

theorem entryName_eq (closes : ClosesName entry) :
    fat32EntryName size name mem (entry :: rest) =
      some ⟨(nameAppend size name 0 mem (shortChars 0 entry.name ++ [0])).1,
        (nameAppend size name 0 mem (shortChars 0 entry.name ++ [0])).2, entry :: rest⟩ := by
  rw [fat32EntryName, closes.parseEntry_eq]
  rfl

end ClosesName

/-- A short entry that is in use. -/
structure ShortEntry where
  entry : DirEntry
  named : ∀ c ∈ entry.name, c ≠ 0
  used : entry.isUnused = false
  short : entry.attr ≠ fat32AttrLfn

namespace ShortEntry

variable {size : Int} {name total index : Nat} {mem : Memory} {rest : List DirEntry}

/-- The name that is read from the entry. -/
def shortName (short : ShortEntry) : List UInt8 := shortChars 0 short.entry.name

theorem notLast (short : ShortEntry) : short.entry.isLast = false := by
  have first : short.entry.byte 0 ∈ short.entry.name := by
    rw [DirEntry.name, List.mem_take_iff_getElem]
    exact ⟨0, by simp, by simp [DirEntry.byte]⟩
  rw [DirEntry.isLast, beq_eq_false_iff_ne]
  exact short.named _ first

theorem length_shortChars_le {i : Nat} {cs : List UInt8} :
    (shortChars i cs).length ≤ cs.length + if i ≤ 8 then 1 else 0 := by
  induction cs generalizing i with
  | nil => exact Nat.zero_le _
  | cons c cs ih =>
      have next := @ih (i + 1)
      rw [shortChars]
      split
      · exact Nat.zero_le _
      · rw [List.length_append, List.length_cons, List.length_cons]
        by_cases dot : i = 8
        · subst dot
          rw [if_neg (by decide)] at next
          rw [if_pos rfl, if_pos (Nat.le_refl 8), List.length_singleton]
          omega
        · rw [if_neg dot, List.length_nil]
          split at next <;> split <;> omega

theorem length_shortName_le (short : ShortEntry) : short.shortName.length ≤ 12 := by
  have bound := @length_shortChars_le 0 short.entry.name
  have eleven : short.entry.name.length = 11 := by simp [DirEntry.name]
  rw [eleven] at bound
  exact bound

theorem shortChars_ne_zero {i : Nat} {cs : List UInt8} (nonzero : ∀ c ∈ cs, c ≠ 0) :
    ∀ c ∈ shortChars i cs, c ≠ 0 := by
  induction cs generalizing i with
  | nil => exact fun c mem => absurd mem List.not_mem_nil
  | cons d cs ih =>
      intro c mem
      rw [shortChars] at mem
      split at mem
      · cases mem
      · rcases List.mem_append.mp mem with dot | mem
        · split at dot
          · rw [List.mem_singleton.mp dot]
            decide
          · cases dot
        · rcases List.mem_cons.mp mem with rfl | mem
          · exact nonzero c List.mem_cons_self
          · exact ih (fun c mem => nonzero c (List.mem_cons_of_mem _ mem)) c mem

theorem shortName_ne_zero (short : ShortEntry) : ∀ c ∈ short.shortName, c ≠ 0 :=
  shortChars_ne_zero short.named

theorem closes (short : ShortEntry) : ClosesName short.entry :=
  ⟨short.notLast, short.used, short.short⟩

/-- What is read of a short entry without a long name. -/
def decoded (short : ShortEntry) (size : Int) (name : Nat) (mem : Memory) (rest : List DirEntry) :
    EntryName :=
  let result := nameAppend size name 0 mem (short.shortName ++ [0])
  ⟨result.1, result.2, short.entry :: rest⟩

theorem entryName_eq (short : ShortEntry) :
    fat32EntryName size name mem (short.entry :: rest) = some (short.decoded size name mem rest) := by
  rw [short.closes.entryName_eq]
  rfl

theorem nextEntryName_zero (short : ShortEntry) :
    nextEntryName size name total 0 mem (short.entry :: rest) =
      some (short.decoded size name mem rest) := by
  rw [short.closes.nextEntryName_eq]
  rfl

theorem decoded_fits (short : ShortEntry) (room : (short.shortName.length + 1 : Int) ≤ size) :
    short.decoded size name mem rest =
      ⟨(short.shortName.length + 1 : Nat), store mem name (short.shortName ++ [0]),
        short.entry :: rest⟩ := by
  have small := short.length_shortName_le
  have length : (short.shortName ++ [0]).length = short.shortName.length + 1 := by simp
  rw [decoded, nameAppend_fits (by rw [length]; unfold nameMax; omega) (by rw [length]; omega),
    length]
  simp only [Nat.zero_add, Nat.add_zero]

theorem decoded_over (short : ShortEntry) (beyond : size < (short.shortName.length + 1 : Int)) :
    (short.decoded size name mem rest).value < 0 := by
  apply nameAppend_over (by simp)
  right
  simp only [List.length_append, List.length_singleton]
  omega

end ShortEntry

/-! ## Whole names -/

/-- A long name with its entries. -/
structure LongName where
  chars : List UInt8
  entries : List DirEntry
  length_lt : chars.length < nameMax
  nonzero : ∀ c ∈ chars, c ≠ 0
  set : LfnSet chars entries

/-- Nothing is read from the one entry of the name. -/
def LongName.Hidden (long : LongName) : Prop :=
  ∃ lfn, long.entries = [lfn] ∧ fat32LfnRead lfn = []

section

variable {size : Int} {name i : Nat} {mem mem' : Memory} {chars : List UInt8} {lfn : DirEntry}
  {entries rest rest' : List DirEntry}

theorem ClosesName.nextEntryName_end {entry : DirEntry} (closes : ClosesName entry)
    {total index : Nat} (some' : index ≠ 0) :
    nextEntryName size name total index mem (entry :: rest) =
      some ⟨(nameAppend size name index mem [0]).1, (nameAppend size name index mem [0]).2,
        entry :: rest⟩ := by
  rw [closes.nextEntryName_eq, if_pos some', List.nil_append]

/-- The walk over a set whose length fits: where the name ends, and what is in place before the
    terminator is put there. -/
theorem entryName_set {entry : DirEntry} (closes : ClosesName entry)
    (order : lfn.byte 0 = UInt8.ofNat (64 + (i + 1))) (is : IsLfn chars i lfn)
    (run : LfnRun chars i entries) (low : 13 * i < chars.length)
    (length_lt : chars.length < nameMax)
    (some' : 13 * i + (fat32LfnRead lfn).length ≠ 0)
    (room : ((13 * i + (fat32LfnRead lfn).length : Nat) : Int) ≤ size) :
    ∃ mem', fat32EntryName size name mem (lfn :: (entries ++ entry :: rest)) =
        some ⟨(nameAppend size name (nameEnd (13 * i + (fat32LfnRead lfn).length)
            (13 * i - lfnsKept entries)) mem' [0]).1,
          (nameAppend size name (nameEnd (13 * i + (fat32LfnRead lfn).length)
            (13 * i - lfnsKept entries)) mem' [0]).2, entry :: rest⟩ ∧
      (lfnsKept entries = 13 * i → Plain (chars.take (13 * i)) ∧
        mem' = store mem name (chars.take (13 * i) ++ fat32LfnRead lfn)) := by
  have chunk := is.length_le
  rw [List.length_take, List.length_drop] at chunk
  have twenty : i < 20 := by
    unfold nameMax at length_lt
    omega
  obtain ⟨mem', walk, contents⟩ := @nextEntryName_run size name i _ 0
    (store mem (name + 13 * i) (fat32LfnRead lfn)) chars entries (entry :: rest) run
    (Nat.le_of_lt low) length_lt some' (by omega) (by omega)
  refine ⟨mem', ?_, ?_⟩
  · have ends : nameEnd (13 * i + (fat32LfnRead lfn).length) (13 * i - lfnsKept entries) ≠ 0 := by
      unfold nameEnd
      split <;> omega
    rw [Nat.add_zero, Nat.zero_add] at walk
    rw [fat32EntryName, parseEntry_first order is twenty, if_neg some',
      nameCheck_fits (by omega) room]
    simp only
    rw [walk, closes.nextEntryName_end ends]
  · intro all
    obtain ⟨plain, stored⟩ := contents rfl all
    have start : (chars.take (13 * i)).length = 13 * i := by
      rw [List.length_take]
      omega
    have join := @store_append mem name (chars.take (13 * i)) (fat32LfnRead lfn)
    rw [start] at join
    refine ⟨plain, ?_⟩
    rw [stored, ← join]
    exact store_comm (by rw [start]; omega)

theorem Plain.kept_run (plain : Plain chars) (run : LfnRun chars i entries)
    (full : 13 * i ≤ chars.length) : lfnsKept entries = 13 * i := by
  induction run with
  | nil => rfl
  | @cons i lfn entries order is run ih =>
      have sum : lfnsKept (lfn :: entries) = (fat32LfnRead lfn).length + lfnsKept entries := by
        rw [lfnsKept, List.map_cons, List.sum_cons]
        rfl
      have here : Plain ((chars.drop (13 * i)).take 13) := fun c mem =>
        plain c (List.mem_of_mem_drop (List.mem_of_mem_take mem))
      have length : ((chars.drop (13 * i)).take 13).length = 13 := by
        rw [List.length_take, List.length_drop]
        omega
      rw [sum, ih (by omega), is.read, lfnKept_plain (Nat.le_of_eq length) here, length]
      omega

/-- The characters of the first entry are the end of the name. -/
theorem Plain.read_first (plain : Plain chars) (is : IsLfn chars i lfn)
    (high : chars.length ≤ 13 * (i + 1)) : fat32LfnRead lfn = chars.drop (13 * i) := by
  have whole : (chars.drop (13 * i)).take 13 = chars.drop (13 * i) :=
    List.take_of_length_le (by rw [List.length_drop]; omega)
  have here : Plain (chars.drop (13 * i)) := fun c mem => plain c (List.mem_of_mem_drop mem)
  rw [is.read, whole, lfnKept_plain (by rw [List.length_drop]; omega) here]

/-- Of plain characters a set keeps all. -/
theorem Plain.read_set (plain : Plain chars) (is : IsLfn chars i lfn) (run : LfnRun chars i entries)
    (low : 13 * i < chars.length) (high : chars.length ≤ 13 * (i + 1)) :
    fat32LfnRead lfn = chars.drop (13 * i) ∧ lfnsKept entries = 13 * i ∧
      13 * i + (fat32LfnRead lfn).length = chars.length ∧
      nameEnd (13 * i + (fat32LfnRead lfn).length) (13 * i - lfnsKept entries) = chars.length := by
  have read := plain.read_first is high
  have kept := plain.kept_run run (Nat.le_of_lt low)
  have length : 13 * i + (fat32LfnRead lfn).length = chars.length := by
    rw [read, List.length_drop]
    omega
  refine ⟨read, kept, length, ?_⟩
  rw [kept, Nat.sub_self, length]
  rfl

/-- The entries of a name of plain characters are read as the name. -/
theorem Plain.entryName {entry : DirEntry} (plain : Plain chars) (set : LfnSet chars entries)
    (length_lt : chars.length < nameMax) (closes : ClosesName entry)
    (room : (chars.length + 1 : Int) ≤ size) :
    fat32EntryName size name mem (entries ++ entry :: rest) =
      some ⟨(chars.length + 1 : Nat), store mem name (chars ++ [0]), entry :: rest⟩ := by
  cases set with
  | @mk i lfn entries order is run low high =>
      obtain ⟨read, kept, length, index⟩ := plain.read_set is run low high
      obtain ⟨mem', walk, contents⟩ := @entryName_set size name i mem chars lfn entries rest
        entry closes order is run low length_lt (by omega) (by rw [length]; omega)
      obtain ⟨-, stored⟩ := contents kept
      rw [read, List.take_append_drop] at stored
      rw [List.cons_append, walk, index, nameAppend_fits (Nat.succ_le_of_lt length_lt)
        (by rw [List.length_singleton]; omega), stored, store_append]
      rfl

end

namespace LongName

variable {size : Int} {name : Nat} {mem mem' : Memory} {long : LongName}
  {rest rest' : List DirEntry}

/-- A long name of plain characters is read as it was written. -/
theorem entryName_plain (plain : Plain long.chars) (short : ShortEntry)
    (room : (long.chars.length + 1 : Int) ≤ size) :
    fat32EntryName size name mem (long.entries ++ short.entry :: rest) =
      some ⟨(long.chars.length + 1 : Nat), store mem name (long.chars ++ [0]),
        short.entry :: rest⟩ :=
  plain.entryName long.set long.length_lt short.closes room

/-- A name from which nothing is read leaves the short name. -/
theorem entryName_hidden (hidden : long.Hidden) (short : ShortEntry) :
    fat32EntryName size name mem (long.entries ++ short.entry :: rest) =
      some (short.decoded size name mem rest) := by
  obtain ⟨lfn, one, empty⟩ := hidden
  obtain ⟨chars, entries, length_lt, nonzero, set⟩ := long
  subst one
  cases set with
  | @mk i _ _ order is run low high =>
      cases run
      rw [List.cons_append, List.nil_append, fat32EntryName,
        parseEntry_first order is (by decide), empty]
      exact short.nextEntryName_zero

/-- A buffer that the name does not fit stops the decoding at the first entry of the set or at
    the short entry. -/
theorem entryName_over (plain : Plain long.chars) (short : ShortEntry)
    (beyond : size < (long.chars.length + 1 : Int)) :
    ∃ result, fat32EntryName size name mem (long.entries ++ short.entry :: rest) = some result ∧
      result.value < 0 ∧
        (result.entry = long.entries ++ short.entry :: rest ∧ size < long.chars.length ∨
          result.entry = short.entry :: rest ∧ long.chars.length ≤ size) := by
  obtain ⟨chars, entries, length_lt, nonzero, set⟩ := long
  change Plain chars at plain
  cases set with
  | @mk i lfn entries order is run low high =>
      obtain ⟨read, kept, length, index⟩ := plain.read_set is run low high
      simp only at beyond ⊢
      by_cases fits : (chars.length : Int) ≤ size
      · obtain ⟨mem', walk, -⟩ := @entryName_set size name i mem chars lfn entries rest _
          short.closes order is run low length_lt (by omega) (by rw [length]; omega)
        refine ⟨_, walk, nameAppend_over (by simp) (Or.inr ?_), Or.inr ⟨rfl, fits⟩⟩
        rw [index, List.length_singleton]
        omega
      · obtain ⟨err, check, negative⟩ := @nameCheck_over size chars.length (by omega)
        have twenty : i < 20 := by
          unfold nameMax at length_lt
          omega
        refine ⟨⟨err, mem, _⟩, ?_, negative, Or.inl ⟨rfl, Int.not_le.mp fits⟩⟩
        rw [List.cons_append, fat32EntryName, parseEntry_first order is twenty,
          if_neg (by omega), length, check]

/-- A long name that is read in full is plain, or nothing is read of it and the short name is
    the same. -/
theorem plain_or_hidden (short : ShortEntry) (room : (long.chars.length + 1 : Int) ≤ size)
    (read : fat32EntryName size name mem (long.entries ++ short.entry :: rest) =
      some ⟨(long.chars.length + 1 : Nat), mem', rest'⟩)
    (holds : Lib.Bytes.Holds mem' name (long.chars ++ [0])) :
    Plain long.chars ∨ long.Hidden ∧ short.shortName = long.chars := by
  obtain ⟨chars, entries, length_lt, nonzero, set⟩ := long
  change (chars.length + 1 : Int) ≤ size at room
  change Lib.Bytes.Holds mem' name (chars ++ [0]) at holds
  cases set with
  | @mk i lfn entries order is run low high =>
      have keptRun := run.kept_le
      have chunk := is.length_le
      rw [List.length_take, List.length_drop] at chunk
      by_cases some' : 13 * i + (fat32LfnRead lfn).length = 0
      · right
        obtain rfl : i = 0 := by omega
        have empty : fat32LfnRead lfn = [] := List.length_eq_zero_iff.mp (by omega)
        cases run
        have hidden : Hidden ⟨chars, [lfn], length_lt, nonzero, .mk order is .nil low high⟩ :=
          ⟨lfn, rfl, empty⟩
        rw [entryName_hidden hidden short, Option.some.injEq] at read
        refine ⟨hidden, ?_⟩
        by_cases fits : (short.shortName.length + 1 : Int) ≤ size
        · rw [short.decoded_fits fits, EntryName.mk.injEq] at read
          obtain ⟨value, stored, -⟩ := read
          have length : short.shortName.length + 1 = chars.length + 1 := by exact_mod_cast value
          rw [← stored] at holds
          have same := eq_of_holds_store holds (by simpa using length)
          exact List.append_cancel_right same
        · have negative := @ShortEntry.decoded_over size name mem rest short (by omega)
          rw [read] at negative
          change ((chars.length + 1 : Nat) : Int) < 0 at negative
          omega
      · left
        obtain ⟨mem₁, walk, contents⟩ := @entryName_set size name i mem chars lfn entries rest _
          short.closes order is run low length_lt some' (by omega)
        rw [List.cons_append, walk] at read
        have index_le : nameEnd (13 * i + (fat32LfnRead lfn).length) (13 * i - lfnsKept entries) ≤
            chars.length := by
          unfold nameEnd
          split <;> omega
        rw [nameAppend_fits (by rw [List.length_singleton]; omega)
          (by rw [List.length_singleton]; omega), Option.some.injEq, EntryName.mk.injEq] at read
        have index : nameEnd (13 * i + (fat32LfnRead lfn).length) (13 * i - lfnsKept entries) +
            1 = chars.length + 1 := Int.ofNat.inj read.1
        have all : lfnsKept entries = 13 * i ∧
            (fat32LfnRead lfn).length = chars.length - 13 * i := by
          unfold nameEnd at index
          split at index <;> omega
        have start := (contents all.1).1
        have tail : Plain ((chars.drop (13 * i)).take 13) := by
          apply plain_of_kept (List.length_take_le ..)
          rw [← is.read, all.2, List.length_take, List.length_drop]
          omega
        rw [List.take_of_length_le (by rw [List.length_drop]; omega)] at tail
        change Plain chars
        intro c mem
        rw [← List.take_append_drop (13 * i) chars] at mem
        rcases List.mem_append.mp mem with before | after
        · exact start c before
        · exact tail c after

end LongName

end Sdx.Fs
