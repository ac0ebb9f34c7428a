import Sdx.Lib.Fuel
import Sdx.Lib.Numeral
import Sdx.Base
import Sdx.Util.Str

/-! # Printing numbers (`util/string.c`, `util/math.c`)

The digits of a number are written with the lowest one first, and the string is then turned around
in place. `abs` is used for the signed and for the unsigned numerals.
-/

namespace Sdx.Util

open Sdx.Lib Sdx.Lib.Bytes

/-- `abs`. The negation of the least number is itself. -/
def abs (val : BitVec 64) : Nat := if 0 ≤ val.toInt then val.toNat else (-val).toNat

/-- The loop of `strlen`. -/
def strlenLoop (mem : Memory) (str : Nat) : Nat → Nat → Option Nat
  | 0, _ => none
  | fuel + 1, len => if mem (str + len) ≠ 0 then strlenLoop mem str fuel (len + 1) else some len

/-- `strlen`. -/
def strlen (fuel : Nat) (mem : Memory) : Option Nat → Option Nat
  | none => some 0
  | some str => strlenLoop mem str fuel 0

/-- The loop of `strrev`: `str` goes up and `indx`, counted from `strcp`, goes down. -/
def strrevLoop (strcp : Nat) : Nat → Memory → Nat → Nat → Option Memory
  | 0, _, _, _ => none
  | fuel + 1, mem, str, indx =>
      if str = strcp + indx then some mem
      else
        let c := mem str
        let mem := store mem str [mem (strcp + indx)]
        let mem := store mem (strcp + indx) [c]
        if str + 1 = strcp + indx then some mem else strrevLoop strcp fuel mem (str + 1) (indx - 1)

/-- `strrev`. -/
def strrev (fuel : Nat) (mem : Memory) : Option Nat → Option (Bool × Memory)
  | none => some (false, mem)
  | some str => do
      let indx ← strlen fuel mem (some str)
      if indx ≤ 1 then some (true, mem)
      else do
        let mem ← strrevLoop str fuel mem str (indx - 1)
        some (true, mem)

/-- The loop of `itou`, `itod` and `itoh`, each with its base and its digits: the memory, and `i`. -/
def itoLoop (base : Nat) (char : Nat → UInt8) (dst : Nat) :
    Nat → Memory → Nat → Nat → Option (Memory × Nat)
  | 0, _, _, _ => none
  | fuel + 1, mem, num, i =>
      let mem := store mem (dst + i) [char (num % base)]
      if num / base ≠ 0 then itoLoop base char dst fuel mem (num / base) (i + 1)
      else some (mem, i + 1)

/-- `d + '0'`. -/
def decimalChar (d : Nat) : UInt8 := UInt8.ofNat (d + 48)

/-- `hex_chars` of `itoh`. -/
def hexChars : List UInt8 :=
  [0x30, 0x31, 0x32, 0x33, 0x34, 0x35, 0x36, 0x37, 0x38, 0x39, 0x41, 0x42, 0x43, 0x44, 0x45, 0x46]

def hexChar (d : Nat) : UInt8 := hexChars.getD d 0

/-- `'-'`. -/
def minusChar : UInt8 := 0x2d

/-- `itou`: the number of characters, and the memory. -/
def itou (fuel : Nat) (mem : Memory) (val : BitVec 64) : Option Nat → Option (Nat × Memory)
  | none => some (0, mem)
  | some dst => do
      let (mem, i) ← itoLoop 10 decimalChar dst fuel mem (abs val) 0
      let mem := store mem (dst + i) [0]
      let i := i + 1
      let (_, mem) ← strrev fuel mem (some dst)
      some (i - 1, mem)

/-- `itod`. -/
def itod (fuel : Nat) (mem : Memory) (val : BitVec 64) : Option Nat → Option (Nat × Memory)
  | none => some (0, mem)
  | some dst => do
      let (mem, i) ← itoLoop 10 decimalChar dst fuel mem (abs val) 0
      let (mem, i) := if val.toInt < 0 then (store mem (dst + i) [minusChar], i + 1) else (mem, i)
      let mem := store mem (dst + i) [0]
      let i := i + 1
      let (_, mem) ← strrev fuel mem (some dst)
      some (i - 1, mem)

/-- `itoh`. -/
def itoh (fuel : Nat) (mem : Memory) (val : BitVec 64) : Option Nat → Option (Nat × Memory)
  | none => some (0, mem)
  | some dst => do
      let (mem, i) ← itoLoop 16 hexChar dst fuel mem val.toNat 0
      let mem := store mem (dst + i) [0]
      let i := i + 1
      let (_, mem) ← strrev fuel mem (some dst)
      some (i - 1, mem)

/-! ## Strings in memory -/

section

variable {mem : Memory} {str strcp dst n k : Nat} {chars : List UInt8} {c d : UInt8}

/-- The length of a string that ends with its zero. -/
theorem strlenLoop_returns (holds : Holds mem str (chars ++ [0])) (nonzero : ∀ c ∈ chars, c ≠ 0)
    (le : k ≤ chars.length) : Returns (fun fuel => strlenLoop mem str fuel k) chars.length := by
  refine holds.upToEnd (P := fun k => Returns (fun fuel => strlenLoop mem str fuel k) chars.length)
    nonzero (fun ends => ?_) (fun k below here some' ih => ?_) le
  · refine Returns.step (fun fuel => ?_) (Returns.const chars.length)
    rw [strlenLoop, if_neg (not_not_intro ends)]
  · refine Returns.step (fun fuel => ?_) ih
    rw [strlenLoop, here, if_pos some']

theorem strlen_returns (holds : Holds mem str (chars ++ [0])) (nonzero : ∀ c ∈ chars, c ≠ 0) :
    Returns (fun fuel => strlen fuel mem (some str)) chars.length :=
  strlenLoop_returns holds nonzero (Nat.zero_le _)

/-- The memory with the bytes from `lo` to `hi` turned around. -/
def turned (mem : Memory) (lo hi : Nat) : Memory :=
  fun x => if lo ≤ x ∧ x ≤ hi then mem (lo + hi - x) else mem x

theorem store_singleton {a x : Nat} : store mem a [c] x = if x = a then c else mem x := by
  split
  · next here =>
      subst here
      exact @store_inside mem x [c] 0 Nat.one_pos
  · next other =>
      apply store_outside
      rw [List.length_singleton]
      omega

/-- Turning around is exchanging the ends and turning around what is between them. -/
theorem turned_exchange {lo hi : Nat} (less : lo < hi) :
    turned (store (store mem lo [mem hi]) hi [mem lo]) (lo + 1) (hi - 1) = turned mem lo hi := by
  funext x
  simp only [turned, store_singleton]
  by_cases low : x = lo
  · subst low
    rw [if_neg (by omega), if_neg (by omega), if_pos rfl, if_pos (by omega)]
    congr 1
    omega
  by_cases high : x = hi
  · subst high
    rw [if_neg (by omega), if_pos rfl, if_pos (by omega)]
    congr 1
    omega
  by_cases between : lo < x ∧ x < hi
  · rw [if_pos (by omega), if_neg (by omega), if_neg (by omega), if_pos (by omega)]
    congr 1
    omega
  · rw [if_neg (by omega), if_neg high, if_neg low, if_neg (by omega)]

/-- The two ends meet, or pass each other when the string has an even length. -/
theorem strrevLoop_returns {lo hi : Nat} (le : lo ≤ hi) :
    Returns (fun fuel => strrevLoop strcp fuel mem (strcp + lo) hi)
      (turned mem (strcp + lo) (strcp + hi)) := by
  generalize width_eq : hi - lo = width
  induction width using Nat.strong_induction_on generalizing mem lo hi with
  | _ width ih =>
      by_cases meet : lo = hi
      · subst meet
        have same : turned mem (strcp + lo) (strcp + lo) = mem := by
          funext x
          rw [turned]
          split
          · congr 1
            omega
          · rfl
        rw [same]
        refine Returns.step (fun fuel => ?_) (Returns.const mem)
        rw [strrevLoop, if_pos rfl]
      have exchange := @turned_exchange mem (strcp + lo) (strcp + hi) (by omega)
      by_cases last : lo + 1 = hi
      · subst last
        have none_left : turned (store (store mem (strcp + lo) [mem (strcp + (lo + 1))])
            (strcp + (lo + 1)) [mem (strcp + lo)]) (strcp + lo + 1) (strcp + (lo + 1) - 1) =
            store (store mem (strcp + lo) [mem (strcp + (lo + 1))]) (strcp + (lo + 1))
              [mem (strcp + lo)] := by
          funext x
          rw [turned, if_neg (by omega)]
        rw [none_left] at exchange
        rw [← exchange]
        refine Returns.step (fun fuel => ?_) (Returns.const _)
        rw [strrevLoop, if_neg (by omega)]
        exact if_pos (by omega)
      · rw [← exchange]
        have rest := @ih (hi - 1 - (lo + 1)) (by omega)
          (store (store mem (strcp + lo) [mem (strcp + hi)]) (strcp + hi) [mem (strcp + lo)])
          (lo + 1) (hi - 1) (by omega) rfl
        rw [← Nat.add_assoc, ← Nat.add_sub_assoc (by omega)] at rest
        refine Returns.step (fun fuel => ?_) rest
        rw [strrevLoop, if_neg (by omega)]
        exact if_neg (by omega)

/-- A string is turned around. -/
theorem turned_store (some' : chars ≠ []) :
    turned (store mem str (chars ++ [0])) str (str + (chars.length - 1)) =
      store mem str (chars.reverse ++ [0]) := by
  have pos := List.length_pos_iff.mpr some'
  funext x
  rw [turned]
  by_cases inside : str ≤ x ∧ x ≤ str + (chars.length - 1)
  · obtain ⟨j, rfl⟩ := Nat.exists_eq_add_of_le inside.1
    rw [if_pos inside, show str + (str + (chars.length - 1)) - (str + j) =
      str + (chars.length - 1 - j) by omega, store_inside (by simp; omega),
      store_inside (by simp; omega), List.getElem_append_left (by omega),
      List.getElem_append_left (by simp; omega), List.getElem_reverse]
  · rw [if_neg inside]
    by_cases ends : x = str + chars.length
    · subst ends
      have behind := @store_inside mem str (chars.reverse ++ [0]) chars.length (by simp)
      rw [store_inside (by simp), behind, List.getElem_concat_length rfl,
        List.getElem_concat_length (List.length_reverse).symm]
    · rw [store_outside, store_outside] <;> simp <;> omega

theorem strrev_returns (nonzero : ∀ c ∈ chars, c ≠ 0) :
    Returns (fun fuel => strrev fuel (store mem str (chars ++ [0])) (some str))
      (true, store mem str (chars.reverse ++ [0])) := by
  have length := strlen_returns (@holds_store mem str _) nonzero
  by_cases short : chars.length ≤ 1
  · have same : chars.reverse = chars := by
      rcases chars with _ | ⟨c, _ | ⟨d, rest⟩⟩
      · rfl
      · rfl
      · simp at short
    rw [same]
    refine length.bind ?_
    simp only [if_pos short]
    exact Returns.const _
  · refine length.bind ?_
    simp only [if_neg short]
    rw [← turned_store (List.ne_nil_of_length_pos (by omega))]
    exact (strrevLoop_returns (Nat.zero_le _)).bind (Returns.const _)

end

/-! ## Numerals in memory -/

section

variable {base n dst i : Nat} {char : Nat → UInt8} {mem : Memory} {val : BitVec 64}

/-- The loop writes the digits, the lowest one first. -/
theorem itoLoop_returns (two : 2 ≤ base) :
    Returns (fun fuel => itoLoop base char dst fuel mem n i)
      (store mem (dst + i) ((lowDigits base n).map char), i + (lowDigits base n).length) := by
  induction n using Nat.strong_induction_on generalizing mem i with
  | _ n ih =>
      by_cases one : n < base
      · rw [lowDigits_of_lt one]
        refine Returns.step (fun fuel => ?_) (Returns.const _)
        simp [itoLoop, Nat.div_eq_of_lt one, Nat.mod_eq_of_lt one]
      · have le := Nat.not_lt.mp one
        have more := (Nat.div_pos le (by omega)).ne'
        have rest := @ih (n / base) (Nat.div_lt_self (by omega) two) (i + 1)
          (store mem (dst + i) [char (n % base)])
        have joined : store (store mem (dst + i) [char (n % base)]) (dst + (i + 1))
            ((lowDigits base (n / base)).map char) =
            store mem (dst + i) (char (n % base) :: (lowDigits base (n / base)).map char) :=
          store_append
        rw [joined] at rest
        rw [lowDigits_of_le two le, List.map_cons, List.length_cons, Nat.add_comm _ 1,
          ← Nat.add_assoc]
        refine Returns.step (fun fuel => ?_) rest
        rw [itoLoop, if_pos more]

/-- What follows the loop: the zero, and the turn. -/
theorem strrev_text {text : List UInt8} (nonzero : ∀ c ∈ text, c ≠ 0) :
    Returns (fun fuel => (strrev fuel (store (store mem dst text) (dst + text.length) [0])
      (some dst)).bind fun turned => some (text.length + 1 - 1, turned.2))
      (text.reverse.length, store mem dst (text.reverse ++ [0])) := by
  rw [store_append, List.length_reverse]
  exact (strrev_returns nonzero).bind (Returns.const _)

theorem decimalChar_ne_zero {d : Nat} (below : d < 10) : decimalChar d ≠ 0 := by
  interval_cases d <;> decide

theorem hexChar_ne_zero {d : Nat} (below : d < 16) : hexChar d ≠ 0 := by
  interval_cases d <;> decide

/-- The characters of the digits of a number. -/
theorem lowDigits_nonzero (two : 2 ≤ base) (nonzero : ∀ d < base, char d ≠ 0) :
    ∀ c ∈ (lowDigits base n).map char, c ≠ 0 := by
  intro c mem
  obtain ⟨d, digit, rfl⟩ := List.mem_map.mp mem
  exact nonzero d ((isNumeral_numeral two).digit d (List.mem_reverse.mpr digit))

/-- `f` writes the text and its zero, and returns the length of the text. -/
def Writes (f : Nat → Memory → Option Nat → Option (Nat × Memory)) (text : List UInt8) : Prop :=
  ∀ mem dst, Returns (fun fuel => f fuel mem (some dst)) (text.length, store mem dst (text ++ [0]))

theorem reverse_lowDigits : ((lowDigits base n).map char).reverse = (numeral base n).map char := by
  rw [← List.map_reverse, numeral]

theorem length_numeral : (numeral base n).length = (lowDigits base n).length := List.length_reverse

/-- The digits of a number without a sign. -/
theorem ito_returns (two : 2 ≤ base) (nonzero : ∀ d < base, char d ≠ 0) :
    Returns (fun fuel => (itoLoop base char dst fuel mem n 0).bind fun digits =>
      (strrev fuel (store digits.1 (dst + digits.2) [0]) (some dst)).bind fun turned =>
        some (digits.2 + 1 - 1, turned.2))
      (((numeral base n).map char).length, store mem dst ((numeral base n).map char ++ [0])) := by
  have digits := @itoLoop_returns base n dst 0 char mem two
  have turned := @strrev_text dst mem _ (@lowDigits_nonzero base n char two nonzero)
  rw [reverse_lowDigits, List.length_map] at turned
  rw [Nat.zero_add, Nat.add_zero] at digits
  exact digits.bind turned

theorem itou_writes :
    Writes (fun fuel mem => itou fuel mem val) ((numeral 10 (abs val)).map decimalChar) :=
  fun _ _ => ito_returns (by decide) fun _ => decimalChar_ne_zero

theorem itoh_writes :
    Writes (fun fuel mem => itoh fuel mem val) ((numeral 16 val.toNat).map hexChar) :=
  fun _ _ => ito_returns (by decide) fun _ => hexChar_ne_zero

/-- The sign of a number. -/
def signText (val : BitVec 64) : List UInt8 := if val.toInt < 0 then [minusChar] else []

theorem itod_writes :
    Writes (fun fuel mem => itod fuel mem val)
      (signText val ++ (numeral 10 (abs val)).map decimalChar) := by
  intro mem dst
  by_cases negative : val.toInt < 0
  · have digits := @itoLoop_returns 10 (abs val) dst 0 decimalChar mem (by decide)
    have nonzero := @lowDigits_nonzero 10 (abs val) decimalChar (by decide) fun _ => decimalChar_ne_zero
    have turned := @strrev_text dst mem ((lowDigits 10 (abs val)).map decimalChar ++ [minusChar]) (by
      intro c mem
      obtain digit | minus := List.mem_append.mp mem
      · exact nonzero c digit
      · rw [List.mem_singleton.mp minus]
        decide)
    rw [List.reverse_append, reverse_lowDigits, ← store_append, List.length_append, List.length_map,
      List.length_singleton, List.reverse_singleton] at turned
    rw [Nat.zero_add, Nat.add_zero] at digits
    refine digits.bind ?_
    simp only [signText, if_pos negative]
    exact turned
  · have plain := @ito_returns 10 (abs val) dst decimalChar mem (by decide) fun _ =>
      decimalChar_ne_zero
    rw [signText, if_neg negative, List.nil_append]
    refine plain.congr fun fuel => ?_
    simp only [itod, if_neg negative]
    rfl

end

/-! ## The numerals of a value -/

/-- The value of a digit of a numeral in a base up to 16. -/
def digitValue (c : UInt8) : Nat := if c < 0x41 then c.toNat - 48 else c.toNat - 55

/-- The number that a numeral names. -/
def readNumeral (base : Nat) (text : List UInt8) : Nat :=
  Nat.ofDigits base (text.reverse.map digitValue)

/-- The number that a decimal numeral with its sign names. -/
def readSigned : List UInt8 → Int
  | [] => 0
  | c :: text => if c = minusChar then -(readNumeral 10 text : Int) else readNumeral 10 (c :: text)

/-- `itou` and `itoh` print a value as an unsigned number and `itod` prints it as a signed one, each
    by its numeral, which gives the number back. -/
structure PrintsNumber (val : BitVec 64) : Prop where
  unsigned : ∃ ds, IsNumeral 10 ds val.toNat ∧
    Writes (fun fuel mem => itou fuel mem val) (ds.map decimalChar) ∧
    readNumeral 10 (ds.map decimalChar) = val.toNat
  signed : ∃ ds, IsNumeral 10 ds val.toInt.natAbs ∧
    Writes (fun fuel mem => itod fuel mem val) (signText val ++ ds.map decimalChar) ∧
    readSigned (signText val ++ ds.map decimalChar) = val.toInt
  hex : ∃ ds, IsNumeral 16 ds val.toNat ∧
    Writes (fun fuel mem => itoh fuel mem val) (ds.map hexChar) ∧
    readNumeral 16 (ds.map hexChar) = val.toNat

section

variable {val : BitVec 64} {base n : Nat} {char : Nat → UInt8} {ds : List Nat}

theorem digitValue_decimalChar {d : Nat} (below : d < 10) : digitValue (decimalChar d) = d := by
  interval_cases d <;> decide

theorem digitValue_hexChar {d : Nat} (below : d < 16) : digitValue (hexChar d) = d := by
  interval_cases d <;> decide

/-- The digits are read back. -/
theorem map_digitValue (back : ∀ d < base, digitValue (char d) = d) (digit : ∀ d ∈ ds, d < base) :
    (ds.map char).map digitValue = ds := by
  rw [List.map_map]
  exact (List.map_congr_left fun d mem => back d (digit d mem)).trans (List.map_id' ds)

theorem readNumeral_eq (numeral : IsNumeral base ds n)
    (back : ∀ d < base, digitValue (char d) = d) : readNumeral base (ds.map char) = n := by
  rw [readNumeral, List.map_reverse, map_digitValue back numeral.digit, numeral.value]

/-- What is written is one text. -/
theorem Writes.unique {f : Nat → Memory → Option Nat → Option (Nat × Memory)}
    {text text' : List UInt8} (writes : Writes f text) (writes' : Writes f text') : text = text' := by
  have same := (writes (fun _ => 0) 0).unique (writes' (fun _ => 0) 0)
  obtain ⟨length, memory⟩ := Prod.mk.inj same
  have holds : Holds (store (fun _ => 0) 0 (text ++ [0])) 0 (text' ++ [0]) := by
    rw [memory]
    exact holds_store
  have equal := eq_of_holds_store holds (by simp [length])
  exact List.append_cancel_right equal

/-- The absolute value, also of the least number. -/
theorem abs_eq_natAbs : abs val = val.toInt.natAbs := by
  have lt := val.isLt
  rw [abs]
  split
  · next nonneg =>
      rw [BitVec.toInt_eq_toNat_cond] at nonneg ⊢
      split at nonneg <;> split <;> omega
  · next negative =>
      rw [BitVec.toInt_eq_toNat_cond] at negative ⊢
      rw [BitVec.toNat_neg]
      split at negative <;> split <;> omega

/-- As an unsigned number it is the value up to the least negative one. -/
theorem abs_eq_iff : abs val = val.toNat ↔ val.toNat ≤ 2 ^ 63 := by
  have lt := val.isLt
  rw [abs_eq_natAbs, BitVec.toInt_eq_toNat_cond]
  split <;> omega

theorem readSigned_eq (numeral : IsNumeral 10 ds val.toInt.natAbs) :
    readSigned (signText val ++ ds.map decimalChar) = val.toInt := by
  have value := readNumeral_eq numeral fun _ => digitValue_decimalChar
  rw [signText]
  split
  · next negative =>
      rw [List.singleton_append, readSigned, if_pos rfl, value]
      omega
  · next nonneg =>
      rw [List.nil_append]
      cases ds with
      | nil => exact absurd rfl numeral.nonempty
      | cons d ds =>
          have other : decimalChar d ≠ minusChar := by
            have below := numeral.digit d List.mem_cons_self
            interval_cases d <;> decide
          rw [List.map_cons] at value
          rw [List.map_cons, readSigned, if_neg other, value]
          omega

theorem isNumeral_abs : IsNumeral 10 (numeral 10 (abs val)) (abs val) :=
  isNumeral_numeral (by decide)

/-- What `itou` writes is read as the absolute value. -/
theorem readNumeral_itou {text : List UInt8}
    (writes : Writes (fun fuel mem => itou fuel mem val) text) : readNumeral 10 text = abs val := by
  rw [writes.unique itou_writes]
  exact readNumeral_eq isNumeral_abs fun _ => digitValue_decimalChar

/-- `itod` and `itoh` print every value; `itou` prints the values up to `2 ^ 63`, and of the others
    the digits without the sign that they would have. -/
theorem printsNumber_iff (val : BitVec 64) : PrintsNumber val ↔ val.toNat ≤ 2 ^ 63 := by
  rw [← abs_eq_iff]
  constructor
  · intro prints
    obtain ⟨ds, -, writes, value⟩ := prints.unsigned
    exact (readNumeral_itou writes).symm.trans value
  · intro same
    have hex : IsNumeral 16 (numeral 16 val.toNat) val.toNat := isNumeral_numeral (by decide)
    have unsigned : IsNumeral 10 (numeral 10 (abs val)) val.toNat := same ▸ isNumeral_abs
    have signed : IsNumeral 10 (numeral 10 (abs val)) val.toInt.natAbs := abs_eq_natAbs ▸ isNumeral_abs
    exact ⟨⟨_, unsigned, itou_writes, (readNumeral_itou itou_writes).trans same⟩,
      ⟨_, signed, itod_writes, readSigned_eq signed⟩,
      ⟨_, hex, itoh_writes, readNumeral_eq hex fun _ => digitValue_hexChar⟩⟩

end

/-- `itou` writes the greatest value as `"1"`. -/
theorem not_printsNumber : ¬∀ val, PrintsNumber val := by
  intro always
  obtain ⟨ds, -, writes, value⟩ := (always (BitVec.allOnes 64)).unsigned
  exact absurd ((readNumeral_itou writes).symm.trans value) (by decide)

end Sdx.Util
