import Sdx.Util.Number

/-! # Formatted printing (`util/printk.c`)

`vprintf` puts a number into a buffer on the stack before it prints it. The size of the buffer is
counted by `gd` or `gdu`, the characters come from `itod`, `itou` or `itoh`. Each buffer is a memory
of its own here; the sizes of the buffers and of the paddings are kept beside what is printed.
-/

namespace Sdx.Util

open Sdx.Lib Sdx.Lib.Bytes

/-- `gd`. The division of C drops the fraction. -/
def gd (val : Int) : Nat :=
  if val < 10 ∧ val ≥ 0 then 1
  else if val > -10 ∧ val < 0 then 2
  else 1 + gd (val.tdiv 10)
termination_by val.natAbs
decreasing_by
  rw [Int.natAbs_tdiv]
  exact Nat.div_lt_self (by omega) (by decide)

/-- `gdu`. -/
def gdu (val : Nat) : Nat := if val < 10 then 1 else 1 + gdu (val / 10)

/-- The loop of `pow`. -/
def powLoop (n r : Nat) : Nat → Nat
  | 0 => r
  | 1 => r
  | e + 2 => powLoop n (wrap64 (r * n)) (e + 1)

/-- `pow`. -/
def pow (n e : Nat) : Nat := if e = 0 then 1 else powLoop n n e

/-- What `vprintf` has left of its arguments and what it has printed, with the declared size and the
    bytes written of each buffer, and the width and the length of each number with a padding. -/
structure PrintState where
  args : List (BitVec 64)
  size : Nat
  out : List UInt8
  buffers : List (Nat × Nat)
  pads : List (Nat × Nat)

/-- `va_arg`; each argument takes eight bytes. -/
def PrintState.vaArg (st : PrintState) : Option (BitVec 64 × PrintState) :=
  match st.args with
  | [] => none
  | arg :: args => some (arg, { st with args })

/-- Characters are printed and counted. -/
def PrintState.print (st : PrintState) (text : List UInt8) : PrintState :=
  { st with size := wrap64 (st.size + text.length), out := st.out ++ text }

/-- The loop of `__print`: the characters from `i` on. -/
def printLoop (mem : Memory) (msg : Nat) : Nat → Nat → Option (List UInt8)
  | 0, _ => none
  | fuel + 1, i =>
      if mem (msg + i) = 0 then some []
      else (printLoop mem msg fuel (i + 1)).map fun text => mem (msg + i) :: text

/-- `__print`: the characters. -/
def print (fuel : Nat) (mem : Memory) : Option Nat → Option (List UInt8)
  | none => some []
  | some msg => printLoop mem msg fuel 0

/-- `__print_char`. -/
def printChar (c : UInt8) : List UInt8 := if c = 0 then [] else [c]

/-- `__print_pad`. -/
def printPad (size : Nat) : List UInt8 := List.replicate size '0'.toUInt8

/-- A number is written to a buffer of `declared` bytes by one of `itod`, `itou` and `itoh`, and is
    printed, filled up with zeros to a width if there is one. -/
def printNumber (fuel declared : Nat) (ito : Nat → Memory → Option Nat → Option (Nat × Memory))
    (width : Option Nat) (st : PrintState) : Option PrintState := do
  let (n, str) ← ito fuel (fun _ => 0) (some 0)
  let st := { st with buffers := (declared, n + 1) :: st.buffers }
  let st :=
    match width with
    | none => st
    | some width =>
        { st with pads := (width, n) :: st.pads }.print (printPad (sub64 width n))
  let text ← print fuel str (some 0)
  some (st.print text)

/-- A loop over `guid`: the value of `count` bytes, the lowest one at `gi`, and the next `gi`. -/
def guidSection (guid : Nat → UInt8) (next : Nat → Nat) : Nat → Nat → Nat → Nat → Nat × Nat
  | 0, _, gi, sectionVal => (sectionVal, gi)
  | count + 1, i, gi, sectionVal =>
      guidSection guid next count (i + 1) (next gi)
        (wrap64 (sectionVal + wrap64 (pow 256 i * (guid gi).toNat)))

/-- `%g`. The sections have their lowest byte in front up to the third, and then at their end. -/
def printGuid (fuel : Nat) (guid : Nat → UInt8) (st : PrintState) : Option PrintState := do
  let hex (sectionVal : Nat) (fuel : Nat) (str : Memory) := itoh fuel str (BitVec.ofNat 64 sectionVal)
  let (sectionVal, gi) := guidSection guid (· + 1) 4 0 0 0
  let st ← printNumber fuel 14 (hex sectionVal) (some 8) st
  let st := st.print (printChar '-'.toUInt8)
  let (sectionVal, gi) := guidSection guid (· + 1) 2 0 gi 0
  let st ← printNumber fuel 14 (hex sectionVal) (some 4) st
  let st := st.print (printChar '-'.toUInt8)
  let (sectionVal, gi) := guidSection guid (· + 1) 2 0 gi 0
  let st ← printNumber fuel 14 (hex sectionVal) (some 4) st
  let st := st.print (printChar '-'.toUInt8)
  let (sectionVal, _) := guidSection guid (· - 1) 2 0 (gi + 1) 0
  let st ← printNumber fuel 14 (hex sectionVal) (some 4) st
  let st := st.print (printChar '-'.toUInt8)
  let (sectionVal, _) := guidSection guid (· - 1) 6 0 15 0
  printNumber fuel 14 (hex sectionVal) (some 12) st

/-- A pointer argument. -/
def pointerArg (arg : BitVec 64) : Option Nat := if arg = 0 then none else some arg.toNat

/-- The character behind a `%`. -/
def vprintfConversion (fuel : Nat) (mem : Memory) (c : UInt8) (st : PrintState) :
    Option PrintState :=
  if c = 'd'.toUInt8 then do
    let (arg, st) ← st.vaArg
    let d := (arg.setWidth 32).signExtend 64
    printNumber fuel (gd d.toInt + 1) (fun fuel str => itod fuel str d) none st
  else if c = 'c'.toUInt8 then do
    let (arg, st) ← st.vaArg
    some (st.print (printChar (UInt8.ofBitVec (arg.setWidth 8))))
  else if c = 'l'.toUInt8 then do
    let (l, st) ← st.vaArg
    printNumber fuel (gd l.toInt + 1) (fun fuel str => itod fuel str l) none st
  else if c = 'u'.toUInt8 then do
    let (l, st) ← st.vaArg
    printNumber fuel (gd l.toInt + 1) (fun fuel str => itou fuel str l) none st
  else if c = 'x'.toUInt8 then do
    let (x, st) ← st.vaArg
    printNumber fuel (gdu x.toNat + 1) (fun fuel str => itoh fuel str x) none st
  else if c = 'p'.toUInt8 then do
    let (p, st) ← st.vaArg
    printNumber fuel (gdu p.toNat + 1) (fun fuel str => itoh fuel str p) (some 16) st
  else if c = 's'.toUInt8 then do
    let (arg, st) ← st.vaArg
    let text ← print fuel mem (pointerArg arg)
    some (st.print text)
  else if c = 'g'.toUInt8 then do
    let (guid, st) ← st.vaArg
    printGuid fuel (fun gi => mem (guid.toNat + gi)) st
  else some st

/-- The loop of `vprintf` over the format. -/
def vprintfLoop (fuel : Nat) (mem : Memory) : Bool → List UInt8 → PrintState → Option PrintState
  | _, [], st => some st
  | formatted, c :: fmt, st =>
      if !formatted && c = '%'.toUInt8 then vprintfLoop fuel mem true fmt st
      else if !formatted then vprintfLoop fuel mem false fmt (st.print [c])
      else do
        let st ← vprintfConversion fuel mem c st
        vprintfLoop fuel mem false fmt st

/-- `vprintf`; it returns `size`. -/
def vprintf (fuel : Nat) (mem : Memory) (fmt : CString) (args : List (BitVec 64)) :
    Option PrintState :=
  vprintfLoop fuel mem false fmt.chars ⟨args, 0, [], [], []⟩

/-! ## Counting digits -/

section

variable {val : BitVec 64} {n : Nat}

theorem gdu_eq : gdu n = (numeral 10 n).length := by
  fun_induction gdu n with
  | case1 n below => rw [length_numeral_of_lt below]
  | case2 n more ih =>
      rw [length_numeral_of_le (by decide) (Nat.not_lt.mp more), ih, Nat.add_comm]

theorem tdiv_ten_neg {val : Int} (some' : 10 ≤ val.natAbs) : val.tdiv 10 < 0 ↔ val < 0 := by
  obtain ⟨n, rfl | rfl⟩ := Int.eq_nat_or_neg val
  · rw [Int.tdiv_eq_ediv_of_nonneg (Int.natCast_nonneg n)]
    omega
  · rw [Int.neg_tdiv, Int.tdiv_eq_ediv_of_nonneg (Int.natCast_nonneg n)]
    omega

/-- `gd` counts the digits and the sign. -/
theorem gd_eq {val : Int} : gd val = (numeral 10 val.natAbs).length + if val < 0 then 1 else 0 := by
  fun_induction gd val with
  | case1 val digit => rw [length_numeral_of_lt (by omega), if_neg (by omega)]
  | case2 val _ digit => rw [length_numeral_of_lt (by omega), if_pos digit.2]
  | case3 val more more' ih =>
      have le : 10 ≤ val.natAbs := by omega
      have tenth : (val.tdiv 10).natAbs = val.natAbs / 10 := Int.natAbs_tdiv val 10
      simp only [ih, length_numeral_of_le (by decide) le, tenth, tdiv_ten_neg le]
      omega

end

/-! ## Buffers and paddings -/

/-- No buffer got more bytes than it has, and no number is longer than its padding is wide. -/
structure PrintState.Fits (st : PrintState) : Prop where
  buffers : ∀ b ∈ st.buffers, b.2 ≤ b.1
  pads : ∀ p ∈ st.pads, p.2 ≤ p.1

section

variable {mem str : Memory} {a declared n k : Nat} {text chars : List UInt8} {st st' : PrintState}
  {ito : Nat → Memory → Option Nat → Option (Nat × Memory)} {width : Option Nat} {val : BitVec 64}

/-- A string that ends with its zero is printed. -/
theorem printLoop_returns (holds : Holds mem a (chars ++ [0])) (nonzero : ∀ c ∈ chars, c ≠ 0)
    (le : k ≤ chars.length) : Returns (fun fuel => printLoop mem a fuel k) (chars.drop k) := by
  refine holds.upToEnd (P := fun k => Returns (fun fuel => printLoop mem a fuel k) (chars.drop k))
    nonzero (fun ends => ?_) (fun k below here some' ih => ?_) le
  · rw [List.drop_length]
    refine Returns.step (fun fuel => ?_) (Returns.const [])
    rw [printLoop, if_pos ends]
  · rw [List.drop_eq_getElem_cons below]
    refine Returns.step (fun fuel => ?_) (ih.map (chars[k] :: ·))
    rw [printLoop, here, if_neg some']

/-- `__print` returns if the string has an end. -/
theorem printLoop_cases (mem : Memory) (a k : Nat) :
    (∃ text, Returns (fun fuel => printLoop mem a fuel k) text) ∨
      ∀ fuel, printLoop mem a fuel k = none := by
  by_cases ends : ∃ n, mem (a + (k + n)) = 0
  · left
    obtain ⟨n, zero⟩ := ends
    induction n generalizing k with
    | zero =>
        rw [Nat.add_zero] at zero
        refine ⟨[], Returns.step (fun fuel => ?_) (Returns.const [])⟩
        rw [printLoop, if_pos zero]
    | succ n ih =>
        by_cases here : mem (a + k) = 0
        · refine ⟨[], Returns.step (fun fuel => ?_) (Returns.const [])⟩
          rw [printLoop, if_pos here]
        · obtain ⟨text, rest⟩ := ih (k + 1) (by rwa [Nat.add_assoc, Nat.add_comm 1])
          refine ⟨_, Returns.step (fun fuel => ?_) (rest.map (mem (a + k) :: ·))⟩
          rw [printLoop, if_neg here]
  · right
    intro fuel
    induction fuel generalizing k with
    | zero => rfl
    | succ fuel ih =>
        have here : mem (a + k) ≠ 0 := fun zero => ends ⟨0, zero⟩
        have rest := ih (k + 1) fun ⟨n, zero⟩ => ends ⟨n + 1, by
          rwa [Nat.add_assoc, Nat.add_comm 1] at zero⟩
        rw [printLoop, if_neg here, rest, Option.map_none]

namespace PrintState.Fits

theorem print (fits : st.Fits) : (st.print text).Fits := ⟨fits.buffers, fits.pads⟩

theorem vaArg {arg : BitVec 64} (fits : st.Fits) (next : st.vaArg = some (arg, st')) : st'.Fits := by
  rw [PrintState.vaArg] at next
  split at next
  · cases next
  · cases next
    exact ⟨fits.buffers, fits.pads⟩

end PrintState.Fits

/-- A number that fits its buffer and its padding is printed. -/
theorem printNumber_returns (writes : Writes ito text) (nonzero : ∀ c ∈ text, c ≠ 0)
    (room : text.length + 1 ≤ declared) (wide : ∀ w ∈ width, text.length ≤ w) (fits : st.Fits) :
    ∃ st', Returns (fun fuel => printNumber fuel declared ito width st) st' ∧ st'.Fits := by
  have buffers : ∀ b ∈ (declared, text.length + 1) :: st.buffers, b.2 ≤ b.1 :=
    List.forall_mem_cons.mpr ⟨room, fits.buffers⟩
  have printed := printLoop_returns (@holds_store (fun _ => 0) 0 (text ++ [0])) nonzero (Nat.zero_le _)
  rw [List.drop_zero] at printed
  cases width with
  | none =>
      exact ⟨_, (writes _ 0).bind (printed.bind (Returns.const _)), ⟨buffers, fits.pads⟩⟩
  | some w =>
      have pads : ∀ p ∈ (w, text.length) :: st.pads, p.2 ≤ p.1 :=
        List.forall_mem_cons.mpr ⟨wide w rfl, fits.pads⟩
      exact ⟨_, (writes _ 0).bind (printed.bind (Returns.const _)), ⟨buffers, pads⟩⟩

theorem numeral_nonzero {base : Nat} {char : Nat → UInt8} (two : 2 ≤ base)
    (nonzero : ∀ d < base, char d ≠ 0) : ∀ c ∈ (numeral base n).map char, c ≠ 0 := by
  intro c mem
  apply lowDigits_nonzero two nonzero c
  rwa [← reverse_lowDigits, List.mem_reverse] at mem

/-- `%d` and `%l`: `gd` counts what `itod` writes. -/
theorem printNumber_itod (fits : st.Fits) : ∃ st', Returns (fun fuel =>
    printNumber fuel (gd val.toInt + 1) (fun fuel str => itod fuel str val) none st) st' ∧
      st'.Fits := by
  refine printNumber_returns itod_writes ?_ ?_ (fun w none => by simp at none) fits
  · intro c mem
    obtain sign | digit := List.mem_append.mp mem
    · rw [signText] at sign
      split at sign
      · rw [List.mem_singleton.mp sign]
        decide
      · cases sign
    · exact numeral_nonzero (by decide) (fun _ => decimalChar_ne_zero) c digit
  · have sign : (signText val).length = if val.toInt < 0 then 1 else 0 := by
      rw [signText]
      split <;> rfl
    rw [List.length_append, List.length_map, sign, gd_eq, abs_eq_natAbs]
    omega

/-- `%u`: `itou` writes no sign. -/
theorem printNumber_itou (fits : st.Fits) : ∃ st', Returns (fun fuel =>
    printNumber fuel (gd val.toInt + 1) (fun fuel str => itou fuel str val) none st) st' ∧
      st'.Fits := by
  refine printNumber_returns itou_writes ?_ ?_ (fun w none => by simp at none) fits
  · exact numeral_nonzero (by decide) fun _ => decimalChar_ne_zero
  · rw [List.length_map, gd_eq, abs_eq_natAbs]
    omega

/-- A hexadecimal numeral with a buffer and a padding that have room for it. -/
theorem printNumber_itoh (room : (numeral 16 val.toNat).length < declared)
    (wide : ∀ w ∈ width, (numeral 16 val.toNat).length ≤ w) (fits : st.Fits) : ∃ st', Returns
      (fun fuel => printNumber fuel declared (fun fuel str => itoh fuel str val) width st) st' ∧
      st'.Fits := by
  refine printNumber_returns itoh_writes ?_ ?_ ?_ fits
  · exact numeral_nonzero (by decide) fun _ => hexChar_ne_zero
  · rwa [List.length_map]
  · rwa [List.length_map]

/-- `%x` and `%p`: there are no more hexadecimal digits than decimal ones. -/
theorem length_itoh_le : (numeral 16 val.toNat).length < gdu val.toNat + 1 := by
  have fewer : (numeral 16 val.toNat).length ≤ (numeral 10 val.toNat).length :=
    length_numeral_le_of_base (by decide) (by decide)
  rw [gdu_eq]
  omega

/-! ## The sections of a GUID -/

theorem powLoop_eq {r e : Nat} (fits : r * n ^ e < 2 ^ 64) : powLoop n r (e + 1) = r * n ^ e := by
  induction e generalizing r with
  | zero => rw [Nat.pow_zero, Nat.mul_one, powLoop]
  | succ e ih =>
      have joined : r * n * n ^ e = r * n ^ (e + 1) := by rw [Nat.pow_succ', Nat.mul_assoc]
      have small : r * n < 2 ^ 64 := by
        rcases Nat.eq_zero_or_pos n with rfl | pos
        · simp
        · refine Nat.lt_of_le_of_lt ?_ fits
          rw [← joined]
          exact Nat.le_mul_of_pos_right _ (Nat.pow_pos pos)
      rw [powLoop, wrap64_of_lt small, ih (by rwa [joined]), joined]

theorem pow_eq {e : Nat} (fits : n ^ e < 2 ^ 64) : pow n e = n ^ e := by
  cases e with
  | zero => rfl
  | succ e =>
      rw [Nat.pow_succ'] at fits ⊢
      rw [pow, if_neg (Nat.succ_ne_zero e), powLoop_eq fits]

/-- The value of a section of up to seven bytes. -/
theorem guidSection_lt {guid : Nat → UInt8} {next : Nat → Nat} {count i gi sectionVal : Nat}
    (few : i + count ≤ 7) (below : sectionVal < 256 ^ i) :
    (guidSection guid next count i gi sectionVal).1 < 256 ^ (i + count) := by
  induction count generalizing i gi sectionVal with
  | zero => exact below
  | succ count ih =>
      have byte := (guid gi).toNat_lt
      have power : 256 ^ i ≤ 256 ^ 6 := Nat.pow_le_pow_right (by decide) (by omega)
      have term : 256 ^ i * (guid gi).toNat ≤ 256 ^ i * 255 := Nat.mul_le_mul_left _ (by omega)
      have next_power : 256 ^ (i + 1) = 256 ^ i * 256 := Nat.pow_succ 256 i
      rw [guidSection, pow_eq (by omega), @wrap64_of_lt (256 ^ i * (guid gi).toNat) (by omega),
        wrap64_of_lt (by omega), Nat.add_comm count, ← Nat.add_assoc]
      exact ih (by omega) (by omega)

theorem length_section {digits sectionVal : Nat} (some' : 1 ≤ digits) (few : digits ≤ 16)
    (below : sectionVal < 16 ^ digits) :
    (numeral 16 (BitVec.ofNat 64 sectionVal).toNat).length ≤ digits := by
  have power : 16 ^ digits ≤ 16 ^ 16 := Nat.pow_le_pow_right (by decide) few
  rw [BitVec.toNat_ofNat, Nat.mod_eq_of_lt (by omega)]
  exact (length_numeral_le_iff (by decide) some').mpr below

/-- One section is printed. -/
theorem printNumber_section {digits sectionVal : Nat} (some' : 1 ≤ digits) (few : digits ≤ 12)
    (below : sectionVal < 16 ^ digits) (fits : st.Fits) : ∃ st', Returns (fun fuel =>
      printNumber fuel 14 (fun fuel str => itoh fuel str (BitVec.ofNat 64 sectionVal)) (some digits)
        st) st' ∧ st'.Fits := by
  have length := length_section some' (by omega) below
  refine printNumber_itoh (by omega) (fun w eq => ?_) fits
  cases eq
  exact length

/-- The bytes of a section are two hexadecimal digits each. -/
theorem guidSection_digits {guid : Nat → UInt8} {next : Nat → Nat} {gi gi' sectionVal count : Nat}
    (eq : guidSection guid next count 0 gi 0 = (sectionVal, gi')) (few : count ≤ 7) :
    sectionVal < 16 ^ (2 * count) := by
  have below := @guidSection_lt guid next count 0 gi 0 (by omega) Nat.one_pos
  rwa [eq, Nat.zero_add, show 256 = 16 ^ 2 from rfl, ← Nat.pow_mul] at below

/-- `%g`: each section fits its width. -/
theorem printGuid_returns {guid : Nat → UInt8} (fits : st.Fits) :
    ∃ st', Returns (fun fuel => printGuid fuel guid st) st' ∧ st'.Fits := by
  rcases eq₁ : guidSection guid (· + 1) 4 0 0 0 with ⟨v₁, gi₁⟩
  rcases eq₂ : guidSection guid (· + 1) 2 0 gi₁ 0 with ⟨v₂, gi₂⟩
  rcases eq₃ : guidSection guid (· + 1) 2 0 gi₂ 0 with ⟨v₃, gi₃⟩
  rcases eq₄ : guidSection guid (· - 1) 2 0 (gi₃ + 1) 0 with ⟨v₄, gi₄⟩
  rcases eq₅ : guidSection guid (· - 1) 6 0 15 0 with ⟨v₅, gi₅⟩
  obtain ⟨st₁, first, fits⟩ := printNumber_section (by decide) (by decide)
    (guidSection_digits eq₁ (by decide)) fits
  obtain ⟨st₂, second, fits⟩ := printNumber_section (by decide) (by decide)
    (guidSection_digits eq₂ (by decide)) fits.print
  obtain ⟨st₃, third, fits⟩ := printNumber_section (by decide) (by decide)
    (guidSection_digits eq₃ (by decide)) fits.print
  obtain ⟨st₄, fourth, fits⟩ := printNumber_section (by decide) (by decide)
    (guidSection_digits eq₄ (by decide)) fits.print
  obtain ⟨st₅, fifth, fits⟩ := printNumber_section (by decide) (by decide)
    (guidSection_digits eq₅ (by decide)) fits.print
  refine ⟨st₅, ?_, fits⟩
  simp only [printGuid, eq₁, eq₂, eq₃, eq₄, eq₅, Option.bind_eq_bind]
  exact first.bind (second.bind (third.bind (fourth.bind fifth)))

/-! ## The whole format -/

/-- The conversions that print a number. -/
def numberConversions : List UInt8 :=
  ['d'.toUInt8, 'l'.toUInt8, 'u'.toUInt8, 'x'.toUInt8, 'p'.toUInt8, 'g'.toUInt8]

/-- A number is printed whatever the argument is. -/
theorem vprintfConversion_returns {c : UInt8} {arg : BitVec 64} (number : c ∈ numberConversions)
    (next : st.vaArg = some (arg, st')) (fits : st.Fits) :
    ∃ st', Returns (fun fuel => vprintfConversion fuel mem c st) st' ∧ st'.Fits := by
  have fits := fits.vaArg next
  simp only [numberConversions, List.mem_cons, List.not_mem_nil, or_false] at number
  rcases number with rfl | rfl | rfl | rfl | rfl | rfl
  all_goals simp +decide [vprintfConversion, next]
  · exact printNumber_itod fits
  · exact printNumber_itod fits
  · exact printNumber_itou fits
  · exact printNumber_itoh length_itoh_le (fun w none => by simp at none) fits
  · have few := (@length_numeral_le_iff 16 arg.toNat 16 (by decide) (by decide)).mpr arg.isLt
    refine printNumber_itoh length_itoh_le (fun w sixteen => ?_) fits
    cases sixteen
    exact few
  · exact printGuid_returns fits

/-- A conversion returns, unless an argument is missing or a string has no end. -/
theorem vprintfConversion_cases (c : UInt8) (fits : st.Fits) :
    (∃ st', Returns (fun fuel => vprintfConversion fuel mem c st) st' ∧ st'.Fits) ∨
      ∀ fuel, vprintfConversion fuel mem c st = none := by
  by_cases known : c ∈ 'c'.toUInt8 :: 's'.toUInt8 :: numberConversions
  · cases next : st.vaArg with
    | none =>
        right
        intro fuel
        simp only [numberConversions, List.mem_cons, List.not_mem_nil, or_false] at known
        rcases known with rfl | rfl | rfl | rfl | rfl | rfl | rfl | rfl
        all_goals simp +decide [vprintfConversion, next]
    | some arg =>
        obtain ⟨arg, st₁⟩ := arg
        have fits₁ := fits.vaArg next
        rcases List.mem_cons.mp known with rfl | known
        · simp +decide [vprintfConversion, next]
          exact ⟨_, Returns.const _, fits₁.print⟩
        rcases List.mem_cons.mp known with rfl | number
        · simp +decide [vprintfConversion, next]
          cases pointerArg arg with
          | none => exact .inl ⟨_, Returns.const _, fits₁.print⟩
          | some msg =>
              obtain ⟨text, returns⟩ | endless := printLoop_cases mem msg 0
              · exact .inl ⟨_, returns.bind (Returns.const _), fits₁.print⟩
              · right
                intro fuel
                simp [print, endless]
        · exact .inl (vprintfConversion_returns number next fits)
  · refine .inl ⟨st, ?_, fits⟩
    simp only [numberConversions, List.mem_cons, List.not_mem_nil, or_false, not_or] at known
    simp [vprintfConversion, known]
    exact Returns.const st

/-- Every buffer and padding of a run over the format fits. -/
theorem vprintfLoop_fits {formatted : Bool} {fmt : List UInt8} (fits : st.Fits)
    (returns : Returns (fun fuel => vprintfLoop fuel mem formatted fmt st) st') : st'.Fits := by
  induction fmt generalizing formatted st with
  | nil =>
      simp only [vprintfLoop] at returns
      rwa [returns.unique (Returns.const st)]
  | cons c fmt ih =>
      simp only [vprintfLoop, Option.bind_eq_bind] at returns
      split at returns
      · exact ih fits returns
      split at returns
      · exact ih fits.print returns
      obtain ⟨st₁, converts, fits₁⟩ | stuck := @vprintfConversion_cases mem _ c fits
      · exact ih fits₁ ((Returns.bind_iff converts).mp returns)
      · simp only [stuck, Option.bind_none] at returns
        cases Returns.none_iff.mp returns

/-- The buffers that are declared for the numbers are large enough, and no padding wraps: in every
    call that returns, and in each conversion by itself whatever its argument is. -/
theorem vprintf_fits (mem : Memory) (fmt : CString) (args : List (BitVec 64)) :
    (∀ st', Returns (fun fuel => vprintf fuel mem fmt args) st' → st'.Fits) ∧
      ∀ c ∈ numberConversions, ∀ (st : PrintState) (arg : BitVec 64), st.Fits →
        ∃ st', Returns (fun fuel => vprintfConversion fuel mem c { st with args := arg :: st.args })
          st' ∧ st'.Fits := by
  constructor
  · intro st' returns
    have fits : PrintState.Fits ⟨args, 0, [], [], []⟩ := ⟨by simp, by simp⟩
    exact vprintfLoop_fits fits returns
  · intro c number st arg fits
    have fits' : PrintState.Fits { st with args := arg :: st.args } := ⟨fits.buffers, fits.pads⟩
    exact vprintfConversion_returns number rfl fits'

end

end Sdx.Util
