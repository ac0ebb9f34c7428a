import Sdx.Fs.Fat32Name

/-! # What the names of entries decode to

A long name of plain characters comes out as it was encoded. The scan over the eleven bytes of a
short name stops at the first space, so that the extension is lost behind a base of less than
eight bytes.
-/

namespace Sdx.Fs

open Sdx.Lib.Bytes

/-! ## Long names -/

section

variable {size : Int} {name i : Nat} {mem : Memory} {chars : List UInt8} {entry : DirEntry}
  {entries rest : List DirEntry}

theorem LfnRun.length (run : LfnRun chars i entries) : entries.length = i := by
  induction run with
  | nil => rfl
  | cons _ _ _ ih => rw [List.length_cons, ih]

theorem LfnSet.length (set : LfnSet chars entries) : entries.length = (chars.length + 12) / 13 := by
  cases set with
  | @mk i lfn rest order is run low high =>
      rw [List.length_cons, run.length]
      omega

/-- The entries of a long name, one for each thirteen characters, decode to the name and lead to the
    short entry behind them. -/
theorem longName_decodes (set : LfnSet chars entries) (length_le : chars.length ≤ 254)
    (plain : ∀ c ∈ chars, 1 ≤ c.toNat ∧ c.toNat ≤ 254) (closes : ClosesName entry)
    (room : (chars.length + 1 : Int) ≤ size) :
    entries.length = (chars.length + 12) / 13 ∧
      fat32EntryName size name mem (entries ++ entry :: rest) =
        some ⟨(chars.length + 1 : Nat), store mem name (chars ++ [0]), entry :: rest⟩ := by
  have plain' : Plain chars := by
    intro c listed
    obtain ⟨low, high⟩ := plain c listed
    have zero : c ≠ 0 := by
      rintro rfl
      exact absurd low (by decide)
    have ones : c ≠ 0xff := by
      rintro rfl
      exact absurd high (by decide)
    simp [lfnEnds, zero, ones]
  exact ⟨set.length, plain'.entryName set (Nat.lt_succ_of_le length_le) closes room⟩

end

/-- The entry of the long name `ab`. -/
def lfnAb : DirEntry :=
  ⟨#v[0x41, 0x61, 0, 0x62, 0, 0, 0, 0xff, 0xff, 0xff, 0xff, 0x0f, 0, 0x17, 0xff, 0xff, 0xff, 0xff,
    0xff, 0xff, 0xff, 0xff, 0xff, 0xff, 0xff, 0xff, 0, 0, 0xff, 0xff, 0xff, 0xff]⟩

/-- A short entry of eleven letters. -/
def shortAb : DirEntry := ⟨Vector.replicate 32 0x41⟩

theorem longName_decodes_ab : [lfnAb].length = 1 ∧
    fat32EntryName 3 0x1000 (fun _ => 0) [lfnAb, shortAb] =
      some ⟨3, store (fun _ => 0) 0x1000 [0x61, 0x62, 0], [shortAb]⟩ := by
  have set : LfnSet [0x61, 0x62] [lfnAb] :=
    .mk (by decide) ⟨by decide, by decide⟩ .nil (by decide) (by decide)
  exact longName_decodes set (by decide) (by decide +kernel) ⟨by decide, by decide, by decide⟩ (by decide)

/-! ## Short names -/

/-- A short entry with a base and an extension, each padded with spaces. -/
structure ShortField where
  entry : DirEntry
  base : List UInt8
  ext : List UInt8
  base_some : base ≠ []
  base_le : base.length ≤ 8
  ext_le : ext.length ≤ 3
  base_solid : ∀ c ∈ base, c ≠ 0x20
  ext_solid : ∀ c ∈ ext, c ≠ 0x20
  name : entry.name = base ++ List.replicate (8 - base.length) 0x20 ++
    (ext ++ List.replicate (3 - ext.length) 0x20)
  closes : ClosesName entry

/-- The entry decodes to the name, whatever comes behind it, in every buffer with room for it. -/
def DecodesTo (entry : DirEntry) (chars : List UInt8) : Prop :=
  ∀ size name mem rest, (chars.length + 1 : Int) ≤ size →
    fat32EntryName size name mem (entry :: rest) =
      some ⟨(chars.length + 1 : Nat), store mem name (chars ++ [0]), entry :: rest⟩

/-- The base, and the extension behind a dot if there is one. -/
def ShortField.dotted (field : ShortField) : List UInt8 :=
  field.base ++ if field.ext = [] then [] else 0x2e :: field.ext

section

variable {i n : Nat} {chars chars' cs : List UInt8} {entry : DirEntry} {field other : ShortField}

theorem ClosesName.decodesTo (closes : ClosesName entry) (short : chars.length < nameMax)
    (scan : shortChars 0 entry.name = chars) : DecodesTo entry chars := by
  intro size name mem rest room
  have length : (chars ++ [0]).length = chars.length + 1 := by simp
  rw [closes.entryName_eq, scan, nameAppend_fits (by rw [length]; omega) (by rw [length]; omega),
    length]
  simp only [Nat.zero_add, Nat.add_zero]

/-- An entry decodes to one name only. -/
theorem DecodesTo.unique (decodes : DecodesTo entry chars) (decodes' : DecodesTo entry chars') :
    chars = chars' := by
  have first := decodes (chars.length + 1 + chars'.length : Nat) 0 (fun _ => 0) [] (by omega)
  have second := decodes' (chars.length + 1 + chars'.length : Nat) 0 (fun _ => 0) [] (by omega)
  rw [first, Option.some.injEq, EntryName.mk.injEq] at second
  obtain ⟨length, stored, -⟩ := second
  have holds : Lib.Bytes.Holds (store (fun _ => 0) 0 (chars ++ [0])) 0 (chars' ++ [0]) := by
    rw [stored]
    exact holds_store
  have same := eq_of_holds_store holds (by simp only [List.length_append]; omega)
  exact List.append_cancel_right same

/-- The scan takes what is not a space, with a dot before the ninth character. -/
theorem shortChars_solid (solid : ∀ c ∈ cs, c ≠ 0x20) (before : i + cs.length ≤ 8) :
    shortChars i (cs ++ chars) = cs ++ shortChars (i + cs.length) chars := by
  induction cs generalizing i with
  | nil => rfl
  | cons c cs ih =>
      rw [List.length_cons] at before
      have here : ¬ i = 8 := by omega
      rw [List.cons_append, shortChars, if_neg (solid c List.mem_cons_self), if_neg here,
        ih (fun c listed => solid c (List.mem_cons_of_mem _ listed)) (by omega), List.length_cons,
        Nat.add_right_comm, Nat.add_assoc]
      rfl

theorem shortChars_spaces : shortChars i (List.replicate n 0x20) = [] := by
  cases n with
  | zero => rfl
  | succ n => rw [List.replicate_succ, shortChars, if_pos rfl]

theorem shortChars_behind (solid : ∀ c ∈ cs, c ≠ 0x20) (behind : 8 < i) :
    shortChars i (cs ++ List.replicate n 0x20) = cs := by
  induction cs generalizing i with
  | nil => exact shortChars_spaces
  | cons c cs ih =>
      have here : ¬ i = 8 := by omega
      rw [List.cons_append, shortChars, if_neg (solid c List.mem_cons_self), if_neg here,
        ih (fun c listed => solid c (List.mem_cons_of_mem _ listed)) (by omega)]
      rfl

namespace ShortField

/-- A short base is all that is read. -/
theorem scan_short (short : field.base.length < 8) : shortChars 0 field.entry.name = field.base := by
  obtain ⟨n, pad⟩ := Nat.exists_eq_add_of_lt short
  have spaces : 8 - field.base.length = n + 1 := by omega
  rw [field.name, List.append_assoc,
    shortChars_solid field.base_solid (by rw [Nat.zero_add]; exact field.base_le), spaces,
    List.replicate_succ, List.cons_append, shortChars, if_pos rfl, List.append_nil]

/-- Behind eight characters the extension is read. -/
theorem scan_full (full : field.base.length = 8) :
    shortChars 0 field.entry.name = field.dotted := by
  rw [field.name, full, Nat.sub_self, List.replicate_zero, List.append_nil,
    shortChars_solid field.base_solid (by rw [Nat.zero_add]; exact field.base_le), full, dotted]
  congr 1
  cases ext : field.ext with
  | nil =>
      rw [List.nil_append, shortChars_spaces]
      rfl
  | cons c cs =>
      have solid := field.ext_solid
      rw [ext] at solid
      rw [List.cons_append, shortChars, if_neg (solid c List.mem_cons_self),
        shortChars_behind (fun c listed => solid c (List.mem_cons_of_mem _ listed)) (by decide)]
      rfl

theorem decodes_short (short : field.base.length < 8) : DecodesTo field.entry field.base :=
  field.closes.decodesTo (by unfold nameMax; omega) (scan_short short)

theorem length_dotted : field.dotted.length =
    field.base.length + if field.ext = [] then 0 else field.ext.length + 1 := by
  rw [dotted, List.length_append]
  split
  · rfl
  · rfl

theorem decodes_full (full : field.base.length = 8) : DecodesTo field.entry field.dotted := by
  refine field.closes.decodesTo ?_ (scan_full full)
  have ext := field.ext_le
  rw [length_dotted, full]
  unfold nameMax
  split <;> omega

theorem short_or_full : field.base.length < 8 ∨ field.base.length = 8 :=
  Nat.lt_or_eq_of_le field.base_le

/-- The base with its extension is read, exactly if nothing pads the base or there is none. -/
theorem decodes_iff :
    DecodesTo field.entry field.dotted ↔ field.base.length = 8 ∨ field.ext = [] := by
  constructor
  · intro decodes
    by_contra lost
    obtain ⟨notFull, some'⟩ := not_or.mp lost
    have short := Nat.lt_of_le_of_ne field.base_le notFull
    have same := congrArg List.length (decodes.unique (decodes_short short))
    rw [length_dotted, if_neg some'] at same
    omega
  · intro kept
    obtain short | full := field.short_or_full
    · obtain full | none' := kept
      · exact decodes_full full
      · have same : field.dotted = field.base := by
          rw [dotted, if_pos none', List.append_nil]
        rw [same]
        exact decodes_short short
    · exact decodes_full full

/-- Two entries that decode to one name have the same base. -/
theorem base_eq (decodes : DecodesTo field.entry chars) (decodes' : DecodesTo other.entry chars) :
    field.base = other.base ∧ (field.base.length = 8 → field.ext = other.ext) := by
  obtain short | full := field.short_or_full
  · obtain short' | full' := other.short_or_full
    · have same := (decodes_short short).unique decodes
      have same' := (decodes_short short').unique decodes'
      exact ⟨same.trans same'.symm, fun full => absurd full (Nat.ne_of_lt short)⟩
    · have same := congrArg List.length ((decodes_short short).unique decodes)
      have same' := congrArg List.length ((decodes_full full').unique decodes')
      rw [length_dotted] at same'
      omega
  · obtain short' | full' := other.short_or_full
    · have same := congrArg List.length ((decodes_full full).unique decodes)
      have same' := congrArg List.length ((decodes_short short').unique decodes')
      rw [length_dotted] at same
      omega
    · have same := ((decodes_full full).unique decodes).trans
        ((decodes_full full').unique decodes').symm
      rw [dotted, dotted] at same
      obtain ⟨base, rest⟩ := List.append_inj same (full.trans full'.symm)
      refine ⟨base, fun _ => ?_⟩
      by_cases none' : field.ext = []
      · by_cases none'' : other.ext = []
        · exact none'.trans none''.symm
        · rw [if_pos none', if_neg none''] at rest
          cases rest
      · by_cases none'' : other.ext = []
        · rw [if_neg none', if_pos none''] at rest
          cases rest
        · rw [if_neg none', if_neg none''] at rest
          exact (List.cons.inj rest).2

/-- The padding does not hide anything. -/
theorem ext_eq (base : field.base = other.base) (name : field.entry.name = other.entry.name) :
    field.ext = other.ext := by
  rw [field.name, other.name, base] at name
  have padded := List.append_cancel_left name
  have solid {f : ShortField} :
      (f.ext ++ List.replicate (3 - f.ext.length) 0x20).takeWhile (· != 0x20) = f.ext := by
    rw [List.takeWhile_append_of_pos fun c listed => bne_iff_ne.mpr (f.ext_solid c listed)]
    have spaces : (List.replicate (3 - f.ext.length) (0x20 : UInt8)).takeWhile (· != 0x20) = [] := by
      cases 3 - f.ext.length with
      | zero => rfl
      | succ n => rfl
    rw [spaces, List.append_nil]
  rw [← @solid field, padded, solid]

end ShortField

/-- A short entry decodes to its base and extension, exactly if the base has eight bytes or there is
    no extension, and two of them decode to different names unless their fields are equal, exactly if
    they do not differ in the extensions behind one short base only. -/
theorem shortName_decodes_iff (field other : ShortField) :
    (DecodesTo field.entry field.dotted ↔ field.base.length = 8 ∨ field.ext = []) ∧
    (((∃ chars, DecodesTo field.entry chars ∧ DecodesTo other.entry chars) →
        field.entry.name = other.entry.name) ↔
      (field.base = other.base → field.base.length = 8 ∨ field.ext = other.ext)) := by
  refine ⟨field.decodes_iff, ?_, ?_⟩
  · intro distinct base
    obtain short | full := field.short_or_full
    · have short' : other.base.length < 8 := by rwa [← base]
      have decodes' := other.decodes_short short'
      rw [← base] at decodes'
      exact Or.inr (ShortField.ext_eq base (distinct ⟨_, field.decodes_short short, decodes'⟩))
    · exact Or.inl full
  · rintro kept ⟨chars, decodes, decodes'⟩
    obtain ⟨base, ext⟩ := ShortField.base_eq decodes decodes'
    have ext' : field.ext = other.ext := by
      obtain full | same := kept base
      · exact ext full
      · exact same
    rw [field.name, other.name, base, ext']

/-- The entry of `FOO.TXT`. -/
def fooTxt : ShortField where
  entry := ⟨#v[0x46, 0x4f, 0x4f, 0x20, 0x20, 0x20, 0x20, 0x20, 0x54, 0x58, 0x54, 0x20, 0, 0, 0, 0,
    0, 0, 0, 0, 0, 0, 0, 0, 0, 0, 0, 0, 0, 0, 0, 0]⟩
  base := [0x46, 0x4f, 0x4f]
  ext := [0x54, 0x58, 0x54]
  base_some := by decide
  base_le := by decide
  ext_le := by decide
  base_solid := by decide +kernel
  ext_solid := by decide +kernel
  name := by decide
  closes := ⟨by decide, by decide, by decide⟩

/-- It decodes to `FOO`. -/
theorem shortName_loses_ext : DecodesTo fooTxt.entry [0x46, 0x4f, 0x4f] ∧
    ¬ DecodesTo fooTxt.entry fooTxt.dotted := by
  refine ⟨fooTxt.decodes_short (by decide), fun decodes => ?_⟩
  have kept := fooTxt.decodes_iff.mp decodes
  exact absurd kept (by decide)

end

end Sdx.Fs
