import Sdx.Fs.ElfFits

/-! # Which files the loader accepts

A file is accepted when there is an address space and memory in which its load returns 0. That
is a property of the file: its headers let it pass, its segments can be read and have room behind
each other, and one of them contains the entry point. A file that is accepted need not be an ELF
file: a wrong magic skips the other checks, and headers that end early are taken as they are.
-/

namespace Sdx.Fs

open Sdx.Lib Sdx.Mm

/-- The ELF header in a file. -/
def fileHeader (file : FsFile) : ElfHeader :=
  elfHeader (Bytes.store (fun _ => 0) 0 (file.bytes.take elfHeaderSize))

/-- The program headers lie in the file. -/
def HeadersInside (file : FsFile) : Prop :=
  (fileHeader file).phoff + elfProgramHeaderSize * (fileHeader file).phnum ≤ file.bytes.length

instance (file : FsFile) : Decidable (HeadersInside file) :=
  inferInstanceAs (Decidable (_ ≤ _))

/-- A file with a complete ELF header for this machine and its program headers. -/
structure RealElf (file : FsFile) : Prop where
  complete : elfHeaderSize ≤ file.bytes.length
  magic : elfMagic <+: file.bytes
  class64 : (fileHeader file).ident elfIdentClass = elfClass64
  littleEndian : (fileHeader file).ident elfIdentData = elfData2Lsb
  version : (fileHeader file).ident elfIdentVersion = elfVersionCurrent
  machine : (fileHeader file).machine = elfMachineX86_64
  type : (fileHeader file).type = elfTypeDyn
  phentsize : 0 < (fileHeader file).phnum → (fileHeader file).phentsize = elfProgramHeaderSize
  inside : 0 < (fileHeader file).phnum → HeadersInside file

/-- There is room for the segments: for the first one from a page on, for the others behind it. -/
def Placeable (page : Nat) : List ElfProgramHeader → Prop
  | [] => True
  | ph :: phs => page + elfPages ph ≤ 2 ^ 37 ∧
      ∀ p ∈ elfLayout (page + elfPages ph) phs, Space.Room p.1 (elfPages p.2)

/-- The headers pass, the segments can be read and placed, and the entry point is found. -/
structure Loadable (file : FsFile) (m : Bytes.Memory) : Prop where
  passes : HeaderPasses file
  no_error : 0 ≤ (elfFileSegments file m).2
  readable : ∀ ph ∈ (elfFileSegments file m).1, Readable file ph
  places : ∃ page, 0 < page ∧ Placeable page (elfFileSegments file m).1 ∧
    elfEntry (elfReadHeader file).2 0 (elfLayout page (elfFileSegments file m).1) ≠ 0

section

variable {env : SpaceEnv} {file : FsFile} {header : ElfHeader} {ph : ElfProgramHeader}
  {phs : List ElfProgramHeader} {m : Bytes.Memory} {fmt : Fmt} {s s' s₀ : Space}
  {page at_page : Nat} {st st' : ElfLoad}

/-! ## What is accepted can be loaded -/

theorem elfRun_error {e : ElfExit × ElfLoad} (pos : st.pos = at_page * pageSize)
    (failed : elfRun env file header phs st = .error e) (err : Int) : e.1 ≠ .ret err := by
  induction phs generalizing at_page st with
  | nil => cases failed
  | cons ph phs ih =>
      have segment := @elfLoadSegment_segment env file header ph st at_page pos
      rw [elfRun] at failed
      generalize elfLoadSegment env file header st ph = result at segment failed
      cases segment with
      | noRegion | endless | notMapped =>
          cases failed
          exact ElfExit.noConfusion
      | notFilled page frame exit _ _ _ _ not_filled =>
          cases failed
          obtain rfl | rfl := elfFillSegment_error not_filled <;> exact ElfExit.noConfusion
      | loaded page frame space => exact @ih _ ⟨_, _, _, space⟩ rfl failed

theorem elfRun_readable (pos : st.pos = at_page * pageSize)
    (done : elfRun env file header phs st = .ok st') : ∀ ph ∈ phs, Readable file ph := by
  induction phs generalizing at_page st with
  | nil => exact nofun
  | cons ph phs ih =>
      obtain ⟨page, frame, space, -, -, -, filled, rest⟩ := elfRun_cons_ok pos done
      exact List.forall_mem_cons.mpr ⟨(elfFillSegment_ok filled).1, ih rfl rest⟩

theorem elfRun_room (pos : st.pos = at_page * pageSize) (given : at_page ≠ 0)
    (done : elfRun env file header phs st = .ok st') :
    ∀ p ∈ elfLayout at_page phs, Space.Room p.1 (elfPages p.2) := by
  induction phs generalizing at_page st with
  | nil => exact nofun
  | cons ph phs ih =>
      obtain ⟨page, frame, space, found, not_null, -, -, rest⟩ := elfRun_cons_ok pos done
      obtain ⟨rfl, room⟩ := place_given found elfPages_pos not_null given
      exact List.forall_mem_cons.mpr ⟨room, ih rfl (by omega) rest⟩

theorem elfRun_places (done : elfRun env file header (ph :: phs) ⟨0, [], 0, s⟩ = .ok st') :
    ∃ page, 0 < page ∧ Placeable page (ph :: phs) ∧
      st'.entry = elfEntry header 0 (elfLayout page (ph :: phs)) := by
  obtain ⟨page, frame, space, at_page, not_null, -, -, rest⟩ := elfRun_cons_ok begun_empty.1 done
  obtain ⟨pos, high, -⟩ :=
    Space.findContiguous_user (Space.place_zero.symm.trans at_page) elfPages_pos
  have room := elfRun_room rfl (by omega) rest
  exact ⟨page, pos, ⟨high, room⟩, elfRun_entry rfl (by omega) rest⟩

/-- A load that returns 0 has loaded all segments and found the entry point. -/
theorem elfLoad_zero (zero : (elfLoad env file m fmt s).1 = .ret 0) : HeaderPasses file ∧
    0 ≤ (elfFileSegments file m).2 ∧ ∃ st, st.entry ≠ 0 ∧
      elfRun env file (elfReadHeader file).2 (elfFileSegments file m).1 ⟨0, [], 0, s⟩ = .ok st := by
  by_cases passes : HeaderPasses file
  · rw [elfLoad_passed passes] at zero
    unfold elfOutcome at zero
    cases done : elfRun env file (elfReadHeader file).2 (elfFileSegments file m).1
      ⟨0, [], 0, s⟩ with
    | error e =>
        rw [done] at zero
        exact absurd zero (elfRun_error begun_empty.1 done 0)
    | ok st =>
        rw [done, elfEnd] at zero
        have zero := ElfExit.ret.inj zero
        split at zero
        · next neg => exact absurd zero (Int.ne_of_lt neg)
        · next fine =>
            split at zero
            · cases zero
            · next found => exact ⟨passes, Int.not_lt.mp fine, st, found, rfl⟩
  · obtain ⟨err, neg, rejected⟩ := elfLoad_rejected passes
    rw [rejected] at zero
    exact absurd (ElfExit.ret.inj zero) (Int.ne_of_lt neg)

theorem loadable_of_accepted (zero : (elfLoad env file m fmt s).1 = .ret 0) : Loadable file m := by
  obtain ⟨passes, no_error, st, found, done⟩ := elfLoad_zero zero
  refine ⟨passes, no_error, elfRun_readable begun_empty.1 done, ?_⟩
  cases segments : (elfFileSegments file m).1 with
  | nil =>
      rw [segments] at done
      cases done
      exact absurd rfl found
  | cons ph phs =>
      rw [segments] at done
      obtain ⟨page, pos, places, entry⟩ := elfRun_places done
      exact ⟨page, pos, places, fun none => found (entry.trans none)⟩

/-! ## What can be loaded is accepted -/

theorem onlyHole_mapped {hole num q : Nat} {byte : UInt8} (behind : hole + num ≤ q) :
    ((onlyHole hole num byte).page q).isSome := by
  unfold onlyHole
  simp only
  rw [if_neg (by omega)]
  rfl

/-- Behind the hole everything is mapped, so nothing faults. -/
theorem onlyHole_fits {hole num : Nat} {byte : UInt8} (behind : hole + num ≤ at_page)
    (given : at_page ≠ 0)
    (readable : ∀ ph ∈ phs, Readable file ph)
    (room : ∀ p ∈ elfLayout at_page phs, Space.Room p.1 (elfPages p.2)) :
    Fits file (onlyHole hole num byte) at_page phs := by
  induction phs generalizing at_page with
  | nil => trivial
  | cons ph phs ih =>
      obtain ⟨here, readable⟩ := List.forall_mem_cons.mp readable
      obtain ⟨room_here, room⟩ := List.forall_mem_cons.mp room
      have placed : (onlyHole hole num byte).place at_page (elfPages ph) = some at_page := by
        rw [Space.place, if_neg given, if_pos room_here]
      refine ⟨at_page, placed, given, here, fun i _ _ => onlyHole_mapped (by omega), ?_⟩
      exact ih (by omega) (by omega) readable room

/-- Segments that can be read and placed are loaded into the hole. -/
theorem onlyHole_loads {byte : UInt8} (pos : 0 < page)
    (readable : ∀ ph' ∈ ph :: phs, Readable file ph')
    (small : ∀ ph' ∈ ph :: phs, ph'.memsz < 2 ^ 64) (places : Placeable page (ph :: phs)) :
    (onlyHole page (elfPages ph) byte).place 0 (elfPages ph) = some page ∧
      ∃ st, elfRun plentyOfMemory file header (ph :: phs)
        ⟨0, [], 0, onlyHole page (elfPages ph) byte⟩ = .ok st := by
  obtain ⟨here, readable⟩ := List.forall_mem_cons.mp readable
  have some_pages : 0 < elfPages ph := elfPages_pos
  have first : (onlyHole page (elfPages ph) byte).place 0 (elfPages ph) = some page := by
    rw [Space.place_zero]
    apply Space.findContiguous_first pos some_pages places.1
    · intro q low high
      unfold onlyHole
      simp only
      rw [if_neg (by omega)]
      rfl
    · intro i lt
      exact if_pos ⟨Nat.le_add_right page i, by omega⟩
  have fits : Fits file (onlyHole page (elfPages ph) byte) 0 (ph :: phs) :=
    ⟨page, first, by omega, here, fun i _ _ => onlyHole_mapped (by omega),
      onlyHole_fits (Nat.le_refl _) (by omega) readable places.2⟩
  exact ⟨first, elfRun_loads plentyOfMemory_plentiful ⟨0, fun _ _ => rfl⟩ begun_empty small fits⟩

theorem accepted_of_loadable (loadable : Loadable file m) (fmt : Fmt) :
    ∃ env s, (elfLoad env file m fmt s).1 = .ret 0 := by
  obtain ⟨passes, no_error, readable, page, pos, places, found⟩ := loadable
  cases segments : (elfFileSegments file m).1 with
  | nil =>
      rw [segments] at found
      exact absurd rfl found
  | cons ph phs =>
      rw [segments] at readable places found
      have small : ∀ ph' ∈ ph :: phs, ph'.memsz < 2 ^ 64 := fun ph' mem =>
        elfSegments_small (segments ▸ mem)
      obtain ⟨first, st, done⟩ :=
        @onlyHole_loads file (elfReadHeader file).2 ph phs page 0 pos readable small places
      obtain ⟨page', at_page, -, entry⟩ := elfRun_ok done
      cases first.symm.trans at_page
      refine ⟨plentyOfMemory, onlyHole page (elfPages ph) 0, ?_⟩
      rw [elfLoad_passed passes, elfOutcome, segments, done]
      simp only [elfEnd, entry, found, Int.not_lt.mpr no_error, if_false]

/-! ## What a file that is accepted is like -/

theorem elfReadHeader_eq (read : 0 ≤ (elfReadHeader file).1) :
    (elfReadHeader file).2 = fileHeader file := by
  unfold elfReadHeader vfsRead fileHeader at *
  cases failed : file.error 0 elfHeaderSize with
  | some err =>
      rw [failed] at read
      exact absurd (file.error_neg _ _ _ failed) (Int.not_lt.mpr read)
  | none => rfl

theorem elfCheckMagic_of_start (magic : elfMagic <+: file.bytes) :
    elfCheckMagic (fileHeader file) = true := by
  obtain ⟨rest, bytes⟩ := magic
  unfold fileHeader
  rw [← bytes]
  rfl

/-- The check lets a file with the magic pass only if the rest of the header fits the machine. -/
theorem elfCheck_none (magic : elfCheckMagic header = true) (passes : elfCheck header = none) :
    header.ident elfIdentClass = elfClass64 ∧ header.ident elfIdentData = elfData2Lsb ∧
      header.machine = elfMachineX86_64 ∧ header.ident elfIdentVersion = elfVersionCurrent := by
  unfold elfCheck at passes
  rw [magic] at passes
  simp only [Bool.not_true, Bool.false_eq_true, if_false] at passes
  split at passes
  · cases passes
  · next class64 =>
      split at passes
      · cases passes
      · next data =>
          split at passes
          · cases passes
          · next machine =>
              split at passes
              · cases passes
              · next version =>
                  exact ⟨not_not.mp class64, not_not.mp data, not_not.mp machine, not_not.mp version⟩

/-- A segment is read from a program header of the right size only. -/
theorem elfSegments_phentsize {fuel phPos : Nat}
    (some_segment : (elfSegments file header fuel phPos m).1 ≠ []) :
    header.phentsize = elfProgramHeaderSize := by
  by_contra size
  cases fuel with
  | zero => exact some_segment rfl
  | succ fuel =>
      apply some_segment
      unfold elfSegments elfPhNext
      by_cases last : header.phnum ≤ phPos
      · simp only [if_pos last]
        rfl
      · simp only [if_neg last, ne_eq, size, not_false_eq_true, if_true]
        rfl

theorem Loadable.some_segment (loadable : Loadable file m) : (elfFileSegments file m).1 ≠ [] := by
  obtain ⟨page, -, -, found⟩ := loadable.places
  intro none
  rw [none] at found
  exact found rfl

/-- The loader accepts a file for real executables only just when a file that it can load has the
    magic, a complete header, and its program headers inside. -/
theorem accepts_real_iff (file : FsFile) (m : Bytes.Memory) :
    (∀ env fmt s, (elfLoad env file m fmt s).1 = .ret 0 → RealElf file) ↔
      (Loadable file m → elfMagic <+: file.bytes ∧ elfHeaderSize ≤ file.bytes.length ∧
        (0 < (fileHeader file).phnum → HeadersInside file)) := by
  constructor
  · intro real loadable
    obtain ⟨env, s, zero⟩ := accepted_of_loadable loadable ⟨0, []⟩
    have real := real env ⟨0, []⟩ s zero
    exact ⟨real.magic, real.complete, real.inside⟩
  · intro good env fmt s zero
    have loadable := loadable_of_accepted zero
    obtain ⟨magic, complete, inside⟩ := good loadable
    obtain ⟨read, check, dyn⟩ := loadable.passes
    have phentsize := elfSegments_phentsize loadable.some_segment
    rw [elfReadHeader_eq read] at check dyn phentsize
    obtain ⟨class64, data, machine, version⟩ :=
      elfCheck_none (elfCheckMagic_of_start magic) check
    exact ⟨complete, magic, class64, data, version, machine, dyn, fun _ => phentsize, inside⟩

end

/-- A file of zeros where the magic should be. -/
def noMagicFile : FsFile :=
  ⟨elfFileBytes [0, 0, 0, 0] 1 [zeroSegment 0 2], by decide, fun _ _ => none, noError_neg⟩

/-- A file without the magic is loaded like any other. -/
theorem not_accepts_real : ¬ ∀ (env : SpaceEnv) (file : FsFile) (m : Bytes.Memory) (fmt : Fmt)
    (s : Space), (elfLoad env file m fmt s).1 = .ret 0 → RealElf file := by
  intro real
  have loadable : Loadable noMagicFile fun _ => 0 := by
    have segments : elfFileSegments noMagicFile (fun _ => 0) = ([zeroSegment 0 2], 0) := by
      decide
    refine ⟨by decide, by simp only [segments, Int.le_refl], ?_, 1, by decide, ?_⟩
    · rw [segments]
      intro ph mem
      rw [List.mem_singleton.mp mem]
      exact .inl rfl
    · rw [segments]
      exact ⟨⟨by decide, nofun⟩, by decide⟩
  obtain ⟨env, s, zero⟩ := accepted_of_loadable loadable ⟨0, []⟩
  have magic := (real env noMagicFile (fun _ => 0) ⟨0, []⟩ s zero).magic
  exact absurd magic (by decide)

end Sdx.Fs
