import Sdx.Mm.Region

/-! # The ELF loader (`fs/fmt/elf.c`, `fs/fmt/fmt.c`)

The headers of the file are read into structures byte by byte, so a read that comes back short
leaves the rest of the structure as it was: zeros in the ELF header, and whatever was on the
stack in the program header. The ways out of `__elf_load_dyn` are kept apart.
-/

namespace Sdx.Fs

open Sdx.Lib Sdx.Mm

/-- A file, and the errors of reading it by offset and size. -/
structure FsFile where
  bytes : List UInt8
  size_lt : bytes.length < 2 ^ 64
  error : Nat → Nat → Option Int
  error_neg : ∀ offset size err, error offset size = some err → err < 0

/-- A file that is always read has no error. -/
theorem noError_neg (_offset _size : Nat) (err : Int) (some_err : none = some err) : err < 0 :=
  nomatch some_err

/-- `vfs_read`: the number of bytes that were read, or an error, and the bytes. -/
def vfsRead (file : FsFile) (offset size : Nat) : Int × List UInt8 :=
  match file.error offset size with
  | some err => (err, [])
  | none =>
      let bytes := (file.bytes.drop offset).take size
      (bytes.length, bytes)

/-! ## The headers -/

/-- `struct elf_header` as far as the loader reads it. -/
structure ElfHeader where
  ident : Nat → UInt8
  type : Nat
  machine : Nat
  entry : Nat
  phoff : Nat
  phentsize : Nat
  phnum : Nat

/-- `sizeof(struct elf_header)`. -/
def elfHeaderSize : Nat := 64

def elfHeader (m : Bytes.Memory) : ElfHeader where
  ident := m
  type := Bytes.read m 16 2
  machine := Bytes.read m 18 2
  entry := Bytes.read m 24 8
  phoff := Bytes.read m 32 8
  phentsize := Bytes.read m 54 2
  phnum := Bytes.read m 56 2

def elfIdentClass : Nat := 4
def elfIdentData : Nat := 5
def elfIdentVersion : Nat := 6

def elfMagic : List UInt8 := [0x7f, 0x45, 0x4c, 0x46]
def elfClass64 : UInt8 := 2
def elfData2Lsb : UInt8 := 1
def elfTypeDyn : Nat := 3
def elfMachineX86_64 : Nat := 62
def elfVersionCurrent : UInt8 := 1

/-- `struct elf_program_header` as far as the loader reads it. -/
structure ElfProgramHeader where
  type : Nat
  flags : Nat
  offset : Nat
  vaddr : Nat
  filesz : Nat
  memsz : Nat
  deriving DecidableEq

/-- `sizeof(struct elf_program_header)`. -/
def elfProgramHeaderSize : Nat := 56

def elfProgramHeader (m : Bytes.Memory) : ElfProgramHeader where
  type := Bytes.read m 0 4
  flags := Bytes.read m 4 4
  offset := Bytes.read m 8 8
  vaddr := Bytes.read m 16 8
  filesz := Bytes.read m 32 8
  memsz := Bytes.read m 40 8

def elfPhTypeLoad : Nat := 1

/-- Whether a bit of the flags of a program header is set. -/
def elfPhFlagX (ph : ElfProgramHeader) : Bool := ph.flags.testBit 0
def elfPhFlagW (ph : ElfProgramHeader) : Bool := ph.flags.testBit 1
def elfPhFlagR (ph : ElfProgramHeader) : Bool := ph.flags.testBit 2

/-- The loop of `__elf_check_magic`. -/
def elfCheckMagicLoop (header : ElfHeader) : Nat → List UInt8 → Bool
  | _, [] => true
  | i, c :: magic => if header.ident i ≠ c then false else elfCheckMagicLoop header (i + 1) magic

/-- `__elf_check_magic`. -/
def elfCheckMagic (header : ElfHeader) : Bool := elfCheckMagicLoop header 0 elfMagic

/-- `__elf_check`: a message, or `NULL`. A wrong magic gives `false`, which is `NULL`. -/
def elfCheck (header : ElfHeader) : Option String :=
  if !elfCheckMagic header then none
  else if header.ident elfIdentClass ≠ elfClass64 then some "unsupported class"
  else if header.ident elfIdentData ≠ elfData2Lsb then some "unsupported byte order"
  else if header.machine ≠ elfMachineX86_64 then some "unsupported machine"
  else if header.ident elfIdentVersion ≠ elfVersionCurrent then some "unsupported version"
  else none

/-! ## Loading -/

/-- `__elf_ph_next`: the result of the read, 0 behind the last header, or an error, with what is in
    the program header then and the next `ph_pos`. -/
def elfPhNext (file : FsFile) (header : ElfHeader) (phPos : Nat) (m : Bytes.Memory) :
    Int × Bytes.Memory × Nat :=
  if header.phnum ≤ phPos then (0, m, phPos)
  else if header.phentsize ≠ elfProgramHeaderSize then (-eNOEXEC, m, phPos)
  else
    let offset := wrap64 (header.phoff + header.phentsize * phPos)
    let (err, bytes) := vfsRead file offset elfProgramHeaderSize
    (err, Bytes.store m 0 bytes, phPos + 1)

/-- How `__elf_load_dyn` ends: it returns an error of its own or 0, `region_new` or `region_map`
    failed, the contents of a segment could not be read, a write faulted, or there is no end to the
    search for free pages. -/
inductive ElfExit where
  | ret (err : Int)
  | noRegion
  | notMapped (err : Int)
  | notRead
  | fault
  | endless
  deriving DecidableEq

/-- The value returned, if there is one. -/
def ElfExit.err : ElfExit → Option Int
  | .ret err => some err
  | .noRegion => some (-eNOMEM)
  | .notMapped err => some err
  | .notRead => some (- eIO)
  | .fault => none
  | .endless => none

/-- The entry and the regions of `struct elf`, and `pos` of `__elf_load_dyn`, which is 0 for
    `NULL`. -/
structure ElfLoad where
  entry : Nat
  mem : List Region
  pos : Nat
  space : Space

/-- The type of the region of a segment. -/
def elfRegionType (ph : ElfProgramHeader) : RegionType :=
  if !elfPhFlagR ph && !elfPhFlagW ph then .rdonly
  else if !elfPhFlagX ph then .data
  else .code

/-- The contents of a segment: `filesz` bytes from the file, then zeros up to `memsz`. -/
def elfFillSegment (file : FsFile) (s : Space) (pos : Nat) (ph : ElfProgramHeader) :
    Except ElfExit Space :=
  let (err, bytes) := if ph.filesz ≠ 0 then vfsRead file ph.offset ph.filesz else (0, [])
  if err < 0 then .error .notRead
  else
    match s.store pos bytes with
    | none => .error .fault
    | some s =>
        match s.store (pos + ph.filesz) (List.replicate (ph.memsz - ph.filesz) 0) with
        | none => .error .fault
        | some s => .ok s

/-- The body of the loop for a segment that is not empty. -/
def elfLoadSegment (env : SpaceEnv) (file : FsFile) (header : ElfHeader) (st : ElfLoad)
    (ph : ElfProgramHeader) : Except (ElfExit × ElfLoad) ElfLoad :=
  let size := vmmAlign ph.memsz
  match regionNew env st.space (elfRegionType ph) true st.pos (vmmCalc size) with
  | (none, space) => .error (.noRegion, { st with space := space })
  | (some mem, space) =>
      match regionMap env space mem with
      | none => .error (.endless, { st with space := space })
      | some (err, mem, space) =>
          if err ≠ 0 then .error (.notMapped err, { st with space := space })
          else
            let pos := if st.pos = 0 then mem.vaddr else st.pos
            let st := ⟨st.entry, st.mem ++ [mem], pos, space⟩
            match elfFillSegment file space pos ph with
            | .error exit => .error (exit, st)
            | .ok space =>
                let entry := if ph.vaddr < header.entry ∧ wrap64 (ph.vaddr + ph.memsz) > header.entry
                  then wrap64 (pos + header.entry) else st.entry
                .ok ⟨entry, st.mem, wrap64 (pos + size), space⟩

/-- The loop of `__elf_load_dyn`; at most `phnum` headers are read. -/
def elfLoadDynLoop (env : SpaceEnv) (file : FsFile) (header : ElfHeader) :
    Nat → Nat → Bytes.Memory → ElfLoad → Except (ElfExit × ElfLoad) (Int × ElfLoad)
  | 0, _, _, st => .ok (0, st)
  | fuel + 1, phPos, m, st =>
      let (err, m, phPos) := elfPhNext file header phPos m
      if err > 0 then
        let ph := elfProgramHeader m
        if ph.type ≠ elfPhTypeLoad ∨ ph.memsz = 0 then elfLoadDynLoop env file header fuel phPos m st
        else (elfLoadSegment env file header st ph).bind
          fun st => elfLoadDynLoop env file header fuel phPos m st
      else .ok (err, st)

/-- `__elf_load_dyn`. -/
def elfLoadDyn (env : SpaceEnv) (file : FsFile) (header : ElfHeader) (m : Bytes.Memory)
    (st : ElfLoad) : ElfExit × ElfLoad :=
  match elfLoadDynLoop env file header (header.phnum + 1) 0 m st with
  | .error (exit, st) => (exit, st)
  | .ok (err, st) =>
      if err < 0 then (.ret err, st)
      else if st.entry = 0 then (.ret (-eNOEXEC), st)
      else (.ret 0, st)

/-- `fmt_t`. -/
structure Fmt where
  entry : Nat
  mem : List Region

/-- The ELF header that `elf_load` reads over zeros. -/
def elfReadHeader (file : FsFile) : Int × ElfHeader :=
  let (err, bytes) := vfsRead file 0 elfHeaderSize
  (err, elfHeader (Bytes.store (fun _ => 0) 0 bytes))

/-- `elf_load`; `m` is what the program header holds before the first one is read. -/
def elfLoad (env : SpaceEnv) (file : FsFile) (m : Bytes.Memory) (fmt : Fmt) (s : Space) :
    ElfExit × Fmt × Space :=
  let (err, header) := elfReadHeader file
  if err < 0 then (.ret err, fmt, s)
  else if (elfCheck header).isSome then (.ret (-eNOEXEC), fmt, s)
  else if header.type ≠ elfTypeDyn then (.ret (-eNOEXEC), fmt, s)
  else
    let (exit, st) := elfLoadDyn env file header m ⟨0, [], 0, s⟩
    (exit, ⟨st.entry, st.mem⟩, st.space)

/-! ## Formats -/

/-- `fmt_free`. The loop over the regions unmaps the first one each time. -/
def fmtFree (s : Space) (fmt : Fmt) : Space × Fmt :=
  let s := fmt.mem.foldl (fun s _ =>
    match fmt.mem.head? with
    | none => s
    | some mem => (regionUnmap s mem).2) s
  (fmt.mem.foldl regionFree s, ⟨0, []⟩)

/-- The loop of `fmt_load` over the loaders; `none` for a loader that does not come back. -/
def fmtLoadLoop (s : Space) (fmt : Fmt) :
    List (Fmt → Space → ElfExit × Fmt × Space) → Option (Int × Fmt × Space)
  | [] => some (-eNOEXEC, fmt, s)
  | load :: table =>
      match load fmt s with
      | (exit, fmt, s) =>
          match exit.err with
          | none => none
          | some err =>
              if err = 0 then some (0, fmt, s)
              else
                let (s, fmt) := fmtFree s fmt
                if err ≠ -eNOEXEC then some (err, fmt, s) else fmtLoadLoop s fmt table

/-- `fmt_load`; the only loader in the table is ELF. -/
def fmtLoad (env : SpaceEnv) (file : FsFile) (m : Bytes.Memory) (s : Space) :
    Option (Int × Fmt × Space) :=
  fmtLoadLoop s ⟨0, []⟩ [elfLoad env file m]

end Sdx.Fs
