import Sdx.Core.AhciCmd

/-! # SATA requests (`core/ahci/sata.c`, `core/ahci/ahci.c`, `core/disk/disk.c`)

A request names its sectors in a FIS at the start of the command table, with six bytes for the LBA and
16 bits for the count, and its buffer in the table of PRDs behind it. Nobody bounds the count before.
-/

namespace Sdx.Core

open Sdx.Mm

/-- `disk_op_t`. -/
inductive DiskOp where
  | read
  | write
  | info
  deriving DecidableEq

/-- `ahci_protocol_t`. -/
inductive AhciProtocol where
  | sata
  | atapi
  deriving DecidableEq

/-- The commands of `enum ahci_ata_cmd` that are used for SATA. -/
def ahciAtaReadDmaExt : UInt8 := 0x25
def ahciAtaWriteDmaExt : UInt8 := 0x35
def ahciAtaIdentifyDevice : UInt8 := 0xec

/-- `SATA_FIS_REG_H2D` and `SATA_FIS_H2D_COMMAND`. -/
def sataFisRegH2d : UInt8 := 0x27
def sataFisH2dCommand : Nat := 1

/-- `struct sata_fis_h2d`, but for the fields that stay cleared. -/
structure SataFisH2d where
  type : UInt8
  c : Nat
  command : UInt8
  lba0 : UInt8
  lba1 : UInt8
  lba2 : UInt8
  device : UInt8
  lba3 : UInt8
  lba4 : UInt8
  lba5 : UInt8
  count : UInt16

/-- `sizeof(struct sata_fis_h2d)`. -/
def sataFisH2dSize : Nat := 20

/-- `struct ahci_sata_cmd`. -/
structure AhciSataCmd where
  cmd : UInt8
  device : UInt8
  useSectors : Bool
  useLba : Bool

/-- `ahci_sata_cmds`. -/
def ahciSataCmds : List AhciSataCmd :=
  [⟨ahciAtaReadDmaExt, (1 : UInt8) <<< 6, true, true⟩,
    ⟨ahciAtaWriteDmaExt, (1 : UInt8) <<< 6, true, true⟩,
    ⟨ahciAtaIdentifyDevice, 0, false, false⟩]

/-- `__ahci_sata_find_props`. -/
def ahciSataFindProps (cmd : UInt8) : Option AhciSataCmd := ahciSataCmds.find? (·.cmd = cmd)

/-- `__ahci_sata_new`: the FIS, or `none` when it returns `false`. -/
def ahciSataNew (cmd : UInt8) (lba sectorCount : Nat) : Option SataFisH2d := do
  let c ← ahciSataFindProps cmd
  let byte (shift : Nat) : UInt8 := if c.useLba then UInt8.ofNat ((lba >>> shift) &&& 0xff) else 0
  some {
    type := sataFisRegH2d
    c := sataFisH2dCommand
    command := cmd
    device := c.device
    lba0 := byte 0
    lba1 := byte 8
    lba2 := byte 16
    lba3 := byte 24
    lba4 := byte 32
    lba5 := byte 40
    count := if c.useSectors then UInt16.ofNat sectorCount else 0 }

/-- The command memory with the FIS at the start of each table, and the `write` bit of each header. -/
structure AhciSataMemory extends AhciMemory where
  cfis : BitVec 64 → SataFisH2d
  write : BitVec 64 → Nat

/-- `ahci_port_data_t` as far as it is used, with the sector size of its disk. -/
structure AhciPortData where
  port : AhciPort
  protocol : AhciProtocol
  vaddr : BitVec 64
  sectorSize : Nat

/-- A command at the time it is issued: the memory, and its header and table. -/
structure AhciIssue where
  mem : AhciSataMemory
  header : BitVec 64
  table : BitVec 64

/-- What an operation returns, and the command if it has issued one. -/
structure AhciResult where
  err : Int
  issued : Option AhciIssue

/-- `ahci_sata_port_read` and `ahci_sata_port_write`, which differ in the command and in the `write`
    bit. What `ahci_cmd_issue` returns is up to the controller. -/
def ahciSataPortTransfer (command : UInt8) (write : Nat) (s : Vmm) (mem : AhciSataMemory)
    (ahciCmdIssue : AhciIssue → Int) (data : AhciPortData) (lba sectorCount : Nat) (buf : BitVec 64) :
    Option AhciResult := do
  let cmd : AhciCmd := {
    vaddr := data.vaddr
    port := data.port
    data := buf
    dataSize := wrap64 (sectorCount * data.sectorSize)
    fisSize := sataFisH2dSize
    slot := none
    header := none
    table := none }
  let (err, mem', cmd) ← ahciCmdSetup s mem.toAhciMemory cmd
  if err ≠ 0 then some ⟨err, none⟩
  else do
    let header ← cmd.header
    let table ← cmd.table
    match ahciSataNew command lba sectorCount with
    | none => some ⟨-eFAULT, none⟩
    | some fis =>
        let cfis := Function.update mem.cfis table fis
        let issue := ⟨⟨mem', cfis, Function.update mem.write header write⟩, header, table⟩
        some ⟨ahciCmdIssue issue, some issue⟩

def ahciSataPortRead := ahciSataPortTransfer ahciAtaReadDmaExt 0

def ahciSataPortWrite := ahciSataPortTransfer ahciAtaWriteDmaExt 1

/-- The functions of `ahci_protocol_funcs`. -/
inductive AhciOpFunc where
  | sataPortRead
  | sataPortWrite
  | sataPortInfo
  | atapiPortRead
  | atapiPortWrite
  | atapiPortInfo

/-- `struct ahci_protocol_func`. -/
structure AhciProtocolFunc where
  protocol : AhciProtocol
  op : DiskOp
  func : AhciOpFunc
  needsBuffer : Bool

/-- `ahci_protocol_funcs`. -/
def ahciProtocolFuncs : List AhciProtocolFunc :=
  [⟨.sata, .read, .sataPortRead, true⟩, ⟨.sata, .write, .sataPortWrite, true⟩,
    ⟨.sata, .info, .sataPortInfo, false⟩, ⟨.atapi, .read, .atapiPortRead, true⟩,
    ⟨.atapi, .write, .atapiPortWrite, true⟩, ⟨.atapi, .info, .atapiPortInfo, false⟩]

/-- `ahci_do` of a port that is not `NULL`; `call` runs the function that it finds. -/
def ahciDo (call : AhciOpFunc → Nat → Nat → BitVec 64 → Option AhciResult) (data : AhciPortData)
    (op : DiskOp) (lba sectorCount : Nat) (buffer : BitVec 64) : Option AhciResult :=
  match ahciProtocolFuncs.find? fun pf => pf.op = op ∧ pf.protocol = data.protocol with
  | none => some ⟨-eINVAL, none⟩
  | some pf =>
      if pf.needsBuffer ∧ (buffer = 0 ∨ sectorCount = 0) then some ⟨-eINVAL, none⟩
      else call pf.func lba sectorCount buffer

/-- The calls of `ahci_do`; `other` is the function that is not one of the two here. -/
def ahciOpCall (s : Vmm) (mem : AhciSataMemory) (ahciCmdIssue : AhciIssue → Int)
    (other : AhciOpFunc → Nat → Nat → BitVec 64 → Option AhciResult) (data : AhciPortData) :
    AhciOpFunc → Nat → Nat → BitVec 64 → Option AhciResult
  | .sataPortRead => ahciSataPortRead s mem ahciCmdIssue data
  | .sataPortWrite => ahciSataPortWrite s mem ahciCmdIssue data
  | func => other func

/-- `disk_do` of a disk behind an AHCI port: whether it is done, and the command. -/
def diskDoAhci (call : AhciOpFunc → Nat → Nat → BitVec 64 → Option AhciResult) (data : AhciPortData)
    (op : DiskOp) (lba sectorCount : Nat) (buf : BitVec 64) : Option (Bool × Option AhciIssue) :=
  (ahciDo call data op lba sectorCount buf).map fun r => (r.err == 0, r.issued)

/-! ## What the FIS says -/

/-- The LBA of the six bytes. -/
def SataFisH2d.lba (fis : SataFisH2d) : Nat :=
  fis.lba0.toNat + 2 ^ 8 * fis.lba1.toNat + 2 ^ 16 * fis.lba2.toNat + 2 ^ 24 * fis.lba3.toNat +
    2 ^ 32 * fis.lba4.toNat + 2 ^ 40 * fis.lba5.toNat

/-- The number of sectors; a count of 0 stands for 65536. -/
def SataFisH2d.sectors (fis : SataFisH2d) : Nat := if fis.count = 0 then 65536 else fis.count.toNat

/-- An operation fails before it issues a command, or the FIS names its sectors and the PRDs in their
    table have room for its bytes. -/
def RequestEncoded (done : Option (Bool × Option AhciIssue)) (lba sectorCount size : Nat) : Prop :=
  ∃ ok issued, done = some (ok, issued) ∧
    match issued with
    | none => ok = false
    | some i => (i.mem.cfis i.table).lba = lba ∧ (i.mem.cfis i.table).sectors = sectorCount ∧
        (i.mem.headers i.header).prdtl ≤ ahciPrdtlMax ∧
        (((i.mem.tables i.table).prdt.take (i.mem.headers i.header).prdtl).map (·.dbc + 1)).sum = size

section

variable {command : UInt8} {write lba sectorCount : Nat} {s : Vmm} {mem : AhciSataMemory}
  {ahciCmdIssue : AhciIssue → Int} {data : AhciPortData} {buf a : BitVec 64} {fis : SataFisH2d}
  {prdtl size passes i : Nat} {prdt prdt' : List AhciPrd}

theorem toNat_byte {shift : Nat} :
    (UInt8.ofNat ((lba >>> shift) &&& 0xff)).toNat = lba / 2 ^ shift % 256 := by
  have mask := Nat.and_two_pow_sub_one_eq_mod (lba >>> shift) 8
  rw [UInt8.toNat_ofNat', show 0xff = 2 ^ 8 - 1 from rfl, mask, Nat.mod_mod,
    Nat.shiftRight_eq_div_pow]

/-- The commands for transfers use both registers. -/
theorem ahciSataNew_transfer (transfer : command = ahciAtaReadDmaExt ∨ command = ahciAtaWriteDmaExt)
    (small : lba < 2 ^ 48) : ∃ fis, ahciSataNew command lba sectorCount = some fis ∧ fis.lba = lba ∧
      fis.count = UInt16.ofNat sectorCount := by
  have bytes : lba / 2 ^ 0 % 256 + 2 ^ 8 * (lba / 2 ^ 8 % 256) + 2 ^ 16 * (lba / 2 ^ 16 % 256) +
      2 ^ 24 * (lba / 2 ^ 24 % 256) + 2 ^ 32 * (lba / 2 ^ 32 % 256) +
      2 ^ 40 * (lba / 2 ^ 40 % 256) = lba := by omega
  rcases transfer with rfl | rfl
  · refine ⟨_, rfl, ?_, rfl⟩
    simpa only [SataFisH2d.lba, if_true, toNat_byte] using bytes
  · refine ⟨_, rfl, ?_, rfl⟩
    simpa only [SataFisH2d.lba, if_true, toNat_byte] using bytes

theorem sectors_eq_iff (count : fis.count = UInt16.ofNat sectorCount) (some' : 1 ≤ sectorCount) :
    fis.sectors = sectorCount ↔ sectorCount ≤ 65536 := by
  have value : fis.count.toNat = sectorCount % 65536 := by rw [count, UInt16.toNat_ofNat']
  have zero : fis.count = 0 ↔ sectorCount % 65536 = 0 := by
    rw [← value, ← UInt16.toNat_inj]
    rfl
  simp only [SataFisH2d.sectors, zero, value]
  split
  · omega
  · omega

/-! ## The counts of the PRDs -/

/-- A count has 22 bits. -/
theorem ahciSetPrds_dbc (run : ahciSetPrds s prdtl passes i a size prdt = some prdt')
    (small : ∀ prd ∈ prdt, prd.dbc < ahciPrdDataMax) : ∀ prd ∈ prdt', prd.dbc < ahciPrdDataMax := by
  induction passes generalizing i a size prdt with
  | zero =>
      cases run
      exact small
  | succ passes ih =>
      rw [ahciSetPrds] at run
      split at run
      · cases run
      · obtain ⟨dba, -, run⟩ := Option.bind_eq_some_iff.mp run
        refine ih run fun prd mem => ?_
        obtain here | rfl := List.mem_or_eq_of_mem_set mem
        · exact small prd here
        · exact Nat.mod_lt _ (by decide)

/-- PRDs name no more than 4 MiB each. -/
theorem sum_dbc_le (small : ∀ prd ∈ prdt, prd.dbc < ahciPrdDataMax) :
    (prdt.map (·.dbc + 1)).sum ≤ prdt.length * ahciPrdDataMax := by
  induction prdt with
  | nil => simp
  | cons prd prdt ih =>
      have first := small prd List.mem_cons_self
      have rest := ih fun prd mem => small prd (List.mem_cons_of_mem _ mem)
      rw [List.map_cons, List.sum_cons, List.length_cons, Nat.succ_mul]
      omega

/-- The counts are those of the bytes. -/
theorem sum_dbc_eq (last : (prdtl - 1) * ahciPrdDataMax < size)
    (enough : size ≤ prdtl * ahciPrdDataMax) :
    (((List.range prdtl).map (ahciPrd s a size)).map (·.dbc + 1)).sum = size := by
  have bytes := congrArg List.length (@ahciPrdBytes_eq s a size prdtl last enough)
  simpa [ahciPrdBytes, List.length_flatMap, Function.comp_def] using bytes

/-! ## One request -/

/-- The table of PRDs that a request for `size` bytes needs is filled in. -/
def PrdsFilled (s : Vmm) (buf : BitVec 64) (size total : Nat) : Prop :=
  ∃ prdt, ahciSetPrds s (ahciPrdtlFromSize size % 2 ^ 16) (ahciPrdtlFromSize size % 2 ^ 16) 0 buf size
      (List.replicate ahciPrdtlMax ⟨0, 0, 0⟩) = some prdt ∧
    ahciPrdtlFromSize size % 2 ^ 16 ≤ ahciPrdtlMax ∧
    ((prdt.take (ahciPrdtlFromSize size % 2 ^ 16)).map (·.dbc + 1)).sum = total

/-- The size is `uint64_t`, and what the PRDs name is the product if that is at most 32 MiB. -/
theorem prdsFilled_iff (rec : Recursive s.mem s.cr3) {total : Nat} :
    PrdsFilled s buf (wrap64 total) total ↔ total ≤ ahciPrdtlMax * ahciPrdDataMax := by
  constructor
  · rintro ⟨prdt, run, few, sum⟩
    have small := ahciSetPrds_dbc run fun prd mem => by
      rw [List.eq_of_mem_replicate mem]
      decide
    have le := @sum_dbc_le (prdt.take (ahciPrdtlFromSize (wrap64 total) % 2 ^ 16)) fun prd mem =>
      small prd (List.mem_of_mem_take mem)
    rw [sum] at le
    exact le.trans (Nat.mul_le_mul_right _ ((List.length_take_le _ _).trans few))
  · intro fits
    have bound : total < 2 ^ 64 := Nat.lt_of_le_of_lt fits (by decide)
    rw [wrap64_of_lt bound]
    rcases Nat.eq_zero_or_pos total with rfl | some'
    · exact ⟨_, rfl, by decide, rfl⟩
    · obtain ⟨few, -, last, enough⟩ := ahciPrdtl_cases some' fits rfl
      obtain ⟨prdt, run, entries⟩ := @ahciSetPrds_take s buf total _ rec last enough bound few
      exact ⟨prdt, run, few, by rw [entries, sum_dbc_eq last enough]⟩

/-- A transfer on a port with a free slot. -/
theorem ahciSataPortTransfer_encoded (transfer : command = ahciAtaReadDmaExt ∨ command = ahciAtaWriteDmaExt)
    (small : lba < 2 ^ 48) (some' : 1 ≤ sectorCount) {slot : Nat}
    (free : ahciFreeSlot data.port = some slot) :
    RequestEncoded ((ahciSataPortTransfer command write s mem ahciCmdIssue data lba sectorCount
      buf).map fun r => (r.err == 0, r.issued)) lba sectorCount (sectorCount * data.sectorSize) ↔
      sectorCount ≤ 65536 ∧ PrdsFilled s buf (wrap64 (sectorCount * data.sectorSize))
        (sectorCount * data.sectorSize) := by
  obtain ⟨fis, new, lba_eq, count⟩ := @ahciSataNew_transfer command lba sectorCount transfer small
  simp only [ahciSataPortTransfer, ahciCmdSetup, free, sataFisH2dSize, new, PrdsFilled]
  generalize wrap64 (sectorCount * data.sectorSize) = size
  cases run : ahciSetPrds s (ahciPrdtlFromSize size % 2 ^ 16) (ahciPrdtlFromSize size % 2 ^ 16) 0 buf size
      (List.replicate ahciPrdtlMax ⟨0, 0, 0⟩) with
  | none => simp [RequestEncoded]
  | some prdt => simp [RequestEncoded, lba_eq, sectors_eq_iff count some']

/-- Without a slot the operation fails. -/
theorem ahciSataPortTransfer_full (full : ahciFreeSlot data.port = none) :
    RequestEncoded ((ahciSataPortTransfer command write s mem ahciCmdIssue data lba sectorCount
      buf).map fun r => (r.err == 0, r.issued)) lba sectorCount size := by
  simp [ahciSataPortTransfer, ahciCmdSetup, full, RequestEncoded, eFAULT]

variable {other : AhciOpFunc → Nat → Nat → BitVec 64 → Option AhciResult} {op : DiskOp}

/-- A transfer on a SATA port goes to one of the two functions. -/
theorem diskDoAhci_sata (sata : data.protocol = .sata) (transfer : op = .read ∨ op = .write)
    (buffer : buf ≠ 0) (some' : 1 ≤ sectorCount) : ∃ command write,
      (command = ahciAtaReadDmaExt ∨ command = ahciAtaWriteDmaExt) ∧
      diskDoAhci (ahciOpCall s mem ahciCmdIssue other data) data op lba sectorCount buf =
        (ahciSataPortTransfer command write s mem ahciCmdIssue data lba sectorCount buf).map
          fun r => (r.err == 0, r.issued) := by
  have given : ¬(buf = 0#64 ∨ sectorCount = 0) := not_or.mpr ⟨buffer, by omega⟩
  rcases transfer with rfl | rfl
  · refine ⟨_, 0, .inl rfl, ?_⟩
    simp [diskDoAhci, ahciDo, ahciProtocolFuncs, sata, given, ahciOpCall, ahciSataPortRead]
  · refine ⟨_, 1, .inr rfl, ?_⟩
    simp [diskDoAhci, ahciDo, ahciProtocolFuncs, sata, given, ahciOpCall, ahciSataPortWrite]

/-- Without a buffer it fails. -/
theorem diskDoAhci_null (sata : data.protocol = .sata) (transfer : op = .read ∨ op = .write) :
    RequestEncoded (diskDoAhci (ahciOpCall s mem ahciCmdIssue other data) data op lba sectorCount 0)
      lba sectorCount size := by
  rcases transfer with rfl | rfl
  · simp [diskDoAhci, ahciDo, ahciProtocolFuncs, sata, RequestEncoded, eINVAL]
  · simp [diskDoAhci, ahciDo, ahciProtocolFuncs, sata, RequestEncoded, eINVAL]

/-- A request with a buffer and a free slot is encoded exactly up to both limits. -/
theorem requestEncoded_free (rec : Recursive s.mem s.cr3) (sata : data.protocol = .sata)
    (transfer : op = .read ∨ op = .write) (small : lba < 2 ^ 48) (some' : 1 ≤ sectorCount)
    (buffer : buf ≠ 0) {slot : Nat} (free : ahciFreeSlot data.port = some slot) :
    RequestEncoded (diskDoAhci (ahciOpCall s mem ahciCmdIssue other data) data op lba sectorCount buf)
        lba sectorCount (sectorCount * data.sectorSize) ↔
      sectorCount ≤ 65536 ∧ sectorCount * data.sectorSize ≤ 32 * 1024 * 1024 := by
  obtain ⟨command, write, known, done⟩ := @diskDoAhci_sata lba sectorCount s mem ahciCmdIssue data buf
    other op sata transfer buffer some'
  rw [done, ahciSataPortTransfer_encoded known small some' free, prdsFilled_iff rec]
  rfl

/-- A transfer on a SATA port fails before it issues a command, or is encoded as it is asked for,
    exactly if there is no buffer or no free slot, or if neither the number of sectors nor the number
    of bytes is beyond its limit. -/
theorem requestEncoded_iff (s : Vmm) (rec : Recursive s.mem s.cr3) (mem : AhciSataMemory)
    (ahciCmdIssue : AhciIssue → Int)
    (other : AhciOpFunc → Nat → Nat → BitVec 64 → Option AhciResult) (data : AhciPortData)
    (sata : data.protocol = .sata) (op : DiskOp) (transfer : op = .read ∨ op = .write)
    (lba sectorCount : Nat) (small : lba < 2 ^ 48) (some' : 1 ≤ sectorCount) (buf : BitVec 64) :
    RequestEncoded (diskDoAhci (ahciOpCall s mem ahciCmdIssue other data) data op lba sectorCount buf)
        lba sectorCount (sectorCount * data.sectorSize) ↔
      buf = 0 ∨ ahciFreeSlot data.port = none ∨
        sectorCount ≤ 65536 ∧ sectorCount * data.sectorSize ≤ 32 * 1024 * 1024 := by
  by_cases buffer : buf = 0
  · subst buffer
    exact iff_of_true (diskDoAhci_null sata transfer) (.inl rfl)
  · rw [or_iff_right buffer]
    cases free : ahciFreeSlot data.port with
    | none =>
        obtain ⟨command, write, -, done⟩ := @diskDoAhci_sata lba sectorCount s mem ahciCmdIssue data
          buf other op sata transfer buffer some'
        rw [done]
        exact iff_of_true (ahciSataPortTransfer_full free) (.inl rfl)
    | some slot =>
        rw [requestEncoded_free rec sata transfer small some' buffer free]
        simp

end

/-! ### A disk with sectors of 512 bytes -/

/-- The SATA port of a disk with sectors of 512 bytes, without a command. -/
def idlePort : AhciPortData := ⟨⟨0, 0, 0⟩, .sata, 0, 512⟩

def clearedSataMemory : AhciSataMemory :=
  { clearedMemory with cfis := fun _ => ⟨0, 0, 0, 0, 0, 0, 0, 0, 0, 0, 0⟩, write := fun _ => 0 }

/-- 65536 sectors are the most. -/
theorem requestEncoded_iff_most : RequestEncoded
    (diskDoAhci (ahciOpCall scattered clearedSataMemory (fun _ => 0) (fun _ _ _ _ => none) idlePort)
      idlePort .read 7 65536 0x2000) 7 65536 (65536 * 512) :=
  (requestEncoded_iff scattered recursive_scattered clearedSataMemory (fun _ => 0)
    (fun _ _ _ _ => none) idlePort rfl .read (.inl rfl) 7 65536 (by decide) (by decide) 0x2000).mpr
    (.inr (.inr ⟨by decide, by decide⟩))

/-- One sector more needs a ninth PRD, and its FIS asks for one sector. -/
theorem not_requestEncoded : ¬ ∀ (s : Vmm) (mem : AhciSataMemory) (ahciCmdIssue : AhciIssue → Int)
    (other : AhciOpFunc → Nat → Nat → BitVec 64 → Option AhciResult) (data : AhciPortData)
    (op : DiskOp) (lba sectorCount : Nat) (buf : BitVec 64), Recursive s.mem s.cr3 →
    data.protocol = .sata → op = .read ∨ op = .write → lba < 2 ^ 48 → 1 ≤ sectorCount →
    RequestEncoded (diskDoAhci (ahciOpCall s mem ahciCmdIssue other data) data op lba sectorCount buf)
      lba sectorCount (sectorCount * data.sectorSize) := by
  intro always
  have encoded := always scattered clearedSataMemory (fun _ => 0) (fun _ _ _ _ => none) idlePort .read
    7 65537 0x2000 recursive_scattered rfl (.inl rfl) (by decide) (by decide)
  rw [@requestEncoded_free 7 65537 scattered clearedSataMemory _ idlePort 0x2000 _ .read
    recursive_scattered rfl (.inl rfl) (by decide) (by decide) (by decide) 0 (by decide)] at encoded
  exact absurd encoded.1 (by decide)

end Sdx.Core
