import Sdx.Mm.VmmLinear

/-! # AHCI commands (`core/ahci/cmd.c`, `inc/core/ahci.h`)

A command names its buffer to the controller by physical regions. `ahci_cmd_setup` makes one
region for every 4 MiB of the buffer, from the address of its first byte. The command list and
the command tables of a port are apart from each other, so they are two memories here.
-/

namespace Sdx.Core

open Sdx.Mm

/-- `AHCI_PRD_DATA_MAX`, `AHCI_PRDTL_MAX` and `AHCI_PORT_CMD_LIST_COUNT`. -/
def ahciPrdDataMax : Nat := 4 * 1024 * 1024
def ahciPrdtlMax : Nat := 8
def ahciPortCmdListCount : Nat := 32

/-- `struct ahci_prd`. -/
structure AhciPrd where
  dba : BitVec 64
  dbc : Nat
  interrupt : Nat

/-- `struct ahci_cmd_table`, whose other fields are cleared and set by the callers. -/
structure AhciCmdTable where
  prdt : List AhciPrd

/-- `struct ahci_cmd_header` as far as it is used. -/
structure AhciCmdHeader where
  cfl : Nat
  prdtl : Nat
  ctba : BitVec 64

/-- `ahci_port_t` as far as it is used. -/
structure AhciPort where
  clb : BitVec 64
  sact : BitVec 32
  ci : BitVec 32

/-- The command headers and the command tables at their addresses. -/
structure AhciMemory where
  headers : BitVec 64 → AhciCmdHeader
  tables : BitVec 64 → AhciCmdTable

/-- `ahci_cmd_t`; a `slot` of `-1` and the `NULL` pointers are `none`. -/
structure AhciCmd where
  port : AhciPort
  vaddr : BitVec 64
  fisSize : Nat
  dataSize : Nat
  data : BitVec 64
  slot : Option Nat
  header : Option (BitVec 64)
  table : Option (BitVec 64)

/-- `ahci_prdtl_from_size`. -/
def ahciPrdtlFromSize (size : Nat) : Nat := divCeil size ahciPrdDataMax

/-- The first slot that is neither active nor issued. -/
def ahciFreeSlot (port : AhciPort) : Option Nat :=
  (List.range ahciPortCmdListCount).find? fun i => !(port.sact.getLsbD i || port.ci.getLsbD i)

/-- The loop of `ahci_cmd_setup` over the PRDs; `i` counts up. There is no result when it leaves the
    table. -/
def ahciSetPrds (s : Vmm) (prdtl : Nat) :
    Nat → Nat → BitVec 64 → Nat → List AhciPrd → Option (List AhciPrd)
  | 0, _, _, _, prdt => some prdt
  | passes + 1, i, data, size, prdt =>
      if ahciPrdtlMax ≤ i then none
      else do
        let dba ← vmmResolve s data
        let dbc := if i = prdtl - 1 then sub64 size 1 else ahciPrdDataMax - 1
        ahciSetPrds s prdtl passes (i + 1) (data + BitVec.ofNat 64 ahciPrdDataMax)
          (sub64 size ahciPrdDataMax) (prdt.set i ⟨dba, dbc % 2 ^ 22, 0⟩)

/-- `ahci_cmd_setup` of a command that is not `NULL`. -/
def ahciCmdSetup (s : Vmm) (mem : AhciMemory) (cmd : AhciCmd) :
    Option (Int × AhciMemory × AhciCmd) :=
  let cmd := { cmd with slot := none, header := none, table := none }
  match ahciFreeSlot cmd.port with
  | none => some (-eFAULT, mem, cmd)
  | some slot =>
      let header := cmd.vaddr + 32#64 * BitVec.ofNat 64 slot
      let cmd := { cmd with slot := some slot, header := some header }
      if cmd.fisSize % 4 ≠ 0 then some (-eFAULT, mem, cmd)
      else do
        let prdtl := ahciPrdtlFromSize cmd.dataSize % 2 ^ 16
        let ctba := (mem.headers header).ctba
        let table := cmd.vaddr + (ctba - cmd.port.clb)
        let prdt ← ahciSetPrds s prdtl prdtl 0 cmd.data cmd.dataSize
          (List.replicate ahciPrdtlMax ⟨0, 0, 0⟩)
        some (0, {
          headers := Function.update mem.headers header ⟨cmd.fisSize / 4 % 2 ^ 5, prdtl, ctba⟩
          tables := Function.update mem.tables table ⟨prdt⟩ }, { cmd with table := some table })

/-! ## Counting in pieces -/

section

variable {r : Nat → Nat} {piece total count : Nat}

/-- Values that count on from the first one of each piece, one piece after the other. -/
theorem flatMap_pieces (pos : 0 < piece) :
    ((List.range count).flatMap fun i =>
      (List.range (min piece (total - i * piece))).map (r (i * piece) + ·)) =
    (List.range (min total (count * piece))).map fun k => r (k / piece * piece) + k % piece := by
  induction count with
  | zero => simp
  | succ count ih =>
      have more : min total ((count + 1) * piece) =
          min total (count * piece) + min piece (total - count * piece) := by
        rw [Nat.succ_mul]
        omega
      rw [List.range_succ, List.flatMap_append, ih, more, List.range_add, List.map_append,
        List.flatMap_singleton, List.map_map]
      refine congrArg _ (List.map_congr_left fun k mem => ?_)
      have lt := List.mem_range.mp mem
      have whole : min total (count * piece) = count * piece := by omega
      rw [Function.comp_apply, whole, Nat.mul_comm count, Nat.mul_add_div pos,
        Nat.div_eq_of_lt (show k < piece by omega), Nat.add_zero, Nat.mul_add_mod,
        Nat.mod_eq_of_lt (show k < piece by omega), Nat.mul_comm]

/-- A function counts on in each piece exactly if it does at each step inside a piece. -/
theorem counts_iff : (∀ k, k < total → r (k / piece * piece) + k % piece = r k) ↔
    ∀ k, 0 < k → k < total → ¬piece ∣ k → r k = r (k - 1) + 1 := by
  have before {k : Nat} (inside : ¬piece ∣ k + 1) :
      (k + 1) / piece = k / piece ∧ (k + 1) % piece = k % piece + 1 := by
    have div := Nat.succ_div_of_not_dvd inside
    have parts := Nat.div_add_mod (k + 1) piece
    have parts' := Nat.div_add_mod k piece
    rw [div] at parts
    exact ⟨div, by omega⟩
  constructor
  · intro counts k more lt inside
    obtain ⟨k, rfl⟩ := Nat.exists_eq_add_one_of_ne_zero more.ne'
    obtain ⟨div, mod⟩ := before inside
    have here := counts (k + 1) lt
    have previous := counts k (by omega)
    rw [div, mod] at here
    rw [Nat.add_sub_cancel]
    omega
  · intro steps k lt
    induction k with
    | zero => simp
    | succ k ih =>
        by_cases first : piece ∣ k + 1
        · rw [Nat.div_mul_cancel first, Nat.mod_eq_zero_of_dvd first, Nat.add_zero]
        · obtain ⟨div, mod⟩ := before first
          have step := steps (k + 1) k.succ_pos lt first
          rw [Nat.add_sub_cancel] at step
          rw [div, mod, step, ← ih (by omega), Nat.add_assoc]

end

/-! ## The PRDs -/

/-- The PRD for 4 MiB of a buffer from `i * 4 MiB` on. -/
def ahciPrd (s : Vmm) (data : BitVec 64) (size i : Nat) : AhciPrd :=
  ⟨(vmmResolve s (data + BitVec.ofNat 64 (i * ahciPrdDataMax))).getD 0,
    min ahciPrdDataMax (size - i * ahciPrdDataMax) - 1, 0⟩

section

variable {s : Vmm} {mem : AhciMemory} {cmd : AhciCmd} {data : BitVec 64}
  {size prdtl passes i block : Nat} {prdt : List AhciPrd}

/-- The number of PRDs a buffer of up to 32 MiB takes. -/
theorem ahciPrdtl_cases (some' : 1 ≤ size) (fits : size ≤ ahciPrdtlMax * ahciPrdDataMax)
    (prdtl_eq : prdtl = ahciPrdtlFromSize size % 2 ^ 16) :
    prdtl ≤ ahciPrdtlMax ∧ 1 ≤ prdtl ∧ (prdtl - 1) * ahciPrdDataMax < size ∧
      size ≤ prdtl * ahciPrdDataMax := by
  simp only [ahciPrdtlMax, ahciPrdDataMax] at fits ⊢
  rw [ahciPrdtlFromSize, divCeil, ahciPrdDataMax, sub64_of_le some' (by omega),
    wrap64_of_lt (by omega)] at prdtl_eq
  omega

theorem ahciPrdDataMax_eq : ahciPrdDataMax = 2 ^ 22 := rfl

/-- The count of bytes fits the field of the PRD. -/
theorem ahciPrd_dbc (last : (prdtl - 1) * ahciPrdDataMax < size)
    (enough : size ≤ prdtl * ahciPrdDataMax) (small : size < 2 ^ 64) (inside : i < prdtl) {left : Nat}
    (left_eq : left = size - i * ahciPrdDataMax) :
    (if i = prdtl - 1 then sub64 left 1 else ahciPrdDataMax - 1) % 2 ^ 22 =
      min ahciPrdDataMax (size - i * ahciPrdDataMax) - 1 := by
  have max_pos : 0 < ahciPrdDataMax := by decide
  rw [← ahciPrdDataMax_eq, ← left_eq]
  split
  · next at_end =>
      subst at_end
      have whole : prdtl * ahciPrdDataMax = (prdtl - 1) * ahciPrdDataMax + ahciPrdDataMax := by
        rw [← Nat.succ_mul, show (prdtl - 1).succ = prdtl by omega]
      rw [sub64_of_le (by omega) (by omega), Nat.min_eq_right (by omega), Nat.mod_eq_of_lt (by omega)]
  · have more := Nat.mul_le_mul_right ahciPrdDataMax (show i + 1 ≤ prdtl - 1 by omega)
    rw [Nat.succ_mul] at more
    rw [Nat.min_eq_left (by omega), Nat.mod_eq_of_lt (by omega)]

/-- The loop fills in the PRDs. -/
theorem ahciSetPrds_eq (rec : Recursive s.mem s.cr3) (last : (prdtl - 1) * ahciPrdDataMax < size)
    (enough : size ≤ prdtl * ahciPrdDataMax) (small : size < 2 ^ 64)
    (count : i + passes = prdtl) (few : prdtl ≤ ahciPrdtlMax) (length : prdt.length = ahciPrdtlMax)
    {left : Nat} (left_eq : i < prdtl → left = size - i * ahciPrdDataMax) :
    ∃ prdt', ahciSetPrds s prdtl passes i (data + BitVec.ofNat 64 (i * ahciPrdDataMax)) left prdt =
        some prdt' ∧
      ∀ j, prdt'[j]? = if i ≤ j ∧ j < prdtl then some (ahciPrd s data size j) else prdt[j]? := by
  induction passes generalizing i prdt left with
  | zero =>
      refine ⟨prdt, rfl, fun j => ?_⟩
      rw [if_neg (by omega)]
  | succ passes ih =>
      have inside : i < prdtl := by omega
      have here := left_eq inside
      have next_left : i + 1 < prdtl →
          sub64 left ahciPrdDataMax = size - (i + 1) * ahciPrdDataMax := by
        intro more
        have le := Nat.mul_le_mul_right ahciPrdDataMax (show i + 1 ≤ prdtl - 1 by omega)
        rw [Nat.succ_mul] at le ⊢
        rw [sub64_of_le (by omega) (by omega)]
        omega
      obtain ⟨prdt', run, entries⟩ := @ih (i + 1) (prdt.set i (ahciPrd s data size i)) (by omega)
        (by rw [List.length_set, length]) _ next_left
      have resolved : vmmResolve s (data + BitVec.ofNat 64 (i * ahciPrdDataMax)) =
          some ((vmmResolve s (data + BitVec.ofNat 64 (i * ahciPrdDataMax))).getD 0) := by
        rw [vmmResolve_eq rec]
        rfl
      have next : data + BitVec.ofNat 64 (i * ahciPrdDataMax) + BitVec.ofNat 64 ahciPrdDataMax =
          data + BitVec.ofNat 64 ((i + 1) * ahciPrdDataMax) := by
        rw [BitVec.add_assoc, ← BitVec.ofNat_add, Nat.succ_mul]
      refine ⟨prdt', ?_, fun j => ?_⟩
      · rw [ahciSetPrds, if_neg (by omega), resolved]
        simp only [Option.bind_eq_bind, Option.bind_some]
        rw [ahciPrd_dbc last enough small inside here, next]
        exact run
      · rw [entries j]
        by_cases here : j = i
        · subst here
          rw [if_neg (by omega), if_pos ⟨Nat.le_refl j, inside⟩,
            List.getElem?_set_self (by omega)]
        · rw [List.getElem?_set_ne (Ne.symm here)]
          by_cases later : i + 1 ≤ j ∧ j < prdtl
          · rw [if_pos later, if_pos (by omega)]
          · rw [if_neg later, if_neg (by omega)]

/-- What it leaves at the beginning of a cleared table. -/
theorem ahciSetPrds_take (rec : Recursive s.mem s.cr3) (last : (prdtl - 1) * ahciPrdDataMax < size)
    (enough : size ≤ prdtl * ahciPrdDataMax) (small : size < 2 ^ 64) (few : prdtl ≤ ahciPrdtlMax) :
    ∃ prdt', ahciSetPrds s prdtl prdtl 0 data size (List.replicate ahciPrdtlMax ⟨0, 0, 0⟩) =
        some prdt' ∧
      prdt'.take prdtl = (List.range prdtl).map (ahciPrd s data size) := by
  obtain ⟨prdt', run, entries⟩ := @ahciSetPrds_eq s data size prdtl prdtl 0
    (List.replicate ahciPrdtlMax ⟨0, 0, 0⟩) rec last enough small (Nat.zero_add prdtl) few
    List.length_replicate size fun _ => by rw [Nat.zero_mul, Nat.sub_zero]
  have start : data + BitVec.ofNat 64 (0 * ahciPrdDataMax) = data := by
    rw [Nat.zero_mul]
    exact BitVec.add_zero _
  rw [start] at run
  refine ⟨prdt', run, List.ext_getElem? fun j => ?_⟩
  by_cases inside : j < prdtl
  · rw [List.getElem?_take_of_lt inside, entries j, if_pos ⟨Nat.zero_le j, inside⟩,
      List.getElem?_map, List.getElem?_range inside, Option.map_some]
  · rw [List.getElem?_take_eq_none (Nat.le_of_not_lt inside), List.getElem?_map,
      List.getElem?_eq_none (by rw [List.length_range]; omega), Option.map_none]

/-- The addresses that PRDs name, in their order. -/
def ahciPrdBytes (prds : List AhciPrd) : List Nat :=
  prds.flatMap fun prd => (List.range (prd.dbc + 1)).map (prd.dba.toNat + ·)

/-- The PRDs name the first byte of each 4 MiB and what follows it. -/
theorem ahciPrdBytes_eq (last : (prdtl - 1) * ahciPrdDataMax < size)
    (enough : size ≤ prdtl * ahciPrdDataMax) :
    ahciPrdBytes ((List.range prdtl).map (ahciPrd s data size)) = (List.range size).map fun k =>
      vmmAddress s (data + BitVec.ofNat 64 (k / ahciPrdDataMax * ahciPrdDataMax)) +
        k % ahciPrdDataMax := by
  have pieces := @flatMap_pieces (fun k => vmmAddress s (data + BitVec.ofNat 64 k)) ahciPrdDataMax
    size prdtl (by decide)
  rw [Nat.min_eq_left enough] at pieces
  rw [← pieces, ahciPrdBytes, List.flatMap_map]
  rw [List.flatMap_def, List.flatMap_def]
  refine congrArg List.flatten (List.map_congr_left fun i mem => ?_)
  have lt := List.mem_range.mp mem
  have some' : i * ahciPrdDataMax < size :=
    Nat.lt_of_le_of_lt (Nat.mul_le_mul_right _ (by omega)) last
  have max_pos : 0 < ahciPrdDataMax := by decide
  have length : min ahciPrdDataMax (size - i * ahciPrdDataMax) - 1 + 1 =
      min ahciPrdDataMax (size - i * ahciPrdDataMax) := by omega
  dsimp only [ahciPrd]
  rw [length]
  rfl

/-! ## The transfer and the buffer -/

/-- The command is set up, and the entries of its PRD table name the addresses that `vmm_resolve`
    gives for the bytes of the buffer, one after the other. -/
def AhciTransfers (s : Vmm) (mem : AhciMemory) (cmd : AhciCmd) : Prop :=
  ∃ mem' cmd' header table, ahciCmdSetup s mem cmd = some (0, mem', cmd') ∧
    cmd'.header = some header ∧ cmd'.table = some table ∧
    (mem'.headers header).prdtl ≤ ahciPrdtlMax ∧
    ahciPrdBytes ((mem'.tables table).prdt.take (mem'.headers header).prdtl) =
      (List.range cmd.dataSize).map fun k => vmmAddress s (cmd.data + BitVec.ofNat 64 k)

/-- Inside each 4 MiB of the buffer the address goes on at the borders of the blocks. -/
def FramesFollow (s : Vmm) (data : BitVec 64) (size block : Nat) : Prop :=
  ∀ k, 0 < k → k < size → ¬ahciPrdDataMax ∣ k → block ∣ (data + BitVec.ofNat 64 k).toNat →
    vmmAddress s (data + BitVec.ofNat 64 k) = vmmAddress s (data + BitVec.ofNat 64 (k - 1)) + 1

/-- What `ahci_cmd_setup` returns when a slot is free. -/
theorem ahciCmdSetup_eq (rec : Recursive s.mem s.cr3) (some' : 1 ≤ cmd.dataSize)
    (fits : cmd.dataSize ≤ ahciPrdtlMax * ahciPrdDataMax) (fis : 4 ∣ cmd.fisSize) {slot : Nat}
    (free : ahciFreeSlot cmd.port = some slot) :
    ∃ mem' cmd' header table prdtl, ahciCmdSetup s mem cmd = some (0, mem', cmd') ∧
      cmd'.header = some header ∧ cmd'.table = some table ∧
      (mem'.headers header).prdtl = prdtl ∧ prdtl ≤ ahciPrdtlMax ∧
      (mem'.tables table).prdt.take prdtl =
        (List.range prdtl).map (ahciPrd s cmd.data cmd.dataSize) ∧
      (prdtl - 1) * ahciPrdDataMax < cmd.dataSize ∧ cmd.dataSize ≤ prdtl * ahciPrdDataMax := by
  generalize prdtl_eq : ahciPrdtlFromSize cmd.dataSize % 2 ^ 16 = prdtl
  obtain ⟨few, pos, last, enough⟩ := ahciPrdtl_cases some' fits prdtl_eq.symm
  have small : cmd.dataSize < 2 ^ 64 := Nat.lt_of_le_of_lt fits (by decide)
  obtain ⟨prdt', run, entries⟩ := @ahciSetPrds_take s cmd.data cmd.dataSize prdtl rec last enough
    small few
  have setup := @ahciCmdSetup.eq_def s mem cmd
  simp only [free, Nat.mod_eq_zero_of_dvd fis, ne_eq, not_true_eq_false, if_false, prdtl_eq, run,
    Option.bind_eq_bind, Option.bind_some] at setup
  refine ⟨_, _, _, _, prdtl, setup, rfl, rfl, ?_, few, ?_, last, enough⟩
  · simp only [Function.update_self]
  · simp only [Function.update_self]
    exact entries

/-- The PRDs name the bytes of the buffer exactly if the addresses go on at every byte inside of
    4 MiB. -/
theorem ahciTransfers_iff_steps (rec : Recursive s.mem s.cr3) (some' : 1 ≤ cmd.dataSize)
    (fits : cmd.dataSize ≤ ahciPrdtlMax * ahciPrdDataMax) (fis : 4 ∣ cmd.fisSize) {slot : Nat}
    (free : ahciFreeSlot cmd.port = some slot) :
    AhciTransfers s mem cmd ↔ FramesFollow s cmd.data cmd.dataSize 1 := by
  obtain ⟨mem', cmd', header, table, prdtl, run, header_eq, table_eq, prdtl_eq, few, prds, last,
    enough⟩ := @ahciCmdSetup_eq s mem cmd rec some' fits fis slot free
  have bytes := @ahciPrdBytes_eq s cmd.data cmd.dataSize prdtl last enough
  have counts := @counts_iff (fun k => vmmAddress s (cmd.data + BitVec.ofNat 64 k)) ahciPrdDataMax
    cmd.dataSize
  have step : FramesFollow s cmd.data cmd.dataSize 1 ↔ ∀ k, 0 < k → k < cmd.dataSize →
      ¬ahciPrdDataMax ∣ k → vmmAddress s (cmd.data + BitVec.ofNat 64 k) =
        vmmAddress s (cmd.data + BitVec.ofNat 64 (k - 1)) + 1 :=
    ⟨fun follow k more lt inside => follow k more lt inside (Nat.one_dvd _),
      fun follow k more lt inside _ => follow k more lt inside⟩
  rw [step, ← counts]
  constructor
  · rintro ⟨mem₁, cmd₁, header₁, table₁, run₁, header_eq₁, table_eq₁, -, names⟩
    rw [run] at run₁
    obtain ⟨-, rfl, rfl⟩ : (0 : Int) = 0 ∧ mem' = mem₁ ∧ cmd' = cmd₁ := by
      simpa only [Option.some.injEq, Prod.mk.injEq] using run₁
    obtain rfl := Option.some.inj (header_eq.symm.trans header_eq₁)
    obtain rfl := Option.some.inj (table_eq.symm.trans table_eq₁)
    rw [prdtl_eq, prds, bytes] at names
    exact fun k lt => List.map_inj_left.mp names k (List.mem_range.mpr lt)
  · intro same
    refine ⟨mem', cmd', header, table, run, header_eq, table_eq, prdtl_eq ▸ few, ?_⟩
    rw [prdtl_eq, prds, bytes]
    exact List.map_congr_left fun k mem => same k (List.mem_range.mp mem)

/-- Inside a block of a mapped page the addresses go on anyway. -/
theorem framesFollow_iff (rec : Recursive s.mem s.cr3)
    (maps : ∀ k, k < size → s.Maps (data + BitVec.ofNat 64 k)) {n : Nat} (le : n ≤ 12)
    (plain : 10 < n → ∀ k, k < size → s.Plain (data + BitVec.ofNat 64 k)) :
    FramesFollow s data size 1 ↔ FramesFollow s data size (2 ^ n) := by
  constructor
  · exact fun follow k more lt inside _ => follow k more lt inside (Nat.one_dvd _)
  · intro follow k more lt inside _
    by_cases border : 2 ^ n ∣ (data + BitVec.ofNat 64 k).toNat
    · exact follow k more lt inside border
    obtain ⟨k, rfl⟩ := Nat.exists_eq_add_one_of_ne_zero more.ne'
    have succ : data + BitVec.ofNat 64 (k + 1) = data + BitVec.ofNat 64 k + 1#64 := by
      rw [BitVec.ofNat_add, BitVec.add_assoc]
    rw [Nat.add_sub_cancel]
    rw [succ] at border ⊢
    refine vmmAddress_succ rec (maps k (by omega)) le (fun more => plain more k (by omega)) ?_
    generalize data + BitVec.ofNat 64 k = v at border
    have two : 0 < 2 ^ n := Nat.two_pow_pos n
    have below := Nat.mod_lt v.toNat two
    refine Nat.lt_of_le_of_ne below fun full => border ?_
    -- the last byte of a block, so that the next one is the first of a block
    have parts := Nat.div_add_mod v.toNat (2 ^ n)
    have next : v.toNat + 1 = 2 ^ n * (v.toNat / 2 ^ n + 1) := by
      rw [Nat.mul_succ]
      omega
    rw [BitVec.toNat_add, BitVec.toNat_ofNat]
    have whole : 2 ^ n ∣ 2 ^ 64 := Nat.pow_dvd_pow 2 (by omega)
    refine (Nat.dvd_mod_iff whole).mpr ?_
    rw [Nat.mod_eq_of_lt (show 1 < 2 ^ 64 by decide), next]
    exact Nat.dvd_mul_right ..

/-- The transfer goes to the buffer exactly if inside each 4 MiB of it every page starts where the
    one before ends, as long as the entries leave the bits for software alone, and else if that
    holds of every KiB. -/
theorem ahciTransfers_iff (s : Vmm) (rec : Recursive s.mem s.cr3) (mem : AhciMemory) (cmd : AhciCmd)
    (some' : 1 ≤ cmd.dataSize) (fits : cmd.dataSize ≤ 32 * 1024 * 1024)
    (maps : ∀ k, k < cmd.dataSize → s.Maps (cmd.data + BitVec.ofNat 64 k))
    (fis : 4 ∣ cmd.fisSize) (slot : Nat) (below : slot < ahciPortCmdListCount)
    (free : cmd.port.sact.getLsbD slot = false ∧ cmd.port.ci.getLsbD slot = false) :
    (AhciTransfers s mem cmd ↔ FramesFollow s cmd.data cmd.dataSize 1024) ∧
    ((∀ k, k < cmd.dataSize → s.Plain (cmd.data + BitVec.ofNat 64 k)) →
      (AhciTransfers s mem cmd ↔ FramesFollow s cmd.data cmd.dataSize 4096)) := by
  have found : ∃ slot, ahciFreeSlot cmd.port = some slot := by
    refine Option.isSome_iff_exists.mp (List.find?_isSome.mpr ⟨slot, List.mem_range.mpr below, ?_⟩)
    rw [free.1, free.2]
    rfl
  obtain ⟨slot, found⟩ := found
  have steps := @ahciTransfers_iff_steps s mem cmd rec some' fits fis slot found
  refine ⟨steps.trans ?_, fun plain => steps.trans ?_⟩
  · exact @framesFollow_iff s cmd.data cmd.dataSize rec maps 10 (by decide) fun more =>
      absurd more (by decide)
  · exact @framesFollow_iff s cmd.data cmd.dataSize rec maps 12 (by decide) fun _ => plain

end

/-! ### Two pages in frames apart from each other -/

/-- The pages at `0x2000` and `0x3000`, in the frames 5 and 7. -/
def scatteredPages : PhysMem := fun table i =>
  if table = 4 ∧ i = 3 then 0x7003 else onePage 0x5003 table i

def scattered : Vmm := { onePageVmm 0x5003 with mem := scatteredPages }

theorem scatteredPages_cases (motive : Frame → BitVec 64 → Prop)
    (unused : ∀ table, motive table 0) (self : motive 1 0x1003) (pdpt : motive 1 0x2003)
    (pd : motive 2 0x3003) (pt : motive 3 0x4003) (page : motive 4 0x5003) (page' : motive 4 0x7003)
    (table : Frame) (i : Index) : motive table (scatteredPages table i) := by
  unfold scatteredPages
  split
  · next here => exact here.1 ▸ page'
  · exact onePage_cases motive unused self pdpt pd pt page table i

theorem scatteredPages_table {level : Nat} {table : Frame}
    (reach : HwTable scatteredPages 1 level table) : 0 < table.toNat ∧ table.toNat + level ≤ 5 := by
  induction reach with
  | pml4 => decide
  | @next level table i above used small ih =>
      have step := scatteredPages_cases (fun table value => value ≠ 0#64 → table.toNat + 2 ≤ 5 →
          0 < (hwFrame value).toNat ∧ (hwFrame value).toNat ≤ table.toNat + 1)
        (fun _ used => absurd rfl used) (by decide) (by decide) (by decide) (by decide)
        (fun _ deep => absurd deep (by decide)) (fun _ deep => absurd deep (by decide)) table i
      have := step used (by omega)
      omega

theorem recursive_scattered : Recursive scattered.mem scattered.cr3 where
  self := by
    have self : scatteredPages 1 510 = 0x1003 := by decide
    change scatteredPages 1 510 ≠ 0#64 ∧ hwFrame (scatteredPages 1 510) = 1
    rw [self]
    decide
  present {_ table i} _ used :=
    scatteredPages_cases (fun _ value => value ≠ 0#64 → hwPresent value = true)
      (fun _ used => absurd rfl used) (by decide) (by decide) (by decide) (by decide) (by decide)
      (by decide) table i used
  small {table i} reach :=
    scatteredPages_cases (fun table value => table.toNat + 3 ≤ 5 → hwLarge value = false)
      (fun _ _ => rfl) (by decide) (by decide) (by decide) (by decide)
      (fun deep => absurd deep (by decide)) (fun deep => absurd deep (by decide)) table i
      (scatteredPages_table reach).2

theorem scattered_maps {k : Nat} (lt : k < 8192) :
    scattered.Maps (0x2000#64 + BitVec.ofNat 64 k) := by
  have value : (0x2000#64 + BitVec.ofNat 64 k).toNat = 0x2000 + k := by
    rw [BitVec.toNat_add, BitVec.toNat_ofNat, BitVec.toNat_ofNat]
    omega
  unfold Vmm.Maps
  by_cases first : k < 4096
  · rw [@hwWalk_congr_page _ 0x2000#64 _ _ (by rw [value, BitVec.toNat_ofNat]; omega)]
    decide
  · rw [@hwWalk_congr_page _ 0x3000#64 _ _ (by rw [value, BitVec.toNat_ofNat]; omega)]
    decide

/-- A command for a buffer at `0x2000` on an idle port. -/
def bufferCmd (size : Nat) : AhciCmd where
  port := ⟨0, 0, 0⟩
  vaddr := 0
  fisSize := 20
  dataSize := size
  data := 0x2000
  slot := none
  header := none
  table := none

def clearedMemory : AhciMemory := ⟨fun _ => ⟨0, 0, 0⟩, fun _ => ⟨[]⟩⟩

/-- One sector stays in the first page. -/
theorem ahciTransfers_iff_sector : AhciTransfers scattered clearedMemory (bufferCmd 512) := by
  refine (ahciTransfers_iff scattered recursive_scattered clearedMemory (bufferCmd 512) (by decide)
    (by decide) (fun k lt => scattered_maps (Nat.lt_trans lt (by decide))) (by decide) 0 (by decide)
    (by decide)).1.mpr fun k more lt inside border => ?_
  change 1024 ∣ (0x2000#64 + BitVec.ofNat 64 k).toNat at border
  change k < 512 at lt
  rw [BitVec.toNat_add, BitVec.toNat_ofNat, BitVec.toNat_ofNat] at border
  omega

/-- Two pages in frames that do not follow each other have one PRD. -/
theorem not_ahciTransfers : ¬∀ (s : Vmm) (mem : AhciMemory) (cmd : AhciCmd),
    Recursive s.mem s.cr3 → 1 ≤ cmd.dataSize → cmd.dataSize ≤ 32 * 1024 * 1024 →
    (∀ k, k < cmd.dataSize → s.Maps (cmd.data + BitVec.ofNat 64 k)) → 4 ∣ cmd.fisSize →
    (∃ slot, slot < ahciPortCmdListCount ∧ cmd.port.sact.getLsbD slot = false ∧
      cmd.port.ci.getLsbD slot = false) → AhciTransfers s mem cmd := by
  intro always
  have transfers := always scattered clearedMemory (bufferCmd 8192) recursive_scattered (by decide)
    (by decide) (fun k lt => scattered_maps lt) (by decide) ⟨0, by decide, by decide⟩
  rw [@ahciTransfers_iff_steps scattered clearedMemory (bufferCmd 8192) recursive_scattered
    (by decide) (by decide) (by decide) 0 (by decide)] at transfers
  have border := transfers 4096 (by decide) (by decide) (by decide) (Nat.one_dvd _)
  exact absurd border (by decide)

end Sdx.Core
