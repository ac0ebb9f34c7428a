import Sdx.Lib.Bytes
import Sdx.Util.Spinlock

/-! # Serial ports (`core/serial.c`, `util/io.c`)

A transfer takes a lock of the port, goes through the bytes and releases the lock behind the loop.
The first byte that fails leaves the loop with a `return`, and the lock stays taken: no transfer
in that direction returns afterwards.

A call that waits for ever is `none`, and so is one on a device no port belongs to, where the code
takes the lock through `NULL`. Other tasks run while a call waits, but not on the port, whose lock
it holds.
-/

namespace Sdx.Core

open Sdx.Lib.Bytes Sdx.Util

/-- `struct serial_port`. -/
structure SerialPort where
  name : String
  addr : Nat
  dev : Int
  available : Bool
  readLock : UInt8
  writeLock : UInt8

/-- The two locks of a port. -/
inductive SerialLock where
  | read
  | write
  deriving DecidableEq

namespace SerialPort

def lock (port : SerialPort) : SerialLock → UInt8
  | .read => port.readLock
  | .write => port.writeLock

def setLock (port : SerialPort) (value : UInt8) : SerialLock → SerialPort
  | .read => { port with readLock := value }
  | .write => { port with writeLock := value }

/-- The port with the lock taken. -/
def held (port : SerialPort) (lock : SerialLock) : SerialPort :=
  port.setLock (spinlockBts (port.lock lock)) lock

variable {port : SerialPort} {value value' : UInt8} {lock : SerialLock}

@[simp] theorem lock_setLock : (port.setLock value lock).lock lock = value := by
  cases lock <;> rfl

@[simp] theorem setLock_setLock :
    (port.setLock value lock).setLock value' lock = port.setLock value' lock := by
  cases lock <;> rfl

@[simp] theorem setLock_dev : (port.setLock value lock).dev = port.dev := by cases lock <;> rfl

@[simp] theorem held_addr : (port.held lock).addr = port.addr := by cases lock <;> rfl

@[simp] theorem held_available : (port.held lock).available = port.available := by
  cases lock <;> rfl

end SerialPort

/-- The instructions `in` and `out`, and `sched_wait`, on a machine with states `σ`. -/
structure PortIo (σ : Type) where
  input : Nat → σ → UInt8 × σ
  output : Nat → UInt8 → σ → σ
  schedWait : σ → σ

/-- The machine and its memory. -/
structure SerialWorld (σ : Type) where
  memory : Memory
  machine : σ

section

variable {σ : Type}

/-- `in8`. -/
def in8 (io : PortIo σ) (port : Nat) (s : σ) : UInt8 × σ :=
  let port := port % 2 ^ 16
  if port = 0 then (0, s) else io.input port s

/-- `out8`. -/
def out8 (io : PortIo σ) (port : Nat) (val : UInt8) (s : σ) : Bool × σ :=
  let port := port % 2 ^ 16
  if port = 0 then (false, s) else (true, io.output port val s)

/-- `SERIAL_OFF_LINE_STATUS`. -/
def serialOffLineStatus : Nat := 5

/-- The loop that waits for a bit of the line status. -/
def serialPortWait (io : PortIo σ) (addr : Nat) (mask : UInt8) : Nat → σ → Option σ
  | 0, _ => none
  | fuel + 1, s =>
      let (status, s) := in8 io (addr + serialOffLineStatus) s
      if status &&& mask ≠ 0 then some s else serialPortWait io addr mask fuel (io.schedWait s)

/-- `__serial_port_write` of the character at `c`. -/
def serialPortWrite (io : PortIo σ) (fuel : Nat) (port : SerialPort) (c : Nat)
    (s : SerialWorld σ) : Option (Int × SerialWorld σ) :=
  if ¬ port.available then some (-eINVAL, s)
  else
    (serialPortWait io port.addr ((1 : UInt8) <<< 5) fuel s.machine).map fun machine =>
      match out8 io port.addr (s.memory c) machine with
      | (false, machine) => (- eIO, { s with machine })
      | (true, machine) => (0, { s with machine })

/-- `__serial_port_read` of a character to `c`. -/
def serialPortRead (io : PortIo σ) (fuel : Nat) (port : SerialPort) (c : Nat)
    (s : SerialWorld σ) : Option (Int × SerialWorld σ) :=
  if c = 0 ∨ ¬ port.available then some (-eINVAL, s)
  else
    (serialPortWait io port.addr 1 fuel s.machine).map fun machine =>
      let (char, machine) := in8 io port.addr machine
      (0, ⟨store s.memory c [char], machine⟩)

end

/-- `__serial_port_by_dev` in the entries before the one without an address. -/
def serialPortByDev (ports : List SerialPort) (dev : Int) : Option Nat :=
  ports.findIdx? fun port => port.dev == dev

section

variable {τ : Type}

/-- The loop of a transfer: `byte` at one address after the other, up to the first error. -/
def serialBytes (byte : Nat → τ → Option (Int × τ)) : Nat → Nat → τ → Option (Int × τ)
  | 0, _, s => some (0, s)
  | left + 1, buffer, s =>
      (byte (wrap64 buffer) s).bind fun (err, s) =>
        if err ≠ 0 then some (err, s) else serialBytes byte left (buffer + 1) s

/-- A transfer under a lock, with the operation for one byte: what it returns, the ports and the
    rest of the machine. -/
def serialTransfer (lock : SerialLock) (byte : SerialPort → Nat → τ → Option (Int × τ))
    (ports : List SerialPort) (dev : Int) (size buffer : Nat) (s : τ) :
    Option (Int × List SerialPort × τ) :=
  (serialPortByDev ports dev).bind fun i =>
    ports[i]?.bind fun port =>
      if spinlockLocked (port.lock lock) then none
      else
        (serialBytes (byte (port.held lock)) size buffer s).map fun (err, s) =>
          if err ≠ 0 then (err, ports.set i (port.held lock), s)
          else
            let released := (port.held lock).setLock spinlockRelease lock
            ((BitVec.ofNat 64 size).toInt, ports.set i released, s)

end

/-- `__serial_read`. -/
def serialRead {σ : Type} (io : PortIo σ) (fuel : Nat) (ports : List SerialPort) (dev : Int)
    (size buffer : Nat) (s : SerialWorld σ) :=
  serialTransfer .read (serialPortRead io fuel) ports dev size buffer s

/-- `__serial_write`. -/
def serialWrite {σ : Type} (io : PortIo σ) (fuel : Nat) (ports : List SerialPort) (dev : Int)
    (size buffer : Nat) (s : SerialWorld σ) :=
  serialTransfer .write (serialPortWrite io fuel) ports dev size buffer s

/-- The lock of the device's port is free. -/
def LockFree (lock : SerialLock) (ports : List SerialPort) (dev : Int) : Prop :=
  ∃ i port, serialPortByDev ports dev = some i ∧ ports[i]? = some port ∧
    spinlockLocked (port.lock lock) = false

/-- The operation succeeds at every byte of a transfer. -/
def EveryByte {τ : Type} (byte : Nat → τ → Option (Int × τ)) : Nat → Nat → τ → Prop
  | 0, _, _ => True
  | left + 1, buffer, s =>
      ∃ s', byte (wrap64 buffer) s = some (0, s') ∧ EveryByte byte left (buffer + 1) s'

section

variable {τ σ : Type} {byte : Nat → τ → Option (Int × τ)} {left buffer i : Nat} {s s' : τ} {err : Int}
  {ports : List SerialPort} {port : SerialPort} {dev : Int} {lock : SerialLock}

/-- The loop ends without an error exactly if no byte has one. -/
theorem serialBytes_ok_iff (run : serialBytes byte left buffer s = some (err, s')) :
    err = 0 ↔ EveryByte byte left buffer s := by
  induction left generalizing buffer s with
  | zero =>
      cases run
      exact iff_of_true rfl trivial
  | succ left ih =>
      rw [serialBytes] at run
      obtain ⟨⟨first, s₁⟩, here, run⟩ := Option.bind_eq_some_iff.mp run
      simp only at run
      split at run
      · next failed =>
          cases run
          refine iff_of_false failed ?_
          rintro ⟨s₂, ok, -⟩
          rw [here] at ok
          cases ok
          exact failed rfl
      · next ok =>
          rw [Classical.not_not.mp ok] at here
          rw [ih run]
          constructor
          · exact fun rest => ⟨s₁, here, rest⟩
          · rintro ⟨s₂, same, rest⟩
            rw [here] at same
            cases same
            exact rest

/-- An operation whose success only depends on the address. -/
theorem serialBytes_ok_iff_forall {good : Nat → Prop}
    (one : ∀ c s err s', byte c s = some (err, s') → (err = 0 ↔ good c))
    (run : serialBytes byte left buffer s = some (err, s')) :
    err = 0 ↔ ∀ k < left, good (wrap64 (buffer + k)) := by
  induction left generalizing buffer s with
  | zero =>
      cases run
      exact iff_of_true rfl fun k below => absurd below (Nat.not_lt_zero k)
  | succ left ih =>
      rw [serialBytes] at run
      obtain ⟨⟨first, s₁⟩, here, run⟩ := Option.bind_eq_some_iff.mp run
      have first_iff := one _ _ _ _ here
      simp only at run
      split at run
      · next failed =>
          cases run
          refine iff_of_false failed ?_
          intro all
          exact failed (first_iff.mpr (all 0 (Nat.succ_pos left)))
      · next ok =>
          rw [ih run]
          constructor
          · intro rest k below
            cases k with
            | zero => exact first_iff.mp (Classical.not_not.mp ok)
            | succ k =>
                have next := rest k (Nat.lt_of_succ_lt_succ below)
                rwa [Nat.add_assoc, Nat.add_comm 1 k] at next
          · intro all k below
            have here := all (k + 1) (Nat.succ_lt_succ below)
            rwa [Nat.add_comm k 1, ← Nat.add_assoc] at here

/-- Writing a lock does not move the ports. -/
theorem serialPortByDev_set {new : SerialPort} (found : ports[i]? = some port)
    (same : new.dev = port.dev) :
    serialPortByDev (ports.set i new) dev = serialPortByDev ports dev := by
  obtain ⟨inside, rfl⟩ := List.getElem?_eq_some_iff.mp found
  have devs : (ports.set i new).map SerialPort.dev = ports.map SerialPort.dev := by
    rw [List.map_set, same, ← List.getElem_map SerialPort.dev (h := by simpa using inside)]
    exact List.set_getElem_self _
  have byDev : ∀ l : List SerialPort,
      serialPortByDev l dev = (l.map SerialPort.dev).findIdx? (· == dev) := by
    intro l
    rw [List.findIdx?_map]
    rfl
  rw [byDev, devs, byDev]

/-- The lock of the port with the given index after a write to it. -/
theorem lockFree_set_iff {value : UInt8} (byDev : serialPortByDev ports dev = some i)
    (found : ports[i]? = some port) :
    LockFree lock (ports.set i (port.setLock value lock)) dev ↔ spinlockLocked value = false := by
  obtain ⟨inside, -⟩ := List.getElem?_eq_some_iff.mp found
  constructor
  · rintro ⟨j, port', byDev', found', free⟩
    rw [serialPortByDev_set found SerialPort.setLock_dev, byDev] at byDev'
    cases byDev'
    rw [List.getElem?_set_self inside] at found'
    cases found'
    rwa [SerialPort.lock_setLock] at free
  · intro free
    refine ⟨i, _, ?_, List.getElem?_set_self inside, ?_⟩
    · rw [serialPortByDev_set found SerialPort.setLock_dev, byDev]
    · rwa [SerialPort.lock_setLock]

/-- A transfer that returns leaves the lock free exactly if its loop had no error. -/
theorem serialTransfer_lockFree_iff {byte : SerialPort → Nat → τ → Option (Int × τ)}
    {size : Nat} {r : Int × List SerialPort × τ} (byDev : serialPortByDev ports dev = some i)
    (found : ports[i]? = some port)
    (run : serialTransfer lock byte ports dev size buffer s = some r) :
    ∃ err s', serialBytes (byte (port.held lock)) size buffer s = some (err, s') ∧
      (LockFree lock r.2.1 dev ↔ err = 0) := by
  rw [serialTransfer, byDev, Option.bind_some, found, Option.bind_some] at run
  split at run
  · cases run
  · obtain ⟨⟨err, s'⟩, bytes, result⟩ := Option.map_eq_some_iff.mp run
    refine ⟨err, s', bytes, ?_⟩
    simp only at result
    split at result
    · next failed =>
        cases result
        refine (lockFree_set_iff byDev found).trans (iff_of_false ?_ failed)
        simp
    · next ok =>
        cases result
        rw [SerialPort.held, SerialPort.setLock_setLock]
        refine (lockFree_set_iff byDev found).trans (iff_of_true ?_ (Classical.not_not.mp ok))
        exact locked_release

/-- On a port with the lock taken no transfer returns. -/
theorem serialTransfer_none {byte : SerialPort → Nat → τ → Option (Int × τ)} {size : Nat}
    (taken : ¬ LockFree lock ports dev) :
    serialTransfer lock byte ports dev size buffer s = none := by
  rw [serialTransfer, Option.bind_eq_none_iff]
  intro i byDev
  rw [Option.bind_eq_none_iff]
  intro port found
  rw [if_pos]
  by_contra free
  exact taken ⟨i, port, byDev, found, Bool.not_eq_true _ ▸ free⟩

theorem serialPortRead_ok_iff {io : PortIo σ} {fuel c : Nat} {w w' : SerialWorld σ}
    (run : serialPortRead io fuel port c w = some (err, w')) :
    err = 0 ↔ port.available = true ∧ c ≠ 0 := by
  rw [serialPortRead] at run
  split at run
  · next refused =>
      cases run
      refine iff_of_false (by decide) ?_
      rintro ⟨available, address⟩
      exact refused.elim address fun absent => absent available
  · next accepted =>
      obtain ⟨machine, -, result⟩ := Option.map_eq_some_iff.mp run
      cases result
      refine iff_of_true rfl ?_
      simpa [and_comm] using accepted

theorem serialPortWrite_ok_iff {io : PortIo σ} {fuel c : Nat} {w w' : SerialWorld σ}
    (run : serialPortWrite io fuel port c w = some (err, w')) :
    err = 0 ↔ port.available = true ∧ port.addr % 2 ^ 16 ≠ 0 := by
  rw [serialPortWrite] at run
  split at run
  · next absent =>
      cases run
      exact iff_of_false (by decide) fun ⟨available, _⟩ => absent available
  · next available =>
      obtain ⟨machine, -, result⟩ := Option.map_eq_some_iff.mp run
      have there := Classical.not_not.mp available
      rw [out8] at result
      by_cases zero : port.addr % 2 ^ 16 = 0
      · rw [if_pos zero] at result
        cases result
        exact iff_of_false (by decide) fun ⟨_, address⟩ => address zero
      · rw [if_neg zero] at result
        cases result
        exact iff_of_true rfl ⟨there, zero⟩

end

/-- A transfer that returns has released its lock exactly if no byte failed, whatever the bytes come
    to. A byte fails on a port that is not there, at address zero when it is read, and on a port
    without an address when it is written. -/
theorem serial_released_iff {ports : List SerialPort} {dev : Int} {i : Nat} {port : SerialPort}
    (byDev : serialPortByDev ports dev = some i) (found : ports[i]? = some port)
    (size buffer : Nat) :
    (∀ (τ : Type) (lock : SerialLock) (byte : SerialPort → Nat → τ → Option (Int × τ)) (s : τ)
        (r : Int × List SerialPort × τ), serialTransfer lock byte ports dev size buffer s = some r →
      (LockFree lock r.2.1 dev ↔ EveryByte (byte (port.held lock)) size buffer s)) ∧
    (∀ (σ : Type) (io : PortIo σ) (fuel : Nat) (s : SerialWorld σ)
        (r : Int × List SerialPort × SerialWorld σ),
        serialRead io fuel ports dev size buffer s = some r →
      (LockFree .read r.2.1 dev ↔
        ∀ k < size, port.available = true ∧ wrap64 (buffer + k) ≠ 0)) ∧
    ∀ (σ : Type) (io : PortIo σ) (fuel : Nat) (s : SerialWorld σ)
        (r : Int × List SerialPort × SerialWorld σ),
        serialWrite io fuel ports dev size buffer s = some r →
      (LockFree .write r.2.1 dev ↔
        (0 < size → port.available = true ∧ port.addr % 2 ^ 16 ≠ 0)) := by
  refine ⟨?_, ?_, ?_⟩
  · intro τ lock byte s r run
    obtain ⟨err, s', bytes, free_iff⟩ := serialTransfer_lockFree_iff byDev found run
    exact free_iff.trans (serialBytes_ok_iff bytes)
  · intro σ io fuel s r run
    obtain ⟨err, s', bytes, free_iff⟩ := serialTransfer_lockFree_iff byDev found run
    have one : ∀ c w err w', serialPortRead io fuel (port.held .read) c w = some (err, w') →
        (err = 0 ↔ port.available = true ∧ c ≠ 0) := by
      intro c w err w' result
      rw [serialPortRead_ok_iff result, SerialPort.held_available]
    exact free_iff.trans (serialBytes_ok_iff_forall one bytes)
  · intro σ io fuel s r run
    obtain ⟨err, s', bytes, free_iff⟩ := serialTransfer_lockFree_iff byDev found run
    have one : ∀ c w err w', serialPortWrite io fuel (port.held .write) c w = some (err, w') →
        (err = 0 ↔ port.available = true ∧ port.addr % 2 ^ 16 ≠ 0) := by
      intro c w err w' result
      rw [serialPortWrite_ok_iff result, SerialPort.held_available, SerialPort.held_addr]
    refine free_iff.trans ((serialBytes_ok_iff_forall one bytes).trans ?_)
    exact ⟨fun all some => all 0 some, fun all k below => all (Nat.zero_lt_of_lt below)⟩

/-- A machine whose ports always read as ones. -/
def onesIo : PortIo Unit := ⟨fun _ s => (0xFF, s), fun _ _ s => s, id⟩

/-- A table with one port. -/
def oneSerialPort (available : Bool) : List SerialPort := [⟨"com1", 0x3F8, 1, available, 0, 0⟩]

theorem serial_released_present :
    LockFree .read (oneSerialPort true) 1 ∧ LockFree .write (oneSerialPort true) 1 := by
  have all := @serial_released_iff (oneSerialPort true) 1 0 ⟨"com1", 0x3F8, 1, true, 0, 0⟩ rfl rfl 1
    4096
  constructor
  · refine (all.2.1 Unit onesIo 1 ⟨fun _ => 0, ()⟩
      (1, oneSerialPort true, ⟨store (fun _ => 0) 4096 [0xFF], ()⟩) rfl).mpr ?_
    intro k below
    obtain rfl : k = 0 := by omega
    exact ⟨rfl, by decide⟩
  · refine (all.2.2 Unit onesIo 1 ⟨fun _ => 0, ()⟩ (1, oneSerialPort true, ⟨fun _ => 0, ()⟩) rfl).mpr ?_
    exact fun _ => ⟨rfl, by decide⟩

/-- A byte for a port that is not there. -/
theorem serial_keepsLock :
    ∃ ports, serialWrite onesIo 1 (oneSerialPort false) 1 1 4096 ⟨fun _ => 0, ()⟩ =
        some (-eINVAL, ports, ⟨fun _ => 0, ()⟩) ∧ ¬ LockFree .write ports 1 := by
  refine ⟨_, rfl, ?_⟩
  rintro ⟨i, port, byDev, found, free⟩
  obtain rfl : 0 = i := Option.some.inj byDev
  cases found
  exact absurd free (by decide)

end Sdx.Core
