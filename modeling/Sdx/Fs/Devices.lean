import Sdx.Fs.Vfs
import Sdx.Lib.Run
import Sdx.Util.Slist
import Sdx.Util.Str

/-! # The device registry (`fs/devfs/devices.c`)

A new device goes to the front of the list and gets the address after that of the device it
finds there. So the addresses fall along the list, and taking any device out keeps that.
-/

namespace Sdx.Fs

open Sdx.Lib Sdx.Lib.Bytes Sdx.Util LinkedList

/-- The address of a `struct devfs_device`. -/
abbrev DevPtr := Nat

/-- The address of a `devfs_ops_t`. -/
abbrev DevfsOps := Nat

/-- `struct devfs_device`, the bytes of its name counting from zero. Its link is in the list. -/
structure DevfsDevice where
  name : Memory
  ops : Option DevfsOps
  mode : Nat
  addr : BitVec 32

/-- The devices in memory, the list at `head`, and which devices the heap has handed out. -/
structure Devices where
  list : Slist DevPtr
  devs : DevPtr → DevfsDevice
  live : DevPtr → Bool

/-- `devfs_device_from_name`. -/
def devfsDeviceFromName (s : Devices) (name : Option CString) (fuel : Nat) :
    Option (Option DevPtr) :=
  match name with
  | none => some none
  | some name =>
      dlistFind s.list.next (fun cur => strcmp (s.devs cur).name 0 name.chars == 0) fuel s.list.head

/-- `devfs_device_from_addr`. -/
def devfsDeviceFromAddr (s : Devices) (addr : Int) (fuel : Nat) : Option (Option DevPtr) :=
  dlistFind s.list.next (fun cur => (s.devs cur).addr.toInt == addr) fuel s.list.head

/-- `NULL == head ? 1 : head->addr + 1`. -/
def Devices.nextAddr (s : Devices) : BitVec 32 :=
  match s.list.head with
  | none => 1
  | some head => (s.devs head).addr + 1

/-- `devfs_device_register` behind its checks. -/
def Devices.register (s : Devices) (name : CString) (ops : Option DevfsOps) (mode : Nat)
    (dev : DevPtr) : Devices where
  list := s.list.addStart dev
  devs := Function.update s.devs dev
    { name := strncpy (fun _ => 0) 0 name nameMax, ops, mode, addr := s.nextAddr }
  live := Function.update s.live dev true

/-- `devfs_device_register`, where `heap_alloc` returns `dev`. -/
def devfsDeviceRegister (s : Devices) (name : Option CString) (ops : Option DevfsOps) (mode : Nat)
    (dev : DevPtr) (fuel : Nat) : Option (Int × Devices) :=
  match name with
  | none => some (-eINVAL, s)
  | some name =>
      if ops = none then some (-eINVAL, s)
      else do
        match ← devfsDeviceFromName s (some name) fuel with
        | some _ => some (-eFAULT, s)
        | none => some (s.nextAddr.toInt, s.register name ops mode dev)

/-- `devfs_device_unregister`. -/
def devfsDeviceUnregister (s : Devices) (name : Option CString) (fuel : Nat) :
    Option (Int × Devices) := do
  match ← devfsDeviceFromName s name fuel with
  | none => some (-eFAULT, s)
  | some dev => do
      let list ← s.list.del dev fuel
      some (0, { s with list, live := Function.update s.live dev false })

/-! ## Runs -/

/-- A device as it was registered, with the address that was returned. -/
structure Registered where
  dev : DevPtr
  name : CString
  ops : Option DevfsOps
  mode : Nat
  addr : Int

/-- The devices after a sequence of calls, those that were registered and not unregistered since,
    latest first, and how many there were to register. -/
structure Registry where
  devices : Devices
  registered : List Registered
  registrations : Nat

inductive DevfsCall where
  | register (name : CString) (ops : Option DevfsOps) (mode : Nat) (dev : DevPtr)
  | unregister (name : Option CString)

namespace Registry

variable {s s' : Registry} {name : CString} {r r' : Registered} {past : List (Registry × DevfsCall)}

def InUse (s : Registry) (name : CString) : Prop := ∃ r ∈ s.registered, r.name = name

/-- A name that fits, memory that the heap has not handed out, and fewer than `2^31` devices. -/
def MayRegister (s : Registry) (name : CString) (dev : DevPtr) : Prop :=
  1 ≤ name.chars.length ∧ name.chars.length ≤ nameMax ∧ s.devices.live dev = false ∧
    s.registrations + 1 < 2 ^ 31

inductive Step : Registry → DevfsCall → Registry → Prop where
  | registered {s : Registry} {name ops mode dev addr devices} :
      s.MayRegister name dev →
      Returns (devfsDeviceRegister s.devices (some name) ops mode dev) (addr, devices) → 0 ≤ addr →
      Step s (.register name ops mode dev)
        ⟨devices, ⟨dev, name, ops, mode, addr⟩ :: s.registered, s.registrations + 1⟩
  | refused {s : Registry} {name ops mode dev err devices} :
      s.MayRegister name dev →
      Returns (devfsDeviceRegister s.devices (some name) ops mode dev) (err, devices) → err < 0 →
      Step s (.register name ops mode dev) { s with devices }
  | unregistered {s : Registry} {name err devices} :
      Returns (devfsDeviceUnregister s.devices name) (err, devices) →
      Step s (.unregister name)
        { s with devices, registered := s.registered.filter fun r => some r.name ≠ name }

/-- No devices. -/
def Start (s : Registry) : Prop :=
  s.devices.list.head = none ∧ s.registered = [] ∧ s.registrations = 0

/-- What the registry promises about the registered devices. -/
structure Sound (s : Registry) : Prop where
  names : (s.registered.map Registered.name).Nodup
  addrs : (s.registered.map Registered.addr).Nodup
  addr_pos : ∀ r ∈ s.registered, 1 ≤ r.addr
  data : ∀ r ∈ s.registered,
    (s.devices.devs r.dev).ops = r.ops ∧ (s.devices.devs r.dev).mode = r.mode
  from_name : ∀ r ∈ s.registered,
    Returns (devfsDeviceFromName s.devices (some r.name)) (some r.dev)
  from_addr : ∀ r ∈ s.registered, Returns (devfsDeviceFromAddr s.devices r.addr) (some r.dev)
  no_name : ∀ name, ¬s.InUse name → Returns (devfsDeviceFromName s.devices (some name)) none
  no_addr : ∀ addr, (∀ r ∈ s.registered, r.addr ≠ addr) →
    Returns (devfsDeviceFromAddr s.devices addr) none
  registers : ∀ name ops mode dev, s.MayRegister name dev → ∃ err devices,
    Returns (devfsDeviceRegister s.devices (some name) ops mode dev) (err, devices) ∧
      (err < 0 ↔ s.InUse name ∨ ops = none) ∧ (err < 0 → devices = s.devices)
  unregisters : ∀ name, ∃ err devices,
    Returns (devfsDeviceUnregister s.devices name) (err, devices)

/-- A registered device is in memory as it was registered. -/
structure Stored (s : Registry) (r : Registered) : Prop where
  name : Lib.Bytes.Holds (s.devices.devs r.dev).name 0 (r.name.chars ++ [0])
  data : (s.devices.devs r.dev).ops = r.ops ∧ (s.devices.devs r.dev).mode = r.mode
  addr : (s.devices.devs r.dev).addr.toInt = r.addr
  live : s.devices.live r.dev = true
  low : 1 ≤ r.addr
  high : r.addr ≤ s.registrations

/-- The addresses fall along the list. -/
structure Inv (s : Registry) : Prop where
  walk : Walk s.devices.list.next s.devices.list.head (s.registered.map Registered.dev)
  stored : ∀ r ∈ s.registered, s.Stored r
  names : (s.registered.map Registered.name).Nodup
  falling : s.registered.Pairwise fun r r' => r'.addr < r.addr
  few : s.registrations < 2 ^ 31

namespace Inv

variable {test : DevPtr → Bool}

theorem find (inv : Inv s) (mem : r ∈ s.registered)
    (only : ∀ r' ∈ s.registered, test r'.dev = true ↔ r' = r) :
    Returns (fun fuel => dlistFind s.devices.list.next test fuel s.devices.list.head) (some r.dev) := by
  obtain ⟨l₁, l₂, split⟩ := List.append_of_mem mem
  have found : (s.registered.map Registered.dev).find? test = some r.dev := by
    rw [List.find?_map]
    have first : s.registered.find? (test ∘ Registered.dev) = some r := by
      cases result : s.registered.find? (test ∘ Registered.dev) with
      | none => exact absurd ((only r mem).mpr rfl) (List.find?_eq_none.mp result r mem)
      | some r' =>
          have passes := List.find?_some result
          rw [(only r' (List.mem_of_find?_eq_some result)).mp passes]
    rw [first, Option.map_some]
  rw [← found]
  exact dlistFind_returns inv.walk test

theorem find_none (inv : Inv s) (none' : ∀ r ∈ s.registered, test r.dev = false) :
    Returns (fun fuel => dlistFind s.devices.list.next test fuel s.devices.list.head) none := by
  have found : (s.registered.map Registered.dev).find? test = none := by
    rw [List.find?_map, Option.map_eq_none_iff, List.find?_eq_none]
    intro r mem
    simp [none' r mem]
  rw [← found]
  exact dlistFind_returns inv.walk test

theorem name_eq_iff (inv : Inv s) (mem : r ∈ s.registered) :
    (strcmp (s.devices.devs r.dev).name 0 name.chars == 0) = true ↔ r.name = name := by
  rw [beq_iff_eq, strcmp_eq_zero (inv.stored r mem).name r.name.nonzero name.nonzero, CString.ext_iff]

theorem same_of_name (inv : Inv s) (mem : r ∈ s.registered) (mem' : r' ∈ s.registered)
    (same : r'.name = r.name) : r' = r :=
  List.inj_on_of_nodup_map inv.names mem' mem same

theorem addrs (inv : Inv s) : (s.registered.map Registered.addr).Nodup :=
  List.pairwise_map.mpr (inv.falling.imp fun below eq => absurd below (by omega))

theorem same_of_addr (inv : Inv s) (mem : r ∈ s.registered) (mem' : r' ∈ s.registered)
    (same : r'.addr = r.addr) : r' = r :=
  List.inj_on_of_nodup_map inv.addrs mem' mem same

theorem fromName (inv : Inv s) (mem : r ∈ s.registered) :
    Returns (devfsDeviceFromName s.devices (some r.name)) (some r.dev) := by
  refine inv.find mem fun r' mem' => ?_
  rw [inv.name_eq_iff mem']
  exact ⟨inv.same_of_name mem mem', fun eq => by rw [eq]⟩

theorem fromName_none (inv : Inv s) (free : ¬s.InUse name) :
    Returns (devfsDeviceFromName s.devices (some name)) none := by
  refine inv.find_none fun r mem => ?_
  rw [Bool.eq_false_iff]
  exact fun same => free ⟨r, mem, (inv.name_eq_iff mem).mp same⟩

theorem fromAddr (inv : Inv s) (mem : r ∈ s.registered) :
    Returns (devfsDeviceFromAddr s.devices r.addr) (some r.dev) := by
  refine inv.find mem fun r' mem' => ?_
  rw [beq_iff_eq, (inv.stored r' mem').addr]
  exact ⟨inv.same_of_addr mem mem', fun eq => by rw [eq]⟩

theorem fromAddr_none {addr : Int} (inv : Inv s) (free : ∀ r ∈ s.registered, r.addr ≠ addr) :
    Returns (devfsDeviceFromAddr s.devices addr) none := by
  refine inv.find_none fun r mem => ?_
  rw [beq_eq_false_iff_ne, (inv.stored r mem).addr]
  exact free r mem

/-! ### Registering -/

/-- The address that a new device gets lies above those of all registered devices. -/
theorem nextAddr (inv : Inv s) (room : s.registrations + 1 < 2 ^ 31) :
    1 ≤ s.devices.nextAddr.toInt ∧ s.devices.nextAddr.toInt ≤ s.registrations + 1 ∧
      ∀ r ∈ s.registered, r.addr < s.devices.nextAddr.toInt := by
  have head := inv.walk.head_eq
  have falling := inv.falling
  cases registered : s.registered with
  | nil =>
      rw [registered] at head
      simp only [Devices.nextAddr, head, List.map_nil, List.head?_nil]
      refine ⟨by decide, ?_, fun r mem => absurd mem List.not_mem_nil⟩
      change (1 : Int) ≤ _
      omega
  | cons r rest =>
      have stored := inv.stored r (by simp [registered])
      rw [registered] at head falling
      obtain ⟨above, -⟩ := List.pairwise_cons.mp falling
      have low := stored.low
      have high := stored.high
      have next : s.devices.nextAddr.toInt = r.addr + 1 := by
        simp only [Devices.nextAddr, head, List.map_cons, List.head?_cons]
        rw [BitVec.toInt_add, stored.addr, show BitVec.toInt (1 : BitVec 32) = 1 by decide]
        exact Int.bmod_eq_of_le_mul_two (by omega) (by omega)
      rw [next]
      refine ⟨by omega, by omega, fun r' mem => ?_⟩
      obtain rfl | mem := List.mem_cons.mp mem
      · omega
      · have := above r' mem
        omega

theorem register_refused {ops : Option DevfsOps} {mode : Nat} {dev : DevPtr} (inv : Inv s)
    (refused : s.InUse name ∨ ops = none) : ∃ err, err < 0 ∧
      Returns (devfsDeviceRegister s.devices (some name) ops mode dev) (err, s.devices) := by
  by_cases given : ops = none
  · refine ⟨-eINVAL, by decide, .congr (fun fuel => ?_) (.const _)⟩
    rw [devfsDeviceRegister, if_pos given]
  obtain ⟨r, mem, rfl⟩ := refused.resolve_right given
  obtain ⟨enough, found⟩ := inv.fromName mem
  refine ⟨-eFAULT, by decide, enough, fun fuel le => ?_⟩
  simp only [devfsDeviceRegister, given, if_false, found fuel le, Option.bind_eq_bind, Option.bind_some]

theorem register_free {ops : Option DevfsOps} {mode : Nat} {dev : DevPtr} (inv : Inv s)
    (accepted : ¬(s.InUse name ∨ ops = none)) :
    Returns (devfsDeviceRegister s.devices (some name) ops mode dev)
      (s.devices.nextAddr.toInt, s.devices.register name ops mode dev) := by
  obtain ⟨free, given⟩ := not_or.mp accepted
  obtain ⟨enough, found⟩ := inv.fromName_none free
  refine ⟨enough, fun fuel le => ?_⟩
  simp only [devfsDeviceRegister, given, if_false, found fuel le, Option.bind_eq_bind, Option.bind_some]

theorem registers {ops : Option DevfsOps} {mode : Nat} {dev : DevPtr} (inv : Inv s)
    (may : s.MayRegister name dev) : ∃ err devices,
      Returns (devfsDeviceRegister s.devices (some name) ops mode dev) (err, devices) ∧
        (err < 0 ↔ s.InUse name ∨ ops = none) ∧ (err < 0 → devices = s.devices) := by
  by_cases refused : s.InUse name ∨ ops = none
  · obtain ⟨err, fails, returns⟩ := @register_refused s name ops mode dev inv refused
    exact ⟨err, s.devices, returns, iff_of_true fails refused, fun _ => rfl⟩
  · have low := (inv.nextAddr may.2.2.2).1
    exact ⟨_, _, inv.register_free refused, iff_of_false (by omega) refused, fun fails => by omega⟩

/-- The new device is in memory, and all others are as they were. -/
theorem registered {ops : Option DevfsOps} {mode : Nat} {dev : DevPtr} (inv : Inv s)
    (may : s.MayRegister name dev) (free : ¬s.InUse name) :
    Inv ⟨s.devices.register name ops mode dev,
      ⟨dev, name, ops, mode, s.devices.nextAddr.toInt⟩ :: s.registered, s.registrations + 1⟩ := by
  obtain ⟨some', short, unused, few⟩ := may
  obtain ⟨low, high, above⟩ := inv.nextAddr few
  have off : ∀ r ∈ s.registered, r.dev ≠ dev := by
    rintro r mem rfl
    rw [(inv.stored r mem).live] at unused
    cases unused
  constructor
  · refine Slist.addStart_walk inv.walk fun mem => ?_
    obtain ⟨r, mem, eq⟩ := List.mem_map.mp mem
    exact off r mem eq
  · intro r mem
    obtain rfl | mem := List.mem_cons.mp mem
    · have nonempty : name.chars ≠ [] := List.ne_nil_of_length_pos some'
      constructor <;> simp only [Devices.register, Function.update_self]
      · exact holds_strncpy (fun _ => rfl) short nonempty
      · exact ⟨trivial, trivial⟩
      · exact low
      · exact high
    · have stored := inv.stored r mem
      have frame := off r mem
      constructor
      · simp only [Devices.register, Function.update_of_ne frame]
        exact stored.name
      · simp only [Devices.register, Function.update_of_ne frame]
        exact stored.data
      · simp only [Devices.register, Function.update_of_ne frame]
        exact stored.addr
      · simp only [Devices.register, Function.update_of_ne frame]
        exact stored.live
      · exact stored.low
      · have old := stored.high
        simp only
        omega
  · rw [List.map_cons, List.nodup_cons]
    refine ⟨fun mem => ?_, inv.names⟩
    obtain ⟨r, mem, eq⟩ := List.mem_map.mp mem
    exact free ⟨r, mem, eq⟩
  · exact List.pairwise_cons.mpr ⟨above, inv.falling⟩
  · exact few

/-! ### Unregistering -/

/-- Around a registered device stand those with other names. -/
theorem others (inv : Inv s) (mem : r ∈ s.registered) : ∃ l₁ l₂, s.registered = l₁ ++ r :: l₂ ∧
    (s.registered.filter fun q => some q.name ≠ some r.name) = l₁ ++ l₂ := by
  obtain ⟨l₁, l₂, split⟩ := List.append_of_mem mem
  have names := inv.names
  rw [split, List.map_append, List.map_cons] at names
  have apart := (List.nodup_cons.mp (List.nodup_middle.mp names)).1
  rw [← List.map_append] at apart
  have keeps (q : Registered) (member : q ∈ l₁ ++ l₂) : decide (some q.name ≠ some r.name) = true := by
    refine decide_eq_true fun same => apart ?_
    rw [← Option.some.inj same]
    exact List.mem_map_of_mem member
  refine ⟨l₁, l₂, split, ?_⟩
  rw [split, List.filter_append, List.filter_cons_of_neg (by simp), ← List.filter_append]
  exact List.filter_eq_self.mpr keeps

/-- Unregistering takes the device out of the list and out of the registered ones. -/
theorem unregister (inv : Inv s) (name : Option CString) : ∃ err devices,
    Returns (devfsDeviceUnregister s.devices name) (err, devices) ∧
      Inv { s with devices, registered := s.registered.filter fun r => some r.name ≠ name } := by
  by_cases use : ∃ r ∈ s.registered, some r.name = name
  · obtain ⟨r, mem, rfl⟩ := use
    obtain ⟨l₁, l₂, split, kept⟩ := inv.others mem
    have walk := inv.walk
    have devs := walk.nodup
    rw [split, List.map_append, List.map_cons] at walk devs
    have off := (List.nodup_cons.mp (List.nodup_middle.mp devs)).1
    obtain ⟨list, ⟨enough', del⟩, walk⟩ := Slist.del_returns walk
    obtain ⟨enough, found⟩ := inv.fromName mem
    refine ⟨0, { s.devices with list, live := Function.update s.devices.live r.dev false },
      ⟨max enough enough', fun fuel le => ?_⟩, ?_⟩
    · simp only [devfsDeviceUnregister, found fuel (by omega), del fuel (by omega),
        Option.bind_eq_bind, Option.bind_some]
    · constructor
      · simp only [kept, List.map_append]
        exact walk
      · intro q member
        have stored := inv.stored q (List.mem_of_mem_filter member)
        have away : q.dev ≠ r.dev := by
          intro same
          rw [kept] at member
          rw [← same, ← List.map_append] at off
          exact off (List.mem_map_of_mem member)
        refine { stored with live := ?_ }
        simp only [Function.update_of_ne away]
        exact stored.live
      · exact inv.names.sublist (List.filter_sublist.map _)
      · exact inv.falling.sublist List.filter_sublist
      · exact inv.few
  · have none' : Returns (devfsDeviceFromName s.devices name) none := by
      cases name with
      | none => exact .const none
      | some name => exact inv.fromName_none fun ⟨r, mem, same⟩ => use ⟨r, mem, by rw [same]⟩
    obtain ⟨enough, found⟩ := none'
    have all : (s.registered.filter fun r => some r.name ≠ name) = s.registered :=
      List.filter_eq_self.mpr fun r mem => decide_eq_true fun same => use ⟨r, mem, same⟩
    refine ⟨-eFAULT, s.devices, ⟨enough, fun fuel le => ?_⟩, ?_⟩
    · simp only [devfsDeviceUnregister, found fuel le, Option.bind_eq_bind, Option.bind_some]
    · rw [all]
      exact inv

/-- What the invariant gives. -/
theorem sound (inv : Inv s) : Sound s where
  names := inv.names
  addrs := inv.addrs
  addr_pos r mem := (inv.stored r mem).low
  data r mem := (inv.stored r mem).data
  from_name r mem := inv.fromName mem
  from_addr r mem := inv.fromAddr mem
  no_name name free := inv.fromName_none free
  no_addr addr free := inv.fromAddr_none free
  registers name ops mode dev may := inv.registers may
  unregisters name := by
    obtain ⟨err, devices, returns, -⟩ := inv.unregister name
    exact ⟨err, devices, returns⟩

/-- Every call keeps the invariant. -/
theorem step {call : DevfsCall} (inv : Inv s) (step : Step s call s') : Inv s' := by
  cases step with
  | @registered name ops mode dev addr devices may returns done =>
      have accepted : ¬(s.InUse name ∨ ops = none) := by
        intro refused
        obtain ⟨err, fails, returns'⟩ := @register_refused s name ops mode dev inv refused
        cases returns.unique returns'
        omega
      cases returns.unique (inv.register_free accepted)
      exact inv.registered may fun use => accepted (.inl use)
  | @refused name ops mode dev err devices may returns fails =>
      obtain ⟨err', devices', returns', -, same⟩ := @registers s name ops mode dev inv may
      cases returns.unique returns'
      rw [same fails]
      exact inv
  | @unregistered name err devices returns =>
      obtain ⟨err', devices', returns', inv'⟩ := inv.unregister name
      cases returns.unique returns'
      exact inv'

end Inv

theorem inv_start (start : Start s) : Inv s := by
  obtain ⟨head, registered, none'⟩ := start
  constructor
  · rw [head, registered]
    exact .stop
  · simp [registered]
  · simp [registered]
  · simp [registered]
  · omega

/-- After any calls the registered devices have names and addresses of their own, the searches
    find them and nothing else, and only a name in use or missing operations are refused. -/
theorem sound_always (run : Run Start Step past s) : Run.Always Sound past s := by
  obtain ⟨now, earlier⟩ := @Run.invariant _ _ Start Step (fun _ _ => True) Inv
    (fun _ => inv_start) (fun _ _ _ inv _ step => inv.step step) _ _ run fun _ _ => trivial
  exact ⟨now.sound, fun before mem => (earlier before mem).sound⟩

/-! ### A terminal -/

def noDevices : Registry where
  devices := ⟨⟨fun _ => none, none⟩, fun _ => ⟨fun _ => 0, none, 0, 0⟩, fun _ => false⟩
  registered := []
  registrations := 0

/-- `"tty"`. -/
def tty : CString := ⟨[0x74, 0x74, 0x79], by simp⟩

theorem start_noDevices : Start noDevices := ⟨rfl, rfl, rfl⟩

theorem mayRegister_tty : noDevices.MayRegister tty 4096 := ⟨by decide, by decide, rfl, by decide⟩

theorem sound_always_tty : ∃ past s, Run Start Step past s ∧
    s.registered.map Registered.addr = [1] ∧ Run.Always Sound past s := by
  have returns : Returns (devfsDeviceRegister noDevices.devices (some tty) (some 8192) 0 4096)
      (1, noDevices.devices.register tty (some 8192) 0 4096) :=
    (inv_start start_noDevices).register_free (by
      rintro (⟨r, mem, -⟩ | none')
      · exact absurd mem List.not_mem_nil
      · cases none')
  have run := Run.next (Run.init start_noDevices) (Step.registered mayRegister_tty returns (by decide))
  exact ⟨_, _, run, rfl, sound_always run⟩

/-- A device without operations is refused, although no device has its name. -/
theorem refused_unused : ∃ s name dev err devices, Run Start Step [] s ∧ s.MayRegister name dev ∧
    Returns (devfsDeviceRegister s.devices (some name) none 0 dev) (err, devices) ∧ err < 0 ∧
      ¬s.InUse name := by
  refine ⟨noDevices, tty, 4096, -eINVAL, _, .init start_noDevices, mayRegister_tty, .const _, by decide, ?_⟩
  rintro ⟨r, mem, -⟩
  exact absurd mem List.not_mem_nil

end Registry

end Sdx.Fs
