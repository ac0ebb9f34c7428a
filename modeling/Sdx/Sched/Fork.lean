import Sdx.Mm.RegionCopy
import Sdx.Mm.VmmRoundTrip
import Sdx.Sched.Files
import Sdx.Sched.Task

/-! # Copying, switching and freeing tasks (`sched/task.c`)

A copied task gets a PML4 of its own and copies of its parent's regions. The copies are mapped
in the parent's tables only while they are filled; they come into the tables of the copy when it
is switched to. The tables that this makes are nowhere given back: freeing a task gives back the
frames of the regions and of the PML4, and before it comes to the PML4 it closes the files, with
no look at whether a slot has one.
-/

namespace Sdx.Sched

open Mm

/-- What the functions below use of a `task_t`. -/
structure TaskVm where
  regs : TaskRegs
  files : FileTable
  mem : List Region
  vmm : BitVec 64
  old : Bool

/-- The memory and the tasks that share it. `current` is the task that runs. -/
structure Machine where
  vmm : Vmm
  tasks : TaskId → TaskVm
  queue : List TaskId
  current : TaskId

namespace Machine

def setTask (m : Machine) (t : TaskId) (task : TaskVm) : Machine :=
  { m with tasks := Function.update m.tasks t task }

/-- `__vmm_alert_tasks`. -/
def alertTasks (m : Machine) : Machine :=
  { m with tasks := fun t =>
      if t ∈ m.queue ∧ vmmGet m.vmm ≠ (m.tasks t).vmm then { m.tasks t with old := true }
      else m.tasks t }

/-- The VMM behind calls that the current task has made. PML4 and queue are the same for all of them, so
    one alert marks the tasks that any number of them marks. -/
def deliver (m : Machine) (s : Vmm) : Machine :=
  if s.alerts = m.vmm.alerts then { m with vmm := s } else { m with vmm := s }.alertTasks

section

variable (boot : BootInfo) (fuel : Nat)

/-! ## Copying -/

/-- The loop of `task_copy` over the regions; `i` counts the calls of `heap_alloc`. -/
def taskCopyMem (calls : Nat → HeapCall) (s : Vmm) : Nat → List Region →
    Option (Option (List Region) × Vmm)
  | _, [] => some (some [], s)
  | i, cur :: mem => do
      let (new, s) ← s.regionCopy boot fuel (calls i) cur
      match new with
      | none => some (none, s)
      | some new =>
          let (mem, s) ← taskCopyMem calls s (i + 1) mem
          some (mem.map (new :: ·), s)

/-- `task_copy`: the copy, or `none` for `NULL`. Without memory for the copy itself the write to its
    `vmm` field faults. -/
def taskCopy (calls : Nat → HeapCall) (m : Machine) : Option (Option TaskVm × Machine) := do
  let s ← m.vmm.heapExtends boot fuel (calls 0).pages
  let (vmm, s) ← vmmNew boot fuel s
  if !(calls 0).found then none
  else
    let (mem, s) ← taskCopyMem boot fuel calls s 1 (m.tasks m.current).mem
    some (mem.map fun mem => ⟨(m.tasks m.current).regs, ⟨0, fun _ => none⟩, mem, vmm, false⟩,
      m.deliver s)

/-- The loop of `task_switch` over the regions, which stops at the first that is not mapped. -/
def taskMapMem (s : Vmm) : List Region → Option (Int × List Region × Vmm)
  | [] => some (0, [], s)
  | cur :: mem => do
      let (err, cur, s) ← s.regionMap boot fuel cur
      if err ≠ 0 then some (err, cur :: mem, s)
      else
        let (err, mem, s) ← taskMapMem s mem
        some (err, cur :: mem, s)

/-- The part of `task_switch` that brings an old PML4 up to date. -/
def taskSync (m : Machine) (t : TaskId) : Option Machine :=
  if (m.tasks t).old then do
    let (_, s) ← vmmSync boot fuel m.vmm (m.tasks t).vmm
    let m := m.deliver s
    some (m.setTask t { m.tasks t with old := false })
  else some m

/-- `task_switch` of the task that has just become the current one. -/
def taskSwitch (m : Machine) (t : TaskId) : Option (Int × Machine) := do
  if vmmGet m.vmm = (m.tasks t).vmm then some (0, { m with current := t })
  else
    let m ← taskSync boot fuel m t
    let (err, s) := vmmSwitch m.vmm (m.tasks t).vmm
    let m := { m with vmm := s, current := t }
    if err ≠ 0 then some (err, m)
    else
      let (err, mem, s) ← taskMapMem boot fuel m.vmm (m.tasks t).mem
      let m := m.deliver s
      some (err, m.setTask t { m.tasks t with mem := mem })

/-- The loop of `task_free` over the files: the nodes it closes. To read the node of a slot without a
    file is an access to page 0 and faults. -/
def taskFreeFiles (t : FileTable) : Option (List Nat) :=
  (List.range taskFilesMax.toNat).mapM fun fd => (t.files fd).map TaskFile.node

/-- `task_free`: the nodes that it closes. The signals, the wait queue and the task itself are on the
    heap, which has no frames of its own to give back. -/
def taskFree (m : Machine) (t : TaskId) : Option (List Nat × Machine) := do
  let s := (m.tasks t).mem.foldl Vmm.regionFree m.vmm
  let nodes ← taskFreeFiles (m.tasks t).files
  some (nodes, { m with vmm := (vmmFree s (m.tasks t).vmm).2 })

/-! ## A process and its frames -/

end

/-- A frame of the kernel half: of a page or a table that the walk of an address of the upper half
    goes through. -/
def KernelHolds (s : Vmm) (frame : Frame) : Prop :=
  ∃ vaddr, 256 ≤ (hwIndex vaddr 4).toNat ∧ frame ∈ (hwWalk s.mem vaddr 4 s.cr3).1.map hwFrame

section

variable {boot : BootInfo} {fuel : Nat} {calls : Nat → HeapCall} {m m' : Machine} {t child : TaskId}

end

/-! ### One task without regions -/

/-- A PML4 in frame 1 with one page in the upper half, and its PDPT, PD and PT in frames 2 to 4. -/
def kernelPage : PhysMem := fun table i =>
  if table = 1 ∧ i = 510 then 0x1003
  else if table = 1 ∧ i = 256 then 0x2003
  else if table = 2 ∧ i = 0 then 0x3003
  else if table = 3 ∧ i = 0 then 0x4003
  else if table = 4 ∧ i = 0 then 0x5003
  else 0

/-- 64 free pages from `0x10000` on. -/
def kernelVmm : Vmm :=
  ⟨kernelPage, 1, ⟨⟨0x10000, 0x50000, 0x10000⟩, fun _ => 0, true, 8, 0⟩, 0⟩

def oneTaskMachine : Machine :=
  ⟨kernelVmm, fun _ => ⟨default, ⟨0, fun _ => none⟩, [], 0x1000, false⟩, [0], 0⟩

/-- The heap has a block for every call. -/
def roomyHeap : Nat → HeapCall := fun _ => ⟨0, true⟩

end Machine

end Sdx.Sched
