import Sdx.Sched.Fork

/-! # A fork that fails (`sched/task.c`)

When a region cannot be copied `task_copy` returns `NULL` and undoes nothing: the new task, the
regions that were copied before, their frames and the PML4 belong to nobody then. Blocks of the
heap go by the number of the call of `heap_alloc` that returned them.
-/

namespace Sdx.Sched

open Mm

namespace Machine

section

variable (boot : BootInfo) (fuel : Nat)

/-- The loop of `task_copy` with the blocks that are live behind it. `region_copy` keeps a block
    exactly when it returns one. -/
def taskCopyMemBlocks (calls : Nat → HeapCall) (s : Vmm) : Nat → List Region →
    Option ((Option (List Region) × Vmm) × List Nat)
  | _, [] => some ((some [], s), [])
  | i, cur :: mem => do
      let (new, s) ← s.regionCopy boot fuel (calls i) cur
      match new with
      | none => some ((none, s), [])
      | some new =>
          let ((mem, s), blocks) ← taskCopyMemBlocks calls s (i + 1) mem
          some ((mem.map (new :: ·), s), i :: blocks)

/-- `task_copy` with the blocks that are live behind it. -/
def taskCopyBlocks (calls : Nat → HeapCall) (m : Machine) :
    Option ((Option TaskVm × Machine) × List Nat) := do
  let s ← m.vmm.heapExtends boot fuel (calls 0).pages
  let (vmm, s) ← vmmNew boot fuel s
  if !(calls 0).found then none
  else
    let ((mem, s), blocks) ← taskCopyMemBlocks boot fuel calls s 1 (m.tasks m.current).mem
    some ((mem.map fun mem => ⟨(m.tasks m.current).regs, ⟨0, fun _ => none⟩, mem, vmm, false⟩,
      m.deliver s), 0 :: blocks)

end

/-- No block is left, and the bitmap is that of `m` but for frames that the kernel half holds, among
    them the pages of the heap. -/
def ForkReleased (m m' : Machine) (blocks : List Nat) : Prop :=
  blocks = [] ∧ ∀ k < m.vmm.pmm.covered,
    m'.vmm.pmm.bitAt k = m.vmm.pmm.bitAt k ∨ KernelHolds m'.vmm (m.vmm.pmm.frameOf k)

section

variable {boot : BootInfo} {fuel : Nat} {calls : Nat → HeapCall} {m m' : Machine} {s s' : Vmm}
  {mem : List Region} {blocks : List Nat} {i : Nat}

theorem taskCopyMemBlocks_value : (taskCopyMemBlocks boot fuel calls s i mem).map Prod.fst =
    taskCopyMem boot fuel calls s i mem := by
  induction mem generalizing s i with
  | nil => rfl
  | cons cur mem ih =>
      rw [taskCopyMemBlocks, taskCopyMem]
      cases s.regionCopy boot fuel (calls i) cur with
      | none => rfl
      | some copied =>
          obtain ⟨new, s₁⟩ := copied
          cases new with
          | none => rfl
          | some new =>
              simp only [Option.bind_eq_bind, Option.bind_some]
              rw [← ih]
              cases taskCopyMemBlocks boot fuel calls s₁ (i + 1) mem <;> rfl

/-- Counting the blocks changes nothing. -/
theorem taskCopyBlocks_value :
    (taskCopyBlocks boot fuel calls m).map Prod.fst = taskCopy boot fuel calls m := by
  rw [taskCopyBlocks, taskCopy]
  cases m.vmm.heapExtends boot fuel (calls 0).pages with
  | none => rfl
  | some s =>
      simp only [Option.bind_eq_bind, Option.bind_some]
      cases vmmNew boot fuel s with
      | none => rfl
      | some new =>
          obtain ⟨vmm, s⟩ := new
          simp only [Option.bind_some]
          split
          · rfl
          · rw [← taskCopyMemBlocks_value]
            cases taskCopyMemBlocks boot fuel calls s 1 (m.tasks m.current).mem <;> rfl

/-- A loop that stops at a region has left one block for every region before it. -/
theorem taskCopyMemBlocks_failed
    (failed : taskCopyMemBlocks boot fuel calls s i mem = some ((none, s'), blocks)) :
    ∃ copied < mem.length, blocks = List.range' i copied := by
  induction mem generalizing s i blocks with
  | nil => cases failed
  | cons cur mem ih =>
      rw [taskCopyMemBlocks] at failed
      obtain ⟨⟨new, s₁⟩, -, failed⟩ := Option.bind_eq_some_iff.mp failed
      cases new with
      | none =>
          cases failed
          exact ⟨0, Nat.succ_pos _, rfl⟩
      | some new =>
          obtain ⟨⟨⟨rest, s₂⟩, more⟩, run, result⟩ := Option.bind_eq_some_iff.mp failed
          cases rest with
          | some _ => cases result
          | none =>
              cases result
              obtain ⟨copied, below, rfl⟩ := ih run
              exact ⟨copied + 1, Nat.succ_lt_succ below, rfl⟩

/-- What a fork that fails leaves: the block of the new task, and one for every region that was
    copied. -/
theorem taskCopyBlocks_failed
    (failed : taskCopyBlocks boot fuel calls m = some ((none, m'), blocks)) :
    ∃ copied < (m.tasks m.current).mem.length, blocks = List.range (copied + 1) := by
  rw [taskCopyBlocks] at failed
  obtain ⟨s, -, failed⟩ := Option.bind_eq_some_iff.mp failed
  obtain ⟨⟨vmm, s₁⟩, -, failed⟩ := Option.bind_eq_some_iff.mp failed
  simp only at failed
  split at failed
  · cases failed
  · obtain ⟨⟨⟨mem, s₂⟩, more⟩, run, result⟩ := Option.bind_eq_some_iff.mp failed
    cases mem with
    | some _ => cases result
    | none =>
        cases result
        obtain ⟨copied, below, rfl⟩ := taskCopyMemBlocks_failed run
        refine ⟨copied, below, ?_⟩
        rw [List.range_eq_range', List.range'_succ]

end

/-- A fork that fails never gives everything back. It leaves the new task and the regions that it
    has copied, whichever allocation failed. -/
theorem forkReleased_never {boot : BootInfo} {fuel : Nat} {calls : Nat → HeapCall} {m m' : Machine}
    {blocks : List Nat} (failed : taskCopyBlocks boot fuel calls m = some ((none, m'), blocks)) :
    ¬ ForkReleased m m' blocks ∧
      ∃ copied < (m.tasks m.current).mem.length, blocks = List.range (copied + 1) := by
  obtain ⟨copied, below, left⟩ := taskCopyBlocks_failed failed
  refine ⟨?_, copied, below, left⟩
  rintro ⟨empty, -⟩
  rw [left, List.range_succ] at empty
  exact absurd empty (List.append_ne_nil_of_right_ne_nil _ (List.cons_ne_nil _ _))

/-! ### One region and no frames -/

/-- The machine of `oneTaskMachine` with one region and all pages in use. -/
def fullMachine : Machine :=
  { oneTaskMachine with
    vmm := { kernelVmm with pmm := { kernelVmm.pmm with bm := fun _ => BitVec.allOnes 64 } }
    tasks := fun _ =>
      ⟨default, ⟨0, fun _ => none⟩, [⟨.stack, true, 0x10000, 0x20000, 1⟩], 0x1000, false⟩ }

theorem fullMachine_fails : ∃ m', taskCopyBlocks freeBoot 8 roomyHeap fullMachine =
    some ((none, m'), [0]) := by
  have run : ((vmmNew freeBoot 8 fullMachine.vmm).bind fun new =>
      (vmmMap freeBoot new.2 8 1 0 0#32).map fun mapped => mapped.1) = some 0#64 := by
    decide
  obtain ⟨⟨vmm, s⟩, new, run⟩ := Option.bind_eq_some_iff.mp run
  obtain ⟨⟨vaddr, s₁⟩, mapped, none'⟩ := Option.map_eq_some_iff.mp run
  obtain rfl : vaddr = 0#64 := none'
  have copy : s.regionCopy freeBoot 8 (roomyHeap 1) ⟨.stack, true, 0x10000, 0x20000, 1⟩ =
      some (none, s₁) := by
    simp only [Vmm.regionCopy, mapped, Option.bind_eq_bind, Option.bind_some, if_true]
  have mem : (fullMachine.tasks fullMachine.current).mem =
      [⟨.stack, true, 0x10000, 0x20000, 1⟩] := rfl
  have loop : taskCopyMemBlocks freeBoot 8 roomyHeap s 1
      (fullMachine.tasks fullMachine.current).mem = some ((none, s₁), []) := by
    rw [mem, taskCopyMemBlocks, copy]
    rfl
  have heap : fullMachine.vmm.heapExtends freeBoot 8 (roomyHeap 0).pages = some fullMachine.vmm := rfl
  refine ⟨fullMachine.deliver s₁, ?_⟩
  rw [taskCopyBlocks, heap, Option.bind_eq_bind, Option.bind_some, new]
  dsimp only [Option.bind_eq_bind, Option.bind_some]
  rw [loop]
  rfl

theorem forkReleased_never_fullMachine :
    ∃ m', taskCopyBlocks freeBoot 8 roomyHeap fullMachine = some ((none, m'), [0]) ∧
      ¬ ForkReleased fullMachine m' [0] := by
  obtain ⟨m', failed⟩ := fullMachine_fails
  exact ⟨m', failed, (forkReleased_never failed).1⟩

theorem not_forkReleased :
    ¬ ∀ boot fuel calls m m' blocks,
      taskCopyBlocks boot fuel calls m = some ((none, m'), blocks) → ForkReleased m m' blocks := by
  intro released
  obtain ⟨m', failed⟩ := fullMachine_fails
  have empty : [0] = [] := (released _ _ _ _ _ _ failed).1
  cases empty

end Machine

end Sdx.Sched
