import Sdx.Sched.Stack

/-! # Copies of argument lists (`util/mem.c`)

`charlist_copy` counts the entries first and then copies the strings one by one, adding up their
sizes as it goes. A list with too many entries is refused before anything is allocated. One whose
characters are too many is refused in the middle of the copy, and what was copied so far stays on
the heap.

`heap_alloc` says for the blocks that are live where a block of a size goes.
-/

namespace Sdx.Util

open Lib.Bytes Sched

/-- A block on the heap. -/
structure HeapBlock where
  addr : Nat
  size : Nat
  deriving DecidableEq

namespace HeapBlock

def Apart (b c : HeapBlock) : Prop := b.addr + b.size ≤ c.addr ∨ c.addr + c.size ≤ b.addr

def Contains (b : HeapBlock) (x : Nat) : Prop := b.addr ≤ x ∧ x < b.addr + b.size

end HeapBlock

/-- `heap_alloc`: the address of the new block, or `none` for `NULL`. -/
structure HeapAllocator where
  find : List HeapBlock → Nat → Option Nat
  nonnull : ∀ {live size a}, find live size = some a → 0 < a
  inSpace : ∀ {live size a}, find live size = some a → a + size ≤ 2 ^ 64
  apart : ∀ {live size a}, find live size = some a → ∀ b ∈ live, HeapBlock.Apart ⟨a, size⟩ b

/-- Memory, and the live blocks of the heap in it, the oldest first. -/
structure ListHeap where
  mem : Memory
  live : List HeapBlock

def heapAlloc (A : HeapAllocator) (h : ListHeap) (size : Nat) : Option Nat × ListHeap :=
  match A.find h.live size with
  | none => (none, h)
  | some a => (some a, { h with live := h.live ++ [⟨a, size⟩] })

/-- A list within a limit: its entries with the `NULL`, and its characters with their `NUL`s. -/
structure WithinLimit (list : List CString) (limit : Nat) : Prop where
  count : list.length + 1 ≤ limit
  size : (list.map CString.size).sum ≤ limit

/-- The blocks of the strings of a copy. -/
def stringBlocks (blocks : List Nat) (list : List CString) : List HeapBlock :=
  List.zipWith (fun a str => ⟨a, str.size⟩) blocks list

section

variable {A : HeapAllocator} {h h' : ListHeap} {list : List CString} {str : CString}
  {limit size count copy n : Nat} {blocks : List Nat}

theorem HeapBlock.Apart.symm {b c : HeapBlock} (apart : b.Apart c) : c.Apart b :=
  Or.symm apart

/-- Nothing is in two blocks that are apart. -/
theorem HeapBlock.Apart.not_contains {b c : HeapBlock} {x : Nat} (apart : b.Apart c)
    (inside : c.Contains x) : ¬ b.Contains x := by
  rintro ⟨low, high⟩
  obtain ⟨low', high'⟩ := inside
  obtain before | behind := apart
  · omega
  · omega

/-- The strings from number `count` on, copied into new blocks. -/
structure Filled (h h' : ListHeap) (copy count : Nat) (list : List CString) (blocks : List Nat) :
    Prop where
  length : blocks.length = list.length
  live : h'.live = h.live ++ stringBlocks blocks list
  fresh : ∀ new ∈ stringBlocks blocks list, ∀ b ∈ h.live, new.Apart b
  distinct : (stringBlocks blocks list).Pairwise HeapBlock.Apart
  pointers : ∀ i, (inside : i < blocks.length) → read h'.mem (copy + 8 * (count + i)) 8 = blocks[i]
  ends : read h'.mem (copy + 8 * (count + list.length)) 8 = 0
  strings : ∀ b ∈ blocks.zip list, Holds h'.mem b.1 b.2.bytes
  kept : ∀ x, x < copy + 8 * count ∨ copy + 8 * (count + list.length + 1) ≤ x →
    (∀ new ∈ stringBlocks blocks list, ¬ new.Contains x) → h'.mem x = h.mem x

/-- One string: its block and its pointer. -/
def fillOne (h : ListHeap) (copy count : Nat) (a : Nat) (str : CString) : ListHeap where
  mem := store (store h.mem (copy + 8 * count) (encode 8 a)) a str.bytes
  live := h.live ++ [⟨a, str.size⟩]

theorem Filled.cons {a : Nat} (array : ⟨copy, n⟩ ∈ h.live)
    (within : 8 * (count + list.length + 2) ≤ n) (found : A.find h.live str.size = some a)
    (filled : Filled (fillOne h copy count a str) h' copy (count + 1) list blocks) :
    Filled h h' copy count (str :: list) (a :: blocks) := by
  have apart := A.apart found
  have inSpace := A.inSpace found
  have size := str.size_pos
  have mine : ∀ new ∈ stringBlocks blocks list, new.Apart ⟨a, str.size⟩ := fun new mem =>
    filled.fresh new mem _ (List.mem_append_right _ (List.mem_singleton_self _))
  have old : ∀ new ∈ stringBlocks blocks list, ∀ b ∈ h.live, new.Apart b := fun new mem b live =>
    filled.fresh new mem b (List.mem_append_left _ live)
  have off : HeapBlock.Apart ⟨a, str.size⟩ ⟨copy, n⟩ := apart _ array
  have out : ∀ x, copy ≤ x → x < copy + n → ∀ new ∈ stringBlocks blocks list, ¬ new.Contains x :=
    fun x low high new mem => (old new mem _ array).not_contains ⟨low, high⟩
  refine ⟨?_, ?_, ?_, ?_, ?_, ?_, ?_, ?_⟩
  · rw [List.length_cons, List.length_cons, filled.length]
  · rw [filled.live, fillOne, List.append_assoc]
    rfl
  · intro new mem b live
    obtain rfl | mem := List.mem_cons.mp mem
    · exact apart b live
    · exact old new mem b live
  · exact List.pairwise_cons.mpr ⟨fun new mem => (mine new mem).symm, filled.distinct⟩
  · intro i inside
    cases i with
    | zero =>
        change read h'.mem (copy + 8 * (count + 0)) 8 = a
        refine read_eq_of_encode ?_ (by omega)
        intro k below
        rw [length_encode] at below
        have here := filled.kept (copy + 8 * (count + 0) + k) (.inl (by omega))
          (out _ (by omega) (by omega))
        rw [here, fillOne]
        dsimp only
        rw [store_outside, Nat.add_zero, store_inside]
        obtain before | behind := off
        · dsimp only at before
          rw [CString.length_bytes]
          omega
        · dsimp only at behind
          omega
    | succ i =>
        have next := filled.pointers i (Nat.lt_of_succ_lt_succ inside)
        rw [Nat.add_assoc, Nat.add_comm 1 i] at next
        exact next
  · have last := filled.ends
    rw [Nat.add_assoc, Nat.add_comm 1] at last
    exact last
  · intro b mem
    rw [List.zip_cons_cons, List.mem_cons] at mem
    obtain rfl | mem := mem
    · have stored : Holds (fillOne h copy count a str).mem a str.bytes := holds_store
      refine stored.congr fun x low high => ?_
      rw [CString.length_bytes] at high
      refine filled.kept x ?_ fun new mem => (mine new mem).not_contains ⟨low, high⟩
      obtain before | behind := off
      · dsimp only at before
        omega
      · dsimp only at behind
        omega
    · exact filled.strings b mem
  · intro x outside none'
    rw [List.length_cons] at outside
    have first := none' ⟨a, str.size⟩ List.mem_cons_self
    rw [filled.kept x (by omega) fun new mem => none' new (List.mem_cons_of_mem _ mem), fillOne]
    dsimp only
    rw [store_outside, store_outside]
    · rw [length_encode]
      omega
    · rw [CString.length_bytes]
      by_contra inside
      exact first ⟨by dsimp only; omega, by dsimp only; omega⟩

end

end Sdx.Util
