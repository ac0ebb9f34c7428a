import Sdx.Lib.Run
import Sdx.Mm.HeapAlloc
import Sdx.Mm.HeapFree

/-! # No chunk of the heap is lost

A run of `heap_alloc` and `heap_free` from an empty heap, with the blocks that are in use beside
the heap. Each chunk of each page that `vmm_map` returned is in the free list or in one block.
The free list stays a list as long as it ends above each block that is freed, which it always
does while the pages come in ascending order.
-/

namespace Sdx.Mm

open Sdx.Lib Sdx.Lib.LinkedList

/-! ## Runs -/

/-- A block in use: its first chunk, how many chunks there are behind that one, and the size that
    was asked for. -/
structure HeapBlock where
  start : Nat
  more : Nat
  request : Nat
  deriving DecidableEq

namespace HeapBlock

def chunks (b : HeapBlock) : List Nat := heapChunks b.start (b.more + 1)

/-- What fits into the block: the data of its first chunk and its other chunks. -/
def size (b : HeapBlock) : Nat := heapChunkDataSize + heapChunkSize * b.more

/-- The pointer that the caller of `heap_alloc` has. -/
def ptr (b : HeapBlock) : Nat := b.start + heapChunkMetaSize

end HeapBlock

/-- The heap and the blocks in use. -/
structure HeapLedger where
  heap : Heap
  live : List HeapBlock

inductive HeapEvent where
  | alloc (size : Nat)
  | free (b : HeapBlock)
  | write (b : HeapBlock)

namespace HeapLedger

/-- The block that a call of `heap_alloc` returned, by the size that it wrote. -/
def allocated (s : HeapLedger) (size mem : Nat) (h : Heap) : HeapLedger where
  heap := h
  live :=
    if mem = 0 then s.live
    else
      let start := mem - heapChunkMetaSize
      ⟨start, (h.metaSize start - heapChunkDataSize) / heapChunkSize, size⟩ :: s.live

/-- A call, or a write of the caller to a block in use: anywhere but the `meta` of its first
    chunk. -/
inductive Step : HeapLedger → HeapEvent → HeapLedger → Prop where
  | alloc {s size fuel mem h} : 0 < size → heapAlloc fuel s.heap size = some (mem, h) →
      Step s (.alloc size) (s.allocated size mem h)
  | free {s b fuel h} : b ∈ s.live → heapFree fuel s.heap b.ptr = some h →
      Step s (.free b) ⟨h, s.live.erase b⟩
  | write {s b mem} : b ∈ s.live → (∀ a, a ∉ b.chunks → mem a = s.heap.mem a) →
      (mem b.start).meta0 = (s.heap.mem b.start).meta0 →
      (mem b.start).meta1 = (s.heap.mem b.start).meta1 →
      Step s (.write b) ⟨{ s.heap with mem := mem }, s.live⟩

end HeapLedger

/-- Pages that `vmm_map` may return one after the other: each is fresh, and none is the last one of
    the address space, where no VMA is. -/
structure PageSupply (pages : List Nat) : Prop where
  fresh : pages.Nodup
  aligned : ∀ page ∈ pages, pageSize ∣ page
  some : ∀ page ∈ pages, page ≠ 0
  fits : ∀ page ∈ pages, page + pageSize < 2 ^ 64

/-- Before the first call. -/
structure HeapLedger.Start (pages : List Nat) (s : HeapLedger) : Prop where
  supply : PageSupply pages
  pages : s.heap.pages = pages
  first : s.heap.first = 0
  last : s.heap.last = 0
  live : s.live = []

/-! ## The invariant -/

/-- `l` is the free list, and each chunk of the pages that came is in it or in one block. -/
structure Owned (pages : List Nat) (s : HeapLedger) (l : List Nat) : Prop where
  supply : PageSupply pages
  list : FreeList s.heap l
  split : ∃ got, pages = got ++ s.heap.pages ∧
    (l ++ s.live.flatMap HeapBlock.chunks).Perm (got.flatMap pageChunks)
  magic : ∀ b ∈ s.live, s.heap.isMagical b.start
  size : ∀ b ∈ s.live, s.heap.metaSize b.start = b.size
  enough : ∀ b ∈ s.live, b.request ≤ b.size

section

variable {pages : List Nat} {s : HeapLedger} {l : List Nat}

namespace PageSupply

theorem isChunk (supply : PageSupply pages) {a : Nat} (mem : a ∈ pages.flatMap pageChunks) :
    IsChunk a := by
  obtain ⟨page, inside, here⟩ := List.mem_flatMap.mp mem
  obtain ⟨j, lt, rfl⟩ := mem_pageChunks.mp here
  have aligned := supply.aligned page inside
  have some := supply.some page inside
  have fits := supply.fits page inside
  rw [pageSize] at aligned fits
  exact ⟨by omega, by omega, by omega⟩

theorem nodup (supply : PageSupply pages) : (pages.flatMap pageChunks).Nodup := by
  refine List.nodup_flatMap.mpr ⟨fun page _ => sorted_heapChunks.imp Nat.ne_of_lt, ?_⟩
  refine supply.fresh.imp_of_mem fun {p q} hp hq off => ?_
  intro a in_p in_q
  obtain ⟨j, hj, rfl⟩ := mem_pageChunks.mp in_p
  obtain ⟨k, hk, same⟩ := mem_pageChunks.mp in_q
  have aligned_p := supply.aligned p hp
  have aligned_q := supply.aligned q hq
  rw [pageSize] at aligned_p aligned_q
  omega

end PageSupply

theorem HeapLedger.allocated_live (s : HeapLedger) (size : Nat) {start n : Nat} {h : Heap}
    (size_eq : h.metaSize start = 16 + 32 * n) :
    (s.allocated size (start + 16) h).live = ⟨start, n, size⟩ :: s.live := by
  have front : start + 16 - heapChunkMetaSize = start := Nat.add_sub_cancel ..
  have count : (16 + 32 * n - heapChunkDataSize) / heapChunkSize = n := by
    rw [heapChunkDataSize, heapChunkSize]
    omega
  simp [HeapLedger.allocated, front, size_eq, count]

namespace Owned

/-- All chunks, those of the pages to come included. -/
theorem perm (owned : Owned pages s l) :
    (l ++ s.live.flatMap HeapBlock.chunks ++ s.heap.pages.flatMap pageChunks).Perm
      (pages.flatMap pageChunks) := by
  obtain ⟨got, split, perm⟩ := owned.split
  rw [split, List.flatMap_append]
  exact perm.append_right _

theorem nodup (owned : Owned pages s l) :
    (l ++ s.live.flatMap HeapBlock.chunks ++ s.heap.pages.flatMap pageChunks).Nodup :=
  owned.perm.nodup_iff.mpr owned.supply.nodup

theorem isChunk (owned : Owned pages s l) {a : Nat}
    (mem : a ∈ l ++ s.live.flatMap HeapBlock.chunks ++ s.heap.pages.flatMap pageChunks) :
    IsChunk a :=
  owned.supply.isChunk (owned.perm.mem_iff.mp mem)

theorem room (owned : Owned pages s l) : Room s.heap l := by
  refine ⟨owned.list, ?_, fun a mem => owned.isChunk ?_⟩
  · refine owned.nodup.sublist ?_
    exact (List.sublist_append_left ..).append_right _
  · simp only [List.mem_append] at mem ⊢
    exact mem.imp_left .inl

/-- A block in use is one that `heap_free` may be called with. -/
theorem block (owned : Owned pages s l) {b : HeapBlock} (mem : b ∈ s.live) :
    Block s.heap l b.start b.more := by
  have inside : ∀ a ∈ b.chunks, a ∈ s.live.flatMap HeapBlock.chunks :=
    fun a here => List.mem_flatMap.mpr ⟨b, mem, here⟩
  obtain ⟨nodup, -, -⟩ := List.nodup_append.mp owned.nodup
  obtain ⟨-, -, apart⟩ := List.nodup_append.mp nodup
  have self : b.start ∈ b.chunks := mem_heapChunks.mpr ⟨0, by omega, by omega⟩
  have first : IsChunk b.start := owned.isChunk (by simp [inside _ self])
  refine ⟨first.pos, fun a here other => apart a other a (inside a here) rfl, fun a here => ?_,
    owned.magic b mem, owned.size b mem⟩
  have chunk : IsChunk a := owned.isChunk (by simp [here])
  have off : a ∉ b.chunks := fun both => apart a here a (inside a both) rfl
  have away (j : Nat) (le : j ≤ b.more) : a ≠ b.start + 32 * j :=
    fun same => off (mem_heapChunks.mpr ⟨j, by omega, same⟩)
  obtain ⟨i, rfl⟩ := chunk.aligned
  obtain ⟨k, eq⟩ := first.aligned
  have := away (i - k)
  omega

theorem apart_live (owned : Owned pages s l) {b : HeapBlock} (mem : b ∈ s.live) {a : Nat}
    (inside : a ∈ b.chunks) : a ∉ l ++ s.heap.pages.flatMap pageChunks := by
  have here : a ∈ s.live.flatMap HeapBlock.chunks := List.mem_flatMap.mpr ⟨b, mem, inside⟩
  obtain ⟨nodup, -, ahead⟩ := List.nodup_append.mp owned.nodup
  obtain ⟨-, -, apart⟩ := List.nodup_append.mp nodup
  intro other
  obtain other | other := List.mem_append.mp other
  · exact apart a other a here rfl
  · exact ahead a (List.mem_append_right _ here) a other rfl

theorem start_mem (b : HeapBlock) : b.start ∈ b.chunks :=
  mem_heapChunks.mpr ⟨0, by omega, by omega⟩

/-- The same chunk is not in two blocks. -/
theorem apart_blocks (owned : Owned pages s l) {b c : HeapBlock} (hb : b ∈ s.live)
    (hc : c ∈ s.live.erase b) {a : Nat} (inside : a ∈ c.chunks) : a ∉ b.chunks := by
  obtain ⟨nodup, -, -⟩ := List.nodup_append.mp owned.nodup
  obtain ⟨-, nodup, -⟩ := List.nodup_append.mp nodup
  have split := (List.perm_cons_erase hb).flatMap_right HeapBlock.chunks
  rw [split.nodup_iff, List.flatMap_cons] at nodup
  intro other
  exact (List.nodup_append.mp nodup).2.2 a other a (List.mem_flatMap.mpr ⟨c, hc, inside⟩) rfl

/-- A block whose first chunk is not written stays what it is. -/
theorem kept (owned : Owned pages s l) {h : Heap} {b : HeapBlock} (live : b ∈ s.live)
    (same : h.mem b.start = s.heap.mem b.start) :
    h.isMagical b.start ∧ h.metaSize b.start = b.size := by
  have magic := owned.magic b live
  have size := owned.size b live
  rw [Heap.isMagical] at magic ⊢
  rw [Heap.metaSize] at size ⊢
  rw [same]
  exact ⟨magic, size⟩

/-- Every call of `heap_alloc` returns. -/
theorem heapAlloc_returns (owned : Owned pages s l) {size : Nat} (some : 0 < size) :
    ∃ fuel mem h, heapAlloc fuel s.heap size = .some (mem, h) := by
  obtain ⟨h, l', result, -⟩ | ⟨start, h, l', n, result, -⟩ :=
    heapAlloc_result owned.room some (Nat.lt_succ_self _)
  · exact ⟨_, _, _, result⟩
  · exact ⟨_, _, _, result⟩

/-- `heap_alloc` takes chunks from the list, and from the pages that it appends to it. -/
theorem alloc (owned : Owned pages s l) {size fuel mem : Nat} {h : Heap} (some : 0 < size)
    (result : heapAlloc fuel s.heap size = .some (mem, h)) :
    ∃ l' new, Owned pages (s.allocated size mem h) l' ∧ s.heap.pages = new ++ h.pages ∧
      l'.Sublist (l ++ new.flatMap pageChunks) := by
  obtain ⟨got, split, perm⟩ := owned.split
  have enough := Nat.lt_succ_self (l.length + 128 * s.heap.pages.length + fuel)
  have more := heapAlloc_mono (l.length + 128 * s.heap.pages.length + 1) result
  obtain ⟨h₁, l', same, grown⟩ | ⟨start, h₁, l', n, same, taken⟩ :=
    @heapAlloc_result _ _ size (fuel + (l.length + 128 * s.heap.pages.length + 1)) owned.room some
      (by omega)
  · obtain ⟨rfl, rfl⟩ : 0 = mem ∧ h₁ = h := by simpa [same] using more
    obtain ⟨new, pages_eq, rfl⟩ := grown.pages
    have frame : ∀ b ∈ s.live, h₁.mem b.start = s.heap.mem b.start := by
      intro b live
      refine grown.other _ (fun inside => owned.apart_live live (start_mem b) ?_)
      rw [← grown.chunks]
      exact List.mem_append_left _ inside
    refine ⟨_, new, ⟨owned.supply, grown.list, ⟨got ++ new, ?_, ?_⟩, fun b live => ?_,
      fun b live => ?_, owned.enough⟩, pages_eq, .refl _⟩
    · simp [HeapLedger.allocated, split, pages_eq]
    · refine List.perm_iff_count.mpr fun a => ?_
      have := perm.count_eq a
      simp only [HeapLedger.allocated, if_true, List.count_append, List.flatMap_append] at this ⊢
      omega
    · exact (owned.kept live (frame b live)).1
    · exact (owned.kept live (frame b live)).2
  · obtain ⟨rfl, rfl⟩ : start + 16 = mem ∧ h₁ = h := by simpa [same] using more
    obtain ⟨list, ⟨new, front, rest, pages_eq, chunks, rfl⟩, large, magic, size_eq, other⟩ := taken
    have frame : ∀ b ∈ s.live, h₁.mem b.start = s.heap.mem b.start :=
      fun b live => other _ (owned.apart_live live (start_mem b))
    have live_eq := s.allocated_live size size_eq
    refine ⟨_, new, ⟨owned.supply, list, ⟨got ++ new, ?_, ?_⟩, fun b live => ?_, fun b live => ?_,
      fun b live => ?_⟩, pages_eq, ?_⟩
    · rw [split, pages_eq, List.append_assoc]
      rfl
    · refine List.perm_iff_count.mpr fun a => ?_
      have before := perm.count_eq a
      have moved := congrArg (List.count a) chunks
      simp only [live_eq, HeapBlock.chunks, List.flatMap_cons, List.count_append,
        List.flatMap_append] at before moved ⊢
      omega
    · rw [live_eq, List.mem_cons] at live
      obtain rfl | live := live
      · exact magic
      · exact (owned.kept live (frame b live)).1
    · rw [live_eq, List.mem_cons] at live
      obtain rfl | live := live
      · exact size_eq
      · exact (owned.kept live (frame b live)).2
    · rw [live_eq, List.mem_cons] at live
      obtain rfl | live := live
      · exact large
      · exact owned.enough b live
    · rw [chunks, List.append_assoc]
      exact (List.sublist_append_right ..).append_left _

/-- Every call of `heap_free` for a block in use returns. -/
theorem heapFree_returns (owned : Owned pages s l) {b : HeapBlock} (live : b ∈ s.live) :
    ∃ fuel h, heapFree fuel s.heap b.ptr = .some h := by
  have block := owned.block live
  obtain ⟨h, result, -⟩ := heapFree_gives owned.list block.pos block.apart block.magic block.size
    (Nat.lt_succ_self _)
  exact ⟨_, h, result⟩

/-- `heap_free` puts the block into the list, if the list ends above it. -/
theorem free (owned : Owned pages s l) {b : HeapBlock} {fuel : Nat} {h : Heap} (live : b ∈ s.live)
    (result : heapFree fuel s.heap b.ptr = .some h) (ends : EndsAbove l b.start) :
    ∃ front rest, Owned pages ⟨h, s.live.erase b⟩ (front ++ b.chunks ++ rest) ∧
      Freed s.heap l b.start b.more h front rest := by
  obtain ⟨got, split, perm⟩ := owned.split
  have more := heapFree_mono (l.length + 1) result
  obtain ⟨h₁, front, rest, same, freed⟩ :=
    @heapFree_freed _ _ _ _ (fuel + (l.length + 1)) owned.list (owned.block live) (by omega) ends
  obtain rfl : h₁ = h := Option.some_inj.mp (same.symm.trans more)
  have frame : ∀ c ∈ s.live.erase b, h₁.mem c.start = s.heap.mem c.start := by
    intro c other
    refine freed.other _ (fun inside => ?_) (owned.apart_blocks live other (start_mem c))
    exact owned.apart_live (List.mem_of_mem_erase other) (start_mem c)
      (List.mem_append_left _ inside)
  refine ⟨front, rest, ⟨owned.supply, freed.list, ⟨got, ?_, ?_⟩, fun c other => ?_,
    fun c other => ?_, fun c other => owned.enough c (List.mem_of_mem_erase other)⟩, freed⟩
  · rw [split, freed.pages]
  · refine List.perm_iff_count.mpr fun a => ?_
    have before := perm.count_eq a
    have moved := ((List.perm_cons_erase live).flatMap_right HeapBlock.chunks).count_eq a
    simp only [freed.split, List.flatMap_cons, List.count_append] at before moved ⊢
    omega
  · exact (owned.kept (List.mem_of_mem_erase other) (frame c other)).1
  · exact (owned.kept (List.mem_of_mem_erase other) (frame c other)).2

/-- What the caller writes to a block in use stays there. -/
theorem write (owned : Owned pages s l) {b : HeapBlock} {mem : Nat → HeapChunk} (live : b ∈ s.live)
    (outside : ∀ a, a ∉ b.chunks → mem a = s.heap.mem a)
    (meta0 : (mem b.start).meta0 = (s.heap.mem b.start).meta0)
    (meta1 : (mem b.start).meta1 = (s.heap.mem b.start).meta1) :
    Owned pages ⟨{ s.heap with mem := mem }, s.live⟩ l := by
  have first : ∀ c ∈ s.live, (mem c.start).meta0 = (s.heap.mem c.start).meta0 ∧
      (mem c.start).meta1 = (s.heap.mem c.start).meta1 := by
    intro c other
    by_cases same : c = b
    · exact same ▸ ⟨meta0, meta1⟩
    · have away := owned.apart_blocks live ((List.mem_erase_of_ne same).mpr other) (start_mem c)
      rw [outside _ away]
      exact ⟨rfl, rfl⟩
  have links : ∀ a ∈ l, mem a = s.heap.mem a := by
    intro a inside
    exact outside a (fun other => owned.apart_live live other (List.mem_append_left _ inside))
  refine ⟨owned.supply, owned.list.congr links rfl rfl, owned.split, fun c other => ?_,
    fun c other => ?_, owned.enough⟩
  · rw [Heap.isMagical, (first c other).1]
    exact owned.magic c other
  · rw [Heap.metaSize, (first c other).2]
    exact owned.size c other

end Owned

theorem HeapLedger.Start.owned (start : s.Start pages) : Owned pages s [] := by
  refine ⟨start.supply, ⟨trivial, ?_, ?_⟩, ⟨[], start.pages.symm, ?_⟩, ?_, ?_, ?_⟩
  · simp [start.first]
  · simp [start.last]
  · simp [start.live]
  · simp [start.live]
  · simp [start.live]
  · simp [start.live]

/-! ## Pages in ascending order -/

theorem PageSupply.ascending (supply : PageSupply pages) (order : pages.Pairwise (· < ·)) :
    (pages.flatMap pageChunks).Pairwise (· < ·) := by
  refine List.pairwise_flatMap.mpr ⟨fun page _ => sorted_heapChunks, ?_⟩
  refine order.imp_of_mem fun {p q} hp hq less => ?_
  intro a in_p c in_q
  obtain ⟨j, hj, rfl⟩ := mem_pageChunks.mp in_p
  obtain ⟨k, hk, rfl⟩ := mem_pageChunks.mp in_q
  have aligned_p := supply.aligned p hp
  have aligned_q := supply.aligned q hq
  rw [pageSize] at aligned_p aligned_q
  omega

/-- The last chunk of an ascending list is the highest. -/
theorem le_getLast? {b : Nat} (order : l.Pairwise (· < ·)) (last : l.getLast? = some b) :
    ∀ a ∈ l, a ≤ b := by
  obtain ⟨front, rfl⟩ := List.getLast?_eq_some_iff.mp last
  intro a mem
  obtain mem | mem := List.mem_append.mp mem
  · exact Nat.le_of_lt ((List.pairwise_append.mp order).2.2 a mem b (List.mem_singleton.mpr rfl))
  · exact Nat.le_of_eq (List.mem_singleton.mp mem)

theorem endsAbove_of_ascending (order : l.Pairwise (· < ·)) (start : Nat) : EndsAbove l start :=
  fun _ last below a mem => Nat.lt_of_le_of_lt (le_getLast? order last a mem) below

/-- A block goes where the order of the list is kept. -/
theorem Freed.ascending {h h' : Heap} {start n : Nat} {front rest : List Nat}
    (freed : Freed h l start n h' front rest) (order : l.Pairwise (· < ·)) :
    (front ++ heapChunks start (n + 1) ++ rest).Pairwise (· < ·) := by
  rw [freed.split] at order
  obtain ⟨order_front, order_rest, cross⟩ := List.pairwise_append.mp order
  have below : ∀ a ∈ front, a < start := by
    intro a mem
    cases last : front.getLast? with
    | none => simp [List.getLast?_eq_none_iff.mp last] at mem
    | some c =>
        exact Nat.lt_of_le_of_lt (le_getLast? order_front last a mem) (freed.behind c last)
  have inside : ∀ a ∈ heapChunks start (n + 1), start ≤ a ∧ a ≤ start + 32 * n := by
    intro a mem
    obtain ⟨j, lt, rfl⟩ := mem_heapChunks.mp mem
    omega
  refine List.pairwise_append.mpr ⟨List.pairwise_append.mpr ⟨order_front, sorted_heapChunks,
    fun a mem c chunk => ?_⟩, order_rest, fun a mem c ahead => ?_⟩
  · exact Nat.lt_of_lt_of_le (below a mem) (inside c chunk).1
  · obtain mem | mem := List.mem_append.mp mem
    · exact cross a mem c ahead
    · exact Nat.lt_of_le_of_lt (inside a mem).2 (freed.ahead c ahead)

/-- What one step keeps while the pages come in ascending order. -/
theorem Owned.step_ascending (owned : Owned pages s l) (pages_order : pages.Pairwise (· < ·))
    (order : l.Pairwise (· < ·)) {e : HeapEvent} {s' : HeapLedger}
    (step : HeapLedger.Step s e s') : ∃ l', Owned pages s' l' ∧ l'.Pairwise (· < ·) := by
  cases step with
  | alloc some result =>
      obtain ⟨l', new, owned', pages_eq, sub⟩ := owned.alloc some result
      refine ⟨l', owned', List.Pairwise.sublist sub ?_⟩
      obtain ⟨got, split, perm⟩ := owned.split
      have all := owned.supply.ascending pages_order
      rw [split, pages_eq, List.flatMap_append, List.flatMap_append] at all
      obtain ⟨-, tail, cross⟩ := List.pairwise_append.mp all
      refine List.pairwise_append.mpr ⟨order, (List.pairwise_append.mp tail).1, ?_⟩
      intro a old c new
      exact cross a (perm.mem_iff.mp (List.mem_append_left _ old)) c (List.mem_append_left _ new)
  | @free b fuel h live result =>
      obtain ⟨front, rest, owned', freed⟩ :=
        owned.free live result (endsAbove_of_ascending order b.start)
      exact ⟨_, owned', freed.ascending order⟩
  | write live outside meta0 meta1 => exact ⟨l, owned.write live outside meta0 meta1, order⟩

/-- What holds of the heap while the pages come in ascending order. `got` are the pages that
    came so far and `l` is the free list. -/
structure Conserved (pages : List Nat) (s : HeapLedger) (got l : List Nat) : Prop where
  obtained : pages = got ++ s.heap.pages
  list : FreeList s.heap l
  ascending : l.Pairwise (· < ·)
  once : (l ++ s.live.flatMap HeapBlock.chunks).Nodup
  chunks : ∀ a, a ∈ l ++ s.live.flatMap HeapBlock.chunks ↔ a ∈ got.flatMap pageChunks
  magic : ∀ b ∈ s.live, s.heap.isMagical b.start
  size : ∀ b ∈ s.live, s.heap.metaSize b.start = b.size
  enough : ∀ b ∈ s.live, b.request ≤ b.size
  alloc : ∀ size, 0 < size → ∃ fuel mem h, heapAlloc fuel s.heap size = some (mem, h)
  free : ∀ b ∈ s.live, ∃ fuel h, heapFree fuel s.heap b.ptr = some h

theorem Owned.conserved (owned : Owned pages s l) (order : l.Pairwise (· < ·)) :
    ∃ got l, Conserved pages s got l := by
  obtain ⟨got, split, perm⟩ := owned.split
  exact ⟨got, l, split, owned.list, order, (List.nodup_append.mp owned.nodup).1,
    fun a => perm.mem_iff, owned.magic, owned.size, owned.enough,
    fun _ some => owned.heapAlloc_returns some, fun _ live => owned.heapFree_returns live⟩

/-- Along every run the free list is in ascending order and no chunk is lost or in two places,
    when the pages come in ascending order. -/
theorem heap_conserved {past : List (HeapLedger × HeapEvent)} (order : pages.Pairwise (· < ·))
    (run : Run (HeapLedger.Start pages) HeapLedger.Step past s) :
    Run.Always (fun s => ∃ got l, Conserved pages s got l) past s := by
  have every : Run.Guarded (fun _ _ => True) past := fun _ _ => trivial
  obtain ⟨now, before⟩ := run.invariant (fun s => ∃ l, Owned pages s l ∧ l.Pairwise (· < ·))
    (fun _ start => ⟨[], start.owned, .nil⟩)
    (fun _ _ _ inv _ step => inv.elim fun _ here => here.1.step_ascending order here.2 step) every
  obtain ⟨l, owned, ascending⟩ := now
  refine ⟨owned.conserved ascending, fun earlier mem => ?_⟩
  obtain ⟨l, owned, ascending⟩ := before earlier mem
  exact owned.conserved ascending

/-- A heap before the first call. -/
def emptyHeap (pages : List Nat) : Heap := ⟨fun _ => ⟨0, 0, 0, 0⟩, 0, 0, pages⟩

theorem emptyHeap_start (supply : PageSupply pages) :
    HeapLedger.Start pages ⟨emptyHeap pages, []⟩ := ⟨supply, rfl, rfl, rfl, rfl⟩

/-- The first block of a heap of one page is at the start of the page, and takes four chunks. -/
theorem emptyHeap_alloc : ∃ h, heapAlloc 10 (emptyHeap [0x1000]) 100 = some (0x1010, h) ∧
    h.metaSize 0x1000 = 112 := by
  have computed : ((heapAlloc 10 (emptyHeap [0x1000]) 100).map
      fun r => (r.1, r.2.metaSize 0x1000)) = some (0x1010, 112) := by
    decide +kernel
  obtain ⟨⟨mem, h⟩, result, eq⟩ := Option.map_eq_some_iff.mp computed
  obtain ⟨rfl, size⟩ : mem = 0x1010 ∧ h.metaSize 0x1000 = 112 := by simpa using eq
  exact ⟨h, result, size⟩

/-- A block of four chunks is allocated and freed. -/
theorem smallHeapRun : ∃ past s, Run (HeapLedger.Start [0x1000]) HeapLedger.Step past s ∧
    past.map Prod.snd = [.free ⟨0x1000, 3, 100⟩, .alloc 100] := by
  obtain ⟨h, result, size⟩ := emptyHeap_alloc
  have supply : PageSupply [0x1000] := ⟨by decide, by decide, by decide, by decide⟩
  have first := emptyHeap_start supply
  have some : 0 < 100 := by decide
  obtain ⟨l, -, owned, -⟩ := first.owned.alloc some result
  have live : ⟨0x1000, 3, 100⟩ ∈
      (HeapLedger.allocated ⟨emptyHeap [0x1000], []⟩ 100 0x1010 h).live := by
    simp [HeapLedger.allocated, heapChunkMetaSize, heapChunkDataSize, heapChunkSize, size]
  obtain ⟨fuel, h', freed⟩ := owned.heapFree_returns live
  exact ⟨_, _, .next (.next (.init first) (.alloc some result)) (.free live freed), rfl⟩

theorem heap_conserved_smallRun : ∃ (past : List (HeapLedger × HeapEvent)) (s : HeapLedger),
    past.map Prod.snd = [.free ⟨0x1000, 3, 100⟩, .alloc 100] ∧
      Run.Always (fun s => ∃ got l, Conserved [0x1000] s got l) past s := by
  obtain ⟨past, s, run, events⟩ := smallHeapRun
  exact ⟨past, s, events, heap_conserved (by decide) run⟩

/-! ## Pages anywhere -/

/-- The free list is a list that ends at `heap_chunk_last`, and the loops of `heap_alloc`,
    `heap_realloc` and `heap_free` over it end. -/
structure HeapLedger.Listed (s : HeapLedger) : Prop where
  list : ∃ l, Walk s.heap.next (toPtr s.heap.first) l ∧ l.Nodup ∧ l.getLast? = toPtr s.heap.last
  alloc : ∀ size, 0 < size → ∃ fuel mem h, heapAlloc fuel s.heap size = some (mem, h)
  realloc : ∀ size grow, grow.cur = s.heap.first →
    ∃ fuel grow', heapReallocLoop size s.heap fuel grow = some grow'
  free : ∀ b ∈ s.live, ∃ fuel h, heapFree fuel s.heap b.ptr = some h

/-- A block is freed while the free list ends above it. -/
def HeapLedger.FreesAbove (s : HeapLedger) : HeapEvent → Prop
  | .free b => ∀ l, Walk s.heap.next (toPtr s.heap.first) l → EndsAbove l b.start
  | _ => True

theorem heapReallocLoop_returns {h : Heap} {start size : Nat} {grow : HeapGrow}
    (walk : Walk h.next (toPtr start) l) (here : grow.cur = start) :
    ∃ fuel grow', heapReallocLoop size h fuel grow = some grow' := by
  induction l generalizing start grow with
  | nil =>
      have ends : grow.cur = 0 := here.trans (toPtr_eq_none.mp walk.head_eq)
      exact ⟨1, grow, if_neg (fun go => go.2 ends)⟩
  | cons x l ih =>
      obtain ⟨rfl, -⟩ := toPtr_eq_some.mp walk.head_eq
      rw [toPtr_eq_some.mpr ⟨rfl, (toPtr_eq_some.mp walk.head_eq).2⟩] at walk
      by_cases go : size > grow.totalSize ∧ grow.cur ≠ 0
      · by_cases apart : grow.reallocEnd + heapChunkSize ≠ grow.cur
        · obtain ⟨fuel, grow', result⟩ := @ih (h.metaNext start)
            { grow with cur := h.metaNext grow.cur } walk.tail (by rw [here])
          refine ⟨fuel + 1, grow', ?_⟩
          rw [heapReallocLoop, if_pos go]
          exact (if_pos apart).trans result
        · obtain ⟨fuel, grow', result⟩ := @ih (h.metaNext start)
            { cur := h.metaNext grow.cur
              reallocStart := if grow.reallocStart = 0 then grow.cur else grow.reallocStart
              reallocEnd := grow.cur
              totalSize := wrap64 (grow.totalSize + heapChunkSize) } walk.tail (by rw [here])
          refine ⟨fuel + 1, grow', ?_⟩
          rw [heapReallocLoop, if_pos go]
          exact (if_neg apart).trans result
      · exact ⟨1, grow, if_neg go⟩

theorem FreeList.walk {h : Heap} (list : FreeList h l) : Walk h.next (toPtr h.first) l := by
  rw [list.first]
  exact list.seg.walk_next

theorem Owned.listed (owned : Owned pages s l) : s.Listed := by
  have walk := owned.list.walk
  exact ⟨⟨l, walk, owned.list.nodup, owned.list.last.symm⟩,
    fun _ some => owned.heapAlloc_returns some, fun _ _ here => heapReallocLoop_returns walk here,
    fun _ live => owned.heapFree_returns live⟩

theorem Owned.step (owned : Owned pages s l) {e : HeapEvent} {s' : HeapLedger}
    (above : s.FreesAbove e) (step : HeapLedger.Step s e s') : ∃ l', Owned pages s' l' := by
  cases step with
  | alloc some result =>
      obtain ⟨l', -, owned', -⟩ := owned.alloc some result
      exact ⟨l', owned'⟩
  | free live result =>
      obtain ⟨front, rest, owned', -⟩ := owned.free live result (above l owned.list.walk)
      exact ⟨_, owned'⟩
  | write live outside meta0 meta1 => exact ⟨l, owned.write live outside meta0 meta1⟩

/-- A free that is not above makes the list a cycle. -/
theorem Owned.step_cycle (owned : Owned pages s l) {e : HeapEvent} {s' : HeapLedger}
    (above : ¬ s.FreesAbove e) (step : HeapLedger.Step s e s') : ¬ s'.Listed := by
  cases step with
  | alloc => exact absurd trivial above
  | write => exact absurd trivial above
  | @free b fuel h live result =>
      simp only [HeapLedger.FreesAbove, Classical.not_forall] at above
      obtain ⟨l', walk, ends⟩ := above
      obtain rfl := walk.unique owned.list.walk
      obtain ⟨h₁, same, cycle⟩ := @heapFree_cycle _ _ _ _ (fuel + (l'.length + 1)) owned.list
        (owned.block live) (by omega) ends
      have more := heapFree_mono (l'.length + 1) result
      obtain rfl : h₁ = h := Option.some_inj.mp (same.symm.trans more)
      intro listed
      obtain ⟨l, walk, -⟩ := listed.list
      exact cycle l walk

/-- Wherever the pages lie, the free list stays a list along a run exactly when it ends above
    each block that is freed. -/
theorem heap_listed_iff {past : List (HeapLedger × HeapEvent)}
    (run : Run (HeapLedger.Start pages) HeapLedger.Step past s) :
    Run.Always HeapLedger.Listed past s ↔ Run.Guarded HeapLedger.FreesAbove past :=
  run.always_iff (fun s => ∃ l, Owned pages s l) (fun _ start => ⟨[], start.owned⟩)
    (fun _ _ _ inv above step => inv.elim fun _ owned => owned.step above step)
    (fun _ inv => inv.elim fun _ owned => owned.listed)
    (fun _ _ _ inv above step => inv.elim fun _ owned => owned.step_cycle above step)

theorem heap_listed_smallRun : ∃ (past : List (HeapLedger × HeapEvent)) (s : HeapLedger),
    past.map Prod.snd = [.free ⟨0x1000, 3, 100⟩, .alloc 100] ∧
      (Run.Always HeapLedger.Listed past s ↔ Run.Guarded HeapLedger.FreesAbove past) := by
  obtain ⟨past, s, run, events⟩ := smallHeapRun
  exact ⟨past, s, events, heap_listed_iff run⟩

/-- The second page lies below the first one. A block of the first page is freed while the list
    goes on there and ends in the second page. -/
theorem not_heap_listed : ∃ past s,
    Run (HeapLedger.Start [0x2000, 0x1000]) HeapLedger.Step past s ∧
      past.map Prod.snd = [.free ⟨0x2000, 3, 100⟩, .alloc 4000, .alloc 100] ∧
      ¬ Run.Always HeapLedger.Listed past s := by
  have computed : ((heapAlloc 10 (emptyHeap [0x2000, 0x1000]) 100).bind fun r =>
      (heapAlloc 300 r.2 4000).map fun r' =>
        (r.1, r.2.metaSize 0x2000, r'.1, r'.2.first, r'.2.last)) =
      some (0x2010, 112, 0x1030, 0x2080, 0x1fe0) := by
    decide +kernel
  obtain ⟨⟨mem, h⟩, result, later⟩ := Option.bind_eq_some_iff.mp computed
  obtain ⟨⟨mem', h'⟩, result', eq⟩ := Option.map_eq_some_iff.mp later
  obtain ⟨rfl, size, rfl, front, back⟩ : mem = 0x2010 ∧ h.metaSize 0x2000 = 112 ∧
      mem' = 0x1030 ∧ h'.first = 0x2080 ∧ h'.last = 0x1fe0 := by
    simpa using eq
  have supply : PageSupply [0x2000, 0x1000] := ⟨by decide, by decide, by decide, by decide⟩
  have first := emptyHeap_start supply
  have some : 0 < 100 := by decide
  have some' : 0 < 4000 := by decide
  obtain ⟨l, -, owned, -⟩ := first.owned.alloc some result
  obtain ⟨l', -, owned', -⟩ := owned.alloc some' result'
  have live : ⟨0x2000, 3, 100⟩ ∈ (HeapLedger.allocated
      (HeapLedger.allocated ⟨emptyHeap [0x2000, 0x1000], []⟩ 100 0x2010 h) 4000 0x1030 h').live := by
    simp [HeapLedger.allocated, heapChunkMetaSize, heapChunkDataSize, heapChunkSize, size]
  obtain ⟨fuel, h'', freed⟩ := owned'.heapFree_returns live
  have step := HeapLedger.Step.free live freed
  refine ⟨_, _, .next (.next (.next (.init first) (.alloc some result)) (.alloc some' result')) step,
    rfl, fun always => ?_⟩
  refine owned'.step_cycle (fun above => ?_) step always.1
  have list : FreeList h' l' := owned'.list
  have last : l'.getLast? = Option.some 0x1fe0 := by
    rw [← list.last, back]
    rfl
  have head : l'.head? = Option.some 0x2080 := by
    rw [← list.first, front]
    rfl
  exact absurd (above l' list.walk _ last (by decide) _ (List.mem_of_head? head)) (by decide)

end

end Sdx.Mm
