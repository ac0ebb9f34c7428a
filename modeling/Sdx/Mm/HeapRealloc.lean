import Sdx.Mm.HeapGrow

/-! # `heap_realloc`

A block grows in place when the chunks that it lacks come behind it in the free list. Otherwise it
moves: what `heap_alloc` found gets the contents, and the old block is freed. The old block is
freed too when there is no new one.
-/

namespace Sdx.Mm

open Sdx.Lib Sdx.Lib.LinkedList

/-! ## What the caller has -/

/-- The words of a chunk. -/
def Heap.words (h : Heap) (chunk : Nat) : List Nat :=
  [(h.mem chunk).meta0, (h.mem chunk).meta1, (h.mem chunk).data0, (h.mem chunk).data1]

/-- What is in the block, in words: all but the `meta` of its first chunk. -/
def HeapBlock.contents (b : HeapBlock) (h : Heap) : List Nat := (b.chunks.flatMap h.words).drop 2

/-- The blocks in use after `heap_realloc(b, size)` returned `r`: the block grown or moved, with as
    much of the contents as fits into both, or those before when it returned `NULL`. -/
def ReallocLive (s : HeapLedger) (b : HeapBlock) (size : Nat) (r : Nat × Heap)
    (live : List HeapBlock) : Prop :=
  (r.1 = 0 ∧ live = s.live) ∨
    ∃ b' : HeapBlock, r.1 = b'.ptr ∧ b'.request = size ∧ live = b' :: s.live.erase b ∧
      (b'.contents r.2).take (min b.size b'.size / 8) =
        (b.contents s.heap).take (min b.size b'.size / 8)

/-- The heap is as it should be after `heap_realloc(b, size)` returned `r`. -/
structure ReallocKeeps (pages : List Nat) (s : HeapLedger) (b : HeapBlock) (size : Nat)
    (r : Nat × Heap) (live : List HeapBlock) (l : List Nat) : Prop where
  blocks : ReallocLive s b size r live
  owned : Owned pages ⟨r.2, live⟩ l
  order : l.Pairwise (· < ·)
  globals : ∀ c ∈ live, r.2.first ∉ c.chunks ∧ r.2.last ∉ c.chunks

/-- Where `heap_realloc` does that, by the free list and the pages to come: nothing is lacking; or
    what is lacking is free behind the block, and is one chunk or at neither end of the list; or
    the block moves to a run such that the chunks that are in front of the run are in order with
    those behind it. -/
inductive ReallocFits (l pages : List Nat) (b : HeapBlock) (size : Nat) : Prop where
  | enough : size ≤ b.size → ReallocFits l pages b size
  | grows : (b.growth size).Sublist l → b.lacks size = 1 ∨
      (∀ a ∈ b.growth size, l.head? ≠ some a ∧ l.getLast? ≠ some a) → ReallocFits l pages b size
  | moves {front start n x more} : ¬ (b.growth size).Sublist l →
      SearchFinds size (l ++ pages.flatMap pageChunks) front start n x more →
      (front ++ [x]).Pairwise (· < ·) → ReallocFits l pages b size

/-! ## Contents -/

section

variable {h h' : Heap} {b b' : HeapBlock}

theorem length_words (l : List Nat) : (l.flatMap h.words).length = 4 * l.length := by
  induction l with
  | nil => rfl
  | cons a l ih =>
      rw [List.flatMap_cons, List.length_append, ih, List.length_cons]
      simp only [Heap.words, List.length_cons, List.length_nil]
      omega

theorem words_congr {s s' n : Nat}
    (same : ∀ j, j < n → h'.mem (s' + 32 * j) = h.mem (s + 32 * j)) :
    (heapChunks s' n).flatMap h'.words = (heapChunks s n).flatMap h.words := by
  induction n generalizing s s' with
  | zero => rfl
  | succ n ih =>
      have first := same 0 (Nat.succ_pos n)
      have later : ∀ j, j < n → h'.mem (s' + 32 + 32 * j) = h.mem (s + 32 + 32 * j) := by
        intro j lt
        have here := same (j + 1) (by omega)
        rwa [Nat.mul_succ, Nat.add_comm (32 * j), ← Nat.add_assoc, ← Nat.add_assoc] at here
      rw [heapChunks_succ, heapChunks_succ, List.flatMap_cons, List.flatMap_cons, ih later]
      simp only [Heap.words, Nat.mul_zero, Nat.add_zero] at first ⊢
      rw [first]

theorem HeapBlock.contents_eq (b : HeapBlock) (h : Heap) : b.contents h =
    [(h.mem b.start).data0, (h.mem b.start).data1] ++
      (heapChunks (b.start + 32) b.more).flatMap h.words := by
  rw [contents, chunks, heapChunks_succ, List.flatMap_cons]
  rfl

theorem HeapBlock.length_contents (b : HeapBlock) (h : Heap) :
    (b.contents h).length = b.size / 8 := by
  rw [b.contents_eq h, List.length_append, length_words, heapChunks, List.length_range', size,
    heapChunkDataSize, heapChunkSize]
  simp only [List.length_cons, List.length_nil]
  omega

/-- A block at least as large, with the data of the other one where that had it. -/
theorem HeapBlock.contents_take (larger : b.more ≤ b'.more)
    (data0 : (h'.mem b'.start).data0 = (h.mem b.start).data0)
    (data1 : (h'.mem b'.start).data1 = (h.mem b.start).data1)
    (same : ∀ j, j < b.more → h'.mem (b'.start + 32 + 32 * j) = h.mem (b.start + 32 + 32 * j)) :
    (b'.contents h').take (min b.size b'.size / 8) =
      (b.contents h).take (min b.size b'.size / 8) := by
  obtain ⟨k, more⟩ := Nat.exists_eq_add_of_le larger
  have least : min b.size b'.size = b.size := by
    refine Nat.min_eq_left ?_
    simp only [size, heapChunkSize]
    omega
  have all : b'.contents h' = b.contents h ++
      (heapChunks (b'.start + 32 + 32 * b.more) k).flatMap h'.words := by
    rw [b'.contents_eq, b.contents_eq, more, heapChunks_add, List.flatMap_append, data0, data1,
      words_congr same, List.append_assoc]
  rw [least, ← b.length_contents h, all, List.take_left, List.take_length]

end

/-! ## A block that grew -/

section

variable {pages : List Nat} {s : HeapLedger} {l : List Nat} {b : HeapBlock} {size : Nat}

theorem HeapBlock.chunks_add (b : HeapBlock) (m request : Nat) :
    HeapBlock.chunks ⟨b.start, b.more + m, request⟩ = b.chunks ++ heapChunks b.behind m := by
  rw [chunks, Nat.add_right_comm, heapChunks_add]
  rfl

/-- The block with the chunks behind it that were in the list. -/
theorem Owned.regrow (owned : Owned pages s l) (live : b ∈ s.live) {front rest : List Nat} {m : Nat}
    (split : l = front ++ heapChunks b.behind m ++ rest) {h : Heap}
    (list : FreeList h (front ++ rest)) (same : h.pages = s.heap.pages)
    (other : ∀ c ∈ s.live.erase b, h.mem c.start = s.heap.mem c.start)
    (magic : h.isMagical b.start) (size_eq : h.metaSize b.start = b.size + 32 * m) {size : Nat}
    (enough : size ≤ b.size + 32 * m) :
    Owned pages ⟨h, ⟨b.start, b.more + m, size⟩ :: s.live.erase b⟩ (front ++ rest) := by
  obtain ⟨got, pages_eq, perm⟩ := owned.split
  have grown : HeapBlock.size ⟨b.start, b.more + m, size⟩ = b.size + 32 * m := by
    simp only [HeapBlock.size, heapChunkSize]
    omega
  refine ⟨owned.supply, list, ⟨got, by rw [pages_eq, same], ?_⟩, fun c mem => ?_, fun c mem => ?_,
    fun c mem => ?_⟩
  · refine List.perm_iff_count.mpr fun a => ?_
    have before := perm.count_eq a
    have moved := ((List.perm_cons_erase live).flatMap_right HeapBlock.chunks).count_eq a
    rw [List.flatMap_cons, b.chunks_add]
    simp only [split, List.flatMap_cons, List.count_append] at before moved ⊢
    omega
  all_goals obtain rfl | mem := List.mem_cons.mp mem
  · exact magic
  · exact (owned.kept (List.mem_of_mem_erase mem) (other c mem)).1
  · exact size_eq.trans grown.symm
  · exact (owned.kept (List.mem_of_mem_erase mem) (other c mem)).2
  · exact grown ▸ enough
  · exact owned.enough c (List.mem_of_mem_erase mem)

/-- The globals are the ends of the list, and so in no block. -/
theorem Owned.globals (owned : Owned pages s l) {c : HeapBlock} (live : c ∈ s.live) :
    s.heap.first ∉ c.chunks ∧ s.heap.last ∉ c.chunks := by
  have block := owned.block live
  have positive : ∀ a ∈ c.chunks, a ≠ 0 := by
    intro a mem
    have := block.pos
    obtain ⟨j, -, rfl⟩ := mem_heapChunks.mp mem
    omega
  refine ⟨fun mem => block.apart _ mem ?_, fun mem => block.apart _ mem ?_⟩
  · exact List.mem_of_head? (owned.list.first.symm.trans (if_neg (positive _ mem)))
  · exact owned.list.last_mem (positive _ mem)

/-! ## The paths of the call -/

/-- `heap_realloc` of a block in use. -/
theorem Owned.heapRealloc_eq (owned : Owned pages s l) (live : b ∈ s.live) (fuel size : Nat) :
    heapRealloc fuel s.heap b.ptr size =
      if size ≤ b.size then some (b.ptr, s.heap)
      else (heapReallocLoop size s.heap fuel
          ⟨s.heap.first, 0, b.start + 32 * b.more, b.size⟩).bind fun grow =>
        if size > grow.totalSize then
          (heapAlloc fuel s.heap size).bind fun r =>
            (heapFree fuel (r.2.memcpy r.1 b.ptr (r.2.metaSize b.start)) b.ptr).map (r.1, ·)
        else some (b.ptr, (heapAbsorb s.heap grow).metaSizeSet b.start grow.totalSize) := by
  have start : b.ptr - heapChunkMetaSize = b.start := Nat.add_sub_cancel ..
  have stop : b.ptr + b.size - heapChunkSize = b.start + 32 * b.more := by
    simp only [HeapBlock.ptr, HeapBlock.size, heapChunkMetaSize, heapChunkDataSize, heapChunkSize]
    omega
  have large : ¬ heapChunkMetaSize > b.ptr := Nat.not_lt.mpr (Nat.le_add_left ..)
  have valid : ¬ (heapChunkMetaSize > b.ptr ∨ !s.heap.isMagical b.start) := by
    simp [large, owned.magic b live]
  rw [heapRealloc]
  simp only [start, owned.size b live, stop, if_neg valid]
  split
  · rfl
  · simp only [Option.bind_eq_bind]
    congr 1
    funext grow
    split
    · congr 1
      funext r
      rw [Option.map_eq_bind]
      rfl
    · rfl

/-- The loop for a block in use: it takes all that the block lacks, or too little. -/
theorem Owned.heapReallocLoop_live (owned : Owned pages s l) (live : b ∈ s.live) {size m : Nat}
    (lacks : b.lacks size = m + 1) :
    ∃ grow, Returns (fun fuel => heapReallocLoop size s.heap fuel
        ⟨s.heap.first, 0, b.start + 32 * b.more, b.size⟩) grow ∧
      ((b.growth size).Sublist l → grow.reallocStart = b.behind ∧
        grow.reallocEnd = b.behind + 32 * m ∧ grow.totalSize = b.size + 32 * (m + 1)) ∧
      (¬ (b.growth size).Sublist l → grow.totalSize < size) := by
  have walk : Walk s.heap.next (toPtr s.heap.first) l := owned.list.walk
  have chunk : IsChunk b.start := by
    refine owned.isChunk (List.mem_append_left _ (List.mem_append_right _ ?_))
    exact List.mem_flatMap.mpr ⟨b, live, Owned.start_mem b⟩
  have behind : b.behind = b.start + 32 * b.more + 32 := by
    simp only [HeapBlock.behind, heapChunkSize]
    omega
  have below : b.size + 16 ≤ b.start + 32 * b.more := by
    have := chunk.ge
    simp only [HeapBlock.size, heapChunkDataSize, heapChunkSize]
    omega
  obtain ⟨grow, returns, grew, off⟩ := @heapReallocLoop_list s.heap l size (m + 1)
    ⟨s.heap.first, 0, b.start + 32 * b.more, b.size⟩ walk
    (fun a mem => (owned.room.isChunk mem).fits) below lacks.symm
  rw [HeapBlock.growth, lacks, behind]
  refine ⟨grow, returns, fun sub => ?_, off⟩
  obtain ⟨start, stop, total⟩ := grew sub
  simp only [Nat.succ_ne_zero, ne_eq, not_true, or_self, if_false] at start
  exact ⟨start, stop.trans (by simp only; omega), total⟩

theorem HeapBlock.lacks_enough (b : HeapBlock) (size : Nat) :
    size ≤ b.size + 32 * b.lacks size := by
  simp only [lacks, heapChunkSize]
  omega

theorem HeapBlock.lacks_succ (less : b.size < size) : ∃ m, b.lacks size = m + 1 := by
  refine Nat.exists_eq_succ_of_ne_zero ?_
  simp only [lacks, heapChunkSize]
  omega

/-- The chunks behind the block are free: it grows in place. -/
theorem Owned.heapRealloc_grows (owned : Owned pages s l) (live : b ∈ s.live) {size m : Nat}
    (less : b.size < size) (lacks : b.lacks size = m + 1) (sub : (b.growth size).Sublist l) :
    ∃ grow : HeapGrow, grow.reallocStart = b.behind ∧ grow.reallocEnd = b.behind + 32 * m ∧
      Returns (fun fuel => heapRealloc fuel s.heap b.ptr size)
        (b.ptr, (heapAbsorb s.heap grow).metaSizeSet b.start (b.size + 32 * (m + 1))) := by
  obtain ⟨grow, returns, grew, -⟩ := owned.heapReallocLoop_live live lacks
  obtain ⟨start, stop, total⟩ := grew sub
  have enough := b.lacks_enough size
  rw [lacks] at enough
  refine ⟨grow, start, stop, .congr (owned.heapRealloc_eq live · size) ?_⟩
  simp only [if_neg (Nat.not_le.mpr less)]
  refine returns.bind ?_
  simp only [total, if_neg (Nat.not_lt.mpr enough)]
  exact .const _

theorem less_of_stuck (stuck : ¬ (b.growth size).Sublist l) : b.size < size := by
  by_contra enough
  have none : b.lacks size = 0 := by
    simp only [HeapBlock.lacks, heapChunkSize]
    omega
  rw [HeapBlock.growth, none] at stuck
  exact stuck (List.nil_sublist l)

/-- They are not: `heap_alloc` is called, and then `heap_free`. -/
theorem Owned.heapRealloc_moves (owned : Owned pages s l) (live : b ∈ s.live)
    (stuck : ¬ (b.growth size).Sublist l) {mem : Nat} {h h' : Heap}
    (found : Returns (fun fuel => heapAlloc fuel s.heap size) (mem, h))
    (freed : Returns (fun fuel => heapFree fuel (h.memcpy mem b.ptr (h.metaSize b.start)) b.ptr) h') :
    Returns (fun fuel => heapRealloc fuel s.heap b.ptr size) (mem, h') := by
  obtain ⟨m, lacks⟩ := HeapBlock.lacks_succ (less_of_stuck stuck)
  obtain ⟨grow, returns, -, off⟩ := owned.heapReallocLoop_live live lacks
  refine .congr (owned.heapRealloc_eq live · size) ?_
  simp only [if_neg (Nat.not_le.mpr (less_of_stuck stuck))]
  refine returns.bind ?_
  simp only [if_pos (off stuck)]
  exact found.bind (freed.map (mem, ·))

/-! ## What holds after the call -/

/-- The block that a call returned, by its pointer and the size that is written in it. -/
theorem ReallocKeeps.block {r : Nat × Heap} {live : List HeapBlock} {l' : List Nat}
    (keeps : ReallocKeeps pages s b size r live l') (some : r.1 ≠ 0) :
    ∃ b' ∈ live, r.1 = b'.ptr ∧ r.2.metaSize b'.start = b'.size ∧
      r.2.first ∉ b'.chunks ∧ r.2.last ∉ b'.chunks := by
  obtain ⟨none, -⟩ | ⟨b', ptr, -, rfl, -⟩ := keeps.blocks
  · exact absurd none some
  · have mem : b' ∈ b' :: s.live.erase b := List.mem_cons_self
    exact ⟨b', mem, ptr, keeps.owned.size b' mem, keeps.globals b' mem⟩

/-- The chunks that a block takes are at neither end of the list. -/
theorem growth_inside {front rest : List Nat} {m : Nat} (nodup : l.Nodup)
    (lacks : b.lacks size = m + 1) (split : l = front ++ b.growth size ++ rest) :
    (∀ a ∈ b.growth size, l.head? ≠ some a ∧ l.getLast? ≠ some a) ↔ front ≠ [] ∧ rest ≠ [] := by
  rw [split] at nodup
  obtain ⟨before, -, behind⟩ := List.nodup_append.mp nodup
  obtain ⟨-, -, ahead⟩ := List.nodup_append.mp before
  have first : (b.growth size).head? = some b.behind := by
    rw [HeapBlock.growth, lacks]
    rfl
  have last : ∃ a ∈ b.growth size, (b.growth size).getLast? = some a := by
    cases eq : (b.growth size).getLast? with
    | none => simp [List.getLast?_eq_none_iff.mp eq] at first
    | some a => exact ⟨a, List.mem_of_getLast? eq, rfl⟩
  constructor
  · intro inside
    refine ⟨?_, ?_⟩
    · rintro rfl
      refine (inside _ (List.mem_of_head? first)).1 ?_
      rw [split, List.nil_append, List.head?_append, first, Option.some_or]
    · rintro rfl
      obtain ⟨a, mem, eq⟩ := last
      refine (inside a mem).2 ?_
      rw [split, List.append_nil, List.getLast?_append, eq, Option.some_or]
  · rintro ⟨some_front, some_rest⟩ a mem
    refine ⟨fun eq => ?_, fun eq => ?_⟩
    · rw [split, List.append_assoc, List.head?_append_of_ne_nil _ some_front] at eq
      exact ahead a (List.mem_of_head? eq) a mem rfl
    · rw [split, List.getLast?_append_of_ne_nil _ some_rest] at eq
      exact behind a (List.mem_append_right _ mem) a (List.mem_of_getLast? eq) rfl

/-- The heap after a block `b` took `m + 1` chunks of the free list, which are behind it. -/
structure Absorbed (h : Heap) (b : HeapBlock) (front rest : List Nat) (m : Nat) (h' : Heap) :
    Prop where
  list : m = 0 ∨ (front ≠ [] ∧ rest ≠ []) → FreeList h' (front ++ rest)
  stays : ¬ (m = 0 ∨ (front ≠ [] ∧ rest ≠ [])) →
    h'.first ∈ heapChunks b.behind (m + 1) ∨ h'.last ∈ heapChunks b.behind (m + 1)
  pages : h'.pages = h.pages
  own : h'.mem b.start = { h.mem b.start with meta1 := b.size + 32 * (m + 1) }
  other : ∀ a, a ∉ front ++ rest → a ≠ b.start → h'.mem a = h.mem a

/-- The chunks behind the block are free: it grows in place. -/
theorem Owned.heapRealloc_absorbed (owned : Owned pages s l) (live : b ∈ s.live) {m : Nat}
    (less : b.size < size) (lacks : b.lacks size = m + 1) {front rest : List Nat}
    (split : l = front ++ b.growth size ++ rest) :
    ∃ h', Returns (fun fuel => heapRealloc fuel s.heap b.ptr size) (b.ptr, h') ∧
      Absorbed s.heap b front rest m h' := by
  have sub : (b.growth size).Sublist l := by
    rw [split, List.append_assoc]
    exact (List.sublist_append_left ..).trans (List.sublist_append_right ..)
  obtain ⟨grow, start, stop, returns⟩ := owned.heapRealloc_grows live less lacks sub
  have list : FreeList s.heap (front ++ heapChunks grow.reallocStart (m + 1) ++ rest) := by
    rw [start, ← lacks]
    exact split ▸ owned.list
  rw [← start] at stop
  obtain ⟨frame, same⟩ := heapAbsorb_frame list stop
  have off : ∀ a ∈ front ++ rest, a ≠ b.start := by
    rintro a mem rfl
    refine (owned.block live).apart _ (Owned.start_mem b) ?_
    rw [split]
    simp only [List.mem_append] at mem ⊢
    exact mem.imp_left .inl
  refine ⟨_, returns, fun fits => ?_, fun ends => ?_, same, ?_, fun a outside away => ?_⟩
  · exact (heapAbsorb_list list stop fits).congr
      (fun a mem => Heap.mem_metaSizeSet _ _ (off a mem)) rfl rfl
  · rw [← start]
    exact heapAbsorb_stays list stop ends
  · have kept := frame b.start (fun mem => off _ mem rfl)
    simp [Heap.metaSizeSet, Heap.setChunk, kept]
  · rw [Heap.mem_metaSizeSet _ _ away, frame a outside]

/-- A block that grows in place. -/
theorem Owned.grows_keeps_iff (owned : Owned pages s l) (order : l.Pairwise (· < ·))
    (live : b ∈ s.live) (less : b.size < size) (sub : (b.growth size).Sublist l) :
    (∃ r live l', Returns (fun fuel => heapRealloc fuel s.heap b.ptr size) r ∧
      ReallocKeeps pages s b size r live l') ↔
      (b.lacks size = 1 ∨ ∀ a ∈ b.growth size, l.head? ≠ some a ∧ l.getLast? ≠ some a) := by
  obtain ⟨m, lacks⟩ := HeapBlock.lacks_succ less
  obtain ⟨front, rest, split⟩ := split_of_sublist order
    (fun a mem => (owned.room.isChunk mem).aligned) sub
  obtain ⟨h', returns, absorbed⟩ := owned.heapRealloc_absorbed live less lacks split
  rw [growth_inside owned.list.nodup lacks split, lacks, Nat.succ_inj]
  have block := owned.block live
  have size_eq : h'.metaSize b.start = b.size + 32 * (m + 1) := by
    rw [Heap.metaSize, absorbed.own]
  constructor
  · rintro ⟨r, live', l', returns', keeps⟩
    obtain rfl := returns.unique returns'
    by_contra ends
    obtain ⟨⟨start', more', request⟩, mem, ptr, size', first, last⟩ :=
      keeps.block (Nat.ne_of_gt (Nat.lt_of_lt_of_le block.pos (Nat.le_add_right ..)))
    obtain rfl : b.start = start' := Nat.add_right_cancel ptr
    obtain rfl : more' = b.more + (m + 1) := by
      have grown := size_eq.symm.trans size'
      simp only [HeapBlock.size, heapChunkSize] at grown
      omega
    rw [b.chunks_add] at first last
    obtain here | here := absorbed.stays ends
    · exact first (List.mem_append_right _ here)
    · exact last (List.mem_append_right _ here)
  · intro fits
    have outside : ∀ c ∈ s.live, ∀ a ∈ c.chunks, a ∉ front ++ rest := by
      intro c mem a inside here
      refine (owned.block mem).apart a inside ?_
      rw [split]
      simp only [List.mem_append] at here ⊢
      exact here.imp_left .inl
    have other : ∀ c ∈ s.live.erase b, h'.mem c.start = s.heap.mem c.start := by
      intro c mem
      refine absorbed.other _ (outside c (List.mem_of_mem_erase mem) _ (Owned.start_mem c)) ?_
      intro same
      exact owned.apart_blocks live mem (Owned.start_mem c) (same ▸ Owned.start_mem b)
    have magic : h'.isMagical b.start := by
      rw [Heap.isMagical, absorbed.own]
      exact owned.magic b live
    have grown := owned.regrow live (lacks ▸ split) (absorbed.list fits) absorbed.pages other magic
      size_eq (lacks ▸ b.lacks_enough size)
    refine ⟨_, _, front ++ rest, returns, .inr ⟨⟨b.start, b.more + (m + 1), size⟩, rfl, rfl, rfl, ?_⟩,
      grown, ?_, fun c mem => grown.globals mem⟩
    · refine HeapBlock.contents_take (Nat.le_add_right ..) (by rw [absorbed.own])
        (by rw [absorbed.own]) (fun j lt => ?_)
      have mem : b.start + 32 + 32 * j ∈ b.chunks := mem_heapChunks.mpr ⟨j + 1, by omega, by omega⟩
      exact absorbed.other (b.start + 32 + 32 * j) (outside b live _ mem) (by omega)
    · refine order.sublist ?_
      rw [split, List.append_assoc]
      exact (List.sublist_append_right ..).append_left _

end

/-! ## Copying -/

section

variable {h : Heap} {b c : HeapBlock}

theorem memcpyChunks_copies {dst src count : Nat}
    (apart : ∀ a ∈ heapChunks src count, a ∉ heapChunks dst count) :
    (∀ j, j < count →
      (h.memcpyChunks dst src count).mem (dst + 32 * j) = h.mem (src + 32 * j)) ∧
    (∀ a, a ∉ heapChunks dst count → (h.memcpyChunks dst src count).mem a = h.mem a) ∧
    h.SameGlobals (h.memcpyChunks dst src count) := by
  induction count generalizing h dst src with
  | zero => exact ⟨fun _ lt => absurd lt (Nat.not_lt_zero _), fun _ _ => rfl, rfl, rfl, rfl⟩
  | succ count ih =>
      have apart' : ∀ a ∈ heapChunks (src + 32) count, a ∉ heapChunks (dst + 32) count := by
        intro a mem mem'
        refine apart a ?_ ?_
        · exact List.mem_cons_of_mem _ mem
        · exact List.mem_cons_of_mem _ mem'
      obtain ⟨copied, other, globals⟩ := @ih (h.setChunk dst (h.mem src)) _ _ apart'
      have first : dst ∉ heapChunks (dst + 32) count := by
        rw [mem_heapChunks]
        omega
      refine ⟨fun j lt => ?_, fun a outside => ?_, globals⟩
      · cases j with
        | zero =>
            refine (other dst first).trans ?_
            simp [Heap.setChunk]
        | succ j =>
            have here := copied j (by omega)
            have off : src + 32 * (j + 1) ≠ dst := by
              intro same
              refine apart (src + 32 * (j + 1)) (mem_heapChunks.mpr ⟨j + 1, lt, rfl⟩) ?_
              rw [same]
              exact List.mem_cons_self
            rw [show src + 32 + 32 * j = src + 32 * (j + 1) by omega,
              show dst + 32 + 32 * j = dst + 32 * (j + 1) by omega, h.mem_setChunk _ off] at here
            exact here
      · obtain ⟨off, outside⟩ := not_or.mp (mt List.mem_cons.mpr outside)
        exact (other a outside).trans (h.mem_setChunk _ off)

/-- The heap `h'` has the contents of the block `b` in the block `c` too. -/
structure Copied (h : Heap) (b c : HeapBlock) (h' : Heap) : Prop where
  meta0 : (h'.mem c.start).meta0 = (h.mem c.start).meta0
  meta1 : (h'.mem c.start).meta1 = (h.mem c.start).meta1
  data0 : (h'.mem c.start).data0 = (h.mem b.start).data0
  data1 : (h'.mem c.start).data1 = (h.mem b.start).data1
  chunks : ∀ j, j < b.more → h'.mem (c.start + 32 + 32 * j) = h.mem (b.start + 32 + 32 * j)
  other : ∀ a, a ∉ c.chunks → h'.mem a = h.mem a
  globals : h.SameGlobals h'

theorem memcpy_copied (larger : b.more ≤ c.more) (short : b.size < 2 ^ 63)
    (apart : ∀ a ∈ b.chunks, a ∉ c.chunks) : Copied h b c (h.memcpy c.ptr b.ptr b.size) := by
  have some : ¬ (c.ptr = 0 ∨ b.ptr = 0 ∨ b.size = 0 ∨ b.size ≥ 2 ^ 63) := by
    simp only [HeapBlock.ptr, HeapBlock.size, heapChunkMetaSize, heapChunkDataSize, heapChunkSize]
      at short ⊢
    omega
  have from_start : b.ptr - heapChunkMetaSize = b.start := Nat.add_sub_cancel ..
  have to_start : c.ptr - heapChunkMetaSize = c.start := Nat.add_sub_cancel ..
  have count : (b.size - heapChunkDataSize) / heapChunkSize = b.more := by
    simp only [HeapBlock.size, heapChunkDataSize, heapChunkSize]
    omega
  have inner {d : HeapBlock} {n a : Nat} (le : n ≤ d.more) (mem : a ∈ heapChunks (d.start + 32) n) :
      a ∈ d.chunks := by
    obtain ⟨j, lt, rfl⟩ := mem_heapChunks.mp mem
    exact mem_heapChunks.mpr ⟨j + 1, by omega, by omega⟩
  have first : c.start ∉ heapChunks (c.start + 32) b.more := by
    rw [mem_heapChunks]
    omega
  have behind (d : HeapBlock) : d.ptr + heapChunkDataSize = d.start + 32 := rfl
  obtain ⟨h₁, eq⟩ : ∃ h₁, h.setChunk c.start { h.mem c.start with
      data0 := (h.mem b.start).data0, data1 := (h.mem b.start).data1 } = h₁ := ⟨_, rfl⟩
  have own : h₁.mem c.start = { h.mem c.start with
      data0 := (h.mem b.start).data0, data1 := (h.mem b.start).data1 } := by
    rw [← eq]
    simp [Heap.setChunk]
  have kept {a : Nat} (off : a ≠ c.start) : h₁.mem a = h.mem a := by
    rw [← eq, h.mem_setChunk _ off]
  have globals₁ : h.SameGlobals h₁ := eq ▸ ⟨rfl, rfl, rfl⟩
  rw [Heap.memcpy, if_neg some]
  simp only [from_start, to_start, count, behind, eq]
  obtain ⟨copied, other, globals⟩ := @memcpyChunks_copies h₁ (c.start + 32) (b.start + 32) b.more
    (fun a mem mem' => apart a (inner (Nat.le_refl _) mem) (inner larger mem'))
  have here := (other c.start first).trans own
  refine ⟨by rw [here], by rw [here], by rw [here], by rw [here], fun j lt => ?_,
    fun a outside => ?_, globals.1.trans globals₁.1, globals.2.1.trans globals₁.2.1,
    globals.2.2.trans globals₁.2.2⟩
  · refine (copied j lt).trans (kept ?_)
    intro same
    refine apart (b.start + 32 + 32 * j) (mem_heapChunks.mpr ⟨j + 1, by omega, by omega⟩) ?_
    rw [same]
    exact Owned.start_mem c
  · refine (other a (fun mem => outside (inner larger mem))).trans (kept ?_)
    rintro rfl
    exact outside (Owned.start_mem c)

/-- Without a new block nothing is copied. -/
theorem memcpy_null (h : Heap) (src size : Nat) : h.memcpy 0 src size = h := by
  simp [Heap.memcpy]

end

/-! ## A block that moves -/

section

variable {pages : List Nat} {s : HeapLedger} {l l' : List Nat} {b c : HeapBlock} {size : Nat}

theorem FreeList.unique {h : Heap} (list : FreeList h l) (list' : FreeList h l') : l = l' :=
  list.walk.unique list'.walk

namespace Owned

/-- Two blocks in use do not both take half of memory. -/
theorem size_lt (owned : Owned pages s l) (hb : b ∈ s.live) (hc : c ∈ s.live)
    (apart : ∀ a ∈ b.chunks, a ∉ c.chunks) (larger : b.more ≤ c.more) : b.size < 2 ^ 63 := by
  have chunk {d : HeapBlock} (mem : d ∈ s.live) {j : Nat} (le : j ≤ d.more) :
      d.start + 32 * j ∈ d.chunks ∧ IsChunk (d.start + 32 * j) := by
    have inside : d.start + 32 * j ∈ d.chunks := mem_heapChunks.mpr ⟨j, by omega, rfl⟩
    refine ⟨inside, owned.isChunk (List.mem_append_left _ (List.mem_append_right _ ?_))⟩
    exact List.mem_flatMap.mpr ⟨d, mem, inside⟩
  obtain ⟨-, b_last⟩ := chunk hb (Nat.le_refl _)
  obtain ⟨-, c_last⟩ := chunk hc (Nat.le_refl _)
  obtain ⟨b_first, b_chunk⟩ := chunk hb (Nat.zero_le _)
  obtain ⟨c_first, c_chunk⟩ := chunk hc (Nat.zero_le _)
  obtain ⟨i, b_eq⟩ := b_chunk.aligned
  obtain ⟨k, c_eq⟩ := c_chunk.aligned
  have b_fits := b_last.fits
  have c_fits := c_last.fits
  have b_pos := b_chunk.pos
  simp only [HeapBlock.size, heapChunkDataSize, heapChunkSize]
  by_cases order : b.start < c.start
  · have gap : b.start + 32 * b.more < c.start := by
      by_contra inside
      refine apart (b.start + 32 * (k - i)) (chunk hb (by omega)).1 ?_
      rw [show b.start + 32 * (k - i) = c.start + 32 * 0 by omega]
      exact c_first
    omega
  · have gap : c.start + 32 * c.more < b.start := by
      by_contra inside
      refine apart (b.start + 32 * 0) b_first ?_
      rw [show b.start + 32 * 0 = c.start + 32 * (i - k) by omega]
      exact (chunk hc (by omega)).1
    omega

/-- Copying to a block in use is a write to it. -/
theorem copied {h : Heap} (owned : Owned pages s l) (live : c ∈ s.live)
    (copied : Copied s.heap b c h) : Owned pages ⟨h, s.live⟩ l := by
  have written := owned.write live copied.other copied.meta0 copied.meta1
  have same : Heap.mk h.mem s.heap.first s.heap.last s.heap.pages = h := by
    obtain ⟨first, last, pages⟩ := copied.globals
    rw [← first, ← last, ← pages]
  exact same ▸ written

/-- After it is freed a block cannot be in use. -/
theorem not_freed (owned : Owned pages s l) (live : b ∈ s.live) {fuel : Nat} {h : Heap}
    (freed : heapFree fuel s.heap b.ptr = some h) : ¬ Owned pages ⟨h, s.live⟩ l' := by
  intro after
  by_cases ends : EndsAbove l b.start
  · obtain ⟨front, rest, owned', -⟩ := owned.free live freed ends
    refine (after.block live).apart b.start (start_mem b) ?_
    rw [after.list.unique owned'.list]
    simp [start_mem]
  · obtain ⟨h', same, cycle⟩ := @heapFree_cycle _ _ _ _ (fuel + (l.length + 1)) owned.list
      (owned.block live) (by omega) ends
    obtain rfl := Option.some_inj.mp ((heapFree_mono _ freed).symm.trans same)
    exact cycle l' after.list.walk

/-- What `heap_alloc` took is a block in use with the contents of `b`, before `b` is freed. -/
theorem moved (owned : Owned pages s l) (live : b ∈ s.live) (less : b.size < size)
    {fuel start n : Nat} {h : Heap} (found : heapAlloc fuel s.heap size = some (start + 16, h))
    (taken : Allocated s.heap l size start h l' n) :
    ∃ h', h.memcpy (start + 16) b.ptr (h.metaSize b.start) = h' ∧
      Owned pages ⟨h', ⟨start, n, size⟩ :: s.live⟩ l' ∧
      (∀ a ∈ b.chunks, a ∉ HeapBlock.chunks ⟨start, n, size⟩) ∧
      ∀ h'' : Heap, (∀ a ∈ HeapBlock.chunks ⟨start, n, size⟩, h''.mem a = h'.mem a) →
        (HeapBlock.contents ⟨start, n, size⟩ h'').take
            (min b.size (HeapBlock.size ⟨start, n, size⟩) / 8) =
          (b.contents s.heap).take (min b.size (HeapBlock.size ⟨start, n, size⟩) / 8) := by
  obtain ⟨l₁, new, owned₁, -⟩ := owned.alloc (Nat.zero_lt_of_lt less) found
  obtain rfl := owned₁.list.unique taken.list
  have live_eq := s.allocated_live size taken.metaSize
  obtain ⟨c, c_eq⟩ : ∃ c : HeapBlock, (⟨start, n, size⟩ : HeapBlock) = c := ⟨_, rfl⟩
  rw [c_eq] at live_eq ⊢
  have owned₂ : Owned pages ⟨h, c :: s.live⟩ l₁ := by
    rw [← live_eq]
    exact owned₁
  have hb : b ∈ c :: s.live := List.mem_cons_of_mem _ live
  have hc : c ∈ c :: s.live := List.mem_cons_self
  have apart : ∀ a ∈ b.chunks, a ∉ c.chunks :=
    fun a mem => owned₂.apart_blocks hc (by simpa using live) mem
  have larger : b.more ≤ c.more := by
    have enough := taken.enough
    simp only [HeapBlock.size, heapChunkDataSize, heapChunkSize] at less
    rw [← c_eq]
    simp only
    omega
  have old : ∀ a ∈ b.chunks, h.mem a = s.heap.mem a :=
    fun a mem => taken.other a (owned.apart_live live mem)
  have size_eq : h.metaSize b.start = b.size := owned₂.size b hb
  have ptr : start + 16 = c.ptr := by
    rw [← c_eq]
    rfl
  have copied := @memcpy_copied h b c larger (owned₂.size_lt hb hc apart larger) apart
  rw [size_eq, ptr]
  refine ⟨_, rfl, owned₂.copied hc copied, apart, fun h'' kept => ?_⟩
  have first := kept c.start (start_mem c)
  have first' := old b.start (start_mem b)
  refine HeapBlock.contents_take larger ?_ ?_ (fun j lt => ?_)
  · rw [first, copied.data0, first']
  · rw [first, copied.data1, first']
  · have mem : b.start + 32 + 32 * j ∈ b.chunks := mem_heapChunks.mpr ⟨j + 1, by omega, by omega⟩
    have mem' : c.start + 32 + 32 * j ∈ c.chunks := mem_heapChunks.mpr ⟨j + 1, by omega, by omega⟩
    rw [kept _ mem', copied.chunks j lt, old _ mem]

/-- `heap_free` returns for every block in use. -/
theorem freed (owned : Owned pages s l) (live : b ∈ s.live) :
    ∃ h, Returns (fun fuel => heapFree fuel s.heap b.ptr) h := by
  obtain ⟨fuel, h, freed⟩ := owned.heapFree_returns live
  exact ⟨h, .of_more fun more => heapFree_mono more freed⟩

/-- Without a new block the call returns `NULL`, and the old block has been freed. -/
theorem heapRealloc_null (owned : Owned pages s l) (live : b ∈ s.live)
    (stuck : ¬ (b.growth size).Sublist l) {fuel : Nat} {h : Heap}
    (none : heapAlloc fuel s.heap size = some (0, h)) :
    ∃ h', Returns (fun fuel => heapRealloc fuel s.heap b.ptr size) (0, h') ∧
      ∀ l', ¬ Owned pages ⟨h', s.live⟩ l' := by
  obtain ⟨l₁, new, owned₁, -⟩ := owned.alloc (Nat.zero_lt_of_lt (less_of_stuck stuck)) none
  obtain ⟨h', freed⟩ := @freed _ _ _ b owned₁ live
  refine ⟨h', owned.heapRealloc_moves live stuck
    (.of_more fun more => heapAlloc_mono more none) ?_, fun l' => ?_⟩
  · rw [memcpy_null]
    exact freed
  · obtain ⟨fuel', freed⟩ := freed
    exact owned₁.not_freed live (freed fuel' (Nat.le_refl _))

/-- A chunk in front of the run in order with the chunks behind it. -/
theorem pairwise_seam {front rest : List Nat} {x : Nat} (seam : (front ++ [x]).Pairwise (· < ·))
    (behind : (x :: rest).Pairwise (· < ·)) : (front ++ x :: rest).Pairwise (· < ·) := by
  obtain ⟨order, -, cross⟩ := List.pairwise_append.mp seam
  refine List.pairwise_append.mpr ⟨order, behind, fun a mem c mem' => ?_⟩
  have here := cross a mem x (List.mem_singleton.mpr rfl)
  obtain rfl | mem' := List.mem_cons.mp mem'
  · exact here
  · exact Nat.lt_trans here ((List.pairwise_cons.mp behind).1 c mem')

/-- A block that moves. -/
theorem moves_keeps_iff (owned : Owned pages s l) (order : l.Pairwise (· < ·)) (live : b ∈ s.live)
    (stuck : ¬ (b.growth size).Sublist l) :
    (∃ r live l', Returns (fun fuel => heapRealloc fuel s.heap b.ptr size) r ∧
      ReallocKeeps pages s b size r live l') ↔
      ∃ front start n x more,
        SearchFinds size (l ++ s.heap.pages.flatMap pageChunks) front start n x more ∧
          (front ++ [x]).Pairwise (· < ·) := by
  have less := less_of_stuck stuck
  obtain ⟨h, l₁, none, -, fails⟩ | ⟨start, h, n, front, x, rest, found, taken, finds, ordered⟩ :=
    heapAlloc_search owned.room (Nat.zero_lt_of_lt less) (Nat.lt_succ_self _)
  · obtain ⟨h', returns, lost⟩ := owned.heapRealloc_null live stuck none
    constructor
    · rintro ⟨r, live', l', returns', keeps⟩
      obtain rfl := returns.unique returns'
      obtain ⟨-, rfl⟩ | ⟨b', ptr, -⟩ := keeps.blocks
      · exact absurd keeps.owned (lost l')
      · exact absurd ptr (by simp [HeapBlock.ptr, heapChunkMetaSize, heapChunkDataSize, heapChunkSize])
    · rintro ⟨front, start, n, x, more, ⟨⟨scan, search, -⟩, -⟩, -⟩
      rw [search] at fails
      cases fails
  · obtain ⟨h', copy, owned', apart, contents⟩ := owned.moved live less found taken
    have live' : b ∈ (⟨start, n, size⟩ : HeapBlock) :: s.live := List.mem_cons_of_mem _ live
    obtain ⟨h₃, freed⟩ := @Owned.freed _ _ _ b owned' live'
    have returns := owned.heapRealloc_moves live stuck
      (.of_more fun more => heapAlloc_mono more found) (copy ▸ freed)
    obtain ⟨fuel, freed⟩ := freed
    have result := freed fuel (Nat.le_refl _)
    constructor
    · rintro ⟨r, live'', l', returns', keeps⟩
      obtain rfl := returns.unique returns'
      refine ⟨front, start, n, x, _, finds, ?_⟩
      have ends : EndsAbove (front ++ x :: rest) b.start := by
        by_contra below
        obtain ⟨h₄, same, cycle⟩ := @heapFree_cycle _ _ _ _
          (fuel + ((front ++ x :: rest).length + 1)) owned'.list (owned'.block live') (by omega) below
        obtain rfl := Option.some_inj.mp ((heapFree_mono _ result).symm.trans same)
        exact cycle l' keeps.owned.list.walk
      obtain ⟨front', rest', owned₃, back⟩ := owned'.free live' result ends
      obtain rfl := owned₃.list.unique keeps.owned.list
      have order' : (front ++ x :: rest).Pairwise (· < ·) := by
        refine keeps.order.sublist ?_
        rw [back.split, List.append_assoc]
        exact (List.sublist_append_right ..).append_left _
      refine order'.sublist (List.Sublist.append_left ?_ front)
      exact List.singleton_sublist.mpr List.mem_cons_self
    · rintro ⟨front', start', n', x', more, finds', seam⟩
      obtain ⟨rfl, rfl⟩ := finds.unique finds'
      have order' := pairwise_seam seam (ordered order)
      obtain ⟨front', rest', owned₃, back⟩ :=
        owned'.free live' result (endsAbove_of_ascending order' _)
      have off : (⟨start, n, size⟩ : HeapBlock) ≠ b := by
        rintro rfl
        exact apart start (start_mem _) (start_mem _)
      rw [List.erase_cons_tail (by simpa using off)] at owned₃
      refine ⟨_, _, _, returns, .inr ⟨⟨start, n, size⟩, rfl, rfl, rfl, ?_⟩, owned₃,
        back.ascending order', fun c mem => owned₃.globals mem⟩
      refine contents h₃ (fun a mem => back.other a ?_ (fun mem' => apart a mem' mem))
      exact fun inside => (owned'.block List.mem_cons_self).apart a mem inside

end Owned

/-! ## The heap after the call -/

/-- `heap_realloc` keeps a heap in order exactly where the block fits: it fails for a block that
    takes several chunks at an end of the list, for one that moves in front of chunks that are
    out of order then, and when there is no memory. -/
theorem heapRealloc_keeps_iff (owned : Owned pages s l) (order : l.Pairwise (· < ·))
    (live : b ∈ s.live) (size : Nat) :
    (∃ r live l', Returns (fun fuel => heapRealloc fuel s.heap b.ptr size) r ∧
      ReallocKeeps pages s b size r live l') ↔ ReallocFits l s.heap.pages b size := by
  by_cases enough : size ≤ b.size
  · refine ⟨fun _ => .enough enough, fun _ => ?_⟩
    have same : Owned pages ⟨s.heap, ⟨b.start, b.more + 0, size⟩ :: s.live.erase b⟩ (l ++ []) :=
      owned.regrow live (by simp [heapChunks]) (by simpa using owned.list) rfl (fun _ _ => rfl)
        (owned.magic b live) (owned.size b live) enough
    refine ⟨(b.ptr, s.heap), _, l ++ [], .congr (owned.heapRealloc_eq live · size) ?_,
      .inr ⟨⟨b.start, b.more + 0, size⟩, rfl, rfl, rfl, rfl⟩, same, by simpa using order,
      fun c mem => same.globals mem⟩
    simp only [if_pos enough]
    exact .const _
  · have less := Nat.not_le.mp enough
    by_cases sub : (b.growth size).Sublist l
    · rw [owned.grows_keeps_iff order live less sub]
      constructor
      · exact .grows sub
      · rintro (fits | ⟨-, fits⟩ | ⟨stuck, -⟩)
        · exact absurd fits enough
        · exact fits
        · exact absurd sub stuck
    · rw [owned.moves_keeps_iff order live sub]
      constructor
      · rintro ⟨front, start, n, x, more, finds, seam⟩
        exact .moves sub finds seam
      · rintro (fits | ⟨sub', -⟩ | ⟨-, finds, seam⟩)
        · exact absurd fits enough
        · exact absurd sub' sub
        · exact ⟨_, _, _, _, _, finds, seam⟩

end

/-- A block of four chunks at the start of the only page. -/
theorem oneBlock : ∃ s l, heapAlloc 10 (emptyHeap [0x1000]) 100 = some (0x1010, s.heap) ∧
    s.live = [⟨0x1000, 3, 100⟩] ∧ Owned [0x1000] s l ∧ l.Pairwise (· < ·) := by
  obtain ⟨h, result, size⟩ := emptyHeap_alloc
  have supply : PageSupply [0x1000] := ⟨by decide, by decide, by decide, by decide⟩
  have step := HeapLedger.Step.alloc (by decide) result (s := ⟨emptyHeap [0x1000], []⟩)
  obtain ⟨l, owned, order⟩ :=
    (emptyHeap_start supply).owned.step_ascending (by decide) .nil step
  refine ⟨_, l, result, ?_, owned, order⟩
  simp [HeapLedger.allocated, heapChunkMetaSize, heapChunkDataSize, heapChunkSize, size]

theorem heapRealloc_keeps_iff_oneBlock : ∃ s l, Owned [0x1000] s l ∧
    ((∃ r live l', Returns (fun fuel => heapRealloc fuel s.heap 0x1010 200) r ∧
      ReallocKeeps [0x1000] s ⟨0x1000, 3, 100⟩ 200 r live l') ↔
        ReallocFits l s.heap.pages ⟨0x1000, 3, 100⟩ 200) := by
  obtain ⟨s, l, -, live, owned, order⟩ := oneBlock
  have mem : ⟨0x1000, 3, 100⟩ ∈ s.live := by simp [live]
  exact ⟨s, l, owned, heapRealloc_keeps_iff owned order mem 200⟩

/-- The block takes the first three chunks of the free list: `heap_chunk_first` stays in it. -/
theorem heapRealloc_not_keeps : ∃ s l, Owned [0x1000] s l ∧ l.Pairwise (· < ·) ∧
    s.live = [⟨0x1000, 3, 100⟩] ∧ ∃ r, heapRealloc 10 s.heap 0x1010 200 = some r ∧
      ∀ live l', ¬ ReallocKeeps [0x1000] s ⟨0x1000, 3, 100⟩ 200 r live l' := by
  obtain ⟨s, l, result, live, owned, order⟩ := oneBlock
  have computed : ((heapAlloc 10 (emptyHeap [0x1000]) 100).bind fun r =>
      (heapRealloc 10 r.2 r.1 200).map fun r => (r.1, r.2.metaSize 0x1000, r.2.first)) =
      some (0x1010, 208, 0x1080) := by
    decide +kernel
  rw [result] at computed
  obtain ⟨⟨mem, h⟩, grown, eq⟩ := Option.map_eq_some_iff.mp computed
  obtain ⟨rfl, size, first⟩ : mem = 0x1010 ∧ h.metaSize 0x1000 = 208 ∧ h.first = 0x1080 := by
    simpa using eq
  refine ⟨s, l, owned, order, live, _, grown, fun live' l' keeps => ?_⟩
  have some : (0x1010, h).1 ≠ 0 := Nat.succ_ne_zero _
  obtain ⟨⟨start, more, request⟩, -, ptr, size', outside, -⟩ := keeps.block some
  have same : 0x1000 + 16 = start + 16 := ptr
  obtain rfl : start = 0x1000 := by omega
  refine outside (mem_heapChunks.mpr ⟨4, ?_, first⟩)
  have large := size.symm.trans size'
  simp only [HeapBlock.size, heapChunkDataSize, heapChunkSize] at large ⊢
  omega

/-! ## Without memory -/

/-- What `heap_realloc` should leave when it returns `NULL`: the block in use as it is, and the free
    list with the pages that came. -/
structure ReallocFailed (pages : List Nat) (s : HeapLedger) (l : List Nat) (b : HeapBlock) (h : Heap)
    (l' : List Nat) : Prop where
  owned : Owned pages ⟨h, s.live⟩ l'
  capacity : h.metaSize b.start = s.heap.metaSize b.start
  contents : b.contents h = b.contents s.heap
  grown : ∃ new, s.heap.pages = new ++ h.pages ∧ l' = l ++ new.flatMap pageChunks

/-- When a block can neither grow nor move the call returns `NULL`, and the block is lost. -/
theorem heapRealloc_failed_never {pages l : List Nat} {s : HeapLedger} {b : HeapBlock} {size : Nat}
    {h : Heap} (owned : Owned pages s l) (live : b ∈ s.live) (stuck : ¬ (b.growth size).Sublist l)
    (full : Returns (fun fuel => heapAlloc fuel s.heap size) (0, h)) :
    ∃ h', Returns (fun fuel => heapRealloc fuel s.heap b.ptr size) (0, h') ∧
      ∀ l', ¬ ReallocFailed pages s l b h' l' := by
  obtain ⟨fuel, none⟩ := full
  obtain ⟨h', returns, lost⟩ := owned.heapRealloc_null live stuck (none fuel (Nat.le_refl _))
  exact ⟨h', returns, fun l' kept => lost l' kept.owned⟩

/-- A block of 100 bytes and no page to come: 5000 bytes can be had neither behind it nor elsewhere. -/
theorem oneBlock_stuck : ∃ s l h, Owned [0x1000] s l ∧ s.live = [⟨0x1000, 3, 100⟩] ∧
    ¬ (HeapBlock.growth ⟨0x1000, 3, 100⟩ 5000).Sublist l ∧
    heapAlloc 200 s.heap 5000 = some (0, h) := by
  obtain ⟨s, l, result, live, owned, order⟩ := oneBlock
  have computed : ((heapAlloc 10 (emptyHeap [0x1000]) 100).bind fun r =>
      (heapAlloc 200 r.2 5000).map Prod.fst) = some 0 := by
    decide +kernel
  rw [result] at computed
  obtain ⟨⟨mem, h⟩, none, rfl⟩ := Option.map_eq_some_iff.mp computed
  refine ⟨s, l, h, owned, live, fun sub => ?_, none⟩
  -- the chunk behind the page
  have mem : 0x2000 ∈ HeapBlock.growth ⟨0x1000, 3, 100⟩ 5000 :=
    mem_heapChunks.mpr ⟨124, by decide, by decide⟩
  have inside := owned.perm.mem_iff.mp
    (List.mem_append_left _ (List.mem_append_left _ (sub.subset mem)))
  obtain ⟨page, here, chunk⟩ := List.mem_flatMap.mp inside
  obtain rfl := List.mem_singleton.mp here
  obtain ⟨j, lt, eq⟩ := mem_pageChunks.mp chunk
  omega

theorem heapRealloc_failed_never_oneBlock : ∃ s l h', Owned [0x1000] s l ∧
    Returns (fun fuel => heapRealloc fuel s.heap 0x1010 5000) (0, h') ∧
      ∀ l', ¬ ReallocFailed [0x1000] s l ⟨0x1000, 3, 100⟩ h' l' := by
  obtain ⟨s, l, h, owned, live, stuck, none⟩ := oneBlock_stuck
  have mem : ⟨0x1000, 3, 100⟩ ∈ s.live := by simp [live]
  obtain ⟨h', returns, lost⟩ := heapRealloc_failed_never owned mem stuck
    (.of_more fun more => heapAlloc_mono more none)
  exact ⟨s, l, h', owned, returns, lost⟩

/-- The call returns `NULL` and the block has no magic value any more. -/
theorem heapRealloc_not_failed : ∃ s l, Owned [0x1000] s l ∧ s.live = [⟨0x1000, 3, 100⟩] ∧
    ∃ h', heapRealloc 200 s.heap 0x1010 5000 = some (0, h') ∧
      ∀ l', ¬ ReallocFailed [0x1000] s l ⟨0x1000, 3, 100⟩ h' l' := by
  obtain ⟨s, l, result, live, owned, -⟩ := oneBlock
  have computed : ((heapAlloc 10 (emptyHeap [0x1000]) 100).bind fun r =>
      (heapRealloc 200 r.2 r.1 5000).map fun r => (r.1, r.2.isMagical 0x1000)) =
      some (0, false) := by
    decide +kernel
  rw [result] at computed
  obtain ⟨⟨mem, h⟩, freed, eq⟩ := Option.map_eq_some_iff.mp computed
  obtain ⟨rfl, lost⟩ : mem = 0 ∧ h.isMagical 0x1000 = false := by simpa using eq
  refine ⟨s, l, owned, live, h, freed, fun l' kept => ?_⟩
  have magic := kept.owned.magic ⟨0x1000, 3, 100⟩ (by simp [live])
  rw [lost] at magic
  cases magic

end Sdx.Mm
