import Sdx.Mm.HeapList

/-! # `heap_alloc` on the free list

The loop walks over the list, which grows at its end when it gets there, and remembers the
run of neighbours that it is in. A run that is large enough leaves the list.
-/

namespace Sdx.Mm

open Sdx.Lib.LinkedList

/-- Where a chunk may lie. -/
structure IsChunk (a : Nat) : Prop where
  aligned : 32 ∣ a
  pos : 0 < a
  fits : a < 2 ^ 64

theorem IsChunk.ge {a : Nat} (chunk : IsChunk a) : 32 ≤ a := Nat.le_of_dvd chunk.pos chunk.aligned

/-- The free list and the pages to come have no chunk in common. -/
structure Room (h : Heap) (l : List Nat) : Prop where
  list : FreeList h l
  nodup : (l ++ h.pages.flatMap pageChunks).Nodup
  chunk : ∀ a ∈ l ++ h.pages.flatMap pageChunks, IsChunk a

section

variable {h h' : Heap} {l l' l₁ l₂ : List Nat} {cur : Nat}

namespace Room

theorem grown (room : Room h l) (grown : Grown h l h' l') : Room h' l' := by
  refine ⟨grown.list, ?_, ?_⟩
  · rw [grown.chunks]
    exact room.nodup
  · rw [grown.chunks]
    exact room.chunk

theorem isChunk (room : Room h l) {a : Nat} (mem : a ∈ l) : IsChunk a :=
  room.chunk a (List.mem_append_left _ mem)

/-- A page to come is apart from the list. -/
theorem extend (room : Room h l) : ∃ l', Grown h l (heapExtend h).2 l' ∧
    ((h.pages = [] ∧ l' = l) ∨ ∃ page rest, h.pages = page :: rest ∧ l' = l ++ pageChunks page) := by
  cases pages : h.pages with
  | nil =>
      rw [heapExtend_nil pages]
      exact ⟨l, .refl room.list, .inl ⟨rfl, rfl⟩⟩
  | cons page rest =>
      have nodup := room.nodup
      rw [pages, List.flatMap_cons] at nodup
      have self : page ∈ pageChunks page := mem_pageChunks.mpr ⟨0, by decide, rfl⟩
      have first : IsChunk page := by
        apply room.chunk
        simp [pages, self]
      have apart : ∀ a ∈ pageChunks page, a ∉ l := by
        intro a new old
        exact (List.nodup_append.mp nodup).2.2 a old a (List.mem_append_left _ new) rfl
      exact ⟨_, heapExtend_grown room.list pages first.pos apart, .inr ⟨page, rest, rfl, rfl⟩⟩

end Room

/-- What is ahead in a list that grows at its end when it gets there: pages come while there are
    any, and only behind the last chunk. -/
structure Supplied (l : List Nat) (h' : Heap) (l' : List Nat) : Prop where
  dry : l' = [] → h'.pages = []
  order : l.Pairwise (· < ·) → l'.Pairwise (· < ·)

/-- An extension where nothing is ahead. -/
theorem Room.supplied (room : Room h (l₁ ++ [])) :
    ∃ l₂', Grown h (l₁ ++ []) (heapExtend h).2 (l₁ ++ l₂') ∧ Supplied [] (heapExtend h).2 l₂' := by
  obtain ⟨l', grown, ⟨none, rfl⟩ | ⟨page, rest, -, rfl⟩⟩ := room.extend
  · refine ⟨[], grown, fun _ => ?_, fun order => order⟩
    rw [heapExtend_nil none, none]
  · rw [List.append_nil] at grown ⊢
    refine ⟨pageChunks page, grown, fun none => ?_, fun _ => sorted_heapChunks⟩
    cases none

/-- `__heap_chunk_next(NULL)` is the first chunk, after an extension if there was none. -/
theorem heapChunkNext_null (room : Room h l) : ∃ l', Grown h l (heapChunkNext h 0).2 l' ∧
    toPtr (heapChunkNext h 0).1 = l'.head? ∧ Supplied l (heapChunkNext h 0).2 l' := by
  by_cases empty : h.first = 0 ∨ h.last = 0
  · obtain rfl : l = [] := by
      by_contra some
      exact empty.elim (room.list.first_pos some) (room.list.last_pos some)
    obtain ⟨l', grown, supplied⟩ := @Room.supplied h [] room
    rw [List.nil_append, List.nil_append] at grown
    refine ⟨l', ?_, ?_, ?_⟩
    · simpa [heapChunkNext, empty] using grown
    · simpa [heapChunkNext, empty] using grown.list.first
    · simpa [heapChunkNext, empty] using supplied
  · have some : l ≠ [] := by
      rintro rfl
      exact empty (.inl room.list.empty.1)
    refine ⟨l, ?_, ?_, fun none => absurd none some, fun order => order⟩
    · simpa [heapChunkNext, empty] using Grown.refl room.list
    · simpa [heapChunkNext, empty] using room.list.first

/-- `__heap_chunk_next` of a chunk of the list is the one behind it, after an extension if it was
    the last. -/
theorem heapChunkNext_mem (room : Room h (l₁ ++ cur :: l₂)) :
    ∃ l₂', Grown h (l₁ ++ cur :: l₂) (heapChunkNext h cur).2 (l₁ ++ cur :: l₂') ∧
      toPtr (heapChunkNext h cur).1 = l₂'.head? ∧ Supplied l₂ (heapChunkNext h cur).2 l₂' := by
  have some : l₁ ++ cur :: l₂ ≠ [] := by simp
  have pos : cur ≠ 0 := Nat.ne_of_gt (room.isChunk (by simp)).pos
  have first := room.list.first_pos some
  have last := room.list.last_pos some
  have next := room.list.next_eq
  by_cases ends : h.metaNext cur = 0
  · obtain rfl : l₂ = [] := by
      rw [ends, toPtr_zero] at next
      exact List.head?_eq_none_iff.mp next.symm
    have here : l₁ ++ [cur] = (l₁ ++ [cur]) ++ [] := (List.append_nil _).symm
    rw [here] at room
    obtain ⟨l₂', grown, supplied⟩ := room.supplied
    rw [List.append_nil, List.append_assoc, List.singleton_append] at grown
    refine ⟨l₂', ?_, ?_, ?_⟩
    · simpa [heapChunkNext, first, last, pos, ends] using grown
    · simpa [heapChunkNext, first, last, pos, ends] using grown.list.next_eq
    · simpa [heapChunkNext, first, last, pos, ends] using supplied
  · have more : l₂ ≠ [] := by
      rintro rfl
      exact ends (toPtr_eq_none.mp next)
    refine ⟨l₂, ?_, ?_, fun none => absurd none more, fun order => order⟩
    · simpa [heapChunkNext, first, last, pos, ends] using Grown.refl room.list
    · simpa [heapChunkNext, first, last, pos, ends] using next

end

/-! ## The loop -/

/-- The loop has gone over the chunks of `l`: they end with the run it is in, if it is in one. -/
structure Scanned (l : List Nat) (scan : HeapScan) : Prop where
  idle : scan.start = 0 → scan.totalSize = 0
  run : scan.start ≠ 0 → ∃ front n, l = front ++ heapChunks scan.start (n + 1) ∧
    scan.stop = scan.start + 32 * n ∧ scan.totalSize = 16 + 32 * n

section

variable {h h' : Heap} {l l' l₁ l₂ : List Nat} {scan scan' : HeapScan} {size fuel : Nat}

theorem HeapScan.visit_cur (scan : HeapScan) : scan.visit.cur = scan.cur := by
  unfold HeapScan.visit
  split
  · rfl
  · split <;> rfl

theorem Scanned.visit (scanned : Scanned l scan) (next : Nat)
    (chunk : ∀ a ∈ l ++ [scan.cur], IsChunk a) :
    Scanned (l ++ [scan.cur]) { scan.visit with stop := scan.cur, cur := next } := by
  have here : IsChunk scan.cur := chunk _ (by simp)
  by_cases idle : scan.start = 0
  · have zero := scanned.idle idle
    constructor
    · intro none
      simp only [HeapScan.visit, idle, if_true] at none
      exact absurd none (Nat.ne_of_gt here.pos)
    · intro _
      refine ⟨l, 0, ?_, ?_, ?_⟩ <;>
        simp [HeapScan.visit, idle, zero, heapChunks, wrap64, heapChunkDataSize]
  · obtain ⟨front, n, rfl, stop, total⟩ := scanned.run idle
    by_cases apart : scan.stop + heapChunkSize ≠ scan.cur
    · constructor
      · intro _
        simp [HeapScan.visit, idle, apart]
      · intro some
        simp [HeapScan.visit, idle, apart] at some
    · rw [not_not, stop, heapChunkSize] at apart
      have first : IsChunk scan.start := chunk _ (by simp [heapChunks_succ])
      have fits := here.fits
      have := first.ge
      constructor
      · intro none
        simp [HeapScan.visit, idle, stop, heapChunkSize, apart] at none
      · intro _
        refine ⟨front, n + 1, ?_, ?_, ?_⟩
        · simp only [HeapScan.visit, idle, stop, heapChunkSize, apart, if_false, ne_eq, not_true]
          rw [heapChunks_concat (n := n + 1), List.append_assoc, ← apart]
          congr 3
        · simp only [HeapScan.visit, idle, stop, heapChunkSize, apart, if_false, ne_eq, not_true]
          omega
        · simp only [HeapScan.visit, idle, stop, heapChunkSize, apart, if_false, ne_eq, not_true,
            total]
          rw [wrap64_of_lt (by omega)]
          omega

/-- The chunks that are yet to be seen when no page is left. -/
theorem Grown.length (grown : Grown h l h' l') :
    l'.length + 128 * h'.pages.length = l.length + 128 * h.pages.length := by
  have chunks := congrArg List.length grown.chunks
  have each (pages : List Nat) : (pages.flatMap pageChunks).length = 128 * pages.length := by
    induction pages with
    | nil => rfl
    | cons page pages ih =>
        rw [List.flatMap_cons, List.length_append, ih, List.length_cons, pageChunks, heapChunks,
          List.length_range', heapChunkPerPage, pageSize, heapChunkSize]
        omega
  rwa [List.length_append, List.length_append, each, each] at chunks

/-- The loop of `heap_alloc` over the chunks `l`, on which nothing is appended: its variables where
    it ends, and the chunks that it has not gone over. -/
def heapAllocSearch (size : Nat) (scan : HeapScan) : List Nat → HeapScan × List Nat
  | [] => ({ scan with cur := 0 }, [])
  | cur :: l =>
      let scan := { scan with cur := cur }
      if scan.totalSize < size then heapAllocSearch size { scan.visit with stop := cur } l
      else (scan, cur :: l)

theorem heapAllocSearch_cur (scan : HeapScan) (cur : Nat) (l : List Nat) :
    heapAllocSearch size { scan with cur := cur } l = heapAllocSearch size scan l := by
  cases l <;> rfl

/-- Where the loop of `heap_alloc` ends: the list is `l₁ ++ l₂` and `l₁` is behind it. -/
structure ScanEnd (size : Nat) (h : Heap) (scan : HeapScan) (l₁ l₂ : List Nat) : Prop where
  here : toPtr scan.cur = l₂.head?
  scanned : Scanned l₁ scan
  done : scan.cur = 0 ∨ size ≤ scan.totalSize

/-- The loop ends, where the search over the list and all the pages to come does. -/
theorem heapAllocLoop_ends (room : Room h (l₁ ++ l₂)) (here : toPtr scan.cur = l₂.head?)
    (dry : l₂ = [] → h.pages = []) (scanned : Scanned l₁ scan)
    (enough : l₂.length + 128 * h.pages.length < fuel) :
    ∃ h' scan' l₁' l₂', heapAllocLoop size fuel h scan = some (h', scan') ∧
      Grown h (l₁ ++ l₂) h' (l₁' ++ l₂') ∧ ScanEnd size h' scan' l₁' l₂' ∧ Supplied l₂ h' l₂' ∧
      heapAllocSearch size scan (l₂ ++ h.pages.flatMap pageChunks) =
        (scan', l₂' ++ h'.pages.flatMap pageChunks) := by
  induction fuel generalizing h scan l₁ l₂ with
  | zero => omega
  | succ fuel ih =>
      rw [heapAllocLoop]
      split
      case isFalse stop =>
        have done : scan.cur = 0 ∨ size ≤ scan.totalSize := by omega
        refine ⟨h, scan, l₁, l₂, rfl, .refl room.list, ⟨here, scanned, done⟩,
          ⟨dry, fun order => order⟩, ?_⟩
        cases l₂ with
        | nil =>
            rw [dry rfl, heapAllocSearch.eq_def]
            simp only [List.flatMap_nil, List.append_nil, ← toPtr_eq_none.mp here]
        | cons cur l₂ =>
            obtain ⟨rfl, pos⟩ := toPtr_eq_some.mp here
            rw [List.cons_append, heapAllocSearch]
            exact if_neg (Nat.not_lt.mpr (done.resolve_left (Nat.ne_of_gt pos)))
      case isTrue go =>
        cases l₂ with
        | nil => exact absurd (toPtr_eq_none.mp here) go.1
        | cons cur l₂ =>
            obtain ⟨rfl, -⟩ := toPtr_eq_some.mp here
            obtain ⟨l₂', grown, next, supplied⟩ := heapChunkNext_mem room
            have chunk : ∀ a ∈ l₁ ++ [scan.cur], IsChunk a := by
              intro a mem
              apply room.isChunk
              simp only [List.mem_append, List.mem_cons, List.not_mem_nil, or_false] at mem ⊢
              exact mem.imp_right .inl
            have visited := scanned.visit (heapChunkNext h scan.cur).1 chunk
            have shift : l₁ ++ scan.cur :: l₂' = (l₁ ++ [scan.cur]) ++ l₂' := by simp
            have later := room.grown grown
            have length := grown.length
            have chunks := grown.chunks
            rw [shift] at later length
            simp only [List.length_append, List.length_cons, List.length_nil] at length enough
            obtain ⟨h', scan', l₁', l₂'', result, again, ends, supplied', search⟩ :=
              ih later next supplied.dry visited (by omega)
            refine ⟨h', scan', l₁', l₂'', ?_, ?_, ends,
              ⟨supplied'.dry, fun order => supplied'.order (supplied.order order.tail)⟩, ?_⟩
            · simp only [scan.visit_cur]
              exact result
            · exact grown.trans (shift ▸ again)
            · simp only [List.append_assoc, List.cons_append, List.append_cancel_left_eq,
                List.cons.injEq, true_and] at chunks
              rw [List.cons_append, heapAllocSearch, ← chunks, ← search, if_pos go.2]
              exact (heapAllocSearch_cur _ _ _).symm

end

/-! ## Taking the run -/

/-- The links that `heap_alloc` writes when it takes a run. -/
def heapUnlink (h : Heap) (scan : HeapScan) : Heap :=
  let cur := h.metaPrev scan.start
  let h := if cur ≠ 0 then h.metaNextSet cur (h.metaNext scan.stop) else h
  let cur := h.metaNext scan.stop
  let h := if cur ≠ 0 then h.metaPrevSet cur (h.metaPrev scan.start) else h
  let h := if h.first = scan.start then { h with first := h.metaNext scan.stop } else h
  if h.last = scan.stop then { h with last := h.metaPrev scan.start } else h

theorem heapTake_eq (h : Heap) (scan : HeapScan) : heapTake h scan =
    ((heapUnlink h scan).magicSet scan.start).metaSizeSet scan.start scan.totalSize := rfl

/-- The run from `start` to `stop` is behind `p` and in front of `x`. -/
structure Between (h : Heap) (scan : HeapScan) (p x : Nat) : Prop where
  prev : h.metaPrev scan.start = p
  next : h.metaNext scan.stop = x
  pos : x ≠ 0
  front : p ≠ scan.stop
  back : x ≠ scan.start
  last : h.last ≠ scan.stop

section

variable {h : Heap} {scan : HeapScan} {p x : Nat}

theorem heapUnlink_next (run : Between h scan p x) (a : Nat) : (heapUnlink h scan).metaNext a =
    if p ≠ 0 ∧ a = p then x else h.metaNext a := by
  obtain ⟨prev, next, pos, front, -, last⟩ := run
  by_cases none : p = 0 <;> by_cases first : h.first = scan.start <;>
    simp [heapUnlink, prev, next, pos, front.symm, last, none, first, Function.update_apply]

theorem heapUnlink_prev (run : Between h scan p x) (a : Nat) : (heapUnlink h scan).metaPrev a =
    if a = x then p else h.metaPrev a := by
  obtain ⟨prev, next, pos, front, -, last⟩ := run
  by_cases none : p = 0 <;> by_cases first : h.first = scan.start <;>
    simp [heapUnlink, prev, next, pos, front.symm, last, none, first, Function.update_apply]

theorem heapUnlink_globals (run : Between h scan p x) :
    (heapUnlink h scan).first = (if h.first = scan.start then x else h.first) ∧
      (heapUnlink h scan).last = h.last ∧ (heapUnlink h scan).pages = h.pages := by
  obtain ⟨prev, next, pos, front, -, last⟩ := run
  by_cases none : p = 0 <;> by_cases first : h.first = scan.start <;>
    simp [heapUnlink, prev, next, pos, front.symm, last, none, first]

theorem heapUnlink_other (run : Between h scan p x) {a : Nat} (off : a ≠ x)
    (away : p ≠ 0 → a ≠ p) : (heapUnlink h scan).mem a = h.mem a := by
  obtain ⟨prev, next, pos, front, -, last⟩ := run
  by_cases none : p = 0 <;> by_cases first : h.first = scan.start <;>
    simp_all [heapUnlink, front.symm]

theorem FreeList.prev_run {front rest : List Nat} {start n : Nat}
    (list : FreeList h (front ++ heapChunks start (n + 1) ++ rest)) :
    toPtr (h.metaPrev start) = front.getLast? := by
  rw [heapChunks_succ, List.append_assoc, List.cons_append] at list
  exact list.prev_eq

/-- The run that the loop found has its neighbours on both sides. -/
theorem Between.of_list {front rest : List Nat} {n : Nat}
    (list : FreeList h (front ++ heapChunks scan.start (n + 1) ++ x :: rest))
    (pos : ∀ a ∈ front ++ heapChunks scan.start (n + 1) ++ x :: rest, 0 < a)
    (stop : scan.stop = scan.start + 32 * n) : Between h scan (h.metaPrev scan.start) x := by
  have nodup := list.nodup
  have mem_start : scan.start ∈ heapChunks scan.start (n + 1) :=
    mem_heapChunks.mpr ⟨0, by omega, by omega⟩
  have mem_stop : scan.stop ∈ heapChunks scan.start (n + 1) :=
    mem_heapChunks.mpr ⟨n, by omega, stop⟩
  obtain ⟨nodup_run, -, away⟩ := List.nodup_append.mp nodup
  obtain ⟨-, -, apart⟩ := List.nodup_append.mp nodup_run
  have start_pos : 0 < scan.start := pos _ (by simp [mem_start])
  have prev := list.prev_run
  have next : toPtr (h.metaNext scan.stop) = some x := by
    have list := list
    rw [heapChunks_concat, ← stop, ← List.append_assoc, List.append_assoc, List.singleton_append]
      at list
    exact list.next_eq
  refine ⟨rfl, (toPtr_eq_some.mp next).1, Nat.ne_of_gt (toPtr_eq_some.mp next).2, ?_, ?_, ?_⟩
  · intro same
    rw [same, toPtr_pos (by omega)] at prev
    exact apart _ (List.mem_of_getLast? prev.symm) _ mem_stop rfl
  · rintro rfl
    exact away scan.start (List.mem_append_right _ mem_start) _ List.mem_cons_self rfl
  · intro same
    have last := list.last
    rw [same, toPtr_pos (by omega), List.getLast?_append, List.getLast?_cons, Option.some_or] at last
    have mem : scan.stop ∈ x :: rest := List.mem_of_getLast? (last.trans List.getLast?_cons.symm).symm
    exact away _ (List.mem_append_right _ mem_stop) _ mem rfl

/-- A run leaves the list when the chunks `p` and `x` on its sides are linked to each other. -/
theorem FreeList.unlink {h' : Heap} {front run rest : List Nat}
    (list : FreeList h (front ++ run ++ rest))
    (prev : toPtr p = front.getLast?) (next : toPtr x = rest.head?)
    (forward : ∀ a ∈ front ++ rest, h'.metaNext a = if p ≠ 0 ∧ a = p then x else h.metaNext a)
    (backward : ∀ a ∈ front ++ rest, h'.metaPrev a = if x ≠ 0 ∧ a = x then p else h.metaPrev a)
    (first : toPtr h'.first = (front ++ rest).head?)
    (last : toPtr h'.last = (front ++ rest).getLast?) : FreeList h' (front ++ rest) := by
  have named (a b : Nat) : toPtr b = some a ↔ b ≠ 0 ∧ a = b := by
    rw [toPtr_eq_some]
    omega
  refine ⟨list.seg.cut list.nodup (fun a mem => ?_) (fun a mem => ?_), first, last⟩
  · simp only [← prev, ← next, named, Heap.next, forward a mem]
    split <;> rfl
  · simp only [← prev, ← next, named, Heap.prev, backward a mem]
    split <;> rfl

/-- The run that the loop found leaves the list and becomes a block. -/
theorem heapTake_list {front rest : List Nat} {n : Nat}
    (list : FreeList h (front ++ heapChunks scan.start (n + 1) ++ x :: rest))
    (pos : ∀ a ∈ front ++ heapChunks scan.start (n + 1) ++ x :: rest, 0 < a)
    (stop : scan.stop = scan.start + 32 * n) :
    FreeList (heapTake h scan) (front ++ x :: rest) ∧
      (heapTake h scan).pages = h.pages ∧
      (∀ a, a ∉ front ++ heapChunks scan.start (n + 1) ++ x :: rest →
        (heapTake h scan).mem a = h.mem a) ∧
      (heapTake h scan).isMagical scan.start ∧
      (heapTake h scan).metaSize scan.start = scan.totalSize := by
  have run := Between.of_list list pos stop
  obtain ⟨first, last, pages⟩ := heapUnlink_globals run
  have mem_start : scan.start ∈ heapChunks scan.start (n + 1) :=
    mem_heapChunks.mpr ⟨0, by omega, by omega⟩
  have old (a : Nat) (off : a ≠ scan.start) :
      (heapTake h scan).mem a = (heapUnlink h scan).mem a := by
    rw [heapTake_eq, Heap.mem_metaSizeSet _ _ off, Heap.mem_magicSet _ off]
  obtain ⟨nodup_run, -, away⟩ := List.nodup_append.mp list.nodup
  obtain ⟨-, -, apart⟩ := List.nodup_append.mp nodup_run
  have off : ∀ a ∈ front ++ x :: rest, a ≠ scan.start := by
    intro a mem
    obtain mem | mem := List.mem_append.mp mem
    · exact apart a mem _ mem_start
    · exact (away _ (List.mem_append_right _ mem_start) a mem).symm
  have before := list.prev_run
  have x_pos : 0 < x := pos x (by simp)
  refine ⟨list.unlink before (x := x) (toPtr_pos x_pos) (fun a mem => ?_) (fun a mem => ?_) ?_ ?_,
    pages, ?_, ?_, ?_⟩
  · rw [← heapUnlink_next run, Heap.metaNext, old a (off a mem), Heap.metaNext]
  · rw [Heap.metaPrev, old a (off a mem), ← Heap.metaPrev, heapUnlink_prev run]
    simp only [Nat.ne_of_gt x_pos, ne_eq, not_false_eq_true, true_and]
  · have same : (heapTake h scan).first = if h.first = scan.start then x else h.first := first
    have head := list.first
    cases front with
    | nil =>
        obtain ⟨eq, -⟩ := toPtr_eq_some.mp head
        rw [same, if_pos eq]
        exact toPtr_pos x_pos
    | cons a front =>
        obtain ⟨eq, -⟩ := toPtr_eq_some.mp head
        rw [same, if_neg (fun other => off a List.mem_cons_self (eq.symm.trans other))]
        exact head
  · have same : (heapTake h scan).last = h.last := last
    rw [same, list.last]
    simp [List.getLast?_append, List.getLast?_cons]
  · intro a outside
    have out : a ∉ front ++ x :: rest := by
      simp only [List.mem_append, not_or] at outside ⊢
      exact ⟨outside.1.1, outside.2⟩
    have off : a ≠ scan.start := by
      rintro rfl
      exact outside (List.mem_append_left _ (List.mem_append_right _ mem_start))
    rw [old a off, heapUnlink_other run (fun same => out (by simp [same]))]
    intro some same
    have inside : h.metaPrev scan.start ∈ front :=
      List.mem_of_getLast? (before.symm.trans (if_neg some))
    exact out (List.mem_append_left _ (same ▸ inside))
  · simp [heapTake_eq, Heap.isMagical, Heap.metaSizeSet, Heap.magicSet, Heap.setChunk]
  · simp [heapTake_eq, Heap.metaSize, Heap.metaSizeSet, Heap.magicSet, Heap.setChunk]

end

/-! ## The call -/

/-- A call of `heap_alloc` found a block: its chunks left the list, which may have grown before. -/
structure Allocated (h : Heap) (l : List Nat) (size start : Nat) (h' : Heap) (l' : List Nat)
    (n : Nat) : Prop where
  list : FreeList h' l'
  taken : ∃ new front rest, h.pages = new ++ h'.pages ∧
    l ++ new.flatMap pageChunks = front ++ heapChunks start (n + 1) ++ rest ∧ l' = front ++ rest
  enough : size ≤ 16 + 32 * n
  magic : h'.isMagical start
  metaSize : h'.metaSize start = 16 + 32 * n
  other : ∀ a, a ∉ l ++ h.pages.flatMap pageChunks → h'.mem a = h.mem a

/-- `heap_alloc(size)` finds `n + 1` chunks from `start` on among the chunks `l`, behind `front` and
    in front of `x`. -/
structure SearchFinds (size : Nat) (l front : List Nat) (start n x : Nat) (more : List Nat) :
    Prop where
  search : ∃ scan, heapAllocSearch size ⟨0, 0, 0, 0⟩ l = (scan, x :: more) ∧
    scan.start = start ∧ scan.totalSize = 16 + 32 * n
  split : l = front ++ heapChunks start (n + 1) ++ x :: more

/-- A search finds one run. -/
theorem SearchFinds.unique {size start start' n n' x x' : Nat} {l front front' more more' : List Nat}
    (finds : SearchFinds size l front start n x more)
    (finds' : SearchFinds size l front' start' n' x' more') : front = front' ∧ x = x' := by
  obtain ⟨⟨scan, search, rfl, total⟩, split⟩ := finds
  obtain ⟨⟨scan', search', rfl, total'⟩, split'⟩ := finds'
  rw [search] at search'
  obtain ⟨rfl, rest⟩ := Prod.mk.inj search'
  obtain ⟨rfl, rfl⟩ := List.cons.inj rest
  obtain rfl : n = n' := by omega
  rw [split, List.append_assoc, List.append_assoc] at split'
  exact ⟨List.append_cancel_right split', rfl⟩

/-- Every call of `heap_alloc` returns: `NULL`, where the list may have grown, or the block that a
    search over the list and the pages to come finds. -/
theorem heapAlloc_search {h : Heap} {l : List Nat} {size fuel : Nat} (room : Room h l)
    (some : 0 < size) (enough : l.length + 128 * h.pages.length < fuel) :
    (∃ h' l', heapAlloc fuel h size = .some (0, h') ∧ Grown h l h' l' ∧
      (heapAllocSearch size ⟨0, 0, 0, 0⟩ (l ++ h.pages.flatMap pageChunks)).2 = []) ∨
      ∃ start h' n front x rest, heapAlloc fuel h size = .some (start + 16, h') ∧
        Allocated h l size start h' (front ++ x :: rest) n ∧
        SearchFinds size (l ++ h.pages.flatMap pageChunks) front start n x
          (rest ++ h'.pages.flatMap pageChunks) ∧
        (l.Pairwise (· < ·) → (x :: rest).Pairwise (· < ·)) := by
  obtain ⟨l₁, grown, head, supplied⟩ := heapChunkNext_null room
  have room₁ := room.grown grown
  have length := grown.length
  have idle : Scanned [] ⟨(heapChunkNext h 0).1, 0, 0, 0⟩ :=
    ⟨fun _ => rfl, fun some => absurd rfl some⟩
  obtain ⟨h₂, scan, passed, rest, result, again, ⟨here, scanned, done⟩, supplied', search⟩ :=
    @heapAllocLoop_ends _ [] l₁ _ size fuel room₁ head supplied.dry idle (by omega)
  have total := grown.trans again
  have room₂ := room.grown total
  have searched : heapAllocSearch size ⟨0, 0, 0, 0⟩ (l ++ h.pages.flatMap pageChunks) =
      (scan, rest ++ h₂.pages.flatMap pageChunks) := by
    rw [← grown.chunks, ← search]
    exact (heapAllocSearch_cur ⟨0, 0, 0, 0⟩ (heapChunkNext h 0).1 _).symm
  by_cases none : scan.cur = 0
  · left
    obtain rfl : rest = [] := by
      rw [none, toPtr_zero] at here
      exact List.head?_eq_none_iff.mp here.symm
    refine ⟨h₂, _, ?_, total, ?_⟩
    · simp [heapAlloc, result, none]
    · rw [searched, supplied'.dry rfl]
      rfl
  · right
    have large : size ≤ scan.totalSize := done.resolve_left none
    have started : scan.start ≠ 0 := by
      intro zero
      have := scanned.idle zero
      omega
    obtain ⟨front, n, rfl, stop, size_eq⟩ := scanned.run started
    cases rest with
    | nil => exact absurd (toPtr_eq_none.mp here) none
    | cons x rest =>
        obtain ⟨list, pages, other, magic, metaSize⟩ := heapTake_list room₂.list
          (fun a mem => (room₂.isChunk mem).pos) stop
        obtain ⟨new, taken, split⟩ := total.pages
        refine ⟨scan.start, heapTake h₂ scan, n, front, x, rest, ?_, ⟨list, ?_, by omega, magic,
          by omega, ?_⟩, ⟨⟨scan, by rw [searched, pages]; rfl, rfl, size_eq⟩, ?_⟩, ?_⟩
        · simp [heapAlloc, result, none, Nat.not_lt.mpr large, heapChunkMetaSize, heapChunkSize,
            heapChunkDataSize]
        · exact ⟨new, front, x :: rest, by rw [pages, taken], split.symm, rfl⟩
        · intro a outside
          rw [← total.chunks] at outside
          have away := fun inside => outside (List.mem_append_left _ inside)
          rw [other a away, total.other a away]
        · rw [← total.chunks, pages, List.append_assoc, List.cons_append]
        · exact fun order => supplied'.order (supplied.order order)

/-- Every call of `heap_alloc` returns: `NULL`, where the list may have grown, or a block. -/
theorem heapAlloc_result {h : Heap} {l : List Nat} {size fuel : Nat} (room : Room h l)
    (some : 0 < size) (enough : l.length + 128 * h.pages.length < fuel) :
    (∃ h' l', heapAlloc fuel h size = .some (0, h') ∧ Grown h l h' l') ∨
      ∃ start h' l' n, heapAlloc fuel h size = .some (start + 16, h') ∧
        Allocated h l size start h' l' n := by
  obtain ⟨h', l', result, grown, -⟩ | ⟨start, h', n, front, x, rest, result, taken, -⟩ :=
    heapAlloc_search room some enough
  · exact .inl ⟨h', l', result, grown⟩
  · exact .inr ⟨start, h', _, n, result, taken⟩

theorem heapAllocLoop_mono {size fuel more : Nat} {h : Heap} {scan : HeapScan} {r : Heap × HeapScan}
    (result : heapAllocLoop size fuel h scan = some r) :
    heapAllocLoop size (fuel + more) h scan = some r := by
  induction fuel generalizing h scan with
  | zero => cases result
  | succ fuel ih =>
      rw [Nat.succ_add]
      rw [heapAllocLoop] at result ⊢
      split at result
      case isTrue go =>
        rw [if_pos go]
        exact ih result
      case isFalse stop =>
        rw [if_neg stop]
        exact result

/-- More fuel does not change what a call of `heap_alloc` returns. -/
theorem heapAlloc_mono {size fuel : Nat} (more : Nat) {h : Heap} {r : Nat × Heap}
    (result : heapAlloc fuel h size = some r) : heapAlloc (fuel + more) h size = some r := by
  simp only [heapAlloc, Option.bind_eq_bind, Option.bind_eq_some_iff] at result ⊢
  obtain ⟨found, loop, rest⟩ := result
  exact ⟨found, heapAllocLoop_mono loop, rest⟩

end Sdx.Mm
