import Sdx.Lib.LinkedList
import Sdx.Mm.Heap
import Mathlib.Data.List.Range

/-! # The free list of the heap

What each function of `heap.c` does to the free list, as a list of addresses: `__heap_extend`
appends the chunks of a page, `heap_alloc` takes a run of neighbours out, and `heap_free`
puts one in where its address belongs.
-/

namespace Sdx.Mm

open Sdx.Lib.LinkedList

/-! ## Pointers and fields -/

/-- The chunk a pointer points to, if it is not `NULL`. -/
def toPtr (x : Nat) : Option Nat := if x = 0 then none else some x

@[simp] theorem toPtr_zero : toPtr 0 = none := rfl

theorem toPtr_pos {x : Nat} (pos : 0 < x) : toPtr x = some x := if_neg (Nat.ne_of_gt pos)

@[simp] theorem toPtr_eq_none {x : Nat} : toPtr x = none ↔ x = 0 := by
  simp [toPtr]

theorem toPtr_eq_some {x y : Nat} : toPtr x = some y ↔ x = y ∧ 0 < y := by
  unfold toPtr
  split <;> grind

theorem toPtr_inj {x y : Nat} (same : toPtr x = toPtr y) : x = y := by
  unfold toPtr at same
  grind

namespace Heap

def next (h : Heap) (chunk : Nat) : Option Nat := toPtr (h.metaNext chunk)

def prev (h : Heap) (chunk : Nat) : Option Nat := toPtr (h.metaPrev chunk)

section

variable (h : Heap) (a b v : Nat)

@[simp] theorem metaNext_metaNextSet :
    (h.metaNextSet a v).metaNext = Function.update h.metaNext a v := by
  funext b
  by_cases same : b = a
  · subst same
    simp [metaNext, metaNextSet, setChunk]
  · simp [metaNext, metaNextSet, setChunk, same]

@[simp] theorem metaPrev_metaNextSet : (h.metaNextSet a v).metaPrev = h.metaPrev := by
  funext b
  by_cases same : b = a
  · subst same
    simp [metaPrev, metaNextSet, setChunk]
  · simp [metaPrev, metaNextSet, setChunk, same]

@[simp] theorem metaNext_metaPrevSet : (h.metaPrevSet a v).metaNext = h.metaNext := by
  funext b
  by_cases same : b = a
  · subst same
    simp [metaNext, metaPrevSet, setChunk]
  · simp [metaNext, metaPrevSet, setChunk, same]

@[simp] theorem metaPrev_metaPrevSet :
    (h.metaPrevSet a v).metaPrev = Function.update h.metaPrev a v := by
  funext b
  by_cases same : b = a
  · subst same
    simp [metaPrev, metaPrevSet, setChunk]
  · simp [metaPrev, metaPrevSet, setChunk, same]

@[simp] theorem metaNext_dataClear : (h.dataClear a).metaNext = h.metaNext := by
  funext b
  by_cases same : b = a
  · subst same
    simp [metaNext, dataClear, setChunk]
  · simp [metaNext, dataClear, setChunk, same]

@[simp] theorem metaPrev_dataClear : (h.dataClear a).metaPrev = h.metaPrev := by
  funext b
  by_cases same : b = a
  · subst same
    simp [metaPrev, dataClear, setChunk]
  · simp [metaPrev, dataClear, setChunk, same]

@[simp] theorem metaNext_mk (first last : Nat) (pages : List Nat) :
    (Heap.mk h.mem first last pages).metaNext = h.metaNext := rfl

@[simp] theorem metaPrev_mk (first last : Nat) (pages : List Nat) :
    (Heap.mk h.mem first last pages).metaPrev = h.metaPrev := rfl

@[simp] theorem first_metaNextSet : (h.metaNextSet a v).first = h.first := rfl
@[simp] theorem last_metaNextSet : (h.metaNextSet a v).last = h.last := rfl
@[simp] theorem pages_metaNextSet : (h.metaNextSet a v).pages = h.pages := rfl
@[simp] theorem first_metaPrevSet : (h.metaPrevSet a v).first = h.first := rfl
@[simp] theorem last_metaPrevSet : (h.metaPrevSet a v).last = h.last := rfl
@[simp] theorem pages_metaPrevSet : (h.metaPrevSet a v).pages = h.pages := rfl

variable {a b}

@[simp] theorem mem_setChunk (value : HeapChunk) (off : b ≠ a) :
    (h.setChunk a value).mem b = h.mem b := Function.update_of_ne off ..

@[simp] theorem mem_metaNextSet (off : b ≠ a) : (h.metaNextSet a v).mem b = h.mem b :=
  h.mem_setChunk _ off

@[simp] theorem mem_metaPrevSet (off : b ≠ a) : (h.metaPrevSet a v).mem b = h.mem b :=
  h.mem_setChunk _ off

@[simp] theorem mem_magicSet (off : b ≠ a) : (h.magicSet a).mem b = h.mem b := h.mem_setChunk _ off

@[simp] theorem mem_metaSizeSet (off : b ≠ a) : (h.metaSizeSet a v).mem b = h.mem b :=
  h.mem_setChunk _ off

@[simp] theorem mem_dataClear (off : b ≠ a) : (h.dataClear a).mem b = h.mem b :=
  h.mem_setChunk _ off

/-- Two heaps with the same globals. -/
def SameGlobals (h h' : Heap) : Prop := h'.first = h.first ∧ h'.last = h.last ∧ h'.pages = h.pages

end

end Heap

/-! ## Runs of chunks -/

/-- `n` neighbours from `start` on. -/
def heapChunks (start n : Nat) : List Nat := List.range' start n heapChunkSize

section

variable {s n a : Nat}

theorem mem_heapChunks : a ∈ heapChunks s n ↔ ∃ j, j < n ∧ a = s + 32 * j := List.mem_range'

theorem heapChunks_succ : heapChunks s (n + 1) = s :: heapChunks (s + 32) n := rfl

theorem heapChunks_concat : heapChunks s (n + 1) = heapChunks s n ++ [s + 32 * n] :=
  List.range'_concat

theorem sorted_heapChunks : (heapChunks s n).Pairwise (· < ·) :=
  List.pairwise_lt_range' heapChunkSize (by decide)

theorem head?_heapChunks (pos : 0 < n) : (heapChunks s n).head? = some s := by
  cases n with
  | zero => omega
  | succ n => rfl

theorem getLast?_heapChunks (pos : 0 < n) : (heapChunks s n).getLast? = some (s + 32 * (n - 1)) := by
  cases n with
  | zero => omega
  | succ n => rw [heapChunks_concat, List.getLast?_concat, Nat.add_sub_cancel]

/-- Chunks that are linked one to the next. -/
theorem seg_heapChunks {next prev : Nat → Option Nat} {p q : Option Nat}
    (inner : ∀ j, j + 1 < n → next (s + 32 * j) = some (s + 32 * (j + 1)) ∧
      prev (s + 32 * (j + 1)) = some (s + 32 * j))
    (first : 0 < n → prev s = p) (last : ∀ j, j + 1 = n → next (s + 32 * j) = q) :
    Seg next prev p (heapChunks s n) q := by
  induction n generalizing s p with
  | zero => trivial
  | succ n ih =>
      have shift (j : Nat) : s + 32 * (j + 1) = s + 32 + 32 * j := by omega
      refine ⟨first (Nat.succ_pos n), ?_, ih (fun j lt => ?_) (fun pos => ?_) (fun j eq => ?_)⟩
      · cases n with
        | zero => exact last 0 rfl
        | succ n => exact (inner 0 (by omega)).1
      · have here := inner (j + 1) (by omega)
        rwa [shift, shift] at here
      · exact (inner 0 (by omega)).2
      · have here := last (j + 1) (by omega)
        rwa [shift] at here

end

/-! ## Loops that link a run -/

/-- A loop body that links the chunk `cur` to its neighbours. -/
structure LinksChunk (body : Heap → Heap) (cur : Nat) : Prop where
  next : ∀ h, (body h).metaNext cur = cur + 32
  prev : ∀ h, (body h).metaPrev cur = cur - 32
  other : ∀ h a, a ≠ cur → (body h).mem a = h.mem a
  globals : ∀ h : Heap, h.SameGlobals (body h)

/-- The chunks behind the first one of a run, each linked by the body. -/
theorem foldl_links {body : Nat → Heap → Heap} {s n : Nat}
    (links : ∀ a ∈ heapChunks s n, LinksChunk (body a) a) (h : Heap) :
    (∀ j, j < n →
      ((heapChunks s n).foldl (fun h a => body a h) h).metaNext (s + 32 * j) = s + 32 * (j + 1) ∧
      ((heapChunks s n).foldl (fun h a => body a h) h).metaPrev (s + 32 * j) = s + 32 * j - 32) ∧
    (∀ a, a ∉ heapChunks s n →
      ((heapChunks s n).foldl (fun h a => body a h) h).mem a = h.mem a) ∧
    h.SameGlobals ((heapChunks s n).foldl (fun h a => body a h) h) := by
  induction n generalizing h s with
  | zero => exact ⟨nofun, fun _ _ => rfl, rfl, rfl, rfl⟩
  | succ n ih =>
      have off : s ∉ heapChunks (s + 32) n := by
        rw [mem_heapChunks]
        omega
      rw [heapChunks_succ, List.foldl_cons]
      have tail : ∀ a ∈ heapChunks (s + 32) n, LinksChunk (body a) a :=
        fun a inside => links a (List.mem_cons_of_mem _ inside)
      obtain ⟨inner, other, same⟩ := ih tail (body s h)
      obtain ⟨next, prev, elsewhere, globals⟩ := links s List.mem_cons_self
      refine ⟨fun j lt => ?_, fun a outside => ?_, same.1.trans (globals h).1,
        same.2.1.trans (globals h).2.1, same.2.2.trans (globals h).2.2⟩
      · cases j with
        | zero =>
            simp only [Heap.metaNext, Heap.metaPrev, Nat.mul_zero, Nat.add_zero, other s off]
            exact ⟨next h, prev h⟩
        | succ j =>
            rw [show s + 32 * (j + 1) = s + 32 + 32 * j by omega]
            obtain ⟨next, prev⟩ := inner j (by omega)
            exact ⟨by omega, prev⟩
      · obtain ⟨away, outside⟩ := not_or.mp (mt List.mem_cons.mpr outside)
        rw [other a outside, elsewhere h a away]

/-- What the loops over a run leave behind: the chunks are linked to each other. -/
structure LinksRun (h h' : Heap) (start n : Nat) : Prop where
  next : ∀ j, j < n → h'.metaNext (start + 32 * j) = start + 32 * (j + 1)
  prev : ∀ j, j + 1 < n → h'.metaPrev (start + 32 * (j + 1)) = start + 32 * j
  first : h'.metaPrev start = h.metaPrev start
  other : ∀ a, a ∉ heapChunks start n → h'.mem a = h.mem a
  globals : h.SameGlobals h'

/-- The first chunk of a run is linked forwards only. -/
theorem LinksRun.of_foldl {body : Nat → Heap → Heap} {s n : Nat} {h h₁ : Heap}
    (links : ∀ a ∈ heapChunks (s + 32) n, LinksChunk (body a) a)
    (next : h₁.metaNext s = s + 32) (prev : h₁.metaPrev s = h.metaPrev s)
    (other : ∀ a, a ≠ s → h₁.mem a = h.mem a) (globals : h.SameGlobals h₁) :
    LinksRun h ((heapChunks (s + 32) n).foldl (fun h a => body a h) h₁) s (n + 1) := by
  have off : s ∉ heapChunks (s + 32) n := by
    rw [mem_heapChunks]
    omega
  obtain ⟨inner, elsewhere, same⟩ := foldl_links links h₁
  refine ⟨fun j lt => ?_, fun j lt => ?_, ?_, fun a outside => ?_, same.1.trans globals.1,
    same.2.1.trans globals.2.1, same.2.2.trans globals.2.2⟩
  · cases j with
    | zero =>
        simp only [Heap.metaNext, Nat.mul_zero, Nat.add_zero, elsewhere s off]
        exact next
    | succ j =>
        have here := (inner j (by omega)).1
        rw [show s + 32 * (j + 1) = s + 32 + 32 * j by omega]
        omega
  · have here := (inner j (by omega)).2
    rw [show s + 32 * (j + 1) = s + 32 + 32 * j by omega]
    omega
  · simp only [Heap.metaPrev, elsewhere s off]
    exact prev
  · obtain ⟨away, outside⟩ := not_or.mp (mt List.mem_cons.mpr outside)
    rw [elsewhere a outside, other a away]

/-- The body of the loop of `__heap_extend` behind the first chunk. -/
def heapExtendBody (cur : Nat) (h : Heap) : Heap :=
  ((h.dataClear cur).metaPrevSet cur (cur - 32)).metaNextSet cur (cur + 32)

theorem heapExtendBody_links (cur : Nat) : LinksChunk (heapExtendBody cur) cur where
  next h := by simp [heapExtendBody]
  prev h := by simp [heapExtendBody]
  other h a off := by simp [heapExtendBody, off]
  globals _ := ⟨rfl, rfl, rfl⟩

theorem heapExtendLoop_eq (h : Heap) (cur : Nat) {i : Nat} (later : 0 < i) (count : Nat) :
    heapExtendLoop h cur i count =
      ((heapChunks cur count).foldl (fun h a => heapExtendBody a h) h, cur + 32 * count) := by
  induction count generalizing h cur i with
  | zero => rfl
  | succ count ih =>
      rw [heapExtendLoop]
      simp only [heapChunkSize, if_pos (Nat.ne_of_gt later)]
      rw [ih _ _ (Nat.succ_pos i), heapChunks_succ, List.foldl_cons, heapExtendBody]
      congr 1
      omega

theorem heapExtendLoop_links (h : Heap) (cur count : Nat) :
    LinksRun h (heapExtendLoop h cur 0 (count + 1)).1 cur (count + 1) ∧
      (heapExtendLoop h cur 0 (count + 1)).2 = cur + 32 * (count + 1) := by
  rw [heapExtendLoop]
  simp only [ne_eq, not_true, if_false, heapChunkSize]
  rw [heapExtendLoop_eq _ _ (Nat.succ_pos 0)]
  refine ⟨.of_foldl (fun a _ => heapExtendBody_links a) (by simp) (by simp) (fun a off => ?_)
    ⟨rfl, rfl, rfl⟩, by omega⟩
  simp [off]

/-- The body of the loop of `heap_free` that links the block, behind its first chunk. -/
def heapLinkBody (cur : Nat) (h : Heap) : Heap :=
  (h.metaPrevSet cur (cur - 32)).metaNextSet cur (cur + 32)

theorem heapLinkBody_links (cur : Nat) : LinksChunk (heapLinkBody cur) cur where
  next h := by simp [heapLinkBody]
  prev h := by simp [heapLinkBody]
  other h a off := by simp [heapLinkBody, off]
  globals _ := ⟨rfl, rfl, rfl⟩

theorem heapLinkLoop_eq (h : Heap) {start cur : Nat} (behind : start < cur) (count : Nat) :
    heapLinkLoop h start cur count =
      (heapChunks cur count).foldl (fun h a => heapLinkBody a h) h := by
  induction count generalizing h cur with
  | zero => rfl
  | succ count ih =>
      rw [heapLinkLoop]
      simp only [heapChunkSize, if_pos (Nat.ne_of_gt behind)]
      rw [ih _ (by omega), heapChunks_succ, List.foldl_cons, heapLinkBody]

theorem heapLinkLoop_links (h : Heap) (start count : Nat) :
    LinksRun h (heapLinkLoop h start start (count + 1)) start (count + 1) := by
  rw [heapLinkLoop]
  simp only [ne_eq, not_true, if_false, heapChunkSize]
  rw [heapLinkLoop_eq _ (by omega)]
  refine .of_foldl (fun a _ => heapLinkBody_links a) (by simp) (by simp) (fun a off => ?_)
    ⟨rfl, rfl, rfl⟩
  simp [off]

/-! ## The free list -/

/-- `l` is the free list: linked both ways, from one global to the other. -/
structure FreeList (h : Heap) (l : List Nat) : Prop where
  seg : Seg h.next h.prev none l none
  first : toPtr h.first = l.head?
  last : toPtr h.last = l.getLast?

/-- The chunks of a page. -/
def pageChunks (page : Nat) : List Nat := heapChunks page heapChunkPerPage

/-- The list grew by the chunks of the pages that `vmm_map` returned meanwhile. -/
structure Grown (h : Heap) (l : List Nat) (h' : Heap) (l' : List Nat) : Prop where
  list : FreeList h' l'
  pages : ∃ new, h.pages = new ++ h'.pages ∧ l' = l ++ new.flatMap pageChunks
  other : ∀ a, a ∉ l' → h'.mem a = h.mem a

section

variable {h h' h'' : Heap} {l l' l'' : List Nat}

namespace FreeList

theorem nodup (list : FreeList h l) : l.Nodup := list.seg.walk_next.nodup

theorem first_pos (list : FreeList h l) (some : l ≠ []) : h.first ≠ 0 := by
  intro zero
  have first := list.first
  rw [zero, toPtr_zero] at first
  exact some (List.head?_eq_none_iff.mp first.symm)

theorem last_pos (list : FreeList h l) (some : l ≠ []) : h.last ≠ 0 := by
  intro zero
  have last := list.last
  rw [zero, toPtr_zero] at last
  exact some (List.getLast?_eq_none_iff.mp last.symm)

theorem last_mem (list : FreeList h l) (some : h.last ≠ 0) : h.last ∈ l := by
  apply List.mem_of_getLast?
  rw [← list.last, toPtr, if_neg some]

theorem next_eq {l₁ l₂ : List Nat} {x : Nat} (list : FreeList h (l₁ ++ x :: l₂)) :
    toPtr (h.metaNext x) = l₂.head? := by
  have here := (Seg.append.mp list.seg).2.2.1
  rwa [Option.or_none] at here

theorem prev_eq {l₁ l₂ : List Nat} {x : Nat} (list : FreeList h (l₁ ++ x :: l₂)) :
    toPtr (h.metaPrev x) = l₁.getLast? := by
  have here := (Seg.append.mp list.seg).2.1
  rwa [Option.or_none] at here

theorem pos (list : FreeList h l) {x : Nat} (mem : x ∈ l) : 0 < x := by
  obtain ⟨l₁, l₂, rfl⟩ := List.append_of_mem mem
  cases l₁ using List.reverseRecOn with
  | nil => exact (toPtr_eq_some.mp list.first).2
  | append_singleton l₁ y =>
      rw [List.append_assoc, List.singleton_append] at list
      exact (toPtr_eq_some.mp list.next_eq).2

/-- What is written outside of the list leaves it as it is. -/
theorem congr (list : FreeList h l) (same : ∀ a ∈ l, h'.mem a = h.mem a)
    (first : h'.first = h.first) (last : h'.last = h.last) : FreeList h' l := by
  refine ⟨list.seg.congr fun a mem => ?_, first ▸ list.first, last ▸ list.last⟩
  simp only [Heap.next, Heap.prev, Heap.metaNext, Heap.metaPrev, same a mem, and_self]

theorem empty (list : FreeList h []) : h.first = 0 ∧ h.last = 0 :=
  ⟨toPtr_eq_none.mp list.first, toPtr_eq_none.mp list.last⟩

end FreeList

theorem Grown.refl (list : FreeList h l) : Grown h l h l :=
  ⟨list, ⟨[], rfl, by simp⟩, fun _ _ => rfl⟩

theorem Grown.trans (grown : Grown h l h' l') (again : Grown h' l' h'' l'') : Grown h l h'' l'' := by
  obtain ⟨new, taken, rfl⟩ := grown.pages
  obtain ⟨new', taken', rfl⟩ := again.pages
  refine ⟨again.list, ⟨new ++ new', ?_, ?_⟩, fun a outside => ?_⟩
  · rw [taken, taken', List.append_assoc]
  · rw [List.flatMap_append, List.append_assoc]
  · rw [again.other a outside]
    exact grown.other a (fun inside => outside (List.mem_append_left _ inside))

/-- The chunks of the list and of the pages to come are the same before and after. -/
theorem Grown.chunks (grown : Grown h l h' l') :
    l' ++ h'.pages.flatMap pageChunks = l ++ h.pages.flatMap pageChunks := by
  obtain ⟨new, taken, rfl⟩ := grown.pages
  rw [taken, List.flatMap_append, List.append_assoc]

end

/-! ## Extending -/

/-- What `__heap_extend` does in front of its loop. -/
def heapAttach (h : Heap) (page : Nat) (rest : List Nat) : Heap :=
  let h := { h with pages := rest }
  let h := if h.first = 0 then { h with first := page } else h
  let h := if h.last ≠ 0 then h.metaNextSet h.last page else h
  h.metaPrevSet page h.last

/-- What `__heap_extend` does to the heap. -/
structure Extends (h h' : Heap) (page : Nat) (rest : List Nat) : Prop where
  next : ∀ j, j < 127 → h'.metaNext (page + 32 * j) = page + 32 * (j + 1)
  prev : ∀ j, j < 127 → h'.metaPrev (page + 32 * (j + 1)) = page + 32 * j
  front : h'.metaPrev page = h.last
  back : h'.metaNext (page + 32 * 127) = 0
  attach : h.last ≠ 0 → h.last ∉ pageChunks page → h'.metaNext h.last = page ∧
    h'.metaPrev h.last = h.metaPrev h.last
  other : ∀ a, a ∉ pageChunks page → (h.last ≠ 0 → a ≠ h.last) → h'.mem a = h.mem a
  first : h'.first = if h.first = 0 then page else h.first
  last : h'.last = page + 32 * 127
  pages : h'.pages = rest

section

variable {h : Heap} {l rest : List Nat} {page : Nat}

theorem heapExtend_nil (none : h.pages = []) : (heapExtend h).2 = h := by
  simp [heapExtend, none]

theorem heapExtend_cons (some : h.pages = page :: rest) :
    (heapExtend h).2 =
      let (h, cur) := heapExtendLoop (heapAttach h page rest) page 0 heapChunkPerPage
      { h.metaNextSet (cur - heapChunkSize) 0 with last := cur - heapChunkSize } := by
  have later (h : Heap) (x : Nat) :
      Heap.metaNextSet { h with last := x } x 0 = { h.metaNextSet x 0 with last := x } := rfl
  simp only [heapExtend, heapAttach, some, later]

theorem heapAttach_next (a : Nat) : (heapAttach h page rest).metaNext a =
    if h.last ≠ 0 ∧ a = h.last then page else h.metaNext a := by
  by_cases first : h.first = 0 <;> by_cases last : h.last = 0 <;>
    simp [heapAttach, first, last, Function.update_apply]

theorem heapAttach_prev (a : Nat) : (heapAttach h page rest).metaPrev a =
    if a = page then h.last else h.metaPrev a := by
  by_cases first : h.first = 0 <;> by_cases last : h.last = 0 <;>
    simp [heapAttach, first, last, Function.update_apply]

theorem heapAttach_globals :
    (heapAttach h page rest).first = (if h.first = 0 then page else h.first) ∧
      (heapAttach h page rest).pages = rest := by
  by_cases first : h.first = 0 <;> by_cases last : h.last = 0 <;> simp [heapAttach, first, last]

theorem heapAttach_other {a : Nat} (off : a ≠ page) (away : h.last ≠ 0 → a ≠ h.last) :
    (heapAttach h page rest).mem a = h.mem a := by
  by_cases first : h.first = 0 <;> by_cases last : h.last = 0 <;>
    simp_all [heapAttach]

theorem mem_pageChunks {a : Nat} : a ∈ pageChunks page ↔ ∃ j, j < 128 ∧ a = page + 32 * j :=
  mem_heapChunks

theorem heapExtend_extends (some : h.pages = page :: rest) :
    Extends h (heapExtend h).2 page rest := by
  obtain ⟨first, pages⟩ := @heapAttach_globals h rest page
  obtain ⟨run, stop⟩ := heapExtendLoop_links (heapAttach h page rest) page 127
  obtain ⟨globals₁, -, globals₃⟩ := run.globals
  have self : page ∈ pageChunks page := mem_pageChunks.mpr ⟨0, by decide, rfl⟩
  have tail : page + 32 * 127 ∈ pageChunks page := mem_pageChunks.mpr ⟨127, by decide, rfl⟩
  rw [heapExtend_cons some]
  simp only [heapChunkPerPage, pageSize, heapChunkSize, show 4096 / 32 = 127 + 1 from rfl, stop,
    show page + 32 * (127 + 1) - 32 = page + 32 * 127 by omega]
  generalize (heapExtendLoop (heapAttach h page rest) page 0 (127 + 1)).1 = h₂ at *
  have old : ∀ a, a ∉ pageChunks page → h₂.mem a = (heapAttach h page rest).mem a := run.other
  have next (a : Nat) : Heap.metaNext { h₂.metaNextSet (page + 32 * 127) 0 with
      last := page + 32 * 127 } a = if a = page + 32 * 127 then 0 else h₂.metaNext a := by
    rw [← Function.update_apply, ← Heap.metaNext_metaNextSet]
    rfl
  have prev (a : Nat) : Heap.metaPrev { h₂.metaNextSet (page + 32 * 127) 0 with
      last := page + 32 * 127 } a = h₂.metaPrev a :=
    congrFun (Heap.metaPrev_metaNextSet ..) a
  constructor
  case next =>
    intro j lt
    rw [next, if_neg (by omega), run.next j (by omega)]
  case prev =>
    intro j lt
    rw [prev, run.prev j (by omega)]
  case front => rw [prev, run.first, heapAttach_prev, if_pos rfl]
  case back => rw [next, if_pos rfl]
  case attach =>
    intro some outside
    have off : h.last ≠ page := by
      intro same
      exact outside (same ▸ self)
    have here : h.last ≠ page + 32 * 127 := by
      intro same
      exact outside (same ▸ tail)
    rw [next, if_neg here, prev, Heap.metaNext, Heap.metaPrev, old _ outside, ← Heap.metaNext,
      ← Heap.metaPrev, heapAttach_next, heapAttach_prev, if_pos ⟨some, rfl⟩, if_neg off]
    exact ⟨rfl, rfl⟩
  case other =>
    intro a outside away
    have off : a ≠ page := fun same => outside (same ▸ self)
    have here : a ≠ page + 32 * 127 := fun same => outside (same ▸ tail)
    exact ((h₂.mem_metaNextSet 0 here).trans (old a outside)).trans (heapAttach_other off away)
  case first => exact globals₁.trans first
  case last => rfl
  case pages => exact globals₃.trans pages

/-- `__heap_extend` with a page to come. -/
theorem heapExtend_grown (list : FreeList h l) (some : h.pages = page :: rest) (pos : 0 < page)
    (apart : ∀ a ∈ pageChunks page, a ∉ l) :
    Grown h l (heapExtend h).2 (l ++ pageChunks page) := by
  have ext := heapExtend_extends some
  generalize (heapExtend h).2 = h' at *
  have is_last : ∀ x, l.getLast? = .some x → x = h.last ∧ h.last ≠ 0 := by
    intro x eq
    obtain ⟨rfl, pos⟩ := toPtr_eq_some.mp (list.last.trans eq)
    exact ⟨rfl, Nat.ne_of_gt pos⟩
  have old : ∀ x ∈ l, x ≠ h.last → h'.mem x = h.mem x :=
    fun x mem away => ext.other x (fun new => apart x new mem) (fun _ => away)
  have attach : ∀ x ∈ l, x = h.last → h'.metaNext x = page ∧ h'.metaPrev x = h.metaPrev x := by
    rintro x mem rfl
    exact ext.attach (list.last_pos (List.ne_nil_of_mem mem)) (fun new => apart _ new mem)
  have head? : (pageChunks page).head? = .some page := head?_heapChunks (by decide)
  have getLast? : (pageChunks page).getLast? = .some (page + 32 * 127) :=
    getLast?_heapChunks (by decide)
  refine ⟨⟨Seg.append.mpr ⟨?_, ?_⟩, ?_, ?_⟩, ⟨[page], ?_, ?_⟩, ?_⟩
  · have prev : ∀ x ∈ l, h'.prev x = h.prev x := by
      intro x mem
      by_cases same : x = h.last
      · rw [Heap.prev, (attach x mem same).2, Heap.prev]
      · rw [Heap.prev, Heap.metaPrev, old x mem same, ← Heap.metaPrev, Heap.prev]
    refine list.seg.rewire list.nodup (fun x mem inner => ?_) (fun x eq => ?_)
      (fun x mem _ => prev x mem) (fun x eq => ?_)
    · have same : x ≠ h.last := by
        rintro rfl
        exact inner (by rw [← list.last, toPtr, if_neg (list.last_pos (List.ne_nil_of_mem mem))])
      rw [Heap.next, Heap.metaNext, old x mem same, ← Heap.metaNext, Heap.next]
    · rw [Heap.next, (attach x (List.mem_of_getLast? eq) (is_last x eq).1).1, toPtr_pos pos, head?,
        Option.some_or]
    · have mem := List.mem_of_head? eq
      rw [prev x mem]
      exact list.seg.head_prev eq
  · have chunks : pageChunks page = heapChunks page 128 := rfl
    rw [chunks]
    refine seg_heapChunks (fun j lt => ?_) (fun _ => ?_) (fun j eq => ?_)
    · simp only [Heap.next, Heap.prev, ext.next j (by omega), ext.prev j (by omega)]
      exact ⟨rfl.trans (toPtr_pos (by omega)), toPtr_pos (by omega)⟩
    · rw [Heap.prev, ext.front, list.last, Option.or_none]
    · obtain rfl : j = 127 := by omega
      rw [Heap.next, ext.back, toPtr_zero]
  · rw [ext.first, List.head?_append, head?, ← list.first]
    by_cases zero : h.first = 0
    · simp [zero, toPtr_pos pos]
    · simp [zero, toPtr]
  · rw [ext.last, List.getLast?_append, getLast?, Option.some_or]
    exact toPtr_pos (by omega)
  · rw [some, ext.pages, List.singleton_append]
  · rw [List.flatMap_singleton]
  · intro a outside
    obtain ⟨away, outside⟩ := not_or.mp (mt List.mem_append.mpr outside)
    refine ext.other a outside (fun some same => away ?_)
    exact same ▸ list.last_mem some

end

end Sdx.Mm
