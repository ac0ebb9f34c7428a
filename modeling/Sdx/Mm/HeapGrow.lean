import Sdx.Lib.Fuel
import Sdx.Mm.HeapConservation

/-! # Growing a block of the heap in place

The loop of `heap_realloc` looks for the chunks behind the block in the free list. They come one
after the other there when the list is in order. Then they leave the list, but the globals are
compared with the wrong ends of the run: a run of several chunks at an end of the list stays there.
-/

namespace Sdx.Mm

open Sdx.Lib Sdx.Lib.LinkedList

namespace HeapBlock

/-- The first chunk behind the block. -/
def behind (b : HeapBlock) : Nat := b.start + heapChunkSize * (b.more + 1)

/-- How many chunks the block lacks to hold `size` bytes. -/
def lacks (b : HeapBlock) (size : Nat) : Nat :=
  (size - b.size + (heapChunkSize - 1)) / heapChunkSize

/-- The chunks behind the block that it takes to hold `size` bytes. -/
def growth (b : HeapBlock) (size : Nat) : List Nat := heapChunks b.behind (b.lacks size)

end HeapBlock

/-! ## The loop -/

/-- What the loop of `heap_realloc` has found when it took `k` chunks. -/
structure Grew (grow : HeapGrow) (k : Nat) (grow' : HeapGrow) : Prop where
  start : grow'.reallocStart =
    if k = 0 ∨ grow.reallocStart ≠ 0 then grow.reallocStart else grow.reallocEnd + 32
  stop : grow'.reallocEnd = grow.reallocEnd + 32 * k
  total : grow'.totalSize = grow.totalSize + 32 * k

section

variable {h : Heap} {l : List Nat} {size k : Nat} {grow : HeapGrow}

theorem heapReallocLoop_stops (done : ¬ (size > grow.totalSize ∧ grow.cur ≠ 0)) :
    Returns (fun fuel => heapReallocLoop size h fuel grow) grow :=
  .step (fun _ => by rw [heapReallocLoop, if_neg done]) (.const grow)

/-- The loop takes the chunks that are lacking, if they come one after the other in the list. -/
theorem heapReallocLoop_list (walk : Walk h.next (toPtr grow.cur) l) (fits : ∀ a ∈ l, a < 2 ^ 64)
    (below : grow.totalSize + 16 ≤ grow.reallocEnd)
    (need : k = (size - grow.totalSize + 31) / 32) :
    ∃ grow', Returns (fun fuel => heapReallocLoop size h fuel grow) grow' ∧
      ((heapChunks (grow.reallocEnd + 32) k).Sublist l → Grew grow k grow') ∧
      (¬ (heapChunks (grow.reallocEnd + 32) k).Sublist l → grow'.totalSize < size) := by
  induction l generalizing grow k with
  | nil =>
      have none := toPtr_eq_none.mp walk.head_eq
      refine ⟨grow, heapReallocLoop_stops (fun go => go.2 none), fun sub => ?_, fun off => ?_⟩
      · cases k with
        | zero => exact ⟨by simp, rfl, rfl⟩
        | succ k => cases sub
      · cases k with
        | zero => exact absurd (List.nil_sublist []) off
        | succ k => omega
  | cons x l ih =>
      obtain ⟨rfl, pos⟩ := toPtr_eq_some.mp walk.head_eq
      rw [toPtr_pos pos] at walk
      cases k with
      | zero =>
          refine ⟨grow, heapReallocLoop_stops (by omega), fun _ => ⟨by simp, rfl, rfl⟩, fun off => ?_⟩
          exact absurd (List.nil_sublist _) off
      | succ k =>
          have go : size > grow.totalSize ∧ grow.cur ≠ 0 := by omega
          have here := fits grow.cur List.mem_cons_self
          have fits' : ∀ a ∈ l, a < 2 ^ 64 := fun a mem => fits a (by simp [mem])
          by_cases next : grow.reallocEnd + 32 = grow.cur
          · have total : wrap64 (grow.totalSize + 32) = grow.totalSize + 32 :=
              wrap64_of_lt (by omega)
            obtain ⟨grow', returns, grew, off⟩ := @ih k ⟨h.metaNext grow.cur,
              if grow.reallocStart = 0 then grow.cur else grow.reallocStart, grow.cur,
              grow.totalSize + 32⟩ walk.tail fits' (by simp only; omega) (by simp only; omega)
            rw [heapChunks_succ, next, List.cons_sublist_cons]
            refine ⟨grow', .step (fun fuel => ?_) returns, fun sub => ?_, off⟩
            · rw [heapReallocLoop, if_pos go]
              simp only [heapChunkSize, next, total, ne_eq, not_true, if_false]
            · obtain ⟨start, stop, size_eq⟩ := grew sub
              simp only at start stop size_eq
              refine ⟨?_, by omega, by omega⟩
              rw [start, next]
              by_cases idle : grow.reallocStart = 0 <;> simp [idle, go.2]
          · obtain ⟨grow', returns, grew, off⟩ := @ih (k + 1)
              { grow with cur := h.metaNext grow.cur } walk.tail fits' below need
            have same : (heapChunks (grow.reallocEnd + 32) (k + 1)).Sublist (grow.cur :: l) ↔
                (heapChunks (grow.reallocEnd + 32) (k + 1)).Sublist l := by
              refine ⟨fun sub => ?_, fun sub => sub.cons _⟩
              obtain sub | ⟨r, eq, -⟩ := List.sublist_cons_iff.mp sub
              · exact sub
              · exact absurd (List.cons.inj eq).1 next
            rw [same]
            refine ⟨grow', .step (fun fuel => ?_) returns, fun sub => ?_, off⟩
            · rw [heapReallocLoop, if_pos go]
              simp only [heapChunkSize, next, ne_eq, not_false_eq_true, if_true]
            · obtain ⟨start, stop, size_eq⟩ := grew sub
              exact ⟨start, stop, size_eq⟩

end

/-! ## Growing in place -/

theorem heapChunks_add (s n k : Nat) :
    heapChunks s (n + k) = heapChunks s n ++ heapChunks (s + 32 * n) k := by
  induction n generalizing s with
  | zero => rw [Nat.zero_add]; rfl
  | succ n ih =>
      rw [Nat.succ_add, heapChunks_succ, ih, heapChunks_succ, List.cons_append,
        show s + 32 + 32 * n = s + 32 * (n + 1) by omega]

/-- In a list that is in order neighbours are next to each other. -/
theorem split_of_sublist {l : List Nat} {s k : Nat} (order : l.Pairwise (· < ·))
    (aligned : ∀ a ∈ l, 32 ∣ a) (sub : (heapChunks s k).Sublist l) :
    ∃ front rest, l = front ++ heapChunks s k ++ rest := by
  induction l generalizing s k with
  | nil => exact ⟨[], [], by rw [List.sublist_nil.mp sub]; rfl⟩
  | cons y l ih =>
      obtain ⟨above, order'⟩ := List.pairwise_cons.mp order
      have aligned' : ∀ a ∈ l, 32 ∣ a := fun a mem => aligned a (List.mem_cons_of_mem _ mem)
      cases k with
      | zero => exact ⟨[], y :: l, rfl⟩
      | succ k =>
          rw [heapChunks_succ] at sub ⊢
          obtain sub | ⟨r, eq, sub⟩ := List.sublist_cons_iff.mp sub
          · rw [← heapChunks_succ] at sub ⊢
            obtain ⟨front, rest, split⟩ := ih order' aligned' sub
            exact ⟨y :: front, rest, by rw [split]; rfl⟩
          · obtain ⟨rfl, rfl⟩ := List.cons.inj eq
            obtain ⟨front, rest, split⟩ := ih order' aligned' sub
            cases front with
            | nil => exact ⟨[], rest, by rw [split]; rfl⟩
            | cons z front =>
                cases k with
                | zero => exact ⟨[], l, rfl⟩
                | succ k =>
                    -- nothing lies between a chunk and its neighbour
                    have here := aligned s List.mem_cons_self
                    have z_mem : z ∈ l := by simp [split]
                    have there := aligned' z z_mem
                    have := above z z_mem
                    have before : z < s + 32 := by
                      rw [split, heapChunks_succ, List.cons_append, List.cons_append] at order'
                      exact (List.pairwise_cons.mp order').1 (s + 32) (by simp)
                    omega

/-- What is on the sides of the run from `start` to `stop` of the free list. -/
structure RunSides (h : Heap) (front : List Nat) (start stop : Nat) (rest : List Nat) : Prop where
  prev : toPtr (h.metaPrev start) = front.getLast?
  next : toPtr (h.metaNext stop) = rest.head?
  off_stop : h.metaPrev start ≠ stop
  off_start : h.metaNext stop ≠ start
  first : if front = [] then h.first = start else h.first ≠ stop ∧ toPtr h.first = front.head?
  last : if rest = [] then h.last = stop else h.last ≠ start ∧ toPtr h.last = rest.getLast?

theorem FreeList.runSides {h : Heap} {front rest : List Nat} {start m : Nat}
    (list : FreeList h (front ++ heapChunks start (m + 1) ++ rest)) :
    RunSides h front start (start + 32 * m) rest := by
  have mem_start : start ∈ heapChunks start (m + 1) := mem_heapChunks.mpr ⟨0, by omega, by omega⟩
  have mem_stop : start + 32 * m ∈ heapChunks start (m + 1) := mem_heapChunks.mpr ⟨m, by omega, rfl⟩
  obtain ⟨nodup, -, behind⟩ := List.nodup_append.mp list.nodup
  obtain ⟨-, -, ahead⟩ := List.nodup_append.mp nodup
  have start_pos : 0 < start := list.pos (by simp [mem_start])
  have prev := list.prev_run
  have next : toPtr (h.metaNext (start + 32 * m)) = rest.head? := by
    have list := list
    rw [heapChunks_concat, ← List.append_assoc, List.append_assoc, List.singleton_append] at list
    exact list.next_eq
  have first : toPtr h.first = (front ++ heapChunks start (m + 1) ++ rest).head? := list.first
  have last : toPtr h.last = (front ++ heapChunks start (m + 1) ++ rest).getLast? := list.last
  refine ⟨prev, next, fun same => ?_, fun same => ?_, ?_, ?_⟩
  · rw [same, toPtr_pos (by omega)] at prev
    exact ahead _ (List.mem_of_getLast? prev.symm) _ mem_stop rfl
  · rw [same, toPtr_pos start_pos] at next
    exact behind _ (List.mem_append_right _ mem_start) _ (List.mem_of_head? next.symm) rfl
  · cases front with
    | nil =>
        rw [List.nil_append, List.head?_append, head?_heapChunks (by omega), Option.some_or] at first
        simpa using (toPtr_eq_some.mp first).1
    | cons a front =>
        have here := (toPtr_eq_some.mp first).1
        rw [if_neg (List.cons_ne_nil a front)]
        exact ⟨fun same => ahead a List.mem_cons_self _ mem_stop (here ▸ same), first⟩
  · cases rest using List.reverseRecOn with
    | nil =>
        rw [List.append_nil, List.getLast?_append, getLast?_heapChunks (by omega),
          Option.some_or] at last
        simpa using (toPtr_eq_some.mp last).1
    | append_singleton rest a =>
        rw [← List.append_assoc, List.getLast?_concat] at last
        have here := (toPtr_eq_some.mp last).1
        rw [if_neg (by simp), List.getLast?_concat]
        refine ⟨fun same => ?_, last⟩
        exact behind _ (List.mem_append_right _ mem_start) a (by simp) (here ▸ same).symm

/-- What the end of `heap_realloc` does to the links: `p` and `x` are on the sides of the run. -/
theorem heapAbsorb_links {h : Heap} {grow : HeapGrow} {p x : Nat}
    (prev : h.metaPrev grow.reallocStart = p) (next : h.metaNext grow.reallocEnd = x)
    (front : p ≠ grow.reallocEnd) (back : x ≠ grow.reallocStart) :
    (∀ a, (heapAbsorb h grow).metaNext a = if p ≠ 0 ∧ a = p then x else h.metaNext a) ∧
    (∀ a, (heapAbsorb h grow).metaPrev a = if x ≠ 0 ∧ a = x then p else h.metaPrev a) ∧
    (∀ a, (p ≠ 0 → a ≠ p) → (x ≠ 0 → a ≠ x) → (heapAbsorb h grow).mem a = h.mem a) ∧
    (heapAbsorb h grow).first = (if h.first = grow.reallocEnd then x else h.first) ∧
    (heapAbsorb h grow).last = (if h.last = grow.reallocStart then p else h.last) ∧
    (heapAbsorb h grow).pages = h.pages := by
  by_cases none : p = 0 <;> by_cases ends : x = 0 <;>
    by_cases first : h.first = grow.reallocEnd <;> by_cases last : h.last = grow.reallocStart
  all_goals
    refine ⟨fun a => ?_, fun a => ?_, fun a => ?_, ?_, ?_, ?_⟩ <;>
      simp_all [heapAbsorb, front.symm, back.symm, Function.update_apply]

/-- A run of one chunk, or one that is at no end of the list, leaves the list. -/
theorem heapAbsorb_list {h : Heap} {front rest : List Nat} {grow : HeapGrow} {m : Nat}
    (list : FreeList h (front ++ heapChunks grow.reallocStart (m + 1) ++ rest))
    (stop : grow.reallocEnd = grow.reallocStart + 32 * m)
    (fits : m = 0 ∨ (front ≠ [] ∧ rest ≠ [])) : FreeList (heapAbsorb h grow) (front ++ rest) := by
  have sides := list.runSides
  rw [← stop] at sides
  obtain ⟨forward, backward, -, first, last, -⟩ :=
    heapAbsorb_links rfl rfl sides.off_stop sides.off_start
  refine list.unlink sides.prev sides.next (fun a _ => forward a) (fun a _ => backward a) ?_ ?_
  · have side := sides.first
    by_cases none : front = []
    · have one : m = 0 := fits.resolve_right (fun both => both.1 none)
      rw [if_pos none] at side
      rw [first, side, if_pos (by omega), sides.next, none, List.nil_append]
    · rw [if_neg none] at side
      rw [first, if_neg side.1, side.2, List.head?_append_of_ne_nil _ none]
  · have side := sides.last
    by_cases none : rest = []
    · have one : m = 0 := fits.resolve_right (fun both => both.2 none)
      rw [if_pos none] at side
      rw [last, side, if_pos (by omega), sides.prev, none, List.append_nil]
    · rw [if_neg none] at side
      rw [last, if_neg side.1, side.2, List.getLast?_append_of_ne_nil _ none]

/-- A longer run at an end of the list stays there. -/
theorem heapAbsorb_stays {h : Heap} {front rest : List Nat} {grow : HeapGrow} {m : Nat}
    (list : FreeList h (front ++ heapChunks grow.reallocStart (m + 1) ++ rest))
    (stop : grow.reallocEnd = grow.reallocStart + 32 * m)
    (ends : ¬ (m = 0 ∨ (front ≠ [] ∧ rest ≠ []))) :
    (heapAbsorb h grow).first ∈ heapChunks grow.reallocStart (m + 1) ∨
      (heapAbsorb h grow).last ∈ heapChunks grow.reallocStart (m + 1) := by
  have sides := list.runSides
  rw [← stop] at sides
  obtain ⟨-, -, -, first, last, -⟩ := heapAbsorb_links rfl rfl sides.off_stop sides.off_start
  obtain ⟨several, ends⟩ := not_or.mp ends
  obtain none | none : front = [] ∨ rest = [] := by
    by_contra some
    exact ends (not_or.mp some)
  · left
    have side := sides.first
    rw [if_pos none] at side
    rw [first, side, if_neg (by omega)]
    exact mem_heapChunks.mpr ⟨0, by omega, by omega⟩
  · right
    have side := sides.last
    rw [if_pos none] at side
    rw [last, side, if_neg (by omega)]
    exact mem_heapChunks.mpr ⟨m, by omega, stop⟩

/-- The rest of memory stays as it is. -/
theorem heapAbsorb_frame {h : Heap} {front rest : List Nat} {grow : HeapGrow} {m : Nat}
    (list : FreeList h (front ++ heapChunks grow.reallocStart (m + 1) ++ rest))
    (stop : grow.reallocEnd = grow.reallocStart + 32 * m) :
    (∀ a, a ∉ front ++ rest → (heapAbsorb h grow).mem a = h.mem a) ∧
      (heapAbsorb h grow).pages = h.pages := by
  have sides := list.runSides
  rw [← stop] at sides
  obtain ⟨-, -, other, -, -, pages⟩ := heapAbsorb_links rfl rfl sides.off_stop sides.off_start
  refine ⟨fun a outside => other a (fun some same => ?_) (fun some same => ?_), pages⟩
  · refine outside (List.mem_append_left _ (List.mem_of_getLast? ?_))
    rw [← sides.prev, same, toPtr, if_neg some]
  · refine outside (List.mem_append_right _ (List.mem_of_head? ?_))
    rw [← sides.next, same, toPtr, if_neg some]

end Sdx.Mm
