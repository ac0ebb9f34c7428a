import Sdx.Mm.HeapList

/-! # `heap_free` on the free list

The loop over the list looks for the neighbours of the block by address: behind it, the last
chunk below the block; in front of it, the last chunk above the block whose own predecessor is
the last chunk below the block seen so far. On a list that ends below the block, and has a chunk
above it, these two are in the wrong order and the list becomes a cycle.
-/

namespace Sdx.Mm

open Sdx.Lib.LinkedList

/-! ## The search, on a list -/

/-- The search of `heap_free` over `l`: `pred` is the chunk behind which `l` goes on, `p` and `n` are
    what is found so far. -/
def searchList (start stop : Nat) (pred p n : Nat) : List Nat → Nat × Nat
  | [] => (p, n)
  | cur :: l =>
      let p := if start > cur then cur else p
      let n := if p = pred ∧ stop < cur then cur else n
      searchList start stop cur p n l

section

variable {start stop pred p n : Nat} {l l₁ l₂ : List Nat} {x b : Nat}

/-- One round of the search. -/
theorem searchList_cons : searchList start stop pred p n (x :: l) =
    searchList start stop x (if start > x then x else p)
      (if (if start > x then x else p) = pred ∧ stop < x then x else n) l := rfl

theorem searchList_append : searchList start stop pred p n (l₁ ++ l₂) =
    searchList start stop (l₁.getLast?.getD pred) (searchList start stop pred p n l₁).1
      (searchList start stop pred p n l₁).2 l₂ := by
  induction l₁ generalizing pred p n with
  | nil => rfl
  | cons a l₁ ih =>
      rw [List.cons_append, searchList_cons, ih, List.getLast?_cons, Option.getD_some]
      rfl

/-- Chunks below the block. -/
theorem searchList_below (order : start ≤ stop) (below : ∀ a ∈ l, a < start) :
    searchList start stop pred p n l = (l.getLast?.getD p, n) := by
  induction l generalizing pred p n with
  | nil => rfl
  | cons a l ih =>
      have here := below a List.mem_cons_self
      rw [searchList_cons, if_pos here, if_neg (by omega), ih (fun a mem => below a (by simp [mem])),
        List.getLast?_cons, Option.getD_some]

/-- Chunks above the block, behind one that is above it too. -/
theorem searchList_above (order : start ≤ stop) (above : ∀ a ∈ l, stop < a) (front : p < start)
    (behind : pred ≠ p) : searchList start stop pred p n l = (p, n) := by
  induction l generalizing pred with
  | nil => rfl
  | cons a l ih =>
      have here := above a List.mem_cons_self
      rw [searchList_cons, if_neg (by omega), if_neg (fun same => behind same.1.symm)]
      exact ih (fun a mem => above a (by simp [mem])) (by omega)

theorem searchList_last (below : b < start) :
    (searchList start stop pred p n (l ++ [b])).1 = b := by
  rw [searchList_append]
  simp [searchList, below]

/-- The list goes on above the block behind its last chunk below it. -/
theorem searchList_between (order : start ≤ stop) (pos : 0 < start)
    (last : ∀ a, l₁.getLast? = some a → a < start) (above : ∀ a ∈ x :: l₂, stop < a) :
    searchList start stop 0 0 0 (l₁ ++ x :: l₂) = (l₁.getLast?.getD 0, x) := by
  have here := above x List.mem_cons_self
  have found : (searchList start stop 0 0 0 l₁).1 = l₁.getLast?.getD 0 := by
    cases l₁ using List.reverseRecOn with
    | nil => rfl
    | append_singleton l₁ a =>
        rw [searchList_last (last a List.getLast?_concat), List.getLast?_concat, Option.getD_some]
  have below : l₁.getLast?.getD 0 < start := by
    cases eq : l₁.getLast? with
    | none => simpa using pos
    | some a => simpa using last a eq
  rw [searchList_append, found, searchList_cons, if_neg (by omega), if_pos ⟨rfl, here⟩]
  exact searchList_above order (fun a mem => above a (List.mem_cons_of_mem _ mem)) below (by omega)

theorem searchList_found : (searchList start stop pred p n l).2 = n ∨
    (searchList start stop pred p n l).2 ∈ l := by
  induction l generalizing pred p n with
  | nil => exact .inl rfl
  | cons a l ih =>
      rw [searchList_cons]
      generalize (if start > a then a else p) = p'
      obtain same | mem := @ih a p' (if p' = pred ∧ stop < a then a else n)
      · by_cases found : p' = pred ∧ stop < a
        · rw [if_pos found] at same
          exact .inr (List.mem_cons.mpr (.inl (by simpa [found] using same)))
        · rw [if_neg found] at same
          exact .inl (by simpa [found] using same)
      · exact .inr (List.mem_cons_of_mem _ mem)

theorem searchList_found_prev : (searchList start stop pred p n l).1 = p ∨
    (searchList start stop pred p n l).1 ∈ l := by
  induction l generalizing pred p n with
  | nil => exact .inl rfl
  | cons a l ih =>
      rw [searchList_cons]
      by_cases below : start > a
      · simp only [if_pos below]
        obtain same | mem := @ih a a (if a = pred ∧ stop < a then a else n)
        · exact .inr (by rw [same]; exact List.mem_cons_self)
        · exact .inr (List.mem_cons_of_mem _ mem)
      · simp only [if_neg below]
        exact ih.imp_right (List.mem_cons_of_mem _)

/-- A chunk above the block is found, if there is one. -/
theorem searchList_some (order : start ≤ stop) (sides : ∀ a ∈ l, a < start ∨ stop < a)
    (above : ∃ a ∈ l, stop < a) : (searchList start stop p p n l).2 ∈ l := by
  induction l generalizing p n with
  | nil => simp at above
  | cons a l ih =>
      rw [searchList_cons]
      obtain below | here := sides a List.mem_cons_self
      · rw [if_pos below, if_neg (by omega)]
        refine List.mem_cons_of_mem _ (ih (fun a mem => sides a (by simp [mem])) ?_)
        obtain ⟨c, mem, high⟩ := above
        cases mem with
        | head => omega
        | tail _ mem => exact ⟨c, mem, high⟩
      · rw [if_neg (by omega), if_pos ⟨rfl, here⟩]
        obtain same | mem := @searchList_found start stop a p a l
        · rw [same]
          exact List.mem_cons_self
        · exact List.mem_cons_of_mem _ mem

end

/-! ## The search, in memory -/

/-- The loop of `heap_free` over the list computes `searchList`, in the links of the block's ends. -/
structure Searched (h h' : Heap) (start stop : Nat) (found : Nat × Nat) : Prop where
  prev : h'.metaPrev = Function.update h.metaPrev start found.1
  next : h'.metaNext = Function.update h.metaNext stop found.2
  other : ∀ a, a ≠ start → a ≠ stop → h'.mem a = h.mem a
  globals : h.SameGlobals h'

section

variable {h h' : Heap} {l : List Nat} {start stop cur fuel : Nat}

/-- The first half of a round: the chunk becomes the one behind which the block goes. -/
theorem heapSearch_prev (h : Heap) (start cur : Nat) :
    ∃ h₁, (if start > cur then h.metaPrevSet start cur else h) = h₁ ∧
      h₁.metaPrev = Function.update h.metaPrev start
        (if start > cur then cur else h.metaPrev start) ∧
      h₁.metaNext = h.metaNext ∧ (∀ a, a ≠ start → h₁.mem a = h.mem a) ∧ h.SameGlobals h₁ := by
  refine ⟨_, rfl, ?_⟩
  by_cases below : start > cur
  · simp only [if_pos below]
    exact ⟨by simp, by simp, fun a off => by simp [off], rfl, rfl, rfl⟩
  · simp [below, Heap.SameGlobals]

/-- One round of the loop. -/
theorem heapSearch_searched (off : cur ≠ start) :
    Searched h (heapSearch h start stop cur) start stop
      (searchList start stop (h.metaPrev cur) (h.metaPrev start) (h.metaNext stop) [cur]) := by
  obtain ⟨h₁, eq, prev, next, other, globals⟩ := heapSearch_prev h start cur
  simp only [heapSearch, eq, searchList]
  have start_eq : h₁.metaPrev start = if start > cur then cur else h.metaPrev start := by
    rw [prev, Function.update_self]
  have cur_eq : h₁.metaPrev cur = h.metaPrev cur := by rw [prev, Function.update_of_ne off]
  rw [cur_eq, start_eq]
  by_cases found : (if start > cur then cur else h.metaPrev start) = h.metaPrev cur ∧ stop < cur
  · simp only [if_pos found]
    refine ⟨by simp [prev], by simp [next], fun a away away' => ?_, globals⟩
    rw [h₁.mem_metaNextSet _ away', other a away]
  · simp only [if_neg found]
    exact ⟨prev, by simp [next], fun a away _ => other a away, globals⟩

theorem Searched.trans {h'' : Heap} {found found' : Nat × Nat}
    (first : Searched h h' start stop found) (second : Searched h' h'' start stop found') :
    Searched h h'' start stop found' := by
  refine ⟨?_, ?_, fun a away away' => ?_, ?_⟩
  · rw [second.prev, first.prev, Function.update_idem]
  · rw [second.next, first.next, Function.update_idem]
  · rw [second.other a away away', first.other a away away']
  · exact ⟨second.globals.1.trans first.globals.1, second.globals.2.1.trans first.globals.2.1,
      second.globals.2.2.trans first.globals.2.2⟩

/-- The whole loop, over a list that the block is not in. -/
theorem heapSearchLoop_searched {pred : Nat} (seg : Seg h.next h.prev (toPtr pred) l none)
    (here : toPtr cur = l.head?) (off_start : start ∉ l) (off_stop : stop ∉ l)
    (enough : l.length < fuel) :
    ∃ h', heapSearchLoop start stop fuel h cur = some h' ∧ Searched h h' start stop
      (searchList start stop pred (h.metaPrev start) (h.metaNext stop) l) := by
  induction fuel generalizing h l cur pred with
  | zero => omega
  | succ fuel ih =>
      rw [heapSearchLoop]
      cases l with
      | nil =>
          obtain rfl := toPtr_eq_none.mp here
          refine ⟨h, if_neg (fun some => some rfl), ?_⟩
          exact ⟨by simp [searchList], by simp [searchList], fun _ _ _ => rfl, rfl, rfl, rfl⟩
      | cons a l =>
          obtain ⟨rfl, pos⟩ := toPtr_eq_some.mp here
          obtain ⟨prev, next, rest⟩ := seg
          obtain ⟨away_start, off_start⟩ := not_or.mp (mt List.mem_cons.mpr off_start)
          obtain ⟨away_stop, off_stop⟩ := not_or.mp (mt List.mem_cons.mpr off_stop)
          have round := @heapSearch_searched h start stop cur (Ne.symm away_start)
          have pred_eq : h.metaPrev cur = pred := toPtr_inj prev
          rw [pred_eq] at round
          have same : ∀ x ∈ l, (heapSearch h start stop cur).next x = h.next x ∧
              (heapSearch h start stop cur).prev x = h.prev x := by
            intro x mem
            have x_start : x ≠ start := fun same => off_start (same ▸ mem)
            have x_stop : x ≠ stop := fun same => off_stop (same ▸ mem)
            rw [Heap.next, Heap.prev, round.next, round.prev, Function.update_of_ne x_stop,
              Function.update_of_ne x_start]
            exact ⟨rfl, rfl⟩
          have onward : toPtr ((heapSearch h start stop cur).metaNext cur) = l.head? := by
            rw [round.next, Function.update_of_ne (Ne.symm away_stop)]
            rwa [Option.or_none] at next
          have behind : Seg (heapSearch h start stop cur).next (heapSearch h start stop cur).prev
              (toPtr cur) l none := by
            rw [toPtr_pos pos]
            exact rest.congr same
          obtain ⟨h', result, searched⟩ := ih behind onward off_start off_stop (by simpa using enough)
          rw [round.prev, round.next, Function.update_self, Function.update_self] at searched
          refine ⟨h', ?_, round.trans searched⟩
          rw [if_pos (Nat.ne_of_gt pos)]
          exact result

end

/-! ## The block in the list -/

/-- The links of a block between the chunks `p` and `x`. -/
structure BlockLinks (h : Heap) (start n p x : Nat) : Prop where
  inner : ∀ j, j < n → h.metaNext (start + 32 * j) = start + 32 * (j + 1) ∧
    h.metaPrev (start + 32 * (j + 1)) = start + 32 * j
  front : h.metaPrev start = p
  back : h.metaNext (start + 32 * n) = x

/-- What `heap_free` does to the heap: the block is linked behind `p` and in front of `x`. -/
structure Gives (h h' : Heap) (start n p x : Nat) : Prop where
  block : BlockLinks h' start n p x
  next : ∀ a, a ∉ heapChunks start (n + 1) →
    h'.metaNext a = if p ≠ 0 ∧ a = p then start else h.metaNext a
  prev : ∀ a, a ∉ heapChunks start (n + 1) →
    h'.metaPrev a = if x ≠ 0 ∧ a = x then start + 32 * n else h.metaPrev a
  other : ∀ a, a ∉ heapChunks start (n + 1) → (p ≠ 0 → a ≠ p) → (x ≠ 0 → a ≠ x) →
    h'.mem a = h.mem a
  first : h'.first = if p = 0 then start else h.first
  last : h'.last = if x = 0 then start + 32 * n else h.last
  pages : h'.pages = h.pages

section

variable {h h' h₁ : Heap} {l : List Nat} {start n p x : Nat}

/-- The links that the end of `heap_free` writes. -/
theorem heapGive_links (block : BlockLinks h start n p x) (off_p : p ∉ heapChunks start (n + 1)) :
    (∀ a, (heapGive h start (start + 32 * n)).metaNext a =
      if p ≠ 0 ∧ a = p then start else h.metaNext a) ∧
    (∀ a, (heapGive h start (start + 32 * n)).metaPrev a =
      if x ≠ 0 ∧ a = x then start + 32 * n else h.metaPrev a) ∧
    (∀ a, (p ≠ 0 → a ≠ p) → (x ≠ 0 → a ≠ x) →
      (heapGive h start (start + 32 * n)).mem a = h.mem a) ∧
    (heapGive h start (start + 32 * n)).first = (if p = 0 then start else h.first) ∧
    (heapGive h start (start + 32 * n)).last = (if x = 0 then start + 32 * n else h.last) ∧
    (heapGive h start (start + 32 * n)).pages = h.pages := by
  obtain ⟨-, front, back⟩ := block
  have stop_p : start + 32 * n ≠ p := by
    rintro rfl
    exact off_p (mem_heapChunks.mpr ⟨n, by omega, rfl⟩)
  by_cases none : p = 0 <;> by_cases ends : x = 0
  all_goals
    refine ⟨fun a => ?_, fun a => ?_, fun a => ?_, ?_, ?_, ?_⟩ <;>
      simp_all [heapGive, Function.update_apply]

/-- The block with its chunks linked to each other, before the search. -/
theorem heapLinkLoop_block (h : Heap) (start n : Nat) :
    ∃ h₂, ((heapLinkLoop h start start (n + 1)).metaPrevSet start 0).metaNextSet (start + 32 * n) 0
        = h₂ ∧ BlockLinks h₂ start n 0 0 ∧
      (∀ a, a ∉ heapChunks start (n + 1) → h₂.mem a = h.mem a) ∧ h.SameGlobals h₂ := by
  have run := heapLinkLoop_links h start n
  refine ⟨_, rfl, ⟨fun j lt => ?_, ?_, ?_⟩, fun a outside => ?_, run.globals⟩
  · have next_off : start + 32 * j ≠ start + 32 * n := by omega
    have prev_off : start + 32 * (j + 1) ≠ start := by omega
    simp only [Heap.metaNext_metaNextSet, Heap.metaNext_metaPrevSet, Heap.metaPrev_metaNextSet,
      Heap.metaPrev_metaPrevSet, Function.update_of_ne next_off, Function.update_of_ne prev_off]
    exact ⟨run.next j (by omega), run.prev j (by omega)⟩
  · simp
  · simp
  · have off_start : a ≠ start := by
      rintro rfl
      exact outside (mem_heapChunks.mpr ⟨0, by omega, by omega⟩)
    have off_stop : a ≠ start + 32 * n := by
      rintro rfl
      exact outside (mem_heapChunks.mpr ⟨n, by omega, rfl⟩)
    rw [Heap.mem_metaNextSet _ _ off_stop, Heap.mem_metaPrevSet _ _ off_start, run.other a outside]

/-- Every call of `heap_free` for a block returns, and links it where the search says. -/
theorem heapFree_gives {fuel : Nat} (list : FreeList h l) (pos : 0 < start)
    (apart : ∀ a ∈ heapChunks start (n + 1), a ∉ l) (magic : h.isMagical start)
    (size : h.metaSize start = 16 + 32 * n) (enough : l.length < fuel) :
    ∃ h', heapFree fuel h (start + 16) = some h' ∧
      Gives h h' start n (searchList start (start + 32 * n) 0 0 0 l).1
        (searchList start (start + 32 * n) 0 0 0 l).2 := by
  obtain ⟨h₂, linked, links, other, globals⟩ := heapLinkLoop_block h start n
  have mem_start : start ∈ heapChunks start (n + 1) := mem_heapChunks.mpr ⟨0, by omega, by omega⟩
  have mem_stop : start + 32 * n ∈ heapChunks start (n + 1) := mem_heapChunks.mpr ⟨n, by omega, rfl⟩
  have old : ∀ a ∈ l, h₂.next a = h.next a ∧ h₂.prev a = h.prev a := by
    intro a mem
    have same := other a (fun inside => apart a inside mem)
    simp only [Heap.next, Heap.prev, Heap.metaNext, Heap.metaPrev, same, true_and]
  obtain ⟨h₃, search, searched⟩ := @heapSearchLoop_searched h₂ l start (start + 32 * n) h₂.first fuel
    0 (list.seg.congr old) (globals.1 ▸ list.first) (apart _ mem_start) (apart _ mem_stop) enough
  rw [links.front, links.back] at searched
  have found := @searchList_found start (start + 32 * n) 0 0 0 l
  have found_prev := @searchList_found_prev start (start + 32 * n) 0 0 0 l
  generalize searchList start (start + 32 * n) 0 0 0 l = result at *
  obtain ⟨p, x⟩ := result
  have off_p : p ∉ heapChunks start (n + 1) := by
    intro inside
    obtain zero | mem := found_prev
    · obtain ⟨j, -, eq⟩ := mem_heapChunks.mp inside
      simp only at zero
      omega
    · exact apart p inside mem
  have off_x : x ∉ heapChunks start (n + 1) := by
    intro inside
    obtain zero | mem := found
    · obtain ⟨j, -, eq⟩ := mem_heapChunks.mp inside
      simp only at zero
      omega
    · exact apart x inside mem
  have block : BlockLinks h₃ start n p x := by
    refine ⟨fun j lt => ?_, ?_, ?_⟩
    · have next_off : start + 32 * j ≠ start + 32 * n := by omega
      have prev_off : start + 32 * (j + 1) ≠ start := by omega
      rw [searched.next, searched.prev, Function.update_of_ne next_off,
        Function.update_of_ne prev_off]
      exact links.inner j lt
    · rw [searched.prev, Function.update_self]
    · rw [searched.next, Function.update_self]
  obtain ⟨next, prev, frame, first, last, pages⟩ := heapGive_links block off_p
  have outer : ∀ a, a ∉ heapChunks start (n + 1) → h₃.mem a = h.mem a := by
    intro a outside
    have off_start : a ≠ start := fun same => outside (same ▸ mem_start)
    have off_stop : a ≠ start + 32 * n := fun same => outside (same ▸ mem_stop)
    rw [searched.other a off_start off_stop, other a outside]
  have inside (j : Nat) (le : j ≤ n) : start + 32 * j ∈ heapChunks start (n + 1) :=
    mem_heapChunks.mpr ⟨j, by omega, rfl⟩
  refine ⟨heapGive h₃ start (start + 32 * n), ?_, ?_⟩
  · have front : start + 16 - heapChunkMetaSize = start := Nat.add_sub_cancel ..
    have stop : start + 16 + (16 + 32 * n) - heapChunkSize = start + 32 * n := by
      rw [heapChunkSize]
      omega
    have count : (start + 32 * n + heapChunkSize - start) / heapChunkSize = n + 1 := by
      rw [heapChunkSize]
      omega
    have large : ¬ heapChunkMetaSize > start + 16 := Nat.not_lt.mpr (Nat.le_add_left 16 start)
    simp [heapFree, large, front, magic, size, stop, count, linked, search]
  · refine ⟨⟨fun j lt => ?_, ?_, ?_⟩, fun a outside => ?_, fun a outside => ?_,
      fun a outside off_prev off_next => ?_, ?_, ?_, ?_⟩
    · have not_p : ¬ (p ≠ 0 ∧ start + 32 * j = p) := fun same => off_p (same.2 ▸ inside j (by omega))
      have not_x : ¬ (x ≠ 0 ∧ start + 32 * (j + 1) = x) :=
        fun same => off_x (same.2 ▸ inside (j + 1) (by omega))
      rw [next, prev, if_neg not_p, if_neg not_x]
      exact block.inner j lt
    · have not_x : ¬ (x ≠ 0 ∧ start = x) := fun same => off_x (same.2 ▸ mem_start)
      rw [prev, if_neg not_x, block.front]
    · have not_p : ¬ (p ≠ 0 ∧ start + 32 * n = p) := fun same => off_p (same.2 ▸ mem_stop)
      rw [next, if_neg not_p, block.back]
    · rw [next, Heap.metaNext, outer a outside, Heap.metaNext]
    · rw [prev, Heap.metaPrev, outer a outside, Heap.metaPrev]
    · rw [frame a off_prev off_next, outer a outside]
    · rw [first, searched.globals.1, globals.1]
    · rw [last, searched.globals.2.1, globals.2.1]
    · rw [pages, searched.globals.2.2, globals.2.2]

end

section

variable {h h' : Heap} {l l₁ l₂ : List Nat} {start n p x : Nat}

/-- The block between two neighbours of the list. -/
theorem Gives.insert (gives : Gives h h' start n p x) (list : FreeList h (l₁ ++ l₂))
    (pos : 0 < start) (apart : ∀ a ∈ heapChunks start (n + 1), a ∉ l₁ ++ l₂)
    (prev : toPtr p = l₁.getLast?) (next : toPtr x = l₂.head?) :
    FreeList h' (l₁ ++ heapChunks start (n + 1) ++ l₂) := by
  obtain ⟨seg₁, seg₂⟩ := Seg.append.mp list.seg
  obtain ⟨nodup₁, nodup₂, disjoint⟩ := List.nodup_append.mp list.nodup
  have out₁ : ∀ a ∈ l₁, a ∉ heapChunks start (n + 1) :=
    fun a mem inside => apart a inside (List.mem_append_left _ mem)
  have out₂ : ∀ a ∈ l₂, a ∉ heapChunks start (n + 1) :=
    fun a mem inside => apart a inside (List.mem_append_right _ mem)
  have head? : (heapChunks start (n + 1)).head? = some start := head?_heapChunks (by omega)
  have getLast? : (heapChunks start (n + 1)).getLast? = some (start + 32 * n) :=
    getLast?_heapChunks (by omega)
  have keep₁ : ∀ a ∈ l₁, h'.prev a = h.prev a := by
    intro a mem
    have not_x : ¬ (x ≠ 0 ∧ a = x) := by
      rintro ⟨some, rfl⟩
      exact disjoint a mem a (List.mem_of_head? (next.symm.trans (if_neg some))) rfl
    rw [Heap.prev, gives.prev a (out₁ a mem), if_neg not_x, Heap.prev]
  have keep₂ : ∀ a ∈ l₂, h'.next a = h.next a := by
    intro a mem
    have not_p : ¬ (p ≠ 0 ∧ a = p) := by
      rintro ⟨some, rfl⟩
      exact disjoint a (List.mem_of_getLast? (prev.symm.trans (if_neg some))) a mem rfl
    rw [Heap.next, gives.next a (out₂ a mem), if_neg not_p, Heap.next]
  refine ⟨Seg.append.mpr ⟨Seg.append.mpr ⟨?_, ?_⟩, ?_⟩, ?_, ?_⟩
  · refine seg₁.rewire nodup₁ (fun a mem inner => ?_) (fun a eq => ?_)
      (fun a mem _ => keep₁ a mem) (fun a eq => ?_)
    · have not_p : ¬ (p ≠ 0 ∧ a = p) := by
        rintro ⟨some, rfl⟩
        exact inner (prev.symm.trans (if_neg some))
      rw [Heap.next, gives.next a (out₁ a mem), if_neg not_p, Heap.next]
    · obtain ⟨rfl, some⟩ := toPtr_eq_some.mp (prev.trans eq)
      rw [Heap.next, gives.next p (out₁ p (List.mem_of_getLast? eq)),
        if_pos ⟨Nat.ne_of_gt some, rfl⟩, head?, toPtr_pos pos, Option.some_or]
    · rw [keep₁ a (List.mem_of_head? eq)]
      exact seg₁.head_prev eq
  · refine seg_heapChunks (fun j lt => ?_) (fun _ => ?_) (fun j eq => ?_)
    · obtain ⟨here, there⟩ := gives.block.inner j (by omega)
      rw [Heap.next, Heap.prev, here, there]
      exact ⟨toPtr_pos (by omega), toPtr_pos (by omega)⟩
    · rw [Heap.prev, gives.block.front, prev, Option.or_none]
    · obtain rfl : j = n := by omega
      rw [Heap.next, gives.block.back, next, Option.or_none]
  · refine seg₂.rewire nodup₂ (fun a mem _ => keep₂ a mem) (fun a eq => ?_)
      (fun a mem inner => ?_) (fun a eq => ?_)
    · rw [keep₂ a (List.mem_of_getLast? eq)]
      exact seg₂.last_next eq
    · have not_x : ¬ (x ≠ 0 ∧ a = x) := by
        rintro ⟨some, rfl⟩
        exact inner (next.symm.trans (if_neg some))
      rw [Heap.prev, gives.prev a (out₂ a mem), if_neg not_x, Heap.prev]
    · obtain ⟨rfl, some⟩ := toPtr_eq_some.mp (next.trans eq)
      rw [Heap.prev, gives.prev x (out₂ x (List.mem_of_head? eq)),
        if_pos ⟨Nat.ne_of_gt some, rfl⟩, List.getLast?_append, getLast?, toPtr_pos (by omega),
        Option.some_or, Option.some_or]
  · have first := list.first
    rw [gives.first]
    cases l₁ with
    | nil =>
        obtain rfl := toPtr_eq_none.mp prev
        rw [if_pos rfl, toPtr_pos pos, List.nil_append, List.head?_append, head?, Option.some_or]
    | cons a l₁ =>
        have some : p ≠ 0 := by
          rintro rfl
          rw [toPtr_zero, List.getLast?_cons] at prev
          cases prev
        rw [if_neg some, first]
        rfl
  · have last := list.last
    rw [gives.last]
    cases l₂ using List.reverseRecOn with
    | nil =>
        obtain rfl := toPtr_eq_none.mp next
        rw [if_pos rfl, toPtr_pos (by omega), List.append_nil, List.getLast?_append, getLast?,
          Option.some_or]
    | append_singleton l₂ a =>
        have some : x ≠ 0 := by
          rintro rfl
          simp at next
        rw [if_neg some, last]
        simp

end

theorem heapSearchLoop_mono {start stop fuel more cur : Nat} {h h' : Heap}
    (result : heapSearchLoop start stop fuel h cur = some h') :
    heapSearchLoop start stop (fuel + more) h cur = some h' := by
  induction fuel generalizing h cur with
  | zero => cases result
  | succ fuel ih =>
      rw [Nat.succ_add]
      rw [heapSearchLoop] at result ⊢
      split at result
      case isTrue go =>
        rw [if_pos go]
        exact ih result
      case isFalse stop =>
        rw [if_neg stop]
        exact result

/-- More fuel does not change what a call of `heap_free` does. -/
theorem heapFree_mono {fuel mem : Nat} (more : Nat) {h h' : Heap}
    (result : heapFree fuel h mem = some h') : heapFree (fuel + more) h mem = some h' := by
  simp only [heapFree] at result ⊢
  split at result
  case isTrue null =>
    rw [if_pos null]
    exact result
  case isFalse some =>
    rw [if_neg some]
    split at result
    case isTrue => cases result
    case isFalse ok =>
      rw [if_neg ok]
      simp only [Option.bind_eq_bind, Option.bind_eq_some_iff] at result ⊢
      obtain ⟨found, loop, rest⟩ := result
      exact ⟨found, heapSearchLoop_mono loop, rest⟩

/-! ## The call -/

/-- The list has its chunks above a block at its end, if it has any. -/
def EndsAbove (l : List Nat) (start : Nat) : Prop :=
  ∀ b, l.getLast? = some b → b < start → ∀ a ∈ l, a < start

/-- A call of `heap_free` put the block back into the list. -/
structure Freed (h : Heap) (l : List Nat) (start n : Nat) (h' : Heap) (front rest : List Nat) :
    Prop where
  split : l = front ++ rest
  list : FreeList h' (front ++ heapChunks start (n + 1) ++ rest)
  behind : ∀ b, front.getLast? = some b → b < start
  ahead : ∀ a ∈ rest, start + 32 * n < a
  pages : h'.pages = h.pages
  other : ∀ a, a ∉ l → a ∉ heapChunks start (n + 1) → h'.mem a = h.mem a

/-- A block that `heap_free` may be called with while `l` is the free list. -/
structure Block (h : Heap) (l : List Nat) (start n : Nat) : Prop where
  pos : 0 < start
  apart : ∀ a ∈ heapChunks start (n + 1), a ∉ l
  sides : ∀ a ∈ l, a < start ∨ start + 32 * n < a
  magic : h.isMagical start
  size : h.metaSize start = 16 + 32 * n

section

variable {h : Heap} {l : List Nat} {start n fuel : Nat}

/-- The chunks above the block at the end of a list. -/
theorem split_above (sides : ∀ a ∈ l, a < start ∨ start + 32 * n < a) :
    ∃ front rest, l = front ++ rest ∧ (∀ b, front.getLast? = some b → b < start) ∧
      ∀ a ∈ rest, start + 32 * n < a := by
  induction l using List.reverseRecOn with
  | nil => exact ⟨[], [], rfl, nofun, nofun⟩
  | append_singleton l a ih =>
      obtain below | above := sides a (by simp)
      · refine ⟨l ++ [a], [], (List.append_nil _).symm, fun b eq => ?_, nofun⟩
        rw [List.getLast?_concat, Option.some_inj] at eq
        exact eq ▸ below
      · obtain ⟨front, rest, rfl, behind, ahead⟩ := ih (fun a mem => sides a (by simp [mem]))
        refine ⟨front, rest ++ [a], List.append_assoc .., behind, fun c mem => ?_⟩
        obtain mem | mem := List.mem_append.mp mem
        · exact ahead c mem
        · rw [List.mem_singleton] at mem
          exact mem ▸ above

/-- A block goes where its address belongs, if the list ends above it. -/
theorem heapFree_freed (list : FreeList h l) (block : Block h l start n)
    (enough : l.length < fuel) (ends : EndsAbove l start) :
    ∃ h' front rest, heapFree fuel h (start + 16) = some h' ∧
      Freed h l start n h' front rest := by
  obtain ⟨h', result, gives⟩ :=
    heapFree_gives list block.pos block.apart block.magic block.size enough
  obtain ⟨front, rest, rfl, behind, ahead⟩ := split_above block.sides
  have order : start ≤ start + 32 * n := by omega
  have found : toPtr (searchList start (start + 32 * n) 0 0 0 (front ++ rest)).1 = front.getLast? ∧
      toPtr (searchList start (start + 32 * n) 0 0 0 (front ++ rest)).2 = rest.head? := by
    have ptr : toPtr (front.getLast?.getD 0) = front.getLast? := by
      cases eq : front.getLast? with
      | none => rfl
      | some b =>
          exact toPtr_pos (list.pos (List.mem_append_left _ (List.mem_of_getLast? eq)))
    cases rest with
    | nil =>
        have below : ∀ a ∈ front ++ [], a < start := by
          intro a mem
          cases eq : front.getLast? with
          | none => simp [List.getLast?_eq_none_iff.mp eq] at mem
          | some b => exact ends b (by simpa using eq) (behind b eq) a mem
        rw [searchList_below order below, List.append_nil]
        exact ⟨ptr, rfl⟩
    | cons x rest =>
        rw [searchList_between order block.pos behind ahead]
        exact ⟨ptr, toPtr_pos (list.pos (by simp))⟩
  refine ⟨h', front, rest, result, rfl,
    gives.insert list block.pos block.apart found.1 found.2, behind, ahead, gives.pages, ?_⟩
  intro a outside off
  refine gives.other a off (fun some => ?_) (fun some => ?_)
  · rintro rfl
    exact outside (searchList_found_prev.resolve_left some)
  · rintro rfl
    exact outside (searchList_found.resolve_left some)

/-- On a list that ends below the block, and has a chunk above it, the walk never ends. -/
theorem heapFree_cycle (list : FreeList h l) (block : Block h l start n)
    (enough : l.length < fuel) (ends : ¬ EndsAbove l start) :
    ∃ h', heapFree fuel h (start + 16) = some h' ∧
      ∀ w, ¬ Walk h'.next (toPtr h'.first) w := by
  obtain ⟨h', result, gives⟩ :=
    heapFree_gives list block.pos block.apart block.magic block.size enough
  refine ⟨h', result, fun w walk => ?_⟩
  have order : start ≤ start + 32 * n := by omega
  simp only [EndsAbove, Classical.not_forall, exists_prop] at ends
  obtain ⟨b, last, below, above⟩ := ends
  have high : ∃ a ∈ l, start + 32 * n < a := by
    obtain ⟨a, mem, off⟩ := above
    exact ⟨a, mem, (block.sides a mem).resolve_left off⟩
  have found := searchList_some (p := 0) (n := 0) order block.sides high
  obtain ⟨front, rfl⟩ := List.getLast?_eq_some_iff.mp last
  have found_prev := @searchList_last start (start + 32 * n) 0 0 0 front b below
  rw [found_prev] at gives
  generalize (searchList start (start + 32 * n) 0 0 0 (front ++ [b])).2 = x at found gives
  have b_pos : b ≠ 0 := Nat.ne_of_gt (list.pos (by simp))
  have x_pos : 0 < x := list.pos found
  have out : ∀ a ∈ front ++ [b], a ∉ heapChunks start (n + 1) :=
    fun a mem inside => block.apart a inside mem
  -- from the first chunk along the list to `b`, through the block, and back to `x`
  have chain_list : List.IsChain (fun a c => h'.next a = some c) ((front ++ [b]) ++ [start]) := by
    refine Seg.chain (list.seg.rewire list.nodup (fun a mem inner => ?_) (fun a eq => ?_)
      (fun _ _ _ => rfl) (fun a eq => list.seg.head_prev eq))
    · have not_b : ¬ (b ≠ 0 ∧ a = b) := by
        rintro ⟨-, rfl⟩
        exact inner last
      rw [Heap.next, gives.next a (out a mem), if_neg not_b, Heap.next]
    · obtain rfl : b = a := Option.some_inj.mp (last.symm.trans eq)
      rw [Heap.next, gives.next b (out b (by simp)), if_pos ⟨b_pos, rfl⟩, toPtr_pos block.pos]
  have chain_block : List.IsChain (fun a c => h'.next a = some c)
      (heapChunks start (n + 1) ++ [x]) := by
    have seg : Seg h'.next h'.prev (h'.prev start) (heapChunks start (n + 1)) (some x) := by
      refine seg_heapChunks (fun j lt => ?_) (fun _ => rfl) (fun j eq => ?_)
      · obtain ⟨here, there⟩ := gives.block.inner j (by omega)
        rw [Heap.next, Heap.prev, here, there]
        exact ⟨toPtr_pos (by have := block.pos; omega), toPtr_pos (by have := block.pos; omega)⟩
      · obtain rfl : j = n := by omega
        rw [Heap.next, gives.block.back, toPtr_pos x_pos]
    exact seg.chain
  have first : h'.first = h.first := by rw [gives.first, if_neg b_pos]
  have chain : List.IsChain (fun a c => h'.next a = some c)
      ((front ++ [b]) ++ (heapChunks start (n + 1) ++ [x])) := by
    rw [heapChunks_succ, List.cons_append] at chain_block ⊢
    exact List.isChain_split.mpr ⟨chain_list, chain_block⟩
  rw [first, list.first] at walk
  cases front with
  | nil => exact Walk.not_of_cycle chain (by simp_all) walk
  | cons a front =>
      refine Walk.not_of_cycle chain (fun nodup => ?_) walk
      exact (List.nodup_append.mp nodup).2.2 x found x (by simp) rfl

end

end Sdx.Mm
