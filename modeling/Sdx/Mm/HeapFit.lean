import Mathlib.Algebra.Group.Nat.Even
import Mathlib.Data.List.DropRight
import Mathlib.Data.List.SplitBy
import Mathlib.Order.Bounds.Basic
import Sdx.Mm.HeapGrow

/-! # Which holes `heap_alloc` uses

A hole is a run of neighbours in the free list. Where a chunk is not the neighbour of the one
before it, the loop of `heap_alloc` drops the run it was in, and this chunk with it: the next run
starts at the chunk behind it.
-/

namespace Sdx.Mm

open Sdx.Lib.LinkedList

/-- The holes of a list of chunks. -/
def holes (l : List Nat) : List (List Nat) := l.splitBy fun a b => a + heapChunkSize == b

/-- The hole behind the holes `before` keeps its first chunk: a hole loses it, unless the hole
    before it has lost its only one. -/
def KeepsFirst (before : List (List Nat)) : Prop :=
  let singles := before.rtakeWhile fun hole => hole.length == 1
  if singles = before then Even singles.length else ¬ Even singles.length

instance (before : List (List Nat)) : Decidable (KeepsFirst before) := by
  unfold KeepsFirst
  infer_instance

/-- How many chunks the hole behind `before` has for the search. -/
def usableChunks (before : List (List Nat)) (hole : List Nat) : Nat :=
  if KeepsFirst before then hole.length else hole.length - 1

/-- One of the holes has `k` chunks for the search, and there is a chunk behind them. -/
def Usable (l : List Nat) (k : Nat) : Prop :=
  ∃ before hole after, holes l = before ++ hole :: after ∧
    k ≤ usableChunks before hole ∧ (after ≠ [] ∨ k < usableChunks before hole)

section

variable {before : List (List Nat)} {hole : List Nat}

theorem keepsFirst_nil : KeepsFirst [] := by decide

theorem keepsFirst_concat : KeepsFirst (before ++ [hole]) ↔ hole.length = 1 ∧ ¬ KeepsFirst before := by
  by_cases single : hole.length = 1
  · have longer (singles : List (List Nat)) : singles ++ [hole] = before ++ [hole] ↔ singles = before :=
      List.append_left_inj _
    simp only [KeepsFirst, List.rtakeWhile_concat, single, beq_self_eq_true, if_true, longer,
      List.length_append, List.length_singleton, Nat.even_add_one, true_and]
    split <;> rfl
  · have apart : ([] : List (List Nat)) ≠ before ++ [hole] := by simp
    simp [KeepsFirst, single, apart]

end

/-! ## The search over the holes -/

section

variable {size total cur start stop n : Nat} {rest : List Nat} {scan : HeapScan}

theorem heapAllocSearch_done (enough : size ≤ scan.totalSize) (l : List Nat) :
    (heapAllocSearch size scan l).2 = l := by
  cases l with
  | nil => rfl
  | cons a l =>
      rw [heapAllocSearch]
      simp only [Nat.not_lt.mpr enough, if_false]

/-- The search over the neighbours of the run that it is in. -/
theorem heapAllocSearch_run (some : start ≠ 0) (less : total + 32 * n < size + 32)
    (fits : total + 32 * n < 2 ^ 64) :
    heapAllocSearch size ⟨cur, start, stop, total⟩ (heapChunks (stop + 32) n ++ rest) =
      heapAllocSearch size ⟨0, start, stop + 32 * n, total + 32 * n⟩ rest := by
  induction n generalizing stop total cur with
  | zero => cases rest <;> rfl
  | succ n ih =>
      have goes : total < size := by omega
      have visit : HeapScan.visit ⟨stop + 32, start, stop, total⟩ =
          ⟨stop + 32, start, stop, total + 32⟩ := by
        simp only [HeapScan.visit, some, if_false, heapChunkSize, ne_eq, not_true,
          wrap64_of_lt (show total + 32 < 2 ^ 64 by omega)]
      rw [heapChunks_succ, List.cons_append, heapAllocSearch]
      simp only [goes, if_true, visit]
      rw [ih (by omega) (by omega)]
      congr 2 <;> omega

/-- The search over the chunks of a hole that starts a run. -/
theorem heapAllocSearch_start (pos : start ≠ 0) (some : 0 < size) (less : 32 * n < size + 16)
    (fits : 16 + 32 * n < 2 ^ 64) :
    heapAllocSearch size ⟨cur, 0, stop, 0⟩ (heapChunks start (n + 1) ++ rest) =
      heapAllocSearch size ⟨0, start, start + 32 * n, 16 + 32 * n⟩ rest := by
  rw [heapChunks_succ, List.cons_append, heapAllocSearch]
  simp only [some, if_true, HeapScan.visit, Nat.zero_add, heapChunkDataSize,
    wrap64_of_lt (show 16 < 2 ^ 64 by decide)]
  exact heapAllocSearch_run pos (by omega) fits

/-- The search at a chunk that is not the neighbour of the one before it. -/
theorem heapAllocSearch_break {a : Nat} (some : start ≠ 0) (less : total < size)
    (apart : stop + 32 ≠ a) :
    heapAllocSearch size ⟨cur, start, stop, total⟩ (a :: rest) =
      heapAllocSearch size ⟨0, 0, a, 0⟩ rest := by
  rw [heapAllocSearch]
  simp only [less, if_true, HeapScan.visit, some, if_false, heapChunkSize, ne_eq, apart,
    not_false_eq_true]
  exact heapAllocSearch_cur ⟨0, 0, a, 0⟩ a rest

/-- A hole of which the search has all chunks: it ends there with `k` of them, or goes on behind the
    hole. -/
theorem heapAllocSearch_hole {k : Nat} (pos : start ≠ 0) (some : 0 < size) (fits : 16 + 32 * n < 2 ^ 64)
    (enough : size + 16 ≤ 32 * k) (least : 32 * k < size + 48) :
    (k ≤ n + 1 ∧ (heapAllocSearch size ⟨cur, 0, stop, 0⟩ (heapChunks start (n + 1) ++ rest)).2 =
        heapChunks (start + 32 * k) (n + 1 - k) ++ rest) ∨
      n + 1 < k ∧ 16 + 32 * n < size ∧
        heapAllocSearch size ⟨cur, 0, stop, 0⟩ (heapChunks start (n + 1) ++ rest) =
          heapAllocSearch size ⟨0, start, start + 32 * n, 16 + 32 * n⟩ rest := by
  by_cases large : k ≤ n + 1
  · left
    obtain ⟨m, rfl⟩ : ∃ m, k = m + 1 := ⟨k - 1, by omega⟩
    have cut : heapChunks start (n + 1) =
        heapChunks start (m + 1) ++ heapChunks (start + 32 * (m + 1)) (n + 1 - (m + 1)) := by
      rw [← heapChunks_add]
      congr 1
      omega
    refine ⟨large, ?_⟩
    rw [cut, List.append_assoc, heapAllocSearch_start pos some (by omega) (by omega)]
    exact heapAllocSearch_done (by simp only; omega) _
  · exact .inr ⟨by omega, by omega, heapAllocSearch_start pos some (by omega) fits⟩

/-- The search comes to a hole, with `rest` ahead: it is in no run, or in one that ends here. -/
structure AtHole (size : Nat) (before : List (List Nat)) (scan : HeapScan) (rest : List Nat) :
    Prop where
  keeps : KeepsFirst before → scan.start = 0 ∧ scan.totalSize = 0
  drops : ¬ KeepsFirst before → scan.start ≠ 0 ∧ scan.totalSize < size ∧
    ∀ a ∈ rest.head?, scan.stop + 32 ≠ a

theorem heapChunks_append_ne_nil {a m k : Nat} :
    heapChunks a (m - k) ++ rest ≠ [] ↔ rest ≠ [] ∨ k < m := by
  have none : heapChunks a (m - k) = [] ↔ ¬ k < m := by
    rw [← List.length_eq_zero_iff, heapChunks, List.length_range']
    omega
  rw [ne_eq, List.append_eq_nil_iff, none, not_and_or, not_not, or_comm]

/-- The search over one hole. -/
theorem AtHole.search {before : List (List Nat)} {k : Nat}
    (here : AtHole size before scan (heapChunks start (n + 1) ++ rest))
    (chunk : ∀ a ∈ heapChunks start (n + 1), IsChunk a)
    (parted : ∀ a ∈ rest.head?, start + 32 * n + 32 ≠ a) (some : 0 < size)
    (enough : size + 16 ≤ 32 * k) (least : 32 * k < size + 48) :
    (k ≤ usableChunks before (heapChunks start (n + 1)) ∧
      ((heapAllocSearch size scan (heapChunks start (n + 1) ++ rest)).2 ≠ [] ↔
        rest ≠ [] ∨ k < usableChunks before (heapChunks start (n + 1)))) ∨
    usableChunks before (heapChunks start (n + 1)) < k ∧
      ∃ scan', heapAllocSearch size scan (heapChunks start (n + 1) ++ rest) =
          heapAllocSearch size scan' rest ∧
        AtHole size (before ++ [heapChunks start (n + 1)]) scan' rest := by
  have first : IsChunk start := chunk _ (by simp [heapChunks_succ])
  have last : IsChunk (start + 32 * n) := chunk _ (by simp [heapChunks_concat])
  have pos : start ≠ 0 := Nat.ne_of_gt first.pos
  have ge := first.ge
  have fits := last.fits
  have length (a m : Nat) : (heapChunks a m).length = m := List.length_range'
  obtain ⟨cur, begun, stop, total⟩ := scan
  by_cases keeps : KeepsFirst before
  · have usable : usableChunks before (heapChunks start (n + 1)) = n + 1 := by
      rw [usableChunks, if_pos keeps, length]
    obtain ⟨rfl, rfl⟩ := here.keeps keeps
    rw [usable]
    obtain ⟨large, ends⟩ | ⟨small, less, goes⟩ :=
      @heapAllocSearch_hole size cur start stop n rest k pos some (by omega) enough least
    · refine .inl ⟨large, ?_⟩
      rw [ends, heapChunks_append_ne_nil]
    · refine .inr ⟨small, _, goes, fun fresh => ?_, fun _ => ⟨pos, less, parted⟩⟩
      exact absurd keeps (keepsFirst_concat.mp fresh).2
  · have usable : usableChunks before (heapChunks start (n + 1)) = n := by
      rw [usableChunks, if_neg keeps, length, Nat.add_sub_cancel]
    obtain ⟨started, less, apart⟩ := here.drops keeps
    have broken : heapAllocSearch size ⟨cur, begun, stop, total⟩ (heapChunks start (n + 1) ++ rest) =
        heapAllocSearch size ⟨0, 0, start, 0⟩ (heapChunks (start + 32) n ++ rest) :=
      heapAllocSearch_break started less (apart start rfl)
    rw [usable, broken]
    cases n with
    | zero =>
        refine .inr ⟨by omega, _, rfl, fun _ => ⟨rfl, rfl⟩, fun fresh => ?_⟩
        exact absurd (keepsFirst_concat.mpr ⟨rfl, keeps⟩) fresh
    | succ m =>
        obtain ⟨large, ends⟩ | ⟨small, less, goes⟩ :=
          @heapAllocSearch_hole size 0 (start + 32) start m rest k (by omega) some (by omega) enough
            least
        · refine .inl ⟨large, ?_⟩
          rw [ends, heapChunks_append_ne_nil]
        · refine .inr ⟨small, _, goes, fun fresh => ?_, fun _ => ⟨by simp only; omega, less, ?_⟩⟩
          · have single := (keepsFirst_concat.mp fresh).1
            rw [length] at single
            omega
          · intro a head
            have := parted a head
            simp only
            omega

/-! ## All holes -/

/-- No hole goes on in the next one. -/
def Parted (l : List (List Nat)) : Prop :=
  l.IsChain fun a b => ∃ ha hb, (a.getLast ha + heapChunkSize == b.head hb) = false

theorem heapChunks_of_chain {a : Nat} {l : List Nat}
    (chain : (a :: l).IsChain fun x y => x + heapChunkSize == y) :
    a :: l = heapChunks a (l.length + 1) := by
  induction l generalizing a with
  | nil => rfl
  | cons b l ih =>
      rw [List.isChain_cons_cons, beq_iff_eq] at chain
      obtain ⟨rfl, chain⟩ := chain
      exact congrArg (List.cons a) (ih chain)

/-- A hole is a run of neighbours. -/
theorem hole_eq {l hole : List Nat} (mem : hole ∈ holes l) :
    ∃ start n, hole = heapChunks start (n + 1) := by
  cases hole with
  | nil => exact absurd rfl (List.ne_nil_of_mem_splitBy mem)
  | cons a hole => exact ⟨a, _, heapChunks_of_chain (List.isChain_of_mem_splitBy mem)⟩

theorem Parted.head_apart {after : List (List Nat)}
    (parted : Parted (heapChunks start (n + 1) :: after)) :
    ∀ a ∈ after.flatten.head?, start + 32 * n + 32 ≠ a := by
  intro a head
  cases after with
  | nil => cases head
  | cons hole after =>
      obtain ⟨_, some, apart⟩ := (List.isChain_cons_cons.mp parted).1
      rw [List.flatten_cons, List.head?_append_of_ne_nil _ some, List.head?_eq_some_head some] at head
      obtain rfl := Option.some.inj head
      have last : (heapChunks start (n + 1)).getLast (by simp [heapChunks_succ]) = start + 32 * n := by
        simp [heapChunks_concat]
      rw [last] at apart
      exact ne_of_beq_false apart

/-- The search over the holes ends within them where one has enough chunks, and one to spare behind
    them. -/
theorem heapAllocSearch_holes {before after : List (List Nat)} {k : Nat}
    (here : AtHole size before scan after.flatten)
    (each : ∀ hole ∈ after, ∃ start n, hole = heapChunks start (n + 1)) (parted : Parted after)
    (chunk : ∀ a ∈ after.flatten, IsChunk a) (some : 0 < size)
    (enough : size + 16 ≤ 32 * k) (least : 32 * k < size + 48) :
    (heapAllocSearch size scan after.flatten).2 ≠ [] ↔ ∃ mid hole rest, after = mid ++ hole :: rest ∧
      k ≤ usableChunks (before ++ mid) hole ∧
        (rest ≠ [] ∨ k < usableChunks (before ++ mid) hole) := by
  induction after generalizing before scan with
  | nil => simp [heapAllocSearch]
  | cons hole after ih =>
      obtain ⟨start, n, rfl⟩ := each hole List.mem_cons_self
      have later := List.forall_mem_of_forall_mem_cons each
      have empty : after.flatten ≠ [] ↔ after ≠ [] := by
        cases after with
        | nil => simp
        | cons hole _ =>
            obtain ⟨a, m, rfl⟩ := later hole List.mem_cons_self
            simp [heapChunks_succ]
      rw [List.flatten_cons] at here chunk ⊢
      obtain ⟨large, ends⟩ | ⟨small, scan', goes, next⟩ := here.search
        (fun a mem => chunk a (List.mem_append_left _ mem)) parted.head_apart some enough least
      · rw [ends, empty]
        constructor
        · intro spare
          exact ⟨[], _, after, rfl, by rwa [List.append_nil], by rwa [List.append_nil]⟩
        · rintro ⟨mid, hole, rest, split, -, spare⟩
          cases mid with
          | nil =>
              obtain ⟨rfl, rfl⟩ := List.cons.inj split
              rwa [List.append_nil] at spare
          | cons _ mid =>
              obtain ⟨-, rfl⟩ := List.cons.inj split
              exact .inl (by simp)
      · rw [goes, ih next later parted.tail (fun a mem => chunk a (List.mem_append_right _ mem))]
        constructor
        · rintro ⟨mid, hole, rest, rfl, usable⟩
          rw [List.append_assoc] at usable
          exact ⟨_ :: mid, hole, rest, rfl, usable⟩
        · rintro ⟨mid, hole, rest, split, usable⟩
          cases mid with
          | nil =>
              obtain ⟨rfl, rfl⟩ := List.cons.inj split
              rw [List.append_nil] at usable
              omega
          | cons _ mid =>
              obtain ⟨rfl, rfl⟩ := List.cons.inj split
              exact ⟨mid, hole, rest, rfl, by rwa [List.append_assoc]⟩

/-- The search over a list ends within it where a hole is usable. -/
theorem heapAllocSearch_usable {l : List Nat} {k : Nat} (chunk : ∀ a ∈ l, IsChunk a) (some : 0 < size)
    (enough : size + 16 ≤ 32 * k) (least : 32 * k < size + 48) :
    (heapAllocSearch size ⟨0, 0, 0, 0⟩ l).2 ≠ [] ↔ Usable l k := by
  have whole : (holes l).flatten = l := List.flatten_splitBy _ l
  have here : AtHole size [] ⟨0, 0, 0, 0⟩ (holes l).flatten :=
    ⟨fun _ => ⟨rfl, rfl⟩, fun drops => absurd keepsFirst_nil drops⟩
  have searched := heapAllocSearch_holes here (fun _ mem => hole_eq mem)
    (List.isChain_getLast_head_splitBy (fun a b => a + heapChunkSize == b) l) (by rwa [whole]) some
    enough least
  rwa [whole] at searched

/-- The search over a list that is continued. -/
theorem heapAllocSearch_append (l more : List Nat) :
    ((heapAllocSearch size scan l).2 = [] ∧
      ∃ scan', heapAllocSearch size scan (l ++ more) = heapAllocSearch size scan' more) ∨
    ((heapAllocSearch size scan l).2 ≠ [] ∧ heapAllocSearch size scan (l ++ more) =
      ((heapAllocSearch size scan l).1, (heapAllocSearch size scan l).2 ++ more)) := by
  induction l generalizing scan with
  | nil => exact .inl ⟨rfl, scan, rfl⟩
  | cons cur l ih =>
      rw [List.cons_append, heapAllocSearch, heapAllocSearch]
      by_cases go : scan.totalSize < size
      · simp only [go, if_true]
        exact ih
      · simp only [go, if_false]
        exact .inr ⟨List.cons_ne_nil _ _, rfl⟩

theorem length_heapAllocSearch (l : List Nat) : (heapAllocSearch size scan l).2.length ≤ l.length := by
  induction l generalizing scan with
  | nil => exact Nat.le_refl 0
  | cons cur l ih =>
      rw [heapAllocSearch]
      split
      · exact Nat.le_succ_of_le ih
      · exact Nat.le_refl _

end

/-! ## The call -/

/-- The list has `k` neighbours, and a chunk behind them. -/
def FittingHole (l : List Nat) (k : Nat) : Prop :=
  ∃ front start rest, l = front ++ heapChunks start k ++ rest ∧ rest ≠ []

/-- `heap_alloc` returns a block of chunks that are on the list, and asks `vmm_map` for no page: where
    it asks, it gets one or returns `NULL`. -/
def TakesListed (fuel : Nat) (h : Heap) (l : List Nat) (size : Nat) : Prop :=
  ∃ start n h' front rest, heapAlloc fuel h size = some (start + heapChunkMetaSize, h') ∧
    size ≤ heapChunkDataSize + heapChunkSize * n ∧ l = front ++ heapChunks start (n + 1) ++ rest ∧
    FreeList h' (front ++ rest) ∧ h'.pages = h.pages

/-- How many chunks a block of this size takes. -/
def ChunksFor (size k : Nat) : Prop :=
  IsLeast {k : ℕ | (size : Int) ≤ heapChunkDataSize + heapChunkSize * ((k : Int) - 1)} k

theorem ChunksFor.bounds {size k : Nat} (chunks : ChunksFor size k) (some : 0 < size) :
    size + 16 ≤ 32 * k ∧ 32 * k < size + 48 := by
  obtain ⟨enough, least⟩ := chunks
  simp only [Set.mem_ofPred_eq, heapChunkDataSize, heapChunkSize] at enough
  refine ⟨by omega, ?_⟩
  by_contra larger
  have fewer := @least (k - 1) (by
    simp only [Set.mem_ofPred_eq, heapChunkDataSize, heapChunkSize]
    omega)
  omega

section

variable {h : Heap} {l l₁ l₂ : List Nat} {scan : HeapScan} {size fuel k : Nat}

theorem heapTake_pages (h : Heap) (scan : HeapScan) : (heapTake h scan).pages = h.pages := by
  rw [heapTake_eq, heapUnlink]
  simp only [Heap.metaSizeSet, Heap.magicSet, Heap.setChunk, Heap.metaNextSet, Heap.metaPrevSet]
  repeat' split
  all_goals rfl

/-- Ahead of the last chunk the list does not grow. -/
theorem heapChunkNext_ahead {cur x : Nat} {ahead : List Nat} (list : FreeList h (l₁ ++ cur :: x :: ahead))
    (pos : ∀ a ∈ l₁ ++ cur :: x :: ahead, 0 < a) : heapChunkNext h cur = (x, h) := by
  have some : l₁ ++ cur :: x :: ahead ≠ [] := by simp
  have here : cur ≠ 0 := Nat.ne_of_gt (pos cur (by simp))
  obtain ⟨next, x_pos⟩ := toPtr_eq_some.mp (list.next_eq.trans List.head?_cons)
  simp [heapChunkNext, list.first_pos some, list.last_pos some, here, next, Nat.ne_of_gt x_pos]

/-- Where the search ends within the list, so does the loop, and the heap is as it was. -/
theorem heapAllocLoop_within (list : FreeList h (l₁ ++ l₂)) (pos : ∀ a ∈ l₁ ++ l₂, 0 < a)
    (here : toPtr scan.cur = l₂.head?) (found : (heapAllocSearch size scan l₂).2 ≠ [])
    (enough : l₂.length < fuel) : ∃ scan', heapAllocLoop size fuel h scan = some (h, scan') := by
  induction fuel generalizing scan l₁ l₂ with
  | zero => omega
  | succ fuel ih =>
      rw [heapAllocLoop]
      split
      case isFalse => exact ⟨scan, rfl⟩
      case isTrue go =>
        cases l₂ with
        | nil => exact absurd rfl found
        | cons cur l₂ =>
            obtain ⟨rfl, -⟩ := toPtr_eq_some.mp here
            simp only [heapAllocSearch, go.2, if_true] at found
            cases l₂ with
            | nil => exact absurd rfl found
            | cons x l₂ =>
                have shift : l₁ ++ scan.cur :: x :: l₂ = (l₁ ++ [scan.cur]) ++ x :: l₂ := by simp
                simp only [HeapScan.visit_cur, heapChunkNext_ahead list pos]
                rw [shift] at list pos
                have x_pos : 0 < x := pos x (by simp)
                rw [List.length_cons] at enough
                exact ih list pos (toPtr_pos x_pos)
                  (by rwa [heapAllocSearch_cur { scan.visit with stop := scan.cur } x]) (by omega)

/-- Where the search over the list ends within it, `heap_alloc` maps no page. -/
theorem heapAlloc_within (room : Room h l) (found : (heapAllocSearch size ⟨0, 0, 0, 0⟩ l).2 ≠ [])
    (enough : l.length < fuel) :
    ∃ mem h', heapAlloc fuel h size = some (mem, h') ∧ h'.pages = h.pages := by
  have list := room.list
  have some : l ≠ [] := by
    rintro rfl
    exact found rfl
  have first : heapChunkNext h 0 = (h.first, h) := by
    simp [heapChunkNext, list.first_pos some, list.last_pos some]
  have loop := @heapAllocLoop_within h [] l ⟨h.first, 0, 0, 0⟩ size fuel list
    (fun a mem => (room.isChunk mem).pos) list.first
    (by rwa [heapAllocSearch_cur ⟨0, 0, 0, 0⟩ h.first]) enough
  obtain ⟨scan, loop⟩ := loop
  rw [heapAlloc]
  simp only [first, loop, Option.bind_eq_bind, Option.bind_some]
  split
  · exact ⟨0, h, rfl, rfl⟩
  · exact ⟨_, _, rfl, heapTake_pages h scan⟩

/-- `heap_alloc` takes chunks of the list where the search over the list ends within it. -/
theorem takesListed_iff (room : Room h l) (some : 0 < size)
    (enough : l.length + 128 * h.pages.length < fuel) :
    TakesListed fuel h l size ↔ (heapAllocSearch size ⟨0, 0, 0, 0⟩ l).2 ≠ [] := by
  have joined := @heapAllocSearch_append size ⟨0, 0, 0, 0⟩ l (h.pages.flatMap pageChunks)
  constructor
  · rintro ⟨start, n, h', front, rest, result, -, -, -, pages⟩ none
    obtain ⟨-, scan', goes⟩ := joined.resolve_right (fun some => some.1 none)
    obtain ⟨h'', l', result', -⟩ | ⟨start', h'', n', front', x, rest', result', -, finds, -⟩ :=
      heapAlloc_search room some enough
    · rw [result] at result'
      have zero := (Prod.mk.inj (Option.some.inj result')).1
      simp [heapChunkMetaSize, heapChunkSize, heapChunkDataSize] at zero
    · rw [result] at result'
      obtain ⟨-, rfl⟩ := Prod.mk.inj (Option.some.inj result')
      obtain ⟨⟨scan, search, -⟩, -⟩ := finds
      have short := @length_heapAllocSearch size scan' (h.pages.flatMap pageChunks)
      rw [← goes, search, pages, List.length_cons, List.length_append] at short
      omega
  · intro found
    obtain ⟨mem, h', result, pages⟩ := @heapAlloc_within h l size fuel room found (by omega)
    obtain ⟨h'', l', -, -, none⟩ | ⟨start, h'', n, front, x, rest, result', taken, -⟩ :=
      heapAlloc_search room some enough
    · rw [(joined.resolve_left (fun empty => found empty.1)).2] at none
      exact absurd (List.append_eq_nil_iff.mp none).1 found
    · rw [result] at result'
      obtain ⟨rfl, rfl⟩ := Prod.mk.inj (Option.some.inj result')
      obtain ⟨new, front', rest', grown, split, same⟩ := taken.taken
      rw [pages] at grown
      obtain rfl : new = [] := List.self_eq_append_left.mp grown
      rw [List.flatMap_nil, List.append_nil] at split
      refine ⟨start, n, h', front', rest', result, taken.enough, split, ?_, pages⟩
      rw [← same]
      exact taken.list

/-- `heap_alloc` takes chunks of the list wherever there is a hole that fits, if and only if one is
    usable then. -/
theorem heapAlloc_uses_hole_iff (room : Room h l) (some : 0 < size) (chunks : ChunksFor size k)
    (enough : l.length + 128 * h.pages.length < fuel) :
    (FittingHole l k → TakesListed fuel h l size) ↔ (FittingHole l k → Usable l k) := by
  obtain ⟨large, least⟩ := chunks.bounds some
  rw [takesListed_iff room some enough,
    heapAllocSearch_usable (fun a mem => room.isChunk mem) some large least]

end

/-- A free list of a chunk, a hole of two chunks and a chunk; `page` can be mapped. -/
def scatteredHeap (page : Nat) : Heap where
  mem a :=
    if a = 0x1000 then ⟨0x1040, 0, 0, 0⟩
    else if a = 0x1040 then ⟨0x1060, 0x1000, 0, 0⟩
    else if a = 0x1060 then ⟨0x10a0, 0x1040, 0, 0⟩
    else ⟨0, 0x1060, 0, 0⟩
  first := 0x1000
  last := 0x10a0
  pages := [page]

theorem scatteredHeap_room : Room (scatteredHeap 0x2000) [0x1000, 0x1040, 0x1060, 0x10a0] where
  list := ⟨by simp [Seg, Heap.next, Heap.prev, Heap.metaNext, Heap.metaPrev, scatteredHeap, toPtr],
    rfl, rfl⟩
  nodup := by decide +kernel
  chunk := by
    intro a mem
    have bounds : ∀ a ∈ [0x1000, 0x1040, 0x1060, 0x10a0] ++ [0x2000].flatMap pageChunks,
        a % 32 = 0 ∧ 0 < a ∧ a < 2 ^ 64 := by decide +kernel
    obtain ⟨aligned, pos, fits⟩ := bounds a mem
    exact ⟨Nat.dvd_of_mod_eq_zero aligned, pos, fits⟩

theorem chunksFor_48 : ChunksFor 48 2 := by
  refine ⟨by decide, fun k enough => ?_⟩
  simp only [Set.mem_ofPred_eq, heapChunkDataSize, heapChunkSize] at enough
  omega

theorem heapAlloc_uses_hole_iff_scattered :
    (FittingHole [0x1000, 0x1040, 0x1060, 0x10a0] 2 →
      TakesListed 133 (scatteredHeap 0x2000) [0x1000, 0x1040, 0x1060, 0x10a0] 48) ↔
    (FittingHole [0x1000, 0x1040, 0x1060, 0x10a0] 2 →
      Usable [0x1000, 0x1040, 0x1060, 0x10a0] 2) :=
  heapAlloc_uses_hole_iff scatteredHeap_room (by decide) chunksFor_48 (by decide)

/-- The hole of two chunks is dropped with its first chunk, and a page is mapped for 48 bytes. -/
theorem heapAlloc_not_uses_hole : Room (scatteredHeap 0x2000) [0x1000, 0x1040, 0x1060, 0x10a0] ∧
    [0x1000, 0x1040, 0x1060, 0x10a0].Pairwise (· < ·) ∧ ChunksFor 48 2 ∧
    FittingHole [0x1000, 0x1040, 0x1060, 0x10a0] 2 ∧
    ¬ TakesListed 133 (scatteredHeap 0x2000) [0x1000, 0x1040, 0x1060, 0x10a0] 48 := by
  refine ⟨scatteredHeap_room, by decide, chunksFor_48, ⟨[0x1000], 0x1040, [0x10a0], rfl, by decide⟩, ?_⟩
  rw [takesListed_iff scatteredHeap_room (by decide) (by decide)]
  decide

end Sdx.Mm
