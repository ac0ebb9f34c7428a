import Sdx.Lib.Fuel
import Sdx.Lib.LinkedList

/-! # The doubly linked list macros (`inc/util/list.h`)

`dlist_add` appends. `dlist_del` is right at either end of a list of two or more. It reads
through `NULL` when it takes out the only element, and when it takes out an element from the
middle it gives the next one the `prev` of the element before: that one stays on the forward
links and is gone from the backward links.
-/

namespace Sdx.Util

open Sdx.Lib LinkedList

universe u

variable {α : Type u}

structure Dlist (α : Type u) where
  next : α → Option α
  prev : α → Option α
  head : Option α
  tail : Option α

inductive Fault where
  | nullDeref
  deriving DecidableEq

/-- `dlist_foreach` up to the first element that passes. -/
def dlistFind (next : α → Option α) (test : α → Bool) : Nat → Option α → Option (Option α)
  | 0, _ => none
  | _ + 1, none => some none
  | fuel + 1, some cur => if test cur then some (some cur) else dlistFind next test fuel (next cur)

/-- What `dlist_reveach` visits. -/
def dlistReveach (prev : α → Option α) : Nat → Option α → Option (List α)
  | 0, _ => none
  | _ + 1, none => some []
  | fuel + 1, some cur => (dlistReveach prev fuel (prev cur)).map (cur :: ·)

theorem dlistFind_returns {next : α → Option α} {start : Option α} {l : List α}
    (walk : Walk next start l) (test : α → Bool) :
    Returns (fun fuel => dlistFind next test fuel start) (l.find? test) := by
  induction walk with
  | stop => exact .step (fun _ => rfl) (.const none)
  | @visit x l _ ih =>
      cases found : test x with
      | true =>
          rw [List.find?_cons_of_pos found]
          exact .step (fun fuel => by simp only [dlistFind, found, if_true]) (.const (some x))
      | false =>
          rw [List.find?_cons_of_neg (by simp [found])]
          apply Returns.step _ ih
          intro fuel
          simp only [dlistFind, found, Bool.false_eq_true, if_false]

theorem dlistReveach_returns {prev : α → Option α} {start : Option α} {l : List α}
    (walk : Walk prev start l) : Returns (fun fuel => dlistReveach prev fuel start) l := by
  induction walk with
  | stop => exact .step (fun _ => rfl) (.const [])
  | @visit x l _ ih => exact .step (fun _ => rfl) (ih.map (x :: ·))

namespace Dlist

variable [DecidableEq α]

/-- `dlist_add`. It sets `entry->next` only in an empty list. -/
def add (list : Dlist α) (entry : α) : Dlist α :=
  match list.tail with
  | none =>
      { next := Function.update list.next entry none
        prev := Function.update list.prev entry none
        head := some entry
        tail := some entry }
  | some last =>
      { list with
        prev := Function.update list.prev entry (some last)
        next := Function.update list.next last (some entry)
        tail := some entry }

/-- The first `if` of `dlist_del`. -/
def delHead (list : Dlist α) (entry : α) : Except Fault (Dlist α) :=
  if list.head = some entry then
    match list.next entry with
    | none => .error .nullDeref
    | some second =>
        .ok { list with head := some second, prev := Function.update list.prev second none }
  else .ok list

/-- The body of the loop of `dlist_del` where it finds `entry` behind `cur`. -/
def unlink (list : Dlist α) (entry cur : α) : Dlist α :=
  { list with
    prev := match list.next entry with
      | some after => Function.update list.prev after (list.prev cur)
      | none => list.prev
    next := Function.update list.next cur (list.next entry) }

def delLoop (list : Dlist α) (entry : α) : Nat → Option α → Option (Dlist α)
  | 0, _ => none
  | _ + 1, none => some list
  | fuel + 1, some cur =>
      if list.next cur = some entry then some (list.unlink entry cur)
      else delLoop list entry fuel (list.next cur)

/-- The second `if` of `dlist_del` and its `else`. -/
def delRest (list : Dlist α) (entry : α) (fuel : Nat) : Option (Except Fault (Dlist α)) :=
  if list.tail = some entry then
    match list.prev entry with
    | none => some (.error .nullDeref)
    | some last =>
        some (.ok { list with tail := some last, next := Function.update list.next last none })
  else (list.delLoop entry fuel list.head).map .ok

/-- `dlist_del`. -/
def del (list : Dlist α) (entry : α) (fuel : Nat) : Option (Except Fault (Dlist α)) :=
  match list.delHead entry with
  | .error fault => some (.error fault)
  | .ok list => list.delRest entry fuel

/-- The links of `list` hold `l`, from both ends. -/
def Holds (list : Dlist α) (l : List α) : Prop :=
  LinkedList.Holds list.next list.prev list.head list.tail l

variable {list : Dlist α} {l l₁ l₂ : List α} {entry x y : α}

theorem Holds.add (holds : list.Holds l) (fresh : entry ∉ l) (ends : list.next entry = none) :
    (list.add entry).Holds (l ++ [entry]) := by
  have seg := LinkedList.Holds.seg holds
  have tail := LinkedList.Holds.tail_eq holds
  have head := LinkedList.Holds.head_eq holds
  cases l using List.reverseRecOn with
  | nil =>
      have empty : list.tail = none := tail
      have seg' : Seg (Function.update list.next entry none) (Function.update list.prev entry none)
          none [entry] none := by simp [Seg]
      unfold Dlist.add Dlist.Holds
      rw [empty]
      exact LinkedList.Holds.of_seg seg'
  | append_singleton l last _ =>
      have tail' : list.tail = some last := by rw [tail, List.getLast?_concat]
      have head' : (l ++ [last] ++ [entry]).head? = list.head := by
        rw [head]
        cases l <;> rfl
      have off : last ≠ entry := by
        rintro rfl
        simp at fresh
      have nodup := LinkedList.Holds.nodup holds
      have front : Seg (Function.update list.next last (some entry))
          (Function.update list.prev entry (some last)) none (l ++ [last]) (some entry) := by
        apply Seg.rewire nodup seg
        · intro z _ inner
          rw [List.getLast?_concat] at inner
          exact Function.update_of_ne (fun same => inner (congrArg some same.symm)) _ _
        · intro z here
          rw [List.getLast?_concat, Option.some.injEq] at here
          rw [here, Function.update_self]
        · intro z mem _
          exact Function.update_of_ne (ne_of_mem_of_not_mem mem fresh) _ _
        · intro z first
          rw [Function.update_of_ne (ne_of_mem_of_not_mem (List.mem_of_head? first) fresh)]
          exact seg.head_prev first
      have back : Seg (Function.update list.next last (some entry))
          (Function.update list.prev entry (some last)) (some last) [entry] none := by
        refine ⟨Function.update_self .., ?_, trivial⟩
        rw [Function.update_of_ne off.symm, ends]
        rfl
      have made : LinkedList.Holds _ _ _ _ (l ++ [last] ++ [entry]) :=
        .of_seg (Seg.append.mpr ⟨front, by rwa [List.getLast?_concat]⟩)
      unfold Dlist.add Dlist.Holds
      rw [tail']
      rw [List.getLast?_concat, head'] at made
      exact made

theorem delLoop_absent {start : Option α} (walk : Walk list.next start l)
    (absent : ∀ y ∈ l, list.next y ≠ some entry) :
    Returns (fun fuel => list.delLoop entry fuel start) list := by
  induction walk with
  | stop => exact .step (fun _ => rfl) (.const list)
  | @visit x l _ ih =>
      apply Returns.step _ (ih fun y mem => absent y (List.mem_cons_of_mem _ mem))
      intro fuel
      simp only [delLoop, absent x List.mem_cons_self, if_false]

theorem delLoop_found {start : Option α} (walk : Walk list.next start (l₁ ++ x :: entry :: l₂)) :
    Returns (fun fuel => list.delLoop entry fuel start) (list.unlink entry x) := by
  have once := walk.nodup
  induction l₁ generalizing start with
  | nil =>
      have first := walk.head_eq
      rw [List.nil_append, List.head?_cons] at first
      rw [first] at walk ⊢
      have behind : list.next x = some entry := walk.tail.head_eq
      exact .step (fun fuel => by simp only [delLoop, behind, if_true]) (.const _)
  | cons y l₁ ih =>
      cases walk with
      | visit walk =>
          apply Returns.step _ (ih walk once.of_cons)
          intro fuel
          have other : list.next y ≠ some entry := by
            intro here
            have first : some entry = (l₁ ++ x :: entry :: l₂).head? := here.symm.trans walk.head_eq
            cases l₁ with
            | nil =>
                obtain rfl : entry = x := by simpa using first
                simp at once
            | cons z l₁ =>
                obtain rfl : entry = z := by simpa using first
                simp at once
          simp only [delLoop, other, if_false]

/-- Taking out the only element reads `prev` of the new head, `NULL`. -/
theorem del_only (holds : list.Holds [x]) (fuel : Nat) :
    list.del x fuel = some (.error .nullDeref) := by
  have head : list.head = some x := LinkedList.Holds.head_eq holds
  have alone : list.next x = none := by
    have forward : Walk list.next list.head [x] := holds.forward
    rw [head] at forward
    exact forward.tail.head_eq
  unfold del delHead
  rw [if_pos head, alone]

theorem del_head (holds : list.Holds (x :: y :: l)) :
    ∃ list' : Dlist α, Returns (list.del x) (.ok list') ∧ list'.Holds (y :: l) := by
  have head : list.head = some x := LinkedList.Holds.head_eq holds
  have tail := LinkedList.Holds.tail_eq holds
  have nodup := LinkedList.Holds.nodup holds
  have seg := LinkedList.Holds.seg holds
  have second : list.next x = some y := seg.2.1
  have first : list.delHead x =
      .ok { list with head := some y, prev := Function.update list.prev y none } := by
    unfold delHead
    rw [if_pos head, second]
  have rest : Seg list.next (Function.update list.prev y none) none (y :: l) none := by
    apply Seg.rewire nodup.of_cons seg.2.2
    · intro z _ _
      rfl
    · intro z last
      exact seg.2.2.last_next last
    · intro z _ inner
      exact Function.update_of_ne (fun same => inner (congrArg some same.symm)) _ _
    · intro z here
      rw [List.head?_cons, Option.some.injEq] at here
      rw [here, Function.update_self]
  have holds' := LinkedList.Holds.of_seg rest
  have other : list.tail ≠ some x := by
    rw [tail, List.getLast?_cons_cons]
    intro same
    exact (List.nodup_cons.mp nodup).1 (List.mem_of_getLast? same)
  refine ⟨{ list with head := some y, prev := Function.update list.prev y none }, ?_, ?_⟩
  · have walk : Walk list.next (some x) (x :: y :: l) := by
      have forward : Walk list.next list.head (x :: y :: l) := holds.forward
      rwa [head] at forward
    have loop : Returns (fun fuel => Dlist.delLoop
        { list with head := some y, prev := Function.update list.prev y none } x fuel (some y)) _ :=
      delLoop_absent holds'.forward fun z mem => walk.next_ne_first (List.mem_cons_of_mem _ mem)
    apply (loop.map Except.ok).congr
    intro fuel
    simp only [del, first, delRest, other, if_false]
  · unfold Dlist.Holds
    rw [tail, List.getLast?_cons_cons]
    exact holds'

theorem del_last (holds : list.Holds (l ++ [y] ++ [x])) :
    ∃ list' : Dlist α, Returns (list.del x) (.ok list') ∧ list'.Holds (l ++ [y]) := by
  have head := LinkedList.Holds.head_eq holds
  have nodup := LinkedList.Holds.nodup holds
  have tail : list.tail = some x := by
    rw [LinkedList.Holds.tail_eq holds, List.getLast?_concat]
  obtain ⟨front, back⟩ := Seg.append.mp (LinkedList.Holds.seg holds)
  have before : list.prev x = some y := by
    rw [back.1, List.getLast?_concat]
    rfl
  have absent : x ∉ l ++ [y] := by
    intro mem
    exact List.disjoint_of_nodup_append nodup mem List.mem_cons_self
  have head' : list.head = (l ++ [y]).head? := by
    rw [head]
    cases l <;> rfl
  have other : list.head ≠ some x := by
    rw [head']
    intro same
    exact absent (List.mem_of_head? same)
  have rest : Seg (Function.update list.next y none) list.prev none (l ++ [y]) none := by
    apply Seg.rewire nodup.of_append_left front
    · intro z _ inner
      rw [List.getLast?_concat] at inner
      exact Function.update_of_ne (fun same => inner (congrArg some same.symm)) _ _
    · intro z here
      rw [List.getLast?_concat, Option.some.injEq] at here
      rw [here, Function.update_self]
    · intro z _ _
      rfl
    · intro z first
      exact front.head_prev first
  have holds' := LinkedList.Holds.of_seg rest
  refine ⟨{ list with tail := some y, next := Function.update list.next y none }, ?_, ?_⟩
  · apply (Returns.const _).congr
    intro fuel
    simp only [del, delHead, other, if_false, delRest, tail, if_true, before]
  · unfold Dlist.Holds
    rw [head']
    rw [List.getLast?_concat] at holds'
    exact holds'

/-- Taking out an element from the middle leaves the one before it off the backward links. -/
theorem del_middle (holds : list.Holds (l₁ ++ x :: entry :: y :: l₂)) :
    ∃ list' : Dlist α, Returns (list.del entry) (.ok list') ∧
      Walk list'.next list'.head (l₁ ++ x :: y :: l₂) ∧
      Walk list'.prev list'.tail (l₂.reverse ++ y :: l₁.reverse) := by
  have forward : Walk list.next list.head (l₁ ++ x :: entry :: y :: l₂) := holds.forward
  have backward : Walk list.prev list.tail (l₂.reverse ++ y :: entry :: x :: l₁.reverse) := by
    have all : Walk list.prev list.tail (l₁ ++ x :: entry :: y :: l₂).reverse := holds.backward
    simpa using all
  have nodup := LinkedList.Holds.nodup holds
  have not_head : list.head ≠ some entry := by
    rw [LinkedList.Holds.head_eq holds]
    cases l₁ with
    | nil =>
        intro same
        obtain rfl : x = entry := by simpa using same
        simp at nodup
    | cons z l₁ =>
        intro same
        obtain rfl : z = entry := by simpa using same
        simp at nodup
  have not_tail : list.tail ≠ some entry := by
    rw [backward.head_eq]
    have nodup := backward.nodup
    cases back : l₂.reverse with
    | nil =>
        intro same
        obtain rfl : y = entry := by simpa using same
        simp [back] at nodup
    | cons z l =>
        intro same
        obtain rfl : z = entry := by simpa using same
        simp [back] at nodup
  have after : list.next entry = some y := by
    rw [List.append_cons] at forward
    exact forward.suffix.tail.head_eq
  have links : (list.unlink entry x).prev = Function.update list.prev y (list.prev x) := by
    unfold unlink
    rw [after]
  refine ⟨list.unlink entry x, ?_, ?_, ?_⟩
  · apply ((delLoop_found forward).map Except.ok).congr
    intro fuel
    simp only [del, delHead, not_head, if_false, delRest, not_tail]
  · exact forward.unlink
  · rw [links]
    have once := backward.unlink
    have twice := once.unlink
    have other : x ≠ y := by
      rintro rfl
      have twice := nodup.of_append_right
      simp at twice
    rw [Function.update_of_ne other, Function.update_idem] at twice
    exact twice

end Dlist

end Sdx.Util
