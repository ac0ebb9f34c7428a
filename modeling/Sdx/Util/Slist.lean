import Sdx.Util.Dlist

/-! # The singly linked list macros (`inc/util/list.h`)

`slist_foreach` is the same loop as `dlist_foreach`.
-/

namespace Sdx.Util

open Sdx.Lib LinkedList

universe u

variable {α : Type u}

structure Slist (α : Type u) where
  next : α → Option α
  head : Option α

namespace Slist

variable [DecidableEq α]

/-- `slist_add_start`. -/
def addStart (list : Slist α) (entry : α) : Slist α :=
  { next := Function.update list.next entry list.head, head := some entry }

/-- The loop of `slist_add_end`: the element that none comes behind. -/
def addEndLoop (next : α → Option α) : Nat → α → Option α
  | 0, _ => none
  | fuel + 1, cur =>
      match next cur with
      | none => some cur
      | some behind => addEndLoop next fuel behind

/-- `slist_add_end`. -/
def addEnd (list : Slist α) (entry : α) (fuel : Nat) : Option (Slist α) :=
  match list.head with
  | none => some { list with head := some entry }
  | some first => (addEndLoop list.next fuel first).map fun last =>
      { list with next := Function.update list.next last (some entry) }

/-- The loop of `slist_del`: the links behind it. -/
def delLoop (next : α → Option α) (entry : α) : Nat → Option α → Option (α → Option α)
  | 0, _ => none
  | _ + 1, none => some next
  | fuel + 1, some cur =>
      if next cur = some entry then some (Function.update next cur ((next cur).bind next))
      else delLoop next entry fuel (next cur)

/-- `slist_del`. -/
def del (list : Slist α) (entry : α) (fuel : Nat) : Option (Slist α) :=
  if list.head = some entry then some { list with head := list.head.bind list.next }
  else (delLoop list.next entry fuel list.head).map fun next => { list with next }

variable {list : Slist α} {l l₁ l₂ : List α} {entry c : α} {first : Option α} {next : α → Option α}

theorem addStart_walk (walk : Walk list.next list.head l) (fresh : entry ∉ l) :
    Walk (list.addStart entry).next (list.addStart entry).head (entry :: l) := by
  refine .visit ?_
  simp only [addStart, Function.update_self]
  refine walk.congr fun x mem => Function.update_of_ne ?_ _ _
  rintro rfl
  exact fresh mem

omit [DecidableEq α] in
theorem addEndLoop_returns (walk : Walk next (some c) (c :: l)) :
    Returns (fun fuel => addEndLoop next fuel c) ((c :: l).getLast (List.cons_ne_nil c l)) := by
  induction l generalizing c with
  | nil =>
      have ends : next c = none := walk.tail.head_eq
      exact .step (fun fuel => by simp only [addEndLoop, ends]) (.const c)
  | cons y l ih =>
      have here : next c = some y := walk.tail.head_eq
      have rest := walk.tail
      rw [here] at rest
      rw [List.getLast_cons (List.cons_ne_nil y l)]
      exact .step (fun fuel => by simp only [addEndLoop, here]) (ih rest)

/-- `slist_add_end` puts a new element that points nowhere behind the others. -/
theorem addEnd_returns (walk : Walk list.next list.head l) (fresh : entry ∉ l)
    (ends : list.next entry = none) :
    ∃ list', Returns (list.addEnd entry) list' ∧ Walk list'.next list'.head (l ++ [entry]) := by
  cases l with
  | nil =>
      have head : list.head = none := walk.head_eq
      refine ⟨{ list with head := some entry }, .congr (fun fuel => ?_) (.const _), ?_⟩
      · rw [addEnd, head]
      · apply Walk.visit
        rw [ends]
        exact .stop
  | cons first l =>
      obtain head : list.head = some first := walk.head_eq
      rw [head] at walk
      refine ⟨_, .congr (fun fuel => ?_) ((addEndLoop_returns walk).map fun last =>
        { list with next := Function.update list.next last (some entry) }), ?_⟩
      · rw [addEnd, head]
      · obtain ⟨before, last, split⟩ := List.eq_nil_or_concat (first :: l) |>.resolve_left
          (List.cons_ne_nil first l)
        simp only [head, split, List.concat_eq_append, List.getLast_concat] at walk fresh ⊢
        have last_ends : list.next last = none := (Walk.suffix walk).tail.head_eq
        have same : Function.update list.next entry (list.next last) = list.next := by
          rw [last_ends, ← ends, Function.update_eq_self]
        have added := Walk.insertAfter walk fresh
        rw [same] at added
        rwa [List.append_assoc]

theorem delLoop_returns (walk : Walk next first (l₁ ++ c :: entry :: l₂)) :
    Returns (fun fuel => delLoop next entry fuel first) (Function.update next c (next entry)) := by
  induction l₁ generalizing first with
  | nil =>
      obtain rfl : first = some c := walk.head_eq
      have here : next c = some entry := walk.tail.head_eq
      refine .step (fun fuel => ?_) (.const _)
      simp only [delLoop, here, if_true, Option.bind_some]
  | cons x l₁ ih =>
      obtain rfl : first = some x := walk.head_eq
      have rest := walk.tail
      have off : next x ≠ some entry := by
        intro back
        -- `entry` would be the second element and come later again
        have second := rest.head_eq
        have once := rest.nodup
        rw [back] at second
        cases l₁ with
        | nil =>
            cases second
            simp at once
        | cons y l₁ =>
            cases second
            simp at once
      refine .step (fun fuel => ?_) (ih rest)
      simp only [delLoop, off, if_false]

/-- `slist_del` takes the element out, wherever it is. -/
theorem del_returns (walk : Walk list.next list.head (l₁ ++ entry :: l₂)) :
    ∃ list', Returns (list.del entry) list' ∧ Walk list'.next list'.head (l₁ ++ l₂) := by
  rcases List.eq_nil_or_concat l₁ with rfl | ⟨l₁, c, rfl⟩
  · have head : list.head = some entry := walk.head_eq
    refine ⟨{ list with head := list.next entry }, .congr (fun fuel => ?_) (.const _), ?_⟩
    · rw [del, if_pos head, head, Option.bind_some]
    · rw [List.nil_append, head] at walk
      exact walk.tail
  · rw [List.concat_eq_append, List.append_assoc, List.singleton_append] at walk
    have off : list.head ≠ some entry := by
      intro head
      have first := walk.head_eq
      have once := walk.nodup
      rw [head] at first
      cases l₁ with
      | nil =>
          cases first
          simp at once
      | cons y l₁ =>
          cases first
          simp at once
    refine ⟨_, .congr (fun fuel => ?_) ((delLoop_returns walk).map fun next => { list with next }), ?_⟩
    · rw [del, if_neg off]
    · rw [List.concat_eq_append, List.append_assoc, List.singleton_append]
      exact walk.unlink

end Slist

end Sdx.Util
