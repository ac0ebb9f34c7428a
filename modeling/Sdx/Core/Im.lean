import Sdx.Lib.Run
import Sdx.Util.Dlist

/-! # The interrupt manager's handlers (`core/im/im.c`)

Handlers are registered on a doubly linked list, oldest first, and dispatch walks it from the
tail, once for each priority. Beside the list a run keeps what is registered, so that dispatch
can be compared with it: it runs the registered handlers as long as nothing is deleted from the
middle of the list and the last handler is never deleted.
-/

namespace Sdx.Core

open Sdx.Lib Sdx.Util LinkedList

universe u v

/-- `im_handler_prio_t`. -/
inductive ImHandlerPrio where
  | first
  | second
  | last
  deriving DecidableEq

/-- The data of `struct im_handler_entry`; its links are in the list. -/
structure ImHandlerEntry (β : Type v) where
  func : β
  prio : ImHandlerPrio
  vector : UInt8

/-- `struct im_handler` and the entries its list can reach. -/
structure ImHandler (α : Type u) (β : Type v) where
  count : Nat
  list : Dlist α
  entries : α → ImHandlerEntry β

variable {α : Type u} {β : Type v}

namespace ImHandlerEntry

variable [DecidableEq β]

/-- `cur->vector == vector && cur->func == handler`. -/
def IsFor (entry : ImHandlerEntry β) (vector : UInt8) (handler : β) : Bool :=
  entry.vector == vector && entry.func == handler

/-- `cur->prio == i && cur->vector == stack->vector`. -/
def RunsAt (entry : ImHandlerEntry β) (prio : ImHandlerPrio) (vector : UInt64) : Bool :=
  entry.prio == prio && entry.vector.toUInt64 == vector

end ImHandlerEntry

/-- The values `i` takes in `im_handle`. -/
def imHandlerPrios : List ImHandlerPrio := [.first, .second, .last]

/-- The handlers `im_handle` calls, in the order it calls them. -/
def imHandle (im : ImHandler α β) (vector : UInt64) (fuel : Nat) : Option (List β) :=
  (dlistReveach im.list.prev fuel im.list.tail).map fun visited =>
    imHandlerPrios.flatMap fun prio =>
      ((visited.map im.entries).filter (·.RunsAt prio vector)).map (·.func)

section

variable [DecidableEq α] [DecidableEq β]

/-- `im_add_handler`, where `heap_alloc` returns `entry`. -/
def imAddHandler (im : ImHandler α β) (vector : UInt8) (prio : ImHandlerPrio)
    (handler : Option β) (entry : α) (fuel : Nat) : Option (ImHandler α β) :=
  match handler with
  | none => some im
  | some func =>
      (dlistFind im.list.next (fun cur => (im.entries cur).IsFor vector func) fuel im.list.head).map
        fun found =>
          match found with
          | some _ => im
          | none =>
              let blank := { im.list with next := Function.update im.list.next entry none }
              { count := im.count + 1
                list := blank.add entry
                entries := Function.update im.entries entry ⟨func, prio, vector⟩ }

/-- `im_del_handler` behind its search. -/
def imDelFound (im : ImHandler α β) (fuel : Nat) :
    Option α → Option (Except Fault (ImHandler α β))
  | none => some (.ok im)
  | some entry =>
      (im.list.del entry fuel).map fun deleted =>
        deleted.map fun list => { im with list, count := im.count - 1 }

/-- `im_del_handler`. -/
def imDelHandler (im : ImHandler α β) (vector : UInt8) (handler : Option β) (fuel : Nat) :
    Option (Except Fault (ImHandler α β)) :=
  match handler with
  | none => some (.ok im)
  | some func =>
      if im.list.head = none ∨ im.count = 0 then some (.ok im)
      else
        (dlistFind im.list.next (fun cur => (im.entries cur).IsFor vector func) fuel
          im.list.head).bind (imDelFound im fuel)

end

/-- A registered handler and the entry `heap_alloc` returned for it. -/
structure Registration (α : Type u) (β : Type v) where
  entry : α
  data : ImHandlerEntry β

/-- What the handlers are after a sequence of calls, and what is registered, oldest first. -/
structure ImState (α : Type u) (β : Type v) where
  im : Except Fault (ImHandler α β)
  registered : List (Registration α β)

inductive ImOp (α : Type u) (β : Type v) where
  | addHandler (vector : UInt8) (prio : ImHandlerPrio) (handler : Option β) (entry : α)
  | delHandler (vector : UInt8) (handler : Option β)

namespace ImOp

variable [DecidableEq β]

/-- What a call is meant to do to the registered handlers. -/
def register (registered : List (Registration α β)) : ImOp α β → List (Registration α β)
  | .addHandler vector prio (some func) entry =>
      match registered.find? (·.data.IsFor vector func) with
      | some _ => registered
      | none => registered ++ [⟨entry, ⟨func, prio, vector⟩⟩]
  | .delHandler vector (some func) => registered.eraseP (·.data.IsFor vector func)
  | _ => registered

/-- `heap_alloc` returns memory that no registered handler uses. -/
def Allocates (registered : List (Registration α β)) : ImOp α β → Prop
  | .addHandler _ _ _ entry => entry ∉ registered.map (·.entry)
  | .delHandler _ _ => True

variable [DecidableEq α]

def call (im : ImHandler α β) (fuel : Nat) : ImOp α β → Option (Except Fault (ImHandler α β))
  | .addHandler vector prio handler entry => (imAddHandler im vector prio handler entry fuel).map .ok
  | .delHandler vector handler => imDelHandler im vector handler fuel

end ImOp

/-- The registered handlers for a vector by ascending priority, and latest first within one. -/
def calls (registered : List (Registration α β)) (vector : UInt64) : List β :=
  imHandlerPrios.flatMap fun prio =>
    ((registered.reverse.map (·.data)).filter (·.RunsAt prio vector)).map (·.func)

/-- Every handler for the vector has one of the priorities. -/
theorem length_calls (registered : List (Registration α β)) (vector : UInt64) :
    (calls registered vector).length = registered.countP (·.data.vector.toUInt64 == vector) := by
  unfold calls
  rw [← List.countP_reverse]
  induction registered.reverse with
  | nil => rfl
  | cons r l ih =>
      simp only [imHandlerPrios, List.flatMap_cons, List.flatMap_nil, List.append_nil,
        List.length_append, List.length_map, List.map_cons, List.filter_cons,
        ImHandlerEntry.RunsAt, List.countP_cons] at ih ⊢
      rw [← ih]
      cases here : r.data.vector.toUInt64 == vector with
      | false => simp
      | true => cases r.data.prio <;> simp <;> omega

/-- What dispatch calls when the backward links visit the entries of `l`, latest first. -/
theorem imHandle_returns {im : ImHandler α β} {l : List (Registration α β)}
    (walk : Walk im.list.prev im.list.tail (l.reverse.map (·.entry)))
    (entries : ∀ r ∈ l, im.entries r.entry = r.data) (vector : UInt64) :
    Returns (imHandle im vector) (calls l vector) := by
  have visited : (l.reverse.map (·.entry)).map im.entries = l.reverse.map (·.data) := by
    rw [List.map_map]
    exact List.map_congr_left fun r mem => entries r (List.mem_reverse.mp mem)
  have called := (dlistReveach_returns walk).map fun visited =>
    imHandlerPrios.flatMap fun prio =>
      ((visited.map im.entries).filter (·.RunsAt prio vector)).map (·.func)
  rw [visited] at called
  exact called

/-- Taking a handler out of the registered ones. -/
theorem erase_found {registered : List (Registration α β)} {test : Registration α β → Bool}
    {r : Registration α β} (found : registered.find? test = some r) :
    ∃ l₁ l₂, registered = l₁ ++ r :: l₂ ∧ registered.eraseP test = l₁ ++ l₂ := by
  obtain ⟨here, l₁, l₂, rfl, before⟩ := List.find?_eq_some_iff_append.mp found
  refine ⟨l₁, l₂, rfl, ?_⟩
  rw [List.eraseP_append_right _ (fun x mem => by simpa using before x mem),
    List.eraseP_cons_of_pos here]

/-- A handler that is registered once is the oldest or the latest one where its neighbours say so. -/
theorem ends_iff {l₁ l₂ : List (Registration α β)} {r : Registration α β}
    (nodup : (l₁ ++ r :: l₂).Nodup) :
    ((l₁ ++ r :: l₂).head? = some r ↔ l₁ = []) ∧
      ((l₁ ++ r :: l₂).getLast? = some r ↔ l₂ = []) := by
  constructor
  · cases l₁ with
    | nil => simp
    | cons x l₁ =>
        have other : x ≠ r := by
          rintro rfl
          simp at nodup
        simp [other]
  · cases l₂ using List.reverseRecOn with
    | nil => simp
    | append_singleton l₂ x _ =>
        have other : x ≠ r := by
          rintro rfl
          have twice := nodup.of_append_right
          simp at twice
        rw [← List.cons_append, ← List.append_assoc, List.getLast?_concat]
        simp [other]

namespace ImState

/-- After the `bzero` of `im_init`. -/
def Start (s : ImState α β) : Prop :=
  s.registered = [] ∧
    ∃ im : ImHandler α β, s.im = .ok im ∧ im.list.head = none ∧ im.list.tail = none ∧ im.count = 0

def Step [DecidableEq α] [DecidableEq β] (s : ImState α β) (op : ImOp α β) (s' : ImState α β) :
    Prop :=
  ∃ im, s.im = .ok im ∧ op.Allocates s.registered ∧ Returns (fun fuel => op.call im fuel) s'.im ∧
    s'.registered = op.register s.registered

/-- `im_handle` runs the registered handlers and `count` is their number. -/
def Dispatches (s : ImState α β) : Prop :=
  ∃ im, s.im = .ok im ∧ im.count = s.registered.length ∧
    ∀ vector, Returns (imHandle im vector) (calls s.registered vector)

/-- A deletion takes the oldest or the latest handler, and not the only one. -/
def DeletesEnd [DecidableEq β] (s : ImState α β) : ImOp α β → Prop
  | .delHandler vector (some func) =>
      ∀ r, s.registered.find? (·.data.IsFor vector func) = some r →
        2 ≤ s.registered.length ∧ (s.registered.head? = some r ∨ s.registered.getLast? = some r)
  | _ => True

/-- The list holds the registered handlers. -/
structure Listed (s : ImState α β) (im : ImHandler α β) : Prop where
  ok : s.im = .ok im
  holds : im.list.Holds (s.registered.map (·.entry))
  entries : ∀ r ∈ s.registered, im.entries r.entry = r.data
  count : im.count = s.registered.length

variable {s s' : ImState α β} {im : ImHandler α β}

theorem Start.listed (start : s.Start) : ∃ im, s.Listed im := by
  obtain ⟨none_registered, im, ok, head, tail, count⟩ := start
  refine ⟨im, ok, ⟨?_, ?_⟩, ?_, ?_⟩
  · rw [head, none_registered]
    exact .stop
  · rw [tail, none_registered]
    exact .stop
  · rw [none_registered]
    exact nofun
  · rw [count, none_registered]
    rfl

theorem Listed.dispatches (listed : s.Listed im) : s.Dispatches := by
  refine ⟨im, listed.ok, listed.count, fun vector => imHandle_returns ?_ listed.entries vector⟩
  rw [List.map_reverse]
  exact listed.holds.backward

variable [DecidableEq β] {vector : UInt8} {func : β} {r : Registration α β}

/-- The search of `im_add_handler` and `im_del_handler`. -/
theorem Listed.find (listed : s.Listed im) (vector : UInt8) (func : β) :
    Returns (fun fuel => dlistFind im.list.next (fun cur => (im.entries cur).IsFor vector func) fuel
        im.list.head)
      ((s.registered.find? (·.data.IsFor vector func)).map (·.entry)) := by
  have forward : Walk im.list.next im.list.head (s.registered.map (·.entry)) := listed.holds.forward
  have found := dlistFind_returns forward fun cur => (im.entries cur).IsFor vector func
  have same : ∀ l : List (Registration α β), (∀ r ∈ l, im.entries r.entry = r.data) →
      (l.map (·.entry)).find? (fun cur => (im.entries cur).IsFor vector func) =
        (l.find? (·.data.IsFor vector func)).map (·.entry) := by
    intro l entries
    induction l with
    | nil => rfl
    | cons r l ih =>
        have here := entries r List.mem_cons_self
        have rest := ih fun r mem => entries r (List.mem_cons_of_mem _ mem)
        rw [List.map_cons, List.find?_cons, List.find?_cons, here, rest]
        cases r.data.IsFor vector func <;> rfl
  rw [same _ listed.entries] at found
  exact found

variable [DecidableEq α]

theorem Listed.add (listed : s.Listed im) (vector : UInt8) (prio : ImHandlerPrio) (func : β)
    {entry : α} (fresh : entry ∉ s.registered.map (·.entry)) :
    ∃ im', Returns (imAddHandler im vector prio (some func) entry) im' ∧
      Listed ⟨.ok im', ImOp.register s.registered (.addHandler vector prio (some func) entry)⟩
        im' := by
  have found := listed.find vector func
  cases already : s.registered.find? (·.data.IsFor vector func) with
  | some r =>
      rw [already] at found
      refine ⟨im, found.map _, ?_⟩
      simp only [ImOp.register, already]
      exact ⟨rfl, listed.holds, listed.entries, listed.count⟩
  | none =>
      rw [already] at found
      refine ⟨_, found.map _, ?_⟩
      simp only [ImOp.register, already]
      have blank : Dlist.Holds { im.list with next := Function.update im.list.next entry none }
          (s.registered.map (·.entry)) := by
        constructor
        · apply listed.holds.forward.congr
          intro x mem
          exact Function.update_of_ne (ne_of_mem_of_not_mem mem fresh) _ _
        · exact listed.holds.backward
      refine ⟨rfl, ?_, ?_, ?_⟩
      · rw [List.map_append]
        exact blank.add fresh (Function.update_self ..)
      · intro r mem
        cases List.mem_append.mp mem with
        | inl old =>
            have other := ne_of_mem_of_not_mem (List.mem_map_of_mem (f := (·.entry)) old) fresh
            exact (Function.update_of_ne other _ _).trans (listed.entries r old)
        | inr new =>
            obtain rfl := List.mem_singleton.mp new
            exact Function.update_self ..
      · rw [List.length_append, ← listed.count]
        rfl

/-- `im_del_handler` with a handler that is registered. -/
theorem Listed.del_found (listed : s.Listed im)
    (found : s.registered.find? (·.data.IsFor vector func) = some r)
    {deleted : Except Fault (Dlist α)} (returns : Returns (im.list.del r.entry) deleted) :
    Returns (imDelHandler im vector (some func))
      (deleted.map fun list => { im with list, count := im.count - 1 }) := by
  have search := listed.find vector func
  rw [found] at search
  have mem := List.mem_of_find?_eq_some found
  have nonempty : ¬ (im.list.head = none ∨ im.count = 0) := by
    have head : im.list.head = (s.registered.map (·.entry)).head? := listed.holds.head_eq
    rw [head, listed.count]
    cases registered : s.registered with
    | nil => simp [registered] at mem
    | cons _ _ => simp
  apply (search.bind (g := imDelFound im) (returns.map _)).congr
  intro fuel
  simp only [imDelHandler, nonempty, if_false]

theorem Listed.del_absent (listed : s.Listed im)
    (absent : s.registered.find? (·.data.IsFor vector func) = none) :
    Returns (imDelHandler im vector (some func)) (.ok im) := by
  have search := listed.find vector func
  rw [absent] at search
  by_cases empty : im.list.head = none ∨ im.count = 0
  · apply (Returns.const _).congr
    intro fuel
    simp only [imDelHandler, empty, if_true]
  · apply (search.bind (g := imDelFound im) (.const _)).congr
    intro fuel
    simp only [imDelHandler, empty, if_false]

/-- A deletion at an end keeps the list and the registered handlers together. -/
theorem Listed.deleteEnd (listed : s.Listed im)
    (ends : s.DeletesEnd (.delHandler vector (some func))) :
    ∃ im', Returns (imDelHandler im vector (some func)) (.ok im') ∧
      Listed ⟨.ok im', ImOp.register s.registered (.delHandler vector (some func))⟩ im' := by
  cases found : s.registered.find? (·.data.IsFor vector func) with
  | none =>
      have same : s.registered.eraseP (·.data.IsFor vector func) = s.registered :=
        List.eraseP_of_forall_not (List.find?_eq_none.mp found)
      refine ⟨im, listed.del_absent found, ?_⟩
      simp only [ImOp.register, same]
      exact ⟨rfl, listed.holds, listed.entries, listed.count⟩
  | some r =>
      obtain ⟨two, side⟩ := ends r found
      obtain ⟨l₁, l₂, split, erased⟩ := erase_found found
      have holds := listed.holds
      have entries := listed.entries
      rw [split] at holds side two
      have nodup : (l₁ ++ r :: l₂).Nodup := List.Nodup.of_map _ (LinkedList.Holds.nodup holds)
      have kept : ∃ list : Dlist α, Returns (im.list.del r.entry) (.ok list) ∧
          list.Holds ((l₁ ++ l₂).map (·.entry)) := by
        rw [(ends_iff nodup).1, (ends_iff nodup).2] at side
        cases side with
        | inl oldest =>
            subst oldest
            cases l₂ with
            | nil => simp at two
            | cons y l₂ => exact Dlist.del_head holds
        | inr latest =>
            subst latest
            cases l₁ using List.reverseRecOn with
            | nil => simp at two
            | append_singleton l₁ y _ =>
                simp only [List.map_append, List.map_cons, List.map_nil, List.append_nil] at holds ⊢
                exact Dlist.del_last holds
      obtain ⟨list, returns, holds'⟩ := kept
      refine ⟨_, listed.del_found found returns, ?_⟩
      simp only [ImOp.register, erased]
      refine ⟨rfl, holds', ?_, ?_⟩
      · intro r' mem
        apply listed.entries
        rw [split]
        simp only [List.mem_append, List.mem_cons] at mem ⊢
        exact mem.imp_right Or.inr
      · have count := listed.count
        simp only [split, List.length_append, List.length_cons] at count ⊢
        omega

/-- The only handler cannot be deleted, and one in the middle takes the handler before it off
    the backward links. -/
theorem Listed.deleteOther (listed : s.Listed im)
    (other : ¬ s.DeletesEnd (.delHandler vector (some func))) :
    ∃ result, Returns (imDelHandler im vector (some func)) result ∧
      ¬ Dispatches ⟨result, ImOp.register s.registered (.delHandler vector (some func))⟩ := by
  simp only [DeletesEnd, not_forall] at other
  obtain ⟨r, found, inside⟩ := other
  obtain ⟨l₁, l₂, split, erased⟩ := erase_found found
  have holds := listed.holds
  have entries := listed.entries
  rw [split] at holds inside entries
  have nodup : (l₁ ++ r :: l₂).Nodup := List.Nodup.of_map _ (LinkedList.Holds.nodup holds)
  rw [(ends_iff nodup).1, (ends_iff nodup).2] at inside
  cases l₁ using List.reverseRecOn with
  | nil =>
      cases l₂ with
      | nil =>
          have fault : Returns (im.list.del r.entry) (.error .nullDeref) :=
            (Returns.const _).congr (Dlist.del_only holds)
          refine ⟨_, listed.del_found found fault, ?_⟩
          rintro ⟨im', ok, -⟩
          cases ok
      | cons y l₂ => simp at inside
  | append_singleton l₁ x _ =>
      cases l₂ with
      | nil => simp at inside
      | cons y l₂ =>
          simp only [List.append_assoc, List.cons_append, List.nil_append, List.map_append,
            List.map_cons] at holds entries erased
          obtain ⟨list, returns, -, backward⟩ := Dlist.del_middle holds
          refine ⟨_, listed.del_found found returns, ?_⟩
          rintro ⟨im', ok, -, handled⟩
          obtain rfl := Except.ok.inj ok
          -- the backward links visit all that is left but `x`
          have visited : Walk list.prev list.tail ((l₁ ++ y :: l₂).reverse.map (·.entry)) := by
            simpa using backward
          have skipped : Returns (imHandle { im with list, count := im.count - 1 }
              x.data.vector.toUInt64) (calls (l₁ ++ y :: l₂) x.data.vector.toUInt64) := by
            apply imHandle_returns visited
            intro r mem
            apply entries
            simp only [List.mem_append, List.mem_cons] at mem ⊢
            tauto
          have all := handled x.data.vector.toUInt64
          have lengths := congrArg List.length (all.unique skipped)
          simp only [ImOp.register, erased] at lengths
          simp [length_calls] at lengths

section

variable {op : ImOp α β}

/-- One call that deletes nothing or at an end. -/
theorem Listed.call (listed : s.Listed im) (fresh : op.Allocates s.registered)
    (ends : s.DeletesEnd op) :
    ∃ im', Returns (fun fuel => op.call im fuel) (.ok im') ∧
      Listed ⟨.ok im', op.register s.registered⟩ im' := by
  cases op with
  | addHandler vector prio handler entry =>
      cases handler with
      | none => exact ⟨im, .const _, rfl, listed.holds, listed.entries, listed.count⟩
      | some func =>
          obtain ⟨im', added, listed'⟩ := listed.add vector prio func fresh
          exact ⟨im', added.map Except.ok, listed'⟩
  | delHandler vector handler =>
      cases handler with
      | none => exact ⟨im, .const _, rfl, listed.holds, listed.entries, listed.count⟩
      | some func => exact listed.deleteEnd ends

theorem Listed.call_other (listed : s.Listed im) (other : ¬ s.DeletesEnd op) :
    ∃ result, Returns (fun fuel => op.call im fuel) result ∧
      ¬ Dispatches ⟨result, op.register s.registered⟩ := by
  cases op with
  | addHandler vector prio handler entry => exact absurd trivial other
  | delHandler vector handler =>
      cases handler with
      | none => exact absurd trivial other
      | some func => exact listed.deleteOther other

theorem Step.of_returns (listed : s.Listed im) (step : s.Step op s')
    {result : Except Fault (ImHandler α β)} (returns : Returns (fun fuel => op.call im fuel) result) :
    s' = ⟨result, op.register s.registered⟩ := by
  obtain ⟨im₀, ok, -, returns', registered⟩ := step
  obtain rfl := Except.ok.inj (listed.ok.symm.trans ok)
  obtain ⟨result', after⟩ := s'
  cases returns'.unique returns
  cases registered
  rfl

theorem Listed.keep (listed : s.Listed im) (ends : s.DeletesEnd op) (step : s.Step op s') :
    ∃ im', s'.Listed im' := by
  have fresh : op.Allocates s.registered := step.choose_spec.2.1
  obtain ⟨im', returns, listed'⟩ := listed.call fresh ends
  rw [step.of_returns listed returns]
  exact ⟨im', listed'⟩

theorem Listed.breaks (listed : s.Listed im) (other : ¬ s.DeletesEnd op) (step : s.Step op s') :
    ¬ s'.Dispatches := by
  obtain ⟨result, returns, lost⟩ := listed.call_other other
  rw [step.of_returns listed returns]
  exact lost

/-- Every call returns, or faults, while the list holds what is registered. -/
theorem Listed.progress (listed : s.Listed im) (op : ImOp α β) (fresh : op.Allocates s.registered) :
    ∃ s', s.Step op s' := by
  by_cases ends : s.DeletesEnd op
  · obtain ⟨im', returns, -⟩ := listed.call fresh ends
    exact ⟨⟨.ok im', op.register s.registered⟩, im, listed.ok, fresh, returns, rfl⟩
  · obtain ⟨result, returns, -⟩ := listed.call_other ends
    exact ⟨⟨result, op.register s.registered⟩, im, listed.ok, fresh, returns, rfl⟩

theorem Listed.next (listed : s.Listed im) (op : ImOp α β) (fresh : op.Allocates s.registered)
    (ends : s.DeletesEnd op) :
    ∃ s' im', s.Step op s' ∧ s'.Listed im' ∧ s'.registered = op.register s.registered := by
  obtain ⟨s', step⟩ := listed.progress op fresh
  obtain ⟨im', listed'⟩ := listed.keep ends step
  exact ⟨s', im', step, listed', step.choose_spec.2.2.2⟩

end

/-- Dispatch runs the registered handlers in every state of a run exactly when every deletion of
    the run takes the oldest or the latest of at least two handlers. In such a run the next call
    returns, or takes out the only handler and faults. -/
theorem dispatches_iff_deletesEnd {past : List (ImState α β × ImOp α β)}
    (run : Run Start Step past s) :
    (Run.Always Dispatches past s ↔ Run.Guarded DeletesEnd past) ∧
      (Run.Guarded DeletesEnd past → ∀ op : ImOp α β, op.Allocates s.registered →
        ∃ s', s.Step op s') := by
  have keep : ∀ (s : ImState α β) op s', (∃ im, s.Listed im) → s.DeletesEnd op → s.Step op s' →
      ∃ im', s'.Listed im' := fun _ _ _ ⟨_, listed⟩ ends step => listed.keep ends step
  constructor
  · exact Run.always_iff (fun s => ∃ im, s.Listed im) (fun _ start => start.listed) keep
      (fun _ ⟨_, listed⟩ => listed.dispatches)
      (fun _ _ _ ⟨_, listed⟩ other step => listed.breaks other step) run
  · intro guarded op fresh
    obtain ⟨⟨im, listed⟩, -⟩ := run.invariant (fun s => ∃ im, s.Listed im)
      (fun _ start => start.listed) keep guarded
    exact listed.progress op fresh

/-- The handlers after `im_init`, with entries and functions that are numbers. -/
def emptyIm : ImState Nat Nat :=
  ⟨.ok ⟨0, ⟨fun _ => none, fun _ => none, none, none⟩, fun _ => ⟨0, .first, 0⟩⟩, []⟩

theorem emptyIm_start : emptyIm.Start := ⟨rfl, _, rfl, rfl, rfl, rfl⟩

/-- Two handlers of which the older one is deleted. -/
theorem dispatches_two_handlers : ∃ past s, Run (@Start Nat Nat) Step past s ∧
    past.map (·.2) = [.delHandler 3 (some 30), .addHandler 4 .last (some 40) 1,
      .addHandler 3 .first (some 30) 0] ∧
    Run.Always Dispatches past s := by
  obtain ⟨im₀, listed₀⟩ := emptyIm_start.listed
  obtain ⟨s₁, im₁, one, listed₁, registered₁⟩ :=
    listed₀.next (.addHandler 3 .first (some 30) 0) nofun trivial
  have fresh : 1 ∉ s₁.registered.map (·.entry) := by
    rw [registered₁]
    decide
  obtain ⟨s₂, im₂, two, listed₂, registered₂⟩ :=
    listed₁.next (.addHandler 4 .last (some 40) 1) fresh trivial
  have ends : s₂.DeletesEnd (.delHandler 3 (some 30)) := by
    intro r found
    rw [registered₂, registered₁] at found ⊢
    cases found
    exact ⟨by decide, .inl rfl⟩
  obtain ⟨s₃, im₃, three, -, -⟩ := listed₂.next (.delHandler 3 (some 30)) trivial ends
  have run := Run.next (.next (.next (.init emptyIm_start) one) two) three
  refine ⟨_, s₃, run, rfl, (dispatches_iff_deletesEnd run).1.mpr ?_⟩
  intro before mem
  simp only [List.mem_cons, List.not_mem_nil, or_false] at mem
  obtain rfl | rfl | rfl := mem
  · exact ends
  · exact trivial
  · exact trivial

/-- Of three handlers the middle one is deleted, and dispatch no longer reaches the oldest. -/
theorem not_dispatches_deleted_middle : ∃ past s, Run (@Start Nat Nat) Step past s ∧
    past.map (·.2) = [.delHandler 4 (some 40), .addHandler 5 .first (some 50) 2,
      .addHandler 4 .first (some 40) 1, .addHandler 3 .first (some 30) 0] ∧
    ¬ s.Dispatches := by
  obtain ⟨im₀, listed₀⟩ := emptyIm_start.listed
  obtain ⟨s₁, im₁, one, listed₁, registered₁⟩ :=
    listed₀.next (.addHandler 3 .first (some 30) 0) nofun trivial
  have fresh₁ : 1 ∉ s₁.registered.map (·.entry) := by
    rw [registered₁]
    decide
  obtain ⟨s₂, im₂, two, listed₂, registered₂⟩ :=
    listed₁.next (.addHandler 4 .first (some 40) 1) fresh₁ trivial
  have fresh₂ : 2 ∉ s₂.registered.map (·.entry) := by
    rw [registered₂, registered₁]
    decide
  obtain ⟨s₃, im₃, three, listed₃, registered₃⟩ :=
    listed₂.next (.addHandler 5 .first (some 50) 2) fresh₂ trivial
  have inside : ¬ s₃.DeletesEnd (.delHandler 4 (some 40)) := by
    intro ends
    have middle := ends ⟨1, ⟨40, .first, 4⟩⟩ (by rw [registered₃, registered₂, registered₁]; rfl)
    rw [registered₃, registered₂, registered₁] at middle
    simp [ImOp.register, emptyIm, ImHandlerEntry.IsFor] at middle
  obtain ⟨s₄, four⟩ := listed₃.progress (.delHandler 4 (some 40)) trivial
  have run := Run.next (.next (.next (.next (.init emptyIm_start) one) two) three) four
  exact ⟨_, s₄, run, rfl, listed₃.breaks inside four⟩

end ImState

end Sdx.Core
