import Mathlib.Data.List.Basic

/-! # Computations that make requests

A computation with a value and the list of the requests it makes, in their order. What holds
of all requests of a computation is shown along its steps.
-/

namespace Sdx.Lib.Trace

structure Traced (ρ α : Type) where
  value : α
  requests : List ρ

variable {ρ α β : Type}

namespace Traced

instance : Monad (Traced ρ) where
  pure a := ⟨a, []⟩
  bind m f := ⟨(f m.value).value, m.requests ++ (f m.value).requests⟩

/-- One request and its answer. -/
def request (r : ρ) (answer : α) : Traced ρ α := ⟨answer, [r]⟩

section

variable {a : α} {r : ρ} {m : Traced ρ α} {f : α → Traced ρ β}

@[simp] theorem value_pure : (pure a : Traced ρ α).value = a := rfl

@[simp] theorem value_bind : (m >>= f).value = (f m.value).value := rfl

@[simp] theorem value_request : (request r a).value = a := rfl

@[simp] theorem requests_pure : (pure a : Traced ρ α).requests = [] := rfl

@[simp] theorem requests_bind : (m >>= f).requests = m.requests ++ (f m.value).requests := rfl

@[simp] theorem requests_request : (request r a).requests = [r] := rfl

end

/-- All requests have the property. -/
def Only (P : ρ → Prop) (m : Traced ρ α) : Prop := ∀ r ∈ m.requests, P r

namespace Only

variable {P Q : ρ → Prop} {a : α} {r : ρ} {m : Traced ρ α} {f : α → Traced ρ β}

theorem pure : Only P (Pure.pure a : Traced ρ α) := fun _ none => absurd none List.not_mem_nil

theorem request (one : P r) : Only P (Traced.request r a) := by
  intro r' only
  rwa [List.mem_singleton.mp only]

theorem bind (first : Only P m) (rest : Only P (f m.value)) : Only P (m >>= f) := by
  intro r made
  obtain before | after := List.mem_append.mp made
  · exact first r before
  · exact rest r after

theorem pure_iff : Only P (Pure.pure a : Traced ρ α) ↔ True := iff_true_intro Only.pure

theorem request_iff : Only P (Traced.request r a) ↔ P r :=
  ⟨fun only => only r List.mem_cons_self, Only.request⟩

theorem bind_iff : Only P (m >>= f) ↔ Only P m ∧ Only P (f m.value) := by
  simp only [Only, Traced.requests_bind, List.forall_mem_append]

theorem mono (only : Only P m) (weaker : ∀ r, P r → Q r) : Only Q m :=
  fun r made => weaker r (only r made)

end Only

/-- Where the partial computation has a result, `m` has it too and all requests have the property. -/
def Follows (P : ρ → Prop) (m : Traced ρ α) (o : Option α) : Prop :=
  ∀ a, o = some a → m.value = a ∧ m.Only P

namespace Follows

variable {P : ρ → Prop} {a : α} {m : Traced ρ α} {o : Option α} {f : α → Traced ρ β}
  {g : α → Option β}

theorem pure : Follows P (Pure.pure a : Traced ρ α) (some a) := by
  intro b eq
  cases eq
  exact ⟨rfl, Only.pure⟩

theorem bind (first : Follows P m o) (rest : ∀ a, o = some a → Follows P (f a) (g a)) :
    Follows P (m >>= f) (o.bind g) := by
  intro b result
  obtain ⟨a, here, next⟩ := Option.bind_eq_some_iff.mp result
  obtain ⟨value, only⟩ := first a here
  obtain ⟨value', only'⟩ := rest a here b next
  subst value
  exact ⟨value', only.bind only'⟩

theorem ite {c : Prop} [Decidable c] {m' : Traced ρ α} {o' : Option α} (yes : c → Follows P m o)
    (no : ¬ c → Follows P m' o') : Follows P (if c then m else m') (if c then o else o') := by
  split
  · next holds => exact yes holds
  · next fails => exact no fails

end Follows

end Traced

end Sdx.Lib.Trace
