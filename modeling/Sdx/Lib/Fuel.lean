/-! # Recursions with a budget

A recursive function of the source that has no structural measure carries a number of steps
here, and is `none` when they run out. It returns a result when every large enough number of
steps gives that result.
-/

namespace Sdx.Lib

universe u v

variable {α : Type u} {β : Type v}

/-- From some number of steps on, `f` gives `r`. -/
def Returns (f : Nat → Option α) (r : α) : Prop := ∃ enough, ∀ fuel, enough ≤ fuel → f fuel = some r

namespace Returns

variable {f : Nat → Option α} {g : Nat → α → Option β} {r s : α} {b : β}

theorem const (r : α) : Returns (fun _ => some r) r := ⟨0, fun _ _ => rfl⟩

/-- A result that more steps do not change. -/
theorem of_more {fuel : Nat} (result : ∀ more, f (fuel + more) = some r) : Returns f r := by
  refine ⟨fuel, fun steps le => ?_⟩
  obtain ⟨more, rfl⟩ := Nat.exists_eq_add_of_le le
  exact result more

/-- Any two results are the same. -/
theorem unique (returns : Returns f r) (returns' : Returns f s) : r = s := by
  obtain ⟨k, atLeast⟩ := returns
  obtain ⟨k', atLeast'⟩ := returns'
  have here := atLeast (max k k') (Nat.le_max_left ..)
  rw [atLeast' (max k k') (Nat.le_max_right ..)] at here
  cases here
  rfl

/-- Two functions that return do so with one number of steps. -/
theorem both {h : Nat → Option β} (returns : Returns f r) (returns' : Returns h b) :
    ∃ fuel, f fuel = some r ∧ h fuel = some b := by
  obtain ⟨k, atLeast⟩ := returns
  obtain ⟨k', atLeast'⟩ := returns'
  exact ⟨max k k', atLeast _ (Nat.le_max_left ..), atLeast' _ (Nat.le_max_right ..)⟩

/-- The step that a recursive call uses up. -/
theorem step {f' : Nat → Option α} (eq : ∀ fuel, f (fuel + 1) = f' fuel) (returns : Returns f' r) :
    Returns f r := by
  obtain ⟨k, atLeast⟩ := returns
  refine ⟨k + 1, fun fuel le => ?_⟩
  obtain ⟨fuel, rfl⟩ := Nat.exists_eq_add_of_le' le
  rw [← Nat.add_assoc, eq]
  exact atLeast _ (by omega)

theorem step_iff {f' : Nat → Option α} (eq : ∀ fuel, f (fuel + 1) = f' fuel) :
    Returns f r ↔ Returns f' r := by
  constructor
  · rintro ⟨k, atLeast⟩
    exact ⟨k, fun fuel le => (eq fuel).symm.trans (atLeast (fuel + 1) (by omega))⟩
  · exact step eq

theorem const_iff : Returns (fun _ => some s) r ↔ some s = some r := by
  constructor
  · rintro ⟨k, atLeast⟩
    exact atLeast k (Nat.le_refl k)
  · intro eq
    exact ⟨0, fun _ _ => eq⟩

theorem none_iff : Returns (fun _ => none) r ↔ none = some r := by
  constructor
  · rintro ⟨k, atLeast⟩
    exact atLeast k (Nat.le_refl k)
  · intro eq
    cases eq

theorem congr {f' : Nat → Option α} (eq : ∀ fuel, f fuel = f' fuel) (returns : Returns f' r) :
    Returns f r := by
  obtain ⟨k, atLeast⟩ := returns
  exact ⟨k, fun fuel le => (eq fuel).trans (atLeast fuel le)⟩

theorem bind (returns : Returns f r) (next : Returns (fun fuel => g fuel r) b) :
    Returns (fun fuel => (f fuel).bind (g fuel)) b := by
  obtain ⟨k, atLeast⟩ := returns
  obtain ⟨k', atLeast'⟩ := next
  refine ⟨max k k', fun fuel le => ?_⟩
  have first := atLeast fuel (by omega)
  simp only [first, Option.bind_some]
  exact atLeast' fuel (by omega)

/-- What a call returns is what the rest returns behind it. -/
theorem bind_iff (returns : Returns f r) :
    Returns (fun fuel => (f fuel).bind (g fuel)) b ↔ Returns (fun fuel => g fuel r) b := by
  constructor
  · rintro ⟨k', atLeast'⟩
    obtain ⟨k, atLeast⟩ := returns
    refine ⟨max k k', fun fuel le => ?_⟩
    have all := atLeast' fuel (by omega)
    simp only [atLeast fuel (by omega), Option.bind_some] at all
    exact all
  · exact returns.bind

theorem map (returns : Returns f r) (g : α → β) : Returns (fun fuel => (f fuel).map g) (g r) := by
  obtain ⟨k, atLeast⟩ := returns
  exact ⟨k, fun fuel le => by simp only [atLeast fuel le, Option.map_some]⟩

end Returns

/-! ## Iterators -/

/-- Calling `next` on what it returned last, from `pre` on, gives exactly `l` and then nothing. -/
inductive Visits (next : Option α → Nat → Option (Option α)) : Option α → List α → Prop where
  | done {pre} : Returns (next pre) none → Visits next pre []
  | more {pre x l} : Returns (next pre) (some x) → Visits next (some x) l → Visits next pre (x :: l)

namespace Visits

variable {next found : Option α → Nat → Option (Option α)} {pre pre' : Option α} {l : List α}

/-- A place from which the first call returns the same. -/
theorem congr (visits : Visits next pre l)
    (same : ∀ r, Returns (next pre) r → Returns (next pre') r) : Visits next pre' l := by
  cases visits with
  | done ends => exact .done (same _ ends)
  | more first rest => exact .more (same _ first) rest

/-- An iterator that passes over what it does not keep visits the rest. -/
theorem filter {keep : α → Bool} (stop : ∀ pre, Returns (found pre) none → Returns (next pre) none)
    (take : ∀ pre x, keep x = true → Returns (found pre) (some x) → Returns (next pre) (some x))
    (skip : ∀ pre x r, keep x = false → Returns (found pre) (some x) →
      Returns (next (some x)) r → Returns (next pre) r)
    (visits : Visits found pre l) : Visits next pre (l.filter keep) := by
  induction visits with
  | done ends => exact .done (stop _ ends)
  | @more pre x l first _ ih =>
      cases kept : keep x with
      | true =>
          rw [List.filter_cons_of_pos kept]
          exact .more (take pre x kept first) ih
      | false =>
          rw [List.filter_cons_of_neg (by simp [kept])]
          exact ih.congr fun r => skip pre x r kept first

end Visits

end Sdx.Lib
