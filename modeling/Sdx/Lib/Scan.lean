/-! # Scanning for a run of good places

A scan moves over places `0, 1, 2, …`, counts the good ones in `cur` and
remembers in `start` where the present run began. A run may only begin at a
fitting place. `RunAt` is what holds in front of place `k`.
-/

namespace Sdx.Lib.Scan

universe u

variable {β : Type u} {place : Nat → β} {fit : β → Prop} {good : Nat → Prop}

/-- The last `cur` places in front of `k` are good, and `start` is the first of them. -/
structure RunAt (place : Nat → β) (fit : β → Prop) (good : Nat → Prop)
    (k : Nat) (start : β) (cur : Nat) : Prop where
  le : cur ≤ k
  start_eq : 0 < cur → start = place (k - cur)
  fits : 0 < cur → fit (place (k - cur))
  all_good : ∀ j, k - cur ≤ j → j < k → good j

namespace RunAt

theorem empty {k start cur} (zero : cur = 0) : RunAt place fit good k start cur := by
  subst zero
  exact ⟨Nat.zero_le k, nofun, nofun, fun j lo hi => by omega⟩

/-- One more good place, the first of a run having to fit. -/
theorem extend {k start cur} (run : RunAt place fit good k start cur)
    (fits : cur = 0 → fit (place k)) (here : good k) :
    RunAt place fit good (k + 1) (if cur = 0 then place k else start) (cur + 1) := by
  have shift : k + 1 - (cur + 1) = k - cur := by omega
  refine ⟨Nat.succ_le_succ run.le, fun _ => ?_, fun _ => ?_, fun j lo hi => ?_⟩
  · rw [shift]
    split
    · next zero => simp [zero]
    · next more => exact run.start_eq (Nat.pos_of_ne_zero more)
  · rw [shift]
    by_cases zero : cur = 0
    · simpa [zero] using fits zero
    · exact run.fits (Nat.pos_of_ne_zero zero)
  · rw [shift] at lo
    by_cases last : j = k
    · exact last ▸ here
    · exact run.all_good j lo (by omega)

/-- What a scan that found `num` places hands back. -/
theorem found {k start num} (run : RunAt place fit good k start num) (pos : 0 < num) :
    ∃ s, s + num = k ∧ start = place s ∧ fit start ∧ ∀ j, s ≤ j → j < s + num → good j := by
  have enough := run.le
  exact ⟨k - num, by omega, run.start_eq pos, run.start_eq pos ▸ run.fits pos,
    fun j lo hi => run.all_good j lo (by omega)⟩

end RunAt

/-! ## The first run -/

/-- The places from `s` on make a run of `num`. -/
def FitsAt (place : Nat → β) (fit : β → Prop) (good : Nat → Prop) (num s : Nat) : Prop :=
  fit (place s) ∧ ∀ j, s ≤ j → j < s + num → good j

/-- Moreover no run of `num` begins in front of the present one. -/
structure FirstAt (place : Nat → β) (fit : β → Prop) (good : Nat → Prop)
    (num k : Nat) (start : β) (cur : Nat) : Prop extends RunAt place fit good k start cur where
  passed : ∀ s, s < k - cur → ¬FitsAt place fit good num s

namespace FirstAt

variable {num k cur : Nat} {start start' : β}

theorem init : FirstAt place fit good num 0 start 0 := ⟨.empty rfl, fun s lt => by omega⟩

/-- At a place that does not fit no run begins. -/
theorem skip (first : FirstAt place fit good num k start 0) (unfit : ¬fit (place k)) :
    FirstAt place fit good num (k + 1) start' 0 := by
  refine ⟨.empty rfl, fun s lt fits => ?_⟩
  obtain rfl | before : s = k ∨ s < k := by omega
  · exact unfit fits.1
  · exact first.passed s (by omega) fits

/-- A run of `num` that begins in the present one would contain the bad place. -/
theorem reset (first : FirstAt place fit good num k start cur) (few : cur < num)
    (bad : ¬good k) : FirstAt place fit good num (k + 1) start' 0 := by
  refine ⟨.empty rfl, fun s lt fits => ?_⟩
  by_cases before : s < k - cur
  · exact first.passed s before fits
  · exact bad (fits.2 k (by omega) (by omega))

theorem extend (first : FirstAt place fit good num k start cur)
    (fits : cur = 0 → fit (place k)) (here : good k) :
    FirstAt place fit good num (k + 1) (if cur = 0 then place k else start) (cur + 1) :=
  ⟨first.toRunAt.extend fits here, fun s lt => first.passed s (by omega)⟩

/-- A scan that found `num` places found the first run of them. -/
theorem found (first : FirstAt place fit good num k start num) (some' : 0 < num) :
    ∃ s, start = place s ∧ FitsAt place fit good num s ∧
      ∀ s', FitsAt place fit good num s' → s ≤ s' := by
  obtain ⟨s, sum, start_eq, fits, all⟩ := first.toRunAt.found some'
  refine ⟨s, start_eq, ⟨start_eq ▸ fits, all⟩, fun s' fits' => Nat.le_of_not_lt fun before => ?_⟩
  exact first.passed s' (by omega) fits'

/-- A scan that came to the end of the good places found that there is no run. -/
theorem none_fits (first : FirstAt place fit good num k start cur) (few : cur < num)
    (ends : ∀ j, k ≤ j → ¬good j) (s : Nat) : ¬FitsAt place fit good num s := by
  intro fits
  by_cases before : s < k - cur
  · exact first.passed s before fits
  · exact ends (s + num - 1) (by omega) (fits.2 _ (by omega) (by omega))

end FirstAt

end Sdx.Lib.Scan
