/-! # Labelled runs

A run begins in a start state and takes labelled steps. It keeps its history, newest
step first, each step with the state it was taken in, so that a statement can speak of
every state of the run and of every step of it.
-/

namespace Sdx.Lib

universe u v

variable {σ : Type u} {ι : Type v} {start : σ → Prop} {step : σ → ι → σ → Prop}

inductive Run (start : σ → Prop) (step : σ → ι → σ → Prop) : List (σ × ι) → σ → Prop where
  | init {s} : start s → Run start step [] s
  | next {past s i s'} : Run start step past s → step s i s' → Run start step ((s, i) :: past) s'

namespace Run

/-- `P` holds in the last state and in every state before it. -/
def Always (P : σ → Prop) (past : List (σ × ι)) (s : σ) : Prop := P s ∧ ∀ before ∈ past, P before.1

/-- Every step was taken under `guard`. -/
def Guarded (guard : σ → ι → Prop) (past : List (σ × ι)) : Prop :=
  ∀ before ∈ past, guard before.1 before.2

variable {P : σ → Prop} {guard : σ → ι → Prop}

/-- An invariant that only guarded steps keep holds along a guarded run. -/
theorem invariant (inv : σ → Prop) (base : ∀ s, start s → inv s)
    (keep : ∀ s i s', inv s → guard s i → step s i s' → inv s') {past : List (σ × ι)} {s : σ}
    (run : Run start step past s) (guarded : Guarded guard past) : Always inv past s := by
  induction run with
  | init first => exact ⟨base _ first, nofun⟩
  | next _ taken ih =>
      obtain ⟨now, earlier⟩ := ih (fun before mem => guarded before (List.mem_cons_of_mem _ mem))
      refine ⟨keep _ _ _ now (guarded _ List.mem_cons_self) taken, ?_⟩
      intro before mem
      cases mem with
      | head => exact now
      | tail _ mem => exact earlier before mem

/-- If the invariant gives `P` and one unguarded step destroys `P`, then `P` holds all along
    a run exactly when every step of it is guarded. -/
theorem always_iff (inv : σ → Prop) (base : ∀ s, start s → inv s)
    (keep : ∀ s i s', inv s → guard s i → step s i s' → inv s') (gives : ∀ s, inv s → P s)
    (breaks : ∀ s i s', inv s → ¬ guard s i → step s i s' → ¬ P s') {past : List (σ × ι)} {s : σ}
    (run : Run start step past s) : Always P past s ↔ Guarded guard past := by
  constructor
  · intro always
    induction run with
    | init _ => exact nofun
    | next run taken ih =>
        obtain ⟨after, earlier⟩ := always
        have guarded := ih ⟨earlier _ List.mem_cons_self,
          fun before mem => earlier before (List.mem_cons_of_mem _ mem)⟩
        have now := (run.invariant inv base keep guarded).1
        intro before mem
        cases mem with
        | head => exact Classical.not_not.mp fun bad => breaks _ _ _ now bad taken after
        | tail _ mem => exact guarded before mem
  · intro guarded
    obtain ⟨now, earlier⟩ := run.invariant inv base keep guarded
    exact ⟨gives s now, fun before mem => gives _ (earlier before mem)⟩

/-- Two properties of steps that agree wherever the invariant holds agree along a run. -/
theorem guarded_iff {guard' : σ → ι → Prop} (inv : σ → Prop) (base : ∀ s, start s → inv s)
    (keep : ∀ s i s', inv s → step s i s' → inv s')
    (same : ∀ s i s', inv s → step s i s' → (guard s i ↔ guard' s i)) {past : List (σ × ι)} {s : σ}
    (run : Run start step past s) : Guarded guard past ↔ Guarded guard' past := by
  have agree : inv s ∧ ∀ before ∈ past, guard before.1 before.2 ↔ guard' before.1 before.2 := by
    induction run with
    | init first => exact ⟨base _ first, nofun⟩
    | next _ taken ih =>
        obtain ⟨now, earlier⟩ := ih
        refine ⟨keep _ _ _ now taken, ?_⟩
        intro before mem
        cases mem with
        | head => exact same _ _ _ now taken
        | tail _ mem => exact earlier before mem
  constructor
  · exact fun guarded before mem => (agree.2 before mem).mp (guarded before mem)
  · exact fun guarded before mem => (agree.2 before mem).mpr (guarded before mem)

end Run

end Sdx.Lib
