import Mathlib.Data.List.Basic
import Mathlib.Data.List.Induction
import Mathlib.Data.List.Nodup
import Mathlib.Logic.Function.Basic

/-! # Linked lists in a store of pointers

A link field is a function `α → Option α` from an address to the address it
holds. `Walk` is what a `foreach` over one link field visits. `Seg` describes
a stretch of a doubly linked list by both fields at once; it splits along
`++`, so an unlink or an insert is an argument about the seams only.
-/

namespace Sdx.Lib.LinkedList

variable {α : Type*} {next prev next' prev' : α → Option α}

/-- Following `next` from `start` visits exactly `l` and then stops. -/
inductive Walk (next : α → Option α) : Option α → List α → Prop where
  | stop : Walk next none []
  | visit {x l} : Walk next (next x) l → Walk next (some x) (x :: l)

/-- The first `n` addresses that following `next` from `x` visits, or all of them. -/
def visits (next : α → Option α) : Nat → α → List α
  | 0, _ => []
  | n + 1, x =>
      match next x with
      | none => [x]
      | some y => x :: visits next n y

theorem visits_succ (next : α → Option α) (n : Nat) (x : α) : visits next (n + 1) x =
    match next x with
    | none => [x]
    | some y => x :: visits next n y := rfl

theorem visits_cons {n : Nat} {x : α} : ∃ l, visits next (n + 1) x = x :: l := by
  rw [visits_succ]
  cases next x with
  | none => exact ⟨[], rfl⟩
  | some y => exact ⟨visits next n y, rfl⟩

theorem visits_one {x : α} : visits next 1 x = [x] := by
  rw [visits_succ]
  cases next x with
  | none => rfl
  | some y => rfl

/-- An address that leads nowhere else is the only one visited. -/
theorem visits_only {n : Nat} {x : α} (stays : ∀ y, next x = some y → y = x) :
    ∀ y ∈ visits next n x, y = x := by
  induction n with
  | zero => exact fun y listed => absurd listed List.not_mem_nil
  | succ n ih =>
      rw [visits_succ]
      cases link : next x with
      | none => exact fun y listed => List.mem_singleton.mp listed
      | some z =>
          obtain rfl := stays z link
          exact List.forall_mem_cons.mpr ⟨rfl, ih⟩

/-- Two link fields give the same visits exactly if they agree on all of them but the last. -/
theorem visits_eq_iff {n : Nat} {x : α} :
    visits next' (n + 1) x = visits next (n + 1) x ↔ ∀ y ∈ visits next n x, next' y = next y := by
  induction n generalizing x with
  | zero =>
      rw [visits_one, visits_one]
      exact iff_of_true rfl fun y none' => absurd none' List.not_mem_nil
  | succ n ih =>
      rw [visits_succ next', visits_succ next, visits_succ next]
      cases here : next x with
      | none =>
          cases here' : next' x with
          | none => simp [here, here']
          | some y =>
              obtain ⟨l, more⟩ := @visits_cons _ next' n y
              simp [here, here', more]
      | some y =>
          obtain ⟨l, more⟩ := @visits_cons _ next n y
          cases here' : next' x with
          | none => simp [here, here', more]
          | some y' =>
              obtain ⟨l', more'⟩ := @visits_cons _ next' n y'
              simp only [List.cons.injEq, true_and, List.forall_mem_cons, here, here',
                Option.some.injEq]
              constructor
              · intro same
                have first : y' = y := by
                  rw [more, more'] at same
                  exact (List.cons.inj same).1
                subst first
                exact ⟨rfl, ih.mp same⟩
              · rintro ⟨rfl, same⟩
                exact ih.mpr same

namespace Walk

theorem head_eq {start l} (w : Walk next start l) : start = l.head? := by
  cases w <;> rfl

theorem unique {start l l'} (w : Walk next start l) (w' : Walk next start l') : l = l' := by
  induction w generalizing l' with
  | stop => cases w'; rfl
  | visit _ ih =>
      cases w' with
      | visit w' => rw [ih w']

theorem visits_eq {x l} (w : Walk next (some x) l) : visits next l.length x = l := by
  induction l generalizing x with
  | nil => cases w
  | cons y l ih =>
      cases w with
      | visit w =>
          rw [List.length_cons, visits_succ]
          cases link : next y with
          | none =>
              rw [link] at w
              cases w
              rfl
          | some z =>
              rw [link] at w
              dsimp only
              rw [ih w]

theorem congr {start l} (w : Walk next start l) (same : ∀ x ∈ l, next' x = next x) :
    Walk next' start l := by
  induction w with
  | stop => exact .stop
  | @visit x l _ ih =>
      refine .visit ?_
      rw [same x (by simp)]
      exact ih (fun y hy => same y (by simp [hy]))

theorem tail {x l} (w : Walk next (some x) (x :: l)) : Walk next (next x) l := by
  cases w with
  | visit w => exact w

/-- A walk that ends restarts as a walk at any address it visits. -/
theorem suffix {start l₁ x l₂} (w : Walk next start (l₁ ++ x :: l₂)) :
    Walk next (some x) (x :: l₂) := by
  induction l₁ generalizing start with
  | nil => have := w.head_eq; simp only [List.nil_append, List.head?_cons] at this; exact this ▸ w
  | cons y l₁ ih => cases w with | visit w => exact ih w

/-- A walk that ends never comes back to an address. -/
theorem nodup {start l} (w : Walk next start l) : l.Nodup := by
  induction w with
  | stop => exact List.nodup_nil
  | @visit x l w ih =>
      refine List.nodup_cons.mpr ⟨fun back => ?_, ih⟩
      obtain ⟨l₁, l₂, rfl⟩ := List.append_of_mem back
      -- the rest of the walk at `x` would be both `l₁ ++ x :: l₂` and `l₂`
      have again := (Walk.visit w).unique w.suffix
      have := congrArg List.length again
      simp only [List.length_cons, List.length_append] at this
      omega

/-- No address of a walk points at the first one. -/
theorem next_ne_first {start x l y} (w : Walk next start (x :: l)) (mem : y ∈ x :: l) :
    next y ≠ some x := by
  intro back
  have once := w.nodup
  obtain ⟨l₁, l₂, split⟩ := List.append_of_mem mem
  rw [split] at w
  have second := w.suffix.tail.head_eq
  rw [back] at second
  have later : x ∈ l₂ := List.mem_of_head? second.symm
  cases l₁ with
  | nil =>
      cases split
      exact (List.nodup_cons.mp once).1 later
  | cons z l₁ =>
      cases split
      exact (List.nodup_cons.mp once).1 (by simp [later])

/-- A walk that ends goes along every chain from its start. -/
theorem follow {x rest l} (w : Walk next (some x) l)
    (chain : List.IsChain (fun a b => next a = some b) (x :: rest)) : x :: rest <+: l := by
  induction rest generalizing x l with
  | nil =>
      cases w with
      | visit _ => exact ⟨_, rfl⟩
  | cons y rest ih =>
      obtain ⟨here, chain⟩ := List.isChain_cons_cons.mp chain
      cases w with
      | visit w =>
          rw [here] at w
          obtain ⟨l, rfl⟩ := ih w chain
          exact ⟨l, rfl⟩

/-- A chain that comes back to an address has no walk that ends. -/
theorem not_of_cycle {x rest l} (chain : List.IsChain (fun a b => next a = some b) (x :: rest))
    (cycle : ¬ (x :: rest).Nodup) : ¬ Walk next (some x) l := by
  intro w
  exact cycle ((w.follow chain).sublist.nodup w.nodup)

variable [DecidableEq α]

/-- Pointing `c` at a new address that points where `c` did puts it behind `c`. -/
theorem insertAfter {start l₁ c l₂ x} (w : Walk next start (l₁ ++ c :: l₂))
    (fresh : x ∉ l₁ ++ c :: l₂) :
    Walk (Function.update (Function.update next x (next c)) c (some x)) start
      (l₁ ++ c :: x :: l₂) := by
  have once := w.nodup
  induction l₁ generalizing start with
  | nil =>
      have first := w.head_eq
      rw [List.nil_append, List.head?_cons] at first
      rw [first] at w ⊢
      obtain ⟨absent, -⟩ := List.nodup_cons.mp once
      have off : x ≠ c := by
        rintro rfl
        simp at fresh
      apply Walk.visit
      rw [Function.update_self]
      apply Walk.visit
      rw [Function.update_of_ne off, Function.update_self]
      refine w.tail.congr fun y hy => ?_
      have not_c : y ≠ c := fun same => absent (same ▸ hy)
      have not_x : y ≠ x := by
        rintro rfl
        simp [hy] at fresh
      rw [Function.update_of_ne not_c, Function.update_of_ne not_x]
  | cons y l₁ ih =>
      cases w with
      | visit w =>
          rw [List.cons_append, List.nodup_cons] at once
          have not_c : y ≠ c := by
            rintro rfl
            simp at once
          have not_x : y ≠ x := by
            rintro rfl
            simp at fresh
          apply Walk.visit
          rw [Function.update_of_ne not_c, Function.update_of_ne not_x]
          exact ih w (fun mem => fresh (List.mem_cons_of_mem _ mem)) once.2

/-- Pointing `c` past the address behind it takes that address out. -/
theorem unlink {start l₁ c x l₂} (w : Walk next start (l₁ ++ c :: x :: l₂)) :
    Walk (Function.update next c (next x)) start (l₁ ++ c :: l₂) := by
  have once := w.nodup
  induction l₁ generalizing start with
  | nil =>
      have first := w.head_eq
      rw [List.nil_append, List.head?_cons] at first
      rw [first] at w ⊢
      obtain ⟨absent, -⟩ := List.nodup_cons.mp once
      apply Walk.visit
      rw [Function.update_self]
      have second := w.tail.head_eq
      rw [List.head?_cons] at second
      have rest := w.tail
      rw [second] at rest
      refine rest.tail.congr fun y hy => ?_
      have not_c : y ≠ c := fun same => absent (same ▸ List.mem_cons_of_mem _ hy)
      rw [Function.update_of_ne not_c]
  | cons y l₁ ih =>
      cases w with
      | visit w =>
          rw [List.cons_append, List.nodup_cons] at once
          have not_c : y ≠ c := by
            rintro rfl
            simp at once
          apply Walk.visit
          rw [Function.update_of_ne not_c]
          exact ih w once.2

end Walk

/-- `l` is a doubly linked stretch: its first element points back to `p` and its
    last one forward to `n`. -/
def Seg (next prev : α → Option α) : Option α → List α → Option α → Prop
  | _, [], _ => True
  | p, x :: l, n => prev x = p ∧ next x = l.head?.or n ∧ Seg next prev (some x) l n

namespace Seg

theorem cons {p x l n} : Seg next prev p (x :: l) n ↔
    prev x = p ∧ next x = l.head?.or n ∧ Seg next prev (some x) l n := Iff.rfl

theorem append {p l₁ l₂ n} : Seg next prev p (l₁ ++ l₂) n ↔
    Seg next prev p l₁ (l₂.head?.or n) ∧ Seg next prev (l₁.getLast?.or p) l₂ n := by
  induction l₁ generalizing p with
  | nil => simp [Seg]
  | cons x l₁ ih =>
      simp only [List.cons_append, Seg, ih, List.head?_append, List.getLast?_cons, Option.or_assoc,
        and_assoc]
      cases l₁.getLast? <;> simp

theorem congr {p l n} (s : Seg next prev p l n)
    (same : ∀ x ∈ l, next' x = next x ∧ prev' x = prev x) : Seg next' prev' p l n := by
  induction l generalizing p with
  | nil => trivial
  | cons x l ih =>
      obtain ⟨hp, hn, rest⟩ := s
      obtain ⟨same_next, same_prev⟩ := same x (by simp)
      exact ⟨same_prev.trans hp, same_next.trans hn, ih rest (fun y hy => same y (by simp [hy]))⟩

/-- A stretch is its inner links plus the two fields at its ends, so an update
    elsewhere, or of these two fields, keeps it with the new neighbours. -/
theorem rewire {p p' l n n'} (nodup : l.Nodup) (s : Seg next prev p l n)
    (inner_next : ∀ x ∈ l, l.getLast? ≠ some x → next' x = next x)
    (last : ∀ x, l.getLast? = some x → next' x = n')
    (inner_prev : ∀ x ∈ l, l.head? ≠ some x → prev' x = prev x)
    (first : ∀ x, l.head? = some x → prev' x = p') : Seg next' prev' p' l n' := by
  induction l generalizing p p' with
  | nil => trivial
  | cons x l ih =>
      obtain ⟨absent, nodup⟩ := List.nodup_cons.mp nodup
      obtain ⟨-, hn, rest⟩ := s
      have off : ∀ y ∈ l, x ≠ y := fun y hy same => absent (same ▸ hy)
      refine ⟨first x rfl, ?_, ih nodup rest ?_ ?_ ?_ ?_⟩
      · cases l with
        | nil => simpa using last x rfl
        | cons y l =>
            have inside : (x :: y :: l).getLast? ≠ some x := by
              rw [List.getLast?_cons_cons]
              intro same
              exact absent (List.mem_of_getLast? same)
            rw [inner_next x (by simp) inside, hn]
            simp
      · intro y hy hlast
        refine inner_next y (by simp [hy]) (fun same => hlast ?_)
        cases l with
        | nil => simp at hy
        | cons z l => rwa [List.getLast?_cons_cons] at same
      · intro y hy
        cases l with
        | nil => simp at hy
        | cons z l => exact last y (by rwa [List.getLast?_cons_cons])
      · intro y hy _
        exact inner_prev y (by simp [hy]) (by simpa using off y hy)
      · intro y hy
        have mem : y ∈ l := List.mem_of_head? hy
        rw [inner_prev y (by simp [mem]) (by simpa using off y mem)]
        cases l with
        | nil => simp at hy
        | cons z l =>
            obtain rfl : z = y := by simpa using hy
            exact rest.1

theorem head_prev {p l n x} (s : Seg next prev p l n) (head : l.head? = some x) : prev x = p := by
  cases l with
  | nil => simp at head
  | cons y l =>
      obtain rfl : y = x := by simpa using head
      exact s.1

theorem last_next {p l n x} (s : Seg next prev p l n) (last : l.getLast? = some x) : next x = n := by
  obtain ⟨l, rfl⟩ := List.getLast?_eq_some_iff.mp last
  obtain ⟨-, here, -⟩ := (append.mp s).2
  simpa using here

/-- Without a stretch in the middle a list is what the two chunks at the seam make of it. -/
theorem cut [DecidableEq α] {l₁ run l₂} (nodup : (l₁ ++ run ++ l₂).Nodup)
    (s : Seg next prev none (l₁ ++ run ++ l₂) none)
    (forward : ∀ x ∈ l₁ ++ l₂, next' x = if l₁.getLast? = some x then l₂.head? else next x)
    (backward : ∀ x ∈ l₁ ++ l₂, prev' x = if l₂.head? = some x then l₁.getLast? else prev x) :
    Seg next' prev' none (l₁ ++ l₂) none := by
  obtain ⟨front, rest⟩ := append.mp s
  obtain ⟨front, -⟩ := append.mp front
  obtain ⟨nodup₁, nodup₂, away⟩ := List.nodup_append.mp nodup
  have apart : ∀ x ∈ l₁, x ∉ l₂ :=
    fun x mem mem' => away x (List.mem_append_left _ mem) x mem' rfl
  have not_last : ∀ x ∈ l₂, l₁.getLast? ≠ some x :=
    fun x mem last => apart x (List.mem_of_getLast? last) mem
  have not_head : ∀ x ∈ l₁, l₂.head? ≠ some x :=
    fun x mem head => apart x mem (List.mem_of_head? head)
  have keep_prev : ∀ x ∈ l₁, prev' x = prev x := fun x mem => by
    rw [backward x (List.mem_append_left _ mem), if_neg (not_head x mem)]
  have keep_next : ∀ x ∈ l₂, next' x = next x := fun x mem => by
    rw [forward x (List.mem_append_right _ mem), if_neg (not_last x mem)]
  refine append.mpr ⟨?_, ?_⟩
  · refine front.rewire (List.nodup_append.mp nodup₁).1 (fun x mem inner => ?_) (fun x last => ?_)
      (fun x mem _ => keep_prev x mem) (fun x head => ?_)
    · rw [forward x (List.mem_append_left _ mem), if_neg inner]
    · rw [forward x (List.mem_append_left _ (List.mem_of_getLast? last)), if_pos last,
        Option.or_none]
    · rw [keep_prev x (List.mem_of_head? head)]
      exact front.head_prev head
  · refine rest.rewire nodup₂ (fun x mem _ => keep_next x mem) (fun x last => ?_)
      (fun x mem inner => ?_) (fun x head => ?_)
    · rw [keep_next x (List.mem_of_getLast? last)]
      exact rest.last_next last
    · rw [backward x (List.mem_append_right _ mem), if_neg inner]
    · rw [backward x (List.mem_append_right _ (List.mem_of_head? head)), if_pos head,
        Option.or_none]

theorem chain {p l y} (s : Seg next prev p l (some y)) :
    List.IsChain (fun a b => next a = some b) (l ++ [y]) := by
  induction l generalizing p with
  | nil => exact .singleton y
  | cons x l ih =>
      obtain ⟨-, here, rest⟩ := s
      cases l with
      | nil => exact .cons_cons here (.singleton y)
      | cons z l => exact .cons_cons here (ih rest)

theorem walk_next {p l} (s : Seg next prev p l none) : Walk next l.head? l := by
  induction l generalizing p with
  | nil => exact .stop
  | cons x l ih =>
      obtain ⟨-, hn, rest⟩ := s
      refine .visit ?_
      rw [hn, Option.or_none]
      exact ih rest

theorem walk_prev {l n} (s : Seg next prev none l n) : Walk prev l.getLast? l.reverse := by
  induction l using List.reverseRecOn generalizing n with
  | nil => exact .stop
  | append_singleton l x ih =>
      obtain ⟨front, back⟩ := append.mp s
      rw [List.getLast?_concat, List.reverse_concat]
      refine .visit ?_
      rw [back.1, Option.or_none]
      exact ih front

end Seg

/-- A `head`/`tail` pair and two link fields hold the list `l`: one walk from each end. -/
structure Holds (next prev : α → Option α) (head tail : Option α) (l : List α) : Prop where
  forward : Walk next head l
  backward : Walk prev tail l.reverse

namespace Holds

theorem of_seg {l} (s : Seg next prev none l none) : Holds next prev l.head? l.getLast? l :=
  ⟨s.walk_next, s.walk_prev⟩

theorem seg {head tail l} (h : Holds next prev head tail l) : Seg next prev none l none := by
  obtain ⟨forward, backward⟩ := h
  -- the backward walk, cut at any point of the list, gives the `prev` fields there
  suffices key : ∀ l₂ l₁ head, l = l₁ ++ l₂ → Walk next head l₂ → Seg next prev l₁.getLast? l₂ none from
    key l [] head rfl forward
  intro l₂
  induction l₂ with
  | nil => intros; trivial
  | cons x l₂ ih =>
      intro l₁ head split forward
      have back : Walk prev (some x) (x :: l₁.reverse) := by
        have : l.reverse = l₂.reverse ++ x :: l₁.reverse := by simp [split]
        exact (this ▸ backward).suffix
      have front := forward.head_eq
      simp only [List.head?_cons] at front
      subst front
      refine ⟨?_, ?_, ?_⟩
      · rw [back.tail.head_eq, List.head?_reverse]
      · rw [forward.tail.head_eq, Option.or_none]
      · have := ih (l₁ ++ [x]) (next x) (by simp [split]) forward.tail
        rwa [List.getLast?_concat] at this

theorem head_eq {head tail l} (h : Holds next prev head tail l) : head = l.head? :=
  h.forward.head_eq

theorem tail_eq {head tail l} (h : Holds next prev head tail l) : tail = l.getLast? := by
  rw [h.backward.head_eq, List.head?_reverse]

theorem nodup {head tail l} (h : Holds next prev head tail l) : l.Nodup :=
  h.forward.nodup

theorem unique {head tail l l'} (h : Holds next prev head tail l)
    (h' : Holds next prev head tail l') : l = l' :=
  h.forward.unique h'.forward

end Holds

end Sdx.Lib.LinkedList
