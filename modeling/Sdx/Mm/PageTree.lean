import Mathlib.Data.List.Induction
import Sdx.Mm.PmmFlat
import Sdx.Mm.VmmWalk

/-! # Trees of page tables

A table of the tree is named by its path from the PML4, and a tree is the frame of each of
these names. Slot 510 of the PML4 is no part of it. In a tree all tables have frames of
their own, so a write to an entry of one table changes the tree at that entry only.
-/

namespace Sdx.Mm

/-- The frame of the table at each path. -/
abbrev Tables := List Index → Option Frame

/-- The slot of the table at `path` that can hold a pointer to a table below it. -/
def Branch (path : List Index) (i : Index) : Prop := path.length < 3 ∧ (path = [] → i ≠ 510)

/-! ## Slots of pages -/

/-- The path of the PT of an address. -/
def ptPath (vaddr : BitVec 64) : List Index := [hwIndex vaddr 4, hwIndex vaddr 3, hwIndex vaddr 2]

theorem ptPath_branch {vaddr : BitVec 64} (slot : hwIndex vaddr 4 ≠ 510) {path : List Index}
    {i : Index} (before : path ++ [i] <+: ptPath vaddr) : Branch path i := by
  have short := before.length_le
  simp only [ptPath, List.length_append, List.length_cons, List.length_nil] at short
  refine ⟨by omega, ?_⟩
  rintro rfl
  obtain ⟨rest, split⟩ := before
  cases split
  exact slot

theorem ptPath_cases {vaddr : BitVec 64} {path : List Index} {i : Index}
    (before : path ++ [i] <+: ptPath vaddr) : path = [] ∧ i = hwIndex vaddr 4 ∨
      path = [hwIndex vaddr 4] ∧ i = hwIndex vaddr 3 ∨
      path = [hwIndex vaddr 4, hwIndex vaddr 3] ∧ i = hwIndex vaddr 2 := by
  rw [ptPath] at before
  cases path with
  | nil =>
      obtain ⟨eq, -⟩ := List.cons_prefix_cons.mp before
      exact .inl ⟨rfl, eq⟩
  | cons j path =>
      obtain ⟨rfl, below⟩ := List.cons_prefix_cons.mp before
      cases path with
      | nil =>
          obtain ⟨eq, -⟩ := List.cons_prefix_cons.mp below
          exact .inr (.inl ⟨rfl, eq⟩)
      | cons j path =>
          obtain ⟨rfl, last⟩ := List.cons_prefix_cons.mp below
          cases path with
          | nil =>
              obtain ⟨eq, -⟩ := List.cons_prefix_cons.mp last
              exact .inr (.inr ⟨rfl, eq⟩)
          | cons j path =>
              have short := before.length_le
              simp only [List.length_append, List.length_cons, List.length_nil] at short
              omega

/-- Two addresses with the same entry of a PT are on the same page, up to the bits above 47. -/
theorem page_of_slot {v w : BitVec 64} (path : ptPath v = ptPath w)
    (index : hwIndex v 1 = hwIndex w 1) :
    v.toNat / 4096 % 2 ^ 36 = w.toNat / 4096 % 2 ^ 36 := by
  simp only [ptPath, List.cons.injEq, and_true] at path
  obtain ⟨index₄, index₃, index₂⟩ := path
  have value₄ := congrArg BitVec.toNat index₄
  have value₃ := congrArg BitVec.toNat index₃
  have value₂ := congrArg BitVec.toNat index₂
  have value₁ := congrArg BitVec.toNat index
  simp only [hwIndex_toNat] at value₄ value₃ value₂ value₁
  omega

/-! ## The tree -/

/-- The tables are a tree below the PML4: entries in use are present, there are no pages of 1 GiB,
    and no two tables share a frame. -/
structure PageTree (mem : PhysMem) (cr3 : Frame) (tables : Tables) : Prop where
  self : SelfMapped mem cr3
  root : tables [] = some cr3
  child : ∀ {path i t}, tables (path ++ [i]) = some t ↔ Branch path i ∧
    ∃ above, tables path = some above ∧ hwPointer (mem above i) ∧ hwFrame (mem above i) = t
  inj : ∀ {path path' t}, tables path = some t → tables path' = some t → path = path'
  present : ∀ {path t} {i : Index}, tables path = some t → mem t i ≠ 0#64 → hwPresent (mem t i) = true
  small : ∀ {path t} {i : Index}, tables path = some t → path.length < 2 → hwLarge (mem t i) = false

namespace PageTree

variable {mem mem' : PhysMem} {cr3 : Frame} {tables : Tables}

theorem length_le (tree : PageTree mem cr3 tables) {path : List Index} {t : Frame}
    (at_path : tables path = some t) : path.length ≤ 3 := by
  cases path using List.reverseRecOn with
  | nil => simp
  | append_singleton path i =>
      obtain ⟨branch, -⟩ := tree.child.mp at_path
      have short := branch.1
      rw [List.length_append, List.length_singleton]
      omega

/-- A memory with the same entries on the way to a table has the table at the same path. -/
theorem follow_congr (tree : PageTree mem cr3 tables) {path : List Index} {t : Frame}
    (at_path : tables path = some t)
    (same : ∀ above i t, above ++ [i] <+: path → tables above = some t → mem' t i = mem t i) :
    follow mem' cr3 path = some t := by
  induction path using List.reverseRecOn generalizing t with
  | nil =>
      rw [tree.root] at at_path
      exact at_path
  | append_singleton path i ih =>
      obtain ⟨-, above, at_above, pointer, frame⟩ := tree.child.mp at_path
      have here : mem' above i = mem above i := same path i above (List.prefix_refl _) at_above
      have reach := ih at_above fun q j t before =>
        same q j t (before.trans (List.prefix_append path [i]))
      exact follow_concat.mpr ⟨above, reach, here ▸ pointer, here ▸ frame⟩

theorem follow (tree : PageTree mem cr3 tables) {path : List Index} {t : Frame}
    (at_path : tables path = some t) : follow mem cr3 path = some t :=
  tree.follow_congr at_path fun _ _ _ _ _ => rfl

theorem read (tree : PageTree mem cr3 tables) {path : List Index} {t : Frame}
    (at_path : tables path = some t) (i : Index) :
    hwRead mem cr3 (vmmEntryAt (windowOf path) (i.setWidth 64)) = some (mem t i) :=
  tree.self.read_windowOf (tree.length_le at_path) (tree.follow at_path) i

theorem write (tree : PageTree mem cr3 tables) {path : List Index} {t : Frame}
    (at_path : tables path = some t) (i : Index) (value : BitVec 64) :
    hwWrite mem cr3 (vmmEntryAt (windowOf path) (i.setWidth 64)) value =
      some (mem.set t i value) :=
  tree.self.write_windowOf (tree.length_le at_path) (tree.follow at_path) i value

/-- An entry in use that the walk goes on from leads to a table of the tree: the PML4 again, or the
    one at the path with the index of the entry. -/
theorem below (tree : PageTree mem cr3 tables) {path : List Index} {t : Frame} {i : Index}
    {level : Nat} (at_path : tables path = some t) (short : path.length + (level + 1) ≤ 4)
    (used : mem t i ≠ 0#64) (more : ¬ (level = 0 ∨ level < 3 ∧ hwLarge (mem t i) = true)) :
    ∃ path', tables path' = some (hwFrame (mem t i)) ∧ path'.length + level ≤ 4 ∧
      (path = [] ∧ i = 510 ∧ path' = [] ∨ path' = path ++ [i]) := by
  by_cases self : path = [] ∧ i = 510
  · obtain ⟨rfl, rfl⟩ := self
    cases tree.root.symm.trans at_path
    rw [tree.self.frame]
    exact ⟨[], tree.root, by simp at short ⊢; omega, .inl ⟨rfl, rfl, rfl⟩⟩
  · have small : hwLarge (mem t i) = false := by
      by_cases high : path.length < 2
      · exact tree.small at_path high
      · have low : level < 3 := by omega
        simpa [low] using (not_or.mp more).2
    have deep : level ≠ 0 := (not_or.mp more).1
    have branch : Branch path i := ⟨by omega, fun nil is => self ⟨nil, is⟩⟩
    refine ⟨path ++ [i], tree.child.mpr ⟨branch, t, at_path, ⟨tree.present at_path used, small⟩, rfl⟩,
      ?_, .inr rfl⟩
    rw [List.length_append, List.length_singleton]
    omega

/-- The tables the processor can use at a level are tables of the tree. -/
theorem table_of_hwTable (tree : PageTree mem cr3 tables) {level : Nat} {t : Frame}
    (reach : HwTable mem cr3 level t) : ∃ path, tables path = some t ∧ path.length + level ≤ 4 := by
  induction reach with
  | pml4 => exact ⟨[], tree.root, by simp⟩
  | next level above used small ih =>
      obtain ⟨path, at_path, short⟩ := ih
      obtain ⟨path', at_path', short', -⟩ := tree.below at_path short used fun last =>
        small ⟨by omega, (last.resolve_left (Nat.succ_ne_zero level)).2⟩
      exact ⟨path', at_path', short'⟩

/-- Tables of the tree are tables the processor can use. -/
theorem hwTable (tree : PageTree mem cr3 tables) {path : List Index} {t : Frame}
    (at_path : tables path = some t) : HwTable mem cr3 (4 - path.length) t := by
  induction path using List.reverseRecOn generalizing t with
  | nil =>
      cases tree.root.symm.trans at_path
      exact .pml4
  | append_singleton path i ih =>
      obtain ⟨branch, above, at_above, pointer, rfl⟩ := tree.child.mp at_path
      have short := branch.1
      have reach := ih at_above
      have levels : 4 - path.length = (4 - (path ++ [i]).length - 1) + 2 := by
        rw [List.length_append, List.length_singleton]
        omega
      have level : 4 - (path ++ [i]).length = (4 - (path ++ [i]).length - 1) + 1 := by
        rw [List.length_append, List.length_singleton]
        omega
      rw [levels] at reach
      rw [level]
      exact .next _ reach pointer.ne_zero fun large => by simp [pointer.2] at large

theorem recursive (tree : PageTree mem cr3 tables) : Recursive mem cr3 where
  self := by
    refine ⟨fun unused => ?_, tree.self.frame⟩
    have present := tree.self.present
    rw [unused] at present
    cases present
  present reach used := by
    obtain ⟨path, at_path, -⟩ := tree.table_of_hwTable reach
    exact tree.present at_path used
  small reach := by
    obtain ⟨path, at_path, short⟩ := tree.table_of_hwTable reach
    exact tree.small at_path (by omega)

/-- A memory that differs in one slot of a table and in one frame that is no table has the table
    at the same path still. -/
theorem agree (tree : PageTree mem cr3 tables) {path : List Index} {t f : Frame} {i : Index}
    (at_path : tables path = some t) (slot : path = [] → i ≠ 510)
    (fresh : ∀ path', tables path' ≠ some f)
    (same : ∀ t' j, t' ≠ f → (t' = t → j ≠ i) → mem' t' j = mem t' j) :
    SelfMapped mem' cr3 ∧ Mm.follow mem' cr3 path = some t := by
  have self : mem' cr3 510 = mem cr3 510 := by
    refine same cr3 510 (fun eq => fresh [] (eq ▸ tree.root)) fun eq is => ?_
    subst eq
    exact slot (tree.inj at_path tree.root) is.symm
  refine ⟨⟨self ▸ tree.self.present, self ▸ tree.self.small, self ▸ tree.self.frame⟩,
    tree.follow_congr at_path fun above j t' before at_above => ?_⟩
  refine same t' j (fun eq => fresh above (eq ▸ at_above)) fun eq => ?_
  subst eq
  obtain rfl := tree.inj at_above at_path
  have longer := before.length_le
  rw [List.length_append, List.length_singleton] at longer
  omega

end PageTree

end Sdx.Mm
