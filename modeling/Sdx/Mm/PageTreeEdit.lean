import Sdx.Mm.VmmGraft

/-! # Edits of a tree

The kernel edits its page tables entry by entry: it adds flags to a pointer, links an empty
table, or writes the entry of a page. Each edit leaves a tree. The walk of an address ends
where it did before, unless the edit is in its own slot of a PT or the address goes through
slot 510 and had no entry: an empty table that is linked can be seen there.
-/

namespace Sdx.Mm

variable {mem mem' : PhysMem} {cr3 : Frame} {tables : Tables}

/-- What an edit does to an entry that is not the one of a page it writes. -/
inductive Kept (mem mem' : PhysMem) (path : List Index) (t : Frame) (i : Index) : Prop where
  | same (eq : mem' t i = mem t i)
  | flags (high : path.length < 3) (pointer : hwPointer (mem t i))
      (similar : Similar (mem t i) (mem' t i))
  | link (branch : Branch path i) (unused : mem t i = 0#64) (pointer : hwPointer (mem' t i))
      (empty : ∀ j, mem' (hwFrame (mem' t i)) j = 0#64)

/-- Where the processor's walk of an address ends: the level and the entry of its page. -/
def hwLeaf (mem : PhysMem) (cr3 : Frame) (vaddr : BitVec 64) : Option (Nat × BitVec 64) :=
  (hwWalk mem vaddr 4 cr3).2

/-- No page, or a page whose entry has got flags. -/
def Alike (leaf leaf' : Option (Nat × BitVec 64)) : Prop :=
  leaf = none ∨ ∃ level entry entry', leaf = some (level, entry) ∧ leaf' = some (level, entry') ∧
    Similar entry entry'

theorem Alike.refl (leaf : Option (Nat × BitVec 64)) : Alike leaf leaf := by
  cases leaf with
  | none => exact .inl rfl
  | some page => exact .inr ⟨page.1, page.2, page.2, rfl, rfl, .refl _⟩

theorem prefix_ptPath_concat {vaddr : BitVec 64} {path : List Index} {level : Nat}
    (before : path <+: ptPath vaddr) (depth : path.length + (level + 1) = 4) (more : level ≠ 0) :
    path ++ [hwIndex vaddr (level + 1)] <+: ptPath vaddr := by
  have short := before.length_le
  have split := List.prefix_iff_eq_take.mp before
  rw [ptPath] at short split ⊢
  simp only [List.length_cons, List.length_nil] at short
  obtain ⟨rfl, len⟩ | ⟨rfl, len⟩ | ⟨rfl, len⟩ : level = 3 ∧ path.length = 0 ∨
      level = 2 ∧ path.length = 1 ∨ level = 1 ∧ path.length = 2 := by omega
  · rw [split, len]
    exact ⟨[_, _], rfl⟩
  · rw [split, len]
    exact ⟨[_], rfl⟩
  · rw [split, len]
    exact ⟨[], rfl⟩

namespace PageTree

variable {path : List Index} {i : Index} {t f : Frame} {entry vaddr : BitVec 64}

/-! ## The tree behind an edit -/

/-- Flags for the pointers and other entries for the pages leave the tables where they are. -/
theorem update (tree : PageTree mem cr3 tables)
    (upper : ∀ {path t} (i : Index), tables path = some t → path.length < 3 →
      Similar (mem t i) (mem' t i))
    (leaf : ∀ {path t} (i : Index), tables path = some t → path.length = 3 → mem' t i ≠ 0#64 →
      hwPresent (mem' t i) = true) : PageTree mem' cr3 tables where
  self := by
    have similar := upper 510 tree.root (by simp)
    exact ⟨similar.hwPresent tree.self.present, similar.hwLarge.trans tree.self.small,
      similar.hwFrame.trans tree.self.frame⟩
  root := tree.root
  child {path i t} := by
    rw [tree.child]
    refine and_congr_right fun branch => exists_congr fun above => and_congr_right fun at_path => ?_
    have similar := upper i at_path branch.1
    rw [similar.hwFrame, hwPointer, hwPointer, similar.hwLarge]
    refine and_congr_left fun _ => and_congr_left fun _ => ?_
    constructor
    · exact similar.hwPresent
    · intro present
      refine tree.present at_path (mt similar.eq_zero_iff.mpr fun unused => ?_)
      rw [unused] at present
      cases present
  inj := tree.inj
  present {path t i} at_path used := by
    by_cases high : path.length < 3
    · have similar := upper i at_path high
      exact similar.hwPresent (tree.present at_path (mt similar.eq_zero_iff.mpr used))
    · have le := tree.length_le at_path
      exact leaf i at_path (by omega) used
  small {path t i} at_path high :=
    (upper i at_path (by omega)).hwLarge.trans (tree.small at_path high)

theorem gone (tree : PageTree mem cr3 tables) (at_path : tables path = some t)
    (unused : mem t i = 0#64) : tables (path ++ [i]) = none := by
  rw [Option.eq_none_iff_forall_ne_some]
  intro t' at_child
  obtain ⟨-, above, at_above, pointer, -⟩ := tree.child.mp at_child
  cases at_path.symm.trans at_above
  exact pointer.ne_zero unused

theorem set_other (tree : PageTree mem cr3 tables) (at_path : tables path = some t)
    {path' : List Index} {t' : Frame} {j : Index} (at_path' : tables path' = some t')
    (off : path' = path → j ≠ i) : mem.set t i entry t' j = mem t' j := by
  refine PhysMem.set_slot _ _ fun same => off ?_
  subst same
  exact tree.inj at_path' at_path

/-- Flags for a pointer. -/
theorem set_flags (tree : PageTree mem cr3 tables) (at_path : tables path = some t)
    (high : path.length < 3) (pointer : hwPointer (mem t i)) {flags : BitVec 64}
    (within : flags &&& 7#64 = flags) : PageTree (mem.set t i (mem t i ||| flags)) cr3 tables ∧
      ∀ {path' t'} {j : Index}, tables path' = some t' →
        Kept mem (mem.set t i (mem t i ||| flags)) path' t' j := by
  have here : Similar (mem t i) (mem.set t i (mem t i ||| flags) t i) := by
    rw [PhysMem.set_same]
    exact (Similar.refl _).or_flags pointer.ne_zero within
  constructor
  · refine tree.update (fun {q u} j at_q _ => ?_) fun {q u} j at_q last used => ?_
    · by_cases slot : q = path ∧ j = i
      · obtain ⟨rfl, rfl⟩ := slot
        cases at_path.symm.trans at_q
        exact here
      · rw [tree.set_other at_path at_q fun eq is => slot ⟨eq, is⟩]
        exact .refl _
    · have other : q = path → j ≠ i := fun eq => absurd last (eq ▸ Nat.ne_of_lt high)
      rw [tree.set_other at_path at_q other] at used ⊢
      exact tree.present at_q used
  · intro q u j at_q
    by_cases slot : q = path ∧ j = i
    · obtain ⟨rfl, rfl⟩ := slot
      cases at_path.symm.trans at_q
      exact .flags high pointer here
    · exact .same (tree.set_other at_path at_q fun eq is => slot ⟨eq, is⟩)

/-- The entry of a page. -/
theorem set_page (tree : PageTree mem cr3 tables) (at_path : tables path = some t)
    (last : path.length = 3) (present : hwPresent entry = true) :
    PageTree (mem.set t i entry) cr3 tables := by
  refine tree.update (fun {q u} j at_q high => ?_) fun {q u} j at_q _ used => ?_
  · have other : q = path → j ≠ i := fun eq => absurd last (eq ▸ Nat.ne_of_lt high)
    rw [tree.set_other at_path at_q other]
    exact .refl _
  · by_cases slot : q = path ∧ j = i
    · obtain ⟨rfl, rfl⟩ := slot
      cases at_path.symm.trans at_q
      rwa [PhysMem.set_same]
    · rw [tree.set_other at_path at_q fun eq is => slot ⟨eq, is⟩] at used ⊢
      exact tree.present at_q used

/-- The memory with an empty table linked. -/
abbrev link (mem : PhysMem) (t : Frame) (i : Index) (entry : BitVec 64) (f : Frame) : PhysMem :=
  Function.update (mem.set t i entry) f fun _ => 0#64

theorem link_here (apart : t ≠ f) : link mem t i entry f t i = entry := by
  rw [link, Function.update_of_ne apart, PhysMem.set_same]

theorem link_other (tree : PageTree mem cr3 tables) (at_path : tables path = some t)
    (fresh : ∀ path', tables path' ≠ some f) {path' : List Index} {t' : Frame} {j : Index}
    (at_path' : tables path' = some t') (off : path' = path → j ≠ i) :
    link mem t i entry f t' j = mem t' j := by
  have apart : t' ≠ f := fun eq => fresh path' (eq ▸ at_path')
  rw [link, Function.update_of_ne apart]
  exact tree.set_other at_path at_path' off

theorem link_kept (tree : PageTree mem cr3 tables) (branch : Branch path i)
    (at_path : tables path = some t) (unused : mem t i = 0#64)
    (fresh : ∀ path', tables path' ≠ some f) (pointer : hwPointer entry) (frame : hwFrame entry = f)
    {path' : List Index} {t' : Frame} {j : Index} (at_path' : tables path' = some t') :
    Kept mem (link mem t i entry f) path' t' j := by
  by_cases slot : path' = path ∧ j = i
  · obtain ⟨rfl, rfl⟩ := slot
    cases at_path.symm.trans at_path'
    have apart : t ≠ f := fun eq => fresh path' (eq ▸ at_path)
    have here := @link_here mem j t f entry apart
    refine .link branch unused (by rwa [here]) fun k => ?_
    rw [here, frame]
    simp [link]
  · exact .same (tree.link_other at_path fresh at_path' fun eq is => slot ⟨eq, is⟩)

/-- An empty table in an empty slot makes a larger tree. -/
theorem grow (tree : PageTree mem cr3 tables) (branch : Branch path i)
    (at_path : tables path = some t) (unused : mem t i = 0#64)
    (fresh : ∀ path', tables path' ≠ some f) (pointer : hwPointer entry)
    (frame : hwFrame entry = f) :
    PageTree (link mem t i entry f) cr3 (Function.update tables (path ++ [i]) (some f)) := by
  have apart : t ≠ f := fun eq => fresh path (eq ▸ at_path)
  have here := @link_here mem i t f entry apart
  have zero (j : Index) : link mem t i entry f f j = 0#64 := by simp [link]
  have other {path' : List Index} {t' : Frame} {j : Index} (at_path' : tables path' = some t')
      (off : path' = path → j ≠ i) : link mem t i entry f t' j = mem t' j :=
    tree.link_other at_path fresh at_path' off
  have old {path' : List Index} (off : path' ≠ path ++ [i]) :
      Function.update tables (path ++ [i]) (some f) path' = tables path' := Function.update_of_ne off ..
  have self : link mem t i entry f cr3 510 = mem cr3 510 :=
    other tree.root fun nil is => branch.2 nil.symm is.symm
  have longer : path ≠ path ++ [i] := by simp
  refine ⟨⟨self ▸ tree.self.present, self ▸ tree.self.small, self ▸ tree.self.frame⟩, ?_, ?_, ?_, ?_, ?_⟩
  · rw [old (by simp), tree.root]
  · intro q j u
    by_cases slot : q = path ∧ j = i
    · obtain ⟨rfl, rfl⟩ := slot
      rw [Function.update_self, old longer, Option.some.injEq]
      constructor
      · rintro rfl
        exact ⟨branch, t, at_path, by rwa [here], by rw [here, frame]⟩
      · rintro ⟨-, above, at_above, -, rfl⟩
        cases at_path.symm.trans at_above
        rw [here, frame]
    · have off : q ++ [j] ≠ path ++ [i] := fun eq => slot (List.append_singleton_inj.mp eq)
      rw [old off, tree.child]
      refine and_congr_right fun _ => ?_
      by_cases new : q = path ++ [i]
      · subst new
        rw [Function.update_self, tree.gone at_path unused]
        constructor
        · rintro ⟨above, none, -⟩
          cases none
        · rintro ⟨above, is, pointer', -⟩
          cases is
          exact absurd (zero j) pointer'.ne_zero
      · rw [old new]
        refine exists_congr fun above => and_congr_right fun at_above => ?_
        rw [other at_above fun eq is => slot ⟨eq, is⟩]
  · intro q q' u at_q at_q'
    by_cases new : q = path ++ [i] <;> by_cases new' : q' = path ++ [i]
    · rw [new, new']
    · rw [new, Function.update_self] at at_q
      rw [old new'] at at_q'
      cases at_q
      exact absurd at_q' (fresh q')
    · rw [new', Function.update_self] at at_q'
      rw [old new] at at_q
      cases at_q'
      exact absurd at_q (fresh q)
    · rw [old new] at at_q
      rw [old new'] at at_q'
      exact tree.inj at_q at_q'
  · intro q u j at_q used
    by_cases new : q = path ++ [i]
    · rw [new, Function.update_self] at at_q
      cases at_q
      exact absurd (zero j) used
    · rw [old new] at at_q
      by_cases slot : q = path ∧ j = i
      · obtain ⟨rfl, rfl⟩ := slot
        cases at_path.symm.trans at_q
        rw [here]
        exact pointer.1
      · rw [other at_q fun eq is => slot ⟨eq, is⟩] at used ⊢
        exact tree.present at_q used
  · intro q u j at_q high
    by_cases new : q = path ++ [i]
    · rw [new, Function.update_self] at at_q
      cases at_q
      rw [zero]
      rfl
    · rw [old new] at at_q
      by_cases slot : q = path ∧ j = i
      · obtain ⟨rfl, rfl⟩ := slot
        cases at_path.symm.trans at_q
        rw [here]
        exact pointer.2
      · rw [other at_q fun eq is => slot ⟨eq, is⟩]
        exact tree.small at_q high

/-! ## The walk behind an edit -/

/-- The walk of an address whose PT is there ends at its entry of the PT. -/
theorem leaf_of_pt (tree : PageTree mem cr3 tables) (at_pt : tables (ptPath vaddr) = some t)
    (used : mem t (hwIndex vaddr 1) ≠ 0#64) :
    hwLeaf mem cr3 vaddr = some (1, mem t (hwIndex vaddr 1)) := by
  have present := tree.present at_pt used
  have way := tree.follow at_pt
  rw [ptPath] at way
  obtain ⟨⟨present₄, small₄⟩, way⟩ := follow_cons.mp way
  obtain ⟨⟨present₃, small₃⟩, way⟩ := follow_cons.mp way
  obtain ⟨⟨present₂, small₂⟩, way⟩ := follow_cons.mp way
  obtain rfl := Option.some.inj way
  simp [hwLeaf, hwWalk, present₄, present₃, present₂, small₃, small₂, present]

/-- An entry in use above the entry of an address points to a table if no page of 2 MiB is there. -/
theorem way_pointer (tree : PageTree mem cr3 tables) (before : path ++ [i] <+: ptPath vaddr)
    (at_path : tables path = some t) (used : mem t i ≠ 0#64)
    (small : ∀ entry, hwLeaf mem cr3 vaddr ≠ some (2, entry)) : hwPointer (mem t i) := by
  have present := tree.present at_path used
  obtain ⟨rfl, rfl⟩ | ⟨rfl, rfl⟩ | ⟨rfl, rfl⟩ := ptPath_cases before
  · exact ⟨present, tree.small at_path (by simp)⟩
  · exact ⟨present, tree.small at_path (by simp)⟩
  · refine ⟨present, ?_⟩
    by_contra large
    rw [Bool.not_eq_false] at large
    obtain ⟨⟨present₄, -⟩, way⟩ := follow_cons.mp (tree.follow at_path)
    obtain ⟨⟨present₃, small₃⟩, way⟩ := follow_cons.mp way
    have frame := Option.some.inj way
    refine small (mem t (hwIndex vaddr 2)) ?_
    simp [hwLeaf, hwWalk, present₄, present₃, small₃, frame, present, large]

/-- An address without a page has entries above its own that are unused or point to tables. -/
theorem open_way (tree : PageTree mem cr3 tables) (none : hwLeaf mem cr3 vaddr = none) :
    (∀ {path t} {i : Index}, path ++ [i] <+: ptPath vaddr → tables path = some t →
      mem t i = 0#64 ∨ hwPointer (mem t i)) ∧
    ∀ {t}, tables (ptPath vaddr) = some t → mem t (hwIndex vaddr 1) = 0#64 := by
  constructor
  · intro path t i before at_path
    rw [or_iff_not_imp_left]
    intro used
    refine tree.way_pointer before at_path used fun entry leaf => ?_
    rw [none] at leaf
    cases leaf
  · intro t at_pt
    by_contra used
    have leaf := tree.leaf_of_pt at_pt used
    rw [none] at leaf
    cases leaf

/-- The walk of an address whose entries lead nowhere finds no page. -/
theorem leaf_none (tree : PageTree mem cr3 tables) (slot : hwIndex vaddr 4 ≠ 510)
    (ways : ∀ {path t} {i : Index}, path ++ [i] <+: ptPath vaddr → tables path = some t →
      mem t i = 0#64 ∨ hwPointer (mem t i))
    (last : ∀ {t}, tables (ptPath vaddr) = some t → mem t (hwIndex vaddr 1) = 0#64) :
    hwLeaf mem cr3 vaddr = none := by
  have below (level : Nat) {path : List Index} {t : Frame} (at_path : tables path = some t)
      (before : path <+: ptPath vaddr) (depth : path.length + level = 4) :
      (hwWalk mem vaddr level t).2 = none := by
    induction level generalizing path t with
    | zero => rfl
    | succ level ih =>
        by_cases low : level = 0
        · subst low
          obtain rfl := before.eq_of_length (show path.length = 3 by omega)
          rw [hwWalk_unused (last at_path)]
        · have way := prefix_ptPath_concat before depth low
          obtain unused | pointer := ways way at_path
          · rw [hwWalk_unused unused]
          · have more : ¬ (level = 0 ∨
                level < 3 ∧ hwLarge (mem t (hwIndex vaddr (level + 1))) = true) := by
              simp [low, pointer.2]
            rw [hwWalk_table pointer.1 more]
            refine ih (tree.child.mpr ⟨ptPath_branch slot way, t, at_path, pointer, rfl⟩) way ?_
            rw [List.length_append, List.length_singleton]
            omega
  exact below 4 tree.root List.nil_prefix rfl

/-- From a table of the tree on, an edit moves where the walk ends only for the addresses that have
    come through slot 510, and only if they had no page. -/
theorem walk_kept (tree : PageTree mem cr3 tables)
    (kept : ∀ {path t} {i : Index}, tables path = some t →
      (path.length = 3 → path = ptPath vaddr ∧ i = hwIndex vaddr 1) → Kept mem mem' path t i)
    (level : Nat) (at_path : tables path = some t) (short : path.length + level ≤ 4)
    (way : path.length + level = 4 → path <+: ptPath vaddr) :
    (hwWalk mem' vaddr level t).2 = (hwWalk mem vaddr level t).2 ∨
      (path.length + level < 4 ∨ hwIndex vaddr 4 = 510) ∧
        Alike (hwWalk mem vaddr level t).2 (hwWalk mem' vaddr level t).2 := by
  induction level generalizing path t with
  | zero => exact .inl rfl
  | succ level ih =>
      have slot : path.length = 3 → path = ptPath vaddr ∧
          hwIndex vaddr (level + 1) = hwIndex vaddr 1 := by
        intro last
        obtain rfl : level = 0 := by omega
        exact ⟨(way (by omega)).eq_of_length last, rfl⟩
      -- the walk goes on in both memories, in the same table
      have deeper (similar : Similar (mem t (hwIndex vaddr (level + 1)))
            (mem' t (hwIndex vaddr (level + 1))))
          (used : mem t (hwIndex vaddr (level + 1)) ≠ 0#64)
          (more : ¬ (level = 0 ∨ level < 3 ∧ hwLarge (mem t (hwIndex vaddr (level + 1))) = true)) :
          (hwWalk mem' vaddr (level + 1) t).2 = (hwWalk mem vaddr (level + 1) t).2 ∨
            (path.length + (level + 1) < 4 ∨ hwIndex vaddr 4 = 510) ∧
              Alike (hwWalk mem vaddr (level + 1) t).2 (hwWalk mem' vaddr (level + 1) t).2 := by
        have present := tree.present at_path used
        rw [hwWalk_table present more, hwWalk_table (similar.hwPresent present)
          (by rwa [similar.hwLarge]), similar.hwFrame]
        obtain ⟨path', at_path', short', ⟨rfl, self, rfl⟩ | rfl⟩ := tree.below at_path short used more
        · obtain same | ⟨-, alike⟩ := ih at_path' short' fun _ => List.nil_prefix
          · exact .inl same
          · refine .inr ⟨?_, alike⟩
            by_cases top : level = 3
            · rw [top] at self
              exact .inr self
            · simp only [List.length_nil] at short ⊢
              omega
        · have depth : (path ++ [hwIndex vaddr (level + 1)]).length + level =
              path.length + (level + 1) := by
            rw [List.length_append, List.length_singleton]
            omega
          have rest := ih at_path' short' fun all =>
            prefix_ptPath_concat (way (depth ▸ all)) (depth ▸ all) fun zero => more (.inl zero)
          rwa [depth] at rest
      obtain same | ⟨high, pointer, similar⟩ | ⟨branch, unused, pointer, empty⟩ := kept at_path slot
      · by_cases unused : mem t (hwIndex vaddr (level + 1)) = 0#64
        · rw [hwWalk_unused unused, hwWalk_unused (same.trans unused)]
          exact .inl rfl
        have present := tree.present at_path unused
        by_cases last : level = 0 ∨
            level < 3 ∧ hwLarge (mem t (hwIndex vaddr (level + 1))) = true
        · rw [hwWalk_page present last, hwWalk_page (same ▸ present) (by rwa [same]), same]
          exact .inl rfl
        · exact deeper (same ▸ .refl _) unused last
      · by_cases last : level = 0
        · rw [hwWalk_page pointer.1 (.inl last), hwWalk_page (similar.hwPresent pointer.1) (.inl last)]
          exact .inr ⟨.inl (by omega), .inr ⟨_, _, _, rfl, rfl, similar⟩⟩
        · exact deeper similar pointer.ne_zero (by simp [last, pointer.2])
      · rw [hwWalk_unused unused]
        by_cases last : level = 0
        · exact .inr ⟨.inl (by have high := branch.1; omega), .inl rfl⟩
        · obtain ⟨below, rfl⟩ := Nat.exists_eq_succ_of_ne_zero last
          rw [hwWalk_table pointer.1 (by simp [pointer.2]), hwWalk_unused (empty _)]
          exact .inl rfl

end PageTree

end Sdx.Mm
