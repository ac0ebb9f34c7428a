import Mathlib.Data.Finset.Card
import Mathlib.Data.Finset.Union
import Sdx.Mm.PageTreeEdit
import Sdx.Mm.VmmRoundTrip

/-! # Mapping to a physical address

`__vmm_map_to_paddr_internal` gives the pages of a range their entries, with the tables that
are missing in between. Each of its writes is an edit of the tree, so the translation of an
address is settled by the write to its own slot; all other edits keep it.
-/

namespace Sdx.Mm

variable {boot : BootInfo}

/-! ## Frames for new tables -/

/-- The next calls of `pmm_alloc` for a page return the frames in turn. -/
def HandsOut (boot : BootInfo) : Pmm → List Frame → Prop
  | _, [] => True
  | p, f :: frames => (pmmAlloc boot p 1 0).1 = f.toNat * pageSize ∧
      HandsOut boot (pmmAlloc boot p 1 0).2 frames

/-- `pmm_alloc` succeeds for as many tables, with frames that are no tables of the tree. -/
structure Supply (boot : BootInfo) (p : Pmm) (tables : Tables) (frames : List Frame) : Prop where
  hands : HandsOut boot p frames
  nodup : frames.Nodup
  fresh : ∀ f ∈ frames, f ≠ 0 ∧ ∀ path, tables path ≠ some f

theorem Supply.tail {p : Pmm} {tables : Tables} {f : Frame} {frames : List Frame}
    (supply : Supply boot p tables (f :: frames)) (path : List Index) :
    Supply boot (pmmAlloc boot p 1 0).2 (Function.update tables path (some f)) frames where
  hands := supply.hands.2
  nodup := (List.nodup_cons.mp supply.nodup).2
  fresh f' rest := by
    obtain ⟨nonzero, fresh⟩ := supply.fresh f' (List.mem_cons_of_mem f rest)
    refine ⟨nonzero, fun q here => ?_⟩
    by_cases new : q = path
    · rw [new, Function.update_self] at here
      cases here
      exact (List.nodup_cons.mp supply.nodup).1 rest
    · rw [Function.update_of_ne new] at here
      exact fresh q here

/-- The paths of the tables below the PML4 that the pages of a range need. -/
def tablePaths (vaddr : BitVec 64) (num : Nat) : Finset (List Index) :=
  (Finset.range num).biUnion fun j => (ptPath (pageAfter vaddr j)).inits.toFinset.erase []

theorem mem_tablePaths {vaddr : BitVec 64} {num : Nat} {path : List Index} :
    path ∈ tablePaths vaddr num ↔ ∃ j, j < num ∧ path ≠ [] ∧ path <+: ptPath (pageAfter vaddr j) := by
  simp [tablePaths]

/-- The tables of a range that the tree does not have. -/
def missingTables (tables : Tables) (vaddr : BitVec 64) (num : Nat) : Finset (List Index) :=
  (tablePaths vaddr num).filter fun path => tables path = none

/-! ## What an edit keeps -/

/-- The walk of `v` ends with the same entry, and `vmm_resolve` gives the same address. For an address
    in slot 510 the latter holds if it was mapped. -/
structure Keeps (s s' : Vmm) (v : BitVec 64) : Prop where
  leaf : hwIndex v 4 ≠ 510 → hwLeaf s'.mem s'.cr3 v = hwLeaf s.mem s.cr3 v
  resolve : (hwIndex v 4 = 510 → vmmResolve s v ≠ some 0) → vmmResolve s' v = vmmResolve s v

namespace Keeps

variable {s s' s'' : Vmm} {v : BitVec 64}

theorem refl (s : Vmm) (v : BitVec 64) : Keeps s s v := ⟨fun _ => rfl, fun _ => rfl⟩

theorem trans (first : Keeps s s' v) (second : Keeps s' s'' v) : Keeps s s'' v where
  leaf slot := (second.leaf slot).trans (first.leaf slot)
  resolve mapped := by
    have same := first.resolve mapped
    rw [← same] at mapped
    exact (second.resolve mapped).trans same

theorem of_kept {tables tables' : Tables} (tree : PageTree s.mem s.cr3 tables)
    (tree' : PageTree s'.mem s'.cr3 tables') (cr3 : s'.cr3 = s.cr3)
    (kept : ∀ {path t} {i : Index}, tables path = some t →
      (path.length = 3 → path = ptPath v ∧ i = hwIndex v 1) → Kept s.mem s'.mem path t i) :
    Keeps s s' v := by
  have walk := tree.walk_kept kept 4 tree.root (by simp) fun _ => List.nil_prefix
  have resolve := vmmResolve_eq tree.recursive v
  have resolve' := vmmResolve_eq tree'.recursive v
  rw [cr3] at resolve'
  refine ⟨fun slot => ?_, fun mapped => ?_⟩
  · obtain same | ⟨short | slot', -⟩ := walk
    · rw [hwLeaf, hwLeaf, cr3, same]
    · simp at short
    · exact absurd slot' slot
  · obtain same | ⟨short | slot', alike⟩ := walk
    · rw [resolve', resolve, same]
    · simp at short
    obtain none | ⟨level, entry, entry', leaf, leaf', similar⟩ := alike
    · rw [none] at resolve
      exact absurd resolve (mapped slot')
    · rw [resolve', resolve, leaf, leaf']
      exact congrArg some (similar.vmmResolveEntry v)

end Keeps

/-! ## What a mapping does to the tables -/

/-- The PMM behind as many calls of `pmm_alloc` for a page. -/
def pmmAfter (boot : BootInfo) (p : Pmm) (frames : List Frame) : Pmm :=
  frames.foldl (fun p _ => (pmmAlloc boot p 1 0).2) p

theorem handsOut_append {p : Pmm} {frames more : List Frame} :
    HandsOut boot p (frames ++ more) ↔
      HandsOut boot p frames ∧ HandsOut boot (pmmAfter boot p frames) more := by
  induction frames generalizing p with
  | nil => exact (true_and _).symm.to_iff
  | cons f frames ih => exact (and_congr_right' ih).trans and_assoc.symm

/-- The entry of each table on the way to the entry of a page, as paths. -/
def wayTo (v : BitVec 64) : List Index := ptPath v ++ [hwIndex v 1]

/-- Entries off the way are what they were, or zero in a new table. The new tables are in frames that
    `pmm_alloc` handed out. -/
structure Edits (boot : BootInfo) (way : List Index) (s s' : Vmm) (tables tables' : Tables) : Prop where
  cr3 : s'.cr3 = s.cr3
  handed : ∃ frames, HandsOut boot s.pmm frames ∧ s'.pmm = pmmAfter boot s.pmm frames ∧
    ∀ {path t}, tables' path = some t → tables path = some t ∨ t ∈ frames
  old : ∀ {path t}, tables path = some t → tables' path = some t
  outside : ∀ {t}, (∀ path, tables' path ≠ some t) → s'.mem t = s.mem t
  kept : ∀ {path t i}, tables path = some t → ¬ path ++ [i] <+: way → s'.mem t i = s.mem t i
  new : ∀ {path t i}, tables path = none → tables' path = some t → ¬ path ++ [i] <+: way →
    s'.mem t i = 0#64

namespace Edits

variable {way : List Index} {s s' s'' : Vmm} {tables tables' tables'' : Tables}

theorem longer {short : List Index} (edits : Edits boot short s s' tables tables')
    (before : short <+: way) : Edits boot way s s' tables tables' :=
  { edits with
    kept := fun at_path off => edits.kept at_path fun on => off (on.trans before)
    new := fun gone at_path off => edits.new gone at_path fun on => off (on.trans before) }

theorem trans (first : Edits boot way s s' tables tables')
    (second : Edits boot way s' s'' tables' tables'') : Edits boot way s s'' tables tables'' where
  cr3 := second.cr3.trans first.cr3
  handed := by
    obtain ⟨frames, hands, after, from_first⟩ := first.handed
    obtain ⟨more, hands', after', from_second⟩ := second.handed
    rw [after] at hands' after'
    refine ⟨frames ++ more, handsOut_append.mpr ⟨hands, hands'⟩, ?_, fun at_path => ?_⟩
    · rw [after', pmmAfter, pmmAfter, pmmAfter, List.foldl_append]
    · obtain before | here := from_second at_path
      · exact (from_first before).imp_right (List.mem_append_left more)
      · exact .inr (List.mem_append_right frames here)
  old at_path := second.old (first.old at_path)
  outside off := (second.outside off).trans
    (first.outside fun path at_path => off path (second.old at_path))
  kept at_path off := (second.kept (first.old at_path) off).trans (first.kept at_path off)
  new {path t i} gone at_path off := by
    cases before : tables' path with
    | none => exact second.new before at_path off
    | some t' =>
        cases (second.old before).symm.trans at_path
        exact (second.kept before off).trans (first.new gone before off)

/-- One entry of a table is written. -/
theorem set {path : List Index} {i : Index} {t : Frame} {alerts : Nat}
    (tree : PageTree s.mem s.cr3 tables) (at_path : tables path = some t) {value : BitVec 64} :
    Edits boot (path ++ [i]) s { s with mem := s.mem.set t i value, alerts := alerts } tables tables where
  cr3 := rfl
  handed := ⟨[], trivial, rfl, .inl⟩
  old := id
  outside off := PhysMem.set_frame _ _ fun eq => off path (eq ▸ at_path)
  kept at_q off := tree.set_other at_path at_q fun eq is => off (by rw [eq, is])
  new gone at_q := by
    rw [gone] at at_q
    cases at_q

/-- An empty table is linked. -/
theorem link {path : List Index} {i : Index} {t f : Frame} {entry : BitVec 64} {alerts : Nat}
    (tree : PageTree s.mem s.cr3 tables) (at_path : tables path = some t)
    (unused : s.mem t i = 0#64) (fresh : ∀ path', tables path' ≠ some f)
    (hands : (pmmAlloc boot s.pmm 1 0).1 = f.toNat * pageSize) :
    Edits boot (path ++ [i]) s
      { s with
        pmm := (pmmAlloc boot s.pmm 1 0).2
        mem := PageTree.link s.mem t i entry f
        alerts := alerts }
      tables (Function.update tables (path ++ [i]) (some f)) where
  cr3 := rfl
  handed := by
    refine ⟨[f], ⟨hands, trivial⟩, rfl, fun {q u} at_q => ?_⟩
    by_cases new : q = path ++ [i]
    · rw [new, Function.update_self] at at_q
      cases at_q
      exact .inr List.mem_cons_self
    · rw [Function.update_of_ne new] at at_q
      exact .inl at_q
  old {q u} at_q := by
    rw [Function.update_of_ne]
    · exact at_q
    · rintro rfl
      rw [tree.gone at_path unused] at at_q
      cases at_q
  outside {u} off := by
    have apart : u ≠ f := fun eq => off (path ++ [i]) (eq ▸ Function.update_self ..)
    have other : u ≠ t := fun eq => off path (by
      rw [Function.update_of_ne (by simp), eq, at_path])
    exact (Function.update_of_ne apart ..).trans (PhysMem.set_frame _ _ other)
  kept at_q off := tree.link_other at_path fresh at_q fun eq is => off (by rw [eq, is])
  new {q u j} gone at_q off := by
    by_cases new : q = path ++ [i]
    · rw [new, Function.update_self] at at_q
      cases at_q
      simp [PageTree.link]
    · rw [Function.update_of_ne new, gone] at at_q
      cases at_q

end Edits

/-! ## The tables of a page -/

/-- The entry of a new table leads to its frame. -/
theorem hwPointer_frame (f : Frame) {flags : BitVec 64} (within : flags &&& 7#64 = flags)
    (present : hwPresent flags = true) :
    hwPointer (BitVec.ofNat 64 (f.toNat * pageSize) ||| flags) ∧
      hwFrame (BitVec.ofNat 64 (f.toNat * pageSize) ||| flags) = f := by
  refine ⟨hwPointer_table (Nat.dvd_mul_left 4096 f.toNat) within present, ?_⟩
  rw [hwFrame_page (tableFlags_clear within), pageSize, Nat.mul_div_cancel _ (by decide)]
  exact BitVec.ofNat_toNat 40 f |>.trans (BitVec.setWidth_eq f)

/-- A table that is missing is linked, in the frame `pmm_alloc` gives. -/
theorem vmmGetTable_unused {s : Vmm} {tables : Tables} {path : List Index} {i : Index} {t f : Frame}
    {flags : BitVec 64} (tree : PageTree s.mem s.cr3 tables) (branch : Branch path i)
    (at_path : tables path = some t) (unused : s.mem t i = 0#64)
    (fresh : ∀ path', tables path' ≠ some f) (within : flags &&& 7#64 = flags)
    (present : hwPresent flags = true)
    (hands : (pmmAlloc boot s.pmm 1 0).1 = f.toNat * pageSize) (pml4 : Bool) :
    vmmGetTable boot s (vmmEntryAt (windowOf path) (i.setWidth 64)) (windowOf (path ++ [i])) flags pml4 =
      some { s with
        pmm := (pmmAlloc boot s.pmm 1 0).2
        mem := PageTree.link s.mem t i (BitVec.ofNat 64 (f.toNat * pageSize) ||| flags) f
        alerts := if pml4 then s.alerts + 1 else s.alerts } := by
  obtain ⟨pointer, frame⟩ := hwPointer_frame f within present
  have linked := tree.linkTable branch at_path (pmmAlloc boot s.pmm 1 0).2 pml4 fresh pointer frame
  have alloc : pmmAlloc boot s.pmm 1 0 = (f.toNat * pageSize, (pmmAlloc boot s.pmm 1 0).2) :=
    Prod.ext hands rfl
  have read := tree.read at_path i
  rw [vmmGetTable, Vmm.read, read, Option.bind_eq_bind, Option.bind_some, if_pos unused, alloc]
  exact linked

/-- The entry of a table that is there gets the flags. -/
theorem vmmGetTable_used {s : Vmm} {tables : Tables} {path : List Index} {i : Index} {t : Frame}
    {flags : BitVec 64} (tree : PageTree s.mem s.cr3 tables) (at_path : tables path = some t)
    (used : s.mem t i ≠ 0#64) (pml4 : Bool) :
    ∃ alerts, vmmGetTable boot s (vmmEntryAt (windowOf path) (i.setWidth 64))
        (windowOf (path ++ [i])) flags pml4 =
      some { s with mem := s.mem.set t i (s.mem t i ||| flags), alerts := alerts } := by
  obtain ⟨alerts, told⟩ : ∃ alerts,
      (if pml4 ∧ vmmEntryToFlags (s.mem t i) ≠ flags then s.alertTasks else s) =
        { s with alerts := alerts } := by
    split
    · exact ⟨s.alerts + 1, rfl⟩
    · exact ⟨s.alerts, rfl⟩
  have read := tree.read at_path i
  refine ⟨alerts, ?_⟩
  rw [vmmGetTable, Vmm.read, read, Option.bind_eq_bind, Option.bind_some, if_neg used, told,
    Vmm.writeFlags, Vmm.read, read, Option.bind_eq_bind, Option.bind_some, Vmm.write,
    tree.write at_path i]
  rfl

/-- A state on the way: the entries above the pages of the range are unused or point to tables, and
    `pmm_alloc` has a frame for each table that is still missing. -/
structure Filling (boot : BootInfo) (vaddr : BitVec 64) (num : Nat) (s : Vmm) (tables : Tables) :
    Prop where
  tree : PageTree s.mem s.cr3 tables
  supply : ∃ frames, Supply boot s.pmm tables frames ∧
    (missingTables tables vaddr num).card ≤ frames.length
  ways : ∀ {path i t}, path ++ [i] ∈ tablePaths vaddr num → tables path = some t →
    s.mem t i = 0#64 ∨ hwPointer (s.mem t i)

namespace Filling

variable {vaddr : BitVec 64} {num : Nat} {s : Vmm} {tables : Tables} {path : List Index} {i : Index}
  {t : Frame} {flags : BitVec 64}

theorem read (filling : Filling boot vaddr num s tables) (at_path : tables path = some t) (i : Index) :
    s.read (vmmEntryAt (windowOf path) (i.setWidth 64)) = some (s.mem t i) :=
  filling.tree.read at_path i

theorem write (filling : Filling boot vaddr num s tables) (at_path : tables path = some t) (i : Index)
    (value : BitVec 64) : s.write (vmmEntryAt (windowOf path) (i.setWidth 64)) value =
      some { s with mem := s.mem.set t i value } := by
  rw [Vmm.write, filling.tree.write at_path i value]
  rfl

/-- The table is new. -/
theorem link (filling : Filling boot vaddr num s tables) (needed : path ++ [i] ∈ tablePaths vaddr num)
    (branch : Branch path i) (at_path : tables path = some t) (unused : s.mem t i = 0#64)
    (within : flags &&& 7#64 = flags) (present : hwPresent flags = true) (pml4 : Bool) :
    ∃ s' tables', vmmGetTable boot s (vmmEntryAt (windowOf path) (i.setWidth 64))
        (windowOf (path ++ [i])) flags pml4 = some s' ∧
      Filling boot vaddr num s' tables' ∧ (∃ below, tables' (path ++ [i]) = some below) ∧
      Edits boot (path ++ [i]) s s' tables tables' ∧ ∀ v, Keeps s s' v := by
  have tree := filling.tree
  have gone := tree.gone at_path unused
  have missing : path ++ [i] ∈ missingTables tables vaddr num := Finset.mem_filter.mpr ⟨needed, gone⟩
  obtain ⟨frames, supply, enough⟩ := filling.supply
  have some_missing := Finset.card_pos.mpr ⟨_, missing⟩
  cases frames with
  | nil =>
      rw [List.length_nil] at enough
      omega
  | cons f frames =>
      have fresh := (supply.fresh f List.mem_cons_self).2
      have apart : t ≠ f := fun eq => fresh path (eq ▸ at_path)
      obtain ⟨pointer, frame⟩ := hwPointer_frame f within present
      have grown := tree.grow branch at_path unused fresh pointer frame
      have here := @PageTree.link_here s.mem i t f (BitVec.ofNat 64 (f.toNat * pageSize) ||| flags) apart
      refine ⟨_, _, vmmGetTable_unused tree branch at_path unused fresh within present supply.hands.1 pml4,
        ⟨grown, ⟨frames, supply.tail _, ?_⟩, fun {q j u} needed' at_q => ?_⟩,
        ⟨f, Function.update_self ..⟩, .link tree at_path unused fresh supply.hands.1,
        fun v => .of_kept tree grown rfl fun at_q _ =>
          tree.link_kept branch at_path unused fresh pointer frame at_q⟩
      · have fewer : missingTables (Function.update tables (path ++ [i]) (some f)) vaddr num ⊂
            missingTables tables vaddr num := by
          refine (Finset.ssubset_iff_of_subset fun q still => ?_).mpr ⟨_, missing, fun still => ?_⟩
          · obtain ⟨needed', none⟩ := Finset.mem_filter.mp still
            refine Finset.mem_filter.mpr ⟨needed', ?_⟩
            by_cases new : q = path ++ [i]
            · rw [new, gone]
            · rwa [Function.update_of_ne new] at none
          · have none := (Finset.mem_filter.mp still).2
            rw [Function.update_self] at none
            cases none
        have less := Finset.card_lt_card fewer
        rw [List.length_cons] at enough
        omega
      · by_cases new : q = path ++ [i]
        · rw [new, Function.update_self] at at_q
          cases at_q
          exact .inl (by simp)
        · rw [Function.update_of_ne new] at at_q
          by_cases slot : q = path ∧ j = i
          · obtain ⟨rfl, rfl⟩ := slot
            cases at_path.symm.trans at_q
            right
            dsimp only
            rwa [here]
          · have other : PageTree.link s.mem t i (BitVec.ofNat 64 (f.toNat * pageSize) ||| flags) f u j =
                s.mem u j := tree.link_other at_path fresh at_q fun eq is => slot ⟨eq, is⟩
            dsimp only
            rw [other]
            exact filling.ways needed' at_q

/-- The table is there, and its entry gets the flags. -/
theorem flagged (filling : Filling boot vaddr num s tables)
    (needed : path ++ [i] ∈ tablePaths vaddr num) (branch : Branch path i)
    (at_path : tables path = some t) (used : s.mem t i ≠ 0#64) (within : flags &&& 7#64 = flags)
    (pml4 : Bool) :
    ∃ s', vmmGetTable boot s (vmmEntryAt (windowOf path) (i.setWidth 64))
        (windowOf (path ++ [i])) flags pml4 = some s' ∧
      Filling boot vaddr num s' tables ∧ (∃ below, tables (path ++ [i]) = some below) ∧
      Edits boot (path ++ [i]) s s' tables tables ∧ ∀ v, Keeps s s' v := by
  have tree := filling.tree
  have pointer := (filling.ways needed at_path).resolve_left used
  obtain ⟨tree', kept⟩ := tree.set_flags at_path branch.1 pointer within
  obtain ⟨alerts, done⟩ := @vmmGetTable_used boot _ _ _ _ _ _ tree at_path used pml4
  refine ⟨_, done, ⟨tree', filling.supply, fun {q j u} needed' at_q => ?_⟩,
    ⟨_, tree.child.mpr ⟨branch, t, at_path, pointer, rfl⟩⟩, .set tree at_path,
    fun v => .of_kept tree tree' rfl fun at_q _ => kept at_q⟩
  · by_cases slot : q = path ∧ j = i
    · obtain ⟨rfl, rfl⟩ := slot
      cases at_path.symm.trans at_q
      have similar := (Similar.refl _).or_flags used within
      right
      dsimp only
      rw [PhysMem.set_same]
      exact ⟨similar.hwPresent pointer.1, similar.hwLarge.trans pointer.2⟩
    · dsimp only
      rw [tree.set_other at_path at_q fun eq is => slot ⟨eq, is⟩]
      exact filling.ways needed' at_q

/-- The table below a slot: it is there, or it is new. -/
theorem getTable (filling : Filling boot vaddr num s tables)
    (needed : path ++ [i] ∈ tablePaths vaddr num) (branch : Branch path i)
    (at_path : tables path = some t) (within : flags &&& 7#64 = flags)
    (present : hwPresent flags = true) (pml4 : Bool) :
    ∃ s' tables', vmmGetTable boot s (vmmEntryAt (windowOf path) (i.setWidth 64))
        (windowOf (path ++ [i])) flags pml4 = some s' ∧
      Filling boot vaddr num s' tables' ∧ (∃ below, tables' (path ++ [i]) = some below) ∧
      Edits boot (path ++ [i]) s s' tables tables' ∧ ∀ v, Keeps s s' v := by
  by_cases unused : s.mem t i = 0#64
  · exact filling.link needed branch at_path unused within present pml4
  · obtain ⟨s', done, rest⟩ := filling.flagged needed branch at_path unused within pml4
    exact ⟨s', tables, done, rest⟩

/-- The tables above a page. -/
theorem getTables (filling : Filling boot vaddr num s tables) {j : Nat} (lt : j < num)
    (slot : hwIndex (pageAfter vaddr j) 4 ≠ 510) (within : flags &&& 7#64 = flags)
    (present : hwPresent flags = true) :
    ∃ s' tables', vmmGetTables boot s (pageAfter vaddr j) flags = some s' ∧
      Filling boot vaddr num s' tables' ∧ (∃ t, tables' (ptPath (pageAfter vaddr j)) = some t) ∧
      Edits boot (wayTo (pageAfter vaddr j)) s s' tables tables' ∧ ∀ v, Keeps s s' v := by
  generalize page : pageAfter vaddr j = a at slot ⊢
  have before₁ : [] ++ [hwIndex a 4] <+: ptPath a := ⟨[_, _], rfl⟩
  have before₂ : [hwIndex a 4] ++ [hwIndex a 3] <+: ptPath a := ⟨[_], rfl⟩
  have before₃ : [hwIndex a 4, hwIndex a 3] ++ [hwIndex a 2] <+: ptPath a := ⟨[], rfl⟩
  have needed {path : List Index} {i : Index} (before : path ++ [i] <+: ptPath a) :
      path ++ [i] ∈ tablePaths vaddr num :=
    mem_tablePaths.mpr ⟨j, lt, by simp, page.symm ▸ before⟩
  obtain ⟨s₁, tables₁, pdpt, filling₁, ⟨t₁, at_pdpt⟩, edits₁, keeps₁⟩ := filling.getTable (needed before₁)
    (ptPath_branch slot before₁) filling.tree.root within present true
  obtain ⟨s₂, tables₂, pd, filling₂, ⟨t₂, at_pd⟩, edits₂, keeps₂⟩ := filling₁.getTable (needed before₂)
    (ptPath_branch slot before₂) at_pdpt within present false
  obtain ⟨s₃, tables₃, pt, filling₃, at_pt, edits₃, keeps₃⟩ := filling₂.getTable (needed before₃)
    (ptPath_branch slot before₃) at_pd within present false
  rw [← vmmPml4Entry_eq, List.nil_append, ← vmmPdptVaddr_eq] at pdpt
  rw [← vmmPdptEntry_eq, List.singleton_append, ← vmmPdVaddr_eq] at pd
  simp only [List.nil_append, List.cons_append] at pt
  rw [← vmmPdEntry_eq, ← vmmPtVaddr_eq] at pt
  have way {q : List Index} (before : q <+: ptPath a) : q <+: wayTo a :=
    before.trans (List.prefix_append ..)
  have edits := ((edits₁.longer (way before₁)).trans (edits₂.longer (way before₂))).trans
    (edits₃.longer (way before₃))
  refine ⟨s₃, tables₃, ?_, filling₃, at_pt, edits,
    fun v => ((keeps₁ v).trans (keeps₂ v)).trans (keeps₃ v)⟩
  rw [vmmGetTables, pdpt, Option.bind_eq_bind, Option.bind_some, pd, Option.bind_some, pt]

end Filling

/-! ## One page -/

/-- The pages of a range have slots of their own, none of them below entry 510. -/
structure OwnSlots (vaddr : BitVec 64) (num : Nat) : Prop where
  fits : vaddr.toNat + num * 4096 ≤ 2 ^ 64
  size : num * 4096 ≤ 2 ^ 48
  slot : ∀ j, j < num → hwIndex (pageAfter vaddr j) 4 ≠ 510

theorem InVma.ownSlots {vma : BitVec 32} {vaddr : BitVec 64} {num : Nat}
    (range : InVma vma vaddr num) : OwnSlots vaddr num := by
  obtain ⟨-, bounds⟩ := range.bounds
  exact ⟨by omega, by omega, fun _ => range.slot⟩

namespace OwnSlots

variable {vaddr : BitVec 64} {num j k : Nat}

theorem toNat_pageAfter (range : OwnSlots vaddr num) (lt : j < num) :
    (pageAfter vaddr j).toNat = vaddr.toNat + j * 4096 := by
  have fits := range.fits
  rw [pageAfter, BitVec.toNat_add, BitVec.toNat_ofNat]
  omega

theorem slot_inj (range : OwnSlots vaddr num) (lt : j < num) (lt' : k < num)
    (path : ptPath (pageAfter vaddr j) = ptPath (pageAfter vaddr k))
    (index : hwIndex (pageAfter vaddr j) 1 = hwIndex (pageAfter vaddr k) 1) : j = k := by
  have size := range.size
  have same := page_of_slot path index
  rw [range.toNat_pageAfter lt, range.toNat_pageAfter lt'] at same
  omega

end OwnSlots

/-- Addresses with the same entry of a PT. -/
def OnPage (v w : BitVec 64) : Prop := ptPath v = ptPath w ∧ hwIndex v 1 = hwIndex w 1

/-- The flags of a page are none of those an address would be taken from, and the page is small. -/
theorem vmmAttrToFlags_exact (attr : BitVec 32) :
    hwLarge (vmmAttrToFlags attr false) = false ∧
      vmmEntryToFlags (vmmAttrToFlags attr false) = vmmAttrToFlags attr false := by
  unfold vmmAttrToFlags
  by_cases user : attr &&& vmmAttrUser = 0#32 <;> by_cases save : attr &&& vmmAttrSave = 0#32 <;>
    by_cases noExec : attr &&& vmmAttrNoExec = 0#32 <;>
    by_cases noCache : attr &&& vmmAttrNoCache = 0#32 <;>
    by_cases rdonly : attr &&& vmmAttrRdonly = 0#32 <;>
    simp only [user, save, noExec, noCache, rdonly, ne_eq, not_true, not_false_iff, if_true, if_false,
      Bool.false_eq_true] <;>
    decide

theorem vmmEntryToFlags_page {a : Nat} {flags : BitVec 64} (aligned : 4096 ∣ a) (low : a < 2 ^ 47) :
    vmmEntryToFlags (BitVec.ofNat 64 a ||| flags) = vmmEntryToFlags flags := by
  have none : BitVec.ofNat 64 a &&& ~~~pteFlagsClear = 0#64 := by
    apply BitVec.eq_of_getLsbD_eq
    intro i lt
    rw [BitVec.getLsbD_and, BitVec.getLsbD_not, getLsbD_pteFlagsClear lt, BitVec.getLsbD_zero]
    by_cases off : i < 12 ∨ 47 ≤ i
    · rw [getLsbD_page aligned low off, Bool.false_and]
    · have kept : 10 ≤ i ∧ i ≠ 63 := by omega
      simp [kept]
  have flagsOnly : (BitVec.ofNat 64 a ||| flags) &&& ~~~pteFlagsClear = flags &&& ~~~pteFlagsClear := by
    rw [BitVec.and_or_distrib_right, none, BitVec.zero_or]
  rw [vmmEntryToFlags, flagsOnly, vmmEntryToFlags]

namespace Filling

variable {vaddr : BitVec 64} {num j : Nat} {s : Vmm} {tables : Tables}

/-- One round of the loop gives the addresses of a page their entry, and no others. -/
theorem mapPage (filling : Filling boot vaddr num s tables) (paddr : BitVec 64) (attr : BitVec 32)
    (lt : j < num) (slot : hwIndex (pageAfter vaddr j) 4 ≠ 510) :
    ∃ s' tables', vmmMapPage boot s paddr (pageAfter vaddr j) attr = some s' ∧
      Filling boot vaddr num s' tables' ∧
      (∀ v, OnPage v (pageAfter vaddr j) →
        hwLeaf s'.mem s'.cr3 v = some (1, paddr ||| vmmAttrToFlags attr false)) ∧
      (∃ t, tables' (ptPath (pageAfter vaddr j)) = some t ∧
        s'.mem t (hwIndex (pageAfter vaddr j) 1) = paddr ||| vmmAttrToFlags attr false) ∧
      Edits boot (wayTo (pageAfter vaddr j)) s s' tables tables' ∧
      ∀ v, ¬ OnPage v (pageAfter vaddr j) → Keeps s s' v := by
  obtain ⟨within, tablePresent⟩ := vmmAttrToFlags_table attr
  obtain ⟨s₁, tables₁, done, filling₁, ⟨t, at_pt⟩, edits, keeps⟩ :=
    filling.getTables lt slot within tablePresent
  have present : hwPresent (paddr ||| vmmAttrToFlags attr false) = true := by
    have present := (vmmAttrToFlags_page attr).2.1
    simp only [hwPresent] at present
    rw [hwPresent, BitVec.getLsbD_or, present, Bool.or_true]
  have used : paddr ||| vmmAttrToFlags attr false ≠ 0#64 := by
    intro zero
    rw [zero] at present
    cases present
  have tree' := filling₁.tree.set_page (i := hwIndex (pageAfter vaddr j) 1) at_pt rfl present
  have read := filling₁.read at_pt (hwIndex (pageAfter vaddr j) 1)
  have write := filling₁.write at_pt (hwIndex (pageAfter vaddr j) 1)
    (paddr ||| vmmAttrToFlags attr false)
  rw [ptPath, ← vmmPtEntry_eq] at read write
  refine ⟨{ s₁ with
      mem := s₁.mem.set t (hwIndex (pageAfter vaddr j) 1) (paddr ||| vmmAttrToFlags attr false) },
    tables₁, ?_, ⟨tree', filling₁.supply, fun {q i u} needed at_q => ?_⟩, fun v on => ?_,
    ⟨t, at_pt, PhysMem.set_same ..⟩, edits.trans (.set filling₁.tree at_pt),
    fun v off => (keeps v).trans (.of_kept filling₁.tree tree' rfl fun {q u i} at_q last => ?_)⟩
  · rw [vmmMapPage, done, Option.bind_eq_bind, Option.bind_some, read, Option.bind_eq_bind,
      Option.bind_some, write]
  · have high : q ≠ ptPath (pageAfter vaddr j) := by
      rintro rfl
      obtain ⟨k, -, -, before⟩ := mem_tablePaths.mp needed
      have short := before.length_le
      simp [ptPath] at short
    dsimp only
    rw [filling₁.tree.set_other at_pt at_q fun eq => absurd eq high]
    exact filling₁.ways needed at_q
  · obtain ⟨path, index⟩ := on
    have here := @PhysMem.set_same s₁.mem t (hwIndex (pageAfter vaddr j) 1)
      (paddr ||| vmmAttrToFlags attr false)
    rw [← path] at at_pt
    rw [← index] at here tree' ⊢
    have leaf := tree'.leaf_of_pt at_pt (here.symm ▸ used)
    rwa [here] at leaf
  · refine .same (filling₁.tree.set_other at_pt at_q fun eq is => off ?_)
    obtain ⟨path, index⟩ := last (eq ▸ rfl)
    exact ⟨path.symm.trans eq, index.symm.trans is⟩

/-- The loop gives each page of the range from `j` on its entry, and nothing else. -/
theorem mapPages (filling : Filling boot vaddr num s tables) (paddr : BitVec 64) (attr : BitVec 32)
    {n : Nat} (range : OwnSlots vaddr num) (left : j + n = num) :
    ∃ s' tables', vmmMapPages boot s (pageAfter paddr j) (pageAfter vaddr j) attr n = some s' ∧
      Filling boot vaddr num s' tables' ∧
      (∀ k, j ≤ k → k < num → ∀ v, OnPage v (pageAfter vaddr k) →
        hwLeaf s'.mem s'.cr3 v = some (1, pageAfter paddr k ||| vmmAttrToFlags attr false)) ∧
      ∀ v, (∀ k, j ≤ k → k < num → ¬ OnPage v (pageAfter vaddr k)) → Keeps s s' v := by
  induction n generalizing s tables j with
  | zero =>
      obtain rfl : j = num := left
      exact ⟨s, tables, rfl, filling, fun k ge lt => absurd lt (by omega), fun v _ => .refl s v⟩
  | succ n ih =>
      have slot := range.slot j (by omega)
      obtain ⟨s₁, tables₁, page, filling₁, here, -, -, keeps⟩ :=
        filling.mapPage (pageAfter paddr j) attr (by omega) slot
      obtain ⟨s₂, tables₂, rest, filling₂, leaves, keeps'⟩ := ih filling₁ (j := j + 1) (by omega)
      refine ⟨s₂, tables₂, ?_, filling₂, fun k ge lt v on => ?_, fun v off => ?_⟩
      · rw [vmmMapPages, page, Option.bind_eq_bind, Option.bind_some, pageAfter_succ, pageAfter_succ,
          rest]
      · by_cases first : k = j
        · subst first
          -- the later pages have slots of their own
          have later := keeps' v fun k' ge' lt' on' => by
            have same := range.slot_inj lt lt' (on.1.symm.trans on'.1) (on.2.symm.trans on'.2)
            omega
          have below : hwIndex v 4 ≠ 510 := by
            have path := on.1
            rw [ptPath, ptPath] at path
            rw [(List.cons.inj path).1]
            exact slot
          rw [later.leaf below, here v on]
        · exact leaves k (by omega) lt v on
      · exact (keeps v (off j (Nat.le_refl j) (by omega))).trans
          (keeps' v fun k ge lt => off k (by omega) lt)

end Filling

/-! ## The range -/

/-- What `__vmm_map_to_paddr_internal` is called with: page aligned addresses, a range in one VMA
    that meets no page of 2 MiB, and a frame of `pmm_alloc` for each table that is missing. -/
structure MapRequest (boot : BootInfo) (s : Vmm) (tables : Tables) (paddr vaddr : BitVec 64)
    (num : Nat) : Prop where
  tree : PageTree s.mem s.cr3 tables
  aligned : 4096 ∣ vaddr.toNat ∧ 4096 ∣ paddr.toNat
  low : paddr.toNat + num * 4096 < 2 ^ 47
  range : ∃ vma, InVma vma vaddr num
  small : ∀ j, j < num → ∀ entry, hwLeaf s.mem s.cr3 (pageAfter vaddr j) ≠ some (2, entry)
  supply : ∃ frames, Supply boot s.pmm tables frames ∧
    (missingTables tables vaddr num).card ≤ frames.length

/-- In the 48 bits that are translated, `v` is no address of the range. -/
def OutOfRange (vaddr : BitVec 64) (num : Nat) (v : BitVec 64) : Prop :=
  ∀ d, d < num * 4096 → v.setWidth 48 ≠ (vaddr + BitVec.ofNat 64 d).setWidth 48

section

variable {vaddr paddr v : BitVec 64} {num d j : Nat}

theorem toNat_inRange (range : OwnSlots vaddr num) (lt : d < num * 4096) :
    (vaddr + BitVec.ofNat 64 d).toNat = vaddr.toNat + d := by
  have fits := range.fits
  rw [BitVec.toNat_add, BitVec.toNat_ofNat]
  omega

theorem onPage_inRange (range : OwnSlots vaddr num) (aligned : 4096 ∣ vaddr.toNat)
    (lt : d < num * 4096) : OnPage (vaddr + BitVec.ofNat 64 d) (pageAfter vaddr (d / 4096)) := by
  have value := toNat_inRange range lt
  have page := range.toNat_pageAfter (j := d / 4096) (by omega)
  have index (level : Nat) (pos : 0 < level) : hwIndex (vaddr + BitVec.ofNat 64 d) level =
      hwIndex (pageAfter vaddr (d / 4096)) level :=
    hwIndex_congr_page (by omega) pos
  refine ⟨?_, index 1 (by decide)⟩
  rw [ptPath, ptPath, index 4 (by decide), index 3 (by decide), index 2 (by decide)]

theorem OutOfRange.not_onPage (out : OutOfRange vaddr num v) (range : OwnSlots vaddr num)
    (aligned : 4096 ∣ vaddr.toNat) (lt : j < num) : ¬ OnPage v (pageAfter vaddr j) := by
  intro on
  have page := page_of_slot on.1 on.2
  rw [range.toNat_pageAfter lt] at page
  refine out (j * 4096 + v.toNat % 4096) (by omega) (BitVec.eq_of_toNat_eq ?_)
  rw [BitVec.toNat_setWidth, BitVec.toNat_setWidth, toNat_inRange range (by omega)]
  omega

/-- `vmm_resolve` of an address on the page of an entry. -/
theorem vmmResolveEntry_page {attr : BitVec 32} (aligned : 4096 ∣ paddr.toNat)
    (canon : canonical paddr = true) :
    vmmResolveEntry (paddr ||| vmmAttrToFlags attr false) v =
      paddr + BitVec.ofNat 64 (v.toNat % 4096) := by
  obtain ⟨clear, -, -⟩ := vmmAttrToFlags_page attr
  obtain ⟨small, -⟩ := vmmAttrToFlags_exact attr
  have large : hwLarge (paddr ||| vmmAttrToFlags attr false) = false := by
    have bit := getLsbD_aligned aligned (i := 7) (by decide)
    rw [BitVec.ofNat_toNat, BitVec.setWidth_eq] at bit
    rw [hwLarge, BitVec.getLsbD_or, bit, Bool.false_or]
    exact small
  have addr := vmmEntryToAddr_canonical aligned canon clear
  have offset : (v &&& 0xfff#64).toNat = v.toNat % 4096 := by
    rw [BitVec.toNat_and, show (0xfff#64).toNat = 2 ^ 12 - 1 from rfl, Nat.and_two_pow_sub_one_eq_mod]
  obtain ⟨q, page⟩ := aligned
  have sum := toNat_or_of_lt (x := paddr) (y := v &&& 0xfff#64) (k := 12) (a := q) page (by omega)
  rw [vmmResolveEntry, if_neg (not_not.mpr ((pteFlagPS_unset_iff _).mpr large)), addr]
  apply BitVec.eq_of_toNat_eq
  rw [sum, offset, BitVec.toNat_add, BitVec.toNat_ofNat]
  omega

end

/-- The beginning: where the range needs a PT, there is no page of 2 MiB. -/
theorem PageTree.filling {s : Vmm} {tables : Tables} {vaddr : BitVec 64} {num : Nat}
    (tree : PageTree s.mem s.cr3 tables)
    (supply : ∃ frames, Supply boot s.pmm tables frames ∧
      (missingTables tables vaddr num).card ≤ frames.length)
    (small : ∀ j, j < num → ∀ entry, hwLeaf s.mem s.cr3 (pageAfter vaddr j) ≠ some (2, entry)) :
    Filling boot vaddr num s tables := by
  refine ⟨tree, supply, fun {path i t} needed at_path => ?_⟩
  rw [or_iff_not_imp_left]
  intro used
  obtain ⟨j, lt, -, before⟩ := mem_tablePaths.mp needed
  exact tree.way_pointer before at_path used (small j lt)

/-- In the end `vmm_resolve` gives what the pages of the range were mapped to. -/
theorem Filling.resolves {s : Vmm} {tables : Tables} {paddr vaddr : BitVec 64} {num d : Nat}
    {attr : BitVec 32} (filled : Filling boot vaddr num s tables) (range : OwnSlots vaddr num)
    (aligned : 4096 ∣ vaddr.toNat ∧ 4096 ∣ paddr.toNat)
    (canon : ∀ j, j < num → canonical (pageAfter paddr j) = true)
    (leaves : ∀ j, 0 ≤ j → j < num → ∀ v, OnPage v (pageAfter vaddr j) →
      hwLeaf s.mem s.cr3 v = some (1, pageAfter paddr j ||| vmmAttrToFlags attr false))
    (lt : d < num * 4096) :
    vmmResolve s (vaddr + BitVec.ofNat 64 d) = some (paddr + BitVec.ofNat 64 d) := by
  obtain ⟨valigned, paligned⟩ := aligned
  have leaf := leaves (d / 4096) (Nat.zero_le _) (by omega) _ (onPage_inRange range valigned lt)
  have start : (pageAfter paddr (d / 4096)).toNat = (paddr.toNat + d / 4096 * 4096) % 2 ^ 64 := by
    rw [pageAfter, BitVec.toNat_add, BitVec.toNat_ofNat]
    omega
  have value := toNat_inRange range lt
  rw [hwLeaf] at leaf
  rw [vmmResolve_eq filled.tree.recursive, leaf]
  refine congrArg some ((vmmResolveEntry_page (by omega) (canon (d / 4096) (by omega))).trans ?_)
  rw [value]
  apply BitVec.eq_of_toNat_eq
  rw [BitVec.toNat_add, BitVec.toNat_add, start, BitVec.toNat_ofNat, BitVec.toNat_ofNat]
  omega

/-- `__vmm_map_to_paddr_internal` establishes the translation it is asked for and no other. The window
    in slot 510 shows the tables of the tree, the new ones as well: there an address that was not
    mapped can become one of a new table. -/
theorem vmmMapToPaddrInternal_exact {s : Vmm} {tables : Tables} {paddr vaddr : BitVec 64} {num : Nat}
    (request : MapRequest boot s tables paddr vaddr num) (attr : BitVec 32) :
    ∃ s', vmmMapToPaddrInternal boot s paddr vaddr num attr = some (vaddr, s') ∧
      (∀ d, d < num * 4096 →
        vmmResolve s' (vaddr + BitVec.ofNat 64 d) = some (paddr + BitVec.ofNat 64 d)) ∧
      (∀ v, OutOfRange vaddr num v → (hwIndex v 4 = 510 → vmmResolve s v ≠ some 0) →
        vmmResolve s' v = vmmResolve s v) ∧
      ∀ j, j < num → ∃ entry,
        vmmEntryFromVaddr s' (pageAfter vaddr j) = some (some (vmmPtEntry (pageAfter vaddr j))) ∧
        s'.read (vmmPtEntry (pageAfter vaddr j)) = some entry ∧
        entry = pageAfter paddr j ||| vmmAttrToFlags attr false ∧
        vmmEntryToFlags entry = vmmAttrToFlags attr false := by
  obtain ⟨vma, inside⟩ := request.range
  have range := inside.ownSlots
  obtain ⟨aligned, paligned⟩ := request.aligned
  have low := request.low
  obtain ⟨s', tables', done, filled, leaves, keeps⟩ :=
    (request.tree.filling request.supply request.small).mapPages paddr attr range (Nat.zero_add num)
  rw [pageAfter_zero, pageAfter_zero] at done
  have tables := filled.tree.recursive
  have page (j : Nat) (lt : j < num) : (pageAfter paddr j).toNat = paddr.toNat + j * 4096 := by
    rw [pageAfter, BitVec.toNat_add, BitVec.toNat_ofNat]
    omega
  have canon (j : Nat) (lt : j < num) : canonical (pageAfter paddr j) = true := by
    have start := page j lt
    exact canonical_of_low (by omega)
  refine ⟨s', by rw [vmmMapToPaddrInternal, done]; rfl, fun d lt => ?_, fun v out mapped => ?_,
    fun j lt => ?_⟩
  · exact filled.resolves range request.aligned canon leaves lt
  · exact (keeps v fun k _ lt => out.not_onPage range aligned lt).resolve mapped
  · have leaf := leaves j (Nat.zero_le j) lt (pageAfter vaddr j) ⟨rfl, rfl⟩
    have start := page j lt
    obtain ⟨-, entry, read⟩ := vmmFinds tables (pageAfter vaddr j)
    rw [hwLeaf] at leaf
    rw [leaf] at entry
    obtain ⟨-, read, -⟩ := read _ _ leaf
    refine ⟨_, entry, read, rfl, ?_⟩
    have flags := @vmmEntryToFlags_page (pageAfter paddr j).toNat (vmmAttrToFlags attr false)
      (by omega) (by omega)
    rw [BitVec.ofNat_toNat, BitVec.setWidth_eq] at flags
    exact flags.trans (vmmAttrToFlags_exact attr).2

/-! ### Three pages, two of them in a new PT -/

/-- The four tables are in the frames 1 to 4. -/
theorem onePageTables_fresh {f : Frame} (high : 4 < f.toNat) :
    f ≠ 0 ∧ ∀ path, onePageTables path ≠ some f := by
  refine ⟨?_, fun path at_path => ?_⟩
  · rintro rfl
    exact absurd high (by decide)
  · have low := Chain.low at_path
    omega

theorem onePageMap_request :
    MapRequest freeBoot (onePageMap 0x10000) onePageTables 0x40000 0x1ff000 3 where
  tree := onePage_tree (by decide)
  aligned := by decide
  low := by decide
  range := ⟨vmmAttrUser, by rw [InVma, if_pos (by decide)]; decide⟩
  small := by
    have unmapped : ∀ j, j < 3 → hwLeaf (onePageMap 0x10000).mem (onePageMap 0x10000).cr3
        (pageAfter 0x1ff000 j) = none := by decide
    intro j lt entry leaf
    rw [unmapped j lt] at leaf
    cases leaf
  supply := by
    refine ⟨[16], ⟨⟨by decide, trivial⟩, by decide, fun f here => ?_⟩, by decide⟩
    obtain rfl := List.mem_singleton.mp here
    exact onePageTables_fresh (by decide)

theorem vmmMapToPaddrInternal_exact_border : ∃ s',
    vmmMapToPaddrInternal freeBoot (onePageMap 0x10000) 0x40000 0x1ff000 3 vmmAttrUser =
      some (0x1ff000, s') ∧
    (∀ d, d < 3 * 4096 →
      vmmResolve s' (0x1ff000 + BitVec.ofNat 64 d) = some (0x40000 + BitVec.ofNat 64 d)) ∧
    (∀ v, OutOfRange 0x1ff000 3 v →
      (hwIndex v 4 = 510 → vmmResolve (onePageMap 0x10000) v ≠ some 0) →
        vmmResolve s' v = vmmResolve (onePageMap 0x10000) v) ∧
    ∀ j, j < 3 → ∃ entry,
      vmmEntryFromVaddr s' (pageAfter 0x1ff000 j) = some (some (vmmPtEntry (pageAfter 0x1ff000 j))) ∧
      s'.read (vmmPtEntry (pageAfter 0x1ff000 j)) = some entry ∧
      entry = pageAfter 0x40000 j ||| vmmAttrToFlags vmmAttrUser false ∧
      vmmEntryToFlags entry = vmmAttrToFlags vmmAttrUser false :=
  vmmMapToPaddrInternal_exact onePageMap_request vmmAttrUser

/-- Two addresses that are not in the range and are mapped behind the call: the second word of the new
    PT in the window, and the third page with bit 48. -/
theorem vmmMapToPaddrInternal_elsewhere :
    MapRequest freeBoot (onePageMap 0x10000) onePageTables 0x40000 0x1ff000 3 ∧ ∃ s',
      vmmMapToPaddrInternal freeBoot (onePageMap 0x10000) 0x40000 0x1ff000 3 vmmAttrUser =
        some (0x1ff000, s') ∧
      (∀ d, d < 3 * 4096 → 0xffffff0000001008 ≠ 0x1ff000 + BitVec.ofNat 64 d ∧
        0x1000000201000 ≠ 0x1ff000 + BitVec.ofNat 64 d) ∧
      vmmResolve (onePageMap 0x10000) 0xffffff0000001008 = some 0 ∧
      vmmResolve s' 0xffffff0000001008 ≠ some 0 ∧
      vmmResolve (onePageMap 0x10000) 0x1000000201000 = some 0 ∧
      vmmResolve s' 0x1000000201000 = some 0x42000 := by
  have inside' : InVma vmmAttrUser 0x1ff000 3 := by
    rw [InVma, if_pos (by decide)]
    decide
  have range := inside'.ownSlots
  have inside (d : Nat) (lt : d < 3 * 4096) :
      ((0x1ff000 : BitVec 64) + BitVec.ofNat 64 d).toNat < 0x202000 := by
    rw [toNat_inRange range lt, show (0x1ff000 : BitVec 64).toNat = 0x1ff000 from rfl]
    omega
  have filling := onePageMap_request.tree.filling onePageMap_request.supply onePageMap_request.small
  obtain ⟨s', tables', done, filled, leaves, -⟩ := filling.mapPages 0x40000 vmmAttrUser range
    (Nat.zero_add 3)
  have tables := filled.tree.recursive
  refine ⟨onePageMap_request, s', by rw [vmmMapToPaddrInternal, ← pageAfter_zero 0x40000,
    ← pageAfter_zero 0x1ff000, done]; rfl, fun d lt => ⟨fun eq => ?_, fun eq => ?_⟩,
    by decide, ?_, by decide, ?_⟩
  · exact absurd (inside d lt) (by rw [← eq]; decide)
  · exact absurd (inside d lt) (by rw [← eq]; decide)
  · have leaf := leaves 2 (by decide) (by decide) (pageAfter 0x1ff000 2) ⟨rfl, rfl⟩
    obtain ⟨-, read, -⟩ := (vmmFinds tables (pageAfter 0x1ff000 2)).page _ _ leaf
    have word : vmmPageEntry 1 (pageAfter 0x1ff000 2) = 0xffffff0000001008 := by decide
    rw [word] at read
    obtain ⟨paddr, translate, -⟩ := Option.map_eq_some_iff.mp read
    rw [hwTranslate, if_pos (by decide)] at translate
    obtain ⟨⟨level, entry⟩, walk, -⟩ := Option.map_eq_some_iff.mp translate
    rw [vmmResolve_eq tables, walk]
    intro zero
    have bit := congrArg (BitVec.getLsbD · 3) (Option.some.inj zero)
    simp only [Option.elim_some, vmmResolveEntry] at bit
    split at bit <;> simp at bit
  · have leaf := leaves 2 (by decide) (by decide) 0x1000000201000
      ⟨by decide, by decide⟩
    rw [hwLeaf] at leaf
    rw [vmmResolve_eq tables, leaf]
    decide

end Sdx.Mm
