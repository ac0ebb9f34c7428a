import Mathlib.Order.Bounds.Defs
import Sdx.Mm.VmmMapTo
import Sdx.Mm.VmmSync

/-! # What is in a synced PML4

`vmm_sync` copies the PML4 while its own temporary page is mapped, and unmaps the page behind the
copy. The entry above the page goes with it if nothing else is below, and then the copy has an
entry that the PML4 has not. The entry 255 it neither clears nor copies.
-/

namespace Sdx.Mm

variable {boot : BootInfo}

/-! ## Unmapping one page -/

/-- An entry was cleared if `lost` holds, and that is all. -/
structure Loses (lost : Prop) (mem mem' : PhysMem) (t : Frame) (i : Index) : Prop where
  cleared : lost → mem' = mem.set t i 0#64
  kept : ¬lost → mem' = mem

namespace Loses

variable {lost : Prop} {mem mem' : PhysMem} {t u : Frame} {i j : Index}

theorem slot (loses : Loses lost mem mem' t i) (off : u = t → j ≠ i) : mem' u j = mem u j := by
  by_cases here : lost
  · rw [loses.cleared here, PhysMem.set_slot _ _ off]
  · rw [loses.kept here]

theorem frame (loses : Loses lost mem mem' t i) (off : u ≠ t) : mem' u = mem u :=
  funext fun _ => loses.slot fun eq => absurd eq off

/-- The row is empty if it lost its entry and had no other. -/
theorem empty (loses : Loses lost mem mem' t i) (used : mem t i ≠ 0#64) :
    (∀ j, mem' t j = 0#64) ↔ lost ∧ ∀ j, j ≠ i → mem t j = 0#64 := by
  constructor
  · intro empty
    refine ⟨?_, fun j off => ?_⟩
    · by_contra stays
      rw [loses.kept stays] at empty
      exact used (empty i)
    · rw [← loses.slot fun _ => off]
      exact empty j
  · rintro ⟨here, others⟩ j
    by_cases eq : j = i
    · rw [eq, loses.cleared here, PhysMem.set_same]
    · rw [loses.slot fun _ => eq]
      exact others j eq

end Loses

namespace PageTree

variable {s : Vmm} {mem : PhysMem} {tables : Tables} {path : List Index} {i : Index} {t above : Frame}

/-- A table that is empty is taken out of the table above it. Entries that are not on the way to it
    may have changed. -/
theorem freeTable (tree : PageTree mem s.cr3 tables) (at_path : tables path = some above)
    (at_child : tables (path ++ [i]) = some t) (self : s.mem s.cr3 510 = mem s.cr3 510)
    (same : ∀ q j u, q ++ [j] <+: path ++ [i] → tables q = some u → s.mem u j = mem u j)
    (pml4 : Bool) :
    ∃ s', vmmFreeTable s (windowOf (path ++ [i])) (vmmEntryAt (windowOf path) (i.setWidth 64)) pml4 =
        some s' ∧ s'.cr3 = s.cr3 ∧ Loses (∀ j, s.mem t j = 0#64) s.mem s'.mem above i := by
  have selfMapped : SelfMapped s.mem s.cr3 :=
    ⟨self ▸ tree.self.present, self ▸ tree.self.small, self ▸ tree.self.frame⟩
  have way := tree.follow_congr at_child same
  have way' := tree.follow_congr at_path fun q j u before =>
    same q j u (before.trans (List.prefix_append ..))
  have read (j : Index) : s.read (vmmEntryAt (windowOf (path ++ [i])) (j.setWidth 64)) =
      some (s.mem t j) := selfMapped.read_windowOf (tree.length_le at_child) way j
  have value : s.read (vmmEntryAt (windowOf path) (i.setWidth 64)) = some (s.mem above i) :=
    selfMapped.read_windowOf (tree.length_le at_path) way' i
  have write := selfMapped.write_windowOf (tree.length_le at_path) way' i 0#64
  obtain ⟨free, isFree, empty⟩ := vmmIsTableFree_eq read
  rw [vmmFreeTable, isFree, value, Option.bind_eq_bind, Option.bind_some]
  cases free with
  | false =>
      exact ⟨s, rfl, rfl, fun all => absurd (empty.mpr all) Bool.false_ne_true, fun _ => rfl⟩
  | true =>
      rw [if_pos rfl, Option.bind_eq_bind, Option.bind_some]
      refine ⟨if pml4 then { s with
          pmm := (pmmFree s.pmm (vmmEntryToAddr (s.mem above i)).toNat 1).2
          mem := s.mem.set above i 0#64
          alerts := s.alerts + 1 }
        else { s with
          pmm := (pmmFree s.pmm (vmmEntryToAddr (s.mem above i)).toNat 1).2
          mem := s.mem.set above i 0#64 }, ?_, ?_, fun _ => ?_, fun used => absurd (empty.mp rfl) used⟩
      · simp only [Vmm.write, write, Option.map_some, Option.bind_eq_bind, Option.bind_some]
        cases pml4 <;> rfl
      · cases pml4 <;> rfl
      · cases pml4 <;> rfl

end PageTree

/-- Below the PML4 a table on the way to the entry of `v` has an entry in use that is not on the way. -/
def Shared (mem : PhysMem) (tables : Tables) (v : BitVec 64) : Prop :=
  ∃ path t i, tables path = some t ∧ path ≠ [] ∧ path <+: ptPath v ∧ ¬ path ++ [i] <+: wayTo v ∧
    mem t i ≠ 0#64

namespace PageTree

variable {s : Vmm} {tables : Tables} {v : BitVec 64} {pdpt pd pt : Frame}

theorem not_shared (at_pdpt : tables [hwIndex v 4] = some pdpt)
    (at_pd : tables [hwIndex v 4, hwIndex v 3] = some pd) (at_pt : tables (ptPath v) = some pt) :
    ¬Shared s.mem tables v ↔ ((True ∧ ∀ j, j ≠ hwIndex v 1 → s.mem pt j = 0#64) ∧
      ∀ j, j ≠ hwIndex v 2 → s.mem pd j = 0#64) ∧ ∀ j, j ≠ hwIndex v 3 → s.mem pdpt j = 0#64 := by
  constructor
  · intro alone
    refine ⟨⟨⟨trivial, fun j off => ?_⟩, fun j off => ?_⟩, fun j off => ?_⟩
    · by_contra used
      refine alone ⟨ptPath v, pt, j, at_pt, by simp [ptPath], List.prefix_refl _, ?_, used⟩
      simpa [wayTo, ptPath] using off
    · by_contra used
      refine alone ⟨_, pd, j, at_pd, by simp, ⟨[_], rfl⟩, ?_, used⟩
      simpa [wayTo, ptPath] using off
    · by_contra used
      refine alone ⟨_, pdpt, j, at_pdpt, by simp, ⟨[_, _], rfl⟩, ?_, used⟩
      simpa [wayTo, ptPath] using off
  · rintro ⟨⟨⟨-, in_pt⟩, in_pd⟩, in_pdpt⟩ ⟨path, t, j, at_path, below, before, off, used⟩
    obtain rfl | rfl | rfl | rfl : path = [] ∨ path = [hwIndex v 4] ∨
        path = [hwIndex v 4, hwIndex v 3] ∨ path = ptPath v := by
      have take := List.prefix_iff_eq_take.mp before
      have short := before.length_le
      simp only [ptPath, List.length_cons, List.length_nil] at short
      obtain len | len | len | len : path.length = 0 ∨ path.length = 1 ∨ path.length = 2 ∨
          path.length = 3 := by omega
      all_goals rw [len] at take; simp [take, ptPath]
    · exact below rfl
    · cases at_pdpt.symm.trans at_path
      exact used (in_pdpt j (by simpa [wayTo, ptPath] using off))
    · cases at_pd.symm.trans at_path
      exact used (in_pd j (by simpa [wayTo, ptPath] using off))
    · cases at_pt.symm.trans at_path
      exact used (in_pt j (by simpa [wayTo, ptPath] using off))

/-- A page is unmapped, and its frame is kept. Above it goes what is empty then. -/
theorem unmapSaved (tree : PageTree s.mem s.cr3 tables) (at_pt : tables (ptPath v) = some pt)
    (used : s.mem pt (hwIndex v 1) ≠ 0#64) :
    ∃ s', vmmUnmap s v vmmAttrSave 1 = some (0, s') ∧ s'.cr3 = s.cr3 ∧
      (∀ t, (∀ path, tables path ≠ some t) → s'.mem t = s.mem t) ∧
      (∀ i, i ≠ hwIndex v 4 → s'.mem s.cr3 i = s.mem s.cr3 i) ∧
      (Shared s.mem tables v → s'.mem s.cr3 (hwIndex v 4) = s.mem s.cr3 (hwIndex v 4)) ∧
      (¬Shared s.mem tables v → s'.mem s.cr3 (hwIndex v 4) = 0#64) := by
  obtain ⟨-, pd, at_pd, pointer₂, -⟩ := (@tree.child [hwIndex v 4, hwIndex v 3] _ _).mp at_pt
  obtain ⟨-, pdpt, at_pdpt, pointer₃, -⟩ := (@tree.child [hwIndex v 4] _ _).mp at_pd
  obtain ⟨branch, root, at_root, pointer₄, -⟩ := (@tree.child [] _ _).mp at_pdpt
  cases tree.root.symm.trans at_root
  have self : (510 : Index) ≠ hwIndex v 4 := (branch.2 rfl).symm
  have apart {p q : List Index} {a u : Frame} (at_p : tables p = some a) (at_q : tables q = some u)
      (other : p.length ≠ q.length) : a ≠ u := fun eq => by
    subst eq
    exact other (congrArg List.length (tree.inj at_p at_q))
  have on_way {m : PhysMem} {way : List Index}
      (same : ∀ q u, tables q = some u → q.length < way.length → m u = s.mem u) (q : List Index)
      (j : Index) (u : Frame) (before : q ++ [j] <+: way) (at_q : tables q = some u) :
      m u j = s.mem u j := by
    have le := before.length_le
    rw [List.length_append, List.length_singleton] at le
    rw [same q u at_q (by omega)]
  -- the entry of the page
  have finds := vmmFinds tree.recursive v
  have leaf := tree.leaf_of_pt at_pt used
  have read : s.read (vmmPtEntry v) = some (s.mem pt (hwIndex v 1)) := (finds.page _ _ leaf).2.1
  rw [hwLeaf] at leaf
  have found : vmmEntryFromVaddr s v = some (some (vmmPtEntry v)) := by
    rw [finds.entry, leaf]
    rfl
  have write := tree.write at_pt (hwIndex v 1) 0#64
  rw [ptPath, ← vmmPtEntry_eq] at write
  have loses₁ : Loses True s.mem (s.mem.set pt (hwIndex v 1) 0#64) pt (hwIndex v 1) :=
    ⟨fun _ => rfl, fun no => absurd trivial no⟩
  -- a write to a table leaves the tables above it as they are
  have same₁ (q : List Index) (u : Frame) (at_q : tables q = some u) (short : q.length < 3) :
      s.mem.set pt (hwIndex v 1) 0#64 u = s.mem u :=
    loses₁.frame (apart at_q at_pt (Nat.ne_of_lt short))
  obtain ⟨s₂, free₁, cr3₂, loses₂⟩ := @freeTable { s with mem := s.mem.set pt (hwIndex v 1) 0#64 }
    s.mem tables [hwIndex v 4, hwIndex v 3] (hwIndex v 2) pt pd tree at_pd at_pt
    (congrFun (same₁ [] s.cr3 tree.root (by decide)) 510) (on_way same₁) false
  have same₂ (q : List Index) (u : Frame) (at_q : tables q = some u) (short : q.length < 2) :
      s₂.mem u = s.mem u :=
    (loses₂.frame (apart at_q at_pd (Nat.ne_of_lt short))).trans (same₁ q u at_q (by omega))
  have tree₂ : PageTree s.mem s₂.cr3 tables := by rwa [cr3₂]
  obtain ⟨s₃, free₂, cr3₃, loses₃⟩ := @freeTable s₂ s.mem tables [hwIndex v 4] (hwIndex v 3) pd pdpt
    tree₂ at_pdpt at_pd (congrFun (same₂ [] _ tree₂.root (by decide)) 510) (on_way same₂) false
  have same₃ (q : List Index) (u : Frame) (at_q : tables q = some u) (short : q.length < 1) :
      s₃.mem u = s.mem u :=
    (loses₃.frame (apart at_q at_pdpt (Nat.ne_of_lt short))).trans (same₂ q u at_q (by omega))
  have tree₃ : PageTree s.mem s₃.cr3 tables := by rwa [cr3₃]
  obtain ⟨s₄, free₃, cr3₄, loses₄⟩ := @freeTable s₃ s.mem tables [] (hwIndex v 4) pdpt s₃.cr3
    tree₃ tree₃.root at_pdpt (congrFun (same₃ [] _ tree₃.root (by decide)) 510) (on_way same₃) true
  have cr3 : s₃.cr3 = s.cr3 := cr3₃.trans cr3₂
  rw [cr3] at loses₄
  -- what is empty
  have empty₁ := loses₁.empty used
  have pd_used : s.mem.set pt (hwIndex v 1) 0#64 pd (hwIndex v 2) ≠ 0#64 := by
    rw [same₁ _ pd at_pd (by simp)]
    exact pointer₂.ne_zero
  have pdpt_used : s₂.mem pdpt (hwIndex v 3) ≠ 0#64 := by
    rw [same₂ _ pdpt at_pdpt (by simp)]
    exact pointer₃.ne_zero
  have empty₂ := loses₂.empty pd_used
  have empty₃ := loses₃.empty pdpt_used
  simp only [same₁ _ pd at_pd (by simp), empty₁] at empty₂
  simp only [same₂ _ pdpt at_pdpt (by simp), empty₂] at empty₃
  rw [← not_shared at_pdpt at_pd at_pt] at empty₃
  have root := same₃ [] s.cr3 tree.root (by decide)
  refine ⟨s₄, ?_, cr3₄.trans cr3, fun t off => ?_, fun i off => ?_, fun shared => ?_, fun alone => ?_⟩
  · have save : vmmFreePage s.pmm (s.mem pt (hwIndex v 1)) vmmAttrSave = (0, s.pmm) :=
      if_neg fun free => absurd free.2 (by decide)
    have tables' : vmmFreeTables { s with mem := s.mem.set pt (hwIndex v 1) 0#64 } v = some s₄ := by
      simp only [List.nil_append, List.cons_append] at free₁ free₂ free₃
      rw [vmmFreeTables, vmmPtVaddr_eq, vmmPdEntry_eq, vmmPdVaddr_eq, vmmPdptEntry_eq, vmmPdptVaddr_eq,
        vmmPml4Entry_eq, free₁, Option.bind_eq_bind, Option.bind_some, free₂, Option.bind_some, free₃]
    have page : vmmUnmapPage s v vmmAttrSave = some (0, s₄) := by
      rw [vmmUnmapPage, found, Option.bind_eq_bind, Option.bind_some]
      simp only [read, save, Vmm.write, write, tables', Option.bind_eq_bind, Option.bind_some,
        Option.map_some, ne_eq, not_true_eq_false, if_false]
    rw [vmmUnmap, page]
    rfl
  · exact (((loses₄.frame fun eq => off _ (eq ▸ tree.root)).trans
      (loses₃.frame fun eq => off _ (eq ▸ at_pdpt))).trans
      (loses₂.frame fun eq => off _ (eq ▸ at_pd))).trans (loses₁.frame fun eq => off _ (eq ▸ at_pt))
  · rw [loses₄.slot fun _ => off, root]
  · rw [loses₄.kept (mt empty₃.mp (not_not.mpr shared)), root]
  · rw [loses₄.cleared (empty₃.mpr alone), PhysMem.set_same]

end PageTree

/-! ## The synced PML4 -/

/-- What `vmm_sync` is called with: the PML4 in frame `f`, which is no table of the loaded tree and
    which `pmm_alloc` does not hand out. The first page of the kernel's VMA that is not mapped is `k`,
    below the window, and `pmm_alloc` has a frame for each table that is missing above it. -/
structure SyncRequest (boot : BootInfo) (s : Vmm) (tables : Tables) (f : Frame) (k : Nat) : Prop where
  tree : PageTree s.mem s.cr3 tables
  other : ∀ path, tables path ≠ some f
  owned : ∀ frames, HandsOut boot s.pmm frames → f ∉ frames
  first : IsLeast {k | vmmEntryFromVaddr s (pageAfter vmmVmaKernelStart k) = some none} k
  room : InVma vmmAttrSave (pageAfter vmmVmaKernelStart k) 1
  supply : ∃ frames, Supply boot s.pmm tables frames ∧
    (missingTables tables (pageAfter vmmVmaKernelStart k) 1).card ≤ frames.length

/-- The PML4 in frame `f` has an empty lower half and the upper half of the one that is loaded. -/
structure Synced (s : Vmm) (f : Frame) : Prop where
  user : ∀ i : Index, i.toNat < 256 → s.mem f i = 0#64
  self : hwPointer (s.mem f 510) ∧ hwFrame (s.mem f 510) = f
  kernel : ∀ i : Index, 256 ≤ i.toNat → i ≠ 510 → s.mem f i = s.mem s.cr3 i

section

variable {s s' : Vmm} {tables : Tables} {f : Frame} {k fuel : Nat}

/-- The search for the temporary page finds page `k`. -/
theorem SyncRequest.finds (request : SyncRequest boot s tables f k)
    (done : vmmSync boot fuel s (BitVec.ofNat 64 (f.toNat * pageSize)) = some (0, s')) :
    vmmFindContiguous s fuel 1 0 vmmAttrSave = some (pageAfter vmmVmaKernelStart k) := by
  obtain ⟨⟨pml4, s₁⟩, map, done⟩ := Option.bind_eq_some_iff.mp done
  obtain ⟨vaddr, find, map⟩ := Option.bind_eq_some_iff.mp map
  have found : vaddr ≠ 0#64 := by
    rintro rfl
    rw [if_pos rfl] at map
    cases map
    cases done
  obtain ⟨k', at_k', vacant, least⟩ := vmmFindContiguous_first find (by decide) found
  have start : vmmFindStart vmmAttrSave = vmmVmaKernelStart := by decide
  rw [start] at at_k' least
  have here := vacant.2 0 (by decide)
  rw [pageAfter_zero, at_k'] at here
  have le := request.first.2 here
  have ge := least k ⟨.inl rfl, fun j lt => by
    obtain rfl : j = 0 := by omega
    rw [pageAfter_zero]
    exact request.first.1⟩
  obtain rfl : k' = k := by omega
  rw [find, at_k']

/-- The temporary page is mapped. -/
theorem SyncRequest.mapped (request : SyncRequest boot s tables f k)
    (find : vmmFindContiguous s fuel 1 0 vmmAttrSave = some (pageAfter vmmVmaKernelStart k)) :
    ∃ s₁ tables', vmmMapPaddr boot s fuel (BitVec.ofNat 64 (f.toNat * pageSize)) 1 vmmAttrSave =
        some (pageAfter vmmVmaKernelStart k, s₁) ∧ PageTree s₁.mem s₁.cr3 tables' ∧
      (∃ pt, tables' (ptPath (pageAfter vmmVmaKernelStart k)) = some pt ∧
        s₁.mem pt (hwIndex (pageAfter vmmVmaKernelStart k) 1) =
          BitVec.ofNat 64 (f.toNat * pageSize) ||| vmmAttrToFlags vmmAttrSave false) ∧
      Edits boot (wayTo (pageAfter vmmVmaKernelStart k)) s s₁ tables tables' := by
  have here := request.first.1
  rw [Set.mem_ofPred_eq] at here
  have room := request.room
  have supply := request.supply
  generalize pageAfter vmmVmaKernelStart k = vaddr at *
  have small (j : Nat) (lt : j < 1) (entry : BitVec 64) :
      hwLeaf s.mem s.cr3 (pageAfter vaddr j) ≠ some (2, entry) := by
    obtain rfl : j = 0 := by omega
    rw [pageAfter_zero]
    intro leaf
    have found := (vmmFinds request.tree.recursive vaddr).entry
    rw [hwLeaf] at leaf
    rw [here, leaf] at found
    cases found
  obtain ⟨s₁, tables', page, filled, -, at_pt, edits, -⟩ :=
    (request.tree.filling supply small).mapPage (BitVec.ofNat 64 (f.toNat * pageSize)) vmmAttrSave
      (by decide : 0 < 1) (room.slot (by decide))
  rw [pageAfter_zero] at page at_pt edits
  refine ⟨s₁, tables', ?_, filled.tree, at_pt, edits⟩
  have not_null : vaddr ≠ 0#64 := by
    rintro rfl
    exact absurd room.bounds.1 (by decide)
  have aligned : (BitVec.ofNat 64 (f.toNat * pageSize)).toNat % pageSize = 0 := by
    rw [BitVec.toNat_ofNat, pageSize]
    omega
  rw [vmmMapPaddr, find, Option.bind_eq_bind, Option.bind_some, if_neg not_null,
    if_neg (not_not.mpr aligned), vmmMapToPaddrInternal, vmmMapPages, page]
  rfl

/-- A new table has no entries but those on the way. -/
theorem Edits.shared_iff {v : BitVec 64} {tables' : Tables}
    (edits : Edits boot (wayTo v) s s' tables tables') :
    Shared s'.mem tables' v ↔ Shared s.mem tables v := by
  constructor
  · rintro ⟨path, t, i, at_path, below, before, off, used⟩
    cases old : tables path with
    | none => exact absurd (edits.new old at_path off) used
    | some t' =>
        cases (edits.old old).symm.trans at_path
        rw [edits.kept old off] at used
        exact ⟨path, t, i, old, below, before, off, used⟩
  · rintro ⟨path, t, i, at_path, below, before, off, used⟩
    rw [← edits.kept at_path off] at used
    exact ⟨path, t, i, edits.old at_path, below, before, off, used⟩

theorem Edits.new_tables {way : List Index} {tables' : Tables}
    (edits : Edits boot way s s' tables tables') (request : SyncRequest boot s tables f k)
    (path : List Index) : tables' path ≠ some f := by
  intro at_path
  obtain ⟨frames, hands, -, handed⟩ := edits.handed
  obtain old | new := handed at_path
  · exact request.other path old
  · exact request.owned frames hands new

/-- What is in a frame that is no table does not matter. -/
theorem PageTree.outside {mem mem' : PhysMem} {cr3 : Frame} (tree : PageTree mem cr3 tables)
    (other : ∀ path, tables path ≠ some f) (off : ∀ t, t ≠ f → mem' t = mem t) :
    PageTree mem' cr3 tables := by
  have same {path : List Index} {t : Frame} (at_path : tables path = some t) : mem' t = mem t :=
    off t fun eq => other path (eq ▸ at_path)
  refine tree.update (fun i at_path _ => ?_) fun i at_path _ used => ?_
  · rw [same at_path]
    exact .refl _
  · rw [same at_path] at used ⊢
    exact tree.present at_path used

/-- What `vmm_sync` leaves in the two PML4s. -/
theorem vmmSync_rows (request : SyncRequest boot s tables f k)
    (find : vmmFindContiguous s fuel 1 0 vmmAttrSave = some (pageAfter vmmVmaKernelStart k)) :
    ∃ s' row, vmmSync boot fuel s (BitVec.ofNat 64 (f.toNat * pageSize)) = some (0, s') ∧
      s'.mem f = vmmSyncRow row (s.mem f) (BitVec.ofNat 64 (f.toNat * pageSize)) ∧
      (∀ i, i ≠ hwIndex (pageAfter vmmVmaKernelStart k) 4 → s'.mem s'.cr3 i = row i) ∧
      row (hwIndex (pageAfter vmmVmaKernelStart k) 4) ≠ 0#64 ∧
      (Shared s.mem tables (pageAfter vmmVmaKernelStart k) →
        s'.mem s'.cr3 (hwIndex (pageAfter vmmVmaKernelStart k) 4) =
          row (hwIndex (pageAfter vmmVmaKernelStart k) 4)) ∧
      (¬Shared s.mem tables (pageAfter vmmVmaKernelStart k) →
        s'.mem s'.cr3 (hwIndex (pageAfter vmmVmaKernelStart k) 4) = 0#64) := by
  obtain ⟨s₁, tables', map, tree, ⟨pt, at_pt, entry⟩, edits⟩ := request.mapped find
  generalize page : pageAfter vmmVmaKernelStart k = v at *
  have apart := edits.new_tables request
  -- the tables of the temporary page, and its frame
  obtain ⟨-, pd, at_pd, pointer₂, frame₂⟩ := (@tree.child [hwIndex v 4, hwIndex v 3] _ _).mp at_pt
  obtain ⟨-, pdpt, at_pdpt, pointer₃, frame₃⟩ := (@tree.child [hwIndex v 4] _ _).mp at_pd
  obtain ⟨-, root, at_root, pointer₄, frame₄⟩ := (@tree.child [] _ _).mp at_pdpt
  cases tree.root.symm.trans at_root
  have room := request.room
  rw [page, InVma, if_neg (by decide)] at room
  have aligned : 4096 ∣ v.toNat := by
    rw [← page, pageAfter, BitVec.toNat_add, BitVec.toNat_ofNat,
      show vmmVmaKernelStart.toNat = 0xffff800000000000 from rfl]
    omega
  obtain ⟨clear, present, -⟩ := vmmAttrToFlags_page vmmAttrSave
  have frame : hwFrame (s₁.mem pt (hwIndex v 1)) = f := by
    rw [entry, hwFrame_page clear, pageSize, Nat.mul_div_cancel _ (by decide), BitVec.ofNat_toNat,
      BitVec.setWidth_eq]
  have here : hwPresent (s₁.mem pt (hwIndex v 1)) = true := by
    rw [entry]
    simp only [hwPresent] at present
    rw [hwPresent, BitVec.getLsbD_or, present, Bool.or_true]
  have off {path : List Index} {t : Frame} (at_path : tables' path = some t) : f ≠ t :=
    fun eq => apart path (eq ▸ at_path)
  have at_page : PageAt s₁.mem s₁.cr3 v f := .of_tables
    ⟨tree.self, ⟨pointer₄, frame₄⟩, ⟨pointer₃, frame₃⟩, ⟨pointer₂, frame₂⟩⟩ aligned room.1
    ⟨here, frame⟩ ⟨off tree.root, off at_pdpt, off at_pd, off at_pt⟩
  have sync := @vmmSyncPml4_eq _ (BitVec.ofNat 64 (f.toNat * pageSize)) _ _ at_page tree.self
    (off tree.root)
  -- the page is unmapped
  have synced : PageTree (s₁.mem.synced s₁.cr3 f (BitVec.ofNat 64 (f.toNat * pageSize))) s₁.cr3 tables' :=
    tree.outside apart fun t => PhysMem.synced_frame
  have same {t : Frame} (other : t ≠ f) : s₁.mem.synced s₁.cr3 f
      (BitVec.ofNat 64 (f.toNat * pageSize)) t = s₁.mem t := PhysMem.synced_frame other
  have shared : Shared (s₁.mem.synced s₁.cr3 f (BitVec.ofNat 64 (f.toNat * pageSize))) tables' v ↔
      Shared s.mem tables v := by
    rw [← edits.shared_iff]
    refine exists_congr fun path => exists_congr fun t => exists_congr fun i =>
      and_congr_right fun at_path => ?_
    rw [same (off at_path).symm]
  have in_use :
      s₁.mem.synced s₁.cr3 f (BitVec.ofNat 64 (f.toNat * pageSize)) pt (hwIndex v 1) ≠ 0#64 := by
    rw [same (off at_pt).symm]
    intro zero
    rw [zero] at here
    cases here
  obtain ⟨s₃, unmapped, cr3, outside, others, stays, goes⟩ := @PageTree.unmapSaved
    { s₁ with mem := s₁.mem.synced s₁.cr3 f (BitVec.ofNat 64 (f.toNat * pageSize)) } tables' v pt synced
    at_pt in_use
  have root := same (off tree.root).symm
  rw [shared] at stays goes
  dsimp only at cr3 outside others stays goes
  rw [root] at others stays
  refine ⟨s₃, s₁.mem s₁.cr3, ?_, ?_, fun i off' => ?_, pointer₄.ne_zero, fun yes => ?_, fun no => ?_⟩
  · have not_null : v ≠ 0#64 := by
      rintro rfl
      exact absurd room.1 (by decide)
    rw [vmmSync, map, Option.bind_eq_bind, Option.bind_some]
    dsimp only
    rw [if_neg not_null, sync, Option.bind_eq_bind, Option.bind_some, unmapped]
  · rw [outside f apart, PhysMem.synced, Function.update_self, edits.outside apart]
  · rw [cr3, others i off']
  · rw [cr3, stays yes]
  · rw [cr3, goes no]

/-- A synced PML4 has an empty lower half and the loaded upper half exactly if its entry 255 was empty
    and there is something else below the entry above the temporary page. -/
theorem vmmSync_synced_iff (request : SyncRequest boot s tables f k)
    (done : vmmSync boot fuel s (BitVec.ofNat 64 (f.toNat * pageSize)) = some (0, s')) :
    Synced s' f ↔
      s.mem f 255 = 0#64 ∧ Shared s.mem tables (pageAfter vmmVmaKernelStart k) := by
  obtain ⟨s'', row, done', at_f, others, used, stays, goes⟩ := vmmSync_rows request (request.finds done)
  cases done.symm.trans done'
  have room := request.room
  generalize pageAfter vmmVmaKernelStart k = v at *
  rw [InVma, if_neg (by decide)] at room
  have high : 256 ≤ (hwIndex v 4).toNat := by
    rw [hwIndex_toNat]
    omega
  have slot : hwIndex v 4 ≠ 510 := by
    intro eq
    have value := congrArg BitVec.toNat eq
    rw [hwIndex_toNat, show (510 : Index).toNat = 510 from rfl] at value
    omega
  have kernel (i : Index) (ge : 256 ≤ i.toNat) (off : i ≠ 510) : s'.mem f i = row i := by
    rw [at_f, vmmSyncRow, if_neg off, if_pos ge]
  constructor
  · intro synced
    constructor
    · have last := synced.user 255 (by decide)
      rwa [at_f, vmmSyncRow, if_neg (by decide), if_neg (by decide), if_neg (by decide)] at last
    · by_contra alone
      have same := synced.kernel (hwIndex v 4) high slot
      rw [kernel _ high slot, goes alone] at same
      exact used same
  · rintro ⟨last, shared⟩
    refine ⟨fun i user => ?_, ?_, fun i ge off => ?_⟩
    · have off : i ≠ 510 := by
        rintro rfl
        exact absurd user (by decide)
      rw [at_f, vmmSyncRow, if_neg off, if_neg (by omega)]
      split
      · rfl
      · next end' =>
          have is : i = 255 := by
            apply BitVec.eq_of_toNat_eq
            rw [show (255 : Index).toNat = 255 from rfl]
            omega
          rw [is, last]
    · have flags : pteFlagsDefault &&& 7#64 = pteFlagsDefault := by decide
      rw [at_f, vmmSyncRow, if_pos rfl]
      refine ⟨hwPointer_table (Nat.dvd_mul_left 4096 f.toNat) flags (by decide), ?_⟩
      rw [hwFrame_page (tableFlags_clear flags), pageSize, Nat.mul_div_cancel _ (by decide),
        BitVec.ofNat_toNat, BitVec.setWidth_eq]
    · rw [kernel i ge off]
      by_cases here : i = hwIndex v 4
      · rw [here, stays shared]
      · rw [others i here]

/-- `pmm_alloc` does not hand out a page that is allocated. -/
theorem allocated_not_handed {p : Pmm} {j : Nat} {g : Frame} (ready : p.bmIsReady)
    (start_lt : p.regFree.start < 2 ^ 64) (fits : p.covered ≤ 2 ^ 52) (inside : j < p.covered)
    (bit : p.bitAt j = true) (page : g.toNat * pageSize = p.pageAt j) (nonzero : g ≠ 0)
    {frames : List Frame} (hands : HandsOut boot p frames) : g ∉ frames := by
  induction frames generalizing p with
  | nil => exact List.not_mem_nil
  | cons h frames ih =>
      obtain ⟨first, rest⟩ := hands
      obtain none | ⟨i, bm, alloc, available, bits⟩ := pmmAlloc_bm boot 0 ready start_lt fits (by omega)
        (by decide : 0 < 1)
      · rw [none] at first rest
        rw [List.mem_cons, not_or]
        refine ⟨?_, ih (p := p.fail) ready start_lt fits inside bit page rest⟩
        rintro rfl
        refine nonzero (BitVec.eq_of_toNat_eq ?_)
        rw [pageSize] at first
        rw [show (0 : Frame).toNat = 0 from rfl]
        omega
      · rw [alloc] at first rest
        have other : i ≠ j := by
          rintro rfl
          have clear := (available i (Nat.le_refl i) (by omega)).2.1
          rw [bit] at clear
          cases clear
        rw [List.mem_cons, not_or]
        refine ⟨?_, ih (p := { p with bm := bm }) ready start_lt fits inside ?_ page rest⟩
        · rintro rfl
          have below := (available i (Nat.le_refl i) (by omega)).1
          have same : p.pageAt i = p.pageAt j := first.trans page
          exact other (Pmm.pageAt_inj (by omega) (by omega) same)
        · rw [bits, bit, Bool.true_or]

end

/-! ### A PML4 that was used before -/

/-- The memory with one page in the lower half, and the first page of the PMM allocated for a PML4. Its
    entry 255 is not empty. -/
def staleVmm : Vmm :=
  ⟨(onePage 0x5003).set 0x10 255 0x6003, 1, ⟨⟨0x10000, 0x50000, 0x10000⟩, fun _ => 1, true, 8, 0⟩, 0⟩

theorem staleVmm_request : SyncRequest freeBoot staleVmm onePageTables 0x10 0 where
  tree := by
    have tree : PageTree (onePage 0x5003) 1 onePageTables := onePage_tree (by decide)
    exact tree.outside (fun path at_path => absurd (Chain.low at_path) (by decide))
      fun t off => PhysMem.set_frame _ _ off
  other path at_path := absurd (Chain.low at_path) (by decide)
  owned frames hands := @allocated_not_handed freeBoot staleVmm.pmm 0 0x10 rfl (by decide) (by decide)
    (by decide) (by decide) (by decide) (by decide) frames hands
  first := by
    have unmapped : vmmEntryFromVaddr staleVmm (pageAfter vmmVmaKernelStart 0) = some none := by
      decide
    exact ⟨unmapped, fun _ _ => Nat.zero_le _⟩
  room := by
    rw [InVma, if_neg (by decide)]
    decide
  supply := by
    refine ⟨[17, 18, 19], ⟨⟨by decide, by decide, by decide, trivial⟩, by decide,
      fun g here => onePageTables_fresh ?_⟩, by decide⟩
    simp only [List.mem_cons, List.not_mem_nil, or_false] at here
    obtain rfl | rfl | rfl := here <;> decide

theorem staleVmm_find : vmmFindContiguous staleVmm 8 1 0 vmmAttrSave =
    some (pageAfter vmmVmaKernelStart 0) := by
  decide

/-- The entry stays, and with it what is below. -/
theorem vmmSync_not_synced : SyncRequest freeBoot staleVmm onePageTables 0x10 0 ∧
    ∃ s', vmmSync freeBoot 8 staleVmm 0x10000 = some (0, s') ∧ s'.mem 0x10 255 = 0x6003 ∧
      ¬Synced s' 0x10 := by
  obtain ⟨s', row, done, at_f, -⟩ := vmmSync_rows staleVmm_request staleVmm_find
  have last : s'.mem 0x10 255 = 0x6003 := by
    rw [at_f]
    rfl
  refine ⟨staleVmm_request, s', done, last, fun synced => ?_⟩
  have empty := synced.user 255 (by decide)
  rw [last] at empty
  exact absurd empty (by decide)

theorem vmmSync_synced_iff_stale : ∃ s', vmmSync freeBoot 8 staleVmm 0x10000 = some (0, s') ∧
    (Synced s' 0x10 ↔ staleVmm.mem 0x10 255 = 0#64 ∧
      Shared staleVmm.mem onePageTables (pageAfter vmmVmaKernelStart 0)) := by
  obtain ⟨s', row, done, -⟩ := vmmSync_rows staleVmm_request staleVmm_find
  exact ⟨s', done, vmmSync_synced_iff staleVmm_request done⟩

end Sdx.Mm
