import Sdx.Fs.VfsMount

/-! # Unmounting all or nothing (`fs/vfs/vfs.c`)

`vfs_umount` switches the node back first and puts it then, twice, and the second put says whether
the unmount worked. Where somebody else still uses the node it fails with the mount already gone,
and where the node is no mount point it fails with the reference of its own lookup left behind.
Only a mount point without cached children and with no reference but the mount's goes cleanly.
-/

namespace Sdx.Fs

open Sdx.Lib

/-- The nodes that `vfs_root` leads to. -/
inductive Vfs.Reach (v : Vfs) : NodeId → Prop where
  | root {r} : v.root = some r → v.Reach r
  | child {p c node} : v.Reach p → v.nodes p = some node → c ∈ node.children → v.Reach c

/-- The file system is at no node but `n`, neither in use nor mounted on. -/
def Vfs.FreeOf (v : Vfs) (fs : FsId) (n : NodeId) : Prop :=
  ∀ m node, v.Reach m → m ≠ n → v.nodes m = some node → node.fs ≠ fs ∧ node.mountFs ≠ some fs

/-- What a call of `vfs_umount` promises: if it fails the node at the path is as it was, and so are
    all counts; if it succeeds the file system is at no node any more. -/
def UnmountAllOrNothing (env : VfsEnv) (v : Vfs) (path : Name) : Prop :=
  ∃ err v', Returns (fun fuel => vfsUmount env fuel v path) (err, v') ∧
    (err ≠ 0 → (∀ m, v'.refs m = v.refs m) ∧
      ∀ n v₁ node, Returns (fun fuel => vfsFind env fuel v path) (some n, v₁) →
        v₁.nodes n = some node → ∃ new, v'.nodes n = some new ∧ SameMount node new) ∧
    (err = 0 → ∀ n v₁ node, Returns (fun fuel => vfsFind env fuel v path) (some n, v₁) →
      v₁.nodes n = some node →
        ∀ m new, v'.Reach m → v'.nodes m = some new → new.fs ≠ node.fs ∧ new.mountFs ≠ some node.fs)

/-- The lookup has found nothing and left no reference, or it has found a mount point without
    cached children whose two references are its own and the mount's. -/
def LookupClean (env : VfsEnv) (v : Vfs) (path : Name) : Option NodeId × Vfs → Prop
  | (none, _) => Returns (fun fuel => some (vfsFindLeaks env fuel v path)) false
  | (some n, v₁) => ∃ node, v₁.nodes n = some node ∧ vfsNodeIsFsRoot v₁ node ∧
      node.mountFs ≠ none ∧ node.children = [] ∧ node.refCount = 2 ∧ v₁.FreeOf node.fs n

def UnmountClean (env : VfsEnv) (v : Vfs) (path : Name) : Prop :=
  ∃ r, Returns (fun fuel => vfsFind env fuel v path) r ∧ LookupClean env v path r

section

variable {env : VfsEnv} {v v' v₁ w : Vfs} {depth : NodeId → Nat} {path name : Name} {fs : FsId}
  {n cur c : NodeId} {node : VfsNode} {result : Option NodeId} {steps fuel : Nat} {err : Int}

/-! ## The lookup returns -/

theorem Vfs.Covers.reach (covers : v.Covers w) (reach : v.Reach n) : w.Reach n := by
  induction reach with
  | root root => exact .root (covers.root.trans root)
  | child _ parent mem ih =>
      obtain ⟨now, here, -, -, children⟩ := covers.nodes _ _ parent
      exact .child ih here (children _ mem)

theorem Vfs.Reach.up (reach : v.Reach n) (sound : v.Sound depth) (here : v.nodes n = some node) :
    v.Reach (node.parent.getD n) := by
  cases reach with
  | root root =>
      rw [sound.top n node root here]
      exact .root root
  | child above parent mem =>
      obtain ⟨child, at_c, up⟩ := sound.tree.child _ _ parent n mem
      rw [here] at at_c
      cases at_c
      rw [up]
      exact above

/-- A lookup ends. What it finds is in a sound tree, or a node that it made. -/
structure Lands (lookup : Nat → Option (Option NodeId × Vfs)) (result : Option NodeId) (v₁ : Vfs) :
    Prop where
  returns : Returns lookup (result, v₁)
  found : ∀ n, result = some n → ∃ node, v₁.nodes n = some node ∧
    (node.mountFs = none ∨ (∃ depth, v₁.Sound depth) ∧ v₁.Reach n)

theorem Lands.congr {lookup lookup' : Nat → Option (Option NodeId × Vfs)}
    (eq : ∀ fuel, lookup fuel = lookup' fuel) (lands : Lands lookup' result v₁) :
    Lands lookup result v₁ := ⟨.congr eq lands.returns, lands.found⟩

theorem Lands.stop (sound : v.Sound depth) (reach : v.Reach cur) (there : (v.nodes cur).isSome) :
    Lands (fun _ => some (some cur, v)) (some cur) v := by
  refine ⟨.const _, fun n is => ?_⟩
  cases is
  obtain ⟨node, here⟩ := Option.isSome_iff_exists.mp there
  exact ⟨node, here, .inr ⟨⟨depth, sound⟩, reach⟩⟩

theorem Lands.none {lookup : Nat → Option (Option NodeId × Vfs)} (ends : Returns lookup (none, v)) :
    Lands lookup none v := by
  refine ⟨ends, fun n is => ?_⟩
  cases is

/-- A put of a node whose first child is held only drops a reference. -/
theorem vfsNodePut_first_held {child : VfsNode} (here : v.nodes cur = some node)
    (first : node.children.head? = some c) (off : c ≠ cur) (at_c : v.nodes c = some child)
    (held : child.refCount ≠ 0) :
    Returns (fun fuel => vfsNodePut v fuel (some cur)) (-eBUSY, vfsNodeDrop v cur) := by
  have dropped : (vfsNodeDrop v cur).nodes cur =
      some { node with refCount := node.refCount - 1 } := by
    simp [vfsNodeDrop, here]
  have kept : (vfsNodeDrop v cur).nodes c = some child := by
    simp [vfsNodeDrop, off, at_c]
  obtain ⟨rest, split⟩ := List.head?_eq_some_iff.mp first
  refine ⟨2, fun fuel le => ?_⟩
  obtain ⟨fuel, rfl⟩ := Nat.exists_eq_add_of_le' le
  simp only [vfsNodePut, dropped]
  split
  · rfl
  · simp [split, vfsNodesDeleteable, kept, held]

/-- Behind one step down the put of the node above only drops a reference. The tree is sound
    again, unless the name was too long: then the node is new. -/
theorem vfsNodeGet_lands (sound : v.Sound depth) (reach : v.Reach cur)
    (there : (v.nodes cur).isSome) (get : vfsNodeGet env v cur name = (some c, v₁)) :
    (∃ err, Returns (fun fuel => vfsNodePut v₁ fuel (some cur)) (err, vfsNodeDrop v₁ cur)) ∧
      ∃ child, (vfsNodeDrop v₁ cur).nodes c = some child ∧
        ((∃ depth, (vfsNodeDrop v₁ cur).Sound depth) ∧ (vfsNodeDrop v₁ cur).Reach c ∨
          nameMax < name.length ∧ child.mountFs = none) := by
  obtain ⟨node, here⟩ := Option.isSome_iff_exists.mp there
  by_cases short : name.length ≤ nameMax
  · obtain ⟨depth₁, sound₁, covers, now, at_cur, mem, -⟩ := vfsNodeGet_step sound here short get
    obtain ⟨err, put⟩ := vfsNodePut_left sound get sound₁ (by rw [at_cur]; rfl)
    obtain ⟨child, at_c, -⟩ := sound₁.tree.child cur now at_cur c mem
    have same := Vfs.Recounted.drop v₁ cur
    obtain ⟨count, at_c'⟩ := same.found at_c
    have below : v₁.Reach c := .child (covers.reach reach) at_cur mem
    exact ⟨⟨err, put⟩, _, at_c', .inl ⟨⟨depth₁, sound₁.recounted same⟩, same.covers.reach below⟩⟩
  obtain ⟨c', mem, named, found⟩ | ⟨unnamed, found⟩ := vfsNodeGet_cases here env name
  · -- no child has a name that is too long
    obtain ⟨child, at_c, -⟩ := sound.tree.child cur node here c' mem
    rw [Vfs.nameOf, at_c] at named
    cases named
    exact absurd (sound.fits c' child at_c) short
  rw [found] at get
  cases new : vfsNodeNew env v cur node name with
  | mk made v' =>
      rw [new] at get
      cases made with
      | none => cases get
      | some c' =>
          cases get
          obtain ⟨inode, -, gone, rfl⟩ := vfsNodeNew_some new
          have off : c ≠ cur := by
            rintro rfl
            rw [gone] at here
            cases here
          generalize made_eq : ({ (default : VfsNode) with
            fs := node.fs, inode := inode, name := name.take nameMax, parent := some cur } :
              VfsNode) = made
          have at_c := @vfsNodeAttach_new _ _ _ _ made here gone
          have at_cur : (vfsNodeAttach v cur c made).nodes cur =
              some { node with children := c :: node.children } := by
            rw [vfsNodeAttach_nodes here gone, if_neg off.symm, if_pos rfl]
          have held : (vfsNodeHold (some c, vfsNodeAttach v cur c made)).2.nodes c =
              some { made with refCount := made.refCount + 1 } := by
            simp [vfsNodeHold, at_c]
          have at_cur' : (vfsNodeHold (some c, vfsNodeAttach v cur c made)).2.nodes cur =
              some { node with children := c :: node.children } := by
            simp [vfsNodeHold, off.symm, at_cur]
          have put := vfsNodePut_first_held at_cur' rfl off held (Nat.succ_ne_zero _)
          refine ⟨⟨_, put⟩, { made with refCount := made.refCount + 1 }, ?_, .inr ⟨by omega, ?_⟩⟩
          · rw [vfsNodeDrop, Vfs.setNode_nodes_other off]
            exact held
          · rw [← made_eq]
            rfl

theorem vfsPathNext_shorter {rest : Name} {i : Nat}
    (next : vfsPathNext path i = some (name, rest)) : rest.length ≤ path.length - 1 := by
  induction path generalizing i name with
  | nil =>
      cases next
      exact Nat.zero_le _
  | cons d path ih =>
      simp only [vfsPathNext] at next
      split at next
      · cases next
      split at next
      · cases next
        exact Nat.le_refl _
      · obtain ⟨⟨name', rest'⟩, below, eq⟩ := Option.map_eq_some_iff.mp next
        cases eq
        have := ih below
        rw [List.length_cons]
        omega

/-- A name that is too long and still read is the last one. -/
theorem vfsPathNext_long {rest : Name} (next : vfsPathNext path 0 = some (name, rest))
    (long : nameMax < name.length) : rest = [] := by
  obtain ⟨split, length⟩ := vfsPathNext_some next (Nat.zero_le _)
  cases length with
  | inl short => omega
  | inr last =>
      cases split with
      | inl more =>
          rw [last.1] at more
          exact absurd (List.cons.inj more).2.symm (List.splitOn_ne_nil '/' rest)
      | inr ended => exact ended.2

theorem vfsFindLoop_lands (env : VfsEnv) (sound : v.Sound depth) (reach : v.Reach cur)
    (there : (v.nodes cur).isSome) (enough : path.length ≤ steps) :
    ∃ result v₁, Lands (fun fuel => vfsFindLoop env fuel steps v cur path) result v₁ := by
  induction steps generalizing v depth cur path with
  | zero => exact ⟨_, _, .congr (fun _ => rfl) (.stop sound reach there)⟩
  | succ steps ih =>
      by_cases ended : path = []
      · subst ended
        exact ⟨_, _, .congr (fun _ => vfsFindLoop_nil) (.stop sound reach there)⟩
      cases next : vfsPathNext path 0 with
      | none => exact ⟨none, v, .congr (fun _ => vfsFindLoop_long ended next) (.none (.const _))⟩
      | some read =>
          obtain ⟨name, rest⟩ := read
          have shorter : rest.length ≤ steps := by
            have less := vfsPathNext_shorter next
            omega
          by_cases skip : name = [] ∨ name = ['.']
          · obtain ⟨result, v₁, lands⟩ := ih sound reach there shorter
            exact ⟨result, v₁, .congr (fun _ => vfsFindLoop_skip ended next skip) lands⟩
          by_cases dots : name = ['.', '.']
          · subst dots
            obtain ⟨node, here⟩ := Option.isSome_iff_exists.mp there
            obtain ⟨result, v₁, lands⟩ :=
              ih sound (reach.up sound here) (sound.tree.up here) shorter
            exact ⟨result, v₁, .congr (fun _ => vfsFindLoop_up ended next here) lands⟩
          cases get : vfsNodeGet env v cur name with
          | mk found v₁ =>
              cases found with
              | none =>
                  obtain ⟨v₂, returns⟩ := vfsFindLoop_missing sound there ended next skip dots get
                  exact ⟨none, v₂, .none returns⟩
              | some c =>
                  have step := fun fuel : Nat =>
                    @vfsFindLoop_get env v cur fuel steps _ _ _ ended next skip dots
                  rw [get] at step
                  obtain ⟨⟨err, put⟩, child, at_c, landed⟩ := vfsNodeGet_lands sound reach there get
                  cases landed with
                  | inl sound' =>
                      obtain ⟨⟨depth', sound'⟩, below⟩ := sound'
                      obtain ⟨result, v₂, lands⟩ := ih sound' below (by rw [at_c]; rfl) shorter
                      exact ⟨result, v₂, .congr step (put.bind lands.returns), lands.found⟩
                  | inr long =>
                      -- a name that is too long is the last one
                      obtain rfl := vfsPathNext_long next long.1
                      have ends : ∀ fuel, vfsFindLoop env fuel steps (vfsNodeDrop v₁ cur) c [] =
                          some (some c, vfsNodeDrop v₁ cur) := by
                        intro fuel
                        cases steps <;> simp [vfsFindLoop]
                      refine ⟨some c, vfsNodeDrop v₁ cur,
                        .congr step (put.bind (.congr ends (.const _))), fun n is => ?_⟩
                      cases is
                      exact ⟨child, at_c, .inl long.2⟩

theorem vfsFind_lands (env : VfsEnv) (sound : v.Sound depth) (path : Name) :
    ∃ result v₁, Lands (fun fuel => vfsFind env fuel v path) result v₁ := by
  unfold vfsFind
  split
  · next path =>
      cases root : v.root with
      | none =>
          refine ⟨none, v, .congr (fun _ => ?_) (.none (.const _))⟩
          simp only [vfsNodeGetRoot, root, vfsNodeHold]
      | some r =>
          have same := Vfs.Recounted.hold v r
          obtain ⟨result, v₁, lands⟩ := vfsFindLoop_lands env (sound.recounted same)
            (same.covers.reach (.root root)) (same.isSome (sound.tree.root r root))
            (Nat.le_refl path.length)
          refine ⟨result, v₁, .congr (fun _ => ?_) lands⟩
          simp only [vfsNodeGetRoot, root, vfsNodeHold]
  · exact ⟨none, v, .none (.const _)⟩

/-! ## The two puts -/

/-- A put returns 0 only when it has deleted the node. -/
theorem vfsNodePut_zero (done : vfsNodePut v fuel (some n) = some (0, v')) : v'.nodes n = none := by
  cases fuel with
  | zero => simp [vfsNodePut] at done
  | succ fuel =>
      simp only [vfsNodePut] at done
      split at done
      · cases done
      split at done
      · cases done
      obtain ⟨deleteable, -, done⟩ := Option.bind_eq_some_iff.mp done
      split at done
      · obtain ⟨⟨err, v₁⟩, -, done⟩ := Option.bind_eq_some_iff.mp done
        split at done
        · next failed =>
            cases done
            exact absurd rfl failed
        · cases done
          rw [vfsNodeDelete_nodes, if_pos rfl]
      · cases done

theorem vfsNodePut_more (here : v.nodes n = some node) (more : 2 ≤ node.refCount) :
    Returns (fun fuel => vfsNodePut v fuel (some n)) (-eBUSY, vfsNodeDrop v n) := by
  have at_n : (vfsNodeDrop v n).nodes n = some { node with refCount := node.refCount - 1 } := by
    simp [vfsNodeDrop, here]
  have held : node.refCount - 1 ≠ 0 := by omega
  refine .step (fun fuel => ?_) (.const _)
  simp only [vfsNodePut, at_n, held, ne_eq, not_false_eq_true, if_true]

theorem vfsNodePut_last (here : v.nodes n = some node) (last : node.refCount ≤ 1)
    (leaf : node.children = []) :
    Returns (fun fuel => vfsNodePut v fuel (some n))
      (0, vfsNodeDelete (vfsNodeDrop v n) n { node with refCount := node.refCount - 1 }) := by
  have at_n : (vfsNodeDrop v n).nodes n = some { node with refCount := node.refCount - 1 } := by
    simp [vfsNodeDrop, here]
  have unheld : node.refCount - 1 = 0 := by omega
  refine ⟨2, fun fuel le => ?_⟩
  obtain ⟨fuel, rfl⟩ := Nat.exists_eq_add_of_le' le
  simp [vfsNodePut, at_n, unheld, leaf, vfsNodesDeleteable, vfsNodePutChildren]

theorem vfsNodePut_gone (gone : v.nodes n = none) (r : Int × Vfs) :
    ¬ Returns (fun fuel => vfsNodePut v fuel (some n)) r := by
  rintro ⟨enough, atLeast⟩
  have done := atLeast (enough + 1) (Nat.le_succ _)
  simp [vfsNodePut, vfsNodeDrop, gone] at done

/-! ## The calls of an unmount -/

/-- `vfs_umount` behind its lookup. -/
def umountBehind (fuel : Nat) : Option NodeId × Vfs → Option (Int × Vfs)
  | (none, v) => some (-eNOENT, v)
  | (some n, v) =>
      (v.nodes n).bind fun node =>
        if ¬ vfsNodeIsFsRoot v node ∨ node.mountFs = none then some (-eINVAL, v)
        else
          (vfsNodePut (vfsUmountOn v n) fuel (some n)).bind fun (_, v) =>
            vfsNodePut v fuel (some n)

theorem vfsUmount_iff (find : Returns (fun fuel => vfsFind env fuel v path) (result, v₁))
    (r : Int × Vfs) : Returns (fun fuel => vfsUmount env fuel v path) r ↔
      Returns (fun fuel => umountBehind fuel (result, v₁)) r :=
  find.bind_iff (g := umountBehind)

theorem umountBehind_point (here : v₁.nodes n = some node) (fsRoot : vfsNodeIsFsRoot v₁ node)
    (point : node.mountFs ≠ none) (fuel : Nat) : umountBehind fuel (some n, v₁) =
      (vfsNodePut (vfsUmountOn v₁ n) fuel (some n)).bind fun r => vfsNodePut r.2 fuel (some n) := by
  simp only [umountBehind, here, Option.bind_some, fsRoot, point, not_true_eq_false, or_self,
    if_false]

/-- Both puts of an unmount that works, and the tree they leave. -/
theorem umountBehind_last (here : v₁.nodes n = some node) (fsRoot : vfsNodeIsFsRoot v₁ node)
    (point : node.mountFs ≠ none) (leaf : node.children = []) (two : node.refCount = 2) :
    ∃ v' last, Returns (fun fuel => umountBehind fuel (some n, v₁)) (0, v') ∧
      last.parent = node.parent ∧ v' = vfsNodeDelete
        (vfsNodeDrop (vfsNodeDrop (vfsUmountOn v₁ n) n) n) n last := by
  obtain ⟨old, at_n, count, children, parent⟩ : ∃ old, (vfsUmountOn v₁ n).nodes n = some old ∧
      old.refCount = 2 ∧ old.children = [] ∧ old.parent = node.parent := by
    simp [vfsUmountOn, here, leaf, two]
  have at_n' : (vfsNodeDrop (vfsUmountOn v₁ n) n).nodes n =
      some { old with refCount := old.refCount - 1 } := by
    simp [vfsNodeDrop, at_n]
  have first := vfsNodePut_more at_n (Nat.le_of_eq count.symm)
  have second := vfsNodePut_last at_n' (Nat.le_of_eq (by rw [count])) children
  exact ⟨_, _, .congr (umountBehind_point here fsRoot point) (first.bind second), parent, rfl⟩

/-- The first put deletes a node that only the lookup holds, and the second writes to it. -/
theorem umountBehind_freed (here : v₁.nodes n = some node) (fsRoot : vfsNodeIsFsRoot v₁ node)
    (point : node.mountFs ≠ none) (leaf : node.children = []) (last : node.refCount ≤ 1)
    (r : Int × Vfs) : ¬ Returns (fun fuel => umountBehind fuel (some n, v₁)) r := by
  intro returns
  obtain ⟨old, at_n, count, children⟩ : ∃ old, (vfsUmountOn v₁ n).nodes n = some old ∧
      old.refCount ≤ 1 ∧ old.children = [] := by
    simp [vfsUmountOn, here, leaf, last]
  have first := vfsNodePut_last at_n count children
  have second := (first.bind_iff (g := fun fuel (r : Int × Vfs) =>
    vfsNodePut r.2 fuel (some n))).mp (.congr (fun fuel =>
      (umountBehind_point here fsRoot point fuel).symm) returns)
  refine vfsNodePut_gone ?_ r second
  rw [vfsNodeDelete_nodes, if_pos rfl]

/-! ## What is still reachable -/

theorem reach_of_delete {m : NodeId} (reach : (vfsNodeDelete w n node).Reach m) : w.Reach m := by
  induction reach with
  | root root =>
      cases up : node.parent with
      | none => simp [vfsNodeDelete, up] at root
      | some p => exact .root (by simpa [vfsNodeDelete, up] using root)
  | child _ parent mem ih =>
      rw [vfsNodeDelete_nodes] at parent
      split at parent
      · cases parent
      split at parent
      · obtain ⟨old, was, rfl⟩ := Option.map_eq_some_iff.mp parent
        exact .child ih was (List.mem_of_mem_erase mem)
      · exact .child ih parent mem

/-- Without a leaf every other node is where it was. -/
theorem reach_delete (leaf : ∀ node, w.nodes n = some node → node.children = [])
    (top : node.parent = none → w.root = some n) {m : NodeId} (reach : w.Reach m) (off : m ≠ n) :
    (vfsNodeDelete w n node).Reach m := by
  induction reach with
  | @root r root =>
      cases up : node.parent with
      | none =>
          rw [top up] at root
          cases root
          exact absurd rfl off
      | some p => exact .root (by simpa [vfsNodeDelete, up] using root)
  | @child p c above _ parent mem ih =>
      have notLeaf : p ≠ n := by
        rintro rfl
        rw [leaf above parent] at mem
        cases mem
      have there : ∃ now, (vfsNodeDelete w n node).nodes p = some now ∧ c ∈ now.children := by
        rw [vfsNodeDelete_nodes, if_neg notLeaf]
        split
        · rw [parent]
          exact ⟨_, rfl, (List.mem_erase_of_ne off).mpr mem⟩
        · exact ⟨above, parent, mem⟩
      obtain ⟨now, at_p, mem'⟩ := there
      exact .child (ih notLeaf) at_p mem'

/-- The tree behind a clean unmount is free of the file system if the one before was, but for the
    node. -/
theorem free_iff (same : v₁.SameLinks w) (elsewhere : ∀ m, m ≠ n → w.nodes m = v₁.nodes m)
    (leaf : ∀ node, v₁.nodes n = some node → node.children = [])
    (top : node.parent = none → v₁.root = some n) :
    (∀ m new, (vfsNodeDelete w n node).Reach m → (vfsNodeDelete w n node).nodes m = some new →
      new.fs ≠ fs ∧ new.mountFs ≠ some fs) ↔ v₁.FreeOf fs n := by
  constructor
  · intro free m other reach off here
    have leaf' : ∀ node, w.nodes n = some node → node.children = [] := by
      intro now here
      obtain ⟨old, was, -, -, children⟩ := same.symm.found here
      rw [← children]
      exact leaf old was
    have reach' := reach_delete leaf' (fun up => same.root.trans (top up))
      (same.covers.reach reach) off
    rw [← elsewhere m off] at here
    have now := vfsNodeDelete_nodes w n node m
    rw [if_neg off, here] at now
    split at now
    · have kept := free m _ reach' now
      exact kept
    · exact free m other reach' now
  · intro free m new reach here
    have off : m ≠ n := by
      rintro rfl
      rw [vfsNodeDelete_nodes, if_pos rfl] at here
      cases here
    obtain ⟨old, was, eq⟩ := Vfs.Prunes.delete w n node m new here
    rw [elsewhere m off] at was
    rw [eq]
    exact free m old (same.symm.covers.reach (reach_of_delete reach)) off was

theorem vfsUmountOn_sameLinks (v₁ : Vfs) (n : NodeId) : v₁.SameLinks (vfsUmountOn v₁ n) := by
  refine .setNode (.setNode (.refl v₁) ?_) ?_ <;> exact fun _ => rfl

/-! ## When an unmount is all or nothing -/

/-- What the promise comes to when the lookup and the call have returned. -/
theorem unmountAllOrNothing_found
    (find : Returns (fun fuel => vfsFind env fuel v path) (some n, v₁))
    (here : v₁.nodes n = some node) : UnmountAllOrNothing env v path ↔
      ∃ err v', Returns (fun fuel => umountBehind fuel (some n, v₁)) (err, v') ∧
        (err ≠ 0 → (∀ m, v'.refs m = v.refs m) ∧
          ∃ new, v'.nodes n = some new ∧ SameMount node new) ∧
        (err = 0 → ∀ m new, v'.Reach m → v'.nodes m = some new →
          new.fs ≠ node.fs ∧ new.mountFs ≠ some node.fs) := by
  simp only [UnmountAllOrNothing, vfsUmount_iff find]
  constructor
  · rintro ⟨err, v', returns, failed, worked⟩
    refine ⟨err, v', returns, fun nonzero => ?_, fun zero => worked zero n v₁ node find here⟩
    obtain ⟨refs, same⟩ := failed nonzero
    exact ⟨refs, same n v₁ node find here⟩
  · rintro ⟨err, v', returns, failed, worked⟩
    have only : ∀ {n' v₁' node'}, Returns (fun fuel => vfsFind env fuel v path) (some n', v₁') →
        v₁'.nodes n' = some node' → n' = n ∧ node' = node := by
      intro n' v₁' node' find' here'
      cases find.unique find'
      rw [here] at here'
      cases here'
      exact ⟨rfl, rfl⟩
    refine ⟨err, v', returns, fun nonzero => ?_, fun zero n' v₁' node' find' here' => ?_⟩
    · obtain ⟨refs, same⟩ := failed nonzero
      refine ⟨refs, fun n' v₁' node' find' here' => ?_⟩
      obtain ⟨rfl, rfl⟩ := only find' here'
      exact same
    · obtain ⟨rfl, rfl⟩ := only find' here'
      exact worked zero

/-- At a mount point. -/
theorem unmountAllOrNothing_point (sound : v₁.Sound depth) (reach : v₁.Reach n)
    (find : Returns (fun fuel => vfsFind env fuel v path) (some n, v₁))
    (here : v₁.nodes n = some node) (fsRoot : vfsNodeIsFsRoot v₁ node)
    (point : node.mountFs ≠ none) : UnmountAllOrNothing env v path ↔
      node.children = [] ∧ node.refCount = 2 ∧ v₁.FreeOf node.fs n := by
  rw [unmountAllOrNothing_found find here]
  by_cases last : node.children = [] ∧ node.refCount = 2
  · obtain ⟨leaf, two⟩ := last
    obtain ⟨v', old, returns, up, rfl⟩ := umountBehind_last here fsRoot point leaf two
    have links := vfsUmountOn_sameLinks v₁ n
    have dropped := Vfs.Recounted.drop (vfsUmountOn v₁ n) n
    have dropped' := Vfs.Recounted.drop (vfsNodeDrop (vfsUmountOn v₁ n) n) n
    have same := (links.trans dropped.sameLinks).trans dropped'.sameLinks
    have elsewhere : ∀ m, m ≠ n → (vfsNodeDrop (vfsNodeDrop (vfsUmountOn v₁ n) n) n).nodes m =
        v₁.nodes m := by
      intro m off
      simp [vfsNodeDrop, vfsUmountOn, off]
    have top : old.parent = none → v₁.root = some n := by
      intro none
      rw [up] at none
      cases reach with
      | root root => exact root
      | child above parent mem =>
          obtain ⟨child, at_c, up'⟩ := sound.tree.child _ _ parent n mem
          rw [here] at at_c
          cases at_c
          rw [none] at up'
          cases up'
    have free := @free_iff _ _ node.fs _ _ same elsewhere (fun now at_n => by
      rw [here] at at_n
      cases at_n
      exact leaf) top
    constructor
    · rintro ⟨err, v', returns', -, worked⟩
      cases returns.unique returns'
      exact ⟨leaf, two, free.mp (worked rfl)⟩
    · intro clean
      exact ⟨0, _, returns, fun nonzero => absurd rfl nonzero, fun _ => free.mpr clean.2.2⟩
  constructor
  · rintro ⟨err, v', returns, failed, -⟩
    exfalso
    by_cases freed : node.children = [] ∧ node.refCount ≤ 1
    · exact umountBehind_freed here fsRoot point freed.1 freed.2 _ returns
    obtain ⟨mounted, is⟩ := Option.ne_none_iff_exists'.mp point
    obtain ⟨err', v'', returns', gone, fields⟩ := vfsUmount_returns sound find here is fsRoot
      (fun leaf => by
        by_contra few
        exact freed ⟨leaf, by omega⟩)
    cases ((vfsUmount_iff find _).mp returns').unique returns
    have kept : v'.nodes n ≠ none := fun none => last (gone.mp none)
    have nonzero : err ≠ 0 := by
      rintro rfl
      obtain ⟨enough, atLeast⟩ := returns
      have done := atLeast enough (Nat.le_refl _)
      simp only [umountBehind_point here fsRoot point] at done
      obtain ⟨r, -, second⟩ := Option.bind_eq_some_iff.mp done
      exact kept (vfsNodePut_zero second)
    obtain ⟨-, new, there, same⟩ := failed nonzero
    have cleared := (fields new there).2.2.1
    rw [same.mountFs] at cleared
    exact point cleared
  · exact fun clean => absurd ⟨clean.1, clean.2.1⟩ last

/-- An unmount is all or nothing exactly when it is clean. -/
theorem unmountAllOrNothing_iff_clean (sound : v.Sound depth) :
    UnmountAllOrNothing env v path ↔ UnmountClean env v path := by
  obtain ⟨result, v₁, lands⟩ := vfsFind_lands env sound path
  have refs : ∃ enough, ∀ fuel, enough ≤ fuel →
      LookupRefs (vfsFindLeaks env fuel v path) v.refs v₁ result := by
    obtain ⟨enough, atLeast⟩ := lands.returns
    exact ⟨enough, fun fuel le => vfsFind_refs sound.tree (atLeast fuel le)⟩
  have clean : UnmountClean env v path ↔ LookupClean env v path (result, v₁) := by
    constructor
    · rintro ⟨r, find, clean⟩
      cases lands.returns.unique find
      exact clean
    · exact fun clean => ⟨_, lands.returns, clean⟩
  rw [clean]
  cases result with
  | none =>
      have call : Returns (fun fuel => vfsUmount env fuel v path) (-eNOENT, v₁) :=
        (vfsUmount_iff lands.returns _).mpr (.const _)
      obtain ⟨enough, refs⟩ := refs
      constructor
      · rintro ⟨err, v', returns, failed, -⟩
        cases call.unique returns
        obtain ⟨same, -⟩ := failed (by decide)
        exact ⟨enough, fun fuel le => congrArg some ((refs fuel le).unchanged_iff.mp same)⟩
      · rintro ⟨enough', conserved⟩
        have kept := refs (max enough enough') (Nat.le_max_left ..)
        have none : vfsFindLeaks env (max enough enough') v path = false :=
          Option.some.inj (conserved _ (Nat.le_max_right ..))
        refine ⟨_, v₁, call, fun _ => ⟨kept.unchanged_iff.mpr none, ?_⟩, fun zero => ?_⟩
        · intro n v₁' node find
          cases lands.returns.unique find
        · exact absurd zero (by decide)
  | some n =>
      obtain ⟨node, here, found⟩ := lands.found n rfl
      have only : LookupClean env v path (some n, v₁) ↔ vfsNodeIsFsRoot v₁ node ∧
          node.mountFs ≠ none ∧ node.children = [] ∧ node.refCount = 2 ∧
          v₁.FreeOf node.fs n := by
        constructor
        · rintro ⟨node', here', clean⟩
          rw [here] at here'
          cases here'
          exact clean
        · exact fun clean => ⟨node, here, clean⟩
      rw [only]
      by_cases point : vfsNodeIsFsRoot v₁ node ∧ node.mountFs ≠ none
      · obtain unmounted | ⟨⟨depth₁, sound₁⟩, reach⟩ := found
        · exact absurd unmounted point.2
        rw [unmountAllOrNothing_point sound₁ reach lands.returns here point.1 point.2]
        simp only [point, ne_eq, not_false_eq_true, true_and]
      · -- the call fails with the reference of the lookup
        have call : ∀ fuel, umountBehind fuel (some n, v₁) = some (-eINVAL, v₁) := by
          intro fuel
          have not_point : ¬ vfsNodeIsFsRoot v₁ node = true ∨ node.mountFs = none := by
            tauto
          simp only [umountBehind, here, Option.bind_some, not_point, if_true]
        rw [unmountAllOrNothing_found lands.returns here]
        constructor
        · rintro ⟨err, v', returns, failed, -⟩
          cases (Returns.congr call (.const _)).unique returns
          obtain ⟨enough, refs⟩ := refs
          obtain ⟨m, changed⟩ := (refs enough (Nat.le_refl _)).changed
          exact absurd ((failed (by decide)).1 m) changed
        · exact fun clean => absurd ⟨clean.1, clean.2.1⟩ point

end

/-! ## A file system on a directory of the root -/

/-- The directory `a` of the root with file system 2 on it, and `refs` references. -/
def mountedDir (refs : Nat) : VfsNode := { usedDir with
  fs := 2, inode := oneFileRoot, mountFs := some 1, refCount := refs }

def mountedTree (refs : Nat) : Vfs := vfsNodeAttach bareTree 1 2 (mountedDir refs)

theorem mountedTree_sound (refs : Nat) : (mountedTree refs).Sound (Function.update (fun _ => 0) 2 1) :=
  bareTree_sound.attach rfl rfl rfl rfl (by simp [mountedDir, usedDir, nameMax]) nofun

/-- The state behind a lookup of `/a`. -/
def mountedTreeFound (refs : Nat) : Vfs := vfsNodeDrop
  (vfsNodeHold (some 2, (vfsNodeHold (some 1, mountedTree refs)).2)).2 1

theorem mountedTree_find (refs : Nat) :
    Returns (fun fuel => vfsFind oneFileEnv fuel (mountedTree refs) ['/', 'a'])
      (some 2, mountedTreeFound refs) := by
  refine ⟨1, fun fuel le => ?_⟩
  obtain ⟨fuel, rfl⟩ := Nat.exists_eq_add_of_le' le
  rfl

theorem mountedTree_found (refs : Nat) :
    (mountedTreeFound refs).nodes 2 = some (mountedDir (refs + 1)) := rfl

/-- With the mount's reference only the unmount is clean. -/
theorem unmountAllOrNothing_mounted :
    UnmountAllOrNothing oneFileEnv (mountedTree 1) ['/', 'a'] := by
  refine (unmountAllOrNothing_iff_clean (mountedTree_sound 1)).mpr
    ⟨_, mountedTree_find 1, mountedDir 2, rfl, rfl, nofun, rfl, rfl, ?_⟩
  intro m node _ off here
  have at_root : (mountedTreeFound 1).nodes 1 = some { (default : VfsNode) with
    fs := 1, inode := oneFileRoot, refCount := 1, mountFs := some 1, children := [2] } := rfl
  by_cases root : m = 1
  · subst root
    rw [at_root] at here
    cases here
    exact ⟨by decide, by decide⟩
  · simp [mountedTreeFound, vfsNodeDrop, vfsNodeHold, root, off, mountedTree, vfsNodeAttach,
      bareTree] at here

/-- With an open file on the mounted file system the unmount fails when the mount is gone. -/
theorem not_unmountAllOrNothing :
    ¬ UnmountAllOrNothing oneFileEnv (mountedTree 2) ['/', 'a'] := by
  have find := mountedTree_find 2
  obtain ⟨result, v₁, lands⟩ := vfsFind_lands oneFileEnv (mountedTree_sound 2) ['/', 'a']
  cases lands.returns.unique find
  obtain ⟨node, here, found⟩ := lands.found 2 rfl
  cases (mountedTree_found 2).symm.trans here
  obtain unmounted | ⟨⟨depth, sound⟩, reach⟩ := found
  · cases unmounted
  rw [unmountAllOrNothing_point sound reach find here rfl nofun]
  rintro ⟨-, three, -⟩
  cases three

end Sdx.Fs
