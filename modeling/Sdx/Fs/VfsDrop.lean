import Sdx.Fs.VfsOpen

/-! # Dropping the last reference (`vfs_node_put` of `fs/vfs/node.c`)

Once no node of a subtree has a reference left, a put is to free the subtree and to unlink its
top. The loop over the children moves on before it puts: it never puts the first child, and it
only ends at a put of `NULL`. So a node with children is not freed, whatever its references.
-/

namespace Sdx.Fs

open Sdx.Lib

/-! ## The nodes that are freed -/

mutual

/-- `vfs_node_put` with the nodes it frees, in their order. -/
def vfsNodePutFreeing (v : Vfs) : Nat → Option NodeId → Option ((Int × Vfs) × List NodeId)
  | 0, _ => none
  | _ + 1, none => some ((-eINVAL, v), [])
  | fuel + 1, some n =>
      let v := vfsNodeDrop v n
      match v.nodes n with
      | none => none
      | some node =>
          if node.refCount ≠ 0 then some ((-eBUSY, v), [])
          else do
            if ← vfsNodesDeleteable v fuel node.children then
              let ((err, v), freed) ← vfsNodePutChildrenFreeing v fuel node.children
              if err ≠ 0 then some ((err, v), freed)
              else some ((0, vfsNodeDelete v n node), freed ++ [n])
            else some ((-eBUSY, v), [])

/-- The loop of `vfs_node_put` with the nodes it frees. The source takes the next sibling out of
    a child it has just freed; here that pointer is still there. -/
def vfsNodePutChildrenFreeing (v : Vfs) : Nat → List NodeId →
    Option ((Int × Vfs) × List NodeId)
  | 0, _ => none
  | _ + 1, [] => some ((0, v), [])
  | fuel + 1, _ :: rest => do
      let ((err, v), freed) ← vfsNodePutFreeing v fuel rest.head?
      if err ≠ 0 then some ((err, v), freed)
      else
        let (result, freed') ← vfsNodePutChildrenFreeing v fuel rest
        some (result, freed ++ freed')

end

/-- Counting the freed nodes changes nothing of a put. -/
theorem vfsNodePutFreeing_value (fuel : Nat) :
    (∀ v n, (vfsNodePutFreeing v fuel n).map Prod.fst = vfsNodePut v fuel n) ∧
    ∀ v l, (vfsNodePutChildrenFreeing v fuel l).map Prod.fst = vfsNodePutChildren v fuel l := by
  induction fuel with
  | zero =>
      exact ⟨fun v n => by rw [vfsNodePutFreeing, vfsNodePut]; rfl,
        fun v l => by rw [vfsNodePutChildrenFreeing, vfsNodePutChildren]; rfl⟩
  | succ fuel ih =>
      obtain ⟨put, children⟩ := ih
      constructor
      · intro v n
        cases n with
        | none => rw [vfsNodePutFreeing, vfsNodePut]; rfl
        | some n =>
            rw [vfsNodePutFreeing, vfsNodePut]
            cases (vfsNodeDrop v n).nodes n with
            | none => rfl
            | some node =>
                by_cases held : node.refCount ≠ 0
                · simp [held]
                · simp only [if_neg held, Option.bind_eq_bind, Option.map_bind]
                  refine congrArg _ (funext fun deleteable => ?_)
                  cases deleteable with
                  | false => rfl
                  | true =>
                      simp only [Function.comp_apply, if_true, ← children, Option.map_bind,
                        Option.bind_map]
                      refine congrArg _ (funext fun result => ?_)
                      exact apply_ite (Option.map Prod.fst) ..
      · intro v l
        cases l with
        | nil => rw [vfsNodePutChildrenFreeing, vfsNodePutChildren]; rfl
        | cons c rest =>
            rw [vfsNodePutChildrenFreeing, vfsNodePutChildren, ← put]
            simp only [Option.bind_eq_bind, Option.map_bind, Option.bind_map]
            refine congrArg _ (funext fun result => ?_)
            by_cases failed : result.1.1 ≠ 0
            · simp only [Function.comp_apply, if_pos failed]
              rfl
            · simp only [Function.comp_apply, if_neg failed, ← children, Option.map_bind]
              rw [Option.map_eq_bind]
              rfl

/-! ## The subtree of a node -/

/-- `w` is `v` without the subtree of `n`, a child of `p`. -/
structure Vfs.Removed (v w : Vfs) (n p : NodeId) : Prop where
  subtree : ∀ m, v.Below n m → w.nodes m = none
  parent : w.nodes p = (v.nodes p).map fun node =>
    { node with children := node.children.filter (· ≠ n) }
  others : ∀ m, ¬ v.Below n m → m ≠ p → w.nodes m = v.nodes m
  root : w.root = v.root

/-- A put of `n`, a child of `p`, frees its subtree node by node and unlinks it if nothing in it
    is in use without the reference, and otherwise only drops the reference. -/
def PutRemoves (v : Vfs) (n p : NodeId) : Prop :=
  (¬ (vfsNodeDrop v n).InUse n → ∃ w freed, 
    Returns (fun fuel => vfsNodePutFreeing v fuel (some n)) ((0, w), freed) ∧
    v.Removed w n p ∧ freed.Nodup ∧ ∀ m, m ∈ freed ↔ v.Below n m) ∧
  ((vfsNodeDrop v n).InUse n → Returns (fun fuel => vfsNodePutFreeing v fuel (some n))
    ((-eBUSY, vfsNodeDrop v n), []))

section

variable {v w : Vfs} {depth : NodeId → Nat} {n p m : NodeId} {node : VfsNode}

/-- Nothing is below a node without children. -/
theorem Vfs.below_leaf (here : v.nodes n = some node) (leaf : node.children = []) :
    v.Below n m ↔ m = n := by
  constructor
  · intro under
    cases under with
    | refl => rfl
    | child found mem =>
        rw [here] at found
        cases found
        rw [leaf] at mem
        cases mem
  · rintro rfl
    exact .refl m

/-- The check of a put, on the tree without the reference. -/
theorem vfsNodesDeleteable_drop (shaped : v.Shaped depth) (here : v.nodes n = some node)
    (last : node.refCount - 1 = 0) : ∃ deleteable,
      Returns (fun fuel => vfsNodesDeleteable (vfsNodeDrop v n) fuel node.children) deleteable ∧
      (deleteable = true ↔ ¬ (vfsNodeDrop v n).InUse n) := by
  have at_n := drop_nodes_same here
  have tree := shaped.tree.drop n
  obtain ⟨bottom, shallow⟩ := shaped.shallow
  obtain ⟨deleteable, check⟩ := vfsNodesDeleteable_returns tree bottom node.children
    (fun c mem => by
      obtain ⟨child, at_c, -⟩ := tree.child n _ at_n c mem
      rw [at_c]
      rfl)
    (fun c _ m found => by
      have := shallow m ((Vfs.Recounted.drop v n).symm.isSome found)
      omega)
  have own := Vfs.inUse_iff_children at_n last
  obtain ⟨fuel, done⟩ := check
  exact ⟨deleteable, ⟨fuel, done⟩, (vfsNodesDeleteable_iff (done fuel (Nat.le_refl _))).trans own⟩

/-- A node that is in use loses one reference, and nothing is freed. -/
theorem vfsNodePutFreeing_busy (shaped : v.Shaped depth) (here : v.nodes n = some node)
    (inUse : (vfsNodeDrop v n).InUse n) :
    Returns (fun fuel => vfsNodePutFreeing v fuel (some n)) ((-eBUSY, vfsNodeDrop v n), []) := by
  have at_n := drop_nodes_same here
  by_cases held : node.refCount - 1 ≠ 0
  · refine .step (fun fuel => ?_) (.const _)
    simp [vfsNodePutFreeing, at_n, held]
  · obtain ⟨deleteable, ⟨enough, check⟩, iff⟩ :=
      vfsNodesDeleteable_drop shaped here (not_not.mp held)
    obtain rfl : deleteable = false := by
      rw [← Bool.not_eq_true, iff]
      exact not_not.mpr inUse
    refine ⟨enough + 1, fun fuel le => ?_⟩
    obtain ⟨fuel, rfl⟩ := Nat.exists_eq_add_of_le' le
    have checked := check (fuel + enough) (by omega)
    simp [vfsNodePutFreeing, at_n, held, checked]

/-- A node without children goes with its last reference. -/
theorem vfsNodePutFreeing_leaf (here : v.nodes n = some node) (last : node.refCount - 1 = 0)
    (leaf : node.children = []) :
    Returns (fun fuel => vfsNodePutFreeing v fuel (some n))
      ((0, vfsNodeDelete (vfsNodeDrop v n) n { node with refCount := node.refCount - 1 }), [n]) := by
  refine ⟨2, fun fuel le => ?_⟩
  obtain ⟨fuel, rfl⟩ := Nat.exists_eq_add_of_le' le
  simp [vfsNodePutFreeing, drop_nodes_same here, last, leaf, vfsNodesDeleteable,
    vfsNodePutChildrenFreeing]

theorem vfsNodeDelete_removed (shaped : v.Shaped depth) (here : v.nodes n = some node)
    (up : node.parent = some p) (leaf : node.children = []) :
    v.Removed (vfsNodeDelete (vfsNodeDrop v n) n { node with refCount := node.refCount - 1 })
      n p := by
  have off : p ≠ n := by
    rintro rfl
    have := (shaped.tree.parent p node p here up).2
    omega
  refine ⟨fun m under => ?_, ?_, fun m apart notParent => ?_, ?_⟩
  · rw [vfsNodeDelete_nodes, if_pos ((Vfs.below_leaf here leaf).mp under)]
  · rw [vfsNodeDelete_nodes, if_neg off, if_pos up, drop_nodes_other off]
    cases at_p : v.nodes p with
    | none => rfl
    | some above =>
        have erased := (shaped.siblings p above at_p).erase_eq_filter n
        rw [Option.map_some, Option.map_some, erased]
        congr 3
        refine funext fun c => ?_
        rw [bne, beq_eq_decide, decide_not]
  · have other : m ≠ n := fun eq => apart ((Vfs.below_leaf here leaf).mpr eq)
    rw [vfsNodeDelete_nodes, if_neg other, if_neg, drop_nodes_other other]
    rw [up]
    simpa using notParent.symm
  · simp only [vfsNodeDelete, up]
    rfl

/-- A put of a node with children never returns 0. -/
theorem vfsNodePutFreeing_parent (here : v.nodes n = some node) (children : node.children ≠ [])
    {freed : List NodeId} :
    ¬ Returns (fun fuel => vfsNodePutFreeing v fuel (some n)) ((0, w), freed) := by
  rintro ⟨enough, done⟩
  have put : vfsNodePut v (enough + 1) (some n) = some (0, w) := by
    rw [← (vfsNodePutFreeing_value _).1]
    exact congrArg (Option.map Prod.fst) (done _ (Nat.le_succ _))
  rw [vfsNodePut] at put
  simp only [drop_nodes_same here] at put
  split at put
  · cases put
  obtain ⟨deleteable, -, put⟩ := Option.bind_eq_some_iff.mp put
  split at put
  · obtain ⟨⟨err, v₁⟩, loop, put⟩ := Option.bind_eq_some_iff.mp put
    obtain ⟨c, rest, eq⟩ := List.exists_cons_of_ne_nil children
    rw [eq] at loop
    rw [if_pos (vfsNodePutChildren_fails loop)] at put
    cases put
    exact vfsNodePutChildren_fails loop rfl
  · cases put

end

/-- A put of a node below another does what it is to do exactly when it has not to delete
    children. -/
theorem vfsNodePut_removes_iff {v : Vfs} {depth : NodeId → Nat} {n p : NodeId} {node : VfsNode}
    (shaped : v.Shaped depth) (here : v.nodes n = some node) (up : node.parent = some p) :
    PutRemoves v n p ↔ ((vfsNodeDrop v n).InUse n ∨ node.children = []) := by
  constructor
  · rintro ⟨removes, -⟩
    by_contra none
    obtain ⟨unused, children⟩ := not_or.mp none
    obtain ⟨w, freed, returns, -⟩ := removes unused
    exact vfsNodePutFreeing_parent here children returns
  · intro either
    refine ⟨fun unused => ?_, vfsNodePutFreeing_busy shaped here⟩
    have leaf := either.resolve_left unused
    have last : node.refCount - 1 = 0 := by
      by_contra held
      exact unused ⟨n, .refl n, by rwa [Vfs.refs_eq (drop_nodes_same here)]⟩
    refine ⟨_, _, vfsNodePutFreeing_leaf here last leaf,
      vfsNodeDelete_removed shaped here up leaf, List.nodup_singleton n, fun m => ?_⟩
    rw [List.mem_singleton, Vfs.below_leaf here leaf]

/-! ## One node below the other -/

/-- A node of a chain of `last` nodes. What was opened below the second one is closed again. -/
def chainNode (last n : Nat) : VfsNode where
  fs := 1
  inode := default
  name := ['a']
  refCount := if n ≤ 2 then 1 else 0
  mountFs := none
  mount := default
  parent := if n = 1 then none else some (n - 1)
  children := if n = last then [] else [n + 1]

/-- The nodes from 1 to `last`, each the only child of the one before it. -/
def chainTree (last : Nat) : Vfs where
  nodes (n : Nat) := if 1 ≤ n ∧ n ≤ last then some (chainNode last n) else none
  root := some 1

theorem chainTree_at {last n : Nat} (low : 1 ≤ n) (high : n ≤ last) :
    (chainTree last).nodes n = some (chainNode last n) := if_pos ⟨low, high⟩

theorem chainTree_node {last n : Nat} {node : VfsNode}
    (here : (chainTree last).nodes n = some node) : 1 ≤ n ∧ n ≤ last ∧ node = chainNode last n := by
  simp only [chainTree] at here
  split at here
  · next within => exact ⟨within.1, within.2, (Option.some.inj here).symm⟩
  · cases here

theorem chainTree_shaped {last : Nat} (nonempty : 1 ≤ last) : (chainTree last).Shaped fun n => n where
  tree := by
    refine ⟨fun (n : Nat) node here c mem => ?_, fun (n : Nat) node p here up => ?_,
      fun r root => ?_⟩
    · obtain ⟨low, high, rfl⟩ := chainTree_node here
      by_cases bottom : n = last
      · simp [chainNode, bottom] at mem
      · obtain rfl : c = n + 1 := by simpa [chainNode, bottom] using mem
        have first : n + 1 ≠ 1 := by omega
        exact ⟨_, chainTree_at (by omega) (by omega), if_neg first⟩
    · obtain ⟨low, high, rfl⟩ := chainTree_node here
      by_cases top : n = 1
      · simp [chainNode, top] at up
      · obtain rfl : n - 1 = p := by simpa [chainNode, top] using up
        rw [chainTree_at (by omega) (by omega)]
        exact ⟨rfl, by omega⟩
    · cases root
      rw [chainTree_at (Nat.le_refl 1) nonempty]
      rfl
  siblings n node here := by
    obtain ⟨-, -, rfl⟩ := chainTree_node here
    by_cases bottom : n = last
    · simp [chainNode, bottom]
    · simp [chainNode, bottom]
  finite := by
    refine ⟨last + 1, fun (n : Nat) here => ?_⟩
    obtain ⟨node, here⟩ := Option.isSome_iff_exists.mp here
    have := (chainTree_node here).2.1
    omega

/-- The last node of two goes, and its parent has no child left. -/
theorem vfsNodePut_removes_iff_leaf : PutRemoves (chainTree 2) 2 1 :=
  (vfsNodePut_removes_iff (chainTree_shaped (by decide))
    (chainTree_at (by decide) (by decide)) rfl).mpr (.inr rfl)

/-- The second node of three has lost its last reference, and its child has none; the put ends
    with `-EINVAL`. -/
theorem not_putRemoves : ¬ ∀ v depth n p node, Vfs.Shaped v depth → v.nodes n = some node →
    node.parent = some p → PutRemoves v n p := by
  intro removes
  have here : (chainTree 3).nodes 2 = some (chainNode 3 2) :=
    chainTree_at (by decide) (by decide)
  have below : (chainTree 3).nodes 3 = some (chainNode 3 3) :=
    chainTree_at (by decide) (by decide)
  obtain ⟨removed, -⟩ := removes _ _ 2 1 _ (chainTree_shaped (by decide)) here rfl
  have unused : ¬ (vfsNodeDrop (chainTree 3) 2).InUse 2 := by
    refine (Vfs.inUse_iff_children (drop_nodes_same here) rfl).mp fun c mem => ?_
    obtain rfl := List.mem_singleton.mp mem
    have below : (vfsNodeDrop (chainTree 3) 2).nodes 3 = some (chainNode 3 3) := by
      rw [drop_nodes_other (by decide), chainTree_at (by decide) (by decide)]
    refine (Vfs.inUse_iff_children below rfl).mp fun c mem => ?_
    cases mem
  obtain ⟨w, freed, returns, -⟩ := removed unused
  exact vfsNodePutFreeing_parent here (by decide) returns

end Sdx.Fs
