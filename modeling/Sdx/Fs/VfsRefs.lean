import Sdx.Fs.Vfs
import Mathlib.Data.List.Basic

/-! # What a lookup does to the reference counts

Dropping a reference takes one from one node's count and never touches another count, even
when it deletes nodes. A lookup gives back the reference of every node it leaves downwards,
but not of a node it leaves with `..`, and none at all when it gives up on a name that is
too long. `vfsFindLeaks` says that one of these happens; exactly then some count stays too
high. The argument follows the deepest node that is left with `..`: no later step of the
lookup can take its reference back without leaving a deeper one.
-/

namespace Sdx.Fs

/-- 1 if the statement holds. -/
def one (p : Prop) [Decidable p] : Nat := if p then 1 else 0

@[simp] theorem one_true {p : Prop} [Decidable p] (h : p) : one p = 1 := if_pos h
@[simp] theorem one_false {p : Prop} [Decidable p] (h : ¬ p) : one p = 0 := if_neg h

/-! ## Counts -/

namespace Vfs

variable {v : Vfs} {n m : NodeId} {node : VfsNode} {f : VfsNode → VfsNode}

theorem refs_eq (here : v.nodes n = some node) : v.refs n = node.refCount := by
  simp [refs, here]

theorem refs_none (gone : v.nodes n = none) : v.refs n = 0 := by
  simp [refs, gone]

theorem exists_of_refs (held : v.refs n ≠ 0) : ∃ node, v.nodes n = some node := by
  cases here : v.nodes n with
  | none => exact absurd (refs_none here) held
  | some node => exact ⟨node, rfl⟩

@[simp] theorem setNode_nodes_same : (v.setNode n f).nodes n = (v.nodes n).map f := by
  simp [setNode]

@[simp] theorem setNode_nodes_other (off : m ≠ n) : (v.setNode n f).nodes m = v.nodes m := by
  simp [setNode, off]

@[simp] theorem setNode_root : (v.setNode n f).root = v.root := rfl

/-- A write that keeps the count of the node keeps every count. -/
theorem refs_setNode_keep (keep : ∀ node, (f node).refCount = node.refCount) :
    (v.setNode n f).refs m = v.refs m := by
  by_cases here : m = n
  · subst here
    cases node : v.nodes m <;> simp [refs, node, keep]
  · simp [refs, here]

end Vfs

theorem refs_vfsNodeDrop (v : Vfs) (n m : NodeId) :
    (vfsNodeDrop v n).refs m = v.refs m - one (m = n) := by
  by_cases here : m = n
  · subst here
    cases node : v.nodes m <;> simp [vfsNodeDrop, Vfs.refs, node]
  · simp [vfsNodeDrop, Vfs.refs, here]

/-- Adding a reference to a node that exists. -/
theorem refs_vfsNodeHold {v : Vfs} {n : NodeId} {node : VfsNode} (here : v.nodes n = some node)
    (m : NodeId) : (vfsNodeHold (some n, v)).2.refs m = v.refs m + one (m = n) := by
  by_cases same : m = n
  · subst same
    simp [vfsNodeHold, Vfs.refs, here]
  · simp [vfsNodeHold, Vfs.refs, same]

/-- Deleting a node without references keeps every count. -/
theorem refs_vfsNodeDelete {v : Vfs} {n : NodeId} (unheld : v.refs n = 0) (node : VfsNode)
    (m : NodeId) : (vfsNodeDelete v n node).refs m = v.refs m := by
  by_cases here : m = n
  · subst here
    rw [unheld]
    simp [vfsNodeDelete, Vfs.refs]
  · cases parent : node.parent with
    | none => simp [vfsNodeDelete, Vfs.refs, parent, here]
    | some p =>
        have kept : (v.setNode p fun q => { q with children := q.children.erase n }).refs m =
            v.refs m := Vfs.refs_setNode_keep fun _ => rfl
        rw [← kept]
        simp [vfsNodeDelete, Vfs.refs, parent, here]

theorem vfsNodesDeleteable_refs {v : Vfs} {fuel : Nat} {l : List NodeId}
    (done : vfsNodesDeleteable v fuel l = some true) : ∀ c ∈ l, v.refs c = 0 := by
  induction fuel generalizing l with
  | zero => cases done
  | succ fuel ih =>
      cases l with
      | nil => exact nofun
      | cons n siblings =>
          rw [vfsNodesDeleteable] at done
          split at done
          · cases done
          next node here =>
          split at done
          · cases done
          next unheld =>
          obtain ⟨below, -, done⟩ := Option.bind_eq_some_iff.mp done
          split at done
          · intro c mem
            cases mem with
            | head => rw [Vfs.refs_eq here]; simpa using unheld
            | tail _ mem => exact ih done c mem
          · cases done

mutual

/-- A put takes one reference from its node and leaves every other count, whatever it deletes. -/
theorem vfsNodePut_refs {v v' : Vfs} {fuel : Nat} {n : NodeId} {err : Int}
    (done : vfsNodePut v fuel (some n) = some (err, v')) (m : NodeId) :
    v'.refs m = v.refs m - one (m = n) := by
  cases fuel with
  | zero => simp [vfsNodePut] at done
  | succ fuel =>
      rw [← refs_vfsNodeDrop]
      simp only [vfsNodePut] at done
      split at done
      · cases done
      next node here =>
      split at done
      · cases done
        rfl
      next unheld =>
      obtain ⟨deleteable, check, done⟩ := Option.bind_eq_some_iff.mp done
      split at done
      · next yes =>
          subst yes
          obtain ⟨⟨err', v₁⟩, children, done⟩ := Option.bind_eq_some_iff.mp done
          have kept := vfsNodePutChildren_refs children (vfsNodesDeleteable_refs check)
          split at done
          · cases done
            exact kept m
          · cases done
            have zero : v₁.refs n = 0 := by
              rw [kept n, Vfs.refs_eq here]
              simpa using unheld
            rw [refs_vfsNodeDelete zero, kept m]
      · cases done
        rfl

theorem vfsNodePutChildren_refs {v v' : Vfs} {fuel : Nat} {l : List NodeId} {err : Int}
    (done : vfsNodePutChildren v fuel l = some (err, v')) (unheld : ∀ c ∈ l, v.refs c = 0)
    (m : NodeId) : v'.refs m = v.refs m := by
  cases fuel with
  | zero => simp [vfsNodePutChildren] at done
  | succ fuel =>
      cases l with
      | nil =>
          simp only [vfsNodePutChildren, Option.some.injEq, Prod.mk.injEq] at done
          rw [done.2]
      | cons first rest =>
          simp only [vfsNodePutChildren, Option.bind_eq_bind, Option.bind_eq_some_iff] at done
          obtain ⟨⟨err', v₁⟩, put, done⟩ := done
          have same : ∀ m, v₁.refs m = v.refs m := by
            intro m
            cases rest with
            | nil =>
                cases fuel with
                | zero => simp [vfsNodePut] at put
                | succ fuel =>
                    simp only [List.head?_nil, vfsNodePut, Option.some.injEq, Prod.mk.injEq] at put
                    rw [put.2]
            | cons second rest =>
                rw [vfsNodePut_refs put m]
                by_cases here : m = second
                · rw [here, unheld second (by simp)]
                  exact Nat.zero_sub _
                · rw [one_false here, Nat.sub_zero]
          split at done
          · cases done
            exact same m
          · rw [vfsNodePutChildren_refs done (fun c mem => (same c).trans
              (unheld c (List.mem_cons_of_mem _ mem))) m, same m]

end

/-! ## What a put respects -/

/-- A relation between the states before and behind a drop, a deletion and steps one after the other. -/
structure Vfs.PutRelation (r : Vfs → Vfs → Prop) : Prop where
  refl : ∀ v, r v v
  trans : ∀ {v v₁ v₂}, r v v₁ → r v₁ v₂ → r v v₂
  drop : ∀ v n, r v (vfsNodeDrop v n)
  delete : ∀ v n node, r v (vfsNodeDelete v n node)

mutual

/-- It is one between the states before and behind a put. -/
theorem Vfs.PutRelation.put {r : Vfs → Vfs → Prop} {v v' : Vfs} {fuel : Nat} {n : Option NodeId}
    {err : Int} (rel : Vfs.PutRelation r) (done : vfsNodePut v fuel n = some (err, v')) : r v v' := by
  cases fuel with
  | zero => simp [vfsNodePut] at done
  | succ fuel =>
      cases n with
      | none =>
          simp only [vfsNodePut, Option.some.injEq, Prod.mk.injEq] at done
          rw [← done.2]
          exact rel.refl v
      | some n =>
          have dropped := rel.drop v n
          simp only [vfsNodePut] at done
          split at done
          · cases done
          next node here =>
          split at done
          · cases done
            exact dropped
          obtain ⟨deleteable, -, done⟩ := Option.bind_eq_some_iff.mp done
          split at done
          · obtain ⟨⟨err', v₁⟩, children, done⟩ := Option.bind_eq_some_iff.mp done
            have kept := rel.trans dropped (rel.putChildren children)
            split at done
            · cases done
              exact kept
            · cases done
              exact rel.trans kept (rel.delete v₁ n node)
          · cases done
            exact dropped

theorem Vfs.PutRelation.putChildren {r : Vfs → Vfs → Prop} {v v' : Vfs} {fuel : Nat}
    {l : List NodeId} {err : Int} (rel : Vfs.PutRelation r)
    (done : vfsNodePutChildren v fuel l = some (err, v')) : r v v' := by
  cases fuel with
  | zero => simp [vfsNodePutChildren] at done
  | succ fuel =>
      cases l with
      | nil =>
          simp only [vfsNodePutChildren, Option.some.injEq, Prod.mk.injEq] at done
          rw [← done.2]
          exact rel.refl v
      | cons first rest =>
          simp only [vfsNodePutChildren, Option.bind_eq_bind, Option.bind_eq_some_iff] at done
          obtain ⟨⟨err', v₁⟩, put, done⟩ := done
          have one := rel.put put
          split at done
          · cases done
            exact one
          · exact rel.trans one (rel.putChildren done)

end

/-! ## The tree -/

/-- Parents and children agree, and `depth` counts the nodes above a node. -/
structure Vfs.Tree (v : Vfs) (depth : NodeId → Nat) : Prop where
  child : ∀ n node, v.nodes n = some node → ∀ c ∈ node.children,
    ∃ child, v.nodes c = some child ∧ child.parent = some n
  parent : ∀ n node p, v.nodes n = some node → node.parent = some p →
    (v.nodes p).isSome ∧ depth n = depth p + 1
  root : ∀ r, v.root = some r → (v.nodes r).isSome

theorem Vfs.Tree.up {v : Vfs} {depth : NodeId → Nat} {n : NodeId} {node : VfsNode}
    (tree : v.Tree depth) (here : v.nodes n = some node) :
    (v.nodes (node.parent.getD n)).isSome := by
  cases parent : node.parent with
  | none =>
      rw [Option.getD_none, here]
      rfl
  | some p => exact (tree.parent n node p here parent).1

/-- The nodes are the same up to their counts. -/
structure Vfs.Recounted (v w : Vfs) : Prop where
  root : w.root = v.root
  nodes : ∀ n, ∃ count, w.nodes n = (v.nodes n).map fun node => { node with refCount := count }

namespace Vfs.Recounted

variable {v w u : Vfs} {n : NodeId} {node : VfsNode}

theorem refl (v : Vfs) : v.Recounted v := by
  refine ⟨rfl, fun n => ?_⟩
  cases here : v.nodes n with
  | none => exact ⟨0, rfl⟩
  | some node => exact ⟨node.refCount, rfl⟩

theorem symm (same : v.Recounted w) : w.Recounted v := by
  refine ⟨same.root.symm, fun n => ?_⟩
  obtain ⟨count, now⟩ := same.nodes n
  cases here : v.nodes n with
  | none => exact ⟨0, by rw [now, here]; rfl⟩
  | some node => exact ⟨node.refCount, by rw [now, here]; rfl⟩

theorem trans (same : v.Recounted w) (same' : w.Recounted u) : v.Recounted u := by
  refine ⟨same'.root.trans same.root, fun n => ?_⟩
  obtain ⟨count, now⟩ := same.nodes n
  obtain ⟨count', now'⟩ := same'.nodes n
  refine ⟨count', ?_⟩
  rw [now', now, Option.map_map]
  rfl

theorem found (same : v.Recounted w) (here : v.nodes n = some node) :
    ∃ count, w.nodes n = some { node with refCount := count } := by
  obtain ⟨count, now⟩ := same.nodes n
  exact ⟨count, by rw [now, here]; rfl⟩

theorem isSome (same : v.Recounted w) (here : (v.nodes n).isSome) : (w.nodes n).isSome := by
  obtain ⟨node, here⟩ := Option.isSome_iff_exists.mp here
  obtain ⟨count, now⟩ := same.found here
  rw [now]
  rfl

/-- A write to the count of one node. -/
theorem setCount (v : Vfs) (n : NodeId) (count : Nat → Nat) :
    v.Recounted (v.setNode n fun node => { node with refCount := count node.refCount }) := by
  refine ⟨rfl, fun m => ?_⟩
  by_cases eq : m = n
  · subst eq
    cases here : v.nodes m with
    | none => exact ⟨0, by rw [setNode_nodes_same, here]; rfl⟩
    | some node => exact ⟨count node.refCount, by rw [setNode_nodes_same, here]; rfl⟩
  · rw [setNode_nodes_other eq]
    exact (refl v).nodes m

theorem hold (v : Vfs) (n : NodeId) : v.Recounted (vfsNodeHold (some n, v)).2 :=
  setCount v n (· + 1)

theorem drop (v : Vfs) (n : NodeId) : v.Recounted (vfsNodeDrop v n) := setCount v n (· - 1)

end Vfs.Recounted

namespace Vfs.Tree

variable {v w : Vfs} {depth : NodeId → Nat}

/-- Reference counts are no part of the tree. -/
theorem recounted (tree : v.Tree depth) (same : v.Recounted w) : w.Tree depth := by
  refine ⟨fun m node here c mem => ?_, fun m node p here up => ?_, fun r here => ?_⟩
  · obtain ⟨count, old⟩ := same.symm.found here
    obtain ⟨child, found, up⟩ := tree.child m _ old c mem
    obtain ⟨count', now⟩ := same.found found
    exact ⟨_, now, up⟩
  · obtain ⟨count, old⟩ := same.symm.found here
    obtain ⟨above, deeper⟩ := tree.parent m _ p old up
    exact ⟨same.isSome above, deeper⟩
  · exact same.isSome (tree.root r (same.root ▸ here))

theorem hold (tree : v.Tree depth) (n : NodeId) : (vfsNodeHold (some n, v)).2.Tree depth :=
  tree.recounted (.hold v n)

theorem drop (tree : v.Tree depth) (n : NodeId) : (vfsNodeDrop v n).Tree depth :=
  tree.recounted (.drop v n)

end Vfs.Tree

section

variable {v : Vfs} {depth : NodeId → Nat} {parent new : NodeId} {node made : VfsNode}

theorem vfsNodeAttach_nodes (here : v.nodes parent = some node) (gone : v.nodes new = none)
    (made : VfsNode) (m : NodeId) : (vfsNodeAttach v parent new made).nodes m =
      if m = new then some made
      else if m = parent then some { node with children := new :: node.children }
      else v.nodes m := by
  have off : parent ≠ new := by
    rintro rfl
    rw [gone] at here
    cases here
  by_cases eq : m = new
  · subst eq
    simp [vfsNodeAttach, off.symm]
  · by_cases eq' : m = parent
    · subst eq'
      simp [vfsNodeAttach, eq, here]
    · simp [vfsNodeAttach, eq, eq']

theorem refs_vfsNodeAttach (here : v.nodes parent = some node) (gone : v.nodes new = none)
    (unheld : made.refCount = 0) (m : NodeId) :
    (vfsNodeAttach v parent new made).refs m = v.refs m := by
  rw [Vfs.refs, vfsNodeAttach_nodes here gone]
  split
  · next eq => rw [eq, Vfs.refs_none gone]; exact unheld
  · split
    · next eq => rw [eq, Vfs.refs_eq here]; rfl
    · rfl

/-- A childless node attached below `parent` is one deeper than it. -/
theorem Vfs.Tree.attach (tree : v.Tree depth) (here : v.nodes parent = some node)
    (gone : v.nodes new = none) (up : made.parent = some parent) (leaf : made.children = []) :
    (vfsNodeAttach v parent new made).Tree (Function.update depth new (depth parent + 1)) := by
  have off : parent ≠ new := by
    rintro rfl
    rw [gone] at here
    cases here
  have nodes := vfsNodeAttach_nodes here gone made
  have exist : ∀ m, (v.nodes m).isSome → ((vfsNodeAttach v parent new made).nodes m).isSome := by
    intro m found
    rw [nodes]
    split
    · rfl
    · split
      · rfl
      · exact found
  have notNew : ∀ m n, v.nodes m = some n → m ≠ new := by
    rintro m n found rfl
    rw [gone] at found
    cases found
  refine ⟨fun m found at_m c mem => ?_, fun m found p at_m above => ?_, fun r at_r => ?_⟩
  · have old : ∀ n, v.nodes m = some n → c ∈ n.children → ∃ child,
        (vfsNodeAttach v parent new made).nodes c = some child ∧ child.parent = some m := by
      intro n at_m mem
      obtain ⟨child, at_c, up⟩ := tree.child m n at_m c mem
      rw [nodes, if_neg (notNew c child at_c)]
      split
      · next eq =>
          subst eq
          rw [here] at at_c
          cases at_c
          exact ⟨_, rfl, up⟩
      · exact ⟨child, at_c, up⟩
    rw [nodes] at at_m
    split at at_m
    · cases at_m
      rw [leaf] at mem
      cases mem
    · split at at_m
      · next eq =>
          subst eq
          cases at_m
          cases mem with
          | head => exact ⟨made, by rw [nodes, if_pos rfl], up⟩
          | tail _ mem => exact old node here mem
      · exact old found at_m mem
  · have old : ∀ n, v.nodes m = some n → n.parent = some p →
        ((vfsNodeAttach v parent new made).nodes p).isSome ∧
        Function.update depth new (depth parent + 1) m =
          Function.update depth new (depth parent + 1) p + 1 := by
      intro n at_m above
      obtain ⟨there, deeper⟩ := tree.parent m n p at_m above
      obtain ⟨pn, at_p⟩ := Option.isSome_iff_exists.mp there
      rw [Function.update_of_ne (notNew m n at_m), Function.update_of_ne (notNew p pn at_p)]
      exact ⟨exist p there, deeper⟩
    rw [nodes] at at_m
    split at at_m
    · next eq =>
        subst eq
        cases at_m
        rw [up] at above
        cases above
        rw [Function.update_self, Function.update_of_ne off]
        exact ⟨exist parent (by rw [here]; rfl), rfl⟩
    · split at at_m
      · next eq =>
          subst eq
          cases at_m
          exact old node here above
      · exact old found at_m above
  · exact exist r (tree.root r at_r)

end

/-- What `vfs_node_get` finds or makes: a child of the parent, one deeper, with one more reference. -/
structure Got (v v' : Vfs) (depth depth' : NodeId → Nat) (parent child : NodeId) : Prop where
  tree : v'.Tree depth'
  agree : ∀ m, m = child ∨ depth' m = depth m
  deeper : depth' child = depth' parent + 1
  refs : ∀ m, v'.refs m = v.refs m + one (m = child)
  known : (v.nodes child).isSome → depth' child = depth child
  stays : ∀ m, (v.nodes m).isSome → (v'.nodes m).isSome
  childOf : ∃ node, v'.nodes parent = some node ∧ child ∈ node.children

/-- Counting the reference of a child that is there. -/
theorem Got.of_child {v : Vfs} {depth : NodeId → Nat} {parent c : NodeId} {node : VfsNode}
    (tree : v.Tree depth) (here : v.nodes parent = some node) (mem : c ∈ node.children) :
    Got v (vfsNodeHold (some c, v)).2 depth depth parent c := by
  obtain ⟨child, at_c, up⟩ := tree.child parent node here c mem
  refine ⟨tree.hold c, fun _ => .inr rfl, (tree.parent c child parent at_c up).2,
    refs_vfsNodeHold at_c, fun _ => rfl, fun m found => ?_, ?_⟩
  · exact (Vfs.Recounted.hold v c).isSome found
  · obtain ⟨count, now⟩ := (Vfs.Recounted.hold v c).found here
    exact ⟨_, now, mem⟩

/-- Counting the reference of a child that was just attached. -/
theorem Got.of_new {v : Vfs} {depth : NodeId → Nat} {parent new : NodeId} {node made : VfsNode}
    (tree : v.Tree depth) (here : v.nodes parent = some node) (gone : v.nodes new = none)
    (up : made.parent = some parent) (leaf : made.children = []) (unheld : made.refCount = 0) :
    Got v (vfsNodeHold (some new, vfsNodeAttach v parent new made)).2 depth
      (Function.update depth new (depth parent + 1)) parent new := by
  have off : parent ≠ new := by
    rintro rfl
    rw [gone] at here
    cases here
  have nodes := vfsNodeAttach_nodes here gone made
  have at_parent : (vfsNodeAttach v parent new made).nodes parent =
      some { node with children := new :: node.children } := by
    rw [nodes, if_neg off, if_pos rfl]
  have held := Got.of_child (tree.attach here gone up leaf) at_parent List.mem_cons_self
  refine ⟨held.tree, fun m => ?_, held.deeper, fun m => ?_, fun known => ?_, fun m found => ?_,
    held.childOf⟩
  · by_cases eq : m = new
    · exact .inl eq
    · exact .inr (Function.update_of_ne eq ..)
  · rw [held.refs, refs_vfsNodeAttach here gone unheld]
  · rw [gone] at known
    cases known
  · refine held.stays m ?_
    rw [nodes]
    split
    · rfl
    · split
      · rfl
      · exact found

theorem vfsNodeGet_got {env : VfsEnv} {v v' : Vfs} {depth : NodeId → Nat} {parent child : NodeId}
    {name : Name} (tree : v.Tree depth)
    (got : vfsNodeGet env v parent name = (some child, v')) :
    ∃ depth', Got v v' depth depth' parent child := by
  unfold vfsNodeGet at got
  split at got
  · cases got
  next node here =>
  dsimp only at got
  split at got
  · next c found =>
      cases got
      exact ⟨depth, .of_child tree here (List.mem_of_find?_eq_some found)⟩
  · unfold vfsNodeNew at got
    split at got
    · cases got
    next inode _ =>
    split at got
    · cases got
    next new alloc =>
    cases got
    have gone := env.alloc_fresh v _ alloc
    exact ⟨_, .of_new tree here gone rfl rfl rfl⟩

/-- A failed `vfs_node_get` changes nothing. -/
theorem vfsNodeGet_none {env : VfsEnv} {v v' : Vfs} {parent : NodeId} {name : Name}
    (got : vfsNodeGet env v parent name = (none, v')) : v' = v := by
  unfold vfsNodeGet at got
  split at got
  · cases got
    rfl
  next node here =>
  dsimp only at got
  split at got
  · cases got
  · unfold vfsNodeNew at got
    split at got
    · cases got
      rfl
    split at got
    · cases got
      rfl
    · cases got

/-- A put does not delete a node one of whose children is held. -/
theorem vfsNodePut_busy {v v' : Vfs} {fuel : Nat} {n c : NodeId} {node : VfsNode} {err : Int}
    (here : v.nodes n = some node) (mem : c ∈ node.children) (off : c ≠ n) (held : v.refs c ≠ 0)
    (done : vfsNodePut v fuel (some n) = some (err, v')) : v' = vfsNodeDrop v n := by
  cases fuel with
  | zero => simp [vfsNodePut] at done
  | succ fuel =>
      have dropped : (vfsNodeDrop v n).nodes n =
          some { node with refCount := node.refCount - 1 } := by
        simp [vfsNodeDrop, here]
      simp only [vfsNodePut, dropped] at done
      split at done
      · cases done
        rfl
      obtain ⟨deleteable, check, done⟩ := Option.bind_eq_some_iff.mp done
      split at done
      · next yes =>
          subst yes
          have unheld := vfsNodesDeleteable_refs check c mem
          rw [refs_vfsNodeDrop, one_false off] at unheld
          exact absurd unheld held
      · cases done
        rfl

/-! ## The lookup -/

/-- After going down, the put of the node left behind only drops its reference. -/
theorem vfsNodePut_after_get {env : VfsEnv} {v v₁ v₂ : Vfs} {depth : NodeId → Nat} {fuel : Nat}
    {cur child : NodeId} {name : Name} {err : Int} (tree : v.Tree depth)
    (get : vfsNodeGet env v cur name = (some child, v₁))
    (put : vfsNodePut v₁ fuel (some cur) = some (err, v₂)) : v₂ = vfsNodeDrop v₁ cur := by
  obtain ⟨depth', got⟩ := vfsNodeGet_got tree get
  obtain ⟨node, here, mem⟩ := got.childOf
  refine vfsNodePut_busy here mem ?_ ?_ put
  · rintro rfl
    have := got.deeper
    omega
  · rw [got.refs, one_true rfl]
    omega

/-- A lookup goes down from `cur` to `child`: it takes a reference there and gives one back here. -/
structure Descends (v v' : Vfs) (depth depth' : NodeId → Nat) (cur child : NodeId) : Prop where
  tree : v'.Tree depth'
  agree : ∀ m, m = child ∨ depth' m = depth m
  off : child ≠ cur
  refs : ∀ m, v'.refs m = v.refs m + one (m = child) - one (m = cur)
  known : (v.nodes child).isSome → depth' child = depth child
  stays : ∀ m, (v.nodes m).isSome → (v'.nodes m).isSome
  child : (v'.nodes child).isSome

theorem descends_of_get {env : VfsEnv} {v v₁ v₂ : Vfs} {depth : NodeId → Nat} {fuel : Nat}
    {cur child : NodeId} {name : Name} {err : Int} (tree : v.Tree depth)
    (get : vfsNodeGet env v cur name = (some child, v₁))
    (put : vfsNodePut v₁ fuel (some cur) = some (err, v₂)) :
    ∃ depth', Descends v v₂ depth depth' cur child := by
  obtain ⟨depth', got⟩ := vfsNodeGet_got tree get
  have off : child ≠ cur := by
    rintro rfl
    have := got.deeper
    omega
  have held : v₁.refs child ≠ 0 := by
    rw [got.refs, one_true rfl]
    omega
  obtain rfl := vfsNodePut_after_get tree get put
  have stays : ∀ m, (v₁.nodes m).isSome → ((vfsNodeDrop v₁ cur).nodes m).isSome :=
    fun _ => (Vfs.Recounted.drop v₁ cur).isSome
  refine ⟨depth', got.tree.drop cur, got.agree, off, fun m => ?_, got.known,
    fun m found => stays m (got.stays m found), ?_⟩
  · rw [refs_vfsNodeDrop, got.refs]
  · obtain ⟨node, found⟩ := Vfs.exists_of_refs held
    exact stays child (by rw [found]; rfl)

/-- The lookup takes `..` at a node with a parent, or meets a name that is too long. -/
def vfsLookupLeaks (env : VfsEnv) (fuel : Nat) : Nat → Vfs → NodeId → Name → Bool
  | 0, _, _, _ => false
  | steps + 1, v, cur, path =>
      if path = [] then false
      else
        match vfsPathNext path 0 with
        | none => true
        | some (name, path) =>
            if name = [] ∨ name = ['.'] then vfsLookupLeaks env fuel steps v cur path
            else if name = ['.', '.'] then
              ((v.nodes cur).bind VfsNode.parent).isSome || vfsLookupLeaks env fuel steps v cur path
            else
              match vfsNodeGet env v cur name with
              | (none, _) => false
              | (some next, v) =>
                  match vfsNodePut v fuel (some cur) with
                  | none => false
                  | some (_, v) => vfsLookupLeaks env fuel steps v next path

/-- `vfsLookupLeaks` from the root. -/
def vfsFindLeaks (env : VfsEnv) (fuel : Nat) (v : Vfs) (path : Name) : Bool :=
  match path with
  | '/' :: path =>
      match vfsNodeGetRoot v with
      | (none, _) => false
      | (some root, v) => vfsLookupLeaks env fuel path.length v root path
  | _ => false

/-- The lookup has left `lost` with `..` and no node deeper than it. -/
structure Climbed (before : NodeId → Nat) (v : Vfs) (depth : NodeId → Nat) (cur lost : NodeId) :
    Prop where
  absent : ∀ m, v.nodes m = none → before m = 0
  deepest : ∀ m, depth lost < depth m → before m + one (m = cur) ≤ v.refs m
  kept : before lost + 1 + one (lost = cur) ≤ v.refs lost

namespace Climbed

variable {before : NodeId → Nat} {v v' : Vfs} {depth depth' : NodeId → Nat} {cur child p lost : NodeId}

theorem down (climbed : Climbed before v depth cur lost)
    (step : Descends v v' depth depth' cur child) : Climbed before v' depth' child lost := by
  obtain ⟨absent, deepest, kept⟩ := climbed
  have same : depth' lost = depth lost := by
    obtain rfl | same := step.agree lost
    · obtain ⟨node, here⟩ := Vfs.exists_of_refs (v := v) (n := lost) (by omega)
      exact step.known (by rw [here]; rfl)
    · exact same
  refine ⟨fun m gone => ?_, fun m deeper => ?_, ?_⟩
  · cases there : v.nodes m with
    | none => exact absent m there
    | some node =>
        have := step.stays m (by rw [there]; rfl)
        rw [gone] at this
        cases this
  · rw [step.refs]
    by_cases eq : m = child
    · subst eq
      rw [one_true rfl, one_false step.off]
      cases there : v.nodes m with
      | none =>
          rw [absent m there]
          omega
      | some node =>
          have old := step.known (by rw [there]; rfl)
          have := deepest m (by omega)
          rw [one_false step.off] at this
          omega
    · obtain eq' | old := step.agree m
      · exact absurd eq' eq
      · have := deepest m (by omega)
        rw [one_false eq]
        omega
  · rw [step.refs]
    by_cases eq : lost = child
    · subst eq
      rw [one_true rfl, one_false step.off] at *
      omega
    · rw [one_false eq]
      omega

theorem arrived (climbed : Climbed before v depth cur lost) :
    before lost + 1 + one (some cur = some lost) ≤ v.refs lost := by
  have kept := climbed.kept
  simp only [one, Option.some.injEq, eq_comm (a := cur)] at kept ⊢
  exact kept

/-- Leaving a node upwards; the deepest node left so far keeps its surplus. -/
theorem up (climbed : Climbed before v depth cur lost) (deeper : depth cur = depth p + 1) :
    ∃ lost', Climbed before v depth p lost' := by
  obtain ⟨absent, deepest, kept⟩ := climbed
  have notParent : ∀ m, depth cur ≤ depth m → m ≠ p := by
    rintro m le rfl
    omega
  by_cases new : depth lost < depth cur
  · refine ⟨cur, absent, fun m below => ?_, ?_⟩
    · have := deepest m (by omega)
      rw [one_false (notParent m (by omega))]
      omega
    · have := deepest cur new
      rw [one_true rfl] at this
      rw [one_false (notParent cur (Nat.le_refl _))]
      omega
  · refine ⟨lost, absent, fun m below => ?_, ?_⟩
    · have := deepest m below
      rw [one_false (notParent m (by omega))]
      omega
    · rw [one_false (notParent lost (by omega))]
      omega

end Climbed

/-- The counts behind a lookup: one more at the result, or some count too high. -/
def LookupRefs (leaks : Bool) (before : NodeId → Nat) (after : Vfs) (result : Option NodeId) : Prop :=
  match leaks with
  | true => ∃ m, before m + 1 + one (result = some m) ≤ after.refs m
  | false => ∀ m, after.refs m = before m + one (result = some m)

/-- Dropping the reference at the result. -/
theorem LookupRefs.drop {leaks : Bool} {before : NodeId → Nat} {after dropped : Vfs} {n : NodeId}
    (refs : LookupRefs leaks before after (some n))
    (drop : ∀ m, dropped.refs m = after.refs m - one (m = n)) :
    LookupRefs leaks before dropped none := by
  have same : ∀ m, one (some n = some m) = one (m = n) := by
    intro m
    simp only [one, Option.some.injEq, eq_comm (a := n)]
  have none : ∀ m, one ((none : Option NodeId) = some m) = 0 := fun m => one_false (by simp)
  cases leaks with
  | true =>
      obtain ⟨m, kept⟩ := refs
      refine ⟨m, ?_⟩
      rw [same] at kept
      rw [drop, none]
      omega
  | false =>
      intro m
      have here := refs m
      rw [same] at here
      rw [drop, none]
      omega

/-- Without a reference at the result, the counts are unchanged exactly if the lookup did not leak. -/
theorem LookupRefs.unchanged_iff {leaks : Bool} {before : NodeId → Nat} {after : Vfs}
    (refs : LookupRefs leaks before after none) : (∀ m, after.refs m = before m) ↔ leaks = false := by
  have none : ∀ m, one ((none : Option NodeId) = some m) = 0 := fun m => one_false (by simp)
  cases leaks with
  | true =>
      obtain ⟨m, kept⟩ := refs
      constructor
      · intro same
        rw [same m, none] at kept
        omega
      · exact nofun
  | false =>
      refine ⟨fun _ => rfl, fun _ m => ?_⟩
      rw [refs m, none, Nat.add_zero]

/-- With a reference at the result some count has changed. -/
theorem LookupRefs.changed {leaks : Bool} {before : NodeId → Nat} {after : Vfs} {n : NodeId}
    (refs : LookupRefs leaks before after (some n)) : ∃ m, after.refs m ≠ before m := by
  cases leaks with
  | true =>
      obtain ⟨m, kept⟩ := refs
      exact ⟨m, by omega⟩
  | false =>
      refine ⟨n, ?_⟩
      rw [refs n, one_true rfl]
      omega

section

variable {env : VfsEnv} {fuel steps : Nat} {v v' : Vfs} {depth before : NodeId → Nat}
  {cur : NodeId} {path : Name} {result : Option NodeId}

theorem vfsFindLoop_climbed {lost : NodeId} (tree : v.Tree depth)
    (climbed : Climbed before v depth cur lost)
    (done : vfsFindLoop env fuel steps v cur path = some (result, v')) :
    ∃ m, before m + 1 + one (result = some m) ≤ v'.refs m := by
  induction steps generalizing v cur path depth lost with
  | zero =>
      cases done
      exact ⟨lost, climbed.arrived⟩
  | succ steps ih =>
      simp only [vfsFindLoop] at done
      split at done
      · cases done
        exact ⟨lost, climbed.arrived⟩
      split at done
      · cases done
        refine ⟨lost, ?_⟩
        have kept := climbed.kept
        rw [one_false (by simp)]
        omega
      next name rest _ =>
      split at done
      · exact ih tree climbed done
      split at done
      · obtain ⟨node, here, done⟩ := Option.bind_eq_some_iff.mp done
        cases up : node.parent with
        | none =>
            rw [up] at done
            exact ih tree climbed done
        | some p =>
            rw [up] at done
            obtain ⟨lost', climbed'⟩ := climbed.up (tree.parent cur node p here up).2
            exact ih tree climbed' done
      · rcases get : vfsNodeGet env v cur name with ⟨found, v₁⟩
        rw [get] at done
        obtain ⟨⟨err, v₂⟩, put, done⟩ := Option.bind_eq_some_iff.mp done
        cases found with
        | none =>
            cases done
            obtain rfl := vfsNodeGet_none get
            refine ⟨lost, ?_⟩
            have kept := climbed.kept
            have dropped := vfsNodePut_refs put lost
            dsimp only at dropped
            rw [dropped, one_false (by simp)]
            omega
        | some next =>
            obtain ⟨depth', step⟩ := descends_of_get tree get put
            exact ih step.tree (climbed.down step) done

/-- A lookup that holds one reference at `cur` ends with one reference at its result, unless it
    leaks; then some node keeps a reference too many. -/
theorem vfsFindLoop_refs (tree : v.Tree depth) (exact : ∀ m, v.refs m = before m + one (m = cur))
    (done : vfsFindLoop env fuel steps v cur path = some (result, v')) :
    LookupRefs (vfsLookupLeaks env fuel steps v cur path) before v' result := by
  have arrived : ∀ (v : Vfs) cur, (∀ m, v.refs m = before m + one (m = cur)) →
      ∀ m, v.refs m = before m + one (some cur = some m) := by
    intro v cur exact m
    simp only [exact m, one, Option.some.injEq, eq_comm (a := cur)]
  induction steps generalizing v cur path depth with
  | zero =>
      cases done
      exact arrived _ cur exact
  | succ steps ih =>
      simp only [vfsFindLoop, vfsLookupLeaks] at done ⊢
      split at done
      · next ended =>
          cases done
          rw [if_pos ended]
          exact arrived _ cur exact
      next more =>
      rw [if_neg more]
      rcases parsed : vfsPathNext path 0 with _ | ⟨name, rest⟩
      · rw [parsed] at done
        cases done
        refine ⟨cur, ?_⟩
        have held := exact cur
        rw [one_true rfl] at held
        rw [one_false (by simp)]
        omega
      rw [parsed] at done
      simp only at done ⊢
      split at done
      · next skip =>
          simp only [skip, if_true]
          exact ih tree exact done
      next notDot =>
      simp only [notDot, if_false]
      split at done
      · next dots =>
          simp only [dots, if_true]
          obtain ⟨node, here, done⟩ := Option.bind_eq_some_iff.mp done
          cases up : node.parent with
          | none =>
              rw [up] at done
              simp only [here, Option.bind_some, up, Option.isSome_none, Bool.false_or]
              exact ih tree exact done
          | some p =>
              rw [up, Option.getD_some] at done
              have deeper := (tree.parent cur node p here up).2
              simp only [here, Option.bind_some, up, Option.isSome_some, Bool.true_or]
              refine @vfsFindLoop_climbed _ _ _ _ _ _ _ _ _ _ cur tree
                ⟨fun m gone => ?_, fun m below => ?_, ?_⟩ done
              · have := exact m
                rw [Vfs.refs_none gone] at this
                omega
              · have off : m ≠ p := by
                  rintro rfl
                  omega
                rw [exact, one_false off]
                omega
              · have off : cur ≠ p := by
                  rintro rfl
                  omega
                have held := exact cur
                rw [one_true rfl] at held
                rw [one_false off]
                omega
      · next notDots =>
          simp only [notDots, if_false]
          rcases get : vfsNodeGet env v cur name with ⟨found, v₁⟩
          rw [get] at done
          obtain ⟨⟨err, v₂⟩, put, done⟩ := Option.bind_eq_some_iff.mp done
          cases found with
          | none =>
              cases done
              obtain rfl := vfsNodeGet_none get
              intro m
              have dropped := vfsNodePut_refs put m
              dsimp only at dropped
              have empty : one ((none : Option NodeId) = some m) = 0 := one_false (by simp)
              rw [dropped, exact, empty]
              omega
          | some next =>
              obtain ⟨depth', step⟩ := descends_of_get tree get put
              dsimp only at put
              simp only [put]
              refine ih step.tree (fun m => ?_) done
              rw [step.refs, exact]
              omega

/-- A lookup conserves the references, up to the one at its result, exactly when it does not leak. -/
theorem vfsFind_refs (tree : v.Tree depth) (done : vfsFind env fuel v path = some (result, v')) :
    LookupRefs (vfsFindLeaks env fuel v path) v.refs v' result := by
  unfold vfsFind at done
  split at done
  · next path =>
      cases root : v.root with
      | none =>
          simp only [vfsNodeGetRoot, root, vfsNodeHold] at done
          cases done
          simp [LookupRefs, vfsFindLeaks, vfsNodeGetRoot, root, vfsNodeHold, one]
      | some r =>
          obtain ⟨node, here⟩ := Option.isSome_iff_exists.mp (tree.root r root)
          have held := tree.hold r
          have count := refs_vfsNodeHold here
          simp only [vfsNodeGetRoot, root, vfsNodeHold, vfsFindLeaks] at done held count ⊢
          exact vfsFindLoop_refs held count done
  · next notAbsolute =>
      cases done
      have : vfsFindLeaks env fuel v path = false := by
        unfold vfsFindLeaks
        split
        · next rest => exact absurd rfl (notAbsolute rest)
        · rfl
      simp [LookupRefs, this, one]

/-- A failed `vfs_open` keeps every count exactly when the lookup does not leak; one that succeeds
    keeps a reference at its node. -/
theorem vfsOpen_refs (tree : v.Tree depth) {err : Int}
    (done : vfsOpen env fuel v path = some (err, result, v')) :
    LookupRefs (vfsFindLeaks env fuel v path) v.refs v' (if err = 0 then result else none) := by
  unfold vfsOpen at done
  split at done
  · next empty =>
      cases done
      subst empty
      simp [LookupRefs, vfsFindLeaks, one]
  obtain ⟨⟨found, v₁⟩, find, done⟩ := Option.bind_eq_some_iff.mp done
  have refs := vfsFind_refs tree find
  cases found with
  | none =>
      cases done
      exact refs
  | some n =>
      obtain ⟨node, here, done⟩ := Option.bind_eq_some_iff.mp done
      dsimp only at done
      split at done
      · next failed =>
          obtain ⟨⟨err', v₂⟩, put, done⟩ := Option.bind_eq_some_iff.mp done
          cases done
          rw [if_neg failed]
          exact refs.drop (vfsNodePut_refs put)
      · next opened =>
          cases done
          exact refs

/-- A lookup conserves references: a node that was there has one more if it is the result and
    is unchanged if not, and of the nodes that the lookup made only the result has one. -/
structure LookupConserves (v v' : Vfs) (result : Option NodeId) : Prop where
  existing : ∀ m, (v.nodes m).isSome → v'.refs m = v.refs m + one (result = some m)
  made : ∀ m, v.nodes m = none → v'.refs m = one (result = some m)

theorem lookupConserves_iff : LookupConserves v v' result ↔
    ∀ m, v'.refs m = v.refs m + one (result = some m) := by
  constructor
  · intro conserves m
    cases here : v.nodes m with
    | none => rw [conserves.made m here, Vfs.refs_none here, Nat.zero_add]
    | some node => exact conserves.existing m (by rw [here]; rfl)
  · intro every
    refine ⟨fun m _ => every m, fun m gone => ?_⟩
    rw [every m, Vfs.refs_none gone, Nat.zero_add]

/-- A lookup conserves the references exactly when it takes no `..` at a node with a parent and
    meets no name that is too long. -/
theorem vfsFind_conserves_iff (tree : v.Tree depth)
    (done : vfsFind env fuel v path = some (result, v')) :
    LookupConserves v v' result ↔ vfsFindLeaks env fuel v path = false := by
  have refs := vfsFind_refs tree done
  rw [lookupConserves_iff]
  cases leaks : vfsFindLeaks env fuel v path with
  | true =>
      rw [leaks] at refs
      obtain ⟨m, kept⟩ := refs
      refine ⟨fun every => ?_, nofun⟩
      have := every m
      omega
  | false =>
      rw [leaks] at refs
      exact ⟨fun _ => rfl, fun _ => refs⟩

end

/-! ## A directory below the root -/

/-- The root, held by its mount, and its child `a`. -/
def oneDir : Vfs where
  nodes := fun n =>
    if n = 1 then some { (default : VfsNode) with refCount := 1, children := [2] }
    else if n = 2 then some { (default : VfsNode) with name := ['a'], parent := some 1 }
    else none
  root := some 1

theorem oneDir_tree : oneDir.Tree fun n => if n = 2 then 1 else 0 where
  child n node here c mem := by
    simp only [oneDir] at here ⊢
    split at here
    · next root =>
        cases here
        obtain rfl := List.mem_singleton.mp mem
        exact ⟨_, rfl, by rw [root]⟩
    · split at here
      · cases here
        cases mem
      · cases here
  parent n node p here up := by
    simp only [oneDir] at here ⊢
    split at here
    · cases here
      cases up
    · split at here
      · next child =>
          cases here
          cases up
          exact ⟨rfl, by rw [child]; rfl⟩
      · cases here
  root r here := by
    cases here
    rfl

/-- No file system has an operation, and no memory is left. -/
def noFsEnv : VfsEnv := ⟨fun _ => ⟨none, none, none⟩, fun _ => none, noMemory_fresh⟩

theorem vfsFind_conserves_oneDir : ∃ v', vfsFind noFsEnv 4 oneDir ['/', 'a'] = some (some 2, v') ∧
    LookupConserves oneDir v' (some 2) := by
  obtain ⟨⟨result, v'⟩, find, eq⟩ := Option.map_eq_some_iff.mp
    (show (vfsFind noFsEnv 4 oneDir ['/', 'a']).map Prod.fst = some (some 2) by decide)
  obtain rfl : result = some 2 := eq
  exact ⟨v', find, (vfsFind_conserves_iff oneDir_tree find).mpr (by decide)⟩

/-- The lookup of `/a/..` leaves a reference at `a`, which was there before. -/
theorem not_vfsFind_conserves : ∃ result v',
    vfsFind noFsEnv 4 oneDir ['/', 'a', '/', '.', '.'] = some (result, v') ∧
      ∃ m, (oneDir.nodes m).isSome ∧ v'.refs m ≠ oneDir.refs m + one (result = some m) := by
  obtain ⟨⟨result, v'⟩, find, eq⟩ := Option.map_eq_some_iff.mp
    (show (vfsFind noFsEnv 4 oneDir ['/', 'a', '/', '.', '.']).map
      (fun r => (r.1, r.2.refs 2)) = some (some 1, 1) by decide)
  obtain ⟨rfl, refs⟩ : result = some 1 ∧ v'.refs 2 = 1 := by simpa using eq
  refine ⟨_, v', find, 2, rfl, ?_⟩
  rw [refs]
  decide

end Sdx.Fs
