import Mathlib.Data.List.Nodup
import Sdx.Fs.VfsRefs
import Sdx.Lib.Fuel

/-! # Putting a node back returns

In a sound tree `vfs_node_put` ends: both recursions follow children, and there are only so
many nodes below one another. It deletes a node only together with an empty list of children,
since its loop over the children ends with a put of `NULL`, and it leaves a sound tree.
-/

namespace Sdx.Fs

open Sdx.Lib

/-- The name of a node. -/
def Vfs.nameOf (v : Vfs) (n : NodeId) : Option Name := (v.nodes n).map VfsNode.name

/-- The tree as the VFS builds it. -/
structure Vfs.Sound (v : Vfs) (depth : NodeId → Nat) : Prop where
  tree : v.Tree depth
  linked : ∀ n node p, v.nodes n = some node → node.parent = some p →
    ∃ above, v.nodes p = some above ∧ n ∈ above.children
  top : ∀ r node, v.root = some r → v.nodes r = some node → node.parent = none
  named : ∀ n node, v.nodes n = some node → (node.children.map v.nameOf).Nodup
  fits : ∀ n node, v.nodes n = some node → node.name.length ≤ nameMax
  finite : ∃ limit : Nat, ∀ n : Nat, (v.nodes n).isSome → n < limit

/-- What the pointers of a tree are good for, whatever its nodes are called. -/
structure Vfs.Shaped (v : Vfs) (depth : NodeId → Nat) : Prop where
  tree : v.Tree depth
  siblings : ∀ n node, v.nodes n = some node → node.children.Nodup
  finite : ∃ limit : Nat, ∀ n : Nat, (v.nodes n).isSome → n < limit

/-- There are only so many nodes below one another. -/
theorem Vfs.Shaped.shallow {v : Vfs} {depth : NodeId → Nat} (shaped : v.Shaped depth) :
    ∃ bottom, ∀ n, (v.nodes n).isSome → depth n < bottom := by
  obtain ⟨limit, finite⟩ := shaped.finite
  have below : ∀ limit : Nat, ∃ bottom, ∀ n : Nat, n < limit → depth n < bottom := by
    intro limit
    induction limit with
    | zero => exact ⟨0, nofun⟩
    | succ limit ih =>
        obtain ⟨bottom, below⟩ := ih
        refine ⟨max bottom (depth limit + 1), fun n lt => ?_⟩
        by_cases last : n = limit
        · subst last
          omega
        · have := below n (by omega)
          omega
  obtain ⟨bottom, below⟩ := below limit
  exact ⟨bottom, fun n here => below n (finite n here)⟩

/-! ## Soundness -/

/-- Name, parent and children. -/
def VfsNode.links (node : VfsNode) : Name × Option NodeId × List NodeId :=
  (node.name, node.parent, node.children)

/-- The nodes have the same names, parents and children. -/
structure Vfs.SameLinks (v w : Vfs) : Prop where
  root : w.root = v.root
  nodes : ∀ n, (w.nodes n).map VfsNode.links = (v.nodes n).map VfsNode.links

namespace Vfs.SameLinks

variable {v w u : Vfs} {n : NodeId} {node : VfsNode}

theorem symm (same : v.SameLinks w) : w.SameLinks v :=
  ⟨same.root.symm, fun n => (same.nodes n).symm⟩

theorem trans (same : v.SameLinks w) (same' : w.SameLinks u) : v.SameLinks u :=
  ⟨same'.root.trans same.root, fun n => (same'.nodes n).trans (same.nodes n)⟩

theorem found (same : v.SameLinks w) (here : v.nodes n = some node) :
    ∃ new, w.nodes n = some new ∧ new.name = node.name ∧ new.parent = node.parent ∧
      new.children = node.children := by
  have links := same.nodes n
  rw [here, Option.map_some, Option.map_eq_some_iff] at links
  obtain ⟨new, now, eq⟩ := links
  simp only [VfsNode.links, Prod.mk.injEq] at eq
  exact ⟨new, now, eq.1, eq.2.1, eq.2.2⟩

theorem isSome (same : v.SameLinks w) (here : (v.nodes n).isSome) : (w.nodes n).isSome := by
  obtain ⟨node, here⟩ := Option.isSome_iff_exists.mp here
  obtain ⟨new, now, -⟩ := same.found here
  rw [now]
  rfl

theorem nameOf (same : v.SameLinks w) (n : NodeId) : w.nameOf n = v.nameOf n := by
  have links := congrArg (Option.map Prod.fst) (same.nodes n)
  rwa [Option.map_map, Option.map_map] at links

theorem refl (v : Vfs) : v.SameLinks v := ⟨rfl, fun _ => rfl⟩

/-- A write that keeps name, parent and children of a node. -/
theorem setNode (same : v.SameLinks w) {f : VfsNode → VfsNode}
    (keep : ∀ node, (f node).links = node.links) : v.SameLinks (w.setNode n f) := by
  refine ⟨same.root, fun m => ?_⟩
  rw [← same.nodes m]
  by_cases eq : m = n
  · subst eq
    rw [setNode_nodes_same, Option.map_map]
    exact congrArg (fun g => Option.map g (w.nodes m)) (funext keep)
  · rw [setNode_nodes_other eq]

end Vfs.SameLinks

theorem Vfs.Recounted.sameLinks {v w : Vfs} (same : v.Recounted w) : v.SameLinks w := by
  refine ⟨same.root, fun n => ?_⟩
  obtain ⟨count, now⟩ := same.nodes n
  rw [now, Option.map_map]
  rfl

theorem Vfs.Recounted.nameOf {v w : Vfs} (same : v.Recounted w) (n : NodeId) :
    w.nameOf n = v.nameOf n := same.sameLinks.nameOf n

namespace Vfs.Sound

variable {v w : Vfs} {depth : NodeId → Nat} {n parent new : NodeId} {node made : VfsNode}

theorem nodup (sound : v.Sound depth) (here : v.nodes n = some node) : node.children.Nodup :=
  List.Nodup.of_map _ (sound.named n node here)

theorem shaped (sound : v.Sound depth) : v.Shaped depth :=
  ⟨sound.tree, fun _ _ here => sound.nodup here, sound.finite⟩

theorem relinked (sound : v.Sound depth) (same : v.SameLinks w) : w.Sound depth := by
  refine ⟨⟨fun m node here c mem => ?_, fun m node p here up => ?_, fun r here => ?_⟩,
    fun n node p here up => ?_, fun r node root here => ?_, fun n node here => ?_,
    fun n node here => ?_, ?_⟩
  · obtain ⟨old, was, -, -, children⟩ := same.symm.found here
    obtain ⟨child, found, up⟩ := sound.tree.child m old was c (children ▸ mem)
    obtain ⟨new, now, -, up', -⟩ := same.found found
    exact ⟨new, now, up'.trans up⟩
  · obtain ⟨old, was, -, parent, -⟩ := same.symm.found here
    obtain ⟨above, deeper⟩ := sound.tree.parent m old p was (parent.trans up)
    exact ⟨same.isSome above, deeper⟩
  · exact same.isSome (sound.tree.root r (same.root ▸ here))
  · obtain ⟨old, was, -, parent, -⟩ := same.symm.found here
    obtain ⟨above, there, mem⟩ := sound.linked n old p was (parent.trans up)
    obtain ⟨new, now, -, -, children⟩ := same.found there
    exact ⟨new, now, children ▸ mem⟩
  · obtain ⟨old, was, -, parent, -⟩ := same.symm.found here
    exact parent ▸ sound.top r old (same.root ▸ root) was
  · obtain ⟨old, was, -, -, children⟩ := same.symm.found here
    have names : w.nameOf = v.nameOf := funext same.nameOf
    rw [names, ← children]
    exact sound.named n old was
  · obtain ⟨old, was, name, -⟩ := same.symm.found here
    exact name ▸ sound.fits n old was
  · obtain ⟨limit, finite⟩ := sound.finite
    exact ⟨limit, fun n here => finite n (same.symm.isSome here)⟩

theorem recounted (sound : v.Sound depth) (same : v.Recounted w) : w.Sound depth :=
  sound.relinked same.sameLinks

theorem drop (sound : v.Sound depth) (n : NodeId) : (vfsNodeDrop v n).Sound depth :=
  sound.recounted (.drop v n)

/-- Attaching a childless node under a name no other child has. -/
theorem attach (sound : v.Sound depth) (here : v.nodes parent = some node)
    (gone : v.nodes new = none) (up : made.parent = some parent) (leaf : made.children = [])
    (short : made.name.length ≤ nameMax)
    (unnamed : ∀ c ∈ node.children, v.nameOf c ≠ some made.name) :
    (vfsNodeAttach v parent new made).Sound
      (Function.update depth new (depth parent + 1)) := by
  have nodes := vfsNodeAttach_nodes here gone made
  have notNew : ∀ m n, v.nodes m = some n → m ≠ new := by
    rintro m n found rfl
    rw [gone] at found
    cases found
  have off := notNew parent node here
  have at_new : (vfsNodeAttach v parent new made).nodes new = some made := by
    rw [nodes, if_pos rfl]
  have at_parent : (vfsNodeAttach v parent new made).nodes parent =
      some { node with children := new :: node.children } := by
    rw [nodes, if_neg off, if_pos rfl]
  have elsewhere : ∀ m, m ≠ new → m ≠ parent →
      (vfsNodeAttach v parent new made).nodes m = v.nodes m := by
    intro m notNew notParent
    rw [nodes, if_neg notNew, if_neg notParent]
  have names : ∀ m, m ≠ new → (vfsNodeAttach v parent new made).nameOf m = v.nameOf m := by
    intro m notNew
    by_cases eq : m = parent
    · subst eq
      rw [nameOf, at_parent, nameOf, here]
      rfl
    · rw [nameOf, elsewhere m notNew eq, nameOf]
  have oldNames : ∀ m n, v.nodes m = some n → n.children.map
      (vfsNodeAttach v parent new made).nameOf = n.children.map v.nameOf := by
    intro m n at_m
    refine List.map_congr_left fun c mem => names c ?_
    obtain ⟨child, at_c, -⟩ := sound.tree.child m n at_m c mem
    exact notNew c child at_c
  refine ⟨sound.tree.attach here gone up leaf, fun m found p at_m above => ?_,
    fun r found root at_r => ?_, fun m found at_m => ?_, fun m found at_m => ?_, ?_⟩
  · have old : ∀ n, v.nodes m = some n → n.parent = some p → ∃ above,
        (vfsNodeAttach v parent new made).nodes p = some above ∧ m ∈ above.children := by
      intro n at_m above
      obtain ⟨pn, at_p, mem⟩ := sound.linked m n p at_m above
      by_cases eq : p = parent
      · subst eq
        rw [here] at at_p
        cases at_p
        exact ⟨_, at_parent, List.mem_cons_of_mem _ mem⟩
      · exact ⟨pn, by rw [elsewhere p (notNew p pn at_p) eq, at_p], mem⟩
    by_cases eq : m = new
    · subst eq
      rw [at_new] at at_m
      cases at_m
      rw [up] at above
      cases above
      exact ⟨_, at_parent, List.mem_cons_self⟩
    · by_cases eq' : m = parent
      · subst eq'
        rw [at_parent] at at_m
        cases at_m
        exact old node here above
      · rw [elsewhere m eq eq'] at at_m
        exact old found at_m above
  · have root' : v.root = some r := root
    obtain ⟨old, at_r'⟩ := Option.isSome_iff_exists.mp (sound.tree.root r root')
    have none := sound.top r old root' at_r'
    by_cases eq : r = parent
    · subst eq
      rw [at_parent] at at_r
      rw [here] at at_r'
      cases at_r
      cases at_r'
      exact none
    · rw [elsewhere r (notNew r old at_r') eq, at_r'] at at_r
      cases at_r
      exact none
  · by_cases eq : m = new
    · subst eq
      rw [at_new] at at_m
      cases at_m
      rw [leaf]
      exact .nil
    · by_cases eq' : m = parent
      · subst eq'
        rw [at_parent] at at_m
        cases at_m
        rw [List.map_cons, oldNames m node here]
        refine List.nodup_cons.mpr ⟨fun mem => ?_, sound.named m node here⟩
        obtain ⟨c, mem, same⟩ := List.mem_map.mp mem
        refine unnamed c mem ?_
        rw [same, nameOf, at_new]
        rfl
      · rw [elsewhere m eq eq'] at at_m
        rw [oldNames m found at_m]
        exact sound.named m found at_m
  · by_cases eq : m = new
    · subst eq
      rw [at_new] at at_m
      cases at_m
      exact short
    · by_cases eq' : m = parent
      · subst eq'
        rw [at_parent] at at_m
        cases at_m
        exact sound.fits m node here
      · rw [elsewhere m eq eq'] at at_m
        exact sound.fits m found at_m
  · obtain ⟨limit, finite⟩ := sound.finite
    refine ⟨max limit (Nat.succ new), fun m found => ?_⟩
    by_cases eq : m = new
    · omega
    · by_cases eq' : m = parent
      · have := finite m (by rw [eq', here]; rfl)
        omega
      · rw [elsewhere m eq eq'] at found
        have := finite m found
        omega

end Vfs.Sound

theorem vfsNodeDelete_nodes (v : Vfs) (n : NodeId) (node : VfsNode) (m : NodeId) :
    (vfsNodeDelete v n node).nodes m =
      if m = n then none
      else if node.parent = some m then
        (v.nodes m).map fun p => { p with children := p.children.erase n }
      else v.nodes m := by
  by_cases eq : m = n
  · simp [vfsNodeDelete, eq]
  · cases up : node.parent with
    | none => simp [vfsNodeDelete, up, eq]
    | some p =>
        by_cases eq' : m = p
        · subst eq'
          simp [vfsNodeDelete, up, eq]
        · have eq'' : p ≠ m := fun same => eq' same.symm
          simp [vfsNodeDelete, up, eq, eq', eq'']

/-- Deleting a childless node. -/
theorem Vfs.Sound.delete {v : Vfs} {depth : NodeId → Nat} {n : NodeId} {node : VfsNode}
    (sound : v.Sound depth) (here : v.nodes n = some node) (leaf : node.children = []) :
    (vfsNodeDelete v n node).Sound depth := by
  have nodes := vfsNodeDelete_nodes v n node
  -- What is left of a node.
  have back : ∀ m new, (vfsNodeDelete v n node).nodes m = some new → m ≠ n ∧ ∃ old,
      v.nodes m = some old ∧ new.parent = old.parent ∧ new.name = old.name ∧
      (∀ c ∈ new.children, c ∈ old.children ∧ c ≠ n) ∧ new.children.Sublist old.children := by
    intro m new at_m
    rw [nodes] at at_m
    split at at_m
    · cases at_m
    next off =>
    refine ⟨off, ?_⟩
    split at at_m
    · obtain ⟨old, was, rfl⟩ := Option.map_eq_some_iff.mp at_m
      refine ⟨old, was, rfl, rfl, fun c mem => ⟨List.mem_of_mem_erase mem, ?_⟩,
        List.erase_sublist⟩
      rintro rfl
      exact (sound.nodup was).not_mem_erase mem
    next notParent =>
    refine ⟨new, at_m, rfl, rfl, fun c mem => ⟨mem, ?_⟩, .refl _⟩
    rintro rfl
    obtain ⟨child, at_c, up⟩ := sound.tree.child m new at_m c mem
    rw [here] at at_c
    cases at_c
    exact notParent up
  have forth : ∀ m old, v.nodes m = some old → m ≠ n → ∃ new,
      (vfsNodeDelete v n node).nodes m = some new ∧ new.parent = old.parent ∧
      new.name = old.name ∧ ∀ c ∈ old.children, c ≠ n → c ∈ new.children := by
    intro m old at_m off
    rw [nodes, if_neg off]
    split
    · rw [at_m]
      exact ⟨_, rfl, rfl, rfl, fun c mem off => (List.mem_erase_of_ne off).mpr mem⟩
    · exact ⟨old, at_m, rfl, rfl, fun c mem _ => mem⟩
  refine ⟨⟨fun m found at_m c mem => ?_, fun m found p at_m up => ?_, fun r root => ?_⟩,
    fun m found p at_m up => ?_, fun r found root at_r => ?_, fun m found at_m => ?_,
    fun m found at_m => ?_, ?_⟩
  · obtain ⟨-, old, at_m, -, -, children, -⟩ := back m found at_m
    obtain ⟨mem, off⟩ := children c mem
    obtain ⟨child, at_c, up⟩ := sound.tree.child m old at_m c mem
    obtain ⟨now, at_c, up', -⟩ := forth c child at_c off
    exact ⟨now, at_c, up'.trans up⟩
  · obtain ⟨-, old, at_m, up', -⟩ := back m found at_m
    obtain ⟨above, at_p, mem⟩ := sound.linked m old p at_m (up'.symm.trans up)
    have off : p ≠ n := by
      rintro rfl
      rw [here] at at_p
      cases at_p
      rw [leaf] at mem
      cases mem
    obtain ⟨now, at_p, -⟩ := forth p above at_p off
    exact ⟨by rw [at_p]; rfl, (sound.tree.parent m old p at_m (up'.symm.trans up)).2⟩
  · cases up : node.parent with
    | none => simp [vfsNodeDelete, up] at root
    | some p =>
        have was : v.root = some r := by simpa [vfsNodeDelete, up] using root
        obtain ⟨old, at_r⟩ := Option.isSome_iff_exists.mp (sound.tree.root r was)
        have off : r ≠ n := by
          rintro rfl
          rw [sound.top r node was here] at up
          cases up
        obtain ⟨now, at_r, -⟩ := forth r old at_r off
        rw [at_r]
        rfl
  · obtain ⟨off, old, at_m, up', -⟩ := back m found at_m
    obtain ⟨above, at_p, mem⟩ := sound.linked m old p at_m (up'.symm.trans up)
    have notLeaf : p ≠ n := by
      rintro rfl
      rw [here] at at_p
      cases at_p
      rw [leaf] at mem
      cases mem
    obtain ⟨now, at_p, -, -, children⟩ := forth p above at_p notLeaf
    exact ⟨now, at_p, children m mem off⟩
  · obtain ⟨-, old, at_r, up, -⟩ := back r found at_r
    rw [up]
    refine sound.top r old ?_ at_r
    cases up : node.parent with
    | none => simp [vfsNodeDelete, up] at root
    | some p => simpa [vfsNodeDelete, up] using root
  · obtain ⟨-, old, at_m, -, -, children, sublist⟩ := back m found at_m
    have names : found.children.map (vfsNodeDelete v n node).nameOf =
        found.children.map v.nameOf := by
      refine List.map_congr_left fun c mem => ?_
      obtain ⟨mem, off⟩ := children c mem
      obtain ⟨child, at_c, -⟩ := sound.tree.child m old at_m c mem
      obtain ⟨now, at_c', -, name, -⟩ := forth c child at_c off
      rw [nameOf, nameOf, at_c, at_c', Option.map_some, name]
      rfl
    rw [names]
    exact (sublist.map v.nameOf).nodup (sound.named m old at_m)
  · obtain ⟨-, old, at_m, -, name, -⟩ := back m found at_m
    exact name ▸ sound.fits m old at_m
  · obtain ⟨limit, finite⟩ := sound.finite
    refine ⟨limit, fun m found => ?_⟩
    obtain ⟨new, at_m⟩ := Option.isSome_iff_exists.mp found
    obtain ⟨-, old, at_m, -⟩ := back m new at_m
    exact finite m (by rw [at_m]; rfl)

/-! ## The recursions end -/

theorem vfsNodesDeleteable_returns {v : Vfs} {depth : NodeId → Nat} (tree : v.Tree depth)
    (height : Nat) (l : List NodeId) (exist : ∀ c ∈ l, (v.nodes c).isSome)
    (low : ∀ c ∈ l, ∀ m, (v.nodes m).isSome → depth m < depth c + height) :
    ∃ deleteable, Returns (fun fuel => vfsNodesDeleteable v fuel l) deleteable := by
  induction height generalizing l with
  | zero =>
      cases l with
      | nil => exact ⟨true, .step (fun _ => rfl) (.const true)⟩
      | cons c l =>
          have := low c List.mem_cons_self c (exist c List.mem_cons_self)
          omega
  | succ height ih =>
      induction l with
      | nil => exact ⟨true, .step (fun _ => rfl) (.const true)⟩
      | cons c siblings next =>
          obtain ⟨node, here⟩ := Option.isSome_iff_exists.mp (exist c List.mem_cons_self)
          by_cases held : node.refCount ≠ 0
          · refine ⟨false, .step (fun fuel => ?_) (.const false)⟩
            simp [vfsNodesDeleteable, here, held]
          · obtain ⟨below, children⟩ := ih node.children
              (fun d mem => by
                obtain ⟨child, at_d, -⟩ := tree.child c node here d mem
                rw [at_d]
                rfl)
              (fun d mem m found => by
                obtain ⟨child, at_d, up⟩ := tree.child c node here d mem
                have deeper := (tree.parent d child c at_d up).2
                have := low c List.mem_cons_self m found
                omega)
            obtain ⟨beside, rest⟩ := next (fun d mem => exist d (List.mem_cons_of_mem _ mem))
              (fun d mem => low d (List.mem_cons_of_mem _ mem))
            refine ⟨if below then beside else false, .step (fun fuel => ?_)
              (children.bind (g := fun fuel b =>
                if b then vfsNodesDeleteable v fuel siblings else some false) ?_)⟩
            · simp [vfsNodesDeleteable, here, held]
            · cases below with
              | true => exact rest
              | false => exact .const false

/-- The loop over at least one child ends with an error. -/
theorem vfsNodePutChildren_fails {v v' : Vfs} {fuel : Nat} {c : NodeId} {l : List NodeId}
    {err : Int} (done : vfsNodePutChildren v fuel (c :: l) = some (err, v')) : err ≠ 0 := by
  induction l generalizing v fuel c with
  | nil =>
      cases fuel with
      | zero => simp [vfsNodePutChildren] at done
      | succ fuel =>
          cases fuel with
          | zero => simp [vfsNodePutChildren, vfsNodePut] at done
          | succ fuel =>
              simp only [vfsNodePutChildren, List.head?_nil, vfsNodePut] at done
              cases done
              exact (by decide : -eINVAL ≠ 0)
  | cons d l ih =>
      cases fuel with
      | zero => simp [vfsNodePutChildren] at done
      | succ fuel =>
          simp only [vfsNodePutChildren, Option.bind_eq_bind, Option.bind_eq_some_iff] at done
          obtain ⟨⟨err', v₁⟩, -, done⟩ := done
          split at done
          · next failed =>
              cases done
              exact failed
          · exact ih done

/-- A put touches only counts and children, and makes no node. -/
def Vfs.Prunes (v v' : Vfs) : Prop :=
  ∀ m new, v'.nodes m = some new →
    ∃ old, v.nodes m = some old ∧ new = { old with
      refCount := new.refCount, children := new.children }

namespace Vfs.Prunes

variable {v v₁ v₂ : Vfs}

theorem refl (v : Vfs) : v.Prunes v := fun _ new here => ⟨new, here, rfl⟩

theorem trans (first : v.Prunes v₁) (second : v₁.Prunes v₂) : v.Prunes v₂ := by
  intro m new here
  obtain ⟨mid, here, eq⟩ := second m new here
  obtain ⟨old, here, eq'⟩ := first m mid here
  exact ⟨old, here, by rw [eq, eq']⟩

theorem isSome (prunes : v.Prunes v₁) {m : NodeId} (here : (v₁.nodes m).isSome) :
    (v.nodes m).isSome := by
  obtain ⟨new, here⟩ := Option.isSome_iff_exists.mp here
  obtain ⟨old, here, -⟩ := prunes m new here
  rw [here]
  rfl

theorem drop (v : Vfs) (n : NodeId) : v.Prunes (vfsNodeDrop v n) := by
  intro m new here
  obtain ⟨count, old⟩ := (Recounted.drop v n).symm.found here
  exact ⟨_, old, rfl⟩

theorem delete (v : Vfs) (n : NodeId) (node : VfsNode) : v.Prunes (vfsNodeDelete v n node) := by
  intro m new here
  rw [vfsNodeDelete_nodes] at here
  split at here
  · cases here
  split at here
  · obtain ⟨old, was, rfl⟩ := Option.map_eq_some_iff.mp here
    exact ⟨old, was, rfl⟩
  · exact ⟨new, here, rfl⟩

theorem put_relation : Vfs.PutRelation Vfs.Prunes := ⟨refl, trans, drop, delete⟩

end Vfs.Prunes

theorem vfsNodePut_prunes {v v' : Vfs} {fuel : Nat} {n : Option NodeId} {err : Int}
    (done : vfsNodePut v fuel n = some (err, v')) : v.Prunes v' :=
  Vfs.Prunes.put_relation.put done

/-- A put returns, and the node goes exactly with the last reference and without children. -/
structure PutReturns (v : Vfs) (depth : NodeId → Nat) (n : NodeId) (node : VfsNode) (err : Int)
    (v' : Vfs) : Prop where
  returns : Returns (fun fuel => vfsNodePut v fuel (some n)) (err, v')
  sound : v'.Sound depth
  stays : ∀ m, depth m ≤ depth n → m ≠ n → (v.nodes m).isSome → (v'.nodes m).isSome
  gone : node.refCount ≤ 1 → node.children = [] → v'.nodes n = none
  kept : ¬ (node.refCount ≤ 1 ∧ node.children = []) →
    ∃ now, v'.nodes n = some now ∧ (node.children ≠ [] → now.children ≠ [])

namespace PutReturns

variable {v v' : Vfs} {depth : NodeId → Nat} {n : NodeId} {node : VfsNode} {err : Int}

theorem prunes (put : PutReturns v depth n node err v') : v.Prunes v' := by
  obtain ⟨fuel, done⟩ := put.returns
  exact vfsNodePut_prunes (done fuel (Nat.le_refl _))

/-- The node is busy. -/
theorem busy (sound : v.Sound depth) (here : v.nodes n = some node)
    (held : ¬ (node.refCount ≤ 1 ∧ node.children = []))
    (returns : Returns (fun fuel => vfsNodePut v fuel (some n)) (err, vfsNodeDrop v n)) :
    PutReturns v depth n node err (vfsNodeDrop v n) where
  returns := returns
  sound := sound.drop n
  stays _ _ _ found := (Vfs.Recounted.drop v n).isSome found
  gone few leaf := absurd ⟨few, leaf⟩ held
  kept _ := by
    obtain ⟨count, now⟩ := (Vfs.Recounted.drop v n).found here
    exact ⟨_, now, id⟩

end PutReturns

/-- The loop over children that can each be put. -/
theorem vfsNodePutChildren_returns {depth : NodeId → Nat} {level : Nat} {l : List NodeId}
    {v : Vfs} (put : ∀ w, v.Prunes w → w.Sound depth → ∀ c ∈ l, ∀ node, w.nodes c = some node →
      ∃ err v', PutReturns w depth c node err v')
    (flat : ∀ c ∈ l, depth c = level) (nodup : l.Nodup) (sound : v.Sound depth)
    (exist : ∀ c ∈ l.tail, (v.nodes c).isSome) :
    ∃ err v', Returns (fun fuel => vfsNodePutChildren v fuel l) (err, v') ∧ v'.Sound depth ∧
      ∀ m, depth m ≤ level → m ∉ l.tail → (v.nodes m).isSome → (v'.nodes m).isSome := by
  induction l generalizing v with
  | nil => exact ⟨0, v, .step (fun _ => rfl) (.const (0, v)), sound, fun _ _ _ found => found⟩
  | cons first rest ih =>
      have loop : ∀ {r : Int × Vfs} {b : Int × Vfs},
          Returns (fun fuel => vfsNodePut v fuel rest.head?) r →
          Returns (fun fuel => if r.1 ≠ 0 then some (r.1, r.2)
            else vfsNodePutChildren r.2 fuel rest) b →
          Returns (fun fuel => vfsNodePutChildren v fuel (first :: rest)) b := by
        intro r b call next
        have chained := call.bind (g := fun fuel (r : Int × Vfs) =>
          if r.1 ≠ 0 then some (r.1, r.2) else vfsNodePutChildren r.2 fuel rest) next
        exact .step (fun _ => rfl) chained
      cases rest with
      | nil =>
          refine ⟨-eINVAL, v, loop (.step (fun _ => rfl) (.const (-eINVAL, v))) ?_, sound,
            fun _ _ _ found => found⟩
          exact .const (-eINVAL, v)
      | cons second rest =>
          obtain ⟨node, here⟩ := Option.isSome_iff_exists.mp (exist second List.mem_cons_self)
          obtain ⟨err, v₁, done⟩ := put v (.refl v) sound second (by simp) node here
          have level_eq := flat second (by simp)
          have above : ∀ m, depth m ≤ level → m ∉ second :: rest → (v.nodes m).isSome →
              (v₁.nodes m).isSome := by
            intro m le off found
            refine done.stays m (by omega) ?_ found
            rintro rfl
            exact off List.mem_cons_self
          by_cases failed : err ≠ 0
          · refine ⟨err, v₁, loop done.returns ?_, done.sound, above⟩
            exact .congr (fun _ => if_pos failed) (.const (err, v₁))
          · have tail : ∀ c ∈ rest, (v₁.nodes c).isSome := by
              intro c mem
              refine done.stays c ?_ ?_ (exist c (List.mem_cons_of_mem _ mem))
              · exact Nat.le_of_eq ((flat c (by simp [mem])).trans level_eq.symm)
              · rintro rfl
                exact (List.nodup_cons.mp (List.nodup_cons.mp nodup).2).1 mem
            obtain ⟨err', v', returns, sound', stays⟩ :=
              ih (fun w prunes sound c mem =>
                  put w (done.prunes.trans prunes) sound c (List.mem_cons_of_mem _ mem))
                (fun c mem => flat c (List.mem_cons_of_mem _ mem)) (List.nodup_cons.mp nodup).2
                done.sound tail
            refine ⟨err', v', loop done.returns ?_, sound', fun m le off found =>
              stays m le (fun mem => off (List.mem_cons_of_mem _ mem)) (above m le off found)⟩
            exact .congr (fun _ => if_neg failed) returns

theorem vfsNodePut_returns_within {depth : NodeId → Nat} (height : Nat) {v : Vfs} {n : NodeId}
    {node : VfsNode} (sound : v.Sound depth) (here : v.nodes n = some node)
    (low : ∀ m, (v.nodes m).isSome → depth m < depth n + height) :
    ∃ err v', PutReturns v depth n node err v' := by
  induction height generalizing v n node with
  | zero =>
      have := low n (by rw [here]; rfl)
      omega
  | succ height ih =>
      have at_n : (vfsNodeDrop v n).nodes n =
          some { node with refCount := node.refCount - 1 } := by
        simp [vfsNodeDrop, here]
      have sound' := sound.drop n
      by_cases held : node.refCount - 1 ≠ 0
      · refine ⟨-eBUSY, _, .busy sound here (fun few => ?_) (.step (fun fuel => ?_) (.const _))⟩
        · have := few.1
          omega
        · simp [vfsNodePut, at_n, held]
      have childDepth : ∀ c ∈ node.children, depth c = depth n + 1 := by
        intro c mem
        obtain ⟨child, at_c, up⟩ := sound.tree.child n node here c mem
        exact (sound.tree.parent c child n at_c up).2
      have exist : ∀ c ∈ node.children, ((vfsNodeDrop v n).nodes c).isSome := by
        intro c mem
        obtain ⟨child, at_c, -⟩ := sound'.tree.child n _ at_n c mem
        rw [at_c]
        rfl
      have low' : ∀ w, (vfsNodeDrop v n).Prunes w → ∀ c ∈ node.children, ∀ m,
          (w.nodes m).isSome → depth m < depth c + height := by
        intro w prunes c mem m found
        have deeper := childDepth c mem
        have := low m (((Vfs.Prunes.drop v n).trans prunes).isSome found)
        omega
      obtain ⟨deleteable, check⟩ := vfsNodesDeleteable_returns sound'.tree height node.children exist
        (low' _ (.refl _))
      obtain ⟨err, v₁, children, sound₁, stays⟩ := vfsNodePutChildren_returns
        (fun w prunes sound c mem child found => ih sound found (low' w prunes c mem))
        childDepth (sound.nodup here) sound' (fun c mem => exist c (List.mem_of_mem_tail mem))
      have call : ∀ {b : Int × Vfs}, Returns (fun fuel => if deleteable then
          (vfsNodePutChildren (vfsNodeDrop v n) fuel node.children).bind fun r =>
            if r.1 ≠ 0 then some (r.1, r.2) else
              some (0, vfsNodeDelete r.2 n { node with refCount := node.refCount - 1 })
          else some (-eBUSY, vfsNodeDrop v n)) b →
          Returns (fun fuel => vfsNodePut v fuel (some n)) b := by
        intro b next
        have chained := check.bind (g := fun fuel (deleteable : Bool) => if deleteable then
          (vfsNodePutChildren (vfsNodeDrop v n) fuel node.children).bind fun r =>
            if r.1 ≠ 0 then some (r.1, r.2) else
              some (0, vfsNodeDelete r.2 n { node with refCount := node.refCount - 1 })
          else some (-eBUSY, vfsNodeDrop v n)) next
        refine .step (fun fuel => ?_) chained
        simp only [vfsNodePut, at_n, held, if_false]
        rfl
      cases deleteable with
      | false =>
          refine ⟨-eBUSY, _, .busy sound here (fun few => ?_) (call (.const _))⟩
          have yes : Returns (fun fuel => vfsNodesDeleteable (vfsNodeDrop v n) fuel []) true :=
            .step (fun _ => rfl) (.const true)
          rw [few.2] at check
          cases check.unique yes
      | true =>
          have above : ∀ m, depth m ≤ depth n → (v.nodes m).isSome → (v₁.nodes m).isSome := by
            intro m le found
            refine stays m (by omega) (fun mem => ?_) ((Vfs.Recounted.drop v n).isSome found)
            have := childDepth m (List.mem_of_mem_tail mem)
            omega
          have ending : ∀ {b : Int × Vfs}, (if err ≠ 0 then (err, v₁) else
              (0, vfsNodeDelete v₁ n { node with refCount := node.refCount - 1 })) = b →
              Returns (fun fuel => vfsNodePut v fuel (some n)) b := by
            intro b eq
            have chained := children.bind (g := fun _ (r : Int × Vfs) =>
              if r.1 ≠ 0 then some (r.1, r.2) else
                some (0, vfsNodeDelete r.2 n { node with refCount := node.refCount - 1 }))
              (.congr (fun _ => (apply_ite some ..).symm) (.const _))
            exact eq ▸ call chained
          cases leaf : node.children with
          | nil =>
              rw [leaf] at children
              obtain ⟨rfl, rfl⟩ : 0 = err ∧ vfsNodeDrop v n = v₁ := by
                have nothing : Returns (fun fuel => vfsNodePutChildren (vfsNodeDrop v n) fuel [])
                    (0, vfsNodeDrop v n) := .step (fun _ => rfl) (.const _)
                simpa using nothing.unique children
              refine ⟨0, _, ending rfl, sound'.delete at_n leaf, fun m le off found => ?_,
                fun _ _ => ?_, fun kept => ?_⟩
              · have stays := above m le found
                rw [vfsNodeDelete_nodes, if_neg off]
                split
                · simpa using stays
                · exact stays
              · rw [vfsNodeDelete_nodes, if_pos rfl]
              · exact absurd ⟨by omega, leaf⟩ kept
          | cons c rest =>
              have failed : err ≠ 0 := by
                obtain ⟨fuel, done⟩ := children
                rw [leaf] at done
                exact vfsNodePutChildren_fails (done fuel (Nat.le_refl _))
              refine ⟨err, v₁, ending (if_pos failed), sound₁, fun m le _ found => above m le found,
                fun _ empty => ?_, fun _ => ?_⟩
              · rw [leaf] at empty
                cases empty
              · obtain ⟨now, at_n'⟩ := Option.isSome_iff_exists.mp
                  (above n (Nat.le_refl _) (by rw [here]; rfl))
                refine ⟨now, at_n', fun _ empty => ?_⟩
                -- The first child is not put, so it is still linked.
                have mem : c ∈ node.children := by
                  rw [leaf]
                  exact List.mem_cons_self
                have first : c ∉ node.children.tail := by
                  have nodup := sound.nodup here
                  rw [leaf] at nodup ⊢
                  exact (List.nodup_cons.mp nodup).1
                obtain ⟨child, at_c⟩ := Option.isSome_iff_exists.mp
                  (stays c (Nat.le_of_eq (childDepth c mem)) first (exist c mem))
                obtain ⟨fuel, done⟩ := children
                obtain ⟨old, was, eq⟩ :=
                  Vfs.Prunes.put_relation.putChildren (done fuel (Nat.le_refl _)) c child at_c
                obtain ⟨old', was', up⟩ := sound'.tree.child n _ at_n c mem
                rw [was] at was'
                cases was'
                obtain ⟨above', there, linked⟩ := sound₁.linked c child n at_c (by rw [eq]; exact up)
                rw [at_n'] at there
                cases there
                rw [empty] at linked
                cases linked

/-- A node with another reference only loses one. -/
theorem vfsNodePut_held {v v' : Vfs} {fuel : Nat} {n : NodeId} {node : VfsNode} {err : Int}
    (here : v.nodes n = some node) (held : 2 ≤ node.refCount)
    (done : vfsNodePut v fuel (some n) = some (err, v')) : v' = vfsNodeDrop v n := by
  cases fuel with
  | zero => simp [vfsNodePut] at done
  | succ fuel =>
      have at_n : (vfsNodeDrop v n).nodes n =
          some { node with refCount := node.refCount - 1 } := by
        simp [vfsNodeDrop, here]
      have more : node.refCount - 1 ≠ 0 := by omega
      simp only [vfsNodePut, at_n, more, ne_eq, not_false_eq_true, if_true] at done
      cases done
      rfl

theorem vfsNodePut_returns {v : Vfs} {depth : NodeId → Nat} {n : NodeId} {node : VfsNode}
    (sound : v.Sound depth) (here : v.nodes n = some node) :
    ∃ err v', PutReturns v depth n node err v' := by
  obtain ⟨bottom, shallow⟩ := sound.shaped.shallow
  refine vfsNodePut_returns_within bottom sound here fun m found => ?_
  have := shallow m found
  omega

/-- Two puts return if the first does not delete the node; the second deletes it if that was the
    last reference of a node without children. -/
theorem vfsNodePut_twice {v : Vfs} {depth : NodeId → Nat} {n : NodeId} {node : VfsNode}
    (sound : v.Sound depth) (here : v.nodes n = some node)
    (held : node.children = [] → 2 ≤ node.refCount) :
    ∃ r, Returns (fun fuel => (vfsNodePut v fuel (some n)).bind fun r =>
        vfsNodePut r.2 fuel (some n)) r ∧ v.Prunes r.2 ∧
      (r.2.nodes n = none ↔ node.refCount = 2 ∧ node.children = []) := by
  obtain ⟨err, v₁, put⟩ := vfsNodePut_returns sound here
  obtain ⟨now, at_n, below⟩ := put.kept (fun few => by
    have := held few.2
    omega)
  obtain ⟨err', v₂, put'⟩ := vfsNodePut_returns put.sound at_n
  refine ⟨(err', v₂), put.returns.bind put'.returns, put.prunes.trans put'.prunes, ?_⟩
  obtain ⟨fuel, done⟩ := put.returns
  have dropped := vfsNodePut_refs (done fuel (Nat.le_refl _)) n
  rw [Vfs.refs_eq at_n, Vfs.refs_eq here, one_true rfl] at dropped
  by_cases leaf : node.children = []
  · obtain rfl := vfsNodePut_held here (held leaf) (done fuel (Nat.le_refl _))
    obtain ⟨count, at_n'⟩ := (Vfs.Recounted.drop v n).found here
    rw [at_n] at at_n'
    cases at_n'
    have two := held leaf
    constructor
    · intro gone
      refine ⟨?_, leaf⟩
      by_cases more : node.refCount = 2
      · exact more
      · obtain ⟨new, there, -⟩ := put'.kept (fun few => by
          have := few.1
          omega)
        rw [gone] at there
        cases there
    · intro last
      refine put'.gone ?_ leaf
      omega
  · constructor
    · intro gone
      obtain ⟨new, there, -⟩ := put'.kept (fun few => below leaf few.2)
      rw [gone] at there
      cases there
    · exact fun last => absurd last.2 leaf

end Sdx.Fs
