import Sdx.Fs.VfsUmount

/-! # Open then close (`fs/vfs/vfs.c`, `fs/vfs/node.c`)

Opening a path adds a reference to its node and makes the nodes of the path that are not cached.
Closing takes the reference back and deletes the node if nothing below it is in use, but only the
node: a parent that the lookup made stays, without a reference. So nothing is left behind when at
most the last node of the path is new, unless nothing at or below a cached node is in use; then
the node goes too, or the close fails on its children.
-/

namespace Sdx.Fs

open Sdx.Lib

/-- The names of a path. -/
def pathNames (path : Name) : List Name :=
  (path.splitOn '/').filter fun name => name ≠ [] ∧ name ≠ ['.']

/-- `m` is `n` or a node below it. -/
inductive Vfs.Below (v : Vfs) : NodeId → NodeId → Prop where
  | refl (n) : v.Below n n
  | child {n node c m} : v.nodes n = some node → c ∈ node.children → v.Below c m → v.Below n m

/-- Something at or below the node is in use. -/
def Vfs.InUse (v : Vfs) (n : NodeId) : Prop := ∃ m, v.Below n m ∧ v.refs m ≠ 0

/-- The node of the path is cached and in use, or it is not cached but its parent is. -/
def Traceless (v : Vfs) (path : Name) : Prop :=
  (∃ n, v.At (pathNames path).reverse n ∧ v.InUse n) ∨
    (∀ n, ¬ v.At (pathNames path).reverse n) ∧ ∃ p, v.At (pathNames path).reverse.tail p

/-- A node that the lookup has made and holds. -/
structure MadeLeaf (v w : Vfs) (c : NodeId) : Prop where
  gone : v.nodes c = none
  stays : ∀ m, (v.nodes m).isSome → (w.nodes m).isSome
  leaf : ∃ node p, w.nodes c = some node ∧ node.children = [] ∧ node.refCount = 1 ∧
    node.parent = some p

/-- The states a lookup without `..` can be in: at a cached node, at one new node, or at a new node
    below another one. -/
inductive Opening (v : Vfs) : Vfs → NodeId → List Name → Prop where
  | cached {cur : NodeId} {pos : List Name} : v.At pos cur → Opening v (vfsNodeHold (some cur, v)).2 cur pos
  | made {up : List Name} {p c : NodeId} {node made : VfsNode} {name : Name} :
      v.At up p → v.nodes p = some node → v.nodes c = none →
      (∀ d ∈ node.children, v.nameOf d ≠ some name) → made.children = [] → made.refCount = 0 →
      made.parent = some p →
      Opening v (vfsNodeHold (some c, vfsNodeAttach v p c made)).2 c (name :: up)
  | deep {w : Vfs} {c q : NodeId} {pos : List Name} :
      MadeLeaf v w c → q ≠ c → v.nodes q = none → (w.nodes q).isSome →
      (∀ n, ¬ v.At pos n) → (∀ n, ¬ v.At pos.tail n) → Opening v w c pos

section

variable {env : VfsEnv} {v w w₁ w₂ v' : Vfs} {depth : NodeId → Nat} {path name : Name}
  {pos up : List Name} {n p c cur : NodeId} {node made : VfsNode} {steps fuel : Nat} {err : Int}

/-! ## What the lookup builds -/

theorem Vfs.ext (root : w.root = v.root) (nodes : ∀ m, w.nodes m = v.nodes m) : w = v := by
  cases v
  cases w
  cases root
  cases funext nodes
  rfl

theorem hold_nodes_same (here : v.nodes n = some node) : (vfsNodeHold (some n, v)).2.nodes n =
    some { node with refCount := node.refCount + 1 } := by
  simp [vfsNodeHold, here]

theorem hold_nodes_other {m : NodeId} (off : m ≠ n) :
    (vfsNodeHold (some n, v)).2.nodes m = v.nodes m := by
  simp [vfsNodeHold, off]

theorem drop_nodes_same (here : v.nodes n = some node) : (vfsNodeDrop v n).nodes n =
    some { node with refCount := node.refCount - 1 } := by
  simp [vfsNodeDrop, here]

theorem drop_nodes_other {m : NodeId} (off : m ≠ n) : (vfsNodeDrop v n).nodes m = v.nodes m := by
  simp [vfsNodeDrop, off]

theorem drop_hold (here : v.nodes n = some node) :
    vfsNodeDrop (vfsNodeHold (some n, v)).2 n = v := by
  refine Vfs.ext rfl fun m => ?_
  by_cases eq : m = n
  · subst eq
    rw [drop_nodes_same (hold_nodes_same here), here]
    rfl
  · rw [drop_nodes_other eq, hold_nodes_other eq]

/-- Going down to a cached child moves the reference. -/
theorem drop_hold_child (here : v.nodes cur = some node) (off : c ≠ cur) :
    vfsNodeDrop (vfsNodeHold (some c, (vfsNodeHold (some cur, v)).2)).2 cur =
      (vfsNodeHold (some c, v)).2 := by
  refine Vfs.ext rfl fun m => ?_
  by_cases eq : m = cur
  · subst eq
    have held := hold_nodes_same here
    rw [← hold_nodes_other off.symm] at held
    rw [drop_nodes_same held, hold_nodes_other off.symm, here]
    rfl
  · rw [drop_nodes_other eq]
    by_cases eq' : m = c
    · subst eq'
      simp [vfsNodeHold, eq]
    · rw [hold_nodes_other eq', hold_nodes_other eq, hold_nodes_other eq']

/-- Going down to a new child. -/
theorem drop_hold_attach (here : v.nodes cur = some node) (gone : v.nodes c = none) :
    vfsNodeDrop (vfsNodeHold (some c, vfsNodeAttach (vfsNodeHold (some cur, v)).2 cur c made)).2 cur =
      (vfsNodeHold (some c, vfsNodeAttach v cur c made)).2 := by
  have off : c ≠ cur := by
    rintro rfl
    rw [gone] at here
    cases here
  have gone' : (vfsNodeHold (some cur, v)).2.nodes c = none := (hold_nodes_other off).trans gone
  have nodes := vfsNodeAttach_nodes (hold_nodes_same here) gone' made
  have nodes' := vfsNodeAttach_nodes here gone made
  refine Vfs.ext rfl fun m => ?_
  by_cases eq : m = cur
  · subst eq
    have held : (vfsNodeAttach (vfsNodeHold (some m, v)).2 m c made).nodes m = _ := nodes m
    rw [if_neg off.symm, if_pos rfl, ← hold_nodes_other off.symm] at held
    rw [drop_nodes_same held, hold_nodes_other off.symm, nodes', if_neg off.symm, if_pos rfl]
    rfl
  · rw [drop_nodes_other eq]
    by_cases eq' : m = c
    · subst eq'
      have one := (nodes m).trans (if_pos rfl)
      have two := (nodes' m).trans (if_pos rfl)
      rw [hold_nodes_same one, hold_nodes_same two]
    · rw [hold_nodes_other eq', hold_nodes_other eq', nodes, nodes', if_neg eq', if_neg eq,
        if_neg eq', if_neg eq, hold_nodes_other eq]

/-- No cached node is at the position of a new one. -/
theorem not_at_made (sound : v.Sound depth) (at_p : v.At up p) (here : v.nodes p = some node)
    (unnamed : ∀ d ∈ node.children, v.nameOf d ≠ some name) : ∀ n, ¬ v.At (name :: up) n := by
  intro n at_n
  cases at_n with
  | child above parent mem named =>
      obtain rfl := above.unique sound at_p
      rw [here] at parent
      cases parent
      exact unnamed n mem named

theorem madeLeaf_of_made (here : v.nodes p = some node) (gone : v.nodes c = none)
    (leaf : made.children = []) (unheld : made.refCount = 0) (parent : made.parent = some p) :
    MadeLeaf v (vfsNodeHold (some c, vfsNodeAttach v p c made)).2 c := by
  refine ⟨gone, fun m found => ?_, ?_⟩
  · obtain ⟨old, found⟩ := Option.isSome_iff_exists.mp found
    obtain ⟨children, now, -⟩ := @vfsNodeAttach_old _ _ _ _ _ made here gone _ found
    exact (Vfs.Recounted.hold _ c).isSome (by rw [now]; rfl)
  · have now := hold_nodes_same (@vfsNodeAttach_new _ _ _ _ made here gone)
    exact ⟨_, p, now, leaf, by rw [unheld], parent⟩

/-- Below a new node the next one is new, and the first stays behind. -/
theorem MadeLeaf.step (new : MadeLeaf v w cur) (get : vfsNodeGet env w cur name = (some c, w₁))
    (put : vfsNodePut w₁ fuel (some cur) = some (err, w₂)) :
    MadeLeaf v w₂ c ∧ cur ≠ c ∧ (w₂.nodes cur).isSome := by
  obtain ⟨node, p, here, leaf, -, -⟩ := new.leaf
  obtain ⟨d, mem, -⟩ | ⟨-, found⟩ := vfsNodeGet_cases here env name
  · rw [leaf] at mem
    cases mem
  rw [found] at get
  cases made : vfsNodeNew env w cur node name with
  | mk result w' =>
      rw [made] at get
      cases result with
      | none => cases get
      | some c' =>
          cases get
          obtain ⟨inode, -, gone, rfl⟩ := vfsNodeNew_some made
          have off : c ≠ cur := by
            rintro rfl
            rw [gone] at here
            cases here
          generalize made_eq : ({ (default : VfsNode) with
            fs := node.fs, inode := inode, name := name.take nameMax, parent := some cur } :
              VfsNode) = made at put
          obtain ⟨empty, unheld, parent⟩ : made.children = [] ∧ made.refCount = 0 ∧
              made.parent = some cur := by
            rw [← made_eq]
            exact ⟨rfl, rfl, rfl⟩
          have next := madeLeaf_of_made here gone empty unheld parent
          have at_cur := vfsNodeAttach_nodes here gone made cur
          rw [if_neg off.symm, if_pos rfl] at at_cur
          rw [← hold_nodes_other off.symm] at at_cur
          obtain ⟨child, p, at_c, empty, one, parent⟩ := next.leaf
          have held : (vfsNodeHold (some c, vfsNodeAttach w cur c made)).2.refs c ≠ 0 := by
            rw [Vfs.refs_eq at_c, one]
            decide
          obtain rfl := vfsNodePut_busy at_cur List.mem_cons_self off held put
          have same := Vfs.Recounted.drop (vfsNodeHold (some c, vfsNodeAttach w cur c made)).2 cur
          have stays : ∀ m, (w.nodes m).isSome → ((vfsNodeDrop
              (vfsNodeHold (some c, vfsNodeAttach w cur c made)).2 cur).nodes m).isSome :=
            fun m found => same.isSome (next.stays m found)
          refine ⟨⟨?_, fun m found => stays m (new.stays m found), ?_⟩, off.symm,
            stays cur (by rw [here]; rfl)⟩
          · cases was : v.nodes c with
            | none => rfl
            | some old =>
                have there := new.stays c (by rw [was]; rfl)
                rw [gone] at there
                cases there
          · exact ⟨child, p, (drop_nodes_other off).trans at_c, empty, one, parent⟩

/-- One step down. -/
theorem Opening.step (sound : v.Sound depth) (opening : Opening v w cur pos)
    (get : vfsNodeGet env w cur name = (some c, w₁))
    (put : vfsNodePut w₁ fuel (some cur) = some (err, w₂)) : Opening v w₂ c (name :: pos) := by
  cases opening with
  | cached at_cur =>
      obtain ⟨node, here⟩ := Option.isSome_iff_exists.mp (at_cur.isSome sound)
      have same := Vfs.Recounted.hold v cur
      have held := hold_nodes_same here
      obtain rfl := vfsNodePut_after_get (sound.tree.recounted same) get put
      obtain ⟨d, mem, named, found⟩ | ⟨unnamed, found⟩ := vfsNodeGet_cases held env name
      · rw [found] at get
        cases get
        obtain ⟨child, at_c, up⟩ := sound.tree.child cur node here c mem
        have off : c ≠ cur := by
          rintro rfl
          have deeper := (sound.tree.parent c child c at_c up).2
          omega
        have moved := drop_hold_child here off
        simp only [vfsNodeHold] at moved ⊢
        rw [moved]
        exact .cached (.child at_cur here mem ((same.nameOf c).symm.trans named))
      · rw [found] at get
        cases made : vfsNodeNew env (vfsNodeHold (some cur, v)).2 cur
            { node with refCount := node.refCount + 1 } name with
        | mk result w' =>
            rw [made] at get
            cases result with
            | none => cases get
            | some c' =>
                cases get
                obtain ⟨inode, -, gone, rfl⟩ := vfsNodeNew_some made
                have off : c ≠ cur := by
                  rintro rfl
                  rw [held] at gone
                  cases gone
                rw [hold_nodes_other off] at gone
                have moved := @drop_hold_attach _ _ _ _ { (default : VfsNode) with
                  fs := node.fs, inode := inode, name := name.take nameMax, parent := some cur }
                  here gone
                simp only [vfsNodeHold] at moved ⊢
                rw [moved]
                refine .made at_cur here gone (fun d mem => ?_) rfl rfl rfl
                rw [← same.nameOf d]
                exact unnamed d mem
  | made at_p here gone unnamed leaf unheld parent =>
      obtain ⟨leaf', off, there⟩ := (madeLeaf_of_made here gone leaf unheld parent).step get put
      have fresh := not_at_made sound at_p here unnamed
      refine .deep leaf' off gone there (fun n at_n => ?_) fresh
      cases at_n with
      | child above _ _ _ => exact fresh _ above
  | deep new off gone there fresh fresh' =>
      obtain ⟨leaf', off, there⟩ := new.step get put
      refine .deep leaf' off new.gone there (fun n at_n => ?_) fresh
      cases at_n with
      | child above _ _ _ => exact fresh _ above

/-- A node of the walk can be looked at. -/
theorem Opening.isSome (sound : v.Sound depth) (opening : Opening v w cur pos) :
    (w.nodes cur).isSome := by
  cases opening with
  | cached at_cur => exact (Vfs.Recounted.hold v cur).isSome (at_cur.isSome sound)
  | made _ here gone _ leaf unheld parent =>
      obtain ⟨node, p, here, -⟩ := (madeLeaf_of_made here gone leaf unheld parent).leaf
      rw [here]
      rfl
  | deep new _ _ _ _ _ =>
      obtain ⟨node, p, here, -⟩ := new.leaf
      rw [here]
      rfl

theorem pathNames_cons {rest : Name}
    (split : path.splitOn '/' = name :: rest.splitOn '/' ∨ path.splitOn '/' = [name] ∧ rest = []) :
    pathNames path = (if name ≠ [] ∧ name ≠ ['.'] then [name] else []) ++ pathNames rest := by
  have last : pathNames [] = [] := by
    rw [pathNames, List.splitOn_nil]
    rfl
  obtain split | ⟨split, rfl⟩ := split
  · rw [pathNames, split, List.filter_cons, ← pathNames]
    by_cases named : name ≠ [] ∧ name ≠ ['.'] <;> simp [named]
  · rw [last, pathNames, split, List.filter_cons]
    by_cases named : name ≠ [] ∧ name ≠ ['.'] <;> simp [named]

/-- A lookup without `..` ends at the position that its names make. -/
theorem vfsFindLoop_opening (sound : v.Sound depth) (enough : path.length ≤ steps)
    (downward : ['.', '.'] ∉ path.splitOn '/') (opening : Opening v w cur pos)
    (done : vfsFindLoop env fuel steps w cur path = some (some n, v')) :
    Opening v v' n ((pathNames path).reverse ++ pos) := by
  have ends : pathNames [] = [] := by
    rw [pathNames, List.splitOn_nil]
    rfl
  induction steps generalizing w cur path pos with
  | zero =>
      obtain rfl := List.eq_nil_of_length_eq_zero (Nat.le_zero.mp enough)
      cases done
      rw [ends]
      exact opening
  | succ steps ih =>
      simp only [vfsFindLoop] at done
      split at done
      · next ended =>
          cases done
          rw [ended, ends]
          exact opening
      split at done
      · cases done
      next name rest next =>
      obtain ⟨split, -⟩ := vfsPathNext_some next (Nat.zero_le _)
      have shorter : rest.length ≤ steps := by
        have less := vfsPathNext_shorter next
        omega
      have downward' : ['.', '.'] ∉ rest.splitOn '/' ∧ name ≠ ['.', '.'] := by
        obtain split | ⟨split, rfl⟩ := split
        · rw [split, List.mem_cons, not_or] at downward
          exact ⟨downward.2, downward.1 ∘ Eq.symm⟩
        · rw [split, List.mem_singleton] at downward
          rw [List.splitOn_nil]
          exact ⟨by decide, downward ∘ Eq.symm⟩
      rw [pathNames_cons split]
      split at done
      · next skip =>
          have unnamed : ¬ (name ≠ [] ∧ name ≠ ['.']) := by tauto
          rw [if_neg unnamed]
          exact ih shorter downward'.1 opening done
      next named =>
      split at done
      · next dots => exact absurd dots downward'.2
      rcases get : vfsNodeGet env w cur name with ⟨found, w₁⟩
      rw [get] at done
      obtain ⟨⟨err, w₂⟩, put, done⟩ := Option.bind_eq_some_iff.mp done
      cases found with
      | none => cases done
      | some c =>
          have is : name ≠ [] ∧ name ≠ ['.'] := by tauto
          rw [if_pos is, List.reverse_append, List.append_assoc]
          exact ih shorter downward'.1 (opening.step sound get put) done

theorem vfsFind_opening (sound : v.Sound depth) (downward : ['.', '.'] ∉ path.splitOn '/')
    (done : vfsFind env fuel v path = some (some n, w)) :
    Opening v w n (pathNames path).reverse := by
  unfold vfsFind at done
  split at done
  · next path =>
      cases root : v.root with
      | none =>
          simp only [vfsNodeGetRoot, root, vfsNodeHold] at done
          cases done
      | some r =>
          have split : ('/' :: path).splitOn '/' = [] :: path.splitOn '/' := by
            rw [List.splitOn_cons_eq_if_modifyHead]
            rfl
          rw [split, List.mem_cons, not_or] at downward
          simp only [vfsNodeGetRoot, root] at done
          have opening := vfsFindLoop_opening sound (Nat.le_refl _) downward.2
            (.cached (.root root)) done
          rw [List.append_nil] at opening
          rw [pathNames_cons (.inl split)]
          exact opening
  · cases done

/-! ## Use below a node -/

theorem Vfs.InUse.parent (here : v.nodes n = some node) (mem : c ∈ node.children) (inUse : v.InUse c) :
    v.InUse n := by
  obtain ⟨m, below, held⟩ := inUse
  exact ⟨m, .child here mem below, held⟩

/-- A node without references is in use through its children only. -/
theorem Vfs.inUse_iff_children (here : v.nodes n = some node) (unheld : node.refCount = 0) :
    (∀ c ∈ node.children, ¬ v.InUse c) ↔ ¬ v.InUse n := by
  constructor
  · rintro unused ⟨m, below, held⟩
    cases below with
    | refl =>
        rw [Vfs.refs_eq here] at held
        exact held unheld
    | child here' mem below =>
        rw [here] at here'
        cases here'
        exact unused _ mem ⟨m, below, held⟩
  · exact fun unused c mem inUse => unused (inUse.parent here mem)

/-- `__vfs_node_deleteable` looks for a use. -/
theorem vfsNodesDeleteable_iff {l : List NodeId} {deleteable : Bool}
    (done : vfsNodesDeleteable v fuel l = some deleteable) :
    deleteable = true ↔ ∀ c ∈ l, ¬ v.InUse c := by
  induction fuel generalizing l deleteable with
  | zero => cases done
  | succ fuel ih =>
      cases l with
      | nil =>
          cases done
          simp
      | cons n siblings =>
          rw [vfsNodesDeleteable] at done
          split at done
          · cases done
          next node here =>
          split at done
          · next held =>
              cases done
              refine ⟨fun yes => absurd yes Bool.false_ne_true, fun unused => ?_⟩
              exact absurd ⟨n, .refl n, by rwa [Vfs.refs_eq here]⟩ (unused n List.mem_cons_self)
          next unheld =>
          obtain ⟨below, check, done⟩ := Option.bind_eq_some_iff.mp done
          have children := ih check
          have own := Vfs.inUse_iff_children here (Classical.not_not.mp unheld)
          split at done
          · next yes =>
              rw [ih done, List.forall_mem_cons, ← own]
              exact ⟨fun rest => ⟨children.mp yes, rest⟩, And.right⟩
          · next no =>
              cases done
              refine ⟨fun yes => absurd yes Bool.false_ne_true, fun unused => ?_⟩
              rw [List.forall_mem_cons] at unused
              exact absurd (children.mpr (own.mpr unused.1)) no

/-- Puts only take children and references away. -/
def Vfs.Shrinks (v v' : Vfs) : Prop :=
  (∀ m, v'.refs m ≤ v.refs m) ∧ ∀ m new, v'.nodes m = some new →
    ∃ old, v.nodes m = some old ∧ ∀ c ∈ new.children, c ∈ old.children

namespace Vfs.Shrinks

theorem refl (v : Vfs) : v.Shrinks v :=
  ⟨fun _ => Nat.le_refl _, fun _ new here => ⟨new, here, fun _ mem => mem⟩⟩

theorem trans (first : v.Shrinks w) (second : w.Shrinks v') : v.Shrinks v' := by
  refine ⟨fun m => Nat.le_trans (second.1 m) (first.1 m), fun m new here => ?_⟩
  obtain ⟨mid, here, sub⟩ := second.2 m new here
  obtain ⟨old, here, sub'⟩ := first.2 m mid here
  exact ⟨old, here, fun c mem => sub' c (sub c mem)⟩

theorem drop (v : Vfs) (n : NodeId) : v.Shrinks (vfsNodeDrop v n) := by
  refine ⟨fun m => ?_, fun m new here => ?_⟩
  · rw [refs_vfsNodeDrop]
    exact Nat.sub_le ..
  · obtain ⟨count, old⟩ := (Recounted.drop v n).symm.found here
    exact ⟨_, old, fun c mem => mem⟩

theorem delete (v : Vfs) (n : NodeId) (node : VfsNode) : v.Shrinks (vfsNodeDelete v n node) := by
  have old : ∀ m new, (vfsNodeDelete v n node).nodes m = some new → ∃ old, v.nodes m = some old ∧
      new.refCount = old.refCount ∧ ∀ c ∈ new.children, c ∈ old.children := by
    intro m new here
    rw [vfsNodeDelete_nodes] at here
    split at here
    · cases here
    split at here
    · obtain ⟨old, was, rfl⟩ := Option.map_eq_some_iff.mp here
      exact ⟨old, was, rfl, fun c mem => List.mem_of_mem_erase mem⟩
    · exact ⟨new, here, rfl, fun c mem => mem⟩
  refine ⟨fun m => ?_, fun m new here => ?_⟩
  · cases here : (vfsNodeDelete v n node).nodes m with
    | none =>
        rw [Vfs.refs_none here]
        exact Nat.zero_le _
    | some new =>
        obtain ⟨old, was, count, -⟩ := old m new here
        apply Nat.le_of_eq
        rw [Vfs.refs_eq here, Vfs.refs_eq was, count]
  · obtain ⟨old, was, -, sub⟩ := old m new here
    exact ⟨old, was, sub⟩

theorem inUse (shrinks : v.Shrinks v') (inUse : v'.InUse n) : v.InUse n := by
  obtain ⟨m, below, held⟩ := inUse
  have more := shrinks.1 m
  refine ⟨m, ?_, by omega⟩
  clear held more
  induction below with
  | refl => exact .refl _
  | child here mem _ ih =>
      obtain ⟨old, was, sub⟩ := shrinks.2 _ _ here
      exact .child was (sub _ mem) ih

theorem put_relation : Vfs.PutRelation Vfs.Shrinks := ⟨refl, trans, drop, delete⟩

end Vfs.Shrinks

end

theorem vfsNodePut_shrinks {v v' : Vfs} {fuel : Nat} {n : Option NodeId} {err : Int}
    (done : vfsNodePut v fuel n = some (err, v')) : v.Shrinks v' :=
  Vfs.Shrinks.put_relation.put done

mutual

/-- A put of a node that nothing uses is never busy. -/
theorem vfsNodePut_unused {v v' : Vfs} {fuel : Nat} {n : NodeId} {err : Int}
    (unused : ¬ v.InUse n) (done : vfsNodePut v fuel (some n) = some (err, v')) :
    err = 0 ∨ err = -eINVAL := by
  cases fuel with
  | zero => simp [vfsNodePut] at done
  | succ fuel =>
      have dropped := Vfs.Shrinks.drop v n
      have unused' : ¬ (vfsNodeDrop v n).InUse n := fun inUse => unused (dropped.inUse inUse)
      simp only [vfsNodePut] at done
      split at done
      · cases done
      next node here =>
      split at done
      · next held => exact absurd ⟨n, .refl n, by rwa [Vfs.refs_eq here]⟩ unused'
      have below : ∀ c ∈ node.children, ¬ (vfsNodeDrop v n).InUse c :=
        fun c mem inUse => unused' (inUse.parent here mem)
      obtain ⟨deleteable, check, done⟩ := Option.bind_eq_some_iff.mp done
      split at done
      · obtain ⟨⟨err', v₁⟩, children, done⟩ := Option.bind_eq_some_iff.mp done
        have loop := vfsNodePutChildren_unused below children
        split at done
        · cases done
          exact loop
        · cases done
          exact .inl rfl
      · next no => exact absurd ((vfsNodesDeleteable_iff check).mpr below) no

theorem vfsNodePutChildren_unused {v v' : Vfs} {fuel : Nat} {l : List NodeId} {err : Int}
    (unused : ∀ c ∈ l, ¬ v.InUse c) (done : vfsNodePutChildren v fuel l = some (err, v')) :
    err = 0 ∨ err = -eINVAL := by
  cases fuel with
  | zero => simp [vfsNodePutChildren] at done
  | succ fuel =>
      cases l with
      | nil =>
          cases done
          exact .inl rfl
      | cons first rest =>
          simp only [vfsNodePutChildren, Option.bind_eq_bind, Option.bind_eq_some_iff] at done
          obtain ⟨⟨err', v₁⟩, put, done⟩ := done
          split at done
          · cases done
            cases rest with
            | nil =>
                cases fuel with
                | zero => simp [vfsNodePut] at put
                | succ fuel =>
                    cases put
                    exact .inr rfl
            | cons second rest => exact vfsNodePut_unused (unused second (by simp)) put
          · have shrinks := vfsNodePut_shrinks put
            exact vfsNodePutChildren_unused (fun c mem inUse =>
              unused c (List.mem_cons_of_mem _ mem) (shrinks.inUse inUse)) done

end

/-! ## The close -/

section

variable {env : VfsEnv} {v w v₁ : Vfs} {depth : NodeId → Nat} {path : Name} {pos : List Name}
  {n : NodeId} {node : VfsNode}

/-- What `vfs_close` makes of the result of its put. -/
def closeResult (r : Int × Vfs) : Int × Vfs := if r.1 ≠ 0 ∧ r.1 ≠ -eBUSY then r else (0, r.2)

/-- `vfs_close` when the file system closes its inode. -/
theorem vfsClose_iff (here : w.nodes n = some node) (closes : fsClose env node.fs node.inode = 0)
    {r r' : Int × Vfs} (put : Returns (fun fuel => vfsNodePut w fuel (some n)) r) :
    Returns (fun fuel => vfsClose env fuel w n) r' ↔ closeResult r = r' := by
  have call : ∀ fuel, vfsClose env fuel w n =
      (vfsNodePut w fuel (some n)).bind fun r => some (closeResult r) := by
    intro fuel
    simp only [vfsClose, here, Option.bind_eq_bind, Option.bind_some, closes, ne_eq,
      not_true_eq_false, if_false, closeResult]
    congr 1
    funext r
    split <;> rfl
  have behind := put.bind_iff (g := fun _ r => some (closeResult r)) (b := r')
  constructor
  · intro returns
    exact (Returns.const _).unique (behind.mp (.congr (fun fuel => (call fuel).symm) returns))
  · rintro rfl
    exact .congr call (behind.mpr (.const _))

/-- Closing a cached node leaves the tree as it was exactly if the node is in use. -/
theorem vfsClose_cached (sound : v.Sound depth) (here : v.nodes n = some node)
    (closes : fsClose env node.fs node.inode = 0) :
    Returns (fun fuel => vfsClose env fuel (vfsNodeHold (some n, v)).2 n) (0, v) ↔ v.InUse n := by
  have held := hold_nodes_same here
  have back := drop_hold here
  have same := Vfs.Recounted.hold v n
  have busy : closeResult (-eBUSY, v) = (0, v) := rfl
  by_cases unheld : node.refCount = 0
  · obtain ⟨err, v', put⟩ := vfsNodePut_returns (sound.recounted same) held
    rw [vfsClose_iff held closes put.returns]
    obtain ⟨fuel, done⟩ := put.returns
    have done := done (fuel + 1) (Nat.le_succ _)
    have call := done
    simp only [vfsNodePut, back, here, unheld, ne_eq, not_true_eq_false, if_false] at call
    obtain ⟨deleteable, check, call⟩ := Option.bind_eq_some_iff.mp call
    have unused := (vfsNodesDeleteable_iff check).trans (Vfs.inUse_iff_children here unheld)
    cases deleteable with
    | false =>
        cases call
        refine ⟨fun _ => ?_, fun _ => busy⟩
        by_contra nothing
        cases unused.mpr nothing
    | true =>
        refine ⟨fun is => ?_, fun inUse => absurd inUse (unused.mp rfl)⟩
        exfalso
        obtain ⟨⟨err', v₁⟩, children, call⟩ := Option.bind_eq_some_iff.mp call
        have loop := vfsNodePutChildren_unused ((vfsNodesDeleteable_iff check).mp rfl) children
        dsimp only at call
        split at call
        · next failed =>
            cases call
            obtain zero | invalid := loop
            · exact failed zero
            · rw [invalid] at is
              cases congrArg Prod.fst is
        · cases call
          have kept := congrArg (fun r => r.2.nodes n) is
          simp only [closeResult, ne_eq, not_true_eq_false, false_and, if_false,
            vfsNodeDelete_nodes, if_true, here] at kept
          cases kept
  · have more : 2 ≤ ({ node with refCount := node.refCount + 1 } : VfsNode).refCount := by
      dsimp only
      omega
    have put := vfsNodePut_more held more
    rw [back] at put
    rw [vfsClose_iff held closes put]
    exact ⟨fun _ => ⟨n, .refl n, by rwa [Vfs.refs_eq here]⟩, fun _ => busy⟩

/-- Closing a node that is new below a cached one leaves the tree as it was. -/
theorem vfsClose_made {p c : NodeId} {made : VfsNode} (here : v.nodes p = some node)
    (gone : v.nodes c = none) (leaf : made.children = []) (unheld : made.refCount = 0)
    (parent : made.parent = some p) (closes : fsClose env made.fs made.inode = 0) :
    Returns (fun fuel => vfsClose env fuel (vfsNodeHold (some c, vfsNodeAttach v p c made)).2 c)
      (0, v) := by
  have held := hold_nodes_same (@vfsNodeAttach_new _ _ _ _ made here gone)
  have put := vfsNodePut_last held (Nat.le_of_eq (by rw [unheld])) leaf
  rw [vfsClose_iff held closes put, drop_hold (vfsNodeAttach_new here gone)]
  have off : p ≠ c := by
    rintro rfl
    rw [gone] at here
    cases here
  refine congrArg (Prod.mk 0) (Vfs.ext ?_ fun m => ?_)
  · simp only [vfsNodeDelete, parent]
    rfl
  · rw [vfsNodeDelete_nodes, vfsNodeAttach_nodes here gone]
    by_cases eq : m = c
    · rw [if_pos eq, eq, gone]
    by_cases eq' : m = p
    · subst eq'
      simp [off, parent, here]
    · have other : made.parent ≠ some m := by
        rw [parent]
        intro same
        cases same
        exact eq' rfl
      rw [if_neg eq, if_neg other, if_neg eq, if_neg eq']

/-- Closing a node that is new below a new one leaves that one. -/
theorem vfsClose_deep {c q : NodeId} (new : MadeLeaf v w c) (off : q ≠ c) (gone : v.nodes q = none)
    (there : (w.nodes q).isSome)
    (closes : ∀ node, w.nodes c = some node → fsClose env node.fs node.inode = 0) :
    ¬ Returns (fun fuel => vfsClose env fuel w c) (0, v) := by
  obtain ⟨node, p, here, leaf, one, -⟩ := new.leaf
  have put := vfsNodePut_last here (Nat.le_of_eq one) leaf
  rw [vfsClose_iff here (closes node here) put]
  intro is
  have kept := congrArg (fun r => (r.2.nodes q).isSome) is
  obtain ⟨left, at_q⟩ := Option.isSome_iff_exists.mp there
  have dropped := (drop_nodes_other off).trans at_q
  simp only [closeResult, ne_eq, not_true_eq_false, false_and, if_false, vfsNodeDelete_nodes, off,
    dropped, gone] at kept
  split at kept
  · cases kept
  · cases kept

/-- Opening a path without `..` and closing it leaves the tree as it was exactly if the path is
    traceless. -/
theorem openClose_iff_traceless (sound : v.Sound depth) (downward : ['.', '.'] ∉ path.splitOn '/')
    (opened : Returns (fun fuel => vfsOpen env fuel v path) (0, some n, w))
    (closes : ∀ node, w.nodes n = some node → fsClose env node.fs node.inode = 0) :
    Returns (fun fuel => vfsClose env fuel w n) (0, v) ↔ Traceless v path := by
  have opening : Opening v w n (pathNames path).reverse := by
    obtain ⟨fuel, done⟩ := opened
    have done := done fuel (Nat.le_refl _)
    unfold vfsOpen at done
    split at done
    · cases done
    obtain ⟨⟨found, v₁⟩, find, done⟩ := Option.bind_eq_some_iff.mp done
    cases found with
    | none => cases done
    | some m =>
        obtain ⟨node, here, done⟩ := Option.bind_eq_some_iff.mp done
        dsimp only at done
        split at done
        · next failed =>
            obtain ⟨⟨err', v₂⟩, -, done⟩ := Option.bind_eq_some_iff.mp done
            simp only [Option.some.injEq, Prod.mk.injEq] at done
            exact absurd done.1 failed
        · cases done
          exact vfsFind_opening sound downward find
  unfold Traceless
  generalize (pathNames path).reverse = pos at opening ⊢
  cases opening with
  | cached at_n =>
      obtain ⟨node, here⟩ := Option.isSome_iff_exists.mp (at_n.isSome sound)
      have closing := closes _ (hold_nodes_same here)
      rw [vfsClose_cached sound here closing]
      constructor
      · exact fun inUse => .inl ⟨n, at_n, inUse⟩
      · rintro (⟨m, at_m, inUse⟩ | ⟨nowhere, -⟩)
        · rwa [at_n.unique sound at_m]
        · exact absurd at_n (nowhere n)
  | made at_p here gone unnamed leaf unheld parent =>
      have closing := closes _ (hold_nodes_same (vfsNodeAttach_new here gone))
      have closed := vfsClose_made here gone leaf unheld parent closing
      exact ⟨fun _ => .inr ⟨not_at_made sound at_p here unnamed, _, at_p⟩, fun _ => closed⟩
  | deep new off gone there fresh fresh' =>
      refine ⟨fun closed => absurd closed (vfsClose_deep new off gone there closes), ?_⟩
      rintro (⟨m, at_m, -⟩ | ⟨-, p, at_p⟩)
      · exact absurd at_m (fresh m)
      · exact absurd at_p (fresh' p)

end

/-! ## A file system with a directory under every name -/

def everyDirEnv : VfsEnv where
  ops _ := ⟨some fun _ => 0, some fun _ => 0, some fun _ _ => .ok oneFileRoot⟩
  alloc v :=
    if (v.nodes 2).isNone then some 2 else if (v.nodes 3).isNone then some 3 else none
  alloc_fresh v n := by
    intro alloc
    split at alloc
    · next free =>
        cases alloc
        exact Option.isNone_iff_eq_none.mp free
    · split at alloc
      · next free =>
          cases alloc
          exact Option.isNone_iff_eq_none.mp free
      · cases alloc

/-- Every childless node but the root and the mount points has a reference. -/
def LeavesHeld (v : Vfs) : Prop := ∀ n node, v.nodes n = some node → node.children = [] →
  v.root ≠ some n → node.mountFs = none → 0 < node.refCount

theorem bareTree_leavesHeld : LeavesHeld bareTree := by
  intro n node here _ other _
  obtain ⟨rfl, -⟩ := @rootTree_node oneFileRoot _ _ here
  exact absurd rfl other

/-- The tree behind `vfs_open` of a path. -/
def openedTree (path : Name) : Vfs :=
  ((vfsOpen everyDirEnv 4 bareTree path).map fun r => r.2.2).getD bareTree

/-- The tree behind `vfs_close` of the node. -/
def closedTree (path : Name) (n : NodeId) : Vfs :=
  ((vfsClose everyDirEnv 4 (openedTree path) n).map Prod.snd).getD bareTree

theorem openClose_one_new : ∃ n w,
    Returns (fun fuel => vfsOpen everyDirEnv fuel bareTree ['/', 'a']) (0, some n, w) ∧
      Returns (fun fuel => vfsClose everyDirEnv fuel w n) (0, bareTree) := by
  have opened : Returns (fun fuel => vfsOpen everyDirEnv fuel bareTree ['/', 'a'])
      (0, some 2, openedTree ['/', 'a']) := by
    refine ⟨4, fun fuel le => ?_⟩
    obtain ⟨fuel, rfl⟩ := Nat.exists_eq_add_of_le' le
    rfl
  refine ⟨2, _, opened, (openClose_iff_traceless bareTree_sound (by decide) opened
    fun _ _ => rfl).mpr (.inr ⟨fun n at_n => ?_, 1, .root rfl⟩)⟩
  cases @rootTree_at oneFileRoot _ _ at_n

/-- Opening and closing `/a/b` leaves the directory `a` in the tree. -/
theorem not_openClose_two_new : LeavesHeld bareTree ∧ ∃ n w,
    Returns (fun fuel => vfsOpen everyDirEnv fuel bareTree ['/', 'a', '/', 'b']) (0, some n, w) ∧
      ¬ Returns (fun fuel => vfsClose everyDirEnv fuel w n) (0, bareTree) := by
  have opened : Returns (fun fuel => vfsOpen everyDirEnv fuel bareTree ['/', 'a', '/', 'b'])
      (0, some 3, openedTree ['/', 'a', '/', 'b']) := by
    refine ⟨4, fun fuel le => ?_⟩
    obtain ⟨fuel, rfl⟩ := Nat.exists_eq_add_of_le' le
    rfl
  have closed : Returns (fun fuel => vfsClose everyDirEnv fuel (openedTree ['/', 'a', '/', 'b']) 3)
      (0, closedTree ['/', 'a', '/', 'b'] 3) := by
    refine ⟨4, fun fuel le => ?_⟩
    obtain ⟨fuel, rfl⟩ := Nat.exists_eq_add_of_le' le
    rfl
  refine ⟨bareTree_leavesHeld, 3, _, opened, fun traceless => ?_⟩
  have left : ((closedTree ['/', 'a', '/', 'b'] 3).nodes 2).isSome := rfl
  rw [(Prod.mk.inj (closed.unique traceless)).2] at left
  cases left

end Sdx.Fs
