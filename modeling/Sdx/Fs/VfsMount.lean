import Sdx.Fs.VfsLookup

/-! # Mounting and unmounting (`fs/vfs/vfs.c`)

`vfs_mount` means to save the inode of the mount point in `mount` and to put the root of the file
system in its place, and `vfs_umount` to put it back. Both copies go the other way: the first
overwrites the inode with the old `mount`, the second saves the root inode only to clear it. So
after the two the node has its file system back, but the inode of the other file system's root.
-/

namespace Sdx.Fs

open Sdx.Lib

/-- `vfs_node_is_fs_root`. -/
def vfsNodeIsFsRoot (v : Vfs) (node : VfsNode) : Bool :=
  match node.parent with
  | none => true
  | some p => (v.nodes p).map VfsNode.fs ≠ some node.fs

/-- `vfs_node_new` for the root. -/
def vfsNodeNewRoot (env : VfsEnv) (v : Vfs) (fs : FsId) : Option NodeId × Vfs :=
  match fsNamei env fs none none with
  | .error _ => (none, v)
  | .ok inode =>
      match env.alloc v with
      | none => (none, v)
      | some new =>
          (some new, ⟨Function.update v.nodes new (some { (default : VfsNode) with
            fs := fs, inode := inode }), some new⟩)

/-- `vfs_mount` on the mount point. A failing `fs_namei` may have written to the inode: it leaves
    `left`. -/
def vfsMountOn (env : VfsEnv) (left : FsId → FsInode → FsInode) (fuel : Nat) (v : Vfs) (n : NodeId)
    (fs : FsId) : Option (Int × Vfs) :=
  let v := v.setNode n fun node => { node with inode := node.mount }
  match fsNamei env fs none none with
  | .error err =>
      let v := v.setNode n fun node => { node with inode := left fs node.inode }
      (vfsNodePut v fuel (some n)).bind fun (_, v) => some (err, v)
  | .ok inode =>
      let v := v.setNode n fun node => { node with inode := inode }
      some (0, v.setNode n fun node => { node with mountFs := some node.fs, fs := fs })

/-- `vfs_mount`. -/
def vfsMount (env : VfsEnv) (left : FsId → FsInode → FsInode) (fuel : Nat) (v : Vfs) (path : Name)
    (fs : FsId) : Option (Int × Vfs) :=
  if path = ['/'] then
    match vfsNodeNewRoot env v fs with
    | (none, v) => some (-eNOMEM, v)
    | (some n, v) => vfsMountOn env left fuel
        (v.setNode n fun node => { node with refCount := node.refCount + 1 }) n fs
  else
    (vfsFind env fuel v path).bind fun
      | (none, v) => some (-eNOENT, v)
      | (some n, v) =>
          (v.nodes n).bind fun node =>
            if node.inode.type ≠ .dir then some (-eINVAL, v) else vfsMountOn env left fuel v n fs

/-- `vfs_umount` on the mount point. -/
def vfsUmountOn (v : Vfs) (n : NodeId) : Vfs :=
  let v := v.setNode n fun node =>
    { node with mount := node.inode, fs := node.mountFs.getD node.fs }
  v.setNode n fun node => { node with mount := default, mountFs := none }

/-- `vfs_umount`. -/
def vfsUmount (env : VfsEnv) (fuel : Nat) (v : Vfs) (path : Name) : Option (Int × Vfs) :=
  (vfsFind env fuel v path).bind fun
    | (none, v) => some (-eNOENT, v)
    | (some n, v) =>
        (v.nodes n).bind fun node =>
          if ¬ vfsNodeIsFsRoot v node ∨ node.mountFs = none then some (-eINVAL, v)
          else
            (vfsNodePut (vfsUmountOn v n) fuel (some n)).bind fun (_, v) =>
              vfsNodePut v fuel (some n)

/-! ## Undoing a mount -/

/-- The two nodes have the same file system, inode, and mount. -/
structure SameMount (a b : VfsNode) : Prop where
  fs : b.fs = a.fs
  inode : b.inode = a.inode
  mountFs : b.mountFs = a.mountFs
  mount : b.mount = a.mount

/-- A successful mount of `fs` at the node `n` puts the root of `fs` there, and an unmount of the
    same path leaves the node, if it stays, as it was; a failed one leaves it so at once, with its
    references. -/
def MountUndone (env : VfsEnv) (left : FsId → FsInode → FsInode) (v : Vfs) (path : Name) (fs : FsId)
    (n : NodeId) (node : VfsNode) : Prop :=
  ∃ err v', Returns (fun fuel => vfsMount env left fuel v path fs) (err, v') ∧
    (err = 0 → (∃ new, v'.nodes n = some new ∧ new.fs = fs ∧
        fsNamei env fs none none = .ok new.inode) ∧
      ∃ err' v'', Returns (fun fuel => vfsUmount env fuel v' path) (err', v'') ∧
        ∀ new, v''.nodes n = some new → SameMount node new) ∧
    (err ≠ 0 → (∀ new, v'.nodes n = some new → SameMount node new) ∧ v'.refs n = v.refs n)

/-- When a mount is undone, where the lookup of the path leads from `v` to the node. -/
def MountReversible (env : VfsEnv) (left : FsId → FsInode → FsInode) (v : Vfs) (path : Name)
    (fs : FsId) (n : NodeId) (node : VfsNode) : Prop :=
  match fsNamei env fs none none with
  | .ok root =>
      if path = ['/'] then env.alloc v = none
      else node.children = [] ∧ v.refs n = 0 ∧ node.refCount = 1 ∨
        root = node.inode ∧ node.mount = default
  | .error _ =>
      path = ['/'] ∨ node.refCount - 1 = v.refs n ∧
        (node.children = [] ∧ node.refCount ≤ 1 ∨ left fs node.mount = node.inode)

section

variable {env : VfsEnv} {left : FsId → FsInode → FsInode} {v v₁ : Vfs} {depth : NodeId → Nat}
  {path : Name} {fs : FsId} {n : NodeId} {node : VfsNode} {root : FsInode} {err : Int}

theorem vfsMountOn_ok (ok : fsNamei env fs none none = .ok root) (here : v.nodes n = some node) :
    ∃ v', (∀ fuel, vfsMountOn env left fuel v n fs = some (0, v')) ∧ v.SameLinks v' ∧
      v'.nodes n = some { node with inode := root, mountFs := some node.fs, fs := fs } ∧
      ∀ m, m ≠ n → v'.nodes m = v.nodes m := by
  refine ⟨((v.setNode n fun node => { node with inode := node.mount }).setNode n
      fun node => { node with inode := root }).setNode n
      fun node => { node with mountFs := some node.fs, fs := fs }, fun fuel => ?_, ?_, ?_, ?_⟩
  · simp only [vfsMountOn, ok]
  · refine .setNode (.setNode (.setNode (.refl v) ?_) ?_) ?_ <;> exact fun _ => rfl
  · simp [here]
  · intro m off
    simp [off]

/-- A failed mount has put the node, with whatever inode is left. -/
theorem vfsMountOn_error (failed : fsNamei env fs none none = .error err) (sound : v.Sound depth)
    (here : v.nodes n = some node) :
    ∃ v', Returns (fun fuel => vfsMountOn env left fuel v n fs) (err, v') ∧
      v'.refs n = node.refCount - 1 ∧ (v'.nodes n = none ↔ node.children = [] ∧ node.refCount ≤ 1) ∧
      ∀ new, v'.nodes n = some new → new.fs = node.fs ∧ new.inode = left fs node.mount ∧
        new.mountFs = node.mountFs ∧ new.mount = node.mount := by
  generalize written : (v.setNode n fun node => { node with inode := node.mount }).setNode n
    (fun node => { node with inode := left fs node.inode }) = w
  have same : v.SameLinks w := by
    rw [← written]
    refine .setNode (.setNode (.refl v) ?_) ?_ <;> exact fun _ => rfl
  have at_n : w.nodes n = some { node with inode := left fs node.mount } := by
    rw [← written]
    simp [here]
  obtain ⟨err', v', put⟩ := vfsNodePut_returns (sound.relinked same) at_n
  have call : ∀ fuel, vfsMountOn env left fuel v n fs =
      (vfsNodePut w fuel (some n)).bind fun r => some (err, r.2) := by
    intro fuel
    rw [← written]
    simp only [vfsMountOn, failed]
  refine ⟨v', .congr call (put.returns.bind (.const _)), ?_, ?_, fun new there => ?_⟩
  · obtain ⟨fuel, done⟩ := put.returns
    rw [vfsNodePut_refs (done fuel (Nat.le_refl _)) n, Vfs.refs_eq at_n, one_true rfl]
  · constructor
    · intro gone
      apply Classical.byContradiction
      intro held
      obtain ⟨new, there, -⟩ := put.kept (fun few => held ⟨few.2, few.1⟩)
      rw [gone] at there
      cases there
    · exact fun last => put.gone last.2 last.1
  · obtain ⟨old, was, eq⟩ := put.prunes n new there
    rw [at_n] at was
    cases was
    rw [eq]
    exact ⟨rfl, rfl, rfl, rfl⟩

/-- An unmount of a path that leads to a mount point. -/
theorem vfsUmount_returns (sound : v₁.Sound depth)
    (again : Returns (fun fuel => vfsFind env fuel v path) (some n, v₁))
    (here : v₁.nodes n = some node) (point : node.mountFs = some fs)
    (fsRoot : vfsNodeIsFsRoot v₁ node) (held : node.children = [] → 2 ≤ node.refCount) :
    ∃ err v', Returns (fun fuel => vfsUmount env fuel v path) (err, v') ∧
      (v'.nodes n = none ↔ node.children = [] ∧ node.refCount = 2) ∧
      ∀ new, v'.nodes n = some new → new.fs = fs ∧ new.inode = node.inode ∧
        new.mountFs = none ∧ new.mount = default := by
  have same : v₁.SameLinks (vfsUmountOn v₁ n) := by
    refine .setNode (.setNode (.refl v₁) ?_) ?_ <;> exact fun _ => rfl
  have at_n : (vfsUmountOn v₁ n).nodes n =
      some { node with fs := fs, mount := default, mountFs := none } := by
    simp [vfsUmountOn, here, point]
  obtain ⟨⟨err, v'⟩, returns, prunes, gone⟩ := vfsNodePut_twice (sound.relinked same) at_n held
  refine ⟨err, v', ?_, gone.trans And.comm, fun new there => ?_⟩
  · refine again.bind (g := fun fuel (r : Option NodeId × Vfs) => match r with
      | (none, v) => some (-eNOENT, v)
      | (some n, v) =>
          (v.nodes n).bind fun node =>
            if ¬ vfsNodeIsFsRoot v node ∨ node.mountFs = none then some (-eINVAL, v)
            else
              (vfsNodePut (vfsUmountOn v n) fuel (some n)).bind fun (_, v) =>
                vfsNodePut v fuel (some n)) (.congr (fun fuel => ?_) returns)
    simp [here, fsRoot, point]
  · obtain ⟨old, was, eq⟩ := prunes n new there
    rw [at_n] at was
    cases was
    rw [eq]
    exact ⟨rfl, rfl, rfl, rfl⟩

/-- Whether a mount is undone depends only on what the calls return. -/
theorem mountUndone_iff {v' : Vfs}
    (returns : Returns (fun fuel => vfsMount env left fuel v path fs) (err, v')) :
    MountUndone env left v path fs n node ↔
      (err = 0 → (∃ new, v'.nodes n = some new ∧ new.fs = fs ∧
          fsNamei env fs none none = .ok new.inode) ∧
        ∃ err' v'', Returns (fun fuel => vfsUmount env fuel v' path) (err', v'') ∧
          ∀ new, v''.nodes n = some new → SameMount node new) ∧
      (err ≠ 0 → (∀ new, v'.nodes n = some new → SameMount node new) ∧ v'.refs n = v.refs n) := by
  constructor
  · rintro ⟨err', v'', returns', undone⟩
    cases returns.unique returns'
    exact undone
  · exact fun undone => ⟨err, v', returns, undone⟩

theorem vfsNodeNewRoot_some {new : NodeId} (ok : fsNamei env fs none none = .ok root)
    (alloc : env.alloc v = some new) : ∃ w made, vfsNodeNewRoot env v fs = (some new, w) ∧
      w.nodes new = some made ∧ ∀ m, m ≠ new → w.nodes m = v.nodes m := by
  refine ⟨⟨Function.update v.nodes new (some { (default : VfsNode) with fs := fs, inode := root }),
    some new⟩, _, ?_, Function.update_self .., fun m off => Function.update_of_ne off ..⟩
  simp only [vfsNodeNewRoot, ok, alloc]

/-- A mount at `/` makes another root. -/
theorem mountUndone_root
    (resolves : Returns (fun fuel => vfsFind env fuel v ['/']) (some n, v₁))
    (here : v₁.nodes n = some node) (other : fs ≠ node.fs) :
    MountUndone env left v ['/'] fs n node ↔ MountReversible env left v ['/'] fs n node := by
  have same : v.Recounted v₁ := by
    obtain ⟨fuel, done⟩ := resolves
    have done := done fuel (Nat.le_refl _)
    cases root : v.root with
    | none =>
        simp only [vfsFind, vfsNodeGetRoot, root, vfsNodeHold] at done
        cases done
    | some r =>
        simp only [vfsFind, vfsNodeGetRoot, root] at done
        cases done
        exact .hold v n
  obtain ⟨count, old⟩ := same.symm.found here
  -- Without a new root nothing has changed.
  have failed : (∀ fuel, vfsMount env left fuel v ['/'] fs = some (-eNOMEM, v)) →
      MountUndone env left v ['/'] fs n node := by
    intro call
    refine ⟨-eNOMEM, v, .congr call (.const _), fun zero => absurd zero (by decide), fun _ => ?_⟩
    refine ⟨fun new there => ?_, rfl⟩
    rw [old] at there
    cases there
    exact ⟨rfl, rfl, rfl, rfl⟩
  cases ok : fsNamei env fs none none with
  | error err =>
      simp only [MountReversible, ok, true_or, iff_true]
      exact failed fun fuel => by simp [vfsMount, vfsNodeNewRoot, ok]
  | ok root =>
      simp only [MountReversible, ok, if_true]
      cases alloc : env.alloc v with
      | none =>
          simp only [iff_true]
          exact failed fun fuel => by simp [vfsMount, vfsNodeNewRoot, ok, alloc]
      | some new =>
          have gone := env.alloc_fresh v new alloc
          have off : n ≠ new := by
            rintro rfl
            rw [gone] at old
            cases old
          obtain ⟨w, made, newRoot, at_new, kept⟩ := vfsNodeNewRoot_some ok alloc
          obtain ⟨v', call, -, -, elsewhere⟩ := @vfsMountOn_ok _ left
            (w.setNode new fun node => { node with refCount := node.refCount + 1 }) _ new _ _ ok
            (by rw [Vfs.setNode_nodes_same, at_new]; rfl)
          have mount : Returns (fun fuel => vfsMount env left fuel v ['/'] fs) (0, v') := by
            refine .congr (fun fuel => ?_) (.const (0, v'))
            rw [← call fuel]
            simp only [vfsMount, if_true, newRoot]
          rw [mountUndone_iff mount]
          refine ⟨fun undone => ?_, fun none => absurd none (Option.some_ne_none new)⟩
          obtain ⟨⟨new', there, is, -⟩, -⟩ := undone.1 rfl
          rw [elsewhere n off, Vfs.setNode_nodes_other off, kept n off, old] at there
          cases there
          exact absurd is.symm other

/-- A mount point whose parent has another file system is the root of its own. -/
theorem vfsNodeIsFsRoot_of_ne (other : ∀ p parent, node.parent = some p → v.nodes p = some parent →
    parent.fs ≠ node.fs) : vfsNodeIsFsRoot v node := by
  unfold vfsNodeIsFsRoot
  cases parent : node.parent with
  | none => rfl
  | some p =>
      rw [decide_eq_true_eq]
      intro same
      obtain ⟨above, at_p, eq⟩ := Option.map_eq_some_iff.mp same
      exact other p above parent at_p eq

/-- The calls of a mount behind the lookup of its path. -/
theorem vfsMount_returns (slash : path ≠ ['/'])
    (resolves : Returns (fun fuel => vfsFind env fuel v path) (some n, v₁))
    (here : v₁.nodes n = some node) (directory : node.inode.type = .dir) {r : Int × Vfs}
    (returns : Returns (fun fuel => vfsMountOn env left fuel v₁ n fs) r) :
    Returns (fun fuel => vfsMount env left fuel v path fs) r := by
  refine .congr (fun fuel => ?_) (resolves.bind (g := fun fuel (r : Option NodeId × Vfs) =>
    match r with
    | (none, v) => some (-eNOENT, v)
    | (some n, v) =>
        (v.nodes n).bind fun node =>
          if node.inode.type ≠ .dir then some (-eINVAL, v) else vfsMountOn env left fuel v n fs)
    (.congr (fun fuel => ?_) returns))
  · rw [vfsMount, if_neg slash]
  · simp [here, directory]

/-- A mount that fails keeps the node exactly if the inode that is left is the old one, or the
    node goes, and the lookup has taken one reference. -/
theorem mountUndone_error (sound : v.Sound depth) (failed : fsNamei env fs none none = .error err)
    (nonzero : err ≠ 0) (slash : path ≠ ['/']) (fits : ¬ Overruns path)
    (resolves : Returns (fun fuel => vfsFind env fuel v path) (some n, v₁))
    (here : v₁.nodes n = some node) (directory : node.inode.type = .dir) :
    MountUndone env left v path fs n node ↔ node.refCount - 1 = v.refs n ∧
      (node.children = [] ∧ node.refCount ≤ 1 ∨ left fs node.mount = node.inode) := by
  obtain ⟨fuel, done⟩ := resolves
  obtain ⟨⟨depth₁, sound₁⟩, -, -⟩ := vfsFind_again sound fits (done fuel (Nat.le_refl _))
  obtain ⟨v', returns, refs, gone, fields⟩ := @vfsMountOn_error _ left _ _ _ _ _ _ failed sound₁ here
  rw [mountUndone_iff (vfsMount_returns slash ⟨fuel, done⟩ here directory returns)]
  constructor
  · rintro ⟨-, undone⟩
    obtain ⟨same, count⟩ := undone nonzero
    refine ⟨refs.symm.trans count, ?_⟩
    cases there : v'.nodes n with
    | none => exact .inl (gone.mp there)
    | some new => exact .inr ((fields new there).2.1.symm.trans (same new there).inode)
  · rintro ⟨count, kept⟩
    refine ⟨fun zero => absurd zero nonzero, fun _ => ⟨fun new there => ?_, refs.trans count⟩⟩
    obtain ⟨fs, inode, mountFs, mount⟩ := fields new there
    obtain dropped | same := kept
    · rw [gone.mpr dropped] at there
      cases there
    · exact ⟨fs, inode.trans same, mountFs, mount⟩

/-- A mount that succeeds is undone exactly if the unmount drops the node, or the inode of the node
    was the root of the mounted file system and nothing was saved before. -/
theorem mountUndone_ok (sound : v.Sound depth) (ok : fsNamei env fs none none = .ok root)
    (slash : path ≠ ['/']) (fits : ¬ Overruns path)
    (resolves : Returns (fun fuel => vfsFind env fuel v path) (some n, v₁))
    (here : v₁.nodes n = some node) (directory : node.inode.type = .dir)
    (unmounted : node.mountFs = none)
    (otherParent : ∀ p parent, node.parent = some p → v₁.nodes p = some parent → fs ≠ parent.fs) :
    MountUndone env left v path fs n node ↔
      node.children = [] ∧ v.refs n = 0 ∧ node.refCount = 1 ∨
        root = node.inode ∧ node.mount = default := by
  obtain ⟨fuel, done⟩ := resolves
  obtain ⟨⟨depth₁, sound₁⟩, -, again⟩ := vfsFind_again sound fits (done fuel (Nat.le_refl _))
  obtain ⟨v₂, call, links, at_n, elsewhere⟩ := @vfsMountOn_ok _ left _ _ _ _ _ ok here
  obtain ⟨v₃, found, same, leaf⟩ := again v₂ depth₁ (sound₁.relinked links) links.covers
  obtain ⟨count, at_n'⟩ := same.found at_n
  -- The references after both lookups.
  have twice : node.children = [] → count + v.refs n = node.refCount + node.refCount ∧
      v.refs n + 1 ≤ node.refCount := by
    intro empty
    have is : v₂.Leaf n := by
      intro new there
      rw [at_n] at there
      cases there
      exact empty
    have counts := leaf is
    rw [Vfs.refs_eq at_n', Vfs.refs_eq at_n, Vfs.refs_eq here] at counts
    exact counts
  have fsRoot : vfsNodeIsFsRoot v₃ { node with
      inode := root, mountFs := some node.fs, fs := fs, refCount := count } := by
    refine vfsNodeIsFsRoot_of_ne fun p parent up at_p => ?_
    obtain ⟨count', old⟩ := same.symm.found at_p
    have off : p ≠ n := by
      rintro rfl
      have := (sound₁.tree.parent p node p here up).2
      omega
    rw [elsewhere p off] at old
    exact (otherParent p _ up old).symm
  obtain ⟨err, v', umount, gone, fields⟩ := vfsUmount_returns
    ((sound₁.relinked links).recounted same) found at_n' rfl fsRoot (fun empty => by
      have := twice empty
      dsimp only
      omega)
  have mount := vfsMount_returns slash ⟨fuel, done⟩ here directory (.congr call (.const _))
  rw [mountUndone_iff mount]
  constructor
  · rintro ⟨undone, -⟩
    obtain ⟨-, err', v'', umount', restored⟩ := undone rfl
    cases umount.unique umount'
    cases there : v'.nodes n with
    | none =>
        obtain ⟨empty, two⟩ := gone.mp there
        have := twice empty
        dsimp only at two
        exact .inl ⟨empty, by omega, by omega⟩
    | some new =>
        have fields := fields new there
        have restored := restored new there
        exact .inr ⟨fields.2.1.symm.trans restored.inode,
          (fields.2.2.2.symm.trans restored.mount).symm⟩
  · intro reversible
    refine ⟨fun _ => ⟨⟨_, at_n, rfl, ok⟩, err, v', umount, fun new there => ?_⟩,
      fun failed => absurd rfl failed⟩
    obtain ⟨empty, unheld, one⟩ | ⟨is, zero⟩ := reversible
    · have := twice empty
      rw [gone.mpr ⟨empty, by dsimp only; omega⟩] at there
      cases there
    · obtain ⟨fs', inode', mountFs, mount⟩ := fields new there
      exact ⟨fs', inode'.trans is, mountFs.trans unmounted.symm, mount.trans zero.symm⟩

/-- A mount is undone exactly when it is reversible. -/
theorem mountUndone_iff_reversible (sound : v.Sound depth)
    (errors : ∀ err, fsNamei env fs none none = .error err → err ≠ 0) (fits : ¬ Overruns path)
    (resolves : Returns (fun fuel => vfsFind env fuel v path) (some n, v₁))
    (here : v₁.nodes n = some node) (directory : node.inode.type = .dir)
    (unmounted : node.mountFs = none) (other : fs ≠ node.fs)
    (otherParent : ∀ p parent, node.parent = some p → v₁.nodes p = some parent → fs ≠ parent.fs) :
    MountUndone env left v path fs n node ↔ MountReversible env left v path fs n node := by
  by_cases slash : path = ['/']
  · subst slash
    exact mountUndone_root resolves here other
  cases root : fsNamei env fs none none with
  | error err =>
      rw [mountUndone_error sound root (errors err root) slash fits resolves here directory]
      simp only [MountReversible, root, slash, false_or]
  | ok inode =>
      rw [mountUndone_ok sound root slash fits resolves here directory unmounted otherParent]
      simp only [MountReversible, root, slash, if_false]

end

/-! ## A directory that is in use -/

/-- The directory `a` of the root, inode 1, with one reference. -/
def usedDir : VfsNode := { (default : VfsNode) with
  fs := 1, inode := { oneFileRoot with addr := 1 }, name := ['a'], refCount := 1, parent := some 1 }

def usedTree : Vfs := vfsNodeAttach bareTree 1 2 usedDir

theorem usedTree_sound : usedTree.Sound (Function.update (fun _ => 0) 2 1) :=
  bareTree_sound.attach rfl rfl rfl rfl (by decide) nofun

/-- The state behind a lookup of `/a`. -/
def usedTreeFound : Vfs := vfsNodeDrop
  (vfsNodeHold (some 2, (vfsNodeHold (some 1, usedTree)).2)).2 1

theorem usedTree_find : Returns (fun fuel => vfsFind oneFileEnv fuel usedTree ['/', 'a'])
    (some 2, usedTreeFound) := by
  refine ⟨1, fun fuel le => ?_⟩
  obtain ⟨fuel, rfl⟩ := Nat.exists_eq_add_of_le' le
  rfl

theorem usedTree_parent {p : NodeId} {parent : VfsNode} (up : usedDir.parent = some p)
    (at_p : usedTreeFound.nodes p = some parent) : 2 ≠ parent.fs := by
  cases up
  have root : usedTreeFound.nodes 1 = some { (default : VfsNode) with
    fs := 1, inode := oneFileRoot, refCount := 1, mountFs := some 1, children := [2] } := rfl
  rw [root] at at_p
  cases at_p
  decide

theorem not_overruns_a : ¬ Overruns ['/', 'a'] := by
  rintro ⟨name, is, long⟩
  have last : (['/', 'a'].splitOn '/').getLast? = some ['a'] := rfl
  rw [last] at is
  cases is
  cases long

theorem mountUndone_usedTree :
    MountUndone oneFileEnv (fun _ inode => inode) usedTree ['/', 'a'] 2 2
      { usedDir with refCount := 2 } ↔
    MountReversible oneFileEnv (fun _ inode => inode) usedTree ['/', 'a'] 2 2
      { usedDir with refCount := 2 } :=
  mountUndone_iff_reversible usedTree_sound (by intro err failed; cases failed) not_overruns_a
    usedTree_find rfl rfl rfl (by decide) fun _ _ => usedTree_parent

/-- `/a` is a directory in use and no mount point; a mount there and an unmount leave it with the
    inode of the mounted root. -/
theorem not_mountUndone : ∃ v' node,
    Returns (fun fuel => vfsFind oneFileEnv fuel usedTree ['/', 'a']) (some 2, v') ∧
    v'.nodes 2 = some node ∧ node.inode.type = .dir ∧ node.mountFs = none ∧ 2 ≠ node.fs ∧
    ¬ MountUndone oneFileEnv (fun _ inode => inode) usedTree ['/', 'a'] 2 2 node := by
  refine ⟨usedTreeFound, { usedDir with refCount := 2 }, usedTree_find, rfl, rfl, rfl, by decide, ?_⟩
  intro undone
  obtain ⟨-, unheld, -⟩ | ⟨same, -⟩ := (mountUndone_ok usedTree_sound rfl (by decide) not_overruns_a
    usedTree_find rfl rfl rfl fun _ _ => usedTree_parent).mp undone
  · cases unheld
  · cases same

end Sdx.Fs
