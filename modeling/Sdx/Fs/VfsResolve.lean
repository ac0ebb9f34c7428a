import Sdx.Fs.VfsPut

/-! # The node cache is transparent

A node is at a position, the names from it up to the root. The uncached reference says which
inode is at a position from the file systems and the mount points alone. In a consistent tree
every cached node carries what the reference says, and a lookup keeps the tree consistent while
it makes nodes; so a lookup ends where the reference resolution of its path ends, whatever was
cached before.
-/

namespace Sdx.Fs

open Sdx.Lib

/-! ## The uncached reference -/

/-- The file systems that are mounted, by position. -/
abbrev Mounts := List Name → Option FsId

/-- The root of a mounted file system. -/
def mountedPlace (env : VfsEnv) (fs : FsId) : Option (FsId × FsInode) :=
  (fsNamei env fs none none).toOption.map fun inode => (fs, inode)

/-- What is at a position: below its parent the mount point, if there is one, and otherwise what
    the parent's file system has under the name. -/
def placeAt (env : VfsEnv) (mounts : Mounts) : List Name → Option (FsId × FsInode)
  | [] => (mounts []).bind (mountedPlace env)
  | name :: pos =>
      (placeAt env mounts pos).bind fun (fs, dir) =>
        match mounts (name :: pos) with
        | some mounted => mountedPlace env mounted
        | none => (fsNamei env fs (some dir) (some name)).toOption.map fun inode => (fs, inode)

/-- One component of a path. -/
def resolveName (env : VfsEnv) (mounts : Mounts) (pos : List Name) (name : Name) :
    Option (List Name) :=
  if name = [] ∨ name = ['.'] then some pos
  else if name = ['.', '.'] then some pos.tail
  else if (placeAt env mounts (name :: pos)).isSome then some (name :: pos) else none

/-- The reference resolution of a path. -/
def resolve (env : VfsEnv) (mounts : Mounts) (path : Name) : Option (FsId × FsInode) :=
  ((path.splitOn '/').foldlM (resolveName env mounts) []).bind (placeAt env mounts)

/-! ## Positions -/

/-- The position of a node, from its own name up to the root. -/
inductive Vfs.At (v : Vfs) : List Name → NodeId → Prop where
  | root {r} : v.root = some r → v.At [] r
  | child {pos p node c name} : v.At pos p → v.nodes p = some node → c ∈ node.children →
      v.nameOf c = some name → v.At (name :: pos) c

namespace Vfs.At

variable {v w : Vfs} {depth : NodeId → Nat} {pos : List Name} {n m : NodeId}

/-- Only one node is at a position. -/
theorem unique (sound : v.Sound depth) (here : v.At pos n) (here' : v.At pos m) : n = m := by
  induction here generalizing m with
  | root root =>
      cases here' with
      | root root' =>
          rw [root] at root'
          cases root'
          rfl
  | child _ parent mem named ih =>
      cases here' with
      | child up parent' mem' named' =>
          obtain rfl := ih up
          rw [parent] at parent'
          cases parent'
          exact List.inj_on_of_nodup_map (sound.named _ _ parent) mem mem' (named.trans named'.symm)

theorem recounted (here : v.At pos n) (same : v.Recounted w) : w.At pos n := by
  induction here with
  | root root => exact .root (same.root.trans root)
  | child _ parent mem named ih =>
      obtain ⟨count, now⟩ := same.found parent
      exact .child ih now mem ((same.nameOf _).trans named)

theorem isSome (sound : v.Sound depth) (here : v.At pos n) : (v.nodes n).isSome := by
  cases here with
  | root root => exact sound.tree.root n root
  | child _ parent mem _ =>
      obtain ⟨child, here, -⟩ := sound.tree.child _ _ parent n mem
      rw [here]
      rfl

/-- The parent of a node is at the rest of its position. -/
theorem up {node : VfsNode} (sound : v.Sound depth) (here : v.At pos n)
    (found : v.nodes n = some node) : v.At pos.tail (node.parent.getD n) := by
  cases here with
  | root root =>
      rw [sound.top n node root found]
      exact .root root
  | child above parent mem _ =>
      obtain ⟨child, here, up⟩ := sound.tree.child _ _ parent n mem
      rw [found] at here
      cases here
      rw [up]
      exact above

end Vfs.At

/-! ## Consistent trees -/

/-- The tree caches what the reference says: the mount points are the given ones and carry the
    root of their file system, and any other node what its parent's file system has under its
    name. -/
structure Vfs.Consistent (v : Vfs) (env : VfsEnv) (mounts : Mounts) : Prop where
  mounted : ∀ pos fs, mounts pos = some fs ↔ ∃ n node, v.At pos n ∧ v.nodes n = some node ∧
    node.mountFs ≠ none ∧ node.fs = fs
  carries : ∀ pos n node, v.At pos n → v.nodes n = some node → node.mountFs ≠ none →
    fsNamei env node.fs none none = .ok node.inode
  inherits : ∀ pos n node, v.At pos n → v.nodes n = some node → node.mountFs = none →
    ∃ p parent, node.parent = some p ∧ v.nodes p = some parent ∧ node.fs = parent.fs ∧
      fsNamei env parent.fs (some parent.inode) (some node.name) = .ok node.inode

/-- The file system and the inode of a node. -/
def Vfs.place (v : Vfs) (n : NodeId) : Option (FsId × FsInode) :=
  (v.nodes n).map fun node => (node.fs, node.inode)

namespace Vfs.Consistent

variable {env : VfsEnv} {v w : Vfs} {depth : NodeId → Nat} {mounts : Mounts} {pos : List Name}
  {n parent new : NodeId} {node made : VfsNode}

/-- The mount points are where the reference has them. -/
theorem mounts_eq (consistent : v.Consistent env mounts) (sound : v.Sound depth)
    (here : v.At pos n) (found : v.nodes n = some node) :
    mounts pos = if node.mountFs = none then none else some node.fs := by
  split
  · next unmounted =>
      cases is : mounts pos with
      | none => rfl
      | some fs =>
          obtain ⟨m, other, here', found', point, -⟩ := (consistent.mounted pos fs).mp is
          obtain rfl := here.unique sound here'
          rw [found] at found'
          cases found'
          exact absurd unmounted point
  · next point => exact (consistent.mounted pos node.fs).mpr ⟨n, node, here, found, point, rfl⟩

/-- A cached node carries what the reference has at its position. -/
theorem placeAt_eq (consistent : v.Consistent env mounts) (sound : v.Sound depth)
    (here : v.At pos n) (found : v.nodes n = some node) :
    placeAt env mounts pos = some (node.fs, node.inode) := by
  induction here generalizing node with
  | @root r root =>
      have at_root : v.At [] r := .root root
      have point : node.mountFs ≠ none := by
        intro unmounted
        obtain ⟨p, -, up, -⟩ := consistent.inherits [] r node at_root found unmounted
        rw [sound.top r node root found] at up
        cases up
      rw [placeAt, consistent.mounts_eq sound at_root found, if_neg point, Option.bind_some,
        mountedPlace, consistent.carries [] r node at_root found point]
      rfl
  | @child pos p above c name at_p at_parent mem named ih =>
      have at_c : v.At (name :: pos) c := .child at_p at_parent mem named
      have is_name : node.name = name := by
        rw [nameOf, found] at named
        exact Option.some.inj named
      rw [placeAt, ih at_parent, Option.bind_some, consistent.mounts_eq sound at_c found]
      by_cases unmounted : node.mountFs = none
      · obtain ⟨p', parent, up, at_p', fs, inode⟩ :=
          consistent.inherits _ c node at_c found unmounted
        obtain ⟨child, at_child, up'⟩ := sound.tree.child p above at_parent c mem
        rw [found] at at_child
        cases at_child
        rw [up] at up'
        cases up'
        rw [at_parent] at at_p'
        cases at_p'
        rw [is_name] at inode
        simp only [if_pos unmounted, inode, fs]
        rfl
      · simp only [if_neg unmounted, mountedPlace, consistent.carries _ c node at_c found unmounted]
        rfl

theorem recounted (consistent : v.Consistent env mounts) (same : v.Recounted w) :
    w.Consistent env mounts := by
  refine ⟨fun pos fs => (consistent.mounted pos fs).trans ?_, fun pos n node here found => ?_,
    fun pos n node here found unmounted => ?_⟩
  · constructor
    · rintro ⟨n, node, here, found, point, is⟩
      obtain ⟨count, now⟩ := same.found found
      exact ⟨n, _, here.recounted same, now, point, is⟩
    · rintro ⟨n, node, here, found, point, is⟩
      obtain ⟨count, old⟩ := same.symm.found found
      exact ⟨n, _, here.recounted same.symm, old, point, is⟩
  · obtain ⟨count, old⟩ := same.symm.found found
    exact consistent.carries pos n { node with refCount := count } (here.recounted same.symm) old
  · obtain ⟨count, old⟩ := same.symm.found found
    obtain ⟨p, parent, up, at_p, fs, inode⟩ :=
      consistent.inherits pos n { node with refCount := count } (here.recounted same.symm) old
        unmounted
    obtain ⟨count', now⟩ := same.found at_p
    exact ⟨p, _, up, now, fs, inode⟩

end Vfs.Consistent

/-! ## A new node -/

section

variable {env : VfsEnv} {v : Vfs} {depth : NodeId → Nat} {mounts : Mounts} {pos : List Name}
  {n parent new : NodeId} {node made : VfsNode}

/-- An old node keeps everything but its children, and of these it loses none. -/
theorem vfsNodeAttach_old (here : v.nodes parent = some node) (gone : v.nodes new = none)
    {old : VfsNode} (found : v.nodes n = some old) : ∃ children,
      (vfsNodeAttach v parent new made).nodes n = some { old with children := children } ∧
      (∀ c ∈ old.children, c ∈ children) ∧
      ∀ c ∈ children, c ∈ old.children ∨ c = new ∧ n = parent := by
  have off : n ≠ new := by
    rintro rfl
    rw [gone] at found
    cases found
  rw [vfsNodeAttach_nodes here gone, if_neg off]
  split
  · next eq =>
      subst eq
      rw [here] at found
      cases found
      refine ⟨_, rfl, fun c mem => List.mem_cons_of_mem _ mem, fun c mem => ?_⟩
      cases mem with
      | head => exact .inr ⟨rfl, rfl⟩
      | tail _ mem => exact .inl mem
  · exact ⟨old.children, found, fun c mem => mem, fun c mem => .inl mem⟩

theorem vfsNodeAttach_new (here : v.nodes parent = some node) (gone : v.nodes new = none) :
    (vfsNodeAttach v parent new made).nodes new = some made := by
  rw [vfsNodeAttach_nodes here gone, if_pos rfl]

/-- A node after the attaching is the new one or an old one. -/
theorem vfsNodeAttach_cases (here : v.nodes parent = some node) (gone : v.nodes new = none)
    {now : VfsNode} (found : (vfsNodeAttach v parent new made).nodes n = some now) :
    n = new ∧ now = made ∨ ∃ old children, v.nodes n = some old ∧
      now = { old with children := children } := by
  by_cases eq : n = new
  · subst eq
    rw [vfsNodeAttach_new here gone] at found
    cases found
    exact .inl ⟨rfl, rfl⟩
  · cases old : v.nodes n with
    | none =>
        rw [vfsNodeAttach_nodes here gone, if_neg eq] at found
        split at found
        · next same =>
            subst same
            rw [here] at old
            cases old
        · rw [old] at found
          cases found
    | some old =>
        obtain ⟨children, now, -⟩ := @vfsNodeAttach_old _ _ _ _ _ made here gone _ old
        rw [found] at now
        cases now
        exact .inr ⟨_, children, rfl, rfl⟩

theorem vfsNodeAttach_nameOf (here : v.nodes parent = some node) (gone : v.nodes new = none)
    (found : (v.nodes n).isSome) :
    (vfsNodeAttach v parent new made).nameOf n = v.nameOf n := by
  obtain ⟨old, found⟩ := Option.isSome_iff_exists.mp found
  obtain ⟨children, now, -⟩ := @vfsNodeAttach_old _ _ _ _ _ made here gone _ found
  rw [Vfs.nameOf, now, Vfs.nameOf, found]
  rfl

/-- The new node is below its parent, and the old ones are where they were. -/
theorem vfsNodeAttach_at (sound : v.Sound depth) (here : v.nodes parent = some node)
    (gone : v.nodes new = none) (leaf : made.children = []) :
    (vfsNodeAttach v parent new made).At pos n ↔
      v.At pos n ∨ n = new ∧ ∃ up, v.At up parent ∧ pos = made.name :: up := by
  have old : ∀ {pos n}, v.At pos n → (vfsNodeAttach v parent new made).At pos n := by
    intro pos n at_n
    induction at_n with
    | root root => exact .root root
    | child at_p at_parent mem named ih =>
        obtain ⟨children, now, stay, -⟩ := @vfsNodeAttach_old _ _ _ _ _ made here gone _ at_parent
        obtain ⟨child, at_c, -⟩ := sound.tree.child _ _ at_parent _ mem
        refine .child ih now (stay _ mem) ?_
        rw [vfsNodeAttach_nameOf here gone (by rw [at_c]; rfl), named]
  constructor
  · intro at_n
    induction at_n with
    | root root => exact .inl (.root root)
    | @child pos p now c name at_p at_parent mem named ih =>
        obtain ⟨rfl, rfl⟩ | ⟨above, children, at_p', rfl⟩ := vfsNodeAttach_cases here gone at_parent
        · rw [leaf] at mem
          cases mem
        · obtain above_p | ⟨rfl, -⟩ := ih
          · obtain ⟨children', now, -, only⟩ := @vfsNodeAttach_old _ _ _ _ _ made here gone _ at_p'
            rw [at_parent] at now
            cases now
            obtain mem | ⟨rfl, rfl⟩ := only c mem
            · obtain ⟨child, at_c, -⟩ := sound.tree.child p above at_p' c mem
              rw [vfsNodeAttach_nameOf here gone (by rw [at_c]; rfl)] at named
              exact .inl (.child above_p at_p' mem named)
            · rw [Vfs.nameOf, vfsNodeAttach_new here gone] at named
              cases named
              exact .inr ⟨rfl, pos, above_p, rfl⟩
          · rw [gone] at at_p'
            cases at_p'
  · rintro (at_n | ⟨rfl, up, at_parent, rfl⟩)
    · exact old at_n
    · have now : (vfsNodeAttach v parent n made).nodes parent =
          some { node with children := n :: node.children } := by
        have off : parent ≠ n := by
          rintro rfl
          rw [gone] at here
          cases here
        rw [vfsNodeAttach_nodes here gone, if_neg off, if_pos rfl]
      refine .child (old at_parent) now List.mem_cons_self ?_
      rw [Vfs.nameOf, vfsNodeAttach_new here gone]
      rfl

/-- A node that carries what its parent's file system has under its name. -/
theorem Vfs.Consistent.attach (consistent : v.Consistent env mounts) (sound : v.Sound depth)
    (here : v.nodes parent = some node) (gone : v.nodes new = none) (leaf : made.children = [])
    (up : made.parent = some parent) (unmounted : made.mountFs = none) (fs : made.fs = node.fs)
    (inode : fsNamei env node.fs (some node.inode) (some made.name) = .ok made.inode) :
    (vfsNodeAttach v parent new made).Consistent env mounts := by
  have old : ∀ {pos n now}, (vfsNodeAttach v parent new made).At pos n →
      (vfsNodeAttach v parent new made).nodes n = some now →
      now = made ∨ v.At pos n ∧ ∃ old children, v.nodes n = some old ∧
        now = { old with children := children } := by
    intro pos n now at_n found
    obtain ⟨-, rfl⟩ | ⟨old, children, was, rfl⟩ := vfsNodeAttach_cases here gone found
    · exact .inl rfl
    · obtain at_n | ⟨rfl, -⟩ := (vfsNodeAttach_at sound here gone leaf).mp at_n
      · exact .inr ⟨at_n, old, children, was, rfl⟩
      · rw [gone] at was
        cases was
  refine ⟨fun pos fs => (consistent.mounted pos fs).trans ?_, fun pos n now at_n found point => ?_,
    fun pos n now at_n found is => ?_⟩
  · constructor
    · rintro ⟨n, node', at_n, found, point, is⟩
      obtain ⟨children, now, -⟩ := @vfsNodeAttach_old _ _ _ _ _ made here gone _ found
      exact ⟨n, _, (vfsNodeAttach_at sound here gone leaf).mpr (.inl at_n), now, point, is⟩
    · rintro ⟨n, now, at_n, found, point, is⟩
      obtain rfl | ⟨at_n, old, children, was, rfl⟩ := old at_n found
      · exact absurd unmounted point
      · exact ⟨n, old, at_n, was, point, is⟩
  · obtain rfl | ⟨at_n, old, children, was, rfl⟩ := old at_n found
    · exact absurd unmounted point
    · exact consistent.carries pos n old at_n was point
  · obtain rfl | ⟨at_n, old, children, was, rfl⟩ := old at_n found
    · obtain ⟨children, at_parent, -⟩ := @vfsNodeAttach_old _ _ _ _ _ now here gone _ here
      exact ⟨parent, _, up, at_parent, fs, inode⟩
    · obtain ⟨p, above, up, at_p, fs, inode⟩ := consistent.inherits pos n old at_n was is
      obtain ⟨children', now, -⟩ := @vfsNodeAttach_old _ _ _ _ _ made here gone _ at_p
      exact ⟨p, _, up, now, fs, inode⟩

end

/-! ## The walk -/

/-- The next name is the first component of the path. -/
theorem vfsPathNext_splitOn (path : Name) (i : Nat)
    (short : ∀ name ∈ (path.splitOn '/').head?, i + name.length ≤ nameMax) :
    ∃ name rest, vfsPathNext path i = some (name, rest) ∧ rest.length ≤ path.length - 1 ∧
      (path.splitOn '/' = name :: rest.splitOn '/' ∨ path.splitOn '/' = [name] ∧ rest = []) := by
  induction path generalizing i with
  | nil => exact ⟨[], [], rfl, Nat.le_refl _, .inr ⟨List.splitOn_nil _, rfl⟩⟩
  | cons c path ih =>
      have small : ¬ i > nameMax := by
        obtain ⟨name, names, eq⟩ := List.exists_cons_of_ne_nil (List.splitOn_ne_nil '/' (c :: path))
        have := short name (by rw [eq]; rfl)
        omega
      rw [List.splitOn_cons_eq_if_modifyHead] at short ⊢
      by_cases slash : c = '/'
      · subst slash
        exact ⟨[], path, by simp [vfsPathNext, small], Nat.le_refl _, .inl rfl⟩
      · have other : (c == '/') = false := by simpa using slash
        simp only [other, Bool.false_eq_true, if_false] at short ⊢
        obtain ⟨name, rest, next, shorter, split⟩ := ih (i + 1) (fun name mem => by
          obtain ⟨names, eq⟩ := List.head?_eq_some_iff.mp mem
          have := short (c :: name) (by rw [eq]; rfl)
          rw [List.length_cons] at this
          omega)
        refine ⟨c :: name, rest, ?_, ?_, ?_⟩
        · simp [vfsPathNext, small, slash, next]
        · rw [List.length_cons]
          omega
        · obtain split | ⟨split, rfl⟩ := split
          · rw [split]
            exact .inl rfl
          · rw [split]
            exact .inr ⟨rfl, rfl⟩

section

variable {env : VfsEnv} {v : Vfs} {depth : NodeId → Nat} {mounts : Mounts} {pos : List Name}
  {cur : NodeId} {name path : Name} {steps : Nat}

/-- A lookup ends at a position of a consistent tree, or finds nothing. -/
def Arrives (env : VfsEnv) (mounts : Mounts) (lookup : Nat → Option (Option NodeId × Vfs))
    (target : Option (List Name)) : Prop :=
  ∃ result v', Returns lookup (result, v') ∧
    match target with
    | none => result = none
    | some pos => ∃ n depth, result = some n ∧ v'.Sound depth ∧ v'.Consistent env mounts ∧ v'.At pos n

theorem Arrives.congr {lookup lookup' : Nat → Option (Option NodeId × Vfs)}
    {target : Option (List Name)} (eq : ∀ fuel, lookup fuel = lookup' fuel)
    (arrives : Arrives env mounts lookup' target) : Arrives env mounts lookup target := by
  obtain ⟨result, v', returns, arrives⟩ := arrives
  exact ⟨result, v', .congr eq returns, arrives⟩

/-- `vfs_node_get` finds the child with the name, or makes a node for it. -/
theorem vfsNodeGet_cases {node : VfsNode} (here : v.nodes cur = some node) (env : VfsEnv)
    (name : Name) :
    (∃ c ∈ node.children, v.nameOf c = some name ∧
      vfsNodeGet env v cur name = vfsNodeHold (some c, v)) ∨
    (∀ c ∈ node.children, v.nameOf c ≠ some name) ∧
      vfsNodeGet env v cur name = vfsNodeHold (vfsNodeNew env v cur node name) := by
  unfold vfsNodeGet
  rw [here]
  dsimp only
  cases found : node.children.find? fun c => ((v.nodes c).map VfsNode.name) == some name with
  | some c =>
      have named := List.find?_some found
      exact .inl ⟨c, List.mem_of_find?_eq_some found, beq_iff_eq.mp named, rfl⟩
  | none =>
      have unnamed := List.find?_eq_none.mp found
      exact .inr ⟨fun c mem is => unnamed c mem (beq_iff_eq.mpr is), rfl⟩

/-- Without a cached child there is no mount point. -/
theorem Vfs.Consistent.unmounted {node : VfsNode} (consistent : v.Consistent env mounts)
    (sound : v.Sound depth) (at_cur : v.At pos cur) (here : v.nodes cur = some node)
    (unnamed : ∀ c ∈ node.children, v.nameOf c ≠ some name) : mounts (name :: pos) = none := by
  cases is : mounts (name :: pos) with
  | none => rfl
  | some fs =>
      obtain ⟨c, -, at_c, -⟩ := (consistent.mounted _ fs).mp is
      cases at_c with
      | child at_p parent mem named =>
          obtain rfl := at_p.unique sound at_cur
          rw [here] at parent
          cases parent
          exact absurd named (unnamed c mem)

/-- In a consistent tree `vfs_node_get` finds exactly what the reference has, if there is memory. -/
theorem vfsNodeGet_place (sound : v.Sound depth) (consistent : v.Consistent env mounts)
    (at_cur : v.At pos cur) (memory : env.alloc v ≠ none) (short : name.length ≤ nameMax) :
    match placeAt env mounts (name :: pos) with
    | none => vfsNodeGet env v cur name = (none, v)
    | some _ => ∃ c v' depth', vfsNodeGet env v cur name = (some c, v') ∧ v'.Sound depth' ∧
        v'.Consistent env mounts ∧ v'.At pos cur ∧ v'.At (name :: pos) c := by
  obtain ⟨node, here⟩ := Option.isSome_iff_exists.mp (at_cur.isSome sound)
  obtain ⟨c, mem, named, get⟩ | ⟨unnamed, get⟩ := vfsNodeGet_cases here env name
  · obtain ⟨child, at_c, -⟩ := sound.tree.child cur node here c mem
    have at_child : v.At (name :: pos) c := .child at_cur here mem named
    have same := Vfs.Recounted.hold v c
    rw [consistent.placeAt_eq sound at_child at_c]
    exact ⟨c, _, depth, get, sound.recounted same, consistent.recounted same,
      at_cur.recounted same, at_child.recounted same⟩
  · have nothing := consistent.unmounted sound at_cur here unnamed
    rw [placeAt, consistent.placeAt_eq sound at_cur here, Option.bind_some]
    simp only [nothing]
    cases inode : fsNamei env node.fs (some node.inode) (some name) with
    | error err =>
        have new : vfsNodeNew env v cur node name = (none, v) := by
          rw [vfsNodeNew, inode]
        rw [new] at get
        exact get
    | ok inode' =>
        obtain ⟨new, alloc⟩ := Option.ne_none_iff_exists'.mp memory
        have gone := env.alloc_fresh v new alloc
        have fits : name.take nameMax = name := List.take_of_length_le short
        generalize made_eq : ({ (default : VfsNode) with
          fs := node.fs, inode := inode', name := name, parent := some cur } : VfsNode) = made
        have new_eq : vfsNodeNew env v cur node name = (some new, vfsNodeAttach v cur new made) := by
          rw [vfsNodeNew, inode]
          simp only [alloc, fits, made_eq]
        obtain ⟨leaf, up, unmounted, fs, is, called⟩ : made.children = [] ∧ made.parent = some cur ∧
            made.mountFs = none ∧ made.fs = node.fs ∧ made.inode = inode' ∧ made.name = name := by
          rw [← made_eq]
          exact ⟨rfl, rfl, rfl, rfl, rfl, rfl⟩
        rw [new_eq] at get
        have attached := sound.attach here gone up leaf (called ▸ short) (called ▸ unnamed)
        have kept := consistent.attach sound here gone leaf up unmounted fs
          (by rw [called, is, inode])
        have at_parent := (@vfsNodeAttach_at _ _ _ _ _ _ _ made sound here gone leaf).mpr (.inl at_cur)
        have at_new := (@vfsNodeAttach_at _ _ _ _ _ _ _ made sound here gone leaf).mpr
          (.inr ⟨rfl, pos, at_cur, congrArg (· :: pos) called.symm⟩)
        have same := Vfs.Recounted.hold (vfsNodeAttach v cur new made) new
        exact ⟨new, _, _, get, attached.recounted same, kept.recounted same,
          at_parent.recounted same, at_new.recounted same⟩

theorem vfsFindLoop_nil {fuel steps : Nat} :
    vfsFindLoop env fuel (steps + 1) v cur [] = some (some cur, v) := by
  rw [vfsFindLoop, if_pos rfl]

/-- The walk ends at a name that is too long, -/
theorem vfsFindLoop_long {fuel steps : Nat} {path : Name} (ended : path ≠ [])
    (next : vfsPathNext path 0 = none) :
    vfsFindLoop env fuel (steps + 1) v cur path = some (none, v) := by
  simp only [vfsFindLoop, ended, next, if_false]

/-- stays at an empty name and at `.`, -/
theorem vfsFindLoop_skip {fuel steps : Nat} {path name rest : Name} (ended : path ≠ [])
    (next : vfsPathNext path 0 = some (name, rest)) (skip : name = [] ∨ name = ['.']) :
    vfsFindLoop env fuel (steps + 1) v cur path = vfsFindLoop env fuel steps v cur rest := by
  simp only [vfsFindLoop, ended, next, skip, if_false, if_true]

/-- goes up at `..`, -/
theorem vfsFindLoop_up {fuel steps : Nat} {path rest : Name} {node : VfsNode} (ended : path ≠ [])
    (next : vfsPathNext path 0 = some (['.', '.'], rest)) (here : v.nodes cur = some node) :
    vfsFindLoop env fuel (steps + 1) v cur path =
      vfsFindLoop env fuel steps v (node.parent.getD cur) rest := by
  simp [vfsFindLoop, ended, next, here]

/-- and looks up any other name. -/
theorem vfsFindLoop_get {fuel steps : Nat} {path name rest : Name} (ended : path ≠ [])
    (next : vfsPathNext path 0 = some (name, rest)) (skip : ¬ (name = [] ∨ name = ['.']))
    (dots : name ≠ ['.', '.']) : vfsFindLoop env fuel (steps + 1) v cur path =
      (vfsNodePut (vfsNodeGet env v cur name).2 fuel (some cur)).bind fun (_, w) =>
        match (vfsNodeGet env v cur name).1 with
        | none => some (none, w)
        | some next => vfsFindLoop env fuel steps w next rest := by
  simp only [vfsFindLoop, ended, next, skip, dots, if_false]
  rfl

/-- The walk ends at a name that is not there. -/
theorem vfsFindLoop_missing {w : Vfs} {steps : Nat} {path name rest : Name} (sound : v.Sound depth)
    (there : (v.nodes cur).isSome) (ended : path ≠ [])
    (next : vfsPathNext path 0 = some (name, rest)) (skip : ¬ (name = [] ∨ name = ['.']))
    (dots : name ≠ ['.', '.']) (get : vfsNodeGet env v cur name = (none, w)) :
    ∃ v', Returns (fun fuel => vfsFindLoop env fuel (steps + 1) v cur path) (none, v') := by
  have step := fun fuel : Nat =>
    @vfsFindLoop_get env v cur fuel steps _ _ _ ended next skip dots
  obtain rfl := vfsNodeGet_none get
  rw [get] at step
  obtain ⟨node, here⟩ := Option.isSome_iff_exists.mp there
  obtain ⟨err, v', put⟩ := vfsNodePut_returns sound here
  exact ⟨v', .congr step (put.returns.bind (.const _))⟩

/-- Behind a step down the put of the node above only drops a reference. -/
theorem vfsNodePut_left {w : Vfs} {depth' : NodeId → Nat} {c : NodeId} (sound : v.Sound depth)
    (get : vfsNodeGet env v cur name = (some c, w)) (sound' : w.Sound depth')
    (there : (w.nodes cur).isSome) :
    ∃ err, Returns (fun fuel => vfsNodePut w fuel (some cur)) (err, vfsNodeDrop w cur) := by
  obtain ⟨node, here⟩ := Option.isSome_iff_exists.mp there
  obtain ⟨err, w', put⟩ := vfsNodePut_returns sound' here
  obtain ⟨fuel, done⟩ := put.returns
  obtain rfl := vfsNodePut_after_get sound.tree get (done fuel (Nat.le_refl _))
  exact ⟨err, put.returns⟩

/-- Where the name is there, the node that is left is dropped, and the walk goes on below. -/
theorem vfsFindLoop_down {w : Vfs} {depth' : NodeId → Nat} {c : NodeId} {steps : Nat}
    {path name rest : Name} {r : Option NodeId × Vfs} (sound : v.Sound depth) (ended : path ≠ [])
    (next : vfsPathNext path 0 = some (name, rest)) (skip : ¬ (name = [] ∨ name = ['.']))
    (dots : name ≠ ['.', '.']) (get : vfsNodeGet env v cur name = (some c, w))
    (sound' : w.Sound depth') (there : (w.nodes cur).isSome)
    (returns : Returns (fun fuel => vfsFindLoop env fuel steps (vfsNodeDrop w cur) c rest) r) :
    Returns (fun fuel => vfsFindLoop env fuel (steps + 1) v cur path) r := by
  have step := fun fuel : Nat =>
    @vfsFindLoop_get env v cur fuel steps _ _ _ ended next skip dots
  rw [get] at step
  obtain ⟨err, put⟩ := vfsNodePut_left sound get sound' there
  exact .congr step (put.bind returns)

/-- A walk from a node of a consistent tree ends where the reference ends, and its last state is
    consistent again. -/
theorem vfsFindLoop_arrives (memory : ∀ w : Vfs, (∃ limit : Nat, ∀ n : Nat, (w.nodes n).isSome →
      n < limit) → env.alloc w ≠ none)
    (short : ∀ name ∈ path.splitOn '/', name.length ≤ nameMax) (enough : path.length ≤ steps)
    (sound : v.Sound depth) (consistent : v.Consistent env mounts) (at_cur : v.At pos cur) :
    Arrives env mounts (fun fuel => vfsFindLoop env fuel steps v cur path)
      ((path.splitOn '/').foldlM (resolveName env mounts) pos) := by
  have stop : ∀ {v : Vfs} {depth pos cur}, v.Sound depth → v.Consistent env mounts →
      v.At pos cur → Arrives env mounts (fun _ => some (some cur, v)) (some pos) :=
    fun sound consistent at_cur =>
      ⟨_, _, .const _, _, _, rfl, sound, consistent, at_cur⟩
  have stays : ∀ pos, resolveName env mounts pos [] = some pos := fun pos => by simp [resolveName]
  induction steps generalizing v depth pos cur path with
  | zero =>
      obtain rfl := List.eq_nil_of_length_eq_zero (Nat.le_zero.mp enough)
      rw [List.splitOn_nil, List.foldlM_cons, stays]
      exact stop sound consistent at_cur
  | succ steps ih =>
      by_cases ended : path = []
      · subst ended
        rw [List.splitOn_nil, List.foldlM_cons, stays]
        exact .congr (fun _ => vfsFindLoop_nil) (stop sound consistent at_cur)
      obtain ⟨name, rest, next, shorter, split⟩ := vfsPathNext_splitOn path 0 (fun name mem => by
        have := short name (List.mem_of_head? mem)
        omega)
      -- One component at a time, also when the path ends with it.
      have first : (path.splitOn '/').foldlM (resolveName env mounts) pos =
          (resolveName env mounts pos name).bind fun pos =>
            (rest.splitOn '/').foldlM (resolveName env mounts) pos := by
        obtain split | ⟨split, rfl⟩ := split
        · rw [split, List.foldlM_cons]
          rfl
        · rw [split, List.foldlM_cons, List.splitOn_nil]
          simp only [List.foldlM_cons, stays]
          rfl
      have short' : ∀ name ∈ rest.splitOn '/', name.length ≤ nameMax := by
        obtain split | ⟨-, rfl⟩ := split
        · intro name mem
          exact short name (by rw [split]; exact List.mem_cons_of_mem _ mem)
        · intro name mem
          rw [List.splitOn_nil, List.mem_singleton] at mem
          subst mem
          exact Nat.zero_le _
      have enough' : rest.length ≤ steps := by
        have := List.length_pos_of_ne_nil ended
        omega
      rw [first, resolveName]
      by_cases skip : name = [] ∨ name = ['.']
      · rw [if_pos skip]
        exact .congr (fun _ => vfsFindLoop_skip ended next skip)
          (ih short' enough' sound consistent at_cur)
      rw [if_neg skip]
      by_cases dots : name = ['.', '.']
      · rw [if_pos dots]
        subst dots
        obtain ⟨node, here⟩ := Option.isSome_iff_exists.mp (at_cur.isSome sound)
        exact .congr (fun _ => vfsFindLoop_up ended next here)
          (ih short' enough' sound consistent (at_cur.up sound here))
      rw [if_neg dots]
      have called : name.length ≤ nameMax := by
        obtain split | ⟨split, -⟩ := split <;> exact short name (by rw [split]; simp)
      have get := @vfsNodeGet_place _ _ _ _ _ _ name sound consistent at_cur
        (memory v sound.finite) called
      cases target : placeAt env mounts (name :: pos) with
      | none =>
          rw [target] at get
          obtain ⟨v', returns⟩ :=
            vfsFindLoop_missing sound (at_cur.isSome sound) ended next skip dots get
          exact ⟨none, v', returns, rfl⟩
      | some place =>
          rw [target] at get
          obtain ⟨c, v₁, depth₁, get, sound₁, consistent₁, at_cur₁, at_c⟩ := get
          have same := Vfs.Recounted.drop v₁ cur
          obtain ⟨result, v', returns, arrives⟩ := ih short' enough' (sound₁.recounted same)
            (consistent₁.recounted same) (at_c.recounted same)
          exact ⟨result, v', vfsFindLoop_down sound ended next skip dots get sound₁
            (at_cur₁.isSome sound₁) returns, arrives⟩

/-- A lookup finds what the reference finds. -/
theorem vfsFind_resolves (memory : ∀ w : Vfs, (∃ limit : Nat, ∀ n : Nat, (w.nodes n).isSome →
      n < limit) → env.alloc w ≠ none) (absolute : path.head? = some '/')
    (short : ∀ name ∈ path.splitOn '/', name.length ≤ nameMax) (sound : v.Sound depth)
    (consistent : v.Consistent env mounts) :
    ∃ result v', Returns (fun fuel => vfsFind env fuel v path) (result, v') ∧
      result.map v'.place = (resolve env mounts path).map some := by
  obtain ⟨path, rfl⟩ := List.head?_eq_some_iff.mp absolute
  have split : ('/' :: path).splitOn '/' = [] :: path.splitOn '/' := by
    rw [List.splitOn_cons_eq_if_modifyHead]
    rfl
  have start : resolve env mounts ('/' :: path) =
      ((path.splitOn '/').foldlM (resolveName env mounts) []).bind (placeAt env mounts) := by
    rw [resolve, split, List.foldlM_cons]
    rfl
  rw [split] at short
  cases root : v.root with
  | none =>
      have unmounted : mounts [] = none := by
        cases is : mounts [] with
        | none => rfl
        | some fs =>
            obtain ⟨n, -, at_n, -⟩ := (consistent.mounted [] fs).mp is
            cases at_n with
            | root root' =>
                rw [root] at root'
                cases root'
      -- Without a root the reference finds nothing anywhere.
      have nowhere : ∀ pos, placeAt env mounts pos = none := by
        intro pos
        induction pos with
        | nil => rw [placeAt, unmounted, Option.bind_none]
        | cons name pos ih => rw [placeAt, ih, Option.bind_none]
      have nothing : placeAt env mounts = fun _ => none := funext nowhere
      refine ⟨none, v, .congr (fun fuel => ?_) (.const _), ?_⟩
      · simp [vfsFind, vfsNodeGetRoot, root, vfsNodeHold]
      · rw [start, nothing]
        cases (path.splitOn '/').foldlM (resolveName env mounts) [] <;> rfl
  | some r =>
      have same := Vfs.Recounted.hold v r
      have at_root : v.At [] r := .root root
      obtain ⟨result, v', returns, arrives⟩ := vfsFindLoop_arrives memory
        (fun name mem => short name (List.mem_cons_of_mem _ mem)) (Nat.le_refl _)
        (sound.recounted same) (consistent.recounted same) (at_root.recounted same)
      refine ⟨result, v', .congr (fun fuel => ?_) returns, ?_⟩
      · simp only [vfsFind, vfsNodeGetRoot, root, vfsNodeHold]
      rw [start]
      cases target : (path.splitOn '/').foldlM (resolveName env mounts) [] with
      | none =>
          rw [target] at arrives
          obtain rfl : result = none := arrives
          rfl
      | some pos =>
          rw [target] at arrives
          obtain ⟨n, depth', rfl, sound', consistent', at_n⟩ := arrives
          obtain ⟨node, here⟩ := Option.isSome_iff_exists.mp (at_n.isSome sound')
          rw [Option.bind_some, consistent'.placeAt_eq sound' at_n here, Option.map_some,
            Option.map_some, Vfs.place, here]
          rfl

/-- Two consistent trees with the same mount points give every lookup the same file system and
    inode, whatever else they cache, and these are the reference's. -/
theorem vfsFind_transparent {w : Vfs} {depth' : NodeId → Nat}
    (memory : ∀ u : Vfs, (∃ limit : Nat, ∀ n : Nat, (u.nodes n).isSome → n < limit) →
      env.alloc u ≠ none) (absolute : path.head? = some '/')
    (short : ∀ name ∈ path.splitOn '/', name.length ≤ nameMax)
    (sound : v.Sound depth) (consistent : v.Consistent env mounts)
    (sound' : w.Sound depth') (consistent' : w.Consistent env mounts) :
    ∃ result v' result' w', Returns (fun fuel => vfsFind env fuel v path) (result, v') ∧
      Returns (fun fuel => vfsFind env fuel w path) (result', w') ∧
      result.map v'.place = result'.map w'.place ∧
      result.map v'.place = (resolve env mounts path).map some := by
  obtain ⟨result, v', returns, eq⟩ := vfsFind_resolves memory absolute short sound consistent
  obtain ⟨result', w', returns', eq'⟩ := vfsFind_resolves memory absolute short sound' consistent'
  exact ⟨result, v', result', w', returns, returns', eq.trans eq'.symm, eq⟩

end

/-! ## A tree without files -/

/-- Only the root is mounted. -/
def rootMounts : Mounts := fun pos => if pos = [] then some 1 else none

/-- Only a root with an inode is cached. -/
def rootTree (inode : FsInode) : Vfs where
  nodes := fun n => if n = 1 then some { (default : VfsNode) with
    fs := 1, inode := inode, refCount := 1, mountFs := some 1 } else none
  root := some 1

section

variable {inode : FsInode}

theorem rootTree_node {n : NodeId} {node : VfsNode} (here : (rootTree inode).nodes n = some node) :
    n = 1 ∧ node = { (default : VfsNode) with
      fs := 1, inode := inode, refCount := 1, mountFs := some 1 } := by
  simp only [rootTree] at here
  split at here
  · next eq => exact ⟨eq, (Option.some.inj here).symm⟩
  · cases here

theorem rootTree_sound (inode : FsInode) : (rootTree inode).Sound fun _ => 0 where
  tree := by
    refine ⟨fun n node here c mem => ?_, fun n node p here up => ?_, fun r root => ?_⟩
    · obtain ⟨rfl, rfl⟩ := rootTree_node here
      cases mem
    · obtain ⟨rfl, rfl⟩ := rootTree_node here
      cases up
    · cases root
      rfl
  linked n node p here up := by
    obtain ⟨rfl, rfl⟩ := rootTree_node here
    cases up
  top r node _ here := by
    obtain ⟨rfl, rfl⟩ := rootTree_node here
    rfl
  named n node here := by
    obtain ⟨rfl, rfl⟩ := rootTree_node here
    exact .nil
  fits n node here := by
    obtain ⟨rfl, rfl⟩ := rootTree_node here
    exact Nat.zero_le _
  finite := by
    refine ⟨2, fun n here => ?_⟩
    obtain ⟨node, here⟩ := Option.isSome_iff_exists.mp here
    obtain ⟨rfl, -⟩ := rootTree_node here
    decide

theorem rootTree_at {pos : List Name} {n : NodeId} (at_n : (rootTree inode).At pos n) : pos = [] := by
  cases at_n with
  | root _ => rfl
  | child _ parent mem _ =>
      obtain ⟨rfl, rfl⟩ := rootTree_node parent
      cases mem

/-- The tree caches the root of a mounted file system. -/
theorem rootTree_consistent {env : VfsEnv} (carries : fsNamei env 1 none none = .ok inode) :
    (rootTree inode).Consistent env rootMounts where
  mounted pos fs := by
    constructor
    · intro is
      simp only [rootMounts] at is
      split at is
      · next eq =>
          subst eq
          cases is
          exact ⟨1, _, .root rfl, rfl, nofun, rfl⟩
      · cases is
    · rintro ⟨n, node, at_n, here, -, rfl⟩
      obtain ⟨rfl, rfl⟩ := rootTree_node here
      obtain rfl := rootTree_at at_n
      rfl
  carries pos n node _ here _ := by
    obtain ⟨rfl, rfl⟩ := rootTree_node here
    exact carries
  inherits pos n node _ here unmounted := by
    obtain ⟨rfl, rfl⟩ := rootTree_node here
    cases unmounted

end

/-! ## A file system with one file -/

/-- The root directory. -/
def oneFileRoot : FsInode := { (default : FsInode) with type := .dir }

/-- The file `a` in it. -/
def oneFileA : FsInode := { (default : FsInode) with type := .file, size := 5, addr := 1 }

def oneFileNamei (dir : Option FsInode) (name : Option Name) : Except Int FsInode :=
  if name = none then .ok oneFileRoot
  else if dir = some oneFileRoot ∧ name = some ['a'] then .ok oneFileA
  else .error (-eNOENT)

/-- Memory for a node whenever some address is free. -/
noncomputable def oneFileEnv : VfsEnv where
  ops _ := ⟨none, none, some oneFileNamei⟩
  alloc v := open Classical in if free : ∃ n, v.nodes n = none then some free.choose else none
  alloc_fresh v n := by
    intro alloc
    split at alloc
    · next free =>
        cases alloc
        exact free.choose_spec
    · cases alloc

theorem oneFileEnv_memory (v : Vfs)
    (finite : ∃ limit : Nat, ∀ n : Nat, (v.nodes n).isSome → n < limit) :
    oneFileEnv.alloc v ≠ none := by
  obtain ⟨limit, finite⟩ := finite
  have free : ∃ n, v.nodes n = none := by
    refine ⟨limit, Option.not_isSome_iff_eq_none.mp fun found => ?_⟩
    exact Nat.lt_irrefl _ (finite limit found)
  simp [oneFileEnv, free]

/-- Only the root is cached. -/
def bareTree : Vfs where
  nodes := fun n => if n = 1 then some { (default : VfsNode) with
    fs := 1, inode := oneFileRoot, refCount := 1, mountFs := some 1 } else none
  root := some 1

theorem bareTree_sound : bareTree.Sound fun _ => 0 := rootTree_sound oneFileRoot

theorem bareTree_consistent : bareTree.Consistent oneFileEnv rootMounts :=
  rootTree_consistent rfl

/-- The file is found at `/.//a`, cached or not. -/
theorem vfsFind_transparent_oneFile : ∃ result v' result' w',
    Returns (fun fuel => vfsFind oneFileEnv fuel bareTree ['/', '.', '/', '/', 'a']) (result, v') ∧
    Returns (fun fuel => vfsFind oneFileEnv fuel (vfsNodeAttach bareTree 1 2
      { (default : VfsNode) with fs := 1, inode := oneFileA, name := ['a'], parent := some 1 })
      ['/', '.', '/', '/', 'a']) (result', w') ∧
    result.map v'.place = result'.map w'.place ∧
    result.map v'.place = some (some (1, oneFileA)) := by
  have resolved : resolve oneFileEnv rootMounts ['/', '.', '/', '/', 'a'] =
      some (1, oneFileA) := by rfl
  have root : bareTree.nodes 1 = some { (default : VfsNode) with
    fs := 1, inode := oneFileRoot, refCount := 1, mountFs := some 1 } := rfl
  have sound := @Vfs.Sound.attach _ _ _ 2 _ { (default : VfsNode) with
    fs := 1, inode := oneFileA, name := ['a'], parent := some 1 } bareTree_sound root
    rfl rfl rfl (by decide) nofun
  have consistent := @Vfs.Consistent.attach _ _ _ _ _ 2 _ { (default : VfsNode) with
    fs := 1, inode := oneFileA, name := ['a'], parent := some 1 } bareTree_consistent
    bareTree_sound root rfl rfl rfl rfl rfl rfl
  have both := @vfsFind_transparent _ _ _ _ ['/', '.', '/', '/', 'a'] _ _ oneFileEnv_memory rfl
    (by decide) bareTree_sound bareTree_consistent sound consistent
  rw [resolved] at both
  exact both

end Sdx.Fs
