import Mathlib.Logic.Function.Basic
import Sdx.Base

/-! # The VFS node cache (`fs/vfs/node.c`, `fs/vfs/vfs.c`)

A node is named by its address and holds its children in the order of the sibling chain.
The calls into a file system are its table of operations; an operation a file system lacks
is `none`. Walks over the tree carry a number of steps, and `none` as a result stands for a
recursion that does not end within them.
-/

namespace Sdx.Fs

/-- The address of a `vfs_node_t`. -/
abbrev NodeId := Nat

/-- The address of an `fs_t`. -/
abbrev FsId := Nat

/-- A name or a path, without its terminating zero. -/
abbrev Name := List Char

inductive FsEntryType where
  | file
  | link
  | dir
  deriving DecidableEq, Inhabited

/-- `fs_inode_t`. -/
structure FsInode where
  type : FsEntryType
  size : Nat
  addr : Nat
  serial : Nat
  ctime : Nat
  atime : Nat
  mtime : Nat
  mode : Nat
  deriving DecidableEq, Inhabited

/-- The operations of an `fs_t`; the result of `namei` is the inode it writes, or an error. -/
structure FsOps where
  opening : Option (FsInode → Int)
  closing : Option (FsInode → Int)
  namei : Option (Option FsInode → Option Name → Except Int FsInode)

/-- `vfs_node_t`. -/
structure VfsNode where
  fs : FsId
  inode : FsInode
  name : Name
  refCount : Nat
  mountFs : Option FsId
  mount : FsInode
  parent : Option NodeId
  children : List NodeId
  deriving Inhabited

/-- The nodes that are allocated, and `vfs_root`. -/
structure Vfs where
  nodes : NodeId → Option VfsNode
  root : Option NodeId

/-- What the VFS uses of its surroundings: the file systems, and the heap, which hands out an
    address that is not in use or `NULL`. -/
structure VfsEnv where
  ops : FsId → FsOps
  alloc : Vfs → Option NodeId
  alloc_fresh : ∀ v n, alloc v = some n → v.nodes n = none

/-- Without memory there is nothing to be fresh. -/
theorem noMemory_fresh (v : Vfs) (n : NodeId) (some_node : none = some n) : v.nodes n = none :=
  nomatch some_node

/-- `NAME_MAX`. -/
def nameMax : Nat := 255

/-- `fs_open`. -/
def fsOpen (env : VfsEnv) (fs : FsId) (inode : FsInode) : Int :=
  match (env.ops fs).opening with
  | some f => f inode
  | none => -eNOSYS

/-- `fs_close`. -/
def fsClose (env : VfsEnv) (fs : FsId) (inode : FsInode) : Int :=
  match (env.ops fs).closing with
  | some f => f inode
  | none => -eNOSYS

/-- `fs_namei`. -/
def fsNamei (env : VfsEnv) (fs : FsId) (dir : Option FsInode) (name : Option Name) :
    Except Int FsInode :=
  match (env.ops fs).namei with
  | some f => f dir name
  | none => .error (-eNOSYS)

namespace Vfs

/-- Write to fields of one node. -/
def setNode (v : Vfs) (n : NodeId) (f : VfsNode → VfsNode) : Vfs :=
  { v with nodes := Function.update v.nodes n ((v.nodes n).map f) }

/-- The reference count of a node, 0 without the node. -/
def refs (v : Vfs) (n : NodeId) : Nat := ((v.nodes n).map VfsNode.refCount).getD 0

end Vfs

/-! ## Nodes -/

/-- `__vfs_node_deleteable` over a list of siblings. -/
def vfsNodesDeleteable (v : Vfs) : Nat → List NodeId → Option Bool
  | 0, _ => none
  | _ + 1, [] => some true
  | fuel + 1, n :: siblings =>
      match v.nodes n with
      | none => none
      | some node =>
          if node.refCount ≠ 0 then some false
          else do
            if ← vfsNodesDeleteable v fuel node.children then vfsNodesDeleteable v fuel siblings
            else some false

/-- Attaching a node to its parent, in front of the other children. -/
def vfsNodeAttach (v : Vfs) (parent new : NodeId) (made : VfsNode) : Vfs :=
  { v with nodes := Function.update v.nodes new (some made) }.setNode parent
    fun p => { p with children := new :: p.children }

/-- `vfs_node_new` below a parent. -/
def vfsNodeNew (env : VfsEnv) (v : Vfs) (parent : NodeId) (node : VfsNode) (name : Name) :
    Option NodeId × Vfs :=
  match fsNamei env node.fs (some node.inode) (some name) with
  | .error _ => (none, v)
  | .ok inode =>
      match env.alloc v with
      | none => (none, v)
      | some new =>
          (some new, vfsNodeAttach v parent new { (default : VfsNode) with
            fs := node.fs, inode := inode, name := name.take nameMax, parent := some parent })

/-- `cur->ref_count++` on the result of a lookup. -/
def vfsNodeHold (result : Option NodeId × Vfs) : Option NodeId × Vfs :=
  match result with
  | (some n, v) => (some n, v.setNode n fun node => { node with refCount := node.refCount + 1 })
  | (none, v) => (none, v)

/-- `vfs_node_get` for the root. -/
def vfsNodeGetRoot (v : Vfs) : Option NodeId × Vfs := vfsNodeHold (v.root, v)

/-- `vfs_node_get` for a name below a parent. -/
def vfsNodeGet (env : VfsEnv) (v : Vfs) (parent : NodeId) (name : Name) : Option NodeId × Vfs :=
  match v.nodes parent with
  | none => (none, v)
  | some node =>
      let named (c : NodeId) : Bool := ((v.nodes c).map VfsNode.name) == some name
      match node.children.find? named with
      | some c => vfsNodeHold (some c, v)
      | none => vfsNodeHold (vfsNodeNew env v parent node name)

/-- Dropping one reference, if there is one. -/
def vfsNodeDrop (v : Vfs) (n : NodeId) : Vfs :=
  v.setNode n fun node => { node with refCount := node.refCount - 1 }

/-- Taking the node out of its parent's children, and freeing it. -/
def vfsNodeDelete (v : Vfs) (n : NodeId) (node : VfsNode) : Vfs :=
  let v := match node.parent with
    | none => { v with root := none }
    | some parent => v.setNode parent fun p => { p with children := p.children.erase n }
  { v with nodes := Function.update v.nodes n none }

mutual

/-- `vfs_node_put`. -/
def vfsNodePut (v : Vfs) : Nat → Option NodeId → Option (Int × Vfs)
  | 0, _ => none
  | _ + 1, none => some (-eINVAL, v)
  | fuel + 1, some n =>
      let v := vfsNodeDrop v n
      match v.nodes n with
      | none => none
      | some node =>
          if node.refCount ≠ 0 then some (-eBUSY, v)
          else do
            if ← vfsNodesDeleteable v fuel node.children then
              let (err, v) ← vfsNodePutChildren v fuel node.children
              if err ≠ 0 then some (err, v) else some (0, vfsNodeDelete v n node)
            else some (-eBUSY, v)

/-- The loop of `vfs_node_put` over the children. It moves on before it puts, so it skips the
    first child and ends with a put of `NULL`. -/
def vfsNodePutChildren (v : Vfs) : Nat → List NodeId → Option (Int × Vfs)
  | 0, _ => none
  | _ + 1, [] => some (0, v)
  | fuel + 1, _ :: rest => do
      let (err, v) ← vfsNodePut v fuel rest.head?
      if err ≠ 0 then some (err, v) else vfsNodePutChildren v fuel rest

end

/-! ## Paths -/

/-- `__vfs_path_next`: the next name and the rest of the path, or `none` for a name that is too
    long. `i` characters of the name are read. -/
def vfsPathNext : Name → Nat → Option (Name × Name)
  | [], _ => some ([], [])
  | c :: path, i =>
      if i > nameMax then none
      else if c = '/' then some ([], path)
      else (vfsPathNext path (i + 1)).map fun (name, rest) => (c :: name, rest)

/-- The loop of `__vfs_find`, at most `steps` names long; a name takes at least one character. -/
def vfsFindLoop (env : VfsEnv) (fuel : Nat) : Nat → Vfs → NodeId → Name →
    Option (Option NodeId × Vfs)
  | 0, v, cur, _ => some (some cur, v)
  | steps + 1, v, cur, path =>
      if path = [] then some (some cur, v)
      else
        match vfsPathNext path 0 with
        | none => some (none, v)
        | some (name, path) =>
            if name = [] ∨ name = ['.'] then vfsFindLoop env fuel steps v cur path
            else if name = ['.', '.'] then do
              let node ← v.nodes cur
              vfsFindLoop env fuel steps v (node.parent.getD cur) path
            else
              let (found, v) := vfsNodeGet env v cur name
              do
                let (_, v) ← vfsNodePut v fuel (some cur)
                match found with
                | none => some (none, v)
                | some next => vfsFindLoop env fuel steps v next path

/-- `__vfs_find`. -/
def vfsFind (env : VfsEnv) (fuel : Nat) (v : Vfs) (path : Name) : Option (Option NodeId × Vfs) :=
  match path with
  | '/' :: path =>
      match vfsNodeGetRoot v with
      | (none, v) => some (none, v)
      | (some root, v) => vfsFindLoop env fuel path.length v root path
  | _ => some (none, v)

/-- `vfs_open`: the error or 0, and the node. -/
def vfsOpen (env : VfsEnv) (fuel : Nat) (v : Vfs) (path : Name) :
    Option (Int × Option NodeId × Vfs) :=
  if path = [] then some (-eINVAL, none, v)
  else do
    match ← vfsFind env fuel v path with
    | (none, v) => some (-eNOENT, none, v)
    | (some n, v) =>
        let node ← v.nodes n
        let err := fsOpen env node.fs node.inode
        if err ≠ 0 then
          let (_, v) ← vfsNodePut v fuel (some n)
          some (err, some n, v)
        else some (0, some n, v)

/-- `vfs_close` of a node. -/
def vfsClose (env : VfsEnv) (fuel : Nat) (v : Vfs) (n : NodeId) : Option (Int × Vfs) := do
  let node ← v.nodes n
  let err := fsClose env node.fs node.inode
  if err ≠ 0 then some (err, v)
  else
    let (err, v) ← vfsNodePut v fuel (some n)
    if err ≠ 0 ∧ err ≠ -eBUSY then some (err, v) else some (0, v)

end Sdx.Fs
