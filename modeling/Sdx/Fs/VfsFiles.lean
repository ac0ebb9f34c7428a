import Sdx.Fs.Fat32Lookup
import Sdx.Fs.Fat32Namei
import Sdx.Fs.VfsPath

/-! # Names below a file (`__vfs_find` on a FAT32 volume)

Neither the walk nor the node cache nor `fat32_namei` asks whether what a name is looked up in is a
directory: `fat32_namei` gives the cluster of its inode to `fat32_entry_from`, whatever the type.
So the bytes of a file are taken for directory entries, and a name among them leads to a node.
-/

namespace Sdx.Fs

open Sdx.Lib Sdx.Lib.Trace

/-! ## A volume in the tree -/

/-- Characters other than zero. -/
def IsCString (path : Name) : Prop := ∀ c ∈ path, 0 < c.toNat ∧ c.toNat < 256

/-- The bytes of a name. -/
def nameBytes (name : Name) : List UInt8 := name.map fun c => UInt8.ofNat c.toNat

/-- The name is not skipped, and does not lead upwards. -/
def GoesDown (name : Name) : Prop := name ≠ [] ∧ name ≠ ['.'] ∧ name ≠ ['.', '.']

/-- A name that a path can look up in a directory. -/
structure FileName (name : Name) : Prop where
  goesDown : GoesDown name
  bytes : IsCString name
  free : '/' ∉ name
  short : name.length ≤ nameMax

/-- The file system at an address is a volume. -/
structure ServesFat32 (env : VfsEnv) (id : FsId) (fs : Fat32Fs) : Prop where
  root : fsNamei env id none none = .ok (fat32RootInode fs)
  namei : ∀ dir name r, Returns (fun fuel => fat32Namei fs dir (nameBytes name) fuel) r →
    fsNamei env id dir (some name) = r

/-- What `fat32_namei` finds at a position of the volume. -/
inductive FatAt (fs : Fat32Fs) : List Name → FsInode → Prop where
  | root : FatAt fs [] (fat32RootInode fs)
  | child {pos dir name inode} : FatAt fs pos dir → FileName name →
      Returns (fun fuel => fat32Namei fs (some dir) (nameBytes name) fuel) (.ok inode) →
      FatAt fs (name :: pos) inode

/-- What is at a position of the tree, if it is on the volume: the root of the volume at a mount
    point, and below it, up to other mount points, what `fat32_namei` finds. -/
inductive OnVolume (mounts : Mounts) (id : FsId) (fs : Fat32Fs) : List Name → FsInode → Prop where
  | mount {pos} : mounts pos = some id → OnVolume mounts id fs pos (fat32RootInode fs)
  | child {pos dir name inode} : OnVolume mounts id fs pos dir → mounts (name :: pos) = none →
      FileName name →
      Returns (fun fuel => fat32Namei fs (some dir) (nameBytes name) fuel) (.ok inode) →
      OnVolume mounts id fs (name :: pos) inode

/-! ## What is asked of a volume -/

section

variable {env : VfsEnv} {id : FsId} {fs : Fat32Fs} {mounts : Mounts} {v v₁ : Vfs}
  {depth : NodeId → Nat} {pos target : List Name} {dir inode : FsInode} {name rest path : Name}
  {before behind : List Name} {cur c : NodeId} {steps : Nat}

/-! ## `fat32_namei` -/

/-- What is on the volume is what the reference has. -/
theorem OnVolume.placeAt_eq (on : OnVolume mounts id fs pos inode) (serves : ServesFat32 env id fs)
    (sound : v.Sound depth) (consistent : v.Consistent env mounts) :
    placeAt env mounts pos = some (id, inode) := by
  induction on with
  | mount is =>
      obtain ⟨n, node, at_n, here, point, rfl⟩ := (consistent.mounted _ id).mp is
      have carries := consistent.carries _ n node at_n here point
      rw [serves.root] at carries
      rw [consistent.placeAt_eq sound at_n here, Except.ok.inj carries]
  | child _ unmounted _ found ih =>
      rw [placeAt, ih, Option.bind_some]
      simp only [unmounted]
      rw [serves.namei _ _ _ found]
      rfl

/-- Where `fat32_namei` fails, the reference has nothing. -/
theorem OnVolume.nothing (on : OnVolume mounts id fs pos inode) (serves : ServesFat32 env id fs)
    (sound : v.Sound depth) (consistent : v.Consistent env mounts) {err : Int}
    (unmounted : mounts (name :: pos) = none)
    (fails : Returns (fun fuel => fat32Namei fs (some inode) (nameBytes name) fuel) (.error err)) :
    placeAt env mounts (name :: pos) = none := by
  rw [placeAt, on.placeAt_eq serves sound consistent, Option.bind_some]
  simp only [unmounted]
  rw [serves.namei _ _ _ fails]
  rfl

/-! ## A lookup that stops -/

end

/-! ## A tree that caches only the root of a volume -/

/-- `fat32_namei` where it returns, and the root elsewhere. -/
noncomputable def fatNamei (fs : Fat32Fs) (dir : Option FsInode) :
    Option Name → Except Int FsInode
  | none => .ok (fat32RootInode fs)
  | some name => open Classical in
      if returns : ∃ r, Returns (fun fuel => fat32Namei fs dir (nameBytes name) fuel) r then
        returns.choose
      else .ok (fat32RootInode fs)

/-- Memory for a node whenever some address is free, and a volume. -/
noncomputable def fatEnv (fs : Fat32Fs) : VfsEnv where
  ops _ := ⟨none, none, some (fatNamei fs)⟩
  alloc := oneFileEnv.alloc
  alloc_fresh := oneFileEnv.alloc_fresh

section

variable {fs : Fat32Fs} {pos : List Name} {inode : FsInode} {name : Name} {before : List Name}

theorem fatEnv_serves (fs : Fat32Fs) : ServesFat32 (fatEnv fs) 1 fs where
  root := rfl
  namei dir name r returns := by
    have some' : ∃ r, Returns (fun fuel => fat32Namei fs dir (nameBytes name) fuel) r :=
      ⟨r, returns⟩
    have chosen : fsNamei (fatEnv fs) 1 dir (some name) = some'.choose := by
      change fatNamei fs dir (some name) = _
      rw [fatNamei, dif_pos some']
    rw [chosen]
    exact some'.choose_spec.unique returns

theorem fatEnv_consistent (fs : Fat32Fs) :
    (rootTree (fat32RootInode fs)).Consistent (fatEnv fs) rootMounts := rootTree_consistent rfl

theorem FatAt.onVolume (at_pos : FatAt fs pos inode) : OnVolume rootMounts 1 fs pos inode := by
  induction at_pos with
  | root => exact .mount rfl
  | child _ named found ih => exact .child ih rfl named found

/-- The reference walks down to what is on the volume. -/
theorem FatAt.walk (at_pos : FatAt fs pos inode) :
    pos.reverse.foldlM (resolveName (fatEnv fs) rootMounts) [] = some pos := by
  induction at_pos with
  | root => rfl
  | @child pos dir name inode at_dir named found ih =>
      obtain ⟨empty, dot, dots⟩ := named.goesDown
      have there := (FatAt.child at_dir named found).onVolume.placeAt_eq (fatEnv_serves fs)
        (rootTree_sound _) (fatEnv_consistent fs)
      rw [List.reverse_cons, List.foldlM_append, ih, Option.bind_eq_bind, Option.bind_some,
        List.foldlM_cons, resolveName, if_neg (not_or.mpr ⟨empty, dot⟩), if_neg dots, there]
      rfl

theorem FatAt.names (at_pos : FatAt fs pos inode) : ∀ name ∈ pos.reverse, FileName name := by
  induction at_pos with
  | root => exact fun name none' => absurd none' List.not_mem_nil
  | child _ named _ ih =>
      intro name mem
      rw [List.reverse_cons, List.mem_append, List.mem_singleton] at mem
      obtain before | rfl := mem
      · exact ih name before
      · exact named

end

/-! ## When files are not directories -/

section

variable {env : VfsEnv} {id : FsId} {mounts : Mounts} {v v₁ : Vfs} {depth : NodeId → Nat}
  {pos target : List Name} {dir : FsInode} {name path rest : Name} {before : List Name}
  {cur c : NodeId} {node : VfsNode} {steps : Nat}

end

end Sdx.Fs
