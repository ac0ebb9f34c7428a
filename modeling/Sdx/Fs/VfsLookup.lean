import Sdx.Fs.VfsResolve

/-! # The same lookup again

A lookup that finds a node deletes nothing: every node keeps its name, its parent and its
children. So the same path leads to the same node in any later tree that keeps these, whatever
has become of the file systems and inodes in it, and the second lookup makes no node.
-/

namespace Sdx.Fs

open Sdx.Lib

/-- Every node of `v` is still in `w`, with its name, its parent and all its children. -/
structure Vfs.Covers (v w : Vfs) : Prop where
  root : w.root = v.root
  nodes : ∀ n old, v.nodes n = some old → ∃ new, w.nodes n = some new ∧ new.name = old.name ∧
    new.parent = old.parent ∧ ∀ c ∈ old.children, c ∈ new.children

namespace Vfs.Covers

variable {v w u : Vfs}

theorem refl (v : Vfs) : v.Covers v :=
  ⟨rfl, fun _ old here => ⟨old, here, rfl, rfl, fun _ mem => mem⟩⟩

theorem trans (covers : v.Covers w) (covers' : w.Covers u) : v.Covers u := by
  refine ⟨covers'.root.trans covers.root, fun n old here => ?_⟩
  obtain ⟨mid, here, name, parent, children⟩ := covers.nodes n old here
  obtain ⟨new, here, name', parent', children'⟩ := covers'.nodes n mid here
  exact ⟨new, here, name'.trans name, parent'.trans parent,
    fun c mem => children' c (children c mem)⟩

theorem isSome (covers : v.Covers w) {n : NodeId} (here : (v.nodes n).isSome) :
    (w.nodes n).isSome := by
  obtain ⟨old, here⟩ := Option.isSome_iff_exists.mp here
  obtain ⟨new, here, -⟩ := covers.nodes n old here
  rw [here]
  rfl

end Vfs.Covers

theorem Vfs.SameLinks.covers {v w : Vfs} (same : v.SameLinks w) : v.Covers w := by
  refine ⟨same.root, fun n old here => ?_⟩
  obtain ⟨new, now, name, parent, children⟩ := same.found here
  exact ⟨new, now, name, parent, fun c mem => children ▸ mem⟩

theorem Vfs.Recounted.covers {v w : Vfs} (same : v.Recounted w) : v.Covers w :=
  same.sameLinks.covers

/-- A path whose last name has one character too many: the walk takes it, and the zero behind it
    is written behind the end of the name buffer. -/
def Overruns (path : Name) : Prop :=
  ∃ name, (path.splitOn '/').getLast? = some name ∧ name.length = nameMax + 1

section

variable {env : VfsEnv} {v v₁ w : Vfs} {depth depthW : NodeId → Nat} {cur n c : NodeId}
  {node : VfsNode} {name path : Name} {steps fuel : Nat}

theorem vfsNodeNew_some (new : vfsNodeNew env v cur node name = (some c, v₁)) :
    ∃ inode, fsNamei env node.fs (some node.inode) (some name) = .ok inode ∧ v.nodes c = none ∧
      v₁ = vfsNodeAttach v cur c { (default : VfsNode) with
        fs := node.fs, inode := inode, name := name.take nameMax, parent := some cur } := by
  unfold vfsNodeNew at new
  split at new
  · cases new
  next inode ok =>
  split at new
  · cases new
  next alloc =>
  cases new
  exact ⟨inode, ok, env.alloc_fresh v _ alloc, rfl⟩

/-- One step down: the child with the name is below `cur` now, and nothing is lost. -/
theorem vfsNodeGet_step (sound : v.Sound depth) (here : v.nodes cur = some node)
    (short : name.length ≤ nameMax) (get : vfsNodeGet env v cur name = (some c, v₁)) :
    ∃ depth₁, v₁.Sound depth₁ ∧ v.Covers v₁ ∧ ∃ now, v₁.nodes cur = some now ∧
      c ∈ now.children ∧ v₁.nameOf c = some name := by
  obtain ⟨c', mem, named, found⟩ | ⟨unnamed, found⟩ := vfsNodeGet_cases here env name
  · rw [found] at get
    cases get
    have same := Vfs.Recounted.hold v c
    obtain ⟨count, now⟩ := same.found here
    exact ⟨depth, sound.recounted same, same.covers, _, now, mem, (same.nameOf c).trans named⟩
  · rw [found] at get
    cases new : vfsNodeNew env v cur node name with
    | mk made v' =>
        rw [new] at get
        cases made with
        | none => cases get
        | some c' =>
            cases get
            obtain ⟨inode, -, gone, rfl⟩ := vfsNodeNew_some new
            rw [List.take_of_length_le short]
            generalize made_eq : ({ (default : VfsNode) with
              fs := node.fs, inode := inode, name := name, parent := some cur } : VfsNode) = made
            obtain ⟨leaf, up, called⟩ : made.children = [] ∧ made.parent = some cur ∧
                made.name = name := by
              rw [← made_eq]
              exact ⟨rfl, rfl, rfl⟩
            have attached := sound.attach here gone up leaf (called ▸ short) (called ▸ unnamed)
            have covers : v.Covers (vfsNodeAttach v cur c made) := by
              refine ⟨rfl, fun m old found => ?_⟩
              obtain ⟨children, now, stay, -⟩ := vfsNodeAttach_old here gone found
              exact ⟨_, now, rfl, rfl, stay⟩
            have same := Vfs.Recounted.hold (vfsNodeAttach v cur c made) c
            have off : cur ≠ c := by
              rintro rfl
              rw [gone] at here
              cases here
            have now : (vfsNodeAttach v cur c made).nodes cur =
                some { node with children := c :: node.children } := by
              rw [vfsNodeAttach_nodes here gone, if_neg off, if_pos rfl]
            obtain ⟨count, now⟩ := same.found now
            refine ⟨_, attached.recounted same, covers.trans same.covers, _, now,
              List.mem_cons_self, (same.nameOf c).trans ?_⟩
            rw [Vfs.nameOf, vfsNodeAttach_new here gone, Option.map_some, called]

/-- In a tree that covers the step, the same step finds the same child. -/
theorem vfsNodeGet_again (sound : w.Sound depthW) (here : w.nodes cur = some node)
    (mem : c ∈ node.children) (named : w.nameOf c = some name) :
    vfsNodeGet env w cur name = vfsNodeHold (some c, w) := by
  obtain ⟨c', mem', named', get⟩ | ⟨unnamed, -⟩ := vfsNodeGet_cases here env name
  · rw [get, List.inj_on_of_nodup_map (sound.named cur node here) mem' mem
      (named'.trans named.symm)]
  · exact absurd named (unnamed c mem)

/-- What a name read from a path is, if the walk reads it. -/
theorem vfsPathNext_some {rest : Name} {i : Nat} (next : vfsPathNext path i = some (name, rest))
    (le : i ≤ nameMax + 1) :
    (path.splitOn '/' = name :: rest.splitOn '/' ∨ path.splitOn '/' = [name] ∧ rest = []) ∧
      (i + name.length ≤ nameMax ∨ path.splitOn '/' = [name] ∧ i + name.length = nameMax + 1) := by
  induction path generalizing i name with
  | nil =>
      cases next
      refine ⟨.inr ⟨List.splitOn_nil _, rfl⟩, ?_⟩
      by_cases last : i = nameMax + 1
      · exact .inr ⟨List.splitOn_nil _, last⟩
      · exact .inl (by rw [List.length_nil]; omega)
  | cons d path ih =>
      rw [List.splitOn_cons_eq_if_modifyHead]
      simp only [vfsPathNext] at next
      split at next
      · cases next
      split at next
      · next slash =>
          cases next
          subst slash
          exact ⟨.inl rfl, .inl (by rw [List.length_nil]; omega)⟩
      · next slash =>
          have other : (d == '/') = false := by simpa using slash
          simp only [other, Bool.false_eq_true, if_false]
          obtain ⟨⟨name', rest'⟩, below, eq⟩ := Option.map_eq_some_iff.mp next
          cases eq
          obtain ⟨split, length⟩ := ih below (by omega)
          dsimp only
          rw [List.length_cons]
          constructor
          · obtain split | ⟨split, rfl⟩ := split
            · rw [split]
              exact .inl rfl
            · rw [split]
              exact .inr ⟨rfl, rfl⟩
          · obtain short | ⟨split, long⟩ := length
            · exact .inl (by omega)
            · rw [split]
              exact .inr ⟨rfl, by omega⟩

/-- Unless the path overruns the buffer, a name that is read fits, and the rest is as good. -/
theorem vfsPathNext_fits {rest : Name} (next : vfsPathNext path 0 = some (name, rest))
    (fits : ¬ Overruns path) : name.length ≤ nameMax ∧ ¬ Overruns rest := by
  obtain ⟨split, length⟩ := vfsPathNext_some next (Nat.zero_le _)
  constructor
  · obtain short | ⟨split, long⟩ := length
    · omega
    · exact absurd ⟨name, by rw [split]; rfl, by omega⟩ fits
  · rintro ⟨last, is, long⟩
    obtain split | ⟨-, rfl⟩ := split
    · refine fits ⟨last, ?_, long⟩
      obtain ⟨first, names, eq⟩ := List.exists_cons_of_ne_nil (List.splitOn_ne_nil '/' rest)
      rw [eq] at is split
      rw [split, List.getLast?_cons_cons, is]
    · rw [List.splitOn_nil] at is
      cases is
      cases long

/-- No node is below the node. -/
def Vfs.Leaf (v : Vfs) (n : NodeId) : Prop := ∀ node, v.nodes n = some node → node.children = []

theorem Vfs.Leaf.recounted (leaf : v.Leaf n) (same : v.Recounted w) : w.Leaf n := by
  intro node here
  obtain ⟨count, old⟩ := same.symm.found here
  exact leaf { node with refCount := count } old

/-- A lookup from `v` to `v'` found `n`, and finds it again in every tree that covers `v'`. At a
    leaf it counts as many references the second time as the first time, and at least one. -/
structure FoundAgain (v v' : Vfs) (n : NodeId) (lookup : Vfs → Nat → Option (Option NodeId × Vfs))
    (held : Nat) : Prop where
  sound : ∃ depth, v'.Sound depth
  covers : v.Covers v'
  again : ∀ (w : Vfs) depth, w.Sound depth → v'.Covers w → ∃ w', Returns (lookup w) (some n, w') ∧
    w.Recounted w' ∧ (w.Leaf n → w'.refs n + v.refs n = w.refs n + v'.refs n ∧
      v.refs n + 1 ≤ v'.refs n + held)

theorem FoundAgain.stop (sound : v.Sound depth) {lookup : Vfs → Nat → Option (Option NodeId × Vfs)}
    (stop : ∀ w fuel, lookup w fuel = some (some cur, w)) :
    FoundAgain v v cur lookup (one (cur = cur)) := by
  refine ⟨⟨depth, sound⟩, .refl v, fun w _ _ _ => ⟨w, .congr (stop w) (.const _), .refl w, ?_⟩⟩
  intro _
  rw [one_true rfl]
  exact ⟨rfl, Nat.le_refl _⟩

theorem vfsFindLoop_again {v' : Vfs} (sound : v.Sound depth) (fits : ¬ Overruns path)
    (there : (v.nodes cur).isSome)
    (done : vfsFindLoop env fuel steps v cur path = some (some n, v')) :
    FoundAgain v v' n (fun w fuel => vfsFindLoop env fuel steps w cur path) (one (n = cur)) := by
  induction steps generalizing v depth cur path with
  | zero =>
      cases done
      exact .stop sound fun _ _ => rfl
  | succ steps ih =>
      simp only [vfsFindLoop] at done
      split at done
      · next ended =>
          subst ended
          cases done
          exact .stop sound fun _ _ => vfsFindLoop_nil
      next more =>
      split at done
      · cases done
      next name rest next =>
      obtain ⟨short, fits'⟩ := vfsPathNext_fits next fits
      split at done
      · next skip =>
          have step (w : Vfs) (fuel : Nat) := @vfsFindLoop_skip env w cur fuel steps _ _ _ more next skip
          simp only [step]
          exact ih sound fits' there done
      next notDot =>
      split at done
      · next dots =>
          subst dots
          obtain ⟨node, here, done⟩ := Option.bind_eq_some_iff.mp done
          obtain ⟨sound', covers, again⟩ := ih sound fits' (sound.tree.up here) done
          refine ⟨sound', covers, fun w depthW soundW coversW => ?_⟩
          obtain ⟨w', returns, same, leaf⟩ := again w depthW soundW coversW
          obtain ⟨new, now, -, parent, -⟩ := (covers.trans coversW).nodes cur node here
          rw [← parent] at returns
          refine ⟨w', .congr (fun _ => vfsFindLoop_up more next now) returns, same, fun is => ?_⟩
          obtain ⟨count, least⟩ := leaf is
          refine ⟨count, ?_⟩
          cases parent : node.parent with
          | none =>
              rw [parent] at least
              exact least
          | some p =>
              -- A node that is left upwards has a parent with a child.
              have off : n ≠ p := by
                rintro rfl
                obtain ⟨above, at_p, mem⟩ := sound.linked cur node n here parent
                obtain ⟨new', at_p', -, -, children⟩ := (covers.trans coversW).nodes n above at_p
                have := children cur mem
                rw [is new' at_p'] at this
                cases this
              rw [parent, Option.getD_some, one_false off] at least
              omega
      next notDots =>
      rcases get : vfsNodeGet env v cur name with ⟨found, v₁⟩
      rw [get] at done
      obtain ⟨⟨err, v₂⟩, put, done⟩ := Option.bind_eq_some_iff.mp done
      cases found with
      | none => cases done
      | some c =>
          obtain rfl := vfsNodePut_after_get sound.tree get put
          obtain ⟨node, here⟩ := Option.isSome_iff_exists.mp there
          obtain ⟨depth₁, sound₁, covers₁, now, at_cur, mem, named⟩ :=
            vfsNodeGet_step sound here short get
          have dropped := Vfs.Recounted.drop v₁ cur
          obtain ⟨child, at_c, -⟩ := sound₁.tree.child cur now at_cur c mem
          obtain ⟨sound', covers, again⟩ := ih (sound₁.recounted dropped) fits'
            (dropped.isSome (by rw [at_c]; rfl)) done
          have covers' := dropped.covers.trans covers
          refine ⟨sound', covers₁.trans covers', fun w depthW soundW coversW => ?_⟩
          -- In `w` the child is found below `cur`.
          obtain ⟨newCur, now', -, -, children⟩ := (covers'.trans coversW).nodes cur now at_cur
          have get' : vfsNodeGet env w cur name = vfsNodeHold (some c, w) := by
            refine vfsNodeGet_again soundW now' (children c mem) ?_
            obtain ⟨new, at_c', same, -⟩ := (covers'.trans coversW).nodes c child at_c
            rw [Vfs.nameOf, at_c', Option.map_some, same]
            rw [Vfs.nameOf, at_c, Option.map_some] at named
            exact named
          have held := Vfs.Recounted.hold w c
          have same := held.trans (.drop (vfsNodeHold (some c, w)).2 cur)
          obtain ⟨w', returns, same', leaf⟩ := again _ depthW (soundW.recounted same)
            (coversW.trans same.covers)
          refine ⟨w', ?_, same.trans same', fun is => ?_⟩
          · exact vfsFindLoop_down soundW more next notDot notDots get' (soundW.recounted held)
              (held.isSome (by rw [now']; rfl)) returns
          · have off : n ≠ cur := by
              rintro rfl
              have := children c mem
              rw [is newCur now'] at this
              cases this
            obtain ⟨depth', got⟩ := vfsNodeGet_got sound.tree get
            obtain ⟨child', at_c'⟩ := Option.isSome_iff_exists.mp
              ((covers'.trans coversW).isSome (by rw [at_c]; rfl))
            obtain ⟨count, least⟩ := leaf (is.recounted same)
            rw [refs_vfsNodeDrop, refs_vfsNodeDrop, one_false off, refs_vfsNodeHold at_c',
              got.refs] at count
            rw [refs_vfsNodeDrop, one_false off, got.refs] at least
            rw [one_false off]
            omega

/-- A lookup that finds a node finds it again. -/
theorem vfsFind_again {v' : Vfs} (sound : v.Sound depth) (fits : ¬ Overruns path)
    (done : vfsFind env fuel v path = some (some n, v')) :
    FoundAgain v v' n (fun w fuel => vfsFind env fuel w path) 0 := by
  unfold vfsFind at done
  split at done
  · next path =>
      cases root : v.root with
      | none =>
          simp only [vfsNodeGetRoot, root, vfsNodeHold] at done
          cases done
      | some r =>
          have there := sound.tree.root r root
          obtain ⟨node, at_r⟩ := Option.isSome_iff_exists.mp there
          have held := Vfs.Recounted.hold v r
          have fits' : ¬ Overruns path := by
            rintro ⟨last, is, long⟩
            refine fits ⟨last, ?_, long⟩
            obtain ⟨first, names, eq⟩ := List.exists_cons_of_ne_nil (List.splitOn_ne_nil '/' path)
            have split : ('/' :: path).splitOn '/' = [] :: path.splitOn '/' := by
              rw [List.splitOn_cons_eq_if_modifyHead]
              rfl
            rw [split, eq, List.getLast?_cons_cons, ← eq, is]
          simp only [vfsNodeGetRoot, root] at done
          obtain ⟨sound', covers, again⟩ := vfsFindLoop_again (sound.recounted held) fits'
            (held.isSome there) done
          refine ⟨sound', held.covers.trans covers, fun w depthW soundW coversW => ?_⟩
          have root' : w.root = some r := coversW.root.trans (covers.root.trans (held.root.trans root))
          obtain ⟨node', at_r'⟩ := Option.isSome_iff_exists.mp (soundW.tree.root r root')
          have held' := Vfs.Recounted.hold w r
          obtain ⟨w', returns, same, leaf⟩ := again _ depthW (soundW.recounted held')
            (coversW.trans held'.covers)
          refine ⟨w', .congr (fun fuel => ?_) returns, held'.trans same, fun is => ?_⟩
          · simp only [vfsFind, vfsNodeGetRoot, root', vfsNodeHold]
          · obtain ⟨count, least⟩ := leaf (is.recounted held')
            rw [refs_vfsNodeHold at_r, refs_vfsNodeHold at_r'] at count
            rw [refs_vfsNodeHold at_r] at least
            omega
  · cases done

end

end Sdx.Fs
