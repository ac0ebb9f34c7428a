import Mathlib.Data.List.TakeWhile
import Sdx.Fs.VfsLookup
import Sdx.Lib.Trace

/-! # What a lookup does (`__vfs_path_next` and `__vfs_find` of `fs/vfs/vfs.c`)

The length of a name is compared before its next character is looked at, and not at the end of
the path. So a `/` behind 256 characters is refused, while the end of the path behind as many
characters is not, and its zero is written behind the buffer. The model of a lookup here is that of
`Vfs` together with what it does: its writes to the buffer, its names, and its calls of `namei`.
-/

namespace Sdx.Fs

open Sdx.Lib Sdx.Lib.Trace

/-- What `__vfs_find` does: `name[i] = c`, a name that is complete, and the call of `namei` with
    which `vfs_node_new` looks for a name in a directory. -/
inductive FindEvent where
  | write (i : Nat) (c : Char)
  | next (name : Name)
  | namei (fs : FsId) (dir : FsInode) (name : Name)

/-- Writes are in `name[0..NAME_MAX]`. -/
def FindEvent.Within : FindEvent → Prop
  | .write i _ => i ≤ nameMax
  | .next _ => True
  | .namei _ _ _ => True

/-- The complete name, if the event is one. -/
def FindEvent.name : FindEvent → Option Name
  | .write _ _ => none
  | .next name => some name
  | .namei _ _ _ => none

/-- The event is about the buffer. -/
def FindEvent.onBuffer : FindEvent → Bool
  | .write _ _ => true
  | .next _ => true
  | .namei _ _ _ => false

/-- `__vfs_path_next` from `name[i]` on, with what it writes. -/
def vfsPathNextTraced : Name → Nat → Traced FindEvent (Option (Name × Name))
  | [], i => do
      Traced.request (.write i (Char.ofNat 0)) ()
      pure (some ([], []))
  | c :: path, i =>
      if i > nameMax then pure none
      else if c = '/' then do
        Traced.request (.write i (Char.ofNat 0)) ()
        pure (some ([], path))
      else do
        Traced.request (.write i c) ()
        let result ← vfsPathNextTraced path (i + 1)
        pure (result.map fun (name, rest) => (c :: name, rest))

/-- The names that `__vfs_find` takes from a path as long as it finds them, or `none` if it gives
    up on one; a name takes at least one character. -/
def vfsPathNamesTraced : Nat → Name → Traced FindEvent (Option (List Name))
  | 0, _ => pure (some [])
  | steps + 1, path =>
      if path = [] then pure (some [])
      else do
        match ← vfsPathNextTraced path 0 with
        | none => pure none
        | some (name, path) =>
            Traced.request (.next name) ()
            let names ← vfsPathNamesTraced steps path
            pure (names.map (name :: ·))

/-- `vfs_node_get` for a name below a parent, with its call of `namei`. -/
def vfsNodeGetTraced (env : VfsEnv) (v : Vfs) (parent : NodeId) (name : Name) :
    Traced FindEvent (Option NodeId × Vfs) :=
  match v.nodes parent with
  | none => pure (none, v)
  | some node =>
      let named (c : NodeId) : Bool := ((v.nodes c).map VfsNode.name) == some name
      match node.children.find? named with
      | some c => pure (vfsNodeHold (some c, v))
      | none => do
          Traced.request (.namei node.fs node.inode name) ()
          pure (vfsNodeHold (vfsNodeNew env v parent node name))

/-- What the loop of `__vfs_find` does with a name, before it goes on. -/
def vfsFindNameTraced (env : VfsEnv) (fuel : Nat) (v : Vfs) (cur : NodeId) (name : Name)
    (go : Vfs → NodeId → Traced FindEvent (Option (Option NodeId × Vfs))) :
    Traced FindEvent (Option (Option NodeId × Vfs)) :=
  if name = [] ∨ name = ['.'] then go v cur
  else if name = ['.', '.'] then
    match v.nodes cur with
    | none => pure none
    | some node => go v (node.parent.getD cur)
  else do
    let (found, v) ← vfsNodeGetTraced env v cur name
    match vfsNodePut v fuel (some cur) with
    | none => pure none
    | some (_, v) =>
        match found with
        | none => pure (some (none, v))
        | some next => go v next

/-- The loop of `__vfs_find` with what it does. -/
def vfsFindLoopTraced (env : VfsEnv) (fuel : Nat) : Nat → Vfs → NodeId → Name →
    Traced FindEvent (Option (Option NodeId × Vfs))
  | 0, v, cur, _ => pure (some (some cur, v))
  | steps + 1, v, cur, path =>
      if path = [] then pure (some (some cur, v))
      else do
        match ← vfsPathNextTraced path 0 with
        | none => pure (some (none, v))
        | some (name, path) =>
            Traced.request (.next name) ()
            vfsFindNameTraced env fuel v cur name fun v cur =>
              vfsFindLoopTraced env fuel steps v cur path

/-- `__vfs_find` with what it does. -/
def vfsFindTraced (env : VfsEnv) (fuel : Nat) (v : Vfs) (path : Name) :
    Traced FindEvent (Option (Option NodeId × Vfs)) :=
  match path with
  | '/' :: path =>
      match vfsNodeGetRoot v with
      | (none, v) => pure (some (none, v))
      | (some root, v) => vfsFindLoopTraced env fuel path.length v root path
  | _ => pure (some (none, v))

/-! ## What it returns -/

section

variable {env : VfsEnv} {fuel steps i : Nat} {v : Vfs} {cur : NodeId} {path : Name}

theorem vfsPathNextTraced_value : (vfsPathNextTraced path i).value = vfsPathNext path i := by
  induction path generalizing i with
  | nil => rfl
  | cons c path ih =>
      simp only [vfsPathNextTraced, vfsPathNext]
      split
      · rfl
      split
      · rfl
      · rw [Traced.value_bind, Traced.value_bind, ih]
        rfl

theorem vfsNodeGetTraced_value :
    (vfsNodeGetTraced env v cur path).value = vfsNodeGet env v cur path := by
  unfold vfsNodeGetTraced vfsNodeGet
  cases v.nodes cur with
  | none => rfl
  | some node =>
      dsimp only
      cases node.children.find? fun c => ((v.nodes c).map VfsNode.name) == some path with
      | none => rfl
      | some c => rfl

theorem vfsFindLoopTraced_value :
    (vfsFindLoopTraced env fuel steps v cur path).value = vfsFindLoop env fuel steps v cur path := by
  induction steps generalizing v cur path with
  | zero => rfl
  | succ steps ih =>
      simp only [vfsFindLoopTraced, vfsFindLoop]
      split
      · rfl
      rw [Traced.value_bind, vfsPathNextTraced_value]
      cases vfsPathNext path 0 with
      | none => rfl
      | some next =>
          dsimp only
          rw [Traced.value_bind, vfsFindNameTraced]
          split
          · exact ih
          split
          · cases v.nodes cur with
            | none => rfl
            | some node => exact ih
          · rw [Traced.value_bind, vfsNodeGetTraced_value]
            obtain ⟨found, w⟩ := vfsNodeGet env v cur next.1
            dsimp only
            cases vfsNodePut w fuel (some cur) with
            | none => rfl
            | some result =>
                cases found with
                | none => rfl
                | some child => exact ih

/-- Only absolute paths are looked at. -/
theorem vfsFindTraced_relative (relative : path.head? ≠ some '/') :
    vfsFindTraced env fuel v path = pure (some (none, v)) := by
  unfold vfsFindTraced
  split
  · exact absurd rfl relative
  · rfl

end

/-! ## One name -/

section

variable {path name rest : Name} {i : Nat}

/-- A path whose last name has one character too many, and none before it has. -/
def OverrunReached (path : Name) : Prop :=
  ∃ names name, path.splitOn '/' = names ++ [name] ∧ name.length = nameMax + 1 ∧
    ∀ before ∈ names, before.length ≤ nameMax

/-- A path is its last name, or a name and a path behind a `/`. -/
theorem path_cases (path : Name) :
    '/' ∉ path ∨ ∃ name rest, path = name ++ '/' :: rest ∧ '/' ∉ name := by
  by_cases more : '/' ∈ path
  · exact .inr (List.eq_append_cons_of_mem more)
  · exact .inl more

theorem splitOn_name (free : '/' ∉ name) :
    (name ++ '/' :: rest).splitOn '/' = name :: rest.splitOn '/' := by
  rw [List.splitOn_append_cons_self, List.splitOn_eq_singleton free]
  rfl

theorem overrunReached_last (last : '/' ∉ path) :
    OverrunReached path ↔ path.length = nameMax + 1 := by
  rw [OverrunReached, List.splitOn_eq_singleton last]
  constructor
  · rintro ⟨names, name, eq, long, -⟩
    cases names with
    | nil =>
        cases eq
        exact long
    | cons first names =>
        have ends := (List.cons.inj eq).2
        exact absurd ends.symm (List.append_ne_nil_of_right_ne_nil names (List.cons_ne_nil _ _))
  · exact fun long => ⟨[], path, rfl, long, fun _ mem => absurd mem List.not_mem_nil⟩

theorem overrunReached_name (free : '/' ∉ name) :
    OverrunReached (name ++ '/' :: rest) ↔ name.length ≤ nameMax ∧ OverrunReached rest := by
  rw [OverrunReached, OverrunReached, splitOn_name free]
  constructor
  · rintro ⟨names, last, eq, long, short⟩
    cases names with
    | nil => exact absurd (List.cons.inj eq).2 (List.splitOn_ne_nil '/' rest)
    | cons first names =>
        obtain ⟨rfl, tail⟩ := List.cons.inj eq
        rw [List.forall_mem_cons] at short
        exact ⟨short.1, names, last, tail, long, short.2⟩
  · rintro ⟨first, names, last, eq, long, short⟩
    exact ⟨name :: names, last, by rw [eq, List.cons_append], long,
      List.forall_mem_cons.mpr ⟨first, short⟩⟩

/-- The last name is taken up to one character too many, and then its zero is not within. -/
theorem vfsPathNextTraced_last (last : '/' ∉ path) (le : i ≤ nameMax + 1) :
    vfsPathNext path i = (if i + path.length ≤ nameMax + 1 then some (path, []) else none) ∧
    ((vfsPathNextTraced path i).Only FindEvent.Within ↔ i + path.length ≠ nameMax + 1) := by
  induction path generalizing i with
  | nil =>
      rw [vfsPathNext, vfsPathNextTraced, Traced.Only.bind_iff, Traced.Only.request_iff,
        Traced.Only.pure_iff, and_true, FindEvent.Within, List.length_nil, if_pos (by omega)]
      exact ⟨rfl, by omega⟩
  | cons c path ih =>
      rw [List.mem_cons, not_or] at last
      rw [vfsPathNext, vfsPathNextTraced, List.length_cons]
      by_cases full : i > nameMax
      · rw [if_pos full, if_pos full, if_neg (by omega), Traced.Only.pure_iff, true_iff]
        exact ⟨rfl, by omega⟩
      · obtain ⟨value, within⟩ := ih last.2 (i := i + 1) (by omega)
        rw [if_neg full, if_neg (Ne.symm last.1), if_neg full, if_neg (Ne.symm last.1), value,
          Traced.Only.bind_iff, Traced.Only.request_iff, Traced.Only.bind_iff, within,
          Traced.Only.pure_iff, and_true, FindEvent.Within, Nat.add_right_comm i 1, ← Nat.add_assoc]
        refine ⟨?_, by omega⟩
        split
        · rfl
        · rfl

/-- A name in front of a `/` is taken if it fits, and its zero is within. -/
theorem vfsPathNextTraced_name (free : '/' ∉ name) (le : i ≤ nameMax + 1) :
    vfsPathNext (name ++ '/' :: rest) i =
      (if i + name.length ≤ nameMax then some (name, rest) else none) ∧
    (vfsPathNextTraced (name ++ '/' :: rest) i).Only FindEvent.Within := by
  induction name generalizing i with
  | nil =>
      rw [List.nil_append, vfsPathNext, vfsPathNextTraced, List.length_nil, Nat.add_zero]
      by_cases full : i > nameMax
      · rw [if_pos full, if_pos full, if_neg (by omega)]
        exact ⟨rfl, .pure⟩
      · rw [if_neg full, if_pos rfl, if_neg full, if_pos rfl, if_pos (by omega)]
        exact ⟨rfl, .bind (.request (by rw [FindEvent.Within]; omega)) .pure⟩
  | cons c name ih =>
      rw [List.mem_cons, not_or] at free
      rw [List.cons_append, vfsPathNext, vfsPathNextTraced, List.length_cons]
      by_cases full : i > nameMax
      · rw [if_pos full, if_pos full, if_neg (by omega)]
        exact ⟨rfl, .pure⟩
      · obtain ⟨value, within⟩ := ih free.2 (i := i + 1) (by omega)
        rw [if_neg full, if_neg (Ne.symm free.1), if_neg full, if_neg (Ne.symm free.1), value,
          Nat.add_right_comm i 1, ← Nat.add_assoc]
        refine ⟨?_, .bind (.request (by rw [FindEvent.Within]; omega)) (.bind within .pure)⟩
        split
        · rfl
        · rfl

end

/-! ## All names -/

/-- The `/`-separated names of a path; a `/` at its end adds none. -/
def pathComponents (path : Name) : List Name :=
  if (path.splitOn '/').getLast? = some [] then (path.splitOn '/').dropLast else path.splitOn '/'

/-- The names that are completed. -/
def nextNames (events : List FindEvent) : List Name := events.filterMap FindEvent.name

/-- Taking the names of a path one by one gives its components, up to the first that is too long,
    and stays within the buffer. -/
structure NamesSplit (path : Name) (run : Traced FindEvent (Option (List Name))) : Prop where
  within : run.Only FindEvent.Within
  value : run.value =
    if ∀ name ∈ pathComponents path, name.length ≤ nameMax then some (pathComponents path) else none
  names : nextNames run.requests = (pathComponents path).takeWhile (·.length ≤ nameMax)

section

variable {path name rest : Name} {i steps : Nat}

theorem pathComponents_nil : pathComponents [] = [] := by
  rw [pathComponents, List.splitOn_nil]
  rfl

theorem pathComponents_last (last : '/' ∉ path) (more : path ≠ []) :
    pathComponents path = [path] := by
  rw [pathComponents, List.splitOn_eq_singleton last, if_neg (by simpa using more)]

theorem pathComponents_name (free : '/' ∉ name) :
    pathComponents (name ++ '/' :: rest) = name :: pathComponents rest := by
  have nonempty := List.splitOn_ne_nil '/' rest
  rw [pathComponents, splitOn_name free, List.dropLast_cons_of_ne_nil nonempty, pathComponents,
    List.getLast?_cons_of_ne_nil nonempty]
  exact (apply_ite (List.cons name) ..).symm

theorem nextNames_append (l l' : List FindEvent) :
    nextNames (l ++ l') = nextNames l ++ nextNames l' := List.filterMap_append

/-- No name is complete before the macro ends. -/
theorem vfsPathNextTraced_nextNames : nextNames (vfsPathNextTraced path i).requests = [] := by
  induction path generalizing i with
  | nil => rfl
  | cons c path ih =>
      rw [vfsPathNextTraced]
      split
      · rfl
      split
      · rfl
      · rw [Traced.requests_bind, nextNames_append, Traced.requests_bind, nextNames_append, ih]
        rfl

theorem vfsPathNamesTraced_nil : vfsPathNamesTraced steps [] = pure (some []) := by
  cases steps with
  | zero => rfl
  | succ steps => rfl

/-- The loop gives up on a name. -/
theorem vfsPathNamesTraced_none (more : path ≠ []) (next : vfsPathNext path 0 = none) :
    vfsPathNamesTraced (steps + 1) path = ⟨none, (vfsPathNextTraced path 0).requests⟩ := by
  rw [vfsPathNamesTraced, if_neg more]
  change (⟨_, _⟩ : Traced _ _) = _
  rw [vfsPathNextTraced_value, next]
  exact congrArg _ (List.append_nil _)

/-- The loop goes on behind a name. -/
theorem vfsPathNamesTraced_some (more : path ≠ []) (next : vfsPathNext path 0 = some (name, rest)) :
    vfsPathNamesTraced (steps + 1) path =
      ⟨(vfsPathNamesTraced steps rest).value.map (name :: ·), (vfsPathNextTraced path 0).requests ++
        .next name :: (vfsPathNamesTraced steps rest).requests⟩ := by
  rw [vfsPathNamesTraced, if_neg more]
  change (⟨_, _⟩ : Traced _ _) = _
  rw [vfsPathNextTraced_value, next]
  exact congrArg (fun l => Traced.mk _ (_ ++ FindEvent.next name :: l)) (List.append_nil _)

/-- The loop gives up on the first name. -/
theorem NamesSplit.refused {first : Traced FindEvent (Option (Name × Name))} {names : List Name}
    (components : pathComponents path = name :: names) (long : nameMax < name.length)
    (nothing : nextNames first.requests = []) (within : first.Only FindEvent.Within) :
    NamesSplit path ⟨none, first.requests⟩ where
  within := within
  value := by
    have refused : ¬ ∀ name ∈ pathComponents path, name.length ≤ nameMax := by
      rw [components]
      intro short
      have := short name List.mem_cons_self
      omega
    rw [if_neg refused]
  names := by
    rw [components, List.takeWhile_cons_of_neg (by simpa using long)]
    exact nothing

/-- The loop takes the first name, and goes on with the rest. -/
theorem namesSplit_taken_iff {first : Traced FindEvent (Option (Name × Name))}
    {run : Traced FindEvent (Option (List Name))}
    (components : pathComponents path = name :: pathComponents rest)
    (short : name.length ≤ nameMax) (nothing : nextNames first.requests = []) :
    NamesSplit path ⟨run.value.map (name :: ·), first.requests ++ .next name :: run.requests⟩ ↔
      first.Only FindEvent.Within ∧ NamesSplit rest run := by
  have value : run.value.map (name :: ·) = (if ∀ name ∈ pathComponents path, name.length ≤ nameMax
      then some (pathComponents path) else none) ↔ run.value =
      (if ∀ name ∈ pathComponents rest, name.length ≤ nameMax
      then some (pathComponents rest) else none) := by
    have all : (∀ name ∈ pathComponents path, name.length ≤ nameMax) ↔
        ∀ name ∈ pathComponents rest, name.length ≤ nameMax := by
      rw [components, List.forall_mem_cons]
      exact and_iff_right short
    by_cases fits : ∀ name ∈ pathComponents rest, name.length ≤ nameMax
    · rw [if_pos (all.mpr fits), if_pos fits, components]
      cases run.value with
      | none => simp
      | some names => simp
    · rw [if_neg (all.not.mpr fits), if_neg fits, Option.map_eq_none_iff]
  have names : nextNames (first.requests ++ .next name :: run.requests) =
        (pathComponents path).takeWhile (·.length ≤ nameMax) ↔
      nextNames run.requests = (pathComponents rest).takeWhile (·.length ≤ nameMax) := by
    rw [components, List.takeWhile_cons_of_pos (by simpa using short), nextNames_append, nothing]
    exact List.cons_inj_right name
  constructor
  · intro split
    have within := List.forall_mem_append.mp split.within
    exact ⟨within.1, (List.forall_mem_cons.mp within.2).2, value.mp split.value,
      names.mp split.names⟩
  · rintro ⟨within, split⟩
    exact ⟨List.forall_mem_append.mpr ⟨within, List.forall_mem_cons.mpr ⟨trivial, split.within⟩⟩,
      value.mpr split.value, names.mpr split.names⟩

theorem namesSplit_nil : NamesSplit [] (pure (some [])) where
  within := .pure
  value := by
    rw [pathComponents_nil]
    rfl
  names := by
    rw [pathComponents_nil]
    rfl

/-- The names of a path are split exactly unless a last name of one character too many is
    reached. -/
theorem namesSplit_iff (enough : path.length ≤ steps) :
    NamesSplit path (vfsPathNamesTraced steps path) ↔ ¬ OverrunReached path := by
  have empty : NamesSplit [] (vfsPathNamesTraced steps []) ↔ ¬ OverrunReached [] := by
    rw [vfsPathNamesTraced_nil, overrunReached_last List.not_mem_nil]
    exact iff_of_true namesSplit_nil (by decide)
  induction steps generalizing path with
  | zero =>
      obtain rfl := List.eq_nil_of_length_eq_zero (Nat.le_zero.mp enough)
      exact empty
  | succ steps ih =>
      by_cases more : path = []
      · subst more
        exact empty
      obtain last | ⟨name, rest, rfl, free⟩ := path_cases path
      · obtain ⟨value, within⟩ := vfsPathNextTraced_last last (Nat.zero_le _)
        rw [Nat.zero_add] at value within
        rw [overrunReached_last last]
        by_cases long : path.length ≤ nameMax + 1
        · rw [if_pos long] at value
          rw [vfsPathNamesTraced_some more value, vfsPathNamesTraced_nil]
          by_cases short : path.length ≤ nameMax
          · have components : pathComponents path = path :: pathComponents [] := by
              rw [pathComponents_last last more, pathComponents_nil]
            rw [namesSplit_taken_iff components short vfsPathNextTraced_nextNames, within]
            exact and_iff_left namesSplit_nil
          · refine iff_of_false (fun split => ?_) (by omega)
            have := within.mp (List.forall_mem_append.mp split.within).1
            omega
        · rw [if_neg long] at value
          rw [vfsPathNamesTraced_none more value]
          exact iff_of_true (.refused (pathComponents_last last more) (by omega)
            vfsPathNextTraced_nextNames (within.mpr (by omega))) (by omega)
      · obtain ⟨value, within⟩ := @vfsPathNextTraced_name name rest 0 free (Nat.zero_le _)
        rw [Nat.zero_add] at value
        rw [overrunReached_name free]
        by_cases short : name.length ≤ nameMax
        · rw [if_pos short] at value
          have fewer : rest.length ≤ steps := by
            rw [List.length_append, List.length_cons] at enough
            omega
          rw [vfsPathNamesTraced_some more value, namesSplit_taken_iff (pathComponents_name free)
            short vfsPathNextTraced_nextNames, and_iff_right within, and_iff_right short]
          refine ih fewer ?_
          rw [vfsPathNamesTraced_nil, overrunReached_last List.not_mem_nil]
          exact iff_of_true namesSplit_nil (by decide)
        · rw [if_neg short] at value
          rw [vfsPathNamesTraced_none more value]
          exact iff_of_true (.refused (pathComponents_name free) (by omega)
            vfsPathNextTraced_nextNames within) (fun both => short both.1)

end

/-! ## The lookup -/

/-- A lookup returns in a sound tree. In any tree it stays within its buffer and completes the
    components of the path in their order, up to the first that is too long, and it finds a node
    only behind all of them. -/
structure FindSplits (env : VfsEnv) (v : Vfs) (path : Name) : Prop where
  returns : ∀ depth, v.Sound depth →
    ∃ r, Returns (fun fuel => (vfsFindTraced env fuel v ('/' :: path)).value) r
  within : ∀ fuel, (vfsFindTraced env fuel v ('/' :: path)).Only FindEvent.Within
  names : ∀ fuel, nextNames (vfsFindTraced env fuel v ('/' :: path)).requests <+:
    (pathComponents path).takeWhile (·.length ≤ nameMax)
  found : ∀ fuel n v', (vfsFindTraced env fuel v ('/' :: path)).value = some (some n, v') →
    (∀ name ∈ pathComponents path, name.length ≤ nameMax) ∧
    nextNames (vfsFindTraced env fuel v ('/' :: path)).requests = pathComponents path

/-- A relative path is not looked at; the names of an absolute one are split, whether or not they
    are found. -/
structure PathSplits (path : Name) : Prop where
  relative : path.head? ≠ some '/' →
    ∀ env fuel v, vfsFindTraced env fuel v path = pure (some (none, v))
  names : ∀ rest, path = '/' :: rest → NamesSplit rest (vfsPathNamesTraced rest.length rest)
  finds : ∀ rest, path = '/' :: rest → ∀ env v, FindSplits env v rest

section

variable {env : VfsEnv} {fuel steps : Nat} {v : Vfs} {depth : NodeId → Nat} {cur : NodeId}
  {path name rest : Name}

/-- The loop gives up on a name. -/
theorem vfsFindLoopTraced_none (more : path ≠ []) (next : vfsPathNext path 0 = none) :
    vfsFindLoopTraced env fuel (steps + 1) v cur path =
      ⟨some (none, v), (vfsPathNextTraced path 0).requests⟩ := by
  rw [vfsFindLoopTraced, if_neg more]
  change (⟨_, _⟩ : Traced _ _) = _
  rw [vfsPathNextTraced_value, next]
  exact congrArg _ (List.append_nil _)

theorem vfsFindLoopTraced_some (more : path ≠ []) (next : vfsPathNext path 0 = some (name, rest))
    {run : Traced FindEvent (Option (Option NodeId × Vfs))}
    (eq : vfsFindNameTraced env fuel v cur name (fun v cur =>
      vfsFindLoopTraced env fuel steps v cur rest) = run) :
    vfsFindLoopTraced env fuel (steps + 1) v cur path =
      ⟨run.value, (vfsPathNextTraced path 0).requests ++ .next name :: run.requests⟩ := by
  rw [vfsFindLoopTraced, if_neg more, ← eq]
  change (⟨_, _⟩ : Traced _ _) = _
  rw [vfsPathNextTraced_value, next]
  rfl

/-- The calls of `namei` are not about the buffer. -/
theorem vfsNodeGetTraced_onBuffer :
    (vfsNodeGetTraced env v cur name).requests.filter FindEvent.onBuffer = [] := by
  unfold vfsNodeGetTraced
  cases v.nodes cur with
  | none => rfl
  | some node =>
      dsimp only
      split
      · rfl
      · rfl

/-- The macro only does something with the buffer. -/
theorem vfsPathNextTraced_onBuffer {i : Nat} :
    (vfsPathNextTraced path i).requests.filter FindEvent.onBuffer =
      (vfsPathNextTraced path i).requests := by
  induction path generalizing i with
  | nil => rfl
  | cons c path ih =>
      rw [vfsPathNextTraced]
      split
      · rfl
      split
      · rfl
      · rw [Traced.requests_bind, List.filter_append, Traced.requests_bind, List.filter_append, ih]
        rfl

/-- Behind a name the loop ends without a node, or goes on. -/
theorem vfsFindNameTraced_goes
    (go : Vfs → NodeId → Traced FindEvent (Option (Option NodeId × Vfs))) :
    ∃ calls : List FindEvent, calls.filter FindEvent.onBuffer = [] ∧
      ((∃ r, vfsFindNameTraced env fuel v cur name go = ⟨r, calls⟩ ∧
          ∀ n v', r ≠ some (some n, v')) ∨
        ∃ v' cur', vfsFindNameTraced env fuel v cur name go =
          ⟨(go v' cur').value, calls ++ (go v' cur').requests⟩) := by
  have stops : ∀ n v', (none : Option (Option NodeId × Vfs)) ≠ some (some n, v') := by
    intro n v' eq
    cases eq
  have quiet : ([] : List FindEvent).filter FindEvent.onBuffer = [] := rfl
  rw [vfsFindNameTraced]
  split
  · exact ⟨[], quiet, .inr ⟨_, _, rfl⟩⟩
  split
  · cases v.nodes cur with
    | none => exact ⟨[], quiet, .inl ⟨none, rfl, stops⟩⟩
    | some node => exact ⟨[], quiet, .inr ⟨_, _, rfl⟩⟩
  · refine ⟨_, @vfsNodeGetTraced_onBuffer env v cur name, ?_⟩
    have result {go : Option NodeId × Vfs → Traced FindEvent (Option (Option NodeId × Vfs))} :
        (vfsNodeGetTraced env v cur name >>= go) =
          ⟨(go (vfsNodeGetTraced env v cur name).value).value,
            (vfsNodeGetTraced env v cur name).requests ++
              (go (vfsNodeGetTraced env v cur name).value).requests⟩ := rfl
    rw [result]
    obtain ⟨found, w⟩ := (vfsNodeGetTraced env v cur name).value
    dsimp only
    cases vfsNodePut w fuel (some cur) with
    | none => exact .inl ⟨none, congrArg _ (List.append_nil _), stops⟩
    | some result =>
        cases found with
        | none =>
            refine .inl ⟨_, congrArg _ (List.append_nil _), fun n v' eq => ?_⟩
            cases eq
        | some child => exact .inr ⟨_, _, rfl⟩

/-- A lookup does with its buffer what the names of the path make it do, up to a name that it does
    not find; if it finds a node, all of it. -/
theorem vfsFindLoopTraced_names :
    (vfsFindLoopTraced env fuel steps v cur path).requests.filter FindEvent.onBuffer <+:
      (vfsPathNamesTraced steps path).requests ∧
    ∀ n v', (vfsFindLoopTraced env fuel steps v cur path).value = some (some n, v') →
      (vfsFindLoopTraced env fuel steps v cur path).requests.filter FindEvent.onBuffer =
        (vfsPathNamesTraced steps path).requests ∧
      (vfsPathNamesTraced steps path).value ≠ none := by
  induction steps generalizing v cur path with
  | zero => exact ⟨List.prefix_rfl, fun n v' _ => ⟨rfl, Option.some_ne_none _⟩⟩
  | succ steps ih =>
      by_cases more : path = []
      · subst more
        exact ⟨List.prefix_rfl, fun n v' _ => ⟨rfl, Option.some_ne_none _⟩⟩
      cases next : vfsPathNext path 0 with
      | none =>
          rw [vfsFindLoopTraced_none more next, vfsPathNamesTraced_none more next,
            vfsPathNextTraced_onBuffer]
          refine ⟨List.prefix_rfl, fun n v' found => ?_⟩
          cases found
      | some result =>
          obtain ⟨name, rest⟩ := result
          rw [vfsPathNamesTraced_some more next]
          obtain ⟨calls, quiet, ⟨r, stop, none⟩ | ⟨v', cur', go⟩⟩ :=
            @vfsFindNameTraced_goes env fuel v cur name fun v cur =>
              vfsFindLoopTraced env fuel steps v cur rest
          · rw [vfsFindLoopTraced_some more next stop]
            refine ⟨?_, fun n v' found => absurd found (none n v')⟩
            rw [List.filter_append, vfsPathNextTraced_onBuffer, List.filter_cons_of_pos rfl, quiet,
              List.prefix_append_right_inj, List.cons_prefix_cons]
            exact ⟨rfl, List.nil_prefix⟩
          · rw [vfsFindLoopTraced_some more next go]
            obtain ⟨before, all⟩ := @ih v' cur' rest
            rw [List.filter_append, vfsPathNextTraced_onBuffer, List.filter_cons_of_pos rfl,
              List.filter_append, quiet, List.nil_append]
            refine ⟨?_, fun n w found => ?_⟩
            · rw [List.prefix_append_right_inj, List.cons_prefix_cons]
              exact ⟨rfl, before⟩
            · obtain ⟨same, taken⟩ := all n w found
              dsimp only
              rw [same, ne_eq, Option.map_eq_none_iff]
              exact ⟨rfl, taken⟩

/-- The names and the writes are about the buffer. -/
theorem nextNames_onBuffer (l : List FindEvent) :
    nextNames (l.filter FindEvent.onBuffer) = nextNames l := by
  induction l with
  | nil => rfl
  | cons event l ih =>
      cases event with
      | write i c => exact ih
      | next name => exact congrArg (name :: ·) ih
      | namei fs dir name => exact ih

theorem within_onBuffer {l : List FindEvent}
    (within : ∀ event ∈ l.filter FindEvent.onBuffer, event.Within) : ∀ event ∈ l, event.Within := by
  intro event made
  cases event with
  | write i c => exact within _ (List.mem_filter.mpr ⟨made, rfl⟩)
  | next name => exact trivial
  | namei fs dir name => exact trivial

/-- A name that is taken fits, and the rest of the path is as good. -/
theorem vfsPathNext_reached (fits : ¬ OverrunReached path)
    (next : vfsPathNext path 0 = some (name, rest)) :
    name.length ≤ nameMax ∧ ¬ OverrunReached rest := by
  obtain last | ⟨first, more, rfl, free⟩ := path_cases path
  · rw [(vfsPathNextTraced_last last (Nat.zero_le _)).1, Nat.zero_add] at next
    rw [overrunReached_last last] at fits
    split at next
    · cases next
      refine ⟨by omega, ?_⟩
      rw [overrunReached_last List.not_mem_nil]
      decide
    · cases next
  · rw [(vfsPathNextTraced_name free (Nat.zero_le _)).1, Nat.zero_add] at next
    rw [overrunReached_name free] at fits
    split at next
    · next short =>
        cases next
        exact ⟨short, fun reached => fits ⟨short, reached⟩⟩
    · cases next

/-- A lookup returns. -/
theorem vfsFindLoop_returns (sound : v.Sound depth) (there : (v.nodes cur).isSome)
    (fits : ¬ OverrunReached path) :
    ∃ r, Returns (fun fuel => vfsFindLoop env fuel steps v cur path) r := by
  induction steps generalizing v depth cur path with
  | zero => exact ⟨_, .const _⟩
  | succ steps ih =>
      by_cases more : path = []
      · subst more
        exact ⟨_, .congr (fun _ => vfsFindLoop_nil) (.const (some cur, v))⟩
      cases next : vfsPathNext path 0 with
      | none => exact ⟨_, .congr (fun _ => vfsFindLoop_long more next) (.const (none, v))⟩
      | some result =>
          obtain ⟨name, rest⟩ := result
          obtain ⟨short, fits'⟩ := vfsPathNext_reached fits next
          by_cases skip : name = [] ∨ name = ['.']
          · obtain ⟨r, returns⟩ := ih sound there fits'
            exact ⟨r, .congr (fun _ => vfsFindLoop_skip more next skip) returns⟩
          obtain ⟨node, here⟩ := Option.isSome_iff_exists.mp there
          by_cases dots : name = ['.', '.']
          · subst dots
            obtain ⟨r, returns⟩ := ih sound (sound.tree.up here) fits'
            exact ⟨r, .congr (fun _ => vfsFindLoop_up more next here) returns⟩
          rcases get : vfsNodeGet env v cur name with ⟨found, v₁⟩
          cases found with
          | none =>
              obtain ⟨v', returns⟩ := vfsFindLoop_missing sound there more next skip dots get
              exact ⟨(none, v'), returns⟩
          | some c =>
              obtain ⟨depth₁, sound₁, -, now, at_cur, mem, -⟩ :=
                vfsNodeGet_step sound here short get
              obtain ⟨child, at_c, -⟩ := sound₁.tree.child cur now at_cur c mem
              have same := Vfs.Recounted.drop v₁ cur
              obtain ⟨r, returns⟩ := ih (sound₁.recounted same)
                (same.isSome (by rw [at_c]; rfl)) fits'
              exact ⟨r, vfsFindLoop_down sound more next skip dots get sound₁
                (by rw [at_cur]; rfl) returns⟩

/-- Everything a lookup does with its buffer is done by splitting the names. -/
theorem findSplits_of_names (fits : ¬ OverrunReached path) : FindSplits env v path := by
  have split := (namesSplit_iff (Nat.le_refl path.length)).mpr fits
  obtain ⟨root, v', start⟩ : ∃ root v', vfsNodeGetRoot v = (root, v') := ⟨_, _, rfl⟩
  cases root with
  | none =>
      have run : ∀ fuel, vfsFindTraced env fuel v ('/' :: path) = pure (some (none, v')) := by
        intro fuel
        simp only [vfsFindTraced, start]
      refine ⟨fun _ _ => ⟨_, .congr (fun fuel => ?_) (.const (none, v'))⟩, fun fuel => ?_,
        fun fuel => ?_, fun fuel n w found => ?_⟩
      · rw [run]
        rfl
      · rw [run]
        exact .pure
      · rw [run]
        exact List.nil_prefix
      · rw [run] at found
        cases found
  | some r =>
      have run : ∀ fuel, vfsFindTraced env fuel v ('/' :: path) =
          vfsFindLoopTraced env fuel path.length v' r path := by
        intro fuel
        simp only [vfsFindTraced, start]
      have names := fun fuel => @vfsFindLoopTraced_names env fuel path.length v' r path
      refine ⟨fun depth sound => ?_, fun fuel => ?_, fun fuel => ?_, fun fuel n w found => ?_⟩
      · have held := Vfs.Recounted.hold v r
        have root : v.root = some r := by
          cases is : v.root with
          | none =>
              rw [vfsNodeGetRoot, is] at start
              cases start
          | some r' =>
              rw [vfsNodeGetRoot, is] at start
              cases start
              rfl
        obtain rfl : (vfsNodeHold (some r, v)).2 = v' := by
          rw [vfsNodeGetRoot, root] at start
          rw [start]
        obtain ⟨result, returns⟩ := @vfsFindLoop_returns env path.length _ depth r path
          (sound.recounted held) (held.isSome (sound.tree.root r root)) fits
        refine ⟨result, .congr (fun fuel => ?_) returns⟩
        rw [run, vfsFindLoopTraced_value]
      · rw [run]
        exact within_onBuffer fun event made => split.within event ((names fuel).1.subset made)
      · rw [run, ← split.names, ← nextNames_onBuffer]
        exact (names fuel).1.filterMap _
      · rw [run] at found ⊢
        obtain ⟨same, taken⟩ := (names fuel).2 n w found
        rw [split.value] at taken
        split at taken
        · next short =>
            refine ⟨short, ?_⟩
            rw [← nextNames_onBuffer, same, split.names]
            exact List.takeWhile_eq_self_iff.mpr (by simpa using short)
        · exact absurd rfl taken

end

/-- Paths are split into their components, and the buffer is kept, exactly unless a last name of
    one character too many is reached. -/
theorem pathSplits_iff (path : Name) :
    PathSplits path ↔ ¬ ∃ rest, path = '/' :: rest ∧ OverrunReached rest := by
  constructor
  · rintro split ⟨rest, rfl, reached⟩
    exact (namesSplit_iff (Nat.le_refl _)).mp (split.names rest rfl) reached
  · intro fits
    exact ⟨fun relative env fuel v => vfsFindTraced_relative relative,
      fun rest eq => (namesSplit_iff (Nat.le_refl _)).mpr fun reached => fits ⟨rest, eq, reached⟩,
      fun rest eq env v => findSplits_of_names fun reached => fits ⟨rest, eq, reached⟩⟩

/-- The lookup of a name of 256 characters in a tree with a root writes behind the buffer. -/
theorem not_pathSplits : ¬ ∀ path, PathSplits path := by
  intro splits
  have finds := (splits ('/' :: List.replicate 256 'a')).finds _ rfl oneFileEnv bareTree
  have within := finds.within 0
  have last : '/' ∉ List.replicate 256 'a' := by
    intro mem
    exact absurd (List.eq_of_mem_replicate mem) (by decide)
  obtain ⟨value, bound⟩ := vfsPathNextTraced_last last (Nat.zero_le _)
  rw [List.length_replicate] at value bound
  rw [if_pos (by decide)] at value
  have length := @List.length_replicate Char 256 'a'
  generalize List.replicate 256 'a' = path at within value bound length
  have more : path ≠ [] := by
    rintro rfl
    cases length
  have run : vfsFindTraced oneFileEnv 0 bareTree ('/' :: path) =
      vfsFindLoopTraced oneFileEnv 0 path.length (vfsNodeHold (some 1, bareTree)).2 1 path := rfl
  rw [run, length, vfsFindLoopTraced_some more value rfl] at within
  exact bound.mp (List.forall_mem_append.mp within).1 rfl

end Sdx.Fs
