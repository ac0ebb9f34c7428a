import Sdx.Core.PartTable

/-! # A scan leaves what the partition table says (`disk_part_scan`)

While a loader runs, the partitions that are available are those it has registered, and the
others are those of the scan before. The sweep at the end takes the others out.
-/

namespace Sdx.Core

open Sdx.Lib.LinkedList

/-! ## The list of a disk -/

namespace Disks

/-- Where a partition lies. -/
def key (m : Disks) (p : PartPtr) : Nat × Nat := ((m.parts p).start, (m.parts p).size)

/-- `l` are the partitions of the disk. -/
structure Parts (m : Disks) (disk : DiskPtr) (l : List PartPtr) : Prop where
  walk : Walk m.nextPart (m.disks disk).parts l
  live : ∀ p ∈ l, m.live p = true
  distinct : (l.map m.key).Nodup
  count : (m.disks disk).partCount = BitVec.ofNat 32 l.length

/-- The heap hands out what is not in use, and nothing twice. -/
structure Fresh (m : Disks) : Prop where
  fresh : ∀ p, some p ∈ m.allocs → m.live p = false
  once : m.allocs.Pairwise fun a b => a = b → a = none

end Disks

def PartEntry.key (part : PartEntry) : Nat × Nat := (part.start, part.size)

/-- The bootable flag a place was registered with last. -/
def lastBootable (registered : List PartEntry) (key : Nat × Nat) : Option Bool :=
  ((registered.filter fun part => part.key = key).getLast?).map PartEntry.bootable

section

variable {m m' m₀ : Disks} {disk : DiskPtr} {p new : PartPtr} {cur : Option PartPtr}
  {l l₀ done rest : List PartPtr} {registered : List PartEntry} {part : PartEntry}
  {start size fuel : Nat} {key : Nat × Nat}

theorem lastBootable_append : lastBootable (registered ++ [part]) key =
    if part.key = key then some part.bootable else lastBootable registered key := by
  by_cases same : part.key = key <;> simp [lastBootable, same]

theorem mem_of_lastBootable {bootable : Bool} (last : lastBootable registered key = some bootable) :
    key ∈ registered.map PartEntry.key := by
  obtain ⟨part, last, -⟩ := Option.map_eq_some_iff.mp last
  obtain ⟨mem, same⟩ := List.mem_filter.mp (List.mem_of_getLast? last)
  exact List.mem_map.mpr ⟨part, mem, by simpa using same⟩

/-! ## The loops -/

theorem diskPartFind_spec (walk : Walk m.nextPart cur l) {r : Option PartPtr}
    (run : diskPartFind m start size fuel cur = some r) :
    match r with
    | some p => p ∈ l ∧ m.key p = (start, size)
    | none => ∀ p ∈ l, m.key p ≠ (start, size) := by
  induction l generalizing cur fuel with
  | nil =>
      obtain rfl : cur = none := walk.head_eq
      cases fuel with
      | zero => cases run
      | succ fuel =>
          cases run
          exact fun p mem => absurd mem List.not_mem_nil
  | cons x l ih =>
      obtain rfl : cur = some x := walk.head_eq
      cases fuel with
      | zero => cases run
      | succ fuel =>
          rw [diskPartFind] at run
          by_cases here : (m.parts x).start = start ∧ (m.parts x).size = size
          · rw [if_pos here] at run
            cases run
            exact ⟨List.mem_cons_self, Prod.ext here.1 here.2⟩
          · rw [if_neg here] at run
            have found := ih walk.tail run
            cases r with
            | some p => exact ⟨List.mem_cons_of_mem _ found.1, found.2⟩
            | none =>
                intro p mem
                obtain rfl | mem := List.mem_cons.mp mem
                · exact fun same => here (Prod.mk.inj same)
                · exact found p mem

/-- The partitions with those of `l` not available. -/
def Disks.blocked (m : Disks) (l : List PartPtr) : Disks :=
  { m with parts := fun p => if p ∈ l then { m.parts p with available := false } else m.parts p }

@[simp] theorem Disks.nextPart_blocked : (m.blocked l).nextPart = m.nextPart := by
  funext p
  by_cases mem : p ∈ l <;> simp [nextPart, blocked, mem]

@[simp] theorem Disks.key_blocked : (m.blocked l).key = m.key := by
  funext p
  by_cases mem : p ∈ l <;> simp [key, blocked, mem]

theorem diskPartBlockLoop_eq (walk : Walk m.nextPart cur l)
    (run : diskPartBlockLoop fuel m cur = some m') : m' = m.blocked l := by
  induction l generalizing cur fuel m with
  | nil =>
      obtain rfl : cur = none := walk.head_eq
      cases fuel with
      | zero => cases run
      | succ fuel =>
          cases run
          simp [Disks.blocked]
  | cons x l ih =>
      obtain rfl : cur = some x := walk.head_eq
      cases fuel with
      | zero => cases run
      | succ fuel =>
          rw [diskPartBlockLoop] at run
          generalize step : m.setPart x { m.parts x with available := false } = m₁ at run
          have next : m₁.nextPart = m.nextPart := by
            funext p
            by_cases same : p = x
            · subst same
              simp [← step, Disks.nextPart, Disks.setPart]
            · simp [← step, Disks.nextPart, Disks.setPart, same]
          rw [next] at run
          rw [ih (next ▸ walk.tail) run, ← step]
          simp only [Disks.blocked, Disks.setPart, Disks.mk.injEq, true_and, and_true]
          funext p
          by_cases same : p = x
          · subst same
            simp
          · simp [same]

/-- What relinking and freeing a partition leaves alone. -/
structure SameParts (m m' : Disks) : Prop where
  key : m'.key = m.key
  available : ∀ p, (m'.parts p).available = (m.parts p).available
  bootable : ∀ p, (m'.parts p).bootable = (m.parts p).bootable
  live : ∀ p, (m.parts p).available = true → m'.live p = m.live p
  registered : m'.registered = m.registered

theorem SameParts.refl (m : Disks) : SameParts m m :=
  ⟨rfl, fun _ => rfl, fun _ => rfl, fun _ _ => rfl, rfl⟩

theorem SameParts.trans {m₁ : Disks} (first : SameParts m m₁) (second : SameParts m₁ m') :
    SameParts m m' where
  key := second.key.trans first.key
  available p := (second.available p).trans (first.available p)
  bootable p := (second.bootable p).trans (first.bootable p)
  live p kept := (second.live p ((first.available p).trans kept)).trans (first.live p kept)
  registered := second.registered.trans first.registered

/-- One round of the sweep that takes out the partition `x` behind `done`. -/
theorem diskPartClearLoop_unlink (walk : Walk m.nextPart (m.disks disk).parts (done ++ p :: rest))
    (gone : (m.parts p).available = false)
    (run : diskPartClearLoop disk (fuel + 1) m done.getLast? (some p) = some m') :
    ∃ m₁, SameParts m m₁ ∧ Walk m₁.nextPart (m₁.disks disk).parts (done ++ rest) ∧
      (m₁.disks disk).partCount = (m.disks disk).partCount - 1 ∧
      diskPartClearLoop disk fuel m₁ done.getLast? rest.head? = some m' := by
  have next : m.nextPart p = rest.head? := walk.suffix.tail.head_eq
  have off (q : PartPtr) (kept : (m.parts q).available = true) : q ≠ p := by
    rintro rfl
    rw [gone] at kept
    cases kept
  rw [diskPartClearLoop, if_neg (by simp [gone])] at run
  cases done using List.reverseRecOn with
  | nil =>
      have first := walk.head_eq
      rw [List.nil_append, List.head?_cons] at first
      rw [List.nil_append, first] at walk
      dsimp only [List.getLast?_nil] at run
      generalize step : Disks.heapFree _ p = m₁ at run
      have links : m₁.nextPart = m.nextPart := by
        rw [← step]
        rfl
      have head : (m₁.disks disk).parts = m.nextPart p := by
        simp [← step, Disks.heapFree, Disks.setDisk, Disks.nextPart]
      refine ⟨m₁, ⟨?_, ?_, ?_, ?_, ?_⟩, ?_, ?_, ?_⟩
      · rw [← step]
        rfl
      · simp [← step, Disks.heapFree, Disks.setDisk]
      · simp [← step, Disks.heapFree, Disks.setDisk]
      · intro q kept
        simp [← step, Disks.heapFree, Disks.setDisk, off q kept]
      · rw [← step]
        rfl
      · rw [links, head]
        exact walk.tail
      · simp [← step, Disks.heapFree, Disks.setDisk]
      · rwa [head, next] at run
  | append_singleton done c =>
      rw [List.getLast?_concat] at run ⊢
      dsimp only at run
      generalize step : Disks.heapFree _ p = m₁ at run
      have links : m₁.nextPart = Function.update m.nextPart c (m.nextPart p) := by
        funext q
        by_cases same : q = c
        · subst same
          simp [← step, Disks.heapFree, Disks.setDisk, Disks.setPart, Disks.nextPart]
        · simp [← step, Disks.heapFree, Disks.setDisk, Disks.setPart, Disks.nextPart, same]
      have field (q : PartPtr) : m₁.key q = m.key q ∧ (m₁.parts q).available = (m.parts q).available ∧
          (m₁.parts q).bootable = (m.parts q).bootable := by
        by_cases same : q = c
        · subst same
          simp [← step, Disks.heapFree, Disks.setDisk, Disks.setPart, Disks.key]
        · simp [← step, Disks.heapFree, Disks.setDisk, Disks.setPart, Disks.key, same]
      refine ⟨m₁, ⟨funext fun q => (field q).1, fun q => (field q).2.1, fun q => (field q).2.2, ?_, ?_⟩,
        ?_, ?_, ?_⟩
      · intro q kept
        simp [← step, Disks.heapFree, Disks.setDisk, Disks.setPart, off q kept]
      · rw [← step]
        rfl
      · have head : (m₁.disks disk).parts = (m.disks disk).parts := by
          simp [← step, Disks.heapFree, Disks.setDisk, Disks.setPart]
        rw [List.append_assoc, List.singleton_append] at walk ⊢
        rw [links, head]
        exact walk.unlink
      · simp [← step, Disks.heapFree, Disks.setDisk, Disks.setPart]
      · rwa [links, Function.update_self, next] at run

/-- The sweep, in front of `rest`. `done` is what it kept so far. -/
theorem diskPartClearLoop_cleared (walk : Walk m.nextPart (m.disks disk).parts (done ++ rest))
    (count : (m.disks disk).partCount = BitVec.ofNat 32 (done ++ rest).length)
    (run : diskPartClearLoop disk fuel m done.getLast? rest.head? = some m') :
    SameParts m m' ∧
      Walk m'.nextPart (m'.disks disk).parts (done ++ rest.filter fun p => (m.parts p).available) ∧
      (m'.disks disk).partCount =
        BitVec.ofNat 32 (done ++ rest.filter fun p => (m.parts p).available).length := by
  induction rest generalizing m done fuel with
  | nil =>
      cases fuel with
      | zero => cases run
      | succ fuel =>
          cases run
          exact ⟨.refl _, walk, count⟩
  | cons p rest ih =>
      cases fuel with
      | zero => cases run
      | succ fuel =>
          rw [List.head?_cons] at run
          cases kept : (m.parts p).available with
          | true =>
              have next : m.nextPart p = rest.head? := walk.suffix.tail.head_eq
              rw [diskPartClearLoop, if_pos kept, next] at run
              have shift (l : List PartPtr) : done ++ p :: l = (done ++ [p]) ++ l := by simp
              rw [List.filter_cons_of_pos (by exact kept), shift]
              rw [shift] at walk count
              exact ih walk count (by rwa [List.getLast?_concat])
          | false =>
              obtain ⟨m₁, same, walk₁, fewer, run⟩ := diskPartClearLoop_unlink walk kept run
              have count₁ : (m₁.disks disk).partCount = BitVec.ofNat 32 (done ++ rest).length := by
                rw [fewer, count, List.length_append, List.length_append, List.length_cons,
                  ← Nat.add_assoc, BitVec.ofNat_add]
                exact BitVec.add_sub_cancel _ _
              have filter_eq : (rest.filter fun p => (m₁.parts p).available) =
                  rest.filter fun p => (m.parts p).available :=
                List.filter_congr fun q _ => same.available q
              obtain ⟨same', done'⟩ := ih walk₁ count₁ run
              rw [filter_eq] at done'
              rw [List.filter_cons_of_neg (by simp [kept])]
              exact ⟨same.trans same', done'⟩

/-! ## Registering -/

/-- What holds while a loader runs: `l` is the list of the disk, `l₀` was its list before, and
    `registered` is what the loader has made available. -/
structure Loading (m₀ m : Disks) (disk : DiskPtr) (l₀ l : List PartPtr)
    (registered : List PartEntry) : Prop where
  parts : m.Parts disk l
  fresh : m.Fresh
  marked : ∀ p ∈ l, lastBootable registered (m.key p) =
    if (m.parts p).available then some (m.parts p).bootable else none
  all : ∀ part ∈ registered, ∃ p ∈ l, m.key p = part.key
  old : ∀ p ∈ l₀, p ∈ l ∧ m.key p = m₀.key p
  log : m.registered = m₀.registered ++ registered

/-- A partition of the list is made available. -/
theorem Loading.mark (loading : Loading m₀ m disk l₀ l registered) (mem : p ∈ l)
    (here : m.key p = part.key) :
    Loading m₀ { m.setPart p { m.parts p with bootable := part.bootable, available := true } with
      registered := m.registered ++ [part] } disk l₀ l (registered ++ [part]) := by
  generalize step : ({ m.setPart p { m.parts p with bootable := part.bootable, available := true } with
    registered := m.registered ++ [part] } : Disks) = m₁
  have links : m₁.nextPart = m.nextPart := by
    funext q
    by_cases same : q = p
    · subst same
      simp [← step, Disks.nextPart, Disks.setPart]
    · simp [← step, Disks.nextPart, Disks.setPart, same]
  have keys : m₁.key = m.key := by
    funext q
    by_cases same : q = p
    · subst same
      simp [← step, Disks.key, Disks.setPart]
    · simp [← step, Disks.key, Disks.setPart, same]
  have disks : m₁.disks = m.disks := by rw [← step]; rfl
  have live : m₁.live = m.live := by rw [← step]; rfl
  have allocs : m₁.allocs = m.allocs := by rw [← step]; rfl
  have log : m₁.registered = m.registered ++ [part] := by rw [← step]
  refine ⟨⟨?_, ?_, ?_, ?_⟩, ⟨?_, ?_⟩, ?_, ?_, ?_, ?_⟩
  · rw [links, disks]
    exact loading.parts.walk
  · rw [live]
    exact loading.parts.live
  · rw [keys]
    exact loading.parts.distinct
  · rw [disks]
    exact loading.parts.count
  · rw [live, allocs]
    exact loading.fresh.fresh
  · rw [allocs]
    exact loading.fresh.once
  · intro q mem'
    rw [lastBootable_append, keys]
    by_cases same : q = p
    · subst same
      rw [if_pos here.symm]
      simp [← step, Disks.setPart]
    · have off : part.key ≠ m.key q := by
        intro eq
        exact same (List.inj_on_of_nodup_map loading.parts.distinct mem' mem (eq.symm.trans here.symm))
      rw [if_neg off, loading.marked q mem']
      simp [← step, Disks.setPart, same]
  · rw [keys]
    intro other mem'
    obtain mem' | mem' := List.mem_append.mp mem'
    · exact loading.all other mem'
    · obtain rfl := List.mem_singleton.mp mem'
      exact ⟨p, mem, here⟩
  · rw [keys]
    exact loading.old
  · rw [log, loading.log, List.append_assoc]

/-- A place no partition of the list has was not registered. -/
theorem Loading.not_registered (loading : Loading m₀ m disk l₀ l registered)
    (absent : ∀ p ∈ l, m.key p ≠ key) : lastBootable registered key = none := by
  cases last : lastBootable registered key with
  | none => rfl
  | some bootable =>
      obtain ⟨part, mem, same⟩ := List.mem_map.mp (mem_of_lastBootable last)
      obtain ⟨p, mem', same'⟩ := loading.all part mem
      exact absurd (same'.trans same) (absent p mem')

/-- The list stays when there is no memory for a new partition. -/
theorem Loading.exhausted (loading : Loading m₀ m disk l₀ l registered)
    {allocs : List (Option PartPtr)} (given : m.allocs = none :: allocs) :
    Loading m₀ { m with allocs := allocs } disk l₀ l registered := by
  obtain ⟨⟨walk, live, distinct, count⟩, ⟨fresh, once⟩, marked, all, old, log⟩ := loading
  rw [given] at fresh once
  exact ⟨⟨walk, live, distinct, count⟩,
    ⟨fun p mem => fresh p (List.mem_cons_of_mem _ mem), (List.pairwise_cons.mp once).2⟩,
    marked, all, old, log⟩

/-- A new partition at the start of the list. -/
theorem Loading.insert (loading : Loading m₀ m disk l₀ l registered) {allocs : List (Option PartPtr)}
    (given : m.allocs = some new :: allocs) (absent : ∀ p ∈ l, m.key p ≠ (start, size)) :
    ∃ m₁, diskPartInsert { m with allocs := allocs, live := Function.update m.live new true }
        disk new start size = m₁ ∧
      m₁.key new = (start, size) ∧ Loading m₀ m₁ disk l₀ (new :: l) registered := by
  have unregistered := loading.not_registered absent
  obtain ⟨⟨walk, live, distinct, count⟩, ⟨fresh, once⟩, marked, all, old, log⟩ := loading
  rw [given] at fresh once
  obtain ⟨apart, once⟩ := List.pairwise_cons.mp once
  have unused := fresh new List.mem_cons_self
  have off (p : PartPtr) (mem : p ∈ l) : p ≠ new := by
    rintro rfl
    rw [live p mem] at unused
    cases unused
  refine ⟨_, rfl, ?_⟩
  generalize step : diskPartInsert { m with
    allocs := allocs, live := Function.update m.live new true } disk new start size = m₁
  have part_new : m₁.parts new = ⟨start, size, false, false, disk, (m.disks disk).parts⟩ := by
    simp [← step, diskPartInsert, Disks.setPart, Disks.setDisk]
  have part_old (p : PartPtr) (away : p ≠ new) : m₁.parts p = m.parts p := by
    simp [← step, diskPartInsert, Disks.setPart, Disks.setDisk, away]
  have head : (m₁.disks disk).parts = some new ∧
      (m₁.disks disk).partCount = (m.disks disk).partCount + 1 := by
    simp [← step, diskPartInsert, Disks.setPart, Disks.setDisk]
  have live' : m₁.live = Function.update m.live new true := by rw [← step]; rfl
  have allocs' : m₁.allocs = allocs := by rw [← step]; rfl
  have key_new : m₁.key new = (start, size) := by simp [Disks.key, part_new]
  have key_old (p : PartPtr) (mem : p ∈ l) : m₁.key p = m.key p := by
    simp [Disks.key, part_old p (off p mem)]
  refine ⟨key_new, ⟨?_, ?_, ?_, ?_⟩, ⟨?_, ?_⟩, ?_, ?_, ?_, ?_⟩
  · rw [head.1]
    refine .visit ?_
    have next : m₁.nextPart new = (m.disks disk).parts := by simp [Disks.nextPart, part_new]
    rw [next]
    refine walk.congr fun p mem => ?_
    simp [Disks.nextPart, part_old p (off p mem)]
  · intro p mem
    rw [live']
    obtain rfl | mem := List.mem_cons.mp mem
    · exact Function.update_self ..
    · rw [Function.update_of_ne (off p mem), live p mem]
  · rw [List.map_cons, key_new, List.map_congr_left key_old]
    refine List.nodup_cons.mpr ⟨fun mem => ?_, distinct⟩
    obtain ⟨p, mem, same⟩ := List.mem_map.mp mem
    exact absent p mem same
  · rw [head.2, count, List.length_cons, BitVec.ofNat_add]
    rfl
  · intro p mem
    rw [allocs'] at mem
    have away : p ≠ new := by
      rintro rfl
      exact absurd (apart _ mem rfl) (Option.some_ne_none p)
    rw [live', Function.update_of_ne away]
    exact fresh p (List.mem_cons_of_mem _ mem)
  · rw [allocs']
    exact once
  · intro p mem
    obtain rfl | mem := List.mem_cons.mp mem
    · rw [key_new, unregistered, part_new]
      rfl
    · rw [key_old p mem, part_old p (off p mem)]
      exact marked p mem
  · intro part mem
    obtain ⟨p, mem, same⟩ := all part mem
    exact ⟨p, List.mem_cons_of_mem _ mem, (key_old p mem).trans same⟩
  · intro p mem
    obtain ⟨mem, same⟩ := old p mem
    exact ⟨List.mem_cons_of_mem _ mem, (key_old p mem).trans same⟩
  · rw [← log, ← step]
    rfl

/-- A step from one state to the next that a loader can take. -/
structure LoadStep (disk : DiskPtr) (m m' : Disks) : Prop where
  next : ∀ m₀ l₀ l registered, Loading m₀ m disk l₀ l registered →
    ∃ l' registered', Loading m₀ m' disk l₀ l' registered'

theorem LoadStep.refl : LoadStep disk m m := ⟨fun _ _ l registered loading => ⟨l, registered, loading⟩⟩

theorem LoadStep.trans {m₁ : Disks} (first : LoadStep disk m m₁) (second : LoadStep disk m₁ m') :
    LoadStep disk m m' := by
  refine ⟨fun m₀ l₀ l registered loading => ?_⟩
  obtain ⟨l₁, registered₁, loading₁⟩ := first.next m₀ l₀ l registered loading
  exact second.next m₀ l₀ l₁ registered₁ loading₁

/-- Registering one partition. -/
theorem loadPart_step (run : loadPart fuel m disk part = some m') : LoadStep disk m m' := by
  refine ⟨fun m₀ l₀ l registered loading => ?_⟩
  obtain ⟨⟨dp, m₁⟩, added, run⟩ := Option.bind_eq_some_iff.mp run
  obtain ⟨found, search, added⟩ := Option.bind_eq_some_iff.mp added
  have spec := diskPartFind_spec loading.parts.walk search
  cases found with
  | some p =>
      cases added
      cases run
      exact ⟨l, _, loading.mark spec.1 spec.2⟩
  | none =>
      cases given : m.allocs with
      | nil =>
          simp only [Disks.heapAlloc, given] at added
          cases added
          cases run
          exact ⟨l, registered, loading⟩
      | cons new allocs =>
          cases new with
          | none =>
              simp only [Disks.heapAlloc, given] at added
              cases added
              cases run
              exact ⟨l, registered, loading.exhausted given⟩
          | some new =>
              obtain ⟨m₂, inserted, key, loading⟩ := loading.insert given spec
              simp only [Disks.heapAlloc, given, inserted] at added
              cases added
              cases run
              exact ⟨_, _, loading.mark List.mem_cons_self key⟩

theorem gptLoadEntry_step {entries : Sdx.Lib.Bytes.Memory} {at' : Nat}
    (run : gptLoadEntry fuel m disk entries at' = some m') : LoadStep disk m m' := by
  unfold gptLoadEntry at run
  cases taken : gptEntry entries at' with
  | none =>
      rw [taken] at run
      cases run
      exact .refl
  | some part =>
      rw [taken] at run
      exact loadPart_step run

theorem gptLoadSector_step {entries : Sdx.Lib.Bytes.Memory} {entrySize count e : Nat}
    (run : gptLoadSector fuel disk entries entrySize count e m = some m') : LoadStep disk m m' := by
  induction count generalizing e m with
  | zero =>
      cases run
      exact .refl
  | succ count ih =>
      rw [gptLoadSector] at run
      obtain ⟨m₁, entry, run⟩ := Option.bind_eq_some_iff.mp run
      exact (gptLoadEntry_step entry).trans (ih run)

theorem gptLoadLoop_step {dev : Disk} {header : GptTableHeader} {entryPerSector rounds i : Nat}
    {entries : Sdx.Lib.Bytes.Memory}
    (run : gptLoadLoop fuel dev disk header entryPerSector rounds i entries m = some m') :
    LoadStep disk m m' := by
  induction rounds generalizing i entries m with
  | zero =>
      cases run
      exact .refl
  | succ rounds ih =>
      rw [gptLoadLoop] at run
      by_cases more : i < header.entryCount
      swap
      · rw [if_neg more] at run
        cases run
        exact .refl
      rw [if_pos more] at run
      by_cases zero : entryPerSector = 0
      · rw [if_pos zero] at run
        cases run
      rw [if_neg zero] at run
      cases sector : diskDo dev (wrap64 (header.lbaArray + i / entryPerSector)) 1 0 entries with
      | mk read entries₁ =>
          rw [sector] at run
          cases read with
          | false => exact ih run
          | true =>
              obtain ⟨m₁, loaded, run⟩ := Option.bind_eq_some_iff.mp run
              exact (gptLoadSector_step loaded).trans (ih run)

/-- A loader that fails has registered nothing. -/
theorem gptLoad_step {dev : Disk} {loaded : Bool} (run : gptLoad fuel dev m disk = some (loaded, m')) :
    LoadStep disk m m' ∧ (loaded = false → m' = m) := by
  unfold gptLoad at run
  split at run
  · cases run
    exact ⟨.refl, fun _ => rfl⟩
  · dsimp only at run
    split_ifs at run
    · cases run
      exact ⟨.refl, fun _ => rfl⟩
    · cases run
      exact ⟨.refl, fun _ => rfl⟩
    · obtain ⟨m₁, loop, same⟩ := Option.map_eq_some_iff.mp run
      cases same
      exact ⟨gptLoadLoop_step loop, fun failed => Bool.noConfusion failed⟩

theorem mbrLoadLoop_step {mbr : Sdx.Lib.Bytes.Memory} {count i : Nat}
    (run : mbrLoadLoop fuel disk mbr count i m = some m') : LoadStep disk m m' := by
  induction count generalizing i m with
  | zero =>
      cases run
      exact .refl
  | succ count ih =>
      rw [mbrLoadLoop] at run
      cases taken : mbrEntry mbr (446 + i * 16) with
      | none =>
          rw [taken] at run
          exact ih run
      | some part =>
          rw [taken] at run
          obtain ⟨m₁, loaded, run⟩ := Option.bind_eq_some_iff.mp run
          exact (loadPart_step loaded).trans (ih run)

theorem mbrLoad_step {dev : Disk} {loaded : Bool} (run : mbrLoad fuel dev m disk = some (loaded, m')) :
    LoadStep disk m m' ∧ (loaded = false → m' = m) := by
  unfold mbrLoad at run
  split at run
  · cases run
    exact ⟨.refl, fun _ => rfl⟩
  · split_ifs at run
    · cases run
      exact ⟨.refl, fun _ => rfl⟩
    · obtain ⟨m₁, loop, same⟩ := Option.map_eq_some_iff.mp run
      cases same
      exact ⟨mbrLoadLoop_step loop, fun failed => Bool.noConfusion failed⟩

theorem partLoad_step {coreGpt loaded : Bool} {dev : Disk}
    (run : partLoad coreGpt fuel dev m disk = some (loaded, m')) :
    LoadStep disk m m' ∧ (loaded = false → m' = m) := by
  have rest (first : Bool) (m₁ : Disks) (step : LoadStep disk m m₁ ∧ (first = false → m₁ = m))
      (ran : (if first then some (true, m₁) else mbrLoad fuel dev m₁ disk) = some (loaded, m')) :
      LoadStep disk m m' ∧ (loaded = false → m' = m) := by
    cases first with
    | true =>
        cases ran
        exact ⟨step.1, fun failed => Bool.noConfusion failed⟩
    | false =>
        obtain rfl := step.2 rfl
        exact mbrLoad_step ran
  cases coreGpt with
  | false => exact rest false m ⟨.refl, fun _ => rfl⟩ run
  | true =>
      obtain ⟨⟨first, m₁⟩, gpt, run⟩ := Option.bind_eq_some_iff.mp run
      exact rest first m₁ (gptLoad_step gpt) run

/-! ## The scan -/

/-- The state in which the loaders start. -/
theorem Loading.init (parts : m.Parts disk l) (fresh : m.Fresh) :
    Loading m (m.blocked l) disk l l [] where
  parts := by
    refine ⟨?_, parts.live, ?_, parts.count⟩
    · rw [Disks.nextPart_blocked]
      exact parts.walk
    · rw [Disks.key_blocked]
      exact parts.distinct
  fresh := ⟨fresh.fresh, fresh.once⟩
  marked p mem := by simp [lastBootable, Disks.blocked, mem]
  all part mem := absurd mem List.not_mem_nil
  old p mem := ⟨mem, by rw [Disks.key_blocked]⟩
  log := (List.append_nil _).symm

/-- What a scan that succeeds leaves: `l'` is the list now, `l` was the list before it, and
    `registered` is what the loader has registered and made available. -/
structure Rescanned (m m' : Disks) (disk : DiskPtr) (l l' : List PartPtr)
    (registered : List PartEntry) : Prop where
  log : m'.registered = m.registered ++ registered
  parts : m'.Parts disk l'
  all : ∀ key, key ∈ l'.map m'.key ↔ key ∈ registered.map PartEntry.key
  available : ∀ p ∈ l', (m'.parts p).available = true
  bootable : ∀ p ∈ l', lastBootable registered (m'.key p) = some (m'.parts p).bootable
  kept : ∀ p ∈ l, m.key p ∈ registered.map PartEntry.key → p ∈ l' ∧ m'.key p = m.key p

/-- What a scan that fails leaves. -/
structure Unscanned (m m' : Disks) (disk : DiskPtr) (l : List PartPtr) : Prop where
  parts : m'.Parts disk l
  key : ∀ p ∈ l, m'.key p = m.key p
  count : (m'.disks disk).partCount = (m.disks disk).partCount
  unavailable : ∀ p ∈ l, (m'.parts p).available = false

/-- The sweep behind a loader. -/
theorem Loading.clear (loading : Loading m₀ m disk l₀ l registered)
    (run : diskPartClear fuel m disk = some m') :
    Rescanned m₀ m' disk l₀ (l.filter fun p => (m.parts p).available) registered := by
  have walk := loading.parts.walk
  have head : (m.disks disk).parts = l.head? := walk.head_eq
  rw [diskPartClear, head] at run
  obtain ⟨same, walk', count'⟩ := @diskPartClearLoop_cleared m m' disk [] l fuel walk
    loading.parts.count run
  have kept (p : PartPtr) : p ∈ (l.filter fun p => (m.parts p).available) ↔
      p ∈ l ∧ (m.parts p).available = true := List.mem_filter
  have last (p : PartPtr) (mem : p ∈ l) (available : (m.parts p).available = true) :
      lastBootable registered (m.key p) = some (m.parts p).bootable := by
    rw [loading.marked p mem, if_pos available]
  have listed (p : PartPtr) (mem : p ∈ l) (place : m.key p ∈ registered.map PartEntry.key) :
      (m.parts p).available = true := by
    by_contra off
    have none' := loading.marked p mem
    rw [if_neg off] at none'
    obtain ⟨part, mem', same⟩ := List.mem_map.mp place
    have some' : part ∈ registered.filter fun part => part.key = m.key p :=
      List.mem_filter.mpr ⟨mem', by simpa using same⟩
    rw [lastBootable, Option.map_eq_none_iff, List.getLast?_eq_none_iff] at none'
    rw [none'] at some'
    cases some'
  refine ⟨same.registered.trans loading.log, ⟨walk', ?_, ?_, count'⟩, ?_, ?_, ?_, ?_⟩
  · intro p mem
    obtain ⟨mem, available⟩ := (kept p).mp mem
    rw [same.live p available]
    exact loading.parts.live p mem
  · rw [same.key]
    exact loading.parts.distinct.sublist (List.filter_sublist.map _)
  · intro key
    rw [same.key]
    constructor
    · intro there
      obtain ⟨p, mem, rfl⟩ := List.mem_map.mp there
      obtain ⟨mem, available⟩ := (kept p).mp mem
      exact mem_of_lastBootable (last p mem available)
    · intro there
      obtain ⟨part, mem, rfl⟩ := List.mem_map.mp there
      obtain ⟨p, mem', place⟩ := loading.all part mem
      exact List.mem_map.mpr ⟨p, (kept p).mpr ⟨mem', listed p mem' (place ▸ there)⟩, place⟩
  · intro p mem
    rw [same.available]
    exact ((kept p).mp mem).2
  · intro p mem
    obtain ⟨mem, available⟩ := (kept p).mp mem
    rw [same.key, same.bootable]
    exact last p mem available
  · intro p mem place
    obtain ⟨mem', same'⟩ := loading.old p mem
    rw [same.key]
    exact ⟨(kept p).mpr ⟨mem', listed p mem' (same' ▸ place)⟩, same'⟩

/-- The flag of the disk itself. -/
theorem Disks.Parts.setAvailable (parts : m.Parts disk l) (available : Bool) :
    (m.setDisk disk { m.disks disk with available := available }).Parts disk l := by
  refine ⟨?_, parts.live, parts.distinct, ?_⟩
  · have head : ((m.setDisk disk { m.disks disk with available := available }).disks disk).parts =
        (m.disks disk).parts := by
      simp [Disks.setDisk]
    rw [head]
    exact parts.walk
  · simpa [Disks.setDisk] using parts.count

/-- A scan that succeeds leaves what the loader registered, and one that fails the list as it was
    with nothing available. -/
theorem diskPartScan_parts {coreGpt scanned : Bool} {info : Option Disk} (parts : m.Parts disk l)
    (fresh : m.Fresh) (run : diskPartScan coreGpt fuel info m disk = some (scanned, m')) :
    (scanned = true → ∃ l' registered, Rescanned m m' disk l l' registered) ∧
      (scanned = false → Unscanned m m' disk l) := by
  obtain ⟨m₂, blocked, run⟩ := Option.bind_eq_some_iff.mp run
  generalize step : m.setDisk disk { m.disks disk with available := false } = m₁ at blocked
  have parts₁ : m₁.Parts disk l := step ▸ parts.setAvailable false
  have fresh₁ : m₁.Fresh := by
    rw [← step]
    exact ⟨fresh.fresh, fresh.once⟩
  have key₁ : m₁.key = m.key := by rw [← step]; rfl
  have log₁ : m₁.registered = m.registered := by rw [← step]; rfl
  have count₁ : (m₁.disks disk).partCount = (m.disks disk).partCount := by
    simp [← step, Disks.setDisk]
  obtain rfl := diskPartBlockLoop_eq parts₁.walk blocked
  have start' := Loading.init parts₁ fresh₁
  have failed : Unscanned m (m₁.blocked l) disk l := by
    refine ⟨start'.parts, fun p mem => ?_, count₁, fun p mem => ?_⟩
    · rw [Disks.key_blocked, key₁]
    · simp [Disks.blocked, mem]
  cases info with
  | none =>
      cases run
      exact ⟨fun yes => Bool.noConfusion yes, fun _ => failed⟩
  | some dev =>
      obtain ⟨⟨loaded, m₃⟩, load, run⟩ := Option.bind_eq_some_iff.mp run
      obtain ⟨step', same⟩ := partLoad_step load
      cases loaded with
      | false =>
          obtain rfl := same rfl
          cases run
          exact ⟨fun yes => Bool.noConfusion yes, fun _ => failed⟩
      | true =>
          obtain ⟨m₄, clear, run⟩ := Option.bind_eq_some_iff.mp run
          cases run
          obtain ⟨l', registered, loading⟩ := step'.next _ _ _ _ start'
          obtain ⟨log, parts', all, available, bootable, kept⟩ := loading.clear clear
          refine ⟨fun _ => ⟨_, registered, ⟨?_, parts'.setAvailable true, all, available, bootable, ?_⟩⟩,
            fun no => Bool.noConfusion no⟩
          · rw [← log₁]
            exact log
          · rw [← key₁]
            exact kept

end

/-! ### A disk with an MBR -/

/-- One sector with the partition of 16 sectors from sector 8 on. -/
def mbrDisk : Disk where
  sectorSize := 512
  data x :=
    if x = 510 then 0x55 else if x = 511 then 0xAA
    else if x = 447 then 1 else if x = 451 then 1 else if x = 454 then 8 else if x = 458 then 16 else 0
  answers _ _ := true
  stack _ := 0

/-- The disk had the partitions of 4 and of 16 sectors before. -/
def twoParts : Disks where
  disks _ := ⟨true, some 10, 2, none⟩
  parts p := if p = 10 then ⟨2, 4, false, true, 1, some 11⟩ else ⟨8, 16, false, true, 1, none⟩
  first := some 1
  live p := p == 10 || p == 11
  allocs := [some 12]
  registered := []

theorem diskPartScan_parts_mbr : ∃ m', diskPartScan true 4 (some mbrDisk) twoParts 1 = some (true, m') ∧
    ∃ l' registered, Rescanned twoParts m' 1 [10, 11] l' registered := by
  have parts : twoParts.Parts 1 [10, 11] := ⟨.visit (.visit .stop), by decide, by decide, by decide⟩
  have fresh : twoParts.Fresh := by
    refine ⟨fun p mem => ?_, by decide⟩
    obtain rfl : p = 12 := by simpa [twoParts] using mem
    rfl
  have ran : (diskPartScan true 4 (some mbrDisk) twoParts 1).map Prod.fst = some true := by
    decide +kernel
  obtain ⟨⟨scanned, m'⟩, run, rfl⟩ := Option.map_eq_some_iff.mp ran
  exact ⟨m', run, (diskPartScan_parts parts fresh run).1 rfl⟩

end Sdx.Core
