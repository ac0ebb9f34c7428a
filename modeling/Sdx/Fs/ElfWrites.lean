import Mathlib.Algebra.Order.Floor.Div
import Sdx.Fs.ElfFits
import Sdx.Lib.Trace

/-! # The bytes that loading a file writes (`fs/fmt/elf.c`)

The loader again, with the region that is made for each program header and with each byte that is
written to it. How many bytes the file gives is not compared with the size of the region, so that more
of them go to the pages behind it, up to the first one that is not mapped.
-/

namespace Sdx.Fs

open Sdx.Lib Sdx.Lib.Trace Sdx.Mm

/-- A region is made for a program header, or a byte is written while its segment is loaded. -/
inductive ElfEvent where
  | region (mem : Region) (ph : ElfProgramHeader)
  | write (mem : Region) (vaddr : Nat)

/-- `Space.store`, with what it writes. -/
def storeTraced (mem : Region) (s : Space) (vaddr : Nat) : List UInt8 → Traced ElfEvent (Option Space)
  | [] => pure (some s)
  | byte :: bytes =>
      match s.page (vaddr / pageSize) with
      | none => pure none
      | some frame => do
          Traced.request (.write mem vaddr) ()
          storeTraced mem { s with
            data := Function.update s.data (frame * pageSize + vaddr % pageSize) byte } (vaddr + 1) bytes

/-- `elfFillSegment`, with what it writes. -/
def elfFillSegmentTraced (file : FsFile) (mem : Region) (s : Space) (pos : Nat)
    (ph : ElfProgramHeader) : Traced ElfEvent (Except ElfExit Space) :=
  let (err, bytes) := if ph.filesz ≠ 0 then vfsRead file ph.offset ph.filesz else (0, [])
  if err < 0 then pure (.error .notRead)
  else do
    match ← storeTraced mem s pos bytes with
    | none => pure (.error .fault)
    | some s =>
        match ← storeTraced mem s (pos + ph.filesz) (List.replicate (ph.memsz - ph.filesz) 0) with
        | none => pure (.error .fault)
        | some s => pure (.ok s)

/-- `elfLoadSegment`, with what it makes and writes. -/
def elfLoadSegmentTraced (env : SpaceEnv) (file : FsFile) (header : ElfHeader) (st : ElfLoad)
    (ph : ElfProgramHeader) : Traced ElfEvent (Except (ElfExit × ElfLoad) ElfLoad) :=
  let size := vmmAlign ph.memsz
  match regionNew env st.space (elfRegionType ph) true st.pos (vmmCalc size) with
  | (none, space) => pure (.error (.noRegion, { st with space := space }))
  | (some mem, space) => do
      Traced.request (.region mem ph) ()
      match regionMap env space mem with
      | none => pure (.error (.endless, { st with space := space }))
      | some (err, mem, space) =>
          if err ≠ 0 then pure (.error (.notMapped err, { st with space := space }))
          else do
            let pos := if st.pos = 0 then mem.vaddr else st.pos
            let st : ElfLoad := ⟨st.entry, st.mem ++ [mem], pos, space⟩
            match ← elfFillSegmentTraced file mem space pos ph with
            | .error exit => pure (.error (exit, st))
            | .ok space =>
                let entry := if ph.vaddr < header.entry ∧ wrap64 (ph.vaddr + ph.memsz) > header.entry
                  then wrap64 (pos + header.entry) else st.entry
                pure (.ok ⟨entry, st.mem, wrap64 (pos + size), space⟩)

/-- `elfLoadDynLoop`, with what it makes and writes. -/
def elfLoadDynLoopTraced (env : SpaceEnv) (file : FsFile) (header : ElfHeader) :
    Nat → Nat → Bytes.Memory → ElfLoad → Traced ElfEvent (Except (ElfExit × ElfLoad) (Int × ElfLoad))
  | 0, _, _, st => pure (.ok (0, st))
  | fuel + 1, phPos, m, st =>
      let (err, m, phPos) := elfPhNext file header phPos m
      if err > 0 then
        let ph := elfProgramHeader m
        if ph.type ≠ elfPhTypeLoad ∨ ph.memsz = 0 then
          elfLoadDynLoopTraced env file header fuel phPos m st
        else do
          match ← elfLoadSegmentTraced env file header st ph with
          | .error e => pure (.error e)
          | .ok st => elfLoadDynLoopTraced env file header fuel phPos m st
      else pure (.ok (err, st))

/-- `elfLoadDyn`, with what it makes and writes. -/
def elfLoadDynTraced (env : SpaceEnv) (file : FsFile) (header : ElfHeader) (m : Bytes.Memory)
    (st : ElfLoad) : Traced ElfEvent (ElfExit × ElfLoad) := do
  match ← elfLoadDynLoopTraced env file header (header.phnum + 1) 0 m st with
  | .error (exit, st) => pure (exit, st)
  | .ok (err, st) =>
      if err < 0 then pure (.ret err, st)
      else if st.entry = 0 then pure (.ret (-eNOEXEC), st)
      else pure (.ret 0, st)

/-- `elfLoad`, with what it makes and writes. -/
def elfLoadTraced (env : SpaceEnv) (file : FsFile) (m : Bytes.Memory) (fmt : Fmt) (s : Space) :
    Traced ElfEvent (ElfExit × Fmt × Space) :=
  let (err, header) := elfReadHeader file
  if err < 0 then pure (.ret err, fmt, s)
  else if (elfCheck header).isSome then pure (.ret (-eNOEXEC), fmt, s)
  else if header.type ≠ elfTypeDyn then pure (.ret (-eNOEXEC), fmt, s)
  else do
    let (exit, st) ← elfLoadDynTraced env file header m ⟨0, [], 0, s⟩
    pure (exit, ⟨st.entry, st.mem⟩, st.space)

section

variable {env : SpaceEnv} {file : FsFile} {header : ElfHeader} {ph : ElfProgramHeader}
  {phs : List ElfProgramHeader} {s s' s₀ : Space} {mem : Region} {page at_page vaddr pos : Nat}
  {st st' : ElfLoad} {bytes : List UInt8} {e : ElfEvent}

/-! ## The same loader -/

@[simp] theorem storeTraced_value : (storeTraced mem s vaddr bytes).value = s.store vaddr bytes := by
  induction bytes generalizing s vaddr with
  | nil => rfl
  | cons byte bytes ih =>
      rw [storeTraced, Space.store]
      cases s.page (vaddr / pageSize) with
      | none => rfl
      | some frame => exact ih

@[simp] theorem elfFillSegmentTraced_value :
    (elfFillSegmentTraced file mem s pos ph).value = elfFillSegment file s pos ph := by
  unfold elfFillSegmentTraced elfFillSegment
  generalize (if ph.filesz ≠ 0 then vfsRead file ph.offset ph.filesz else (0, [])) = read
  obtain ⟨err, bytes⟩ := read
  simp only
  split
  · rfl
  · rw [Traced.value_bind, storeTraced_value]
    cases s.store pos bytes with
    | none => rfl
    | some s =>
        simp only [Traced.value_bind, storeTraced_value]
        cases s.store (pos + ph.filesz) (List.replicate (ph.memsz - ph.filesz) 0) with
        | none => rfl
        | some s => rfl

@[simp] theorem elfLoadSegmentTraced_value :
    (elfLoadSegmentTraced env file header st ph).value = elfLoadSegment env file header st ph := by
  unfold elfLoadSegmentTraced elfLoadSegment
  simp only
  cases regionNew env st.space (elfRegionType ph) true st.pos (vmmCalc (vmmAlign ph.memsz)) with
  | mk new space =>
      cases new with
      | none => rfl
      | some mem =>
          simp only [Traced.value_bind]
          cases regionMap env space mem with
          | none => rfl
          | some mapped =>
              obtain ⟨err, mem, space⟩ := mapped
              simp only
              split
              · rfl
              · rw [Traced.value_bind, elfFillSegmentTraced_value]
                cases elfFillSegment file space (if st.pos = 0 then mem.vaddr else st.pos) ph with
                | error exit => rfl
                | ok space => rfl

theorem elfLoadDynLoopTraced_value {fuel phPos : Nat} {m : Bytes.Memory} :
    (elfLoadDynLoopTraced env file header fuel phPos m st).value =
      elfLoadDynLoop env file header fuel phPos m st := by
  induction fuel generalizing phPos m st with
  | zero => rfl
  | succ fuel ih =>
      rw [elfLoadDynLoopTraced, elfLoadDynLoop]
      rcases elfPhNext file header phPos m with ⟨err, m, phPos⟩
      simp only
      split
      · split
        · exact ih
        · rw [Traced.value_bind, elfLoadSegmentTraced_value]
          cases elfLoadSegment env file header st (elfProgramHeader m) with
          | error e => rfl
          | ok st => exact ih
      · rfl

theorem elfLoadTraced_value {m : Bytes.Memory} {fmt : Fmt} :
    (elfLoadTraced env file m fmt s).value = elfLoad env file m fmt s := by
  unfold elfLoadTraced elfLoad
  simp only
  split
  · rfl
  · split
    · rfl
    · split
      · rfl
      · rw [Traced.value_bind, elfLoadDynTraced, Traced.value_bind, elfLoadDynLoopTraced_value,
          elfLoadDyn]
        cases elfLoadDynLoop env file (elfReadHeader file).2 ((elfReadHeader file).2.phnum + 1) 0 m
          ⟨0, [], 0, s⟩ with
        | error e => rfl
        | ok st =>
            simp only
            split
            · rfl
            · split <;> rfl

/-! ## What a segment writes -/

/-- The bytes that are written are those up to the first page that is not mapped. -/
theorem mem_storeTraced : e ∈ (storeTraced mem s vaddr bytes).requests ↔ ∃ i, i < bytes.length ∧
    e = .write mem (vaddr + i) ∧ ∀ j, j ≤ i → (s.page ((vaddr + j) / pageSize)).isSome := by
  induction bytes generalizing s vaddr with
  | nil => simp [storeTraced]
  | cons byte bytes ih =>
      rw [storeTraced]
      cases here : s.page (vaddr / pageSize) with
      | none =>
          simp only [Traced.requests_pure, List.not_mem_nil, false_iff, not_exists, not_and]
          intro i _ _ mapped
          have first := mapped 0 (Nat.zero_le i)
          rw [Nat.add_zero, here] at first
          cases first
      | some frame =>
          rw [Traced.requests_bind, Traced.requests_request, List.singleton_append, List.mem_cons, ih]
          constructor
          · rintro (rfl | ⟨i, lt, rfl, mapped⟩)
            · refine ⟨0, Nat.succ_pos _, rfl, fun j le => ?_⟩
              rw [Nat.le_zero.mp le, Nat.add_zero, here]
              rfl
            · refine ⟨i + 1, Nat.succ_lt_succ lt, by rw [Nat.add_assoc, Nat.add_comm 1], fun j le => ?_⟩
              cases j with
              | zero =>
                  rw [Nat.add_zero, here]
                  rfl
              | succ j =>
                  rw [Nat.add_comm j, ← Nat.add_assoc]
                  exact mapped j (Nat.le_of_succ_le_succ le)
          · rintro ⟨i, lt, rfl, mapped⟩
            cases i with
            | zero => exact .inl rfl
            | succ i =>
                refine .inr ⟨i, Nat.lt_of_succ_lt_succ lt, by rw [Nat.add_assoc, Nat.add_comm 1], ?_⟩
                intro j le
                have next := mapped (j + 1) (Nat.succ_le_succ le)
                rwa [Nat.add_comm j, ← Nat.add_assoc] at next

/-- The contents are written, and the zeros behind them if none of those faulted. -/
theorem elfFillSegmentTraced_requests (readable : Readable file ph) :
    (elfFillSegmentTraced file mem s pos ph).requests =
      (storeTraced mem s pos (elfContents file ph)).requests ++
        match s.store pos (elfContents file ph) with
        | none => []
        | some s' => (storeTraced mem s' (pos + ph.filesz) (elfZeros ph)).requests := by
  rw [elfFillSegmentTraced, elfRead_eq readable]
  simp only
  rw [if_neg (Int.not_lt.mpr (Int.natCast_nonneg _)), Traced.requests_bind, storeTraced_value]
  cases s.store pos (elfContents file ph) with
  | none => rfl
  | some s' =>
      rw [Traced.requests_bind, storeTraced_value, elfZeros]
      cases s'.store (pos + ph.filesz) (List.replicate (ph.memsz - ph.filesz) 0) <;> simp

/-- What the loader makes and writes for a segment that goes to the page `at_page`, or anywhere. -/
inductive SegmentEvents (env : SpaceEnv) (file : FsFile) (st : ElfLoad) (at_page : Nat)
    (ph : ElfProgramHeader) : List ElfEvent → Prop
  | noRegion : env.heapAlloc st.space.regions = false → SegmentEvents env file st at_page ph []
  | notMapped (mem : Region) : mem.num = elfPages ph →
      (∀ page, st.space.place at_page (elfPages ph) = some page → page ≠ 0 →
        env.pmmAlloc st.space.used (elfPages ph) = none) →
      SegmentEvents env file st at_page ph [.region mem ph]
  | mapped (mem : Region) (page frame : Nat) : mem.num = elfPages ph →
      st.space.place at_page (elfPages ph) = some page → page ≠ 0 →
      env.pmmAlloc st.space.used (elfPages ph) = some frame →
      SegmentEvents env file st at_page ph (.region mem ph :: (elfFillSegmentTraced file
        (elfRegion ph page frame) (elfMapped st ph page frame).space (page * pageSize) ph).requests)

theorem elfLoadSegmentTraced_events (at_pos : st.pos = at_page * pageSize) :
    SegmentEvents env file st at_page ph (elfLoadSegmentTraced env file header st ph).requests := by
  by_cases heap : env.heapAlloc st.space.regions = true
  · have same : (grown st.space).place at_page (elfPages ph) = st.space.place at_page (elfPages ph) :=
      Space.place_congr rfl
    have made : regionNew env st.space (elfRegionType ph) true st.pos (vmmCalc (vmmAlign ph.memsz)) =
        (some ⟨elfRegionType ph, true, at_page * pageSize, 0, elfPages ph⟩, grown st.space) := by
      rw [regionNew, if_pos heap, at_pos]
      rfl
    simp only [elfLoadSegmentTraced, made, Traced.requests_bind, Traced.requests_request,
      List.singleton_append]
    rcases @regionMap_cases env (grown st.space) (elfRegionType ph) at_page (elfPages ph) elfPages_pos
      with ⟨nowhere, mapped⟩ | ⟨page, mem, found, failed, mapped⟩ |
        ⟨page, frame, found, not_null, got, mapped⟩
    · rw [mapped]
      refine .notMapped _ rfl fun page found => ?_
      rw [same] at nowhere
      exact absurd (found.symm.trans nowhere) (Option.some_ne_none page)
    · rw [mapped]
      simp only [ne_eq, (by decide : ¬ -eFAULT = 0), not_false_eq_true, if_true]
      refine .notMapped _ rfl fun page' found' not_null => ?_
      rw [same] at found
      cases found.symm.trans found'
      exact failed.resolve_left not_null
    · have start := elfPos_eq at_pos found not_null
      rw [mapped]
      simp only [ne_eq, not_true_eq_false, if_false, start, Traced.requests_bind]
      have ends (result : Except ElfExit Space) (f : ElfExit → Except (ElfExit × ElfLoad) ElfLoad)
          (g : Space → Except (ElfExit × ElfLoad) ElfLoad) : Traced.requests (match result with
            | .error exit => (pure (f exit) : Traced ElfEvent (Except (ElfExit × ElfLoad) ElfLoad))
            | .ok space => pure (g space)) = [] := by
        cases result <;> rfl
      rw [ends, List.append_nil]
      exact .mapped _ page frame rfl (same ▸ found) not_null got
  · simp only [elfLoadSegmentTraced, regionNew, heap]
    exact .noRegion (Bool.not_eq_true _ ▸ heap)

/-! ## Inside the region -/

/-- A region has pages for the whole segment, and a byte is written on the pages of its region. -/
def ElfEvent.Inside : ElfEvent → Prop
  | .region mem ph => ph.memsz ⌈/⌉ pageSize ≤ mem.num
  | .write mem vaddr => mem.vaddr ≤ vaddr ∧ vaddr < mem.vaddr + mem.num * pageSize

/-- The segments that are reached have no more bytes in the file than room on their pages, or fault at
    the first byte behind them. -/
def StaysInside (file : FsFile) (s : Space) : Nat → List ElfProgramHeader → Prop
  | _, [] => True
  | at_page, ph :: phs => ∀ page, s.place at_page (elfPages ph) = some page → page ≠ 0 →
      Readable file ph →
        ((elfContents file ph).length ≤ elfPages ph * pageSize ∨ s.page (page + elfPages ph) = none) ∧
          (NoFault file s page ph → StaysInside file s (page + elfPages ph) phs)

/-- Contents that do not fit are written behind the region if a page is mapped there. -/
theorem elfFillSegmentTraced_outside {frame : Nat} (readable : Readable file ph)
    (mapped : ∀ i, i < elfPages ph → (s.page (page + i)).isSome)
    (long : elfPages ph * pageSize < (elfContents file ph).length)
    (behind : s.page (page + elfPages ph) ≠ none) : ∃ e : ElfEvent, ¬ e.Inside ∧
      e ∈ (elfFillSegmentTraced file (elfRegion ph page frame) s (page * pageSize) ph).requests := by
  refine ⟨.write (elfRegion ph page frame) (page * pageSize + elfPages ph * pageSize), ?_, ?_⟩
  · exact fun inside => Nat.lt_irrefl _ inside.2
  · rw [elfFillSegmentTraced_requests readable, List.mem_append, mem_storeTraced]
    refine .inl ⟨elfPages ph * pageSize, long, rfl, fun j le => ?_⟩
    rw [page_of_offset]
    by_cases inside : j / pageSize < elfPages ph
    · exact mapped _ inside
    · have last : j / pageSize ≤ elfPages ph := Nat.div_le_of_le_mul (Nat.mul_comm .. ▸ le)
      rw [Nat.le_antisymm last (Nat.not_lt.mp inside)]
      exact Option.isSome_iff_ne_none.mpr behind

/-! ## All segments -/

/-- `elfRun`, with what it makes and writes. -/
def elfRunTraced (env : SpaceEnv) (file : FsFile) (header : ElfHeader) :
    List ElfProgramHeader → ElfLoad → Traced ElfEvent (Except (ElfExit × ElfLoad) ElfLoad)
  | [], st => pure (.ok st)
  | ph :: phs, st => do
      match ← elfLoadSegmentTraced env file header st ph with
      | .error e => pure (.error e)
      | .ok st => elfRunTraced env file header phs st

/-- The events of the loop are those of the segments. -/
theorem elfLoadDynLoopTraced_requests {fuel phPos : Nat} {m : Bytes.Memory} :
    (elfLoadDynLoopTraced env file header fuel phPos m st).requests =
      (elfRunTraced env file header (elfSegments file header fuel phPos m).1 st).requests := by
  induction fuel generalizing phPos m st with
  | zero => rfl
  | succ fuel ih =>
      rw [elfLoadDynLoopTraced, elfSegments]
      rcases elfPhNext file header phPos m with ⟨err, m, phPos⟩
      simp only
      by_cases more : err > 0
      · rw [if_pos more, if_pos more]
        by_cases skip : (elfProgramHeader m).type ≠ elfPhTypeLoad ∨ (elfProgramHeader m).memsz = 0
        · rw [if_pos skip, if_pos skip, ih]
        · rw [if_neg skip, if_neg skip, elfRunTraced, Traced.requests_bind, Traced.requests_bind,
            elfLoadSegmentTraced_value]
          congr 1
          cases elfLoadSegment env file header st (elfProgramHeader m) with
          | error e => rfl
          | ok st => exact ih
      · rw [if_neg more, if_neg more]
        rfl

theorem elfRunTraced_cons : (elfRunTraced env file header (ph :: phs) st).requests =
    (elfLoadSegmentTraced env file header st ph).requests ++
      match elfLoadSegment env file header st ph with
      | .error _ => []
      | .ok st' => (elfRunTraced env file header phs st').requests := by
  rw [elfRunTraced, Traced.requests_bind, elfLoadSegmentTraced_value]
  cases elfLoadSegment env file header st ph <;> rfl

theorem stays_page (begun : Begun s₀ at_page st)
    (found : st.space.place at_page (elfPages ph) = some page) (not_null : page ≠ 0) (frame : Nat) :
    (elfMapped st ph page frame).space.page (page + elfPages ph) = s₀.page (page + elfPages ph) := by
  obtain ⟨start, -, image⟩ := begun.image found not_null
  exact (overlay_outside (.inr (Nat.le_refl _))).trans
    (image.page_outside (.inr (Nat.le_add_right page _)))

/-- A segment that has its place and gets its pages is filled. -/
theorem elfLoadSegmentTraced_maps {frame : Nat} (at_pos : st.pos = at_page * pageSize)
    (heap : env.heapAlloc st.space.regions = true)
    (found : st.space.place at_page (elfPages ph) = some page) (not_null : page ≠ 0)
    (got : env.pmmAlloc st.space.used (elfPages ph) = some frame) :
    (elfFillSegmentTraced file (elfRegion ph page frame) (elfMapped st ph page frame).space
      (page * pageSize) ph).requests ⊆ (elfLoadSegmentTraced env file header st ph).requests := by
  have events := @elfLoadSegmentTraced_events env file header ph at_page st at_pos
  generalize (elfLoadSegmentTraced env file header st ph).requests = requests at events
  cases events with
  | noRegion none => exact absurd heap (Bool.eq_false_iff.mp none)
  | notMapped mem num none =>
      rw [none page found not_null] at got
      cases got
  | mapped mem page' frame' num found' not_null' got' =>
      cases found.symm.trans found'
      cases got.symm.trans got'
      exact List.subset_cons_self _ _

/-- Where memory does not run out, a load that stays inside has segments that do. -/
theorem elfRunTraced_stays (plenty : Plentiful env) (bounded : Bounded s₀)
    (begun : Begun s₀ at_page st) (small : ∀ ph ∈ phs, ph.memsz < 2 ^ 64)
    (inside : ∀ e ∈ (elfRunTraced env file header phs st).requests, e.Inside) :
    StaysInside file s₀ at_page phs := by
  induction phs generalizing at_page st with
  | nil => trivial
  | cons ph phs ih =>
      intro page at_place not_null readable
      have found := begun.place.trans at_place
      obtain ⟨frame, got, mapped⟩ := @elfLoadSegment_maps env file header ph s₀ page at_page st
        plenty bounded begun found not_null
      rw [elfRunTraced_cons] at inside
      constructor
      · by_contra leaves
        obtain ⟨long, behind⟩ := not_or.mp leaves
        rw [← stays_page begun found not_null frame] at behind
        obtain ⟨e, outside, written⟩ := @elfFillSegmentTraced_outside file ph _ page frame readable
          (fun i lt => Option.isSome_of_eq_some (overlay_inside (Nat.le_add_right page i) (by omega)))
          (Nat.not_le.mp long) behind
        have made := @elfLoadSegmentTraced_maps env file header ph page at_page st frame begun.1
          (plenty.heap _) found not_null got e written
        exact outside (inside e (List.mem_append_left _ made))
      · intro noFault
        obtain ⟨space, filled⟩ :=
          begun.fills found not_null readable (small ph List.mem_cons_self) noFault frame
        rw [filled] at mapped
        rw [mapped] at inside
        exact ih (begun.next found not_null got (elfFillSegment_same filled))
          (fun ph at_ph => small ph (List.mem_cons_of_mem _ at_ph))
          fun e later => inside e (List.mem_append_right _ later)

/-- Every region has pages for its whole segment, and every byte is written to the region of the
    segment that is loaded. -/
def WritesInside (env : SpaceEnv) (file : FsFile) (m : Bytes.Memory) (s : Space) : Prop :=
  ∀ e ∈ (elfLoadTraced env file m ⟨0, []⟩ s).requests, e.Inside

theorem elfLoadTraced_passed {m : Bytes.Memory} {fmt : Fmt} (passes : HeaderPasses file) :
    (elfLoadTraced env file m fmt s).requests = (elfRunTraced env file (elfReadHeader file).2
      (elfFileSegments file m).1 ⟨0, [], 0, s⟩).requests := by
  obtain ⟨read, check, dyn⟩ := passes
  have ends : (elfLoadDynTraced env file (elfReadHeader file).2 m ⟨0, [], 0, s⟩).requests =
      (elfRunTraced env file (elfReadHeader file).2 (elfFileSegments file m).1
        ⟨0, [], 0, s⟩).requests := by
    rw [elfLoadDynTraced, Traced.requests_bind, elfLoadDynLoopTraced_requests, elfFileSegments]
    cases (elfLoadDynLoopTraced env file (elfReadHeader file).2 ((elfReadHeader file).2.phnum + 1) 0 m
      ⟨0, [], 0, s⟩).value with
    | error e => simp
    | ok st =>
        simp only
        split
        · simp
        · split <;> simp
  unfold elfLoadTraced
  simp only [Int.not_lt.mpr read, check, dyn, if_false, Option.isSome_none, Bool.false_eq_true, ne_eq,
    not_true_eq_false, Traced.requests_bind, Traced.requests_pure, List.append_nil, ends]

theorem WritesInside.stays {m : Bytes.Memory} (plenty : Plentiful env) (bounded : Bounded s)
    (passes : HeaderPasses file) (inside : WritesInside env file m s) :
    StaysInside file s 0 (elfFileSegments file m).1 := by
  rw [WritesInside, elfLoadTraced_passed passes] at inside
  exact elfRunTraced_stays plenty bounded begun_empty (fun ph => elfSegments_small) inside

end

/-! ### A segment of one byte with two pages of contents -/

end Sdx.Fs
