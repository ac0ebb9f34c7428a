import Sdx.Fs.ElfFits

/-! # The bytes of an image

A load that succeeds has put the bytes of each segment at the address its region starts at and
zeros behind them. What lies in the pages of the image between the segments is what was in the
frames before.
-/

namespace Sdx.Fs

open Sdx.Lib Sdx.Mm

/-- The byte a segment has at an offset: one of the file, or a zero. -/
def segmentByte (file : FsFile) (ph : ElfProgramHeader) (i : Nat) : UInt8 :=
  if i < ph.filesz then file.bytes.getD (ph.offset + i) 0 else 0

/-- The segment has no more bytes in the file than in memory, and the file has all of them. -/
def WholeSegment (file : FsFile) (ph : ElfProgramHeader) : Prop :=
  ph.filesz ≤ ph.memsz ∧ ph.offset + ph.filesz ≤ file.bytes.length

instance (file : FsFile) (ph : ElfProgramHeader) : Decidable (WholeSegment file ph) :=
  inferInstanceAs (Decidable (_ ∧ _))

section

variable {env : SpaceEnv} {file : FsFile} {header : ElfHeader} {ph : ElfProgramHeader}
  {phs : List ElfProgramHeader} {s s' s₀ : Space} {page at_page pos : Nat} {st st' : ElfLoad}

theorem elfContents_length (whole : WholeSegment file ph) :
    (elfContents file ph).length = ph.filesz := by
  obtain ⟨-, inside⟩ := whole
  unfold elfContents
  split
  · rw [List.length_take, List.length_drop]
    omega
  · next none => exact (not_not.mp none).symm

theorem elfContents_get {i : Nat} (whole : WholeSegment file ph) (lt : i < ph.filesz) :
    (elfContents file ph)[i]? = some (segmentByte file ph i) := by
  obtain ⟨-, inside⟩ := whole
  have some_byte : ph.filesz ≠ 0 := by omega
  rw [elfContents, if_pos some_byte, segmentByte, if_pos lt, List.getElem?_take_of_lt lt,
    List.getElem?_drop, List.getD_eq_getElem?_getD, List.getElem?_eq_getElem (by omega),
    Option.getD_some]

/-- What is in memory after a segment was filled. -/
theorem elfFillSegment_load {a : Nat} (filled : elfFillSegment file s pos ph = .ok s')
    (whole : WholeSegment file ph)
    (own : ∀ i, i < ph.memsz → s.physical (pos + i) = s.physical a → pos + i = a) :
    s'.load a = if pos ≤ a ∧ a < pos + ph.memsz then some (segmentByte file ph (a - pos))
      else s.load a := by
  obtain ⟨-, between, first, second⟩ := elfFillSegment_ok filled
  have length := elfContents_length whole
  have zeros : (elfZeros ph).length = ph.memsz - ph.filesz := List.length_replicate
  have le := whole.1
  have same := Space.store_same first
  have from_file := Space.store_load first fun i lt => own i (by omega)
  have from_zeros := Space.store_load second fun i lt shared => by
    rw [same.physical, same.physical, Nat.add_assoc] at shared
    rw [Nat.add_assoc]
    exact own (ph.filesz + i) (by omega) shared
  rw [from_zeros, from_file, zeros, length]
  by_cases inside : pos ≤ a ∧ a < pos + ph.memsz
  · rw [if_pos inside]
    by_cases behind : pos + ph.filesz ≤ a
    · rw [if_pos (by omega), segmentByte, if_neg (by omega), elfZeros, List.getElem?_replicate,
        if_pos (by omega)]
    · rw [if_neg (by omega), if_pos (by omega), elfContents_get whole (by omega)]
  · rw [if_neg inside, if_neg (by omega), if_neg (by omega)]

theorem elfFillSegment_data {x : Nat} (filled : elfFillSegment file s pos ph = .ok s')
    (whole : WholeSegment file ph) (off : ∀ i, i < ph.memsz → s.physical (pos + i) ≠ some x) :
    s'.data x = s.data x := by
  obtain ⟨-, between, first, second⟩ := elfFillSegment_ok filled
  have length := elfContents_length whole
  have zeros : (elfZeros ph).length = ph.memsz - ph.filesz := List.length_replicate
  have le := whole.1
  have from_zeros := Space.store_data second (x := x) fun i lt => by
    rw [(Space.store_same first).physical, Nat.add_assoc]
    exact off (ph.filesz + i) (by omega)
  exact from_zeros.trans (Space.store_data first fun i lt => off i (by omega))

/-- The image of the segments in `layout`: their bytes are in memory, the rest of the image is as
    its frames were before, and so are all other frames. -/
structure Contents (file : FsFile) (s₀ : Space) (start stop : Nat)
    (layout : List (Nat × ElfProgramHeader)) (regions : List Region) (s : Space) : Prop where
  image : Image s₀ start stop regions s
  inside : ∀ p ∈ layout, start ≤ p.1 ∧ p.1 + elfPages p.2 ≤ stop ∧
    p.2.memsz ≤ elfPages p.2 * pageSize
  bytes : ∀ p ∈ layout, ∀ i, i < p.2.memsz →
    s.load (p.1 * pageSize + i) = some (segmentByte file p.2 i)
  rest : ∀ a, start ≤ a / pageSize → a / pageSize < stop →
    (∀ p ∈ layout, a < p.1 * pageSize ∨ p.1 * pageSize + p.2.memsz ≤ a) →
    ∃ x, s.load a = some (s₀.data x)
  clean : ∀ x, (∀ mem ∈ regions, ¬ Holds mem (x / pageSize)) → s.data x = s₀.data x

theorem contents_nil : Contents file s₀ page page [] [] s₀ where
  image := .empty
  inside := nofun
  bytes := nofun
  rest := fun a low high => by omega
  clean := fun _ _ => rfl

/-- One more segment. -/
theorem Contents.step {start frame : Nat} {layout : List (Nat × ElfProgramHeader)}
    (contents : Contents file s₀ start page layout st.mem st.space)
    (got : env.pmmAlloc st.space.used (elfPages ph) = some frame)
    (filled : elfFillSegment file (elfMapped st ph page frame).space (page * pageSize) ph = .ok s')
    (whole : WholeSegment file ph) (size : ph.memsz ≤ elfPages ph * pageSize) :
    Contents file s₀ start (page + elfPages ph) (layout ++ [(page, ph)])
      (st.mem ++ [elfRegion ph page frame]) s' := by
  have some_pages : 0 < elfPages ph := elfPages_pos
  have le := contents.image.le
  obtain ⟨frame_pos, fresh⟩ := env.pmmAlloc_free _ _ _ got
  have same := elfFillSegment_same filled
  have grown_image : Image s₀ start (page + elfPages ph) (st.mem ++ [elfRegion ph page frame])
      (elfMapped st ph page frame).space :=
    .region _ _ _ contents.image some_pages frame_pos fresh ⟨rfl, rfl, rfl, rfl⟩
  have image : Image s₀ start (page + elfPages ph) (st.mem ++ [elfRegion ph page frame]) s' :=
    .region _ _ _ contents.image some_pages frame_pos fresh same
  have in_range {i : Nat} (lt : i < ph.memsz) : page ≤ (page * pageSize + i) / pageSize ∧
      (page * pageSize + i) / pageSize < page + elfPages ph := by
    unfold pageSize at *
    omega
  -- within the image each address has a byte of its own
  have load {a : Nat} (low : start ≤ a / pageSize) (high : a / pageSize < page + elfPages ph) :
      s'.load a = if page * pageSize ≤ a ∧ a < page * pageSize + ph.memsz
        then some (segmentByte file ph (a - page * pageSize))
        else (elfMapped st ph page frame).space.load a :=
    elfFillSegment_load filled whole fun i lt shared =>
      grown_image.own (by have := in_range lt; omega) (in_range lt).2 low high shared
  have old_load {a : Nat} (high : a / pageSize < page) :
      (elfMapped st ph page frame).space.load a = st.space.load a := by
    have old : (elfMapped st ph page frame).space.page (a / pageSize) =
        st.space.page (a / pageSize) := overlay_outside (.inl high)
    unfold Space.load
    rw [old]
    rfl
  have old_data {x : Nat} (off : ∀ mem ∈ st.mem, ¬ Holds mem (x / pageSize)) :
      (elfMapped st ph page frame).space.data x = s₀.data x := contents.clean x off
  have new_physical {a : Nat} (low : page ≤ a / pageSize)
      (high : a / pageSize < page + elfPages ph) :
      (elfMapped st ph page frame).space.physical a =
        some ((frame + (a / pageSize - page)) * pageSize + a % pageSize) :=
    congrArg (Option.map _) (overlay_inside low high)
  have frame_of (f a : Nat) : (f * pageSize + a % pageSize) / pageSize = f := by
    unfold pageSize
    omega
  refine ⟨image, ?inside, ?bytes, ?rest, ?clean⟩
  case inside =>
    intro p at_p
    rcases List.mem_append.mp at_p with old | new
    · have here := contents.inside p old
      omega
    · rw [List.mem_singleton.mp new]
      exact ⟨le, Nat.le_refl _, size⟩
  case bytes =>
    intro p at_p i lt
    rcases List.mem_append.mp at_p with old | new
    · obtain ⟨low, high, small⟩ := contents.inside p old
      have at_a : start ≤ (p.1 * pageSize + i) / pageSize ∧
          (p.1 * pageSize + i) / pageSize < page := by
        unfold pageSize at *
        omega
      have before : ¬ (page * pageSize ≤ p.1 * pageSize + i ∧
          p.1 * pageSize + i < page * pageSize + ph.memsz) := by
        unfold pageSize at *
        omega
      rw [load at_a.1 (by omega), if_neg before, old_load at_a.2]
      exact contents.bytes p old i lt
    · cases List.mem_singleton.mp new
      have lt : i < ph.memsz := lt
      have here := in_range lt
      rw [load (by omega) here.2, if_pos ⟨Nat.le_add_right _ i, by omega⟩,
        Nat.add_sub_cancel_left]
  case rest =>
    intro a low high off
    have not_new : a < page * pageSize ∨ page * pageSize + ph.memsz ≤ a :=
      off (page, ph) (List.mem_append_right _ (List.mem_singleton_self _))
    rw [load low high, if_neg (by omega)]
    by_cases old : a / pageSize < page
    · rw [old_load old]
      exact contents.rest a low old fun p at_p => off p (List.mem_append_left _ at_p)
    · have at_a := new_physical (Nat.not_lt.mp old) high
      rw [Space.load_eq, at_a, Option.map_some, old_data]
      · exact ⟨_, rfl⟩
      · intro mem at_mem holds
        rw [frame_of] at holds
        have free := fresh (a / pageSize - page) (by omega)
        rw [contents.image.used.mpr (.inr ⟨mem, at_mem, holds⟩)] at free
        cases free
  case clean =>
    intro x off
    rw [elfFillSegment_data filled whole]
    · exact old_data fun mem at_mem => off mem (List.mem_append_left _ at_mem)
    · intro i lt shared
      have here := in_range lt
      rw [new_physical here.1 here.2] at shared
      apply off (elfRegion ph page frame) (List.mem_append_right _ (List.mem_singleton_self _))
      rw [← Option.some.inj shared, frame_of]
      apply Image.holds_new.mpr
      omega

/-- The segments behind the image are added to it one after the other. -/
theorem elfRun_contents {start : Nat} {layout : List (Nat × ElfProgramHeader)}
    (pos : st.pos = at_page * pageSize) (given : at_page ≠ 0)
    (contents : Contents file s₀ start at_page layout st.mem st.space)
    (whole : ∀ ph ∈ phs, WholeSegment file ph) (small : ∀ ph ∈ phs, ph.memsz < 2 ^ 64)
    (done : elfRun env file header phs st = .ok st') :
    ∃ stop, Contents file s₀ start stop (layout ++ elfLayout at_page phs) st'.mem st'.space := by
  induction phs generalizing at_page layout st with
  | nil =>
      cases done
      rw [elfLayout, List.append_nil]
      exact ⟨at_page, contents⟩
  | cons ph phs ih =>
      obtain ⟨page, frame, space, found, not_null, got, filled, rest⟩ := elfRun_cons_ok pos done
      obtain ⟨rfl, -⟩ := place_given found elfPages_pos not_null given
      have below := (Space.place_spec found elfPages_pos not_null).1
      obtain ⟨whole_here, whole⟩ := List.forall_mem_cons.mp whole
      obtain ⟨small_here, small⟩ := List.forall_mem_cons.mp small
      have next := contents.step got filled whole_here
        (elfPages_memsz small_here (by omega)).1
      rw [elfLayout, ← List.singleton_append, ← List.append_assoc]
      exact ih rfl (by omega) next whole small rest

/-- What a load that succeeds leaves in memory. -/
theorem elfRun_ok_contents (whole : ∀ ph' ∈ ph :: phs, WholeSegment file ph')
    (small : ∀ ph' ∈ ph :: phs, ph'.memsz < 2 ^ 64)
    (done : elfRun env file header (ph :: phs) ⟨0, [], 0, s₀⟩ = .ok st') :
    ∃ start stop, s₀.place 0 (elfPages ph) = some start ∧ start ≠ 0 ∧
      Contents file s₀ start stop (elfLayout start (ph :: phs)) st'.mem st'.space ∧
      st'.entry = elfEntry header 0 (elfLayout start (ph :: phs)) := by
  obtain ⟨page, frame, space, found, not_null, got, filled, rest⟩ :=
    elfRun_cons_ok begun_empty.1 done
  have below := (Space.place_spec found elfPages_pos not_null).1
  obtain ⟨whole_here, whole⟩ := List.forall_mem_cons.mp whole
  obtain ⟨small_here, small⟩ := List.forall_mem_cons.mp small
  have first := @Contents.step env file ph space s₀ page ⟨0, [], 0, s₀⟩ page frame [] contents_nil
    got filled whole_here (elfPages_memsz small_here (by omega)).1
  obtain ⟨stop, contents⟩ := elfRun_contents rfl (by omega) first whole small rest
  exact ⟨page, stop, found, not_null, contents, elfRun_entry rfl (by omega) rest⟩

end

end Sdx.Fs
