import Sdx.Mm.Region

/-! # What mapping a region does to the address space

The loops of the VMM have closed forms here: a range of pages that is mapped lies over the old
pages, the search finds a range that was not mapped, and with `VMM_ATTR_REUSE` a given range only
has to lie in a VMA. From these comes what `region_map` does with a new region.
-/

namespace Sdx.Mm

open Sdx.Lib

/-- The pages from `page` on stand for the frames from `frame` on, the others for what they did. -/
def overlay (old : Nat → Option Nat) (page frame num : Nat) : Nat → Option Nat :=
  fun q => if page ≤ q ∧ q < page + num then some (frame + (q - page)) else old q

section

variable {old : Nat → Option Nat} {page frame num q : Nat}

theorem overlay_outside (off : q < page ∨ page + num ≤ q) : overlay old page frame num q = old q := by
  unfold overlay
  rw [if_neg (by omega)]

theorem overlay_inside (low : page ≤ q) (high : q < page + num) :
    overlay old page frame num q = some (frame + (q - page)) := by
  unfold overlay
  rw [if_pos ⟨low, high⟩]

end

namespace Space

variable {env : SpaceEnv} {s s' : Space} {vaddr page frame num : Nat}

theorem mapToPaddrInternal_eq :
    s.mapToPaddrInternal frame page num = { s with page := overlay s.page page frame num } := by
  induction num generalizing s frame page with
  | zero =>
      have same : overlay s.page page frame 0 = s.page :=
        funext fun q => overlay_outside (by omega)
      rw [same]
      rfl
  | succ num ih =>
      rw [mapToPaddrInternal, ih]
      congr 1
      funext q
      by_cases here : q = page
      · subst here
        rw [overlay_outside (by omega), overlay_inside (by omega) (by omega), Nat.sub_self]
        exact Function.update_self ..
      · unfold overlay
        simp only [Function.update_of_ne here]
        by_cases inside : page + 1 ≤ q ∧ q < page + 1 + num
        · rw [if_pos inside, if_pos (by omega)]
          congr 1
          omega
        · rw [if_neg inside, if_neg (by omega)]

/-! ## The search -/

private theorem findContiguousLoop_run {base k fuel start cur : Nat}
    (run : Scan.RunAt (fun j => base + j) (fun _ => True) (fun j => s.page (base + j) = none)
      k start cur)
    (room : base + k + fuel < 2 ^ 52)
    (done : s.findContiguousLoop num fuel (base + k) start cur = some page) (some_page : 0 < num) :
    ∃ j, j + num < k + fuel ∧ page = base + j ∧ ∀ i, i < num → s.page (page + i) = none := by
  induction fuel generalizing k start cur with
  | zero => cases done
  | succ fuel ih =>
      rw [findContiguousLoop] at done
      by_cases more : num > cur
      · rw [if_pos more, Nat.mod_eq_of_lt (by omega), Nat.add_assoc] at done
        cases here : s.page (base + k) with
        | some frame =>
            rw [here] at done
            obtain ⟨j, bound, found⟩ := ih (.empty rfl) (by omega) done
            exact ⟨j, by omega, found⟩
        | none =>
            rw [here] at done
            obtain ⟨j, bound, found⟩ := ih (run.extend (fun _ => trivial) here) (by omega) done
            exact ⟨j, by omega, found⟩
      · rw [if_neg more] at done
        cases done
        have enough := run.le
        have start_eq := run.start_eq (by omega)
        refine ⟨k - cur, by omega, start_eq, fun i lt => ?_⟩
        have good := run.all_good (k - cur + i) (by omega) (by omega)
        rwa [start_eq, Nat.add_assoc]

/-- The pages the search finds are in the lower part of the address space and not mapped. -/
theorem findContiguous_user (done : s.findContiguous num vmmAttrUser = some page)
    (some_page : 0 < num) :
    0 < page ∧ page + num ≤ 2 ^ 37 ∧ ∀ i, i < num → s.page (page + i) = none := by
  have first : findContiguousLoop s num (2 ^ 37) (1 + 0) 0 0 = some page := done
  obtain ⟨j, bound, rfl, unused⟩ :=
    findContiguousLoop_run (.empty rfl) (by decide) first some_page
  exact ⟨by omega, by omega, unused⟩

private theorem findContiguousLoop_count {cur fuel start : Nat} (at_start : 0 < cur → start = page)
    (le : cur ≤ num) (some_page : 0 < num) (unused : ∀ i, i < num → s.page (page + i) = none)
    (enough : num < cur + fuel) (room : page + cur + fuel < 2 ^ 52) :
    s.findContiguousLoop num fuel (page + cur) start cur = some page := by
  induction fuel generalizing cur start with
  | zero => omega
  | succ fuel ih =>
      rw [findContiguousLoop]
      by_cases more : num > cur
      · rw [if_pos more, unused cur more, Nat.mod_eq_of_lt (by omega), Nat.add_assoc]
        apply ih
        · intro _
          split
          · omega
          · exact at_start (by omega)
        · exact more
        · omega
        · omega
      · rw [if_neg more, at_start (by omega)]

private theorem findContiguousLoop_skip {pos fuel start : Nat} (le : pos ≤ page)
    (used : ∀ q, pos ≤ q → q < page → (s.page q).isSome) (some_page : 0 < num)
    (unused : ∀ i, i < num → s.page (page + i) = none) (enough : page + num < pos + fuel)
    (room : pos + fuel < 2 ^ 52) : s.findContiguousLoop num fuel pos start 0 = some page := by
  induction fuel generalizing pos start with
  | zero => omega
  | succ fuel ih =>
      by_cases here : pos = page
      · subst here
        exact findContiguousLoop_count (fun more => absurd more (Nat.lt_irrefl 0)) (Nat.zero_le num)
          some_page unused (by omega) room
      · rw [findContiguousLoop, if_pos some_page, used pos (Nat.le_refl pos) (by omega),
          Nat.mod_eq_of_lt (by omega)]
        exact ih (by omega) (fun q low => used q (by omega)) (by omega) (by omega)

/-- A range in front of which all pages are mapped is what the search finds. -/
theorem findContiguous_first (low : 0 < page) (some_page : 0 < num) (high : page + num ≤ 2 ^ 37)
    (used : ∀ q, 0 < q → q < page → (s.page q).isSome)
    (unused : ∀ i, i < num → s.page (page + i) = none) :
    s.findContiguous num vmmAttrUser = some page := by
  have first : findContiguousLoop s num (2 ^ 37) 1 0 0 = some page :=
    findContiguousLoop_skip low used some_page unused (by omega) (by decide)
  exact first

theorem findContiguous_congr {attr : BitVec 32} (user : attr &&& vmmAttrUser ≠ 0#32) :
    s.findContiguous num attr = s.findContiguous num vmmAttrUser := by
  unfold findContiguous
  rw [if_pos user, if_pos (by decide)]

/-! ## A given range -/

/-- A range of pages lies in a VMA. -/
def Room (page num : Nat) : Prop := ∀ i, i < num → vmmVmaDoesContain ((page + i) * pageSize) = true

instance : Decidable (Room page num) :=
  inferInstanceAs (Decidable (∀ i, i < num → vmmVmaDoesContain ((page + i) * pageSize) = true))

theorem vmmVmaDoesContain_lt {addr : Nat} (contained : vmmVmaDoesContain addr = true) :
    addr + pageSize < 2 ^ 64 := by
  unfold vmmVmaDoesContain vmmVmaKernelEnd vmmVmaUserEnd at contained
  simp only [Bool.or_eq_true, Bool.and_eq_true, decide_eq_true_eq] at contained
  unfold pageSize
  omega

theorem Room.lt (room : Room page num) (some_page : 0 < num) : page + num < 2 ^ 52 := by
  have last := vmmVmaDoesContain_lt (room (num - 1) (by omega))
  unfold pageSize at last
  omega

theorem mapVaddrLoop_iff {attr : BitVec 32} (reuse : attr &&& vmmAttrReuse ≠ 0#32) :
    s.mapVaddrLoop attr (page * pageSize) num = true ↔ Room page num := by
  induction num generalizing page with
  | zero => exact ⟨fun _ i lt => absurd lt (Nat.not_lt_zero i), fun _ => rfl⟩
  | succ num ih =>
      rw [mapVaddrLoop]
      cases contained : vmmVmaDoesContain (page * pageSize) with
      | false =>
          simp only [Bool.not_false, if_true, Bool.false_eq_true, false_iff]
          intro room
          have here := room 0 (Nat.succ_pos num)
          rw [Nat.add_zero, contained] at here
          cases here
      | true =>
          have next : wrap64 (page * pageSize + pageSize) = (page + 1) * pageSize := by
            rw [wrap64_of_lt (vmmVmaDoesContain_lt contained), Nat.succ_mul]
          simp only [Bool.not_true, Bool.false_eq_true, if_false, reuse, false_and, next, ih]
          constructor
          · intro room i lt
            cases i with
            | zero => exact contained
            | succ i =>
                have here := room i (by omega)
                rwa [Nat.add_assoc, Nat.add_comm 1 i] at here
          · intro room i lt
            have here := room (i + 1) (by omega)
            rwa [Nat.add_comm i 1, ← Nat.add_assoc] at here

/-! ## A new region -/

/-- Where a new region of user pages goes: to a free place, or to a given page if that lies in a
    VMA. The page 0 stands for none. -/
def place (s : Space) (page num : Nat) : Option Nat :=
  if page = 0 then s.findContiguous num vmmAttrUser else some (if Room page num then page else 0)

@[simp] theorem place_zero : s.place 0 num = s.findContiguous num vmmAttrUser := if_pos rfl

private theorem findContiguousLoop_congr {fuel pos start cur : Nat} (same : s'.page = s.page) :
    s'.findContiguousLoop num fuel pos start cur = s.findContiguousLoop num fuel pos start cur := by
  induction fuel generalizing pos start cur with
  | zero => rfl
  | succ fuel ih => rw [findContiguousLoop, findContiguousLoop, ih, same]

/-- A place depends on the pages only. -/
theorem place_congr {at_page : Nat} (same : s'.page = s.page) :
    s'.place at_page num = s.place at_page num := by
  unfold place findContiguous
  rw [findContiguousLoop_congr same]

/-- The space in which `num` pages from `page` on are mapped to the frames from `frame` on. -/
def placed (s : Space) (page frame num : Nat) : Space :=
  { s with
    page := overlay s.page page frame num
    used := fun f => s.used f || (frame ≤ f && f < frame + num) }

theorem placed_resolve (s : Space) (some_page : 0 < num) :
    (s.placed page frame num).resolve (page * pageSize) = frame * pageSize := by
  have at_page : (s.placed page frame num).page (page * pageSize / pageSize) = some frame := by
    have here : overlay s.page page frame num page = some (frame + (page - page)) :=
      overlay_inside (Nat.le_refl page) (by omega)
    rw [Nat.sub_self] at here
    rwa [Nat.mul_div_cancel page (by decide : 0 < pageSize)]
  simp only [resolve, at_page, Nat.mul_mod_left, Nat.add_zero]

theorem place_spec {at_page : Nat} (found : s.place at_page num = some page) (some_page : 0 < num)
    (not_null : page ≠ 0) : page + num < 2 ^ 52 ∧
      ((at_page = 0 ∧ ∀ i, i < num → s.page (page + i) = none) ∨ (at_page = page ∧ Room page num)) := by
  unfold place at found
  by_cases first : at_page = 0
  · rw [if_pos first] at found
    obtain ⟨-, high, unused⟩ := findContiguous_user found some_page
    exact ⟨by omega, .inl ⟨first, unused⟩⟩
  · rw [if_neg first] at found
    cases found
    by_cases room : Room at_page num
    · rw [if_pos room]
      exact ⟨room.lt some_page, .inr ⟨rfl, room⟩⟩
    · rw [if_neg room] at not_null
      exact absurd rfl not_null

theorem mapToVaddrInternal_eq :
    s.mapToVaddrInternal env (page * pageSize) num =
      match env.pmmAlloc s.used num with
      | none => (0, s)
      | some frame => (page * pageSize, s.placed page frame num) := by
  unfold mapToVaddrInternal pmmAlloc
  cases env.pmmAlloc s.used num with
  | none => rfl
  | some frame =>
      simp only
      rw [mapToPaddrInternal_eq, Nat.mul_div_cancel page (by decide : 0 < pageSize)]
      rfl

/-! ## Access -/

/-- The physical address behind an address. -/
def physical (s : Space) (vaddr : Nat) : Option Nat :=
  (s.page (vaddr / pageSize)).map fun frame => frame * pageSize + vaddr % pageSize

theorem load_eq (s : Space) (vaddr : Nat) : s.load vaddr = (s.physical vaddr).map s.data := by
  unfold load physical
  rw [Option.map_map]
  rfl

/-- The spaces differ in the bytes of memory only. -/
def SameButData (s s' : Space) : Prop :=
  s'.page = s.page ∧ s'.used = s.used ∧ s'.freed = s.freed ∧ s'.regions = s.regions

theorem SameButData.trans {s'' : Space} (first : SameButData s s') (second : SameButData s' s'') :
    SameButData s s'' :=
  ⟨second.1.trans first.1, second.2.1.trans first.2.1, second.2.2.1.trans first.2.2.1,
    second.2.2.2.trans first.2.2.2⟩

/-- The space with another byte at a physical address. -/
def poke (s : Space) (x : Nat) (byte : UInt8) : Space :=
  { s with data := Function.update s.data x byte }

theorem store_cons {byte : UInt8} {bytes : List UInt8} :
    s.store vaddr (byte :: bytes) =
      (s.physical vaddr).bind fun x => (s.poke x byte).store (vaddr + 1) bytes := by
  rw [store, physical]
  cases s.page (vaddr / pageSize) with
  | none => rfl
  | some frame => rfl

theorem load_poke {x a : Nat} {byte : UInt8} :
    (s.poke x byte).load a = if s.physical a = some x then some byte else s.load a := by
  rw [load_eq, load_eq]
  change (s.physical a).map (Function.update s.data x byte) = _
  cases s.physical a with
  | none => rfl
  | some y =>
      rw [Option.map_some]
      by_cases here : y = x
      · rw [if_pos (congrArg some here), here, Function.update_self]
      · rw [if_neg (mt Option.some.inj here), Function.update_of_ne here, Option.map_some]

theorem SameButData.physical (same : SameButData s s') (a : Nat) : s'.physical a = s.physical a := by
  unfold Space.physical
  rw [same.1]

theorem store_same {bytes : List UInt8} (done : s.store vaddr bytes = some s') :
    SameButData s s' := by
  induction bytes generalizing s vaddr with
  | nil =>
      cases done
      exact ⟨rfl, rfl, rfl, rfl⟩
  | cons byte bytes ih =>
      rw [store_cons] at done
      obtain ⟨x, -, rest⟩ := Option.bind_eq_some_iff.mp done
      have same : SameButData (s.poke x byte) s' := ih rest
      exact same

/-- Writing faults at the first page that is not mapped. -/
theorem store_isSome {bytes : List UInt8} :
    (s.store vaddr bytes).isSome ↔
      ∀ i, i < bytes.length → (s.page ((vaddr + i) / pageSize)).isSome := by
  induction bytes generalizing s vaddr with
  | nil => exact ⟨fun _ i lt => absurd lt (Nat.not_lt_zero i), fun _ => rfl⟩
  | cons byte bytes ih =>
      rw [store]
      cases here : s.page (vaddr / pageSize) with
      | none =>
          refine ⟨nofun, fun mapped => ?_⟩
          have first := mapped 0 (Nat.succ_pos _)
          rw [Nat.add_zero, here] at first
          cases first
      | some frame =>
          simp only [ih]
          constructor
          · intro mapped i lt
            cases i with
            | zero => rw [Nat.add_zero, here]; rfl
            | succ i =>
                rw [← Nat.add_assoc, Nat.add_right_comm]
                exact mapped i (Nat.lt_of_succ_lt_succ lt)
          · intro mapped i lt
            have next := mapped (i + 1) (Nat.succ_lt_succ lt)
            rwa [← Nat.add_assoc, Nat.add_right_comm] at next

/-- What is read after a write, at an address that does not share its frame with another one. -/
theorem store_load {bytes : List UInt8} {a : Nat} (done : s.store vaddr bytes = some s')
    (own : ∀ i, i < bytes.length → s.physical (vaddr + i) = s.physical a → vaddr + i = a) :
    s'.load a = if vaddr ≤ a ∧ a < vaddr + bytes.length then bytes[a - vaddr]? else s.load a := by
  induction bytes generalizing s vaddr with
  | nil =>
      cases done
      rw [if_neg (by simp only [List.length_nil]; omega)]
  | cons byte bytes ih =>
      rw [store_cons] at done
      obtain ⟨x, behind, done⟩ := Option.bind_eq_some_iff.mp done
      have rest := ih done fun i lt same => by
        have next := own (i + 1) (Nat.succ_lt_succ lt)
        rw [← Nat.add_assoc, Nat.add_right_comm] at next
        exact next same
      rw [rest, List.length_cons]
      by_cases later : vaddr + 1 ≤ a ∧ a < vaddr + 1 + bytes.length
      · rw [if_pos later, if_pos (by omega), show a - vaddr = a - (vaddr + 1) + 1 by omega,
          List.getElem?_cons_succ]
      · rw [if_neg later, load_poke]
        by_cases first : a = vaddr
        · subst first
          rw [if_pos behind, if_pos (by omega), Nat.sub_self, List.getElem?_cons_zero]
        · have other : s.physical a ≠ some x := fun same =>
            first (own 0 (Nat.succ_pos _) (behind.trans same.symm)).symm
          rw [if_neg other, if_neg (by omega)]

/-- Bytes that are not behind the addresses stay. -/
theorem store_data {bytes : List UInt8} {x : Nat} (done : s.store vaddr bytes = some s')
    (off : ∀ i, i < bytes.length → s.physical (vaddr + i) ≠ some x) : s'.data x = s.data x := by
  induction bytes generalizing s vaddr with
  | nil =>
      cases done
      rfl
  | cons byte bytes ih =>
      rw [store_cons] at done
      obtain ⟨y, behind, done⟩ := Option.bind_eq_some_iff.mp done
      have other : x ≠ y := by
        rintro rfl
        exact off 0 (Nat.succ_pos _) behind
      have rest := ih done fun i lt => by
        have next := off (i + 1) (Nat.succ_lt_succ lt)
        rwa [← Nat.add_assoc, Nat.add_right_comm] at next
      exact rest.trans (Function.update_of_ne other ..)

/-! ## Unmapping -/

theorem unmap_mapped (mapped : ∀ i, i < num → (s.page (page + i)).isSome) :
    s.unmap page num =
      (0, { s with page := fun q => if page ≤ q ∧ q < page + num then none else s.page q }) := by
  induction num generalizing s page with
  | zero =>
      have same : (fun q => if page ≤ q ∧ q < page + 0 then none else s.page q) = s.page :=
        funext fun q => if_neg (by omega)
      rw [unmap, same]
  | succ num ih =>
      obtain ⟨frame, here⟩ := Option.isSome_iff_exists.mp (mapped 0 (Nat.succ_pos num))
      rw [Nat.add_zero] at here
      have rest : ∀ i, i < num →
          (Function.update s.page page none (page + 1 + i)).isSome := fun i lt => by
        rw [Function.update_of_ne (by omega), Nat.add_assoc, Nat.add_comm 1 i]
        exact mapped (i + 1) (Nat.succ_lt_succ lt)
      rw [unmap, here]
      simp only
      rw [ih rest]
      congr 2
      funext q
      by_cases first : q = page
      · simp only [first, Function.update_self]
        rw [if_neg (by omega), if_pos (by omega)]
      · simp only [Function.update_of_ne first]
        by_cases inside : page + 1 ≤ q ∧ q < page + 1 + num
        · rw [if_pos inside, if_pos (by omega)]
        · rw [if_neg inside, if_neg (by omega)]

/-- Outside of the range nothing is unmapped. -/
theorem unmap_outside {q : Nat} (off : q < page ∨ page + num ≤ q) :
    (s.unmap page num).2.page q = s.page q := by
  induction num generalizing s page with
  | zero => rfl
  | succ num ih =>
      rw [unmap]
      cases here : s.page page with
      | none => rfl
      | some frame =>
          simp only
          rw [ih (by omega)]
          exact Function.update_of_ne (by omega) ..

theorem unmap_regions : (s.unmap page num).2.regions = s.regions := by
  induction num generalizing s page with
  | zero => rfl
  | succ num ih =>
      rw [unmap]
      cases s.page page with
      | none => rfl
      | some frame => exact ih

end Space

private theorem regionMap_search {env : SpaceEnv} {s : Space} {mem : Region} (null : mem.vaddr = 0) :
    regionMap env s mem = (s.map env mem.num (regionMapAttr mem)).map fun r =>
      (if r.1 = 0 then -eFAULT else 0, { mem with vaddr := r.1, paddr := r.2.resolve r.1 }, r.2) := by
  simp only [regionMap, null, if_true, Option.map_map]
  rfl

private theorem regionMap_given {env : SpaceEnv} {s : Space} {mem : Region} (given : mem.vaddr ≠ 0)
    (fresh : mem.paddr = 0) : regionMap env s mem =
      let r := s.mapVaddr env mem.vaddr mem.num (regionMapAttr mem)
      some (if r.1 = 0 then -eFAULT else 0, { mem with paddr := r.2.resolve r.1 }, r.2) := by
  simp only [regionMap, given, fresh, if_true, if_false]
  rfl

private theorem regionAttr_flags (type : RegionType) :
    (regionAttr type ||| vmmAttrSave ||| vmmAttrUser) &&& vmmAttrUser ≠ 0#32 ∧
      (regionAttr type ||| vmmAttrSave ||| vmmAttrUser) &&& vmmAttrReuse ≠ 0#32 := by
  cases type <;> decide

theorem page_address_zero {page : Nat} : page * pageSize = 0 ↔ page = 0 := by
  unfold pageSize
  omega

/-- What `region_map` does with a new region of user pages: the search for a place never ends, no
    page or no frame is to be had, or the region is in its place. -/
theorem regionMap_cases {env : SpaceEnv} {s : Space} {type : RegionType} {at_page num : Nat}
    (some_page : 0 < num) :
    (s.place at_page num = none ∧
      regionMap env s ⟨type, true, at_page * pageSize, 0, num⟩ = none) ∨
    (∃ page mem, s.place at_page num = some page ∧
      (page = 0 ∨ env.pmmAlloc s.used num = none) ∧
      regionMap env s ⟨type, true, at_page * pageSize, 0, num⟩ = some (-eFAULT, mem, s)) ∨
    (∃ page frame, s.place at_page num = some page ∧ page ≠ 0 ∧
      env.pmmAlloc s.used num = some frame ∧
      regionMap env s ⟨type, true, at_page * pageSize, 0, num⟩ =
        some (0, ⟨type, true, page * pageSize, frame * pageSize, num⟩, s.placed page frame num)) := by
  have user : regionMapAttr ⟨type, true, at_page * pageSize, 0, num⟩ &&& vmmAttrUser ≠ 0#32 :=
    (regionAttr_flags type).1
  have reuse : regionMapAttr ⟨type, true, at_page * pageSize, 0, num⟩ &&& vmmAttrReuse ≠ 0#32 :=
    (regionAttr_flags type).2
  by_cases first : at_page = 0
  · rw [regionMap_search (page_address_zero.mpr first), Space.map, Space.findContiguous_congr user,
      Space.place, if_pos first]
    cases s.findContiguous num vmmAttrUser with
    | none => exact .inl ⟨rfl, rfl⟩
    | some page =>
        rw [Option.map_some, Option.map_some, Space.mapToVaddrInternal_eq]
        by_cases null : page = 0
        · rw [if_pos null]
          exact .inr (.inl ⟨page, _, rfl, .inl null, rfl⟩)
        · rw [if_neg null]
          cases got : env.pmmAlloc s.used num with
          | none => exact .inr (.inl ⟨page, _, rfl, .inr rfl, rfl⟩)
          | some frame =>
              refine .inr (.inr ⟨page, frame, rfl, null, rfl, ?_⟩)
              simp only [s.placed_resolve some_page, page_address_zero, null, if_false]
  · rw [regionMap_given (mt page_address_zero.mp first) rfl, Space.mapVaddr,
      Space.mapToVaddrInternal_eq, Space.place, if_neg first]
    by_cases room : Space.Room at_page num
    · rw [if_pos ((Space.mapVaddrLoop_iff reuse).mpr room), if_pos room]
      cases got : env.pmmAlloc s.used num with
      | none => exact .inr (.inl ⟨at_page, _, rfl, .inr rfl, rfl⟩)
      | some frame =>
          refine .inr (.inr ⟨at_page, frame, rfl, first, rfl, ?_⟩)
          simp only [s.placed_resolve some_page, page_address_zero, first, if_false]
    · rw [if_neg (mt (Space.mapVaddrLoop_iff reuse).mp room), if_neg room]
      exact .inr (.inl ⟨0, _, rfl, .inl rfl, rfl⟩)

end Sdx.Mm
