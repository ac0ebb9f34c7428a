import Sdx.Mm.VmmSync
import Sdx.Util.Strstr

/-! # Looking for ACPI tables (`core/acpi/acpi.c`)

A table is mapped with its header only, and again when it is looked for and needs more pages. Its
address is kept as a pointer to headers, and `acpi_find` adds the size of one to it.
-/

namespace Sdx.Core

open Sdx.Lib.Bytes Sdx.Mm Sdx.Util

/-- `sizeof(struct sdt_header)` and `SDT_HEADER_SIG_SIZE`. -/
def sdtHeaderSize : Nat := 36
def sdtHeaderSigSize : Nat := 4

/-- `struct sdt_map`. -/
structure SdtMap where
  base : BitVec 64
  size : Nat
  sdt : BitVec 64

/-- How far a table is from the beginning of its first page. -/
def SdtMap.offset (map : SdtMap) : BitVec 64 := map.sdt - map.base

/-- `__acpi_sdt_map`: the new map, and the list behind `__acpi_root`. `heap_alloc` may fail. -/
def acpiSdtMap (boot : BootInfo) (s : Vmm) (fuel : Nat) (alloc : Bool) (root : List SdtMap)
    (paddr size : BitVec 64) : Option (Option SdtMap × List SdtMap × Vmm) :=
  if paddr = 0 ∨ size = 0 then some (none, root, s)
  else if !alloc then some (none, root, s)
  else do
    let paddrBase := BitVec.ofNat 64 (roundDown paddr.toNat pageSize)
    let pages := vmmCalc (paddr - paddrBase + size).toNat
    let (base, s) ← vmmMapPaddr boot s fuel paddrBase pages vmmAttrSave
    if base = 0 then some (none, root, s)
    else
      let map : SdtMap := ⟨base, pages, base + (paddr - paddrBase)⟩
      some (some map, root ++ [map], s)

/-- `__acpi_sdt_remap`: the error, and the map as it is left. -/
def acpiSdtRemap (boot : BootInfo) (s : Vmm) (fuel : Nat) (map : SdtMap) (size : BitVec 64) :
    Option (Int × SdtMap × Vmm) :=
  if size = 0 then some (-eINVAL, map, s)
  else if map.size ≥ vmmCalc (size + map.offset).toNat then some (0, map, s)
  else do
    let paddr ← vmmResolve s map.base
    let (err, s) ← vmmUnmap s map.base 0 map.size
    if err ≠ 0 then some (err, map, s)
    else
      let pages := vmmCalc (size + map.offset).toNat
      let (base, s) ← vmmMapPaddr boot s fuel paddr pages vmmAttrSave
      if base = 0 then some (-eNOMEM, ⟨base, pages, map.sdt⟩, s)
      else some (0, ⟨base, pages, base + map.offset⟩, s)

/-- `sdt_header_sig_cmp`. -/
def sdtHeaderSigCmp (mem : Memory) (map : SdtMap) (sig : Nat) : Bool :=
  strncmp mem map.sdt.toNat sig sdtHeaderSigSize == 0

/-- `n` added to a `struct sdt_header *`. -/
def sdtHeaderAdd (sdt : BitVec 64) (n : Nat) : BitVec 64 := sdt + BitVec.ofNat 64 (n * sdtHeaderSize)

/-- The loop of `acpi_find`: the pointer, or 0 for `NULL`, and the list as it is left. -/
def acpiFindLoop (boot : BootInfo) (s : Vmm) (fuel : Nat) (mem : Memory) (sig : Nat)
    (size : BitVec 64) : List SdtMap → Option (BitVec 64 × List SdtMap × Vmm)
  | [] => some (0, [], s)
  | cur :: next =>
      if !sdtHeaderSigCmp mem cur sig then do
        let (p, next, s) ← acpiFindLoop boot s fuel mem sig size next
        some (p, cur :: next, s)
      else do
        let (err, cur, s) ← acpiSdtRemap boot s fuel cur size
        if err ≠ 0 then some (0, cur :: next, s)
        else some (sdtHeaderAdd cur.sdt sdtHeaderSize, cur :: next, s)

/-- `acpi_find`. -/
def acpiFind (boot : BootInfo) (s : Vmm) (fuel : Nat) (mem : Memory) (version : Nat)
    (root : List SdtMap) (sig : Option Nat) (size : BitVec 64) :
    Option (BitVec 64 × List SdtMap × Vmm) :=
  match root, sig with
  | [], _ => some (0, [], s)
  | root, none => some (0, root, s)
  | root, some sig =>
      if version = 0 then some (0, root, s) else acpiFindLoop boot s fuel mem sig size root

/-! ## What is looked for -/

/-- The header begins with these four bytes. -/
def SdtMap.HasSig (mem : Memory) (sig : Nat) (map : SdtMap) : Prop :=
  ∀ i, i < sdtHeaderSigSize → mem (map.sdt.toNat + i) = mem (sig + i)

/-- The first table of a list with a signature. -/
def FirstSdt (mem : Memory) (sig : Nat) (maps before : List SdtMap) (map : SdtMap) : Prop :=
  (∃ after, maps = before ++ map :: after) ∧ map.HasSig mem sig ∧ ∀ m ∈ before, ¬ m.HasSig mem sig

/-- The bytes from `p` on are mapped. -/
def SdtMap.Covers (map : SdtMap) (p size : BitVec 64) : Prop :=
  ∀ i, i < size.toNat → (p + BitVec.ofNat 64 i - map.base).toNat < pageSize * map.size

/-- A pointer that is not `NULL` is to the bytes behind the header of the first table with the
    signature, as it is mapped then. -/
def FindsBody (boot : BootInfo) (s : Vmm) (mem : Memory) (version : Nat) (root : List SdtMap)
    (sig : Nat) (size : BitVec 64) : Prop :=
  ∀ fuel p root' s', acpiFind boot s fuel mem version root (some sig) size = some (p, root', s') →
    p ≠ 0 → ∃ before map map', FirstSdt mem sig root before map ∧
      root'[before.length]? = some map' ∧ p = map'.sdt + BitVec.ofNat 64 sdtHeaderSize ∧
      map'.Covers p size

/-- Where the pages of a table are when it is looked for: where they were, or where there is room for
    more of them. -/
inductive SdtMap.Pages (boot : BootInfo) (s : Vmm) (map : SdtMap) (size : BitVec 64) :
    BitVec 64 → Prop
  | kept : vmmCalc (size + map.offset).toNat ≤ map.size → Pages boot s map size map.base
  | moved {fuel paddr base s₁ s₂} : map.size < vmmCalc (size + map.offset).toNat →
      vmmResolve s map.base = some paddr → vmmUnmap s map.base 0 map.size = some (0, s₁) →
      vmmMapPaddr boot s₁ fuel paddr (vmmCalc (size + map.offset).toNat) vmmAttrSave =
        some (base, s₂) → base ≠ 0 → Pages boot s map size base

/-- A table whose header only begins like the signature, and is followed by the one with the
    signature just where the pointer goes. -/
def SdtMap.Mistaken (mem : Memory) (sig : Nat) (size p : BitVec 64) (map : SdtMap)
    (after : List SdtMap) : Prop :=
  ¬ map.HasSig mem sig ∧ ∃ before map', FirstSdt mem sig after before map' ∧
    p = map'.sdt + BitVec.ofNat 64 sdtHeaderSize ∧ map'.Covers p size

section

variable {boot : BootInfo} {s s' : Vmm} {fuel version sig n a b : Nat} {mem : Memory}
  {size p : BitVec 64} {map map' : SdtMap} {before after root root' : List SdtMap}

/-! ## Comparing -/

theorem strncmp_of_eq (same : ∀ i, i < n → mem (a + i) = mem (b + i)) : strncmp mem a b n = 0 := by
  induction n generalizing a b with
  | zero => rfl
  | succ n ih =>
      have first : mem a = mem b := same 0 (Nat.succ_pos n)
      have rest := ih (a := a + 1) (b := b + 1) fun i lt => by
        simpa only [Nat.add_assoc, Nat.add_comm 1] using same (i + 1) (Nat.succ_lt_succ lt)
      simp [strncmp, first, rest]

theorem SdtMap.HasSig.cmp (has : map.HasSig mem sig) : sdtHeaderSigCmp mem map sig = true := by
  simp [sdtHeaderSigCmp, strncmp_of_eq has]

/-! ## Going through the list -/

theorem acpiFindLoop_missing (others : ∀ m ∈ root, sdtHeaderSigCmp mem m sig = false) :
    acpiFindLoop boot s fuel mem sig size root = some (0, root, s) := by
  induction root with
  | nil => rfl
  | cons cur next ih =>
      have other := others cur List.mem_cons_self
      have rest := ih fun m listed => others m (List.mem_cons_of_mem cur listed)
      simp [acpiFindLoop, other, rest]

/-- Only the first table that compares equal is mapped again. -/
theorem acpiFindLoop_found (others : ∀ m ∈ before, sdtHeaderSigCmp mem m sig = false)
    (equal : sdtHeaderSigCmp mem map sig = true) :
    acpiFindLoop boot s fuel mem sig size (before ++ map :: after) = some (p, root', s') ↔
      ∃ err map', acpiSdtRemap boot s fuel map size = some (err, map', s') ∧
        root' = before ++ map' :: after ∧
        p = if err = 0 then sdtHeaderAdd map'.sdt sdtHeaderSize else 0 := by
  induction before generalizing root' with
  | nil =>
      simp only [List.nil_append, acpiFindLoop, equal, Bool.not_true, Bool.false_eq_true, if_false]
      constructor
      · intro found
        obtain ⟨⟨err, map', s₁⟩, remap, found⟩ := Option.bind_eq_some_iff.mp found
        by_cases ok : err = 0
        · simp only [ok, ne_eq, not_true_eq_false, if_false, Option.some.injEq, Prod.mk.injEq] at found
          obtain ⟨rfl, rfl, rfl⟩ := found
          exact ⟨err, map', remap, rfl, (if_pos ok).symm⟩
        · simp only [ok, ne_eq, not_false_eq_true, if_true, Option.some.injEq, Prod.mk.injEq] at found
          obtain ⟨rfl, rfl, rfl⟩ := found
          exact ⟨err, map', remap, rfl, (if_neg ok).symm⟩
      · rintro ⟨err, map', remap, rfl, rfl⟩
        rw [remap, Option.bind_eq_bind, Option.bind_some]
        by_cases ok : err = 0
        · simp [ok]
        · simp [ok]
  | cons cur before ih =>
      have other := others cur List.mem_cons_self
      have ih := fun root' => @ih root' fun m listed => others m (List.mem_cons_of_mem cur listed)
      simp only [List.cons_append, acpiFindLoop, other, Bool.not_false, if_true]
      constructor
      · intro found
        obtain ⟨⟨p, next, s₁⟩, rest, found⟩ := Option.bind_eq_some_iff.mp found
        cases found
        obtain ⟨err, map', remap, rfl, at_p⟩ := (ih next).mp rest
        exact ⟨err, map', remap, rfl, at_p⟩
      · rintro ⟨err, map', remap, rfl, at_p⟩
        rw [(ih _).mpr ⟨err, map', remap, rfl, at_p⟩]
        rfl

theorem acpiFind_loaded (loaded : version ≠ 0) : acpiFind boot s fuel mem version root (some sig) size =
    acpiFindLoop boot s fuel mem sig size root := by
  cases root with
  | nil => rfl
  | cons cur next => simp [acpiFind, loaded]

/-! ## Mapping again -/

theorem acpiSdtRemap_pages (some' : size ≠ 0)
    (remap : acpiSdtRemap boot s fuel map size = some (0, map', s')) :
    ∃ base, map.Pages boot s size base ∧ map'.sdt = base + map.offset := by
  rw [acpiSdtRemap, if_neg some'] at remap
  split at remap
  · rename_i enough
    cases remap
    refine ⟨map.base, .kept enough, ?_⟩
    rw [SdtMap.offset]
    bv_omega
  · rename_i few
    obtain ⟨paddr, resolve, remap⟩ := Option.bind_eq_some_iff.mp remap
    obtain ⟨⟨err, s₁⟩, unmap, remap⟩ := Option.bind_eq_some_iff.mp remap
    dsimp only at remap
    split at remap
    · rename_i failed
      cases remap
      cases failed rfl
    · rename_i ok
      obtain ⟨⟨base, s₂⟩, maps, remap⟩ := Option.bind_eq_some_iff.mp remap
      dsimp only at remap
      split at remap
      · cases remap
      · rename_i room
        cases remap
        cases not_not.mp ok
        exact ⟨base, .moved (Nat.not_le.mp few) resolve unmap maps room, rfl⟩

theorem SdtMap.Pages.remap {base : BitVec 64} (some' : size ≠ 0) (pages : map.Pages boot s size base) :
    ∃ fuel map' s', acpiSdtRemap boot s fuel map size = some (0, map', s') ∧
      map'.sdt = base + map.offset := by
  cases pages with
  | kept enough =>
      refine ⟨0, map, s, ?_, ?_⟩
      · rw [acpiSdtRemap, if_neg some', if_pos enough]
      · rw [SdtMap.offset]
        bv_omega
  | @moved fuel paddr base s₁ s₂ few resolve unmap maps room =>
      refine ⟨fuel, ⟨base, vmmCalc (size + map.offset).toNat, base + map.offset⟩, s₂, ?_, rfl⟩
      rw [acpiSdtRemap, if_neg some', if_neg (Nat.not_le.mpr few), resolve]
      simp only [Option.bind_eq_bind, Option.bind_some, unmap, maps]
      rw [if_neg (by simp), if_neg room]

/-! ## What is found -/

/-- The first table that compares equal is not behind the first one with the signature. -/
theorem FirstSdt.of_append (others : ∀ m ∈ before, sdtHeaderSigCmp mem m sig = false)
    {earlier : List SdtMap} (first : FirstSdt mem sig (before ++ map :: after) earlier map') :
    (earlier = before ∧ map' = map) ∨ ¬ map.HasSig mem sig ∧ ∃ pre, earlier = before ++ map :: pre ∧
      FirstSdt mem sig after pre map' := by
  obtain ⟨⟨later, split⟩, has, none⟩ := first
  obtain ⟨pre, rfl, rest⟩ | ⟨pre, rfl, rest⟩ := List.append_eq_append_iff.mp split
  · cases pre with
    | nil =>
        cases rest
        exact .inl ⟨List.append_nil before, rfl⟩
    | cons m pre =>
        cases rest
        have without := none map (List.mem_append_right _ List.mem_cons_self)
        exact .inr ⟨without, pre, rfl, ⟨later, rfl⟩, has, fun m listed =>
          none m (List.mem_append_right _ (List.mem_cons_of_mem _ listed))⟩
  · cases pre with
    | nil =>
        cases rest
        exact .inl ⟨(List.append_nil earlier).symm, rfl⟩
    | cons m pre =>
        cases rest
        have other := others map' (List.mem_append_right _ List.mem_cons_self)
        simp [has.cmp] at other

theorem FirstSdt.append (others : ∀ m ∈ before, sdtHeaderSigCmp mem m sig = false)
    (without : ¬ map.HasSig mem sig) {pre : List SdtMap} (first : FirstSdt mem sig after pre map') :
    FirstSdt mem sig (before ++ map :: after) (before ++ map :: pre) map' := by
  obtain ⟨⟨later, rfl⟩, has, none⟩ := first
  refine ⟨⟨later, by simp⟩, has, fun m listed => ?_⟩
  obtain listed | listed := List.mem_append.mp listed
  · intro has
    simpa [has.cmp] using others m listed
  · obtain rfl | listed := List.mem_cons.mp listed
    · exact without
    · exact none m listed

/-- A pointer is never to the bytes behind the header that was compared. -/
theorem sdtHeaderAdd_ne (sdt : BitVec 64) :
    sdtHeaderAdd sdt sdtHeaderSize ≠ sdt + BitVec.ofNat 64 sdtHeaderSize := by
  simp only [sdtHeaderAdd, sdtHeaderSize]
  bv_omega

/-- The pointer goes behind the header of another table, if it is not `NULL`. -/
theorem FindsBody.mistaken {base : BitVec 64} (loaded : version ≠ 0) (some' : size ≠ 0)
    (finds : FindsBody boot s mem version (before ++ map :: after) sig size)
    (others : ∀ m ∈ before, sdtHeaderSigCmp mem m sig = false)
    (equal : sdtHeaderSigCmp mem map sig = true) (pages : map.Pages boot s size base)
    (pointer : sdtHeaderAdd (base + map.offset) sdtHeaderSize ≠ 0) :
    map.Mistaken mem sig size (sdtHeaderAdd (base + map.offset) sdtHeaderSize) after := by
  obtain ⟨fuel, map', s', remap, at_sdt⟩ := pages.remap some'
  rw [← at_sdt] at pointer ⊢
  have found : acpiFind boot s fuel mem version (before ++ map :: after) (some sig) size =
      some (sdtHeaderAdd map'.sdt sdtHeaderSize, before ++ map' :: after, s') := by
    rw [acpiFind_loaded loaded, acpiFindLoop_found others equal]
    exact ⟨0, map', remap, rfl, rfl⟩
  obtain ⟨earlier, m, m', first, here, body, covers⟩ := finds fuel _ _ _ found pointer
  obtain ⟨rfl, rfl⟩ | ⟨without, pre, rfl, behind⟩ := first.of_append others
  · have current : map' = m' := by simpa using here
    rw [← current] at body
    exact absurd body (sdtHeaderAdd_ne map'.sdt)
  · have current : m = m' := by
      obtain ⟨later, rfl⟩ := behind.1
      simpa using here
    rw [← current] at body covers
    exact ⟨without, pre, m, behind, body, covers⟩

theorem FindsBody.of_mistaken (loaded : version ≠ 0) (some' : size ≠ 0)
    (only : ∀ before map after, root = before ++ map :: after →
      (∀ m ∈ before, sdtHeaderSigCmp mem m sig = false) → sdtHeaderSigCmp mem map sig = true →
      ∀ base, map.Pages boot s size base → sdtHeaderAdd (base + map.offset) sdtHeaderSize = 0 ∨
        map.Mistaken mem sig size (sdtHeaderAdd (base + map.offset) sdtHeaderSize) after) :
    FindsBody boot s mem version root sig size := by
  intro fuel p root' s' found pointer
  rw [acpiFind_loaded loaded] at found
  cases first : root.find? (sdtHeaderSigCmp mem · sig) with
  | none =>
      rw [acpiFindLoop_missing (by simpa using first)] at found
      cases found
      cases pointer rfl
  | some map =>
      obtain ⟨equal, before, after, rfl, others⟩ := List.find?_eq_some_iff_append.mp first
      replace others : ∀ m ∈ before, sdtHeaderSigCmp mem m sig = false := by simpa using others
      obtain ⟨err, map', remap, rfl, rfl⟩ := (acpiFindLoop_found others equal).mp found
      by_cases ok : err = 0
      · subst ok
        obtain ⟨base, pages, at_sdt⟩ := acpiSdtRemap_pages some' remap
        have or_null := only before map after rfl others equal base pages
        rw [if_pos rfl] at pointer ⊢
        rw [← at_sdt, or_iff_right pointer] at or_null
        obtain ⟨without, pre, m, behind, body, covers⟩ := or_null
        refine ⟨before ++ map :: pre, m, m, behind.append others without, ?_, body, covers⟩
        obtain ⟨later, rfl⟩ := behind.1
        simp
      · cases pointer (if_neg ok)

theorem FindsBody.of_not_loaded : FindsBody boot s mem 0 root sig size := by
  intro fuel p root' s' found pointer
  cases root with
  | nil =>
      cases found
      cases pointer rfl
  | cons cur next =>
      cases found
      cases pointer rfl

end

/-- `acpi_find` gives the bytes behind the header exactly if there is no room for the pages of the
    first table that compares equal, or if that one was not meant and the right one is there by chance. -/
theorem findsBody_iff (boot : BootInfo) (s : Vmm) (mem : Memory) (version : Nat) (root : List SdtMap)
    (sig : Nat) (size : BitVec 64) (some' : 1 ≤ size.toNat) :
    FindsBody boot s mem version root sig size ↔ version = 0 ∨
      ∀ before map after, root = before ++ map :: after →
        (∀ m ∈ before, sdtHeaderSigCmp mem m sig = false) → sdtHeaderSigCmp mem map sig = true →
        ∀ base, map.Pages boot s size base →
          sdtHeaderAdd (base + map.offset) sdtHeaderSize = 0 ∨
            map.Mistaken mem sig size (sdtHeaderAdd (base + map.offset) sdtHeaderSize) after := by
  have some' : size ≠ 0 := by
    rintro rfl
    cases some'
  by_cases loaded : version = 0
  · subst loaded
    exact iff_of_true .of_not_loaded (.inl rfl)
  · rw [or_iff_right loaded]
    constructor
    · rintro finds before map after rfl others equal base pages
      rw [or_iff_not_imp_left]
      exact finds.mistaken loaded some' others equal pages
    · exact .of_mistaken loaded some'

/-! ### One table -/

/-- The lists that `__acpi_sdt_map` builds when each table is mapped with its header. -/
inductive AcpiMaps (boot : BootInfo) : List SdtMap → Vmm → Prop
  | none (s : Vmm) : AcpiMaps boot [] s
  | map {root root' s s' fuel alloc paddr size found} : AcpiMaps boot root s →
      sdtHeaderSize ≤ size.toNat →
      acpiSdtMap boot s fuel alloc root paddr size = some (found, root', s') → AcpiMaps boot root' s'

/-- A table at the beginning of the first page of the kernel. -/
def fadtMap : SdtMap := ⟨vmmVmaKernelStart, 1, vmmVmaKernelStart⟩

/-- `"FACP"` at 0, and at the beginning of this table. -/
def fadtMem : Memory :=
  store (store (fun _ => 0) 0 [0x46, 0x41, 0x43, 0x50, 0]) vmmVmaKernelStart.toNat [0x46, 0x41, 0x43, 0x50]

theorem fadtMap_hasSig : fadtMap.HasSig fadtMem 0 := by
  unfold SdtMap.HasSig
  decide

theorem fadtMap_pages (boot : BootInfo) (s : Vmm) : fadtMap.Pages boot s 116 fadtMap.base :=
  .kept (by decide)

theorem fadtMap_mapped : ∃ s, AcpiMaps freeBoot [fadtMap] s := by
  obtain ⟨s', mapped⟩ := @onePageMap_mapPaddr 0xe0000 vmmAttrSave (by decide) (by decide) (by decide)
  have map : acpiSdtMap freeBoot (onePageMap 0x10000) 8 true [] 0xe0000 36 =
      some (some fadtMap, [fadtMap], s') := by
    have base : BitVec.ofNat 64 (roundDown (0xe0000 : BitVec 64).toNat pageSize) = 0xe0000 := by decide
    have pages : vmmCalc ((0xe0000 : BitVec 64) - 0xe0000 + 36).toNat = 1 := by decide
    rw [acpiSdtMap, if_neg (by decide), if_neg (by decide), base]
    dsimp only
    rw [pages, mapped]
    rfl
  exact ⟨s', .map (.none _) (by decide) map⟩

/-- The bytes behind the header of this table are not found, although they are on its page. -/
theorem findsBody_iff_fadt : ¬ FindsBody freeBoot (onePageMap 0x10000) fadtMem 1 [fadtMap] 0 116 := by
  rw [findsBody_iff freeBoot (onePageMap 0x10000) fadtMem 1 [fadtMap] 0 116 (by decide)]
  rintro (loaded | only)
  · cases loaded
  · obtain null | mistaken := only [] fadtMap [] rfl nofun fadtMap_hasSig.cmp _
      (fadtMap_pages freeBoot (onePageMap 0x10000))
    · exact absurd null (by decide)
    · exact mistaken.1 fadtMap_hasSig

theorem not_findsBody : ¬ ∀ (boot : BootInfo) (s : Vmm) (mem : Memory) (version : Nat)
    (root : List SdtMap) (sig : Nat) (size : BitVec 64), AcpiMaps boot root s →
    (∃ map ∈ root, map.HasSig mem sig) → 1 ≤ size.toNat →
    FindsBody boot s mem version root sig size := by
  intro finds
  obtain ⟨s, mapped⟩ := fadtMap_mapped
  have fadt := finds freeBoot s fadtMem 1 [fadtMap] 0 116 mapped
    ⟨fadtMap, List.mem_singleton_self fadtMap, fadtMap_hasSig⟩ (by decide)
  have mistaken := @FindsBody.mistaken _ _ _ _ _ _ fadtMap [] [] _ (by decide) (by decide) fadt nofun
    fadtMap_hasSig.cmp (fadtMap_pages freeBoot s) (by decide)
  exact mistaken.1 fadtMap_hasSig

end Sdx.Core
