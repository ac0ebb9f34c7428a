import Sdx.Mm.VmmGraft

/-! # The states of a mapping

`Mapped` joins the tree with its grafts to the PMM's bitmap: the pages that are marked and
were not at the beginning are those of the new tables and the data pages. Each step of
`vmm_map` and of `vmm_unmap` on a table goes from one such state to another.
-/

namespace Sdx.Mm

variable {boot : BootInfo} {b : MapBase boot}

/-! ## The bitmap -/

/-- The bitmap is the one of `b` with the pages of `data` and of the new tables marked. -/
structure Marked (b : MapBase boot) (pmm : Pmm) (grafts : Grafts) (data : Nat → Prop) : Prop where
  config : pmm.regFree = b.pmm.regFree ∧ pmm.bmMapped = b.pmm.bmMapped ∧
    pmm.bmSize = b.pmm.bmSize ∧ pmm.failed = b.pmm.failed
  bits : ∀ k, pmm.bitAt k = true ↔ b.pmm.bitAt k = true ∨ data k ∨ ∃ path, grafts path = some k
  data_available : ∀ k, data k → b.pmm.Available boot k
  graft : ∀ {path k}, grafts path = some k → b.pmm.Available boot k ∧ ¬ data k

namespace Marked

variable {pmm : Pmm} {grafts : Grafts} {data : Nat → Prop} {path : List Index} {k : Nat}

theorem pageAt (marked : Marked b pmm grafts data) (k : Nat) : pmm.pageAt k = b.pmm.pageAt k := by
  simp only [Pmm.pageAt, marked.config.1]

theorem covered (marked : Marked b pmm grafts data) : pmm.covered = b.pmm.covered := by
  simp only [Pmm.covered, Pmm.bmGetMaxIndex, marked.config.2.2.1]

/-- What the functions over flat positions need of the PMM. -/
theorem usable (marked : Marked b pmm grafts data) : pmm.bmIsReady = true ∧
    pmm.regFree.start < 2 ^ 64 ∧ pmm.covered ≤ 2 ^ 52 ∧ 0 < pmm.covered := by
  have low := b.low
  have ready := b.ready
  have nonempty := b.nonempty
  rw [marked.covered, marked.config.1]
  simp only [pageSize, Pmm.bmIsReady] at *
  rw [marked.config.2.1, marked.config.2.2.1]
  exact ⟨ready, by omega, by omega, nonempty⟩

/-- A page `pmm_alloc` can hand out now is one it could hand out at the beginning, and not in use. -/
theorem available (marked : Marked b pmm grafts data) (here : pmm.Available boot k) :
    b.pmm.Available boot k ∧ ¬ data k ∧ ∀ path, grafts path ≠ some k := by
  have bits := marked.bits k
  obtain ⟨inside, clear, free⟩ := here
  rw [marked.covered] at inside
  rw [marked.pageAt] at free
  rw [clear] at bits
  have none := mt bits.mpr (by simp)
  push Not at none
  exact ⟨⟨inside, by simpa using none.1, free⟩, none.2.1, none.2.2⟩

theorem set_bit (marked : Marked b pmm grafts data) {bm : Nat → BitVec 64}
    (new : b.pmm.Available boot k) (unused : ¬ data k) (gone : grafts path = none)
    (bits : ∀ j, { pmm with bm := bm }.bitAt j = (pmm.bitAt j || decide (j = k))) :
    Marked b { pmm with bm := bm } (Function.update grafts path (some k)) data := by
  refine ⟨marked.config, fun j => ?_, marked.data_available, fun {path' k'} here => ?_⟩
  · rw [bits, Bool.or_eq_true, marked.bits, decide_eq_true_iff]
    constructor
    · rintro ((base | data | ⟨path', graft⟩) | rfl)
      · exact .inl base
      · exact .inr (.inl data)
      · refine .inr (.inr ⟨path', ?_⟩)
        have off : path' ≠ path := by
          rintro rfl
          rw [gone] at graft
          cases graft
        rwa [Function.update_of_ne off]
      · exact .inr (.inr ⟨path, Function.update_self ..⟩)
    · rintro (base | data | ⟨path', graft⟩)
      · exact .inl (.inl base)
      · exact .inl (.inr (.inl data))
      · by_cases here : path' = path
        · rw [here, Function.update_self] at graft
          exact .inr (Option.some.inj graft).symm
        · rw [Function.update_of_ne here] at graft
          exact .inl (.inr (.inr ⟨path', graft⟩))
  · by_cases new' : path' = path
    · rw [new', Function.update_self] at here
      cases here
      exact ⟨new, unused⟩
    · rw [Function.update_of_ne new'] at here
      exact marked.graft here

/-- `pmm_alloc` of one page for a new table. -/
theorem alloc (marked : Marked b pmm grafts data) (gone : grafts path = none) :
    (pmmAlloc boot pmm 1 0).2.failed = pmm.failed + 1 ∨
    ∃ k pmm', pmmAlloc boot pmm 1 0 = (b.pmm.pageAt k, pmm') ∧ b.pmm.Available boot k ∧
      (∀ path, grafts path ≠ some k) ∧
      Marked b pmm' (Function.update grafts path (some k)) data := by
  obtain ⟨ready, start, fits, nonempty⟩ := marked.usable
  obtain fails | ⟨k, bm, result, free, bits⟩ := pmmAlloc_bm boot 0 ready start fits nonempty Nat.one_pos
  · left
    rw [fails]
    rfl
  · right
    obtain ⟨available, unused, fresh⟩ := marked.available (free k (Nat.le_refl k) (by omega))
    refine ⟨k, _, by rw [result, marked.pageAt], available, fresh,
      marked.set_bit available unused gone fun j => ?_⟩
    rw [bits]
    congr 2
    rw [eq_iff_iff]
    omega

/-- `pmm_alloc` of pages for data. -/
theorem allocPages (marked : Marked b pmm grafts data) (align : Nat) {num : Nat} (some_page : 0 < num) :
    pmmAlloc boot pmm num align = (0, pmm.fail) ∨
    ∃ first pmm', pmmAlloc boot pmm num align = (b.pmm.pageAt first, pmm') ∧
      pmm'.failed = pmm.failed ∧
      (∀ k, first ≤ k → k < first + num → b.pmm.Available boot k ∧ ¬ data k) ∧
      Marked b pmm' grafts fun k => data k ∨ first ≤ k ∧ k < first + num := by
  obtain ⟨ready, start, fits, nonempty⟩ := marked.usable
  obtain fails | ⟨first, bm, result, free, bits⟩ :=
    pmmAlloc_bm boot align ready start fits nonempty some_page
  · exact .inl fails
  · right
    have new (k : Nat) (ge : first ≤ k) (lt : k < first + num) := marked.available (free k ge lt)
    refine ⟨first, { pmm with bm := bm }, by rw [result, marked.pageAt], rfl,
      fun k ge lt => ⟨(new k ge lt).1, (new k ge lt).2.1⟩, marked.config,
      fun k => ?_, fun k here => ?_, fun {path k} here => ⟨(marked.graft here).1, ?_⟩⟩
    · rw [bits, Bool.or_eq_true, marked.bits, decide_eq_true_iff]
      tauto
    · obtain here | ⟨ge, lt⟩ := here
      · exact marked.data_available k here
      · exact (new k ge lt).1
    · rintro (old | ⟨ge, lt⟩)
      · exact (marked.graft here).2 old
      · exact (new k ge lt).2.2 path here

/-- `pmm_free` of the page of a new table or of a data page. -/
theorem free_page (marked : Marked b pmm grafts data) (inside : k < b.pmm.covered)
    (set : pmm.bitAt k = true) : ∃ bm, pmmFree pmm (b.pmm.pageAt k) 1 = (0, { pmm with bm := bm }) ∧
      ∀ j, { pmm with bm := bm }.bitAt j = (pmm.bitAt j && !decide (j = k)) := by
  obtain ⟨ready, start, fits, -⟩ := marked.usable
  have marks : ∀ j, k ≤ j → j < k + 1 → j < pmm.covered ∧ pmm.bitAt j = true := by
    intro j ge lt
    obtain rfl : j = k := by omega
    rw [marked.covered]
    exact ⟨inside, set⟩
  obtain ⟨bm, free, bits⟩ := pmmFree_marked ready start fits Nat.one_pos marks
  refine ⟨bm, by rw [← free, marked.pageAt], fun j => ?_⟩
  rw [bits]
  congr 3
  rw [eq_iff_iff]
  omega

theorem free_graft (marked : Marked b pmm grafts data) (here : grafts path = some k)
    (inj : ∀ path', grafts path' = some k → path' = path) :
    ∃ pmm', pmmFree pmm (b.pmm.pageAt k) 1 = (0, pmm') ∧
      Marked b pmm' (Function.update grafts path none) data := by
  obtain ⟨available, unused⟩ := marked.graft here
  obtain ⟨bm, free, bits⟩ := marked.free_page available.1
    ((marked.bits k).mpr (.inr (.inr ⟨path, here⟩)))
  refine ⟨_, free, marked.config, fun j => ?_, marked.data_available, fun {path' k'} graft => ?_⟩
  · rw [bits, Bool.and_eq_true, marked.bits, Bool.not_eq_true', decide_eq_false_iff_not]
    constructor
    · rintro ⟨base | data | ⟨path', graft⟩, off⟩
      · exact .inl base
      · exact .inr (.inl data)
      · refine .inr (.inr ⟨path', ?_⟩)
        have other : path' ≠ path := by
          rintro rfl
          rw [here] at graft
          exact off (Option.some.inj graft).symm
        rwa [Function.update_of_ne other]
    · rintro (base | data | ⟨path', graft⟩)
      · refine ⟨.inl base, ?_⟩
        rintro rfl
        rw [available.2.1] at base
        cases base
      · refine ⟨.inr (.inl data), ?_⟩
        rintro rfl
        exact unused data
      · by_cases cut : path' = path
        · rw [cut, Function.update_self] at graft
          cases graft
        · rw [Function.update_of_ne cut] at graft
          refine ⟨.inr (.inr ⟨path', graft⟩), ?_⟩
          rintro rfl
          exact cut (inj path' graft)
  · by_cases cut : path' = path
    · rw [cut, Function.update_self] at graft
      cases graft
    · rw [Function.update_of_ne cut] at graft
      exact marked.graft graft

theorem free_data (marked : Marked b pmm grafts data) (here : data k) :
    ∃ pmm', pmmFree pmm (b.pmm.pageAt k) 1 = (0, pmm') ∧
      Marked b pmm' grafts (fun j => data j ∧ j ≠ k) := by
  have available := marked.data_available k here
  obtain ⟨bm, free, bits⟩ := marked.free_page available.1 ((marked.bits k).mpr (.inr (.inl here)))
  refine ⟨_, free, marked.config, fun j => ?_, fun j kept => marked.data_available j kept.1,
    fun {path' k'} graft => ⟨(marked.graft graft).1, fun kept => (marked.graft graft).2 kept.1⟩⟩
  · rw [bits, Bool.and_eq_true, marked.bits, Bool.not_eq_true', decide_eq_false_iff_not]
    constructor
    · rintro ⟨base | data | graft, off⟩
      · exact .inl base
      · exact .inr (.inl ⟨data, off⟩)
      · exact .inr (.inr graft)
    · rintro (base | ⟨data, off⟩ | ⟨path', graft⟩)
      · refine ⟨.inl base, ?_⟩
        rintro rfl
        rw [available.2.1] at base
        cases base
      · exact ⟨.inr (.inl data), off⟩
      · refine ⟨.inr (.inr ⟨path', graft⟩), ?_⟩
        rintro rfl
        exact (marked.graft graft).2 here

end Marked

/-! ## Loops over a table -/

theorem ofNat_setWidth {n : Nat} (lt : n < 512) :
    (BitVec.ofNat 9 n).setWidth 64 = BitVec.ofNat 64 n := by
  apply BitVec.eq_of_toNat_eq
  rw [BitVec.toNat_setWidth, BitVec.toNat_ofNat, BitVec.toNat_ofNat]
  omega

/-- A table whose entries can be read is free exactly if they are all zero. -/
theorem vmmIsTableFree_eq {s : Vmm} {table : BitVec 64} {row : Index → BitVec 64}
    (read : ∀ i : Index, s.read (vmmEntryAt table (i.setWidth 64)) = some (row i)) :
    ∃ free, vmmIsTableFree s table = some free ∧ (free = true ↔ ∀ i, row i = 0#64) := by
  have loop : ∀ count, count ≤ 512 → ∃ free, vmmIsTableFreeLoop s table count = some free ∧
      (free = true ↔ ∀ i : Index, 512 ≤ i.toNat + count → row i = 0#64) := by
    intro count
    induction count with
    | zero =>
        intro _
        refine ⟨true, rfl, fun _ i last => ?_, fun _ => rfl⟩
        have lt := i.isLt
        omega
    | succ count ih =>
        intro le
        obtain ⟨free, rest, all⟩ := ih (by omega)
        obtain ⟨j, value, here⟩ : ∃ j : Index, j.toNat = 512 - (count + 1) ∧
            s.read (vmmEntryAt table (BitVec.ofNat 64 (512 - (count + 1)))) = some (row j) := by
          have here := read (BitVec.ofNat 9 (512 - (count + 1)))
          rw [ofNat_setWidth (by omega)] at here
          exact ⟨_, by rw [BitVec.toNat_ofNat]; omega, here⟩
        have step : (∀ i : Index, 512 ≤ i.toNat + (count + 1) → row i = 0#64) ↔
            row j = 0#64 ∧ ∀ i : Index, 512 ≤ i.toNat + count → row i = 0#64 := by
          constructor
          · intro zero
            exact ⟨zero _ (by omega), fun i last => zero i (by omega)⟩
          · rintro ⟨first, zero⟩ i last
            by_cases eq : i.toNat = 512 - (count + 1)
            · rw [← first]
              congr 1
              exact BitVec.eq_of_toNat_eq (eq.trans value.symm)
            · exact zero i (by omega)
        rw [step]
        unfold vmmIsTableFreeLoop
        simp only [pteCount, here, Option.bind_eq_bind, Option.bind_some, rest]
        by_cases used : row j = 0#64
        · exact ⟨free, by simp [used], by simp [used, all]⟩
        · exact ⟨false, by simp [used], by simp [used]⟩
  obtain ⟨free, result, all⟩ := loop 512 (Nat.le_refl _)
  exact ⟨free, result, all.trans ⟨fun zero i => zero i (by omega), fun zero i _ => zero i⟩⟩

/-- The memory with the first words of a frame cleared. -/
def PhysMem.clear (mem : PhysMem) (f : Frame) (words : Nat) : PhysMem :=
  Function.update mem f fun i => if i.toNat < words then 0#64 else mem f i

theorem PhysMem.clear_set {mem : PhysMem} {f : Frame} {j : Index} :
    (mem.set f j 0#64).clear f j.toNat = mem.clear f (j.toNat + 1) := by
  funext t i
  by_cases frame : t = f
  · subst frame
    simp only [clear, Function.update_self]
    by_cases last : i = j
    · subst last
      simp
    · have other : i.toNat ≠ j.toNat := fun eq => last (BitVec.eq_of_toNat_eq eq)
      have bound : i.toNat < j.toNat ↔ i.toNat < j.toNat + 1 := by omega
      rw [set_index _ _ last]
      simp only [bound]
  · simp [clear, frame]

/-- `bzero` of words in frame `f` clears them, if writes to the frame do not move it. -/
theorem bzero_clear {s : Vmm} {table : BitVec 64} {f : Frame} {words : Nat} (le : words ≤ 512)
    (write : ∀ mem' : PhysMem, (∀ t, t ≠ f → mem' t = s.mem t) → ∀ i : Index,
      hwWrite mem' s.cr3 (vmmEntryAt table (i.setWidth 64)) 0#64 = some (mem'.set f i 0#64)) :
    s.bzero table words = some { s with mem := s.mem.clear f words } := by
  have loop : ∀ n, n ≤ 512 → ∀ mem' : PhysMem, (∀ t, t ≠ f → mem' t = s.mem t) →
      { s with mem := mem' }.bzero table n = some { s with mem := mem'.clear f n } := by
    intro n
    induction n with
    | zero =>
        intro _ mem' _
        simp [Vmm.bzero, PhysMem.clear]
    | succ n ih =>
        intro le mem' same
        obtain ⟨j, rfl, at_word⟩ : ∃ j : Index, j.toNat = n ∧
            j.setWidth 64 = BitVec.ofNat 64 n := by
          refine ⟨BitVec.ofNat 9 n, ?_, ofNat_setWidth (by omega)⟩
          rw [BitVec.toNat_ofNat]
          omega
        have here := write mem' same j
        have rest := ih (by omega) (mem'.set f j 0#64) fun t off => by
          rw [PhysMem.set_frame _ _ off, same t off]
        rw [at_word] at here
        simp only [Vmm.bzero, Vmm.write, here, Option.map_some, Option.bind_eq_bind,
          Option.bind_some]
        rw [rest, PhysMem.clear_set]
  exact loop words le s.mem fun _ _ => rfl

/-- `bzero` of a table in frame `f` clears the frame. -/
theorem bzero_eq {s : Vmm} {table : BitVec 64} {f : Frame}
    (write : ∀ mem' : PhysMem, (∀ t, t ≠ f → mem' t = s.mem t) → ∀ i : Index,
      hwWrite mem' s.cr3 (vmmEntryAt table (i.setWidth 64)) 0#64 = some (mem'.set f i 0#64)) :
    s.bzero table pteCount = some { s with mem := Function.update s.mem f fun _ => 0#64 } := by
  refine (bzero_clear (Nat.le_refl 512) write).trans ?_
  congr 2
  unfold PhysMem.clear
  congr 1
  funext i
  exact if_pos i.isLt

/-! ## The PMM behind writes -/

section

variable {s s' : Vmm}

theorem Vmm.write_pmm {vaddr value : BitVec 64} (done : s.write vaddr value = some s') :
    s'.pmm = s.pmm := by
  obtain ⟨mem, -, rfl⟩ := Option.map_eq_some_iff.mp done
  rfl

theorem Vmm.writeFlags_pmm {entry flags : BitVec 64} (done : s.writeFlags entry flags = some s') :
    s'.pmm = s.pmm := by
  obtain ⟨old, -, done⟩ := Option.bind_eq_some_iff.mp done
  exact write_pmm done

theorem Vmm.bzero_pmm {table : BitVec 64} {words : Nat} (done : s.bzero table words = some s') :
    s'.pmm = s.pmm := by
  induction words generalizing s with
  | zero =>
      cases done
      rfl
  | succ words ih =>
      obtain ⟨s₁, word, done⟩ := Option.bind_eq_some_iff.mp done
      exact (ih done).trans (write_pmm word)

/-- Getting a table changes the PMM by at most one `pmm_alloc`. -/
theorem vmmGetTable_pmm {entry table flags old : BitVec 64} {pml4 : Bool}
    (read : s.read entry = some old)
    (done : vmmGetTable boot s entry table flags pml4 = some s') :
    s'.pmm = if old = 0#64 then (pmmAlloc boot s.pmm 1 0).2 else s.pmm := by
  simp only [vmmGetTable, read, Option.bind_eq_bind, Option.bind_some] at done
  split at done
  · next unused =>
      obtain ⟨s₁, link, done⟩ := Option.bind_eq_some_iff.mp done
      obtain ⟨s₂, flag, done⟩ := Option.bind_eq_some_iff.mp done
      have kept : s₂.pmm = (pmmAlloc boot s.pmm 1 0).2 :=
        (Vmm.writeFlags_pmm flag).trans (Vmm.write_pmm link)
      rw [if_pos unused, Vmm.bzero_pmm done, ← kept]
      split <;> rfl
  · next used =>
      rw [if_neg used, Vmm.writeFlags_pmm done]
      split <;> rfl

end

/-! ## A new table -/

/-- Linking a new table: the entry is written twice, and the table is cleared through the window. -/
theorem PageTree.linkTable {s : Vmm} {tables : Tables} {path : List Index} {i : Index} {t f : Frame}
    {paddr flags : BitVec 64} (tree : PageTree s.mem s.cr3 tables) (branch : Branch path i)
    (at_path : tables path = some t) (pmm : Pmm) (pml4 : Bool)
    (fresh : ∀ path', tables path' ≠ some f) (pointer : hwPointer (paddr ||| flags))
    (frame : hwFrame (paddr ||| flags) = f) :
    (do
      let s₁ ← { s with pmm := pmm }.write (vmmEntryAt (windowOf path) (i.setWidth 64)) paddr
      let s₂ ← s₁.writeFlags (vmmEntryAt (windowOf path) (i.setWidth 64)) flags
      (if pml4 then s₂.alertTasks else s₂).bzero (windowOf (path ++ [i])) pteCount) =
    some { s with
      pmm := pmm
      mem := Function.update (s.mem.set t i (paddr ||| flags)) f fun _ => 0#64
      alerts := if pml4 then s.alerts + 1 else s.alerts } := by
  have apart : t ≠ f := fun eq => fresh path (eq ▸ at_path)
  have short := branch.1
  -- with the entry written, the way to the slot is still the same
  obtain ⟨self₁, follow₁⟩ := @PageTree.agree _ (s.mem.set t i paddr) _ _ tree _ _ _ _ at_path branch.2
    fresh fun t' j _ off => PhysMem.set_slot _ _ off
  have write := tree.write at_path i paddr
  have readBack := self₁.read_windowOf (by omega) follow₁ i
  have writeBack := self₁.write_windowOf (by omega) follow₁ i (paddr ||| flags)
  rw [PhysMem.set_same] at readBack
  rw [PhysMem.set_set] at writeBack
  have clear : ∀ s₂ : Vmm, s₂.mem = s.mem.set t i (paddr ||| flags) → s₂.cr3 = s.cr3 →
      s₂.bzero (windowOf (path ++ [i])) pteCount = some { s₂ with
        mem := Function.update (s.mem.set t i (paddr ||| flags)) f fun _ => 0#64 } := by
    intro s₂ mem₂ cr3
    rw [← mem₂]
    refine bzero_eq fun mem' same j => ?_
    rw [mem₂] at same
    obtain ⟨self₂, follow₂⟩ := @PageTree.agree _ mem' _ _ tree _ _ _ _ at_path branch.2 fresh
      fun t' j off slot => by rw [same t' off, PhysMem.set_slot _ _ slot]
    have linked : mem' t i = paddr ||| flags := by
      rw [same t apart, PhysMem.set_same]
    have at_new : Mm.follow mem' s.cr3 (path ++ [i]) = some f :=
      follow_concat.mpr ⟨t, follow₂, linked ▸ pointer, linked ▸ frame⟩
    rw [cr3]
    refine self₂.write_windowOf ?_ at_new j 0#64
    rw [List.length_append, List.length_singleton]
    omega
  have first : { s with pmm := pmm }.write (vmmEntryAt (windowOf path) (i.setWidth 64)) paddr =
      some { s with pmm := pmm, mem := s.mem.set t i paddr } := by
    rw [Vmm.write, write]
    rfl
  have second : { s with pmm := pmm, mem := s.mem.set t i paddr }.writeFlags
      (vmmEntryAt (windowOf path) (i.setWidth 64)) flags =
      some { s with pmm := pmm, mem := s.mem.set t i (paddr ||| flags) } := by
    simp only [Vmm.writeFlags, Vmm.read, Vmm.write, readBack, Option.bind_eq_bind, Option.bind_some]
    rw [writeBack]
    rfl
  rw [first, Option.bind_eq_bind, Option.bind_some, second, Option.bind_some]
  cases pml4 with
  | false =>
      rw [if_neg (by decide), if_neg (by decide)]
      exact clear { s with pmm := pmm, mem := s.mem.set t i (paddr ||| flags) } rfl rfl
  | true =>
      rw [if_pos rfl, if_pos rfl]
      exact clear (Vmm.alertTasks { s with pmm := pmm, mem := s.mem.set t i (paddr ||| flags) }) rfl rfl

/-! ## States between the two ends -/

structure Mapped (b : MapBase boot) (s : Vmm) (grafts : Grafts) (pages : Pages)
    (data : Nat → Prop) : Prop where
  cr3 : s.cr3 = b.cr3
  mem : Grafted b s.mem grafts pages
  pmm : Marked b s.pmm grafts data

/-- The tables of one state are tables of the other, and the frames of the other that are no tables
    are the same in both. -/
structure Outside (b : MapBase boot) (grafts grafts' : Grafts) (s s' : Vmm) : Prop where
  tables : ∀ {path t}, b.all grafts path = some t → b.all grafts' path = some t
  mem : ∀ {t}, (∀ path, b.all grafts' path ≠ some t) → s'.mem t = s.mem t

namespace Outside

variable {s s' s'' : Vmm} {grafts grafts' grafts'' : Grafts}

theorem refl (b : MapBase boot) (grafts : Grafts) (s : Vmm) : Outside b grafts grafts s s :=
  ⟨id, fun _ => rfl⟩

theorem trans (first : Outside b grafts grafts' s s') (second : Outside b grafts' grafts'' s' s'') :
    Outside b grafts grafts'' s s'' where
  tables at_path := second.tables (first.tables at_path)
  mem off := (second.mem off).trans (first.mem fun path at_path => off path (second.tables at_path))

/-- An entry of a table is written. -/
theorem set {path : List Index} {t : Frame} (at_path : b.all grafts path = some t) {i : Index}
    {value : BitVec 64} (mem : s'.mem = s.mem.set t i value) : Outside b grafts grafts s s' where
  tables := id
  mem off := by
    rw [mem]
    exact PhysMem.set_frame _ _ fun eq => off path (eq ▸ at_path)

/-- A new table is in the tree, or was. -/
theorem graft {path : List Index} {k : Nat} (gone : b.tables path = none ∧ grafts path = none)
    (mem : ∀ {t}, t ≠ b.pmm.frameOf k → (∀ path, b.all grafts path ≠ some t) → s'.mem t = s.mem t) :
    Outside b grafts (Function.update grafts path (some k)) s s' := by
  have tables {q : List Index} {u : Frame} (at_q : b.all grafts q = some u) :
      b.all (Function.update grafts path (some k)) q = some u := by
    by_cases new : q = path
    · rw [new, MapBase.all, gone.1, gone.2] at at_q
      cases at_q
    · rwa [MapBase.all, Function.update_of_ne new]
  refine ⟨tables, fun {u} off => mem (fun eq => off path ?_) fun q at_q => off q (tables at_q)⟩
  rw [MapBase.all, gone.1, Function.update_self, eq]
  rfl

end Outside

namespace Mapped

variable {s s' : Vmm} {grafts : Grafts} {pages : Pages} {data : Nat → Prop} {path : List Index}
  {i : Index} {t : Frame}

theorem read (mapped : Mapped b s grafts pages data) (at_path : b.all grafts path = some t)
    (i : Index) : s.read (vmmEntryAt (windowOf path) (i.setWidth 64)) = some (s.mem t i) := by
  rw [Vmm.read, mapped.cr3]
  exact mapped.mem.tree.read at_path i

theorem write (mapped : Mapped b s grafts pages data) (at_path : b.all grafts path = some t)
    (i : Index) (value : BitVec 64) (pmm : Pmm) :
    { s with pmm := pmm }.write (vmmEntryAt (windowOf path) (i.setWidth 64)) value =
      some { s with pmm := pmm, mem := s.mem.set t i value } := by
  rw [Vmm.write]
  simp only [mapped.cr3]
  rw [mapped.mem.tree.write at_path i value]
  rfl

theorem alertTasks (mapped : Mapped b s grafts pages data) :
    Mapped b s.alertTasks grafts pages data := ⟨mapped.cr3, mapped.mem, mapped.pmm⟩

/-- Linking a new table in a page of the PMM. -/
theorem linkTable (mapped : Mapped b s grafts pages data) (branch : Branch path i)
    (at_path : b.all grafts path = some t) {k : Nat} {pmm : Pmm} (pml4 : Bool)
    (available : b.pmm.Available boot k) (fresh : ∀ path', grafts path' ≠ some k) :
    (do
      let s₁ ← { s with pmm := pmm }.write (vmmEntryAt (windowOf path) (i.setWidth 64))
        (BitVec.ofNat 64 (b.pmm.pageAt k))
      let s₂ ← s₁.writeFlags (vmmEntryAt (windowOf path) (i.setWidth 64)) b.flags
      (if pml4 then s₂.alertTasks else s₂).bzero (windowOf (path ++ [i])) pteCount) =
    some { s with
      pmm := pmm
      mem := Function.update (s.mem.set t i (b.pointer k)) (b.pmm.frameOf k) fun _ => 0#64
      alerts := if pml4 then s.alerts + 1 else s.alerts } := by
  have tree := mapped.mem.tree
  rw [← mapped.cr3] at tree
  obtain ⟨pointer, frame⟩ := b.pointer_spec available.1
  exact tree.linkTable branch at_path pmm pml4 (mapped.mem.fresh_frame available fresh) pointer frame

/-- `vmm_map` gets the table below a slot: it is there, or it is new. -/
theorem getTable (mapped : Mapped b s grafts pages data) (branch : Branch path i)
    (at_path : b.all grafts path = some t)
    (slot : b.old path i = 0#64 ∨ hwPointer (b.old path i)) {pml4 : Bool}
    (done : vmmGetTable boot s (vmmEntryAt (windowOf path) (i.setWidth 64))
      (windowOf (path ++ [i])) b.flags pml4 = some s')
    (ok : s'.pmm.failed = s.pmm.failed) :
    ∃ grafts', Mapped b s' grafts' pages data ∧ (b.all grafts' (path ++ [i])).isSome ∧
      (∀ path', path' ≠ path ++ [i] → grafts' path' = grafts path') ∧
      Outside b grafts grafts' s s' := by
  have read := mapped.read at_path i
  have pmm := vmmGetTable_pmm read done
  simp only [vmmGetTable, read, Option.bind_eq_bind, Option.bind_some] at done
  split at done
  · next unused =>
      rw [if_pos unused] at pmm
      obtain ⟨-, none, gone, -⟩ := mapped.mem.empty_slot branch at_path unused
      obtain fails | ⟨k, pmm', alloc, available, fresh, marked⟩ := mapped.pmm.alloc gone
      · rw [pmm, fails] at ok
        omega
      · rw [alloc] at done
        have link := @linkTable _ _ _ _ _ _ _ _ _ mapped branch at_path _ pmm' pml4 available fresh
        rw [Option.bind_eq_bind] at link
        cases done.symm.trans link
        refine ⟨_, ⟨mapped.cr3, mapped.mem.graft_new branch at_path unused available fresh, marked⟩,
          ?_, fun path' off => Function.update_of_ne off .., .graft ⟨none, gone⟩ fun {u} apart off => ?_⟩
        · simp [MapBase.all]
        · have other : u ≠ t := fun eq => off path (eq ▸ at_path)
          exact (Function.update_of_ne apart ..).trans (PhysMem.set_frame _ _ other)
  · next used =>
      have high := branch.1
      have grafted := mapped.mem.or_flags at_path high used
      have below : (b.all grafts (path ++ [i])).isSome := by
        obtain ⟨k, here, -⟩ | ⟨-, similar⟩ := mapped.mem.upper at_path high i
        · rw [mapped.mem.all_of_graft here]
          rfl
        · obtain ⟨present, small⟩ := slot.resolve_left (mt similar.eq_zero_iff.mpr used)
          rw [(mapped.mem.pointer_iff branch at_path).mpr
            ⟨⟨similar.hwPresent present, similar.hwLarge.trans small⟩, rfl⟩]
          rfl
      split at done
      · simp only [Vmm.writeFlags, mapped.alertTasks.read at_path i, Option.bind_eq_bind,
          Option.bind_some] at done
        cases done.symm.trans (mapped.alertTasks.write at_path i _ s.pmm)
        exact ⟨grafts, ⟨mapped.cr3, grafted, mapped.pmm⟩, below, fun _ _ => rfl, .set at_path rfl⟩
      · simp only [Vmm.writeFlags, read, Option.bind_eq_bind, Option.bind_some] at done
        cases done.symm.trans (mapped.write at_path i _ s.pmm)
        exact ⟨grafts, ⟨mapped.cr3, grafted, mapped.pmm⟩, below, fun _ _ => rfl, .set at_path rfl⟩

/-- `vmm_unmap` frees the table below a slot if it is empty. If all other new tables are there for a
    page, the tables that are left are, up to those above the slot. -/
theorem freeTable (mapped : Mapped b s grafts pages data) (at_path : b.all grafts path = some t)
    (at_child : (b.all grafts (path ++ [i])).isSome)
    (near : ∀ q k, grafts q = some k → q <+: path ++ [i] ∨ Under pages q) (pml4 : Bool) :
    ∃ s' grafts', vmmFreeTable s (windowOf (path ++ [i]))
        (vmmEntryAt (windowOf path) (i.setWidth 64)) pml4 = some s' ∧
      Mapped b s' grafts' pages data ∧ (∀ q, q ≠ path ++ [i] → grafts' q = grafts q) ∧
      (∀ q k, grafts' q = some k → q <+: path ∨ Under pages q) ∧ Outside b grafts' grafts s' s := by
  obtain ⟨t', at_child⟩ := Option.isSome_iff_exists.mp at_child
  obtain ⟨free, isFree, empty⟩ := vmmIsTableFree_eq (mapped.read at_child)
  have read := mapped.read at_path i
  simp only [vmmFreeTable, isFree, read, Option.bind_eq_bind, Option.bind_some]
  cases free with
  | false =>
      refine ⟨s, grafts, rfl, mapped, fun _ _ => rfl, fun q k here => ?_, .refl b grafts s⟩
      obtain before | under := near q k here
      · obtain rfl | before := List.prefix_concat_iff.mp before
        · right
          rw [mapped.mem.all_of_graft here] at at_child
          cases at_child
          simp only [Bool.false_eq_true, false_iff, not_forall] at empty
          obtain ⟨j, used⟩ := empty
          refine mapped.mem.under here used fun k' child => ?_
          obtain longer | under := near _ k' child
          · have le := longer.length_le
            simp only [List.length_append, List.length_singleton] at le
            omega
          · exact under
        · exact .inl before
      · exact .inr under
  | true =>
      have zero := empty.mp rfl
      obtain old | ⟨-, k, here, rfl⟩ := Grafted.all_cases at_child
      · obtain ⟨j, used⟩ := mapped.mem.old_not_empty old (by simp)
        exact absurd (zero j) used
      have available := (mapped.mem.graft here).2.1
      obtain ⟨-, -, aligned, low⟩ := b.page_spec available.1
      have entry : s.mem t i = b.pointer k := by
        have branch := (mapped.mem.graft_concat here).2.2.1
        obtain ⟨k', here', entry⟩ | ⟨none, -⟩ := mapped.mem.upper at_path branch.1 i
        · rw [here] at here'
          cases here'
          exact entry
        · rw [here] at none
          cases none
      have addr : (vmmEntryToAddr (s.mem t i)).toNat = b.pmm.pageAt k := by
        rw [entry, MapBase.pointer, vmmEntryToAddr_page aligned low (tableFlags_clear b.flags_within),
          BitVec.toNat_ofNat]
        exact Nat.mod_eq_of_lt (by omega)
      obtain ⟨pmm', freed, marked⟩ := mapped.pmm.free_graft here fun path' same =>
        mapped.mem.graft_inj same here
      have grafted := mapped.mem.cut at_path here zero
      have left : ∀ q k', Function.update grafts (path ++ [i]) none q = some k' →
          q <+: path ∨ Under pages q := by
        intro q k' graft
        by_cases cut : q = path ++ [i]
        · rw [cut, Function.update_self] at graft
          cases graft
        · rw [Function.update_of_ne cut] at graft
          obtain before | under := near q k' graft
          · exact .inl ((List.prefix_concat_iff.mp before).resolve_left cut)
          · exact .inr under
      rw [if_pos rfl, addr, freed]
      simp only [mapped.write at_path i]
      refine ⟨_, _, rfl, ?_, fun q off => Function.update_of_ne off .., left, fun {q u} at_q => ?_,
        fun {u} off => ?_⟩
      · cases pml4 with
        | false => exact ⟨mapped.cr3, grafted, marked⟩
        | true => exact ⟨mapped.cr3, grafted, marked⟩
      · by_cases cut : q = path ++ [i]
        · rw [cut, MapBase.all, Function.update_self, (mapped.mem.graft here).1] at at_q
          cases at_q
        · rwa [MapBase.all, Function.update_of_ne cut] at at_q
      · have other : u ≠ t := fun eq => off path (eq ▸ at_path)
        cases pml4 with
        | false => exact (PhysMem.set_frame _ _ other).symm
        | true => exact (PhysMem.set_frame _ _ other).symm

end Mapped

end Sdx.Mm
