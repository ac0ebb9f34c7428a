import Sdx.Mm.PageTreeEdit
import Sdx.Mm.PmmFree
import Sdx.Mm.VmmRoundTrip

/-! # What a failed `vmm_unmap` leaves behind

All that `vmm_unmap` writes to memory is zeros, in the entry of each page before it looks at the
next one. So an address that lost its page does not get one again, and the call is undone by
nothing when it fails at a later page.
-/

namespace Sdx.Mm

/-- Each word is as it was, or zero. -/
def Cleared (mem mem' : PhysMem) : Prop := ∀ t i, mem' t i = mem t i ∨ mem' t i = 0#64

namespace Cleared

variable {mem mem' mem'' : PhysMem} {cr3 : Frame} {v : BitVec 64}

theorem refl (mem : PhysMem) : Cleared mem mem := fun _ _ => .inl rfl

theorem trans (first : Cleared mem mem') (second : Cleared mem' mem'') : Cleared mem mem'' := by
  intro t i
  obtain same | zero := second t i
  · rw [same]
    exact first t i
  · exact .inr zero

theorem of_hwWrite (done : hwWrite mem cr3 v 0#64 = some mem') : Cleared mem mem' := by
  obtain ⟨paddr, -, rfl⟩ := Option.map_eq_some_iff.mp done
  intro t i
  by_cases here : t = hwFrame paddr ∧ i = hwWord paddr
  · obtain ⟨rfl, rfl⟩ := here
    exact .inr (PhysMem.set_same ..)
  · exact .inl (PhysMem.set_slot _ _ fun frame word => here ⟨frame, word⟩)

/-- A walk ends as before, or with no page. -/
theorem walk (cleared : Cleared mem mem') (v : BitVec 64) (level : Nat) (table : Frame) :
    (hwWalk mem' v level table).2 = none ∨
      (hwWalk mem' v level table).2 = (hwWalk mem v level table).2 := by
  induction level generalizing table with
  | zero => exact .inl rfl
  | succ level ih =>
      obtain same | zero := cleared table (hwIndex v (level + 1))
      · simp only [hwWalk, same]
        split
        · exact .inl rfl
        · split
          · exact .inr rfl
          · exact ih _
      · rw [hwWalk_unused zero]
        exact .inl rfl

theorem translate (cleared : Cleared mem mem') (v : BitVec 64) :
    hwTranslate mem' cr3 v = none ∨ hwTranslate mem' cr3 v = hwTranslate mem cr3 v := by
  unfold hwTranslate
  split
  · obtain none | same := cleared.walk v 4 cr3
    · rw [none]
      exact .inl rfl
    · rw [same]
      exact .inr rfl
  · exact .inr rfl

theorem table (cleared : Cleared mem mem') {level : Nat} {table : Frame}
    (reach : HwTable mem' cr3 level table) : HwTable mem cr3 level table := by
  induction reach with
  | pml4 => exact .pml4
  | @next level table i above used small ih =>
      have same : mem' table i = mem table i := (cleared table i).resolve_right used
      rw [same] at used small ⊢
      exact .next level ih used small

/-- The window is there as long as entry 510 is. -/
theorem recursive (cleared : Cleared mem mem') (rec : Recursive mem cr3) (self : mem' cr3 510 ≠ 0#64) :
    Recursive mem' cr3 where
  self := by
    refine ⟨self, ?_⟩
    rw [(cleared cr3 510).resolve_right self]
    exact rec.self.2
  present {level table i} reach used := by
    have same : mem' table i = mem table i := (cleared table i).resolve_right used
    rw [same] at used ⊢
    exact rec.present (cleared.table reach) used
  small {table i} reach := by
    obtain same | zero := cleared table i
    · rw [same]
      exact rec.small (cleared.table reach)
    · rw [zero]
      rfl

end Cleared

/-! ## All that is written is zeros -/

section

variable {s s' : Vmm} {v entry table vaddr : BitVec 64} {attr : BitVec 32} {pml4 : Bool} {err : Int}

/-- The second state has the PML4 of the first, and zeros for some of its words. -/
structure Zeroed (s s' : Vmm) : Prop where
  cr3 : s'.cr3 = s.cr3
  mem : Cleared s.mem s'.mem

theorem Zeroed.refl (s : Vmm) : Zeroed s s := ⟨rfl, .refl _⟩

theorem Zeroed.trans {s'' : Vmm} (first : Zeroed s s') (second : Zeroed s' s'') : Zeroed s s'' :=
  ⟨second.cr3.trans first.cr3, first.mem.trans second.mem⟩

theorem Vmm.write_zeroed (done : s.write v 0#64 = some s') : Zeroed s s' := by
  obtain ⟨mem, write, rfl⟩ := Option.map_eq_some_iff.mp done
  exact ⟨rfl, .of_hwWrite write⟩

theorem vmmFreeTable_zeroed (done : vmmFreeTable s table entry pml4 = some s') : Zeroed s s' := by
  obtain ⟨free, -, done⟩ := Option.bind_eq_some_iff.mp done
  split at done
  · obtain ⟨value, -, done⟩ := Option.bind_eq_some_iff.mp done
    obtain ⟨s₁, write, done⟩ := Option.bind_eq_some_iff.mp done
    obtain ⟨cr3, mem⟩ := Vmm.write_zeroed write
    cases done
    split
    · exact ⟨cr3, mem⟩
    · exact ⟨cr3, mem⟩
  · cases done
    exact .refl s

theorem vmmFreeTables_zeroed (done : vmmFreeTables s vaddr = some s') : Zeroed s s' := by
  obtain ⟨s₁, pt, done⟩ := Option.bind_eq_some_iff.mp done
  obtain ⟨s₂, pd, pdpt⟩ := Option.bind_eq_some_iff.mp done
  exact ((vmmFreeTable_zeroed pt).trans (vmmFreeTable_zeroed pd)).trans (vmmFreeTable_zeroed pdpt)

/-- The rounds of `vmm_unmap`: there is no page, the page cannot be freed, or its entry is cleared. -/
theorem vmmUnmapPage_cases (done : vmmUnmapPage s vaddr attr = some (err, s')) :
    (vmmEntryFromVaddr s vaddr = some none ∧ err = -eFAULT ∧ s' = s) ∨
    ∃ entry value, vmmEntryFromVaddr s vaddr = some (some entry) ∧ s.read entry = some value ∧
      ((err ≠ 0 ∧ vmmFreePage s.pmm value attr = (err, s'.pmm) ∧ s' = { s with pmm := s'.pmm }) ∨
        (err = 0 ∧ (vmmFreePage s.pmm value attr).1 = 0 ∧ ∃ mem,
          hwWrite s.mem s.cr3 entry 0#64 = some mem ∧ Cleared mem s'.mem ∧ s'.cr3 = s.cr3)) := by
  obtain ⟨found, entry, done⟩ := Option.bind_eq_some_iff.mp done
  cases found with
  | none =>
      cases done
      exact .inl ⟨entry, rfl, rfl⟩
  | some at_entry =>
      obtain ⟨value, read, done⟩ := Option.bind_eq_some_iff.mp done
      refine .inr ⟨at_entry, value, entry, read, ?_⟩
      cases free : vmmFreePage s.pmm value attr with
      | mk e pmm =>
          rw [free] at done
          dsimp only at done
          by_cases failed : e ≠ 0
          · rw [if_pos failed] at done
            cases done
            exact .inl ⟨failed, rfl, rfl⟩
          · rw [if_neg failed] at done
            obtain ⟨s₁, write, done⟩ := Option.bind_eq_some_iff.mp done
            obtain ⟨s₂, tables, done⟩ := Option.bind_eq_some_iff.mp done
            cases done
            obtain ⟨mem, written, rfl⟩ := Option.map_eq_some_iff.mp write
            obtain ⟨cr3, cleared⟩ := vmmFreeTables_zeroed tables
            exact .inr ⟨rfl, not_not.mp failed, mem, written, cleared, cr3⟩

theorem vmmUnmapPage_zeroed (done : vmmUnmapPage s vaddr attr = some (err, s')) : Zeroed s s' := by
  obtain ⟨-, -, same⟩ | ⟨entry, value, -, -, ⟨-, -, same⟩ | ⟨-, -, mem, write, cleared, cr3⟩⟩ :=
    vmmUnmapPage_cases done
  · rw [same]
    exact .refl s
  · rw [same]
    exact ⟨rfl, .refl _⟩
  · exact ⟨cr3, (Cleared.of_hwWrite write).trans cleared⟩

theorem vmmUnmap_zeroed {num : Nat} (done : vmmUnmap s vaddr attr num = some (err, s')) :
    Zeroed s s' := by
  induction num generalizing s vaddr with
  | zero =>
      cases done
      exact .refl _
  | succ num ih =>
      rw [vmmUnmap] at done
      obtain ⟨⟨e, s₁⟩, page, done⟩ := Option.bind_eq_some_iff.mp done
      have first := vmmUnmapPage_zeroed page
      dsimp only at done
      split at done
      · cases done
        exact first
      · exact first.trans (ih done)

/-- The page of an address is gone once the word of its entry is zero. -/
theorem hwWalk_cleared (rec : Recursive s.mem s.cr3) {mem mem' : PhysMem} {level : Nat}
    {entry : BitVec 64} (page : (hwWalk s.mem v 4 s.cr3).2 = some (level, entry))
    (write : hwWrite s.mem s.cr3 (vmmPageEntry level v) 0#64 = some mem) (cleared : Cleared mem mem')
    (self : mem' s.cr3 510 ≠ 0#64) : (hwWalk mem' v 4 s.cr3).2 = none := by
  have all := (Cleared.of_hwWrite write).trans cleared
  refine (all.walk v 4 s.cr3).resolve_right fun same => ?_
  -- the entry would be read where there is a zero now
  have rec' : Recursive mem' s.cr3 := all.recursive rec self
  have found := (@vmmFinds { s with mem := mem' } rec' v).page level entry (same.trans page)
  obtain ⟨-, read, used, -⟩ := found
  obtain ⟨paddr, at_entry, rfl⟩ := Option.map_eq_some_iff.mp write
  obtain ⟨paddr', at_entry', value⟩ := Option.map_eq_some_iff.mp read
  dsimp only at at_entry' value
  obtain none | still := @Cleared.translate _ _ s.cr3 all (vmmPageEntry level v)
  · rw [none] at at_entry'
    cases at_entry'
  · rw [still, at_entry] at at_entry'
    cases at_entry'
    obtain kept | zero := cleared (hwFrame paddr) (hwWord paddr)
    · rw [kept, PhysMem.set_same] at value
      exact used value.symm
    · rw [zero] at value
      exact used value.symm

/-- Without entry 510 all reads of tables fault. -/
theorem vmmResolve_faults (gone : s.mem s.cr3 510 = 0#64) (v : BitVec 64) : vmmResolve s v = none := by
  have faults : s.read (vmmPml4Entry v) = none := by
    obtain ⟨slot, -⟩ := hwIndex_windowEntry 510 510 510 (hwIndex v 4)
    have unused : s.mem s.cr3 (hwIndex (vmmEntryAt (windowAddr 510 510 510)
        ((hwIndex v 4).setWidth 64)) 4) = 0#64 := by rw [slot, gone]
    rw [vmmPml4Entry_eq, windowOf, Vmm.read, hwRead, hwTranslate, hwWalk_unused unused]
    split <;> rfl
  rw [vmmResolve, vmmEntryFromVaddr, faults]
  rfl

end

/-! ## The first page -/

section

variable {p : Pmm} {s s' : Vmm} {v vaddr : BitVec 64} {attr : BitVec 32} {err : Int} {addr : Nat}

/-- `pmm_free` of a page fails if it is not allocated, and then the PMM is as it was. -/
theorem pmmFree_one (p : Pmm) (addr : Nat) : ((pmmFree p addr 1).1 ≠ 0 ↔ pmmIsAllocated p addr = false) ∧
    ((pmmFree p addr 1).1 ≠ 0 → (pmmFree p addr 1).2 = p) := by
  unfold pmmFree pmmIsAllocated
  cases found : p.bmPosFromAddr addr with
  | none => exact ⟨by simp [eFAULT], fun _ => rfl⟩
  | some pos =>
      obtain ⟨ready, rfl, inside⟩ := bmPosFromAddr_some found
      simp only [Pmm.bmPosGet_ofFlat]
      cases p.bitAt (p.pageOf addr) with
      | false => exact ⟨by simp [pmmFreeLoop, eFAULT], fun _ => by simp [pmmFreeLoop]⟩
      | true => exact ⟨by simp [pmmFreeLoop], fun failed => absurd rfl failed⟩

/-- The first page of a call of `vmm_unmap` is not mapped, or it is a page of the PMM that is to be
    freed and is not allocated. -/
def FirstFails (s : Vmm) (vaddr : BitVec 64) (attr : BitVec 32) : Prop :=
  vmmEntryFromVaddr s vaddr = some none ∨
    ∃ entry value, vmmEntryFromVaddr s vaddr = some (some entry) ∧ s.read entry = some value ∧
      value &&& pteFlagPMM ≠ 0#64 ∧ attr &&& vmmAttrSave = 0#32 ∧
      pmmIsAllocated s.pmm (vmmEntryToAddr value).toNat = false

theorem vmmFreePage_fails {value : BitVec 64} :
    ((vmmFreePage p value attr).1 ≠ 0 ↔ value &&& pteFlagPMM ≠ 0#64 ∧ attr &&& vmmAttrSave = 0#32 ∧
      pmmIsAllocated p (vmmEntryToAddr value).toNat = false) ∧
    ((vmmFreePage p value attr).1 ≠ 0 → (vmmFreePage p value attr).2 = p) := by
  unfold vmmFreePage
  split
  · next gives =>
      obtain ⟨fails, kept⟩ := pmmFree_one p (vmmEntryToAddr value).toNat
      refine ⟨fails.trans ?_, kept⟩
      simp only [gives.1, gives.2, ne_eq, not_false_eq_true, true_and]
  · next keeps =>
      refine ⟨⟨fun failed => absurd rfl failed, fun ⟨pmm, save, _⟩ => absurd ⟨pmm, save⟩ keeps⟩,
        fun failed => absurd rfl failed⟩

/-- `v` has an address in its page that is not the page itself. -/
theorem vmmResolveEntry_succ (aligned : 4096 ∣ vaddr.toNat) (entry : BitVec 64) :
    vmmResolveEntry entry (vaddr + 1#64) ≠ 0#64 := by
  have odd : (vaddr + 1#64)[0] = true := by
    have lt := vaddr.isLt
    rw [BitVec.getElem_eq_testBit_toNat, Nat.testBit_zero, BitVec.toNat_add, BitVec.toNat_ofNat,
      decide_eq_true_eq]
    omega
  intro zero
  have bit := congrArg (BitVec.getLsbD · 0) zero
  simp only [vmmResolveEntry] at bit
  split at bit <;> simp [odd] at bit

theorem hwWalk_succ (aligned : 4096 ∣ vaddr.toNat) (mem : PhysMem) (table : Frame) :
    hwWalk mem (vaddr + 1#64) 4 table = hwWalk mem vaddr 4 table := by
  have lt := vaddr.isLt
  apply hwWalk_congr_page
  rw [BitVec.toNat_add, BitVec.toNat_ofNat]
  omega

/-- A round that cleared the entry of the page took the page from `vmm_resolve`. -/
theorem vmmResolve_changes (rec : Recursive s.mem s.cr3) (aligned : 4096 ∣ vaddr.toNat)
    {entry : BitVec 64} (found : vmmEntryFromVaddr s vaddr = some (some entry)) {mem : PhysMem}
    (write : hwWrite s.mem s.cr3 entry 0#64 = some mem) (cleared : Cleared mem s'.mem)
    (cr3 : s'.cr3 = s.cr3) :
    vmmResolve s' (vaddr + 1#64) ≠ vmmResolve s (vaddr + 1#64) := by
  have walk := (vmmFinds rec vaddr).entry
  rw [found] at walk
  obtain ⟨⟨level, value⟩, page, at_entry⟩ := Option.map_eq_some_iff.mp (Option.some.inj walk).symm
  dsimp only at at_entry
  subst at_entry
  have before : vmmResolve s (vaddr + 1#64) = some (vmmResolveEntry value (vaddr + 1#64)) := by
    rw [vmmResolve_eq rec, hwWalk_succ aligned, page]
    rfl
  have used := vmmResolveEntry_succ aligned value
  rw [before]
  by_cases self : s'.mem s'.cr3 510 = 0#64
  · rw [vmmResolve_faults self]
    exact Option.some_ne_none _ |>.symm
  · rw [cr3] at self
    have rec' : Recursive s'.mem s'.cr3 := by
      rw [cr3]
      exact ((Cleared.of_hwWrite write).trans cleared).recursive rec self
    rw [vmmResolve_eq rec', cr3, hwWalk_succ aligned, hwWalk_cleared rec page write cleared self]
    exact fun same => used (Option.some.inj same).symm

/-- A failed call of `vmm_unmap` left every address and the PMM's bitmap as they were exactly if it
    failed at the first page. -/
theorem vmmUnmap_atomic_iff (rec : Recursive s.mem s.cr3) (aligned : 4096 ∣ vaddr.toNat) {num : Nat}
    (done : vmmUnmap s vaddr attr num = some (err, s')) (failed : err ≠ 0) :
    ((∀ v, vmmResolve s' v = vmmResolve s v) ∧ s'.pmm.bm = s.pmm.bm) ↔ FirstFails s vaddr attr := by
  obtain _ | num := num
  · cases done
    exact absurd rfl failed
  rw [vmmUnmap] at done
  obtain ⟨⟨e, s₁⟩, page, rest⟩ := Option.bind_eq_some_iff.mp done
  dsimp only at rest
  obtain ⟨found, rfl, rfl⟩ | ⟨entry, value, found, read, ⟨fails, free, same⟩ |
    ⟨rfl, freed, mem, write, cleared, cr3⟩⟩ := vmmUnmapPage_cases page
  · rw [if_pos (by decide)] at rest
    cases rest
    exact ⟨fun _ => .inl found, fun _ => ⟨fun _ => rfl, rfl⟩⟩
  · rw [if_pos fails] at rest
    cases rest
    have fails' : (vmmFreePage s.pmm value attr).1 ≠ 0 := by rwa [free]
    have kept : s'.pmm = s.pmm := by rw [← vmmFreePage_fails.2 fails', free]
    rw [kept] at same
    subst same
    exact ⟨fun _ => .inr ⟨entry, value, found, read, vmmFreePage_fails.1.mp fails'⟩,
      fun _ => ⟨fun _ => rfl, rfl⟩⟩
  · rw [if_neg (not_not.mpr rfl)] at rest
    have later := vmmUnmap_zeroed rest
    have changes := vmmResolve_changes rec aligned found write (cleared.trans later.mem)
      (later.cr3.trans cr3)
    refine ⟨fun same => absurd (same.1 (vaddr + 1#64)) changes, ?_⟩
    rintro (none | ⟨entry', value', found', read', cannot⟩)
    · rw [found] at none
      cases none
    · rw [found] at found'
      cases found'
      rw [read] at read'
      cases read'
      exact absurd freed (vmmFreePage_fails.1.mpr cannot)

/-- Two pages of one PT, at `0` and at `0x2000`. -/
def twoPages : Vmm := { onePageVmm 0x5003 with mem := (onePage 0x5003).set 4 0 0x6003 }

theorem twoPages_recursive : Recursive twoPages.mem twoPages.cr3 := by
  have tree : PageTree (onePage 0x5003) 1 onePageTables := onePage_tree (by decide)
  have at_pt : onePageTables [0, 0, 0] = some 4 := rfl
  have more : PageTree twoPages.mem twoPages.cr3 onePageTables := tree.set_page at_pt rfl (by decide)
  exact more.recursive

/-- From a page that is not mapped, nothing happens. -/
theorem vmmUnmap_atomic_iff_first : ∃ s', vmmUnmap twoPages 0x1000 0 2 = some (-eFAULT, s') ∧
    (((∀ v, vmmResolve s' v = vmmResolve twoPages v) ∧ s'.pmm.bm = twoPages.pmm.bm) ↔
      FirstFails twoPages 0x1000 0) := by
  have run : (vmmUnmap twoPages 0x1000 0 2).map Prod.fst = some (-eFAULT) := by decide
  obtain ⟨⟨err, s'⟩, done, rfl⟩ := Option.map_eq_some_iff.mp run
  exact ⟨s', done, vmmUnmap_atomic_iff twoPages_recursive (by decide) done (by decide)⟩

/-- Of two pages the second is not mapped, and the first is lost. -/
theorem vmmUnmap_not_atomic : Recursive twoPages.mem twoPages.cr3 ∧ 4096 ∣ (0x2000 : BitVec 64).toNat ∧
    ∃ err s', vmmUnmap twoPages 0x2000 0 2 = some (err, s') ∧ err ≠ 0 ∧
      vmmResolve twoPages 0x2000 = some 0x5000 ∧ vmmResolve s' 0x2000 = some 0 := by
  have run : (vmmUnmap twoPages 0x2000 0 2).map
      (fun result => (result.1, vmmResolve result.2 0x2000)) = some (-eFAULT, some 0) := by
    decide
  obtain ⟨⟨err, s'⟩, done, result⟩ := Option.map_eq_some_iff.mp run
  obtain ⟨rfl, gone⟩ := Prod.mk.inj result
  exact ⟨twoPages_recursive, by decide, -eFAULT, s', done, by decide, by decide, gone⟩

end

end Sdx.Mm
