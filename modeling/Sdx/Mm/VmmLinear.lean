import Sdx.Mm.VmmWalk

/-! # `vmm_resolve` inside a page (`mm/vmm.c`)

The addresses of a page have the same entry. `vmm_resolve` puts the low bits of the address to
what it keeps of the entry, so it goes on byte by byte as long as the entry leaves these bits
alone; it clears the lowest ten of an entry but not the two above them, which are for software.
-/

namespace Sdx.Mm

section

variable {entry v : BitVec 64} {n : Nat}

theorem vmmEntryToAddr_low (le : n ≤ 12) (clear : ∀ i, 10 ≤ i → i < n → entry.getLsbD i = false) :
    (vmmEntryToAddr entry).setWidth n = 0#n := by
  apply BitVec.eq_of_getLsbD_eq
  intro i lt
  rw [BitVec.getLsbD_setWidth, getLsbD_vmmEntryToAddr_sign entry (by omega), if_pos (by omega),
    BitVec.getLsbD_zero]
  by_cases low : 10 ≤ i
  · simp [clear i low lt]
  · simp [low]

/-- Where the entry is clear the bits of the address go through. -/
theorem vmmResolveEntry_mod (le : n ≤ 12) (clear : ∀ i, 10 ≤ i → i < n → entry.getLsbD i = false) :
    (vmmResolveEntry entry v).toNat % 2 ^ n = v.toNat % 2 ^ n := by
  have low := vmmEntryToAddr_low le clear
  have through (mask : BitVec 64) (all : mask.setWidth 12 = BitVec.allOnes 12) :
      (vmmEntryToAddr entry ||| (v &&& mask)).setWidth n = v.setWidth n := by
    have all' : mask.setWidth n = BitVec.allOnes n := by
      rw [← BitVec.setWidth_setWidth_of_le mask le, all]
      apply BitVec.eq_of_getLsbD_eq
      intro i lt
      have lt' : i < 12 := by omega
      rw [BitVec.getLsbD_setWidth, BitVec.getLsbD_allOnes, BitVec.getLsbD_allOnes]
      simp only [lt, lt', decide_true, Bool.and_self]
    rw [BitVec.setWidth_or, BitVec.setWidth_and, low, all', BitVec.and_allOnes, BitVec.zero_or]
  rw [← BitVec.toNat_setWidth, ← BitVec.toNat_setWidth]
  refine congrArg BitVec.toNat ?_
  unfold vmmResolveEntry
  split
  · exact through _ (by decide)
  · exact through _ (by decide)

/-- The bits above depend on the bits above. -/
theorem vmmResolveEntry_div {w : BitVec 64} (same : v.toNat / 2 ^ n = w.toNat / 2 ^ n) :
    (vmmResolveEntry entry v).toNat / 2 ^ n = (vmmResolveEntry entry w).toNat / 2 ^ n := by
  have shifted : v >>> n = w >>> n := by
    apply BitVec.eq_of_toNat_eq
    rw [BitVec.toNat_ushiftRight, BitVec.toNat_ushiftRight, Nat.shiftRight_eq_div_pow,
      Nat.shiftRight_eq_div_pow, same]
  rw [← Nat.shiftRight_eq_div_pow, ← Nat.shiftRight_eq_div_pow, ← BitVec.toNat_ushiftRight,
    ← BitVec.toNat_ushiftRight]
  refine congrArg BitVec.toNat ?_
  unfold vmmResolveEntry
  split
  · rw [BitVec.ushiftRight_or_distrib, BitVec.ushiftRight_and_distrib, shifted,
      ← BitVec.ushiftRight_and_distrib, ← BitVec.ushiftRight_or_distrib]
  · rw [BitVec.ushiftRight_or_distrib, BitVec.ushiftRight_and_distrib, shifted,
      ← BitVec.ushiftRight_and_distrib, ← BitVec.ushiftRight_or_distrib]

end

/-- What `vmm_resolve` returns, where it does not fault. -/
def vmmAddress (s : Vmm) (vaddr : BitVec 64) : Nat := ((vmmResolve s vaddr).getD 0).toNat

/-- The page of an address is mapped. -/
def Vmm.Maps (s : Vmm) (vaddr : BitVec 64) : Prop := (hwWalk s.mem vaddr 4 s.cr3).2 ≠ none

/-- The entry of the page leaves the bits of its frame's addresses alone that are for software. -/
def Vmm.Plain (s : Vmm) (vaddr : BitVec 64) : Prop :=
  ∀ level entry, (hwWalk s.mem vaddr 4 s.cr3).2 = some (level, entry) →
    ∀ i, 10 ≤ i → i < 12 → entry.getLsbD i = false

/-- Inside a block of `2 ^ n` bytes of a mapped page the next byte has the next address: a block of
    1 KiB in any case, and the page if its entry leaves the bits for software alone. -/
theorem vmmAddress_succ {s : Vmm} {v : BitVec 64} (rec : Recursive s.mem s.cr3) (maps : s.Maps v)
    {n : Nat} (le : n ≤ 12) (plain : 10 < n → s.Plain v) (inside : v.toNat % 2 ^ n + 1 < 2 ^ n) :
    vmmAddress s (v + 1#64) = vmmAddress s v + 1 := by
  have lt := v.isLt
  have divides : 2 ^ n ∣ 2 ^ 12 := Nat.pow_dvd_pow 2 le
  have block : (v.toNat + 1) / 2 ^ n = v.toNat / 2 ^ n ∧
      (v.toNat + 1) % 2 ^ n = v.toNat % 2 ^ n + 1 := by
    have parts := Nat.div_add_mod v.toNat (2 ^ n)
    constructor
    · rw [← parts, Nat.add_assoc, Nat.mul_add_div (Nat.two_pow_pos n), Nat.div_eq_of_lt inside]
      rw [Nat.mul_add_div (Nat.two_pow_pos n), Nat.div_eq_of_lt (Nat.mod_lt _ (Nat.two_pow_pos n))]
    · conv_lhs => rw [← parts, Nat.add_assoc, Nat.mul_add_mod, Nat.mod_eq_of_lt inside]
  have page : (v.toNat + 1) / 4096 = v.toNat / 4096 := by
    obtain ⟨c, split⟩ := divides
    rw [show 4096 = 2 ^ 12 from rfl, split, ← Nat.div_div_eq_div_mul, ← Nat.div_div_eq_div_mul,
      block.1]
  have succ : (v + 1#64).toNat = v.toNat + 1 := by
    rw [BitVec.toNat_add, BitVec.toNat_ofNat]
    omega
  have walk := @hwWalk_congr_page (v + 1#64) v s.mem s.cr3 (by rw [succ, page])
  obtain ⟨⟨level, entry⟩, found⟩ := Option.ne_none_iff_exists'.mp maps
  have here (w : BitVec 64) (walk : (hwWalk s.mem w 4 s.cr3).2 = some (level, entry)) :
      vmmAddress s w = (vmmResolveEntry entry w).toNat := by
    rw [vmmAddress, vmmResolve_eq rec, walk]
    rfl
  rw [here v found, here (v + 1#64) (walk ▸ found)]
  have clear : ∀ i, 10 ≤ i → i < n → entry.getLsbD i = false :=
    fun i low high => plain (by omega) level entry found i low (by omega)
  have mod := @vmmResolveEntry_mod entry (v + 1#64) n le clear
  have mod' := @vmmResolveEntry_mod entry v n le clear
  have div := @vmmResolveEntry_div entry (v + 1#64) n v (by rw [succ, block.1])
  rw [succ, block.2] at mod
  rw [← Nat.div_add_mod (vmmResolveEntry entry (v + 1#64)).toNat (2 ^ n), mod, div, ← mod',
    ← Nat.add_assoc, Nat.div_add_mod]

end Sdx.Mm
