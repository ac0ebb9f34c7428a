import Sdx.Mm.VmmMapTo
import Sdx.Mm.VmmSync

/-! # Mapping again what is mapped

`vmm_map_exact` leaves the first page of the range out if it is mapped as wanted, and forgets where
the range began. Otherwise it goes through the range without touching it, and all pages are mapped.
-/

namespace Sdx.Mm

variable {boot : BootInfo} {s s' : Vmm} {tables : Tables} {paddr vaddr : BitVec 64} {num j : Nat}
  {attr : BitVec 32}

/-! ## The loop -/

theorem vmmMapToPaddrInternal_vaddr {a : BitVec 64}
    (done : vmmMapToPaddrInternal boot s paddr vaddr num attr = some (a, s')) : a = vaddr := by
  obtain ⟨s'', -, same⟩ := Option.map_eq_some_iff.mp done
  exact (Prod.mk.inj same).1.symm

end Sdx.Mm
