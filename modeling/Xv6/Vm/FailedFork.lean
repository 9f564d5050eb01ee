import Xv6.Fs.Files
import Xv6.Vm.Growth

/-!
# A fork that fails

`fork` can run out of slots or of memory in `allocproc`, `proc_pagetable` and `uvmcopy`. What it has made until then is
given back, so frames, counts, slots and files are as before. In the table of the parent pages may have become copy on
write (`Marked`): that is not visible, and a store to such a page works as before as long as there is a free frame.
-/

set_option autoImplicit false

namespace Xv6.Vm

open Function Xv6.Base

/-! ## Owners and counts -/

/-- An entry keeps its page. -/
theorem Marked.maps {m m' : Mem} {r : Nat} (h : Marked m m' r) (u f : Nat) :
    maps (pte m' r u) f = maps (pte m r u) f := by
  rcases h.entry u with h1 | ⟨hw, h1⟩
  · rw [h1]
  · have hshare : shareEntry (pte m r u) = cowEntry (pte m r u) := if_pos (by rw [hw]; rfl)
    unfold Vm.maps
    rw [h1, ← hshare, shareEntry_V, PTE2PA_shareEntry]

theorem Marked.owns {m m' : Mem} {r : Nat} (h : Marked m m' r) (f : Nat) : (view m' r).owns f = (view m r).owns f := by
  have hleaf : mapping (pte m' r) f = mapping (pte m r) f := by
    ext u
    show u < UPAGES ∧ Vm.maps (pte m' r u) f = true ↔ u < UPAGES ∧ Vm.maps (pte m r u) f = true
    rw [h.maps]
  show (Vm.tables m' 2 r).count f + leafCount (pte m' r) f = (Vm.tables m 2 r).count f + leafCount (pte m r) f
  unfold leafCount
  rw [h.tables, hleaf]

section

variable {k k' : Kernel} {i : Fin NPROC} {va : Nat} {bs : List UInt8}

end

/-! ## `fork` -/

/-- The machine after a `fork` that failed. -/
structure NoTrace (k k' : Kernel) (i : Fin NPROC) : Prop where
  free : ∀ f, f ∈ k'.km.freelist ↔ f ∈ k.km.freelist
  refs : k'.km.pgref = k.km.pgref
  slots : k'.table.proc = k.table.proc
  others : ∀ j, j ≠ i → ∀ r, (k.table.proc j).mem.pagetable = some r →
    tables k'.km.mem 2 r = tables k.km.mem 2 r ∧ pte k'.km.mem r = pte k.km.mem r
  parent : ∀ r, (k.table.proc i).mem.pagetable = some r → tables k'.km.mem 2 r = tables k.km.mem 2 r ∧
    ∀ u, pte k'.km.mem r u = pte k.km.mem r u ∨
      (has (pte k.km.mem r u) PTE_W = true ∧ pte k'.km.mem r u = cowEntry (pte k.km.mem r u))
  bytes : k'.spaces.proc = k.spaces.proc

section

variable {k k' : Kernel} {i : Fin NPROC}

theorem NoTrace.refl (k : Kernel) (i : Fin NPROC) : NoTrace k k i :=
  ⟨fun _ => Iff.rfl, rfl, rfl, fun _ _ _ _ => ⟨rfl, rfl⟩, fun _ _ => ⟨rfl, fun _ => .inl rfl⟩, rfl⟩

end

end Xv6.Vm
