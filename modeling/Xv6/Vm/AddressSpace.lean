import Xv6.Vm.Ledger

/-!
# User address spaces

What a process sees of its page table: for every page number of the user area, whether a page is
there, what it may do with it, and the bytes of the page. Whether two processes share the physical
page behind an entry is not visible here, and neither is the difference between a writable entry and
one that becomes writable when it is written: `write` holds for both.
-/

set_option autoImplicit false

namespace Xv6.Vm

open Function Xv6.Base

/-- A page of a process. -/
@[ext]
structure UPage where
  read : Bool
  write : Bool
  exec : Bool
  user : Bool
  bytes : Nat → UInt8

/-- The pages of a process by page number. -/
abbrev UMem := Nat → Option UPage

/-- The address space has a page at every number below `n`, all readable, and no other pages. -/
structure UMem.Pages (M : UMem) (n : Nat) : Prop where
  none : ∀ u, n ≤ u → M u = none
  some : ∀ u, u < n → ∃ p, M u = some p ∧ p.read = true

/-- The bytes of the physical page at `f`. -/
def pageAt (m : Mem) (f : Nat) : Nat → UInt8 := fun i => if i < PGSIZE then m (f + i) else 0

/-- The page behind an entry. -/
def decode (m : Mem) (w : Pte) : Option UPage :=
  if has w PTE_V then
    some {
      read := has w PTE_R
      write := has w PTE_W || has w PTE_COW
      exec := has w PTE_X
      user := has w PTE_U
      bytes := pageAt m (PTE2PA w) }
  else none

/-- The user area of the page table at `r`. -/
def umem (m : Mem) (r : Nat) : UMem := fun v => if v < UPAGES then decode m (pte m r v) else none

theorem pageAt_congr {m m' : Mem} {f : Nat} (h : PageEq m m' f) : pageAt m' f = pageAt m f := by
  funext i
  unfold pageAt
  split_ifs with hi
  · exact h _ (by omega) (by omega)
  · rfl

theorem decode_invalid (m : Mem) {w : Pte} (h : has w PTE_V = false) : decode m w = none := by
  unfold decode
  rw [h]
  rfl

theorem decode_congr {m m' : Mem} {w : Pte}
    (h : has w PTE_V = true → PageEq m m' (PTE2PA w)) : decode m' w = decode m w := by
  unfold decode
  split_ifs with hv
  · rw [pageAt_congr (h hv)]
  · rfl

theorem umem_of_lt (m : Mem) (r : Nat) {v : Nat} (hv : v < UPAGES) : umem m r v = decode m (pte m r v) := if_pos hv

theorem umem_eq_none_iff {m : Mem} {r v : Nat} (hv : v < UPAGES) :
    umem m r v = none ↔ has (pte m r v) PTE_V = false := by
  rw [umem_of_lt m r hv]
  unfold decode
  cases has (pte m r v) PTE_V with
  | false | true => simp

section Views

variable {s s' : Kmem} {r : Nat}

/-- The same entries with unchanged pages show the same address space. -/
theorem umem_congr (hp : pte s'.mem r = pte s.mem r) (hd : KeepsData s s' r) : umem s'.mem r = umem s.mem r := by
  funext v
  unfold umem
  split_ifs with hv
  · rw [hp]
    exact decode_congr fun hval => hd v hv hval
  · rfl

/-- Pages with an owner among `roots` are not changed, so the address spaces there are not. -/
theorem Keeps.umem {roots held : List Nat} (h : Keeps s s' roots held) (hr : r ∈ roots) :
    umem s'.mem r = umem s.mem r :=
  umem_congr (h.pte hr) (h.data hr)

/-- Changing one entry changes one page of the address space. -/
theorem umem_update {m m' : Mem} {v : Nat} {w : Pte} (hv : v < UPAGES) (hp : pte m' r = update (pte m r) v w)
    (hd : ∀ u < UPAGES, u ≠ v → has (pte m r u) PTE_V = true → PageEq m m' (PTE2PA (pte m r u))) :
    umem m' r = update (umem m r) v (decode m' w) := by
  funext u
  by_cases huv : u = v
  · subst huv
    rw [umem_of_lt _ _ hv, hp, update_self, update_self]
  · rw [update_of_ne huv]
    unfold umem
    split_ifs with hu
    · rw [hp, update_of_ne huv]
      exact decode_congr fun hval => hd u hu huv hval
    · rfl

end Views

end Xv6.Vm
