import Xv6.Vm.Table

/-!
# User-chosen addresses and `walk`

`walk` panics on an address at or above `MAXVA`. The copies between kernel and user memory establish
the bound themselves: `copyin` and `copyinstr` through `walkaddr`, `copyout` before its own `walk`
and before it calls `CowHandler`. The store page fault of `usertrap` does not: it hands `stval` to
`CowHandler` as the hardware delivers it, so the panic is reached exactly by the fault addresses from
`MAXVA` on.
-/

set_option autoImplicit false

namespace Xv6.Vm

open Xv6.Base

/-- The page of `va` is a valid user page marked copy-on-write. -/
def CowPage (m : Mem) (pagetable va : Nat) : Prop :=
  ∃ pte, slot m (va / PGSIZE) 2 pagetable = some pte ∧ has (ld64 m pte) PTE_V = true ∧
    has (ld64 m pte) PTE_U = true ∧ has (ld64 m pte) PTE_COW = true

/-- A computation that does not end in `panic("walk")`, whatever the machine state. -/
def NoWalkPanic {α : Type} (x : KM α) : Prop := ∀ s, x s ≠ .error .walk

theorem noWalkPanic_pure {α : Type} (a : α) : NoWalkPanic (pure a) := by
  intro s h
  cases h

/-- The panic of a sequence is the panic of one of its parts. -/
theorem NoWalkPanic.bind {α β : Type} {x : KM α} {f : α → KM β} (hx : NoWalkPanic x)
    (hf : ∀ a, NoWalkPanic (f a)) : NoWalkPanic (x >>= f) := by
  intro s h
  rw [bind_apply] at h
  cases hr : x s with
  | error e =>
    rw [hr, error_bind] at h
    cases h
    exact hx s hr
  | ok p =>
    rw [hr, ok_bind] at h
    exact hf p.1 p.2 h

theorem NoWalkPanic.ite {α : Type} {c : Prop} [Decidable c] {x y : KM α} (hx : c → NoWalkPanic x)
    (hy : ¬ c → NoWalkPanic y) : NoWalkPanic (if c then x else y) := by
  split_ifs with h
  · exact hx h
  · exact hy h

theorem noWalkPanic_of_ok {α : Type} {x : KM α} (h : ∀ s, ∃ r, x s = .ok r) : NoWalkPanic x := by
  intro s he
  obtain ⟨r, hr⟩ := h s
  rw [hr] at he
  cases he

theorem noWalkPanic_readWord (a : Nat) : NoWalkPanic (readWord a) :=
  noWalkPanic_of_ok fun _ => ⟨_, rfl⟩

theorem noWalkPanic_writeWord (a : Nat) (w : Pte) : NoWalkPanic (writeWord a w) :=
  noWalkPanic_of_ok fun _ => ⟨_, rfl⟩

theorem noWalkPanic_memmoveIn (a : Nat) (bs : List UInt8) : NoWalkPanic (memmoveIn a bs) :=
  noWalkPanic_of_ok fun _ => ⟨_, rfl⟩

theorem noWalkPanic_memmove (dst src n : Nat) : NoWalkPanic (memmove dst src n) :=
  noWalkPanic_of_ok fun _ => ⟨_, rfl⟩

theorem noWalkPanic_kalloc : NoWalkPanic kalloc := by
  intro s h
  unfold kalloc at h
  cases hs : s.freelist with
  | nil | cons r next =>
    rw [hs] at h
    cases h

theorem noWalkPanic_kfree (pa : Nat) : NoWalkPanic (kfree pa) := by
  intro s h
  unfold kfree at h
  split_ifs at h
  cases h

/-- Below `MAXVA` a lookup returns. -/
theorem noWalkPanic_walk {va : Nat} (h : va < MAXVA) (pagetable : Nat) : NoWalkPanic (walk pagetable va false) :=
  noWalkPanic_of_ok fun s => ⟨_, walk_false h pagetable s⟩

/-- `walkaddr` tests the bound before it calls `walk`. -/
theorem noWalkPanic_walkaddr (pagetable va : Nat) : NoWalkPanic (walkaddr pagetable va) := by
  refine .ite (fun _ => noWalkPanic_pure 0) fun h => ?_
  refine .bind (noWalkPanic_walk (by omega) pagetable) fun o => ?_
  cases o with
  | none => exact noWalkPanic_pure 0
  | some pte =>
    refine .bind (noWalkPanic_readWord pte) fun w => ?_
    exact .ite (fun _ => noWalkPanic_pure 0) fun _ =>
      NoWalkPanic.ite (fun _ => noWalkPanic_pure 0) fun _ => noWalkPanic_pure _

theorem noWalkPanic_copyinLoop (pagetable : Nat) : ∀ (fuel srcva len : Nat),
    NoWalkPanic (copyinLoop pagetable fuel srcva len)
  | 0, _, _ => noWalkPanic_pure _
  | fuel + 1, srcva, len => by
    refine .ite (fun _ => noWalkPanic_pure _) fun _ => ?_
    refine .bind (noWalkPanic_walkaddr pagetable _) fun pa0 => ?_
    refine .ite (fun _ => noWalkPanic_pure _) fun _ => ?_
    refine .bind (noWalkPanic_of_ok fun s => ⟨_, rfl⟩) fun m => ?_
    exact .bind (noWalkPanic_copyinLoop pagetable fuel _ _) fun r => noWalkPanic_pure _

theorem noWalkPanic_copyinstrLoop (pagetable : Nat) : ∀ (fuel srcva max : Nat),
    NoWalkPanic (copyinstrLoop pagetable fuel srcva max)
  | 0, _, _ => noWalkPanic_pure _
  | fuel + 1, srcva, max => by
    refine .ite (fun _ => noWalkPanic_pure _) fun _ => ?_
    refine .bind (noWalkPanic_walkaddr pagetable _) fun pa0 => ?_
    refine .ite (fun _ => noWalkPanic_pure _) fun _ => ?_
    refine .bind (noWalkPanic_of_ok fun s => ⟨_, rfl⟩) fun m => ?_
    refine .ite (fun _ => noWalkPanic_pure _) fun _ => ?_
    exact .bind (noWalkPanic_copyinstrLoop pagetable fuel _ _) fun r =>
      noWalkPanic_pure _

/-- `CowHandler` has no test of its own: it does not panic in `walk` for addresses below `MAXVA`. -/
theorem noWalkPanic_cowHandler {va : Nat} (h : va < MAXVA) (cur : Nat) : NoWalkPanic (cowHandler cur va) := by
  refine .bind (noWalkPanic_walk h cur) fun o => ?_
  cases o with
  | none => exact noWalkPanic_pure _
  | some pte =>
    refine .bind (noWalkPanic_readWord pte) fun w => ?_
    refine .ite (fun _ => noWalkPanic_pure _) fun _ => ?_
    refine .bind (noWalkPanic_of_ok fun s => ⟨_, rfl⟩) fun cnt => ?_
    refine .ite (fun _ => ?_) fun _ => ?_
    · exact .bind (noWalkPanic_writeWord _ _) fun _ => noWalkPanic_pure _
    · refine .bind noWalkPanic_kalloc fun o => ?_
      cases o with
      | none => exact noWalkPanic_pure _
      | some page =>
        refine .bind (noWalkPanic_readWord pte) fun v => ?_
        refine .bind (noWalkPanic_memmove _ _ _) fun _ => ?_
        refine .bind (noWalkPanic_kfree _) fun _ => ?_
        refine .bind (noWalkPanic_readWord pte) fun u => ?_
        exact .bind (noWalkPanic_writeWord _ _) fun _ => noWalkPanic_pure _

/-- `copyout` tests the page address, which serves its own `walk` and `CowHandler`'s. -/
theorem noWalkPanic_copyoutLoop (cur pagetable : Nat) : ∀ (fuel dstva : Nat) (src : List UInt8),
    NoWalkPanic (copyoutLoop cur pagetable fuel dstva src)
  | 0, _, _ => noWalkPanic_pure _
  | fuel + 1, dstva, src => by
    refine .ite (fun _ => noWalkPanic_pure _) fun _ => ?_
    refine .ite (fun _ => noWalkPanic_pure _) fun hva => ?_
    have hlt : PGROUNDDOWN dstva < MAXVA := by omega
    refine .bind (noWalkPanic_walk hlt pagetable) fun o => ?_
    cases o with
    | none => exact noWalkPanic_pure _
    | some pte =>
      refine .bind (noWalkPanic_readWord pte) fun w => ?_
      refine .ite (fun _ => noWalkPanic_pure _) fun _ => ?_
      refine .bind ?_ fun r => ?_
      · exact .ite (fun _ => noWalkPanic_pure _) fun _ =>
          noWalkPanic_cowHandler hlt cur
      refine .ite (fun _ => noWalkPanic_pure _) fun _ => ?_
      refine .bind (noWalkPanic_readWord pte) fun v => ?_
      refine .bind (noWalkPanic_memmoveIn _ _) fun _ => ?_
      exact noWalkPanic_copyoutLoop cur pagetable fuel _ _

/-- Outside the valid copy-on-write pages `CowHandler` refuses and changes nothing. -/
theorem cowHandler_of_not_cowPage {s : Kmem} {cur va : Nat} (h : va < MAXVA)
    (hc : ¬ CowPage s.mem cur va) : cowHandler cur va s = .ok (-1, s) := by
  rw [cowHandler, bind_apply, walk_false h cur s, ok_bind]
  cases hs : slot s.mem (va / PGSIZE) 2 cur with
  | none => rfl
  | some pte =>
    show (if _ then _ else _ : KM Int) s = _
    rw [ite_run, if_pos]
    · rfl
    · by_contra hflags
      simp only [Bool.or_eq_true, Bool.not_eq_true', not_or, Bool.not_eq_false] at hflags
      exact hc ⟨pte, hs, hflags.1.1, hflags.1.2, hflags.2⟩

/-- A store page fault panics in `walk` exactly for the fault addresses from `MAXVA` on; below, an
address that is no valid copy-on-write page kills the process and changes nothing else. No user
pointer given to `copyin`, `copyinstr`, `copyout` or `fetchaddr` panics in `walk`. -/
theorem user_address_walk_panics_iff (s : Kmem) (cur : Nat) (killed : Bool) (va : Nat) :
    (usertrap cur killed 15 va s = .error .walk ↔ MAXVA ≤ va) ∧
      (va < MAXVA → ¬ CowPage s.mem cur va → usertrap cur killed 15 va s = .ok (true, s)) ∧
      (∀ pagetable len, copyin pagetable va len s ≠ .error .walk) ∧
      (∀ pagetable max, copyinstr pagetable va max s ≠ .error .walk) ∧
      (∀ pagetable src, copyout cur pagetable va src s ≠ .error .walk) ∧
      (∀ sz, fetchaddr cur sz va s ≠ .error .walk) := by
  refine ⟨⟨?_, ?_⟩, ?_, ?_, ?_, ?_, ?_⟩
  · intro hp
    by_contra hva
    refine NoWalkPanic.bind (noWalkPanic_cowHandler (by omega) cur) ?_ s hp
    intro err
    exact noWalkPanic_pure _
  · intro hva
    show (cowHandler cur va >>= _) s = _
    rw [bind_apply, cowHandler, bind_apply, walk_of_le hva]
    rfl
  · intro hva hc
    show (cowHandler cur va >>= _) s = _
    rw [bind_apply, cowHandler_of_not_cowPage hva hc, ok_bind]
    show Except.ok ((killed || true), s) = _
    rw [Bool.or_true]
  · intro pagetable len
    exact noWalkPanic_copyinLoop pagetable len va len s
  · intro pagetable max
    exact noWalkPanic_copyinstrLoop pagetable max va max s
  · intro pagetable src
    exact noWalkPanic_copyoutLoop cur pagetable src.length va src s
  · intro sz
    refine NoWalkPanic.ite (fun _ => noWalkPanic_pure _) (fun _ => ?_) s
    refine NoWalkPanic.bind (noWalkPanic_copyinLoop cur 8 va 8) fun r => ?_
    exact NoWalkPanic.ite (fun _ => noWalkPanic_pure _) fun _ => noWalkPanic_pure _

/-- A store to `MAXVA` by a process with an empty page table stops the kernel. -/
theorem store_fault_at_maxva_panics :
    ¬ ∀ (s : Kmem) (cur : Nat) (killed : Bool) (va : Nat), va < 2 ^ 64 →
      usertrap cur killed 15 va s ≠ .error .walk := by
  intro h
  exact h (Kmem.reset KERNBASE fun _ => 0) 0x80010000 false MAXVA (by decide) rfl

/-- At address 0 the same process is killed instead. -/
theorem user_address_walk_panics_iff_zero :
    usertrap 0x80010000 false 15 0 (Kmem.reset KERNBASE fun _ => 0) =
      .ok (true, Kmem.reset KERNBASE fun _ => 0) := by
  refine (user_address_walk_panics_iff (Kmem.reset KERNBASE fun _ => 0) 0x80010000 false 0).2.1 (by decide) ?_
  rintro ⟨pte, hpte, -⟩
  have hnone : slot (Kmem.reset KERNBASE fun _ => 0).mem (0 / PGSIZE) 2 0x80010000 = none := by decide
  rw [hnone] at hpte
  cases hpte

end Xv6.Vm
