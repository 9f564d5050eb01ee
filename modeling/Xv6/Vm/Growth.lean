import Xv6.Vm.AddressShape

/-!
# Growing and shrinking a process

`growproc` from `kernel/proc.c`. The signed argument is added to the unsigned size modulo `2 ^ 64`. A sum below zero
wraps to a size larger than the process, `uvmdealloc` then does nothing, and `growproc` reports success;
`growproc_exact_iff` says that this is the only case in which the result and the new size disagree.
-/

set_option autoImplicit false

namespace Xv6.Vm

open Xv6.Base

/-- A process of size `sz + n`: the pages that it keeps are as before and those that it gets are zero. -/
structure Grew (k k' : Kernel) (i : Fin NPROC) (n : Int) : Prop where
  size : ((k'.table.proc i).sz : Int) = (k.table.proc i).sz + n
  kept : ∀ v, v < npages (k.table.proc i).sz → v < npages (k'.table.proc i).sz →
    (k'.spaces.proc i).mem v = (k.spaces.proc i).mem v
  added : ∀ v, npages (k.table.proc i).sz ≤ v → v < npages (k'.table.proc i).sz →
    (k'.spaces.proc i).mem v = some (zeroPage PTE_W)
  gone : ∀ v, npages (k'.table.proc i).sz ≤ v → (k'.spaces.proc i).mem v = none

/-- The outcome that the result of `growproc(n)` stands for. -/
def GrowthExact (k k' : Kernel) (i : Fin NPROC) (n e : Int) : Prop :=
  (e = 0 ∧ Grew k k' i n) ∨ (e = -1 ∧ NotGrown k k' i)

section

variable {k k' : Kernel} {i : Fin NPROC} {n : Int}

/-- What a call that succeeds makes of the address space, if the sum does not wrap. -/
theorem Grew.of_sbrk (h : KInv k) (hi : (k.table.proc i).state = .runnable) (hn : n < 2 ^ 31)
    (hge : 0 ≤ ((k.table.proc i).sz : Int) + n)
    (hsp : Spaces.sbrk none i n k.spaces = (((k.table.proc i).sz : Int), k'.spaces)) : Grew k k' i n := by
  obtain ⟨r, tf, hm, ht, -⟩ := h.actor hi
  have hsmall := ht.small
  have hfits : (k.table.proc i).sz ≤ 2 ^ 38 := ht.fits.trans (by decide)
  have hnew : (((k.table.proc i).sz : Int) + n) % 2 ^ 64 = (k.table.proc i).sz + n := Int.emod_eq_of_lt hge (by omega)
  have hsz := k.spaces_sz i
  have hnone : ∀ v, npages (k.table.proc i).sz ≤ v → (k.spaces.proc i).mem v = none := by
    intro v hv
    rw [Kernel.spaces_mem hm]
    exact ht.pages.none v hv
  have hspaces : (Spaces.sbrk none i n k.spaces).2 = k'.spaces := congrArg Prod.snd hsp
  -- it is enough to know the size and every page
  have hof : ∀ (newsz : Nat) (M : UMem), k'.spaces.proc i = { k.spaces.proc i with sz := newsz, mem := M } →
      (newsz : Int) = (k.table.proc i).sz + n → (∀ v, M v = if v < npages newsz then
        if v < npages (k.table.proc i).sz then (k.spaces.proc i).mem v else some (zeroPage PTE_W) else none) →
      Grew k k' i n := by
    intro newsz M hproc hnewsz hM
    have hsz' : (k'.table.proc i).sz = newsz := by rw [← k'.spaces_sz, hproc]
    have hmem : (k'.spaces.proc i).mem = M := by rw [hproc]
    refine ⟨by rw [hsz']; exact hnewsz, fun v hv hv' => ?_, fun v hv hv' => ?_, fun v hv => ?_⟩
    · rw [hsz'] at hv'
      rw [hmem, hM, if_pos hv', if_pos hv]
    · rw [hsz'] at hv'
      rw [hmem, hM, if_pos hv', if_neg (by omega)]
    · rw [hsz'] at hv
      rw [hmem, hM, if_neg (by omega)]
  rcases lt_trichotomy n 0 with hneg | rfl | hpos
  · rw [Spaces.sbrk_shrink hneg (by rw [hsz, hnew]; omega), hsz, hnew] at hspaces
    have hle : npages ((k.table.proc i).sz + n).toNat ≤ npages (k.table.proc i).sz :=
      npages_le_of_le (by omega) hsmall
    refine hof _ _ (by rw [← hspaces, ProcTable.set_self]) (by omega) fun v => ?_
    unfold UMem.shrink
    split_ifs with h1 h2 h3 <;> first | rfl | omega | exact hnone v (by omega)
  · rw [Spaces.sbrk_stay (by decide) (fun hc => absurd hc.1 (by decide))] at hspaces
    refine hof (k.table.proc i).sz (k.spaces.proc i).mem (by rw [← hspaces, ← hsz]) (by omega) fun v => ?_
    split_ifs with h1
    · rfl
    · exact hnone v (by omega)
  · rw [Spaces.sbrk_grow hpos, hsz, hnew] at hspaces
    have hle : npages (k.table.proc i).sz ≤ npages ((k.table.proc i).sz + n).toNat :=
      npages_le_of_le (by omega) (by omega)
    refine hof _ _ (by rw [← hspaces, ProcTable.set_self]) (by omega) fun v => ?_
    unfold UMem.grow
    split_ifs with h1 h2 h3 <;> first | rfl | omega | exact hnone v (by omega)

/-- `growproc(n)` always returns, and its result stands for what has happened exactly when the new size would not be
below zero. -/
theorem growproc_exact_iff (h : KInv k) (hi : (k.table.proc i).state = .runnable) (hn : -2 ^ 31 ≤ n ∧ n < 2 ^ 31) :
    ∃ e k', growproc i n k = .ok (e, k') ∧ KInv k' ∧
      (GrowthExact k k' i n e ↔ 0 ≤ ((k.table.proc i).sz : Int) + n) := by
  obtain ⟨e, k', hrun, hinv, hcase⟩ := (growproc_meets h hi hn).returns
  refine ⟨e, k', hrun, hinv, ?_⟩
  rcases hcase with ⟨rfl, -, hsp, -⟩ | ⟨rfl, hpos, -, hno⟩
  · constructor
    · rintro (⟨-, hgrew⟩ | ⟨he, -⟩)
      · have := hgrew.size
        omega
      · cases he
    · exact fun hge => Or.inl ⟨rfl, .of_sbrk h hi hn.2 hge hsp⟩
  · exact ⟨fun _ => by omega, fun _ => Or.inr ⟨rfl, hno⟩⟩

end

/-- The first process, of one page, as the small machine starts it. -/
@[irreducible]
def firstProcess : Kernel := smallMachine.after .userinit

theorem firstProcess_inv : KInv firstProcess := by
  unfold firstProcess
  exact run_inv smallMachine_booted (Run.single (smallMachine.step_after (l := .userinit) (by decide +kernel)
    ⟨(fun _ hi => by cases hi), rfl⟩ (fun _ => by decide +kernel)))

theorem firstProcess_runnable : (firstProcess.table.proc ⟨0, by decide⟩).state = .runnable := by decide +kernel

theorem firstProcess_size : (firstProcess.table.proc ⟨0, by decide⟩).sz = 4096 := by decide +kernel

/-- A process of 4096 bytes asks for 5000 bytes less: `growproc` returns 0 and the size stays. -/
theorem growproc_wraps :
    growproc ⟨0, by decide⟩ (-5000) firstProcess = .ok (0, firstProcess) ∧
      ¬ GrowthExact firstProcess firstProcess ⟨0, by decide⟩ (-5000) 0 := by
  obtain ⟨e, k', hrun, -, ⟨rfl, -, -, hback⟩ | ⟨-, hpos, -⟩⟩ :=
    (growproc_meets firstProcess_inv firstProcess_runnable (n := -5000) (by decide)).returns
  · obtain rfl := hback (by rw [firstProcess_size]; decide)
    refine ⟨hrun, ?_⟩
    rintro (⟨-, hgrew⟩ | ⟨he, -⟩)
    · have := hgrew.size
      omega
    · cases he
  · exact absurd hpos (by decide)

/-- Asking for all of its memory back works. -/
theorem growproc_exact_iff_all :
    ∃ e k', growproc ⟨0, by decide⟩ (-4096) firstProcess = .ok (e, k') ∧ KInv k' ∧
      GrowthExact firstProcess k' ⟨0, by decide⟩ (-4096) e := by
  obtain ⟨e, k', hrun, hinv, hiff⟩ :=
    growproc_exact_iff firstProcess_inv firstProcess_runnable (n := -4096) (by decide)
  exact ⟨e, k', hrun, hinv, hiff.2 (by rw [firstProcess_size]; decide)⟩

end Xv6.Vm
