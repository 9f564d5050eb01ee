import Xv6.Vm.FrameAccounting

/-!
# The shape of address spaces

In every state of the system the page table of a live process has its leaves exactly at the pages of
its user area, at `TRAPFRAME` and at `TRAMPOLINE`, all of them at the last level. So the operations
find the pages they expect, and come back; what can still stop the kernel is said in
`exec_meets_step`: the first process exits, a store faults above `MAXVA`, where `CowHandler` calls
`walk` without a test, or memory runs out while the kernel sets itself up.
-/

set_option autoImplicit false

namespace Xv6.Vm

open Xv6.Base

/-- The valid entries of a process's table. -/
theorem UserTable.valid_iff {m : Mem} {trampoline tf r sz : Nat} (h : UserTable m trampoline tf r sz) (v : Nat) :
    has (pte m r v) PTE_V = true ↔ v < npages sz ∨ v = TRAPFRAME / PGSIZE ∨ v = TRAMPOLINE / PGSIZE := by
  have hle := h.npages_le
  have hT : TRAPFRAME / PGSIZE = UPAGES := TRAPFRAME_page
  have hR : TRAMPOLINE / PGSIZE = UPAGES + 1 := TRAMPOLINE_page
  by_cases hv : v < UPAGES
  · constructor
    · intro hval
      refine .inl (Nat.lt_of_not_le fun hge => ?_)
      rw [(umem_eq_none_iff hv).1 (h.pages.none v hge)] at hval
      cases hval
    · rintro (hlt | rfl | rfl)
      · exact (h.leaf hlt).1
      · omega
      · omega
  · rw [h.high v (by omega)]
    constructor
    · intro hval
      by_contra hno
      obtain ⟨-, h1, h2⟩ : ¬v < npages sz ∧ v ≠ TRAPFRAME / PGSIZE ∧ v ≠ TRAMPOLINE / PGSIZE := by
        tauto
      rw [kernelEntry, if_neg h1, if_neg h2, has_zero] at hval
      cases hval
    · rintro (hlt | rfl | rfl)
      · omega
      · rw [kernelEntry, if_pos rfl]
        exact newEntry_valid _ _
      · rw [kernelEntry, if_neg (by decide), if_pos rfl]
        exact newEntry_valid _ _

/-- In every state that the system reaches, the table of a live process has leaves exactly at the
pages of `[0, PGROUNDUP(sz))`, at `TRAPFRAME` and at `TRAMPOLINE`, and none above the last level;
and no operation that can be made next panics over a mapping. -/
theorem address_space_shape {k₀ k : Kernel} {ls : List Label} (h : k₀.Booted)
    (hr : Run Kernel.step k₀ ls k) :
    (∀ i, (k.table.proc i).state ≠ .unused →
      ∃ r tf, (k.table.proc i).mem = ⟨some r, some tf⟩ ∧ Plain k.km.mem 2 r ∧
        ∀ v, has (pte k.km.mem r v) PTE_V = true ↔
          v < PGROUNDUP (k.table.proc i).sz / PGSIZE ∨ v = TRAPFRAME / PGSIZE ∨
            v = TRAMPOLINE / PGSIZE) ∧
    ∀ l e, l.Enabled k → Kernel.exec l k = .error e →
      e ∉ [Panic.mappagesRemap, .uvmunmapNotAligned, .uvmunmapWalk, .uvmunmapNotMapped,
        .uvmunmapNotALeaf, .freewalkLeaf, .uvmcopyPte, .uvmcopyNotPresent, .uvmclear, .loadseg] := by
  have hinv := run_inv h hr
  refine ⟨fun i hi => ?_, fun l e hen he => ?_⟩
  · obtain ⟨r, tf, hm, ht, hl⟩ := hinv.focus hi
    exact ⟨r, tf, hm, hl.plain r (List.mem_cons_self ..), fun v => ht.valid_iff v⟩
  · rcases (exec_meets_step hinv hen).fails e he with ⟨rfl, -⟩ | ⟨rfl, -⟩ | ⟨rfl, -⟩
    · decide
    · decide
    · decide

/-- The first process grows by 5000 bytes, to three pages. -/
theorem address_space_shape_grown :
    ∃ (k : Kernel) (i : Fin NPROC), Run Kernel.step smallMachine [.userinit, .sbrk i 5000] k ∧
      (k.table.proc i).sz = 9096 ∧
      ∃ r tf, (k.table.proc i).mem = ⟨some r, some tf⟩ ∧
        ∀ v, has (pte k.km.mem r v) PTE_V = true ↔
          v < 3 ∨ v = TRAPFRAME / PGSIZE ∨ v = TRAMPOLINE / PGSIZE := by
  have h1 := Run.single (smallMachine.step_after (l := .userinit) (by decide +kernel)
    ⟨(fun _ hi => by cases hi), rfl⟩ (fun _ => by decide +kernel))
  have h2 := h1.snoc ((smallMachine.after .userinit).step_after (l := .sbrk ⟨0, by decide⟩ 5000)
    (by decide +kernel) ⟨fun i hi => by cases hi; decide +kernel, by decide⟩ (fun hi => by cases hi))
  have hsz : (((smallMachine.after .userinit).after (.sbrk ⟨0, by decide⟩ 5000)).table.proc
      ⟨0, by decide⟩).sz = 9096 := by decide +kernel
  obtain ⟨r, tf, hm, -, hv⟩ := (address_space_shape smallMachine_booted h2).1 ⟨0, by decide⟩ (by decide +kernel)
  rw [hsz] at hv
  exact ⟨_, _, h2, hsz, r, tf, hm, hv⟩

end Xv6.Vm
