import Xv6.Vm.Processes

/-!
# The operations keep the invariant

One lemma per operation of the kernel: it comes back, unless it is one of the few that can stop the kernel,
`KInv` holds again and the address spaces of the processes are those that `Spaces.step` prescribes.
`exec_meets` puts them together.
-/

set_option autoImplicit false

namespace Xv6.Vm

open Xv6.Base

variable {E : Panic → Prop}

section Frames

variable {k : Kernel}

/-- Memory changes in pages that no process sees, and the kernel takes or gives back such pages. -/
theorem KInv.keep (h : KInv k) (k' : Kernel) (htable : k'.table = k.table)
    (htramp : k'.trampoline = k.trampoline) (hl : Ledger k'.km k.roots k'.held)
    (hs : SameSpaces k.km k'.km k.roots) : KInv k' ∧ k'.spaces = k.spaces := by
  have hroots : k'.roots = k.roots := by
    unfold Kernel.roots
    rw [htable]
  refine ⟨⟨by rw [hroots]; exact hl, fun i => ?_, ?_⟩, ?_⟩
  · rw [htable, htramp]
    rcases h.slot i with hfree | ⟨hst, r, tf, hm, ht⟩
    · exact .inl hfree
    · refine .inr ⟨hst, r, tf, hm, ht.sameSpace (hs.space r ?_)⟩
      exact mem_collect (j := i) (by rw [hm])
  · rw [htramp, hs.kend]
    exact h.tramp
  · unfold Kernel.spaces
    rw [htable]
    refine ProcTable.ext (funext fun i => ?_) ?_ ?_
    · have hspace : Image.space k'.km.mem (k.table.proc i).mem = Image.space k.km.mem (k.table.proc i).mem := by
        unfold Image.space
        cases hm : (k.table.proc i).mem.pagetable with
        | none => rfl
        | some r => exact (hs.space r (mem_collect hm)).umem
      rw [ProcTable.map_proc, ProcTable.map_proc, Proc.map, hspace]
      rfl
    · rw [ProcTable.map_nextpid, ProcTable.map_nextpid]
    · rw [ProcTable.map_initproc, ProcTable.map_initproc]

/-- The table changes in what is not memory. -/
theorem KInv.retable (h : KInv k) {t : ProcTable Image} (hmem : ∀ i, (t.proc i).mem = (k.table.proc i).mem)
    (hslot : ∀ i, SlotOk k.km.mem k.trampoline (t.proc i)) : KInv (k.setTable t) := by
  have hroots : (k.setTable t).roots = k.roots := by
    unfold Kernel.roots
    simp only [Kernel.setTable_table, hmem]
  have hheld : (k.setTable t).held = k.held := by
    unfold Kernel.held
    simp only [Kernel.setTable_table, hmem]
    rfl
  refine ⟨?_, hslot, h.tramp⟩
  rw [hroots, hheld]
  exact h.ledger

theorem KInv.nextpid (h : KInv k) (n : Nat) : KInv (k.setTable (k.table.setNextpid n)) :=
  h.retable (fun _ => rfl) h.slot

theorem SlotOk.exit {m : Mem} {trampoline : Nat} {t : ProcTable Image} {i : Fin NPROC} (status : Int)
    (h : ∀ j, SlotOk m trampoline (t.proc j)) (hi : (t.proc i).state = .runnable) (j : Fin NPROC) :
    SlotOk m trampoline ((t.exit i status).proc j) := by
  rw [ProcTable.exit_proc]
  rcases h j with hfree | ⟨hst, hmem⟩
  · have hji : j ≠ i := by
      rintro rfl
      rw [hfree] at hi
      cases hi
    left
    rw [hfree]
    simp [Proc.free, hji]
  · right
    refine ⟨?_, hmem⟩
    by_cases hji : j = i
    · simp [hji]
    · simpa [hji] using hst

/-- `exit` touches no memory; only the first process must not exit. -/
theorem exit_meets {i : Fin NPROC} {status : Int} (h : KInv k)
    (hi : (k.table.proc i).state = .runnable) (hinit : k.table.initproc = some i → E .initExiting) :
    Meets E (exit i status) k fun _ k' => KInv k' ∧ k'.spaces = k.spaces.exit i status ∧ k'.km = k.km ∧
      k.table.initproc ≠ some i := by
  by_cases hfirst : k.table.initproc = some i
  · exact .of_error (if_pos hfirst) (hinit hfirst)
  · refine .of_ok (if_neg hfirst) ⟨h.retable (fun j => ?_) (SlotOk.exit status h.slot hi), ?_, rfl, hfirst⟩
    · rw [ProcTable.exit_proc]
    · exact ProcTable.map_exit _ _ _ _

end Frames

section Steps

variable {k : Kernel} {i : Fin NPROC}

/-- A step after which the address spaces are as they should be. -/
theorem StepOk.done {k' : Kernel} {o : Option Int} {l : Label} (hinv : KInv k') (hex : k'.km.exhausted = k.km.exhausted)
    (h : Spaces.step none l k.spaces = (o, k'.spaces)) : StepOk l k o k' := ⟨hinv, .inl ⟨hex, h⟩⟩

section

variable (h : KInv k) (hi : (k.table.proc i).state = .runnable)
include h hi

theorem exit_step {status : Int} (hinit : k.table.initproc = some i → E .initExiting) :
    Meets E (Kernel.exec (.exit i status)) k (StepOk (.exit i status) k) := by
  refine (exit_meets h hi hinit).bind ?_
  rintro - _ ⟨hinv, hsp, hkm, -⟩
  exact .pure (.done hinv (by rw [hkm]) (by rw [hsp]; rfl))

theorem fault_step {scause stval : Nat} (hne : scause ≠ 15) (hinit : k.table.initproc = some i → E .initExiting) :
    Meets E (Kernel.exec (.fault i scause stval)) k (StepOk (.fault i scause stval) k) := by
  obtain ⟨r, tf, hm, -, -⟩ := h.actor hi
  have htrap : onMem (usertrap r false scause stval) k = .ok (true, k.setMem k.km) :=
    onMem_of_ok (by rw [usertrap, if_neg hne]; rfl)
  refine .bind (R := fun _ k' => KInv k' ∧ k'.spaces = k.spaces.exit i (-1) ∧ k'.km = k.km ∧
    k.table.initproc ≠ some i) ?_ ?_
  · rw [userFault]
    refine .step rfl ?_
    rw [hm]
    exact .step rfl (.step htrap (exit_meets h hi hinit))
  · rintro - _ ⟨hinv, hsp, hkm, -⟩
    exact .pure (.done hinv (by rw [hkm]) (by rw [hsp]; rfl))

theorem copyoutProc_step {dstva : Nat} {src : List UInt8} :
    Meets (fun _ => False) (Kernel.exec (.copyout i dstva src)) k (StepOk (.copyout i dstva src) k) := by
  obtain ⟨r, tf, hm, -, -⟩ := h.actor hi
  refine .map ?_
  rw [copyoutProc]
  refine .step rfl ?_
  rw [hm]
  refine .step rfl ((copyout_meets h hi hm).weaken ?_)
  rintro e _ ⟨km, rfl, hinv, n, hval, hcase⟩
  refine ⟨hinv, ?_⟩
  rcases hcase with ⟨rfl, hex⟩ | ⟨hn, rfl, hex⟩
  · refine .inl ⟨hex, ?_⟩
    show Prod.map some id (Spaces.copyout none i dstva src k.spaces) = _
    rw [hval]
    rfl
  · obtain ⟨n, rfl⟩ := Option.isSome_iff_exists.1 hn
    refine .inr ⟨hex, (n, 0), ?_⟩
    show Prod.map some id (Spaces.copyout (some n) i dstva src k.spaces) = _
    rw [hval]
    rfl

end

/-! ## Pages of the kernel -/

theorem kernelAlloc_step (h : KInv k) :
    Meets (· = Panic.wild) (Kernel.exec .kernelAlloc) k (StepOk .kernelAlloc k) := by
  refine .bind (R := fun _ k' => StepOk .kernelAlloc k none k') ?_ fun _ _ h => .pure h
  rw [kernelAlloc]
  refine .bind (onMem_meets (kalloc_meets h.ledger)) ?_
  rintro _ _ ⟨km, rfl, ⟨rfl, -⟩ | ⟨p, rfl, hl, hk, hex⟩⟩
  · exact .throw rfl
  · have hperm : (p :: k.held).Perm ((k.setMem km).setKpages (p :: k.kpages)).held :=
      List.perm_middle.symm
    obtain ⟨hinv, hsp⟩ := h.keep ((k.setMem km).setKpages (p :: k.kpages)) rfl rfl (hl.permHeld hperm) hk.sameSpaces
    exact .of_ok rfl (.done hinv hex (congrArg (Prod.mk none) hsp.symm))

variable {p : Nat}

/-- The kernel writes to a page that it holds. -/
theorem KInv.writeHeld (h : KInv k) {m : Mem} (hp : p ∈ k.held)
    (hm : ∀ f, f % PGSIZE = 0 → f ≠ p → PageEq k.km.mem m f) :
    KInv (k.setMem { k.km with mem := m }) ∧ (k.setMem { k.km with mem := m }).spaces = k.spaces := by
  have hperm := List.perm_cons_erase hp
  obtain ⟨hl, hk⟩ := (h.ledger.permHeld hperm).writeHeld hm
  exact h.keep _ rfl rfl (hl.permHeld hperm.symm) hk.sameSpaces

theorem kernelWrite_step {a : Nat} {bs : List UInt8} (h : KInv k)
    (hp : ∃ p ∈ k.held, p ≤ a ∧ a + bs.length ≤ p + PGSIZE) :
    Meets (fun _ => False) (Kernel.exec (.kernelWrite a bs)) k (StepOk (.kernelWrite a bs) k) := by
  obtain ⟨p, hp, hle, hlen⟩ := hp
  have hal := (h.ledger.frame (owners_pos_of_held hp)).1
  obtain ⟨hinv, hsp⟩ := h.writeHeld (m := writeBytes k.km.mem a bs) hp fun f hf hne => by
    have hw := pageEq_writeBytes k.km.mem (a - p) hal hf (show a - p + bs.length ≤ PGSIZE by omega) hne
    rwa [Nat.add_sub_cancel' hle] at hw
  exact .of_ok rfl (.done hinv rfl (by rw [hsp]; rfl))

/-- A pipe is given back. -/
theorem pipeFree_meets (h : KInv k) (hp : p ∈ k.pipes) : Meets (fun _ => False) (pipeFree p) k
    fun _ k' => KInv k' ∧ k'.spaces = k.spaces ∧ k'.km.exhausted = k.km.exhausted := by
  have hperm : k.held.Perm (p :: (k.setPipes (k.pipes.erase p)).held) := by
    have h1 := ((List.perm_cons_erase hp).append_left k.kpages).append_left
      (collect fun i => (k.table.proc i).mem.trapframe)
    refine h1.trans ?_
    refine (List.perm_middle.append_left _).trans List.perm_middle
  have hl := h.ledger.permHeld hperm
  refine .bind (onMem_meets (kfree_held_meets hl)) ?_
  rintro - _ ⟨km, rfl, hl, hk, hex⟩
  obtain ⟨hinv, hsp⟩ := h.keep ((k.setMem km).setPipes (k.pipes.erase p)) rfl rfl hl hk.sameSpaces
  exact .of_ok rfl ⟨hinv, hsp, hex⟩

theorem pipeclose_step (h : KInv k) (hp : p ∈ k.pipes) :
    Meets (fun _ => False) (Kernel.exec (.pipeclose p)) k (StepOk (.pipeclose p) k) := by
  refine (pipeFree_meets h hp).bind ?_
  rintro - _ ⟨hinv, hsp, hex⟩
  exact .pure (.done hinv hex (by rw [hsp]; rfl))

/-! ## Stores -/

/-- What the hardware does with a store: the page is written if the entry permits it. -/
theorem hwStore_meets {s : Kmem} {r va : Nat} {rs held : List Nat} {bs : List UInt8}
    (h : Ledger s (r :: rs) held) (hhigh : KernelHigh s.mem r) (hlen : va % PGSIZE + bs.length ≤ PGSIZE) :
    Meets (fun _ => False) (hwStore r va bs) s fun done s' =>
      (done = true ∧ va / PGSIZE < UPAGES ∧ UserEntry (pte s.mem r (va / PGSIZE)) ∧
        has (pte s.mem r (va / PGSIZE)) PTE_W = true ∧ Ledger s' (r :: rs) held ∧ Keeps s s' rs held ∧
        pte s'.mem r = pte s.mem r ∧ umem s'.mem r = (umem s.mem r).put (va / PGSIZE) (va % PGSIZE) bs ∧
        s'.exhausted = s.exhausted) ∨ (done = false ∧ s' = s ∧ ¬(va < MAXVA ∧ UserEntry (pte s.mem r (va / PGSIZE)) ∧
        has (pte s.mem r (va / PGSIZE)) PTE_W = true)) := by
  by_cases hperm : va < MAXVA ∧ has (pte s.mem r (va / PGSIZE)) PTE_V ∧ has (pte s.mem r (va / PGSIZE)) PTE_U ∧
      has (pte s.mem r (va / PGSIZE)) PTE_W
  · obtain ⟨hva, hV, hU, hW⟩ := hperm
    have hv : va / PGSIZE < UPAGES := hhigh.user_lt hU
    obtain ⟨hl, hk, hp, hum⟩ := h.writeUser hv hV (h.writable_alone hv hV hW).1 hlen
    exact .of_ok (if_pos ⟨hva, hV, hU, hW⟩) (.inl ⟨rfl, hv, ⟨hV, hU⟩, hW, hl, hk, hp, hum, rfl⟩)
  · exact .of_ok (if_neg hperm) (.inr ⟨rfl, rfl, fun hp => hperm ⟨hp.1, hp.2.1.1, hp.2.1.2, hp.2.2⟩⟩)

/-- What a writable page of a process is in its table. -/
theorem userEntry_of_space {r va : Nat} {p : UPage} {m : Mem} (hp : umem m r (va / PGSIZE) = some p)
    (hw : (p.user && p.write) = true) : va / PGSIZE < UPAGES ∧ UserEntry (pte m r (va / PGSIZE)) ∧
      (has (pte m r (va / PGSIZE)) PTE_W = true ∨ CowEntry (pte m r (va / PGSIZE))) := by
  have hv : va / PGSIZE < UPAGES := by
    by_contra hle
    rw [umem, if_neg hle] at hp
    cases hp
  rw [Bool.and_eq_true] at hw
  have hval : has (pte m r (va / PGSIZE)) PTE_V = true := by
    by_contra hinv
    rw [(umem_eq_none_iff hv).2 (Bool.eq_false_of_not_eq_true hinv)] at hp
    cases hp
  rw [umem_of_lt _ _ hv, decode, if_pos hval] at hp
  cases hp
  refine ⟨hv, ⟨hval, hw.1⟩, ?_⟩
  rcases Bool.or_eq_true_iff.1 hw.2 with hW | hC
  · exact .inl hW
  · exact .inr ⟨hval, hw.1, hC⟩

/-- The process may write the page of the address. -/
def Kernel.CanWrite (k : Kernel) (i : Fin NPROC) (va : Nat) : Prop :=
  ∃ p, (k.spaces.proc i).mem (va / PGSIZE) = some p ∧ (p.user && p.write) = true

/-- A user store: `CowHandler` is called for any address that faults. The process is ended only if it may not write the
page or there is no frame for a copy. -/
theorem store_meets {va : Nat} {bs : List UInt8} (h : KInv k)
    (hi : (k.table.proc i).state = .runnable) (hlen : va % PGSIZE + bs.length ≤ PGSIZE) :
    Meets (fun e => (e = .walk ∧ MAXVA ≤ va) ∨
        (e = .initExiting ∧ k.table.initproc = some i ∧ (k.CanWrite i va → k.km.freelist = [])))
      (Kernel.exec (.store i va bs)) k fun o k' => StepOk (.store i va bs) k o k' ∧ va < MAXVA ∧
        (k.table.initproc = some i → k.CanWrite i va) ∧ (k.km.exhausted < k'.km.exhausted → k.km.freelist = []) := by
  obtain ⟨r, tf, hm, ht, hl⟩ := h.actor hi
  have hmem := Kernel.spaces_mem hm
  refine .bind (R := fun _ k' => StepOk (.store i va bs) k none k' ∧ va < MAXVA ∧
    (k.table.initproc = some i → k.CanWrite i va) ∧
    (k.km.exhausted < k'.km.exhausted → k.km.freelist = [])) ?_ fun _ _ h => .pure h
  rw [userStore]
  refine .step rfl ?_
  rw [hm]
  refine .step rfl (.bind (onMem_meets ((hwStore_meets hl ht.kernelHigh hlen).mono fun _ => False.elim)) ?_)
  rintro _ _ ⟨km, rfl, ⟨rfl, hv, hu, hW, hl1, hk1, hp1, hum1, hex1⟩ | ⟨rfl, rfl, hno⟩⟩
  · -- the entry permits the store
    rw [if_pos rfl]
    obtain ⟨hinv, hsp⟩ := h.setMem hi hm hl1 hk1.sameSpaces (ht.of_pte hp1)
    obtain ⟨p, hpage, huser, hwrite⟩ := userEntry_umem hv hu
    refine .pure ⟨.done hinv hex1 ?_, lt_MAXVA_of_page hv,
      fun _ => ⟨p, by rw [hmem]; exact hpage, by simp [huser, hwrite, hW]⟩,
      fun hlt => absurd hlt (by rw [Kernel.setMem_km, hex1]; exact Nat.lt_irrefl _)⟩
    rw [hsp, hum1, ← hmem]
    show (none, Spaces.store none i va bs k.spaces) = _
    unfold Spaces.store
    rw [hmem, hpage]
    simp [huser, hwrite, hW]
  rw [if_neg (by decide)]
  by_cases hva : MAXVA ≤ va
  · refine .of_error (e := .walk) ?_ (.inl ⟨rfl, hva⟩)
    have htrap : onMem (usertrap r false 15 va) (k.setMem k.km) = .error .walk := by
      unfold onMem usertrap
      rw [if_pos rfl, cowHandler, bind_apply, bind_apply, walk_of_le hva]
      rfl
    rw [bind_apply, htrap]
    rfl
  obtain ⟨e, km1, hcow⟩ := cowHandler_returns hl ht.kernelHigh (Nat.lt_of_not_le hva)
  have htrap : onMem (usertrap r false 15 va) (k.setMem k.km) = .ok (decide (e < 0), k.setMem km1) :=
    onMem_of_ok (by rw [usertrap, if_pos rfl]; exact bind_of_ok hcow _)
  refine .step htrap ?_
  obtain ⟨hva, hcase⟩ := cowHandler_spec hl ht.kernelHigh hcow
  rcases hcase with ⟨rfl, hnc, rfl⟩ | ⟨rfl, hc, rfl⟩ | ⟨rfl, hc, hv, hl1, hk1, ⟨w, hp1, hV, hU, hW⟩, -, hum1, hex1⟩
  · -- no page that may be written
    have hcannot : ¬ k.CanWrite i va := by
      rintro ⟨p, hpage, hw⟩
      rw [hmem] at hpage
      obtain ⟨-, hu, hW | hC⟩ := userEntry_of_space hpage hw
      · exact hno ⟨hva, hu, hW⟩
      · exact hnc hC
    refine (exit_meets (k := k) h hi fun hinit => .inr ⟨rfl, hinit, fun hw => absurd hw hcannot⟩).weaken ?_
    rintro - k' ⟨hinv, hsp, hkm, hne⟩
    refine ⟨.done hinv (by rw [hkm]) ?_, hva, fun hinit => absurd hinit hne,
      fun hlt => absurd hlt (by rw [hkm]; exact Nat.lt_irrefl _)⟩
    rw [hsp]
    refine congrArg (Prod.mk none) ?_
    unfold Spaces.store
    cases hpage : (k.spaces.proc i).mem (va / PGSIZE) with
    | none => rfl
    | some p =>
      have hnw : (p.user && p.write) = false := Bool.eq_false_of_not_eq_true fun hw => hcannot ⟨p, hpage, hw⟩
      simp only [hnw]
      rfl
  · -- no page left for the copy
    have hfree : k.km.freelist = [] := by
      by_contra hroom
      cases cowHandler_room hl ht.kernelHigh hcow hc hroom
    have hx := h.keep (k.setMem { k.km with exhausted := k.km.exhausted + 1 }) rfl rfl
      h.ledger.exhaust (Keeps.exhaust _ _ k.held).sameSpaces
    refine (exit_meets hx.1 hi fun hinit => Or.inr ⟨rfl, hinit, fun _ => hfree⟩).weaken ?_
    rintro - k' ⟨hinv, hsp, hkm, hne⟩
    refine ⟨⟨hinv, .inr ⟨?_, (0, 0), ?_⟩⟩, hva, fun hinit => absurd hinit hne, fun _ => hfree⟩
    · rw [hkm]
      exact Nat.lt_succ_self _
    · rw [hsp, hx.2]
      rfl
  · -- the page is the process's own now, and the store is made again
    have hpv : pte km1.mem r (va / PGSIZE) = w := by rw [hp1, Function.update_self]
    have hhigh1 : ∀ u, UPAGES ≤ u → pte km1.mem r u = pte k.km.mem r u := fun u hu => by
      rw [hp1, Function.update_of_ne (by omega)]
    have ht1 : UserTable km1.mem k.trampoline tf r (k.table.proc i).sz :=
      ht.congr ht.fits (by rw [hum1]; exact ht.pages) hhigh1
    refine .bind (onMem_meets ((hwStore_meets hl1 ht1.kernelHigh hlen).mono fun _ => False.elim)) ?_
    rintro _ _ ⟨km2, rfl, ⟨-, -, hu, -, hl2, hk2, hp2, hum2, hex2⟩ | ⟨-, -, hno2⟩⟩
    · obtain ⟨hinv, hsp⟩ := h.setMem hi hm hl2 (hk1.trans hk2).sameSpaces (ht1.of_pte hp2)
      obtain ⟨p, hpage, huser, hwrite⟩ := userEntry_umem hv hu
      rw [hum1] at hpage
      refine .pure ⟨.done hinv (hex2.trans hex1) ?_, hva,
        fun _ => ⟨p, by rw [hmem]; exact hpage, by simp [huser, hwrite, hpv, hW]⟩,
        fun hlt => absurd hlt (by rw [Kernel.setMem_km, hex2, hex1]; exact Nat.lt_irrefl _)⟩
      refine congrArg (Prod.mk none) (Eq.trans ?_ hsp.symm)
      rw [hum2, hum1, ← hmem]
      unfold Spaces.store
      rw [hmem, hpage]
      simp [huser, hwrite, hpv, hW]
    · exact absurd ⟨hva, ⟨by rw [hpv]; exact hV, by rw [hpv]; exact hU⟩, by rw [hpv]; exact hW⟩ hno2

/-! ## Reaping -/

/-- A process that is no longer needed is given back. -/
theorem KInv.freeproc_meets {j : Fin NPROC} (h : KInv k) (hj : (k.table.proc j).state ≠ .unused) :
    Meets (fun _ => False) (freeproc j) k fun _ k' => KInv k' ∧
      k'.spaces = k.spaces.set j (Proc.free Spaces.emptySpace) ∧ k'.km.exhausted = k.km.exhausted := by
  obtain ⟨r, tf, hm, ht, hl⟩ := h.focus hj
  refine (Vm.freeproc_meets (R := k.rootsBut j) (H := k.heldBut j) (by rw [hm]; exact hl) fun r' hr' => by
    rw [hm] at hr'
    cases hr'
    exact ⟨tf, ht⟩).weaken ?_
  rintro - _ ⟨km, rfl, hl', hk, hex⟩
  refine ⟨h.put hl' hk.sameSpaces (.inl rfl), ?_, hex⟩
  rw [k.spaces_put hk.sameSpaces]
  rfl

theorem wait_step {addr : Nat} (h : KInv k) (hi : (k.table.proc i).state = .runnable) :
    Meets (fun _ => False) (Kernel.exec (.wait i addr)) k (StepOk (.wait i addr) k) := by
  show Meets _ (wait i addr) k _
  rw [wait]
  refine .step rfl ?_
  cases hz : k.table.zombieChild i with
  | none =>
    have hstep : Spaces.step none (.wait i addr) k.spaces =
        (if k.table.haveKids i then none else some (-1), k.spaces) := by
      show Spaces.wait none i addr k.spaces = _
      unfold Spaces.wait
      rw [show k.spaces.zombieChild i = none from hz]
      rfl
    refine .step rfl ?_
    split_ifs at hstep ⊢
    · exact .pure (.done h rfl hstep)
    · exact .pure (.done h rfl hstep)
  | some j =>
    obtain ⟨r, tf, hm, -, -⟩ := h.actor hi
    refine .step rfl (.step rfl ?_)
    rw [hm]
    -- the exit status is copied out if there is an address for it
    refine .step rfl (.bind (R := fun e k' => KInv k' ∧ k'.table = k.table ∧ ∃ n,
      (if addr ≠ 0 then Spaces.copyout n i addr (intBytes (k.table.proc j).xstate) k.spaces
        else (0, k.spaces)) = (e, k'.spaces) ∧
      ((n = none ∧ k'.km.exhausted = k.km.exhausted) ∨ (n.isSome ∧ e = -1 ∧ k.km.exhausted < k'.km.exhausted))) ?_ ?_)
    · split_ifs
      · refine (copyout_meets h hi hm).weaken ?_
        rintro e _ ⟨km, rfl, hinv, hn⟩
        exact ⟨hinv, rfl, hn⟩
      · exact .pure ⟨h, rfl, none, rfl, .inl ⟨rfl, rfl⟩⟩
    rintro e k1 ⟨hinv, htab, n, hval, hcase⟩
    have hx : (k.spaces.proc j).xstate = (k.table.proc j).xstate := by
      rw [Kernel.spaces_proc]
      rfl
    have hpid : (k.spaces.proc j).pid = (k.table.proc j).pid := by
      rw [Kernel.spaces_proc]
      rfl
    -- what the specification does, for the limit that the copy met
    have hwait : ∀ lim : Option (Nat × Nat), lim.map Prod.fst = n →
        Spaces.wait lim i addr k.spaces = if e < 0 then (some (-1), k1.spaces)
          else (some ((k.table.proc j).pid : Int), k1.spaces.set j (Proc.free Spaces.emptySpace)) := by
      rintro lim rfl
      unfold Spaces.wait
      simp only [show k.spaces.zombieChild i = some j from hz, hx, hpid, hval]
    split_ifs at hwait ⊢ with he
    · refine .pure ⟨hinv, ?_⟩
      rcases hcase with ⟨rfl, hex⟩ | ⟨hn, -, hex⟩
      · exact .inl ⟨hex, hwait none rfl⟩
      · obtain ⟨n, rfl⟩ := Option.isSome_iff_exists.1 hn
        exact .inr ⟨hex, (n, 0), hwait (some (n, 0)) rfl⟩
    · refine (hinv.freeproc_meets (by
        rw [htab, ProcTable.zombieChild_state hz]
        exact ProcState.noConfusion)).bind ?_
      rintro - k' ⟨hinv', hsp, hex'⟩
      rcases hcase with ⟨rfl, hex⟩ | ⟨-, rfl, -⟩
      · refine .pure (.done hinv' (hex'.trans hex) ((hwait none rfl).trans ?_))
        rw [hsp]
      · exact absurd (by decide) he

/-! ## Pipes -/

theorem intBytes_length (x : Int) : (intBytes x).length = 4 := by
  unfold intBytes
  rw [List.length_map, List.length_range]

/-- The page of a new pipe joins the pages that the kernel holds. -/
theorem KInv.newPipe {km : Kmem} {page : Nat} (h : KInv k) (hl : Ledger km k.roots (page :: k.held))
    (hk : Keeps k.km km k.roots k.held) : KInv ((k.setMem km).setPipes (page :: k.pipes)) ∧
      ((k.setMem km).setPipes (page :: k.pipes)).spaces = k.spaces := by
  have hperm : (page :: k.held).Perm ((k.setMem km).setPipes (page :: k.pipes)).held :=
    List.perm_middle.symm.trans (List.perm_middle.symm.append_left _)
  exact h.keep _ rfl rfl (hl.permHeld hperm) hk.sameSpaces

theorem Spaces.copyout_zero (i : Fin NPROC) (dstva : Nat) {src : List UInt8} (h : src.length ≠ 0)
    (t : Spaces) : Spaces.copyout (some 0) i dstva src t = (-1, t) := by
  unfold Spaces.copyout Spaces.setMem
  simp only [Option.getD_some, UMem.copyout, if_neg h]
  rw [show ({ t.proc i with mem := (t.proc i).mem } : Proc UMem) = t.proc i from rfl, ProcTable.set_proc_self]

theorem pipe_step {fdarray : Nat} {fds : Option (Nat × Nat)} (h : KInv k) (hi : (k.table.proc i).state = .runnable) :
    Meets (fun _ => False) (Kernel.exec (.pipe i fdarray fds)) k (StepOk (.pipe i fdarray fds) k) := by
  refine .map ?_
  rw [sysPipe]
  refine .bind (onMem_meets (kalloc_meets h.ledger)) ?_
  rintro _ _ ⟨km, rfl, ⟨rfl, rfl⟩ | ⟨page, rfl, hl, hk, hex⟩⟩
  · obtain ⟨hinv, hsp⟩ := h.keep (k.setMem { k.km with exhausted := k.km.exhausted + 1 }) rfl rfl
      h.ledger.exhaust (Keeps.exhaust _ _ k.held).sameSpaces
    refine Meets.pure ⟨hinv, Or.inr ⟨Nat.lt_succ_self _, (0, 0), ?_⟩⟩
    rw [hsp]
    show Prod.map some id (Spaces.pipe (some (0, 0)) i fdarray fds k.spaces) = _
    unfold Spaces.pipe
    cases fds with
    | none => rfl
    | some fd =>
      obtain ⟨fd0, fd1⟩ := fd
      have hlen : (intBytes fd0).length ≠ 0 := by
        rw [intBytes_length]
        decide
      simp only [Option.map_some, Spaces.copyout_zero i fdarray hlen k.spaces]
      rfl
  obtain ⟨hinv2, hsp2⟩ := h.newPipe hl hk
  refine .step (t := (k.setMem km).setPipes (page :: k.pipes)) rfl ?_
  have hpage : page ∈ ((k.setMem km).setPipes (page :: k.pipes)).pipes := List.mem_cons_self ..
  have hi2 : (((k.setMem km).setPipes (page :: k.pipes)).table.proc i).state = .runnable := hi
  have hex2 : ((k.setMem km).setPipes (page :: k.pipes)).km.exhausted = k.km.exhausted := hex
  generalize (k.setMem km).setPipes (page :: k.pipes) = k1 at hinv2 hsp2 hpage hi2 hex2 ⊢
  -- the new pipe is closed again in a later state
  have hclose : ∀ {k2 : Kernel}, KInv k2 → k2.pipes = k1.pipes →
      (∀ k', KInv k' → k'.spaces = k2.spaces → k'.km.exhausted = k2.km.exhausted →
        StepOk (.pipe i fdarray fds) k (some (-1)) k') →
      Meets (fun _ => False) (do pipeFree page; pure (-1) : SysM Int) k2
        fun e k' => StepOk (.pipe i fdarray fds) k (some e) k' := by
    intro k2 hinv hpipes hok
    refine (pipeFree_meets hinv (by rw [hpipes]; exact hpage)).bind ?_
    rintro - k' ⟨h1, h2, h3⟩
    exact .pure (hok k' h1 h2 h3)
  cases fds with
  | none => exact hclose hinv2 rfl fun k' h1 h2 h3 => .done h1 (h3.trans hex2) (by rw [h2, hsp2]; rfl)
  | some fd =>
    obtain ⟨fd0, fd1⟩ := fd
    obtain ⟨r, tf, hm, -, -⟩ := hinv2.actor hi2
    refine .step rfl ?_
    rw [hm]
    refine .step rfl ((copyout_meets hinv2 hi2 hm).bind ?_)
    rintro e0 _ ⟨km1, rfl, hinv3, n0, hval0, hcase0⟩
    rw [hsp2] at hval0
    split_ifs with he0
    · -- the first descriptor cannot be stored
      have hpipe : ∀ lim : Option (Nat × Nat), lim.map Prod.fst = n0 →
          Spaces.pipe lim i fdarray (some (fd0, fd1)) k.spaces = (-1, (k1.setMem km1).spaces) := by
        rintro lim rfl
        unfold Spaces.pipe
        simp only [hval0, if_pos he0]
      refine hclose hinv3 rfl fun k' h1 h2 h3 => ⟨h1, ?_⟩
      rw [h2, h3, ← hex2]
      rcases hcase0 with ⟨rfl, hex0⟩ | ⟨hn, -, hex0⟩
      · exact .inl ⟨hex0, congrArg (Prod.map some id) (hpipe none rfl)⟩
      · obtain ⟨n, rfl⟩ := Option.isSome_iff_exists.1 hn
        exact .inr ⟨hex0, (n, 0), congrArg (Prod.map some id) (hpipe (some (n, 0)) rfl)⟩
    obtain ⟨rfl, hex0⟩ : n0 = none ∧ km1.exhausted = k1.km.exhausted := by
      rcases hcase0 with hn | ⟨-, rfl, -⟩
      · exact hn
      · exact absurd (by decide) he0
    refine (copyout_meets hinv3 hi2 hm).bind ?_
    rintro e1 _ ⟨km2, rfl, hinv4, n1, hval1, hcase1⟩
    have hpipe : ∀ lim : Option (Nat × Nat), lim.map Prod.fst = n1.map (fun _ => 4) → lim.map Prod.snd = n1 →
        Spaces.pipe lim i fdarray (some (fd0, fd1)) k.spaces =
          (if e1 < 0 then -1 else 0, ((k1.setMem km1).setMem km2).spaces) := by
      rintro lim hfst rfl
      have h0 : Spaces.copyout (lim.map Prod.fst) i fdarray (intBytes fd0) k.spaces = (e0, (k1.setMem km1).spaces) := by
        rw [← hval0]
        cases lim with
        | none => rfl
        | some l =>
          have hl4 : l.1 = 4 := by simpa using hfst
          rw [Option.map_some, hl4, ← intBytes_length fd0]
          rfl
      unfold Spaces.pipe
      simp only [h0, if_neg he0, hval1]
      split_ifs <;> rfl
    -- both outcomes of the second copy
    have hstep : ∀ k', KInv k' → k'.spaces = ((k1.setMem km1).setMem km2).spaces → k'.km.exhausted = km2.exhausted →
        StepOk (.pipe i fdarray (some (fd0, fd1))) k (some (if e1 < 0 then -1 else 0)) k' := by
      refine fun k' h1 h2 h3 => ⟨h1, ?_⟩
      rw [h2, h3, ← hex2, ← hex0]
      rcases hcase1 with ⟨rfl, hex1⟩ | ⟨hn, -, hex1⟩
      · exact .inl ⟨hex1, congrArg (Prod.map some id) (hpipe none rfl rfl)⟩
      · obtain ⟨n, rfl⟩ := Option.isSome_iff_exists.1 hn
        exact .inr ⟨hex1, (4, n), congrArg (Prod.map some id) (hpipe _ rfl rfl)⟩
    split_ifs at hstep ⊢ with he1
    · exact hclose hinv4 rfl hstep
    · exact .pure (hstep _ hinv4 rfl rfl)

end Steps

end Xv6.Vm
