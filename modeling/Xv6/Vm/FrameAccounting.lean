import Xv6.Vm.Images

/-!
# Exact frame accounting

`kinit` leaves every frame on the free list, once and with no owner, which is the invariant of the kernel
before there are processes. Every operation keeps the invariant, so it holds in every state that the
kernel reaches, and from it follows how the reference counts and the free list are tied to the page
tables.
-/

set_option autoImplicit false

namespace Xv6.Vm

open Function Xv6.Base

/-! ## Every operation -/

/-- Whatever operation is made, the invariant holds again, and the address spaces change as they should
or in a way that lack of memory allows. Only the first process's exit, a store above `MAXVA` and missing
memory at boot stop the kernel. -/
theorem exec_meets_step {k : Kernel} {l : Label} (h : KInv k) (hen : l.Enabled k) :
    Meets (fun e => (e = .initExiting ∧ l.actor = k.table.initproc) ∨
      (e = .walk ∧ ∃ i va bs, l = .store i va bs ∧ MAXVA ≤ va) ∨ (e = .wild ∧ l.actor = none))
      (Kernel.exec l) k fun o k' => (l.actor = none → k'.km.exhausted = k.km.exhausted) → StepOk l k o k' := by
  obtain ⟨hact, hen⟩ := hen
  -- the operations that cannot fail, and those that fail for want of memory
  have hsure : ∀ {x : SysM (Option Int)}, Meets (fun _ => False) x k (StepOk l k) → Meets (fun e =>
      (e = .initExiting ∧ l.actor = k.table.initproc) ∨ (e = .walk ∧ ∃ i va bs, l = .store i va bs ∧ MAXVA ≤ va) ∨
      (e = .wild ∧ l.actor = none)) x k
      fun o k' => (l.actor = none → k'.km.exhausted = k.km.exhausted) → StepOk l k o k' := fun hx =>
    (hx.mono fun _ => False.elim).weaken fun _ _ hok _ => hok
  cases l with
  | kernelAlloc =>
    exact ((kernelAlloc_step h).mono fun e he => .inr (.inr ⟨he, rfl⟩)).weaken fun _ _ hok _ => hok
  | kernelWrite a bs => exact hsure (kernelWrite_step h hen)
  | userinit =>
    exact ((userinit_step h).mono fun e he => .inr (.inr ⟨he, rfl⟩)).weaken fun _ _ hok hmem => hok (hmem rfl)
  | fork i => exact hsure (fork_step h (hact i rfl))
  | exec i files upath uargv => exact hsure (exec_step h (hact i rfl))
  | sbrk i n => exact hsure (sbrk_step h (hact i rfl) hen)
  | exit i status =>
    refine (exit_step h (hact i rfl) fun hinit => ?_).weaken fun _ _ hok _ => hok
    exact .inl ⟨rfl, hinit.symm⟩
  | wait i addr => exact hsure (wait_step h (hact i rfl))
  | store i va bs =>
    refine ((store_meets h (hact i rfl) hen).mono fun e he => ?_).weaken fun _ _ hok _ => hok.1
    rcases he with ⟨rfl, hva⟩ | ⟨rfl, hinit, -⟩
    · exact .inr (.inl ⟨rfl, i, va, bs, rfl, hva⟩)
    · exact .inl ⟨rfl, hinit.symm⟩
  | fault i scause stval =>
    refine (fault_step h (hact i rfl) hen fun hinit => ?_).weaken fun _ _ hok _ => hok
    exact .inl ⟨rfl, hinit.symm⟩
  | copyout i dstva src => exact hsure (copyoutProc_step h (hact i rfl))
  | pipe i fdarray fds => exact hsure (pipe_step h (hact i rfl))
  | pipeclose p => exact hsure (pipeclose_step h hen)

theorem step_ok {k k' : Kernel} {l : Label} (h : KInv k) (hs : k.step l k') :
    ∃ o, Kernel.exec l k = .ok (o, k') ∧ StepOk l k o k' := by
  obtain ⟨hen, ⟨o, hr⟩, hmem⟩ := hs
  exact ⟨o, hr, (exec_meets_step h hen).post _ _ hr hmem⟩

/-! ## `kinit` -/

/-- One page of `freerange`. -/
theorem freerange_page {p : Nat} {s : Kmem} (hp : IsFrame s.kend p) (hz : s.pgref = fun _ => 0) :
    (do setref p 1; kfree p : KM Unit) s =
      .ok ((), { s with mem := fill s.mem p PGSIZE 1, freelist := p :: s.freelist }) := by
  have hgood : ¬(p % PGSIZE ≠ 0 ∨ p < s.kend ∨ PHYSTOP ≤ p) := by
    obtain ⟨h1, h2, h3⟩ := hp
    omega
  have hzero : update (update (fun _ : Nat => (0 : Nat)) (PGINDEX p) 1) (PGINDEX p) 0 = fun _ => 0 := by
    rw [update_idem, update_eq_self_iff]
  show kfree p { s with pgref := update s.pgref (PGINDEX p) 1 } = _
  unfold kfree
  rw [if_neg hgood, if_neg (by simp), hz, hzero, ← hz]

/-- The pages from `p` on go on the list, each once. -/
theorem freerangeLoop_spec {n p : Nat} {s : Kmem} (hp : ∀ i < n, IsFrame s.kend (p + i * PGSIZE))
    (hz : s.pgref = fun _ => 0) (hnd : s.freelist.Nodup) (hlt : ∀ f ∈ s.freelist, f < p) :
    ∃ s', freerangeLoop n p s = .ok ((), s') ∧ s'.kend = s.kend ∧ s'.exhausted = s.exhausted ∧
      s'.pgref = (fun _ => 0) ∧ s'.freelist.Nodup ∧
      ∀ f, f ∈ s'.freelist ↔ f ∈ s.freelist ∨ ∃ i < n, f = p + i * PGSIZE := by
  induction n generalizing p s with
  | zero => exact ⟨s, rfl, rfl, rfl, hz, hnd, fun f => by simp⟩
  | succ n ih =>
    have hpage := freerange_page (by simpa using hp 0 (Nat.succ_pos n)) hz
    obtain ⟨s', hr, hk, hex, hz', hnd', hmem⟩ := ih
      (s := { s with mem := fill s.mem p PGSIZE 1, freelist := p :: s.freelist }) (p := p + PGSIZE)
      (fun i hi => by
        have := hp (i + 1) (by omega)
        rwa [show p + (i + 1) * PGSIZE = p + PGSIZE + i * PGSIZE by ring] at this)
      hz (List.nodup_cons.2 ⟨fun hin => absurd (hlt p hin) (Nat.lt_irrefl p), hnd⟩)
      (fun f hf => by
        rcases List.mem_cons.1 hf with rfl | hf
        · exact Nat.lt_add_of_pos_right (by decide)
        · exact (hlt f hf).trans (Nat.lt_add_of_pos_right (by decide)))
    refine ⟨s', ?_, hk, hex, hz', hnd', fun f => ?_⟩
    · have hloop : freerangeLoop (n + 1) p = (do setref p 1; kfree p : KM Unit) >>= fun _ =>
          freerangeLoop n (p + PGSIZE) := by
        rw [freerangeLoop, bind_assoc]
      rw [hloop]
      exact (bind_eq_ok_iff _ _ _ _).2 ⟨(), _, hpage, hr⟩
    · rw [hmem, List.mem_cons]
      constructor
      · rintro ((rfl | hf) | ⟨i, hi, rfl⟩)
        · exact .inr ⟨0, by omega, by omega⟩
        · exact .inl hf
        · exact .inr ⟨i + 1, by omega, by ring⟩
      · rintro (hf | ⟨i, hi, rfl⟩)
        · exact .inl (.inr hf)
        · cases i with
          | zero => exact .inl (.inl (by omega))
          | succ i => exact .inr ⟨i, by omega, by ring⟩

/-- The frames are the pages that `freerange` visits. -/
theorem isFrame_iff {kend f : Nat} (hk : kend ≤ PHYSTOP) :
    IsFrame kend f ↔ ∃ i < (PHYSTOP - PGROUNDUP kend) / PGSIZE, f = PGROUNDUP kend + i * PGSIZE := by
  have hstop : PHYSTOP = 2281701376 := by decide
  have hround : PGROUNDUP kend = (kend + 4095) / 4096 * 4096 := by
    unfold PGROUNDUP PGSIZE
    omega
  unfold IsFrame
  rw [hround, hstop] at *
  unfold PGSIZE
  constructor
  · rintro ⟨h1, h2, h3⟩
    exact ⟨f / 4096 - (kend + 4095) / 4096, by omega, by omega⟩
  · rintro ⟨i, hi, rfl⟩
    omega

theorem kinit_spec {kend : Nat} (hk : kend ≤ PHYSTOP) (mem : Mem) :
    ∃ s', kinit (Kmem.reset kend mem) = .ok ((), s') ∧ s'.kend = kend ∧ s'.exhausted = 0 ∧
      s'.pgref = (fun _ => 0) ∧ s'.freelist.Nodup ∧ ∀ f, f ∈ s'.freelist ↔ IsFrame kend f := by
  obtain ⟨s', hr, hk', hex, hz, hnd, hmem⟩ := freerangeLoop_spec
    (n := (PHYSTOP - PGROUNDUP kend) / PGSIZE) (p := PGROUNDUP kend) (s := Kmem.reset kend mem)
    (fun i hi => (isFrame_iff hk).2 ⟨i, hi, rfl⟩) rfl List.nodup_nil (fun f hf => by cases hf)
  refine ⟨s', hr, hk', hex, hz, hnd, fun f => ?_⟩
  rw [hmem, isFrame_iff hk]
  exact or_iff_right (fun hf => by cases hf)

theorem collect_none {α : Type} : collect (fun _ => (none : Option α)) = [] := by
  unfold collect
  rw [List.filterMap_none]

/-- Before there are processes all is in order. -/
theorem Kernel.Booted.inv {k : Kernel} (h : k.Booted) : KInv k := by
  obtain ⟨hbase, hstop, ⟨mem, hinit⟩, htr, htr', htab, hkp, hpi⟩ := h
  obtain ⟨s', hr, hk, -, hz, hnd, hmem⟩ := kinit_spec hstop mem
  rw [hinit] at hr
  obtain ⟨-, hs⟩ := ok_pair_inj hr
  have hroots : k.roots = [] := by
    unfold Kernel.roots
    rw [htab]
    exact collect_none
  have hheld : k.held = [] := by
    unfold Kernel.held
    rw [htab, hkp, hpi]
    exact congrArg (· ++ []) collect_none
  refine ⟨?_, fun i => ?_, htr, htr'⟩
  · rw [hroots, hheld]
    have howners : ∀ f, owners (views k.km.mem []) [] f = 0 := fun _ => rfl
    refine ⟨⟨hbase, fun f _ => ?_, fun i _ => ?_, fun f => ?_, ?_, fun f hf => ?_⟩, ⟨?_, ?_, ?_, ?_⟩, ?_, ?_⟩
    · rw [howners, ← hs, hz]
    · rw [← hs, hz]
    · rw [howners, ← hs, hmem, hs]
      exact (and_iff_left rfl).symm
    · rw [← hs]
      exact hnd
    · rw [howners] at hf
      exact absurd hf (Nat.lt_irrefl 0)
    · intro f hf
      cases hf
    · intro T hT
      cases hT
    · intro T hT
      cases hT
    · intro T hT
      cases hT
    · exact Nat.zero_le _
    · intro r hr
      cases hr
  · rw [htab]
    exact .inl rfl

theorem run_inv {k k' : Kernel} {ls : List Label} (h : k.Booted) (hr : Run Kernel.step k ls k') : KInv k' :=
  hr.invariant (P := fun _ k => KInv k) h.inv fun _ _ _ _ hi hs => (step_ok hi hs).choose_spec.2.inv

/-! ## What the counts mean -/

/-- Number of user-area entries that map the frame, over the page tables of all processes. -/
noncomputable def Kernel.userMaps (k : Kernel) (f : Nat) : Nat :=
  (k.roots.map fun r => leafCount (pte k.km.mem r) f).sum

/-- The pages that the kernel holds: those of the page tables, trapframes, its own pages and pipes. -/
def Kernel.kernelPages (k : Kernel) : List Nat := k.roots.flatMap (tables k.km.mem 2) ++ k.held

/-- The owners of a frame. -/
noncomputable def Kernel.frameOwners (k : Kernel) (f : Nat) : Nat :=
  k.userMaps f + if f ∈ k.kernelPages then 1 else 0

theorem owners_eq (m : Mem) (roots held : List Nat) (f : Nat) : owners (views m roots) held f =
      (roots.map fun r => leafCount (pte m r) f).sum + (roots.flatMap (tables m 2) ++ held).count f := by
  induction roots with
  | nil => simp [owners, views]
  | cons r roots ih =>
    rw [owners_views_cons, ih]
    simp only [PT.owns, view, List.map_cons, List.sum_cons, List.flatMap_cons, List.append_assoc, List.count_append]
    omega

/-- The kernel holds a page at most once. -/
theorem KInv.owners_eq {k : Kernel} (h : KInv k) (f : Nat) :
    owners (views k.km.mem k.roots) k.held f = k.frameOwners f := by
  have heq := Vm.owners_eq k.km.mem k.roots k.held f
  unfold Kernel.frameOwners Kernel.userMaps
  split_ifs with hf
  · -- a page of a table or a page held has no second owner
    have hone : owners (views k.km.mem k.roots) k.held f = 1 := by
      rcases List.mem_append.1 hf with hf | hf
      · obtain ⟨r, hr, hf⟩ := List.mem_flatMap.1 hf
        exact h.ledger.shape.tab_one (view k.km.mem r) (List.mem_map_of_mem hr) f hf
      · exact h.ledger.shape.held_one f hf
    have hpos : 0 < (k.roots.flatMap (tables k.km.mem 2) ++ k.held).count f := List.count_pos_iff.2 hf
    omega
  · have hzero : (k.roots.flatMap (tables k.km.mem 2) ++ k.held).count f = 0 :=
      List.count_eq_zero.2 hf
    omega

theorem flags_low {a b : Nat} (ha : a < 10) (hb : b < 10) (i : Nat) (hi : 10 ≤ i) :
    (BitVec.twoPow 64 a ||| BitVec.twoPow 64 b).getLsbD i = false := by
  rw [BitVec.getLsbD_or, getLsbD_flag (by omega), getLsbD_flag (by omega)]
  simp
  omega

theorem kernelEntry_not_cow (trampoline trapframe v : Nat) :
    has (kernelEntry trampoline trapframe v) PTE_COW = false := by
  unfold kernelEntry
  rw [has_COW]
  split_ifs
  · rw [getLsbD_newEntry _ _ (by decide) (by decide)]
    rfl
  · rw [getLsbD_newEntry _ _ (by decide) (by decide)]
    rfl
  · rfl

/-- What a process's entry maps is not free. -/
theorem KInv.entry_used {k : Kernel} (h : KInv k) {i : Fin NPROC} {r : Nat}
    (hr : (k.table.proc i).mem.pagetable = some r) {v : Nat} (hv : has (pte k.km.mem r v) PTE_V = true) :
    PTE2PA (pte k.km.mem r v) ∉ k.km.freelist ∧
      ¬(has (pte k.km.mem r v) PTE_W = true ∧ has (pte k.km.mem r v) PTE_COW = true) ∧
      (v < UPAGES → has (pte k.km.mem r v) PTE_W = true → k.km.pgref (PGINDEX (PTE2PA (pte k.km.mem r v))) = 1) := by
  have hroot : r ∈ k.roots := mem_collect hr
  have hT : view k.km.mem r ∈ views k.km.mem k.roots := List.mem_map_of_mem hroot
  have hfree := h.ledger.counts.free
  by_cases hu : v < UPAGES
  · have hpos : 0 < owners (views k.km.mem k.roots) k.held (PTE2PA (pte k.km.mem r v)) :=
      owners_pos_of_maps (T := view k.km.mem r) hT hu (maps_self hv)
    have hok := h.ledger.shape.entry (view k.km.mem r) hT v hu hv
    refine ⟨fun hin => ?_, hok.not_both, fun _ hW => ?_⟩
    · have := ((hfree _).1 hin).2
      omega
    · rw [h.ledger.counts.ref _ (h.ledger.counts.frame _ hpos)]
      exact hok.alone hW
  · -- above the user area there are the trapframe and the trampoline
    have hlive : (k.table.proc i).state ≠ .unused := by
      intro hun
      rw [(h.slot i).unused hun] at hr
      cases hr
    obtain ⟨r', tf, hm, ht⟩ := (h.slot i).live hlive
    rw [hm] at hr
    cases hr
    have htf : tf ∈ k.held := List.mem_append_left _ (mem_collect (j := i) (by rw [hm]))
    have htfpos : 0 < owners (views k.km.mem k.roots) k.held tf := owners_pos_of_held htf
    rw [ht.high v (by omega)] at hv ⊢
    refine ⟨?_, ?_, fun hlt => absurd hlt hu⟩
    · unfold kernelEntry at hv ⊢
      split_ifs at hv ⊢ with h1 h2
      · have hframe := h.ledger.counts.frame tf htfpos
        have hlow : ∀ i, 10 ≤ i → (PTE_R ||| PTE_W).getLsbD i = false :=
          flags_low (a := 1) (b := 2) (by decide) (by decide)
        rw [PTE2PA_newEntry hframe.1 (hframe.2.2.trans (by decide)) hlow]
        intro hin
        have := ((hfree _).1 hin).2
        omega
      · intro hin
        have hframe := ((hfree _).1 hin).1
        have htr : k.trampoline < 2 ^ 64 := by
          have h1 := h.tramp.2
          have h2 := hframe.2.1
          have h3 := hframe.2.2.trans (show PHYSTOP < 2 ^ 64 by decide)
          omega
        have hlow : ∀ i, 10 ≤ i → (PTE_R ||| PTE_X).getLsbD i = false :=
          flags_low (a := 1) (b := 3) (by decide) (by decide)
        rw [PTE2PA_newEntry h.tramp.1 htr hlow] at hframe
        have h1 := h.tramp.2
        have h2 := hframe.2.1
        unfold PGSIZE at h1
        omega
      · rw [has_zero] at hv
        cases hv
    · rw [kernelEntry_not_cow]
      exact fun hb => nomatch hb.2

/-- In every state that the kernel reaches from `kinit` on, the count of every frame is the number of its
owners; the frames without owners are on the free list, each once, and nothing else is; no entry of a
process maps a free frame; a writable entry of the user area maps a frame that nobody else owns; and no
entry is both writable and copy on write. -/
theorem frame_accounting {k₀ k : Kernel} {ls : List Label} (h : k₀.Booted)
    (hr : Run Kernel.step k₀ ls k) :
    (∀ f, IsFrame k.km.kend f → k.km.pgref (PGINDEX f) = k.frameOwners f ∧
      (f ∈ k.km.freelist ↔ k.frameOwners f = 0) ∧ k.km.freelist.count f ≤ 1) ∧
    (∀ f ∈ k.km.freelist, IsFrame k.km.kend f) ∧
    ∀ i r, (k.table.proc i).mem.pagetable = some r → ∀ v, has (pte k.km.mem r v) PTE_V = true →
      PTE2PA (pte k.km.mem r v) ∉ k.km.freelist ∧
      ¬(has (pte k.km.mem r v) PTE_W = true ∧ has (pte k.km.mem r v) PTE_COW = true) ∧
      (v < UPAGES → has (pte k.km.mem r v) PTE_W = true →
        k.km.pgref (PGINDEX (PTE2PA (pte k.km.mem r v))) = 1) := by
  have hi := run_inv h hr
  refine ⟨fun f hf => ⟨?_, ?_, ?_⟩, fun f hf => ((hi.ledger.counts.free f).1 hf).1,
    fun i r hr v hv => hi.entry_used hr hv⟩
  · rw [← hi.owners_eq]
    exact hi.ledger.counts.ref f hf
  · rw [← hi.owners_eq, hi.ledger.counts.free]
    exact and_iff_right hf
  · exact List.nodup_iff_count_le_one.1 hi.ledger.counts.nodup f

/-- The machine after an operation that does not fail. -/
def Kernel.after (k : Kernel) (l : Label) : Kernel :=
  match Kernel.exec l k with
  | .ok (_, k') => k'
  | .error _ => k

theorem Kernel.step_after {k : Kernel} {l : Label} (hok : (Kernel.exec l k).isOk = true)
    (hen : l.Enabled k) (hmem : l.actor = none → (k.after l).km.exhausted = k.km.exhausted) : k.step l (k.after l) := by
  refine ⟨hen, ?_, hmem⟩
  unfold Kernel.after
  cases hx : Kernel.exec l k with
  | error e =>
    rw [hx] at hok
    cases hok
  | ok r => exact ⟨r.1, rfl⟩

/-- A machine with thirty-two frames. -/
def smallMachine : Kernel where
  km := match kinit (Kmem.reset 0x87fe0000 fun _ => 0) with
    | .ok (_, s) => s
    | .error _ => Kmem.reset 0x87fe0000 fun _ => 0
  trampoline := 0x80007000
  table := ProcTable.init ⟨none, none⟩
  kpages := []
  pipes := []

theorem smallMachine_booted : smallMachine.Booted := by
  obtain ⟨s', hr, hk, -⟩ := kinit_spec (show 0x87fe0000 ≤ PHYSTOP by decide) fun _ => 0
  have hkm : smallMachine.km = s' := by
    unfold smallMachine
    rw [hr]
  refine ⟨?_, ?_, ⟨fun _ => 0, ?_⟩, by decide, ?_, rfl, rfl, rfl⟩
  · rw [hkm, hk]
    decide
  · rw [hkm, hk]
    decide
  · rw [hkm, hk]
    exact hr
  · rw [hkm, hk]
    decide

/-- The first process forks and then writes to a page that it shares with its child. -/
theorem frame_accounting_fork :
    ∃ (k : Kernel) (i : Fin NPROC),
      Run Kernel.step smallMachine [.userinit, .fork i, .store i 100 [7]] k ∧
      ∀ f, IsFrame k.km.kend f → k.km.pgref (PGINDEX f) = k.frameOwners f := by
  have h1 := Run.single (smallMachine.step_after (l := .userinit) (by decide +kernel)
    ⟨(fun _ hi => by cases hi), rfl⟩ (fun _ => by decide +kernel))
  have h2 := h1.snoc ((smallMachine.after .userinit).step_after (l := .fork ⟨0, by decide⟩)
    (by decide +kernel) ⟨fun i hi => by cases hi; decide +kernel, trivial⟩ (fun hi => by cases hi))
  have h3 := h2.snoc (((smallMachine.after .userinit).after (.fork ⟨0, by decide⟩)).step_after
    (l := .store ⟨0, by decide⟩ 100 [7]) (by decide +kernel)
    ⟨fun i hi => by cases hi; decide +kernel, by decide⟩ (fun hi => by cases hi))
  exact ⟨_, _, h3, fun f hf => ((frame_accounting smallMachine_booted h3).1 f hf).1⟩

end Xv6.Vm
