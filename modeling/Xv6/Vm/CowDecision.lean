import Xv6.Vm.AddressShape

/-!
# Which count `CowHandler` decides by

`CowHandler` means to make the entry writable in place when the page has no other owner. It looks the
count up under `PGINDEX(*pte)`, though, and the counts are kept under `PGINDEX(pa)`: an entry is the
address shifted right by two, so the index falls below those of all pages, and the count found there is
always 0. A page with one owner is therefore copied like any other, which needs a free page.
-/

set_option autoImplicit false

namespace Xv6.Vm

open Function Xv6.Base

variable {s s' : Kmem} {r va : Nat} {ret : Int}

/-- The count of the frame mapped at `va`. -/
def cowCount (s : Kmem) (r va : Nat) : Nat := s.pgref (PGINDEX (PTE2PA (pte s.mem r (va / PGSIZE))))

/-- The entry was made writable in place: the frame is the same, and none was allocated or freed. -/
def InPlace (s s' : Kmem) (r va : Nat) (ret : Int) : Prop :=
  ret = 0 ∧ PTE2PA (pte s'.mem r (va / PGSIZE)) = PTE2PA (pte s.mem r (va / PGSIZE)) ∧
    has (pte s'.mem r (va / PGSIZE)) PTE_W = true ∧
    has (pte s'.mem r (va / PGSIZE)) PTE_COW = false ∧
    s'.freelist = s.freelist ∧ s'.pgref = s.pgref

/-- There was no page for a copy, and nothing changed. -/
def NoPage (s s' : Kmem) (ret : Int) : Prop :=
  ret = -2 ∧ s.freelist = [] ∧ s'.mem = s.mem ∧ s'.freelist = s.freelist ∧ s'.pgref = s.pgref

/-- The entry maps a fresh frame with the contents of the old one. -/
def FreshCopy (s s' : Kmem) (r va : Nat) (ret : Int) : Prop :=
  ret = 0 ∧ PTE2PA (pte s'.mem r (va / PGSIZE)) ∈ s.freelist ∧
    has (pte s'.mem r (va / PGSIZE)) PTE_W = true ∧
    has (pte s'.mem r (va / PGSIZE)) PTE_COW = false ∧
    ∀ o < PGSIZE, s'.mem (PTE2PA (pte s'.mem r (va / PGSIZE)) + o) =
      s.mem (PTE2PA (pte s.mem r (va / PGSIZE)) + o)

/-- What `CowHandler(va)` should do, by the count of the frame: reuse it if the count is 1, otherwise
copy it and lower the count by one, or fail for lack of a page. -/
def DecidesByCount (r va : Nat) (s : Kmem) : Prop :=
  ∃ ret s', cowHandler r va s = .ok (ret, s') ∧
    (cowCount s r va = 1 → InPlace s s' r va ret) ∧
    (2 ≤ cowCount s r va → NoPage s s' ret ∨ (FreshCopy s s' r va ret ∧
      s'.pgref (PGINDEX (PTE2PA (pte s.mem r (va / PGSIZE)))) + 1 = cowCount s r va))

/-! ## What it does -/

section Ledger

variable {rs held : List Nat}

theorem kalloc_none (h : kalloc s = .ok (none, s')) :
    s.freelist = [] ∧ s' = { s with exhausted := s.exhausted + 1 } := by
  unfold kalloc at h
  cases hfl : s.freelist with
  | nil =>
    rw [hfl] at h
    exact ⟨rfl, (ok_pair_inj h).2⟩
  | cons p next =>
    rw [hfl] at h
    cases (ok_pair_inj h).1

theorem kalloc_some {page : Nat} (h : kalloc s = .ok (some page, s')) :
    page ∈ s.freelist ∧ s'.pgref = update s.pgref (PGINDEX page) 1 := by
  unfold kalloc at h
  cases hfl : s.freelist with
  | nil =>
    rw [hfl] at h
    cases (ok_pair_inj h).1
  | cons p next =>
    rw [hfl] at h
    obtain ⟨hp, rfl⟩ := ok_pair_inj h
    cases hp
    exact ⟨.head _, rfl⟩

theorem resolvedEntry_not_cow (page : Nat) (w : Pte) : has (resolvedEntry page w) PTE_COW = false := by
  rw [has_COW, resolvedEntry_low _ _ (by decide)]
  simp

/-- The frame of a valid entry is in use. -/
theorem Ledger.frame_used (h : Ledger s (r :: rs) held) {v : Nat} (hv : v < UPAGES)
    (hval : has (pte s.mem r v) PTE_V = true) : PTE2PA (pte s.mem r v) ∉ s.freelist := by
  intro hfree
  have hzero := ((h.counts.free _).1 hfree).2
  exact (owners_pos_of_maps (T := view s.mem r) (.head _) hv (maps_self hval)).ne' hzero

theorem Ledger.cowCount_pos (h : Ledger s (r :: rs) held) (hv : va / PGSIZE < UPAGES)
    (hval : has (pte s.mem r (va / PGSIZE)) PTE_V = true) : 0 < cowCount s r va := by
  unfold cowCount
  rw [h.counts.ref _ (h.user_frame hv hval)]
  exact owners_pos_of_maps (T := view s.mem r) (.head _) hv (maps_self hval)

/-- Two entries that decode to the same page have the same bytes behind them. -/
theorem bytes_of_decode_eq {m m' : Mem} {w w' : Pte} (hw : has w PTE_V = true)
    (hw' : has w' PTE_V = true) (h : decode m' w' = decode m w) :
    ∀ o < PGSIZE, m' (PTE2PA w' + o) = m (PTE2PA w + o) := by
  intro o ho
  unfold decode at h
  rw [if_pos hw, if_pos hw'] at h
  have hbytes := congrFun (congrArg UPage.bytes (Option.some.inj h)) o
  simpa only [pageAt_apply _ ho] using hbytes

section

variable (h : Ledger s (r :: rs) held) (hhigh : KernelHigh s.mem r) (hc : CowEntry (pte s.mem r (va / PGSIZE)))
include h hhigh hc

/-- `CowHandler` copies whatever the count is; with a count above 1 it lowers it by one, with a count
of 1 it frees the page. -/
theorem cowHandler_copies (hr : cowHandler r va s = .ok (ret, s')) : NoPage s s' ret ∨ (FreshCopy s s' r va ret ∧
      s'.pgref (PGINDEX (PTE2PA (pte s.mem r (va / PGSIZE)))) + 1 = cowCount s r va ∧
      (cowCount s r va = 1 → PTE2PA (pte s.mem r (va / PGSIZE)) ∈ s'.freelist)) := by
  rcases ((cowHandler_meets h hhigh).post _ _ hr).2 with ⟨-, hno, -⟩ | ⟨rfl, -, hka⟩ |
    ⟨rfl, -, hv, page, s1, a, s2, hka, hs1, hc1, hkf, rfl⟩
  · exact absurd hc hno
  · obtain ⟨hfl, rfl⟩ := kalloc_none hka
    exact .inl ⟨rfl, hfl, rfl, rfl, rfl⟩
  right
  obtain ⟨hfree, href1⟩ := kalloc_some hka
  rcases kalloc_spec h hka with ⟨hp, -⟩ | ⟨page', hp, hl1, hk1, -⟩
  · cases hp
  cases hp
  obtain ⟨-, -, -, hpte, -, hum, -⟩ := resolve_spec hl1 hv hs1 hc1 hkf
  have hw : pte s1.mem r (va / PGSIZE) = pte s.mem r (va / PGSIZE) :=
    congrFun (hk1.pte (.head _)) _
  rw [hw] at hkf hpte hum ⊢
  have hold := h.user_frame hv hc.1
  have hused := h.frame_used hv hc.1
  have hpage : IsFrame s.kend page := ((h.counts.free page).1 hfree).1
  have hne : page ≠ PTE2PA (pte s.mem r (va / PGSIZE)) := fun heq => hused (heq ▸ hfree)
  have hidx : PGINDEX (PTE2PA (pte s.mem r (va / PGSIZE))) ≠ PGINDEX page :=
    fun heq => hne (PGINDEX_inj hpage.1 hold.1 heq.symm)
  have hplt : page < 2 ^ 64 := Nat.lt_trans hpage.2.2 (by decide)
  have hentry : pte (sd64 s2.mem a (resolvedEntry page (pte s.mem r (va / PGSIZE)))) r (va / PGSIZE) =
      resolvedEntry page (pte s.mem r (va / PGSIZE)) := by
    rw [hpte, update_self]
  have hpa := PTE2PA_resolvedEntry (pte s.mem r (va / PGSIZE)) hpage.1 hplt
  obtain ⟨hV, -, hW⟩ := resolvedEntry_bits page hc
  refine ⟨⟨rfl, ?_, ?_, ?_, ?_⟩, ?_⟩
  · rw [hentry, hpa]
    exact hfree
  · rw [hentry]
    exact hW
  · rw [hentry]
    exact resolvedEntry_not_cow ..
  · refine bytes_of_decode_eq hc.1 (by rw [hentry]; exact hV) ?_
    rw [← umem_of_lt _ _ hv, ← umem_of_lt _ _ hv, hum]
    exact congrFun (hk1.umem (.head _)) _
  · -- the count of the old frame, across `kalloc` and `kfree`
    have hcnt : s1.pgref (PGINDEX (PTE2PA (pte s.mem r (va / PGSIZE)))) = cowCount s r va := by
      rw [href1, update_of_ne hidx]
      rfl
    have hpos := h.cowCount_pos hv hc.1
    rcases kfree_cases hkf with ⟨hlt, rfl⟩ | ⟨hle, rfl⟩
    · simp only [update_self] at hlt ⊢
      rw [hcnt] at hlt ⊢
      exact ⟨by omega, fun hone => by omega⟩
    · simp only [update_self] at hle ⊢
      rw [hcnt] at hle
      exact ⟨by omega, fun _ => List.mem_cons_self ..⟩

/-- `CowHandler` does what it should exactly for the pages that are shared. -/
theorem decidesByCount_iff (hva : va < MAXVA) : DecidesByCount r va s ↔ 2 ≤ cowCount s r va := by
  constructor
  · rintro ⟨ret, s', hr, hone, -⟩
    by_contra hlt
    have hv : va / PGSIZE < UPAGES := hhigh.user_lt hc.2.1
    have hused := h.frame_used hv hc.1
    have hpos := h.cowCount_pos hv hc.1
    obtain ⟨hret, hsame, -⟩ := hone (by omega)
    rcases cowHandler_copies h hhigh hc hr with ⟨hret', -⟩ | ⟨⟨-, hfresh, -⟩, -⟩
    · omega
    · rw [hsame] at hfresh
      exact hused hfresh
  · intro hshared
    obtain ⟨ret, s', hr⟩ := cowHandler_returns h hhigh hva
    refine ⟨ret, s', hr, fun hone => by omega, fun _ => ?_⟩
    rcases cowHandler_copies h hhigh hc hr with hno | ⟨hcopy, hcnt, -⟩
    · exact .inl hno
    · exact .inr ⟨hcopy, hcnt⟩

end

end Ledger

/-! ## In the states of the system -/

/-- In every state that the system reaches, and for every copy-on-write page of a process, `CowHandler`
does what it should if and only if the page is shared. With a single owner it copies as well, and frees
the old page, or fails if there is no free page. -/
theorem cowHandler_decides_iff_shared {k₀ k : Kernel} {ls : List Label} (h : k₀.Booted)
    (hr : Run Kernel.step k₀ ls k) {i : Fin NPROC} (hm : (k.table.proc i).mem.pagetable = some r)
    (hva : va < MAXVA) (hc : CowEntry (pte k.km.mem r (va / PGSIZE))) :
    (DecidesByCount r va k.km ↔ 2 ≤ cowCount k.km r va) ∧
      (cowCount k.km r va = 1 → ∃ ret s', cowHandler r va k.km = .ok (ret, s') ∧
        (NoPage k.km s' ret ∨ (FreshCopy k.km s' r va ret ∧
          PTE2PA (pte k.km.mem r (va / PGSIZE)) ∈ s'.freelist))) := by
  have hinv := run_inv h hr
  have hlive : (k.table.proc i).state ≠ .unused := by
    intro hun
    rw [(hinv.slot i).unused hun] at hm
    cases hm
  obtain ⟨r', tf, hm', ht, hl⟩ := hinv.focus hlive
  rw [hm'] at hm
  cases hm
  refine ⟨decidesByCount_iff hl ht.kernelHigh hc hva, fun hone => ?_⟩
  obtain ⟨ret, s', hrun⟩ := cowHandler_returns hl ht.kernelHigh hva
  refine ⟨ret, s', hrun, ?_⟩
  rcases cowHandler_copies hl ht.kernelHigh hc hrun with hno | ⟨hcopy, -, hfreed⟩
  · exact Or.inl hno
  · exact Or.inr ⟨hcopy, hfreed hone⟩

theorem NPROC_pos : 0 < NPROC := by decide

/-- The first process shares its page with a child. -/
def forked : Kernel := (smallMachine.after .userinit).after (.fork ⟨0, NPROC_pos⟩)

theorem forked_run : Run Kernel.step smallMachine [.userinit, .fork ⟨0, by decide⟩] forked := by
  have h1 := Run.single (smallMachine.step_after (l := .userinit) (by decide +kernel)
    ⟨(fun _ hi => by cases hi), rfl⟩ (fun _ => by decide +kernel))
  exact h1.snoc ((smallMachine.after .userinit).step_after (l := .fork ⟨0, by decide⟩)
    (by decide +kernel) ⟨fun i hi => by cases hi; decide +kernel, trivial⟩ (fun hi => by cases hi))

/-- A page shared by two processes. -/
theorem cowHandler_decides_iff_shared_forked :
    ∃ r, (forked.table.proc ⟨0, by decide⟩).mem.pagetable = some r ∧
      Run Kernel.step smallMachine [.userinit, .fork ⟨0, by decide⟩] forked ∧
      cowCount forked.km r 0 = 2 ∧ DecidesByCount r 0 forked.km := by
  have hsome : (forked.table.proc ⟨0, by decide⟩).mem.pagetable.isSome := by decide +kernel
  obtain ⟨r, hm⟩ := Option.isSome_iff_exists.1 hsome
  have hr : r = ((forked.table.proc ⟨0, by decide⟩).mem.pagetable).getD 0 := by rw [hm, Option.getD_some]
  have hcnt : cowCount forked.km r 0 = 2 := by
    rw [hr]
    decide +kernel
  have hcow : CowEntry (pte forked.km.mem r (0 / PGSIZE)) := by
    rw [hr]
    unfold CowEntry
    decide +kernel
  refine ⟨r, hm, forked_run, hcnt, ?_⟩
  exact (cowHandler_decides_iff_shared smallMachine_booted forked_run hm (by decide) hcow).1.2 (by omega)

/-- The first process has written to the page, and now has one of its own. -/
def written : Kernel := forked.after (.store ⟨0, NPROC_pos⟩ 100 [7])

/-- The child is left as the only owner of the page. `CowHandler` does not keep it. -/
theorem sole_owner_is_copied :
    ∃ (k : Kernel) (r : Nat), Run Kernel.step smallMachine
        [.userinit, .fork ⟨0, by decide⟩, .store ⟨0, by decide⟩ 100 [7]] k ∧
      (k.table.proc ⟨1, by decide⟩).mem.pagetable = some r ∧
      CowEntry (pte k.km.mem r (0 / PGSIZE)) ∧ cowCount k.km r 0 = 1 ∧ ¬ DecidesByCount r 0 k.km := by
  have hstep : forked.step (.store ⟨0, by decide⟩ 100 [7]) written :=
    forked.step_after (by decide +kernel) ⟨fun i hi => by cases hi; decide +kernel, by decide⟩ (fun hi => by cases hi)
  have hrun := forked_run.snoc hstep
  have hlive : (written.table.proc ⟨1, by decide⟩).state ≠ .unused := by decide +kernel
  obtain ⟨r, tf, hm, ht, hl⟩ := (run_inv smallMachine_booted hrun).focus hlive
  have hr : r = ((written.table.proc ⟨1, by decide⟩).mem.pagetable).getD 0 := by
    rw [hm, Option.getD_some]
  have hcnt : cowCount written.km r 0 = 1 := by
    rw [hr]
    decide +kernel
  have hcow : CowEntry (pte written.km.mem r (0 / PGSIZE)) := by
    rw [hr]
    unfold CowEntry
    decide +kernel
  refine ⟨_, r, hrun, congrArg Image.pagetable hm, hcow, hcnt, fun hd => ?_⟩
  have hshared := (decidesByCount_iff hl ht.kernelHigh hcow (by decide)).1 hd
  omega

end Xv6.Vm
