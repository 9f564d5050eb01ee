import Xv6.Vm.Exec
import Xv6.Vm.WriteSpec

/-!
# Making and freeing page tables of processes

Specifications of `proc_pagetable` and `proc_freepagetable`. A process's table holds two entries of
the kernel above the user area, and pages of the user area below the process's size only
(`UserTable`); `proc_freepagetable` gives back every page of such a table, and `proc_pagetable`
makes an empty one or leaves no trace.
-/

set_option autoImplicit false

namespace Xv6.Vm

open Function Xv6.Base

theorem TRAMPOLINE_page : TRAMPOLINE / PGSIZE = UPAGES + 1 := by decide

theorem TRAPFRAME_page : TRAPFRAME / PGSIZE = UPAGES := rfl

/-- The entries above the user area of a process's table. -/
def kernelEntry (trampoline trapframe v : Nat) : Pte :=
  if v = TRAPFRAME / PGSIZE then newEntry trapframe (PTE_R ||| PTE_W)
  else if v = TRAMPOLINE / PGSIZE then newEntry trampoline (PTE_R ||| PTE_X)
  else 0#64

/-- The table at `r` is that of a process of size `sz` with the given trapframe. -/
structure UserTable (m : Mem) (trampoline trapframe r sz : Nat) : Prop where
  fits : sz ≤ TRAPFRAME
  pages : (umem m r).Pages (npages sz)
  high : ∀ u, UPAGES ≤ u → pte m r u = kernelEntry trampoline trapframe u

/-- The sizes whose pages lie in the user area. -/
theorem npages_le_UPAGES_iff {sz : Nat} (h : sz < 2 ^ 63) : npages sz ≤ UPAGES ↔ sz ≤ TRAPFRAME := by
  have e1 : UPAGES = 67108862 := by decide
  have e2 : TRAPFRAME = 274877898752 := by decide
  unfold npages PGROUNDUP PGSIZE
  omega

theorem TRAPFRAME_lt : TRAPFRAME < 2 ^ 63 := by decide

section UserTable

variable {m : Mem} {trampoline trapframe r sz : Nat}

theorem UserTable.small (h : UserTable m trampoline trapframe r sz) : sz < 2 ^ 63 :=
  Nat.lt_of_le_of_lt h.fits TRAPFRAME_lt

theorem UserTable.npages_le (h : UserTable m trampoline trapframe r sz) : npages sz ≤ UPAGES :=
  (npages_le_UPAGES_iff h.small).2 h.fits

theorem kernelEntry_not_user (trampoline trapframe v : Nat) :
    has (kernelEntry trampoline trapframe v) PTE_U = false := by
  unfold kernelEntry
  rw [has_U]
  split_ifs
  · rw [getLsbD_newEntry _ _ (by decide) (by decide)]
    rfl
  · rw [getLsbD_newEntry _ _ (by decide) (by decide)]
    rfl
  · rfl

section

variable (h : UserTable m trampoline trapframe r sz)
include h

theorem UserTable.kernelHigh : KernelHigh m r := by
  intro v hv
  rw [h.high v hv]
  exact kernelEntry_not_user ..

theorem UserTable.guard : has (pte m r UPAGES) PTE_V = true := by
  rw [h.high UPAGES (Nat.le_refl _), kernelEntry, if_pos TRAPFRAME_page.symm]
  exact newEntry_valid ..

theorem UserTable.congr {m' : Mem} {sz' : Nat} (hfits : sz' ≤ TRAPFRAME) (hpages : (umem m' r).Pages (npages sz'))
    (hhigh : ∀ u, UPAGES ≤ u → pte m' r u = pte m r u) : UserTable m' trampoline trapframe r sz' :=
  ⟨hfits, hpages, fun u hu => (hhigh u hu).trans (h.high u hu)⟩

end

/-- A table whose pages do not change stays as it is. -/
theorem UserTable.keep {s s' : Kmem} {roots held : List Nat}
    (h : UserTable s.mem trampoline trapframe r sz) (hk : Keeps s s' roots held) (hr : r ∈ roots) :
    UserTable s'.mem trampoline trapframe r sz := by
  refine h.congr h.fits ?_ fun u _ => ?_
  · rw [hk.umem hr]
    exact h.pages
  · rw [hk.pte hr]

end UserTable

section Specs

variable {s s' : Kmem} {r : Nat} {rs held : List Nat}

/-- `mappages` of one page above the user area. -/
theorem mappages_high_meets {va pa : Nat} {perm : Pte} (h : Ledger s (r :: rs) held) (hle : UPAGES ≤ va / PGSIZE) :
    Meets (fun _ => ¬ (va % PGSIZE = 0 ∧ va < MAXVA ∧ has (pte s.mem r (va / PGSIZE)) PTE_V = false))
      (mappages r va PGSIZE pa perm) s fun ret s' => Ledger s' (r :: rs) held ∧ Keeps s s' rs held ∧
        ((ret = -1 ∧ s.exhausted < s'.exhausted ∧ pte s'.mem r = pte s.mem r) ∨ (ret = 0 ∧ s'.exhausted = s.exhausted ∧
            pte s'.mem r = update (pte s.mem r) (va / PGSIZE) (newEntry pa perm))) := by
  refine (mappages_one_meets h).weaken ?_
  rintro ret s' ⟨-, hva, s1, hl, hk, hp, -, hcase⟩
  rcases hcase with ⟨rfl, rfl, hex⟩ | ⟨rfl, hex, a, hs, -, rfl⟩
  · exact ⟨hl, hk, .inl ⟨rfl, hex, hp⟩⟩
  · obtain ⟨hl', hk', hp', -⟩ := hl.setHigh hle (MAXVA_pages hva) hs (newEntry pa perm)
    exact ⟨hl', hk.trans hk', .inr ⟨rfl, hex, hp'.trans (by rw [hp])⟩⟩

/-- `uvmunmap` of one page above the user area, which is not the table's to free. -/
theorem uvmunmap_high_meets {va : Nat} (h : Ledger s (r :: rs) held) (hle : UPAGES ≤ va / PGSIZE) :
    Meets (fun _ => ¬ (va % PGSIZE = 0 ∧ va < MAXVA ∧ LeafEntry (pte s.mem r (va / PGSIZE))))
      (uvmunmap r va 1 false) s fun _ s' => Ledger s' (r :: rs) held ∧ Keeps s s' rs held ∧
        s'.exhausted = s.exhausted ∧ pte s'.mem r = update (pte s.mem r) (va / PGSIZE) 0#64 := by
  refine .ite (fun hal => .throw fun hc => hal hc.1) fun hal => ?_
  refine uvmunmapLoop_round (fun hbad _ hc => hbad hc.2) fun p hva _ hs => .pure (.pure ?_)
  obtain ⟨hl, hk, hp, -⟩ := h.setHigh hle (MAXVA_pages hva) hs 0#64
  exact ⟨hl, hk, rfl, hp⟩

theorem leaf_invalid_of_pte {m : Mem} (h : ∀ u, has (pte m r u) PTE_V = false) (v : Nat) :
    has (leaf m 2 r v) PTE_V = false := by
  have hlt : v % 512 ^ 3 < 512 ^ 3 := Nat.mod_lt _ (by decide)
  have hslot : slot m v 2 r = slot m (v % 512 ^ 3) 2 r := slot_mod_congr (Nat.mod_mod _ _).symm r
  have hv := h (v % 512 ^ 3)
  rw [pte, if_pos hlt] at hv
  rw [leaf, hslot]
  exact hv

/-- `uvmfree` of a table that maps the pages below `sz` and nothing else. -/
theorem uvmfree_meets {sz : Nat} (h : Ledger s (r :: rs) held) (hfits : npages sz ≤ UPAGES)
    (hleaf : ∀ u < npages sz, LeafEntry (pte s.mem r u))
    (hrest : ∀ u, npages sz ≤ u → has (pte s.mem r u) PTE_V = false) :
    Meets (fun _ => False) (uvmfree r sz) s fun _ s' =>
      Ledger s' rs held ∧ Keeps s s' rs held ∧ s'.exhausted = s.exhausted := by
  rw [uvmfree]
  have hclear : Meets (fun _ => False) (if 0 < sz then uvmunmap r 0 (npages sz) true else pure ()) s
      fun _ s1 => Ledger s1 (r :: rs) held ∧ Keeps s s1 rs held ∧ s1.exhausted = s.exhausted ∧
        ∀ v, has (pte s1.mem r v) PTE_V = false := by
    refine .ite (fun hpos => ?_) fun hpos => .pure ?_
    · rw [uvmunmap, if_neg (by decide)]
      have hun := uvmunmapLoop_free_meets (n := npages sz) h (by decide : 0 % PGSIZE = 0) (by
        rw [Nat.zero_div, Nat.zero_add]
        exact hfits)
      rw [Nat.zero_div, Nat.zero_add] at hun
      refine (hun.mono fun _ hbad => hbad fun u _ hu => hleaf u hu).weaken ?_
      rintro - s1 ⟨hl, hk, hu, hex⟩
      refine ⟨hl, hk, hex, fun v => ?_⟩
      rw [hu.entry v]
      split_ifs with hin
      · exact has_zero _
      · exact hrest v (by omega)
    · obtain rfl : sz = 0 := by omega
      exact ⟨h, .refl _ _ _, rfl, fun v => hrest v (Nat.zero_le v)⟩
  refine hclear.bind ?_
  rintro - s1 ⟨hl1, hk1, hex1, hempty⟩
  obtain ⟨s', hfree, hl, hk, hex⟩ := freewalk_spec (hl1.detach fun v _ => hempty v)
    (hl1.plain r (.head _)) (leaf_invalid_of_pte hempty)
  exact .of_ok hfree ⟨hl, hk1.trans hk, hex.trans hex1⟩

theorem leafEntry_newEntry {pa : Nat} {perm : Pte} (hread : perm.getLsbD 1 = true) : LeafEntry (newEntry pa perm) := by
  refine leafEntry_of_read (newEntry_valid pa perm) ?_
  rw [has_R, getLsbD_newEntry pa perm (by decide) (by decide), hread]

/-- The pages of a process's table are there. -/
theorem UserTable.leaf {m : Mem} {trampoline trapframe sz u : Nat}
    (ht : UserTable m trampoline trapframe r sz) (hu : u < npages sz) : LeafEntry (pte m r u) := by
  obtain ⟨p, hp, hread⟩ := ht.pages.some u hu
  exact leafEntry_of_page hp hread

/-- `proc_freepagetable` gives back all pages of the table and its user area. -/
theorem procFreepagetable_meets {trampoline trapframe sz : Nat} (h : Ledger s (r :: rs) held)
    (ht : UserTable s.mem trampoline trapframe r sz) : Meets (fun _ => False) (procFreepagetable r sz) s fun _ s' =>
      Ledger s' rs held ∧ Keeps s s' rs held ∧ s'.exhausted = s.exhausted := by
  have hle : UPAGES ≤ TRAMPOLINE / PGSIZE := by decide
  have hle' : UPAGES ≤ TRAPFRAME / PGSIZE := Nat.le_refl _
  rw [procFreepagetable]
  refine ((uvmunmap_high_meets h hle).mono fun _ hbad =>
    hbad ⟨by decide, by decide, ?_⟩).bind ?_
  · rw [ht.high _ hle, kernelEntry, if_neg (by decide), if_pos rfl]
    exact leafEntry_newEntry (by decide)
  rintro - s1 ⟨hl1, hk1, hex1, hp1⟩
  refine ((uvmunmap_high_meets hl1 hle').mono fun _ hbad =>
    hbad ⟨by decide, by decide, ?_⟩).bind ?_
  · rw [hp1, update_of_ne (by decide), ht.high _ hle', kernelEntry, if_pos rfl]
    exact leafEntry_newEntry (by decide)
  rintro - s2 ⟨hl2, hk2, hex2, hp2⟩
  -- neither of the two entries cleared so far is in the user area
  have hlow : ∀ u < UPAGES, pte s2.mem r u = pte s.mem r u := fun u hu => by
    rw [hp2, update_of_ne (by omega), hp1, update_of_ne (by omega)]
  refine (uvmfree_meets hl2 ht.npages_le (fun u hu => ?_) fun u hu => ?_).weaken ?_
  · rw [hlow u (hu.trans_le ht.npages_le)]
    exact ht.leaf hu
  · by_cases hup : u < UPAGES
    · rw [hlow u hup]
      exact (umem_eq_none_iff hup).1 (ht.pages.none u hu)
    · rw [hp2, hp1, update_apply, update_apply, ht.high u (by omega), kernelEntry]
      split_ifs <;> exact has_zero _
  · rintro - s' ⟨hl3, hk3, hex3⟩
    exact ⟨hl3, (hk1.trans hk2).trans hk3, hex3.trans (hex2.trans hex1)⟩

/-- `uvmcreate` makes an empty table. -/
theorem uvmcreate_meets (h : Ledger s rs held) (hfew : rs.length < 2 * NPROC) :
    Meets (fun _ => False) uvmcreate s fun o s' => (o = none ∧ s' = { s with exhausted := s.exhausted + 1 }) ∨
        ∃ r, o = some r ∧ Ledger s' (r :: rs) held ∧ Keeps s s' rs held ∧
          pte s'.mem r = (fun _ => 0#64) ∧ s'.exhausted = s.exhausted := by
  rw [uvmcreate]
  refine .bind (kalloc_meets h) ?_
  rintro _ s1 (⟨rfl, rfl⟩ | ⟨p, rfl, hl1, hk1, hex1⟩)
  · exact .pure (.inl ⟨rfl, rfl⟩)
  · have hpf := hl1.frame (owners_pos_of_held (List.mem_cons_self (a := p) (l := held)))
    obtain ⟨hl2, hk2⟩ := hl1.writeHeld (m := fill s1.mem p PGSIZE 0) fun f hf hne =>
      pageEq_fill s1.mem 0 hpf.1 hf hne
    obtain ⟨hl3, hp⟩ := hl2.newRoot (blank_fill s1.mem p) hfew
    exact .step rfl (.pure (.inr ⟨p, rfl, hl3, hk1.trans hk2, hp, hex1⟩))

/-- `proc_pagetable` makes a table with an empty user area, or gives back what it took. -/
theorem procPagetable_meets {trampoline trapframe : Nat} (h : Ledger s rs held) (hfew : rs.length < 2 * NPROC) :
    Meets (fun _ => False) (procPagetable trampoline trapframe) s fun o s' =>
      (o = none ∧ Ledger s' rs held ∧ Keeps s s' rs held ∧ s.exhausted < s'.exhausted) ∨
        ∃ r, o = some r ∧ Ledger s' (r :: rs) held ∧ Keeps s s' rs held ∧
          UserTable s'.mem trampoline trapframe r 0 ∧ s'.exhausted = s.exhausted := by
  have hle : UPAGES ≤ TRAMPOLINE / PGSIZE := by decide
  have hle' : UPAGES ≤ TRAPFRAME / PGSIZE := Nat.le_refl _
  have hzero : npages 0 ≤ UPAGES := by decide
  rw [procPagetable]
  refine (uvmcreate_meets h hfew).bind ?_
  rintro o s1 (⟨rfl, rfl⟩ | ⟨r, rfl, hl1, hk1, hp1, hex1⟩)
  · exact .pure (.inl ⟨rfl, h.exhaust, .exhaust _ _ _, Nat.lt_succ_self _⟩)
  have hinv1 : ∀ u, has (pte s1.mem r u) PTE_V = false := fun u => by
    rw [hp1]
    exact has_zero _
  refine ((mappages_high_meets hl1 hle).mono fun _ hbad =>
    hbad ⟨by decide, by decide, hinv1 _⟩).bind ?_
  rintro e s2 ⟨hl2, hk2, ⟨rfl, hex2, hp2⟩ | ⟨rfl, hex2, hp2⟩⟩
  · -- no page for the tables of the trampoline: the table is empty
    rw [if_pos (by decide)]
    have hinv2 : ∀ u, has (pte s2.mem r u) PTE_V = false := fun u => by
      rw [hp2]
      exact hinv1 u
    refine (uvmfree_meets hl2 hzero (fun u hu => by cases hu) fun u _ => hinv2 u).bind ?_
    rintro - s3 ⟨hl3, hk3, hex3⟩
    exact .pure (.inl ⟨rfl, hl3, (hk1.trans hk2).trans hk3, by omega⟩)
  rw [if_neg (by decide)]
  have hinv2 : ∀ u, u ≠ TRAMPOLINE / PGSIZE → has (pte s2.mem r u) PTE_V = false := fun u hu => by
    rw [hp2, update_of_ne hu]
    exact hinv1 u
  refine ((mappages_high_meets hl2 hle').mono fun _ hbad =>
    hbad ⟨by decide, by decide, hinv2 _ (by decide)⟩).bind ?_
  rintro e s3 ⟨hl3, hk3, ⟨rfl, hex3, hp3⟩ | ⟨rfl, hex3, hp3⟩⟩
  · -- no page for the tables of the trapframe: the trampoline is all there is
    rw [if_pos (by decide)]
    refine ((uvmunmap_high_meets hl3 hle).mono fun _ hbad =>
      hbad ⟨by decide, by decide, ?_⟩).bind ?_
    · rw [hp3, hp2, update_self]
      exact leafEntry_newEntry (by decide)
    rintro - s4 ⟨hl4, hk4, hex4, hp4⟩
    have hinv4 : ∀ u, has (pte s4.mem r u) PTE_V = false := fun u => by
      rw [hp4, update_apply]
      split_ifs with hu
      · exact has_zero _
      · rw [hp3]
        exact hinv2 u hu
    refine (uvmfree_meets hl4 hzero (fun u hu => by cases hu) fun u _ => hinv4 u).bind ?_
    rintro - s5 ⟨hl5, hk5, hex5⟩
    exact .pure (.inl ⟨rfl, hl5, (((hk1.trans hk2).trans hk3).trans hk4).trans hk5, by omega⟩)
  · rw [if_neg (by decide)]
    have hlow : ∀ v < UPAGES, pte s3.mem r v = 0#64 := fun v hv => by
      rw [hp3, hp2, hp1, update_of_ne (by omega), update_of_ne (by omega)]
    refine .pure (.inr ⟨r, rfl, hl3, (hk1.trans hk2).trans hk3, ⟨by decide, ?_, ?_⟩, by omega⟩)
    · have hempty : umem s3.mem r = fun _ => none := by
        funext u
        unfold umem
        split_ifs with hu
        · rw [hlow u hu]
          exact decode_invalid _ (has_zero _)
        · rfl
      rw [hempty]
      exact UMem.pages_empty
    · intro u _
      rw [hp3, hp2, hp1, update_apply, update_apply]
      rfl

end Specs

end Xv6.Vm
