import Xv6.Vm.TableSpec

/-!
# Growing a user area

`uvmalloc` adds cleared pages at the end of a user area, or removes again what it has added. The number
of pages is not limited by the size of the user area but by the memory of the machine: distinct pages of
one table are distinct frames. This is what keeps `uvmalloc` below `TRAPFRAME`.
-/

set_option autoImplicit false

namespace Xv6.Vm

open Function Xv6.Base

theorem npages_le_of_le {a b : Nat} (h : a ≤ b) (hb : b < 2 ^ 63) : npages a ≤ npages b := by
  unfold npages PGROUNDUP PGSIZE
  omega

theorem PGROUNDUP_eq {sz : Nat} (h : sz ≤ TRAPFRAME) :
    PGROUNDUP sz = npages sz * PGSIZE ∧ PGROUNDUP sz ≤ TRAPFRAME := by
  have e : TRAPFRAME = 274877898752 := by decide
  unfold npages PGROUNDUP PGSIZE
  omega

theorem npages_PGROUNDUP {sz : Nat} (h : sz ≤ TRAPFRAME) : npages (PGROUNDUP sz) = npages sz := by
  have e : TRAPFRAME = 274877898752 := by decide
  unfold npages PGROUNDUP PGSIZE
  omega

section

variable {s s' : Kmem} {r : Nat} {rs held : List Nat}

theorem UserTable.roundUp {m : Mem} {trampoline trapframe sz : Nat} (h : UserTable m trampoline trapframe r sz) :
    UserTable m trampoline trapframe r (PGROUNDUP sz) := by
  refine h.congr (PGROUNDUP_eq h.fits).2 ?_ fun _ _ => rfl
  rw [npages_PGROUNDUP h.fits]
  exact h.pages

/-- Entries decide where there is a page. -/
theorem UserTable.of_pte {m m' : Mem} {trampoline trapframe sz : Nat}
    (h : UserTable m trampoline trapframe r sz) (hp : pte m' r = pte m r) : UserTable m' trampoline trapframe r sz := by
  refine h.congr h.fits ⟨fun u hu => ?_, fun u hu => ?_⟩ fun u _ => by rw [hp]
  · by_cases hup : u < UPAGES
    · rw [umem_eq_none_iff hup, hp]
      exact (umem_eq_none_iff hup).1 (h.pages.none u hu)
    · exact if_neg hup
  · have hup : u < UPAGES := hu.trans_le h.npages_le
    obtain ⟨p, hm, hread⟩ := h.pages.some u hu
    rw [umem_of_lt _ _ hup] at hm ⊢
    unfold decode at hm ⊢
    rw [hp]
    split_ifs at hm ⊢ with hv
    cases hm
    exact ⟨_, rfl, hread⟩

/-- Distinct pages of a table are distinct frames, so a user area has no more pages than the machine
has frames. -/
theorem UserTable.npages_le_frames {trampoline tf sz : Nat} (h : Ledger s (r :: rs) held)
    (ht : UserTable s.mem trampoline tf r sz) : npages sz ≤ (PHYSTOP - KERNBASE) / PGSIZE := by
  have hval : ∀ u < npages sz, has (pte s.mem r u) PTE_V = true := fun u hu => (ht.leaf hu).1
  have hframe : ∀ u < npages sz, IsFrame s.kend (PTE2PA (pte s.mem r u)) := fun u hu =>
    h.user_frame (hu.trans_le ht.npages_le) (hval u hu)
  have hmaps : Set.MapsTo (fun u => PTE2PA (pte s.mem r u) / PGSIZE)
      (Finset.range (npages sz)) (Finset.Ico (KERNBASE / PGSIZE) (PHYSTOP / PGSIZE)) := by
    intro u hu
    obtain ⟨hal, hlo, hhi⟩ := hframe u (Finset.mem_range.1 (Finset.mem_coe.1 hu))
    have hend : PHYSTOP = PHYSTOP / PGSIZE * PGSIZE := by decide
    have hk := h.counts.kend_le
    refine Finset.mem_coe.2 (Finset.mem_Ico.2 ⟨Nat.div_le_div_right (hk.trans hlo), ?_⟩)
    rw [Nat.div_lt_iff_lt_mul (by decide), ← hend]
    exact hhi
  have hinj : Set.InjOn (fun u => PTE2PA (pte s.mem r u) / PGSIZE) (Finset.range (npages sz)) := by
    intro u hu v hv huv
    have hu' := Finset.mem_range.1 (Finset.mem_coe.1 hu)
    have hv' := Finset.mem_range.1 (Finset.mem_coe.1 hv)
    have heq : PTE2PA (pte s.mem r u) = PTE2PA (pte s.mem r v) := by
      have h1 := Nat.div_add_mod (PTE2PA (pte s.mem r u)) PGSIZE
      have h2 := Nat.div_add_mod (PTE2PA (pte s.mem r v)) PGSIZE
      rw [(hframe u hu').1, show PTE2PA (pte s.mem r u) / PGSIZE = _ from huv] at h1
      rw [(hframe v hv').1] at h2
      exact h1.symm.trans h2
    refine eq_of_leafCount_le_one (h.shape.leaf_le (view s.mem r) (.head _) _)
      (hu'.trans_le ht.npages_le) (hv'.trans_le ht.npages_le) (maps_self (hval u hu')) ?_
    show maps (pte s.mem r v) (PTE2PA (pte s.mem r u)) = true
    rw [heq]
    exact maps_self (hval v hv')
  have hcard := Finset.card_le_card_of_injOn _ hmaps hinj
  rw [Finset.card_range, Nat.card_Ico] at hcard
  exact hcard

/-- There is always room above a user area for one page more. -/
theorem UserTable.room {trampoline tf a : Nat} (h : Ledger s (r :: rs) held)
    (ht : UserTable s.mem trampoline tf r a) (hal : a % PGSIZE = 0) :
    a / PGSIZE < UPAGES ∧ has (pte s.mem r (a / PGSIZE)) PTE_V = false := by
  have hle := ht.npages_le_frames h
  have hframes : (PHYSTOP - KERNBASE) / PGSIZE < UPAGES := by decide
  rw [npages_of_aligned hal ht.small] at hle
  have hlt : a / PGSIZE < UPAGES := by omega
  refine ⟨hlt, (umem_eq_none_iff hlt).1 (ht.pages.none _ ?_)⟩
  rw [npages_of_aligned hal ht.small]

/-- A user area with one more page at its end. -/
theorem UserTable.grown {trampoline tf a : Nat} {xperm : Pte}
    (ht : UserTable s.mem trampoline tf r a) (hal : a % PGSIZE = 0) (hlt : a / PGSIZE < UPAGES)
    (hg : Grown s s' r (a / PGSIZE) (a / PGSIZE + 1) xperm) : UserTable s'.mem trampoline tf r (a + PGSIZE) := by
  have hnext : (a + PGSIZE) / PGSIZE = a / PGSIZE + 1 := Nat.add_div_right a (by decide)
  have hal' : (a + PGSIZE) % PGSIZE = 0 := by
    rw [Nat.add_mod_right]
    exact hal
  have hfits : a + PGSIZE ≤ TRAPFRAME := by
    have h2 : TRAPFRAME = UPAGES * PGSIZE := by decide
    unfold PGSIZE at *
    omega
  have hn : npages (a + PGSIZE) = a / PGSIZE + 1 := by
    rw [npages_of_aligned hal' (hfits.trans_lt TRAPFRAME_lt), hnext]
  refine ht.congr hfits ⟨fun u hu => ?_, fun u hu => ?_⟩ fun u hu => hg.entry u (by omega)
  · rw [hn] at hu
    rw [hg.umem (by omega), if_neg (by omega)]
    exact ht.pages.none u (by rw [npages_of_aligned hal ht.small]; omega)
  · rw [hn] at hu
    rw [hg.umem (by omega)]
    split_ifs with hin
    · exact ⟨_, rfl, rfl⟩
    · exact ht.pages.some u (by rw [npages_of_aligned hal ht.small]; omega)

section Alloc

variable {trampoline tf oldsz : Nat}

/-- How `uvmalloc` gives up: the pages added so far are removed again. -/
theorem uvmalloc_undo {a : Nat} (h : Ledger s (r :: rs) held) (ht : UserTable s.mem trampoline tf r a)
    (ha : a % PGSIZE = 0) (hold : oldsz % PGSIZE = 0) (hle : oldsz ≤ a) :
    Meets (fun _ => False) (uvmdealloc r a oldsz) s fun _ s' => Ledger s' (r :: rs) held ∧
      Keeps s s' rs held ∧ Unmapped s s' r (oldsz / PGSIZE) (a / PGSIZE) ∧ s'.exhausted = s.exhausted := by
  have hsmall := ht.small
  refine ((uvmdealloc_meets h ht.npages_le).mono fun _ hbad => hbad fun _ hu => ht.leaf hu).weaken ?_
  rw [npages_of_aligned ha hsmall, npages_of_aligned hold (by omega)]
  rintro ret s' (⟨hcmp, -, rfl⟩ | ⟨-, -, hl, hk, hu, hex⟩)
  · exact ⟨h, .refl _ _ _, Unmapped.refl _ _ (Nat.div_le_div_right hcmp), rfl⟩
  · exact ⟨hl, hk, hu, hex⟩

/-- The loop of `uvmalloc` from address `a` on, having added the pages from `oldsz` to `a`. -/
theorem uvmallocLoop_meets {xperm : Pte} (hx : PermOk xperm) (hold : oldsz % PGSIZE = 0) {n a : Nat}
    (h : Ledger s (r :: rs) held) (ht : UserTable s.mem trampoline tf r a) (ha : a % PGSIZE = 0) (hle : oldsz ≤ a) :
    Meets (fun _ => False) (uvmallocLoop r oldsz xperm n a) s fun ok s' =>
      Ledger s' (r :: rs) held ∧ Keeps s s' rs held ∧ (Unshared s r rs held → Unshared s' r rs held) ∧
      (ok = true → a / PGSIZE + n ≤ UPAGES ∧ s'.exhausted = s.exhausted ∧
        Grown s s' r (a / PGSIZE) (a / PGSIZE + n) xperm) ∧
      (ok = false → s.exhausted < s'.exhausted ∧ ∃ hi ≤ UPAGES, a / PGSIZE ≤ hi ∧
        Unmapped s s' r (oldsz / PGSIZE) hi) := by
  -- by induction on the pages left; every state on the way has its ledger in order
  induction n generalizing a s with
  | zero =>
    refine .pure ⟨h, .refl _ _ _, id, fun _ => ⟨?_, rfl, Grown.refl _ _ _ (Nat.le_refl _)⟩,
      fun hf => by cases hf⟩
    have := ht.npages_le
    rwa [npages_of_aligned ha ht.small] at this
  | succ n ih =>
    obtain ⟨hroom, hinv⟩ := ht.room h ha
    rw [uvmallocLoop]
    refine .bind (kalloc_meets h) ?_
    rintro _ s1 (⟨rfl, rfl⟩ | ⟨p, rfl, hl1, hk1, hex1⟩)
    · -- no page: give up at once
      refine (uvmalloc_undo h.exhaust ht ha hold hle).bind ?_
      rintro - s' ⟨hl, hk, hu, hex⟩
      have hk := (Keeps.exhaust s rs held).trans hk
      refine Meets.pure ⟨hl, hk, fun hun => hun.unmapped hk ⟨hu.entry, hu.data⟩, (fun hf => by cases hf),
        fun _ => ⟨?_, a / PGSIZE, hroom.le, Nat.le_refl _, ⟨hu.entry, hu.data⟩⟩⟩
      rw [hex]
      exact Nat.lt_succ_self _
    have ht1 := ht.keep hk1 (.head _)
    have hpte1 : pte s1.mem r = pte s.mem r := hk1.pte (.head _)
    have hd1 : KeepsData s s1 r := hk1.data (.head _)
    have hk1' : Keeps s s1 rs held := hk1.mono (List.sublist_cons_self r rs) (.refl _)
    have hpf := hl1.frame (owners_pos_of_held (List.mem_cons_self (a := p) (l := held)))
    obtain ⟨hlz, hkz⟩ := hl1.writeHeld (m := fill s1.mem p PGSIZE 0) fun f hf hne =>
      pageEq_fill s1.mem 0 hpf.1 hf hne
    obtain ⟨e, s2, hmap, -⟩ := (mappages_one_meets hlz).returns_if ⟨ha, lt_MAXVA_of_page hroom, by
      rw [hkz.pte (.head _), hpte1]
      exact hinv⟩
    refine .step rfl (.step hmap ?_)
    rcases uvmalloc_page_spec hl1 hx hmap hroom.le ht1.guard with
      ⟨rfl, hl2, hk2, hpte2, hd2, hex2⟩ | ⟨rfl, -, hl2, hk2, hun2, hg, -, hex2⟩
    · -- no page for a table: give the page back and give up
      rw [if_pos (by decide)]
      refine .bind (kfree_held_meets hl2) ?_
      rintro - s3 ⟨hl3, hk3, hex3⟩
      have hpte3 : pte s3.mem r = pte s.mem r :=
        (hk3.pte (.head _)).trans (hpte2.trans hpte1)
      have hd3 : KeepsData s s3 r :=
        (hd1.trans hd2 hpte1).trans (hk3.data (.head _)) (hpte2.trans hpte1)
      have hkeep := (hk1'.trans hk2).trans (hk3.mono (List.sublist_cons_self r rs) (.refl _))
      refine (uvmalloc_undo hl3 (ht.of_pte hpte3) ha hold hle).bind ?_
      rintro - s' ⟨hl, hk, hu, hex⟩
      refine .pure ⟨hl, hkeep.trans hk, fun hun => (hun.congr hkeep hpte3).unmapped hk hu,
        (fun hf => by cases hf), fun _ => ⟨by omega, a / PGSIZE, hroom.le, Nat.le_refl _, fun u => ?_,
        fun u hu' hin hval => ?_⟩⟩
      · rw [hu.entry u, hpte3]
      · have hd := hu.data u hu' hin
        rw [hpte3] at hd
        exact (hd3 u hu' hval).trans (hd hval)
    · -- the page is in place: go on with the next one
      rw [if_neg (by decide)]
      have hg1 : Grown s s2 r (a / PGSIZE) (a / PGSIZE + 1) xperm := by
        refine ⟨fun u hu => ?_, fun u hu hin hval => ?_, fun u h1 h2 => ?_⟩
        · rw [hg.entry u hu, hpte1]
        · have hd := hg.data u hu hin
          rw [hpte1] at hd
          exact (hd1 u hu hval).trans (hd hval)
        · have := hg.added u h1 h2
          rwa [hpte1] at this
      have hrest := ih hl2 (ht.grown ha hroom hg1) (by rw [Nat.add_mod_right]; exact ha) (by omega)
      rw [next_div] at hrest
      refine hrest.weaken ?_
      rintro ok s' ⟨hl, hk, hun, htrue, hfalse⟩
      refine ⟨hl, (hk1'.trans hk2).trans hk, fun h0 => hun (hun2 (h0.congr hk1' hpte1)), fun hok => ?_, fun hok => ?_⟩
      · obtain ⟨h1, h2, h3⟩ := htrue hok
        refine ⟨by omega, by omega, ?_⟩
        rw [show a / PGSIZE + (n + 1) = a / PGSIZE + 1 + n by omega]
        exact hg1.trans (by omega) (by omega) (by omega) h3
      · obtain ⟨h1, hi, hhi, h2, h4⟩ := hfalse hok
        exact ⟨by omega, hi, hhi, by omega, hg1.unmapped (Nat.div_le_div_right hle) h2 h4⟩

/-- `uvmalloc` on the table of a process: the pages from the old to the new size are added cleared, or
nothing visible changes and a call of `kalloc` has returned 0. -/
theorem uvmalloc_meets (newsz : Nat) {xperm : Pte} (h : Ledger s (r :: rs) held)
    (ht : UserTable s.mem trampoline tf r oldsz) (hx : PermOk xperm) :
    Meets (fun _ => False) (uvmalloc r oldsz newsz xperm) s fun ret s' =>
      Ledger s' (r :: rs) held ∧ Keeps s s' rs held ∧ (Unshared s r rs held → Unshared s' r rs held) ∧
      ((ret = max oldsz newsz ∧ s'.exhausted = s.exhausted ∧ UserTable s'.mem trampoline tf r (max oldsz newsz) ∧
          umem s'.mem r = (umem s.mem r).grow (npages oldsz) (npages (max oldsz newsz)) xperm ∧
          (∀ u, npages oldsz ≤ u → u < npages newsz → has (pte s'.mem r u) PTE_COW = false)) ∨
        (ret = 0 ∧ s.exhausted < s'.exhausted ∧ UserTable s'.mem trampoline tf r oldsz ∧ umem s'.mem r = umem s.mem r ∧
          ∀ v, has (pte s.mem r v) PTE_V = true ∨ has (pte s'.mem r v) PTE_V = true →
            pte s'.mem r v = pte s.mem r v)) := by
  refine .ite (fun hcmp => .pure ?_) fun hcmp => ?_
  · -- a smaller size changes nothing
    rw [Nat.max_eq_left (by omega)]
    refine ⟨h, .refl _ _ _, id, .inl ⟨rfl, rfl, ht, funext fun u => (if_neg (by omega)).symm, ?_⟩⟩
    intro u h1 h2
    have := npages_le_of_le (Nat.le_of_lt hcmp) ht.small
    omega
  refine (uvmallocLoop_meets hx (PGROUNDUP_dvd _) h ht.roundUp (PGROUNDUP_dvd _) (Nat.le_refl _)).bind ?_
  rintro ok s' ⟨hl, hk, hun, htrue, hfalse⟩
  rw [Nat.max_eq_right (by omega : oldsz ≤ newsz)]
  cases ok with
  | true =>
    obtain ⟨h1, h2, hg⟩ := htrue rfl
    have hpages : PGROUNDUP oldsz / PGSIZE + (newsz - PGROUNDUP oldsz + PGSIZE - 1) / PGSIZE =
        npages newsz ∧ newsz < 2 ^ 63 := by
      have hlt : UPAGES < 2 ^ 27 := UPAGES_lt
      have hsmall := ht.small
      unfold npages PGROUNDUP PGSIZE at *
      omega
    obtain ⟨hpages, hsmall⟩ := hpages
    rw [hpages] at h1 hg
    have hum := funext (hg.umem h1)
    refine .pure ⟨hl, hk, hun, .inl ⟨rfl, h2, ht.congr ((npages_le_UPAGES_iff hsmall).1 h1) ?_ ?_,
      hum, fun u hlo hhi => (hg.added u hlo hhi).2.2⟩⟩
    · rw [hum]
      exact ht.pages.grow (npages_le_of_le (by omega) hsmall) xperm
    · intro u hu
      exact hg.entry u (by omega)
  | false =>
    obtain ⟨h1, hi, hhi, -, hu⟩ := hfalse rfl
    -- the entries that were cleared were empty before
    have hnone : ∀ u, npages oldsz ≤ u → u < hi → has (pte s.mem r u) PTE_V = false := fun u hlo hlt =>
      (umem_eq_none_iff (by omega)).1 (ht.pages.none u hlo)
    have hum : umem s'.mem r = umem s.mem r := funext fun u => by
      rw [hu.umem u]
      split_ifs with hin
      · exact (ht.pages.none u hin.1).symm
      · rfl
    refine .pure ⟨hl, hk, hun, .inr ⟨rfl, h1, ht.congr ht.fits ?_ ?_, hum, fun v hv => ?_⟩⟩
    · rw [hum]
      exact ht.pages
    · intro u hu'
      rw [hu.entry u, if_neg (by omega)]
    · have hentry := hu.entry v
      by_cases hin : npages oldsz ≤ v ∧ v < hi
      · rw [show PGROUNDUP oldsz / PGSIZE = npages oldsz from rfl, if_pos hin] at hentry
        rw [hentry, hnone v hin.1 hin.2, has_zero] at hv
        simp at hv
      · rw [hentry]
        exact if_neg hin

end Alloc

end

end Xv6.Vm
