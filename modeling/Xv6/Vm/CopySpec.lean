import Xv6.Vm.Teardown

/-!
# Copy-on-write copies of address spaces

`uvmcopy` maps every page of a process into a second table and takes the write permission away in
both. The address space of the first table is not changed by that, and the second one shows the same
pages. When a page for a table is missing half way, what the second table got is taken back.
-/

set_option autoImplicit false

namespace Xv6.Vm

open Function Xv6.Base

/-! ## Entries without write permission -/

variable {i : Nat}

theorem getLsbD_cowEntry (w : Pte) (hi : i < 64) :
    (cowEntry w).getLsbD i = ((w.getLsbD i && decide (i ≠ 2)) || decide (i = 8)) := by
  unfold cowEntry PTE_W PTE_COW
  rw [BitVec.getLsbD_or, BitVec.getLsbD_and, BitVec.getLsbD_not, getLsbD_flag (by decide), getLsbD_flag (by decide)]
  have e1 : decide (2 = i) = decide (i = 2) := decide_eq_decide.2 eq_comm
  have e2 : decide (8 = i) = decide (i = 8) := decide_eq_decide.2 eq_comm
  rw [e1, e2]
  simp [hi]

/-- The entry that `uvmcopy` leaves in the first table. -/
def shareEntry (w : Pte) : Pte := if has w PTE_W || has w PTE_COW then cowEntry w else w

theorem shareEntry_bit (w : Pte) (hi : i < 64) (h2 : i ≠ 2) (h8 : i ≠ 8) : (shareEntry w).getLsbD i = w.getLsbD i := by
  unfold shareEntry
  split_ifs
  · rw [getLsbD_cowEntry w hi]
    simp [h2, h8]
  · rfl

theorem shareEntry_not_W (w : Pte) : has (shareEntry w) PTE_W = false := by
  unfold shareEntry
  split_ifs with h
  · rw [has_W, getLsbD_cowEntry w (by decide)]
    simp
  · simp only [Bool.or_eq_true, not_or, Bool.not_eq_true] at h
    exact h.1

theorem shareEntry_writable (w : Pte) :
    (has (shareEntry w) PTE_W || has (shareEntry w) PTE_COW) = (has w PTE_W || has w PTE_COW) := by
  unfold shareEntry
  split_ifs with h
  · rw [h, has_W, has_COW, getLsbD_cowEntry w (by decide), getLsbD_cowEntry w (by decide)]
    simp
  · rfl

theorem shareEntry_V (w : Pte) : has (shareEntry w) PTE_V = has w PTE_V := by
  rw [has_V, has_V, shareEntry_bit w (by decide) (by decide) (by decide)]

theorem PTE2PA_shareEntry (w : Pte) : PTE2PA (shareEntry w) = PTE2PA w := by
  refine PTE2PA_congr fun i hi => ?_
  by_cases h64 : i < 64
  · exact shareEntry_bit w h64 (by omega) (by omega)
  · rw [BitVec.getLsbD_of_ge _ _ (by omega), BitVec.getLsbD_of_ge _ _ (by omega)]

/-- Both processes see the page as before. -/
theorem decode_shareEntry (m : Mem) (w : Pte) : decode m (shareEntry w) = decode m w := by
  unfold decode
  rw [shareEntry_V, shareEntry_writable, PTE2PA_shareEntry, has_R, has_R, has_X, has_X, has_U, has_U,
    shareEntry_bit w (by decide) (by decide) (by decide),
    shareEntry_bit w (by decide) (by decide) (by decide),
    shareEntry_bit w (by decide) (by decide) (by decide)]

variable {w : Pte}

theorem shareEntry_ok {own : Nat → Nat} (h : EntryOk own w) : EntryOk own (shareEntry w) := by
  refine ⟨fun i hi => ?_, fun hw => ?_, fun hb => ?_⟩
  · by_cases h64 : i < 64
    · rw [shareEntry_bit w h64 (by omega) (by omega)]
      exact h.high i hi
    · exact BitVec.getLsbD_of_ge _ _ (by omega)
  · rw [shareEntry_not_W] at hw
    cases hw
  · rw [shareEntry_not_W] at hb
    cases hb.1

theorem PTE_FLAGS_low (w : Pte) (i : Nat) (hi : 10 ≤ i) : (PTE_FLAGS w).getLsbD i = false := by
  rw [getLsbD_PTE_FLAGS]
  simp
  omega

/-- The entry that `uvmcopy` makes in the second table. -/
theorem newEntry_flags_bit (pa : Nat) (w : Pte) (hi : i < 10) (h0 : i ≠ 0) :
    (newEntry pa (PTE_FLAGS w)).getLsbD i = w.getLsbD i := by
  rw [getLsbD_newEntry _ _ hi h0, getLsbD_PTE_FLAGS]
  simp [hi]

theorem decode_newEntry_flags {m : Mem} (hv : has w PTE_V = true) (hlt : PTE2PA w < 2 ^ 64) :
    decode m (newEntry (PTE2PA w) (PTE_FLAGS w)) = decode m w := by
  unfold decode
  rw [if_pos (newEntry_valid _ _), if_pos hv, PTE2PA_newEntry (PTE2PA_dvd w) hlt (PTE_FLAGS_low w)]
  simp only [has_R, has_W, has_X, has_U, has_COW]
  rw [newEntry_flags_bit _ w (by decide) (by decide), newEntry_flags_bit _ w (by decide) (by decide),
    newEntry_flags_bit _ w (by decide) (by decide), newEntry_flags_bit _ w (by decide) (by decide),
    newEntry_flags_bit _ w (by decide) (by decide)]

/-! ## One page of `uvmcopy` -/

theorem sd64_ld64 (m : Mem) (a : Nat) : sd64 m a (ld64 m a) = m := by
  unfold sd64 ld64
  have hlt : loadLE m a 8 < 2 ^ 64 := loadLE_lt m 8 a
  rw [BitVec.toNat_ofNat, Nat.mod_eq_of_lt hlt]
  exact storeLE_loadLE m a 8

variable {s : Kmem} {a : Nat}

/-- Taking write permission away, written as a store in either case. -/
theorem mark_eq (hw : ld64 s.mem a = w) :
    (if has w PTE_W || has w PTE_COW then writeWord a (cowEntry w) else pure () : KM Unit) s =
      .ok ((), { s with mem := sd64 s.mem a (shareEntry w) }) := by
  unfold shareEntry
  split_ifs
  · rfl
  · rw [← hw, sd64_ld64]
    rfl

/-- The table at `r` maps the same physical pages and shows the same address space. -/
structure SameSpace (s s' : Kmem) (r : Nat) : Prop where
  umem : umem s'.mem r = umem s.mem r
  valid : ∀ u, has (pte s'.mem r u) PTE_V = has (pte s.mem r u) PTE_V
  page : ∀ u, PTE2PA (pte s'.mem r u) = PTE2PA (pte s.mem r u)
  high : ∀ u, UPAGES ≤ u → pte s'.mem r u = pte s.mem r u

variable {s' : Kmem} {r : Nat}

theorem SameSpace.of_eq (hp : pte s'.mem r = pte s.mem r) (hd : KeepsData s s' r) : SameSpace s s' r :=
  ⟨umem_congr hp hd, fun u => by rw [hp], fun u => by rw [hp], fun u _ => by rw [hp]⟩

theorem Keeps.sameSpace {roots held : List Nat} (h : Keeps s s' roots held) (hr : r ∈ roots) : SameSpace s s' r :=
  SameSpace.of_eq (h.pte hr) (h.data hr)

theorem SameSpace.refl (s : Kmem) (r : Nat) : SameSpace s s r :=
  ⟨rfl, fun _ => rfl, fun _ => rfl, fun _ _ => rfl⟩

theorem SameSpace.trans {s'' : Kmem} (h : SameSpace s s' r) (h' : SameSpace s' s'' r) : SameSpace s s'' r :=
  ⟨h'.umem.trans h.umem, fun u => (h'.valid u).trans (h.valid u),
    fun u => (h'.page u).trans (h.page u), fun u hu => (h'.high u hu).trans (h.high u hu)⟩

/-! ## Entries that become copy on write -/

/-- An entry that is copy on write already stays as it is. -/
theorem cowEntry_of_cow (hW : has w PTE_W = false) (hC : has w PTE_COW = true) : cowEntry w = w := by
  refine BitVec.eq_of_getLsbD_eq fun i hi => ?_
  rw [getLsbD_cowEntry w hi]
  rw [has_W] at hW
  rw [has_COW] at hC
  by_cases h8 : i = 8
  · subst h8
    simp [hC]
  · by_cases h2 : i = 2
    · subst h2
      rw [hW]
      rfl
    · simp [h2, h8]

/-- The table has the same pages, and entries differ at most in that a writable one has become copy on write. -/
structure Marked (m m' : Mem) (r : Nat) : Prop where
  tables : tables m' 2 r = tables m 2 r
  entry : ∀ u, pte m' r u = pte m r u ∨ (has (pte m r u) PTE_W = true ∧ pte m' r u = cowEntry (pte m r u))

theorem Marked.refl (m : Mem) (r : Nat) : Marked m m r := ⟨rfl, fun _ => .inl rfl⟩

theorem cowEntry_not_W (w : Pte) : has (cowEntry w) PTE_W = false := by
  rw [has_W, getLsbD_cowEntry w (by decide)]
  simp

theorem Marked.trans {m m' m'' : Mem} (h : Marked m m' r) (h' : Marked m' m'' r) : Marked m m'' r := by
  refine ⟨h'.tables.trans h.tables, fun u => ?_⟩
  rcases h'.entry u with h1 | ⟨hw, h1⟩
  · rw [h1]
    exact h.entry u
  · rcases h.entry u with h2 | ⟨-, h2⟩
    · rw [h2] at hw h1
      exact .inr ⟨hw, h1⟩
    · rw [h2, cowEntry_not_W] at hw
      cases hw

theorem Keeps.marked {roots held : List Nat} (h : Keeps s s' roots held) (hr : r ∈ roots) : Marked s.mem s'.mem r :=
  ⟨congrArg PT.tabs (h.view hr), fun u => .inl (by rw [h.pte hr])⟩

section Copy

variable {s : Kmem} {old new : Nat} {rs held : List Nat}

/-- One entry of the parent is marked. -/
theorem Ledger.marked {v a : Nat} (h : Ledger s (old :: rs) held) (hv : v < UPAGES) (hs : slot s.mem v 2 old = some a) :
    Marked s.mem (sd64 s.mem a (shareEntry (pte s.mem old v))) old := by
  obtain ⟨hview, -, -⟩ := h.store_view (hv.trans UPAGES_lt) hs (shareEntry (pte s.mem old v))
  have hp : pte (sd64 s.mem a (shareEntry (pte s.mem old v))) old =
      update (pte s.mem old) v (shareEntry (pte s.mem old v)) := congrArg PT.leaf hview
  refine ⟨congrArg PT.tabs hview, fun u => ?_⟩
  rw [hp]
  by_cases hu : u = v
  · subst hu
    rw [update_self]
    unfold shareEntry
    by_cases hW : has (pte s.mem old u) PTE_W = true
    · exact .inr ⟨hW, if_pos (by rw [hW]; rfl)⟩
    · rw [Bool.not_eq_true] at hW
      by_cases hC : has (pte s.mem old u) PTE_COW = true
      · rw [if_pos (by rw [hC, hW]; rfl), cowEntry_of_cow hW hC]
        exact .inl rfl
      · rw [Bool.not_eq_true] at hC
        exact .inl (if_neg (by rw [hW, hC]; decide))
  · rw [update_of_ne hu]
    exact .inl rfl

/-- Taking the write permission of a page away is not visible. -/
theorem mark_spec {v a : Nat} (h : Ledger s (old :: rs) held) (hv : v < UPAGES)
    (hval : has (pte s.mem old v) PTE_V = true) (hs : slot s.mem v 2 old = some a) :
    Ledger { s with mem := sd64 s.mem a (shareEntry (pte s.mem old v)) } (old :: rs) held ∧
      Keeps s { s with mem := sd64 s.mem a (shareEntry (pte s.mem old v)) } rs held ∧
      SameSpace s { s with mem := sd64 s.mem a (shareEntry (pte s.mem old v)) } old ∧
      pte (sd64 s.mem a (shareEntry (pte s.mem old v))) old v = shareEntry (pte s.mem old v) := by
  obtain ⟨hl, hk, hp, hd⟩ := h.setFlags hv hs (shareEntry_V _) (PTE2PA_shareEntry _) fun _ =>
    shareEntry_ok (h.shape.entry (view s.mem old) (.head _) v hv hval)
  refine ⟨hl, hk, ⟨?_, ?_, ?_, ?_⟩, ?_⟩
  · refine (umem_update hv hp fun u hu _ hu' => hd u hu hu').trans ?_
    rw [decode_shareEntry, decode_congr fun _ => hd v hv hval, ← umem_of_lt _ _ hv, update_eq_self]
  · intro u
    rw [hp]
    by_cases hu : u = v
    · subst hu
      rw [update_self, shareEntry_V]
    · rw [update_of_ne hu]
  · intro u
    rw [hp]
    by_cases hu : u = v
    · subst hu
      rw [update_self, PTE2PA_shareEntry]
    · rw [update_of_ne hu]
  · intro u hu
    rw [hp, update_of_ne (by omega)]
  · rw [hp, update_self]

/-- The second table maps pages below `v` only, and what it maps the first table maps too. -/
def Shared (m : Mem) (new old v : Nat) : Prop :=
  ∀ u < UPAGES, has (pte m new u) PTE_V = true →
    u < v ∧ maps (pte m old u) (PTE2PA (pte m new u)) = true

section

variable (h : Ledger s (new :: old :: rs) held)
include h

theorem Shared.fresh {v : Nat}
    (hsh : Shared s.mem new old v) (hv : v < UPAGES) (hval : has (pte s.mem old v) PTE_V = true) :
    leafCount (pte s.mem new) (PTE2PA (pte s.mem old v)) = 0 := by
  by_contra hne
  obtain ⟨u, hu, hm⟩ := leafCount_pos_iff.1 (Nat.pos_of_ne_zero hne)
  obtain ⟨huval, hpa⟩ := maps_iff.1 hm
  obtain ⟨huv, hmap⟩ := hsh u hu huval
  -- the first table would map the page twice
  rw [hpa] at hmap
  have hle := h.shape.leaf_le (view s.mem old) (.tail _ (.head _))
    (PTE2PA (pte s.mem old v))
  have := eq_of_leafCount_le_one hle hu hv hmap (maps_self hval)
  omega

/-- One page of `uvmcopy` whose table could not be completed. -/
theorem uvmcopy_page_fail {r : Int} {s2 : Kmem} (hv : i / PGSIZE < UPAGES)
    (hval : has (pte s.mem old (i / PGSIZE)) PTE_V = true) (hs : slot s.mem (i / PGSIZE) 2 old = some a)
    (hmap : mappages new i PGSIZE (PTE2PA (pte s.mem old (i / PGSIZE)))
      (PTE_FLAGS (shareEntry (pte s.mem old (i / PGSIZE))))
      { s with mem := sd64 s.mem a (shareEntry (pte s.mem old (i / PGSIZE))) } = .ok (r, s2))
    (hr : r ≠ 0) :
    Ledger s2 (new :: old :: rs) held ∧ Keeps s s2 rs held ∧ SameSpace s s2 old ∧
      SameSpace s s2 new ∧ Marked s.mem s2.mem old ∧ s.exhausted < s2.exhausted := by
  obtain ⟨hl1, hk1, hsp1, -⟩ := mark_spec (h.permRoots (.swap ..)) hv hval hs
  obtain ⟨-, -, s1, hl2, hk2, hp2, hd2, hcase⟩ :=
    (mappages_one_meets (hl1.permRoots (.swap ..))).post _ _ hmap
  rcases hcase with ⟨-, rfl, hex⟩ | ⟨rfl, -⟩
  · refine ⟨hl2, ?_, ?_, ?_, ?_, hex⟩
    · exact (hk1.mono (List.sublist_cons_self ..) (.refl _)).trans
        (hk2.mono (List.sublist_cons_self ..) (.refl _))
    · exact hsp1.trans (hk2.sameSpace (.head _))
    · exact (hk1.sameSpace (.head _)).trans (SameSpace.of_eq hp2 hd2)
    · exact ((h.permRoots (.swap ..)).marked hv hs).trans (hk2.marked (.head _))
  · exact absurd rfl hr

/-- One page of `uvmcopy` that has been shared. -/
theorem uvmcopy_page_ok {s2 s3 : Kmem} (hv : i / PGSIZE < UPAGES)
    (hsh : Shared s.mem new old (i / PGSIZE)) (hval : has (pte s.mem old (i / PGSIZE)) PTE_V = true)
    (hs : slot s.mem (i / PGSIZE) 2 old = some a) (hmap : mappages new i PGSIZE (PTE2PA (pte s.mem old (i / PGSIZE)))
      (PTE_FLAGS (shareEntry (pte s.mem old (i / PGSIZE))))
      { s with mem := sd64 s.mem a (shareEntry (pte s.mem old (i / PGSIZE))) } = .ok (0, s2))
    (hinc : incref (PTE2PA (pte s.mem old (i / PGSIZE))) s2 = .ok ((), s3)) :
    Ledger s3 (new :: old :: rs) held ∧ Keeps s s3 rs held ∧ SameSpace s s3 old ∧
      Shared s3.mem new old (i / PGSIZE + 1) ∧
      umem s3.mem new = update (umem s.mem new) (i / PGSIZE) (umem s.mem old (i / PGSIZE)) ∧
      (∀ u, u ≠ i / PGSIZE → pte s3.mem new u = pte s.mem new u) ∧
      Marked s.mem s3.mem old ∧ s3.exhausted = s.exhausted := by
  have hpos : 0 < owners (views s.mem (new :: old :: rs)) held (PTE2PA (pte s.mem old (i / PGSIZE))) :=
    owners_pos_of_maps (T := view s.mem old) (.tail _ (.head _)) hv (maps_self hval)
  have hlt : PTE2PA (pte s.mem old (i / PGSIZE)) < 2 ^ 62 :=
    Nat.lt_trans (h.frame hpos).2.2 (by decide)
  obtain ⟨hl1, hk1, hsp1, hpv⟩ := mark_spec (h.permRoots (.swap ..)) hv hval hs
  obtain ⟨-, -, t, hl2, hk2, hp2, hd2, hcase⟩ :=
    (mappages_one_meets (hl1.permRoots (.swap ..))).post _ _ hmap
  rcases hcase with ⟨hneg, -⟩ | ⟨-, hex, b, hslot, hinv, rfl⟩
  · cases hneg
  -- the entry of the first table and the new entry
  have hpnew : pte t.mem new = pte s.mem new :=
    hp2.trans (hk1.pte (.head _))
  have hpold : pte t.mem old (i / PGSIZE) = shareEntry (pte s.mem old (i / PGSIZE)) := by
    rw [show pte t.mem old = _ from hk2.pte (.head _)]
    exact hpv
  have hE : PTE2PA (newEntry (PTE2PA (pte s.mem old (i / PGSIZE)))
      (PTE_FLAGS (shareEntry (pte s.mem old (i / PGSIZE))))) = PTE2PA (pte s.mem old (i / PGSIZE)) :=
    PTE2PA_newEntry (PTE2PA_dvd _) (by omega) (PTE_FLAGS_low _)
  obtain ⟨hl3, hk3, hp3, hd3, hex3⟩ := hl2.share (w := newEntry (PTE2PA (pte s.mem old (i / PGSIZE)))
      (PTE_FLAGS (shareEntry (pte s.mem old (i / PGSIZE))))) hv hslot
    (by rw [hp2]; exact hinv) (newEntry_valid _ _)
    (by rw [has_W, newEntry_flags_bit _ _ (by decide) (by decide), ← has_W]
        exact shareEntry_not_W _)
    (fun j hj => getLsbD_newEntry_high hlt (PTE_FLAGS_low _) hj)
    (by rw [hE, hpnew]; exact hsh.fresh h hv hval)
    (.head _) hv
    (by rw [hE, hpold]; exact maps_iff.2 ⟨(shareEntry_V _).trans hval, PTE2PA_shareEntry _⟩)
    (by rw [hpold]; exact shareEntry_not_W _)
    (by rw [hE]; exact hinc)
  have hspold : SameSpace s s3 old := (hsp1.trans (hk2.sameSpace (.head _))).trans
    (hk3.sameSpace (.head _))
  have hpold3 : pte s3.mem old (i / PGSIZE) = shareEntry (pte s.mem old (i / PGSIZE)) := by
    rw [show pte s3.mem old = _ from hk3.pte (.head _)]
    exact hpold
  refine ⟨hl3, ?_, hspold, ?_, ?_, ?_, ?_, hex3.trans hex⟩
  · exact ((hk1.mono (List.sublist_cons_self ..) (.refl _)).trans
      (hk2.mono (List.sublist_cons_self ..) (.refl _))).trans
      (hk3.mono (List.sublist_cons_self ..) (.refl _))
  · intro u hu huval
    rw [hp3] at huval ⊢
    by_cases huv : u = i / PGSIZE
    · subst huv
      rw [update_self, hE, hpold3]
      exact ⟨Nat.lt_succ_self _, maps_iff.2 ⟨(shareEntry_V _).trans hval, PTE2PA_shareEntry _⟩⟩
    · rw [update_of_ne huv, hpnew] at huval ⊢
      obtain ⟨hlt', hm⟩ := hsh u hu huval
      refine ⟨by omega, maps_iff.2 ?_⟩
      rw [hspold.valid u, hspold.page u]
      exact maps_iff.1 hm
  · rw [umem_update hv hp3 fun u hu _ hu' => hd3 u hu hu']
    have h1 : umem t.mem new = umem s.mem new :=
      (umem_congr hp2 hd2).trans (hk1.umem (.head _))
    have h2 : decode s3.mem (newEntry (PTE2PA (pte s.mem old (i / PGSIZE)))
        (PTE_FLAGS (shareEntry (pte s.mem old (i / PGSIZE))))) = umem s.mem old (i / PGSIZE) := by
      rw [← hspold.umem, umem_of_lt _ _ hv, hpold3, ← PTE2PA_shareEntry]
      refine decode_newEntry_flags ((shareEntry_V _).trans hval) ?_
      rw [PTE2PA_shareEntry]
      omega
    rw [h1, h2]
  · intro u hu
    rw [hp3, update_of_ne hu, hpnew]
  · exact (((h.permRoots (.swap ..)).marked hv hs).trans
      (hk2.marked (.head _))).trans (hk3.marked (.head _))

/-- `uvmcopy` from address `i` on. It panics only if a page to be copied is not there, or if a page
that it has to give back is not. -/
theorem uvmcopyLoop_meets {n : Nat}
    (hsh : Shared s.mem new old (i / PGSIZE)) (hal : i % PGSIZE = 0) (hle : i / PGSIZE + n ≤ UPAGES) :
    Meets (fun _ => ¬ ((∀ u < i / PGSIZE + n, ∃ p, umem s.mem old u = some p ∧ p.read = true) ∧
        ∀ u < i / PGSIZE, ∃ p, umem s.mem new u = some p ∧ p.read = true))
      (uvmcopyLoop old new n i) s fun ret s' => Ledger s' (new :: old :: rs) held ∧ Keeps s s' rs held ∧
        SameSpace s s' old ∧ Marked s.mem s'.mem old ∧ (∀ u, UPAGES ≤ u → pte s'.mem new u = pte s.mem new u) ∧
        ((ret = 0 ∧ s'.exhausted = s.exhausted ∧ Shared s'.mem new old (i / PGSIZE + n) ∧ ∀ u, umem s'.mem new u =
              if i / PGSIZE ≤ u ∧ u < i / PGSIZE + n then umem s.mem old u else umem s.mem new u) ∨
          (ret = -1 ∧ s.exhausted < s'.exhausted ∧ ∀ u < UPAGES, has (pte s'.mem new u) PTE_V = false)) := by
  induction n generalizing i s with
  | zero =>
    refine .pure ⟨h, .refl _ _ _, SameSpace.refl _ _, Marked.refl _ _, fun _ _ => rfl,
      Or.inl ⟨rfl, rfl, hsh, fun u => ?_⟩⟩
    rw [if_neg (by omega)]
  | succ n ih =>
    have hv : i / PGSIZE < UPAGES := by omega
    have hva := lt_MAXVA_of_page hv
    rw [uvmcopyLoop]
    refine .step (walk_false hva old s) ?_
    cases hs : slot s.mem (i / PGSIZE) 2 old with
    | none =>
      refine .throw fun hc => ?_
      obtain ⟨p, hp, hread⟩ := hc.1 (i / PGSIZE) (by omega)
      exact absurd (leafEntry_of_page hp hread).1 (by rw [slot_none_invalid hs]; decide)
    | some a =>
      have hword := slot_isSome_leaf (MAXVA_pages hva) hs
      refine .step rfl ?_
      rw [hword]
      refine .ite (fun hno => .throw fun hc => ?_) fun hno => ?_
      · obtain ⟨p, hp, hread⟩ := hc.1 (i / PGSIZE) (by omega)
        simp [(leafEntry_of_page hp hread).1] at hno
      have hval : has (pte s.mem old (i / PGSIZE)) PTE_V = true := by simpa using hno
      refine .step (mark_eq hword) (.step rfl ?_)
      rw [ld64_sd64]
      -- the page is not mapped in the new table yet
      obtain ⟨hl1, hk1, -, -⟩ := mark_spec (h.permRoots (.swap ..)) hv hval hs
      have hinv : has (pte (sd64 s.mem a (shareEntry (pte s.mem old (i / PGSIZE)))) new (i / PGSIZE))
          PTE_V = false := by
        rw [hk1.pte (.head _)]
        by_contra hc
        have := (hsh _ hv (by simpa using hc)).1
        omega
      obtain ⟨e, s2, hmap, -⟩ :=
        (mappages_one_meets (hl1.permRoots (.swap ..))).returns_if ⟨hal, hva, hinv⟩
      refine .step hmap (.ite (fun hr0 => ?_) fun hr0 => ?_)
      · -- a page for a table is missing: undo
        obtain ⟨hl2, hk2, hold2, hnew2, hm2, hex2⟩ := uvmcopy_page_fail h hv hval hs hmap hr0
        rw [uvmunmap, if_neg (by decide)]
        refine ((uvmunmapLoop_free_meets hl2 (by decide) (by rw [Nat.zero_div]; omega)).mono
          fun _ hbad hc => hbad fun u _ hu => ?_).bind ?_
        · rw [Nat.zero_div, Nat.zero_add] at hu
          obtain ⟨q, hq, hqread⟩ := hc.2 u hu
          rw [← hnew2.umem] at hq
          exact leafEntry_of_page hq hqread
        rintro - s3 ⟨hl3, hk3, hu3, hex3⟩
        rw [Nat.zero_div, Nat.zero_add] at hu3
        refine .pure ⟨hl3, hk2.trans (hk3.mono (List.sublist_cons_self ..) (.refl _)),
          hold2.trans (hk3.sameSpace (.head _)),
          hm2.trans (hk3.marked (.head _)), fun u hu => ?_,
          Or.inr ⟨rfl, by omega, fun u hu => ?_⟩⟩
        · rw [hu3.entry u, if_neg (by omega), hnew2.high u hu]
        · rw [hu3.entry u]
          split_ifs with hin
          · exact has_zero _
          · by_contra hn
            have huval : has (pte s.mem new u) PTE_V = true := by
              rw [← hnew2.valid u]
              simpa using hn
            have := (hsh u hu huval).1
            omega
      · obtain rfl : e = 0 := by simpa using hr0
        refine .step rfl ?_
        obtain ⟨hl3, hk3, hold3, hsh3, hum3, hpte3, hm3, hex3⟩ :=
          uvmcopy_page_ok h hv hsh hval hs hmap rfl
        have hrest := ih hl3 (by rw [next_div]; exact hsh3) (by rw [Nat.add_mod_right]; exact hal)
          (by rw [next_div]; omega)
        rw [next_div] at hrest
        refine (hrest.mono fun _ hbad hc => hbad ⟨fun u hu => ?_, fun u hu => ?_⟩).weaken ?_
        · rw [hold3.umem]
          exact hc.1 u (by omega)
        · rw [hum3]
          by_cases hu' : u = i / PGSIZE
          · rw [hu', update_self]
            exact hc.1 _ (by omega)
          · rw [update_of_ne hu']
            exact hc.2 u (by omega)
        rintro ret s' ⟨hl, hk, hold, hm, hhigh, hcase⟩
        refine ⟨hl, hk3.trans hk, hold3.trans hold, hm3.trans hm, fun u hu => ?_, ?_⟩
        · rw [hhigh u hu, hpte3 u (by omega)]
        · rcases hcase with ⟨rfl, hex, hshend, hum⟩ | ⟨rfl, hex, hum⟩
          · have hsum : i / PGSIZE + (n + 1) = i / PGSIZE + 1 + n := by omega
            refine .inl ⟨rfl, hex.trans hex3, by rw [hsum]; exact hshend, fun u => ?_⟩
            rw [hum u, hum3, hold3.umem]
            by_cases hu : u = i / PGSIZE
            · subst hu
              rw [if_neg (by omega), if_pos (by omega), update_self]
            · rw [update_of_ne hu]
              refine if_congr ?_ rfl rfl
              omega
          · exact .inr ⟨rfl, by omega, hum⟩

/-- `uvmcopy` into a table with an empty user area. -/
theorem uvmcopy_meets {sz : Nat}
    (hempty : ∀ u < UPAGES, has (pte s.mem new u) PTE_V = false) (hle : (sz + PGSIZE - 1) / PGSIZE ≤ UPAGES) :
    Meets (fun _ => ¬ ∀ u < (sz + PGSIZE - 1) / PGSIZE, ∃ p, umem s.mem old u = some p ∧ p.read = true)
      (uvmcopy old new sz) s fun ret s' => Ledger s' (new :: old :: rs) held ∧ Keeps s s' rs held ∧
        SameSpace s s' old ∧ Marked s.mem s'.mem old ∧ (∀ u, UPAGES ≤ u → pte s'.mem new u = pte s.mem new u) ∧
        ((ret = 0 ∧ s'.exhausted = s.exhausted ∧
            (∀ u < UPAGES, has (pte s'.mem new u) PTE_V = true → u < (sz + PGSIZE - 1) / PGSIZE) ∧
            ∀ u, umem s'.mem new u = if u < (sz + PGSIZE - 1) / PGSIZE then umem s.mem old u else none) ∨
          (ret = -1 ∧ s.exhausted < s'.exhausted ∧ ∀ u < UPAGES, has (pte s'.mem new u) PTE_V = false)) := by
  have hsh : Shared s.mem new old (0 / PGSIZE) := by
    intro u hu huval
    rw [hempty u hu] at huval
    cases huval
  have hle' : 0 / PGSIZE + (sz + PGSIZE - 1) / PGSIZE ≤ UPAGES := by
    rw [Nat.zero_div, Nat.zero_add]
    exact hle
  have hloop := uvmcopyLoop_meets h hsh (by decide) hle'
  rw [Nat.zero_div, Nat.zero_add] at hloop
  refine (hloop.mono fun _ hbad hc => hbad ⟨hc, fun u hu => by cases hu⟩).weaken ?_
  rintro ret s' ⟨hl, hk, hold, hm, hhigh, hcase⟩
  refine ⟨hl, hk, hold, hm, hhigh, ?_⟩
  rcases hcase with ⟨rfl, hex, hshend, hum⟩ | hfail
  · refine .inl ⟨rfl, hex, fun u hu huval => (hshend u hu huval).1, fun u => ?_⟩
    rw [hum u]
    by_cases hu : u < (sz + PGSIZE - 1) / PGSIZE
    · rw [if_pos ⟨Nat.zero_le u, hu⟩, if_pos hu]
    · rw [if_neg (by omega), if_neg hu]
      by_cases hup : u < UPAGES
      · exact (umem_eq_none_iff hup).2 (hempty u hup)
      · exact if_neg hup
  · exact .inr hfail

end

end Copy

end Xv6.Vm
