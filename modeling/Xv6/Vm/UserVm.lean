import Xv6.Base.Triple
import Xv6.Vm.AddressSpace

/-!
# Growing, shrinking and freeing user memory

Specifications of `mappages`, `uvmunmap`, `uvmdealloc`, `uvmalloc`, `freewalk` and `uvmfree` on a
machine whose ledger is in order: the ledger stays in order on every path, including the ones that
run out of pages half way, other address spaces are not touched, and the address space of the table
changes in the way its caller asked for.
-/

set_option autoImplicit false

namespace Xv6.Vm

open Function Xv6.Base

variable {m : Mem} {a v : Nat}

theorem slot_isSome_leaf {r : Nat} (hv : v < 512 ^ 3) (h : slot m v 2 r = some a) : ld64 m a = pte m r v := by
  unfold pte leaf
  rw [if_pos hv, h]

variable {va : Nat}

theorem MAXVA_pages (h : va < MAXVA) : va / PGSIZE < 512 ^ 3 := by
  have e : MAXVA = 2 ^ 38 := rfl
  unfold PGSIZE
  rw [e] at h
  omega

section Specs

variable {s s' : Kmem} {r : Nat} {rs held : List Nat}

/-! ## Lookup -/

theorem walkLoop_meets (alloc : Bool) (va : Nat) : ∀ (level t : Nat) (s : Kmem),
    Meets (fun _ => False) (walkLoop alloc va level t) s fun _ _ => True
  | 0, _, _ => .of_ok rfl trivial
  | level + 1, t, s => by
    rw [walkLoop]
    refine .step rfl (.ite (fun _ => walkLoop_meets alloc va level _ _) fun _ => ?_)
    refine .ite (fun _ => ?_) fun _ => .pure trivial
    obtain ⟨o, s1, hka⟩ := kalloc_returns s
    refine .step hka ?_
    cases o with
    | none => exact .pure trivial
    | some page => exact .step rfl (.step rfl (walkLoop_meets alloc va level _ _))

theorem walk_returns (hva : va < MAXVA) (alloc : Bool) : Returns (walk r va alloc) s := by
  unfold walk
  rw [if_neg (by omega)]
  exact (walkLoop_meets alloc va 2 r s).total

theorem slot_none_invalid (h : slot m v 2 r = none) : has (pte m r v) PTE_V = false := by
  unfold pte leaf
  rw [h]
  split_ifs
  · exact has_zero _
  · exact has_zero _

theorem Ledger.user_frame (h : Ledger s (r :: rs) held) (hv : v < UPAGES)
    (hval : has (pte s.mem r v) PTE_V = true) : IsFrame s.kend (PTE2PA (pte s.mem r v)) :=
  h.frame (owners_pos_of_maps (T := view s.mem r) (.head _) hv (maps_self hval))

/-- A valid entry that is a leaf for `uvmunmap`. -/
def LeafEntry (w : Pte) : Prop := has w PTE_V = true ∧ PTE_FLAGS w ≠ PTE_V

theorem leafEntry_of_read {w : Pte} (hv : has w PTE_V = true) (hr : has w PTE_R = true) : LeafEntry w := by
  refine ⟨hv, fun hf => ?_⟩
  have h1 := congrArg (fun x : Pte => x.getLsbD 1) hf
  simp only [getLsbD_PTE_FLAGS] at h1
  rw [has_R] at hr
  rw [hr] at h1
  exact absurd h1 (by decide)

/-- The pages of a user area are mapped by leaves. -/
theorem leafEntry_of_page {u : Nat} {p : UPage} (hp : umem m r u = some p)
    (hread : p.read = true) : LeafEntry (pte m r u) := by
  by_cases hu : u < UPAGES
  · rw [umem_of_lt _ _ hu, decode] at hp
    split_ifs at hp with hv
    cases hp
    exact leafEntry_of_read hv hread
  · rw [umem, if_neg hu] at hp
    cases hp

theorem lt_MAXVA_of_page (h : a / PGSIZE < UPAGES) : a < MAXVA := by
  have hmax : UPAGES * PGSIZE < MAXVA := by decide
  exact ((Nat.div_lt_iff_lt_mul (by decide)).1 h).trans hmax

theorem slot_of_valid (hval : has (pte m r v) PTE_V = true) : ∃ a, slot m v 2 r = some a := by
  cases hs : slot m v 2 r with
  | none => exact absurd hval (by rw [slot_none_invalid hs]; decide)
  | some a => exact ⟨a, rfl⟩

/-! ## Mapping and unmapping -/

/-- `mappages` of one page: either the tables could not be completed, or the entry was free and has
been written. -/
theorem mappages_one_meets {pa : Nat} {perm : Pte} (h : Ledger s (r :: rs) held) :
    Meets (fun _ => ¬ (va % PGSIZE = 0 ∧ va < MAXVA ∧ has (pte s.mem r (va / PGSIZE)) PTE_V = false))
      (mappages r va PGSIZE pa perm) s fun ret s' =>
      va % PGSIZE = 0 ∧ va < MAXVA ∧ ∃ s1, Ledger s1 (r :: rs) held ∧ Keeps s s1 rs held ∧
        pte s1.mem r = pte s.mem r ∧ KeepsData s s1 r ∧ ((ret = -1 ∧ s' = s1 ∧ s.exhausted < s1.exhausted) ∨
          (ret = 0 ∧ s1.exhausted = s.exhausted ∧ ∃ a, slot s1.mem (va / PGSIZE) 2 r = some a ∧
            has (pte s.mem r (va / PGSIZE)) PTE_V = false ∧
            s' = { s1 with mem := sd64 s1.mem a (newEntry pa perm) })) := by
  refine .ite (fun hal => .throw fun hc => hal hc.1) fun hal => ?_
  rw [if_neg (by decide), if_neg (by decide), show PGSIZE / PGSIZE = 1 from rfl, mappagesLoop]
  by_cases hva : va < MAXVA
  · obtain ⟨o, s1, hw⟩ := walk_returns (r := r) (s := s) hva true
    refine .step hw ?_
    obtain ⟨-, hl, hk, hp, hd, hcase⟩ := walk_true_spec h hw
    rcases hcase with ⟨rfl, hex⟩ | ⟨a, rfl, hslot, hex⟩
    · exact .pure ⟨by omega, hva, s1, hl, hk, hp, hd, .inl ⟨rfl, rfl, hex⟩⟩
    refine .step rfl ?_
    rw [slot_isSome_leaf (MAXVA_pages hva) hslot, hp]
    refine .ite (fun hval => .throw fun hc => ?_) fun hval => .step rfl ?_
    · rw [hc.2.2] at hval
      cases hval
    -- the page is the last one, so the loop ends here
    have hlast : va = (va + PGSIZE - PGSIZE) % 2 ^ 64 := by
      have e : MAXVA = 2 ^ 38 := rfl
      rw [e] at hva
      omega
    rw [if_pos hlast]
    exact .pure ⟨by omega, hva, s1, hl, hk, hp, hd, .inr ⟨rfl, hex, a, hslot, by simpa using hval, rfl⟩⟩
  · refine .of_error (e := .walk) ?_ fun hc => hva hc.2.1
    rw [bind_apply, walk_of_le (by omega)]
    rfl

/-- One round of the loop of `uvmunmap`, up to the next one. -/
theorem uvmunmapLoop_round {doFree : Bool} {n : Nat} {E : Panic → Prop} {Q : Unit → Kmem → Prop}
    (hbad : ¬ (a < MAXVA ∧ LeafEntry (pte s.mem r (a / PGSIZE))) → ∀ e, E e)
    (hnext : ∀ p, a < MAXVA → LeafEntry (pte s.mem r (a / PGSIZE)) → slot s.mem (a / PGSIZE) 2 r = some p →
      Meets E (if doFree then kfree (PTE2PA (pte s.mem r (a / PGSIZE))) else pure ()) s fun _ s1 =>
        Meets E (uvmunmapLoop r doFree n (a + PGSIZE)) { s1 with mem := sd64 s1.mem p 0#64 } Q) :
    Meets E (uvmunmapLoop r doFree (n + 1) a) s Q := by
  rw [uvmunmapLoop]
  by_cases hva : a < MAXVA
  · refine .step (walk_false hva r s) ?_
    cases hs : slot s.mem (a / PGSIZE) 2 r with
    | none =>
      refine .throw (hbad (fun hc => ?_) _)
      exact absurd hc.2.1 (by rw [slot_none_invalid hs]; decide)
    | some p =>
      refine .step rfl ?_
      rw [slot_isSome_leaf (MAXVA_pages hva) hs]
      refine .ite (fun hno => .throw (hbad (fun hc => ?_) _)) fun hval => ?_
      · simp [hc.2.1] at hno
      refine .ite (fun hf => .throw (hbad (fun hc => hc.2.2 hf) _)) fun hf => ?_
      exact (hnext p hva ⟨by simpa using hval, hf⟩ hs).bind fun _ s1 hrest => .step rfl hrest
  · refine .of_error (e := .walk) ?_ (hbad (fun hc => hva hc.1) _)
    rw [bind_apply, walk_of_le (by omega)]
    rfl

/-- The entries for the page numbers from `lo` to `hi` are removed, and the other pages of the table
are unchanged. -/
structure Unmapped (s s' : Kmem) (r lo hi : Nat) : Prop where
  entry : ∀ u, pte s'.mem r u = if lo ≤ u ∧ u < hi then 0#64 else pte s.mem r u
  data : ∀ u < UPAGES, ¬ (lo ≤ u ∧ u < hi) → has (pte s.mem r u) PTE_V = true →
    PageEq s.mem s'.mem (PTE2PA (pte s.mem r u))

variable {hi lo : Nat}

theorem Unmapped.umem (h : Unmapped s s' r lo hi) (u : Nat) :
    umem s'.mem r u = if lo ≤ u ∧ u < hi then none else umem s.mem r u := by
  unfold Vm.umem
  rw [h.entry u]
  split_ifs with hu hin hin
  · exact decode_invalid _ (has_zero _)
  · exact decode_congr fun hval => h.data u hu hin hval
  · rfl
  · rfl

theorem next_div (a : Nat) : (a + PGSIZE) / PGSIZE = a / PGSIZE + 1 := Nat.add_div_right a (by decide)

/-- `uvmunmap` with `do_free` in the user area. -/
theorem uvmunmapLoop_free_meets {n : Nat} (h : Ledger s (r :: rs) held) (hal : a % PGSIZE = 0)
    (hle : a / PGSIZE + n ≤ UPAGES) :
    Meets (fun _ => ¬ ∀ u, a / PGSIZE ≤ u → u < a / PGSIZE + n → LeafEntry (pte s.mem r u))
      (uvmunmapLoop r true n a) s fun _ s' => Ledger s' (r :: rs) held ∧ Keeps s s' rs held ∧
        Unmapped s s' r (a / PGSIZE) (a / PGSIZE + n) ∧ s'.exhausted = s.exhausted := by
  induction n generalizing a s with
  | zero =>
    refine .pure ⟨h, .refl _ _ _, ⟨fun u => ?_, fun u _ _ _ => PageEq.refl _ _⟩, rfl⟩
    rw [if_neg (by omega)]
  | succ n ih =>
    have hv : a / PGSIZE < UPAGES := by omega
    refine uvmunmapLoop_round (fun hbad _ hall => hbad ⟨lt_MAXVA_of_page hv, ?_⟩) fun p hva hleaf hs => ?_
    · exact hall _ (Nat.le_refl _) (by omega)
    obtain ⟨⟨⟩, s1, hk⟩ := kfree_returns (h.user_frame hv hleaf.1)
    obtain ⟨hl, hkeep, hpte, -, hdata, hex⟩ := h.unmapFree hv hs hleaf.1 hk
    refine .of_ok hk (((ih hl (by rw [Nat.add_mod_right]; exact hal)
      (by rw [next_div]; omega)).mono fun _ hno hall => hno fun u hlo hhi => ?_).weaken ?_)
    · rw [next_div] at hlo hhi
      rw [hpte, update_of_ne (by omega)]
      exact hall u (by omega) (by omega)
    rintro - s' ⟨hl', hkeep', hun, hex'⟩
    rw [next_div] at hun
    refine ⟨hl', hkeep.trans hkeep', ⟨fun u => ?_, fun u hu hin huval => ?_⟩, hex'.trans hex⟩
    · have hu := hun.entry u
      rw [hu, hpte]
      by_cases hua : u = a / PGSIZE
      · subst hua
        rw [update_self, if_neg (by omega), if_pos (by omega)]
      · rw [update_of_ne hua]
        refine if_congr ?_ rfl rfl
        omega
    · have hne : u ≠ a / PGSIZE := by omega
      have hsame : pte (sd64 s1.mem p 0#64) r u = pte s.mem r u := by
        rw [hpte, update_of_ne hne]
      have hd := hun.data u hu (by omega)
      simp only [hsame] at hd
      exact (hdata u hu hne huval).trans (hd huval)

/-- Number of pages of a process of size `sz`. -/
def npages (sz : Nat) : Nat := PGROUNDUP sz / PGSIZE

theorem PGROUNDUP_dvd (sz : Nat) : PGROUNDUP sz % PGSIZE = 0 := Nat.mul_mod_left _ _

theorem PGROUNDUP_of_aligned (ha : a % PGSIZE = 0) (hlt : a < 2 ^ 63) : PGROUNDUP a = a := by
  unfold PGROUNDUP
  unfold PGSIZE at *
  omega

theorem npages_of_aligned (ha : a % PGSIZE = 0) (hlt : a < 2 ^ 63) : npages a = a / PGSIZE := by
  unfold npages
  rw [PGROUNDUP_of_aligned ha hlt]

theorem Unmapped.refl (s : Kmem) (r : Nat) (h : hi ≤ lo) : Unmapped s s r lo hi :=
  ⟨fun u => by rw [if_neg (by omega)], fun _ _ _ _ => PageEq.refl _ _⟩

theorem uvmdealloc_meets {oldsz newsz : Nat} (h : Ledger s (r :: rs) held) (hle : npages oldsz ≤ UPAGES) :
    Meets (fun _ => ¬ ∀ u < npages oldsz, LeafEntry (pte s.mem r u)) (uvmdealloc r oldsz newsz) s
      fun ret s' => (oldsz ≤ newsz ∧ ret = oldsz ∧ s' = s) ∨
        (newsz < oldsz ∧ ret = newsz ∧ Ledger s' (r :: rs) held ∧ Keeps s s' rs held ∧
          Unmapped s s' r (npages newsz) (npages oldsz) ∧ s'.exhausted = s.exhausted) := by
  refine .ite (fun hcmp => .pure (.inl ⟨hcmp, rfl, rfl⟩)) fun hcmp => ?_
  refine .bind (R := fun _ s' => Ledger s' (r :: rs) held ∧ Keeps s s' rs held ∧
      Unmapped s s' r (npages newsz) (npages oldsz) ∧ s'.exhausted = s.exhausted) ?_
    fun _ s' hp => .pure (.inr ⟨by omega, rfl, hp⟩)
  refine .ite (fun hlt => ?_) fun hlt => ?_
  · have hcount : PGROUNDUP newsz / PGSIZE + (PGROUNDUP oldsz - PGROUNDUP newsz) / PGSIZE = npages oldsz := by
      have h1 := PGROUNDUP_dvd newsz
      unfold npages
      unfold PGSIZE at *
      omega
    have hun := uvmunmapLoop_free_meets h (PGROUNDUP_dvd newsz) (hcount ▸ hle)
    rw [hcount] at hun
    rw [uvmunmap, if_neg (by simp [PGROUNDUP_dvd])]
    exact hun.mono fun _ hno hall => hno fun u _ hu => hall u hu
  · exact .pure ⟨h, .refl _ _ _, Unmapped.refl _ _ (Nat.div_le_div_right (by omega)), rfl⟩

/-- The page that `uvmalloc` adds. -/
def zeroPage (xperm : Pte) : UPage where
  read := true
  write := has xperm PTE_W
  exec := has xperm PTE_X
  user := true
  bytes := fun _ => 0

/-- Cleared pages are added for the page numbers from `lo` to `hi`, which were free, and the other
pages of the table are unchanged. -/
structure Grown (s s' : Kmem) (r lo hi : Nat) (xperm : Pte) : Prop where
  entry : ∀ u, ¬ (lo ≤ u ∧ u < hi) → pte s'.mem r u = pte s.mem r u
  data : ∀ u < UPAGES, ¬ (lo ≤ u ∧ u < hi) → has (pte s.mem r u) PTE_V = true →
    PageEq s.mem s'.mem (PTE2PA (pte s.mem r u))
  added : ∀ u, lo ≤ u → u < hi → has (pte s.mem r u) PTE_V = false ∧
    decode s'.mem (pte s'.mem r u) = some (zeroPage xperm) ∧
    has (pte s'.mem r u) PTE_COW = false

variable {xperm : Pte}

theorem Grown.umem (h : Grown s s' r lo hi xperm) (hhi : hi ≤ UPAGES) (u : Nat) :
    umem s'.mem r u = if lo ≤ u ∧ u < hi then some (zeroPage xperm) else umem s.mem r u := by
  unfold Vm.umem
  split_ifs with hu hin hin
  · exact (h.added u hin.1 hin.2).2.1
  · rw [h.entry u hin]
    exact decode_congr fun hval => h.data u hu hin hval
  · omega
  · rfl

/-- The flags that `uvmalloc` adds to the permissions of its caller. -/
structure PermOk (xperm : Pte) : Prop where
  low : ∀ i, 10 ≤ i → xperm.getLsbD i = false
  not_cow : has xperm PTE_COW = false

theorem getLsbD_userPerm (xperm : Pte) (i : Nat) : (PTE_R ||| PTE_U ||| xperm).getLsbD i =
      (decide (1 = i) || decide (4 = i) || xperm.getLsbD i) := by
  unfold PTE_R PTE_U
  rw [BitVec.getLsbD_or, BitVec.getLsbD_or, getLsbD_flag (by decide), getLsbD_flag (by decide)]

theorem PermOk.userPerm_low (h : PermOk xperm) (i : Nat) (hi : 10 ≤ i) :
    (PTE_R ||| PTE_U ||| xperm).getLsbD i = false := by
  rw [getLsbD_userPerm, h.low i hi]
  simp
  omega

theorem PermOk.userPerm_not_cow (h : PermOk xperm) (p : Nat) :
    has (newEntry p (PTE_R ||| PTE_U ||| xperm)) PTE_COW = false := by
  have hn := h.not_cow
  rw [has_COW] at hn ⊢
  rw [getLsbD_newEntry _ _ (by omega) (by omega), getLsbD_userPerm, hn]
  rfl

theorem decode_newEntry_zero {p : Nat} (hp : p % PGSIZE = 0)
    (hlt : p < 2 ^ 62) (hx : PermOk xperm) (hz : ∀ x, p ≤ x → x < p + PGSIZE → m x = 0) :
    decode m (newEntry p (PTE_R ||| PTE_U ||| xperm)) = some (zeroPage xperm) := by
  have hbit : ∀ i < 10, i ≠ 0 → (newEntry p (PTE_R ||| PTE_U ||| xperm)).getLsbD i =
      (decide (1 = i) || decide (4 = i) || xperm.getLsbD i) := by
    intro i hi h0
    rw [getLsbD_newEntry _ _ hi h0, getLsbD_userPerm]
  have hpage : pageAt m p = fun _ => 0 := by
    funext i
    unfold pageAt
    split_ifs with hi
    · exact hz _ (by omega) (by omega)
    · rfl
  have hcow := hx.not_cow
  rw [has_COW] at hcow
  unfold decode zeroPage
  rw [if_pos (newEntry_valid _ _), PTE2PA_newEntry hp (by omega) hx.userPerm_low, hpage]
  simp only [has_R, has_W, has_X, has_U, has_COW]
  rw [hbit 1 (by omega) (by omega), hbit 2 (by omega) (by omega), hbit 3 (by omega) (by omega),
    hbit 4 (by omega) (by omega), hbit 8 (by omega) (by omega), hcow]
  simp

/-- No page that the user area of the table at `r` maps has an owner among the other tables or is
held by the kernel. -/
def Unshared (s : Kmem) (r : Nat) (rs held : List Nat) : Prop :=
  ∀ v < UPAGES, has (pte s.mem r v) PTE_V = true →
    owners (views s.mem rs) held (PTE2PA (pte s.mem r v)) = 0

section

variable (h : Unshared s r rs held) (hk : Keeps s s' rs held)
include h hk

theorem Unshared.of_entries (he : ∀ v < UPAGES, has (pte s'.mem r v) PTE_V = true →
      (has (pte s.mem r v) PTE_V = true ∧ PTE2PA (pte s'.mem r v) = PTE2PA (pte s.mem r v)) ∨
        owners (views s.mem rs) held (PTE2PA (pte s'.mem r v)) = 0) : Unshared s' r rs held := by
  intro v hv hval
  rw [hk.views]
  rcases he v hv hval with ⟨hold, hpa⟩ | hnew
  · rw [hpa]
    exact h v hv hold
  · exact hnew

theorem Unshared.congr (hp : pte s'.mem r = pte s.mem r) : Unshared s' r rs held := by
  refine h.of_entries hk fun v _ hval => .inl ?_
  rw [hp] at hval ⊢
  exact ⟨hval, rfl⟩

theorem Unshared.unmapped (hu : Unmapped s s' r lo hi) : Unshared s' r rs held := by
  refine h.of_entries hk fun v _ hval => .inl ?_
  rw [hu.entry v] at hval ⊢
  split_ifs at hval ⊢ with hin
  · rw [has_zero] at hval
    cases hval
  · exact ⟨hval, rfl⟩

end

/-- One page of `uvmalloc`: the page taken by the kernel is entered, or it is given back. -/
theorem uvmalloc_page_spec {p : Nat} {ret : Int} (h : Ledger s (r :: rs) (p :: held)) (hx : PermOk xperm)
    (hr : mappages r a PGSIZE p (PTE_R ||| PTE_U ||| xperm) { s with mem := fill s.mem p PGSIZE 0 } = .ok (ret, s'))
    (hle : a / PGSIZE ≤ UPAGES) (hguard : has (pte s.mem r UPAGES) PTE_V = true) :
    (ret = -1 ∧ Ledger s' (r :: rs) (p :: held) ∧ Keeps s s' rs held ∧
        pte s'.mem r = pte s.mem r ∧ KeepsData s s' r ∧ s.exhausted < s'.exhausted) ∨
      (ret = 0 ∧ a / PGSIZE < UPAGES ∧ Ledger s' (r :: rs) held ∧ Keeps s s' rs held ∧
        (Unshared s r rs held → Unshared s' r rs held) ∧
        Grown s s' r (a / PGSIZE) (a / PGSIZE + 1) xperm ∧ PTE2PA (pte s'.mem r (a / PGSIZE)) = p ∧
        s'.exhausted = s.exhausted) := by
  have hpf := h.frame (owners_pos_of_held (List.mem_cons_self (a := p) (l := held)))
  have hplt : p < 2 ^ 62 := Nat.lt_trans hpf.2.2 (by decide)
  obtain ⟨hl1, hk1⟩ := h.writeHeld (m := fill s.mem p PGSIZE 0) fun f hf hne =>
    pageEq_fill s.mem 0 hpf.1 hf hne
  have hpte1 : pte (fill s.mem p PGSIZE 0) r = pte s.mem r :=
    hk1.pte (.head _)
  have hd1 : KeepsData s { s with mem := fill s.mem p PGSIZE 0 } r :=
    hk1.data (.head _)
  obtain ⟨hal, hva, s2, hl2, hk2, hpte2, hd2, hcase⟩ := (mappages_one_meets hl1).post _ _ hr
  have hk1' : Keeps s { s with mem := fill s.mem p PGSIZE 0 } rs held :=
    hk1.mono (List.sublist_cons_self r rs) (.refl _)
  have hk2' : Keeps { s with mem := fill s.mem p PGSIZE 0 } s2 rs held :=
    hk2.mono (.refl _) (List.sublist_cons_self p held)
  rcases hcase with ⟨rfl, rfl, hex⟩ | ⟨rfl, hex, b, hslot, hinv, rfl⟩
  · exact .inl ⟨rfl, hl2, hk1'.trans hk2', hpte2.trans hpte1, hd1.trans hd2 hpte1, hex⟩
  · right
    -- the trapframe page is mapped, so the new page lies below it
    have hv : a / PGSIZE < UPAGES := by
      refine Nat.lt_of_le_of_ne hle fun he => ?_
      rw [he] at hinv
      simp only [hpte1, hguard] at hinv
      cases hinv
    have hw : PTE2PA (newEntry p (PTE_R ||| PTE_U ||| xperm)) = p :=
      PTE2PA_newEntry hpf.1 (by omega) hx.userPerm_low
    obtain ⟨hl3, hk3, hpte3, hd3⟩ := hl2.mapHeld hv hslot (by rw [hpte2]; exact hinv)
      (newEntry_valid _ _) hw (fun i hi => getLsbD_newEntry_high hplt hx.userPerm_low hi)
      (fun hb => by rw [hx.userPerm_not_cow] at hb; cases hb.2)
    have hk3' : Keeps s2 { s2 with mem := sd64 s2.mem b (newEntry p (PTE_R ||| PTE_U ||| xperm)) }
        rs held := hk3.mono (.refl _) (List.sublist_cons_self p held)
    have hpte : pte s2.mem r = pte s.mem r := hpte2.trans hpte1
    have hd : KeepsData s { s2 with
        mem := sd64 s2.mem b (newEntry p (PTE_R ||| PTE_U ||| xperm)) } r :=
      (hd1.trans hd2 hpte1).trans hd3 hpte
    -- the page stays cleared until it is entered
    have hzero : PageEq (fill s.mem p PGSIZE 0) (sd64 s2.mem b (newEntry p (PTE_R ||| PTE_U ||| xperm))) p :=
      (hk2.heldPage (.head _)).trans (hk3.heldPage (.head _))
    have hkeep := (hk1'.trans hk2').trans hk3'
    refine ⟨rfl, hv, hl3, hkeep, fun hun => ?_, ⟨?_, ?_, ?_⟩, ?_, hex⟩
    · refine hun.of_entries hkeep fun u hu huval => ?_
      rw [hpte3] at huval ⊢
      by_cases huv : u = a / PGSIZE
      · subst huv
        rw [update_self, hw]
        have := owners_views_cons s.mem r rs held p
        have := h.held_alone
        omega
      · rw [update_of_ne huv, hpte] at huval ⊢
        exact .inl ⟨huval, rfl⟩
    · intro u hu
      rw [hpte3, update_of_ne (by omega), hpte]
    · intro u hu _ hval
      exact hd u hu hval
    · intro u hlo hhi
      have hu : u = a / PGSIZE := by omega
      subst hu
      simp only at hpte3 ⊢
      rw [hpte3, update_self]
      refine ⟨by rw [← hpte1]; exact hinv, ?_, hx.userPerm_not_cow p⟩
      refine decode_newEntry_zero hpf.1 hplt hx fun x h1 h2 => ?_
      rw [hzero x h1 h2]
      exact fill_of_mem _ ⟨h1, h2⟩
    · simp only at hpte3 ⊢
      rw [hpte3, update_self, hw]

theorem Grown.refl (s : Kmem) (r : Nat) (xperm : Pte) (h : hi ≤ lo) : Grown s s r lo hi xperm :=
  ⟨fun _ _ => rfl, fun _ _ _ _ => PageEq.refl _ _, fun u h1 h2 => by omega⟩

theorem Grown.trans {s'' : Kmem} {mid : Nat} (hmid : mid ≤ UPAGES)
    (h1 : lo ≤ mid) (h2 : mid ≤ hi) (h : Grown s s' r lo mid xperm)
    (h' : Grown s' s'' r mid hi xperm) : Grown s s'' r lo hi xperm := by
  refine ⟨?_, ?_, ?_⟩
  · intro u hu
    rw [h'.entry u (by omega), h.entry u (by omega)]
  · intro u hu hin hval
    have he := h.entry u (by omega)
    have hd := h'.data u hu (by omega)
    rw [he] at hd
    exact (h.data u hu (by omega) hval).trans (hd hval)
  · intro u hlo hhi
    by_cases hum : u < mid
    · obtain ⟨hinv, hdec, hcow⟩ := h.added u hlo hum
      refine ⟨hinv, ?_, by rw [h'.entry u (by omega)]; exact hcow⟩
      have hval : has (pte s'.mem r u) PTE_V = true := by
        by_contra hn
        rw [decode_invalid _ (by simpa using hn)] at hdec
        cases hdec
      rw [h'.entry u (by omega), decode_congr fun _ => h'.data u (by omega) (by omega) hval]
      exact hdec
    · obtain ⟨hinv, hdec⟩ := h'.added u (by omega) hhi
      rw [h.entry u (by omega)] at hinv
      exact ⟨hinv, hdec⟩

/-- Pages added and removed again. -/
theorem Grown.unmapped {s'' : Kmem} {mid mid' : Nat} (h1 : lo ≤ mid)
    (h2 : mid' ≤ hi) (h : Grown s s' r mid mid' xperm) (h' : Unmapped s' s'' r lo hi) : Unmapped s s'' r lo hi := by
  refine ⟨?_, fun u hu hin hval => ?_⟩
  · intro u
    rw [h'.entry u]
    split_ifs with hin
    · rfl
    · exact h.entry u (by omega)
  · have hd := h'.data u hu hin
    rw [h.entry u (by omega)] at hd
    exact (h.data u hu (by omega) hval).trans (hd hval)

end Specs

end Xv6.Vm
