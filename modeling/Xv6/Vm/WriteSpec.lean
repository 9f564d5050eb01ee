import Xv6.Base.Triple
import Xv6.Vm.CopySpec
import Xv6.Vm.Space

/-!
# Writing to user memory

A write through an entry that permits it is a write to the address space of one process only, since
the page behind a writable entry has no other owner. `CowHandler` makes an entry writable without
any visible change of the address space, and `copyout` is a sequence of such writes.
-/

set_option autoImplicit false

namespace Xv6.Vm

open Function Xv6.Base

variable {f p : Nat}

theorem pageEq_writeBytes (m : Mem) (off : Nat) {bs : List UInt8} (hp : p % PGSIZE = 0)
    (hf : f % PGSIZE = 0) (hlen : off + bs.length ≤ PGSIZE) (hne : f ≠ p) : PageEq m (writeBytes m (p + off) bs) f := by
  intro x h1 h2
  refine writeBytes_of_not_mem m ?_
  unfold PGSIZE at *
  omega

theorem pageAt_writeBytes (m : Mem) {off : Nat} {bs : List UInt8} (hlen : off + bs.length ≤ PGSIZE) :
    pageAt (writeBytes m (p + off) bs) p = writeBytes (pageAt m p) off bs := by
  funext i
  by_cases hin : off ≤ i ∧ i < off + bs.length
  · have e : p + i - (p + off) = i - off := by omega
    unfold pageAt writeBytes
    rw [if_pos (by omega), if_pos (by omega), if_pos hin.1, e, List.getElem?_eq_getElem (by omega)]
    rfl
  · rw [writeBytes_of_not_mem (pageAt m p) (by omega)]
    unfold pageAt
    rw [writeBytes_of_not_mem m (by omega)]

theorem pageAt_copy (m : Mem) (dst src : Nat) : pageAt (copy m dst src PGSIZE) dst = pageAt m src := by
  funext i
  unfold pageAt copy
  by_cases hi : i < PGSIZE
  · have e : dst + i - dst = i := by omega
    rw [if_pos hi, if_pos hi, if_pos (by omega), e]
  · rw [if_neg hi, if_neg hi]

theorem pageEq_copy (m : Mem) {dst src : Nat} (hd : dst % PGSIZE = 0) (hf : f % PGSIZE = 0)
    (hne : f ≠ dst) : PageEq m (copy m dst src PGSIZE) f := by
  intro x h1 h2
  refine copy_of_not_mem m ?_
  unfold PGSIZE at *
  omega

theorem kfree_pageEq {s s' : Kmem} (hr : kfree p s = .ok ((), s'))
    (hp : p % PGSIZE = 0) (hf : f % PGSIZE = 0) (hne : f ≠ p) : PageEq s.mem s'.mem f := by
  rcases kfree_cases hr with ⟨-, rfl⟩ | ⟨-, rfl⟩
  · exact PageEq.refl _ f
  · exact pageEq_fill s.mem 1 hp hf hne

section Write

variable {s s' : Kmem} {r : Nat} {rs held : List Nat}

/-- A write to a page that the first table maps and that has no other owner. -/
theorem Ledger.writeUser {v off : Nat} {bs : List UInt8} (h : Ledger s (r :: rs) held)
    (hv : v < UPAGES) (hval : has (pte s.mem r v) PTE_V = true)
    (halone : owners (views s.mem rs) held (PTE2PA (pte s.mem r v)) = 0) (hlen : off + bs.length ≤ PGSIZE) :
    Ledger { s with mem := writeBytes s.mem (PTE2PA (pte s.mem r v) + off) bs } (r :: rs) held ∧
      Keeps s { s with mem := writeBytes s.mem (PTE2PA (pte s.mem r v) + off) bs } rs held ∧
      pte (writeBytes s.mem (PTE2PA (pte s.mem r v) + off) bs) r = pte s.mem r ∧
      umem (writeBytes s.mem (PTE2PA (pte s.mem r v) + off) bs) r =
        (umem s.mem r).put v off bs := by
  have hm : maps ((view s.mem r).leaf v) (PTE2PA (pte s.mem r v)) = true := maps_self hval
  have hsame : ∀ f, f % PGSIZE = 0 → f ≠ PTE2PA (pte s.mem r v) →
      PageEq s.mem (writeBytes s.mem (PTE2PA (pte s.mem r v) + off) bs) f := fun f hf hne =>
    pageEq_writeBytes s.mem off (PTE2PA_dvd _) hf hlen hne
  have hnt := (Shape.not_held_of_maps h.shape hv hm).2
  have hkeep : Keeps s { s with mem := writeBytes s.mem (PTE2PA (pte s.mem r v) + off) bs } rs
      held := by
    refine ⟨rfl, fun f hf => ?_⟩
    refine hsame f (h.frame ?_).1 ?_
    · rw [owners_views_cons]
      omega
    · rintro rfl
      omega
  have htab : ∀ t ∈ r :: rs, ∀ f ∈ tables s.mem 2 t,
      PageEq s.mem (writeBytes s.mem (PTE2PA (pte s.mem r v) + off) bs) f := by
    intro t ht f hf
    refine hsame f (tables_aligned s.mem 2 t (h.root_frame ht).1 hf) ?_
    rintro rfl
    exact hnt (view s.mem t) (List.mem_map_of_mem ht) hf
  have hpte : pte (writeBytes s.mem (PTE2PA (pte s.mem r v) + off) bs) r = pte s.mem r :=
    congrArg PT.leaf (view_congr (htab r (.head _)))
  refine ⟨h.setMem htab, hkeep, hpte, ?_⟩
  have hup : pte (writeBytes s.mem (PTE2PA (pte s.mem r v) + off) bs) r = update (pte s.mem r) v (pte s.mem r v) := by
    rw [hpte, update_eq_self]
  rw [umem_update hv hup fun u hu huv huval => ?_]
  · unfold UMem.put
    rw [umem_of_lt _ _ hv]
    unfold decode
    rw [if_pos hval, if_pos hval, pageAt_writeBytes s.mem hlen]
    rfl
  · -- no other entry of the table maps the page
    refine hsame _ (PTE2PA_dvd _) fun he => huv ?_
    refine eq_of_leafCount_le_one (h.shape.leaf_le (view s.mem r) (.head _) _) hu hv ?_ hm
    rw [← he]
    exact maps_self huval

theorem getLsbD_and_not_flag (w : Pte) {k i : Nat} (hk : k < 64) (hi : i < 64) :
    (w &&& ~~~BitVec.twoPow 64 k).getLsbD i = (w.getLsbD i && decide (i ≠ k)) := by
  rw [BitVec.getLsbD_and, BitVec.getLsbD_not, getLsbD_flag hk]
  have e : decide (k = i) = decide (i = k) := decide_eq_decide.2 eq_comm
  rw [e]
  simp [hi]

theorem PTE2PA_clear (w : Pte) {k : Nat} (hk : k < 10) : PTE2PA (w &&& ~~~BitVec.twoPow 64 k) = PTE2PA w := by
  apply PTE2PA_congr
  intro i hi
  by_cases h64 : i < 64
  · rw [getLsbD_and_not_flag w (by omega) h64, decide_eq_true (by omega), Bool.and_true]
  · rw [BitVec.getLsbD_of_ge _ _ (by omega), BitVec.getLsbD_of_ge _ _ (by omega)]

/-- `uvmclear` takes the page away from the process and leaves it where it is. -/
theorem uvmclear_meets {va : Nat} (h : Ledger s (r :: rs) held)
    (hv : va / PGSIZE < UPAGES) (hvalid : has (pte s.mem r (va / PGSIZE)) PTE_V = true) :
    Meets (fun _ => False) (uvmclear r va) s fun _ s' => Ledger s' (r :: rs) held ∧ Keeps s s' rs held ∧
      (∀ u, u ≠ va / PGSIZE → pte s'.mem r u = pte s.mem r u) ∧ umem s'.mem r = update (umem s.mem r) (va / PGSIZE)
        ((umem s.mem r (va / PGSIZE)).map fun p => { p with user := false }) ∧
      s'.exhausted = s.exhausted := by
  have hva := lt_MAXVA_of_page hv
  obtain ⟨a, hs⟩ := slot_of_valid hvalid
  rw [uvmclear]
  refine .step (walk_false hva r s) ?_
  rw [hs]
  refine .step rfl (.of_ok rfl ?_)
  rw [slot_isSome_leaf (MAXVA_pages hva) hs]
  have hbit : ∀ {i : Nat}, i < 64 → (pte s.mem r (va / PGSIZE) &&& ~~~PTE_U).getLsbD i =
        ((pte s.mem r (va / PGSIZE)).getLsbD i && decide (i ≠ 4)) := fun hi =>
    getLsbD_and_not_flag _ (by decide) hi
  have hpa := PTE2PA_clear (pte s.mem r (va / PGSIZE)) (k := 4) (by decide)
  have hV : has (pte s.mem r (va / PGSIZE) &&& ~~~PTE_U) PTE_V = has (pte s.mem r (va / PGSIZE)) PTE_V := by
    rw [has_V, has_V, hbit (by decide)]
    simp
  obtain ⟨hl, hk, hp, hd⟩ := h.setFlags hv hs hV hpa (by
    intro hval
    have hok := h.shape.entry (view s.mem r) (.head _) _ hv (hV ▸ hval)
    refine ⟨fun i hi => ?_, fun hW => ?_, fun hb => ?_⟩
    · by_cases h64 : i < 64
      · rw [hbit h64, show (pte s.mem r (va / PGSIZE)).getLsbD i = false from hok.high i hi]
        rfl
      · exact BitVec.getLsbD_of_ge _ _ (by omega)
    · rw [has_W, hbit (by decide)] at hW
      have hW' : has (pte s.mem r (va / PGSIZE)) PTE_W = true := by
        rw [has_W]
        simpa using hW
      rw [show PTE2PA (pte s.mem r (va / PGSIZE) &&& ~~~PTE_U) = _ from hpa]
      exact hok.alone hW'
    · rw [has_W, has_COW, hbit (by decide), hbit (by decide)] at hb
      apply hok.not_both
      show has (pte s.mem r (va / PGSIZE)) PTE_W = true ∧ has (pte s.mem r (va / PGSIZE)) PTE_COW = true
      rw [has_W, has_COW]
      simpa using hb)
  refine ⟨hl, hk, ?_, ?_, rfl⟩
  · intro u hu
    rw [hp, update_of_ne hu]
  · refine (umem_update hv hp fun u hu _ hval => hd u hu hval).trans ?_
    congr 1
    rw [umem_of_lt _ _ hv]
    unfold decode
    rw [hV]
    rw [if_pos hvalid, if_pos hvalid, show PTE2PA (pte s.mem r (va / PGSIZE) &&& ~~~PTE_U) = _ from hpa]
    simp only [has_R, has_W, has_X, has_U, has_COW, Option.map_some]
    rw [hbit (by decide), hbit (by decide), hbit (by decide), hbit (by decide),
      hbit (by decide), pageAt_congr (hd _ hv hvalid)]
    simp

end Write

/-! ## Resolving a copy-on-write entry -/

/-- The entry that `CowHandler` writes for the copy at `page` of the page behind `w`. -/
def resolvedEntry (page : Nat) (w : Pte) : Pte :=
  (PA2PTE page ||| PTE_W ||| PTE_FLAGS w) &&& ~~~PTE_COW

theorem resolvedEntry_low (page : Nat) (w : Pte) {i : Nat} (hi : i < 10) :
    (resolvedEntry page w).getLsbD i = ((decide (i = 2) || w.getLsbD i) && decide (i ≠ 8)) := by
  have e : decide (2 = i) = decide (i = 2) := decide_eq_decide.2 eq_comm
  unfold resolvedEntry PTE_COW
  rw [getLsbD_and_not_flag _ (by decide) (by omega), BitVec.getLsbD_or, BitVec.getLsbD_or,
    getLsbD_PA2PTE_low page hi, getLsbD_PTE_FLAGS, PTE_W, getLsbD_flag (by decide), e]
  simp [hi]

theorem resolvedEntry_high (page : Nat) (w : Pte) {i : Nat} (hi : 10 ≤ i) (h64 : i < 64) :
    (resolvedEntry page w).getLsbD i = (PA2PTE page).getLsbD i := by
  unfold resolvedEntry PTE_COW
  rw [getLsbD_and_not_flag _ (by decide) h64, BitVec.getLsbD_or, BitVec.getLsbD_or,
    PTE_FLAGS_low w i hi, PTE_W, getLsbD_flag (by decide), decide_eq_false (by omega),
    decide_eq_true (by omega)]
  simp

theorem PTE2PA_resolvedEntry {page : Nat} (w : Pte) (hal : page % PGSIZE = 0)
    (hlt : page < 2 ^ 64) : PTE2PA (resolvedEntry page w) = page := by
  refine Eq.trans ?_ (PTE2PA_PA2PTE_or 0#64 hal hlt fun i _ => BitVec.getLsbD_zero)
  apply PTE2PA_congr
  intro i hi
  rw [BitVec.or_zero]
  by_cases h64 : i < 64
  · exact resolvedEntry_high page w hi h64
  · rw [BitVec.getLsbD_of_ge _ _ (by omega), BitVec.getLsbD_of_ge _ _ (by omega)]

/-- The copy looks like the page it replaces. -/
theorem decode_resolvedEntry {m m' : Mem} {page : Nat} {w : Pte} (hal : page % PGSIZE = 0)
    (hlt : page < 2 ^ 64) (hval : has w PTE_V = true) (hcow : has w PTE_COW = true)
    (hpage : pageAt m' page = pageAt m (PTE2PA w)) : decode m' (resolvedEntry page w) = decode m w := by
  have hV : has (resolvedEntry page w) PTE_V = true := by
    rw [has_V] at hval ⊢
    rw [resolvedEntry_low page w (by decide), hval]
    rfl
  unfold decode
  rw [if_pos hV, if_pos hval, PTE2PA_resolvedEntry w hal hlt, hpage, hcow]
  simp only [has_R, has_W, has_X, has_U, has_COW]
  rw [resolvedEntry_low page w (by decide), resolvedEntry_low page w (by decide),
    resolvedEntry_low page w (by decide), resolvedEntry_low page w (by decide),
    resolvedEntry_low page w (by decide)]
  simp

theorem sd64_sd64 (m : Mem) (a : Nat) (v w : Pte) : sd64 (sd64 m a v) a w = sd64 m a w :=
  storeLE_storeLE ..

variable {v : Nat}

section Resolve

variable {s s' : Kmem} {r : Nat} {rs held : List Nat}

/-- The count that `CowHandler` looks at is not the count of a page: an entry is smaller than the
address in it, so the index lies below those of all pages, where the counts are 0. -/
theorem Ledger.cow_count (h : Ledger s (r :: rs) held) (hv : v < UPAGES) (hval : has (pte s.mem r v) PTE_V = true) :
    s.pgref (PGINDEX (pte s.mem r v).toNat) = 0 := by
  have hok := h.shape.entry (view s.mem r) (.head _) v hv hval
  have hpa := PTE2PA_of_high (w := pte s.mem r v) hok.high
  have hstop := (h.user_frame hv hval).2.2
  apply h.counts.low
  have e1 : PHYSTOP = 2281701376 := rfl
  have e2 : PGINDEX KERNBASE = 524288 := rfl
  unfold PGINDEX PGSHIFT at *
  omega

/-- An entry that `CowHandler` resolves. -/
def CowEntry (w : Pte) : Prop :=
  has w PTE_V = true ∧ has w PTE_U = true ∧ has w PTE_COW = true

/-- The copying branch of `CowHandler`: the table gets a copy of the page that it alone owns. -/
theorem resolve_spec {a page : Nat} {s1 s2 : Kmem} (h : Ledger s1 (r :: rs) (page :: held))
    (hv : v < UPAGES) (hs : slot s1.mem v 2 r = some a) (hc : CowEntry (pte s1.mem r v))
    (hk : kfree (PTE2PA (pte s1.mem r v))
      { s1 with mem := copy s1.mem page (PTE2PA (pte s1.mem r v)) PGSIZE } = .ok ((), s2)) :
    ld64 s2.mem a = pte s1.mem r v ∧
      Ledger { s2 with mem := sd64 s2.mem a (resolvedEntry page (pte s1.mem r v)) } (r :: rs) held ∧
      Keeps s1 { s2 with mem := sd64 s2.mem a (resolvedEntry page (pte s1.mem r v)) } rs held ∧
      pte (sd64 s2.mem a (resolvedEntry page (pte s1.mem r v))) r =
        update (pte s1.mem r) v (resolvedEntry page (pte s1.mem r v)) ∧
      slot (sd64 s2.mem a (resolvedEntry page (pte s1.mem r v))) v 2 r = some a ∧
      umem (sd64 s2.mem a (resolvedEntry page (pte s1.mem r v))) r = umem s1.mem r ∧
      s2.exhausted = s1.exhausted := by
  obtain ⟨hval, -, hcow⟩ := hc
  have hpf := h.frame (owners_pos_of_held (List.mem_cons_self (a := page) (l := held)))
  have hplt : page < 2 ^ 62 := Nat.lt_trans hpf.2.2 (by decide)
  have hm : maps ((view s1.mem r).leaf v) (PTE2PA (pte s1.mem r v)) = true := maps_self hval
  -- the copy is made in a page that the kernel holds
  obtain ⟨hl1, hk1⟩ := h.writeHeld (m := copy s1.mem page (PTE2PA (pte s1.mem r v)) PGSIZE)
    fun f hf hne => pageEq_copy s1.mem hpf.1 hf hne
  have hview1 := hk1.view (.head _)
  have hpte1 : pte (copy s1.mem page (PTE2PA (pte s1.mem r v)) PGSIZE) r = pte s1.mem r :=
    congrArg PT.leaf hview1
  have hd1 := hk1.data (r := r) (.head _)
  have hs1 : slot (copy s1.mem page (PTE2PA (pte s1.mem r v)) PGSIZE) v 2 r = some a := by
    rw [slot_congr v 2 r fun f hf =>
      hk1.page (.head _) (interior_subset_tables _ 2 r hf)]
    exact hs
  -- the old page is dropped and its entry cleared, and then the entry is written again
  obtain ⟨hl2, hk2, hpte2, hs2, hd2, hex2⟩ := hl1.unmapFree hv hs1 (by rw [hpte1]; exact hval) (by rw [hpte1]; exact hk)
  simp only [hpte1] at hpte2 hd2
  have hE : PTE2PA (resolvedEntry page (pte s1.mem r v)) = page :=
    PTE2PA_resolvedEntry _ hpf.1 (by omega)
  have hV : has (resolvedEntry page (pte s1.mem r v)) PTE_V = true := by
    rw [has_V] at hval ⊢
    rw [resolvedEntry_low _ _ (by decide), hval]
    rfl
  obtain ⟨hl3, hk3, hpte3, hd3⟩ := hl2.mapHeld hv hs2 (by simp only [hpte2, update_self, has_zero]) hV hE
    (fun i hi => by
      by_cases h64 : i < 64
      · rw [resolvedEntry_high _ _ (by omega) h64]
        exact getLsbD_PA2PTE_high hplt hi
      · exact BitVec.getLsbD_of_ge _ _ (by omega))
    (fun hb => by
      have := hb.2
      rw [has_COW, resolvedEntry_low _ _ (by decide)] at this
      simp at this)
  simp only [sd64_sd64] at hl3 hk3 hpte3 hd3
  rw [hpte2, update_idem] at hpte3
  have hkeep : Keeps s1 { s2 with mem := sd64 s2.mem a (resolvedEntry page (pte s1.mem r v)) } rs
      held :=
    ((hk1.mono (List.sublist_cons_self r rs) (.refl _)).trans
      (hk2.mono (.refl _) (List.sublist_cons_self page held))).trans
      (hk3.mono (.refl _) (List.sublist_cons_self page held))
  have hs3 : slot (sd64 s2.mem a (resolvedEntry page (pte s1.mem r v))) v 2 r = some a := by
    have hnd := hl2.tables_nodup (.head _)
    have hal := (hl2.root_frame (.head _)).1
    rw [← sd64_sd64 s2.mem a 0#64, slot_store hnd hal hs2]
    exact hs2
  refine ⟨?_, hl3, hkeep, hpte3, hs3, ?_, hex2⟩
  · -- the entry itself is in a page of the table, which is not the page that was freed
    obtain ⟨b, hb, rfl, -⟩ := slot_mem hs
    have hbal := tables_aligned s1.mem 2 r (h.root_frame (.head _)).1 hb
    have hne : b ≠ PTE2PA (pte s1.mem r v) := fun he =>
      (Shape.not_held_of_maps h.shape hv hm).2 (view s1.mem r) (.head _) (he ▸ hb)
    have hpage := (hk1.page (.head _) hb).trans (kfree_pageEq hk (PTE2PA_dvd _) hbal hne)
    rw [ld64_congr hpage (Nat.mod_lt _ (by decide))]
    exact slot_isSome_leaf (hv.trans UPAGES_lt) hs
  · refine (umem_update hv hpte3 fun u hu huv huval => ?_).trans ?_
    · have hin : has (pte (sd64 s2.mem a 0#64) r u) PTE_V = true := by
        rw [hpte2, update_of_ne huv]
        exact huval
      have h3 := hd3 u hu hin
      simp only [hpte2, update_of_ne huv] at h3
      exact ((hd1 u hu huval).trans (hd2 u hu huv huval)).trans h3
    · have hcopy : PageEq (copy s1.mem page (PTE2PA (pte s1.mem r v)) PGSIZE)
          (sd64 s2.mem a (resolvedEntry page (pte s1.mem r v))) page :=
        (hk2.heldPage (.head _)).trans (hk3.heldPage (.head _))
      rw [decode_resolvedEntry hpf.1 (by omega) hval hcow
        ((pageAt_congr hcopy).trans (pageAt_copy s1.mem page _)), ← umem_of_lt _ _ hv,
        update_eq_self]

/-- Entries above the user area are the kernel's. -/
def KernelHigh (m : Mem) (r : Nat) : Prop := ∀ v, UPAGES ≤ v → has (pte m r v) PTE_U = false

theorem KernelHigh.user_lt {m : Mem} {r v : Nat} (h : KernelHigh m r)
    (hU : has (pte m r v) PTE_U = true) : v < UPAGES := by
  by_contra hge
  have hk := h v (by omega)
  rw [hU] at hk
  cases hk

section

variable (h : Ledger s (r :: rs) held) (hhigh : KernelHigh s.mem r)
include h hhigh

/-- The three ways through `CowHandler`: the entry does not ask for it, there is no page for the copy,
or the page is copied. The one panic is that of `walk`. -/
theorem cowHandler_meets {va : Nat} :
    Meets (fun _ => MAXVA ≤ va) (cowHandler r va) s fun ret s' => va < MAXVA ∧
      ((ret = -1 ∧ ¬ CowEntry (pte s.mem r (va / PGSIZE)) ∧ s' = s) ∨
        (ret = -2 ∧ CowEntry (pte s.mem r (va / PGSIZE)) ∧ kalloc s = .ok (none, s')) ∨
        (ret = 0 ∧ CowEntry (pte s.mem r (va / PGSIZE)) ∧ va / PGSIZE < UPAGES ∧
          ∃ page s1 a s2, kalloc s = .ok (some page, s1) ∧ slot s1.mem (va / PGSIZE) 2 r = some a ∧
            CowEntry (pte s1.mem r (va / PGSIZE)) ∧ kfree (PTE2PA (pte s1.mem r (va / PGSIZE)))
              { s1 with mem := copy s1.mem page (PTE2PA (pte s1.mem r (va / PGSIZE))) PGSIZE } =
                .ok ((), s2) ∧
            s' = { s2 with
              mem := sd64 s2.mem a (resolvedEntry page (pte s1.mem r (va / PGSIZE))) })) := by
  rw [cowHandler]
  by_cases hva : MAXVA ≤ va
  · refine .of_error (e := .walk) ?_ hva
    rw [bind_apply, walk_of_le hva]
    rfl
  rw [Nat.not_le] at hva
  refine .step (walk_false hva r s) ?_
  cases hs : slot s.mem (va / PGSIZE) 2 r with
  | none =>
    refine .pure ⟨hva, .inl ⟨rfl, fun hc => ?_, rfl⟩⟩
    have hinv := slot_none_invalid hs
    rw [hc.1] at hinv
    cases hinv
  | some a =>
    refine .step rfl ?_
    rw [slot_isSome_leaf (MAXVA_pages hva) hs]
    refine .ite (fun hno => ?_) fun hcow => ?_
    · exact .pure ⟨hva, .inl ⟨rfl, fun hc => by simp [hc.1, hc.2.1, hc.2.2] at hno, rfl⟩⟩
    have hc : CowEntry (pte s.mem r (va / PGSIZE)) := by simpa [CowEntry, and_assoc] using hcow
    have hv : va / PGSIZE < UPAGES := hhigh.user_lt hc.2.1
    refine .step rfl ?_
    -- the count is never 1, so the page is always copied
    rw [h.cow_count hv hc.1, if_neg (by decide)]
    obtain ⟨o, s1, hka⟩ := kalloc_returns s
    refine .step hka ?_
    rcases kalloc_spec h hka with ⟨rfl, rfl⟩ | ⟨page, rfl, hl1, hk1, -⟩
    · exact .pure ⟨hva, .inr (.inl ⟨rfl, hc, hka⟩)⟩
    have hs1 : slot s1.mem (va / PGSIZE) 2 r = some a := by
      rw [slot_congr _ 2 r fun f hf =>
        hk1.page (.head _) (interior_subset_tables _ 2 r hf)]
      exact hs
    have hc1 : CowEntry (pte s1.mem r (va / PGSIZE)) := by
      rw [hk1.pte (.head _)]
      exact hc
    refine .step rfl (.step rfl ?_)
    rw [slot_isSome_leaf (MAXVA_pages hva) hs1]
    obtain ⟨⟨⟩, s2, hkf⟩ := kfree_returns (p := PTE2PA (pte s1.mem r (va / PGSIZE)))
      (s := { s1 with mem := copy s1.mem page (PTE2PA (pte s1.mem r (va / PGSIZE))) PGSIZE })
      (hl1.user_frame hv hc1.1)
    -- the entry is read once more after `kfree`
    obtain ⟨hld, -⟩ := resolve_spec hl1 hv hs1 hc1 hkf
    refine .step hkf (.step rfl ?_)
    rw [hld]
    exact .step rfl (.pure ⟨hva, .inr (.inr ⟨rfl, hc, hv, page, s1, a, _, hka, hs1, hc1, hkf, rfl⟩)⟩)

theorem cowHandler_returns {va : Nat} (hva : va < MAXVA) : Returns (cowHandler r va) s := by
  rcases (cowHandler_meets h hhigh).outcome with ⟨ret, s', hok, -⟩ | ⟨-, -, hge⟩
  · exact ⟨ret, s', hok⟩
  · omega

/-- `CowHandler` resolves a copy-on-write page if there is a free frame. -/
theorem cowHandler_room {va : Nat} {e : Int}
    (hr : cowHandler r va s = .ok (e, s')) (hcow : CowEntry (pte s.mem r (va / PGSIZE))) (hroom : s.freelist ≠ []) :
    e = 0 := by
  obtain ⟨-, ⟨-, hno, -⟩ | ⟨-, -, hnone⟩ | ⟨he, -⟩⟩ := (cowHandler_meets h hhigh).post _ _ hr
  · exact absurd hcow hno
  · unfold kalloc at hnone
    cases hfree : s.freelist with
    | nil => exact absurd hfree hroom
    | cons f fs =>
      rw [hfree] at hnone
      cases (ok_pair_inj hnone).1
  · exact he

end

/-- The entry that `CowHandler` leaves can be written. -/
theorem resolvedEntry_bits (page : Nat) {w : Pte} (h : CowEntry w) :
    has (resolvedEntry page w) PTE_V = true ∧ has (resolvedEntry page w) PTE_U = true ∧
      has (resolvedEntry page w) PTE_W = true := by
  have h0 := h.1
  have h4 := h.2.1
  rw [has_V] at h0
  rw [has_U] at h4
  rw [has_V, has_U, has_W, resolvedEntry_low _ _ (by decide), resolvedEntry_low _ _ (by decide),
    resolvedEntry_low _ _ (by decide), h0, h4]
  exact ⟨rfl, rfl, rfl⟩

/-- What `CowHandler` does: nothing unless the entry asks for it, nothing when there is no page for
the copy, and otherwise it makes the entry writable without a visible change. -/
def CowOutcome (r : Nat) (rs held : List Nat) (va : Nat) (s : Kmem) (ret : Int) (s' : Kmem) : Prop :=
  (ret = -1 ∧ ¬ CowEntry (pte s.mem r (va / PGSIZE)) ∧ s' = s) ∨
    (ret = -2 ∧ CowEntry (pte s.mem r (va / PGSIZE)) ∧
      s' = { s with exhausted := s.exhausted + 1 }) ∨
    (ret = 0 ∧ CowEntry (pte s.mem r (va / PGSIZE)) ∧ va / PGSIZE < UPAGES ∧
      Ledger s' (r :: rs) held ∧ Keeps s s' rs held ∧
      (∃ w, pte s'.mem r = update (pte s.mem r) (va / PGSIZE) w ∧
        has w PTE_V = true ∧ has w PTE_U = true ∧ has w PTE_W = true) ∧
      slot s'.mem (va / PGSIZE) 2 r = slot s.mem (va / PGSIZE) 2 r ∧
      umem s'.mem r = umem s.mem r ∧ s'.exhausted = s.exhausted)

theorem cowHandler_spec {va : Nat} {ret : Int} (h : Ledger s (r :: rs) held)
    (hhigh : KernelHigh s.mem r) (hr : cowHandler r va s = .ok (ret, s')) :
    va < MAXVA ∧ CowOutcome r rs held va s ret s' := by
  obtain ⟨hva, hcase⟩ := (cowHandler_meets h hhigh).post _ _ hr
  refine ⟨hva, ?_⟩
  rcases hcase with h1 | ⟨rfl, hc, hka⟩ | ⟨rfl, hc, hv, page, s1, a, s2, hka, hs1, hc1, hkf, rfl⟩
  · exact .inl h1
  · rcases kalloc_spec h hka with ⟨-, rfl⟩ | ⟨page, hp, -⟩
    · exact .inr (.inl ⟨rfl, hc, rfl⟩)
    · cases hp
  · rcases kalloc_spec h hka with ⟨hp, -⟩ | ⟨page', hp, hl1, hk1, hex1⟩
    · cases hp
    · cases hp
      obtain ⟨-, hl, hk, hp, hslot, hum, hex⟩ := resolve_spec hl1 hv hs1 hc1 hkf
      have hs : slot s.mem (va / PGSIZE) 2 r = some a := by
        rw [← slot_congr _ 2 r fun f hf =>
          hk1.page (.head _) (interior_subset_tables _ 2 r hf)]
        exact hs1
      refine .inr (.inr ⟨rfl, hc, hv, hl, ?_, ⟨_, ?_, resolvedEntry_bits page hc1⟩, hslot.trans hs.symm, ?_,
        hex.trans hex1⟩)
      · exact (hk1.mono (List.sublist_cons_self ..) (.refl _)).trans hk
      · rw [← hk1.pte (.head _)]
        exact hp
      · exact hum.trans (hk1.umem (.head _))

end Resolve

/-! ## `copyout` -/

theorem PGROUNDDOWN_div (a : Nat) : PGROUNDDOWN a / PGSIZE = a / PGSIZE :=
  Nat.mul_div_cancel _ (by decide)

theorem sub_PGROUNDDOWN (a : Nat) : a - PGROUNDDOWN a = a % PGSIZE := by
  unfold PGROUNDDOWN PGSIZE
  omega

/-- What `copyout` needs of an entry: the page is there, and the process may use it. -/
def UserEntry (w : Pte) : Prop := has w PTE_V = true ∧ has w PTE_U = true

section Copyout

variable {s s' : Kmem} {r : Nat} {rs held : List Nat}

theorem pieceLen_fits (dstva : Nat) (src : List UInt8) :
    dstva % PGSIZE + (src.take (pieceLen dstva src.length)).length ≤ PGSIZE := by
  have hlt : dstva % PGSIZE < PGSIZE := Nat.mod_lt _ (by decide)
  rw [List.length_take]
  unfold pieceLen
  omega

variable {src : List UInt8}

theorem pieceLen_pos (dstva : Nat) (h : src.length ≠ 0) :
    (src.drop (pieceLen dstva src.length)).length < src.length := by
  have hlt : dstva % PGSIZE < PGSIZE := Nat.mod_lt _ (by decide)
  rw [List.length_drop]
  unfold pieceLen
  omega

variable {m : Mem}

theorem not_userEntry_umem (h : ¬ UserEntry (pte m r v)) :
    umem m r v = none ∨ ∃ p, umem m r v = some p ∧ p.user = false := by
  by_cases hv : v < UPAGES
  · rw [umem_of_lt _ _ hv]
    unfold decode
    split_ifs with hval
    · refine .inr ⟨_, rfl, ?_⟩
      simpa [UserEntry, hval] using h
    · exact .inl rfl
  · exact .inl (if_neg hv)

theorem userEntry_umem (hv : v < UPAGES) (h : UserEntry (pte m r v)) : ∃ p, umem m r v = some p ∧ p.user = true ∧
      p.write = (has (pte m r v) PTE_W || has (pte m r v) PTE_COW) := by
  rw [umem_of_lt _ _ hv]
  unfold decode
  rw [if_pos h.1]
  exact ⟨_, rfl, h.2, rfl⟩

/-- `UMem.copyout` at a page that the process may not write. -/
theorem UMem.copyout_refused {k dstva : Nat} {M : UMem} {src : List UInt8} (hne : src.length ≠ 0)
    (h : MAXVA ≤ PGROUNDDOWN dstva ∨ ∀ p, M (dstva / PGSIZE) = some p → (p.user && p.write) = false) :
    UMem.copyout (k + 1) M dstva src = (-1, M) := by
  rw [UMem.copyout, if_neg hne]
  by_cases hva : MAXVA ≤ PGROUNDDOWN dstva
  · rw [if_pos hva]
  · rw [if_neg hva]
    cases hp : M (dstva / PGSIZE) with
    | none => rfl
    | some p =>
      rcases h with h | h
      · exact absurd h hva
      · simp only [h p hp]
        rfl

/-- `UMem.copyout` at a page that the process may write. -/
theorem UMem.copyout_piece {k dstva : Nat} {M : UMem} {src : List UInt8} {p : UPage}
    (hne : src.length ≠ 0) (hva : PGROUNDDOWN dstva < MAXVA) (hp : M (dstva / PGSIZE) = some p)
    (hw : (p.user && p.write) = true) : UMem.copyout (k + 1) M dstva src = UMem.copyout k
        (M.put (dstva / PGSIZE) (dstva % PGSIZE) (src.take (pieceLen dstva src.length)))
        ((PGROUNDDOWN dstva + PGSIZE) % 2 ^ 64) (src.drop (pieceLen dstva src.length)) := by
  rw [UMem.copyout, if_neg hne, if_neg (by omega), hp]
  simp only [hw, if_true]

/-- One round of the loop of `copyout`, up to the next one. -/
theorem copyoutLoop_round {cur fuel dstva : Nat} {src : List UInt8} {E : Panic → Prop}
    {R Q : Int → Kmem → Prop} (hne : src.length ≠ 0)
    (hcow : PGROUNDDOWN dstva < MAXVA → UserEntry (pte s.mem r (dstva / PGSIZE)) →
      has (pte s.mem r (dstva / PGSIZE)) PTE_W = false → Meets E (cowHandler cur (PGROUNDDOWN dstva)) s R)
    (hstop : MAXVA ≤ PGROUNDDOWN dstva ∨ ¬ UserEntry (pte s.mem r (dstva / PGSIZE)) → Q (-1) s)
    (hnext : ∀ a e s1, PGROUNDDOWN dstva < MAXVA → UserEntry (pte s.mem r (dstva / PGSIZE)) →
      slot s.mem (dstva / PGSIZE) 2 r = some a →
      ((has (pte s.mem r (dstva / PGSIZE)) PTE_W = true ∧ e = 0 ∧ s1 = s) ∨
        (has (pte s.mem r (dstva / PGSIZE)) PTE_W = false ∧ R e s1)) → (e < 0 → Q (-1) s1) ∧ (¬ e < 0 →
        Meets E (copyoutLoop cur r fuel ((PGROUNDDOWN dstva + PGSIZE) % 2 ^ 64) (src.drop (pieceLen dstva src.length)))
          { s1 with
            mem := writeBytes s1.mem (PTE2PA (ld64 s1.mem a) + dstva % PGSIZE)
              (src.take (pieceLen dstva src.length)) } Q)) :
    Meets E (copyoutLoop cur r (fuel + 1) dstva src) s Q := by
  rw [copyoutLoop, if_neg hne]
  simp only [sub_PGROUNDDOWN]
  refine .ite (fun hge => .pure (hstop (.inl hge))) fun hlt => ?_
  have hva : PGROUNDDOWN dstva < MAXVA := by omega
  have hpages : dstva / PGSIZE < 512 ^ 3 := PGROUNDDOWN_div dstva ▸ MAXVA_pages hva
  refine .step (walk_false hva r s) ?_
  rw [PGROUNDDOWN_div]
  cases hs : slot s.mem (dstva / PGSIZE) 2 r with
  | none =>
    refine .pure (hstop (.inr fun hu => ?_))
    have hinv := slot_none_invalid hs
    rw [hu.1] at hinv
    cases hinv
  | some a =>
    refine .step rfl ?_
    rw [slot_isSome_leaf hpages hs]
    refine .ite (fun hno => ?_) fun huser => ?_
    · exact .pure (hstop (.inr fun hu => by simp [hu.1, hu.2] at hno))
    have hu : UserEntry (pte s.mem r (dstva / PGSIZE)) := by simpa [UserEntry] using huser
    refine .bind (R := fun e s1 => (has (pte s.mem r (dstva / PGSIZE)) PTE_W = true ∧ e = 0 ∧
      s1 = s) ∨ (has (pte s.mem r (dstva / PGSIZE)) PTE_W = false ∧ R e s1)) ?_ fun e s1 hres => ?_
    · refine .ite (fun hW => .pure (.inl ⟨hW, rfl, rfl⟩)) fun hW => ?_
      rw [Bool.not_eq_true] at hW
      exact (hcow hva hu hW).weaken fun _ _ hR => .inr ⟨hW, hR⟩
    · obtain ⟨hneg, hgo⟩ := hnext a e s1 hva hu hs hres
      exact .ite (fun he => .pure (hneg he)) fun he => .step rfl (.step rfl (hgo he))

variable {dstva : Nat}

/-- How `copyout` gets at a user page: the entry is writable, or becomes so, or the page cannot be
written, or memory for a copy is missing. -/
theorem copyout_resolve {a : Nat} {e : Int} {s1 : Kmem} {p : UPage} (h : Ledger s (r :: rs) held)
    (hu : UserEntry (pte s.mem r (dstva / PGSIZE))) (hpw : p.write = (has (pte s.mem r (dstva / PGSIZE)) PTE_W ||
      has (pte s.mem r (dstva / PGSIZE)) PTE_COW)) (hs : slot s.mem (dstva / PGSIZE) 2 r = some a)
    (hres : (has (pte s.mem r (dstva / PGSIZE)) PTE_W = true ∧ e = 0 ∧ s1 = s) ∨
      (has (pte s.mem r (dstva / PGSIZE)) PTE_W = false ∧ CowOutcome r rs held (PGROUNDDOWN dstva) s e s1)) :
    (e < 0 ∧ s1 = s ∧ p.write = false) ∨ (e < 0 ∧ s1 = { s with exhausted := s.exhausted + 1 }) ∨
      (¬ e < 0 ∧ p.write = true ∧ Ledger s1 (r :: rs) held ∧ Keeps s s1 rs held ∧
        (∀ u, u ≠ dstva / PGSIZE → pte s1.mem r u = pte s.mem r u) ∧
        has (pte s1.mem r (dstva / PGSIZE)) PTE_V = true ∧
        has (pte s1.mem r (dstva / PGSIZE)) PTE_W = true ∧
        slot s1.mem (dstva / PGSIZE) 2 r = some a ∧
        umem s1.mem r = umem s.mem r ∧ s1.exhausted = s.exhausted) := by
  rcases hres with ⟨hW, rfl, rfl⟩ | ⟨hW, hcow⟩
  · refine .inr (.inr ⟨by decide, ?_, h, .refl _ _ _, fun _ _ => rfl, hu.1, hW, hs, rfl, rfl⟩)
    rw [hpw, hW]
    rfl
  · unfold CowOutcome at hcow
    rw [PGROUNDDOWN_div] at hcow
    rcases hcow with ⟨rfl, hnc, rfl⟩ | ⟨rfl, hc, rfl⟩ | ⟨rfl, hc, -, hl, hk, ⟨w, hpte, hwV, -, hwW⟩, hslot, hum, hex⟩
    · refine .inl ⟨by decide, rfl, ?_⟩
      rw [hpw, hW, Bool.false_or]
      simpa [CowEntry, hu.1, hu.2] using hnc
    · exact .inr (.inl ⟨by decide, rfl⟩)
    · refine .inr (.inr ⟨by decide, ?_, hl, hk, ?_, ?_, ?_, hslot.trans hs, hum, hex⟩)
      · rw [hpw, hc.2.2, Bool.or_true]
      · intro u hu'
        rw [hpte, update_of_ne hu']
      · rw [hpte, update_self]
        exact hwV
      · rw [hpte, update_self]
        exact hwW

/-- The pages that `copyout` comes to are writable as they are, so that the current process does not
matter; or the table is that of the current process. -/
def CopyTable (cur r dstva len : Nat) (m : Mem) : Prop :=
  (cur = r ∧ KernelHigh m r) ∨ ∀ i < len, UserEntry (pte m r ((dstva + i) / PGSIZE)) →
    (dstva + i) / PGSIZE < UPAGES ∧ has (pte m r ((dstva + i) / PGSIZE)) PTE_W = true

theorem next_page (hva : PGROUNDDOWN dstva < MAXVA) :
    (PGROUNDDOWN dstva + PGSIZE) % 2 ^ 64 = (dstva / PGSIZE + 1) * PGSIZE := by
  have hmax : MAXVA = 274877906944 := by decide
  unfold PGROUNDDOWN PGSIZE at *
  omega

variable {cur : Nat}

theorem CopyTable.next {m' : Mem} (h : CopyTable cur r dstva src.length m) (hva : PGROUNDDOWN dstva < MAXVA)
    (hv : dstva / PGSIZE < UPAGES) (hkeep : ∀ u, u ≠ dstva / PGSIZE → pte m' r u = pte m r u) :
    CopyTable cur r ((PGROUNDDOWN dstva + PGSIZE) % 2 ^ 64) (src.drop (pieceLen dstva src.length)).length m' := by
  rcases h with ⟨hcur, hhigh⟩ | h
  · refine .inl ⟨hcur, fun v hge => ?_⟩
    rw [hkeep v (by omega)]
    exact hhigh v hge
  · refine .inr fun i hi => ?_
    rw [List.length_drop] at hi
    have hi' : (dstva / PGSIZE + 1) * PGSIZE + i = dstva + (pieceLen dstva src.length + i) := by
      unfold pieceLen PGSIZE at *
      omega
    have hpage : dstva / PGSIZE + 1 ≤ ((dstva / PGSIZE + 1) * PGSIZE + i) / PGSIZE :=
      (Nat.le_div_iff_mul_le (by decide)).2 (Nat.le_add_right ..)
    rw [next_page hva, hkeep _ (by omega), hi']
    exact h _ (by omega)

/-- `copyout` writes the address space of the table and no other, page by page; it fails at a page
that the process may not write, or where there was no page for a copy. -/
theorem copyoutLoop_meets {fuel : Nat} (h : Ledger s (r :: rs) held)
    (hcur : CopyTable cur r dstva src.length s.mem) (hlen : src.length ≤ fuel) :
    Meets (fun _ => False) (copyoutLoop cur r fuel dstva src) s fun ret s' =>
      Ledger s' (r :: rs) held ∧ Keeps s s' rs held ∧ (∀ u, UPAGES ≤ u → pte s'.mem r u = pte s.mem r u) ∧
      ∃ k, UMem.copyout k (umem s.mem r) dstva src = (ret, umem s'.mem r) ∧
        ((k = fuel ∧ s'.exhausted = s.exhausted) ∨ (ret = -1 ∧ s.exhausted < s'.exhausted)) := by
  induction fuel generalizing dstva src s with
  | zero =>
    refine .pure ⟨h, .refl _ _ _, fun _ _ => rfl, 0, ?_, .inl ⟨rfl, rfl⟩⟩
    rw [UMem.copyout, if_pos (by omega)]
  | succ fuel ih =>
    by_cases hne : src.length = 0
    · rw [copyoutLoop, if_pos hne]
      refine .pure ⟨h, .refl _ _ _, fun _ _ => rfl, fuel + 1, ?_, .inl ⟨rfl, rfl⟩⟩
      rw [UMem.copyout, if_pos hne]
    have hpos : 0 < src.length := Nat.pos_of_ne_zero hne
    refine copyoutLoop_round (R := CowOutcome r rs held (PGROUNDDOWN dstva) s) hne ?_ ?_ ?_
    · intro hva hu hW
      rcases hcur with ⟨rfl, hhigh⟩ | hcur
      · obtain ⟨ret, s', hok⟩ := cowHandler_returns h hhigh hva
        exact .of_ok hok (cowHandler_spec h hhigh hok).2
      · exact absurd (hcur 0 hpos hu).2 (by rw [Nat.add_zero, hW]; decide)
    · intro hstop
      refine ⟨h, .refl _ _ _, fun _ _ => rfl, fuel + 1, ?_, .inl ⟨rfl, rfl⟩⟩
      apply UMem.copyout_refused hne
      refine hstop.imp_right fun hnu => ?_
      rcases not_userEntry_umem hnu with hnone | ⟨p, hp, hpu⟩
      · exact fun p hp => by rw [hnone] at hp; cases hp
      · intro q hq
        rw [hp] at hq
        cases hq
        rw [hpu]
        rfl
    · intro a e s1 hva hu hs hres
      have hv : dstva / PGSIZE < UPAGES := by
        rcases hcur with ⟨-, hhigh⟩ | hcur
        · exact hhigh.user_lt hu.2
        · exact (hcur 0 hpos hu).1
      obtain ⟨p, hp, hpu, hpw⟩ := userEntry_umem hv hu
      rcases copyout_resolve h hu hpw hs hres with ⟨he, rfl, hpw'⟩ | ⟨he, rfl⟩ |
        ⟨he, hpw', hl1, hk1, hpte1, hV1, hW1, hs1, hum1, hex1⟩
      · refine ⟨fun _ => ⟨h, .refl _ _ _, fun _ _ => rfl, fuel + 1, ?_, .inl ⟨rfl, rfl⟩⟩, fun hn => absurd he hn⟩
        refine UMem.copyout_refused hne (.inr fun q hq => ?_)
        rw [hp] at hq
        cases hq
        rw [hpw', Bool.and_false]
      · refine ⟨fun _ => ⟨h.exhaust, .exhaust _ _ _, fun _ _ => rfl, 0, ?_,
          Or.inr ⟨rfl, Nat.lt_succ_self _⟩⟩, fun hn => absurd he hn⟩
        rw [UMem.copyout, if_neg hne]
      refine ⟨fun hn => absurd hn he, fun _ => ?_⟩
      rw [slot_isSome_leaf (hv.trans UPAGES_lt) hs1]
      obtain ⟨hl2, hk2, hpte2, hum2⟩ := hl1.writeUser hv hV1 (hl1.writable_alone hv hV1 hW1).1 (pieceLen_fits dstva src)
      -- every other entry is as before
      have hkeep : ∀ u, u ≠ dstva / PGSIZE → pte (writeBytes s1.mem
          (PTE2PA (pte s1.mem r (dstva / PGSIZE)) + dstva % PGSIZE)
          (src.take (pieceLen dstva src.length))) r u = pte s.mem r u := by
        intro u hu'
        rw [hpte2, hpte1 u hu']
      have hlt := pieceLen_pos dstva hne
      refine (ih hl2 (hcur.next hva hv hkeep) (by omega)).weaken ?_
      rintro ret s' ⟨hl, hk, hh, k, hcopy, hend⟩
      refine ⟨hl, (hk1.trans hk2).trans hk, fun u hu' => ?_, k + 1, ?_, ?_⟩
      · rw [hh u hu']
        exact hkeep u (by omega)
      · rw [UMem.copyout_piece hne hva hp (by rw [hpu, hpw']; rfl), ← hum1, ← hum2]
        exact hcopy
      · rcases hend with ⟨rfl, hex⟩ | ⟨rfl, hex⟩
        · exact .inl ⟨rfl, hex.trans hex1⟩
        · exact .inr ⟨rfl, by rw [← hex1]; exact hex⟩

/-- `copyout` into one page of a table whose entry permits writing; whose table `CowHandler` would
work on does not matter. -/
theorem copyout_page_meets (h : Ledger s (r :: rs) held)
    (hv : dstva / PGSIZE < UPAGES) (hu : UserEntry (pte s.mem r (dstva / PGSIZE)))
    (hW : has (pte s.mem r (dstva / PGSIZE)) PTE_W = true) (hne : src.length ≠ 0)
    (hfit : dstva % PGSIZE + src.length ≤ PGSIZE) : Meets (fun _ => False) (copyout cur r dstva src) s fun ret s' =>
      ret = 0 ∧ Ledger s' (r :: rs) held ∧ Keeps s s' rs held ∧ pte s'.mem r = pte s.mem r ∧
      umem s'.mem r = (umem s.mem r).put (dstva / PGSIZE) (dstva % PGSIZE) src ∧ s'.exhausted = s.exhausted := by
  have hva : PGROUNDDOWN dstva < MAXVA := by
    have e1 : UPAGES = 67108862 := by decide
    have e2 : MAXVA = 274877906944 := by decide
    unfold PGROUNDDOWN PGSIZE at *
    omega
  have hpiece : pieceLen dstva src.length = src.length := by
    unfold pieceLen
    omega
  unfold copyout
  obtain ⟨n, hn⟩ : ∃ n, src.length = n + 1 := ⟨src.length - 1, by omega⟩
  nth_rewrite 1 [hn]
  refine copyoutLoop_round (R := fun _ _ => False) hne (fun _ _ hno => ?_) ?_ ?_
  · rw [hW] at hno
    cases hno
  · rintro (hge | hnu)
    · omega
    · exact absurd hu hnu
  · rintro a e s1 - - hs (⟨-, rfl, rfl⟩ | ⟨-, ⟨⟩⟩)
    refine ⟨fun hneg => absurd hneg (by decide), fun _ => ?_⟩
    rw [hpiece, List.take_length, List.drop_length, slot_isSome_leaf (hv.trans UPAGES_lt) hs]
    obtain ⟨hl, hk, hp, hum⟩ := h.writeUser hv hu.1 (h.writable_alone hv hu.1 hW).1 hfit
    -- nothing is left after the first page
    cases n with
    | zero => exact .pure ⟨rfl, hl, hk, hp, hum, rfl⟩
    | succ n =>
      rw [copyoutLoop, if_pos List.length_nil]
      exact .pure ⟨rfl, hl, hk, hp, hum, rfl⟩

end Copyout

end Xv6.Vm
