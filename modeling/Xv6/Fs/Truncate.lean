import Xv6.Fs.Contents

/-!
# `itrunc`

The blocks of the inode become loose all at once, as if `addrs` had been cleared first. The loops of `itrunc` then
give them back one after the other, and at the end none is left.
-/

set_option autoImplicit false

namespace Xv6.Fs

open Function Xv6.Base

variable {sb : Superblock} {v : Nat → Dinode} {i : Nat}

/-- The block numbers of an inode. -/
def Dinode.blocks (m : Mem) (d : Dinode) : Finset Nat := ((Finset.range NSLOT).image (d.slot m)).erase 0

variable {d : Dinode} {m : Mem} {b : Nat}

theorem Dinode.mem_blocks : b ∈ d.blocks m ↔ b ≠ 0 ∧ ∃ j, j < NSLOT ∧ d.slot m j = b := by
  unfold blocks
  rw [Finset.mem_erase, Finset.mem_image]
  simp only [Finset.mem_range]

/-- Without its block numbers, the blocks of an inode are loose. -/
theorem Owned.detach (h : Owned sb m v ∅) (hi : i < sb.ninodes) (htype : (v i).type ≠ 0)
    (haddrs : d.addrs = fun _ => 0) : Owned sb m (update v i d) ((v i).blocks m) := by
  refine Holdings.detach h (fun p => p.1 = i) ?_ ?_ ?_
  · rintro ⟨j, n⟩ hj
    have hj' : j = i := hj
    subst hj'
    unfold held
    rw [update_self, Dinode.slot_of_zero m haddrs, ite_self]
  · rintro ⟨j, n⟩ hj
    unfold held
    rw [update_of_ne hj]
  · intro b
    rw [Dinode.mem_blocks]
    constructor
    · rintro ⟨hne, n, hn, hb⟩
      exact .inr ⟨hne, (i, n), rfl, (held_eq hi htype hn).trans hb⟩
    · rintro (hb | ⟨hne, ⟨j, n⟩, hj, hb⟩)
      · exact absurd hb (Finset.notMem_empty b)
      · have hj' : j = i := hj
        subst hj'
        refine ⟨hne, n, ?_⟩
        unfold held at hb
        by_cases hc : j < sb.ninodes ∧ (v j).type ≠ 0 ∧ n < NSLOT
        · rw [if_pos hc] at hb
          exact ⟨hc.2.2, hb⟩
        · rw [if_neg hc] at hb
          exact absurd hb.symm hne

section

variable (hsb : sb.Layout)
include hsb

omit hsb in
/-- An entry of the inode table with other block numbers. -/
def Inode.setAddrs (ip : Inode) (f : Fin (NDIRECT + 1) → UInt32) : Inode :=
  { ip with di := { ip.di with addrs := f } }

/-- What the loops of `itrunc` leave alone. -/
structure Freed (sb : Superblock) (s t : State) : Prop where
  data : ∀ x, OffMap sb x → t.data x = s.data x
  releases : t.releases = s.releases
  outstanding : t.log.outstanding = s.log.outstanding

variable {s t : State}

omit hsb in
theorem Freed.trans {u : State} (h : Freed sb s t) (h' : Freed sb t u) : Freed sb s u :=
  ⟨fun x hx => (h'.data x hx).trans (h.data x hx), h'.releases.trans h.releases, h'.outstanding.trans h.outstanding⟩

omit hsb in
/-- 0 is never loose. -/
theorem Owned.ne_zero_of_loose {B : Finset Nat} (h : Owned sb m v B) (hb : b ∈ B) : b ≠ 0 := by
  have h1 := (h.loose b hb).1
  have h2 := h.pos
  omega

/-- The loop over the direct blocks. `f` are the block numbers at its start. -/
theorem itruncDirect_meets (k : Fin NINODE) (f : Fin (NDIRECT + 1) → UInt32) :
    ∀ (ps : List (Fin (NDIRECT + 1))) (s : State) (B : Finset Nat), ps.Nodup → Owned sb s.data v B →
      0 < s.log.outstanding → (∀ p ∈ ps, (s.inode k).di.addrs p = f p) → (∀ p ∈ ps, f p ≠ 0 → (f p).toNat ∈ B) →
      (∀ p ∈ ps, ∀ q ∈ ps, f p ≠ 0 → f p = f q → p = q) →
      Meets TooBig (itruncDirect sb k ps) s fun _ t => Freed sb s t ∧
        Owned sb t.data v (B \ (ps.map fun p => (f p).toNat).toFinset) ∧ t.inode = update s.inode k
          ((s.inode k).setAddrs fun p => if p ∈ ps then 0 else (s.inode k).di.addrs p) := by
  intro ps
  induction ps with
  | nil =>
    intro s B _ h _ _ _ _
    refine .pure ⟨⟨fun _ _ => rfl, rfl, rfl⟩, ?_, ?_⟩
    · rw [List.map_nil, List.toFinset_nil, Finset.sdiff_empty]
      exact h
    · simp only [List.not_mem_nil, if_false]
      exact (update_eq_self k s.inode).symm
  | cons p ps ih =>
    intro s B hnodup h hop haddrs hmem hinj
    obtain ⟨hp, hnodup'⟩ := List.nodup_cons.1 hnodup
    have hself := haddrs p (.head _)
    refine .step (getInode_eq k s) (.ite (fun hzero => ?_) fun hne => ?_)
    · -- an empty entry
      refine (ih s B hnodup' h hop (fun q hq => haddrs q (.tail _ hq))
        (fun q hq => hmem q (.tail _ hq))
        (fun q hq r hr => hinj q (.tail _ hq) r (.tail _ hr))).weaken ?_
      rintro - t ⟨hfreed, hown, hinode⟩
      refine ⟨hfreed, ?_, hinode.trans ?_⟩
      · rw [List.map_cons, List.toFinset_cons, ← hself, hzero]
        exact (Finset.sdiff_insert_of_notMem (fun h0 => h.ne_zero_of_loose h0 rfl) _).symm ▸ hown
      · congr 2
        funext q
        by_cases hq : q = p
        · rw [hq, if_neg hp, if_pos (.head _), hzero]
        · simp only [List.mem_cons, hq, false_or]
    · rw [hself] at hne ⊢
      refine .bind (bfree_meets hsb h hop (hmem p (.head _) hne)) ?_
      rintro - t ⟨hsame, hown, hdata⟩
      refine .step rfl ?_
      have hset : ∀ q, ((t.setInode k { t.inode k with di := (t.inode k).di.setAddr p 0 }).inode k).di.addrs q =
          if q = p then 0 else (s.inode k).di.addrs q := by
        intro q
        rw [State.setInode_inode, update_self, hsame.inode]
        simp only [Dinode.setAddr]
        by_cases hq : q = p
        · rw [hq, if_pos rfl, update_self]
        · rw [if_neg hq, update_of_ne hq]
      refine (ih _ (B.erase (f p).toNat) hnodup' (by exact hown) (by exact hsame.outstanding ▸ hop) ?_ ?_
        (fun q hq r hr => hinj q (.tail _ hq) r (.tail _ hr))).weaken ?_
      · intro q hq
        have hqp : q ≠ p := fun heq => hp (heq ▸ hq)
        rw [hset, if_neg hqp]
        exact haddrs q (.tail _ hq)
      · intro q hq hfq
        refine Finset.mem_erase.2 ⟨fun heq => ?_, hmem q (.tail _ hq) hfq⟩
        have hqp := hinj q (.tail _ hq) p (.head _) hfq (UInt32.toNat_inj.1 heq)
        exact hp (hqp ▸ hq)
      · rintro - u ⟨hfreed, hown', hinode⟩
        refine ⟨⟨fun x hx => (hfreed.data x hx).trans (hdata x hx), hfreed.releases.trans hsame.releases,
          hfreed.outstanding.trans hsame.outstanding⟩, ?_, ?_⟩
        · rw [List.map_cons, List.toFinset_cons, Finset.sdiff_insert, ← Finset.erase_sdiff_comm]
          exact hown'
        · rw [hinode]
          simp only [hset]
          simp only [State.setInode_inode, update_self, update_idem, hsame.inode]
          refine congrArg (fun g => update s.inode k ((s.inode k).setAddrs g)) (funext fun q => ?_)
          by_cases hq : q = p
          · rw [hq, if_neg hp, if_pos rfl, if_pos List.mem_cons_self]
          · simp only [List.mem_cons, hq, false_or, if_false]

/-- The loop over the entries of an indirect block; `f` are the entries. -/
theorem itruncIndirect_meets (hb : sb.nmeta ≤ b) (f : Nat → UInt32) :
    ∀ (js : List Nat) (s : State) (B : Finset Nat), js.Nodup → Owned sb s.data v B → 0 < s.log.outstanding →
      (∀ j ∈ js, j < NINDIRECT ∧ indirect s.data b j = f j) → (∀ j ∈ js, f j ≠ 0 → (f j).toNat ∈ B) →
      (∀ j ∈ js, ∀ n ∈ js, f j ≠ 0 → f j = f n → j = n) →
      Meets TooBig (itruncIndirect sb b js) s fun _ t => Freed sb s t ∧ t.inode = s.inode ∧
        Owned sb t.data v (B \ (js.map fun j => (f j).toNat).toFinset) := by
  intro js
  induction js with
  | nil =>
    intro s B _ h _ _ _ _
    refine .pure ⟨⟨fun _ _ => rfl, rfl, rfl⟩, rfl, ?_⟩
    rw [List.map_nil, List.toFinset_nil, Finset.sdiff_empty]
    exact h
  | cons j js ih =>
    intro s B hnodup h hop hentry hmem hinj
    obtain ⟨hj, hnodup'⟩ := List.nodup_cons.1 hnodup
    have hself := (hentry j (.head _)).2
    refine .step (rfl : getData s = .ok (s.data, s)) (.ite (fun hzero => ?_) fun hne => ?_)
    · refine (ih s B hnodup' h hop (fun n hn => hentry n (.tail _ hn))
        (fun n hn => hmem n (.tail _ hn))
        (fun n hn r hr => hinj n (.tail _ hn) r (.tail _ hr))).weaken ?_
      rintro - t ⟨hfreed, hinode, hown⟩
      refine ⟨hfreed, hinode, ?_⟩
      rw [List.map_cons, List.toFinset_cons, ← hself, hzero]
      exact (Finset.sdiff_insert_of_notMem (fun h0 => h.ne_zero_of_loose h0 rfl) _).symm ▸ hown
    · rw [hself] at hne ⊢
      refine .bind (bfree_meets hsb h hop (hmem j (.head _) hne)) ?_
      rintro - t ⟨hsame, hown, hdata⟩
      refine (ih t (B.erase (f j).toNat) hnodup' hown (hsame.outstanding ▸ hop) ?_ ?_
        (fun n hn r hr => hinj n (.tail _ hn) r (.tail _ hr))).weaken ?_
      · intro n hn
        obtain ⟨hlt, heq⟩ := hentry n (.tail _ hn)
        refine ⟨hlt, heq ▸ indirect_congr hlt fun x hx => hdata x (.inr ?_)⟩
        rw [← hx] at hb
        exact (Nat.le_div_iff_mul_le (by decide)).1 hb
      · intro n hn hfn
        refine Finset.mem_erase.2 ⟨fun heq => ?_, hmem n (.tail _ hn) hfn⟩
        have hnj := hinj n (.tail _ hn) j (.head _) hfn (UInt32.toNat_inj.1 heq)
        exact hj (hnj ▸ hn)
      · rintro - u ⟨hfreed, hinode, hown'⟩
        refine ⟨Freed.trans ⟨hdata, hsame.releases, hsame.outstanding⟩ hfreed, hinode.trans hsame.inode, ?_⟩
        rw [List.map_cons, List.toFinset_cons, Finset.sdiff_insert, ← Finset.erase_sdiff_comm]
        exact hown'

omit hsb in
/-- What is left of the blocks after the loops is the indirect block. -/
theorem Dinode.blocks_cases (hb : b ∈ d.blocks m) :
    b ∈ (directIndices.map fun p => (d.addrs p).toNat).toFinset ∨ b = (d.addrs (Fin.last NDIRECT)).toNat ∨
      (d.addrs (Fin.last NDIRECT) ≠ 0 ∧ b ∈ ((List.range NINDIRECT).map fun j =>
        (indirect m (d.addrs (Fin.last NDIRECT)).toNat j).toNat).toFinset) := by
  obtain ⟨hne, n, hn, rfl⟩ := Dinode.mem_blocks.1 hb
  rcases lt_slot_cases hn with ⟨p, rfl⟩ | ⟨e, he, rfl⟩
  · rw [slot_addrs]
    by_cases hp : p = Fin.last NDIRECT
    · rw [hp]
      exact .inr (.inl rfl)
    · refine .inl (List.mem_toFinset.2 (List.mem_map.2 ⟨p, ?_, rfl⟩))
      exact List.mem_map.2 ⟨p.castPred hp, List.mem_finRange _, Fin.castSucc_castPred p hp⟩
  · by_cases hlast : d.addrs (Fin.last NDIRECT) = 0
    · exact absurd (slot_indirect_zero m d e hlast) hne
    · rw [slot_indirect _ _ _ hlast]
      exact .inr (.inr ⟨hlast, List.mem_toFinset.2 (List.mem_map.2 ⟨e, List.mem_range.2 he, rfl⟩)⟩)

omit hsb in
theorem mem_directIndices {p : Fin (NDIRECT + 1)} : p ∈ directIndices ↔ p ≠ Fin.last NDIRECT := by
  unfold directIndices
  rw [List.mem_map]
  constructor
  · rintro ⟨q, -, rfl⟩
    exact Fin.castSucc_ne_last q
  · exact fun hp => ⟨p.castPred hp, List.mem_finRange _, Fin.castSucc_castPred p hp⟩

omit hsb in
theorem directIndices_nodup : directIndices.Nodup :=
  (List.nodup_finRange NDIRECT).map (Fin.castSucc_injective NDIRECT)

omit hsb in
theorem Owned.addrs_inj {m : Mem} {B : Finset Nat} (h : Owned sb m v B) (hi : i < sb.ninodes) (htype : (v i).type ≠ 0)
    {p q : Fin (NDIRECT + 1)} (hne : (v i).addrs p ≠ 0) (heq : (v i).addrs p = (v i).addrs q) : p = q := by
  have hlt : ∀ r : Fin (NDIRECT + 1), r.val < NSLOT := fun r => r.isLt.trans (by decide)
  refine Fin.ext (h.slot_inj hi htype (hlt p) hi htype (hlt q) ?_ ?_).2
  · rw [Dinode.slot_addrs]
    exact fun h0 => hne (UInt32_toNat_eq_zero.1 h0)
  · rw [Dinode.slot_addrs, Dinode.slot_addrs, heq]

omit hsb in
theorem Dinode.addrs_mem_blocks {m : Mem} {d : Dinode} {p : Fin (NDIRECT + 1)} (hp : d.addrs p ≠ 0) :
    (d.addrs p).toNat ∈ d.blocks m :=
  mem_blocks.2 ⟨fun h0 => hp (UInt32_toNat_eq_zero.1 h0), p.val, p.isLt.trans (by decide), slot_addrs m d p⟩

/-- The part of `itrunc` for the indirect block. -/
theorem itruncLast_meets {k : Fin NINODE} (h : Owned sb s.data v ∅) (hi : i < sb.ninodes)
    (htype : (v i).type ≠ 0) (hfreed : Freed sb s t) (hop : 0 < s.log.outstanding)
    (hlast : (v i).addrs (Fin.last NDIRECT) ≠ 0) (hown : Owned sb t.data (update v i d)
      ((v i).blocks s.data \ (directIndices.map fun p => ((v i).addrs p).toNat).toFinset)) : Meets TooBig (do
      itruncIndirect sb ((v i).addrs (Fin.last NDIRECT)).toNat (List.range NINDIRECT)
      bfree sb ((v i).addrs (Fin.last NDIRECT)).toNat
      modifyDi k fun d => d.setAddr (Fin.last NDIRECT) 0) t fun _ u => Freed sb s u ∧
        Owned sb u.data (update v i d) ∅ ∧
        u.inode = update t.inode k { t.inode k with di := (t.inode k).di.setAddr (Fin.last NDIRECT) 0 } := by
  have hrange := (h.last_range hi htype hlast).1
  have hop' : 0 < t.log.outstanding := hfreed.outstanding ▸ hop
  have hslot := fun e => Dinode.slot_indirect s.data (v i) e hlast
  have hlt : ∀ e, e < NINDIRECT → NDIRECT + 1 + e < NSLOT := by
    intro e he
    unfold NSLOT
    omega
  -- a block number in the indirect block is not in `addrs`
  have hdirect : ∀ n, n < NSLOT → NDIRECT ≤ n → (v i).slot s.data n ≠ 0 →
      (v i).slot s.data n ∉ (directIndices.map fun p => ((v i).addrs p).toNat).toFinset := by
    intro n hn hle hne hmem
    obtain ⟨p, hp, heq⟩ := List.mem_map.1 (List.mem_toFinset.1 hmem)
    rw [← Dinode.slot_addrs s.data] at heq
    have hpn := (h.slot_inj hi htype hn hi htype (p.isLt.trans (by decide)) hne heq.symm).2
    refine mem_directIndices.1 hp (Fin.ext ?_)
    have hp' := p.isLt
    show p.val = NDIRECT
    omega
  refine .bind (itruncIndirect_meets hsb hrange
    (fun e => indirect s.data ((v i).addrs (Fin.last NDIRECT)).toNat e) (List.range NINDIRECT) t _ List.nodup_range
    hown hop' ?_ ?_ ?_) ?_
  · intro e he
    have he' := List.mem_range.1 he
    refine ⟨he', indirect_congr he' fun x hx => hfreed.data x (.inr ?_)⟩
    rw [← hx] at hrange
    exact (Nat.le_div_iff_mul_le (by decide)).1 hrange
  · intro e he hne
    have he' := List.mem_range.1 he
    have hne' : (v i).slot s.data (NDIRECT + 1 + e) ≠ 0 := by
      rw [hslot]
      exact fun h0 => hne (UInt32_toNat_eq_zero.1 h0)
    rw [Finset.mem_sdiff, ← hslot]
    exact ⟨Dinode.mem_blocks.2 ⟨hne', _, hlt e he', rfl⟩, hdirect _ (hlt e he') (by omega) hne'⟩
  · intro e he n hn hne heq
    have hen := (h.slot_inj hi htype (hlt e (List.mem_range.1 he)) hi htype (hlt n (List.mem_range.1 hn)) ?_ ?_).2
    · omega
    · rw [hslot]
      exact fun h0 => hne (UInt32_toNat_eq_zero.1 h0)
    · rw [hslot, hslot, heq]
  rintro - u ⟨hfreed', hinode, hown'⟩
  refine .bind (bfree_meets hsb hown' (hfreed'.outstanding ▸ hop') ?_) ?_
  · -- the indirect block is not one of its own entries
    rw [Finset.mem_sdiff, Finset.mem_sdiff]
    have hne : (v i).slot s.data NDIRECT ≠ 0 := by
      rw [Dinode.slot_last]
      exact fun h0 => hlast (UInt32_toNat_eq_zero.1 h0)
    refine ⟨⟨Dinode.addrs_mem_blocks hlast, ?_⟩, fun hmem => ?_⟩
    · have hnot := hdirect NDIRECT (by decide) (Nat.le_refl _) hne
      rwa [Dinode.slot_last] at hnot
    · obtain ⟨e, he, heq⟩ := List.mem_map.1 (List.mem_toFinset.1 hmem)
      rw [← hslot, ← Dinode.slot_last s.data] at heq
      have := (h.slot_inj hi htype (by decide) hi htype (hlt e (List.mem_range.1 he)) hne heq.symm).2
      omega
  rintro - w ⟨hsame, hown'', hdata⟩
  refine .of_ok rfl ⟨⟨?_, ?_, ?_⟩, ?_, ?_⟩
  · exact fun x hx => (hdata x hx).trans ((hfreed'.data x hx).trans (hfreed.data x hx))
  · exact hsame.releases.trans (hfreed'.releases.trans hfreed.releases)
  · exact hsame.outstanding.trans (hfreed'.outstanding.trans hfreed.outstanding)
  · show Owned sb w.data _ ∅
    convert hown'' using 1
    refine (Finset.eq_empty_of_forall_notMem fun b hb => ?_).symm
    rw [Finset.mem_erase, Finset.mem_sdiff, Finset.mem_sdiff] at hb
    rcases Dinode.blocks_cases hb.2.1.1 with hcase | hcase | ⟨-, hcase⟩
    · exact hb.2.1.2 hcase
    · exact hb.1 hcase
    · exact hb.2.2 hcase
  · rw [State.setInode_inode, hsame.inode, hinode]

/-- `itrunc` leaves an inode without blocks and without contents. -/
def Dinode.truncated (d : Dinode) : Dinode := { d with addrs := fun _ => 0, size := 0 }

omit hsb in
/-- Other files do not see that blocks are freed. -/
theorem Freed.block_eq (hfreed : Freed sb s t) (h : Owned sb s.data v ∅) {j bn : Nat}
    (hj : j < sb.ninodes) (htype : (v j).type ≠ 0) (hbn : bn < MAXFILE) :
    (v j).block t.data bn = (v j).block s.data bn := by
  refine Dinode.slot_congr _ (slotOf_lt hbn) fun hlast x hx => hfreed.data x (.inr ?_)
  have hrange := (h.last_range hj htype hlast).1
  rw [← hx] at hrange
  exact (Nat.le_div_iff_mul_le (by decide)).1 hrange

omit hsb in
theorem Freed.byte_eq (hfreed : Freed sb s t) (h : Owned sb s.data v ∅) {j x : Nat}
    (hj : j < sb.ninodes) (htype : (v j).type ≠ 0) (hx : x / BSIZE < MAXFILE)
    (hne : (v j).block s.data (x / BSIZE) ≠ 0) : (v j).byte t.data x = (v j).byte s.data x := by
  unfold Dinode.byte
  rw [hfreed.block_eq h hj htype hx]
  refine hfreed.data _ (.inr ((Nat.mul_le_mul_right BSIZE ?_).trans (Nat.le_add_right _ _)))
  exact h.block_range hj htype hx hne

theorem itrunc_meets {k : Fin NINODE} (h : Image sb v s.data) (hop : 0 < s.log.outstanding)
    (hi : i < sb.ninodes) (htype : (v i).type ≠ 0) (hinum : (s.inode k).inum = i) (hdi : (s.inode k).di = v i) :
    Meets TooBig (itrunc sb k) s fun _ t => Image sb (update v i (v i).truncated) t.data ∧
      t.inode = update s.inode k { s.inode k with di := (v i).truncated } ∧ t.releases = s.releases ∧
      t.log.outstanding = s.log.outstanding ∧
      ∀ j, j < sb.ninodes → (v j).type ≠ 0 → j ≠ i → (v j).contents t.data = (v j).contents s.data := by
  have hdetach := h.owned.detach hi htype (d := (v i).truncated) rfl
  refine .bind (itruncDirect_meets hsb k (v i).addrs directIndices s _ directIndices_nodup hdetach hop
    (fun p _ => by rw [hdi]) (fun p _ hp => Dinode.addrs_mem_blocks hp)
    fun p _ q _ hne heq => h.owned.addrs_inj hi htype hne heq) ?_
  rintro - t ⟨hfreed, hown, hinode⟩
  refine .step (getInode_eq k t) ?_
  have hlastEq : (t.inode k).di.addrs (Fin.last NDIRECT) = (v i).addrs (Fin.last NDIRECT) := by
    rw [hinode, update_self]
    show (if Fin.last NDIRECT ∈ directIndices then 0 else (s.inode k).di.addrs (Fin.last NDIRECT)) = _
    rw [if_neg fun hmem => mem_directIndices.1 hmem rfl, hdi]
  refine .bind (R := fun _ u => Freed sb s u ∧ Owned sb u.data (update v i (v i).truncated) ∅ ∧
    u.inode = update s.inode k ((s.inode k).setAddrs fun _ => 0)) ?_ ?_
  · rw [hlastEq]
    refine .ite (fun hzero => .pure ⟨hfreed, ?_, ?_⟩) fun hlast => ?_
    · convert hown using 1
      refine (Finset.eq_empty_of_forall_notMem fun b hb => ?_).symm
      rw [Finset.mem_sdiff] at hb
      rcases Dinode.blocks_cases hb.1 with hcase | hcase | ⟨hcase, -⟩
      · exact hb.2 hcase
      · rw [hzero] at hcase
        exact (Dinode.mem_blocks.1 hb.1).1 hcase
      · exact hcase hzero
    · rw [hinode]
      refine congrArg (fun g => update s.inode k ((s.inode k).setAddrs g)) (funext fun p => ?_)
      by_cases hp : p = Fin.last NDIRECT
      · rw [hp, hdi, hzero, ite_self]
      · rw [if_pos (mem_directIndices.2 hp)]
    · refine (itruncLast_meets hsb h.owned hi htype hfreed hop hlast hown).weaken ?_
      rintro - u ⟨hfreed', hown', hinode'⟩
      refine ⟨hfreed', hown', ?_⟩
      rw [hinode', hinode, update_self, update_idem]
      refine congrArg (fun g => update s.inode k ((s.inode k).setAddrs g)) (funext fun p => ?_)
      by_cases hp : p = Fin.last NDIRECT
      · rw [hp, update_self]
      · rw [update_of_ne hp]
        exact if_pos (mem_directIndices.2 hp)
  rintro - u ⟨hfreed', hown', hinode'⟩
  refine .step rfl ?_
  have huk : (u.setInode k { u.inode k with di := { (u.inode k).di with size := 0 } }).inode k =
      { s.inode k with di := (v i).truncated } := by
    rw [State.setInode_inode, update_self, hinode', update_self, ← hdi]
    rfl
  refine (iupdate_meets sb k (by exact hfreed'.outstanding ▸ hop)).weaken ?_
  rintro - w ⟨hsame, -, hdata⟩
  have hwdata : w.data = writeDinode u.data (sb.dinode i) (v i).truncated := by
    refine hdata.trans ?_
    show writeDinode u.data (sb.dinode ((u.setInode k _).inode k).inum) ((u.setInode k _).inode k).di = _
    rw [huk]
    rw [hinum]
  have hother : ∀ j, j ≠ i → update v i (v i).truncated j = v j := fun j hj => update_of_ne hj _ _
  have himage := Image.of_write hsb hi hown' ?_ ?_ ?_
  · rw [update_self] at himage
    refine ⟨hwdata ▸ himage, ?_, hsame.releases.trans hfreed'.releases, hsame.outstanding.trans hfreed'.outstanding, ?_⟩
    · rw [hsame.inode]
      rw [← huk, hinode']
      simp only [State.setInode_inode, update_self, update_idem, hinode']
    · intro j hj ht hji
      refine List.map_congr_left fun x hx => ?_
      have hlt : x < (v j).size.toNat := List.mem_range.1 hx
      have hbn : x / BSIZE < MAXFILE := div_lt_maxfile (hlt.trans_le (h.sizes j hj ht))
      have hne := (h.noHoles j hj ht).block_ne_zero (h.sizes j hj ht) hlt
      have hbelow := hown'.below_byte (i := j) (x := x) hsb
        (fun y hy => writeDinode_below (m := u.data) hsb hi (v i).truncated hy) hj (by rw [hother j hji]; exact ht) hbn
        (by rw [hother j hji, hfreed'.block_eq h.owned hj ht hbn]; exact hne)
      rw [hother j hji] at hbelow
      rw [hwdata, hbelow]
      exact hfreed'.byte_eq h.owned hj ht hbn hne
  · intro j hj hji
    rw [hother j hji, ← h.disk j hj]
    exact readDinode_congr fun x _ hx => hfreed'.data x (.inl (hx.trans_le (hsb.dinode_lt hj)))
  · intro j hj ht
    by_cases hji : j = i
    · rw [hji, update_self]
      exact Nat.zero_le _
    · rw [hother j hji] at ht ⊢
      exact h.sizes j hj ht
  · intro j hj ht bn hbn hlt
    by_cases hji : j = i
    · rw [hji, update_self] at hlt
      exact absurd hlt (Nat.not_lt_zero _)
    · rw [hother j hji] at ht hlt ⊢
      rw [hfreed'.block_eq h.owned hj ht hbn]
      exact h.noHoles j hj ht bn hbn hlt

end

end Xv6.Fs
