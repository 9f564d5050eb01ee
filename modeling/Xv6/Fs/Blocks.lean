import Mathlib.Data.List.GetD
import Xv6.Fs.Ownership

/-!
# Blocks added to an inode

`Wrote` says what a part of a write to inode `i` has done: bytes at an offset of the file, with the blocks that
had to be allocated for them. Nothing else that can be read through an inode changes. `bmap` is the case
without bytes.
-/

set_option autoImplicit false

namespace Xv6.Fs

open Function Xv6.Base

variable {sb : Superblock} {m m' m₁ m₂ : Mem} {v v' v₁ v₂ : Nat → Dinode} {B : Finset Nat} {i : Nat}

/-- The bytes `bs` have been written at `off` of inode `i`. Blocks can have been added to the inode. -/
structure Wrote (sb : Superblock) (i off : Nat) (bs : List UInt8) (m : Mem) (v : Nat → Dinode) (m' : Mem)
    (v' : Nat → Dinode) : Prop where
  others : ∀ j, j ≠ i → v' j = v j
  fields : v' i = { v i with addrs := (v' i).addrs }
  slots : ∀ j, j < sb.ninodes → (v j).type ≠ 0 → ∀ n, n < NSLOT → (v j).slot m n ≠ 0 →
    (v' j).slot m' n = (v j).slot m n
  other : ∀ j, j < sb.ninodes → (v j).type ≠ 0 → j ≠ i → ∀ bn, bn < MAXFILE → (v j).block m bn ≠ 0 →
    ∀ x, x / BSIZE = (v j).block m bn → m' x = m x
  old : ∀ x, x / BSIZE < MAXFILE → (v i).block m (x / BSIZE) ≠ 0 → x < off ∨ off + bs.length ≤ x →
    (v' i).byte m' x = (v i).byte m x
  new : ∀ n, n < bs.length → (off + n) / BSIZE < MAXFILE ∧ (v' i).block m' ((off + n) / BSIZE) ≠ 0 ∧
    (v' i).byte m' (off + n) = bs.getD n 0
  inodes : ∀ x, x < sb.bmapstart * BSIZE → m' x = m x

/-- A byte of a block is at its place in the block. -/
theorem block_addr_div (b x : Nat) : (b * BSIZE + x % BSIZE) / BSIZE = b := by
  unfold BSIZE
  omega

variable {bn j : Nat}

namespace Wrote

variable {off : Nat} {bs cs : List UInt8}

theorem type_eq (h : Wrote sb i off bs m v m' v') (j : Nat) : (v' j).type = (v j).type := by
  by_cases hj : j = i
  · subst hj
    rw [h.fields]
  · rw [h.others j hj]

theorem block_eq (h : Wrote sb i off bs m v m' v') (hj : j < sb.ninodes) (htype : (v j).type ≠ 0)
    (hbn : bn < MAXFILE) (hne : (v j).block m bn ≠ 0) : (v' j).block m' bn = (v j).block m bn :=
  h.slots j hj htype _ (slotOf_lt hbn) hne

theorem refl (sb : Superblock) (i off : Nat) (m : Mem) (v : Nat → Dinode) : Wrote sb i off [] m v m v where
  others := fun _ _ => rfl
  fields := rfl
  slots := fun _ _ _ _ _ _ => rfl
  other := fun _ _ _ _ _ _ _ _ _ => rfl
  old := fun _ _ _ _ => rfl
  new := fun n hn => absurd hn (Nat.not_lt_zero n)
  inodes := fun _ _ => rfl

/-- No byte written at one place is no byte written at another. -/
theorem move (h : Wrote sb i off [] m v m' v') (off' : Nat) : Wrote sb i off' [] m v m' v' where
  others := h.others
  fields := h.fields
  slots := h.slots
  other := h.other
  old := fun x h1 h2 _ => h.old x h1 h2 (Nat.lt_or_ge x off)
  new := fun n hn => absurd hn (Nat.not_lt_zero n)
  inodes := h.inodes

/-- Two parts of a write, one after the other. -/
theorem trans (hi : i < sb.ninodes) (htype : (v i).type ≠ 0) (h : Wrote sb i off bs m v m₁ v₁)
    (h' : Wrote sb i (off + bs.length) cs m₁ v₁ m₂ v₂) : Wrote sb i off (bs ++ cs) m v m₂ v₂ where
  others := fun j hj => (h'.others j hj).trans (h.others j hj)
  fields := by
    rw [h'.fields, h.fields]
  slots := by
    intro j hj ht n hn hne
    have h1 := h.slots j hj ht n hn hne
    rw [h'.slots j hj (by rw [h.type_eq]; exact ht) n hn (by rw [h1]; exact hne), h1]
  other := by
    intro j hj ht hji bn hbn hne x hx
    have h1 := h.block_eq hj ht hbn hne
    have ht1 : (v₁ j).type ≠ 0 := by
      rw [h.type_eq]
      exact ht
    rw [h'.other j hj ht1 hji bn hbn (by rw [h1]; exact hne) x (by rw [h1]; exact hx)]
    exact h.other j hj ht hji bn hbn hne x hx
  old := by
    intro x hx hne hout
    rw [List.length_append] at hout
    have h1 := h.block_eq hi htype hx hne
    rw [h'.old x hx (by rw [h1]; exact hne) (by omega)]
    exact h.old x hx hne (by omega)
  new := by
    intro n hn
    rw [List.length_append] at hn
    by_cases hlt : n < bs.length
    · -- the bytes of the first part are not written again
      obtain ⟨hmax, hne, hbyte⟩ := h.new n hlt
      have ht1 : (v₁ i).type ≠ 0 := by
        rw [h.type_eq]
        exact htype
      refine ⟨hmax, ?_, ?_⟩
      · rw [h'.block_eq hi ht1 hmax hne]
        exact hne
      · rw [h'.old _ hmax hne (.inl (by omega)), hbyte, List.getD_append _ _ _ _ hlt]
    · obtain ⟨hmax, hne, hbyte⟩ := h'.new (n - bs.length) (by omega)
      have hpos : off + bs.length + (n - bs.length) = off + n := by omega
      rw [hpos] at hmax hne hbyte
      refine ⟨hmax, hne, hbyte.trans ?_⟩
      rw [List.getD_append_right _ _ _ _ (by omega)]
  inodes := fun x hx => (h'.inodes x hx).trans (h.inodes x hx)

/-- Blocks have been added: every block that holds bytes of a file is still there and unchanged. -/
theorem of_agree (hi : i < sb.ninodes) (htype : (v i).type ≠ 0) (hothers : ∀ j, j ≠ i → v' j = v j)
    (hfields : v' i = { v i with addrs := (v' i).addrs })
    (hslots : ∀ j, j < sb.ninodes → (v j).type ≠ 0 → ∀ n, n < NSLOT → (v j).slot m n ≠ 0 →
      (v' j).slot m' n = (v j).slot m n)
    (hagree : ∀ j, j < sb.ninodes → (v j).type ≠ 0 → ∀ bn, bn < MAXFILE → (v j).block m bn ≠ 0 →
      ∀ x, x / BSIZE = (v j).block m bn → m' x = m x)
    (hinodes : ∀ x, x < sb.bmapstart * BSIZE → m' x = m x) : Wrote sb i off [] m v m' v' where
  others := hothers
  fields := hfields
  slots := hslots
  other := fun j hj ht _ bn hbn hne x hx => hagree j hj ht bn hbn hne x hx
  old := by
    intro x hx hne _
    unfold Dinode.byte
    have hblock : (v' i).block m' (x / BSIZE) = (v i).block m (x / BSIZE) :=
      hslots i hi htype _ (slotOf_lt hx) hne
    rw [hblock]
    exact hagree i hi htype _ hx hne _ (block_addr_div _ _)
  new := fun n hn => absurd hn (Nat.not_lt_zero n)
  inodes := hinodes

end Wrote

/-! ## Blocks of different slots -/

namespace Owned

variable {i : Nat}

section

variable (h : Owned sb m v B) (hi : i < sb.ninodes) (htype : (v i).type ≠ 0) (hbn : bn < MAXFILE)
include h hi htype hbn

/-- A block with bytes of a file is not an indirect block. -/
theorem block_ne_last (hne : (v i).block m bn ≠ 0) (hj : j < sb.ninodes) (htype' : (v j).type ≠ 0) :
    ((v j).addrs (Fin.last NDIRECT)).toNat ≠ (v i).block m bn := by
  intro heq
  rw [← Dinode.slot_last m (v j)] at heq
  exact slotOf_ne_indirect bn (h.slot_inj hi htype (slotOf_lt hbn) hj htype' (by decide) hne heq.symm).2

theorem block_inj {bn' : Nat} (hj : j < sb.ninodes) (htype' : (v j).type ≠ 0) (hbn' : bn' < MAXFILE)
    (hne : (v i).block m bn ≠ 0) (heq : (v i).block m bn = (v j).block m bn') : i = j ∧ bn = bn' := by
  obtain ⟨h1, h2⟩ := h.slot_inj hi htype (slotOf_lt hbn) hj htype' (slotOf_lt hbn') hne heq
  exact ⟨h1, slotOf_inj h2⟩

theorem block_range (hne : (v i).block m bn ≠ 0) : sb.nmeta ≤ (v i).block m bn :=
  (h.slot_range hi htype (slotOf_lt hbn) hne).1

end

/-- Bytes are written to a block of a file. -/
theorem write (h : Owned sb m v B) (hsb : sb.Layout) (hi : i < sb.ninodes) (htype : (v i).type ≠ 0) {o : Nat}
    (hbn : bn < MAXFILE) (hne : (v i).block m bn ≠ 0) {bs : List UInt8} (hlen : o + bs.length ≤ BSIZE) :
    Owned sb (writeBytes m ((v i).block m bn * BSIZE + o) bs) v B ∧
      Wrote sb i (bn * BSIZE + o) bs m v (writeBytes m ((v i).block m bn * BSIZE + o) bs) v := by
  have hrange := h.block_range hi htype hbn hne
  have hnot := fun j hj ht => h.block_ne_last (j := j) hi htype hbn hne hj ht
  have hsame : ∀ x, x / BSIZE ≠ (v i).block m bn → writeBytes m ((v i).block m bn * BSIZE + o) bs x = m x := by
    intro x hx
    refine writeBytes_of_not_mem m ?_
    unfold BSIZE at *
    omega
  have hslots : ∀ j, j < sb.ninodes → (v j).type ≠ 0 → ∀ n, n < NSLOT →
      (v j).slot (writeBytes m ((v i).block m bn * BSIZE + o) bs) n = (v j).slot m n := by
    intro j hj ht n hn
    refine Dinode.slot_congr _ hn fun _ x hx => hsame x ?_
    rw [hx]
    exact hnot j hj ht
  refine ⟨h.content hsb hrange hnot hsame, ⟨fun _ _ => rfl, rfl, fun j hj ht n hn _ => hslots j hj ht n hn, ?_, ?_,
    ?_, ?_⟩⟩
  · intro j hj ht hji bn' hbn' hne' x hx
    refine hsame x ?_
    rw [hx]
    exact fun heq => hji (h.block_inj hj ht hbn' hi htype hbn hne' heq).1
  · intro x hx hne' hout
    unfold Dinode.byte
    have hblock : (v i).block (writeBytes m ((v i).block m bn * BSIZE + o) bs) (x / BSIZE) =
        (v i).block m (x / BSIZE) := hslots i hi htype _ (slotOf_lt hx)
    rw [hblock]
    by_cases hxb : x / BSIZE = bn
    · rw [hxb]
      refine writeBytes_of_not_mem m ?_
      unfold BSIZE at *
      omega
    · refine hsame _ ?_
      rw [block_addr_div]
      exact fun heq => hxb (h.block_inj hi htype hx hi htype hbn hne' heq).2
  · intro n hn
    have hdiv : (bn * BSIZE + o + n) / BSIZE = bn := by
      unfold BSIZE at *
      omega
    have hmod : (bn * BSIZE + o + n) % BSIZE = o + n := by
      unfold BSIZE at *
      omega
    have hblock : (v i).block (writeBytes m ((v i).block m bn * BSIZE + o) bs) bn = (v i).block m bn :=
      hslots i hi htype _ (slotOf_lt hbn)
    unfold Dinode.byte
    rw [hdiv, hmod, hblock]
    refine ⟨hbn, hne, ?_⟩
    rw [writeBytes_of_mem m (by omega) (by omega), List.getD_eq_getElem _ _ hn]
    congr 1
    omega
  · intro x hx
    refine hsame x ?_
    have hle := hsb.bmapstart_le
    intro heq
    rw [← heq] at hrange
    unfold BSIZE at *
    omega

end Owned

/-! ## New blocks in slots -/

/-- A block number is put into an empty entry of `addrs`. -/
theorem Dinode.slot_setAddr {d : Dinode} {p : Fin (NDIRECT + 1)} {b : Nat} (hb : b < 2 ^ 32)
    (hp : d.addrs p = 0) (hzero : p = Fin.last NDIRECT → ∀ x, x / BSIZE = b → m x = 0) {n : Nat} (hn : n < NSLOT) :
    (d.setAddr p (UInt32.ofNat b)).slot m n = if n = p.val then b else d.slot m n := by
  have hval : (UInt32.ofNat b).toNat = b := UInt32.toNat_ofNat_of_lt hb
  rcases lt_slot_cases hn with ⟨q, rfl⟩ | ⟨e, he, rfl⟩
  · rw [slot_addrs, slot_addrs]
    by_cases hq : q = p
    · subst hq
      rw [if_pos rfl]
      simp only [setAddr, update_self]
      exact hval
    · rw [if_neg fun heq => hq (Fin.ext heq)]
      simp only [setAddr, update_of_ne hq]
  · have hlt := p.isLt
    rw [if_neg (by omega)]
    by_cases hlast : p = Fin.last NDIRECT
    · -- the entries of the new indirect block are 0, as if there was none
      subst hlast
      rw [slot_indirect_zero _ _ _ hp]
      by_cases hb0 : UInt32.ofNat b = 0
      · rw [slot_indirect_zero]
        exact hb0
      · rw [slot_indirect]
        · simp only [setAddr, update_self]
          rw [hval, indirect_zero he (hzero rfl)]
          rfl
        · simp only [setAddr, update_self]
          exact hb0
    · have hsame : (d.setAddr p (UInt32.ofNat b)).addrs (Fin.last NDIRECT) = d.addrs (Fin.last NDIRECT) :=
        update_of_ne (Ne.symm hlast) _ _
      by_cases hl : d.addrs (Fin.last NDIRECT) = 0
      · rw [slot_indirect_zero _ _ _ hl, slot_indirect_zero _ _ _ (hsame.trans hl)]
      · rw [slot_indirect _ _ _ hl, slot_indirect _ _ _ (by rw [hsame]; exact hl), hsame]

theorem Owned.setAddr (h : Owned sb m v B) (hi : i < sb.ninodes) (htype : (v i).type ≠ 0) {b : Nat} (hmem : b ∈ B)
    (hb : b < 2 ^ 32) {p : Fin (NDIRECT + 1)} (hp : (v i).addrs p = 0)
    (hzero : p = Fin.last NDIRECT → ∀ x, x / BSIZE = b → m x = 0) :
    Owned sb m (update v i ((v i).setAddr p (UInt32.ofNat b))) (B.erase b) := by
  have hpn : p.val < NSLOT := by
    have := p.isLt
    unfold NSLOT
    omega
  refine Holdings.attach h hmem (i := (i, p.val)) ?_ ?_
  · rw [held_eq hi htype hpn, Dinode.slot_addrs, hp]
    rfl
  · rintro ⟨j, n⟩
    by_cases hj : j = i
    · subst hj
      by_cases hn : n < NSLOT
      · rw [held_eq hi (by rw [update_self]; exact htype) hn, update_self,
          Dinode.slot_setAddr hb hp hzero hn, held_eq hi htype hn]
        by_cases hnp : n = p.val
        · rw [if_pos hnp, if_pos (by rw [hnp])]
        · rw [if_neg hnp, if_neg fun heq => hnp (Prod.mk.inj heq).2]
      · have hne : (j, n) ≠ (j, p.val) := fun heq => hn ((Prod.mk.inj heq).2 ▸ hpn)
        rw [if_neg hne]
        unfold held
        rw [if_neg fun hc => hn hc.2.2, if_neg fun hc => hn hc.2.2]
    · rw [if_neg fun heq => hj (Prod.mk.inj heq).1]
      unfold held
      rw [update_of_ne hj]

/-- The same for an entry of the indirect block. -/
theorem Dinode.slot_setIndirect {d : Dinode} {b e : Nat} (hb : b < 2 ^ 32)
    (hlast : d.addrs (Fin.last NDIRECT) ≠ 0) (he : e < NINDIRECT) {n : Nat} (hn : n < NSLOT) :
    d.slot (storeUint m ((d.addrs (Fin.last NDIRECT)).toNat * BSIZE + 4 * e) (UInt32.ofNat b)) n =
      if n = NDIRECT + 1 + e then b else d.slot m n := by
  rcases lt_slot_cases hn with ⟨q, rfl⟩ | ⟨f, hf, rfl⟩
  · have hlt := q.isLt
    rw [slot_addrs, slot_addrs, if_neg (by omega)]
  · rw [slot_indirect _ _ _ hlast, slot_indirect _ _ _ hlast]
    unfold indirect
    by_cases hfe : f = e
    · subst hfe
      rw [if_pos rfl, loadUint_storeUint]
      exact UInt32.toNat_ofNat_of_lt hb
    · rw [if_neg (by omega)]
      congr 1
      exact loadUint_congr fun x h1 h2 => storeUint_of_not_mem _ (by omega)

theorem Owned.setIndirect (h : Owned sb m v B) (hsb : sb.Layout) (hi : i < sb.ninodes) (htype : (v i).type ≠ 0)
    {b : Nat} (hmem : b ∈ B) (hb : b < 2 ^ 32) (hlast : (v i).addrs (Fin.last NDIRECT) ≠ 0) {e : Nat}
    (he : e < NINDIRECT) (hzero : (v i).slot m (NDIRECT + 1 + e) = 0) :
    Owned sb (storeUint m (((v i).addrs (Fin.last NDIRECT)).toNat * BSIZE + 4 * e) (UInt32.ofNat b)) v (B.erase b) := by
  have hen : NDIRECT + 1 + e < NSLOT := by
    unfold NSLOT
    omega
  have hrange := (h.last_range hi htype hlast).1
  have hsame : ∀ x, x / BSIZE ≠ ((v i).addrs (Fin.last NDIRECT)).toNat →
      storeUint m (((v i).addrs (Fin.last NDIRECT)).toNat * BSIZE + 4 * e) (UInt32.ofNat b) x = m x := by
    intro x hx
    refine storeUint_of_not_mem _ ?_
    unfold NINDIRECT at he
    unfold BSIZE at *
    omega
  refine Holdings.congr (Holdings.attach h hmem (i := (i, NDIRECT + 1 + e)) (by rw [held_eq hi htype hen, hzero])
    fun _ => rfl) ?_ fun c hc => blockBit_congr sb (hsame _ ?_)
  · rintro ⟨j, n⟩
    by_cases hn : j < sb.ninodes ∧ (v j).type ≠ 0 ∧ n < NSLOT
    · rw [held_eq hn.1 hn.2.1 hn.2.2, held_eq hn.1 hn.2.1 hn.2.2]
      by_cases hj : j = i
      · subst hj
        rw [Dinode.slot_setIndirect hb hlast he hn.2.2]
        by_cases hne : n = NDIRECT + 1 + e
        · rw [if_pos hne, if_pos (by rw [hne])]
        · rw [if_neg hne, if_neg fun heq => hne (Prod.mk.inj heq).2]
      · -- the indirect block of another inode is another block
        rw [if_neg fun heq => hj (Prod.mk.inj heq).1]
        refine Dinode.slot_congr _ hn.2.2 fun hl x hx => hsame x ?_
        rw [hx]
        intro heq
        rw [← Dinode.slot_last m, ← Dinode.slot_last m (v i)] at heq
        refine hj (h.slot_inj hn.1 hn.2.1 (by decide) hi htype (by decide) ?_ heq).1
        rw [Dinode.slot_last]
        exact fun h0 => hl (UInt32_toNat_eq_zero.1 h0)
    · have hne : (j, n) ≠ (i, NDIRECT + 1 + e) := by
        intro heq
        obtain ⟨rfl, rfl⟩ := Prod.mk.inj heq
        exact hn ⟨hi, htype, hen⟩
      rw [if_neg hne]
      unfold held
      rw [if_neg hn, if_neg hn]
  · have hlt := hsb.bitByte_lt hc
    rw [bitByte_eq] at hlt
    unfold BSIZE at *
    omega

/-! ## `bmap` -/

/-- What a part of a write through entry `k` does to the state. -/
structure Adds (sb : Superblock) (k : Fin NINODE) (i off : Nat) (bs : List UInt8) (v v' : Nat → Dinode)
    (s t : State) : Prop where
  wrote : Wrote sb i off bs s.data v t.data v'
  inode : t.inode = update s.inode k { s.inode k with di := v' i }
  releases : t.releases = s.releases
  outstanding : t.log.outstanding = s.log.outstanding

namespace Adds

variable {k : Fin NINODE} {off : Nat} {bs cs : List UInt8} {s t u : State}

theorem of_same (hdi : (s.inode k).di = v i) (hsame : SameTable s t) (hwrote : Wrote sb i off bs s.data v t.data v) :
    Adds sb k i off bs v v s t := by
  refine ⟨hwrote, ?_, hsame.releases, hsame.outstanding⟩
  rw [hsame.inode, ← hdi]
  exact (update_eq_self k s.inode).symm

theorem di_eq (h : Adds sb k i off bs v v' s t) : (t.inode k).di = v' i := by
  rw [h.inode, update_self]

theorem trans (hi : i < sb.ninodes) (htype : (v i).type ≠ 0) (h : Adds sb k i off bs v v₁ s t)
    (h' : Adds sb k i (off + bs.length) cs v₁ v₂ t u) : Adds sb k i off (bs ++ cs) v v₂ s u where
  wrote := h.wrote.trans hi htype h'.wrote
  inode := by
    rw [h'.inode, h.inode, update_self, update_idem]
  releases := h'.releases.trans h.releases
  outstanding := h'.outstanding.trans h.outstanding

theorem move (h : Adds sb k i off [] v v' s t) (off' : Nat) : Adds sb k i off' [] v v' s t :=
  ⟨h.wrote.move off', h.inode, h.releases, h.outstanding⟩

end Adds

section

variable (hsb : sb.Layout) {k : Fin NINODE} {s : State}
include hsb

variable {r : Nat}

omit hsb in
/-- A block that `balloc` has taken is none that holds bytes of a file. -/
theorem Took.agree (hv : Owned sb m v B) (h : Took sb v B m r m') (hj : j < sb.ninodes)
    (htype : (v j).type ≠ 0) (hbn : bn < MAXFILE) (hne : (v j).block m bn ≠ 0) {x : Nat}
    (hx : x / BSIZE = (v j).block m bn) : m' x = m x := by
  refine h.other x ?_ (.inr ?_)
  · rw [hx]
    have hheld := h.not_held (j, slotOf bn)
    rwa [held_eq hj htype (slotOf_lt hbn)] at hheld
  · have hrange := hv.block_range hj htype hbn hne
    rw [← hx] at hrange
    exact (Nat.le_div_iff_mul_le (by decide)).1 hrange

theorem Took.inodes (h : Took sb v B m r m') {x : Nat} (hx : x < sb.bmapstart * BSIZE) : m' x = m x := by
  refine h.other x ?_ (.inl hx)
  have hle := hsb.bmapstart_le.trans h.nmeta_le
  intro heq
  rw [← heq, Nat.le_div_iff_mul_le (by decide)] at hle
  omega

omit hsb in
theorem Took.slot (h : Took sb v B m r m') {n : Nat} (hj : j < sb.ninodes) (htype : (v j).type ≠ 0)
    (hn : n < NSLOT) : (v j).slot m' n = (v j).slot m n := by
  have hheld := h.held (j, n)
  rwa [held_eq hj htype hn, held_eq hj htype hn] at hheld

section

variable (h : Owned sb s.data v B) (hop : 0 < s.log.outstanding) (hi : i < sb.ninodes) (htype : (v i).type ≠ 0)
include h hop hi htype

theorem bmapAddr_meets (hdi : (s.inode k).di = v i) (p : Fin (NDIRECT + 1)) :
    Meets TooBig (bmapAddr sb k p) s fun r t => Logged s t ∧ ∃ v', Owned sb t.data v' B ∧ Adds sb k i 0 [] v v' s t ∧
      (r ≠ 0 → (v' i).slot t.data p = r) ∧ (r = 0 → Full sb t.data) := by
  refine .step (getInode_eq k s) (.ite (fun hzero => ?_) fun hne => ?_)
  · refine .bind (balloc_meets hsb h hop) ?_
    rintro r t ⟨hsame, hlogged, ⟨rfl, rfl, hfull⟩ | ⟨hr, htook⟩⟩
    · rw [if_pos rfl]
      exact .pure ⟨hlogged, v, h, Adds.of_same hdi hsame (Wrote.refl ..), fun h0 => absurd rfl h0, fun _ => hfull⟩
    · rw [if_neg hr]
      rw [hdi] at hzero
      have hset := fun n hn => Dinode.slot_setAddr (m := t.data) (n := n) htook.lt hzero (fun _ => htook.zero) hn
      have hown := htook.owned.setAddr hi htype (Finset.mem_insert_self r B) htook.lt hzero fun _ => htook.zero
      rw [Finset.erase_insert htook.not_loose] at hown
      refine .step rfl (.pure ⟨⟨hlogged.data, hlogged.block, hlogged.disk⟩, _, hown,
        ⟨?_, ?_, hsame.releases, hsame.outstanding⟩, fun _ => ?_, fun h0 => absurd h0 hr⟩)
      · refine Wrote.of_agree hi htype (fun j hj => update_of_ne hj _ _) ?_ ?_ ?_ ?_
        · rw [update_self]
          rfl
        · intro j hj ht n hn hne
          by_cases hji : j = i
          · subst hji
            rw [update_self]
            refine (hset n hn).trans ?_
            rw [if_neg, htook.slot hj ht hn]
            rintro rfl
            rw [Dinode.slot_addrs, hzero] at hne
            exact hne rfl
          · rw [update_of_ne hji]
            exact htook.slot hj ht hn
        · exact fun j hj ht bn hbn hne x hx => htook.agree h hj ht hbn hne hx
        · exact fun x hx => htook.inodes hsb hx
      · rw [State.setInode_inode, hsame.inode, update_self, ← hdi]
      · rw [update_self]
        have hpn : p.val < NSLOT := by
          have := p.isLt
          unfold NSLOT
          omega
        exact (hset p.val hpn).trans (if_pos rfl)
  · refine .pure ⟨Logged.refl s, v, h, Adds.of_same hdi (SameTable.refl s) (Wrote.refl ..), fun _ => ?_,
      fun h0 => ?_⟩
    · rw [Dinode.slot_addrs, hdi]
    · exact absurd (UInt32_toNat_eq_zero.1 h0) hne

theorem bmapIndirect_meets (hdi : (s.inode k).di = v i) (hlast : (v i).addrs (Fin.last NDIRECT) ≠ 0) {e : Nat}
    (he : e < NINDIRECT) :
    Meets TooBig (bmapIndirect sb ((v i).addrs (Fin.last NDIRECT)).toNat e) s fun r t => Logged s t ∧
      Owned sb t.data v B ∧ Adds sb k i 0 [] v v s t ∧ (r ≠ 0 → (v i).slot t.data (NDIRECT + 1 + e) = r) ∧ (r = 0 → Full sb t.data) := by
  have hslot := Dinode.slot_indirect s.data (v i) e hlast
  have hen : NDIRECT + 1 + e < NSLOT := by
    unfold NSLOT
    omega
  refine .step (rfl : getData s = .ok (s.data, s)) (.ite (fun hzero => ?_) fun hne => ?_)
  · rw [hzero] at hslot
    refine .bind (balloc_meets hsb h hop) ?_
    rintro r t ⟨hsame, hlogged, ⟨rfl, rfl, hfull⟩ | ⟨hr, htook⟩⟩
    · rw [if_pos rfl]
      exact .pure ⟨hlogged, h, Adds.of_same hdi hsame (Wrote.refl ..), fun h0 => absurd rfl h0, fun _ => hfull⟩
    · rw [if_neg hr]
      have hop' : 0 < t.log.outstanding := by
        rw [hsame.outstanding]
        exact hop
      refine .step rfl (.bind (logWrite_meets (by exact hop') _) ?_)
      rintro - u rfl
      have hset := fun n hn => Dinode.slot_setIndirect (m := t.data) (n := n) htook.lt hlast he hn
      have hown := htook.owned.setIndirect hsb hi htype (Finset.mem_insert_self r B) htook.lt hlast he
        ((htook.slot hi htype hen).trans hslot)
      rw [Finset.erase_insert htook.not_loose] at hown
      have hstore : ∀ x, x / BSIZE ≠ ((v i).addrs (Fin.last NDIRECT)).toNat →
          storeUint t.data (((v i).addrs (Fin.last NDIRECT)).toNat * BSIZE + 4 * e) (UInt32.ofNat r) x = t.data x := by
        intro x hx
        refine storeUint_of_not_mem _ ?_
        unfold NINDIRECT at he
        unfold BSIZE at *
        omega
      refine .pure ⟨hlogged.trans (Logged.modify t hstore), hown, Adds.of_same hdi (hsame.trans (SameTable.log t _ _)) ?_, fun _ => ?_,
        fun h0 => absurd h0 hr⟩
      · refine Wrote.of_agree hi htype (fun _ _ => rfl) rfl ?_ ?_ ?_
        · intro j hj ht n hn hne
          by_cases hji : j = i
          · subst hji
            refine (hset n hn).trans ?_
            rw [if_neg, htook.slot hj ht hn]
            rintro rfl
            exact hne hslot
          · refine (Dinode.slot_congr _ hn fun hl x hx => hstore x ?_).trans (htook.slot hj ht hn)
            rw [hx]
            intro heq
            rw [← Dinode.slot_last s.data, ← Dinode.slot_last s.data (v i)] at heq
            refine hji (h.slot_inj hj ht (by decide) hi htype (by decide) ?_ heq).1
            rw [Dinode.slot_last]
            exact fun h0 => hl (UInt32_toNat_eq_zero.1 h0)
        · intro j hj ht bn hbn hne x hx
          refine (hstore x ?_).trans (htook.agree h hj ht hbn hne hx)
          rw [hx]
          exact (h.block_ne_last hj ht hbn hne hi htype).symm
        · intro x hx
          refine (hstore x ?_).trans (htook.inodes hsb hx)
          have hle := hsb.bmapstart_le.trans (h.last_range hi htype hlast).1
          intro heq
          rw [← heq, Nat.le_div_iff_mul_le (by decide)] at hle
          omega
      · exact (hset _ hen).trans (if_pos rfl)
  · refine .pure ⟨Logged.refl s, h, Adds.of_same hdi (SameTable.refl s) (Wrote.refl ..), fun _ => hslot,
      fun h0 => ?_⟩
    exact absurd (UInt32_toNat_eq_zero.1 h0) hne

/-- `bmap` returns the block for `bn`, which is in its slot afterwards, or 0 if the disk is full. -/
theorem bmap_meets (hdi : (s.inode k).di = v i) (hbn : bn < MAXFILE) :
    Meets TooBig (bmap sb k bn) s fun r t => Logged s t ∧ ∃ v', Owned sb t.data v' B ∧ Adds sb k i 0 [] v v' s t ∧
      (r ≠ 0 → (v' i).block t.data bn = r) ∧ (r = 0 → Full sb t.data) := by
  refine .ite (fun hdirect => ?_) fun hdirect => .ite (fun hbound => ?_) fun hbound => ?_
  · refine (bmapAddr_meets hsb h hop hi htype hdi _).weaken ?_
    rintro r t ⟨hlogged, v', hown, hadds, hr, hfull⟩
    refine ⟨hlogged, v', hown, hadds, fun hne => ?_, hfull⟩
    rw [Dinode.block_direct _ _ hdirect, ← Dinode.slot_addrs]
    exact hr hne
  · refine .bind (bmapAddr_meets hsb h hop hi htype hdi (Fin.last NDIRECT)) ?_
    rintro r t ⟨hlogged, v', hown, hadds, hr, hfull⟩
    refine .ite (fun h0 => .pure ⟨hlogged, v', hown, hadds, fun hne => absurd rfl hne, fun _ => hfull h0⟩)
      fun hne => ?_
    have heq : ((v' i).addrs (Fin.last NDIRECT)).toNat = r := by
      rw [← Dinode.slot_last t.data]
      exact hr hne
    have hlast : (v' i).addrs (Fin.last NDIRECT) ≠ 0 := fun h0 => hne (by rw [← heq, h0]; rfl)
    have htype' : (v' i).type ≠ 0 := by
      rw [hadds.wrote.type_eq]
      exact htype
    rw [← heq]
    refine (bmapIndirect_meets hsb hown (by rw [hadds.outstanding]; exact hop) hi htype' hadds.di_eq hlast hbound).weaken ?_
    rintro r' u ⟨hlogged', hown', hadds', hr', hfull'⟩
    refine ⟨hlogged.trans hlogged', v', hown', hadds.trans hi htype hadds', fun hne' => ?_, hfull'⟩
    rw [Dinode.block_indirect _ _ hdirect]
    exact hr' hne'
  · unfold MAXFILE at hbn
    omega

end

end

end Xv6.Fs
