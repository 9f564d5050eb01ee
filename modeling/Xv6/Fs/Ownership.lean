import Xv6.Base.Holdings
import Xv6.Base.Triple
import Xv6.Fs.Mapping

/-!
# Who has a block

The slots of the allocated inodes are the holders of the data blocks, and the free map has the marks. `v` gives
the dinodes: for an inode that is locked this is the copy in memory, which can be ahead of the disk. A block that
`balloc` has returned and that is not in a slot yet, or that is no longer in one and not freed yet, is loose.
-/

set_option autoImplicit false

namespace Xv6.Fs

open Function Xv6.Base

/-- The one panic that the code below can run into on a consistent file system: the log is too small. -/
def TooBig (e : Panic) : Prop := e = .tooBig

/-- The block in slot `p.2` of inode `p.1`; an inode that is free has none. -/
def held (sb : Superblock) (m : Mem) (v : Nat → Dinode) (p : Nat × Nat) : Nat :=
  if p.1 < sb.ninodes ∧ (v p.1).type ≠ 0 ∧ p.2 < NSLOT then (v p.1).slot m p.2 else 0

/-- The free map agrees with the slots of the inodes, except for the loose blocks `B`. -/
abbrev Owned (sb : Superblock) (m : Mem) (v : Nat → Dinode) (B : Finset Nat) : Prop :=
  Holdings (held sb m v) sb.nmeta sb.size (blockBit sb m) B

/-- Everything but the blocks and what is in the log. -/
structure SameTable (s t : State) : Prop where
  inode : t.inode = s.inode
  releases : t.releases = s.releases
  outstanding : t.log.outstanding = s.log.outstanding

theorem SameTable.refl (s : State) : SameTable s s := ⟨rfl, rfl, rfl⟩

variable {s : State}

theorem SameTable.trans {t u : State} (h : SameTable s t) (h' : SameTable t u) : SameTable s u :=
  ⟨h'.inode.trans h.inode, h'.releases.trans h.releases, h'.outstanding.trans h.outstanding⟩

/-- Bytes are changed only in blocks that are logged. -/
structure Logged (s t : State) : Prop where
  data : ∀ x, x / BSIZE ∉ t.log.block → t.data x = s.data x
  block : ∀ b, b ∈ s.log.block → b ∈ t.log.block
  disk : t.disk = s.disk

theorem Logged.refl (s : State) : Logged s s := ⟨fun _ _ => rfl, fun _ hb => hb, rfl⟩

theorem Logged.trans {t u : State} (h : Logged s t) (h' : Logged t u) : Logged s u :=
  ⟨fun x hx => (h'.data x hx).trans (h.data x fun hb => hx (h'.block _ hb)), fun b hb => h'.block b (h.block b hb),
    h'.disk.trans h.disk⟩

theorem Log.mem_add (l : Log) (b c : Nat) : c ∈ (l.add b).block ↔ c = b ∨ c ∈ l.block := by
  show c ∈ (if b ∈ l.block then l.block else l.block ++ [b]) ↔ _
  by_cases hb : b ∈ l.block
  · rw [if_pos hb]
    exact ⟨.inr, fun h => h.elim (fun heq => heq ▸ hb) id⟩
  · rw [if_neg hb, List.mem_append, List.mem_singleton, or_comm]

variable {b : Nat}

/-- A block is changed and then logged. -/
theorem Logged.modify (s : State) {m : Mem} (h : ∀ x, x / BSIZE ≠ b → m x = s.data x) :
    Logged s ((s.setData m).setLog (s.log.add b)) where
  data := fun x hx => h x fun heq => hx ((s.log.mem_add b _).2 (.inl heq))
  block := fun c hc => (s.log.mem_add b c).2 (.inr hc)
  disk := rfl

/-- Address `x` is not in the free map. -/
def OffMap (sb : Superblock) (x : Nat) : Prop := x < sb.bmapstart * BSIZE ∨ sb.nmeta * BSIZE ≤ x

variable {sb : Superblock} {m m' : Mem} {v : Nat → Dinode} {B : Finset Nat}

/-! ## Slots -/

variable {i j : Nat}

theorem held_eq (hi : i < sb.ninodes) (htype : (v i).type ≠ 0) (hj : j < NSLOT) :
    held sb m v (i, j) = (v i).slot m j := if_pos ⟨hi, htype, hj⟩

/-- The entries of an indirect block are in that block. -/
theorem indirect_congr {e : Nat} (he : e < NINDIRECT) (h : ∀ x, x / BSIZE = b → m' x = m x) :
    indirect m' b e = indirect m b e := by
  refine loadUint_congr fun x h1 h2 => h x ?_
  unfold NINDIRECT at he
  unfold BSIZE at *
  omega

theorem indirect_zero {e : Nat} (he : e < NINDIRECT) (h : ∀ x, x / BSIZE = b → m x = 0) : indirect m b e = 0 := by
  have hload : ∀ (k a : Nat), (∀ x, a ≤ x → x < a + k → m x = 0) → loadLE m a k = 0 := by
    intro k
    induction k with
    | zero => exact fun _ _ => rfl
    | succ k ih =>
      intro a ha
      unfold loadLE
      rw [ha a (by omega) (by omega), ih (a + 1) fun x h1 h2 => ha x (by omega) (by omega)]
      rfl
  unfold indirect loadUint
  rw [hload 4 _ fun x h1 h2 => h x ?_]
  · rfl
  · unfold NINDIRECT at he
    unfold BSIZE at *
    omega

/-- The slots of an inode depend on the blocks only through the indirect block. -/
theorem Dinode.slot_congr (d : Dinode) (hj : j < NSLOT)
    (h : d.addrs (Fin.last NDIRECT) ≠ 0 → ∀ x, x / BSIZE = (d.addrs (Fin.last NDIRECT)).toNat → m' x = m x) :
    d.slot m' j = d.slot m j := by
  rcases lt_slot_cases hj with ⟨i, rfl⟩ | ⟨e, he, rfl⟩
  · rw [slot_addrs, slot_addrs]
  · by_cases hlast : d.addrs (Fin.last NDIRECT) = 0
    · rw [slot_indirect_zero _ _ _ hlast, slot_indirect_zero _ _ _ hlast]
    · rw [slot_indirect _ _ _ hlast, slot_indirect _ _ _ hlast, indirect_congr he (h hlast)]

/-- An inode without block numbers has no block. -/
theorem Dinode.slot_of_zero (m : Mem) {d : Dinode} (hd : d.addrs = fun _ => 0) (j : Nat) : d.slot m j = 0 := by
  unfold slot
  by_cases hj : j < NDIRECT + 1
  · rw [dif_pos hj, hd]
    rfl
  · rw [dif_neg hj, if_pos (by rw [hd])]

theorem held_congr (h : ∀ i, i < sb.ninodes → (v i).type ≠ 0 → (v i).addrs (Fin.last NDIRECT) ≠ 0 →
      ∀ x, x / BSIZE = ((v i).addrs (Fin.last NDIRECT)).toNat → m' x = m x) (p : Nat × Nat) :
    held sb m' v p = held sb m v p := by
  unfold held
  by_cases hp : p.1 < sb.ninodes ∧ (v p.1).type ≠ 0 ∧ p.2 < NSLOT
  · rw [if_pos hp, if_pos hp]
    exact Dinode.slot_congr _ hp.2.2 (h p.1 hp.1 hp.2.1)
  · rw [if_neg hp, if_neg hp]

theorem held_last (hi : i < sb.ninodes) (htype : (v i).type ≠ 0) :
    held sb m v (i, NDIRECT) = ((v i).addrs (Fin.last NDIRECT)).toNat := by
  rw [held_eq hi htype (by decide), Dinode.slot_last]

namespace Owned

section

variable (h : Owned sb m v B)
include h

section

variable (hi : i < sb.ninodes) (htype : (v i).type ≠ 0)
include hi htype

theorem slot_range (hj : j < NSLOT)
    (hne : (v i).slot m j ≠ 0) : sb.nmeta ≤ (v i).slot m j ∧ (v i).slot m j < sb.size := by
  have heq : held sb m v (i, j) = (v i).slot m j := held_eq hi htype hj
  rw [← heq] at hne ⊢
  exact h.range _ hne

theorem slot_inj {i' j' : Nat} (hj : j < NSLOT) (hi' : i' < sb.ninodes) (htype' : (v i').type ≠ 0) (hj' : j' < NSLOT)
    (hne : (v i).slot m j ≠ 0) (heq : (v i).slot m j = (v i').slot m j') : i = i' ∧ j = j' := by
  have hheld : held sb m v (i, j) = (v i).slot m j := held_eq hi htype hj
  have hheld' : held sb m v (i', j') = (v i').slot m j' := held_eq hi' htype' hj'
  rw [← hheld] at hne heq
  rw [← hheld'] at heq
  exact Prod.mk.inj (h.inj _ _ hne heq)

theorem last_range (hlast : (v i).addrs (Fin.last NDIRECT) ≠ 0) : sb.nmeta ≤ ((v i).addrs (Fin.last NDIRECT)).toNat ∧
      ((v i).addrs (Fin.last NDIRECT)).toNat < sb.size := by
  have hslot := h.slot_range hi htype (j := NDIRECT) (by decide)
  rw [Dinode.slot_last] at hslot
  exact hslot fun h0 => hlast (UInt32_toNat_eq_zero.1 h0)

end

/-- A change below the free map, where the dinodes are, does not change slots. -/
theorem below_slot (hsb : sb.Layout) (hm : ∀ x, sb.bmapstart * BSIZE ≤ x → m' x = m x)
    (hi : i < sb.ninodes) (htype : (v i).type ≠ 0) (hj : j < NSLOT) : (v i).slot m' j = (v i).slot m j := by
  refine Dinode.slot_congr _ hj fun hlast x hx => hm x ?_
  have hrange := hsb.bmapstart_le.trans (h.last_range hi htype hlast).1
  rw [← hx] at hrange
  exact (Nat.le_div_iff_mul_le (by decide)).1 hrange

theorem below (hsb : sb.Layout) (hm : ∀ x, sb.bmapstart * BSIZE ≤ x → m' x = m x) : Owned sb m' v B := by
  refine Holdings.congr h (fun p => ?_) fun b _ => blockBit_congr sb (hm _ (Nat.le_add_right _ _))
  unfold held
  by_cases hp : p.1 < sb.ninodes ∧ (v p.1).type ≠ 0 ∧ p.2 < NSLOT
  · rw [if_pos hp, if_pos hp]
    exact h.below_slot hsb hm hp.1 hp.2.1 hp.2.2
  · rw [if_neg hp, if_neg hp]

/-- A change of the bytes of one data block that is not an indirect block. -/
theorem content (hsb : sb.Layout) (hb : sb.nmeta ≤ b)
    (hnot : ∀ i, i < sb.ninodes → (v i).type ≠ 0 → ((v i).addrs (Fin.last NDIRECT)).toNat ≠ b)
    (hm : ∀ x, x / BSIZE ≠ b → m' x = m x) : Owned sb m' v B := by
  refine Holdings.congr h (held_congr fun i hi htype hlast x hx => hm x ?_) fun c hc => blockBit_congr sb (hm _ ?_)
  · rw [hx]
    exact hnot i hi htype
  · have hlt := hsb.bitByte_lt hc
    rw [bitByte_eq] at hlt
    unfold BSIZE at *
    omega

/-- Fields other than the type and the block numbers do not matter. -/
theorem update_same {i : Nat} {d : Dinode} (htype : d.type = (v i).type)
    (haddrs : d.addrs = (v i).addrs) : Owned sb m (update v i d) B := by
  refine Holdings.congr h (fun p => ?_) fun _ _ => rfl
  by_cases hp : p.1 = i
  · unfold held Dinode.slot
    rw [hp, update_self, htype, haddrs]
  · unfold held
    rw [update_of_ne hp]

/-- An inode without blocks can be allocated or freed. -/
theorem update_empty {i : Nat} {d : Dinode} (hd : d.addrs = fun _ => 0)
    (hv : (v i).type = 0 ∨ (v i).addrs = fun _ => 0) : Owned sb m (update v i d) B := by
  have hzero := fun d' hd' j => Dinode.slot_of_zero m (d := d') hd' j
  refine Holdings.congr h (fun p => ?_) fun _ _ => rfl
  unfold held
  by_cases hp : p.1 = i
  · rw [hp, update_self, hzero d hd, ite_self]
    rcases hv with hv | hv
    · rw [if_neg fun hc => hc.2.1 hv]
    · rw [hzero _ hv, ite_self]
  · rw [update_of_ne hp]

end

end Owned

/-! ## Taking and giving back blocks -/

section

variable (hsb : sb.Layout)
include hsb

omit hsb in
theorem logWrite_meets (hop : 0 < s.log.outstanding) (b : Nat) :
    Meets TooBig (logWrite sb b) s fun _ t => t = s.setLog (s.log.add b) := by
  unfold logWrite
  refine ⟨?_, ?_⟩
  · intro a t hat
    split_ifs at hat
    exact (ok_pair_inj hat).2
  · intro e he
    dsimp only at he
    split_ifs at he
    · injection he with he
      exact he.symm
    · omega

omit hsb in
theorem SameTable.log (s : State) (m : Mem) (b : Nat) : SameTable s ((s.setData m).setLog (s.log.add b)) := ⟨rfl, rfl, rfl⟩

/-- Block `r` has been taken from the free ones and cleared. -/
structure Took (sb : Superblock) (v : Nat → Dinode) (B : Finset Nat) (m : Mem) (r : Nat) (m' : Mem) : Prop where
  lt : r < 2 ^ 32
  nmeta_le : sb.nmeta ≤ r
  not_loose : r ∉ B
  not_held : ∀ p, held sb m v p ≠ r
  owned : Owned sb m' v (insert r B)
  held : ∀ p, held sb m' v p = held sb m v p
  zero : ∀ x, x / BSIZE = r → m' x = 0
  other : ∀ x, x / BSIZE ≠ r → OffMap sb x → m' x = m x

theorem Owned.took (h : Owned sb m v B) (hlt : b < sb.size) (hbit : blockBit sb m b = false) : Took sb v B m b
      (fill (update m (sb.bitByte b) (m (sb.bitByte b) ||| bitMask b)) (b * BSIZE) BSIZE 0) := by
  obtain ⟨hlo, hloose, hnone⟩ := h.not_marked hlt hbit
  have hmapLt := hsb.bitByte_lt hlt
  have hmapLe := bmapstart_le_bitByte sb b
  have hother : ∀ x, x / BSIZE ≠ b → x ≠ sb.bitByte b → fill (update m (sb.bitByte b)
      (m (sb.bitByte b) ||| bitMask b)) (b * BSIZE) BSIZE 0 x = m x := by
    intro x hx hne
    rw [fill_of_not_mem _ (by unfold BSIZE at *; omega), update_of_ne hne]
  have hheld : ∀ p, Fs.held sb (fill (update m (sb.bitByte b) (m (sb.bitByte b) ||| bitMask b))
      (b * BSIZE) BSIZE 0) v p = Fs.held sb m v p := by
    refine held_congr fun i hi htype hlast x hx => hother x ?_ ?_
    · have hne := hnone (i, NDIRECT)
      rw [held_last hi htype] at hne
      rw [hx]
      exact hne
    · have hrange := (Owned.last_range h hi htype hlast).1
      rw [← hx] at hrange
      have hge := (Nat.le_div_iff_mul_le (by decide)).1 hrange
      omega
  refine ⟨hlt.trans sb.size_lt, hlo, hloose, hnone, ?_, hheld, ?_, ?_⟩
  · refine Holdings.congr (Holdings.mark h hlt hbit fun c _ => blockBit_set sb m b c) hheld fun c hc => ?_
    refine blockBit_congr sb (fill_of_not_mem _ ?_)
    have hc' := hsb.bitByte_lt hc
    rw [bitByte_eq] at hc'
    unfold BSIZE at *
    omega
  · intro x hx
    exact fill_of_mem _ (by unfold BSIZE at *; omega)
  · intro x hx hoff
    refine hother x hx ?_
    unfold OffMap at hoff
    omega

omit hsb in
/-- `balloc` finds nothing, or marks and clears the first block that is free. -/
theorem balloc_runs (hop : 0 < s.log.outstanding) :
    Meets TooBig (balloc sb) s fun r t => SameTable s t ∧ Logged s t ∧ ((r = 0 ∧ t = s ∧ Full sb s.data) ∨
      (r < sb.size ∧ blockBit sb s.data r = false ∧ (∀ c < r, blockBit sb s.data c = true) ∧
        t.data = fill (update s.data (sb.bitByte r) (s.data (sb.bitByte r) ||| bitMask r)) (r * BSIZE) BSIZE 0)) := by
  refine .step (rfl : getData s = .ok (s.data, s)) ?_
  cases hfree : findFree sb s.data with
  | none => exact .pure ⟨SameTable.refl s, Logged.refl s, .inl ⟨rfl, rfl, findFree_none hfree⟩⟩
  | some p =>
    obtain ⟨b, bi⟩ := p
    obtain ⟨hlt, hblock, haddr, hmask, hbit⟩ := findFree_some hfree
    refine .step rfl (.bind (logWrite_meets (by exact hop) (sb.BBLOCK b)) ?_)
    rintro - t rfl
    have hmap : Logged s ((s.setData (update s.data (bitAddr sb b bi)
        (s.data (bitAddr sb b bi) ||| bitMask bi))).setLog (s.log.add (sb.BBLOCK b))) := by
      refine Logged.modify s fun x hx => update_of_ne (fun heq => hx ?_) _ _
      rw [heq, haddr, bitByte_div, hblock]
    refine .bind (R := fun _ u => SameTable s u ∧ Logged s u ∧ u.data = fill (update s.data (sb.bitByte (b + bi))
      (s.data (sb.bitByte (b + bi)) ||| bitMask (b + bi))) ((b + bi) * BSIZE) BSIZE 0) ?_ ?_
    · refine .step rfl ((logWrite_meets (by exact hop) (b + bi)).weaken ?_)
      rintro - u rfl
      refine ⟨⟨rfl, rfl, rfl⟩, hmap.trans (Logged.modify _ fun x hx => fill_of_not_mem _ ?_), ?_⟩
      · unfold BSIZE at *
        omega
      · simp only [State.setLog_data, State.setData_data, haddr, hmask]
    · rintro - u ⟨hsame, hlogged, hu⟩
      exact .pure ⟨hsame, hlogged, .inr ⟨hlt, hbit, fun c hc => findFree_first hfree hc, hu⟩⟩

/-- `balloc` makes a block loose that was free, and clears it. -/
theorem balloc_meets (h : Owned sb s.data v B) (hop : 0 < s.log.outstanding) :
    Meets TooBig (balloc sb) s fun r t => SameTable s t ∧ Logged s t ∧
      ((r = 0 ∧ t = s ∧ Full sb s.data) ∨ (r ≠ 0 ∧ Took sb v B s.data r t.data)) := by
  refine (balloc_runs hop).weaken ?_
  rintro r t ⟨hsame, hlogged, hnone | ⟨hlt, hbit, -, ht⟩⟩
  · exact ⟨hsame, hlogged, .inl hnone⟩
  · have hpos := hsb.nmeta_pos
    have hlo := (h.not_marked hlt hbit).1
    refine ⟨hsame, hlogged, .inr ⟨by omega, ?_⟩⟩
    rw [ht]
    exact h.took hsb hlt hbit

omit hsb in
/-- `bfree` of a block that is marked. -/
theorem bfree_runs (hop : 0 < s.log.outstanding) (hbit : blockBit sb s.data b = true) :
    Meets TooBig (bfree sb b) s fun _ t => SameTable s t ∧
      t.data = update s.data (sb.bitByte b) (s.data (sb.bitByte b) &&& ~~~ (bitMask b)) := by
  refine .step (rfl : getData s = .ok (s.data, s)) (.ite (fun hclear => ?_) fun _ => ?_)
  · unfold blockBit at hbit
    rw [decide_eq_true_iff] at hbit
    rw [bitMask_mod] at hclear
    exact absurd hclear hbit
  · refine .step rfl ((logWrite_meets (by exact hop) _).weaken ?_)
    rintro - t rfl
    refine ⟨SameTable.log s _ _, ?_⟩
    rw [State.setLog_data, State.setData_data, bitMask_mod]
    rfl

/-- `bfree` of a loose block; the free map is all it changes. -/
theorem bfree_meets (h : Owned sb s.data v B) (hop : 0 < s.log.outstanding) (hb : b ∈ B) :
    Meets TooBig (bfree sb b) s fun _ t => SameTable s t ∧ Owned sb t.data v (B.erase b) ∧
      ∀ x, OffMap sb x → t.data x = s.data x := by
  have hmapLt := hsb.bitByte_lt (h.loose b hb).2.1
  have hmapLe := bmapstart_le_bitByte sb b
  refine (bfree_runs hop (h.marked_of_loose hb)).weaken ?_
  rintro - t ⟨hsame, ht⟩
  have hother : ∀ x, OffMap sb x → t.data x = s.data x := by
    intro x hx
    rw [ht]
    refine update_of_ne ?_ _ _
    unfold OffMap at hx
    omega
  refine ⟨hsame, ?_, hother⟩
  have hmarks := Holdings.unmark h hb fun c _ => blockBit_clear sb s.data b c
  rw [← ht] at hmarks
  refine Holdings.congr hmarks (held_congr fun i hi htype hlast x hx => hother x (.inr ?_)) fun _ _ => rfl
  have hrange := (Owned.last_range h hi htype hlast).1
  rw [← hx] at hrange
  exact (Nat.le_div_iff_mul_le (by decide)).1 hrange

end

end Xv6.Fs
