import Xv6.Base.Triple
import Xv6.Fs.Files
import Xv6.Fs.Mapping

/-!
# How many blocks a `writei` logs

`filewrite` cuts a write into pieces of `maxChunk` bytes so that the transaction of a piece stays within
`MAXOPBLOCKS` blocks. The blocks that are logged are kept in two sets: `J` for the indirect block and the block of
the free map that its allocation changes, and `A` for all others. A round of the loop of `writei` adds at most two
blocks to `A`, and only one where the block of the file is there already.
-/

set_option autoImplicit false

namespace Xv6.Fs

open Function Xv6.Base

/-- Inside an operation, with room for `MAXOPBLOCKS` more blocks in the header and on the disk. -/
def Log.Room (sb : Superblock) (l : Log) : Prop :=
  1 ≤ l.outstanding ∧ l.block.length + MAXOPBLOCKS ≤ LOGSIZE ∧ l.block.length + MAXOPBLOCKS < sb.nlog

/-- The blocks logged from `l₀` to `l` are in `W`. -/
structure Tally (l₀ : Log) (W : Finset Nat) (l : Log) : Prop where
  writes : ∃ w, l.writes = l₀.writes ++ w ∧ ∀ b ∈ w, b ∈ W
  block : ∃ v, l.block = l₀.block ++ v ∧ v.Nodup ∧ ∀ b ∈ v, b ∈ W
  outstanding : l.outstanding = l₀.outstanding

namespace Tally

variable {l₀ l : Log} {W W' : Finset Nat}

theorem refl (l₀ : Log) : Tally l₀ ∅ l₀ where
  writes := ⟨[], (List.append_nil _).symm, fun _ hb => absurd hb List.not_mem_nil⟩
  block := ⟨[], (List.append_nil _).symm, List.nodup_nil, fun _ hb => absurd hb List.not_mem_nil⟩
  outstanding := rfl

section

variable (h : Tally l₀ W l)
include h

theorem mono (hsub : W ⊆ W') : Tally l₀ W' l := by
  obtain ⟨w, hw, hmem⟩ := h.writes
  obtain ⟨v, hv, hnodup, hvmem⟩ := h.block
  exact ⟨⟨w, hw, fun b hb => hsub (hmem b hb)⟩, ⟨v, hv, hnodup, fun b hb => hsub (hvmem b hb)⟩, h.outstanding⟩

theorem add (b : Nat) : Tally l₀ (insert b W) (l.add b) where
  writes := by
    obtain ⟨w, hw, hmem⟩ := h.writes
    refine ⟨w ++ [b], by simp only [Log.add, hw, List.append_assoc], fun c hc => ?_⟩
    rcases List.mem_append.1 hc with hc | hc
    · exact Finset.mem_insert_of_mem (hmem c hc)
    · rw [List.mem_singleton.1 hc]
      exact Finset.mem_insert_self b W
  block := by
    obtain ⟨v, hv, hnodup, hmem⟩ := h.block
    by_cases hb : b ∈ l.block
    · exact ⟨v, (if_pos hb).trans hv, hnodup, fun c hc => Finset.mem_insert_of_mem (hmem c hc)⟩
    · have hbv : b ∉ v := fun hbv => hb (by rw [hv]; exact List.mem_append_right _ hbv)
      refine ⟨v ++ [b], (if_neg hb).trans (by rw [hv, List.append_assoc]), ?_, fun c hc => ?_⟩
      · exact List.nodup_append.2 ⟨hnodup, List.nodup_singleton b, by
          intro c hc d hd hcd
          rw [List.mem_singleton.1 hd] at hcd
          exact hbv (hcd ▸ hc)⟩
      · rcases List.mem_append.1 hc with hc | hc
        · exact Finset.mem_insert_of_mem (hmem c hc)
        · rw [List.mem_singleton.1 hc]
          exact Finset.mem_insert_self b W
  outstanding := h.outstanding

theorem length_le : l.block.length ≤ l₀.block.length + W.card := by
  obtain ⟨v, hv, hnodup, hmem⟩ := h.block
  have hcard : v.length ≤ W.card := by
    rw [← List.toFinset_card_of_nodup hnodup]
    exact Finset.card_le_card fun b hb => hmem b (List.mem_toFinset.1 hb)
  rw [hv, List.length_append]
  omega

theorem distinct_le : ∃ w, l.writes = l₀.writes ++ w ∧ w.toFinset.card ≤ W.card := by
  obtain ⟨w, hw, hmem⟩ := h.writes
  exact ⟨w, hw, Finset.card_le_card fun b hb => hmem b (List.mem_toFinset.1 hb)⟩

end

end Tally

section

variable (sb : Superblock) {l₀ : Log}

/-- `log_write` can only fail if there was no room at the start. -/
def NoRoom (l₀ : Log) : Panic → Prop := fun _ => ¬ l₀.Room sb

theorem logWrite_tally {s : State} {W : Finset Nat} (h : Tally l₀ W s.log) (hW : W.card < MAXOPBLOCKS) (b : Nat) :
    Meets (NoRoom sb l₀) (logWrite sb b) s fun _ t => t = s.setLog (s.log.add b) ∧ Tally l₀ (insert b W) t.log := by
  have hlen := h.length_le
  have hout := h.outstanding
  by_cases hroom : l₀.Room sb
  · obtain ⟨hop, hsize, hnlog⟩ := hroom
    have hok : logWrite sb b s = .ok ((), s.setLog (s.log.add b)) := by
      unfold logWrite
      rw [if_neg (by omega), if_neg (by omega)]
    exact .of_ok hok ⟨rfl, h.add b⟩
  · refine ⟨?_, fun e _ => hroom⟩
    intro a t hat
    unfold logWrite at hat
    split_ifs at hat
    obtain ⟨-, rfl⟩ := ok_pair_inj hat
    exact ⟨rfl, h.add b⟩

/-- `balloc` logs a block of the free map and the block that it returns. -/
theorem balloc_tally {s : State} {W : Finset Nat} (h : Tally l₀ W s.log) (hW : W.card + 1 < MAXOPBLOCKS) :
    Meets (NoRoom sb l₀) (balloc sb) s fun r t => t.inode = s.inode ∧ r < 2 ^ 32 ∧
      ((r = 0 ∧ t = s) ∨ ∃ b, Tally l₀ (insert r (insert b W)) t.log) := by
  refine .step (rfl : getData s = .ok (s.data, s)) ?_
  cases hfree : findFree sb s.data with
  | none => exact .pure ⟨rfl, by decide, .inl ⟨rfl, rfl⟩⟩
  | some p =>
    obtain ⟨b, bi⟩ := p
    have hlt : b + bi < 2 ^ 32 := (findFree_some hfree).1.trans sb.size_lt
    refine .step rfl ?_
    refine .bind (logWrite_tally sb (by exact h) (by omega) (sb.BBLOCK b)) ?_
    rintro - t ⟨rfl, ht⟩
    refine .bind (R := fun _ u => u.inode = s.inode ∧
      Tally l₀ (insert (b + bi) (insert (sb.BBLOCK b) W)) u.log) ?_ ?_
    · refine .step rfl ?_
      refine (logWrite_tally sb (by exact ht) ?_ (b + bi)).weaken ?_
      · exact (Finset.card_insert_le _ _).trans_lt hW
      · rintro - u ⟨rfl, hu⟩
        exact ⟨rfl, hu⟩
    · rintro - u ⟨hinode, hu⟩
      exact .pure ⟨hinode, hlt, .inr ⟨_, hu⟩⟩

/-- The indirect block of entry `k`, once it has been logged or allocated, is in `J`. -/
structure Within (l₀ : Log) (k : Fin NINODE) (A J : Finset Nat) (s : State) : Prop where
  tally : Tally l₀ (A ∪ J) s.log
  card : J.card ≤ 2
  indirect : J = ∅ ∨ ((s.inode k).di.addrs (Fin.last NDIRECT) ≠ 0 ∧
    ((s.inode k).di.addrs (Fin.last NDIRECT)).toNat ∈ J)

variable {k : Fin NINODE} {A J : Finset Nat} {s : State}

theorem Within.card_le (h : Within l₀ k A J s) : (A ∪ J).card ≤ A.card + 2 :=
  (Finset.card_union_le A J).trans (Nat.add_le_add_left h.card _)

theorem card_insert_insert_le (a b : Nat) (A : Finset Nat) : (insert a (insert a (insert b A))).card ≤ A.card + 2 := by
  rw [Finset.insert_idem]
  exact (Finset.card_insert_le _ _).trans (Nat.add_le_add_right (Finset.card_insert_le _ _) 1)

/-- A direct block: nothing is logged where it is there, and two blocks where it is allocated. -/
theorem bmapAddr_direct_tally (h : Within l₀ k A J s) (hA : A.card ≤ 5) {i : Fin (NDIRECT + 1)}
    (hi : i ≠ Fin.last NDIRECT) : Meets (NoRoom sb l₀) (bmapAddr sb k i) s fun r t =>
      ∃ A', Within l₀ k A' J t ∧ (insert r A').card ≤ A.card + 2 := by
  have hcard := h.card_le
  refine .step (getInode_eq k s) ?_
  refine .ite (fun _ => ?_) fun _ => ?_
  · refine .bind (balloc_tally sb h.tally (by unfold MAXOPBLOCKS; omega)) ?_
    rintro r t ⟨hinode, -, ht⟩
    have hwithin : ∃ A', Within l₀ k A' J t ∧ (insert r A').card ≤ A.card + 2 := by
      rcases ht with ⟨-, rfl⟩ | ⟨b, ht⟩
      · exact ⟨A, h, (Finset.card_insert_le _ _).trans (by omega)⟩
      · refine ⟨insert r (insert b A), ⟨?_, h.card, by rw [hinode]; exact h.indirect⟩, card_insert_insert_le r b A⟩
        rw [Finset.insert_union, Finset.insert_union]
        exact ht
    refine .ite (fun h0 => .pure (by rw [← h0]; exact hwithin)) fun _ => ?_
    obtain ⟨A', hA', hle⟩ := hwithin
    refine .step rfl (.pure ⟨A', ⟨hA'.tally, hA'.card, ?_⟩, hle⟩)
    have hlast : ((t.setInode k { t.inode k with di := (t.inode k).di.setAddr i (UInt32.ofNat r) }).inode k).di.addrs
        (Fin.last NDIRECT) = (t.inode k).di.addrs (Fin.last NDIRECT) := by
      rw [State.setInode_inode, update_self]
      exact update_of_ne hi.symm _ _
    rw [hlast]
    exact hA'.indirect
  · exact .pure ⟨A, h, (Finset.card_insert_le _ _).trans (by omega)⟩

/-- The indirect block itself. -/
theorem bmapAddr_last_tally (h : Within l₀ k A J s) (hA : A.card ≤ 5) :
    Meets (NoRoom sb l₀) (bmapAddr sb k (Fin.last NDIRECT)) s fun r t => ∃ J', Tally l₀ (A ∪ J') t.log ∧
      J'.card ≤ 2 ∧ (r ≠ 0 → r = ((t.inode k).di.addrs (Fin.last NDIRECT)).toNat ∧ (J' = ∅ ∨ r ∈ J')) := by
  have hcard := h.card_le
  refine .step (getInode_eq k s) ?_
  refine .ite (fun hzero => ?_) fun _ => ?_
  · -- nothing can have been logged for an indirect block that is not there
    have hJ : J = ∅ := h.indirect.resolve_right fun h' => h'.1 hzero
    refine .bind (balloc_tally sb h.tally (by unfold MAXOPBLOCKS; omega)) ?_
    rintro r t ⟨hinode, hr, ht⟩
    have htally : ∃ J', Tally l₀ (A ∪ J') t.log ∧ J'.card ≤ 2 ∧ (J' = ∅ ∨ r ∈ J') := by
      rcases ht with ⟨-, rfl⟩ | ⟨b, ht⟩
      · exact ⟨J, h.tally, h.card, .inl hJ⟩
      · refine ⟨{r, b}, ?_, Finset.card_le_two, .inr (Finset.mem_insert_self r {b})⟩
        rw [hJ, Finset.union_empty] at ht
        refine ht.mono fun c hc => ?_
        simp only [Finset.mem_insert, Finset.mem_union, Finset.mem_singleton] at hc ⊢
        tauto
    obtain ⟨J', hJ', hle, hmem⟩ := htally
    refine .ite (fun _ => .pure ⟨J', hJ', hle, fun h0 => absurd rfl h0⟩) fun _ => ?_
    refine .step rfl (.pure ⟨J', hJ', hle, fun _ => ⟨?_, hmem⟩⟩)
    rw [State.setInode_inode, update_self]
    exact (UInt32.toNat_ofNat_of_lt hr).symm
  · exact .pure ⟨J, h.tally, h.card, fun _ => ⟨rfl, h.indirect.imp id And.right⟩⟩

/-- An entry of the indirect block `b`. -/
theorem bmapIndirect_tally {b : Nat} (ht : Tally l₀ (A ∪ J) s.log) (hJ : J.card ≤ 2) (hb : J = ∅ ∨ b ∈ J)
    (hA : A.card ≤ 5) (bn : Nat) :
    Meets (NoRoom sb l₀) (bmapIndirect sb b bn) s fun r t => t.inode = s.inode ∧ ∃ A' J', Tally l₀ (A' ∪ J') t.log ∧
      J'.card ≤ 2 ∧ (J' = ∅ ∨ b ∈ J') ∧ (insert r A').card ≤ A.card + 2 := by
  have hcard : (A ∪ J).card ≤ A.card + 2 := (Finset.card_union_le A J).trans (Nat.add_le_add_left hJ _)
  refine .step (rfl : getData s = .ok (s.data, s)) ?_
  refine .ite (fun _ => ?_) fun _ => ?_
  · refine .bind (balloc_tally sb ht (by unfold MAXOPBLOCKS; omega)) ?_
    rintro r t ⟨hinode, -, htr⟩
    have htally : ∃ A', Tally l₀ (A' ∪ J) t.log ∧ A'.card ≤ A.card + 2 ∧ (insert r A').card ≤ A.card + 2 := by
      rcases htr with ⟨-, rfl⟩ | ⟨c, htr⟩
      · exact ⟨A, ht, by omega, (Finset.card_insert_le _ _).trans (by omega)⟩
      · have hins := card_insert_insert_le r c A
        refine ⟨insert r (insert c A), ?_, ?_, hins⟩
        · rw [Finset.insert_union, Finset.insert_union]
          exact htr
        · rwa [Finset.insert_idem] at hins
    obtain ⟨A', hA', hle, hins⟩ := htally
    refine .ite (fun h0 => .pure ⟨hinode, A', J, hA', hJ, hb, by rw [← h0]; exact hins⟩) fun _ => ?_
    refine .step rfl ?_
    have hcard' : (A' ∪ J).card ≤ A'.card + 2 := (Finset.card_union_le A' J).trans (Nat.add_le_add_left hJ _)
    refine .bind (logWrite_tally sb (by exact hA') (by unfold MAXOPBLOCKS; omega) b) ?_
    rintro - u ⟨rfl, hu⟩
    refine .pure ⟨hinode, A', ?_⟩
    rcases hb with rfl | hb
    · refine ⟨{b}, ?_, by rw [Finset.card_singleton]; omega, .inr (Finset.mem_singleton_self b), hins⟩
      rwa [Finset.union_empty, Finset.insert_eq, Finset.union_comm] at hu
    · refine ⟨J, ?_, hJ, .inr hb, hins⟩
      rwa [Finset.insert_eq_of_mem (Finset.mem_union_right A' hb)] at hu
  · exact .pure ⟨rfl, A, J, ht, hJ, hb, (Finset.card_insert_le _ _).trans (by omega)⟩

/-- `bmap` of a block of a file adds at most two blocks, counting the one that it returns. -/
theorem bmap_tally (h : Within l₀ k A J s) (hA : A.card ≤ 5) {bn : Nat} (hbn : bn < MAXFILE) :
    Meets (NoRoom sb l₀) (bmap sb k bn) s fun r t => ∃ A' J', Tally l₀ (A' ∪ J') t.log ∧ J'.card ≤ 2 ∧
      (insert r A').card ≤ A.card + 2 ∧ (r ≠ 0 → Within l₀ k A' J' t) := by
  refine .ite (fun hdirect => ?_) fun hdirect => .ite (fun _ => ?_) fun hbound => ?_
  · have hi : Fin.ofNat (NDIRECT + 1) bn ≠ Fin.last NDIRECT := by
      intro heq
      have hval : bn % (NDIRECT + 1) = NDIRECT := congrArg Fin.val heq
      rw [Nat.mod_eq_of_lt (by omega)] at hval
      omega
    refine (bmapAddr_direct_tally sb h hA hi).weaken ?_
    rintro r t ⟨A', hA', hle⟩
    exact ⟨A', J, hA'.tally, hA'.card, hle, fun _ => hA'⟩
  · refine .bind (bmapAddr_last_tally sb h hA) ?_
    rintro r t ⟨J', hJ', hle, hmem⟩
    refine .ite (fun _ => .pure ⟨A, J', hJ', hle, (Finset.card_insert_le _ _).trans (by omega), ?_⟩) ?_
    · exact fun h0 => absurd rfl h0
    · intro hr
      obtain ⟨heq, hmem⟩ := hmem hr
      refine (bmapIndirect_tally sb hJ' hle hmem hA (bn - NDIRECT)).weaken ?_
      rintro r' u ⟨hinode, A', J'', hu, hle', hmem', hins⟩
      refine ⟨A', J'', hu, hle', hins, fun _ => ⟨hu, hle', hmem'.imp id fun hr' => ?_⟩⟩
      rw [hinode, ← heq]
      exact ⟨fun h0 => hr (by rw [heq, h0]; rfl), hr'⟩
  · unfold MAXFILE at hbn
    omega

/-! ## The loop of `writei` -/

/-- Number of blocks that `rest` bytes at `off` are in. -/
def touched (off rest : Nat) : Nat := if rest = 0 then 0 else (off % BSIZE + rest + BSIZE - 1) / BSIZE

/-- A round is done with one of them. -/
theorem touched_piece (off : Nat) {rest : Nat} (h : 0 < rest) :
    touched (off + piece off rest) (rest - piece off rest) + 1 ≤ touched off rest := by
  unfold touched
  rw [if_neg (Nat.pos_iff_ne_zero.1 h)]
  unfold piece BSIZE
  by_cases hle : rest ≤ 1024 - off % 1024
  · rw [Nat.min_eq_left hle, Nat.sub_self, if_pos rfl]
    omega
  · rw [Nat.min_eq_right (by omega), if_neg (by omega)]
    omega

/-- 1 where the block for the next byte is there already. -/
def saved (k : Fin NINODE) (s : State) (off : Nat) : Nat :=
  if (s.inode k).di.block s.data (off / BSIZE) = 0 then 0 else 1

/-- `bmap` in a round of the loop. -/
theorem bmap_saved_tally (h : Within l₀ k A J s) {off : Nat} (hA : A.card ≤ 5 + saved k s off)
    (hoff : off / BSIZE < MAXFILE) :
    Meets (NoRoom sb l₀) (bmap sb k (off / BSIZE)) s fun r t => ∃ A' J', Tally l₀ (A' ∪ J') t.log ∧ J'.card ≤ 2 ∧
      (insert r A').card + saved k s off ≤ A.card + 2 ∧ (r ≠ 0 → Within l₀ k A' J' t) := by
  unfold saved at *
  split_ifs at * with hblock
  · exact bmap_tally sb h hA hoff
  · refine .of_ok (bmap_of_block sb k hoff hblock) ⟨A, J, h.tally, h.card, ?_, fun _ => h⟩
    exact Nat.add_le_add_right (Finset.card_insert_le _ _) 1

theorem writeiLoop_tally (src : Src) (n : Nat) :
    ∀ (fuel off tot : Nat) (s : State) (A J : Finset Nat), Within l₀ k A J s →
      off + (n - tot) ≤ MAXFILE * BSIZE → A.card + 2 * touched off (n - tot) ≤ 7 + saved k s off → A.card ≤ 7 →
      Meets (NoRoom sb l₀) (writeiLoop sb k src n fuel off tot) s fun _ t =>
        ∃ A' J', Tally l₀ (A' ∪ J') t.log ∧ J'.card ≤ 2 ∧ A'.card ≤ 7 := by
  intro fuel
  induction fuel with
  | zero => exact fun off tot s A J h _ _ hA => .pure ⟨A, J, h.tally, h.card, hA⟩
  | succ fuel ih =>
    intro off tot s A J h hmax hroom hA
    refine .ite (fun htot => ?_) fun _ => .pure ⟨A, J, h.tally, h.card, hA⟩
    have hpiece := touched_piece off (show 0 < n - tot by omega)
    have hoff : off / BSIZE < MAXFILE := Nat.div_lt_of_lt_mul (by rw [Nat.mul_comm]; omega)
    refine .bind (bmap_saved_tally sb h (by omega) hoff) ?_
    rintro addr t ⟨A', J', ht, hJ', hins, hwithin⟩
    have hA' : A'.card ≤ (insert addr A').card := Finset.card_le_card (Finset.subset_insert addr A')
    refine .ite (fun _ => .pure ⟨A', J', ht, hJ', by omega⟩) fun haddr => ?_
    have hcard := (hwithin haddr).card_le
    refine .step rfl (.ite (fun _ => .pure ⟨A', J', ht, hJ', by omega⟩) fun _ => ?_)
    refine .bind (logWrite_tally sb (by exact ht) (by unfold MAXOPBLOCKS; omega) addr) ?_
    rintro - u ⟨rfl, hu⟩
    rw [← Finset.insert_union] at hu
    have hlen : piece off (n - tot) ≤ n - tot := Nat.min_le_left _ _
    refine ih _ _ _ (insert addr A') J' ⟨hu, hJ', (hwithin haddr).indirect⟩ (by omega) ?_ (by omega)
    have hrest : n - (tot + piece off (n - tot)) = n - tot - piece off (n - tot) := by omega
    rw [hrest]
    omega

theorem iupdate_tally {W : Finset Nat} (h : Tally l₀ W s.log) (hW : W.card < MAXOPBLOCKS) :
    Meets (NoRoom sb l₀) (iupdate sb k) s fun _ t => ∃ b, Tally l₀ (insert b W) t.log := by
  refine .step (getInode_eq k s) (.step rfl ?_)
  refine (logWrite_tally sb (by exact h) hW _).weaken ?_
  rintro - t ⟨-, ht⟩
  exact ⟨_, ht⟩

/-- Bytes behind the start of a block that is there are written without an allocation for the first of them. -/
theorem touched_le {off n : Nat} (hholes : NoHoles s.data (s.inode k).di) (hoff : off ≤ (s.inode k).di.size.toNat)
    (hmax : off + n ≤ MAXFILE * BSIZE) (hn : n ≤ maxChunk) : 2 * touched off n ≤ 7 + saved k s off := by
  have hchunk : n ≤ 3 * BSIZE := hn
  unfold touched
  split_ifs with hzero
  · omega
  · by_cases hal : off % BSIZE = 0
    · unfold BSIZE at *
      omega
    · have hbn : off / BSIZE < MAXFILE := Nat.div_lt_of_lt_mul (by rw [Nat.mul_comm]; omega)
      have hsize : off / BSIZE * BSIZE < (s.inode k).di.size.toNat := by
        unfold BSIZE at *
        omega
      have hsaved : saved k s off = 1 := if_neg (hholes _ hbn hsize)
      rw [hsaved]
      unfold BSIZE at *
      omega

theorem writei_tally (src : Src) (off n : UInt32) (hholes : NoHoles s.data (s.inode k).di)
    (hoff : off ≤ (s.inode k).di.size) (hn : n.toNat ≤ maxChunk) :
    Meets (NoRoom sb s.log) (writei sb k src off n) s fun _ t =>
      ∃ W : Finset Nat, Tally s.log W t.log ∧ W.card ≤ MAXOPBLOCKS := by
  have hstart : Within s.log k ∅ ∅ s := ⟨by rw [Finset.union_empty]; exact Tally.refl s.log, by decide, .inl rfl⟩
  have hnone : ∃ W : Finset Nat, Tally s.log W s.log ∧ W.card ≤ MAXOPBLOCKS := ⟨∅, Tally.refl s.log, by decide⟩
  refine .step (getInode_eq k s) ?_
  refine .ite (fun _ => .pure hnone) fun hover => .ite (fun _ => .pure hnone) fun hmax => ?_
  have hsum : off.toNat + n.toNat ≤ MAXFILE * BSIZE := by
    have h1 : ¬ off + n < off := fun h' => hover (.inr h')
    rw [UInt32.lt_iff_toNat_lt, UInt32.toNat_add] at h1 hmax
    have hmaxval : (UInt32.ofNat (MAXFILE * BSIZE)).toNat = MAXFILE * BSIZE := rfl
    rw [hmaxval] at hmax
    have h3 := n.toNat_lt
    omega
  have htouched := touched_le hholes (UInt32.le_iff_toNat_le.1 hoff) hsum hn
  refine .bind (writeiLoop_tally sb src _ _ _ 0 s ∅ ∅ hstart hsum ?_ (by decide)) ?_
  · rw [Finset.card_empty, Nat.zero_add]
    exact htouched
  rintro r t ⟨A', J', ht, hJ', hA'⟩
  have hcard : (A' ∪ J').card < MAXOPBLOCKS :=
    (Finset.card_union_le A' J').trans_lt (by unfold MAXOPBLOCKS; omega)
  refine .step (getInode_eq k t) ?_
  refine .bind (R := fun _ u => u.log = t.log) ?_ ?_
  · exact .ite (fun _ => .of_ok rfl rfl) fun _ => .pure rfl
  rintro - u hu
  refine .bind (iupdate_tally sb (W := A' ∪ J') (by rw [hu]; exact ht) hcard) ?_
  rintro - v ⟨b, hv⟩
  exact .pure ⟨insert b (A' ∪ J'), hv, (Finset.card_insert_le _ _).trans hcard⟩

end

/-- The `writei` of a piece of at most `maxChunk` bytes that `filewrite` makes, at an offset within an inode
without holes, calls `log_write` for at most `MAXOPBLOCKS` different blocks; where there is room for so many, it
returns. -/
theorem writei_log_writes (sb : Superblock) (k : Fin NINODE) (src : Src) (off n1 : UInt32) (s : State)
    (hholes : NoHoles s.data (s.inode k).di) (hoff : off ≤ (s.inode k).di.size) (hn : n1.toNat ≤ maxChunk) :
    (∀ r t, writei sb k src off n1 s = .ok (r, t) →
      ∃ w, t.log.writes = s.log.writes ++ w ∧ w.toFinset.card ≤ MAXOPBLOCKS) ∧
    (s.log.Room sb → ∃ r t, writei sb k src off n1 s = .ok (r, t)) := by
  have h := writei_tally sb (k := k) src off n1 hholes hoff hn
  refine ⟨?_, ?_⟩
  · intro r t hrun
    obtain ⟨W, hW, hcard⟩ := h.post r t hrun
    obtain ⟨w, hw, hle⟩ := hW.distinct_le
    exact ⟨w, hw, hle.trans hcard⟩
  · intro hroom
    cases hrun : writei sb k src off n1 s with
    | ok p => exact ⟨p.1, p.2, rfl⟩
    | error e => exact absurd hroom (h.fails e hrun)

/-- A file that has just been created, inside an operation. -/
def newFile : State where
  data := fun _ => 0
  disk := fun _ => 0
  log := ⟨[], 1, []⟩
  inode := fun _ => ⟨ROOTDEV, 2, 1, true, true, { Dinode.zero with type := T_FILE, nlink := 1 }⟩
  releases := []

theorem writei_log_writes_newFile :
    ∃ r t w, writei Superblock.mkfs ⟨0, by decide⟩ (.kernel []) 0 (UInt32.ofNat maxChunk) newFile = .ok (r, t) ∧
      t.log.writes = newFile.log.writes ++ w ∧ w.toFinset.card ≤ MAXOPBLOCKS := by
  have h := writei_log_writes Superblock.mkfs ⟨0, by decide⟩ (.kernel []) 0 (UInt32.ofNat maxChunk) newFile
    (fun _ _ h => absurd h (Nat.not_lt_zero _)) (UInt32.le_refl 0) (Nat.le_refl maxChunk)
  obtain ⟨r, t, hrun⟩ := h.2 ⟨by decide, by decide, by decide⟩
  obtain ⟨w, hw, hle⟩ := h.1 r t hrun
  exact ⟨r, t, w, hrun, hw, hle⟩

end Xv6.Fs
