import Xv6.Fs.Blocks
import Xv6.Fs.Source

/-!
# `readi` and `writei`

An inode is a sequence of bytes, `Dinode.contents`. `readi` returns a part of it and changes nothing, `writei` puts
bytes over a part of it or behind its end. The image of the file system that both work on is consistent: the
blocks are owned as `Owned` says, the dinodes on disk are the ones of `v`, and there are no holes.
-/

set_option autoImplicit false

namespace Xv6.Fs

open Function Xv6.Base

/-- The contents of a file. -/
def Dinode.contents (m : Mem) (d : Dinode) : List UInt8 := (List.range d.size.toNat).map (d.byte m)

/-- A consistent image of the file system with the dinodes `v`. -/
structure Image (sb : Superblock) (v : Nat → Dinode) (m : Mem) : Prop where
  owned : Owned sb m v ∅
  disk : ∀ i, i < sb.ninodes → readDinode m (sb.dinode i) = v i
  sizes : ∀ i, i < sb.ninodes → (v i).type ≠ 0 → (v i).size.toNat ≤ MAXFILE * BSIZE
  noHoles : ∀ i, i < sb.ninodes → (v i).type ≠ 0 → NoHoles m (v i)

@[simp]
theorem Dinode.contents_length (m : Mem) (d : Dinode) : (d.contents m).length = d.size.toNat := by
  unfold contents
  rw [List.length_map, List.length_range]

variable {x : Nat}

theorem Dinode.contents_getElem (m : Mem) (d : Dinode) (h : x < (d.contents m).length) :
    (d.contents m)[x] = d.byte m x := by
  simp only [contents, List.getElem_map, List.getElem_range]

/-- A part of the contents, byte by byte. -/
theorem Dinode.contents_slice (m : Mem) (d : Dinode) (off n : Nat) : ((d.contents m).drop off).take n =
      (List.range (min n (d.size.toNat - off))).map fun j => d.byte m (off + j) := by
  refine List.ext_getElem ?_ fun j h1 h2 => ?_
  · rw [List.length_take, List.length_drop, contents_length, List.length_map, List.length_range]
  · rw [List.getElem_take, List.getElem_drop, contents_getElem, List.getElem_map, List.getElem_range]

/-! ## `readi` -/

/-- Block of a byte of a file. -/
theorem div_lt_maxfile (h : x < MAXFILE * BSIZE) : x / BSIZE < MAXFILE :=
  Nat.div_lt_of_lt_mul (by rwa [Nat.mul_comm])

variable {m : Mem}

theorem NoHoles.block_ne_zero {d : Dinode} (h : NoHoles m d) (hsize : d.size.toNat ≤ MAXFILE * BSIZE)
    (hx : x < d.size.toNat) : d.block m (x / BSIZE) ≠ 0 :=
  h _ (div_lt_maxfile (by omega)) ((Nat.div_mul_le_self x BSIZE).trans_lt hx)

/-- The bytes of a piece are in one block. -/
theorem byte_piece (m : Mem) (d : Dinode) {off rest j : Nat} (hj : j < piece off rest) :
    m (d.block m (off / BSIZE) * BSIZE + off % BSIZE + j) = d.byte m (off + j) := by
  have hdiv : (off + j) / BSIZE = off / BSIZE := by
    unfold piece BSIZE at *
    omega
  have hmod : (off + j) % BSIZE = off % BSIZE + j := by
    unfold piece BSIZE at *
    omega
  unfold Dinode.byte
  rw [hdiv, hmod, Nat.add_assoc]

theorem piece_pos (off : Nat) {rest : Nat} (h : 0 < rest) : 0 < piece off rest ∧ piece off rest ≤ rest := by
  unfold piece BSIZE
  omega

/-- The loop of `readi` reads to the end, or stops where bytes cannot be copied out; nothing is changed. -/
theorem readiLoop_spec (sb : Superblock) (k : Fin NINODE) (dst : Dst) (n : Nat) {s : State}
    (hholes : NoHoles s.data (s.inode k).di) (hsize : (s.inode k).di.size.toNat ≤ MAXFILE * BSIZE) :
    ∀ (fuel off tot : Nat) (acc : List UInt8), tot ≤ n → n - tot ≤ fuel → off + (n - tot) ≤ (s.inode k).di.size.toNat →
      (∃ bs, readiLoop sb k dst n fuel off tot acc s = .ok ((-1, bs), s) ∧ ∃ a l, dst.copyout a l = false) ∨
      readiLoop sb k dst n fuel off tot acc s =
        .ok (((n : Int), acc ++ (List.range (n - tot)).map fun j => (s.inode k).di.byte s.data (off + j)), s) := by
  intro fuel
  induction fuel with
  | zero =>
    intro off tot acc htot hfuel _
    obtain rfl : tot = n := by omega
    refine .inr ?_
    rw [Nat.sub_self, List.range_zero, List.map_nil, List.append_nil]
    rfl
  | succ fuel ih =>
    intro off tot acc htot hfuel hend
    unfold readiLoop
    by_cases hlt : tot < n
    · have hblock := hholes.block_ne_zero hsize (x := off) (by omega)
      obtain ⟨hpos, hle⟩ := piece_pos off (show 0 < n - tot by omega)
      rw [if_pos hlt, bind_of_ok (bmap_of_block sb k (div_lt_maxfile (by omega)) hblock), if_neg hblock,
        bind_of_ok (rfl : getData s = .ok (s.data, s))]
      cases hcopy : dst.copyout tot (piece off (n - tot)) with
      | false =>
        exact .inl ⟨acc, rfl, tot, _, hcopy⟩
      | true =>
        have hpiece : ((List.range (piece off (n - tot))).map fun j =>
            s.data ((s.inode k).di.block s.data (off / BSIZE) * BSIZE + off % BSIZE + j)) =
            (List.range (piece off (n - tot))).map fun j => (s.inode k).di.byte s.data (off + j) :=
          List.map_congr_left fun j hj => byte_piece _ _ (List.mem_range.1 hj)
        rw [hpiece]
        rcases ih (off + piece off (n - tot)) (tot + piece off (n - tot))
          (acc ++ (List.range (piece off (n - tot))).map fun j => (s.inode k).di.byte s.data (off + j))
          (by omega) (by omega) (by omega) with hfail | hok
        · exact .inl hfail
        · refine .inr (hok.trans ?_)
          have hsplit : n - tot = piece off (n - tot) + (n - (tot + piece off (n - tot))) := by omega
          conv_rhs => rw [hsplit, List.range_add, List.map_append, List.map_map]
          rw [List.append_assoc]
          simp only [Function.comp_def, Nat.add_assoc]
    · obtain rfl : tot = n := by omega
      rw [if_neg hlt, Nat.sub_self, List.range_zero, List.map_nil, List.append_nil]
      exact .inr rfl

/-- `readi` rejects an offset behind the end and a range that wraps around. -/
def ReadRejected (d : Dinode) (off n : UInt32) : Prop := d.size.toNat < off.toNat ∨ 2 ^ 32 ≤ off.toNat + n.toNat

theorem add_lt_iff (off n : UInt32) : off + n < off ↔ 2 ^ 32 ≤ off.toNat + n.toNat := by
  have h2 := n.toNat_lt
  rw [UInt32.lt_iff_toNat_lt, UInt32.toNat_add]
  omega

theorem toNat_add_of_lt {off n : UInt32} (h : off.toNat + n.toNat < 2 ^ 32) :
    (off + n).toNat = off.toNat + n.toNat := by
  rw [UInt32.toNat_add, Nat.mod_eq_of_lt h]

variable {s : State}

/-- `readi` returns the part of the contents that it is asked for and changes nothing. -/
theorem readi_spec (sb : Superblock) (k : Fin NINODE) (dst : Dst) (off n : UInt32)
    (hholes : NoHoles s.data (s.inode k).di) (hsize : (s.inode k).di.size.toNat ≤ MAXFILE * BSIZE) :
    (ReadRejected (s.inode k).di off n ∧ readi sb k dst off n s = .ok ((0, []), s)) ∨
    (¬ ReadRejected (s.inode k).di off n ∧
      ((∃ bs, readi sb k dst off n s = .ok ((-1, bs), s) ∧ ∃ a l, dst.copyout a l = false) ∨
      ∃ bs, bs = (((s.inode k).di.contents s.data).drop off.toNat).take n.toNat ∧
        readi sb k dst off n s = .ok (((bs.length : Int), bs), s))) := by
  have hrej : ((s.inode k).di.size < off ∨ off + n < off) ↔ ReadRejected (s.inode k).di off n := by
    rw [add_lt_iff, UInt32.lt_iff_toNat_lt]
    rfl
  unfold readi
  rw [bind_of_ok (getInode_eq k s)]
  by_cases hr : ReadRejected (s.inode k).di off n
  · rw [if_pos (hrej.2 hr)]
    exact .inl ⟨hr, rfl⟩
  · rw [if_neg fun h => hr (hrej.1 h)]
    refine .inr ⟨hr, ?_⟩
    unfold ReadRejected at hr
    have hlen : (if (s.inode k).di.size < off + n then (s.inode k).di.size - off else n).toNat =
        min n.toNat ((s.inode k).di.size.toNat - off.toNat) := by
      have hadd : (off + n).toNat = off.toNat + n.toNat := toNat_add_of_lt (by omega)
      split_ifs with hcut
      · rw [UInt32.lt_iff_toNat_lt, hadd] at hcut
        rw [UInt32.toNat_sub_of_le _ _ (UInt32.le_iff_toNat_le.2 (by omega))]
        omega
      · rw [UInt32.lt_iff_toNat_lt, hadd] at hcut
        omega
    rcases readiLoop_spec sb k dst (min n.toNat ((s.inode k).di.size.toNat - off.toNat)) hholes hsize
      (min n.toNat ((s.inode k).di.size.toNat - off.toNat)) off.toNat 0 [] (by omega) (by omega) (by omega) with
      hfail | hok
    · simp only [hlen]
      exact .inl hfail
    · simp only [hlen]
      refine .inr ⟨_, rfl, hok.trans ?_⟩
      rw [Dinode.contents_slice, List.nil_append, Nat.sub_zero, List.length_map, List.length_range]

/-! ## The loop of `writei` -/

/-- How the loop of `writei` ends: all bytes are written, or the disk is full, or `either_copyin` fails, after it has
put `g` bytes into the block. -/
def WriteEnds (sb : Superblock) (src : Src) (n off tot g : Nat) (t : State) : Prop :=
  (g = 0 ∧ (tot = n ∨ Full sb t.data)) ∨
  ((src.copyin tot (piece off (n - tot))).1 = -1 ∧ g = (src.copyin tot (piece off (n - tot))).2.length ∧ tot < n)

/-- Outside the logged blocks, the bytes `bs` at address `a` are all that is new. -/
structure Deposits (s t : State) (a : Nat) (bs : List UInt8) : Prop where
  data : ∀ x, x / BSIZE ∉ t.log.block → t.data x = writeBytes s.data a bs x
  block : ∀ b, b ∈ s.log.block → b ∈ t.log.block
  disk : t.disk = s.disk

theorem Deposits.of_logged {t : State} (h : Logged s t) (a : Nat) : Deposits s t a [] :=
  ⟨fun x hx => (h.data x hx).trans (writeBytes_of_not_mem _ (by rw [List.length_nil]; omega)).symm, h.block, h.disk⟩

theorem Deposits.move {t : State} {a : Nat} (h : Deposits s t a []) (a' : Nat) : Deposits s t a' [] :=
  .of_logged ⟨fun x hx => (h.data x hx).trans (writeBytes_of_not_mem _ (by rw [List.length_nil]; omega)), h.block,
    h.disk⟩ a'

variable {bs : List UInt8} {m' : Mem}

theorem writeBytes_congr {a : Nat} (h : m' x = m x) : writeBytes m' a bs x = writeBytes m a bs x := by
  unfold writeBytes
  rw [h]

/-- Blocks are logged before. -/
theorem Deposits.after {s t u : State} {a : Nat} {bs : List UInt8} (h : Logged s t) (h' : Deposits t u a bs) :
    Deposits s u a bs :=
  ⟨fun x hx => (h'.data x hx).trans (writeBytes_congr (h.data x fun hb => hx (h'.block _ hb))),
    fun b hb => h'.block b (h.block b hb), h'.disk.trans h.disk⟩

/-- Blocks are logged afterwards. -/
theorem Deposits.before {s t u : State} {a : Nat} {bs : List UInt8} (h : Deposits s t a bs) (h' : Logged t u) :
    Deposits s u a bs :=
  ⟨fun x hx => (h'.data x hx).trans (h.data x fun hb => hx (h'.block _ hb)), fun b hb => h'.block b (h.block b hb),
    h'.disk.trans h.disk⟩

/-- Where a byte of a file is on the disk. -/
def Dinode.addr (m : Mem) (d : Dinode) (x : Nat) : Nat := d.block m (x / BSIZE) * BSIZE + x % BSIZE

section

variable {sb : Superblock} (hsb : sb.Layout) {k : Fin NINODE} {i : Nat} {B : Finset Nat}
include hsb

/-- Bytes are put into the block that `bmap` has returned. -/
theorem Adds.write {v v' : Nat → Dinode} {s t u : State} {off addr : Nat} {bs : List UInt8} (h : Owned sb t.data v' B)
    (hi : i < sb.ninodes) (htype : (v i).type ≠ 0) (hadds : Adds sb k i 0 [] v v' s t) (hbn : off / BSIZE < MAXFILE)
    (haddr : (v' i).block t.data (off / BSIZE) = addr) (hne : addr ≠ 0) (hlen : off % BSIZE + bs.length ≤ BSIZE)
    (hsame : SameTable t u) (hu : u.data = writeBytes t.data (addr * BSIZE + off % BSIZE) bs) :
    Owned sb u.data v' B ∧ Adds sb k i off bs v v' s u ∧ (v' i).block u.data (off / BSIZE) = addr := by
  have htype' : (v' i).type ≠ 0 := by
    rw [hadds.wrote.type_eq]
    exact htype
  obtain ⟨hown, hwrote⟩ := h.write hsb hi htype' hbn (by rw [haddr]; exact hne) hlen
  rw [haddr, ← hu] at hown hwrote
  rw [Nat.div_add_mod'] at hwrote
  refine ⟨hown, (hadds.move off).trans hi htype (Adds.of_same hadds.di_eq hsame hwrote), ?_⟩
  rw [hwrote.block_eq hi htype' hbn (by rw [haddr]; exact hne), haddr]

theorem writeiLoop_meets (src : Src) (n : Nat) :
    ∀ (fuel off tot : Nat) (s : State) (v : Nat → Dinode), Owned sb s.data v B → 0 < s.log.outstanding →
      i < sb.ninodes → (v i).type ≠ 0 → (s.inode k).di = v i → tot ≤ n → n - tot ≤ fuel →
      off + (n - tot) ≤ MAXFILE * BSIZE →
      Meets TooBig (writeiLoop sb k src n fuel off tot) s fun r t => ∃ v' p g, r = (off + p, tot + p) ∧
        tot + p ≤ n ∧ Owned sb t.data v' B ∧ Adds sb k i off (src.slice tot (p + g)) v v' s t ∧
        Deposits s t ((v' i).addr t.data (off + p)) (src.slice (tot + p) g) ∧
        WriteEnds sb src n (off + p) (tot + p) g t := by
  intro fuel
  induction fuel with
  | zero =>
    intro off tot s v h hop hi htype hdi htot hfuel hmax
    obtain rfl : tot = n := by omega
    exact .pure ⟨v, 0, 0, rfl, Nat.le_refl _, h, Adds.of_same hdi (SameTable.refl s) (Wrote.refl ..),
      Deposits.of_logged (Logged.refl s) _, .inl ⟨rfl, .inl rfl⟩⟩
  | succ fuel ih =>
    intro off tot s v h hop hi htype hdi htot hfuel hmax
    refine .ite (fun hlt => ?_) fun hge => ?_
    · obtain ⟨hpos, hle⟩ := piece_pos off (show 0 < n - tot by omega)
      have hbn : off / BSIZE < MAXFILE := div_lt_maxfile (by omega)
      refine .bind (bmap_meets hsb h hop hi htype hdi hbn) ?_
      rintro addr t ⟨hlogged, v', hown, hadds, haddr, hfull⟩
      refine .ite (fun h0 => .pure ⟨v', 0, 0, rfl, htot, hown, hadds.move off,
        Deposits.of_logged hlogged _, .inl ⟨rfl, .inr (hfull h0)⟩⟩) fun hne => ?_
      have hop' : 0 < t.log.outstanding := by
        rw [hadds.outstanding]
        exact hop
      have htype' : (v' i).type ≠ 0 := by
        rw [hadds.wrote.type_eq]
        exact htype
      have hfit : off % BSIZE + piece off (n - tot) ≤ BSIZE := by
        unfold piece BSIZE
        omega
      have hslice := src.copyin_slice tot (piece off (n - tot))
      have hdone := (src.copyin_copies tot (piece off (n - tot))).done
      show Meets TooBig (modifyData (fun m => writeBytes m (addr * BSIZE + off % BSIZE)
        (src.copyin tot (piece off (n - tot))).2) >>= fun _ =>
          if (src.copyin tot (piece off (n - tot))).1 = -1 then pure (off, tot)
          else logWrite sb addr >>= fun _ =>
            writeiLoop sb k src n fuel (off + piece off (n - tot)) (tot + piece off (n - tot))) t _
      generalize hr : src.copyin tot (piece off (n - tot)) = r at hslice hdone ⊢
      have hlen : off % BSIZE + r.2.length ≤ BSIZE := by rcases hdone with ⟨-, h2⟩ | ⟨-, h2⟩ <;> omega
      have hround := fun u => Adds.write (u := u) hsb hown hi htype hadds hbn (haddr hne) hne hlen
      refine .step rfl (.ite (fun hfail => ?_) fun hnofail => ?_)
      · obtain ⟨hown', hadds', hat⟩ := hround (t.setData (writeBytes t.data (addr * BSIZE + off % BSIZE) r.2))
          ⟨rfl, rfl, rfl⟩ rfl
        refine .pure ⟨v', 0, r.2.length, rfl, htot, hown', ?_, ?_, .inr ⟨?_, ?_, hlt⟩⟩
        · rw [Nat.zero_add, ← hslice]
          exact hadds'
        · rw [Nat.add_zero, Nat.add_zero, ← hslice]
          unfold Dinode.addr
          rw [hat]
          exact Deposits.after hlogged ⟨fun _ _ => rfl, fun _ hb => hb, rfl⟩
        · rw [Nat.add_zero, Nat.add_zero, hr]
          exact hfail
        · rw [Nat.add_zero, Nat.add_zero, hr]
      · have hall : r.2.length = piece off (n - tot) := by
          rcases hdone with ⟨-, h2⟩ | ⟨h1, -⟩
          · exact h2
          · exact absurd h1 hnofail
        refine .bind (logWrite_meets (by exact hop') addr) ?_
        rintro - u rfl
        obtain ⟨hown', hadds', -⟩ := hround ((t.setData (writeBytes t.data (addr * BSIZE + off % BSIZE) r.2)).setLog
          (t.log.add addr)) (SameTable.log t _ _) rfl
        have hlogged' := hlogged.trans (Logged.modify t (b := addr)
          (m := writeBytes t.data (addr * BSIZE + off % BSIZE) r.2)
          fun x hx => writeBytes_of_not_mem _ (by unfold BSIZE at *; omega))
        have hbytes : src.slice tot (piece off (n - tot)) = r.2 := by
          rw [← hall]
          exact hslice.symm
        refine (ih (off + piece off (n - tot)) (tot + piece off (n - tot)) _ v' hown' hop' hi htype'
          hadds'.di_eq (by omega) (by omega) (by omega)).weaken ?_
        rintro q w ⟨v'', p, g, rfl, hle', hown'', hadds'', hdeposits, hends⟩
        refine ⟨v'', piece off (n - tot) + p, g, by rw [Nat.add_assoc, Nat.add_assoc], by omega, hown'', ?_, ?_, ?_⟩
        · rw [Nat.add_assoc, ← src.slice_append tot (piece off (n - tot)) (p + g), hbytes]
          refine hadds'.trans hi htype ?_
          rw [hall]
          exact hadds''
        · rw [← Nat.add_assoc, ← Nat.add_assoc]
          exact Deposits.after hlogged' hdeposits
        · rw [← Nat.add_assoc, ← Nat.add_assoc]
          exact hends
    · obtain rfl : tot = n := by omega
      exact .pure ⟨v, 0, 0, rfl, Nat.le_refl _, h, Adds.of_same hdi (SameTable.refl s) (Wrote.refl ..),
        Deposits.of_logged (Logged.refl s) _, .inl ⟨rfl, .inl rfl⟩⟩

/-! ## `writei` -/

variable {v : Nat → Dinode}

/-- Bytes of a file are not where the dinodes are. -/
theorem Owned.below_byte (h : Owned sb m v B)
    (hm : ∀ x, sb.bmapstart * BSIZE ≤ x → m' x = m x) (hi : i < sb.ninodes) (htype : (v i).type ≠ 0)
    (hx : x / BSIZE < MAXFILE) (hne : (v i).block m (x / BSIZE) ≠ 0) : (v i).byte m' x = (v i).byte m x := by
  have hblock : (v i).block m' (x / BSIZE) = (v i).block m (x / BSIZE) := h.below_slot hsb hm hi htype (slotOf_lt hx)
  unfold Dinode.byte
  rw [hblock]
  refine hm _ ((Nat.mul_le_mul_right BSIZE ?_).trans (Nat.le_add_right _ _))
  exact hsb.bmapstart_le.trans (h.block_range hi htype hx hne)

theorem writeDinode_below (hi : i < sb.ninodes) (d : Dinode) (hx : sb.bmapstart * BSIZE ≤ x) :
    writeDinode m (sb.dinode i) d x = m x :=
  writeDinode_of_not_mem _ _ (.inr ((hsb.dinode_lt hi).trans hx))

omit hsb in
theorem iupdate_meets (sb : Superblock) (k : Fin NINODE) (hop : 0 < s.log.outstanding) :
    Meets TooBig (iupdate sb k) s fun _ t => SameTable s t ∧ Logged s t ∧
      t.data = writeDinode s.data (sb.dinode (s.inode k).inum) (s.inode k).di := by
  refine .step (getInode_eq k s) (.step rfl ?_)
  refine (logWrite_meets (by exact hop) _).weaken ?_
  rintro - t rfl
  refine ⟨SameTable.log s _ _, Logged.modify s fun x hx => writeDinode_of_not_mem _ _ ?_, rfl⟩
  unfold Superblock.dinode dinodeSize IPB BSIZE at *
  omega

/-- The dinode that is ahead of the disk is written. -/
theorem Image.of_write (hi : i < sb.ninodes) (hown : Owned sb m v ∅)
    (hdisk : ∀ j, j < sb.ninodes → j ≠ i → readDinode m (sb.dinode j) = v j)
    (hsizes : ∀ j, j < sb.ninodes → (v j).type ≠ 0 → (v j).size.toNat ≤ MAXFILE * BSIZE)
    (hholes : ∀ j, j < sb.ninodes → (v j).type ≠ 0 → NoHoles m (v j)) :
    Image sb v (writeDinode m (sb.dinode i) (v i)) := by
  have hm := fun x hx => writeDinode_below (m := m) hsb hi (v i) (x := x) hx
  refine ⟨hown.below hsb hm, ?_, hsizes, ?_⟩
  · intro j hj
    by_cases hji : j = i
    · rw [hji]
      exact readDinode_writeDinode _ _ _
    · rw [readDinode_writeDinode_ne sb m hji]
      exact hdisk j hj hji
  · intro j hj htype bn hbn hlt hzero
    have hslot : (v j).block (writeDinode m (sb.dinode i) (v i)) bn = (v j).block m bn :=
      hown.below_slot hsb hm hj htype (slotOf_lt hbn)
    rw [hslot] at hzero
    exact hholes j hj htype bn hbn hlt hzero

/-- A dinode is replaced; the files of the other inodes are not touched. -/
theorem Image.replace (h : Image sb v m) (hi : i < sb.ninodes) {d : Dinode} (hown : Owned sb m (update v i d) ∅)
    (hshape : d.type ≠ 0 → d.size.toNat ≤ MAXFILE * BSIZE ∧ NoHoles m d) :
    Image sb (update v i d) (writeDinode m (sb.dinode i) d) ∧ ∀ j, j < sb.ninodes → (update v i d j).type ≠ 0 →
        (update v i d j).contents (writeDinode m (sb.dinode i) d) = (update v i d j).contents m := by
  have hself : update v i d i = d := update_self ..
  have hother : ∀ j, j ≠ i → update v i d j = v j := fun j hj => update_of_ne hj ..
  have hshapes : ∀ j, j < sb.ninodes → (update v i d j).type ≠ 0 →
      (update v i d j).size.toNat ≤ MAXFILE * BSIZE ∧ NoHoles m (update v i d j) := by
    intro j hj ht
    by_cases hji : j = i
    · rw [hji, hself] at ht ⊢
      exact hshape ht
    · rw [hother j hji] at ht ⊢
      exact ⟨h.sizes j hj ht, h.noHoles j hj ht⟩
  refine ⟨?_, fun j hj ht => List.map_congr_left fun x hx => ?_⟩
  · have himage := Image.of_write hsb hi hown
      (fun j hj hji => by rw [hother j hji]; exact h.disk j hj) (fun j hj ht => (hshapes j hj ht).1)
      fun j hj ht => (hshapes j hj ht).2
    rwa [hself] at himage
  · obtain ⟨hsize, hholes⟩ := hshapes j hj ht
    have hlt := List.mem_range.1 hx
    exact hown.below_byte hsb (fun y hy => writeDinode_below hsb hi d hy) hj ht (div_lt_maxfile (hlt.trans_le hsize))
      (hholes.block_ne_zero hsize hlt)

omit hsb in
/-- `writei` rejects an offset behind the end, a range that wraps around and a file that would be too big. -/
def WriteRejected (d : Dinode) (off n : UInt32) : Prop :=
  d.size.toNat < off.toNat ∨ 2 ^ 32 ≤ off.toNat + n.toNat ∨ MAXFILE * BSIZE < off.toNat + n.toNat

omit hsb in
/-- What `writei` does to the files: `bs` is put at `off` of inode `i`, of which the first `p` bytes count for the
size. -/
structure WroteFile (sb : Superblock) (i off p : Nat) (bs : List UInt8) (m : Mem) (v : Nat → Dinode) (m' : Mem)
    (v' : Nat → Dinode) : Prop where
  others : ∀ j, j ≠ i → v' j = v j
  fields : v' i = { v i with addrs := (v' i).addrs, size := (v' i).size }
  size : (v' i).size.toNat = max (v i).size.toNat (off + p)
  same : ∀ j, j < sb.ninodes → (v j).type ≠ 0 → j ≠ i → (v j).contents m' = (v j).contents m
  byte : ∀ x, x < (v' i).size.toNat → (v' i).byte m' x =
    if off ≤ x ∧ x < off + bs.length then bs.getD (x - off) 0 else (v i).byte m x

omit hsb in
/-- After the loop every block below the new size is there. -/
theorem Wrote.noHoles {v' : Nat → Dinode} {off p : Nat} (h : Image sb v m)
    (hwrote : Wrote sb i off bs m v m' v') (hi : i < sb.ninodes) (htype : (v i).type ≠ 0)
    (hoff : off ≤ (v i).size.toNat) (hp : p ≤ bs.length) {bn : Nat} (hbn : bn < MAXFILE)
    (hlt : bn * BSIZE < max (v i).size.toNat (off + p)) : (v' i).block m' bn ≠ 0 := by
  by_cases hold : bn * BSIZE < (v i).size.toNat
  · have hne := h.noHoles i hi htype bn hbn hold
    rw [hwrote.block_eq hi htype hbn hne]
    exact hne
  · -- the block starts behind the old end, so it starts inside the bytes that were written
    have hnew := hwrote.new (bn * BSIZE - off) (by omega)
    have hdiv : (off + (bn * BSIZE - off)) / BSIZE = bn := by
      rw [Nat.add_sub_cancel' (by omega), Nat.mul_div_cancel _ (by decide)]
    rw [hdiv] at hnew
    exact hnew.2.1

/-- The loop is done and the size is set: what is left is to write the dinode. -/
theorem Wrote.file {v' : Nat → Dinode} {off p : Nat} {size : UInt32} (h : Image sb v m)
    (hown : Owned sb m' v' ∅) (hwrote : Wrote sb i off bs m v m' v') (hi : i < sb.ninodes) (htype : (v i).type ≠ 0)
    (hoff : off ≤ (v i).size.toNat) (hmax : off + p ≤ MAXFILE * BSIZE) (hp : p ≤ bs.length)
    (hsize : size.toNat = max (v i).size.toNat (off + p)) : Image sb (update v' i { v' i with size := size })
        (writeDinode m' (sb.dinode i) { v' i with size := size }) ∧
      WroteFile sb i off p bs m v (writeDinode m' (sb.dinode i) { v' i with size := size })
        (update v' i { v' i with size := size }) := by
  have hold := h.sizes i hi htype
  have hself : update v' i { v' i with size := size } i = { v' i with size := size } :=
    update_self ..
  have hother : ∀ j, j ≠ i → update v' i { v' i with size := size } j = v j :=
    fun j hj => (update_of_ne hj _ _).trans (hwrote.others j hj)
  have htypes : ∀ j, (update v' i { v' i with size := size } j).type = (v j).type := by
    intro j
    by_cases hj : j = i
    · rw [hj, hself]
      exact hwrote.type_eq i
    · rw [hother j hj]
  have hblock : ∀ bn, bn < MAXFILE → bn * BSIZE < size.toNat → (v' i).block m' bn ≠ 0 := by
    intro bn hbn hlt
    rw [hsize] at hlt
    exact hwrote.noHoles h hi htype hoff hp hbn hlt
  have hown' : Owned sb m' (update v' i { v' i with size := size }) ∅ := hown.update_same rfl rfl
  have hm := fun x hx => writeDinode_below (m := m') hsb hi { v' i with size := size } (x := x) hx
  -- blocks of the other files are as before
  have hblockOther : ∀ j, j < sb.ninodes → (v j).type ≠ 0 → j ≠ i → ∀ bn, bn < MAXFILE → (v j).block m bn ≠ 0 →
      (v j).block m' bn = (v j).block m bn := by
    intro j hj ht hji bn hbn hne
    have heq := hwrote.block_eq hj ht hbn hne
    rwa [hwrote.others j hji] at heq
  refine ⟨?_, ⟨hother, ?_, ?_, ?_, ?_⟩⟩
  · have himage := Image.of_write hsb hi hown' ?_ ?_ ?_
    · rwa [hself] at himage
    · intro j hj hji
      rw [hother j hji, ← h.disk j hj]
      exact readDinode_congr fun x _ hx => hwrote.inodes x (hx.trans_le (hsb.dinode_lt hj))
    · intro j hj ht
      by_cases hji : j = i
      · rw [hji, hself]
        exact hsize.le.trans (max_le hold hmax)
      · rw [htypes] at ht
        rw [hother j hji]
        exact h.sizes j hj ht
    · intro j hj ht bn hbn hlt
      rw [htypes] at ht
      by_cases hji : j = i
      · rw [hji, hself] at hlt ⊢
        exact hblock bn hbn hlt
      · rw [hother j hji] at hlt ⊢
        have hne := h.noHoles j hj ht bn hbn hlt
        rw [hblockOther j hj ht hji bn hbn hne]
        exact hne
  · rw [hself, hwrote.fields]
  · rw [hself]
    exact hsize
  · intro j hj ht hji
    refine List.map_congr_left fun x hx => ?_
    have hlt : x < (v j).size.toNat := List.mem_range.1 hx
    have hbn : x / BSIZE < MAXFILE := div_lt_maxfile (hlt.trans_le (h.sizes j hj ht))
    have hne := (h.noHoles j hj ht).block_ne_zero (h.sizes j hj ht) hlt
    have hsame := hblockOther j hj ht hji _ hbn hne
    have hbelow := hown'.below_byte (i := j) (x := x) hsb hm hj (by rw [htypes]; exact ht) hbn
      (by rw [hother j hji, hsame]; exact hne)
    rw [hother j hji] at hbelow
    rw [hbelow]
    unfold Dinode.byte
    rw [hsame]
    exact hwrote.other j hj ht hji _ hbn hne _ (block_addr_div _ _)
  · intro x hx
    rw [hself] at hx ⊢
    have hlt : x < max (v i).size.toNat (off + p) := hsize ▸ hx
    have hbn : x / BSIZE < MAXFILE := div_lt_maxfile (hlt.trans_le (max_le hold hmax))
    have hne : (v' i).block m' (x / BSIZE) ≠ 0 := hblock _ hbn ((Nat.div_mul_le_self x BSIZE).trans_lt hx)
    have hbelow := hown.below_byte (i := i) (x := x) hsb hm hi (by rw [hwrote.type_eq]; exact htype) hbn hne
    refine hbelow.trans ?_
    by_cases hin : off ≤ x ∧ x < off + bs.length
    · rw [if_pos hin]
      have hnew := (hwrote.new (x - off) (by omega)).2.2
      rwa [Nat.add_sub_cancel' hin.1] at hnew
    · rw [if_neg hin]
      have hxold : x < (v i).size.toNat := by omega
      exact hwrote.old x hbn ((h.noHoles i hi htype).block_ne_zero hold hxold) (by omega)

omit hsb in
theorem Full.below (h : Full sb m) (hm : ∀ x, sb.bmapstart * BSIZE ≤ x → m' x = m x) : Full sb m' :=
  fun b hb => (blockBit_congr sb (hm _ (Nat.le_add_right _ _))).trans (h b hb)

/-- `writei`. -/
theorem writei_meets (h : Image sb v s.data) (hop : 0 < s.log.outstanding)
    (hi : i < sb.ninodes) (htype : (v i).type ≠ 0) (hinum : (s.inode k).inum = i) (hdi : (s.inode k).di = v i)
    (src : Src) (off n : UInt32) : Meets TooBig (writei sb k src off n) s fun r t =>
      (WriteRejected (v i) off n ∧ r = -1 ∧ t = s) ∨
      (¬ WriteRejected (v i) off n ∧ ∃ (v' : Nat → Dinode) (p g : Nat), r = (p : Int) ∧ p ≤ n.toNat ∧ Image sb v' t.data ∧
        WroteFile sb i off.toNat p (src.slice 0 (p + g)) s.data v t.data v' ∧
        t.inode = update s.inode k { s.inode k with di := v' i } ∧ t.releases = s.releases ∧
        t.log.outstanding = s.log.outstanding ∧
        Deposits s t ((v' i).addr t.data (off.toNat + p)) (src.slice p g) ∧
        WriteEnds sb src n.toNat (off.toNat + p) p g t) := by
  have hmaxval : (UInt32.ofNat (MAXFILE * BSIZE)).toNat = MAXFILE * BSIZE := rfl
  refine .step (getInode_eq k s) ?_
  refine .ite (fun hrej => .pure (.inl ⟨?_, rfl, rfl⟩)) fun hok =>
    Meets.ite (fun hrej => .pure (.inl ⟨?_, rfl, rfl⟩)) fun hmax => ?_
  · rw [hdi, add_lt_iff, UInt32.lt_iff_toNat_lt] at hrej
    exact hrej.imp id Or.inl
  · rw [UInt32.lt_iff_toNat_lt, hmaxval, toNat_add_of_lt] at hrej
    · exact .inr (.inr hrej)
    · rw [add_lt_iff] at hok
      omega
  rw [hdi, add_lt_iff, UInt32.lt_iff_toNat_lt] at hok
  rw [UInt32.lt_iff_toNat_lt, hmaxval, toNat_add_of_lt (by omega)] at hmax
  have hnot : ¬ WriteRejected (v i) off n := by
    unfold WriteRejected
    omega
  refine .bind (writeiLoop_meets hsb src n.toNat n.toNat off.toNat 0 s v h.owned hop hi htype hdi (by omega)
    (by omega) (by omega)) ?_
  rintro r t ⟨v1, p, g, rfl, hle, hown, hadds, hdeposits, hends⟩
  rw [Nat.zero_add] at hle hdeposits hends ⊢
  refine .step (getInode_eq k t) ?_
  -- after the size has been set
  have hsizeLt : max (v i).size.toNat (off.toNat + p) < 2 ^ 32 := by
    have := (v i).size.toNat_lt
    have : MAXFILE * BSIZE < 2 ^ 32 := by decide
    omega
  obtain ⟨size, hsize⟩ : ∃ size : UInt32, size = UInt32.ofNat (max (v i).size.toNat (off.toNat + p)) := ⟨_, rfl⟩
  have hsizeNat : size.toNat = max (v i).size.toNat (off.toNat + p) := by
    rw [hsize]
    exact UInt32.toNat_ofNat_of_lt hsizeLt
  refine .bind (R := fun _ u => SameTable (t.setInode k { t.inode k with di := { v1 i with size := size } }) u ∧
    Logged t u ∧ u.data = t.data) ?_ ?_
  · have hv1 : (v1 i).size = (v i).size := by rw [hadds.wrote.fields]
    rw [hadds.di_eq, hv1]
    refine .ite (fun hlt => .of_ok rfl ⟨⟨?_, rfl, rfl⟩, ⟨fun _ _ => rfl, fun _ hb => hb, rfl⟩, rfl⟩)
      fun hge => .pure ⟨⟨?_, rfl, rfl⟩, Logged.refl t, rfl⟩
    · rw [max_eq_right (by omega)] at hsize
      simp only [State.setInode_inode, hadds.di_eq, hsize]
    · rw [max_eq_left (by omega), UInt32.ofNat_toNat, ← hv1] at hsize
      rw [State.setInode_inode, hsize, ← hadds.di_eq]
      exact (update_eq_self k t.inode).symm
  rintro - u ⟨husame, hulogged, hudata⟩
  have hu : u.inode k = { t.inode k with di := { v1 i with size := size } } := by
    rw [husame.inode, State.setInode_inode, update_self]
  have huop : 0 < u.log.outstanding := by
    rw [husame.outstanding]
    exact hadds.outstanding ▸ hop
  refine .bind (iupdate_meets sb k huop) ?_
  rintro - w ⟨hwsame, hwlogged, hwdata⟩
  have htk : (t.inode k).inum = i := by
    rw [hadds.inode, update_self]
    exact hinum
  rw [hu, hudata] at hwdata
  simp only [htk] at hwdata
  obtain ⟨himage, hfile⟩ := hadds.wrote.file hsb h hown hi htype (p := p) (by omega) (by omega)
    (by rw [Src.slice_length]; omega) hsizeNat
  refine .pure (.inr ⟨hnot, update v1 i { v1 i with size := size }, p, g, rfl, hle, ?_, ?_, ?_, ?_, ?_, ?_, ?_⟩)
  · rw [hwdata]
    exact himage
  · rw [hwdata]
    exact hfile
  · rw [hwsame.inode, husame.inode, State.setInode_inode, hadds.inode, update_self, update_idem, update_self]
  · rw [hwsame.releases, husame.releases]
    exact hadds.releases
  · rw [hwsame.outstanding, husame.outstanding]
    exact hadds.outstanding
  · refine Deposits.before ?_ (hulogged.trans hwlogged)
    rcases Nat.lt_or_ge (off.toNat + p) (MAXFILE * BSIZE) with hin | hout
    · have hslot : (v1 i).block w.data ((off.toNat + p) / BSIZE) = (v1 i).block t.data ((off.toNat + p) / BSIZE) := by
        rw [hwdata]
        exact hown.below_slot hsb (fun x hx => writeDinode_below hsb hi _ hx) hi
          (by rw [hadds.wrote.type_eq]; exact htype) (slotOf_lt (div_lt_maxfile hin))
      have haddr : (update v1 i { v1 i with size := size } i).addr w.data (off.toNat + p) =
          (v1 i).addr t.data (off.toNat + p) := by
        rw [update_self]
        show (v1 i).block w.data ((off.toNat + p) / BSIZE) * BSIZE + _ = _
        rw [hslot]
        rfl
      rw [haddr]
      exact hdeposits
    · -- at the end of the largest file nothing is left in a block
      have hg : g = 0 := by
        rcases hends with hend | hend
        · exact hend.1
        · omega
      subst hg
      exact hdeposits.move _
  · refine hends.imp (fun hend => ⟨hend.1, hend.2.imp id fun hfull => ?_⟩) id
    rw [hwdata]
    exact hfull.below fun x hx => writeDinode_below hsb hi _ hx

end

end Xv6.Fs
