import Xv6.Fs.Inode
import Xv6.Fs.Layout

/-!
# The blocks of an inode

An inode has a slot for each block it can have: the entries of `addrs` and, behind them, the entries of the
indirect block. `Dinode.block` is what `bmap` looks for and `Dinode.byte` the contents of the file.
-/

set_option autoImplicit false

namespace Xv6.Fs

open Xv6.Base

/-- Number of slots of an inode. -/
def NSLOT : Nat := NDIRECT + 1 + NINDIRECT

/-- The block number in slot `j`. -/
def Dinode.slot (m : Mem) (d : Dinode) (j : Nat) : Nat :=
  if h : j < NDIRECT + 1 then (d.addrs ⟨j, h⟩).toNat
  else if d.addrs (Fin.last NDIRECT) = 0 then 0
  else (indirect m (d.addrs (Fin.last NDIRECT)).toNat (j - (NDIRECT + 1))).toNat

/-- The slot of block `bn` of the contents; that of the indirect block itself is left out. -/
def slotOf (bn : Nat) : Nat := if bn < NDIRECT then bn else bn + 1

/-- Block `bn` of the contents, or 0. -/
def Dinode.block (m : Mem) (d : Dinode) (bn : Nat) : Nat := d.slot m (slotOf bn)

/-- Byte `x` of the contents. -/
def Dinode.byte (m : Mem) (d : Dinode) (x : Nat) : UInt8 := m (d.block m (x / BSIZE) * BSIZE + x % BSIZE)

/-- Every block below the size is there. -/
def NoHoles (m : Mem) (d : Dinode) : Prop :=
  ∀ bn, bn < MAXFILE → bn * BSIZE < d.size.toNat → d.block m bn ≠ 0

theorem slotOf_inj {a b : Nat} (h : slotOf a = slotOf b) : a = b := by
  unfold slotOf at h
  split_ifs at h <;> omega

theorem slotOf_lt {bn : Nat} (h : bn < MAXFILE) : slotOf bn < NSLOT := by
  unfold slotOf NSLOT
  unfold MAXFILE at h
  split_ifs <;> omega

theorem slotOf_ne_indirect (bn : Nat) : slotOf bn ≠ NDIRECT := by
  unfold slotOf
  split_ifs <;> omega

namespace Dinode

variable (m : Mem) (d : Dinode)

theorem slot_addrs (i : Fin (NDIRECT + 1)) : d.slot m i = (d.addrs i).toNat := by
  unfold slot
  rw [dif_pos i.isLt]

theorem slot_last : d.slot m NDIRECT = (d.addrs (Fin.last NDIRECT)).toNat := slot_addrs m d (Fin.last NDIRECT)

theorem slot_indirect (j : Nat) (h : d.addrs (Fin.last NDIRECT) ≠ 0) :
    d.slot m (NDIRECT + 1 + j) = (indirect m (d.addrs (Fin.last NDIRECT)).toNat j).toNat := by
  unfold slot
  rw [dif_neg (by omega), if_neg h, Nat.add_sub_cancel_left]

theorem slot_indirect_zero (j : Nat) (h : d.addrs (Fin.last NDIRECT) = 0) : d.slot m (NDIRECT + 1 + j) = 0 := by
  unfold slot
  rw [dif_neg (by omega), if_pos h]

theorem block_direct {bn : Nat} (h : bn < NDIRECT) : d.block m bn = (d.addrs (Fin.ofNat (NDIRECT + 1) bn)).toNat := by
  have hval : (Fin.ofNat (NDIRECT + 1) bn).val = bn := Nat.mod_eq_of_lt (by omega)
  unfold block slotOf
  rw [if_pos h]
  conv_lhs => rw [← hval]
  exact slot_addrs m d _

theorem block_indirect {bn : Nat} (h : ¬ bn < NDIRECT) : d.block m bn = d.slot m (NDIRECT + 1 + (bn - NDIRECT)) := by
  unfold block slotOf
  rw [if_neg h]
  congr 1
  omega

end Dinode

/-- Every block number has a slot of its own. -/
theorem lt_slot_cases {j : Nat} (h : j < NSLOT) :
    (∃ i : Fin (NDIRECT + 1), j = i.val) ∨ ∃ e, e < NINDIRECT ∧ j = NDIRECT + 1 + e := by
  by_cases hj : j < NDIRECT + 1
  · exact .inl ⟨⟨j, hj⟩, rfl⟩
  · refine .inr ⟨j - (NDIRECT + 1), ?_, ?_⟩
    · unfold NSLOT at h
      omega
    · omega

theorem UInt32_toNat_eq_zero {x : UInt32} : x.toNat = 0 ↔ x = 0 :=
  ⟨fun h => UInt32.toNat_inj.1 h, fun h => by rw [h]; rfl⟩

/-- `bmap` finds a block that is there and changes nothing. -/
theorem bmap_of_block (sb : Superblock) (k : Fin NINODE) {bn : Nat} {s : State} (hbn : bn < MAXFILE)
    (h : (s.inode k).di.block s.data bn ≠ 0) : bmap sb k bn s = .ok ((s.inode k).di.block s.data bn, s) := by
  have haddr : ∀ i : Fin (NDIRECT + 1), (s.inode k).di.addrs i ≠ 0 →
      bmapAddr sb k i s = .ok (((s.inode k).di.addrs i).toNat, s) := by
    intro i hi
    unfold bmapAddr
    rw [bind_of_ok (getInode_eq k s), if_neg hi]
    rfl
  unfold bmap
  by_cases hdirect : bn < NDIRECT
  · rw [Dinode.block_direct _ _ hdirect] at h ⊢
    rw [if_pos hdirect]
    exact haddr _ fun h0 => h (by rw [h0]; rfl)
  · have hbound : bn - NDIRECT < NINDIRECT := by
      unfold MAXFILE at hbn
      omega
    rw [Dinode.block_indirect _ _ hdirect] at h ⊢
    have hlast : (s.inode k).di.addrs (Fin.last NDIRECT) ≠ 0 :=
      fun h0 => h (Dinode.slot_indirect_zero _ _ _ h0)
    have hne : ((s.inode k).di.addrs (Fin.last NDIRECT)).toNat ≠ 0 :=
      fun h0 => hlast (UInt32_toNat_eq_zero.1 h0)
    rw [Dinode.slot_indirect _ _ _ hlast] at h ⊢
    rw [if_neg hdirect, if_pos hbound, bind_of_ok (haddr _ hlast), if_neg hne]
    unfold bmapIndirect
    rw [bind_of_ok (rfl : getData s = .ok (s.data, s)), if_neg fun h0 => h (by rw [h0]; rfl)]
    rfl

end Xv6.Fs
