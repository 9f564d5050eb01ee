import Xv6.Fs.Contents
import Xv6.Fs.Dir

/-!
# An initial file system

The image has the root directory, with ".", ".." and a file "f", and the file, which is one block of zeros. It shows
that what is assumed of an image can be met.
-/

set_option autoImplicit false

namespace Xv6.Fs

open Xv6.Base

/-- A dinode with one block. -/
def oneBlock (type : Int16) (b : UInt32) : Dinode := ⟨type, 0, 0, 1, 1024, fun p => if p.val = 0 then b else 0⟩

/-- The dinodes of the image. -/
def mkfsDinodes : Nat → Dinode := fun i =>
  if i = ROOTINO then oneBlock T_DIR 46 else if i = 2 then oneBlock T_FILE 47 else Dinode.zero

/-- The free map: the blocks before the data, and the two data blocks in use. -/
def mkfsMap : Mem := fun x => if 45 * BSIZE ≤ x ∧ x < 45 * BSIZE + 6 then 255 else 0

/-- The entries of the root directory. -/
def mkfsRoot : List UInt8 := dirent ROOTINO dot ++ dirent ROOTINO dotdot ++ dirent 2 [102]

/-- The blocks of the image. -/
@[irreducible]
def mkfsData : Mem :=
  writeDinode (writeDinode (writeBytes mkfsMap (46 * BSIZE) mkfsRoot) (Superblock.mkfs.dinode ROOTINO)
    (mkfsDinodes ROOTINO)) (Superblock.mkfs.dinode 2) (mkfsDinodes 2)

theorem mkfsData_behind {x : Nat} (h : 45 * BSIZE ≤ x) : mkfsData x = writeBytes mkfsMap (46 * BSIZE) mkfsRoot x := by
  have hdinode : ∀ i, i < 3 → x < Superblock.mkfs.dinode i ∨ Superblock.mkfs.dinode i + dinodeSize ≤ x := by
    intro i hi
    right
    rw [dinode_eq]
    unfold BSIZE at h
    show 32 * 1024 + i * 64 + 64 ≤ x
    omega
  unfold mkfsData
  rw [writeDinode_of_not_mem _ _ (hdinode 2 (by decide)), writeDinode_of_not_mem _ _ (hdinode ROOTINO (by decide))]

/-- The marks in the free map. -/
theorem mkfsMap_bits : ∀ b, b < 2000 → blockBit Superblock.mkfs mkfsMap b = decide (b < 48) := by
  decide +kernel

theorem mkfs_blockBit {b : Nat} (hb : b < Superblock.mkfs.size) : blockBit Superblock.mkfs mkfsData b = decide (b < 48) := by
  have hlt : Superblock.mkfs.bmapstart * BSIZE + b / 8 < 46 * BSIZE := by
    have hb' : b < 2000 := hb
    show 45 * 1024 + b / 8 < 46 * 1024
    omega
  rw [← mkfsMap_bits b hb]
  refine blockBit_congr _ ((mkfsData_behind (Nat.le_add_right _ _)).trans ?_)
  exact writeBytes_of_not_mem _ (.inl hlt)

theorem mkfs_type {i : Nat} (h : (mkfsDinodes i).type ≠ 0) : i = ROOTINO ∨ i = 2 := by
  by_contra hne
  rw [not_or] at hne
  unfold mkfsDinodes at h
  rw [if_neg hne.1, if_neg hne.2] at h
  exact h rfl

theorem oneBlock_slot (m : Mem) (type : Int16) (b : UInt32) (j : Nat) :
    (oneBlock type b).slot m j = if j = 0 then b.toNat else 0 := by
  unfold Dinode.slot
  by_cases hj : j < NDIRECT + 1
  · rw [dif_pos hj]
    show (if j = 0 then b else 0).toNat = _
    by_cases hj0 : j = 0
    · rw [if_pos hj0, if_pos hj0]
    · rw [if_neg hj0, if_neg hj0]
      rfl
  · have hlast : (oneBlock type b).addrs (Fin.last NDIRECT) = 0 := rfl
    rw [dif_neg hj, if_pos hlast, if_neg (by omega)]

theorem mkfs_held (p : Nat × Nat) :
    held Superblock.mkfs mkfsData mkfsDinodes p = if p = (ROOTINO, 0) then 46 else if p = (2, 0) then 47 else 0 := by
  obtain ⟨i, j⟩ := p
  unfold held
  by_cases hc : i < Superblock.mkfs.ninodes ∧ (mkfsDinodes i).type ≠ 0 ∧ j < NSLOT
  · rw [if_pos hc]
    rcases mkfs_type hc.2.1 with rfl | rfl
    · show (oneBlock T_DIR 46).slot mkfsData j = _
      rw [oneBlock_slot]
      by_cases hj : j = 0
      · subst hj
        rfl
      · rw [if_neg hj, if_neg fun heq => hj (Prod.mk.inj heq).2, if_neg fun heq => hj (Prod.mk.inj heq).2]
    · show (oneBlock T_FILE 47).slot mkfsData j = _
      rw [oneBlock_slot]
      by_cases hj : j = 0
      · subst hj
        rfl
      · rw [if_neg hj, if_neg fun heq => hj (Prod.mk.inj heq).2, if_neg fun heq => hj (Prod.mk.inj heq).2]
  · rw [if_neg hc, if_neg, if_neg]
    · intro heq
      obtain ⟨rfl, rfl⟩ := Prod.mk.inj heq
      exact hc ⟨by decide, by decide, by decide⟩
    · intro heq
      obtain ⟨rfl, rfl⟩ := Prod.mk.inj heq
      exact hc ⟨by decide, by decide, by decide⟩

theorem mkfs_owned : Owned Superblock.mkfs mkfsData mkfsDinodes ∅ := by
  refine ⟨by decide, ?_, ?_, fun b hb => absurd hb (Finset.notMem_empty b), ?_⟩
  · intro p hp
    rw [mkfs_held] at hp ⊢
    split_ifs at hp ⊢ with h1 h2
    · exact ⟨by decide, by decide⟩
    · exact ⟨by decide, by decide⟩
    · exact absurd rfl hp
  · intro p q hp heq
    rw [mkfs_held] at hp
    rw [mkfs_held, mkfs_held] at heq
    split_ifs at hp heq with h1 h2 h3 h4 <;> first | omega | simp_all
  · intro b hb
    rw [mkfs_blockBit hb, decide_eq_true_iff]
    have hmeta : Superblock.mkfs.nmeta = 46 := rfl
    rw [hmeta]
    constructor
    · intro hlt
      by_cases h46 : b = 46
      · exact .inr (.inr ⟨(ROOTINO, 0), by rw [mkfs_held, if_pos rfl, h46]⟩)
      · by_cases h47 : b = 47
        · exact .inr (.inr ⟨(2, 0), by rw [mkfs_held, if_neg (by decide), if_pos rfl, h47]⟩)
        · exact .inl (by omega)
    · rintro (hlt | hmem | ⟨p, hp⟩)
      · omega
      · exact absurd hmem (Finset.notMem_empty b)
      · rw [mkfs_held] at hp
        split_ifs at hp <;> omega

theorem mkfs_disk {i : Nat} (hi : i < Superblock.mkfs.ninodes) :
    readDinode mkfsData (Superblock.mkfs.dinode i) = mkfsDinodes i := by
  unfold mkfsData
  by_cases h2 : i = 2
  · rw [h2]
    exact readDinode_writeDinode _ _ _
  rw [readDinode_writeDinode_ne Superblock.mkfs _ h2]
  by_cases hroot : i = ROOTINO
  · rw [hroot]
    exact readDinode_writeDinode _ _ _
  rw [readDinode_writeDinode_ne Superblock.mkfs _ hroot]
  have hzero : mkfsDinodes i = Dinode.zero := by
    unfold mkfsDinodes
    rw [if_neg hroot, if_neg h2]
  have hi' : i < 200 := hi
  have hcongr : ∀ x, Superblock.mkfs.dinode i ≤ x → x < Superblock.mkfs.dinode i + dinodeSize →
      writeBytes mkfsMap (46 * BSIZE) mkfsRoot x = (fun _ => 0 : Mem) x := by
    intro x _ hx
    have hlt : x < 45 * BSIZE := by
      rw [dinode_eq] at hx
      have hx' : x < 32 * 1024 + i * 64 + 64 := hx
      unfold BSIZE
      omega
    rw [writeBytes_of_not_mem _ (.inl (by unfold BSIZE at *; omega))]
    unfold mkfsMap
    rw [if_neg (by omega)]
  rw [hzero, readDinode_congr hcongr]
  rfl

/-- The image is consistent. -/
theorem mkfs_image : Image Superblock.mkfs mkfsDinodes mkfsData where
  owned := mkfs_owned
  disk := fun _ hi => mkfs_disk hi
  sizes := by
    intro i _ htype
    rcases mkfs_type htype with rfl | rfl <;> decide
  noHoles := by
    intro i _ htype bn _ hlt
    have hbn : bn * 1024 < 1024 → bn = 0 := by omega
    rcases mkfs_type htype with rfl | rfl
    · rw [hbn hlt]
      show (oneBlock T_DIR 46).slot mkfsData 0 ≠ 0
      rw [oneBlock_slot]
      decide
    · rw [hbn hlt]
      show (oneBlock T_FILE 47).slot mkfsData 0 ≠ 0
      rw [oneBlock_slot]
      decide

end Xv6.Fs
