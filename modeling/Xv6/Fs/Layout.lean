import Xv6.Fs.Disk

/-!
# Where things are on the disk

The dinodes, the bits of the free map and the data blocks are in different blocks. This module has the
facts about each of them on its own: a dinode reads back as it was written, a bit as it was set, and neither
is changed by a write somewhere else.
-/

set_option autoImplicit false

namespace Xv6.Fs

open Function Xv6.Base

/-- Number of blocks before the data blocks. -/
def Superblock.nmeta (sb : Superblock) : Nat := sb.size - sb.nblocks

/-- The parts of the disk follow each other as the comment in `fs.h` says. -/
structure Superblock.Layout (sb : Superblock) : Prop where
  inodes : sb.inodestart + (sb.ninodes + IPB - 1) / IPB ≤ sb.bmapstart
  bitmap : sb.bmapstart + (sb.size + BPB - 1) / BPB ≤ sb.nmeta
  nblocks : sb.nblocks ≤ sb.size
  size_pos : 0 < sb.size
  root : ROOTINO < sb.ninodes

/-- The superblock of a file system of 2000 blocks, with the parts in the order that `fs.h` gives. -/
def Superblock.mkfs : Superblock := ⟨2000, 1954, 200, LOGSIZE, 2, 32, 45, by decide⟩

theorem Superblock.mkfs_layout : Superblock.mkfs.Layout := by
  constructor <;> decide

/-! ## Fields -/

theorem loadShort_storeShort (m : Mem) (a : Nat) (x : Int16) : loadShort (storeShort m a x) a = x := by
  unfold loadShort storeShort
  have hlt : x.toUInt16.toNat < 256 ^ 2 := x.toUInt16.toNat_lt
  rw [loadLE_storeLE, Nat.mod_eq_of_lt hlt, UInt16.ofNat_toNat, Int16.toInt16_toUInt16]

theorem loadUint_storeUint (m : Mem) (a : Nat) (x : UInt32) : loadUint (storeUint m a x) a = x := by
  unfold loadUint storeUint
  have hlt : x.toNat < 256 ^ 4 := x.toNat_lt
  rw [loadLE_storeLE, Nat.mod_eq_of_lt hlt, UInt32.ofNat_toNat]

variable {m m' : Mem} {a : Nat}

theorem loadShort_congr (h : ∀ x, a ≤ x → x < a + 2 → m' x = m x) : loadShort m' a = loadShort m a := by
  unfold loadShort
  rw [loadLE_congr h]

theorem loadUint_congr (h : ∀ x, a ≤ x → x < a + 4 → m' x = m x) : loadUint m' a = loadUint m a := by
  unfold loadUint
  rw [loadLE_congr h]

variable {x : Nat}

theorem storeShort_of_not_mem (m : Mem) {y : Int16} (h : x < a ∨ a + 2 ≤ x) :
    storeShort m a y x = m x := storeLE_of_not_mem m h

theorem storeUint_of_not_mem (m : Mem) {y : UInt32} (h : x < a ∨ a + 4 ≤ x) :
    storeUint m a y x = m x := storeLE_of_not_mem m h

theorem storeAddrs_of_not_mem (m : Mem) (a : Nat) (addrs : Nat → UInt32) :
    ∀ (n : Nat) {x : Nat}, x < a ∨ a + 4 * n ≤ x → storeAddrs m a addrs n x = m x := by
  intro n
  induction n with
  | zero => exact fun _ => rfl
  | succ n ih =>
    intro x hx
    rw [storeAddrs, storeUint_of_not_mem _ (by omega)]
    exact ih (by omega)

theorem loadUint_storeAddrs (m : Mem) (a : Nat) (addrs : Nat → UInt32) :
    ∀ (n : Nat) {i : Nat}, i < n → loadUint (storeAddrs m a addrs n) (a + 4 * i) = addrs i := by
  intro n
  induction n with
  | zero => exact fun h => absurd h (Nat.not_lt_zero _)
  | succ n ih =>
    intro i hi
    rw [storeAddrs]
    by_cases hin : i = n
    · subst hin
      exact loadUint_storeUint _ _ _
    · have hcongr : loadUint (storeUint (storeAddrs m a addrs n) (a + 4 * n) (addrs n)) (a + 4 * i) =
          loadUint (storeAddrs m a addrs n) (a + 4 * i) :=
        loadUint_congr fun x h1 h2 => storeUint_of_not_mem _ (by omega)
      rw [hcongr]
      exact ih (by omega)

/-! ## Dinodes -/

theorem readDinode_congr (h : ∀ x, a ≤ x → x < a + dinodeSize → m' x = m x) : readDinode m' a = readDinode m a := by
  unfold dinodeSize at h
  unfold readDinode
  congr 1
  · exact loadShort_congr fun x h1 h2 => h x (by omega) (by omega)
  · exact loadShort_congr fun x h1 h2 => h x (by omega) (by omega)
  · exact loadShort_congr fun x h1 h2 => h x (by omega) (by omega)
  · exact loadShort_congr fun x h1 h2 => h x (by omega) (by omega)
  · exact loadUint_congr fun x h1 h2 => h x (by omega) (by omega)
  · funext i
    have hi := i.isLt
    unfold NDIRECT at hi
    exact loadUint_congr fun x h1 h2 => h x (by omega) (by omega)

theorem writeDinode_of_not_mem (m : Mem) (d : Dinode) (h : x < a ∨ a + dinodeSize ≤ x) : writeDinode m a d x = m x := by
  unfold dinodeSize at h
  simp only [writeDinode]
  rw [storeAddrs_of_not_mem _ _ _ _ (by unfold NDIRECT; omega), storeUint_of_not_mem _ (by omega),
    storeShort_of_not_mem _ (by omega), storeShort_of_not_mem _ (by omega),
    storeShort_of_not_mem _ (by omega), storeShort_of_not_mem _ (by omega)]

/-- A field in front of `addrs` is not changed by storing the later fields. -/
theorem loadShort_writeDinode (m : Mem) (a : Nat) (d : Dinode) :
    loadShort (writeDinode m a d) a = d.type ∧ loadShort (writeDinode m a d) (a + 2) = d.major ∧
      loadShort (writeDinode m a d) (a + 4) = d.minor ∧ loadShort (writeDinode m a d) (a + 6) = d.nlink := by
  have hlast : ∀ {m' : Mem} {b : Nat}, b + 2 ≤ a + 8 → loadShort (storeAddrs (storeUint m' (a + 8) d.size) (a + 12)
        (fun i => d.addrs (Fin.ofNat (NDIRECT + 1) i)) (NDIRECT + 1)) b = loadShort m' b := by
    intro m' b hb
    refine loadShort_congr fun x h1 h2 => ?_
    rw [storeAddrs_of_not_mem _ _ _ _ (by omega), storeUint_of_not_mem _ (by omega)]
  have hskip : ∀ {m' : Mem} {b c : Nat} {y : Int16}, b + 2 ≤ c ∨ c + 2 ≤ b →
      loadShort (storeShort m' c y) b = loadShort m' b :=
    fun hbc => loadShort_congr fun x h1 h2 => storeShort_of_not_mem _ (by omega)
  simp only [writeDinode]
  refine ⟨?_, ?_, ?_, ?_⟩
  · rw [hlast (by omega), hskip (by omega), hskip (by omega), hskip (by omega), loadShort_storeShort]
  · rw [hlast (by omega), hskip (by omega), hskip (by omega), loadShort_storeShort]
  · rw [hlast (by omega), hskip (by omega), loadShort_storeShort]
  · rw [hlast (by omega), loadShort_storeShort]

/-- A dinode reads back as it was written. -/
theorem readDinode_writeDinode (m : Mem) (a : Nat) (d : Dinode) : readDinode (writeDinode m a d) a = d := by
  obtain ⟨h1, h2, h3, h4⟩ := loadShort_writeDinode m a d
  have h5 : loadUint (writeDinode m a d) (a + 8) = d.size := by
    simp only [writeDinode]
    have hcongr : ∀ m' : Mem, loadUint (storeAddrs m' (a + 12)
        (fun i => d.addrs (Fin.ofNat (NDIRECT + 1) i)) (NDIRECT + 1)) (a + 8) = loadUint m' (a + 8) :=
      fun m' => loadUint_congr fun x _ _ => storeAddrs_of_not_mem _ _ _ _ (by omega)
    rw [hcongr, loadUint_storeUint]
  have h6 : (fun i : Fin (NDIRECT + 1) => loadUint (writeDinode m a d) (a + 12 + 4 * i)) = d.addrs := by
    funext i
    simp only [writeDinode]
    rw [loadUint_storeAddrs _ _ _ _ i.isLt]
    congr 1
    exact Fin.ext (Nat.mod_eq_of_lt i.isLt)
  unfold readDinode
  rw [h1, h2, h3, h4, h5, h6]

/-- The dinodes are one after the other. -/
theorem dinode_eq (sb : Superblock) (i : Nat) : sb.dinode i = sb.inodestart * BSIZE + i * dinodeSize := by
  unfold Superblock.dinode Superblock.IBLOCK IPB BSIZE dinodeSize
  omega

theorem readDinode_writeDinode_ne (sb : Superblock) (m : Mem) {i j : Nat} (h : j ≠ i) (d : Dinode) :
    readDinode (writeDinode m (sb.dinode i) d) (sb.dinode j) = readDinode m (sb.dinode j) := by
  refine readDinode_congr fun x h1 h2 => writeDinode_of_not_mem _ _ ?_
  rw [dinode_eq] at *
  unfold dinodeSize at *
  omega

/-! ## The free map -/

/-- Address of the byte with the bit of block `b`. -/
def Superblock.bitByte (sb : Superblock) (b : Nat) : Nat := bitAddr sb b (b % BPB)

/-- Whether block `b` is marked in use. -/
def blockBit (sb : Superblock) (m : Mem) (b : Nat) : Bool := decide (m (sb.bitByte b) &&& bitMask b ≠ 0)

theorem bitByte_eq (sb : Superblock) (b : Nat) : sb.bitByte b = sb.bmapstart * BSIZE + b / 8 := by
  unfold Superblock.bitByte bitAddr Superblock.BBLOCK BPB BSIZE
  omega

/-- The bit of block `b` is in block `BBLOCK(b, sb)`. -/
theorem bitByte_div (sb : Superblock) (b : Nat) : sb.bitByte b / BSIZE = sb.BBLOCK b := by
  unfold Superblock.bitByte bitAddr Superblock.BBLOCK BPB BSIZE
  omega

theorem bitMask_mod (b : Nat) : bitMask (b % BPB) = bitMask b := by
  unfold bitMask BPB BSIZE
  congr 2
  omega

theorem bitMask_toBitVec (b : Nat) : (bitMask b).toBitVec = BitVec.twoPow 8 (b % 8) := by
  have h : ∀ k : Fin 8, ((1 : UInt8) <<< UInt8.ofNat k.val).toBitVec = BitVec.twoPow 8 k.val := by decide
  exact h ⟨b % 8, Nat.mod_lt b (by omega)⟩

theorem and_bitMask (x : UInt8) (b : Nat) : x &&& bitMask b ≠ 0 ↔ x.toBitVec.getLsbD (b % 8) = true := by
  have hlt : b % 8 < 8 := Nat.mod_lt b (by omega)
  constructor
  · intro h
    by_contra hbit
    refine h (UInt8.toBitVec_inj.1 ?_)
    refine BitVec.eq_of_getLsbD_eq fun k hk => ?_
    rw [UInt8.toBitVec_and, bitMask_toBitVec, BitVec.getLsbD_and, BitVec.getLsbD_twoPow]
    by_cases hkb : b % 8 = k
    · subst hkb
      simp at hbit
      simp [hbit]
    · simp [hkb]
  · intro h hzero
    have hbit : (x &&& bitMask b).toBitVec.getLsbD (b % 8) = false := by
      rw [hzero]
      simp
    rw [UInt8.toBitVec_and, bitMask_toBitVec, BitVec.getLsbD_and, BitVec.getLsbD_twoPow, h] at hbit
    simp [hlt] at hbit

theorem blockBit_eq (sb : Superblock) (m : Mem) (b : Nat) :
    blockBit sb m b = (m (sb.bmapstart * BSIZE + b / 8)).toBitVec.getLsbD (b % 8) := by
  unfold blockBit
  rw [bitByte_eq]
  by_cases h : (m (sb.bmapstart * BSIZE + b / 8)).toBitVec.getLsbD (b % 8) = true
  · rw [h, decide_eq_true_iff]
    exact (and_bitMask _ _).2 h
  · rw [Bool.not_eq_true] at h
    rw [h, decide_eq_false_iff_not]
    intro hne
    rw [(and_bitMask _ _).1 hne] at h
    cases h

variable {b : Nat}

theorem blockBit_congr (sb : Superblock) (h : m' (sb.bmapstart * BSIZE + b / 8) = m (sb.bmapstart * BSIZE + b / 8)) :
    blockBit sb m' b = blockBit sb m b := by
  rw [blockBit_eq, blockBit_eq, h]

section

variable (sb : Superblock) (m : Mem)

/-- A byte of the map in which only the bit of block `b` is new. -/
theorem blockBit_write {b : Nat} {x : UInt8} (v : Bool) (hx : ∀ i < 8, x.toBitVec.getLsbD i =
      if b % 8 = i then v else (m (sb.bitByte b)).toBitVec.getLsbD i) (b' : Nat) :
    blockBit sb (update m (sb.bitByte b) x) b' = if b' = b then v else blockBit sb m b' := by
  rw [bitByte_eq] at hx ⊢
  rw [blockBit_eq, blockBit_eq]
  by_cases hbyte : b' / 8 = b / 8
  · have hiff : (b % 8 = b' % 8) ↔ b' = b := by omega
    rw [hbyte, update_self, hx _ (Nat.mod_lt b' (by omega))]
    simp only [hiff]
  · rw [update_of_ne (by omega), if_neg fun e => hbyte (by rw [e])]

/-- The map with the bit of block `b` set. -/
theorem blockBit_set (b b' : Nat) : blockBit sb (update m (sb.bitByte b) (m (sb.bitByte b) ||| bitMask b)) b' =
      (decide (b' = b) || blockBit sb m b') := by
  rw [blockBit_write sb m true fun i hi => ?_]
  · by_cases h : b' = b <;> simp [h]
  · rw [UInt8.toBitVec_or, BitVec.getLsbD_or, bitMask_toBitVec, BitVec.getLsbD_twoPow]
    by_cases h : b % 8 = i <;> simp [h, hi]

/-- The map with the bit of block `b` cleared. -/
theorem blockBit_clear (b b' : Nat) :
    blockBit sb (update m (sb.bitByte b) (m (sb.bitByte b) &&& ~~~ (bitMask b))) b' =
      (decide (b' ≠ b) && blockBit sb m b') := by
  rw [blockBit_write sb m false fun i hi => ?_]
  · by_cases h : b' = b <;> simp [h]
  · rw [UInt8.toBitVec_and, UInt8.toBitVec_not, BitVec.getLsbD_and, BitVec.getLsbD_not, bitMask_toBitVec,
      BitVec.getLsbD_twoPow]
    by_cases h : b % 8 = i <;> simp [h, hi]

end

variable {sb : Superblock}

/-- `balloc` finds a block of the disk whose bit is clear. -/
theorem findFree_some {bi : Nat} (h : findFree sb m = some (b, bi)) :
    b + bi < sb.size ∧ sb.BBLOCK b = sb.BBLOCK (b + bi) ∧ bitAddr sb b bi = sb.bitByte (b + bi) ∧
      bitMask bi = bitMask (b + bi) ∧ blockBit sb m (b + bi) = false := by
  obtain ⟨b', hb', hfind⟩ := List.exists_of_findSome?_eq_some h
  obtain ⟨g, -, rfl⟩ := List.mem_map.1 hb'
  obtain ⟨bi', hbi, hpair⟩ := Option.map_eq_some_iff.1 hfind
  obtain ⟨rfl, rfl⟩ := Prod.mk.inj hpair
  have hlt : bi' < BPB := List.mem_range.1 (List.mem_of_find?_eq_some hbi)
  have hfree := List.find?_some hbi
  rw [Bool.and_eq_true, decide_eq_true_iff, decide_eq_true_iff] at hfree
  have hmod : (g * BPB + bi') % BPB = bi' := by
    rw [Nat.mul_comm, Nat.mul_add_mod, Nat.mod_eq_of_lt hlt]
  have hblock : sb.BBLOCK (g * BPB) = sb.BBLOCK (g * BPB + bi') := by
    unfold Superblock.BBLOCK
    rw [Nat.mul_comm, Nat.mul_add_div (by decide), Nat.div_eq_of_lt hlt, Nat.mul_div_cancel_left _ (by decide)]
    rfl
  have haddr : bitAddr sb (g * BPB) bi' = sb.bitByte (g * BPB + bi') := by
    unfold Superblock.bitByte bitAddr
    rw [hblock, hmod]
  have hmask : bitMask bi' = bitMask (g * BPB + bi') := by
    rw [← bitMask_mod (g * BPB + bi'), hmod]
  refine ⟨hfree.1, hblock, haddr, hmask, ?_⟩
  unfold blockBit
  rw [← haddr, ← hmask, hfree.2]
  rfl

/-- What the inner loop of `balloc` tests is the bit of a block. -/
theorem bit_of_group (sb : Superblock) (m : Mem) (c : Nat) :
    m (bitAddr sb (c / BPB * BPB) (c % BPB)) &&& bitMask (c % BPB) = 0 ↔ blockBit sb m c = false := by
  have haddr : bitAddr sb (c / BPB * BPB) (c % BPB) = sb.bitByte c := by
    unfold Superblock.bitByte bitAddr Superblock.BBLOCK
    rw [Nat.mul_div_cancel _ (by decide)]
  rw [haddr, bitMask_mod]
  simp [blockBit]

/-- The block that `balloc` finds is the first one. -/
theorem findFree_first {bi c : Nat} (h : findFree sb m = some (b, bi)) (hc : c < b + bi) : blockBit sb m c = true := by
  have hlt := (findFree_some h).1
  obtain ⟨l1, a, l2, hl, hfind, hbefore⟩ := List.findSome?_eq_some_iff.1 h
  obtain ⟨bi', hbi, hpair⟩ := Option.map_eq_some_iff.1 hfind
  obtain ⟨rfl, rfl⟩ := Prod.mk.inj hpair
  have hmod : c % BPB < BPB := Nat.mod_lt c (by decide)
  have hdiv : c / BPB * BPB + c % BPB = c := Nat.div_add_mod' c BPB
  by_contra hbit
  have hzero := (bit_of_group sb m c).2 (by simpa using hbit)
  -- the group of `c` is an earlier one, or the same one with an earlier bit
  have hgroup : c / BPB * BPB ∈ l1 ++ a :: l2 := by
    rw [← hl]
    refine List.mem_map.2 ⟨c / BPB, List.mem_range.2 ?_, rfl⟩
    rw [Nat.lt_div_iff_mul_lt (by decide)]
    omega
  have hsorted : (l1 ++ a :: l2).Pairwise (· < ·) := by
    rw [← hl]
    exact List.pairwise_lt_range.map _ fun _ _ hlt => Nat.mul_lt_mul_of_pos_right hlt (by decide)
  rcases List.mem_append.1 hgroup with hmem | hmem
  · have hnone := hbefore _ hmem
    rw [Option.map_eq_none_iff, List.find?_eq_none] at hnone
    refine hnone _ (List.mem_range.2 hmod) ?_
    simp only [hdiv, hzero, Bool.and_eq_true, decide_eq_true_eq, and_true]
    omega
  · have hfirst := (List.find?_range_eq_some.1 hbi).2.2
    have hle : a ≤ c / BPB * BPB := by
      rcases List.mem_cons.1 hmem with heq | hmem
      · exact heq.ge
      · exact (List.rel_of_pairwise_cons (List.pairwise_append.1 hsorted).2.1 hmem).le
    have heq : a = c / BPB * BPB := by
      obtain ⟨g, -, rfl⟩ := List.mem_map.1 (hl ▸ List.mem_append_right l1 (.head _))
      have hg : bi' < BPB := List.mem_range.1 (List.mem_of_find?_eq_some hbi)
      have hlo := (Nat.mul_le_mul_right_iff (by decide)).1 hle
      have hhi : c / BPB < g + 1 := by
        rw [Nat.div_lt_iff_lt_mul (by decide), Nat.add_mul]
        omega
      rw [show g = c / BPB by omega]
    subst heq
    have hno := hfirst (c % BPB) (by omega)
    simp [hdiv, hzero] at hno
    omega

/-- Every block is in use. -/
def Full (sb : Superblock) (m : Mem) : Prop := ∀ b, b < sb.size → blockBit sb m b = true

/-- `balloc` finds no block only if there is none. -/
theorem findFree_none (h : findFree sb m = none) : Full sb m := by
  intro b hb
  have hdiv : b / BPB * BPB + b % BPB = b := Nat.div_add_mod' b BPB
  have hmod : b % BPB < BPB := Nat.mod_lt b (by decide)
  have hgroup : b / BPB * BPB ∈ (List.range ((sb.size + BPB - 1) / BPB)).map (· * BPB) := by
    refine List.mem_map.2 ⟨b / BPB, List.mem_range.2 ?_, rfl⟩
    rw [Nat.lt_div_iff_mul_lt (by decide)]
    omega
  have hnone := List.findSome?_eq_none_iff.1 h _ hgroup
  rw [Option.map_eq_none_iff, List.find?_eq_none] at hnone
  have hbit := hnone (b % BPB) (List.mem_range.2 hmod)
  rw [Bool.and_eq_true, decide_eq_true_iff, decide_eq_true_iff, hdiv, bit_of_group] at hbit
  simpa using fun hzero => hbit ⟨hb, hzero⟩

/-! ## Regions -/

theorem bmapstart_le_bitByte (sb : Superblock) (b : Nat) : sb.bmapstart * BSIZE ≤ sb.bitByte b := by
  rw [bitByte_eq]
  omega

namespace Superblock.Layout

variable {sb : Superblock} (h : sb.Layout)
include h

theorem nmeta_pos : 0 < sb.nmeta := by
  have h1 := h.bitmap
  have h2 := h.size_pos
  unfold BPB BSIZE at h1
  omega

/-- A dinode is in front of the free map. -/
theorem dinode_lt {i : Nat} (hi : i < sb.ninodes) : sb.dinode i + dinodeSize ≤ sb.bmapstart * BSIZE := by
  have h1 := h.inodes
  rw [dinode_eq]
  unfold dinodeSize BSIZE IPB at *
  omega

/-- A byte of the free map is in front of the data blocks. -/
theorem bitByte_lt (hb : b < sb.size) : sb.bitByte b < sb.nmeta * BSIZE := by
  have h1 := h.bitmap
  rw [bitByte_eq]
  unfold BPB BSIZE at *
  omega

theorem bmapstart_le : sb.bmapstart ≤ sb.nmeta := Nat.le_trans (Nat.le_add_right ..) h.bitmap

end Superblock.Layout

end Xv6.Fs
