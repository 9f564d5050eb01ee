import Xv6.Fs.CreateCalls

/-!
# Calls that fail are undone

A file system is consistent if no directory entry dangles and link counts are the numbers of entries. Then `sys_link`,
`sys_unlink`, `sys_mkdir` and `sys_mknod`, wherever they fail, leave the tree of inodes as it was, and every block in use
belongs to an inode of that tree.
-/

set_option autoImplicit false

namespace Xv6.Fs

open Xv6.Base

/-! ## Consistent file systems -/

/-- What stands on the disk. -/
def diskTree (sb : Superblock) (m : Mem) : Tree := treeOf sb m fun i => readDinode m (sb.dinode i)

/-- Whether a slot of directory `j` names inode `i`; the entry "." of `i` itself is not counted. -/
def slotNames (j i : Nat) (o : Option (List UInt8 × Nat)) : Bool :=
  o.any fun p => decide (p.2 = i ∧ ¬ (j = i ∧ p.1 = nameKey dot))

/-- The number of entries of directory `j` that name inode `i`. -/
def Node.entries (nd : Node) (j i : Nat) : Nat :=
  if nd.type = T_DIR then (dirSlots nd.data).countP (slotNames j i) else 0

/-- The number of entries that name inode `i`. -/
def entryCount (sb : Superblock) (T : Tree) (i : Nat) : Nat :=
  ∑ j ∈ Finset.range sb.ninodes, (T j).elim 0 fun nd => nd.entries j i

/-- No entry dangles, and link counts are numbers of entries. The root directory has an entry, and inodes in use are not
free. -/
structure Consistent (sb : Superblock) (cnt : Fin NINODE → Nat) (s : State) (T : Tree) : Prop where
  root : T ROOTINO ≠ none ∧ entryCount sb T ROOTINO ≠ 0
  held : ∀ l, 0 < cnt l → T (s.inode l).inum ≠ none
  entry : ∀ j nd, T j = some nd → nd.type = T_DIR → ∀ e key a, Slots.Holds (dirSlots nd.data) e key a → T a ≠ none
  links : ∀ i nd, T i = some nd → nd.nlink.toInt = entryCount sb T i

section Consistency

variable {sb : Superblock} {N n : Nat} {cnt : Fin NINODE → Nat} {L : Finset (Fin NINODE)} {T : Tree} {s : State}

theorem At.diskTree_eq (h : At sb N n cnt L T s) : T = diskTree sb s.data := by
  obtain ⟨v, hinv, rfl⟩ := h.inv
  funext i
  unfold diskTree treeOf
  split_ifs with hi
  · exact congrArg (Dinode.node s.data) (hinv.image.disk i hi).symm
  · rfl

/-- Every data block in use belongs to an inode of the tree. -/
theorem At.block_owner (h : At sb N n cnt L T s) {b : Nat} (hmeta : sb.nmeta ≤ b) (hb : b < sb.size)
    (hused : blockBit sb s.data b = true) :
    ∃ i j, T i ≠ none ∧ j < NSLOT ∧ (readDinode s.data (sb.dinode i)).slot s.data j = b := by
  obtain ⟨v, hinv, rfl⟩ := h.inv
  rcases (hinv.image.owned.marks b hb).1 hused with hlt | hmem | ⟨⟨i, j⟩, hp⟩
  · omega
  · exact absurd hmem (Finset.notMem_empty b)
  · have hpos := hinv.image.owned.pos
    unfold held at hp
    split_ifs at hp with hc
    · obtain ⟨hi, htype, hj⟩ := hc
      refine ⟨i, j, ?_, hj, ?_⟩
      · rw [treeOf_eq hi, Ne, Dinode.node_eq_none_iff]
        exact htype
      · rw [hinv.image.disk i hi]
        exact hp
    · omega

/-- An entry is counted, unless it is the "." of the inode. -/
theorem entryCount_pos {j a e : Nat} {nd : Node} {key : List UInt8} (hj : j < sb.ninodes) (hnd : T j = some nd)
    (hdir : nd.type = T_DIR) (ha : Slots.Holds (dirSlots nd.data) e key a) (hself : ¬ (j = a ∧ key = nameKey dot)) :
    0 < entryCount sb T a := by
  have hterm : 0 < (T j).elim 0 fun nd => nd.entries j a := by
    rw [hnd]
    show 0 < nd.entries j a
    unfold Node.entries
    rw [if_pos hdir, List.countP_pos_iff]
    refine ⟨_, List.mem_of_getElem? ha, ?_⟩
    unfold slotNames
    rw [Option.any_some, decide_eq_true_iff]
    exact ⟨rfl, hself⟩
  exact Nat.lt_of_lt_of_le hterm
    (Finset.single_le_sum (fun i _ => Nat.zero_le ((T i).elim 0 fun nd => nd.entries i a)) (Finset.mem_range.2 hj))

theorem Consistent.linked (h : Consistent sb cnt s T) {i : Nat} (hi : T i ≠ none) (hcount : 0 < entryCount sb T i) :
    ∃ nd, T i = some nd ∧ nd.nlink ≠ 0 := by
  obtain ⟨nd, hnd⟩ := Option.ne_none_iff_exists'.1 hi
  refine ⟨nd, hnd, fun h0 => ?_⟩
  have hlinks := h.links i nd hnd
  rw [h0] at hlinks
  have hzero : (0 : Int16).toInt = 0 := rfl
  omega

/-- In a consistent file system a walk frees nothing. -/
theorem Consistent.tidy (h : Consistent sb cnt s T) (hat : At sb N n cnt L T s) : Tidy cnt s T where
  root := ⟨h.root.1, .inl (h.linked h.root.1 (Nat.pos_of_ne_zero h.root.2))⟩
  held := h.held
  entry := by
    intro j nd hj hdir halive e key a ha
    have hne := h.entry j nd hj hdir e key a ha
    refine ⟨hne, ?_⟩
    by_cases hself : j = a ∧ key = nameKey dot
    · rw [← hself.1]
      exact halive
    · exact .inl (h.linked hne (entryCount_pos (hat.lt_ninodes hj) hj hdir ha hself))

end Consistency

/-! ## The calls -/

/-- Nothing is left of a call: the tree on the disk and the references are as before, and every data block in use belongs
to an inode of the tree. -/
structure Undone (sb : Superblock) (n : Nat) (cnt : Fin NINODE → Nat) (s t : State) : Prop where
  tree : diskTree sb t.data = diskTree sb s.data
  refs : ∀ l, (t.inode l).ref = (s.inode l).ref
  blocks : ∀ b, sb.nmeta ≤ b → b < sb.size → blockBit sb t.data b = true →
    ∃ i j, diskTree sb s.data i ≠ none ∧ j < NSLOT ∧ (readDinode t.data (sb.dinode i)).slot t.data j = b
  shows : At sb sb.ninodes n cnt ∅ (diskTree sb s.data) t

section Calls

variable {sb : Superblock} {n : Nat} {cnt : Fin NINODE → Nat} {T : Tree} {s t : State} {cwd : Fin NINODE}

theorem Undone.of_at (h : At sb sb.ninodes n cnt ∅ T s) (h' : At sb sb.ninodes n cnt ∅ T t) : Undone sb n cnt s t := by
  have hT := h.diskTree_eq
  refine ⟨h'.diskTree_eq.symm.trans hT, fun l => (h'.ref l).trans (h.ref l).symm, fun b hmeta hb hused => ?_, ?_⟩
  · rw [← hT]
    exact h'.block_owner hmeta hb hused
  · rw [← hT]
    exact h'

variable (hsb : sb.Layout)
include hsb

/-- In a consistent file system, a call of `sys_link`, `sys_unlink`, `sys_mkdir` or `sys_mknod` that returns -1 has left
nothing behind, whatever made it fail. -/
theorem failed_calls_undone (h : At sb sb.ninodes n cnt ∅ T s) (hcons : Consistent sb cnt s T) (hcwd : 0 < cnt cwd) :
    (∀ old new, sysLink sb cwd old new s = .ok (-1, t) → Undone sb n cnt s t) ∧
    (∀ path, sysUnlink sb cwd path s = .ok (-1, t) → Undone sb n cnt s t) ∧
    (∀ path, sysMkdir sb cwd path s = .ok (-1, t) → Undone sb n cnt s t) ∧
    (∀ path major minor, sysMknod sb cwd path major minor s = .ok (-1, t) → Undone sb n cnt s t) := by
  have ht := hcons.tidy h
  have hdone : ∀ {T' : Tree} {P : Prop}, At sb sb.ninodes n cnt ∅ T' t →
      ((-1 : Int) = -1 ∧ T' = T) ∨ ((-1 : Int) = 0 ∧ P) → Undone sb n cnt s t := by
    rintro T' P hat (⟨-, rfl⟩ | ⟨h0, -⟩)
    · exact Undone.of_at h hat
    · cases h0
  refine ⟨fun old new hrun => ?_, fun path hrun => ?_, fun path hrun => ?_, fun path major minor hrun => ?_⟩
  · obtain ⟨T', hat, -, htidy⟩ := (sysLink_at hsb h hcwd old new).post _ _ hrun
    exact hdone hat (htidy ht)
  · obtain ⟨T', hat, -, htidy⟩ := (sysUnlink_at hsb h hcwd path).post _ _ hrun
    exact hdone hat (htidy ht)
  · obtain ⟨T', hat, -, htidy⟩ := (sysMkdir_at hsb h hcwd path).post _ _ hrun
    exact hdone hat (htidy ht)
  · obtain ⟨T', hat, -, htidy⟩ := (sysMknod_at hsb h hcwd path major minor).post _ _ hrun
    exact hdone hat (htidy ht)

end Calls

/-- The entries of the initial file system are those of the root directory. -/
theorem mkfs_entryCount (i : Nat) : entryCount Superblock.mkfs (treeOf Superblock.mkfs mkfsData mkfsDinodes) i =
    ([some (nameKey dot, 1), some (nameKey dotdot, 1), some (nameKey [102], 2)] ++ List.replicate 61 none).countP
      (slotNames ROOTINO i) := by
  unfold entryCount
  have hroot : ROOTINO ∈ Finset.range Superblock.mkfs.ninodes := by decide
  rw [Finset.sum_eq_single_of_mem ROOTINO hroot]
  · obtain ⟨nd, hnode, hdir, -, hdata⟩ := exists_node (m := mkfsData) (v := mkfsDinodes) (Finset.mem_range.1 hroot)
      (by decide)
    rw [hnode]
    show nd.entries ROOTINO i = _
    unfold Node.entries
    rw [if_pos (show nd.type = T_DIR from hdir), hdata, mkfs_slots]
  · intro j hj hne
    rw [treeOf_eq (Finset.mem_range.1 hj)]
    cases hnode : (mkfsDinodes j).node mkfsData with
    | none => rfl
    | some nd =>
      have htype := (Dinode.node_fields hnode).1
      refine if_neg fun hdir => ?_
      rw [hdir] at htype
      rcases mkfs_type (by rw [← htype]; decide) with rfl | rfl
      · exact hne rfl
      · exact absurd htype (by decide)

theorem mkfs_consistent (ops : Nat) (locked : Bool) :
    Consistent Superblock.mkfs mkfsCnt (mkfsState ops locked) (treeOf Superblock.mkfs mkfsData mkfsDinodes) := by
  have ht := mkfs_tidy ops locked
  refine ⟨⟨ht.root.1, ?_⟩, ht.held, fun j nd hj hdir e key a ha => ?_, fun i nd hi => ?_⟩
  · rw [mkfs_entryCount]
    decide
  · refine (ht.entry j nd hj hdir (.inr ⟨⟨0, by decide⟩, by decide, ?_⟩) e key a ha).1
    rw [treeOf_eq (lt_of_treeOf hj)] at hj
    have htype := (Dinode.node_fields hj).1
    rw [hdir] at htype
    rcases mkfs_type (by rw [← htype]; decide) with rfl | rfl
    · rfl
    · exact absurd htype (by decide)
  · rw [mkfs_entryCount]
    have hlt := lt_of_treeOf hi
    rw [treeOf_eq hlt] at hi
    have htype : (mkfsDinodes i).type ≠ 0 := fun h0 => by
      rw [Dinode.node_eq_none_iff.2 h0] at hi
      cases hi
    rw [(Dinode.node_fields hi).2.1]
    rcases mkfs_type htype with rfl | rfl
    · decide
    · decide

theorem failed_calls_undone_mkdir :
    ∃ t, sysMkdir Superblock.mkfs ⟨0, by decide⟩ (some [slash, 102]) (mkfsState 0 false) = .ok (-1, t) ∧
      Undone Superblock.mkfs 0 mkfsCnt (mkfsState 0 false) t := by
  have hrun : (sysMkdir Superblock.mkfs ⟨0, by decide⟩ (some [slash, 102]) (mkfsState 0 false)).toOption.map Prod.fst =
      some (-1) := by
    decide +kernel
  obtain ⟨⟨r, t⟩, hrun, hr⟩ := Option.map_eq_some_iff.1 hrun
  have hok := ok_of_toOption hrun
  have hr' : r = -1 := hr
  subst hr'
  exact ⟨t, hok, (failed_calls_undone Superblock.mkfs_layout (mkfs_unlocked 0) (mkfs_consistent 0 false)
    (by decide)).2.2.1 _ hok⟩

end Xv6.Fs
