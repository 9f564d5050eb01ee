import Xv6.Fs.LinkCalls

/-!
# `create`, `sys_mkdir` and `sys_mknod`

`create` allocates an inode and enters it into its parent directory. Where something fails on the way, the new inode is
given back and with it everything it had got; in a tidy tree nothing is left of the call.
-/

set_option autoImplicit false

namespace Xv6.Fs

open Function Xv6.Base

/-! ## The new inode -/

/-- The contents of a new directory `i` with parent `d`: "." and "..", entered one after the other. -/
def newDirData (i d : Nat) : List UInt8 :=
  let first := overlay [] (Slots.firstFree (dirSlots []) * direntSize) (dirent i dot)
  overlay first (Slots.firstFree (dirSlots first) * direntSize) (dirent d dotdot)

/-- What `create` makes: inode `i`, and its entry in directory `d`. -/
def createdTree (T : Tree) (i d : Nat) (dnd : Node) (name : List UInt8) (type major minor : Int16) : Tree :=
  update
    (update T i (some ⟨type, major, minor, 1, if type = T_DIR then newDirData i d else []⟩)) d
    (some { dnd with
      nlink := if type = T_DIR then dnd.nlink + 1 else dnd.nlink
      data := overlay dnd.data (Slots.firstFree (dirSlots dnd.data) * direntSize) (dirent i name) })

/-- A new inode `i` was entered into the tree. -/
def CreateMade (cnt : Fin NINODE → Nat) (s : State) (T : Tree) (cwd : Fin NINODE) (path : List UInt8)
    (type major minor : Int16) (i : Nat) (T' : Tree) : Prop :=
  ∃ d dnd name, T.walk true (startInum s cwd path) (components path) [] = some (d, name) ∧ T d = some dnd ∧
    dnd.type = T_DIR ∧ Slots.lookup (dirSlots dnd.data) (nameKey name) = none ∧ T i = none ∧
    Reclaimed cnt d (createdTree T i d dnd name type major minor) s T'

section Create

variable {sb : Superblock} {n : Nat} {cnt : Fin NINODE → Nat} {T : Tree} {s : State} {cwd dp ip : Fin NINODE}

theorem Alive.update_none {i j : Nat} (h : Alive cnt s T j) (hne : j ≠ i) : Alive cnt s (update T i none) j := by
  unfold Alive at h ⊢
  rwa [update_of_ne hne]

variable (hsb : sb.Layout)
include hsb

section

variable (h : At sb sb.ninodes (n + 1) (bump (bump cnt dp) ip) (insert ip (insert dp ∅)) T s) (hne : ip ≠ dp) (hiv : (s.inode ip).valid = true)
include h hne hiv

/-- The new inode is given back, and so is the directory. -/
theorem createFail_at :
    Meets FsSafe (createFail sb ip dp) s fun r t => r = none ∧ ∃ T', At sb sb.ninodes (n + 1) cnt ∅ T' t ∧
      Stable cnt s t ∧ (cnt ip = 0 → Alive cnt s T (s.inode dp).inum → T' = update T (s.inode ip).inum none) := by
  have hd : 0 < bump (bump cnt dp) ip dp := bump_pos ip (bump_self_pos ..)
  have hi := bump_self_pos (bump cnt dp) ip
  have hinums : (s.inode dp).inum ≠ (s.inode ip).inum := fun heq => hne (h.inum_inj hi hd heq.symm)
  obtain ⟨nd, hc⟩ := h.copy hi hiv
  refine .step rfl (.bind (iupdate_at hsb h (Nat.succ_pos n) hi hiv hc _ _ _) ?_)
  rintro - t ⟨hat, hstable⟩
  have hiinum := hstable.inum hi
  refine .bind ((iunlockput_at hsb hat (by simpa using hne) (Nat.succ_pos n)).mono fun _ he => he.1) ?_
  rintro - u ⟨T1, hat1, hstable1, hdrop⟩
  have hd' := bump_self_pos cnt dp
  have hst1 : Stable (bump cnt dp) s u := hstable.unbump.trans hstable1
  refine .bind (iunlockput_safe hsb hat1 (Finset.notMem_empty dp)) ?_
  rintro - w ⟨T', hat', hstable', -, hsame⟩
  refine .pure ⟨rfl, T', hat', hst1.unbump.trans hstable', fun hzero halive => ?_⟩
  have hzero' : bump cnt dp ip = 0 := by
    rw [bump_of_ne cnt hne]
    exact hzero
  -- the link count is 0 and this was the only reference, so the inode was freed
  have hfreed : T1 = update T (s.inode ip).inum none := by
    rw [hiinum] at hdrop
    cases hdrop with
    | kept hkept _ _ => exact absurd rfl (hkept hzero' (hstable.valid hi hiv) _ (update_self ..))
    | freed _ _ _ _ => rw [update_idem]
  subst hfreed
  rw [hst1.inum hd'] at hsame
  exact hsame ((hst1.unbump.alive.2 halive).update_none hinums)

/-- The new inode is entered into the directory, or given back. -/
theorem createLink_at {dnd : Node}
    (hdv : (s.inode dp).valid = true) (hdc : Copy sb T s dp dnd)
    (hdir : dnd.type = T_DIR) (name : List UInt8) (type : Int16) :
    Meets FsSafe (createLink sb ip dp name type (s.inode ip).inum) s fun r t => Stable cnt s t ∧ ∃ T',
      (r = none ∧ At sb sb.ninodes (n + 1) cnt ∅ T' t ∧
        (cnt ip = 0 → Alive cnt s T (s.inode dp).inum → T' = update T (s.inode ip).inum none)) ∨
      (r = some ip ∧ At sb sb.ninodes (n + 1) (bump cnt ip) (insert ip ∅) T' t ∧ Stable (bump cnt ip) s t ∧
        Slots.lookup (dirSlots dnd.data) (nameKey name) = none ∧
        Reclaimed cnt (s.inode dp).inum (update T (s.inode dp).inum (some { dnd with
          nlink := if type = T_DIR then dnd.nlink + 1 else dnd.nlink
          data := overlay dnd.data (Slots.firstFree (dirSlots dnd.data) * direntSize) (dirent (s.inode ip).inum name) }))
          s T') := by
  have hd : 0 < bump (bump cnt dp) ip dp := bump_pos ip (bump_self_pos ..)
  have hi := bump_self_pos (bump cnt dp) ip
  refine .bind ((dirlink_at hsb h (Nat.succ_pos n) hd hdv hdc hdir name (h.inum_mod_lt hi)).mono
    fun _ he => he.safe) ?_
  rintro r t ⟨hstable, ⟨rfl, hat, -⟩ | ⟨rfl, hnone, -, hat⟩⟩
  · refine .ite (fun _ => ?_) fun hneg => absurd (by decide) hneg
    have hst : Stable cnt s t := hstable.unbump.unbump
    refine (createFail_at hsb hat hne (hstable.valid hi hiv)).weaken ?_
    rintro r u ⟨rfl, T', hat', hstable', hback⟩
    rw [hstable.inum hi, hstable.inum hd, hst.alive] at hback
    exact ⟨hst.trans hstable', T', .inl ⟨rfl, hat', hback⟩⟩
  · refine .ite (fun hneg => absurd hneg (by decide)) fun _ => ?_
    have hdinum := hstable.inum hd
    have hdv' := hstable.valid hd hdv
    rw [bump_comm] at hstable
    rw [← bind_assoc]
    refine .bind (relinkPut_at hsb (· + 1) hat hne hdv' (hat.copy_of hd hdv' hdinum (update_self ..))) ?_
    rintro - w ⟨T', hat', hstable', hrec⟩
    rw [hdinum, update_idem] at hrec
    have hst' : Stable (bump cnt ip) s w := hstable.unbump.trans hstable'
    exact .pure ⟨hst'.unbump, T', .inr ⟨rfl, hat', hst', hnone, hrec.stable hstable.unbump.unbump⟩⟩

end

/-- What the part of `create` for a new name has done: nothing that is left in a tidy tree, or a new inode, locked. -/
def NewDone (sb : Superblock) (n : Nat) (cnt : Fin NINODE → Nat) (s : State) (T : Tree) (d : Nat) (dnd : Node)
    (name : List UInt8) (type major minor : Int16) (r : Option (Fin NINODE)) (t : State) : Prop :=
  Stable cnt s t ∧ ∃ T',
    (r = none ∧ At sb sb.ninodes (n + 1) cnt ∅ T' t ∧ (Tidy cnt s T → Alive cnt s T d → T' = T)) ∨
    ∃ ip, r = some ip ∧ At sb sb.ninodes (n + 1) (bump cnt ip) (insert ip ∅) T' t ∧ (t.inode ip).valid = true ∧
      (t.inode ip).di.type = type ∧ T (t.inode ip).inum = none ∧
      Slots.lookup (dirSlots dnd.data) (nameKey name) = none ∧
      Reclaimed cnt d (createdTree T (t.inode ip).inum d dnd name type major minor) s T'

theorem createNew_at {dnd : Node} (h : At sb sb.ninodes (n + 1) (bump cnt dp) (insert dp ∅) T s)
    (hdv : (s.inode dp).valid = true) (hdc : Copy sb T s dp dnd) (hdir : dnd.type = T_DIR) (name : List UInt8)
    {type : Int16} (htype : type ≠ 0) (major minor : Int16) : Meets FsSafe (createNew sb dp name type major minor) s
      (NewDone sb n cnt s T (s.inode dp).inum dnd name type major minor) := by
  have hd := bump_self_pos cnt dp
  refine .step (getInode_eq dp s) ?_
  rw [hdc.dev]
  refine .bind (ialloc_at hsb h (Nat.le_refl _) (Nat.succ_pos n) htype) ?_
  rintro r t (⟨rfl, rfl⟩ | ⟨ip, i, rfl, -, hi, hfree, hinum, hat, hstable⟩)
  · -- no inode is free
    refine .bind (iunlockput_safe hsb h (Finset.notMem_empty dp)) ?_
    rintro - u ⟨T', hat', hstable', -, hsame⟩
    exact .pure ⟨hstable', T', .inl ⟨rfl, hat', fun _ halive => hsame halive⟩⟩
  have hik := bump_self_pos (bump cnt dp) ip
  have hdk : 0 < bump (bump cnt dp) ip dp := bump_pos ip hd
  refine .bind (ilock_safe hat hik) ?_
  rintro - t1 ⟨hat1, hstable1, hvalid1, hnotin, -⟩
  have hne : ip ≠ dp := fun heq => hnotin (by rw [heq]; exact Finset.mem_insert_self dp ∅)
  have hinum1 : (t1.inode ip).inum = i := (hstable1.inum hik).trans hinum
  have hc1 := hat1.copy_of hik hvalid1 hinum1 (update_self ..)
  refine .step rfl (.bind (iupdate_at hsb hat1 (Nat.succ_pos n) hik hvalid1 hc1 _ _ _) ?_)
  rintro - t2 ⟨hat2, hstable2⟩
  rw [hinum1, update_idem] at hat2
  have hstk : Stable (bump (bump cnt dp) ip) t t2 := hstable1.trans hstable2
  have hst2 : Stable (bump cnt dp) s t2 := hstable.trans hstk.unbump
  have hinum2 : (t2.inode ip).inum = i := (hstk.inum hik).trans hinum
  have hvalid2 := hstable2.valid hik hvalid1
  have hdne : (s.inode dp).inum ≠ i := by
    intro heq
    have hnode := hdc.node
    rw [heq, hfree] at hnode
    cases hnode
  have hzero : Tidy cnt s T → cnt ip = 0 := by
    intro ht
    by_contra hpos
    have hpos' : 0 < cnt ip := Nat.pos_of_ne_zero hpos
    refine ht.held ip hpos' ?_
    rw [← hstable.unbump.inum hpos', hinum]
    exact hfree
  -- everything that was done to the new inode is undone
  have hfail : ∀ {u : State} {nd : Node}, At sb sb.ninodes (n + 1) (bump (bump cnt dp) ip) (insert ip (insert dp ∅))
      (update T i (some nd)) u → Stable (bump (bump cnt dp) ip) t2 u → ∀ {r : Option (Fin NINODE)} {w : State}
      {T' : Tree}, Stable cnt u w → r = none → At sb sb.ninodes (n + 1) cnt ∅ T' w →
      (cnt ip = 0 → Alive cnt u (update T i (some nd)) (u.inode dp).inum →
        T' = update (update T i (some nd)) (u.inode ip).inum none) →
      NewDone sb n cnt s T (s.inode dp).inum dnd name type major minor r w := by
    intro u nd hat hst r w T' hstable' hr hat' hback
    have hst' : Stable cnt s u := hst2.unbump.trans hst.unbump.unbump
    refine ⟨hst'.trans hstable', T', .inl ⟨hr, hat', fun ht halive => ?_⟩⟩
    rw [hst.inum hik, hinum2, update_idem, hst.inum hdk, hst2.inum hd] at hback
    rw [hback (hzero ht) ?_, ← hfree]
    · exact update_eq_self ..
    · unfold Alive at halive ⊢
      rw [hst'.inUse, update_of_ne hdne]
      exact halive
  have hlink : ∀ {u : State}, At sb sb.ninodes (n + 1) (bump (bump cnt dp) ip) (insert ip (insert dp ∅))
      (update T i (some ⟨type, major, minor, 1, if type = T_DIR then newDirData i (s.inode dp).inum else []⟩)) u →
      Stable (bump (bump cnt dp) ip) t2 u → Meets FsSafe (createLink sb ip dp name type (t2.inode ip).inum) u
        (NewDone sb n cnt s T (s.inode dp).inum dnd name type major minor) := by
    intro u hat hst
    have hdv' := hst.valid hdk (hst2.valid hd hdv)
    have hiv' := hst.valid hik hvalid2
    have hdinum : (u.inode dp).inum = (s.inode dp).inum := (hst.inum hdk).trans (hst2.inum hd)
    have hiinum := hst.inum hik
    have hst' : Stable cnt s u := hst2.unbump.trans hst.unbump.unbump
    have hdc' := hat.copy_of hdk hdv' hdinum ((update_of_ne hdne ..).trans hdc.node)
    have hic' := hat.copy_of hik hiv' (hiinum.trans hinum2) (update_self ..)
    rw [← hiinum]
    refine (createLink_at hsb hat hne hiv' hdv' hdc' hdir name type).weaken ?_
    rintro r w ⟨hstable', T', ⟨hr, hat', hback⟩ | ⟨rfl, hat', hstk', hnone, hrec⟩⟩
    · exact hfail hat hst hstable' hr hat' hback
    · have hik' := bump_self_pos cnt ip
      have hiinum' : (w.inode ip).inum = i := (hstk'.inum hik').trans (hiinum.trans hinum2)
      rw [hdinum, hiinum, hinum2] at hrec
      refine ⟨hst'.trans hstable', T', .inr ⟨ip, rfl, hat', hstk'.valid hik' hiv', ?_, ?_, hnone, ?_⟩⟩
      · rw [((hstk' ip hik').2 hiv').2, hic'.type]
      · rw [hiinum']
        exact hfree
      · rw [hiinum']
        exact hrec.stable hst'
  refine .step (getInode_eq ip t2) (.ite (fun hisdir => ?_) fun hisfile => ?_)
  swap
  · refine hlink ?_ (.refl _ t2)
    rw [if_neg hisfile]
    exact hat2
  -- "." and ".." of a new directory
  have hc2 := hat2.copy_of hik hvalid2 hinum2 (update_self ..)
  refine .bind ((dirlink_at hsb hat2 (Nat.succ_pos n) hik hvalid2 hc2 hisdir dot (hat2.inum_mod_lt hik)).mono
    fun _ he => he.safe) ?_
  rintro r t3 ⟨hstable3, ⟨rfl, hat3, -⟩ | ⟨rfl, -, -, hat3⟩⟩
  · refine .ite (fun _ => ?_) fun hneg => absurd (by decide) hneg
    refine (createFail_at hsb hat3 hne (hstable3.valid hik hvalid2)).weaken ?_
    rintro r u ⟨hr, T', hat', hstable', hback⟩
    exact hfail hat3 hstable3 hstable' hr hat' hback
  refine .ite (fun hneg => absurd hneg (by decide)) fun _ => ?_
  have hvalid3 := hstable3.valid hik hvalid2
  have hinum3 : (t3.inode ip).inum = i := (hstable3.inum hik).trans hinum2
  rw [hinum2, update_idem] at hat3
  have hc3 := hat3.copy_of hik hvalid3 hinum3 (update_self ..)
  refine .bind ((dirlink_at hsb hat3 (Nat.succ_pos n) hik hvalid3 hc3 hisdir dotdot (h.inum_mod_lt hd)).mono
    fun _ he => he.safe) ?_
  rintro r t4 ⟨hstable4, ⟨rfl, hat4, -⟩ | ⟨rfl, -, -, hat4⟩⟩
  · refine .ite (fun _ => ?_) fun hneg => absurd (by decide) hneg
    refine (createFail_at hsb hat4 hne (hstable4.valid hik hvalid3)).weaken ?_
    rintro r u ⟨hr, T', hat', hstable', hback⟩
    exact hfail hat4 (hstable3.trans hstable4) hstable' hr hat' hback
  refine .ite (fun hneg => absurd hneg (by decide)) fun _ => ?_
  refine hlink ?_ (hstable3.trans hstable4)
  rw [hinum3, update_idem] at hat4
  rw [if_pos hisdir]
  exact hat4

/-- What `create` has done: nothing that is left in a tidy tree, or the inode it returns is locked and was there
already, or is new. -/
def CreateDone (sb : Superblock) (n : Nat) (cnt : Fin NINODE → Nat) (s : State) (T : Tree) (cwd : Fin NINODE)
    (path : List UInt8) (type major minor : Int16) (r : Option (Fin NINODE)) (t : State) : Prop :=
  Stable cnt s t ∧ ∃ T', (r = none ∧ At sb sb.ninodes (n + 1) cnt ∅ T' t ∧ (Tidy cnt s T → T' = T)) ∨
    ∃ ip, r = some ip ∧ At sb sb.ninodes (n + 1) (bump cnt ip) (insert ip ∅) T' t ∧ (t.inode ip).valid = true ∧
      ((type = T_FILE ∧ ((t.inode ip).di.type = T_FILE ∨ (t.inode ip).di.type = T_DEVICE) ∧
        (Tidy cnt s T → T' = T ∧ Alive cnt s T (t.inode ip).inum)) ∨
      ((t.inode ip).di.type = type ∧
        (Tidy cnt s T → CreateMade cnt s T cwd path type major minor (t.inode ip).inum T')))

theorem create_at (h : At sb sb.ninodes (n + 1) cnt ∅ T s) (hcwd : 0 < cnt cwd) (path : List UInt8) {type : Int16}
    (htype : type ≠ 0) (major minor : Int16) :
    Meets FsSafe (create sb cwd path type major minor) s (CreateDone sb n cnt s T cwd path type major minor) := by
  refine .bind ((namex_at hsb h (Nat.succ_pos n) hcwd true path).mono fun _ he => he.1) ?_
  rintro r s1 ⟨T1, hst1, hhanded, hfound⟩
  rcases hhanded with ⟨rfl, h1⟩ | ⟨dp, name, rfl, h1, hparent⟩
  · exact .pure ⟨hst1, T1, .inl ⟨rfl, h1, fun ht => (hfound ht).1⟩⟩
  obtain ⟨hvalid0, htype0⟩ := hparent rfl
  have hd := bump_self_pos cnt dp
  have htidy : Tidy cnt s T → T1 = T ∧ Alive cnt s T (s1.inode dp).inum ∧
      T.walk true (startInum s cwd path) (components path) [] = some ((s1.inode dp).inum, name) := by
    intro ht
    obtain ⟨rfl, -, -, -, hwalk, halive⟩ := hfound ht
    exact ⟨rfl, halive _ rfl, hwalk.symm⟩
  refine .bind (ilock_safe h1 hd) ?_
  rintro - s2 ⟨h2, hstable2, hvalid2, -, dnd, hdc⟩
  have hdir : dnd.type = T_DIR := by
    rw [← hdc.type, ((hstable2 dp hd).2 hvalid0).2]
    exact htype0
  have hdinum := hstable2.inum hd
  have hdnode : T1 (s1.inode dp).inum = some dnd := by
    rw [← hdinum]
    exact hdc.node
  have hst2 : Stable cnt s s2 := hst1.trans hstable2.unbump
  refine .bind ((dirlookup_at h2 hdc hdir name).mono ?_) ?_
  · rintro e ⟨a, -, he⟩
    exact he.safe
  rintro r s3 (⟨rfl, rfl, -⟩ | ⟨ip, e, i, rfl, -, hlook, h3, hstable3, hinum3, -, -, -⟩)
  · -- the name is new
    refine (createNew_at hsb h2 hvalid2 hdc hdir name htype major minor).weaken ?_
    rintro r t ⟨hstable, T', ⟨rfl, hat, hback⟩ | ⟨ip, rfl, hat, hvalid, hiptype, hfree, hlook, hrec⟩⟩
    · refine ⟨hst2.trans hstable, T', .inl ⟨rfl, hat, fun ht => ?_⟩⟩
      obtain ⟨rfl, halive, -⟩ := htidy ht
      rw [hst2.tidy_iff, hdinum, hst2.alive] at hback
      exact hback ht halive
    · refine ⟨hst2.trans hstable, T', .inr ⟨ip, rfl, hat, hvalid, .inr ⟨hiptype, fun ht => ?_⟩⟩⟩
      rw [hdinum] at hrec
      obtain ⟨rfl, -, hwalk⟩ := htidy ht
      exact ⟨_, dnd, name, hwalk, hdnode, hdir, hlook, hfree, hrec.stable hst2⟩
  -- the name is there
  have hi := bump_self_pos cnt ip
  rw [bump_comm] at h3
  have hst3 : Stable cnt s s3 := hst2.trans hstable3.unbump
  refine .bind (iunlockput_safe hsb h3 (Finset.notMem_empty dp)) ?_
  rintro - s4 ⟨T2, h4, hstable4, -, hsame⟩
  have hst4 : Stable cnt s s4 := hst3.trans hstable4.unbump
  have hinum4 : (s4.inode ip).inum = i := (hstable4.inum hi).trans hinum3
  have htidy' : Tidy cnt s T → T2 = T ∧ Alive cnt s T i := by
    intro ht
    obtain ⟨rfl, halive, -⟩ := htidy ht
    rw [hstable3.inum hd, hdinum] at hsame
    exact ⟨hsame ((hst3.alive.2 halive).bumped ip), ht.lookup hdnode hdir halive hlook⟩
  refine .bind (ilock_safe h4 hi) ?_
  rintro - s5 ⟨h5, hstable5, hvalid5, -⟩
  have hinum5 : (s5.inode ip).inum = i := (hstable5.inum hi).trans hinum4
  have hst5 : Stable cnt s s5 := hst4.trans hstable5.unbump
  refine .step (getInode_eq ip s5) (.ite (fun hfile => ?_) fun _ => ?_)
  · refine .pure ⟨hst5, T2, .inr ⟨ip, rfl, h5, hvalid5, .inl ⟨hfile.1, hfile.2, fun ht => ?_⟩⟩⟩
    rw [hinum5]
    exact htidy' ht
  · refine .bind (iunlockput_safe hsb h5 (Finset.notMem_empty ip)) ?_
    rintro - t ⟨T', hat, hstable, -, hsame'⟩
    refine .pure ⟨hst5.trans hstable, T', .inl ⟨rfl, hat, fun ht => ?_⟩⟩
    obtain ⟨rfl, halive⟩ := htidy' ht
    rw [hinum5] at hsame'
    exact hsame' (hst5.alive.2 halive)

/-- A call that creates a directory or a device: nothing is left of it in a tidy tree if it fails, and if it returns 0
there is a new inode. -/
def MadeDone (sb : Superblock) (n : Nat) (cnt : Fin NINODE → Nat) (s : State) (T : Tree) (cwd : Fin NINODE)
    (path : Option (List UInt8)) (type major minor : Int16) (r : Int) (t : State) : Prop :=
  ∃ T', At sb sb.ninodes n cnt ∅ T' t ∧ Stable cnt s t ∧ (Tidy cnt s T → (r = -1 ∧ T' = T) ∨
    (r = 0 ∧ ∃ p i T1, path = some p ∧ CreateMade cnt s T cwd p type major minor i T1 ∧ Reclaimed cnt i T1 s T'))

/-- `sys_mkdir` and `sys_mknod` after `begin_op`. -/
theorem made_at (h : At sb sb.ninodes (n + 1) cnt ∅ T s) (hcwd : 0 < cnt cwd) (path : List UInt8) {type : Int16}
    (htype : type ≠ 0) (hfile : type ≠ T_FILE) (major minor : Int16) :
    Meets FsSafe (do
      match ← create sb cwd path type major minor with
      | none => do
          endOp
          pure (-1)
      | some ip => do
          iunlockput sb ip
          endOp
          pure 0 : FM Int) s (MadeDone sb n cnt s T cwd (some path) type major minor) := by
  refine .bind (create_at hsb h hcwd path htype major minor) ?_
  rintro r t ⟨hst, T1, ⟨rfl, hat, hback⟩ | ⟨ip, rfl, hat, -, ⟨hisfile, -⟩ | ⟨-, hmade⟩⟩⟩
  · refine (finish_at hat (-1)).weaken ?_
    rintro r u ⟨rfl, hat', hstable⟩
    exact ⟨T1, hat', hst.trans hstable, fun ht => .inl ⟨rfl, hback ht⟩⟩
  · exact absurd hisfile hfile
  · refine .bind (iunlockput_safe hsb hat (Finset.notMem_empty ip)) ?_
    rintro - u ⟨T', hat', hstable', hrec, -⟩
    refine (finish_at hat' 0).weaken ?_
    rintro r w ⟨rfl, hat'', hstable''⟩
    exact ⟨T', hat'', (hst.trans hstable').trans hstable'',
      fun ht => .inr ⟨rfl, path, _, T1, rfl, hmade ht, hrec.stable hst⟩⟩

omit hsb in
theorem noPath_at (h : At sb sb.ninodes (n + 1) cnt ∅ T s) (type major minor : Int16) :
    Meets FsSafe (do
      endOp
      pure (-1) : FM Int) s (MadeDone sb n cnt s T cwd none type major minor) := by
  refine (finish_at h (-1)).weaken ?_
  rintro r t ⟨rfl, hat, hstable⟩
  exact ⟨T, hat, hstable, fun _ => .inl ⟨rfl, rfl⟩⟩

omit hsb in
theorem MadeDone.before {t : State} {path : Option (List UInt8)} {type major minor : Int16} {r : Int} {u : State}
    (h : MadeDone sb n cnt s T cwd path type major minor r u) (hcwd : 0 < cnt cwd) (hst : Stable cnt t s) :
    MadeDone sb n cnt t T cwd path type major minor r u := by
  obtain ⟨T', hat, hstable, htidy⟩ := h
  refine ⟨T', hat, hst.trans hstable, fun ht => ?_⟩
  rcases htidy (hst.tidy ht) with hbad | ⟨hr, p, i, T1, hp, ⟨d, dnd, name, hwalk, h1, h2, h3, h4, h5⟩, hrec⟩
  · exact .inl hbad
  · rw [hst.startInum hcwd] at hwalk
    exact .inr ⟨hr, p, i, T1, hp, ⟨d, dnd, name, hwalk, h1, h2, h3, h4, h5.stable hst⟩, hrec.stable hst⟩

theorem sysMkdir_at (h : At sb sb.ninodes n cnt ∅ T s) (hcwd : 0 < cnt cwd) (path : Option (List UInt8)) :
    Meets FsSafe (sysMkdir sb cwd path) s (MadeDone sb n cnt s T cwd path T_DIR 0 0) := by
  refine .bind (beginOp_at h) ?_
  rintro - s1 ⟨h1, hst1⟩
  cases path with
  | none => exact (noPath_at h1 T_DIR 0 0).weaken fun r t hdone => hdone.before hcwd hst1
  | some path =>
    exact (made_at hsb h1 hcwd path (by decide) (by decide) 0 0).weaken fun r t hdone => hdone.before hcwd hst1

theorem sysMknod_at (h : At sb sb.ninodes n cnt ∅ T s) (hcwd : 0 < cnt cwd) (path : Option (List UInt8))
    (major minor : Int16) :
    Meets FsSafe (sysMknod sb cwd path major minor) s (MadeDone sb n cnt s T cwd path T_DEVICE major minor) := by
  refine .bind (beginOp_at h) ?_
  rintro - s1 ⟨h1, hst1⟩
  cases path with
  | none => exact (noPath_at h1 T_DEVICE major minor).weaken fun r t hdone => hdone.before hcwd hst1
  | some path =>
    exact (made_at hsb h1 hcwd path (by decide) (by decide) major minor).weaken fun r t hdone => hdone.before hcwd hst1

end Create

end Xv6.Fs
