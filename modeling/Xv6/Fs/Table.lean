import Xv6.Fs.Truncate

/-!
# The inode table

`Inv sb N cnt v s` is what holds between the functions that work on inodes: the image is consistent, the entries of
directories name inodes below `N`, an entry of the inode table that is in use stands for one inode of the disk, which no other
entry does, and its copy of the dinode is the one of `v` when it is valid. `cnt` counts the references that are held. A
function that takes a reference or gives one back changes `cnt`; entries that others refer to stay what they are, which
is `Stable`.
-/

set_option autoImplicit false

namespace Xv6.Fs

open Function Xv6.Base

/-- Some panics are never reached. -/
abbrev FsSafe (e : Panic) : Prop :=
  e ∉ [.freeingFreeBlock, .bmapOutOfRange, .outsideOfTrans, .dirlookupRead, .dirlinkRead, .isdiremptyReadi, .unlinkWritei,
    .unlinkNlink]

theorem TooBig.safe {e : Panic} (h : TooBig e) : FsSafe e := by
  rw [show e = .tooBig from h]
  decide

/-- `de.inum` of entry `e` of a directory. -/
def Dinode.entryInum (m : Mem) (d : Dinode) (e : Nat) : Nat :=
  (d.byte m (e * direntSize)).toNat + 256 * (d.byte m (e * direntSize + 1)).toNat

/-- The entries of a directory fill it, and each names an inode below `N` or is empty. -/
structure DirOk (N : Nat) (m : Mem) (d : Dinode) : Prop where
  size : d.size.toNat % direntSize = 0
  entries : ∀ e, e * direntSize < d.size.toNat → d.entryInum m e < N

/-- One more reference to entry `k`. -/
def bump (cnt : Fin NINODE → Nat) (k : Fin NINODE) : Fin NINODE → Nat := update cnt k (cnt k + 1)

section

variable (cnt : Fin NINODE → Nat)

theorem bump_self (k : Fin NINODE) : bump cnt k k = cnt k + 1 := update_self ..

theorem bump_self_pos (k : Fin NINODE) : 0 < bump cnt k k := by
  rw [bump_self]
  omega

theorem bump_of_ne {k l : Fin NINODE} (h : l ≠ k) : bump cnt k l = cnt l :=
  update_of_ne h ..

theorem bump_comm (k l : Fin NINODE) : bump (bump cnt k) l = bump (bump cnt l) k := by
  by_cases hkl : l = k
  · rw [hkl]
  · unfold bump
    rw [update_of_ne hkl, update_of_ne (Ne.symm hkl), update_comm hkl]

end

variable {cnt : Fin NINODE → Nat}

theorem bump_pos (k : Fin NINODE) {l : Fin NINODE} (h : 0 < cnt l) : 0 < bump cnt k l := by
  by_cases hl : l = k
  · rw [hl, bump_self]
    omega
  · rwa [bump_of_ne cnt hl]

/-- What holds between the functions of the inode layer. -/
structure Inv (sb : Superblock) (N : Nat) (cnt : Fin NINODE → Nat) (v : Nat → Dinode) (s : State) : Prop where
  image : Image sb v s.data
  dirs : ∀ i, i < sb.ninodes → (v i).type = T_DIR → DirOk N s.data (v i)
  ref : ∀ k, (s.inode k).ref = cnt k
  entry : ∀ k, 0 < cnt k → (s.inode k).dev = ROOTDEV ∧ (s.inode k).inum < N
  uniq : ∀ k l, 0 < cnt k → 0 < cnt l → (s.inode k).inum = (s.inode l).inum → k = l
  valid : ∀ k, 0 < cnt k → (s.inode k).valid = true → (s.inode k).inum < sb.ninodes ∧
    (s.inode k).di = v (s.inode k).inum ∧ (v (s.inode k).inum).type ≠ 0
  releases : ∀ r ∈ s.releases, r.valid = true → r.di = r.onDisk

/-- Entries with a reference in `cnt` stay what they are. -/
def Stable (cnt : Fin NINODE → Nat) (s t : State) : Prop :=
  ∀ k, 0 < cnt k → (t.inode k).inum = (s.inode k).inum ∧
    ((s.inode k).valid = true → (t.inode k).valid = true ∧ (t.inode k).di.type = (s.inode k).di.type)

theorem Stable.refl (cnt : Fin NINODE → Nat) (s : State) : Stable cnt s s := fun _ _ => ⟨rfl, fun h => ⟨h, rfl⟩⟩

variable {s t : State}

theorem Stable.trans {u : State} (h : Stable cnt s t) (h' : Stable cnt t u) : Stable cnt s u := by
  intro k hk
  obtain ⟨h1, h2⟩ := h k hk
  obtain ⟨h3, h4⟩ := h' k hk
  refine ⟨h3.trans h1, fun hv => ?_⟩
  obtain ⟨hv', ht⟩ := h2 hv
  obtain ⟨hv'', ht'⟩ := h4 hv'
  exact ⟨hv'', ht'.trans ht⟩

theorem Stable.unbump {l : Fin NINODE} (h : Stable (bump cnt l) s t) : Stable cnt s t :=
  fun k hk => h k (bump_pos l hk)

/-- A change of the table that keeps entries, as a map of entries. -/
theorem Stable.of_eq (h : ∀ k, 0 < cnt k → (t.inode k).inum = (s.inode k).inum ∧ (t.inode k).valid = (s.inode k).valid ∧
      (t.inode k).di.type = (s.inode k).di.type) : Stable cnt s t :=
  fun k hk => ⟨(h k hk).1, fun hv => ⟨(h k hk).2.1.trans hv, (h k hk).2.2⟩⟩

/-- No sleep-lock is taken or released. -/
def SameLocks (s t : State) : Prop := ∀ l, (t.inode l).locked = (s.inode l).locked

theorem SameLocks.refl (s : State) : SameLocks s s := fun _ => rfl

theorem SameLocks.trans {u : State} (h : SameLocks s t) (h' : SameLocks t u) : SameLocks s u :=
  fun l => (h' l).trans (h l)

variable {ip : Inode}

theorem SameLocks.setInode (s : State) {k : Fin NINODE} (h : ip.locked = (s.inode k).locked) :
    SameLocks s (s.setInode k ip) := by
  intro l
  by_cases hl : l = k
  · rw [hl, State.setInode_inode, update_self]
    exact h
  · rw [State.setInode_inode, update_of_ne hl]

/-- Inodes other than `i` stay, with their contents. -/
structure Kept (sb : Superblock) (i : Nat) (v : Nat → Dinode) (m : Mem) (v' : Nat → Dinode) (m' : Mem) : Prop where
  others : ∀ j, j ≠ i → v' j = v j
  same : ∀ j, j < sb.ninodes → (v j).type ≠ 0 → j ≠ i → (v j).contents m' = (v j).contents m

variable {sb : Superblock} {N : Nat} {cnt : Fin NINODE → Nat} {v : Nat → Dinode} {s : State} {k : Fin NINODE}

namespace Inv

section

variable (h : Inv sb N cnt v s)
include h

theorem ref_pos (hk : 0 < cnt k) : ¬ (s.inode k).ref < 1 := by
  rw [h.ref]
  omega

theorem cnt_pos (hk : ¬ (s.inode k).ref < 1) : 0 < cnt k := by
  rw [h.ref] at hk
  omega

section

variable (hk : 0 < cnt k) (hv : (s.inode k).valid = true)
include hk hv

/-- A valid entry is that of an allocated inode. -/
theorem type_ne :
    (v (s.inode k).inum).type ≠ 0 := (h.valid k hk hv).2.2

theorem di_eq :
    (s.inode k).di = v (s.inode k).inum := (h.valid k hk hv).2.1

theorem inum_lt :
    (s.inode k).inum < sb.ninodes := (h.valid k hk hv).1

end

/-- Only the number of operations in the log changes. -/
theorem of_log (hdata : t.data = s.data) (hinode : t.inode = s.inode)
    (hreleases : t.releases = s.releases) : Inv sb N cnt v t := by
  refine ⟨?_, ?_, ?_, ?_, ?_, ?_, ?_⟩
  · rw [hdata]
    exact h.image
  · rw [hdata]
    exact h.dirs
  · rw [hinode]
    exact h.ref
  · rw [hinode]
    exact h.entry
  · rw [hinode]
    exact h.uniq
  · rw [hinode]
    exact h.valid
  · rw [hreleases]
    exact h.releases

/-- An entry of the table changes, with the references to it. -/
theorem setInode {c : Nat} (href : ip.ref = c) (hentry : 0 < c → ip.dev = ROOTDEV ∧ ip.inum < N)
    (huniq : 0 < c → ∀ l, l ≠ k → 0 < cnt l → (s.inode l).inum ≠ ip.inum)
    (hvalid : 0 < c → ip.valid = true → ip.inum < sb.ninodes ∧ ip.di = v ip.inum ∧ (v ip.inum).type ≠ 0) :
    Inv sb N (update cnt k c) v (s.setInode k ip) := by
  have hself : update cnt k c k = c := update_self ..
  have hother : ∀ l, l ≠ k → update cnt k c l = cnt l := fun l hl => update_of_ne hl ..
  have iself : (s.setInode k ip).inode k = ip := update_self ..
  have iother : ∀ l, l ≠ k → (s.setInode k ip).inode l = s.inode l := fun l hl => update_of_ne hl ..
  refine ⟨h.image, h.dirs, ?_, ?_, ?_, ?_, h.releases⟩
  · intro l
    by_cases hl : l = k
    · rw [hl, iself, hself, href]
    · rw [iother l hl, hother l hl, h.ref]
  · intro l hpos
    by_cases hl : l = k
    · rw [hl, hself] at hpos
      rw [hl, iself]
      exact hentry hpos
    · rw [hother l hl] at hpos
      rw [iother l hl]
      exact h.entry l hpos
  · intro l r hpos hpos' heq
    by_cases hl : l = k
    · by_cases hr : r = k
      · rw [hl, hr]
      · rw [hl, hself] at hpos
        rw [hother r hr] at hpos'
        rw [hl, iself, iother r hr] at heq
        exact absurd heq.symm (huniq hpos r hr hpos')
    · by_cases hr : r = k
      · rw [hr, hself] at hpos'
        rw [hother l hl] at hpos
        rw [hr, iself, iother l hl] at heq
        exact absurd heq (huniq hpos' l hl hpos)
      · rw [hother l hl] at hpos
        rw [hother r hr] at hpos'
        rw [iother l hl, iother r hr] at heq
        exact h.uniq l r hpos hpos' heq
  · intro l hpos hv
    by_cases hl : l = k
    · rw [hl, hself] at hpos
      rw [hl, iself] at hv ⊢
      exact hvalid hpos hv
    · rw [hother l hl] at hpos
      rw [iother l hl] at hv ⊢
      exact h.valid l hpos hv

/-- The number of references to an entry changes. -/
theorem setRef {c : Nat} {r : Int} (hr : r = c) (hc : 0 < c → 0 < cnt k) :
    Inv sb N (update cnt k c) v (s.setInode k { s.inode k with ref := r }) :=
  h.setInode hr (fun hpos => h.entry k (hc hpos))
    (fun hpos l hl hl' heq => hl (h.uniq l k hl' (hc hpos) heq)) fun hpos hv => h.valid k (hc hpos) hv

end

end Inv

/-- An entry changes in a way that others do not see. -/
theorem Stable.setInode (hinum : 0 < cnt k → ip.inum = (s.inode k).inum)
    (hvalid : 0 < cnt k → (s.inode k).valid = true → ip.valid = true ∧ ip.di.type = (s.inode k).di.type) :
    Stable cnt s (s.setInode k ip) := by
  intro l hl
  by_cases hlk : l = k
  · subst hlk
    rw [State.setInode_inode, update_self]
    exact ⟨hinum hl, hvalid hl⟩
  · rw [State.setInode_inode, update_of_ne hlk]
    exact ⟨rfl, fun hv => ⟨hv, rfl⟩⟩

/-! ## References -/

variable {inum : Nat}

theorem findInode_some {dev : Nat} (h : s.findInode dev inum = some k) :
    0 < (s.inode k).ref ∧ (s.inode k).dev = dev ∧ (s.inode k).inum = inum := by
  have hk := List.find?_some h
  rwa [decide_eq_true_iff] at hk

theorem findInode_none {dev : Nat} (h : s.findInode dev inum = none) (l : Fin NINODE) :
    ¬ (0 < (s.inode l).ref ∧ (s.inode l).dev = dev ∧ (s.inode l).inum = inum) := by
  have hl := List.find?_eq_none.1 h l (List.mem_finRange l)
  rwa [decide_eq_true_iff] at hl

/-- `iget` stops when all entries are in use and none stands for inode `i`. -/
def NoEntry (cnt : Fin NINODE → Nat) (i : Nat) (s : State) (e : Panic) : Prop :=
  e = .igetNoInodes ∧ ∀ l, 0 < cnt l ∧ (s.inode l).inum ≠ i

theorem NoEntry.safe {i : Nat} {e : Panic} (h : NoEntry cnt i s e) : FsSafe e := by
  rw [h.1]
  decide

/-- `iget` takes a reference to the entry of the inode; it does not touch the disk. -/
theorem iget_meets (h : Inv sb N cnt v s) (hinum : inum < N) :
    Meets (NoEntry cnt inum s) (iget ROOTDEV inum) s fun k t => Inv sb N (bump cnt k) v t ∧ Stable cnt s t ∧
      SameLocks s t ∧ (t.inode k).inum = inum ∧ t.data = s.data ∧ t.log = s.log ∧
      (cnt k = 0 → (t.inode k).valid = false) := by
  cases hfind : s.findInode ROOTDEV inum with
  | some k =>
    obtain ⟨hpos, -, hk⟩ := findInode_some hfind
    have hcnt : 0 < cnt k := by
      rw [h.ref] at hpos
      omega
    have hrun : iget ROOTDEV inum s = .ok (k, s.setInode k { s.inode k with ref := (s.inode k).ref + 1 }) := by
      unfold iget
      rw [hfind]
    refine .of_ok hrun ⟨h.setRef ?_ fun _ => hcnt, ?_, SameLocks.setInode s rfl, ?_, rfl, rfl, by omega⟩
    · rw [h.ref]
      omega
    · exact .setInode (fun _ => rfl) fun _ hv => ⟨hv, rfl⟩
    · rw [State.setInode_inode, update_self]
      exact hk
  | none =>
    cases hempty : s.emptyInode with
    | some k =>
      have hzero := List.find?_some hempty
      rw [decide_eq_true_iff, h.ref] at hzero
      have hk0 : cnt k = 0 := by omega
      have hrun : iget ROOTDEV inum s = .ok (k, s.setInode k { s.inode k with
          dev := ROOTDEV, inum := inum, ref := 1, valid := false }) := by
        unfold iget
        rw [hfind]
        simp only [hempty]
      refine .of_ok hrun ⟨h.setInode ?_ (fun _ => ⟨rfl, hinum⟩) ?_ (fun _ hv => by cases hv), ?_,
        SameLocks.setInode s rfl, ?_, rfl, rfl, fun _ => ?_⟩
      · show (1 : Int) = _
        rw [hk0]
        rfl
      · intro _ l _ hl heq
        refine findInode_none hfind l ⟨?_, (h.entry l hl).1, heq⟩
        rw [h.ref]
        omega
      · exact .setInode (fun hpos => by omega) fun hpos => by omega
      · rw [State.setInode_inode, update_self]
      · rw [State.setInode_inode, update_self]
    | none =>
      have hrun : iget ROOTDEV inum s = .error .igetNoInodes := by
        unfold iget
        rw [hfind]
        simp only [hempty]
      refine .of_error hrun ⟨rfl, fun l => ?_⟩
      have hpos : 0 < cnt l := by
        have hl := List.find?_eq_none.1 hempty l (List.mem_finRange l)
        rw [decide_eq_true_iff, h.ref] at hl
        omega
      refine ⟨hpos, fun heq => findInode_none hfind l ⟨?_, (h.entry l hpos).1, heq⟩⟩
      rw [h.ref]
      omega

theorem idup_meets {E : Panic → Prop} (h : Inv sb N cnt v s) (hk : 0 < cnt k) :
    Meets E (idup k) s fun _ t => Inv sb N (bump cnt k) v t ∧ Stable cnt s t ∧ SameLocks s t ∧ t.data = s.data ∧
      t.log = s.log := by
  refine .of_ok rfl ⟨h.setRef ?_ fun _ => hk, ?_, SameLocks.setInode s rfl, rfl, rfl⟩
  · rw [h.ref]
    omega
  · exact .setInode (fun _ => rfl) fun _ hv => ⟨hv, rfl⟩

/-! ## Locks -/

theorem acquiresleep_meets (k : Fin NINODE) (s : State) :
    Meets (fun e => e = .deadlock ∧ (s.inode k).locked = true) (acquiresleep k) s fun _ t =>
      (s.inode k).locked = false ∧ t = s.setInode k { s.inode k with locked := true } := by
  by_cases hl : (s.inode k).locked = true
  · exact .of_error (if_pos hl) ⟨rfl, hl⟩
  · exact .of_ok (if_neg hl) ⟨Bool.eq_false_of_not_eq_true hl, rfl⟩

section

variable (h : Inv sb N cnt v s)
include h

/-- An entry keeps its number of references. -/
theorem Inv.setEntry (href : ip.ref = (s.inode k).ref) (hdev : ip.dev = (s.inode k).dev)
    (hinum : ip.inum = (s.inode k).inum)
    (hvalid : 0 < cnt k → ip.valid = true → ip.inum < sb.ninodes ∧ ip.di = v ip.inum ∧ (v ip.inum).type ≠ 0) :
    Inv sb N cnt v (s.setInode k ip) := by
  have hset := h.setInode (k := k) (c := cnt k) (href.trans (h.ref k))
    (fun hpos => by rw [hdev, hinum]; exact h.entry k hpos)
    (fun hpos l hl hl' heq => hl (h.uniq l k hl' hpos (heq.trans hinum))) hvalid
  rwa [update_eq_self] at hset

/-- `ilock` makes the entry valid; an inode that is free stops it. -/
theorem ilock_meets (hk : 0 < cnt k) (hi : (s.inode k).inum < sb.ninodes) :
    Meets (fun e => (e = .deadlock ∧ (s.inode k).locked = true) ∨ (e = .ilockNoType ∧ (v (s.inode k).inum).type = 0))
      (ilock sb k) s fun _ t => Inv sb N cnt v t ∧ Stable cnt s t ∧ (t.inode k).valid = true ∧
      (t.inode k).locked = true ∧ (∀ l, l ≠ k → (t.inode l).locked = (s.inode l).locked) ∧
      (t.inode k).inum = (s.inode k).inum ∧ t.data = s.data ∧ t.log = s.log ∧ (s.inode k).locked = false := by
  refine .step (getInode_eq k s) (.ite (fun hlt => absurd hlt (h.ref_pos hk)) fun _ => ?_)
  refine .bind ((acquiresleep_meets k s).mono fun _ he => .inl he) ?_
  rintro - t ⟨hfree, rfl⟩
  have hlocked : Inv sb N cnt v (s.setInode k { s.inode k with locked := true }) :=
    h.setEntry rfl rfl rfl fun hpos hv => h.valid k hpos hv
  have hstable : Stable cnt s (s.setInode k { s.inode k with locked := true }) :=
    Stable.setInode (fun _ => rfl) fun _ hv => ⟨hv, rfl⟩
  refine .ite (fun hv => .pure ⟨hlocked, hstable, ?_, ?_, fun l hl => ?_, ?_, rfl, rfl, hfree⟩) fun hv => ?_
  · rw [State.setInode_inode, update_self]
    exact hv
  · rw [State.setInode_inode, update_self]
  · rw [State.setInode_inode, update_of_ne hl]
  · rw [State.setInode_inode, update_self]
  · refine .step rfl (.step rfl (.step rfl ?_))
    have hdisk := h.image.disk _ hi
    simp only [State.setInode_inode, State.setInode_data, update_self, hdisk]
    refine .ite (fun htype => .throw (.inr ⟨rfl, htype⟩)) fun htype => ?_
    refine .pure ⟨?_, ?_, ?_, ?_, fun l hl => ?_, ?_, rfl, rfl, hfree⟩
    · refine hlocked.setEntry ?_ ?_ ?_ fun _ _ => ⟨hi, rfl, htype⟩
      · rw [State.setInode_inode, update_self]
      · rw [State.setInode_inode, update_self]
      · rw [State.setInode_inode, update_self]
    · refine hstable.trans (.setInode (fun _ => ?_) fun _ hv' => ?_)
      · rw [State.setInode_inode, update_self]
      · rw [State.setInode_inode, update_self] at hv'
        exact absurd hv' hv
    · rw [State.setInode_inode, update_self]
    · rw [State.setInode_inode, update_self]
    · rw [State.setInode_inode, update_of_ne hl, State.setInode_inode, update_of_ne hl]
    · rw [State.setInode_inode, update_self]

/-- The lock of an entry that agrees with the disk, if it is valid, is released. -/
theorem releasesleep_meets {E : Panic → Prop}
    (hagree : (s.inode k).valid = true → (s.inode k).di = readDinode s.data (sb.dinode (s.inode k).inum)) :
    Meets E (releasesleep sb k) s fun _ t => Inv sb N cnt v t ∧ Stable cnt s t ∧
      t.inode = update s.inode k { s.inode k with locked := false } ∧ t.data = s.data ∧ t.log = s.log := by
  have hset : Inv sb N cnt v (s.setInode k { s.inode k with locked := false }) :=
    h.setEntry rfl rfl rfl fun hpos hv => h.valid k hpos hv
  refine .of_ok rfl ⟨⟨hset.image, hset.dirs, hset.ref, hset.entry, hset.uniq, hset.valid, ?_⟩, ?_, rfl, rfl, rfl⟩
  · intro r hr hv
    rcases List.mem_append.1 hr with hr | hr
    · exact h.releases r hr hv
    · rw [List.mem_singleton.1 hr] at hv ⊢
      exact hagree hv
  · exact .setInode (s := s) (fun _ => rfl) fun _ hv => ⟨hv, rfl⟩

theorem iunlock_meets : Meets (fun e => e = .iunlock ∧ ¬ ((s.inode k).locked = true ∧ 0 < cnt k)) (iunlock sb k) s
      fun _ t => Inv sb N cnt v t ∧ Stable cnt s t ∧ (s.inode k).locked = true ∧
      t.inode = update s.inode k { s.inode k with locked := false } ∧ t.data = s.data ∧ t.log = s.log := by
  refine .step (getInode_eq k s) ?_
  refine .ite (fun hbad => .throw ⟨rfl, fun hgood => ?_⟩) fun hok => ?_
  · rcases hbad with hl | hlt
    · rw [hgood.1] at hl
      cases hl
    · exact h.ref_pos hgood.2 hlt
  have hk : 0 < cnt k := h.cnt_pos fun hlt => hok (.inr hlt)
  refine (releasesleep_meets h fun hv => ?_).weaken ?_
  · rw [h.di_eq hk hv, h.image.disk _ (h.inum_lt hk hv)]
  · rintro - t ⟨hinv, hstable, hinode, hdata, hlog⟩
    exact ⟨hinv, hstable, Bool.eq_true_of_not_eq_false fun hl => hok (.inl hl), hinode, hdata, hlog⟩

end

/-! ## Dinodes -/

variable {d : Dinode}

/-- Equal contents, equal entries. -/
theorem DirOk.congr {m m' : Mem} {d' : Dinode} (h : DirOk N m d) (heq : d'.contents m' = d.contents m) :
    DirOk N m' d' := by
  have hlen : d'.size.toNat = d.size.toNat := by
    rw [← Dinode.contents_length m', heq, Dinode.contents_length]
  have hbyte : ∀ x, x < d.size.toNat → d'.byte m' x = d.byte m x := by
    intro x hx
    have h1 : x < (d'.contents m').length := by rwa [Dinode.contents_length, hlen]
    have h2 : x < (d.contents m).length := by rwa [Dinode.contents_length]
    rw [← Dinode.contents_getElem m' d' h1, ← Dinode.contents_getElem m d h2]
    simp only [heq]
  refine ⟨by rw [hlen]; exact h.size, fun e he => ?_⟩
  rw [hlen] at he
  have hsize := h.size
  have hentry := h.entries e he
  unfold Dinode.entryInum at *
  unfold direntSize at *
  rw [hbyte _ he, hbyte _ (by omega)]
  exact hentry

/-- The inode of entry `k` is replaced on the disk and in the table. -/
theorem Inv.replace (h : Inv sb N cnt v s) (hk : 0 < cnt k) {v' : Nat → Dinode}
    (himage : Image sb v' t.data) (hkept : Kept sb (s.inode k).inum v s.data v' t.data)
    (hdir : (v' (s.inode k).inum).type = T_DIR → DirOk N t.data (v' (s.inode k).inum))
    (hinode : t.inode = update s.inode k ip) (href : ip.ref = (s.inode k).ref) (hdev : ip.dev = (s.inode k).dev)
    (hinum : ip.inum = (s.inode k).inum) (hi : (s.inode k).inum < sb.ninodes)
    (hvalid : ip.valid = true → ip.di = v' (s.inode k).inum ∧ (v' (s.inode k).inum).type ≠ 0)
    (hreleases : t.releases = s.releases) : Inv sb N cnt v' t := by
  have hself : t.inode k = ip := by rw [hinode, update_self]
  have hother : ∀ l, l ≠ k → t.inode l = s.inode l := fun l hl => by rw [hinode, update_of_ne hl]
  have hfields : ∀ l, (t.inode l).ref = (s.inode l).ref ∧ (t.inode l).dev = (s.inode l).dev ∧
      (t.inode l).inum = (s.inode l).inum := by
    intro l
    by_cases hl : l = k
    · rw [hl, hself]
      exact ⟨href, hdev, hinum⟩
    · rw [hother l hl]
      exact ⟨rfl, rfl, rfl⟩
  refine ⟨himage, ?_, ?_, ?_, ?_, ?_, ?_⟩
  · intro j hj ht
    by_cases hji : j = (s.inode k).inum
    · rw [hji] at ht ⊢
      exact hdir ht
    · rw [hkept.others j hji] at ht ⊢
      exact (h.dirs j hj ht).congr (hkept.same j hj (by rw [ht]; decide) hji)
  · exact fun l => (hfields l).1.trans (h.ref l)
  · intro l hl
    rw [(hfields l).2.1, (hfields l).2.2]
    exact h.entry l hl
  · intro l r hl hr heq
    rw [(hfields l).2.2, (hfields r).2.2] at heq
    exact h.uniq l r hl hr heq
  · intro l hl hv
    by_cases hlk : l = k
    · rw [hlk, hself] at hv ⊢
      rw [hinum]
      exact ⟨hi, hvalid hv⟩
    · have hne : (s.inode l).inum ≠ (s.inode k).inum := fun heq => hlk (h.uniq l k hl hk heq)
      rw [hother l hlk] at hv ⊢
      rw [hkept.others _ hne]
      exact h.valid l hl hv
  · rw [hreleases]
    exact h.releases

/-- The inode of a valid entry changes, but not its type. -/
theorem Inv.change (h : Inv sb N cnt v s) (hk : 0 < cnt k) (hvalid : (s.inode k).valid = true) {v' : Nat → Dinode}
    (himage : Image sb v' t.data) (hkept : Kept sb (s.inode k).inum v s.data v' t.data)
    (htype : (v' (s.inode k).inum).type = (v (s.inode k).inum).type)
    (hdir : (v' (s.inode k).inum).type = T_DIR → DirOk N t.data (v' (s.inode k).inum))
    (hinode : t.inode = update s.inode k { s.inode k with di := v' (s.inode k).inum })
    (hreleases : t.releases = s.releases) : Inv sb N cnt v' t ∧ Stable cnt s t ∧ SameLocks s t := by
  refine ⟨h.replace hk himage hkept hdir hinode rfl rfl rfl (h.inum_lt hk hvalid)
    (fun _ => ⟨rfl, by rw [htype]; exact h.type_ne hk hvalid⟩) hreleases, .of_eq fun l hl => ?_, fun l => ?_⟩
  · rw [hinode]
    by_cases hlk : l = k
    · rw [hlk, update_self]
      exact ⟨rfl, rfl, by rw [h.di_eq hk hvalid]; exact htype⟩
    · rw [update_of_ne hlk]
      exact ⟨rfl, rfl, rfl⟩
  · rw [hinode]
    by_cases hlk : l = k
    · rw [hlk, update_self]
    · rw [update_of_ne hlk]

section

variable (hsb : sb.Layout)
include hsb

omit hsb in
theorem Dinode.contents_fields {m : Mem} {d' : Dinode} (haddrs : d'.addrs = d.addrs) (hsize : d'.size = d.size) :
    d'.contents m = d.contents m ∧ (NoHoles m d → NoHoles m d') := by
  have hblock : ∀ bn, d'.block m bn = d.block m bn := by
    intro bn
    unfold block slot
    rw [haddrs]
  refine ⟨?_, fun h bn hbn hlt => ?_⟩
  · unfold contents byte
    simp only [hsize, hblock]
  · rw [hsize] at hlt
    rw [hblock]
    exact h bn hbn hlt

/-- Fields of the dinode other than type, size and blocks are changed in memory and then on disk. -/
theorem iupdate_fields_meets (h : Inv sb N cnt v s) (hop : 0 < s.log.outstanding) (hk : 0 < cnt k)
    (hvalid : (s.inode k).valid = true) (htype : d.type = (v (s.inode k).inum).type)
    (haddrs : d.addrs = (v (s.inode k).inum).addrs) (hsize : d.size = (v (s.inode k).inum).size) :
    Meets FsSafe (iupdate sb k) (s.setInode k { s.inode k with di := d }) fun _ t =>
      Inv sb N cnt (update v (s.inode k).inum d) t ∧ Stable cnt s t ∧ SameLocks s t ∧
      Kept sb (s.inode k).inum v s.data (update v (s.inode k).inum d) t.data ∧
      d.contents t.data = (v (s.inode k).inum).contents s.data ∧ t.log.outstanding = s.log.outstanding := by
  have hi := h.inum_lt hk hvalid
  have hne := h.type_ne hk hvalid
  obtain ⟨hcontents, hholes⟩ := Dinode.contents_fields (m := s.data) haddrs hsize
  obtain ⟨himage, hsame⟩ := h.image.replace hsb hi (h.image.owned.update_same htype haddrs) fun _ =>
    ⟨by rw [hsize]; exact h.image.sizes _ hi hne, hholes (h.image.noHoles _ hi hne)⟩
  refine ((iupdate_meets sb k (by exact hop)).mono fun _ he => he.safe).weaken ?_
  rintro - t ⟨htable, -, hdata⟩
  rw [State.setInode_inode, update_self] at hdata
  change t.data = writeDinode s.data (sb.dinode (s.inode k).inum) d at hdata
  rw [← hdata] at himage hsame
  have hkept : Kept sb (s.inode k).inum v s.data (update v (s.inode k).inum d) t.data := by
    refine ⟨fun j hj => update_of_ne hj .., fun j hj ht hji => ?_⟩
    have hj' := hsame j hj
    rw [update_of_ne hji] at hj'
    exact hj' ht
  have hself : d.contents t.data = (v (s.inode k).inum).contents s.data := by
    have hself := hsame _ hi
    rw [update_self] at hself
    rw [hself (by rw [htype]; exact hne), hcontents]
  have hchange := h.change (t := t) hk hvalid himage hkept ?_ ?_ ?_ htable.releases
  · exact ⟨hchange.1, hchange.2.1, hchange.2.2, hkept, hself, htable.outstanding⟩
  · rw [update_self]
    exact htype
  · intro ht
    rw [update_self] at ht ⊢
    rw [htype] at ht
    exact (h.dirs _ hi ht).congr hself
  · rw [htable.inode, State.setInode_inode, update_self]

/-- An inode that is given up: no blocks, and type 0. -/
def Dinode.freed (d : Dinode) : Dinode := { d.truncated with type := 0 }

/-- The part of `iput` that frees the inode: afterwards the entry is not valid. -/
theorem iputFree_meets (h : Inv sb N cnt v s) (hop : 0 < s.log.outstanding) (hk : 0 < cnt k)
    (hvalid : (s.inode k).valid = true) :
    Meets FsSafe (do
      acquiresleep k
      itrunc sb k
      modifyDi k fun d => { d with type := 0 }
      iupdate sb k
      modifyInode k fun ip => { ip with valid := false }
      releasesleep sb k) s fun _ t =>
        Inv sb N cnt (update v (s.inode k).inum (v (s.inode k).inum).freed) t ∧
        (∀ l, l ≠ k → t.inode l = s.inode l) ∧ (t.inode k).locked = (s.inode k).locked ∧
        Kept sb (s.inode k).inum v s.data (update v (s.inode k).inum (v (s.inode k).inum).freed) t.data ∧
        t.log.outstanding = s.log.outstanding := by
  have hi := h.inum_lt hk hvalid
  have hne := h.type_ne hk hvalid
  refine .bind ((acquiresleep_meets k s).mono fun _ he => by rw [he.1]; decide) ?_
  rintro - t ⟨hunlocked, rfl⟩
  refine .bind ((itrunc_meets (v := v) hsb (i := (s.inode k).inum) (k := k)
    (s := s.setInode k { s.inode k with locked := true }) h.image hop hi hne ?_ ?_).mono fun _ he => he.safe) ?_
  · rw [State.setInode_inode, update_self]
  · rw [State.setInode_inode, update_self]
    exact h.di_eq hk hvalid
  rintro - t ⟨himage, hinode, hreleases, hout, hsame⟩
  have htk : t.inode k = { s.inode k with locked := true, di := (v (s.inode k).inum).truncated } := by
    rw [hinode, State.setInode_inode, update_self, update_self]
  have htl : ∀ l, l ≠ k → t.inode l = s.inode l := by
    intro l hl
    rw [hinode, update_of_ne hl, State.setInode_inode, update_of_ne hl]
  refine .step rfl (.bind ((iupdate_meets sb k (by exact hout ▸ hop)).mono fun _ he => he.safe) ?_)
  rintro - u ⟨htable, -, hdata⟩
  rw [State.setInode_inode, update_self, htk] at hdata
  change u.data = writeDinode t.data (sb.dinode (s.inode k).inum) (v (s.inode k).inum).freed at hdata
  obtain ⟨himage', hsame'⟩ := himage.replace hsb hi (d := (v (s.inode k).inum).freed)
    (himage.owned.update_empty rfl (.inr (by rw [update_self]; rfl))) fun h0 => absurd rfl h0
  rw [update_idem, ← hdata] at himage' hsame'
  have hkept : Kept sb (s.inode k).inum v s.data (update v (s.inode k).inum (v (s.inode k).inum).freed) u.data := by
    refine ⟨fun j hj => update_of_ne hj .., fun j hj ht hji => ?_⟩
    have h1 := hsame' j hj
    rw [update_of_ne hji] at h1
    exact (h1 ht).trans (hsame j hj ht hji)
  refine .step rfl ?_
  -- the entry stands for an inode that is free now, but it is not valid
  have huk : u.inode k = { s.inode k with locked := true, di := (v (s.inode k).inum).freed } := by
    rw [htable.inode, State.setInode_inode, update_self, htk]
    rfl
  have hul : ∀ l, l ≠ k → u.inode l = s.inode l := by
    intro l hl
    rw [htable.inode, State.setInode_inode, update_of_ne hl, htl l hl]
  have hinv : Inv sb N cnt (update v (s.inode k).inum (v (s.inode k).inum).freed)
      (u.setInode k { u.inode k with valid := false }) := by
    obtain ⟨ip, hip⟩ : ∃ ip : Inode, ip = { s.inode k with
      locked := true, valid := false, di := (v (s.inode k).inum).freed } := ⟨_, rfl⟩
    refine h.replace hk himage' hkept ?_ (?_ : _ = update s.inode k ip)
      (by rw [hip]) (by rw [hip]) (by rw [hip]) hi (fun hv => by rw [hip] at hv; cases hv) ?_
    · intro ht
      rw [update_self] at ht
      exact absurd ht (by show (0 : Int16) ≠ T_DIR; decide)
    · rw [State.setInode_inode, huk, hip]
      funext l
      by_cases hl : l = k
      · rw [hl, update_self, update_self]
      · rw [update_of_ne hl, update_of_ne hl, hul l hl]
    · exact htable.releases.trans hreleases
  refine (releasesleep_meets hinv fun hv => ?_).weaken ?_
  · rw [State.setInode_inode, update_self] at hv
    cases hv
  · rintro - w ⟨hinv', -, hwinode, hwdata, hwlog⟩
    refine ⟨hinv', fun l hl => ?_, ?_, ?_, ?_⟩
    · rw [hwinode, update_of_ne hl, State.setInode_inode, update_of_ne hl, hul l hl]
    · rw [hwinode, update_self, hunlocked]
    · rw [hwdata]
      exact hkept
    · rw [hwlog]
      exact htable.outstanding.trans hout

/-- What becomes of the inode of entry `k` when a reference to it is given back: it is freed if this was the last
reference, the entry is valid and no directory entry is left; otherwise nothing changes. -/
def Returned (sb : Superblock) (cnt : Fin NINODE → Nat) (k : Fin NINODE) (v v' : Nat → Dinode) (s t : State) : Prop :=
  (¬ (cnt k = 0 ∧ (s.inode k).valid = true ∧ (v (s.inode k).inum).nlink = 0) ∧ v' = v ∧ t.data = s.data ∧ t.log = s.log) ∨
  ((cnt k = 0 ∧ (s.inode k).valid = true ∧ (v (s.inode k).inum).nlink = 0) ∧
    v' = update v (s.inode k).inum (v (s.inode k).inum).freed ∧ Kept sb (s.inode k).inum v s.data v' t.data)

/-- `iput` gives a reference back. It frees the inode only if this was the last reference and no directory entry is
left. -/
theorem iput_meets (h : Inv sb N (bump cnt k) v s) (hop : 0 < s.log.outstanding) :
    Meets (fun e => FsSafe e ∧ cnt k = 0 ∧ (s.inode k).valid = true ∧ (v (s.inode k).inum).nlink = 0)
      (iput sb k) s fun _ t => ∃ v', Inv sb N cnt v' t ∧ Stable cnt s t ∧ SameLocks s t ∧
      t.log.outstanding = s.log.outstanding ∧ Returned sb cnt k v v' s t := by
  have hk := bump_self_pos cnt k
  have hback : ∀ {w : Nat → Dinode} {t : State}, Inv sb N (bump cnt k) w t →
      Inv sb N cnt w (t.setInode k { t.inode k with ref := (t.inode k).ref - 1 }) := by
    intro w t ht
    have hset := ht.setRef (k := k) (c := cnt k) (r := (t.inode k).ref - 1) ?_ fun _ => hk
    · unfold bump at hset
      rwa [update_idem, update_eq_self] at hset
    · rw [ht.ref, bump_self]
      omega
  refine .step (getInode_eq k s) ?_
  refine .bind (R := fun _ t => ∃ v', Inv sb N (bump cnt k) v' t ∧ Stable cnt s t ∧ SameLocks s t ∧
    t.log.outstanding = s.log.outstanding ∧ Returned sb cnt k v v' s t) ?_ ?_
  · refine .ite (fun hfree => ?_) fun hnot => .pure ⟨v, h, .refl cnt s, SameLocks.refl s, rfl,
      Or.inl ⟨fun hcond => hnot ⟨?_, hcond.2.1, ?_⟩, rfl, rfl, rfl⟩⟩
    rotate_left
    · rw [h.ref, bump_self, hcond.1]
      rfl
    · rw [h.di_eq hk hcond.2.1]
      exact hcond.2.2
    obtain ⟨href, hvalid, hnlink⟩ := hfree
    have hzero : cnt k = 0 := by
      rw [h.ref, bump_self] at href
      omega
    have hlink : (v (s.inode k).inum).nlink = 0 := by
      rw [← h.di_eq hk hvalid]
      exact hnlink
    refine ((iputFree_meets hsb h hop hk hvalid).mono fun _ he => ⟨he, hzero, hvalid, hlink⟩).weaken ?_
    rintro - t ⟨hinv, hother, hself, hkept, hout⟩
    refine ⟨_, hinv, .of_eq fun l hl => ?_, fun l => ?_, hout, .inr ⟨⟨hzero, hvalid, hlink⟩, rfl, hkept⟩⟩
    · have hlk : l ≠ k := by
        rintro rfl
        omega
      rw [hother l hlk]
      exact ⟨rfl, rfl, rfl⟩
    · by_cases hlk : l = k
      · rw [hlk, hself]
      · rw [hother l hlk]
  · rintro - t ⟨v', hinv, hstable, hlocks, hout, hv'⟩
    refine .of_ok rfl ⟨v', hback hinv, hstable.trans ?_, hlocks.trans (SameLocks.setInode t rfl), hout, hv'⟩
    exact .setInode (fun _ => rfl) fun _ hv => ⟨hv, rfl⟩

/-- `ialloc` finds an inode that is free and takes a reference to it. -/
theorem ialloc_meets (h : Inv sb N cnt v s) (hN : sb.ninodes ≤ N) (hop : 0 < s.log.outstanding) (type : Int16) :
    Meets FsSafe (ialloc sb ROOTDEV type) s fun r t =>
      (r = none ∧ t = s) ∨ ∃ k i, r = some k ∧ 0 < i ∧ i < sb.ninodes ∧ (v i).type = 0 ∧ (t.inode k).inum = i ∧
        Inv sb N (bump cnt k) (update v i { Dinode.zero with type := type }) t ∧ Stable cnt s t ∧ SameLocks s t ∧
        Kept sb i v s.data (update v i { Dinode.zero with type := type }) t.data ∧
        t.log.outstanding = s.log.outstanding := by
  refine .step (rfl : getData s = .ok (s.data, s)) ?_
  cases hfind : findFreeInode sb s.data with
  | none => exact .pure (.inl ⟨rfl, rfl⟩)
  | some i =>
    have hi : i < sb.ninodes := List.mem_range.1 (List.mem_of_find?_eq_some hfind)
    have hfree := List.find?_some hfind
    rw [decide_eq_true_iff, h.image.disk i hi] at hfree
    obtain ⟨himage, hsame⟩ := h.image.replace hsb hi (d := { Dinode.zero with type := type })
      (h.image.owned.update_empty rfl (.inl hfree.2)) fun _ =>
        ⟨Nat.zero_le _, fun bn _ hlt => absurd hlt (Nat.not_lt_zero _)⟩
    refine .step rfl (.bind ((logWrite_meets (by exact hop) _).mono fun _ he => he.safe) ?_)
    rintro - t rfl
    have hinv : Inv sb N cnt (update v i { Dinode.zero with type := type })
        ((s.setData (writeDinode s.data (sb.dinode i) { Dinode.zero with type := type })).setLog
          (s.log.add (sb.IBLOCK i))) := by
      refine ⟨himage, ?_, h.ref, h.entry, h.uniq, ?_, h.releases⟩
      · intro j hj ht
        by_cases hji : j = i
        · rw [hji, update_self]
          exact ⟨rfl, fun e he => absurd he (Nat.not_lt_zero _)⟩
        · have h1 := hsame j hj
          rw [update_of_ne hji] at h1 ht ⊢
          exact (h.dirs j hj ht).congr (h1 (by rw [ht]; decide))
      · intro l hl hv
        have hl' := h.valid l hl hv
        have hne : (s.inode l).inum ≠ i := fun heq => hl'.2.2 (heq ▸ hfree.2)
        refine (?_ : (s.inode l).inum < sb.ninodes ∧ (s.inode l).di = update v i _ (s.inode l).inum ∧
          (update v i _ (s.inode l).inum).type ≠ 0)
        rw [update_of_ne hne]
        exact hl'
    refine .bind ((iget_meets hinv (Nat.lt_of_lt_of_le hi hN)).mono fun _ he => he.safe) ?_
    rintro k t ⟨hinv', hstable, hlocks, hinum, hdata, hlog, -⟩
    refine .pure (.inr ⟨k, i, rfl, hfree.1, hi, hfree.2, hinum, hinv', hstable, hlocks, ?_, by rw [hlog]; rfl⟩)
    refine ⟨fun j hj => update_of_ne hj .., fun j hj ht hji => ?_⟩
    have h1 := hsame j hj
    rw [update_of_ne hji] at h1
    rw [hdata]
    exact h1 ht

end

end Xv6.Fs
