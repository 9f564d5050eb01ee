import Xv6.Fs.Walk

/-!
# `namei` and `nameiparent`

Both walk along the elements of a path, from the root directory or from the current directory. In a tidy tree they return
what looking up the elements gives, and what is left is one reference to the inode returned. The exception is an inode
table that is full on the way.
-/

set_option autoImplicit false

namespace Xv6.Fs

open Xv6.Base

/-! ## Elements -/

/-- The inode at which a path starts. -/
def startInum (s : State) (cwd : Fin NINODE) (path : List UInt8) : Nat :=
  if path.head? = some slash then ROOTINO else (s.inode cwd).inum

theorem Stable.startInum {cnt : Fin NINODE → Nat} {s t : State} {cwd : Fin NINODE} (h : Stable cnt s t)
    (hcwd : 0 < cnt cwd) (path : List UInt8) : startInum t cwd path = startInum s cwd path := by
  unfold Fs.startInum
  rw [h.inum hcwd]

/-- There is room in the inode table for every inode of the walk. -/
def PathRoom (cnt : Fin NINODE → Nat) (s : State) (T : Tree) (parent : Bool) (cwd : Fin NINODE) (path : List UInt8) : Prop :=
  (path.head? = some slash → ROOTINO ∈ usedInums cnt s ∨ (usedInums cnt s).card < NINODE) ∧
  T.Room (usedInums cnt s) (startInum s cwd path) (looked parent (components path))

/-- In a tidy tree, `namex` finds what the walk says and changes nothing but the references. -/
def Found (cnt : Fin NINODE → Nat) (s : State) (T : Tree) (parent : Bool) (cwd : Fin NINODE) (path : List UInt8)
    (r : Option (Fin NINODE × List UInt8)) (t : State) (T' : Tree) : Prop :=
  Tidy cnt s T → T' = T ∧ t.data = s.data ∧ t.log = s.log ∧ PathRoom cnt s T parent cwd path ∧
    r.map (fun p => ((t.inode p.1).inum, p.2)) = T.walk parent (startInum s cwd path) (components path) [] ∧
    ∀ p ∈ r, Alive cnt s T (t.inode p.1).inum

/-- The panics of `namex`. -/
def NamexFails (cnt : Fin NINODE → Nat) (s : State) (T : Tree) (parent : Bool) (cwd : Fin NINODE) (path : List UInt8)
    (e : Panic) : Prop :=
  FsSafe e ∧ (Tidy cnt s T → e = .igetNoInodes ∧ ¬ PathRoom cnt s T parent cwd path)

section Namex

variable {sb : Superblock} {n : Nat} {cnt : Fin NINODE → Nat} {T : Tree} {s : State} {cwd : Fin NINODE}
  (hsb : sb.Layout)
include hsb

/-- The walk from inode `k`, to which a reference was taken. -/
theorem namexFrom_at {t : State} {k : Fin NINODE} (h : At sb sb.ninodes n (bump cnt k) ∅ T t) (hn : 0 < n)
    (hstable : Stable cnt s t) (hdata : t.data = s.data) (hlog : t.log = s.log) (parent : Bool) (path : List UInt8)
    (hstart : (t.inode k).inum = startInum s cwd path)
    (hroom : path.head? = some slash → ROOTINO ∈ usedInums cnt s ∨ (usedInums cnt s).card < NINODE)
    (halive : Tidy cnt s T → Alive cnt s T (startInum s cwd path)) :
    Meets (NamexFails cnt s T parent cwd path) (namexLoop sb parent path.length k path []) t fun r u =>
      ∃ T', Stable cnt s u ∧ Handed sb n cnt parent r u T' ∧ Found cnt s T parent cwd path r u T' := by
  refine ((namexLoop_at hsb path.length path [] (Nat.le_refl _) h hn).mono ?_).weaken ?_
  · rintro e ⟨hsafe, hfails⟩
    refine ⟨hsafe, fun ht => ?_⟩
    rw [hstart, hstable.usedInums] at hfails
    obtain ⟨he, hno⟩ := hfails (hstable.tidy ht) (hstable.alive.2 (halive ht))
    exact ⟨he, fun hpath => hno hpath.2⟩
  · rintro r u ⟨T', hstable', hhanded, hwalked⟩
    refine ⟨T', hstable.trans hstable', hhanded, fun ht => ?_⟩
    rw [hstart] at hwalked
    obtain ⟨h1, h2, h3, h4, h5, h6⟩ := hwalked (hstable.tidy ht) (hstable.alive.2 (halive ht))
    rw [hstable.usedInums] at h4
    exact ⟨h1, h2.trans hdata, h3.trans hlog, ⟨hroom, h4⟩, h5, fun p hp => hstable.alive.1 (h6 p hp)⟩

theorem namex_at (h : At sb sb.ninodes n cnt ∅ T s) (hn : 0 < n) (hcwd : 0 < cnt cwd) (parent : Bool)
    (path : List UInt8) : Meets (NamexFails cnt s T parent cwd path) (namex sb cwd path parent) s fun r t =>
      ∃ T', Stable cnt s t ∧ Handed sb n cnt parent r t T' ∧ Found cnt s T parent cwd path r t T' := by
  refine .ite (fun hslash => ?_) fun hslash => ?_
  · have hstart : startInum s cwd path = ROOTINO := if_pos hslash
    refine .bind ((iget_at h hsb.root).mono fun e he => ⟨he.safe, fun ht => ⟨he.1, fun hpath => ?_⟩⟩) ?_
    · exact h.noEntry_iff.1 he.2 (hpath.1 hslash)
    · rintro k t ⟨hat, hstable, hinum, hdata, hlog, -⟩
      exact namexFrom_at hsb hat hn hstable hdata hlog parent path (hinum.trans hstart.symm)
        (fun _ => h.room hstable hinum) fun ht => by rw [hstart]; exact ht.root.2
  · have hstart : startInum s cwd path = (s.inode cwd).inum := if_neg hslash
    refine .bind (idup_at h hcwd) ?_
    rintro - t ⟨hat, hstable, hdata, hlog⟩
    exact namexFrom_at hsb hat hn hstable hdata hlog parent path ((hstable.inum hcwd).trans hstart.symm)
      (fun hyes => absurd hyes hslash) fun _ => .inr ⟨cwd, hcwd, hstart.symm⟩

/-- `namei` in a state that may be untidy. -/
theorem namei_at (h : At sb sb.ninodes n cnt ∅ T s) (hn : 0 < n) (hcwd : 0 < cnt cwd) (path : List UInt8) :
    Meets (NamexFails cnt s T false cwd path) (namei sb cwd path) s fun r t => ∃ T', Stable cnt s t ∧
      ((r = none ∧ At sb sb.ninodes n cnt ∅ T' t) ∨ ∃ k, r = some k ∧ At sb sb.ninodes n (bump cnt k) ∅ T' t) ∧
      (Tidy cnt s T → T' = T ∧ t.data = s.data ∧ t.log = s.log ∧ PathRoom cnt s T false cwd path ∧
        r.map (fun k => (t.inode k).inum) = T.resolve (startInum s cwd path) (components path) ∧
        ∀ k ∈ r, Alive cnt s T (t.inode k).inum) := by
  refine .bind (namex_at hsb h hn hcwd false path) ?_
  rintro r t ⟨T', hstable, hhanded, hfound⟩
  refine .pure ⟨T', hstable, ?_, fun ht => ?_⟩
  · rcases hhanded with ⟨rfl, hat⟩ | ⟨k, name, rfl, hat, -⟩
    · exact .inl ⟨rfl, hat⟩
    · exact .inr ⟨k, rfl, hat⟩
  · obtain ⟨h1, h2, h3, h4, h5, h6⟩ := hfound ht
    refine ⟨h1, h2, h3, h4, ?_, ?_⟩
    · rw [← Tree.walk_false T _ _ [], ← h5, Option.map_map, Option.map_map]
      rfl
    · intro k hk
      obtain ⟨p, hp, rfl⟩ := Option.map_eq_some_iff.1 hk
      exact h6 p hp

end Namex

/-! ## Path resolution -/

/-- One more reference to the inode that is returned; the tree is as before, and so are the other references. -/
structure OneMore (sb : Superblock) (n : Nat) (cnt : Fin NINODE → Nat) (T : Tree) (s t : State) (r : Option (Fin NINODE)) :
    Prop where
  shows : At sb sb.ninodes n (r.elim cnt (bump cnt)) ∅ T t
  ref : ∀ l, (t.inode l).ref = (s.inode l).ref + if r = some l then 1 else 0
  stable : Stable cnt s t
  data : t.data = s.data
  log : t.log = s.log

section Resolution

variable {sb : Superblock} {n : Nat} {cnt : Fin NINODE → Nat} {T : Tree} {s : State} {cwd : Fin NINODE}

theorem At.ref {N : Nat} {L : Finset (Fin NINODE)} (h : At sb N n cnt L T s) (l : Fin NINODE) : (s.inode l).ref = cnt l := by
  obtain ⟨v, hinv, -⟩ := h.inv
  exact hinv.ref l

theorem OneMore.of_at {t : State} {r : Option (Fin NINODE)} (h : At sb sb.ninodes n cnt ∅ T s)
    (h' : At sb sb.ninodes n (r.elim cnt (bump cnt)) ∅ T t) (hstable : Stable cnt s t) (hdata : t.data = s.data)
    (hlog : t.log = s.log) : OneMore sb n cnt T s t r := by
  refine ⟨h', fun l => ?_, hstable, hdata, hlog⟩
  rw [h'.ref, h.ref]
  cases r with
  | none =>
    rw [if_neg (fun heq => by cases heq), Int.add_zero]
    rfl
  | some k =>
    show ((bump cnt k l : Nat) : Int) = _
    by_cases hl : l = k
    · rw [hl, bump_self, if_pos rfl]
      omega
    · rw [bump_of_ne cnt hl, if_neg (fun heq => hl (Option.some.inj heq).symm), Int.add_zero]

variable (hsb : sb.Layout)
include hsb

end Resolution

/-- The initial file system is tidy. -/
theorem mkfs_tidy (ops : Nat) (locked : Bool) :
    Tidy mkfsCnt (mkfsState ops locked) (treeOf Superblock.mkfs mkfsData mkfsDinodes) := by
  have hlinked : ∀ i, i = ROOTINO ∨ i = 2 → ∃ nd, treeOf Superblock.mkfs mkfsData mkfsDinodes i = some nd ∧ nd.nlink ≠ 0 := by
    intro i hi
    have hi' : i < Superblock.mkfs.ninodes ∧ (mkfsDinodes i).type ≠ 0 ∧ (mkfsDinodes i).nlink ≠ 0 := by
      rcases hi with rfl | rfl
      · decide
      · decide
    obtain ⟨nd, hnode, -, hlink, -⟩ := exists_node (m := mkfsData) hi'.1 hi'.2.1
    exact ⟨nd, hnode, by rw [hlink]; exact hi'.2.2⟩
  have hfine : ∀ i, i = ROOTINO ∨ i = 2 → treeOf Superblock.mkfs mkfsData mkfsDinodes i ≠ none ∧
      Alive mkfsCnt (mkfsState ops locked) (treeOf Superblock.mkfs mkfsData mkfsDinodes) i := by
    intro i hi
    obtain ⟨nd, hnd, hlink⟩ := hlinked i hi
    exact ⟨by rw [hnd]; exact Option.some_ne_none nd, .inl ⟨nd, hnd, hlink⟩⟩
  refine ⟨hfine ROOTINO (.inl rfl), fun k hk => ?_, fun i nd hi hdir _ e key a ha => ?_⟩
  · rw [(mkfs_inode ops locked hk).2]
    exact (hfine ROOTINO (.inl rfl)).1
  · rw [treeOf_eq (lt_of_treeOf hi)] at hi
    obtain ⟨htype, -, hdata⟩ := Dinode.node_fields hi
    rw [hdir] at htype
    rcases mkfs_type (by rw [← htype]; decide) with rfl | rfl
    · rw [hdata, mkfs_slots] at ha
      exact hfine a (mkfs_entry ha)
    · exact absurd htype (by decide)

theorem mkfs_unlocked (ops : Nat) : At Superblock.mkfs Superblock.mkfs.ninodes ops mkfsCnt ∅
    (treeOf Superblock.mkfs mkfsData mkfsDinodes) (mkfsState ops false) := by
  have hat := mkfs_at (N := Superblock.mkfs.ninodes) (by decide) ops false
  have hnone : (Finset.univ.filter fun k : Fin NINODE => k.val = 0 ∧ false = true) = ∅ := by decide
  rwa [hnone] at hat

end Xv6.Fs
