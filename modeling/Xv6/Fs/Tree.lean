import Xv6.Fs.ByteArray
import Xv6.Fs.Mkfs
import Xv6.Fs.Table

/-!
# The tree of inodes

What the file system stores, without blocks and addresses: an inode is free, or a node with its fields and its
contents. `At sb N n cnt L T s` says that the state `s` shows the tree `T`, with `cnt` references to the entries of
the inode table, the locks of `L` taken, and `n` operations running; inode numbers that occur are below `N`. Every
function of the inode layer is described by what it does to these.
-/

set_option autoImplicit false

namespace Xv6.Fs

open Function Xv6.Base

/-- An inode in use. -/
structure Node where
  type : Int16
  major : Int16
  minor : Int16
  nlink : Int16
  data : List UInt8
  deriving DecidableEq

abbrev Tree := Nat → Option Node

def Dinode.node (m : Mem) (d : Dinode) : Option Node :=
  if d.type = 0 then none else some ⟨d.type, d.major, d.minor, d.nlink, d.contents m⟩

/-- The tree that the disk shows. -/
def treeOf (sb : Superblock) (m : Mem) (v : Nat → Dinode) : Tree := fun i =>
  if i < sb.ninodes then (v i).node m else none

/-- The state shows the tree `T`. -/
structure At (sb : Superblock) (N n : Nat) (cnt : Fin NINODE → Nat) (L : Finset (Fin NINODE)) (T : Tree) (s : State) :
    Prop where
  inv : ∃ v, Inv sb N cnt v s ∧ T = treeOf sb s.data v
  locks : ∀ k, (s.inode k).locked = decide (k ∈ L)
  ops : s.log.outstanding = n

/-- The entry `k` of the inode table is a copy of the node `nd`. -/
structure Copy (sb : Superblock) (T : Tree) (s : State) (k : Fin NINODE) (nd : Node) : Prop where
  node : T (s.inode k).inum = some nd
  type : (s.inode k).di.type = nd.type
  major : (s.inode k).di.major = nd.major
  minor : (s.inode k).di.minor = nd.minor
  nlink : (s.inode k).di.nlink = nd.nlink
  size : (s.inode k).di.size.toNat = nd.data.length
  data : (s.inode k).di.contents s.data = nd.data
  noHoles : NoHoles s.data (s.inode k).di
  fits : nd.data.length ≤ MAXFILE * BSIZE
  dev : (s.inode k).dev = ROOTDEV
  inum : (s.inode k).inum < sb.ninodes

variable {nd : Node}

section Nodes

variable {sb : Superblock} {m : Mem} {d : Dinode} {v : Nat → Dinode} {i : Nat}

theorem Dinode.node_eq_none_iff : d.node m = none ↔ d.type = 0 := by
  unfold Dinode.node
  split_ifs with h
  · exact ⟨fun _ => h, fun _ => rfl⟩
  · exact ⟨False.elim, fun heq => absurd heq h⟩

theorem Dinode.node_of_type (h : d.type ≠ 0) :
    d.node m = some ⟨d.type, d.major, d.minor, d.nlink, d.contents m⟩ := if_neg h

theorem Dinode.node_fields (h : d.node m = some nd) :
    nd.type = d.type ∧ nd.nlink = d.nlink ∧ nd.data = d.contents m := by
  unfold Dinode.node at h
  split_ifs at h
  cases h
  exact ⟨rfl, rfl, rfl⟩

theorem treeOf_eq (h : i < sb.ninodes) : treeOf sb m v i = (v i).node m := if_pos h

theorem exists_node (hi : i < sb.ninodes) (htype : (v i).type ≠ 0) :
    ∃ nd, treeOf sb m v i = some nd ∧ nd.type = (v i).type ∧ nd.nlink = (v i).nlink ∧ nd.data = (v i).contents m :=
  ⟨_, (treeOf_eq hi).trans (Dinode.node_of_type htype), rfl, rfl, rfl⟩

theorem lt_of_treeOf (h : treeOf sb m v i = some nd) : i < sb.ninodes := by
  by_contra hge
  rw [treeOf, if_neg hge] at h
  cases h

/-- One inode changes, the others are kept. -/
theorem Kept.tree {v' : Nat → Dinode} {m' : Mem} (h : Kept sb i v m v' m') (hi : i < sb.ninodes) :
    treeOf sb m' v' = update (treeOf sb m v) i ((v' i).node m') := by
  funext j
  by_cases hji : j = i
  · rw [hji, update_self, treeOf_eq hi]
  · rw [update_of_ne hji]
    unfold treeOf
    split_ifs with hj
    · rw [h.others j hji]
      by_cases ht : (v j).type = 0
      · rw [Dinode.node_eq_none_iff.2 ht, Dinode.node_eq_none_iff.2 ht]
      · rw [Dinode.node_of_type ht, Dinode.node_of_type ht, h.same j hj ht hji]
    · rfl

end Nodes

variable {i : Nat} {t : State}

section Facts

variable {sb : Superblock} {N n : Nat} {cnt : Fin NINODE → Nat} {L : Finset (Fin NINODE)} {T : Tree} {s : State}
  {k : Fin NINODE}

theorem At.lt_ninodes (h : At sb N n cnt L T s) (hi : T i = some nd) : i < sb.ninodes := by
  obtain ⟨v, -, rfl⟩ := h.inv
  exact lt_of_treeOf hi

section

variable (h : At sb N n cnt L T s) (hk : 0 < cnt k)
include h hk

theorem At.inum_lt : (s.inode k).inum < N := by
  obtain ⟨v, hinv, -⟩ := h.inv
  exact (hinv.entry k hk).2

theorem At.inum_mod_lt : (s.inode k).inum % 65536 < N :=
  Nat.lt_of_le_of_lt (Nat.mod_le _ _) (h.inum_lt hk)

theorem At.dev : (s.inode k).dev = ROOTDEV := by
  obtain ⟨v, hinv, -⟩ := h.inv
  exact (hinv.entry k hk).1

theorem At.inum_inj {l : Fin NINODE} (hl : 0 < cnt l) (heq : (s.inode k).inum = (s.inode l).inum) : k = l := by
  obtain ⟨v, hinv, -⟩ := h.inv
  exact hinv.uniq k l hk hl heq

/-- A valid entry is a copy of an inode in use. -/
theorem At.copy (hv : (s.inode k).valid = true) : ∃ nd, Copy sb T s k nd := by
  obtain ⟨v, hinv, rfl⟩ := h.inv
  obtain ⟨hi, hdi, htype⟩ := hinv.valid k hk hv
  have hdev := (hinv.entry k hk).1
  have hsize := hinv.image.sizes _ hi htype
  refine ⟨⟨_, _, _, _, _⟩, (treeOf_eq hi).trans (Dinode.node_of_type htype), ?_, ?_, ?_, ?_, ?_, ?_, ?_, ?_, hdev, hi⟩
  · rw [hdi]
  · rw [hdi]
  · rw [hdi]
  · rw [hdi]
  · rw [hdi, Dinode.contents_length]
  · rw [hdi]
  · rw [hdi]
    exact hinv.image.noHoles _ hi htype
  · rw [Dinode.contents_length]
    exact hsize

/-- A valid entry is a copy of what the tree has. -/
theorem At.copy_of (hv : (s.inode k).valid = true)
    (hi : (s.inode k).inum = i) (hnode : T i = some nd) : Copy sb T s k nd := by
  obtain ⟨nd', hc⟩ := h.copy hk hv
  have heq := hc.node
  rw [hi, hnode, Option.some.injEq] at heq
  rwa [heq]

end

theorem SameLocks.at (h : At sb N n cnt L T s) (hlocks : SameLocks s t) (l : Fin NINODE) :
    (t.inode l).locked = decide (l ∈ L) := (hlocks l).trans (h.locks l)

theorem Stable.inum (h : Stable cnt s t) (hk : 0 < cnt k) : (t.inode k).inum = (s.inode k).inum := (h k hk).1

theorem Stable.valid (h : Stable cnt s t) (hk : 0 < cnt k) (hv : (s.inode k).valid = true) :
    (t.inode k).valid = true := ((h k hk).2 hv).1

end Facts

/-! ## References and locks -/

section Steps

variable {sb : Superblock} {N n : Nat} {cnt : Fin NINODE → Nat} {L : Finset (Fin NINODE)} {T : Tree} {s : State}
  {k : Fin NINODE}

theorem iget_at (h : At sb N n cnt L T s) (hi : i < N) :
    Meets (NoEntry cnt i s) (iget ROOTDEV i) s fun k t => At sb N n (bump cnt k) L T t ∧ Stable cnt s t ∧
      (t.inode k).inum = i ∧ t.data = s.data ∧ t.log = s.log ∧ (cnt k = 0 → (t.inode k).valid = false) := by
  obtain ⟨v, hinv, rfl⟩ := h.inv
  refine (iget_meets hinv hi).weaken ?_
  rintro k t ⟨hinv', hstable, hlocks, hinum, hdata, hlog, hfresh⟩
  exact ⟨⟨⟨v, hinv', by rw [hdata]⟩, hlocks.at h, by rw [hlog]; exact h.ops⟩, hstable, hinum, hdata, hlog, hfresh⟩

theorem idup_at {E : Panic → Prop} (h : At sb N n cnt L T s) (hk : 0 < cnt k) :
    Meets E (idup k) s fun _ t => At sb N n (bump cnt k) L T t ∧ Stable cnt s t ∧ t.data = s.data ∧ t.log = s.log := by
  obtain ⟨v, hinv, rfl⟩ := h.inv
  refine (idup_meets hinv hk).weaken ?_
  rintro - t ⟨hinv', hstable, hlocks, hdata, hlog⟩
  exact ⟨⟨⟨v, hinv', by rw [hdata]⟩, hlocks.at h, by rw [hlog]; exact h.ops⟩, hstable, hdata, hlog⟩

/-- `ilock` stops at a lock that is held, and at an inode that is free. -/
def LockFails (L : Finset (Fin NINODE)) (T : Tree) (s : State) (k : Fin NINODE) (e : Panic) : Prop :=
  (e = .deadlock ∧ k ∈ L) ∨ (e = .ilockNoType ∧ T (s.inode k).inum = none)

omit N n cnt sb in
theorem LockFails.safe {e : Panic} (h : LockFails L T s k e) : FsSafe e := by
  rcases h with ⟨rfl, -⟩ | ⟨rfl, -⟩
  · decide
  · decide

theorem ilock_at (h : At sb N n cnt L T s) (hk : 0 < cnt k) (hi : (s.inode k).inum < sb.ninodes) :
    Meets (LockFails L T s k) (ilock sb k) s fun _ t => At sb N n cnt (insert k L) T t ∧ Stable cnt s t ∧
      (t.inode k).valid = true ∧ t.data = s.data ∧ t.log = s.log ∧ k ∉ L := by
  obtain ⟨v, hinv, rfl⟩ := h.inv
  refine ((ilock_meets hinv hk hi).mono ?_).weaken ?_
  · rintro e (⟨he, hlocked⟩ | ⟨he, htype⟩)
    · rw [h.locks] at hlocked
      exact .inl ⟨he, of_decide_eq_true hlocked⟩
    · exact .inr ⟨he, (treeOf_eq hi).trans (Dinode.node_eq_none_iff.2 htype)⟩
  rintro - t ⟨hinv', hstable, hvalid, hlocked, hothers, -, hdata, hlog, hfree⟩
  rw [h.locks, decide_eq_false_iff_not] at hfree
  refine ⟨⟨⟨v, hinv', by rw [hdata]⟩, fun l => ?_, by rw [hlog]; exact h.ops⟩, hstable, hvalid, hdata, hlog, hfree⟩
  by_cases hl : l = k
  · rw [hl, hlocked]
    exact (decide_eq_true (Finset.mem_insert_self k L)).symm
  · rw [hothers l hl, h.locks, decide_eq_decide]
    exact ⟨Finset.mem_insert_of_mem, fun hmem => Finset.mem_of_mem_insert_of_ne hmem hl⟩

/-- The inode that is locked has a node. -/
theorem ilock_safe (h : At sb sb.ninodes n cnt L T s) (hk : 0 < cnt k) :
    Meets FsSafe (ilock sb k) s fun _ t => At sb sb.ninodes n cnt (insert k L) T t ∧ Stable cnt s t ∧
      (t.inode k).valid = true ∧ k ∉ L ∧ ∃ nd, Copy sb T t k nd := by
  refine ((ilock_at h hk (h.inum_lt hk)).mono fun _ he => he.safe).weaken ?_
  rintro - t ⟨hat, hstable, hvalid, -, -, hfree⟩
  exact ⟨hat, hstable, hvalid, hfree, hat.copy hk hvalid⟩

/-- A lock that is held is released. -/
theorem iunlock_at {E : Panic → Prop} (h : At sb N n cnt (insert k L) T s) (hk : 0 < cnt k) (hL : k ∉ L) :
    Meets E (iunlock sb k) s fun _ t => At sb N n cnt L T t ∧ Stable cnt s t ∧
      (t.inode k).valid = (s.inode k).valid ∧ (t.inode k).inum = (s.inode k).inum ∧ t.data = s.data ∧ t.log = s.log := by
  obtain ⟨v, hinv, rfl⟩ := h.inv
  have hheld := (h.locks k).trans (decide_eq_true (Finset.mem_insert_self k L))
  refine ((iunlock_meets hinv).mono fun e he => absurd ⟨hheld, hk⟩ he.2).weaken ?_
  rintro - t ⟨hinv', hstable, -, hinode, hdata, hlog⟩
  have hself : t.inode k = { s.inode k with locked := false } := by rw [hinode, update_self]
  refine ⟨⟨⟨v, hinv', by rw [hdata]⟩, fun l => ?_, by rw [hlog]; exact h.ops⟩, hstable, by rw [hself],
    by rw [hself], hdata, hlog⟩
  by_cases hl : l = k
  · rw [hl, hself]
    exact (decide_eq_false hL).symm
  · rw [hinode, update_of_ne hl, h.locks, decide_eq_decide]
    exact ⟨fun hmem => Finset.mem_of_mem_insert_of_ne hmem hl, Finset.mem_insert_of_mem⟩

/-- A reference to entry `k`, which stands for inode `i`, is given back: the inode is freed if this was the last
reference, the entry is valid and no directory entry is left. -/
inductive Dropped (cnt : Fin NINODE → Nat) (k : Fin NINODE) (i : Nat) (valid : Bool) (T : Tree) (s t : State) : Tree → Prop
  | kept (h : cnt k = 0 → valid = true → ∀ nd, T i = some nd → nd.nlink ≠ 0) (hdata : t.data = s.data)
      (hlog : t.log = s.log) : Dropped cnt k i valid T s t T
  | freed {nd : Node} (hcnt : cnt k = 0) (hvalid : valid = true) (hnode : T i = some nd) (hlink : nd.nlink = 0) :
      Dropped cnt k i valid T s t (update T i none)

/-- An inode without links, to which no entry in use refers, may have been freed. -/
def Reclaimed (cnt : Fin NINODE → Nat) (i : Nat) (T : Tree) (s : State) (T' : Tree) : Prop :=
  T' = T ∨ ∃ nd, T i = some nd ∧ nd.nlink = 0 ∧ (∀ l, 0 < cnt l → (s.inode l).inum ≠ i) ∧ T' = update T i none

theorem Dropped.reclaimed {valid : Bool} {T' : Tree} (h : Dropped cnt k i valid T s t T')
    (hat : At sb N n (bump cnt k) L T s) (hi : (s.inode k).inum = i) : Reclaimed cnt i T s T' := by
  cases h with
  | kept _ _ _ => exact .inl rfl
  | freed hcnt hvalid hnode hlink =>
    refine .inr ⟨_, hnode, hlink, fun l hl heq => ?_, rfl⟩
    have hlk := hat.inum_inj (bump_pos k hl) (bump_self_pos ..) (heq.trans hi.symm)
    rw [hlk, hcnt] at hl
    exact Nat.lt_irrefl 0 hl

/-- Giving back a reference stops only when the inode is freed. -/
def DropFails (cnt : Fin NINODE → Nat) (T : Tree) (s : State) (k : Fin NINODE) (e : Panic) : Prop :=
  FsSafe e ∧ cnt k = 0 ∧ (s.inode k).valid = true ∧ ∃ nd, T (s.inode k).inum = some nd ∧ nd.nlink = 0

variable (hsb : sb.Layout)
include hsb

theorem iput_at (h : At sb N n (bump cnt k) L T s) (hn : 0 < n) :
    Meets (DropFails cnt T s k) (iput sb k) s fun _ t => ∃ T', At sb N n cnt L T' t ∧ Stable cnt s t ∧
      Dropped cnt k (s.inode k).inum (s.inode k).valid T s t T' := by
  obtain ⟨v, hinv, rfl⟩ := h.inv
  have hk := bump_self_pos cnt k
  refine ((iput_meets hsb hinv (by rw [h.ops]; exact hn)).mono ?_).weaken ?_
  · rintro e ⟨hsafe, hcnt, hvalid, hlink⟩
    refine ⟨hsafe, hcnt, hvalid, _, (treeOf_eq (hinv.inum_lt hk hvalid)).trans
      (Dinode.node_of_type (hinv.type_ne hk hvalid)), hlink⟩
  rintro - t ⟨v', hinv', hstable, hlocks, hout, hret⟩
  refine ⟨_, ⟨⟨v', hinv', rfl⟩, hlocks.at h, hout.trans h.ops⟩, hstable, ?_⟩
  rcases hret with ⟨hnot, rfl, hdata, hlog⟩ | ⟨⟨hcnt, hvalid, hlink⟩, rfl, hkept⟩
  · rw [hdata]
    refine Dropped.kept (fun hcnt hvalid nd hnd hlink => hnot ⟨hcnt, hvalid, ?_⟩) hdata hlog
    rw [treeOf_eq (hinv.inum_lt hk hvalid), Dinode.node_of_type (hinv.type_ne hk hvalid)] at hnd
    cases hnd
    exact hlink
  · have hi := hinv.inum_lt hk hvalid
    rw [hkept.tree hi, update_self, Dinode.node_eq_none_iff.2 rfl]
    refine Dropped.freed hcnt hvalid ((treeOf_eq hi).trans (Dinode.node_of_type (hinv.type_ne hk hvalid))) hlink

theorem iunlockput_at (h : At sb N n (bump cnt k) (insert k L) T s) (hL : k ∉ L) (hn : 0 < n) :
    Meets (DropFails cnt T s k) (iunlockput sb k) s fun _ t => ∃ T', At sb N n cnt L T' t ∧ Stable cnt s t ∧
      Dropped cnt k (s.inode k).inum (s.inode k).valid T s t T' := by
  refine .bind (iunlock_at h (bump_self_pos cnt k) hL) ?_
  rintro - t ⟨hat, hstable, hvalid, hinum, hdata, hlog⟩
  have hfails : ∀ e, DropFails cnt T t k e → DropFails cnt T s k e := by
    intro e he
    unfold DropFails at he ⊢
    rwa [hvalid, hinum] at he
  refine ((iput_at hsb hat hn).mono hfails).weaken ?_
  rintro - u ⟨T', hat', hstable', hdrop⟩
  refine ⟨T', hat', hstable.unbump.trans hstable', ?_⟩
  rw [hvalid, hinum] at hdrop
  cases hdrop with
  | kept h hdata' hlog' => exact Dropped.kept h (hdata'.trans hdata) (hlog'.trans hlog)
  | freed h1 h2 h3 h4 => exact Dropped.freed h1 h2 h3 h4

/-! ## Inodes -/

/-- Link count and device numbers are set, in memory and on the disk. -/
theorem iupdate_at (h : At sb N n cnt L T s) (hn : 0 < n) (hk : 0 < cnt k) (hv : (s.inode k).valid = true)
    (hc : Copy sb T s k nd) (major minor nlink : Int16) : Meets FsSafe (iupdate sb k) (s.setInode k { s.inode k with
      di := { (s.inode k).di with major := major, minor := minor, nlink := nlink } }) fun _ t =>
      At sb N n cnt L (update T (s.inode k).inum
        (some { nd with major := major, minor := minor, nlink := nlink })) t ∧ Stable cnt s t := by
  obtain ⟨v, hinv, rfl⟩ := h.inv
  have hi := hinv.inum_lt hk hv
  have hdi := hinv.di_eq hk hv
  have htype := hinv.type_ne hk hv
  refine (iupdate_fields_meets hsb hinv (by rw [h.ops]; exact hn) hk hv
    (d := { (s.inode k).di with major := major, minor := minor, nlink := nlink }) (by rw [hdi]) (by rw [hdi])
    (by rw [hdi])).weaken ?_
  rintro - t ⟨hinv', hstable, hlocks, hkept, hcontents, hout⟩
  refine ⟨⟨⟨_, hinv', ?_⟩, hlocks.at h, hout.trans h.ops⟩, hstable⟩
  rw [hkept.tree hi, update_self, Dinode.node_of_type (by exact hdi ▸ htype), hcontents, ← hdi, hc.data]
  rw [← hc.type]

theorem ialloc_at (h : At sb N n cnt L T s) (hN : sb.ninodes ≤ N) (hn : 0 < n) {type : Int16} (htype : type ≠ 0) :
    Meets FsSafe (ialloc sb ROOTDEV type) s fun r t => (r = none ∧ t = s) ∨
      ∃ k i, r = some k ∧ 0 < i ∧ i < sb.ninodes ∧ T i = none ∧ (t.inode k).inum = i ∧
        At sb N n (bump cnt k) L (update T i (some ⟨type, 0, 0, 0, []⟩)) t ∧ Stable cnt s t := by
  obtain ⟨v, hinv, rfl⟩ := h.inv
  refine (ialloc_meets hsb hinv hN (by rw [h.ops]; exact hn) type).weaken ?_
  rintro r t (⟨rfl, rfl⟩ | ⟨k, i, rfl, hpos, hi, hfree, hinum, hinv', hstable, hlocks, hkept, hout⟩)
  · exact .inl ⟨rfl, rfl⟩
  · refine .inr ⟨k, i, rfl, hpos, hi, (treeOf_eq hi).trans (Dinode.node_eq_none_iff.2 hfree), hinum,
      ⟨⟨_, hinv', ?_⟩, hlocks.at h, hout.trans h.ops⟩, hstable⟩
    rw [hkept.tree hi, update_self, Dinode.node_of_type (by exact htype)]
    rfl

end Steps

/-! ## The initial file system -/

/-- The first entry of the inode table stands for the root directory of the initial file system. -/
def mkfsState (ops : Nat) (locked : Bool) : State where
  data := mkfsData
  disk := mkfsData
  log := ⟨[], ops, []⟩
  inode := fun k => if k.val = 0 then ⟨ROOTDEV, ROOTINO, 1, locked, true, mkfsDinodes ROOTINO⟩ else
    ⟨0, 0, 0, false, false, Dinode.zero⟩
  releases := []

theorem mkfs_entries : ∀ e, e < 64 → (mkfsDinodes ROOTINO).entryInum mkfsData e < 3 := by
  decide +kernel

/-- One reference to the root directory. -/
def mkfsCnt (k : Fin NINODE) : Nat := if k.val = 0 then 1 else 0

theorem mkfs_inode (ops : Nat) (locked : Bool) {k : Fin NINODE} (hk : 0 < mkfsCnt k) :
    k.val = 0 ∧ (mkfsState ops locked).inode k = ⟨ROOTDEV, ROOTINO, 1, locked, true, mkfsDinodes ROOTINO⟩ := by
  by_cases h0 : k.val = 0
  · exact ⟨h0, if_pos h0⟩
  · unfold mkfsCnt at hk
    rw [if_neg h0] at hk
    exact absurd hk (Nat.lt_irrefl 0)

theorem mkfs_inv {N : Nat} (hN : 3 ≤ N) (ops : Nat) (locked : Bool) :
    Inv Superblock.mkfs N mkfsCnt mkfsDinodes (mkfsState ops locked) where
  image := mkfs_image
  dirs := by
    intro i _ htype
    rcases mkfs_type (by rw [htype]; decide) with rfl | rfl
    · refine ⟨by decide, fun e he => Nat.lt_of_lt_of_le (mkfs_entries e ?_) hN⟩
      have he' : e * 16 < 1024 := he
      omega
    · exact absurd htype (by decide)
  ref := by
    intro k
    by_cases h0 : k.val = 0
    · rw [(mkfs_inode ops locked (by unfold mkfsCnt; rw [if_pos h0]; exact Nat.one_pos)).2, mkfsCnt, if_pos h0]
      rfl
    · show (if k.val = 0 then _ else _ : Inode).ref = _
      rw [mkfsCnt, if_neg h0, if_neg h0]
      rfl
  entry := by
    intro k hk
    rw [(mkfs_inode ops locked hk).2]
    exact ⟨rfl, Nat.lt_of_lt_of_le (show ROOTINO < 3 by decide) hN⟩
  uniq := fun k l hk hl _ => Fin.ext ((mkfs_inode ops locked hk).1.trans (mkfs_inode ops locked hl).1.symm)
  valid := by
    intro k hk _
    rw [(mkfs_inode ops locked hk).2]
    exact ⟨show ROOTINO < 200 by decide, rfl, show T_DIR ≠ 0 by decide⟩
  releases := fun r hr => absurd hr List.not_mem_nil

theorem mkfs_at {N : Nat} (hN : 3 ≤ N) (ops : Nat) (locked : Bool) :
    At Superblock.mkfs N ops mkfsCnt (Finset.univ.filter fun k => k.val = 0 ∧ locked = true)
      (treeOf Superblock.mkfs mkfsData mkfsDinodes) (mkfsState ops locked) := by
  refine ⟨⟨mkfsDinodes, mkfs_inv hN ops locked, rfl⟩, fun k => ?_, rfl⟩
  show (if k.val = 0 then _ else _ : Inode).locked = _
  split_ifs with h0
  · simp [h0]
  · simp [h0]

end Xv6.Fs
