import Xv6.Fs.Directory

/-!
# Paths

What `namex` does, against the tree of inodes: the elements of the path are looked up one after another. A reference is
taken to every inode on the way and given back, so the walk leaves the tree alone if none of these inodes is freed by
giving it back (`Tidy`: what a directory names has a link or is in use). It stops only if the inode table has no room for
an inode on the way (`Tree.Room`).
-/

set_option autoImplicit false

namespace Xv6.Fs

open Xv6.Base

/-! ## Lookup in a tree -/

/-- The inode that directory `i` has under the name `c`. -/
def Tree.child (T : Tree) (i : Nat) (c : List UInt8) : Option Nat :=
  (T i).bind fun nd => if nd.type = T_DIR then Slots.lookup (dirSlots nd.data) (nameKey c) else none

/-- The inode reached from `i` by looking up the elements one after another. -/
def Tree.resolve (T : Tree) : Nat → List (List UInt8) → Option Nat
  | i, [] => some i
  | i, c :: cs => (T.child i c).bind fun j => T.resolve j cs

/-- What the walk finds: the inode reached, or with `parent` the directory before the last element, and the element. -/
def Tree.walk (T : Tree) (parent : Bool) : Nat → List (List UInt8) → List UInt8 → Option (Nat × List UInt8)
  | i, [], name => if parent then none else some (i, name)
  | i, c :: cs, _ => (T i).bind fun nd =>
    if nd.type = T_DIR then
      if parent = true ∧ cs = [] then some (i, c)
      else (Slots.lookup (dirSlots nd.data) (nameKey c)).bind fun j => T.walk parent j cs c
    else none

/-- While `i` is held besides the inodes `B`, there is room in the inode table for the next inode of the walk. -/
def Tree.Room (T : Tree) (B : Finset Nat) : Nat → List (List UInt8) → Prop
  | _, [] => True
  | i, c :: cs => ∀ j, T.child i c = some j → (j ∈ insert i B ∨ (insert i B).card < NINODE) ∧ T.Room B j cs

/-- The elements that are looked up. -/
def looked (parent : Bool) (cs : List (List UInt8)) : List (List UInt8) := if parent then cs.dropLast else cs

section Lookup

variable {T : Tree} {i : Nat}

theorem Tree.child_eq {nd : Node} (hi : T i = some nd) (hdir : nd.type = T_DIR) (c : List UInt8) :
    T.child i c = Slots.lookup (dirSlots nd.data) (nameKey c) := by
  unfold Tree.child
  rw [hi, Option.bind_some, if_pos hdir]

theorem Tree.child_of_not_dir {nd : Node} (hi : T i = some nd) (hdir : nd.type ≠ T_DIR) (c : List UInt8) :
    T.child i c = none := by
  unfold Tree.child
  rw [hi, Option.bind_some, if_neg hdir]

section

variable (T : Tree) (i : Nat) (cs : List (List UInt8))

/-- Without `parent`, the walk resolves the path. -/
theorem Tree.walk_false (name : List UInt8) : (T.walk false i cs name).map Prod.fst = T.resolve i cs := by
  induction cs generalizing i name with
  | nil => rfl
  | cons c cs ih =>
    unfold Tree.walk Tree.resolve Tree.child
    cases hi : T i with
    | none => rfl
    | some nd =>
      simp only [Option.bind_some]
      by_cases hdir : nd.type = T_DIR
      · rw [if_pos hdir, if_pos hdir, if_neg (fun h => Bool.false_ne_true h.1)]
        cases Slots.lookup (dirSlots nd.data) (nameKey c) with
        | none => rfl
        | some j => exact ih j c
      · rw [if_neg hdir, if_neg hdir]
        rfl

end

end Lookup

/-! ## Inodes in use -/

/-- Some entry of the inode table that is in use stands for inode `i`. -/
def InUse (cnt : Fin NINODE → Nat) (s : State) (i : Nat) : Prop := ∃ l, 0 < cnt l ∧ (s.inode l).inum = i

/-- Giving back a reference to inode `i` does not free it. -/
def Alive (cnt : Fin NINODE → Nat) (s : State) (T : Tree) (i : Nat) : Prop :=
  (∃ nd, T i = some nd ∧ nd.nlink ≠ 0) ∨ InUse cnt s i

/-- The inodes in use. -/
def usedInums (cnt : Fin NINODE → Nat) (s : State) : Finset Nat :=
  (Finset.univ.filter fun l => 0 < cnt l).image fun l => (s.inode l).inum

/-- The entries of the directories that can be reached name inodes that are not free, and that are not freed by a walk. -/
structure Tidy (cnt : Fin NINODE → Nat) (s : State) (T : Tree) : Prop where
  root : T ROOTINO ≠ none ∧ Alive cnt s T ROOTINO
  held : ∀ l, 0 < cnt l → T (s.inode l).inum ≠ none
  entry : ∀ i nd, T i = some nd → nd.type = T_DIR → Alive cnt s T i → ∀ e key a,
    Slots.Holds (dirSlots nd.data) e key a → T a ≠ none ∧ Alive cnt s T a

section Use

variable {sb : Superblock} {N n : Nat} {cnt : Fin NINODE → Nat} {L : Finset (Fin NINODE)} {T : Tree} {s t : State}
  {k : Fin NINODE} {i : Nat}

theorem mem_usedInums : i ∈ usedInums cnt s ↔ InUse cnt s i := by
  unfold usedInums InUse
  simp only [Finset.mem_image, Finset.mem_filter, Finset.mem_univ, true_and]

section

variable (h : Stable cnt s t)
include h

theorem Stable.inUse : InUse cnt t i ↔ InUse cnt s i :=
  ⟨fun ⟨l, hl, hi⟩ => ⟨l, hl, (h.inum hl).symm.trans hi⟩, fun ⟨l, hl, hi⟩ => ⟨l, hl, (h.inum hl).trans hi⟩⟩

theorem Stable.alive : Alive cnt t T i ↔ Alive cnt s T i := by
  unfold Alive
  rw [h.inUse]

theorem Stable.usedInums : usedInums cnt t = usedInums cnt s := by
  ext i
  rw [mem_usedInums, mem_usedInums, h.inUse]

theorem Stable.tidy_iff : Tidy cnt t T ↔ Tidy cnt s T := by
  constructor
  · intro ht
    refine ⟨⟨ht.root.1, h.alive.1 ht.root.2⟩, fun l hl => by rw [← h.inum hl]; exact ht.held l hl, ?_⟩
    intro i nd hi hdir halive e key a ha
    obtain ⟨h1, h2⟩ := ht.entry i nd hi hdir (h.alive.2 halive) e key a ha
    exact ⟨h1, h.alive.1 h2⟩
  · intro ht
    refine ⟨⟨ht.root.1, h.alive.2 ht.root.2⟩, fun l hl => by rw [h.inum hl]; exact ht.held l hl, ?_⟩
    intro i nd hi hdir halive e key a ha
    obtain ⟨h1, h2⟩ := ht.entry i nd hi hdir (h.alive.1 halive) e key a ha
    exact ⟨h1, h.alive.2 h2⟩

theorem Stable.tidy (ht : Tidy cnt s T) : Tidy cnt t T := h.tidy_iff.2 ht

end

theorem Alive.bumped (h : Alive cnt s T i) (k : Fin NINODE) : Alive (bump cnt k) s T i := by
  rcases h with hlink | ⟨l, hl, hli⟩
  · exact .inl hlink
  · exact .inr ⟨l, bump_pos k hl, hli⟩

theorem Tidy.ne_none (ht : Tidy cnt s T) (halive : Alive cnt s T i) : T i ≠ none := by
  rcases halive with ⟨nd, hnd, -⟩ | ⟨l, hl, rfl⟩
  · rw [hnd]
    exact Option.some_ne_none nd
  · exact ht.held l hl

theorem Tidy.lookup (ht : Tidy cnt s T) {nd : Node} (hi : T i = some nd) (hdir : nd.type = T_DIR)
    (halive : Alive cnt s T i) {key : List UInt8} {j : Nat} (hj : Slots.lookup (dirSlots nd.data) key = some j) :
    Alive cnt s T j := by
  obtain ⟨e, he⟩ := Slots.exists_holds hj
  exact (ht.entry i nd hi hdir halive e key j he).2

theorem usedInums_bump (cnt : Fin NINODE → Nat) (s : State) (k : Fin NINODE) :
    usedInums (bump cnt k) s = insert (s.inode k).inum (usedInums cnt s) := by
  ext i
  rw [Finset.mem_insert, mem_usedInums, mem_usedInums]
  constructor
  · rintro ⟨l, hl, rfl⟩
    by_cases hlk : l = k
    · exact .inl (by rw [hlk])
    · rw [bump_of_ne cnt hlk] at hl
      exact .inr ⟨l, hl, rfl⟩
  · rintro (rfl | ⟨l, hl, rfl⟩)
    · exact ⟨k, by rw [bump_self]; omega, rfl⟩
    · exact ⟨l, bump_pos k hl, rfl⟩

/-- `iget` finds no place exactly if the inode is not in use and every entry is. -/
theorem At.noEntry_iff (h : At sb N n cnt L T s) :
    (∀ l, 0 < cnt l ∧ (s.inode l).inum ≠ i) ↔ ¬ (i ∈ usedInums cnt s ∨ (usedInums cnt s).card < NINODE) := by
  have hcard : (usedInums cnt s).card = (Finset.univ.filter fun l => 0 < cnt l).card := by
    refine Finset.card_image_of_injOn fun a ha b hb hab => ?_
    exact h.inum_inj (Finset.mem_filter.1 ha).2 (Finset.mem_filter.1 hb).2 hab
  rw [not_or, mem_usedInums, hcard]
  constructor
  · intro hall
    refine ⟨fun ⟨l, _, hi⟩ => (hall l).2 hi, ?_⟩
    rw [Finset.filter_true_of_mem fun l _ => (hall l).1, Finset.card_univ, Fintype.card_fin]
    exact Nat.lt_irrefl _
  · rintro ⟨hno, hfull⟩ l
    have huniv : (Finset.univ.filter fun l => 0 < cnt l) = Finset.univ := by
      refine Finset.eq_univ_of_card _ (Nat.le_antisymm (Finset.card_le_univ _) ?_)
      rw [Fintype.card_fin]
      omega
    have hl : 0 < cnt l := by
      have hmem := Finset.mem_univ l
      rw [← huniv] at hmem
      exact (Finset.mem_filter.1 hmem).2
    exact ⟨hl, fun hi => hno ⟨l, hl, hi⟩⟩

/-- Once `iget` has succeeded, there was room. -/
theorem At.room (h : At sb N n cnt L T s) (hstable : Stable cnt s t) (hi : (t.inode k).inum = i) :
    i ∈ usedInums cnt s ∨ (usedInums cnt s).card < NINODE := by
  by_contra hno
  obtain ⟨hpos, hne⟩ := (h.noEntry_iff.2 hno) k
  exact hne ((hstable.inum hpos).symm.trans hi)

/-- The last reference to an inode without links keeps no inode alive. -/
theorem Alive.not_freed (halive : Alive cnt s T i) (hat : At sb N n (bump cnt k) L T s) (hi : (s.inode k).inum = i)
    (hcnt : cnt k = 0) {nd : Node} (hnode : T i = some nd) : nd.nlink ≠ 0 := by
  rcases halive with ⟨nd', hnd', hne⟩ | ⟨l, hl, hli⟩
  · rw [hnode] at hnd'
    cases hnd'
    exact hne
  · have hlk := hat.inum_inj (bump_pos k hl) (bump_self_pos ..) (hli.trans hi.symm)
    rw [hlk, hcnt] at hl
    exact absurd hl (Nat.lt_irrefl 0)

/-- Giving back a reference to an inode that stays alive changes neither the tree nor the disk. -/
theorem Dropped.of_alive {valid : Bool} {T' : Tree} (h : Dropped cnt k i valid T s t T')
    (hat : At sb N n (bump cnt k) L T s) (hi : (s.inode k).inum = i) (halive : Alive cnt s T i) :
    T' = T ∧ t.data = s.data ∧ t.log = s.log := by
  cases h with
  | kept _ hdata hlog => exact ⟨rfl, hdata, hlog⟩
  | freed hcnt hvalid hnode hlink => exact absurd hlink (halive.not_freed hat hi hcnt hnode)

theorem DropFails.not_alive {e : Panic} (h : DropFails cnt T s k e) (hat : At sb N n (bump cnt k) L T s) :
    ¬ Alive cnt s T (s.inode k).inum := by
  obtain ⟨-, hcnt, -, nd, hnode, hlink⟩ := h
  exact fun halive => halive.not_freed hat rfl hcnt hnode hlink

end Use

/-! ## The walk -/

/-- What a walk from inode `i`, with the elements `cs` left, has to do if the tree is tidy: it ends with what `Tree.walk`
says, and has changed nothing but the references. -/
def Walked (cnt : Fin NINODE → Nat) (s : State) (T : Tree) (parent : Bool) (i : Nat) (cs : List (List UInt8))
    (name : List UInt8) (r : Option (Fin NINODE × List UInt8)) (t : State) (T' : Tree) : Prop :=
  Tidy cnt s T → Alive cnt s T i → T' = T ∧ t.data = s.data ∧ t.log = s.log ∧
    T.Room (usedInums cnt s) i (looked parent cs) ∧
    r.map (fun p => ((t.inode p.1).inum, p.2)) = T.walk parent i cs name ∧
    ∀ p ∈ r, Alive cnt s T (t.inode p.1).inum

/-- The reference that a walk returns. -/
def Handed (sb : Superblock) (n : Nat) (cnt : Fin NINODE → Nat) (parent : Bool) (r : Option (Fin NINODE × List UInt8))
    (t : State) (T' : Tree) : Prop :=
  (r = none ∧ At sb sb.ninodes n cnt ∅ T' t) ∨
  ∃ k name, r = some (k, name) ∧ At sb sb.ninodes n (bump cnt k) ∅ T' t ∧
    (parent = true → (t.inode k).valid = true ∧ (t.inode k).di.type = T_DIR)

/-- The panics of a walk; in a tidy tree only the inode table can be full. -/
def WalkFails (cnt : Fin NINODE → Nat) (s : State) (T : Tree) (parent : Bool) (i : Nat) (cs : List (List UInt8))
    (e : Panic) : Prop :=
  FsSafe e ∧ (Tidy cnt s T → Alive cnt s T i →
    e = .igetNoInodes ∧ ¬ T.Room (usedInums cnt s) i (looked parent cs))

section Walk

variable {sb : Superblock} {n : Nat} {cnt : Fin NINODE → Nat} {T : Tree} {s : State} {k : Fin NINODE} {parent : Bool}

theorem looked_cons {c : List UInt8} {cs : List (List UInt8)} (h : ¬ (parent = true ∧ cs = [])) :
    looked parent (c :: cs) = c :: looked parent cs := by
  cases parent with
  | false => rfl
  | true =>
    cases cs with
    | nil => exact absurd ⟨rfl, rfl⟩ h
    | cons c' cs => rfl

variable (hsb : sb.Layout)
include hsb

/-- The end of the path. -/
theorem namexEnd_at (h : At sb sb.ninodes n (bump cnt k) ∅ T s) (hn : 0 < n) (name : List UInt8) :
    Meets (WalkFails cnt s T parent (s.inode k).inum [])
      (do if parent then do
            iput sb k
            pure none
          else pure (some (k, name)) : FM (Option (Fin NINODE × List UInt8))) s
      fun r t => ∃ T', Stable cnt s t ∧ Handed sb n cnt parent r t T' ∧
        Walked cnt s T parent (s.inode k).inum [] name r t T' := by
  cases parent with
  | false =>
    refine .pure ⟨T, .refl cnt s, .inr ⟨k, name, rfl, h, fun hp => absurd hp Bool.false_ne_true⟩, ?_⟩
    intro _ halive
    refine ⟨rfl, rfl, rfl, trivial, rfl, fun p hp => ?_⟩
    cases hp
    exact halive
  | true =>
    refine .bind ((iput_at hsb h hn).mono fun e he => ⟨he.1, fun _ halive => absurd halive (he.not_alive h)⟩) ?_
    rintro - t ⟨T', hat, hstable, hdrop⟩
    refine .pure ⟨T', hstable, .inl ⟨rfl, hat⟩, fun _ halive => ?_⟩
    obtain ⟨h1, h2, h3⟩ := hdrop.of_alive h rfl halive
    exact ⟨h1, h2, h3, trivial, rfl, fun p hp => by cases hp⟩

theorem namexLoop_at (fuel : Nat) (path name : List UInt8) (hfuel : path.length ≤ fuel)
    (h : At sb sb.ninodes n (bump cnt k) ∅ T s) (hn : 0 < n) :
    Meets (WalkFails cnt s T parent (s.inode k).inum (components path)) (namexLoop sb parent fuel k path name) s
      fun r t => ∃ T', Stable cnt s t ∧ Handed sb n cnt parent r t T' ∧
        Walked cnt s T parent (s.inode k).inum (components path) name r t T' := by
  induction fuel generalizing path name k T s with
  | zero =>
    have hnil : path = [] := List.eq_nil_of_length_eq_zero (Nat.le_zero.1 hfuel)
    subst hnil
    rw [components_nil, namexLoop]
    exact namexEnd_at hsb h hn name
  | succ fuel ih =>
    rw [namexLoop]
    cases hskip : skipelem path with
    | none =>
      rw [(skipelem_eq_none_iff path).1 hskip]
      exact namexEnd_at hsb h hn name
    | some p =>
      obtain ⟨c, rest⟩ := p
      obtain ⟨hcs, hshort, hrest⟩ := skipelem_eq_some hskip
      rw [hcs]
      have hk := bump_self_pos cnt k
      refine .bind ((ilock_at h hk (h.inum_lt hk)).mono fun e he => ⟨he.safe, fun ht halive => ?_⟩) ?_
      · rcases he with ⟨-, hmem⟩ | ⟨-, hnone⟩
        · exact absurd hmem (Finset.notMem_empty k)
        · exact absurd hnone (ht.ne_none halive)
      rintro - t ⟨hat, hstable, hvalid, hdata, hlog, -⟩
      obtain ⟨nd, hc⟩ := hat.copy hk hvalid
      have hinum := hstable.inum hk
      have hcnt : Stable cnt s t := hstable.unbump
      have hnode := hc.node
      rw [hinum] at hnode
      -- the two ways to give up
      have hgive : T.walk parent (s.inode k).inum (c :: components rest) name = none →
          T.Room (usedInums cnt s) (s.inode k).inum (looked parent (c :: components rest)) →
          Meets (WalkFails cnt s T parent (s.inode k).inum (c :: components rest))
            (do
              iunlockput sb k
              pure none : FM (Option (Fin NINODE × List UInt8))) t fun r u => ∃ T', Stable cnt s u ∧
            Handed sb n cnt parent r u T' ∧
            Walked cnt s T parent (s.inode k).inum (c :: components rest) name r u T' := by
        intro hwalk hroom
        refine .bind ((iunlockput_at hsb hat (Finset.notMem_empty k) hn).mono fun e he => ⟨he.1, fun _ halive => ?_⟩) ?_
        · refine absurd (hcnt.alive.2 halive) ?_
          rw [← hinum]
          exact he.not_alive hat
        · rintro - u ⟨T', hat', hstable', hdrop⟩
          refine .pure ⟨T', hcnt.trans hstable', .inl ⟨rfl, hat'⟩, fun _ halive => ?_⟩
          obtain ⟨h1, h2, h3⟩ := hdrop.of_alive hat rfl (by rw [hinum]; exact hcnt.alive.2 halive)
          exact ⟨h1, h2.trans hdata, h3.trans hlog, hroom, hwalk.symm, fun p hp => by cases hp⟩
      refine .step (getInode_eq k t) (.ite (fun hdir => ?_) fun hdir => ?_)
      · rw [hc.type] at hdir
        refine hgive ?_ ?_
        · unfold Tree.walk
          rw [hnode, Option.bind_some, if_neg hdir]
        · have hchild := Tree.child_of_not_dir hnode hdir
          by_cases hlast : parent = true ∧ components rest = []
          · rw [hlast.1, hlast.2]
            trivial
          · rw [looked_cons hlast]
            intro j hj
            rw [hchild] at hj
            cases hj
      rw [not_not, hc.type] at hdir
      refine .ite (fun hlast => ?_) fun hlast => ?_
      · -- the last element is left to the caller
        rw [hrest] at hlast
        obtain ⟨rfl, hnil⟩ := hlast
        refine .bind (iunlock_at hat hk (Finset.notMem_empty k)) ?_
        rintro - u ⟨hat', hstable', hvalid', hinum', hdata', hlog'⟩
        have htype := ((hstable' k hk).2 hvalid).2
        refine .pure ⟨T, hcnt.trans hstable'.unbump,
          Or.inr ⟨k, c, rfl, hat', fun _ => ⟨hvalid'.trans hvalid, htype.trans (hc.type.trans hdir)⟩⟩, ?_⟩
        intro _ halive
        rw [hnil]
        refine ⟨rfl, hdata'.trans hdata, hlog'.trans hlog, trivial, ?_, fun p hp => ?_⟩
        · unfold Tree.walk
          rw [hnode, Option.bind_some, if_pos hdir, if_pos (⟨rfl, rfl⟩ : true = true ∧ _)]
          exact congrArg some (congrArg (·, c) (hinum'.trans hinum))
        · cases hp
          rw [hinum', hinum]
          exact halive
      rw [hrest] at hlast
      have hused : usedInums (bump cnt k) t = insert (s.inode k).inum (usedInums cnt s) := by
        rw [usedInums_bump, hinum, hcnt.usedInums]
      have hchild := Tree.child_eq hnode hdir c
      have hstep : T.walk parent (s.inode k).inum (c :: components rest) name =
          (Slots.lookup (dirSlots nd.data) (nameKey c)).bind fun j => T.walk parent j (components rest) c := by
        rw [Tree.walk, hnode, Option.bind_some, if_pos hdir, if_neg hlast]
      refine .bind ((dirlookup_at hat hc hdir c).mono ?_) ?_
      · rintro e ⟨a, ha, hno⟩
        refine ⟨hno.safe, fun _ _ => ⟨hno.1, fun hroom => ?_⟩⟩
        rw [looked_cons hlast] at hroom
        have hfull := hat.noEntry_iff.1 hno.2
        rw [hused] at hfull
        exact hfull (hroom a (hchild.trans ha)).1
      rintro r u (⟨rfl, rfl, hnone⟩ | ⟨ip, e, a, rfl, ha, hsome, hat', hstable', hip, hdata', hlog', -⟩)
      · refine hgive ?_ ?_
        · rw [hstep, hnone]
          rfl
        · rw [looked_cons hlast]
          intro j hj
          rw [hchild, hnone] at hj
          cases hj
      · -- on with the next inode; the one before is given back
        rw [bump_comm] at hat'
        have hinum' : (u.inode k).inum = (s.inode k).inum := (hstable'.inum hk).trans hinum
        have hcnt' : Stable cnt s u := hcnt.trans hstable'.unbump
        have halive' : Alive cnt s T (s.inode k).inum → Alive (bump cnt ip) u T (u.inode k).inum := by
          intro halive
          rw [hinum']
          exact (hcnt'.alive.2 halive).bumped ip
        refine .bind ((iunlockput_at hsb hat' (Finset.notMem_empty k) hn).mono fun e he =>
          ⟨he.1, fun _ halive => absurd (halive' halive) (he.not_alive hat')⟩) ?_
        rintro - w ⟨T1, hat1, hstable1, hdrop⟩
        have hip' : (w.inode ip).inum = a := (hstable1.inum (bump_self_pos ..)).trans hip
        have hcnt1 : Stable cnt s w := hcnt'.trans hstable1.unbump
        -- in a tidy tree nothing has happened to the tree so far
        have hsame : Alive cnt s T (s.inode k).inum → T1 = T ∧ w.data = s.data ∧ w.log = s.log := by
          intro halive
          obtain ⟨h1, h2, h3⟩ := hdrop.of_alive hat' rfl (halive' halive)
          exact ⟨h1, h2.trans (hdata'.trans hdata), h3.trans (hlog'.trans hlog)⟩
        have hnext : Tidy cnt s T → Alive cnt s T (s.inode k).inum → Alive cnt w T a := by
          intro ht halive
          exact hcnt1.alive.2 (ht.lookup hnode hdir halive hsome)
        have hroom1 : a ∈ insert (s.inode k).inum (usedInums cnt s) ∨
            (insert (s.inode k).inum (usedInums cnt s)).card < NINODE := by
          rw [← hused]
          exact hat.room hstable' hip
        refine ((ih rest c (by omega) hat1).mono ?_).weaken ?_
        · rintro e ⟨hsafe, hfails⟩
          refine ⟨hsafe, fun ht halive => ?_⟩
          rw [(hsame halive).1, hip'] at hfails
          obtain ⟨he, hno⟩ := hfails (hcnt1.tidy ht) (hnext ht halive)
          refine ⟨he, fun hroom => hno ?_⟩
          rw [looked_cons hlast] at hroom
          rw [hcnt1.usedInums]
          exact (hroom a (hchild.trans hsome)).2
        · rintro r x ⟨T', hstable2, hhanded, hwalked⟩
          refine ⟨T', hcnt1.trans hstable2, hhanded, fun ht halive => ?_⟩
          obtain ⟨rfl, hwdata, hwlog⟩ := hsame halive
          rw [hip'] at hwalked
          obtain ⟨h1, h2, h3, h4, h5, h6⟩ := hwalked (hcnt1.tidy ht) (hnext ht halive)
          rw [hcnt1.usedInums] at h4
          refine ⟨h1, h2.trans hwdata, h3.trans hwlog, ?_, ?_, fun p hp => hcnt1.alive.1 (h6 p hp)⟩
          · rw [looked_cons hlast]
            intro j hj
            rw [hchild, hsome] at hj
            cases hj
            exact ⟨hroom1, h4⟩
          · rw [h5, hstep, hsome]
            rfl

end Walk

end Xv6.Fs
