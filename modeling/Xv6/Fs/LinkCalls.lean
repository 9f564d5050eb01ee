import Xv6.Fs.Resolution

/-!
# `sys_link` and `sys_unlink`

Both find a directory by its path, change an entry of it and the link count of the inode named there. What they leave
behind is described on the tree: in a tidy tree a call that fails leaves it as it was.
-/

set_option autoImplicit false

namespace Xv6.Fs

open Function Xv6.Base

/-! ## The frame of a call -/

section Frame

variable {sb : Superblock} {N n : Nat} {cnt : Fin NINODE → Nat} {L : Finset (Fin NINODE)} {T : Tree} {s t : State}
  {k : Fin NINODE} {E : Panic → Prop}

theorem Stable.of_inode (h : t.inode = s.inode) : Stable cnt s t := by
  intro l _
  rw [h]
  exact ⟨rfl, fun hv => ⟨hv, rfl⟩⟩

theorem At.of_log (h : At sb N n cnt L T s) {m : Nat} (hdata : t.data = s.data) (hinode : t.inode = s.inode)
    (hreleases : t.releases = s.releases) (hops : t.log.outstanding = m) : At sb N m cnt L T t := by
  obtain ⟨v, hinv, hT⟩ := h.inv
  exact ⟨⟨v, hinv.of_log hdata hinode hreleases, by rw [hdata]; exact hT⟩, by rw [hinode]; exact h.locks, hops⟩

theorem beginOp_at (h : At sb N n cnt L T s) :
    Meets E beginOp s fun _ t => At sb N (n + 1) cnt L T t ∧ Stable cnt s t := by
  refine .of_ok rfl ⟨h.of_log rfl rfl rfl ?_, .of_inode rfl⟩
  show s.log.outstanding + 1 = n + 1
  rw [h.ops]

theorem endOp_at (h : At sb N (n + 1) cnt L T s) : Meets E endOp s fun _ t => At sb N n cnt L T t ∧ Stable cnt s t := by
  have hops := h.ops
  by_cases hlast : s.log.outstanding - 1 = 0
  · refine .of_ok (if_pos hlast) ⟨h.of_log rfl rfl rfl ?_, .of_inode rfl⟩
    show 0 = n
    omega
  · refine .of_ok (if_neg hlast) ⟨h.of_log rfl rfl rfl ?_, .of_inode rfl⟩
    show s.log.outstanding - 1 = n
    omega

/-- A call ends with the result `r`. -/
theorem finish_at {α : Type} (h : At sb N (n + 1) cnt L T s) (r : α) :
    Meets E (do
      endOp
      pure r : FM α) s fun r' t => r' = r ∧ At sb N n cnt L T t ∧ Stable cnt s t := by
  refine .bind (endOp_at h) ?_
  rintro - t ⟨hat, hstable⟩
  exact .pure ⟨rfl, hat, hstable⟩

variable (hsb : sb.Layout)
include hsb

/-- An inode that is locked is given back. -/
theorem iunlockput_safe (h : At sb N (n + 1) (bump cnt k) (insert k L) T s) (hL : k ∉ L) :
    Meets FsSafe (iunlockput sb k) s fun _ t => ∃ T', At sb N (n + 1) cnt L T' t ∧ Stable cnt s t ∧
      Reclaimed cnt (s.inode k).inum T s T' ∧ (Alive cnt s T (s.inode k).inum → T' = T) := by
  refine ((iunlockput_at hsb h hL (Nat.succ_pos n)).mono fun _ he => he.1).weaken ?_
  rintro - t ⟨T', hat, hstable, hdrop⟩
  exact ⟨T', hat, hstable, hdrop.reclaimed h rfl, fun halive => (hdrop.of_alive h rfl halive).1⟩

theorem iput_safe (h : At sb N (n + 1) (bump cnt k) L T s) :
    Meets FsSafe (iput sb k) s fun _ t => ∃ T', At sb N (n + 1) cnt L T' t ∧ Stable cnt s t ∧
      Reclaimed cnt (s.inode k).inum T s T' ∧ (Alive cnt s T (s.inode k).inum → T' = T) := by
  refine ((iput_at hsb h (Nat.succ_pos n)).mono fun _ he => he.1).weaken ?_
  rintro - t ⟨T', hat, hstable, hdrop⟩
  exact ⟨T', hat, hstable, hdrop.reclaimed h rfl, fun halive => (hdrop.of_alive h rfl halive).1⟩

/-- An inode that is locked is given back, and the call ends. -/
theorem dropEnd_at {α : Type} (h : At sb N (n + 1) (bump cnt k) (insert k ∅) T s) (r : α) :
    Meets FsSafe (do
      iunlockput sb k
      endOp
      pure r : FM α) s fun r' t => r' = r ∧ ∃ T', At sb N n cnt ∅ T' t ∧ Stable cnt s t ∧
        (Alive cnt s T (s.inode k).inum → T' = T) := by
  refine .bind (iunlockput_safe hsb h (Finset.notMem_empty k)) ?_
  rintro - t ⟨T', hat, hstable, -, hsame⟩
  refine (finish_at hat r).weaken ?_
  rintro r' u ⟨rfl, hat', hstable'⟩
  exact ⟨rfl, T', hat', hstable.trans hstable', hsame⟩

/-- A call that works on the inode of a path: it ends if there is none, and goes on with the inode locked. -/
theorem nameiLock_at {cwd : Fin NINODE} {α : Type} {Q : α → State → Prop} (h : At sb sb.ninodes n cnt ∅ T s)
    (hcwd : 0 < cnt cwd) (path : List UInt8) (r : α) (f : Fin NINODE → FM α)
    (hnone : ∀ T' t, At sb sb.ninodes n cnt ∅ T' t → Stable cnt s t → (Tidy cnt s T → T' = T) → Q r t)
    (hsome : ∀ k T' t, At sb sb.ninodes (n + 1) (bump cnt k) (insert k ∅) T' t → Stable cnt s t →
      (t.inode k).valid = true → (Tidy cnt s T → T' = T ∧ Alive cnt t T (t.inode k).inum ∧
        T.resolve (startInum s cwd path) (components path) = some (t.inode k).inum) → Meets FsSafe (f k) t Q) :
    Meets FsSafe (do
      beginOp
      match ← namei sb cwd path with
      | none => do
          endOp
          pure r
      | some ip => do
          ilock sb ip
          f ip) s Q := by
  refine .bind (beginOp_at h) ?_
  rintro - s1 ⟨h1, hst1⟩
  refine .bind ((namei_at hsb h1 (Nat.succ_pos n) hcwd path).mono fun _ he => he.1) ?_
  rintro r' s2 ⟨T', hstable2, ⟨rfl, h2⟩ | ⟨k, rfl, h2⟩, hfound⟩
  · refine (finish_at h2 r).weaken ?_
    rintro r t ⟨rfl, hat, hstable⟩
    exact hnone T' t hat ((hst1.trans hstable2).trans hstable) fun ht => (hfound (hst1.tidy ht)).1
  · refine .bind (ilock_safe h2 (bump_self_pos cnt k)) ?_
    rintro - t ⟨hat, hstable, hvalid, -⟩
    refine hsome k T' t hat ((hst1.trans hstable2).trans hstable.unbump) hvalid fun ht => ?_
    obtain ⟨hT, -, -, -, hres, halive⟩ := hfound (hst1.tidy ht)
    rw [hst1.startInum hcwd] at hres
    rw [hstable.inum (bump_self_pos cnt k)]
    exact ⟨hT, (hstable2.trans hstable.unbump).alive.2 (halive k rfl), hres.symm⟩

end Frame

/-! ## Link counts -/

section Counts

variable {cnt : Fin NINODE → Nat} {T : Tree} {s : State} {k : Fin NINODE} {i : Nat}

/-- A reference to an inode that is alive anyway keeps no other inode alive. -/
theorem Alive.of_bump (h : Alive (bump cnt k) s T i) (halive : Alive cnt s T (s.inode k).inum) : Alive cnt s T i := by
  rcases h with hlink | ⟨l, hl, rfl⟩
  · exact .inl hlink
  · by_cases hlk : l = k
    · rw [hlk]
      exact halive
    · rw [bump_of_ne cnt hlk] at hl
      exact .inr ⟨l, hl, rfl⟩

theorem Tidy.bumped (ht : Tidy cnt s T) (halive : Alive cnt s T (s.inode k).inum) : Tidy (bump cnt k) s T where
  root := ⟨ht.root.1, ht.root.2.bumped k⟩
  held := by
    intro l hl
    by_cases hlk : l = k
    · rw [hlk]
      exact ht.ne_none halive
    · rw [bump_of_ne cnt hlk] at hl
      exact ht.held l hl
  entry := by
    intro j nd hj hdir hjalive e key a ha
    obtain ⟨h1, h2⟩ := ht.entry j nd hj hdir (hjalive.of_bump halive) e key a ha
    exact ⟨h1, h2.bumped k⟩

/-- The link count of an inode in use does not matter. -/
theorem Alive.setLink {nd : Node} (hi : T i = some nd) (huse : InUse cnt s i) (x : Int16) (j : Nat) :
    Alive cnt s (update T i (some { nd with nlink := x })) j ↔ Alive cnt s T j := by
  by_cases hji : j = i
  · subst hji
    exact ⟨fun _ => .inr huse, fun _ => .inr huse⟩
  · unfold Alive
    rw [update_of_ne hji]

theorem Tidy.setLink (ht : Tidy cnt s T) {nd : Node} (hi : T i = some nd) (huse : InUse cnt s i) (x : Int16) :
    Tidy cnt s (update T i (some { nd with nlink := x })) := by
  have hne : ∀ j, T j ≠ none → update T i (some { nd with nlink := x }) j ≠ none := by
    intro j hj
    by_cases hji : j = i
    · rw [hji, update_self]
      exact Option.some_ne_none _
    · rw [update_of_ne hji]
      exact hj
  refine ⟨⟨hne _ ht.root.1, (Alive.setLink hi huse x _).2 ht.root.2⟩, fun l hl => hne _ (ht.held l hl), ?_⟩
  intro j nd' hj hdir halive e key a ha
  rw [Alive.setLink hi huse] at halive ⊢
  by_cases hji : j = i
  · subst hji
    rw [update_self] at hj
    cases hj
    obtain ⟨h1, h2⟩ := ht.entry j nd hi hdir halive e key a ha
    exact ⟨hne a h1, h2⟩
  · rw [update_of_ne hji] at hj
    obtain ⟨h1, h2⟩ := ht.entry j nd' hj hdir halive e key a ha
    exact ⟨hne a h1, h2⟩

/-- The contents of an inode do not keep it alive. -/
theorem Alive.setData {nd : Node} (hi : T i = some nd) (data : List UInt8) {j : Nat} (h : Alive cnt s T j) :
    Alive cnt s (update T i (some { nd with data := data })) j := by
  rcases h with ⟨nd', hnd', hlink⟩ | huse
  · by_cases hji : j = i
    · subst hji
      rw [hi] at hnd'
      cases hnd'
      exact .inl ⟨_, update_self .., hlink⟩
    · exact .inl ⟨nd', by rw [update_of_ne hji]; exact hnd', hlink⟩
  · exact .inr huse

theorem Reclaimed.stable {T' : Tree} {t : State} (h : Reclaimed cnt i T t T') (hstable : Stable cnt s t) :
    Reclaimed cnt i T s T' := by
  rcases h with rfl | ⟨nd, hnd, hlink, hfree, rfl⟩
  · exact .inl rfl
  · exact .inr ⟨nd, hnd, hlink, fun l hl heq => hfree l hl ((hstable.inum hl).trans heq), rfl⟩

/-- A walk sees types and contents only. -/
theorem Tree.walk_setLink {nd : Node} (hi : T i = some nd) (x : Int16) (parent : Bool) (j : Nat)
    (cs : List (List UInt8)) (name : List UInt8) :
    Tree.walk (update T i (some { nd with nlink := x })) parent j cs name = T.walk parent j cs name := by
  induction cs generalizing j name with
  | nil => rfl
  | cons c cs ih =>
    unfold Tree.walk
    by_cases hji : j = i
    · rw [hji, update_self, hi]
      simp only [Option.bind_some, ih]
    · rw [update_of_ne hji]
      simp only [ih]

end Counts

/-! ## `sys_link` -/

/-- The tree after inode `i` has been entered into directory `d` under `name`, before the last reference is given back. -/
def linkedTree (T : Tree) (i : Nat) (nd : Node) (d : Nat) (dnd : Node) (name : List UInt8) : Tree :=
  update (update T i (some { nd with nlink := nd.nlink + 1 })) d (some { dnd with
    data := overlay dnd.data (Slots.firstFree (dirSlots dnd.data) * direntSize) (dirent i name) })

/-- What `link(old, new)` has done when it returns 0. -/
def LinkMade (cnt : Fin NINODE → Nat) (s : State) (T : Tree) (cwd : Fin NINODE) (old new : List UInt8) (T' : Tree) : Prop :=
  ∃ i nd d dnd name, T.resolve (startInum s cwd old) (components old) = some i ∧
    T.walk true (startInum s cwd new) (components new) [] = some (d, name) ∧
    T i = some nd ∧ nd.type ≠ T_DIR ∧ T d = some dnd ∧ dnd.type = T_DIR ∧
    Slots.lookup (dirSlots dnd.data) (nameKey name) = none ∧ Reclaimed cnt i (linkedTree T i nd d dnd name) s T'

section Link

variable {sb : Superblock} {n : Nat} {cnt : Fin NINODE → Nat} {T : Tree} {s : State} {cwd k : Fin NINODE}
  (hsb : sb.Layout)
include hsb

/-- The link count is taken back. -/
theorem linkBad_at (h : At sb sb.ninodes (n + 1) (bump cnt k) ∅ T s) :
    Meets FsSafe (linkBad sb k) s fun r t => r = -1 ∧ ∃ T', At sb sb.ninodes n cnt ∅ T' t ∧ Stable cnt s t ∧
      ∀ nd, T (s.inode k).inum = some nd →
        Alive cnt s (update T (s.inode k).inum (some { nd with nlink := nd.nlink - 1 })) (s.inode k).inum →
        T' = update T (s.inode k).inum (some { nd with nlink := nd.nlink - 1 }) := by
  have hk := bump_self_pos cnt k
  refine .bind (ilock_safe h hk) ?_
  rintro - t ⟨hat, hstable, hvalid, -, nd, hc⟩
  have hinum := hstable.inum hk
  refine .step rfl (.bind (iupdate_at hsb hat (Nat.succ_pos n) hk hvalid hc _ _ _) ?_)
  rintro - u ⟨hat', hstable'⟩
  have hinum' : (u.inode k).inum = (s.inode k).inum := (hstable'.inum hk).trans hinum
  refine (dropEnd_at hsb hat' (-1)).weaken ?_
  rintro r w ⟨rfl, T', hat'', hstable'', hsame⟩
  have hst : Stable cnt s u := hstable.unbump.trans hstable'.unbump
  refine ⟨rfl, T', hat'', hst.trans hstable'', fun nd' hnd' halive => ?_⟩
  have hnode := hc.node
  rw [hinum, hnd'] at hnode
  cases hnode
  rw [hinum', hinum, hc.major, hc.minor, hc.nlink] at hsame
  exact hsame (hst.alive.2 halive)

/-- The part of `sys_link` after the link count has been raised. -/
theorem linkInto_at {T1 : Tree} (nd : Node) (h : At sb sb.ninodes (n + 1) (bump cnt k) ∅ T1 s) (hcwd : 0 < cnt cwd)
    (new : List UInt8) (htidy : Tidy cnt s T → Alive cnt s T (s.inode k).inum ∧ T (s.inode k).inum = some nd ∧
      nd.type ≠ T_DIR ∧ T1 = update T (s.inode k).inum (some { nd with nlink := nd.nlink + 1 })) :
    Meets FsSafe (do
      match ← nameiparent sb cwd new with
      | none => linkBad sb k
      | some (dp, name) => do
          ilock sb dp
          let d ← getInode dp
          let i ← getInode k
          if d.dev ≠ i.dev then do
            iunlockput sb dp
            linkBad sb k
          else do
            let r ← dirlink sb dp name i.inum
            if r < 0 then do
              iunlockput sb dp
              linkBad sb k
            else do
              iunlockput sb dp
              iput sb k
              endOp
              pure 0 : FM Int) s fun r t => ∃ T', At sb sb.ninodes n cnt ∅ T' t ∧ Stable cnt s t ∧
        (Tidy cnt s T → (r = -1 ∧ T' = T) ∨ (r = 0 ∧ ∃ d dnd name,
          T.walk true (startInum s cwd new) (components new) [] = some (d, name) ∧ T d = some dnd ∧ dnd.type = T_DIR ∧
          Slots.lookup (dirSlots dnd.data) (nameKey name) = none ∧
          Reclaimed cnt (s.inode k).inum (linkedTree T (s.inode k).inum nd d dnd name) s T')) := by
  have hk := bump_self_pos cnt k
  -- in a tidy tree the walk sees a tidy tree, too
  have htidy1 : Tidy cnt s T → Tidy (bump cnt k) s T1 := by
    intro ht
    obtain ⟨halive, hnd, -, rfl⟩ := htidy ht
    exact (ht.bumped halive).setLink hnd ⟨k, hk, rfl⟩ _
  -- taking the link back gives the tree as it was
  have hback : ∀ {u : State}, Stable (bump cnt k) s u → Tidy cnt s T → ∀ {T' : Tree},
      (∀ nd', T1 (u.inode k).inum = some nd' →
        Alive cnt u (update T1 (u.inode k).inum (some { nd' with nlink := nd'.nlink - 1 })) (u.inode k).inum →
        T' = update T1 (u.inode k).inum (some { nd' with nlink := nd'.nlink - 1 })) → T' = T := by
    intro u hst ht T' hbad
    obtain ⟨halive, hnd, -, rfl⟩ := htidy ht
    have hsame : update (update T (s.inode k).inum (some { nd with nlink := nd.nlink + 1 }))
        (s.inode k).inum (some { nd with nlink := nd.nlink + 1 - 1 }) = T := by
      rw [update_idem, Int16.add_sub_cancel, ← hnd]
      exact update_eq_self ..
    rw [hst.inum hk] at hbad
    have hbad' := hbad _ (update_self ..)
    rw [hsame] at hbad'
    exact hbad' (hst.unbump.alive.2 halive)
  refine .bind ((namex_at hsb h (Nat.succ_pos n) (bump_pos k hcwd) true new).mono fun _ he => he.1) ?_
  rintro r t ⟨T2, hstable, hhanded, hfound⟩
  rcases hhanded with ⟨rfl, hat⟩ | ⟨dp, name, rfl, hat, hparent⟩
  · refine (linkBad_at hsb hat).weaken ?_
    rintro r u ⟨rfl, T', hat', hstable', hbad⟩
    refine ⟨T', hat', hstable.unbump.trans hstable', fun ht => .inl ⟨rfl, ?_⟩⟩
    obtain ⟨rfl, -⟩ := hfound (htidy1 ht)
    exact hback hstable ht hbad
  · obtain ⟨hvalid0, htype0⟩ := hparent rfl
    have hdp := bump_self_pos (bump cnt k) dp
    refine .bind (ilock_safe hat hdp) ?_
    rintro - t1 ⟨hat1, hstable1, hvalid1, -, dnd, hc⟩
    have hdir : dnd.type = T_DIR := by
      rw [← hc.type, ((hstable1 dp hdp).2 hvalid0).2]
      exact htype0
    have hst1 : Stable (bump cnt k) s t1 := hstable.trans hstable1.unbump
    have hinum : (t1.inode k).inum = (s.inode k).inum := hst1.inum hk
    have hdinum : (t1.inode dp).inum = (t.inode dp).inum := hstable1.inum hdp
    refine .step (getInode_eq dp t1) (.step (getInode_eq k t1) (.ite (fun hdev => ?_) fun _ => ?_))
    · exact absurd ((hat1.dev hdp).trans (hat1.dev (bump_pos dp hk)).symm) hdev
    refine .bind ((dirlink_at hsb hat1 (Nat.succ_pos n) hdp hvalid1 hc hdir name
      (hat1.inum_mod_lt (bump_pos dp hk))).mono fun _ he => he.safe) ?_
    rintro r u ⟨hstable2, ⟨rfl, hat2, -⟩ | ⟨rfl, hnone, -, hat2⟩⟩
    · -- no entry was made
      refine .ite (fun _ => ?_) fun hneg => absurd (by decide) hneg
      have hst2 : Stable (bump cnt k) s u := hst1.trans hstable2.unbump
      refine .bind (iunlockput_safe hsb hat2 (Finset.notMem_empty dp)) ?_
      rintro - w ⟨T3, hat3, hstable3, -, hsame⟩
      have hst3 : Stable (bump cnt k) s w := hst2.trans hstable3
      refine (linkBad_at hsb hat3).weaken ?_
      rintro r x ⟨rfl, T', hat', hstable', hbad⟩
      refine ⟨T', hat', hst3.unbump.trans hstable', fun ht => .inl ⟨rfl, ?_⟩⟩
      obtain ⟨rfl, -, -, -, -, halive⟩ := hfound (htidy1 ht)
      have hdalive : Alive (bump cnt k) u T2 (u.inode dp).inum := by
        rw [hstable2.inum hdp, hdinum]
        exact hst2.alive.2 (halive _ rfl)
      rw [hsame hdalive] at hbad
      exact hback hst3 ht hbad
    · refine .ite (fun hneg => absurd hneg (by decide)) fun _ => ?_
      have hst2 : Stable (bump cnt k) s u := hst1.trans hstable2.unbump
      refine .bind (iunlockput_safe hsb hat2 (Finset.notMem_empty dp)) ?_
      rintro - w ⟨T3, hat3, hstable3, -, hsame⟩
      have hst3 : Stable (bump cnt k) s w := hst2.trans hstable3
      refine .bind (iput_safe hsb hat3) ?_
      rintro - x ⟨T', hat', hstable', hrec, -⟩
      refine (finish_at hat' 0).weaken ?_
      rintro r y ⟨rfl, hat'', hstable''⟩
      refine ⟨T', hat'', (hst3.unbump.trans hstable').trans hstable'', fun ht => .inr ⟨rfl, ?_⟩⟩
      obtain ⟨rfl, -, -, -, hwalk, halive⟩ := hfound (htidy1 ht)
      obtain ⟨-, hnd, hfile, hT2⟩ := htidy ht
      have hdnode := hc.node
      rw [hdinum] at hdnode
      have hdalive : Alive (bump cnt k) u (update T2 (t1.inode dp).inum (some { dnd with
          data := overlay dnd.data (Slots.firstFree (dirSlots dnd.data) * direntSize) (dirent (t1.inode k).inum name) }))
          (u.inode dp).inum := by
        rw [hstable2.inum hdp, hdinum]
        exact Alive.setData hdnode _ (hst2.alive.2 (halive _ rfl))
      rw [hsame hdalive, hst3.inum hk] at hrec
      have hne : (t.inode dp).inum ≠ (s.inode k).inum := by
        intro heq
        rw [heq, hT2, update_self] at hdnode
        cases hdnode
        exact hfile hdir
      refine ⟨(t.inode dp).inum, dnd, name, ?_, ?_, hdir, hnone, ?_⟩
      · rw [hT2, Tree.walk_setLink hnd] at hwalk
        exact hwalk.symm
      · rw [hT2, update_of_ne hne] at hdnode
        exact hdnode
      · rw [hT2, hdinum, hinum] at hrec
        exact hrec.stable hst3.unbump

/-- `sys_link`. -/
theorem sysLink_at (h : At sb sb.ninodes n cnt ∅ T s) (hcwd : 0 < cnt cwd) (old new : List UInt8) :
    Meets FsSafe (sysLink sb cwd old new) s fun r t => ∃ T', At sb sb.ninodes n cnt ∅ T' t ∧ Stable cnt s t ∧
      (Tidy cnt s T → (r = -1 ∧ T' = T) ∨ (r = 0 ∧ LinkMade cnt s T cwd old new T')) := by
  refine nameiLock_at hsb h hcwd old (-1) _ (fun T' t hat hst hT => ⟨T', hat, hst, fun ht => .inl ⟨rfl, hT ht⟩⟩) ?_
  intro ip T2 s3 h3 hst3 hvalid3 hfound
  have hk := bump_self_pos cnt ip
  obtain ⟨nd, hc⟩ := h3.copy hk hvalid3
  refine .step (getInode_eq ip s3) (.ite (fun _ => ?_) fun hfile => ?_)
  · refine (dropEnd_at hsb h3 (-1)).weaken ?_
    rintro r t ⟨rfl, T', hat, hstable, hsame⟩
    refine ⟨T', hat, hst3.trans hstable, fun ht => .inl ⟨rfl, ?_⟩⟩
    obtain ⟨rfl, halive, -⟩ := hfound ht
    exact hsame halive
  rw [hc.type] at hfile
  refine .step rfl (.bind (iupdate_at hsb h3 (Nat.succ_pos n) hk hvalid3 hc _ _ _) ?_)
  rintro - s4 ⟨h4, hstable4⟩
  refine .bind (iunlock_at h4 hk (Finset.notMem_empty ip)) ?_
  rintro - s5 ⟨h5, hstable5, -⟩
  have hst5' : Stable (bump cnt ip) s3 s5 := hstable4.trans hstable5
  have hst5 : Stable cnt s s5 := hst3.trans hst5'.unbump
  have hinum : (s5.inode ip).inum = (s3.inode ip).inum := hst5'.inum hk
  have htree : Tidy cnt s T → T (s3.inode ip).inum = some nd := fun ht => (hfound ht).1 ▸ hc.node
  rw [hc.major, hc.minor, hc.nlink] at h5
  refine (linkInto_at hsb nd h5 hcwd new (T := T) ?_).weaken ?_
  · intro ht
    rw [hst5.tidy_iff] at ht
    rw [hinum]
    obtain ⟨rfl, halive, -⟩ := hfound ht
    exact ⟨hst5'.unbump.alive.2 halive, htree ht, hfile, rfl⟩
  · rintro r t ⟨T', hat, hstable, htidy⟩
    refine ⟨T', hat, hst5.trans hstable, fun ht => ?_⟩
    rw [hst5.tidy_iff, hst5.startInum hcwd, hinum] at htidy
    rcases htidy ht with hbad | ⟨hr, d, dnd, name, hwalk, hd, hdir, hnone, hrec⟩
    · exact .inl hbad
    · exact .inr ⟨hr, _, nd, d, dnd, name, (hfound ht).2.2, hwalk, htree ht, hfile, hd, hdir, hnone, hrec.stable hst5⟩

end Link

/-! ## `sys_unlink` -/

/-- The tree after entry `e` of directory `d`, which names a node of type `type`, has been overwritten with zeros. -/
def unlinkedTree (T : Tree) (d : Nat) (dnd : Node) (e : Nat) (type : Int16) : Tree :=
  update T d (some { dnd with
    nlink := if type = T_DIR then dnd.nlink - 1 else dnd.nlink
    data := overlay dnd.data (e * direntSize) (List.replicate direntSize 0) })

/-- Entry `e` of directory `d` names the inode `i`. -/
structure Names (T : Tree) (d : Nat) (dnd : Node) (e : Nat) (key : List UInt8) (i : Nat) (nd : Node) : Prop where
  dir : T d = some dnd
  isDir : dnd.type = T_DIR
  holds : Slots.Holds (dirSlots dnd.data) e key i
  node : T i = some nd

/-- What `sys_unlink` has done to the tree when the entry is removed. -/
def EntryGone (cnt : Fin NINODE → Nat) (s : State) (T : Tree) (d : Nat) (dnd : Node) (e i : Nat) (nd : Node) (T' : Tree) :
    Prop :=
  ∃ T1, Reclaimed cnt d (unlinkedTree T d dnd e nd.type) s T1 ∧
    Reclaimed cnt i (update T1 i (some { nd with nlink := nd.nlink - 1 })) s T'

/-- What `unlink(path)` has done when it returns 0. -/
def UnlinkMade (cnt : Fin NINODE → Nat) (s : State) (T : Tree) (cwd : Fin NINODE) (path : List UInt8) (T' : Tree) : Prop :=
  ∃ d dnd name e i nd, T.walk true (startInum s cwd path) (components path) [] = some (d, name) ∧
    Names T d dnd e (nameKey name) i nd ∧ namecmp name dot ≠ 0 ∧ namecmp name dotdot ≠ 0 ∧ d ≠ i ∧ ¬ nd.nlink < 1 ∧
    (nd.type = T_DIR → ((dirSlots nd.data).drop 2).all Option.isNone = true) ∧ EntryGone cnt s T d dnd e i nd T'

/-- The panics of `sys_unlink`: the one about the link count needs an entry for an inode without links. -/
def UnlinkFails (cnt : Fin NINODE → Nat) (s : State) (T : Tree) (err : Panic) : Prop :=
  FsSafe err ∨ (err = .unlinkNlink ∧ (Tidy cnt s T → ∃ d dnd e name i nd,
    Names T d dnd e (nameKey name) i nd ∧ namecmp name dot ≠ 0 ∧ namecmp name dotdot ≠ 0 ∧ nd.nlink < 1))

/-- What a call of `sys_unlink` that returns has done. -/
def UnlinkDone (sb : Superblock) (n : Nat) (cnt : Fin NINODE → Nat) (s : State) (T : Tree) (cwd : Fin NINODE)
    (path : List UInt8) (r : Int) (t : State) : Prop :=
  ∃ T', At sb sb.ninodes n cnt ∅ T' t ∧ Stable cnt s t ∧
    (Tidy cnt s T → (r = -1 ∧ T' = T) ∨ (r = 0 ∧ UnlinkMade cnt s T cwd path T'))

section Unlink

variable {sb : Superblock} {n : Nat} {cnt : Fin NINODE → Nat} {T : Tree} {s : State} {cwd dp ip : Fin NINODE}

theorem Reclaimed.unbump {i : Nat} {T' : Tree} {k : Fin NINODE} (h : Reclaimed (bump cnt k) i T s T') :
    Reclaimed cnt i T s T' := by
  rcases h with rfl | ⟨nd, hnd, hlink, hfree, rfl⟩
  · exact .inl rfl
  · exact .inr ⟨nd, hnd, hlink, fun l hl => hfree l (bump_pos k hl), rfl⟩

/-- Freeing an inode leaves the others alone. -/
theorem Reclaimed.of_ne {i j : Nat} {T' : Tree} (h : Reclaimed cnt i T s T') (hne : j ≠ i) : T' j = T j := by
  rcases h with rfl | ⟨nd, -, -, -, rfl⟩
  · rfl
  · exact update_of_ne hne ..

variable (hsb : sb.Layout)
include hsb

/-- The link count of directory `dp` is changed if `p` holds, and the directory is given back while `ip` stays locked. -/
theorem relinkPut_at {p : Prop} [Decidable p] {nd : Node} (f : Int16 → Int16)
    (h : At sb sb.ninodes (n + 1) (bump (bump cnt dp) ip) (insert ip (insert dp ∅)) T s) (hne : ip ≠ dp)
    (hv : (s.inode dp).valid = true) (hc : Copy sb T s dp nd) :
    Meets FsSafe (do
      (if p then do
          modifyDi dp fun d => { d with nlink := f d.nlink }
          iupdate sb dp
        else pure ())
      iunlockput sb dp : FM Unit) s fun _ t => ∃ T', At sb sb.ninodes (n + 1) (bump cnt ip) (insert ip ∅) T' t ∧
        Stable (bump cnt ip) s t ∧ Reclaimed cnt (s.inode dp).inum
          (update T (s.inode dp).inum (some { nd with nlink := if p then f nd.nlink else nd.nlink })) s T' := by
  refine .bind (R := fun _ u => At sb sb.ninodes (n + 1) (bump (bump cnt dp) ip) (insert ip (insert dp ∅))
    (update T (s.inode dp).inum (some { nd with nlink := if p then f nd.nlink else nd.nlink })) u ∧
    Stable (bump (bump cnt dp) ip) s u) ?_ ?_
  · refine .ite (fun hp => ?_) fun hp => ?_
    · rw [if_pos hp]
      refine .step rfl ((iupdate_at hsb h (Nat.succ_pos n) (bump_pos ip (bump_self_pos ..)) hv hc _ _ _).weaken ?_)
      rintro - u ⟨hat, hstable⟩
      rw [hc.major, hc.minor, hc.nlink] at hat
      exact ⟨hat, hstable⟩
    · rw [if_neg hp, ← hc.node, update_eq_self]
      exact .pure ⟨h, .refl _ s⟩
  rintro - u ⟨hat, hst⟩
  rw [bump_comm, Finset.insert_comm] at hat
  rw [bump_comm] at hst
  refine (iunlockput_safe hsb hat (by simpa using hne.symm)).weaken ?_
  rintro - t ⟨T', hat', hstable, hrec, -⟩
  rw [hst.inum (bump_self_pos ..)] at hrec
  exact ⟨T', hat', hst.unbump.trans hstable, (hrec.stable hst.unbump).unbump⟩

theorem unlinkEntry_at {dnd nd : Node} {key : List UInt8} {e : Nat}
    (h : At sb sb.ninodes (n + 1) (bump (bump cnt dp) ip) (insert ip (insert dp ∅)) T s) (hne : ip ≠ dp)
    (hdv : (s.inode dp).valid = true) (hiv : (s.inode ip).valid = true) (hdc : Copy sb T s dp dnd)
    (hic : Copy sb T s ip nd) (hdir : dnd.type = T_DIR)
    (hholds : Slots.Holds (dirSlots dnd.data) e key (s.inode ip).inum) :
    Meets FsSafe (unlinkEntry sb dp ip (e * direntSize)) s fun r t => r = 0 ∧ ∃ T', At sb sb.ninodes n cnt ∅ T' t ∧
      Stable cnt s t ∧ EntryGone cnt s T (s.inode dp).inum dnd e (s.inode ip).inum nd T' := by
  have hd : 0 < bump (bump cnt dp) ip dp := bump_pos ip (bump_self_pos ..)
  have hi := bump_self_pos (bump cnt dp) ip
  have hinums : (s.inode ip).inum ≠ (s.inode dp).inum := fun heq => hne (h.inum_inj hi hd heq)
  have hin := (holds_dirSlots.1 hholds).1
  have hlen : (List.replicate direntSize (0 : UInt8)).length = direntSize := List.length_replicate ..
  refine .bind ((writeEntry_at hsb h (Nat.succ_pos n) hd hdv hdc hdir hlen (Nat.zero_lt_of_lt hsb.root) (e := e)
    (by unfold direntSize at *; omega)).mono fun _ he => he.safe) ?_
  rintro r t ⟨hstable, hothers, ⟨rfl, -, hat⟩ | ⟨-, hno, -⟩⟩
  swap
  · exact absurd hno (hdc.space hin)
  refine .ite (fun hbad => absurd rfl hbad) fun _ => ?_
  have hdv' := hstable.valid hd hdv
  have hdinum := hstable.inum hd
  rw [bump_comm] at hstable
  have hitype : (t.inode ip).di.type = nd.type := by
    rw [hothers ip hne, hic.type]
  refine .step (getInode_eq ip t) ?_
  rw [hitype, ← bind_assoc]
  -- the link count of the directory goes down if the entry named a directory
  refine .bind (relinkPut_at hsb (· - 1) hat hne hdv' (hat.copy_of hd hdv' hdinum (update_self ..))) ?_
  rintro - w ⟨T1, hat2, hstable2, hrec⟩
  have hi' := bump_self_pos cnt ip
  have hst2 : Stable (bump cnt ip) s w := hstable.unbump.trans hstable2
  rw [hdinum, update_idem] at hrec
  have hiv' := hst2.valid hi' hiv
  have hnode : T1 (s.inode ip).inum = some nd := by
    rw [hrec.of_ne hinums, update_of_ne hinums]
    exact hic.node
  have hc := hat2.copy_of hi' hiv' (hst2.inum hi') hnode
  refine .step rfl (.bind (iupdate_at hsb hat2 (Nat.succ_pos n) hi' hiv' hc _ _ _) ?_)
  rintro - x ⟨hat3, hstable3⟩
  rw [hst2.inum hi', hc.major, hc.minor, hc.nlink] at hat3
  have hst3 : Stable (bump cnt ip) s x := hst2.trans hstable3
  refine .bind (iunlockput_safe hsb hat3 (Finset.notMem_empty ip)) ?_
  rintro - y ⟨T', hat', hstable', hrec', -⟩
  rw [hst3.inum hi'] at hrec'
  refine (finish_at hat' 0).weaken ?_
  rintro r z ⟨rfl, hat'', hstable''⟩
  exact ⟨rfl, T', hat'', (hst3.unbump.trans hstable').trans hstable'', T1,
    hrec.stable hstable.unbump.unbump, hrec'.stable hst3.unbump⟩

/-- `sys_unlink`. -/
theorem sysUnlink_at (h : At sb sb.ninodes n cnt ∅ T s) (hcwd : 0 < cnt cwd) (path : List UInt8) :
    Meets (UnlinkFails cnt s T) (sysUnlink sb cwd path) s (UnlinkDone sb n cnt s T cwd path) := by
  refine .bind (beginOp_at h) ?_
  rintro - s1 ⟨h1, hst1⟩
  refine .bind ((namex_at hsb h1 (Nat.succ_pos n) hcwd true path).mono fun _ he => .inl he.1) ?_
  rintro r s2 ⟨T2, hstable2, hhanded, hfound⟩
  have hst2 : Stable cnt s s2 := hst1.trans hstable2
  rcases hhanded with ⟨rfl, h2⟩ | ⟨dp, name, rfl, h2, hparent⟩
  · refine (finish_at h2 (-1)).weaken ?_
    rintro r t ⟨rfl, hat, hstable⟩
    exact ⟨T2, hat, hst2.trans hstable, fun ht => .inl ⟨rfl, (hfound (hst1.tidy ht)).1⟩⟩
  obtain ⟨hvalid0, htype0⟩ := hparent rfl
  have hd := bump_self_pos cnt dp
  have htidy : Tidy cnt s T → T2 = T ∧ Alive cnt s T (s2.inode dp).inum ∧
      T.walk true (startInum s cwd path) (components path) [] = some ((s2.inode dp).inum, name) := by
    intro ht
    obtain ⟨rfl, -, -, -, hwalk, halive⟩ := hfound (hst1.tidy ht)
    rw [hst1.startInum hcwd] at hwalk
    exact ⟨rfl, hst1.alive.1 (halive _ rfl), hwalk.symm⟩
  refine .bind ((ilock_safe h2 hd).mono fun _ he => .inl he) ?_
  rintro - s3 ⟨h3, hstable3, hvalid3, -, dnd, hdc⟩
  have hdir : dnd.type = T_DIR := by
    rw [← hdc.type, ((hstable3 dp hd).2 hvalid0).2]
    exact htype0
  have hinum3 := hstable3.inum hd
  have hst3 : Stable cnt s s3 := hst2.trans hstable3.unbump
  -- every way to give up at this point
  have hbad : ∀ {u : State} {T3 : Tree}, At sb sb.ninodes (n + 1) (bump cnt dp) (insert dp ∅) T3 u →
      Stable (bump cnt dp) s3 u → (Tidy cnt s T → T3 = T) →
      Meets (UnlinkFails cnt s T) (unlinkBad sb dp) u (UnlinkDone sb n cnt s T cwd path) := by
    intro u T3 hat hst hT3
    refine ((dropEnd_at hsb hat (-1)).mono fun _ he => .inl he).weaken ?_
    rintro r t ⟨rfl, T', hat', hstable', hsame⟩
    have hst' : Stable cnt s u := hst3.trans hst.unbump
    refine ⟨T', hat', hst'.trans hstable', fun ht => .inl ⟨rfl, ?_⟩⟩
    obtain ⟨-, halive, -⟩ := htidy ht
    obtain rfl := hT3 ht
    rw [hst.inum hd, hinum3] at hsame
    exact hsame (hst'.alive.2 halive)
  refine .ite (fun _ => hbad h3 (.refl _ s3) fun ht => (htidy ht).1) fun hname => ?_
  rw [not_or] at hname
  refine .bind ((dirlookup_at h3 hdc hdir name).mono ?_) ?_
  · rintro e ⟨a, -, he⟩
    exact .inl he.safe
  rintro r s4 (⟨rfl, rfl, -⟩ | ⟨ip, e, i, rfl, hholds, hlook, h4, hstable4, hinum4, -, -, -⟩)
  · exact hbad h3 (.refl _ s4) fun ht => (htidy ht).1
  have hi := bump_self_pos (bump cnt dp) ip
  have hd' : 0 < bump (bump cnt dp) ip dp := bump_pos ip hd
  refine .bind ((ilock_safe h4 hi).mono fun _ he => .inl he) ?_
  rintro - s5 ⟨h5, hstable5, hvalid5, hfree, nd, hic⟩
  have hne : ip ≠ dp := fun heq => hfree (by rw [heq]; exact Finset.mem_insert_self dp ∅)
  have hst4 : Stable (bump cnt dp) s3 s5 := hstable4.trans hstable5.unbump
  have hst5 : Stable cnt s s5 := hst3.trans hst4.unbump
  have hiinum : (s5.inode ip).inum = i := (hstable5.inum hi).trans hinum4
  have hdinum : (s5.inode dp).inum = (s2.inode dp).inum := (hst4.inum hd).trans hinum3
  have hdv := hst4.valid hd hvalid3
  have hdnode : T2 (s2.inode dp).inum = some dnd := by
    rw [← hinum3]
    exact hdc.node
  have hinode : T2 i = some nd := by
    rw [← hiinum]
    exact hic.node
  have hdc' := h5.copy_of hd' hdv hdinum hdnode
  have hnames : Tidy cnt s T → Names T (s2.inode dp).inum dnd e (nameKey name) i nd := by
    intro ht
    obtain ⟨rfl, -, -⟩ := htidy ht
    exact ⟨hdnode, hdir, hholds, hinode⟩
  refine .step (getInode_eq ip s5) (.ite (fun hlink => ?_) fun hlink => ?_)
  · rw [hic.nlink] at hlink
    exact .throw (.inr ⟨rfl, fun ht => ⟨_, dnd, e, name, i, nd, hnames ht, hname.1, hname.2, hlink⟩⟩)
  rw [hic.nlink] at hlink
  -- the entry is removed
  have hgone : (nd.type = T_DIR → ((dirSlots nd.data).drop 2).all Option.isNone = true) →
      Meets (UnlinkFails cnt s T) (unlinkEntry sb dp ip (e * direntSize)) s5 (UnlinkDone sb n cnt s T cwd path) := by
    intro hempty
    refine ((unlinkEntry_at hsb h5 hne hdv hvalid5 hdc' hic hdir (by rw [hiinum]; exact hholds)).mono
      fun _ he => .inl he).weaken ?_
    rintro r t ⟨rfl, T', hat', hstable', T1, hrec, hrec'⟩
    refine ⟨T', hat', hst5.trans hstable', fun ht => .inr ⟨rfl, ?_⟩⟩
    have hinums : (s2.inode dp).inum ≠ i := by
      rw [← hdinum, ← hiinum]
      exact fun heq => hne (h5.inum_inj hi hd' heq.symm)
    rw [hdinum] at hrec
    rw [hiinum] at hrec'
    have hn := hnames ht
    obtain ⟨rfl, -, hwalk⟩ := htidy ht
    exact ⟨_, dnd, name, e, i, nd, hwalk, hn, hname.1, hname.2, hinums, hlink, hempty, T1, hrec.stable hst5,
      hrec'.stable hst5⟩
  refine .ite (fun hisdir => ?_) fun hisfile => ?_
  · rw [hic.type] at hisdir
    refine .step (isdirempty_eq hic (h5.dirData hic.node hisdir).size) ?_
    refine .ite (fun hempty => hgone fun _ => hempty) fun _ => ?_
    refine .bind ((iunlockput_safe hsb h5 hfree).mono fun _ he => .inl he) ?_
    rintro - s6 ⟨T3, h6, hstable6, -, hsame⟩
    refine hbad h6 (hst4.trans hstable6) fun ht => ?_
    obtain ⟨rfl, halive, -⟩ := htidy ht
    rw [hiinum] at hsame
    exact hsame ((hst5.alive.2 (ht.lookup hdnode hdir halive hlook)).bumped dp)
  · rw [hic.type] at hisfile
    exact hgone fun hisdir => absurd hisdir hisfile

end Unlink

end Xv6.Fs
