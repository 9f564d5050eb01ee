import Xv6.Base.Transition
import Xv6.Fs.Directory
import Xv6.Fs.Mkfs

/-!
# A directory is a finite map

The keys are the first `DIRSIZ` bytes of a name, or what stands before its 0, padded with zeros (`nameKey`). A run is any
sequence of `dirlink` and of removals as `sys_unlink` makes them, with anything in between that leaves the contents of the
directory alone. Over every run the contents stand for the map that the calls which returned 0 have built up, and the
calls read and change that map.
-/

set_option autoImplicit false

namespace Xv6.Fs

open Function Xv6.Base

/-! ## The map -/

/-- The map that the contents of a directory stand for. -/
def entriesOf (data : List UInt8) : List UInt8 → Option Nat := Slots.lookup (dirSlots data)

/-- The contents of directory `i` with parent `p`. -/
structure DirMap (i p : Nat) (data : List UInt8) : Prop where
  size : data.length % direntSize = 0
  dot : Slots.Holds (dirSlots data) 0 (nameKey dot) i
  dotdot : Slots.Holds (dirSlots data) 1 (nameKey dotdot) p
  uniq : Slots.Uniq (dirSlots data)

namespace DirMap

variable {i p : Nat} {data : List UInt8}

section

variable (h : DirMap i p data)
include h

theorem overlay_size {e : Nat} (he : e * direntSize ≤ data.length) {bs : List UInt8}
    (hlen : bs.length = direntSize) : (overlay data (e * direntSize) bs).length % direntSize = 0 := by
  have hsize := h.size
  rw [overlay_length bs he, hlen]
  unfold direntSize at *
  omega

/-- A new name is entered in the first free slot. -/
theorem link {name : List UInt8} {inum : Nat} (h0 : inum ≠ 0) (hlt : inum < 65536)
    (hnone : entriesOf data (nameKey name) = none) :
    DirMap i p (overlay data (Slots.firstFree (dirSlots data) * direntSize) (dirent inum name)) ∧
      entriesOf (overlay data (Slots.firstFree (dirSlots data) * direntSize) (dirent inum name)) =
        update (entriesOf data) (nameKey name) (some inum) := by
  have hle := Slots.firstFree_le (dirSlots data)
  rw [dirSlots_length] at hle
  have he : Slots.firstFree (dirSlots data) * direntSize ≤ data.length := by
    unfold direntSize at *
    omega
  have hslots : dirSlots (overlay data (Slots.firstFree (dirSlots data) * direntSize) (dirent inum name)) =
      Slots.place (dirSlots data) (nameKey name) inum := by
    rw [dirSlots_overlay h.size he (dirent_length inum name), direntSlot_dirent h0 hlt]
    rfl
  refine ⟨⟨h.overlay_size he (dirent_length inum name), ?_, ?_, ?_⟩, ?_⟩
  · rw [hslots, Slots.holds_place]
    exact .inr h.dot
  · rw [hslots, Slots.holds_place]
    exact .inr h.dotdot
  · rw [hslots]
    exact h.uniq.place (Slots.lookup_eq_none_iff.1 hnone) inum
  · unfold entriesOf
    rw [hslots, Slots.lookup_place h.uniq hnone]

/-- The entry of a name other than "." and ".." is overwritten with zeros. -/
theorem remove {name : List UInt8} {e a : Nat}
    (ha : Slots.Holds (dirSlots data) e (nameKey name) a) (hdot : namecmp name Fs.dot ≠ 0)
    (hdotdot : namecmp name Fs.dotdot ≠ 0) : DirMap i p (overlay data (e * direntSize) (List.replicate direntSize 0)) ∧
      entriesOf (overlay data (e * direntSize) (List.replicate direntSize 0)) =
        update (entriesOf data) (nameKey name) none := by
  obtain ⟨hin, -⟩ := holds_dirSlots.1 ha
  have he : e * direntSize ≤ data.length := by
    unfold direntSize at *
    omega
  have hlt : e < (dirSlots data).length := by
    rw [dirSlots_length]
    unfold direntSize at *
    omega
  have hslots : dirSlots (overlay data (e * direntSize) (List.replicate direntSize 0)) =
      Slots.clear (dirSlots data) e := by
    rw [dirSlots_overlay h.size he (List.length_replicate ..), direntSlot_zero]
    exact if_pos hlt
  -- the two first slots have other keys
  have hother : ∀ j key b, Slots.Holds (dirSlots data) j key b → nameKey name ≠ key → j ≠ e := by
    rintro j key b hj hne rfl
    unfold Slots.Holds at hj ha
    rw [hj] at ha
    cases ha
    exact hne rfl
  rw [Ne, namecmp_eq_zero_iff] at hdot hdotdot
  refine ⟨⟨h.overlay_size he (List.length_replicate ..), ?_, ?_, ?_⟩, ?_⟩
  · rw [hslots, Slots.holds_clear]
    exact ⟨hother _ _ _ h.dot hdot, h.dot⟩
  · rw [hslots, Slots.holds_clear]
    exact ⟨hother _ _ _ h.dotdot hdotdot, h.dotdot⟩
  · rw [hslots]
    exact h.uniq.clear e
  · unfold entriesOf
    rw [hslots, Slots.lookup_clear h.uniq ha]

/-- The entries behind the first two are empty exactly if the map has no other keys. -/
theorem isEmpty_iff : ((dirSlots data).drop 2).all Option.isNone = true ↔
      ∀ key, entriesOf data key ≠ none → key = nameKey Fs.dot ∨ key = nameKey Fs.dotdot := by
  rw [List.all_eq_true]
  constructor
  · intro hall key hkey
    obtain ⟨a, ha⟩ := Option.ne_none_iff_exists'.1 hkey
    obtain ⟨e, he⟩ := Slots.exists_holds ha
    by_cases h2 : 2 ≤ e
    · have hmem : some (key, a) ∈ (dirSlots data).drop 2 := by
        rw [List.mem_iff_getElem?]
        refine ⟨e - 2, ?_⟩
        rw [List.getElem?_drop, Nat.add_sub_cancel' h2]
        exact he
      have hnone := hall _ hmem
      cases hnone
    · have hcases : e = 0 ∨ e = 1 := by omega
      rcases hcases with rfl | rfl
      · have hdot := h.dot
        unfold Slots.Holds at he hdot
        rw [he] at hdot
        cases hdot
        exact .inl rfl
      · have hdotdot := h.dotdot
        unfold Slots.Holds at he hdotdot
        rw [he] at hdotdot
        cases hdotdot
        exact .inr rfl
  · intro hkeys x hx
    obtain ⟨j, hj⟩ := List.mem_iff_getElem?.1 hx
    rw [List.getElem?_drop] at hj
    cases x with
    | none => rfl
    | some q =>
      obtain ⟨key, a⟩ := q
      have hhold : Slots.Holds (dirSlots data) (2 + j) key a := hj
      have hlook := Slots.lookup_of_holds h.uniq hhold
      rcases hkeys key (by unfold entriesOf; rw [hlook]; exact Option.some_ne_none a) with rfl | rfl
      · have := h.uniq _ _ _ _ _ hhold h.dot
        omega
      · have := h.uniq _ _ _ _ _ hhold h.dotdot
        omega

end

end DirMap

/-! ## The calls -/

/-- What is done to a directory. -/
inductive DirOp where
  | link (name : List UInt8) (inum : Nat)
  | remove (name : List UInt8)

/-- What `sys_unlink` does to the directory: "." and ".." are refused, and the entry of another name is overwritten with
zeros. -/
def removeEntry (sb : Superblock) (k : Fin NINODE) (name : List UInt8) : FM Int := do
  if namecmp name dot = 0 ∨ namecmp name dotdot = 0 then pure (-1)
  else do
    match ← dirlookup sb k name with
    | none => pure (-1)
    | some (ip, off) => do
        let r ← writei sb k (.kernel (List.replicate direntSize 0)) (UInt32.ofNat off) (UInt32.ofNat direntSize)
        if r ≠ direntSize then throw .unlinkWritei
        else do
          iput sb ip
          pure 0

namespace DirOp

/-- The call. -/
def run (sb : Superblock) (k : Fin NINODE) : DirOp → FM Int
  | .link name inum => dirlink sb k name inum
  | .remove name => removeEntry sb k name

/-- The inode number of an entry is not 0 and has 16 bits. -/
def Admissible : DirOp → Prop
  | .link _ inum => inum ≠ 0 ∧ inum < 65536
  | .remove _ => True

/-- What a call that returned `r` does to the map. -/
def record (es : List UInt8 → Option Nat) (r : Int) : DirOp → List UInt8 → Option Nat
  | .link name inum => if r = 0 then update es (nameKey name) (some inum) else es
  | .remove name => if r = 0 then update es (nameKey name) none else es

/-- When a call fails: the name is there or there is no space; the name cannot be removed or is not there. -/
def Refused (sb : Superblock) (k : Fin NINODE) (data : List UInt8) (s : State) : DirOp → Prop
  | .link name _ => entriesOf data (nameKey name) ≠ none ∨ NoSpace sb k (Slots.firstFree (dirSlots data)) s
  | .remove name => namecmp name dot = 0 ∨ namecmp name dotdot = 0 ∨ entriesOf data (nameKey name) = none

end DirOp

/-- Entry `k` of the inode table is in use and filled in, and its inode is a directory with these contents. -/
def DirectoryAt (sb : Superblock) (k : Fin NINODE) (data : List UInt8) (s : State) : Prop :=
  ∃ n cnt L T nd, At sb 65536 n cnt L T s ∧ 0 < n ∧ 0 < cnt k ∧ (s.inode k).valid = true ∧ Copy sb T s k nd ∧
    nd.type = T_DIR ∧ nd.data = data

/-- The panics that are left: no room in the inode table, or in the log. -/
def OutOfRoom (e : Panic) : Prop := e = .igetNoInodes ∨ e = .tooBig

/-- A call on the directory, or something else that leaves its contents alone. -/
inductive DirStep (sb : Superblock) (k : Fin NINODE) : State → Option (DirOp × Int) → State → Prop
  | call {op : DirOp} {r : Int} {s t : State} (hadm : op.Admissible) (hrun : op.run sb k s = .ok (r, t)) :
      DirStep sb k s (some (op, r)) t
  | other {s t : State} (h : ∀ data, DirectoryAt sb k data s → DirectoryAt sb k data t) : DirStep sb k s none t

/-- The map after the calls of a run. -/
def recordAll (es : List UInt8 → Option Nat) (ls : List (Option (DirOp × Int))) : List UInt8 → Option Nat :=
  ls.foldl (fun es l => l.elim es fun c => c.1.record es c.2) es

section Calls

variable {sb : Superblock} {k : Fin NINODE} {data : List UInt8} {s : State} {i p : Nat}

/-- A directory whose contents have been overwritten in part. -/
theorem DirectoryAt.overlaid {n : Nat} {cnt : Fin NINODE → Nat} {L : Finset (Fin NINODE)} {T : Tree} {nd : Node} {t : State}
    (hn : 0 < n) (hk : 0 < cnt k) (hv : (s.inode k).valid = true) (hdir : nd.type = T_DIR) (hstable : Stable cnt s t)
    {data' : List UInt8} (hat : At sb 65536 n cnt L (update T (s.inode k).inum (some { nd with data := data' })) t) :
    DirectoryAt sb k data' t := by
  have hvalid := hstable.valid hk hv
  exact ⟨n, cnt, L, _, _, hat, hn, hk, hvalid, hat.copy_of hk hvalid (hstable.inum hk) (update_self ..), hdir, rfl⟩

theorem NoEntry.outOfRoom {cnt : Fin NINODE → Nat} {a : Nat} {e : Panic} (h : NoEntry cnt a s e) : OutOfRoom e := .inl h.1

/-- `dirlookup` reads the map. -/
theorem DirectoryAt.dirlookup_eq (h : DirectoryAt sb k data s) (hm : DirMap i p data) (name : List UInt8) :
    (entriesOf data (nameKey name) = none ∧ dirlookup sb k name s = .ok (none, s)) ∨
    ∃ e a, entriesOf data (nameKey name) = some a ∧ dirlookup sb k name s =
      (iget ROOTDEV a >>= fun ip => pure (some (ip, e * direntSize))) s := by
  obtain ⟨n, cnt, L, T, nd, -, -, -, -, hc, hdir, rfl⟩ := h
  rcases Fs.dirlookup_eq hc hdir hm.size name with hnone | ⟨e, a, -, hsome, hrun⟩
  · exact .inl hnone
  · exact .inr ⟨e, a, hsome, hrun⟩

theorem DirectoryAt.isdirempty_eq (h : DirectoryAt sb k data s) (hm : DirMap i p data) :
    isdirempty sb k s = .ok (((dirSlots data).drop 2).all Option.isNone, s) := by
  obtain ⟨n, cnt, L, T, nd, -, -, -, -, hc, -, rfl⟩ := h
  exact Fs.isdirempty_eq hc hm.size

variable (hsb : sb.Layout)
include hsb

section

variable (h : DirectoryAt sb k data s) (hm : DirMap i p data)
include h hm

/-- One call of `dirlink`. -/
theorem DirectoryAt.link (name : List UInt8) {inum : Nat} (h0 : inum ≠ 0) (hlt : inum < 65536) :
    Meets OutOfRoom (dirlink sb k name inum) s fun r t => ∃ data', DirectoryAt sb k data' t ∧ DirMap i p data' ∧
      entriesOf data' = (DirOp.link name inum).record (entriesOf data) r ∧
      ((r = -1 ∧ (DirOp.link name inum).Refused sb k data s) ∨ (r = 0 ∧ ¬ (DirOp.link name inum).Refused sb k data s)) := by
  obtain ⟨n, cnt, L, T, nd, hat, hn, hk, hv, hc, hdir, rfl⟩ := h
  refine ((dirlink_at hsb hat hn hk hv hc hdir name (by rwa [Nat.mod_eq_of_lt hlt])).mono ?_).weaken ?_
  · rintro e (⟨_, -, he⟩ | he)
    · exact he.outOfRoom
    · exact .inr he
  · rintro r t ⟨hstable, ⟨rfl, hat', hcases⟩ | ⟨rfl, hnone, hspace, hat'⟩⟩
    · have hv' := hstable.valid hk hv
      exact ⟨nd.data, ⟨n, cnt, L, T, nd, hat', hn, hk, hv', hat'.copy_of hk hv' (hstable.inum hk) hc.node, hdir, rfl⟩, hm,
        rfl, .inl ⟨rfl, hcases⟩⟩
    · obtain ⟨hm', hes⟩ := hm.link h0 hlt hnone
      refine ⟨_, DirectoryAt.overlaid hn hk hv hdir hstable hat', hm', hes, .inr ⟨rfl, ?_⟩⟩
      rintro (hpresent | hno)
      · exact hpresent hnone
      · exact hspace hno

/-- One removal. -/
theorem DirectoryAt.remove (name : List UInt8) :
    Meets OutOfRoom (removeEntry sb k name) s fun r t => ∃ data', DirectoryAt sb k data' t ∧ DirMap i p data' ∧
      entriesOf data' = (DirOp.remove name).record (entriesOf data) r ∧
      ((r = -1 ∧ (DirOp.remove name).Refused sb k data s) ∨ (r = 0 ∧ ¬ (DirOp.remove name).Refused sb k data s)) := by
  have hself := h
  obtain ⟨n, cnt, L, T, nd, hat, hn, hk, hv, hc, hdir, rfl⟩ := h
  refine .ite (fun hname => .pure ⟨_, hself, hm, rfl, .inl ⟨rfl, ?_⟩⟩) fun hname => ?_
  · rcases hname with hname | hname
    · exact .inl hname
    · exact .inr (.inl hname)
  rw [not_or] at hname
  refine .bind ((dirlookup_at hat hc hdir name).mono ?_) ?_
  · rintro e ⟨_, -, he⟩
    exact he.outOfRoom
  rintro r t (⟨rfl, rfl, hnone⟩ | ⟨ip, e, a, rfl, ha, -, hat', hstable, -, -, -, hfresh⟩)
  · exact .pure ⟨_, hself, hm, rfl, .inl ⟨rfl, .inr (.inr hnone)⟩⟩
  · have hk' := bump_pos ip hk
    have hv' := hstable.valid hk hv
    have hinum := hstable.inum hk
    have hc' := hat'.copy_of hk' hv' hinum hc.node
    have hin := (holds_dirSlots.1 ha).1
    have hlen : (List.replicate direntSize (0 : UInt8)).length = direntSize := List.length_replicate ..
    refine .bind ((writeEntry_at hsb hat' hn hk' hv' hc' hdir hlen (by decide) (e := e)
      (by unfold direntSize at *; omega)).mono fun _ he => .inr he) ?_
    rintro r u ⟨hstable2, hothers, ⟨rfl, -, hat2⟩ | ⟨-, hno, -⟩⟩
    · refine .ite (fun hne => absurd rfl hne) fun _ => ?_
      -- the reference is not the last one, or the entry was never filled in
      have hkept : ¬ (cnt ip = 0 ∧ (u.inode ip).valid = true) := by
        rintro ⟨hzero, hvalid⟩
        rw [hothers ip (by rintro rfl; omega), hfresh hzero] at hvalid
        cases hvalid
      refine .bind ((iput_at hsb hat2 hn).mono fun _ he => absurd ⟨he.2.1, he.2.2.1⟩ hkept) ?_
      rintro - w ⟨T', hat3, hstable3, hdrop⟩
      cases hdrop with
      | freed hzero hvalid _ _ => exact absurd ⟨hzero, hvalid⟩ hkept
      | kept _ _ _ =>
        obtain ⟨hm', hes⟩ := hm.remove ha hname.1 hname.2
        rw [hinum] at hat3
        refine .pure ⟨_, DirectoryAt.overlaid hn hk hv hdir ?_ hat3, hm', hes, .inr ⟨rfl, ?_⟩⟩
        · exact (hstable.trans hstable2.unbump).trans hstable3
        · rintro (h1 | h1 | h1)
          · exact hname.1 h1
          · exact hname.2 h1
          · exact Slots.lookup_eq_none_iff.1 h1 e a ha
    · exact absurd hno (hc'.space hin)

/-- One call. -/
theorem DirectoryAt.call {op : DirOp} (hadm : op.Admissible) :
    Meets OutOfRoom (op.run sb k) s fun r t => ∃ data', DirectoryAt sb k data' t ∧ DirMap i p data' ∧
      entriesOf data' = op.record (entriesOf data) r ∧
      ((r = -1 ∧ op.Refused sb k data s) ∨ (r = 0 ∧ ¬ op.Refused sb k data s)) := by
  cases op with
  | link name inum => exact h.link hsb hm name hadm.1 hadm.2
  | remove name => exact h.remove hsb hm name

/-- A whole run. -/
theorem DirectoryAt.run {ls : List (Option (DirOp × Int))} {t : State} (hrun : Run (DirStep sb k) s ls t) :
    ∃ data', DirectoryAt sb k data' t ∧ DirMap i p data' ∧ entriesOf data' = recordAll (entriesOf data) ls := by
  refine hrun.invariant (P := fun ls t => ∃ data', DirectoryAt sb k data' t ∧ DirMap i p data' ∧
    entriesOf data' = recordAll (entriesOf data) ls) ⟨data, h, hm, rfl⟩ ?_
  rintro ls t l u ⟨data', h', hm', hes⟩ hstep
  unfold recordAll at hes ⊢
  rw [List.foldl_append, ← hes]
  cases hstep with
  | call hadm hcall =>
    obtain ⟨data'', h'', hm'', hes'', -⟩ := (h'.call hsb hm' hadm).post _ _ hcall
    exact ⟨data'', h'', hm'', hes''⟩
  | other hother => exact ⟨data', hother data' h', hm', rfl⟩

end

end Calls

end Xv6.Fs
