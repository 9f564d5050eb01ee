import Xv6.Fs.Names
import Xv6.Fs.Tree

/-!
# Directories

`dirlookup`, `dirlink`, `isdirempty` and the write that `sys_unlink` makes, as operations on the table of slots that the
contents of a directory are (`dirSlots`). The reads never come out short, since the size of a directory is a multiple of
the size of an entry. Writing an entry needs a block only behind the end of the directory.
-/

set_option autoImplicit false

namespace Xv6.Fs

open Function Xv6.Base

/-! ## Entries in terms of the contents -/

/-- The entries of a directory fill it, and each names an inode below `N` or is empty. -/
structure DirData (N : Nat) (data : List UInt8) : Prop where
  size : data.length % direntSize = 0
  entries : ∀ e, (e + 1) * direntSize ≤ data.length → direntInum (direntAt data e) < N

variable {bs key : List UInt8} {a e : Nat}

section Data

variable {N : Nat} {data : List UInt8}

theorem direntAt_length (he : (e + 1) * direntSize ≤ data.length) : (direntAt data e).length = direntSize := by
  unfold direntAt
  rw [List.length_take, List.length_drop]
  unfold direntSize at *
  omega

theorem direntInum_direntAt (data : List UInt8) (e : Nat) : direntInum (direntAt data e) =
      (data.getD (e * direntSize) 0).toNat + 256 * (data.getD (e * direntSize + 1) 0).toNat := by
  have hget : ∀ j, j < direntSize → (direntAt data e).getD j 0 = data.getD (e * direntSize + j) 0 := by
    intro j hj
    unfold direntAt
    rw [List.getD_eq_getElem?_getD, List.getD_eq_getElem?_getD, List.getElem?_take, if_pos hj, List.getElem?_drop]
  unfold direntInum
  rw [loadLE, loadLE, loadLE]
  rw [hget 0 (by decide), hget 1 (by decide), Nat.add_zero, Nat.mul_zero, Nat.add_zero]

theorem dirOk_iff (m : Mem) (d : Dinode) : DirOk N m d ↔ DirData N (d.contents m) := by
  have hlen := Dinode.contents_length m d
  have hinum : ∀ e, (e + 1) * direntSize ≤ d.size.toNat → direntInum (direntAt (d.contents m) e) = d.entryInum m e := by
    intro e he
    have h0 : e * direntSize < (d.contents m).length := by
      rw [hlen]
      unfold direntSize at *
      omega
    have h1 : e * direntSize + 1 < (d.contents m).length := by
      rw [hlen]
      unfold direntSize at *
      omega
    rw [direntInum_direntAt, List.getD_eq_getElem _ _ h0, List.getD_eq_getElem _ _ h1,
      Dinode.contents_getElem, Dinode.contents_getElem]
    rfl
  constructor
  · intro h
    refine ⟨by rw [hlen]; exact h.size, fun e he => ?_⟩
    rw [hlen] at he
    rw [hinum e he]
    refine h.entries e ?_
    unfold direntSize at *
    omega
  · intro h
    have hsize := h.size
    rw [hlen] at hsize
    refine ⟨hsize, fun e he => ?_⟩
    have he' : (e + 1) * direntSize ≤ d.size.toNat := by
      unfold direntSize at *
      omega
    rw [← hinum e he']
    exact h.entries e (by rw [hlen]; exact he')

theorem DirData.overlay (h : DirData N data) (he : e * direntSize ≤ data.length)
    (hlen : bs.length = direntSize) (hinum : direntInum bs < N) : DirData N (overlay data (e * direntSize) bs) := by
  have hover := overlay_length bs he
  have hsize := h.size
  constructor
  · rw [hover, hlen]
    unfold direntSize at *
    omega
  · intro j hj
    rw [hover, hlen] at hj
    by_cases hje : j = e
    · rw [hje, direntAt_overlay he hlen]
      exact hinum
    · have hj' : (j + 1) * direntSize ≤ data.length := by
        unfold direntSize at *
        omega
      rw [direntAt_overlay_ne hlen hje hj' he]
      exact h.entries j hj'

/-- What a slot holds: an entry of the directory. -/
theorem holds_dirSlots : Slots.Holds (dirSlots data) e key a ↔ (e + 1) * direntSize ≤ data.length ∧
      direntInum (direntAt data e) = a ∧ a ≠ 0 ∧ nameKey (direntName (direntAt data e)) = key := by
  unfold Slots.Holds
  rw [dirSlots_getElem?]
  have hiff : e < data.length / direntSize ↔ (e + 1) * direntSize ≤ data.length := by
    unfold direntSize
    omega
  split_ifs with he
  · rw [hiff] at he
    rw [Option.some.injEq, direntSlot]
    constructor
    · intro h
      split_ifs at h with h0
      cases h
      exact ⟨he, rfl, h0, rfl⟩
    · rintro ⟨-, rfl, h0, rfl⟩
      rw [if_neg h0]
  · constructor
    · intro h
      cases h
    · intro h
      exact absurd (hiff.2 h.1) he

theorem DirData.inum_lt (h : DirData N data) (hh : Slots.Holds (dirSlots data) e key a) : a < N := by
  obtain ⟨he, rfl, -⟩ := holds_dirSlots.1 hh
  exact h.entries e he

/-- The offsets of the entries. -/
theorem direntOffsets_eq (h : data.length % direntSize = 0) :
    direntOffsets data.length = (List.range (data.length / direntSize)).map (· * direntSize) := by
  unfold direntOffsets
  congr 2
  unfold direntSize at *
  omega

end Data

section

variable {sb : Superblock} {N n : Nat} {cnt : Fin NINODE → Nat} {L : Finset (Fin NINODE)} {T : Tree} {s : State}
  {k : Fin NINODE} {nd : Node}

theorem At.dirData (h : At sb N n cnt L T s) {i : Nat} (hi : T i = some nd) (hdir : nd.type = T_DIR) :
    DirData N nd.data := by
  obtain ⟨v, hinv, rfl⟩ := h.inv
  have hlt := lt_of_treeOf hi
  rw [treeOf_eq hlt] at hi
  have htype : (v i).type ≠ 0 := fun h0 => by
    rw [Dinode.node_eq_none_iff.2 h0] at hi
    cases hi
  rw [Dinode.node_of_type htype] at hi
  cases hi
  exact (dirOk_iff _ _).1 (hinv.dirs i hlt hdir)

/-! ## Reading entries -/

/-- Reading an entry gives its bytes. -/
theorem readDirent_eq (hc : Copy sb T s k nd) (he : (e + 1) * direntSize ≤ nd.data.length) (err : Panic) :
    readDirent sb k (e * direntSize) err s = .ok (direntAt nd.data e, s) := by
  have hfits := hc.fits
  have hmax : MAXFILE * BSIZE < 2 ^ 32 := by decide
  have hoff : (UInt32.ofNat (e * direntSize)).toNat = e * direntSize :=
    UInt32.toNat_ofNat_of_lt' (by
      show _ < 2 ^ 32
      unfold direntSize at *
      omega)
  have hn : (UInt32.ofNat direntSize).toNat = direntSize := rfl
  unfold readDirent
  rcases readi_spec sb k .kernel (UInt32.ofNat (e * direntSize)) (UInt32.ofNat direntSize) hc.noHoles
    (by rw [hc.size]; exact hfits) with ⟨hrej, -⟩ | ⟨-, ⟨bs, -, a, l, hfail⟩ | ⟨bs, hbs, hrun⟩⟩
  · unfold ReadRejected at hrej
    rw [hoff, hn, hc.size] at hrej
    unfold direntSize at *
    omega
  · cases hfail
  · rw [hoff, hn, hc.data] at hbs
    subst hbs
    rw [bind_of_ok hrun, ite_run, if_neg]
    · rfl
    · rw [not_not]
      exact congrArg Nat.cast (direntAt_length he)

/-- The loop of `dirlookup` over some of the entries. -/
theorem dirlookupLoop_eq (hc : Copy sb T s k nd) (name : List UInt8) (es : List Nat)
    (hes : ∀ e ∈ es, (e + 1) * direntSize ≤ nd.data.length) :
    ((∀ e ∈ es, ∀ a, ¬ Slots.Holds (dirSlots nd.data) e (nameKey name) a) ∧
      dirlookupLoop sb k name (es.map (· * direntSize)) s = .ok (none, s)) ∨
    ∃ e a before after, es = before ++ e :: after ∧ (∀ e' ∈ before, ∀ b, ¬ Slots.Holds (dirSlots nd.data) e' (nameKey name) b) ∧
      Slots.Holds (dirSlots nd.data) e (nameKey name) a ∧ dirlookupLoop sb k name (es.map (· * direntSize)) s =
        (iget ROOTDEV a >>= fun ip => pure (some (ip, e * direntSize))) s := by
  induction es with
  | nil => exact .inl ⟨fun e he => (List.not_mem_nil he).elim, rfl⟩
  | cons e es ih =>
    have he := hes e (.head _)
    have hskip : (∀ a, ¬ Slots.Holds (dirSlots nd.data) e (nameKey name) a) →
        dirlookupLoop sb k name ((e :: es).map (· * direntSize)) s =
          dirlookupLoop sb k name (es.map (· * direntSize)) s := by
      intro hno
      rw [List.map_cons, dirlookupLoop, bind_of_ok (readDirent_eq hc he _), ite_run, ite_run]
      split_ifs with h0 hcmp
      · rfl
      · exact absurd (holds_dirSlots.2 ⟨he, rfl, h0, ((namecmp_eq_zero_iff _ _).1 hcmp).symm⟩) (hno _)
      · rfl
    by_cases hyes : ∃ a, Slots.Holds (dirSlots nd.data) e (nameKey name) a
    · obtain ⟨a, ha⟩ := hyes
      refine .inr ⟨e, a, [], es, rfl, fun e' he' => (List.not_mem_nil he').elim, ha, ?_⟩
      obtain ⟨-, rfl, h0, hkey⟩ := holds_dirSlots.1 ha
      rw [List.map_cons, dirlookupLoop, bind_of_ok (readDirent_eq hc he _), ite_run, if_neg h0, ite_run,
        if_pos ((namecmp_eq_zero_iff _ _).2 hkey.symm),
        bind_of_ok (getInode_eq k s), hc.dev]
    · have hno : ∀ a, ¬ Slots.Holds (dirSlots nd.data) e (nameKey name) a := fun a ha => hyes ⟨a, ha⟩
      rw [hskip hno]
      rcases ih fun e' he' => hes e' (.tail _ he') with
        ⟨hnone, hrun⟩ | ⟨e1, a, before, after, rfl, hbefore, ha, hrun⟩
      · refine .inl ⟨fun e' he' => ?_, hrun⟩
        rcases List.mem_cons.1 he' with rfl | he'
        · exact hno
        · exact hnone e' he'
      · refine .inr ⟨e1, a, e :: before, after, rfl, fun e' he' => ?_, ha, hrun⟩
        rcases List.mem_cons.1 he' with rfl | he'
        · exact hno
        · exact hbefore e' he'

/-- `dirlookup` of a name that is not there, or the inode of the entry that has it. -/
theorem dirlookup_eq (hc : Copy sb T s k nd) (hdir : nd.type = T_DIR) (hsize : nd.data.length % direntSize = 0)
    (name : List UInt8) :
    (Slots.lookup (dirSlots nd.data) (nameKey name) = none ∧ dirlookup sb k name s = .ok (none, s)) ∨
    ∃ e a, Slots.Holds (dirSlots nd.data) e (nameKey name) a ∧ Slots.lookup (dirSlots nd.data) (nameKey name) = some a ∧
      dirlookup sb k name s = (iget ROOTDEV a >>= fun ip => pure (some (ip, e * direntSize))) s := by
  have hrun : dirlookup sb k name s = dirlookupLoop sb k name
      ((List.range (nd.data.length / direntSize)).map (· * direntSize)) s := by
    unfold dirlookup
    rw [bind_of_ok (getInode_eq k s), ite_run, if_neg (by rw [not_not, hc.type]; exact hdir),
      hc.size, direntOffsets_eq hsize]
  have hes : ∀ e ∈ List.range (nd.data.length / direntSize), (e + 1) * direntSize ≤ nd.data.length := by
    intro e he
    have := List.mem_range.1 he
    unfold direntSize at *
    omega
  rw [hrun]
  have hin : ∀ e key a, Slots.Holds (dirSlots nd.data) e key a → e ∈ List.range (nd.data.length / direntSize) := by
    intro e key a ha
    have hle := (holds_dirSlots.1 ha).1
    rw [List.mem_range]
    unfold direntSize at *
    omega
  rcases dirlookupLoop_eq hc name _ hes with ⟨hnone, hloop⟩ | ⟨e, a, before, after, hrange, hbefore, ha, hloop⟩
  · exact .inl ⟨Slots.lookup_eq_none_iff.2 fun e a ha => hnone e (hin e _ a ha) a ha, hloop⟩
  · refine .inr ⟨e, a, ha, Slots.lookup_of_first ha fun j b hj hjb => ?_, hloop⟩
    -- the entries before `e` come first in the loop
    have hsorted := List.pairwise_lt_range (n := nd.data.length / direntSize)
    have hmem := hin j _ b hjb
    rw [hrange, List.pairwise_append, List.pairwise_cons] at hsorted
    rw [hrange, List.mem_append, List.mem_cons] at hmem
    rcases hmem with hmem | rfl | hmem
    · exact hbefore j hmem b hjb
    · exact Nat.lt_irrefl j hj
    · exact Nat.lt_asymm hj (hsorted.2.1.1 j hmem)

/-- `dirlookup` takes a reference to the inode that it finds. -/
theorem dirlookup_at (h : At sb N n cnt L T s) (hc : Copy sb T s k nd) (hdir : nd.type = T_DIR) (name : List UInt8) :
    Meets (fun err => ∃ a, Slots.lookup (dirSlots nd.data) (nameKey name) = some a ∧ NoEntry cnt a s err)
      (dirlookup sb k name) s fun r t => (r = none ∧ t = s ∧ Slots.lookup (dirSlots nd.data) (nameKey name) = none) ∨
      ∃ ip e a, r = some (ip, e * direntSize) ∧ Slots.Holds (dirSlots nd.data) e (nameKey name) a ∧
        Slots.lookup (dirSlots nd.data) (nameKey name) = some a ∧
        At sb N n (bump cnt ip) L T t ∧ Stable cnt s t ∧ (t.inode ip).inum = a ∧ t.data = s.data ∧ t.log = s.log ∧
        (cnt ip = 0 → (t.inode ip).valid = false) := by
  have hdata := h.dirData hc.node hdir
  rcases dirlookup_eq hc hdir hdata.size name with ⟨hnone, hrun⟩ | ⟨e, a, ha, hsome, hrun⟩
  · exact .of_ok hrun (.inl ⟨rfl, rfl, hnone⟩)
  · refine .congr hrun ?_
    refine .bind ((iget_at h (hdata.inum_lt ha)).mono fun _ he => ⟨a, hsome, he⟩) ?_
    rintro ip t ⟨hat, hstable, hinum, hdata', hlog, hfresh⟩
    exact .pure (.inr ⟨ip, e, a, rfl, ha, hsome, hat, hstable, hinum, hdata', hlog, hfresh⟩)

/-- The loop of `dirlink` stops at the first entry that is free. -/
theorem dirlinkLoop_eq (hc : Copy sb T s k nd) (last : Nat) (es : List Nat)
    (hes : ∀ e ∈ es, (e + 1) * direntSize ≤ nd.data.length) : dirlinkLoop sb k last (es.map (· * direntSize)) s =
      .ok (((es.find? fun e => (direntSlot (direntAt nd.data e)).isNone).map (· * direntSize)).getD last, s) := by
  induction es with
  | nil => rfl
  | cons e es ih =>
    have he := hes e (.head _)
    have hnone : (direntSlot (direntAt nd.data e)).isNone = decide (direntInum (direntAt nd.data e) = 0) := by
      unfold direntSlot
      split_ifs with h0
      · exact (decide_eq_true h0).symm
      · exact (decide_eq_false h0).symm
    rw [List.map_cons, dirlinkLoop, bind_of_ok (readDirent_eq hc he _), ite_run, List.find?_cons, hnone]
    by_cases h0 : direntInum (direntAt nd.data e) = 0
    · rw [if_pos h0, decide_eq_true h0]
      rfl
    · rw [if_neg h0, decide_eq_false h0]
      exact ih fun e' he' => hes e' (.tail _ he')

theorem firstFree_eq (data : List UInt8) :
    (((List.range (data.length / direntSize)).find? fun e => (direntSlot (direntAt data e)).isNone).map
      (· * direntSize)).getD (data.length / direntSize * direntSize) = Slots.firstFree (dirSlots data) * direntSize := by
  have hidx : Slots.firstFree (dirSlots data) =
      (List.range (data.length / direntSize)).findIdx fun e => (direntSlot (direntAt data e)).isNone :=
    List.findIdx_map ..
  rw [hidx, List.find?_eq_getElem?_findIdx]
  generalize hN : data.length / direntSize = N
  generalize hj : (List.range N).findIdx (fun e => (direntSlot (direntAt data e)).isNone) = j
  have hle : j ≤ N := by
    rw [← hj]
    have := (List.findIdx_le_length : (List.range N).findIdx (fun e => (direntSlot (direntAt data e)).isNone) ≤ _)
    rwa [List.length_range] at this
  by_cases hlt : j < N
  · rw [List.getElem?_range hlt]
    rfl
  · rw [List.getElem?_eq_none (by rw [List.length_range]; omega), Nat.le_antisymm hle (Nat.le_of_not_lt hlt)]
    rfl

/-! ## Writing entries -/

/-- There is no room for entry `e`: the directory would be too big, or `bmap` finds no block. -/
def NoSpace (sb : Superblock) (k : Fin NINODE) (e : Nat) (s : State) : Prop :=
  MAXFILE * BSIZE < (e + 1) * direntSize ∨ ∃ u, bmap sb k (e * direntSize / BSIZE) s = .ok (0, u)

/-- An entry that is there has its block. -/
theorem Copy.space (hc : Copy sb T s k nd) (he : (e + 1) * direntSize ≤ nd.data.length) : ¬ NoSpace sb k e s := by
  have hfits := hc.fits
  have hbn : e * direntSize / BSIZE < MAXFILE := by
    apply div_lt_maxfile
    unfold direntSize at *
    omega
  have hblock : (s.inode k).di.block s.data (e * direntSize / BSIZE) ≠ 0 := by
    refine hc.noHoles _ hbn ?_
    rw [hc.size]
    have := Nat.div_mul_le_self (e * direntSize) BSIZE
    unfold direntSize at *
    omega
  rintro (hbig | ⟨u, hu⟩)
  · omega
  · rw [bmap_of_block sb k hbn hblock] at hu
    exact hblock (ok_pair_inj hu).1.symm

theorem piece_entry (e : Nat) : piece (e * direntSize) (direntSize - 0) = direntSize := by
  unfold piece direntSize BSIZE
  omega

/-- The loop of `writei` for an entry: one block. -/
theorem writeiLoop_entry (k : Fin NINODE) (bs : List UInt8) (e : Nat) (s : State) :
    writeiLoop sb k (.kernel bs) direntSize direntSize (e * direntSize) 0 s =
      (bmap sb k (e * direntSize / BSIZE) >>= fun addr => if addr = 0 then pure (e * direntSize, 0)
        else modifyData (fun m => writeBytes m (addr * BSIZE + e * direntSize % BSIZE)
          ((Src.kernel bs).copyin 0 direntSize).2) >>= fun _ => logWrite sb addr >>= fun _ =>
            pure (e * direntSize + direntSize, direntSize)) s := by
  have hlast : ∀ off t, writeiLoop sb k (.kernel bs) direntSize 15 off direntSize t = .ok ((off, direntSize), t) := by
    intro off t
    rw [writeiLoop, ite_run, if_neg (Nat.lt_irrefl _)]
    rfl
  show writeiLoop sb k (.kernel bs) direntSize (15 + 1) (e * direntSize) 0 s = _
  rw [writeiLoop, ite_run, if_pos (by decide)]
  simp only [piece_entry]
  rw [bind_apply, bind_apply]
  cases bmap sb k (e * direntSize / BSIZE) s with
  | error err => rfl
  | ok p =>
    rw [ok_bind, ok_bind, ite_run, ite_run]
    split_ifs with h0 hfail
    · rfl
    · cases hfail
    · rw [bind_apply, bind_apply]
      cases modifyData (fun m => writeBytes m (p.1 * BSIZE + e * direntSize % BSIZE)
          ((Src.kernel bs).copyin 0 direntSize).2) p.2 with
      | error err => rfl
      | ok q =>
        rw [ok_bind, ok_bind, bind_apply, bind_apply]
        cases logWrite sb p.1 q.2 with
        | error err => rfl
        | ok q' =>
          rw [ok_bind, ok_bind, Nat.zero_add, hlast]
          rfl

theorem Src.slice_zero (src : Src) (tot : Nat) : src.slice tot 0 = [] := rfl

theorem Src.kernel_slice (bs : List UInt8) : (Src.kernel bs).slice 0 bs.length = bs := by
  unfold Src.slice
  refine List.ext_getElem (by rw [List.length_map, List.length_range]) fun x hx hx' => ?_
  rw [List.getElem_map, List.getElem_range, Nat.zero_add]
  exact List.getD_eq_getElem _ _ hx'

theorem overlay_nil (f : List UInt8) (off : Nat) : overlay f off [] = f := by
  unfold overlay
  rw [List.append_nil, List.length_nil, Nat.add_zero, List.take_append_drop]

theorem offset_toNat (he : e * direntSize ≤ MAXFILE * BSIZE) : (UInt32.ofNat (e * direntSize)).toNat = e * direntSize :=
  UInt32.toNat_ofNat_of_lt' (Nat.lt_of_le_of_lt he (by decide))

/-- An entry is written as a whole, or not at all for lack of space. -/
theorem writei_entry_cases {r : Int} {t : State} (he : e * direntSize ≤ MAXFILE * BSIZE)
    (hsize : e * direntSize ≤ (s.inode k).di.size.toNat)
    (hrun : writei sb k (.kernel bs) (UInt32.ofNat (e * direntSize)) (UInt32.ofNat direntSize) s = .ok (r, t)) :
    (r = direntSize ∧ ¬ NoSpace sb k e s) ∨ ((r = -1 ∨ r = 0) ∧ NoSpace sb k e s) := by
  have hoff := offset_toNat he
  have hn : (UInt32.ofNat direntSize).toNat = direntSize := rfl
  have hmax : MAXFILE * BSIZE + direntSize < 2 ^ 32 := by decide
  have hsum : (UInt32.ofNat (e * direntSize) + UInt32.ofNat direntSize).toNat = e * direntSize + direntSize := by
    rw [toNat_add_of_lt (by rw [hoff, hn]; omega), hoff, hn]
  have hmaxval : (UInt32.ofNat (MAXFILE * BSIZE)).toNat = MAXFILE * BSIZE := rfl
  unfold writei at hrun
  rw [bind_of_ok (getInode_eq k s), ite_run, if_neg, ite_run] at hrun
  · split_ifs at hrun with hbig
    · rw [UInt32.lt_iff_toNat_lt, hsum, hmaxval] at hbig
      exact .inr ⟨.inl (pure_ok hrun).1, .inl (by rw [Nat.add_mul]; omega)⟩
    · rw [UInt32.lt_iff_toNat_lt, hsum, hmaxval] at hbig
      obtain ⟨q, t1, hloop, hrun⟩ := bind_ok hrun
      obtain ⟨ip, t2, -, hrun⟩ := bind_ok hrun
      obtain ⟨u, t3, -, hrun⟩ := bind_ok hrun
      obtain ⟨u', t4, -, hrun⟩ := bind_ok hrun
      have hr := (pure_ok hrun).1
      rw [hoff, hn, writeiLoop_entry] at hloop
      obtain ⟨addr, t5, hbmap, hloop⟩ := bind_ok hloop
      rw [ite_run] at hloop
      split_ifs at hloop with h0
      · rw [h0] at hbmap
        obtain ⟨rfl, -⟩ := pure_ok hloop
        exact .inr ⟨.inr hr, .inr ⟨t5, hbmap⟩⟩
      · obtain ⟨_, _, -, hloop⟩ := bind_ok hloop
        obtain ⟨_, _, -, hloop⟩ := bind_ok hloop
        obtain ⟨rfl, -⟩ := pure_ok hloop
        refine .inl ⟨hr, ?_⟩
        rintro (hbig' | ⟨u, hu⟩)
        · rw [Nat.add_mul] at hbig'
          omega
        · rw [hbmap] at hu
          exact h0 (ok_pair_inj hu).1.symm
  · rw [UInt32.lt_iff_toNat_lt, UInt32.lt_iff_toNat_lt, hsum, hoff]
    omega

variable (hsb : sb.Layout)
include hsb

/-- Writing an entry overlays the contents of the directory, or changes nothing. -/
theorem writeEntry_at (h : At sb N n cnt L T s) (hn : 0 < n) (hk : 0 < cnt k) (hv : (s.inode k).valid = true)
    (hc : Copy sb T s k nd) (hdir : nd.type = T_DIR) (hlen : bs.length = direntSize)
    (hinum : direntInum bs < N) (he : e * direntSize ≤ nd.data.length) :
    Meets TooBig (writei sb k (.kernel bs) (UInt32.ofNat (e * direntSize)) (UInt32.ofNat direntSize)) s fun r t =>
      Stable cnt s t ∧ (∀ l, l ≠ k → t.inode l = s.inode l) ∧
      ((r = direntSize ∧ ¬ NoSpace sb k e s ∧ At sb N n cnt L (update T (s.inode k).inum
        (some { nd with data := overlay nd.data (e * direntSize) bs })) t) ∨
      ((r = -1 ∨ r = 0) ∧ NoSpace sb k e s ∧ At sb N n cnt L T t)) := by
  obtain ⟨v, hinv, rfl⟩ := h.inv
  have hi := hinv.inum_lt hk hv
  have hdi := hinv.di_eq hk hv
  have htype := hinv.type_ne hk hv
  have hfits := hc.fits
  have hdata := h.dirData hc.node hdir
  have hoff : (UInt32.ofNat (e * direntSize)).toNat = e * direntSize := offset_toNat (by omega)
  have hsize : (v (s.inode k).inum).size.toNat = nd.data.length := by rw [← hdi, hc.size]
  have hcontents : (v (s.inode k).inum).contents s.data = nd.data := by rw [← hdi, hc.data]
  refine ⟨fun r t hrun => ?_, (writei_meets hsb hinv.image (by rw [h.ops]; exact hn) hi htype rfl hdi _ _ _).fails⟩
  have hcases := writei_entry_cases (e := e) (by omega) (by rw [hc.size]; exact he) hrun
  rcases (writei_meets hsb hinv.image (by rw [h.ops]; exact hn) hi htype rfl hdi _ _ _).post r t hrun with
    ⟨-, rfl, rfl⟩ | ⟨hnot, v', p, g, rfl, hp, himage, hfile, hinode, hreleases, hout, -, hends⟩
  · rcases hcases with ⟨h1, -⟩ | ⟨-, hno⟩
    · exact absurd h1 (by decide)
    · exact ⟨.refl cnt t, fun _ _ => rfl, .inr ⟨.inl rfl, hno, h⟩⟩
  · -- a kernel buffer can always be copied
    have hg : g = 0 := by
      rcases hends with ⟨hg, -⟩ | ⟨hfail, -⟩
      · exact hg
      · exact absurd hfail (Src.kernel_copyin bs _ _)
    subst hg
    rw [Nat.add_zero, hoff] at hfile
    have hcontents' := hfile.contents_eq (Src.slice_length _ 0 p) (by rw [hsize]; exact he)
    rw [hcontents] at hcontents'
    have hslice : p = direntSize → (Src.kernel bs).slice 0 p = bs := by
      intro hp'
      rw [hp', ← hlen, Src.kernel_slice]
    have hkept : Kept sb (s.inode k).inum v s.data v' t.data := ⟨hfile.others, hfile.same⟩
    have htype' : (v' (s.inode k).inum).type = (v (s.inode k).inum).type := by rw [hfile.fields]
    have hpcases : p = direntSize ∨ p = 0 := by
      rcases hcases with ⟨h1, -⟩ | ⟨h1 | h1, -⟩
      · exact .inl (by exact_mod_cast h1)
      · omega
      · exact .inr (by exact_mod_cast h1)
    have hdirData : DirData N ((v' (s.inode k).inum).contents t.data) := by
      rw [hcontents']
      rcases hpcases with hp' | hp'
      · rw [hslice hp']
        exact hdata.overlay he hlen hinum
      · subst hp'
        rw [Src.slice_zero, overlay_nil]
        exact hdata
    obtain ⟨hinv', hstable, hlocks⟩ := hinv.change hk hv himage hkept htype' (fun _ => (dirOk_iff _ _).2 hdirData) hinode
      hreleases
    have hnode : (v' (s.inode k).inum).node t.data =
        some { nd with data := overlay nd.data (e * direntSize) ((Src.kernel bs).slice 0 p) } := by
      rw [Dinode.node_of_type (by rw [htype']; exact htype), hcontents', hfile.fields, ← hc.type, ← hc.major, ← hc.minor,
        ← hc.nlink, hdi]
    have hat : At sb N n cnt L (update (treeOf sb s.data v) (s.inode k).inum
        (some { nd with data := overlay nd.data (e * direntSize) ((Src.kernel bs).slice 0 p) })) t := by
      refine ⟨⟨v', hinv', ?_⟩, hlocks.at h, hout.trans h.ops⟩
      rw [hkept.tree hi, hnode]
    refine ⟨hstable, fun l hl => by rw [hinode, update_of_ne hl], ?_⟩
    rcases hcases with ⟨h1, hspace⟩ | ⟨h1, hno⟩
    · have hp' : p = direntSize := by exact_mod_cast h1
      rw [hslice hp'] at hat
      exact .inl ⟨h1, hspace, hat⟩
    · have hp' : p = 0 := by
        rcases h1 with h1 | h1
        · omega
        · exact_mod_cast h1
      subst hp'
      rw [Src.slice_zero, overlay_nil] at hat
      have hsame : update (treeOf sb s.data v) (s.inode k).inum (some { nd with data := nd.data }) =
          treeOf sb s.data v := by
        rw [← hc.node]
        exact update_eq_self ..
      rw [hsame] at hat
      exact .inr ⟨h1, hno, hat⟩

/-- `dirlink` stops when the entry to be compared finds no place in the inode table, or the log is full. -/
def LinkFails (cnt : Fin NINODE → Nat) (nd : Node) (name : List UInt8) (s : State) (err : Panic) : Prop :=
  (∃ a, Slots.lookup (dirSlots nd.data) (nameKey name) = some a ∧ NoEntry cnt a s err) ∨ TooBig err

omit hsb in
theorem LinkFails.safe {name : List UInt8} {e : Panic} (h : LinkFails cnt nd name s e) : FsSafe e := by
  rcases h with ⟨a, -, he⟩ | he
  · exact he.safe
  · exact he.safe

/-- `dirlink`: the name is there already, or there is no space, or the entry is in. -/
theorem dirlink_at (h : At sb N n cnt L T s) (hn : 0 < n) (hk : 0 < cnt k) (hv : (s.inode k).valid = true)
    (hc : Copy sb T s k nd) (hdir : nd.type = T_DIR) (name : List UInt8) {inum : Nat} (hinum : inum % 65536 < N) :
    Meets (LinkFails cnt nd name s) (dirlink sb k name inum) s fun r t => Stable cnt s t ∧
      ((r = -1 ∧ At sb N n cnt L T t ∧ (Slots.lookup (dirSlots nd.data) (nameKey name) ≠ none ∨
        NoSpace sb k (Slots.firstFree (dirSlots nd.data)) s)) ∨
      (r = 0 ∧ Slots.lookup (dirSlots nd.data) (nameKey name) = none ∧
        ¬ NoSpace sb k (Slots.firstFree (dirSlots nd.data)) s ∧
        At sb N n cnt L (update T (s.inode k).inum (some { nd with
          data := overlay nd.data (Slots.firstFree (dirSlots nd.data) * direntSize) (dirent inum name) })) t)) := by
  have hdata := h.dirData hc.node hdir
  refine .bind ((dirlookup_at h hc hdir name).mono fun _ he => .inl he) ?_
  rintro r t (⟨rfl, rfl, hnone⟩ | ⟨ip, e, a, rfl, ha, -, hat, hstable, hip, -, -, hfresh⟩)
  · -- the name is not there
    have hes : ∀ e ∈ List.range (nd.data.length / direntSize), (e + 1) * direntSize ≤ nd.data.length := by
      intro e he
      have := List.mem_range.1 he
      unfold direntSize at *
      omega
    have hle := Slots.firstFree_le (dirSlots nd.data)
    rw [dirSlots_length] at hle
    refine .step (getInode_eq k t) ?_
    simp only [hc.size, direntOffsets_eq hdata.size, List.length_map, List.length_range]
    refine .step (dirlinkLoop_eq hc _ _ hes) ?_
    rw [firstFree_eq]
    refine .bind ((writeEntry_at hsb h hn hk hv hc hdir (dirent_length inum name)
      (by rw [direntInum_dirent]; exact hinum) (by unfold direntSize at *; omega)).mono fun _ he => .inr he) ?_
    rintro r u ⟨hstable, -, ⟨rfl, hspace, hat⟩ | ⟨hr, hno, hat⟩⟩
    · exact .ite (fun hne => absurd rfl hne) fun _ => .pure ⟨hstable, .inr ⟨rfl, hnone, hspace, hat⟩⟩
    · refine .ite (fun _ => .pure ⟨hstable, .inl ⟨rfl, hat, .inr hno⟩⟩) fun heq => ?_
      rw [not_not] at heq
      rcases hr with hr | hr
      · rw [hr] at heq
        cases heq
      · rw [hr] at heq
        cases heq
  · -- the reference that the lookup took is either not the last one or to an entry that was never filled in
    have hkept : ¬ (cnt ip = 0 ∧ (t.inode ip).valid = true) := by
      rintro ⟨hzero, hvalid⟩
      rw [hfresh hzero] at hvalid
      cases hvalid
    refine .bind ((iput_at hsb hat hn).mono fun _ he => absurd ⟨he.2.1, he.2.2.1⟩ hkept) ?_
    rintro - u ⟨T', hat', hstable', hdrop⟩
    cases hdrop with
    | freed hzero hvalid _ _ => exact absurd ⟨hzero, hvalid⟩ hkept
    | kept _ _ _ =>
      refine .pure ⟨hstable.trans hstable', .inl ⟨rfl, hat', .inl fun hnone => ?_⟩⟩
      exact Slots.lookup_eq_none_iff.1 hnone e a ha

omit hsb in
/-- `isdirempty` looks at the entries after the first two. -/
theorem isdirempty_eq (hc : Copy sb T s k nd) (hsize : nd.data.length % direntSize = 0) :
    isdirempty sb k s = .ok (((dirSlots nd.data).drop 2).all Option.isNone, s) := by
  have hloop : ∀ es : List Nat, (∀ e ∈ es, (e + 1) * direntSize ≤ nd.data.length) →
      isdiremptyLoop sb k (es.map (· * direntSize)) s =
        .ok (es.all fun e => (direntSlot (direntAt nd.data e)).isNone, s) := by
    intro es hes
    induction es with
    | nil => rfl
    | cons e es ih =>
      have he := hes e (.head _)
      rw [List.map_cons, isdiremptyLoop, bind_of_ok (readDirent_eq hc he _), ite_run, List.all_cons]
      unfold direntSlot
      by_cases h0 : direntInum (direntAt nd.data e) = 0
      · rw [if_neg (not_not_intro h0), if_pos h0]
        exact ih fun e' he' => hes e' (.tail _ he')
      · rw [if_pos h0, if_neg h0]
        rfl
  unfold isdirempty
  rw [bind_of_ok (getInode_eq k s), hc.size, direntOffsets_eq hsize, ← List.map_drop, hloop]
  · unfold dirSlots
    rw [← List.map_drop, List.all_map]
    rfl
  · intro e he
    have := List.mem_range.1 (List.mem_of_mem_drop he)
    unfold direntSize at *
    omega

end

/-! ## The initial file system -/

/-- The entries of the root directory of the initial file system. -/
theorem mkfs_slots : dirSlots ((mkfsDinodes ROOTINO).contents mkfsData) =
    [some (nameKey dot, 1), some (nameKey dotdot, 1), some (nameKey [102], 2)] ++ List.replicate 61 none := by
  decide +kernel

/-- What the entries of the root directory name. -/
theorem mkfs_entry (h : Slots.Holds
    ([some (nameKey dot, 1), some (nameKey dotdot, 1), some (nameKey [102], 2)] ++ List.replicate 61 none) e key a) :
    a = ROOTINO ∨ a = 2 := by
  have hmem := List.mem_of_getElem? h
  simp only [List.cons_append, List.nil_append, List.mem_cons, List.mem_replicate] at hmem
  rcases hmem with h1 | h1 | h1 | h1
  · cases h1
    exact .inl rfl
  · cases h1
    exact .inl rfl
  · cases h1
    exact .inr rfl
  · cases h1.2

end Xv6.Fs
