import Xv6.Virtio.Model

/-!
# Descriptors and their chains

What the functions on descriptors do: `alloc3_desc` takes three distinct free descriptors or none, a
request that has been formatted reads back from its chain as the device reads it, and `free_chain` gives
back the three descriptors of a chain that is intact.
-/

set_option autoImplicit false

namespace Xv6.Virtio

open Function

variable {d d' : Disk} {r : Req} {c : Chain}

/-- The descriptors of a request, in order. -/
def Chain.idx (c : Chain) : List (Fin NUM) := [c.i0, c.i1, c.i2]

/-! ## Allocation -/

theorem allocDesc_free {i : Fin NUM} (h : allocDesc d = some i) : d.free i = true :=
  List.find?_some h

/-- Two disks that differ in nothing but free descriptors. -/
structure SameUsed (d d' : Disk) : Prop where
  free : d'.free = d.free
  desc : ∀ i, d.free i = false → d'.desc i = d.desc i
  rest : { d' with free := d.free, desc := d.desc } = d

/-- Some descriptors marked as taken. -/
def Disk.takeAll (d : Disk) (is : List (Fin NUM)) : Disk :=
  { d with free := fun i => if i ∈ is then false else d.free i }

theorem takeAll_nil (d : Disk) : d.takeAll [] = d := by
  simp [Disk.takeAll]

theorem take_takeAll (d : Disk) (is : List (Fin NUM)) (i : Fin NUM) :
    (d.takeAll is).take i = d.takeAll (is ++ [i]) := by
  unfold Disk.takeAll Disk.take
  congr 1
  funext j
  by_cases hj : j = i
  · subst hj
    simp
  · rw [update_of_ne hj]
    simp [hj]

/-- Giving back the descriptors that have just been taken. -/
theorem freeAll_takeAll (is : List (Fin NUM)) : ∀ {d' : Disk}, is.Nodup → (∀ i ∈ is, d.free i = true) →
      (∀ i, d'.free i = if i ∈ is then false else d.free i) →
      (∀ i, d.free i = false → d'.desc i = d.desc i) → { d' with free := d.free, desc := d.desc } = d →
      ∃ d'', freeAll is d' = .ok d'' ∧ SameUsed d d'' := by
  induction is with
  | nil =>
    intro d' _ _ hfree hdesc hrest
    exact ⟨d', rfl, funext fun i => by simp [hfree], hdesc, hrest⟩
  | cons i is ih =>
    intro d' hnd hin hfree hdesc hrest
    obtain ⟨hni, hnd⟩ := List.nodup_cons.1 hnd
    have hi : d'.free i = false := by simp [hfree]
    have hstep : freeDesc i d' = .ok { d' with
        desc := update d'.desc i .zero, free := update d'.free i true } := by
      unfold freeDesc
      rw [dif_pos i.isLt, if_neg (by simp [hi])]
    rw [freeAll, hstep]
    refine ih hnd (fun j hj => hin j (.tail _ hj)) (fun j => ?_) (fun j hj => ?_) ?_
    · by_cases hji : j = i
      · subst hji
        simp only [update_self]
        rw [if_neg hni, hin j (.head _)]
      · simp only [update_of_ne hji, hfree, List.mem_cons, hji, false_or]
    · have hji : j ≠ i := by
        rintro rfl
        rw [hin j (.head _)] at hj
        cases hj
      simp only [update_of_ne hji]
      exact hdesc j hj
    · exact hrest

theorem allocLoop_spec (n : Nat) : ∀ idx : List (Fin NUM), idx.Nodup → (∀ i ∈ idx, d.free i = true) →
      (∃ d', allocLoop n idx (d.takeAll idx) = .ok (none, d') ∧ SameUsed d d') ∨
        ∃ is, allocLoop n idx (d.takeAll idx) = .ok (some is, d.takeAll is) ∧ is.Nodup ∧
          is.length = idx.length + n ∧ ∀ i ∈ is, d.free i = true := by
  induction n with
  | zero =>
    intro idx hnd hfree
    exact .inr ⟨idx, rfl, hnd, rfl, hfree⟩
  | succ n ih =>
    intro idx hnd hfree
    rw [allocLoop]
    cases ha : allocDesc (d.takeAll idx) with
    | none =>
      left
      obtain ⟨d', hd, hsame⟩ : ∃ d', freeAll idx (d.takeAll idx) = .ok d' ∧ SameUsed d d' :=
        freeAll_takeAll idx hnd hfree (fun _ => rfl) (fun _ _ => rfl) rfl
      refine ⟨d', ?_, hsame⟩
      simp only [hd]
      rfl
    | some i =>
      have hi := allocDesc_free ha
      have hni : i ∉ idx := by
        intro hmem
        simp [Disk.takeAll, hmem] at hi
      have hfi : d.free i = true := by
        simpa [Disk.takeAll, hni] using hi
      simp only [take_takeAll]
      have hnd' : (idx ++ [i]).Nodup := by
        rw [List.nodup_append]
        refine ⟨hnd, by simp, fun a ha b hb hab => ?_⟩
        rw [List.mem_singleton] at hb
        exact hni (hb ▸ hab ▸ ha)
      have hfree' : ∀ j ∈ idx ++ [i], d.free j = true := by
        intro j hj
        rcases List.mem_append.1 hj with hj | hj
        · exact hfree j hj
        · rw [List.mem_singleton.1 hj]
          exact hfi
      rcases ih _ hnd' hfree' with h | ⟨is, h, hnd'', hlen, hfree''⟩
      · exact .inl h
      · refine .inr ⟨is, h, hnd'', ?_, hfree''⟩
        rw [hlen, List.length_append, List.length_singleton]
        omega

/-- `alloc3_desc` takes three distinct free descriptors, or it changes free descriptors only. -/
theorem alloc3Desc_spec (d : Disk) : (∃ d', alloc3Desc d = .ok (none, d') ∧ SameUsed d d') ∨
      ∃ c, alloc3Desc d = .ok (some c, d.takeAll c.idx) ∧ c.idx.Nodup ∧ ∀ i ∈ c.idx, d.free i = true := by
  have hspec := allocLoop_spec (d := d) 3 [] List.nodup_nil (by simp)
  rw [takeAll_nil] at hspec
  unfold alloc3Desc
  rcases hspec with ⟨d', h, hsame⟩ | ⟨is, h, hnd, hlen, hfree⟩
  · rw [h]
    exact .inl ⟨d', rfl, hsame⟩
  · obtain ⟨i0, i1, i2, rfl⟩ := List.length_eq_three.1 hlen
    rw [h]
    exact .inr ⟨⟨i0, i1, i2⟩, rfl, hnd, hfree⟩

/-! ## Requests -/

/-- The request `r` stands in the descriptors of `c`. -/
structure Formatted (d : Disk) (r : Req) (c : Chain) : Prop where
  nodup : c.idx.Nodup
  desc0 : d.desc c.i0 = ⟨.op c.i0, 16, VRING_DESC_F_NEXT, UInt16.ofNat c.i1⟩
  desc1 : d.desc c.i1 = ⟨.data r.b, BSIZE,
    (if r.write then 0 else VRING_DESC_F_WRITE) ||| VRING_DESC_F_NEXT, UInt16.ofNat c.i2⟩
  desc2 : d.desc c.i2 = ⟨.status c.i0, 1, VRING_DESC_F_WRITE, 0⟩
  op : d.ops c.i0 = ⟨if r.write then VIRTIO_BLK_T_OUT else VIRTIO_BLK_T_IN, 0, r.sector⟩
  b : (d.info c.i0).b = some r.b

theorem Chain.ne (h : c.idx.Nodup) : c.i0 ≠ c.i1 ∧ c.i0 ≠ c.i2 ∧ c.i1 ≠ c.i2 := by
  simpa [Chain.idx, and_assoc] using h

/-- What a request depends on. -/
theorem Formatted.congr (h : Formatted d r c) (hdesc : ∀ i ∈ c.idx, d'.desc i = d.desc i)
    (hop : d'.ops c.i0 = d.ops c.i0) (hb : (d'.info c.i0).b = (d.info c.i0).b) : Formatted d' r c where
  nodup := h.nodup
  desc0 := (hdesc c.i0 (by simp [Chain.idx])).trans h.desc0
  desc1 := (hdesc c.i1 (by simp [Chain.idx])).trans h.desc1
  desc2 := (hdesc c.i2 (by simp [Chain.idx])).trans h.desc2
  op := hop.trans h.op
  b := hb.trans h.b

theorem toNat_ofNat (i : Fin NUM) : (UInt16.ofNat i).toNat = i := by
  revert i
  decide

theorem ofNat_toNat (i : Fin NUM) : Fin.ofNat NUM (UInt16.ofNat i).toNat = i := by
  rw [toNat_ofNat]
  exact Fin.ext (Nat.mod_eq_of_lt i.isLt)

/-- The flags of the data descriptor have the bit that links it to the status. -/
theorem data_flags (write : Bool) :
    ((if write then 0 else VRING_DESC_F_WRITE) ||| VRING_DESC_F_NEXT) &&& VRING_DESC_F_NEXT ≠ 0 := by
  cases write <;> decide

/-- The device reads the request that the driver has written. -/
theorem Formatted.request (h : Formatted d r c) : d.request c.i0 = some (r, c.i0) := by
  unfold Disk.request
  simp only [h.desc0, ofNat_toNat, h.desc1, h.desc2, h.op]
  rw [if_pos ⟨by decide, data_flags r.write, by decide⟩]
  obtain ⟨b, write, sector⟩ := r
  cases write with
  | true | false => rfl

theorem format_formatted (hnd : c.idx.Nodup) : Formatted (format r c d) r c := by
  obtain ⟨h01, h02, h12⟩ := Chain.ne hnd
  unfold format Disk.setOp Disk.setDesc Disk.setInfo
  refine ⟨hnd, ?_, ?_, ?_, ?_, ?_⟩
  · simp only [update_of_ne h02, update_of_ne h01, update_self]
  · simp only [update_of_ne h12, update_self]
  · simp only [update_self]
  · simp only [update_self]
  · simp only [update_self]

theorem format_desc {i : Fin NUM} (hi : i ∉ c.idx) : (format r c d).desc i = d.desc i := by
  have h0 : i ≠ c.i0 := fun h => hi (h ▸ by simp [Chain.idx])
  have h1 : i ≠ c.i1 := fun h => hi (h ▸ by simp [Chain.idx])
  have h2 : i ≠ c.i2 := fun h => hi (h ▸ by simp [Chain.idx])
  unfold format Disk.setOp Disk.setDesc Disk.setInfo
  simp only [update_of_ne h0, update_of_ne h1, update_of_ne h2]

theorem format_op {i : Fin NUM} (hi : i ≠ c.i0) : (format r c d).ops i = d.ops i := by
  unfold format Disk.setOp Disk.setDesc Disk.setInfo
  simp only [update_of_ne hi]

theorem format_info {i : Fin NUM} (hi : i ≠ c.i0) : (format r c d).info i = d.info i := by
  unfold format Disk.setOp Disk.setDesc Disk.setInfo
  simp only [update_of_ne hi]

/-- The rest of what `format` changes is the next entry of the avail ring. -/
theorem format_rest (r : Req) (c : Chain) (d : Disk) :
    (format r c d).availIdx = d.availIdx ∧ (format r c d).usedIdx = d.usedIdx ∧
      (format r c d).used_idx = d.used_idx ∧ (format r c d).usedRing = d.usedRing ∧ (format r c d).free = d.free ∧
      (format r c d).availRing = update d.availRing (cell d.availIdx) (UInt16.ofNat c.i0) :=
  ⟨rfl, rfl, rfl, rfl, rfl, rfl⟩

/-! ## Giving a chain back -/

/-- Some descriptors cleared and marked as free. -/
def Disk.giveAll (d : Disk) (is : List (Fin NUM)) : Disk :=
  { d with
    desc := fun i => if i ∈ is then .zero else d.desc i
    free := fun i => if i ∈ is then true else d.free i }

theorem giveAll_nil (d : Disk) : d.giveAll [] = d := by
  simp [Disk.giveAll]

/-- A round of `free_chain`. -/
theorem freeDesc_giveAll {is : List (Fin NUM)} {i : Fin NUM} (hi : i ∉ is) (hfree : d.free i = false) :
    freeDesc i (d.giveAll is) = .ok (d.giveAll (is ++ [i])) := by
  unfold freeDesc
  have hf : (d.giveAll is).free i = false := by simp [Disk.giveAll, hi, hfree]
  rw [dif_pos i.isLt, if_neg (by simp [hf])]
  unfold Disk.giveAll
  congr 2
  · funext j
    by_cases hj : j = i
    · subst hj
      simp
    · simp [hj]
  · funext j
    by_cases hj : j = i
    · subst hj
      simp
    · simp [hj]

theorem giveAll_desc {is : List (Fin NUM)} {i : Fin NUM} (hi : i ∉ is) :
    (d.giveAll is).desc (Fin.ofNat NUM i.val) = d.desc i := by
  rw [show Fin.ofNat NUM i.val = i from Fin.ext (Nat.mod_eq_of_lt i.isLt)]
  simp [Disk.giveAll, hi]

theorem freeChain_next (n : Nat) (is : List (Fin NUM)) {i j : Fin NUM} {a : Addr} {len : Nat}
    {flags : UInt16} (hi : i ∉ is) (hfree : d.free i = false)
    (hdesc : d.desc i = ⟨a, len, flags, UInt16.ofNat j⟩) (hflag : flags &&& VRING_DESC_F_NEXT ≠ 0) :
    freeChain (n + 1) i (d.giveAll is) = freeChain n j (d.giveAll (is ++ [i])) := by
  rw [freeChain, freeDesc_giveAll hi hfree]
  simp only [giveAll_desc hi, hdesc]
  rw [if_pos hflag, toNat_ofNat]

theorem freeChain_last (n : Nat) (is : List (Fin NUM)) {i : Fin NUM} (hi : i ∉ is)
    (hfree : d.free i = false) (hflag : (d.desc i).flags &&& VRING_DESC_F_NEXT = 0) :
    freeChain (n + 1) i (d.giveAll is) = .ok (d.giveAll (is ++ [i])) := by
  rw [freeChain, freeDesc_giveAll hi hfree]
  simp only [giveAll_desc hi]
  rw [if_neg (by simp [hflag])]

/-- `free_chain` gives back the descriptors of a request, and no others. -/
theorem freeChain_spec (hnd : c.idx.Nodup) (h0 : d.desc c.i0 = ⟨.op c.i0, 16, VRING_DESC_F_NEXT, UInt16.ofNat c.i1⟩)
    (h1 : d.desc c.i1 = ⟨.data r.b, BSIZE,
      (if r.write then 0 else VRING_DESC_F_WRITE) ||| VRING_DESC_F_NEXT, UInt16.ofNat c.i2⟩)
    (h2 : d.desc c.i2 = ⟨.status c.i0, 1, VRING_DESC_F_WRITE, 0⟩) (hfree : ∀ i ∈ c.idx, d.free i = false) :
    freeChain (NUM + 1) c.i0 d = .ok (d.giveAll c.idx) := by
  obtain ⟨h01, h02, h12⟩ := Chain.ne hnd
  have hf0 := hfree c.i0 (by simp [Chain.idx])
  have hf1 := hfree c.i1 (by simp [Chain.idx])
  have hf2 := hfree c.i2 (by simp [Chain.idx])
  have e0 := freeChain_next NUM [] (by simp) hf0 h0 (by decide)
  have e1 := freeChain_next 7 [c.i0] (by simpa using h01.symm) hf1 h1 (data_flags r.write)
  have e2 := freeChain_last 6 [c.i0, c.i1] (by simp [h02.symm, h12.symm]) hf2
    (by rw [h2]; exact (by decide : VRING_DESC_F_WRITE &&& VRING_DESC_F_NEXT = 0))
  rw [giveAll_nil] at e0
  exact e0.trans (e1.trans e2)

end Xv6.Virtio
