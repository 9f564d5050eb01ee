import Xv6.Base.Slots
import Xv6.Fs.ByteArray

/-!
# Names, directory entries and paths

What the bytes of a directory mean. A name counts up to its first 0 and up to `DIRSIZ` bytes, so it is known
by the `DIRSIZ` bytes that `strncpy` makes of it (`nameKey`); `namecmp` compares these. The entries of a
directory are a table of slots from such keys to inode numbers (`dirSlots`), where the inode number 0 marks a
free slot. The elements of a path are its slash-free parts (`components`); `skipelem` takes them off one by one.
-/

set_option autoImplicit false

namespace Xv6.Fs

open Xv6.Base

/-! ## Names -/

section

variable (n : Nat) (t : List UInt8)

theorem strncpy_length : (strncpy n t).length = n := by
  induction n generalizing t with
  | zero => rfl
  | succ n ih =>
    rw [strncpy]
    split_ifs
    · rw [List.length_cons, ih]
    · exact List.length_replicate

theorem strncpy_head : (strncpy (n + 1) t).headD 0 = t.headD 0 := by
  rw [strncpy]
  split_ifs with h
  · rfl
  · rw [not_not] at h
    rw [h]
    rfl

theorem strncpy_idem : strncpy n (strncpy n t) = strncpy n t := by
  induction n generalizing t with
  | zero => rfl
  | succ n ih =>
    by_cases h : t.headD 0 ≠ 0
    · have hval : strncpy (n + 1) t = t.headD 0 :: strncpy n t.tail := by rw [strncpy, if_pos h]
      rw [hval, strncpy, if_pos (by exact h)]
      exact congrArg _ (ih t.tail)
    · have hval : strncpy (n + 1) t = List.replicate (n + 1) 0 := by rw [strncpy, if_neg h]
      rw [hval, strncpy, if_neg (by rw [not_not]; rfl)]

end

/-- `strncmp` compares what `strncpy` copies. -/
theorem strncmp_eq_zero_iff (n : Nat) (p q : List UInt8) : strncmp n p q = 0 ↔ strncpy n p = strncpy n q := by
  induction n generalizing p q with
  | zero => exact ⟨fun _ => rfl, fun _ => rfl⟩
  | succ n ih =>
    rw [strncmp]
    by_cases h : p.headD 0 ≠ 0 ∧ p.headD 0 = q.headD 0
    · rw [if_pos h, ih, strncpy, if_pos h.1, strncpy, if_pos (by rw [← h.2]; exact h.1), h.2, List.cons.injEq]
      exact ⟨fun heq => ⟨rfl, heq⟩, fun heq => heq.2⟩
    · rw [if_neg h]
      constructor
      · intro heq
        have hhead : p.headD 0 = q.headD 0 := UInt8.toNat_inj.1 (by omega)
        have hzero : p.headD 0 = 0 := by
          by_contra hne
          exact h ⟨hne, hhead⟩
        rw [strncpy, strncpy, if_neg (by rw [not_not]; exact hzero), if_neg (by rw [not_not, ← hhead]; exact hzero)]
      · intro heq
        have hhead := congrArg (fun l => l.headD 0) heq
        simp only [strncpy_head] at hhead
        rw [hhead]
        omega

/-- What a name is known by: its bytes up to the first 0 and up to `DIRSIZ`, filled up with 0. -/
def nameKey (name : List UInt8) : List UInt8 := strncpy DIRSIZ name

theorem namecmp_eq_zero_iff (s t : List UInt8) : namecmp s t = 0 ↔ nameKey s = nameKey t :=
  strncmp_eq_zero_iff DIRSIZ s t

theorem nameKey_idem (name : List UInt8) : nameKey (nameKey name) = nameKey name := strncpy_idem DIRSIZ name

/-! ## Entries -/

/-- What a `struct dirent` says: nothing, or the inode number of a name. -/
def direntSlot (de : List UInt8) : Option (List UInt8 × Nat) :=
  if direntInum de = 0 then none else some (nameKey (direntName de), direntInum de)

/-- The bytes of entry `e` of a directory. -/
def direntAt (data : List UInt8) (e : Nat) : List UInt8 := (data.drop (e * direntSize)).take direntSize

/-- The entries of a directory. -/
def dirSlots (data : List UInt8) : Slots.Table (List UInt8) Nat :=
  (List.range (data.length / direntSize)).map fun e => direntSlot (direntAt data e)

section

variable (inum : Nat) (name : List UInt8)

theorem dirent_length : (dirent inum name).length = direntSize := by
  unfold dirent
  rw [List.length_append, strncpy_length]
  rfl

theorem direntInum_dirent : direntInum (dirent inum name) = inum % 65536 := by
  have h0 : (dirent inum name).getD 0 0 = UInt8.ofNat inum := rfl
  have h1 : (dirent inum name).getD 1 0 = UInt8.ofNat (inum / 256) := rfl
  unfold direntInum loadLE
  rw [loadLE, loadLE, h0, h1, UInt8.toNat_ofNat', UInt8.toNat_ofNat']
  omega

theorem direntName_dirent : direntName (dirent inum name) = nameKey name := rfl

end

theorem direntSlot_dirent {inum : Nat} (h0 : inum ≠ 0) (h : inum < 65536) (name : List UInt8) :
    direntSlot (dirent inum name) = some (nameKey name, inum) := by
  unfold direntSlot
  rw [direntInum_dirent, Nat.mod_eq_of_lt h, if_neg h0, direntName_dirent, nameKey_idem]

theorem direntSlot_zero : direntSlot (List.replicate direntSize 0) = none := by
  exact if_pos (by decide)

theorem dirSlots_length (data : List UInt8) : (dirSlots data).length = data.length / direntSize := by
  unfold dirSlots
  rw [List.length_map, List.length_range]

theorem dirSlots_getElem? (data : List UInt8) (e : Nat) :
    (dirSlots data)[e]? = if e < data.length / direntSize then some (direntSlot (direntAt data e)) else none := by
  unfold dirSlots
  by_cases he : e < data.length / direntSize
  · rw [if_pos he, List.getElem?_map, List.getElem?_range he]
    rfl
  · rw [if_neg he, List.getElem?_eq_none (by rw [List.length_map, List.length_range]; omega)]

theorem direntAt_overlay {data bs : List UInt8} {e : Nat} (he : e * direntSize ≤ data.length)
    (hlen : bs.length = direntSize) : direntAt (overlay data (e * direntSize) bs) e = bs := by
  unfold direntAt overlay
  have htake : (data.take (e * direntSize)).length = e * direntSize := by
    rw [List.length_take]
    omega
  rw [List.append_assoc, List.drop_left' htake, List.take_left' hlen]

theorem direntAt_overlay_ne {data bs : List UInt8} {e n : Nat} (hlen : bs.length = direntSize) (hne : n ≠ e)
    (hn : (n + 1) * direntSize ≤ data.length) (he : e * direntSize ≤ data.length) :
    direntAt (overlay data (e * direntSize) bs) n = direntAt data n := by
  unfold direntAt
  have hover := overlay_length bs he
  refine List.ext_getElem ?_ fun x hx hx' => ?_
  · rw [List.length_take, List.length_take, List.length_drop, List.length_drop, hover, hlen]
    unfold direntSize at *
    omega
  · rw [List.length_take, List.length_drop] at hx hx'
    rw [List.getElem_take, List.getElem_drop, List.getElem_take, List.getElem_drop, overlay_getElem he,
      if_neg (by unfold direntSize at *; omega), List.getD_eq_getElem]

/-- Writing one entry stores in one slot. -/
theorem dirSlots_overlay {data bs : List UInt8} {e : Nat} (hdvd : data.length % direntSize = 0)
    (he : e * direntSize ≤ data.length) (hlen : bs.length = direntSize) :
    dirSlots (overlay data (e * direntSize) bs) = Slots.store (dirSlots data) e (direntSlot bs) := by
  have hle : e ≤ (dirSlots data).length := by
    rw [dirSlots_length]
    unfold direntSize at *
    omega
  refine List.ext_getElem? fun n => ?_
  rw [Slots.getElem?_store hle, dirSlots_getElem?, overlay_length bs he, hlen]
  by_cases hn : n = e
  · subst hn
    rw [if_pos rfl, if_pos (by unfold direntSize at *; omega), direntAt_overlay he hlen]
  · rw [if_neg hn, dirSlots_getElem?]
    by_cases hlt : n < data.length / direntSize
    · have hfit : (n + 1) * direntSize ≤ data.length := by
        unfold direntSize at *
        omega
      rw [if_pos (by unfold direntSize at *; omega), if_pos hlt, direntAt_overlay_ne hlen hn hfit he]
    · rw [if_neg (by unfold direntSize at *; omega), if_neg hlt]

/-! ## Paths -/

/-- The slash-free parts of a path that are not empty, each cut to `DIRSIZ` bytes. -/
def components (path : List UInt8) : List (List UInt8) :=
  ((path.splitOn slash).filter fun c => decide (c ≠ [])).map fun c => c.take DIRSIZ

theorem components_nil : components [] = [] := by decide

theorem components_slash (path : List UInt8) : components (slash :: path) = components path := by
  unfold components
  rw [List.splitOn_cons_eq_if_modifyHead, if_pos (by decide), List.filter_cons_of_neg (by decide)]

theorem components_dropWhile (path : List UInt8) : components (path.dropWhile (· == slash)) = components path := by
  induction path with
  | nil => rfl
  | cons c path ih =>
    by_cases hc : c = slash
    · subst hc
      rw [List.dropWhile_cons_of_pos (by decide), ih, components_slash]
    · rw [List.dropWhile_cons_of_neg (by simpa using hc)]

/-- A part before a slash, or before the end. -/
theorem components_append {w : List UInt8} (hne : w ≠ []) (hw : ∀ c ∈ w, (c == slash) = false) (rest : List UInt8) :
    components w = [w.take DIRSIZ] ∧ components (w ++ slash :: rest) = w.take DIRSIZ :: components rest := by
  unfold components List.splitOn
  rw [List.splitOnP_eq_singleton hw, List.splitOnP_append_cons_of_forall_mem hw slash (by decide) rest]
  constructor
  · rw [List.filter_cons_of_pos (by simpa using hne)]
    rfl
  · rw [List.filter_cons_of_pos (by simpa using hne), List.map_cons]

/-- A path that does not start with a slash starts with a part, which ends at a slash or at the end. -/
theorem first_part {c : UInt8} (hc : (c == slash) = false) (path : List UInt8) :
    ∃ w, w ≠ [] ∧ (∀ x ∈ w, (x == slash) = false) ∧ (c :: path).takeWhile (· != slash) = w ∧
      (((c :: path).dropWhile (· != slash) = [] ∧ c :: path = w) ∨
        ∃ r, (c :: path).dropWhile (· != slash) = slash :: r ∧ c :: path = w ++ slash :: r) := by
  have hsplit : (c :: path).takeWhile (· != slash) ++ (c :: path).dropWhile (· != slash) = c :: path :=
    List.takeWhile_append_dropWhile
  refine ⟨(c :: path).takeWhile (· != slash), ?_, fun x hx => ?_, rfl, ?_⟩
  · rw [List.takeWhile_cons_of_pos (by simpa using hc)]
    exact List.cons_ne_nil _ _
  · have hall := List.all_eq_true.1 (List.all_takeWhile (p := (· != slash)) (l := c :: path)) x hx
    simpa using hall
  · cases hd : (c :: path).dropWhile (· != slash) with
    | nil =>
      rw [hd, List.append_nil] at hsplit
      exact .inl ⟨rfl, hsplit.symm⟩
    | cons d r =>
      have hd' : d = slash := by
        have hhead := List.head_dropWhile_not (· != slash) (by rw [hd]; exact List.cons_ne_nil d r)
        simpa [hd] using hhead
      subst hd'
      rw [hd] at hsplit
      exact .inr ⟨r, rfl, hsplit.symm⟩

theorem components_ne_nil {c : UInt8} (hc : (c == slash) = false) (path : List UInt8) :
    components (c :: path) ≠ [] := by
  obtain ⟨w, hne, hw, -, ⟨-, heq⟩ | ⟨r, -, heq⟩⟩ := first_part hc path
  · rw [heq, (components_append hne hw []).1]
    exact List.cons_ne_nil _ _
  · rw [heq, (components_append hne hw r).2]
    exact List.cons_ne_nil _ _

theorem dropWhile_slash_cases (path : List UInt8) : path.dropWhile (· == slash) = [] ∨
      ∃ c p, path.dropWhile (· == slash) = c :: p ∧ (c == slash) = false := by
  cases hd : path.dropWhile (· == slash) with
  | nil => exact .inl rfl
  | cons c p =>
    have hhead := List.head_dropWhile_not (· == slash) (by rw [hd]; exact List.cons_ne_nil c p)
    simp only [hd, List.head_cons] at hhead
    exact .inr ⟨c, p, rfl, hhead⟩

theorem components_eq_nil_iff (path : List UInt8) :
    components (path.dropWhile (· == slash)) = [] ↔ path.dropWhile (· == slash) = [] := by
  rcases dropWhile_slash_cases path with hd | ⟨c, p, hd, hc⟩
  · rw [hd]
    exact ⟨fun _ => rfl, fun _ => components_nil⟩
  · rw [hd]
    exact ⟨fun h => absurd h (components_ne_nil hc p), fun h => absurd h (List.cons_ne_nil _ _)⟩

/-- `skipelem` finds nothing exactly if there are no parts left. -/
theorem skipelem_eq_none_iff (path : List UInt8) : skipelem path = none ↔ components path = [] := by
  rw [← components_dropWhile, components_eq_nil_iff]
  unfold skipelem
  cases hd : path.dropWhile (· == slash) with
  | nil => exact ⟨fun _ => rfl, fun _ => rfl⟩
  | cons c p =>
    constructor
    · intro h
      cases h
    · intro h
      cases h

/-- `skipelem` takes off the first part. What is left is shorter, and empty exactly if it has no parts. -/
theorem skipelem_eq_some {path name rest : List UInt8} (h : skipelem path = some (name, rest)) :
    components path = name :: components rest ∧ rest.length < path.length ∧ (rest = [] ↔ components rest = []) := by
  unfold skipelem at h
  have hle : (path.dropWhile (· == slash)).length ≤ path.length :=
    (List.dropWhile_suffix _).length_le
  rcases dropWhile_slash_cases path with hd | ⟨c, p, hd, hc⟩
  · rw [hd] at h
    cases h
  · rw [hd] at h hle
    obtain ⟨w, hne, hw, htake, hcase⟩ := first_part hc p
    have hpos := List.length_pos_of_ne_nil hne
    obtain ⟨rfl, rfl⟩ := h
    refine ⟨?_, ?_, (components_eq_nil_iff _).symm⟩
    · rw [← components_dropWhile path, hd, htake]
      rcases hcase with ⟨hdrop, heq⟩ | ⟨r, hdrop, heq⟩
      · rw [hdrop, heq, (components_append hne hw []).1]
        rfl
      · rw [hdrop, heq, (components_append hne hw r).2, components_dropWhile, components_slash]
    · have hlen : ((c :: p).dropWhile (· != slash)).length < (c :: p).length := by
        rcases hcase with ⟨hdrop, heq⟩ | ⟨r, hdrop, heq⟩
        · rw [hdrop]
          exact Nat.succ_pos _
        · rw [hdrop, heq, List.length_append]
          omega
      exact Nat.lt_of_le_of_lt (List.dropWhile_suffix _).length_le (Nat.lt_of_lt_of_le hlen hle)

end Xv6.Fs
