import Xv6.Vm.Table

/-!
# Lookups that allocate tables

`walk` with `alloc` set takes pages from the free list for the interior and bottom tables it needs.
Whether it succeeds or runs out of pages half way, the pages it took are now pages of the table and
no entry has changed.
-/

set_option autoImplicit false

namespace Xv6.Vm

open Xv6.Base

/-- A table without entries. -/
def Blank (m : Mem) (p : Nat) : Prop := ∀ i < 512, ld64 m (p + 8 * i) = 0#64

theorem blank_fill (m : Mem) (p : Nat) : Blank (fill m p PGSIZE 0) p := by
  intro i hi
  unfold ld64
  rw [loadLE_fill_zero m p PGSIZE (by omega) (by unfold PGSIZE; omega)]

variable {p : Nat}

theorem Blank.congr {m m' : Mem} (h : Blank m p) (hp : PageEq m m' p) : Blank m' p := by
  intro i hi
  rw [ld64_congr hp hi]
  exact h i hi

section Blank

variable {m : Mem} {p : Nat} (h : Blank m p)

include h

theorem tables_blank (level : Nat) : tables m level p = [p] := by
  cases level with
  | zero => rfl
  | succ level =>
    refine congrArg (List.cons p) (List.flatMap_eq_nil_iff.2 fun i hi => ?_)
    rw [h i (List.mem_range.1 hi), has_zero]
    rfl

theorem leaf_blank (level v : Nat) : leaf m level p v = 0#64 := by
  unfold leaf
  cases level with
  | zero => exact h _ (idx_lt 0 v)
  | succ level =>
    simp only [slot, h _ (idx_lt (level + 1) v), has_zero]
    rfl

end Blank

/-- What `walk` with allocation has done to the machine, with the pages `new` taken. -/
structure Walked (s s' : Kmem) (v level t : Nat) (r : Option Nat) (new : List Nat) : Prop where
  free : s.freelist = new ++ s'.freelist
  tables_perm : (tables s'.mem level t).Perm (new ++ tables s.mem level t)
  leaf_eq : ∀ v', leaf s'.mem level t v' = leaf s.mem level t v'
  slots : ∀ v' a, slot s.mem v' level t = some a → slot s'.mem v' level t = some a
  plain : Plain s.mem level t → Plain s'.mem level t
  same : ∀ f, f % PGSIZE = 0 → f ∉ new → f ∉ interior s.mem level t → PageEq s.mem s'.mem f
  ref_new : ∀ f ∈ new, s'.pgref (PGINDEX f) = 1
  ref_old : ∀ i, (∀ f ∈ new, PGINDEX f ≠ i) → s'.pgref i = s.pgref i
  kend : s'.kend = s.kend
  found : ∀ a, r = some a → slot s'.mem v level t = some a ∧ s'.exhausted = s.exhausted
  failed : r = none → s.exhausted < s'.exhausted

/-- The machine after page `p` has been cleared and entered at `a` as a new table. -/
def install (s : Kmem) (a p : Nat) (next : List Nat) : Kmem :=
  { s with
    freelist := next
    mem := sd64 (fill (fill s.mem p PGSIZE 5) p PGSIZE 0) a (PA2PTE p ||| PTE_V)
    pgref := Function.update s.pgref (PGINDEX p) 1 }

theorem walkLoop_true_succ (va level t : Nat) (s : Kmem) :
    walkLoop true va (level + 1) t s =
      if has (ld64 s.mem (t + 8 * idx (level + 1) (va / PGSIZE))) PTE_V then
        walkLoop true va level (PTE2PA (ld64 s.mem (t + 8 * idx (level + 1) (va / PGSIZE)))) s
      else match s.freelist with
        | [] => .ok (none, { s with exhausted := s.exhausted + 1 })
        | p :: next => walkLoop true va level p
            (install s (t + 8 * idx (level + 1) (va / PGSIZE)) p next) := by
  rw [walkLoop, bind_apply, PX_eq_idx]
  show (if has (ld64 s.mem _) PTE_V then _ else _ : KM (Option Nat)) s = _
  rw [ite_run]
  split_ifs with hv ht
  · rfl
  · rw [bind_apply, kalloc]
    cases s.freelist with
    | nil | cons p next => rfl
  · exact absurd rfl ht

/-! ## Replacing one subtree -/

/-- Lists concatenated over distinct indices, when the list at one index gains the elements `new`. -/
theorem flatMap_perm_of_update {ι α : Type} {i : ι} {f g : ι → List α} {new : List α} :
    ∀ {l : List ι}, l.Nodup → i ∈ l → (∀ j ∈ l, j ≠ i → g j = f j) →
      (g i).Perm (new ++ f i) → (l.flatMap g).Perm (new ++ l.flatMap f)
  | [], _, hi, _, _ => by cases hi
  | j :: l, hnd, hi, hne, hp => by
    obtain ⟨hj, hl⟩ := List.nodup_cons.1 hnd
    rw [List.flatMap_cons, List.flatMap_cons]
    by_cases hij : j = i
    · subst hij
      have hrest : l.flatMap g = l.flatMap f := List.flatMap_congr fun k hk =>
        hne k (.tail _ hk) fun hkj => hj (hkj ▸ hk)
      rw [hrest, ← List.append_assoc]
      exact hp.append_right _
    · have hil : i ∈ l := by
        rcases List.mem_cons.1 hi with h | h
        · exact absurd h.symm hij
        · exact h
      have ih := flatMap_perm_of_update hl hil (fun k hk => hne k (.tail _ hk)) hp
      rw [hne j (.head _) hij]
      -- move the new elements in front of the list at `j`
      refine (ih.append_left (f j)).trans ?_
      rw [← List.append_assoc, ← List.append_assoc]
      exact List.perm_append_comm.append_right _

/-- The pages below entry `i` of the table `t`. -/
def subtables (m : Mem) (level t i : Nat) : List Nat :=
  if has (ld64 m (t + 8 * i)) PTE_V then tables m level (PTE2PA (ld64 m (t + 8 * i))) else []

/-- The entry for `v` below entry `i` of the table `t`. -/
def subleaf (m : Mem) (level t i v : Nat) : Pte :=
  if has (ld64 m (t + 8 * i)) PTE_V then leaf m level (PTE2PA (ld64 m (t + 8 * i))) v else 0#64

theorem tables_succ (m : Mem) (level t : Nat) :
    tables m (level + 1) t = t :: (List.range 512).flatMap (subtables m level t) := by
  rw [tables]
  rfl

theorem leaf_succ (m : Mem) (level t v : Nat) : leaf m (level + 1) t v = subleaf m level t (idx (level + 1) v) v := by
  unfold leaf subleaf
  simp only [slot]
  split_ifs <;> rfl

variable {new : List Nat}

section Replace

variable {m m' : Mem} {level t i : Nat}
  (hent : ∀ j < 512, j ≠ i → ld64 m' (t + 8 * j) = ld64 m (t + 8 * j))
  (hsame : ∀ j < 512, j ≠ i → ∀ f ∈ subtables m level t j, PageEq m m' f)

include hent hsame

theorem tables_replace (hi : i < 512) (hsub : (subtables m' level t i).Perm (new ++ subtables m level t i)) :
    (tables m' (level + 1) t).Perm (new ++ tables m (level + 1) t) := by
  have hflat : ((List.range 512).flatMap (subtables m' level t)).Perm
      (new ++ (List.range 512).flatMap (subtables m level t)) := by
    refine flatMap_perm_of_update List.nodup_range (List.mem_range.2 hi) (fun j hj hji => ?_) hsub
    have hj' := List.mem_range.1 hj
    have hs := hsame j hj' hji
    unfold subtables at hs ⊢
    rw [hent j hj' hji]
    split_ifs at hs ⊢ with hv
    · exact (tables_congr level _ fun f hf =>
        hs f (interior_subset_tables m level _ hf)).1
    · rfl
  exact (hflat.cons t).trans List.perm_middle.symm

theorem leaf_replace (hsub : ∀ v, subleaf m' level t i v = subleaf m level t i v) (v : Nat) :
    leaf m' (level + 1) t v = leaf m (level + 1) t v := by
  rw [leaf_succ, leaf_succ]
  by_cases hv : idx (level + 1) v = i
  · rw [hv]
    exact hsub v
  · have hs := hsame _ (idx_lt (level + 1) v) hv
    unfold subtables at hs
    unfold subleaf
    rw [hent _ (idx_lt (level + 1) v) hv]
    split_ifs at hs ⊢ with hval
    · exact leaf_congr hs v
    · rfl

theorem slot_replace (hsub : has (ld64 m (t + 8 * i)) PTE_V = true →
      ∀ v a, slot m v level (PTE2PA (ld64 m (t + 8 * i))) = some a →
        has (ld64 m' (t + 8 * i)) PTE_V = true ∧ slot m' v level (PTE2PA (ld64 m' (t + 8 * i))) = some a)
    {v a : Nat} (h : slot m v (level + 1) t = some a) : slot m' v (level + 1) t = some a := by
  simp only [slot] at h ⊢
  split_ifs at h with hval
  by_cases hv : idx (level + 1) v = i
  · rw [hv] at h hval ⊢
    obtain ⟨hval', h'⟩ := hsub hval v a h
    rw [if_pos hval', h']
  · have hs := hsame _ (idx_lt (level + 1) v) hv
    rw [subtables, if_pos hval] at hs
    rw [hent _ (idx_lt (level + 1) v) hv, if_pos hval, ← h]
    exact slot_congr v level _ fun f hf => hs f (interior_subset_tables m level _ hf)

theorem plain_replace (h : Plain m (level + 1) t) (hsub : has (ld64 m' (t + 8 * i)) PTE_V = true →
      has (ld64 m' (t + 8 * i)) (PTE_R ||| PTE_W ||| PTE_X) = false ∧
        Plain m' level (PTE2PA (ld64 m' (t + 8 * i)))) : Plain m' (level + 1) t := by
  intro j hj hv
  by_cases hji : j = i
  · subst hji
    exact hsub hv
  · rw [hent j hj hji] at hv ⊢
    obtain ⟨hflags, hp⟩ := h j hj hv
    refine ⟨hflags, hp.congr fun f hf => hsame j hj hji f ?_⟩
    unfold subtables
    rw [if_pos hv]
    exact interior_subset_tables m level _ hf

end Replace

theorem PTE2PA_table (hal : p % PGSIZE = 0) (hlt : p < 2 ^ 64) : PTE2PA (PA2PTE p ||| PTE_V) = p := by
  refine PTE2PA_PA2PTE_or PTE_V hal hlt fun i hi => ?_
  unfold PTE_V
  rw [BitVec.getLsbD_twoPow]
  simp
  omega

theorem has_V_table (p : Nat) : has (PA2PTE p ||| PTE_V) PTE_V = true := by
  rw [has_V, BitVec.getLsbD_or]
  simp [PTE_V]

/-- The entry of a table has no leaf flags. -/
theorem table_not_leaf (p : Nat) : has (PA2PTE p ||| PTE_V) (PTE_R ||| PTE_W ||| PTE_X) = false := by
  have hbit : ∀ k, 0 < k → k < 10 → (PA2PTE p ||| PTE_V).getLsbD k = false := by
    intro k h0 hk
    rw [BitVec.getLsbD_or, getLsbD_PA2PTE_low p hk, PTE_V, getLsbD_flag (by omega)]
    simp
    omega
  rw [has_or, has_or, has_R, has_W, has_X, hbit 1 (by decide) (by decide),
    hbit 2 (by decide) (by decide), hbit 3 (by decide) (by decide)]
  rfl

theorem Blank.plain {m : Mem} (h : Blank m p) (level : Nat) : Plain m level p := by
  cases level with
  | zero => trivial
  | succ level =>
    intro i hi hv
    rw [h i hi, has_zero] at hv
    cases hv

theorem PGINDEX_inj {f f' : Nat} (hf : f % PGSIZE = 0) (hf' : f' % PGSIZE = 0)
    (h : PGINDEX f = PGINDEX f') : f = f' := by
  unfold PGSIZE at hf hf'
  unfold PGINDEX PGSHIFT at h
  omega

/-! ## The specification of `walk` with allocation -/

section Descend

variable {s s' : Kmem} {v level t : Nat} {r : Option Nat}

/-- An allocating lookup below an existing entry, seen from the table above it. -/
theorem Walked.descend (hnd : (tables s.mem (level + 1) t).Nodup)
    (ht : t % PGSIZE = 0) (hfree : ∀ f ∈ s.freelist, f ∉ tables s.mem (level + 1) t)
    (hv : has (ld64 s.mem (t + 8 * idx (level + 1) v)) PTE_V = true)
    (h : Walked s s' v level (PTE2PA (ld64 s.mem (t + 8 * idx (level + 1) v))) r new) :
    Walked s s' v (level + 1) t r new := by
  have hi := idx_lt (level + 1) v
  have hnew : ∀ f ∈ new, f ∉ tables s.mem (level + 1) t := fun f hf =>
    hfree f (h.free ▸ List.mem_append_left _ hf)
  have htop : PageEq s.mem s'.mem t := by
    refine h.same t ht (fun hn => hnew t hn (mem_tables_self ..)) fun hin => ?_
    exact top_not_mem_child hnd hi hv (interior_subset_tables _ _ _ hin)
  have hent : ∀ j < 512, ld64 s'.mem (t + 8 * j) = ld64 s.mem (t + 8 * j) := fun j hj =>
    ld64_congr htop hj
  have hsame : ∀ j < 512, j ≠ idx (level + 1) v → ∀ f ∈ subtables s.mem level t j, PageEq s.mem s'.mem f := by
    intro j hj hne f hf
    unfold subtables at hf
    split_ifs at hf with hvj
    · refine h.same f (tables_aligned _ _ _ (PTE2PA_dvd _) hf) (fun hn => hnew f hn ?_) fun hin => ?_
      · exact .tail _ (mem_children.2 ⟨j, hj, hvj, hf⟩)
      · exact children_disjoint hnd hj hi hne hvj hv hf (interior_subset_tables _ _ _ hin)
    · cases hf
  refine ⟨h.free, ?_, ?_, fun v' a => ?_, fun hplain => ?_, ?_, h.ref_new, h.ref_old, h.kend, ?_, h.failed⟩
  · refine tables_replace (fun j hj _ => hent j hj) hsame hi ?_
    unfold subtables
    rw [hent _ hi, if_pos hv, if_pos hv]
    exact h.tables_perm
  · refine leaf_replace (fun j hj _ => hent j hj) hsame fun v' => ?_
    unfold subleaf
    rw [hent _ hi, if_pos hv, if_pos hv]
    exact h.leaf_eq v'
  · refine slot_replace (fun j hj _ => hent j hj) hsame fun _ v' a hs => ?_
    rw [hent _ hi]
    exact ⟨hv, h.slots v' a hs⟩
  · refine plain_replace (fun j hj _ => hent j hj) hsame hplain fun _ => ?_
    rw [hent _ hi]
    exact ⟨(hplain _ hi hv).1, h.plain (hplain _ hi hv).2⟩
  · intro f hf hn hin
    refine h.same f hf hn fun hin' => hin ?_
    exact .tail _ (mem_children.2 ⟨_, hi, hv, hin'⟩)
  · intro a ha
    refine ⟨?_, (h.found a ha).2⟩
    simp only [slot, hent _ hi, if_pos hv]
    exact (h.found a ha).1

/-- An allocating lookup below a newly installed table, seen from the table above it. -/
theorem Walked.graft {next : List Nat} (hndt : (tables s.mem (level + 1) t).Nodup) (ht : t % PGSIZE = 0)
    (hfl : s.freelist = p :: next) (hnd : s.freelist.Nodup)
    (hfree : ∀ f ∈ s.freelist, f % PGSIZE = 0 ∧ f < 2 ^ 64 ∧ f ∉ tables s.mem (level + 1) t)
    (hv : ¬ has (ld64 s.mem (t + 8 * idx (level + 1) v)) PTE_V = true)
    (h : Walked (install s (t + 8 * idx (level + 1) v) p next) s' v level p r new) :
    Walked s s' v (level + 1) t r (p :: new) := by
  have hi := idx_lt (level + 1) v
  obtain ⟨hpal, hplt, hpt⟩ := hfree p (hfl ▸ List.mem_cons_self ..)
  have hpne : p ≠ t := fun he => hpt (he ▸ mem_tables_self ..)
  have hnext : next = new ++ s'.freelist := h.free
  have hfl' : s.freelist = p :: new ++ s'.freelist := by rw [hfl, hnext]; rfl
  have hnew : ∀ f ∈ new, f ∈ s.freelist := fun f hf => by
    rw [hfl']
    exact List.mem_append_left _ (.tail _ hf)
  have hpnew : p ∉ new := fun hp => by
    rw [hfl'] at hnd
    exact (List.nodup_cons.1 (List.nodup_append.1 hnd).1).1 hp
  -- the installed page is an empty table
  have hblank : Blank (install s (t + 8 * idx (level + 1) v) p next).mem p :=
    (blank_fill _ p).congr (pageEq_sd64 _ _ ht hpal hi hpne)
  have hint : ∀ f, f ≠ p → f ∉ interior (install s (t + 8 * idx (level + 1) v) p next).mem level p :=
    fun f hf hin => hf (List.mem_singleton.1 (tables_blank hblank level ▸ interior_subset_tables _ _ _ hin))
  have hold : ∀ f, f % PGSIZE = 0 → f ≠ p → f ≠ t → f ∉ new → PageEq s.mem s'.mem f := by
    intro f hf hfp hft hfn
    refine PageEq.trans ?_ (h.same f hf hfn (hint f hfp))
    exact ((pageEq_fill s.mem 5 hpal hf hfp).trans (pageEq_fill _ 0 hpal hf hfp)).trans (pageEq_sd64 _ _ ht hf hi hft)
  have htop : PageEq (install s (t + 8 * idx (level + 1) v) p next).mem s'.mem t := by
    refine h.same t ht (fun hn => ?_) (hint t hpne.symm)
    exact (hfree t (hnew t hn)).2.2 (mem_tables_self ..)
  have hword : ld64 s'.mem (t + 8 * idx (level + 1) v) = PA2PTE p ||| PTE_V := by
    rw [ld64_congr htop hi]
    exact ld64_sd64 _ _ _
  have hent : ∀ j < 512, j ≠ idx (level + 1) v → ld64 s'.mem (t + 8 * j) = ld64 s.mem (t + 8 * j) := by
    intro j hj hne
    rw [ld64_congr htop hj]
    refine (ld64_sd64_ne _ _ (by omega)).trans ?_
    exact ld64_congr ((pageEq_fill s.mem 5 hpal ht hpne.symm).trans (pageEq_fill _ 0 hpal ht hpne.symm)) hj
  have hsame : ∀ j < 512, j ≠ idx (level + 1) v → ∀ f ∈ subtables s.mem level t j, PageEq s.mem s'.mem f := by
    intro j hj _ f hf
    unfold subtables at hf
    split_ifs at hf with hvj
    · have hft : f ∈ tables s.mem (level + 1) t :=
        List.mem_cons_of_mem _ (mem_children.2 ⟨j, hj, hvj, hf⟩)
      refine hold f (tables_aligned _ _ _ (PTE2PA_dvd _) hf) ?_ ?_ fun hn => ?_
      · rintro rfl
        exact hpt hft
      · rintro rfl
        exact top_not_mem_child hndt hj hvj hf
      · exact (hfree f (hnew f hn)).2.2 hft
    · cases hf
  refine ⟨hfl', ?_, ?_, fun v' a => ?_, fun hplain => ?_, ?_, ?_, ?_, h.kend, ?_, h.failed⟩
  · refine tables_replace hent hsame hi ?_
    unfold subtables
    rw [hword, if_pos (has_V_table p), PTE2PA_table hpal hplt, if_neg hv, List.append_nil]
    have hperm := h.tables_perm
    rw [tables_blank hblank] at hperm
    exact hperm.trans List.perm_append_comm
  · refine leaf_replace hent hsame fun v' => ?_
    unfold subleaf
    rw [hword, if_pos (has_V_table p), PTE2PA_table hpal hplt, if_neg hv, h.leaf_eq v']
    exact leaf_blank hblank level v'
  · exact slot_replace hent hsame fun hval => absurd hval hv
  · refine plain_replace hent hsame hplain fun _ => ?_
    rw [hword, PTE2PA_table hpal hplt]
    exact ⟨table_not_leaf p, h.plain (hblank.plain level)⟩
  · intro f hf hn hin
    obtain ⟨hfp, hfn⟩ := not_or.1 fun hc => hn (List.mem_cons.2 hc)
    exact hold f hf hfp (fun hft => hin (hft ▸ List.mem_cons_self ..)) hfn
  · intro f hf
    rcases List.mem_cons.1 hf with hf | hf
    · subst hf
      rw [h.ref_old]
      · exact Function.update_self ..
      · intro f' hf' he
        have := PGINDEX_inj (hfree f' (hnew f' hf')).1 hpal he
        exact hpnew (this ▸ hf')
    · exact h.ref_new f hf
  · intro i hne
    rw [h.ref_old i fun f hf => hne f (.tail _ hf)]
    exact Function.update_of_ne (hne p (.head _)).symm _ _
  · intro a ha
    refine ⟨?_, (h.found a ha).2⟩
    simp only [slot, hword, if_pos (has_V_table p), PTE2PA_table hpal hplt]
    exact (h.found a ha).1

end Descend

theorem Walked.none {s : Kmem} (v level t : Nat) :
    Walked s { s with exhausted := s.exhausted + 1 } v level t none [] where
  free := rfl
  tables_perm := .refl _
  leaf_eq := fun _ => rfl
  slots := fun _ _ hs => hs
  plain := fun hp => hp
  same := fun f _ _ _ => PageEq.refl _ f
  ref_new := fun f hf => by cases hf
  ref_old := fun _ _ => rfl
  kend := rfl
  found := fun a ha => by cases ha
  failed := fun _ => Nat.lt_succ_self _

/-- `walk` with allocation: the induction goes down the levels, and at each of them the table either
has the entry or gets a new one. -/
theorem walkLoop_true_spec {va : Nat} : ∀ {level t : Nat} {s s' : Kmem} {r : Option Nat},
    walkLoop true va level t s = .ok (r, s') → (tables s.mem level t).Nodup → t % PGSIZE = 0 →
      s.freelist.Nodup →
      (∀ f ∈ s.freelist, f % PGSIZE = 0 ∧ f < 2 ^ 64 ∧ f ∉ tables s.mem level t) →
      ∃ new, Walked s s' (va / PGSIZE) level t r new
  | 0, t, s, s', r, h, _, _, _, _ => by
    rw [walkLoop, PX_eq_idx] at h
    cases h
    exact ⟨[], rfl, .refl _, fun _ => rfl, fun _ _ hs => hs, fun hp => hp, fun f _ _ _ => PageEq.refl _ f,
      (fun f hf => by cases hf), fun _ _ => rfl, rfl, fun a ha => ⟨ha, rfl⟩,
      (fun hr => by cases hr)⟩
  | level + 1, t, s, s', r, h, hnd, ht, hfnd, hfree => by
    rw [walkLoop_true_succ] at h
    split_ifs at h with hv
    · obtain ⟨new, hw⟩ := walkLoop_true_spec h (child_nodup hnd (idx_lt _ _) hv) (PTE2PA_dvd _) hfnd
        fun f hf => ⟨(hfree f hf).1, (hfree f hf).2.1, fun hin => (hfree f hf).2.2
          (.tail _ (mem_children.2 ⟨_, idx_lt _ _, hv, hin⟩))⟩
      exact ⟨new, hw.descend hnd ht (fun f hf => (hfree f hf).2.2) hv⟩
    · cases hfl : s.freelist with
      | nil =>
        have hr : r = none ∧ s' = { s with exhausted := s.exhausted + 1 } := by
          rw [hfl] at h
          cases h
          exact ⟨rfl, by rw [hfl]⟩
        obtain ⟨rfl, rfl⟩ := hr
        exact ⟨[], Walked.none _ _ _⟩
      | cons p next =>
        rw [hfl] at h
        obtain ⟨hpal, -, hpt⟩ := hfree p (hfl ▸ List.mem_cons_self ..)
        have hpne : p ≠ t := by
          rintro rfl
          exact hpt (mem_tables_self ..)
        have hblank : Blank (install s (t + 8 * idx (level + 1) (va / PGSIZE)) p next).mem p :=
          (blank_fill _ p).congr (pageEq_sd64 _ _ ht hpal (idx_lt _ _) hpne)
        have hnd' := hfnd
        rw [hfl] at hnd'
        obtain ⟨hpn, hnn⟩ := List.nodup_cons.1 hnd'
        obtain ⟨new, hw⟩ := walkLoop_true_spec h
          (by rw [tables_blank hblank]; exact List.nodup_singleton p) hpal hnn (by
            intro f hf
            have hf' := hfree f (hfl ▸ List.mem_cons_of_mem _ hf)
            refine ⟨hf'.1, hf'.2.1, ?_⟩
            rw [tables_blank hblank]
            intro hfp
            cases List.mem_singleton.1 hfp
            exact hpn hf)
        exact ⟨p :: new, hw.graft hnd ht hfl hfnd hfree hv⟩

end Xv6.Vm
