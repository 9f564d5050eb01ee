import Xv6.Vm.Cow

/-!
# What a page table in memory maps

Pure views of a table in physical memory: the address of the entry for a page number (`slot`), the
entry itself (`leaf`), and the pages that make up the table (`tables`). The views read the entries
of the interior tables only, so a store to a bottom table changes exactly one entry, and a memory
that agrees on the table's pages has the same views.
-/

set_option autoImplicit false

namespace Xv6.Vm

open Xv6.Base

/-- Index of page number `v` in a table of the given level. -/
def idx (level v : Nat) : Nat := v / 512 ^ level % 512

/-- Address of the entry for page number `v` in the table `t` of the given level. -/
def slot (m : Mem) (v : Nat) : Nat → Nat → Option Nat
  | 0, t => some (t + 8 * idx 0 v)
  | level + 1, t =>
    if has (ld64 m (t + 8 * idx (level + 1) v)) PTE_V then
      slot m v level (PTE2PA (ld64 m (t + 8 * idx (level + 1) v)))
    else none

/-- The entry for page number `v`; 0 where the tables do not reach. -/
def leaf (m : Mem) (level t v : Nat) : Pte :=
  match slot m v level t with
  | some a => ld64 m a
  | none => 0#64

/-- The pages of a table of the given level: the table itself and the tables below it. -/
def tables (m : Mem) : Nat → Nat → List Nat
  | 0, t => [t]
  | level + 1, t => t :: (List.range 512).flatMap fun i =>
    if has (ld64 m (t + 8 * i)) PTE_V then tables m level (PTE2PA (ld64 m (t + 8 * i))) else []

/-- The tables of level 1 and above. -/
def interior (m : Mem) : Nat → Nat → List Nat
  | 0, _ => []
  | level + 1, t => t :: (List.range 512).flatMap fun i =>
    if has (ld64 m (t + 8 * i)) PTE_V then interior m level (PTE2PA (ld64 m (t + 8 * i))) else []

/-- No entry above the bottom tables has the flags of a leaf. -/
def Plain (m : Mem) : Nat → Nat → Prop
  | 0, _ => True
  | level + 1, t => ∀ i < 512, has (ld64 m (t + 8 * i)) PTE_V = true →
      has (ld64 m (t + 8 * i)) (PTE_R ||| PTE_W ||| PTE_X) = false ∧
        Plain m level (PTE2PA (ld64 m (t + 8 * i)))

theorem idx_lt (level v : Nat) : idx level v < 512 := Nat.mod_lt _ (by decide)

theorem PX_eq_idx (level va : Nat) : PX level va = idx level (va / PGSIZE) := by
  have e : 2 ^ (PGSHIFT + 9 * level) = PGSIZE * 512 ^ level := by
    rw [pow_add, pow_mul]
    rfl
  rw [PX, idx, e, Nat.div_div_eq_div_mul]

/-! ## `walk` without allocation is `slot` -/

theorem walkLoop_false (va : Nat) (s : Kmem) : ∀ (level t : Nat),
    walkLoop false va level t s = .ok (slot s.mem (va / PGSIZE) level t, s)
  | 0, t => by rw [walkLoop, PX_eq_idx]; rfl
  | level + 1, t => by
    rw [walkLoop, bind_apply, PX_eq_idx]
    show (if has (ld64 s.mem _) PTE_V then _ else _ : KM (Option Nat)) s = _
    rw [ite_run]
    simp only [slot]
    split_ifs with hv hf
    · exact walkLoop_false va s level _
    · cases hf
    · rfl

theorem walk_false {va : Nat} (h : va < MAXVA) (pagetable : Nat) (s : Kmem) :
    walk pagetable va false s = .ok (slot s.mem (va / PGSIZE) 2 pagetable, s) := by
  rw [walk, if_neg (by omega)]
  exact walkLoop_false va s 2 pagetable

theorem walk_of_le {va : Nat} (h : MAXVA ≤ va) (pagetable : Nat) (alloc : Bool) (s : Kmem) :
    walk pagetable va alloc s = .error .walk := by
  rw [walk, if_pos h]
  rfl

/-! ## Words and pages -/

/-- The page at `f` has the same bytes in both memories. -/
def PageEq (m m' : Mem) (f : Nat) : Prop := ∀ x, f ≤ x → x < f + PGSIZE → m' x = m x

theorem PageEq.refl (m : Mem) (f : Nat) : PageEq m m f := fun _ _ _ => rfl

variable {m m' : Mem} {f : Nat}

theorem PageEq.trans {m'' : Mem} (h : PageEq m m' f) (h' : PageEq m' m'' f) :
    PageEq m m'' f := fun x h1 h2 => (h' x h1 h2).trans (h x h1 h2)

variable {i t : Nat}

theorem ld64_congr (h : PageEq m m' t) (hi : i < 512) : ld64 m' (t + 8 * i) = ld64 m (t + 8 * i) := by
  unfold ld64
  congr 1
  refine loadLE_congr fun x h1 h2 => ?_
  exact h x (by omega) (by unfold PGSIZE; omega)

theorem ld64_sd64 (m : Mem) (a : Nat) (w : Pte) : ld64 (sd64 m a w) a = w := by
  unfold ld64 sd64
  rw [loadLE_storeLE]
  apply BitVec.eq_of_toNat_eq
  rw [BitVec.toNat_ofNat]
  have := w.isLt
  omega

theorem ld64_sd64_ne (m : Mem) {a b : Nat} (w : Pte) (h : b + 8 ≤ a ∨ a + 8 ≤ b) : ld64 (sd64 m b w) a = ld64 m a := by
  unfold ld64 sd64
  rw [loadLE_storeLE_ne m h]

theorem sd64_of_not_mem (m : Mem) {a x : Nat} (w : Pte) (h : x < a ∨ a + 8 ≤ x) :
    sd64 m a w x = m x := storeLE_of_not_mem m h

/-- A store to an entry of one table leaves every other page. -/
theorem pageEq_sd64 (m : Mem) (w : Pte) (ht : t % PGSIZE = 0) (hf : f % PGSIZE = 0)
    (hi : i < 512) (hne : f ≠ t) : PageEq m (sd64 m (t + 8 * i) w) f := by
  intro x h1 h2
  unfold PGSIZE at *
  refine sd64_of_not_mem m w ?_
  omega

theorem pageEq_fill (m : Mem) {p : Nat} (b : UInt8) (hp : p % PGSIZE = 0) (hf : f % PGSIZE = 0)
    (hne : f ≠ p) : PageEq m (fill m p PGSIZE b) f := by
  intro x h1 h2
  refine fill_of_not_mem m ?_
  unfold PGSIZE at *
  omega

/-! ## The views depend on the interior tables only -/

theorem mem_children {g : Nat → List Nat} :
    (f ∈ (List.range 512).flatMap fun i => if has (ld64 m (t + 8 * i)) PTE_V then
        g (PTE2PA (ld64 m (t + 8 * i))) else []) ↔
      ∃ i < 512, has (ld64 m (t + 8 * i)) PTE_V = true ∧ f ∈ g (PTE2PA (ld64 m (t + 8 * i))) := by
  rw [List.mem_flatMap]
  constructor
  · rintro ⟨i, hi, hf⟩
    split_ifs at hf with hv
    · exact ⟨i, List.mem_range.1 hi, hv, hf⟩
    · cases hf
  · rintro ⟨i, hi, hv, hf⟩
    refine ⟨i, List.mem_range.2 hi, ?_⟩
    rw [if_pos hv]
    exact hf

theorem mem_tables_self (m : Mem) (level t : Nat) : t ∈ tables m level t := by
  cases level with
  | zero => exact List.mem_singleton_self t
  | succ level => exact .head _

theorem interior_subset_tables (m : Mem) : ∀ (level t : Nat) {f : Nat},
    f ∈ interior m level t → f ∈ tables m level t
  | 0, _, _, h => by cases h
  | level + 1, t, f, h => by
    rcases List.mem_cons.1 h with h | h
    · subst h
      exact .head _
    · obtain ⟨i, hi, hv, hf⟩ := mem_children.1 h
      refine .tail _ (mem_children.2 ⟨i, hi, hv, ?_⟩)
      exact interior_subset_tables m level _ hf

theorem tables_aligned (m : Mem) : ∀ (level t : Nat) {f : Nat}, t % PGSIZE = 0 →
    f ∈ tables m level t → f % PGSIZE = 0
  | 0, t, f, ht, h => by
    cases List.mem_singleton.1 h
    exact ht
  | level + 1, t, f, ht, h => by
    rcases List.mem_cons.1 h with h | h
    · subst h
      exact ht
    · obtain ⟨i, hi, hv, hf⟩ := mem_children.1 h
      exact tables_aligned m level _ (PTE2PA_dvd _) hf

/-- Memories that agree on the interior tables have the same tables. -/
theorem tables_congr : ∀ (level t : Nat),
    (∀ f ∈ interior m level t, PageEq m m' f) →
      tables m' level t = tables m level t ∧ interior m' level t = interior m level t
  | 0, _, _ => ⟨rfl, rfl⟩
  | level + 1, t, h => by
    have ht : ∀ i < 512, ld64 m' (t + 8 * i) = ld64 m (t + 8 * i) := fun i hi =>
      ld64_congr (h t (.head _)) hi
    have ih : ∀ i < 512, has (ld64 m (t + 8 * i)) PTE_V = true → tables m' level (PTE2PA (ld64 m (t + 8 * i))) =
            tables m level (PTE2PA (ld64 m (t + 8 * i))) ∧
          interior m' level (PTE2PA (ld64 m (t + 8 * i))) = interior m level (PTE2PA (ld64 m (t + 8 * i))) := by
      intro i hi hv
      refine tables_congr level _ fun f hf => h f ?_
      exact .tail _ (mem_children.2 ⟨i, hi, hv, hf⟩)
    constructor
    · simp only [tables]
      refine congrArg (List.cons t) (List.flatMap_congr fun i hi => ?_)
      rw [ht i (List.mem_range.1 hi)]
      split_ifs with hv
      · exact (ih i (List.mem_range.1 hi) hv).1
      · rfl
    · simp only [interior]
      refine congrArg (List.cons t) (List.flatMap_congr fun i hi => ?_)
      rw [ht i (List.mem_range.1 hi)]
      split_ifs with hv
      · exact (ih i (List.mem_range.1 hi) hv).2
      · rfl

theorem slot_congr (v : Nat) : ∀ (level t : Nat),
    (∀ f ∈ interior m level t, PageEq m m' f) → slot m' v level t = slot m v level t
  | 0, _, _ => rfl
  | level + 1, t, h => by
    have ht := ld64_congr (h t (.head _)) (idx_lt (level + 1) v)
    simp only [slot, ht]
    split_ifs with hv
    · refine slot_congr v level _ fun f hf => h f ?_
      exact .tail _ (mem_children.2 ⟨_, idx_lt (level + 1) v, hv, hf⟩)
    · rfl

theorem Plain.congr : ∀ {level t : Nat},
    Plain m level t → (∀ f ∈ interior m level t, PageEq m m' f) → Plain m' level t
  | 0, _, _, _ => trivial
  | level + 1, t, h, heq => by
    intro i hi hv
    rw [ld64_congr (heq t (.head _)) hi] at hv ⊢
    obtain ⟨hflags, hsub⟩ := h i hi hv
    refine ⟨hflags, hsub.congr fun f hf => heq f ?_⟩
    exact .tail _ (mem_children.2 ⟨i, hi, hv, hf⟩)

section Nodup

variable {m : Mem} {level t : Nat} (hnd : (tables m (level + 1) t).Nodup)

include hnd

/-- The subtree of a valid entry shares no page with itself. -/
theorem child_nodup (hi : i < 512) (hv : has (ld64 m (t + 8 * i)) PTE_V = true) :
    (tables m level (PTE2PA (ld64 m (t + 8 * i)))).Nodup := by
  have hn := (List.nodup_flatMap.1 (List.nodup_cons.1 hnd).2).1 i (List.mem_range.2 hi)
  rwa [if_pos hv] at hn

theorem top_not_mem_child (hi : i < 512) (hv : has (ld64 m (t + 8 * i)) PTE_V = true) :
    t ∉ tables m level (PTE2PA (ld64 m (t + 8 * i))) := fun ht =>
  (List.nodup_cons.1 hnd).1 (mem_children.2 ⟨i, hi, hv, ht⟩)

/-- The subtrees of different entries share no page. -/
theorem children_disjoint {j : Nat} (hi : i < 512) (hj : j < 512) (hij : i ≠ j)
    (hvi : has (ld64 m (t + 8 * i)) PTE_V = true) (hvj : has (ld64 m (t + 8 * j)) PTE_V = true) :
    List.Disjoint (tables m level (PTE2PA (ld64 m (t + 8 * i)))) (tables m level (PTE2PA (ld64 m (t + 8 * j)))) := by
  have hdis := (List.nodup_flatMap.1 (List.nodup_cons.1 hnd).2).2
  have : Std.Symm (Function.onFun List.Disjoint fun i => if has (ld64 m (t + 8 * i)) PTE_V then
      tables m level (PTE2PA (ld64 m (t + 8 * i))) else []) := ⟨fun _ _ h => h.symm⟩
  have hd := hdis.forall (List.mem_range.2 hi) (List.mem_range.2 hj) hij
  simpa only [Function.onFun, if_pos hvi, if_pos hvj] using hd

end Nodup

/-- The entry found by a lookup lies in a bottom table. -/
theorem slot_mem {m : Mem} {v a : Nat} : ∀ {level t : Nat}, slot m v level t = some a →
    ∃ b ∈ tables m level t, a = b + 8 * (v % 512) ∧
      ((tables m level t).Nodup → b ∉ interior m level t)
  | 0, t, h => by
    refine ⟨t, mem_tables_self m 0 t, ?_, fun _ hb => by cases hb⟩
    simp only [slot, idx, pow_zero, Nat.div_one, Option.some.injEq] at h
    exact h.symm
  | level + 1, t, h => by
    simp only [slot] at h
    split_ifs at h with hv
    obtain ⟨b, hb, ha, hnot⟩ := slot_mem h
    refine ⟨b, .tail _ (mem_children.2 ⟨_, idx_lt _ v, hv, hb⟩), ha, ?_⟩
    intro hnd hin
    rcases List.mem_cons.1 hin with hbt | hin
    · -- the bottom table would be the root of the subtree
      subst hbt
      exact top_not_mem_child hnd (idx_lt _ v) hv hb
    · obtain ⟨i, hi, hvi, hbi⟩ := mem_children.1 hin
      by_cases hidx : i = idx (level + 1) v
      · subst hidx
        exact hnot (child_nodup hnd hi hv) hbi
      · -- or an interior table of another child
        exact children_disjoint hnd hi (idx_lt _ v) hidx hvi hv (interior_subset_tables m level _ hbi) hb

/-- A lookup depends on the index bits of the page number only. -/
theorem slot_mod_congr {m : Mem} {v v' level : Nat} (h : v % 512 ^ (level + 1) = v' % 512 ^ (level + 1)) (t : Nat) :
    slot m v level t = slot m v' level t := by
  induction level generalizing t with
  | zero =>
    rw [zero_add, pow_one] at h
    simp only [slot, idx, pow_zero, Nat.div_one]
    rw [h]
  | succ level ih =>
    have hidx : idx (level + 1) v = idx (level + 1) v' := by
      unfold idx
      rw [← Nat.mod_mul_right_div_self, ← Nat.mod_mul_right_div_self, ← pow_succ, h]
    have hmod : v % 512 ^ (level + 1) = v' % 512 ^ (level + 1) := by
      have hd : 512 ^ (level + 1) ∣ 512 ^ (level + 1 + 1) := pow_dvd_pow 512 (by omega)
      rw [← Nat.mod_mod_of_dvd v hd, ← Nat.mod_mod_of_dvd v' hd, h]
    simp only [slot, hidx]
    split_ifs with hv
    · exact ih hmod _
    · rfl

/-- Memories that agree on the pages of a table have the same entries. -/
theorem leaf_congr {level : Nat} (h : ∀ f ∈ tables m level t, PageEq m m' f)
    (v : Nat) : leaf m' level t v = leaf m level t v := by
  have hs : slot m' v level t = slot m v level t :=
    slot_congr v level t fun f hf => h f (interior_subset_tables m level t hf)
  unfold leaf
  rw [hs]
  cases hsl : slot m v level t with
  | none => rfl
  | some a =>
    obtain ⟨b, hb, ha, -⟩ := slot_mem hsl
    subst ha
    exact ld64_congr (h b hb) (Nat.mod_lt _ (by decide))

/-- Different page numbers have different entries. -/
theorem slot_inj {m : Mem} {v v' a : Nat} : ∀ {level t : Nat}, (tables m level t).Nodup →
    slot m v level t = some a → slot m v' level t = some a →
      v % 512 ^ (level + 1) = v' % 512 ^ (level + 1)
  | 0, t, _, h, h' => by
    simp only [slot, idx, pow_zero, Nat.div_one, Option.some.injEq] at h h'
    rw [pow_one]
    omega
  | level + 1, t, hnd, h, h' => by
    simp only [slot] at h h'
    split_ifs at h with hv
    split_ifs at h' with hv'
    by_cases hidx : idx (level + 1) v = idx (level + 1) v'
    · rw [← hidx] at h'
      have ih := slot_inj (child_nodup hnd (idx_lt _ v) hv) h h'
      rw [pow_succ 512 (level + 1), Nat.mod_mul, Nat.mod_mul, ih]
      unfold idx at hidx
      rw [hidx]
    · -- the two entries would lie in tables of different children
      exfalso
      obtain ⟨b, hb, ha, -⟩ := slot_mem h
      obtain ⟨b', hb', ha', -⟩ := slot_mem h'
      have hal := tables_aligned m level _ (PTE2PA_dvd _) hb
      have hal' := tables_aligned m level _ (PTE2PA_dvd _) hb'
      have hbb : b = b' := by
        unfold PGSIZE at hal hal'
        omega
      subst hbb
      exact children_disjoint hnd (idx_lt _ v) (idx_lt _ v') hidx hv hv' hb hb'

section Store

variable {m : Mem} {level t v a : Nat}

section

variable (hnd : (tables m level t).Nodup) (ht : t % PGSIZE = 0) (hs : slot m v level t = some a) (w : Pte)
include hnd ht hs

theorem interior_store (f : Nat) (hf : f ∈ interior m level t) : PageEq m (sd64 m a w) f := by
  obtain ⟨b, hb, ha, hnot⟩ := slot_mem hs
  subst ha
  refine pageEq_sd64 m w (tables_aligned m level t ht hb)
    (tables_aligned m level t ht (interior_subset_tables m level t hf))
    (Nat.mod_lt _ (by decide)) ?_
  rintro rfl
  exact hnot hnd hf

/-- A store to the entry for a page number changes no table. -/
theorem tables_store : tables (sd64 m a w) level t = tables m level t :=
  (tables_congr level t (interior_store hnd ht hs w)).1

theorem plain_store (h : Plain m level t) : Plain (sd64 m a w) level t :=
  h.congr (interior_store hnd ht hs w)

theorem slot_store (v' : Nat) : slot (sd64 m a w) v' level t = slot m v' level t :=
  slot_congr v' level t (interior_store hnd ht hs w)

/-- A store to the entry for a page number changes the entry of that page number only. -/
theorem leaf_store (v' : Nat) : leaf (sd64 m a w) level t v' =
      if v' % 512 ^ (level + 1) = v % 512 ^ (level + 1) then w else leaf m level t v' := by
  unfold leaf
  rw [slot_store hnd ht hs w v']
  split_ifs with hvv
  · rw [slot_mod_congr hvv t, hs]
    exact ld64_sd64 m a w
  · cases hs' : slot m v' level t with
    | none => rfl
    | some a' =>
      -- both entries are words at multiples of 8, and they are different words
      have hne : a' ≠ a := by
        rintro rfl
        exact hvv (slot_inj hnd hs' hs)
      obtain ⟨b, hb, ha, -⟩ := slot_mem hs
      obtain ⟨b', hb', ha', -⟩ := slot_mem hs'
      have hal := tables_aligned m level t ht hb
      have hal' := tables_aligned m level t ht hb'
      unfold PGSIZE at hal hal'
      refine ld64_sd64_ne m w ?_
      omega

end

end Store

end Xv6.Vm
