import Xv6.Vm.UserVm

/-!
# Freeing a page table

`freewalk` gives back the pages of a table from the leaves up, each once: a page is read before it is
freed, and clearing an entry of a table changes nothing below the other entries. In the ledger the pages
of the table are then pages that the kernel holds and releases.
-/

set_option autoImplicit false

namespace Xv6.Vm

open Xv6.Base

section FreeWalk

variable {level t : Nat}

theorem subtables_congr {m m' : Mem} {i : Nat} (hw : ld64 m' (t + 8 * i) = ld64 m (t + 8 * i))
    (h : ∀ f ∈ subtables m level t i, PageEq m m' f) : subtables m' level t i = subtables m level t i := by
  unfold subtables at *
  rw [hw]
  split_ifs at h ⊢ with hv
  · exact (tables_congr level _ fun f hf => h f (interior_subset_tables m level _ hf)).1
  · rfl

/-- Below the entry `i` of a table there is nothing that `freewalk` stops at. -/
structure Cleared (m : Mem) (level t i : Nat) : Prop where
  pointer : has (ld64 m (t + 8 * i)) PTE_V = true →
    has (ld64 m (t + 8 * i)) (PTE_R ||| PTE_W ||| PTE_X) = false ∧
      Plain m level (PTE2PA (ld64 m (t + 8 * i)))
  empty : ∀ v, has (subleaf m level t i v) PTE_V = false

theorem Cleared.congr {m m' : Mem} {level t i : Nat} (h : Cleared m level t i)
    (hw : ld64 m' (t + 8 * i) = ld64 m (t + 8 * i))
    (hp : ∀ f ∈ subtables m level t i, PageEq m m' f) : Cleared m' level t i := by
  unfold subtables at hp
  constructor
  · intro hv
    rw [hw] at hv ⊢
    rw [if_pos hv] at hp
    obtain ⟨hflags, hplain⟩ := h.pointer hv
    exact ⟨hflags, hplain.congr fun f hf => hp f (interior_subset_tables m level _ hf)⟩
  · intro v
    have hv := h.empty v
    unfold subleaf at hv ⊢
    rw [hw]
    split_ifs at hv hp ⊢ with hval
    · rw [leaf_congr hp]
      exact hv
    · exact hv

/-- What lies below an entry is found under the page numbers with its index. -/
theorem subleaf_eq_leaf (m : Mem) {level t i : Nat} (hi : i < 512) (v : Nat) : subleaf m level t i v =
      leaf m (level + 1) t (i * 512 ^ (level + 1) + v % 512 ^ (level + 1)) := by
  have hpos : 0 < 512 ^ (level + 1) := Nat.pow_pos (by decide)
  have hlt : v % 512 ^ (level + 1) < 512 ^ (level + 1) := Nat.mod_lt _ hpos
  have hidx : idx (level + 1) (i * 512 ^ (level + 1) + v % 512 ^ (level + 1)) = i := by
    rw [idx, Nat.mul_comm, Nat.mul_add_div hpos, Nat.div_eq_of_lt hlt, Nat.add_zero, Nat.mod_eq_of_lt hi]
  have hmod : v % 512 ^ (level + 1) = (i * 512 ^ (level + 1) + v % 512 ^ (level + 1)) % 512 ^ (level + 1) := by
    rw [Nat.mul_comm i, Nat.mul_add_mod, Nat.mod_mod]
  rw [leaf_succ, hidx, subleaf, subleaf, leaf, leaf, slot_mod_congr hmod]

/-- A table that `freewalk` can free: its pages are distinct frames with one owner each, and there are
no leaves. -/
structure Freeable (s : Kmem) (level t : Nat) : Prop where
  nodup : (tables s.mem level t).Nodup
  frame : ∀ f ∈ tables s.mem level t, IsFrame s.kend f ∧ s.pgref (PGINDEX f) = 1
  plain : Plain s.mem level t
  empty : ∀ v, has (leaf s.mem level t v) PTE_V = false

/-- The same for the tables below the entries `is` of the table at `t`. -/
structure FreeableBelow (s : Kmem) (level t : Nat) (is : List Nat) : Prop where
  nodup : (t :: is.flatMap (subtables s.mem level t)).Nodup
  indices : is.Nodup ∧ ∀ i ∈ is, i < 512
  aligned : t % PGSIZE = 0
  frame : ∀ f ∈ is.flatMap (subtables s.mem level t), IsFrame s.kend f ∧ s.pgref (PGINDEX f) = 1
  cleared : ∀ i ∈ is, Cleared s.mem level t i

variable {s : Kmem} {i : Nat} {is : List Nat}

theorem Freeable.below (h : Freeable s (level + 1) t) : FreeableBelow s level t (List.range 512) := by
  obtain ⟨hnd, hframe, hplain, hempty⟩ := h
  rw [tables_succ] at hnd hframe
  refine ⟨hnd, ⟨List.nodup_range, fun i hi => List.mem_range.1 hi⟩, (hframe t (.head _)).1.1,
    fun f hf => hframe f (.tail _ hf), fun i hi => ?_⟩
  refine ⟨hplain i (List.mem_range.1 hi), fun v => ?_⟩
  rw [subleaf_eq_leaf _ (List.mem_range.1 hi)]
  exact hempty _

/-- The table below the first entry. -/
theorem FreeableBelow.head (h : FreeableBelow s level t (i :: is)) (hv : has (ld64 s.mem (t + 8 * i)) PTE_V = true) :
    Freeable s level (PTE2PA (ld64 s.mem (t + 8 * i))) := by
  have hsub : subtables s.mem level t i = tables s.mem level (PTE2PA (ld64 s.mem (t + 8 * i))) := if_pos hv
  have hclear := h.cleared i (.head _)
  have hnd := (List.nodup_cons.1 h.nodup).2
  have hframe := h.frame
  rw [List.flatMap_cons, hsub] at hnd hframe
  refine ⟨(List.nodup_append.1 hnd).1, fun f hf => hframe f (List.mem_append_left _ hf),
    (hclear.pointer hv).2, fun v => ?_⟩
  have hempty := hclear.empty v
  rwa [subleaf, if_pos hv] at hempty

/-- After the first entry: the other entries and the tables below them are as they were. -/
theorem FreeableBelow.tail (h : FreeableBelow s level t (i :: is)) {s1 : Kmem}
    (hr : Released s s1 (subtables s.mem level t i) (t :: subtables s.mem level t i))
    (hent : ∀ j ∈ is, ld64 s1.mem (t + 8 * j) = ld64 s.mem (t + 8 * j)) : FreeableBelow s1 level t is ∧
      is.flatMap (subtables s1.mem level t) = is.flatMap (subtables s.mem level t) := by
  obtain ⟨hnd, ⟨hi, hlt⟩, hal, hframe, hclear⟩ := h
  rw [List.flatMap_cons] at hnd hframe
  obtain ⟨ht, hnd⟩ := List.nodup_cons.1 hnd
  obtain ⟨-, hnd', hdis⟩ := List.nodup_append.1 hnd
  have hout : ∀ f ∈ is.flatMap (subtables s.mem level t), f ∉ t :: subtables s.mem level t i := by
    intro f hf hmem
    rcases List.mem_cons.1 hmem with rfl | hmem
    · exact ht (List.mem_append_right _ hf)
    · exact hdis f hmem f hf rfl
  have hsame : ∀ j ∈ is, ∀ f ∈ subtables s.mem level t j, PageEq s.mem s1.mem f := fun j hj f hf =>
    have hmem := List.mem_flatMap.2 ⟨j, hj, hf⟩
    hr.same f (hframe f (List.mem_append_right _ hmem)).1.1 (hout f hmem)
  have hrest : is.flatMap (subtables s1.mem level t) = is.flatMap (subtables s.mem level t) :=
    List.flatMap_congr fun j hj => subtables_congr (hent j hj) (hsame j hj)
  refine ⟨⟨?_, ⟨(List.nodup_cons.1 hi).2, fun j hj => hlt j (.tail _ hj)⟩, hal, ?_,
    fun j hj => (hclear j (.tail _ hj)).congr (hent j hj) (hsame j hj)⟩, hrest⟩
  · rw [hrest]
    exact List.nodup_cons.2 ⟨fun hmem => ht (List.mem_append_right _ hmem), hnd'⟩
  · rw [hrest, hr.kend]
    intro f hf
    obtain ⟨hff, hone⟩ := hframe f (List.mem_append_right _ hf)
    refine ⟨hff, (hr.ref_old _ fun g hg he => ?_).trans hone⟩
    have hgf := PGINDEX_inj (hframe g (List.mem_append_left _ hg)).1.1 hff.1 he
    exact hdis g hg f hf hgf

/-- The loop of `freewalk` over the entries `is` releases the pages below them. -/
theorem freewalkLoop_released {child : Nat → KM Unit} (hchild : ∀ {c : Nat} {s : Kmem}, Freeable s level c →
      ∃ s', child c s = .ok ((), s') ∧ Released s s' (tables s.mem level c) (tables s.mem level c))
    (h : FreeableBelow s level t is) : ∃ s', freewalkLoop child t is s = .ok ((), s') ∧
      Released s s' (is.flatMap (subtables s.mem level t)) (t :: is.flatMap (subtables s.mem level t)) := by
  induction is generalizing s with
  | nil => exact ⟨s, rfl, .refl _, (fun f hf => by cases hf), fun _ _ => rfl, rfl, rfl,
      fun f _ _ => PageEq.refl _ f⟩
  | cons i is ih =>
    have hilt := h.indices.2 i (.head _)
    rw [freewalkLoop]
    -- what the entry does, and then the rest of the loop
    have hfirst : ∃ s1, (if has (ld64 s.mem (t + 8 * i)) PTE_V &&
          !has (ld64 s.mem (t + 8 * i)) (PTE_R ||| PTE_W ||| PTE_X) then do
            child (PTE2PA (ld64 s.mem (t + 8 * i)))
            writeWord (t + 8 * i) 0#64
        else if has (ld64 s.mem (t + 8 * i)) PTE_V then throw .freewalkLeaf else pure () : KM Unit) s = .ok ((), s1) ∧
        Released s s1 (subtables s.mem level t i) (t :: subtables s.mem level t i) ∧
        ∀ j ∈ is, ld64 s1.mem (t + 8 * j) = ld64 s.mem (t + 8 * j) := by
      cases hv : has (ld64 s.mem (t + 8 * i)) PTE_V with
      | false =>
        rw [show subtables s.mem level t i = [] from if_neg (by simp [hv])]
        exact ⟨s, rfl, ⟨.refl _, (fun f hf => by cases hf), fun _ _ => rfl, rfl, rfl,
          fun f _ _ => PageEq.refl _ f⟩, fun _ _ => rfl⟩
      | true =>
        have hsub : subtables s.mem level t i = tables s.mem level (PTE2PA (ld64 s.mem (t + 8 * i))) :=
          if_pos hv
        obtain ⟨s1, hc, hrel⟩ := hchild (h.head hv)
        rw [← hsub] at hrel
        rw [((h.cleared i (.head _)).pointer hv).1]
        refine ⟨_, (bind_of_ok hc _).trans rfl, ?_, fun j hj => ?_⟩
        · have hstore : Released s1 { s1 with mem := sd64 s1.mem (t + 8 * i) 0#64 } [] [t] :=
            ⟨.refl _, (fun f hf => by cases hf), fun _ _ => rfl, rfl, rfl, fun f hf hno =>
              pageEq_sd64 s1.mem 0#64 h.aligned hf hilt fun he => hno (List.mem_singleton.2 he)⟩
          have happ := hrel.append hstore (List.subset_cons_self t _) (List.cons_subset_cons t (List.nil_subset _))
          rwa [List.append_nil] at happ
        · have hne : j ≠ i := by
            rintro rfl
            exact (List.nodup_cons.1 h.indices.1).1 hj
          rw [ld64_sd64_ne _ _ (by omega)]
          refine ld64_congr (hrel.same t h.aligned fun ht => ?_) (h.indices.2 j (.tail _ hj))
          exact (List.nodup_cons.1 h.nodup).1 (List.mem_flatMap.2 ⟨i, .head _, ht⟩)
    obtain ⟨s1, hrun, hrel, hent⟩ := hfirst
    obtain ⟨hbelow, hrest⟩ := h.tail hrel hent
    obtain ⟨s', hloop, hrel'⟩ := ih hbelow
    rw [hrest] at hrel'
    refine ⟨s', (bind_of_ok rfl _).trans ((bind_of_ok hrun _).trans hloop), ?_⟩
    rw [List.flatMap_cons]
    refine hrel.append hrel' (List.cons_subset_cons _ (List.subset_append_left ..)) ?_
    exact List.cons_subset_cons _ (List.subset_append_right ..)

/-- In a bottom table without leaves the loop finds nothing to do. -/
theorem freewalkLoop_bottom (h : ∀ i ∈ is, has (ld64 s.mem (t + 8 * i)) PTE_V = false) :
    freewalkLoop (freewalk 0) t is s = .ok ((), s) := by
  induction is with
  | nil => rfl
  | cons i is ih =>
    rw [freewalkLoop, bind_of_ok rfl, h i (.head _)]
    exact ih fun j hj => h j (.tail _ hj)

/-- `freewalk` on a table without leaves frees each of its pages once. -/
theorem freewalk_released (h : Freeable s level t) : ∃ s', freewalk (level + 1) t s = .ok ((), s') ∧
      Released s s' (tables s.mem level t) (tables s.mem level t) := by
  induction level generalizing t s with
  | zero =>
    have hidle : freewalkLoop (freewalk 0) t (List.range 512) s = .ok ((), s) := by
      refine freewalkLoop_bottom fun i hi => ?_
      have hv := h.empty i
      have hslot : slot s.mem i 0 t = some (t + 8 * i) := by
        rw [slot, idx, pow_zero, Nat.div_one, Nat.mod_eq_of_lt (List.mem_range.1 hi)]
      rwa [leaf, hslot] at hv
    obtain ⟨hf, hone⟩ := h.frame t (mem_tables_self ..)
    obtain ⟨s', hk, hrel⟩ := kfree_released hf hone.le
    rw [freewalk, bind_of_ok hidle]
    exact ⟨s', hk, hrel⟩
  | succ level ih =>
    obtain ⟨s1, hloop, hrel⟩ := freewalkLoop_released (fun hc => ih hc) h.below
    obtain ⟨hf, hone⟩ := h.frame t (mem_tables_self ..)
    have hnd := h.nodup
    rw [tables_succ] at hnd ⊢
    have hone1 : s1.pgref (PGINDEX t) = 1 := by
      rw [hrel.ref_old, hone]
      intro g hg he
      have hgf := (h.frame g (by rw [tables_succ]; exact .tail _ hg)).1
      rw [PGINDEX_inj hgf.1 hf.1 he] at hg
      exact (List.nodup_cons.1 hnd).1 hg
    obtain ⟨s', hk, hrel'⟩ := kfree_released (by rw [hrel.kend]; exact hf) hone1.le
    rw [freewalk, bind_of_ok hloop]
    have happ := hrel.append hrel' (List.Subset.refl _) (List.cons_subset_cons t (List.nil_subset _))
    exact ⟨s', hk, happ.perm (List.perm_append_singleton t _)⟩

/-- `freewalk` of a table that the kernel holds, when it has no leaves. -/
theorem freewalk_spec {roots held : List Nat} (h : Ledger s roots (tables s.mem level t ++ held))
    (hplain : Plain s.mem level t) (hempty : ∀ v, has (leaf s.mem level t v) PTE_V = false) :
    ∃ s', freewalk (level + 1) t s = .ok ((), s') ∧ Ledger s' roots held ∧ Keeps s s' roots held ∧
      s'.exhausted = s.exhausted := by
  have hfree : Freeable s level t := by
    refine ⟨h.held_nodup, fun f hf => ?_, hplain, hempty⟩
    have hone := h.shape.held_one f (List.mem_append_left _ hf)
    have hff := h.frame (by rw [hone]; decide)
    exact ⟨hff, (h.counts.ref f hff).trans hone⟩
  obtain ⟨s', hr, hrel⟩ := freewalk_released hfree
  exact ⟨s', hr, h.released hrel⟩

end FreeWalk

end Xv6.Vm
