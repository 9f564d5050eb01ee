import Xv6.Vm.Teardown

/-!
# A page table as a map from page numbers

The three levels of a page table are built inside raw pages, as addresses are looked up with allocation.
Seen through `walk` the table is a map all the same: a page number has one slot, which stays where it is,
different page numbers have different slots, and building a level changes no entry. Of the allocator
nothing is asked but that it does not hand out pages of the table.
-/

set_option autoImplicit false

namespace Xv6.Vm

open Function Xv6.Base

/-- The pages of the table at `r` form a tree, and no free page is one of them. -/
structure TableTree (s : Kmem) (r : Nat) : Prop where
  nodup : (tables s.mem 2 r).Nodup
  aligned : r % PGSIZE = 0
  free_nodup : s.freelist.Nodup
  free : ∀ f ∈ s.freelist, f % PGSIZE = 0 ∧ f < 2 ^ 64 ∧ f ∉ tables s.mem 2 r

/-- From `s` to `s'` the table has kept its shape, and the slots it had are where they were. -/
structure Extended (s s' : Kmem) (r : Nat) : Prop where
  tree : TableTree s' r
  slots : ∀ v a, slot s.mem v 2 r = some a → slot s'.mem v 2 r = some a

variable {s s' : Kmem} {r : Nat}

theorem Extended.trans {s'' : Kmem} (h : Extended s s' r) (h' : Extended s' s'' r) : Extended s s'' r :=
  ⟨h'.tree, fun v a hs => h'.slots v a (h.slots v a hs)⟩

/-- `walk` with allocation: the entries stay as they are, whether or not there are pages enough. -/
theorem TableTree.walk {va : Nat} (h : TableTree s r) (hva : va < MAXVA) :
    ∃ o s', walk r va true s = .ok (o, s') ∧ Extended s s' r ∧ pte s'.mem r = pte s.mem r ∧
      (∀ a, o = some a → slot s'.mem (va / PGSIZE) 2 r = some a) ∧ (o = none → s.exhausted < s'.exhausted) := by
  obtain ⟨o, s', hw⟩ := walk_returns (r := r) (s := s) hva true
  have hloop := hw
  rw [Vm.walk, if_neg (by omega)] at hloop
  obtain ⟨new, hnew⟩ := walkLoop_true_spec hloop h.nodup h.aligned h.free_nodup h.free
  have hfl := h.free_nodup
  rw [hnew.free] at hfl
  obtain ⟨hnd, hnd', hdis⟩ := List.nodup_append.1 hfl
  have hfree : ∀ f ∈ new ++ s'.freelist, f % PGSIZE = 0 ∧ f < 2 ^ 64 ∧ f ∉ tables s.mem 2 r := by
    rw [← hnew.free]
    exact h.free
  refine ⟨o, s', hw, ⟨⟨?_, h.aligned, hnd', fun f hf => ?_⟩, hnew.slots⟩, ?_,
    fun a ha => (hnew.found a ha).1, hnew.failed⟩
  · refine hnew.tables_perm.nodup_iff.2 (List.nodup_append.2 ⟨hnd, h.nodup, fun f hf g hg he => ?_⟩)
    exact (hfree f (List.mem_append_left _ hf)).2.2 (he ▸ hg)
  · obtain ⟨hal, hlt, hno⟩ := hfree f (List.mem_append_right _ hf)
    refine ⟨hal, hlt, fun hmem => ?_⟩
    rcases List.mem_append.1 (hnew.tables_perm.mem_iff.1 hmem) with hin | hin
    · exact hdis f hin f hf rfl
    · exact hno hin
  · funext u
    unfold pte
    rw [hnew.leaf_eq u]

/-- A store to the slot of a page number changes that entry and no other. -/
theorem TableTree.store {v a : Nat} (h : TableTree s r) (hv : v < 512 ^ 3) (hs : slot s.mem v 2 r = some a)
    (w : Pte) : Extended s { s with mem := sd64 s.mem a w } r ∧
      pte (sd64 s.mem a w) r = update (pte s.mem r) v w := by
  refine ⟨⟨⟨?_, h.aligned, h.free_nodup, fun f hf => ?_⟩, fun u b hb => ?_⟩, funext fun u => ?_⟩
  · rw [tables_store h.nodup h.aligned hs]
    exact h.nodup
  · rw [tables_store h.nodup h.aligned hs]
    exact h.free f hf
  · rw [slot_store h.nodup h.aligned hs]
    exact hb
  · rw [update_apply, pte, pte, leaf_store h.nodup h.aligned hs]
    by_cases hu : u < 512 ^ 3
    · rw [if_pos hu, if_pos hu, Nat.mod_eq_of_lt hu, Nat.mod_eq_of_lt hv]
    · rw [if_neg hu, if_neg hu, if_neg (by omega)]

/-- One round of `mappages` at a page that is not mapped: a page for a table is missing, or the entry is
made. -/
theorem TableTree.mappagesRound {a : Nat} (h : TableTree s r) (hva : a < MAXVA)
    (hinv : has (pte s.mem r (a / PGSIZE)) PTE_V = false) (perm : Pte) (pa last : Nat) :
    ∃ s1, Extended s s1 r ∧ ((∀ n, mappagesLoop r perm last (n + 1) a pa s = .ok (-1, s1)) ∨
      pte s1.mem r = update (pte s.mem r) (a / PGSIZE) (newEntry pa perm) ∧
        ∀ n, mappagesLoop r perm last (n + 1) a pa s =
          if a = last then .ok (0, s1) else mappagesLoop r perm last n (a + PGSIZE) (pa + PGSIZE) s1) := by
  obtain ⟨o, s1, hw, hext, hp, hfound, -⟩ := h.walk hva
  cases o with
  | none =>
    refine ⟨s1, hext, .inl fun n => ?_⟩
    rw [mappagesLoop, bind_of_ok hw]
    rfl
  | some b =>
    have hslot := hfound b rfl
    obtain ⟨hext', hp'⟩ := hext.tree.store (MAXVA_pages hva) hslot (newEntry pa perm)
    refine ⟨_, hext.trans hext', .inr ⟨by rw [hp', hp], fun n => ?_⟩⟩
    rw [mappagesLoop, bind_of_ok hw]
    refine (bind_of_ok rfl _).trans ?_
    rw [slot_isSome_leaf (MAXVA_pages hva) hslot, hp, hinv, if_neg (by decide)]
    refine (bind_of_ok rfl _).trans ?_
    rw [ite_run]
    rfl

/-- The loop of `mappages` over `n + 1` pages that are not mapped. It ends by itself: more rounds would
change nothing. -/
theorem TableTree.mappages_ends {perm : Pte} {n a pa last : Nat} (h : TableTree s r)
    (hlast : last = a + n * PGSIZE) (hva : last < MAXVA)
    (hfree : ∀ u, a / PGSIZE ≤ u → u ≤ a / PGSIZE + n → has (pte s.mem r u) PTE_V = false) :
    ∃ ret s', (∀ k, mappagesLoop r perm last (n + k + 1) a pa s = .ok (ret, s')) ∧ Extended s s' r ∧
      (ret = -1 ∨ ret = 0 ∧ ∀ u, pte s'.mem r u =
        if a / PGSIZE ≤ u ∧ u ≤ a / PGSIZE + n then newEntry (pa + (u - a / PGSIZE) * PGSIZE) perm
        else pte s.mem r u) := by
  induction n generalizing a pa s with
  | zero =>
    obtain rfl : last = a := by omega
    obtain ⟨s1, hext, hfail | ⟨hp, hrun⟩⟩ :=
      h.mappagesRound hva (hfree _ (Nat.le_refl _) (Nat.le_refl _)) perm pa last
    · exact ⟨-1, s1, fun k => hfail _, hext, .inl rfl⟩
    · refine ⟨0, s1, fun k => (hrun _).trans (if_pos rfl), hext, .inr ⟨rfl, fun u => ?_⟩⟩
      rw [hp, update_apply]
      by_cases hu : u = last / PGSIZE
      · rw [if_pos hu, if_pos (by omega), hu, Nat.sub_self, Nat.zero_mul, Nat.add_zero]
      · rw [if_neg hu, if_neg (by omega)]
  | succ n ih =>
    have hnext := next_div a
    have hne : a < MAXVA ∧ a ≠ last := by
      unfold PGSIZE at hlast
      omega
    obtain ⟨s1, hext, hfail | ⟨hp, hrun⟩⟩ :=
      h.mappagesRound hne.1 (hfree _ (Nat.le_refl _) (Nat.le_add_right ..)) perm pa last
    · exact ⟨-1, s1, fun k => hfail _, hext, .inl rfl⟩
    -- the pages after this one are not mapped yet
    obtain ⟨ret, s', hrest, hext', hcase⟩ := @ih s1 _ (pa + PGSIZE) hext.tree
      (show last = a + PGSIZE + n * PGSIZE by rw [hlast]; ring) fun u hlo hhi => by
        rw [hp, update_of_ne (by omega)]
        exact hfree u (by omega) (by omega)
    refine ⟨ret, s', fun k => ?_, hext.trans hext', hcase.imp_right ?_⟩
    · rw [hrun, if_neg hne.2, Nat.add_right_comm]
      exact hrest k
    · rintro ⟨rfl, hmap⟩
      refine ⟨rfl, fun u => ?_⟩
      rw [hmap u, hnext, hp, update_apply]
      by_cases hu : u = a / PGSIZE
      · rw [if_neg (by omega), if_pos hu, if_pos (by omega), hu, Nat.sub_self, Nat.zero_mul, Nat.add_zero]
      · rw [if_neg hu]
        by_cases hin : a / PGSIZE + 1 ≤ u ∧ u ≤ a / PGSIZE + 1 + n
        · have e : u - a / PGSIZE = u - (a / PGSIZE + 1) + 1 := by omega
          rw [if_pos hin, if_pos (by omega), e, Nat.succ_mul, Nat.add_assoc pa, Nat.add_comm PGSIZE]
        · rw [if_neg hin, if_neg (by omega)]

/-- A table whose pages form a tree is a map from page numbers to entries. An allocating `walk` changes no
entry, and later lookups give the slot that it gave; different page numbers have different slots;
`mappages` on a range that is not mapped ends, and when it succeeds it has mapped the pages of the range
to consecutive pages and no other; `freewalk` of a table without leaves frees each page of it once. -/
theorem pageTable_is_map (h : TableTree s r) :
    (∀ va < MAXVA, ∃ o s', walk r va true s = .ok (o, s') ∧ Extended s s' r ∧
      pte s'.mem r = pte s.mem r ∧ (o = none → s.exhausted < s'.exhausted) ∧
      ∀ a, o = some a → ∀ t, Extended s' t r → walk r va false t = .ok (some a, t)) ∧
    (∀ va < MAXVA, ∀ va' < MAXVA, ∀ a, walk r va false s = .ok (some a, s) →
      walk r va' false s = .ok (some a, s) → va / PGSIZE = va' / PGSIZE) ∧
    (∀ va size pa perm, va % PGSIZE = 0 → size % PGSIZE = 0 → 0 < size → va + size ≤ MAXVA →
      (∀ i, 10 ≤ i → perm.getLsbD i = false) →
      (∀ u, va / PGSIZE ≤ u → u < (va + size) / PGSIZE → has (pte s.mem r u) PTE_V = false) →
      ∃ ret s', mappages r va size pa perm s = .ok (ret, s') ∧
        (∀ k, mappagesLoop r perm (va + size - PGSIZE) (size / PGSIZE + k) va pa s = .ok (ret, s')) ∧
        Extended s s' r ∧ (ret = 0 ∨ ret = -1) ∧
        (ret = 0 → ∀ u, if va / PGSIZE ≤ u ∧ u < (va + size) / PGSIZE then
            PTE2PA (pte s'.mem r u) = (pa + (u - va / PGSIZE) * PGSIZE) % 2 ^ 64 / PGSIZE * PGSIZE ∧
              PTE_FLAGS (pte s'.mem r u) = perm ||| PTE_V
          else pte s'.mem r u = pte s.mem r u)) ∧
    (Freeable s 2 r → ∃ s', freewalk 3 r s = .ok ((), s') ∧
      Released s s' (tables s.mem 2 r) (tables s.mem 2 r)) := by
  refine ⟨fun va hva => ?_, fun va hva va' hva' a hw hw' => ?_, ?_, freewalk_released⟩
  · obtain ⟨o, s', hw, hext, hp, hfound, hex⟩ := h.walk hva
    refine ⟨o, s', hw, hext, hp, hex, fun a ha t ht => ?_⟩
    rw [walk_false hva, ht.slots _ a (hfound a ha)]
  · rw [walk_false hva] at hw
    rw [walk_false hva'] at hw'
    have hmod := slot_inj h.nodup (ok_pair_inj hw).1.symm (ok_pair_inj hw').1.symm
    rwa [Nat.mod_eq_of_lt (MAXVA_pages hva), Nat.mod_eq_of_lt (MAXVA_pages hva')] at hmod
  · intro va size pa perm hal hsz hpos hle hperm hfree
    obtain ⟨n, rfl⟩ : ∃ n, size = (n + 1) * PGSIZE := by
      refine ⟨size / PGSIZE - 1, ?_⟩
      unfold PGSIZE at *
      omega
    have hmax : MAXVA = 2 ^ 38 := rfl
    have hend : va + (n + 1) * PGSIZE - PGSIZE = va + n * PGSIZE := by rw [Nat.succ_mul]; omega
    have hdiv : (n + 1) * PGSIZE / PGSIZE = n + 1 := Nat.mul_div_cancel _ (by decide)
    have hhi : (va + (n + 1) * PGSIZE) / PGSIZE = va / PGSIZE + n + 1 :=
      Nat.add_mul_div_right va (n + 1) (by decide)
    rw [hhi] at hfree ⊢
    obtain ⟨ret, s', hrun, hext, hcase⟩ := h.mappages_ends rfl
      (show va + n * PGSIZE < MAXVA by unfold PGSIZE at *; omega) fun u hlo hhi => hfree u hlo (by omega)
    refine ⟨ret, s', ?_, fun k => by rw [hend, hdiv, Nat.add_right_comm]; exact hrun k, hext, hcase.symm.imp_left And.left, ?_⟩
    · rw [mappages, if_neg (by omega), if_neg (by omega), if_neg (by omega), hend, hdiv,
        Nat.mod_eq_of_lt (by unfold PGSIZE at *; omega)]
      exact hrun 0
    · rintro rfl u
      obtain ⟨-, hmap⟩ := hcase.resolve_left (by decide)
      have hu := hmap u
      by_cases hin : va / PGSIZE ≤ u ∧ u < va / PGSIZE + n + 1
      · rw [if_pos (by omega)] at hu
        rw [if_pos hin, hu]
        exact ⟨PTE2PA_newEntry_page _ hperm, PTE_FLAGS_newEntry _ hperm⟩
      · rw [if_neg (by omega)] at hu
        rw [if_neg hin, hu]

/-- A machine with one empty table and one free page. -/
def oneTable : Kmem := ⟨KERNBASE, fun _ => 0, fun i => if i = PGINDEX KERNBASE then 1 else 0,
  [KERNBASE + PGSIZE], 0⟩

theorem oneTable_blank : Blank oneTable.mem KERNBASE := fun i _ => by
  show ld64 (fun _ => 0) (KERNBASE + 8 * i) = 0#64
  simp [ld64, loadLE]

/-- In that machine a page is mapped, and the table is freed. -/
theorem pageTable_is_map_oneTable : TableTree oneTable KERNBASE ∧
    (∃ s', freewalk 3 KERNBASE oneTable = .ok ((), s') ∧ Released oneTable s' [KERNBASE] [KERNBASE]) := by
  have htabs : tables oneTable.mem 2 KERNBASE = [KERNBASE] := tables_blank oneTable_blank 2
  have htree : TableTree oneTable KERNBASE := by
    refine ⟨by rw [htabs]; exact List.nodup_singleton _, by decide, List.nodup_singleton _, fun f hf => ?_⟩
    rw [htabs, List.mem_singleton.1 hf]
    decide
  refine ⟨htree, ?_⟩
  have hfree := (pageTable_is_map htree).2.2.2
  rw [htabs] at hfree
  refine hfree ⟨by rw [htabs]; exact List.nodup_singleton _, fun f hf => ?_, oneTable_blank.plain 2, fun v => ?_⟩
  · rw [htabs] at hf
    rw [List.mem_singleton.1 hf]
    exact ⟨⟨by decide, Nat.le_refl _, by decide⟩, by simp [oneTable]⟩
  · rw [leaf_blank oneTable_blank]
    exact has_zero _

end Xv6.Vm
