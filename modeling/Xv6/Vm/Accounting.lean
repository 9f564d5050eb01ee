import Mathlib.Data.Set.Card
import Xv6.Base.Param
import Xv6.Vm.Walk

/-!
# Reference counts against owners

A page of physical memory has owners: entries of the user area of page tables that map it, and the
kernel, which holds it as a page of a table or for a purpose of its own. `Acct` says that the
allocator's counts and free list are exactly the owners: the count of every page is the number of its
owners, the free pages are those without owners, a page that the kernel holds has no other owner, and
a page that some table lets a process write has one owner.

The lemmas here are about owners and counts alone; a page table enters them as the list of its own
pages and the function from page numbers to entries.
-/

set_option autoImplicit false

namespace Xv6.Vm

open Function Xv6.Base

/-- Number of pages of the user area, which ends below the trapframe. -/
def UPAGES : Nat := TRAPFRAME / PGSIZE

/-- A whole page that the allocator manages. -/
def IsFrame (kend f : Nat) : Prop := f % PGSIZE = 0 ∧ kend ≤ f ∧ f < PHYSTOP

/-- A page table for the accounting: its own pages, and its entries by page number. -/
structure PT where
  tabs : List Nat
  leaf : Nat → Pte

/-- The entry for page number `v` in the page table at `r`. -/
def pte (m : Mem) (r v : Nat) : Pte := if v < 512 ^ 3 then leaf m 2 r v else 0#64

/-- The page table at `r`. -/
def view (m : Mem) (r : Nat) : PT := ⟨tables m 2 r, pte m r⟩

/-- The entry is valid and points to `f`. -/
def maps (w : Pte) (f : Nat) : Bool := has w PTE_V && PTE2PA w == f

/-- Weight of an entry among the owners of `f`. -/
def mapWeight (f : Nat) (w : Pte) : Nat := if maps w f then 1 else 0

/-- The page numbers of the user area whose entries map `f`. -/
def mapping (L : Nat → Pte) (f : Nat) : Set Nat := {v | v < UPAGES ∧ maps (L v) f = true}

/-- How many entries of the user area map `f`. -/
noncomputable def leafCount (L : Nat → Pte) (f : Nat) : Nat := (mapping L f).ncard

/-- How often a page table owns `f`. -/
noncomputable def PT.owns (T : PT) (f : Nat) : Nat := T.tabs.count f + leafCount T.leaf f

/-- Number of owners of `f`. -/
noncomputable def owners (pts : List PT) (held : List Nat) (f : Nat) : Nat :=
  held.count f + (pts.map fun T => T.owns f).sum

variable {f : Nat} {w : Pte}

theorem maps_iff : maps w f = true ↔ has w PTE_V = true ∧ PTE2PA w = f := by
  simp [maps]

theorem maps_zero (f : Nat) : maps 0#64 f = false := by
  simp [maps, has_zero]

/-! ## Counting entries -/

theorem mapping_finite (L : Nat → Pte) (f : Nat) : (mapping L f).Finite :=
  (Set.finite_lt_nat UPAGES).subset fun _ hv => hv.1

variable {v : Nat} {L : Nat → Pte}

theorem mapWeight_of_mem (h : v ∈ mapping L f) : mapWeight f (L v) = 1 := by
  rw [mapWeight, if_pos h.2]

/-- The entries other than the one for `v`, counted without it. -/
theorem ncard_mapping (L : Nat → Pte) (hv : v < UPAGES) (f : Nat) :
    (mapping L f \ {v}).ncard + mapWeight f (L v) = leafCount L f := by
  by_cases hm : v ∈ mapping L f
  · rw [mapWeight_of_mem hm]
    exact Set.ncard_sdiff_singleton_add_one hm (mapping_finite L f)
  · have hw : mapWeight f (L v) = 0 := if_neg fun hc => hm ⟨hv, hc⟩
    rw [hw, Set.sdiff_singleton_eq_self hm]
    rfl

theorem leafCount_update (L : Nat → Pte) (hv : v < UPAGES) (w : Pte) (f : Nat) :
    leafCount (update L v w) f + mapWeight f (L v) = leafCount L f + mapWeight f w := by
  have h1 := ncard_mapping L hv f
  have h2 := ncard_mapping (update L v w) hv f
  have hsame : mapping (update L v w) f \ {v} = mapping L f \ {v} := by
    ext u
    simp only [Set.mem_sdiff, Set.mem_singleton_iff, mapping, Set.mem_ofPred_eq]
    refine and_congr_left fun hne => ?_
    rw [update_of_ne hne]
  rw [hsame, update_self] at h2
  omega

theorem leafCount_update_of_le (L : Nat → Pte) (hv : UPAGES ≤ v) (w : Pte) (f : Nat) :
    leafCount (update L v w) f = leafCount L f := by
  unfold leafCount
  congr 1
  ext u
  refine and_congr_right fun hu => ?_
  rw [update_of_ne (by omega)]

theorem leafCount_pos_iff : 0 < leafCount L f ↔ ∃ v < UPAGES, maps (L v) f = true :=
  Set.ncard_pos (mapping_finite L f)

theorem leafCount_zero (f : Nat) : leafCount (fun _ => 0#64) f = 0 := by
  by_contra hne
  obtain ⟨v, -, hm⟩ := leafCount_pos_iff.1 (Nat.pos_of_ne_zero hne)
  rw [maps_zero] at hm
  cases hm

/-- Where at most one entry maps `f`, two entries that do are the same. -/
theorem eq_of_leafCount_le_one {v' : Nat} (h : leafCount L f ≤ 1)
    (hv : v < UPAGES) (hv' : v' < UPAGES) (hm : maps (L v) f = true) (hm' : maps (L v') f = true) : v = v' := by
  by_contra hne
  have hc := leafCount_update L hv 0#64 f
  have hpos : 0 < leafCount (update L v 0#64) f := by
    refine leafCount_pos_iff.2 ⟨v', hv', ?_⟩
    rw [update_of_ne (fun he => hne he.symm)]
    exact hm'
  have hw : mapWeight f (L v) = 1 := by rw [mapWeight, if_pos hm]
  have hz : mapWeight f 0#64 = 0 := by
    rw [mapWeight, maps_zero]
    rfl
  omega

/-! ## Owners -/

theorem owners_cons (T : PT) (pts : List PT) (held : List Nat) (f : Nat) :
    owners (T :: pts) held f = T.owns f + owners pts held f := by
  unfold owners
  rw [List.map_cons, List.sum_cons]
  omega

theorem owners_held_cons (pts : List PT) (p : Nat) (held : List Nat) (f : Nat) :
    owners pts (p :: held) f = owners pts held f + if f = p then 1 else 0 := by
  unfold owners
  rw [List.count_cons]
  by_cases h : f = p
  · subst h
    simp
    omega
  · have h' : ¬ p = f := fun he => h he.symm
    simp [h, h']

theorem owners_held_append (pts : List PT) (new held : List Nat) (f : Nat) :
    owners pts (new ++ held) f = new.count f + owners pts held f := by
  unfold owners
  rw [List.count_append]
  omega

variable {held held' : List Nat} {pts : List PT}

theorem owners_perm {pts' : List PT} (hp : pts.Perm pts')
    (hh : held.Perm held') (f : Nat) : owners pts held f = owners pts' held' f := by
  unfold owners
  rw [hh.count_eq f, (hp.map _).sum_eq]

variable {T : PT}

theorem owns_le_owners (hT : T ∈ pts) (held : List Nat) (f : Nat) : T.owns f ≤ owners pts held f := by
  have h : T.owns f ≤ (pts.map fun T => T.owns f).sum :=
    List.single_le_sum (fun _ _ => Nat.zero_le _) _ (List.mem_map_of_mem hT)
  unfold owners
  omega

theorem owners_pos_of_held (h : f ∈ held) : 0 < owners pts held f := by
  have := List.count_pos_iff.2 h
  unfold owners
  omega

theorem owners_pos_of_tab (hT : T ∈ pts) (h : f ∈ T.tabs) : 0 < owners pts held f := by
  have h1 := owns_le_owners hT held f
  have h2 := List.count_pos_iff.2 h
  unfold PT.owns at h1
  omega

theorem owners_pos_of_maps (hT : T ∈ pts) (hv : v < UPAGES) (h : maps (T.leaf v) f = true) : 0 < owners pts held f := by
  have h1 := owns_le_owners hT held f
  have h2 := leafCount_pos_iff.2 ⟨v, hv, h⟩
  unfold PT.owns at h1
  omega

/-! ## Counts and free list -/

/-- The allocator agrees with the number of owners `own` of each page. The counts below the first
page of RAM stay zero: `CowHandler` reads there. -/
structure Counts (s : Kmem) (own : Nat → Nat) : Prop where
  kend_le : KERNBASE ≤ s.kend
  ref : ∀ f, IsFrame s.kend f → s.pgref (PGINDEX f) = own f
  rest : ∀ i, (∀ f, IsFrame s.kend f → PGINDEX f ≠ i) → s.pgref i = 0
  free : ∀ f, f ∈ s.freelist ↔ IsFrame s.kend f ∧ own f = 0
  nodup : s.freelist.Nodup
  frame : ∀ f, 0 < own f → IsFrame s.kend f

theorem PGINDEX_ne_low {kend i : Nat} (hk : KERNBASE ≤ kend) (hf : IsFrame kend f)
    (hi : i < PGINDEX KERNBASE) : PGINDEX f ≠ i := by
  have h1 : KERNBASE ≤ f := hk.trans hf.2.1
  have h2 : PGINDEX KERNBASE ≤ PGINDEX f := Nat.div_le_div_right h1
  omega

variable {s : Kmem} {own : Nat → Nat}

/-- The entries below those of the pages that are counted are not used. -/
theorem Counts.low (h : Counts s own) {i : Nat} (hi : i < PGINDEX KERNBASE) :
    s.pgref i = 0 := h.rest i fun _ hf => PGINDEX_ne_low h.kend_le hf hi

variable {s' : Kmem}

theorem Counts.congr {own' : Nat → Nat} (h : Counts s own)
    (hk : s'.kend = s.kend) (hr : s'.pgref = s.pgref) (hf : s'.freelist = s.freelist)
    (ho : ∀ f, own' f = own f) : Counts s' own' := by
  obtain rfl : own' = own := funext ho
  refine ⟨?_, ?_, ?_, ?_, ?_, ?_⟩
  · rw [hk]; exact h.kend_le
  · rw [hk, hr]; exact h.ref
  · rw [hk, hr]; exact h.rest
  · rw [hk, hf]; exact h.free
  · rw [hf]; exact h.nodup
  · rw [hk]; exact h.frame

/-- The counts of the pages `ps` change, and which of them are free. -/
theorem Counts.recount {own' : Nat → Nat} {ps : List Nat} (h : Counts s own) (hk : s'.kend = s.kend)
    (hframe : ∀ f ∈ ps, IsFrame s.kend f) (hnew : ∀ f ∈ ps, s'.pgref (PGINDEX f) = own' f)
    (hold : ∀ i, (∀ f ∈ ps, PGINDEX f ≠ i) → s'.pgref i = s.pgref i) (hown : ∀ f ∉ ps, own' f = own f)
    (hin : ∀ f ∈ ps, f ∈ s'.freelist ↔ own' f = 0) (hout : ∀ f ∉ ps, f ∈ s'.freelist ↔ f ∈ s.freelist)
    (hnodup : s'.freelist.Nodup) : Counts s' own' := by
  refine ⟨hk ▸ h.kend_le, fun f hf => ?_, fun i hi => ?_, fun f => ?_, hnodup, fun f hf => ?_⟩
  · rw [hk] at hf
    by_cases hfp : f ∈ ps
    · exact hnew f hfp
    · rw [hold _ fun g hg he => hfp (PGINDEX_inj (hframe g hg).1 hf.1 he ▸ hg), hown f hfp]
      exact h.ref f hf
  · rw [hk] at hi
    rw [hold i fun f hf => hi f (hframe f hf)]
    exact h.rest i hi
  · rw [hk]
    by_cases hfp : f ∈ ps
    · rw [hin f hfp]
      exact (and_iff_right (hframe f hfp)).symm
    · rw [hout f hfp, hown f hfp]
      exact h.free f
  · rw [hk]
    by_cases hfp : f ∈ ps
    · exact hframe f hfp
    · rw [hown f hfp] at hf
      exact h.frame f hf

/-- Pages taken from the free list have one owner. -/
theorem Counts.take {s s' : Kmem} {own : Nat → Nat} (h : Counts s own) {new : List Nat}
    (hfl : s.freelist = new ++ s'.freelist) (hk : s'.kend = s.kend) (hnew : ∀ f ∈ new, s'.pgref (PGINDEX f) = 1)
    (hold : ∀ i, (∀ f ∈ new, PGINDEX f ≠ i) → s'.pgref i = s.pgref i) : Counts s' fun f => new.count f + own f := by
  have hnd := h.nodup
  rw [hfl] at hnd
  obtain ⟨hn1, hn2, hdis⟩ := List.nodup_append.1 hnd
  have hfree : ∀ f ∈ new, IsFrame s.kend f ∧ own f = 0 := fun f hf =>
    (h.free f).1 (hfl ▸ List.mem_append_left _ hf)
  refine h.recount hk (fun f hf => (hfree f hf).1) (fun f hf => ?_) hold (fun f hf => ?_) (fun f hf => ?_)
    (fun f hf => ?_) hn2
  · rw [hnew f hf, (hfree f hf).2, List.count_eq_one_of_mem hn1 hf]
  · rw [List.count_eq_zero.2 hf, Nat.zero_add]
  · have := List.count_pos_iff.2 hf
    exact ⟨fun hin => absurd rfl (hdis f hf f hin), by omega⟩
  · rw [hfl, List.mem_append, or_iff_right hf]

variable {p : Nat}

/-- What `kfree` does when it returns. -/
theorem kfree_cases (h : kfree p s = .ok ((), s')) : (1 < s.pgref (PGINDEX p) ∧ s' = { s with
        pgref := update s.pgref (PGINDEX p) (s.pgref (PGINDEX p) - 1) }) ∨
      (s.pgref (PGINDEX p) ≤ 1 ∧ s' = { s with
        pgref := update s.pgref (PGINDEX p) 0
        mem := fill s.mem p PGSIZE 1
        freelist := p :: s.freelist }) := by
  unfold kfree at h
  split_ifs at h with h1 h2
  · cases h
    exact .inl ⟨h2, rfl⟩
  · cases h
    exact .inr ⟨by omega, rfl⟩

theorem kfree_kend (h : kfree p s = .ok ((), s')) : s'.kend = s.kend := by
  rcases kfree_cases h with ⟨-, rfl⟩ | ⟨-, rfl⟩
  · rfl
  · rfl

/-- From `s` to `s'` the pages `ps` have become free, and pages outside `touched` are as before. -/
structure Released (s s' : Kmem) (ps touched : List Nat) : Prop where
  free : s'.freelist.Perm (ps ++ s.freelist)
  ref_new : ∀ f ∈ ps, s'.pgref (PGINDEX f) = 0
  ref_old : ∀ i, (∀ f ∈ ps, PGINDEX f ≠ i) → s'.pgref i = s.pgref i
  kend : s'.kend = s.kend
  exhausted : s'.exhausted = s.exhausted
  same : ∀ f, f % PGSIZE = 0 → f ∉ touched → PageEq s.mem s'.mem f

variable {ps : List Nat}

theorem Released.append {s1 : Kmem} {qs ts us vs : List Nat} (h : Released s s1 ps ts)
    (h' : Released s1 s' qs us) (hts : ts ⊆ vs) (hus : us ⊆ vs) : Released s s' (ps ++ qs) vs where
  free := by
    refine h'.free.trans ((h.free.append_left qs).trans ?_)
    rw [← List.append_assoc]
    exact List.perm_append_comm.append_right _
  ref_new := by
    intro f hf
    by_cases hq : ∃ g ∈ qs, PGINDEX g = PGINDEX f
    · obtain ⟨g, hg, he⟩ := hq
      rw [← he]
      exact h'.ref_new g hg
    · rw [h'.ref_old _ fun g hg he => hq ⟨g, hg, he⟩]
      rcases List.mem_append.1 hf with hf | hf
      · exact h.ref_new f hf
      · exact absurd ⟨f, hf, rfl⟩ hq
  ref_old := fun i hi => (h'.ref_old i fun f hf => hi f (List.mem_append_right _ hf)).trans
    (h.ref_old i fun f hf => hi f (List.mem_append_left _ hf))
  kend := h'.kend.trans h.kend
  exhausted := h'.exhausted.trans h.exhausted
  same := fun f hf hno =>
    (h.same f hf fun hmem => hno (hts hmem)).trans (h'.same f hf fun hmem => hno (hus hmem))

theorem Released.perm {qs ts : List Nat} (h : Released s s' ps ts) (hp : ps.Perm qs) : Released s s' qs ts :=
  { h with
    free := h.free.trans (hp.append_right _)
    ref_new := fun f hf => h.ref_new f (hp.mem_iff.2 hf)
    ref_old := fun i hi => h.ref_old i fun f hf => hi f (hp.mem_iff.1 hf) }

/-- `kfree` of a page with one owner. -/
theorem kfree_released (hp : IsFrame s.kend p) (hone : s.pgref (PGINDEX p) ≤ 1) :
    ∃ s', kfree p s = .ok ((), s') ∧ Released s s' [p] [p] := by
  obtain ⟨hal, hlo, hhi⟩ := hp
  refine ⟨_, by rw [kfree, if_neg (by omega), if_neg (by omega)], ?_⟩
  refine ⟨.refl _, fun f hf => ?_, fun i hi => ?_, rfl, rfl, fun f hf hno => ?_⟩
  · rw [List.mem_singleton.1 hf]
    exact update_self ..
  · exact update_of_ne (hi p (List.mem_singleton.2 rfl)).symm _ _
  · exact pageEq_fill s.mem 1 hal hf fun he => hno (List.mem_singleton.2 he)

/-- Pages that are released lose their only owner. -/
theorem Counts.released (h : Counts s own) (hr : Released s s' ps ps) (hnd : ps.Nodup) (hone : ∀ f ∈ ps, own f = 1) :
    Counts s' fun f => own f - ps.count f := by
  have hframe : ∀ f ∈ ps, IsFrame s.kend f := fun f hf => h.frame f (by rw [hone f hf]; decide)
  have hfree : ∀ f ∈ ps, own f - ps.count f = 0 := fun f hf => by
    rw [hone f hf, List.count_eq_one_of_mem hnd hf]
  refine h.recount hr.kend hframe (fun f hf => ?_) hr.ref_old (fun f hf => ?_) (fun f hf => ?_) (fun f hf => ?_) ?_
  · rw [hr.ref_new f hf, hfree f hf]
  · rw [List.count_eq_zero.2 hf, Nat.sub_zero]
  · exact iff_of_true (hr.free.mem_iff.2 (List.mem_append_left _ hf)) (hfree f hf)
  · rw [hr.free.mem_iff, List.mem_append, or_iff_right hf]
  · refine hr.free.nodup_iff.2 (List.nodup_append.2 ⟨hnd, h.nodup, fun f hf g hg he => ?_⟩)
    have := ((h.free g).1 hg).2
    rw [← he, hone f hf] at this
    cases this

/-- The count of one page changes, and the page is not free. -/
theorem Counts.set (h : Counts s own) {n : Nat} (hp : 0 < own p) (hn : 0 < n) :
    Counts { s with pgref := update s.pgref (PGINDEX p) n } (update own p n) := by
  have hframe : ∀ f ∈ [p], IsFrame s.kend f := by simpa using h.frame p hp
  have hused : p ∉ s.freelist := fun hin => hp.ne' ((h.free p).1 hin).2
  refine h.recount rfl hframe ?_ ?_ ?_ ?_ (fun _ _ => .rfl) h.nodup
  · simp
  · exact fun i hi => update_of_ne (hi p (.head _)).symm ..
  · simp +contextual
  · simpa [hused] using hn.ne'

/-- `kfree` takes one owner away. -/
theorem Counts.drop (h : Counts s own) {p : Nat} (hp : 0 < own p)
    (hk : kfree p s = .ok ((), s')) : Counts s' fun f => own f - if f = p then 1 else 0 := by
  have hpf := h.frame p hp
  have href := h.ref p hpf
  rcases kfree_cases hk with ⟨hgt, rfl⟩ | ⟨hle, -⟩
  · refine (h.set hp (n := s.pgref (PGINDEX p) - 1) (by omega)).congr rfl rfl rfl fun f => ?_
    by_cases e : f = p <;> simp [e, href]
  · obtain ⟨u, hu, hr⟩ := kfree_released hpf hle
    cases hu.symm.trans hk
    refine (h.released hr (List.nodup_singleton p) (by simp; omega)).congr rfl rfl rfl fun f => ?_
    simp [List.count_singleton, @eq_comm _ p]

/-- `incref` adds one owner. -/
theorem Counts.add (h : Counts s own) {p : Nat} (hp : 0 < own p)
    (hlt : own p + 1 < 2 ^ 32) (hi : incref p s = .ok ((), s')) :
    Counts s' fun f => own f + if f = p then 1 else 0 := by
  cases hi
  rw [h.ref p (h.frame p hp), Nat.mod_eq_of_lt hlt]
  refine (h.set hp (Nat.succ_pos (own p))).congr rfl rfl rfl fun f => ?_
  by_cases e : f = p <;> simp [e]

/-! ## Who may own a page together -/

/-- What holds of a valid entry of the user area, for the number of owners `own` of each page. -/
structure EntryOk (own : Nat → Nat) (w : Pte) : Prop where
  high : ∀ i, 62 ≤ i → w.getLsbD i = false
  alone : has w PTE_W = true → own (PTE2PA w) = 1
  not_both : ¬ (has w PTE_W = true ∧ has w PTE_COW = true)

/-- Pages that the kernel holds have one owner, a table maps a page at most once, and writable
entries map pages with one owner. -/
structure Shape (pts : List PT) (held : List Nat) : Prop where
  held_one : ∀ f ∈ held, owners pts held f = 1
  tab_one : ∀ T ∈ pts, ∀ f ∈ T.tabs, owners pts held f = 1
  leaf_le : ∀ T ∈ pts, ∀ f, leafCount T.leaf f ≤ 1
  entry : ∀ T ∈ pts, ∀ v < UPAGES, has (T.leaf v) PTE_V = true →
    EntryOk (owners pts held) (T.leaf v)

theorem EntryOk.congr {own' : Nat → Nat} {w : Pte} (h : EntryOk own w)
    (ho : own' (PTE2PA w) = own (PTE2PA w)) : EntryOk own' w :=
  ⟨h.high, fun hw => ho.trans (h.alone hw), h.not_both⟩

theorem maps_self (h : has w PTE_V = true) : maps w (PTE2PA w) = true :=
  maps_iff.2 ⟨h, rfl⟩

/-- Another count of the owners that agrees on the pages that have owners. -/
theorem Shape.recount (h : Shape pts held) (hsub : ∀ f ∈ held', owners pts held' f = 1)
    (heq : ∀ f, (∃ T ∈ pts, 0 < T.owns f) → owners pts held' f = owners pts held f) : Shape pts held' := by
  refine ⟨hsub, ?_, h.leaf_le, ?_⟩
  · intro T hT f hf
    rw [heq f ⟨T, hT, ?_⟩]
    · exact h.tab_one T hT f hf
    · have := List.count_pos_iff.2 hf
      unfold PT.owns
      omega
  · intro T hT v hv hval
    refine (h.entry T hT v hv hval).congr (heq _ ⟨T, hT, ?_⟩)
    have := leafCount_pos_iff.2 ⟨v, hv, maps_self hval⟩
    unfold PT.owns
    omega

theorem owners_pos_of_owns (hT : T ∈ pts) (h : 0 < T.owns f) (held : List Nat) : 0 < owners pts held f :=
  Nat.lt_of_lt_of_le h (owns_le_owners hT held f)

/-- The kernel takes pages that have no owner. -/
theorem Shape.hold {pts : List PT} {held new : List Nat} (h : Shape pts held)
    (hnd : new.Nodup) (hnew : ∀ f ∈ new, owners pts held f = 0) : Shape pts (new ++ held) := by
  have hne : ∀ f, 0 < owners pts held f → new.count f = 0 := by
    intro f hf
    refine List.count_eq_zero.2 fun hn => ?_
    have := hnew f hn
    omega
  refine h.recount ?_ ?_
  · intro f hf
    rw [owners_held_append]
    rcases List.mem_append.1 hf with hf | hf
    · rw [List.count_eq_one_of_mem hnd hf, hnew f hf]
    · rw [hne f (owners_pos_of_held hf), h.held_one f hf]
  · rintro f ⟨T, hT, hpos⟩
    rw [owners_held_append, hne f (owners_pos_of_owns hT hpos held), Nat.zero_add]

/-- The kernel gives up a page it holds. -/
theorem Shape.release (h : Shape pts (p :: held)) : Shape pts held := by
  have hp := h.held_one p (.head _)
  rw [owners_held_cons, if_pos rfl] at hp
  have hne : ∀ f, 0 < owners pts held f → f ≠ p := by
    rintro f hf rfl
    omega
  refine h.recount ?_ ?_
  · intro f hf
    have h1 := h.held_one f (.tail _ hf)
    rw [owners_held_cons, if_neg (hne f (owners_pos_of_held hf))] at h1
    exact h1
  · rintro f ⟨T, hT, hpos⟩
    rw [owners_held_cons, if_neg (hne f (owners_pos_of_owns hT hpos held)), Nat.add_zero]

theorem Shape.drop (h : Shape pts (ps ++ held)) : Shape pts held := by
  induction ps with
  | nil => exact h
  | cons p ps ih => exact ih h.release

theorem Shape.perm {pts' : List PT} (h : Shape pts held)
    (hp : pts.Perm pts') (hh : held.Perm held') : Shape pts' held' := by
  have ho : ∀ f, owners pts' held' f = owners pts held f := fun f => (owners_perm hp hh f).symm
  refine ⟨?_, ?_, ?_, ?_⟩
  · intro f hf
    rw [ho]
    exact h.held_one f (hh.mem_iff.2 hf)
  · intro T hT f hf
    rw [ho]
    exact h.tab_one T (hp.mem_iff.2 hT) f hf
  · intro T hT
    exact h.leaf_le T (hp.mem_iff.2 hT)
  · intro T hT v hv hval
    exact (h.entry T (hp.mem_iff.2 hT) v hv hval).congr (ho _)

section Head

variable {t : List Nat} {L : Nat → Pte} {pts : List PT} {held : List Nat}

theorem owners_attach {tabs new : List Nat} (hp : tabs.Perm (new ++ t)) (f : Nat) :
    owners (⟨tabs, L⟩ :: pts) held f = owners (⟨t, L⟩ :: pts) (new ++ held) f := by
  rw [owners_cons, owners_cons, owners_held_append]
  simp only [PT.owns, hp.count_eq, List.count_append]
  omega

/-- Pages that the kernel holds become pages of the first table. -/
theorem Shape.attach {tabs new : List Nat} (h : Shape (⟨t, L⟩ :: pts) (new ++ held))
    (hp : tabs.Perm (new ++ t)) : Shape (⟨tabs, L⟩ :: pts) held := by
  have ho : ∀ f, owners (⟨tabs, L⟩ :: pts) held f = owners (⟨t, L⟩ :: pts) (new ++ held) f :=
    owners_attach hp
  refine ⟨?_, ?_, ?_, ?_⟩
  · intro f hf
    rw [ho]
    exact h.held_one f (List.mem_append_right _ hf)
  · intro T hT f hf
    rw [ho]
    rcases List.mem_cons.1 hT with rfl | hT
    · rcases List.mem_append.1 (hp.mem_iff.1 hf) with hn | ht
      · exact h.held_one f (List.mem_append_left _ hn)
      · exact h.tab_one _ (.head _) f ht
    · exact h.tab_one T (.tail _ hT) f hf
  · intro T hT
    rcases List.mem_cons.1 hT with rfl | hT
    · exact h.leaf_le ⟨t, L⟩ (.head _)
    · exact h.leaf_le T (.tail _ hT)
  · intro T hT v hv hval
    rcases List.mem_cons.1 hT with rfl | hT
    · exact (h.entry ⟨t, L⟩ (.head _) v hv hval).congr (ho _)
    · exact (h.entry T (.tail _ hT) v hv hval).congr (ho _)

theorem owners_detach (hL : ∀ f, leafCount L f = 0) (f : Nat) :
    owners pts (t ++ held) f = owners (⟨t, L⟩ :: pts) held f := by
  rw [owners_cons, owners_held_append]
  unfold PT.owns
  rw [hL f, Nat.add_zero]

/-- The pages of a table without entries in the user area, as pages that the kernel holds. -/
theorem Shape.detach (h : Shape (⟨t, L⟩ :: pts) held) (hL : ∀ f, leafCount L f = 0) : Shape pts (t ++ held) := by
  have ho : ∀ f, owners pts (t ++ held) f = owners (⟨t, L⟩ :: pts) held f := owners_detach hL
  refine ⟨?_, ?_, ?_, ?_⟩
  · intro f hf
    rw [ho]
    rcases List.mem_append.1 hf with hf | hf
    · exact h.tab_one _ (.head _) f hf
    · exact h.held_one f hf
  · intro T hT f hf
    rw [ho]
    exact h.tab_one T (.tail _ hT) f hf
  · intro T hT
    exact h.leaf_le T (.tail _ hT)
  · intro T hT v hv hval
    exact (h.entry T (.tail _ hT) v hv hval).congr (ho _)

/-- A new table: the kernel's page becomes its root. -/
theorem Shape.newRoot (h : Shape pts (p :: held)) : Shape (⟨[p], fun _ => 0#64⟩ :: pts) held := by
  have ho : ∀ f, owners (⟨[p], fun _ => 0#64⟩ :: pts) held f = owners pts (p :: held) f :=
    fun f => (owners_detach leafCount_zero f).symm
  refine ⟨?_, ?_, ?_, ?_⟩
  · intro f hf
    rw [ho]
    exact h.held_one f (.tail _ hf)
  · intro T hT f hf
    rw [ho]
    rcases List.mem_cons.1 hT with rfl | hT
    · cases List.mem_singleton.1 hf
      exact h.held_one p (.head _)
    · exact h.tab_one T hT f hf
  · intro T hT f
    rcases List.mem_cons.1 hT with rfl | hT
    · show leafCount (fun _ => 0#64) f ≤ 1
      rw [leafCount_zero]
      exact Nat.zero_le 1
    · exact h.leaf_le T hT f
  · intro T hT v hv hval
    rcases List.mem_cons.1 hT with rfl | hT
    · exact absurd hval (by simp [has_zero])
    · exact (h.entry T hT v hv hval).congr (ho _)

/-! ### Changing one entry -/

variable (t L pts held) in
theorem owners_setEntry (hv : v < UPAGES) (w : Pte) (f : Nat) :
    owners (⟨t, update L v w⟩ :: pts) held f + mapWeight f (L v) = owners (⟨t, L⟩ :: pts) held f + mapWeight f w := by
  have h := leafCount_update L hv w f
  rw [owners_cons, owners_cons]
  simp only [PT.owns]
  omega

variable (t L pts held) in
theorem owners_setEntry_of_le (hv : UPAGES ≤ v) (w : Pte) (f : Nat) :
    owners (⟨t, update L v w⟩ :: pts) held f = owners (⟨t, L⟩ :: pts) held f := by
  rw [owners_cons, owners_cons]
  simp only [PT.owns, leafCount_update_of_le L hv]

theorem mapWeight_invalid (h : has w PTE_V = false) (f : Nat) : mapWeight f w = 0 := by
  simp [mapWeight, maps, h]

theorem mapWeight_valid (h : has w PTE_V = true) (f : Nat) : mapWeight f w = if f = PTE2PA w then 1 else 0 := by
  unfold mapWeight maps
  rw [h, Bool.true_and]
  by_cases hf : f = PTE2PA w
  · simp [hf]
  · have hf' : ¬ PTE2PA w = f := fun he => hf he.symm
    simp [hf, hf']

section

variable (h : Shape (⟨t, L⟩ :: pts) held)
include h

/-- The page of an entry of the first table has no second owner that must be alone. -/
theorem Shape.not_held_of_maps (hv : v < UPAGES) (hm : maps (L v) f = true) :
    f ∉ held ∧ ∀ T ∈ (⟨t, L⟩ :: pts : List PT), f ∉ T.tabs := by
  have hleaf := leafCount_pos_iff.2 ⟨v, hv, hm⟩
  have hown := owners_cons ⟨t, L⟩ pts held f
  simp only [PT.owns] at hown
  constructor
  · intro hf
    have h1 := h.held_one f hf
    have h2 : 0 < owners pts held f := owners_pos_of_held hf
    omega
  · intro T hT hf
    have h1 := h.tab_one T hT f hf
    rcases List.mem_cons.1 hT with rfl | hT
    · have hcount : 0 < t.count f := List.count_pos_iff.2 hf
      omega
    · have h2 : 0 < owners pts held f := owners_pos_of_tab hT hf
      omega

/-- Another entry, of this or another table, that lets its page be written maps another page. -/
theorem Shape.ne_of_writable (hv : v < UPAGES)
    (hm : maps (L v) f = true) {x : Pte} (hx : has x PTE_V = true) (hxw : has x PTE_W = true)
    (hother : (∃ T ∈ pts, ∃ u < UPAGES, T.leaf u = x) ∨ (∃ u < UPAGES, u ≠ v ∧ L u = x)) : PTE2PA x ≠ f := by
  rintro rfl
  rcases hother with ⟨T, hT, u, hu, rfl⟩ | ⟨u, hu, hne, rfl⟩
  · have h1 := (h.entry T (.tail _ hT) u hu hx).alone hxw
    have hown := owners_cons ⟨t, L⟩ pts held (PTE2PA (T.leaf u))
    have h2 : 0 < owners pts held _ := owners_pos_of_maps hT hu (maps_self hx)
    have h3 := leafCount_pos_iff.2 ⟨v, hv, hm⟩
    simp only [PT.owns] at hown
    omega
  · exact hne (eq_of_leafCount_le_one (h.leaf_le ⟨t, L⟩ (.head _) _) hu hv (maps_self hx) hm)

/-- The general form of a change of one entry of the first table: the pages that must have one
owner, of which those of `held'` are still held, are counted as before. -/
theorem Shape.setEntry (w : Pte) (hsub : ∀ f ∈ held', f ∈ held)
    (hkeep : ∀ f, f ∈ held' ∨ (∃ T ∈ (⟨t, L⟩ :: pts : List PT), f ∈ T.tabs) →
      owners (⟨t, update L v w⟩ :: pts) held' f = owners (⟨t, L⟩ :: pts) held f)
    (hwrite : ∀ x, has x PTE_V = true → has x PTE_W = true →
      (∃ T ∈ pts, ∃ u < UPAGES, T.leaf u = x) ∨ (∃ u < UPAGES, u ≠ v ∧ L u = x) →
      owners (⟨t, update L v w⟩ :: pts) held' (PTE2PA x) = owners (⟨t, L⟩ :: pts) held (PTE2PA x))
    (hle : ∀ f, leafCount (update L v w) f ≤ 1) (hw : v < UPAGES → has w PTE_V = true →
      EntryOk (owners (⟨t, update L v w⟩ :: pts) held') w) : Shape (⟨t, update L v w⟩ :: pts) held' := by
  refine ⟨?_, ?_, ?_, ?_⟩
  · intro f hf
    rw [hkeep f (.inl hf)]
    exact h.held_one f (hsub f hf)
  · intro T hT f hf
    rcases List.mem_cons.1 hT with rfl | hT
    · rw [hkeep f (.inr ⟨⟨t, L⟩, .head _, hf⟩)]
      exact h.tab_one ⟨t, L⟩ (.head _) f hf
    · rw [hkeep f (.inr ⟨T, .tail _ hT, hf⟩)]
      exact h.tab_one T (.tail _ hT) f hf
  · intro T hT
    rcases List.mem_cons.1 hT with rfl | hT
    · exact hle
    · exact h.leaf_le T (.tail _ hT)
  · intro T hT u hu hval
    rcases List.mem_cons.1 hT with rfl | hT
    · by_cases huv : u = v
      · subst huv
        simp only [update_self] at hval ⊢
        exact hw hu hval
      · simp only [update_of_ne huv] at hval ⊢
        have he := h.entry ⟨t, L⟩ (.head _) u hu hval
        refine ⟨he.high, fun hxw => ?_, he.not_both⟩
        rw [hwrite (L u) hval hxw (.inr ⟨u, hu, huv, rfl⟩)]
        exact he.alone hxw
    · have he := h.entry T (.tail _ hT) u hu hval
      refine ⟨he.high, fun hxw => ?_, he.not_both⟩
      rw [hwrite (T.leaf u) hval hxw (.inl ⟨T, hT, u, hu, rfl⟩)]
      exact he.alone hxw

/-- An entry outside the user area. -/
theorem Shape.setHigh (hv : UPAGES ≤ v) (w : Pte) : Shape (⟨t, update L v w⟩ :: pts) held := by
  have ho := fun f => owners_setEntry_of_le t L pts held hv w f
  refine h.setEntry w (fun f hf => hf) (fun f _ => ho f) (fun x _ _ _ => ho _) ?_ ?_
  · intro f
    rw [leafCount_update_of_le L hv]
    exact h.leaf_le ⟨t, L⟩ (.head _) f
  · intro hlt
    omega

/-- A change of the flags of an entry. -/
theorem Shape.setFlags (hv : v < UPAGES) (hval : has w PTE_V = has (L v) PTE_V) (hpa : PTE2PA w = PTE2PA (L v))
    (hw : has w PTE_V = true → EntryOk (owners (⟨t, L⟩ :: pts) held) w) : Shape (⟨t, update L v w⟩ :: pts) held := by
  have hmw : ∀ f, mapWeight f w = mapWeight f (L v) := by
    intro f
    unfold mapWeight maps
    rw [hval, hpa]
  have ho : ∀ f, owners (⟨t, update L v w⟩ :: pts) held f = owners (⟨t, L⟩ :: pts) held f := by
    intro f
    have := owners_setEntry t L pts held hv w f
    rw [hmw f] at this
    omega
  refine h.setEntry w (fun f hf => hf) (fun f _ => ho f) (fun x _ _ _ => ho _) ?_ ?_
  · intro f
    have h1 := leafCount_update L hv w f
    have h2 := h.leaf_le ⟨t, L⟩ (.head _) f
    rw [hmw f] at h1
    simp only at h2
    omega
  · intro _ hwv
    exact (hw hwv).congr (ho _)

end

/-- A page that the kernel holds is entered at a free page number. -/
theorem Shape.mapHeld (h : Shape (⟨t, L⟩ :: pts) (p :: held)) (hv : v < UPAGES)
    (hinv : has (L v) PTE_V = false) (hval : has w PTE_V = true) (hpa : PTE2PA w = p)
    (hhigh : ∀ i, 62 ≤ i → w.getLsbD i = false) (hnb : ¬ (has w PTE_W = true ∧ has w PTE_COW = true)) :
    Shape (⟨t, update L v w⟩ :: pts) held := by
  have hone := h.held_one p (.head _)
  have ho : ∀ f, owners (⟨t, update L v w⟩ :: pts) held f = owners (⟨t, L⟩ :: pts) (p :: held) f := by
    intro f
    have h1 := owners_setEntry t L pts held hv w f
    rw [mapWeight_invalid hinv, mapWeight_valid hval, hpa] at h1
    rw [owners_held_cons]
    omega
  refine h.setEntry w (fun f hf => .tail _ hf) (fun f _ => ho f) (fun x _ _ _ => ho _) ?_ ?_
  · intro f
    have h1 := leafCount_update L hv w f
    have h2 := h.leaf_le ⟨t, L⟩ (.head _) f
    rw [mapWeight_invalid hinv, mapWeight_valid hval, hpa] at h1
    simp only at h2
    by_cases hfp : f = p
    · -- the only owner of the page was the kernel
      subst hfp
      rw [owners_held_cons, owners_cons, if_pos rfl] at hone
      simp only [PT.owns] at hone
      rw [if_pos rfl] at h1
      omega
    · rw [if_neg hfp] at h1
      omega
  · intro _ _
    refine ⟨hhigh, fun _ => ?_, hnb⟩
    rw [ho, hpa]
    exact hone

variable (t L pts held) in
theorem owners_unmap (hv : v < UPAGES) (hval : has (L v) PTE_V = true) (f : Nat) :
    owners (⟨t, update L v 0#64⟩ :: pts) held f =
      owners (⟨t, L⟩ :: pts) held f - if f = PTE2PA (L v) then 1 else 0 := by
  have h1 := owners_setEntry t L pts held hv 0#64 f
  rw [mapWeight_invalid (has_zero PTE_V), mapWeight_valid hval] at h1
  omega

/-- An entry is removed. -/
theorem Shape.unmap (h : Shape (⟨t, L⟩ :: pts) held) (hv : v < UPAGES)
    (hval : has (L v) PTE_V = true) : Shape (⟨t, update L v 0#64⟩ :: pts) held := by
  have ho := fun f => owners_unmap t L pts held hv hval f
  obtain ⟨hnh, hnt⟩ := h.not_held_of_maps hv (maps_self hval)
  refine h.setEntry 0#64 (fun f hf => hf) ?_ ?_ ?_ ?_
  · rintro f (hf | ⟨T, hT, hf⟩)
    · have hne : f ≠ PTE2PA (L v) := fun he => hnh (he ▸ hf)
      rw [ho, if_neg hne, Nat.sub_zero]
    · have hne : f ≠ PTE2PA (L v) := fun he => hnt T hT (he ▸ hf)
      rw [ho, if_neg hne, Nat.sub_zero]
  · intro x hx hxw hother
    rw [ho, if_neg (h.ne_of_writable hv (maps_self hval) hx hxw hother), Nat.sub_zero]
  · intro f
    have h1 := leafCount_update L hv 0#64 f
    have h2 := h.leaf_le ⟨t, L⟩ (.head _) f
    rw [mapWeight_invalid (has_zero PTE_V)] at h1
    simp only at h2
    omega
  · intro _ hz
    rw [has_zero] at hz
    cases hz

variable (t L pts held) in
theorem owners_share (hv : v < UPAGES) (hinv : has (L v) PTE_V = false) (hval : has w PTE_V = true) (f : Nat) :
    owners (⟨t, update L v w⟩ :: pts) held f = owners (⟨t, L⟩ :: pts) held f + if f = PTE2PA w then 1 else 0 := by
  have h1 := owners_setEntry t L pts held hv w f
  rw [mapWeight_invalid hinv, mapWeight_valid hval] at h1
  omega

/-- A page that another table maps read-only is entered read-only at a free page number. -/
theorem Shape.share (h : Shape (⟨t, L⟩ :: pts) held) (hv : v < UPAGES)
    (hinv : has (L v) PTE_V = false) (hval : has w PTE_V = true)
    (hnw : has w PTE_W = false) (hhigh : ∀ i, 62 ≤ i → w.getLsbD i = false)
    (hfresh : leafCount L (PTE2PA w) = 0) {T0 : PT} (hT0 : T0 ∈ pts) {u0 : Nat} (hu0 : u0 < UPAGES)
    (hm0 : maps (T0.leaf u0) (PTE2PA w) = true) (hw0 : has (T0.leaf u0) PTE_W = false) :
    Shape (⟨t, update L v w⟩ :: pts) held := by
  have ho := fun f => owners_share t L pts held hv hinv hval f
  -- look at the list with the table that maps the page already in front
  obtain ⟨a, b, rfl⟩ := List.append_of_mem hT0
  obtain ⟨t0, L0⟩ := T0
  have hperm : (⟨t, L⟩ :: (a ++ ⟨t0, L0⟩ :: b) : List PT).Perm (⟨t0, L0⟩ :: ⟨t, L⟩ :: (a ++ b)) :=
    (List.perm_middle.cons _).trans (.swap _ _ _)
  have h0 := h.perm hperm (.refl held)
  obtain ⟨hnh, hnt⟩ := h0.not_held_of_maps hu0 hm0
  refine h.setEntry w (fun f hf => hf) ?_ ?_ ?_ ?_
  · rintro f (hf | ⟨T, hT, hf⟩)
    · have hne : f ≠ PTE2PA w := fun he => hnh (he ▸ hf)
      rw [ho, if_neg hne, Nat.add_zero]
    · have hne : f ≠ PTE2PA w := fun he => hnt T (hperm.mem_iff.1 hT) (he ▸ hf)
      rw [ho, if_neg hne, Nat.add_zero]
  · intro x hx hxw hother
    have hne : PTE2PA x ≠ PTE2PA w := by
      refine h0.ne_of_writable hu0 hm0 hx hxw ?_
      have hT : ∃ T ∈ (⟨t, L⟩ :: (a ++ ⟨t0, L0⟩ :: b) : List PT), ∃ u < UPAGES, T.leaf u = x := by
        rcases hother with ⟨T, hT, hu⟩ | ⟨u, hu, -, hx⟩
        · exact ⟨T, .tail _ hT, hu⟩
        · exact ⟨⟨t, L⟩, .head _, u, hu, hx⟩
      obtain ⟨T, hT, u, hu, rfl⟩ := hT
      rcases List.mem_cons.1 (hperm.mem_iff.1 hT) with rfl | hT
      · refine .inr ⟨u, hu, ?_, rfl⟩
        rintro rfl
        rw [hw0] at hxw
        cases hxw
      · exact .inl ⟨T, hT, u, hu, rfl⟩
    rw [ho, if_neg hne, Nat.add_zero]
  · intro f
    have h1 := leafCount_update L hv w f
    have h2 := h.leaf_le ⟨t, L⟩ (.head _) f
    rw [mapWeight_invalid hinv, mapWeight_valid hval] at h1
    simp only at h2
    by_cases hf : f = PTE2PA w
    · rw [if_pos hf] at h1
      rw [← hf] at hfresh
      omega
    · rw [if_neg hf] at h1
      omega
  · intro _ _
    refine ⟨hhigh, fun hw => ?_, fun hb => ?_⟩
    · rw [hnw] at hw
      cases hw
    · rw [hnw] at hb
      cases hb.1

end Head

end Xv6.Vm
