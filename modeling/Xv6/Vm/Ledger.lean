import Xv6.Base.Triple
import Xv6.Vm.Accounting

/-!
# The allocator and the page tables in memory

`Ledger s roots held` ties the accounting to the machine: the page tables are those found in memory
at the addresses `roots`, and `held` are the pages that the kernel holds for other purposes. Each
operation on pages and entries is shown once to keep the ledger and to leave alone every page that
has another owner.
-/

set_option autoImplicit false

namespace Xv6.Vm

open Function Xv6.Base

/-- The page tables at `roots`. -/
def views (m : Mem) (roots : List Nat) : List PT := roots.map (view m)

/-- The allocator's state is exactly what the tables and the kernel own. -/
structure Ledger (s : Kmem) (roots held : List Nat) : Prop where
  counts : Counts s (owners (views s.mem roots) held)
  shape : Shape (views s.mem roots) held
  few : roots.length ≤ 2 * NPROC
  plain : ∀ r ∈ roots, Plain s.mem 2 r

/-- Pages owned by the tables at `roots` or held are not changed. -/
structure Keeps (s s' : Kmem) (roots held : List Nat) : Prop where
  kend : s'.kend = s.kend
  same : ∀ f, 0 < owners (views s.mem roots) held f → PageEq s.mem s'.mem f

/-- The pages that the user area of the table at `r` maps are not changed. -/
def KeepsData (s s' : Kmem) (r : Nat) : Prop :=
  ∀ v < UPAGES, has (pte s.mem r v) PTE_V = true →
    PageEq s.mem s'.mem (PTE2PA (pte s.mem r v))

theorem owners_views_cons (m : Mem) (r : Nat) (rs held : List Nat) (f : Nat) :
    owners (views m (r :: rs)) held f = (view m r).owns f + owners (views m rs) held f :=
  owners_cons ..

variable {s s' : Kmem} {held roots : List Nat} {f r : Nat}

theorem Keeps.page (h : Keeps s s' roots held) (hr : r ∈ roots) (hf : f ∈ tables s.mem 2 r) : PageEq s.mem s'.mem f :=
  h.same f (owners_pos_of_tab (List.mem_map_of_mem hr) hf)

theorem Keeps.data (h : Keeps s s' roots held) (hr : r ∈ roots) : KeepsData s s' r := fun _ hv hval =>
  h.same _ (owners_pos_of_maps (List.mem_map_of_mem hr) hv (maps_self hval))

theorem Keeps.heldPage (h : Keeps s s' roots held) (hf : f ∈ held) : PageEq s.mem s'.mem f :=
  h.same f (owners_pos_of_held hf)

/-- A table whose pages are unchanged is unchanged. -/
theorem view_congr {m m' : Mem} {r : Nat} (h : ∀ f ∈ tables m 2 r, PageEq m m' f) : view m' r = view m r := by
  have hp : pte m' r = pte m r := by
    funext v
    unfold pte
    rw [leaf_congr h v]
  unfold view
  rw [(tables_congr 2 r fun f hf => h f (interior_subset_tables m 2 r hf)).1, hp]

theorem Keeps.view {s s' : Kmem} {roots held : List Nat} (h : Keeps s s' roots held) {r : Nat}
    (hr : r ∈ roots) : view s'.mem r = view s.mem r :=
  view_congr fun _ hf => h.page hr hf

theorem Keeps.pte {s s' : Kmem} {roots held : List Nat} (h : Keeps s s' roots held) {r : Nat}
    (hr : r ∈ roots) : pte s'.mem r = pte s.mem r :=
  congrArg PT.leaf (h.view hr)

theorem Keeps.views {s s' : Kmem} {roots held : List Nat} (h : Keeps s s' roots held) :
    views s'.mem roots = views s.mem roots :=
  List.map_congr_left fun _ hr => h.view hr

theorem Keeps.refl (s : Kmem) (roots held : List Nat) : Keeps s s roots held :=
  ⟨rfl, fun f _ => PageEq.refl _ f⟩

theorem Keeps.exhaust (s : Kmem) (roots held : List Nat) : Keeps s { s with exhausted := s.exhausted + 1 } roots held :=
  ⟨rfl, fun f _ => PageEq.refl _ f⟩

theorem Keeps.trans {s'' : Kmem} (h : Keeps s s' roots held)
    (h' : Keeps s' s'' roots held) : Keeps s s'' roots held := by
  refine ⟨h'.kend.trans h.kend, fun f hf => (h.same f hf).trans (h'.same f ?_)⟩
  rw [h.views]
  exact hf

variable {held' : List Nat}

theorem owners_mono {pts pts' : List PT} (hp : pts.Sublist pts')
    (hh : held.Sublist held') (f : Nat) : owners pts held f ≤ owners pts' held' f := by
  have h1 := hh.count_le f
  have h2 := (hp.map fun T => T.owns f).sum_le_sum (fun _ _ => Nat.zero_le _)
  unfold owners
  omega

theorem Keeps.mono {roots' : List Nat} (h : Keeps s s' roots held)
    (hr : roots'.Sublist roots) (hh : held'.Sublist held) : Keeps s s' roots' held' :=
  ⟨h.kend, fun f hf => h.same f (Nat.lt_of_lt_of_le hf (owners_mono (hr.map _) hh f))⟩

theorem KeepsData.trans {s'' : Kmem} (h : KeepsData s s' r)
    (h' : KeepsData s' s'' r) (hl : pte s'.mem r = pte s.mem r) : KeepsData s s'' r := by
  intro v hv hval
  refine (h v hv hval).trans ?_
  have := h' v hv
  rw [hl] at this
  exact this hval

/-! ## Facts that the ledger gives -/

section Facts

variable {s : Kmem} {r : Nat} {rs held : List Nat}

theorem Ledger.frame (h : Ledger s roots held)
    (hf : 0 < owners (views s.mem roots) held f) : IsFrame s.kend f := h.counts.frame f hf

theorem Ledger.root_frame (h : Ledger s roots held) (hr : r ∈ roots) : IsFrame s.kend r :=
  h.frame (owners_pos_of_tab (List.mem_map_of_mem hr) (mem_tables_self s.mem 2 r))

theorem Ledger.tables_nodup (h : Ledger s roots held) (hr : r ∈ roots) : (tables s.mem 2 r).Nodup := by
  refine List.nodup_iff_count_le_one.2 fun f => ?_
  by_cases hf : f ∈ tables s.mem 2 r
  · have h1 := h.shape.tab_one (view s.mem r) (List.mem_map_of_mem hr) f hf
    have h2 := owns_le_owners (List.mem_map_of_mem (f := view s.mem) hr) held f
    rw [views] at h1
    unfold PT.owns view at h2
    simp only at h2
    unfold view at h1
    omega
  · rw [List.count_eq_zero.2 hf]
    exact Nat.zero_le 1

/-- A page of the first table has no other owner. -/
theorem Ledger.tab_alone (h : Ledger s (r :: rs) held) (hf : f ∈ tables s.mem 2 r) :
    owners (views s.mem rs) held f = 0 ∧ leafCount (pte s.mem r) f = 0 := by
  have h1 := h.shape.tab_one (view s.mem r) (.head _) f hf
  have h2 := owners_views_cons s.mem r rs held f
  have h3 : 0 < (tables s.mem 2 r).count f := List.count_pos_iff.2 hf
  simp only [PT.owns, view] at h2
  omega

/-- A page that the kernel holds has no other owner. -/
theorem Ledger.held_alone {roots : List Nat} {p : Nat} (h : Ledger s roots (p :: held)) :
    owners (views s.mem roots) held p = 0 := by
  have h1 := h.shape.held_one p (.head _)
  rw [owners_held_cons, if_pos rfl] at h1
  omega

/-- A page that the first table maps for writing has no other owner. -/
theorem Ledger.writable_alone (h : Ledger s (r :: rs) held) {v : Nat} (hv : v < UPAGES)
    (hval : has (pte s.mem r v) PTE_V = true) (hw : has (pte s.mem r v) PTE_W = true) :
    owners (views s.mem rs) held (PTE2PA (pte s.mem r v)) = 0 ∧ PTE2PA (pte s.mem r v) ∉ tables s.mem 2 r := by
  have h1 := (h.shape.entry (view s.mem r) (.head _) v hv hval).alone hw
  have h2 := owners_views_cons s.mem r rs held (PTE2PA (pte s.mem r v))
  have h3 : 0 < leafCount (pte s.mem r) (PTE2PA (pte s.mem r v)) :=
    leafCount_pos_iff.2 ⟨v, hv, maps_self hval⟩
  simp only [PT.owns, view] at h1 h2
  refine ⟨by omega, fun hin => ?_⟩
  have h4 : 0 < (tables s.mem 2 r).count (PTE2PA (pte s.mem r v)) := List.count_pos_iff.2 hin
  omega

/-- A page has at most as many owners as there are tables, so its count does not wrap. -/
theorem Ledger.owners_lt (h : Ledger s roots held) (f : Nat) : owners (views s.mem roots) held f + 1 < 2 ^ 32 := by
  by_cases hf : f ∈ held ∨ ∃ T ∈ views s.mem roots, f ∈ T.tabs
  · have : owners (views s.mem roots) held f = 1 := by
      rcases hf with hf | ⟨T, hT, hf⟩
      · exact h.shape.held_one f hf
      · exact h.shape.tab_one T hT f hf
    omega
  · obtain ⟨hnh, hnt⟩ := not_or.1 hf
    have hsum : ((views s.mem roots).map fun T => T.owns f).sum ≤ (views s.mem roots).length := by
      have hle : ∀ T ∈ views s.mem roots, T.owns f ≤ 1 := by
        intro T hT
        have h1 : T.tabs.count f = 0 := List.count_eq_zero.2 fun hin => hnt ⟨T, hT, hin⟩
        have h2 := h.shape.leaf_le T hT f
        unfold PT.owns
        omega
      have := List.sum_le_card_nsmul ((views s.mem roots).map fun T => T.owns f) 1 (by
        intro x hx
        obtain ⟨T, hT, rfl⟩ := List.mem_map.1 hx
        exact hle T hT)
      simpa using this
    have hlen : (views s.mem roots).length = roots.length := List.length_map ..
    have hcount : held.count f = 0 := List.count_eq_zero.2 hnh
    have hfew := h.few
    unfold owners
    unfold NPROC at hfew
    omega

theorem Plain.keep (h : Plain s.mem 2 r) (hk : Keeps s s' roots held) (hr : r ∈ roots) : Plain s'.mem 2 r :=
  h.congr fun _ hf => hk.page hr (interior_subset_tables _ _ _ hf)

/-- The interior entries after a change to the first table. -/
theorem Ledger.plain_cons (h : Ledger s (r :: rs) held) (hk : Keeps s s' rs held)
    (hr : Plain s'.mem 2 r) : ∀ r' ∈ r :: rs, Plain s'.mem 2 r' := by
  intro r' hr'
  rcases List.mem_cons.1 hr' with rfl | hr'
  · exact hr
  · exact (h.plain r' (.tail _ hr')).keep hk hr'

theorem Ledger.plain_store {v a : Nat} (h : Ledger s (r :: rs) held) (hs : slot s.mem v 2 r = some a)
    (w : Pte) : Plain (sd64 s.mem a w) 2 r :=
  Vm.plain_store (h.tables_nodup (.head _)) (h.root_frame (.head _)).1 hs w
    (h.plain r (.head _))

end Facts

/-! ## Pages that the kernel takes, writes and gives back -/

section Pages

variable {s s' : Kmem} {roots held : List Nat}

section

variable (h : Ledger s roots held)
include h

/-- A change of memory outside the pages of all tables. -/
theorem Ledger.setMem {m : Mem} (hk : ∀ r ∈ roots, ∀ f ∈ tables s.mem 2 r, PageEq s.mem m f) :
    Ledger { s with mem := m } roots held := by
  have hv : views m roots = views s.mem roots :=
    List.map_congr_left fun r hr => view_congr (hk r hr)
  refine ⟨h.counts.congr rfl rfl rfl fun f => ?_, ?_, h.few, fun r hr => ?_⟩
  · show owners (views m roots) held f = _
    rw [hv]
  · show Shape (views m roots) held
    rw [hv]
    exact h.shape
  · exact (h.plain r hr).congr fun f hf => hk r hr f (interior_subset_tables _ _ _ hf)

theorem Ledger.exhaust : Ledger { s with exhausted := s.exhausted + 1 } roots held :=
  ⟨h.counts.congr rfl rfl rfl fun _ => rfl, h.shape, h.few, h.plain⟩

theorem Ledger.permHeld (hp : held.Perm held') : Ledger s roots held' := by
  refine ⟨h.counts.congr rfl rfl rfl fun f => ?_, ?_, h.few, h.plain⟩
  · exact (owners_perm (.refl _) hp f).symm
  · exact h.shape.perm (.refl _) hp

theorem Ledger.permRoots {roots' : List Nat} (hp : roots.Perm roots') : Ledger s roots' held := by
  refine ⟨h.counts.congr rfl rfl rfl fun f => ?_, ?_, hp.length_eq ▸ h.few, fun r hr =>
    h.plain r (hp.mem_iff.2 hr)⟩
  · exact (owners_perm (hp.map _) (.refl _) f).symm
  · exact h.shape.perm (hp.map _) (.refl _)

end

theorem kalloc_returns (s : Kmem) : Returns kalloc s := by
  unfold kalloc Returns
  cases h : s.freelist with
  | nil | cons p next =>
    simp only [h]
    exact ⟨_, _, rfl⟩

theorem kfree_returns {p : Nat} (hp : IsFrame s.kend p) : Returns (kfree p) s := by
  obtain ⟨hal, hlo, hhi⟩ := hp
  have hok : ¬ (p % PGSIZE ≠ 0 ∨ p < s.kend ∨ PHYSTOP ≤ p) := by omega
  unfold kfree Returns
  simp only [if_neg hok]
  split_ifs
  · exact ⟨_, _, rfl⟩
  · exact ⟨_, _, rfl⟩

/-- `kalloc` returns 0, or a page that had no owner and that the kernel holds from now on. -/
theorem kalloc_spec {o : Option Nat} (h : Ledger s roots held) (hr : kalloc s = .ok (o, s')) :
    (o = none ∧ s' = { s with exhausted := s.exhausted + 1 }) ∨
      ∃ p, o = some p ∧ Ledger s' roots (p :: held) ∧ Keeps s s' roots held ∧
        s'.exhausted = s.exhausted := by
  unfold kalloc at hr
  cases hfl : s.freelist with
  | nil =>
    left
    rw [hfl] at hr
    cases hr
    exact ⟨rfl, rfl⟩
  | cons p next =>
    right
    rw [hfl] at hr
    cases hr
    have hp := (h.counts.free p).1 (hfl ▸ List.mem_cons_self ..)
    have hkeep : ∀ f, 0 < owners (views s.mem roots) held f → PageEq s.mem (fill s.mem p PGSIZE 5) f := by
      intro f hf
      refine pageEq_fill s.mem 5 hp.1.1 (h.frame hf).1 ?_
      rintro rfl
      omega
    refine ⟨p, rfl, ?_, ⟨rfl, hkeep⟩, rfl⟩
    have hviews : views (fill s.mem p PGSIZE 5) roots = views s.mem roots :=
      List.map_congr_left fun r hr => view_congr fun f hf =>
        hkeep f (owners_pos_of_tab (List.mem_map_of_mem hr) hf)
    refine ⟨?_, ?_, h.few, fun r hr => (h.plain r hr).keep ⟨rfl, hkeep⟩ hr⟩
    · have hc : Counts { s with
          freelist := next
          mem := fill s.mem p PGSIZE 5
          pgref := update s.pgref (PGINDEX p) 1 }
          fun f => [p].count f + owners (views s.mem roots) held f := by
        refine h.counts.take (show s.freelist = [p] ++ next from hfl) rfl ?_ ?_
        · intro f hf
          cases List.mem_singleton.1 hf
          exact update_self ..
        · intro i hi
          exact update_of_ne (hi p (List.mem_singleton_self p)).symm _ _
      refine hc.congr rfl rfl rfl fun f => ?_
      show owners (views (fill s.mem p PGSIZE 5) roots) ([p] ++ held) f = _
      rw [hviews, owners_held_append]
    · show Shape (views (fill s.mem p PGSIZE 5) roots) ([p] ++ held)
      rw [hviews]
      refine h.shape.hold (List.nodup_singleton p) fun f hf => ?_
      cases List.mem_singleton.1 hf
      exact hp.2

theorem kalloc_meets {E : Panic → Prop} (h : Ledger s roots held) :
    Meets E kalloc s fun o s' => (o = none ∧ s' = { s with exhausted := s.exhausted + 1 }) ∨
      ∃ p, o = some p ∧ Ledger s' roots (p :: held) ∧ Keeps s s' roots held ∧ s'.exhausted = s.exhausted := by
  obtain ⟨o, s', hka⟩ := kalloc_returns s
  exact .of_ok hka (kalloc_spec h hka)

/-- The kernel writes to a page that it holds. -/
theorem Ledger.writeHeld {p : Nat} {m : Mem} (h : Ledger s roots (p :: held))
    (hm : ∀ f, f % PGSIZE = 0 → f ≠ p → PageEq s.mem m f) :
    Ledger { s with mem := m } roots (p :: held) ∧ Keeps s { s with mem := m } roots held := by
  have hkeep : Keeps s { s with mem := m } roots held := by
    refine ⟨rfl, fun f hf => ?_⟩
    refine hm f (h.frame ?_).1 ?_
    · rw [owners_held_cons]
      omega
    · rintro rfl
      have := h.held_alone
      omega
  exact ⟨h.setMem fun r hr f hf => hkeep.page hr hf, hkeep⟩

theorem Ledger.held_nodup {ps : List Nat} (h : Ledger s roots (ps ++ held)) : ps.Nodup := by
  refine List.nodup_iff_count_le_one.2 fun f => ?_
  by_cases hf : f ∈ ps
  · have h1 := h.shape.held_one f (List.mem_append_left _ hf)
    rw [owners_held_append] at h1
    omega
  · rw [List.count_eq_zero.2 hf]
    exact Nat.zero_le 1

/-- Pages that the kernel holds are released. -/
theorem Ledger.released {ps : List Nat} (h : Ledger s roots (ps ++ held)) (hr : Released s s' ps ps) :
    Ledger s' roots held ∧ Keeps s s' roots held ∧ s'.exhausted = s.exhausted := by
  have hone : ∀ f ∈ ps, owners (views s.mem roots) (ps ++ held) f = 1 := fun f hf =>
    h.shape.held_one f (List.mem_append_left _ hf)
  have hcount : ∀ f, owners (views s.mem roots) (ps ++ held) f =
      ps.count f + owners (views s.mem roots) held f := fun f => owners_held_append ..
  have hkeep : Keeps s s' roots held := by
    refine ⟨hr.kend, fun f hf => hr.same f (h.frame (by rw [hcount f]; omega)).1 fun hmem => ?_⟩
    have := hone f hmem
    have := List.count_pos_iff.2 hmem
    have := hcount f
    omega
  refine ⟨⟨?_, ?_, h.few, fun r hr' => (h.plain r hr').keep hkeep hr'⟩, hkeep, hr.exhausted⟩
  · refine (h.counts.released hr h.held_nodup hone).congr rfl rfl rfl fun f => ?_
    rw [hkeep.views, hcount f, Nat.add_sub_cancel_left]
  · rw [hkeep.views]
    exact h.shape.drop

/-- Freeing a page that the kernel holds. -/
theorem kfree_held_meets {E : Panic → Prop} {p : Nat} (h : Ledger s roots (p :: held)) :
    Meets E (kfree p) s fun _ s' => Ledger s' roots held ∧ Keeps s s' roots held ∧ s'.exhausted = s.exhausted := by
  have hone := h.shape.held_one p (.head _)
  have hpf := h.frame (f := p) (by omega)
  obtain ⟨s1, hk, hrel⟩ := kfree_released hpf (by rw [h.counts.ref p hpf, hone])
  exact .of_ok hk (h.released hrel)

/-- A cleared page that the kernel holds becomes the root of an empty table. -/
theorem Ledger.newRoot {p : Nat} (h : Ledger s roots (p :: held)) (hb : Blank s.mem p)
    (hfew : roots.length < 2 * NPROC) : Ledger s (p :: roots) held ∧ pte s.mem p = fun _ => 0#64 := by
  have hpte : pte s.mem p = fun _ => 0#64 := by
    funext v
    unfold pte
    rw [leaf_blank hb]
    split_ifs <;> rfl
  have hview : view s.mem p = ⟨[p], fun _ => 0#64⟩ := by
    unfold view
    rw [tables_blank hb, hpte]
  have hviews : views s.mem (p :: roots) = ⟨[p], fun _ => 0#64⟩ :: views s.mem roots := by
    rw [views, List.map_cons, hview]
    rfl
  refine ⟨⟨h.counts.congr rfl rfl rfl fun f => ?_, ?_, hfew, ?_⟩, hpte⟩
  · rw [hviews]
    exact (owners_detach leafCount_zero f).symm
  · rw [hviews]
    exact h.shape.newRoot
  · intro r hr
    rcases List.mem_cons.1 hr with rfl | hr
    · exact hb.plain 2
    · exact h.plain r hr

/-- The pages of a table that maps nothing in the user area, as pages held. -/
theorem Ledger.detach {rs : List Nat} (h : Ledger s (r :: rs) held)
    (hempty : ∀ v < UPAGES, has (pte s.mem r v) PTE_V = false) : Ledger s rs (tables s.mem 2 r ++ held) := by
  have hL : ∀ f, leafCount (pte s.mem r) f = 0 := by
    intro f
    by_contra hne
    obtain ⟨v, hv, hm⟩ := leafCount_pos_iff.1 (Nat.pos_of_ne_zero hne)
    have hval := (maps_iff.1 hm).1
    rw [hempty v hv] at hval
    cases hval
  refine ⟨h.counts.congr rfl rfl rfl fun f => ?_, ?_, ?_, fun r' hr =>
    h.plain r' (.tail _ hr)⟩
  · exact owners_detach hL f
  · exact Shape.detach h.shape hL
  · have := h.few
    rw [List.length_cons] at this
    omega

end Pages

/-! ## Entries -/

section Entries

variable {s s' : Kmem} {r : Nat} {rs held : List Nat}

/-- `walk` with allocation keeps every entry; new table pages come from the free list. -/
theorem walk_true_spec {va : Nat} {o : Option Nat} (h : Ledger s (r :: rs) held) (hr : walk r va true s = .ok (o, s')) :
    va < MAXVA ∧ Ledger s' (r :: rs) held ∧ Keeps s s' rs held ∧ pte s'.mem r = pte s.mem r ∧ KeepsData s s' r ∧
      ((o = none ∧ s.exhausted < s'.exhausted) ∨
        ∃ a, o = some a ∧ slot s'.mem (va / PGSIZE) 2 r = some a ∧ s'.exhausted = s.exhausted) := by
  have hva : va < MAXVA := by
    by_contra hle
    rw [walk_of_le (by omega)] at hr
    cases hr
  rw [walk, if_neg (by omega)] at hr
  have hnd := h.tables_nodup (.head _)
  have hal := (h.root_frame (.head _)).1
  have hfree : ∀ f ∈ s.freelist, IsFrame s.kend f ∧ owners (views s.mem (r :: rs)) held f = 0 :=
    fun f hf => (h.counts.free f).1 hf
  obtain ⟨new, hw⟩ := walkLoop_true_spec hr hnd hal h.counts.nodup (by
    intro f hf
    obtain ⟨hff, hz⟩ := hfree f hf
    refine ⟨hff.1, ?_, fun hin => ?_⟩
    · exact Nat.lt_trans hff.2.2 (by decide)
    · have hpos : 0 < owners (views s.mem (r :: rs)) held f :=
        owners_pos_of_tab (T := view s.mem r) (.head _) hin
      omega)
  have hnew : ∀ f ∈ new, owners (views s.mem (r :: rs)) held f = 0 := fun f hf =>
    (hfree f (hw.free ▸ List.mem_append_left _ hf)).2
  have hpte : pte s'.mem r = pte s.mem r := by
    funext v
    unfold pte
    rw [hw.leaf_eq v]
  -- a page with an owner other than this table is neither new nor one of its interior tables
  have hsame : ∀ f, 0 < owners (views s.mem (r :: rs)) held f → f ∉ tables s.mem 2 r → PageEq s.mem s'.mem f := by
    intro f hf hft
    refine hw.same f (h.frame hf).1 (fun hn => ?_) fun hin => hft (interior_subset_tables _ _ _ hin)
    have := hnew f hn
    omega
  have hkeep : Keeps s s' rs held := by
    refine ⟨hw.kend, fun f hf => ?_⟩
    refine hsame f ?_ fun hft => ?_
    · rw [owners_views_cons]
      omega
    · have := (h.tab_alone hft).1
      omega
  have hdata : KeepsData s s' r := by
    intro v hv hval
    have hm : maps ((view s.mem r).leaf v) (PTE2PA (pte s.mem r v)) = true := maps_self hval
    refine hsame _ (owners_pos_of_maps (.head _) hv hm) ?_
    exact (Shape.not_held_of_maps h.shape hv hm).2 (view s.mem r) (.head _)
  have hviews : views s'.mem (r :: rs) = ⟨tables s'.mem 2 r, pte s.mem r⟩ :: views s.mem rs := by
    rw [← hkeep.views, ← hpte]
    rfl
  refine ⟨hva, ⟨?_, ?_, h.few, h.plain_cons hkeep (hw.plain (h.plain r (.head _)))⟩,
    hkeep, hpte, hdata, ?_⟩
  · have hc := h.counts.take hw.free hw.kend hw.ref_new hw.ref_old
    refine hc.congr rfl rfl rfl fun f => ?_
    rw [hviews, owners_attach hw.tables_perm, owners_held_append]
    rfl
  · rw [hviews]
    have hnd : new.Nodup := by
      have := h.counts.nodup
      rw [hw.free] at this
      exact (List.nodup_append.1 this).1
    exact Shape.attach (h.shape.hold hnd hnew) hw.tables_perm
  · cases o with
    | none => exact .inl ⟨rfl, hw.failed rfl⟩
    | some a => exact .inr ⟨a, rfl, (hw.found a rfl).1, (hw.found a rfl).2⟩

variable {a v : Nat}

/-- A store to the entry for page number `v`. -/
theorem Ledger.store_view (h : Ledger s (r :: rs) held) (hv : v < 512 ^ 3) (hs : slot s.mem v 2 r = some a) (w : Pte) :
    view (sd64 s.mem a w) r = ⟨tables s.mem 2 r, update (pte s.mem r) v w⟩ ∧
      (∀ f, f % PGSIZE = 0 → f ∉ tables s.mem 2 r → PageEq s.mem (sd64 s.mem a w) f) ∧
      Keeps s { s with mem := sd64 s.mem a w } rs held := by
  have hnd := h.tables_nodup (.head _)
  have hal := (h.root_frame (.head _)).1
  have hother : ∀ f, f % PGSIZE = 0 → f ∉ tables s.mem 2 r → PageEq s.mem (sd64 s.mem a w) f := by
    intro f hf hft
    obtain ⟨b, hb, rfl, -⟩ := slot_mem hs
    refine pageEq_sd64 s.mem w (tables_aligned s.mem 2 r hal hb) hf (Nat.mod_lt _ (by decide)) ?_
    rintro rfl
    exact hft hb
  refine ⟨?_, hother, ?_⟩
  · have hp : pte (sd64 s.mem a w) r = update (pte s.mem r) v w := by
      funext u
      unfold pte
      by_cases hu : u < 512 ^ 3
      · rw [if_pos hu, leaf_store hnd hal hs w u]
        by_cases huv : u = v
        · subst huv
          rw [if_pos rfl, update_self]
        · rw [if_neg (by rwa [Nat.mod_eq_of_lt hu, Nat.mod_eq_of_lt hv]), update_of_ne huv, if_pos hu]
      · have huv : u ≠ v := by
          rintro rfl
          exact hu hv
        rw [if_neg hu, update_of_ne huv, if_neg hu]
    unfold view
    rw [tables_store hnd hal hs w, hp]
  · refine ⟨rfl, fun f hf => ?_⟩
    refine hother f (h.frame ?_).1 fun hft => ?_
    · rw [owners_views_cons]
      omega
    · have := (h.tab_alone hft).1
      omega

/-- What a store of `w` to entry `v` of the first table, at address `a`, leaves as it was. -/
structure Stored (s : Kmem) (r : Nat) (rs held held' : List Nat) (v a : Nat) (w : Pte) : Prop where
  ledger : Ledger { s with mem := sd64 s.mem a w } (r :: rs) held'
  keeps : Keeps s { s with mem := sd64 s.mem a w } rs held
  entries : pte (sd64 s.mem a w) r = update (pte s.mem r) v w
  data : KeepsData s { s with mem := sd64 s.mem a w } r

/-- A store to an entry seen through its effect on the first table. -/
theorem Ledger.of_store {held' : List Nat} {v a : Nat} {w : Pte} (h : Ledger s (r :: rs) held)
    (hv : v < 512 ^ 3) (hs : slot s.mem v 2 r = some a)
    (ho : ∀ f, owners (⟨tables s.mem 2 r, update (pte s.mem r) v w⟩ :: views s.mem rs)
      held' f = owners (views s.mem (r :: rs)) held f)
    (hshape : Shape (⟨tables s.mem 2 r, update (pte s.mem r) v w⟩ :: views s.mem rs) held') :
    Stored s r rs held held' v a w := by
  obtain ⟨hview, hother, hkeep⟩ := h.store_view hv hs w
  have hviews : views (sd64 s.mem a w) (r :: rs) = ⟨tables s.mem 2 r, update (pte s.mem r) v w⟩ :: views s.mem rs := by
    rw [← hkeep.views, ← hview]
    rfl
  refine ⟨⟨?_, ?_, h.few, h.plain_cons hkeep (h.plain_store hs w)⟩, hkeep, congrArg PT.leaf hview, ?_⟩
  · refine h.counts.congr rfl rfl rfl fun f => ?_
    rw [hviews]
    exact ho f
  · show Shape (views (sd64 s.mem a w) (r :: rs)) held'
    rw [hviews]
    exact hshape
  · intro u hu hval
    have hm : maps ((view s.mem r).leaf u) (PTE2PA (pte s.mem r u)) = true := maps_self hval
    refine hother _ (PTE2PA_dvd _) ?_
    exact (Shape.not_held_of_maps h.shape hu hm).2 (view s.mem r) (.head _)

theorem UPAGES_lt : UPAGES < 512 ^ 3 := by decide

/-- An entry outside the user area. -/
theorem Ledger.setHigh (h : Ledger s (r :: rs) held) (hle : UPAGES ≤ v)
    (hv : v < 512 ^ 3) (hs : slot s.mem v 2 r = some a) (w : Pte) : Stored s r rs held held v a w :=
  h.of_store hv hs (owners_setEntry_of_le _ _ _ _ hle w) (Shape.setHigh h.shape hle w)

/-- A change of the flags of an entry. -/
theorem Ledger.setFlags {v a : Nat} {w : Pte} (h : Ledger s (r :: rs) held) (hv : v < UPAGES)
    (hs : slot s.mem v 2 r = some a) (hval : has w PTE_V = has (pte s.mem r v) PTE_V)
    (hpa : PTE2PA w = PTE2PA (pte s.mem r v))
    (hw : has w PTE_V = true → EntryOk (owners (views s.mem (r :: rs)) held) w) : Stored s r rs held held v a w := by
  refine h.of_store (hv.trans UPAGES_lt) hs (fun f => ?_) (Shape.setFlags h.shape hv hval hpa hw)
  have h1 := owners_setEntry (tables s.mem 2 r) (pte s.mem r) (views s.mem rs) held hv w f
  have h2 : mapWeight f w = mapWeight f (pte s.mem r v) := by
    unfold mapWeight maps
    rw [hval, hpa]
  rw [h2] at h1
  exact Nat.add_right_cancel h1

/-- A page that the kernel holds is entered at a free page number. -/
theorem Ledger.mapHeld {p : Nat} {w : Pte} (h : Ledger s (r :: rs) (p :: held))
    (hv : v < UPAGES) (hs : slot s.mem v 2 r = some a) (hinv : has (pte s.mem r v) PTE_V = false)
    (hval : has w PTE_V = true) (hpa : PTE2PA w = p) (hhigh : ∀ i, 62 ≤ i → w.getLsbD i = false)
    (hnb : ¬ (has w PTE_W = true ∧ has w PTE_COW = true)) : Stored s r rs (p :: held) held v a w := by
  refine h.of_store (hv.trans UPAGES_lt) hs (fun f => ?_) (Shape.mapHeld h.shape hv hinv hval hpa hhigh hnb)
  have h1 := owners_setEntry (tables s.mem 2 r) (pte s.mem r) (views s.mem rs) held hv w f
  rw [mapWeight_invalid hinv, mapWeight_valid hval, hpa] at h1
  rw [owners_held_cons]
  exact h1

/-- `kfree` of the page of an entry followed by clearing the entry. -/
theorem Ledger.unmapFree (h : Ledger s (r :: rs) held) (hv : v < UPAGES)
    (hs : slot s.mem v 2 r = some a) (hval : has (pte s.mem r v) PTE_V = true)
    (hk : kfree (PTE2PA (pte s.mem r v)) s = .ok ((), s')) :
    Ledger { s' with mem := sd64 s'.mem a 0#64 } (r :: rs) held ∧
      Keeps s { s' with mem := sd64 s'.mem a 0#64 } rs held ∧
      pte (sd64 s'.mem a 0#64) r = update (pte s.mem r) v 0#64 ∧
      slot (sd64 s'.mem a 0#64) v 2 r = some a ∧
      (∀ u < UPAGES, u ≠ v → has (pte s.mem r u) PTE_V = true →
        PageEq s.mem (sd64 s'.mem a 0#64) (PTE2PA (pte s.mem r u))) ∧
      s'.exhausted = s.exhausted := by
  have hvlt := hv.trans UPAGES_lt
  have hnd := h.tables_nodup (.head _)
  have hal := (h.root_frame (.head _)).1
  have hm : maps ((view s.mem r).leaf v) (PTE2PA (pte s.mem r v)) = true := maps_self hval
  have hnt := (Shape.not_held_of_maps h.shape hv hm).2 (view s.mem r) (.head _)
  have hpos : 0 < owners (views s.mem (r :: rs)) held (PTE2PA (pte s.mem r v)) :=
    owners_pos_of_maps (.head _) hv hm
  obtain ⟨hview, hother, hkeep⟩ := h.store_view hvlt hs 0#64
  -- clearing the entry commutes with filling the freed page, which is no page of the table
  have hmem : ∀ f, f % PGSIZE = 0 → (f = PTE2PA (pte s.mem r v) → 1 < s.pgref (PGINDEX (PTE2PA (pte s.mem r v)))) →
      PageEq (sd64 s.mem a 0#64) (sd64 s'.mem a 0#64) f := by
    intro f hf hshared
    rcases kfree_cases hk with ⟨-, rfl⟩ | ⟨hle, rfl⟩
    · exact PageEq.refl _ f
    · obtain ⟨b, hb, rfl, -⟩ := slot_mem hs
      have hbal := tables_aligned s.mem 2 r hal hb
      have hpal := PTE2PA_dvd (pte s.mem r v)
      have hne : b ≠ PTE2PA (pte s.mem r v) := fun he => hnt (he ▸ hb)
      have hcomm : sd64 (fill s.mem (PTE2PA (pte s.mem r v)) PGSIZE 1) (b + 8 * (v % 512)) 0#64 =
          fill (sd64 s.mem (b + 8 * (v % 512)) 0#64) (PTE2PA (pte s.mem r v)) PGSIZE 1 := by
        refine storeLE_fill_comm s.mem ?_
        unfold PGSIZE at hbal hpal ⊢
        omega
      rw [hcomm]
      refine pageEq_fill _ 1 hpal hf fun he => ?_
      have := hshared he
      omega
  have htab : ∀ f ∈ tables s.mem 2 r, PageEq (sd64 s.mem a 0#64) (sd64 s'.mem a 0#64) f := by
    intro f hf
    refine hmem f (tables_aligned s.mem 2 r hal hf) fun he => ?_
    exact absurd hf (he ▸ hnt)
  have htabs : tables (sd64 s.mem a 0#64) 2 r = tables s.mem 2 r := tables_store hnd hal hs 0#64
  have hview' : view (sd64 s'.mem a 0#64) r = ⟨tables s.mem 2 r, update (pte s.mem r) v 0#64⟩ := by
    rw [← hview]
    exact view_congr fun f hf => htab f (htabs ▸ hf)
  have hkeep' : Keeps s { s' with mem := sd64 s'.mem a 0#64 } rs held := by
    refine ⟨show s'.kend = s.kend from kfree_kend hk, fun f hf => ?_⟩
    refine (hkeep.same f hf).trans (hmem f (h.frame ?_).1 fun he => ?_)
    · rw [owners_views_cons]
      omega
    · -- a page with a second owner is not freed
      rw [h.counts.ref _ (h.frame hpos), owners_views_cons, ← he]
      have h1 : 0 < (view s.mem r).owns f := by
        have := leafCount_pos_iff.2 ⟨v, hv, hm⟩
        rw [he]
        unfold PT.owns
        omega
      omega
  have hviews : views (sd64 s'.mem a 0#64) (r :: rs) =
      ⟨tables s.mem 2 r, update (pte s.mem r) v 0#64⟩ :: views s.mem rs := by
    rw [← hkeep'.views, ← hview']
    rfl
  refine ⟨⟨?_, ?_, h.few, h.plain_cons hkeep' ?_⟩, hkeep', congrArg PT.leaf hview', ?_, ?_, ?_⟩
  · refine (h.counts.drop hpos hk).congr rfl rfl rfl fun f => ?_
    rw [hviews]
    exact owners_unmap _ _ _ _ hv hval f
  · show Shape (views (sd64 s'.mem a 0#64) (r :: rs)) held
    rw [hviews]
    exact Shape.unmap h.shape hv hval
  · exact (h.plain_store hs 0#64).congr fun f hf =>
      htab f (htabs ▸ interior_subset_tables _ 2 r hf)
  · rw [slot_congr v 2 r fun f hf => htab f (htabs ▸ interior_subset_tables _ 2 r hf), slot_store hnd hal hs 0#64 v]
    exact hs
  · intro u hu huv huval
    have hum : maps ((view s.mem r).leaf u) (PTE2PA (pte s.mem r u)) = true := maps_self huval
    have hunt := (Shape.not_held_of_maps h.shape hu hum).2 (view s.mem r) (.head _)
    refine (hother _ (PTE2PA_dvd _) hunt).trans (hmem _ (PTE2PA_dvd _) fun he => ?_)
    refine absurd (eq_of_leafCount_le_one ?_ hu hv hum ?_) huv
    · exact h.shape.leaf_le (view s.mem r) (.head _) _
    · rw [he]
      exact hm
  · rcases kfree_cases hk with ⟨-, rfl⟩ | ⟨-, rfl⟩
    · rfl
    · rfl

/-- A page that another table maps read-only is entered read-only, and counted. -/
theorem Ledger.share {w : Pte} (h : Ledger s (r :: rs) held) (hv : v < UPAGES)
    (hs : slot s.mem v 2 r = some a) (hinv : has (pte s.mem r v) PTE_V = false)
    (hval : has w PTE_V = true) (hnw : has w PTE_W = false) (hhigh : ∀ i, 62 ≤ i → w.getLsbD i = false)
    (hfresh : leafCount (pte s.mem r) (PTE2PA w) = 0) {r0 : Nat} (hr0 : r0 ∈ rs) {u0 : Nat}
    (hu0 : u0 < UPAGES) (hm0 : maps (pte s.mem r0 u0) (PTE2PA w) = true) (hw0 : has (pte s.mem r0 u0) PTE_W = false)
    (hk : incref (PTE2PA w) { s with mem := sd64 s.mem a w } = .ok ((), s')) :
    Ledger s' (r :: rs) held ∧ Keeps s s' rs held ∧
      pte s'.mem r = update (pte s.mem r) v w ∧ KeepsData s s' r ∧
      s'.exhausted = s.exhausted := by
  obtain ⟨hview, hother, hkeep⟩ := h.store_view (hv.trans UPAGES_lt) hs w
  have hpos : 0 < owners (views s.mem (r :: rs)) held (PTE2PA w) :=
    owners_pos_of_maps (T := view s.mem r0) (.tail _ (List.mem_map_of_mem hr0)) hu0 hm0
  have hviews : views (sd64 s.mem a w) (r :: rs) = ⟨tables s.mem 2 r, update (pte s.mem r) v w⟩ :: views s.mem rs := by
    rw [← hkeep.views, ← hview]
    rfl
  have hc : Counts { s with mem := sd64 s.mem a w } (owners (views s.mem (r :: rs)) held) :=
    h.counts.congr rfl rfl rfl fun _ => rfl
  have hadd := hc.add hpos (h.owners_lt _) hk
  cases hk
  refine ⟨⟨?_, ?_, h.few, h.plain_cons ⟨rfl, hkeep.same⟩ (h.plain_store hs w)⟩, ⟨rfl, hkeep.same⟩,
    congrArg PT.leaf hview, ?_, rfl⟩
  · refine hadd.congr rfl rfl rfl fun f => ?_
    rw [hviews]
    exact owners_share _ _ _ _ hv hinv hval f
  · show Shape (views (sd64 s.mem a w) (r :: rs)) held
    rw [hviews]
    exact Shape.share h.shape hv hinv hval hnw hhigh hfresh (List.mem_map_of_mem hr0) hu0 hm0 hw0
  · intro u hu huval
    have hm : maps ((view s.mem r).leaf u) (PTE2PA (pte s.mem r u)) = true := maps_self huval
    refine hother _ (PTE2PA_dvd _) ?_
    exact (Shape.not_held_of_maps h.shape hu hm).2 (view s.mem r) (.head _)

end Entries

end Xv6.Vm
