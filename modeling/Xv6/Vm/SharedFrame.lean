import Mathlib.Data.Finset.Card
import Xv6.Base.Transition
import Xv6.Vm.Riscv

/-!
# One frame shared copy on write

Any number of page tables map one frame `f` copy on write. Their faults (`CowHandler`), the teardown of a
table (`uvmunmap` with `do_free`) and `uvmcopy` interleave at the sections that a lock or a single store makes
atomic: `CowHandler` reads the count in one section of `reflock` and `kfree` lowers it in a later one, and
`kfree` puts the page on the free list in a third, under `kmem.lock`.

A table is known by the entry that maps the frame. What a process is doing to it is its program
counter; the table of a child is `made` while the `uvmcopy` of its parent works on it, and nobody else
does. A count is a natural number: a frame has at most one reference from each table, a table is a page of
memory itself, and so no 32-bit count wraps. Everything else in the kernel may allocate pages, free other
pages and change other counts at any time; after `f` is freed it may be allocated again.
-/

set_option autoImplicit false
set_option linter.unusedSectionVars false

namespace Xv6.Vm.Shared

open Function

variable {P : Type}

/-- What follows a `kfree`: `CowHandler` installs the copy, `uvmunmap` clears the entry. -/
inductive Next where
  | install (mem : Nat)
  | clear
  deriving DecidableEq, Repr

/-- What is being done to a page table. -/
inductive Pc (P : Type) where
  | idle
  -- CowHandler(va)
  | count
  | alloc
  | setref (mem : Nat)
  | move (mem : Nat)
  -- kfree(pa), from CowHandler or uvmunmap
  | kfree (pa : Nat) (k : Next)
  | kfreePush (pa : Nat) (k : Next)
  | ret (k : Next)
  -- uvmcopy(old, new, sz)
  | forkMark (new : P)
  | forkMap (new : P)
  | forkRef (new : P) (pa : Nat)
  | made
  deriving DecidableEq, Repr

/-- Entries, counts, free list, and the pages that `kalloc` has handed to other parts of the kernel without having
set their counts yet. -/
structure State (P : Type) where
  pte : P → Pte
  pgref : Nat → Nat
  freelist : List Nat
  taken : List Nat
  pc : P → Pc P

inductive Event where
  | silent
  /-- `kfree` puts the page on the free list. -/
  | push (pa : Nat)
  deriving DecidableEq, Repr

/-- The entry maps the frame. -/
def Maps (f : Nat) (w : Pte) : Prop := has w PTE_V = true ∧ PTE2PA w = f

/-- A page that `kfree` accepts. -/
def Valid (kend pa : Nat) : Prop := pa % PGSIZE = 0 ∧ kend ≤ pa ∧ pa < PHYSTOP

instance (f : Nat) (w : Pte) : Decidable (Maps f w) := inferInstanceAs (Decidable (_ ∧ _))

instance (kend pa : Nat) : Decidable (Valid kend pa) := inferInstanceAs (Decidable (_ ∧ _ ∧ _))

variable {q : P}

section Model

variable [DecidableEq P]

def State.go (s : State P) (p : P) (c : Pc P) : State P := { s with pc := update s.pc p c }

def State.setPte (s : State P) (p : P) (w : Pte) : State P :=
  { s with pte := update s.pte p w }

def State.setCount (s : State P) (pa n : Nat) : State P :=
  { s with pgref := update s.pgref (PGINDEX pa) n }

@[simp] theorem State.go_self (s : State P) (p : P) (c : Pc P) : (s.go p c).pc p = c := by
  simp [State.go]

theorem State.go_other (s : State P) {p : P} (c : Pc P) (h : q ≠ p) : (s.go p c).pc q = s.pc q := by
  simp [State.go, h]

/-- The entry after `CowHandler` has found that it is the only one. -/
def ownEntry (w : Pte) : Pte := (w &&& ~~~PTE_COW) ||| PTE_W

/-- The entry after `CowHandler` has copied the page to `mem`. -/
def copyEntry (mem : Nat) (w : Pte) : Pte := (PA2PTE mem ||| PTE_W ||| PTE_FLAGS w) &&& ~~~PTE_COW

/-- The parent's entry after `uvmcopy` has marked it. -/
def markEntry (w : Pte) : Pte :=
  if has w PTE_W || has w PTE_COW then (w &&& ~~~PTE_W) ||| PTE_COW else w

/-- Atomic sections. -/
inductive Step (kend f : Nat) : State P → Event → State P → Prop
  -- CowHandler: the tests of the entry, and the section that reads the count
  | fault (s : State P) (p : P) : s.pc p = .idle → Maps f (s.pte p) → has (s.pte p) PTE_U = true →
      has (s.pte p) PTE_COW = true → Step kend f s .silent (s.go p .count)
  | count (s : State P) (p : P) : s.pc p = .count →
      Step kend f s .silent
        (if s.pgref (PGINDEX (s.pte p).toNat) = 1 then (s.setPte p (ownEntry (s.pte p))).go p .idle
          else s.go p .alloc)
  -- kalloc: off the list under kmem.lock, then the count under reflock
  | allocFail (s : State P) (p : P) : s.pc p = .alloc → s.freelist = [] →
      Step kend f s .silent (s.go p .idle)
  | alloc (s : State P) (p : P) (mem : Nat) (next : List Nat) : s.pc p = .alloc →
      s.freelist = mem :: next →
      Step kend f s .silent ({ s with freelist := next }.go p (.setref mem))
  | setref (s : State P) (p : P) (mem : Nat) : s.pc p = .setref mem →
      Step kend f s .silent ((s.setCount mem 1).go p (.move mem))
  | move (s : State P) (p : P) (mem : Nat) : s.pc p = .move mem →
      Step kend f s .silent (s.go p (.kfree (PTE2PA (s.pte p)) (.install mem)))
  -- kfree: the section of reflock, then the push
  | kfree (s : State P) (p : P) (pa : Nat) (k : Next) : s.pc p = .kfree pa k → Valid kend pa →
      Step kend f s .silent
        (if 1 < s.pgref (PGINDEX pa) then (s.setCount pa (s.pgref (PGINDEX pa) - 1)).go p (.ret k)
          else (s.setCount pa 0).go p (.kfreePush pa k))
  | push (s : State P) (p : P) (pa : Nat) (k : Next) : s.pc p = .kfreePush pa k →
      Step kend f s (.push pa) ({ s with freelist := pa :: s.freelist }.go p (.ret k))
  | install (s : State P) (p : P) (mem : Nat) : s.pc p = .ret (.install mem) →
      Step kend f s .silent ((s.setPte p (copyEntry mem (s.pte p))).go p .idle)
  -- uvmunmap with do_free
  | unmap (s : State P) (p : P) : s.pc p = .idle → Maps f (s.pte p) →
      Step kend f s .silent (s.go p (.kfree (PTE2PA (s.pte p)) .clear))
  | clear (s : State P) (p : P) : s.pc p = .ret .clear →
      Step kend f s .silent ((s.setPte p 0).go p .idle)
  -- uvmcopy into the empty table of a child
  | fork (s : State P) (p q : P) : s.pc p = .idle → Maps f (s.pte p) → q ≠ p → s.pc q = .idle →
      s.pte q = 0 → Step kend f s .silent ((s.go p (.forkMark q)).go q .made)
  | mark (s : State P) (p q : P) : s.pc p = .forkMark q →
      Step kend f s .silent ((s.setPte p (markEntry (s.pte p))).go p (.forkMap q))
  | mapFail (s : State P) (p q : P) : s.pc p = .forkMap q →
      Step kend f s .silent ((s.go p .idle).go q .idle)
  | map (s : State P) (p q : P) : s.pc p = .forkMap q →
      Step kend f s .silent
        ((s.setPte q (newEntry (PTE2PA (s.pte p)) (PTE_FLAGS (s.pte p)))).go p
          (.forkRef q (PTE2PA (s.pte p))))
  | incref (s : State P) (p q : P) (pa : Nat) : s.pc p = .forkRef q pa →
      Step kend f s .silent
        (((s.setCount pa (s.pgref (PGINDEX pa) + 1)).go p .idle).go q .idle)
  -- the rest of the kernel
  | otherAlloc (s : State P) (mem : Nat) (next : List Nat) : s.freelist = mem :: next →
      Step kend f s .silent { s with freelist := next, taken := mem :: s.taken }
  | otherSetref (s : State P) (mem : Nat) : mem ∈ s.taken →
      Step kend f s .silent ({ s with taken := s.taken.erase mem }.setCount mem 1)
  | otherCount (s : State P) (pa n : Nat) : pa % PGSIZE = 0 → pa ≠ f →
      Step kend f s .silent (s.setCount pa n)
  | otherPush (s : State P) (pa : Nat) : Valid kend pa → pa ≠ f →
      Step kend f s (.push pa) { s with freelist := pa :: s.freelist }

end Model

/-- A good start: the frame has as many references as tables that map it, all of them copy on write, and at
least one; nobody is working on a table, and the frame is in use. -/
structure Start (kend f : Nat) (s : State P) : Prop where
  frame : Valid kend f
  idle : ∀ p, s.pc p = .idle
  sharers : ∃ R : Finset P, R.Nonempty ∧ (∀ p, p ∈ R ↔ Maps f (s.pte p)) ∧
    s.pgref (PGINDEX f) = R.card
  cow : ∀ p, Maps f (s.pte p) → has (s.pte p) PTE_U = true ∧ has (s.pte p) PTE_COW = true
  used : f ∉ s.freelist ∧ f ∉ s.taken
  pages : ∀ pa, pa ∈ s.freelist ∨ pa ∈ s.taken → Valid kend pa

/-! ## What the entries say -/

theorem not_maps_zero (f : Nat) : ¬Maps f 0 := by
  rintro ⟨h, -⟩
  rw [show (0 : Pte) = 0#64 from rfl, has_zero] at h
  cases h

variable {w : Pte}

theorem maps_of_bits {f : Nat} {w' : Pte} (h0 : w'.getLsbD 0 = w.getLsbD 0)
    (h : ∀ i, 10 ≤ i → w'.getLsbD i = w.getLsbD i) : Maps f w' ↔ Maps f w := by
  unfold Maps
  rw [has_V, has_V, h0, PTE2PA_congr h]

/-- Changing flags other than `PTE_V` does not change what an entry maps. -/
theorem maps_flags (f : Nat) (w : Pte) {a b : Nat} (ha : a < 10) (hb : b < 10) (ha0 : a ≠ 0) (hb0 : b ≠ 0) :
    Maps f ((w &&& ~~~BitVec.twoPow 64 a) ||| BitVec.twoPow 64 b) ↔ Maps f w := by
  have hbit : ∀ i, a ≠ i → b ≠ i → ((w &&& ~~~BitVec.twoPow 64 a) ||| BitVec.twoPow 64 b).getLsbD i = w.getLsbD i := by
    intro i hai hbi
    rw [BitVec.getLsbD_or, BitVec.getLsbD_and, BitVec.getLsbD_not, getLsbD_flag (by omega), getLsbD_flag (by omega)]
    by_cases h64 : i < 64
    · simp [hai, hbi, h64]
    · simp [hbi, h64, BitVec.getLsbD_of_ge w i (by omega)]
  exact maps_of_bits (hbit 0 ha0 hb0) fun i hi => hbit i (by omega) (by omega)

theorem maps_ownEntry (f : Nat) (w : Pte) : Maps f (ownEntry w) ↔ Maps f w :=
  maps_flags f w (by decide) (by decide) (by decide) (by decide)

theorem maps_markEntry (f : Nat) (w : Pte) : Maps f (markEntry w) ↔ Maps f w := by
  unfold markEntry
  split
  · exact maps_flags f w (by decide) (by decide) (by decide) (by decide)
  · exact Iff.rfl

theorem maps_newEntry {f : Nat} (hf : f % PGSIZE = 0) (hlt : f < 2 ^ 64) : Maps f (newEntry f (PTE_FLAGS w)) := by
  refine ⟨newEntry_valid f _, PTE2PA_newEntry hf hlt fun i hi => ?_⟩
  rw [getLsbD_PTE_FLAGS]
  simp
  omega

/-- A copy is on another page. -/
theorem not_maps_copyEntry {f mem : Nat} {w : Pte} (hmem : mem % PGSIZE = 0) (hlt : mem < 2 ^ 64)
    (hne : mem ≠ f) : ¬Maps f (copyEntry mem w) := by
  rintro ⟨-, h⟩
  have hbits : PTE2PA (copyEntry mem w) = PTE2PA (PA2PTE mem ||| (PTE_W ||| PTE_FLAGS w)) := by
    refine PTE2PA_congr fun i hi => ?_
    unfold copyEntry PTE_COW
    rw [BitVec.or_assoc, BitVec.getLsbD_and, BitVec.getLsbD_not, getLsbD_flag (by decide)]
    have h8 : ¬8 = i := by omega
    by_cases h64 : i < 64
    · simp [h8, h64]
    · rw [BitVec.getLsbD_of_ge _ i (by omega)]
      rfl
  rw [hbits, PTE2PA_PA2PTE_or _ hmem hlt fun i hi => ?_] at h
  · exact hne h
  · rw [BitVec.getLsbD_or, getLsbD_PTE_FLAGS]
    unfold PTE_W
    rw [getLsbD_flag (by decide)]
    simp
    omega

theorem PGINDEX_ne {a b : Nat} (ha : a % PGSIZE = 0) (hb : b % PGSIZE = 0) (h : a ≠ b) : PGINDEX a ≠ PGINDEX b := by
  unfold PGSIZE at ha hb
  unfold PGINDEX PGSHIFT
  omega

variable {pa : Nat}

theorem Valid.lt {kend : Nat} (h : Valid kend pa) : pa < 2 ^ 64 :=
  h.2.2.trans (by decide)

/-! ## The invariant -/

/-- The reference of the process's entry is still counted: it has not come through the first section of its
`kfree`, and it is not the new entry of a child. -/
def Pc.counts : Pc P → Bool
  | .kfreePush _ _ | .ret _ | .made => false
  | _ => true

/-- The table of the child that `uvmcopy` is working on. -/
def Pc.child : Pc P → Option P
  | .forkMark q | .forkMap q | .forkRef q _ => some q
  | _ => none

/-- The table maps the frame, and its reference is counted. -/
def Holds (f : Nat) (s : State P) (p : P) : Prop := Maps f (s.pte p) ∧ (s.pc p).counts = true

/-- The process is about to put the frame on the free list. -/
def Pushing (f : Nat) (s : State P) (p : P) : Prop := ∃ k, s.pc p = .kfreePush f k

def Next.Ok (kend f : Nat) : Next → Prop
  | .install mem => Valid kend mem ∧ mem ≠ f
  | .clear => True

/-- What a process at place `c` knows about its entry and about the child it is making. -/
def PcOk (kend f : Nat) (s : State P) (p : P) (c : Pc P) : Prop :=
  match c with
  | .idle => True
  | .count | .alloc => Maps f (s.pte p)
  | .setref mem | .move mem => Maps f (s.pte p) ∧ Valid kend mem ∧ mem ≠ f
  | .kfree pa k | .kfreePush pa k => Maps f (s.pte p) ∧ pa = f ∧ k.Ok kend f
  | .ret k => Maps f (s.pte p) ∧ k.Ok kend f
  | .forkMark q | .forkMap q => Maps f (s.pte p) ∧ q ≠ p ∧ s.pc q = .made ∧ s.pte q = 0
  | .forkRef q pa => Maps f (s.pte p) ∧ q ≠ p ∧ s.pc q = .made ∧ Maps f (s.pte q) ∧ pa = f
  | .made => ∃ r, (s.pc r).child = some p

/-- While somebody holds the frame, the count is the number of holders and the frame is nowhere on its way
to the free list. Once nobody does, it has been pushed once, or one process is about to. -/
def Counted (f : Nat) (ls : List Event) (s : State P) (R : Finset P) : Prop :=
  (R.Nonempty → s.pgref (PGINDEX f) = R.card ∧ f ∉ s.freelist ∧ f ∉ s.taken ∧
    (∀ p, ¬Pushing f s p) ∧ ls.count (.push f) = 0) ∧
  (R = ∅ → (ls.count (.push f) = 0 ∧ ∃! p, Pushing f s p) ∨
    (ls.count (.push f) = 1 ∧ ∀ p, ¬Pushing f s p))

structure Inv (kend f : Nat) (ls : List Event) (s : State P) : Prop where
  frame : Valid kend f
  pages : ∀ pa, pa ∈ s.freelist ∨ pa ∈ s.taken → Valid kend pa
  pcs : ∀ p, PcOk kend f s p (s.pc p)
  unique : ∀ {p r q}, (s.pc p).child = some q → (s.pc r).child = some q → p = r
  refs : ∃ R : Finset P, (∀ p, p ∈ R ↔ Holds f s p) ∧ Counted f ls s R

section Steps

variable [DecidableEq P] {kend f : Nat} {s t : State P} {ls : List Event} {p : P}

section

variable (h : Inv kend f ls s)
include h

/-- The table that a process works on for its child is made, and only by that process. -/
theorem Inv.child_made (hc : (s.pc p).child = some q) : q ≠ p ∧ s.pc q = .made := by
  have hok := h.pcs p
  cases hs : s.pc p with
  | forkMark r | forkMap r | forkRef r =>
    rw [hs] at hok hc
    cases hc
    exact ⟨hok.2.1, hok.2.2.1⟩
  | idle | count | alloc | setref | move | kfree | kfreePush | ret | made =>
    rw [hs] at hc
    cases hc

/-- A step of a process and of the child it is making, if any, leaves the others alone. -/
theorem Inv.others {r : P}
    (hpc : ∀ r, r ≠ p → r ≠ q → t.pc r = s.pc r) (hpte : ∀ r, r ≠ p → r ≠ q → t.pte r = s.pte r)
    (hp : s.pc p ≠ .made) (hq : ∀ r, r ≠ p → (s.pc r).child ≠ some q)
    (hchild : ∀ r, (s.pc p).child = some r → r = q) (hqc : q ≠ p → (s.pc q).child = none)
    (hrp : r ≠ p) (hrq : r ≠ q) : PcOk kend f t r (t.pc r) := by
  have hok := h.pcs r
  unfold PcOk at hok ⊢
  rw [hpc r hrp hrq, hpte r hrp hrq]
  cases hs : s.pc r with
  | forkMark c | forkMap c | forkRef c =>
    rw [hs] at hok
    obtain ⟨hm, hcr, hc, hrest⟩ := hok
    -- the child of `r` is not one of the two tables that change
    have hcp : c ≠ p := by
      rintro rfl
      exact hp hc
    have hcq : c ≠ q := by
      rintro rfl
      exact hq r hrp (by rw [hs]; rfl)
    exact ⟨hm, hcr, by rw [hpc c hcp hcq]; exact hc, by rw [hpte c hcp hcq]; exact hrest⟩
  | made =>
    rw [hs] at hok
    obtain ⟨c, hc⟩ := hok
    have hcp : c ≠ p := by
      rintro rfl
      exact hrq (hchild r hc)
    have hcq : c ≠ q := by
      rintro rfl
      rw [hqc hcp] at hc
      cases hc
    exact ⟨c, by rw [hpc c hcp hcq]; exact hc⟩
  | idle | count | alloc | setref | move | kfree | kfreePush | ret => rw [hs] at hok; exact hok

theorem Inv.solo_pcs (hpc : ∀ q, q ≠ p → t.pc q = s.pc q)
    (hpte : ∀ q, q ≠ p → t.pte q = s.pte q) (hmade : s.pc p ≠ .made) (hchild : (s.pc p).child = none)
    (hok : PcOk kend f t p (t.pc p)) (q : P) : PcOk kend f t q (t.pc q) := by
  by_cases hq : q = p
  · exact hq ▸ hok
  · refine h.others (q := p) (fun r hr _ => hpc r hr) (fun r hr _ => hpte r hr) hmade
      (fun r _ hr => hmade (h.child_made hr).2) (fun r hr => ?_) (fun hne => absurd rfl hne) hq hq
    rw [hchild] at hr
    cases hr

theorem Inv.solo_unique (hpc : ∀ q, q ≠ p → t.pc q = s.pc q)
    (hchild : (t.pc p).child = none) {a b : P} (ha : (t.pc a).child = some q)
    (hb : (t.pc b).child = some q) : a = b := by
  have hne : ∀ {c}, (t.pc c).child = some q → c ≠ p := by
    rintro c hc rfl
    rw [hchild] at hc
    cases hc
  rw [hpc a (hne ha)] at ha
  rw [hpc b (hne hb)] at hb
  exact h.unique ha hb

/-- A step that changes neither who holds the frame nor who is about to push it. -/
theorem Inv.quiet {ev : Event} (hholds : ∀ q, Holds f t q ↔ Holds f s q)
    (hpush : ∀ q, Pushing f t q ↔ Pushing f s q) (hev : ev ≠ .push f)
    (hcount : (∃ q, Holds f s q) → f ∉ s.freelist → f ∉ s.taken →
      t.pgref (PGINDEX f) = s.pgref (PGINDEX f) ∧ f ∉ t.freelist ∧ f ∉ t.taken) :
    ∃ R : Finset P, (∀ q, q ∈ R ↔ Holds f t q) ∧ Counted f (ls ++ [ev]) t R := by
  obtain ⟨R, hR, hsome, hnone⟩ := h.refs
  have hls : (ls ++ [ev]).count (.push f) = ls.count (.push f) := by
    simp [List.count_append, hev]
  refine ⟨R, fun q => (hR q).trans (hholds q).symm, fun hne => ?_, fun he => ?_⟩
  · obtain ⟨hc, hf, ht, hp, hz⟩ := hsome hne
    obtain ⟨q, hq⟩ := hne
    obtain ⟨hc', hf', ht'⟩ := hcount ⟨q, (hR q).1 hq⟩ hf ht
    exact ⟨hc'.trans hc, hf', ht', fun q hq => hp q ((hpush q).1 hq), hls.trans hz⟩
  · rw [hls]
    simp only [hpush]
    exact hnone he

end

variable {c : Pc P}

/-- A step of one process that keeps its reference, if it has one. -/
theorem Inv.calm (h : Inv kend f ls s) (hpc : t.pc = update s.pc p c) (hpte : t.pte = update s.pte p w)
    (hmade : s.pc p ≠ .made) (hchild : (s.pc p).child = none) (hchild' : c.child = none)
    (hok : PcOk kend f t p c) (hholds : Maps f w ∧ c.counts = true ↔ Holds f s p)
    (hpush : ∀ k, s.pc p ≠ .kfreePush f k) (hpush' : ∀ k, c ≠ .kfreePush f k)
    (hpages : ∀ pa, pa ∈ t.freelist ∨ pa ∈ t.taken → Valid kend pa)
    (hcount : (∃ q, Holds f s q) → f ∉ s.freelist → f ∉ s.taken →
      t.pgref (PGINDEX f) = s.pgref (PGINDEX f) ∧ f ∉ t.freelist ∧ f ∉ t.taken) : Inv kend f (ls ++ [.silent]) t := by
  have hpc' : ∀ q, q ≠ p → t.pc q = s.pc q := fun q hq => by rw [hpc, update_of_ne hq]
  have hpte' : ∀ q, q ≠ p → t.pte q = s.pte q := fun q hq => by rw [hpte, update_of_ne hq]
  refine ⟨h.frame, hpages, h.solo_pcs hpc' hpte' hmade hchild (by rw [hpc, update_self]; exact hok),
    h.solo_unique hpc' (by rw [hpc, update_self]; exact hchild'),
    h.quiet (fun q => ?_) (fun q => ?_) (by simp) hcount⟩
  · by_cases hq : q = p
    · subst hq
      unfold Holds at hholds ⊢
      rw [hpc, hpte, update_self, update_self]
      exact hholds
    · unfold Holds
      rw [hpc' q hq, hpte' q hq]
  · by_cases hq : q = p
    · subst hq
      unfold Pushing
      rw [hpc, update_self]
      exact ⟨fun ⟨k, hk⟩ => absurd hk (hpush' k), fun ⟨k, hk⟩ => absurd hk (hpush k)⟩
    · unfold Pushing
      rw [hpc' q hq]

/-- Going on to another place with the same entry, nothing else changing. -/
theorem Inv.go (h : Inv kend f ls s) (hmade : s.pc p ≠ .made)
    (hchild : (s.pc p).child = none) (hchild' : c.child = none) (hok : PcOk kend f (s.go p c) p c)
    (hcounts : c.counts = (s.pc p).counts) (hpush : ∀ k, s.pc p ≠ .kfreePush f k)
    (hpush' : ∀ k, c ≠ .kfreePush f k) : Inv kend f (ls ++ [.silent]) (s.go p c) :=
  h.calm rfl (by rw [update_eq_self]; rfl) hmade hchild hchild' hok (by rw [hcounts]; rfl)
    hpush hpush' h.pages fun _ hf ht => ⟨rfl, hf, ht⟩

/-! ### CowHandler and the allocator -/

theorem Inv.count (h : Inv kend f ls s) (hc : s.pc p = .count) : Inv kend f (ls ++ [.silent])
      (if s.pgref (PGINDEX (s.pte p).toNat) = 1 then (s.setPte p (ownEntry (s.pte p))).go p .idle
        else s.go p .alloc) := by
  have hok := h.pcs p
  rw [hc] at hok
  split
  · -- the entry stays on the frame, whatever the count that was read belongs to
    refine h.calm rfl rfl (by simp [hc]) (by rw [hc]; rfl) rfl trivial ?_ (by simp [hc]) (by simp)
      h.pages fun _ hf ht => ⟨rfl, hf, ht⟩
    rw [maps_ownEntry]
    unfold Holds
    rw [hc]
    rfl
  · exact h.go (by simp [hc]) (by rw [hc]; rfl) rfl hok (by rw [hc]; rfl) (by simp [hc]) (by simp)

/-- The page that `kalloc` finds is not the frame: the process still holds that. -/
theorem Inv.alloc (h : Inv kend f ls s) {mem : Nat} {next : List Nat} (hc : s.pc p = .alloc)
    (hfree : s.freelist = mem :: next) :
    Inv kend f (ls ++ [.silent]) ({ s with freelist := next }.go p (.setref mem)) := by
  have hok := h.pcs p
  rw [hc] at hok
  obtain ⟨R, hR, hsome, -⟩ := h.refs
  have hp : p ∈ R := (hR p).2 ⟨hok, by rw [hc]; rfl⟩
  have hf : f ∉ s.freelist := (hsome ⟨p, hp⟩).2.1
  rw [hfree, List.mem_cons, not_or] at hf
  refine h.calm (w := s.pte p) rfl (update_eq_self p s.pte).symm (by simp [hc])
    (by rw [hc]; rfl) rfl ?_ (by unfold Holds; rw [hc]; rfl) (by simp [hc]) (by simp) ?_ ?_
  · exact ⟨hok, h.pages mem (.inl (by rw [hfree]; exact .head _)), Ne.symm hf.1⟩
  · intro pa hpa
    refine h.pages pa (hpa.imp_left fun hmem => ?_)
    rw [hfree]
    exact .tail _ hmem
  · exact fun _ _ ht => ⟨rfl, hf.2, ht⟩

theorem setCount_ne (h : Valid kend f) {n : Nat} (hpa : pa % PGSIZE = 0) (hne : pa ≠ f) :
    (s.setCount pa n).pgref (PGINDEX f) = s.pgref (PGINDEX f) :=
  update_of_ne (PGINDEX_ne h.1 hpa (Ne.symm hne)) _ _

theorem Inv.setref (h : Inv kend f ls s) {mem : Nat} (hc : s.pc p = .setref mem) :
    Inv kend f (ls ++ [.silent]) ((s.setCount mem 1).go p (.move mem)) := by
  have hok := h.pcs p
  rw [hc] at hok
  exact h.calm (w := s.pte p) rfl (update_eq_self p s.pte).symm (by simp [hc])
    (by rw [hc]; rfl) rfl hok (by unfold Holds; rw [hc]; rfl) (by simp [hc]) (by simp) h.pages
    fun _ hf ht => ⟨setCount_ne h.frame hok.2.1.1 hok.2.2, hf, ht⟩

variable {k : Next}

/-- A process is done with the frame: its entry goes elsewhere after its `kfree`. -/
theorem Inv.leave (h : Inv kend f ls s) (hc : s.pc p = .ret k)
    (hw : ¬Maps f w) : Inv kend f (ls ++ [.silent]) ((s.setPte p w).go p .idle) := by
  refine h.calm rfl rfl (by simp [hc]) (by rw [hc]; rfl) rfl trivial ?_ (by simp [hc]) (by simp)
    h.pages fun _ hf ht => ⟨rfl, hf, ht⟩
  unfold Holds
  rw [hc]
  exact ⟨fun hm => absurd hm.1 hw, fun hm => nomatch hm.2⟩

/-! ### kfree -/

/-- The first section of `kfree` gives up one reference; the one that gives up the last will push the
frame. -/
theorem Inv.kfree (h : Inv kend f ls s) (hc : s.pc p = .kfree pa k) : Inv kend f (ls ++ [.silent])
      (if 1 < s.pgref (PGINDEX pa) then (s.setCount pa (s.pgref (PGINDEX pa) - 1)).go p (.ret k)
        else (s.setCount pa 0).go p (.kfreePush pa k)) := by
  have hok := h.pcs p
  rw [hc] at hok
  obtain ⟨hm, rfl, hk⟩ := hok
  obtain ⟨R, hR, hsome, -⟩ := h.refs
  have hp : p ∈ R := (hR p).2 ⟨hm, by rw [hc]; rfl⟩
  obtain ⟨hcount, hfree, htaken, hnot, hls⟩ := hsome ⟨p, hp⟩
  have hls' : (ls ++ [Event.silent]).count (.push pa) = 0 := by simp [hls]
  -- whatever place it goes on to, the other holders are still holders
  have hholds : ∀ {c : Pc P} {n : Nat}, c.counts = false → ∀ q,
      (q ∈ R.erase p ↔ Holds pa ((s.setCount pa n).go p c) q) := by
    intro c n hcc q
    rw [Finset.mem_erase, hR]
    by_cases hq : q = p
    · subst hq
      refine ⟨fun h => absurd rfl h.1, fun h => ?_⟩
      have hcounts := h.2
      rw [State.go_self, hcc] at hcounts
      cases hcounts
    · unfold Holds
      rw [State.go_other _ _ hq]
      exact and_iff_right hq
  have hcard : (R.erase p).card + 1 = R.card := Finset.card_erase_add_one hp
  have hpc : ∀ {c : Pc P} {n : Nat} q, q ≠ p → ((s.setCount pa n).go p c).pc q = s.pc q :=
    fun q hq => State.go_other _ _ hq
  split
  · rename_i hlt
    refine ⟨h.frame, h.pages, h.solo_pcs hpc (fun _ _ => rfl) (by simp [hc]) (by rw [hc]; rfl) ?_,
      h.solo_unique hpc ?_, R.erase p, hholds rfl, fun _ => ?_, fun he => ?_⟩
    · rw [State.go_self]
      exact ⟨hm, hk⟩
    · rw [State.go_self]
      rfl
    · refine ⟨?_, hfree, htaken, fun q hq => ?_, hls'⟩
      · have hset : ((s.setCount pa (s.pgref (PGINDEX pa) - 1)).go p (.ret k)).pgref (PGINDEX pa) =
            s.pgref (PGINDEX pa) - 1 := update_self _ _ _
        omega
      · obtain ⟨k', hk'⟩ := hq
        by_cases hqp : q = p
        · rw [hqp, State.go_self] at hk'
          cases hk'
        · rw [hpc q hqp] at hk'
          exact hnot q ⟨k', hk'⟩
    · rw [he, Finset.card_empty] at hcard
      omega
  · rename_i hlt
    have hone : R.erase p = ∅ := by
      rw [← Finset.card_eq_zero]
      omega
    refine ⟨h.frame, h.pages, h.solo_pcs hpc (fun _ _ => rfl) (by simp [hc]) (by rw [hc]; rfl) ?_,
      h.solo_unique hpc ?_, R.erase p, hholds rfl, fun hne => ?_, fun _ => .inl ⟨hls', p, ?_, ?_⟩⟩
    · rw [State.go_self]
      exact ⟨hm, rfl, hk⟩
    · rw [State.go_self]
      rfl
    · rw [hone] at hne
      exact absurd hne Finset.not_nonempty_empty
    · exact ⟨k, State.go_self _ _ _⟩
    · rintro q ⟨k', hk'⟩
      by_contra hqp
      rw [hpc q hqp] at hk'
      exact hnot q ⟨k', hk'⟩

/-- The push: nobody holds the frame any more, and nobody else is about to push it. -/
theorem Inv.push (h : Inv kend f ls s) (hc : s.pc p = .kfreePush pa k) :
    Inv kend f (ls ++ [.push pa]) ({ s with freelist := pa :: s.freelist }.go p (.ret k)) := by
  have hok := h.pcs p
  rw [hc] at hok
  obtain ⟨hm, rfl, hk⟩ := hok
  obtain ⟨R, hR, hsome, hnone⟩ := h.refs
  have hpush : Pushing pa s p := ⟨k, hc⟩
  have hR0 : R = ∅ := by
    rw [← Finset.not_nonempty_iff_eq_empty]
    exact fun hne => (hsome hne).2.2.2.1 p hpush
  have hpc : ∀ q, q ≠ p → (({ s with freelist := pa :: s.freelist } : State P).go p (.ret k)).pc q = s.pc q :=
    fun q hq => State.go_other _ _ hq
  refine ⟨h.frame, ?_, h.solo_pcs hpc (fun _ _ => rfl) (by simp [hc]) (by rw [hc]; rfl) ?_,
    h.solo_unique hpc ?_, R, fun q => ?_, fun hne => ?_, fun _ => ?_⟩
  · rintro a ((_ | ⟨_, ha⟩) | ha)
    · exact h.frame
    · exact h.pages a (.inl ha)
    · exact h.pages a (.inr ha)
  · rw [State.go_self]
    exact ⟨hm, hk⟩
  · rw [State.go_self]
    rfl
  · rw [hR]
    by_cases hq : q = p
    · subst hq
      unfold Holds
      rw [State.go_self, hc]
      rfl
    · unfold Holds
      rw [hpc q hq]
      rfl
  · rw [hR0] at hne
    exact absurd hne Finset.not_nonempty_empty
  · rcases hnone hR0 with ⟨hz, p', -, huniq⟩ | ⟨-, hno⟩
    · refine .inr ⟨by simp [hz], fun q hq => ?_⟩
      obtain ⟨k', hk'⟩ := hq
      by_cases hqp : q = p
      · rw [hqp, State.go_self] at hk'
        cases hk'
      · rw [hpc q hqp] at hk'
        exact hqp ((huniq q ⟨k', hk'⟩).trans (huniq p hpush).symm)
    · exact absurd hpush (hno p)

/-! ### uvmcopy -/

section

variable (h : Inv kend f ls s)
include h

theorem Inv.fork (hc : s.pc p = .idle) (hm : Maps f (s.pte p))
    (hne : q ≠ p) (hq : s.pc q = .idle) (hz : s.pte q = 0) :
    Inv kend f (ls ++ [.silent]) ((s.go p (.forkMark q)).go q .made) := by
  have hpcp : ((s.go p (.forkMark q)).go q .made).pc p = .forkMark q := by
    rw [State.go_other _ _ hne.symm, State.go_self]
  have hpc : ∀ r, r ≠ p → r ≠ q → ((s.go p (.forkMark q)).go q .made).pc r = s.pc r := by
    intro r hrp hrq
    rw [State.go_other _ _ hrq, State.go_other _ _ hrp]
  -- nobody is making the child's table yet
  have hfresh : ∀ r, (s.pc r).child ≠ some q := by
    intro r hr
    have hmade := (h.child_made hr).2
    rw [hq] at hmade
    cases hmade
  refine ⟨h.frame, h.pages, fun r => ?_, fun {a b c} ha hb => ?_,
    h.quiet (fun r => ?_) (fun r => ?_) (by simp) fun _ hf ht => ⟨rfl, hf, ht⟩⟩
  · by_cases hrq : r = q
    · subst hrq
      rw [State.go_self]
      exact ⟨p, by rw [hpcp]; rfl⟩
    by_cases hrp : r = p
    · subst hrp
      rw [hpcp]
      exact ⟨hm, hne, State.go_self _ _ _, hz⟩
    refine h.others hpc (fun _ _ _ => rfl) (by simp [hc]) (fun r _ => hfresh r) (fun r hr => ?_)
      (fun _ => by rw [hq]; rfl) hrp hrq
    rw [hc] at hr
    cases hr
  · have hold : ∀ {a}, (((s.go p (.forkMark q)).go q .made).pc a).child = some c → a ≠ p →
        c ≠ q ∧ (s.pc a).child = some c := by
      intro a ha hap
      have haq : a ≠ q := by
        rintro rfl
        rw [State.go_self] at ha
        cases ha
      rw [hpc a hap haq] at ha
      exact ⟨fun hcq => hfresh a (hcq ▸ ha), ha⟩
    have hnew : (((s.go p (.forkMark q)).go q .made).pc p).child = some c → c = q := by
      rw [hpcp]
      rintro ⟨⟩
      rfl
    by_cases hap : a = p <;> by_cases hbp : b = p
    · rw [hap, hbp]
    · rw [hap] at ha
      exact absurd (hnew ha) (hold hb hbp).1
    · rw [hbp] at hb
      exact absurd (hnew hb) (hold ha hap).1
    · exact h.unique (hold ha hap).2 (hold hb hbp).2
  · unfold Holds
    by_cases hrq : r = q
    · subst hrq
      have hnot : ¬Maps f (s.pte r) := by
        rw [hz]
        exact not_maps_zero f
      exact ⟨fun hr => absurd hr.1 hnot, fun hr => absurd hr.1 hnot⟩
    by_cases hrp : r = p
    · rw [hrp, hpcp, hc]
      rfl
    · rw [hpc r hrp hrq]
      rfl
  · unfold Pushing
    by_cases hrq : r = q
    · rw [hrq, State.go_self, hq]
      simp
    by_cases hrp : r = p
    · rw [hrp, hpcp, hc]
      simp
    · rw [hpc r hrp hrq]

/-- A step of `uvmcopy` on the frame that ends neither its work nor the child's. -/
theorem Inv.forking (hc : (s.pc p).child = some q)
    (hpc : t.pc = update s.pc p c) (hpte : ∀ r, r ≠ p → r ≠ q → t.pte r = s.pte r)
    (hchild : c.child = some q) (hok : PcOk kend f t p c)
    (hmaps : Maps f (t.pte p) ↔ Maps f (s.pte p)) (hpages : t.freelist = s.freelist)
    (hcount : t.pgref = s.pgref ∧ t.taken = s.taken) : Inv kend f (ls ++ [.silent]) t := by
  obtain ⟨hne, hmade⟩ := h.child_made hc
  have hpcp : t.pc p = c := by rw [hpc, update_self]
  have hpc' : ∀ r, r ≠ p → t.pc r = s.pc r := fun r hr => by rw [hpc, update_of_ne hr]
  have hsame : ∀ r, (t.pc r).child = (s.pc r).child := by
    intro r
    by_cases hr : r = p
    · rw [hr, hpcp, hchild, hc]
    · rw [hpc' r hr]
  have hp : s.pc p ≠ .made := by
    intro hp
    rw [hp] at hc
    cases hc
  -- a process with a child is at work on the frame, before any `kfree`
  have hworks : ∀ {c : Pc P}, c.child = some q → c.counts = true ∧ ∀ k, c ≠ .kfreePush f k := by
    intro c hc
    cases c <;> first | exact ⟨rfl, nofun⟩ | cases hc
  refine ⟨h.frame, by rw [hpages, hcount.2]; exact h.pages, fun r => ?_, fun {a b _} ha hb => ?_,
    h.quiet (fun r => ?_) (fun r => ?_) (by simp) fun _ hf ht => ?_⟩
  · by_cases hrp : r = p
    · rw [hrp, hpcp]
      exact hok
    by_cases hrq : r = q
    · subst hrq
      rw [hpc' r hrp, hmade]
      exact ⟨p, (hsame p).trans hc⟩
    refine h.others (fun r hr _ => hpc' r hr) hpte hp (fun r hr hrc => hr (h.unique hrc hc))
      (fun r hr => ?_) (fun _ => by rw [hmade]; rfl) hrp hrq
    rw [hc] at hr
    cases hr
    rfl
  · rw [hsame] at ha hb
    exact h.unique ha hb
  · unfold Holds
    by_cases hrp : r = p
    · rw [hrp, hpcp, (hworks hchild).1, (hworks hc).1, hmaps]
    by_cases hrq : r = q
    · rw [hrq, hpc' q hne, hmade]
      simp [Pc.counts]
    · rw [hpc' r hrp, hpte r hrp hrq]
  · unfold Pushing
    by_cases hrp : r = p
    · rw [hrp, hpcp]
      exact ⟨fun ⟨k, hk⟩ => absurd hk ((hworks hchild).2 k), fun ⟨k, hk⟩ => absurd hk ((hworks hc).2 k)⟩
    · rw [hpc' r hrp]
  · rw [hcount.1, hcount.2, hpages]
    exact ⟨rfl, hf, ht⟩

/-- `uvmcopy` is done with the frame: parent and child go their own ways. -/
theorem Inv.forked {g : Nat → Nat} (hc : (s.pc p).child = some q) (hrefs : ∃ R : Finset P,
      (∀ r, r ∈ R ↔ Holds f (({ s with pgref := g }.go p .idle).go q .idle) r) ∧
      Counted f (ls ++ [.silent]) (({ s with pgref := g }.go p .idle).go q .idle) R) :
    Inv kend f (ls ++ [.silent]) (({ s with pgref := g }.go p .idle).go q .idle) := by
  obtain ⟨hne, hmade⟩ := h.child_made hc
  have hpc : ∀ r, r ≠ p → r ≠ q → (({ s with pgref := g }.go p .idle).go q .idle).pc r = s.pc r := by
    intro r hrp hrq
    rw [State.go_other _ _ hrq, State.go_other _ _ hrp]
  have hidle : ∀ r, r = p ∨ r = q → (({ s with pgref := g }.go p .idle).go q .idle).pc r = .idle := by
    intro r hr
    by_cases hrq : r = q
    · rw [hrq, State.go_self]
    · rw [State.go_other _ _ hrq, hr.resolve_right hrq, State.go_self]
  refine ⟨h.frame, h.pages, fun r => ?_, fun {a b c} ha hb => ?_, hrefs⟩
  · by_cases hr : r = p ∨ r = q
    · rw [hidle r hr]
      trivial
    rw [not_or] at hr
    refine h.others hpc (fun _ _ _ => rfl) ?_ (fun r hr hrc => hr (h.unique hrc hc)) (fun r hr => ?_)
      (fun _ => by rw [hmade]; rfl) hr.1 hr.2
    · intro hp
      rw [hp] at hc
      cases hc
    · rw [hc] at hr
      cases hr
      rfl
  · have hold : ∀ {a}, ((({ s with pgref := g }.go p .idle).go q .idle).pc a).child = some c →
        (s.pc a).child = some c := by
      intro a ha
      by_cases hr : a = p ∨ a = q
      · rw [hidle a hr] at ha
        cases ha
      · rw [not_or] at hr
        rwa [hpc a hr.1 hr.2] at ha
    exact h.unique (hold ha) (hold hb)

theorem Inv.mapFail (hc : s.pc p = .forkMap q) : Inv kend f (ls ++ [.silent]) ((s.go p .idle).go q .idle) := by
  have hok := h.pcs p
  rw [hc] at hok
  obtain ⟨hm, hne, hmade, hz⟩ := hok
  refine h.forked (g := s.pgref) (by rw [hc]; rfl)
    (h.quiet (fun r => ?_) (fun r => ?_) (by simp) fun _ hf ht => ⟨rfl, hf, ht⟩)
  · unfold Holds
    by_cases hrq : r = q
    · subst hrq
      have hnot : ¬Maps f (s.pte r) := by
        rw [hz]
        exact not_maps_zero f
      exact ⟨fun hr => absurd hr.1 hnot, fun hr => absurd hr.1 hnot⟩
    by_cases hrp : r = p
    · rw [hrp, State.go_other _ _ hne.symm, State.go_self, hc]
      rfl
    · rw [State.go_other _ _ hrq, State.go_other _ _ hrp]
      rfl
  · unfold Pushing
    by_cases hrq : r = q
    · rw [hrq, State.go_self, hmade]
      simp
    by_cases hrp : r = p
    · rw [hrp, State.go_other _ _ hne.symm, State.go_self, hc]
      simp
    · rw [State.go_other _ _ hrq, State.go_other _ _ hrp]

/-- `incref` makes the child a holder, beside its parent. -/
theorem Inv.incref (hc : s.pc p = .forkRef q pa) : Inv kend f (ls ++ [.silent])
      (((s.setCount pa (s.pgref (PGINDEX pa) + 1)).go p .idle).go q .idle) := by
  have hok := h.pcs p
  rw [hc] at hok
  obtain ⟨hm, hne, hmade, hmq, rfl⟩ := hok
  obtain ⟨R, hR, hsome, -⟩ := h.refs
  have hp : p ∈ R := (hR p).2 ⟨hm, by rw [hc]; rfl⟩
  have hq : q ∉ R := by
    rw [hR]
    rintro ⟨-, hcounts⟩
    rw [hmade] at hcounts
    cases hcounts
  obtain ⟨hcount, hfree, htaken, hnot, hls⟩ := hsome ⟨p, hp⟩
  refine h.forked (by rw [hc]; rfl) ⟨insert q R, fun r => ?_, fun _ => ⟨?_, hfree, htaken, ?_, ?_⟩,
    fun he => absurd he (Finset.insert_ne_empty q R)⟩
  · rw [Finset.mem_insert, hR]
    unfold Holds
    by_cases hrq : r = q
    · subst hrq
      rw [State.go_self]
      exact ⟨fun _ => ⟨hmq, rfl⟩, fun _ => .inl rfl⟩
    by_cases hrp : r = p
    · rw [hrp, State.go_other _ _ hne.symm, State.go_self, hc]
      exact ⟨fun _ => ⟨hm, rfl⟩, fun _ => .inr ⟨hm, rfl⟩⟩
    · rw [State.go_other _ _ hrq, State.go_other _ _ hrp]
      exact or_iff_right hrq
  · rw [Finset.card_insert_of_notMem hq, ← hcount]
    exact update_self _ _ _
  · rintro r ⟨k, hk⟩
    by_cases hrq : r = q
    · rw [hrq, State.go_self] at hk
      cases hk
    by_cases hrp : r = p
    · rw [hrp, State.go_other _ _ hne.symm, State.go_self] at hk
      cases hk
    · rw [State.go_other _ _ hrq, State.go_other _ _ hrp] at hk
      exact hnot r ⟨k, hk⟩
  · simp [hls]

end

/-! ### The rest of the kernel -/

/-- The rest of the kernel changes no entry and is at no place of a process. -/
theorem Inv.other (h : Inv kend f ls s) {ev : Event} (hpc : t.pc = s.pc) (hpte : t.pte = s.pte)
    (hev : ev ≠ .push f) (hpages : ∀ pa, pa ∈ t.freelist ∨ pa ∈ t.taken → Valid kend pa)
    (hcount : f ∉ s.freelist → f ∉ s.taken → t.pgref (PGINDEX f) = s.pgref (PGINDEX f) ∧ f ∉ t.freelist ∧ f ∉ t.taken) :
    Inv kend f (ls ++ [ev]) t := by
  refine ⟨h.frame, hpages, fun q => ?_, ?_, h.quiet (fun q => ?_) (fun q => ?_) hev fun _ => hcount⟩
  · have hok := h.pcs q
    unfold PcOk at hok ⊢
    rw [hpc, hpte]
    exact hok
  · rw [hpc]
    exact h.unique
  · unfold Holds
    rw [hpc, hpte]
  · unfold Pushing
    rw [hpc]

/-- Every atomic section keeps the invariant. -/
theorem Inv.step (h : Inv kend f ls s) {ev : Event} (hs : Step kend f s ev t) : Inv kend f (ls ++ [ev]) t := by
  cases hs with
  | fault p hc hm =>
    exact h.go (by simp [hc]) (by rw [hc]; rfl) rfl hm (by rw [hc]; rfl) (by simp [hc]) (by simp)
  | count p hc => exact h.count hc
  | allocFail p hc =>
    exact h.go (by simp [hc]) (by rw [hc]; rfl) rfl trivial (by rw [hc]; rfl) (by simp [hc]) (by simp)
  | alloc p mem next hc hfree => exact h.alloc hc hfree
  | setref p mem hc => exact h.setref hc
  | move p mem hc =>
    have hok := h.pcs p
    rw [hc] at hok
    exact h.go (by simp [hc]) (by rw [hc]; rfl) rfl ⟨hok.1, hok.1.2, hok.2⟩ (by rw [hc]; rfl) (by simp [hc]) (by simp)
  | kfree p pa k hc => exact h.kfree hc
  | push p pa k hc => exact h.push hc
  | install p mem hc =>
    have hok := h.pcs p
    rw [hc] at hok
    exact h.leave hc (not_maps_copyEntry hok.2.1.1 hok.2.1.lt hok.2.2)
  | unmap p hc hm =>
    exact h.go (by simp [hc]) (by rw [hc]; rfl) rfl ⟨hm, hm.2, trivial⟩ (by rw [hc]; rfl) (by simp [hc]) (by simp)
  | clear p hc => exact h.leave hc (not_maps_zero f)
  | fork p q hc hm hne hq hz => exact h.fork hc hm hne hq hz
  | mark p q hc =>
    have hok := h.pcs p
    rw [hc] at hok
    obtain ⟨hm, hne, hmade, hz⟩ := hok
    have hmark : ((s.setPte p (markEntry (s.pte p))).go p (.forkMap q)).pte p = markEntry (s.pte p) :=
      update_self _ _ _
    refine h.forking (by rw [hc]; rfl) rfl (fun r hr _ => update_of_ne hr _ _) rfl ?_
      (by rw [hmark, maps_markEntry]) rfl ⟨rfl, rfl⟩
    refine ⟨by rw [hmark, maps_markEntry]; exact hm, hne, ?_, ?_⟩
    · rw [State.go_other _ _ hne]
      exact hmade
    · exact (update_of_ne hne _ _).trans hz
  | mapFail p q hc => exact h.mapFail hc
  | map p q hc =>
    have hok := h.pcs p
    rw [hc] at hok
    obtain ⟨hm, hne, hmade, hz⟩ := hok
    have hkeep : ∀ r, r ≠ q → ((s.setPte q (newEntry (PTE2PA (s.pte p)) (PTE_FLAGS (s.pte p)))).go p
        (.forkRef q (PTE2PA (s.pte p)))).pte r = s.pte r := fun r hr => update_of_ne hr _ _
    refine h.forking (by rw [hc]; rfl) rfl (fun r _ hr => hkeep r hr) rfl ?_ (by rw [hkeep p hne.symm]) rfl ⟨rfl, rfl⟩
    refine ⟨by rw [hkeep p hne.symm]; exact hm, hne, ?_, ?_, hm.2⟩
    · rw [State.go_other _ _ hne]
      exact hmade
    · have hnew : ((s.setPte q (newEntry (PTE2PA (s.pte p)) (PTE_FLAGS (s.pte p)))).go p
          (.forkRef q (PTE2PA (s.pte p)))).pte q = newEntry (PTE2PA (s.pte p)) (PTE_FLAGS (s.pte p)) :=
        update_self _ _ _
      rw [hnew, hm.2]
      exact maps_newEntry h.frame.1 h.frame.lt
  | incref p q pa hc => exact h.incref hc
  | otherAlloc mem next hfree =>
    have hpages := h.pages
    rw [hfree] at hpages
    refine h.other rfl rfl (by simp) ?_ fun hf ht => ⟨rfl, ?_, ?_⟩
    · rintro a (ha | (_ | ⟨_, ha⟩))
      · exact hpages a (.inl (.tail _ ha))
      · exact hpages mem (.inl (.head _))
      · exact hpages a (.inr ha)
    · rw [hfree] at hf
      exact fun hmem => hf (.tail _ hmem)
    · rw [hfree] at hf
      rintro (_ | ⟨_, hmem⟩)
      · exact hf (.head _)
      · exact ht hmem
  | otherSetref mem hmem =>
    refine h.other rfl rfl (by simp) (fun a ha => h.pages a (ha.imp_right List.mem_of_mem_erase))
      fun hf ht => ⟨?_, hf, fun hmem' => ht (List.mem_of_mem_erase hmem')⟩
    exact setCount_ne h.frame (h.pages mem (.inr hmem)).1 (by rintro rfl; exact ht hmem)
  | otherCount pa n hpa hne =>
    exact h.other rfl rfl (by simp) h.pages fun hf ht => ⟨setCount_ne h.frame hpa hne, hf, ht⟩
  | otherPush pa hv hne =>
    refine h.other rfl rfl (by simpa using hne) ?_ fun hf ht => ⟨rfl, ?_, ht⟩
    · rintro a ((_ | ⟨_, ha⟩) | ha)
      · exact hv
      · exact h.pages a (.inl ha)
      · exact h.pages a (.inr ha)
    · rintro (_ | ⟨_, hmem⟩)
      · exact hne rfl
      · exact hf hmem

theorem Start.inv (h : Start kend f s) : Inv kend f [] s := by
  obtain ⟨R, hne, hR, hcount⟩ := h.sharers
  have hnot : ∀ p, ¬Pushing f s p := by
    rintro p ⟨k, hk⟩
    rw [h.idle p] at hk
    cases hk
  refine ⟨h.frame, h.pages, fun p => ?_, fun {p _ _} hp => ?_, R, fun p => ?_,
    fun _ => ⟨hcount, h.used.1, h.used.2, hnot, rfl⟩, fun he => absurd he hne.ne_empty⟩
  · rw [h.idle p]
    trivial
  · rw [h.idle p] at hp
    cases hp
  · rw [hR]
    unfold Holds
    rw [h.idle p]
    exact (and_iff_left rfl).symm

theorem run_inv {s0 : State P} (h0 : Start kend f s0) (h : Base.Run (Step kend f) s0 ls s) : Inv kend f ls s :=
  h.invariant (P := fun ls s => Inv kend f ls s) h0.inv fun _ _ _ _ hi hs => hi.step hs

/-- A process whose entry maps the frame when nobody holds it has given up its reference. -/
theorem Inv.past_kfree (h : Inv kend f ls s) (hnone : ∀ p, ¬Holds f s p)
    (hm : Maps f (s.pte q)) : ∃ k, s.pc q = .kfreePush f k ∨ s.pc q = .ret k := by
  have hok := h.pcs q
  cases hs : s.pc q with
  | kfreePush pa k =>
    rw [hs] at hok
    rw [hok.2.1]
    exact ⟨k, .inl rfl⟩
  | ret k => exact ⟨k, .inr rfl⟩
  | made =>
    -- its parent would hold the frame
    rw [hs] at hok
    obtain ⟨r, hr⟩ := hok
    have hrok := h.pcs r
    refine absurd ?_ (hnone r)
    cases hrs : s.pc r with
    | forkMark c | forkMap c | forkRef c =>
      rw [hrs] at hrok
      exact ⟨hrok.1, by rw [hrs]; rfl⟩
    | idle | count | alloc | setref | move | kfree | kfreePush | ret | made =>
      rw [hrs] at hr
      cases hr
  | idle | count | alloc | setref | move | kfree | forkMark | forkMap | forkRef =>
    exact absurd ⟨hm, by rw [hs]; rfl⟩ (hnone q)

theorem Step.push_inv (h : Step kend f s (.push f) t) : ∃ p, Pushing f s p := by
  cases h with
  | push p _ k hc => exact ⟨p, k, hc⟩
  | otherPush _ _ hne => exact absurd rfl hne

/-- However the faults, the teardowns and the forks of the processes that share a frame interleave, the
frame is put on the free list at most once; when it is, every process whose entry maps it has come through
the first section of its own `kfree`, and so is done with copying it; and once everything has come to rest
and no entry maps it, it has been put there exactly once. -/
theorem shared_frame_freed_once {s0 : State P} (h0 : Start kend f s0)
    (h : Base.Run (Step kend f) s0 ls s) :
    ls.count (.push f) ≤ 1 ∧
    (∀ t, Step kend f s (.push f) t →
      ∀ q, Maps f (s.pte q) → ∃ k, s.pc q = .kfreePush f k ∨ s.pc q = .ret k) ∧
    ((∀ p, s.pc p = .idle) → (∀ p, ¬Maps f (s.pte p)) → ls.count (.push f) = 1) := by
  have hi := run_inv h0 h
  obtain ⟨R, hR, hsome, hnone⟩ := hi.refs
  refine ⟨?_, fun t hs q hq => ?_, fun hidle hmaps => ?_⟩
  · rcases R.eq_empty_or_nonempty with hR0 | hne
    · rcases hnone hR0 with ⟨hz, -⟩ | ⟨hone, -⟩
      · omega
      · omega
    · have hz := (hsome hne).2.2.2.2
      omega
  · obtain ⟨p, hp⟩ := hs.push_inv
    refine hi.past_kfree (fun r hr => ?_) hq
    exact (hsome ⟨r, (hR r).2 hr⟩).2.2.2.1 p hp
  · have hR0 : R = ∅ := by
      refine Finset.eq_empty_of_forall_notMem fun r hr => ?_
      exact hmaps r ((hR r).1 hr).1
    rcases hnone hR0 with ⟨-, p, ⟨k, hk⟩, -⟩ | ⟨hone, -⟩
    · rw [hidle p] at hk
      cases hk
    · exact hone

end Steps

/-- Two processes share a frame. -/
def twoSharers : State Bool where
  pte := fun _ => newEntry 0x80001000 (PTE_R ||| PTE_U ||| PTE_COW)
  pgref := fun i => if i = PGINDEX 0x80001000 then 2 else 0
  freelist := [0x80002000]
  taken := []
  pc := fun _ => .idle

theorem twoSharers_start : Start 0x80000000 0x80001000 twoSharers where
  frame := by decide +kernel
  idle := fun _ => rfl
  sharers := ⟨Finset.univ, by decide +kernel, by decide +kernel, by decide +kernel⟩
  cow := by decide +kernel
  used := by decide +kernel
  pages := by
    rintro pa (hpa | hpa)
    · cases List.mem_singleton.1 hpa
      decide +kernel
    · cases hpa

/-- One of them writes and copies the page while the other one exits. -/
theorem shared_frame_freed_once_two :
    ∃ (ls : List Event) (s : State Bool), Base.Run (Step 0x80000000 0x80001000) twoSharers ls s ∧
      (∀ p, s.pc p = .idle) ∧ (∀ p, ¬Maps 0x80001000 (s.pte p)) ∧
      ls.count (.push 0x80001000) = 1 := by
  have h1 := Base.Run.single (@Step.fault Bool _ 0x80000000 0x80001000 twoSharers true rfl (by decide +kernel)
    (by decide +kernel) (by decide +kernel))
  have h2 := h1.snoc (Step.count _ true rfl)
  have h3 := h2.snoc (Step.alloc _ true 0x80002000 [] rfl rfl)
  have h4 := h3.snoc (Step.setref _ true 0x80002000 rfl)
  have h5 := h4.snoc (Step.move _ true 0x80002000 rfl)
  -- the other one gives up its reference first, while this one is between copying and `kfree`
  have h6 := h5.snoc (Step.unmap _ false rfl (by decide +kernel))
  have h7 := h6.snoc (Step.kfree _ false 0x80001000 .clear (by decide +kernel) (by decide +kernel))
  have h8 := h7.snoc (Step.clear _ false rfl)
  have h9 := h8.snoc (Step.kfree _ true 0x80001000 (.install 0x80002000) (by decide +kernel) (by decide +kernel))
  have h10 := h9.snoc (Step.push _ true 0x80001000 (.install 0x80002000) rfl)
  have h11 := h10.snoc (Step.install _ true 0x80002000 rfl)
  exact ⟨_, _, h11, by decide +kernel, by decide +kernel,
    (shared_frame_freed_once twoSharers_start h11).2.2 (by decide +kernel) (by decide +kernel)⟩

end Xv6.Vm.Shared
