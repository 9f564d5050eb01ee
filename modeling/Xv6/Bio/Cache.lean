import Xv6.Base.FiniteSum
import Xv6.Base.LinkedRing
import Xv6.Base.Param
import Xv6.Base.Transition

/-!
# The buffer cache

`kernel/bio.c`. The list of buffers is kept in the order of the last release: `brelse` moves a buffer that nobody refers
to any more behind the head, and `bget` recycles the first such buffer from the other end. A section under `bcache.lock`
is one step; a process sleeps for the lock of the buffer after its `bget`, and gives that lock back before the section of
its `brelse`.

`log_write` pins a buffer that it holds when the block is added to the log, and `install_trans` unpins it while it holds
it again; a block is in the log once.
-/

set_option autoImplicit false

namespace Xv6.Bio

open Function Xv6.Base

structure Bcache where
  ptr : Pointers (Fin NBUF)
  dev : Fin NBUF → UInt32
  blockno : Fin NBUF → UInt32
  valid : Fin NBUF → Bool
  refcnt : Fin NBUF → Nat

def binit : Bcache where
  ptr := (List.finRange NBUF).foldl (fun r b => r.linkFirst b) ⟨fun _ => none, fun _ => none⟩
  dev := fun _ => 0
  blockno := fun _ => 0
  valid := fun _ => false
  refcnt := fun _ => 0

namespace Bcache

variable (c : Bcache)

def bpin (b : Fin NBUF) : Bcache := { c with refcnt := update c.refcnt b ((c.refcnt b + 1) % 2 ^ 32) }

def bunpin (b : Fin NBUF) : Bcache := { c with refcnt := update c.refcnt b ((c.refcnt b + (2 ^ 32 - 1)) % 2 ^ 32) }

def recycle (b : Fin NBUF) (dev blockno : UInt32) : Bcache :=
  { c with
    dev := update c.dev b dev
    blockno := update c.blockno b blockno
    valid := update c.valid b false
    refcnt := update c.refcnt b 1 }

def cached (dev blockno : UInt32) (b : Fin NBUF) : Bool := decide (c.dev b = dev ∧ c.blockno b = blockno)

def unused (b : Fin NBUF) : Bool := decide (c.refcnt b = 0)

/-- The section of `bget` under `bcache.lock`: the buffer, or `none` where it panics. -/
def bget (dev blockno : UInt32) : Option (Option (Fin NBUF) × Bcache) :=
  match scan c.ptr.next (c.cached dev blockno) (NBUF + 1) (c.ptr.next none) with
  | none => none
  | some (some b) => some (some b, { c with refcnt := update c.refcnt b ((c.refcnt b + 1) % 2 ^ 32) })
  | some none =>
    match scan c.ptr.prev c.unused (NBUF + 1) (c.ptr.prev none) with
    | none => none
    | some (some b) => some (some b, c.recycle b dev blockno)
    | some none => some (none, c)

/-- The section of `brelse` under `bcache.lock`. -/
def brelse (b : Fin NBUF) : Bcache :=
  let c := c.bunpin b
  if c.refcnt b = 0 then { c with ptr := (c.ptr.unlink b).linkFirst b } else c

end Bcache

/-- What a process is doing: waiting for the lock of the buffer that `bget` has found, or in `brelse` after it has given
the lock back. -/
inductive Pc where
  | idle
  | waiting (b : Fin NBUF)
  | releasing (b : Fin NBUF)

/-- The cache, the holders of the buffers' locks, and whether a buffer's block is in the log. -/
structure Sys where
  cache : Bcache
  lock : Fin NBUF → Option (Fin NPROC)
  logged : Fin NBUF → Bool
  pc : Fin NPROC → Pc

inductive Label where
  | other
  | brelse (b : Fin NBUF)

inductive Step : Sys → Label → Sys → Prop
  | bget (s : Sys) (p : Fin NPROC) (dev blockno : UInt32) (b : Fin NBUF) (c : Bcache) : s.pc p = .idle →
      s.cache.bget dev blockno = some (some b, c) →
      Step s .other { s with cache := c, pc := update s.pc p (.waiting b) }
  | acquiresleep (s : Sys) (p : Fin NPROC) (b : Fin NBUF) : s.pc p = .waiting b → s.lock b = none →
      Step s .other { s with lock := update s.lock b (some p), pc := update s.pc p .idle }
  | releasesleep (s : Sys) (p : Fin NPROC) (b : Fin NBUF) : s.pc p = .idle → s.lock b = some p →
      Step s .other { s with lock := update s.lock b none, pc := update s.pc p (.releasing b) }
  | brelse (s : Sys) (p : Fin NPROC) (b : Fin NBUF) : s.pc p = .releasing b →
      Step s (.brelse b) { s with cache := s.cache.brelse b, pc := update s.pc p .idle }
  | bpin (s : Sys) (p : Fin NPROC) (b : Fin NBUF) : s.pc p = .idle → s.lock b = some p → s.logged b = false →
      Step s .other { s with cache := s.cache.bpin b, logged := update s.logged b true }
  | bunpin (s : Sys) (p : Fin NPROC) (b : Fin NBUF) : s.pc p = .idle → s.lock b = some p → s.logged b = true →
      Step s .other { s with cache := s.cache.bunpin b, logged := update s.logged b false }

/-- After `binit`. -/
def start : Sys := ⟨binit, fun _ => none, fun _ => false, fun _ => .idle⟩

/-- The buffer that the step releases. -/
def Label.buffer : Label → Option (Fin NBUF)
  | .other => none
  | .brelse b => some b

/-- The buffers that have been released, the most recent release first. -/
def released (ls : List Label) : List (Fin NBUF) := ls.reverse.filterMap Label.buffer

theorem released_snoc (ls : List Label) (l : Label) : released (ls ++ [l]) = l.buffer.toList ++ released ls := by
  unfold released
  rw [List.reverse_append, List.reverse_singleton, List.singleton_append]
  cases l <;> rfl

/-- If `b` has been released at all, then the last release of `a` is more recent. -/
def MoreRecent (rel : List (Fin NBUF)) (a b : Fin NBUF) : Prop := b ∈ rel → rel.idxOf a < rel.idxOf b

/-- The list `l` of all buffers, with the unused ones in the order of their last release. -/
structure Ordered (c : Bcache) (rel l : List (Fin NBUF)) : Prop where
  nodup : l.Nodup
  all : ∀ b, b ∈ l
  ring : Ring c.ptr l
  recent : (l.filter c.unused).Pairwise (MoreRecent rel)

/-! ## References -/

/-- The reference that a process has to a buffer whose lock it does not hold. -/
def Pc.refs (b : Fin NBUF) : Pc → Nat
  | .idle => 0
  | .waiting a | .releasing a => if a = b then 1 else 0

/-- The references to a buffer: of processes on their way, of the holder of its lock, of the log. -/
def Sys.refs (s : Sys) (b : Fin NBUF) : Nat :=
  total (Pc.refs b) s.pc + (if s.lock b = none then 0 else 1) + if s.logged b then 1 else 0

theorem Sys.refs_le (s : Sys) (b : Fin NBUF) : s.refs b ≤ NPROC + 2 := by
  have htotal : total (Pc.refs b) s.pc ≤ NPROC := by
    refine (Finset.sum_le_card_nsmul Finset.univ (fun p => (s.pc p).refs b) 1 fun p _ => ?_).trans (by simp)
    cases s.pc p with
    | idle => exact Nat.zero_le 1
    | waiting a | releasing a =>
      show (if a = b then 1 else 0) ≤ 1
      split_ifs <;> omega
  unfold Sys.refs
  split_ifs <;> omega

/-- The counts are those of the references. -/
def Counted (s : Sys) : Prop := ∀ b, s.cache.refcnt b = s.refs b

section

variable {c c' : Bcache} {rel l : List (Fin NBUF)} {b : Fin NBUF} {s : Sys}

theorem inc_eq {n : Nat} (h : n ≤ NPROC + 2) : (n + 1) % 2 ^ 32 = n + 1 := by
  unfold NPROC at h
  omega

theorem dec_eq {n : Nat} (h : n ≤ NPROC + 2) (hpos : 0 < n) : (n + (2 ^ 32 - 1)) % 2 ^ 32 = n - 1 := by
  unfold NPROC at h
  omega

/-- A process takes or gives up a reference, and the rest of the references changes by `n` to `m`. -/
theorem Counted.step (h : Counted s) {t : Sys} {p : Fin NPROC} {x : Pc} (hpc : t.pc = update s.pc p x)
    (hcount : ∀ a, t.cache.refcnt a + (s.pc p).refs a + (if s.lock a = none then 0 else 1) + (if s.logged a then 1 else 0) =
      s.cache.refcnt a + x.refs a + (if t.lock a = none then 0 else 1) + if t.logged a then 1 else 0) : Counted t := by
  intro a
  have htotal := total_update (Pc.refs a) s.pc p x
  have hold := h a
  have hnew := hcount a
  unfold Sys.refs at hold ⊢
  rw [hpc]
  omega

/-! ## The list -/

/-- What `bget` does with a list of all buffers. -/
theorem Ordered.bget_cases (h : Ordered c rel l) (dev blockno : UInt32) :
    (∃ b, l.find? (c.cached dev blockno) = some b ∧ c.bget dev blockno = some (some b, c.bpin b)) ∨
      (l.find? (c.cached dev blockno) = none ∧
        ((∃ b, l.reverse.find? c.unused = some b ∧ c.bget dev blockno = some (some b, c.recycle b dev blockno)) ∨
          (l.reverse.find? c.unused = none ∧ c.bget dev blockno = some (none, c)))) := by
  have hlen : l.length < NBUF + 1 := by
    have hcard := h.nodup.length_le_card
    rw [Fintype.card_fin] at hcard
    omega
  unfold Bcache.bget
  rw [h.ring.scan_next _ hlen, h.ring.scan_prev _ hlen]
  cases l.find? (c.cached dev blockno) with
  | some b => exact .inl ⟨b, rfl, rfl⟩
  | none =>
    refine .inr ⟨rfl, ?_⟩
    cases l.reverse.find? c.unused with
    | some b => exact .inl ⟨b, rfl, rfl⟩
    | none => exact .inr ⟨rfl, rfl⟩

/-- Buffers may come into use. -/
theorem Ordered.used (h : Ordered c rel l) (hptr : c'.ptr = c.ptr)
    (hused : ∀ b, c'.unused b = true → c.unused b = true) : Ordered c' rel l :=
  ⟨h.nodup, h.all, hptr ▸ h.ring, h.recent.sublist (List.monotone_filter_right l hused)⟩

/-- The first unused buffer from the end of the list is the one that has been released least recently. -/
theorem Ordered.oldest (h : Ordered c rel l) (hfind : l.reverse.find? c.unused = some b) :
    c.refcnt b = 0 ∧ ∀ a, c.refcnt a = 0 → a ≠ b → MoreRecent rel a b := by
  obtain ⟨hb, later, earlier, hsplit, hlater⟩ := List.find?_eq_some_iff_append.1 hfind
  refine ⟨by simpa [Bcache.unused] using hb, fun a ha hab => ?_⟩
  have hl : l = earlier.reverse ++ b :: later.reverse := by
    rw [← List.reverse_reverse l, hsplit]
    simp
  have hunused : c.unused a = true := by simpa [Bcache.unused] using ha
  have hmem : a ∈ earlier.reverse := by
    have hall := h.all a
    rw [hl, List.mem_append, List.mem_cons] at hall
    rcases hall with hall | rfl | hall
    · exact hall
    · exact absurd rfl hab
    · have := hlater a (List.mem_reverse.1 hall)
      rw [hunused] at this
      cases this
  have hrecent := h.recent
  rw [hl, List.filter_append, List.filter_cons_of_pos hb, List.pairwise_append] at hrecent
  exact hrecent.2.2 a (List.mem_filter.2 ⟨hmem, hunused⟩) b (by simp)

/-- A release makes every release before it one older. -/
theorem MoreRecent.cons {a d : Fin NBUF} (h : MoreRecent rel a d) (ha : a ≠ b) (hd : d ≠ b) : MoreRecent (b :: rel) a d := by
  intro hmem
  rw [List.idxOf_cons_ne _ ha.symm, List.idxOf_cons_ne _ hd.symm]
  exact Nat.succ_lt_succ (h ((List.mem_cons.1 hmem).resolve_left hd))

/-- `brelse` of a buffer that is still in use. -/
theorem Ordered.release_used (h : Ordered c rel l) (hptr : c'.ptr = c.ptr) (hb : c'.unused b = false)
    (hother : ∀ a, a ≠ b → c'.unused a = c.unused a) : Ordered c' (b :: rel) l := by
  have hmem : ∀ a ∈ l.filter c'.unused, a ≠ b := by
    rintro a ha rfl
    have hun := (List.mem_filter.1 ha).2
    rw [hb] at hun
    cases hun
  have hshrink := h.used hptr fun a ha => by
    by_cases hab : a = b
    · rw [hab, hb] at ha
      cases ha
    · rwa [← hother a hab]
  refine { hshrink with recent := ?_ }
  exact hshrink.recent.imp_of_mem fun ha hd hr => hr.cons (hmem _ ha) (hmem _ hd)

/-- `brelse` of a buffer that goes out of use: it becomes the first. -/
theorem Ordered.release_unused (h : Ordered c rel l) (hptr : c'.ptr = (c.ptr.unlink b).linkFirst b)
    (hother : ∀ a, a ≠ b → c'.unused a = c.unused a) : ∃ l', Ordered c' (b :: rel) l' := by
  obtain ⟨l1, l2, rfl⟩ := List.append_of_mem (h.all b)
  have hnd := h.nodup
  rw [List.nodup_middle, List.nodup_cons] at hnd
  have hne : ∀ a ∈ l1 ++ l2, a ≠ b := by
    rintro a ha rfl
    exact hnd.1 ha
  have hfilter : (l1 ++ l2).filter c'.unused = (l1 ++ l2).filter c.unused :=
    List.filter_congr fun a ha => hother a (hne a ha)
  have hsub : ((l1 ++ l2).filter c.unused).Pairwise (MoreRecent rel) :=
    h.recent.sublist (.filter _ (.append_left (List.sublist_cons_self b l2) l1))
  refine ⟨b :: (l1 ++ l2), List.nodup_cons.2 hnd, fun a => ?_, ?_, ?_⟩
  · have hall := h.all a
    simpa [or_left_comm] using hall
  · rw [hptr]
    exact (h.ring.unlink h.nodup).linkFirst hnd.2 hnd.1
  · have hrest : ((l1 ++ l2).filter c'.unused).Pairwise (MoreRecent (b :: rel)) := by
      rw [hfilter]
      exact hsub.imp_of_mem fun ha hd hr =>
        hr.cons (hne _ (List.mem_of_mem_filter ha)) (hne _ (List.mem_of_mem_filter hd))
    by_cases hb : c'.unused b = true
    · rw [List.filter_cons_of_pos hb]
      refine List.pairwise_cons.2 ⟨fun a ha _ => ?_, hrest⟩
      rw [List.idxOf_cons_self, List.idxOf_cons_ne _ (hne a (List.mem_of_mem_filter ha)).symm]
      exact Nat.succ_pos _
    · rwa [List.filter_cons_of_neg hb]

theorem binit_ordered : ∃ l, Ordered binit [] l := by
  have hring : ∀ (bs : List (Fin NBUF)) (r : Pointers (Fin NBUF)) (l : List (Fin NBUF)), Ring r l →
      (bs.reverse ++ l).Nodup → Ring (bs.foldl (fun r b => r.linkFirst b) r) (bs.reverse ++ l) := by
    intro bs
    induction bs with
    | nil => exact fun r l h _ => h
    | cons b bs ih =>
      intro r l h hnd
      rw [List.reverse_cons, List.append_assoc] at hnd ⊢
      have hbl := List.nodup_cons.1 (List.nodup_append.1 hnd).2.1
      exact ih _ _ (h.linkFirst hbl.2 hbl.1) hnd
  refine ⟨(List.finRange NBUF).reverse, List.nodup_reverse.2 (List.nodup_finRange _), fun b => by simp, ?_, ?_⟩
  · have := hring (List.finRange NBUF) ⟨fun _ => none, fun _ => none⟩ []
      (List.isChain_cons_cons.2 ⟨⟨rfl, rfl⟩, List.isChain_singleton _⟩)
      (by simpa using List.nodup_finRange NBUF)
    rw [List.append_nil] at this
    exact this
  · exact List.pairwise_of_forall fun a b hb => by cases hb

end

/-! ## Runs -/

structure Inv (ls : List Label) (s : Sys) : Prop where
  counted : Counted s
  ordered : ∃ l, Ordered s.cache (released ls) l

theorem start_inv : Inv [] start :=
  ⟨fun b => by simp [start, binit, Sys.refs, total, Pc.refs], binit_ordered⟩

section

variable {ls : List Label} {s t : Sys} {p : Fin NPROC} {b : Fin NBUF}

/-- A buffer with a locked or waiting user is in use. -/
theorem Inv.refs_pos (h : Inv ls s) (href : 0 < (s.pc p).refs b) : 0 < s.cache.refcnt b := by
  rw [h.counted b]
  have hle := le_total (Pc.refs b) s.pc p
  unfold Sys.refs
  omega

theorem Inv.refcnt_le (h : Inv ls s) (b : Fin NBUF) : s.cache.refcnt b ≤ NPROC + 2 := by
  rw [h.counted b]
  exact s.refs_le b

theorem Bcache.bpin_refcnt {c : Bcache} (hle : c.refcnt b ≤ NPROC + 2) (a : Fin NBUF) :
    (c.bpin b).refcnt a = c.refcnt a + if b = a then 1 else 0 := by
  show update c.refcnt b _ a = _
  by_cases hab : b = a
  · subst hab
    rw [update_self, inc_eq hle, if_pos rfl]
  · rw [update_of_ne (Ne.symm hab), if_neg hab, Nat.add_zero]

theorem Bcache.bunpin_refcnt {c : Bcache} (hle : c.refcnt b ≤ NPROC + 2) (hpos : 0 < c.refcnt b) (a : Fin NBUF) :
    (c.bunpin b).refcnt a + (if b = a then 1 else 0) = c.refcnt a := by
  show update c.refcnt b _ a + _ = _
  by_cases hab : b = a
  · subst hab
    rw [update_self, dec_eq hle hpos, if_pos rfl]
    omega
  · rw [update_of_ne (Ne.symm hab), if_neg hab, Nat.add_zero]

/-- One more reference to a buffer. -/
theorem Ordered.bpin {c : Bcache} {rel l : List (Fin NBUF)} (h : Ordered c rel l) (hle : c.refcnt b ≤ NPROC + 2) :
    Ordered (c.bpin b) rel l := by
  refine h.used rfl fun a ha => ?_
  have hcount := Bcache.bpin_refcnt hle a
  simp only [Bcache.unused, decide_eq_true_eq] at ha ⊢
  omega

theorem Inv.bget {dev blockno : UInt32} {c : Bcache} (h : Inv ls s) (hp : s.pc p = .idle)
    (hget : s.cache.bget dev blockno = some (some b, c)) :
    Inv (ls ++ [.other]) { s with cache := c, pc := update s.pc p (.waiting b) } := by
  obtain ⟨l, hl⟩ := h.ordered
  have hout : (∀ a, c.refcnt a = s.cache.refcnt a + if b = a then 1 else 0) ∧ Ordered c (released ls) l := by
    rcases hl.bget_cases dev blockno with ⟨b', -, heq⟩ | ⟨-, ⟨b', hfind, heq⟩ | ⟨-, heq⟩⟩
    · rw [heq] at hget
      cases hget
      exact ⟨Bcache.bpin_refcnt (h.refcnt_le b), hl.bpin (h.refcnt_le b)⟩
    · rw [heq] at hget
      cases hget
      have hzero := (hl.oldest hfind).1
      have hcount : ∀ a, (s.cache.recycle b dev blockno).refcnt a = s.cache.refcnt a + if b = a then 1 else 0 := by
        intro a
        unfold Bcache.recycle
        by_cases hab : b = a
        · subst hab
          simp [hzero]
        · simp [hab, Ne.symm hab]
      refine ⟨hcount, hl.used rfl fun a ha => ?_⟩
      have := hcount a
      simp only [Bcache.unused, decide_eq_true_eq] at ha ⊢
      omega
    · rw [heq] at hget
      cases hget
  refine ⟨h.counted.step rfl fun a => ?_, l, ?_⟩
  · rw [hp, hout.1 a]
    rfl
  · rw [released_snoc]
    exact hout.2

theorem Inv.brelse (h : Inv ls s) (hp : s.pc p = .releasing b) :
    Inv (ls ++ [.brelse b]) { s with cache := s.cache.brelse b, pc := update s.pc p .idle } := by
  obtain ⟨l, hl⟩ := h.ordered
  have hpos : 0 < s.cache.refcnt b := h.refs_pos (p := p) (by rw [hp, Pc.refs, if_pos rfl]; exact Nat.one_pos)
  have hdec := Bcache.bunpin_refcnt (h.refcnt_le b) hpos
  have hrefcnt : (s.cache.brelse b).refcnt = (s.cache.bunpin b).refcnt := by
    unfold Bcache.brelse
    by_cases hzero : (s.cache.bunpin b).refcnt b = 0
    · rw [if_pos hzero]
    · rw [if_neg hzero]
  have hother : ∀ a, a ≠ b → (s.cache.brelse b).unused a = s.cache.unused a := by
    intro a hab
    have := hdec a
    rw [if_neg (Ne.symm hab), Nat.add_zero] at this
    unfold Bcache.unused
    rw [hrefcnt, this]
  refine ⟨h.counted.step rfl fun a => ?_, ?_⟩
  · rw [hp, hrefcnt, ← hdec a]
    rfl
  · rw [released_snoc]
    by_cases hzero : (s.cache.bunpin b).refcnt b = 0
    · exact hl.release_unused (by rw [Bcache.brelse, if_pos hzero]; rfl) hother
    · refine ⟨l, hl.release_used (by rw [Bcache.brelse, if_neg hzero]; rfl) ?_ hother⟩
      unfold Bcache.unused
      rw [hrefcnt, decide_eq_false_iff_not]
      exact hzero

/-- The references of the holder of the lock and of the log. -/
theorem Inv.pinned (h : Inv ls s) (hlock : s.lock b = some p) :
    1 + (if s.logged b then 1 else 0) ≤ s.cache.refcnt b := by
  rw [h.counted b, Sys.refs, hlock, if_neg (Option.some_ne_none p)]
  omega

theorem Inv.step (h : Inv ls s) {lb : Label} (hs : Step s lb t) : Inv (ls ++ [lb]) t := by
  obtain ⟨l, hl⟩ := h.ordered
  cases hs with
  | bget p dev blockno b c hp hget => exact h.bget hp hget
  | acquiresleep p b hp hlock | releasesleep p b hp hlock =>
    refine ⟨h.counted.step rfl fun a => ?_, l, by rw [released_snoc]; exact hl⟩
    by_cases hab : b = a
    · subst hab
      simp [hp, hlock, Pc.refs]
    · simp [hp, hab, Ne.symm hab, Pc.refs]
  | brelse p b hp => exact h.brelse hp
  | bpin p b hp hlock hlogged =>
    refine ⟨h.counted.step (update_eq_self p s.pc).symm fun a => ?_, l, ?_⟩
    · have := Bcache.bpin_refcnt (h.refcnt_le b) a
      by_cases hab : b = a
      · subst hab
        simp [this, hlogged]
        omega
      · simp [this, hab, Ne.symm hab]
    · rw [released_snoc]
      exact hl.bpin (h.refcnt_le b)
  | bunpin p b hp hlock hlogged =>
    have hpin := h.pinned hlock
    rw [if_pos hlogged] at hpin
    have hdec := Bcache.bunpin_refcnt (h.refcnt_le b) (by omega)
    refine ⟨h.counted.step (update_eq_self p s.pc).symm fun a => ?_, l, ?_⟩
    · have := hdec a
      by_cases hab : b = a
      · subst hab
        simp [hlogged] at this ⊢
        omega
      · simp [hab, Ne.symm hab] at this ⊢
        omega
    · rw [released_snoc]
      refine hl.used rfl fun a ha => ?_
      have := hdec a
      simp only [Bcache.unused, decide_eq_true_eq] at ha ⊢
      split_ifs at this with hab
      · subst hab
        omega
      · omega

end

/-- At every point of every run the buffers are linked in both directions in one circle through the head; those that
nobody refers to are in the order of their last release, the most recent first and those never released last; and
`bget` ends, with the buffer of the block if there is one, or else with the unused buffer that has been released least
recently, and fails only if there is no unused one. -/
theorem buffers_in_release_order {ls : List Label} {s : Sys} (h : Run Step start ls s) :
    ∃ l : List (Fin NBUF), l.Nodup ∧ (∀ b, b ∈ l) ∧ Ring s.cache.ptr l ∧
      (l.filter s.cache.unused).Pairwise (MoreRecent (released ls)) ∧
      ∀ dev blockno,
        (∃ b, s.cache.cached dev blockno b = true ∧ s.cache.bget dev blockno = some (some b, s.cache.bpin b)) ∨
        ((∀ b, s.cache.cached dev blockno b = false) ∧ ∃ b, s.cache.refcnt b = 0 ∧
          (∀ a, s.cache.refcnt a = 0 → a ≠ b → MoreRecent (released ls) a b) ∧
          s.cache.bget dev blockno = some (some b, s.cache.recycle b dev blockno)) ∨
        ((∀ b, s.cache.cached dev blockno b = false) ∧ (∀ b, 0 < s.cache.refcnt b) ∧
          s.cache.bget dev blockno = some (none, s.cache)) := by
  have hinv : Inv ls s := h.invariant (P := Inv) start_inv fun _ _ _ _ hi hs => hi.step hs
  obtain ⟨l, hl⟩ := hinv.ordered
  refine ⟨l, hl.nodup, hl.all, hl.ring, hl.recent, fun dev blockno => ?_⟩
  have hmiss : l.find? (s.cache.cached dev blockno) = none → ∀ b, s.cache.cached dev blockno b = false :=
    fun hfind b => by simpa using List.find?_eq_none.1 hfind b (hl.all b)
  rcases hl.bget_cases dev blockno with ⟨b, hfind, heq⟩ | ⟨hno, ⟨b, hfind, heq⟩ | ⟨hnone, heq⟩⟩
  · exact Or.inl ⟨b, List.find?_some hfind, heq⟩
  · obtain ⟨hzero, hold⟩ := hl.oldest hfind
    exact Or.inr (Or.inl ⟨hmiss hno, b, hzero, hold, heq⟩)
  · refine Or.inr (Or.inr ⟨hmiss hno, fun b => Nat.pos_of_ne_zero fun hzero => ?_, heq⟩)
    exact List.find?_eq_none.1 hnone b (List.mem_reverse.2 (hl.all b)) (by simpa [Bcache.unused] using hzero)

/-- One process gets block 7 and gives it back. -/
theorem buffers_in_release_order_one : ∃ s, Run Step start [.other, .other, .other, .brelse ⟨0, by decide⟩] s ∧
    ∃ l : List (Fin NBUF), Ring s.cache.ptr l ∧
      (l.filter s.cache.unused).Pairwise (MoreRecent [⟨0, by decide⟩]) := by
  have hfirst : (binit.bget 1 7).map Prod.fst = some (some ⟨0, by decide⟩) := by decide +kernel
  obtain ⟨⟨r, c⟩, hget, hr⟩ := Option.map_eq_some_iff.1 hfirst
  obtain rfl : r = some ⟨0, by decide⟩ := hr
  have h1 := Run.single (Step.bget start ⟨0, by decide⟩ 1 7 ⟨0, by decide⟩ c rfl hget)
  have h2 := h1.snoc (Step.acquiresleep _ ⟨0, by decide⟩ ⟨0, by decide⟩ (by simp) rfl)
  have h3 := h2.snoc (Step.releasesleep _ ⟨0, by decide⟩ ⟨0, by decide⟩ (by simp) (by simp))
  have h4 := h3.snoc (Step.brelse _ ⟨0, by decide⟩ ⟨0, by decide⟩ (by simp))
  obtain ⟨l, -, -, hring, hrecent, -⟩ := buffers_in_release_order h4
  exact ⟨_, h4, l, hring, hrecent⟩

/-! ## Blocks -/

section

variable {ls : List Label} {s t : Sys}

/-- No two buffers have the same block of a device. -/
def Distinct (c : Bcache) : Prop :=
  ∀ a b, c.dev a ≠ 0 → c.dev a = c.dev b → c.blockno a = c.blockno b → a = b

/-- A step leaves the buffers their blocks, but that an unused buffer may get one that no buffer has. -/
theorem Inv.blocks (h : Inv ls s) {lb : Label} (hs : Step s lb t) :
    (t.cache.dev = s.cache.dev ∧ t.cache.blockno = s.cache.blockno) ∨ ∃ b dev blockno, s.cache.refcnt b = 0 ∧
      (∀ a, s.cache.cached dev blockno a = false) ∧ t.cache.dev = update s.cache.dev b dev ∧
      t.cache.blockno = update s.cache.blockno b blockno := by
  cases hs with
  | bget p dev blockno b c hp hget =>
    obtain ⟨l, hl⟩ := h.ordered
    rcases hl.bget_cases dev blockno with ⟨b', -, heq⟩ | ⟨hno, ⟨b', hfind, heq⟩ | ⟨-, heq⟩⟩
    · rw [heq] at hget
      cases hget
      exact .inl ⟨rfl, rfl⟩
    · rw [heq] at hget
      cases hget
      refine .inr ⟨b, dev, blockno, (hl.oldest hfind).1, fun a => ?_, rfl, rfl⟩
      simpa using List.find?_eq_none.1 hno a (hl.all a)
    · rw [heq] at hget
      cases hget
  | brelse p b hp =>
    refine .inl ?_
    dsimp only [Bcache.brelse]
    split_ifs <;> exact ⟨rfl, rfl⟩
  | acquiresleep | releasesleep | bpin | bunpin => exact .inl ⟨rfl, rfl⟩

theorem Distinct.step (h : Distinct s.cache) (hi : Inv ls s) {lb : Label} (hs : Step s lb t) : Distinct t.cache := by
  rcases hi.blocks hs with ⟨hdev, hno⟩ | ⟨x, dev, blockno, -, hnew, hdev, hno⟩
  · rw [Distinct, hdev, hno]
    exact h
  · simp only [Bcache.cached, decide_eq_false_iff_not, not_and] at hnew
    intro a b
    rw [hdev, hno]
    by_cases hax : a = x
    · by_cases hbx : b = x
      · exact fun _ _ _ => hax.trans hbx.symm
      · intro _ h1 h2
        simp only [hax, update_self, update_of_ne hbx] at h1 h2
        exact absurd h2.symm (hnew b h1.symm)
    · by_cases hbx : b = x
      · intro _ h1 h2
        simp only [hbx, update_self, update_of_ne hax] at h1 h2
        exact absurd h2 (hnew a h1)
      · simp only [update_of_ne hax, update_of_ne hbx]
        exact h a b

end

/-- At every point of every run a block of a device is in one buffer at most. The count of a buffer is the number of
processes that have it from `bget` and have not come to the end of `brelse`, and one more if its block is in the log;
and as long as it is not 0 the buffer keeps its block. -/
theorem one_buffer_per_block {ls : List Label} {s : Sys} (h : Run Step start ls s) :
    (∀ a b, s.cache.dev a ≠ 0 → s.cache.dev a = s.cache.dev b → s.cache.blockno a = s.cache.blockno b → a = b) ∧
    ∀ b, s.cache.refcnt b = s.refs b ∧ (0 < s.refs b → ∀ lb t, Step s lb t →
      t.cache.dev b = s.cache.dev b ∧ t.cache.blockno b = s.cache.blockno b) := by
  have hinv : Inv ls s ∧ Distinct s.cache := by
    refine h.invariant (P := fun ls s => Inv ls s ∧ Distinct s.cache) ⟨start_inv, fun a _ ha => absurd rfl ha⟩ ?_
    exact fun ls s lb t hi hs => ⟨hi.1.step hs, hi.2.step hi.1 hs⟩
  refine ⟨hinv.2, fun b => ⟨hinv.1.counted b, fun href lb t hs => ?_⟩⟩
  rcases hinv.1.blocks hs with ⟨hdev, hno⟩ | ⟨x, dev, blockno, hzero, -, hdev, hno⟩
  · rw [hdev, hno]
    exact ⟨rfl, rfl⟩
  · have hne : b ≠ x := by
      rintro rfl
      rw [← hinv.1.counted b, hzero] at href
      exact absurd href (Nat.lt_irrefl 0)
    rw [hdev, hno, update_of_ne hne, update_of_ne hne]
    exact ⟨rfl, rfl⟩

/-- One process has got block 7 and waits for its lock. -/
theorem one_buffer_per_block_waiting : ∃ s, Run Step start [.other] s ∧ s.pc ⟨0, by decide⟩ = .waiting ⟨0, by decide⟩ ∧
    ∀ b, s.cache.refcnt b = s.refs b := by
  have hfirst : (binit.bget 1 7).map Prod.fst = some (some ⟨0, by decide⟩) := by decide +kernel
  obtain ⟨⟨r, c⟩, hget, hr⟩ := Option.map_eq_some_iff.1 hfirst
  obtain rfl : r = some ⟨0, by decide⟩ := hr
  have h1 := Run.single (Step.bget start ⟨0, by decide⟩ 1 7 ⟨0, by decide⟩ c rfl hget)
  exact ⟨_, h1, by simp, fun b => ((one_buffer_per_block h1).2 b).1⟩

end Xv6.Bio
