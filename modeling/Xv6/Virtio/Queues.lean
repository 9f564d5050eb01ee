import Xv6.Virtio.Descriptors

/-!
# Requests in the queues

A request that has its descriptors is at every time in one place: formatted and not yet visible, in the
avail ring, with the device, in the used ring, or done. `QueueInv` says how the descriptor table, the two
rings and the flags of the buffers show where each one is, and there is one lemma for each way in which
a request moves on.
-/

set_option autoImplicit false

namespace Xv6.Virtio

open Function Xv6.Base

/-- A request with its descriptors; `posted` once the device can see it. -/
structure Owner where
  r : Req
  c : Chain
  posted : Bool

/-- The request that a thread at a place is responsible for. -/
def Cont.owner : Cont → Option Owner
  | .publish r c => some ⟨r, c, false⟩
  | .wait r c => some ⟨r, c, true⟩
  | _ => none

/-- The numbers behind the four 16-bit indices, and the heads in the two rings. -/
structure Ghost where
  posted : Nat
  seen : Nat
  used : Nat
  handled : Nat
  avail : List (Fin NUM)
  done : List (Fin NUM)

/-- The head of a chain as an entry of the avail ring and of the used ring. -/
def entry16 (h : Fin NUM) : UInt16 := UInt16.ofNat h

def entry32 (h : Fin NUM) : UInt32 := UInt32.ofNat h

/-- Where the requests of the threads are. -/
structure QueueInv (sh : Shared) (dev : Device) (own : Nat → Option Owner) (g : Ghost) : Prop where
  availIdx : sh.disk.availIdx = UInt16.ofNat g.posted
  seen : dev.seen = UInt16.ofNat g.seen
  usedIdx : sh.disk.usedIdx = UInt16.ofNat g.used
  used_idx : sh.disk.used_idx = UInt16.ofNat g.handled
  availQ : Window sh.disk.availRing g.seen g.posted (g.avail.map entry16)
  usedQ : Window sh.disk.usedRing g.handled g.used (g.done.map entry32)
  nodup : (g.avail ++ (dev.inflight ++ g.done)).Nodup
  queued : ∀ h, h ∈ g.avail ++ (dev.inflight ++ g.done) ↔
    ∃ p o, own p = some o ∧ o.posted = true ∧ o.c.i0 = h ∧ sh.busy o.r.b = true
  status : ∀ h ∈ g.done, (sh.disk.info h).status = 0
  formatted : ∀ {p o}, own p = some o → Formatted sh.disk o.r o.c
  free : ∀ i, sh.disk.free i = false ↔ ∃ p o, own p = some o ∧ i ∈ o.c.idx
  disjoint : ∀ {p q o o' i}, own p = some o → own q = some o' → i ∈ o.c.idx → i ∈ o'.c.idx → p = q
  bufs : ∀ {p q o o'}, own p = some o → own q = some o' → o.r.b = o'.r.b → p = q
  next : ∀ {p o}, own p = some o → o.posted = false →
    sh.disk.availRing (Fin.ofNat NUM g.posted) = entry16 o.c.i0 ∧ sh.busy o.r.b = true

/-! ## Indices -/

theorem cell_ofNat (n : Nat) : cell (UInt16.ofNat n) = Fin.ofNat NUM n := by
  refine Fin.ext ?_
  show (UInt16.ofNat n).toNat % NUM = n % NUM
  rw [UInt16.toNat_ofNat']
  unfold NUM
  omega

theorem ofNat_succ (n : Nat) : UInt16.ofNat n + 1 = UInt16.ofNat (n + 1) := (UInt16.ofNat_add n 1).symm

/-- Indices at most `NUM` apart are equal just if the numbers are. -/
theorem ofNat_eq_iff {m n : Nat} (h : m ≤ n) (h' : n ≤ m + NUM) : UInt16.ofNat m = UInt16.ofNat n ↔ m = n := by
  constructor
  · intro heq
    have hmod := congrArg UInt16.toNat heq
    rw [UInt16.toNat_ofNat', UInt16.toNat_ofNat'] at hmod
    unfold NUM at h'
    omega
  · exact congrArg _

theorem head_mem (c : Chain) : c.i0 ∈ c.idx := by simp [Chain.idx]

variable {l : List (Fin NUM)}

theorem length_le_NUM (h : l.Nodup) : l.length ≤ NUM := by
  have hle := h.length_le_card
  rwa [Fintype.card_fin] at hle

theorem length_lt_NUM (h : l.Nodup) {x : Fin NUM} (hx : x ∉ l) : l.length < NUM :=
  length_le_NUM (List.nodup_cons.2 ⟨hx, h⟩)

/-- Who owns a request after the owner of thread `p` is replaced. -/
theorem update_cases {own : Nat → Option Owner} {p q : Nat} {x : Option Owner} {o : Owner}
    (h : update own p x q = some o) : (q = p ∧ x = some o) ∨ (q ≠ p ∧ own q = some o) := by
  by_cases hqp : q = p
  · subst hqp
    rw [update_self] at h
    exact .inl ⟨rfl, h⟩
  · rw [update_of_ne hqp] at h
    exact .inr ⟨hqp, h⟩

namespace QueueInv

variable {sh : Shared} {dev : Device} {own : Nat → Option Owner} {g : Ghost} {p : Nat} {o : Owner}

theorem init : QueueInv Sys.init.shared Sys.init.dev (fun _ => none) ⟨0, 0, 0, 0, [], []⟩ where
  availIdx := rfl
  seen := rfl
  usedIdx := rfl
  used_idx := rfl
  availQ := Window.empty ..
  usedQ := Window.empty ..
  nodup := List.nodup_nil
  queued := by
    intro h
    constructor
    · intro hmem
      cases hmem
    · rintro ⟨p, o, hp, -⟩
      cases hp
  status := by simp
  formatted := fun hp => by cases hp
  free := by
    intro i
    constructor
    · intro hfree
      cases hfree
    · rintro ⟨p, o, hp, -⟩
      cases hp
  disjoint := fun hp => by cases hp
  bufs := fun hp => by cases hp
  next := fun hp => by cases hp

section

variable (h : QueueInv sh dev own g)
include h

/-- A request with its descriptors, not yet posted or done, is in no queue. -/
theorem not_queued (hp : own p = some o) (hno : o.posted = false ∨ sh.busy o.r.b = false) :
    o.c.i0 ∉ g.avail ++ (dev.inflight ++ g.done) := by
  intro hmem
  obtain ⟨q, o', hq, hposted, hhead, hbusy⟩ := (h.queued _).1 hmem
  have hpq := h.disjoint hp hq (head_mem o.c) (hhead ▸ head_mem o'.c)
  subst hpq
  rw [hp] at hq
  cases hq
  rcases hno with hno | hno
  · rw [hposted] at hno
    cases hno
  · rw [hbusy] at hno
    cases hno

theorem avail_length : g.avail.length ≤ NUM :=
  length_le_NUM (List.nodup_append.1 h.nodup).1

theorem done_length : g.done.length ≤ NUM :=
  length_le_NUM (List.nodup_append.1 (List.nodup_append.1 h.nodup).2.1).2.1

theorem avail_room {x : Fin NUM} (hx : x ∉ g.avail ++ (dev.inflight ++ g.done)) : g.avail.length < NUM := by
  have hlt := length_lt_NUM h.nodup hx
  rw [List.length_append] at hlt
  omega

/-- The device has something to take just if the avail ring is not empty. -/
theorem seen_eq_iff : dev.seen = sh.disk.availIdx ↔ g.avail = [] := by
  have hlast := h.availQ.last_eq
  rw [List.length_map] at hlast
  have hlen := h.avail_length
  rw [h.seen, h.availIdx, ofNat_eq_iff (by omega) (by omega), ← List.length_eq_zero_iff]
  omega

theorem used_eq_iff : sh.disk.used_idx = sh.disk.usedIdx ↔ g.done = [] := by
  have hlast := h.usedQ.last_eq
  rw [List.length_map] at hlast
  have hlen := h.done_length
  rw [h.used_idx, h.usedIdx, ofNat_eq_iff (by omega) (by omega), ← List.length_eq_zero_iff]
  omega

end

/-! ## Descriptors are allocated -/

section

variable (h : QueueInv sh dev own g)
include h

/-- A descriptor that belongs to a request is not free. -/
theorem owned_not_free (hp : own p = some o) {i : Fin NUM}
    (hi : i ∈ o.c.idx) : sh.disk.free i = false := (h.free i).2 ⟨p, o, hp, hi⟩

theorem allocFails {d : Disk} (hd : SameUsed sh.disk d) : QueueInv { sh with disk := d } dev own g := by
  obtain ⟨hfree, hdesc, hrest⟩ := hd
  -- only descriptors that are free have changed
  have hd : d = { sh.disk with desc := d.desc } := calc
    d = { { d with free := sh.disk.free, desc := sh.disk.desc } with free := d.free, desc := d.desc } := rfl
    _ = { sh.disk with desc := d.desc } := by rw [hrest, hfree]
  rw [hd]
  exact { h with
    formatted := fun hp => (h.formatted hp).congr (fun i hi => hdesc i (h.owned_not_free hp hi)) rfl rfl }

/-- A descriptor that is free belongs to no request. -/
theorem fresh_not_owned {c : Chain}
    (hfree : ∀ i ∈ c.idx, sh.disk.free i = true) {q : Nat} {o' : Owner} (hq : own q = some o')
    {i : Fin NUM} (hi : i ∈ c.idx) : i ∉ o'.c.idx := by
  intro hi'
  have hno := h.owned_not_free hq hi'
  rw [hfree i hi] at hno
  cases hno

/-- The head of a request that is being formatted is in no queue. -/
theorem fresh_not_queued {c : Chain} (hfree : ∀ i ∈ c.idx, sh.disk.free i = true) :
    c.i0 ∉ g.avail ++ (dev.inflight ++ g.done) := by
  intro hmem
  obtain ⟨q, o, hq, -, hi, -⟩ := (h.queued _).1 hmem
  exact h.fresh_not_owned hfree hq (head_mem c) (hi ▸ head_mem o.c)

/-- Thread `p` formats a request in free descriptors. -/
theorem formats {r : Req} {c : Chain} (hnd : c.idx.Nodup)
    (hfree : ∀ i ∈ c.idx, sh.disk.free i = true) (hnone : own p = none)
    (hposted : ∀ q o, own q = some o → o.posted = true) (hbuf : ∀ q o, own q = some o → o.r.b ≠ r.b) :
    QueueInv ⟨format r c (sh.disk.takeAll c.idx), update sh.busy r.b true⟩ dev
      (update own p (some ⟨r, c, false⟩)) g := by
  have hhead := h.fresh_not_queued hfree
  have hne : ∀ q o, own q = some o → q ≠ p := by
    rintro q o hq rfl
    rw [hnone] at hq
    cases hq
  -- the other requests are out of reach of `format`
  have hcase : ∀ {q o}, update own p (some ⟨r, c, false⟩) q = some o →
      (q = p ∧ o = ⟨r, c, false⟩) ∨ (q ≠ p ∧ own q = some o) :=
    fun hq => (update_cases hq).imp (fun h => ⟨h.1, (Option.some.inj h.2).symm⟩) id
  have hback : ∀ {q o}, own q = some o → update own p (some ⟨r, c, false⟩) q = some o :=
    fun hq => by rw [update_of_ne (hne _ _ hq), hq]
  have hself : update own p (some ⟨r, c, false⟩) p = some ⟨r, c, false⟩ :=
    update_self ..
  have hout : ∀ {q o}, own q = some o → ∀ i ∈ o.c.idx, i ∉ c.idx :=
    fun hq i hi hic => h.fresh_not_owned hfree hq hic hi
  have hring : (format r c (sh.disk.takeAll c.idx)).availRing =
      update sh.disk.availRing (Fin.ofNat NUM g.posted) (entry16 c.i0) := by
    rw [(format_rest ..).2.2.2.2.2]
    show update sh.disk.availRing (cell sh.disk.availIdx) _ = _
    rw [h.availIdx, cell_ofNat]
    rfl
  refine { h with
      availQ := ?_, queued := fun i => ?_,
      status := fun i hi => ?_, formatted := fun {q o} hq => ?_, free := fun i => ?_,
      disjoint := fun {q q' o o' i} hq hq' hi hi' => ?_, bufs := fun {q q' o o'} hq hq' hb => ?_,
      next := fun {q o} hq hn => ?_ }
  · show Window (format r c (sh.disk.takeAll c.idx)).availRing _ _ _
    rw [hring]
    exact h.availQ.write (by rw [List.length_map]; exact h.avail_room hhead) _
  · rw [h.queued]
    constructor
    · rintro ⟨q, o, hq, hpost, hi, hbusy⟩
      refine ⟨q, o, hback hq, hpost, hi, ?_⟩
      show update sh.busy r.b true o.r.b = true
      rw [update_of_ne (hbuf q o hq)]
      exact hbusy
    · rintro ⟨q, o, hq, hpost, hi, hbusy⟩
      rcases hcase hq with ⟨-, rfl⟩ | ⟨-, hq⟩
      · cases hpost
      · refine ⟨q, o, hq, hpost, hi, ?_⟩
        rw [← hbusy]
        exact (update_of_ne (hbuf q o hq) ..).symm
  · have hne : i ≠ c.i0 := by
      rintro rfl
      exact hhead (List.mem_append_right _ (List.mem_append_right _ hi))
    rw [format_info hne]
    exact h.status i hi
  · rcases hcase hq with ⟨-, rfl⟩ | ⟨-, hq⟩
    · exact format_formatted hnd
    · have hi0 : o.c.i0 ≠ c.i0 := fun heq => hout hq _ (head_mem o.c) (heq ▸ head_mem c)
      refine (h.formatted hq).congr (fun i hi => ?_) ?_ ?_
      · exact format_desc (hout hq i hi)
      · exact format_op hi0
      · exact congrArg Info.b (format_info hi0)
  · show (if i ∈ c.idx then false else sh.disk.free i) = false ↔ _
    constructor
    · intro hi
      split_ifs at hi with hmem
      · exact ⟨p, _, hself, hmem⟩
      · obtain ⟨q, o, hq, hi⟩ := (h.free i).1 hi
        exact ⟨q, o, hback hq, hi⟩
    · rintro ⟨q, o, hq, hi⟩
      rcases hcase hq with ⟨-, rfl⟩ | ⟨-, hq⟩
      · rw [if_pos hi]
      · rw [h.owned_not_free hq hi, ite_self]
  · rcases hcase hq with ⟨h1, rfl⟩ | ⟨-, hq1⟩
    · rcases hcase hq' with ⟨h2, -⟩ | ⟨-, hq2⟩
      · exact h1.trans h2.symm
      · exact absurd hi (hout hq2 i hi')
    · rcases hcase hq' with ⟨-, rfl⟩ | ⟨-, hq2⟩
      · exact absurd hi' (hout hq1 i hi)
      · exact h.disjoint hq1 hq2 hi hi'
  · rcases hcase hq with ⟨h1, rfl⟩ | ⟨-, hq1⟩
    · rcases hcase hq' with ⟨h2, -⟩ | ⟨-, hq2⟩
      · exact h1.trans h2.symm
      · exact absurd hb.symm (hbuf q' o' hq2)
    · rcases hcase hq' with ⟨-, rfl⟩ | ⟨-, hq2⟩
      · exact absurd hb (hbuf q o hq1)
      · exact h.bufs hq1 hq2 hb
  · rcases hcase hq with ⟨-, rfl⟩ | ⟨-, hq⟩
    · refine ⟨?_, update_self ..⟩
      rw [hring, update_self]
    · rw [hposted q o hq] at hn
      cases hn

end

/-! ## A request moves on -/

section

variable (h : QueueInv sh dev own g)
include h

/-- The request of thread `p` becomes visible in the avail ring. -/
theorem publishes {r : Req} {c : Chain}
    (hp : own p = some ⟨r, c, false⟩) (hposted : ∀ q o, q ≠ p → own q = some o → o.posted = true) :
    QueueInv { sh with disk := { sh.disk with availIdx := sh.disk.availIdx + 1 } } dev
      (update own p (some ⟨r, c, true⟩))
      { g with posted := g.posted + 1, avail := g.avail ++ [c.i0] } := by
  have hhead := h.not_queued hp (.inl rfl)
  obtain ⟨hentry, hbusy⟩ := h.next hp rfl
  -- the owners have the requests that they had
  have hcase : ∀ {q o}, update own p (some ⟨r, c, true⟩) q = some o →
      ∃ o0, own q = some o0 ∧ o0.r = o.r ∧ o0.c = o.c ∧ (q ≠ p → o0 = o) ∧ o.posted = true := by
    intro q o hq
    rcases update_cases hq with ⟨rfl, ho⟩ | ⟨hne, ho⟩
    · cases ho
      exact ⟨_, hp, rfl, rfl, fun hne => absurd rfl hne, rfl⟩
    · exact ⟨o, ho, rfl, rfl, fun _ => rfl, hposted q o hne ho⟩
  have hback : ∀ {q o}, own q = some o → ∃ o1, o1.r = o.r ∧ o1.c = o.c ∧ o1.posted = true ∧
      update own p (some ⟨r, c, true⟩) q = some o1 := by
    intro q o hq
    by_cases hne : q = p
    · subst hne
      rw [hp] at hq
      cases hq
      exact ⟨⟨r, c, true⟩, rfl, rfl, rfl, update_self ..⟩
    · exact ⟨o, rfl, rfl, hposted q o hne hq, by rw [update_of_ne hne, hq]⟩
  refine { h with
      availIdx := ?_, availQ := ?_, nodup := ?_, queued := fun i => ?_, formatted := fun {q o} hq => ?_,
      free := fun i => ?_,
      disjoint := fun {q q' o o' i} hq hq' hi hi' => ?_, bufs := fun {q q' o o'} hq hq' hb => ?_,
      next := fun {q o} hq hn => ?_ }
  · show sh.disk.availIdx + 1 = _
    rw [h.availIdx, ofNat_succ]
  · show Window _ _ _ ((g.avail ++ [c.i0]).map entry16)
    rw [List.map_append]
    exact h.availQ.push (by rw [List.length_map]; exact h.avail_room hhead) hentry
  · show ((g.avail ++ [c.i0]) ++ (dev.inflight ++ g.done)).Nodup
    rw [List.append_assoc, List.singleton_append, List.nodup_middle]
    exact List.nodup_cons.2 ⟨hhead, h.nodup⟩
  · have hmem : i ∈ (g.avail ++ [c.i0]) ++ (dev.inflight ++ g.done) ↔
        i ∈ g.avail ++ (dev.inflight ++ g.done) ∨ i = c.i0 := by
      simp only [List.mem_append, List.mem_singleton]
      tauto
    refine hmem.trans ?_
    constructor
    · rintro (hi | rfl)
      · obtain ⟨q, o, hq, -, hi, hb⟩ := (h.queued i).1 hi
        obtain ⟨o1, hr, hc, hpost, hq1⟩ := hback hq
        exact ⟨q, o1, hq1, hpost, by rw [hc, hi], by rw [hr]; exact hb⟩
      · exact ⟨p, ⟨r, c, true⟩, update_self .., rfl, rfl, hbusy⟩
    · rintro ⟨q, o, hq, -, hi, hb⟩
      by_cases hne : q = p
      · subst hne
        rw [update_self] at hq
        cases hq
        exact .inr hi.symm
      · rw [update_of_ne hne] at hq
        exact .inl ((h.queued i).2 ⟨q, o, hq, hposted q o hne hq, hi, hb⟩)
  · obtain ⟨o0, hq0, hr, hc, -⟩ := hcase hq
    rw [← hr, ← hc]
    exact (h.formatted hq0).congr (fun _ _ => rfl) rfl rfl
  · refine (h.free i).trans ⟨?_, ?_⟩
    · rintro ⟨q, o, hq, hi⟩
      obtain ⟨o1, -, hc, -, hq1⟩ := hback hq
      exact ⟨q, o1, hq1, by rw [hc]; exact hi⟩
    · rintro ⟨q, o, hq, hi⟩
      obtain ⟨o0, hq0, -, hc, -⟩ := hcase hq
      exact ⟨q, o0, hq0, by rw [hc]; exact hi⟩
  · obtain ⟨o0, hq0, -, hc, -⟩ := hcase hq
    obtain ⟨o0', hq0', -, hc', -⟩ := hcase hq'
    exact h.disjoint hq0 hq0' (by rw [hc]; exact hi) (by rw [hc']; exact hi')
  · obtain ⟨o0, hq0, hr, -⟩ := hcase hq
    obtain ⟨o0', hq0', hr', -⟩ := hcase hq'
    exact h.bufs hq0 hq0' (by rw [hr, hr']; exact hb)
  · obtain ⟨-, -, -, -, -, hpost⟩ := hcase hq
    rw [hpost] at hn
    cases hn

/-- The queues may be divided in another way. -/
theorem requeue (hperm : l.Perm (g.avail ++ (dev.inflight ++ g.done))) :
    l.Nodup ∧ ∀ i, i ∈ l ↔ ∃ p o, own p = some o ∧ o.posted = true ∧ o.c.i0 = i ∧ sh.busy o.r.b = true :=
  ⟨hperm.nodup_iff.2 h.nodup, fun i => hperm.mem_iff.trans (h.queued i)⟩

/-- The device takes the oldest request of the avail ring. -/
theorem takes (hne : dev.seen ≠ sh.disk.availIdx) {x : Fin NUM} (hx : (sh.disk.availRing (cell dev.seen)).toNat = x) :
    ∃ rest, g.avail = x :: rest ∧ QueueInv sh ⟨dev.seen + 1, dev.inflight ++ [x]⟩ own
      { g with seen := g.seen + 1, avail := rest } := by
  cases hav : g.avail with
  | nil => exact absurd (h.seen_eq_iff.2 hav) hne
  | cons y rest =>
    have hq := h.availQ
    rw [hav, List.map_cons] at hq
    obtain ⟨hentry, hrest⟩ := hq.pop
    have hyx : y = x := by
      rw [h.seen, cell_ofNat, hentry, entry16, toNat_ofNat] at hx
      exact Fin.ext hx
    subst hyx
    have hperm : (rest ++ ((dev.inflight ++ [y]) ++ g.done)).Perm (g.avail ++ (dev.inflight ++ g.done)) := by
      rw [hav]
      simp only [List.append_assoc, List.cons_append]
      rw [← List.append_assoc, ← List.append_assoc]
      exact List.perm_middle
    obtain ⟨hnd, hqueued⟩ := h.requeue hperm
    refine ⟨rest, rfl, { h with seen := ?_, availQ := hrest, nodup := hnd, queued := hqueued }⟩
    rw [h.seen, ofNat_succ]

/-- The device completes a request: the one that it finds in the chain is the owner's. -/
theorem completes {x j : Fin NUM} {r : Req} (hx : x ∈ dev.inflight)
    (hreq : sh.disk.request x = some (r, j)) :
    j = x ∧ (∃ p c, own p = some ⟨r, c, true⟩ ∧ c.i0 = x ∧ sh.busy r.b = true) ∧
      QueueInv { sh with disk := sh.disk.complete x j } { dev with inflight := dev.inflight.erase x }
        own { g with used := g.used + 1, done := g.done ++ [x] } := by
  obtain ⟨p, ⟨r', c, posted⟩, hp, hpost, hi, hbusy⟩ :=
    (h.queued x).1 (List.mem_append_right _ (List.mem_append_left _ hx))
  cases hpost
  subst hi
  have hread := (h.formatted hp).request
  rw [hreq] at hread
  cases hread
  obtain ⟨hndI, hndD, hdis⟩ := List.nodup_append.1 (List.nodup_append.1 h.nodup).2.1
  have hnot : c.i0 ∉ g.done := fun hmem => hdis _ hx _ hmem rfl
  have hroom := length_lt_NUM hndD hnot
  have hperm : (g.avail ++ (dev.inflight.erase c.i0 ++ (g.done ++ [c.i0]))).Perm
      (g.avail ++ (dev.inflight ++ g.done)) := by
    refine .append_left _ ?_
    rw [← List.append_assoc]
    refine (List.perm_append_singleton _ _).trans ?_
    rw [← List.cons_append]
    exact (List.perm_cons_erase hx).symm.append_right _
  obtain ⟨hnd, hqueued⟩ := h.requeue hperm
  have hcell : cell sh.disk.usedIdx = Fin.ofNat NUM g.used := by rw [h.usedIdx, cell_ofNat]
  refine ⟨rfl, ⟨p, c, hp, rfl, hbusy⟩, { h with
      usedIdx := ?_, usedQ := ?_, nodup := hnd, queued := hqueued, status := fun i hi => ?_,
      formatted := fun {q o} hq => ?_ }⟩
  · show sh.disk.usedIdx + 1 = _
    rw [h.usedIdx, ofNat_succ]
  · show Window (update sh.disk.usedRing (cell sh.disk.usedIdx) (entry32 c.i0)) _ _ ((g.done ++ [c.i0]).map entry32)
    rw [List.map_append, hcell]
    refine (h.usedQ.write (by rw [List.length_map]; exact hroom) _).push (by rw [List.length_map]; exact hroom) ?_
    rw [update_self]
  · show (update sh.disk.info c.i0 { sh.disk.info c.i0 with status := 0 } i).status = 0
    by_cases hic : i = c.i0
    · subst hic
      rw [update_self]
    · rw [update_of_ne hic]
      rcases List.mem_append.1 hi with hi | hi
      · exact h.status i hi
      · exact absurd (List.mem_singleton.1 hi) hic
  · refine (h.formatted hq).congr (fun _ _ => rfl) rfl ?_
    show (update sh.disk.info c.i0 { sh.disk.info c.i0 with status := 0 } o.c.i0).b = _
    by_cases hic : o.c.i0 = c.i0
    · rw [hic, update_self]
    · rw [update_of_ne hic]

/-- The oldest entry of the used ring names a request that has been completed; `b->disk` of its buffer is
cleared. -/
theorem clears (hne : sh.disk.used_idx ≠ sh.disk.usedIdx) :
    ∃ p r c rest, g.done = c.i0 :: rest ∧ own p = some ⟨r, c, true⟩ ∧ sh.busy r.b = true ∧
      (sh.disk.usedRing (cell sh.disk.used_idx)).toNat = c.i0 ∧ sh.disk.info c.i0 = ⟨some r.b, 0⟩ ∧
      QueueInv ⟨{ sh.disk with used_idx := sh.disk.used_idx + 1 }, update sh.busy r.b false⟩ dev
        own { g with handled := g.handled + 1, done := rest } := by
  cases hdone : g.done with
  | nil => exact absurd (h.used_eq_iff.2 hdone) hne
  | cons x rest =>
    have hx : x ∈ g.done := by
      rw [hdone]
      exact .head _
    obtain ⟨p, ⟨r, c, posted⟩, hp, hpost, hi, hbusy⟩ :=
      (h.queued x).1 (List.mem_append_right _ (List.mem_append_right _ hx))
    cases hpost
    subst hi
    have hq := h.usedQ
    rw [hdone, List.map_cons] at hq
    obtain ⟨hentry, hrest⟩ := hq.pop
    have hperm : (c.i0 :: (g.avail ++ (dev.inflight ++ rest))).Perm (g.avail ++ (dev.inflight ++ g.done)) := by
      rw [hdone, ← List.append_assoc, ← List.append_assoc]
      exact List.perm_middle.symm
    obtain ⟨hnd, hqueued⟩ := h.requeue hperm
    obtain ⟨hhead, hnd⟩ := List.nodup_cons.1 hnd
    -- the buffer belongs to this request only
    have hother : ∀ {q o}, own q = some o → q ≠ p → update sh.busy r.b false o.r.b = sh.busy o.r.b :=
      fun hq hqp => update_of_ne (fun hb => hqp (h.bufs hq hp hb)) ..
    refine ⟨p, r, c, rest, rfl, hp, hbusy, ?_, ?_, { h with
        used_idx := ?_, usedQ := hrest, nodup := hnd, queued := fun i => ?_,
        status := fun i hi => h.status i (by rw [hdone]; exact .tail _ hi),
        formatted := fun hq => (h.formatted hq).congr (fun _ _ => rfl) rfl rfl, next := fun {q o} hq hn => ?_ }⟩
    · rw [h.used_idx, cell_ofNat, hentry]
      generalize c.i0 = i
      revert i
      decide
    · have hb := (h.formatted hp).b
      have hs := h.status _ hx
      cases hinfo : sh.disk.info c.i0 with
      | mk b status =>
        rw [hinfo] at hb hs
        cases hb
        cases hs
        rfl
    · show sh.disk.used_idx + 1 = _
      rw [h.used_idx, ofNat_succ]
    · constructor
      · intro hi
        obtain ⟨q, o, hq, hpost, hhd, hb⟩ := (hqueued i).1 (.tail _ hi)
        refine ⟨q, o, hq, hpost, hhd, ?_⟩
        have hqp : q ≠ p := by
          rintro rfl
          rw [hp] at hq
          cases hq
          exact hhead (hhd ▸ hi)
        exact (hother hq hqp).trans hb
      · rintro ⟨q, o, hq, hpost, hhd, hb⟩
        have hqp : q ≠ p := by
          rintro rfl
          rw [hp] at hq
          cases hq
          exact absurd hb (by simp)
        have hb' : sh.busy o.r.b = true := (hother hq hqp).symm.trans hb
        rcases List.mem_cons.1 ((hqueued i).2 ⟨q, o, hq, hpost, hhd, hb'⟩) with hic | hi
        · refine absurd (h.disjoint hq hp (head_mem o.c) ?_) hqp
          rw [hhd, hic]
          exact head_mem c
        · exact hi
    · obtain ⟨hring, hb⟩ := h.next hq hn
      have hqp : q ≠ p := by
        rintro rfl
        rw [hp] at hq
        cases hq
        cases hn
      exact ⟨hring, (hother hq hqp).trans hb⟩

/-- A request that is done gives its descriptors back. -/
theorem finishes {r : Req} {c : Chain} (hp : own p = some ⟨r, c, true⟩)
    (hbusy : sh.busy r.b = false) :
    freeChain (NUM + 1) c.i0 (sh.disk.setInfo c.i0 { sh.disk.info c.i0 with b := none }) =
        .ok ((sh.disk.setInfo c.i0 { sh.disk.info c.i0 with b := none }).giveAll c.idx) ∧
      QueueInv { sh with
        disk := (sh.disk.setInfo c.i0 { sh.disk.info c.i0 with b := none }).giveAll c.idx } dev
        (update own p none) g := by
  have hform := h.formatted hp
  have hhead := h.not_queued hp (.inr hbusy)
  refine ⟨freeChain_spec hform.nodup hform.desc0 hform.desc1 hform.desc2 fun i hi => h.owned_not_free hp hi, ?_⟩
  have hcase : ∀ {q o}, update own p none q = some o → q ≠ p ∧ own q = some o := by
    intro q o hq
    rcases update_cases hq with ⟨-, ho⟩ | hq
    · cases ho
    · exact hq
  have hback : ∀ {q o}, own q = some o → q ≠ p → update own p none q = some o :=
    fun hq hqp => by rw [update_of_ne hqp, hq]
  have hout : ∀ {q o}, own q = some o → q ≠ p → ∀ i ∈ o.c.idx, i ∉ c.idx :=
    fun hq hqp i hi hic => hqp (h.disjoint hq hp hi hic)
  refine { h with
      queued := fun i => ?_,
      status := fun i hi => ?_, formatted := fun {q o} hq => ?_, free := fun i => ?_,
      disjoint := fun hq hq' hi hi' => h.disjoint (hcase hq).2 (hcase hq').2 hi hi',
      bufs := fun hq hq' hb => h.bufs (hcase hq).2 (hcase hq').2 hb,
      next := fun hq hn => h.next (hcase hq).2 hn }
  · refine (h.queued i).trans ⟨?_, ?_⟩
    · rintro ⟨q, o, hq, hpost, hi, hb⟩
      refine ⟨q, o, hback hq ?_, hpost, hi, hb⟩
      rintro rfl
      rw [hp] at hq
      cases hq
      rw [hbusy] at hb
      cases hb
    · rintro ⟨q, o, hq, hpost, hi, hb⟩
      exact ⟨q, o, (hcase hq).2, hpost, hi, hb⟩
  · have hic : i ≠ c.i0 := by
      rintro rfl
      exact hhead (List.mem_append_right _ (List.mem_append_right _ hi))
    show (update sh.disk.info c.i0 _ i).status = 0
    rw [update_of_ne hic]
    exact h.status i hi
  · obtain ⟨hqp, hq⟩ := hcase hq
    refine (h.formatted hq).congr (fun i hi => ?_) rfl ?_
    · show (if i ∈ c.idx then Desc.zero else sh.disk.desc i) = _
      rw [if_neg (hout hq hqp i hi)]
    · have hne : o.c.i0 ≠ c.i0 := by
        intro heq
        refine hout hq hqp _ (head_mem o.c) ?_
        rw [heq]
        exact head_mem c
      show (update sh.disk.info c.i0 _ o.c.i0).b = _
      rw [update_of_ne hne]
  · show (if i ∈ c.idx then true else sh.disk.free i) = false ↔ _
    constructor
    · intro hi
      split_ifs at hi with hmem
      obtain ⟨q, o, hq, hi⟩ := (h.free i).1 hi
      refine ⟨q, o, hback hq ?_, hi⟩
      rintro rfl
      rw [hp] at hq
      cases hq
      exact hmem hi
    · rintro ⟨q, o, hq, hi⟩
      obtain ⟨hqp, hq⟩ := hcase hq
      rw [if_neg (hout hq hqp i hi)]
      exact h.owned_not_free hq hi

end

end QueueInv

end Xv6.Virtio
