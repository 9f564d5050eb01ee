import Xv6.Virtio.Moves

/-!
# The request protocol of the disk

Along every run the events of one buffer come in rounds: a thread publishes a request for it, the device
completes just this request, the interrupt handler clears `b->disk`, and the thread's call of
`virtio_disk_rw` returns. `follow` is the automaton of these rounds. The main theorem says that no run
leaves it, that the descriptors are divided between the free ones and the chains of the requests, that the
driver does not panic and that no step writes over an avail entry that the device has not taken.
-/

set_option autoImplicit false

namespace Xv6.Virtio

open Function Xv6.Base

/-! ## Rounds of a buffer -/

/-- Where a buffer is in its round. -/
inductive Phase where
  | idle
  | posted (p : Nat) (r : Req)
  | completed (p : Nat) (r : Req)
  | cleared (p : Nat) (r : Req)
  deriving DecidableEq, Repr

/-- The phase of buffer `b` after an event; an event out of its turn has no next phase. -/
def follow (b : Nat) (ph : Phase) : Label → Option Phase
  | .silent => some ph
  | .published p r =>
    if r.b = b then (if ph = .idle then some (.posted p r) else none) else some ph
  | .completed r =>
    if r.b = b then
      match ph with
      | .posted p r' => if r' = r then some (.completed p r) else none
      | _ => none
    else some ph
  | .cleared b' =>
    if b' = b then
      match ph with
      | .completed p r => some (.cleared p r)
      | _ => none
    else some ph
  | .returned p r =>
    if r.b = b then (if ph = .cleared p r then some .idle else none) else some ph

/-- The phase of buffer `b` after a sequence of events. -/
def phase (b : Nat) (ls : List Label) : Option Phase := ls.foldlM (follow b) .idle

/-- What a phase says about the state: who waits for the buffer, and whether `b->disk` is set. -/
def Phase.Shows (s : Sys) (b : Nat) : Phase → Prop
  | .idle => ∀ p r c, (s.pc p).cont = some (.wait r c) → r.b ≠ b
  | .posted p r | .completed p r =>
    r.b = b ∧ s.shared.busy b = true ∧ ∃ c, (s.pc p).cont = some (.wait r c)
  | .cleared p r => r.b = b ∧ s.shared.busy b = false ∧ ∃ c, (s.pc p).cont = some (.wait r c)

/-- The buffers of the requests that the device has completed, in order. -/
def completedBufs (ls : List Label) : List Nat :=
  ls.filterMap fun l => match l with
    | .completed r => some r.b
    | _ => none

/-- The buffers whose `b->disk` has been cleared, in order. -/
def clearedBufs (ls : List Label) : List Nat :=
  ls.filterMap fun l => match l with
    | .cleared b => some b
    | _ => none

/-- The free descriptors and the chains of the requests divide the descriptors. -/
structure Partitioned (s : Sys) : Prop where
  free : ∀ i, s.shared.disk.free i = true ↔ ¬ ∃ p o, s.owner p = some o ∧ i ∈ o.c.idx
  chain : ∀ p o, s.owner p = some o → o.c.idx.Nodup
  disjoint : ∀ p q o o' i, s.owner p = some o → s.owner q = some o' → i ∈ o.c.idx → i ∈ o'.c.idx →
    p = q

/-- The avail entries that the device has not taken stay as they are. -/
def KeepsAvail (s s' : Sys) : Prop :=
  ∀ i : UInt16, i < s.shared.disk.availIdx - s.dev.seen →
    s'.shared.disk.availRing (cell (s.dev.seen + i)) = s.shared.disk.availRing (cell (s.dev.seen + i))

/-- `b->disk` is cleared by the step that says so, and for that buffer only. -/
def ClearsOne (s : Sys) (l : Label) (s' : Sys) : Prop :=
  ∀ b, (s.shared.busy b = true ∧ s'.shared.busy b = false) ↔ l = .cleared b

/-! ## A phase in terms of the queues -/

/-- What a phase says about the place of the request in the queues. -/
def Phase.At (s : Sys) (g : Ghost) (b : Nat) : Phase → Prop
  | .idle => ∀ p r c, s.owner p = some ⟨r, c, true⟩ → r.b ≠ b
  | .posted p r => r.b = b ∧ ∃ c, s.owner p = some ⟨r, c, true⟩ ∧ c.i0 ∈ g.avail ++ s.dev.inflight
  | .completed p r => r.b = b ∧ ∃ c, s.owner p = some ⟨r, c, true⟩ ∧ c.i0 ∈ g.done
  | .cleared p r => r.b = b ∧ s.shared.busy b = false ∧ ∃ c, s.owner p = some ⟨r, c, true⟩

theorem owner_wait {s : Sys} {p : Nat} {r : Req} {c : Chain} :
    s.owner p = some ⟨r, c, true⟩ ↔ (s.pc p).cont = some (.wait r c) := by
  constructor
  · intro h
    obtain ⟨k, hk, ho, -⟩ := owner_cont h
    cases k with
    | wait r' c' =>
      cases ho
      exact hk
    | _ => cases ho
  · intro h
    show (s.pc p).cont.bind Cont.owner = _
    rw [h]
    rfl

namespace Phase

variable {s s' : Sys} {g g' : Ghost} {b : Nat} {ph : Phase}

theorem At.shows (h : QueueInv s.shared s.dev s.owner g) (hat : ph.At s g b) : ph.Shows s b := by
  -- a request in a queue has its buffer busy
  have hbusy : ∀ {p r c}, s.owner p = some ⟨r, c, true⟩ →
      c.i0 ∈ g.avail ++ (s.dev.inflight ++ g.done) → s.shared.busy r.b = true := by
    intro p r c hp hmem
    obtain ⟨q, o, hq, -, hi, hb⟩ := (h.queued _).1 hmem
    have hqp : q = p := by
      refine h.disjoint hq hp (head_mem o.c) ?_
      rw [hi]
      exact head_mem c
    subst hqp
    rw [hp] at hq
    cases hq
    exact hb
  cases ph with
  | idle => exact fun p r c hk => hat p r c (owner_wait.2 hk)
  | posted p r =>
    obtain ⟨rfl, c, hp, hmem⟩ := hat
    refine ⟨rfl, hbusy hp ?_, c, owner_wait.1 hp⟩
    rw [← List.append_assoc]
    exact List.mem_append_left _ hmem
  | completed p r =>
    obtain ⟨rfl, c, hp, hmem⟩ := hat
    exact ⟨rfl, hbusy hp (List.mem_append_right _ (List.mem_append_right _ hmem)), c, owner_wait.1 hp⟩
  | cleared p r =>
    obtain ⟨rfl, hb, c, hp⟩ := hat
    exact ⟨rfl, hb, c, owner_wait.1 hp⟩

/-- A thread that waits for the buffer is the one that the phase names. -/
theorem At.of_owner (h : QueueInv s.shared s.dev s.owner g) (hat : ph.At s g b) {p : Nat} {r : Req}
    {c : Chain} (hp : s.owner p = some ⟨r, c, true⟩) (hb : r.b = b) :
    (ph = .posted p r ∧ c.i0 ∈ g.avail ++ s.dev.inflight) ∨ (ph = .completed p r ∧ c.i0 ∈ g.done) ∨
      (ph = .cleared p r ∧ s.shared.busy b = false) := by
  have hsame : ∀ {q r' c'}, s.owner q = some ⟨r', c', true⟩ → r'.b = b → q = p ∧ r' = r ∧ c' = c := by
    intro q r' c' hq hb'
    have hqp : q = p := h.bufs hq hp (hb'.trans hb.symm)
    subst hqp
    rw [hp] at hq
    cases hq
    exact ⟨rfl, rfl, rfl⟩
  cases ph with
  | idle => exact absurd hb (hat p r c hp)
  | posted q r' =>
    obtain ⟨hb', c', hq, hmem⟩ := hat
    obtain ⟨rfl, rfl, rfl⟩ := hsame hq hb'
    exact .inl ⟨rfl, hmem⟩
  | completed q r' =>
    obtain ⟨hb', c', hq, hmem⟩ := hat
    obtain ⟨rfl, rfl, rfl⟩ := hsame hq hb'
    exact .inr (.inl ⟨rfl, hmem⟩)
  | cleared q r' =>
    obtain ⟨hb', hbusy, c', hq⟩ := hat
    obtain ⟨rfl, rfl, rfl⟩ := hsame hq hb'
    exact .inr (.inr ⟨rfl, hbusy⟩)

/-- A buffer that no thread waits for is in no round. -/
theorem At.eq_idle (hat : ph.At s g b) (h : ∀ p r c, s.owner p = some ⟨r, c, true⟩ → r.b ≠ b) : ph = .idle := by
  cases ph with
  | idle => rfl
  | posted p r | completed p r =>
    obtain ⟨hb, c, hp, -⟩ := hat
    exact absurd hb (h p r c hp)
  | cleared p r =>
    obtain ⟨hb, -, c, hp⟩ := hat
    exact absurd hb (h p r c hp)

/-- A step that does not concern the requests for buffer `b` leaves its phase. -/
theorem At.keep (hat : ph.At s g b)
    (hown : ∀ q r c, r.b = b → (s'.owner q = some ⟨r, c, true⟩ ↔ s.owner q = some ⟨r, c, true⟩))
    (hqueue : ∀ q r c, r.b = b → s.owner q = some ⟨r, c, true⟩ →
      c.i0 ∈ g.avail ++ s.dev.inflight → c.i0 ∈ g'.avail ++ s'.dev.inflight)
    (hdone : ∀ q r c, r.b = b → s.owner q = some ⟨r, c, true⟩ → c.i0 ∈ g.done → c.i0 ∈ g'.done)
    (hbusy : s'.shared.busy b = s.shared.busy b) : ph.At s' g' b := by
  cases ph with
  | idle => exact fun p r c hp hb => hat p r c ((hown p r c hb).1 hp) hb
  | posted p r =>
    obtain ⟨hb, c, hp, hmem⟩ := hat
    exact ⟨hb, c, (hown p r c hb).2 hp, hqueue p r c hb hp hmem⟩
  | completed p r =>
    obtain ⟨hb, c, hp, hmem⟩ := hat
    exact ⟨hb, c, (hown p r c hb).2 hp, hdone p r c hb hp hmem⟩
  | cleared p r =>
    obtain ⟨hb, hclear, c, hp⟩ := hat
    exact ⟨hb, hbusy.trans hclear, c, (hown p r c hb).2 hp⟩

end Phase

section Moves

variable {s s' : Sys} {g g' : Ghost} {l : Label}

/-- The heads of two requests for different buffers differ. -/
theorem heads_ne (h : QueueInv s.shared s.dev s.owner g) {p q : Nat} {o o' : Owner}
    (hp : s.owner p = some o) (hq : s.owner q = some o') (hb : o.r.b ≠ o'.r.b) : o.c.i0 ≠ o'.c.i0 := by
  intro heq
  have hpq : p = q := by
    refine h.disjoint hp hq (head_mem o.c) ?_
    rw [heq]
    exact head_mem o'.c
  subst hpq
  rw [hp] at hq
  cases hq
  exact hb rfl

/-- Owners of requests for another buffer than that of the request that moves. -/
theorem update_owner_iff {own : Nat → Option Owner} {p : Nat} {o : Owner} {x : Option Owner} {b : Nat}
    (hp : own p = some o) (hb : o.r.b ≠ b) (hx : ∀ o', x = some o' → o'.r.b ≠ b) (q : Nat) (r : Req)
    (c : Chain) (hr : r.b = b) : update own p x q = some ⟨r, c, true⟩ ↔ own q = some ⟨r, c, true⟩ := by
  by_cases hqp : q = p
  · subst hqp
    rw [update_self]
    constructor
    · intro h
      exact absurd hr (hx _ h)
    · intro h
      rw [hp] at h
      cases h
      exact absurd hr hb
  · rw [update_of_ne hqp]

section

variable (hm : Move s s' g g' l) (h : Inv s g)
include hm h

/-- The events follow the rounds of every buffer. -/
theorem Move.follows (h' : Inv s' g') {b : Nat} {ph : Phase}
    (hat : ph.At s g b) : ∃ ph', follow b ph l = some ph' ∧ ph'.At s' g' b := by
  cases hm with
  | quiet hquiet howner hg =>
    subst hg
    refine ⟨ph, rfl, hat.keep (fun q r c _ => by rw [howner]) (fun q r c _ _ hmem => ?_)
      (fun q r c _ _ hmem => hmem) (by rw [hquiet.busy])⟩
    rw [hquiet.dev]
    exact hmem
  | format p r c hnone howner hg hdev hbusy hinfo hring hfresh =>
    subst hg
    have hown : ∀ q r' c', s'.owner q = some ⟨r', c', true⟩ ↔ s.owner q = some ⟨r', c', true⟩ := by
      intro q r' c'
      rw [howner]
      by_cases hqp : q = p
      · subst hqp
        rw [update_self, hnone]
        simp
      · rw [update_of_ne hqp]
    refine ⟨ph, rfl, ?_⟩
    by_cases hb : r.b = b
    · -- the new request is the only one for the buffer
      have hidle : ∀ q r' c', s.owner q = some ⟨r', c', true⟩ → r'.b ≠ b := by
        intro q r' c' hq hb'
        have hp : s'.owner p = some ⟨r, c, false⟩ := by rw [howner, update_self]
        have hqp : q = p := h'.queues.bufs ((hown q r' c').2 hq) hp (hb'.trans hb.symm)
        rw [hqp, hnone] at hq
        cases hq
      rw [hat.eq_idle hidle]
      exact fun q r' c' hq => hidle q r' c' ((hown q r' c').1 hq)
    · refine hat.keep (fun q r' c' _ => hown q r' c') (fun q r' c' _ _ hmem => ?_) (fun q r' c' _ _ hmem => hmem) ?_
      · rw [hdev]
        exact hmem
      · rw [hbusy, update_of_ne (Ne.symm hb)]
  | publish p r c hp howner hg hquiet =>
    have hp' : s'.owner p = some ⟨r, c, true⟩ := by rw [howner, update_self]
    by_cases hb : r.b = b
    · have hidle : ∀ q r' c', s.owner q = some ⟨r', c', true⟩ → r'.b ≠ b := by
        intro q r' c' hq hb'
        have hqp : q = p := h.queues.bufs hq hp (hb'.trans hb.symm)
        rw [hqp, hp] at hq
        cases hq
      have hph := hat.eq_idle hidle
      subst hph
      refine ⟨.posted p r, ?_, hb, c, hp', ?_⟩
      · show (if r.b = b then _ else _) = _
        rw [if_pos hb, if_pos rfl]
      · rw [hg]
        exact List.mem_append_left _ (List.mem_append_right _ (List.mem_singleton.2 rfl))
    · refine ⟨ph, if_neg hb, hat.keep (fun q r' c' hr => ?_) (fun q r' c' _ _ hmem => ?_)
        (fun q r' c' _ _ hmem => ?_) (by rw [hquiet.busy])⟩
      · rw [howner]
        exact update_owner_iff hp hb (by rintro o' ⟨⟩; exact hb) q r' c' hr
      · rw [hg, hquiet.dev]
        rcases List.mem_append.1 hmem with hmem | hmem
        · exact List.mem_append_left _ (List.mem_append_left _ hmem)
        · exact List.mem_append_right _ hmem
      · rw [hg]
        exact hmem
  | take x rest havail hshared howner hdev hg =>
    refine ⟨ph, rfl, hat.keep (fun q r c _ => by rw [howner]) (fun q r c _ _ hmem => ?_)
      (fun q r c _ _ hmem => ?_) (by rw [hshared])⟩
    · rw [hg, hdev]
      rw [havail] at hmem
      simp only [List.mem_append, List.mem_cons, List.not_mem_nil, or_false] at hmem ⊢
      tauto
    · rw [hg]
      exact hmem
  | complete p r c hp hmem howner hdev hshared hg =>
    by_cases hb : r.b = b
    · refine ⟨.completed p r, ?_, hb, c, by rw [howner, hp], ?_⟩
      · rcases hat.of_owner h.queues hp hb with ⟨rfl, -⟩ | ⟨-, hdone⟩ | ⟨-, hclear⟩
        · show (if r.b = b then _ else _) = _
          rw [if_pos hb]
          exact if_pos rfl
        · -- a request with the device is not yet done
          have hdis := (List.nodup_append.1 (List.nodup_append.1 h.queues.nodup).2.1).2.2
          exact absurd rfl (hdis _ hmem _ hdone)
        · refine absurd ?_ (h.queues.not_queued hp (.inr (hb ▸ hclear)))
          exact List.mem_append_right _ (List.mem_append_left _ hmem)
      · rw [hg]
        exact List.mem_append_right _ (List.mem_singleton.2 rfl)
    · refine ⟨ph, if_neg hb, hat.keep (fun q r' c' _ => by rw [howner]) (fun q r' c' hr hq hin => ?_)
        (fun q r' c' _ _ hin => ?_) (by rw [hshared])⟩
      · have hne : c'.i0 ≠ c.i0 := heads_ne h.queues hq hp (by rw [hr]; exact Ne.symm hb)
        rw [hg, hdev]
        rcases List.mem_append.1 hin with hin | hin
        · exact List.mem_append_left _ hin
        · exact List.mem_append_right _ ((List.mem_erase_of_ne hne).2 hin)
      · rw [hg]
        exact List.mem_append_left _ hin
  | clear p r c rest hp hdone howner hdev hinfo hinfo' hring hbusy hg =>
    have hmem : c.i0 ∈ g.done := by
      rw [hdone]
      exact .head _
    by_cases hb : r.b = b
    · refine ⟨.cleared p r, ?_, hb, ?_, c, by rw [howner, hp]⟩
      · rcases hat.of_owner h.queues hp hb with ⟨-, hin⟩ | ⟨rfl, -⟩ | ⟨-, hclear⟩
        · have hnd := h.queues.nodup
          rw [← List.append_assoc] at hnd
          exact absurd rfl ((List.nodup_append.1 hnd).2.2 _ hin _ hmem)
        · exact if_pos hb
        · refine absurd ?_ (h.queues.not_queued hp (.inr (hb ▸ hclear)))
          exact List.mem_append_right _ (List.mem_append_right _ hmem)
      · rw [hbusy, hb, update_self]
    · refine ⟨ph, if_neg hb, hat.keep (fun q r' c' _ => by rw [howner]) (fun q r' c' _ _ hin => ?_)
        (fun q r' c' hr hq hin => ?_) ?_⟩
      · rw [hg, hdev]
        exact hin
      · have hne : c'.i0 ≠ c.i0 := heads_ne h.queues hq hp (by rw [hr]; exact Ne.symm hb)
        rw [hg]
        rw [hdone] at hin
        rcases List.mem_cons.1 hin with hin | hin
        · exact absurd hin hne
        · exact hin
      · rw [hbusy, update_of_ne (Ne.symm hb)]
  | finish p r c hp hclear howner hg hdev hbusy hinfo hring =>
    subst hg
    by_cases hb : r.b = b
    · refine ⟨.idle, ?_, fun q r' c' hq hb' => ?_⟩
      · have hno := h.queues.not_queued hp (.inr hclear)
        rcases hat.of_owner h.queues hp hb with ⟨-, hin⟩ | ⟨-, hin⟩ | ⟨rfl, -⟩
        · rw [← List.append_assoc] at hno
          exact absurd (List.mem_append_left _ hin) hno
        · exact absurd (List.mem_append_right _ (List.mem_append_right _ hin)) hno
        · show (if r.b = b then _ else _) = _
          rw [if_pos hb, if_pos rfl]
      · rw [howner] at hq
        rcases update_cases hq with ⟨-, hnone⟩ | ⟨hqp, hq⟩
        · cases hnone
        · exact hqp (h.queues.bufs hq hp (hb'.trans hb.symm))
    · refine ⟨ph, if_neg hb, hat.keep (fun q r' c' hr => ?_) (fun q r' c' _ _ hin => ?_)
        (fun q r' c' _ _ hin => hin) (by rw [hbusy])⟩
      · rw [howner]
        exact update_owner_iff hp hb (by rintro o' ⟨⟩) q r' c' hr
      · rw [hdev]
        exact hin

/-- No step writes over an avail entry that the device has not taken. -/
theorem Move.keepsAvail : KeepsAvail s s' := by
  cases hm with
  | quiet hquiet | publish p r c hp howner hg hquiet => exact fun i _ => by rw [hquiet.availRing]
  | take x rest havail hshared => exact fun i _ => by rw [hshared]
  | complete p r c hp hmem howner hdev hshared => exact fun i _ => by rw [hshared]; rfl
  | clear p r c rest hp hdone howner hdev hinfo hinfo' hring
  | finish p r c hp hclear howner hg hdev hbusy hinfo hring => exact fun i _ => by rw [hring]
  | format p r c hnone howner hg hdev hbusy hinfo hring hfresh =>
    intro i hi
    have hroom := h.queues.avail_room hfresh
    have hlast := h.queues.availQ.last_eq
    rw [List.length_map] at hlast
    have hlt : i.toNat < g.avail.length := by
      rw [h.queues.availIdx, h.queues.seen, hlast, UInt16.ofNat_add, UInt16.add_comm, UInt16.add_sub_cancel,
        UInt16.lt_iff_toNat_lt, UInt16.toNat_ofNat'] at hi
      omega
    have hcell : cell (s.dev.seen + i) = Fin.ofNat NUM (g.seen + i.toNat) := by
      rw [h.queues.seen, ← cell_ofNat, UInt16.ofNat_add, UInt16.ofNat_toNat]
    rw [hring, hcell, h.queues.availIdx, cell_ofNat]
    exact update_of_ne (h.queues.availQ.cell_ne (by rw [List.length_map]; exact hroom)
      (by rw [List.length_map]; exact hlt)) ..

/-- `b->disk` is cleared by the interrupt handler only. -/
theorem Move.clearsOne : ClearsOne s l s' := by
  -- a step that leaves `b->disk` of every buffer or sets it
  have hnot : (∀ b, s.shared.busy b = true → s'.shared.busy b = true) → (∀ b, l ≠ .cleared b) → ClearsOne s l s' := by
    intro hkeep hl b
    constructor
    · rintro ⟨hb, hb'⟩
      rw [hkeep b hb] at hb'
      cases hb'
    · exact fun heq => absurd heq (hl b)
  cases hm with
  | quiet hquiet | publish p r c hp howner hg hquiet =>
    exact hnot (fun b hb => by rw [hquiet.busy, hb]) fun b hl => by cases hl
  | format p r c hnone howner hg hdev hbusy =>
    refine hnot (fun b hb => ?_) fun b hl => by cases hl
    rw [hbusy]
    by_cases hbr : b = r.b
    · rw [hbr, update_self]
    · rw [update_of_ne hbr, hb]
  | take x rest havail hshared | finish p r c hp hclear howner hg hdev hshared =>
    exact hnot (fun b hb => by rw [hshared, hb]) fun b hl => by cases hl
  | complete p r c hp hmem howner hdev hshared =>
    exact hnot (fun b hb => by rw [hshared]; exact hb) fun b hl => by cases hl
  | clear p r c rest hp hdone howner hdev hinfo hinfo' hring hbusy =>
    have hbr : s.shared.busy r.b = true := by
      by_contra hno
      refine h.queues.not_queued hp (.inr (by simpa using hno)) ?_
      rw [hdone]
      exact List.mem_append_right _ (List.mem_append_right _ (.head _))
    intro b
    rw [hbusy]
    constructor
    · rintro ⟨hb, hb'⟩
      by_cases heq : b = r.b
      · rw [heq]
      · rw [update_of_ne heq, hb] at hb'
        cases hb'
    · intro hl
      cases hl
      exact ⟨hbr, update_self ..⟩

end

/-- The completions in the used ring are those for which `b->disk` is not yet cleared. -/
def Unhandled (s : Sys) (g : Ghost) (ls : List Label) : Prop :=
  ∃ bs, completedBufs ls = clearedBufs ls ++ bs ∧
    bs.map some = g.done.map fun x => (s.shared.disk.info x).b

theorem Unhandled.move {ls : List Label} (hu : Unhandled s g ls) (hm : Move s s' g g' l) (h : Inv s g) :
    Unhandled s' g' (ls ++ [l]) := by
  obtain ⟨bs, hbs, hinfo⟩ := hu
  have hnew : ∀ {l'}, completedBufs (ls ++ [l']) = completedBufs ls ++ completedBufs [l'] ∧
      clearedBufs (ls ++ [l']) = clearedBufs ls ++ clearedBufs [l'] :=
    ⟨List.filterMap_append, List.filterMap_append⟩
  -- a step that neither completes nor clears, and leaves the buffers of the requests in the used ring
  have hkeep : ∀ {l'}, completedBufs [l'] = [] → clearedBufs [l'] = [] → g'.done = g.done →
      (∀ x ∈ g.done, s'.shared.disk.info x = s.shared.disk.info x) → Unhandled s' g' (ls ++ [l']) := by
    intro l' h1 h2 hd hi
    refine ⟨bs, ?_, ?_⟩
    · rw [hnew.1, hnew.2, h1, h2, List.append_nil, List.append_nil, hbs]
    · rw [hinfo, hd]
      exact List.map_congr_left fun x hx => by rw [hi x hx]
  cases hm with
  | quiet hquiet howner hg | publish p r c hp howner hg hquiet =>
    exact hkeep rfl rfl (by rw [hg]) fun x _ => by rw [hquiet.info]
  | format p r c hnone howner hg hdev hbusy hi hring hfresh =>
    refine hkeep rfl rfl (by rw [hg]) fun x hx => hi x ?_
    rintro rfl
    exact hfresh (List.mem_append_right _ (List.mem_append_right _ hx))
  | take x rest havail hshared howner hdev hg =>
    exact hkeep rfl rfl (by rw [hg]) fun y _ => by rw [hshared]
  | complete p r c hp hmem howner hdev hshared hg =>
    refine ⟨bs ++ [r.b], ?_, ?_⟩
    · rw [hnew.1, hnew.2, hbs]
      show _ ++ [r.b] = _ ++ [] ++ _
      rw [List.append_nil, List.append_assoc]
    · have hb : ∀ x, (s'.shared.disk.info x).b = (s.shared.disk.info x).b := by
        intro x
        rw [hshared]
        show (update s.shared.disk.info c.i0 _ x).b = _
        by_cases hx : x = c.i0
        · rw [hx, update_self]
        · rw [update_of_ne hx]
      rw [hg]
      simp only [List.map_append, List.map_cons, List.map_nil, hb, hinfo]
      rw [(h.queues.formatted hp).b]
  | clear p r c rest hp hdone howner hdev hi hi' hring hbusy hg =>
    rw [hdone, List.map_cons, hi] at hinfo
    cases bs with
    | nil => cases hinfo
    | cons b bs =>
      rw [List.map_cons] at hinfo
      obtain ⟨hb, hrest⟩ := List.cons.inj hinfo
      cases hb
      refine ⟨bs, ?_, ?_⟩
      · rw [hnew.1, hnew.2, hbs]
        show _ ++ [] = _ ++ [r.b] ++ _
        rw [List.append_nil, List.append_assoc]
        rfl
      · rw [hg, hi']
        exact hrest
  | finish p r c hp hclear howner hg hdev hbusy hi hring =>
    refine hkeep rfl rfl (by rw [hg]) fun x hx => hi x ?_
    rintro rfl
    exact h.queues.not_queued hp (.inr hclear) (List.mem_append_right _ (List.mem_append_right _ hx))

end Moves

/-! ## Runs -/

theorem phase_snoc (b : Nat) (ls : List Label) (l : Label) :
    phase b (ls ++ [l]) = (phase b ls).bind fun ph => follow b ph l := by
  unfold phase
  rw [List.foldlM_append]
  cases ls.foldlM (follow b) .idle with
  | none => rfl
  | some ph =>
    exact Option.bind_fun_some _

/-- What holds along a run. -/
structure RunInv (ls : List Label) (s : Sys) (g : Ghost) : Prop where
  inv : Inv s g
  phases : ∀ b, ∃ ph, phase b ls = some ph ∧ ph.At s g b
  unhandled : Unhandled s g ls

theorem run_inv {ls : List Label} {s : Sys} (hrun : Run Step Sys.init ls s) : ∃ g, RunInv ls s g := by
  refine hrun.invariant (P := fun ls s => ∃ g, RunInv ls s g)
    ⟨_, Inv.init, fun b => ⟨.idle, rfl, fun p r c hp => by cases hp⟩, [], rfl, rfl⟩ ?_
  rintro ls s l s' ⟨g, h⟩ hstep
  obtain ⟨g', hinv, hm⟩ := step_moves h.inv hstep
  refine ⟨g', hinv, fun b => ?_, h.unhandled.move hm h.inv⟩
  obtain ⟨ph, hph, hat⟩ := h.phases b
  obtain ⟨ph', hfollow, hat'⟩ := hm.follows h.inv hinv hat
  refine ⟨ph', ?_, hat'⟩
  rw [phase_snoc, hph]
  exact hfollow

/-- Along every run of the driver with any number of threads, the device and its interrupts: the free
descriptors and the chains divide the descriptors, the driver does not panic, the events of each buffer
come in rounds, the completions are handled in order and once, and no step writes over an avail entry that
is not taken or clears `b->disk` of another buffer. -/
theorem virtio_requests {ls : List Label} {s : Sys} (hrun : Run Step Sys.init ls s) :
    Partitioned s ∧ (∀ p m, s.pc p ≠ .panicked m) ∧
      (∀ b, ∃ ph, phase b ls = some ph ∧ ph.Shows s b) ∧ clearedBufs ls <+: completedBufs ls ∧
      ∀ l s', Step s l s' → KeepsAvail s s' ∧ ClearsOne s l s' := by
  obtain ⟨g, h⟩ := run_inv hrun
  have hq := h.inv.queues
  refine ⟨⟨fun i => ?_, fun p o hp => (hq.formatted hp).nodup, fun p q o o' i hp hq' => hq.disjoint hp hq'⟩,
    h.inv.threads.noPanic, fun b => ?_, ?_, fun l s' hstep => ?_⟩
  · rw [← hq.free i, Bool.not_eq_false]
  · obtain ⟨ph, hph, hat⟩ := h.phases b
    exact ⟨ph, hph, hat.shows hq⟩
  · obtain ⟨bs, hbs, -⟩ := h.unhandled
    exact ⟨bs, hbs.symm⟩
  · obtain ⟨g', -, hm⟩ := step_moves h.inv hstep
    exact ⟨hm.keepsAvail h.inv, hm.clearsOne h.inv⟩

/-- Thread 1 writes block 3 from buffer 7; the device completes the request before thread 1 sleeps. -/
theorem completed_run : ∃ s, Run Step Sys.init [.silent, .silent, .silent, .published 1 (.enter 7 3 true),
    .silent, .completed (.enter 7 3 true), .silent] s := by
  have hidle : ∀ q k, (Sys.init.pc q).cont = some k → k.buf ≠ some 7 := by
    intro q k hk
    cases hk
  have h1 := Run.single (Step.call Sys.init 1 7 3 true rfl hidle)
  have h2 := h1.snoc (Step.acquire _ 1 (.alloc (.enter 7 3 true)) rfl rfl)
  have h3 := h2.snoc (Step.driver _ 1 (.alloc (.enter 7 3 true)) rfl)
  have h4 := h3.snoc (Step.driver _ 1 (.publish (.enter 7 3 true) ⟨0, 1, 2⟩) rfl)
  have h5 := h4.snoc (Step.take _ 0 (by decide) rfl)
  have h6 := h5.snoc (Step.complete _ 0 0 (.enter 7 3 true) (List.mem_singleton.2 rfl) rfl)
  exact ⟨_, h6.snoc (Step.driver _ 1 (.wait (.enter 7 3 true) ⟨0, 1, 2⟩) rfl)⟩

theorem virtio_requests_completed :
    ∃ ls s, Run Step Sys.init ls s ∧ phase 7 ls = some (.completed 1 (.enter 7 3 true)) ∧
      Partitioned s ∧ ∀ l s', Step s l s' → KeepsAvail s s' ∧ ClearsOne s l s' := by
  obtain ⟨s, hrun⟩ := completed_run
  obtain ⟨hpart, -, -, -, hstep⟩ := virtio_requests hrun
  exact ⟨_, s, hrun, rfl, hpart, hstep⟩

end Xv6.Virtio
