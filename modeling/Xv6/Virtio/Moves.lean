import Xv6.Virtio.Queues

/-!
# What a step of the disk system does

`Move` lists the ways in which a step of a thread or of the device can change who owns which request and
where the requests are. `step_moves` shows, once, that every step from a state in which the invariant
holds is one of them and that the invariant holds after it.
-/

set_option autoImplicit false

namespace Xv6.Virtio

open Function Xv6.Base

/-- The request with its descriptors that a thread is responsible for. -/
def Sys.owner (s : Sys) (p : Nat) : Option Owner := (s.pc p).cont.bind Cont.owner

/-- The threads in the driver: each works on a buffer of its own, the one that runs holds the lock and a
thread about to publish runs. -/
structure ThreadInv (s : Sys) : Prop where
  bufs : ∀ {p q k k' b}, (s.pc p).cont = some k → (s.pc q).cont = some k' → k.buf = some b →
    k'.buf = some b → p = q
  running : ∀ {p k}, s.pc p = .running k → s.lock = some p
  publish : ∀ {p r c}, (s.pc p).cont = some (.publish r c) → s.pc p = .running (.publish r c)
  noPanic : ∀ p m, s.pc p ≠ .panicked m

structure Inv (s : Sys) (g : Ghost) : Prop where
  queues : QueueInv s.shared s.dev s.owner g
  threads : ThreadInv s

/-- The disk's own tables do not change, as far as the requests are concerned. -/
structure Quiet (s s' : Sys) : Prop where
  dev : s'.dev = s.dev
  busy : s'.shared.busy = s.shared.busy
  info : s'.shared.disk.info = s.shared.disk.info
  availRing : s'.shared.disk.availRing = s.shared.disk.availRing

/-- What a step does to the requests. -/
inductive Move (s s' : Sys) (g g' : Ghost) : Label → Prop
  | quiet : Quiet s s' → s'.owner = s.owner → g' = g → Move s s' g g' .silent
  | format (p : Nat) (r : Req) (c : Chain) : s.owner p = none →
      s'.owner = update s.owner p (some ⟨r, c, false⟩) → g' = g → s'.dev = s.dev →
      s'.shared.busy = update s.shared.busy r.b true →
      (∀ i, i ≠ c.i0 → s'.shared.disk.info i = s.shared.disk.info i) →
      s'.shared.disk.availRing = update s.shared.disk.availRing (cell s.shared.disk.availIdx)
        (UInt16.ofNat c.i0) →
      c.i0 ∉ g.avail ++ (s.dev.inflight ++ g.done) → Move s s' g g' .silent
  | publish (p : Nat) (r : Req) (c : Chain) : s.owner p = some ⟨r, c, false⟩ →
      s'.owner = update s.owner p (some ⟨r, c, true⟩) →
      g' = { g with posted := g.posted + 1, avail := g.avail ++ [c.i0] } → Quiet s s' →
      Move s s' g g' (.published p r)
  | take (x : Fin NUM) (rest : List (Fin NUM)) : g.avail = x :: rest → s'.shared = s.shared →
      s'.owner = s.owner → s'.dev = ⟨s.dev.seen + 1, s.dev.inflight ++ [x]⟩ →
      g' = { g with seen := g.seen + 1, avail := rest } → Move s s' g g' .silent
  | complete (p : Nat) (r : Req) (c : Chain) : s.owner p = some ⟨r, c, true⟩ →
      c.i0 ∈ s.dev.inflight → s'.owner = s.owner →
      s'.dev = { s.dev with inflight := s.dev.inflight.erase c.i0 } →
      s'.shared = { s.shared with disk := s.shared.disk.complete c.i0 c.i0 } →
      g' = { g with used := g.used + 1, done := g.done ++ [c.i0] } → Move s s' g g' (.completed r)
  | clear (p : Nat) (r : Req) (c : Chain) (rest : List (Fin NUM)) :
      s.owner p = some ⟨r, c, true⟩ → g.done = c.i0 :: rest → s'.owner = s.owner → s'.dev = s.dev →
      s.shared.disk.info c.i0 = ⟨some r.b, 0⟩ → s'.shared.disk.info = s.shared.disk.info →
      s'.shared.disk.availRing = s.shared.disk.availRing →
      s'.shared.busy = update s.shared.busy r.b false →
      g' = { g with handled := g.handled + 1, done := rest } → Move s s' g g' (.cleared r.b)
  | finish (p : Nat) (r : Req) (c : Chain) : s.owner p = some ⟨r, c, true⟩ →
      s.shared.busy r.b = false → s'.owner = update s.owner p none → g' = g →
      s'.dev = s.dev → s'.shared.busy = s.shared.busy →
      (∀ i, i ≠ c.i0 → s'.shared.disk.info i = s.shared.disk.info i) →
      s'.shared.disk.availRing = s.shared.disk.availRing → Move s s' g g' (.returned p r)

/-! ## Threads -/

/-- A process that is woken stays where it is in the code. -/
theorem cont_wakeup? (w : Option Chan) (pc : Nat → Pc) (q : Nat) : (wakeup? w pc q).cont = (pc q).cont := by
  cases w with
  | none => rfl
  | some ch =>
    simp only [wakeup?, wakeup]
    cases pc q with
    | sleeping ch' k => by_cases h : ch' = ch <;> simp [h, Pc.cont]
    | _ => rfl

/-- Only a thread that sleeps is changed by `wakeup`. -/
theorem wakeup?_cases (w : Option Chan) (pc : Nat → Pc) (q : Nat) :
    wakeup? w pc q = pc q ∨ ∃ ch k, pc q = .sleeping ch k ∧ wakeup? w pc q = .waiting k := by
  cases w with
  | none => exact .inl rfl
  | some ch =>
    simp only [wakeup?, wakeup]
    cases hq : pc q with
    | sleeping ch' k =>
      by_cases h : ch' = ch
      · exact .inr ⟨ch', k, rfl, if_pos h⟩
      · exact .inl (if_neg h)
    | _ => exact .inl rfl

/-- A thread after a step of thread `p`. -/
theorem apply_cont (s : Sys) (p : Nat) (o : Outcome) (q : Nat) :
    ((s.apply p o).pc q).cont = if q = p then o.next.pc.cont else (s.pc q).cont := by
  show (update (wakeup? o.wake s.pc) p o.next.pc q).cont = _
  by_cases h : q = p
  · subst h
    rw [update_self, if_pos rfl]
  · rw [update_of_ne h, if_neg h, cont_wakeup?]

theorem apply_owner (s : Sys) (p : Nat) (o : Outcome) :
    (s.apply p o).owner = update s.owner p (o.next.pc.cont.bind Cont.owner) := by
  funext q
  show (((s.apply p o).pc q).cont).bind Cont.owner = _
  rw [apply_cont]
  by_cases h : q = p
  · subst h
    rw [if_pos rfl, update_self]
  · rw [if_neg h, update_of_ne h]
    rfl

variable {p : Nat} {s s' : Sys}

/-- The owners when one thread moves within the code. -/
theorem owner_update {x : Pc} (h : s'.pc = update s.pc p x) : s'.owner = update s.owner p (x.cont.bind Cont.owner) := by
  funext q
  show (s'.pc q).cont.bind Cont.owner = _
  rw [h]
  by_cases hq : q = p
  · subst hq
    rw [update_self, update_self]
  · rw [update_of_ne hq, update_of_ne hq]
    rfl

theorem owner_update_same {x : Pc} (h : s'.pc = update s.pc p x)
    (hx : x.cont.bind Cont.owner = s.owner p) : s'.owner = s.owner := by
  rw [owner_update h, hx, update_eq_self]

/-- The owner of a request is a thread with its buffer. -/
theorem owner_cont {o : Owner} (h : s.owner p = some o) :
    ∃ k, (s.pc p).cont = some k ∧ k.owner = some o ∧ k.buf = some o.r.b := by
  obtain ⟨k, hk, ho⟩ := Option.bind_eq_some_iff.1 h
  refine ⟨k, hk, ho, ?_⟩
  cases k with
  | alloc r | intr => cases ho
  | publish r c | wait r c =>
    cases ho
    rfl

namespace ThreadInv

variable {s : Sys} {p : Nat}

/-- While another thread runs, every request that has descriptors is posted. -/
theorem posted (h : ThreadInv s) {k : Cont} (hp : s.pc p = .running k) {q : Nat} {o : Owner}
    (hne : q ≠ p ∨ ∀ r c, k ≠ .publish r c) (hq : s.owner q = some o) : o.posted = true := by
  obtain ⟨k', hk', ho, -⟩ := owner_cont hq
  cases k' with
  | alloc r | intr => cases ho
  | wait r c =>
    cases ho
    rfl
  | publish r c =>
    have hrun := h.publish hk'
    have hqp : q = p := Option.some.inj ((h.running hrun).symm.trans (h.running hp))
    rcases hne with hne | hne
    · exact absurd hqp hne
    · subst hqp
      rw [hp] at hrun
      cases hrun
      exact absurd rfl (hne r c)

/-- A thread that enters the driver or that gets the lock. -/
theorem enters {s' : Sys} (h : ThreadInv s) {x : Pc} {k : Cont} (hpc : s'.pc = update s.pc p x) (hx : x.cont = some k)
    (hbuf : ∀ q k' b, q ≠ p → (s.pc q).cont = some k' → k.buf = some b → k'.buf ≠ some b)
    (hrun : ∀ {k}, x = .running k → s'.lock = some p) (hlock : ∀ {q k}, s.pc q = .running k → s'.lock = some q)
    (hpub : ∀ r c, k ≠ .publish r c) : ThreadInv s' := by
  have hat : ∀ {q k'}, (s'.pc q).cont = some k' → (q = p ∧ k' = k) ∨ (q ≠ p ∧ (s.pc q).cont = some k') := by
    intro q k' hq
    rw [hpc] at hq
    by_cases hqp : q = p
    · subst hqp
      rw [update_self, hx] at hq
      exact .inl ⟨rfl, (Option.some.inj hq).symm⟩
    · rw [update_of_ne hqp] at hq
      exact .inr ⟨hqp, hq⟩
  refine ⟨fun {q q' k1 k2 b} hq hq' hb hb' => ?_, fun {q k'} hq => ?_, fun {q r c} hq => ?_, fun q m hq => ?_⟩
  · rcases hat hq with ⟨rfl, rfl⟩ | ⟨hqp, hq⟩ <;> rcases hat hq' with ⟨rfl, rfl⟩ | ⟨hqp', hq'⟩
    · rfl
    · exact absurd hb' (hbuf _ _ _ hqp' hq' hb)
    · exact absurd hb (hbuf _ _ _ hqp hq hb')
    · exact h.bufs hq hq' hb hb'
  · rw [hpc] at hq
    by_cases hqp : q = p
    · subst hqp
      rw [update_self] at hq
      exact hrun hq
    · rw [update_of_ne hqp] at hq
      exact hlock hq
  · rcases hat hq with ⟨rfl, hk⟩ | ⟨hqp, hq⟩
    · exact absurd hk.symm (hpub r c)
    · rw [hpc, update_of_ne hqp]
      exact h.publish hq
  · rw [hpc] at hq
    by_cases hqp : q = p
    · subst hqp
      rw [update_self] at hq
      rw [hq] at hx
      cases hx
    · rw [update_of_ne hqp] at hq
      exact h.noPanic q m hq

/-- The thread that runs makes a step: it goes on with the same buffer, sleeps or leaves. -/
theorem drives (h : ThreadInv s) {k : Cont} (hp : s.pc p = .running k) {o : Outcome}
    (hbuf : ∀ k' b, o.next.pc.cont = some k' → k'.buf = some b → k.buf = some b)
    (hpub : ∀ r c, o.next.pc.cont = some (.publish r c) → o.next = .goto (.publish r c))
    (hpanic : ∀ m, o.next ≠ .panic m) : ThreadInv (s.apply p o) := by
  have hpk : (s.pc p).cont = some k := by
    rw [hp]
    rfl
  have hother : ∀ {q}, q ≠ p → (s.apply p o).pc q = wakeup? o.wake s.pc q :=
    fun hqp => update_of_ne hqp ..
  have hself : (s.apply p o).pc p = o.next.pc := update_self ..
  -- a thread with a buffer had it before
  have hat : ∀ {q k' b}, ((s.apply p o).pc q).cont = some k' → k'.buf = some b →
      ∃ k0, (s.pc q).cont = some k0 ∧ k0.buf = some b := by
    intro q k' b hq hb
    rw [apply_cont] at hq
    by_cases hqp : q = p
    · subst hqp
      rw [if_pos rfl] at hq
      exact ⟨k, hpk, hbuf k' b hq hb⟩
    · rw [if_neg hqp] at hq
      exact ⟨k', hq, hb⟩
  -- no other thread runs
  have hnorun : ∀ {q k'}, q ≠ p → (s.apply p o).pc q ≠ .running k' := by
    intro q k' hqp hq
    rw [hother hqp] at hq
    rcases wakeup?_cases o.wake s.pc q with hw | ⟨ch, k0, -, hw⟩
    · rw [hw] at hq
      exact hqp (Option.some.inj ((h.running hq).symm.trans (h.running hp)))
    · rw [hw] at hq
      cases hq
  refine ⟨fun {q q' k1 k2 b} hq hq' hb hb' => ?_, fun {q k'} hq => ?_, fun {q r c} hq => ?_, fun q m hq => ?_⟩
  · obtain ⟨k1', hk1, hb1⟩ := hat hq hb
    obtain ⟨k2', hk2, hb2⟩ := hat hq' hb'
    exact h.bufs hk1 hk2 hb1 hb2
  · by_cases hqp : q = p
    · subst hqp
      rw [hself] at hq
      show o.next.lock q = some q
      cases hn : o.next with
      | goto k1 | panic m => rfl
      | sleep ch k1 | ret =>
        rw [hn] at hq
        cases hq
    · exact absurd hq (hnorun hqp)
  · by_cases hqp : q = p
    · subst hqp
      rw [hself] at hq ⊢
      rw [hpub r c hq]
      rfl
    · rw [apply_cont, if_neg hqp] at hq
      have hrun := h.publish hq
      exact absurd (Option.some.inj ((h.running hrun).symm.trans (h.running hp))) hqp
  · by_cases hqp : q = p
    · subst hqp
      rw [hself] at hq
      cases hn : o.next with
      | panic m' => exact hpanic m' hn
      | _ =>
        rw [hn] at hq
        cases hq
    · rw [hother hqp] at hq
      rcases wakeup?_cases o.wake s.pc q with hw | ⟨ch, k0, -, hw⟩
      · rw [hw] at hq
        exact h.noPanic q m hq
      · rw [hw] at hq
        cases hq

end ThreadInv

/-! ## Steps of the driver -/

section Driver

variable {s : Sys} {g : Ghost} {p : Nat}

theorem owner_of_running {k : Cont} (hp : s.pc p = .running k) : s.owner p = k.owner := by
  show (s.pc p).cont.bind Cont.owner = _
  rw [hp]
  rfl

/-- What a step of the driver has to show. -/
def Moves (s : Sys) (g : Ghost) (l : Label) (s' : Sys) : Prop := ∃ g', Inv s' g' ∧ Move s s' g g' l

/-- A step that leaves the disk and the owners of the requests. -/
theorem Inv.still {s' : Sys} (h : Inv s g) (hshared : s'.shared = s.shared) (hdev : s'.dev = s.dev)
    (howner : s'.owner = s.owner) (hthreads : ThreadInv s') : Moves s g .silent s' := by
  refine ⟨g, ⟨?_, hthreads⟩, Move.quiet ⟨hdev, ?_, ?_, ?_⟩ howner rfl⟩
  · rw [hshared, hdev, howner]
    exact h.queues
  · rw [hshared]
  · rw [hshared]
  · rw [hshared]

variable {r : Req}

theorem allocRound_moves (h : Inv s g) (hp : s.pc p = .running (.alloc r)) :
    Moves s g (allocRound r s.shared).label (s.apply p (allocRound r s.shared)) := by
  have hown : s.owner p = none := owner_of_running hp
  rcases alloc3Desc_spec s.shared.disk with ⟨d, heq, hd⟩ | ⟨c, heq, hnd, hfree⟩
  · have hround : allocRound r s.shared =
        ⟨{ s.shared with disk := d }, some .free, .sleep .free (.alloc r), .silent⟩ := by
      unfold allocRound
      rw [heq]
    rw [hround]
    have howner : (s.apply p ⟨{ s.shared with disk := d }, some .free, .sleep .free (.alloc r),
        .silent⟩).owner = s.owner := by
      rw [apply_owner]
      show update s.owner p none = s.owner
      rw [← hown, update_eq_self]
    refine ⟨g, ⟨?_, h.threads.drives hp ?_ ?_ ?_⟩, Move.quiet ⟨rfl, rfl, ?_, ?_⟩ howner rfl⟩
    · rw [howner]
      exact h.queues.allocFails hd
    · rintro k' b hk hb
      cases hk
      exact hb
    · rintro r c hk
      cases hk
    · rintro m hm
      cases hm
    · show d.info = s.shared.disk.info
      simpa only using congrArg Disk.info hd.rest
    · show d.availRing = s.shared.disk.availRing
      simpa only using congrArg Disk.availRing hd.rest
  · have hround : allocRound r s.shared = ⟨⟨format r c (s.shared.disk.takeAll c.idx),
        update s.shared.busy r.b true⟩, none, .goto (.publish r c), .silent⟩ := by
      unfold allocRound
      rw [heq]
    rw [hround]
    have howner := apply_owner s p ⟨⟨format r c (s.shared.disk.takeAll c.idx),
      update s.shared.busy r.b true⟩, none, .goto (.publish r c), .silent⟩
    have hbuf : ∀ q o, s.owner q = some o → o.r.b ≠ r.b := by
      intro q o hq hb
      obtain ⟨k, hk, -, hkb⟩ := owner_cont hq
      have hpk : (s.pc p).cont = some (.alloc r) := by
        rw [hp]
        rfl
      have hqp : q = p := h.threads.bufs hk hpk hkb (by rw [hb]; rfl)
      rw [hqp, hown] at hq
      cases hq
    refine ⟨g, ⟨?_, h.threads.drives hp ?_ ?_ ?_⟩,
      Move.format p r c hown howner rfl rfl rfl (fun i hi => format_info hi)
        (format_rest r c _).2.2.2.2.2 (h.queues.fresh_not_queued hfree)⟩
    · rw [howner]
      exact h.queues.formats hnd hfree hown (fun q o => h.threads.posted hp (.inr fun r' c' hk => by cases hk)) hbuf
    · rintro k' b hk hb
      cases hk
      exact hb
    · rintro r' c' hk
      cases hk
      rfl
    · rintro m hm
      cases hm

theorem publish_moves (h : Inv s g) {c : Chain} (hp : s.pc p = .running (.publish r c)) :
    Moves s g (publish p r c s.shared).label (s.apply p (publish p r c s.shared)) := by
  have hown : s.owner p = some ⟨r, c, false⟩ := owner_of_running hp
  have howner := apply_owner s p (publish p r c s.shared)
  refine ⟨_, ⟨?_, h.threads.drives hp ?_ ?_ ?_⟩, Move.publish p r c hown howner rfl ⟨rfl, rfl, rfl, rfl⟩⟩
  · rw [howner]
    exact h.queues.publishes hown fun q o hqp => h.threads.posted hp (.inl hqp)
  · rintro k' b hk hb
    cases hk
    exact hb
  · rintro r' c' hk
    cases hk
  · rintro m hm
    cases hm

theorem waitRound_moves (h : Inv s g) {c : Chain} (hp : s.pc p = .running (.wait r c)) :
    Moves s g (waitRound p r c s.shared).label (s.apply p (waitRound p r c s.shared)) := by
  have hown : s.owner p = some ⟨r, c, true⟩ := owner_of_running hp
  by_cases hbusy : s.shared.busy r.b = true
  · have hround : waitRound p r c s.shared = ⟨s.shared, none, .sleep (.buf r.b) (.wait r c), .silent⟩ := if_pos hbusy
    rw [hround]
    have howner : (s.apply p ⟨s.shared, none, .sleep (.buf r.b) (.wait r c), .silent⟩).owner =
        s.owner := by
      rw [apply_owner]
      show update s.owner p (some ⟨r, c, true⟩) = s.owner
      rw [← hown, update_eq_self]
    refine h.still rfl rfl howner (h.threads.drives hp ?_ ?_ ?_)
    · rintro k' b hk hb
      cases hk
      exact hb
    · rintro r' c' hk
      cases hk
    · rintro m hm
      cases hm
  · have hclear : s.shared.busy r.b = false := by simpa using hbusy
    obtain ⟨hchain, hqueues⟩ := h.queues.finishes hown hclear
    have hround : waitRound p r c s.shared = ⟨{ s.shared with
            disk := (s.shared.disk.setInfo c.i0 { s.shared.disk.info c.i0 with b := none }).giveAll c.idx },
          some .free, .ret, .returned p r⟩ := by
      unfold waitRound
      rw [if_neg hbusy]
      simp only [hchain]
    rw [hround]
    have howner := apply_owner s p ⟨{ s.shared with
      disk := (s.shared.disk.setInfo c.i0 { s.shared.disk.info c.i0 with b := none }).giveAll c.idx },
      some .free, .ret, .returned p r⟩
    refine ⟨g, ⟨?_, h.threads.drives hp ?_ ?_ ?_⟩,
      Move.finish p r c hown hclear howner rfl rfl rfl (fun i hi => ?_) rfl⟩
    · rw [howner]
      exact hqueues
    · rintro k' b hk hb
      cases hk
    · rintro r' c' hk
      cases hk
    · rintro m hm
      cases hm
    · exact update_of_ne hi ..

theorem intrRound_moves (h : Inv s g) (hp : s.pc p = .running .intr) :
    Moves s g (intrRound s.shared).label (s.apply p (intrRound s.shared)) := by
  have hown : s.owner p = none := owner_of_running hp
  -- an interrupt handler is responsible for no request
  have hsame : ∀ {o : Outcome}, o.next.pc.cont.bind Cont.owner = none → (s.apply p o).owner = s.owner := by
    intro o ho
    rw [apply_owner, ho, ← hown, update_eq_self]
  by_cases hne : s.shared.disk.used_idx ≠ s.shared.disk.usedIdx
  · obtain ⟨q, r, c, rest, hdone, hq, hbusy, hid, hinfo, hqueues⟩ := h.queues.clears hne
    have hlt : (s.shared.disk.usedRing (cell s.shared.disk.used_idx)).toNat < NUM := by
      rw [hid]
      exact c.i0.isLt
    have hcell : (⟨(s.shared.disk.usedRing (cell s.shared.disk.used_idx)).toNat, hlt⟩ : Fin NUM) =
        c.i0 := Fin.ext hid
    have hround : intrRound s.shared = ⟨⟨{ s.shared.disk with used_idx := s.shared.disk.used_idx + 1 },
          update s.shared.busy r.b false⟩, some (.buf r.b), .goto .intr, .cleared r.b⟩ := by
      unfold intrRound
      rw [if_pos hne]
      simp only
      rw [dif_pos hlt, hcell, hinfo]
      rfl
    rw [hround]
    have howner := hsame (o := ⟨⟨{ s.shared.disk with used_idx := s.shared.disk.used_idx + 1 },
      update s.shared.busy r.b false⟩, some (.buf r.b), .goto .intr, .cleared r.b⟩) rfl
    refine ⟨_, ⟨?_, h.threads.drives hp ?_ ?_ ?_⟩, Move.clear q r c rest hq hdone howner rfl hinfo rfl rfl rfl rfl⟩
    · rw [howner]
      exact hqueues
    · rintro k' b hk hb
      cases hk
      cases hb
    · rintro r' c' hk
      cases hk
    · rintro m hm
      cases hm
  · have hround : intrRound s.shared = ⟨s.shared, none, .ret, .silent⟩ := if_neg hne
    rw [hround]
    have howner := hsame (o := ⟨s.shared, none, .ret, .silent⟩) rfl
    refine h.still rfl rfl howner (h.threads.drives hp ?_ ?_ ?_)
    · rintro k' b hk hb
      cases hk
    · rintro r' c' hk
      cases hk
    · rintro m hm
      cases hm

end Driver

theorem Inv.init : Inv Sys.init ⟨0, 0, 0, 0, [], []⟩ where
  queues := QueueInv.init
  threads :=
    { bufs := fun hp => by cases hp
      running := fun hp => by cases hp
      publish := fun hp => by cases hp
      noPanic := fun p m hp => by cases hp }

/-- Every step moves requests in one of the ways of `Move` and keeps the invariant. -/
theorem step_moves {g : Ghost} {l : Label} (h : Inv s g) (hstep : Step s l s') : Moves s g l s' := by
  cases hstep with
  | call p b blockno write hidle hbuf =>
    have howner : ({ s with pc := update s.pc p (.waiting
        (.alloc (.enter b blockno write))) } : Sys).owner = s.owner := by
      refine owner_update_same (p := p) rfl ?_
      show none = (s.pc p).cont.bind Cont.owner
      rw [hidle]
      rfl
    refine h.still rfl rfl howner (h.threads.enters (p := p) rfl rfl (fun q k' b' hqp hk hb hb' => ?_)
      (fun hx => by cases hx) h.threads.running (fun r c hk => by cases hk))
    cases hb
    exact hbuf q k' hk hb'
  | interrupt p hidle =>
    have howner : ({ s with pc := update s.pc p (.waiting .intr) } : Sys).owner =
        s.owner := by
      refine owner_update_same (p := p) rfl ?_
      show none = (s.pc p).cont.bind Cont.owner
      rw [hidle]
      rfl
    exact h.still rfl rfl howner (h.threads.enters (p := p) rfl rfl (fun q k' b' hqp hk hb => by cases hb)
      (fun hx => by cases hx) h.threads.running (fun r c hk => by cases hk))
  | acquire p k hwait hlock =>
    have hk : (s.pc p).cont = some k := by
      rw [hwait]
      rfl
    have howner : ({ s with lock := some p, pc := update s.pc p (.running k) } : Sys).owner =
        s.owner := by
      refine owner_update_same (p := p) rfl ?_
      show k.owner = (s.pc p).cont.bind Cont.owner
      rw [hk]
      rfl
    refine h.still rfl rfl howner (h.threads.enters (p := p) rfl rfl (fun q k' b hqp hk' hb hb' => ?_)
      (fun _ => rfl) (fun {q k'} hq => ?_) (fun r c hkp => ?_))
    · exact hqp (h.threads.bufs hk' hk hb' hb)
    · have hrun := h.threads.running hq
      rw [hlock] at hrun
      cases hrun
    · -- a thread about to publish has the lock already
      subst hkp
      have hrun := h.threads.publish hk
      rw [hwait] at hrun
      cases hrun
  | driver p k hrun =>
    cases k with
    | alloc r => exact allocRound_moves h hrun
    | publish r c => exact publish_moves h hrun
    | wait r c => exact waitRound_moves h hrun
    | intr => exact intrRound_moves h hrun
  | take x hne hx =>
    obtain ⟨rest, havail, hqueues⟩ := h.queues.takes hne hx
    exact ⟨_, ⟨hqueues, ⟨h.threads.bufs, h.threads.running, h.threads.publish, h.threads.noPanic⟩⟩,
      Move.take x rest havail rfl rfl rfl rfl⟩
  | complete x j r hx hreq =>
    obtain ⟨rfl, ⟨p, c, hown, rfl, -⟩, hqueues⟩ := h.queues.completes hx hreq
    exact ⟨_, ⟨hqueues, ⟨h.threads.bufs, h.threads.running, h.threads.publish, h.threads.noPanic⟩⟩,
      Move.complete p r c hown hx rfl rfl rfl rfl⟩

end Xv6.Virtio
