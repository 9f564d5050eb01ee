import Xv6.Pipes.Model

/-!
# Who sleeps on a pipe, and why

A process asleep on `&pi->nwrite` waits for room, one asleep on `&pi->nread` waits for bytes. The
first kind is never stranded: whoever makes room or closes the read end wakes it. The second kind
can be. `pipewrite` stores bytes while readers sleep and leaves the `wakeup(&pi->nread)` to the end of
its loop, but the return it makes when the writer is killed (or the read end is closed) skips that
call. `pipe_sleepers_iff` says that this is the only way to strand a reader: along a trace the
sleepers are in order whenever `pi->lock` is free exactly when no such return loses a wakeup, and
`killed_writer_strands_reader` is a trace that does.
-/

set_option autoImplicit false

namespace Xv6.Pipes

open Function Xv6.Base

/-- Some process is asleep on the channel. -/
def Asleep (s : Sys) (c : Chan) : Prop := ∃ p k, s.pc p = .sleeping c k

/-- Every sleeping process waits for something that has not happened: readers for the first byte or
the closing of the write end, writers for room or the closing of the read end. -/
def SleepersOk (s : Sys) : Prop :=
  (Asleep s .nread → s.pipe.nread = s.pipe.nwrite ∧ s.pipe.writeopen = true) ∧
  (Asleep s .nwrite → s.pipe.nwrite = s.pipe.nread + UInt32.ofNat PIPESIZE ∧ s.pipe.readopen = true)

/-- The step from `s` to `t` is the early return of a `pipewrite`, because the read end is closed or
the writer was killed, made while bytes are in the pipe and a reader is asleep. -/
def LosesWakeup (s t : Sys) : Prop :=
  (∃ p addr n i, s.lock = some p ∧ s.pc p = .running (.write addr n i) ∧ (i : Int) < n ∧
    (s.pipe.readopen = false ∨ s.killed p = true)) ∧
  t.lock = none ∧ s.pipe.nread ≠ s.pipe.nwrite ∧ Asleep s .nread

/-! ## Sleepers after a step -/

variable {k : Cont}

variable {c : Chan}

theorem wakeup_sleeping {d : Chan} {pc : Nat → Pc} {q : Nat}
    (h : wakeup c pc q = .sleeping d k) : pc q = .sleeping d k ∧ d ≠ c := by
  unfold wakeup at h
  cases hq : pc q with
  | sleeping c' k' =>
    rw [hq] at h
    by_cases hc : c' = c
    · simp [hc] at h
    · simp only [if_neg hc] at h
      cases h
      exact ⟨rfl, hc⟩
  | idle | waiting _ | running _ => rw [hq] at h; cases h

theorem wakeup?_sleeping {w : Option Chan} {d : Chan} {pc : Nat → Pc} {q : Nat}
    (h : wakeup? w pc q = .sleeping d k) : pc q = .sleeping d k ∧ w ≠ some d := by
  cases w with
  | none => exact ⟨h, by simp⟩
  | some c =>
    obtain ⟨hq, hne⟩ := wakeup_sleeping h
    exact ⟨hq, fun e => hne (Option.some.inj e).symm⟩

variable {p : Nat} {s : Sys}

/-- A process asleep after a pass of `p` is `p` itself gone to sleep, or was asleep before and the pass
did not wake its channel. -/
theorem asleep_apply {o : Outcome} (h : Asleep (s.apply p o) c) :
    (∃ k, o.next = .sleep c k) ∨ (Asleep s c ∧ o.wake ≠ some c) := by
  obtain ⟨q, k, hq⟩ := h
  simp only [Sys.apply] at hq
  by_cases hqp : q = p
  · subst hqp
    rw [update_self] at hq
    left
    cases hn : o.next with
    | goto k' | ret r => rw [hn] at hq; cases hq
    | sleep c' k' =>
      rw [hn] at hq
      cases hq
      exact ⟨k, rfl⟩
  · rw [update_of_ne hqp] at hq
    obtain ⟨hs, hw⟩ := wakeup?_sleeping hq
    exact .inr ⟨⟨q, k, hs⟩, hw⟩

variable {writable : Bool}

theorem asleep_pipeclose (h : Asleep (pipeclose s writable) c) :
    Asleep s c ∧ c ≠ (if writable then .nread else .nwrite) := by
  obtain ⟨q, k, hq⟩ := h
  obtain ⟨hs, hne⟩ := wakeup_sleeping hq
  exact ⟨⟨q, k, hs⟩, hne⟩

variable {x : Pc} {t : Sys}

theorem asleep_update (ht : t.pc = update s.pc p x) (hx : ∀ c k, x ≠ .sleeping c k) (h : Asleep t c) : Asleep s c := by
  obtain ⟨q, k, hq⟩ := h
  rw [ht] at hq
  by_cases hqp : q = p
  · subst hqp
    rw [update_self] at hq
    exact absurd hq (hx c k)
  · rw [update_of_ne hqp] at hq
    exact ⟨q, k, hq⟩

/-! ## The invariants -/

/-- The process that holds `pi->lock` is at a loop head of the given kind. -/
def HeldAt (s : Sys) (K : Cont → Prop) : Prop := ∃ p k, s.lock = some p ∧ s.pc p = .running k ∧ K k

/-- At the head of the copying loop of `piperead`. -/
def Cont.isCopy : Cont → Prop
  | .copy _ _ _ => True
  | _ => False

/-- At the head of the loop of `pipewrite`. -/
def Cont.isWrite : Cont → Prop
  | .write _ _ _ => True
  | _ => False

/-- What holds of the sleepers in every state. A reader that is taking bytes out may leave room
behind while writers sleep: it wakes them when its loop ends. -/
structure Guarded (s : Sys) : Prop where
  reader : Asleep s .nread → s.pipe.writeopen = true
  writer : Asleep s .nwrite → s.pipe.readopen = true
  room : Asleep s .nwrite →
    s.pipe.nwrite = s.pipe.nread + UInt32.ofNat PIPESIZE ∨ HeldAt s Cont.isCopy

/-- What holds of the sleeping readers as long as no wakeup is lost: only a writer that is in its
loop has stored bytes without waking them. -/
def Fed (s : Sys) : Prop :=
  Asleep s .nread → s.pipe.nread = s.pipe.nwrite ∨ HeldAt s Cont.isWrite

variable {K : Cont → Prop} {p : Nat} {s : Sys}

theorem HeldAt.eq (h : HeldAt s K) (hl : s.lock = some p) (hp : s.pc p = .running k) : K k := by
  obtain ⟨q, k', hq, hpc, hK⟩ := h
  rw [hl] at hq
  cases hq
  rw [hp] at hpc
  cases hpc
  exact hK

theorem HeldAt.lock_ne_none (h : HeldAt s K) : s.lock ≠ none := by
  obtain ⟨q, k, hq, -, -⟩ := h
  rw [hq]
  exact Option.some_ne_none q

/-- The holder is not disturbed by a change of another process's place. -/
theorem HeldAt.update {K : Cont → Prop} (h : HeldAt s K)
    (hlock : t.lock = s.lock) (ht : t.pc = Function.update s.pc p x)
    (hp : ∀ k, s.pc p = .running k → x = .running k) : HeldAt t K := by
  obtain ⟨q, k, hq, hpc, hK⟩ := h
  refine ⟨q, k, hlock.trans hq, ?_, hK⟩
  rw [ht]
  by_cases hqp : q = p
  · subst hqp
    rw [Function.update_self]
    exact hp k hpc
  · rw [Function.update_of_ne hqp]
    exact hpc

variable {o : Outcome}

theorem heldAt_apply (ho : o.next = .goto k) (hK : K k) : HeldAt (s.apply p o) K := by
  refine ⟨p, k, ?_, ?_, hK⟩
  · simp [Sys.apply, ho, Next.lock]
  · simp [Sys.apply, ho, Next.pc]

/-- A step that only moves a process that is not asleep afterwards keeps both invariants. -/
theorem guarded_update (h : Guarded s) (hpipe : t.pipe = s.pipe) (hx : ∀ c k, x ≠ .sleeping c k)
    (ht : t.pc = update s.pc p x) (hheld : ∀ K, HeldAt s K → HeldAt t K) : Guarded t := by
  refine ⟨fun ha => ?_, fun ha => ?_, fun ha => ?_⟩
  · rw [hpipe]
    exact h.reader (asleep_update ht hx ha)
  · rw [hpipe]
    exact h.writer (asleep_update ht hx ha)
  · rw [hpipe]
    exact (h.room (asleep_update ht hx ha)).imp id (hheld _)

theorem fed_update (h : Fed s) (hpipe : t.pipe = s.pipe) (hx : ∀ c k, x ≠ .sleeping c k) (ht : t.pc = update s.pc p x)
    (hheld : ∀ K, HeldAt s K → HeldAt t K) : Fed t := by
  intro ha
  rw [hpipe]
  exact (h (asleep_update ht hx ha)).imp id (hheld _)

/-- A pass leaves both ends as open as they were, so only its own sleep and the room it leaves have
to be looked at. -/
theorem guarded_apply (h : Guarded s)
    (hw : o.pipe.writeopen = s.pipe.writeopen) (hr : o.pipe.readopen = s.pipe.readopen)
    (hread : ∀ k, o.next = .sleep .nread k → s.pipe.writeopen = true)
    (hwrite : ∀ k, o.next = .sleep .nwrite k → s.pipe.readopen = true ∧
      o.pipe.nwrite = o.pipe.nread + UInt32.ofNat PIPESIZE) (hroom : Asleep s .nwrite → o.wake ≠ some .nwrite →
      o.pipe.nwrite = o.pipe.nread + UInt32.ofNat PIPESIZE ∨ HeldAt (s.apply p o) Cont.isCopy) :
    Guarded (s.apply p o) := by
  refine ⟨fun ha => ?_, fun ha => ?_, fun ha => ?_⟩
  · show o.pipe.writeopen = true
    rw [hw]
    rcases asleep_apply ha with ⟨k, hk⟩ | ⟨ha', -⟩
    · exact hread k hk
    · exact h.reader ha'
  · show o.pipe.readopen = true
    rw [hr]
    rcases asleep_apply ha with ⟨k, hk⟩ | ⟨ha', -⟩
    · exact (hwrite k hk).1
    · exact h.writer ha'
  · rcases asleep_apply ha with ⟨k, hk⟩ | ⟨ha', hwake⟩
    · exact .inl (hwrite k hk).2
    · exact hroom ha' hwake

theorem fed_apply (hread : ∀ k, o.next = .sleep .nread k → o.pipe.nread = o.pipe.nwrite)
    (hfed : Asleep s .nread → o.wake ≠ some .nread → o.pipe.nread = o.pipe.nwrite ∨ HeldAt (s.apply p o) Cont.isWrite) :
    Fed (s.apply p o) := by
  intro ha
  rcases asleep_apply ha with ⟨k, hk⟩ | ⟨ha', hwake⟩
  · exact .inl (hread k hk)
  · exact hfed ha' hwake

section Passes

variable {s : Sys} {p : Nat} {o : Outcome}

variable {n : Int} {i : Nat} {addr : UInt64}

theorem guarded_writePass (h : Guarded s) (hl : s.lock = some p) (hp : s.pc p = .running (.write addr n i))
    (ho : WritePass s.pipe (s.killed p) addr n i o) : Guarded (s.apply p o) := by
  -- the holder is a writer, so writers can only be asleep on a full ring
  have hfull' : Asleep s .nwrite → s.pipe.nwrite = s.pipe.nread + UInt32.ofNat PIPESIZE :=
    fun ha => (h.room ha).resolve_right fun hc => hc.eq hl hp
  cases ho with
  | early hi hk | done _ => exact guarded_apply h rfl rfl (by simp) (by simp) fun ha _ => .inl (hfull' ha)
  | full hopen hfull =>
    exact guarded_apply h rfl rfl (by simp) (fun _ _ => ⟨hopen, hfull⟩) fun _ _ => .inl hfull
  | store c _ hfull =>
    exact guarded_apply h rfl rfl (by simp) (by simp) fun ha _ => absurd (hfull' ha) hfull

theorem guarded_readPass (h : Guarded s) (hl : s.lock = some p)
    (hp : s.pc p = .running (.read addr n)) (ho : ReadPass s.pipe o) : Guarded (s.apply p o) := by
  have hfull' : Asleep s .nwrite → s.pipe.nwrite = s.pipe.nread + UInt32.ofNat PIPESIZE :=
    fun ha => (h.room ha).resolve_right fun hc => hc.eq hl hp
  cases ho with
  | killed | begin addr n => exact guarded_apply h rfl rfl (by simp) (by simp) fun ha _ => .inl (hfull' ha)
  | wait addr n hempty hopen =>
    exact guarded_apply h rfl rfl (fun _ _ => hopen) (by simp) fun ha _ => .inl (hfull' ha)

/-- The copying loop makes room; it wakes the writers on every way out. -/
theorem guarded_copyPass (h : Guarded s) (ho : CopyPass s.pipe o) : Guarded (s.apply p o) := by
  cases ho with
  | take addr n i _ =>
    exact guarded_apply h rfl rfl (by simp) (by simp) fun _ _ =>
      Or.inr (heldAt_apply rfl trivial)
  | fault i _ | done i => exact guarded_apply h rfl rfl (by simp) (by simp) fun _ hw => absurd rfl hw

/-- A writer that stores keeps the lock, and on every way out but the early return it wakes the
readers. -/
theorem fed_writePass (hl : s.lock = some p)
    (hp : s.pc p = .running (.write addr n i)) (ho : WritePass s.pipe (s.killed p) addr n i o)
    (hlose : ¬LosesWakeup s (s.apply p o)) : Fed (s.apply p o) := by
  cases ho with
  | early hi hk =>
    refine fed_apply (by simp) fun ha _ => .inl ?_
    by_contra hne
    exact hlose ⟨⟨p, addr, n, i, hl, hp, hi, hk⟩, rfl, hne, ha⟩
  | full _ _ | done _ => exact fed_apply (by simp) fun _ hw => absurd rfl hw
  | store c _ _ => exact fed_apply (by simp) fun _ _ => .inr (heldAt_apply rfl trivial)

theorem fed_readPass (h : Fed s) (hl : s.lock = some p)
    (hp : s.pc p = .running (.read addr n)) (ho : ReadPass s.pipe o) : Fed (s.apply p o) := by
  have hempty' : Asleep s .nread → s.pipe.nread = s.pipe.nwrite :=
    fun ha => (h ha).resolve_right fun hc => hc.eq hl hp
  cases ho with
  | killed | begin addr n => exact fed_apply (by simp) fun ha _ => .inl (hempty' ha)
  | wait addr n hempty _ => exact fed_apply (fun _ _ => hempty) fun _ _ => .inl hempty

theorem fed_copyPass (h : Fed s) (hl : s.lock = some p)
    (hp : s.pc p = .running (.copy addr n i)) (ho : CopyPass s.pipe o) : Fed (s.apply p o) := by
  have hempty' : Asleep s .nread → s.pipe.nread = s.pipe.nwrite :=
    fun ha => (h ha).resolve_right fun hc => hc.eq hl hp
  cases ho with
  | take addr n i hne | fault i hne => exact fed_apply (by simp) fun ha _ => absurd (hempty' ha) hne
  | done i => exact fed_apply (by simp) fun ha _ => .inl (hempty' ha)

end Passes

/-! ## Steps and traces -/

/-- How a step that is no pass and no `pipeclose` moves one process. -/
theorem heldAt_acquire (hl : s.lock = none) (K : Cont → Prop) (h : HeldAt s K) : HeldAt t K :=
  absurd hl h.lock_ne_none

/-- The victim of a `kill` is asleep nowhere and keeps its loop head. -/
theorem kill_pc (s : Sys) (p : Nat) : ∃ x, (kill s p).pc = update s.pc p x ∧ (∀ c k, x ≠ .sleeping c k) ∧
      ∀ k, s.pc p = .running k → x = .running k := by
  cases hpc : s.pc p with
  | sleeping c k | waiting k => exact ⟨.waiting k, by simp [kill, hpc], by simp, by simp⟩
  | idle => exact ⟨.idle, by simp [kill, hpc], by simp, by simp⟩
  | running k => exact ⟨.running k, by simp [kill, hpc], by simp, by simp⟩

theorem guarded_pipeclose (h : Guarded s) (hl : s.lock = none) : Guarded (pipeclose s writable) := by
  cases writable with
  | true =>
    refine ⟨fun ha => ?_, fun ha => ?_, fun ha => ?_⟩
    · exact absurd rfl (asleep_pipeclose ha).2
    · exact h.writer (asleep_pipeclose ha).1
    · exact (h.room (asleep_pipeclose ha).1).imp id fun hc => absurd hl hc.lock_ne_none
  | false =>
    refine ⟨fun ha => ?_, fun ha => ?_, fun ha => ?_⟩
    · exact h.reader (asleep_pipeclose ha).1
    · exact absurd rfl (asleep_pipeclose ha).2
    · exact absurd rfl (asleep_pipeclose ha).2

theorem fed_pipeclose (h : Fed s) (hl : s.lock = none) : Fed (pipeclose s writable) := by
  intro ha
  have hempty := (h (asleep_pipeclose ha).1).resolve_right fun hc => hc.lock_ne_none hl
  left
  cases writable with
  | true | false => exact hempty

variable {l : Label}

theorem step_guarded (h : Guarded s) (hs : Step s l t) : Guarded t := by
  cases hs with
  | callWrite p addr n hp _ | callRead p addr n hp _ =>
    exact guarded_update h rfl (by simp) rfl fun K hK => hK.update rfl rfl (by simp [hp])
  | acquire p k _ hl => exact guarded_update h rfl (by simp) rfl (heldAt_acquire hl)
  | pass p k ch ok hp hl =>
    cases k with
    | write addr n i => exact guarded_writePass h hl hp (pipewriteStep_pass _ _ ch addr n i)
    | read addr n => exact guarded_readPass h hl hp (pipereadStep_pass _ _ addr n)
    | copy addr n i => exact guarded_copyPass h (pipecopyStep_pass _ ok addr n i)
  | close writable hl _ => exact guarded_pipeclose h hl
  | kill p =>
    obtain ⟨x, hpc, hx, hrun⟩ := kill_pc s p
    exact guarded_update h rfl hx hpc fun K hK => hK.update rfl hpc hrun

theorem step_fed (h : Fed s) (hs : Step s l t) (hlose : ¬LosesWakeup s t) : Fed t := by
  cases hs with
  | callWrite p addr n hp _ | callRead p addr n hp _ =>
    exact fed_update h rfl (by simp) rfl fun K hK => hK.update rfl rfl (by simp [hp])
  | acquire p k _ hl => exact fed_update h rfl (by simp) rfl (heldAt_acquire hl)
  | pass p k ch ok hp hl =>
    cases k with
    | write addr n i => exact fed_writePass hl hp (pipewriteStep_pass _ _ ch addr n i) hlose
    | read addr n => exact fed_readPass h hl hp (pipereadStep_pass _ _ addr n)
    | copy addr n i => exact fed_copyPass h hl hp (pipecopyStep_pass _ ok addr n i)
  | close writable hl _ => exact fed_pipeclose h hl
  | kill p =>
    obtain ⟨x, hpc, hx, hrun⟩ := kill_pc s p
    exact fed_update h rfl hx hpc fun K hK => hK.update rfl hpc hrun

/-- The early return that loses a wakeup leaves the readers asleep on a pipe that holds bytes. -/
theorem losesWakeup_strands (hs : Step s l t) (h : LosesWakeup s t) : ¬SleepersOk t := by
  obtain ⟨⟨p, addr, n, i, hl, hp, hi, hk⟩, ht, hne, q, k, hq⟩ := h
  rintro ⟨hread, -⟩
  cases hs with
  | callWrite p' _ _ _ _ | callRead p' _ _ _ _ | kill p' => exact absurd (hl.symm.trans ht) (by simp)
  | acquire p' _ _ hl' | close _ hl' _ => exact absurd (hl.symm.trans hl') (by simp)
  | pass p' k' ch ok hp' hl' =>
    obtain rfl : p = p' := Option.some.inj (hl.symm.trans hl')
    obtain rfl : Cont.write addr n i = k' := Pc.running.inj (hp.symm.trans hp')
    have hqp : q ≠ p := by
      rintro rfl
      rw [hp] at hq
      cases hq
    have hstep : contStep s.pipe (s.killed p) ch ok (.write addr n i) = ⟨s.pipe, none, .ret (-1), .returned (-1)⟩ := by
      simp only [contStep, pipewriteStep, if_pos hi, if_pos hk]
    rw [hstep] at hread
    refine hne (hread ⟨q, k, ?_⟩).1
    simp only [Sys.apply, wakeup?, update_of_ne hqp]
    exact hq

theorem not_asleep_init (junk : Fin PIPESIZE → UInt8) (c : Chan) : ¬Asleep (Sys.init junk) c := by
  rintro ⟨p, k, hp⟩
  cases hp

theorem guarded_init (junk : Fin PIPESIZE → UInt8) : Guarded (Sys.init junk) :=
  ⟨fun h => absurd h (not_asleep_init junk _), fun h => absurd h (not_asleep_init junk _),
    fun h => absurd h (not_asleep_init junk _)⟩

/-- Along every trace of `pipewrite`, `piperead`, `pipeclose` and `kill` from a fresh pipe, whenever
`pi->lock` is free a sleeping writer waits on a full pipe whose read end is open and a sleeping reader
on a pipe whose write end is open. That a sleeping reader waits on an empty pipe holds throughout if and
only if no writer, killed or left without readers, returns early while the pipe holds bytes and a
reader is asleep. -/
theorem pipe_sleepers_iff (junk : Fin PIPESIZE → UInt8) {xs : List (Label × Sys)}
    (h : Trace Step (Sys.init junk) xs) :
    (∀ x ∈ xs, x.2.lock = none →
      (Asleep x.2 .nread → x.2.pipe.writeopen = true) ∧
      (Asleep x.2 .nwrite → x.2.pipe.nwrite = x.2.pipe.nread + UInt32.ofNat PIPESIZE ∧
        x.2.pipe.readopen = true)) ∧
    ((∀ x ∈ xs, x.2.lock = none → SleepersOk x.2) ↔
      Trace (fun s _ t => ¬LosesWakeup s t) (Sys.init junk) xs) := by
  have hguard : ∀ x ∈ xs, Guarded x.2 :=
    Trace.invariant (P := Guarded) (fun s l t hs ht => step_guarded hs ht) (guarded_init junk) h
  have hwriter : ∀ x ∈ xs, x.2.lock = none → Asleep x.2 .nwrite →
      x.2.pipe.nwrite = x.2.pipe.nread + UInt32.ofNat PIPESIZE ∧ x.2.pipe.readopen = true := by
    intro x hx hl ha
    exact ⟨((hguard x hx).room ha).resolve_right fun hc => hc.lock_ne_none hl, (hguard x hx).writer ha⟩
  refine ⟨fun x hx hl => ⟨(hguard x hx).reader, hwriter x hx hl⟩, fun hok => ?_, fun hkeep => ?_⟩
  · exact Trace.of_forall (P := fun t => t.lock = none → SleepersOk t)
      (fun s l t hs hP hlose => losesWakeup_strands hs hlose (hP hlose.2.1)) h hok
  · have hfed : ∀ x ∈ xs, Fed x.2 :=
      Trace.invariant (P := Fed) (fun s l t hs ht => step_fed hs ht.1 ht.2)
        (fun ha => absurd ha (not_asleep_init junk _)) (h.and hkeep)
    intro x hx hl
    refine ⟨fun ha => ⟨?_, (hguard x hx).reader ha⟩, hwriter x hx hl⟩
    exact (hfed x hx ha).resolve_right fun hc => hc.lock_ne_none hl

/-- Process 0 reads from an empty pipe and sleeps. Process 1 writes two bytes, stores the first, is
killed, and returns -1 without waking process 0. -/
def killedWriter : List (Label × Sys) :=
  let s0 := Sys.init fun _ => 0
  let s1 : Sys := { s0 with pc := update s0.pc 0 (.waiting (.read 0 1)) }
  let s2 : Sys := { s1 with lock := some 0, pc := update s1.pc 0 (.running (.read 0 1)) }
  let s3 := s2.apply 0 (contStep s2.pipe (s2.killed 0) none true (.read 0 1))
  let s4 : Sys := { s3 with pc := update s3.pc 1 (.waiting (.write 0 2 0)) }
  let s5 : Sys := { s4 with lock := some 1, pc := update s4.pc 1 (.running (.write 0 2 0)) }
  let o5 := contStep s5.pipe (s5.killed 1) (some 7) true (.write 0 2 0)
  let s6 := s5.apply 1 o5
  let s7 := kill s6 1
  let o7 := contStep s7.pipe (s7.killed 1) (some 8) true (.write 0 2 1)
  [(.silent, s1), (.silent, s2), (.silent, s3), (.silent, s4), (.silent, s5), (o5.label, s6),
    (.silent, s7), (o7.label, s7.apply 1 o7)]

theorem killedWriter_trace : Trace Step (Sys.init fun _ => 0) killedWriter := by
  refine ⟨Step.callRead _ 0 0 1 rfl rfl, Step.acquire _ 0 _ rfl rfl,
    Step.pass _ 0 (.read 0 1) none true rfl rfl, Step.callWrite _ 1 0 2 rfl rfl,
    Step.acquire _ 1 _ rfl rfl, Step.pass _ 1 (.write 0 2 0) (some 7) true rfl rfl,
    Step.kill _ 1, Step.pass _ 1 (.write 0 2 1) (some 8) true rfl rfl, trivial⟩

/-- A killed writer leaves a reader asleep on a pipe that holds a byte, with `pi->lock` free. -/
theorem killed_writer_strands_reader :
    Trace Step (Sys.init fun _ => 0) killedWriter ∧
      ∃ x ∈ killedWriter, x.2.lock = none ∧ x.2.pc 0 = .sleeping .nread (.read 0 1) ∧
        x.2.pipe.nread ≠ x.2.pipe.nwrite ∧ x.2.pipe.writeopen = true ∧ ¬SleepersOk x.2 := by
  refine ⟨killedWriter_trace, killedWriter[7], by simp [killedWriter], rfl, rfl, by decide, rfl, ?_⟩
  rintro ⟨hread, -⟩
  exact absurd (hread ⟨0, .read 0 1, rfl⟩).1 (by decide)

/-- Up to the `kill` the same trace is a case of the theorem. -/
theorem pipe_sleepers_iff_killedWriter :
    Trace Step (Sys.init fun _ => 0) (killedWriter.take 6) ∧
      ((∀ x ∈ killedWriter.take 6, x.2.lock = none → SleepersOk x.2) ↔
        Trace (fun s _ t => ¬LosesWakeup s t) (Sys.init fun _ => 0) (killedWriter.take 6)) := by
  obtain ⟨h1, h2, h3, h4, h5, h6, -⟩ := killedWriter_trace
  have htr : Trace Step (Sys.init fun _ => 0) (killedWriter.take 6) :=
    ⟨h1, h2, h3, h4, h5, h6, trivial⟩
  exact ⟨htr, (pipe_sleepers_iff (fun _ => 0) htr).2⟩

end Xv6.Pipes
