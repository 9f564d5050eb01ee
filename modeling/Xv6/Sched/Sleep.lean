import Xv6.Sched.Effect

/-!
# Sleepers and wakeups

A process that calls `sleep(chan, lk)` gives up `lk` before its state becomes `SLEEPING`; from then on, until
somebody makes it runnable, it is waiting on the channel (`Waiting`). A `wakeup(chan)` looks at one process
after the other, and the processes it has yet to look at can be read off the stack of its caller
(`Pending`). Two facts close the window between the two: a process starts to wait only in the step in
which it gives up `lk` (`waiting_step`), and a process that a `wakeup` has looked at waits no longer, because
`p->lock` keeps it out of the steps between giving up `lk` and leaving its CPU (`pending_step`).
-/

set_option autoImplicit false
set_option linter.unusedSectionVars false

namespace Xv6.Sched

open Function (update update_self update_of_ne)

variable {N : Nat} {C : Type} [DecidableEq C]

/-- Places between giving up `lk` in `sleep` and being back on a CPU. -/
def Frame.asleep : Frame N → Bool
  | .sleep2 _ _ | .sleep3 _ _ | .sleep4 _ _ | .sleep5 _ _ => true
  | _ => false

/-- The innermost frame is not a place of `sleep` after its `release(lk)`. -/
def Awake : List (Frame N) → Prop
  | [] => True
  | f :: _ => f.asleep = false

/-- A process in the given state and with the given stack waits on the channel. -/
def Dozes (ch : Chan N) (state : Procstate) : List (Frame N) → Prop
  | .sleep2 ch' _ :: _ | .sleep3 ch' _ :: _ | .sleep4 ch' _ :: _ => ch' = ch
  | .sleep5 ch' _ :: _ => ch' = ch ∧ state = .sleeping
  | _ => False

/-- Process `q` waits on the channel: it has given up the lock it came with, and nobody has woken it. -/
def Waiting (s : Sys N C) (q : Fin N) (ch : Chan N) : Prop :=
  Dozes ch (s.sh.proc q).state (s.stack (.proc q))

/-- `p->chan` is set from its assignment in `sleep` on until it is cleared there. -/
def ChanOk (chan : Option (Chan N)) : List (Frame N) → Prop
  | .sleep3 ch _ :: _ | .sleep4 ch _ :: _ | .sleep5 ch _ :: _ => chan = some ch
  | _ => True

variable {st : List (Frame N)}

theorem awake_of_settled (h : Settled st) : Awake st := by
  cases st with
  | nil => trivial
  | cons f rest => cases f <;> simp_all [Awake, Frame.asleep, Frame.settled]

theorem Awake.not_dozes (h : Awake st) (ch : Chan N) (state : Procstate) : ¬Dozes ch state st := by
  cases st with
  | nil => exact id
  | cons f rest => cases f <;> simp_all [Dozes, Awake, Frame.asleep]

theorem Awake.chanOk (h : Awake st) (chan : Option (Chan N)) : ChanOk chan st := by
  cases st with
  | nil => trivial
  | cons f rest => cases f <;> simp_all [ChanOk, Awake, Frame.asleep]

/-- The three instructions by which a process falls asleep. -/
inductive Falls (q : Fin N) (sh : Shared N C) :
    List (Frame N) → Shared N C → List (Frame N) → Prop
  | release (ch : Chan N) (lk : Lock N) (rest : List (Frame N)) :
      Falls q sh (.sleep1 ch lk :: rest) sh (.sleep2 ch lk :: rest)
  | chan (ch : Chan N) (lk : Lock N) (rest : List (Frame N)) :
      Falls q sh (.sleep2 ch lk :: rest) (sh.setProc q { sh.proc q with chan := some ch })
        (.sleep3 ch lk :: rest)
  | state (ch : Chan N) (lk : Lock N) (rest : List (Frame N)) :
      Falls q sh (.sleep3 ch lk :: rest) (sh.setProc q { sh.proc q with state := .sleeping })
        (.sleep4 ch lk :: rest)

variable {c : C} {q : Fin N} {sh sh' : Shared N C}

theorem local_falls {k : Cfg N} {st' : List (Frame N)}
    {ev : Event N} (h : Local k c (.proc q) sh st sh' st' ev) (hs : Shape (.proc q : Tid N C) st) :
    Awake st' ∨ Falls q sh st sh' st' := by
  cases h with
  | acquire ha =>
    have hrest := awake_of_settled hs.2.2
    cases ha <;> first | exact .inl rfl | exact .inl hrest
  | release hr =>
    have hrest := awake_of_settled hs.2.2
    cases hr with
    | sleep _ ch => exact .inr (.release ch _ _)
    | _ => first | exact .inl rfl | exact .inl hrest
  | act ha =>
    have hrest := awake_of_settled hs.2.2
    cases ha with
    | move hm => cases hm <;> first | exact .inl rfl | exact .inl hrest
    | write hw =>
      cases hw with
      | sleepChan p ch lk hp => cases hp; exact .inr (.chan ch lk _)
      | sleep p ch lk hp => cases hp; exact .inr (.state ch lk _)
      | _ => first | exact .inl rfl | exact .inl hrest
    | pid | assign | back => exact .inl rfl
  | syscall hf => cases hf <;> exact .inl rfl
  | unlock => exact .inl (awake_of_settled hs.2.2)
  | timer | interrupt | wake | sleep | make => exact .inl rfl

variable {f : Frame N}

theorem leaves_dozes {next : Frame N} (h : Leaves f next) (rest : List (Frame N)) (ch : Chan N)
    (state : Procstate) (hd : Dozes ch state (next :: rest)) : Dozes ch state (f :: rest) := by
  cases h with
  | yield | exit => exact hd.elim
  | sleep ch' lk => exact hd.1

section Write

variable {k : Cfg N} {me : Option (Fin N)} {sh : Shared N C} {f : Frame N} {q : Fin N} {x : Proc N}
  {next : List (Frame N)} {ev : Event N}

theorem write_sleeping (h : Writes k me sh f q x next ev) (hme : me ≠ some q)
    (hx : x.state = .sleeping) : (sh.proc q).state = .sleeping := by
  cases h <;> simp_all [Proc.free]

/-- Only `freeproc` changes the channel of another process. -/
theorem write_chan (h : Writes k me sh f q x next ev) (hme : me ≠ some q) :
    x.chan = (sh.proc q).chan ∨ (sh.proc q).state = .zombie ∨ f = .forkFail q := by
  cases h with
  | sleepChan p ch lk hp | sleepEnd p ch lk hp => exact absurd hp hme
  | reap p addr q ps _ hz => exact .inr (.inl hz)
  | forkFail p q _ => exact .inr (.inr rfl)
  | _ => exact .inl rfl

end Write

/-! ## Sleepers -/

/-- A process that has given up its lock is executing until it leaves its CPU, and has its channel set. -/
structure SleepInv (s : Sys N C) : Prop where
  on : ∀ {q f rest}, s.stack (.proc q) = f :: rest → f.asleep = true →
    (∃ ch lk, f = .sleep5 ch lk) ∨ ∃ c, s.on c = some q
  chan : ∀ q, ChanOk (s.sh.proc q).chan (s.stack (.proc q))

variable {ch : Chan N}

section Machine

variable {k : Cfg N} {s u : Sys N C} {ev : Event N}

/-- The thread of a process that is being set up or has exited is not asleep. -/
theorem Inv.awake (h : Inv s)
    (hq : (s.sh.proc q).state = .used ∨ (s.sh.proc q).state = .zombie) : Awake (s.stack (.proc q)) := by
  by_cases hon : ∃ c, s.on c = some q
  · obtain ⟨c, hc⟩ := hon
    have hrun := h.cpus.run hc
    cases hst : s.stack (.proc q) with
    | nil => trivial
    | cons f rest =>
      rw [hst, topState_cons] at hrun
      rw [hrun] at hq
      cases f <;> simp_all [Awake, Frame.asleep, Frame.runState]
  · have hpark := h.cpus.parked fun c hc => hon ⟨c, hc⟩
    rcases hq with hq | hq
    · rw [hq] at hpark
      generalize s.stack (.proc q) = st at hpark
      simp only [Parked, Vacant] at hpark
      split at hpark
      · trivial
      · rfl
      · rfl
      · exact hpark.elim
    · rw [hq] at hpark
      obtain ⟨-, rest, hrest⟩ := hpark
      rw [hrest]
      rfl

/-- The slot that a `fork` gives back is being set up. -/
theorem Inv.forkFail_used (h : Inv s) {rest : List (Frame N)}
    (hst : s.stack (s.tid c) = .forkFail q :: rest) : (s.sh.proc q).state = .used :=
  h.claimed (x := ⟨q, .used, false⟩) hst rfl

theorem tid_me_ne (h : s.tid c ≠ .proc q) : (s.tid c).me ≠ some q := by
  cases ht : s.tid c with
  | cpu d => simp
  | proc p =>
    rw [ht] at h
    simpa using h

/-- A thread that is moved, or gets a new context, sleeps only if it did before. -/
theorem Kept.dozes (h : Kept s u q) {state : Procstate}
    (hd : Dozes ch state (u.stack (.proc q))) : Dozes ch state (s.stack (.proc q)) := by
  cases h with
  | same e _ => exact e ▸ hd
  | left c f next rest _ hleave e e' =>
    rw [e'] at hd
    rw [e]
    exact leaves_dozes hleave rest ch state hd
  | filled r rest _ e' | fresh e' => rw [e'] at hd; exact hd.elim

theorem Kept.chanOk (h : Kept s u q) {chan : Option (Chan N)}
    (hd : ChanOk chan (s.stack (.proc q))) : ChanOk chan (u.stack (.proc q)) := by
  cases h with
  | same e _ => exact e ▸ hd
  | left c f next rest _ hleave e e' =>
    rw [e] at hd
    rw [e']
    cases hleave with
    | sleep ch lk => exact hd
    | yield | exit => trivial
  | filled r rest _ e' | fresh e' => rw [e']; trivial

theorem SleepInv.step (h : SleepInv s) (hi : Inv s) (hc : Change k s ev u) : SleepInv u := by
  constructor
  · intro q f rest hst hf
    rcases stack_step hc q with ⟨c, st', ht, hon, -, -⟩ | ⟨hkept, -⟩
    · exact .inr ⟨c, by rw [hon]; exact Sys.on_of_tid ht⟩
    · cases hkept with
      | same e hon => exact (h.on (e ▸ hst) hf).imp id fun ⟨d, hd⟩ => ⟨d, hon d hd⟩
      | left c g next rest' _ hleave _ e' =>
        rw [e'] at hst
        cases hst
        cases hleave with
        | sleep ch lk => exact .inl ⟨ch, lk, rfl⟩
        | yield | exit => cases hf
      | filled r rest' _ e' | fresh e' =>
        rw [e'] at hst
        cases hst
        cases hf
  · intro q
    rcases stack_step hc q with ⟨c, st', ht, hon, hstack, hloc⟩ | ⟨hkept, hslots⟩
    · rw [hstack, update_self]
      rcases local_falls hloc (hi.locks.shape (.proc q)) with ha | hfall
      · exact ha.chanOk _
      · have hchan := h.chan q
        generalize s.stack (.proc q) = st, u.sh = sh' at hfall hchan ⊢
        cases hfall with
        | release ch lk rest => trivial
        | chan ch lk rest => simp [ChanOk, Shared.setProc]
        | state ch lk rest => simpa [ChanOk, Shared.setProc] using hchan
    · refine hkept.chanOk ?_
      rcases hslots with ⟨e, -⟩ | ⟨c, st, st', hne, hst, hloc⟩
      · rw [e]
        exact h.chan q
      · rcases local_slot hloc q with e | ⟨f, rest, x, next, hf, -, hx, hw⟩
        · rw [e]
          exact h.chan q
        · rw [hx]
          rcases write_chan hw (tid_me_ne hne) with e | hz | rfl
          · rw [e]
            exact h.chan q
          · exact (hi.awake (.inr hz)).chanOk _
          · exact (hi.awake (.inl (hi.forkFail_used (hst.trans hf)))).chanOk _

/-- A process starts to wait only by giving up the lock it came to `sleep` with. -/
theorem waiting_step (hi : Inv s) (hc : Change k s ev u) (hw : Waiting u q ch) :
    Waiting s q ch ∨ ∃ c lk rest, s.on c = some q ∧ s.stack (.proc q) = .sleep1 ch lk :: rest ∧ u.sh = s.sh := by
  unfold Waiting at hw ⊢
  rcases stack_step hc q with ⟨c, st', ht, -, hstack, hloc⟩ | ⟨hkept, hslots⟩
  · rw [hstack, update_self] at hw
    rcases local_falls hloc (hi.locks.shape (.proc q)) with ha | hfall
    · exact absurd hw (ha.not_dozes ch _)
    · generalize s.stack (.proc q) = st, u.sh = sh' at hfall hw ⊢
      cases hfall with
      | release ch' lk rest =>
        cases hw
        exact .inr ⟨c, lk, rest, Sys.on_of_tid ht, rfl, rfl⟩
      | chan ch' lk rest | state ch' lk rest => exact .inl hw
  · refine .inl ?_
    have hd := hkept.dozes hw
    rcases hslots with ⟨e, -⟩ | ⟨c, st, st', hne, -, hloc⟩
    · exact e ▸ hd
    · rcases local_slot hloc q with e | ⟨f, rest, x, next, -, -, hx, hwr⟩
      · exact e ▸ hd
      · -- another thread does not put a process to sleep
        generalize s.stack (.proc q) = st0 at hd ⊢
        unfold Dozes at hd ⊢
        split at hd
        · exact hd
        · exact hd
        · exact hd
        · exact ⟨hd.1, write_sleeping hwr (tid_me_ne hne) (hx ▸ hd.2)⟩
        · exact hd.elim

end Machine

/-! ## Wakeups in progress -/

/-- A place in a `wakeup` on the channel that has yet to look at process `q`. -/
def Frame.wakes (ch : Chan N) (q : Fin N) : Frame N → Prop
  | .wakeup ch' ps | .wakeup2 ch' _ ps => ch' = some ch ∧ q ∈ ps
  | .wakeup1 ch' r ps => ch' = some ch ∧ q ∈ r :: ps
  | _ => False

/-- The thread with the given stack is in a `wakeup` on the channel that has yet to look at `q`, called with
the lock held. -/
def Pending (own : List (Lock N)) (lk : Lock N) (ch : Chan N) (q : Fin N) : List (Frame N) → Prop :=
  Below fun f rest => f.wakes ch q ∧ lk ∈ heldStack own rest

theorem kind_of_wakes (h : f.wakes ch q) : f.kind = .leaf := by
  cases f <;> first | rfl | exact h.elim

variable {lk : Lock N}

theorem held_of_wakes {own : List (Lock N)} (f : Frame N)
    (rest : List (Frame N)) (h : f.wakes ch q ∧ lk ∈ heldStack own rest) : lk ∈ heldStack own (f :: rest) :=
  mem_heldStack_cons (by simp [kind_of_wakes h.1]) h.2

theorem Pending.held {own : List (Lock N)} (h : Pending own lk ch q st) : lk ∈ heldStack own st :=
  Below.held held_of_wakes h

/-- The instruction by which a `wakeup` looks at `q`: `q` is the caller itself, or its state and channel are
tested under its lock. -/
inductive Looks (ch : Chan N) (q : Fin N) (t : Tid N C) (sh sh' : Shared N C) : List (Frame N) → Prop
  | self (ps : List (Fin N)) (rest : List (Frame N)) : t.me = some q →
      Looks ch q t sh sh' (.wakeup (some ch) (q :: ps) :: rest)
  | test (ps : List (Fin N)) (rest : List (Frame N)) :
      ((sh.proc q).state = .sleeping → (sh.proc q).chan = some ch →
        (sh'.proc q).state = .runnable) →
      Looks ch q t sh sh' (.wakeup1 (some ch) q ps :: rest)

/-- A `wakeup` that has yet to look at `q` still has to after a step of its thread, unless this step is
the one in which it does. -/
theorem pending_local {k : Cfg N} {t : Tid N C} {st' : List (Frame N)} {ev : Event N} (h : Local k c t sh st sh' st' ev)
    (hs : Shape t st) (hs' : Shape t st') (hp : Pending t.own lk ch q st) :
    Pending t.own lk ch q st' ∨ Looks ch q t sh sh' st := by
  rcases below_local held_of_wakes h hs hs' hp with hb | ⟨f, rest, rfl, hf, hlk⟩
  · exact .inl hb
  · -- the promise is on top: the instruction is one of `wakeup`
    generalize hme : t.me = me at h
    cases h with
    | acquire ha | release ha =>
      rw [hme] at ha
      cases ha <;> first | exact hf.elim | exact .inl (.inl ⟨hf, hlk⟩)
    | act ha =>
      cases ha with
      | move hm =>
        cases hm with
        | wakeupEnd ch' => exact absurd hf.2 (by simp)
        | wakeupSelf ch' r ps hr =>
          obtain ⟨rfl, hq⟩ := hf
          by_cases hqr : q = r
          · subst hqr
            exact .inr (.self ps rest hr.symm)
          · exact .inl (.inl ⟨⟨rfl, List.mem_of_ne_of_mem hqr hq⟩, hlk⟩)
        | wakeup ch' r ps hno =>
          obtain ⟨rfl, hq⟩ := hf
          by_cases hqr : q = r
          · subst hqr
            exact .inr (.test ps rest fun hst hch => absurd ⟨hst, hch⟩ hno)
          · exact .inl (.inl ⟨⟨rfl, List.mem_of_ne_of_mem hqr hq⟩, hlk⟩)
        | _ => exact hf.elim
      | @write r x next ev hw =>
        cases hw with
        | wakeup ch' r ps hst hch =>
          obtain ⟨hch', hq⟩ := hf
          by_cases hqr : q = r
          · subst hqr hch'
            exact .inr (.test ps rest fun _ _ => by simp [Shared.setProc])
          · exact .inl (.inl ⟨⟨hch', List.mem_of_ne_of_mem hqr hq⟩, hlk⟩)
        | _ => exact hf.elim
      | pid p r _ e | assign p ps e | back p ps e => subst e; exact hf.elim
    | syscall | wake | sleep | unlock | make => exact hf.elim
    | timer | interrupt => exact .inl (.inr ⟨by simp [Frame.kind], .inl ⟨hf, hlk⟩⟩)

section Machine

variable {k : Cfg N} {s u : Sys N C} {ev : Event N}

theorem Waiting.asleep (h : Waiting s q ch) : ∃ f rest, s.stack (.proc q) = f :: rest ∧ f.asleep = true := by
  unfold Waiting Dozes at h
  split at h
  · exact ⟨_, _, by assumption, rfl⟩
  · exact ⟨_, _, by assumption, rfl⟩
  · exact ⟨_, _, by assumption, rfl⟩
  · exact ⟨_, _, by assumption, rfl⟩
  · exact h.elim

theorem Looks.awake {t : Tid N C} {rest : List (Frame N)} (h : Looks ch q t sh sh' st) (hst : st = f :: rest) :
    f.asleep = false := by
  cases h <;> cases hst <;> rfl

/-- A process that a `wakeup` on its channel looks at does not wait any longer: it is not in the middle of
`sleep`, because then it would hold its own lock. -/
theorem Looks.not_waiting (hi : Inv s) (hsl : SleepInv s)
    (h : Looks ch q (s.tid c) s.sh u.sh (s.stack (s.tid c))) (hw : Waiting s q ch)
    (hstack : u.stack (.proc q) = s.stack (.proc q)) : ¬Waiting u q ch := by
  obtain ⟨f, rest, hst, hf⟩ := hw.asleep
  generalize hst0 : s.stack (s.tid c) = st0 at h
  cases h with
  | self ps rest' hme =>
    rw [Sys.tid_of_some (on_of_me hme), hst] at hst0
    cases hst0
    cases hf
  | test ps rest' htest =>
    have hlk : s.lock (.proc q) = some c := by
      rw [hi.locks.lock, hst0]
      exact .head _
    intro hwu
    unfold Waiting at hw hwu
    rw [hstack] at hwu
    have hchan := hsl.chan q
    rw [hst] at hw hwu hchan
    rcases hsl.on hst hf with ⟨ch', lk, rfl⟩ | ⟨d, hd⟩
    · obtain ⟨rfl, hstate⟩ := hw
      rw [htest hstate hchan] at hwu
      cases hwu.2
    · -- on its CPU it holds its lock, so the CPU is this one and the thread is in `sleep`
      have hmem : .proc q ∈ heldStack (s.tid d).own (s.stack (s.tid d)) := by
        rw [Sys.tid_of_some hd, hst]
        cases f <;> simp_all [Frame.asleep, heldStack, Frame.kind, Frame.held]
      have hcd : d = c := Option.some.inj (((hi.locks.lock _ d).2 hmem).symm.trans hlk)
      subst hcd
      rw [Sys.tid_of_some hd, hst] at hst0
      cases hst0
      cases hf

/-- A `wakeup` in progress still has to look at every process that waits. -/
theorem pending_step (hi : Inv s) (hi' : Inv u) (hsl : SleepInv s) (hc : Change k s ev u) (hne : ∀ r, lk ≠ .proc r)
    (hp : Pending (s.tid c).own lk ch q (s.stack (s.tid c))) (hw : Waiting s q ch) (hw' : Waiting u q ch) :
    u.tid c = s.tid c ∧ Pending (u.tid c).own lk ch q (u.stack (u.tid c)) := by
  obtain ⟨htid, hstack⟩ := hc.holder hi hp.held hne
  refine ⟨htid, ?_⟩
  rw [htid]
  rcases hstack with hstack | ⟨st, hloc, hstack⟩
  · rw [hstack]
    exact hp
  · have hself : u.stack (s.tid c) = st := by rw [hstack, update_self]
    have hshape := hi'.locks.shape (s.tid c)
    rw [hself] at hshape ⊢
    rcases pending_local hloc (hi.locks.shape _) hshape hp with hp' | hlook
    · exact hp'
    · refine absurd hw' (hlook.not_waiting hi hsl hw ?_)
      rw [hstack, update_of_ne]
      intro e
      obtain ⟨f, rest, hf, hf'⟩ := hw.asleep
      rw [e] at hf
      rw [hlook.awake hf] at hf'
      cases hf'

end Machine

end Xv6.Sched
