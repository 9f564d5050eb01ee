import Xv6.Sched.Sleep

/-!
# No lost wakeups

A client that keeps to the rules of `sleep` and `wakeup` never sleeps through its condition
(`no_lost_wakeup`): who sleeps on the channel has seen the condition false under the lock, and who makes
the condition true does so under the lock and wakes the channel before giving it back. The invariant
says that while the condition is true somebody who holds the lock owes every waiting process a wakeup,
either because it has not called `wakeup` yet or because its `wakeup` has not come to that process.
-/

set_option autoImplicit false
set_option linter.unusedSectionVars false

namespace Xv6.Sched

open Function (update update_self update_of_ne)

variable {N : Nat} {C : Type} [DecidableEq C]

/-- The thread with the given stack has made the condition of lock `l` true and has yet to call
`wakeup`. -/
def Owing (l : Nat) : List (Frame N) → Prop := Below fun f _ => f = .holding l true

variable {own : List (Lock N)}

theorem held_of_owing {l : Nat} (f : Frame N) (rest : List (Frame N))
    (h : f = .holding l true) : .other l ∈ heldStack own (f :: rest) := by
  subst h
  exact .head _

variable {st : List (Frame N)}

theorem Owing.held {l : Nat} (h : Owing l st) : .other l ∈ heldStack own st :=
  Below.held held_of_owing h

/-- The thread with the given stack owes process `q` a wakeup on the channel that is followed. -/
def Owes (k : Cfg N) (own : List (Lock N)) (q : Fin N) (st : List (Frame N)) : Prop :=
  Owing k.lk st ∨ Pending own (.other k.lk) (.addr k.chan) q st

variable {q : Fin N}

theorem Owes.held {k : Cfg N} (h : Owes k own q st) : .other k.lk ∈ heldStack own st := by
  rcases h with h | h
  · exact h.held
  · exact h.held

/-- Who owes a wakeup goes on owing it until the channel is woken, and then a `wakeup` is in progress. -/
theorem owing_local {k : Cfg N} {c : C} {t : Tid N C} {sh sh' : Shared N C} {st' : List (Frame N)}
    {ev : Event N} (h : Local k c t sh st sh' st' ev) (hs : Shape t st) (hs' : Shape t st')
    (ho : Owing k.lk st) (q : Fin N) : Owes k t.own q st' := by
  rcases below_local (fun f rest hf => held_of_owing f rest hf) h hs hs' ho with hb | ⟨f, rest, rfl, rfl⟩
  · exact .inl hb
  · generalize t.me = me at h
    cases h with
    | acquire ha | release ha =>
      generalize t.me = me at ha
      cases ha
    | act ha =>
      cases ha with
      | move hm | write hm => cases hm
      | pid p r _ e | assign p ps e | back p ps e => cases e
    | timer | interrupt => exact .inl (.inr ⟨by simp [Frame.kind], .inl rfl⟩)
    | wake l owes rest ch =>
      by_cases hch : ch = .addr k.chan
      · subst hch
        exact .inr (.inl ⟨⟨rfl, List.mem_finRange q⟩, .head _⟩)
      · refine .inl (.inr ⟨by simp [Frame.kind], .inl ?_⟩)
        simp [hch]
    | make => exact .inl (.inl rfl)

/-- What the client's rules keep true. -/
structure ClientInv (k : Cfg N) (s : Sys N C) : Prop where
  /-- Who is about to sleep on the channel holds the lock and has seen the condition false. -/
  checked : ∀ {q f lk rest}, s.stack (.proc q) = f :: rest →
    f = .sleep0 (.addr k.chan) lk ∨ f = .sleep1 (.addr k.chan) lk →
    lk = .other k.lk ∧ s.sh.cond = false ∧ ∃ c, s.on c = some q
  owed : ∀ {q}, s.sh.cond = true → Waiting s q (.addr k.chan) →
    ∃ c, Owes k (s.tid c).own q (s.stack (s.tid c))

section Local

variable {k : Cfg N} {c : C} {t : Tid N C} {sh sh' : Shared N C} {st st' : List (Frame N)} {ev : Event N}

/-- How a process comes to the first two places of `sleep`: from the first to the second, or from one of the two
callers. -/
theorem local_sleep (h : Local k c (.proc q) sh st sh' st' ev) (hs : Shape (.proc q : Tid N C) st) {f : Frame N}
    {rest : List (Frame N)} {ch : Chan N} {lk : Lock N} (hst : st' = f :: rest)
    (hf : f = .sleep0 ch lk ∨ f = .sleep1 ch lk) : sh' = sh ∧ ((∃ rest', st = .sleep0 ch lk :: rest') ∨
      (ch = .proc q ∧ lk = .wait ∧ ∃ addr rest', st = .waitKilled2 addr false :: rest') ∨
      ∃ a l, ch = .addr a ∧ lk = .other l ∧ (a = k.chan → l = k.lk ∧ sh.cond = false)) := by
  have hset : ∀ {rest'}, rest' = f :: rest → ¬Settled rest' := by
    rintro rest' rfl
    rcases hf with rfl | rfl
    · simp [Frame.settled]
    · simp [Frame.settled]
  cases h with
  | acquire ha =>
    have hrest := hs.2.2
    cases ha <;> first
      | exact absurd hrest (hset hst)
      | (cases hst; rcases hf with hf | hf <;> cases hf; exact ⟨rfl, .inl ⟨_, rfl⟩⟩)
      | (cases hst; rcases hf with hf | hf <;> cases hf)
  | release hr =>
    have hrest := hs.2.2
    cases hr <;> first
      | exact absurd hrest (hset hst)
      | (cases hst; rcases hf with hf | hf <;> cases hf; exact ⟨rfl, .inr (.inl ⟨rfl, rfl, _, _, rfl⟩)⟩)
      | (cases hst; rcases hf with hf | hf <;> cases hf)
  | act ha =>
    have hrest := hs.2.2
    cases ha with
    | move hm | write hm =>
      cases hm <;> first
        | exact absurd hrest (hset hst)
        | (cases hst; rcases hf with hf | hf <;> cases hf)
    | pid | assign | back => cases hst; rcases hf with hf | hf <;> cases hf
  | syscall hsys => cases hsys <;> cases hst <;> rcases hf with hf | hf <;> cases hf
  | sleep l a rest' hcond =>
    cases hst
    rcases hf with hf | hf
    · cases hf
      exact ⟨rfl, .inr (.inr ⟨a, l, rfl, rfl, hcond⟩)⟩
    · cases hf
  | unlock => exact absurd hs.2.2 (hset hst)
  | timer | interrupt | wake | make => cases hst; rcases hf with hf | hf <;> cases hf

/-- Only a client that holds the lock makes the condition true. -/
theorem local_cond (h : Local k c t sh st sh' st' ev) :
    sh'.cond = sh.cond ∨ (sh'.cond = true ∧ ∃ rest, st' = .holding k.lk true :: rest ∧
      .other k.lk ∈ heldStack t.own st) := by
  cases h with
  | act ha =>
    cases ha with
    | move | pid | assign | back | write => exact .inl rfl
  | make owes rest => exact .inr ⟨rfl, rest, rfl, .head _⟩
  | acquire | release | syscall | timer | interrupt | wake | sleep | unlock => exact .inl rfl

end Local

section Machine

variable {k : Cfg N} {s u : Sys N C} {ev : Event N}

/-- Nobody else changes the condition while a process is about to sleep on it. -/
theorem ClientInv.cond_step (h : ClientInv k s) (hi : Inv s) {c : C} {st' : List (Frame N)}
    {f : Frame N} {rest : List (Frame N)} {lk : Lock N}
    (hloc : Local k c (s.tid c) s.sh (s.stack (s.tid c)) u.sh st' ev) (hst : s.stack (.proc q) = f :: rest)
    (hf : f = .sleep0 (.addr k.chan) lk ∨ f = .sleep1 (.addr k.chan) lk)
    (hq : .proc q ≠ s.tid c) : u.sh.cond = false := by
  obtain ⟨hlk, hcond, d, hd⟩ := h.checked hst hf
  subst hlk
  rcases local_cond hloc with e | ⟨-, _, -, hheld⟩
  · exact e.trans hcond
  · -- the sleeper has the lock, so the thread that holds it is the sleeper's
    have hmem : .other k.lk ∈ heldStack (s.tid d).own (s.stack (s.tid d)) := by
      rw [Sys.tid_of_some hd, hst]
      rcases hf with rfl | rfl
      · exact .head _
      · exact .head _
    have hcd : d = c :=
      Option.some.inj (((hi.locks.lock _ d).2 hmem).symm.trans ((hi.locks.lock _ c).2 hheld))
    subst hcd
    exact absurd (Sys.tid_of_some hd).symm hq

/-- A process that is at one of the first two places of `sleep` has come there now, or was there. -/
theorem sleep_step (hi : Inv s) (hc : Change k s ev u) {f : Frame N} {rest : List (Frame N)} {ch : Chan N}
    {lk : Lock N} (hst : u.stack (.proc q) = f :: rest) (hf : f = .sleep0 ch lk ∨ f = .sleep1 ch lk) :
    (∃ c, s.tid c = .proc q ∧ u.on = s.on ∧ u.sh = s.sh ∧ ((∃ rest', s.stack (.proc q) = .sleep0 ch lk :: rest') ∨
      (ch = .proc q ∧ lk = .wait ∧ ∃ addr rest', s.stack (.proc q) = .waitKilled2 addr false :: rest') ∨
      ∃ a l, ch = .addr a ∧ lk = .other l ∧ (a = k.chan → l = k.lk ∧ s.sh.cond = false))) ∨
    (s.stack (.proc q) = f :: rest ∧ (∀ c, s.on c = some q → u.on c = some q) ∧ Elsewhere k s ev u q) := by
  rcases stack_step hc q with ⟨c, st', ht, hon, hstack, hloc⟩ | ⟨hkept, hslots⟩
  · rw [hstack, update_self] at hst
    exact .inl ⟨c, ht, hon, local_sleep hloc (hi.locks.shape (.proc q)) hst hf⟩
  · cases hkept with
    | same e hon => exact .inr ⟨e ▸ hst, hon, hslots⟩
    | left c g next rest' _ hleave _ e' =>
      rw [e'] at hst
      cases hst
      cases hleave <;> rcases hf with hf | hf <;> cases hf
    | filled r rest' _ e' | fresh e' =>
      rw [e'] at hst
      cases hst
      rcases hf with hf | hf <;> cases hf

theorem ClientInv.checked_step (h : ClientInv k s) (hi : Inv s) (hc : Change k s ev u)
    {f : Frame N} {rest : List (Frame N)} {lk : Lock N} (hst' : u.stack (.proc q) = f :: rest)
    (hf : f = .sleep0 (.addr k.chan) lk ∨ f = .sleep1 (.addr k.chan) lk) :
    lk = .other k.lk ∧ u.sh.cond = false ∧ ∃ c, u.on c = some q := by
  rcases sleep_step hi hc hst' hf with ⟨c, ht, hon, hsh, hcall⟩ | ⟨hst, hon, hslots⟩
  · rw [hon, hsh]
    rcases hcall with ⟨rest', hrest⟩ | ⟨e, -⟩ | ⟨a, l, e, rfl, hcond⟩
    · exact h.checked hrest (.inl rfl)
    · cases e
    · cases e
      obtain ⟨rfl, hfalse⟩ := hcond rfl
      exact ⟨rfl, hfalse, c, Sys.on_of_tid ht⟩
  · obtain ⟨hlk, hcond, d, hd⟩ := h.checked hst hf
    refine ⟨hlk, ?_, d, hon d hd⟩
    rcases hslots with ⟨-, e' | e', -⟩ | ⟨c, st, st', hne, hst', hloc⟩
    · exact e'.trans hcond
    · exact e'
    · exact h.cond_step hi (hst' ▸ hloc) hst hf fun e => hne e.symm

/-- The condition becomes true only in the hands of a thread that then owes a wakeup. -/
theorem owing_of_cond (hc : Change k s ev u) (hs : s.sh.cond = false) (hu : u.sh.cond = true) :
    ∃ c, Owing k.lk (u.stack (u.tid c)) := by
  rcases hc.quiet_or with ⟨-, e | e, -⟩ | ⟨c, st, st', hst, hloc, hstack, hon⟩
  · rw [e, hs] at hu; cases hu
  · rw [e] at hu; cases hu
  · rcases local_cond hloc with e | ⟨-, rest, hrest, -⟩
    · rw [e, hs] at hu
      cases hu
    · refine ⟨c, ?_⟩
      rw [Sys.tid_congr hon, hstack, update_self, hrest]
      exact .inl rfl

theorem ClientInv.owed_step (h : ClientInv k s) (hi : Inv s) (hi' : Inv u) (hsl : SleepInv s)
    (hc : Change k s ev u) (hcond : u.sh.cond = true)
    (hw' : Waiting u q (.addr k.chan)) : ∃ c, Owes k (u.tid c).own q (u.stack (u.tid c)) := by
  rcases waiting_step hi hc hw' with hw | ⟨c, lk, rest, -, hst, hsh⟩
  · cases hcs : s.sh.cond with
    | false =>
      obtain ⟨c, ho⟩ := owing_of_cond hc hcs hcond
      exact ⟨c, .inl ho⟩
    | true =>
      obtain ⟨c, ho⟩ := h.owed hcs hw
      refine ⟨c, ?_⟩
      rcases ho with ho | hp
      · obtain ⟨htid, hstack⟩ := hc.holder hi ho.held (fun r => by simp)
        rw [htid]
        rcases hstack with hstack | ⟨st, hloc, hstack⟩
        · rw [hstack]
          exact .inl ho
        · have hself : u.stack (s.tid c) = st := by rw [hstack, update_self]
          have hshape := hi'.locks.shape (s.tid c)
          rw [hself] at hshape ⊢
          exact owing_local hloc (hi.locks.shape _) hshape ho q
      · exact .inr (pending_step hi hi' hsl hc (by simp) hp hw hw').2
  · -- a process that starts to wait has seen the condition false
    obtain ⟨-, hfalse, -⟩ := h.checked hst (.inr rfl)
    rw [hsh, hfalse] at hcond
    cases hcond

theorem sleepInv_boot (k : Cfg N) (sz pagetable trapframe : Nat) (cond : Bool) :
    SleepInv (Sys.boot k sz pagetable trapframe cond : Sys N C) := by
  have hawake : ∀ q, Awake ((Sys.boot k sz pagetable trapframe cond : Sys N C).stack (.proc q)) := by
    intro q
    by_cases hq : q = k.initproc
    · simp [Sys.boot, hq, Awake, Frame.asleep]
    · simp [Sys.boot, hq, Awake]
  constructor
  · intro q f rest hst hf
    have ha := hawake q
    rw [hst] at ha
    rw [ha] at hf
    cases hf
  · exact fun q => (hawake q).chanOk _

theorem run_sleepInv {sz pagetable trapframe : Nat} {cond : Bool} {ls : List (Event N)} {s : Sys N C}
    (h : Base.Run (Step k) (Sys.boot k sz pagetable trapframe cond) ls s) : Inv s ∧ SleepInv s :=
  h.invariant (P := fun _ s => Inv s ∧ SleepInv s)
    ⟨Inv.boot k sz pagetable trapframe cond, sleepInv_boot k sz pagetable trapframe cond⟩
    fun _ _ _ _ hi hs => ⟨hi.1.step hs, hi.2.step hi.1 (change_of_step hi.1.locks hs)⟩

theorem ClientInv.boot (k : Cfg N) (sz pagetable trapframe : Nat) (cond : Bool) :
    ClientInv k (Sys.boot k sz pagetable trapframe cond : Sys N C) := by
  constructor
  · intro q f lk rest hst hf
    by_cases hq : q = k.initproc
    · subst hq
      simp only [Sys.boot, if_true] at hst
      cases hst
      rcases hf with hf | hf <;> cases hf
    · simp [Sys.boot, hq] at hst
  · intro q _ hw
    obtain ⟨f, rest, hst, hf⟩ := hw.asleep
    by_cases hq : q = k.initproc
    · subst hq
      simp only [Sys.boot, if_true] at hst
      cases hst
      cases hf
    · simp [Sys.boot, hq] at hst

theorem run_clientInv {sz pagetable trapframe : Nat} {cond : Bool} {ls : List (Event N)} {s : Sys N C}
    (h : Base.Run (Step k) (Sys.boot k sz pagetable trapframe cond) ls s) : ClientInv k s := by
  have hall := h.invariant (P := fun _ s => (Inv s ∧ SleepInv s) ∧ ClientInv k s)
    ⟨⟨Inv.boot k sz pagetable trapframe cond, sleepInv_boot k sz pagetable trapframe cond⟩,
      ClientInv.boot k sz pagetable trapframe cond⟩ ?_
  · exact hall.2
  · rintro _ s ev u ⟨⟨hi, hsl⟩, hcl⟩ hs
    have hc := change_of_step hi.locks hs
    have hi' := hi.step hs
    exact ⟨⟨hi', hsl.step hi hc⟩,
      fun hst hf => hcl.checked_step hi hc hst hf, fun hcond hw => hcl.owed_step hi hi' hsl hc hcond hw⟩

/-- A process in state `SLEEPING` waits on its channel. -/
theorem waiting_of_sleeping (hi : Inv s) (hsl : SleepInv s) {p : Fin N} {ch : Chan N}
    (hp : (s.sh.proc p).state = .sleeping) (hch : (s.sh.proc p).chan = some ch) : Waiting s p ch := by
  have hchan := hsl.chan p
  unfold Waiting
  by_cases hon : ∃ c, s.on c = some p
  · obtain ⟨c, hc⟩ := hon
    have hrun := hi.cpus.run hc
    rw [hp] at hrun
    cases hst : s.stack (.proc p) with
    | nil => rw [hst] at hrun; cases hrun
    | cons f rest =>
      rw [hst] at hrun hchan
      cases f with
      | sleep4 ch' lk => exact Option.some.inj (hchan.symm.trans hch)
      | _ => cases hrun
  · have hpark := hi.cpus.parked fun c hc => hon ⟨c, hc⟩
    rw [hp] at hpark
    obtain ⟨-, ch', lk, rest, hst⟩ := hpark
    rw [hst, hch] at hchan
    cases hchan
    rw [hst]
    exact ⟨rfl, hp⟩

end Machine

/-- Let every process that sleeps on the channel do so under the lock and with the condition false, and let
every thread that makes the condition true hold the lock and wake the channel before it gives the lock
back. Then in no state of any run, with any number of processes and CPUs, is the condition true and
the lock free while a process is `SLEEPING` on the channel. -/
theorem no_lost_wakeup {k : Cfg N} {sz pagetable trapframe : Nat} {cond : Bool} {ls : List (Event N)}
    {s : Sys N C} (h : Base.Run (Step k) (Sys.boot k sz pagetable trapframe cond) ls s) :
    ¬(s.sh.cond = true ∧ s.lock (.other k.lk) = none ∧
      ∃ p, (s.sh.proc p).state = .sleeping ∧ (s.sh.proc p).chan = some (.addr k.chan)) := by
  rintro ⟨hcond, hfree, p, hp, hch⟩
  obtain ⟨hi, hsl⟩ := run_sleepInv h
  obtain ⟨c, ho⟩ := (run_clientInv h).owed hcond (waiting_of_sleeping hi hsl hp hch)
  rw [(hi.locks.lock _ c).2 ho.held] at hfree
  cases hfree

/-- One process and one CPU: the process takes the lock, finds the condition false and goes to sleep. Its
lock is then free, and the condition is not true. -/
theorem no_lost_wakeup_asleep :
    ∃ (ls : List (Event 1)) (s : Sys 1 Unit),
      Base.Run (Step ⟨0, 7, 5⟩) (Sys.boot ⟨0, 7, 5⟩ 4096 1 2 false) ls s ∧
      s.lock (.other 5) = none ∧ (s.sh.proc 0).state = .sleeping ∧
      (s.sh.proc 0).chan = some (.addr 7) ∧
      ¬(s.sh.cond = true ∧ s.lock (.other 5) = none ∧
        ∃ p, (s.sh.proc p).state = .sleeping ∧ (s.sh.proc p).chan = some (.addr 7)) := by
  have h1 := Base.Run.single (Step.acquire (k := (⟨0, 7, 5⟩ : Cfg 1))
    (Sys.boot ⟨0, 7, 5⟩ 4096 1 2 false) () (.scan [0]) [] (.proc 0) [.pick 0 []] rfl rfl rfl)
  have h2 := h1.snoc (Step.act _ () (.pick 0 []) [] _ ⟨true, none, none⟩ rfl rfl)
  have h3 := h2.snoc (Step.act _ () (.assign 0 []) [] _ ⟨true, none, none⟩ rfl rfl)
  have h4 := h3.snoc (Step.swtchTo _ () (.switch 0 []) [] 0 (.back 0 []) rfl rfl rfl)
  have h5 := h4.snoc (Step.release _ () .forkret [.user] (.proc 0) [] .silent rfl rfl rfl)
  -- the process takes the lock, finds the condition false and sleeps
  have h6 := h5.snoc (Step.interrupt _ () .user [] 5 rfl (by
    intro lk
    by_cases e : lk = .proc 0
    · subst e
      decide
    · simp [Sys.boot, update_of_ne e]))
  have h7 := h6.snoc (Step.acquire _ () (.client0 5) [.user] (.other 5) [.holding 5 false] rfl rfl rfl)
  have h8 := h7.snoc (Step.sleep _ () 0 5 7 [.user] rfl rfl (by
    intro lk
    by_cases e : lk = .other 5
    · exact fun _ => e
    · by_cases e' : lk = .proc 0
      · subst e'
        decide
      · simp [Sys.boot, update_of_ne e]) (fun _ => ⟨rfl, rfl⟩))
  have h9 := h8.snoc (Step.acquire _ () (.sleep0 (.addr 7) (.other 5)) [.holding 5 false, .user] (.proc 0)
    [.sleep1 (.addr 7) (.other 5)] rfl rfl rfl)
  have h10 := h9.snoc (Step.release _ () (.sleep1 (.addr 7) (.other 5)) [.holding 5 false, .user]
    (.other 5) [.sleep2 (.addr 7) (.other 5)] .silent rfl rfl rfl)
  have h11 := h10.snoc (Step.act _ () (.sleep2 (.addr 7) (.other 5)) [.holding 5 false, .user] _
    ⟨true, none, none⟩ rfl rfl)
  have h12 := h11.snoc (Step.act _ () (.sleep3 (.addr 7) (.other 5)) [.holding 5 false, .user] _
    ⟨true, none, none⟩ rfl rfl)
  have h13 := h12.snoc (Step.swtchBack _ () 0 (.sleep4 (.addr 7) (.other 5)) [.holding 5 false, .user]
    (.sleep5 (.addr 7) (.other 5)) rfl rfl rfl)
  exact ⟨_, _, h13, rfl, rfl, rfl, no_lost_wakeup h13⟩

end Xv6.Sched
