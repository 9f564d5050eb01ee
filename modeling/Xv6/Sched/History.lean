import Xv6.Sched.Reap

/-!
# Every exit is reaped at most once

The events of a run say which exits are still to be reaped (`outstanding`) and what a `wait` is about to return
(`returning`). `HistoryInv` ties both to the process table and the stacks, and `exit_wait` puts together what
holds in every run: live parents, no sleeping `wait` with a zombie child, and the agreement of `wait`
with `exit`.
-/

set_option autoImplicit false
set_option linter.unusedSectionVars false

namespace Xv6.Sched

variable {N : Nat} {C : Type} [DecidableEq C]

/-- The last exit of slot `q`, if nobody has reaped it: the pid and the status. -/
def outstanding (q : Fin N) (ls : List (Event N)) : Option (Int32 × Int32) :=
  ls.foldl (fun o ev => match ev with
    | .exited p pid status => if p = q then some (pid, status) else o
    | .reaped _ p _ _ => if p = q then none else o
    | _ => o) none

/-- The pid that a `wait` of `p` has found and not yet returned. -/
def returning (p : Fin N) (ls : List (Event N)) : Option Int32 :=
  ls.foldl (fun o ev => match ev with
    | .reaped p' _ pid _ => if p' = p then some pid else o
    | .waited p' _ => if p' = p then none else o
    | _ => o) none

/-- The event is an exit or a reaping of slot `q`. -/
def Event.about (q : Fin N) : Event N → Prop
  | .exited p _ _ => p = q
  | .reaped _ p _ _ => p = q
  | _ => False

/-- The pid that a `wait` is about to return. -/
def Frame.returns : Frame N → Option Int32
  | .waitDone _ pid | .waitRet pid => some pid
  | _ => none

/-- What a slot shows of an exit that is still to be reaped. -/
def Proc.exit (x : Proc N) : Option (Int32 × Int32) :=
  if x.state = .zombie then some (x.pid, x.xstate) else none

variable {ev : Event N} {q : Fin N} {ls : List (Event N)}

theorem outstanding_of_not_about (h : ¬ev.about q) : outstanding q (ls ++ [ev]) = outstanding q ls := by
  cases ev <;> simp_all [outstanding, List.foldl_append, Event.about]

theorem outstanding_exited (q : Fin N) (ls : List (Event N)) (pid status : Int32) :
    outstanding q (ls ++ [.exited q pid status]) = some (pid, status) := by
  simp [outstanding, List.foldl_append]

theorem outstanding_reaped (p q : Fin N) (ls : List (Event N)) (pid : Int32) (stored : Option Int32) :
    outstanding q (ls ++ [.reaped p q pid stored]) = none := by
  simp [outstanding, List.foldl_append]

theorem returning_reaped (p q : Fin N) (ls : List (Event N)) (pid : Int32) (stored : Option Int32) :
    returning p (ls ++ [.reaped p q pid stored]) = some pid := by
  simp [returning, List.foldl_append]

variable {p : Fin N}

theorem returning_other (h : ¬((∃ q pid stored, ev = .reaped p q pid stored) ∨ ∃ pid, ev = .waited p pid)) :
    returning p (ls ++ [ev]) = returning p ls := by
  cases ev with
  | reaped p' q pid stored =>
    have hne : p' ≠ p := by
      rintro rfl
      exact h (.inl ⟨q, pid, stored, rfl⟩)
    simp [returning, List.foldl_append, hne]
  | waited p' pid =>
    have hne : p' ≠ p := by
      rintro rfl
      exact h (.inr ⟨pid, rfl⟩)
    simp [returning, List.foldl_append, hne]
  | _ => simp [returning, List.foldl_append]

section Local

variable {k : Cfg N} {c : C} {p : Fin N} {sh sh' : Shared N C} {ev : Event N}

theorem returns_fires {f g : Frame N} {next : List (Frame N)} {pid : Int32}
    (h : Fires k c p sh f sh' next ev) (hc : call (next ++ [.user]) = some g) (hg : g.returns = some pid) :
    (f.returns = some pid ∧ ev = .silent) ∨ ∃ q stored, ev = .reaped p q pid stored := by
  cases h with
  | acquire ha | move ha => cases ha <;> cases hc <;> cases hg
  | release hr =>
    cases hr with
    | waitDone => cases hc; exact .inl ⟨hg, rfl⟩
    | _ => cases hc <;> cases hg
  | write hw =>
    cases hw with
    | reap p' addr q ps hp _ => cases hp; cases hc; cases hg; exact .inr ⟨_, _, rfl⟩
    | _ => cases hc <;> cases hg
  | pid q => cases hc; cases hg

theorem status_fires {f : Frame N} {next : List (Frame N)} {status : Int32}
    (h : Fires k c p sh f sh' next ev) (hc : call (next ++ [.user]) = some (.exit4 status)) :
    (sh'.proc p).xstate = status := by
  cases h with
  | acquire ha | release ha | move ha => cases ha <;> cases hc
  | write hw =>
    cases hw with
    | exitStatus p' status hp => cases hp; cases hc; simp [Shared.setProc]
    | _ => cases hc
  | pid q => cases hc

end Local

section Write

variable {k : Cfg N} {me : Option (Fin N)} {sh : Shared N C} {f : Frame N} {q : Fin N} {x : Proc N}
  {next : List (Frame N)} {ev : Event N}

theorem about_write (h : Writes k me sh f q x next ev) {r : Fin N} (hr : ev.about r) : r = q := by
  cases h <;> first | exact hr.elim | exact hr.symm

/-- Only `exit` itself and `freeproc` change an exit status. -/
theorem write_xstate (h : Writes k me sh f q x next ev) (hme : me ≠ some q) :
    x.xstate = (sh.proc q).xstate ∨ (∃ addr ps, f = .waitTest addr q ps) ∨ f = .forkFail q := by
  cases h with
  | exitStatus p status hp => exact absurd hp hme
  | reap p addr q ps _ _ => exact .inr (.inl ⟨addr, ps, rfl⟩)
  | forkFail => exact .inr (.inr rfl)
  | _ => exact .inl rfl

end Write

variable {k : Cfg N}

/-- An exit or a reaping of a slot is a write to the slot. -/
theorem about_local {c : C} {t : Tid N C} {sh sh' : Shared N C} {st st' : List (Frame N)}
    (h : Local k c t sh st sh' st' ev) (hq : ev.about q) :
    ∃ f rest next, st = f :: rest ∧ Writes k t.me sh f q (sh'.proc q) next ev := by
  generalize hme : t.me = me at h
  cases h with
  | release hr =>
    rw [hme] at hr
    cases hr <;> exact hq.elim
  | @act f rest next sh' ev ha =>
    rw [hme] at ha
    cases ha with
    | move hm => cases hm <;> exact hq.elim
    | @write r x next ev hw =>
      obtain rfl := about_write hw hq
      exact ⟨f, rest, next, rfl, by simpa [Shared.setProc] using hw⟩
    | pid | assign | back => exact hq.elim
  | acquire | syscall | timer | interrupt | wake | sleep | unlock | make => exact hq.elim

/-- The events of a run agree with the process table and with what system calls are about to do. -/
structure HistoryInv (ls : List (Event N)) (s : Sys N C) : Prop where
  exits : ∀ q, outstanding q ls = (s.sh.proc q).exit
  status : ∀ {p status}, call (s.stack (.proc p)) = some (.exit4 status) → (s.sh.proc p).xstate = status
  returns : ∀ {p f pid}, call (s.stack (.proc p)) = some f → f.returns = some pid →
    returning p ls = some pid

section Machine

variable {k : Cfg N} {s u : Sys N C} {ev : Event N}

theorem exit_of_ne_zombie {x : Proc N} (h : x.state ≠ .zombie) : x.exit = none := by
  simp [Proc.exit, h]

/-- What a write does to the exits that are to be reaped. -/
theorem exit_write (hi : Inv s) {c : C} {f : Frame N} {rest next : List (Frame N)} {q : Fin N}
    {x : Proc N} (hst : s.stack (s.tid c) = f :: rest) (hw : Writes k (s.tid c).me s.sh f q x next ev) :
    (x.exit = (s.sh.proc q).exit ∧ ¬ev.about q) ∨ (∃ status, f = .exit4 status ∧ (s.tid c).me = some q ∧
      ev = .exited q (s.sh.proc q).pid status ∧ x = { s.sh.proc q with state := .zombie } ∧
      (s.sh.proc q).state = .running) ∨
    (∃ p addr ps, f = .waitTest addr q ps ∧ (s.tid c).me = some p ∧
      ev = .reaped p q (s.sh.proc q).pid (if addr ≠ 0 then some (s.sh.proc q).xstate else none) ∧
      x = Proc.free ∧ (s.sh.proc q).state = .zombie) := by
  -- a process that is executing one of these instructions is running
  have hown : (s.tid c).me = some q → (s.sh.proc q).state = f.runState := by
    intro hme
    have hon := on_of_me hme
    rw [Sys.tid_of_some hon] at hst
    have hrun := hi.cpus.run hon
    rw [hst] at hrun
    exact hrun
  have hclaim : ∀ {y : Creation N}, f.creates = some y → (s.sh.proc y.slot).state = y.state :=
    fun hy => hi.claimed hst hy
  -- neither before nor after the write is the slot a zombie
  have hneither : (s.sh.proc q).state ≠ .zombie → x.state ≠ .zombie → x.exit = (s.sh.proc q).exit := by
    intro h1 h2
    rw [exit_of_ne_zombie h1, exit_of_ne_zombie h2]
  cases hw with
  | exit p status hp => exact .inr (.inl ⟨status, rfl, hp, rfl, rfl, hown hp⟩)
  | reap p addr q ps hp hz => exact .inr (.inr ⟨p, addr, ps, rfl, hp, rfl, rfl, hz⟩)
  | pick p ps hrun => exact .inl ⟨hneither (by simp [hrun]) (by simp), id⟩
  | wakeup ch q ps hsl _ | killAsleep p pid q _ hsl => exact .inl ⟨hneither (by simp [hsl]) (by simp), id⟩
  | yield p hp | sleep p ch lk hp => exact .inl ⟨hneither (by simp [hown hp, Frame.runState]) (by simp), id⟩
  | exitStatus p status hp =>
    have hrun := hown hp
    exact .inl ⟨hneither (by simp [hrun, Frame.runState]) (by simp [hrun, Frame.runState]), id⟩
  | forkUsed p q pid hp =>
    have hu := hclaim (y := ⟨q, .unused, false⟩) rfl
    exact .inl ⟨hneither (by simp [show (s.sh.proc q).state = .unused from hu]) (by simp), id⟩
  | forkFail p q hp =>
    have hu := hclaim (y := ⟨q, .used, false⟩) rfl
    exact .inl ⟨hneither (by simp [show (s.sh.proc q).state = .used from hu]) (by simp [Proc.free]), id⟩
  | forkRun p q pid hp =>
    have hu := hclaim (y := ⟨q, .used, true⟩) rfl
    exact .inl ⟨hneither (by simp [show (s.sh.proc q).state = .used from hu]) (by simp), id⟩
  | _ => exact .inl ⟨rfl, id⟩

/-- Events about a slot are those of the write that changes it. -/
theorem event_step (hc : Change k s ev u) (q : Fin N) : (u.sh.proc q = s.sh.proc q ∧ ¬ev.about q) ∨
      ∃ c f rest next, s.stack (s.tid c) = f :: rest ∧ Writes k (s.tid c).me s.sh f q (u.sh.proc q) next ev := by
  rcases hc.quiet_or with ⟨e, -, rfl | ⟨r, rfl⟩⟩ | ⟨c, st, st', hst, hloc, -⟩
  · exact .inl ⟨by rw [e], id⟩
  · exact .inl ⟨by rw [e], id⟩
  · by_cases hq : ev.about q
    · obtain ⟨f, rest, next, hf, hw⟩ := about_local hloc hq
      exact .inr ⟨c, f, rest, next, hst.trans hf, hw⟩
    · rcases local_slot hloc q with e | ⟨f, rest, x, next, hf, -, hx, hw⟩
      · exact .inl ⟨e, hq⟩
      · exact .inr ⟨c, f, rest, next, hst.trans hf, hx ▸ hw⟩

theorem HistoryInv.exits_step (h : HistoryInv ls s) (hi : Inv s)
    (hc : Change k s ev u) (q : Fin N) : outstanding q (ls ++ [ev]) = (u.sh.proc q).exit := by
  rcases event_step hc q with ⟨e, hno⟩ | ⟨c, f, rest, next, hst, hw⟩
  · rw [outstanding_of_not_about hno, e]
    exact h.exits q
  · rcases exit_write hi hst hw with ⟨e, hno⟩ | ⟨status, rfl, hme, rfl, e, hrun⟩ | ⟨p, addr, ps, rfl, hme, rfl, e, -⟩
    · rw [outstanding_of_not_about hno, e]
      exact h.exits q
    · obtain ⟨hcall, -⟩ := hi.call_top hme hst rfl
      rw [outstanding_exited, e, ← h.status hcall]
      rfl
    · rw [outstanding_reaped, e]
      rfl

theorem HistoryInv.status_step (h : HistoryInv ls s) (hi : Inv s) (hc : Change k s ev u) {status : Int32}
    (hcall : call (u.stack (.proc p)) = some (.exit4 status)) : (u.sh.proc p).xstate = status := by
  cases call_cases hi hc hcall rfl with
  | above hcall _ _ hx =>
    rw [hx]
    exact h.status hcall
  | fires c g next _ _ hcall hfire => exact status_fires hfire hcall
  | other hcall' hslots =>
    obtain ⟨d, hon, hlk⟩ := hi.wait_holder hcall' List.mem_cons_self (by simp)
    rcases hslots.write p with e | ⟨c, g, rest, next, hst, hne, hw⟩
    · rw [e]
      exact h.status hcall'
    · rcases write_xstate hw (tid_me_ne hne) with e | ⟨addr, ps, rfl⟩ | rfl
      · rw [e]
        exact h.status hcall'
      · have hlk' := hi.lock_top hst (.tail _ (.head _))
        exact absurd (wait_unique hlk' hlk hon) hne
      · exact absurd hon (hi.cpus.not_on (.inr (hi.forkFail_used hst)) d)

theorem HistoryInv.returns_step {ls : List (Event N)} (h : HistoryInv ls s) (hi : Inv s)
    (hc : Change k s ev u) {p : Fin N} {f : Frame N} {pid : Int32}
    (hcall : call (u.stack (.proc p)) = some f) (hf : f.returns = some pid) : returning p (ls ++ [ev]) = some pid := by
  cases call_cases hi hc hcall (by cases f <;> first | rfl | cases hf) with
  | above hcall _ _ _ hev =>
    subst hev
    rw [returning_other (by simp)]
    exact h.returns hcall hf
  | fires c g next hg _ hcall hfire =>
    rcases returns_fires hfire hcall hf with ⟨hf', rfl⟩ | ⟨q, stored, rfl⟩
    · rw [returning_other (by simp)]
      exact h.returns hg hf'
    · exact returning_reaped p q ls pid stored
  | other hcall' hslots =>
    rw [returning_other]
    · exact h.returns hcall' hf
    · intro hev
      rcases hslots with ⟨-, -, rfl | ⟨q, rfl⟩⟩ | ⟨c, st, st', hne, hst, hloc⟩
      · simp at hev
      · simp at hev
      · exact tid_me_ne hne (event_local hloc hev)

theorem HistoryInv.step (h : HistoryInv ls s) (hi : Inv s) (hc : Change k s ev u) : HistoryInv (ls ++ [ev]) u :=
  ⟨h.exits_step hi hc, fun hcall => h.status_step hi hc hcall, fun hcall hf => h.returns_step hi hc hcall hf⟩

end Machine

/-! ## Whole runs -/

theorem HistoryInv.boot (k : Cfg N) (sz pagetable trapframe : Nat) (cond : Bool) :
    HistoryInv [] (Sys.boot k sz pagetable trapframe cond : Sys N C) := by
  refine ⟨fun q => ?_, fun hf => ?_, fun hf hr => ?_⟩
  · by_cases hq : q = k.initproc
    · simp [outstanding, Sys.boot, hq, Proc.exit]
    · simp [outstanding, Sys.boot, Function.update_of_ne hq, Proc.exit, Proc.free]
  · cases call_boot hf
  · rw [call_boot hf] at hr
    cases hr

theorem WaitInv.boot (k : Cfg N) (sz pagetable trapframe : Nat) (cond : Bool) :
    WaitInv (Sys.boot k sz pagetable trapframe cond : Sys N C) := by
  have hawake : ∀ {q}, ¬Waiting (Sys.boot k sz pagetable trapframe cond : Sys N C) q (.proc q) := by
    intro q hw
    obtain ⟨f, rest, hst, hf⟩ := hw.asleep
    by_cases hq : q = k.initproc
    · subst hq
      simp only [Sys.boot, if_true] at hst
      cases hst
      cases hf
    · simp [Sys.boot, hq] at hst
  refine ⟨fun hf hu => ?_, fun hf hu => ?_, fun {p f r lk rest} hst hf => ?_, fun _ _ _ hw => absurd hw hawake,
    fun hw => absurd hw hawake⟩
  · rw [call_boot hf] at hu
    cases hu
  · rw [call_boot hf] at hu
    cases hu
  · by_cases hp : p = k.initproc
    · subst hp
      simp only [Sys.boot, if_true] at hst
      cases hst
      rcases hf with hf | hf <;> cases hf
    · simp [Sys.boot, hp] at hst

/-- Everything that holds after a run with the given events. -/
structure RunInv (k : Cfg N) (ls : List (Event N)) (s : Sys N C) : Prop where
  inv : Inv s
  sleep : SleepInv s
  family : FamilyInv k s
  wait : WaitInv s
  history : HistoryInv ls s

variable {s : Sys N C}

theorem RunInv.step {u : Sys N C} (h : RunInv k ls s) (hs : Step k s ev u) : RunInv k (ls ++ [ev]) u := by
  have hc := change_of_step h.inv.locks hs
  have hi' := h.inv.step hs
  exact ⟨hi', h.sleep.step h.inv hc, h.family.step h.inv hc, h.wait.step h.inv hi' h.sleep hc, h.history.step h.inv hc⟩

end Xv6.Sched
