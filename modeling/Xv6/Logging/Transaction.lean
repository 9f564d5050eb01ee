import Xv6.Base.Param
import Xv6.Base.Transition
import Xv6.Base.FiniteSum

/-!
# The log's transaction state machine

The sections of `kernel/log.c` that run under `log.lock`: `begin_op`, `log_write`, `end_op` and the
end of a commit. Every section is one atomic step of a process. A commit runs without the lock;
here it shows only where it changes `struct log`: it sets `log.lh.n = 0` when the transaction is
installed, and then resets `log.committing` and wakes the sleepers.

Each running operation carries the set of block numbers it has logged. The code does not keep
this set; nothing but statements about operations reads it.
-/

set_option autoImplicit false

namespace Xv6.Logging

open Function Xv6.Base

universe u

/-- `struct log`. `block` is `lh.block[0..n)`, so its length is `lh.n`. -/
structure Log where
  start : Nat
  size : Nat
  outstanding : Int
  committing : Bool
  block : List Nat
  deriving DecidableEq, Repr

/-- `log.lh.n`. -/
def Log.n (lg : Log) : Nat := lg.block.length

/-- The panics of `end_op` and `log_write`. -/
inductive LogPanic where
  | committing
  | tooBig
  | outsideTrans
  deriving DecidableEq, Repr

/-- One pass through the loop of `begin_op`; `none` means the process goes to sleep on `&log`. -/
def beginOp (lg : Log) : Option Log :=
  if lg.committing then none
  else if (lg.n : Int) + (lg.outstanding + 1) * MAXOPBLOCKS > LOGSIZE then none
  else some { lg with outstanding := lg.outstanding + 1 }

/-- The section of `end_op` before the commit. The flag is `do_commit`; without it the section has
called `wakeup(&log)`. -/
def endOp (lg : Log) : Except LogPanic (Bool × Log) :=
  let lg := { lg with outstanding := lg.outstanding - 1 }
  if lg.committing then .error .committing
  else if lg.outstanding = 0 then .ok (true, { lg with committing := true })
  else .ok (false, lg)

/-- `log_write` of a buffer for block `b`. A block number that is already in the header is absorbed;
otherwise it is appended (and the buffer pinned). -/
def logWrite (lg : Log) (b : Nat) : Except LogPanic Log :=
  if lg.n ≥ LOGSIZE ∨ (lg.n : Int) ≥ (lg.size : Int) - 1 then .error .tooBig
  else if lg.outstanding < 1 then .error .outsideTrans
  else if b ∈ lg.block then .ok lg
  else .ok { lg with block := lg.block ++ [b] }

/-- Where a process stands: outside file-system calls, in `begin_op` about to take `log.lock`,
asleep on `&log`, inside an operation that has logged the blocks `ws`, in `commit()`, or past the
point of `commit()` where `log.lh.n` is zero again. -/
inductive Pc where
  | idle
  | trying
  | sleeping
  | inOp (ws : Finset Nat)
  | commit
  | cleared
  deriving DecidableEq

/-- What a process does in one step. `kill` makes a sleeping process run again. -/
inductive Act where
  | call
  | attempt
  | write (b : Nat)
  | finishOp
  | clear
  | finishCommit
  | kill
  deriving DecidableEq, Repr

/-- The log and the processes that use it. No step follows a panic. -/
structure Sys (P : Type u) where
  log : Log
  pc : P → Pc
  panic : Option LogPanic

variable {P : Type u} [DecidableEq P]

/-- `wakeup(&log)` on one process. -/
def Pc.wake : Pc → Pc
  | .sleeping => .trying
  | pc => pc

/-- `wakeup(&log)`. -/
def wakeup (pc : P → Pc) : P → Pc := fun p => (pc p).wake

/-- The step `a` of process `p`, if the process stands where it can make it. -/
def step (s : Sys P) (p : P) (a : Act) : Option (Sys P) :=
  if s.panic.isSome then none else
  match a, s.pc p with
  | .call, .idle => some { s with pc := update s.pc p .trying }
  | .attempt, .trying =>
    match beginOp s.log with
    | none => some { s with pc := update s.pc p .sleeping }
    | some lg => some { s with log := lg, pc := update s.pc p (.inOp ∅) }
  | .write b, .inOp ws =>
    match logWrite s.log b with
    | .error e => some { s with panic := some e }
    | .ok lg => some { s with log := lg, pc := update s.pc p (.inOp (insert b ws)) }
  | .finishOp, .inOp _ =>
    match endOp s.log with
    | .error e => some { s with panic := some e }
    | .ok (true, lg) => some { s with log := lg, pc := update s.pc p .commit }
    | .ok (false, lg) =>
      some { s with log := lg, pc := update (wakeup s.pc) p .idle }
  | .clear, .commit =>
    some { s with
      log := { s.log with block := [] }
      pc := update s.pc p .cleared }
  | .finishCommit, .cleared =>
    some { s with
      log := { s.log with committing := false }
      pc := update (wakeup s.pc) p .idle }
  | .kill, .sleeping => some { s with pc := update s.pc p .trying }
  | _, _ => none

/-- The step relation; a label names the process and what it does. -/
def Step (s : Sys P) (l : P × Act) (t : Sys P) : Prop := step s l.1 l.2 = some t

/-- The log as `initlog` leaves it, with no process inside. -/
def Sys.init (P : Type u) (start size : Nat) : Sys P :=
  { log := { start := start, size := size, outstanding := 0, committing := false, block := [] }
    pc := fun _ => .idle
    panic := none }

/-- Runs the labels in order. -/
def exec (s : Sys P) : List (P × Act) → Option (Sys P)
  | [] => some s
  | l :: ls => (step s l.1 l.2).bind fun t => exec t ls

theorem run_of_exec : ∀ {ls : List (P × Act)} {s t : Sys P}, exec s ls = some t → Run Step s ls t
  | [], s, t, h => by
    simp only [exec, Option.some.injEq] at h
    subst h
    exact Run.nil s
  | l :: ls, s, t, h => by
    simp only [exec, Option.bind_eq_some_iff] at h
    obtain ⟨u, hu, hrest⟩ := h
    exact Run.append (@Run.single _ _ Step _ _ _ hu) (run_of_exec hrest)

/-! ## What a step can do -/

theorem beginOp_eq_some_iff {lg lg' : Log} : beginOp lg = some lg' ↔ lg.committing = false ∧
      (lg.n : Int) + (lg.outstanding + 1) * MAXOPBLOCKS ≤ LOGSIZE ∧
      lg' = { lg with outstanding := lg.outstanding + 1 } := by
  unfold beginOp
  constructor
  · intro h
    split_ifs at h with hc hn
    simp only [Option.some.injEq] at h
    exact ⟨by simpa using hc, by omega, h.symm⟩
  · rintro ⟨hc, hn, rfl⟩
    rw [if_neg (by simp [hc]), if_neg (by omega)]

theorem beginOp_eq_none_iff {lg : Log} : beginOp lg = none ↔ lg.committing = true ∨
      (lg.n : Int) + (lg.outstanding + 1) * MAXOPBLOCKS > LOGSIZE := by
  unfold beginOp
  split_ifs with hc hn
  · simp [hc]
  · simp [hn]
  · simp [hc]
    omega

/-- The processes' local states after a step: which process moved, from where to where, and what
became of the log. Sleepers may have been woken as well. -/
inductive StepCase (s t : Sys P) (p : P) : Act → Prop
  | call : s.pc p = .idle → t = { s with pc := update s.pc p .trying } →
      StepCase s t p .call
  | sleep : s.pc p = .trying →
      (s.log.committing = true ∨
        (s.log.n : Int) + (s.log.outstanding + 1) * MAXOPBLOCKS > LOGSIZE) →
      t = { s with pc := update s.pc p .sleeping } → StepCase s t p .attempt
  | enter : s.pc p = .trying → s.log.committing = false →
      (s.log.n : Int) + (s.log.outstanding + 1) * MAXOPBLOCKS ≤ LOGSIZE →
      t = { s with
        log := { s.log with outstanding := s.log.outstanding + 1 }
        pc := update s.pc p (.inOp ∅) } → StepCase s t p .attempt
  | write {ws : Finset Nat} {b : Nat} {lg : Log} : s.pc p = .inOp ws → logWrite s.log b = .ok lg →
      t = { s with log := lg, pc := update s.pc p (.inOp (insert b ws)) } →
      StepCase s t p (.write b)
  | writePanic {ws : Finset Nat} {b : Nat} {e : LogPanic} : s.pc p = .inOp ws →
      logWrite s.log b = .error e → t = { s with panic := some e } → StepCase s t p (.write b)
  | finishOp {ws : Finset Nat} : s.pc p = .inOp ws → s.log.committing = false →
      s.log.outstanding ≠ 1 →
      t = { s with
        log := { s.log with outstanding := s.log.outstanding - 1 }
        pc := update (wakeup s.pc) p .idle } → StepCase s t p .finishOp
  | startCommit {ws : Finset Nat} : s.pc p = .inOp ws → s.log.committing = false →
      s.log.outstanding = 1 →
      t = { s with
        log := { s.log with outstanding := 0, committing := true }
        pc := update s.pc p .commit } → StepCase s t p .finishOp
  | finishPanic {ws : Finset Nat} : s.pc p = .inOp ws → s.log.committing = true →
      t = { s with panic := some .committing } → StepCase s t p .finishOp
  | clear : s.pc p = .commit →
      t = { s with log := { s.log with block := [] }, pc := update s.pc p .cleared } →
      StepCase s t p .clear
  | finishCommit : s.pc p = .cleared →
      t = { s with
        log := { s.log with committing := false }
        pc := update (wakeup s.pc) p .idle } → StepCase s t p .finishCommit
  | kill : s.pc p = .sleeping → t = { s with pc := update s.pc p .trying } →
      StepCase s t p .kill

theorem endOp_cases (lg : Log) : (lg.committing = true ∧ endOp lg = .error .committing) ∨
      (lg.committing = false ∧ lg.outstanding = 1 ∧
        endOp lg = .ok (true, { lg with outstanding := 0, committing := true })) ∨
      (lg.committing = false ∧ lg.outstanding ≠ 1 ∧
        endOp lg = .ok (false, { lg with outstanding := lg.outstanding - 1 })) := by
  cases hc : lg.committing with
  | true => exact .inl ⟨rfl, by simp [endOp, hc]⟩
  | false =>
    by_cases ho : lg.outstanding = 1
    · exact .inr (.inl ⟨rfl, ho, by simp [endOp, hc, ho]⟩)
    · have ho' : lg.outstanding - 1 ≠ 0 := by omega
      exact .inr (.inr ⟨rfl, ho, by simp [endOp, hc, ho']⟩)

variable {p : P} {s : Sys P}

theorem step_cases {t : Sys P} {a : Act} (h : step s p a = some t) : s.panic = none ∧ StepCase s t p a := by
  unfold step at h
  by_cases hp : s.panic.isSome
  · rw [if_pos hp] at h
    cases h
  rw [if_neg hp] at h
  refine ⟨by simpa using hp, ?_⟩
  cases hpc : s.pc p with
  | idle =>
    cases a <;> simp only [hpc, Option.some.injEq, reduceCtorEq] at h
    exact .call hpc h.symm
  | trying =>
    cases a <;> simp only [hpc, reduceCtorEq] at h
    cases hb : beginOp s.log with
    | none =>
      simp only [hb, Option.some.injEq] at h
      exact .sleep hpc (beginOp_eq_none_iff.1 hb) h.symm
    | some lg =>
      simp only [hb, Option.some.injEq] at h
      obtain ⟨hc, hn, rfl⟩ := beginOp_eq_some_iff.1 hb
      exact .enter hpc hc hn h.symm
  | sleeping =>
    cases a <;> simp only [hpc, Option.some.injEq, reduceCtorEq] at h
    exact .kill hpc h.symm
  | inOp ws =>
    cases a <;> simp only [hpc, reduceCtorEq] at h
    case write b =>
      cases hw : logWrite s.log b with
      | error e =>
        simp only [hw, Option.some.injEq] at h
        exact .writePanic hpc hw h.symm
      | ok lg =>
        simp only [hw, Option.some.injEq] at h
        exact .write hpc hw h.symm
    case finishOp =>
      rcases endOp_cases s.log with ⟨hc, he⟩ | ⟨hc, ho, he⟩ | ⟨hc, ho, he⟩
      · simp only [he, Option.some.injEq] at h
        exact .finishPanic hpc hc h.symm
      · simp only [he, Option.some.injEq] at h
        exact .startCommit hpc hc ho h.symm
      · simp only [he, Option.some.injEq] at h
        exact .finishOp hpc hc ho h.symm
  | commit =>
    cases a <;> simp only [hpc, Option.some.injEq, reduceCtorEq] at h
    exact .clear hpc h.symm
  | cleared =>
    cases a <;> simp only [hpc, Option.some.injEq, reduceCtorEq] at h
    exact .finishCommit hpc h.symm

/-! ## Sleepers can be woken -/

variable {q : P}

theorem step_finishCommit (hn : s.panic = none) (hq : s.pc q = .cleared) : step s q .finishCommit = some { s with
      log := { s.log with committing := false }
      pc := update (wakeup s.pc) q .idle } := by
  simp [step, hn, hq]

theorem step_clear (hn : s.panic = none) (hq : s.pc q = .commit) : step s q .clear = some { s with
      log := { s.log with block := [] }
      pc := update s.pc q .cleared } := by
  simp [step, hn, hq]

variable {ws : Finset Nat}

theorem step_startCommit (hn : s.panic = none)
    (hq : s.pc q = .inOp ws) (hc : s.log.committing = false) (ho : s.log.outstanding = 1) :
    step s q .finishOp = some { s with
      log := { s.log with outstanding := 0, committing := true }
      pc := update s.pc q .commit } := by
  simp [step, endOp, hn, hq, hc, ho]

theorem step_finishOp (hn : s.panic = none)
    (hq : s.pc q = .inOp ws) (hc : s.log.committing = false) (ho : s.log.outstanding ≠ 1) :
    step s q .finishOp = some { s with
      log := { s.log with outstanding := s.log.outstanding - 1 }
      pc := update (wakeup s.pc) q .idle } := by
  have ho' : s.log.outstanding - 1 ≠ 0 := by omega
  simp [step, endOp, hn, hq, hc, ho']

theorem wake_ne_sleeping (pc : Pc) : pc.wake ≠ .sleeping := by
  cases pc <;> simp [Pc.wake]

theorem update_wakeup_ne_sleeping (pc : P → Pc) (q p : P) : update (wakeup pc) q .idle p ≠ .sleeping := by
  by_cases hp : p = q
  · subst hp
    simp
  · rw [update_of_ne hp]
    exact wake_ne_sleeping (pc p)

/-- Process `q` alone can go on until process `p` is awake. -/
def WokenBy (s : Sys P) (q p : P) : Prop :=
  ∃ ls t, (∀ l ∈ ls, l.1 = q) ∧ Run Step s ls t ∧ t.pc p ≠ .sleeping

theorem wokenBy_cons {t : Sys P} {a : Act} (hs : step s q a = some t) (h : WokenBy t q p) : WokenBy s q p := by
  obtain ⟨ls, u, hq, hrun, hp⟩ := h
  refine ⟨[(q, a)] ++ ls, u, ?_, Run.append (@Run.single _ _ Step _ _ _ hs) hrun, hp⟩
  intro l hl
  rcases List.mem_append.1 hl with hl | hl
  · rw [List.mem_singleton.1 hl]
  · exact hq l hl

theorem wokenBy_of_cleared (hn : s.panic = none) (hq : s.pc q = .cleared) : WokenBy s q p :=
  wokenBy_cons (step_finishCommit hn hq)
    ⟨[], _, by simp, Run.nil _, update_wakeup_ne_sleeping s.pc q p⟩

theorem wokenBy_of_commit (hn : s.panic = none) (hq : s.pc q = .commit) : WokenBy s q p :=
  wokenBy_cons (step_clear hn hq) (wokenBy_of_cleared hn (update_self _ _ _))

theorem wokenBy_of_inOp (hn : s.panic = none)
    (hq : s.pc q = .inOp ws) (hc : s.log.committing = false) : WokenBy s q p := by
  by_cases ho : s.log.outstanding = 1
  · -- the last operation: its process commits before it wakes anybody
    exact wokenBy_cons (step_startCommit hn hq hc ho) (wokenBy_of_commit hn (update_self _ _ _))
  · exact wokenBy_cons (step_finishOp hn hq hc ho) ⟨[], _, by simp, Run.nil _, update_wakeup_ne_sleeping s.pc q p⟩

end Xv6.Logging
