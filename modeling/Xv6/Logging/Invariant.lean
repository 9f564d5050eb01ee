import Xv6.Logging.Transaction

/-!
# Invariants of the log's transaction state machine

`Inv` ties the counter `log.outstanding` and the flag `log.committing` to where the processes
stand, and `LocalOk` says what a process's place implies about the log: the blocks of a running
operation are in the header, and a sleeping process has a reason to sleep. Both hold in every
reachable state (`log_transaction_invariant`): transactions do not mix, and a process asleep in
`begin_op` can always be woken by steps of one other process.
-/

set_option autoImplicit false

namespace Xv6.Logging

open Function Xv6.Base

universe u

variable {P : Type u}

/-- Weight of a process for `log.outstanding`: one inside an operation. -/
def Pc.active : Pc → Nat
  | .inOp _ => 1
  | _ => 0

/-- Weight of a process for `log.committing`: one inside a commit. -/
def Pc.committer : Pc → Nat
  | .commit => 1
  | .cleared => 1
  | _ => 0

/-- The condition under which `begin_op` sleeps. -/
def Log.Closed (lg : Log) : Prop :=
  lg.committing = true ∨ (lg.n : Int) + (lg.outstanding + 1) * MAXOPBLOCKS > LOGSIZE

/-- What the place of a process implies about the log. -/
def LocalOk (lg : Log) : Pc → Prop
  | .inOp ws => ∀ b ∈ ws, b ∈ lg.block
  | .sleeping => lg.Closed
  | .cleared => lg.block = []
  | _ => True

variable {lg : Log} {p : P} {pc : P → Pc}

theorem localOk_update [DecidableEq P] {x : Pc} (hx : LocalOk lg x)
    (h : ∀ q, LocalOk lg (pc q)) (q : P) : LocalOk lg (update pc p x q) := by
  by_cases hq : q = p
  · subst hq
    rw [update_self]
    exact hx
  · rw [update_of_ne hq]
    exact h q

variable [Fintype P]

/-- The invariant of the transaction state machine. -/
structure Inv (lg : Log) (pc : P → Pc) : Prop where
  outstanding : lg.outstanding = total Pc.active pc
  committing : total Pc.committer pc = if lg.committing then 1 else 0
  exclusive : lg.committing = true → lg.outstanding = 0
  empty : lg.committing = false → lg.outstanding = 0 → lg.block = []
  nodup : lg.block.Nodup
  ok : ∀ p, LocalOk lg (pc p)

theorem wake_active (pc : Pc) : pc.wake.active = pc.active := by
  cases pc <;> rfl

theorem wake_committer (pc : Pc) : pc.wake.committer = pc.committer := by
  cases pc <;> rfl

theorem total_active_wakeup (pc : P → Pc) : total Pc.active (wakeup pc) = total Pc.active pc :=
  total_congr fun p => wake_active (pc p)

theorem total_committer_wakeup (pc : P → Pc) : total Pc.committer (wakeup pc) = total Pc.committer pc :=
  total_congr fun p => wake_committer (pc p)

variable {lg' : Log}

/-- Waking a process leaves it without a reason to sleep; nothing else depends on the counters. -/
theorem localOk_wake {pc : Pc} (h : LocalOk lg pc) (hb : lg'.block = lg.block) : LocalOk lg' pc.wake := by
  cases pc with
  | inOp ws =>
    intro b hmem
    rw [hb]
    exact h b hmem
  | cleared => exact hb.trans h
  | idle | trying | sleeping | commit => trivial

/-- A header that grew and counters that keep the log closed keep `LocalOk`. -/
theorem localOk_mono {pc : Pc} (h : LocalOk lg pc) (hne : pc ≠ .cleared)
    (hsub : ∀ b ∈ lg.block, b ∈ lg'.block) (hcl : lg.Closed → lg'.Closed) : LocalOk lg' pc := by
  cases pc with
  | inOp ws => exact fun b hb => hsub b (h b hb)
  | sleeping => exact hcl h
  | cleared => exact absurd rfl hne
  | idle | trying | commit => trivial

/-- A running operation is counted, so no commit is in progress. -/
theorem Inv.not_committing {lg : Log} {pc : P → Pc} (h : Inv lg pc) {p : P} {ws : Finset Nat}
    (hp : pc p = .inOp ws) : lg.committing = false := by
  have hle := le_total Pc.active pc p
  rw [hp] at hle
  simp only [Pc.active] at hle
  cases hc : lg.committing with
  | false => rfl
  | true =>
    have h0 := h.exclusive hc
    rw [h.outstanding] at h0
    omega

/-- A process inside a commit finds the flag set. -/
theorem Inv.committing_of_pos (h : Inv lg pc) (hp : 0 < (pc p).committer) : lg.committing = true := by
  have hle := le_total Pc.committer pc p
  rw [h.committing] at hle
  by_contra hc
  rw [if_neg hc] at hle
  omega

/-- With no commit in progress no process stands inside one. -/
theorem Inv.ne_cleared (h : Inv lg pc) (hc : lg.committing = false) (p : P) : pc p ≠ .cleared := by
  intro hp
  have := h.committing_of_pos (p := p) (by rw [hp]; exact Nat.one_pos)
  rw [hc] at this
  cases this

/-- During a commit no process is inside an operation. -/
theorem Inv.not_inOp (h : Inv lg pc) (hc : lg.committing = true) (q : P) (ws : Finset Nat) : pc q ≠ .inOp ws := by
  intro hq
  have := h.not_committing hq
  rw [hc] at this
  cases this

theorem logWrite_ok {b : Nat} (h : logWrite lg b = .ok lg') :
    lg' = { lg with block := if b ∈ lg.block then lg.block else lg.block ++ [b] } := by
  unfold logWrite at h
  split_ifs at h with h1 h2 h3
  · rw [if_pos h3]
    simpa using h.symm
  · rw [if_neg h3]
    simpa using h.symm

theorem init_inv (start size : Nat) : Inv (Sys.init P start size).log (Sys.init P start size).pc where
  outstanding := by simp [Sys.init, total, Pc.active]
  committing := by simp [Sys.init, total, Pc.committer]
  exclusive := fun h => by simp [Sys.init] at h
  empty := fun _ _ => rfl
  nodup := List.nodup_nil
  ok := fun _ => trivial

section Step

variable [DecidableEq P]

/-- A move of one process that no counter sees. -/
theorem move_inv (h : Inv lg pc) {x : Pc}
    (ha : x.active = (pc p).active) (hc : x.committer = (pc p).committer) (hx : LocalOk lg x) :
    Inv lg (update pc p x) := by
  have hta := total_update Pc.active pc p x
  have htc := total_update Pc.committer pc p x
  refine ⟨?_, ?_, h.exclusive, h.empty, h.nodup, ?_⟩
  · rw [h.outstanding]
    omega
  · rw [← h.committing]
    omega
  · exact localOk_update hx h.ok

theorem enter_inv (h : Inv lg pc) (hp : pc p = .trying) (hc : lg.committing = false) :
    Inv { lg with outstanding := lg.outstanding + 1 } (update pc p (.inOp ∅)) := by
  have hta := total_update Pc.active pc p (.inOp ∅)
  have htc := total_update Pc.committer pc p (.inOp ∅)
  rw [hp] at hta htc
  simp only [Pc.active, Pc.committer, Nat.add_zero] at hta htc
  refine ⟨?_, ?_, ?_, ?_, h.nodup, ?_⟩
  · rw [hta]
    push_cast
    rw [← h.outstanding]
  · rw [htc]
    exact h.committing
  · intro hcom
    rw [hc] at hcom
    cases hcom
  · intro _ h0
    -- the operation just admitted is counted
    have hpos : (0 : Int) ≤ lg.outstanding := by rw [h.outstanding]; omega
    change lg.outstanding + 1 = 0 at h0
    omega
  · refine localOk_update (fun b hb => by simp at hb) fun q => ?_
    refine localOk_mono (h.ok q) (h.ne_cleared hc q) (fun _ hb => hb) ?_
    -- a reservation more only closes the log further
    rintro (hcom | hfull)
    · exact .inl hcom
    · refine .inr ?_
      simp only [Log.n, MAXOPBLOCKS] at hfull ⊢
      omega

theorem write_inv {lg lg' : Log} {pc : P → Pc} (h : Inv lg pc) {p : P} {ws : Finset Nat} {b : Nat}
    (hp : pc p = .inOp ws) (hw : logWrite lg b = .ok lg') : Inv lg' (update pc p (.inOp (insert b ws))) := by
  have hnc := h.not_committing hp
  have hta := total_update Pc.active pc p (.inOp (insert b ws))
  have htc := total_update Pc.committer pc p (.inOp (insert b ws))
  rw [hp] at hta htc
  simp only [Pc.active, Pc.committer, Nat.add_zero, Nat.add_right_cancel_iff] at hta htc
  obtain ⟨blk, rfl, hmem, hsub, hnd⟩ : ∃ blk, lg' = { lg with block := blk } ∧ b ∈ blk ∧
      (∀ c ∈ lg.block, c ∈ blk) ∧ blk.Nodup := by
    by_cases hb : b ∈ lg.block
    · exact ⟨lg.block, by rw [logWrite_ok hw, if_pos hb], hb, fun _ hc => hc, h.nodup⟩
    · exact ⟨lg.block ++ [b], by rw [logWrite_ok hw, if_neg hb], by simp,
        fun _ hc => List.mem_append_left _ hc, by simpa using h.nodup.concat hb⟩
  have hlen : lg.block.length ≤ blk.length :=
    (List.subperm_of_subset h.nodup hsub).length_le
  refine ⟨?_, ?_, h.exclusive, ?_, hnd, ?_⟩
  · rw [hta]
    exact h.outstanding
  · rw [htc]
    exact h.committing
  · intro _ h0
    -- the writing operation itself is outstanding
    have hle := le_total Pc.active pc p
    rw [hp] at hle
    simp only [Pc.active] at hle
    rw [h.outstanding] at h0
    omega
  · refine localOk_update ?_ fun q => ?_
    · intro c hc
      rcases Finset.mem_insert.1 hc with rfl | hc
      · exact hmem
      · have hok := h.ok p
        rw [hp] at hok
        exact hsub c (hok c hc)
    · refine localOk_mono (h.ok q) (h.ne_cleared hnc q) hsub ?_
      rintro (hcom | hfull)
      · exact .inl hcom
      · refine .inr ?_
        simp only [Log.n] at hfull ⊢
        omega

theorem finishOp_inv {lg : Log} {pc : P → Pc} (h : Inv lg pc) {p : P} {ws : Finset Nat}
    (hp : pc p = .inOp ws) (hone : lg.outstanding ≠ 1) :
    Inv { lg with outstanding := lg.outstanding - 1 } (update (wakeup pc) p .idle) := by
  have hnc := h.not_committing hp
  have hta := total_update Pc.active (wakeup pc) p .idle
  have htc := total_update Pc.committer (wakeup pc) p .idle
  have hwp : wakeup pc p = .inOp ws := by simp [wakeup, hp, Pc.wake]
  rw [hwp, total_active_wakeup] at hta
  rw [hwp, total_committer_wakeup] at htc
  simp only [Pc.active, Pc.committer, Nat.add_zero] at hta htc
  have hout := h.outstanding
  refine ⟨?_, ?_, ?_, ?_, h.nodup, ?_⟩
  · show lg.outstanding - 1 = _
    omega
  · rw [htc]
    exact h.committing
  · intro hcom
    rw [hnc] at hcom
    cases hcom
  · intro _ h0
    change lg.outstanding - 1 = 0 at h0
    omega
  · exact localOk_update trivial fun q => localOk_wake (h.ok q) rfl

theorem startCommit_inv {lg : Log} {pc : P → Pc} (h : Inv lg pc) {p : P} {ws : Finset Nat}
    (hp : pc p = .inOp ws) (hone : lg.outstanding = 1) :
    Inv { lg with outstanding := 0, committing := true } (update pc p .commit) := by
  have hnc := h.not_committing hp
  have hta := total_update Pc.active pc p .commit
  have htc := total_update Pc.committer pc p .commit
  have hcom := h.committing
  rw [hp] at hta htc
  rw [hnc] at hcom
  simp only [Pc.active, Pc.committer, Nat.add_zero, Bool.false_eq_true, if_false] at hta htc hcom
  have hout := h.outstanding
  refine ⟨?_, ?_, fun _ => rfl, (fun hc => by cases hc), h.nodup, ?_⟩
  · show (0 : Int) = _
    omega
  · rw [htc, hcom]
    rfl
  · exact localOk_update trivial fun q =>
      localOk_mono (h.ok q) (h.ne_cleared hnc q) (fun _ hb => hb) fun _ => .inl rfl

theorem clear_inv (h : Inv lg pc) (hp : pc p = .commit) : Inv { lg with block := [] } (update pc p .cleared) := by
  have hcom := h.committing_of_pos (p := p) (by rw [hp]; exact Nat.one_pos)
  have hta := total_update Pc.active pc p .cleared
  have htc := total_update Pc.committer pc p .cleared
  rw [hp] at hta htc
  simp only [Pc.active, Pc.committer, Nat.add_zero, Nat.add_right_cancel_iff] at hta htc
  refine ⟨?_, ?_, h.exclusive, fun _ _ => rfl, List.nodup_nil, ?_⟩
  · rw [hta]
    exact h.outstanding
  · rw [htc]
    exact h.committing
  · refine localOk_update rfl fun q => ?_
    cases hq : pc q with
    | inOp ws => exact absurd hq (h.not_inOp hcom q ws)
    | sleeping => exact .inl hcom
    | cleared => rfl
    | idle | trying | commit => trivial

theorem finishCommit_inv (h : Inv lg pc) (hp : pc p = .cleared) :
    Inv { lg with committing := false } (update (wakeup pc) p .idle) := by
  have hcom := h.committing_of_pos (p := p) (by rw [hp]; exact Nat.one_pos)
  have hempty : lg.block = [] := by
    have hok := h.ok p
    rwa [hp] at hok
  have hta := total_update Pc.active (wakeup pc) p .idle
  have htc := total_update Pc.committer (wakeup pc) p .idle
  have hwp : wakeup pc p = .cleared := by simp [wakeup, hp, Pc.wake]
  rw [hwp, total_active_wakeup] at hta
  rw [hwp, total_committer_wakeup, h.committing, if_pos hcom] at htc
  simp only [Pc.active, Pc.committer, Nat.add_zero] at hta htc
  refine ⟨?_, ?_, (fun hc => by cases hc), fun _ _ => hempty, h.nodup, ?_⟩
  · rw [hta]
    exact h.outstanding
  · show total Pc.committer _ = 0
    omega
  · exact localOk_update trivial fun q => localOk_wake (h.ok q) rfl

/-- Every step keeps the invariant, and none panics because of a commit in progress. -/
theorem step_inv {s t : Sys P} {a : Act} (h : Inv s.log s.pc) (hs : step s p a = some t) :
    Inv t.log t.pc ∧ t.panic ≠ some .committing := by
  obtain ⟨hpanic, hcase⟩ := step_cases hs
  cases hcase with
  | call hp ht | kill hp ht =>
    subst ht
    exact ⟨move_inv h (by rw [hp]; rfl) (by rw [hp]; rfl) trivial, by simp [hpanic]⟩
  | sleep hp hcl ht =>
    subst ht
    exact ⟨move_inv h (by rw [hp]; rfl) (by rw [hp]; rfl) hcl, by simp [hpanic]⟩
  | enter hp hc _ ht =>
    subst ht
    exact ⟨enter_inv h hp hc, by simp [hpanic]⟩
  | write hp hw ht =>
    subst ht
    exact ⟨write_inv h hp hw, by simp [hpanic]⟩
  | writePanic hp hw ht =>
    subst ht
    refine ⟨h, ?_⟩
    rintro ⟨⟩
    unfold logWrite at hw
    split_ifs at hw <;> simp at hw
  | finishOp hp _ ho ht =>
    subst ht
    exact ⟨finishOp_inv h hp ho, by simp [hpanic]⟩
  | startCommit hp _ ho ht =>
    subst ht
    exact ⟨startCommit_inv h hp ho, by simp [hpanic]⟩
  | finishPanic hp hc ht =>
    have := h.not_committing hp
    rw [hc] at this
    cases this
  | clear hp ht =>
    subst ht
    exact ⟨clear_inv h hp, by simp [hpanic]⟩
  | finishCommit hp ht =>
    subst ht
    exact ⟨finishCommit_inv h hp, by simp [hpanic]⟩

/-- The invariant holds in every state reached from `initlog`. -/
theorem run_inv {start size : Nat} {ls : List (P × Act)} {t : Sys P} (h : Run Step (Sys.init P start size) ls t) :
    Inv t.log t.pc ∧ t.panic ≠ some .committing := by
  refine h.invariant (P := fun _ t => Inv t.log t.pc ∧ t.panic ≠ some .committing) ?_ ?_
  · exact ⟨init_inv start size, by simp [Sys.init]⟩
  · intro _ t l u hi hs
    exact step_inv hi.1 hs

/-- A sleeping process has a process inside an operation or a commit that can go on and wake it. -/
theorem exists_waker {s : Sys P} (h : Inv s.log s.pc) (hn : s.panic = none) (hp : s.pc p = .sleeping) :
    ∃ q, (0 < (s.pc q).active ∨ 0 < (s.pc q).committer) ∧ WokenBy s q p := by
  have hok := h.ok p
  rw [hp] at hok
  by_cases hc : s.log.committing = true
  · have hpos : 0 < total Pc.committer s.pc := by
      rw [h.committing, if_pos hc]
      exact Nat.one_pos
    obtain ⟨q, hq⟩ := exists_pos_of_total_pos hpos
    refine ⟨q, .inr hq, ?_⟩
    cases hpc : s.pc q with
    | commit => exact wokenBy_of_commit hn hpc
    | cleared => exact wokenBy_of_cleared hn hpc
    | idle | trying | sleeping | inOp ws =>
      rw [hpc] at hq
      exact absurd hq (Nat.lt_irrefl 0)
  · have hc' : s.log.committing = false := by simpa using hc
    have hfull := hok.resolve_left hc
    -- an empty log without operations is not closed
    have hne : s.log.outstanding ≠ 0 := by
      intro h0
      have hb := h.empty hc' h0
      rw [Log.n, hb, h0] at hfull
      simp [MAXOPBLOCKS, LOGSIZE] at hfull
    have hpos : 0 < total Pc.active s.pc := by
      rw [h.outstanding] at hne
      omega
    obtain ⟨q, hq⟩ := exists_pos_of_total_pos hpos
    refine ⟨q, .inl hq, ?_⟩
    cases hpc : s.pc q with
    | inOp ws => exact wokenBy_of_inOp hn hpc hc'
    | idle | trying | sleeping | commit | cleared =>
      rw [hpc] at hq
      exact absurd hq (Nat.lt_irrefl 0)

/-- In every state reached by any interleaving of the sections of any number of processes:
a commit excludes running operations, so `panic("log.committing")` is not reached and no operation
is in a position to call `log_write` during a commit; without commit and operations the header is
empty; the header has no duplicates; a process sleeps only while the log is closed; and every
sleeping process has a running operation or commit whose own next steps wake it. -/
theorem log_transaction_invariant {start size : Nat} {ls : List (P × Act)} {t : Sys P}
    (h : Run Step (Sys.init P start size) ls t) :
    (t.log.committing = true → t.log.outstanding = 0) ∧
      t.panic ≠ some .committing ∧
      (∀ p ws, t.pc p = .inOp ws → t.log.committing = false) ∧
      (t.log.committing = false → t.log.outstanding = 0 → t.log.n = 0) ∧
      t.log.block.Nodup ∧
      (∀ p, t.pc p = .sleeping → t.log.committing = true ∨
        (t.log.n : Int) + (t.log.outstanding + 1) * MAXOPBLOCKS > LOGSIZE) ∧
      (t.panic = none → ∀ p, t.pc p = .sleeping →
        ∃ q, (0 < (t.pc q).active ∨ 0 < (t.pc q).committer) ∧ WokenBy t q p) := by
  obtain ⟨hinv, hpanic⟩ := run_inv h
  refine ⟨hinv.exclusive, hpanic, ?_, ?_, hinv.nodup, ?_, ?_⟩
  · intro p ws hp
    exact hinv.not_committing hp
  · intro hc h0
    rw [Log.n, hinv.empty hc h0]
    rfl
  · intro p hp
    have hok := hinv.ok p
    rw [hp] at hok
    exact hok
  · intro hn p hp
    exact exists_waker hinv hn hp

end Step

/-- Three operations fill the log's reservations and a fourth process goes to sleep. -/
theorem log_transaction_invariant_four :
    ∃ (ls : List (Fin 4 × Act)) (t : Sys (Fin 4)), Run Step (Sys.init (Fin 4) 2 30) ls t ∧
      t.pc 3 = .sleeping ∧
      ∃ q, (0 < (t.pc q).active ∨ 0 < (t.pc q).committer) ∧ WokenBy t q 3 := by
  have hrun : Run Step (Sys.init (Fin 4) 2 30) [(0, .call), (0, .attempt), (1, .call),
      (1, .attempt), (2, .call), (2, .attempt), (3, .call), (3, .attempt)] _ := run_of_exec rfl
  refine ⟨_, _, hrun, rfl, ?_⟩
  exact (log_transaction_invariant hrun).2.2.2.2.2.2 rfl 3 rfl

end Xv6.Logging
