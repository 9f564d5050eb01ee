import Xv6.Logging.Invariant

/-!
# Log admission

`begin_op` admits an operation when `lh.n + (outstanding + 1) * MAXOPBLOCKS <= LOGSIZE`. If every
operation logs at most `MAXOPBLOCKS` distinct blocks, the blocks in the header and the unused rest
of every running operation's quota together never exceed `LOGSIZE` (`Acct.room`). But `log_write`
tests `lh.n >= LOGSIZE || lh.n >= log.size - 1` before it looks for the block in the header, so it
panics on a repeated block when the log is exactly full, and one block early when
`log.size = LOGSIZE`. `log_write_panics_iff` says exactly which runs panic.
-/

set_option autoImplicit false
set_option linter.unusedSectionVars false

namespace Xv6.Logging

open Function Xv6.Base

universe u

variable {P : Type u} [DecidableEq P]

/-- Block numbers named by `log_write` in the current transaction, after the labels `ls`. -/
def named (ls : List (P × Act)) : Finset Nat :=
  ls.foldl (fun N l => match l.2 with
    | .write b => insert b N
    | .clear => ∅
    | _ => N) ∅

/-- Block numbers named by `log_write` in the current operation of process `p`. -/
def usedBy (p : P) (ls : List (P × Act)) : Finset Nat :=
  ls.foldl (fun N l => if l.1 = p then match l.2 with
    | .write b => insert b N
    | .attempt => ∅
    | _ => N
    else N) ∅

/-- An operation stays within its quota: a `log_write` names at most `MAXOPBLOCKS` distinct blocks,
counting the one it is called on. -/
def WithinQuota (s : Sys P) (l : P × Act) : Prop :=
  ∀ b ws, l.2 = .write b → s.pc l.1 = .inOp ws → (insert b ws).card ≤ MAXOPBLOCKS

/-- Steps of processes whose operations stay within their quota. -/
def QuotaStep (s : Sys P) (l : P × Act) (t : Sys P) : Prop := Step s l t ∧ WithinQuota s l

/-- There is room for the call `l` after the calls `ms`: it is no `log_write`; or the log is larger
than `LOGSIZE` and the calling operation has not used up its quota; or the transaction so far
names fewer blocks than both `LOGSIZE` and the number of data blocks of the log. -/
def Room (size : Nat) (ms : List (P × Act)) : P × Act → Prop
  | (p, .write _) => (LOGSIZE < size ∧ (usedBy p ms).card < MAXOPBLOCKS) ∨
      (named ms).card < min LOGSIZE (size - 1)
  | _ => True

theorem named_snoc (ls : List (P × Act)) (p : P) (a : Act) : named (ls ++ [(p, a)]) = match a with
      | .write b => insert b (named ls) | .clear => ∅ | _ => named ls := by
  simp [named, List.foldl_append]

theorem usedBy_snoc_self (ls : List (P × Act)) (p : P) (a : Act) : usedBy p (ls ++ [(p, a)]) = match a with
      | .write b => insert b (usedBy p ls) | .attempt => ∅ | _ => usedBy p ls := by
  simp [usedBy, List.foldl_append]

variable {p : P}

theorem usedBy_snoc_ne (ls : List (P × Act)) {q : P} (h : q ≠ p) (a : Act) :
    usedBy p (ls ++ [(q, a)]) = usedBy p ls := by
  simp [usedBy, List.foldl_append, h]

/-- The unused rest of a running operation's quota. -/
def Pc.reserve : Pc → Nat
  | .inOp ws => MAXOPBLOCKS - ws.card
  | _ => 0

theorem wake_reserve (pc : Pc) : pc.wake.reserve = pc.reserve := by
  cases pc <;> rfl

theorem reserve_le_active (pc : Pc) : pc.reserve ≤ MAXOPBLOCKS * pc.active := by
  cases pc with
  | inOp ws =>
    show MAXOPBLOCKS - ws.card ≤ MAXOPBLOCKS * 1
    omega
  | idle | trying | sleeping | commit | cleared => exact Nat.zero_le _

/-- The quota the labels give a running operation is the one its process carries. -/
def UsedOk (ls : List (P × Act)) (p : P) : Pc → Prop
  | .inOp ws => ws = usedBy p ls ∧ ws.card ≤ MAXOPBLOCKS
  | _ => True

variable [Fintype P]

/-- Accounting of the log's space after the labels `ls`. -/
structure Acct (size : Nat) (ls : List (P × Act)) (lg : Log) (pc : P → Pc) : Prop where
  inv : Inv lg pc
  size_eq : lg.size = size
  used : ∀ p, UsedOk ls p (pc p)
  named_eq : lg.block.toFinset = named ls
  room : lg.n + total Pc.reserve pc ≤ LOGSIZE

theorem total_reserve_wakeup (pc : P → Pc) : total Pc.reserve (wakeup pc) = total Pc.reserve pc :=
  total_congr fun p => wake_reserve (pc p)

theorem total_reserve_le (pc : P → Pc) : total Pc.reserve pc ≤ MAXOPBLOCKS * total Pc.active pc := by
  calc total Pc.reserve pc ≤ ∑ p, MAXOPBLOCKS * (pc p).active :=
        Finset.sum_le_sum fun p _ => reserve_le_active (pc p)
    _ = MAXOPBLOCKS * total Pc.active pc := (Finset.mul_sum ..).symm

variable {ls : List (P × Act)} {lg : Log} {size : Nat} {pc : P → Pc}

/-- The header has no duplicates, so its length counts the blocks named. -/
theorem Acct.n_eq (h : Acct size ls lg pc) : lg.n = (named ls).card := by
  rw [← h.named_eq, List.toFinset_card_of_nodup h.inv.nodup, Log.n]

theorem init_acct (start size : Nat) : Acct size [] (Sys.init P start size).log (Sys.init P start size).pc where
  inv := init_inv start size
  size_eq := rfl
  used := fun _ => trivial
  named_eq := rfl
  room := by simp [Sys.init, total, Pc.reserve, Log.n]

variable {x : Pc}

/-- The other processes' quotas are not touched by a label of process `p`. -/
theorem used_update {pc' : P → Pc} {a : Act}
    (h : ∀ q, UsedOk ls q (pc q)) (hpc : ∀ q, UsedOk ls q (pc q) → UsedOk ls q (pc' q))
    (hx : UsedOk (ls ++ [(p, a)]) p x) (q : P) : UsedOk (ls ++ [(p, a)]) q (update pc' p x q) := by
  by_cases hq : q = p
  · subst hq
    rw [update_self]
    exact hx
  · rw [update_of_ne hq]
    have hok := hpc q (h q)
    cases hpq : pc' q with
    | inOp ws =>
      rw [hpq] at hok
      refine ⟨?_, hok.2⟩
      rw [usedBy_snoc_ne ls (fun e => hq e.symm) a]
      exact hok.1
    | idle | trying | sleeping | commit | cleared => trivial

theorem usedOk_wake (q : P) (h : UsedOk ls q (pc q)) : UsedOk ls q (wakeup pc q) := by
  unfold wakeup
  cases hpc : pc q with
  | inOp ws =>
    rw [hpc] at h
    exact h
  | idle | trying | sleeping | commit | cleared => trivial

/-! ## The accounting along a run -/

/-- A label of process `p` that names no block leaves what was named and used. -/
theorem usedOk_of_not_inOp (h : x.active = 0) : UsedOk ls p x := by
  cases x with
  | inOp ws => exact absurd h Nat.one_ne_zero
  | idle | trying | sleeping | commit | cleared => trivial

theorem reserve_of_not_inOp (h : x.active = 0) : x.reserve = 0 := by
  cases x with
  | inOp ws => exact absurd h Nat.one_ne_zero
  | idle | trying | sleeping | commit | cleared => rfl

section

variable (h : Acct size ls lg pc)
include h

/-- A move of `p` out of `begin_op`, an operation or a commit frees its reservation. -/
theorem leave_acct {lg' : Log} {pc' : P → Pc} {a : Act} (hinv : Inv lg' (update pc' p x)) (hsize : lg'.size = lg.size)
    (hblock : lg'.block = lg.block) (hnamed : named (ls ++ [(p, a)]) = named ls)
    (hx : x.active = 0) (hused : ∀ q, UsedOk ls q (pc q) → UsedOk ls q (pc' q))
    (hres : total Pc.reserve pc' = total Pc.reserve pc) : Acct size (ls ++ [(p, a)]) lg' (update pc' p x) := by
  have ht := total_update Pc.reserve pc' p x
  rw [reserve_of_not_inOp hx] at ht
  refine ⟨hinv, hsize.trans h.size_eq, used_update h.used hused (usedOk_of_not_inOp hx), ?_, ?_⟩
  · rw [hblock, hnamed]
    exact h.named_eq
  · have hroom := h.room
    have hn : lg'.n = lg.n := by rw [Log.n, Log.n, hblock]
    omega

theorem enter_acct (hp : pc p = .trying) (hc : lg.committing = false)
    (hfit : (lg.n : Int) + (lg.outstanding + 1) * MAXOPBLOCKS ≤ LOGSIZE) :
    Acct size (ls ++ [(p, .attempt)]) { lg with outstanding := lg.outstanding + 1 }
      (update pc p (.inOp ∅)) := by
  refine ⟨enter_inv h.inv hp hc, h.size_eq, ?_, ?_, ?_⟩
  · refine used_update h.used (fun _ hq => hq) ⟨?_, by simp⟩
    rw [usedBy_snoc_self]
  · rw [named_snoc]
    exact h.named_eq
  · -- every running operation has reserved at most `MAXOPBLOCKS`
    have ht := total_update Pc.reserve pc p (.inOp ∅)
    have hle := total_reserve_le pc
    have hout := h.inv.outstanding
    rw [hp] at ht
    simp only [Pc.reserve, Finset.card_empty, MAXOPBLOCKS, LOGSIZE, Log.n] at ht hle hfit ⊢
    omega

theorem write_acct {lg' : Log} {ws : Finset Nat} {b : Nat} (hp : pc p = .inOp ws)
    (hw : logWrite lg b = .ok lg') (hq : (insert b ws).card ≤ MAXOPBLOCKS) :
    Acct size (ls ++ [(p, .write b)]) lg' (update pc p (.inOp (insert b ws))) := by
  have hinv := write_inv h.inv hp hw
  have hws := h.used p
  have hsub := h.inv.ok p
  have ht := total_update Pc.reserve pc p (.inOp (insert b ws))
  rw [hp] at hws hsub ht
  simp only [Pc.reserve] at ht
  have hlg := logWrite_ok hw
  have hroom := h.room
  refine ⟨hinv, ?_, ?_, ?_, ?_⟩
  · rw [hlg]
    exact h.size_eq
  · refine used_update h.used (fun _ hq => hq) ⟨?_, hq⟩
    rw [usedBy_snoc_self, hws.1]
  · rw [named_snoc, hlg, ← h.named_eq]
    by_cases hb : b ∈ lg.block
    · simp [hb]
    · simp [hb]
  · by_cases hb : b ∈ lg.block
    · -- absorbed: the header keeps its length, the reservation does not grow
      have hcard : ws.card ≤ (insert b ws).card := Finset.card_le_card (Finset.subset_insert b ws)
      have hn : lg'.n = lg.n := by rw [hlg, Log.n, if_pos hb, Log.n]
      omega
    · -- a new block: it was not yet in the operation's own set
      have hbw : b ∉ ws := fun hmem => hb (hsub b hmem)
      have hn : lg'.n = lg.n + 1 := by simp [hlg, Log.n, hb]
      rw [Finset.card_insert_of_notMem hbw] at ht hq
      omega

theorem clear_acct (hp : pc p = .commit) :
    Acct size (ls ++ [(p, .clear)]) { lg with block := [] } (update pc p .cleared) := by
  have ht := total_update Pc.reserve pc p .cleared
  have hroom := h.room
  rw [hp] at ht
  simp only [Pc.reserve] at ht
  refine ⟨clear_inv h.inv hp, h.size_eq, ?_, ?_, ?_⟩
  · exact used_update h.used (fun _ hq => hq) trivial
  · rw [named_snoc]
    rfl
  · show 0 + total Pc.reserve (update pc p .cleared) ≤ LOGSIZE
    omega

end

/-- Every step within the quotas either keeps the accounting or panics. -/
theorem step_acct {size : Nat} {ls : List (P × Act)} {s t : Sys P} {l : P × Act}
    (h : Acct size ls s.log s.pc) (hs : QuotaStep s l t) : t.panic = none → Acct size (ls ++ [l]) t.log t.pc := by
  obtain ⟨p, a⟩ := l
  obtain ⟨hstep, hquota⟩ := hs
  intro hn
  have hinv := (step_inv h.inv hstep).1
  obtain ⟨-, hcase⟩ := step_cases hstep
  cases hcase with
  | call hp ht =>
    subst ht
    exact leave_acct h hinv rfl rfl (named_snoc ls p .call) rfl (fun _ hq => hq) rfl
  | sleep hp _ ht =>
    subst ht
    exact leave_acct h hinv rfl rfl (named_snoc ls p .attempt) rfl (fun _ hq => hq) rfl
  | enter hp hc hfit ht =>
    subst ht
    exact enter_acct h hp hc hfit
  | write hp hw ht =>
    subst ht
    exact write_acct h hp hw (hquota _ _ rfl hp)
  | writePanic hp _ ht | finishPanic hp _ ht =>
    subst ht
    cases hn
  | finishOp hp _ _ ht =>
    subst ht
    exact leave_acct h hinv rfl rfl (named_snoc ls p .finishOp) rfl usedOk_wake (total_reserve_wakeup s.pc)
  | startCommit hp _ _ ht =>
    subst ht
    exact leave_acct h hinv rfl rfl (named_snoc ls p .finishOp) rfl (fun _ hq => hq) rfl
  | clear hp ht =>
    subst ht
    exact clear_acct h hp
  | finishCommit hp ht =>
    subst ht
    exact leave_acct h hinv rfl rfl (named_snoc ls p .finishCommit) rfl usedOk_wake (total_reserve_wakeup s.pc)
  | kill hp ht =>
    subst ht
    exact leave_acct h hinv rfl rfl (named_snoc ls p .kill) rfl (fun _ hq => hq) rfl

/-- The accounting holds along every run within the quotas that has not panicked. -/
theorem run_acct {start size : Nat} {ls : List (P × Act)} {t : Sys P} (h : Run QuotaStep (Sys.init P start size) ls t) :
    t.panic = none → Acct size ls t.log t.pc := by
  refine h.invariant (P := fun ls t => t.panic = none → Acct size ls t.log t.pc) ?_ ?_
  · exact fun _ => init_acct start size
  · intro ls t l u ih hs
    exact step_acct (ih (step_cases hs.1).1) hs

/-! ## Which runs panic -/

theorem logWrite_eq_tooBig_iff (lg : Log) (b : Nat) : logWrite lg b = .error .tooBig ↔
      lg.n ≥ LOGSIZE ∨ (lg.n : Int) ≥ (lg.size : Int) - 1 := by
  unfold logWrite
  constructor
  · intro h
    split_ifs at h with h1 h2 h3
    · exact h1
    · simp at h
  · intro h
    rw [if_pos h]

/-- With the accounting, a `log_write` within the quota panics exactly when there is no room. -/
theorem Acct.tooBig_iff (h : Acct size ls lg pc) (hsize : LOGSIZE ≤ size) {ws : Finset Nat} {b : Nat}
    (hp : pc p = .inOp ws) : logWrite lg b = .error .tooBig ↔ ¬ Room size ls (p, .write b) := by
  have hn := h.n_eq
  have hsz := h.size_eq
  have hused := h.used p
  have hle := le_total Pc.reserve pc p
  have hroom := h.room
  rw [hp] at hused hle
  simp only [Pc.reserve] at hle
  rw [logWrite_eq_tooBig_iff, Room, ← hused.1, ← hn]
  omega

/-- Nothing follows a panic. -/
theorem run_of_panic {s t : Sys P} {ls : List (P × Act)} (hn : s.panic ≠ none) (h : Run QuotaStep s ls t) : t = s := by
  induction h with
  | nil => rfl
  | snoc _ hs ih =>
    subst ih
    exact absurd (step_cases hs.1).1 hn

/-- For every log size from `LOGSIZE` on and every run whose operations each name at most
`MAXOPBLOCKS` distinct blocks, `panic("too big a transaction")` is avoided if and only if there was
room at every `log_write`. -/
theorem log_write_panics_iff {start size : Nat} (hsize : LOGSIZE ≤ size) {ls : List (P × Act)}
    {t : Sys P} (h : Run QuotaStep (Sys.init P start size) ls t) :
    t.panic ≠ some .tooBig ↔ ∀ ms l, ms ++ [l] <+: ls → Room size ms l := by
  constructor
  · rintro hpanic ms ⟨p, a⟩ ⟨rest, hrest⟩
    rw [← hrest] at h
    obtain ⟨u, hpre, hpost⟩ := h.split
    obtain ⟨s, hms, hone⟩ := hpre.split
    have hstep := hone.of_single
    obtain ⟨hn, hcase⟩ := step_cases hstep.1
    have hacct := run_acct hms hn
    cases hcase with
    | write hp hw ht =>
      by_contra hroom
      rw [(hacct.tooBig_iff hsize hp).2 hroom] at hw
      cases hw
    | writePanic hp hw ht =>
      by_contra hroom
      have hbig := (hacct.tooBig_iff hsize hp).2 hroom
      have hu : u.panic = some .tooBig := by
        rw [hbig] at hw
        cases hw
        rw [ht]
      have : t = u := run_of_panic (by rw [hu]; simp) hpost
      exact hpanic (by rw [this, hu])
    | call _ _ | sleep _ _ _ | enter _ _ _ _ | finishOp _ _ _ _ | startCommit _ _ _ _
    | finishPanic _ _ _ | clear _ _ | finishCommit _ _ | kill _ _ => trivial
  · intro hroom hpanic
    cases h with
    | nil => simp [Sys.init] at hpanic
    | @snoc s _ ls' l hrun hs =>
      obtain ⟨p, a⟩ := l
      have hlast := hroom ls' (p, a) (List.prefix_refl _)
      obtain ⟨hn, hcase⟩ := step_cases hs.1
      have hacct := run_acct hrun hn
      cases hcase with
      | writePanic hp hw ht =>
        rw [ht] at hpanic
        cases hpanic
        exact (hacct.tooBig_iff hsize hp).1 hw hlast
      | finishPanic _ _ ht =>
        rw [ht] at hpanic
        cases hpanic
      | call _ ht | sleep _ _ ht | enter _ _ _ ht | write _ _ ht | finishOp _ _ _ ht
      | startCommit _ _ _ ht | clear _ ht | finishCommit _ ht | kill _ ht =>
        have he : t.panic = s.panic := by rw [ht]
        rw [he, hn] at hpanic
        cases hpanic

/-! ## A run that panics -/

/-- Decides `WithinQuota`. -/
def quotaOk (s : Sys P) (l : P × Act) : Bool :=
  match l.2, s.pc l.1 with
  | .write b, .inOp ws => decide ((insert b ws).card ≤ MAXOPBLOCKS)
  | _, _ => true

theorem withinQuota_of_quotaOk {s : Sys P} {l : P × Act} (h : quotaOk s l = true) : WithinQuota s l := by
  intro b ws hl hp
  simpa [quotaOk, hl, hp] using h

/-- Runs the labels in order as long as they stay within the quotas. -/
def execQuota (s : Sys P) : List (P × Act) → Option (Sys P)
  | [] => some s
  | l :: ls => if quotaOk s l then (step s l.1 l.2).bind fun t => execQuota t ls else none

theorem run_of_execQuota :
    ∀ {ls : List (P × Act)} {s t : Sys P}, execQuota s ls = some t → Run QuotaStep s ls t
  | [], s, t, h => by
    simp only [execQuota, Option.some.injEq] at h
    subst h
    exact Run.nil s
  | l :: ls, s, t, h => by
    rw [execQuota] at h
    split_ifs at h with hq
    obtain ⟨u, hu, hrest⟩ := Option.bind_eq_some_iff.1 h
    exact Run.append (@Run.single _ _ QuotaStep _ _ _ ⟨hu, withinQuota_of_quotaOk hq⟩) (run_of_execQuota hrest)

/-- Three operations start; each then logs ten blocks of its own. -/
def threeFullOps : List (Fin 3 × Act) :=
  [(0, .call), (0, .attempt), (1, .call), (1, .attempt), (2, .call), (2, .attempt)] ++
    (List.range 10).map (fun b => (0, .write b)) ++
    (List.range 10).map (fun b => (1, .write (10 + b))) ++
    (List.range 10).map (fun b => (2, .write (20 + b)))

/-- Admission does not suffice: on the log of `LOGSIZE` blocks the three full operations that
`begin_op` admits together panic at the last block. -/
theorem log_admission_insufficient :
    ¬ ∀ size, LOGSIZE ≤ size → ∀ (ls : List (Fin 3 × Act)) (t : Sys (Fin 3)),
      Run QuotaStep (Sys.init (Fin 3) 2 size) ls t → t.panic ≠ some .tooBig := by
  intro h
  have hex : (execQuota (Sys.init (Fin 3) 2 LOGSIZE) threeFullOps).map Sys.panic = some (some .tooBig) := by decide
  obtain ⟨t, ht, hpanic⟩ := Option.map_eq_some_iff.1 hex
  exact h LOGSIZE (Nat.le_refl _) threeFullOps t (run_of_execQuota ht) hpanic

/-- One operation that logs one block: no panic, so there was room. -/
theorem log_write_panics_iff_one_block :
    ∃ (ls : List (Fin 1 × Act)) (t : Sys (Fin 1)), Run QuotaStep (Sys.init (Fin 1) 2 LOGSIZE) ls t ∧
      t.log.block = [7] ∧ ∀ ms l, ms ++ [l] <+: ls → Room LOGSIZE ms l := by
  have hrun : Run QuotaStep (Sys.init (Fin 1) 2 LOGSIZE)
      [(0, .call), (0, .attempt), (0, .write 7)] _ := run_of_execQuota rfl
  exact ⟨_, _, hrun, rfl, (log_write_panics_iff (Nat.le_refl _) hrun).1 (by decide)⟩

end Xv6.Logging
