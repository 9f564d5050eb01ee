import Xv6.Sched.Family

/-!
# Process ids

`allocpid` hands out the values of a 32-bit counter, and nothing compares them with the pids in use. A
pid that has been handed out belongs first to the `fork` that asked for it and then to the slot of the
child; `Passes` says what one step does to the pids that belong to somebody. As long as the counter has
not overflowed, no two holders have the same pid and all pids are positive (`pids_identify`). After
that neither is true any more (`pids_wrap`).
-/

set_option autoImplicit false
set_option linter.unusedSectionVars false

namespace Xv6.Sched

open Function (update update_self update_of_ne)

variable {N : Nat} {C : Type} [DecidableEq C]

/-- The pid that a `fork` has been given and has not yet written to its slot. -/
def Frame.issued : Frame N → Option Int32
  | .forkPid2 _ pid | .forkUsed _ pid => some pid
  | _ => none

/-- The pid of the `fork` that a process is executing. -/
def pending (st : List (Frame N)) : Option Int32 := (call st).bind Frame.issued

/-- Who can have a pid: a slot of the table, or the `fork` of a process. -/
inductive Holder (N : Nat) where
  | slot (q : Fin N)
  | call (p : Fin N)
  deriving DecidableEq

/-- The pid in a slot that is in use. -/
def Shared.pidOf (sh : Shared N C) (q : Fin N) : Option Int32 :=
  if (sh.proc q).state = .unused then none else some (sh.proc q).pid

def Sys.pidOf (s : Sys N C) : Holder N → Option Int32
  | .slot q => s.sh.pidOf q
  | .call p => pending (s.stack (.proc p))

variable {q : Fin N} {pid : Int32}

theorem Shared.pidOf_eq_some {sh : Shared N C} :
    sh.pidOf q = some pid ↔ (sh.proc q).state ≠ .unused ∧ (sh.proc q).pid = pid := by
  unfold Shared.pidOf
  split_ifs with h
  · simp [h]
  · simp [h]

/-! ## One step -/

/-- What a step does to the pids of their holders: nothing new, a `fork` gives its pid to its slot, or a
`fork` takes the next pid. -/
inductive Passes (s u : Sys N C) : Prop
  | keeps : u.sh.nextpid = s.sh.nextpid → (∀ o pid, u.pidOf o = some pid → s.pidOf o = some pid) →
      Passes s u
  | hands (p q : Fin N) (pid : Int32) : u.sh.nextpid = s.sh.nextpid → s.pidOf (.call p) = some pid →
      u.pidOf (.call p) = none → (∀ pid', u.pidOf (.slot q) = some pid' → pid' = pid) →
      (∀ o pid', o ≠ .slot q → u.pidOf o = some pid' → s.pidOf o = some pid') → Passes s u
  | issues (p : Fin N) : u.sh.nextpid = s.sh.nextpid + 1 →
      (∀ pid, u.pidOf (.call p) = some pid → pid = s.sh.nextpid) →
      (∀ o pid, o ≠ .call p → u.pidOf o = some pid → s.pidOf o = some pid) → Passes s u

section Local

variable {k : Cfg N} {c : C} {me : Option (Fin N)} {p : Fin N} {sh sh' : Shared N C} {f : Frame N}
  {st st' next : List (Frame N)} {ev : Event N} {q : Fin N} {x : Proc N}

/-- Only `forkUsed` writes a pid to a slot in use; the others write to slots that are in use already. -/
theorem write_pid (h : Writes k me sh f q x next ev) (hx : x.state ≠ .unused) :
    (x.pid = (sh.proc q).pid ∧ ((sh.proc q).state ≠ .unused ∨ me = some q ∨ ∃ b, f.creates = some ⟨q, .used, b⟩)) ∨
    ∃ pid, f = .forkUsed q pid ∧ x = { sh.proc q with pid := pid, state := .used } ∧
      next = [.forkAlloc q] := by
  cases h with
  | forkUsed p q pid hp => exact .inr ⟨pid, rfl, rfl, rfl⟩
  | reap | forkFail => exact absurd rfl hx
  | pick p ps hrun => exact .inl ⟨rfl, .inl (by simp [hrun])⟩
  | wakeup ch q ps hsl hch | killAsleep p pid q hp hsl => exact .inl ⟨rfl, .inl (by simp [hsl])⟩
  | yield p hp | sleep p ch lk hp | exit p status hp => exact .inl ⟨rfl, .inr (.inl hp)⟩
  | forkRun p q pid hp => exact .inl ⟨rfl, .inr (.inr ⟨true, rfl⟩)⟩
  | _ => exact .inl ⟨rfl, .inl hx⟩

/-- How a frame of a system call with a pid comes about. -/
theorem issued_fires (h : Fires k c p sh f sh' next ev) (hn : pending (next ++ [.user]) = some pid) :
    f.issued = some pid ∨ ∃ q, f = .forkPid1 q ∧ pid = sh.nextpid ∧ sh' = { sh with nextpid := sh.nextpid + 1 } := by
  cases h with
  | acquire ha | move ha | write ha => cases ha <;> cases hn
  | release hr =>
    cases hr with
    | forkPid => exact .inl hn
    | _ => cases hn
  | pid q hf =>
    cases hn
    exact .inr ⟨q, hf, rfl, rfl⟩

theorem pendingPid_local (h : Local k c (.proc p) sh st sh' st' ev) (hs : Shape (.proc p : Tid N C) st)
    (hn : pending st' = some pid) : pending st = some pid ∨ ∃ q rest, st = .forkPid1 q :: rest ∧ pid = sh.nextpid ∧
      sh' = { sh with nextpid := sh.nextpid + 1 } := by
  cases call_local h hs with
  | above e =>
    refine .inl ?_
    rw [pending, ← e]
    exact hn
  | fires f next hk e e' hfire =>
    rw [e'] at hn
    rcases issued_fires hfire hn with hf | ⟨q, rfl, hpid, hsh⟩
    · refine .inl ?_
      rw [e]
      simp [pending, call, hk, hf]
    · exact .inr ⟨q, _, e, hpid, hsh⟩
  | starts f hf _ e' =>
    rw [e'] at hn
    cases hf <;> cases hn

theorem local_nextpid {t : Tid N C} (h : Local k c t sh st sh' st' ev) :
    sh'.nextpid = sh.nextpid ∨ ∃ p q rest, t.me = some p ∧ st = .forkPid1 q :: rest ∧
      sh' = { sh with nextpid := sh.nextpid + 1 } := by
  cases h with
  | act ha =>
    cases ha with
    | pid p q hp hf =>
      subst hf
      exact .inr ⟨p, q, _, hp, rfl, rfl⟩
    | _ => exact .inl rfl
  | _ => exact .inl rfl

end Local

section Machine

variable {k : Cfg N} {s u : Sys N C} {ev : Event N}

/-- A slot in use after an instruction had its pid before, or has just got it from a `fork`. -/
theorem slot_local (hi : Inv s) {c : C} {st st' : List (Frame N)} (hst : s.stack (s.tid c) = st)
    (hloc : Local k c (s.tid c) s.sh st u.sh st' ev) (hq : u.sh.pidOf q = some pid) :
    s.sh.pidOf q = some pid ∨ ∃ rest, st = .forkUsed q pid :: rest ∧ st' = .forkAlloc q :: rest := by
  obtain ⟨hused, hpid⟩ := Shared.pidOf_eq_some.1 hq
  rcases local_slot hloc q with e | ⟨f, rest, x, next, rfl, rfl, hx, hw⟩
  · rw [e] at hused hpid
    exact .inl (Shared.pidOf_eq_some.2 ⟨hused, hpid⟩)
  · rw [hx] at hused hpid
    rcases write_pid hw hused with ⟨hsame, hin⟩ | ⟨pid', rfl, rfl, rfl⟩
    · refine .inl (Shared.pidOf_eq_some.2 ⟨?_, hsame.symm.trans hpid⟩)
      rcases hin with hin | hme | ⟨b, hb⟩
      · exact hin
      · exact fun hun => hi.cpus.not_on (.inl hun) c (on_of_me hme)
      · rw [hi.claimed hst hb]
        exact Procstate.noConfusion
    · cases hpid
      exact .inr ⟨rest, rfl, rfl⟩

/-- A step that moves a thread between a CPU and a context issues no pid. -/
theorem passes_of_kept (hsh : u.sh.proc = s.sh.proc) (hnext : u.sh.nextpid = s.sh.nextpid)
    (hstack : ∀ p, u.stack (.proc p) = s.stack (.proc p) ∨
      (∃ f next rest, Leaves f next ∧ s.stack (.proc p) = f :: rest ∧ u.stack (.proc p) = next :: rest) ∨
      (∃ q rest, u.stack (.proc p) = .forkCopy q :: rest) ∨ u.stack (.proc p) = [.forkret, .user]) : Passes s u := by
  refine .keeps hnext fun o pid ho => ?_
  cases o with
  | slot q =>
    have hq := Shared.pidOf_eq_some.1 ho
    rw [hsh] at hq
    exact Shared.pidOf_eq_some.2 hq
  | call p =>
    simp only [Sys.pidOf] at ho ⊢
    rcases hstack p with e | ⟨f, next, rest, hleave, e, e'⟩ | ⟨q, rest, e'⟩ | e'
    · rw [← e]
      exact ho
    · rw [e'] at ho
      rw [e]
      obtain ⟨g, hg, hpid⟩ := Option.bind_eq_some_iff.1 ho
      rcases call_leaves hleave rest hg with hg' | rfl
      · rw [pending, hg']
        exact hpid
      · cases hpid
    · rw [e'] at ho
      cases ho
    · rw [e'] at ho
      cases ho

theorem passes_of_thread (hi : Inv s) {c : C} {st st' : List (Frame N)}
    (hst : s.stack (s.tid c) = st) (hloc : Local k c (s.tid c) s.sh st u.sh st' ev)
    (hstack : u.stack = update s.stack (s.tid c) st') : Passes s u := by
  -- the stacks of the other processes stay as they are
  have hother : ∀ r, .proc r ≠ s.tid c → u.pidOf (.call r) = s.pidOf (.call r) := by
    intro r hr
    simp only [Sys.pidOf]
    rw [hstack, update_of_ne hr]
  have hown : ∀ r pid, .proc r = s.tid c → u.pidOf (.call r) = some pid →
      s.pidOf (.call r) = some pid ∨ ∃ q rest, st = .forkPid1 q :: rest ∧ pid = s.sh.nextpid ∧
        u.sh = { s.sh with nextpid := s.sh.nextpid + 1 } := by
    intro r pid hr ho
    simp only [Sys.pidOf] at ho ⊢
    rw [hstack, ← hr, update_self] at ho
    rw [← hr] at hst hloc
    rw [hst]
    exact pendingPid_local hloc (hst ▸ hi.locks.shape (.proc r)) ho
  have htid : ∀ {p}, (s.tid c).me = some p → .proc p = s.tid c :=
    fun hme => (Sys.tid_of_some (on_of_me hme)).symm
  rcases local_nextpid hloc with hnext | ⟨p, q, rest, hme, rfl, hsh⟩
  · by_cases hgive : ∃ q pid rest, st = .forkUsed q pid :: rest ∧ st' = .forkAlloc q :: rest
    · obtain ⟨q, pid, rest, rfl, rfl⟩ := hgive
      obtain ⟨p, hme⟩ := Option.ne_none_iff_exists'.1
        (me_of_creates (hst ▸ hi.locks.shape (s.tid c)) (x := ⟨q, .unused, false⟩) rfl)
      have hp := htid hme
      have hfree : s.sh.pidOf q = none := if_pos (hi.claimed hst (x := ⟨q, .unused, false⟩) rfl)
      have hcall : u.pidOf (.call p) = none := by
        simp only [Sys.pidOf]
        rw [hstack, hp, update_self]
        rfl
      refine .hands p q pid hnext ?_ hcall (fun pid' ho => ?_) fun o pid' hne ho => ?_
      · simp only [Sys.pidOf]
        rw [hp, hst]
        rfl
      · rcases slot_local hi hst hloc ho with h | ⟨rest', h, -⟩
        · rw [hfree] at h
          cases h
        · cases h
          rfl
      · cases o with
        | slot r =>
          rcases slot_local hi hst hloc ho with h | ⟨rest', h, -⟩
          · exact h
          · cases h
            exact absurd rfl hne
        | call r =>
          by_cases hr : .proc r = s.tid c
          · have hrp : r = p := Tid.proc.inj (hr.trans hp.symm)
            rw [hrp, hcall] at ho
            cases ho
          · rw [← hother r hr]
            exact ho
    · refine .keeps hnext fun o pid ho => ?_
      cases o with
      | slot q =>
        rcases slot_local hi hst hloc ho with h | ⟨rest, h, h'⟩
        · exact h
        · exact absurd ⟨q, pid, rest, h, h'⟩ hgive
      | call r =>
        by_cases hr : .proc r = s.tid c
        · rcases hown r pid hr ho with h | ⟨q, rest, -, -, hsh⟩
          · exact h
          · rw [hsh] at hnext
            exact absurd hnext (by simp)
        · rw [← hother r hr]
          exact ho
  · have hp := htid hme
    refine .issues p (by rw [hsh]) (fun pid ho => ?_) fun o pid hne ho => ?_
    · rcases hown p pid hp ho with h | ⟨-, -, -, h, -⟩
      · simp only [Sys.pidOf] at h
        rw [hp, hst] at h
        cases h
      · exact h
    · cases o with
      | slot q =>
        rcases slot_local hi hst hloc ho with h | ⟨rest, h, -⟩
        · exact h
        · cases h
      | call r =>
        have hr : .proc r ≠ s.tid c := by
          intro hr
          exact hne (congrArg Holder.call (Tid.proc.inj (hr.trans hp.symm)))
        rw [← hother r hr]
        exact ho

theorem passes_of_change (hi : Inv s) (hc : Change k s ev u) : Passes s u := by
  cases hc with
  | thread c st st' hst hloc hstack _ _ => exact passes_of_thread hi hst hloc hstack
  | swtchTo c p ps _ _ hsh hstack _ _ =>
    refine passes_of_kept (by rw [hsh]) (by rw [hsh]) fun r => .inl ?_
    rw [hstack, update_of_ne (by simp)]
  | swtchBack c p f next rest _ hst hleave hsh hstack _ _ =>
    refine passes_of_kept (by rw [hsh]) (by rw [hsh]) fun r => ?_
    by_cases hr : r = p
    · subst hr
      exact .inr (.inl ⟨f, next, rest, hleave, hst, by rw [hstack, update_self]⟩)
    · refine .inl ?_
      rw [hstack, update_of_ne (by simpa using hr)]
  | context c q rest hst hsh hstack _ _ =>
    refine passes_of_kept (by rw [hsh]) (by rw [hsh]) fun r => ?_
    by_cases hr : r = q
    · subst hr
      exact .inr (.inr (.inr (by rw [hstack, update_self])))
    · by_cases ht : .proc r = s.tid c
      · refine .inr (.inr (.inl ⟨q, rest, ?_⟩))
        rw [hstack, update_of_ne (by simpa using hr), ht, update_self]
      · refine .inl ?_
        rw [hstack, update_of_ne (by simpa using hr), update_of_ne ht]
  | clear hu _ =>
    subst hu
    exact passes_of_kept rfl rfl fun r => .inl rfl

/-! ## Runs -/

/-- The `n` pids handed out so far are those from 2 on; none has two holders. -/
structure PidInv (n : Nat) (s : Sys N C) : Prop where
  next : s.sh.nextpid = Int32.ofNat (n + 2)
  range : ∀ {o pid}, s.pidOf o = some pid → 0 < pid.toInt ∧ pid.toInt < n + 2
  once : ∀ {o o' pid}, s.pidOf o = some pid → s.pidOf o' = some pid → o = o'

/-- A step and whether it takes a pid. -/
def PidStep (k : Cfg N) (s : Sys N C) (takes : Bool) (u : Sys N C) : Prop :=
  (∃ ev, Step k s ev u) ∧ (takes = true ↔ u.sh.nextpid ≠ s.sh.nextpid)

variable {n : Nat}

section

variable (h : PidInv n s)
include h

/-- The next pid, as long as the counter has not overflowed. -/
theorem PidInv.nextpid_toInt (hn : n + 2 < 2 ^ 31) : s.sh.nextpid.toInt = n + 2 := by
  rw [h.next, Int32.toInt_ofNat_of_lt hn]
  rfl

theorem PidInv.keeps (hnext : u.sh.nextpid = s.sh.nextpid)
    (hkeep : ∀ o pid, u.pidOf o = some pid → s.pidOf o = some pid) : PidInv n u where
  next := hnext.trans h.next
  range ho := h.range (hkeep _ _ ho)
  once ho ho' := h.once (hkeep _ _ ho) (hkeep _ _ ho')

/-- The pid of a `fork` goes to its slot. -/
theorem PidInv.hands {p : Fin N} (hnext : u.sh.nextpid = s.sh.nextpid) (hfrom : s.pidOf (.call p) = some pid)
    (hgone : u.pidOf (.call p) = none) (hto : ∀ pid', u.pidOf (.slot q) = some pid' → pid' = pid)
    (hkeep : ∀ o pid', o ≠ .slot q → u.pidOf o = some pid' → s.pidOf o = some pid') : PidInv n u := by
  -- another holder of the pid would have had it together with the `fork`
  have hnot : ∀ o, o ≠ .slot q → u.pidOf o ≠ some pid := by
    intro o ho hpid
    have hsame := h.once (hkeep o pid ho hpid) hfrom
    rw [hsame, hgone] at hpid
    cases hpid
  refine ⟨hnext.trans h.next, fun {o pid'} ho => ?_, fun {o o' pid'} ho ho' => ?_⟩
  · by_cases hq : o = .slot q
    · subst hq
      rw [hto pid' ho]
      exact h.range hfrom
    · exact h.range (hkeep o pid' hq ho)
  · by_cases hq : o = .slot q
    · subst hq
      by_cases hq' : o' = .slot q
      · exact hq'.symm
      · rw [hto pid' ho] at ho'
        exact absurd ho' (hnot o' hq')
    · by_cases hq' : o' = .slot q
      · subst hq'
        rw [hto pid' ho'] at ho
        exact absurd ho (hnot o hq)
      · exact h.once (hkeep o pid' hq ho) (hkeep o' pid' hq' ho')

/-- A new pid is larger than all that have a holder. -/
theorem PidInv.issues (hn : n + 2 < 2 ^ 31) {p : Fin N} (hnext : u.sh.nextpid = s.sh.nextpid + 1)
    (hto : ∀ pid, u.pidOf (.call p) = some pid → pid = s.sh.nextpid)
    (hkeep : ∀ o pid, o ≠ .call p → u.pidOf o = some pid → s.pidOf o = some pid) : PidInv (n + 1) u := by
  have hval := h.nextpid_toInt hn
  have hnot : ∀ o, o ≠ .call p → u.pidOf o ≠ some s.sh.nextpid := by
    intro o ho hpid
    have hlt := (h.range (hkeep o _ ho hpid)).2
    omega
  refine ⟨?_, fun {o pid} ho => ?_, fun {o o' pid} ho ho' => ?_⟩
  · rw [hnext, h.next, show n + 1 + 2 = n + 2 + 1 by omega, Int32.ofNat_add (n + 2) 1]
    rfl
  · by_cases hp : o = .call p
    · subst hp
      rw [hto pid ho]
      omega
    · have hr := h.range (hkeep o pid hp ho)
      omega
  · by_cases hp : o = .call p
    · subst hp
      by_cases hp' : o' = .call p
      · exact hp'.symm
      · rw [hto pid ho] at ho'
        exact absurd ho' (hnot o' hp')
    · by_cases hp' : o' = .call p
      · subst hp'
        rw [hto pid ho'] at ho
        exact absurd ho (hnot o hp)
      · exact h.once (hkeep o pid hp ho) (hkeep o' pid hp' ho')

theorem PidInv.step {takes : Bool} (hi : Inv s)
    (hs : PidStep k s takes u) (hn : takes = true → n + 2 < 2 ^ 31) : PidInv (n + takes.toNat) u := by
  obtain ⟨⟨ev, hstep⟩, htakes⟩ := hs
  have hno : u.sh.nextpid = s.sh.nextpid → takes = false := fun he => by
    rw [← Bool.not_eq_true, htakes, not_not]
    exact he
  cases passes_of_change hi (change_of_step hi.locks hstep) with
  | keeps hnext hkeep =>
    rw [hno hnext]
    exact h.keeps hnext hkeep
  | hands p q pid hnext hfrom hgone hto hkeep =>
    rw [hno hnext]
    exact h.hands hnext hfrom hgone hto hkeep
  | issues p hnext hto hkeep =>
    have ht : takes = true := htakes.2 (by rw [hnext]; simp)
    rw [ht] at hn ⊢
    exact h.issues (hn rfl) hnext hto hkeep

end

end Machine

theorem PidInv.boot (k : Cfg N) (sz pagetable trapframe : Nat) (cond : Bool) :
    PidInv 0 (Sys.boot k sz pagetable trapframe cond : Sys N C) := by
  have hpid : ∀ {o pid}, (Sys.boot k sz pagetable trapframe cond : Sys N C).pidOf o = some pid →
      o = .slot k.initproc ∧ pid = 1 := by
    intro o pid ho
    cases o with
    | slot q =>
      obtain ⟨hused, hpid⟩ := Shared.pidOf_eq_some.1 ho
      by_cases hq : q = k.initproc
      · subst hq
        simp only [Sys.boot, update_self] at hpid
        exact ⟨rfl, hpid.symm⟩
      · simp only [Sys.boot, update_of_ne hq] at hused
        exact absurd rfl hused
    | call p =>
      simp only [Sys.pidOf, Sys.boot] at ho
      split_ifs at ho
      · cases ho
      · cases ho
  refine ⟨rfl, fun ho => ?_, fun ho ho' => ?_⟩
  · rw [(hpid ho).2]
    decide
  · rw [(hpid ho).1, (hpid ho').1]

/-- Before the counter overflows, that is as long as no more than the pids up to `2 ^ 31 - 1` have been
handed out, the processes have positive pids and no two have the same. -/
theorem pids_identify {k : Cfg N} {sz pagetable trapframe : Nat} {cond : Bool} {takes : List Bool}
    {s : Sys N C}
    (h : Base.Run (PidStep k) (Sys.boot k sz pagetable trapframe cond) takes s)
    (hfew : takes.count true ≤ 2 ^ 31 - 2) (q : Fin N) (hq : (s.sh.proc q).state ≠ .unused) :
    0 < (s.sh.proc q).pid.toInt ∧
      ∀ r, (s.sh.proc r).state ≠ .unused → (s.sh.proc r).pid = (s.sh.proc q).pid → r = q := by
  have hinv : Inv s ∧ (takes.count true ≤ 2 ^ 31 - 2 → PidInv (takes.count true) s) := by
    refine h.invariant (P := fun takes s => Inv s ∧ (takes.count true ≤ 2 ^ 31 - 2 → PidInv (takes.count true) s))
      ⟨Inv.boot k sz pagetable trapframe cond, fun _ => PidInv.boot k sz pagetable trapframe cond⟩ ?_
    rintro bs t b u ⟨hi, hp⟩ hs
    obtain ⟨ev, hstep⟩ := hs.1
    refine ⟨hi.step hstep, fun hle => ?_⟩
    have hcount : (bs ++ [b]).count true = bs.count true + b.toNat := by
      cases b <;> simp
    rw [hcount] at hle ⊢
    refine (hp (by omega)).step hi hs fun hb => ?_
    rw [hb, Bool.toNat_true] at hle
    omega
  have hp := hinv.2 hfew
  have hslot : ∀ r, (s.sh.proc r).state ≠ .unused →
      s.pidOf (.slot r) = some (s.sh.proc r).pid := fun r hr => Shared.pidOf_eq_some.2 ⟨hr, rfl⟩
  refine ⟨(hp.range (hslot q hq)).1, fun r hr heq => ?_⟩
  have hsame := hslot r hr
  rw [heq] at hsame
  exact Holder.slot.inj (hp.once hsame (hslot q hq))

/-! ## Overflow

One CPU and two slots. The process in slot 0 forks again and again, and each time there is no memory for
the child, whose pid is used up all the same. -/

/-- The shared data while the process in slot 0 runs. -/
def forkerShared (n : Int32) (x : Proc 2) : Shared 2 Unit where
  proc := ![{ Proc.free with
    state := .running, pid := 1, sz := 4096, pagetable := some 1, trapframe := some 2 }, x]
  nextpid := n
  cpu := fun _ => some 0
  cond := false

/-- The machine while the process in slot 0 runs, with stack `st` and the locks `held`. -/
def forker (n : Int32) (x : Proc 2) (st : List (Frame 2)) (held : List (Lock 2)) : Sys 2 Unit where
  sh := forkerShared n x
  lock := fun l => if l ∈ held then some () else none
  on := fun _ => some 0
  stack := fun t => match t with
    | .cpu _ => [.back 0 [1]]
    | .proc p => if p = 0 then st else []
  saved := fun _ => false

theorem forkerShared_setProc (n : Int32) (x y : Proc 2) : (forkerShared n x).setProc 1 y = forkerShared n y := by
  unfold Shared.setProc forkerShared
  congr 1
  funext q
  fin_cases q
  · rfl
  · rfl

section Forker

variable {n m : Int32} {x y : Proc 2} {f : Frame 2} {rest next st : List (Frame 2)}
  {held : List (Lock 2)} {lk : Lock 2}

theorem forker_stack (n : Int32) (x : Proc 2) (st st' : List (Frame 2)) (held : List (Lock 2)) :
    (forker n x st held).setStack (.proc 0) st' = forker n x st' held := by
  unfold Sys.setStack forker
  congr 1
  funext t
  cases t with
  | cpu c => rfl
  | proc p =>
    by_cases hp : p = 0
    · subst hp
      simp
    · rw [update_of_ne (by simpa using hp)]
      simp [hp]

theorem forker_lock : (forker n x st held).setLock lk (some ()) = forker n x st (lk :: held) := by
  unfold Sys.setLock forker
  congr 1
  funext l
  by_cases hl : l = lk
  · subst hl
    simp
  · rw [update_of_ne hl]
    simp [hl]

theorem forker_unlock (h : lk ∉ held) : (forker n x st (lk :: held)).setLock lk none = forker n x st held := by
  unfold Sys.setLock forker
  congr 1
  funext l
  by_cases hl : l = lk
  · subst hl
    simp [h]
  · rw [update_of_ne hl]
    simp [hl]

/-- The steps of the process in slot 0. -/
abbrev ForkerStep := PidStep (N := 2) (C := Unit) ⟨0, 0, 0⟩

theorem forker_acquire (lk : Lock 2) (hi : instr (⟨0, 0, 0⟩ : Cfg 2) () (some 0) f = .acquire lk next)
    (hl : lk ∉ held) : ForkerStep (forker n x (f :: rest) held) false (forker n x (next ++ rest) (lk :: held)) := by
  refine ⟨⟨.silent, ?_⟩, by simp [forker]⟩
  have hs := Step.acquire (k := ⟨0, 0, 0⟩) (forker n x (f :: rest) held) () f rest lk next rfl hi (if_neg hl)
  rw [forker_lock] at hs
  exact forker_stack n x (f :: rest) (next ++ rest) (lk :: held) ▸ hs

theorem forker_release {ev : Event 2}
    (hi : instr (⟨0, 0, 0⟩ : Cfg 2) () (some 0) f = .release lk next ev) (hl : lk ∉ held) :
    ForkerStep (forker n x (f :: rest) (lk :: held)) false (forker n x (next ++ rest) held) := by
  refine ⟨⟨ev, ?_⟩, by simp [forker]⟩
  have hs := Step.release (k := ⟨0, 0, 0⟩) (forker n x (f :: rest) (lk :: held)) () f rest lk next ev
    rfl hi (if_pos (.head _))
  rw [forker_unlock hl] at hs
  exact forker_stack n x (f :: rest) (next ++ rest) held ▸ hs

variable {g : Input → Shared 2 Unit → Result 2 Unit}

section

variable (inp : Input) (hi : instr (⟨0, 0, 0⟩ : Cfg 2) () (some 0) f = .act g)
include hi

theorem forker_act {ev : Event 2} (hg : g inp (forkerShared n x) = (forkerShared m y, next, ev)) :
    ForkerStep (forker n x (f :: rest) held) (decide (m ≠ n)) (forker m y (next ++ rest) held) := by
  refine ⟨⟨ev, ?_⟩, by simp [forker, forkerShared]⟩
  have hs := Step.act (k := ⟨0, 0, 0⟩) (forker n x (f :: rest) held) () f rest g inp rfl hi
  have hsh : (forker n x (f :: rest) held).sh = forkerShared n x := rfl
  rw [hsh, hg] at hs
  exact forker_stack m y (f :: rest) (next ++ rest) held ▸ hs

/-- A section that leaves the shared data alone. -/
theorem forker_goto (hg : g inp (forkerShared n x) = (forkerShared n x, next, .silent)) :
    ForkerStep (forker n x (f :: rest) held) false (forker n x (next ++ rest) held) := by
  rw [← show decide (n ≠ n) = false by simp]
  exact forker_act inp hi hg

/-- A section that writes to slot 1. -/
theorem forker_write (hg : g inp (forkerShared n x) = ((forkerShared n x).setProc 1 y, next, .silent)) :
    ForkerStep (forker n x (f :: rest) held) false (forker n y (next ++ rest) held) := by
  rw [forkerShared_setProc] at hg
  rw [← show decide (n ≠ n) = false by simp]
  exact forker_act inp hi hg

end

end Forker

/-- Slot 1 while it is set up. -/
def newborn (pid : Int32) : Proc 2 := { Proc.free with pid := pid, state := .used }

/-- `fork` up to where the child has its pid. -/
theorem fork_takes_pid (n : Int32) :
    ∃ takes, takes.count true = 1 ∧ Base.Run ForkerStep (forker n Proc.free [.user] []) takes
      (forker (n + 1) (newborn n) [.forkAlloc 1, .user] [.proc 1]) := by
  have h0 : ForkerStep (forker n Proc.free [.user] []) false (forker n Proc.free [.fork [0, 1], .user] []) := by
    refine ⟨⟨.silent, ?_⟩, by simp [forker]⟩
    have hs := Step.syscall (k := ⟨0, 0, 0⟩) (forker n Proc.free [.user] []) () 0 (.fork [0, 1])
      rfl rfl .fork
    rw [forker_stack] at hs
    exact hs
  have h1 := (Base.Run.single h0).snoc (forker_acquire (.proc 0) rfl (by simp))
  have h2 := h1.snoc (forker_goto ⟨true, none, none⟩ rfl rfl)
  have h3 := h2.snoc (forker_release rfl (by simp))
  have h4 := h3.snoc (forker_acquire (.proc 1) rfl (by simp))
  have h5 := h4.snoc (forker_goto ⟨true, none, none⟩ rfl rfl)
  have h6 := h5.snoc (forker_acquire .pid rfl (by simp))
  have h7 := h6.snoc (forker_act (m := n + 1) (y := Proc.free) ⟨true, none, none⟩ rfl rfl)
  have h8 := h7.snoc (forker_release rfl (by simp))
  have h9 := h8.snoc (forker_write (y := newborn n) ⟨true, none, none⟩ rfl rfl)
  exact ⟨_, by simp, h9⟩

/-- There is no memory for the child. -/
theorem fork_without_memory (n m : Int32) : ∃ takes, takes.count true = 0 ∧ Base.Run ForkerStep
      (forker n (newborn m) [.forkAlloc 1, .user] [.proc 1]) takes (forker n Proc.free [.user] []) := by
  have h0 : ForkerStep (forker n (newborn m) [.forkAlloc 1, .user] [.proc 1]) false
      (forker n (newborn m) ([.forkFail 1] ++ [.user]) [.proc 1]) :=
    forker_write ⟨true, none, none⟩ rfl rfl
  have h2 := (Base.Run.single h0).snoc (forker_write (y := Proc.free) ⟨true, none, none⟩ rfl rfl)
  have h3 := h2.snoc (forker_release rfl (by simp))
  exact ⟨_, by simp, h3⟩

theorem running_eq {s u : Sys 2 Unit} (hsh : s.sh = u.sh) (hlock : s.lock = u.lock) (hon : s.on = u.on)
    (hstack : s.stack = u.stack) (hsaved : s.saved = u.saved) : s = u := by
  cases s
  cases u
  cases hsh
  cases hlock
  cases hon
  cases hstack
  cases hsaved
  rfl

/-- The first process comes to run. -/
theorem forker_starts : ∃ takes, takes.count true = 0 ∧ Base.Run ForkerStep
    (Sys.boot ⟨0, 0, 0⟩ 4096 1 2 false) takes (forker 2 Proc.free [.user] []) := by
  have hstep : ∀ {s u : Sys 2 Unit}, Step ⟨0, 0, 0⟩ s .silent u → u.sh.nextpid = s.sh.nextpid →
      ForkerStep s false u := fun hs hn => ⟨⟨.silent, hs⟩, by simp [hn]⟩
  have h1 := Base.Run.single (hstep (Step.acquire (Sys.boot ⟨0, 0, 0⟩ 4096 1 2 false) ()
    (.scan [0, 1]) [] (.proc 0) [.pick 0 [1]] rfl rfl rfl) rfl)
  have h2 := h1.snoc (hstep (Step.act _ () (.pick 0 [1]) [] _ ⟨true, none, none⟩ rfl rfl) rfl)
  have h3 := h2.snoc (hstep (Step.act _ () (.assign 0 [1]) [] _ ⟨true, none, none⟩ rfl rfl) rfl)
  have h4 := h3.snoc (hstep (Step.swtchTo _ () (.switch 0 [1]) [] 0 (.back 0 [1]) rfl rfl rfl) rfl)
  have h5 := h4.snoc (hstep (Step.release _ () .forkret [.user] (.proc 0) [] .silent rfl rfl rfl) rfl)
  refine ⟨_, ?_, (congrArg (Base.Run _ _ _) (running_eq ?_ ?_ ?_ ?_ ?_)).mp h5⟩
  · simp
  · refine (congrArg (fun f => Shared.mk f _ _ _) (funext fun q => ?_)).trans rfl
    fin_cases q
    · rfl
    · rfl
  · funext l
    by_cases hl : l = .proc 0
    · subst hl
      rfl
    · refine (update_of_ne hl _ _).trans ((update_of_ne hl _ _).trans rfl)
  · rfl
  · funext t
    match t with
    | .cpu c => rfl
    | .proc 0 => rfl
    | .proc 1 => rfl
  · funext q
    fin_cases q
    · rfl
    · rfl

/-- After any number of calls of `fork`. -/
theorem forker_runs (n : Nat) : ∃ takes, takes.count true = n ∧ Base.Run ForkerStep
    (Sys.boot ⟨0, 0, 0⟩ 4096 1 2 false) takes (forker (Int32.ofNat (n + 2)) Proc.free [.user] []) := by
  induction n with
  | zero => exact forker_starts
  | succ n ih =>
    obtain ⟨takes, hcount, hrun⟩ := ih
    obtain ⟨takes', hcount', hrun'⟩ := fork_takes_pid (Int32.ofNat (n + 2))
    obtain ⟨takes'', hcount'', hrun''⟩ := fork_without_memory (Int32.ofNat (n + 2) + 1) (Int32.ofNat (n + 2))
    refine ⟨takes ++ takes' ++ takes'', by simp [hcount, hcount', hcount''], ?_⟩
    rw [show n + 1 + 2 = n + 2 + 1 by omega, Int32.ofNat_add (n + 2) 1]
    exact (hrun.append hrun').append hrun''

/-- A child that has got its pid after `n` others. -/
theorem forker_child (n : Nat) : ∃ (takes : List Bool) (s : Sys 2 Unit), takes.count true = n + 1 ∧
    Base.Run ForkerStep (Sys.boot ⟨0, 0, 0⟩ 4096 1 2 false) takes s ∧
    (s.sh.proc 0).state = .running ∧ (s.sh.proc 0).pid = 1 ∧
    (s.sh.proc 1).state = .used ∧ (s.sh.proc 1).pid = Int32.ofNat (n + 2) := by
  obtain ⟨takes, hcount, hrun⟩ := forker_runs n
  obtain ⟨takes', hcount', hrun'⟩ := fork_takes_pid (Int32.ofNat (n + 2))
  exact ⟨takes ++ takes', _, by simp [hcount, hcount'], hrun.append hrun', rfl, rfl, rfl, rfl⟩

/-- The first child. -/
theorem pids_identify_first : ∃ (takes : List Bool) (s : Sys 2 Unit),
    Base.Run (PidStep ⟨0, 0, 0⟩) (Sys.boot ⟨0, 0, 0⟩ 4096 1 2 false) takes s ∧
      (s.sh.proc 1).state ≠ .unused ∧ 0 < (s.sh.proc 1).pid.toInt ∧
      ∀ r, (s.sh.proc r).state ≠ .unused → (s.sh.proc r).pid = (s.sh.proc 1).pid → r = 1 := by
  obtain ⟨takes, s, hcount, hrun, -, -, hused, -⟩ := forker_child 0
  have hq : (s.sh.proc 1).state ≠ .unused := by
    rw [hused]
    exact Procstate.noConfusion
  obtain ⟨hpos, hdistinct⟩ := pids_identify hrun (by rw [hcount]; decide) 1 hq
  exact ⟨takes, s, hrun, hq, hpos, hdistinct⟩

/-- The `2 ^ 31 - 1`st child has a negative pid, and a later one has the pid of the first process,
which is still there. -/
theorem pids_wrap :
    (∃ (takes : List Bool) (s : Sys 2 Unit),
      Base.Run (PidStep ⟨0, 0, 0⟩) (Sys.boot ⟨0, 0, 0⟩ 4096 1 2 false) takes s ∧
      takes.count true = 2 ^ 31 - 1 ∧
      (s.sh.proc 1).state ≠ .unused ∧ (s.sh.proc 1).pid.toInt < 0) ∧
    ∃ (takes : List Bool) (s : Sys 2 Unit),
      Base.Run (PidStep ⟨0, 0, 0⟩) (Sys.boot ⟨0, 0, 0⟩ 4096 1 2 false) takes s ∧
      (s.sh.proc 0).state ≠ .unused ∧ (s.sh.proc 1).state ≠ .unused ∧
      (s.sh.proc 0).pid = (s.sh.proc 1).pid := by
  constructor
  · obtain ⟨takes, s, hcount, hrun, -, -, hused, hpid⟩ := forker_child (2 ^ 31 - 2)
    refine ⟨takes, s, hrun, hcount, ?_, ?_⟩
    · rw [hused]
      exact Procstate.noConfusion
    · rw [hpid]
      decide
  · obtain ⟨takes, s, -, hrun, hused, hpid, hused', hpid'⟩ := forker_child (2 ^ 32 - 1)
    refine ⟨takes, s, hrun, ?_, ?_, ?_⟩
    · rw [hused]
      exact Procstate.noConfusion
    · rw [hused']
      exact Procstate.noConfusion
    · rw [hpid, hpid']
      decide

end Xv6.Sched
