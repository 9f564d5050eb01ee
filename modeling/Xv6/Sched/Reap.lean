import Xv6.Sched.Family
import Xv6.Sched.Wakeup

/-!
# Exit and wait

`exit` wakes the parent before it becomes a zombie, and `wait` looks through the table before it sleeps; both
hold `wait_lock` from the one to the other. So a process that is asleep in `wait` has no zombie child, or
somebody who holds `wait_lock` is about to wake it (`WaitInv`). The history of a run is read off its
events: `outstanding` is the exit of a slot that nobody has reaped yet, `returning` is the pid that a `wait`
has found and not yet returned. `exit_wait` is about all of this in every run.
-/

set_option autoImplicit false
set_option linter.unusedSectionVars false

namespace Xv6.Sched

open Function (update update_self update_of_ne)

variable {N : Nat} {C : Type} [DecidableEq C]

/-- Process `x` is a zombie child of `p`. -/
def Kid (sh : Shared N C) (p x : Fin N) : Prop :=
  (sh.proc x).parent = some p ∧ (sh.proc x).state = .zombie

/-- The part of the table that a `wait` has yet to look at. -/
def Frame.unscanned : Frame N → Option (List (Fin N))
  | .waitScan _ _ ps | .waitDrop _ _ ps => some ps
  | .waitLock _ q ps | .waitTest _ q ps => some (q :: ps)
  | .waitKilled0 _ | .waitKilled1 _ | .waitKilled2 _ _ => some []
  | _ => none

/-- The child that a `wait` is looking at. -/
def Frame.child : Frame N → Option (Fin N)
  | .waitLock _ q _ | .waitTest _ q _ => some q
  | _ => none

/-- Places of `exit` after the call of `wakeup(p->parent)` has been made. -/
def Frame.told : Frame N → Bool
  | .exit2 _ | .exit3 _ | .exit4 _ => true
  | _ => false

variable {q : Fin N} {f : Frame N} {ps : List (Fin N)}

section Local

variable {k : Cfg N} {c : C} {p : Fin N} {sh sh' : Shared N C} {st st' : List (Frame N)} {ev : Event N}

variable {g : Frame N} {next : List (Frame N)}

section

variable (h : Fires k c p sh f sh' next ev) (hc : call (next ++ [.user]) = some g)
include h hc

theorem unscanned_fires (hg : g.unscanned = some ps) :
    sh' = sh ∧ ∃ qs, (f.unscanned = some qs ∨ qs = procs N) ∧ ∀ x ∈ qs, x ∈ ps ∨ ¬Kid sh p x := by
  cases h with
  | acquire ha =>
    cases ha with
    | wait => cases hc; cases hg; exact ⟨rfl, procs N, .inr rfl, fun x hx => .inl hx⟩
    | waitChild | waitKilled => cases hc; exact ⟨rfl, ps, .inl hg, fun x hx => .inl hx⟩
    | _ => cases hc <;> cases hg
  | release hr =>
    cases hr with
    | waitDrop => cases hc; exact ⟨rfl, ps, .inl hg, fun x hx => .inl hx⟩
    | waitSleep => cases hc; cases hg; exact ⟨rfl, procs N, .inr rfl, fun x hx => .inl hx⟩
    | _ => cases hc <;> cases hg
  | move hm =>
    refine ⟨rfl, ?_⟩
    cases hm with
    | waitKids | waitChild | waitKilled => cases hc; exact ⟨ps, .inl hg, fun x hx => .inl hx⟩
    | waitOther p' addr kids q qs hp hpar =>
      cases hp
      cases hc
      cases hg
      refine ⟨_ :: ps, .inl rfl, fun x hx => ?_⟩
      rcases List.mem_cons.1 hx with rfl | hx
      · exact .inr fun hkid => hpar hkid.1
      · exact .inl hx
    | waitAlive p' addr q qs hp hz =>
      cases hc
      cases hg
      refine ⟨_ :: ps, .inl rfl, fun x hx => ?_⟩
      rcases List.mem_cons.1 hx with rfl | hx
      · exact .inr fun hkid => hz hkid.2
      · exact .inl hx
    | _ => cases hc <;> cases hg
  | write hw => cases hw <;> cases hc <;> cases hg
  | pid q => cases hc; cases hg

theorem child_fires (hg : g.child = some q) : sh' = sh ∧ (f.child = some q ∨ (sh.proc q).parent = some p) := by
  cases h with
  | acquire ha =>
    cases ha with
    | waitChild => cases hc; exact ⟨rfl, .inl hg⟩
    | _ => cases hc <;> cases hg
  | release hr | write hr => cases hr <;> cases hc <;> cases hg
  | move hm =>
    refine ⟨rfl, ?_⟩
    cases hm with
    | waitChild p' addr kids q' qs hp hpar =>
      cases hp
      cases hc
      cases hg
      exact .inr hpar
    | _ => cases hc <;> cases hg
  | pid q => cases hc; cases hg

/-- `exit` comes to the places after `wakeup(p->parent)` by calling it. -/
theorem told_fires (hg : g.told = true) : (sh'.proc p).parent = (sh.proc p).parent ∧
      (f.told = true ∨ ∃ status, next = [.wakeup ((sh.proc p).parent.map .proc) (procs N), .exit2 status]) := by
  cases h with
  | acquire ha =>
    cases ha with
    | exitSelf => exact ⟨rfl, .inl rfl⟩
    | _ => cases hc <;> cases hg
  | release hr => cases hr <;> cases hc <;> cases hg
  | move hm =>
    cases hm with
    | reparentEnd p' status hp => cases hp; exact ⟨rfl, .inr ⟨status, rfl⟩⟩
    | _ => cases hc <;> cases hg
  | write hw =>
    cases hw with
    | exitStatus p' status hp => cases hp; exact ⟨by simp [Shared.setProc], .inl rfl⟩
    | _ => cases hc <;> cases hg
  | pid q => cases hc; cases hg

end

end Local

/-- The process whose system call shows as the event. -/
theorem event_local {k : Cfg N} {c : C} {t : Tid N C} {sh sh' : Shared N C} {st st' : List (Frame N)}
    {ev : Event N} (h : Local k c t sh st sh' st' ev) {p : Fin N}
    (hev : (∃ q pid stored, ev = .reaped p q pid stored) ∨ ∃ pid, ev = .waited p pid) : t.me = some p := by
  generalize hme : t.me = me at h
  cases h with
  | release hr =>
    rw [hme] at hr
    cases hr <;> rcases hev with ⟨_, _, _, hev⟩ | ⟨_, hev⟩ <;> cases hev
    rfl
  | act ha =>
    rw [hme] at ha
    cases ha with
    | move hm => cases hm <;> rcases hev with ⟨_, _, _, hev⟩ | ⟨_, hev⟩ <;> cases hev
    | write hw =>
      cases hw with
      | reap p' addr q ps hp _ =>
        rcases hev with ⟨_, _, _, hev⟩ | ⟨_, hev⟩
        · cases hev
          exact hp
        · cases hev
      | _ => rcases hev with ⟨_, _, _, hev⟩ | ⟨_, hev⟩ <;> cases hev
    | pid | assign | back => rcases hev with ⟨_, _, _, hev⟩ | ⟨_, hev⟩ <;> cases hev
  | acquire | syscall | timer | interrupt | wake | sleep | unlock | make =>
    rcases hev with ⟨_, _, _, hev⟩ | ⟨_, hev⟩ <;> cases hev

/-! ## Who holds `wait_lock` -/

/-- A system call at a place where `wait_lock` is held holds it, unless it is a `wait` that has gone to sleep
and will look through the whole table again. -/
theorem held_wait {t : Tid N C} (hf : Lock.wait ∈ f.held t.own) :
    ∀ {st : List (Frame N)}, Shape t st → call st = some f →
      .wait ∈ heldStack t.own st ∨ ∃ addr, f = .waitScan addr false (procs N)
  | [], _, hc => by cases hc
  | g :: rest, hs, hc => by
    by_cases hk : g.kind = .call
    · simp only [call, hk] at hc
      cases hc
      refine .inl ?_
      simp only [heldStack, hk]
      exact List.mem_append_left _ hf
    · rw [call_cons hk] at hc
      rcases held_wait hf hs.1 hc with hheld | hscan
      · by_cases hsleep : ∃ lk, g.kind = .sleep lk
        · obtain ⟨lk, hlk⟩ := hsleep
          have hfit := hs.2.1
          simp only [Fits, hlk] at hfit
          obtain ⟨-, hrest, -, hwait⟩ := hfit
          rw [hrest, List.mem_singleton] at hheld
          obtain ⟨addr, hrest'⟩ := hwait hheld.symm
          rw [hrest'] at hc
          cases hc
          exact .inr ⟨addr, rfl⟩
        · exact .inl (mem_heldStack_cons (fun lk hlk => hsleep ⟨lk, hlk⟩) hheld)
      · exact .inr hscan

section Machine

variable {k : Cfg N} {s u : Sys N C} {ev : Event N}

/-- A process whose stack holds a lock other than its own is on a CPU. -/
theorem Inv.on_of_held (hi : Inv s) {p : Fin N} {lk : Lock N}
    (h : lk ∈ heldStack [.proc p] (s.stack (.proc p))) (hne : lk ≠ .proc p) :
    ∃ c, s.on c = some p ∧ s.lock lk = some c := by
  by_cases hon : ∃ c, s.on c = some p
  · obtain ⟨c, hc⟩ := hon
    refine ⟨c, hc, (hi.locks.lock lk c).2 ?_⟩
    rw [Sys.tid_of_some hc]
    exact h
  · have hpark := hi.cpus.parked fun c hc => hon ⟨c, hc⟩
    have hsaved : s.saved p ≠ true := by
      intro hsv
      rw [hi.locks.saved hsv, List.mem_singleton] at h
      exact hne h
    have hvacant : ¬Vacant (s.stack (.proc p)) := by
      intro hv
      generalize s.stack (.proc p) = st at h hv
      unfold Vacant at hv
      split at hv
      · simp [heldStack] at h
      · simp [heldStack, Frame.kind, Frame.held, hne] at h
      · simp [heldStack, Frame.kind, Frame.held, hne] at h
      · exact hv
    cases hst : (s.sh.proc p).state with
    | unused | used => rw [hst] at hpark; exact absurd hpark hvacant
    | sleeping | runnable | running | zombie => rw [hst] at hpark; exact absurd hpark.1 hsaved

/-- The process that is executing a system call at a place where `wait_lock` is held. -/
theorem Inv.wait_holder (hi : Inv s) {p : Fin N} {f : Frame N}
    (hc : call (s.stack (.proc p)) = some f) (hf : Lock.wait ∈ f.held [.proc p])
    (hscan : ∀ addr, f ≠ .waitScan addr false (procs N)) : ∃ c, s.on c = some p ∧ s.lock .wait = some c := by
  rcases held_wait (t := (.proc p : Tid N C)) hf (hi.locks.shape (.proc p)) hc with h | ⟨addr, h⟩
  · exact hi.on_of_held h (by simp)
  · exact absurd h (hscan addr)

theorem Inv.lock_top (hi : Inv s) {c : C} {f : Frame N} {rest : List (Frame N)} {lk : Lock N}
    (hst : s.stack (s.tid c) = f :: rest) (hf : lk ∈ f.held (s.tid c).own) : s.lock lk = some c := by
  rw [hi.locks.lock, hst]
  cases hk : f.kind with
  | sleep => simpa only [heldStack, hk] using hf
  | scheduler | user | call | yield | leaf =>
    simp only [heldStack, hk]
    exact List.mem_append_left _ hf

end Machine

/-! ## Zombie children -/

section Write

variable {k : Cfg N} {me : Option (Fin N)} {sh : Shared N C} {f : Frame N} {q p : Fin N} {x : Proc N}
  {next : List (Frame N)} {ev : Event N}

section

variable (h : Writes k me sh f q x next ev)
include h

/-- How a process gets a zombie child: the child exits, or `reparent` gives it to `initproc`. -/
theorem kid_write (hpar : x.parent = some p) (hz : x.state = .zombie) :
    Kid sh p q ∨ (me = some q ∧ (∃ status, f = .exit4 status) ∧ (sh.proc q).parent = some p) ∨
      ((∃ status ps, f = .reparent status (q :: ps) ∧
        next = [.wakeup (some (.proc p)) (procs N), .reparent status ps])) ∨
      ((∃ pid, f = .forkParent1 q pid) ∧ (sh.proc q).state = .zombie) := by
  cases h with
  | exit p' status hp => exact .inr (.inl ⟨hp, ⟨status, rfl⟩, hpar⟩)
  | reparent p' status q ps hp _ => cases hpar; exact .inr (.inr (.inl ⟨status, ps, rfl, rfl⟩))
  | forkParent p' q pid hp => exact .inr (.inr (.inr ⟨⟨pid, rfl⟩, hz⟩))
  | pick | wakeup | yield | sleep | killAsleep | reap | forkUsed | forkFail | forkRun => cases hz
  | _ => exact .inl ⟨hpar, hz⟩

/-- `wait_lock` is held wherever a zombie is made or given to another parent. -/
theorem wait_of_zombie_write (hz : x.state = .zombie) (own : List (Lock N)) :
    (x.parent = (sh.proc q).parent ∧ (sh.proc q).state = .zombie) ∨ .wait ∈ f.held own := by
  cases h with
  | exit | reparent | forkParent => exact .inr (.head _)
  | pick | wakeup | yield | sleep | killAsleep | reap | forkUsed | forkFail | forkRun => cases hz
  | _ => exact .inl ⟨rfl, hz⟩

/-- `wait_lock` is held wherever a parent changes, but for a slot that was never started. -/
theorem wait_of_parent_write (own : List (Lock N)) :
    x.parent = (sh.proc q).parent ∨ .wait ∈ f.held own ∨ f = .forkFail q := by
  cases h with
  | reparent | forkParent => exact .inr (.inl (.head _))
  | reap => exact .inr (.inl (.tail _ (.head _)))
  | forkFail => exact .inr (.inr rfl)
  | _ => exact .inl rfl

end

end Write

theorem wait_of_unscanned (h : f.unscanned = some ps) (own : List (Lock N)) : .wait ∈ f.held own := by
  cases f <;> cases h <;> simp [Frame.held]

theorem wait_of_told (h : f.told = true) (own : List (Lock N)) : .wait ∈ f.held own := by
  cases f <;> cases h <;> simp [Frame.held]

/-- Exiting children and waiting parents. -/
structure WaitInv (s : Sys N C) : Prop where
  /-- A `wait` has seen no zombie in the part of the table that is behind it. -/
  scan : ∀ {p f ps}, call (s.stack (.proc p)) = some f → f.unscanned = some ps →
    ∀ x, x ∉ ps → ¬Kid s.sh p x
  child : ∀ {p f q}, call (s.stack (.proc p)) = some f → f.child = some q →
    (s.sh.proc q).state = .zombie → (s.sh.proc q).parent = some p
  /-- A process that is about to sleep in `wait` has no zombie child. -/
  asleep : ∀ {p f r lk rest}, s.stack (.proc p) = f :: rest →
    f = .sleep0 (.proc r) lk ∨ f = .sleep1 (.proc r) lk → r = p ∧ lk = .wait ∧ ∀ x, ¬Kid s.sh p x
  /-- The parent of a process that is about to become a zombie has been woken, or is about to be. -/
  told : ∀ {p f q}, call (s.stack (.proc p)) = some f → f.told = true →
    (s.sh.proc p).parent = some q → Waiting s q (.proc q) →
    Pending [.proc p] .wait (.proc q) q (s.stack (.proc p))
  /-- A process that waits and has a zombie child is about to be woken. -/
  woken : ∀ {q x}, Waiting s q (.proc q) → Kid s.sh q x →
    ∃ c, Pending (s.tid c).own .wait (.proc q) q (s.stack (s.tid c))

section Machine

variable {k : Cfg N} {s u : Sys N C} {ev : Event N}

/-- Whoever gives a process a new zombie child holds `wait_lock`. -/
theorem kid_step (hi : Inv s) {c : C} {st st' : List (Frame N)} (hst : s.stack (s.tid c) = st)
    (hloc : Local k c (s.tid c) s.sh st u.sh st' ev) {p x : Fin N} (hkid : Kid u.sh p x) :
    Kid s.sh p x ∨ (s.lock .wait = some c ∧
      ((s.tid c = .proc x ∧ (∃ status, st = [.exit4 status, .user]) ∧ (s.sh.proc x).parent = some p) ∨
        ∃ status ps rest, st' = .wakeup (some (.proc p)) (procs N) :: .reparent status ps :: rest)) := by
  rcases local_slot hloc x with e | ⟨f, rest, y, next, hf, hst', hx, hw⟩
  · exact .inl ⟨e ▸ hkid.1, e ▸ hkid.2⟩
  · subst hx
    rw [hf] at hst
    rcases kid_write hw hkid.1 hkid.2 with h | ⟨hme, ⟨status, rfl⟩, hpar⟩ | ⟨status, ps, rfl, hn⟩ | ⟨⟨pid, rfl⟩, hz⟩
    · exact .inl h
    · refine .inr ⟨hi.lock_top hst (.head _), .inl ⟨Sys.tid_of_some (on_of_me hme), ?_, hpar⟩⟩
      have hshape := hi.locks.shape (s.tid c)
      rw [hst] at hshape
      obtain ⟨-, rfl⟩ : (s.tid c).me ≠ none ∧ rest = [.user] := hshape.2.1
      exact ⟨status, hf⟩
    · refine .inr ⟨hi.lock_top hst (.head _), .inr ⟨status, ps, rest, ?_⟩⟩
      rw [hst', hn]
      rfl
    · -- the slot that `fork` is filling is no zombie
      have hused := hi.claimed (x := ⟨x, .used, true⟩) hst rfl
      rw [show (s.sh.proc x).state = .used from hused] at hz
      cases hz

/-- `wait_lock` has one holder. -/
theorem wait_unique {c d : C} {p : Fin N} (hc : s.lock .wait = some c) (hd : s.lock .wait = some d)
    (hon : s.on d = some p) : s.tid c = .proc p := by
  have hcd : c = d := Option.some.inj (hc.symm.trans hd)
  rw [hcd]
  exact Sys.tid_of_some hon

/-- While a process holds `wait_lock`, no other thread gives anybody a zombie child. -/
theorem kid_other (hi : Inv s) {d : C} {p : Fin N} (hon : s.on d = some p) (hlk : s.lock .wait = some d)
    (hslots : Elsewhere k s ev u p) {q x : Fin N} (hkid : Kid u.sh q x) : Kid s.sh q x := by
  rcases hslots with ⟨e, -⟩ | ⟨c, st, st', hne, hst, hloc⟩
  · exact ⟨e ▸ hkid.1, e ▸ hkid.2⟩
  · rcases kid_step hi hst hloc hkid with h | ⟨hc, -⟩
    · exact h
    · exact absurd (wait_unique hc hlk hon) hne

variable {p : Fin N}

section

variable (h : WaitInv s) (hi : Inv s)
include h hi

section

variable (hc : Change k s ev u)
include hc

theorem WaitInv.scan_step (hcall : call (u.stack (.proc p)) = some f) (hf : f.unscanned = some ps)
    (x : Fin N) (hx : x ∉ ps) : ¬Kid u.sh p x := by
  cases call_cases hi hc hcall (by cases f <;> first | rfl | cases hf) with
  | above hcall hpar hz => exact fun hkid => h.scan hcall hf x hx ⟨hpar x ▸ hkid.1, hz x hkid.2⟩
  | fires c g next hg _ hcall hfire =>
    obtain ⟨hsh, qs, hqs, hshrink⟩ := unscanned_fires hfire hcall hf
    rw [hsh]
    by_cases hxqs : x ∈ qs
    · rcases hshrink x hxqs with hm | hno
      · exact absurd hm hx
      · exact hno
    · rcases hqs with hqs | rfl
      · exact h.scan hg hqs x hxqs
      · exact absurd (List.mem_finRange x) hxqs
  | other hcall' hslots =>
    by_cases hscan : ∃ addr, f = .waitScan addr false (procs N)
    · obtain ⟨addr, rfl⟩ := hscan
      cases hf
      exact absurd (List.mem_finRange x) hx
    · obtain ⟨d, hon, hlk⟩ := hi.wait_holder hcall' (wait_of_unscanned hf _) fun addr e => hscan ⟨addr, e⟩
      exact fun hkid => h.scan hcall' hf x hx (kid_other hi hon hlk hslots hkid)

theorem WaitInv.child_step (hcall : call (u.stack (.proc p)) = some f) (hf : f.child = some q)
    (hz : (u.sh.proc q).state = .zombie) : (u.sh.proc q).parent = some p := by
  cases call_cases hi hc hcall (by cases f <;> first | rfl | cases hf) with
  | above hcall hpar hzom =>
    rw [hpar]
    exact h.child hcall hf (hzom q hz)
  | fires c g next hg _ hcall hfire =>
    obtain ⟨hsh, hf' | hpar⟩ := child_fires hfire hcall hf
    · rw [hsh] at hz ⊢
      exact h.child hg hf' hz
    · rw [hsh]
      exact hpar
  | other hcall' hslots =>
    obtain ⟨d, hon, hlk⟩ := hi.wait_holder hcall'
      (by cases f <;> cases hf <;> simp [Frame.held]) (by rintro addr rfl; cases hf)
    rcases hslots.write q with e | ⟨c, g, rest, next, hst, hne, hw⟩
    · rw [e] at hz ⊢
      exact h.child hcall' hf hz
    · rcases wait_of_zombie_write hw hz (s.tid c).own with ⟨hpar, hz'⟩ | hheld
      · rw [hpar]
        exact h.child hcall' hf hz'
      · exact absurd (wait_unique (hi.lock_top hst hheld) hlk hon) hne

theorem WaitInv.asleep_step {r : Fin N} {lk : Lock N} {rest : List (Frame N)} (hst : u.stack (.proc p) = f :: rest)
    (hf : f = .sleep0 (.proc r) lk ∨ f = .sleep1 (.proc r) lk) : r = p ∧ lk = .wait ∧ ∀ x, ¬Kid u.sh p x := by
  rcases sleep_step hi hc hst hf with ⟨c, -, -, hsh, hcall⟩ | ⟨hst, -, hslots⟩
  · rw [hsh]
    rcases hcall with ⟨rest', hold⟩ | ⟨e, rfl, addr, rest', hold⟩ | ⟨a, l, e, -⟩
    · exact h.asleep hold (.inl rfl)
    · cases e
      exact ⟨rfl, rfl, fun x => h.scan (f := .waitKilled2 addr false) (by rw [hold]; rfl) rfl x (by simp)⟩
    · cases e
  · obtain ⟨hr, rfl, hno⟩ := h.asleep hst hf
    have hheld : Lock.wait ∈ heldStack [.proc p] (s.stack (.proc p)) := by
      rw [hst]
      rcases hf with rfl | rfl
      · exact .head _
      · exact .head _
    obtain ⟨d, hon, hlk⟩ := hi.on_of_held hheld (by simp)
    exact ⟨hr, rfl, fun x hkid => hno x (kid_other hi hon hlk hslots hkid)⟩

/-- Nobody goes to sleep in `wait` while another process holds `wait_lock`. -/
theorem WaitInv.waiting_back {p q : Fin N} {d : C} {f : Frame N} (hon : s.on d = some p) (hlk : s.lock .wait = some d)
    (hcall : call (s.stack (.proc p)) = some f) (hf : f.unscanned = none)
    (hw : Waiting u q (.proc q)) : Waiting s q (.proc q) := by
  rcases waiting_step hi hc hw with hs | ⟨c, lk, rest, hc', hst, -⟩
  · exact hs
  · obtain ⟨-, rfl, -⟩ := h.asleep hst (.inr rfl)
    have hlk' : s.lock .wait = some c := by
      rw [hi.locks.lock, Sys.tid_of_some hc', hst]
      exact .head _
    have ht := wait_unique hlk' hlk hon
    rw [Sys.tid_of_some hc'] at ht
    cases ht
    -- the caller of `sleep` with `wait_lock` is `wait`
    have hshape := hi.locks.shape (.proc p)
    rw [hst] at hshape
    obtain ⟨addr, hrest⟩ := hshape.2.1.2.2.2 rfl
    rw [hst, hrest] at hcall
    cases hcall
    cases hf

end

section

variable (hi' : Inv u) (hsl : SleepInv s) (hc : Change k s ev u)
include hi' hsl hc

theorem WaitInv.told_keep (hcall : call (s.stack (.proc p)) = some f)
    (hf : f.told = true) (hpar : (s.sh.proc p).parent = some q) (hw : Waiting u q (.proc q)) :
    Pending [.proc p] .wait (.proc q) q (u.stack (.proc p)) := by
  obtain ⟨d, hon, hlk⟩ := hi.wait_holder hcall (wait_of_told hf _) (by rintro addr rfl; cases hf)
  have hw' := h.waiting_back hi hc hon hlk hcall (by cases f <;> cases hf <;> rfl) hw
  have hp := h.told hcall hf hpar hw'
  have ht := Sys.tid_of_some hon
  obtain ⟨htid, hp'⟩ := pending_step hi hi' hsl hc (c := d) (fun r => by simp)
    (show Pending (s.tid d).own .wait (.proc q) q (s.stack (s.tid d)) by rw [ht]; exact hp) hw' hw
  rw [htid, ht] at hp'
  exact hp'

theorem WaitInv.told_step (hcall : call (u.stack (.proc p)) = some f)
    (hf : f.told = true) (hpar : (u.sh.proc p).parent = some q) (hw : Waiting u q (.proc q)) :
    Pending [.proc p] .wait (.proc q) q (u.stack (.proc p)) := by
  cases call_cases hi hc hcall (by cases f <;> first | rfl | cases hf) with
  | above hcall hparent => exact h.told_keep hi hi' hsl hc hcall hf (hparent p ▸ hpar) hw
  | fires c g next hg hst hcall hfire =>
    obtain ⟨hparent, hf' | ⟨status, hnext⟩⟩ := told_fires hfire hcall hf
    · exact h.told_keep hi hi' hsl hc hg hf' (hparent ▸ hpar) hw
    · rw [hst, hnext, ← hparent, hpar]
      exact .inl ⟨⟨rfl, List.mem_finRange q⟩, .head _⟩
  | other hcall' hslots =>
    refine h.told_keep hi hi' hsl hc hcall' hf ?_ hw
    obtain ⟨d, hon, hlk⟩ := hi.wait_holder hcall' (wait_of_told hf _) (by rintro addr rfl; cases hf)
    rcases hslots.write p with e | ⟨c, g, rest, next, hst, hne, hwr⟩
    · exact e ▸ hpar
    · rcases wait_of_parent_write hwr (s.tid c).own with e | hheld | rfl
      · exact e ▸ hpar
      · exact absurd (wait_unique (hi.lock_top hst hheld) hlk hon) hne
      · exact absurd hon (hi.cpus.not_on (.inr (hi.forkFail_used hst)) d)

theorem WaitInv.woken_step {x : Fin N} (hw : Waiting u q (.proc q)) (hkid : Kid u.sh q x) :
    ∃ c, Pending (u.tid c).own .wait (.proc q) q (u.stack (u.tid c)) := by
  rcases waiting_step hi hc hw with hs | ⟨c, lk, rest, -, hst, hsh⟩
  · -- the child was there before: the promise is kept
    have hold : Kid s.sh q x → ∃ c, Pending (u.tid c).own .wait (.proc q) q (u.stack (u.tid c)) := by
      intro hkid'
      obtain ⟨c, hp⟩ := h.woken hs hkid'
      exact ⟨c, (pending_step hi hi' hsl hc (by simp) hp hs hw).2⟩
    rcases hc.quiet_or with ⟨e, -⟩ | ⟨c, st, st', hst, hloc, hstack, hon⟩
    · exact hold ⟨e ▸ hkid.1, e ▸ hkid.2⟩
    · rcases kid_step hi hst hloc hkid with hkid' | ⟨-, ⟨ht, ⟨status, hst'⟩, hpar⟩ | ⟨status, ps, rest, hst'⟩⟩
      · exact hold hkid'
      · -- the child exits now, and has woken its parent before
        rw [ht, hst'] at hst
        have hp := h.told (f := .exit4 status) (by rw [hst]; rfl) rfl hpar hs
        rw [hst] at hp
        rcases hp with hp | ⟨-, hp | ⟨-, hp⟩⟩
        · exact hp.1.elim
        · exact hp.1.elim
        · exact hp.elim
      · -- the child is given to `initproc`, which is woken next
        refine ⟨c, ?_⟩
        rw [Sys.tid_congr hon, hstack, update_self, hst']
        refine .inl ⟨⟨rfl, List.mem_finRange q⟩, ?_⟩
        exact .head _
  · -- who goes to sleep now has no zombie child
    rw [hsh] at hkid
    exact absurd hkid ((h.asleep hst (.inr rfl)).2.2 x)

theorem WaitInv.step : WaitInv u :=
  ⟨fun hcall hf => h.scan_step hi hc hcall hf, fun hcall hf hz => h.child_step hi hc hcall hf hz,
    fun hst hf => h.asleep_step hi hc hst hf,
    fun hcall hf hpar hw => h.told_step hi hi' hsl hc hcall hf hpar hw,
    fun hw hkid => h.woken_step hi hi' hsl hc hw hkid⟩

end

end

end Machine

end Xv6.Sched
