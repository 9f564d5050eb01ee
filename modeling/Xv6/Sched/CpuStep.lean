import Xv6.Sched.Cpu

/-!
# Steps keep CPUs, process states and threads in agreement

One lemma for each way a step can touch what `CpuInv` speaks about: a thread changes its stack, a
process its own state, a thread the state of an idle process, a scheduler goes on with the process it
is concerned with, and the three `swtch`-like steps. `Inv.step` is their sum.
-/

set_option autoImplicit false
set_option linter.unusedSectionVars false

namespace Xv6.Sched

variable {N : Nat} {C : Type}

/-- What the new stack `st` of the thread on CPU `c` may say about the slot it fills, the states of the
processes being `state`. -/
def Claims (s : Sys N C) (c : C) (state : Fin N → Procstate) (st : List (Frame N)) : Prop :=
  ∀ {x}, creating st = some x →
    (state x.slot = x.state ∧
      (x.ready = true → s.saved x.slot = true ∧ s.stack (.proc x.slot) = [.forkret, .user])) ∧
    ∀ {p x'}, .proc p ≠ s.tid c → creating (s.stack (.proc p)) = some x' → x'.slot ≠ x.slot

/-- What the present stack says is true. -/
theorem CpuInv.claims {s : Sys N C} {c : C} (h : CpuInv s) {st : List (Frame N)}
    (hst : creating st = creating (s.stack (s.tid c))) (hme : (s.tid c).me ≠ none) :
    Claims s c (fun p => (s.sh.proc p).state) st := by
  intro x hx
  obtain ⟨p, -, htid⟩ := Sys.exists_on hme
  rw [hst, htid] at hx
  refine ⟨h.claim hx, fun {p' x'} hp' hx' e => ?_⟩
  have hpp : p = p' := h.creator hx hx' e.symm
  rw [htid, hpp] at hp'
  exact hp' rfl

variable {p : Fin N}

/-- Slots that are being filled are not the slots of processes on a CPU. -/
theorem CpuInv.slot_not_on {s : Sys N C} (h : CpuInv s) {x : Creation N}
    (hx : creating (s.stack (.proc p)) = some x) (d : C) : s.on d ≠ some x.slot := by
  refine h.not_on ?_ d
  rw [(h.claim hx).1]
  exact creating_state hx

section Steps

variable [DecidableEq C] {s u : Sys N C} {c : C} {st : List (Frame N)}

/-- A thread on a CPU changes its stack. The state of a process stays, unless it is that thread's own
process, or one that is idle. -/
theorem CpuInv.update (h : CpuInv s) (hl : LockInv s)
    (hcpu : u.sh.cpu = s.sh.cpu) (hon : u.on = s.on) (hsaved : u.saved = s.saved)
    (hstack : u.stack = Function.update s.stack (s.tid c) st)
    (hpos : (s.tid c).me = none → pos st = pos (s.stack (s.tid c)))
    (htop : ∀ p, s.on c = some p → (u.sh.proc p).state = topState st)
    (hstate : ∀ q, (u.sh.proc q).state = (s.sh.proc q).state ∨ (s.on c = some q ∧ (u.sh.proc q).state ≠ .running) ∨
      ((∀ d, s.on d ≠ some q) ∧ (∀ d a, pos (s.stack (.cpu d)) ≠ some (a, q)) ∧
        (u.sh.proc q).state ≠ .running ∧ Parked (s.saved q) (s.stack (.proc q)) (u.sh.proc q).state))
    (hmine : (s.tid c).me ≠ none → Claims s c (fun p => (u.sh.proc p).state) st)
    (hothers : ∀ {p x}, .proc p ≠ s.tid c → creating (s.stack (.proc p)) = some x →
      (u.sh.proc x.slot).state = x.state) : CpuInv u := by
  have hposAll : ∀ d, pos (u.stack (.cpu d)) = pos (s.stack (.cpu d)) := by
    intro d
    rw [hstack]
    by_cases hd : Tid.cpu d = s.tid c
    · rw [hd, Function.update_self]
      exact hpos (by rw [← hd]; rfl)
    · rw [Function.update_of_ne hd]
  have hoff : ∀ p, (∀ d, s.on d ≠ some p) → u.stack (.proc p) = s.stack (.proc p) := by
    intro p hp
    rw [hstack, Function.update_of_ne]
    intro e
    exact hp c (Sys.on_of_tid e.symm)
  -- the state of a process that is chosen, has left, or is idle is what it was
  have hkeep : ∀ p, (s.on c ≠ some p) → (∃ d a, pos (s.stack (.cpu d)) = some (a, p)) →
      (u.sh.proc p).state = (s.sh.proc p).state := by
    rintro p hp ⟨d, a, hd⟩
    rcases hstate p with he | ⟨hc, -⟩ | ⟨-, hno, -, -⟩
    · exact he
    · exact absurd hc hp
    · exact absurd hd (hno d a)
  have hnotc : ∀ {d a p}, pos (s.stack (.cpu d)) = some (a, p) → a ≠ .back ∨ s.on d = none → s.on c ≠ some p := by
    intro d a p hd ha hc
    have hcd : d = c := h.engaged hd (hl.pos_of_on hc)
    subst hcd
    rcases ha with ha | ha
    · rw [hl.pos_of_on hc] at hd
      cases hd
      exact ha rfl
    · rw [ha] at hc
      cases hc
  have hme : ∀ {p}, Tid.proc p = s.tid c → (s.tid c).me ≠ none := by
    intro p hp
    rw [← hp]
    simp
  constructor
  · intro d p
    rw [hcpu, hposAll]
    exact h.cpu d p
  · intro d d' a b p h1 h2
    rw [hposAll] at h1 h2
    exact h.engaged h1 h2
  · intro d a p hd ha
    rw [hposAll] at hd
    rw [hkeep p (hnotc hd (.inl ha)) ⟨d, a, hd⟩]
    exact h.picked hd ha
  · intro d p hd hp
    rw [hon] at hd
    rw [hposAll] at hp
    rw [hkeep p (hnotc hp (.inr hd)) ⟨d, _, hp⟩]
    exact h.left hd hp
  · intro d p hd
    rw [hon] at hd
    by_cases hdc : d = c
    · subst hdc
      rw [htop p hd, hstack, Sys.tid_of_some hd, Function.update_self]
    · have hne : Tid.proc p ≠ s.tid c := by
        intro e
        exact hdc (hl.unique hd (Sys.on_of_tid e.symm))
      rw [hstack, Function.update_of_ne hne, ← h.run hd]
      exact hkeep p (fun hc => hdc (hl.unique hd hc)) ⟨d, _, hl.pos_of_on hd⟩
  · intro p hp
    rcases hstate p with he | ⟨-, hn⟩ | ⟨-, -, hn, -⟩
    · rw [he]
      exact h.off fun d a => hposAll d ▸ hp d a
    · exact hn
    · exact hn
  · intro p hp
    rw [hon] at hp
    rw [hsaved, hoff p hp]
    rcases hstate p with he | ⟨hc, -⟩ | ⟨-, -, -, hpark⟩
    · rw [he]
      exact h.parked hp
    · exact absurd hc (hp c)
    · exact hpark
  · intro p x hx
    rw [hstack] at hx
    rw [hsaved]
    by_cases hp : Tid.proc p = s.tid c
    · rw [hp, Function.update_self] at hx
      obtain ⟨⟨hst, hready⟩, -⟩ := hmine (hme hp) hx
      refine ⟨hst, fun hr => ⟨(hready hr).1, ?_⟩⟩
      rw [hoff _ fun d => ?_]
      · exact (hready hr).2
      · intro hd
        rw [hl.live hd] at hready
        exact absurd (hready hr).1 (by simp)
    · rw [Function.update_of_ne hp] at hx
      refine ⟨hothers hp hx, fun hr => ⟨((h.claim hx).2 hr).1, ?_⟩⟩
      rw [hoff _ (h.slot_not_on hx)]
      exact ((h.claim hx).2 hr).2
  · intro p p' x x' hx hx' e
    rw [hstack] at hx hx'
    by_cases hp : Tid.proc p = s.tid c
    · by_cases hp' : Tid.proc p' = s.tid c
      · have hpp := hp.trans hp'.symm
        cases hpp
        rfl
      · rw [hp, Function.update_self] at hx
        rw [Function.update_of_ne hp'] at hx'
        exact absurd e.symm ((hmine (hme hp) hx).2 hp' hx')
    · rw [Function.update_of_ne hp] at hx
      by_cases hp' : Tid.proc p' = s.tid c
      · rw [hp', Function.update_self] at hx'
        exact absurd e ((hmine (hme hp') hx').2 hp hx)
      · rw [Function.update_of_ne hp'] at hx'
        exact h.creator hx hx' e

/-- A step that changes no state and neither `c->proc` nor the CPU of any thread. -/
theorem CpuInv.quiet (h : CpuInv s) (hl : LockInv s)
    (hstate : ∀ q, (u.sh.proc q).state = (s.sh.proc q).state) (hcpu : u.sh.cpu = s.sh.cpu)
    (hon : u.on = s.on) (hsaved : u.saved = s.saved) (hstack : u.stack = Function.update s.stack (s.tid c) st)
    (htop : topState st = topState (s.stack (s.tid c))) (hpos : (s.tid c).me = none → pos st = pos (s.stack (s.tid c)))
    (hmine : (s.tid c).me ≠ none → Claims s c (fun p => (s.sh.proc p).state) st) : CpuInv u := by
  refine h.update hl hcpu hon hsaved hstack hpos ?_ (fun q => .inl (hstate q)) ?_ ?_
  · intro p hp
    rw [hstate, htop, Sys.tid_of_some hp]
    exact h.run hp
  · intro hme
    simp only [hstate]
    exact hmine hme
  · intro p x _ hx
    rw [hstate]
    exact (h.claim hx).1

variable {q : Fin N}

/-- Nobody fills the slot of a process that is neither unused nor being set up. -/
theorem CpuInv.not_claimed (h : CpuInv s) {x : Creation N}
    (hx : creating (s.stack (.proc p)) = some x) (hu : (s.sh.proc q).state ≠ .unused)
    (hd : (s.sh.proc q).state ≠ .used) : x.slot ≠ q := by
  rintro rfl
  rw [(h.claim hx).1] at hu hd
  rcases creating_state hx with e | e
  · exact hu e
  · exact hd e

theorem setProc_state (sh : Shared N C) (q : Fin N) (x : Proc N) (p : Fin N) :
    ((sh.setProc q x).proc p).state = if p = q then x.state else (sh.proc p).state := by
  by_cases hp : p = q
  · subst hp
    simp [Shared.setProc]
  · simp [Shared.setProc, hp]

variable {x : Proc N}

section

variable (h : CpuInv s) (hl : LockInv s)
include h hl

/-- A process changes its own state. -/
theorem CpuInv.writeOwn (hme : (s.tid c).me = some q) (hold : topState (s.stack (s.tid c)) = .running)
    (hnew : x.state = topState st) (hne : x.state ≠ .running) (hcre : creating st = creating (s.stack (s.tid c))) :
    CpuInv ((s.setShared (s.sh.setProc q x)).setStack (s.tid c) st) := by
  have hon := on_of_me hme
  have htid := Sys.tid_of_some hon
  have hrun : (s.sh.proc q).state = .running := by rw [h.run hon, ← htid, hold]
  have hslot : ∀ {p y}, creating (s.stack (.proc p)) = some y → y.slot ≠ q :=
    fun hy => h.not_claimed hy (by simp [hrun]) (by simp [hrun])
  refine h.update (c := c) hl rfl rfl rfl rfl ?_ ?_ ?_ ?_ ?_
  · intro hno
    rw [hme] at hno
    cases hno
  · intro p hp
    rw [hon] at hp
    cases hp
    simp [setProc_state, hnew]
  · intro p
    by_cases hp : p = q
    · subst hp
      exact .inr (.inl ⟨hon, by simpa [setProc_state] using hne⟩)
    · exact .inl (by simp [setProc_state, hp])
  · intro _ y hy
    obtain ⟨⟨hst, hready⟩, huniq⟩ := h.claims hcre (by simp [hme]) hy
    have hyq : y.slot ≠ q := by
      rw [hcre, htid] at hy
      exact hslot hy
    exact ⟨⟨by simpa [setProc_state, hyq] using hst, hready⟩, huniq⟩
  · intro p y _ hy
    simpa [setProc_state, hslot hy] using (h.claim hy).1

/-- A thread changes the state of an idle process. -/
theorem CpuInv.writeIdle (hold : (s.sh.proc q).state ≠ .running) (hset : Settled (s.stack (s.tid c)))
    (hlk : Lock.proc q ∈ heldStack (s.tid c).own (s.stack (s.tid c))) (hnew : x.state ≠ .running)
    (hpark : (∀ d, s.on d ≠ some q) → Parked (s.saved q) (s.stack (.proc q)) x.state)
    (htop : topState st = .running) (hpos : (s.tid c).me = none → pos st = none)
    (hmine : (s.tid c).me ≠ none → Claims s c (fun p => ((s.sh.setProc q x).proc p).state) st)
    (hothers : ∀ {p y}, .proc p ≠ s.tid c → creating (s.stack (.proc p)) = some y → y.slot ≠ q) :
    CpuInv ((s.setShared (s.sh.setProc q x)).setStack (s.tid c) st) := by
  obtain ⟨hoff, hfree⟩ := h.idle hl ((hl.lock _ c).2 hlk) hold (topState_of_settled hset) (by
    intro hon a
    rw [← Sys.tid_of_none hon, pos_of_settled hset]
    simp)
  refine h.update (c := c) hl rfl rfl rfl rfl ?_ ?_ ?_ hmine ?_
  · intro hno
    rw [hpos hno, pos_of_settled hset]
  · intro p hp
    have hpq : p ≠ q := by
      rintro rfl
      exact hoff c hp
    have hrun := h.run hp
    rw [← Sys.tid_of_some hp, topState_of_settled hset] at hrun
    simpa [setProc_state, hpq, htop] using hrun
  · intro p
    by_cases hp : p = q
    · subst hp
      refine .inr (.inr ⟨hoff, hfree, ?_, ?_⟩)
      · simpa [setProc_state] using hnew
      · simpa [setProc_state] using hpark hoff
    · exact .inl (by simp [setProc_state, hp])
  · intro p y hp hy
    simpa [setProc_state, hothers hp hy] using (h.claim hy).1

/-- A sleeping process is woken, or a zombie is freed. -/
theorem CpuInv.writeOther (hchange : (x.state = .runnable ∧ (s.sh.proc q).state = .sleeping) ∨
      (x.state = .unused ∧ (s.sh.proc q).state = .zombie)) (hset : Settled (s.stack (s.tid c)))
    (hlk : Lock.proc q ∈ heldStack (s.tid c).own (s.stack (s.tid c)))
    (htop : topState st = .running) (hpos : (s.tid c).me = none → pos st = none)
    (hcre : creating st = creating (s.stack (s.tid c))) :
    CpuInv ((s.setShared (s.sh.setProc q x)).setStack (s.tid c) st) := by
  have hslot : ∀ {p y}, creating (s.stack (.proc p)) = some y → y.slot ≠ q := by
    intro p y hy
    refine h.not_claimed hy ?_ ?_
    · rcases hchange with ⟨-, e⟩ | ⟨-, e⟩ <;> simp [e]
    · rcases hchange with ⟨-, e⟩ | ⟨-, e⟩ <;> simp [e]
  refine h.writeIdle hl ?_ hset hlk ?_ ?_ htop hpos ?_ ?_
  · rcases hchange with ⟨-, e⟩ | ⟨-, e⟩ <;> simp [e]
  · rcases hchange with ⟨e, -⟩ | ⟨e, -⟩ <;> simp [e]
  · intro hoff
    have hpark := h.parked hoff
    rcases hchange with ⟨e, e'⟩ | ⟨e, e'⟩
    · rw [e'] at hpark
      obtain ⟨hsv, ch, lk, rest, hst⟩ := hpark
      rw [e]
      exact ⟨hsv, _, rest, hst, by simp, rfl⟩
    · rw [e'] at hpark
      obtain ⟨hsv, rest, hst⟩ := hpark
      have hshape := hl.shape (.proc q)
      rw [hst] at hshape
      obtain ⟨-, hrest⟩ := hshape.2.1
      rw [e, hst, hrest]
      trivial
  · intro hme y hy
    obtain ⟨⟨hst, hready⟩, huniq⟩ := h.claims hcre hme hy
    have hyq : y.slot ≠ q := by
      obtain ⟨p, -, htid⟩ := Sys.exists_on hme
      rw [hcre, htid] at hy
      exact hslot hy
    exact ⟨⟨by simpa [setProc_state, hyq] using hst, hready⟩, huniq⟩
  · intro p y _ hy
    exact hslot hy

/-- `fork` changes the state of the slot it fills. -/
theorem CpuInv.writeSlot {y : Creation N} (hon : s.on c = some p) (hy : creating (s.stack (.proc p)) = some y)
    (hset : Settled (s.stack (.proc p))) (hlk : Lock.proc y.slot ∈ heldStack [.proc p] (s.stack (.proc p)))
    (htop : topState st = .running) (hnew : (x.state = .used ∧ creating st = some ⟨y.slot, .used, false⟩) ∨
      (x.state = .unused ∧ creating st = none) ∨ (x.state = .runnable ∧ creating st = none ∧ y.ready = true)) :
    CpuInv ((s.setShared (s.sh.setProc y.slot x)).setStack (.proc p) st) := by
  have htid := Sys.tid_of_some hon
  obtain ⟨hstate, hready⟩ := h.claim hy
  have huniq : ∀ {p' y'}, .proc p' ≠ s.tid c → creating (s.stack (.proc p')) = some y' → y'.slot ≠ y.slot := by
    intro p' y' hp' hy' e
    rw [htid, h.creator hy hy' e.symm] at hp'
    exact hp' rfl
  have hu := creating_state hy
  rw [← htid]
  rw [← htid] at hset hlk
  refine h.writeIdle hl ?_ hset (by rw [htid]; rw [htid] at hlk; exact hlk) ?_ ?_ htop ?_ ?_ huniq
  · rw [hstate]
    rcases hu with e | e <;> simp [e]
  · rcases hnew with ⟨e, -⟩ | ⟨e, -⟩ | ⟨e, -⟩ <;> simp [e]
  · intro hoff
    have hpark := h.parked hoff
    rw [hstate] at hpark
    rcases hnew with ⟨e, -⟩ | ⟨e, -⟩ | ⟨e, -, hr⟩
    · rw [e]
      rcases hu with e' | e' <;> rw [e'] at hpark <;> exact hpark
    · rw [e]
      rcases hu with e' | e' <;> rw [e'] at hpark <;> exact hpark
    · obtain ⟨hsv, hst⟩ := hready hr
      rw [e]
      exact ⟨hsv, _, _, hst, by simp, rfl⟩
  · intro hno
    rw [htid] at hno
    cases hno
  · intro _ y' hy'
    rcases hnew with ⟨e, hc⟩ | ⟨-, hc⟩ | ⟨-, hc, -⟩
    · rw [hc] at hy'
      cases hy'
      exact ⟨⟨by simpa [setProc_state] using e, by simp⟩, huniq⟩
    · rw [hc] at hy'
      cases hy'
    · rw [hc] at hy'
      cases hy'

end

/-- The scheduler of `c` goes on with the process it is concerned with, or chooses one. -/
theorem CpuInv.schedule (h : CpuInv s) (huon : u.on = s.on) (husaved : u.saved = s.saved)
    (hstack : u.stack = Function.update s.stack (.cpu c) st)
    (hstate : ∀ p, p ≠ q → (u.sh.proc p).state = (s.sh.proc p).state)
    (hcpu : ∀ d p, d ≠ c → (u.sh.cpu d = some p ↔ s.sh.cpu d = some p))
    (hcpuc : ∀ p, u.sh.cpu c = some p ↔ pos st = some (.switch, p) ∨ pos st = some (.back, p))
    (hposq : ∀ a p, pos st = some (a, p) → p = q ∧ a ≠ .back)
    (hidle : (∀ d, s.on d ≠ some q) ∧ ∀ d a, d ≠ c → pos (s.stack (.cpu d)) ≠ some (a, q))
    (holdq : ∀ a p, pos (s.stack (.cpu c)) = some (a, p) → p = q)
    (hq : (pos st = none ∧ (u.sh.proc q).state ≠ .running) ∨ (pos st ≠ none ∧ (u.sh.proc q).state = .running))
    (hpark : Parked (s.saved q) (s.stack (.proc q)) (u.sh.proc q).state)
    (hfill : ∀ {p y}, creating (s.stack (.proc p)) = some y → y.slot ≠ q) : CpuInv u := by
  have hself : u.stack (.cpu c) = st := by rw [hstack, Function.update_self]
  have hother : ∀ t, t ≠ .cpu c → u.stack t = s.stack t := by
    intro t ht
    rw [hstack, Function.update_of_ne ht]
  have hcpuOther : ∀ d, d ≠ c → u.stack (.cpu d) = s.stack (.cpu d) := fun d hd =>
    hother _ (by simpa using hd)
  have hproc : ∀ p, u.stack (.proc p) = s.stack (.proc p) := fun p => hother _ (by simp)
  constructor
  · intro d p
    by_cases hd : d = c
    · subst hd
      rw [hself]
      exact hcpuc p
    · rw [hcpu d p hd, hcpuOther d hd]
      exact h.cpu d p
  · intro d d' a b p h1 h2
    by_cases hd : d = c
    · by_cases hd' : d' = c
      · rw [hd, hd']
      · rw [hd, hself] at h1
        rw [hcpuOther d' hd', (hposq a p h1).1] at h2
        exact absurd h2 (hidle.2 d' b hd')
    · rw [hcpuOther d hd] at h1
      by_cases hd' : d' = c
      · rw [hd', hself] at h2
        rw [(hposq b p h2).1] at h1
        exact absurd h1 (hidle.2 d a hd)
      · rw [hcpuOther d' hd'] at h2
        exact h.engaged h1 h2
  · intro d a p hd ha
    by_cases hdc : d = c
    · rw [hdc, hself] at hd
      rw [(hposq a p hd).1]
      rcases hq with ⟨hnone, -⟩ | ⟨-, hrun⟩
      · rw [hnone] at hd
        cases hd
      · exact hrun
    · rw [hcpuOther d hdc] at hd
      have hpq : p ≠ q := by
        rintro rfl
        exact hidle.2 d a hdc hd
      rw [hstate p hpq]
      exact h.picked hd ha
  · intro d p hd hp
    rw [huon] at hd
    by_cases hdc : d = c
    · rw [hdc, hself] at hp
      exact absurd rfl (hposq _ p hp).2
    · rw [hcpuOther d hdc] at hp
      have hpq : p ≠ q := by
        rintro rfl
        exact hidle.2 d _ hdc hp
      rw [hstate p hpq]
      exact h.left hd hp
  · intro d p hd
    rw [huon] at hd
    have hpq : p ≠ q := by
      rintro rfl
      exact hidle.1 d hd
    rw [hstate p hpq, hproc]
    exact h.run hd
  · intro p hp
    by_cases hpq : p = q
    · subst hpq
      rcases hq with ⟨-, hn⟩ | ⟨hsome, -⟩
      · exact hn
      · cases hst : pos st with
        | none => exact absurd hst hsome
        | some y =>
          obtain ⟨a, p'⟩ := y
          have hp' := (hposq a p' hst).1
          subst hp'
          exact absurd (by rw [hself]; exact hst) (hp c a)
    · rw [hstate p hpq]
      refine h.off fun d a hd => ?_
      by_cases hdc : d = c
      · rw [hdc] at hd
        exact hpq (holdq a p hd)
      · exact hp d a (by rw [hcpuOther d hdc]; exact hd)
  · intro p hp
    rw [huon] at hp
    rw [husaved, hproc]
    by_cases hpq : p = q
    · subst hpq
      exact hpark
    · rw [hstate p hpq]
      exact h.parked hp
  · intro p y hy
    rw [hproc] at hy
    rw [hstate _ (hfill hy), husaved, hproc]
    exact h.claim hy
  · intro p p' y y' hy hy' e
    rw [hproc] at hy hy'
    exact h.creator hy hy' e

/-- A process a scheduler is concerned with is on no CPU and no other scheduler's concern. -/
theorem CpuInv.alone (h : CpuInv s) (hl : LockInv s) (hon : s.on c = none) {a : Pos}
    (hpos : pos (s.stack (.cpu c)) = some (a, q)) :
    (∀ d, s.on d ≠ some q) ∧ ∀ d b, d ≠ c → pos (s.stack (.cpu d)) ≠ some (b, q) := by
  refine ⟨fun d hd => ?_, fun d b hdc hd => hdc (h.engaged hd hpos)⟩
  have hdc : d = c := h.engaged (hl.pos_of_on hd) hpos
  rw [hdc, hon] at hd
  cases hd

variable {ps : List (Fin N)}

section

variable (h : CpuInv s) (hl : LockInv s)
include h hl

theorem CpuInv.pick (hon : s.on c = none) (hst : s.stack (.cpu c) = [.pick q ps])
    (hold : (s.sh.proc q).state = .runnable) (hnew : x.state = .running) :
    CpuInv ((s.setShared (s.sh.setProc q x)).setStack (.cpu c) [.assign q ps]) := by
  have hlk : s.lock (.proc q) = some c := by
    rw [hl.lock, Sys.tid_of_none hon, hst]
    exact .head _
  have hpos : pos (s.stack (.cpu c)) = none := by rw [hst]; rfl
  obtain ⟨hoff, hfree⟩ := h.idle hl hlk (by simp [hold])
    (by rw [Sys.tid_of_none hon, hst]; rfl) (fun _ a => by simp [hpos])
  have hpark := h.parked hoff
  rw [hold] at hpark
  refine h.schedule rfl rfl rfl ?_ ?_ ?_ ?_ ⟨hoff, fun d a _ => hfree d a⟩ ?_ ?_ ?_ ?_
  · intro p hp
    simp [setProc_state, hp]
  · intro d p _
    exact Iff.rfl
  · intro p
    simp only [Sys.setStack_sh, Sys.setShared_sh, pos, Shared.setProc]
    rw [h.cpu, hpos]
    simp
  · intro a p ha
    cases ha
    exact ⟨rfl, by simp⟩
  · simp [hpos]
  · exact .inr ⟨by simp [pos], by simpa [setProc_state] using hnew⟩
  · simp only [Sys.setStack_sh, Sys.setShared_sh, setProc_state, if_true, hnew]
    exact hpark
  · intro p y hy
    exact h.not_claimed hy (by simp [hold]) (by simp [hold])

theorem CpuInv.assign (hon : s.on c = none) (hst : s.stack (.cpu c) = [.assign q ps]) :
    CpuInv ((s.setShared (s.sh.setCpu c (some q))).setStack (.cpu c) [.switch q ps]) := by
  have hpos : pos (s.stack (.cpu c)) = some (.assign, q) := by rw [hst]; rfl
  have hrun := h.picked hpos (by simp)
  have halone := h.alone hl hon hpos
  refine h.schedule rfl rfl rfl (fun _ _ => rfl) ?_ ?_ ?_ halone ?_ ?_ ?_ ?_
  · intro d p hd
    simp [Shared.setCpu, hd]
  · intro p
    simp [Shared.setCpu, pos]
  · intro a p ha
    cases ha
    exact ⟨rfl, by simp⟩
  · intro a p ha
    rw [hpos] at ha
    cases ha
    rfl
  · exact .inr ⟨by simp [pos], hrun⟩
  · exact h.parked halone.1
  · intro p y hy
    exact h.not_claimed hy (by simp [hrun]) (by simp [hrun])

theorem CpuInv.back (hon : s.on c = none) (hst : s.stack (.cpu c) = [.back q ps]) :
    CpuInv ((s.setShared (s.sh.setCpu c none)).setStack (.cpu c) [.drop q ps]) := by
  have hpos : pos (s.stack (.cpu c)) = some (.back, q) := by rw [hst]; rfl
  have hleft := h.left hon hpos
  have halone := h.alone hl hon hpos
  refine h.schedule rfl rfl rfl (fun _ _ => rfl) ?_ ?_ ?_ halone ?_ ?_ ?_ ?_
  · intro d p hd
    simp [Shared.setCpu, hd]
  · intro p
    simp [Shared.setCpu, pos]
  · intro a p ha
    cases ha
  · intro a p ha
    rw [hpos] at ha
    cases ha
    rfl
  · refine .inl ⟨rfl, ?_⟩
    show (s.sh.proc q).state ≠ .running
    rcases hleft with e | e | e <;> simp [e]
  · exact h.parked halone.1
  · intro p y hy
    refine h.not_claimed hy ?_ ?_
    · rcases hleft with e | e | e <;> simp [e]
    · rcases hleft with e | e | e <;> simp [e]

/-- A change of context that concerns process `p` only. A scheduler may hand its CPU over to the process
it has chosen. -/
theorem CpuInv.swtch (hsh : u.sh = s.sh)
    (hpos : ∀ d, pos (u.stack (.cpu d)) = pos (s.stack (.cpu d)) ∨ ∃ q, pos (s.stack (.cpu d)) = some (.switch, q) ∧
      pos (u.stack (.cpu d)) = some (.back, q) ∧ u.on d = some q)
    (hother : ∀ {q}, q ≠ p → (∀ d, u.on d = some q ↔ s.on d = some q) ∧ u.saved q = s.saved q ∧
      u.stack (.proc q) = s.stack (.proc q))
    (hleft : ∀ {d}, u.on d = none → pos (u.stack (.cpu d)) = some (.back, p) → (s.sh.proc p).state = .runnable ∨
      (s.sh.proc p).state = .sleeping ∨ (s.sh.proc p).state = .zombie)
    (hrun : ∀ {d}, u.on d = some p → (s.sh.proc p).state = topState (u.stack (.proc p)))
    (hpark : (∀ d, u.on d ≠ some p) → Parked (u.saved p) (u.stack (.proc p)) (s.sh.proc p).state)
    (hcre : creating (u.stack (.proc p)) = creating (s.stack (.proc p)))
    (hslot : ∀ {q y}, creating (s.stack (.proc q)) = some y → y.ready = true → y.slot ≠ p) : CpuInv u := by
  have hback : ∀ {d a q}, pos (u.stack (.cpu d)) = some (a, q) → pos (s.stack (.cpu d)) = some (a, q) ∨
      (pos (s.stack (.cpu d)) = some (.switch, q) ∧ a = .back ∧ u.on d = some q) := by
    intro d a q hd
    rcases hpos d with e | ⟨q', hs, hu, hon⟩
    · exact .inl (e ▸ hd)
    · rw [hu] at hd
      cases hd
      exact .inr ⟨hs, rfl, hon⟩
  have hwho : ∀ {d a q}, pos (u.stack (.cpu d)) = some (a, q) → ∃ b, pos (s.stack (.cpu d)) = some (b, q) := by
    intro d a q hd
    rcases hback hd with e | ⟨e, -⟩
    · exact ⟨a, e⟩
    · exact ⟨_, e⟩
  have hcreAll : ∀ q, creating (u.stack (.proc q)) = creating (s.stack (.proc q)) := by
    intro q
    by_cases hq : q = p
    · rw [hq, hcre]
    · rw [(hother hq).2.2]
  constructor
  · intro d q
    rw [hsh, h.cpu]
    rcases hpos d with e | ⟨q', hs, hu, -⟩
    · rw [e]
    · simp [hs, hu]
  · intro d d' a b q hd hd'
    obtain ⟨_, h₁⟩ := hwho hd
    obtain ⟨_, h₂⟩ := hwho hd'
    exact h.engaged h₁ h₂
  · intro d a q hd ha
    rw [hsh]
    rcases hback hd with e | ⟨-, e, -⟩
    · exact h.picked e ha
    · exact absurd e ha
  · intro d q hd hq
    rw [hsh]
    by_cases hqp : q = p
    · subst hqp
      exact hleft hd hq
    · rcases hback hq with e | ⟨-, -, hon⟩
      · refine h.left ?_ e
        cases hs : s.on d with
        | none => rfl
        | some r =>
          rw [hl.pos_of_on hs] at e
          cases e
          rw [((hother hqp).1 d).2 hs] at hd
          cases hd
      · rw [hd] at hon
        cases hon
  · intro d q hd
    rw [hsh]
    by_cases hqp : q = p
    · subst hqp
      exact hrun hd
    · rw [(hother hqp).2.2]
      exact h.run (((hother hqp).1 d).1 hd)
  · intro q hq
    rw [hsh]
    refine h.off fun d a hd => ?_
    rcases hpos d with e | ⟨q', hs, hu, -⟩
    · exact hq d a (e.trans hd)
    · rw [hs] at hd
      cases hd
      exact hq d _ hu
  · intro q hq
    rw [hsh]
    by_cases hqp : q = p
    · subst hqp
      exact hpark hq
    · rw [(hother hqp).2.1, (hother hqp).2.2]
      exact h.parked fun d hd => hq d (((hother hqp).1 d).2 hd)
  · intro q y hy
    rw [hcreAll] at hy
    rw [hsh]
    refine ⟨(h.claim hy).1, fun hr => ?_⟩
    obtain ⟨-, hsaved, hstack⟩ := hother (hslot hy hr)
    rw [hsaved, hstack]
    exact (h.claim hy).2 hr
  · intro q q' y y' hy hy' e
    rw [hcreAll] at hy hy'
    exact h.creator hy hy' e

/-- `swtch` into the chosen process. -/
theorem CpuInv.swtchTo (hon : s.on c = none) (hst : s.stack (.cpu c) = [.switch q ps]) :
    CpuInv (((s.setStack (.cpu c) [.back q ps]).setOn c (some q)).setSaved q false) := by
  have hpos : pos (s.stack (.cpu c)) = some (.switch, q) := by rw [hst]; rfl
  have hrun := h.picked hpos (by simp)
  have hpark := h.parked (h.alone hl hon hpos).1
  rw [hrun] at hpark
  obtain ⟨-, f, rest, hstq, -, hfrun⟩ := hpark
  refine h.swtch (p := q) hl rfl ?_ ?_ ?_ ?_ ?_ (by simp) ?_
  · intro d
    by_cases hd : d = c
    · subst hd
      exact .inr ⟨q, hpos, by simp [pos], by simp⟩
    · exact .inl (by simp [hd])
  · intro p hp
    refine ⟨fun d => ?_, by simp [hp], by simp⟩
    by_cases hd : d = c
    · subst hd
      simp [hon, Ne.symm hp]
    · simp [hd]
  · intro d hd hq
    have hdc : d ≠ c := by
      rintro rfl
      simp at hd
    exact absurd (h.engaged (by simpa [hdc] using hq) hpos) hdc
  · intro d _
    simp [hstq, hfrun, hrun]
  · intro hoff
    exact absurd (by simp) (hoff c)
  · intro p y hy _
    exact h.not_claimed hy (by simp [hrun]) (by simp [hrun])

end

/-- Where a process that has left its CPU will go on. -/
theorem parked_of_leaves {f next : Frame N} {rest : List (Frame N)} (h : Leaves f next) :
    Parked true (next :: rest) f.runState := by
  cases h with
  | yield => exact ⟨rfl, _, _, rfl, by simp, rfl⟩
  | sleep ch lk => exact ⟨rfl, ch, lk, rest, rfl⟩
  | exit => exact ⟨rfl, rest, rfl⟩

theorem creating_of_leaves {f next : Frame N} (rest : List (Frame N)) (h : Leaves f next) :
    creating (next :: rest) = creating (f :: rest) := by
  cases h <;> rfl

section

variable (h : CpuInv s) (hl : LockInv s)
include h hl

/-- `swtch` back to the scheduler. -/
theorem CpuInv.swtchBack {p : Fin N} {f next : Frame N}
    {rest : List (Frame N)} (hon : s.on c = some p) (hst : s.stack (.proc p) = f :: rest) (hleave : Leaves f next) :
    CpuInv (((s.setStack (.proc p) (next :: rest)).setOn c none).setSaved p true) := by
  have hrun := h.run hon
  rw [hst, topState_cons] at hrun
  have hrunState : f.runState = .runnable ∨ f.runState = .sleeping ∨ f.runState = .zombie := by
    cases hleave <;> simp [Frame.runState]
  rw [← hrun] at hrunState
  refine h.swtch (p := p) hl rfl (fun d => .inl (by simp)) ?_ (fun _ _ => hrunState) ?_ ?_ ?_ ?_
  · intro q hq
    refine ⟨fun d => ?_, by simp [hq], by simp [hq]⟩
    by_cases hd : d = c
    · subst hd
      simp [hon, Ne.symm hq]
    · simp [hd]
  · intro d hd
    have hdc : d ≠ c := by
      rintro rfl
      simp at hd
    exact absurd (hl.unique (by simpa [hdc] using hd) hon) hdc
  · intro _
    simpa [hrun] using parked_of_leaves hleave
  · simpa [hst] using creating_of_leaves rest hleave
  · intro q y hy _
    refine h.not_claimed hy ?_ ?_
    · rcases hrunState with e | e | e <;> simp [e]
    · rcases hrunState with e | e | e <;> simp [e]

/-- `allocproc` sets up the context of the slot it fills. -/
theorem CpuInv.context {rest : List (Frame N)}
    (hon : s.on c = some p) (hst : s.stack (.proc p) = .forkContext q :: rest) :
    CpuInv (((s.setStack (.proc p) (.forkCopy q :: rest)).setStack (.proc q) [.forkret, .user]).setSaved q true) := by
  have hcre : creating (s.stack (.proc p)) = some ⟨q, .used, false⟩ := by
    rw [hst]
    rfl
  have hused : (s.sh.proc q).state = .used := (h.claim hcre).1
  have hoff : ∀ d, s.on d ≠ some q := h.slot_not_on hcre
  have hpq : p ≠ q := by
    rintro rfl
    exact hoff c hon
  have hpark := h.parked hoff
  rw [hused] at hpark
  -- first the slot gets its context, then the thread goes on
  have hslot : CpuInv ((s.setStack (.proc q) [.forkret, .user]).setSaved q true) := by
    refine h.swtch (p := q) hl rfl (fun d => .inl (by simp)) ?_ h.left ?_ ?_ ?_ ?_
    · intro r hr
      exact ⟨fun _ => Iff.rfl, by simp [hr], by simp [hr]⟩
    · intro d hd
      exact absurd hd (hoff d)
    · intro _
      rw [hused]
      simp [Parked, Vacant]
    · rw [creating_of_vacant hpark]
      simp [creating, Frame.creates]
    · intro r y hy hr e
      have hrp : r = p := h.creator hy hcre e
      rw [hrp, hcre] at hy
      cases hy
      cases hr
  have htid : ((s.setStack (.proc q) [.forkret, .user]).setSaved q true).tid c = .proc p := Sys.tid_of_some hon
  have hstack := Function.update_comm (show Tid.proc p ≠ .proc q by simpa using hpq) (.forkCopy q :: rest)
    [.forkret, .user] s.stack
  refine hslot.quiet (c := c) (hl.context hoff) (fun _ => rfl) rfl rfl rfl (by rw [htid]; exact hstack) ?_ ?_ ?_
  · rw [htid]
    simp [hpq, hst, Frame.runState]
  · intro hme
    rw [htid] at hme
    cases hme
  · intro _ y hy
    cases hy
    refine ⟨⟨hused, by simp⟩, fun {r y'} hr hy' e => hr ?_⟩
    have hrp : r = p := hslot.creator hy' (show creating _ = some ⟨q, .used, false⟩ by simpa [hpq] using hcre) e
    rw [htid, hrp]

/-- A process that fills a slot and holds the lock of the slot is on a CPU. -/
theorem CpuInv.filler_on {y : Creation N} (hy : creating (s.stack (.proc p)) = some y)
    (hheld : .proc y.slot ∈ heldStack [.proc p] (s.stack (.proc p))) :
    ∃ d, s.on d = some p ∧ s.lock (.proc y.slot) = some d := by
  by_contra hno
  have hoff : ∀ d, s.on d ≠ some p := by
    intro d hd
    refine hno ⟨d, hd, (hl.lock _ d).2 ?_⟩
    rw [Sys.tid_of_some hd]
    exact hheld
  have hpark := h.parked hoff
  have hslot := (h.claim hy).1
  -- off its CPU, the thread holds the lock of its own process only
  have hself : s.saved p = true → y.slot = p := by
    intro hsv
    rw [hl.saved hsv, List.mem_singleton] at hheld
    exact Lock.proc.inj hheld
  have habsurd : s.saved p = true → (s.sh.proc p).state ≠ .unused → (s.sh.proc p).state ≠ .used →
      False := by
    intro hsv hne hne'
    rw [← hself hsv, hslot] at hne hne'
    rcases creating_state hy with e | e
    · exact hne e
    · exact hne' e
  cases hst : (s.sh.proc p).state with
  | unused | used => rw [hst] at hpark; rw [creating_of_vacant hpark] at hy; cases hy
  | sleeping | runnable | running | zombie => rw [hst] at hpark; exact habsurd hpark.1 (by simp [hst]) (by simp [hst])

/-- A section that goes on to another place. -/
theorem CpuInv.move {f : Frame N} {rest next : List (Frame N)}
    {ev : Event N} (hst : s.stack (s.tid c) = f :: rest) (hm : Moves (s.tid c).me s.sh f next ev) :
    CpuInv ((s.setShared s.sh).setStack (s.tid c) (next ++ rest)) := by
  obtain ⟨htop, hcre, hpos⟩ := move_view (hst ▸ hl.shape _) hm
  rw [← hst] at htop hcre hpos
  refine h.quiet (c := c) hl (fun _ => rfl) rfl rfl rfl rfl htop hpos fun hme => ?_
  rcases hcre with hcre | ⟨q, hnew, hq, hlk⟩ | ⟨q, hold, hnew⟩
  · exact h.claims hcre hme
  · intro y hy
    rw [hnew] at hy
    cases hy
    refine ⟨⟨hq, by simp⟩, fun {p y'} hp hy' e => ?_⟩
    -- another process that fills the slot would hold its lock
    obtain ⟨d, hd, hlkd⟩ := h.filler_on hl hy' (held_of_creating (hl.shape (.proc p)) hy' (by
      have hclaim := (h.claim hy').1
      rw [e] at hclaim
      exact hclaim.symm.trans hq))
    rw [e] at hlkd
    have hcd : d = c := Option.some.inj (hlkd.symm.trans ((hl.lock _ c).2 hlk))
    subst hcd
    exact hp (Sys.tid_of_some hd).symm
  · intro y hy
    obtain ⟨⟨hstate, -⟩, huniq⟩ := h.claims rfl hme hold
    rw [hnew] at hy
    cases hy
    exact ⟨⟨hstate, by simp⟩, huniq⟩

/-- A section that writes a slot of the table. -/
theorem CpuInv.write {k : Cfg N} {f : Frame N} {q : Fin N}
    {x : Proc N} {rest next : List (Frame N)} {ev : Event N} (hst : s.stack (s.tid c) = f :: rest)
    (hw : Writes k (s.tid c).me s.sh f q x next ev) :
    CpuInv ((s.setShared (s.sh.setProc q x)).setStack (s.tid c) (next ++ rest)) := by
  have hch := write_view (hst ▸ hl.shape _) hw
  rw [← hst] at hch
  cases hch with
  | kept hs htop hcre hpos =>
    refine h.quiet (c := c) hl ?_ rfl rfl rfl rfl htop hpos (h.claims hcre)
    intro p
    by_cases hp : p = q
    · subst hp
      simpa [setProc_state] using hs
    · simp [setProc_state, hp]
  | pick hme hold hnew _ hpos =>
    have hon : s.on c = none := by
      cases hon : s.on c with
      | none => rfl
      | some p => rw [Sys.tid_of_some hon] at hme; cases hme
    have htid := Sys.tid_of_none hon
    obtain ⟨ps, hps⟩ := eq_of_pos hpos
    have hf : f = .pick q ps ∧ rest = [] := by
      cases hw <;> simp at hps <;> simp_all
    obtain ⟨rfl, rfl⟩ := hf
    rw [hps, htid]
    rw [htid] at hst
    exact h.pick hl hon hst hold hnew
  | own hme hold hnew hne hcre => exact h.writeOwn hl hme hold hnew hne hcre
  | other hchange hset htop hcre hpos hlk => exact h.writeOther hl hchange hset hlk htop hpos hcre
  | use hme hnew hset htop hold hcre hlk =>
    obtain ⟨p, hon, htid⟩ := Sys.exists_on hme
    rw [htid] at hold hset hlk ⊢
    exact h.writeSlot hl hon hold hset hlk htop (.inl ⟨hnew, hcre⟩)
  | fail hme hnew hset htop hold hcre hlk =>
    obtain ⟨p, hon, htid⟩ := Sys.exists_on hme
    rw [htid] at hold hset hlk ⊢
    exact h.writeSlot hl hon hold hset hlk htop (.inr (.inl ⟨hnew, hcre⟩))
  | start hme hnew hset htop hold hcre hlk =>
    obtain ⟨p, hon, htid⟩ := Sys.exists_on hme
    rw [htid] at hold hset hlk ⊢
    exact h.writeSlot hl hon hold hset hlk htop (.inr (.inr ⟨hnew, hcre, rfl⟩))

/-- Pushing a frame that is settled on a settled stack is a quiet step. -/
theorem CpuInv.push (hsh : u.sh.proc = s.sh.proc)
    (hcpu : u.sh.cpu = s.sh.cpu) (hon : u.on = s.on) (hsaved : u.saved = s.saved)
    (hstack : u.stack = Function.update s.stack (s.tid c) st) (hset : Settled (s.stack (s.tid c))) (hset' : Settled st)
    (hcre : creating st = creating (s.stack (s.tid c))) : CpuInv u := by
  refine h.quiet (c := c) hl (fun q => by rw [hsh]) hcpu hon hsaved hstack ?_ ?_ (h.claims hcre)
  · rw [topState_of_settled hset, topState_of_settled hset']
  · intro _
    rw [pos_of_settled hset, pos_of_settled hset']

end

theorem LockInv.settled (hl : LockInv s) {f : Frame N} {rest : List (Frame N)}
    (hst : s.stack (s.tid c) = f :: rest) (hno : ∀ lk, s.lock lk ≠ some c) : Settled (s.stack (s.tid c)) := by
  have hnil := hl.held_nil hno
  have hshape := hl.shape (s.tid c)
  rw [hst] at hnil hshape ⊢
  exact settled_of_held_nil hshape hnil

theorem CpuInv.step {k : Cfg N} {ev : Event N} (h : CpuInv s) (hl : LockInv s) (hs : Step k s ev u) : CpuInv u := by
  cases hs with
  | acquire c f rest lk next hst hi _ =>
    obtain ⟨htop, hcre, hpos⟩ := lock_view (hst ▸ hl.shape _) (.inl (acquires_of_instr hi))
    rw [← hst] at htop hcre hpos
    exact h.quiet (c := c) hl (fun _ => rfl) rfl rfl rfl rfl htop hpos (h.claims hcre)
  | release c f rest lk next ev hst hi _ =>
    obtain ⟨htop, hcre, hpos⟩ := lock_view (k := k) (hst ▸ hl.shape _) (.inr ⟨_, releases_of_instr hi⟩)
    rw [← hst] at htop hcre hpos
    exact h.quiet (c := c) hl (fun _ => rfl) rfl rfl rfl rfl htop hpos (h.claims hcre)
  | act c f rest g inp hst hi =>
    have hact := acts_of_instr hi inp s.sh
    revert hact
    generalize (g inp s.sh).1 = sh', (g inp s.sh).2.1 = next, (g inp s.sh).2.2 = ev
    intro hact
    have hnone : f.kind = .scheduler → s.on c = none ∧ rest = [] := by
      intro hk
      have hshape := hl.shape (s.tid c)
      rw [hst] at hshape
      have hfit := hshape.2.1
      simp only [Fits, hk] at hfit
      refine ⟨?_, hfit.2⟩
      cases hon : s.on c with
      | none => rfl
      | some q => rw [Sys.tid_of_some hon] at hfit; cases hfit.1
    cases hact with
    | move hm => exact h.move hl hst hm
    | write hw => exact h.write hl hst hw
    | pid p q _ hf =>
      subst hf
      refine h.push (c := c) hl rfl rfl rfl rfl rfl ?_ rfl ?_
      · rw [hst]
        rfl
      · rw [hst]
        rfl
    | assign p ps hf =>
      subst hf
      obtain ⟨hon, rfl⟩ := hnone rfl
      rw [Sys.tid_of_none hon] at hst ⊢
      exact h.assign hl hon hst
    | back p ps hf =>
      subst hf
      obtain ⟨hon, rfl⟩ := hnone rfl
      rw [Sys.tid_of_none hon] at hst ⊢
      exact h.back hl hon hst
  | swtchTo c f rest p next hon hst hi =>
    obtain ⟨ps, rfl, rfl⟩ := switch_of_instr hi
    have hshape := hl.shape (.cpu c)
    rw [hst] at hshape
    obtain rfl : rest = [] := hshape.2.1.2
    exact h.swtchTo hl hon hst
  | swtchBack c p f rest next hon hst hi => exact h.swtchBack hl hon hst (leaves_of_instr hi)
  | context c f rest q next hst hi =>
    obtain ⟨⟨p, hp⟩, rfl, rfl⟩ := context_of_instr hi
    cases hon : s.on c with
    | none => rw [Sys.tid_of_none hon] at hp; cases hp
    | some r =>
      rw [Sys.tid_of_some hon] at hst ⊢
      exact h.context hl hon hst
  | syscall c p f hon hst hf =>
    have htid := Sys.tid_of_some hon
    refine h.push (c := c) hl rfl rfl rfl rfl (by rw [htid]; rfl) ?_ ?_ ?_
    · rw [htid, hst]
      rfl
    · cases hf <;> rfl
    · rw [htid, hst]
      cases hf <;> rfl
  | timer c p f rest hon hst hno =>
    have htid := Sys.tid_of_some hon
    rw [← htid] at hst ⊢
    exact h.push (c := c) hl rfl rfl rfl rfl rfl (hl.settled hst hno) rfl (by rw [hst]; rfl)
  | interrupt c f rest l hst hno =>
    exact h.push (c := c) hl rfl rfl rfl rfl rfl (hl.settled hst hno) rfl (by rw [hst]; rfl)
  | nested c l l' owes rest hst | wake c l owes rest ch hst | make c owes rest hst =>
    exact h.push (c := c) hl rfl rfl rfl rfl rfl (by rw [hst]; rfl) rfl (by rw [hst]; rfl)
  | sleep c p l a rest hon hst _ _ =>
    have htid := Sys.tid_of_some hon
    rw [← htid] at hst ⊢
    refine h.quiet (c := c) hl (fun _ => rfl) rfl rfl rfl rfl (by rw [hst]; rfl) ?_ (h.claims ?_)
    · intro hme
      rw [htid] at hme
      cases hme
    · rw [hst]
      rfl
  | unlock c l rest hst _ =>
    have hshape := hl.shape (s.tid c)
    rw [hst] at hshape
    exact h.push (c := c) hl rfl rfl rfl rfl rfl (by rw [hst]; rfl) hshape.2.2 (by rw [hst]; rfl)
  | clear => exact ⟨h.cpu, h.engaged, h.picked, h.left, h.run, h.off, h.parked, h.claim, h.creator⟩

/-- The two invariants together. -/
structure Inv (s : Sys N C) : Prop where
  locks : LockInv s
  cpus : CpuInv s

theorem creating_of_creates {f : Frame N} {x : Creation N} (h : f.creates = some x)
    (rest : List (Frame N)) : creating (f :: rest) = some x := by
  rw [creating, h, Option.some_or]

theorem me_of_creates {t : Tid N C} {f : Frame N} {rest : List (Frame N)} {x : Creation N}
    (hs : Shape t (f :: rest)) (h : f.creates = some x) : t.me ≠ none := by
  have hfit := hs.2.1
  cases f <;> simp_all [Frame.creates, Fits, Frame.kind]

/-- A thread that is filling a slot belongs to a process, and the slot is in the state that it says. -/
theorem Inv.creator (hi : Inv s) {f : Frame N} {rest : List (Frame N)} {x : Creation N}
    (hst : s.stack (s.tid c) = f :: rest) (hf : f.creates = some x) : ∃ p, creating (s.stack (.proc p)) = some x := by
  obtain ⟨p, -, htid⟩ := Sys.exists_on (me_of_creates (hst ▸ hi.locks.shape (s.tid c)) hf)
  rw [htid] at hst
  exact ⟨p, by rw [hst]; exact creating_of_creates hf rest⟩

theorem Inv.claimed (hi : Inv s) {f : Frame N} {rest : List (Frame N)} {x : Creation N}
    (hst : s.stack (s.tid c) = f :: rest) (hf : f.creates = some x) : (s.sh.proc x.slot).state = x.state := by
  obtain ⟨p, hp⟩ := hi.creator hst hf
  exact (hi.cpus.claim hp).1

theorem Inv.step {k : Cfg N} {ev : Event N} (h : Inv s) (hs : Step k s ev u) : Inv u := by
  refine ⟨h.locks.step ?_ ?_ hs, h.cpus.step h.locks hs⟩
  · intro c p ps hon hst
    have hpos : pos (s.stack (.cpu c)) = some (.switch, p) := by rw [hst]; rfl
    have hoff := (h.cpus.alone h.locks hon hpos).1
    have hpark := h.cpus.parked hoff
    rw [h.cpus.picked hpos (by simp)] at hpark
    exact ⟨hpark.1, hoff⟩
  · intro c q rest hst
    obtain ⟨p, hp⟩ := h.creator (x := ⟨q, .used, false⟩) hst rfl
    exact h.cpus.slot_not_on hp

end Steps

theorem CpuInv.boot (k : Cfg N) (sz pagetable trapframe : Nat) (cond : Bool) :
    CpuInv (Sys.boot k sz pagetable trapframe cond : Sys N C) := by
  have hcre : ∀ p : Fin N, creating ((Sys.boot k sz pagetable trapframe cond : Sys N C).stack (.proc p)) =
      none := by
    intro p
    by_cases hp : p = k.initproc <;> simp [Sys.boot, hp, creating, Frame.creates]
  constructor
  · simp [Sys.boot, pos]
  · simp [Sys.boot, pos]
  · simp [Sys.boot, pos]
  · simp [Sys.boot, pos]
  · simp [Sys.boot]
  · intro p _
    by_cases hp : p = k.initproc <;> simp [Sys.boot, hp, Proc.free]
  · intro p _
    by_cases hp : p = k.initproc
    · simp [Sys.boot, hp, Parked, Frame.runState]
    · simp [Sys.boot, hp, Parked, Proc.free, Vacant]
  · intro p x hx
    rw [hcre] at hx
    cases hx
  · intro p p' x x' hx
    rw [hcre] at hx
    cases hx

theorem Inv.boot (k : Cfg N) (sz pagetable trapframe : Nat) (cond : Bool) :
    Inv (Sys.boot k sz pagetable trapframe cond : Sys N C) :=
  ⟨LockInv.boot k sz pagetable trapframe cond, CpuInv.boot k sz pagetable trapframe cond⟩

end Xv6.Sched
