import Xv6.Sched.Effect

/-!
# Recycled slots

`freeproc` resets a slot of the process table and `allocproc` trusts it. Every function that scans the
table and writes to what it finds does so to processes only, but for one: `kill(0)` matches the pid of
an unused slot, sets `killed` there and returns 0, and the next process in that slot starts killed.
`slots_clean_iff` says that this is the only way to spoil a slot.
-/

set_option autoImplicit false
set_option linter.unusedSectionVars false

namespace Xv6.Sched

open Function (update update_self update_of_ne)

variable {N : Nat} {C : Type} [DecidableEq C]

/-- Unused slots are as `freeproc` leaves them. -/
def Clean (s : Sys N C) : Prop := ∀ q, (s.sh.proc q).state = .unused → s.sh.proc q = Proc.free

/-- Unused slots are as `freeproc` leaves them, but that `killed` may be set. -/
def NearlyClean (s : Sys N C) : Prop :=
  ∀ q, (s.sh.proc q).state = .unused →
    s.sh.proc q = { Proc.free with killed := (s.sh.proc q).killed }

/-- The step is a successful `kill` of an unused slot. -/
def Stray (s : Sys N C) (ev : Event N) : Prop :=
  ∃ pid q, ev = .killed pid q ∧ (s.sh.proc q).state = .unused

/-- A slot that `allocproc` has taken and not yet returned is not killed. -/
def Fresh (s : Sys N C) : Prop :=
  ∀ {p q f rest}, s.stack (.proc p) = f :: rest → f = .forkAlloc q ∨ f = .forkContext q →
    (s.sh.proc q).killed = false

variable {c : C}

section Write

variable {k : Cfg N} {me : Option (Fin N)} {sh : Shared N C} {f : Frame N} {q : Fin N} {x : Proc N}
  {next : List (Frame N)} {ev : Event N}

/-- Ways in which a slot can be written and be unused afterwards. -/
theorem write_unused (h : Writes k me sh f q x next ev) (hx : x.state = .unused) :
    x = Proc.free ∨ ((sh.proc q).state = .unused ∧
      ((∃ pid, ev = .killed pid q ∧ (sh.proc q).pid = pid ∧ x = { sh.proc q with killed := true }) ∨
        me = some q ∨ (∃ b, f.creates = some ⟨q, .used, b⟩) ∨ (sh.proc q).parent ≠ none)) := by
  cases h with
  | reap p addr q ps hp hz | forkFail p q hp => exact .inl rfl
  | kill p pid q ps hp hpid => exact .inr ⟨hx, .inl ⟨pid, rfl, hpid, rfl⟩⟩
  | reparent p status q ps hp hpar => exact .inr ⟨hx, .inr (.inr (.inr (by simp [hpar])))⟩
  | sleepChan p ch lk hp | sleepEnd p ch lk hp | setkilled p hp | grow p sz pagetable hp
  | exitStatus p status hp => exact .inr ⟨hx, .inr (.inl hp)⟩
  | forkAlloc p q page table hp | forkNoMemory p q page hp => exact .inr ⟨hx, .inr (.inr (.inl ⟨false, rfl⟩))⟩
  | forkCopy p q hp | forkParent p q pid hp => exact .inr ⟨hx, .inr (.inr (.inl ⟨true, rfl⟩))⟩
  | pick | wakeup | yield | sleep | killAsleep | exit | forkUsed | forkRun => cases hx

/-- A slot becomes killed by `kill`, under its lock, or by its own process. -/
theorem write_killed (h : Writes k me sh f q x next ev) (hx : x.killed = true)
    (hq : (sh.proc q).killed = false) : me = some q ∨ ∃ pid ps, f = .kill1 pid q ps := by
  cases h with
  | kill p pid q ps hp hpid => exact .inr ⟨pid, ps, rfl⟩
  | setkilled p hp => exact .inl hp
  | reap p addr q ps hp hz | forkFail p q hp => cases hx
  | _ => exact absurd (hx.symm.trans hq) (by simp)

/-- Making a killed process runnable changes no other slot. -/
theorem kill2_slot {pid : Int32} {sh' : Shared N C}
    (h : Acts k c me sh (.kill2 pid q) sh' next ev) {r : Fin N} (hr : r ≠ q) : sh'.proc r = sh.proc r := by
  cases h with
  | move => rfl
  | write hw =>
    cases hw with
    | killAsleep p pid q _ _ => simp [Shared.setProc, update_of_ne hr]
  | pid p r _ e | assign p ps e | back p ps e => cases e

end Write

/-- How a thread comes to the places of `allocproc` after the slot is taken. -/
theorem local_alloc {k : Cfg N} {c : C} {t : Tid N C} {sh sh' : Shared N C} {st st' : List (Frame N)}
    {ev : Event N} (h : Local k c t sh st sh' st' ev) (hs : Shape t st) {f : Frame N} {q : Fin N}
    {rest : List (Frame N)} (hst : st' = f :: rest) (hf : f = .forkAlloc q ∨ f = .forkContext q) :
    (sh'.proc q).killed = (sh.proc q).killed ∧
      ((∃ pid rest', st = .forkUsed q pid :: rest') ∨ ∃ rest', st = .forkAlloc q :: rest') := by
  have hset : ∀ {rest'}, rest' = f :: rest → ¬Settled rest' := by
    rintro rest' rfl
    rcases hf with rfl | rfl
    · simp [Frame.settled]
    · simp [Frame.settled]
  generalize hme : t.me = me at h
  cases h with
  | acquire ha | release ha =>
    have hrest := hs.2.2
    rw [hme] at ha
    cases ha <;> first
      | exact absurd hrest (hset hst)
      | (cases hst; rcases hf with hf | hf <;> cases hf)
  | act ha =>
    have hrest := hs.2.2
    cases ha with
    | move hm =>
      cases hm <;> first
        | exact absurd hrest (hset hst)
        | (cases hst; rcases hf with hf | hf <;> cases hf)
    | write hw =>
      cases hw with
      | forkUsed p q' pid hp =>
        cases hst
        rcases hf with hf | hf <;> cases hf
        exact ⟨by simp [Shared.setProc], .inl ⟨pid, _, rfl⟩⟩
      | forkAlloc p q' page table hp =>
        cases hst
        rcases hf with hf | hf <;> cases hf
        exact ⟨by simp [Shared.setProc], .inr ⟨_, rfl⟩⟩
      | _ => first
        | exact absurd hrest (hset hst)
        | (cases hst; rcases hf with hf | hf <;> cases hf)
    | pid | assign | back => cases hst; rcases hf with hf | hf <;> cases hf
  | syscall hsys => cases hsys <;> cases hst <;> rcases hf with hf | hf <;> cases hf
  | unlock => exact absurd hs.2.2 (hset hst)
  | timer | interrupt | wake | sleep | make => cases hst; rcases hf with hf | hf <;> cases hf

variable {f : Frame N} {rest : List (Frame N)}

section Machine

variable {k : Cfg N} {s u : Sys N C} {ev : Event N}

/-- What a step can do to a slot that is unused afterwards. -/
theorem unused_step (hi : Inv s) (hn : NearlyClean s) (hc : Change k s ev u) {q : Fin N}
    (hu : (u.sh.proc q).state = .unused) : u.sh.proc q = s.sh.proc q ∨ u.sh.proc q = Proc.free ∨
      ((s.sh.proc q).state = .unused ∧
        ∃ pid, ev = .killed pid q ∧ u.sh.proc q = { s.sh.proc q with killed := true }) := by
  rcases hc.quiet_or with ⟨e, -⟩ | ⟨c, st, st', hst, hloc, -⟩
  · exact .inl (by rw [e])
  · rcases local_slot hloc q with e | ⟨f, rest, x, next, hf, -, hx, hw⟩
    · exact .inl e
    · rw [hx] at hu ⊢
      rcases write_unused hw hu with e | ⟨hq, ⟨pid, hev, -, e⟩ | hme | ⟨b, hb⟩ | hpar⟩
      · exact .inr (.inl e)
      · exact .inr (.inr ⟨hq, pid, hev, e⟩)
      · exact absurd (on_of_me hme) (hi.cpus.not_on (.inl hq) c)
      · have hclaim := hi.claimed (hst.trans hf) hb
        rw [hq] at hclaim
        cases hclaim
      · rw [hn q hq] at hpar
        exact absurd rfl hpar

theorem NearlyClean.step (hn : NearlyClean s) (hi : Inv s) (hc : Change k s ev u) : NearlyClean u := by
  intro q hu
  rcases unused_step hi hn hc hu with e | e | ⟨hq, pid, -, e⟩
  · rw [e] at hu ⊢
    exact hn q hu
  · rw [e]
  · rw [e, hn q hq]

theorem Clean.nearly (h : Clean s) : NearlyClean s := by
  intro q hq
  rw [h q hq]

/-- What a successful `kill` does: it marks one slot that has the pid, and no other slot changes. -/
theorem killed_step {pid : Int32} {q : Fin N} (hc : Change k s (.killed pid q) u) :
    ((u.sh.proc q).state = (s.sh.proc q).state ∧ (s.sh.proc q).pid = pid ∧
      ∀ r, r ≠ q → u.sh.proc r = s.sh.proc r) ∧ (u.sh.proc q).killed = true := by
  rcases hc.quiet_or with ⟨-, -, e | ⟨r, e⟩⟩ | ⟨c, st, st', hst, hloc, -⟩
  · cases e
  · cases e
  · generalize u.sh = sh' at hloc ⊢
    generalize hme : (s.tid c).me = me at hloc
    generalize hev : Event.killed pid q = ev at hloc
    cases hloc with
    | acquire | syscall | timer | interrupt | wake | sleep | unlock | make => cases hev
    | release hr => rw [hme] at hr; subst hev; cases hr
    | act ha =>
      subst hev
      cases ha with
      | move hm => cases hm
      | write hw =>
        cases hw with
        | kill p pid q ps _ hpid =>
          refine ⟨⟨by simp [Shared.setProc], hpid, fun r hr => ?_⟩, by simp [Shared.setProc]⟩
          simp [Shared.setProc, update_of_ne hr]

/-- Only a stray `kill` spoils a slot. -/
theorem Clean.step (h : Clean s) (hi : Inv s) (hc : Change k s ev u) (hno : ¬Stray s ev) : Clean u := by
  intro q hu
  rcases unused_step hi h.nearly hc hu with e | e | ⟨hq, pid, hev, -⟩
  · rw [e] at hu ⊢
    exact h q hu
  · exact e
  · exact absurd ⟨pid, q, hev, hq⟩ hno

/-- The slot that a process is filling is locked by it, so nobody kills it. -/
theorem Inv.locked_slot (hi : Inv s) {p q : Fin N} {g : Frame N} {rest' : List (Frame N)}
    (hst : s.stack (.proc p) = f :: rest) (hf : f = .forkAlloc q ∨ f = .forkContext q)
    (hne : s.tid c ≠ .proc p) (hg : s.stack (s.tid c) = g :: rest')
    (hkill : (s.tid c).me = some q ∨ ∃ pid ps, g = .kill1 pid q ps) : False := by
  have hcre : creating (s.stack (.proc p)) = some ⟨q, .used, false⟩ := by
    rw [hst]
    rcases hf with rfl | rfl
    · rfl
    · rfl
  have hheld : .proc q ∈ heldStack [.proc p] (s.stack (.proc p)) := by
    rw [hst]
    rcases hf with rfl | rfl
    · exact .head _
    · exact .head _
  obtain ⟨d, hd, hlk⟩ := hi.cpus.filler_on hi.locks hcre hheld
  rcases hkill with hme | ⟨pid, ps, rfl⟩
  · exact hi.cpus.not_on (.inr (hi.cpus.claim hcre).1) c (on_of_me hme)
  · have hlk' : s.lock (.proc q) = some c := by
      rw [hi.locks.lock, hg]
      exact .head _
    have hdc : d = c := Option.some.inj (hlk.symm.trans hlk')
    exact hne (hdc ▸ Sys.tid_of_some hd)

theorem Fresh.step (h : Fresh s) (hi : Inv s) (hcl : Clean s) (hc : Change k s ev u) : Fresh u := by
  intro p q f rest hst' hf
  rcases stack_step hc p with ⟨c, st', ht, -, hstack, hloc⟩ | ⟨hkept, hslots⟩
  · rw [hstack, update_self] at hst'
    obtain ⟨hkilled, ⟨pid, rest', hfrom⟩ | ⟨rest', hfrom⟩⟩ :=
      local_alloc hloc (hi.locks.shape (.proc p)) hst' hf
    · rw [hkilled, hcl q (hi.claimed (c := c) (by rw [ht]; exact hfrom) rfl)]
      rfl
    · rw [hkilled]
      exact h hfrom (.inl rfl)
  · cases hkept with
    | same e _ =>
      rw [e] at hst'
      have hfalse := h hst' hf
      rcases hslots with ⟨e, -⟩ | ⟨c, st, st', hne, hst, hloc⟩
      · rw [e]
        exact hfalse
      · rcases local_slot hloc q with e | ⟨g, rest', x, next, hg, -, hx, hw⟩
        · rw [e]
          exact hfalse
        · rw [hx]
          by_contra htrue
          exact hi.locked_slot hst' hf hne (hst.trans hg) (write_killed hw (by simpa using htrue) hfalse)
    | left c g next rest' _ hleave _ e' =>
      rw [e'] at hst'
      cases hst'
      cases hleave <;> rcases hf with hf | hf <;> cases hf
    | filled r rest' _ e' | fresh e' =>
      rw [e'] at hst'
      cases hst'
      rcases hf with hf | hf <;> cases hf

/-- `allocproc` returns a slot that is not killed. -/
theorem Fresh.allocated (h : Fresh s) (hi : Inv s) {q : Fin N} (hc : Change k s (.allocated q) u) :
    (u.sh.proc q).killed = false := by
  cases hc with
  | thread c st st' hst hloc _ _ _ =>
    generalize u.sh = sh' at hloc
    generalize hme : (s.tid c).me = me at hloc
    generalize hev : Event.allocated q = ev at hloc
    cases hloc with
    | acquire | syscall | timer | interrupt | wake | sleep | unlock | make => cases hev
    | release hr => rw [hme] at hr; subst hev; cases hr
    | act ha =>
      subst hev
      cases ha with
      | move hm | write hm => cases hm
  | swtchTo _ _ _ _ _ _ _ _ hev | swtchBack _ _ _ _ _ _ _ _ _ _ _ hev | clear _ hev => cases hev
  | context c r rest hst hsh _ _ hev =>
    cases hev
    rw [hsh]
    obtain ⟨p, -, htid⟩ := Sys.exists_on (me_of_creates (hst ▸ hi.locks.shape (s.tid c)) rfl)
    rw [htid] at hst
    exact h hst (.inr rfl)

/-- A stray `kill` does spoil one. -/
theorem not_clean_of_stray (hc : Change k s ev u) (h : Stray s ev) : ¬Clean u := by
  obtain ⟨pid, q, rfl, hq⟩ := h
  intro hu
  obtain ⟨hstate, hkilled⟩ := killed_step hc
  have hfree := hu q (hstate.1.trans hq)
  rw [hfree] at hkilled
  cases hkilled

end Machine

theorem clean_boot (k : Cfg N) (sz pagetable trapframe : Nat) (cond : Bool) :
    Clean (Sys.boot k sz pagetable trapframe cond : Sys N C) := by
  intro q hq
  by_cases e : q = k.initproc
  · subst e
    simp [Sys.boot] at hq
  · simp [Sys.boot, update_of_ne e]

theorem fresh_boot (k : Cfg N) (sz pagetable trapframe : Nat) (cond : Bool) :
    Fresh (Sys.boot k sz pagetable trapframe cond : Sys N C) := by
  intro p q f rest hst hf
  by_cases e : p = k.initproc
  · subst e
    simp only [Sys.boot, if_true] at hst
    cases hst
    rcases hf with hf | hf <;> cases hf
  · simp [Sys.boot, e] at hst

/-- Along any trace of the machine: all unused slots are clean in all states if and only if no `kill`
hits an unused slot. As long as none does, `allocproc` returns slots that are not killed, and a `kill`
that succeeds marks a slot that is in use and has the pid, no other slot changing, neither then nor
when the process is made runnable after that. A `kill` that hits an unused slot has been called with
pid 0. -/
theorem slots_clean_iff {k : Cfg N} {sz pagetable trapframe : Nat} {cond : Bool}
    {xs : List (Event N × Sys N C)}
    (h : Base.Trace (Step k) (Sys.boot k sz pagetable trapframe cond) xs) :
    ((∀ x ∈ xs, Clean x.2) ↔
      Base.Trace (fun s ev _ => ¬Stray s ev) (Sys.boot k sz pagetable trapframe cond) xs) ∧
    (Base.Trace (fun s ev _ => ¬Stray s ev) (Sys.boot k sz pagetable trapframe cond) xs →
      Base.Trace (fun s ev u =>
        (∀ q, ev = .allocated q → (u.sh.proc q).killed = false) ∧
        ∀ pid q, ev = .killed pid q →
          (s.sh.proc q).pid = pid ∧ (s.sh.proc q).state ≠ .unused ∧
            ∀ r, r ≠ q → u.sh.proc r = s.sh.proc r)
        (Sys.boot k sz pagetable trapframe cond) xs) ∧
    (∀ c p pid q g inp sh, instr k c (some p) (.kill2 pid q) = (.act g : Instr N C) →
      ∀ r, r ≠ q → (g inp sh).1.proc r = sh.proc r) ∧
    Base.Trace (fun s ev _ => ∀ pid q, ev = .killed pid q → (s.sh.proc q).state = .unused → pid = 0)
      (Sys.boot k sz pagetable trapframe cond) xs := by
  -- every step of the trace is a change between states in order
  have hchange : Base.Trace (fun s ev u => Change k s ev u ∧ Inv s ∧ NearlyClean s)
      (Sys.boot k sz pagetable trapframe cond : Sys N C) xs := by
    refine h.imp (P := fun s => Inv s ∧ NearlyClean s) ?_
      ⟨Inv.boot k sz pagetable trapframe cond, (clean_boot k sz pagetable trapframe cond).nearly⟩
    rintro s ev u ⟨hi, hn⟩ hs
    have hc := change_of_step hi.locks hs
    exact ⟨⟨hc, hi, hn⟩, hi.step hs, hn.step hi hc⟩
  have hstart : Clean (Sys.boot k sz pagetable trapframe cond : Sys N C) ∧
      Fresh (Sys.boot k sz pagetable trapframe cond : Sys N C) :=
    ⟨clean_boot k sz pagetable trapframe cond, fresh_boot k sz pagetable trapframe cond⟩
  refine ⟨⟨fun hclean => ?_, fun hno => ?_⟩, fun hno => ?_, ?_, ?_⟩
  · refine hchange.of_forall (P := Clean) ?_ hclean
    rintro s ev u ⟨hc, -, -⟩ hu hstray
    exact not_clean_of_stray hc hstray hu
  · refine (hchange.and hno).invariant (P := Clean) ?_ hstart.1
    rintro s ev u hs ⟨⟨hc, hi, -⟩, hno⟩
    exact hs.step hi hc hno
  · refine (hchange.and hno).imp (P := fun s => Clean s ∧ Fresh s) ?_ hstart
    rintro s ev u ⟨hs, hf⟩ ⟨⟨hc, hi, -⟩, hno⟩
    refine ⟨⟨?_, ?_⟩, hs.step hi hc hno, hf.step hi hs hc⟩
    · rintro q rfl
      exact hf.allocated hi hc
    · rintro pid q rfl
      obtain ⟨⟨-, hpid, hother⟩, -⟩ := killed_step hc
      exact ⟨hpid, fun hq => hno ⟨pid, q, rfl, hq⟩, hother⟩
  · intro c p pid q g inp sh hi r hr
    exact kill2_slot (acts_of_instr hi inp sh) hr
  · refine hchange.imp (P := fun _ => True) ?_ trivial
    rintro s ev u - ⟨hc, -, hn⟩
    refine ⟨?_, trivial⟩
    rintro pid q rfl hq
    obtain ⟨⟨-, hpid, -⟩, -⟩ := killed_step hc
    rw [← hpid, hn q hq]
    rfl

/-- One CPU and two slots. The process in slot 0 calls `kill(0)`, which finds the unused slot 1 and will
return 0, although no process has pid 0; the slot stays unused and is left with `killed` set. -/
theorem kill_zero_spoils_slot :
    ∃ (ls : List (Event 2)) (s : Sys 2 Unit),
      Base.Run (Step ⟨0, 0, 0⟩) (Sys.boot ⟨0, 0, 0⟩ 4096 1 2 false) (ls ++ [.killed 0 1]) s ∧
      (s.sh.proc 1).state = .unused ∧ (s.sh.proc 1).killed = true ∧ ¬Clean s := by
  have h1 := Base.Run.single (Step.acquire (k := (⟨0, 0, 0⟩ : Cfg 2))
    (Sys.boot ⟨0, 0, 0⟩ 4096 1 2 false) () (.scan [0, 1]) [] (.proc 0) [.pick 0 [1]] rfl rfl rfl)
  have h2 := h1.snoc (Step.act _ () (.pick 0 [1]) [] _ ⟨true, none, none⟩ rfl rfl)
  have h3 := h2.snoc (Step.act _ () (.assign 0 [1]) [] _ ⟨true, none, none⟩ rfl rfl)
  have h4 := h3.snoc (Step.swtchTo _ () (.switch 0 [1]) [] 0 (.back 0 [1]) rfl rfl rfl)
  have h5 := h4.snoc (Step.release _ () .forkret [.user] (.proc 0) [] .silent rfl rfl rfl)
  have h6 := h5.snoc (Step.syscall _ () 0 (.kill 0 [0, 1]) rfl rfl (.kill 0))
  have h7 := h6.snoc (Step.acquire _ () (.kill 0 [0, 1]) [.user] (.proc 0) [.kill1 0 0 [1]] rfl rfl rfl)
  have h8 := h7.snoc (Step.act _ () (.kill1 0 0 [1]) [.user] _ ⟨true, none, none⟩ rfl rfl)
  have h9 := h8.snoc (Step.release _ () (.kill4 0 0 [1]) [.user] (.proc 0) [.kill 0 [1]] .silent
    rfl rfl rfl)
  have h10 := h9.snoc (Step.acquire _ () (.kill 0 [1]) [.user] (.proc 1) [.kill1 0 1 []] rfl rfl rfl)
  have h11 := h10.snoc (Step.act _ () (.kill1 0 1 []) [.user] _ ⟨true, none, none⟩ rfl rfl)
  refine ⟨_, _, h11, rfl, rfl, fun hclean => ?_⟩
  have hkilled := congrArg Proc.killed (hclean 1 rfl)
  exact absurd hkilled (by decide)

/-- The first step of the only CPU of a machine with one process. -/
theorem slots_clean_iff_first :
    ∃ (xs : List (Event 1 × Sys 1 Unit)),
      xs ≠ [] ∧ Base.Trace (Step ⟨0, 0, 0⟩) (Sys.boot ⟨0, 0, 0⟩ 4096 1 2 false) xs ∧
      ((∀ x ∈ xs, Clean x.2) ↔
        Base.Trace (fun s ev _ => ¬Stray s ev) (Sys.boot ⟨0, 0, 0⟩ 4096 1 2 false) xs) := by
  have h : Base.Trace (Step ⟨0, 0, 0⟩) (Sys.boot ⟨0, 0, 0⟩ 4096 1 2 false : Sys 1 Unit) [(.silent, _)] :=
    ⟨Step.acquire (Sys.boot ⟨0, 0, 0⟩ 4096 1 2 false) () (.scan [0]) [] (.proc 0) [.pick 0 []]
      rfl rfl rfl, trivial⟩
  exact ⟨_, by simp, h, (slots_clean_iff h).1⟩

end Xv6.Sched
