import Xv6.Sched.CpuStep

/-!
# One CPU per process

What the invariants say about every state of every run (`one_cpu_per_process`).
-/

set_option autoImplicit false

namespace Xv6.Sched

variable {N : Nat} {C : Type}

theorem run_inv [DecidableEq C] {k : Cfg N} {sz pagetable trapframe : Nat} {cond : Bool}
    {ls : List (Event N)} {s : Sys N C} (h : Base.Run (Step k) (Sys.boot k sz pagetable trapframe cond) ls s) : Inv s :=
  h.invariant (P := fun _ s => Inv s) (Inv.boot k sz pagetable trapframe cond) fun _ _ _ _ hi hs => hi.step hs

/-- The next instruction of CPU `c` is a `freeproc` of slot `q`, in `wait` or in a `fork` that fails. -/
def Frees (s : Sys N C) (c : C) (q : Fin N) : Prop :=
  (∃ addr ps rest, s.stack (s.tid c) = .waitTest addr q ps :: rest ∧
    (s.sh.proc q).state = .zombie) ∨
  ∃ rest, s.stack (s.tid c) = .forkFail q :: rest

/-- A CPU whose `c->proc` is `p` is executing `p`, or its scheduler is switching to or from it. -/
theorem Inv.on_of_cpu {s : Sys N C} (h : Inv s) {c : C} {p : Fin N} (hc : s.sh.cpu c = some p) :
    s.on c = some p ∨ (s.on c = none ∧ s.lock (.proc p) = some c) := by
  have hpos := (h.cpus.cpu c p).1 hc
  cases hon : s.on c with
  | some q =>
    rw [h.locks.pos_of_on hon] at hpos
    rcases hpos with e | e
    · cases e
    · cases e
      exact .inl rfl
  | none =>
    refine .inr ⟨rfl, (h.locks.lock _ c).2 ?_⟩
    rw [Sys.tid_of_none hon]
    rcases hpos with e | e
    · exact held_of_pos e _
    · exact held_of_pos e _

theorem Inv.running_iff {s : Sys N C} (h : Inv s) {p : Fin N} (hfree : s.lock (.proc p) = none) :
    (s.sh.proc p).state = .running ↔ ∃ c, s.on c = some p := by
  have hnot : ∀ {c : C}, .proc p ∉ heldStack (s.tid c).own (s.stack (s.tid c)) := by
    intro c hmem
    rw [(h.locks.lock _ c).2 hmem] at hfree
    cases hfree
  constructor
  · intro hrun
    by_contra hno
    refine h.cpus.off (fun c a hpos => ?_) hrun
    cases hon : s.on c with
    | none =>
      refine hnot (c := c) ?_
      rw [Sys.tid_of_none hon]
      exact held_of_pos hpos _
    | some q =>
      rw [h.locks.pos_of_on hon] at hpos
      cases hpos
      exact hno ⟨c, hon⟩
  · rintro ⟨c, hon⟩
    rw [h.cpus.run hon]
    cases hst : s.stack (.proc p) with
    | nil => rfl
    | cons f rest =>
      by_contra hne
      refine hnot (c := c) ?_
      rw [Sys.tid_of_some hon, hst]
      exact held_of_runState hne

/-- In every state of every run: a process is the `c->proc` of at most one CPU; while `p->lock` is free,
`p` is `RUNNING` exactly when one CPU, and only one, has it as its `c->proc`; a CPU that is about to
`swtch` into `p->context` finds there what the last `swtch` out of `p` (or `allocproc`) left, and no CPU is
executing `p`; and a `freeproc` that is about to happen is applied to a process that no CPU is
executing, switching to or switching from. -/
theorem one_cpu_per_process [DecidableEq C] {k : Cfg N} {sz pagetable trapframe : Nat} {cond : Bool}
    {ls : List (Event N)} {s : Sys N C}
    (h : Base.Run (Step k) (Sys.boot k sz pagetable trapframe cond) ls s) :
    (∀ c d p, s.sh.cpu c = some p → s.sh.cpu d = some p → c = d) ∧
    (∀ p, s.lock (.proc p) = none →
      ((s.sh.proc p).state = .running ↔ ∃! c, s.sh.cpu c = some p)) ∧
    (∀ c f rest p next, s.on c = none → s.stack (.cpu c) = f :: rest →
      instr k c none f = .swtchTo p next → s.saved p = true ∧ ∀ d, s.on d ≠ some p) ∧
    ∀ c q, Frees s c q → ∀ d, s.on d ≠ some q ∧ s.sh.cpu d ≠ some q := by
  have hinv := run_inv h
  have huniq : ∀ c d p, s.sh.cpu c = some p → s.sh.cpu d = some p → c = d := by
    intro c d p hc hd
    rcases (hinv.cpus.cpu c p).1 hc with e | e
    · rcases (hinv.cpus.cpu d p).1 hd with e' | e'
      · exact hinv.cpus.engaged e e'
      · exact hinv.cpus.engaged e e'
    · rcases (hinv.cpus.cpu d p).1 hd with e' | e'
      · exact hinv.cpus.engaged e e'
      · exact hinv.cpus.engaged e e'
  have hcpu : ∀ {c p}, s.on c = some p → s.sh.cpu c = some p := fun hon =>
    (hinv.cpus.cpu _ _).2 (.inr (hinv.locks.pos_of_on hon))
  refine ⟨huniq, fun p hfree => ?_, fun c f rest p next hon hst hi => ?_, fun c q hf => ?_⟩
  · rw [hinv.running_iff hfree]
    constructor
    · rintro ⟨c, hon⟩
      exact ⟨c, hcpu hon, fun d hd => huniq d c p hd (hcpu hon)⟩
    · rintro ⟨c, hc, -⟩
      rcases hinv.on_of_cpu hc with hon | ⟨-, hlk⟩
      · exact ⟨c, hon⟩
      · rw [hfree] at hlk
        cases hlk
  · obtain ⟨ps, rfl, rfl⟩ := switch_of_instr hi
    have hshape := hinv.locks.shape (.cpu c)
    rw [hst] at hshape
    obtain rfl : rest = [] := hshape.2.1.2
    have hpos : pos (s.stack (.cpu c)) = some (.switch, p) := by rw [hst]; rfl
    have hoff := (hinv.cpus.alone hinv.locks hon hpos).1
    have hpark := hinv.cpus.parked hoff
    rw [hinv.cpus.picked hpos (by simp)] at hpark
    exact ⟨hpark.1, hoff⟩
  · -- in both places the thread holds the lock of a process that is not running
    have hidle : (∀ d, s.on d ≠ some q) ∧ ∀ d a, pos (s.stack (.cpu d)) ≠ some (a, q) := by
      rcases hf with ⟨addr, ps, rest, hst, hz⟩ | ⟨rest, hst⟩
      · refine hinv.cpus.idle hinv.locks (c := c) ?_ (by simp [hz]) (by rw [hst]; rfl) ?_
        · rw [hinv.locks.lock, hst]
          exact List.mem_cons_self
        · intro hon a
          rw [Sys.tid_of_none hon] at hst
          rw [hst]
          simp [pos]
      · have hshape := hinv.locks.shape (s.tid c)
        rw [hst] at hshape
        cases hon : s.on c with
        | none =>
          rw [Sys.tid_of_none hon] at hshape
          exact absurd rfl hshape.2.1.1
        | some p =>
          have hused : (s.sh.proc q).state = .used := by
            rw [Sys.tid_of_some hon] at hst
            exact (hinv.cpus.claim (p := p) (x := ⟨q, .used, false⟩) (by rw [hst]; rfl)).1
          refine hinv.cpus.idle hinv.locks (c := c) ?_ (by simp [hused]) (by rw [hst]; rfl) ?_
          · rw [hinv.locks.lock, hst]
            exact List.mem_cons_self
          · intro hno
            rw [hon] at hno
            cases hno
    intro d
    refine ⟨hidle.1 d, fun hd => ?_⟩
    rcases (hinv.cpus.cpu d q).1 hd with e | e
    · exact hidle.2 d _ e
    · exact hidle.2 d _ e

/-- The only CPU of a machine with one process chooses it and switches to it. -/
theorem one_cpu_per_process_first :
    ∃ (ls : List (Event 1)) (s : Sys 1 Unit),
      Base.Run (Step ⟨0, 0, 0⟩) (Sys.boot ⟨0, 0, 0⟩ 4096 1 2 false) ls s ∧ s.on () = some 0 ∧
      (∀ c d p, s.sh.cpu c = some p → s.sh.cpu d = some p → c = d) ∧
      ∀ p, s.lock (.proc p) = none →
        ((s.sh.proc p).state = .running ↔ ∃! c, s.sh.cpu c = some p) := by
  have h1 := Base.Run.single (Step.acquire (k := (⟨0, 0, 0⟩ : Cfg 1))
    (Sys.boot ⟨0, 0, 0⟩ 4096 1 2 false) () (.scan [0]) [] (.proc 0) [.pick 0 []] rfl rfl rfl)
  have h2 := h1.snoc (Step.act _ () (.pick 0 []) [] _ ⟨true, none, none⟩ rfl rfl)
  have h3 := h2.snoc (Step.act _ () (.assign 0 []) [] _ ⟨true, none, none⟩ rfl rfl)
  have h4 := h3.snoc (Step.swtchTo _ () (.switch 0 []) [] 0 (.back 0 []) rfl rfl rfl)
  exact ⟨_, _, h4, rfl, (one_cpu_per_process h4).1, (one_cpu_per_process h4).2.1⟩

end Xv6.Sched
