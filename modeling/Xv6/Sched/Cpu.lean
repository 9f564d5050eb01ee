import Xv6.Sched.Locks

/-!
# CPUs, process states and threads

`p->lock` is taken by one thread and given back by another across every `swtch`, and a process becomes
`RUNNABLE`, `SLEEPING` or `ZOMBIE` while it still executes on its own stack. `CpuInv` says what each
CPU has to do with which process at every point of this, and what the state of a process tells about
where its thread is. The views (`lock_view`, `move_view`, `write_view`) say what an
instruction changes of that, and the consequences are used wherever a thread holds the lock of a
process that is not its own.
-/

set_option autoImplicit false
set_option linter.unusedSectionVars false

namespace Xv6.Sched

variable {N : Nat} {C : Type}

/-- The state of a process that is executing at a place: it changes its state shortly before it leaves
its CPU. -/
def Frame.runState : Frame N → Procstate
  | .yield2 => .runnable
  | .sleep4 _ _ => .sleeping
  | .exit5 | .exit6 => .zombie
  | _ => .running

/-- The state of a process that is executing with the given stack. -/
def topState : List (Frame N) → Procstate
  | [] => .running
  | f :: _ => f.runState

/-- Points of `scheduler()` at which it has chosen a process. -/
inductive Pos where
  | assign
  | switch
  | back
  deriving DecidableEq, Repr

/-- The process a scheduler is concerned with, from choosing it until its `c->proc` is cleared. -/
def pos : List (Frame N) → Option (Pos × Fin N)
  | [.assign p _] => some (.assign, p)
  | [.switch p _] => some (.switch, p)
  | [.back p _] => some (.back, p)
  | _ => none

/-- What a `fork` in progress says about the slot it fills: its state, and whether its context is set
up. -/
structure Creation (N : Nat) where
  slot : Fin N
  state : Procstate
  ready : Bool
  deriving DecidableEq

def Frame.creates : Frame N → Option (Creation N)
  | .forkPid0 q | .forkPid1 q | .forkPid2 q _ | .forkUsed q _ => some ⟨q, .unused, false⟩
  | .forkAlloc q | .forkContext q | .forkFail q => some ⟨q, .used, false⟩
  | .forkCopy q | .forkRel q _ | .forkParent0 q _ | .forkParent1 q _ | .forkParent2 q _
  | .forkRun0 q _ | .forkRun1 q _ => some ⟨q, .used, true⟩
  | _ => none

/-- The slot that a process with the given stack is filling. -/
def creating : List (Frame N) → Option (Creation N)
  | [] => none
  | f :: rest => f.creates.or (creating rest)

/-- The stack of a slot that no process runs in: never used, left behind by a process that exited, or
freshly set up. -/
def Vacant : List (Frame N) → Prop
  | [] | [.dead, .user] | [.forkret, .user] => True
  | _ => False

/-- What the state of a process that is on no CPU says about its thread. -/
def Parked (saved : Bool) (st : List (Frame N)) : Procstate → Prop
  | .unused | .used => Vacant st
  | .sleeping => saved = true ∧ ∃ ch lk rest, st = .sleep5 ch lk :: rest
  | .runnable | .running => saved = true ∧ ∃ f rest, st = f :: rest ∧ f ≠ .dead ∧ f.runState = .running
  | .zombie => saved = true ∧ ∃ rest, st = .dead :: rest

/-- CPUs, process states and threads agree. -/
structure CpuInv (s : Sys N C) : Prop where
  cpu : ∀ c p, s.sh.cpu c = some p ↔
    pos (s.stack (.cpu c)) = some (.switch, p) ∨ pos (s.stack (.cpu c)) = some (.back, p)
  engaged : ∀ {c d a b p}, pos (s.stack (.cpu c)) = some (a, p) →
    pos (s.stack (.cpu d)) = some (b, p) → c = d
  picked : ∀ {c a p}, pos (s.stack (.cpu c)) = some (a, p) → a ≠ .back →
    (s.sh.proc p).state = .running
  left : ∀ {c p}, s.on c = none → pos (s.stack (.cpu c)) = some (.back, p) →
    (s.sh.proc p).state = .runnable ∨ (s.sh.proc p).state = .sleeping ∨ (s.sh.proc p).state = .zombie
  run : ∀ {c p}, s.on c = some p → (s.sh.proc p).state = topState (s.stack (.proc p))
  off : ∀ {p}, (∀ c a, pos (s.stack (.cpu c)) ≠ some (a, p)) → (s.sh.proc p).state ≠ .running
  parked : ∀ {p}, (∀ c, s.on c ≠ some p) →
    Parked (s.saved p) (s.stack (.proc p)) (s.sh.proc p).state
  claim : ∀ {p x}, creating (s.stack (.proc p)) = some x → (s.sh.proc x.slot).state = x.state ∧
    (x.ready = true → s.saved x.slot = true ∧ s.stack (.proc x.slot) = [.forkret, .user])
  creator : ∀ {p p' x x'}, creating (s.stack (.proc p)) = some x →
    creating (s.stack (.proc p')) = some x' → x.slot = x'.slot → p = p'

/-! ## What instructions leave alone -/

theorem runState_ne_unused (f : Frame N) : f.runState ≠ .unused ∧ f.runState ≠ .used := by
  cases f <;> simp [Frame.runState]

theorem topState_ne_unused (st : List (Frame N)) : topState st ≠ .unused ∧ topState st ≠ .used := by
  cases st with
  | nil => simp [topState]
  | cons f rest => exact runState_ne_unused f

theorem creates_state {f : Frame N} {x : Creation N} (h : f.creates = some x) :
    x.state = .unused ∨ x.state = .used := by
  cases f <;> simp [Frame.creates] at h <;> subst h <;> simp

variable {st : List (Frame N)}

theorem creating_state {x : Creation N} (h : creating st = some x) : x.state = .unused ∨ x.state = .used := by
  induction st with
  | nil => cases h
  | cons f rest ih =>
    cases hf : f.creates with
    | none =>
      rw [creating, hf, Option.none_or] at h
      exact ih h
    | some y =>
      rw [creating, hf, Option.some_or] at h
      exact creates_state (hf.trans h)

@[simp] theorem topState_cons (f : Frame N) (rest : List (Frame N)) : topState (f :: rest) = f.runState := rfl

theorem topState_of_settled (h : Settled st) : topState st = .running := by
  cases st with
  | nil => rfl
  | cons f rest => cases f <;> simp_all [Frame.settled, Frame.runState]

theorem pos_of_settled (h : Settled st) : pos st = none := by
  cases st with
  | nil => rfl
  | cons f rest => cases f <;> simp_all [Frame.settled, pos]

section Views

variable {k : Cfg N} {c : C} {t : Tid N C} {f : Frame N} {rest : List (Frame N)}

/-- Taking a lock, or giving one back, changes neither the state the process is executing in, nor the slot it
fills, nor what the scheduler is concerned with. -/
theorem lock_view {lk : Lock N} {next : List (Frame N)} (hs : Shape t (f :: rest))
    (h : Acquires k t.me f lk next ∨ ∃ ev, Releases t.me f lk next ev) :
    topState (next ++ rest) = topState (f :: rest) ∧ creating (next ++ rest) = creating (f :: rest) ∧
      (t.me = none → pos (next ++ rest) = pos (f :: rest)) := by
  obtain ⟨-, hfit, hset⟩ := hs
  have htop := topState_of_settled hset
  cases t with
  | cpu c | proc p =>
    rcases h with h | ⟨ev, h⟩ <;> cases h <;> simp_all [Fits, Frame.kind, Frame.runState, creating, Frame.creates, pos]

/-- Going on to another place, likewise, but that a `fork` may have found its slot or have failed. -/
theorem move_view {sh : Shared N C} {next : List (Frame N)} {ev : Event N}
    (hs : Shape t (f :: rest)) (h : Moves t.me sh f next ev) : topState (next ++ rest) = topState (f :: rest) ∧
      (creating (next ++ rest) = creating (f :: rest) ∨
        (∃ q, creating (next ++ rest) = some ⟨q, .unused, false⟩ ∧ (sh.proc q).state = .unused ∧
          Lock.proc q ∈ heldStack t.own (f :: rest)) ∨ ∃ q, creating (f :: rest) = some ⟨q, .used, true⟩ ∧
          creating (next ++ rest) = some ⟨q, .used, false⟩) ∧ (t.me = none → pos (next ++ rest) = pos (f :: rest)) := by
  obtain ⟨-, hfit, hset⟩ := hs
  have htop := topState_of_settled hset
  have hpos := pos_of_settled hset
  cases t with
  | cpu c => cases h <;> simp_all [Fits, Frame.kind, Frame.runState, creating, Frame.creates, pos]
  | proc p =>
    cases h <;> simp_all [Fits, Frame.kind, Frame.runState, creating, Frame.creates, heldStack, Frame.held]

/-- What a section that writes slot `q` does to its state. -/
inductive StateChange (t : Tid N C) (q : Fin N) (old new : Procstate) (st st' : List (Frame N)) : Prop
  | kept : new = old → topState st' = topState st → creating st' = creating st →
      (t.me = none → pos st' = pos st) → StateChange t q old new st st'
  | pick : t.me = none → old = .runnable → new = .running → pos st = none →
      pos st' = some (.assign, q) → StateChange t q old new st st'
  | own : t.me = some q → topState st = .running → new = topState st' → new ≠ .running →
      creating st' = creating st → StateChange t q old new st st'
  | other : (new = .runnable ∧ old = .sleeping) ∨ (new = .unused ∧ old = .zombie) → Settled st → topState st' = .running →
      creating st' = creating st → (t.me = none → pos st' = none) →
      Lock.proc q ∈ heldStack t.own st → StateChange t q old new st st'
  | use : t.me ≠ none → new = .used → Settled st → topState st' = .running →
      creating st = some ⟨q, .unused, false⟩ → creating st' = some ⟨q, .used, false⟩ →
      Lock.proc q ∈ heldStack t.own st → StateChange t q old new st st'
  | fail : t.me ≠ none → new = .unused → Settled st → topState st' = .running →
      creating st = some ⟨q, .used, false⟩ → creating st' = none →
      Lock.proc q ∈ heldStack t.own st → StateChange t q old new st st'
  | start : t.me ≠ none → new = .runnable → Settled st → topState st' = .running →
      creating st = some ⟨q, .used, true⟩ → creating st' = none →
      Lock.proc q ∈ heldStack t.own st → StateChange t q old new st st'

theorem write_view [DecidableEq C] {sh : Shared N C} {q : Fin N} {x : Proc N}
    {next : List (Frame N)} {ev : Event N} (hs : Shape t (f :: rest)) (h : Writes k t.me sh f q x next ev) :
    StateChange t q (sh.proc q).state x.state (f :: rest) (next ++ rest) := by
  obtain ⟨-, hfit, hset⟩ := hs
  have htop := topState_of_settled hset
  cases h with
  | pick p ps hrun =>
    obtain ⟨hme, rfl⟩ := hfit
    exact .pick hme hrun rfl rfl rfl
  | wakeup ch q ps hsl hch | killAsleep p pid q hp hsl =>
    exact .other (.inl ⟨rfl, hsl⟩) rfl rfl rfl (fun _ => rfl) (.head _)
  | reap p addr q ps hp hz =>
    exact .other (.inr ⟨rfl, hz⟩) rfl rfl rfl (fun _ => rfl) (.head _)
  | yield p hp | sleep p ch lk hp | exit p status hp => exact .own hp rfl rfl (by simp) rfl
  | forkUsed p q pid hp => exact .use (by simp [hp]) rfl rfl rfl rfl rfl (.head _)
  | forkFail p q hp =>
    obtain ⟨-, rfl⟩ := hfit
    exact .fail (by simp [hp]) rfl rfl rfl rfl rfl (.head _)
  | forkRun p q pid hp =>
    obtain ⟨-, rfl⟩ := hfit
    exact .start (by simp [hp]) rfl rfl rfl rfl rfl (.head _)
  | grow p sz pagetable hp => exact .kept rfl htop rfl fun hno => absurd hp (by simp [hno])
  | sleepChan p ch lk hp | sleepEnd p ch lk hp | kill p pid q ps hp _ | setkilled p hp
  | reparent p status q ps hp _ | exitStatus p status hp | forkAlloc p q page table hp
  | forkNoMemory p q page hp | forkCopy p q hp | forkParent p q pid hp =>
    exact .kept rfl rfl rfl fun hno => absurd hp (by simp [hno])

end Views

/-! ## Consequences -/

variable {p : Fin N}

theorem held_of_runState {f : Frame N} {rest : List (Frame N)}
    (h : f.runState ≠ .running) : .proc p ∈ heldStack [.proc p] (f :: rest) := by
  cases f <;> simp_all [Frame.runState, heldStack, Frame.kind, Frame.held]

/-- A process that fills an unused slot holds the lock of that slot. -/
theorem held_of_creating {t : Tid N C} :
    ∀ {st : List (Frame N)} {x : Creation N}, Shape t st → creating st = some x → x.state = .unused →
      .proc x.slot ∈ heldStack t.own st
  | [], _, _, h, _ => by cases h
  | f :: rest, x, hs, h, hx => by
    obtain ⟨hrest, hfit, -⟩ := hs
    rw [creating] at h
    cases hf : f.creates with
    | some y =>
      rw [hf, Option.some_or] at h
      cases h
      cases f <;> simp [Frame.creates] at hf <;> subst hf <;>
        simp_all [heldStack, Frame.kind, Frame.held]
    | none =>
      rw [hf, Option.none_or] at h
      have ih := held_of_creating hrest h hx
      cases hk : f.kind with
      | sleep lk =>
        -- a frame of `sleep` stands on a stack that holds one lock, and that is no process's
        simp only [Fits, hk] at hfit
        rw [hfit.2.1, List.mem_singleton] at ih
        exact absurd ih.symm (hfit.2.2.1 x.slot)
      | scheduler | user | call | yield | leaf =>
        simp only [heldStack, hk]
        exact List.mem_append_right _ ih

theorem eq_of_pos {st : List (Frame N)} {a : Pos} {q : Fin N} (h : pos st = some (a, q)) : ∃ ps, st = [match a with
      | .assign => .assign q ps | .switch => .switch q ps | .back => .back q ps] := by
  unfold pos at h
  split at h
  · cases h
    exact ⟨_, rfl⟩
  · cases h
    exact ⟨_, rfl⟩
  · cases h
    exact ⟨_, rfl⟩
  · cases h

theorem held_of_pos {st : List (Frame N)} {a : Pos} {q : Fin N} (h : pos st = some (a, q))
    (own : List (Lock N)) : .proc q ∈ heldStack own st := by
  obtain ⟨ps, rfl⟩ := eq_of_pos h
  cases a <;> exact .head _

theorem creating_of_vacant (h : Vacant st) : creating st = none := by
  unfold Vacant at h
  split at h
  · rfl
  · rfl
  · rfl
  · exact h.elim

section Consequences

variable {s : Sys N C}

theorem LockInv.pos_of_on (hl : LockInv s) {c : C} (hon : s.on c = some p) :
    pos (s.stack (.cpu c)) = some (.back, p) := by
  obtain ⟨ps, hps⟩ := hl.sched hon
  rw [hps]
  rfl

/-- A process that is unused or being set up is on no CPU. -/
theorem CpuInv.not_on (h : CpuInv s)
    (hp : (s.sh.proc p).state = .unused ∨ (s.sh.proc p).state = .used) (c : C) : s.on c ≠ some p := by
  intro hon
  have hrun := h.run hon
  have hne := topState_ne_unused (s.stack (.proc p))
  rw [← hrun] at hne
  rcases hp with hp | hp
  · exact hne.1 hp
  · exact hne.2 hp

/-- A process whose lock is held by a CPU that is busy with something else is on no CPU and no
scheduler is concerned with it, unless it is running. -/
theorem CpuInv.idle (h : CpuInv s) (hl : LockInv s) {c : C} {q : Fin N}
    (hlk : s.lock (.proc q) = some c) (hq : (s.sh.proc q).state ≠ .running)
    (htop : topState (s.stack (s.tid c)) = .running)
    (hpos : s.on c = none → ∀ a, pos (s.stack (.cpu c)) ≠ some (a, q)) :
    (∀ d, s.on d ≠ some q) ∧ ∀ d a, pos (s.stack (.cpu d)) ≠ some (a, q) := by
  have hoff : ∀ d, s.on d ≠ some q := by
    intro d hd
    have hrun := h.run hd
    cases hst : s.stack (.proc q) with
    | nil =>
      rw [hst] at hrun
      exact hq hrun
    | cons f rest =>
      rw [hst, topState_cons] at hrun
      -- the process is leaving its CPU, so it is that CPU which holds the lock
      have hmem : .proc q ∈ heldStack (s.tid d).own (s.stack (s.tid d)) := by
        rw [Sys.tid_of_some hd, hst]
        exact held_of_runState (hrun ▸ hq)
      have hcd : d = c := Option.some.inj (((hl.lock _ d).2 hmem).symm.trans hlk)
      subst hcd
      rw [Sys.tid_of_some hd, hst, topState_cons, ← hrun] at htop
      exact hq htop
  refine ⟨hoff, fun d a hd => ?_⟩
  cases hon : s.on d with
  | some p =>
    rw [hl.pos_of_on hon] at hd
    cases hd
    exact hoff d hon
  | none =>
    have hmem : .proc q ∈ heldStack (s.tid d).own (s.stack (s.tid d)) := by
      rw [Sys.tid_of_none hon]
      exact held_of_pos hd _
    have hcd : d = c := Option.some.inj (((hl.lock _ d).2 hmem).symm.trans hlk)
    subst hcd
    exact hpos hon a hd

end Consequences

end Xv6.Sched
