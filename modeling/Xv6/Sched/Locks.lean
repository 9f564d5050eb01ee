import Xv6.Sched.Code

/-!
# Which locks a thread holds

The locks a thread holds can be read off its stack: `Frame.held` gives them place by place and
`heldStack` adds them up. `LockInv` says that the lock table agrees with the stacks of the threads that are
on a CPU, that a thread off its CPU is one whose lock the scheduler holds for it, and that stacks have
the shape the code gives them. Each lock then excludes: two threads whose stacks both hold it are one.
-/

set_option autoImplicit false

namespace Xv6.Sched

variable {N : Nat} {C : Type}

/-- The lock of a thread's own process. -/
def Tid.own : Tid N C → List (Lock N)
  | .cpu _ => []
  | .proc p => [.proc p]

/-- How a frame stands on the rest of its stack. -/
inductive Kind (N : Nat) where
  | scheduler
  | user
  | call
  | yield
  | sleep (lk : Lock N)
  | leaf

def Frame.kind : Frame N → Kind N
  | .scan _ | .pick _ _ | .assign _ _ | .switch _ _ | .back _ _ | .drop _ _ => .scheduler
  | .user => .user
  | .yield0 | .yield1 | .yield2 | .yield3 => .yield
  | .sleep0 _ lk | .sleep1 _ lk | .sleep2 _ lk | .sleep3 _ lk | .sleep4 _ lk | .sleep5 _ lk
  | .sleep6 _ lk | .sleep7 _ lk => .sleep lk
  | .wakeup _ _ | .wakeup1 _ _ _ | .wakeup2 _ _ _ | .client0 _ | .holding _ _ => .leaf
  | _ => .call

/-- Locks held at a place, by a thread whose own process lock is `own`. -/
def Frame.held (own : List (Lock N)) : Frame N → List (Lock N)
  | .pick p _ | .assign p _ | .switch p _ | .back p _ | .drop p _ => [.proc p]
  | .forkret | .yield1 | .yield2 | .yield3 | .setkilled1 | .setkilled2 | .exit6 | .dead => own
  | .sleep0 _ lk => [lk]
  | .sleep1 _ lk => lk :: own
  | .sleep2 _ _ | .sleep3 _ _ | .sleep4 _ _ | .sleep5 _ _ | .sleep6 _ _ => own
  | .wakeup1 _ q _ | .wakeup2 _ q _ | .kill1 _ q _ | .kill2 _ q | .kill3 q | .kill4 _ q _ => [.proc q]
  | .reparent _ _ | .exit2 _ | .waitScan _ _ _ | .waitLock _ _ _ | .waitKilled0 _ | .waitFail
  | .waitRet _ | .forkParent1 _ _ | .forkParent2 _ _ => [.wait]
  | .exit3 _ | .exit4 _ | .exit5 | .waitKilled1 _ | .waitKilled2 _ _ => .wait :: own
  | .waitTest _ q _ | .waitDone q _ | .waitErr q | .waitDrop _ q _ => [.proc q, .wait]
  | .forkTest q _ | .forkDrop q _ | .forkPid0 q | .forkUsed q _ | .forkAlloc q | .forkContext q
  | .forkCopy q | .forkFail q | .forkFail1 q | .forkRel q _ | .forkRun1 q _ | .forkRun2 q _ =>
    [.proc q]
  | .forkPid1 q | .forkPid2 q _ => [.pid, .proc q]
  | .holding l _ => [.other l]
  | _ => []

/-- Locks held by a thread. A call of `sleep(chan, lk)` gives up and retakes the caller's only lock
`lk`, so its frame accounts for the whole stack below it. -/
def heldStack (own : List (Lock N)) : List (Frame N) → List (Lock N)
  | [] => []
  | f :: rest => match f.kind with
      | .sleep _ => f.held own
      | _ => f.held own ++ heldStack own rest

/-- How a frame may stand on a stack. The only caller of `sleep` with `wait_lock` is `wait`, which scans the
table again afterwards. -/
def Fits (t : Tid N C) (f : Frame N) (rest : List (Frame N)) : Prop :=
  match f.kind with
  | .scheduler => t.me = none ∧ rest = []
  | .user => t.me ≠ none ∧ rest = []
  | .call => t.me ≠ none ∧ rest = [.user]
  | .yield => t.me ≠ none ∧ heldStack t.own rest = []
  | .sleep lk => t.me ≠ none ∧ heldStack t.own rest = [lk] ∧ (∀ q, lk ≠ .proc q) ∧
      (lk = .wait → ∃ addr, rest = [.waitScan addr false (procs N), .user])
  | .leaf => rest ≠ []

/-- The place can be interrupted or be in a call. A process that is about to leave its CPU, goes to
sleep or has just taken a slot, and a scheduler that has chosen a process are not. -/
def Frame.settled : Frame N → Bool
  | .yield2 | .sleep0 _ _ | .sleep1 _ _ | .sleep2 _ _ | .sleep3 _ _ | .sleep4 _ _ | .sleep5 _ _ | .exit5
  | .exit6 | .forkAlloc _ | .forkContext _ | .assign _ _ | .switch _ _ | .back _ _ => false
  | _ => true

/-- What a stack must be to have another frame pushed on it. -/
def Settled : List (Frame N) → Prop
  | [] => True
  | f :: _ => f.settled = true

/-- The shape of a thread's stack. -/
def Shape (t : Tid N C) : List (Frame N) → Prop
  | [] => True
  | f :: rest => Shape t rest ∧ Fits t f rest ∧ Settled rest

@[simp] theorem settled_cons (f : Frame N) (rest : List (Frame N)) : Settled (f :: rest) ↔ f.settled = true := Iff.rfl

@[simp] theorem Tid.own_cpu (c : C) : (Tid.cpu c : Tid N C).own = [] := rfl

@[simp] theorem Tid.own_proc (p : Fin N) : (Tid.proc p : Tid N C).own = [.proc p] := rfl

@[simp] theorem Tid.me_cpu (c : C) : (Tid.cpu c : Tid N C).me = none := rfl

@[simp] theorem Tid.me_proc (p : Fin N) : (Tid.proc p : Tid N C).me = some p := rfl

variable {ev : Event N} {p : Fin N} {lk : Lock N}

section Flow

variable {k : Cfg N} {c : C} {t : Tid N C} {f : Frame N} {rest : List (Frame N)}

variable {next : List (Frame N)}

/-- Taking a lock adds it to what the stack holds. -/
theorem acquire_flow (hs : Shape t (f :: rest)) (h : Acquires k t.me f lk next) : Shape t (next ++ rest) ∧
      (heldStack t.own (next ++ rest)).Perm (lk :: heldStack t.own (f :: rest)) := by
  obtain ⟨hrest, hfit, htop⟩ := hs
  cases t with
  | cpu c => cases h <;> simp_all [Fits, Shape, heldStack, Frame.kind, Frame.held]
  | proc p =>
    cases h <;> simp_all [Fits, Shape, heldStack, Frame.kind, Frame.held, Frame.settled, List.Perm.swap]

/-- Giving a lock back takes it away from what the stack holds. -/
theorem release_flow (hs : Shape t (f :: rest)) (h : Releases t.me f lk next ev) : Shape t (next ++ rest) ∧
      (heldStack t.own (f :: rest)).Perm (lk :: heldStack t.own (next ++ rest)) := by
  obtain ⟨hrest, hfit, htop⟩ := hs
  cases t with
  | cpu c => cases h <;> simp_all [Fits, Shape, heldStack, Frame.kind, Frame.held]
  | proc p =>
    cases h <;> simp_all [Fits, Shape, heldStack, Frame.kind, Frame.held, Frame.settled, List.Perm.swap]

/-- A section of work holds the same locks before and after. -/
theorem act_flow [DecidableEq C] {sh sh' : Shared N C} (hs : Shape t (f :: rest)) (h : Acts k c t.me sh f sh' next ev) :
    Shape t (next ++ rest) ∧ heldStack t.own (next ++ rest) = heldStack t.own (f :: rest) := by
  obtain ⟨hrest, hfit, htop⟩ := hs
  cases t with
  | cpu c =>
    cases h with
    | move h | write h => cases h <;> simp_all [Fits, Shape, heldStack, Frame.kind, Frame.held]
    | pid p q hp hf => cases hp
    | assign p ps hf | back p ps hf => subst hf; simp_all [Fits, Shape, heldStack, Frame.kind, Frame.held]
  | proc p =>
    cases h with
    | move h | write h => cases h <;> simp_all [Fits, Shape, heldStack, Frame.kind, Frame.held, Frame.settled]
    | pid p q hp hf => subst hf; simp_all [Fits, Shape, heldStack, Frame.kind, Frame.held, Frame.settled]
    | assign p ps hf | back p ps hf => subst hf; simp [Fits, Frame.kind] at hfit

/-- A process that leaves its CPU holds its own lock and no other, and will hold it again when it goes
on. -/
theorem leave_flow {next : Frame N} (hs : Shape (.proc p : Tid N C) (f :: rest)) (h : Leaves f next) :
    Shape (.proc p : Tid N C) (next :: rest) ∧ heldStack [.proc p] (f :: rest) = [.proc p] ∧
      heldStack [.proc p] (next :: rest) = [.proc p] := by
  obtain ⟨hrest, hfit, htop⟩ := hs
  cases h <;> simp_all [Fits, Shape, heldStack, Frame.kind, Frame.held, Frame.settled]

end Flow

/-! ## The lock table -/

/-- The lock table agrees with the stacks. `live` and `saved` tie the two places a thread can be in: on
one CPU, or in a context that is good to switch to, its own lock then being held for it. -/
structure LockInv (s : Sys N C) : Prop where
  shape : ∀ t, Shape t (s.stack t)
  lock : ∀ lk c, s.lock lk = some c ↔ lk ∈ heldStack (s.tid c).own (s.stack (s.tid c))
  nodup : ∀ c, (heldStack (s.tid c).own (s.stack (s.tid c))).Nodup
  unique : ∀ {c d p}, s.on c = some p → s.on d = some p → c = d
  sched : ∀ {c p}, s.on c = some p → ∃ ps, s.stack (.cpu c) = [.back p ps]
  live : ∀ {c p}, s.on c = some p → s.saved p = false
  saved : ∀ {p}, s.saved p = true → heldStack [.proc p] (s.stack (.proc p)) = [.proc p]

variable {s : Sys N C}

theorem LockInv.tid_inj (h : LockInv s) {c d : C} (e : s.tid c = s.tid d) : c = d := by
  cases hc : s.on c with
  | none =>
    rw [Sys.tid_of_none hc] at e
    cases hd : s.on d with
    | none => rw [Sys.tid_of_none hd] at e; cases e; rfl
    | some q => rw [Sys.tid_of_some hd] at e; cases e
  | some p =>
    rw [Sys.tid_of_some hc] at e
    exact h.unique hc (Sys.on_of_tid e.symm)

/-- A thread whose CPU holds no lock has a stack that holds none. -/
theorem LockInv.held_nil {c : C} (h : LockInv s) (hno : ∀ lk, s.lock lk ≠ some c) :
    heldStack (s.tid c).own (s.stack (s.tid c)) = [] :=
  List.eq_nil_iff_forall_not_mem.2 fun lk hlk => hno lk ((h.lock lk c).2 hlk)

/-- A place that cannot be interrupted holds a lock. -/
theorem settled_of_held_nil {t : Tid N C} {f : Frame N} {rest : List (Frame N)}
    (hs : Shape t (f :: rest)) (hnil : heldStack t.own (f :: rest) = []) : f.settled = true := by
  obtain ⟨-, hfit, -⟩ := hs
  cases t with
  | cpu c =>
    cases f <;> simp_all [Fits, heldStack, Frame.kind, Frame.held, Frame.settled]
  | proc p =>
    cases f <;> simp_all [heldStack, Frame.kind, Frame.held, Frame.settled]

variable {f : Frame N}

theorem syscall_shape (h : Syscall f) : Shape (.proc p : Tid N C) [f, .user] ∧ heldStack [.proc p] [f, .user] = [] := by
  cases h <;>
    simp [Shape, Fits, Frame.kind, Settled, Frame.settled, heldStack, Frame.held]

theorem heldStack_leaf {own : List (Lock N)} (h : f.kind = .leaf)
    (rest : List (Frame N)) : heldStack own (f :: rest) = f.held own ++ heldStack own rest := by
  simp only [heldStack, h]

theorem LockInv.setShared (h : LockInv s) (sh : Shared N C) : LockInv (s.setShared sh) :=
  ⟨h.shape, h.lock, h.nodup, h.unique, h.sched, h.live, h.saved⟩

section Table

variable [DecidableEq C] {s u : Sys N C} {c : C} {st : List (Frame N)}

section

variable (h : LockInv s)
include h

/-- The thread on CPU `c` changes its stack, and the lock table follows. -/
theorem LockInv.update (hon : u.on = s.on) (hsaved : u.saved = s.saved)
    (hstack : u.stack = Function.update s.stack (s.tid c) st)
    (hshape : Shape (s.tid c) st) (hnodup : (heldStack (s.tid c).own st).Nodup)
    (hself : ∀ lk, u.lock lk = some c ↔ lk ∈ heldStack (s.tid c).own st)
    (hother : ∀ lk d, d ≠ c → (u.lock lk = some d ↔ s.lock lk = some d)) : LockInv u := by
  have htid : ∀ d, u.tid d = s.tid d := Sys.tid_congr hon
  have hne : ∀ d, d ≠ c → u.stack (u.tid d) = s.stack (s.tid d) := by
    intro d hd
    rw [htid, hstack, Function.update_of_ne fun e => hd (h.tid_inj e)]
  have heq : u.stack (u.tid c) = st := by
    rw [htid, hstack, Function.update_self]
  constructor
  · intro t
    rw [hstack]
    by_cases ht : t = s.tid c
    · subst ht
      rw [Function.update_self]
      exact hshape
    · rw [Function.update_of_ne ht]
      exact h.shape t
  · intro lk d
    by_cases hd : d = c
    · subst hd
      rw [heq, htid]
      exact hself lk
    · rw [hne d hd, htid, hother lk d hd]
      exact h.lock lk d
  · intro d
    by_cases hd : d = c
    · subst hd
      rw [heq, htid]
      exact hnodup
    · rw [hne d hd, htid]
      exact h.nodup d
  · intro c1 d1 p h1 h2
    rw [hon] at h1 h2
    exact h.unique h1 h2
  · intro d p hd
    rw [hon] at hd
    have hcpu : Tid.cpu d ≠ s.tid c := by
      intro e
      cases hc : s.on c with
      | none =>
        rw [Sys.tid_of_none hc] at e
        cases e
        rw [hc] at hd
        cases hd
      | some q => rw [Sys.tid_of_some hc] at e; cases e
    rw [hstack, Function.update_of_ne hcpu]
    exact h.sched hd
  · intro d p hd
    rw [hon] at hd
    rw [hsaved]
    exact h.live hd
  · intro p hp
    rw [hsaved] at hp
    have hproc : Tid.proc p ≠ s.tid c := by
      intro e
      rw [h.live (Sys.on_of_tid e.symm)] at hp
      cases hp
    rw [hstack, Function.update_of_ne hproc]
    exact h.saved hp

/-- A step that takes no lock and gives none back. -/
theorem LockInv.move (hon : u.on = s.on) (hsaved : u.saved = s.saved)
    (hlock : u.lock = s.lock) (hstack : u.stack = Function.update s.stack (s.tid c) st) (hshape : Shape (s.tid c) st)
    (hheld : heldStack (s.tid c).own st = heldStack (s.tid c).own (s.stack (s.tid c))) : LockInv u := by
  refine h.update hon hsaved hstack hshape ?_ ?_ ?_
  · rw [hheld]
    exact h.nodup c
  · intro lk
    rw [hlock, hheld]
    exact h.lock lk c
  · intro lk d _
    rw [hlock]

theorem LockInv.acquire (hfree : s.lock lk = none) (hshape : Shape (s.tid c) st)
    (hheld : (heldStack (s.tid c).own st).Perm (lk :: heldStack (s.tid c).own (s.stack (s.tid c)))) :
    LockInv ((s.setLock lk (some c)).setStack (s.tid c) st) := by
  have hnot : lk ∉ heldStack (s.tid c).own (s.stack (s.tid c)) := by
    intro hmem
    rw [(h.lock lk c).2 hmem] at hfree
    cases hfree
  refine h.update rfl rfl rfl hshape (hheld.nodup_iff.2 (List.nodup_cons.2 ⟨hnot, h.nodup c⟩)) ?_ ?_
  · intro lk'
    rw [hheld.mem_iff, List.mem_cons, ← h.lock]
    simp only [Sys.setStack_lock, Sys.setLock_lock]
    by_cases e : lk' = lk
    · subst e
      simp
    · rw [Function.update_of_ne e]
      simp [e]
  · intro lk' d hd
    simp only [Sys.setStack_lock, Sys.setLock_lock]
    by_cases e : lk' = lk
    · subst e
      rw [Function.update_self, hfree]
      simp [hd.symm]
    · rw [Function.update_of_ne e]

theorem LockInv.release (hmine : s.lock lk = some c) (hshape : Shape (s.tid c) st)
    (hheld : (heldStack (s.tid c).own (s.stack (s.tid c))).Perm (lk :: heldStack (s.tid c).own st)) :
    LockInv ((s.setLock lk none).setStack (s.tid c) st) := by
  have hnd := List.nodup_cons.1 (hheld.nodup_iff.1 (h.nodup c))
  refine h.update rfl rfl rfl hshape hnd.2 ?_ ?_
  · intro lk'
    simp only [Sys.setStack_lock, Sys.setLock_lock]
    by_cases e : lk' = lk
    · subst e
      rw [Function.update_self]
      simp [hnd.1]
    · rw [Function.update_of_ne e, h.lock lk' c, hheld.mem_iff]
      simp [e]
  · intro lk' d hd
    simp only [Sys.setStack_lock, Sys.setLock_lock]
    by_cases e : lk' = lk
    · subst e
      rw [Function.update_self, hmine]
      simp [hd.symm]
    · rw [Function.update_of_ne e]

/-- A change of context. Thread `t` gets the stack `st`, the context of process `q` becomes good or not,
and every CPU holds the locks it held. A process is on a CPU where it was before, unless it is `q`, which
comes to CPU `c`. -/
theorem LockInv.swtch {t : Tid N C} {q : Fin N} {good : Bool} (hlock : u.lock = s.lock)
    (hstack : u.stack = Function.update s.stack t st) (hsaved : u.saved = Function.update s.saved q good)
    (hshape : Shape t st) (hheld : ∀ d, (u.on d = s.on d ∧ s.tid d ≠ t) ∨
      heldStack (u.tid d).own (u.stack (u.tid d)) = heldStack (s.tid d).own (s.stack (s.tid d)))
    (hon : ∀ {d p}, u.on d = some p → (s.on d = some p ∧ p ≠ q ∧ .cpu d ≠ t) ∨
      (p = q ∧ (∀ e, u.on e = some q → e = d) ∧ good = false ∧ ∃ ps, u.stack (.cpu d) = [.back q ps]))
    (hgood : good = true → heldStack [.proc q] (u.stack (.proc q)) = [.proc q])
    (hproc : ∀ {p}, p ≠ q → .proc p ≠ t) : LockInv u := by
  have hsame : ∀ d, heldStack (u.tid d).own (u.stack (u.tid d)) = heldStack (s.tid d).own (s.stack (s.tid d)) := by
    intro d
    rcases hheld d with ⟨hd, ht⟩ | hd
    · rw [Sys.tid, hd, ← Sys.tid, hstack, Function.update_of_ne ht]
    · exact hd
  constructor
  · intro t'
    rw [hstack]
    by_cases ht : t' = t
    · subst ht
      rw [Function.update_self]
      exact hshape
    · rw [Function.update_of_ne ht]
      exact h.shape t'
  · intro lk d
    rw [hlock, hsame]
    exact h.lock lk d
  · intro d
    rw [hsame]
    exact h.nodup d
  · intro d e p hd he
    rcases hon hd with ⟨hd', hp, -⟩ | ⟨rfl, huniq, -⟩
    · rcases hon he with ⟨he', -⟩ | ⟨hpq, -⟩
      · exact h.unique hd' he'
      · exact absurd hpq hp
    · exact (huniq e he).symm
  · intro d p hd
    rcases hon hd with ⟨hd', -, hcpu⟩ | ⟨rfl, -, -, hback⟩
    · rw [hstack, Function.update_of_ne hcpu]
      exact h.sched hd'
    · exact hback
  · intro d p hd
    rw [hsaved]
    rcases hon hd with ⟨hd', hp, -⟩ | ⟨rfl, -, hbad, -⟩
    · rw [Function.update_of_ne hp]
      exact h.live hd'
    · rw [Function.update_self]
      exact hbad
  · intro p hp
    rw [hsaved] at hp
    by_cases hpq : p = q
    · subst hpq
      rw [Function.update_self] at hp
      exact hgood hp
    · rw [Function.update_of_ne hpq] at hp
      rw [hstack, Function.update_of_ne (hproc hpq)]
      exact h.saved hp

/-- `swtch` into a process that is on no CPU and whose context is good. -/
theorem LockInv.swtchTo {ps : List (Fin N)} (hon : s.on c = none)
    (hst : s.stack (.cpu c) = [.switch p ps]) (hsaved : s.saved p = true) (hoff : ∀ d, s.on d ≠ some p) :
    LockInv (((s.setStack (.cpu c) [.back p ps]).setOn c (some p)).setSaved p false) := by
  refine h.swtch rfl rfl rfl ?_ ?_ ?_ (by simp) (by simp)
  · simp [Shape, Fits, Frame.kind, Settled]
  · intro d
    by_cases hd : d = c
    · subst hd
      right
      rw [Sys.tid_of_none hon, hst]
      simpa [Sys.tid, heldStack, Frame.kind, Frame.held] using h.saved hsaved
    · exact .inl ⟨by simp [hd], fun e => hd (h.tid_inj (e.trans (Sys.tid_of_none hon).symm))⟩
  · intro d q hd
    by_cases hdc : d = c
    · subst hdc
      refine .inr ⟨by simpa using hd.symm, fun e he => ?_, rfl, ps, by simp⟩
      by_contra hne
      exact hoff e (by simpa [hne] using he)
    · have hq : s.on d = some q := by simpa [hdc] using hd
      exact .inl ⟨hq, fun e => hoff d (e ▸ hq), by simpa using hdc⟩

/-- `swtch` back to the scheduler. -/
theorem LockInv.swtchBack {p : Fin N} {f next : Frame N} {rest : List (Frame N)}
    (hon : s.on c = some p) (hst : s.stack (.proc p) = f :: rest) (hleave : Leaves f next) :
    LockInv (((s.setStack (.proc p) (next :: rest)).setOn c none).setSaved p true) := by
  obtain ⟨hshape, hbefore, hafter⟩ := leave_flow (hst ▸ h.shape (.proc p)) hleave
  obtain ⟨ps, hback⟩ := h.sched hon
  refine h.swtch rfl rfl rfl hshape ?_ ?_ (by simpa using hafter) (by simp)
  · intro d
    by_cases hd : d = c
    · subst hd
      right
      rw [Sys.tid_of_some hon, hst]
      refine Eq.trans ?_ hbefore.symm
      simp [Sys.tid, hback, heldStack, Frame.kind, Frame.held]
    · exact .inl ⟨by simp [hd], fun e => hd (h.unique (Sys.on_of_tid e) hon)⟩
  · intro d q hd
    have hdc : d ≠ c := by
      rintro rfl
      simp at hd
    have hq : s.on d = some q := by simpa [hdc] using hd
    exact .inl ⟨hq, fun e => hdc (h.unique (e ▸ hq) hon), by simp⟩

/-- `allocproc` sets up the context of a process that is on no CPU. -/
theorem LockInv.context {q : Fin N} (hoff : ∀ d, s.on d ≠ some q) :
    LockInv ((s.setStack (.proc q) [.forkret, .user]).setSaved q true) := by
  refine h.swtch rfl rfl rfl ?_ ?_ ?_ ?_ (by simp)
  · simp [Shape, Fits, Frame.kind, Settled, Frame.settled]
  · intro d
    exact .inl ⟨rfl, fun e => hoff d (Sys.on_of_tid e)⟩
  · intro d p hd
    exact .inl ⟨hd, fun e => hoff d (e ▸ hd), by simp⟩
  · intro _
    simp [heldStack, Frame.kind, Frame.held]

end

/-! ## Pushed frames -/

section

variable (h : LockInv s)
include h

theorem LockInv.syscall (hon : s.on c = some p) (hst : s.stack (.proc p) = [.user]) (hf : Syscall f) :
    LockInv (s.setStack (.proc p) [f, .user]) := by
  obtain ⟨hshape, hheld⟩ := syscall_shape (C := C) (p := p) hf
  have htid := Sys.tid_of_some hon
  refine h.move (c := c) rfl rfl rfl (by rw [htid]; rfl) (by rw [htid]; exact hshape) ?_
  rw [htid, hst]
  exact hheld

theorem LockInv.timer {p : Fin N} {f : Frame N} {rest : List (Frame N)}
    (hon : s.on c = some p) (hst : s.stack (.proc p) = f :: rest) (hno : ∀ lk, s.lock lk ≠ some c) :
    LockInv (s.setStack (.proc p) (.yield0 :: f :: rest)) := by
  have htid := Sys.tid_of_some hon
  have hshape := h.shape (.proc p)
  have hnil := h.held_nil hno
  rw [htid, hst] at hnil
  rw [hst] at hshape
  refine h.move (c := c) rfl rfl rfl (by rw [htid]; rfl) ?_ ?_
  · rw [htid]
    exact ⟨hshape, ⟨by simp, hnil⟩, settled_of_held_nil hshape hnil⟩
  · rw [htid, hst]
    exact hnil ▸ hnil

theorem LockInv.interrupt {f : Frame N} {rest : List (Frame N)}
    (hst : s.stack (s.tid c) = f :: rest) (hno : ∀ lk, s.lock lk ≠ some c) (l : Nat) :
    LockInv (s.setStack (s.tid c) (.client0 l :: f :: rest)) := by
  have hshape := h.shape (s.tid c)
  have hnil := h.held_nil hno
  rw [hst] at hnil hshape
  refine h.move (c := c) rfl rfl rfl rfl ?_ ?_
  · exact ⟨hshape, by simp [Fits, Frame.kind], settled_of_held_nil hshape hnil⟩
  · rw [hst]
    rfl

/-- A client that holds its lock pushes a frame that holds none. -/
theorem LockInv.push {l : Nat} {owes owes' : Bool} {rest : List (Frame N)}
    {f : Frame N} (hst : s.stack (s.tid c) = .holding l owes :: rest) (hkind : f.kind = .leaf)
    (hheld : f.held (s.tid c).own = []) : LockInv (s.setStack (s.tid c) (f :: .holding l owes' :: rest)) := by
  have hshape := h.shape (s.tid c)
  rw [hst] at hshape
  refine h.move (c := c) rfl rfl rfl rfl ?_ ?_
  · refine ⟨⟨hshape.1, ?_, hshape.2.2⟩, ?_, rfl⟩
    · simpa [Fits, Frame.kind] using hshape.2.1
    · simp [Fits, hkind]
  · rw [hst, heldStack_leaf hkind, hheld]
    rfl

theorem LockInv.sleep {p : Fin N} {l a : Nat} {rest : List (Frame N)}
    (hon : s.on c = some p) (hst : s.stack (.proc p) = .holding l false :: rest)
    (honly : ∀ lk, s.lock lk = some c → lk = .other l) :
    LockInv (s.setStack (.proc p) (.sleep0 (.addr a) (.other l) :: .holding l false :: rest)) := by
  have htid := Sys.tid_of_some hon
  have hshape := h.shape (.proc p)
  have hnd := h.nodup c
  rw [htid, hst] at hnd
  rw [hst] at hshape
  -- the client's lock is the only one its stack holds
  have hrest : heldStack [.proc p] rest = [] := by
    refine List.eq_nil_iff_forall_not_mem.2 fun lk hlk => ?_
    have hmem : lk ∈ heldStack (s.tid c).own (s.stack (s.tid c)) := by
      rw [htid, hst]
      exact .tail _ hlk
    have e := honly lk ((h.lock lk c).2 hmem)
    subst e
    exact (List.nodup_cons.1 hnd).1 hlk
  have hheld : heldStack (Tid.proc p : Tid N C).own (.holding l false :: rest) = [.other l] := by
    simp [heldStack, Frame.kind, Frame.held, hrest]
  refine h.move (c := c) rfl rfl rfl (by rw [htid]; rfl) ?_ ?_
  · rw [htid]
    exact ⟨hshape, ⟨by simp, hheld, by simp⟩, rfl⟩
  · rw [htid, hst, hheld]
    rfl

theorem LockInv.unlock {l : Nat} {rest : List (Frame N)}
    (hst : s.stack (s.tid c) = .holding l false :: rest) (hmine : s.lock (.other l) = some c) :
    LockInv ((s.setLock (.other l) none).setStack (s.tid c) rest) := by
  have hshape := h.shape (s.tid c)
  rw [hst] at hshape
  refine h.release hmine hshape.1 ?_
  rw [hst]
  exact .refl _

theorem LockInv.make {l : Nat} {owes owes' : Bool} {rest : List (Frame N)}
    (hst : s.stack (s.tid c) = .holding l owes :: rest) :
    LockInv (s.setStack (s.tid c) (.holding l owes' :: rest)) := by
  have hshape := h.shape (s.tid c)
  rw [hst] at hshape
  refine h.move (c := c) rfl rfl rfl rfl ⟨hshape.1, ?_, hshape.2.2⟩ ?_
  · simpa [Fits, Frame.kind] using hshape.2.1
  · rw [hst]
    rfl

/-- Every step keeps the lock table in order, as long as the scheduler switches to processes that are
off their CPU and `allocproc` sets up contexts that nobody uses. -/
theorem LockInv.step {k : Cfg N} (hto : ∀ c p ps, s.on c = none → s.stack (.cpu c) = [.switch p ps] →
      s.saved p = true ∧ ∀ d, s.on d ≠ some p)
    (hctx : ∀ c q rest, s.stack (s.tid c) = .forkContext q :: rest → ∀ d, s.on d ≠ some q)
    (hs : Step k s ev u) : LockInv u := by
  cases hs with
  | acquire c f rest lk next hst hi hfree =>
    obtain ⟨hshape, hheld⟩ := acquire_flow (hst ▸ h.shape _) (acquires_of_instr hi)
    exact h.acquire hfree hshape (by rw [hst]; exact hheld)
  | release c f rest lk next ev hst hi hmine =>
    obtain ⟨hshape, hheld⟩ := release_flow (hst ▸ h.shape _) (releases_of_instr hi)
    exact h.release hmine hshape (by rw [hst]; exact hheld)
  | act c f rest g inp hst hi =>
    obtain ⟨hshape, hheld⟩ := act_flow (hst ▸ h.shape _) (acts_of_instr hi inp s.sh)
    exact h.move (c := c) rfl rfl rfl rfl hshape (by rw [hst]; exact hheld)
  | swtchTo c f rest p next hon hst hi =>
    obtain ⟨ps, rfl, rfl⟩ := switch_of_instr hi
    have hnil : rest = [] := by
      have hshape := h.shape (.cpu c)
      rw [hst] at hshape
      exact hshape.2.1.2
    subst hnil
    obtain ⟨hsaved, hoff⟩ := hto c p ps hon hst
    exact h.swtchTo hon hst hsaved hoff
  | swtchBack c p f rest next hon hst hi => exact h.swtchBack hon hst (leaves_of_instr hi)
  | context c f rest q next hst hi =>
    obtain ⟨⟨p, hp⟩, rfl, rfl⟩ := context_of_instr hi
    have hshape := h.shape (s.tid c)
    rw [hst] at hshape
    have hmove : LockInv (s.setStack (s.tid c) (.forkCopy q :: rest)) := by
      refine h.move (c := c) rfl rfl rfl rfl ?_ ?_
      · simpa [Shape, Fits, Frame.kind] using hshape
      · rw [hst]
        rfl
    exact hmove.context (hctx c q rest hst)
  | syscall c p f hon hst hf => exact h.syscall hon hst hf
  | timer c p f rest hon hst hno => exact h.timer hon hst hno
  | interrupt c f rest l hst hno => exact h.interrupt hst hno l
  | nested c l l' owes rest hst | wake c l owes rest ch hst => exact h.push hst rfl rfl
  | sleep c p l a rest hon hst honly _ => exact h.sleep hon hst honly
  | unlock c l rest hst hmine => exact h.unlock hst hmine
  | make c owes rest hst => exact (h.make hst).setShared _
  | clear => exact h.setShared _

end

end Table

theorem LockInv.boot (k : Cfg N) (sz pagetable trapframe : Nat) (cond : Bool) :
    LockInv (Sys.boot k sz pagetable trapframe cond : Sys N C) := by
  refine ⟨?_, ?_, ?_, ?_, ?_, ?_, ?_⟩
  · intro t
    cases t with
    | cpu c => simp [Sys.boot, Shape, Fits, Frame.kind, Settled]
    | proc p =>
      by_cases hp : p = k.initproc
      · simp [Sys.boot, hp, Shape, Fits, Frame.kind, Settled, Frame.settled]
      · simp [Sys.boot, hp, Shape]
  · simp [Sys.boot, Sys.tid, heldStack, Frame.kind, Frame.held]
  · simp [Sys.boot, Sys.tid, heldStack, Frame.kind, Frame.held]
  · simp [Sys.boot]
  · simp [Sys.boot]
  · simp [Sys.boot]
  · intro p hp
    have hi : p = k.initproc := by simpa [Sys.boot] using hp
    simp [Sys.boot, hi, heldStack, Frame.kind, Frame.held]

end Xv6.Sched
