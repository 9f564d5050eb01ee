import Xv6.Sched.Slots

/-!
# Parents and children

Which process is whose parent. `fork` sets the parent of the slot it fills before the slot becomes a process,
and `exit` gives all children to `initproc` before it becomes a zombie; both hold `wait_lock`. So every
process other than `initproc` has at all times a parent that has not exited (`FamilyInv.parent`).

A process executes at most one system call at a time, whose frame stands right above `user` and stays
there while the frames of `sleep`, `wakeup` and interrupt handlers come and go above it; `call` finds it.
-/

set_option autoImplicit false
set_option linter.unusedSectionVars false

namespace Xv6.Sched

open Function (update update_self update_of_ne)

variable {N : Nat} {C : Type} [DecidableEq C]

/-- The frame of the system call that a process is executing. -/
def call : List (Frame N) → Option (Frame N)
  | [] => none
  | f :: rest => match f.kind with
      | .call => some f
      | _ => call rest

/-- `SLEEPING`, `RUNNABLE` or `RUNNING`. -/
def Procstate.live : Procstate → Bool
  | .sleeping | .runnable | .running => true
  | _ => false

/-- Neither a free slot nor one that is being set up. -/
def Procstate.born : Procstate → Bool
  | .unused | .used => false
  | _ => true

/-- The child that a `fork` has become the parent of and has yet to start. -/
def Frame.fathers : Frame N → Option (Fin N)
  | .forkParent2 q _ | .forkRun0 q _ | .forkRun1 q _ => some q
  | _ => none

/-- Where system calls and new processes start, and where a process ends. -/
def Frame.first : Frame N → Bool
  | .kill _ _ | .setkilled0 | .grow _ _ | .exit0 _ | .wait0 _ | .fork _ | .forkCopy _ | .forkret | .dead => true
  | _ => false

/-- The part of the table in which an `exit` may have left children of its process. -/
def Frame.orphans : Frame N → Option (List (Fin N))
  | .reparent _ ps => some ps
  | .exit2 _ | .exit3 _ | .exit4 _ => some []
  | _ => none

variable {f : Frame N}

theorem creates_of_kind (h : f.kind ≠ .call) : f.creates = none := by
  cases f <;> simp_all [Frame.kind, Frame.creates]

theorem creating_of_call {x : Creation N} (hx : f.creates = some x) :
    ∀ {st : List (Frame N)}, call st = some f → creating st = some x
  | [], h => by cases h
  | g :: rest, h => by
    by_cases hg : g.kind = .call
    · simp only [call, hg] at h
      cases h
      exact creating_of_creates hx rest
    · have hrest : call rest = some f := by
        cases hk : g.kind <;> simp_all [call]
      rw [creating, creates_of_kind hg, Option.none_or]
      exact creating_of_call hx hrest

/-- An instruction at the frame `f` of a system call, with the frames that replace it. -/
inductive Fires (k : Cfg N) (c : C) (p : Fin N) (sh : Shared N C) (f : Frame N) :
    Shared N C → List (Frame N) → Event N → Prop
  | acquire {lk : Lock N} {next : List (Frame N)} : Acquires k (some p) f lk next →
      Fires k c p sh f sh next .silent
  | release {lk : Lock N} {next : List (Frame N)} {ev : Event N} : Releases (some p) f lk next ev →
      Fires k c p sh f sh next ev
  | move {next : List (Frame N)} {ev : Event N} : Moves (some p) sh f next ev →
      Fires k c p sh f sh next ev
  | write {q : Fin N} {x : Proc N} {next : List (Frame N)} {ev : Event N} :
      Writes k (some p) sh f q x next ev → Fires k c p sh f (sh.setProc q x) next ev
  | pid (q : Fin N) : f = .forkPid1 q →
      Fires k c p sh f { sh with nextpid := sh.nextpid + 1 } [.forkPid2 q sh.nextpid] .silent

/-- What a step does to the system call of its process: it leaves it alone, or its frame is on top and is
replaced, or a system call starts. -/
inductive CallStep (k : Cfg N) (c : C) (p : Fin N) (sh : Shared N C) (st : List (Frame N))
    (sh' : Shared N C) (st' : List (Frame N)) (ev : Event N) : Prop
  | above : call st' = call st → (∀ q, (sh'.proc q).parent = (sh.proc q).parent) →
      (∀ q, (sh'.proc q).state = .zombie → (sh.proc q).state = .zombie) →
      (∀ q, (sh'.proc q).xstate = (sh.proc q).xstate) → ev = .silent → CallStep k c p sh st sh' st' ev
  | fires (f : Frame N) (next : List (Frame N)) : f.kind = .call → st = [f, .user] →
      st' = next ++ [.user] → Fires k c p sh f sh' next ev → CallStep k c p sh st sh' st' ev
  | starts (f : Frame N) : Syscall f → st = [.user] → st' = [f, .user] → sh' = sh →
      CallStep k c p sh st sh' st' ev

theorem call_cons (h : f.kind ≠ .call) (rest : List (Frame N)) : call (f :: rest) = call rest := by
  cases hk : f.kind <;> simp_all [call]

section Write

variable {k : Cfg N} {me : Option (Fin N)} {sh : Shared N C} {f : Frame N} {q : Fin N} {x : Proc N}
  {next : List (Frame N)} {ev : Event N}

section

variable (h : Writes k me sh f q x next ev)
include h

/-- Who changes the parent of a slot. -/
theorem write_parent : x.parent = (sh.proc q).parent ∨
      ((sh.proc q).parent = me ∧ x = { sh.proc q with parent := some k.initproc }) ∨
      ((∃ pid, f = .forkParent1 q pid) ∧ x = { sh.proc q with parent := me }) ∨
      (x = Proc.free ∧ ((sh.proc q).state = .zombie ∨ f = .forkFail q)) := by
  cases h with
  | reparent p status q ps hp hpar => exact .inr (.inl ⟨hpar.trans hp.symm, rfl⟩)
  | forkParent p q pid hp => exact .inr (.inr (.inl ⟨⟨pid, rfl⟩, by rw [hp]⟩))
  | reap p addr q ps hp hz => exact .inr (.inr (.inr ⟨rfl, .inl hz⟩))
  | forkFail p q hp => exact .inr (.inr (.inr ⟨rfl, .inr rfl⟩))
  | _ => exact .inl rfl

/-- A process stops being live only by its own `exit`; slots that are being filled are not live. -/
theorem write_live (hq : (sh.proc q).state.live = true) (hx : x.state.live = false) :
    (∃ y : Creation N, f.creates = some y ∧ y.slot = q) ∨ (me = some q ∧ ∃ status, f = .exit4 status) := by
  cases h with
  | exit p status hp => exact .inr ⟨hp, status, rfl⟩
  | forkUsed p q pid hp | forkFail p q hp => exact .inl ⟨_, rfl, rfl⟩
  | reap p addr q ps hp hz => rw [hz] at hq; cases hq
  | pick | wakeup | yield | sleep | killAsleep | forkRun => cases hx
  | _ => exact absurd (hq.symm.trans hx) (by simp)

/-- A slot becomes a process only when `fork` starts it. -/
theorem write_born (hx : x.state.born = true) :
    (sh.proc q).state.born = true ∨ me = some q ∨ ∃ pid, f = .forkRun1 q pid := by
  cases h with
  | pick p ps hrun => exact .inl (by rw [hrun]; rfl)
  | wakeup ch q ps hsl hch | killAsleep p pid q hp hsl => exact .inl (by rw [hsl]; rfl)
  | yield p hp | sleep p ch lk hp | exit p status hp => exact .inr (.inl hp)
  | forkRun p q pid hp => exact .inr (.inr ⟨pid, rfl⟩)
  | reap | forkFail | forkUsed => cases hx
  | _ => exact .inl hx

end

end Write

variable {g : Frame N}

section Local

variable {k : Cfg N} {c : C} {p : Fin N} {sh sh' : Shared N C} {st st' : List (Frame N)} {ev : Event N}

theorem call_local (h : Local k c (.proc p) sh st sh' st' ev) (hs : Shape (.proc p : Tid N C) st) :
    CallStep k c p sh st sh' st' ev := by
  -- a frame of a system call stands on `user`, so one that is replaced is on top
  have hcall : ∀ {f rest}, st = f :: rest → f.kind = .call → rest = [.user] := by
    rintro f rest rfl hk
    have hfit := hs.2.1
    simp only [Fits, hk] at hfit
    exact hfit.2
  cases h with
  | @acquire f rest next lk ha =>
    by_cases hk : f.kind = .call
    · obtain rfl := hcall rfl hk
      exact .fires f next hk rfl rfl (.acquire ha)
    · refine .above ?_ (fun _ => rfl) (fun _ h => h) (fun _ => rfl) rfl
      cases ha <;> first | rfl | exact absurd rfl hk
  | @release f rest next lk ev hr =>
    by_cases hk : f.kind = .call
    · obtain rfl := hcall rfl hk
      exact .fires f next hk rfl rfl (.release hr)
    · refine .above ?_ (fun _ => rfl) (fun _ h => h) (fun _ => rfl) ?_
      · cases hr <;> first | rfl | exact absurd rfl hk
      · cases hr <;> first | rfl | exact absurd rfl hk
  | @act f rest next sh' ev ha =>
    cases ha with
    | move hm =>
      by_cases hk : f.kind = .call
      · obtain rfl := hcall rfl hk
        exact .fires f next hk rfl rfl (.move hm)
      · refine .above ?_ (fun _ => rfl) (fun _ h => h) (fun _ => rfl) ?_
        · cases hm <;> first | rfl | exact absurd rfl hk
        · cases hm <;> first | rfl | exact absurd rfl hk
    | @write r x next ev hw =>
      by_cases hk : f.kind = .call
      · obtain rfl := hcall rfl hk
        exact .fires f next hk rfl rfl (.write hw)
      · have hslot : ∀ q, ((sh.setProc r x).proc q).parent = (sh.proc q).parent ∧
            (((sh.setProc r x).proc q).state = .zombie → (sh.proc q).state = .zombie) ∧
            ((sh.setProc r x).proc q).xstate = (sh.proc q).xstate := by
          intro q
          by_cases hq : q = r
          · subst hq
            cases hw <;> first | exact absurd rfl hk | simp [Shared.setProc]
          · simp [Shared.setProc, update_of_ne hq]
        refine .above ?_ (fun q => (hslot q).1) (fun q => (hslot q).2.1) (fun q => (hslot q).2.2) ?_
        · cases hw <;> first | rfl | exact absurd rfl hk
        · cases hw <;> first | rfl | exact absurd rfl hk
    | pid p' q hp hf =>
      subst hf
      obtain rfl := hcall rfl rfl
      exact .fires _ _ rfl rfl rfl (.pid q rfl)
    | assign r ps hf | back r ps hf =>
      subst hf
      exact absurd hs.2.1.1 (by simp)
  | syscall hf => exact .starts _ hf rfl rfl rfl
  | timer | interrupt | wake | sleep | unlock | make => exact .above rfl (fun _ => rfl) (fun _ h => h) (fun _ => rfl) rfl

variable {next : List (Frame N)}

section

variable (h : Fires k c p sh f sh' next ev)
include h

/-- How the part of the table in which children may be left shrinks. -/
theorem orphans_fires {ps : List (Fin N)} (hc : call (next ++ [.user]) = some g)
    (hg : g.orphans = some ps) : ∃ qs, (f.orphans = some qs ∨ (p ≠ k.initproc ∧ qs = procs N)) ∧
      ∀ i ∈ qs, i ∈ ps ∨ (sh'.proc i).parent ≠ some p ∨ (sh'.proc i).parent = some k.initproc := by
  cases h with
  | acquire ha =>
    cases ha with
    | exit _ status hne =>
      cases hc
      cases hg
      exact ⟨procs N, .inr ⟨hne, rfl⟩, fun i hi => .inl hi⟩
    | exitSelf _ status =>
      cases hc
      exact ⟨ps, .inl hg, fun i hi => .inl hi⟩
    | _ => cases hc <;> cases hg
  | release hr => cases hr <;> cases hc <;> cases hg
  | move hm =>
    cases hm with
    | reparentEnd _ status =>
      cases hc
      exact ⟨ps, .inl hg, fun i hi => .inl hi⟩
    | reparent p' status q qs hp hne =>
      cases hp
      cases hc
      cases hg
      refine ⟨_ :: ps, .inl rfl, fun i hi => ?_⟩
      rcases List.mem_cons.1 hi with rfl | hi
      · exact .inr (.inl hne)
      · exact .inl hi
    | _ => cases hc <;> cases hg
  | write hw =>
    cases hw with
    | reparent p' status q qs hp hpar =>
      cases hc
      cases hg
      refine ⟨_ :: ps, .inl rfl, fun i hi => ?_⟩
      rcases List.mem_cons.1 hi with rfl | hi
      · exact .inr (.inr (by simp [Shared.setProc]))
      · exact .inl hi
    | exitStatus p' status hp =>
      cases hc
      exact ⟨ps, .inl hg, fun i hi => .inl hi⟩
    | _ => cases hc <;> cases hg
  | pid q => cases hc; cases hg

theorem fires_parent {i : Fin N} (hi : (sh'.proc i).parent = some p) :
    (sh.proc i).parent = some p ∨ p = k.initproc ∨ ∃ pid, f = .forkParent1 i pid := by
  cases h with
  | @write q x next ev hw =>
    by_cases hq : i = q
    · subst hq
      simp only [Shared.setProc, update_self] at hi
      rcases write_parent hw with e | ⟨-, hx⟩ | ⟨⟨pid, hf⟩, -⟩ | ⟨hx, -⟩
      · exact .inl (e ▸ hi)
      · rw [hx] at hi
        exact .inr (.inl (Option.some.inj hi).symm)
      · exact .inr (.inr ⟨pid, hf⟩)
      · rw [hx] at hi
        cases hi
    · simp only [Shared.setProc, update_of_ne hq] at hi
      exact .inl hi
  | acquire | release | move | pid => exact .inl hi

/-- How a `fork` comes to have a child that it has yet to start. -/
theorem fathers_fires {q : Fin N} (hc : call (next ++ [.user]) = some g)
    (hg : g.fathers = some q) : (f.fathers = some q ∧ sh' = sh) ∨ (sh'.proc q).parent = some p := by
  cases h with
  | acquire ha =>
    cases ha with
    | forkRun _ q' pid => cases hc; exact .inl ⟨hg, rfl⟩
    | _ => cases hc <;> cases hg
  | release hr =>
    cases hr with
    | forkParent _ q' pid => cases hc; exact .inl ⟨hg, rfl⟩
    | _ => cases hc <;> cases hg
  | move hm => cases hm <;> cases hc <;> cases hg
  | write hw =>
    cases hw with
    | forkParent p' q' pid hp =>
      cases hp
      cases hc
      cases hg
      exact .inr (by simp [Shared.setProc])
    | _ => cases hc <;> cases hg
  | pid q' => cases hc; cases hg

end

end Local

/-- Parents and children. -/
structure FamilyInv (k : Cfg N) (s : Sys N C) : Prop where
  init : (s.sh.proc k.initproc).state.live = true
  parent : ∀ {q}, q ≠ k.initproc → (s.sh.proc q).state.born = true →
    ∃ p, (s.sh.proc q).parent = some p ∧ (s.sh.proc p).state.live = true
  fork : ∀ {p f q}, call (s.stack (.proc p)) = some f → f.fathers = some q →
    (s.sh.proc q).parent = some p
  exit : ∀ {p f ps}, call (s.stack (.proc p)) = some f → f.orphans = some ps →
    p ≠ k.initproc ∧ ∀ i, i ∉ ps → (s.sh.proc i).parent ≠ some p

theorem call_leaves {next : Frame N} (h : Leaves f next) (rest : List (Frame N))
    (hg : call (next :: rest) = some g) : call (f :: rest) = some g ∨ g = .dead := by
  cases h with
  | yield | sleep => exact .inl hg
  | exit => cases hg; exact .inr rfl

section Machine

variable {k : Cfg N} {s u : Sys N C} {ev : Event N}

/-- What a step does to a slot of the table. -/
theorem slot_step (hc : Change k s ev u) (q : Fin N) : u.sh.proc q = s.sh.proc q ∨
      ∃ c f rest next, s.stack (s.tid c) = f :: rest ∧ Writes k (s.tid c).me s.sh f q (u.sh.proc q) next ev := by
  rcases hc.quiet_or with ⟨e, -⟩ | ⟨c, st, st', hst, hloc, -⟩
  · exact .inl (by rw [e])
  · rcases local_slot hloc q with e | ⟨f, rest, x, next, hf, -, hx, hw⟩
    · exact .inl e
    · exact .inr ⟨c, f, rest, next, hst.trans hf, hx ▸ hw⟩

theorem Kept.call {p : Fin N} (h : Kept s u p) {f : Frame N} (hf : call (u.stack (.proc p)) = some f) :
    call (s.stack (.proc p)) = some f ∨ f = .dead ∨ f = .forkret ∨ ∃ q, f = .forkCopy q := by
  cases h with
  | same e =>
    rw [e] at hf
    exact .inl hf
  | left c g next rest _ hleave e e' =>
    rw [e'] at hf
    rw [e]
    exact (call_leaves hleave rest hf).imp id .inl
  | filled q rest _ e' =>
    rw [e'] at hf
    cases hf
    exact .inr (.inr (.inr ⟨q, rfl⟩))
  | fresh e' =>
    rw [e'] at hf
    cases hf
    exact .inr (.inr (.inl rfl))

theorem Elsewhere.write {p : Fin N} (h : Elsewhere k s ev u p) (q : Fin N) : u.sh.proc q = s.sh.proc q ∨
      ∃ c f rest next, s.stack (s.tid c) = f :: rest ∧ s.tid c ≠ .proc p ∧
        Writes k (s.tid c).me s.sh f q (u.sh.proc q) next ev := by
  rcases h with ⟨e, -⟩ | ⟨c, st, st', hne, hst, hloc⟩
  · exact .inl (by rw [e])
  · rcases local_slot hloc q with e | ⟨f, rest, x, next, hf, -, hx, hw⟩
    · exact .inl e
    · exact .inr ⟨c, f, rest, next, hst.trans hf, hne, hx ▸ hw⟩

/-- How process `p` comes to be at place `f` of a system call: it was there, or an instruction of its own brings it
there. -/
inductive CallCase (k : Cfg N) (s : Sys N C) (ev : Event N) (u : Sys N C) (p : Fin N) (f : Frame N) : Prop
  | above : call (s.stack (.proc p)) = some f → (∀ q, (u.sh.proc q).parent = (s.sh.proc q).parent) →
      (∀ q, (u.sh.proc q).state = .zombie → (s.sh.proc q).state = .zombie) →
      (∀ q, (u.sh.proc q).xstate = (s.sh.proc q).xstate) → ev = .silent → CallCase k s ev u p f
  | fires (c : C) (g : Frame N) (next : List (Frame N)) : call (s.stack (.proc p)) = some g →
      u.stack (.proc p) = next ++ [.user] → call (next ++ [.user]) = some f → Fires k c p s.sh g u.sh next ev →
      CallCase k s ev u p f
  | other : call (s.stack (.proc p)) = some f → Elsewhere k s ev u p → CallCase k s ev u p f

theorem call_cases (hi : Inv s) (hc : Change k s ev u) {p : Fin N} {f : Frame N}
    (hcall : call (u.stack (.proc p)) = some f) (hf : f.first = false) : CallCase k s ev u p f := by
  rcases stack_step hc p with ⟨c, st', ht, -, hstack, hloc⟩ | ⟨hkept, hslots⟩
  · have hself : u.stack (.proc p) = st' := by rw [hstack, update_self]
    rw [hself] at hcall
    cases call_local hloc (hi.locks.shape (.proc p)) with
    | above e hpar hz hx hev => exact .above (e ▸ hcall) hpar hz hx hev
    | fires g next hk e e' hfire =>
      exact .fires c g next (by rw [e]; simp [call, hk]) (hself.trans e') (e' ▸ hcall) hfire
    | starts g hg _ e' _ =>
      rw [e'] at hcall
      cases hg <;> cases hcall <;> cases hf
  · rcases hkept.call hcall with e | rfl | rfl | ⟨r, rfl⟩
    · exact .other e hslots
    · cases hf
    · cases hf
    · cases hf

/-- The frame of a system call that is on top. -/
theorem Inv.call_top (hi : Inv s) {c : C} {p : Fin N} {f : Frame N} {rest : List (Frame N)}
    (hme : (s.tid c).me = some p) (hst : s.stack (s.tid c) = f :: rest) (hk : f.kind = .call) :
    call (s.stack (.proc p)) = some f ∧ (s.sh.proc p).state = f.runState := by
  have hon := on_of_me hme
  rw [Sys.tid_of_some hon] at hst
  have hrun := hi.cpus.run hon
  rw [hst] at hrun ⊢
  exact ⟨by simp [call, hk], hrun⟩

section

variable (h : FamilyInv k s) (hi : Inv s) (hc : Change k s ev u)
include h hi hc

theorem FamilyInv.live_step {p : Fin N}
    (hp : (s.sh.proc p).state.live = true) (hkid : p = k.initproc ∨ ∃ i, (s.sh.proc i).parent = some p) :
    (u.sh.proc p).state.live = true := by
  rcases slot_step hc p with e | ⟨c, f, rest, next, hst, hw⟩
  · rw [e]
    exact hp
  · by_contra hx
    rcases write_live hw hp (by simpa using hx) with ⟨y, hy, rfl⟩ | ⟨hme, status, rfl⟩
    · rw [hi.claimed hst hy] at hp
      rcases creates_state hy with e | e
      · rw [e] at hp; cases hp
      · rw [e] at hp; cases hp
    · obtain ⟨hcall, -⟩ := hi.call_top hme hst rfl
      obtain ⟨hne, hno⟩ := h.exit hcall rfl
      rcases hkid with e | ⟨i, hi⟩
      · exact hne e
      · exact hno i (by simp) hi

theorem FamilyInv.parent_step {q : Fin N} (hne : q ≠ k.initproc) (hq : (u.sh.proc q).state.born = true) :
    ∃ p, (u.sh.proc q).parent = some p ∧ (u.sh.proc p).state.live = true := by
  -- whose parent stays, and was one before
  have hkeep : (u.sh.proc q).parent = (s.sh.proc q).parent → (s.sh.proc q).state.born = true →
      ∃ p, (u.sh.proc q).parent = some p ∧ (u.sh.proc p).state.live = true := by
    intro e hborn
    obtain ⟨p, hp, hlive⟩ := h.parent hne hborn
    exact ⟨p, e.trans hp, h.live_step hi hc hlive (.inr ⟨q, hp⟩)⟩
  rcases slot_step hc q with e | ⟨c, f, rest, next, hst, hw⟩
  · rw [e] at hq
    exact hkeep (by rw [e]) hq
  · rcases write_parent hw with e | ⟨-, hx⟩ | ⟨⟨pid, rfl⟩, hx⟩ | ⟨hx, -⟩
    · rcases write_born hw hq with hborn | hme | ⟨pid, rfl⟩
      · exact hkeep e hborn
      · refine hkeep e ?_
        have hno := hi.cpus.not_on (p := q)
        cases hstate : (s.sh.proc q).state with
        | unused => exact absurd (on_of_me hme) (hno (.inl hstate) c)
        | used => exact absurd (on_of_me hme) (hno (.inr hstate) c)
        | sleeping | runnable | running | zombie => rfl
      · -- the parent is the process that is in `fork`
        obtain ⟨p, hme⟩ := Option.ne_none_iff_exists'.1
          (me_of_creates (x := ⟨q, .used, true⟩) (hst ▸ hi.locks.shape (s.tid c)) rfl)
        obtain ⟨hcall, hrun⟩ := hi.call_top hme hst rfl
        have hp := h.fork hcall rfl
        exact ⟨p, e.trans hp, h.live_step hi hc (by rw [hrun]; rfl) (.inr ⟨q, hp⟩)⟩
    · rw [hx]
      exact ⟨k.initproc, rfl, h.live_step hi hc h.init (.inl rfl)⟩
    · have hused := hi.claimed (x := ⟨q, .used, true⟩) hst rfl
      rw [hx] at hq
      rw [show (s.sh.proc q).state = .used from hused] at hq
      cases hq
    · rw [hx] at hq
      cases hq

theorem FamilyInv.fork_step {p q : Fin N}
    {f : Frame N} (hcall : call (u.stack (.proc p)) = some f) (hf : f.fathers = some q) :
    (u.sh.proc q).parent = some p := by
  cases call_cases hi hc hcall (by cases f <;> first | rfl | cases hf) with
  | above hcall hpar =>
    rw [hpar]
    exact h.fork hcall hf
  | fires c g next hg _ hcall hfire =>
    rcases fathers_fires hfire hcall hf with ⟨hf', hsh⟩ | hpar
    · rw [hsh]
      exact h.fork hg hf'
    · exact hpar
  | other hcall' hslots =>
    have hp := h.fork hcall' hf
    have hcre : creating (s.stack (.proc p)) = some ⟨q, .used, true⟩ := by
      refine creating_of_call ?_ hcall'
      cases f <;> cases hf <;> rfl
    -- nobody else fills the slot
    have hother : ∀ {c g rest y}, s.stack (s.tid c) = g :: rest → s.tid c ≠ .proc p →
        g.creates = some y → y.slot ≠ q := by
      intro c g rest y hst hne hy hslot
      obtain ⟨r, hme⟩ := Option.ne_none_iff_exists'.1 (me_of_creates (hst ▸ hi.locks.shape (s.tid c)) hy)
      have ht := Sys.tid_of_some (on_of_me hme)
      rw [ht] at hst hne
      have hcre' : creating (s.stack (.proc r)) = some y := by
        rw [hst]
        exact creating_of_creates hy rest
      exact hne (congrArg Tid.proc (hi.cpus.creator hcre' hcre hslot))
    rcases hslots.write q with e | ⟨c, g, rest, next, hst, hne, hw⟩
    · rw [e]
      exact hp
    · rcases write_parent hw with e | ⟨hme, -⟩ | ⟨⟨pid, rfl⟩, -⟩ | ⟨-, hz | rfl⟩
      · rw [e]
        exact hp
      · exact absurd (Sys.tid_of_some (on_of_me (hme.symm.trans hp))) hne
      · exact absurd rfl (hother (y := ⟨q, .used, true⟩) hst hne rfl)
      · rw [show (s.sh.proc q).state = .used from (hi.cpus.claim hcre).1] at hz
        cases hz
      · exact absurd rfl (hother (y := ⟨q, .used, false⟩) hst hne rfl)

theorem FamilyInv.exit_step {p : Fin N}
    {f : Frame N} {ps : List (Fin N)} (hcall : call (u.stack (.proc p)) = some f) (hf : f.orphans = some ps) :
    p ≠ k.initproc ∧ ∀ i, i ∉ ps → (u.sh.proc i).parent ≠ some p := by
  cases call_cases hi hc hcall (by cases f <;> first | rfl | cases hf) with
  | above hcall hpar =>
    obtain ⟨hne, hno⟩ := h.exit hcall hf
    refine ⟨hne, fun i hi => ?_⟩
    rw [hpar]
    exact hno i hi
  | fires c g next hg _ hcall hfire =>
    obtain ⟨qs, hqs, hshrink⟩ := orphans_fires hfire hcall hf
    have hne : p ≠ k.initproc := by
      rcases hqs with hqs | ⟨hne, -⟩
      · exact (h.exit hg hqs).1
      · exact hne
    refine ⟨hne, fun i hips hpar => ?_⟩
    by_cases hiqs : i ∈ qs
    · rcases hshrink i hiqs with hm | hno | hinit
      · exact hips hm
      · exact hno hpar
      · exact hne (Option.some.inj (hpar.symm.trans hinit))
    · rcases hqs with hqs | ⟨-, rfl⟩
      · refine (h.exit hg hqs).2 i hiqs ?_
        rcases fires_parent hfire hpar with e | e | ⟨pid, rfl⟩
        · exact e
        · exact absurd e hne
        · cases hqs
      · exact hiqs (List.mem_finRange i)
  | other hcall' hslots =>
    obtain ⟨hne, hno⟩ := h.exit hcall' hf
    refine ⟨hne, fun i hips hpar => ?_⟩
    rcases hslots.write i with e | ⟨c, g, rest, next, hst, hcp, hw⟩
    · rw [e] at hpar
      exact hno i hips hpar
    · rcases write_parent hw with e | ⟨-, hx⟩ | ⟨-, hx⟩ | ⟨hx, -⟩
      · rw [e] at hpar
        exact hno i hips hpar
      · rw [hx] at hpar
        exact hne (Option.some.inj hpar).symm
      · rw [hx] at hpar
        exact hcp (Sys.tid_of_some (on_of_me hpar))
      · rw [hx] at hpar
        cases hpar

theorem FamilyInv.step : FamilyInv k u :=
  ⟨h.live_step hi hc h.init (.inl rfl), fun hne hq => h.parent_step hi hc hne hq,
    fun hcall hf => h.fork_step hi hc hcall hf, fun hcall hf => h.exit_step hi hc hcall hf⟩

end

end Machine

theorem call_boot {k : Cfg N} {sz pagetable trapframe : Nat} {cond : Bool} {p : Fin N}
    (h : call ((Sys.boot k sz pagetable trapframe cond : Sys N C).stack (.proc p)) = some f) : f = .forkret := by
  by_cases hp : p = k.initproc
  · simp [Sys.boot, hp, call, Frame.kind] at h
    exact h.symm
  · simp [Sys.boot, hp, call] at h

theorem FamilyInv.boot (k : Cfg N) (sz pagetable trapframe : Nat) (cond : Bool) :
    FamilyInv k (Sys.boot k sz pagetable trapframe cond : Sys N C) := by
  refine ⟨by simp [Sys.boot, Procstate.live], ?_, ?_, ?_⟩
  · intro q hne hq
    simp [Sys.boot, update_of_ne hne, Proc.free, Procstate.born] at hq
  · intro p f q hf hq
    rw [call_boot hf] at hq
    cases hq
  · intro p f ps hf hps
    rw [call_boot hf] at hps
    cases hps

end Xv6.Sched
