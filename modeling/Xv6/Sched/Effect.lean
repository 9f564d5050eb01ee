import Xv6.Sched.OneCpu

/-!
# What a step changes

A step of the machine is an instruction of the thread on some CPU, which changes the stack of that thread
and the shared data (`Local`), or one of the three steps that move threads between CPUs and contexts.
`Change` says so once, without the lock table, which follows the stacks by `LockInv`; what is proved about
sleepers, parents and slots is proved from it. The second half is about frames deep in a stack: a
promise that a frame stands for is kept by the code above it (`Below`, `below_local`).
-/

set_option autoImplicit false

namespace Xv6.Sched

open Function (update update_self update_of_ne)

variable {N : Nat} {C : Type} [DecidableEq C]

/-- What thread `t`, executing on CPU `c`, does to the shared data and to its own stack. -/
inductive Local (k : Cfg N) (c : C) (t : Tid N C) (sh : Shared N C) :
    List (Frame N) → Shared N C → List (Frame N) → Event N → Prop
  | acquire {f : Frame N} {rest next : List (Frame N)} {lk : Lock N} :
      Acquires k t.me f lk next → Local k c t sh (f :: rest) sh (next ++ rest) .silent
  | release {f : Frame N} {rest next : List (Frame N)} {lk : Lock N} {ev : Event N} :
      Releases t.me f lk next ev → Local k c t sh (f :: rest) sh (next ++ rest) ev
  | act {f : Frame N} {rest next : List (Frame N)} {sh' : Shared N C} {ev : Event N} :
      Acts k c t.me sh f sh' next ev → Local k c t sh (f :: rest) sh' (next ++ rest) ev
  | syscall {f : Frame N} : Syscall f → Local k c t sh [.user] sh [f, .user] .silent
  | timer (f : Frame N) (rest : List (Frame N)) :
      Local k c t sh (f :: rest) sh (.yield0 :: f :: rest) .silent
  | interrupt (f : Frame N) (rest : List (Frame N)) (l : Nat) :
      Local k c t sh (f :: rest) sh (.client0 l :: f :: rest) .silent
  | wake (l : Nat) (owes : Bool) (rest : List (Frame N)) (ch : Chan N) :
      Local k c t sh (.holding l owes :: rest) sh
        (.wakeup (some ch) (procs N) :: .holding l (owes && ch != .addr k.chan) :: rest) .silent
  | sleep (l a : Nat) (rest : List (Frame N)) : (a = k.chan → l = k.lk ∧ sh.cond = false) →
      Local k c t sh (.holding l false :: rest) sh
        (.sleep0 (.addr a) (.other l) :: .holding l false :: rest) .silent
  | unlock (l : Nat) (rest : List (Frame N)) :
      Local k c t sh (.holding l false :: rest) sh rest .silent
  | make (owes : Bool) (rest : List (Frame N)) :
      Local k c t sh (.holding k.lk owes :: rest) { sh with cond := true }
        (.holding k.lk true :: rest) .silent

/-- What a step does to the machine, apart from the lock table. -/
inductive Change (k : Cfg N) (s : Sys N C) (ev : Event N) (u : Sys N C) : Prop
  | thread (c : C) (st st' : List (Frame N)) :
      s.stack (s.tid c) = st → Local k c (s.tid c) s.sh st u.sh st' ev →
      u.stack = update s.stack (s.tid c) st' → u.on = s.on → u.saved = s.saved →
      Change k s ev u
  | swtchTo (c : C) (p : Fin N) (ps : List (Fin N)) :
      s.on c = none → s.stack (.cpu c) = [.switch p ps] → u.sh = s.sh →
      u.stack = update s.stack (.cpu c) [.back p ps] →
      u.on = update s.on c (some p) → ev = .silent → Change k s ev u
  | swtchBack (c : C) (p : Fin N) (f next : Frame N) (rest : List (Frame N)) :
      s.on c = some p → s.stack (.proc p) = f :: rest → Leaves f next → u.sh = s.sh →
      u.stack = update s.stack (.proc p) (next :: rest) →
      u.on = update s.on c none → ev = .silent → Change k s ev u
  | context (c : C) (q : Fin N) (rest : List (Frame N)) :
      s.stack (s.tid c) = .forkContext q :: rest → u.sh = s.sh →
      u.stack = update (update s.stack (s.tid c) (.forkCopy q :: rest)) (.proc q)
        [.forkret, .user] →
      u.on = s.on → ev = .allocated q → Change k s ev u
  | clear : u = s.setShared { s.sh with cond := false } → ev = .silent → Change k s ev u

variable {k : Cfg N} {ev : Event N} {s u : Sys N C}

theorem change_of_step (hl : LockInv s) (h : Step k s ev u) : Change k s ev u := by
  cases h with
  | acquire c f rest lk next hst hi _ =>
    exact .thread c _ _ hst (.acquire (acquires_of_instr hi)) rfl rfl rfl
  | release c f rest lk next ev hst hi _ =>
    exact .thread c _ _ hst (.release (releases_of_instr hi)) rfl rfl rfl
  | act c f rest g inp hst hi =>
    exact .thread c _ _ hst (.act (acts_of_instr hi inp s.sh)) rfl rfl rfl
  | swtchTo c f rest p next hon hst hi =>
    obtain ⟨ps, rfl, rfl⟩ := switch_of_instr hi
    have hshape := hl.shape (.cpu c)
    rw [hst] at hshape
    obtain rfl : rest = [] := hshape.2.1.2
    exact .swtchTo c p ps hon hst rfl rfl rfl rfl
  | swtchBack c p f rest next hon hst hi =>
    exact .swtchBack c p f next rest hon hst (leaves_of_instr hi) rfl rfl rfl rfl
  | context c f rest q next hst hi =>
    obtain ⟨-, rfl, rfl⟩ := context_of_instr hi
    exact .context c q rest hst rfl rfl rfl rfl
  | syscall c p f hon hst hf =>
    rw [← Sys.tid_of_some hon] at hst ⊢
    exact .thread c _ _ hst (.syscall hf) rfl rfl rfl
  | timer c p f rest hon hst _ =>
    rw [← Sys.tid_of_some hon] at hst ⊢
    exact .thread c _ _ hst (.timer f rest) rfl rfl rfl
  | interrupt c f rest l hst _ => exact .thread c _ _ hst (.interrupt f rest l) rfl rfl rfl
  | nested c l l' owes rest hst =>
    exact .thread c _ _ hst (.interrupt (.holding l owes) rest l') rfl rfl rfl
  | wake c l owes rest ch hst => exact .thread c _ _ hst (.wake l owes rest ch) rfl rfl rfl
  | sleep c p l a rest hon hst _ hcond =>
    rw [← Sys.tid_of_some hon] at hst ⊢
    exact .thread c _ _ hst (.sleep l a rest hcond) rfl rfl rfl
  | unlock c l rest hst _ => exact .thread c _ _ hst (.unlock l rest) rfl rfl rfl
  | make c owes rest hst => exact .thread c _ _ hst (.make owes rest) rfl rfl rfl
  | clear => exact .clear rfl rfl

/-! ## Frames deep in a stack -/

/-- Some frame of the stack, with what is below it, satisfies `Q`, and no call of `sleep` above it has given
up the caller's lock. -/
def Below (Q : Frame N → List (Frame N) → Prop) : List (Frame N) → Prop
  | [] => False
  | f :: rest => Q f rest ∨ ((∀ lk, f.kind ≠ .sleep lk) ∧ Below Q rest)

theorem mem_heldStack_cons {own : List (Lock N)} {f : Frame N} {rest : List (Frame N)} {lk : Lock N}
    (hf : ∀ lk, f.kind ≠ .sleep lk) (h : lk ∈ heldStack own rest) : lk ∈ heldStack own (f :: rest) := by
  cases hk : f.kind with
  | sleep lk => exact absurd hk (hf lk)
  | scheduler | user | call | yield | leaf =>
    simp only [heldStack, hk]
    exact List.mem_append_right _ h

/-- If a frame that satisfies `Q` holds the lock, so does the whole stack. -/
theorem Below.held {Q : Frame N → List (Frame N) → Prop} {own : List (Lock N)} {lk : Lock N}
    (hQ : ∀ f rest, Q f rest → lk ∈ heldStack own (f :: rest)) :
    ∀ {st : List (Frame N)}, Below Q st → lk ∈ heldStack own st
  | [], h => h.elim
  | f :: rest, .inl h => hQ f rest h
  | _ :: _, .inr ⟨hf, h⟩ => mem_heldStack_cons hf (Below.held hQ h)

theorem Below.append {Q : Frame N → List (Frame N) → Prop} {rest : List (Frame N)} (h : Below Q rest) :
    ∀ {next : List (Frame N)}, (∀ f ∈ next, ∀ lk, f.kind ≠ .sleep lk) → Below Q (next ++ rest)
  | [], _ => h
  | f :: _, hn => .inr ⟨hn f (.head _), Below.append h fun g hg => hn g (List.mem_cons_of_mem f hg)⟩

section Local

variable {k : Cfg N} {c : C} {t : Tid N C} {sh sh' : Shared N C}
  {st st' : List (Frame N)} {ev : Event N}

/-- The frames an instruction puts in the place of its own belong to `sleep` only if its own does, or if
nothing below holds a lock. -/
theorem local_frames (h : Local k c t sh st sh' st' ev) (hs : Shape t st) (hs' : Shape t st') :
    ∃ f rest next, st = f :: rest ∧ st' = next ++ rest ∧ ((∀ lk, f.kind ≠ .sleep lk) → heldStack t.own rest ≠ [] →
        ∀ g ∈ next, ∀ lk, g.kind ≠ .sleep lk) := by
  cases h with
  | @acquire f rest next lk ha =>
    refine ⟨f, rest, next, rfl, rfl, fun hf _ => ?_⟩
    generalize t.me = me at ha
    cases ha <;> simp_all [Frame.kind]
  | @release f rest next lk ev hr =>
    refine ⟨f, rest, next, rfl, rfl, fun hf hne => ?_⟩
    have hfit := hs.2.1
    generalize hme : t.me = me at hr
    cases hr <;> simp_all [Frame.kind, Fits, heldStack, Frame.held]
  | @act f rest next sh' ev ha =>
    refine ⟨f, rest, next, rfl, rfl, fun hf _ => ?_⟩
    cases ha with
    | move hm | write hm => cases hm <;> simp_all [Frame.kind]
    | pid | assign | back => simp [Frame.kind]
  | @syscall f hf =>
    refine ⟨.user, [], [f, .user], rfl, rfl, fun _ hne => absurd rfl hne⟩
  | timer f rest =>
    refine ⟨f, rest, [.yield0, f], rfl, rfl, fun hf _ => ?_⟩
    simpa [Frame.kind] using hf
  | interrupt f rest l =>
    refine ⟨f, rest, [.client0 l, f], rfl, rfl, fun hf _ => ?_⟩
    simpa [Frame.kind] using hf
  | wake l owes rest ch =>
    exact ⟨_, rest, [.wakeup _ _, .holding _ _], rfl, rfl, fun _ _ => by simp [Frame.kind]⟩
  | sleep l a rest _ =>
    -- the only lock of a client that sleeps is the one it sleeps with
    refine ⟨_, rest, [.sleep0 _ _, .holding _ _], rfl, rfl, fun _ hne => absurd ?_ hne⟩
    have hfit := hs'.2.1.2.1
    simpa [heldStack, Frame.kind, Frame.held] using hfit
  | unlock l => exact ⟨_, st', [], rfl, rfl, fun _ _ => by simp⟩
  | make owes rest => exact ⟨_, rest, [.holding k.lk true], rfl, rfl, fun _ _ => by simp [Frame.kind]⟩

/-- A promise below the top of the stack stays when the top is replaced. -/
theorem below_local {Q : Frame N → List (Frame N) → Prop} {lk : Lock N}
    (hQ : ∀ f rest, Q f rest → lk ∈ heldStack t.own (f :: rest))
    (h : Local k c t sh st sh' st' ev) (hs : Shape t st) (hs' : Shape t st') (hb : Below Q st) :
    Below Q st' ∨ ∃ f rest, st = f :: rest ∧ Q f rest := by
  obtain ⟨f, rest, next, rfl, rfl, hnext⟩ := local_frames h hs hs'
  rcases hb with hb | ⟨hf, hb⟩
  · exact .inr ⟨f, rest, rfl, hb⟩
  · have hheld := hb.held hQ
    exact .inl (hb.append (hnext hf (List.ne_nil_of_mem hheld)))

/-- What an instruction does to a slot of the table. -/
theorem local_slot (h : Local k c t sh st sh' st' ev) (q : Fin N) : sh'.proc q = sh.proc q ∨
      ∃ f rest x next, st = f :: rest ∧ st' = next ++ rest ∧ sh'.proc q = x ∧ Writes k t.me sh f q x next ev := by
  cases h with
  | @act f rest next sh' ev ha =>
    cases ha with
    | @write r x next ev hw =>
      by_cases hr : q = r
      · subst hr
        exact .inr ⟨f, rest, x, next, rfl, rfl, by simp [Shared.setProc], hw⟩
      · exact .inl (by simp [Shared.setProc, update_of_ne hr])
    | move | pid | assign | back => exact .inl rfl
  | acquire | release | syscall | timer | interrupt | wake | sleep | unlock | make => exact .inl rfl

end Local

/-- How the stack of a process changes in a step that is not one of its own: not at all, on leaving its
CPU, or because its context is set up. -/
inductive Kept (s u : Sys N C) (p : Fin N) : Prop
  | same : u.stack (.proc p) = s.stack (.proc p) → (∀ c, s.on c = some p → u.on c = some p) →
      Kept s u p
  | left (c : C) (f next : Frame N) (rest : List (Frame N)) : s.on c = some p → Leaves f next →
      s.stack (.proc p) = f :: rest → u.stack (.proc p) = next :: rest → Kept s u p
  | filled (q : Fin N) (rest : List (Frame N)) : s.stack (.proc p) = .forkContext q :: rest →
      u.stack (.proc p) = .forkCopy q :: rest → Kept s u p
  | fresh : u.stack (.proc p) = [.forkret, .user] → Kept s u p

/-- The step leaves the table alone. -/
def Quiet (s : Sys N C) (ev : Event N) (u : Sys N C) : Prop :=
  u.sh.proc = s.sh.proc ∧ (u.sh.cond = s.sh.cond ∨ u.sh.cond = false) ∧ (ev = .silent ∨ ∃ q, ev = .allocated q)

/-- Steps that leave the table alone apart, a step is one of a thread. -/
theorem Change.quiet_or (h : Change k s ev u) : Quiet s ev u ∨ ∃ c st st', s.stack (s.tid c) = st ∧
    Local k c (s.tid c) s.sh st u.sh st' ev ∧ u.stack = update s.stack (s.tid c) st' ∧ u.on = s.on := by
  cases h with
  | thread c st st' hst hloc hstack hon _ => exact .inr ⟨c, st, st', hst, hloc, hstack, hon⟩
  | swtchTo _ _ _ _ _ hsh _ _ hev | swtchBack _ _ _ _ _ _ _ _ hsh _ _ hev =>
    exact .inl ⟨by rw [hsh], .inl (by rw [hsh]), .inl hev⟩
  | context _ q _ _ hsh _ _ hev => exact .inl ⟨by rw [hsh], .inl (by rw [hsh]), .inr ⟨q, hev⟩⟩
  | clear hu hev => subst hu; exact .inl ⟨rfl, .inr rfl, .inl hev⟩

/-- What a step writes to the table, if anything, a thread other than that of process `p` writes. -/
def Elsewhere (k : Cfg N) (s : Sys N C) (ev : Event N) (u : Sys N C) (p : Fin N) : Prop :=
  Quiet s ev u ∨ ∃ c st st', s.tid c ≠ .proc p ∧ s.stack (s.tid c) = st ∧ Local k c (s.tid c) s.sh st u.sh st' ev

/-- A step is one of the thread of process `p`, or it keeps the stack of `p` and happens elsewhere. -/
theorem stack_step (hc : Change k s ev u) (p : Fin N) : (∃ c st', s.tid c = .proc p ∧ u.on = s.on ∧
      u.stack = update s.stack (.proc p) st' ∧ Local k c (.proc p) s.sh (s.stack (.proc p)) u.sh st' ev) ∨
      (Kept s u p ∧ Elsewhere k s ev u p) := by
  cases hc with
  | thread c st st' hst hloc hstack hon _ =>
    by_cases ht : .proc p = s.tid c
    · rw [← ht] at hst hloc hstack
      exact .inl ⟨c, st', ht.symm, hon, hstack, hst ▸ hloc⟩
    · exact .inr ⟨.same (by rw [hstack, update_of_ne ht]) fun d hd => hon ▸ hd,
        .inr ⟨c, st, st', fun e => ht e.symm, hst, hloc⟩⟩
  | swtchTo c r ps hon _ hsh hstack huon hev =>
    refine .inr ⟨.same (by rw [hstack, update_of_ne (by simp)]) fun d hd => ?_,
      .inl ⟨by rw [hsh], .inl (by rw [hsh]), .inl hev⟩⟩
    have hdc : d ≠ c := by
      rintro rfl
      rw [hon] at hd
      cases hd
    rw [huon, update_of_ne hdc]
    exact hd
  | swtchBack c r f next rest hon hst hleave hsh hstack huon hev =>
    refine .inr ⟨?_, .inl ⟨by rw [hsh], .inl (by rw [hsh]), .inl hev⟩⟩
    by_cases hpr : p = r
    · subst hpr
      exact .left c f next rest hon hleave hst (by rw [hstack, update_self])
    · refine .same (by rw [hstack, update_of_ne (by simpa using hpr)]) fun d hd => ?_
      have hdc : d ≠ c := by
        rintro rfl
        rw [hon] at hd
        cases hd
        exact hpr rfl
      rw [huon, update_of_ne hdc]
      exact hd
  | context c r rest hst hsh hstack hon hev =>
    refine .inr ⟨?_, .inl ⟨by rw [hsh], .inl (by rw [hsh]), .inr ⟨r, hev⟩⟩⟩
    by_cases hpr : p = r
    · subst hpr
      exact .fresh (by rw [hstack, update_self])
    · by_cases ht : .proc p = s.tid c
      · refine .filled r rest (ht ▸ hst) ?_
        rw [hstack, update_of_ne (by simpa using hpr), ht, update_self]
      · exact .same (by rw [hstack, update_of_ne (by simpa using hpr), update_of_ne ht]) fun d hd => hon ▸ hd
  | clear hu hev =>
    subst hu
    exact .inr ⟨.same rfl fun _ hd => hd, .inl ⟨rfl, .inr rfl, .inl hev⟩⟩

/-- A CPU whose thread holds a lock that is no process's lock keeps this thread, and only the thread
itself changes its stack. -/
theorem Change.holder (h : Change k s ev u) (hi : Inv s)
    {c : C} {lk : Lock N} (hlk : lk ∈ heldStack (s.tid c).own (s.stack (s.tid c))) (hne : ∀ r, lk ≠ .proc r) :
    u.tid c = s.tid c ∧ (u.stack (s.tid c) = s.stack (s.tid c) ∨
      ∃ st, Local k c (s.tid c) s.sh (s.stack (s.tid c)) u.sh st ev ∧ u.stack = update s.stack (s.tid c) st) := by
  cases h with
  | thread d st st' hst hloc hstack hon _ =>
    refine ⟨Sys.tid_congr hon c, ?_⟩
    by_cases hd : d = c
    · subst hd
      exact .inr ⟨st', hst ▸ hloc, hstack⟩
    · rw [hstack, update_of_ne fun e => hd (hi.locks.tid_inj e).symm]
      exact .inl rfl
  | swtchTo d p ps hon hst _ hstack huon _ =>
    have hd : c ≠ d := by
      rintro rfl
      rw [Sys.tid_of_none hon, hst] at hlk
      exact hne p (List.mem_singleton.1 hlk)
    refine ⟨by simp [Sys.tid, huon, update_of_ne hd], .inl ?_⟩
    rw [hstack, update_of_ne]
    exact fun e => hd (hi.locks.tid_inj (e.trans (Sys.tid_of_none hon).symm))
  | swtchBack d p f next rest hon hst hleave _ hstack huon _ =>
    have hd : c ≠ d := by
      rintro rfl
      have hshape := hi.locks.shape (.proc p)
      rw [hst] at hshape
      rw [Sys.tid_of_some hon, hst, Tid.own_proc, (leave_flow hshape hleave).2.1] at hlk
      exact hne p (List.mem_singleton.1 hlk)
    refine ⟨by simp [Sys.tid, huon, update_of_ne hd], .inl ?_⟩
    rw [hstack, update_of_ne]
    exact fun e => hd (hi.locks.unique (Sys.on_of_tid e) hon)
  | context d q rest hst _ hstack hon _ =>
    refine ⟨Sys.tid_congr hon c, .inl ?_⟩
    have hshape := hi.locks.shape (s.tid d)
    rw [hst] at hshape
    have hd : c ≠ d := by
      rintro rfl
      obtain ⟨-, rfl⟩ : (s.tid c).me ≠ none ∧ rest = [.user] := hshape.2.1
      rw [hst] at hlk
      exact hne q (List.mem_singleton.1 hlk)
    have hq : s.tid c ≠ .proc q := by
      intro e
      cases hond : s.on d with
      | none => rw [Sys.tid_of_none hond] at hshape; exact hshape.2.1.1 rfl
      | some p =>
        rw [Sys.tid_of_some hond] at hst
        have hclaim := hi.cpus.claim (p := p) (x := ⟨q, .used, false⟩) (by rw [hst]; rfl)
        exact hi.cpus.not_on (.inr hclaim.1) c (Sys.on_of_tid e)
    rw [hstack, update_of_ne hq, update_of_ne fun e => hd (hi.locks.tid_inj e)]
  | clear hu _ =>
    subst hu
    exact ⟨rfl, .inl rfl⟩

end Xv6.Sched
