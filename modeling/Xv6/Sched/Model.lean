import Mathlib.Data.List.FinRange
import Xv6.Base.Transition

/-!
# Processes, CPUs and the scheduler

The model of the process part of `kernel/proc.c`: `allocproc`, `freeproc`, `fork`, `reparent`, `exit`,
`wait`, `scheduler`, `sched`, `yield`, `forkret`, `sleep`, `wakeup`, `kill` and `setkilled`, run by any number of
CPUs on a table of any number of processes.

Each process has a kernel stack and each CPU has the stack of its `scheduler()`. A stack is a list of
frames, the innermost call first; a frame is a place in the source together with the local variables
that are live there. `instr` says which instruction stands at a place: taking or giving back one
spinlock, one section of work on the process table, or a `swtch`. A step of the system is one
instruction of the thread that some CPU is executing, so the steps of different CPUs interleave
between any two of them. Interrupts come between any two instructions of a thread that holds no
lock, as `push_off` has it.

`p->context` is good for one use: `saved p` says that it holds the point at which `p` last left its
CPU (or the entry into `forkret` that `allocproc` sets up); from a `swtch` into it on it is stale.

Kernel code outside this file uses `sleep` and `wakeup` under a lock of its own. It is present as a
client that takes any lock, and while it holds it may wake any channel, change a condition, sleep, or
release the lock. One channel, one lock and one condition of such a client are singled out in `Cfg`:
who sleeps on that channel has seen the condition false under that lock, and who makes the condition
true does so under that lock and wakes the channel before giving it back.
-/

set_option autoImplicit false
set_option linter.unusedSectionVars false

namespace Xv6.Sched

open Function (update update_self update_of_ne)

variable {N : Nat} {C : Type}

/-- `enum procstate`. -/
inductive Procstate where
  | unused
  | used
  | sleeping
  | runnable
  | running
  | zombie
  deriving DecidableEq, Repr

/-- A sleep channel: the address of a `struct proc`, on which `wait` sleeps, or any other address. -/
inductive Chan (N : Nat) where
  | proc (p : Fin N)
  | addr (a : Nat)
  deriving DecidableEq, Repr

/-- Spinlocks: `p->lock`, `wait_lock`, `pid_lock`, and those of other parts of the kernel. -/
inductive Lock (N : Nat) where
  | proc (p : Fin N)
  | wait
  | pid
  | other (a : Nat)
  deriving DecidableEq, Repr

/-- `struct proc`, without its lock, stack and context and without the file-system fields. -/
structure Proc (N : Nat) where
  state : Procstate
  chan : Option (Chan N)
  killed : Bool
  xstate : Int32
  pid : Int32
  parent : Option (Fin N)
  sz : Nat
  pagetable : Option Nat
  trapframe : Option Nat
  deriving DecidableEq, Repr

/-- The slot as the loader and `procinit` leave it, and as `freeproc` leaves it again. -/
def Proc.free : Proc N :=
  { state := .unused, chan := none, killed := false, xstate := 0, pid := 0, parent := none, sz := 0,
    pagetable := none, trapframe := none }

/-- What is fixed in a run: `initproc`, and the channel and the lock of the client whose sleepers are
followed. -/
structure Cfg (N : Nat) where
  initproc : Fin N
  chan : Nat
  lk : Nat

/-- The process table in the order of `for(p = proc; p < &proc[NPROC]; p++)`. -/
def procs (N : Nat) : List (Fin N) := List.finRange N

/-- Places in the source. Loops over the table carry the part of it that is still ahead. -/
inductive Frame (N : Nat) where
  -- scheduler()
  | scan (ps : List (Fin N))
  | pick (p : Fin N) (ps : List (Fin N))
  | assign (p : Fin N) (ps : List (Fin N))
  | switch (p : Fin N) (ps : List (Fin N))
  | back (p : Fin N) (ps : List (Fin N))
  | drop (p : Fin N) (ps : List (Fin N))
  -- user space, and kernel code that is not modelled; forkret(); yield()
  | user
  | forkret
  | yield0
  | yield1
  | yield2
  | yield3
  -- sleep(chan, lk)
  | sleep0 (ch : Chan N) (lk : Lock N)
  | sleep1 (ch : Chan N) (lk : Lock N)
  | sleep2 (ch : Chan N) (lk : Lock N)
  | sleep3 (ch : Chan N) (lk : Lock N)
  | sleep4 (ch : Chan N) (lk : Lock N)
  | sleep5 (ch : Chan N) (lk : Lock N)
  | sleep6 (ch : Chan N) (lk : Lock N)
  | sleep7 (ch : Chan N) (lk : Lock N)
  -- wakeup(chan)
  | wakeup (ch : Option (Chan N)) (ps : List (Fin N))
  | wakeup1 (ch : Option (Chan N)) (q : Fin N) (ps : List (Fin N))
  | wakeup2 (ch : Option (Chan N)) (q : Fin N) (ps : List (Fin N))
  -- kill(pid), setkilled(p)
  | kill (pid : Int32) (ps : List (Fin N))
  | kill1 (pid : Int32) (q : Fin N) (ps : List (Fin N))
  | kill2 (pid : Int32) (q : Fin N)
  | kill3 (q : Fin N)
  | kill4 (pid : Int32) (q : Fin N) (ps : List (Fin N))
  | setkilled0
  | setkilled1
  | setkilled2
  -- growproc() and exec(): the process replaces its own memory
  | grow (sz : Nat) (pagetable : Nat)
  -- exit(status), with reparent()
  | exit0 (status : Int32)
  | reparent (status : Int32) (ps : List (Fin N))
  | exit2 (status : Int32)
  | exit3 (status : Int32)
  | exit4 (status : Int32)
  | exit5
  | exit6
  | dead
  -- wait(addr)
  | wait0 (addr : Nat)
  | waitScan (addr : Nat) (kids : Bool) (ps : List (Fin N))
  | waitLock (addr : Nat) (q : Fin N) (ps : List (Fin N))
  | waitTest (addr : Nat) (q : Fin N) (ps : List (Fin N))
  | waitDone (q : Fin N) (pid : Int32)
  | waitRet (pid : Int32)
  | waitErr (q : Fin N)
  | waitFail
  | waitDrop (addr : Nat) (q : Fin N) (ps : List (Fin N))
  | waitKilled0 (addr : Nat)
  | waitKilled1 (addr : Nat)
  | waitKilled2 (addr : Nat) (killed : Bool)
  -- fork(), with allocproc() and allocpid()
  | fork (ps : List (Fin N))
  | forkTest (q : Fin N) (ps : List (Fin N))
  | forkDrop (q : Fin N) (ps : List (Fin N))
  | forkPid0 (q : Fin N)
  | forkPid1 (q : Fin N)
  | forkPid2 (q : Fin N) (pid : Int32)
  | forkUsed (q : Fin N) (pid : Int32)
  | forkAlloc (q : Fin N)
  | forkContext (q : Fin N)
  | forkCopy (q : Fin N)
  | forkFail (q : Fin N)
  | forkFail1 (q : Fin N)
  | forkRel (q : Fin N) (pid : Int32)
  | forkParent0 (q : Fin N) (pid : Int32)
  | forkParent1 (q : Fin N) (pid : Int32)
  | forkParent2 (q : Fin N) (pid : Int32)
  | forkRun0 (q : Fin N) (pid : Int32)
  | forkRun1 (q : Fin N) (pid : Int32)
  | forkRun2 (q : Fin N) (pid : Int32)
  -- a client of sleep and wakeup; `owes` is set between making the condition true and waking the
  -- channel
  | client0 (l : Nat)
  | holding (l : Nat) (owes : Bool)
  deriving DecidableEq, Repr

/-- What a step shows to an observer. -/
inductive Event (N : Nat) where
  | silent
  /-- `kill(pid)` found the slot `q`. -/
  | killed (pid : Int32) (q : Fin N)
  /-- `kill(pid)` found no slot. -/
  | killFailed (pid : Int32)
  /-- `allocproc` returned the slot `q`. -/
  | allocated (q : Fin N)
  /-- Process `p` became a zombie. -/
  | exited (p : Fin N) (pid : Int32) (status : Int32)
  /-- `wait` of `p` found and freed its child `q`; `stored` is what it copied out to the user. -/
  | reaped (p q : Fin N) (pid : Int32) (stored : Option Int32)
  /-- `wait` of `p` found its child `q`, but could not copy out the status. -/
  | copyoutFailed (p q : Fin N)
  /-- `wait` of `p` returned a process id. -/
  | waited (p : Fin N) (pid : Int32)
  deriving DecidableEq, Repr

/-- Shared data: the process table, `nextpid`, the `c->proc` of every CPU, and the condition of the
client that is followed. -/
structure Shared (N : Nat) (C : Type) where
  proc : Fin N → Proc N
  nextpid : Int32
  cpu : C → Option (Fin N)
  cond : Bool

/-- Outcomes the environment decides: whether a `copyout` or `uvmcopy` succeeds, and what `kalloc` and
`proc_pagetable` return. -/
structure Input where
  ok : Bool
  page : Option Nat
  table : Option Nat

/-- Result of a section of work: the shared data, the frames that replace the current one, and what is
observed. -/
abbrev Result (N : Nat) (C : Type) := Shared N C × List (Frame N) × Event N

/-- Instructions. The frames `next` replace the current one: none on a return, two on a call. -/
inductive Instr (N : Nat) (C : Type) where
  | acquire (lk : Lock N) (next : List (Frame N))
  | release (lk : Lock N) (next : List (Frame N)) (ev : Event N)
  | act (f : Input → Shared N C → Result N C)
  /-- `swtch(&c->context, &p->context)`. -/
  | swtchTo (p : Fin N) (next : Frame N)
  /-- `swtch(&p->context, &mycpu()->context)`, in `sched`. -/
  | swtchBack (next : Frame N)
  /-- The last lines of `allocproc`: the context of `q` is set to enter `forkret`. -/
  | context (q : Fin N) (next : Frame N)
  /-- No instruction: the thread waits for a system call, or has panicked. -/
  | stop

section Updates

variable [DecidableEq C]

/-- Change one slot of the process table. -/
def Shared.setProc (sh : Shared N C) (p : Fin N) (x : Proc N) : Shared N C :=
  { sh with proc := update sh.proc p x }

/-- `p->state = st`. -/
def Shared.setState (sh : Shared N C) (p : Fin N) (st : Procstate) : Shared N C :=
  sh.setProc p { sh.proc p with state := st }

/-- `c->proc = p`. -/
def Shared.setCpu (sh : Shared N C) (c : C) (p : Option (Fin N)) : Shared N C :=
  { sh with cpu := update sh.cpu c p }

end Updates

/-- A section that goes to another place and changes nothing. -/
def goto (sh : Shared N C) (next : List (Frame N)) : Result N C := (sh, next, .silent)

section Code

variable [DecidableEq C]

/-- `scheduler()`, run by CPU `c`. -/
def schedulerInstr (c : C) : Frame N → Instr N C
  | .scan [] => .act fun _ sh => goto sh [.scan (procs N)]
  | .scan (p :: ps) => .acquire (.proc p) [.pick p ps]
  | .pick p ps => .act fun _ sh =>
    if (sh.proc p).state = .runnable then goto (sh.setState p .running) [.assign p ps]
    else goto sh [.drop p ps]
  | .assign p ps => .act fun _ sh => goto (sh.setCpu c (some p)) [.switch p ps]
  | .switch p ps => .swtchTo p (.back p ps)
  | .back p ps => .act fun _ sh => goto (sh.setCpu c none) [.drop p ps]
  | .drop p ps => .release (.proc p) [.scan ps] .silent
  | _ => .stop

/-- `forkret`, `yield` and `sleep`, called by process `p`. -/
def sleepInstr (p : Fin N) : Frame N → Instr N C
  | .forkret => .release (.proc p) [] .silent
  | .yield0 => .acquire (.proc p) [.yield1]
  | .yield1 => .act fun _ sh => goto (sh.setState p .runnable) [.yield2]
  | .yield2 => .swtchBack .yield3
  | .yield3 => .release (.proc p) [] .silent
  | .sleep0 ch lk => .acquire (.proc p) [.sleep1 ch lk]
  | .sleep1 ch lk => .release lk [.sleep2 ch lk] .silent
  | .sleep2 ch lk => .act fun _ sh =>
    goto (sh.setProc p { sh.proc p with chan := some ch }) [.sleep3 ch lk]
  | .sleep3 ch lk => .act fun _ sh => goto (sh.setState p .sleeping) [.sleep4 ch lk]
  | .sleep4 ch lk => .swtchBack (.sleep5 ch lk)
  | .sleep5 ch lk => .act fun _ sh =>
    goto (sh.setProc p { sh.proc p with chan := none }) [.sleep6 ch lk]
  | .sleep6 ch lk => .release (.proc p) [.sleep7 ch lk] .silent
  | .sleep7 _ lk => .acquire lk []
  | _ => .stop

/-- `wakeup(chan)`, called by process `me` or by an interrupt handler of an idle CPU. -/
def wakeupInstr (me : Option (Fin N)) : Frame N → Instr N C
  | .wakeup _ [] => .act fun _ sh => goto sh []
  | .wakeup ch (q :: ps) =>
    if some q = me then .act fun _ sh => goto sh [.wakeup ch ps]
    else .acquire (.proc q) [.wakeup1 ch q ps]
  | .wakeup1 ch q ps => .act fun _ sh =>
    if (sh.proc q).state = .sleeping ∧ (sh.proc q).chan = ch then
      goto (sh.setState q .runnable) [.wakeup2 ch q ps]
    else goto sh [.wakeup2 ch q ps]
  | .wakeup2 ch q ps => .release (.proc q) [.wakeup ch ps] .silent
  | _ => .stop

/-- `kill(pid)`, and `setkilled`, `growproc` and `exec` of process `p`. -/
def killInstr (p : Fin N) : Frame N → Instr N C
  | .kill pid [] => .act fun _ sh => (sh, [], .killFailed pid)
  | .kill pid (q :: ps) => .acquire (.proc q) [.kill1 pid q ps]
  | .kill1 pid q ps => .act fun _ sh =>
    if (sh.proc q).pid = pid then
      (sh.setProc q { sh.proc q with killed := true }, [.kill2 pid q], .killed pid q)
    else goto sh [.kill4 pid q ps]
  | .kill2 _ q => .act fun _ sh =>
    if (sh.proc q).state = .sleeping then goto (sh.setState q .runnable) [.kill3 q]
    else goto sh [.kill3 q]
  | .kill3 q => .release (.proc q) [] .silent
  | .kill4 pid q ps => .release (.proc q) [.kill pid ps] .silent
  | .setkilled0 => .acquire (.proc p) [.setkilled1]
  | .setkilled1 => .act fun _ sh =>
    goto (sh.setProc p { sh.proc p with killed := true }) [.setkilled2]
  | .setkilled2 => .release (.proc p) [] .silent
  | .grow sz pagetable => .act fun _ sh =>
    goto (sh.setProc p { sh.proc p with sz := sz, pagetable := some pagetable }) []
  | _ => .stop

/-- `exit(status)` of process `p`, from `acquire(&wait_lock)` on. `exit` of `initproc` panics, and so does
a return from the last `sched()`. -/
def exitInstr (k : Cfg N) (p : Fin N) : Frame N → Instr N C
  | .exit0 status => if p = k.initproc then .stop else .acquire .wait [.reparent status (procs N)]
  | .reparent status [] => .act fun _ sh =>
    goto sh [.wakeup ((sh.proc p).parent.map .proc) (procs N), .exit2 status]
  | .reparent status (q :: ps) => .act fun _ sh =>
    if (sh.proc q).parent = some p then
      goto (sh.setProc q { sh.proc q with parent := some k.initproc })
        [.wakeup (some (.proc k.initproc)) (procs N), .reparent status ps]
    else goto sh [.reparent status ps]
  | .exit2 status => .acquire (.proc p) [.exit3 status]
  | .exit3 status => .act fun _ sh =>
    goto (sh.setProc p { sh.proc p with xstate := status }) [.exit4 status]
  | .exit4 status => .act fun _ sh =>
    (sh.setState p .zombie, [.exit5], .exited p (sh.proc p).pid status)
  | .exit5 => .release .wait [.exit6] .silent
  | .exit6 => .swtchBack .dead
  | _ => .stop

/-- `wait(addr)` of process `p`. The `copyout` and the `freeproc` of a zombie child are one section, under
`wait_lock` and the lock of the child. -/
def waitInstr (p : Fin N) : Frame N → Instr N C
  | .wait0 addr => .acquire .wait [.waitScan addr false (procs N)]
  | .waitScan addr kids [] => .act fun _ sh =>
    goto sh (if kids then [.waitKilled0 addr] else [.waitFail])
  | .waitScan addr kids (q :: ps) => .act fun _ sh =>
    if (sh.proc q).parent = some p then goto sh [.waitLock addr q ps]
    else goto sh [.waitScan addr kids ps]
  | .waitLock addr q ps => .acquire (.proc q) [.waitTest addr q ps]
  | .waitTest addr q ps => .act fun inp sh =>
    if (sh.proc q).state = .zombie then
      if addr ≠ 0 ∧ inp.ok = false then (sh, [.waitErr q], .copyoutFailed p q)
      else (sh.setProc q Proc.free, [.waitDone q (sh.proc q).pid],
        .reaped p q (sh.proc q).pid (if addr ≠ 0 then some (sh.proc q).xstate else none))
    else goto sh [.waitDrop addr q ps]
  | .waitDone q pid => .release (.proc q) [.waitRet pid] .silent
  | .waitRet pid => .release .wait [] (.waited p pid)
  | .waitErr q => .release (.proc q) [.waitFail] .silent
  | .waitFail => .release .wait [] .silent
  | .waitDrop addr q ps => .release (.proc q) [.waitScan addr true ps] .silent
  | .waitKilled0 addr => .acquire (.proc p) [.waitKilled1 addr]
  | .waitKilled1 addr => .act fun _ sh => goto sh [.waitKilled2 addr (sh.proc p).killed]
  | .waitKilled2 addr killed => .release (.proc p)
      (if killed then [.waitFail]
        else [.sleep0 (.proc p) .wait, .waitScan addr false (procs N)]) .silent
  | _ => .stop

/-- `fork()` of process `p`, with `allocproc` and `allocpid`. The slot `q` is locked from the moment it is
found until its memory is set up. -/
def forkInstr (p : Fin N) : Frame N → Instr N C
  | .fork [] => .act fun _ sh => goto sh []
  | .fork (q :: ps) => .acquire (.proc q) [.forkTest q ps]
  | .forkTest q ps => .act fun _ sh =>
    if (sh.proc q).state = .unused then goto sh [.forkPid0 q] else goto sh [.forkDrop q ps]
  | .forkDrop q ps => .release (.proc q) [.fork ps] .silent
  | .forkPid0 q => .acquire .pid [.forkPid1 q]
  | .forkPid1 q => .act fun _ sh =>
    goto { sh with nextpid := sh.nextpid + 1 } [.forkPid2 q sh.nextpid]
  | .forkPid2 q pid => .release .pid [.forkUsed q pid] .silent
  | .forkUsed q pid => .act fun _ sh =>
    goto (sh.setProc q { sh.proc q with pid := pid, state := .used }) [.forkAlloc q]
  | .forkAlloc q => .act fun inp sh =>
    match inp.page, inp.table with
    | some page, some table =>
      goto (sh.setProc q { sh.proc q with trapframe := some page, pagetable := some table })
        [.forkContext q]
    | page, _ => goto (sh.setProc q { sh.proc q with trapframe := page }) [.forkFail q]
  | .forkContext q => .context q (.forkCopy q)
  | .forkCopy q => .act fun inp sh =>
    if inp.ok then
      goto (sh.setProc q { sh.proc q with sz := (sh.proc p).sz }) [.forkRel q (sh.proc q).pid]
    else goto sh [.forkFail q]
  | .forkFail q => .act fun _ sh => goto (sh.setProc q Proc.free) [.forkFail1 q]
  | .forkFail1 q => .release (.proc q) [] .silent
  | .forkRel q pid => .release (.proc q) [.forkParent0 q pid] .silent
  | .forkParent0 q pid => .acquire .wait [.forkParent1 q pid]
  | .forkParent1 q pid => .act fun _ sh =>
    goto (sh.setProc q { sh.proc q with parent := some p }) [.forkParent2 q pid]
  | .forkParent2 q pid => .release .wait [.forkRun0 q pid] .silent
  | .forkRun0 q pid => .acquire (.proc q) [.forkRun1 q pid]
  | .forkRun1 q pid => .act fun _ sh => goto (sh.setState q .runnable) [.forkRun2 q pid]
  | .forkRun2 q _ => .release (.proc q) [] .silent
  | _ => .stop

/-- The instruction at a place. `me` is the process whose thread it is; the thread of a CPU's
`scheduler()` has none, and runs nothing but the scheduler and interrupt handlers. -/
def instr (k : Cfg N) (c : C) (me : Option (Fin N)) (f : Frame N) : Instr N C :=
  match f with
  | .scan _ | .pick _ _ | .assign _ _ | .switch _ _ | .back _ _ | .drop _ _ => schedulerInstr c f
  | .wakeup _ _ | .wakeup1 _ _ _ | .wakeup2 _ _ _ => wakeupInstr me f
  | .client0 l => .acquire (.other l) [.holding l false]
  | .holding _ _ | .user | .dead => .stop
  | f => match me with
      | none => .stop
      | some p => match f with
          | .forkret | .yield0 | .yield1 | .yield2 | .yield3 | .sleep0 _ _ | .sleep1 _ _ | .sleep2 _ _
          | .sleep3 _ _ | .sleep4 _ _ | .sleep5 _ _ | .sleep6 _ _ | .sleep7 _ _ => sleepInstr p f
          | .kill _ _ | .kill1 _ _ _ | .kill2 _ _ | .kill3 _ | .kill4 _ _ _ | .setkilled0 | .setkilled1
          | .setkilled2 | .grow _ _ => killInstr p f
          | .exit0 _ | .reparent _ _ | .exit2 _ | .exit3 _ | .exit4 _ | .exit5 | .exit6 =>
            exitInstr k p f
          | .wait0 _ | .waitScan _ _ _ | .waitLock _ _ _ | .waitTest _ _ _ | .waitDone _ _ | .waitRet _
          | .waitErr _ | .waitFail | .waitDrop _ _ _ | .waitKilled0 _ | .waitKilled1 _
          | .waitKilled2 _ _ => waitInstr p f
          | f => forkInstr p f

end Code

/-- Threads: the `scheduler()` of a CPU and the kernel thread of a process. -/
inductive Tid (N : Nat) (C : Type) where
  | cpu (c : C)
  | proc (p : Fin N)
  deriving DecidableEq, Repr

/-- `myproc()` in a thread. -/
def Tid.me : Tid N C → Option (Fin N)
  | .cpu _ => none
  | .proc p => some p

/-- The machine: shared data, the CPU that holds each spinlock, the process whose thread each CPU is
executing, the stack of each thread, and which contexts are good to switch to. -/
structure Sys (N : Nat) (C : Type) where
  sh : Shared N C
  lock : Lock N → Option C
  on : C → Option (Fin N)
  stack : Tid N C → List (Frame N)
  saved : Fin N → Bool

/-- The thread that a CPU is executing. -/
def Sys.tid (s : Sys N C) (c : C) : Tid N C :=
  match s.on c with
  | none => .cpu c
  | some p => .proc p

theorem Sys.tid_of_none {s : Sys N C} {c : C} (h : s.on c = none) : s.tid c = .cpu c := by
  simp [Sys.tid, h]

theorem Sys.tid_of_some {s : Sys N C} {c : C} {p : Fin N} (h : s.on c = some p) : s.tid c = .proc p := by
  simp [Sys.tid, h]

theorem Sys.on_of_tid {s : Sys N C} {c : C} {p : Fin N} (h : s.tid c = .proc p) : s.on c = some p := by
  unfold Sys.tid at h
  cases hc : s.on c with
  | none => rw [hc] at h; cases h
  | some q => rw [hc] at h; cases h; rfl

theorem on_of_me {s : Sys N C} {c : C} {p : Fin N} (h : (s.tid c).me = some p) : s.on c = some p := by
  cases ht : s.tid c with
  | cpu d => rw [ht] at h; cases h
  | proc q => rw [ht] at h; cases h; exact Sys.on_of_tid ht

/-- A thread that is not a scheduler is that of a process. -/
theorem Sys.exists_on {s : Sys N C} {c : C} (h : (s.tid c).me ≠ none) : ∃ p, s.on c = some p ∧ s.tid c = .proc p := by
  obtain ⟨p, hp⟩ := Option.ne_none_iff_exists'.1 h
  have hon := on_of_me hp
  exact ⟨p, hon, Sys.tid_of_some hon⟩

theorem Sys.tid_congr {s t : Sys N C} (h : t.on = s.on) (c : C) : t.tid c = s.tid c := by
  simp [Sys.tid, h]

section Machine

variable [DecidableEq C]

def Sys.setShared (s : Sys N C) (sh : Shared N C) : Sys N C := { s with sh := sh }

def Sys.setLock (s : Sys N C) (lk : Lock N) (c : Option C) : Sys N C :=
  { s with lock := update s.lock lk c }

def Sys.setStack (s : Sys N C) (t : Tid N C) (st : List (Frame N)) : Sys N C :=
  { s with stack := update s.stack t st }

def Sys.setOn (s : Sys N C) (c : C) (p : Option (Fin N)) : Sys N C :=
  { s with on := update s.on c p }

def Sys.setSaved (s : Sys N C) (p : Fin N) (b : Bool) : Sys N C :=
  { s with saved := update s.saved p b }

section Fields

variable (s : Sys N C) (sh : Shared N C) (lk : Lock N) (x : Option C) (t : Tid N C) (st : List (Frame N))
  (c : C) (p : Fin N) (y : Option (Fin N)) (b : Bool)

@[simp] theorem Sys.setShared_sh : (s.setShared sh).sh = sh := rfl
@[simp] theorem Sys.setShared_lock : (s.setShared sh).lock = s.lock := rfl
@[simp] theorem Sys.setShared_on : (s.setShared sh).on = s.on := rfl
@[simp] theorem Sys.setShared_stack : (s.setShared sh).stack = s.stack := rfl
@[simp] theorem Sys.setShared_saved : (s.setShared sh).saved = s.saved := rfl
@[simp] theorem Sys.setLock_sh : (s.setLock lk x).sh = s.sh := rfl
@[simp] theorem Sys.setLock_lock : (s.setLock lk x).lock = update s.lock lk x := rfl
@[simp] theorem Sys.setLock_on : (s.setLock lk x).on = s.on := rfl
@[simp] theorem Sys.setLock_stack : (s.setLock lk x).stack = s.stack := rfl
@[simp] theorem Sys.setLock_saved : (s.setLock lk x).saved = s.saved := rfl
@[simp] theorem Sys.setStack_sh : (s.setStack t st).sh = s.sh := rfl
@[simp] theorem Sys.setStack_lock : (s.setStack t st).lock = s.lock := rfl
@[simp] theorem Sys.setStack_on : (s.setStack t st).on = s.on := rfl
@[simp] theorem Sys.setStack_stack : (s.setStack t st).stack = update s.stack t st := rfl
@[simp] theorem Sys.setStack_saved : (s.setStack t st).saved = s.saved := rfl
@[simp] theorem Sys.setOn_sh : (s.setOn c y).sh = s.sh := rfl
@[simp] theorem Sys.setOn_lock : (s.setOn c y).lock = s.lock := rfl
@[simp] theorem Sys.setOn_on : (s.setOn c y).on = update s.on c y := rfl
@[simp] theorem Sys.setOn_stack : (s.setOn c y).stack = s.stack := rfl
@[simp] theorem Sys.setOn_saved : (s.setOn c y).saved = s.saved := rfl
@[simp] theorem Sys.setSaved_sh : (s.setSaved p b).sh = s.sh := rfl
@[simp] theorem Sys.setSaved_lock : (s.setSaved p b).lock = s.lock := rfl
@[simp] theorem Sys.setSaved_on : (s.setSaved p b).on = s.on := rfl
@[simp] theorem Sys.setSaved_stack : (s.setSaved p b).stack = s.stack := rfl
@[simp] theorem Sys.setSaved_saved : (s.setSaved p b).saved = update s.saved p b := rfl

end Fields

/-- Where a system call starts in the kernel. -/
inductive Syscall : Frame N → Prop
  | kill (pid : Int32) : Syscall (.kill pid (procs N))
  | setkilled : Syscall .setkilled0
  | grow (sz pagetable : Nat) : Syscall (.grow sz pagetable)
  | exit (status : Int32) : Syscall (.exit0 status)
  | wait (addr : Nat) : Syscall (.wait0 addr)
  | fork : Syscall (.fork (procs N))

/-- Steps of the machine, each made by one CPU. -/
inductive Step (k : Cfg N) : Sys N C → Event N → Sys N C → Prop
  | acquire (s : Sys N C) (c : C) (f : Frame N) (rest : List (Frame N)) (lk : Lock N)
      (next : List (Frame N)) :
      s.stack (s.tid c) = f :: rest → instr k c (s.tid c).me f = .acquire lk next →
      s.lock lk = none →
      Step k s .silent ((s.setLock lk (some c)).setStack (s.tid c) (next ++ rest))
  | release (s : Sys N C) (c : C) (f : Frame N) (rest : List (Frame N)) (lk : Lock N)
      (next : List (Frame N)) (ev : Event N) :
      s.stack (s.tid c) = f :: rest → instr k c (s.tid c).me f = .release lk next ev →
      s.lock lk = some c →
      Step k s ev ((s.setLock lk none).setStack (s.tid c) (next ++ rest))
  | act (s : Sys N C) (c : C) (f : Frame N) (rest : List (Frame N))
      (g : Input → Shared N C → Result N C) (inp : Input) :
      s.stack (s.tid c) = f :: rest → instr k c (s.tid c).me f = .act g →
      Step k s (g inp s.sh).2.2
        ((s.setShared (g inp s.sh).1).setStack (s.tid c) ((g inp s.sh).2.1 ++ rest))
  | swtchTo (s : Sys N C) (c : C) (f : Frame N) (rest : List (Frame N)) (p : Fin N)
      (next : Frame N) :
      s.on c = none → s.stack (.cpu c) = f :: rest → instr k c none f = .swtchTo p next →
      Step k s .silent
        (((s.setStack (.cpu c) (next :: rest)).setOn c (some p)).setSaved p false)
  | swtchBack (s : Sys N C) (c : C) (p : Fin N) (f : Frame N) (rest : List (Frame N))
      (next : Frame N) :
      s.on c = some p → s.stack (.proc p) = f :: rest → instr k c (some p) f = .swtchBack next →
      Step k s .silent
        (((s.setStack (.proc p) (next :: rest)).setOn c none).setSaved p true)
  | context (s : Sys N C) (c : C) (f : Frame N) (rest : List (Frame N)) (q : Fin N)
      (next : Frame N) :
      s.stack (s.tid c) = f :: rest → instr k c (s.tid c).me f = .context q next →
      Step k s (.allocated q)
        (((s.setStack (s.tid c) (next :: rest)).setStack (.proc q) [.forkret, .user]).setSaved q true)
  -- a process in user space makes a system call
  | syscall (s : Sys N C) (c : C) (p : Fin N) (f : Frame N) :
      s.on c = some p → s.stack (.proc p) = [.user] → Syscall f →
      Step k s .silent (s.setStack (.proc p) [f, .user])
  -- a timer interrupt and a device interrupt, taken when the CPU holds no lock
  | timer (s : Sys N C) (c : C) (p : Fin N) (f : Frame N) (rest : List (Frame N)) :
      s.on c = some p → s.stack (.proc p) = f :: rest → (∀ lk, s.lock lk ≠ some c) →
      Step k s .silent (s.setStack (.proc p) (.yield0 :: f :: rest))
  | interrupt (s : Sys N C) (c : C) (f : Frame N) (rest : List (Frame N)) (l : Nat) :
      s.stack (s.tid c) = f :: rest → (∀ lk, s.lock lk ≠ some c) →
      Step k s .silent (s.setStack (s.tid c) (.client0 l :: f :: rest))
  -- a client that holds its lock: take another lock, wake a channel, sleep, unlock
  | nested (s : Sys N C) (c : C) (l l' : Nat) (owes : Bool) (rest : List (Frame N)) :
      s.stack (s.tid c) = .holding l owes :: rest →
      Step k s .silent (s.setStack (s.tid c) (.client0 l' :: .holding l owes :: rest))
  | wake (s : Sys N C) (c : C) (l : Nat) (owes : Bool) (rest : List (Frame N)) (ch : Chan N) :
      s.stack (s.tid c) = .holding l owes :: rest →
      Step k s .silent (s.setStack (s.tid c)
        (.wakeup (some ch) (procs N) :: .holding l (owes && ch != .addr k.chan) :: rest))
  -- `sched` panics when another lock is held
  | sleep (s : Sys N C) (c : C) (p : Fin N) (l a : Nat) (rest : List (Frame N)) :
      s.on c = some p → s.stack (.proc p) = .holding l false :: rest →
      (∀ lk, s.lock lk = some c → lk = .other l) →
      (a = k.chan → l = k.lk ∧ s.sh.cond = false) →
      Step k s .silent (s.setStack (.proc p) (.sleep0 (.addr a) (.other l) :: .holding l false :: rest))
  | unlock (s : Sys N C) (c : C) (l : Nat) (rest : List (Frame N)) :
      s.stack (s.tid c) = .holding l false :: rest → s.lock (.other l) = some c →
      Step k s .silent ((s.setLock (.other l) none).setStack (s.tid c) rest)
  -- the condition becomes true under its lock; it may become false at any time
  | make (s : Sys N C) (c : C) (owes : Bool) (rest : List (Frame N)) :
      s.stack (s.tid c) = .holding k.lk owes :: rest →
      Step k s .silent
        ((s.setShared { s.sh with cond := true }).setStack (s.tid c) (.holding k.lk true :: rest))
  | clear (s : Sys N C) : Step k s .silent (s.setShared { s.sh with cond := false })

/-- The machine when every CPU enters `scheduler()`: `userinit` has made `initproc` runnable, and no other
process exists. -/
def Sys.boot (k : Cfg N) (sz pagetable trapframe : Nat) (cond : Bool) : Sys N C where
  sh :=
    { proc := update (fun _ => Proc.free) k.initproc
        { Proc.free with
          state := .runnable, pid := 1, sz := sz, pagetable := some pagetable,
          trapframe := some trapframe }
      nextpid := 2
      cpu := fun _ => none
      cond := cond }
  lock := fun _ => none
  on := fun _ => none
  stack := fun t => match t with
    | .cpu _ => [.scan (procs N)]
    | .proc p => if p = k.initproc then [.forkret, .user] else []
  saved := fun p => decide (p = k.initproc)

end Machine

end Xv6.Sched
