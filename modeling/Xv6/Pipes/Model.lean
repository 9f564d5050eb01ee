import Xv6.Base.Transition
import Xv6.Base.Ring

/-!
# Pipes

The model of `kernel/pipe.c`. A pipe is a ring of `PIPESIZE` bytes with two free-running `uint`
counters. `pipewrite` and `piperead` hold `pi->lock` except while they sleep, so their code is cut
at the loop heads: one pass through a loop is one atomic step (`pipewriteStep`, `pipereadStep`,
`pipecopyStep`), and between two passes the process either still holds the lock, sleeps on one of
the two channels, or waits to take the lock again. `kill` needs no pipe lock and can come between
any two passes.

What `copyin` and `copyout` do to one user byte is an input of the step: user memory belongs to
another part of the kernel, and every outcome is allowed.
-/

set_option autoImplicit false

namespace Xv6.Pipes

open Function Xv6.Base

def PIPESIZE : Nat := 512

instance : NeZero PIPESIZE := ⟨by decide⟩

/-- `struct pipe` without its spinlock, which is `Sys.lock`. -/
structure Pipe where
  data : Fin PIPESIZE → UInt8
  nread : UInt32
  nwrite : UInt32
  readopen : Bool
  writeopen : Bool

/-- The pipe that `pipealloc` sets up in a fresh page with contents `junk`. -/
def pipealloc (junk : Fin PIPESIZE → UInt8) : Pipe :=
  { data := junk, nread := 0, nwrite := 0, readopen := true, writeopen := true }

/-- The two sleep channels, `&pi->nread` and `&pi->nwrite`. -/
inductive Chan where
  | nread
  | nwrite
  deriving DecidableEq, Repr

/-- Loop heads. `write` is the head of the loop of `pipewrite`, `read` the head of the waiting loop
of `piperead` and `copy` the head of its copying loop. -/
inductive Cont where
  | write (addr : UInt64) (n : Int) (i : Nat)
  | read (addr : UInt64) (n : Int)
  | copy (addr : UInt64) (n : Int) (i : Nat)
  deriving DecidableEq, Repr

/-- Where a process stands: outside the two functions, in `acquire(&pi->lock)`, holding the lock at
a loop head, or asleep on a channel. -/
inductive Pc where
  | idle
  | waiting (k : Cont)
  | running (k : Cont)
  | sleeping (c : Chan) (k : Cont)
  deriving DecidableEq, Repr

/-- How one pass through a loop ends for the process that makes it. -/
inductive Next where
  | goto (k : Cont)
  | sleep (c : Chan) (k : Cont)
  | ret (r : Int)
  deriving DecidableEq, Repr

/-- What a step shows to an observer: a byte stored in `data[]` by a writer, a byte taken out of
`data[]` by a reader (with the success of its `copyout`), a return value, or nothing. -/
inductive Label where
  | silent
  | stored (b : UInt8)
  | taken (b : UInt8) (delivered : Bool)
  | returned (r : Int)
  deriving DecidableEq, Repr

/-- Result of one pass: the pipe, the channel woken if any, the way the pass ends, and its label. -/
structure Outcome where
  pipe : Pipe
  wake : Option Chan
  next : Next
  label : Label

/-- `pi->data[pi->nwrite++ % PIPESIZE] = ch`. -/
def Pipe.store (pi : Pipe) (ch : UInt8) : Pipe :=
  { pi with
    data := update pi.data (Ring.cell PIPESIZE pi.nwrite) ch
    nwrite := pi.nwrite + 1 }

/-- The byte read by `ch = pi->data[pi->nread++ % PIPESIZE]`. -/
def Pipe.front (pi : Pipe) : UInt8 := pi.data (Ring.cell PIPESIZE pi.nread)

/-- The pipe after `ch = pi->data[pi->nread++ % PIPESIZE]`. -/
def Pipe.advance (pi : Pipe) : Pipe := { pi with nread := pi.nread + 1 }

/-- One pass through the loop of `pipewrite`; `ch` is the byte that `copyin` fetched from
`addr + i`, `none` if it failed. -/
def pipewriteStep (pi : Pipe) (killed : Bool) (ch : Option UInt8) (addr : UInt64) (n : Int) (i : Nat) : Outcome :=
  if (i : Int) < n then
    if pi.readopen = false ∨ killed = true then
      ⟨pi, none, .ret (-1), .returned (-1)⟩
    else if pi.nwrite = pi.nread + UInt32.ofNat PIPESIZE then
      ⟨pi, some .nread, .sleep .nwrite (.write addr n i), .silent⟩
    else
      match ch with
      | none => ⟨pi, some .nread, .ret i, .returned i⟩
      | some c => ⟨pi.store c, none, .goto (.write addr n (i + 1)), .stored c⟩
  else
    ⟨pi, some .nread, .ret i, .returned i⟩

/-- One pass through the waiting loop of `piperead`. -/
def pipereadStep (pi : Pipe) (killed : Bool) (addr : UInt64) (n : Int) : Outcome :=
  if pi.nread = pi.nwrite ∧ pi.writeopen = true then
    if killed then ⟨pi, none, .ret (-1), .returned (-1)⟩
    else ⟨pi, none, .sleep .nread (.read addr n), .silent⟩
  else
    ⟨pi, none, .goto (.copy addr n 0), .silent⟩

/-- One pass through the copying loop of `piperead`; `ok` says whether `copyout` to `addr + i`
succeeds. The byte has left the ring either way. -/
def pipecopyStep (pi : Pipe) (ok : Bool) (addr : UInt64) (n : Int) (i : Nat) : Outcome :=
  if (i : Int) < n then
    if pi.nread = pi.nwrite then
      ⟨pi, some .nwrite, .ret i, .returned i⟩
    else if ok then
      ⟨pi.advance, none, .goto (.copy addr n (i + 1)), .taken pi.front true⟩
    else
      ⟨pi.advance, some .nwrite, .ret i, .taken pi.front false⟩
  else
    ⟨pi, some .nwrite, .ret i, .returned i⟩

/-- The pass a process makes at the loop head `k`. -/
def contStep (pi : Pipe) (killed : Bool) (ch : Option UInt8) (ok : Bool) : Cont → Outcome
  | .write addr n i => pipewriteStep pi killed ch addr n i
  | .read addr n => pipereadStep pi killed addr n
  | .copy addr n i => pipecopyStep pi ok addr n i

/-- A pipe with the processes that use it. `lock` is the holder of `pi->lock`; `freed` is set once
both ends are closed and the page is given back. -/
structure Sys where
  pipe : Pipe
  lock : Option Nat
  pc : Nat → Pc
  killed : Nat → Bool
  freed : Bool

/-- `wakeup(chan)`: every process asleep on the channel goes on to reacquire the lock. -/
def wakeup (c : Chan) (pc : Nat → Pc) : Nat → Pc := fun q =>
  match pc q with
  | .sleeping c' k => if c' = c then .waiting k else .sleeping c' k
  | pcq => pcq

/-- `wakeup` of an optional channel. -/
def wakeup? : Option Chan → (Nat → Pc) → Nat → Pc
  | none, pc => pc
  | some c, pc => wakeup c pc

/-- State of the process after a pass: it keeps the lock, sleeps, or has returned. -/
def Next.pc : Next → Pc
  | .goto k => .running k
  | .sleep c k => .sleeping c k
  | .ret _ => .idle

/-- The lock after a pass of process `p`: only a process that goes on keeps it. -/
def Next.lock (p : Nat) : Next → Option Nat
  | .goto _ => some p
  | .sleep _ _ => none
  | .ret _ => none

/-- The system after process `p` made a pass with outcome `o`. -/
def Sys.apply (s : Sys) (p : Nat) (o : Outcome) : Sys :=
  { s with
    pipe := o.pipe
    lock := o.next.lock p
    pc := update (wakeup? o.wake s.pc) p o.next.pc }

/-- `pipeclose(pi, writable)`. -/
def pipeclose (s : Sys) (writable : Bool) : Sys :=
  let pi := if writable then { s.pipe with writeopen := false }
    else { s.pipe with readopen := false }
  { s with
    pipe := pi
    pc := wakeup (if writable then .nread else .nwrite) s.pc
    freed := !pi.readopen && !pi.writeopen }

/-- `kill`: the flag is set and a sleeping victim is made runnable. -/
def kill (s : Sys) (p : Nat) : Sys :=
  { s with
    killed := update s.killed p true
    pc := update s.pc p
      (match s.pc p with
        | .sleeping _ k => .waiting k
        | pcp => pcp) }

/-- Atomic steps of the processes that share a pipe. -/
inductive Step : Sys → Label → Sys → Prop
  | callWrite (s : Sys) (p : Nat) (addr : UInt64) (n : Int) :
      s.pc p = .idle → s.freed = false →
      Step s .silent { s with pc := update s.pc p (.waiting (.write addr n 0)) }
  | callRead (s : Sys) (p : Nat) (addr : UInt64) (n : Int) :
      s.pc p = .idle → s.freed = false →
      Step s .silent { s with pc := update s.pc p (.waiting (.read addr n)) }
  | acquire (s : Sys) (p : Nat) (k : Cont) :
      s.pc p = .waiting k → s.lock = none →
      Step s .silent { s with lock := some p, pc := update s.pc p (.running k) }
  | pass (s : Sys) (p : Nat) (k : Cont) (ch : Option UInt8) (ok : Bool) :
      s.pc p = .running k → s.lock = some p →
      Step s (contStep s.pipe (s.killed p) ch ok k).label
        (s.apply p (contStep s.pipe (s.killed p) ch ok k))
  | close (s : Sys) (writable : Bool) :
      s.lock = none → s.freed = false → Step s .silent (pipeclose s writable)
  | kill (s : Sys) (p : Nat) : Step s .silent (kill s p)

/-- A freshly allocated pipe that nobody uses yet. -/
def Sys.init (junk : Fin PIPESIZE → UInt8) : Sys :=
  { pipe := pipealloc junk, lock := none, pc := fun _ => .idle, killed := fun _ => false,
    freed := false }

/-- Bytes stored by writers along a run, in order. -/
def stored : List Label → List UInt8 :=
  List.filterMap fun l => match l with
    | .stored b => some b
    | _ => none

/-- Bytes taken out of `data[]` by readers along a run, in order. -/
def taken : List Label → List UInt8 :=
  List.filterMap fun l => match l with
    | .taken b _ => some b
    | _ => none

/-! ## What one pass can do -/

/-- The passes of `pipewrite`. -/
inductive WritePass (pi : Pipe) (killed : Bool) (addr : UInt64) (n : Int) (i : Nat) :
    Outcome → Prop
  | early : (i : Int) < n → pi.readopen = false ∨ killed = true →
      WritePass pi killed addr n i ⟨pi, none, .ret (-1), .returned (-1)⟩
  | full : pi.readopen = true → pi.nwrite = pi.nread + UInt32.ofNat PIPESIZE →
      WritePass pi killed addr n i ⟨pi, some .nread, .sleep .nwrite (.write addr n i), .silent⟩
  | store (c : UInt8) : ¬((i : Int) < n ∧ (pi.readopen = false ∨ killed = true)) →
      pi.nwrite ≠ pi.nread + UInt32.ofNat PIPESIZE →
      WritePass pi killed addr n i ⟨pi.store c, none, .goto (.write addr n (i + 1)), .stored c⟩
  | done : ¬((i : Int) < n ∧ (pi.readopen = false ∨ killed = true)) →
      WritePass pi killed addr n i ⟨pi, some .nread, .ret i, .returned i⟩

theorem pipewriteStep_pass (pi : Pipe) (killed : Bool) (ch : Option UInt8) (addr : UInt64) (n : Int) (i : Nat) :
    WritePass pi killed addr n i (pipewriteStep pi killed ch addr n i) := by
  unfold pipewriteStep
  by_cases hi : (i : Int) < n
  · rw [if_pos hi]
    by_cases hk : pi.readopen = false ∨ killed = true
    · rw [if_pos hk]
      exact WritePass.early hi hk
    · rw [if_neg hk]
      have hopen : pi.readopen = true := by
        cases ho : pi.readopen with
        | true => rfl
        | false => exact absurd (.inl ho) hk
      by_cases hfull : pi.nwrite = pi.nread + UInt32.ofNat PIPESIZE
      · rw [if_pos hfull]
        exact WritePass.full hopen hfull
      · rw [if_neg hfull]
        cases ch with
        | none => exact WritePass.done fun h => hk h.2
        | some c => exact WritePass.store c (fun h => hk h.2) hfull
  · rw [if_neg hi]
    exact WritePass.done fun h => hi h.1

/-- The passes of `piperead`: of the waiting loop and of the copying loop. -/
inductive ReadPass (pi : Pipe) : Outcome → Prop
  | killed : ReadPass pi ⟨pi, none, .ret (-1), .returned (-1)⟩
  | wait (addr : UInt64) (n : Int) : pi.nread = pi.nwrite → pi.writeopen = true →
      ReadPass pi ⟨pi, none, .sleep .nread (.read addr n), .silent⟩
  | begin (addr : UInt64) (n : Int) : ReadPass pi ⟨pi, none, .goto (.copy addr n 0), .silent⟩

inductive CopyPass (pi : Pipe) : Outcome → Prop
  | take (addr : UInt64) (n : Int) (i : Nat) : pi.nread ≠ pi.nwrite →
      CopyPass pi ⟨pi.advance, none, .goto (.copy addr n i), .taken pi.front true⟩
  | fault (i : Int) : pi.nread ≠ pi.nwrite →
      CopyPass pi ⟨pi.advance, some .nwrite, .ret i, .taken pi.front false⟩
  | done (i : Int) : CopyPass pi ⟨pi, some .nwrite, .ret i, .returned i⟩

theorem pipereadStep_pass (pi : Pipe) (killed : Bool) (addr : UInt64) (n : Int) :
    ReadPass pi (pipereadStep pi killed addr n) := by
  unfold pipereadStep
  by_cases hw : pi.nread = pi.nwrite ∧ pi.writeopen = true
  · rw [if_pos hw]
    cases killed with
    | true => exact ReadPass.killed
    | false => exact ReadPass.wait addr n hw.1 hw.2
  · rw [if_neg hw]
    exact ReadPass.begin addr n

theorem pipecopyStep_pass (pi : Pipe) (ok : Bool) (addr : UInt64) (n : Int) (i : Nat) :
    CopyPass pi (pipecopyStep pi ok addr n i) := by
  unfold pipecopyStep
  by_cases hi : (i : Int) < n
  · rw [if_pos hi]
    by_cases hempty : pi.nread = pi.nwrite
    · rw [if_pos hempty]
      exact CopyPass.done i
    · rw [if_neg hempty]
      cases ok with
      | true => exact CopyPass.take addr n (i + 1) hempty
      | false => exact CopyPass.fault i hempty
  · rw [if_neg hi]
    exact CopyPass.done i

end Xv6.Pipes
