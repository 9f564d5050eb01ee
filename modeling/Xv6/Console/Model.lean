import Xv6.Base.Ring
import Xv6.Base.Transition

/-!
# Console input

The model of the input side of `kernel/console.c`. Typed characters are edited in a ring of
`INPUT_BUF_SIZE` bytes with three free-running `uint` counters: `consoleread` takes bytes out at `r`,
what lies below `w` has been committed to readers, and what lies between `w` and `e` is the line
being edited.

`consoleintr` holds `cons.lock` from its first line to its last and is one step. `consoleread` holds
it except while it sleeps, so its code is cut at the head of the outer loop: one pass through the loop
is one step. `kill` can come between any two steps.
-/

set_option autoImplicit false

namespace Xv6.Console

open Function Xv6.Base

def INPUT_BUF_SIZE : Nat := 128

instance : NeZero INPUT_BUF_SIZE := ⟨by decide⟩

def BACKSPACE : Nat := 0x100

/-- `C(x)`, Control-x. -/
def C (x : Char) : UInt8 := UInt8.ofNat (x.toNat - '@'.toNat)

/-- A character constant of the source. -/
def chr (x : Char) : UInt8 := UInt8.ofNat x.toNat

/-- `cons`, without its spinlock, which is `Sys.lock`. -/
structure Cons where
  buf : Fin INPUT_BUF_SIZE → UInt8
  r : UInt32
  w : UInt32
  e : UInt32

/-- What `consputc(c)` sends to the uart. -/
def consputc (c : Nat) : List UInt8 :=
  if c = BACKSPACE then [8, chr ' ', 8] else [UInt8.ofNat c]

/-! ## `consoleintr` -/

/-- The loop of the `C('U')` case, with what it sends to the uart. It goes down from `cons.e` to `cons.w`
at most, which bounds the number of rounds. -/
def killLine : Nat → Cons → Cons × List UInt8
  | 0, cons => (cons, [])
  | n + 1, cons =>
    if cons.e ≠ cons.w ∧ cons.buf (Ring.cell INPUT_BUF_SIZE (cons.e - 1)) ≠ chr '\n' then
      let rest := killLine n { cons with e := cons.e - 1 }
      (rest.1, consputc BACKSPACE ++ rest.2)
    else (cons, [])

/-- `cons.buf[cons.e++ % INPUT_BUF_SIZE] = c`. -/
def Cons.store (cons : Cons) (c : UInt8) : Cons :=
  { cons with
    buf := update cons.buf (Ring.cell INPUT_BUF_SIZE cons.e) c
    e := cons.e + 1 }

/-- Result of `consoleintr`: whether it wakes the readers, and what it sends to the uart. -/
structure Intr where
  cons : Cons
  wake : Bool
  echo : List UInt8

/-- `consoleintr(c)` for a byte from the uart. The list of processes that `C('P')` prints is left out. -/
def consoleintr (c : UInt8) (cons : Cons) : Intr :=
  if c = C 'P' then ⟨cons, false, []⟩
  else if c = C 'U' then
    let k := killLine (cons.e - cons.w).toNat cons
    ⟨k.1, false, k.2⟩
  else if c = C 'H' ∨ c = 0x7f then
    if cons.e ≠ cons.w then ⟨{ cons with e := cons.e - 1 }, false, consputc BACKSPACE⟩
    else ⟨cons, false, []⟩
  else if c ≠ 0 ∧ cons.e - cons.r < UInt32.ofNat INPUT_BUF_SIZE then
    let c := if c = chr '\r' then chr '\n' else c
    let cons := cons.store c
    if c = chr '\n' ∨ c = C 'D' ∨ cons.e - cons.r = UInt32.ofNat INPUT_BUF_SIZE then
      ⟨{ cons with w := cons.e }, true, consputc c.toNat⟩
    else ⟨cons, false, consputc c.toNat⟩
  else ⟨cons, false, []⟩

/-! ## `consoleread` -/

/-- The local variables of `consoleread`, and the bytes that it has copied to the reader so far. -/
structure Call where
  dst : UInt64
  n : Int
  target : Int
  copied : List UInt8
  deriving DecidableEq

/-- Entry into `consoleread(user_dst, dst, n)`; `target` is a `uint`. -/
def Call.enter (dst : UInt64) (n : Int) : Call := ⟨dst, n, n % 2 ^ 32, []⟩

/-- `return target - n`. -/
def Call.result (k : Call) : Int := Int.bmod (k.target - k.n) (2 ^ 32)

/-- How a pass through the loop ends for the process that makes it. -/
inductive Next where
  | goto (k : Call)
  | sleep (k : Call)
  | ret (v : Int)
  deriving DecidableEq

/-- Result of a pass; `taken` is the byte that it removed from the buffer. -/
structure Pass where
  cons : Cons
  next : Next
  taken : Option UInt8

/-- One pass through the loop of `consoleread`; `ok` says whether `either_copyout` succeeds. The
comparison `n < target` is one of `uint`s. -/
def consoleread (killed ok : Bool) (k : Call) (cons : Cons) : Pass :=
  if 0 < k.n then
    if cons.r = cons.w then
      if killed then ⟨cons, .ret (-1), none⟩ else ⟨cons, .sleep k, none⟩
    else
      let c := cons.buf (Ring.cell INPUT_BUF_SIZE cons.r)
      let cons := { cons with r := cons.r + 1 }
      if c = C 'D' then
        if k.n % 2 ^ 32 < k.target then ⟨{ cons with r := cons.r - 1 }, .ret k.result, none⟩
        else ⟨cons, .ret k.result, some c⟩
      else if !ok then ⟨cons, .ret k.result, some c⟩
      else
        let k := { k with dst := k.dst + 1, n := k.n - 1, copied := k.copied ++ [c] }
        if c = chr '\n' then ⟨cons, .ret k.result, some c⟩ else ⟨cons, .goto k, some c⟩
  else ⟨cons, .ret k.result, none⟩

/-! ## Processes -/

/-- Where a process stands: outside `consoleread`, in `acquire(&cons.lock)`, holding the lock at the
head of the loop, or asleep on `&cons.r`. -/
inductive Pc where
  | idle
  | waiting (k : Call)
  | running (k : Call)
  | sleeping (k : Call)
  deriving DecidableEq

/-- The console and the processes that read from it; `lock` is the holder of `cons.lock`. -/
structure Sys where
  cons : Cons
  lock : Option Nat
  pc : Nat → Pc
  killed : Nat → Bool

/-- What a step shows: a typed byte, or a pass of process `p` through the loop of `consoleread` with the
byte it removed and the value it returned, if any. -/
inductive Label where
  | silent
  | typed (c : UInt8)
  | read (p : Nat) (taken : Option UInt8) (ret : Option Int)
  deriving DecidableEq

/-- `wakeup(&cons.r)`. -/
def wakeup (pc : Nat → Pc) : Nat → Pc := fun q =>
  match pc q with
  | .sleeping k => .waiting k
  | pcq => pcq

/-- State of the process after a pass. -/
def Next.pc : Next → Pc
  | .goto k => .running k
  | .sleep k => .sleeping k
  | .ret _ => .idle

/-- The lock after a pass of process `p`: only a process that goes on keeps it. -/
def Next.lock (p : Nat) : Next → Option Nat
  | .goto _ => some p
  | .sleep _ => none
  | .ret _ => none

/-- The value returned by a pass. -/
def Next.value : Next → Option Int
  | .ret v => some v
  | _ => none

/-- The system after a pass of process `p`. -/
def Sys.apply (s : Sys) (p : Nat) (o : Pass) : Sys :=
  { s with cons := o.cons, lock := o.next.lock p, pc := update s.pc p o.next.pc }

/-- The system after `consoleintr`. -/
def Sys.interrupt (s : Sys) (i : Intr) : Sys :=
  { s with cons := i.cons, pc := if i.wake then wakeup s.pc else s.pc }

/-- `kill`: the flag is set and a sleeping victim is made runnable. -/
def Sys.kill (s : Sys) (p : Nat) : Sys :=
  { s with
    killed := update s.killed p true
    pc := update s.pc p (wakeup s.pc p) }

/-- Atomic steps of the interrupt handler and of the readers. -/
inductive Step : Sys → Label → Sys → Prop
  | typed (s : Sys) (c : UInt8) : s.lock = none →
      Step s (.typed c) (s.interrupt (consoleintr c s.cons))
  | call (s : Sys) (p : Nat) (dst : UInt64) (n : Int) : s.pc p = .idle → -2 ^ 31 ≤ n → n < 2 ^ 31 →
      Step s .silent { s with pc := update s.pc p (.waiting (.enter dst n)) }
  | acquire (s : Sys) (p : Nat) (k : Call) : s.pc p = .waiting k → s.lock = none →
      Step s .silent { s with lock := some p, pc := update s.pc p (.running k) }
  | pass (s : Sys) (p : Nat) (k : Call) (ok : Bool) : s.pc p = .running k →
      Step s (.read p (consoleread (s.killed p) ok k s.cons).taken
          (consoleread (s.killed p) ok k s.cons).next.value)
        (s.apply p (consoleread (s.killed p) ok k s.cons))
  | kill (s : Sys) (p : Nat) : Step s .silent (s.kill p)

/-- The console before the first character: the counters are equal, with any value. -/
def Sys.init (buf : Fin INPUT_BUF_SIZE → UInt8) (x : UInt32) : Sys where
  cons := ⟨buf, x, x, x⟩
  lock := none
  pc := fun _ => .idle
  killed := fun _ => false

end Xv6.Console
