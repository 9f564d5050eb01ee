import Xv6.Vm.Space
import Xv6.Vm.System

/-!
# The operations of the kernel on address spaces

What each operation of the kernel is for: a table of processes in which the memory of a process is
an address space of its own. `Spaces.exec none` are the operations as they should be; `Spaces.exec
(some lim)` are the ways in which they may fail when there is no free page, where `lim` says how many
pages the writes to user memory got through.
-/

set_option autoImplicit false

namespace Xv6.Vm

open Xv6.Base

/-- Processes and their address spaces. -/
abbrev Spaces := ProcTable UMem

namespace Spaces

/-- The address space with nothing in it. -/
def emptySpace : UMem := fun _ => none

/-- The page of the first process. -/
def initSpace : UMem := fun v =>
  if v = 0 then some ⟨true, true, true, true, writeBytes (fun _ => 0) 0 initcode⟩ else none

/-- Replace the address space of a process. -/
def setMem (t : Spaces) (i : Fin NPROC) (M : UMem) : Spaces := t.set i { t.proc i with mem := M }

/-- A new process in a free slot. -/
def spawn (t : Spaces) (j : Fin NPROC) (parent : Option (Fin NPROC)) (sz : Nat) (M : UMem) : Spaces :=
  { t.set j ⟨.runnable, t.nextpid, parent, 0, sz, M⟩ with nextpid := t.nextpid + 1 }

def userinit (t : Spaces) : Spaces :=
  match t.unused with
  | none => t
  | some j => { t.spawn j none PGSIZE initSpace with initproc := some j }

/-- A child with a copy of the address space; a `fork` that finds no memory has used up a pid. -/
def fork (lim : Option (Nat × Nat)) (i : Fin NPROC) (t : Spaces) : Int × Spaces :=
  match t.unused, lim with
  | none, _ => (-1, t)
  | some _, some _ => (-1, { t with nextpid := t.nextpid + 1 })
  | some j, none => (t.nextpid, t.spawn j (some i) (t.proc i).sz (t.proc i).mem)

def sbrk (lim : Option (Nat × Nat)) (i : Fin NPROC) (n : Int) (t : Spaces) : Int × Spaces :=
  let p := t.proc i
  let newsz := (((p.sz : Int) + n) % 2 ^ 64).toNat
  if 0 < n then
    match lim with
    | some _ => (-1, t)
    | none => (p.sz, t.set i { p with
        sz := newsz, mem := p.mem.grow (npages p.sz) (npages newsz) PTE_W })
  else if n < 0 ∧ newsz < p.sz then
    (p.sz, t.set i { p with sz := newsz, mem := p.mem.shrink (npages newsz) (npages p.sz) })
  else (p.sz, t)

def exec (lim : Option (Nat × Nat)) (i : Fin NPROC) (files : List UInt8 → Option (List UInt8))
    (upath uargv : Nat) (t : Spaces) : Int × Spaces :=
  match lim, (t.proc i).mem.execImage (t.proc i).sz files upath uargv with
  | none, some (sz, argc, _, M) => (argc, t.set i { t.proc i with sz := sz, mem := M })
  | _, _ => (-1, t)

/-- A write to the memory of a process, of at most `k` pages when there is a limit. -/
def copyout (k : Option Nat) (i : Fin NPROC) (dstva : Nat) (src : List UInt8) (t : Spaces) : Int × Spaces :=
  let r := UMem.copyout (k.getD src.length) (t.proc i).mem dstva src
  (r.1, t.setMem i r.2)

def wait (lim : Option (Nat × Nat)) (i : Fin NPROC) (addr : Nat) (t : Spaces) : Option Int × Spaces :=
  match t.zombieChild i with
  | none => (if t.haveKids i then none else some (-1), t)
  | some j =>
    let r := if addr ≠ 0 then
        copyout (lim.map Prod.fst) i addr (intBytes (t.proc j).xstate) t
      else (0, t)
    if r.1 < 0 then (some (-1), r.2)
    else (some (t.proc j).pid, r.2.set j (Proc.free emptySpace))

/-- A user store: the process is killed where it may not write. -/
def store (lim : Option (Nat × Nat)) (i : Fin NPROC) (va : Nat) (bs : List UInt8) (t : Spaces) : Spaces :=
  match lim, (t.proc i).mem (va / PGSIZE) with
  | none, some p =>
    if p.user && p.write then t.setMem i ((t.proc i).mem.put (va / PGSIZE) (va % PGSIZE) bs)
    else t.exit i (-1)
  | _, _ => t.exit i (-1)

def pipe (lim : Option (Nat × Nat)) (i : Fin NPROC) (fdarray : Nat) (fds : Option (Nat × Nat))
    (t : Spaces) : Int × Spaces :=
  match fds with
  | none => (-1, t)
  | some (fd0, fd1) =>
    let r0 := copyout (lim.map Prod.fst) i fdarray (intBytes fd0) t
    if r0.1 < 0 then (-1, r0.2)
    else
      let r1 := copyout (lim.map Prod.snd) i ((fdarray + 4) % 2 ^ 64) (intBytes fd1) r0.2
      if r1.1 < 0 then (-1, r1.2) else (0, r1.2)

/-- The operations; `lim` is present in a step that ran out of pages. -/
def step (lim : Option (Nat × Nat)) (l : Label) (t : Spaces) : Option Int × Spaces :=
  match l with
  | .kernelAlloc | .kernelWrite .. | .pipeclose _ => (none, t)
  | .userinit => (none, userinit t)
  | .fork i => Prod.map some id (fork lim i t)
  | .exec i files upath uargv => Prod.map some id (exec lim i files upath uargv t)
  | .sbrk i n => Prod.map some id (sbrk lim i n t)
  | .exit i status => (none, t.exit i status)
  | .wait i addr => wait lim i addr t
  | .store i va bs => (none, store lim i va bs t)
  | .fault i _ _ => (none, t.exit i (-1))
  | .copyout i dstva src => Prod.map some id (copyout (lim.map Prod.fst) i dstva src t)
  | .pipe i fdarray fds => Prod.map some id (pipe lim i fdarray fds t)

end Spaces

end Xv6.Vm
