import Xv6.Base.Transition
import Xv6.Vm.Exec
import Xv6.Vm.ProcTable
import Xv6.Vm.Accounting

/-!
# The kernel's processes and their memory

The operations of the kernel that allocate, share, copy or free pages, on the whole machine: physical
memory with its allocator, the process table, and the pages that the kernel holds for itself. Every
step of the system is one of these operations, done by the process named in its label, from start to
end; any process that is not waiting to be reaped may make the next step.
-/

set_option autoImplicit false

namespace Xv6.Vm

open Xv6.Base

/-- The fields `pagetable` and `trapframe` of `struct proc`, with 0 read as `none`. -/
structure Image where
  pagetable : Option Nat
  trapframe : Option Nat

/-- The machine as the kernel sees it. -/
structure Kernel where
  km : Kmem
  /-- address of the trampoline code, in the kernel image -/
  trampoline : Nat
  table : ProcTable Image
  /-- pages of the kernel's own page table, kernel stacks and disk rings -/
  kpages : List Nat
  /-- pages of the pipes that are open -/
  pipes : List Nat

namespace Kernel

variable (k : Kernel)

def setMem (km : Kmem) : Kernel := { k with km := km }

def setTable (t : ProcTable Image) : Kernel := { k with table := t }

def setKpages (ps : List Nat) : Kernel := { k with kpages := ps }

def setPipes (ps : List Nat) : Kernel := { k with pipes := ps }

@[simp]
theorem setMem_km (km : Kmem) : (k.setMem km).km = km := rfl

@[simp]
theorem setMem_table (km : Kmem) : (k.setMem km).table = k.table := rfl

@[simp]
theorem setMem_trampoline (km : Kmem) : (k.setMem km).trampoline = k.trampoline := rfl

@[simp]
theorem setTable_km (t : ProcTable Image) : (k.setTable t).km = k.km := rfl

@[simp]
theorem setTable_table (t : ProcTable Image) : (k.setTable t).table = t := rfl

@[simp]
theorem setTable_trampoline (t : ProcTable Image) : (k.setTable t).trampoline = k.trampoline := rfl

@[simp]
theorem setMem_setMem (km km' : Kmem) : (k.setMem km).setMem km' = k.setMem km' := rfl

@[simp]
theorem setTable_setTable (t t' : ProcTable Image) : (k.setTable t).setTable t' = k.setTable t' :=
  rfl

@[simp]
theorem setTable_setMem (t : ProcTable Image) (km : Kmem) : (k.setTable t).setMem km = (k.setMem km).setTable t := rfl

@[simp]
theorem setPipes_km (ps : List Nat) : (k.setPipes ps).km = k.km := rfl

@[simp]
theorem setPipes_table (ps : List Nat) : (k.setPipes ps).table = k.table := rfl

end Kernel

/-- Kernel operations on the whole machine. -/
abbrev SysM := StateT Kernel (Except Panic)

/-- An operation on memory. -/
def onMem {α : Type} (x : KM α) : SysM α := fun k =>
  match x k.km with
  | .ok (a, km) => .ok (a, k.setMem km)
  | .error e => .error e

/-- The slot of a process. -/
def getProc (i : Fin NPROC) : SysM (Proc Image) := fun k => .ok (k.table.proc i, k)

/-- Store a slot of the process table. -/
def setProc (i : Fin NPROC) (p : Proc Image) : SysM Unit := fun k =>
  .ok ((), k.setTable (k.table.set i p))

/-- Use a pointer that the code does not test for 0. -/
def deref (o : Option Nat) : SysM Nat :=
  match o with
  | some a => pure a
  | none => throw .wild

/-! ## Processes -/

/-- `freeproc(p)`. -/
def freeproc (i : Fin NPROC) : SysM Unit := do
  let p ← getProc i
  (match p.mem.trapframe with
    | some tf => onMem (kfree tf)
    | none => pure ())
  (match p.mem.pagetable with
    | some r => onMem (procFreepagetable r p.sz)
    | none => pure ())
  setProc i (Proc.free ⟨none, none⟩)

/-- `allocproc()`. -/
def allocproc : SysM (Option (Fin NPROC)) := do
  match ← (fun k => .ok (k.table.unused, k) : SysM (Option (Fin NPROC))) with
  | none => pure none
  | some i => do
      let pid ← (fun k => .ok (k.table.nextpid,
        k.setTable (k.table.setNextpid (k.table.nextpid + 1))) : SysM Nat)
      let p ← getProc i
      setProc i { p with pid := pid, state := .used }
      match ← onMem kalloc with
      | none => do
          freeproc i
          pure none
      | some tf => do
          setProc i { p with pid := pid, state := .used, mem := ⟨p.mem.pagetable, some tf⟩ }
          let trampoline ← (fun k => .ok (k.trampoline, k) : SysM Nat)
          match ← onMem (procPagetable trampoline tf) with
          | none => do
              freeproc i
              pure none
          | some r => do
              setProc i { p with pid := pid, state := .used, mem := ⟨some r, some tf⟩ }
              pure (some i)

/-- The bytes of `initcode`. -/
def initcode : List UInt8 :=
  [0x17, 0x05, 0x00, 0x00, 0x13, 0x05, 0x45, 0x02,
   0x97, 0x05, 0x00, 0x00, 0x93, 0x85, 0x35, 0x02,
   0x93, 0x08, 0x70, 0x00, 0x73, 0x00, 0x00, 0x00,
   0x93, 0x08, 0x20, 0x00, 0x73, 0x00, 0x00, 0x00,
   0xef, 0xf0, 0x9f, 0xff, 0x2f, 0x69, 0x6e, 0x69,
   0x74, 0x00, 0x00, 0x24, 0x00, 0x00, 0x00, 0x00,
   0x00, 0x00, 0x00, 0x00]

/-- `userinit()`. -/
def userinit : SysM Unit := do
  match ← allocproc with
  | none => throw .wild
  | some i => do
      (fun k => .ok ((), k.setTable (k.table.setInitproc i)) : SysM Unit)
      let p ← getProc i
      let r ← deref p.mem.pagetable
      let tf ← deref p.mem.trapframe
      onMem (uvmfirst r initcode)
      onMem (writeWord (tf + trapframeEpc) 0#64)
      onMem (writeWord (tf + trapframeSp) (BitVec.ofNat 64 PGSIZE))
      setProc i { p with sz := PGSIZE, state := .runnable }

/-- `sys_sbrk()` with argument `n`, through `growproc(n)`. -/
def sysSbrk (i : Fin NPROC) (n : Int) : SysM Int := do
  let p ← getProc i
  let r ← deref p.mem.pagetable
  let newsz := (((p.sz : Int) + n) % 2 ^ 64).toNat
  if 0 < n then do
    let sz ← onMem (uvmalloc r p.sz newsz PTE_W)
    if sz = 0 then pure (-1)
    else do
      setProc i { p with sz := sz }
      pure p.sz
  else if n < 0 then do
    let sz ← onMem (uvmdealloc r p.sz newsz)
    setProc i { p with sz := sz }
    pure p.sz
  else pure p.sz

/-- `sizeof(struct trapframe)`. -/
def trapframeSize : Nat := 288

def trapframeA0 : Nat := 112

/-- `fork()`. -/
def fork (i : Fin NPROC) : SysM Int := do
  match ← allocproc with
  | none => pure (-1)
  | some j => do
      let p ← getProc i
      let np ← getProc j
      let old ← deref p.mem.pagetable
      let new ← deref np.mem.pagetable
      let r ← onMem (uvmcopy old new p.sz)
      if r < 0 then do
        freeproc j
        pure (-1)
      else do
        let tf ← deref p.mem.trapframe
        let ntf ← deref np.mem.trapframe
        onMem (memmove ntf tf trapframeSize)
        onMem (writeWord (ntf + trapframeA0) 0#64)
        setProc j { np with sz := p.sz, parent := some i, state := .runnable }
        pure np.pid

/-- `exit(status)`; the process stays in the table until it is reaped. -/
def exit (i : Fin NPROC) (status : Int) : SysM Unit := fun k =>
  if k.table.initproc = some i then .error .initExiting
  else .ok ((), k.setTable (k.table.exit i status))

/-- The bytes of an `int`. -/
def intBytes (x : Int) : List UInt8 :=
  (List.range 4).map fun i => UInt8.ofNat ((x % 2 ^ 32).toNat / 256 ^ i)

/-- `wait(addr)`: `none` when the process goes to sleep instead. -/
def wait (i : Fin NPROC) (addr : Nat) : SysM (Option Int) := do
  match ← (fun k => .ok (k.table.zombieChild i, k) : SysM (Option (Fin NPROC))) with
  | some j => do
      let p ← getProc i
      let pp ← getProc j
      let r ← deref p.mem.pagetable
      let e ← (if addr ≠ 0 then onMem (copyout r r addr (intBytes pp.xstate)) else pure 0 : SysM Int)
      if e < 0 then pure (some (-1))
      else do
        freeproc j
        pure (some pp.pid)
  | none => do
      let kids ← (fun k => .ok (k.table.haveKids i, k) : SysM Bool)
      if kids then pure none else pure (some (-1))

/-- `sys_exec()` with the addresses of the path and of the argument array. -/
def sysExecProc (i : Fin NPROC) (files : List UInt8 → Option (List UInt8)) (upath uargv : Nat) :
    SysM Int := do
  let p ← getProc i
  let r ← deref p.mem.pagetable
  let tf ← deref p.mem.trapframe
  let trampoline ← (fun k => .ok (k.trampoline, k) : SysM Nat)
  match ← onMem (sysExec trampoline tf r p.sz files upath uargv) with
  | none => pure (-1)
  | some (argc, new, sz) => do
      setProc i { p with sz := sz, mem := ⟨some new, some tf⟩ }
      pure argc

/-! ## Access to user memory -/

/-- The hardware's attempt to store `bs`, inside one page, at user address `va`. -/
def hwStore (r va : Nat) (bs : List UInt8) : KM Bool := fun s =>
  let w := pte s.mem r (va / PGSIZE)
  if va < MAXVA ∧ has w PTE_V ∧ has w PTE_U ∧ has w PTE_W then
    .ok (true, { s with mem := writeBytes s.mem (PTE2PA w + va % PGSIZE) bs })
  else .ok (false, s)

/-- A user store. When the page does not permit it, the store faults with cause 15; unless the
process is killed, which makes it exit, the instruction is executed once more. -/
def userStore (i : Fin NPROC) (va : Nat) (bs : List UInt8) : SysM Unit := do
  let p ← getProc i
  let r ← deref p.mem.pagetable
  let done ← onMem (hwStore r va bs)
  if done then pure ()
  else do
    let killed ← onMem (usertrap r false 15 va)
    if killed then exit i (-1)
    else do
      let _ ← onMem (hwStore r va bs)
      pure ()

/-- Another exception in user mode. -/
def userFault (i : Fin NPROC) (scause stval : Nat) : SysM Unit := do
  let p ← getProc i
  let r ← deref p.mem.pagetable
  let killed ← onMem (usertrap r false scause stval)
  if killed then exit i (-1) else pure ()

/-- `copyout` by a system call of the process. -/
def copyoutProc (i : Fin NPROC) (dstva : Nat) (src : List UInt8) : SysM Int := do
  let p ← getProc i
  let r ← deref p.mem.pagetable
  onMem (copyout r r dstva src)

/-! ## Pages of the kernel -/

/-- The kernel takes a page for itself while it boots; it does not go on without one. -/
def kernelAlloc : SysM Unit := do
  match ← onMem kalloc with
  | none => throw .wild
  | some p => (fun k => .ok ((), k.setKpages (p :: k.kpages)) : SysM Unit)

/-- `pipeclose` of the last end of a pipe. -/
def pipeFree (p : Nat) : SysM Unit := do
  onMem (kfree p)
  (fun k => .ok ((), k.setPipes (k.pipes.erase p)) : SysM Unit)

/-- `sys_pipe()` with the address `fdarray`; `fds` are the descriptors that `fdalloc` finds, if it
finds two. A pipe that nobody can use is closed again. -/
def sysPipe (i : Fin NPROC) (fdarray : Nat) (fds : Option (Nat × Nat)) : SysM Int := do
  match ← onMem kalloc with
  | none => pure (-1)
  | some page => do
      (fun k => .ok ((), k.setPipes (page :: k.pipes)) : SysM Unit)
      match fds with
      | none => do
          pipeFree page
          pure (-1)
      | some (fd0, fd1) => do
          let p ← getProc i
          let r ← deref p.mem.pagetable
          let e0 ← onMem (copyout r r fdarray (intBytes fd0))
          if e0 < 0 then do
            pipeFree page
            pure (-1)
          else do
            let e1 ← onMem (copyout r r ((fdarray + 4) % 2 ^ 64) (intBytes fd1))
            if e1 < 0 then do
              pipeFree page
              pure (-1)
            else pure 0

/-- The pages that the kernel holds: its own, those of pipes, and the trapframes. -/
def Kernel.held (k : Kernel) : List Nat :=
  collect (fun i => (k.table.proc i).mem.trapframe) ++ (k.kpages ++ k.pipes)

/-- The page tables of the processes. -/
def Kernel.roots (k : Kernel) : List Nat := collect fun i => (k.table.proc i).mem.pagetable

/-! ## Steps -/

/-- The operations. -/
inductive Label
  | kernelAlloc
  | kernelWrite (a : Nat) (bs : List UInt8)
  | userinit
  | fork (i : Fin NPROC)
  | exec (i : Fin NPROC) (files : List UInt8 → Option (List UInt8)) (upath uargv : Nat)
  | sbrk (i : Fin NPROC) (n : Int)
  | exit (i : Fin NPROC) (status : Int)
  | wait (i : Fin NPROC) (addr : Nat)
  | store (i : Fin NPROC) (va : Nat) (bs : List UInt8)
  | fault (i : Fin NPROC) (scause stval : Nat)
  | copyout (i : Fin NPROC) (dstva : Nat) (src : List UInt8)
  | pipe (i : Fin NPROC) (fdarray : Nat) (fds : Option (Nat × Nat))
  | pipeclose (p : Nat)

/-- The process that makes a step. -/
def Label.actor : Label → Option (Fin NPROC)
  | .kernelAlloc | .kernelWrite .. | .userinit | .pipeclose _ => none
  | .fork i | .exec i .. | .sbrk i _ | .exit i _ | .wait i _ | .store i .. | .fault i .. |
    .copyout i .. | .pipe i .. => some i

/-- What a step returns to the process that made it, if it returns. -/
def Kernel.exec : Label → SysM (Option Int)
  | .kernelAlloc => do
      kernelAlloc
      pure none
  | .kernelWrite a bs => do
      onMem (memmoveIn a bs)
      pure none
  | .userinit => do
      userinit
      pure none
  | .fork i => some <$> fork i
  | .exec i files upath uargv => some <$> sysExecProc i files upath uargv
  | .sbrk i n => some <$> sysSbrk i n
  | .exit i status => do
      exit i status
      pure none
  | .wait i addr => wait i addr
  | .store i va bs => do
      userStore i va bs
      pure none
  | .fault i scause stval => do
      userFault i scause stval
      pure none
  | .copyout i dstva src => some <$> copyoutProc i dstva src
  | .pipe i fdarray fds => some <$> sysPipe i fdarray fds
  | .pipeclose p => do
      pipeFree p
      pure none

/-- When a step can be made. The kernel writes to pages that it holds, a store does not leave its
page, an exception with cause 15 is that of a store, and there is one first process. -/
def Label.Enabled (k : Kernel) (l : Label) : Prop :=
  (∀ i, l.actor = some i → (k.table.proc i).state = .runnable) ∧
    match l with
    | .kernelWrite a bs => ∃ p ∈ k.held, p ≤ a ∧ a + bs.length ≤ p + PGSIZE
    | .userinit => k.table.initproc = none
    | .sbrk _ n => -2 ^ 31 ≤ n ∧ n < 2 ^ 31
    | .store _ va bs => va % PGSIZE + bs.length ≤ PGSIZE
    | .fault _ scause _ => scause ≠ 15
    | .pipeclose p => p ∈ k.pipes
    | _ => True

/-- The steps of the system. While the kernel sets itself up there is enough memory. -/
def Kernel.step (k : Kernel) (l : Label) (k' : Kernel) : Prop :=
  l.Enabled k ∧ (∃ o, Kernel.exec l k = .ok (o, k')) ∧
    (l.actor = none → k'.km.exhausted = k.km.exhausted)

/-- The machine after `kinit`. -/
def Kernel.Booted (k : Kernel) : Prop :=
  KERNBASE ≤ k.km.kend ∧ k.km.kend ≤ PHYSTOP ∧
    (∃ mem, kinit (Kmem.reset k.km.kend mem) = .ok ((), k.km)) ∧
    k.trampoline % PGSIZE = 0 ∧ k.trampoline + PGSIZE ≤ k.km.kend ∧
    k.table = ProcTable.init ⟨none, none⟩ ∧ k.kpages = [] ∧ k.pipes = []

end Xv6.Vm
