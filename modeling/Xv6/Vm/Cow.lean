import Xv6.Vm.PageTable

/-!
# Copy-on-write faults and copies to user memory

`CowHandler` and the exception branch of `usertrap` from `kernel/trap.c`, and `copyout` from
`kernel/vm.c`, which resolves copy-on-write pages through `CowHandler` before it writes to them.
`CowHandler` works on `myproc()->pagetable`, here the argument `cur`, whatever table its caller
works on.
-/

set_option autoImplicit false

namespace Xv6.Vm

open Xv6.Base

/-- `CowHandler(va)` for a current process with page table `cur`. The count is looked up under
`PGINDEX(*pte)`, the page number of the entry itself. -/
def cowHandler (cur va : Nat) : KM Int := do
  match ← walk cur va false with
  | none => pure (-1)
  | some pte => do
      let w ← readWord pte
      if !has w PTE_V || !has w PTE_U || !has w PTE_COW then pure (-1)
      else do
        let cnt ← (fun s => .ok (s.pgref (PGINDEX w.toNat), s) : KM Nat)
        if cnt = 1 then do
          writeWord pte ((w &&& ~~~PTE_COW) ||| PTE_W)
          pure 0
        else do
          match ← kalloc with
          | none => pure (-2)
          | some page => do
              let v ← readWord pte
              memmove page (PTE2PA v) PGSIZE
              kfree (PTE2PA v)
              let u ← readWord pte
              writeWord pte ((PA2PTE page ||| PTE_W ||| PTE_FLAGS u) &&& ~~~PTE_COW)
              pure 0

/-- The part of `usertrap` that handles an exception other than a system call, for a trap cause
`scause` and the trap value `stval`. The result is `p->killed` afterwards; a process that is killed
then exits. -/
def usertrap (cur : Nat) (killed : Bool) (scause stval : Nat) : KM Bool :=
  if scause = 15 then do
    let err ← cowHandler cur stval
    pure (killed || decide (err < 0))
  else pure true

/-- The loop of `copyout`. Every round copies at least one byte, so the length is fuel enough. -/
def copyoutLoop (cur pagetable : Nat) : Nat → Nat → List UInt8 → KM Int
  | 0, _, _ => pure 0
  | fuel + 1, dstva, src =>
    if src.length = 0 then pure 0 else do
      let va0 := PGROUNDDOWN dstva
      if MAXVA ≤ va0 then pure (-1)
      else do
        match ← walk pagetable va0 false with
        | none => pure (-1)
        | some pte => do
            let w ← readWord pte
            if !has w PTE_V || !has w PTE_U then pure (-1)
            else do
              let r ← (if has w PTE_W then pure 0 else cowHandler cur va0 : KM Int)
              if r < 0 then pure (-1)
              else do
                let v ← readWord pte
                let n := min (PGSIZE - (dstva - va0)) src.length
                memmoveIn (PTE2PA v + (dstva - va0)) (src.take n)
                copyoutLoop cur pagetable fuel ((va0 + PGSIZE) % 2 ^ 64) (src.drop n)

/-- `copyout(pagetable, dstva, src, len)` of the bytes `src`. -/
def copyout (cur pagetable dstva : Nat) (src : List UInt8) : KM Int :=
  copyoutLoop cur pagetable src.length dstva src

/-- `fetchaddr(addr, ip)` for a process of size `sz`: the return value and the word fetched. -/
def fetchaddr (cur sz addr : Nat) : KM (Int × Nat) :=
  if sz ≤ addr ∨ sz < (addr + 8) % 2 ^ 64 then pure (-1, 0) else do
    let r ← copyin cur addr 8
    if r.1 ≠ 0 then pure (-1, 0)
    else pure (0, loadLE (fun i => r.2.getD i 0) 0 8)

/-- `fetchstr(addr, buf, max)`: the length of the string or -1, and the bytes stored. -/
def fetchstr (cur addr max : Nat) : KM (Int × List UInt8) := do
  let r ← copyinstr cur addr max
  if r.1 < 0 then pure (-1, r.2)
  else pure (((r.2.takeWhile (· != 0)).length : Int), r.2)

end Xv6.Vm
