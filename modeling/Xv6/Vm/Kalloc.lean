import Xv6.Base.Bytes
import Xv6.Base.StateExcept
import Xv6.Vm.Riscv

/-!
# Physical page allocator

`kernel/kalloc.c`: a free list of whole pages and one reference count per physical page. Kernel code
runs on the machine state `Kmem`, in `KM`, and stops at a `panic`.

The free list is the list of the pages on it, from `kmem.freelist` on; the link words that the code
keeps in the first bytes of each free page are not repeated in `mem`, and neither are the locks,
since the operations here are taken one after another.
-/

set_option autoImplicit false

namespace Xv6.Vm

open Function Xv6.Base

/-- The panics of the modelled code. -/
inductive Panic
  | kfree
  | walk
  | mappagesVaNotAligned
  | mappagesSizeNotAligned
  | mappagesSize
  | mappagesRemap
  | uvmunmapNotAligned
  | uvmunmapWalk
  | uvmunmapNotMapped
  | uvmunmapNotALeaf
  | uvmfirst
  | freewalkLeaf
  | uvmcopyPte
  | uvmcopyNotPresent
  | uvmclear
  | loadseg
  | initExiting
  /-- a null pointer is dereferenced, or a table is deeper than any the kernel builds -/
  | wild
  deriving DecidableEq, Repr

/-- The text each `panic` call prints; `wild` stands for undefined behaviour and prints none. -/
def Panic.message : Panic → String
  | .kfree => "kfree"
  | .walk => "walk"
  | .mappagesVaNotAligned => "mappages: va not aligned"
  | .mappagesSizeNotAligned => "mappages: size not aligned"
  | .mappagesSize => "mappages: size"
  | .mappagesRemap => "mappages: remap"
  | .uvmunmapNotAligned => "uvmunmap: not aligned"
  | .uvmunmapWalk => "uvmunmap: walk"
  | .uvmunmapNotMapped => "uvmunmap: not mapped"
  | .uvmunmapNotALeaf => "uvmunmap: not a leaf"
  | .uvmfirst => "uvmfirst: more than a page"
  | .freewalkLeaf => "freewalk: leaf"
  | .uvmcopyPte => "uvmcopy: pte should exist"
  | .uvmcopyNotPresent => "uvmcopy: page not present"
  | .uvmclear => "uvmclear"
  | .loadseg => "loadseg: address should exist"
  | .initExiting => "init exiting"
  | .wild => ""

/-- Physical memory and its allocator. -/
structure Kmem where
  /-- `end`, the first address after the kernel image -/
  kend : Nat
  /-- contents of physical memory -/
  mem : Mem
  /-- `pgref`, 32-bit counts -/
  pgref : Nat → Nat
  /-- pages on `kmem.freelist`, first to last -/
  freelist : List Nat
  /-- how often `kalloc` has returned 0, for statements only -/
  exhausted : Nat

/-- Kernel computations: they change the machine state or panic. -/
abbrev KM := StateT Kmem (Except Panic)

/-- `memset(a, b, PGSIZE)`. -/
def memsetPage (a : Nat) (b : UInt8) : KM Unit := fun s =>
  .ok ((), { s with mem := fill s.mem a PGSIZE b })

/-- Write `n` bytes held by the kernel outside the allocator's pages. -/
def memmoveIn (a : Nat) (bs : List UInt8) : KM Unit := fun s =>
  .ok ((), { s with mem := writeBytes s.mem a bs })

/-- `memmove(dst, src, n)`. -/
def memmove (dst src n : Nat) : KM Unit := fun s =>
  .ok ((), { s with mem := copy s.mem dst src n })

/-- Load a 64-bit word. -/
def ld64 (m : Mem) (a : Nat) : Pte := BitVec.ofNat 64 (loadLE m a 8)

/-- Store a 64-bit word. -/
def sd64 (m : Mem) (a : Nat) (w : Pte) : Mem := storeLE m a 8 w.toNat

/-- `*a` for a 64-bit location. -/
def readWord (a : Nat) : KM Pte := fun s => .ok (ld64 s.mem a, s)

/-- `*a = w` for a 64-bit location. -/
def writeWord (a : Nat) (w : Pte) : KM Unit := fun s =>
  .ok ((), { s with mem := sd64 s.mem a w })

/-- `incref(pa)`. -/
def incref (pa : Nat) : KM Unit := fun s =>
  .ok ((), { s with
    pgref := update s.pgref (PGINDEX pa) ((s.pgref (PGINDEX pa) + 1) % 2 ^ 32) })

/-- `setref(pa, cnt)`. -/
def setref (pa cnt : Nat) : KM Unit := fun s =>
  .ok ((), { s with pgref := update s.pgref (PGINDEX pa) cnt })

/-- `kfree(pa)`: drop one reference, and free the page with the last one. -/
def kfree (pa : Nat) : KM Unit := fun s =>
  if pa % PGSIZE ≠ 0 ∨ pa < s.kend ∨ PHYSTOP ≤ pa then
    .error .kfree
  else if 1 < s.pgref (PGINDEX pa) then
    .ok ((), { s with pgref := update s.pgref (PGINDEX pa) (s.pgref (PGINDEX pa) - 1) })
  else
    .ok ((), { s with
      pgref := update s.pgref (PGINDEX pa) 0
      mem := fill s.mem pa PGSIZE 1
      freelist := pa :: s.freelist })

/-- `kalloc()`, with 0 read as `none`. -/
def kalloc : KM (Option Nat) := fun s =>
  match s.freelist with
  | [] => .ok (none, { s with exhausted := s.exhausted + 1 })
  | r :: next =>
    .ok (some r, { s with
      freelist := next
      mem := fill s.mem r PGSIZE 5
      pgref := update s.pgref (PGINDEX r) 1 })

/-- The loop of `freerange`, for `n` pages from `p` on. -/
def freerangeLoop : Nat → Nat → KM Unit
  | 0, _ => pure ()
  | n + 1, p => do
      setref p 1
      kfree p
      freerangeLoop n (p + PGSIZE)

/-- `freerange(pa_start, pa_end)`: every whole page between the two addresses. -/
def freerange (paStart paEnd : Nat) : KM Unit :=
  freerangeLoop ((paEnd - PGROUNDUP paStart) / PGSIZE) (PGROUNDUP paStart)

/-- `kinit()`. -/
def kinit : KM Unit := fun s => freerange s.kend PHYSTOP s

/-- The machine before `kinit`: the counts are zero-initialised data and the list is empty. -/
def Kmem.reset (kend : Nat) (mem : Mem) : Kmem where
  kend := kend
  mem := mem
  pgref := fun _ => 0
  freelist := []
  exhausted := 0

end Xv6.Vm
