import Xv6.Vm.Kalloc

/-!
# Page tables

The page-table code of `kernel/vm.c` on physical memory: a table is a page of 512 entries, named by
its physical address. A loop over pages is a recursion on the number of pages still to visit; the
addresses it computes stay below `MAXVA`, where `walk` panics, so they do not wrap.
-/

set_option autoImplicit false

namespace Xv6.Vm

open Xv6.Base

/-- The loop of `walk`: from the table `pagetable` of the given level down to the entry for `va`. -/
def walkLoop (alloc : Bool) (va : Nat) : Nat → Nat → KM (Option Nat)
  | 0, pagetable => pure (some (pagetable + 8 * PX 0 va))
  | level + 1, pagetable => do
      let w ← readWord (pagetable + 8 * PX (level + 1) va)
      if has w PTE_V then
        walkLoop alloc va level (PTE2PA w)
      else if alloc then
        match ← kalloc with
        | none => pure none
        | some page => do
            memsetPage page 0
            writeWord (pagetable + 8 * PX (level + 1) va) (PA2PTE page ||| PTE_V)
            walkLoop alloc va level page
      else
        pure none

/-- `walk(pagetable, va, alloc)`: the address of the entry for `va`, `none` for 0. -/
def walk (pagetable va : Nat) (alloc : Bool) : KM (Option Nat) :=
  if MAXVA ≤ va then throw .walk else walkLoop alloc va 2 pagetable

/-- `walkaddr(pagetable, va)`: the physical address of the page of `va`, or 0. -/
def walkaddr (pagetable va : Nat) : KM Nat :=
  if MAXVA ≤ va then pure 0 else do
    match ← walk pagetable va false with
    | none => pure 0
    | some pte => do
        let w ← readWord pte
        if !has w PTE_V then pure 0
        else if !has w PTE_U then pure 0
        else pure (PTE2PA w)

/-- The loop of `mappages` up to the page `last`, with `n` pages left. -/
def mappagesLoop (pagetable : Nat) (perm : Pte) (last : Nat) : Nat → Nat → Nat → KM Int
  | 0, _, _ => pure 0
  | n + 1, a, pa => do
      match ← walk pagetable a true with
      | none => pure (-1)
      | some pte => do
          let w ← readWord pte
          if has w PTE_V then throw .mappagesRemap
          else do
            writeWord pte (PA2PTE pa ||| perm ||| PTE_V)
            if a = last then pure 0
            else mappagesLoop pagetable perm last n (a + PGSIZE) (pa + PGSIZE)

/-- `mappages(pagetable, va, size, pa, perm)`. -/
def mappages (pagetable va size pa : Nat) (perm : Pte) : KM Int :=
  if va % PGSIZE ≠ 0 then throw .mappagesVaNotAligned
  else if size % PGSIZE ≠ 0 then throw .mappagesSizeNotAligned
  else if size = 0 then throw .mappagesSize
  else mappagesLoop pagetable perm ((va + size - PGSIZE) % 2 ^ 64) (size / PGSIZE) va pa

/-- The loop of `uvmunmap`, with `n` pages left. -/
def uvmunmapLoop (pagetable : Nat) (doFree : Bool) : Nat → Nat → KM Unit
  | 0, _ => pure ()
  | n + 1, a => do
      match ← walk pagetable a false with
      | none => throw .uvmunmapWalk
      | some pte => do
          let w ← readWord pte
          if !has w PTE_V then throw .uvmunmapNotMapped
          else if PTE_FLAGS w = PTE_V then throw .uvmunmapNotALeaf
          else do
            (if doFree then kfree (PTE2PA w) else pure ())
            writeWord pte 0#64
            uvmunmapLoop pagetable doFree n (a + PGSIZE)

/-- `uvmunmap(pagetable, va, npages, do_free)`. -/
def uvmunmap (pagetable va npages : Nat) (doFree : Bool) : KM Unit :=
  if va % PGSIZE ≠ 0 then throw .uvmunmapNotAligned
  else uvmunmapLoop pagetable doFree npages va

/-- `uvmcreate()`. -/
def uvmcreate : KM (Option Nat) := do
  match ← kalloc with
  | none => pure none
  | some pagetable => do
      memsetPage pagetable 0
      pure (some pagetable)

/-- `uvmfirst(pagetable, src, sz)`; the code uses the page without a test for 0. -/
def uvmfirst (pagetable : Nat) (src : List UInt8) : KM Unit :=
  if PGSIZE ≤ src.length then throw .uvmfirst else do
    match ← kalloc with
    | none => throw .wild
    | some page => do
        memsetPage page 0
        let _ ← mappages pagetable 0 PGSIZE page (PTE_W ||| PTE_R ||| PTE_X ||| PTE_U)
        memmoveIn page src

/-- `uvmdealloc(pagetable, oldsz, newsz)`. -/
def uvmdealloc (pagetable oldsz newsz : Nat) : KM Nat :=
  if oldsz ≤ newsz then pure oldsz else do
    (if PGROUNDUP newsz < PGROUNDUP oldsz then
      uvmunmap pagetable (PGROUNDUP newsz) ((PGROUNDUP oldsz - PGROUNDUP newsz) / PGSIZE) true
    else pure ())
    pure newsz

/-- The loop of `uvmalloc`, with `n` pages left; `false` after it has undone what it did. -/
def uvmallocLoop (pagetable oldsz : Nat) (xperm : Pte) : Nat → Nat → KM Bool
  | 0, _ => pure true
  | n + 1, a => do
      match ← kalloc with
      | none => do
          let _ ← uvmdealloc pagetable a oldsz
          pure false
      | some page => do
          memsetPage page 0
          let r ← mappages pagetable a PGSIZE page (PTE_R ||| PTE_U ||| xperm)
          if r ≠ 0 then do
            kfree page
            let _ ← uvmdealloc pagetable a oldsz
            pure false
          else uvmallocLoop pagetable oldsz xperm n (a + PGSIZE)

/-- `uvmalloc(pagetable, oldsz, newsz, xperm)`: the new size, or 0. -/
def uvmalloc (pagetable oldsz newsz : Nat) (xperm : Pte) : KM Nat :=
  if newsz < oldsz then pure oldsz else do
    let ok ← uvmallocLoop pagetable (PGROUNDUP oldsz) xperm
      ((newsz - PGROUNDUP oldsz + PGSIZE - 1) / PGSIZE) (PGROUNDUP oldsz)
    if ok then pure newsz else pure 0

/-- The loop of `freewalk` over the entries with the given indices. -/
def freewalkLoop (child : Nat → KM Unit) (pagetable : Nat) : List Nat → KM Unit
  | [] => pure ()
  | i :: is => do
      let w ← readWord (pagetable + 8 * i)
      (if has w PTE_V && !has w (PTE_R ||| PTE_W ||| PTE_X) then do
        child (PTE2PA w)
        writeWord (pagetable + 8 * i) 0#64
      else if has w PTE_V then throw .freewalkLeaf
      else pure ())
      freewalkLoop child pagetable is

/-- `freewalk(pagetable)`, recursing at most `depth` times; the kernel's tables have three levels. -/
def freewalk : Nat → Nat → KM Unit
  | 0, _ => throw .wild
  | depth + 1, pagetable => do
      freewalkLoop (freewalk depth) pagetable (List.range 512)
      kfree pagetable

/-- `uvmfree(pagetable, sz)`. -/
def uvmfree (pagetable sz : Nat) : KM Unit := do
  (if 0 < sz then uvmunmap pagetable 0 (PGROUNDUP sz / PGSIZE) true else pure ())
  freewalk 3 pagetable

/-- An entry after `uvmcopy` has taken its write permission away. -/
def cowEntry (w : Pte) : Pte := (w &&& ~~~PTE_W) ||| PTE_COW

/-- The loop of `uvmcopy` from address `i` on, with `n` pages left. -/
def uvmcopyLoop (old new : Nat) : Nat → Nat → KM Int
  | 0, _ => pure 0
  | n + 1, i => do
      match ← walk old i false with
      | none => throw .uvmcopyPte
      | some pte => do
          let w ← readWord pte
          if !has w PTE_V then throw .uvmcopyNotPresent
          else do
            (if has w PTE_W || has w PTE_COW then writeWord pte (cowEntry w) else pure ())
            let v ← readWord pte
            let r ← mappages new i PGSIZE (PTE2PA w) (PTE_FLAGS v)
            if r ≠ 0 then do
              uvmunmap new 0 (i / PGSIZE) true
              pure (-1)
            else do
              incref (PTE2PA w)
              uvmcopyLoop old new n (i + PGSIZE)

/-- `uvmcopy(old, new, sz)`. -/
def uvmcopy (old new sz : Nat) : KM Int :=
  uvmcopyLoop old new ((sz + PGSIZE - 1) / PGSIZE) 0

/-- `uvmclear(pagetable, va)`. -/
def uvmclear (pagetable va : Nat) : KM Unit := do
  match ← walk pagetable va false with
  | none => throw .uvmclear
  | some pte => do
      let w ← readWord pte
      writeWord pte (w &&& ~~~PTE_U)

/-! ## Copies between the kernel and user memory -/

/-- The loop of `copyin`: the return value and the bytes stored at `dst`. Every round copies at
least one byte, so the length is fuel enough. -/
def copyinLoop (pagetable : Nat) : Nat → Nat → Nat → KM (Int × List UInt8)
  | 0, _, _ => pure (0, [])
  | fuel + 1, srcva, len =>
    if len = 0 then pure (0, []) else do
      let va0 := PGROUNDDOWN srcva
      let pa0 ← walkaddr pagetable va0
      if pa0 = 0 then pure (-1, [])
      else do
        let n := min (PGSIZE - (srcva - va0)) len
        let m ← (fun s => .ok (s.mem, s) : KM Mem)
        let bs := (List.range n).map fun k => m (pa0 + (srcva - va0) + k)
        let r ← copyinLoop pagetable fuel ((va0 + PGSIZE) % 2 ^ 64) (len - n)
        pure (r.1, bs ++ r.2)

/-- `copyin(pagetable, dst, srcva, len)`. -/
def copyin (pagetable srcva len : Nat) : KM (Int × List UInt8) :=
  copyinLoop pagetable len srcva len

/-- The inner loop of `copyinstr` over `n` bytes at `p`: the bytes stored, and `got_null`. -/
def scanStr (m : Mem) : Nat → Nat → List UInt8 × Bool
  | 0, _ => ([], false)
  | n + 1, p =>
    if m p = 0 then ([0], true)
    else (m p :: (scanStr m n (p + 1)).1, (scanStr m n (p + 1)).2)

/-- The loop of `copyinstr`: the return value and the bytes stored at `dst`. -/
def copyinstrLoop (pagetable : Nat) : Nat → Nat → Nat → KM (Int × List UInt8)
  | 0, _, _ => pure (-1, [])
  | fuel + 1, srcva, max =>
    if max = 0 then pure (-1, []) else do
      let va0 := PGROUNDDOWN srcva
      let pa0 ← walkaddr pagetable va0
      if pa0 = 0 then pure (-1, [])
      else do
        let n := min (PGSIZE - (srcva - va0)) max
        let m ← (fun s => .ok (s.mem, s) : KM Mem)
        let r := scanStr m n (pa0 + (srcva - va0))
        if r.2 then pure (0, r.1)
        else do
          let rest ← copyinstrLoop pagetable fuel ((va0 + PGSIZE) % 2 ^ 64) (max - n)
          pure (rest.1, r.1 ++ rest.2)

/-- `copyinstr(pagetable, dst, srcva, max)`. -/
def copyinstr (pagetable srcva max : Nat) : KM (Int × List UInt8) :=
  copyinstrLoop pagetable max srcva max

end Xv6.Vm
