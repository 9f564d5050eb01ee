import Xv6.Base.Param
import Xv6.Vm.Cow

/-!
# Page tables of processes and their images

`proc_pagetable` and `proc_freepagetable` from `kernel/proc.c`, `exec` from `kernel/exec.c`, and the
argument handling of `sys_exec`. An executable is given by the contents of its file; the offsets of
the two headers are those of `kernel/elf.h`.
-/

set_option autoImplicit false

namespace Xv6.Vm

open Xv6.Base

/-- `proc_pagetable(p)`, where the trampoline code is at `trampoline`. -/
def procPagetable (trampoline trapframe : Nat) : KM (Option Nat) := do
  match ← uvmcreate with
  | none => pure none
  | some pagetable => do
      let r ← mappages pagetable TRAMPOLINE PGSIZE trampoline (PTE_R ||| PTE_X)
      if r < 0 then do
        uvmfree pagetable 0
        pure none
      else do
        let r' ← mappages pagetable TRAPFRAME PGSIZE trapframe (PTE_R ||| PTE_W)
        if r' < 0 then do
          uvmunmap pagetable TRAMPOLINE 1 false
          uvmfree pagetable 0
          pure none
        else pure (some pagetable)

/-- `proc_freepagetable(pagetable, sz)`. -/
def procFreepagetable (pagetable sz : Nat) : KM Unit := do
  uvmunmap pagetable TRAMPOLINE 1 false
  uvmunmap pagetable TRAPFRAME 1 false
  uvmfree pagetable sz

/-! ## Executable files -/

/-- `readi(ip, 0, dst, off, n)` for a file with contents `file`: the bytes stored at `dst`, as many
as the return value says. -/
def readiFile (file : List UInt8) (off n : Nat) : List UInt8 :=
  if file.length < off ∨ (off + n) % 2 ^ 32 < off then [] else (file.drop off).take n

/-- A little-endian field of a header. -/
def field (hdr : List UInt8) (off k : Nat) : Nat := loadLE (fun i => hdr.getD i 0) off k

def ELF_MAGIC : Nat := 0x464C457F

def ELF_PROG_LOAD : Nat := 1

/-- `sizeof(struct elfhdr)`. -/
def elfhdrSize : Nat := 64

/-- `sizeof(struct proghdr)`. -/
def proghdrSize : Nat := 56

/-- The fields of `struct elfhdr` that `exec` reads. -/
structure Elfhdr where
  magic : Nat
  entry : Nat
  phoff : Nat
  phnum : Nat

def Elfhdr.parse (hdr : List UInt8) : Elfhdr where
  magic := field hdr 0 4
  entry := field hdr 24 8
  phoff := field hdr 32 8
  phnum := field hdr 56 2

/-- The fields of `struct proghdr` that `exec` reads. -/
structure Proghdr where
  type : Nat
  flags : Nat
  off : Nat
  vaddr : Nat
  filesz : Nat
  memsz : Nat

def Proghdr.parse (hdr : List UInt8) : Proghdr where
  type := field hdr 0 4
  flags := field hdr 4 4
  off := field hdr 8 8
  vaddr := field hdr 16 8
  filesz := field hdr 32 8
  memsz := field hdr 40 8

/-- `flags2perm(flags)`. -/
def flags2perm (flags : Nat) : Pte :=
  (if flags.testBit 0 then PTE_X else 0#64) ||| (if flags.testBit 1 then PTE_W else 0#64)

/-- The checks that `exec` makes of a segment to load. -/
def Proghdr.loadable (ph : Proghdr) : Bool :=
  !(ph.memsz < ph.filesz) && !((ph.vaddr + ph.memsz) % 2 ^ 64 < ph.vaddr) && ph.vaddr % PGSIZE == 0

/-! ## Loading -/

/-- The loop of `loadseg` from offset `i` on, with `n` pages left; `false` for -1. -/
def loadsegLoop (pagetable va : Nat) (file : List UInt8) (offset sz : Nat) : Nat → Nat → KM Bool
  | 0, _ => pure true
  | n + 1, i => do
      let pa ← walkaddr pagetable ((va + i) % 2 ^ 64)
      if pa = 0 then throw .loadseg
      else do
        let bs := readiFile file ((offset + i) % 2 ^ 32) (min (sz - i) PGSIZE)
        memmoveIn pa bs
        if bs.length ≠ min (sz - i) PGSIZE then pure false
        else loadsegLoop pagetable va file offset sz n (i + PGSIZE)

/-- `loadseg(pagetable, va, ip, offset, sz)`, whose last two parameters are 32 bits wide. -/
def loadseg (pagetable va : Nat) (file : List UInt8) (offset sz : Nat) : KM Bool :=
  loadsegLoop pagetable va file (offset % 2 ^ 32) (sz % 2 ^ 32)
    ((sz % 2 ^ 32 + PGSIZE - 1) / PGSIZE) 0

/-- The loop of `exec` over `n` program headers from file offset `off` on: whether all could be
loaded, and the size reached. -/
def loadSegments (pagetable : Nat) (file : List UInt8) : Nat → Nat → Nat → KM (Bool × Nat)
  | 0, _, sz => pure (true, sz)
  | n + 1, off, sz =>
    let hdr := readiFile file off proghdrSize
    let ph := Proghdr.parse hdr
    if hdr.length ≠ proghdrSize then pure (false, sz)
    else if ph.type ≠ ELF_PROG_LOAD then
      loadSegments pagetable file n ((off + proghdrSize) % 2 ^ 32) sz
    else if !ph.loadable then pure (false, sz)
    else do
      let sz1 ← uvmalloc pagetable sz ((ph.vaddr + ph.memsz) % 2 ^ 64) (flags2perm ph.flags)
      if sz1 = 0 then pure (false, sz)
      else do
        let ok ← loadseg pagetable ph.vaddr file ph.off ph.filesz
        if !ok then pure (false, sz1)
        else loadSegments pagetable file n ((off + proghdrSize) % 2 ^ 32) sz1

/-! ## The stack -/

/-- `sp -= n; sp -= sp % 16`. -/
def pushed (sp n : Nat) : Nat := (sp + 2 ^ 64 - n) % 2 ^ 64 / 16 * 16

/-- The loop of `exec` that pushes the argument strings, given without their final 0, starting with
the addresses `ustack` already pushed; `none` when it gives up. -/
def pushArgs (cur pagetable stackbase : Nat) :
    List (List UInt8) → Nat → List Nat → KM (Option (Nat × List Nat))
  | [], sp, ustack => pure (some (sp, ustack))
  | arg :: rest, sp, ustack =>
    if MAXARG ≤ ustack.length then pure none
    else if pushed sp (arg.length + 1) < stackbase then pure none
    else do
      let r ← copyout cur pagetable (pushed sp (arg.length + 1)) (arg ++ [0])
      if r < 0 then pure none
      else
        pushArgs cur pagetable stackbase rest (pushed sp (arg.length + 1))
          (ustack ++ [pushed sp (arg.length + 1)])

/-- The bytes of a 64-bit word in memory. -/
def wordBytes (w : Nat) : List UInt8 := (List.range 8).map fun i => UInt8.ofNat (w / 256 ^ i)

/-- The bytes of `ustack` up to and including the final 0. -/
def ustackBytes (ustack : List Nat) : List UInt8 := (ustack ++ [0]).flatMap wordBytes

/-- From the arguments to the final stack pointer: the strings and the array of pointers to them. -/
def pushStack (cur pagetable sz : Nat) (argv : List (List UInt8)) : KM (Option (Nat × Nat)) := do
  match ← pushArgs cur pagetable (sz - PGSIZE) argv sz [] with
  | none => pure none
  | some (sp, ustack) =>
    if pushed sp ((ustack.length + 1) * 8) < sz - PGSIZE then pure none
    else do
      let r ← copyout cur pagetable (pushed sp ((ustack.length + 1) * 8)) (ustackBytes ustack)
      if r < 0 then pure none
      else pure (some (ustack.length, pushed sp ((ustack.length + 1) * 8)))

/-- What `exec` makes before it commits: the size reached, and, unless it gives up there, the number
of arguments and the stack pointer. -/
def buildImage (cur pagetable : Nat) (file : List UInt8) (argv : List (List UInt8)) :
    KM (Nat × Option (Nat × Nat)) := do
  let elf := Elfhdr.parse (readiFile file 0 elfhdrSize)
  let seg ← loadSegments pagetable file elf.phnum (elf.phoff % 2 ^ 32) 0
  if !seg.1 then pure (seg.2, none)
  else do
    let sz := PGROUNDUP seg.2
    let sz1 ← uvmalloc pagetable sz ((sz + 2 * PGSIZE) % 2 ^ 64) PTE_W
    if sz1 = 0 then pure (sz, none)
    else do
      uvmclear pagetable (sz1 - 2 * PGSIZE)
      let stack ← pushStack cur pagetable sz1 argv
      pure (sz1, stack)

/-- Offsets of the registers that `exec` sets in `struct trapframe`. -/
def trapframeEpc : Nat := 24

def trapframeSp : Nat := 48

def trapframeA1 : Nat := 120

/-- `exec(path, argv)` for a process with page table `cur`, size `oldsz` and the given trapframe;
`file` are the contents of the file that the path names. The result is `none` for -1, and otherwise
the return value with the process's new page table and size. -/
def exec (trampoline trapframe cur oldsz : Nat) (file : Option (List UInt8))
    (argv : List (List UInt8)) : KM (Option (Nat × Nat × Nat)) :=
  match file with
  | none => pure none
  | some file =>
    let hdr := readiFile file 0 elfhdrSize
    if hdr.length ≠ elfhdrSize then pure none
    else if (Elfhdr.parse hdr).magic ≠ ELF_MAGIC then pure none
    else do
      match ← procPagetable trampoline trapframe with
      | none => pure none
      | some pagetable => do
          match ← buildImage cur pagetable file argv with
          | (sz, none) => do
              procFreepagetable pagetable sz
              pure none
          | (sz, some (argc, sp)) => do
              writeWord (trapframe + trapframeA1) (BitVec.ofNat 64 sp)
              writeWord (trapframe + trapframeEpc) (BitVec.ofNat 64 (Elfhdr.parse hdr).entry)
              writeWord (trapframe + trapframeSp) (BitVec.ofNat 64 sp)
              procFreepagetable cur oldsz
              pure (some (argc, pagetable, sz))

/-! ## `sys_exec` -/

/-- `kfree` of every page of `argv`. -/
def kfreeAll : List Nat → KM Unit
  | [] => pure ()
  | p :: ps => do
      kfree p
      kfreeAll ps

/-- The loop of `sys_exec` that fetches the arguments from index `i` on, with `n` slots left: whether
it found the final 0, the pages allocated, and the strings in them. -/
def fetchArgs (cur sz uargv : Nat) : Nat → Nat → KM (Bool × List Nat × List (List UInt8))
  | 0, _ => pure (false, [], [])
  | n + 1, i => do
      let uarg ← fetchaddr cur sz ((uargv + 8 * i) % 2 ^ 64)
      if uarg.1 < 0 then pure (false, [], [])
      else if uarg.2 = 0 then pure (true, [], [])
      else do
        match ← kalloc with
        | none => pure (false, [], [])
        | some page => do
            let str ← fetchstr cur uarg.2 PGSIZE
            memmoveIn page str.2
            if str.1 < 0 then pure (false, [page], [])
            else do
              let rest ← fetchArgs cur sz uargv n (i + 1)
              pure (rest.1, page :: rest.2.1, str.2.takeWhile (· != 0) :: rest.2.2)

/-- `sys_exec()` with the user addresses `upath` and `uargv` as its arguments; `files` are the
contents of the files by path. -/
def sysExec (trampoline trapframe cur sz : Nat) (files : List UInt8 → Option (List UInt8))
    (upath uargv : Nat) : KM (Option (Nat × Nat × Nat)) := do
  let path ← fetchstr cur upath MAXPATH
  if path.1 < 0 then pure none
  else do
    let args ← fetchArgs cur sz uargv MAXARG 0
    if !args.1 then do
      kfreeAll args.2.1
      pure none
    else do
      let ret ← exec trampoline trapframe cur sz (files (path.2.takeWhile (· != 0))) args.2.2
      kfreeAll args.2.1
      pure ret

end Xv6.Vm
