import Xv6.Vm.AddressSpace
import Xv6.Vm.Exec
import Xv6.Vm.UserVm

/-!
# System calls as functions of address spaces

What the operations on user memory are for: the same computations on the address space alone, where
a page is its contents and its permissions. Nothing here knows about page tables, physical pages or
sharing. An operation that can stop early because the kernel ran out of pages takes the number of
pages it may use up, or is stated for the run that does not stop.
-/

set_option autoImplicit false

namespace Xv6.Vm

open Function Xv6.Base

/-- An address space after `bs` is written at offset `off` of page `v`. -/
def UMem.put (M : UMem) (v off : Nat) (bs : List UInt8) : UMem :=
  update M v ((M v).map fun p => { p with bytes := writeBytes p.bytes off bs })

/-- Number of bytes that one round of `copyout` writes. -/
def pieceLen (dstva len : Nat) : Nat := min (PGSIZE - dstva % PGSIZE) len

/-- The effect of `copyout` on the address space it writes to, stopped after `k` pages. -/
def UMem.copyout : Nat → UMem → Nat → List UInt8 → Int × UMem
  | 0, M, _, src => (if src.length = 0 then 0 else -1, M)
  | k + 1, M, dstva, src =>
    if src.length = 0 then (0, M)
    else if MAXVA ≤ PGROUNDDOWN dstva then (-1, M)
    else match M (dstva / PGSIZE) with
      | none => (-1, M)
      | some p =>
        if p.user && p.write then
          UMem.copyout k
            (M.put (dstva / PGSIZE) (dstva % PGSIZE) (src.take (pieceLen dstva src.length)))
            ((PGROUNDDOWN dstva + PGSIZE) % 2 ^ 64) (src.drop (pieceLen dstva src.length))
        else (-1, M)

/-- An address space after the pages from `lo` to `hi` are added. -/
def UMem.grow (M : UMem) (lo hi : Nat) (xperm : Pte) : UMem := fun u =>
  if lo ≤ u ∧ u < hi then some (zeroPage xperm) else M u

/-- An address space after the pages from `lo` to `hi` are removed. -/
def UMem.shrink (M : UMem) (lo hi : Nat) : UMem := fun u =>
  if lo ≤ u ∧ u < hi then none else M u

theorem UMem.pages_empty : UMem.Pages (fun _ => none) 0 :=
  ⟨fun _ _ => rfl, fun _ hu => absurd hu (Nat.not_lt_zero _)⟩

section Pages

variable {M : UMem} {n : Nat}

section

variable (h : M.Pages n)
include h

/-- Changing the contents or the permissions of one page, except that to read it. -/
theorem UMem.Pages.modify (v : Nat) {g : UPage → UPage} (hg : ∀ p, (g p).read = p.read) :
    UMem.Pages (update M v ((M v).map g)) n := by
  refine ⟨fun u hu => ?_, fun u hu => ?_⟩
  · by_cases huv : u = v
    · subst huv
      rw [update_self, h.none u hu]
      rfl
    · rw [update_of_ne huv]
      exact h.none u hu
  · obtain ⟨p, hp, hread⟩ := h.some u hu
    by_cases huv : u = v
    · subst huv
      rw [update_self, hp]
      exact ⟨g p, rfl, (hg p).trans hread⟩
    · rw [update_of_ne huv]
      exact ⟨p, hp, hread⟩

theorem UMem.Pages.put (v off : Nat) (bs : List UInt8) : (M.put v off bs).Pages n :=
  h.modify v fun _ => rfl

theorem UMem.Pages.grow {hi : Nat} (hle : n ≤ hi) (xperm : Pte) : (M.grow n hi xperm).Pages hi := by
  refine ⟨fun u hu => ?_, fun u hu => ?_⟩
  · rw [UMem.grow, if_neg (by omega)]
    exact h.none u (by omega)
  · rw [UMem.grow]
    split_ifs with hin
    · exact ⟨zeroPage xperm, rfl, rfl⟩
    · exact h.some u (by omega)

theorem UMem.Pages.shrink {lo : Nat} (hle : lo ≤ n) : (M.shrink lo n).Pages lo := by
  refine ⟨fun u hu => ?_, fun u hu => ?_⟩
  · rw [UMem.shrink]
    split_ifs with hin
    · rfl
    · exact h.none u (by omega)
  · rw [UMem.shrink, if_neg (by omega)]
    exact h.some u (by omega)

theorem UMem.Pages.copyout (k dstva : Nat) (src : List UInt8) : (UMem.copyout k M dstva src).2.Pages n := by
  induction k generalizing M dstva src with
  | zero => exact h
  | succ k ih =>
    rw [UMem.copyout]
    split_ifs with h1 h2
    · exact h
    · exact h
    · cases M (dstva / PGSIZE) with
      | none => exact h
      | some p =>
        simp only
        split_ifs with hw
        · exact ih (h.put _ _ _) _ _
        · exact h

end

end Pages

/-! ## Reading -/

/-- `copyin(pagetable, dst, srcva, len)`. -/
def UMem.copyin (M : UMem) : Nat → Nat → Nat → Int × List UInt8
  | 0, _, _ => (0, [])
  | k + 1, srcva, len =>
    if len = 0 then (0, [])
    else if MAXVA ≤ PGROUNDDOWN srcva then (-1, [])
    else match M (srcva / PGSIZE) with
      | none => (-1, [])
      | some p =>
        if p.user then
          let r := UMem.copyin M k ((PGROUNDDOWN srcva + PGSIZE) % 2 ^ 64)
            (len - pieceLen srcva len)
          (r.1, ((List.range (pieceLen srcva len)).map fun i => p.bytes (srcva % PGSIZE + i)) ++ r.2)
        else (-1, [])

/-- `copyinstr(pagetable, dst, srcva, max)`. -/
def UMem.copyinstr (M : UMem) : Nat → Nat → Nat → Int × List UInt8
  | 0, _, _ => (-1, [])
  | k + 1, srcva, max =>
    if max = 0 then (-1, [])
    else if MAXVA ≤ PGROUNDDOWN srcva then (-1, [])
    else match M (srcva / PGSIZE) with
      | none => (-1, [])
      | some p =>
        if p.user then
          let r := scanStr p.bytes (pieceLen srcva max) (srcva % PGSIZE)
          if r.2 then (0, r.1)
          else
            let rest := UMem.copyinstr M k ((PGROUNDDOWN srcva + PGSIZE) % 2 ^ 64)
              (max - pieceLen srcva max)
            (rest.1, r.1 ++ rest.2)
        else (-1, [])

/-- `fetchaddr(addr, ip)`. -/
def UMem.fetchaddr (M : UMem) (sz addr : Nat) : Int × Nat :=
  if sz ≤ addr ∨ sz < (addr + 8) % 2 ^ 64 then (-1, 0)
  else
    let r := M.copyin 8 addr 8
    if r.1 ≠ 0 then (-1, 0) else (0, loadLE (fun i => r.2.getD i 0) 0 8)

/-- `fetchstr(addr, buf, max)`. -/
def UMem.fetchstr (M : UMem) (addr max : Nat) : Int × List UInt8 :=
  let r := M.copyinstr max addr max
  if r.1 < 0 then (-1, r.2) else (((r.2.takeWhile (· != 0)).length : Int), r.2)

/-- The argument strings that `sys_exec` fetches. -/
def UMem.fetchArgs (M : UMem) (sz uargv : Nat) : Nat → Nat → Option (List (List UInt8))
  | 0, _ => none
  | n + 1, i =>
    let uarg := M.fetchaddr sz ((uargv + 8 * i) % 2 ^ 64)
    if uarg.1 < 0 then none
    else if uarg.2 = 0 then some []
    else
      let str := M.fetchstr uarg.2 PGSIZE
      if str.1 < 0 then none
      else (UMem.fetchArgs M sz uargv n (i + 1)).map (str.2.takeWhile (· != 0) :: ·)

/-! ## The image of an executable -/

/-- `loadseg` from offset `i` on, with `n` pages left. -/
def UMem.loadseg (va : Nat) (file : List UInt8) (offset sz : Nat) :
    Nat → Nat → UMem → Bool × UMem
  | 0, _, M => (true, M)
  | n + 1, i, M =>
    let bs := readiFile file ((offset + i) % 2 ^ 32) (min (sz - i) PGSIZE)
    let M' := M.put ((va + i) % 2 ^ 64 / PGSIZE) 0 bs
    if bs.length ≠ min (sz - i) PGSIZE then (false, M')
    else UMem.loadseg va file offset sz n (i + PGSIZE) M'

/-- The segments of an executable, added to an address space of size `sz`. -/
def UMem.loadSegments (file : List UInt8) : Nat → Nat → Nat → UMem → Option (Nat × UMem)
  | 0, _, sz, M => some (sz, M)
  | n + 1, off, sz, M =>
    let hdr := readiFile file off proghdrSize
    let ph := Proghdr.parse hdr
    if hdr.length ≠ proghdrSize then none
    else if ph.type ≠ ELF_PROG_LOAD then
      UMem.loadSegments file n ((off + proghdrSize) % 2 ^ 32) sz M
    else if !ph.loadable then none
    else
      let sz1 := max sz ((ph.vaddr + ph.memsz) % 2 ^ 64)
      if sz1 = 0 then none
      else
        let r := UMem.loadseg ph.vaddr file (ph.off % 2 ^ 32) (ph.filesz % 2 ^ 32)
          ((ph.filesz % 2 ^ 32 + PGSIZE - 1) / PGSIZE) 0
          (M.grow (npages sz) (npages sz1) (flags2perm ph.flags))
        if !r.1 then none
        else UMem.loadSegments file n ((off + proghdrSize) % 2 ^ 32) sz1 r.2

/-- The argument strings, pushed on the stack. -/
def UMem.pushArgs (stackbase : Nat) :
    List (List UInt8) → Nat → List Nat → UMem → Option (Nat × List Nat × UMem)
  | [], sp, ustack, M => some (sp, ustack, M)
  | arg :: rest, sp, ustack, M =>
    let sp' := pushed sp (arg.length + 1)
    if MAXARG ≤ ustack.length then none
    else if sp' < stackbase then none
    else UMem.pushArgs stackbase rest sp' (ustack ++ [sp'])
      (M.put (sp' / PGSIZE) (sp' % PGSIZE) (arg ++ [0]))

/-- The stack of a new image: number of arguments and stack pointer. -/
def UMem.pushStack (sz : Nat) (argv : List (List UInt8)) (M : UMem) : Option (Nat × Nat × UMem) :=
  match UMem.pushArgs (sz - PGSIZE) argv sz [] M with
  | none => none
  | some (sp, ustack, M') =>
    let sp' := pushed sp ((ustack.length + 1) * 8)
    if sp' < sz - PGSIZE then none
    else some (ustack.length, sp', M'.put (sp' / PGSIZE) (sp' % PGSIZE) (ustackBytes ustack))

/-- An address space whose page `v` is closed to the process. -/
def UMem.guard (M : UMem) (v : Nat) : UMem :=
  update M v ((M v).map fun p => { p with user := false })

/-- A new image: its size, the number of arguments, the stack pointer, and the address space. -/
def UMem.buildImage (file : List UInt8) (argv : List (List UInt8)) : Option (Nat × Nat × Nat × UMem) :=
  let elf := Elfhdr.parse (readiFile file 0 elfhdrSize)
  match UMem.loadSegments file elf.phnum (elf.phoff % 2 ^ 32) 0 fun _ => none with
  | none => none
  | some (sz, M) =>
    let sz1 := PGROUNDUP sz + 2 * PGSIZE
    (UMem.pushStack sz1 argv
      ((M.grow (npages sz) (npages sz1) PTE_W).guard (sz1 / PGSIZE - 2))).map (sz1, ·)

/-- The image that `exec` commits to, if there is one. -/
def UMem.image (file : Option (List UInt8)) (argv : List (List UInt8)) : Option (Nat × Nat × Nat × UMem) :=
  match file with
  | none => none
  | some file =>
    let hdr := readiFile file 0 elfhdrSize
    if hdr.length ≠ elfhdrSize then none
    else if (Elfhdr.parse hdr).magic ≠ ELF_MAGIC then none
    else UMem.buildImage file argv

/-- The image that `sys_exec` asks for. -/
def UMem.execImage (M : UMem) (sz : Nat) (files : List UInt8 → Option (List UInt8))
    (upath uargv : Nat) : Option (Nat × Nat × Nat × UMem) :=
  let path := M.fetchstr upath MAXPATH
  if path.1 < 0 then none
  else match M.fetchArgs sz uargv MAXARG 0 with
    | none => none
    | some argv => UMem.image (files (path.2.takeWhile (· != 0))) argv

end Xv6.Vm
