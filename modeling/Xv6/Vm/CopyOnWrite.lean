import Xv6.Vm.AddressShape
import Xv6.Vm.Reference

/-!
# Copy-on-write refines eager copying

The kernel and the reference kernel of `Reference` run side by side, making the same operations. In
every pair of states they reach, each process reads the same bytes in both and may write the same
pages, where an entry that becomes writable on a fault counts as writable. The reference kernel fails
an operation for lack of memory only where `kalloc` returned 0 in the kernel's.

Both are compared through the address spaces that they show: the kernel by `StepOk`, the reference
kernel by `RefKernel.step_shows`.
-/

set_option autoImplicit false

namespace Xv6.Vm

open Xv6.Base

/-! ## What a process sees -/

/-- The byte that process `i` reads at `va`, and whether it may write there (`PTE_W` or `PTE_COW`). -/
def Kernel.access (k : Kernel) (i : Fin NPROC) (va : Nat) : Option (UInt8 × Bool) :=
  match (k.table.proc i).mem.pagetable with
  | none => none
  | some r =>
    let w := pte k.km.mem r (va / PGSIZE)
    if has w PTE_V then
      some (k.km.mem (PTE2PA w + va % PGSIZE), has w PTE_W || has w PTE_COW)
    else none

/-- The same in the reference kernel, where only `PTE_W` permits writing. -/
def RefKernel.access (ρ : RefKernel) (i : Fin NPROC) (va : Nat) : Option (UInt8 × Bool) :=
  ((ρ.table.proc i).mem (va / PGSIZE)).map fun e => (ρ.frame e.frame (va % PGSIZE), e.write)

/-- The same in an address space. -/
def UMem.access (M : UMem) (va : Nat) : Option (UInt8 × Bool) :=
  (M (va / PGSIZE)).map fun p => (p.bytes (va % PGSIZE), p.write)

theorem RefKernel.access_eq (ρ : RefKernel) (i : Fin NPROC) (va : Nat) :
    ρ.access i va = (ρ.spaces.proc i).mem.access va := by
  show _ = Option.map _ (Option.map ρ.page ((ρ.table.proc i).mem (va / PGSIZE)))
  rw [Option.map_map]
  rfl

theorem page_lt_npages {sz va : Nat} (hfits : sz ≤ TRAPFRAME) (hva : va < sz) : va / PGSIZE < npages sz := by
  have hn := (PGROUNDUP_eq hfits).1
  have e : TRAPFRAME = 274877898752 := by decide
  unfold PGROUNDUP npages PGSIZE at *
  omega

variable {k k' : Kernel} {i : Fin NPROC}

theorem Kernel.access_eq (h : KInv k) (hi : (k.table.proc i).state ≠ .unused) {va : Nat}
    (hva : va < (k.table.proc i).sz) : k.access i va = (k.spaces.proc i).mem.access va := by
  obtain ⟨r, tf, hm, ht, -⟩ := h.focus hi
  have hu := (page_lt_npages ht.fits hva).trans_le ht.npages_le
  unfold Kernel.access UMem.access
  rw [Kernel.spaces_mem hm, umem_of_lt _ _ hu, hm, decode]
  simp only
  split_ifs
  · have hlt : va % PGSIZE < PGSIZE := Nat.mod_lt _ (by decide)
    rw [Option.map_some]
    simp only [pageAt_apply _ hlt]
  · rfl

theorem Kernel.access_isSome (h : KInv k) (hi : (k.table.proc i).state ≠ .unused) {va : Nat}
    (hva : va < (k.table.proc i).sz) : (k.access i va).isSome := by
  obtain ⟨r, tf, hm, ht, -⟩ := h.focus hi
  rw [Kernel.access_eq h hi hva, Kernel.spaces_mem hm]
  obtain ⟨p, hp, -⟩ := ht.pages.some _ (page_lt_npages ht.fits hva)
  unfold UMem.access
  rw [hp]
  rfl

theorem KInv.compact (h : KInv k) : RefKernel.Compact k.spaces := by
  intro i u hu
  rcases h.slot i with hfree | ⟨-, r, tf, hm, ht⟩
  · show Image.space k.km.mem (k.table.proc i).mem u = none
    rw [hfree]
    rfl
  · rw [Kernel.spaces_sz] at hu
    rw [Kernel.spaces_mem hm]
    exact ht.pages.none u hu

/-! ## Running side by side -/

/-- The two kernels make the same operation, with the same result. The reference kernel's fails for
lack of memory only if `kalloc` returned 0 in the kernel's. -/
def SideBySide (s : Kernel × RefKernel) (l : Label) (s' : Kernel × RefKernel) : Prop :=
  s.1.step l s'.1 ∧ ∃ o lim, Kernel.exec l s.1 = .ok (o, s'.1) ∧ s.2.step lim l = (o, s'.2) ∧
    (lim.isSome → s.1.km.exhausted < s'.1.km.exhausted)

/-- The processes of the two kernels are the same, read the same bytes below their size, and may write
to the same places there. -/
structure Agree (k : Kernel) (ρ : RefKernel) : Prop where
  proc : ∀ i, (k.table.proc i).state = (ρ.table.proc i).state ∧
    (k.table.proc i).pid = (ρ.table.proc i).pid ∧
    (k.table.proc i).parent = (ρ.table.proc i).parent ∧ (k.table.proc i).sz = (ρ.table.proc i).sz
  access : ∀ i, (k.table.proc i).state ≠ .unused → ∀ va < (k.table.proc i).sz,
    k.access i va = ρ.access i va ∧ (k.access i va).isSome

theorem agree_of_spaces {ρ : RefKernel} (h : KInv k) (hs : ρ.spaces = k.spaces) : Agree k ρ := by
  have hproc : ∀ i, (k.table.proc i).map (Image.space k.km.mem) = (ρ.table.proc i).map ρ.space :=
    fun i => (congrArg (fun t : Spaces => t.proc i) hs).symm
  refine ⟨fun i => ?_, fun i hi va hva => ⟨?_, Kernel.access_isSome h hi hva⟩⟩
  · have hi := hproc i
    exact ⟨congrArg Proc.state hi, congrArg Proc.pid hi, congrArg Proc.parent hi, congrArg Proc.sz hi⟩
  · rw [Kernel.access_eq h hi hva, RefKernel.access_eq, hs]

/-- One operation side by side, from states that show the same address spaces. -/
theorem sideBySide_step {ρ : RefKernel} {l : Label} (h : KInv k) (hsep : ρ.Separate)
    (hsp : ρ.spaces = k.spaces) (hs : k.step l k') :
    ∃ ρ', SideBySide (k, ρ) l (k', ρ') ∧ ρ'.Separate ∧ ρ'.spaces = k'.spaces := by
  obtain ⟨o, hexec, ⟨hinv, heffect⟩⟩ := step_ok h hs
  have hmatch : ∀ lim, Spaces.step lim l k.spaces = (o, k'.spaces) → RefKernel.Shows (ρ.step lim l) (o, k'.spaces) := by
    intro lim hstep
    rw [← hsp] at hstep
    rw [← hstep]
    refine RefKernel.step_shows hsep ?_ ?_
    · rw [hsp]
      exact h.compact
    · rw [hstep]
      exact hinv.compact
  rcases heffect with ⟨-, hstep⟩ | ⟨hex, lim, hstep⟩
  · obtain ⟨hout, hspaces, hsep'⟩ := hmatch none hstep
    refine ⟨(ρ.step none l).2, ⟨hs, o, none, hexec, ?_, fun hc => by cases hc⟩, hsep', hspaces⟩
    exact Prod.ext hout rfl
  · obtain ⟨hout, hspaces, hsep'⟩ := hmatch (some lim) hstep
    refine ⟨(ρ.step (some lim) l).2, ⟨hs, o, some lim, hexec, ?_, fun _ => hex⟩, hsep', hspaces⟩
    exact Prod.ext hout rfl

theorem booted_spaces {k0 : Kernel} (h : k0.Booted) : RefKernel.init.spaces = k0.spaces := by
  obtain ⟨-, -, -, -, -, htable, -, -⟩ := h
  unfold Kernel.spaces
  rw [htable]
  rfl

/-- Every run of the kernel can be followed by the reference kernel, in agreement all the way. -/
theorem sideBySide_run {k0 : Kernel} {ls : List Label} (h : k0.Booted) (hr : Run Kernel.step k0 ls k) :
    ∃ ρ, Run (fun s l s' => SideBySide s l s' ∧ Agree s'.1 s'.2) (k0, RefKernel.init) ls (k, ρ) ∧
      ρ.Separate ∧ ρ.spaces = k.spaces := by
  induction hr with
  | nil => exact ⟨RefKernel.init, Run.nil _, RefKernel.separate_init, booted_spaces h⟩
  | snoc hrun hs ih =>
    obtain ⟨ρ, hρ, hsep, hsp⟩ := ih
    have hinv := run_inv h hrun
    obtain ⟨ρ', hside, hsep', hsp'⟩ := sideBySide_step hinv hsep hsp hs
    have hinv' := run_inv h (hrun.snoc hs)
    exact ⟨ρ', hρ.snoc ⟨hside, agree_of_spaces hinv' hsp'⟩, hsep', hsp'⟩

/-! ## Isolation -/

namespace Spaces

variable {lim : Option (Nat × Nat)} {l : Label} {t : Spaces} {j : Fin NPROC}

theorem spawn_of_ne {q : Fin NPROC} (hne : j ≠ q) (t : Spaces) (parent : Option (Fin NPROC))
    (sz : Nat) (M : UMem) : (t.spawn q parent sz M).proc j = t.proc j :=
  ProcTable.set_of_ne t hne _

theorem ne_of_unused {q : Fin NPROC} (hq : t.unused = some q) (hj : (t.proc j).state ≠ .unused) : j ≠ q := by
  rintro rfl
  exact hj (ProcTable.unused_state hq)

/-- The address space and the size of a process are those it had. -/
def SameMem (p p' : Proc UMem) : Prop := p'.mem = p.mem ∧ p'.sz = p.sz

theorem SameMem.of_eq {p p' : Proc UMem} (h : p' = p) : SameMem p p' := h ▸ ⟨rfl, rfl⟩

theorem exit_sameMem (t : Spaces) (i j : Fin NPROC) (status : Int) : SameMem (t.proc j) ((t.exit i status).proc j) := by
  have hre : SameMem (t.proc j) ((t.reparent i).proc j) := by
    unfold ProcTable.reparent SameMem
    simp only
    split_ifs
    · exact ⟨rfl, rfl⟩
    · exact ⟨rfl, rfl⟩
  unfold ProcTable.exit
  by_cases hj : j = i
  · subst hj
    rw [ProcTable.set_self]
    exact hre
  · rw [ProcTable.set_of_ne _ hj]
    exact hre

/-- `wait` frees a slot; to the others it does at most what its `copyout` does. -/
theorem wait_frame {i : Fin NPROC} {addr : Nat} (hlive' : ((wait lim i addr t).2.proc j).state ≠ .unused) :
    (wait lim i addr t).2.proc j = t.proc j ∨
      ∃ n src, (wait lim i addr t).2.proc j = (copyout n i addr src t).2.proc j := by
  unfold wait at hlive' ⊢
  cases hz : t.zombieChild i with
  | none => exact .inl rfl
  | some q =>
    have hcopy : ∀ r : Int × Spaces, (r = if addr ≠ 0 then
          copyout (lim.map Prod.fst) i addr (intBytes (t.proc q).xstate) t else (0, t)) →
        r.2.proc j = t.proc j ∨ ∃ n src, r.2.proc j = (copyout n i addr src t).2.proc j := by
      rintro r rfl
      split_ifs
      · exact .inr ⟨_, _, rfl⟩
      · exact .inl rfl
    rw [hz] at hlive'
    simp only at hlive' ⊢
    generalize hr : (if addr ≠ 0 then
        copyout (lim.map Prod.fst) i addr (intBytes (t.proc q).xstate) t
      else (0, t)) = r at hlive' ⊢
    by_cases hneg : r.1 < 0
    · rw [if_pos hneg]
      exact hcopy r hr.symm
    · rw [if_neg hneg] at hlive' ⊢
      have hq : j ≠ q := by
        rintro rfl
        exact absurd (congrArg Proc.state (ProcTable.set_self r.2 j _)) hlive'
      rw [ProcTable.set_of_ne r.2 hq]
      exact hcopy r hr.symm

/-- An operation does not change the memory of a process that does not make it. -/
theorem step_other (hj : l.actor ≠ some j) (hlive : (t.proc j).state ≠ .unused)
    (hlive' : ((step lim l t).2.proc j).state ≠ .unused) : SameMem (t.proc j) ((step lim l t).2.proc j) := by
  have hne : ∀ i, l.actor = some i → j ≠ i := fun i hi hji => hj (hji ▸ hi)
  -- a write by another process
  have hset : ∀ i, l.actor = some i → ∀ (t' : Spaces) M, (t'.setMem i M).proc j = t'.proc j :=
    fun i hi t' M => ProcTable.set_of_ne t' (hne i hi) _
  cases l with
  | kernelAlloc | kernelWrite a bs | pipeclose p => exact .of_eq rfl
  | userinit =>
    refine .of_eq ?_
    simp only [step, userinit]
    cases hq : t.unused with
    | none => rfl
    | some q => exact spawn_of_ne (ne_of_unused hq hlive) ..
  | fork i =>
    refine .of_eq ?_
    simp only [step, fork]
    cases hq : t.unused with
    | none => rfl
    | some q =>
      cases lim with
      | none => exact spawn_of_ne (ne_of_unused hq hlive) ..
      | some _ => rfl
  | exec i files upath uargv =>
    refine .of_eq ?_
    simp only [step, exec]
    split
    · exact ProcTable.set_of_ne _ (hne i rfl) _
    · rfl
  | sbrk i n =>
    refine .of_eq ?_
    simp only [step, sbrk]
    split_ifs
    · cases lim with
      | none => exact ProcTable.set_of_ne _ (hne i rfl) _
      | some _ => rfl
    · exact ProcTable.set_of_ne _ (hne i rfl) _
    · rfl
  | exit i status | fault i scause stval => exact exit_sameMem ..
  | wait i addr =>
    rcases wait_frame hlive' with h | ⟨n, src, h⟩
    · exact .of_eq h
    · exact .of_eq (h.trans (hset i rfl ..))
  | store i va bs =>
    simp only [step, store]
    split
    · split_ifs
      · exact .of_eq (hset i rfl ..)
      · exact exit_sameMem ..
    · exact exit_sameMem ..
  | copyout i dstva src => exact .of_eq (hset i rfl ..)
  | pipe i fdarray fds =>
    refine .of_eq ?_
    simp only [step, pipe]
    cases fds with
    | none => rfl
    | some fd =>
      have hcopy : ∀ (n : Option Nat) va src (t' : Spaces),
          (copyout n i va src t').2.proc j = t'.proc j := fun _ _ _ _ => hset i rfl ..
      simp only [Prod.map_snd, id]
      split_ifs
      · exact hcopy ..
      · exact (hcopy ..).trans (hcopy ..)
      · exact (hcopy ..).trans (hcopy ..)

/-! ## Pages that may not be written -/

/-- The pages without write permission are still there, with what they held. -/
structure KeepsReadOnly (M M' : UMem) : Prop where
  page : ∀ u p, M u = some p → p.write = false → M' u = some p

theorem keepsReadOnly_put {M : UMem} {u : Nat} {p : UPage} (hp : M u = some p) (hw : p.write = true)
    (off : Nat) (bs : List UInt8) : KeepsReadOnly M (M.put u off bs) := by
  refine ⟨fun v q hq hro => ?_⟩
  have hne : v ≠ u := by
    rintro rfl
    rw [hp] at hq
    cases hq
    rw [hw] at hro
    cases hro
  unfold UMem.put
  rw [Function.update_of_ne hne, hq]

theorem KeepsReadOnly.trans {M M' M'' : UMem} (h : KeepsReadOnly M M') (h' : KeepsReadOnly M' M'') :
    KeepsReadOnly M M'' := ⟨fun u p hp hw => h'.page u p (h.page u p hp hw) hw⟩

theorem KeepsReadOnly.of_eq {M M' : UMem} (h : M' = M) : KeepsReadOnly M M' :=
  ⟨fun _ _ hp _ => h ▸ hp⟩

theorem keepsReadOnly_copyout (n : Nat) (M : UMem) (dstva : Nat) (src : List UInt8) :
    KeepsReadOnly M (UMem.copyout n M dstva src).2 := by
  induction n generalizing M dstva src with
  | zero => exact .of_eq rfl
  | succ n ih =>
    rw [UMem.copyout]
    split_ifs
    · exact .of_eq rfl
    · exact .of_eq rfl
    · split
      · exact .of_eq rfl
      · next p hp =>
          split_ifs with hw
          · rw [Bool.and_eq_true] at hw
            exact (keepsReadOnly_put hp hw.2 ..).trans (ih ..)
          · exact .of_eq rfl

theorem copyout_keepsReadOnly (n : Option Nat) (j : Fin NPROC) (va : Nat) (src : List UInt8)
    (t : Spaces) : KeepsReadOnly (t.proc j).mem ((copyout n j va src t).2.proc j).mem := by
  unfold copyout setMem
  rw [ProcTable.set_self]
  exact keepsReadOnly_copyout ..

/-- The pages that `sbrk` leaves are those that there were. -/
theorem sbrk_keeps {n : Int} (hc : RefKernel.Compact t) {u : Nat} {p : UPage}
    (hu : u < npages ((sbrk lim j n t).2.proc j).sz) (hp : (t.proc j).mem u = some p) :
    ((sbrk lim j n t).2.proc j).mem u = some p := by
  have hlt : u < npages (t.proc j).sz := by
    by_contra hge
    rw [hc j u (Nat.le_of_not_lt hge)] at hp
    cases hp
  unfold sbrk at hu ⊢
  simp only at hu ⊢
  split_ifs at hu ⊢
  · cases lim with
    | none =>
      simp only [ProcTable.set_self, UMem.grow]
      rw [if_neg (by omega)]
      exact hp
    | some _ => exact hp
  · simp only [ProcTable.set_self, UMem.shrink] at hu ⊢
    rw [if_neg (by omega)]
    exact hp
  · exact hp

/-- Unless the process executes another program, the pages that it may not write and that it still has
are not changed. -/
theorem step_keepsReadOnly (hc : RefKernel.Compact t) (hlive : (t.proc j).state ≠ .unused)
    (hlive' : ((step lim l t).2.proc j).state ≠ .unused)
    (hexec : ∀ files upath uargv, l ≠ .exec j files upath uargv) {u : Nat} {p : UPage}
    (hu : u < npages ((step lim l t).2.proc j).sz) (hp : (t.proc j).mem u = some p)
    (hro : p.write = false) : ((step lim l t).2.proc j).mem u = some p := by
  by_cases hj : l.actor ≠ some j
  · rw [(step_other hj hlive hlive').1]
    exact hp
  suffices hkeep : (∀ n, l ≠ .sbrk j n) → KeepsReadOnly (t.proc j).mem ((step lim l t).2.proc j).mem by
    by_cases hs : ∀ n, l ≠ .sbrk j n
    · exact (hkeep hs).page u p hp hro
    · push Not at hs
      obtain ⟨n, rfl⟩ := hs
      exact sbrk_keeps hc hu hp
  intro hs
  rw [not_not] at hj
  cases l with
  | kernelAlloc | kernelWrite a bs | pipeclose p | userinit => cases hj
  | fork i =>
    cases hj
    simp only [step, fork]
    cases hq : t.unused with
    | none => exact .of_eq rfl
    | some q =>
      cases lim with
      | none => exact .of_eq (congrArg Proc.mem (spawn_of_ne (ne_of_unused hq hlive) ..))
      | some _ => exact .of_eq rfl
  | exec i files upath uargv =>
    cases hj
    exact absurd rfl (hexec files upath uargv)
  | sbrk i n =>
    cases hj
    exact absurd rfl (hs n)
  | exit i status | fault i scause stval => exact .of_eq (exit_sameMem ..).1
  | wait i addr =>
    cases hj
    rcases wait_frame hlive' with h | ⟨n, src, h⟩
    · exact .of_eq (congrArg Proc.mem h)
    · exact (copyout_keepsReadOnly n j addr src t).trans (.of_eq (congrArg Proc.mem h))
  | store i va bs =>
    cases hj
    simp only [step, store]
    split
    · next q hq =>
        split_ifs with hw
        · rw [Bool.and_eq_true] at hw
          rw [setMem, ProcTable.set_self]
          exact keepsReadOnly_put hq hw.2 ..
        · exact .of_eq (exit_sameMem ..).1
    · exact .of_eq (exit_sameMem ..).1
  | copyout i dstva src =>
    cases hj
    exact copyout_keepsReadOnly ..
  | pipe i fdarray fds =>
    cases hj
    simp only [step, pipe]
    cases fds with
    | none => exact .of_eq rfl
    | some fd =>
      simp only [Prod.map_snd, id]
      split_ifs
      · exact copyout_keepsReadOnly ..
      · exact (copyout_keepsReadOnly ..).trans (copyout_keepsReadOnly ..)
      · exact (copyout_keepsReadOnly ..).trans (copyout_keepsReadOnly ..)

end Spaces

/-! ## Refinement -/

/-- An operation of the kernel, as one on address spaces. -/
theorem spaces_step {l : Label} (h : KInv k) (hs : k.step l k') :
    KInv k' ∧ ∃ lim, k'.spaces = (Spaces.step lim l k.spaces).2 := by
  obtain ⟨o, -, ⟨hinv, ⟨-, hstep⟩ | ⟨-, lim, hstep⟩⟩⟩ := step_ok h hs
  · exact ⟨hinv, none, (congrArg Prod.snd hstep).symm⟩
  · exact ⟨hinv, some lim, (congrArg Prod.snd hstep).symm⟩

/-- A process that does not make the operation sees what it saw. -/
theorem access_other {l : Label} {j : Fin NPROC} (h : KInv k) (hs : k.step l k')
    (hj : l.actor ≠ some j) (hlive : (k.table.proc j).state ≠ .unused)
    (hlive' : (k'.table.proc j).state ≠ .unused) {va : Nat} (hva : va < (k.table.proc j).sz) :
    va < (k'.table.proc j).sz ∧ k'.access j va = k.access j va := by
  obtain ⟨hinv, lim, hsp⟩ := spaces_step h hs
  have hlive1 : ((Spaces.step lim l k.spaces).2.proc j).state ≠ .unused := by
    rw [← hsp]
    exact hlive'
  obtain ⟨hmem, hsz⟩ := Spaces.step_other hj hlive hlive1
  rw [← hsp] at hmem hsz
  rw [Kernel.spaces_sz, Kernel.spaces_sz] at hsz
  have hva' : va < (k'.table.proc j).sz := by omega
  refine ⟨hva', ?_⟩
  rw [Kernel.access_eq hinv hlive' hva', Kernel.access_eq h hlive hva, hmem]

/-- A place that a process may not write to is not written to, unless the process executes another
program. -/
theorem access_readOnly {l : Label} {j : Fin NPROC} (h : KInv k) (hs : k.step l k')
    (hexec : ∀ files upath uargv, l ≠ .exec j files upath uargv)
    (hlive : (k.table.proc j).state ≠ .unused) (hlive' : (k'.table.proc j).state ≠ .unused)
    {va : Nat} (hva : va < (k.table.proc j).sz) (hva' : va < (k'.table.proc j).sz) {b : UInt8}
    (hb : k.access j va = some (b, false)) : k'.access j va = some (b, false) := by
  obtain ⟨hinv, lim, hsp⟩ := spaces_step h hs
  obtain ⟨r', tf', -, ht', -⟩ := hinv.focus hlive'
  rw [Kernel.access_eq h hlive hva] at hb
  obtain ⟨p, hp, hpb⟩ := Option.map_eq_some_iff.1 hb
  obtain ⟨hbyte, hro⟩ := Prod.mk.inj hpb
  have hkeep : ((Spaces.step lim l k.spaces).2.proc j).mem (va / PGSIZE) = some p := by
    refine Spaces.step_keepsReadOnly h.compact hlive ?_ hexec ?_ hp hro
    · rw [← hsp]
      exact hlive'
    · rw [← hsp, Kernel.spaces_sz]
      exact page_lt_npages ht'.fits hva'
  rw [← hsp] at hkeep
  rw [Kernel.access_eq hinv hlive' hva', UMem.access, hkeep, ← hpb]
  rfl

/-- The kernel refines one that copies every page in `fork`. Each run can be followed by the reference
kernel, which makes the same operations with the same results; in each pair of states on the way the
processes read the same bytes and may write to the same places. No operation changes what another
process reads, nor what may not be written. An operation that can be made is completed, except that
the first process must not exit, that memory is assumed to suffice for the kernel itself, and that a
store at or above `MAXVA` stops the machine, with or without sharing. -/
theorem cow_refines_eager_copying {k₀ k : Kernel} {ls : List Label} (h : k₀.Booted)
    (hr : Run Kernel.step k₀ ls k) :
    (∃ ρ, Run (fun s l s' => SideBySide s l s' ∧ Agree s'.1 s'.2) (k₀, RefKernel.init) ls (k, ρ) ∧
      Agree k ρ) ∧
    (∀ l k', k.step l k' → ∀ j, (k.table.proc j).state ≠ .unused →
      (k'.table.proc j).state ≠ .unused →
      (l.actor ≠ some j → ∀ va < (k.table.proc j).sz,
        va < (k'.table.proc j).sz ∧ k'.access j va = k.access j va) ∧
      ((∀ files upath uargv, l ≠ .exec j files upath uargv) →
        ∀ va < (k.table.proc j).sz, va < (k'.table.proc j).sz → ∀ b,
          k.access j va = some (b, false) → k'.access j va = some (b, false))) ∧
    ∀ l e, l.Enabled k → Kernel.exec l k = .error e →
      (e = .initExiting ∧ l.actor = k.table.initproc) ∨
      (e = .walk ∧ ∃ i va bs, l = .store i va bs ∧ MAXVA ≤ va) ∨ (e = .wild ∧ l.actor = none) := by
  have hinv := run_inv h hr
  refine ⟨?_, fun l k' hs j hlive hlive' => ⟨?_, ?_⟩, fun l e hen he => (exec_meets_step hinv hen).fails e he⟩
  · obtain ⟨ρ, hrun, -, hsp⟩ := sideBySide_run h hr
    exact ⟨ρ, hrun, agree_of_spaces hinv hsp⟩
  · intro hj va hva
    exact access_other hinv hs hj hlive hlive' hva
  · intro hexec va hva hva' b hb
    exact access_readOnly hinv hs hexec hlive hlive' hva hva' hb

/-- After a `fork` the parent writes to a shared page; the child does not see it. -/
theorem cow_refines_eager_copying_fork :
    ∃ (k : Kernel) (ρ : RefKernel) (i j : Fin NPROC),
      Run (fun s l s' => SideBySide s l s' ∧ Agree s'.1 s'.2) (smallMachine, RefKernel.init)
        [.userinit, .fork i, .store i 100 [7]] (k, ρ) ∧
      ρ.access i 100 = some (7, true) ∧ ρ.access j 100 = some (0, true) := by
  have h1 := Run.single (smallMachine.step_after (l := .userinit) (by decide +kernel)
    ⟨(fun _ hi => by cases hi), rfl⟩ (fun _ => by decide +kernel))
  have h2 := h1.snoc ((smallMachine.after .userinit).step_after (l := .fork ⟨0, by decide⟩)
    (by decide +kernel) ⟨fun i hi => by cases hi; decide +kernel, trivial⟩ (fun hi => by cases hi))
  have h3 := h2.snoc (((smallMachine.after .userinit).after (.fork ⟨0, by decide⟩)).step_after
    (l := .store ⟨0, by decide⟩ 100 [7]) (by decide +kernel)
    ⟨fun i hi => by cases hi; decide +kernel, by decide⟩ (fun hi => by cases hi))
  obtain ⟨⟨ρ, hrun, hagree⟩, -⟩ := cow_refines_eager_copying smallMachine_booted h3
  refine ⟨_, ρ, ⟨0, by decide⟩, ⟨1, by decide⟩, hrun, ?_, ?_⟩
  · rw [← (hagree.access ⟨0, by decide⟩ (by decide +kernel) 100 (by decide +kernel)).1]
    decide +kernel
  · rw [← (hagree.access ⟨1, by decide⟩ (by decide +kernel) 100 (by decide +kernel)).1]
    decide +kernel

end Xv6.Vm
