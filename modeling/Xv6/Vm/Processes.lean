import Xv6.Vm.ExecSpec
import Xv6.Vm.Spaces

/-!
# The invariant of the kernel, and what its operations do to address spaces

`KInv` says that the ledger of the whole machine is in order, with the page tables of the processes
as its tables and the trapframes, pipes and pages of the kernel as the pages held, and that the table
of every process has the shape that its size prescribes. Every operation keeps it, and acts on the
address spaces of the processes as `Spaces.step` says.

To use a specification for one process the ledger is brought into a form with the table and the
trapframe of that process in front (`KInv.focus`), and back again (`KInv.put`).
-/

set_option autoImplicit false

namespace Xv6.Vm

open Xv6.Base

/-- A slot is free, or it belongs to a process whose table has the shape that its size prescribes. -/
def SlotOk (m : Mem) (trampoline : Nat) (p : Proc Image) : Prop :=
  p = Proc.free ⟨none, none⟩ ∨ ((p.state = .runnable ∨ p.state = .zombie) ∧
    ∃ r tf, p.mem = ⟨some r, some tf⟩ ∧ UserTable m trampoline tf r p.sz)

/-- The invariant. -/
structure KInv (k : Kernel) : Prop where
  ledger : Ledger k.km k.roots k.held
  slot : ∀ i, SlotOk k.km.mem k.trampoline (k.table.proc i)
  tramp : k.trampoline % PGSIZE = 0 ∧ k.trampoline + PGSIZE ≤ k.km.kend

variable {trampoline : Nat} {p : Proc Image}

theorem SlotOk.unused {m : Mem} (h : SlotOk m trampoline p) (hp : p.state = .unused) : p = Proc.free ⟨none, none⟩ := by
  rcases h with h | ⟨h | h, -⟩
  · exact h
  · rw [h] at hp
    cases hp
  · rw [h] at hp
    cases hp

theorem SlotOk.live {m : Mem} (h : SlotOk m trampoline p) (hp : p.state ≠ .unused) :
    ∃ r tf, p.mem = ⟨some r, some tf⟩ ∧ UserTable m trampoline tf r p.sz := by
  rcases h with rfl | ⟨-, h⟩
  · exact absurd rfl hp
  · exact h

/-- The address space of a process. -/
def Image.space (m : Mem) (im : Image) : UMem :=
  match im.pagetable with
  | some r => umem m r
  | none => Spaces.emptySpace

/-- The address spaces of the processes. -/
def Kernel.spaces (k : Kernel) : Spaces := k.table.map (Image.space k.km.mem)

/-- The page tables of the processes other than `i`. -/
def Kernel.rootsBut (k : Kernel) (i : Fin NPROC) : List Nat :=
  others i fun j => (k.table.proc j).mem.pagetable

/-- The pages held other than the trapframe of process `i`. -/
def Kernel.heldBut (k : Kernel) (i : Fin NPROC) : List Nat :=
  others i (fun j => (k.table.proc j).mem.trapframe) ++ (k.kpages ++ k.pipes)

variable {j : Fin NPROC} {km : Kmem} {r : Nat}

section Focus

variable {k : Kernel}

theorem Kernel.roots_perm (k : Kernel) (i : Fin NPROC) :
    k.roots.Perm ((k.table.proc i).mem.pagetable.toList ++ k.rootsBut i) :=
  collect_perm i fun j => (k.table.proc j).mem.pagetable

theorem Kernel.held_perm (k : Kernel) (i : Fin NPROC) :
    k.held.Perm ((k.table.proc i).mem.trapframe.toList ++ k.heldBut i) := by
  have hp := (collect_perm i fun j => (k.table.proc j).mem.trapframe).append_right (k.kpages ++ k.pipes)
  rw [List.append_assoc] at hp
  exact hp

theorem Kernel.roots_length (k : Kernel) : k.roots.length ≤ NPROC := collect_length _

variable {i : Fin NPROC}

/-- The ledger with the table and the trapframe of one process in front. -/
theorem KInv.focus (h : KInv k) (hi : (k.table.proc i).state ≠ .unused) :
    ∃ r tf, (k.table.proc i).mem = ⟨some r, some tf⟩ ∧ UserTable k.km.mem k.trampoline tf r (k.table.proc i).sz ∧
      Ledger k.km (r :: k.rootsBut i) (tf :: k.heldBut i) := by
  obtain ⟨r, tf, hm, ht⟩ := (h.slot i).live hi
  refine ⟨r, tf, hm, ht, ?_⟩
  have hr := k.roots_perm i
  have hh := k.held_perm i
  rw [hm] at hr hh
  exact (h.ledger.permRoots hr).permHeld hh

/-- A live process's table and trapframe, with the ledger around them. -/
theorem KInv.actor (h : KInv k) (hi : (k.table.proc i).state = .runnable) :
    ∃ r tf, (k.table.proc i).mem = ⟨some r, some tf⟩ ∧ UserTable k.km.mem k.trampoline tf r (k.table.proc i).sz ∧
      Ledger k.km (r :: k.rootsBut i) (tf :: k.heldBut i) :=
  h.focus (by rw [hi]; exact ProcState.noConfusion)

theorem Kernel.rootsBut_length (k : Kernel)
    (h : (k.table.proc i).mem.pagetable = some r) : (k.rootsBut i).length + 1 ≤ NPROC := by
  have h1 := (k.roots_perm i).length_eq
  have h2 := k.roots_length
  rw [h, List.length_append] at h1
  simp at h1
  omega

theorem Kernel.mem_rootsBut (k : Kernel) (hij : j ≠ i)
    (h : (k.table.proc j).mem.pagetable = some r) : r ∈ k.rootsBut i := mem_others hij h

/-- A table that shows the same address space keeps its shape. -/
theorem UserTable.sameSpace {s s' : Kmem} {trapframe sz : Nat}
    (h : UserTable s.mem trampoline trapframe r sz) (hs : SameSpace s s' r) :
    UserTable s'.mem trampoline trapframe r sz :=
  h.congr h.fits (by rw [hs.umem]; exact h.pages) hs.high

/-- The tables at `roots` show the same address spaces, and the kernel image is where it was. -/
structure SameSpaces (s s' : Kmem) (roots : List Nat) : Prop where
  kend : s'.kend = s.kend
  space : ∀ r ∈ roots, SameSpace s s' r

theorem Keeps.sameSpaces {s s' : Kmem} {roots held : List Nat} (h : Keeps s s' roots held) :
    SameSpaces s s' roots := ⟨h.kend, fun _ hr => h.sameSpace hr⟩

/-- Replacing the slot of one process and the machine, when the others' address spaces are kept. -/
theorem KInv.put (h : KInv k) (hl : Ledger km (p.mem.pagetable.toList ++ k.rootsBut i)
      (p.mem.trapframe.toList ++ k.heldBut i)) (hk : SameSpaces k.km km (k.rootsBut i))
    (hslot : SlotOk km.mem k.trampoline p) : KInv ((k.setMem km).setTable (k.table.set i p)) := by
  have hroots : ((k.setMem km).setTable (k.table.set i p)).rootsBut i = k.rootsBut i := by
    refine others_congr fun j hj => ?_
    rw [Kernel.setTable_table, ProcTable.set_of_ne _ hj]
  have hheld : ((k.setMem km).setTable (k.table.set i p)).heldBut i = k.heldBut i := by
    refine congrArg (· ++ (k.kpages ++ k.pipes)) (others_congr fun j hj => ?_)
    rw [Kernel.setTable_table, ProcTable.set_of_ne _ hj]
  have hpr := ((k.setMem km).setTable (k.table.set i p)).roots_perm i
  have hph := ((k.setMem km).setTable (k.table.set i p)).held_perm i
  rw [hroots, Kernel.setTable_table, ProcTable.set_self] at hpr
  rw [hheld, Kernel.setTable_table, ProcTable.set_self] at hph
  refine ⟨(hl.permRoots hpr.symm).permHeld hph.symm, fun j => ?_, h.tramp.1, ?_⟩
  · rw [Kernel.setTable_table]
    by_cases hji : j = i
    · subst hji
      rw [ProcTable.set_self]
      exact hslot
    · rw [ProcTable.set_of_ne _ hji]
      rcases h.slot j with hfree | ⟨hst, r, tf, hm, ht⟩
      · exact .inl hfree
      · exact .inr ⟨hst, r, tf, hm, ht.sameSpace (hk.space r (k.mem_rootsBut hji (by rw [hm])))⟩
  · show k.trampoline + PGSIZE ≤ km.kend
    rw [hk.kend]
    exact h.tramp.2

/-- The address spaces of the other processes are those before. -/
theorem Kernel.spaces_put (k : Kernel) (hk : SameSpaces k.km km (k.rootsBut i)) :
    ((k.setMem km).setTable (k.table.set i p)).spaces = k.spaces.set i (p.map (Image.space km.mem)) := by
  show (k.table.set i p).map (Image.space km.mem) = (k.table.map _).set i _
  rw [ProcTable.map_set]
  apply ProcTable.set_congr
  · intro j hji
    have hspace : Image.space km.mem (k.table.proc j).mem = Image.space k.km.mem (k.table.proc j).mem := by
      unfold Image.space
      cases hm : (k.table.proc j).mem.pagetable with
      | none => rfl
      | some r => exact (hk.space r (k.mem_rootsBut hji hm)).umem
    rw [ProcTable.map_proc, ProcTable.map_proc, Proc.map, hspace]
    rfl
  · rw [ProcTable.map_nextpid, ProcTable.map_nextpid]
  · rw [ProcTable.map_initproc, ProcTable.map_initproc]

end Focus

/-! ## Taking operations apart -/

section Peel

variable {α : Type} {k k' : Kernel}

theorem onMem_of_ok {x : KM α} {a : α} (h : x k.km = .ok (a, km)) : onMem x k = .ok (a, k.setMem km) := by
  unfold onMem
  rw [h]

theorem onMem_meets {E : Panic → Prop} {x : KM α} {Q : α → Kmem → Prop} (h : Meets E x k.km Q) :
    Meets E (onMem x) k fun a k' => ∃ km, k' = k.setMem km ∧ Q a km := by
  rcases h.outcome with ⟨a, km, hx, hQ⟩ | ⟨e, hx, he⟩
  · exact .of_ok (by rw [onMem, hx]) ⟨km, rfl, hQ⟩
  · exact .of_error (by rw [onMem, hx]) he

end Peel

section Slots

variable {k : Kernel} {R H : List Nat}

/-- `freeproc` gives back the trapframe and the table of the slot, as far as it has them. -/
theorem freeproc_meets (hl : Ledger k.km ((k.table.proc j).mem.pagetable.toList ++ R)
      ((k.table.proc j).mem.trapframe.toList ++ H)) (ht : ∀ r, (k.table.proc j).mem.pagetable = some r → ∃ tf,
      UserTable k.km.mem k.trampoline tf r (k.table.proc j).sz) : Meets (fun _ => False) (freeproc j) k fun _ k' =>
      ∃ km, k' = (k.setMem km).setTable (k.table.set j (Proc.free ⟨none, none⟩)) ∧
        Ledger km R H ∧ Keeps k.km km R H ∧ km.exhausted = k.km.exhausted := by
  rw [freeproc]
  refine .step rfl (.bind (R := fun _ k1 => ∃ km, k1 = k.setMem km ∧
      Ledger km ((k.table.proc j).mem.pagetable.toList ++ R) H ∧
      Keeps k.km km ((k.table.proc j).mem.pagetable.toList ++ R) H ∧
      km.exhausted = k.km.exhausted) ?_ ?_)
  · -- the trapframe
    cases hm : (k.table.proc j).mem.trapframe with
    | none =>
      rw [hm] at hl
      exact .pure ⟨k.km, rfl, hl, .refl _ _ _, rfl⟩
    | some tf =>
      rw [hm] at hl
      exact onMem_meets (kfree_held_meets hl)
  · rintro - _ ⟨km, rfl, hl1, hk1, hex1⟩
    -- the table
    cases hm : (k.table.proc j).mem.pagetable with
    | none =>
      rw [hm] at hl1 hk1
      exact .of_ok rfl ⟨km, rfl, hl1, hk1, hex1⟩
    | some r =>
      rw [hm] at hl1 hk1
      obtain ⟨tf, hut⟩ := ht r hm
      refine .bind (onMem_meets (procFreepagetable_meets hl1 (hut.keep hk1 (.head _)))) ?_
      rintro - _ ⟨km2, rfl, hl2, hk2, hex2⟩
      refine .of_ok rfl ⟨km2, rfl, hl2, ?_, hex2.trans hex1⟩
      exact (hk1.mono (List.sublist_cons_self ..) (.refl _)).trans hk2

theorem Kernel.free_slot (h : KInv k) (hj : k.table.unused = some j) :
    k.table.proc j = Proc.free ⟨none, none⟩ := (h.slot j).unused (ProcTable.unused_state hj)

/-- `allocproc`: no slot, no memory, or a process with an empty address space in a free slot. -/
theorem allocproc_meets (h : KInv k) : Meets (fun _ => False) allocproc k fun o k' =>
    (o = none ∧ k.table.unused = none ∧ k' = k) ∨ (o = none ∧ k.table.unused.isSome ∧ ∃ km,
        k' = (k.setMem km).setTable (k.table.setNextpid (k.table.nextpid + 1)) ∧
        Ledger km k.roots k.held ∧ Keeps k.km km k.roots k.held ∧ k.km.exhausted < km.exhausted) ∨
      ∃ j r tf km, o = some j ∧ k.table.unused = some j ∧
        k' = (k.setMem km).setTable ((k.table.setNextpid (k.table.nextpid + 1)).set j
          ⟨.used, k.table.nextpid, none, 0, 0, ⟨some r, some tf⟩⟩) ∧
        Ledger km (r :: k.roots) (tf :: k.held) ∧ Keeps k.km km k.roots k.held ∧
        UserTable km.mem k.trampoline tf r 0 ∧ km.exhausted = k.km.exhausted := by
  rw [allocproc]
  refine .step rfl ?_
  cases hun : k.table.unused with
  | none => exact .pure (.inl ⟨rfl, rfl, rfl⟩)
  | some j =>
    have hfree := Kernel.free_slot h hun
    refine .step rfl (.step rfl (.step rfl ?_))
    simp only [Kernel.setTable_table, Kernel.setTable_setTable, ProcTable.setNextpid_proc, hfree]
    -- a slot that is freed again is as it was
    have hback : (k.table.setNextpid (k.table.nextpid + 1)).set j (Proc.free ⟨none, none⟩) =
        k.table.setNextpid (k.table.nextpid + 1) := by
      rw [← hfree, ← ProcTable.setNextpid_proc k.table (k.table.nextpid + 1), ProcTable.set_proc_self]
    refine .bind (onMem_meets (kalloc_meets (s := k.km) h.ledger)) ?_
    rintro _ _ ⟨km1, rfl, ⟨rfl, rfl⟩ | ⟨tf, rfl, hl1, hk1, hex1⟩⟩
    · refine (freeproc_meets (R := k.roots) (H := k.held)
        (by simpa [Proc.free] using h.ledger.exhaust) (by simp [Proc.free])).bind ?_
      rintro - _ ⟨km, rfl, hl, hk, hex⟩
      refine Meets.pure (Or.inr (Or.inl ⟨rfl, rfl, km, by simp [ProcTable.set_set, hback], hl, (Keeps.exhaust _ _ _).trans hk, ?_⟩))
      rw [hex]
      exact Nat.lt_succ_self _
    · refine .step rfl (.step rfl ?_)
      refine .bind (onMem_meets (procPagetable_meets hl1 (Nat.lt_of_le_of_lt k.roots_length (by decide)))) ?_
      rintro _ _ ⟨km2, rfl, ⟨rfl, hl2, hk2, hex2⟩ | ⟨r, rfl, hl2, hk2, ht2, hex2⟩⟩
      · refine (freeproc_meets (R := k.roots) (H := k.held)
          (by simpa [Proc.free] using hl2) (by simp [Proc.free])).bind ?_
        rintro - _ ⟨km, rfl, hl, hk, hex⟩
        refine .pure (.inr (.inl ⟨rfl, rfl, km, by simp [ProcTable.set_set, hback], hl, ?_, ?_⟩))
        · exact (hk1.trans (hk2.mono (.refl _) (List.sublist_cons_self ..))).trans hk
        · rw [hex, ← hex1]
          exact hex2
      · refine .step rfl (.pure (.inr (.inr ⟨j, r, tf, km2, rfl, rfl, ?_, hl2, ?_, ht2, ?_⟩)))
        · simp [ProcTable.set_set, Proc.free]
        · exact hk1.trans (hk2.mono (.refl _) (List.sublist_cons_self ..))
        · exact hex2.trans hex1

end Slots

/-! ## The operations one by one -/

/-- What a step does: the invariant holds again, and the address spaces are changed as they should
be, or in one of the ways in which they may be when a call of `kalloc` has returned 0. -/
structure StepOk (l : Label) (k : Kernel) (o : Option Int) (k' : Kernel) : Prop where
  inv : KInv k'
  effect : (k'.km.exhausted = k.km.exhausted ∧ Spaces.step none l k.spaces = (o, k'.spaces)) ∨
    (k.km.exhausted < k'.km.exhausted ∧ ∃ lim, Spaces.step (some lim) l k.spaces = (o, k'.spaces))

section Steps

variable {k : Kernel} {i : Fin NPROC}

theorem Kernel.spaces_proc (k : Kernel) (i : Fin NPROC) :
    k.spaces.proc i = (k.table.proc i).map (Image.space k.km.mem) := ProcTable.map_proc ..

theorem Image.space_some (m : Mem) (r : Nat) (tf : Option Nat) : Image.space m ⟨some r, tf⟩ = umem m r := rfl

/-- The address space of a process with a table. -/
theorem Kernel.spaces_mem {tf : Option Nat} (hm : (k.table.proc i).mem = ⟨some r, tf⟩) :
    (k.spaces.proc i).mem = umem k.km.mem r := by
  rw [Kernel.spaces_proc, Proc.map, hm, Image.space_some]

theorem Kernel.spaces_sz (k : Kernel) (i : Fin NPROC) : (k.spaces.proc i).sz = (k.table.proc i).sz := by
  rw [Kernel.spaces_proc]
  rfl

/-- A step that changes the memory of one process and nothing else. -/
theorem KInv.setMem {tf : Nat} (h : KInv k)
    (hi : (k.table.proc i).state = .runnable) (hm : (k.table.proc i).mem = ⟨some r, some tf⟩)
    (hl : Ledger km (r :: k.rootsBut i) (tf :: k.heldBut i)) (hk : SameSpaces k.km km (k.rootsBut i))
    (ht : UserTable km.mem k.trampoline tf r (k.table.proc i).sz) :
    KInv (k.setMem km) ∧ (k.setMem km).spaces = k.spaces.setMem i (umem km.mem r) := by
  have hset : (k.setMem km).setTable (k.table.set i (k.table.proc i)) = k.setMem km := by
    rw [ProcTable.set_proc_self]
    rfl
  have hinv := h.put (p := k.table.proc i) (by rw [hm]; exact hl) hk (.inr ⟨.inl hi, r, tf, hm, ht⟩)
  have hsp := k.spaces_put (p := k.table.proc i) hk
  rw [hset] at hinv hsp
  refine ⟨hinv, hsp.trans ?_⟩
  rw [Spaces.setMem, Kernel.spaces_proc, Proc.map, hm, Image.space_some]
  rfl

/-- `copyout` to a process. -/
theorem copyout_meets {tf dstva : Nat} {src : List UInt8} (h : KInv k)
    (hi : (k.table.proc i).state = .runnable) (hm : (k.table.proc i).mem = ⟨some r, some tf⟩) :
    Meets (fun _ => False) (onMem (copyout r r dstva src)) k fun e k' => ∃ km, k' = k.setMem km ∧ KInv k' ∧
      ∃ n, Spaces.copyout n i dstva src k.spaces = (e, k'.spaces) ∧ ((n = none ∧ km.exhausted = k.km.exhausted) ∨
          (n.isSome ∧ e = -1 ∧ k.km.exhausted < km.exhausted)) := by
  obtain ⟨r', tf', hm', ht, hl⟩ := h.actor hi
  rw [hm] at hm'
  cases hm'
  refine (onMem_meets (copyoutLoop_meets hl (.inl ⟨rfl, ht.kernelHigh⟩) (Nat.le_refl src.length))).weaken ?_
  rintro e _ ⟨km, rfl, hl', hk', hhigh, n, hval, hcase⟩
  have hum : umem km.mem r = (UMem.copyout n (umem k.km.mem r) dstva src).2 := by rw [hval]
  obtain ⟨hinv, hsp⟩ := h.setMem hi hm hl' hk'.sameSpaces (ht.congr ht.fits (by
    rw [hum]
    exact ht.pages.copyout n dstva src) hhigh)
  refine ⟨km, rfl, hinv, ?_⟩
  rcases hcase with ⟨rfl, hex⟩ | ⟨rfl, hex⟩
  · refine ⟨none, ?_, .inl ⟨rfl, hex⟩⟩
    rw [Spaces.copyout, Option.getD_none, Kernel.spaces_mem hm, hval, hsp]
  · refine ⟨some n, ?_, .inr ⟨rfl, rfl, hex⟩⟩
    rw [Spaces.copyout, Option.getD_some, Kernel.spaces_mem hm, hval, hsp]

end Steps

end Xv6.Vm
