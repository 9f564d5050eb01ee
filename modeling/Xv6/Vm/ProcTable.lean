import Mathlib.Data.List.FinRange
import Mathlib.Tactic
import Xv6.Base.Param

/-!
# The process table

The part of `kernel/proc.c` that does not touch memory: the slots of the table, the search for a free
slot and for a child that has exited, and the passing on of children. What a process has in the way
of memory is a parameter, so that the kernel, its specification and the kernel it is compared with
share one table.

A process that sleeps or runs is `runnable` here: who runs is decided by whoever picks the next step.
-/

set_option autoImplicit false

namespace Xv6.Vm

open Function

/-- `enum procstate`, without the states of the scheduler. -/
inductive ProcState
  | unused
  | used
  | runnable
  | zombie
  deriving DecidableEq, Repr

/-- `struct proc` of a process whose memory is a `μ`. -/
@[ext]
structure Proc (μ : Type) where
  state : ProcState
  pid : Nat
  parent : Option (Fin NPROC)
  xstate : Int
  sz : Nat
  mem : μ

/-- A slot as `freeproc` leaves it. -/
def Proc.free {μ : Type} (mem : μ) : Proc μ := ⟨.unused, 0, none, 0, 0, mem⟩

/-- The same process with another kind of memory. -/
def Proc.map {μ ν : Type} (f : μ → ν) (p : Proc μ) : Proc ν :=
  ⟨p.state, p.pid, p.parent, p.xstate, p.sz, f p.mem⟩

/-- The process table, `nextpid` and `initproc`. -/
@[ext]
structure ProcTable (μ : Type) where
  proc : Fin NPROC → Proc μ
  nextpid : Nat
  initproc : Option (Fin NPROC)

variable {i j : Fin NPROC}

namespace ProcTable

variable {μ ν : Type}

def map (f : μ → ν) (t : ProcTable μ) : ProcTable ν :=
  ⟨fun i => (t.proc i).map f, t.nextpid, t.initproc⟩

/-- Replace a slot. -/
def set (t : ProcTable μ) (i : Fin NPROC) (p : Proc μ) : ProcTable μ :=
  { t with proc := update t.proc i p }

def setNextpid (t : ProcTable μ) (n : Nat) : ProcTable μ := { t with nextpid := n }

def setInitproc (t : ProcTable μ) (i : Fin NPROC) : ProcTable μ := { t with initproc := some i }

/-- The first slot that `allocproc` finds. -/
def unused (t : ProcTable μ) : Option (Fin NPROC) :=
  (List.finRange NPROC).find? fun i => (t.proc i).state == .unused

/-- The first exited child that `wait` finds. -/
def zombieChild (t : ProcTable μ) (i : Fin NPROC) : Option (Fin NPROC) :=
  (List.finRange NPROC).find? fun j =>
    (t.proc j).parent == some i && (t.proc j).state == .zombie

/-- `havekids` at the end of the scan in `wait`. -/
def haveKids (t : ProcTable μ) (i : Fin NPROC) : Bool :=
  (List.finRange NPROC).any fun j => (t.proc j).parent == some i

/-- `reparent(p)`. -/
def reparent (t : ProcTable μ) (i : Fin NPROC) : ProcTable μ :=
  { t with proc := fun j =>
      if (t.proc j).parent = some i then { t.proc j with parent := t.initproc } else t.proc j }

/-- What `exit(status)` does to the table. -/
def exit (t : ProcTable μ) (i : Fin NPROC) (status : Int) : ProcTable μ :=
  let t' := t.reparent i
  t'.set i { t'.proc i with xstate := status, state := .zombie }

/-- The table before the first process. -/
def init (mem : μ) : ProcTable μ := ⟨fun _ => Proc.free mem, 1, none⟩

@[simp]
theorem set_self (t : ProcTable μ) (i : Fin NPROC) (p : Proc μ) : (t.set i p).proc i = p :=
  update_self ..

theorem set_of_ne (t : ProcTable μ) (h : j ≠ i) (p : Proc μ) : (t.set i p).proc j = t.proc j :=
  update_of_ne h ..

@[simp]
theorem set_nextpid (t : ProcTable μ) (i : Fin NPROC) (p : Proc μ) : (t.set i p).nextpid = t.nextpid := rfl

@[simp]
theorem set_initproc (t : ProcTable μ) (i : Fin NPROC) (p : Proc μ) : (t.set i p).initproc = t.initproc := rfl

@[simp]
theorem map_proc (f : μ → ν) (t : ProcTable μ) (i : Fin NPROC) : (t.map f).proc i = (t.proc i).map f := rfl

@[simp]
theorem map_nextpid (f : μ → ν) (t : ProcTable μ) : (t.map f).nextpid = t.nextpid := rfl

@[simp]
theorem map_initproc (f : μ → ν) (t : ProcTable μ) : (t.map f).initproc = t.initproc := rfl

@[simp]
theorem setNextpid_proc (t : ProcTable μ) (n : Nat) : (t.setNextpid n).proc = t.proc := rfl

@[simp]
theorem setInitproc_proc (t : ProcTable μ) (i : Fin NPROC) : (t.setInitproc i).proc = t.proc := rfl

@[simp]
theorem setNextpid_nextpid (t : ProcTable μ) (n : Nat) : (t.setNextpid n).nextpid = n := rfl

theorem setInitproc_set (t : ProcTable μ) (j i : Fin NPROC) (p : Proc μ) :
    (t.setInitproc j).set i p = (t.set i p).setInitproc j := rfl

variable {t : ProcTable μ}

/-- Tables that differ in the replaced slot only. -/
theorem set_congr {t' : ProcTable μ} (p : Proc μ) (h : ∀ j, j ≠ i → t.proc j = t'.proc j) (hn : t.nextpid = t'.nextpid)
    (hi : t.initproc = t'.initproc) : t.set i p = t'.set i p := by
  refine ProcTable.ext (funext fun j => ?_) hn hi
  by_cases hj : j = i
  · subst hj
    rw [set_self, set_self]
  · rw [set_of_ne _ hj, set_of_ne _ hj]
    exact h j hj

theorem set_set (t : ProcTable μ) (i : Fin NPROC) (p q : Proc μ) : (t.set i p).set i q = t.set i q := by
  unfold set
  simp only [update_idem]

theorem set_proc_self (t : ProcTable μ) (i : Fin NPROC) : t.set i (t.proc i) = t := by
  refine ProcTable.ext (funext fun j => ?_) rfl rfl
  by_cases hj : j = i
  · subst hj
    rw [set_self]
  · rw [set_of_ne _ hj]

theorem map_set (f : μ → ν) (t : ProcTable μ) (i : Fin NPROC) (p : Proc μ) :
    (t.set i p).map f = (t.map f).set i (p.map f) := by
  refine ProcTable.ext (funext fun j => ?_) rfl rfl
  show ((t.set i p).proc j).map f = ((t.map f).set i (p.map f)).proc j
  by_cases hj : j = i
  · subst hj
    rw [set_self, set_self]
  · rw [set_of_ne _ hj, set_of_ne _ hj]
    rfl

/-- A slot after a process has exited. -/
theorem exit_proc (t : ProcTable μ) (i j : Fin NPROC) (status : Int) : (t.exit i status).proc j = { t.proc j with
        parent := if (t.proc j).parent = some i then t.initproc else (t.proc j).parent
        state := if j = i then .zombie else (t.proc j).state
        xstate := if j = i then status else (t.proc j).xstate } := by
  have hre : (t.reparent i).proc j = { t.proc j with
      parent := if (t.proc j).parent = some i then t.initproc else (t.proc j).parent } := by
    unfold reparent
    simp only
    split_ifs <;> rfl
  unfold exit
  by_cases hj : j = i
  · subst hj
    rw [set_self, hre]
    simp
  · rw [set_of_ne _ hj, hre]
    simp [hj]

theorem map_exit (f : μ → ν) (t : ProcTable μ) (i : Fin NPROC) (status : Int) :
    (t.exit i status).map f = (t.map f).exit i status := by
  refine ProcTable.ext (funext fun j => ?_) rfl rfl
  show ((t.exit i status).proc j).map f = _
  rw [exit_proc, exit_proc]
  rfl

theorem unused_state (h : t.unused = some i) : (t.proc i).state = .unused := by
  have := List.find?_some h
  simpa using this

theorem zombieChild_state (h : t.zombieChild i = some j) : (t.proc j).state = .zombie := by
  have := List.find?_some h
  simp at this
  exact this.2

end ProcTable

/-! ## Collecting what the slots hold -/

section Collect

variable {α : Type}

/-- What the slots other than `i` hold. -/
def others (i : Fin NPROC) (f : Fin NPROC → Option α) : List α :=
  ((List.finRange NPROC).erase i).filterMap f

/-- What the slots hold. -/
def collect (f : Fin NPROC → Option α) : List α := (List.finRange NPROC).filterMap f

theorem collect_perm (i : Fin NPROC) (f : Fin NPROC → Option α) : (collect f).Perm ((f i).toList ++ others i f) := by
  have hp := (List.perm_cons_erase (List.mem_finRange i)).filterMap f
  refine hp.trans ?_
  cases h : f i with
  | none => rw [List.filterMap_cons_none h]; exact .refl _
  | some a => rw [List.filterMap_cons_some h]; exact .refl _

variable {f : Fin NPROC → Option α}

theorem others_congr {g : Fin NPROC → Option α} (h : ∀ j, j ≠ i → f j = g j) : others i f = others i g := by
  refine List.filterMap_congr fun j hj => h j ?_
  rintro rfl
  exact (List.nodup_finRange NPROC).not_mem_erase hj

theorem mem_others {a : α} (hij : j ≠ i) (h : f j = some a) : a ∈ others i f :=
  List.mem_filterMap.2 ⟨j, (List.mem_erase_of_ne hij).2 (List.mem_finRange j), h⟩

theorem mem_collect {a : α} (h : f j = some a) : a ∈ collect f :=
  List.mem_filterMap.2 ⟨j, List.mem_finRange j, h⟩

theorem collect_length (f : Fin NPROC → Option α) : (collect f).length ≤ NPROC := by
  refine (List.length_filterMap_le _ _).trans ?_
  rw [List.length_finRange]

end Collect

end Xv6.Vm
