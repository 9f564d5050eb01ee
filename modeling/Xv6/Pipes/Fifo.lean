import Xv6.Pipes.Model

/-!
# A pipe is a FIFO queue

Along every run from an empty pipe, the bytes taken out of `data[]` are a prefix of the bytes
stored, and the ring holds exactly the rest (`pipe_fifo`). The counters may wrap any number of
times: the invariant is `Ring.Holds`, which compares them modulo `2 ^ 32` only.
-/

set_option autoImplicit false

namespace Xv6.Pipes

open Xv6.Base

theorem pipesize_dvd : PIPESIZE ∣ 2 ^ 32 := by decide

theorem pipesize_lt : PIPESIZE < 2 ^ 32 := by decide

/-- The effect of a label on the queue of bytes in the pipe. -/
inductive Effect (pi : Pipe) : Label → Pipe → Prop
  | none {l : Label} {pi' : Pipe} : pi'.data = pi.data → pi'.nread = pi.nread →
      pi'.nwrite = pi.nwrite → stored [l] = [] → taken [l] = [] → Effect pi l pi'
  | store (c : UInt8) : pi.nwrite ≠ pi.nread + UInt32.ofNat PIPESIZE →
      Effect pi (.stored c) (pi.store c)
  | take (ok : Bool) : pi.nread ≠ pi.nwrite → Effect pi (.taken pi.front ok) pi.advance

theorem Effect.refl (pi : Pipe) {l : Label} (hs : stored [l] = []) (ht : taken [l] = []) : Effect pi l pi :=
  Effect.none rfl rfl rfl hs ht

section Passes

variable {pi : Pipe} {o : Outcome}

theorem WritePass.effect {killed : Bool} {addr : UInt64} {n : Int} {i : Nat} (h : WritePass pi killed addr n i o) :
    Effect pi o.label o.pipe := by
  cases h with
  | early | full | done => exact Effect.refl pi rfl rfl
  | store c _ hfull => exact Effect.store c hfull

theorem ReadPass.effect (h : ReadPass pi o) : Effect pi o.label o.pipe := by
  cases h with
  | killed | wait | begin => exact Effect.refl pi rfl rfl

theorem CopyPass.effect (h : CopyPass pi o) : Effect pi o.label o.pipe := by
  cases h with
  | take _ _ _ hne | fault _ hne => exact Effect.take _ hne
  | done => exact Effect.refl pi rfl rfl

end Passes

theorem contStep_effect (pi : Pipe) (killed : Bool) (ch : Option UInt8) (ok : Bool) (k : Cont) :
    Effect pi (contStep pi killed ch ok k).label (contStep pi killed ch ok k).pipe := by
  cases k with
  | write addr n i => exact (pipewriteStep_pass pi killed ch addr n i).effect
  | read addr n => exact (pipereadStep_pass pi killed addr n).effect
  | copy addr n i => exact (pipecopyStep_pass pi ok addr n i).effect

/-- Closing an end touches neither the bytes nor the counters. -/
theorem pipeclose_effect (s : Sys) (writable : Bool) : Effect s.pipe .silent (pipeclose s writable).pipe := by
  cases writable with
  | true | false => exact Effect.none rfl rfl rfl rfl rfl

/-- Every step of the system changes the pipe by one effect. -/
theorem step_effect {s t : Sys} {l : Label} (h : Step s l t) : Effect s.pipe l t.pipe := by
  cases h with
  | callWrite p addr n _ _ | callRead p addr n _ _ | acquire p k _ _ | kill p => exact Effect.refl s.pipe rfl rfl
  | pass p k ch ok _ _ => exact contStep_effect s.pipe (s.killed p) ch ok k
  | close writable _ _ => exact pipeclose_effect s writable

theorem stored_snoc (ls : List Label) (l : Label) : stored (ls ++ [l]) = stored ls ++ stored [l] := by
  simp [stored, List.filterMap_append]

theorem taken_snoc (ls : List Label) (l : Label) : taken (ls ++ [l]) = taken ls ++ taken [l] := by
  simp [taken, List.filterMap_append]

/-- The queue invariant: the bytes stored are the bytes taken followed by what the ring holds. -/
def Queue (ls : List Label) (pi : Pipe) : Prop :=
  ∃ q, stored ls = taken ls ++ q ∧ Ring.Holds pi.data pi.nread pi.nwrite q

theorem queue_effect {ls : List Label} {pi pi' : Pipe} {l : Label} (hq : Queue ls pi)
    (h : Effect pi l pi') : Queue (ls ++ [l]) pi' := by
  obtain ⟨q, hst, hring⟩ := hq
  unfold Queue
  rw [stored_snoc, taken_snoc]
  cases h with
  | none hd hr hw hs ht =>
    refine ⟨q, ?_, ?_⟩
    · rw [hs, ht, List.append_nil, List.append_nil]
      exact hst
    · rw [hd, hr, hw]
      exact hring
  | store c hfull =>
    have hroom : q.length < PIPESIZE := by
      have hne : q.length ≠ PIPESIZE := fun he => hfull ((hring.full_iff pipesize_lt).2 he)
      have := hring.length_le
      omega
    refine ⟨q ++ [c], ?_, hring.push pipesize_dvd pipesize_lt hroom c⟩
    rw [hst]
    simp [stored, taken]
  | take ok hne =>
    cases q with
    | nil => exact absurd (hring.eq_nil_iff.1 rfl) hne
    | cons x q' =>
      obtain ⟨hfront, hring'⟩ := hring.pop
      refine ⟨q', ?_, hring'⟩
      have hx : pi.front = x := hfront
      rw [hst, hx]
      simp [stored, taken]

/-- Along every run from an empty pipe, whatever its counters are, the number of pending bytes is
at most `PIPESIZE`, the bytes taken are a prefix of the bytes stored, and the ring holds exactly
the remaining bytes, in order, from `nread` on. -/
theorem pipe_fifo {s t : Sys} {ls : List Label} (hempty : s.pipe.nread = s.pipe.nwrite)
    (h : Run Step s ls t) :
    (t.pipe.nwrite - t.pipe.nread).toNat ≤ PIPESIZE ∧
      ∃ rest : List UInt8, stored ls = taken ls ++ rest ∧
        rest.length = (t.pipe.nwrite - t.pipe.nread).toNat ∧
        ∀ k (hk : k < rest.length),
          t.pipe.data (Ring.cell PIPESIZE (t.pipe.nread + UInt32.ofNat k)) = rest[k] := by
  have hinv : Queue ls t.pipe := by
    refine h.invariant (P := fun ls s => Queue ls s.pipe) ⟨[], rfl, ?_⟩ ?_
    · rw [← hempty]
      exact Ring.Holds.empty s.pipe.data s.pipe.nread
    · intro ls t l u hq hs
      exact queue_effect hq (step_effect hs)
  obtain ⟨q, hst, hring⟩ := hinv
  refine ⟨?_, q, hst, hring.length_eq, hring.get⟩
  have hlen : q.length = (t.pipe.nwrite - t.pipe.nread).toNat := hring.length_eq
  rw [← hlen]
  exact hring.length_le

/-- A process writes the one byte 7 into a fresh pipe: call, `acquire`, one pass. -/
theorem pipe_fifo_one_byte :
    ∃ (t : Sys) (ls : List Label), Run Step (Sys.init fun _ => 5) ls t ∧ stored ls = [7] ∧
      (t.pipe.nwrite - t.pipe.nread).toNat ≤ PIPESIZE ∧
      ∃ rest : List UInt8, stored ls = taken ls ++ rest ∧
        rest.length = (t.pipe.nwrite - t.pipe.nread).toNat ∧
        ∀ k (hk : k < rest.length),
          t.pipe.data (Ring.cell PIPESIZE (t.pipe.nread + UInt32.ofNat k)) = rest[k] := by
  have hcall := Run.single (Step.callWrite (Sys.init fun _ => 5) 0 0 1 rfl rfl)
  have hacq := hcall.snoc (Step.acquire _ 0 (.write 0 1 0) (by simp) rfl)
  have hpass := hacq.snoc (Step.pass _ 0 (.write 0 1 0) (some 7) true (by simp) rfl)
  exact ⟨_, _, hpass, rfl, pipe_fifo rfl hpass⟩

end Xv6.Pipes
