import Mathlib.Algebra.BigOperators.Group.Finset.Basic
import Mathlib.Algebra.Order.BigOperators.Group.Finset
import Mathlib.Data.Fintype.Basic
import Mathlib.Tactic

/-!
# Sums of a weight over all processes

A global counter that the kernel keeps by hand (the number of running operations, the space they
have reserved) is the sum of a weight of the local states over all processes. A step changes one
local state, or several to local states of the same weight.
-/

set_option autoImplicit false

namespace Xv6.Base

universe u v

variable {P : Type u} [Fintype P] {α : Type v}

/-- Sum of the weight `f` of the local states `g` of all processes. -/
def total (f : α → Nat) (g : P → α) : Nat := ∑ p, f (g p)

/-- Replacing one local state exchanges its weight. -/
theorem total_update [DecidableEq P] (f : α → Nat) (g : P → α) (p : P) (x : α) :
    total f (Function.update g p x) + f (g p) = total f g + f x := by
  unfold total
  have e : (fun q => f (Function.update g p x q)) = Function.update (fun q => f (g q)) p (f x) := by
    funext q
    by_cases h : q = p
    · subst h
      simp
    · simp [h]
  rw [e, Finset.sum_update_of_mem (Finset.mem_univ p),
    ← Finset.add_sum_erase Finset.univ (fun q => f (g q)) (Finset.mem_univ p),
    Finset.erase_eq]
  omega

/-- Local states of equal weight can be exchanged. -/
theorem total_congr {f : α → Nat} {g h : P → α} (hw : ∀ p, f (g p) = f (h p)) : total f g = total f h :=
  Finset.sum_congr rfl fun p _ => hw p

theorem le_total (f : α → Nat) (g : P → α) (p : P) : f (g p) ≤ total f g :=
  Finset.single_le_sum (f := fun q => f (g q)) (fun _ _ => Nat.zero_le _) (Finset.mem_univ p)

theorem total_eq_zero_iff {f : α → Nat} {g : P → α} : total f g = 0 ↔ ∀ p, f (g p) = 0 := by
  simp [total]

/-- A positive total has a process of positive weight. -/
theorem exists_pos_of_total_pos {f : α → Nat} {g : P → α} (h : 0 < total f g) : ∃ p, 0 < f (g p) := by
  by_contra hne
  have hz : total f g = 0 := total_eq_zero_iff.2 fun p =>
    Nat.eq_zero_of_not_pos fun hp => hne ⟨p, hp⟩
  omega

end Xv6.Base
