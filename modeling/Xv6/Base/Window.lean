import Mathlib.Data.Nat.ModEq
import Mathlib.Tactic

/-!
# Queues in a ring of cells

A ring of `N` cells whose elements are numbered for ever: element number `n` is in cell `n % N`. A
`Window` is a queue in the ring, the elements with the numbers from `first` up to `last`. Counters of a
fixed width hold the numbers modulo `2 ^ w`; if `N` divides `2 ^ w` they lead to the same cells.
-/

set_option autoImplicit false

namespace Xv6.Base

universe u

variable {α : Type u} {N : Nat} [NeZero N]

/-- The elements of the ring with the numbers from `first` up to `last` are those of `q`. -/
structure Window (ring : Fin N → α) (first last : Nat) (q : List α) : Prop where
  last_eq : last = first + q.length
  length_le : q.length ≤ N
  get : ∀ k (h : k < q.length), ring (Fin.ofNat N (first + k)) = q[k]

namespace Window

variable {ring : Fin N → α} {first last : Nat} {q : List α} {x : α}

theorem empty (ring : Fin N → α) (n : Nat) : Window ring n n [] :=
  ⟨rfl, Nat.zero_le N, fun k h => absurd h (Nat.not_lt_zero k)⟩

section

variable (h : Window ring first last q) (hroom : q.length < N)
include h hroom

/-- A cell that is not yet part of the queue is none of its cells. -/
theorem cell_ne {k : Nat} (hk : k < q.length) : Fin.ofNat N (first + k) ≠ Fin.ofNat N last := by
  intro heq
  have hmod : (first + k) % N = (first + q.length) % N := by
    have hval := congrArg Fin.val heq
    rw [h.last_eq] at hval
    exact hval
  have hsame : k % N = q.length % N := Nat.ModEq.add_left_cancel' first hmod
  rw [Nat.mod_eq_of_lt hroom, Nat.mod_eq_of_lt (Nat.lt_trans hk hroom)] at hsame
  omega

/-- Writing to the next cell leaves the queue alone. -/
theorem write (x : α) : Window (Function.update ring (Fin.ofNat N last) x) first last q := by
  refine ⟨h.last_eq, h.length_le, fun k hk => ?_⟩
  rw [Function.update_of_ne (h.cell_ne hroom hk)]
  exact h.get k hk

/-- The element in the next cell joins the queue. -/
theorem push (hx : ring (Fin.ofNat N last) = x) : Window ring first (last + 1) (q ++ [x]) := by
  refine ⟨?_, ?_, fun k hk => ?_⟩
  · rw [List.length_append, List.length_singleton, h.last_eq]
    omega
  · rw [List.length_append, List.length_singleton]
    omega
  · rw [List.length_append, List.length_singleton] at hk
    by_cases hlt : k < q.length
    · rw [List.getElem_append_left hlt]
      exact h.get k hlt
    · have hkq : k = q.length := by omega
      subst hkq
      rw [← h.last_eq, hx]
      simp

end

/-- The oldest element leaves the queue. -/
theorem pop (h : Window ring first last (x :: q)) : ring (Fin.ofNat N first) = x ∧ Window ring (first + 1) last q := by
  have hlast := h.last_eq
  have hle := h.length_le
  rw [List.length_cons] at hlast hle
  refine ⟨?_, ?_, ?_, fun k hk => ?_⟩
  · exact h.get 0 (by simp)
  · omega
  · omega
  · have hget := h.get (k + 1) (by simpa using hk)
    rw [List.getElem_cons_succ] at hget
    rw [← hget]
    congr 2
    omega

end Window

end Xv6.Base
