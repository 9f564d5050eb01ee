import Mathlib.Data.UInt
import Mathlib.Tactic

/-!
# Bounded queues on free-running 32-bit counters

A ring of `N` cells is addressed by two 32-bit counters that are only ever incremented and wrap
at `2 ^ 32`: the reader's counter `r` and the writer's counter `w`. The cell for a counter value
`c` is `c % N`. `Holds buf r w q` says that the ring holds exactly the queue `q`, oldest element
first. When `N` divides `2 ^ 32` the relation survives the wrap of either counter, and "full"
and "empty" can be told from the counters alone.
-/

set_option autoImplicit false

namespace Xv6.Base.Ring

universe u

variable {α : Type u} {N : Nat}

/-- Number of elements between the reader's and the writer's counter, `w - r` modulo `2 ^ 32`. -/
def pending (r w : UInt32) : Nat := (w - r).toNat

/-- The cell a counter value addresses. -/
def cell (N : Nat) [NeZero N] (c : UInt32) : Fin N := Fin.ofNat N c.toNat

/-- The ring `buf` with reader counter `r` and writer counter `w` holds the queue `q`. -/
structure Holds [NeZero N] (buf : Fin N → α) (r w : UInt32) (q : List α) : Prop where
  length_eq : q.length = pending r w
  length_le : q.length ≤ N
  get : ∀ k (h : k < q.length), buf (cell N (r + UInt32.ofNat k)) = q[k]

theorem pending_self (r : UInt32) : pending r r = 0 := by
  simp [pending]

theorem pending_eq_zero_iff (r w : UInt32) : pending r w = 0 ↔ r = w := by
  constructor
  · intro h
    have h' : w - r = 0 := UInt32.toNat_inj.1 (by simpa [pending] using h)
    exact (sub_eq_zero.1 h').symm
  · rintro rfl
    exact pending_self r

/-- The writer's counter is the reader's plus the number of pending elements. -/
theorem add_pending (r w : UInt32) : r + UInt32.ofNat (pending r w) = w := by
  simp [pending]

variable {r w : UInt32}

theorem pending_succ_right (h : pending r w + 1 < 2 ^ 32) : pending r (w + 1) = pending r w + 1 := by
  have e : w + 1 - r = (w - r) + 1 := by grind
  unfold pending at h ⊢
  rw [e, UInt32.toNat_add]
  exact Nat.mod_eq_of_lt h

theorem pending_succ_left (h : 0 < pending r w) : pending (r + 1) w = pending r w - 1 := by
  have e : w - (r + 1) = (w - r) - 1 := by grind
  unfold pending at h ⊢
  rw [e, UInt32.toNat_sub_of_le]
  · rfl
  · rw [UInt32.le_iff_toNat_le]
    exact h

section Capacity

variable [NeZero N]

theorem cell_eq_iff (a b : UInt32) : cell N a = cell N b ↔ a.toNat % N = b.toNat % N := by
  simp [cell, Fin.ext_iff, Fin.ofNat]

/-- Offsets below the capacity address different cells, also across the wrap of the counter,
because the capacity divides `2 ^ 32`. -/
theorem cell_add_injective (hN : N ∣ 2 ^ 32) (r : UInt32) {i j : Nat} (hi : i < N) (hj : j < N)
    (h : cell N (r + UInt32.ofNat i) = cell N (r + UInt32.ofNat j)) : i = j := by
  have hval : ∀ k, (r + UInt32.ofNat k).toNat % N = (r.toNat + k) % N := by
    intro k
    rw [UInt32.toNat_add, UInt32.toNat_ofNat', Nat.mod_mod_of_dvd _ hN, Nat.add_mod,
      Nat.mod_mod_of_dvd _ hN, ← Nat.add_mod]
  rw [cell_eq_iff, hval, hval] at h
  have h' : i % N = j % N := Nat.ModEq.add_left_cancel' r.toNat h
  rwa [Nat.mod_eq_of_lt hi, Nat.mod_eq_of_lt hj] at h'

theorem Holds.empty (buf : Fin N → α) (r : UInt32) : Holds buf r r [] :=
  ⟨(pending_self r).symm, Nat.zero_le N, fun k h => absurd h (Nat.not_lt_zero k)⟩

variable {buf : Fin N → α} {q : List α}

theorem Holds.eq_nil_iff (h : Holds buf r w q) : q = [] ↔ r = w := by
  rw [← pending_eq_zero_iff, ← h.length_eq, List.length_eq_zero_iff]

/-- The test `w == r + N` recognises exactly the full ring. -/
theorem Holds.full_iff (h : Holds buf r w q) (hN : N < 2 ^ 32) : w = r + UInt32.ofNat N ↔ q.length = N := by
  constructor
  · intro hw
    have e : w - r = UInt32.ofNat N := by rw [hw]; grind
    rw [h.length_eq, pending, e, UInt32.toNat_ofNat', Nat.mod_eq_of_lt hN]
  · intro hq
    rw [← add_pending r w, ← h.length_eq, hq]

/-- Storing at the writer's counter and advancing it appends to the queue. -/
theorem Holds.push (h : Holds buf r w q) (hN : N ∣ 2 ^ 32) (hlt : N < 2 ^ 32) (hroom : q.length < N) (x : α) :
    Holds (Function.update buf (cell N w) x) r (w + 1) (q ++ [x]) := by
  have hw : w = r + UInt32.ofNat q.length := by rw [h.length_eq, add_pending]
  refine ⟨?_, ?_, ?_⟩
  · rw [List.length_append, List.length_singleton, h.length_eq]
    rw [h.length_eq] at hroom
    exact (pending_succ_right (by omega)).symm
  · rw [List.length_append, List.length_singleton]
    omega
  · intro k hk
    rw [List.length_append, List.length_singleton] at hk
    by_cases hkq : k < q.length
    · have hne : cell N (r + UInt32.ofNat k) ≠ cell N w := by
        intro he
        rw [hw] at he
        have := cell_add_injective hN r (by omega) hroom he
        omega
      rw [Function.update_of_ne hne, List.getElem_append_left hkq]
      exact h.get k hkq
    · have hkeq : k = q.length := by omega
      subst hkeq
      rw [← hw, Function.update_self]
      simp

/-- Reading at the reader's counter and advancing it removes the oldest element. -/
theorem Holds.pop {x : α} (h : Holds buf r w (x :: q)) : buf (cell N r) = x ∧ Holds buf (r + 1) w q := by
  have hpos : 0 < pending r w := by rw [← h.length_eq]; simp
  refine ⟨?_, ?_, ?_, ?_⟩
  · have hget := h.get 0 (by simp)
    rw [List.getElem_cons_zero] at hget
    rw [← hget]
    simp
  · rw [pending_succ_left hpos, ← h.length_eq]
    simp
  · have := h.length_le
    simp only [List.length_cons] at this
    omega
  · intro k hk
    have hget := h.get (k + 1) (by simp only [List.length_cons]; omega)
    have e : r + 1 + UInt32.ofNat k = r + UInt32.ofNat (k + 1) := by
      rw [UInt32.ofNat_add]
      grind
    rw [e, hget, List.getElem_cons_succ]

/-- Moving the writer's counter back removes the newest element. -/
theorem Holds.pop_back {x : α} (h : Holds buf r w (q ++ [x])) : buf (cell N (w - 1)) = x ∧ Holds buf r (w - 1) q := by
  have hlen := h.length_eq
  rw [List.length_append, List.length_singleton] at hlen
  have hw : w - 1 = r + UInt32.ofNat q.length := by
    rw [← add_pending r w, ← hlen, UInt32.ofNat_add]
    grind
  have hlt : q.length < 2 ^ 32 := by
    have hp : pending r w < 2 ^ 32 := (w - r).toNat_lt
    omega
  refine ⟨?_, ?_, ?_, fun k hk => ?_⟩
  · have hget := h.get q.length (by simp)
    rw [← hw] at hget
    rw [hget]
    simp
  · have e : w - 1 - r = UInt32.ofNat q.length := by
      rw [hw]
      grind
    rw [pending, e, UInt32.toNat_ofNat', Nat.mod_eq_of_lt hlt]
  · have hle := h.length_le
    rw [List.length_append] at hle
    omega
  · rw [h.get k (by rw [List.length_append]; omega), List.getElem_append_left hk]

end Capacity

end Xv6.Base.Ring
