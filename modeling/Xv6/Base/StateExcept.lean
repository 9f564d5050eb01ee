import Mathlib.Tactic

/-!
# Computations on a state that can fail

Kernel code runs in `StateT σ (Except ε)`: it transforms the state, or it panics and the machine
stops. The lemmas peel a completed computation apart along its binds.
-/

set_option autoImplicit false

namespace Xv6.Base

universe u

variable {ε σ α β : Type u}

theorem bind_apply (x : StateT σ (Except ε) α) (f : α → StateT σ (Except ε) β) (s : σ) :
    (x >>= f) s = (x s).bind fun p => f p.1 p.2 := rfl

theorem ite_run (c : Prop) [Decidable c] (x y : StateT σ (Except ε) α) (s : σ) :
    (if c then x else y) s = if c then x s else y s := by
  split <;> rfl

theorem ok_bind (p : α) (f : α → Except ε β) : (Except.ok p).bind f = f p := rfl

theorem error_bind (e : ε) (f : α → Except ε β) : (Except.error e).bind f = .error e := rfl

/-- A sequence that completes is a first part that completes followed by the rest. -/
theorem bind_eq_ok_iff (x : StateT σ (Except ε) α) (f : α → StateT σ (Except ε) β) (s : σ) (r : β × σ) :
    (x >>= f) s = .ok r ↔ ∃ a t, x s = .ok (a, t) ∧ f a t = .ok r := by
  show (x s >>= fun p => f p.1 p.2) = .ok r ↔ _
  cases hx : x s with
  | error e =>
    constructor
    · intro h
      cases h
    · rintro ⟨a, t, h, -⟩
      cases h
  | ok p =>
    constructor
    · intro h
      exact ⟨p.1, p.2, rfl, h⟩
    · rintro ⟨a, t, h, hf⟩
      cases h
      exact hf

theorem bind_ok {x : StateT σ (Except ε) α} {f : α → StateT σ (Except ε) β} {s : σ} {r : β × σ}
    (h : (x >>= f) s = .ok r) : ∃ a t, x s = .ok (a, t) ∧ f a t = .ok r :=
  (bind_eq_ok_iff _ _ _ _).1 h

theorem ok_pair_inj {a b : α} {s t : σ} (h : (Except.ok (a, s) : Except ε (α × σ)) = .ok (b, t)) : b = a ∧ t = s := by
  injection h with h
  injection h with h1 h2
  exact ⟨h1.symm, h2.symm⟩

/-- A computation whose result is known to be there. -/
theorem ok_of_toOption {ε α : Type} {x : Except ε α} {a : α} (h : x.toOption = some a) : x = .ok a := by
  cases x with
  | error e => cases h
  | ok b =>
    cases h
    rfl

theorem pure_ok {a b : α} {s t : σ} (h : (pure a : StateT σ (Except ε) α) s = .ok (b, t)) :
    b = a ∧ t = s := ok_pair_inj h

/-- The last step of a sequence only returns something. -/
theorem bind_pure_ok {x : StateT σ (Except ε) α} {g : α → β} {s t : σ} {b : β}
    (h : (x >>= fun a => pure (g a)) s = .ok (b, t)) : ∃ a, x s = .ok (a, t) ∧ b = g a := by
  obtain ⟨a, u, ha, hb⟩ := bind_ok h
  obtain ⟨rfl, rfl⟩ := pure_ok hb
  exact ⟨a, ha, rfl⟩

theorem throw_ne_ok (e : ε) (s : σ) (r : α × σ) : (throw e : StateT σ (Except ε) α) s ≠ .ok r := by
  intro h
  cases h

/-- Sequencing after a computation whose result is known. -/
theorem bind_of_ok {x : StateT σ (Except ε) α} {s t : σ} {a : α} (h : x s = .ok (a, t))
    (f : α → StateT σ (Except ε) β) : (x >>= f) s = f a t := by
  show (x s >>= fun p => f p.1 p.2) = f a t
  rw [h]
  rfl

/-! ## Computations that complete -/

/-- The computation completes from `s`. -/
def Returns (x : StateT σ (Except ε) α) (s : σ) : Prop := ∃ a t, x s = .ok (a, t)

/-- If the computation fails from `s`, it fails with one of the errors `E`. -/
def FailsOnly (E : ε → Prop) (x : StateT σ (Except ε) α) (s : σ) : Prop :=
  ∀ e, x s = .error e → E e

end Xv6.Base
