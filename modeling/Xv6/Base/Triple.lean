import Xv6.Base.StateExcept

/-!
# Specifications of computations that can fail

`Meets E x s Q`: started in state `s`, the computation `x` ends with a result and a state that satisfy
`Q`, or it fails with one of the errors `E`. With `E` empty it always ends. The rules follow the way
computations are put together.
-/

set_option autoImplicit false

namespace Xv6.Base

universe u

variable {ε σ α β : Type u}

/-- `x`, started in `s`, ends as `Q` says or fails with an error of `E`. -/
structure Meets (E : ε → Prop) (x : StateT σ (Except ε) α) (s : σ) (Q : α → σ → Prop) : Prop where
  post : ∀ a t, x s = .ok (a, t) → Q a t
  fails : FailsOnly E x s

namespace Meets

variable {E : ε → Prop} {x : StateT σ (Except ε) α} {f : α → StateT σ (Except ε) β} {s : σ}
  {Q R : α → σ → Prop}

theorem of_ok {a : α} {t : σ} (h : x s = .ok (a, t)) (hQ : Q a t) : Meets E x s Q where
  post := by
    intro b u hb
    rw [h] at hb
    obtain ⟨rfl, rfl⟩ := ok_pair_inj hb
    exact hQ
  fails := by
    intro e he
    rw [h] at he
    cases he

theorem of_error {e : ε} (h : x s = .error e) (he : E e) : Meets E x s Q where
  post := by
    intro a t hat
    rw [h] at hat
    cases hat
  fails := by
    intro e' he'
    rw [h] at he'
    injection he' with he'
    exact he' ▸ he

theorem pure {a : α} (h : Q a s) : Meets E (Pure.pure a : StateT σ (Except ε) α) s Q := of_ok rfl h

theorem throw {e : ε} (h : E e) : Meets E (MonadExcept.throw e : StateT σ (Except ε) α) s Q := of_error rfl h

theorem bind {Q : β → σ → Prop} (hx : Meets E x s R) (hf : ∀ a t, R a t → Meets E (f a) t Q) :
    Meets E (x >>= f) s Q where
  post := by
    intro b u hb
    obtain ⟨a, t, hat, hbu⟩ := bind_ok hb
    exact (hf a t (hx.post a t hat)).post b u hbu
  fails := by
    intro e he
    rw [bind_apply] at he
    cases hxs : x s with
    | error e' =>
      rw [hxs] at he
      cases he
      exact hx.fails _ hxs
    | ok p =>
      rw [hxs] at he
      exact (hf p.1 p.2 (hx.post p.1 p.2 hxs)).fails e he

theorem map {g : α → β} {Q : β → σ → Prop} (hx : Meets E x s fun a t => Q (g a) t) : Meets E (g <$> x) s Q :=
  Meets.bind (f := fun a => Pure.pure (g a)) hx fun _ _ h => pure h

/-- A first part whose outcome is known. -/
theorem step {Q : β → σ → Prop} {a : α} {t : σ} (hx : x s = .ok (a, t)) (hf : Meets E (f a) t Q) :
    Meets E (x >>= f) s Q := by
  refine .bind (R := fun b u => b = a ∧ u = t) (of_ok hx ⟨rfl, rfl⟩) ?_
  rintro b u ⟨rfl, rfl⟩
  exact hf

theorem ite {c : Prop} [Decidable c] {y : StateT σ (Except ε) α} (hx : c → Meets E x s Q)
    (hy : ¬ c → Meets E y s Q) : Meets E (if c then x else y) s Q := by
  split_ifs with h
  · exact hx h
  · exact hy h

theorem weaken (h : Meets E x s R) (hRQ : ∀ a t, R a t → Q a t) : Meets E x s Q :=
  ⟨fun a t hat => hRQ a t (h.post a t hat), h.fails⟩

/-- More errors are allowed. -/
theorem mono {E' : ε → Prop} (h : Meets E x s Q) (hE : ∀ e, E e → E' e) : Meets E' x s Q :=
  ⟨h.post, fun e he => hE e (h.fails e he)⟩

/-- What counts is what the computation does in `s`. -/
theorem congr {y : StateT σ (Except ε) α} (h : x s = y s) (hy : Meets E y s Q) : Meets E x s Q :=
  ⟨fun a t hat => hy.post a t (h ▸ hat), fun e he => hy.fails e (h ▸ he)⟩

/-- The two ways to end. -/
theorem outcome (h : Meets E x s Q) : (∃ a t, x s = .ok (a, t) ∧ Q a t) ∨ ∃ e, x s = .error e ∧ E e := by
  cases hx : x s with
  | ok p => exact .inl ⟨p.1, p.2, rfl, h.post p.1 p.2 hx⟩
  | error e => exact .inr ⟨e, rfl, h.fails e hx⟩

/-- A computation that cannot fail ends. -/
theorem returns (h : Meets (fun _ => False) x s Q) : ∃ a t, x s = .ok (a, t) ∧ Q a t := by
  rcases h.outcome with hok | ⟨e, -, he⟩
  · exact hok
  · exact he.elim

theorem total (h : Meets (fun _ => False) x s Q) : Returns x s := by
  obtain ⟨a, t, hok, -⟩ := h.returns
  exact ⟨a, t, hok⟩

/-- A computation that fails only if `c` is false. -/
theorem returns_if {c : Prop} (h : Meets (fun _ => ¬ c) x s Q) (hc : c) : ∃ a t, x s = .ok (a, t) ∧ Q a t :=
  (h.mono fun _ hn => hn hc).returns

end Meets

end Xv6.Base
