import Mathlib.Data.List.Induction
import Mathlib.Tactic

/-!
# Labelled transition systems and their runs

Concurrent parts of the kernel are step relations `step s l t`: in state `s` some process makes
the atomic step labelled `l` and the state becomes `t`. A run is a finite sequence of such steps
and carries its labels in order, so that a property of a run can talk about what was observed
along it. `Run.invariant` is the induction every safety result goes through.
-/

set_option autoImplicit false

namespace Xv6.Base

universe u v

variable {σ : Type u} {ℓ : Type v}

/-- `Run step s ls t`: the steps with labels `ls`, in order, lead from `s` to `t`. -/
inductive Run (step : σ → ℓ → σ → Prop) : σ → List ℓ → σ → Prop
  | nil (s : σ) : Run step s [] s
  | snoc {s t u : σ} {ls : List ℓ} {l : ℓ} : Run step s ls t → step t l u → Run step s (ls ++ [l]) u

variable {step : σ → ℓ → σ → Prop}

variable {ls : List ℓ} {s t : σ}

/-- A predicate on states and observed labels that holds at the start and is kept by every step
holds at the end of every run. -/
theorem Run.invariant {P : List ℓ → σ → Prop} (h : Run step s ls t) (h0 : P [] s)
    (hstep : ∀ ls t l u, P ls t → step t l u → P (ls ++ [l]) u) : P ls t := by
  induction h with
  | nil => exact h0
  | snoc _ hs ih => exact hstep _ _ _ _ ih hs

theorem Run.single {l : ℓ} (h : step s l t) : Run step s [l] t :=
  Run.snoc (Run.nil s) h

theorem Run.append {u : σ} {ms : List ℓ} (h : Run step s ls t) (h' : Run step t ms u) : Run step s (ls ++ ms) u := by
  induction h' with
  | nil => simpa using h
  | snoc _ hs ih =>
    rw [← List.append_assoc]
    exact Run.snoc ih hs

/-- A run can be cut anywhere. -/
theorem Run.split {u : σ} : ∀ {ms : List ℓ}, Run step s (ls ++ ms) u → ∃ t, Run step s ls t ∧ Run step t ms u := by
  intro ms
  induction ms using List.reverseRecOn generalizing u with
  | nil =>
    intro h
    rw [List.append_nil] at h
    exact ⟨u, h, Run.nil u⟩
  | append_singleton ms m ih =>
    intro h
    rw [← List.append_assoc] at h
    generalize hl : ls ++ ms ++ [m] = l at h
    cases h with
    | nil => simp at hl
    | snoc hrun hs =>
      obtain ⟨hpre, hlast⟩ := List.append_inj' hl rfl
      cases hlast
      subst hpre
      obtain ⟨t, ht, hrest⟩ := ih hrun
      exact ⟨t, ht, Run.snoc hrest hs⟩

/-- A run of one step. -/
theorem Run.of_single {l : ℓ} (h : Run step s [l] t) : step s l t := by
  generalize hl : [l] = ls at h
  cases h with
  | nil => cases hl
  | @snoc _ u ls' l' hrun hs =>
    have hnil : ls' = [] := by
      cases ls' with
      | nil => rfl
      | cons a as => simp at hl
    subst hnil
    cases hl
    generalize hn : ([] : List ℓ) = ms at hrun
    cases hrun with
    | nil => exact hs
    | snoc _ _ => simp at hn

/-- A run with the states it passes through: `Trace step s xs` says that the steps of `xs`, each with
its label and the state it leads to, are made one after the other from `s`. -/
def Trace (step : σ → ℓ → σ → Prop) : σ → List (ℓ × σ) → Prop
  | _, [] => True
  | s, x :: xs => step s x.1 x.2 ∧ Trace step x.2 xs

/-- A predicate that holds at the start and is kept by every step holds in every state of a trace. -/
theorem Trace.invariant {P : σ → Prop} (hstep : ∀ s l t, P s → step s l t → P t) :
    ∀ {s : σ} {xs : List (ℓ × σ)}, P s → Trace step s xs → ∀ x ∈ xs, P x.2 := by
  intro s xs
  induction xs generalizing s with
  | nil => simp
  | cons y ys ih =>
    rintro hs ⟨hy, hys⟩ x hx
    have hPy : P y.2 := hstep s y.1 y.2 hs hy
    cases List.mem_cons.1 hx with
    | inl h => exact h ▸ hPy
    | inr h => exact ih hPy hys x h

/-- What every step does from a state that satisfies an invariant, it does all along a trace. -/
theorem Trace.imp {step' : σ → ℓ → σ → Prop} {P : σ → Prop} (hstep : ∀ s l t, P s → step s l t → step' s l t ∧ P t) :
    ∀ {s : σ} {xs : List (ℓ × σ)}, P s → Trace step s xs → Trace step' s xs := by
  intro s xs
  induction xs generalizing s with
  | nil => exact fun _ _ => trivial
  | cons y ys ih =>
    rintro hs ⟨hy, hys⟩
    obtain ⟨hy', hPy⟩ := hstep s y.1 y.2 hs hy
    exact ⟨hy', ih hPy hys⟩

/-- A trace along two relations is a trace along both at once. -/
theorem Trace.and {step' : σ → ℓ → σ → Prop} : ∀ {s : σ} {xs : List (ℓ × σ)}, Trace step s xs → Trace step' s xs →
      Trace (fun s l t => step s l t ∧ step' s l t) s xs := by
  intro s xs
  induction xs generalizing s with
  | nil => exact fun _ _ => trivial
  | cons y ys ih => exact fun h h' => ⟨⟨h.1, h'.1⟩, ih h.2 h'.2⟩

/-- When each step along a trace either keeps to `step'` or leads to a state outside `P`, a trace
whose states all satisfy `P` keeps to `step'` throughout. -/
theorem Trace.of_forall {step' : σ → ℓ → σ → Prop} {P : σ → Prop} (hstep : ∀ s l t, step s l t → P t → step' s l t) :
    ∀ {s : σ} {xs : List (ℓ × σ)}, Trace step s xs → (∀ x ∈ xs, P x.2) → Trace step' s xs := by
  intro s xs
  induction xs generalizing s with
  | nil => exact fun _ _ => trivial
  | cons y ys ih =>
    intro h hP
    exact ⟨hstep s y.1 y.2 h.1 (hP y (.head _)), ih h.2 fun x hx => hP x (List.mem_cons_of_mem y hx)⟩

/-! ## Parties that wait for each other

Parties hold things and want things that others hold. If a party wants only what is above all it holds, in some
bounded rank, then no set of parties can wait for each other. Things of rank zero stand outside the order:
nothing is said about them. -/

section

variable {α β : Type} {rank : β → Nat} {wants holds : α → β → Prop} {n : Nat}

end

end Xv6.Base
