import Mathlib.Data.Finset.Basic
import Mathlib.Logic.Function.Basic

/-!
# Numbered resources held by at most one holder

The resources below `hi` are marked when they are in use. Those below `lo` always are; each other one is marked
exactly when a holder has it or when it is loose, which means taken but not handed to a holder yet. A holder
has one resource, or 0 for none. The rules say what marking, unmarking, handing out and taking back do.
-/

set_option autoImplicit false

namespace Xv6.Base

universe u

variable {ι : Type u}

/-- No resource has two holders, and the marks agree with the holders and the loose resources `B`. -/
structure Holdings (holds : ι → Nat) (lo hi : Nat) (marked : Nat → Bool) (B : Finset Nat) : Prop where
  pos : 0 < lo
  range : ∀ i, holds i ≠ 0 → lo ≤ holds i ∧ holds i < hi
  inj : ∀ i j, holds i ≠ 0 → holds i = holds j → i = j
  loose : ∀ b ∈ B, lo ≤ b ∧ b < hi ∧ ∀ i, holds i ≠ b
  marks : ∀ b, b < hi → (marked b = true ↔ b < lo ∨ b ∈ B ∨ ∃ i, holds i = b)

namespace Holdings

variable {holds holds' : ι → Nat} {lo hi : Nat} {marked marked' : Nat → Bool} {B B' : Finset Nat}

section

variable (h : Holdings holds lo hi marked B)
include h

theorem congr (hholds : ∀ i, holds' i = holds i)
    (hmarked : ∀ b, b < hi → marked' b = marked b) : Holdings holds' lo hi marked' B := by
  obtain rfl : holds' = holds := funext hholds
  refine ⟨h.pos, h.range, h.inj, h.loose, fun b hb => ?_⟩
  rw [hmarked b hb]
  exact h.marks b hb

theorem marked_of_loose {b : Nat} (hb : b ∈ B) : marked b = true :=
  (h.marks b (h.loose b hb).2.1).2 (.inr (.inl hb))

/-- A resource that is not marked is nobody's. -/
theorem not_marked {b : Nat} (hb : b < hi) (hfree : marked b = false) : lo ≤ b ∧ b ∉ B ∧ ∀ i, holds i ≠ b := by
  have hnot : ¬ (b < lo ∨ b ∈ B ∨ ∃ i, holds i = b) := by
    intro hor
    rw [(h.marks b hb).2 hor] at hfree
    cases hfree
  exact ⟨Nat.le_of_not_lt fun hlt => hnot (.inl hlt), fun hmem => hnot (.inr (.inl hmem)),
    fun i heq => hnot (.inr (.inr ⟨i, heq⟩))⟩

/-- Marking a resource makes it loose. -/
theorem mark {b : Nat} (hb : b < hi) (hfree : marked b = false)
    (hmarked : ∀ c, c < hi → marked' c = (decide (c = b) || marked c)) : Holdings holds lo hi marked' (insert b B) := by
  obtain ⟨hlo, -, hnone⟩ := h.not_marked hb hfree
  refine ⟨h.pos, h.range, h.inj, ?_, ?_⟩
  · intro c hc
    rcases Finset.mem_insert.1 hc with rfl | hc
    · exact ⟨hlo, hb, hnone⟩
    · exact h.loose c hc
  · intro c hc
    rw [hmarked c hc, Bool.or_eq_true, decide_eq_true_iff, h.marks c hc, Finset.mem_insert]
    tauto

/-- A loose resource is given back. -/
theorem unmark {b : Nat} (hb : b ∈ B)
    (hmarked : ∀ c, c < hi → marked' c = (decide (c ≠ b) && marked c)) : Holdings holds lo hi marked' (B.erase b) := by
  obtain ⟨hlo, -, hnone⟩ := h.loose b hb
  refine ⟨h.pos, h.range, h.inj, fun c hc => h.loose c (Finset.mem_of_mem_erase hc), ?_⟩
  intro c hc
  rw [hmarked c hc, Bool.and_eq_true, decide_eq_true_iff, h.marks c hc, Finset.mem_erase]
  constructor
  · tauto
  · rintro (hlt | ⟨hne, hmem⟩ | ⟨i, rfl⟩)
    · exact ⟨by omega, .inl hlt⟩
    · exact ⟨hne, .inr (.inl hmem)⟩
    · exact ⟨hnone i, .inr (.inr ⟨i, rfl⟩)⟩

/-- A loose resource is handed to a holder that has none. -/
theorem attach [DecidableEq ι] {b : Nat} (hb : b ∈ B) {i : ι} (hi' : holds i = 0)
    (hholds : ∀ j, holds' j = if j = i then b else holds j) : Holdings holds' lo hi marked (B.erase b) := by
  obtain ⟨hlo, hlt, hnone⟩ := h.loose b hb
  have hself : holds' i = b := (hholds i).trans (if_pos rfl)
  have hother : ∀ j, j ≠ i → holds' j = holds j := fun j hj => (hholds j).trans (if_neg hj)
  refine ⟨h.pos, ?_, ?_, ?_, ?_⟩
  · intro j hj
    by_cases hji : j = i
    · rw [hji, hself]
      exact ⟨hlo, hlt⟩
    · rw [hother j hji] at hj ⊢
      exact h.range j hj
  · intro j k hj hjk
    by_cases hji : j = i
    · by_cases hki : k = i
      · rw [hji, hki]
      · rw [hji, hself, hother k hki] at hjk
        exact absurd hjk.symm (hnone k)
    · by_cases hki : k = i
      · rw [hki, hself, hother j hji] at hjk
        exact absurd hjk (hnone j)
      · rw [hother j hji] at hj hjk
        rw [hother k hki] at hjk
        exact h.inj j k hj hjk
  · intro c hc
    obtain ⟨hne, hmem⟩ := Finset.mem_erase.1 hc
    obtain ⟨h1, h2, h3⟩ := h.loose c hmem
    refine ⟨h1, h2, fun j => ?_⟩
    by_cases hji : j = i
    · rw [hji, hself]
      exact hne.symm
    · rw [hother j hji]
      exact h3 j
  · intro c hc
    rw [h.marks c hc, Finset.mem_erase]
    constructor
    · rintro (hlo' | hmem | ⟨j, rfl⟩)
      · exact .inl hlo'
      · by_cases hcb : c = b
        · exact .inr (.inr ⟨i, hself.trans hcb.symm⟩)
        · exact .inr (.inl ⟨hcb, hmem⟩)
      · by_cases hji : j = i
        · -- the holder had nothing, so this is about resource 0
          rw [hji, hi']
          exact .inl h.pos
        · exact .inr (.inr ⟨j, hother j hji⟩)
    · rintro (hlo' | ⟨-, hmem⟩ | ⟨j, rfl⟩)
      · exact .inl hlo'
      · exact .inr (.inl hmem)
      · by_cases hji : j = i
        · rw [hji, hself]
          exact .inr (.inl hb)
        · exact .inr (.inr ⟨j, (hother j hji).symm⟩)

/-- Some holders give up what they have. -/
theorem detach (S : ι → Prop) (hout : ∀ i, S i → holds' i = 0) (hkeep : ∀ i, ¬ S i → holds' i = holds i)
    (hB : ∀ b, b ∈ B' ↔ b ∈ B ∨ (b ≠ 0 ∧ ∃ i, S i ∧ holds i = b)) : Holdings holds' lo hi marked B' := by
  have hback : ∀ i, holds' i ≠ 0 → ¬ S i ∧ holds' i = holds i :=
    fun i hne => ⟨fun hS => hne (hout i hS), hkeep i fun hS => hne (hout i hS)⟩
  refine ⟨h.pos, ?_, ?_, ?_, ?_⟩
  · intro i hne
    have hi' := (hback i hne).2
    rw [hi'] at hne ⊢
    exact h.range i hne
  · intro i j hne heq
    have hi' := (hback i hne).2
    have hj' := (hback j (heq ▸ hne)).2
    rw [hi'] at hne
    exact h.inj i j hne (hi'.symm.trans (heq.trans hj'))
  · intro b hb
    rcases (hB b).1 hb with hmem | ⟨hne, i, hS, rfl⟩
    · obtain ⟨h1, h2, h3⟩ := h.loose b hmem
      refine ⟨h1, h2, fun i heq => ?_⟩
      have hpos : holds' i ≠ 0 := by
        have := h.pos
        omega
      exact h3 i ((hback i hpos).2 ▸ heq)
    · refine ⟨(h.range i hne).1, (h.range i hne).2, fun j heq => ?_⟩
      have hj : holds' j ≠ 0 := heq ▸ hne
      have hij : i = j := h.inj i j hne (heq.symm.trans (hback j hj).2)
      exact (hback j hj).1 (hij ▸ hS)
  · intro b hb
    rw [h.marks b hb, hB b]
    constructor
    · rintro (hlo' | hmem | ⟨i, hheld⟩)
      · exact .inl hlo'
      · exact .inr (.inl (.inl hmem))
      · by_cases hzero : b = 0
        · rw [hzero]
          exact .inl h.pos
        · by_cases hS : S i
          · exact .inr (.inl (.inr ⟨hzero, i, hS, hheld⟩))
          · exact .inr (.inr ⟨i, (hkeep i hS).trans hheld⟩)
    · rintro (hlo' | (hmem | ⟨-, i, -, hheld⟩) | ⟨i, hheld⟩)
      · exact .inl hlo'
      · exact .inr (.inl hmem)
      · exact .inr (.inr ⟨i, hheld⟩)
      · by_cases hzero : b = 0
        · rw [hzero]
          exact .inl h.pos
        · exact .inr (.inr ⟨i, (hback i (hheld ▸ hzero)).2.symm.trans hheld⟩)

end

end Holdings

end Xv6.Base
