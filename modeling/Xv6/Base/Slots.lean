import Mathlib.Tactic

/-!
# Tables of slots

A finite map kept in a list of slots: a slot is free or holds a key with its value. A new key goes to the
first free slot, or to a new one at the end, and removing a key frees its slot. As long as no key is held
twice, the list is a map: `lookup` after `place` and after `clear` is the updated function.
-/

set_option autoImplicit false

namespace Xv6.Base.Slots

open Function

universe u v

variable {κ : Type u} {α : Type v}

/-- A table of slots. -/
abbrev Table (κ : Type u) (α : Type v) := List (Option (κ × α))

/-- Slot `i` holds the key `k` with the value `a`. -/
def Holds (l : Table κ α) (i : Nat) (k : κ) (a : α) : Prop := l[i]? = some (some (k, a))

/-- No key is held by two slots. -/
def Uniq (l : Table κ α) : Prop := ∀ i j k a b, Holds l i k a → Holds l j k b → i = j

/-- The value of a key, from the first slot that holds it. -/
def lookup [DecidableEq κ] (l : Table κ α) (k : κ) : Option α :=
  l.findSome? fun o => o.bind fun p => if p.1 = k then some p.2 else none

/-- The first free slot, or the one behind the end. -/
def firstFree (l : Table κ α) : Nat := l.findIdx Option.isNone

/-- Store in slot `i`, or add a slot at the end. -/
def store (l : Table κ α) (i : Nat) (x : Option (κ × α)) : Table κ α :=
  if i < l.length then l.set i x else l ++ [x]

/-- Enter a key. -/
def place (l : Table κ α) (k : κ) (a : α) : Table κ α := store l (firstFree l) (some (k, a))

/-- Free slot `i`. -/
def clear (l : Table κ α) (i : Nat) : Table κ α := l.set i none

section Lookup

variable [DecidableEq κ] {l : Table κ α} {k : κ} {a : α}

theorem lookup_eq_none_iff : lookup l k = none ↔ ∀ i a, ¬ Holds l i k a := by
  unfold lookup Holds
  rw [List.findSome?_eq_none_iff]
  constructor
  · intro h i a hi
    have := h _ (List.mem_of_getElem? hi)
    rw [Option.bind_some, if_pos rfl] at this
    cases this
  · intro h o ho
    obtain ⟨i, hi⟩ := List.mem_iff_getElem?.1 ho
    cases o with
    | none => rfl
    | some p =>
      obtain ⟨k', a'⟩ := p
      rw [Option.bind_some]
      refine if_neg fun hk => ?_
      subst hk
      exact h i a' hi

theorem exists_holds (h : lookup l k = some a) : ∃ i, Holds l i k a := by
  obtain ⟨o, ho, hval⟩ := List.exists_of_findSome?_eq_some h
  obtain ⟨i, hi⟩ := List.mem_iff_getElem?.1 ho
  cases o with
  | none => cases hval
  | some p =>
    obtain ⟨k', a'⟩ := p
    rw [Option.bind_some] at hval
    split_ifs at hval with hk
    cases hval
    exact ⟨i, by rw [← hk]; exact hi⟩

/-- A lookup stops at the first slot with the key. -/
theorem lookup_of_first {i : Nat} (h : Holds l i k a) (hfirst : ∀ j b, j < i → ¬ Holds l j k b) :
    lookup l k = some a := by
  induction l generalizing i with
  | nil => cases h
  | cons o l ih =>
    unfold lookup
    rw [List.findSome?_cons]
    cases i with
    | zero =>
      cases h
      rw [Option.bind_some, if_pos rfl]
    | succ i =>
      have hskip : (o.bind fun p => if p.1 = k then some p.2 else none) = none := by
        cases o with
        | none => rfl
        | some p =>
          rw [Option.bind_some]
          refine if_neg fun hk => hfirst 0 p.2 (Nat.succ_pos i) ?_
          rw [← hk]
          rfl
      rw [hskip]
      exact ih h fun j b hj hjb => hfirst (j + 1) b (Nat.succ_lt_succ hj) hjb

/-- In a table without repeated keys, what a slot holds is what a lookup finds. -/
theorem lookup_of_holds (hu : Uniq l) {i : Nat} (h : Holds l i k a) : lookup l k = some a := by
  cases hl : lookup l k with
  | none => exact absurd h (lookup_eq_none_iff.1 hl i a)
  | some b =>
    obtain ⟨j, hj⟩ := exists_holds hl
    have hij := hu i j k a b h hj
    subst hij
    unfold Holds at h hj
    rw [h] at hj
    cases hj
    rfl

theorem lookup_eq_some_iff (hu : Uniq l) : lookup l k = some a ↔ ∃ i, Holds l i k a :=
  ⟨exists_holds, fun ⟨_, hi⟩ => lookup_of_holds hu hi⟩

end Lookup

section Update

variable {l : Table κ α} {i : Nat}

theorem firstFree_le (l : Table κ α) : firstFree l ≤ l.length := List.findIdx_le_length

/-- The first free slot holds no key. -/
theorem not_holds_firstFree (l : Table κ α) (k : κ) (a : α) : ¬ Holds l (firstFree l) k a := by
  intro h
  have hlt : firstFree l < l.length := (List.getElem?_eq_some_iff.1 h).1
  have hfree : l[firstFree l].isNone = true := List.findIdx_getElem (w := hlt)
  have heq : l[firstFree l] = some (k, a) := (List.getElem?_eq_some_iff.1 h).2
  rw [heq] at hfree
  cases hfree

theorem getElem?_store (hi : i ≤ l.length) (x : Option (κ × α)) (j : Nat) :
    (store l i x)[j]? = if j = i then some x else l[j]? := by
  unfold store
  by_cases hlt : i < l.length
  · rw [if_pos hlt, List.getElem?_set]
    by_cases hj : i = j
    · subst hj
      rw [if_pos rfl, if_pos hlt, if_pos rfl]
    · rw [if_neg hj, if_neg (Ne.symm hj)]
  · have hlen : i = l.length := by omega
    subst hlen
    rw [if_neg hlt, List.getElem?_append]
    split_ifs with h1 h2 h3
    · omega
    · rfl
    · subst h3
      simp
    · rw [List.getElem?_eq_none (by simp; omega), List.getElem?_eq_none (by omega)]

theorem holds_place (k : κ) (a : α) (j : Nat) (k' : κ) (b : α) :
    Holds (place l k a) j k' b ↔ (j = firstFree l ∧ k' = k ∧ b = a) ∨ Holds l j k' b := by
  unfold Holds place
  rw [getElem?_store (firstFree_le l)]
  by_cases hj : j = firstFree l
  · rw [if_pos hj]
    constructor
    · intro h
      cases h
      exact .inl ⟨hj, rfl, rfl⟩
    · rintro (⟨-, rfl, rfl⟩ | h)
      · rfl
      · subst hj
        exact absurd h (not_holds_firstFree l k' b)
  · rw [if_neg hj]
    exact ⟨.inr, fun h => h.resolve_left fun h' => hj h'.1⟩

theorem holds_clear (j : Nat) (k : κ) (b : α) : Holds (clear l i) j k b ↔ j ≠ i ∧ Holds l j k b := by
  unfold Holds clear
  rw [List.getElem?_set]
  by_cases hj : i = j
  · subst hj
    rw [if_pos rfl]
    constructor
    · intro h
      split_ifs at h
      cases h
    · intro h
      exact absurd rfl h.1
  · rw [if_neg hj]
    exact ⟨fun h => ⟨Ne.symm hj, h⟩, fun h => h.2⟩

theorem Uniq.place (hu : Uniq l) {k : κ} (hnew : ∀ j b, ¬ Holds l j k b) (a : α) : Uniq (place l k a) := by
  intro i j k' b c hi hj
  rcases (holds_place k a i k' b).1 hi with ⟨hi', hk, -⟩ | hi'
  · rcases (holds_place k a j k' c).1 hj with ⟨hj', -, -⟩ | hj'
    · rw [hi', hj']
    · rw [hk] at hj'
      exact absurd hj' (hnew j c)
  · rcases (holds_place k a j k' c).1 hj with ⟨-, hk, -⟩ | hj'
    · rw [hk] at hi'
      exact absurd hi' (hnew i b)
    · exact hu i j k' b c hi' hj'

theorem Uniq.clear (hu : Uniq l) (i : Nat) : Uniq (clear l i) := by
  intro j n k b c hj hn
  exact hu j n k b c ((holds_clear j k b).1 hj).2 ((holds_clear n k c).1 hn).2

variable [DecidableEq κ]

/-- Entering a new key updates the map. -/
theorem lookup_place (hu : Uniq l) {k : κ} (hnew : lookup l k = none) (a : α) :
    lookup (place l k a) = update (lookup l) k (some a) := by
  have hnew' := lookup_eq_none_iff.1 hnew
  have hu' := hu.place hnew' a
  funext k'
  by_cases hk : k' = k
  · subst hk
    rw [update_self]
    exact lookup_of_holds hu' ((holds_place _ _ _ _ _).2 (.inl ⟨rfl, rfl, rfl⟩))
  · rw [update_of_ne hk]
    apply Option.ext
    intro b
    rw [lookup_eq_some_iff hu', lookup_eq_some_iff hu]
    constructor
    · rintro ⟨j, hj⟩
      exact ⟨j, ((holds_place _ _ _ _ _).1 hj).resolve_left fun h => hk h.2.1⟩
    · rintro ⟨j, hj⟩
      exact ⟨j, (holds_place _ _ _ _ _).2 (.inr hj)⟩

/-- Freeing the slot of a key removes it from the map, and nothing else. -/
theorem lookup_clear (hu : Uniq l) {k : κ} {a : α} (h : Holds l i k a) :
    lookup (clear l i) = update (lookup l) k none := by
  have hu' := hu.clear i
  funext k'
  by_cases hk : k' = k
  · subst hk
    rw [update_self, lookup_eq_none_iff]
    intro j b hj
    obtain ⟨hne, hj'⟩ := (holds_clear j _ b).1 hj
    exact hne (hu j i _ b a hj' h)
  · rw [update_of_ne hk]
    apply Option.ext
    intro b
    rw [lookup_eq_some_iff hu', lookup_eq_some_iff hu]
    constructor
    · rintro ⟨j, hj⟩
      exact ⟨j, ((holds_clear _ _ _).1 hj).2⟩
    · rintro ⟨j, hj⟩
      refine ⟨j, (holds_clear _ _ _).2 ⟨fun hji => ?_, hj⟩⟩
      subst hji
      unfold Holds at h hj
      rw [h] at hj
      cases hj
      exact hk rfl

end Update

end Xv6.Base.Slots
