import Mathlib.Data.List.Nodup
import Mathlib.Tactic

/-!
# Circular doubly linked lists

A list of nodes with a head, linked in both directions. `none` is the head. `Ring r l` says that the pointers `r` link
the nodes `l` in order, from the head and back to it, in both directions. Unlinking a node and linking one behind the
head, as sequences of assignments, keep that; a loop along the pointers that stops at the head finds what `List.find?`
finds.
-/

set_option autoImplicit false

namespace Xv6.Base

open Function

variable {α : Type}

structure Pointers (α : Type) where
  next : Option α → Option α
  prev : Option α → Option α

/-- The pointers link each node of the list with the one behind it. -/
def Linked (r : Pointers α) (l : List (Option α)) : Prop := l.IsChain fun a b => r.next a = b ∧ r.prev b = a

/-- The nodes `l`, in order, are the list. -/
def Ring (r : Pointers α) (l : List α) : Prop := Linked r (none :: (l.map some ++ [none]))

section

variable [DecidableEq α]

/-- `b->next->prev = b->prev; b->prev->next = b->next;` -/
def Pointers.unlink (r : Pointers α) (b : α) : Pointers α :=
  let prev := update r.prev (r.next (some b)) (r.prev (some b))
  { next := update r.next (prev (some b)) (r.next (some b)), prev := prev }

/-- `b->next = head.next; b->prev = &head; head.next->prev = b; head.next = b;` -/
def Pointers.linkFirst (r : Pointers α) (b : α) : Pointers α :=
  let next := update r.next (some b) (r.next none)
  let prev := update r.prev (some b) none
  { next := update next none (some b), prev := update prev (next none) (some b) }

end

/-- `for(b = first; b != &head; b = step(b)) if(test(b)) return b;`: the node found, if any; `none` if the loop has not
ended after `fuel` rounds. -/
def scan (step : Option α → Option α) (test : α → Bool) : Nat → Option α → Option (Option α)
  | 0, _ => none
  | _ + 1, none => some none
  | fuel + 1, some b => if test b then some (some b) else scan step test fuel (step (some b))

/-- A loop along a list of nodes finds the first that passes the test. -/
theorem scan_eq {step : Option α → Option α} (test : α → Bool) {fuel : Nat} {x : Option α} {l : List α}
    (h : (x :: (l.map some ++ [none])).IsChain fun a b => step a = b) (hfuel : l.length < fuel) :
    scan step test fuel (step x) = some (l.find? test) := by
  induction l generalizing x fuel with
  | nil =>
    cases fuel with
    | zero => exact absurd hfuel (Nat.not_lt_zero _)
    | succ fuel =>
      rw [(List.isChain_cons_cons.1 h).1]
      rfl
  | cons b l ih =>
    obtain ⟨hb, hrest⟩ := List.isChain_cons_cons.1 h
    cases fuel with
    | zero => exact absurd hfuel (Nat.not_lt_zero _)
    | succ fuel =>
      rw [hb, scan, List.find?_cons]
      cases test b with
      | true => rfl
      | false => exact ih hrest (Nat.lt_of_succ_lt_succ hfuel)

namespace Ring

variable {r : Pointers α} {l : List α}

theorem scan_next (h : Ring r l) (test : α → Bool) {fuel : Nat} (hfuel : l.length < fuel) :
    scan r.next test fuel (r.next none) = some (l.find? test) :=
  scan_eq test (h.imp fun _ _ hab => hab.1) hfuel

theorem scan_prev (h : Ring r l) (test : α → Bool) {fuel : Nat} (hfuel : l.length < fuel) :
    scan r.prev test fuel (r.prev none) = some (l.reverse.find? test) := by
  refine scan_eq test ?_ (by rwa [List.length_reverse])
  have hrev : (none :: (l.map some ++ [none])).reverse = none :: (l.reverse.map some ++ [none]) := by simp
  rw [← hrev, List.isChain_reverse]
  exact h.imp fun _ _ hab => hab.2

end Ring

theorem nodup_nodes {l : List α} (h : l.Nodup) : (l.map some ++ [none]).Nodup := by
  rw [List.nodup_append]
  exact ⟨h.map (Option.some_injective α), List.nodup_singleton _, by simp⟩

/-- Pointers that agree where they are followed link the same nodes. -/
theorem Linked.congr {r r' : Pointers α} {l : List (Option α)} (h : Linked r l)
    (hnext : ∀ a ∈ l.dropLast, r'.next a = r.next a) (hprev : ∀ b ∈ l.tail, r'.prev b = r.prev b) : Linked r' l := by
  induction l with
  | nil => exact List.isChain_nil
  | cons a l ih =>
    cases l with
    | nil => exact List.isChain_singleton a
    | cons b l =>
      obtain ⟨⟨hn, hp⟩, hrest⟩ := List.isChain_cons_cons.1 h
      refine List.isChain_cons_cons.2 ⟨⟨?_, ?_⟩, ih hrest (fun c hc => ?_) fun c hc => ?_⟩
      · rw [hnext a (by simp), hn]
      · rw [hprev b (by simp), hp]
      · exact hnext c (by simpa using Or.inr hc)
      · exact hprev c (by simpa using Or.inr hc)

section

variable [DecidableEq α] {r : Pointers α} {l : List α} {b : α}

theorem Ring.linkFirst (h : Ring r l) (hnd : l.Nodup) (hb : b ∉ l) : Ring (r.linkFirst b) (b :: l) := by
  obtain ⟨n, tail, hl⟩ : ∃ n tail, l.map some ++ [none] = n :: tail := by
    cases l with
    | nil => exact ⟨none, [], rfl⟩
    | cons c l => exact ⟨some c, _, rfl⟩
  have hsucc : (n :: tail).Nodup ∧ some b ∉ n :: tail := by
    rw [← hl]
    exact ⟨nodup_nodes hnd, by simpa using hb⟩
  have hpred : none ∉ (n :: tail).dropLast ∧ some b ∉ (n :: tail).dropLast := by
    rw [← hl, List.dropLast_concat]
    exact ⟨by simp, by simpa using hb⟩
  unfold Ring at h ⊢
  rw [hl] at h
  rw [List.map_cons, List.cons_append, hl]
  obtain ⟨⟨hn, -⟩, hrest⟩ := List.isChain_cons_cons.1 h
  have hbn : some b ≠ n := fun e => hsucc.2 (by simp [e])
  refine List.isChain_cons_cons.2 ⟨⟨?_, ?_⟩, List.isChain_cons_cons.2 ⟨⟨?_, ?_⟩, Linked.congr hrest ?_ ?_⟩⟩
  · simp [Pointers.linkFirst]
  · simp [Pointers.linkFirst, hn, hbn]
  · simp [Pointers.linkFirst, hn]
  · simp [Pointers.linkFirst, hn]
  · intro a ha
    have h1 : a ≠ none := fun e => hpred.1 (e ▸ ha)
    have h2 : a ≠ some b := fun e => hpred.2 (e ▸ ha)
    simp [Pointers.linkFirst, h1, h2]
  · intro a ha
    have h1 : a ≠ n := fun e => (List.nodup_cons.1 hsucc.1).1 (e ▸ ha)
    have h2 : a ≠ some b := fun e => hsucc.2 (.tail _ (e ▸ ha))
    simp [Pointers.linkFirst, hn, h1, h2]

theorem Ring.unlink {l1 l2 : List α} (h : Ring r (l1 ++ b :: l2)) (hnd : (l1 ++ b :: l2).Nodup) :
    Ring (r.unlink b) (l1 ++ l2) := by
  -- the nodes before and behind `b`
  obtain ⟨before, p, hp⟩ : ∃ before p, none :: l1.map some = before ++ [p] :=
    ⟨_, _, (List.dropLast_append_getLast (List.cons_ne_nil _ _)).symm⟩
  obtain ⟨n, behind, hn⟩ : ∃ n behind, l2.map some ++ [none] = n :: behind := by
    cases l2 with
    | nil => exact ⟨none, [], rfl⟩
    | cons c l => exact ⟨some c, _, rfl⟩
  have hall : none :: ((l1 ++ b :: l2).map some ++ [none]) = before ++ p :: some b :: n :: behind := by
    rw [List.map_append, List.map_cons, List.append_assoc, List.cons_append, hn, ← List.cons_append, hp,
      List.append_assoc]
    rfl
  have hrest : none :: ((l1 ++ l2).map some ++ [none]) = before ++ p :: n :: behind := by
    rw [List.map_append, List.append_assoc, hn, ← List.cons_append, hp, List.append_assoc]
    rfl
  have hpred : (before ++ p :: some b :: (n :: behind).dropLast).Nodup := by
    have hdrop : (none :: ((l1 ++ b :: l2).map some ++ [none])).dropLast = none :: (l1 ++ b :: l2).map some := by
      rw [← List.cons_append, List.dropLast_concat]
    rw [show before ++ p :: some b :: (n :: behind).dropLast = (before ++ p :: some b :: n :: behind).dropLast by
      simp, ← hall, hdrop]
    exact List.nodup_cons.2 ⟨by simp, hnd.map (Option.some_injective α)⟩
  have hsucc : ((before ++ [p]).tail ++ some b :: n :: behind).Nodup := by
    have hmap := nodup_nodes hnd
    rw [List.map_append, List.map_cons, List.append_assoc, List.cons_append, hn] at hmap
    rwa [← hp]
  unfold Ring at h ⊢
  rw [hall] at h
  rw [hrest]
  obtain ⟨hfirst, hlast⟩ := List.isChain_split.1 h
  obtain ⟨⟨hpb, hbp⟩, hlast⟩ := List.isChain_cons_cons.1 hlast
  obtain ⟨⟨hbn, -⟩, hlast⟩ := List.isChain_cons_cons.1 hlast
  rw [List.nodup_append, List.nodup_cons] at hpred hsucc
  have hne : some b ≠ n := fun e => hsucc.2.1.1 (by simp [e])
  have hprev : (r.unlink b).prev = update r.prev n p := by simp [Pointers.unlink, hbn, hbp]
  have hnext : (r.unlink b).next = update r.next p n := by simp [Pointers.unlink, hbn, hbp, hne]
  refine List.isChain_split.2 ⟨Linked.congr hfirst (fun a ha => ?_) fun a ha => ?_,
    List.isChain_cons_cons.2 ⟨⟨?_, ?_⟩, Linked.congr hlast (fun a ha => ?_) fun a ha => ?_⟩⟩
  · rw [List.dropLast_concat] at ha
    rw [hnext, update_of_ne (hpred.2.2 a ha p (by simp))]
  · rw [hprev, update_of_ne (hsucc.2.2 a ha n (by simp))]
  · rw [hnext, update_self]
  · rw [hprev, update_self]
  · rw [hnext, update_of_ne]
    rintro rfl
    exact hpred.2.1.1 (.tail _ ha)
  · rw [hprev, update_of_ne]
    rintro rfl
    exact (List.nodup_cons.1 hsucc.2.1.2).1 ha

end

end Xv6.Base
