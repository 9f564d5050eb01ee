import Xv6.Base.Bytes

/-!
# Byte copies and strings of the user library

`memmove` and `strchr` of `user/ulib.c`. `memmove` copies byte by byte, upwards or downwards; in the direction
it chooses, no byte is overwritten before it is read, so its effect is that of `copy`.
-/

set_option autoImplicit false

namespace Xv6.User

open Function Xv6.Base

/-- `while(n-- > 0) *dst++ = *src++;` -/
def copyUp (m : Mem) (dst src : Nat) : Nat → Mem
  | 0 => m
  | n + 1 => copyUp (update m dst (m src)) (dst + 1) (src + 1) n

/-- `while(n-- > 0) *--dst = *--src;`, with the pointers `n` bytes above `dst` and `src`. -/
def copyDown (m : Mem) (dst src : Nat) : Nat → Mem
  | 0 => m
  | n + 1 => copyDown (update m (dst + n) (m (src + n))) dst src n

/-- `memmove(vdst, vsrc, n)`. -/
def memmove (m : Mem) (dst src n : Nat) : Mem :=
  if src > dst then copyUp m dst src n else copyDown m dst src n

/-- Copying upwards to the same or lower addresses, or past the source, reads every byte before it is overwritten. -/
theorem copyUp_eq (n : Nat) {m : Mem} {dst src : Nat} (h : dst ≤ src ∨ src + n ≤ dst) :
    copyUp m dst src n = copy m dst src n := by
  induction n generalizing m dst src with
  | zero =>
    funext x
    rw [copy_of_not_mem _ (by omega), copyUp]
  | succ n ih =>
    rw [copyUp, ih (by omega)]
    funext x
    unfold copy
    rcases Nat.lt_trichotomy x dst with hx | rfl | hx
    · rw [if_neg (by omega), if_neg (by omega), update_of_ne (by omega)]
    · rw [if_neg (by omega), if_pos (by omega), update_self, Nat.sub_self, Nat.add_zero]
    · by_cases hin : x < dst + (n + 1)
      · rw [if_pos (by omega), if_pos (by omega), update_of_ne (by omega)]
        congr 1
        omega
      · rw [if_neg (by omega), if_neg (by omega), update_of_ne (by omega)]

/-- Copying downwards to the same or higher addresses reads every byte before it is overwritten. -/
theorem copyDown_eq (n : Nat) {m : Mem} {dst src : Nat} (h : src ≤ dst) : copyDown m dst src n = copy m dst src n := by
  induction n generalizing m with
  | zero =>
    funext x
    rw [copy_of_not_mem _ (by omega), copyDown]
  | succ n ih =>
    rw [copyDown, ih]
    funext x
    unfold copy
    by_cases hin : dst ≤ x ∧ x < dst + n
    · rw [if_pos hin, if_pos (by omega), update_of_ne (by omega)]
    · rw [if_neg hin]
      by_cases hlast : x = dst + n
      · rw [if_pos (by omega), hlast, update_self, Nat.add_sub_cancel_left]
      · rw [if_neg (by omega), update_of_ne hlast]

theorem memmove_eq (m : Mem) (dst src n : Nat) : memmove m dst src n = copy m dst src n := by
  unfold memmove
  split_ifs with h
  · exact copyUp_eq n (.inl h.le)
  · exact copyDown_eq n (by omega)

/-- `strchr(s, c)` for a string that ends within the `n` bytes at `s`. -/
def strchr (m : Mem) (c : UInt8) : Nat → Nat → Option Nat
  | 0, _ => none
  | n + 1, s => if m s = 0 then none else if m s = c then some s else strchr m c n (s + 1)

/-- The string at `s`, which ends within the `n` bytes there. -/
def cstring (m : Mem) : Nat → Nat → List UInt8
  | 0, _ => []
  | n + 1, s => if m s = 0 then [] else m s :: cstring m n (s + 1)

/-- The `n` bytes at `a`. -/
def bytesAt (m : Mem) : Nat → Nat → List UInt8
  | _, 0 => []
  | a, n + 1 => m a :: bytesAt m (a + 1) n

/-- The bytes `bs` stand at `a`. -/
def At (m : Mem) : Nat → List UInt8 → Prop
  | _, [] => True
  | a, b :: bs => m a = b ∧ At m (a + 1) bs

section

variable {m m' : Mem} {a : Nat} {bs cs : List UInt8}

theorem at_append : ∀ {a : Nat} {bs : List UInt8}, At m a (bs ++ cs) ↔ At m a bs ∧ At m (a + bs.length) cs
  | _, [] => by simp [At]
  | a, b :: bs => by
    rw [List.cons_append, At, At, at_append (a := a + 1), and_assoc, List.length_cons,
      Nat.add_right_comm, Nat.add_assoc]

theorem at_iff : ∀ {a : Nat} {bs : List UInt8}, At m a bs ↔ ∀ i (h : i < bs.length), m (a + i) = bs[i]
  | _, [] => by simp [At]
  | a, b :: bs => by
    rw [At, at_iff (a := a + 1)]
    constructor
    · rintro ⟨h0, hs⟩ i hi
      cases i with
      | zero => exact h0
      | succ i =>
        have := hs i (by simpa using hi)
        rwa [Nat.add_right_comm] at this
    · refine fun h => ⟨h 0 (by simp), fun i hi => ?_⟩
      have := h (i + 1) (by simpa using hi)
      rwa [← Nat.add_assoc, Nat.add_right_comm] at this

theorem At.congr (h : At m a bs) (hm : ∀ x, a ≤ x → x < a + bs.length → m' x = m x) : At m' a bs :=
  at_iff.2 fun i hi => (hm _ (by omega) (by omega)).trans (at_iff.1 h i hi)

theorem at_writeBytes (m : Mem) (a : Nat) (bs : List UInt8) : At (writeBytes m a bs) a bs :=
  at_iff.2 fun i hi => by
    rw [writeBytes_of_mem _ (by omega) (by omega)]
    simp

theorem At.copy {src : Nat} (h : At m src bs) (dst : Nat) : At (copy m dst src bs.length) dst bs :=
  at_iff.2 fun i hi => by
    rw [Base.copy, if_pos (by omega), Nat.add_sub_cancel_left, at_iff.1 h i hi]

theorem At.bytesAt : ∀ {a : Nat} {bs : List UInt8}, At m a bs → bytesAt m a bs.length = bs
  | _, [], _ => rfl
  | _, _ :: _, ⟨h0, hs⟩ => congrArg₂ List.cons h0 hs.bytesAt

theorem At.cstring : ∀ {n a : Nat} {bs : List UInt8}, At m a (bs ++ [0]) → 0 ∉ bs → bs.length < n →
    cstring m n a = bs
  | n + 1, _, [], ⟨h0, _⟩, _, _ => if_pos h0
  | n + 1, _, b :: bs, ⟨h0, hs⟩, hno, hlen => by
    rw [User.cstring, if_neg (by rw [h0]; exact fun h => hno (by simp [h])), h0,
      hs.cstring (fun h => hno (.tail _ h)) (Nat.lt_of_succ_lt_succ hlen)]

/-- `strchr` returns 0 where there is no such character before the end. -/
theorem At.strchr_none {c : UInt8} : ∀ {n a : Nat} {bs : List UInt8}, At m a (bs ++ [0]) → c ∉ bs →
    strchr m c n a = none
  | 0, _, _, _, _ => rfl
  | n + 1, _, [], ⟨h0, _⟩, _ => if_pos h0
  | n + 1, _, b :: bs, ⟨h0, hs⟩, hc => by
    rw [strchr, h0, if_neg (c := b = c) (fun h => hc (by simp [h])),
      hs.strchr_none fun h => hc (.tail _ h)]
    exact ite_self none

/-- `strchr` returns the first place of the character. -/
theorem At.strchr_some {c : UInt8} (hc0 : c ≠ 0) : ∀ {n a : Nat} {bs : List UInt8}, At m a (bs ++ c :: cs) →
    0 ∉ bs → c ∉ bs → bs.length < n → strchr m c n a = some (a + bs.length)
  | n + 1, _, [], ⟨h0, _⟩, _, _, _ => by
    rw [strchr, h0, if_neg hc0, if_pos rfl]
    rfl
  | n + 1, a, b :: bs, ⟨h0, hs⟩, hno, hc, hlen => by
    rw [strchr, h0, if_neg (fun h => hno (by simp [h])), if_neg (fun h => hc (by simp [h])),
      hs.strchr_some hc0 (fun h => hno (.tail _ h)) (fun h => hc (.tail _ h))
        (Nat.lt_of_succ_lt_succ hlen), List.length_cons, Nat.add_assoc, Nat.add_comm 1]

end

end Xv6.User
