import Xv6.User.Ulib

/-!
# The two `memmove`

`memmove` of `kernel/string.c` and of `user/ulib.c`, with pointers of 64 bits. The kernel copies downwards only if the
ranges overlap with the destination above, the library whenever the source is not above the destination. A range may end
at the top of the address space, so the pointer behind it may wrap; it is never used there. Both leave what `copy`
leaves, and so they agree.
-/

set_option autoImplicit false

namespace Xv6.User

open Function Xv6.Base

/-- `while(n-- > 0) *d++ = *s++;` -/
def upLoop (m : Mem) (d s : Nat) : Nat → Mem
  | 0 => m
  | n + 1 => upLoop (update m d (m s)) ((d + 1) % 2 ^ 64) ((s + 1) % 2 ^ 64) n

/-- `while(n-- > 0) *--d = *--s;` -/
def downLoop (m : Mem) (d s : Nat) : Nat → Mem
  | 0 => m
  | n + 1 =>
    let d := (d + (2 ^ 64 - 1)) % 2 ^ 64
    let s := (s + (2 ^ 64 - 1)) % 2 ^ 64
    downLoop (update m d (m s)) d s n

/-- The kernel's `memmove(dst, src, n)`. -/
def kernelMemmove (m : Mem) (dst src n : Nat) : Mem :=
  if n = 0 then m
  else if src < dst ∧ (src + n) % 2 ^ 64 > dst then downLoop m ((dst + n) % 2 ^ 64) ((src + n) % 2 ^ 64) n
  else upLoop m dst src n

/-- The library's `memmove(vdst, vsrc, n)`; `n` is an `int`. -/
def userMemmove (m : Mem) (vdst vsrc : Nat) (n : Int) : Mem :=
  if vsrc > vdst then upLoop m vdst vsrc n.toNat
  else downLoop m ((vdst + n) % 2 ^ 64).toNat ((vsrc + n) % 2 ^ 64).toNat n.toNat

section

variable {dst src n : Nat}

section

variable (m : Mem) (hd : dst + n ≤ 2 ^ 64) (hs : src + n ≤ 2 ^ 64)
include hd hs

/-- Pointers that stay in the address space are numbers. -/
theorem upLoop_eq : upLoop m dst src n = copyUp m dst src n := by
  induction n generalizing m dst src with
  | zero => rfl
  | succ n ih =>
    rw [upLoop, copyUp]
    cases n with
    | zero => rfl
    | succ n =>
      rw [Nat.mod_eq_of_lt (by omega), Nat.mod_eq_of_lt (by omega)]
      exact ih _ (by omega) (by omega)

theorem downLoop_eq : downLoop m ((dst + n) % 2 ^ 64) ((src + n) % 2 ^ 64) n = copyDown m dst src n := by
  induction n generalizing m with
  | zero => rfl
  | succ n ih =>
    have hback : ∀ a, a + (n + 1) ≤ 2 ^ 64 → ((a + (n + 1)) % 2 ^ 64 + (2 ^ 64 - 1)) % 2 ^ 64 = (a + n) % 2 ^ 64 := by
      intro a ha
      omega
    rw [downLoop, copyDown, hback dst hd, hback src hs, ih _ (by omega) (by omega), Nat.mod_eq_of_lt (by omega),
      Nat.mod_eq_of_lt (by omega)]

theorem kernelMemmove_eq : kernelMemmove m dst src n = copy m dst src n := by
  unfold kernelMemmove
  split_ifs with hn hover
  · subst hn
    funext a
    rw [copy_of_not_mem _ (by omega)]
  · rw [downLoop_eq m hd hs, copyDown_eq n hover.1.le]
  · -- the ranges do not overlap, or the source is not below the destination
    rw [upLoop_eq m hd hs]
    refine copyUp_eq n ?_
    by_contra hno
    refine hover ⟨by omega, ?_⟩
    rw [Nat.mod_eq_of_lt (by omega)]
    omega

theorem userMemmove_eq : userMemmove m dst src n = memmove m dst src n := by
  have hptr : ∀ a : Nat, (((a : Int) + n) % 2 ^ 64).toNat = (a + n) % 2 ^ 64 := by
    intro a
    omega
  unfold userMemmove memmove
  rw [Int.toNat_natCast, hptr, hptr, upLoop_eq m hd hs, downLoop_eq m hd hs]

end

end

/-- If neither range wraps around the address space, both functions leave in the destination what was in the source,
whatever the overlap, change no other byte, and so agree. -/
theorem memmove_copies (m : Mem) (dst src n : Nat) (hd : dst + n ≤ 2 ^ 64) (hs : src + n ≤ 2 ^ 64) :
    (∀ i < n, kernelMemmove m dst src n (dst + i) = m (src + i)) ∧
      (∀ a, ¬ (dst ≤ a ∧ a < dst + n) → kernelMemmove m dst src n a = m a) ∧
      (∀ i < n, userMemmove m dst src n (dst + i) = m (src + i)) ∧
      (∀ a, ¬ (dst ≤ a ∧ a < dst + n) → userMemmove m dst src n a = m a) ∧
      kernelMemmove m dst src n = userMemmove m dst src n := by
  rw [userMemmove_eq m hd hs, memmove_eq, kernelMemmove_eq m hd hs]
  have hin : ∀ i < n, copy m dst src n (dst + i) = m (src + i) := by
    intro i hi
    rw [copy, if_pos (by omega), Nat.add_sub_cancel_left]
  exact ⟨hin, fun _ ha => if_neg ha, hin, fun _ ha => if_neg ha, rfl⟩

/-- Three bytes move up by one at the top of the address space. -/
theorem memmove_copies_top :
    kernelMemmove (fun a => UInt8.ofNat (a % 251)) (2 ^ 64 - 3) (2 ^ 64 - 4) 3 =
        userMemmove (fun a => UInt8.ofNat (a % 251)) (2 ^ 64 - 3) (2 ^ 64 - 4) 3 ∧
      kernelMemmove (fun a => UInt8.ofNat (a % 251)) (2 ^ 64 - 3) (2 ^ 64 - 4) 3 (2 ^ 64 - 3 + 2) =
        UInt8.ofNat ((2 ^ 64 - 4 + 2) % 251) := by
  obtain ⟨hkernel, -, -, -, hagree⟩ := memmove_copies (fun a => UInt8.ofNat (a % 251)) (2 ^ 64 - 3) (2 ^ 64 - 4) 3
    (by decide) (by decide)
  exact ⟨hagree, hkernel 2 (by decide)⟩

end Xv6.User
