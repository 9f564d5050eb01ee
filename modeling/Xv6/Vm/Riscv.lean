import Mathlib.Tactic

/-!
# Sv39 page-table entries and addresses

The constants and macros of `kernel/riscv.h` and `kernel/memlayout.h` that the page-table code
uses. Page-table entries are 64-bit words; addresses are natural numbers, reduced modulo `2 ^ 64`
where the code's `uint64` arithmetic can wrap.
-/

set_option autoImplicit false

namespace Xv6.Vm

def PGSIZE : Nat := 4096

def PGSHIFT : Nat := 12

/-- One beyond the highest virtual address the kernel uses. -/
def MAXVA : Nat := 2 ^ (9 + 9 + 9 + 12 - 1)

def KERNBASE : Nat := 0x80000000

def PHYSTOP : Nat := KERNBASE + 128 * 1024 * 1024

def TRAMPOLINE : Nat := MAXVA - PGSIZE

def TRAPFRAME : Nat := TRAMPOLINE - PGSIZE

/-- `PGROUNDUP(sz)` on `uint64`. -/
def PGROUNDUP (sz : Nat) : Nat := (sz + PGSIZE - 1) % 2 ^ 64 / PGSIZE * PGSIZE

/-- `PGROUNDDOWN(a)`. -/
def PGROUNDDOWN (a : Nat) : Nat := a / PGSIZE * PGSIZE

/-- `PGINDEX(a)`, the index into `pgref`. -/
def PGINDEX (a : Nat) : Nat := a / 2 ^ PGSHIFT

/-- A page-table entry. -/
abbrev Pte := BitVec 64

def PTE_V : Pte := BitVec.twoPow 64 0

def PTE_R : Pte := BitVec.twoPow 64 1

def PTE_W : Pte := BitVec.twoPow 64 2

def PTE_X : Pte := BitVec.twoPow 64 3

def PTE_U : Pte := BitVec.twoPow 64 4

/-- Copy on write, in one of the bits the hardware leaves to the kernel. -/
def PTE_COW : Pte := BitVec.twoPow 64 8

/-- `PA2PTE(pa)`. -/
def PA2PTE (pa : Nat) : Pte := (BitVec.ofNat 64 pa >>> 12) <<< 10

/-- `PTE2PA(pte)`. -/
def PTE2PA (pte : Pte) : Nat := ((pte >>> 10) <<< 12).toNat

/-- `PTE_FLAGS(pte)`. -/
def PTE_FLAGS (pte : Pte) : Pte := pte &&& 0x3FF#64

/-- `PX(level, va)`, the index of `va` in a table of the given level. -/
def PX (level va : Nat) : Nat := va / 2 ^ (PGSHIFT + 9 * level) % 512

/-! ## Flag tests -/

theorem and_twoPow_eq_zero_iff (w : Pte) {k : Nat} (hk : k < 64) :
    w &&& BitVec.twoPow 64 k = 0#64 ↔ w.getLsbD k = false := by
  rw [BitVec.and_twoPow]
  constructor
  · intro h
    by_contra hb
    rw [if_pos (by simpa using hb)] at h
    have := congrArg (fun x : BitVec 64 => x.getLsbD k) h
    simp [hk] at this
  · intro h
    rw [h]
    rfl

/-- A flag of an entry is set. -/
def has (w f : Pte) : Bool := w &&& f != 0#64

section

variable (w : Pte)

theorem has_twoPow {k : Nat} (hk : k < 64) : has w (BitVec.twoPow 64 k) = w.getLsbD k := by
  have h := and_twoPow_eq_zero_iff w hk
  unfold has
  cases hb : w.getLsbD k with
  | false => simp [h.2 hb]
  | true =>
    have hne : ¬ (w &&& BitVec.twoPow 64 k = 0#64) := fun he => by
      have := h.1 he
      rw [hb] at this
      cases this
    simpa using hne

theorem has_V : has w PTE_V = w.getLsbD 0 := has_twoPow w (by decide)

theorem has_R : has w PTE_R = w.getLsbD 1 := has_twoPow w (by decide)

theorem has_W : has w PTE_W = w.getLsbD 2 := has_twoPow w (by decide)

theorem has_X : has w PTE_X = w.getLsbD 3 := has_twoPow w (by decide)

theorem has_U : has w PTE_U = w.getLsbD 4 := has_twoPow w (by decide)

theorem has_COW : has w PTE_COW = w.getLsbD 8 := has_twoPow w (by decide)

end

theorem has_or (w f g : Pte) : has w (f ||| g) = (has w f || has w g) := by
  unfold has
  rw [BitVec.and_or_distrib_left, Bool.eq_iff_iff]
  simp only [bne_iff_ne, ne_eq, Bool.or_eq_true]
  rw [BitVec.or_eq_zero_iff]
  tauto

theorem has_zero (f : Pte) : has 0#64 f = false := by
  simp [has]

/-! ## Physical addresses in entries -/

/-- The address in an entry depends on its bits from 10 on only. -/
theorem PTE2PA_congr {w w' : Pte} (h : ∀ i, 10 ≤ i → w.getLsbD i = w'.getLsbD i) : PTE2PA w = PTE2PA w' := by
  unfold PTE2PA
  congr 1
  apply BitVec.eq_of_getLsbD_eq
  intro i hi
  simp only [BitVec.getLsbD_shiftLeft, BitVec.getLsbD_ushiftRight]
  by_cases h12 : i < 12
  · simp [h12]
  · rw [h (10 + (i - 12)) (by omega)]

theorem PTE2PA_dvd (w : Pte) : PTE2PA w % PGSIZE = 0 := by
  unfold PTE2PA PGSIZE
  rw [BitVec.toNat_shiftLeft]
  omega

/-- The address in an entry is the page of the address it was made of. -/
theorem PTE2PA_PA2PTE_page (pa : Nat) (f : Pte) (hf : ∀ i, 10 ≤ i → f.getLsbD i = false) :
    PTE2PA (PA2PTE pa ||| f) = pa % 2 ^ 64 / PGSIZE * PGSIZE := by
  have key : (PA2PTE pa ||| f) >>> 10 = BitVec.ofNat 64 pa >>> 12 := by
    apply BitVec.eq_of_getLsbD_eq
    intro i hi
    unfold PA2PTE
    have e1 : 10 + i - 10 = i := by omega
    simp only [BitVec.getLsbD_shiftLeft, BitVec.getLsbD_ushiftRight, BitVec.getLsbD_or,
      BitVec.getLsbD_ofNat, hf (10 + i) (by omega), e1]
    by_cases h54 : i < 52
    · simp
      omega
    · simp [show ¬ 12 + i < 64 by omega]
  unfold PTE2PA PGSIZE
  rw [key, BitVec.toNat_shiftLeft, BitVec.toNat_ushiftRight, BitVec.toNat_ofNat, Nat.shiftLeft_eq,
    Nat.shiftRight_eq_div_pow]
  omega

theorem PTE2PA_PA2PTE_or {pa : Nat} (f : Pte) (hal : pa % PGSIZE = 0) (hlt : pa < 2 ^ 64)
    (hf : ∀ i, 10 ≤ i → f.getLsbD i = false) : PTE2PA (PA2PTE pa ||| f) = pa := by
  rw [PTE2PA_PA2PTE_page pa f hf, Nat.mod_eq_of_lt hlt]
  unfold PGSIZE at *
  omega

/-- The address in an entry without bits beyond the physical page number. -/
theorem PTE2PA_of_high {w : Pte} (h : ∀ i, 62 ≤ i → w.getLsbD i = false) : PTE2PA w = w.toNat / 1024 * 4096 := by
  have hlt : w.toNat < 2 ^ 62 := Nat.lt_pow_two_of_testBit _ fun i hi => h i hi
  unfold PTE2PA
  rw [BitVec.toNat_shiftLeft, BitVec.toNat_ushiftRight, Nat.shiftLeft_eq, Nat.shiftRight_eq_div_pow]
  omega

/-! ## Bits of the entries that the kernel writes -/

theorem getLsbD_PA2PTE_low (pa : Nat) {i : Nat} (hi : i < 10) : (PA2PTE pa).getLsbD i = false := by
  unfold PA2PTE
  rw [BitVec.getLsbD_shiftLeft]
  simp [hi]

theorem getLsbD_PA2PTE_high {pa i : Nat} (hpa : pa < 2 ^ 62) (hi : 62 ≤ i) : (PA2PTE pa).getLsbD i = false := by
  unfold PA2PTE
  rw [BitVec.getLsbD_shiftLeft, BitVec.getLsbD_ushiftRight, BitVec.getLsbD_ofNat]
  have hz : pa.testBit (12 + (i - 10)) = false :=
    Nat.testBit_lt_two_pow (hpa.trans_le (Nat.pow_le_pow_right (by decide) (by omega)))
  rw [hz]
  simp

theorem getLsbD_flag {k i : Nat} (hk : k < 64) : (BitVec.twoPow 64 k).getLsbD i = decide (k = i) := by
  rw [BitVec.getLsbD_twoPow]
  simp [hk]

theorem getLsbD_PTE_FLAGS (w : Pte) (i : Nat) : (PTE_FLAGS w).getLsbD i = (w.getLsbD i && decide (i < 10)) := by
  unfold PTE_FLAGS
  rw [BitVec.getLsbD_and]
  congr 1
  have h : (0x3FF#64 : BitVec 64) = BitVec.ofNat 64 (2 ^ 10 - 1) := rfl
  rw [h, BitVec.getLsbD_ofNat, Nat.testBit_two_pow_sub_one]
  by_cases hi : i < 10
  · simp [hi]
    omega
  · simp [hi]

/-- The entry that `mappages` writes. -/
def newEntry (pa : Nat) (perm : Pte) : Pte := PA2PTE pa ||| perm ||| PTE_V

theorem getLsbD_newEntry (pa : Nat) (perm : Pte) {i : Nat} (hi : i < 10) (h0 : i ≠ 0) :
    (newEntry pa perm).getLsbD i = perm.getLsbD i := by
  unfold newEntry PTE_V
  rw [BitVec.getLsbD_or, BitVec.getLsbD_or, getLsbD_PA2PTE_low pa hi, getLsbD_flag (by decide)]
  simp [h0.symm]

theorem newEntry_valid (pa : Nat) (perm : Pte) : has (newEntry pa perm) PTE_V = true := by
  rw [has_V]
  unfold newEntry PTE_V
  rw [BitVec.getLsbD_or, getLsbD_flag (by decide)]
  simp

theorem getLsbD_newEntry_high {pa : Nat} {perm : Pte} (hpa : pa < 2 ^ 62)
    (hperm : ∀ i, 10 ≤ i → perm.getLsbD i = false) {i : Nat} (hi : 62 ≤ i) : (newEntry pa perm).getLsbD i = false := by
  unfold newEntry PTE_V
  rw [BitVec.getLsbD_or, BitVec.getLsbD_or, getLsbD_PA2PTE_high hpa hi, hperm i (by omega), getLsbD_flag (by decide)]
  simp
  omega

theorem PTE2PA_newEntry_page (pa : Nat) {perm : Pte} (hperm : ∀ i, 10 ≤ i → perm.getLsbD i = false) :
    PTE2PA (newEntry pa perm) = pa % 2 ^ 64 / PGSIZE * PGSIZE := by
  unfold newEntry
  rw [BitVec.or_assoc]
  refine PTE2PA_PA2PTE_page pa _ fun i hi => ?_
  unfold PTE_V
  rw [BitVec.getLsbD_or, hperm i hi, getLsbD_flag (by decide)]
  simp
  omega

theorem PTE2PA_newEntry {pa : Nat} {perm : Pte} (hal : pa % PGSIZE = 0) (hlt : pa < 2 ^ 64)
    (hperm : ∀ i, 10 ≤ i → perm.getLsbD i = false) : PTE2PA (newEntry pa perm) = pa := by
  rw [PTE2PA_newEntry_page pa hperm, Nat.mod_eq_of_lt hlt]
  unfold PGSIZE at *
  omega

theorem PTE_FLAGS_newEntry (pa : Nat) {perm : Pte} (hperm : ∀ i, 10 ≤ i → perm.getLsbD i = false) :
    PTE_FLAGS (newEntry pa perm) = perm ||| PTE_V := by
  refine BitVec.eq_of_getLsbD_eq fun i hi => ?_
  unfold newEntry PTE_V
  rw [getLsbD_PTE_FLAGS, BitVec.getLsbD_or, BitVec.getLsbD_or, BitVec.getLsbD_or, getLsbD_flag (by decide)]
  by_cases h10 : i < 10
  · rw [getLsbD_PA2PTE_low pa h10]
    simp [h10]
  · rw [hperm i (by omega)]
    simp [h10]
    omega

-- proofs use the lemmas above; unfolding the shifts makes unification compare huge numerals
attribute [irreducible] PTE2PA

end Xv6.Vm
