import Xv6.Vm.ReadSpec

/-!
# The string that `copyinstr` reads

`copyinstr` walks user memory a page at a time. Byte by byte it is a search for the first 0 within
`max` bytes, through pages that the process may read; nothing after the byte where the search stops
matters.
-/

set_option autoImplicit false

namespace Xv6.Vm

open Xv6.Base

/-- The byte at the user address `va`, if the process may read it. `walkaddr` reports a missing page
as physical address 0, where there is no memory. -/
def userByte (m : Mem) (r va : Nat) : Option UInt8 :=
  if va < MAXVA ∧ has (pte m r (va / PGSIZE)) PTE_V ∧ has (pte m r (va / PGSIZE)) PTE_U ∧
      PTE2PA (pte m r (va / PGSIZE)) ≠ 0 then
    some (m (PTE2PA (pte m r (va / PGSIZE)) + va % PGSIZE))
  else none

/-- Reading a string of at most `max` bytes at `va`, its 0 included: the result and the bytes read
before the search stops. -/
def readString (f : Nat → Option UInt8) : Nat → Nat → Int × List UInt8
  | 0, _ => (-1, [])
  | max + 1, va =>
    match f va with
    | none => (-1, [])
    | some c =>
      if c = 0 then (0, [0])
      else ((readString f max (va + 1)).1, c :: (readString f max (va + 1)).2)

/-- `bs` and a 0 stand at `va`, and `bs` has no 0. -/
def StringAt (f : Nat → Option UInt8) (va : Nat) (bs : List UInt8) : Prop :=
  (∀ i (hi : i < bs.length), f (va + i) = some bs[i] ∧ bs[i] ≠ 0) ∧ f (va + bs.length) = some 0

section Strings

variable {f : Nat → Option UInt8}

theorem stringAt_nil {va : Nat} : StringAt f va [] ↔ f va = some 0 := by
  simp [StringAt]

theorem stringAt_cons {va : Nat} {c : UInt8} {bs : List UInt8} :
    StringAt f va (c :: bs) ↔ (f va = some c ∧ c ≠ 0) ∧ StringAt f (va + 1) bs := by
  simp only [StringAt, List.length_cons, Nat.forall_lt_succ_left', List.getElem_cons_zero,
    List.getElem_cons_succ, Nat.add_zero, and_assoc, Nat.add_assoc, Nat.add_comm 1]

/-- The result is 0 exactly when a string of less than `max` bytes stands there; then that string
and its 0 have been stored. -/
theorem readString_iff (max va : Nat) (dst : List UInt8) : readString f max va = (0, dst) ↔
      ∃ bs, bs.length < max ∧ StringAt f va bs ∧ dst = bs ++ [0] := by
  induction max generalizing va dst with
  | zero => simp [readString]
  | succ max ih =>
    constructor
    · intro h
      rw [readString] at h
      cases hf : f va with
      | none => simp [hf] at h
      | some c =>
        simp only [hf] at h
        split_ifs at h with hc
        · cases h
          exact ⟨[], Nat.succ_pos _, stringAt_nil.2 (hc ▸ hf), rfl⟩
        · obtain ⟨h0, rfl⟩ := Prod.mk.inj h
          obtain ⟨bs, hlen, hat, hdst⟩ := (ih (va + 1) _).1 (Prod.ext h0 rfl)
          exact ⟨c :: bs, Nat.succ_lt_succ hlen, stringAt_cons.2 ⟨⟨hf, hc⟩, hat⟩, congrArg (c :: ·) hdst⟩
    · rintro ⟨bs, hlen, hat, rfl⟩
      cases bs with
      | nil => simp [readString, stringAt_nil.1 hat]
      | cons c bs =>
        obtain ⟨⟨hf, hc⟩, hat⟩ := stringAt_cons.1 hat
        have hrest := (ih (va + 1) _).2 ⟨bs, Nat.lt_of_succ_lt_succ hlen, hat, rfl⟩
        simp [readString, hf, hc, hrest]

theorem readString_result (max va : Nat) : ((readString f max va).1 = 0 ∨ (readString f max va).1 = -1) ∧
      (readString f max va).2.length ≤ max := by
  induction max generalizing va with
  | zero => simp [readString]
  | succ max ih =>
    rw [readString]
    cases f va with
    | none => simp
    | some c =>
      simp only
      split_ifs
      · simp
      · exact ⟨(ih (va + 1)).1, Nat.succ_le_succ (ih (va + 1)).2⟩

/-- Bytes behind the one where the search stops do not matter. -/
theorem readString_congr {g : Nat → Option UInt8} {max va n : Nat} (h : ∀ i < n, f (va + i) = g (va + i))
    (hstop : max ≤ n ∨ ∃ i < n, f (va + i) = none ∨ f (va + i) = some 0) :
    readString f max va = readString g max va := by
  induction max generalizing va n with
  | zero => rfl
  | succ max ih =>
    have hn : 0 < n := by
      rcases hstop with hle | ⟨i, hi, -⟩ <;> omega
    have h0 : f va = g va := h 0 hn
    rw [readString, readString, ← h0]
    cases hf : f va with
    | none => rfl
    | some c =>
      by_cases hc : c = 0
      · simp [hc]
      · have hrest := @ih (va + 1) (n - 1)
          (fun i hi => by simpa [Nat.add_assoc, Nat.add_comm 1] using h (i + 1) (by omega)) (by
            rcases hstop with hle | ⟨i, hi, hs⟩
            · exact .inl (by omega)
            · -- the search does not stop at the first byte, so it stops at a later one
              cases i with
              | zero => simp [hf, hc] at hs
              | succ i =>
                exact .inr ⟨i, by omega, by simpa [Nat.add_assoc, Nat.add_comm 1] using hs⟩)
        simp [hc, hrest]

/-- The part of the search within one page is the inner loop of `copyinstr`. -/
theorem readString_page {m : Mem} {n max va p : Nat} (hn : n ≤ max) (h : ∀ i < n, f (va + i) = some (m (p + i))) :
    readString f max va = if (scanStr m n p).2 then (0, (scanStr m n p).1) else ((readString f (max - n) (va + n)).1,
        (scanStr m n p).1 ++ (readString f (max - n) (va + n)).2) := by
  induction n generalizing max va p with
  | zero => simp [scanStr]
  | succ n ih =>
    obtain ⟨max, rfl⟩ : ∃ k, max = k + 1 := ⟨max - 1, by omega⟩
    have h0 : f va = some (m p) := h 0 (Nat.succ_pos _)
    have hrest := @ih max (va + 1) (p + 1) (by omega) fun i hi => by
      simpa [Nat.add_assoc, Nat.add_comm 1] using h (i + 1) (by omega)
    rw [readString, h0, scanStr]
    by_cases hc : m p = 0
    · simp [hc]
    · simp only [if_neg hc, hrest, Nat.add_sub_add_right, Nat.add_assoc, Nat.add_comm 1]
      split_ifs <;> rfl

end Strings

section Copyinstr

variable {s : Kmem} {r : Nat}

/-- `walkaddr` finds the page of a byte that the process may read. -/
theorem walkaddr_userByte (va : Nat) : ∃ pa, walkaddr r (PGROUNDDOWN va) s = .ok (pa, s) ∧
      (pa = 0 → userByte s.mem r va = none) ∧
      (pa ≠ 0 → ∀ i, va % PGSIZE + i < PGSIZE → PGROUNDDOWN va + PGSIZE ≤ MAXVA ∧
        userByte s.mem r (va + i) = some (s.mem (pa + va % PGSIZE + i))) := by
  obtain ⟨pa, hw, hpa, hno⟩ := walkaddr_ok r (PGROUNDDOWN va) s
  rw [PGROUNDDOWN_div] at hpa hno
  have hdown : PGROUNDDOWN va + va % PGSIZE = va := by
    have := sub_PGROUNDDOWN va
    have hle : PGROUNDDOWN va ≤ va := Nat.div_mul_le_self ..
    omega
  refine ⟨pa, hw, fun h0 => ?_, fun h0 i hi => ?_⟩
  · rw [userByte, if_neg]
    rintro ⟨hva, hV, hU, hne⟩
    exact hne ((hpa (by omega) ⟨hV, hU⟩) ▸ h0)
  · obtain ⟨hva, hu⟩ : PGROUNDDOWN va < MAXVA ∧ UserEntry (pte s.mem r (va / PGSIZE)) := by
      by_contra hc
      exact h0 (hno hc)
    have hlast : PGROUNDDOWN va + PGSIZE ≤ MAXVA := by
      simp only [PGROUNDDOWN, MAXVA, PGSIZE] at hva ⊢
      omega
    have hpage : (va + i) / PGSIZE = va / PGSIZE := by
      simp only [PGSIZE] at hi ⊢
      omega
    have hoff : (va + i) % PGSIZE = va % PGSIZE + i := by
      simp only [PGSIZE] at hi ⊢
      omega
    obtain rfl := hpa hva hu
    refine ⟨hlast, ?_⟩
    rw [userByte, hpage, hoff, if_pos ⟨by omega, hu.1, hu.2, h0⟩, Nat.add_assoc]

theorem copyinstrLoop_eq (fuel srcva max : Nat) (h : max ≤ fuel) :
    copyinstrLoop r fuel srcva max s = .ok (readString (userByte s.mem r) max srcva, s) := by
  induction fuel generalizing srcva max with
  | zero =>
    obtain rfl : max = 0 := by omega
    rfl
  | succ fuel ih =>
    rw [copyinstrLoop]
    by_cases hmax : max = 0
    · subst hmax
      rfl
    obtain ⟨pa, hw, hnone, hsome⟩ := walkaddr_userByte (s := s) (r := r) srcva
    rw [if_neg hmax, bind_of_ok hw, ite_run]
    by_cases h0 : pa = 0
    · obtain ⟨max, rfl⟩ : ∃ k, max = k + 1 := ⟨max - 1, by omega⟩
      rw [if_pos h0, readString, hnone h0]
      rfl
    rw [if_neg h0, sub_PGROUNDDOWN]
    have hlt : srcva % PGSIZE < PGSIZE := Nat.mod_lt _ (by decide)
    obtain ⟨hlast, -⟩ := hsome h0 0 (by omega)
    have hpage := readString_page (f := userByte s.mem r) (m := s.mem) (p := pa + srcva % PGSIZE)
      (Nat.min_le_right (PGSIZE - srcva % PGSIZE) max) fun i hi => (hsome h0 i (by omega)).2
    have hrest : copyinstrLoop r fuel ((PGROUNDDOWN srcva + PGSIZE) % 2 ^ 64)
        (max - min (PGSIZE - srcva % PGSIZE) max) s =
          .ok (readString (userByte s.mem r) (max - min (PGSIZE - srcva % PGSIZE) max)
            (srcva + min (PGSIZE - srcva % PGSIZE) max), s) := by
      rw [ih _ _ (by omega)]
      by_cases hle : PGSIZE - srcva % PGSIZE ≤ max
      · -- the next address does not wrap: the page just read lies below `MAXVA`
        have hoff := sub_PGROUNDDOWN srcva
        have hdown : PGROUNDDOWN srcva ≤ srcva := Nat.div_mul_le_self ..
        rw [Nat.mod_eq_of_lt (Nat.lt_of_le_of_lt hlast (by decide)), Nat.min_eq_left hle,
          show PGROUNDDOWN srcva + PGSIZE = srcva + (PGSIZE - srcva % PGSIZE) by omega]
      · rw [Nat.min_eq_right (by omega), Nat.sub_self]
        simp only [readString]
    rw [bind_of_ok (rfl : (fun s => .ok (s.mem, s) : KM Mem) s = .ok (s.mem, s)), ite_run, hpage]
    split_ifs with hnull
    · rfl
    · rw [bind_of_ok hrest]
      rfl

/-- In the table of a process the bytes that may be read are those of pages with a valid user
entry. -/
theorem Ledger.userByte_isSome {rs held : List Nat} (h : Ledger s (r :: rs) held)
    (hhigh : KernelHigh s.mem r) (va : Nat) :
    (userByte s.mem r va).isSome ↔ va < MAXVA ∧ UserEntry (pte s.mem r (va / PGSIZE)) := by
  unfold userByte
  constructor
  · intro hsome
    split_ifs at hsome with hc
    · exact ⟨hc.1, hc.2.1, hc.2.2.1⟩
    · cases hsome
  · rintro ⟨hva, hV, hU⟩
    rw [if_pos ⟨hva, hV, hU, h.page_ne_zero (hhigh.user_lt hU) hV⟩]
    rfl

/-- `copyinstr` on any page table at any address returns, changing nothing. The result is 0 exactly
when a string shorter than `max` stands at `srcva`, every byte of it and its 0 in pages that the
process may read; then these bytes are all that is stored. At most `max` bytes are ever stored, and
what another memory holds behind the byte where the search stops makes no difference. In the table
of a process, the bytes that may be read are those of pages with a valid user entry. -/
theorem copyinstr_exact (s : Kmem) (r srcva max : Nat) :
    (∀ rs held, Ledger s (r :: rs) held → KernelHigh s.mem r → ∀ va,
      (userByte s.mem r va).isSome ↔ va < MAXVA ∧ UserEntry (pte s.mem r (va / PGSIZE))) ∧
    ∃ ret dst, copyinstr r srcva max s = .ok ((ret, dst), s) ∧ (ret = 0 ∨ ret = -1) ∧
      dst.length ≤ max ∧
      (ret = 0 ↔ ∃ bs, bs.length < max ∧ StringAt (userByte s.mem r) srcva bs) ∧
      (∀ bs, bs.length < max → StringAt (userByte s.mem r) srcva bs → dst = bs ++ [0]) ∧
      ∀ s' r' n, (∀ i < n, userByte s.mem r (srcva + i) = userByte s'.mem r' (srcva + i)) →
        (max ≤ n ∨ ∃ i < n, userByte s.mem r (srcva + i) = none ∨
          userByte s.mem r (srcva + i) = some 0) →
        copyinstr r' srcva max s' = .ok ((ret, dst), s') := by
  refine ⟨fun rs held h hhigh => h.userByte_isSome hhigh, _, _,
    copyinstrLoop_eq max srcva max (Nat.le_refl _), (readString_result max srcva).1,
    (readString_result max srcva).2, ⟨fun h => ?_, ?_⟩, fun bs hlen hat => ?_, ?_⟩
  · obtain ⟨bs, hlen, hat, -⟩ := (readString_iff max srcva _).1 (Prod.ext h rfl)
    exact ⟨bs, hlen, hat⟩
  · rintro ⟨bs, hlen, hat⟩
    rw [(readString_iff max srcva _).2 ⟨bs, hlen, hat, rfl⟩]
  · rw [(readString_iff max srcva _).2 ⟨bs, hlen, hat, rfl⟩]
  · intro s' r' n hsame hstop
    rw [readString_congr hsame hstop]
    exact copyinstrLoop_eq max srcva max (Nat.le_refl _)

end Copyinstr

end Xv6.Vm
