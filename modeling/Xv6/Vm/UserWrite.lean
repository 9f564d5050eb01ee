import Xv6.Vm.CowDecision

/-!
# The bytes that `copyout` writes

`copyout` goes through user memory a page at a time and resolves copy on write as it goes. Byte by
byte it writes the source from `dstva` on, all of it, or the part of it before the first page that it
cannot write.
-/

set_option autoImplicit false

namespace Xv6.Vm

open Function Xv6.Base

/-- An address space after `bs` is written from the address `va` on, where there are pages. -/
def UMem.write (M : UMem) (va : Nat) (bs : List UInt8) : UMem := fun v =>
  (M v).map fun p => { p with
    bytes := fun o =>
      if o < PGSIZE ∧ va ≤ v * PGSIZE + o then (bs[v * PGSIZE + o - va]?).getD (p.bytes o)
      else p.bytes o }

/-- The process may write the byte at `va`. -/
def UMem.Writable (M : UMem) (va : Nat) : Prop :=
  va < MAXVA ∧ ∃ p, M (va / PGSIZE) = some p ∧ (p.user && p.write) = true

section Pure

variable {M : UMem} {va : Nat}

theorem UMem.write_nil : M.write va [] = M := by
  funext v
  cases hv : M v with
  | none | some p => simp [UMem.write, hv]

theorem UMem.writable_put {v off va' : Nat} {bs : List UInt8} : (M.put v off bs).Writable va' ↔ M.Writable va' := by
  unfold UMem.Writable UMem.put
  by_cases hv : va' / PGSIZE = v
  · rw [hv, update_self]
    cases M v <;> simp
  · rw [update_of_ne hv]

/-- A piece within the first page and the rest from the next page on. -/
theorem UMem.put_write {cs ds : List UInt8} (hfit : va % PGSIZE + cs.length ≤ PGSIZE)
    (hend : ds = [] ∨ va % PGSIZE + cs.length = PGSIZE) :
    (M.put (va / PGSIZE) (va % PGSIZE) cs).write ((va / PGSIZE + 1) * PGSIZE) ds = M.write va (cs ++ ds) := by
  have hva := Nat.div_add_mod' va PGSIZE
  have hnext : (va / PGSIZE + 1) * PGSIZE = va / PGSIZE * PGSIZE + PGSIZE := Nat.succ_mul ..
  -- behind the piece there is nothing to write, or it starts where the piece ends
  have hrest : ∀ {j}, cs.length ≤ j → va % PGSIZE + j < PGSIZE → ds[j - cs.length]? = none := by
    intro j hj hlt
    rcases hend with rfl | hend
    · rfl
    · omega
  funext v
  unfold UMem.write UMem.put
  by_cases hv : v = va / PGSIZE
  · subst hv
    rw [update_self]
    cases M (va / PGSIZE) with
    | none => rfl
    | some p =>
      simp only [Option.map_some, Option.some.injEq, UPage.mk.injEq, true_and]
      funext o
      by_cases ho : o < PGSIZE
      · rw [if_neg (by omega)]
        by_cases hoff : va % PGSIZE ≤ o
        · rw [writeBytes, if_pos hoff, if_pos (by omega), List.getElem?_append,
            show va / PGSIZE * PGSIZE + o - va = o - va % PGSIZE by omega]
          split_ifs with hin
          · rfl
          · rw [hrest (by omega) (by omega), List.getElem?_eq_none (by omega)]
        · rw [writeBytes, if_neg hoff, if_neg (by omega)]
      · rw [if_neg (by omega), if_neg (by omega), writeBytes_of_not_mem _ (.inr (by omega))]
  · rw [update_of_ne hv]
    cases M v with
    | none => rfl
    | some p =>
      simp only [Option.map_some, Option.some.injEq, UPage.mk.injEq, true_and]
      funext o
      by_cases ho : o < PGSIZE
      · rcases Nat.lt_or_gt_of_ne hv with hlt | hgt
        · have hle := Nat.mul_le_mul_right PGSIZE (Nat.succ_le_of_lt hlt)
          rw [Nat.succ_mul] at hle
          rw [if_neg (by omega), if_neg (by omega)]
        · have hle := Nat.mul_le_mul_right PGSIZE (Nat.succ_le_of_lt hgt)
          rw [Nat.succ_eq_add_one, hnext] at hle
          rw [if_pos (by omega), if_pos (by omega), List.getElem?_append_right (by omega), hnext]
          rcases hend with rfl | hend
          · simp
          · rw [show v * PGSIZE + o - va - cs.length = v * PGSIZE + o - (va / PGSIZE * PGSIZE + PGSIZE) by omega]
      · rw [if_neg (by omega), if_neg (by omega)]

/-- What `copyout` writes, and when it stops. -/
theorem UMem.copyout_writes {k : Nat} {src : List UInt8} {ret : Int} {M' : UMem}
    (h : UMem.copyout k M va src = (ret, M')) :
    (ret = 0 ∧ (∀ i < src.length, M.Writable (va + i)) ∧ M' = M.write va src) ∨
      (ret = -1 ∧ ∃ n < src.length, (n = 0 ∨ (va + n) % PGSIZE = 0) ∧
        M' = M.write va (src.take n) ∧ (src.length ≤ k → ¬ M.Writable (va + n))) := by
  induction k generalizing M va src with
  | zero =>
    rw [UMem.copyout] at h
    split_ifs at h with hnil
    · obtain rfl := List.length_eq_zero_iff.1 hnil
      cases h
      exact .inl ⟨rfl, fun i hi => absurd hi (Nat.not_lt_zero i), UMem.write_nil.symm⟩
    · cases h
      exact .inr ⟨rfl, 0, by omega, .inl rfl, UMem.write_nil.symm, by omega⟩
  | succ k ih =>
    by_cases hnil : src.length = 0
    · obtain rfl := List.length_eq_zero_iff.1 hnil
      cases h
      exact .inl ⟨rfl, fun i hi => absurd hi (Nat.not_lt_zero i), UMem.write_nil.symm⟩
    by_cases hw : M.Writable va
    · obtain ⟨hva, p, hp, hpw⟩ := hw
      have hdown : PGROUNDDOWN va < MAXVA := Nat.lt_of_le_of_lt (Nat.div_mul_le_self ..) hva
      rw [UMem.copyout_piece hnil hdown hp hpw, next_page hdown] at h
      have hlen : (src.take (pieceLen va src.length)).length = pieceLen va src.length := by
        simp [pieceLen]
      have hfit := pieceLen_fits va src
      rw [hlen] at hfit
      have hnext := Nat.succ_mul (va / PGSIZE) PGSIZE
      have hdiv := Nat.div_add_mod' va PGSIZE
      -- the piece is all there is, or it ends with the page
      have hend : src.length = pieceLen va src.length ∨ va % PGSIZE + pieceLen va src.length = PGSIZE := by
        unfold pieceLen
        omega
      have hpage : ∀ i, va % PGSIZE + i < PGSIZE → M.Writable (va + i) := by
        intro i hi
        have hsame : (va + i) / PGSIZE = va / PGSIZE := by
          unfold PGSIZE at *
          omega
        refine ⟨?_, p, by rw [hsame]; exact hp, hpw⟩
        simp only [MAXVA, PGSIZE] at *
        omega
      rcases ih h with ⟨rfl, hall, rfl⟩ | ⟨rfl, n, hn, hal, rfl, hno⟩
      · refine .inl ⟨rfl, fun i hi => ?_, ?_⟩
        · by_cases hin : i < pieceLen va src.length
          · exact hpage i (by omega)
          · have hat := UMem.writable_put.1 (hall (i - pieceLen va src.length) (by rw [List.length_drop]; omega))
            rwa [hnext, show va / PGSIZE * PGSIZE + PGSIZE + (i - pieceLen va src.length) = va + i by
              omega] at hat
        · rw [UMem.put_write (by rw [hlen]; exact hfit) (by
            rw [hlen, List.drop_eq_nil_iff]
            exact hend.imp_left fun e => e.le), List.take_append_drop]
      · rw [List.length_drop] at hn hno
        have haddr : (va / PGSIZE + 1) * PGSIZE + n = va + (pieceLen va src.length + n) := by
          rw [hnext]
          omega
        refine .inr ⟨rfl, pieceLen va src.length + n, by omega, .inr ?_, ?_, fun hk hw => ?_⟩
        · rcases hal with rfl | hal
          · rw [← haddr, Nat.add_zero, Nat.mul_mod_left]
          · rw [← haddr]
            exact hal
        · rw [UMem.put_write (by rw [hlen]; exact hfit) (by rw [hlen]; omega), List.take_add]
        · have hpos : pieceLen va src.length ≠ 0 := by
            have := Nat.mod_lt va (show 0 < PGSIZE by decide)
            omega
          rw [← haddr] at hw
          exact hno (by omega) (UMem.writable_put.2 hw)
    · have hstop : UMem.copyout (k + 1) M va src = (-1, M) := by
        refine UMem.copyout_refused hnil ((Nat.lt_or_ge _ _).symm.imp_right fun hlt q hq => ?_)
        by_contra hc
        refine hw ⟨?_, q, hq, by simpa using hc⟩
        simp only [MAXVA, PGROUNDDOWN, PGSIZE] at *
        omega
      rw [hstop] at h
      cases h
      exact .inr ⟨rfl, 0, by omega, .inl rfl, UMem.write_nil.symm, fun _ => hw⟩

end Pure

/-- What `copyout` asks of the page of a byte: below `MAXVA`, valid, the user's, and writable or copy
on write. -/
def CopyTarget (m : Mem) (r va : Nat) : Prop :=
  va < MAXVA ∧ UserEntry (pte m r (va / PGSIZE)) ∧
    (has (pte m r (va / PGSIZE)) PTE_W = true ∨ has (pte m r (va / PGSIZE)) PTE_COW = true)

section Copyout

variable {s : Kmem} {r : Nat} {rs held : List Nat}

theorem writable_iff {m : Mem} (hhigh : KernelHigh m r) (va : Nat) : (umem m r).Writable va ↔ CopyTarget m r va := by
  refine and_congr_right fun _ => ⟨?_, ?_⟩
  · rintro ⟨p, hp, hpw⟩
    rw [Bool.and_eq_true] at hpw
    have hu := userEntry_of_umem hp hpw.1
    obtain ⟨q, hq, -, hqw⟩ := userEntry_umem (hhigh.user_lt hu.2) hu
    rw [hp] at hq
    cases hq
    rw [hpw.2, eq_comm, Bool.or_eq_true] at hqw
    exact ⟨hu, hqw⟩
  · rintro ⟨hu, hw⟩
    obtain ⟨p, hp, hpu, hpw⟩ := userEntry_umem (hhigh.user_lt hu.2) hu
    refine ⟨p, hp, ?_⟩
    rw [hpu, hpw, Bool.true_and, Bool.or_eq_true]
    exact hw

/-- `copyout` to the current process, or to a table whose pages in the range can be written as they
are: it always returns. It returns 0 exactly when every byte of the range is in a page that it may
write, and no `CowHandler` ran out of memory; then these bytes are the source and nothing else
changes. When it returns -1 it has written whole pieces of the first pages. No other address space
changes. -/
theorem copyout_exact {cur : Nat} (h : Ledger s (r :: rs) held) (hhigh : KernelHigh s.mem r)
    (dstva : Nat) (src : List UInt8)
    (hcur : cur = r ∨ ∀ i < src.length, UserEntry (pte s.mem r ((dstva + i) / PGSIZE)) →
      has (pte s.mem r ((dstva + i) / PGSIZE)) PTE_W = true) :
    ∃ ret s', copyout cur r dstva src s = .ok (ret, s') ∧ (ret = 0 ∨ ret = -1) ∧
      (ret = 0 ↔ (∀ i < src.length, CopyTarget s.mem r (dstva + i)) ∧
        s'.exhausted = s.exhausted) ∧
      (ret = 0 → umem s'.mem r = (umem s.mem r).write dstva src) ∧
      (ret = -1 → ∃ n < src.length, (n = 0 ∨ (dstva + n) % PGSIZE = 0) ∧
        umem s'.mem r = (umem s.mem r).write dstva (src.take n)) ∧
      (∀ r' ∈ rs, umem s'.mem r' = umem s.mem r') ∧ Ledger s' (r :: rs) held := by
  have htable : CopyTable cur r dstva src.length s.mem :=
    hcur.imp (fun hc => ⟨hc, hhigh⟩) fun hW i hi hu => ⟨hhigh.user_lt hu.2, hW i hi hu⟩
  obtain ⟨ret, s', hok, hl, hk, -, k, hcopy, hend⟩ :=
    (copyoutLoop_meets h htable (Nat.le_refl src.length)).returns
  refine ⟨ret, s', hok, ?_⟩
  simp only [← writable_iff hhigh]
  rcases UMem.copyout_writes hcopy with ⟨rfl, hall, hmem⟩ | ⟨rfl, n, hn, hal, hmem, hno⟩
  · have hex : s'.exhausted = s.exhausted := by
      rcases hend with ⟨-, hex⟩ | ⟨hret, -⟩
      · exact hex
      · cases hret
    exact ⟨Or.inl rfl, iff_of_true rfl ⟨hall, hex⟩, fun _ => hmem, nofun, fun r' hr' => hk.umem hr', hl⟩
  · refine ⟨Or.inr rfl, iff_of_false (by decide) ?_, nofun, fun _ => ⟨n, hn, hal, hmem⟩, fun r' hr' => hk.umem hr', hl⟩
    rintro ⟨hall, hex⟩
    rcases hend with ⟨rfl, -⟩ | ⟨-, hlt⟩
    · exact hno (Nat.le_refl _) (hall n hn)
    · omega

end Copyout

/-- A write to a page that two processes share. -/
theorem copyout_exact_forked :
    ∃ r rs held, Ledger forked.km (r :: rs) held ∧ KernelHigh forked.km.mem r ∧
      CowEntry (pte forked.km.mem r (100 / PGSIZE)) ∧
      ∃ ret s', copyout r r 100 [7] forked.km = .ok (ret, s') ∧
        (ret = 0 → umem s'.mem r = (umem forked.km.mem r).write 100 [7]) := by
  have hlive : (forked.table.proc ⟨0, by decide⟩).state ≠ .unused := by decide +kernel
  obtain ⟨r, tf, hm, ht, hl⟩ := (run_inv smallMachine_booted forked_run).focus hlive
  have hr : r = ((forked.table.proc ⟨0, by decide⟩).mem.pagetable).getD 0 := by
    rw [hm, Option.getD_some]
  have hcow : CowEntry (pte forked.km.mem r (100 / PGSIZE)) := by
    rw [hr]
    unfold CowEntry
    decide +kernel
  obtain ⟨ret, s', hok, -, -, hzero, -⟩ := copyout_exact hl ht.kernelHigh 100 [7] (Or.inl rfl)
  exact ⟨r, _, _, hl, ht.kernelHigh, hcow, ret, s', hok, hzero⟩

end Xv6.Vm
