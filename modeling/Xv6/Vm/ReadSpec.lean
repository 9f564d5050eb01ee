import Mathlib.Data.List.TakeWhile
import Xv6.Vm.UvmAlloc

/-!
# Reading user memory

`walkaddr`, `copyin` and `copyinstr` read the address space of a process and change nothing, so what
`fetchaddr` and `fetchstr` return is a function of the address space. `sys_exec` puts the strings it
fetches into pages of its own.
-/

set_option autoImplicit false

namespace Xv6.Vm

open Xv6.Base

section Read

variable {s s' : Kmem} {r : Nat} {rs held : List Nat}

/-- `walkaddr` returns the page of an address that the process may use, and 0 for any other. -/
theorem walkaddr_ok (r va : Nat) (s : Kmem) : ∃ pa, walkaddr r va s = .ok (pa, s) ∧
    (va < MAXVA → UserEntry (pte s.mem r (va / PGSIZE)) → pa = PTE2PA (pte s.mem r (va / PGSIZE))) ∧
      (¬ (va < MAXVA ∧ UserEntry (pte s.mem r (va / PGSIZE))) → pa = 0) := by
  unfold walkaddr
  by_cases hva : MAXVA ≤ va
  · exact ⟨0, by rw [if_pos hva]; rfl, fun hlt => by omega, fun _ => rfl⟩
  · have hlt : va < MAXVA := by omega
    rw [if_neg hva, bind_of_ok (walk_false hlt r s)]
    cases hs : slot s.mem (va / PGSIZE) 2 r with
    | none =>
      refine ⟨0, rfl, fun _ hu => ?_, fun _ => rfl⟩
      have hinv := slot_none_invalid hs
      rw [hu.1] at hinv
      cases hinv
    | some a =>
      simp only [bind_of_ok (rfl : readWord a s = .ok (ld64 s.mem a, s))]
      rw [slot_isSome_leaf (MAXVA_pages hlt) hs]
      unfold UserEntry
      cases has (pte s.mem r (va / PGSIZE)) PTE_V with
      | false => exact ⟨0, rfl, fun _ hu => by simp at hu, fun _ => rfl⟩
      | true =>
        cases has (pte s.mem r (va / PGSIZE)) PTE_U with
        | false => exact ⟨0, rfl, fun _ hu => by simp at hu, fun _ => rfl⟩
        | true => exact ⟨_, rfl, fun _ _ => rfl, fun hn => absurd ⟨hlt, rfl, rfl⟩ hn⟩

/-- A page that a table maps is not at address 0. -/
theorem Ledger.page_ne_zero {v : Nat} (h : Ledger s (r :: rs) held) (hv : v < UPAGES)
    (hval : has (pte s.mem r v) PTE_V = true) : PTE2PA (pte s.mem r v) ≠ 0 := by
  have h1 := (h.user_frame hv hval).2.1
  have h2 := h.counts.kend_le
  have h3 : 0 < KERNBASE := by decide
  omega

/-- What `walkaddr` finds at a page, as the process sees it. -/
theorem walkaddr_umem (va : Nat) (h : Ledger s (r :: rs) held) (hhigh : KernelHigh s.mem r) :
    ∃ pa, walkaddr r va s = .ok (pa, s) ∧
      ((pa = 0 ∧ (MAXVA ≤ va ∨ ∀ p, umem s.mem r (va / PGSIZE) = some p → p.user = false)) ∨
      (pa ≠ 0 ∧ va < MAXVA ∧ va / PGSIZE < UPAGES ∧ UserEntry (pte s.mem r (va / PGSIZE)) ∧
        pa = PTE2PA (pte s.mem r (va / PGSIZE)) ∧
        ∃ p, umem s.mem r (va / PGSIZE) = some p ∧ p.user = true ∧ p.bytes = pageAt s.mem pa)) := by
  obtain ⟨pa, hw, hyes, hno⟩ := walkaddr_ok r va s
  refine ⟨pa, hw, ?_⟩
  by_cases hva : va < MAXVA
  · by_cases hu : UserEntry (pte s.mem r (va / PGSIZE))
    · have hv : va / PGSIZE < UPAGES := hhigh.user_lt hu.2
      have hpa := hyes hva hu
      refine .inr ⟨by rw [hpa]; exact h.page_ne_zero hv hu.1, hva, hv, hu, hpa, ?_⟩
      rw [umem_of_lt _ _ hv, decode, if_pos hu.1, hpa]
      exact ⟨_, rfl, hu.2, rfl⟩
    · refine .inl ⟨hno fun hc => hu hc.2, .inr fun p hp => ?_⟩
      rcases not_userEntry_umem hu with hnone | ⟨q, hq, hqu⟩
      · rw [hnone] at hp
        cases hp
      · rw [hq] at hp
        cases hp
        exact hqu
  · exact .inl ⟨hno fun hc => hva hc.1, .inl (by omega)⟩

theorem pageAt_apply (m : Mem) {f i : Nat} (hi : i < PGSIZE) : pageAt m f i = m (f + i) := if_pos hi

theorem pieceLen_lt {va len i : Nat} (hi : i < pieceLen va len) : va % PGSIZE + i < PGSIZE := by
  unfold pieceLen at hi
  omega

/-- `copyin` reads the address space. -/
theorem copyinLoop_eq (h : Ledger s (r :: rs) held) (hhigh : KernelHigh s.mem r) (fuel srcva len : Nat) :
    copyinLoop r fuel srcva len s = .ok ((umem s.mem r).copyin fuel srcva len, s) := by
  induction fuel generalizing srcva len with
  | zero => rfl
  | succ fuel ih =>
    rw [copyinLoop, UMem.copyin]
    by_cases hlen : len = 0
    · rw [if_pos hlen, if_pos hlen]
      rfl
    obtain ⟨pa, hw, hcase⟩ := walkaddr_umem (PGROUNDDOWN srcva) h hhigh
    rw [PGROUNDDOWN_div] at hcase
    rw [if_neg hlen, if_neg hlen, bind_of_ok hw, ite_run]
    rcases hcase with ⟨hpa, hno⟩ | ⟨hpa, hva, -, -, -, p, hp, hpu, hbytes⟩
    · rw [if_pos hpa]
      by_cases hva : MAXVA ≤ PGROUNDDOWN srcva
      · rw [if_pos hva]
        rfl
      · have hno := hno.resolve_left hva
        rw [if_neg hva]
        cases hp : umem s.mem r (srcva / PGSIZE) with
        | none => rfl
        | some p =>
          simp only [hno p hp]
          rfl
    · rw [if_neg hpa, if_neg (by omega), hp, sub_PGROUNDDOWN]
      simp only [hpu, if_true]
      -- the bytes of this page
      have hpiece : ((List.range (min (PGSIZE - srcva % PGSIZE) len)).map fun k =>
          s.mem (pa + srcva % PGSIZE + k)) =
          (List.range (pieceLen srcva len)).map fun i => p.bytes (srcva % PGSIZE + i) := by
        apply List.map_congr_left
        intro k hk
        rw [hbytes, pageAt_apply _ (pieceLen_lt (List.mem_range.1 hk)), Nat.add_assoc]
      refine (bind_of_ok rfl _).trans ((bind_of_ok (ih _ _) _).trans ?_)
      rw [hpiece]
      rfl

theorem scanStr_congr {m m' : Mem} : ∀ {n p q : Nat}, (∀ i < n, m (p + i) = m' (q + i)) →
    scanStr m n p = scanStr m' n q
  | 0, _, _, _ => rfl
  | n + 1, p, q, h => by
    have h0 := h 0 (by omega)
    have ih : scanStr m n (p + 1) = scanStr m' n (q + 1) := scanStr_congr fun i hi => by
      have := h (i + 1) (by omega)
      rwa [show p + 1 + i = p + (i + 1) by omega, show q + 1 + i = q + (i + 1) by omega]
    simp only [Nat.add_zero] at h0
    simp only [scanStr, h0, ih]

section

variable (h : Ledger s (r :: rs) held) (hhigh : KernelHigh s.mem r)
include h hhigh

/-- `copyinstr` reads the address space. -/
theorem copyinstrLoop_umem (fuel srcva max : Nat) :
    copyinstrLoop r fuel srcva max s = .ok ((umem s.mem r).copyinstr fuel srcva max, s) := by
  induction fuel generalizing srcva max with
  | zero => rfl
  | succ fuel ih =>
    rw [copyinstrLoop, UMem.copyinstr]
    by_cases hmax : max = 0
    · rw [if_pos hmax, if_pos hmax]
      rfl
    obtain ⟨pa, hw, hcase⟩ := walkaddr_umem (PGROUNDDOWN srcva) h hhigh
    rw [PGROUNDDOWN_div] at hcase
    rw [if_neg hmax, if_neg hmax, bind_of_ok hw, ite_run]
    rcases hcase with ⟨hpa, hno⟩ | ⟨hpa, hva, -, -, -, p, hp, hpu, hbytes⟩
    · rw [if_pos hpa]
      by_cases hva : MAXVA ≤ PGROUNDDOWN srcva
      · rw [if_pos hva]
        rfl
      · have hno := hno.resolve_left hva
        rw [if_neg hva]
        cases hp : umem s.mem r (srcva / PGSIZE) with
        | none => rfl
        | some p =>
          simp only [hno p hp]
          rfl
    · rw [if_neg hpa, if_neg (by omega), hp, sub_PGROUNDDOWN]
      simp only [hpu, if_true]
      have hscan : scanStr s.mem (min (PGSIZE - srcva % PGSIZE) max) (pa + srcva % PGSIZE) =
          scanStr p.bytes (pieceLen srcva max) (srcva % PGSIZE) := by
        apply scanStr_congr
        intro i hi
        rw [hbytes, pageAt_apply _ (pieceLen_lt hi), Nat.add_assoc]
      refine (bind_of_ok rfl _).trans ?_
      rw [hscan, ite_run]
      by_cases hnull : (scanStr p.bytes (pieceLen srcva max) (srcva % PGSIZE)).2 = true
      · rw [if_pos hnull, if_pos hnull]
        rfl
      · rw [if_neg hnull, if_neg hnull]
        exact (bind_of_ok (ih _ _) _).trans rfl

theorem fetchaddr_eq (sz addr : Nat) : fetchaddr r sz addr s = .ok ((umem s.mem r).fetchaddr sz addr, s) := by
  unfold fetchaddr UMem.fetchaddr
  split_ifs with hsz
  · rfl
  · refine (bind_of_ok (copyinLoop_eq h hhigh 8 addr 8) _).trans ?_
    simp only [ite_run]
    split_ifs <;> rfl

theorem fetchstr_eq (addr max : Nat) : fetchstr r addr max s = .ok ((umem s.mem r).fetchstr addr max, s) := by
  unfold fetchstr UMem.fetchstr
  refine (bind_of_ok (copyinstrLoop_umem h hhigh max addr max) _).trans ?_
  simp only [ite_run]
  split_ifs <;> rfl

end

/-- `copyinstr` stores at most `max` bytes. -/
theorem scanStr_length (m : Mem) : ∀ n p : Nat, (scanStr m n p).1.length ≤ n
  | 0, _ => Nat.le_refl 0
  | n + 1, p => by
    have ih := scanStr_length m n (p + 1)
    unfold scanStr
    split_ifs
    · simp
    · simpa using ih

/-- The last byte that `copyinstr` stores for a complete string is its only 0. -/
theorem scanStr_null (m : Mem) : ∀ n p : Nat, (scanStr m n p).2 = true →
    (0 : UInt8) ∈ (scanStr m n p).1
  | 0, _, h => by cases h
  | n + 1, p, h => by
    unfold scanStr at h ⊢
    split_ifs at h ⊢ with h0
    · exact List.mem_singleton_self 0
    · exact .tail _ (scanStr_null m n (p + 1) h)

theorem UMem.copyinstr_spec (M : UMem) : ∀ k srcva max : Nat,
    (M.copyinstr k srcva max).2.length ≤ max ∧
      (¬ (M.copyinstr k srcva max).1 < 0 → (0 : UInt8) ∈ (M.copyinstr k srcva max).2)
  | 0, _, _ => ⟨Nat.zero_le _, fun h => absurd (show (-1 : Int) < 0 by decide) h⟩
  | k + 1, srcva, max => by
    rw [UMem.copyinstr]
    split_ifs with h1 h2
    · exact ⟨Nat.zero_le _, fun h => absurd (show (-1 : Int) < 0 by decide) h⟩
    · exact ⟨Nat.zero_le _, fun h => absurd (show (-1 : Int) < 0 by decide) h⟩
    · cases M (srcva / PGSIZE) with
      | none => exact ⟨Nat.zero_le _, fun h => absurd (show (-1 : Int) < 0 by decide) h⟩
      | some p =>
        have hlen := scanStr_length p.bytes (pieceLen srcva max) (srcva % PGSIZE)
        have hle : pieceLen srcva max ≤ max := Nat.min_le_right ..
        simp only
        split_ifs with hu hnull
        · exact ⟨hlen.trans hle, fun _ => scanStr_null _ _ _ hnull⟩
        · obtain ⟨ih1, ih2⟩ := UMem.copyinstr_spec M k
            ((PGROUNDDOWN srcva + PGSIZE) % 2 ^ 64) (max - pieceLen srcva max)
          refine ⟨?_, fun h => List.mem_append_right _ (ih2 h)⟩
          rw [List.length_append]
          omega
        · exact ⟨Nat.zero_le _, fun h => absurd (show (-1 : Int) < 0 by decide) h⟩

theorem UMem.fetchstr_stored (M : UMem) (addr max : Nat) : (M.fetchstr addr max).2.length ≤ max := by
  have hlen := (UMem.copyinstr_spec M max addr max).1
  unfold UMem.fetchstr
  simp only
  split_ifs
  · exact hlen
  · exact hlen

/-- A string that `fetchstr` returns is shorter than the buffer. -/
theorem UMem.fetchstr_length {M : UMem} {addr max : Nat} (h : ¬ (M.fetchstr addr max).1 < 0) :
    ((M.fetchstr addr max).2.takeWhile (· != 0)).length < max := by
  obtain ⟨hlen, hnull⟩ := UMem.copyinstr_spec M max addr max
  unfold UMem.fetchstr at h ⊢
  by_cases hneg : (M.copyinstr max addr max).1 < 0
  · simp [hneg] at h
  · simp only [if_neg hneg]
    refine Nat.lt_of_lt_of_le ?_ hlen
    by_contra hge
    have hall : (M.copyinstr max addr max).2.takeWhile (· != 0) = (M.copyinstr max addr max).2 :=
      (List.takeWhile_prefix _).eq_of_length_le (by omega)
    have := List.takeWhile_eq_self_iff.1 hall 0 (hnull hneg)
    simp at this

/-- Freeing pages that the kernel holds. -/
theorem kfreeAll_meets {roots ps : List Nat} (h : Ledger s roots (ps ++ held)) :
    Meets (fun _ => False) (kfreeAll ps) s fun _ s' =>
      Ledger s' roots held ∧ Keeps s s' roots held ∧ s'.exhausted = s.exhausted := by
  induction ps generalizing s with
  | nil => exact .pure ⟨h, .refl _ _ _, rfl⟩
  | cons p ps ih =>
    refine .bind (kfree_held_meets h) ?_
    rintro - s1 ⟨hl1, hk1, hex1⟩
    refine (ih hl1).weaken ?_
    rintro - s' ⟨hl, hk, hex⟩
    refine ⟨hl, .trans ?_ hk, hex.trans hex1⟩
    exact hk1.mono (.refl _) (List.sublist_append_right ps held)

theorem KernelHigh.keep {roots : List Nat} (h : KernelHigh s.mem r) (hk : Keeps s s' roots held)
    (hr : r ∈ roots) : KernelHigh s'.mem r := by
  intro v hv
  rw [hk.pte hr]
  exact h v hv

/-- The loop of `sys_exec` over its arguments: the strings are those in the address space. -/
theorem fetchArgs_meets {sz uargv n i : Nat} (h : Ledger s (r :: rs) held) (hhigh : KernelHigh s.mem r) :
    Meets (fun _ => False) (fetchArgs r sz uargv n i) s fun ret s' =>
      Ledger s' (r :: rs) (ret.2.1 ++ held) ∧ Keeps s s' (r :: rs) held ∧
      ((ret.1 = false ∧ s.exhausted < s'.exhausted) ∨ (s'.exhausted = s.exhausted ∧
          (umem s.mem r).fetchArgs sz uargv n i = if ret.1 then some ret.2.2 else none)) ∧
      ∀ a ∈ ret.2.2, a.length < PGSIZE := by
  have hnil : ∀ a ∈ ([] : List (List UInt8)), a.length < PGSIZE := fun a ha => by cases ha
  induction n generalizing i s held with
  | zero => exact .pure ⟨h, .refl _ _ _, .inr ⟨rfl, rfl⟩, hnil⟩
  | succ n ih =>
    rw [fetchArgs, UMem.fetchArgs]
    refine .step (fetchaddr_eq h hhigh sz _) ?_
    by_cases hneg : ((umem s.mem r).fetchaddr sz ((uargv + 8 * i) % 2 ^ 64)).1 < 0
    · simp only [if_pos hneg]
      exact .pure ⟨h, .refl _ _ _, .inr ⟨rfl, rfl⟩, hnil⟩
    by_cases hzero : ((umem s.mem r).fetchaddr sz ((uargv + 8 * i) % 2 ^ 64)).2 = 0
    · simp only [if_neg hneg, if_pos hzero]
      exact .pure ⟨h, .refl _ _ _, .inr ⟨rfl, rfl⟩, hnil⟩
    simp only [if_neg hneg, if_neg hzero]
    refine .bind (kalloc_meets h) ?_
    rintro _ s2 (⟨rfl, rfl⟩ | ⟨page, rfl, hl2, hk2, hex2⟩)
    · exact .pure ⟨h.exhaust, .exhaust _ _ _, .inl ⟨rfl, Nat.lt_succ_self _⟩, hnil⟩
    refine .step (fetchstr_eq hl2 (hhigh.keep hk2 (.head _)) _ _) (.step rfl ?_)
    rw [hk2.umem (.head _)]
    -- the string goes to a page that the kernel holds
    have hpf := hl2.frame (owners_pos_of_held (List.mem_cons_self (a := page) (l := held)))
    have hstr := UMem.fetchstr_stored (umem s.mem r) ((umem s.mem r).fetchaddr sz ((uargv + 8 * i) % 2 ^ 64)).2 PGSIZE
    obtain ⟨hl4, hk4⟩ := hl2.writeHeld fun f hf hne =>
      pageEq_writeBytes s2.mem 0 hpf.1 hf (by rw [Nat.zero_add]; exact hstr) hne
    have hkeep := hk2.trans hk4
    split_ifs with hneg2
    · exact .pure ⟨hl4, hkeep, .inr ⟨hex2, rfl⟩, hnil⟩
    · refine (ih hl4 (hhigh.keep hkeep (.head _))).bind ?_
      rintro rest s5 ⟨hl5, hk5, hcase, hshort⟩
      rw [hkeep.umem (.head _)] at hcase
      refine .pure ⟨hl5.permHeld List.perm_middle,
        hkeep.trans (hk5.mono (.refl _) (List.sublist_cons_self ..)), ?_, fun a ha => ?_⟩
      · rcases hcase with ⟨hfalse, hex⟩ | ⟨hex, hargs⟩
        · exact .inl ⟨hfalse, by rw [← hex2]; exact hex⟩
        · refine .inr ⟨hex.trans hex2, ?_⟩
          simp only [hargs]
          cases rest.1 <;> rfl
      · rcases List.mem_cons.1 ha with rfl | ha
        · exact UMem.fetchstr_length hneg2
        · exact hshort a ha

end Read

end Xv6.Vm
