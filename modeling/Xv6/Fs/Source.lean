import Xv6.Fs.Mapping

/-!
# Where `writei` takes bytes from

A source is a sequence of bytes. `either_copyin` copies some first part of what it is asked for, and all of it
unless it fails.
-/

set_option autoImplicit false

namespace Xv6.Fs

open Xv6.Base Xv6.Vm

/-- The byte at a user address. -/
def userByte (M : UMem) (a : Nat) : UInt8 := ((M (a / PGSIZE)).map fun p => p.bytes (a % PGSIZE)).getD 0

/-- Byte `j` of a source. -/
def Src.byte : Src → Nat → UInt8
  | .kernel buf, j => buf.getD j 0
  | .user M addr, j => userByte M ((addr + j) % 2 ^ 64)

/-- The first `n` bytes of a source after the first `tot`. -/
def Src.slice (src : Src) (tot n : Nat) : List UInt8 := (List.range n).map fun j => src.byte (tot + j)

/-- `r` is the outcome of copying `len` bytes of `f`. -/
structure Copies (f : Nat → UInt8) (len : Nat) (r : Int × List UInt8) : Prop where
  bytes : r.2 = (List.range r.2.length).map f
  done : (r.1 = 0 ∧ r.2.length = len) ∨ (r.1 = -1 ∧ r.2.length < len)

theorem Copies.fail {f : Nat → UInt8} {len : Nat} (h : len ≠ 0) : Copies f len (-1, []) :=
  ⟨rfl, .inr ⟨rfl, Nat.pos_of_ne_zero h⟩⟩

/-- A page, then the rest. -/
theorem Copies.append {f g : Nat → UInt8} {len n : Nat} {r : Int × List UInt8} (hn : n ≤ len)
    (h : Copies g (len - n) r) (hg : ∀ j, j < r.2.length → g j = f (n + j)) :
    Copies f len (r.1, (List.range n).map f ++ r.2) := by
  have hlen : ((List.range n).map f ++ r.2).length = n + r.2.length := by
    rw [List.length_append, List.length_map, List.length_range]
  refine ⟨?_, ?_⟩
  · rw [hlen, List.range_add, List.map_append, List.map_map]
    refine congrArg _ (h.bytes.trans (List.map_congr_left fun j hj => ?_))
    exact hg j (List.mem_range.1 hj)
  · rw [hlen]
    rcases h.done with ⟨h1, h2⟩ | ⟨h1, h2⟩
    · exact .inl ⟨h1, by omega⟩
    · exact .inr ⟨h1, by omega⟩

/-- `copyin` page by page. -/
theorem copyin_copies (M : UMem) : ∀ (k srcva len : Nat), len ≤ k → srcva < 2 ^ 64 →
    Copies (fun j => userByte M ((srcva + j) % 2 ^ 64)) len (M.copyin k srcva len) := by
  intro k
  induction k with
  | zero =>
    intro srcva len hk _
    obtain rfl : len = 0 := Nat.le_zero.1 hk
    exact ⟨rfl, .inl ⟨rfl, rfl⟩⟩
  | succ k ih =>
    intro srcva len hk hva
    rw [UMem.copyin]
    by_cases hlen : len = 0
    · rw [if_pos hlen, hlen]
      exact ⟨rfl, .inl ⟨rfl, rfl⟩⟩
    rw [if_neg hlen]
    by_cases hmax : MAXVA ≤ PGROUNDDOWN srcva
    · rw [if_pos hmax]
      exact Copies.fail hlen
    rw [if_neg hmax]
    cases hp : M (srcva / PGSIZE) with
    | none => exact Copies.fail hlen
    | some p =>
      cases hu : p.user with
      | false =>
        simp only [hu]
        exact Copies.fail hlen
      | true =>
        have hdown : PGROUNDDOWN srcva + srcva % PGSIZE = srcva := by
          unfold PGROUNDDOWN PGSIZE
          omega
        have hsmall : PGROUNDDOWN srcva + PGSIZE < 2 ^ 64 := by
          have hval : MAXVA + PGSIZE < 2 ^ 64 := by decide
          omega
        have hpage : srcva % PGSIZE < PGSIZE := Nat.mod_lt _ (by decide)
        have hpiece : 0 < pieceLen srcva len ∧ pieceLen srcva len ≤ len := by
          unfold pieceLen
          omega
        simp only [hu, if_true]
        have hbytes : ((List.range (pieceLen srcva len)).map fun i => p.bytes (srcva % PGSIZE + i)) =
            (List.range (pieceLen srcva len)).map fun j => userByte M ((srcva + j) % 2 ^ 64) := by
          refine List.map_congr_left fun j hj => ?_
          have hj' : j < pieceLen srcva len := List.mem_range.1 hj
          unfold pieceLen at hj'
          have hdiv : (srcva + j) / PGSIZE = srcva / PGSIZE := by
            unfold PGSIZE at *
            omega
          have hmod : (srcva + j) % PGSIZE = srcva % PGSIZE + j := by
            unfold PGSIZE at *
            omega
          unfold userByte
          rw [Nat.mod_eq_of_lt (show srcva + j < 2 ^ 64 by omega), hdiv, hmod, hp]
          rfl
        rw [hbytes]
        refine Copies.append hpiece.2 (ih _ _ (by omega) (Nat.mod_lt _ (by decide))) fun j hj => ?_
        -- bytes of the next page are only read if this one has been read to its end
        have hlt : 0 < len - pieceLen srcva len := by
          rcases (ih ((PGROUNDDOWN srcva + PGSIZE) % 2 ^ 64) (len - pieceLen srcva len) (by omega)
            (Nat.mod_lt _ (by decide))).done with ⟨-, h2⟩ | ⟨-, h2⟩
          · omega
          · omega
        have hend : PGROUNDDOWN srcva + PGSIZE = srcva + pieceLen srcva len := by
          unfold pieceLen at hlt ⊢
          omega
        rw [Nat.mod_eq_of_lt hsmall, hend, Nat.add_assoc]

theorem Src.copyin_copies (src : Src) (tot len : Nat) :
    Copies (fun j => src.byte (tot + j)) len (src.copyin tot len) := by
  cases src with
  | kernel buf =>
    have hlen : ((List.range len).map fun j => buf.getD (tot + j) 0).length = len := by
      rw [List.length_map, List.length_range]
    refine ⟨?_, .inl ⟨rfl, hlen⟩⟩
    show _ = (List.range ((List.range len).map fun j => buf.getD (tot + j) 0).length).map _
    rw [hlen]
    rfl
  | user M addr =>
    have h := Fs.copyin_copies M len ((addr + tot) % 2 ^ 64) len (Nat.le_refl len) (Nat.mod_lt _ (by decide))
    refine ⟨h.bytes.trans (List.map_congr_left fun j _ => ?_), h.done⟩
    show userByte M (((addr + tot) % 2 ^ 64 + j) % 2 ^ 64) = userByte M ((addr + (tot + j)) % 2 ^ 64)
    rw [Nat.mod_add_mod, Nat.add_assoc]

/-- A kernel buffer can always be copied. -/
theorem Src.kernel_copyin (buf : List UInt8) (tot len : Nat) : ((Src.kernel buf).copyin tot len).1 ≠ -1 := by
  show (0 : Int) ≠ -1
  decide

/-- What was copied, in terms of the source. -/
theorem Src.copyin_slice (src : Src) (tot len : Nat) :
    (src.copyin tot len).2 = src.slice tot (src.copyin tot len).2.length := (src.copyin_copies tot len).bytes

@[simp]
theorem Src.slice_length (src : Src) (tot n : Nat) : (src.slice tot n).length = n := by
  unfold slice
  rw [List.length_map, List.length_range]

theorem Src.slice_append (src : Src) (tot a b : Nat) :
    src.slice tot a ++ src.slice (tot + a) b = src.slice tot (a + b) := by
  unfold slice
  rw [List.range_add, List.map_append, List.map_map]
  congr 1
  exact List.map_congr_left fun j _ => by rw [Function.comp, Nat.add_assoc]

end Xv6.Fs
