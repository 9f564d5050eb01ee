import Mathlib.Tactic

/-!
# Byte-addressed memory

A memory maps addresses to bytes. Multi-byte fields are little-endian, as on RISC-V: `loadLE` reads
and `storeLE` writes a field of `k` bytes. `fill`, `copy` and `writeBytes` are the effects of
`memset`, of `memmove` between memory ranges and of `memmove` from a buffer outside the memory.
-/

set_option autoImplicit false

namespace Xv6.Base

/-- Contents of a byte-addressed memory. -/
abbrev Mem := Nat → UInt8

/-- The value of the `k` bytes at `a`, least significant byte first. -/
def loadLE (m : Mem) (a : Nat) : Nat → Nat
  | 0 => 0
  | k + 1 => (m a).toNat + 256 * loadLE m (a + 1) k

/-- The memory after the `k` low bytes of `v` are stored at `a`. -/
def storeLE (m : Mem) (a k v : Nat) : Mem := fun x =>
  if a ≤ x ∧ x < a + k then UInt8.ofNat (v / 256 ^ (x - a)) else m x

/-- `memset(a, b, n)`. -/
def fill (m : Mem) (a n : Nat) (b : UInt8) : Mem := fun x =>
  if a ≤ x ∧ x < a + n then b else m x

/-- `memmove(dst, src, n)`. -/
def copy (m : Mem) (dst src n : Nat) : Mem := fun x =>
  if dst ≤ x ∧ x < dst + n then m (src + (x - dst)) else m x

/-- `memmove(a, bs, n)` from a buffer with contents `bs`. -/
def writeBytes (m : Mem) (a : Nat) (bs : List UInt8) : Mem := fun x =>
  if a ≤ x then (bs[x - a]?).getD (m x) else m x

theorem loadLE_lt (m : Mem) : ∀ (k a : Nat), loadLE m a k < 256 ^ k
  | 0, _ => by simp [loadLE]
  | k + 1, a => by
    have ih := loadLE_lt m k (a + 1)
    have hb := (m a).toNat_lt
    simp only [loadLE]
    omega

theorem loadLE_congr {m m' : Mem} :
    ∀ {k a : Nat}, (∀ x, a ≤ x → x < a + k → m x = m' x) → loadLE m a k = loadLE m' a k
  | 0, _, _ => rfl
  | k + 1, a, h => by
    have ih : loadLE m (a + 1) k = loadLE m' (a + 1) k :=
      loadLE_congr fun x h1 h2 => h x (by omega) (by omega)
    simp only [loadLE, ih, h a (Nat.le_refl a) (by omega)]

theorem loadLE_storeLE_aux (m : Mem) (b v : Nat) :
    ∀ (k j a : Nat), a = b + j →
      loadLE (storeLE m b (j + k) v) a k = v / 256 ^ j % 256 ^ k
  | 0, j, a, _ => by simp [loadLE, Nat.mod_one]
  | k + 1, j, a, ha => by
    have ih := loadLE_storeLE_aux m b v k (j + 1) (a + 1) (by omega)
    have e : j + 1 + k = j + (k + 1) := by omega
    rw [e] at ih
    have hhead : storeLE m b (j + (k + 1)) v a = UInt8.ofNat (v / 256 ^ j) := by
      rw [storeLE, if_pos ⟨by omega, by omega⟩]
      congr 2
      congr 1
      omega
    have hdiv : v / 256 ^ (j + 1) = v / 256 ^ j / 256 := by
      rw [pow_succ, Nat.div_div_eq_div_mul]
    have hp : 256 ^ (k + 1) = 256 * 256 ^ k := by ring
    simp only [loadLE, hhead, ih, hdiv, hp, UInt8.toNat_ofNat']
    rw [Nat.mod_mul]

/-- A field reads back as it was stored. -/
theorem loadLE_storeLE (m : Mem) (a k v : Nat) : loadLE (storeLE m a k v) a k = v % 256 ^ k := by
  have h := loadLE_storeLE_aux m a v k 0 a rfl
  simpa using h

/-- A store outside a field leaves it. -/
theorem loadLE_storeLE_ne (m : Mem) {a k b j v : Nat} (h : b + j ≤ a ∨ a + k ≤ b) :
    loadLE (storeLE m b j v) a k = loadLE m a k := by
  refine loadLE_congr fun x h1 h2 => ?_
  rw [storeLE, if_neg (by omega)]

theorem storeLE_of_not_mem (m : Mem) {a k v x : Nat} (h : x < a ∨ a + k ≤ x) : storeLE m a k v x = m x := by
  rw [storeLE, if_neg (by omega)]

theorem fill_of_mem (m : Mem) {a n x : Nat} {b : UInt8} (h : a ≤ x ∧ x < a + n) : fill m a n b x = b := by
  rw [fill, if_pos h]

theorem fill_of_not_mem (m : Mem) {a n x : Nat} {b : UInt8} (h : x < a ∨ a + n ≤ x) : fill m a n b x = m x := by
  rw [fill, if_neg (by omega)]

theorem copy_of_not_mem (m : Mem) {dst src n x : Nat} (h : x < dst ∨ dst + n ≤ x) : copy m dst src n x = m x := by
  rw [copy, if_neg (by omega)]

theorem writeBytes_of_mem (m : Mem) {a x : Nat} {bs : List UInt8} (h1 : a ≤ x)
    (h2 : x - a < bs.length) : writeBytes m a bs x = bs[x - a] := by
  rw [writeBytes, if_pos h1, List.getElem?_eq_getElem h2]
  rfl

theorem writeBytes_of_not_mem (m : Mem) {a x : Nat} {bs : List UInt8}
    (h : x < a ∨ a + bs.length ≤ x) : writeBytes m a bs x = m x := by
  unfold writeBytes
  split_ifs with hx
  · rw [List.getElem?_eq_none (by omega)]
    rfl
  · rfl

/-- Dropping the low bytes of a field leaves the rest of it. -/
theorem loadLE_div (m : Mem) : ∀ (j k a : Nat), loadLE m a (j + k) / 256 ^ j = loadLE m (a + j) k
  | 0, k, a => by simp
  | j + 1, k, a => by
    have ih := loadLE_div m j k (a + 1)
    have hb := (m a).toNat_lt
    have e : j + 1 + k = j + k + 1 := by omega
    have hp : 256 ^ (j + 1) = 256 * 256 ^ j := by ring
    rw [e, loadLE, hp, ← Nat.div_div_eq_div_mul]
    have hd : ((m a).toNat + 256 * loadLE m (a + 1) (j + k)) / 256 = loadLE m (a + 1) (j + k) := by
      omega
    rw [hd, ih]
    congr 1
    omega

/-- Storing a field's own value changes nothing. -/
theorem storeLE_loadLE (m : Mem) (a k : Nat) : storeLE m a k (loadLE m a k) = m := by
  funext x
  unfold storeLE
  split_ifs with hx
  · obtain ⟨j, rfl⟩ : ∃ j, x = a + j := ⟨x - a, by omega⟩
    obtain ⟨l, rfl⟩ : ∃ l, k = j + (l + 1) := ⟨k - j - 1, by omega⟩
    have e : a + j - a = j := by omega
    rw [e, loadLE_div, loadLE]
    apply UInt8.toNat_inj.1
    rw [UInt8.toNat_ofNat']
    have hb := (m (a + j)).toNat_lt
    omega
  · rfl

/-- Two stores to the same field: the second one counts. -/
theorem storeLE_storeLE (m : Mem) (a k v w : Nat) : storeLE (storeLE m a k v) a k w = storeLE m a k w := by
  funext x
  unfold storeLE
  split_ifs <;> rfl

/-- A store and a fill of disjoint ranges commute. -/
theorem storeLE_fill_comm (m : Mem) {a k v b n : Nat} {c : UInt8} (h : b + n ≤ a ∨ a + k ≤ b) :
    storeLE (fill m b n c) a k v = fill (storeLE m a k v) b n c := by
  funext x
  by_cases hx : a ≤ x ∧ x < a + k
  · rw [fill_of_not_mem _ (by omega), storeLE, storeLE, if_pos hx, if_pos hx]
  · rw [storeLE_of_not_mem _ (by omega)]
    by_cases hf : b ≤ x ∧ x < b + n
    · rw [fill_of_mem _ hf, fill_of_mem _ hf]
    · rw [fill_of_not_mem _ (by omega), fill_of_not_mem _ (by omega), storeLE_of_not_mem _ (by omega)]

theorem loadLE_fill_zero (m : Mem) (b n : Nat) :
    ∀ {k a : Nat}, b ≤ a → a + k ≤ b + n → loadLE (fill m b n 0) a k = 0
  | 0, _, _, _ => rfl
  | k + 1, a, h1, h2 => by
    have ih := loadLE_fill_zero m b n (k := k) (a := a + 1) (by omega) (by omega)
    rw [loadLE, ih, fill_of_mem m ⟨h1, by omega⟩]
    rfl

end Xv6.Base
