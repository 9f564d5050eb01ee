import Xv6.Vm.Growth

/-!
# The memory allocator of the user library

`malloc`, `morecore` and `free` of `user/umalloc.c`. The free blocks form a circular list through their headers;
`base` is a header that belongs to no block. `malloc` computes the size of a request in units of 16 bytes, and
`morecore` turns it into a number of bytes again, which becomes the `int` argument of `sbrk`. For requests near
`2 ^ 32` bytes this number is not what the header of the new block says.
-/

set_option autoImplicit false

namespace Xv6.User

open Function Xv6.Base

/-- `s.ptr` and `s.size` of the headers, by address, and `freep`. -/
structure Heap where
  ptr : Nat → Nat
  size : Nat → Nat
  freep : Nat

/-- `sizeof(Header)`. -/
def headerSize : Nat := 16

/-- The loop of `free` that looks for the place of the block `bp`, from `p` on. -/
def freeFind (h : Heap) (bp : Nat) : Nat → Nat → Option Nat
  | 0, _ => none
  | fuel + 1, p =>
    if bp > p ∧ bp < h.ptr p then some p
    else if p ≥ h.ptr p ∧ (bp > p ∨ bp < h.ptr p) then some p
    else freeFind h bp fuel (h.ptr p)

/-- The block `bp` becomes the successor of `p`, and is joined with the blocks that it touches. -/
def freeLink (h : Heap) (bp p : Nat) : Heap :=
  let h := if bp + headerSize * h.size bp = h.ptr p then
      { h with size := update h.size bp ((h.size bp + h.size (h.ptr p)) % 2 ^ 32)
               ptr := update h.ptr bp (h.ptr (h.ptr p)) }
    else { h with ptr := update h.ptr bp (h.ptr p) }
  let h := if p + headerSize * h.size p = bp then
      { h with size := update h.size p ((h.size p + h.size bp) % 2 ^ 32), ptr := update h.ptr p (h.ptr bp) }
    else { h with ptr := update h.ptr p bp }
  { h with freep := p }

/-- `free(ap)`; `none` if the search has not ended after `fuel` steps. -/
def free (fuel ap : Nat) (h : Heap) : Option Heap :=
  (freeFind h (ap - headerSize) fuel h.freep).map (freeLink h (ap - headerSize))

theorem free_eq (fuel bp : Nat) (h : Heap) :
    free fuel (bp + headerSize) h = (freeFind h bp fuel h.freep).map (freeLink h bp) := by
  rw [free, Nat.add_sub_cancel]

/-- `nunits` in `malloc(nbytes)`, computed with 64 bits and stored in 32. -/
def nunits (nbytes : Nat) : Nat := ((nbytes + headerSize - 1) / headerSize + 1) % 2 ^ 32

/-- The units that `morecore(nu)` asks for; the header of the new block says so. -/
def coreUnits (nu : Nat) : Nat := if nu < 4096 then 4096 else nu

/-- A number of bytes as the `int` argument of `sbrk`. -/
def toInt (n : Nat) : Int := Int.bmod n (2 ^ 32)

section

variable {σ : Type} (sbrk : Int → σ → Option Nat × σ)

/-- `morecore(nu)`: 0, or `freep` after the new block has been freed. -/
def morecore (fuel nu : Nat) (h : Heap) (e : σ) : Option (Nat × Heap × σ) :=
  match sbrk (toInt (coreUnits nu * headerSize)) e with
  | (none, e) => some (0, h, e)
  | (some hp, e) =>
    (free fuel (hp + headerSize) { h with size := update h.size hp (coreUnits nu) }).map fun h => (h.freep, h, e)

section

variable {sbrk} {fuel nu hp : Nat} {h : Heap} {e e' : σ}

theorem morecore_none (hs : sbrk (toInt (coreUnits nu * headerSize)) e = (none, e')) :
    morecore sbrk fuel nu h e = some (0, h, e') := by
  rw [morecore, hs]

theorem morecore_some (hs : sbrk (toInt (coreUnits nu * headerSize)) e = (some hp, e')) :
    morecore sbrk fuel nu h e = (free fuel (hp + headerSize) { h with size := update h.size hp (coreUnits nu) }).map
      fun h => (h.freep, h, e') := by
  rw [morecore, hs]

end

/-- The loop of `malloc`: the address returned, the heap and what `sbrk` depends on. -/
def mallocLoop (nunits : Nat) : Nat → Nat → Nat → Heap → σ → Option (Nat × Heap × σ)
  | 0, _, _, _, _ => none
  | fuel + 1, prevp, p, h, e =>
    if h.size p ≥ nunits then
      if h.size p = nunits then
        some (p + headerSize, { h with ptr := update h.ptr prevp (h.ptr p), freep := prevp }, e)
      else
        let size := h.size p - nunits
        let q := p + headerSize * size
        some (q + headerSize, { h with size := update (update h.size p size) q nunits, freep := prevp }, e)
    else if p = h.freep then
      match morecore sbrk fuel nunits h e with
      | none => none
      | some (p, h, e) => if p = 0 then some (0, h, e) else mallocLoop nunits fuel p (h.ptr p) h e
    else mallocLoop nunits fuel p (h.ptr p) h e

/-- `malloc(nbytes)`; `base` is the address of the static header. -/
def malloc (base fuel nbytes : Nat) (h : Heap) (e : σ) : Option (Nat × Heap × σ) :=
  let h := if h.freep = 0 then { ptr := update h.ptr base base, size := update h.size base 0, freep := base } else h
  mallocLoop sbrk (nunits nbytes) fuel h.freep (h.ptr h.freep) h e

end

/-! ## The `sbrk` of the kernel -/

/-- What `sbrk(n)` returns to a process of `sz` bytes, `none` for -1, and the size of the process after it;
`room` says whether the kernel has the memory to let it grow. -/
def sbrkSize (room : Bool) (n : Int) (sz : Nat) : Option Nat × Nat :=
  if 0 < n then if room then (some sz, sz + n.toNat) else (none, sz)
  else if n < 0 ∧ (((sz : Int) + n) % 2 ^ 64).toNat < sz then (some sz, (((sz : Int) + n) % 2 ^ 64).toNat)
  else (some sz, sz)

/-- This is what `sys_sbrk` does. -/
theorem sysSbrk_size {k : Vm.Kernel} {i : Fin NPROC} {n : Int} (h : Vm.KInv k)
    (hi : (k.table.proc i).state = .runnable) (hn : -2 ^ 31 ≤ n ∧ n < 2 ^ 31) :
    ∃ room ret k', Vm.sysSbrk i n k = .ok (ret, k') ∧ sbrkSize room n (k.table.proc i).sz =
        (if ret = -1 then none else some ret.toNat, (k'.table.proc i).sz) := by
  have hsmall : (k.table.proc i).sz < 2 ^ 63 := by
    obtain ⟨r, tf, -, ht, -⟩ := h.actor hi
    exact ht.small
  have hsz := k.spaces_sz i
  obtain ⟨e, k', hrun, -, hcase⟩ := (Vm.growproc_meets h hi hn).returns
  rw [Vm.sysSbrk_eq, bind_of_ok (rfl : Vm.getProc i k = .ok (k.table.proc i, k)), bind_of_ok hrun]
  rcases hcase with ⟨rfl, -, hsp, -⟩ | ⟨rfl, hpos, -, hno⟩
  · refine ⟨true, (k.table.proc i).sz, k', rfl, ?_⟩
    have hspaces : (Vm.Spaces.sbrk none i n k.spaces).2 = k'.spaces := congrArg Prod.snd hsp
    rw [if_neg (by omega), Int.toNat_natCast, ← k'.spaces_sz, ← hspaces, sbrkSize]
    by_cases hpos : 0 < n
    · rw [Vm.Spaces.sbrk_grow hpos, if_pos hpos, if_pos rfl, Vm.ProcTable.set_self, hsz,
        Int.emod_eq_of_lt (by omega) (by omega)]
      exact congrArg (Prod.mk _) (by omega : _ = ((k.table.proc i).sz + n).toNat)
    · by_cases hless : n < 0 ∧ (((k.table.proc i).sz + n) % 2 ^ 64).toNat < (k.table.proc i).sz
      · rw [Vm.Spaces.sbrk_shrink hless.1 (by rw [hsz]; exact hless.2), if_neg hpos, if_pos hless,
          Vm.ProcTable.set_self, hsz]
      · rw [Vm.Spaces.sbrk_stay hpos (by rw [hsz]; exact hless), if_neg hpos, if_neg hless, hsz]
  · refine ⟨false, -1, k', rfl, ?_⟩
    rw [sbrkSize, if_pos hpos, hno.table]
    rfl

/-- The size of a process, and whether the kernel will have memory when it is asked for more. -/
structure Break where
  sz : Nat
  room : List Bool

def kernelSbrk (n : Int) (e : Break) : Option Nat × Break :=
  ((sbrkSize (e.room.headD false) n e.sz).1, ⟨(sbrkSize (e.room.headD false) n e.sz).2, e.room.tail⟩)

/-! ## Blocks and the break -/

/-- `morecore` gets as much as the header of the new block says, or returns 0. -/
def Honest (room : Bool) (sz nu : Nat) : Prop :=
  (sbrkSize room (toInt (coreUnits nu * headerSize)) sz).1 = none ∨
    (sbrkSize room (toInt (coreUnits nu * headerSize)) sz).2 = sz + headerSize * coreUnits nu

/-- A set of headers that contains the list, with blocks that end at `sz` or before. -/
structure Within (h : Heap) (sz : Nat) (S : Set Nat) : Prop where
  freep : h.freep ∈ S
  ptr : ∀ a ∈ S, h.ptr a ∈ S
  block : ∀ a ∈ S, a + headerSize * h.size a ≤ sz

section

variable {h h' : Heap} {sz : Nat} {S : Set Nat}

section

variable (hw : Within h sz S)
include hw

theorem freeFind_mem {bp fuel p q : Nat} (hp : p ∈ S) (hr : freeFind h bp fuel p = some q) : q ∈ S := by
  induction fuel generalizing p with
  | zero => cases hr
  | succ fuel ih =>
    rw [freeFind] at hr
    split_ifs at hr
    · cases hr
      exact hp
    · cases hr
      exact hp
    · exact ih (hw.ptr p hp) hr

/-- The header `a` gets a successor of the list, and its block ends at `sz` or before. -/
theorem Within.set {a b s : Nat} (hb : b ∈ S) (hs : a + headerSize * s ≤ sz) :
    Within { h with size := update h.size a s, ptr := update h.ptr a b } sz (insert a S) := by
  refine ⟨.inr hw.freep, fun x hx => ?_, fun x hx => ?_⟩
  · by_cases hxa : x = a
    · simpa [hxa] using Or.inr hb
    · simpa [hxa] using Or.inr (hw.ptr x (hx.resolve_left hxa))
  · by_cases hxa : x = a
    · simpa [hxa] using hs
    · simpa [hxa] using hw.block x (hx.resolve_left hxa)

/-- `a` is joined with the block `b` that follows it, or becomes its predecessor. -/
theorem Within.joinOrLink {a b c : Nat} (hb : b ∈ S) (hc : c ∈ S)
    (ha : a + headerSize * h.size a ≤ sz) : Within (if a + headerSize * h.size a = b then
        { h with size := update h.size a ((h.size a + h.size b) % 2 ^ 32), ptr := update h.ptr a (h.ptr b) }
      else { h with ptr := update h.ptr a c }) sz (insert a S) := by
  split_ifs with hab
  · refine hw.set (hw.ptr b hb) ?_
    have hend := hw.block b hb
    unfold headerSize at *
    omega
  · have hset := hw.set hc ha
    rwa [update_eq_self] at hset

theorem Within.link {bp p : Nat} (hp : p ∈ S) (hbp : bp + headerSize * h.size bp ≤ sz) :
    Within (freeLink h bp p) sz (insert bp S) := by
  have h1 := hw.joinOrLink (hw.ptr p hp) (hw.ptr p hp) hbp
  have hp' : p ∈ insert bp S := .inr hp
  have h2 := h1.joinOrLink (a := p) (Set.mem_insert bp S) (Set.mem_insert bp S) (h1.block p hp')
  rw [Set.insert_eq_of_mem hp'] at h2
  exact ⟨hp', h2.ptr, h2.block⟩

end

theorem sbrkSize_cases (room : Bool) (n : Int) (sz : Nat) :
    ((sbrkSize room n sz).1 = none ∧ (sbrkSize room n sz).2 = sz) ∨ (sbrkSize room n sz).1 = some sz := by
  unfold sbrkSize
  split_ifs
  · exact .inr rfl
  · exact .inl ⟨rfl, rfl⟩
  · exact .inr rfl
  · exact .inr rfl

/-- What `morecore` does, if it gets what it asks for. -/
theorem morecore_within {nu : Nat} (hok : ∀ room sz, Honest room sz nu) {fuel q : Nat} {e e' : Break}
    (hw : Within h e.sz S) (hr : morecore kernelSbrk fuel nu h e = some (q, h', e')) :
    ∃ S', Within h' e'.sz S' ∧ (q = 0 ∨ q ∈ S') := by
  have hhonest := hok (e.room.headD false) e.sz
  rcases sbrkSize_cases (e.room.headD false) (toInt (coreUnits nu * headerSize)) e.sz with ⟨h1, h2⟩ | h1
  · rw [morecore_none (show kernelSbrk _ e = (none, ⟨e.sz, e.room.tail⟩) by rw [kernelSbrk, h1, h2])] at hr
    cases hr
    exact ⟨S, hw, .inl rfl⟩
  · have h2 := hhonest.resolve_left (by rw [h1]; exact Option.some_ne_none _)
    rw [morecore_some (show kernelSbrk _ e = (some e.sz, ⟨_, e.room.tail⟩) by rw [kernelSbrk, h1, h2])] at hr
    simp only [free_eq, Option.map_map, Option.map_eq_some_iff] at hr
    obtain ⟨p, hfind, heq⟩ := hr
    cases heq
    generalize coreUnits nu = c at hfind ⊢
    have hw1 : Within { h with size := update h.size e.sz c } (e.sz + headerSize * c) S := by
      refine ⟨hw.freep, hw.ptr, fun x hx => ?_⟩
      show x + headerSize * update h.size e.sz c x ≤ _
      by_cases hxe : x = e.sz
      · rw [hxe, update_self]
      · rw [update_of_ne hxe]
        exact (hw.block x hx).trans (Nat.le_add_right ..)
    have hp := freeFind_mem hw1 hw1.freep hfind
    have hlink : Within (freeLink _ e.sz p) _ _ := hw1.link hp (by simp only [update_self, Nat.le_refl])
    exact ⟨_, hlink, .inr hlink.freep⟩

/-- The loop of `malloc` returns a block that ends before the break, if `morecore` gets what it asks for. -/
theorem mallocLoop_within {nu : Nat} (hok : ∀ room sz, Honest room sz nu) {fuel prevp p q : Nat} {e e' : Break}
    (hw : Within h e.sz S) (hprev : prevp ∈ S) (hp : p ∈ S)
    (hr : mallocLoop kernelSbrk nu fuel prevp p h e = some (q, h', e')) :
    (∃ S', Within h' e'.sz S') ∧ (q = 0 ∨ ∃ bp, q = bp + headerSize ∧ bp + headerSize * h'.size bp ≤ e'.sz) := by
  induction fuel generalizing prevp p h e S with
  | zero => cases hr
  | succ fuel ih =>
    rw [mallocLoop] at hr
    split_ifs at hr with hge heq hfreep
    · -- the whole block
      cases hr
      have hset := hw.set (hw.ptr p hp) (hw.block prevp hprev)
      rw [update_eq_self, Set.insert_eq_of_mem hprev] at hset
      exact ⟨⟨S, hprev, hset.ptr, hset.block⟩, .inr ⟨p, rfl, hw.block p hp⟩⟩
    · -- the tail of the block
      cases hr
      have hblock := hw.block p hp
      have htail : p + headerSize * (h.size p - nu) + headerSize * nu ≤ e'.sz := by
        unfold headerSize at *
        omega
      refine ⟨⟨S, hprev, hw.ptr, fun x hx => ?_⟩, .inr ⟨_, rfl, by simpa using htail⟩⟩
      have hx' := hw.block x hx
      show x + headerSize * update (update h.size p _) _ _ x ≤ e'.sz
      by_cases hxq : x = p + headerSize * (h.size p - nu)
      · rwa [hxq, update_self]
      · rw [update_of_ne hxq]
        by_cases hxp : x = p
        · rw [hxp, update_self]
          omega
        · rwa [update_of_ne hxp]
    · -- more memory: the new block begins at the old break and ends at the new one
      obtain ⟨⟨q', h1, e1⟩, hcore, hr⟩ := Option.bind_eq_some_iff.1 (show (morecore kernelSbrk fuel nu h e).bind
        (fun r => if r.1 = 0 then some (0, r.2.1, r.2.2) else
          mallocLoop kernelSbrk nu fuel r.1 (r.2.1.ptr r.1) r.2.1 r.2.2) = _ from by
            rw [← hr]
            cases morecore kernelSbrk fuel nu h e <;> rfl)
      obtain ⟨S1, hw1, hq'⟩ := morecore_within hok hw hcore
      split_ifs at hr with hzero
      · cases hr
        exact ⟨⟨S1, hw1⟩, .inl rfl⟩
      · have hmem := hq'.resolve_left hzero
        exact ih hw1 hmem (hw1.ptr _ hmem) hr
    · exact ih hw hp (hw.ptr p hp) hr

end

/-- The number of bytes as an `int` is the same number, or less than a positive number. -/
theorem toInt_eq (n : Nat) : (n < 2 ^ 31 ∧ toInt n = n) ∨ (2 ^ 31 ≤ n ∧ toInt n < n) := by
  by_cases hn : n < 2 ^ 31
  · exact .inl ⟨hn, Int.bmod_eq_of_le (by omega) (by omega)⟩
  · have hlt : toInt n < _ := Int.bmod_lt (by omega)
    exact .inr ⟨by omega, by omega⟩

/-- `morecore` gets what the header of the new block says exactly if the number of bytes fits a positive `int`. -/
theorem honest_iff (nu : Nat) : (∀ room sz, Honest room sz nu) ↔ coreUnits nu * headerSize < 2 ^ 31 := by
  obtain ⟨n, hn⟩ : ∃ n, n = coreUnits nu * headerSize := ⟨_, rfl⟩
  have hpos : 0 < n := by
    rw [hn]
    unfold coreUnits headerSize
    split_ifs <;> omega
  simp only [Honest, Nat.mul_comm headerSize, ← hn]
  rcases toInt_eq n with ⟨hlt, hint⟩ | ⟨hge, hint⟩
  · refine ⟨fun _ => hlt, fun _ room sz => ?_⟩
    rw [hint, sbrkSize, if_pos (by omega), Int.toNat_natCast]
    cases room <;> simp
  · -- a process of size 0 gets less
    refine ⟨fun hall => ?_, fun hlt => by omega⟩
    exfalso
    have hsome : ∀ x, (sbrkSize true x 0).1 = some 0 ∧ (sbrkSize true x 0).2 = x.toNat := by
      intro x
      unfold sbrkSize
      by_cases hx : 0 < x
      · simp [hx]
      · simp [hx]
        omega
    have h0 := hall true 0
    rw [(hsome _).1, (hsome _).2] at h0
    rcases h0 with h0 | h0
    · cases h0
    · omega

/-- For every request, `morecore` gets what the header of the new block says exactly if the number of bytes fits a
positive `int`. Then no block that `malloc` returns or that is listed after it extends past the break, whatever
the heap. -/
theorem malloc_honest_iff (base nbytes : Nat) :
    ((∀ room sz, Honest room sz (nunits nbytes)) ↔ coreUnits (nunits nbytes) * headerSize < 2 ^ 31) ∧
      (coreUnits (nunits nbytes) * headerSize < 2 ^ 31 →
        ∀ (fuel : Nat) (h h' : Heap) (e e' : Break) (q : Nat), base ≤ e.sz →
          (h.freep = 0 ∨ ∃ S, Within h e.sz S) → malloc kernelSbrk base fuel nbytes h e = some (q, h', e') →
          (∃ S', Within h' e'.sz S') ∧
            (q = 0 ∨ ∃ bp, q = bp + headerSize ∧ bp + headerSize * h'.size bp ≤ e'.sz)) := by
  have hiff := honest_iff (nunits nbytes)
  refine ⟨hiff, fun hlt fuel h h' e e' q hbase hstart hr => ?_⟩
  unfold malloc at hr
  by_cases hnull : h.freep = 0
  · simp only [if_pos hnull, update_self] at hr
    have hw : Within { ptr := update h.ptr base base, size := update h.size base 0, freep := base } e.sz {base} := by
      refine ⟨rfl, ?_, ?_⟩
      · rintro a rfl
        simp
      · rintro a rfl
        simpa using hbase
    exact mallocLoop_within (hiff.2 hlt) hw rfl rfl hr
  · simp only [if_neg hnull] at hr
    obtain ⟨S, hw⟩ := hstart.resolve_left hnull
    exact mallocLoop_within (hiff.2 hlt) hw hw.freep (hw.ptr _ hw.freep) hr

/-- A first request of 100 bytes. -/
theorem malloc_honest_iff_first :
    Honest true 16384 (nunits 100) ∧ ∃ q h' e', malloc kernelSbrk 8192 10 100 ⟨fun _ => 0, fun _ => 0, 0⟩ ⟨16384, [true]⟩ =
      some (q, h', e') ∧ ∃ bp, q = bp + headerSize ∧ bp + headerSize * h'.size bp ≤ e'.sz := by
  obtain ⟨hiff, hrun⟩ := malloc_honest_iff 8192 100
  refine ⟨hiff.2 (by decide) true 16384, _, _, _, rfl, ?_⟩
  exact (hrun (by decide) 10 ⟨fun _ => 0, fun _ => 0, 0⟩ _ ⟨16384, [true]⟩ _ _ (by decide) (Or.inl rfl) rfl).2.resolve_left
    (by decide)

/-- A process of 16384 bytes asks for 79984 bytes, and then for `2 ^ 32 - 16`: the second block has `2 ^ 28` units
according to its header and begins at the break, which has not moved. -/
theorem malloc_dishonest :
    ((malloc kernelSbrk 8192 10 79984 ⟨fun _ => 0, fun _ => 0, 0⟩ ⟨16384, [true, true]⟩).bind fun r =>
      (malloc kernelSbrk 8192 10 4294967280 r.2.1 r.2.2).map fun r' =>
        (r.2.2.sz, r'.1, r'.2.1.size (r'.1 - headerSize), r'.2.2.sz)) =
      some (96384, 96384 + 16, 2 ^ 28, 96384) := by
  decide +kernel

end Xv6.User
