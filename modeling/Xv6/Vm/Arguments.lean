import Xv6.Vm.Growth

/-!
# The arguments of a new image

`exec` pushes the argument strings on the stack of the new image, each with its final 0 and each
aligned to 16 bytes, and then the array of pointers to them. This file says what the new process
finds there (`ArgBlock`), that `exec` leaves exactly that, and that the arguments make `exec` fail
only when this layout is larger than the stack page (`exec_hands_over_args`).

The stack pointer starts at a multiple of 16, so pushing `n` bytes moves it by `n` rounded up to a
multiple of 16; `argSpace` adds these up without any wrap-around.
-/

set_option autoImplicit false

namespace Xv6.Vm

open Function Xv6.Base

/-! ## Bytes of an address space -/

/-- The byte at address `a`. -/
def UMem.byte (M : UMem) (a : Nat) : Option UInt8 := (M (a / PGSIZE)).map fun p => p.bytes (a % PGSIZE)

/-- The bytes `bs` stand at address `a`. -/
def UMem.Holds (M : UMem) (a : Nat) (bs : List UInt8) : Prop :=
  ∀ (i : Nat) (hi : i < bs.length), M.byte (a + i) = some bs[i]

variable {bs : List UInt8} {a : Nat} {M : UMem}

theorem UMem.Holds.congr {M' : UMem} (h : M.Holds a bs) (hb : ∀ x, a ≤ x → M'.byte x = M.byte x) : M'.Holds a bs :=
  fun i hi => (hb _ (Nat.le_add_right a i)).trans (h i hi)

theorem UMem.Holds.left {cs : List UInt8} (h : M.Holds a (bs ++ cs)) : M.Holds a bs := by
  intro i hi
  have hlt : i < (bs ++ cs).length := by
    rw [List.length_append]
    omega
  rw [h i hlt, List.getElem_append_left hi]

theorem UMem.Holds.right {cs : List UInt8} (h : M.Holds a (bs ++ cs)) : M.Holds (a + bs.length) cs := by
  intro i hi
  have hlt : bs.length + i < (bs ++ cs).length := by
    rw [List.length_append]
    omega
  rw [Nat.add_assoc, h _ hlt, List.getElem_append_right (Nat.le_add_right ..)]
  simp

section Put

variable {M : UMem} {v a : Nat} {bs : List UInt8}

/-- A write within page `v` is seen at the addresses it covers. -/
theorem UMem.holds_put (hsome : (M v).isSome) (hpage : a / PGSIZE = v)
    (hfit : a % PGSIZE + bs.length ≤ PGSIZE) : (M.put v (a % PGSIZE) bs).Holds a bs := by
  intro i hi
  obtain ⟨p, hp⟩ := Option.isSome_iff_exists.1 hsome
  have hdiv : (a + i) / PGSIZE = v := by
    unfold PGSIZE at *
    omega
  have hmod : (a + i) % PGSIZE = a % PGSIZE + i := by
    unfold PGSIZE at *
    omega
  unfold UMem.byte UMem.put
  rw [hdiv, update_self, hp, hmod]
  show some (writeBytes p.bytes (a % PGSIZE) bs (a % PGSIZE + i)) = some bs[i]
  rw [writeBytes_of_mem _ (Nat.le_add_right ..) (by omega)]
  simp

/-- The addresses behind a write keep their bytes. -/
theorem UMem.byte_put_above (hpage : a / PGSIZE = v) {x : Nat} (hx : a + bs.length ≤ x) :
    (M.put v (a % PGSIZE) bs).byte x = M.byte x := by
  unfold UMem.byte UMem.put
  by_cases hv : x / PGSIZE = v
  · rw [hv, update_self, Option.map_map]
    have hout : a % PGSIZE + bs.length ≤ x % PGSIZE := by
      unfold PGSIZE at *
      omega
    refine congrArg (fun g => (M v).map g) (funext fun p => ?_)
    exact writeBytes_of_not_mem _ (.inr hout)
  · rw [update_of_ne hv]

theorem UMem.put_isSome (u off : Nat) (h : (M v).isSome) : (M.put u off bs v).isSome := by
  unfold UMem.put
  by_cases hv : v = u
  · subst hv
    rw [update_self, Option.isSome_map]
    exact h
  · rw [update_of_ne hv]
    exact h

end Put

/-! ## The layout -/

/-- `n` rounded up to a multiple of 16. -/
def round16 (n : Nat) : Nat := (n + 15) / 16 * 16

/-- Bytes that the argument strings take on the stack. -/
def argSpace : List (List UInt8) → Nat
  | [] => 0
  | arg :: rest => round16 (arg.length + 1) + argSpace rest

/-- Where the strings come to lie, pushed from `sp` on. -/
def argAddrs : Nat → List (List UInt8) → List Nat
  | _, [] => []
  | sp, arg :: rest => (sp - round16 (arg.length + 1)) :: argAddrs (sp - round16 (arg.length + 1)) rest

/-- The strings and the array of pointers fit in the stack page. -/
def ArgsFit (argv : List (List UInt8)) : Prop :=
  argSpace argv + round16 ((argv.length + 1) * 8) ≤ PGSIZE

instance (argv : List (List UInt8)) : Decidable (ArgsFit argv) := inferInstanceAs (Decidable (_ ≤ _))

theorem argSpace_aligned (argv : List (List UInt8)) : argSpace argv % 16 = 0 := by
  induction argv with
  | nil => rfl
  | cons arg rest ih =>
    rw [argSpace]
    unfold round16
    omega

theorem argAddrs_length (sp : Nat) (argv : List (List UInt8)) : (argAddrs sp argv).length = argv.length := by
  induction argv generalizing sp with
  | nil => rfl
  | cons arg rest ih => rw [argAddrs, List.length_cons, List.length_cons, ih]

variable {argv : List (List UInt8)} {sp : Nat}

/-- Each string lies between where the strings end and where they start. -/
theorem argAddrs_bounds (h : argSpace argv ≤ sp) :
    ∀ x ∈ argv.zip (argAddrs sp argv), sp - argSpace argv ≤ x.2 ∧ x.2 + x.1.length + 1 ≤ sp := by
  induction argv generalizing sp with
  | nil => intro x hx; cases hx
  | cons arg rest ih =>
    rw [argSpace] at h ⊢
    have hround : arg.length + 1 ≤ round16 (arg.length + 1) := by
      unfold round16
      omega
    rintro x (_ | ⟨_, hx⟩)
    · exact ⟨by simp only; omega, by simp only; omega⟩
    · have hrest : argSpace rest ≤ sp - round16 (arg.length + 1) := by omega
      obtain ⟨h1, h2⟩ := ih hrest x hx
      exact ⟨by omega, by omega⟩

/-- Each string lies below those pushed before it. -/
theorem argAddrs_apart (h : argSpace argv ≤ sp) :
    (argv.zip (argAddrs sp argv)).Pairwise fun x y => y.2 + y.1.length + 1 ≤ x.2 := by
  induction argv generalizing sp with
  | nil => exact List.Pairwise.nil
  | cons arg rest ih =>
    rw [argSpace] at h
    have hrest : argSpace rest ≤ sp - round16 (arg.length + 1) := by omega
    exact List.Pairwise.cons (fun y hy => (argAddrs_bounds hrest y hy).2) (ih hrest)

/-- One push from an aligned stack pointer. -/
theorem pushed_eq {n : Nat} (hal : sp % 16 = 0) (hn : n ≤ sp) (hsp : sp ≤ 2 ^ 64) (hpos : 0 < n) :
    pushed sp n = sp - round16 n ∧ round16 n ≤ sp := by
  unfold pushed round16
  omega

/-! ## What is pushed -/

/-- What the new process finds: at `sp` the array of the pointers `ptrs`, closed by 0, and at the
`i`-th pointer the `i`-th string with its final 0; nothing overlaps, and all lies in the page below
`top`. -/
structure ArgBlock (M : UMem) (top : Nat) (argv : List (List UInt8)) (sp : Nat) (ptrs : List Nat) :
    Prop where
  aligned : sp % 16 = 0
  base : top - PGSIZE ≤ sp
  end_le : sp + 8 * (argv.length + 1) ≤ top
  count : ptrs.length = argv.length
  array : ∀ (i : Nat) (hi : i < ptrs.length), M.Holds (sp + 8 * i) (wordBytes ptrs[i])
  last : M.Holds (sp + 8 * argv.length) (wordBytes 0)
  strings : ∀ x ∈ argv.zip ptrs, M.Holds x.2 (x.1 ++ [0])
  within : ∀ x ∈ argv.zip ptrs, sp + 8 * (argv.length + 1) ≤ x.2 ∧ x.2 + x.1.length + 1 ≤ top
  apart : (argv.zip ptrs).Pairwise fun x y => y.2 + y.1.length + 1 ≤ x.2

theorem wordBytes_length (w : Nat) : (wordBytes w).length = 8 := by simp [wordBytes]

/-- Words that stand one after the other. -/
theorem UMem.Holds.word {ws : List Nat} (h : M.Holds a (ws.flatMap wordBytes)) :
    ∀ (i : Nat) (hi : i < ws.length), M.Holds (a + 8 * i) (wordBytes ws[i]) := by
  induction ws generalizing a with
  | nil => intro i hi; cases hi
  | cons w ws ih =>
    rw [List.flatMap_cons] at h
    intro i hi
    cases i with
    | zero => exact h.left
    | succ i =>
      have hright := h.right
      rw [wordBytes_length] at hright
      have := ih hright i (Nat.lt_of_succ_lt_succ hi)
      rw [show a + 8 * (i + 1) = a + 8 + 8 * i by omega]
      exact this

section Push

variable {v : Nat}

/-- The strings are pushed if they fit above the page boundary, and nothing above `sp` changes. -/
theorem pushArgs_layout (hv : 0 < v) (htop : (v + 1) * PGSIZE ≤ 2 ^ 64) (ustack : List Nat) (M : UMem)
    (hal : sp % 16 = 0) (hlo : v * PGSIZE ≤ sp) (hsp : sp ≤ (v + 1) * PGSIZE) (hshort : ∀ a ∈ argv, a.length < PGSIZE)
    (hargs : ustack.length + argv.length ≤ MAXARG) :
    (sp < v * PGSIZE + argSpace argv ∧ UMem.pushArgs (v * PGSIZE) argv sp ustack M = none) ∨
      (v * PGSIZE + argSpace argv ≤ sp ∧ ∃ M', UMem.pushArgs (v * PGSIZE) argv sp ustack M =
        some (sp - argSpace argv, ustack ++ argAddrs sp argv, M') ∧
        (∀ x, sp ≤ x → M'.byte x = M.byte x) ∧ ((M v).isSome → (M' v).isSome ∧
          ∀ x ∈ argv.zip (argAddrs sp argv), M'.Holds x.2 (x.1 ++ [0]))) := by
  induction argv generalizing sp ustack M with
  | nil =>
    rw [UMem.pushArgs, argSpace, argAddrs, List.append_nil]
    exact .inr ⟨by omega, M, rfl, fun _ _ => rfl, fun hM => ⟨hM, fun x hx => by cases hx⟩⟩
  | cons arg rest ih =>
    have harg := hshort arg (.head _)
    have hpage : PGSIZE ≤ v * PGSIZE := Nat.le_mul_of_pos_left _ hv
    rw [List.length_cons] at hargs
    -- the string is no longer than a page, and there is a page below the stack
    obtain ⟨hpush, hle⟩ := pushed_eq (n := arg.length + 1) hal (by omega) (by omega) (by omega)
    have hround : arg.length + 1 ≤ round16 (arg.length + 1) := by
      unfold round16
      omega
    rw [UMem.pushArgs, argSpace, argAddrs, hpush, if_neg (by omega)]
    generalize hsp' : sp - round16 (arg.length + 1) = sp' at *
    by_cases hfull : sp' < v * PGSIZE
    · rw [if_pos hfull]
      exact .inl ⟨by omega, rfl⟩
    rw [if_neg hfull]
    have hdiv : sp' / PGSIZE = v := by
      unfold PGSIZE at *
      omega
    have hfit : sp' % PGSIZE + (arg ++ [0]).length ≤ PGSIZE := by
      rw [List.length_append, List.length_singleton]
      unfold PGSIZE at *
      omega
    rw [hdiv]
    have hal' : sp' % 16 = 0 := by
      unfold round16 at hsp'
      omega
    rcases ih (ustack ++ [sp']) (M.put v (sp' % PGSIZE) (arg ++ [0])) hal' (by omega) (by omega)
        (fun a ha => hshort a (.tail _ ha)) (by
          rw [List.length_append, List.length_singleton]
          omega) with
      ⟨hlt, hnone⟩ | ⟨hge, M', hsome, habove, hstr⟩
    · exact .inl ⟨by omega, hnone⟩
    · refine .inr ⟨by omega, M', ?_, fun x hx => ?_, fun hM => ?_⟩
      · rw [hsome, List.append_assoc, ← hsp', Nat.sub_sub]
        rfl
      · rw [habove x (by omega)]
        refine UMem.byte_put_above hdiv ?_
        rw [List.length_append, List.length_singleton]
        omega
      · obtain ⟨hM', hrest⟩ := hstr (UMem.put_isSome _ _ hM)
        refine ⟨hM', ?_⟩
        rintro x (_ | ⟨_, hx⟩)
        · exact (UMem.holds_put hM hdiv hfit).congr habove
        · exact hrest x hx

/-- The whole stack: it is built exactly if it fits in the page. -/
theorem pushStack_layout (hv : 0 < v) (htop : (v + 1) * PGSIZE ≤ 2 ^ 64) (hshort : ∀ a ∈ argv, a.length < PGSIZE)
    (hargs : argv.length < MAXARG) : (¬ ArgsFit argv ∧ UMem.pushStack ((v + 1) * PGSIZE) argv M = none) ∨
      (ArgsFit argv ∧ ∃ sp M', UMem.pushStack ((v + 1) * PGSIZE) argv M = some (argv.length, sp, M') ∧ ((M v).isSome →
          ArgBlock M' ((v + 1) * PGSIZE) argv sp (argAddrs ((v + 1) * PGSIZE) argv))) := by
  have hbase : (v + 1) * PGSIZE - PGSIZE = v * PGSIZE := by
    rw [Nat.add_mul, Nat.one_mul, Nat.add_sub_cancel]
  have hpage : PGSIZE ≤ v * PGSIZE := Nat.le_mul_of_pos_left _ hv
  have hal : (v + 1) * PGSIZE % 16 = 0 := by
    unfold PGSIZE
    omega
  have hmax : MAXARG * 8 ≤ PGSIZE := by decide
  unfold ArgsFit
  rw [UMem.pushStack, hbase]
  rcases pushArgs_layout hv htop [] M hal (by omega) (Nat.le_refl _) hshort (by
      rw [List.length_nil]
      omega) with ⟨hlt, hnone⟩ | ⟨hge, M', hsome, -, hstr⟩
  · rw [hnone]
    exact .inl ⟨by omega, rfl⟩
  rw [hsome]
  simp only
  rw [List.nil_append, argAddrs_length]
  have hsp : ((v + 1) * PGSIZE - argSpace argv) % 16 = 0 := by
    have := argSpace_aligned argv
    omega
  obtain ⟨hpush, hle⟩ := pushed_eq (n := (argv.length + 1) * 8) hsp (by omega) (by omega) (by omega)
  have hround : (argv.length + 1) * 8 ≤ round16 ((argv.length + 1) * 8) ∧ round16 ((argv.length + 1) * 8) % 16 = 0 := by
    unfold round16
    omega
  rw [hpush]
  generalize hsp' : (v + 1) * PGSIZE - argSpace argv - round16 ((argv.length + 1) * 8) = sp'
  by_cases hfull : sp' < v * PGSIZE
  · rw [if_pos hfull]
    exact .inl ⟨by omega, rfl⟩
  rw [if_neg hfull]
  have hdiv : sp' / PGSIZE = v := by
    unfold PGSIZE at *
    omega
  have hlen := ustackBytes_length (argAddrs ((v + 1) * PGSIZE) argv)
  rw [argAddrs_length] at hlen
  have hfit : sp' % PGSIZE + (ustackBytes (argAddrs ((v + 1) * PGSIZE) argv)).length ≤ PGSIZE := by
    rw [hlen]
    unfold PGSIZE at *
    omega
  have hbounds : ∀ x ∈ argv.zip (argAddrs ((v + 1) * PGSIZE) argv), _ :=
    argAddrs_bounds (show argSpace argv ≤ (v + 1) * PGSIZE by omega)
  rw [hdiv]
  refine .inr ⟨by omega, sp', _, rfl, fun hM => ?_⟩
  obtain ⟨hM', hstr⟩ := hstr hM
  have hwords := UMem.Holds.word (UMem.holds_put hM' hdiv hfit)
  refine ⟨?_, by omega, by omega, argAddrs_length .., fun i hi => ?_, ?_, fun x hx => ?_,
    fun x hx => ?_, argAddrs_apart (by omega)⟩
  · omega
  · have hw := hwords i (by
      rw [List.length_append]
      omega)
    rw [List.getElem_append_left hi] at hw
    exact hw
  · have hw := hwords argv.length (by
      rw [List.length_append, argAddrs_length]
      exact Nat.lt_succ_self _)
    rw [List.getElem_append_right (by rw [argAddrs_length]), List.getElem_singleton] at hw
    exact hw
  · refine (hstr x hx).congr fun y hy => UMem.byte_put_above hdiv ?_
    have := hbounds x hx
    omega
  · have := hbounds x hx
    omega

end Push

/-! ## The image and `exec` -/

/-- A stack whose top is not an address cannot be built, with or without arguments. -/
theorem pushStack_wraps {v : Nat} (htop : 2 ^ 64 < (v + 1) * PGSIZE) (M : UMem) :
    UMem.pushStack ((v + 1) * PGSIZE) [] M = none := by
  rw [UMem.pushStack, UMem.pushArgs]
  simp only
  rw [if_pos]
  unfold pushed PGSIZE at *
  omega

/-- An image ends with its stack page. -/
theorem buildImage_stack (file : List UInt8) : (∀ argv, UMem.buildImage file argv = none) ∨
      ∃ v M, 0 < v ∧ ((v + 1) * PGSIZE < 2 ^ 64 → (M v).isSome) ∧ ∀ argv, UMem.buildImage file argv =
        (UMem.pushStack ((v + 1) * PGSIZE) argv M).map ((v + 1) * PGSIZE, ·) := by
  unfold UMem.buildImage
  simp only
  cases hseg : UMem.loadSegments file (Elfhdr.parse (readiFile file 0 elfhdrSize)).phnum
      ((Elfhdr.parse (readiFile file 0 elfhdrSize)).phoff % 2 ^ 32) 0 fun _ => none with
  | none => exact .inl fun _ => rfl
  | some p =>
    obtain ⟨sz, M⟩ := p
    have hsz : PGROUNDUP sz + 2 * PGSIZE = (npages sz + 1 + 1) * PGSIZE := by
      have := PGROUNDUP_dvd sz
      unfold npages PGSIZE at *
      omega
    refine .inr ⟨npages sz + 1, _, Nat.succ_pos _, fun hlt => ?_, fun argv => by rw [← hsz]⟩
    have hn : npages (PGROUNDUP sz + 2 * PGSIZE) = npages sz + 1 + 1 := by
      rw [hsz]
      unfold npages PGROUNDUP PGSIZE at *
      omega
    have hguard : (PGROUNDUP sz + 2 * PGSIZE) / PGSIZE - 2 = npages sz := by
      rw [hsz, Nat.mul_div_cancel _ (by decide)]
      omega
    rw [hn, hguard, UMem.guard, update_of_ne (Nat.succ_ne_self _), UMem.grow,
      if_pos ⟨Nat.le_succ _, Nat.lt_succ_self _⟩]
    rfl

/-- The arguments decide whether there is an image only by the room they take. -/
theorem image_none {file : Option (List UInt8)} (hshort : ∀ a ∈ argv, a.length < PGSIZE) (hargs : argv.length < MAXARG)
    (h : UMem.image file argv = none) : UMem.image file [] = none ∨ ¬ ArgsFit argv := by
  cases file with
  | none => exact .inl rfl
  | some file =>
    unfold UMem.image at h ⊢
    simp only at h ⊢
    split_ifs at h ⊢ with hhdr hmagic
    · exact .inl rfl
    · exact .inl rfl
    rcases buildImage_stack file with hnone | ⟨v, M, hv, -, heq⟩
    · exact .inl (hnone [])
    rw [heq, Option.map_eq_none_iff] at h ⊢
    by_cases htop : (v + 1) * PGSIZE ≤ 2 ^ 64
    · rcases pushStack_layout (M := M) hv htop hshort hargs with ⟨hno, -⟩ | ⟨-, sp, M', hsome, -⟩
      · exact .inr hno
      · rw [h] at hsome
        cases hsome
    · exact .inl (pushStack_wraps (by omega) M)

/-- The stack of an image. -/
theorem image_args {file : Option (List UInt8)} {sz argc : Nat}
    (hshort : ∀ a ∈ argv, a.length < PGSIZE) (hargs : argv.length < MAXARG) (hsz : sz < 2 ^ 64)
    (h : UMem.image file argv = some (sz, argc, sp, M)) : argc = argv.length ∧ ∃ ptrs, ArgBlock M sz argv sp ptrs := by
  cases file with
  | none => cases h
  | some file =>
    unfold UMem.image at h
    simp only at h
    split_ifs at h with hhdr hmagic
    rcases buildImage_stack file with hnone | ⟨v, M0, hv, hM0, heq⟩
    · rw [hnone] at h
      cases h
    rw [heq] at h
    obtain ⟨⟨argc', sp', M'⟩, hpush, hval⟩ := Option.map_eq_some_iff.1 h
    cases hval
    rcases pushStack_layout (M := M0) hv (by omega) hshort hargs with
      ⟨-, hno⟩ | ⟨-, sp'', M'', hsome, hblock⟩
    · rw [hno] at hpush
      cases hpush
    · rw [hsome] at hpush
      cases hpush
      exact ⟨rfl, _, hblock (hM0 hsz)⟩

section Exec

variable {k : Kernel} {i : Fin NPROC}

/-- In every state of the kernel: what a process that calls `exec` hands to its new image, and why
`exec` fails. -/
theorem exec_hands_over_args (h : KInv k) (hi : (k.table.proc i).state = .runnable) {r tf : Nat}
    (hm : (k.table.proc i).mem = ⟨some r, some tf⟩) (file : Option (List UInt8))
    {argv : List (List UInt8)} (hargs : argv.length ≤ MAXARG - 1)
    (hshort : ∀ a ∈ argv, a.length < PGSIZE) {o : Option (Nat × Nat × Nat)} {km : Kmem}
    (hr : exec k.trampoline tf r (k.table.proc i).sz file argv k.km = .ok (o, km)) :
    (∃ new sz sp ptrs, o = some (argv.length, new, sz) ∧ StackRegisters km.mem tf sp ∧ sp < 2 ^ 64 ∧
        ArgBlock (umem km.mem new) sz argv sp ptrs) ∨
      o = none ∧ (k.km.exhausted < km.exhausted ∨ UMem.image file [] = none ∨ ¬ ArgsFit argv) := by
  obtain ⟨r', tf', hm', ht, hl⟩ := h.actor hi
  rw [hm] at hm'
  cases hm'
  have hlt : argv.length < MAXARG := by
    unfold MAXARG at *
    omega
  have hfew : (k.rootsBut i).length + 1 < 2 * NPROC := by
    have := k.rootsBut_length (i := i) (by rw [hm])
    omega
  rcases (exec_meets hl ht hfew hshort).post _ _ hr with
    ⟨rfl, -, -, hcase⟩ | ⟨argc, new, sz, sp, rfl, -, -, ht', -, himg, hregs⟩
  · refine Or.inr ⟨rfl, ?_⟩
    rcases hcase with hex | ⟨-, himg⟩
    · exact Or.inl hex
    · exact Or.inr (image_none hshort hlt himg)
  · have hsz : sz < 2 ^ 64 := Nat.lt_of_le_of_lt ht'.fits (by decide)
    obtain ⟨rfl, ptrs, hblock⟩ := image_args hshort hlt hsz himg
    have hsp := hblock.end_le
    exact Or.inl ⟨new, sz, sp, ptrs, rfl, hregs, by omega, hblock⟩

end Exec

/-- Once the image is built, `exec` does not fail any more. -/
theorem exec_of_built {trampoline tf cur oldsz new sz argc : Nat} {file : List UInt8} {s s1 s2 s' : Kmem}
    {o : Option (Nat × Nat × Nat)} (hhdr : (readiFile file 0 elfhdrSize).length = elfhdrSize)
    (hmagic : (Elfhdr.parse (readiFile file 0 elfhdrSize)).magic = ELF_MAGIC)
    (hpt : procPagetable trampoline tf s = .ok (some new, s1))
    (hbuild : buildImage cur new file argv s1 = .ok ((sz, some (argc, sp)), s2))
    (hr : exec trampoline tf cur oldsz (some file) argv s = .ok (o, s')) : o = some (argc, new, sz) := by
  unfold exec at hr
  simp only at hr
  rw [if_neg (not_not_intro hhdr), if_neg (not_not_intro hmagic), bind_of_ok hpt] at hr
  simp only at hr
  rw [bind_of_ok hbuild] at hr
  obtain ⟨_, _, -, hr⟩ := bind_ok hr
  obtain ⟨_, _, -, hr⟩ := bind_ok hr
  obtain ⟨_, _, -, hr⟩ := bind_ok hr
  obtain ⟨_, _, -, hr⟩ := bind_ok hr
  exact (pure_ok hr).1

/-- An executable of no segments. -/
def emptyProgram : List UInt8 := [0x7F, 0x45, 0x4C, 0x46] ++ List.replicate 60 0

theorem firstProcess_mem : (firstProcess.table.proc ⟨0, by decide⟩).mem = ⟨some 2281693184, some 2281697280⟩ := by
  have h1 : (firstProcess.table.proc ⟨0, by decide⟩).mem.pagetable = some 2281693184 := by decide +kernel
  have h2 : (firstProcess.table.proc ⟨0, by decide⟩).mem.trapframe = some 2281697280 := by decide +kernel
  rw [← h1, ← h2]

/-- The first process executes the empty program with the arguments `hi` and `!`. -/
theorem exec_hands_over_args_hi : ∃ new sz sp ptrs km,
    exec firstProcess.trampoline 2281697280 2281693184 (firstProcess.table.proc ⟨0, by decide⟩).sz
      (some emptyProgram) [[104, 105], [33]] firstProcess.km = .ok (some (2, new, sz), km) ∧
      StackRegisters km.mem 2281697280 sp ∧
      ArgBlock (umem km.mem new) sz [[104, 105], [33]] sp ptrs := by
  obtain ⟨r, tf, hm, ht, hl⟩ := firstProcess_inv.actor firstProcess_runnable
  rw [firstProcess_mem] at hm
  cases hm
  have hshort : ∀ a ∈ ([[104, 105], [33]] : List (List UInt8)), a.length < PGSIZE := by decide
  obtain ⟨o, km, hr⟩ : Returns (exec firstProcess.trampoline 2281697280 2281693184
      (firstProcess.table.proc ⟨0, by decide⟩).sz (some emptyProgram) [[104, 105], [33]])
      firstProcess.km :=
    (exec_meets hl ht (Nat.lt_of_le_of_lt
      (firstProcess.rootsBut_length (by rw [firstProcess_mem])) (by decide)) hshort).total
  rcases exec_hands_over_args firstProcess_inv firstProcess_runnable firstProcess_mem
      (some emptyProgram) (by decide) hshort hr with
    ⟨new, sz, sp, ptrs, rfl, hregs, -, hblock⟩ | ⟨rfl, -⟩
  · exact ⟨new, sz, sp, ptrs, km, hr, hregs, hblock⟩
  · -- there is memory enough to build the image, so this is not the case
    have hval : ((procPagetable firstProcess.trampoline 2281697280 >>= fun o =>
        o.elim (pure false) fun new =>
          buildImage 2281693184 new emptyProgram [[104, 105], [33]] >>= fun b => pure b.2.isSome)
        firstProcess.km).toOption.map Prod.fst = some true := by decide +kernel
    obtain ⟨⟨b, s3⟩, hok, rfl⟩ := Option.map_eq_some_iff.1 hval
    obtain ⟨o, s1, hpt, hrest⟩ := bind_ok (ok_of_toOption hok)
    cases o with
    | none => cases (pure_ok hrest).1
    | some new =>
      obtain ⟨⟨sz, stack⟩, s2, hbuild, hrest⟩ := bind_ok hrest
      cases stack with
      | none => cases (pure_ok hrest).1
      | some stack => cases exec_of_built (by decide) (by decide) hpt hbuild hr

end Xv6.Vm
