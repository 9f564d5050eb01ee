import Xv6.Vm.Operations

/-!
# Operations that change the image of a process

`sbrk`, `exec`, `fork` and the making of the first process: they allocate and give back pages, so each of
them ends in one of two ways, as it should or without memory. `exec_meets_step` puts all the operations
together.
-/

set_option autoImplicit false

namespace Xv6.Vm

open Xv6.Base

variable {s s' : Kmem} {r sz tf trampoline : Nat}

section

variable {s s' : Kmem} {r : Nat} {rs held : List Nat}

/-- A table that has no new leaf takes frames for its own pages only. -/
theorem Ledger.free_of_same_leaves (h : Ledger s (r :: rs) held) (h' : Ledger s' (r :: rs) held)
    (hk : Keeps s s' rs held)
    (hsame : ∀ v, has (pte s'.mem r v) PTE_V = true → pte s'.mem r v = pte s.mem r v) {f : Nat}
    (hf : f ∈ s.freelist) : f ∈ s'.freelist ∨ f ∈ tables s'.mem 2 r := by
  by_cases htab : f ∈ tables s'.mem 2 r
  · exact .inr htab
  · obtain ⟨hframe, hzero⟩ := (h.counts.free f).1 hf
    rw [owners_views_cons] at hzero
    refine .inl ((h'.counts.free f).2 ⟨by rw [hk.kend]; exact hframe, ?_⟩)
    have hleaf : leafCount (pte s'.mem r) f = 0 := by
      refine Nat.eq_zero_of_not_pos fun hpos => ?_
      obtain ⟨v, hv, hm⟩ := leafCount_pos_iff.1 hpos
      rw [hsame v (maps_iff.1 hm).1] at hm
      have hpos' : 0 < leafCount (pte s.mem r) f := leafCount_pos_iff.2 ⟨v, hv, hm⟩
      have hle : leafCount (pte s.mem r) f ≤ (view s.mem r).owns f := Nat.le_add_left _ _
      omega
    have howns : (view s'.mem r).owns f = 0 := by
      show (tables s'.mem 2 r).count f + leafCount (pte s'.mem r) f = 0
      rw [hleaf, List.count_eq_zero.2 htab]
    rw [owners_views_cons, howns, hk.views]
    omega

end

section Sbrk

variable {k k' : Kernel} {i : Fin NPROC}

/-- The slot of one process is replaced, with the same trapframe. -/
theorem KInv.replace {r' : Nat} {km : Kmem} (h : KInv k) (hi : (k.table.proc i).state = .runnable)
    (hl : Ledger km (r' :: k.rootsBut i) (tf :: k.heldBut i))
    (hk : SameSpaces k.km km (k.rootsBut i)) (ht : UserTable km.mem k.trampoline tf r' sz)
    (hk' : k' = (k.setMem km).setTable (k.table.set i { k.table.proc i with sz := sz, mem := ⟨some r', some tf⟩ })) :
    KInv k' ∧ k'.km = km ∧ k'.spaces =
      k.spaces.set i { k.spaces.proc i with sz := sz, mem := umem km.mem r' } := by
  subst hk'
  refine ⟨h.put hl hk (.inr ⟨.inl hi, r', tf, rfl, ht⟩), rfl, ?_⟩
  rw [k.spaces_put hk, Kernel.spaces_proc]
  rfl

theorem UserTable.unmapped {sz' : Nat}
    (h : UserTable s.mem trampoline tf r sz) (hu : Unmapped s s' r (npages sz') (npages sz)) (hle : sz' ≤ sz) :
    UserTable s'.mem trampoline tf r sz' ∧ umem s'.mem r = (umem s.mem r).shrink (npages sz') (npages sz) := by
  have hum : umem s'.mem r = (umem s.mem r).shrink (npages sz') (npages sz) := funext hu.umem
  refine ⟨h.congr (hle.trans h.fits) ?_ fun u hup => ?_, hum⟩
  · rw [hum]
    exact h.pages.shrink (npages_le_of_le hle h.small)
  · rw [hu.entry, if_neg]
    have := h.npages_le
    omega

variable {n : Int} {t : Spaces}

theorem Spaces.sbrk_grow (h : 0 < n) : Spaces.sbrk none i n t = (((t.proc i).sz : Int), t.set i { t.proc i with
      sz := ((((t.proc i).sz : Int) + n) % 2 ^ 64).toNat
      mem := (t.proc i).mem.grow (npages (t.proc i).sz)
        (npages ((((t.proc i).sz : Int) + n) % 2 ^ 64).toNat) PTE_W }) := by
  exact if_pos h

theorem Spaces.sbrk_shrink (h : n < 0) (hlt : ((((t.proc i).sz : Int) + n) % 2 ^ 64).toNat < (t.proc i).sz) :
    Spaces.sbrk none i n t = (((t.proc i).sz : Int), t.set i { t.proc i with
      sz := ((((t.proc i).sz : Int) + n) % 2 ^ 64).toNat
      mem := (t.proc i).mem.shrink (npages ((((t.proc i).sz : Int) + n) % 2 ^ 64).toNat)
        (npages (t.proc i).sz) }) := by
  exact (if_neg (by omega)).trans (if_pos ⟨h, hlt⟩)

theorem Spaces.sbrk_stay (h : ¬0 < n) (hle : ¬(n < 0 ∧ ((((t.proc i).sz : Int) + n) % 2 ^ 64).toNat < (t.proc i).sz)) :
    Spaces.sbrk none i n t = (((t.proc i).sz : Int), t) := by
  exact (if_neg h).trans (if_neg hle)

/-- `growproc(n)` of process `i`. -/
def growproc (i : Fin NPROC) (n : Int) : SysM Int := do
  let p ← getProc i
  let r ← deref p.mem.pagetable
  let newsz := (((p.sz : Int) + n) % 2 ^ 64).toNat
  if 0 < n then do
    let sz ← onMem (uvmalloc r p.sz newsz PTE_W)
    if sz = 0 then pure (-1)
    else do
      setProc i { p with sz := sz }
      pure 0
  else if n < 0 then do
    let sz ← onMem (uvmdealloc r p.sz newsz)
    setProc i { p with sz := sz }
    pure 0
  else do
    setProc i p
    pure 0

/-- `sys_sbrk()` returns the old size unless `growproc` fails. -/
theorem sysSbrk_eq (i : Fin NPROC) (n : Int) :
    sysSbrk i n = (do
      let p ← getProc i
      let e ← growproc i n
      if e < 0 then pure (-1) else pure (p.sz : Int)) := by
  funext k
  have hproc : getProc i k = .ok (k.table.proc i, k) := rfl
  unfold sysSbrk growproc
  simp only [bind_assoc]
  rw [bind_of_ok hproc, bind_of_ok hproc, bind_of_ok hproc]
  cases hd : (k.table.proc i).mem.pagetable with
  | none => rfl
  | some r =>
    have hderef : deref (some r) k = .ok (r, k) := rfl
    rw [bind_of_ok hderef, bind_of_ok hderef]
    by_cases hpos : 0 < n
    · rw [if_pos hpos, if_pos hpos, bind_assoc, bind_apply, bind_apply]
      cases onMem (uvmalloc r (k.table.proc i).sz (((k.table.proc i).sz + n) % 2 ^ 64).toNat PTE_W) k with
      | error e => rfl
      | ok a =>
        rw [ok_bind, ok_bind]
        by_cases hz : a.1 = 0
        · rw [if_pos hz, if_pos hz]
          rfl
        · rw [if_neg hz, if_neg hz]
          rfl
    · rw [if_neg hpos, if_neg hpos]
      by_cases hneg : n < 0
      · rw [if_pos hneg, if_pos hneg, bind_assoc, bind_apply, bind_apply]
        cases onMem (uvmdealloc r (k.table.proc i).sz (((k.table.proc i).sz + n) % 2 ^ 64).toNat) k with
        | error e | ok a => rfl
      · rw [if_neg hneg, if_neg hneg, bind_assoc]
        have hset : setProc i (k.table.proc i) k = .ok ((), k) :=
          congrArg (fun t => Except.ok ((), k.setTable t)) (ProcTable.set_proc_self k.table i)
        rw [bind_of_ok hset]
        rfl

/-- A process as it was before: the same slot, the same mappings with the same bytes, and every frame that was free is
free or a page of its table. -/
structure NotGrown (k k' : Kernel) (i : Fin NPROC) : Prop where
  table : k'.table = k.table
  bytes : k'.spaces = k.spaces
  mappings : ∀ r, (k.table.proc i).mem.pagetable = some r → ∀ v,
    has (pte k.km.mem r v) PTE_V = true ∨ has (pte k'.km.mem r v) PTE_V = true → pte k'.km.mem r v = pte k.km.mem r v
  frames : ∀ r, (k.table.proc i).mem.pagetable = some r → ∀ f ∈ k.km.freelist,
    f ∈ k'.km.freelist ∨ f ∈ tables k'.km.mem 2 r

/-- `growproc(n)` makes of the address space what it should, or fails and leaves the process as it was. -/
theorem growproc_meets (h : KInv k) (hi : (k.table.proc i).state = .runnable) (hn : -2 ^ 31 ≤ n ∧ n < 2 ^ 31) :
    Meets (fun _ => False) (growproc i n) k fun e k' => KInv k' ∧ ((e = 0 ∧ k'.km.exhausted = k.km.exhausted ∧
        Spaces.sbrk none i n k.spaces = (((k.table.proc i).sz : Int), k'.spaces) ∧
        (((k.table.proc i).sz : Int) + n < 0 → k' = k)) ∨
      (e = -1 ∧ 0 < n ∧ k.km.exhausted < k'.km.exhausted ∧ NotGrown k k' i)) := by
  obtain ⟨r, tf, hm, ht, hl⟩ := h.actor hi
  have hpt : (k.table.proc i).mem.pagetable = some r := by rw [hm]
  have hsz := k.spaces_sz i
  have hmem := Kernel.spaces_mem hm
  have hsmall := ht.small
  have hset : ∀ sz, ({ k.table.proc i with sz := sz } : Proc Image) =
      { k.table.proc i with sz := sz, mem := ⟨some r, some tf⟩ } := fun sz => by rw [← hm]
  have hsame : setProc i (k.table.proc i) k = .ok ((), k) :=
    congrArg (fun t => Except.ok ((), k.setTable t)) (ProcTable.set_proc_self k.table i)
  refine .step rfl ?_
  rw [hpt]
  refine .step rfl (.ite (fun hpos => ?_) fun hpos => .ite (fun hneg => ?_) fun hneg => ?_)
  · -- more memory: the new size does not wrap
    have hnew : (((k.table.proc i).sz : Int) + n) % 2 ^ 64 = (k.table.proc i).sz + n :=
      Int.emod_eq_of_lt (by omega) (by omega)
    rw [hnew]
    refine .bind (onMem_meets (uvmalloc_meets _ hl ht permOk_PTE_W)) ?_
    rintro _ _ ⟨km, rfl, hl1, hk1, -, ⟨rfl, hex, ht1, hum, -⟩ | ⟨rfl, hex, ht1, hum, hentries⟩⟩
    · have hmax : max (k.table.proc i).sz ((k.table.proc i).sz + n).toNat = ((k.table.proc i).sz + n).toNat := by omega
      rw [hmax] at ht1 hum ⊢
      rw [if_neg (by omega), hset]
      obtain ⟨hinv, -, hsp⟩ := h.replace hi hl1 hk1.sameSpaces ht1 rfl
      refine .step rfl (.pure ⟨hinv, .inl ⟨rfl, hex, ?_, fun _ => by omega⟩⟩)
      rw [Spaces.sbrk_grow hpos, hmem, hsz, hnew]
      exact congrArg (Prod.mk _) ((hum ▸ hsp).symm)
    · rw [if_pos rfl]
      obtain ⟨hinv, hsp⟩ := h.setMem hi hm hl1 hk1.sameSpaces ht1
      refine .pure ⟨hinv, .inr ⟨rfl, hpos, hex, rfl, ?_, ?_, ?_⟩⟩
      · rw [hsp, hum, ← hmem, Spaces.setMem]
        exact ProcTable.set_proc_self _ _
      · intro r' hr' v hv
        cases hpt.symm.trans hr'
        exact hentries v hv
      · intro r' hr' f hf
        cases hpt.symm.trans hr'
        exact hl.free_of_same_leaves hl1 hk1 (fun v hv => hentries v (.inr hv)) hf
  · -- less memory
    refine .bind (onMem_meets ((uvmdealloc_meets hl ht.npages_le).mono fun _ hbad =>
      hbad fun _ hu => ht.leaf hu)) ?_
    rintro _ _ ⟨km, rfl, ⟨hle, rfl, rfl⟩ | ⟨hlt, rfl, hl1, hk1, hu, hex⟩⟩
    · -- a size that would be negative wraps, and nothing happens
      refine .step (a := ()) (t := k) hsame (.pure ⟨h, .inl ⟨rfl, rfl, ?_, fun _ => rfl⟩⟩)
      rw [Spaces.sbrk_stay hpos (by rw [hsz]; omega), hsz]
    · obtain ⟨ht1, hum⟩ := ht.unmapped hu (Nat.le_of_lt hlt)
      obtain ⟨hinv, -, hsp⟩ := h.replace hi hl1 hk1.sameSpaces ht1 rfl
      rw [hset]
      refine .step rfl (.pure ⟨hinv, .inl ⟨rfl, hex, ?_, fun hwrap => ?_⟩⟩)
      · rw [Spaces.sbrk_shrink hneg (by rw [hsz]; exact hlt), hmem, hsz]
        exact congrArg (Prod.mk _) ((hum ▸ hsp).symm)
      · rw [← Int.add_emod_right, Int.emod_eq_of_lt (by omega) (by omega)] at hlt
        omega
  · refine .step hsame (.pure ⟨h, .inl ⟨rfl, rfl, ?_, fun _ => rfl⟩⟩)
    rw [Spaces.sbrk_stay hpos (fun hc => hneg hc.1), hsz]

theorem sbrk_step (h : KInv k) (hi : (k.table.proc i).state = .runnable) (hn : -2 ^ 31 ≤ n ∧ n < 2 ^ 31) :
    Meets (fun _ => False) (Kernel.exec (.sbrk i n)) k (StepOk (.sbrk i n) k) := by
  refine .map ?_
  rw [sysSbrk_eq]
  refine .step rfl (.bind (growproc_meets h hi hn) ?_)
  rintro e k' ⟨hinv, ⟨rfl, hex, hsp, -⟩ | ⟨rfl, hpos, hex, hno⟩⟩
  · refine .ite (fun hlt => absurd hlt (by decide)) fun _ => .pure (.done hinv hex ?_)
    exact congrArg (Prod.map some id) hsp
  · refine .ite (fun _ => .pure ⟨hinv, .inr ⟨hex, (0, 0), ?_⟩⟩) fun hlt => absurd (by decide) hlt
    have hstep : Spaces.sbrk (some (0, 0)) i n k.spaces = (-1, k'.spaces) := by
      rw [hno.bytes]
      exact if_pos hpos
    exact congrArg (Prod.map some id) hstep

end Sbrk

section Exec

variable {k : Kernel} {i : Fin NPROC}

theorem exec_step {files : List UInt8 → Option (List UInt8)} {upath uargv : Nat} (h : KInv k)
    (hi : (k.table.proc i).state = .runnable) :
    Meets (fun _ => False) (Kernel.exec (.exec i files upath uargv)) k (StepOk (.exec i files upath uargv) k) := by
  obtain ⟨r, tf, hm, ht, hl⟩ := h.actor hi
  have hsz := k.spaces_sz i
  have hmem := Kernel.spaces_mem hm
  have hfew : (k.rootsBut i).length + 1 < 2 * NPROC := by
    have := k.rootsBut_length (i := i) (by rw [hm])
    omega
  refine .map ?_
  rw [sysExecProc]
  refine .step rfl ?_
  rw [hm]
  refine .step rfl (.step rfl (.step rfl (.bind (onMem_meets (sysExec_meets hl ht hfew)) ?_)))
  rintro _ _ ⟨km, rfl, ⟨rfl, hl1, hk1, hcase⟩ | ⟨argc, new, sz, sp, rfl, hl1, hk1, ht1, hex, himg⟩⟩
  · obtain ⟨hinv, hsp⟩ := h.setMem hi hm hl1 (hk1.mono (List.sublist_cons_self ..) (.refl _)).sameSpaces
      (ht.keep hk1 (.head _))
    have hsame : k.spaces.setMem i (umem km.mem r) = k.spaces := by
      rw [hk1.umem (.head _), ← hmem]
      exact ProcTable.set_proc_self _ _
    refine .pure ⟨hinv, ?_⟩
    rw [hsp, hsame]
    rcases hcase with hex | ⟨hex, himg⟩
    · exact .inr ⟨hex, (0, 0), rfl⟩
    · refine .inl ⟨hex, ?_⟩
      show Prod.map some id (Spaces.exec none i files upath uargv k.spaces) = _
      unfold Spaces.exec
      rw [hmem, hsz, himg]
      rfl
  · obtain ⟨hinv, -, hsp⟩ := h.replace hi hl1 hk1.sameSpaces ht1 rfl
    refine .step rfl (.pure (.done hinv hex ?_))
    show Prod.map some id (Spaces.exec none i files upath uargv k.spaces) = _
    unfold Spaces.exec
    rw [hmem, hsz, himg]
    exact congrArg (Prod.mk (some _)) hsp.symm

end Exec

variable {held : List Nat}

section Fork

variable {k k' : Kernel} {i : Fin NPROC}

variable {roots : List Nat}

theorem SameSpaces.trans {s'' : Kmem} (h : SameSpaces s s' roots)
    (h' : SameSpaces s' s'' roots) : SameSpaces s s'' roots :=
  ⟨h'.kend.trans h.kend, fun r hr => (h.space r hr).trans (h'.space r hr)⟩

theorem SameSpaces.subset {roots' : List Nat} (h : SameSpaces s s' roots)
    (hsub : ∀ r ∈ roots', r ∈ roots) : SameSpaces s s' roots' :=
  ⟨h.kend, fun r hr => h.space r (hsub r hr)⟩

theorem pages_eq_npages (h : sz ≤ TRAPFRAME) : (sz + PGSIZE - 1) / PGSIZE = npages sz := by
  have hlt := h.trans_lt TRAPFRAME_lt
  unfold npages PGROUNDUP PGSIZE
  omega

theorem UserTable.invalid {m : Mem} (h : UserTable m trampoline tf r 0) :
    ∀ u < UPAGES, has (pte m r u) PTE_V = false := fun u hu =>
  (umem_eq_none_iff hu).1 (h.pages.none u (by rw [show npages 0 = 0 by decide]; omega))

/-- An empty user area under the same entries of the kernel. -/
theorem UserTable.emptied {m m' : Mem}
    (h : UserTable m trampoline tf r sz) (hhigh : ∀ u, UPAGES ≤ u → pte m' r u = pte m r u)
    (hno : ∀ u < UPAGES, has (pte m' r u) PTE_V = false) : UserTable m' trampoline tf r 0 := by
  refine h.congr (Nat.zero_le _) ?_ hhigh
  have hempty : umem m' r = fun _ => none := by
    funext u
    by_cases hu : u < UPAGES
    · exact (umem_eq_none_iff hu).2 (hno u hu)
    · exact if_neg hu
  rw [hempty]
  exact UMem.pages_empty

/-- `uvmcopy` in `fork`: the parent's address space stays as it is, and the child's is a copy of it. -/
theorem uvmcopy_fork {old new tf' : Nat} {rs : List Nat}
    (h : Ledger s (new :: old :: rs) held) (hold : UserTable s.mem trampoline tf old sz)
    (hnew : UserTable s.mem trampoline tf' new 0) : Meets (fun _ => False) (uvmcopy old new sz) s fun ret s' =>
      Ledger s' (new :: old :: rs) held ∧ Keeps s s' rs held ∧ SameSpaces s s' (old :: rs) ∧ Marked s.mem s'.mem old ∧
        ((ret = 0 ∧ s'.exhausted = s.exhausted ∧ UserTable s'.mem trampoline tf' new sz ∧
            umem s'.mem new = umem s.mem old) ∨
          (ret = -1 ∧ s.exhausted < s'.exhausted ∧ UserTable s'.mem trampoline tf' new 0)) := by
  have hn := pages_eq_npages hold.fits
  have hcopy := uvmcopy_meets h hnew.invalid (by rw [hn]; exact hold.npages_le)
  rw [hn] at hcopy
  refine (hcopy.mono fun _ hbad => hbad hold.pages.some).weaken ?_
  rintro ret s' ⟨hl, hk, hs, hm, hhigh, hcase⟩
  refine ⟨hl, hk, ⟨hk.kend, fun r hr => ?_⟩, hm, ?_⟩
  · rcases List.mem_cons.1 hr with rfl | hr
    · exact hs
    · exact hk.sameSpace hr
  · rcases hcase with ⟨rfl, hex, -, hum⟩ | ⟨rfl, hex, hno⟩
    · have humem : umem s'.mem new = umem s.mem old := by
        funext u
        rw [hum u]
        split_ifs with hu
        · rfl
        · exact (hold.pages.none u (by omega)).symm
      refine .inl ⟨rfl, hex, hnew.congr hold.fits ?_ hhigh, humem⟩
      rw [humem]
      exact hold.pages
    · exact .inr ⟨rfl, hex, hnew.emptied hhigh hno⟩

/-- The trapframe of the child: a copy of the parent's with another return value. -/
theorem pageEq_trapframe (m : Mem) {ntf f : Nat} (hn : ntf % PGSIZE = 0) (hf : f % PGSIZE = 0) (hne : f ≠ ntf) :
    PageEq m (sd64 (copy m ntf tf trapframeSize) (ntf + trapframeA0) 0#64) f := by
  have hcopy : PageEq m (copy m ntf tf trapframeSize) f := by
    intro x h1 h2
    refine copy_of_not_mem m ?_
    unfold PGSIZE trapframeSize at *
    omega
  exact hcopy.trans (pageEq_sd64 (i := 14) _ 0#64 hn hf (by decide) hne)

/-- A free slot holds no pages. -/
theorem Kernel.roots_perm_free (k : Kernel) {j : Fin NPROC}
    (hj : k.table.proc j = Proc.free ⟨none, none⟩) : k.roots.Perm (k.rootsBut j) := by
  have hp := k.roots_perm j
  rw [hj] at hp
  exact hp

theorem Kernel.held_perm_free (k : Kernel) {j : Fin NPROC}
    (hj : k.table.proc j = Proc.free ⟨none, none⟩) : k.held.Perm (k.heldBut j) := by
  have hp := k.held_perm j
  rw [hj] at hp
  exact hp

/-- A new process in a free slot. -/
theorem KInv.spawn {j : Fin NPROC} {r tf sz : Nat} {parent : Option (Fin NPROC)} {km : Kmem} (h : KInv k)
    (hj : k.table.proc j = Proc.free ⟨none, none⟩) (hl : Ledger km (r :: k.roots) (tf :: k.held))
    (hs : SameSpaces k.km km k.roots) (ht : UserTable km.mem k.trampoline tf r sz)
    (hk' : k' = (k.setMem km).setTable ((k.table.setNextpid (k.table.nextpid + 1)).set j
      ⟨.runnable, k.table.nextpid, parent, 0, sz, ⟨some r, some tf⟩⟩)) :
    KInv k' ∧ k'.km = km ∧ k'.spaces = k.spaces.spawn j parent sz (umem km.mem r) := by
  subst hk'
  have hr := k.roots_perm_free hj
  have hh := k.held_perm_free hj
  have hs' : SameSpaces k.km km (k.rootsBut j) := hs.subset fun r' hr' => hr.mem_iff.2 hr'
  have hput := (h.nextpid (k.table.nextpid + 1)).put (i := j)
    (p := ⟨.runnable, k.table.nextpid, parent, 0, sz, ⟨some r, some tf⟩⟩)
    ((hl.permRoots (hr.cons r)).permHeld (hh.cons tf)) hs' (.inr ⟨.inl rfl, r, tf, rfl, ht⟩)
  have hsp := (k.setTable (k.table.setNextpid (k.table.nextpid + 1))).spaces_put (i := j)
    (p := ⟨.runnable, k.table.nextpid, parent, 0, sz, ⟨some r, some tf⟩⟩) hs'
  exact ⟨hput, rfl, hsp⟩

/-- A `fork` that found no memory has used up a pid. -/
theorem KInv.unforked {km : Kmem} (h : KInv k) (hl : Ledger km k.roots k.held) (hs : SameSpaces k.km km k.roots)
    (hk' : k' = (k.setMem km).setTable (k.table.setNextpid (k.table.nextpid + 1))) :
    KInv k' ∧ k'.km = km ∧ k'.spaces = k.spaces.setNextpid (k.table.nextpid + 1) := by
  subst hk'
  obtain ⟨hinv, hsp⟩ := (h.nextpid (k.table.nextpid + 1)).keep
    ((k.setMem km).setTable (k.table.setNextpid (k.table.nextpid + 1))) rfl rfl hl hs
  exact ⟨hinv, rfl, hsp⟩

theorem Keeps.perm {roots' : List Nat} (h : Keeps s s' roots held) (hp : roots.Perm roots') :
    Keeps s s' roots' held := by
  have hviews : (Vm.views s.mem roots).Perm (Vm.views s.mem roots') := hp.map _
  refine ⟨h.kend, fun f hf => h.same f ?_⟩
  rw [owners_perm hviews (.refl held)]
  exact hf

/-- The three ways in which `fork` ends: there is no free slot, there is not enough memory and what was made is
given back, or the new process is there. The table of the parent may have been marked by a copy that failed. -/
theorem fork_meets {old : Nat} (h : KInv k) (hi : (k.table.proc i).state = .runnable)
    (hm : (k.table.proc i).mem = ⟨some old, some tf⟩) : Meets (fun _ => False) (fork i) k fun e k' =>
    (e = -1 ∧ k.table.unused = none ∧ k' = k) ∨ (e = -1 ∧ k.table.unused.isSome ∧ ∃ km,
        k' = (k.setMem km).setTable (k.table.setNextpid (k.table.nextpid + 1)) ∧
        Ledger km k.roots k.held ∧ SameSpaces k.km km k.roots ∧ Keeps k.km km (k.rootsBut i) k.held ∧
        Marked k.km.mem km.mem old ∧ k.km.exhausted < km.exhausted) ∨
      ∃ j new ntf km, e = k.table.nextpid ∧ k.table.unused = some j ∧
        k' = (k.setMem km).setTable ((k.table.setNextpid (k.table.nextpid + 1)).set j
          ⟨.runnable, k.table.nextpid, some i, 0, (k.table.proc i).sz, ⟨some new, some ntf⟩⟩) ∧
        Ledger km (new :: k.roots) (ntf :: k.held) ∧ SameSpaces k.km km k.roots ∧
        UserTable km.mem k.trampoline ntf new (k.table.proc i).sz ∧
        umem km.mem new = umem k.km.mem old ∧ km.exhausted = k.km.exhausted := by
  have hroots : k.roots.Perm (old :: k.rootsBut i) := by
    have hp := k.roots_perm i
    rw [hm] at hp
    exact hp
  have hmem : old ∈ k.roots := hroots.mem_iff.2 (.head _)
  rw [fork]
  refine (allocproc_meets h).bind ?_
  rintro _ k1 (⟨rfl, hun, rfl⟩ | ⟨rfl, hun, km, hk1, hl, hk, hex⟩ | ⟨j, new, ntf, km, rfl, hun, hk1, hl, hk, hnew, hex⟩)
  · exact .pure (.inl ⟨rfl, hun, rfl⟩)
  · exact .pure (.inr (.inl ⟨rfl, hun, km, hk1, hl, hk.sameSpaces,
      (hk.perm hroots).mono (List.sublist_cons_self ..) (.refl _), hk.marked hmem, hex⟩))
  have hfree := Kernel.free_slot h hun
  have hij : i ≠ j := by
    rintro rfl
    rw [hfree] at hi
    cases hi
  obtain ⟨old', tf', hm', hold, -⟩ := h.actor hi
  rw [hm] at hm'
  cases hm'
  have hpi : k1.table.proc i = k.table.proc i := by
    rw [hk1]
    exact ProcTable.set_of_ne _ hij _
  have hpj : k1.table.proc j = ⟨.used, k.table.nextpid, none, 0, 0, ⟨some new, some ntf⟩⟩ := by
    rw [hk1]
    exact ProcTable.set_self _ _ _
  refine .step (a := k.table.proc i) (t := k1) (by rw [← hpi]; rfl) (.step (t := k1)
    (a := ⟨.used, k.table.nextpid, none, 0, 0, ⟨some new, some ntf⟩⟩) (by rw [← hpj]; rfl) ?_)
  rw [hm, hk1]
  rw [hk1] at hpj
  -- the ledger with the two tables in front
  refine .step rfl (.step rfl (.bind (onMem_meets
    (uvmcopy_fork (hl.permRoots (hroots.cons new)) (hold.keep hk hmem) hnew)) ?_))
  rintro ret _ ⟨km2, rfl, hl2, hkeep2, hs2, hmark2, hcase⟩
  have hs0 : SameSpaces k.km km2 k.roots := hk.sameSpaces.trans (hs2.subset fun r hr => hroots.mem_iff.1 hr)
  rcases hcase with ⟨rfl, hex2, ht2, hum2⟩ | ⟨rfl, hex2, ht2⟩
  · rw [if_neg (by decide)]
    have hal := (hl2.frame (owners_pos_of_held (List.mem_cons_self (a := ntf) (l := k.held)))).1
    obtain ⟨hl3, hk3⟩ := hl2.writeHeld (m := sd64 (copy km2.mem ntf tf trapframeSize) (ntf + trapframeA0) 0#64)
      fun f hf hne => pageEq_trapframe km2.mem hal hf hne
    refine .step rfl (.step rfl (.step rfl (.step rfl (.step rfl (.pure ?_)))))
    refine .inr (.inr ⟨j, new, ntf, _, rfl, hun, ?_, hl3.permRoots (hroots.symm.cons new), ?_,
      ht2.keep hk3 (.head _), ?_, hex2.trans hex⟩)
    · simp only [Kernel.setTable_table, Kernel.setMem_setMem, Kernel.setTable_setMem,
        Kernel.setTable_setTable, ProcTable.set_set]
      rfl
    · exact hs0.trans (hk3.sameSpaces.subset fun r hr => .tail _ (hroots.mem_iff.1 hr))
    · rw [hk3.umem (.head _), hum2]
      exact hk.umem hmem
  · -- the new slot is freed, with the empty table that `uvmcopy` leaves
    rw [if_pos (by decide)]
    refine (freeproc_meets (R := old :: k.rootsBut i) (H := k.held) ?_ ?_).bind ?_
    · rw [Kernel.setMem_table, hpj]
      exact hl2
    · rw [Kernel.setMem_table, hpj]
      rintro r ⟨⟩
      exact ⟨ntf, ht2⟩
    rintro - _ ⟨km3, rfl, hl3, hk3, hex3⟩
    have hback : (k.table.setNextpid (k.table.nextpid + 1)).set j (Proc.free ⟨none, none⟩) =
        k.table.setNextpid (k.table.nextpid + 1) := by
      rw [← hfree]
      exact ProcTable.set_proc_self (k.table.setNextpid (k.table.nextpid + 1)) j
    refine .pure (.inr (.inl ⟨rfl, by rw [hun]; rfl, km3, ?_, hl3.permRoots hroots.symm, ?_, ?_, ?_, ?_⟩))
    · simp only [Kernel.setTable_table, Kernel.setMem_setMem, Kernel.setTable_setMem,
        Kernel.setTable_setTable, ProcTable.set_set, hback]
    · exact hs0.trans (hk3.sameSpaces.subset fun r hr => hroots.mem_iff.1 hr)
    · exact (((hk.perm hroots).mono (List.sublist_cons_self ..) (.refl _)).trans
        (hkeep2.mono (.refl _) (List.sublist_cons_self ..))).trans
        (hk3.mono (List.sublist_cons_self ..) (.refl _))
    · exact ((hk.marked hmem).trans hmark2).trans (hk3.marked (.head _))
    · rw [hex3, ← hex]
      exact hex2

theorem fork_step (h : KInv k) (hi : (k.table.proc i).state = .runnable) :
    Meets (fun _ => False) (Kernel.exec (.fork i)) k (StepOk (.fork i) k) := by
  obtain ⟨old, tf, hm, -, -⟩ := h.actor hi
  refine .map ((fork_meets h hi hm).weaken ?_)
  rintro e k' (⟨rfl, hun, rfl⟩ | ⟨rfl, hun, km, hk', hl, hs, -, -, hex⟩ | ⟨j, new, ntf, km, rfl, hun, hk', hl, hs, ht,
    hum, hex⟩)
  · refine .done h rfl ?_
    show Prod.map some id (Spaces.fork none i k'.spaces) = _
    unfold Spaces.fork
    rw [show k'.spaces.unused = none from hun]
    rfl
  · obtain ⟨hinv, hkm, hsp⟩ := h.unforked hl hs hk'
    obtain ⟨j, hj⟩ := Option.isSome_iff_exists.1 hun
    refine ⟨hinv, .inr ⟨by rw [hkm]; exact hex, (0, 0), ?_⟩⟩
    show Prod.map some id (Spaces.fork (some (0, 0)) i k.spaces) = _
    unfold Spaces.fork
    rw [show k.spaces.unused = some j from hj, hsp]
    rfl
  · obtain ⟨hinv, hkm, hsp⟩ := h.spawn (Kernel.free_slot h hun) hl hs ht hk'
    refine .done hinv (by rw [hkm]; exact hex) ?_
    show Prod.map some id (Spaces.fork none i k.spaces) = _
    unfold Spaces.fork
    rw [show k.spaces.unused = some j from hun, hsp, hum, Kernel.spaces_mem hm, k.spaces_sz i]
    rfl

end Fork

section Init

variable {k : Kernel}

theorem permOk_WX : PermOk (PTE_W ||| PTE_X) := by
  refine ⟨fun i hi => ?_, by decide⟩
  unfold PTE_W PTE_X
  rw [BitVec.getLsbD_or, getLsbD_flag (by decide), getLsbD_flag (by decide)]
  simp
  omega

/-- `uvmfirst`, when there is memory: the page with the first program. -/
theorem uvmfirst_meets {rs : List Nat} (h : Ledger s (r :: rs) held) (ht : UserTable s.mem trampoline tf r 0) :
    Meets (· = Panic.wild) (uvmfirst r initcode) s fun _ s' => s'.exhausted = s.exhausted →
      Ledger s' (r :: rs) held ∧ Keeps s s' rs held ∧ UserTable s'.mem trampoline tf r PGSIZE ∧
      umem s'.mem r = Spaces.initSpace := by
  rw [uvmfirst, if_neg (by decide)]
  refine .bind (kalloc_meets h) ?_
  rintro _ s1 (⟨rfl, rfl⟩ | ⟨page, rfl, hl1, hk1, hex1⟩)
  · exact .throw rfl
  have ht1 := ht.keep hk1 (.head _)
  have hpf := hl1.frame (owners_pos_of_held (List.mem_cons_self (a := page) (l := held)))
  obtain ⟨hlz, hkz⟩ := hl1.writeHeld (m := fill s1.mem page PGSIZE 0) fun f hf hne =>
    pageEq_fill s1.mem 0 hpf.1 hf hne
  obtain ⟨e, s3, hmap, -⟩ := (mappages_one_meets hlz).returns_if
    ⟨Nat.zero_mod PGSIZE, by decide, (ht1.keep hkz (.head _)).invalid _ (by decide)⟩
  refine .step rfl (.step hmap (.of_ok rfl fun hex => ?_))
  have hperm : PTE_W ||| PTE_R ||| PTE_X ||| PTE_U = PTE_R ||| PTE_U ||| (PTE_W ||| PTE_X) := by decide
  rw [hperm] at hmap
  rcases uvmalloc_page_spec hl1 permOk_WX hmap (Nat.zero_le _) ht1.guard with
    ⟨rfl, hl2, hk2, hp2, -, hex2⟩ | ⟨rfl, hv, hl2, hk2, -, hg, hpa, hex2⟩
  · -- memory that has run out shows
    have hex' : s3.exhausted = s.exhausted := hex
    omega
  · have hz : (0 : Nat) / PGSIZE = 0 := by decide
    rw [hz] at hv hg hpa
    obtain ⟨-, hdec, hcow⟩ := hg.added 0 (Nat.le_refl 0) (Nat.lt_succ_self 0)
    have hval : has (pte s3.mem r 0) PTE_V = true := by
      by_contra hno
      rw [decode_invalid _ (Bool.eq_false_of_not_eq_true hno)] at hdec
      cases hdec
    have hW : has (pte s3.mem r 0) PTE_W = true := by
      rw [decode, if_pos hval] at hdec
      injection hdec with hdec
      have hw : (has (pte s3.mem r 0) PTE_W || has (pte s3.mem r 0) PTE_COW) = true :=
        congrArg UPage.write hdec
      rwa [hcow, Bool.or_false] at hw
    have hwrite := hl2.writeUser hv hval (hl2.writable_alone hv hval hW).1 (show 0 + initcode.length ≤ PGSIZE by decide)
    rw [hpa, Nat.add_zero] at hwrite
    obtain ⟨hl4, hk4, hp4, hum4⟩ := hwrite
    have hgrow : umem s3.mem r = (umem s1.mem r).grow 0 1 (PTE_W ||| PTE_X) :=
      funext (hg.umem (by omega))
    have hum : umem (writeBytes s3.mem page initcode) r = Spaces.initSpace := by
      rw [hum4, hgrow]
      funext u
      unfold UMem.put Spaces.initSpace
      by_cases hu : u = 0
      · subst hu
        rw [Function.update_self]
        rfl
      · rw [Function.update_of_ne hu, if_neg hu, UMem.grow, if_neg (by omega)]
        exact ht1.pages.none u (by rw [show npages 0 = 0 by decide]; omega)
    refine ⟨hl4, ?_, ?_, hum⟩
    · exact ((hk1.mono (List.sublist_cons_self ..) (.refl _)).trans hk2).trans hk4
    · refine ht1.congr (by decide) ?_ fun u hu => ?_
      · have hpages := ht1.pages
        rw [show npages 0 = 0 by decide] at hpages
        rw [show npages PGSIZE = 1 by decide]
        rw [hum4, hgrow]
        exact (hpages.grow (by decide) _).put _ _ _
      · show pte (writeBytes s3.mem page initcode) r u = _
        rw [hp4]
        exact hg.entry u (by omega)

/-- The trapframe of the first process. -/
theorem pageEq_registers (m : Mem) {f : Nat} (v w : Pte) (ht : tf % PGSIZE = 0) (hf : f % PGSIZE = 0) (hne : f ≠ tf) :
    PageEq m (sd64 (sd64 m (tf + trapframeEpc) v) (tf + trapframeSp) w) f :=
  (pageEq_sd64 (i := 3) m v ht hf (by decide) hne).trans (pageEq_sd64 (i := 6) _ w ht hf (by decide) hne)

theorem userinit_step (h : KInv k) : Meets (· = Panic.wild) (Kernel.exec .userinit) k fun o k' =>
    k'.km.exhausted = k.km.exhausted → StepOk .userinit k o k' := by
  refine .bind (R := fun _ k' => k'.km.exhausted = k.km.exhausted → StepOk .userinit k none k') ?_
    fun _ _ h => .pure h
  rw [userinit]
  refine .bind ((allocproc_meets h).mono fun _ => False.elim) ?_
  rintro _ k1 (⟨rfl, -⟩ | ⟨rfl, -⟩ | ⟨j, r, tf, km, rfl, hun, hk1, hl, hk, hnew, hex1⟩)
  · exact .throw rfl
  · exact .throw rfl
  have hfree := Kernel.free_slot h hun
  have hpj : (k1.setTable (k1.table.setInitproc j)).table.proc j =
      ⟨.used, k.table.nextpid, none, 0, 0, ⟨some r, some tf⟩⟩ := by
    rw [hk1]
    exact ProcTable.set_self _ _ _
  refine .step (t := k1.setTable (k1.table.setInitproc j)) rfl (.step
    (a := ⟨.used, k.table.nextpid, none, 0, 0, ⟨some r, some tf⟩⟩) (by rw [← hpj]; rfl) ?_)
  rw [hk1]
  refine .step rfl (.step rfl (.bind (onMem_meets (uvmfirst_meets hl hnew)) ?_))
  rintro - _ ⟨km2, rfl, hfirst⟩
  refine .step rfl (.step rfl (.of_ok rfl fun hex => ?_))
  obtain ⟨hl2, hk2, ht2, hum2⟩ := hfirst (hex.trans hex1.symm)
  have hal := (hl2.frame (owners_pos_of_held (List.mem_cons_self (a := tf) (l := k.held)))).1
  obtain ⟨hl3, hk3⟩ := hl2.writeHeld (m := sd64 (sd64 km2.mem (tf + trapframeEpc) 0#64)
    (tf + trapframeSp) (BitVec.ofNat 64 PGSIZE)) fun f hf hne => pageEq_registers km2.mem _ _ hal hf hne
  have hs3 : SameSpaces k.km _ k.roots := hk.sameSpaces.trans (hk2.sameSpaces.trans
    (hk3.sameSpaces.subset fun r' hr' => .tail _ hr'))
  obtain ⟨k9, hk9⟩ : ∃ k9, k9 = (k.setMem { km2 with
      mem := sd64 (sd64 km2.mem (tf + trapframeEpc) 0#64) (tf + trapframeSp) (BitVec.ofNat 64 PGSIZE) }).setTable
      ((k.table.setNextpid (k.table.nextpid + 1)).set j
        ⟨.runnable, k.table.nextpid, none, 0, PGSIZE, ⟨some r, some tf⟩⟩) := ⟨_, rfl⟩
  obtain ⟨hinv, hkm, hsp⟩ := h.spawn hfree hl3 hs3 (ht2.keep hk3 (.head _)) hk9
  rw [hk3.umem (.head _), hum2] at hsp
  -- the first process is noted in `initproc`, which no slot depends on
  have hend : StepOk .userinit k none (k9.setTable (k9.table.setInitproc j)) := by
    refine .done (hinv.retable (fun _ => rfl) hinv.slot) (by rw [Kernel.setTable_km, hkm]; exact hex) ?_
    show (none, Spaces.userinit k.spaces) = _
    unfold Spaces.userinit
    rw [show k.spaces.unused = some j from hun]
    exact congrArg (fun t : Spaces => (none, t.setInitproc j)) hsp.symm
  convert hend using 1
  rw [hk9]
  simp only [Kernel.setTable_table, Kernel.setTable_setMem, Kernel.setTable_setTable,
    Kernel.setMem_setMem, ProcTable.setInitproc_set, ProcTable.set_set]
  rfl

end Init

end Xv6.Vm
