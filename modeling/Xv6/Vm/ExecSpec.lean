import Xv6.Vm.ReadSpec

/-!
# Replacing the image of a process

`exec` builds the image in a table of its own, which no other table shares pages with, so that it
may write to the pages of the program text. The image it commits to is the one that `UMem.image`
computes from the file and the arguments; until then the process's own address space is not touched,
and on every path that gives up the new table is given back whole.
-/

set_option autoImplicit false

namespace Xv6.Vm

open Xv6.Base

variable {m : Mem} {n : Nat}

section Load

variable {s s' : Kmem} {r : Nat} {rs held : List Nat}

theorem readiFile_length (file : List UInt8) (off n : Nat) : (readiFile file off n).length ≤ n := by
  unfold readiFile
  split_ifs
  · exact Nat.zero_le n
  · rw [List.length_take]
    exact Nat.min_le_left ..

/-- All pages below the page number `n` are the user's. -/
def UserPages (m : Mem) (r n : Nat) : Prop := ∀ u < n, UserEntry (pte m r u)

theorem userEntry_of_umem {u : Nat} {p : UPage} (hp : umem m r u = some p)
    (hu : p.user = true) : UserEntry (pte m r u) := by
  by_cases hlt : u < UPAGES
  · rw [umem_of_lt _ _ hlt, decode] at hp
    split_ifs at hp with hv
    cases hp
    exact ⟨hv, hu⟩
  · rw [umem, if_neg hlt] at hp
    cases hp

theorem UserPages.grow {m' : Mem} {n' : Nat} {xperm : Pte} (h : UserPages m r n)
    (hn : n ≤ UPAGES) (hum : umem m' r = (umem m r).grow n n' xperm) : UserPages m' r n' := by
  intro u hu
  have hval := congrFun hum u
  unfold UMem.grow at hval
  split_ifs at hval with hin
  · exact userEntry_of_umem hval rfl
  · obtain ⟨p, hp, hpu, -⟩ := userEntry_umem (by omega) (h u (by omega))
    rw [hp] at hval
    exact userEntry_of_umem hval hpu

/-- `loadseg` writes the contents of the file to pages that no other table shares. The pages of a segment
inside the user area are there when it looks for them. -/
theorem loadsegLoop_meets {trampoline tf size va offset sz n i : Nat} {file : List UInt8}
    (h : Ledger s (r :: rs) held) (ht : UserTable s.mem trampoline tf r size) (hun : Unshared s r rs held)
    (huser : UserPages s.mem r (npages size)) (hfits : va + sz ≤ size) (hin : ∀ k < n, i + k * PGSIZE < sz) :
    Meets (fun _ => False) (loadsegLoop r va file offset sz n i) s fun ok s' =>
      Ledger s' (r :: rs) held ∧ Keeps s s' rs held ∧ pte s'.mem r = pte s.mem r ∧ s'.exhausted = s.exhausted ∧
      UMem.loadseg va file offset sz n i (umem s.mem r) = (ok, umem s'.mem r) := by
  induction n generalizing i s with
  | zero => exact .pure ⟨h, .refl _ _ _, rfl, rfl, rfl⟩
  | succ n ih =>
    have hi : i < sz := by
      have := hin 0 (Nat.succ_pos n)
      omega
    have hsmall := ht.small
    have hwrap : (va + i) % 2 ^ 64 = va + i := Nat.mod_eq_of_lt (by omega)
    have hpage : (va + i) / PGSIZE < npages size := by
      have := ht.fits
      unfold npages PGROUNDUP at *
      unfold PGSIZE at *
      omega
    have hv := hpage.trans_le ht.npages_le
    have hu := huser _ hpage
    obtain ⟨pa, hwa, hfound, -⟩ := walkaddr_ok r (va + i) s
    have hpa := hfound (lt_MAXVA_of_page hv) hu
    rw [loadsegLoop, UMem.loadseg, hwrap]
    refine .step hwa ?_
    rw [if_neg (by rw [hpa]; exact h.page_ne_zero hv hu.1)]
    have hlen : 0 + (readiFile file ((offset + i) % 2 ^ 32) (min (sz - i) PGSIZE)).length ≤
        PGSIZE := by
      have h1 := readiFile_length file ((offset + i) % 2 ^ 32) (min (sz - i) PGSIZE)
      omega
    obtain ⟨hl2, hk2, hp2, hum2⟩ := h.writeUser hv hu.1 (hun _ hv hu.1) hlen
    rw [Nat.add_zero, ← hpa] at hl2 hk2 hp2 hum2
    simp only [← hum2]
    refine .step rfl ?_
    split_ifs with hshort
    · exact .pure ⟨hl2, hk2, hp2, rfl, rfl⟩
    refine (ih hl2 (ht.of_pte hp2) (hun.congr hk2 hp2) (fun u hlt => ?_) fun k hk => ?_).weaken ?_
    · show UserEntry (pte (writeBytes s.mem pa _) r u)
      rw [hp2]
      exact huser u hlt
    · have := hin (k + 1) (by omega)
      rw [Nat.add_mul, Nat.one_mul] at this
      omega
    · rintro ok s' ⟨hl, hk, hp, hex, hload⟩
      exact ⟨hl, hk2.trans hk, hp.trans hp2, hex, hload⟩

theorem loadseg_meets {trampoline tf size va offset sz : Nat} {file : List UInt8}
    (h : Ledger s (r :: rs) held) (ht : UserTable s.mem trampoline tf r size) (hun : Unshared s r rs held)
    (huser : UserPages s.mem r (npages size)) (hfits : va + sz ≤ size) :
    Meets (fun _ => False) (loadseg r va file offset sz) s fun ok s' =>
      Ledger s' (r :: rs) held ∧ Keeps s s' rs held ∧ pte s'.mem r = pte s.mem r ∧ s'.exhausted = s.exhausted ∧
      UMem.loadseg va file (offset % 2 ^ 32) (sz % 2 ^ 32) ((sz % 2 ^ 32 + PGSIZE - 1) / PGSIZE) 0
        (umem s.mem r) = (ok, umem s'.mem r) := by
  rw [loadseg]
  refine loadsegLoop_meets h ht hun huser (by omega) fun k hk => ?_
  unfold PGSIZE at *
  omega

/-- A segment that passes the checks of `exec` does not wrap around. -/
theorem Proghdr.loadable_fits {ph : Proghdr} (h : ph.loadable = true) (hva : ph.vaddr < 2 ^ 64)
    (hmem : ph.memsz < 2 ^ 64) : ph.vaddr + ph.filesz ≤ (ph.vaddr + ph.memsz) % 2 ^ 64 := by
  unfold Proghdr.loadable at h
  simp only [Bool.and_eq_true, Bool.not_eq_true', decide_eq_false_iff_not] at h
  omega

theorem Proghdr.parse_lt (hdr : List UInt8) : (Proghdr.parse hdr).vaddr < 2 ^ 64 ∧ (Proghdr.parse hdr).memsz < 2 ^ 64 :=
  ⟨(loadLE_lt (fun i => hdr.getD i 0) 8 16).trans_eq (by norm_num),
    (loadLE_lt (fun i => hdr.getD i 0) 8 40).trans_eq (by norm_num)⟩

theorem permOk_flags2perm (flags : Nat) : PermOk (flags2perm flags) := by
  have hbits : ∀ i, i ≠ 2 → i ≠ 3 → (flags2perm flags).getLsbD i = false := by
    intro i h2 h3
    unfold flags2perm PTE_X PTE_W
    rw [BitVec.getLsbD_or]
    split_ifs
    · rw [getLsbD_flag (by decide), getLsbD_flag (by decide)]
      simp [h2.symm, h3.symm]
    · rw [getLsbD_flag (by decide)]
      simp [h3.symm]
    · rw [getLsbD_flag (by decide)]
      simp [h2.symm]
    · simp
  refine ⟨fun i hi => hbits i (by omega) (by omega), ?_⟩
  rw [has_COW]
  exact hbits 8 (by decide) (by decide)

theorem permOk_PTE_W : PermOk PTE_W := by
  refine ⟨fun i hi => ?_, by decide⟩
  rw [PTE_W, getLsbD_flag (by decide)]
  simp
  omega

/-- The loop of `exec` over the program headers, for any contents of the file. -/
theorem loadSegments_meets {trampoline trapframe n off sz : Nat} {file : List UInt8}
    (h : Ledger s (r :: rs) held) (ht : UserTable s.mem trampoline trapframe r sz)
    (hun : Unshared s r rs held) (huser : UserPages s.mem r (npages sz)) :
    Meets (fun _ => False) (loadSegments r file n off sz) s fun ret s' =>
      Ledger s' (r :: rs) held ∧ Keeps s s' rs held ∧ UserTable s'.mem trampoline trapframe r ret.2 ∧
      ((ret.1 = false ∧ s.exhausted < s'.exhausted) ∨
        (s'.exhausted = s.exhausted ∧ UMem.loadSegments file n off sz (umem s.mem r) =
          if ret.1 then some (ret.2, umem s'.mem r) else none)) := by
  induction n generalizing off sz s with
  | zero => exact .pure ⟨h, .refl _ _ _, ht, .inr ⟨rfl, rfl⟩⟩
  | succ n ih =>
    rw [loadSegments, UMem.loadSegments]
    simp only
    by_cases hshort : (readiFile file off proghdrSize).length ≠ proghdrSize
    · rw [if_pos hshort, if_pos hshort]
      exact .pure ⟨h, .refl _ _ _, ht, .inr ⟨rfl, rfl⟩⟩
    rw [if_neg hshort, if_neg hshort]
    by_cases htype : (Proghdr.parse (readiFile file off proghdrSize)).type ≠ ELF_PROG_LOAD
    · rw [if_pos htype, if_pos htype]
      exact ih h ht hun huser
    rw [if_neg htype, if_neg htype]
    by_cases hbad : (!(Proghdr.parse (readiFile file off proghdrSize)).loadable) = true
    · rw [if_pos hbad, if_pos hbad]
      exact .pure ⟨h, .refl _ _ _, ht, .inr ⟨rfl, rfl⟩⟩
    rw [if_neg hbad, if_neg hbad]
    obtain ⟨hva, hmem⟩ := Proghdr.parse_lt (readiFile file off proghdrSize)
    generalize Proghdr.parse (readiFile file off proghdrSize) = ph at hbad hva hmem ⊢
    have hfits := Proghdr.loadable_fits (by simpa using hbad) hva hmem
    refine (uvmalloc_meets _ h ht (permOk_flags2perm _)).bind ?_
    rintro sz1 s1 ⟨hl1, hk1, hun1, ⟨rfl, hex1, ht1, hum1, -⟩ | ⟨rfl, hex1, ht1, -⟩⟩
    · by_cases hzero : max sz ((ph.vaddr + ph.memsz) % 2 ^ 64) = 0
      · rw [if_pos hzero, if_pos hzero]
        have hsz : sz = 0 := by omega
        rw [hzero] at ht1
        exact .pure ⟨hl1, hk1, hsz ▸ ht1, .inr ⟨hex1, rfl⟩⟩
      rw [if_neg hzero, if_neg hzero]
      have huser1 := huser.grow ht.npages_le hum1
      refine (loadseg_meets hl1 ht1 (hun1 hun) huser1 (hfits.trans (Nat.le_max_right ..))).bind ?_
      rintro ok s2 ⟨hl2, hk2, hp2, hex2, hval2⟩
      rw [← hum1, hval2]
      cases ok with
      | false => exact .pure ⟨hl2, hk1.trans hk2, ht1.of_pte hp2, .inr ⟨hex2.trans hex1, rfl⟩⟩
      | true =>
        rw [if_neg (by decide)]
        refine (ih hl2 (ht1.of_pte hp2) ((hun1 hun).congr hk2 hp2) fun u hu => ?_).weaken ?_
        · rw [hp2]
          exact huser1 u hu
        rintro ret s' ⟨hl, hk, ht', hcase⟩
        refine ⟨hl, (hk1.trans hk2).trans hk, ht', ?_⟩
        rcases hcase with ⟨hfalse, hex⟩ | ⟨hex, hrest⟩
        · exact .inl ⟨hfalse, by omega⟩
        · exact .inr ⟨by omega, hrest⟩
    · rw [if_pos rfl]
      exact .pure ⟨hl1, hk1, ht1, .inl ⟨rfl, hex1⟩⟩

end Load

/-! ## The stack -/

theorem pushed_le {sp : Nat} (hn : n ≤ sp) (hsp : sp < 2 ^ 64) : pushed sp n + n ≤ sp := by
  unfold pushed
  omega

section Stack

variable {s s' : Kmem} {r : Nat} {rs held : List Nat}

/-- The page `v` of the table at `r` is one that the process may write at once. -/
def StackPage (m : Mem) (r v : Nat) : Prop :=
  v < UPAGES ∧ 0 < v ∧ UserEntry (pte m r v) ∧ has (pte m r v) PTE_W = true

/-- What is pushed lies in the stack page. -/
theorem push_page {v sp n : Nat} (hv : v < UPAGES) (hpos : 0 < v) (hsp : sp ≤ (v + 1) * PGSIZE)
    (hlo : v * PGSIZE ≤ sp) (hne : n ≠ 0) (hlen : n ≤ PGSIZE) (hge : v * PGSIZE ≤ pushed sp n) :
    pushed sp n ≤ sp ∧ pushed sp n / PGSIZE = v ∧ pushed sp n % PGSIZE + n ≤ PGSIZE := by
  have hUP : UPAGES < 2 ^ 27 := UPAGES_lt
  have hle : pushed sp n + n ≤ sp := by
    apply pushed_le
    · unfold PGSIZE at *
      omega
    · unfold PGSIZE at *
      omega
  unfold PGSIZE at *
  omega

/-- One push on the stack. -/
theorem push_meets (cur : Nat) (bs : List UInt8) {v sp : Nat} (h : Ledger s (r :: rs) held)
    (hp : StackPage s.mem r v) (hsp : sp ≤ (v + 1) * PGSIZE) (hlo : v * PGSIZE ≤ sp)
    (hne : bs.length ≠ 0) (hlen : bs.length ≤ PGSIZE) (hge : v * PGSIZE ≤ pushed sp bs.length) :
    Meets (fun _ => False) (copyout cur r (pushed sp bs.length) bs) s fun ret s' =>
      ret = 0 ∧ Ledger s' (r :: rs) held ∧ Keeps s s' rs held ∧ pte s'.mem r = pte s.mem r ∧
      umem s'.mem r = (umem s.mem r).put (pushed sp bs.length / PGSIZE) (pushed sp bs.length % PGSIZE) bs ∧
      s'.exhausted = s.exhausted ∧ pushed sp bs.length ≤ sp := by
  obtain ⟨hv, hpos, hu, hW⟩ := hp
  obtain ⟨hle, hpage, hfit⟩ := push_page hv hpos hsp hlo hne hlen hge
  refine (copyout_page_meets h (by rw [hpage]; exact hv) (by rw [hpage]; exact hu)
    (by rw [hpage]; exact hW) hne hfit).weaken ?_
  rintro ret s' ⟨hret, hl, hk, hpte, hum, hex⟩
  exact ⟨hret, hl, hk, hpte, hum, hex, hle⟩

theorem StackPage.of_pte {m m' : Mem} {v : Nat} (h : StackPage m r v) (hp : pte m' r = pte m r) : StackPage m' r v := by
  unfold StackPage
  rw [hp]
  exact h

/-- The argument strings. -/
theorem pushArgs_meets {cur v sp : Nat} {argv : List (List UInt8)} {ustack : List Nat}
    (h : Ledger s (r :: rs) held) (hp : StackPage s.mem r v) (hsp : sp ≤ (v + 1) * PGSIZE)
    (hlo : v * PGSIZE ≤ sp) (hshort : ∀ a ∈ argv, a.length < PGSIZE) (husz : ustack.length ≤ MAXARG) :
    Meets (fun _ => False) (pushArgs cur r (v * PGSIZE) argv sp ustack) s fun o s' =>
      Ledger s' (r :: rs) held ∧ Keeps s s' rs held ∧ pte s'.mem r = pte s.mem r ∧ s'.exhausted = s.exhausted ∧
      UMem.pushArgs (v * PGSIZE) argv sp ustack (umem s.mem r) = o.map (fun p => (p.1, p.2, umem s'.mem r)) ∧
      ∀ p, o = some p → p.1 ≤ (v + 1) * PGSIZE ∧ v * PGSIZE ≤ p.1 ∧ p.2.length ≤ MAXARG := by
  induction argv generalizing sp ustack s with
  | nil =>
    refine .pure ⟨h, .refl _ _ _, rfl, rfl, rfl, fun p hpe => ?_⟩
    cases hpe
    exact ⟨hsp, hlo, husz⟩
  | cons arg rest ih =>
    rw [pushArgs, UMem.pushArgs]
    by_cases hmany : MAXARG ≤ ustack.length
    · rw [if_pos hmany, if_pos hmany]
      exact .pure ⟨h, .refl _ _ _, rfl, rfl, rfl, fun p hpe => by cases hpe⟩
    rw [if_neg hmany, if_neg hmany]
    by_cases hfull : pushed sp (arg.length + 1) < v * PGSIZE
    · rw [if_pos hfull, if_pos hfull]
      exact .pure ⟨h, .refl _ _ _, rfl, rfl, rfl, fun p hpe => by cases hpe⟩
    rw [if_neg hfull, if_neg hfull]
    have hlen : (arg ++ [0]).length = arg.length + 1 := by simp
    have harg := hshort arg (.head _)
    have hpush := push_meets cur (arg ++ [0]) h hp hsp hlo (by omega) (by omega) (by rw [hlen]; omega)
    rw [hlen] at hpush
    refine hpush.bind ?_
    rintro e s1 ⟨rfl, hl1, hk1, hp1, hum1, hex1, hle1⟩
    rw [if_neg (by decide)]
    refine (ih hl1 (hp.of_pte hp1) (by omega) (by omega) (fun a ha => hshort a (.tail _ ha)) (by
        rw [List.length_append, List.length_singleton]
        omega)).weaken ?_
    rintro o s' ⟨hl, hk, hpe, hex, hval, hend⟩
    rw [hum1] at hval
    exact ⟨hl, hk1.trans hk, hpe.trans hp1, hex.trans hex1, hval, hend⟩

theorem ustackBytes_length (ustack : List Nat) : (ustackBytes ustack).length = (ustack.length + 1) * 8 := by
  have hw : ∀ w, (wordBytes w).length = 8 := fun w => by simp [wordBytes]
  simp [ustackBytes, List.length_flatMap, hw, Nat.add_mul]

/-- The stack of a new image. -/
theorem pushStack_meets {cur v : Nat} {argv : List (List UInt8)} (h : Ledger s (r :: rs) held)
    (hp : StackPage s.mem r v) (hshort : ∀ a ∈ argv, a.length < PGSIZE) :
    Meets (fun _ => False) (pushStack cur r ((v + 1) * PGSIZE) argv) s fun o s' =>
      Ledger s' (r :: rs) held ∧ Keeps s s' rs held ∧ pte s'.mem r = pte s.mem r ∧ s'.exhausted = s.exhausted ∧
      UMem.pushStack ((v + 1) * PGSIZE) argv (umem s.mem r) = o.map (fun p => (p.1, p.2, umem s'.mem r)) := by
  have hbase : (v + 1) * PGSIZE - PGSIZE = v * PGSIZE := by
    rw [Nat.add_mul, Nat.one_mul, Nat.add_sub_cancel]
  rw [pushStack, UMem.pushStack, hbase]
  refine (pushArgs_meets h hp (Nat.le_refl _) (Nat.mul_le_mul_right _ (Nat.le_succ v)) hshort (Nat.zero_le _)).bind ?_
  rintro o1 s1 ⟨hl1, hk1, hp1, hex1, hval1, hend1⟩
  rw [hval1]
  cases o1 with
  | none => exact .pure ⟨hl1, hk1, hp1, hex1, rfl⟩
  | some p =>
    obtain ⟨sp, ustack⟩ := p
    obtain ⟨hsp, hlo, hlen⟩ := hend1 _ rfl
    simp only [Option.map_some] at hsp hlo hlen ⊢
    split_ifs with hfull
    · exact .pure ⟨hl1, hk1, hp1, hex1, rfl⟩
    · have hbytes := ustackBytes_length ustack
      have hMA : MAXARG = 32 := rfl
      have hPG : PGSIZE = 4096 := rfl
      have hpush := push_meets cur (ustackBytes ustack) hl1 (hp.of_pte hp1) hsp hlo
        (by omega) (by omega) (by rw [hbytes]; omega)
      rw [hbytes] at hpush
      refine hpush.bind ?_
      rintro e s2 ⟨rfl, hl2, hk2, hp2, hum2, hex2, -⟩
      rw [if_neg (by decide)]
      refine .pure ⟨hl2, hk1.trans hk2, hp2.trans hp1, hex2.trans hex1, ?_⟩
      rw [Option.map_some, hum2]

end Stack

/-! ## The image -/

section Image

variable {s s' : Kmem} {r : Nat} {rs held : List Nat}

/-- A page that `uvmalloc` added for writing is one that the process may write at once. -/
theorem stackPage_of_zeroPage {v : Nat} (hv : v < UPAGES) (hpos : 0 < v)
    (hum : umem m r v = some (zeroPage PTE_W)) (hcow : has (pte m r v) PTE_COW = false) : StackPage m r v := by
  rw [umem_of_lt _ _ hv] at hum
  unfold decode at hum
  split_ifs at hum with hval
  injection hum with hum
  have hU : has (pte m r v) PTE_U = true := congrArg UPage.user hum
  have hW : (has (pte m r v) PTE_W || has (pte m r v) PTE_COW) = true := congrArg UPage.write hum
  rw [hcow, Bool.or_false] at hW
  exact ⟨hv, hpos, ⟨hval, hU⟩, hW⟩

/-- The stack of a new image: a guard page and a stack page follow the segments. -/
theorem stackPages_meets {trampoline trapframe sz : Nat} (h : Ledger s (r :: rs) held)
    (ht : UserTable s.mem trampoline trapframe r sz) :
    Meets (fun _ => False) (uvmalloc r (PGROUNDUP sz) ((PGROUNDUP sz + 2 * PGSIZE) % 2 ^ 64) PTE_W) s
      fun sz1 s' => Ledger s' (r :: rs) held ∧ Keeps s s' rs held ∧
      ((sz1 = (npages sz + 1 + 1) * PGSIZE ∧ s'.exhausted = s.exhausted ∧
          UserTable s'.mem trampoline trapframe r sz1 ∧ npages sz1 = npages sz + 2 ∧
          umem s'.mem r = (umem s.mem r).grow (npages sz) (npages sz + 2) PTE_W ∧
          has (pte s'.mem r (npages sz + 1)) PTE_COW = false) ∨ (sz1 = 0 ∧ s.exhausted < s'.exhausted ∧
          UserTable s'.mem trampoline trapframe r (PGROUNDUP sz))) := by
  obtain ⟨hround, hroundle⟩ := PGROUNDUP_eq ht.fits
  have eTF : TRAPFRAME = 274877898752 := by decide
  have ePG : PGSIZE = 4096 := rfl
  have hnowrap : (PGROUNDUP sz + 2 * PGSIZE) % 2 ^ 64 = PGROUNDUP sz + 2 * PGSIZE :=
    Nat.mod_eq_of_lt (by omega)
  have hmax : max (PGROUNDUP sz) (PGROUNDUP sz + 2 * PGSIZE) = PGROUNDUP sz + 2 * PGSIZE :=
    Nat.max_eq_right (by omega)
  have hsz1 : PGROUNDUP sz + 2 * PGSIZE = (npages sz + 1 + 1) * PGSIZE := by
    rw [hround]
    ring
  have hn1 : npages ((npages sz + 1 + 1) * PGSIZE) = npages sz + 2 := by
    rw [npages_of_aligned (Nat.mul_mod_left ..) (by omega), Nat.mul_div_cancel _ (by decide)]
  rw [hnowrap]
  refine (uvmalloc_meets _ h ht.roundUp permOk_PTE_W).weaken ?_
  rintro sz1 s' ⟨hl, hk, -, hcase⟩
  rw [hmax, npages_PGROUNDUP ht.fits, hsz1, hn1] at hcase
  refine ⟨hl, hk, ?_⟩
  rcases hcase with ⟨rfl, hex, ht', hum, hcow⟩ | ⟨rfl, hex, ht', -⟩
  · exact .inl ⟨rfl, hex, ht', hn1, hum, hcow _ (by omega) (by omega)⟩
  · exact .inr ⟨rfl, hex, ht'⟩

variable {trampoline trapframe : Nat}

/-- `uvmclear` makes the first of the two pages the guard page. -/
theorem guardPage_meets {sz1 : Nat} {M : UMem} (h : Ledger s (r :: rs) held)
    (ht : UserTable s.mem trampoline trapframe r sz1) (hsz1 : sz1 = (n + 1 + 1) * PGSIZE)
    (hn1 : npages sz1 = n + 2) (hum : umem s.mem r = M.grow n (n + 2) PTE_W)
    (hcow : has (pte s.mem r (n + 1)) PTE_COW = false) :
    Meets (fun _ => False) (uvmclear r (sz1 - 2 * PGSIZE)) s fun _ s' => Ledger s' (r :: rs) held ∧
      Keeps s s' rs held ∧ s'.exhausted = s.exhausted ∧
      UserTable s'.mem trampoline trapframe r sz1 ∧ StackPage s'.mem r (n + 1) ∧
      umem s'.mem r = (M.grow n (n + 2) PTE_W).guard n := by
  have hguard : (sz1 - 2 * PGSIZE) / PGSIZE = n := by
    rw [hsz1, show (n + 1 + 1) * PGSIZE = n * PGSIZE + 2 * PGSIZE by ring, Nat.add_sub_cancel,
      Nat.mul_div_cancel _ (by decide)]
  have hup := ht.npages_le
  have hne : n + 1 ≠ n := by omega
  obtain ⟨p, hp, hread⟩ := ht.pages.some n (by omega)
  refine (uvmclear_meets h (by rw [hguard]; omega) (by
    rw [hguard]
    exact (leafEntry_of_page hp hread).1)).weaken ?_
  rintro - s' ⟨hl, hk, hp, hum', hex⟩
  rw [hguard] at hp hum'
  refine ⟨hl, hk, hex, ht.congr ht.fits ?_ fun u hu => hp u (by omega), ?_, ?_⟩
  · rw [hum']
    exact ht.pages.modify _ fun _ => rfl
  · refine stackPage_of_zeroPage (by omega) (by omega) ?_ ?_
    · rw [hum', Function.update_of_ne hne, hum]
      exact if_pos (by omega)
    · rw [hp _ hne]
      exact hcow
  · rw [hum', hum]
    rfl

/-- The image that `exec` builds in a fresh table, for any contents of the file. -/
theorem buildImage_meets {trampoline trapframe cur : Nat} {file : List UInt8} {argv : List (List UInt8)}
    (h : Ledger s (r :: rs) held) (ht : UserTable s.mem trampoline trapframe r 0)
    (hshort : ∀ a ∈ argv, a.length < PGSIZE) : Meets (fun _ => False) (buildImage cur r file argv) s fun ret s' =>
      Ledger s' (r :: rs) held ∧ Keeps s s' rs held ∧ UserTable s'.mem trampoline trapframe r ret.1 ∧
      ((ret.2 = none ∧ s.exhausted < s'.exhausted) ∨ (s'.exhausted = s.exhausted ∧ UMem.buildImage file argv =
          ret.2.map fun p => (ret.1, p.1, p.2, umem s'.mem r))) := by
  have hempty : umem s.mem r = fun _ => none := funext fun u => ht.pages.none u (Nat.zero_le u)
  have hun : Unshared s r rs held := by
    intro v hv hval
    have hnone := (umem_eq_none_iff hv).1 (ht.pages.none v (Nat.zero_le v))
    rw [hval] at hnone
    cases hnone
  rw [buildImage, UMem.buildImage]
  refine (loadSegments_meets h ht hun fun u hu => by cases hu).bind ?_
  rintro ⟨ok, sz⟩ s1 ⟨hl1, hk1, ht1, hcase1⟩
  rw [hempty] at hcase1
  simp only at ht1 hcase1 ⊢
  cases ok with
  | false =>
    rw [if_pos (by rfl)]
    refine .pure ⟨hl1, hk1, ht1, ?_⟩
    rcases hcase1 with ⟨-, hex⟩ | ⟨hex, hseg⟩
    · exact .inl ⟨rfl, hex⟩
    · refine .inr ⟨hex, ?_⟩
      rw [hseg]
      rfl
  | true =>
    rw [if_neg (by decide)]
    rcases hcase1 with ⟨hfalse, -⟩ | ⟨hex1, hseg⟩
    · cases hfalse
    rw [if_pos rfl] at hseg
    rw [hseg]
    simp only
    refine (stackPages_meets hl1 ht1).bind ?_
    rintro sz1 s2 ⟨hl2, hk2, ⟨hsz1, hex2, ht2, hn1, hum2, hcow2⟩ | ⟨rfl, hex2, ht2⟩⟩
    · have hpos : 0 < PGSIZE := by decide
      rw [if_neg (by rw [hsz1]; exact Nat.mul_ne_zero (Nat.succ_ne_zero _) hpos.ne')]
      refine (guardPage_meets hl2 ht2 hsz1 hn1 hum2 hcow2).bind ?_
      rintro - s3 ⟨hl3, hk3, hex3, ht3, hstack, hM⟩
      rw [hsz1]
      refine (pushStack_meets hl3 hstack hshort).bind ?_
      rintro o s4 ⟨hl4, hk4, hp4, hex4, hval4⟩
      rw [← hsz1]
      refine .pure ⟨hl4, ((hk1.trans hk2).trans hk3).trans hk4, ht3.of_pte hp4, .inr ⟨by omega, ?_⟩⟩
      have hsz : PGROUNDUP sz + 2 * PGSIZE = sz1 := by
        rw [hsz1, (PGROUNDUP_eq ht1.fits).1]
        ring
      have hguard : (PGROUNDUP sz + 2 * PGSIZE) / PGSIZE - 2 = npages sz := by
        rw [hsz, hsz1, Nat.mul_div_cancel _ hpos]
        omega
      rw [hguard, hsz, hn1, ← hM, hsz1, hval4, Option.map_map]
      rfl
    · rw [if_pos rfl]
      exact .pure ⟨hl2, hk1.trans hk2, ht2, .inl ⟨rfl, by omega⟩⟩

/-- `exec` sets registers in the trapframe page, which the kernel holds. -/
theorem setRegisters_spec {roots : List Nat} {tf : Nat} (h : Ledger s roots (tf :: held)) (sp entry : Pte)
    (hm : m = sd64 (sd64 (sd64 s.mem (tf + trapframeA1) sp) (tf + trapframeEpc) entry) (tf + trapframeSp) sp) :
    Ledger { s with mem := m } roots (tf :: held) ∧ Keeps s { s with mem := m } roots held := by
  have htf := (h.frame (owners_pos_of_held (.head _))).1
  subst hm
  exact h.writeHeld fun f hf hne =>
    ((pageEq_sd64 (i := 15) s.mem sp htf hf (by decide) hne).trans
      (pageEq_sd64 (i := 3) _ entry htf hf (by decide) hne)).trans
      (pageEq_sd64 (i := 6) _ sp htf hf (by decide) hne)

/-- The registers `a1` and `sp` of the trapframe hold the stack pointer. -/
def StackRegisters (m : Mem) (tf sp : Nat) : Prop :=
  ld64 m (tf + trapframeA1) = BitVec.ofNat 64 sp ∧ ld64 m (tf + trapframeSp) = BitVec.ofNat 64 sp

theorem StackRegisters.congr {m' : Mem} {tf sp : Nat} (h : StackRegisters m tf sp)
    (he : PageEq m m' tf) : StackRegisters m' tf sp :=
  ⟨(ld64_congr (i := 15) he (by decide)).trans h.1, (ld64_congr (i := 6) he (by decide)).trans h.2⟩

theorem stackRegisters_sd64 (m : Mem) (tf sp : Nat) (entry : Pte) :
    StackRegisters (sd64 (sd64 (sd64 m (tf + trapframeA1) (BitVec.ofNat 64 sp)) (tf + trapframeEpc) entry)
      (tf + trapframeSp) (BitVec.ofNat 64 sp)) tf sp := by
  refine ⟨?_, ld64_sd64 ..⟩
  rw [ld64_sd64_ne _ _ (by unfold trapframeSp trapframeA1; omega),
    ld64_sd64_ne _ _ (by unfold trapframeEpc trapframeA1; omega), ld64_sd64]

/-- `exec` either leaves everything as it is, or replaces the table of the process by one that shows
the image of the file. -/
theorem exec_meets {cur oldsz : Nat} {file : Option (List UInt8)}
    {argv : List (List UInt8)} (h : Ledger s (cur :: rs) (trapframe :: held))
    (ht : UserTable s.mem trampoline trapframe cur oldsz) (hfew : rs.length + 1 < 2 * NPROC)
    (hshort : ∀ a ∈ argv, a.length < PGSIZE) :
    Meets (fun _ => False) (exec trampoline trapframe cur oldsz file argv) s fun o s' =>
      (o = none ∧ Ledger s' (cur :: rs) (trapframe :: held) ∧ Keeps s s' (cur :: rs) (trapframe :: held) ∧
        (s.exhausted < s'.exhausted ∨ (s'.exhausted = s.exhausted ∧ UMem.image file argv = none))) ∨
      ∃ argc new sz sp, o = some (argc, new, sz) ∧ Ledger s' (new :: rs) (trapframe :: held) ∧
        Keeps s s' rs held ∧ UserTable s'.mem trampoline trapframe new sz ∧ s'.exhausted = s.exhausted ∧
        UMem.image file argv = some (sz, argc, sp, umem s'.mem new) ∧ StackRegisters s'.mem trapframe sp := by
  unfold exec UMem.image
  cases file with
  | none => exact .pure (.inl ⟨rfl, h, .refl _ _ _, .inr ⟨rfl, rfl⟩⟩)
  | some file =>
    simp only
    by_cases hhdr : (readiFile file 0 elfhdrSize).length ≠ elfhdrSize
    · rw [if_pos hhdr, if_pos hhdr]
      exact .pure (.inl ⟨rfl, h, .refl _ _ _, .inr ⟨rfl, rfl⟩⟩)
    rw [if_neg hhdr, if_neg hhdr]
    by_cases hmagic : (Elfhdr.parse (readiFile file 0 elfhdrSize)).magic ≠ ELF_MAGIC
    · rw [if_pos hmagic, if_pos hmagic]
      exact .pure (.inl ⟨rfl, h, .refl _ _ _, .inr ⟨rfl, rfl⟩⟩)
    rw [if_neg hmagic, if_neg hmagic]
    refine (procPagetable_meets h hfew).bind ?_
    rintro o1 s1 (⟨rfl, hl1, hk1, hex1⟩ | ⟨new, rfl, hl1, hk1, ht1, hex1⟩)
    · exact .pure (.inl ⟨rfl, hl1, hk1, .inl hex1⟩)
    refine (buildImage_meets hl1 ht1 hshort).bind ?_
    rintro ⟨sz, stack⟩ s2 ⟨hl2, hk2, ht2, hcase2⟩
    cases stack with
    | none =>
      refine (procFreepagetable_meets hl2 ht2).bind ?_
      rintro - s3 ⟨hl3, hk3, hex3⟩
      refine .pure (.inl ⟨rfl, hl3, (hk1.trans hk2).trans hk3, ?_⟩)
      rcases hcase2 with ⟨-, hex2⟩ | ⟨hex2, hval⟩
      · exact .inl (by omega)
      · exact .inr ⟨by omega, hval⟩
    | some p =>
      obtain ⟨argc, sp⟩ := p
      rcases hcase2 with ⟨hnone, -⟩ | ⟨hex2, hval⟩
      · cases hnone
      obtain ⟨hl5, hk5⟩ := setRegisters_spec hl2 (BitVec.ofNat 64 sp)
        (BitVec.ofNat 64 (Elfhdr.parse (readiFile file 0 elfhdrSize)).entry) rfl
      have hcur : Keeps s1 s2 (cur :: rs) held :=
        hk2.mono (.refl _) (List.sublist_cons_self ..)
      have ht5 := ((ht.keep hk1 (.head _)).keep hcur
        (.head _)).keep hk5 (.tail _ (.head _))
      refine .step rfl (.step rfl (.step rfl ?_))
      refine (procFreepagetable_meets (hl5.permRoots (.swap ..)) ht5).bind ?_
      rintro - s' ⟨hl6, hk6, hex6⟩
      have hnew : Keeps s2 s' [new] held :=
        (hk5.mono (.cons_cons _ (List.nil_sublist _)) (.refl _)).trans
          (hk6.mono (.cons_cons _ (List.nil_sublist _)) (List.sublist_cons_self ..))
      refine .pure (.inr ⟨argc, new, sz, sp, rfl, hl6, ?_, ?_, ?_, ?_, ?_⟩)
      · have h1 : Keeps s s1 rs held :=
          hk1.mono (List.sublist_cons_self ..) (List.sublist_cons_self ..)
        have h2 : Keeps s1 s2 rs held := hcur.mono (List.sublist_cons_self ..) (.refl _)
        have h5 := hk5.mono ((List.sublist_cons_self cur rs).trans
          (List.sublist_cons_self new _)) (.refl held)
        exact ((h1.trans h2).trans h5).trans (hk6.mono (List.sublist_cons_self ..) (List.sublist_cons_self ..))
      · exact ht2.keep hnew (.head _)
      · exact hex6.trans (hex2.trans hex1)
      · rw [hval, hnew.umem (.head _)]
        rfl
      · exact (stackRegisters_sd64 s2.mem trapframe sp _).congr
          (hk6.same trapframe (owners_pos_of_held (.head _)))

/-- `sys_exec`: the image depends on the address space of the process and on the files only. -/
theorem sysExec_meets {cur sz upath uargv : Nat}
    {files : List UInt8 → Option (List UInt8)} (h : Ledger s (cur :: rs) (trapframe :: held))
    (ht : UserTable s.mem trampoline trapframe cur sz) (hfew : rs.length + 1 < 2 * NPROC) :
    Meets (fun _ => False) (sysExec trampoline trapframe cur sz files upath uargv) s fun o s' =>
      (o = none ∧ Ledger s' (cur :: rs) (trapframe :: held) ∧ Keeps s s' (cur :: rs) (trapframe :: held) ∧
        (s.exhausted < s'.exhausted ∨ (s'.exhausted = s.exhausted ∧
          (umem s.mem cur).execImage sz files upath uargv = none))) ∨
      ∃ argc new sz' sp, o = some (argc, new, sz') ∧ Ledger s' (new :: rs) (trapframe :: held) ∧
        Keeps s s' rs held ∧ UserTable s'.mem trampoline trapframe new sz' ∧ s'.exhausted = s.exhausted ∧
        (umem s.mem cur).execImage sz files upath uargv = some (sz', argc, sp, umem s'.mem new) := by
  rw [sysExec]
  unfold UMem.execImage
  simp only
  refine .step (fetchstr_eq h ht.kernelHigh upath MAXPATH) ?_
  by_cases hneg : ((umem s.mem cur).fetchstr upath MAXPATH).1 < 0
  · rw [if_pos hneg, if_pos hneg]
    exact .pure (.inl ⟨rfl, h, .refl _ _ _, .inr ⟨rfl, rfl⟩⟩)
  rw [if_neg hneg, if_neg hneg]
  refine (fetchArgs_meets h ht.kernelHigh).bind ?_
  rintro ⟨ok, pages, strs⟩ s2 ⟨hl2, hk2, hcase2, hshort⟩
  cases ok with
  | false =>
    rw [if_pos (by rfl)]
    refine (kfreeAll_meets hl2).bind ?_
    rintro - s3 ⟨hl3, hk3, hex3⟩
    refine .pure (.inl ⟨rfl, hl3, hk2.trans hk3, ?_⟩)
    rcases hcase2 with ⟨-, hex2⟩ | ⟨hex2, hval⟩
    · exact .inl (by omega)
    · refine .inr ⟨by omega, ?_⟩
      rw [hval]
      rfl
  | true =>
    rw [if_neg (by simp)]
    rcases hcase2 with ⟨hfalse, -⟩ | ⟨hex2, hval⟩
    · cases hfalse
    rw [if_pos rfl] at hval
    rw [hval]
    have hperm : (pages ++ trapframe :: held).Perm (trapframe :: (pages ++ held)) :=
      List.perm_middle
    refine (exec_meets (hl2.permHeld hperm) (ht.keep hk2 (.head _)) hfew hshort).bind ?_
    rintro ret s3 (⟨rfl, hl3, hk3, hcase3⟩ | ⟨argc, new, sz', sp, rfl, hl3, hk3, ht3, hex3, himg, -⟩)
    · refine (kfreeAll_meets (hl3.permHeld hperm.symm)).bind ?_
      rintro - s' ⟨hl4, hk4, hex4⟩
      have hk3' : Keeps s2 s3 (cur :: rs) (trapframe :: held) := hk3.mono (.refl _)
        (.cons_cons _ (List.sublist_append_right pages held))
      refine .pure (.inl ⟨rfl, hl4, (hk2.trans hk3').trans hk4, ?_⟩)
      rcases hcase3 with hex3 | ⟨hex3, himg⟩
      · exact .inl (by omega)
      · exact .inr ⟨by omega, himg⟩
    · refine (kfreeAll_meets (hl3.permHeld hperm.symm)).bind ?_
      rintro - s' ⟨hl4, hk4, hex4⟩
      have h2 : Keeps s s2 rs held :=
        hk2.mono (List.sublist_cons_self ..) (List.sublist_cons_self ..)
      have h3 : Keeps s2 s3 rs held :=
        hk3.mono (.refl _) (List.sublist_append_right pages held)
      have h4 : Keeps s3 s' rs held := hk4.mono (List.sublist_cons_self ..) (List.sublist_cons_self ..)
      refine .pure (.inr ⟨argc, new, sz', sp, rfl, hl4, (h2.trans h3).trans h4,
        ht3.keep hk4 (.head _), by omega, ?_⟩)
      rw [hk4.umem (.head _)]
      exact himg

end Image

end Xv6.Vm
