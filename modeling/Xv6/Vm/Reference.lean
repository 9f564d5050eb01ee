import Xv6.Vm.Spaces

/-!
# A kernel that copies eagerly

The kernel that copy-on-write is compared with. It has as many frames as it wants, every page of
every process has a frame of its own, and `fork` copies every page of the parent into a fresh frame;
a writable entry is a plain `PTE_W` entry, and a store to it is done without a fault. Its other
operations are those of the kernel; `lim` is present where an operation is to fail for lack of
memory, as in `Spaces.step`.

`RefKernel.spaces` is what the processes see of it. That it shows what `Spaces.step` says rests on
`Separate`: no frame is behind two entries.
-/

set_option autoImplicit false

namespace Xv6.Vm

open Function Xv6.Base

/-- An entry of a page table. -/
structure RefEntry where
  frame : Nat
  read : Bool
  write : Bool
  exec : Bool
  user : Bool

/-- A page table: the entries by page number. -/
abbrev RefTable := Nat → Option RefEntry

/-- Processes with page tables, and the contents of the frames. -/
structure RefKernel where
  table : ProcTable RefTable
  frame : Nat → Nat → UInt8
  /-- the frames from here on have not been used -/
  next : Nat

namespace RefKernel

variable (ρ : RefKernel)

/-- The page behind an entry. -/
def page (e : RefEntry) : UPage := ⟨e.read, e.write, e.exec, e.user, ρ.frame e.frame⟩

def space (E : RefTable) : UMem := fun u => (E u).map ρ.page

/-- What the processes see. -/
def spaces : Spaces := ρ.table.map ρ.space

def setTable (t : ProcTable RefTable) : RefKernel := { ρ with table := t }

/-- Entries for the pages of `M` from `lo` to `hi`, in fresh frames, added to a table. -/
def entries (M : UMem) (lo hi : Nat) (E : RefTable) : RefTable := fun u =>
  if lo ≤ u ∧ u < hi then
    (M u).map fun p => ⟨ρ.next + (u - lo), p.read, p.write, p.exec, p.user⟩
  else E u

/-- The contents of the frames after the pages of `M` from `lo` to `hi` are copied to fresh ones. -/
def loaded (M : UMem) (lo hi f : Nat) : Nat → UInt8 :=
  if ρ.next ≤ f ∧ f < ρ.next + (hi - lo) then
    match M (lo + (f - ρ.next)) with
    | some p => p.bytes
    | none => ρ.frame f
  else ρ.frame f

/-- Slot `i` becomes `p`, with copies of the pages of `M` from `lo` to `hi` in fresh frames. -/
def install (i : Fin NPROC) (p : Proc RefTable) (M : UMem) (lo hi : Nat) : RefKernel where
  table := ρ.table.set i { p with mem := ρ.entries M lo hi p.mem }
  frame := ρ.loaded M lo hi
  next := ρ.next + (hi - lo)

/-- Write `bs` at offset `off` of page `u` of process `i`. -/
def put (i : Fin NPROC) (u off : Nat) (bs : List UInt8) : RefKernel :=
  match (ρ.table.proc i).mem u with
  | none => ρ
  | some e =>
    { ρ with frame := update ρ.frame e.frame (writeBytes (ρ.frame e.frame) off bs) }

/-! ## The operations -/

def userinit : RefKernel :=
  match ρ.table.unused with
  | none => ρ
  | some j =>
    let ρ' := ρ.install j ⟨.runnable, ρ.table.nextpid, none, 0, PGSIZE, fun _ => none⟩
      Spaces.initSpace 0 1
    ρ'.setTable ((ρ'.table.setNextpid (ρ.table.nextpid + 1)).setInitproc j)

/-- `fork` copies every page of the parent. -/
def fork (lim : Option (Nat × Nat)) (i : Fin NPROC) : Int × RefKernel :=
  match ρ.table.unused, lim with
  | none, _ => (-1, ρ)
  | some _, some _ => (-1, ρ.setTable (ρ.table.setNextpid (ρ.table.nextpid + 1)))
  | some j, none =>
    let p := ρ.table.proc i
    let ρ' := ρ.install j ⟨.runnable, ρ.table.nextpid, some i, 0, p.sz, fun _ => none⟩
      (ρ.space p.mem) 0 (npages p.sz)
    (ρ.table.nextpid, ρ'.setTable (ρ'.table.setNextpid (ρ.table.nextpid + 1)))

def sbrk (lim : Option (Nat × Nat)) (i : Fin NPROC) (n : Int) : Int × RefKernel :=
  let p := ρ.table.proc i
  let newsz := (((p.sz : Int) + n) % 2 ^ 64).toNat
  if 0 < n then
    match lim with
    | some _ => (-1, ρ)
    | none =>
      (p.sz, ρ.install i { p with sz := newsz } (fun _ => some (zeroPage PTE_W)) (npages p.sz)
        (npages newsz))
  else if n < 0 ∧ newsz < p.sz then
    (p.sz, ρ.setTable (ρ.table.set i { p with
      sz := newsz
      mem := fun u => if npages newsz ≤ u ∧ u < npages p.sz then none else p.mem u }))
  else (p.sz, ρ)

def exec (lim : Option (Nat × Nat)) (i : Fin NPROC) (files : List UInt8 → Option (List UInt8))
    (upath uargv : Nat) : Int × RefKernel :=
  let p := ρ.table.proc i
  match lim, (ρ.space p.mem).execImage p.sz files upath uargv with
  | none, some (sz, argc, _, M) =>
    (argc, ρ.install i { p with sz := sz, mem := fun _ => none } M 0 (npages sz))
  | _, _ => (-1, ρ)

/-- `copyout` to process `i`, stopped after `k` pages. -/
def copyoutPages (i : Fin NPROC) : Nat → RefKernel → Nat → List UInt8 → Int × RefKernel
  | 0, ρ, _, src => (if src.length = 0 then 0 else -1, ρ)
  | k + 1, ρ, dstva, src =>
    if src.length = 0 then (0, ρ)
    else if MAXVA ≤ PGROUNDDOWN dstva then (-1, ρ)
    else match (ρ.table.proc i).mem (dstva / PGSIZE) with
      | none => (-1, ρ)
      | some e =>
        if e.user && e.write then
          copyoutPages i k
            (ρ.put i (dstva / PGSIZE) (dstva % PGSIZE) (src.take (pieceLen dstva src.length)))
            ((PGROUNDDOWN dstva + PGSIZE) % 2 ^ 64) (src.drop (pieceLen dstva src.length))
        else (-1, ρ)

def copyout (k : Option Nat) (i : Fin NPROC) (dstva : Nat) (src : List UInt8) : Int × RefKernel :=
  copyoutPages i (k.getD src.length) ρ dstva src

def wait (lim : Option (Nat × Nat)) (i : Fin NPROC) (addr : Nat) : Option Int × RefKernel :=
  match ρ.table.zombieChild i with
  | none => (if ρ.table.haveKids i then none else some (-1), ρ)
  | some j =>
    let r := if addr ≠ 0 then
        ρ.copyout (lim.map Prod.fst) i addr (intBytes (ρ.table.proc j).xstate)
      else (0, ρ)
    if r.1 < 0 then (some (-1), r.2)
    else (some (ρ.table.proc j).pid, r.2.setTable (r.2.table.set j (Proc.free fun _ => none)))

def exit (i : Fin NPROC) (status : Int) : RefKernel := ρ.setTable (ρ.table.exit i status)

def store (lim : Option (Nat × Nat)) (i : Fin NPROC) (va : Nat) (bs : List UInt8) : RefKernel :=
  match lim, (ρ.table.proc i).mem (va / PGSIZE) with
  | none, some e =>
    if e.user && e.write then ρ.put i (va / PGSIZE) (va % PGSIZE) bs else ρ.exit i (-1)
  | _, _ => ρ.exit i (-1)

def pipe (lim : Option (Nat × Nat)) (i : Fin NPROC) (fdarray : Nat) (fds : Option (Nat × Nat)) : Int × RefKernel :=
  match fds with
  | none => (-1, ρ)
  | some (fd0, fd1) =>
    let r0 := ρ.copyout (lim.map Prod.fst) i fdarray (intBytes fd0)
    if r0.1 < 0 then (-1, r0.2)
    else
      let r1 := r0.2.copyout (lim.map Prod.snd) i ((fdarray + 4) % 2 ^ 64) (intBytes fd1)
      if r1.1 < 0 then (-1, r1.2) else (0, r1.2)

/-- The operations, by the labels of the kernel's. -/
def step (lim : Option (Nat × Nat)) (l : Label) : Option Int × RefKernel :=
  match l with
  | .kernelAlloc | .kernelWrite .. | .pipeclose _ => (none, ρ)
  | .userinit => (none, ρ.userinit)
  | .fork i => Prod.map some id (ρ.fork lim i)
  | .exec i files upath uargv => Prod.map some id (ρ.exec lim i files upath uargv)
  | .sbrk i n => Prod.map some id (ρ.sbrk lim i n)
  | .exit i status => (none, ρ.exit i status)
  | .wait i addr => ρ.wait lim i addr
  | .store i va bs => (none, ρ.store lim i va bs)
  | .fault i _ _ => (none, ρ.exit i (-1))
  | .copyout i dstva src => Prod.map some id (ρ.copyout (lim.map Prod.fst) i dstva src)
  | .pipe i fdarray fds => Prod.map some id (ρ.pipe lim i fdarray fds)

/-- The machine before the first process. -/
def init : RefKernel := ⟨ProcTable.init fun _ => none, fun _ _ => 0, 0⟩

/-! ## No frame is shared -/

/-- The entries of all processes have frames of their own, among those that are in use. -/
structure Separate : Prop where
  used : ∀ i u e, (ρ.table.proc i).mem u = some e → e.frame < ρ.next
  alone : ∀ i j u v e e', (ρ.table.proc i).mem u = some e → (ρ.table.proc j).mem v = some e' →
    e.frame = e'.frame → i = j ∧ u = v

variable {ρ}

theorem separate_init : Separate init :=
  ⟨(fun _ _ _ h => by cases h), (fun _ _ _ _ _ _ h => by cases h)⟩

/-- Fewer entries, and no fewer frames. -/
theorem Separate.mono {ρ' : RefKernel} (h : ρ.Separate) (hnext : ρ.next ≤ ρ'.next)
    (hsub : ∀ i u e, (ρ'.table.proc i).mem u = some e → (ρ.table.proc i).mem u = some e) : ρ'.Separate :=
  ⟨fun i u e he => (h.used i u e (hsub i u e he)).trans_le hnext,
    fun i j u v e e' he he' => h.alone i j u v e e' (hsub i u e he) (hsub j v e' he')⟩

theorem loaded_old {M : UMem} {lo hi f : Nat} (h : f < ρ.next) : ρ.loaded M lo hi f = ρ.frame f :=
  if_neg (by omega)

theorem loaded_new {M : UMem} {lo hi u : Nat} {p : UPage} (hlo : lo ≤ u) (hhi : u < hi)
    (hp : M u = some p) : ρ.loaded M lo hi (ρ.next + (u - lo)) = p.bytes := by
  have hu : lo + (ρ.next + (u - lo) - ρ.next) = u := by omega
  rw [loaded, if_pos (by omega), hu, hp]

/-- Pages whose frames are in use are not touched by loading new ones. -/
theorem space_loaded {M : UMem} {lo hi : Nat} {E : RefTable} {t : ProcTable RefTable} {n : Nat}
    (h : ∀ u e, E u = some e → e.frame < ρ.next) : space ⟨t, ρ.loaded M lo hi, n⟩ E = ρ.space E := by
  funext u
  unfold space
  cases he : E u with
  | none => rfl
  | some e =>
    show some (page ⟨t, ρ.loaded M lo hi, n⟩ e) = some (ρ.page e)
    unfold page
    rw [show (⟨t, ρ.loaded M lo hi, n⟩ : RefKernel).frame e.frame = _ from loaded_old (h u e he)]

/-- The new pages show what was copied to them. -/
theorem space_entries {M : UMem} {lo hi : Nat} {E : RefTable} {t : ProcTable RefTable} {n : Nat}
    (h : ∀ u e, E u = some e → e.frame < ρ.next) : space ⟨t, ρ.loaded M lo hi, n⟩ (ρ.entries M lo hi E) =
      fun u => if lo ≤ u ∧ u < hi then M u else ρ.space E u := by
  funext u
  have hold : space ⟨t, ρ.loaded M lo hi, n⟩ E u = ρ.space E u := congrFun (space_loaded h) u
  unfold space entries at *
  split_ifs with hin
  · cases hp : M u with
    | none => rfl
    | some p =>
      show some (page ⟨t, ρ.loaded M lo hi, n⟩ _) = some p
      unfold page
      rw [show (⟨t, ρ.loaded M lo hi, n⟩ : RefKernel).frame (ρ.next + (u - lo)) = _ from
        loaded_new hin.1 hin.2 hp]
  · exact hold

variable {i : Fin NPROC} {p : Proc RefTable} {M : UMem} {lo hi : Nat}

theorem install_spaces (M : UMem) (lo hi : Nat) (h : ρ.Separate) (hp : ∀ u e, p.mem u = some e → e.frame < ρ.next) :
    (ρ.install i p M lo hi).spaces = ρ.spaces.set i
      { p.map ρ.space with mem := fun u => if lo ≤ u ∧ u < hi then M u else ρ.space p.mem u } := by
  unfold spaces
  refine ProcTable.ext (funext fun j => ?_) rfl rfl
  rw [ProcTable.map_proc]
  by_cases hj : j = i
  · subst hj
    rw [ProcTable.set_self]
    show Proc.map _ ((ρ.table.set j _).proc j) = _
    rw [ProcTable.set_self]
    unfold Proc.map
    rw [show (ρ.install j p M lo hi).space (ρ.entries M lo hi p.mem) = _ from space_entries hp]
  · rw [ProcTable.set_of_ne _ hj]
    show Proc.map _ ((ρ.table.set i _).proc j) = _
    rw [ProcTable.set_of_ne _ hj, ProcTable.map_proc]
    unfold Proc.map
    rw [show (ρ.install i p M lo hi).space (ρ.table.proc j).mem = _ from space_loaded (h.used j)]

/-- An entry of the new table is an old one, or has a fresh frame that tells its page number. -/
theorem entries_cases {E : RefTable} {u : Nat} {e : RefEntry} (h : ρ.entries M lo hi E u = some e) :
    (lo ≤ u ∧ u < hi ∧ e.frame = ρ.next + (u - lo)) ∨ E u = some e := by
  unfold entries at h
  split_ifs at h with hin
  · left
    refine ⟨hin.1, hin.2, ?_⟩
    obtain ⟨q, -, rfl⟩ := Option.map_eq_some_iff.1 h
    rfl
  · exact .inr h

theorem install_separate (h : ρ.Separate) (hp : ∀ u e, p.mem u = some e → (ρ.table.proc i).mem u = some e) :
    (ρ.install i p M lo hi).Separate := by
  -- where an entry of the new table comes from
  have hcases : ∀ j u e, ((ρ.install i p M lo hi).table.proc j).mem u = some e →
      (j = i ∧ lo ≤ u ∧ u < hi ∧ e.frame = ρ.next + (u - lo)) ∨ (ρ.table.proc j).mem u = some e := by
    intro j u e he
    by_cases hj : j = i
    · subst hj
      rw [show ((ρ.install j p M lo hi).table.proc j).mem = _ from
        congrArg Proc.mem (ProcTable.set_self _ _ _)] at he
      rcases entries_cases he with ⟨h1, h2, h3⟩ | hold
      · exact .inl ⟨rfl, h1, h2, h3⟩
      · exact .inr (hp u e hold)
    · rw [show ((ρ.install i p M lo hi).table.proc j).mem = _ from
        congrArg Proc.mem (ProcTable.set_of_ne _ hj _)] at he
      exact .inr he
  constructor
  · intro j u e he
    show e.frame < ρ.next + (hi - lo)
    rcases hcases j u e he with ⟨-, h1, h2, h3⟩ | hold
    · omega
    · have := h.used j u e hold
      omega
  · intro j j' u v e e' he he' hff
    rcases hcases j u e he with ⟨rfl, h1, h2, h3⟩ | hold
    · rcases hcases j' v e' he' with ⟨rfl, h1', h2', h3'⟩ | hold'
      · exact ⟨rfl, by omega⟩
      · have := h.used j' v e' hold'
        omega
    · rcases hcases j' v e' he' with ⟨rfl, h1', h2', h3'⟩ | hold'
      · have := h.used j u e hold
        omega
      · exact h.alone j j' u v e e' hold hold' hff

theorem put_table (u off : Nat) (bs : List UInt8) : (ρ.put i u off bs).table = ρ.table := by
  unfold put
  split <;> rfl

theorem put_next (u off : Nat) (bs : List UInt8) : (ρ.put i u off bs).next = ρ.next := by
  unfold put
  split <;> rfl

theorem Separate.put (h : ρ.Separate) (u off : Nat) (bs : List UInt8) : (ρ.put i u off bs).Separate :=
  h.mono (put_next u off bs).ge fun j v e he => by rwa [put_table] at he

/-- Writing to one page changes what one process sees of that page. -/
theorem put_spaces (h : ρ.Separate) (u off : Nat) (bs : List UInt8) : (ρ.put i u off bs).spaces =
      ρ.spaces.setMem i ((ρ.space (ρ.table.proc i).mem).put u off bs) := by
  unfold Spaces.setMem spaces
  refine ProcTable.ext (funext fun j => ?_) (by rw [put_table]; rfl) (by rw [put_table]; rfl)
  rw [ProcTable.map_proc, put_table]
  -- page by page
  have hpage : (ρ.put i u off bs).space (ρ.table.proc j).mem =
      if j = i then (ρ.space (ρ.table.proc i).mem).put u off bs else ρ.space (ρ.table.proc j).mem := by
    funext v
    have hval : (ρ.put i u off bs).space (ρ.table.proc j).mem v =
        if j = i ∧ v = u then (ρ.space (ρ.table.proc i).mem u).map
          fun p => { p with bytes := writeBytes p.bytes off bs }
        else ρ.space (ρ.table.proc j).mem v := by
      unfold RefKernel.put
      cases he : (ρ.table.proc i).mem u with
      | none =>
        split_ifs with hju
        · obtain ⟨rfl, rfl⟩ := hju
          unfold space
          rw [he]
          rfl
        · rfl
      | some e =>
        simp only
        unfold space
        cases hv : (ρ.table.proc j).mem v with
        | none =>
          rw [if_neg]
          · rfl
          · rintro ⟨rfl, rfl⟩
            rw [he] at hv
            cases hv
        | some e' =>
          by_cases hf : e'.frame = e.frame
          · obtain ⟨rfl, rfl⟩ := h.alone j i v u e' e hv he hf
            rw [he] at hv
            cases hv
            rw [if_pos ⟨rfl, rfl⟩, he]
            show some (page _ e) = some _
            unfold page
            simp only [update_self]
          · rw [if_neg]
            · show some (page _ e') = some (page ρ e')
              unfold page
              simp only [update_of_ne hf]
            · rintro ⟨rfl, rfl⟩
              rw [he] at hv
              cases hv
              exact hf rfl
    rw [hval]
    by_cases hj : j = i
    · subst hj
      rw [if_pos rfl]
      unfold UMem.put
      by_cases hv : v = u
      · rw [hv, update_self, if_pos ⟨rfl, rfl⟩]
      · rw [update_of_ne hv, if_neg (fun hc => hv hc.2)]
    · rw [if_neg (fun hc => hj hc.1), if_neg hj]
  by_cases hj : j = i
  · subst hj
    rw [ProcTable.set_self]
    unfold Proc.map
    rw [hpage, if_pos rfl]
    rfl
  · rw [ProcTable.set_of_ne _ hj, ProcTable.map_proc]
    unfold Proc.map
    rw [hpage, if_neg hj]

/-! ## What the operations show -/

/-- The reference kernel's `r` is what the processes are to see as `q`, and its frames are separate. -/
structure Shows {α : Type} (r : α × RefKernel) (q : α × Spaces) : Prop where
  outcome : r.1 = q.1
  spaces : r.2.spaces = q.2
  separate : r.2.Separate

theorem spaces_proc (j : Fin NPROC) : ρ.spaces.proc j = (ρ.table.proc j).map ρ.space := rfl

theorem spaces_setMem_self : ρ.spaces.setMem i (ρ.space (ρ.table.proc i).mem) = ρ.spaces :=
  ProcTable.set_proc_self ρ.spaces i

theorem setMem_setMem (t : Spaces) (M M' : UMem) : (t.setMem i M).setMem i M' = t.setMem i M' := by
  unfold Spaces.setMem
  rw [ProcTable.set_set, ProcTable.set_self]

theorem setMem_proc_mem (t : Spaces) (M : UMem) : ((t.setMem i M).proc i).mem = M := by
  unfold Spaces.setMem
  rw [ProcTable.set_self]

theorem copyoutPages_shows (k dstva : Nat) (src : List UInt8) (h : ρ.Separate) : Shows (copyoutPages i k ρ dstva src)
      ((UMem.copyout k (ρ.space (ρ.table.proc i).mem) dstva src).1,
        ρ.spaces.setMem i (UMem.copyout k (ρ.space (ρ.table.proc i).mem) dstva src).2) ∧
      (copyoutPages i k ρ dstva src).2.table = ρ.table := by
  induction k generalizing ρ dstva src with
  | zero => exact ⟨⟨rfl, spaces_setMem_self.symm, h⟩, rfl⟩
  | succ k ih =>
    rw [copyoutPages, UMem.copyout]
    by_cases hlen : src.length = 0
    · rw [if_pos hlen, if_pos hlen]
      exact ⟨⟨rfl, spaces_setMem_self.symm, h⟩, rfl⟩
    rw [if_neg hlen, if_neg hlen]
    by_cases hva : MAXVA ≤ PGROUNDDOWN dstva
    · rw [if_pos hva, if_pos hva]
      exact ⟨⟨rfl, spaces_setMem_self.symm, h⟩, rfl⟩
    rw [if_neg hva, if_neg hva]
    have hM : ρ.space (ρ.table.proc i).mem (dstva / PGSIZE) = ((ρ.table.proc i).mem (dstva / PGSIZE)).map ρ.page := rfl
    cases he : (ρ.table.proc i).mem (dstva / PGSIZE) with
    | none =>
      rw [hM, he]
      exact ⟨⟨rfl, spaces_setMem_self.symm, h⟩, rfl⟩
    | some e =>
      rw [hM, he]
      simp only [Option.map_some]
      rw [show (ρ.page e).user = e.user from rfl, show (ρ.page e).write = e.write from rfl]
      by_cases hw : (e.user && e.write) = true
      · rw [if_pos hw, if_pos hw]
        -- the rest of the copy, from the state after the first page
        generalize src.take (pieceLen dstva src.length) = piece
        generalize src.drop (pieceLen dstva src.length) = rest
        have hsp := put_spaces (i := i) h (dstva / PGSIZE) (dstva % PGSIZE) piece
        have hmem : (ρ.put i (dstva / PGSIZE) (dstva % PGSIZE) piece).space
            ((ρ.put i (dstva / PGSIZE) (dstva % PGSIZE) piece).table.proc i).mem =
            (ρ.space (ρ.table.proc i).mem).put (dstva / PGSIZE) (dstva % PGSIZE) piece :=
          (congrArg (fun t : Spaces => (t.proc i).mem) hsp).trans (setMem_proc_mem _ _)
        obtain ⟨⟨hout, hspaces, hsep⟩, htab⟩ :=
          ih ((PGROUNDDOWN dstva + PGSIZE) % 2 ^ 64) rest (h.put (i := i) (dstva / PGSIZE) (dstva % PGSIZE) piece)
        rw [hmem] at hout hspaces
        rw [hsp, setMem_setMem] at hspaces
        exact ⟨⟨hout, hspaces, hsep⟩, htab.trans (put_table ..)⟩
      · rw [if_neg hw, if_neg hw]
        exact ⟨⟨rfl, spaces_setMem_self.symm, h⟩, rfl⟩

theorem copyout_shows (n : Option Nat) (i : Fin NPROC) (dstva : Nat) (src : List UInt8) (h : ρ.Separate) :
    Shows (ρ.copyout n i dstva src) (Spaces.copyout n i dstva src ρ.spaces) ∧
      (ρ.copyout n i dstva src).2.table = ρ.table := copyoutPages_shows _ _ _ h

variable {α : Type}

/-- A change of the table that adds no entry. -/
theorem setTable_shows {t : ProcTable RefTable} {q : Spaces} (a : α) (h : ρ.Separate)
    (hsub : ∀ i u e, (t.proc i).mem u = some e → (ρ.table.proc i).mem u = some e)
    (hq : t.map ρ.space = q) : Shows (a, ρ.setTable t) (a, q) :=
  ⟨rfl, hq, h.mono (Nat.le_refl _) hsub⟩

theorem exit_shows {status : Int} (a : α) (h : ρ.Separate) :
    Shows (a, ρ.exit i status) (a, ρ.spaces.exit i status) := by
  refine setTable_shows a h (fun j u e he => ?_) (ProcTable.map_exit ..)
  rw [ProcTable.exit_proc] at he
  exact he

theorem refl_shows (a : α) (h : ρ.Separate) : Shows (a, ρ) (a, ρ.spaces) := ⟨rfl, rfl, h⟩

variable {lim : Option (Nat × Nat)}

theorem store_shows {va : Nat} {bs : List UInt8} (h : ρ.Separate) :
    Shows (none, ρ.store lim i va bs) ((none : Option Int), Spaces.store lim i va bs ρ.spaces) := by
  unfold store Spaces.store
  have hM : (ρ.spaces.proc i).mem (va / PGSIZE) = ((ρ.table.proc i).mem (va / PGSIZE)).map ρ.page := rfl
  cases lim with
  | some n => exact exit_shows none h
  | none =>
    rw [hM]
    cases (ρ.table.proc i).mem (va / PGSIZE) with
    | none => exact exit_shows none h
    | some e =>
      simp only [Option.map_some]
      rw [show (ρ.page e).user = e.user from rfl, show (ρ.page e).write = e.write from rfl]
      by_cases hw : (e.user && e.write) = true
      · rw [if_pos hw, if_pos hw]
        exact ⟨rfl, put_spaces h _ _ _, h.put _ _ _⟩
      · rw [if_neg hw, if_neg hw]
        exact exit_shows none h

theorem wait_shows {addr : Nat} (h : ρ.Separate) : Shows (ρ.wait lim i addr) (Spaces.wait lim i addr ρ.spaces) := by
  unfold wait Spaces.wait
  rw [show ρ.spaces.zombieChild i = ρ.table.zombieChild i from rfl,
    show ρ.spaces.haveKids i = ρ.table.haveKids i from rfl]
  cases hz : ρ.table.zombieChild i with
  | none => exact refl_shows _ h
  | some j =>
    simp only
    have hr : Shows (if addr ≠ 0 then
          ρ.copyout (lim.map Prod.fst) i addr (intBytes (ρ.table.proc j).xstate) else (0, ρ))
        (if addr ≠ 0 then Spaces.copyout (lim.map Prod.fst) i addr
          (intBytes (ρ.spaces.proc j).xstate) ρ.spaces else (0, ρ.spaces)) := by
      split_ifs
      · exact (copyout_shows _ _ _ _ h).1
      · exact refl_shows _ h
    generalize (if addr ≠ 0 then
      ρ.copyout (lim.map Prod.fst) i addr (intBytes (ρ.table.proc j).xstate) else (0, ρ)) = r at hr ⊢
    generalize (if addr ≠ 0 then Spaces.copyout (lim.map Prod.fst) i addr
      (intBytes (ρ.spaces.proc j).xstate) ρ.spaces else (0, ρ.spaces)) = q at hr ⊢
    obtain ⟨hout, hsp, hsep⟩ := hr
    rw [hout, ← hsp]
    split_ifs
    · exact refl_shows _ hsep
    · refine setTable_shows _ hsep (fun i' u e he => ?_) (ProcTable.map_set ..)
      by_cases hi' : i' = j
      · subst hi'
        rw [ProcTable.set_self] at he
        cases he
      · rwa [ProcTable.set_of_ne _ hi'] at he

theorem pipe_shows {fdarray : Nat} {fds : Option (Nat × Nat)} (h : ρ.Separate) :
    Shows (ρ.pipe lim i fdarray fds) (Spaces.pipe lim i fdarray fds ρ.spaces) := by
  unfold pipe Spaces.pipe
  cases fds with
  | none => exact refl_shows _ h
  | some fd =>
    obtain ⟨fd0, fd1⟩ := fd
    simp only
    obtain ⟨⟨hout0, hsp0, hsep0⟩, -⟩ :=
      copyout_shows (lim.map Prod.fst) i fdarray (intBytes fd0) h
    rw [hout0, ← hsp0]
    by_cases h0 : (Spaces.copyout (lim.map Prod.fst) i fdarray (intBytes fd0) ρ.spaces).1 < 0
    · rw [if_pos h0, if_pos h0]
      exact refl_shows _ hsep0
    · rw [if_neg h0, if_neg h0]
      obtain ⟨⟨hout1, hsp1, hsep1⟩, -⟩ := copyout_shows (lim.map Prod.snd) i
        ((fdarray + 4) % 2 ^ 64) (intBytes fd1) hsep0
      rw [hout1, ← hsp1]
      split_ifs
      · exact refl_shows _ hsep1
      · exact refl_shows _ hsep1

/-- The address spaces have no pages from the size of the process on. -/
def Compact (t : Spaces) : Prop := ∀ i u, npages (t.proc i).sz ≤ u → (t.proc i).mem u = none

/-- A new process in a free slot, with copies of the pages of `M`. -/
theorem spawn_shows (j : Fin NPROC) (parent : Option (Fin NPROC)) (sz n : Nat) (a : α)
    (h : ρ.Separate) (hM : ∀ u, n ≤ u → M u = none) :
    Shows (a, (ρ.install j ⟨.runnable, ρ.table.nextpid, parent, 0, sz, fun _ => none⟩ M 0 n).setTable
        ((ρ.install j ⟨.runnable, ρ.table.nextpid, parent, 0, sz, fun _ => none⟩ M 0 n).table.setNextpid
          (ρ.table.nextpid + 1))) (a, ρ.spaces.spawn j parent sz M) := by
  have hsep : (ρ.install j ⟨.runnable, ρ.table.nextpid, parent, 0, sz, fun _ => none⟩ M 0 n).Separate :=
    install_separate h fun u e he => by cases he
  refine setTable_shows a hsep (fun _ _ _ he => he) ?_
  have hsp := install_spaces (i := j) (p := ⟨.runnable, ρ.table.nextpid, parent, 0, sz, fun _ => none⟩)
    M 0 n h fun u e he => by cases he
  have hmem : (fun u => if 0 ≤ u ∧ u < n then M u else ρ.space (fun _ => none) u) = M := by
    funext u
    split_ifs with hu
    · rfl
    · exact (hM u (by omega)).symm
  rw [hmem] at hsp
  exact congrArg (fun t : Spaces => t.setNextpid (ρ.table.nextpid + 1)) hsp

section

variable (h : ρ.Separate)
include h

theorem fork_shows (hc : Compact ρ.spaces) : Shows (ρ.fork lim i) (Spaces.fork lim i ρ.spaces) := by
  unfold fork Spaces.fork
  rw [show ρ.spaces.unused = ρ.table.unused from rfl]
  cases ρ.table.unused with
  | none => exact refl_shows _ h
  | some j =>
    cases lim with
    | some n => exact setTable_shows _ h (fun _ _ _ he => he) rfl
    | none => exact spawn_shows _ _ _ _ _ h (hc i)

theorem userinit_shows : Shows ((none : Option Int), ρ.userinit) (none, Spaces.userinit ρ.spaces) := by
  unfold userinit Spaces.userinit
  rw [show ρ.spaces.unused = ρ.table.unused from rfl]
  cases ρ.table.unused with
  | none => exact refl_shows _ h
  | some j =>
    obtain ⟨-, hsp, hsep⟩ := spawn_shows (M := Spaces.initSpace) j none PGSIZE 1 () h fun u hu => if_neg (by omega)
    refine ⟨rfl, ?_, hsep.mono (Nat.le_refl _) fun _ _ _ he => he⟩
    exact congrArg (fun t : Spaces => t.setInitproc j) hsp

theorem sbrk_shows {n : Int} : Shows (ρ.sbrk lim i n) (Spaces.sbrk lim i n ρ.spaces) := by
  unfold sbrk Spaces.sbrk
  simp only
  rw [show (ρ.spaces.proc i).sz = (ρ.table.proc i).sz from rfl]
  split_ifs with hpos hneg
  · cases lim with
    | some m => exact refl_shows _ h
    | none =>
      refine ⟨rfl, ?_, install_separate h fun _ _ he => he⟩
      exact install_spaces _ _ _ h (h.used i)
  · refine setTable_shows _ h (fun j u e he => ?_) ?_
    · by_cases hj : j = i
      · subst hj
        rw [ProcTable.set_self] at he
        simp only at he
        split_ifs at he
        exact he
      · rwa [ProcTable.set_of_ne _ hj] at he
    · rw [ProcTable.map_set]
      refine congrArg (ρ.spaces.set i) ?_
      refine Proc.ext rfl rfl rfl rfl rfl ?_
      funext u
      show (if _ then none else _ : Option RefEntry).map ρ.page = UMem.shrink _ _ _ u
      unfold UMem.shrink
      split_ifs
      · rfl
      · rfl
  · exact refl_shows _ h

theorem exec_shows {files : List UInt8 → Option (List UInt8)} {upath uargv : Nat}
    (hc : Compact (Spaces.exec lim i files upath uargv ρ.spaces).2) :
    Shows (ρ.exec lim i files upath uargv) (Spaces.exec lim i files upath uargv ρ.spaces) := by
  unfold exec
  unfold Spaces.exec at hc ⊢
  simp only
  rw [show (ρ.spaces.proc i).sz = (ρ.table.proc i).sz from rfl,
    show (ρ.spaces.proc i).mem = ρ.space (ρ.table.proc i).mem from rfl] at hc ⊢
  cases lim with
  | some m => exact refl_shows _ h
  | none =>
    cases himg : (ρ.space (ρ.table.proc i).mem).execImage (ρ.table.proc i).sz files upath uargv with
    | none => exact refl_shows _ h
    | some q =>
      obtain ⟨sz, argc, sp, M⟩ := q
      rw [himg] at hc
      have hM := hc i
      simp only [ProcTable.set_self] at hM
      refine ⟨rfl, ?_, install_separate h fun _ _ he => by cases he⟩
      refine (install_spaces _ _ _ h fun _ _ he => by cases he).trans ?_
      refine congrArg (ρ.spaces.set i) (Proc.ext rfl rfl rfl rfl rfl ?_)
      funext u
      show (if 0 ≤ u ∧ u < npages sz then M u else none) = M u
      split_ifs with hu
      · rfl
      · exact (hM u (by omega)).symm

/-- The reference kernel shows the processes what the operations are for. -/
theorem step_shows {l : Label} (hc : Compact ρ.spaces) (hc' : Compact (Spaces.step lim l ρ.spaces).2) :
    Shows (ρ.step lim l) (Spaces.step lim l ρ.spaces) := by
  have hmap : ∀ {r : Int × RefKernel} {q : Int × Spaces}, Shows r q →
      Shows (Prod.map some id r) (Prod.map some id q) := fun hs =>
    ⟨congrArg some hs.outcome, hs.spaces, hs.separate⟩
  cases l with
  | kernelAlloc | kernelWrite a bs | pipeclose p => exact refl_shows _ h
  | userinit => exact userinit_shows h
  | fork i => exact hmap (fork_shows h hc)
  | exec i files upath uargv => exact hmap (exec_shows h hc')
  | sbrk i n => exact hmap (sbrk_shows h)
  | exit i status | fault i scause stval => exact exit_shows _ h
  | wait i addr => exact wait_shows h
  | store i va bs => exact store_shows h
  | copyout i dstva src => exact hmap (copyout_shows _ _ _ _ h).1
  | pipe i fdarray fds => exact hmap (pipe_shows h)

end

end RefKernel

end Xv6.Vm
