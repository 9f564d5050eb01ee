import Xv6.Base.FiniteSum
import Xv6.Base.Triple
import Xv6.Fs.Files

/-!
# Open files, descriptors and pipe ends

Slots of `ofile`, reference counts of files, the flags of pipe ends and the pages of pipes are four levels
that different functions update. `FileInv` ties them together; `adj` is the difference between the count of
a file and its slots while a call holds references in local variables, or owes some. One specification for
each function says how it changes `adj`; every system call leaves it at zero.
-/

set_option autoImplicit false

namespace Xv6.Fs

open Function Xv6.Base

/-! ## Slots -/

/-- Number of descriptors of a process for file `f`. -/
def descriptors (f : Fin NFILE) (p : Proc) : Nat := total (fun o => if o = some f then 1 else 0) p.ofile

/-- Number of descriptors for file `f`. -/
def Sys.slots (s : Sys) (f : Fin NFILE) : Nat := total (descriptors f) s.proc

theorem slots_setOfile (s : Sys) (i : Fin NPROC) (fd : Fin NOFILE) (x : Option (Fin NFILE)) (f : Fin NFILE) :
    (s.setOfile i fd x).slots f + (if (s.proc i).ofile fd = some f then 1 else 0) =
      s.slots f + (if x = some f then 1 else 0) := by
  have hproc : (s.setOfile i fd x).slots f + descriptors f (s.proc i) = s.slots f +
      descriptors f { s.proc i with ofile := update (s.proc i).ofile fd x } :=
    total_update (descriptors f) s.proc i _
  have hfile : descriptors f { s.proc i with ofile := update (s.proc i).ofile fd x } +
      (if (s.proc i).ofile fd = some f then 1 else 0) =
      descriptors f (s.proc i) + (if x = some f then 1 else 0) :=
    total_update (fun o => if o = some f then 1 else 0) (s.proc i).ofile fd x
  omega

/-- Slots when a process changes, but not its files. -/
theorem slots_setProc (s : Sys) (i : Fin NPROC) {p : Proc} (h : p.ofile = (s.proc i).ofile)
    (f : Fin NFILE) : (s.setProc i p).slots f = s.slots f := by
  refine total_congr fun j => ?_
  show descriptors f (update s.proc i p j) = _
  by_cases hj : j = i
  · subst hj
    rw [update_self, descriptors, descriptors, h]
  · rw [update_of_ne hj]

variable {f : Fin NFILE} {fd : Fin NOFILE} {i : Fin NPROC}

theorem slots_pos {s : Sys} (h : (s.proc i).ofile fd = some f) : 0 < s.slots f := by
  have hfile := le_total (fun o => if o = some f then 1 else 0) (s.proc i).ofile fd
  have hproc := le_total (descriptors f) s.proc i
  simp only [h, if_true] at hfile
  exact lt_of_lt_of_le Nat.one_pos (hfile.trans hproc)

theorem slots_pos_iff {s : Sys} : 0 < s.slots f ↔ ∃ i fd, (s.proc i).ofile fd = some f := by
  constructor
  · intro h
    obtain ⟨i, hi⟩ := exists_pos_of_total_pos h
    obtain ⟨fd, hfd⟩ := exists_pos_of_total_pos hi
    refine ⟨i, fd, ?_⟩
    by_contra hne
    rw [if_neg hne] at hfd
    exact absurd hfd (Nat.lt_irrefl 0)
  · rintro ⟨i, fd, h⟩
    exact slots_pos h

/-! ## Pipes -/

/-- The life of the page of a pipe: allocated with both ends open, an open end is closed, freed when both
are closed. -/
def followPipe (a : Nat) (p : Option Pipe) : PipeEvent → Option (Option Pipe)
  | .alloc b => if b = a then (if p = none then some (some ⟨true, true⟩) else none) else some p
  | .close b w =>
    if b = a then
      match p with
      | some q => if q.isOpen w then some (some (q.close w)) else none
      | none => none
    else some p
  | .free b => if b = a then (if p = some ⟨false, false⟩ then some none else none) else some p

/-- The pipe in page `a` after a sequence of events. -/
def pipeLife (a : Nat) (es : List PipeEvent) : Option (Option Pipe) := es.foldlM (followPipe a) none

theorem pipeLife_snoc (a : Nat) (es : List PipeEvent) (e : PipeEvent) :
    pipeLife a (es ++ [e]) = (pipeLife a es).bind fun p => followPipe a p e := by
  unfold pipeLife
  rw [List.foldlM_append]
  cases es.foldlM (followPipe a) none with
  | none => rfl
  | some p =>
    exact Option.bind_fun_some _

/-- Whether an end of the pipe in page `a` is open. -/
def endOpen (pipe : Nat → Option Pipe) (a : Nat) (w : Bool) : Bool :=
  match pipe a with
  | some p => p.isOpen w
  | none => false

/-- A file that is in use and is an end of the pipe in page `a`. -/
structure File.IsEnd (x : File) (a : Nat) (w : Bool) : Prop where
  ref : 0 < x.ref
  type : x.type = .pipe
  pipe : x.pipe = a
  writable : x.writable = w

/-! ## The invariant -/

/-- `live` are the processes that may have open files, `adj` the references of the current call. -/
structure FileInv (adj : Fin NFILE → Int) (live : Fin NPROC → Prop) (s : Sys) : Prop where
  ref : ∀ f, (s.file f).ref = s.slots f + adj f
  nonneg : ∀ f, 0 ≤ (s.file f).ref
  idle : ∀ f, (s.file f).ref = 0 → (s.file f).type = .none
  ends : ∀ a w, endOpen s.pipe a w = true ↔ ∃ f, (s.file f).IsEnd a w
  uniq : ∀ {f f' a w}, (s.file f).IsEnd a w → (s.file f').IsEnd a w → f = f'
  readable : ∀ f, (s.file f).type = .pipe → (s.file f).readable = !(s.file f).writable
  alive : ∀ a p, s.pipe a = some p → p.readopen = true ∨ p.writeopen = true
  mem : ∀ a, s.pipe a ≠ none → s.free a = false
  dead : ∀ i fd, ¬ live i → (s.proc i).ofile fd = none
  life : ∀ a, pipeLife a s.events = some (s.pipe a)

/-- One reference more, or less, for file `f`. -/
def shift (adj : Fin NFILE → Int) (f : Fin NFILE) (d : Int) : Fin NFILE → Int :=
  update adj f (adj f + d)

section

variable (adj : Fin NFILE → Int)

theorem shift_self (f : Fin NFILE) (d : Int) : shift adj f d f = adj f + d :=
  update_self ..

theorem shift_of_ne {f' : Fin NFILE} (h : f' ≠ f) (d : Int) :
    shift adj f d f' = adj f' := update_of_ne h ..

theorem shift_shift (f : Fin NFILE) (d d' : Int) : shift (shift adj f d) f d' = shift adj f (d + d') := by
  funext f'
  by_cases h : f' = f
  · subst h
    rw [shift_self, shift_self, shift_self]
    ring
  · rw [shift_of_ne _ h, shift_of_ne _ h, shift_of_ne _ h]

theorem shift_zero (f : Fin NFILE) : shift adj f 0 = adj := by
  unfold shift
  rw [add_zero, update_eq_self]

theorem shift_apply (f : Fin NFILE) (d : Int) (f' : Fin NFILE) :
    shift adj f d f' = adj f' + if f' = f then d else 0 := by
  by_cases h : f' = f
  · subst h
    rw [shift_self, if_pos rfl]
  · rw [shift_of_ne _ h, if_neg h, add_zero]

theorem shift_comm {f' : Fin NFILE} (h : f ≠ f') (d d' : Int) :
    shift (shift adj f d) f' d' = shift (shift adj f' d') f d := by
  unfold shift
  rw [update_of_ne h.symm, update_of_ne h, update_comm h]

end

/-- The panics that cannot happen: those that would mean a count or a pipe out of step. -/
def FileSafe (e : FilePanic) : Prop :=
  e ≠ .filedup ∧ e ≠ .fileclose ∧ e ≠ .danglingPipe ∧ e ≠ .doubleFree

namespace FileInv

variable {adj : Fin NFILE → Int} {live : Fin NPROC → Prop} {s : Sys}

section

variable (h : FileInv adj live s)
include h

theorem setFs (fs : State) : FileInv adj live (s.setFs fs) :=
  ⟨h.ref, h.nonneg, h.idle, h.ends, h.uniq, h.readable, h.alive, h.mem, h.dead, h.life⟩

theorem congr {adj' : Fin NFILE → Int} (hadj : ∀ f, adj' f = adj f) : FileInv adj' live s := by
  rwa [show adj' = adj from funext hadj]

/-- A file that is used in a local variable is in use. -/
theorem pos_of_adj (hf : 1 ≤ adj f) : 1 ≤ (s.file f).ref := by
  rw [h.ref]
  omega

theorem pos_of_slot (hslot : (s.proc i).ofile fd = some f) (hadj : 0 ≤ adj f) : 1 ≤ (s.file f).ref := by
  have := slots_pos hslot
  rw [h.ref]
  omega

/-- A file entry is replaced by one that is an end of the same pipes. -/
theorem replace {x : File} {d : Int} (hends : ∀ a w, x.IsEnd a w ↔ (s.file f).IsEnd a w)
    (href : x.ref = (s.file f).ref + d) (hnonneg : 0 ≤ x.ref) (hidle : x.ref = 0 → x.type = .none)
    (hread : x.type = .pipe → x.readable = !x.writable) : FileInv (shift adj f d) live (s.setFile f x) := by
  have hget : ∀ f', (s.setFile f x).file f' = if f' = f then x else s.file f' := fun f' =>
    update_apply ..
  have hend : ∀ f' a w, ((s.setFile f x).file f').IsEnd a w ↔ (s.file f').IsEnd a w := by
    intro f' a w
    rw [hget]
    by_cases hf : f' = f
    · subst hf
      rw [if_pos rfl]
      exact hends a w
    · rw [if_neg hf]
  refine ⟨fun f' => ?_, fun f' => ?_, fun f' => ?_, fun a w => ?_, fun hf hf' => ?_, fun f' => ?_,
    h.alive, h.mem, h.dead, h.life⟩
  · show _ = (s.slots f' : Int) + _
    rw [hget]
    by_cases hf : f' = f
    · subst hf
      rw [if_pos rfl, shift_self, href, h.ref]
      ring
    · rw [if_neg hf, shift_of_ne _ hf]
      exact h.ref f'
  · rw [hget]
    split_ifs
    · exact hnonneg
    · exact h.nonneg f'
  · rw [hget]
    split_ifs
    · exact hidle
    · exact h.idle f'
  · exact (h.ends a w).trans (exists_congr fun f' => (hend f' a w).symm)
  · exact h.uniq ((hend _ _ _).1 hf) ((hend _ _ _).1 hf')
  · rw [hget]
    split_ifs
    · exact hread
    · exact h.readable f'

/-- A file entry is replaced by one that is not an end of a pipe, in place of one that was not. -/
theorem setFile {x : File} {d : Int} (hold : (s.file f).type ≠ .pipe ∨ (s.file f).ref = 0) (hnew : x.type ≠ .pipe)
    (href : x.ref = (s.file f).ref + d) (hnonneg : 0 ≤ x.ref) (hidle : x.ref = 0 → x.type = .none) :
    FileInv (shift adj f d) live (s.setFile f x) := by
  refine h.replace (fun a w => ⟨fun he => absurd he.type hnew, fun he => ?_⟩) href hnonneg hidle fun htype =>
    absurd htype hnew
  rcases hold with hold | hold
  · exact absurd he.type hold
  · exact absurd hold he.ref.ne'

/-- Fields of a file that do not tell what it refers to. -/
theorem setOff (f : Fin NFILE) (off : UInt32) : FileInv adj live (s.setFile f { s.file f with off := off }) := by
  have hset := h.replace (f := f) (x := { s.file f with off := off }) (d := 0)
    (fun a w => ⟨fun he => ⟨he.1, he.2, he.3, he.4⟩, fun he => ⟨he.1, he.2, he.3, he.4⟩⟩)
    (add_zero _).symm (h.nonneg f) (h.idle f) (h.readable f)
  rwa [shift_zero] at hset

/-- The files of a process change by one slot, and the references of the call with them. -/
theorem setOfile (hi : live i) (fd : Fin NOFILE)
    (x : Option (Fin NFILE)) {adj' : Fin NFILE → Int} (hadj : ∀ f, adj' f + (if x = some f then 1 else 0) =
      adj f + (if (s.proc i).ofile fd = some f then 1 else 0)) : FileInv adj' live (s.setOfile i fd x) := by
  refine ⟨fun f => ?_, h.nonneg, h.idle, h.ends, h.uniq, h.readable, h.alive, h.mem, fun j fd' hj => ?_, h.life⟩
  · have hslots := slots_setOfile s i fd x f
    have href := h.ref f
    have hf := hadj f
    show (s.file f).ref = _
    split_ifs at hslots hf <;> omega
  · have hji : j ≠ i := by
      rintro rfl
      exact hj hi
    show (update s.proc i _ j).ofile fd' = none
    rw [update_of_ne hji]
    exact h.dead j fd' hj

/-- A file in a local variable goes to a descriptor. -/
theorem install (hi : live i) (hfree : (s.proc i).ofile fd = none) (f : Fin NFILE) :
    FileInv (shift adj f (-1)) live (s.setOfile i fd (some f)) := by
  refine h.setOfile hi fd (some f) fun f' => ?_
  rw [hfree]
  by_cases hf : f' = f
  · subst hf
    simp [shift_self]
  · have hne : f ≠ f' := fun heq => hf heq.symm
    simp [shift_of_ne _ hf, hne]

/-- A file goes from a descriptor to a local variable. -/
theorem remove (hi : live i)
    (hslot : (s.proc i).ofile fd = some f) : FileInv (shift adj f 1) live (s.setOfile i fd none) := by
  refine h.setOfile hi fd none fun f' => ?_
  rw [hslot]
  by_cases hf : f' = f
  · subst hf
    simp [shift_self]
  · have hne : f ≠ f' := fun heq => hf heq.symm
    simp [shift_of_ne _ hf, hne]

/-- A process changes, but not its files. -/
theorem setProc {p : Proc} (hfile : p.ofile = (s.proc i).ofile)
    {live' : Fin NPROC → Prop} (hlive : ∀ j fd, ¬ live' j → (s.proc j).ofile fd = none) :
    FileInv adj live' (s.setProc i p) := by
  refine ⟨fun f => ?_, h.nonneg, h.idle, h.ends, h.uniq, h.readable, h.alive, h.mem, fun j fd hj => ?_, h.life⟩
  · rw [slots_setProc s i hfile]
    exact h.ref f
  · show (update s.proc i p j).ofile fd = none
    by_cases hji : j = i
    · subst hji
      rw [update_self, hfile]
      exact hlive j fd hj
    · rw [update_of_ne hji]
      exact hlive j fd hj

/-- More processes may have files. -/
theorem mono {live' : Fin NPROC → Prop} (hlive : ∀ j, live j → live' j) : FileInv adj live' s :=
  { h with dead := fun i fd hi => h.dead i fd fun hl => hi (hlive i hl) }

/-- The count of a file that stays in use. -/
theorem setRef {d : Int} (hpos : 0 < (s.file f).ref) (hpos' : 0 < (s.file f).ref + d) :
    FileInv (shift adj f d) live (s.setFile f { s.file f with ref := (s.file f).ref + d }) := by
  refine h.replace (fun a w => ?_) rfl hpos'.le (fun hzero => ?_) (h.readable f)
  · exact ⟨fun he => ⟨hpos, he.2, he.3, he.4⟩, fun he => ⟨hpos', he.2, he.3, he.4⟩⟩
  · exact absurd hzero hpos'.ne'

end

/-! ## Ends of pipes -/

/-- The state after the last reference to an end of the pipe in page `a` is given up: `new` is the pipe with
this end closed, or nothing if that was the second end. -/
theorem closeEnd (h : FileInv adj live s) {a : Nat} {w : Bool} {p : Pipe}
    (hend : (s.file f).IsEnd a w) (hone : (s.file f).ref = 1) (hp : s.pipe a = some p) {t : Sys}
    (hproc : t.proc = s.proc) (hfile : t.file = update s.file f { s.file f with ref := 0, type := .none })
    {new : Option Pipe} (hpipe : t.pipe = update s.pipe a new)
    (hnew : (new = some (p.close w) ∧ ((p.close w).readopen = true ∨ (p.close w).writeopen = true) ∧
        t.free = s.free) ∨
      (new = none ∧ p.close w = ⟨false, false⟩ ∧ ∀ b, b ≠ a → t.free b = s.free b))
    (hlife : ∀ b, pipeLife b t.events = some (t.pipe b)) : FileInv (shift adj f (-1)) live t := by
  have hget : ∀ f', t.file f' = if f' = f then { s.file f with ref := 0, type := .none } else s.file f' := by
    intro f'
    rw [hfile]
    exact update_apply ..
  have hslots : ∀ f', t.slots f' = s.slots f' := fun f' => by
    unfold Sys.slots
    rw [hproc]
  -- the files that are ends of pipes, but for this one
  have hends : ∀ f' b v, (t.file f').IsEnd b v ↔ f' ≠ f ∧ (s.file f').IsEnd b v := by
    intro f' b v
    rw [hget]
    by_cases hf : f' = f
    · subst hf
      rw [if_pos rfl]
      constructor
      · intro he
        exact absurd he.ref (lt_irrefl _)
      · rintro ⟨hne, -⟩
        exact absurd rfl hne
    · rw [if_neg hf]
      exact ⟨fun he => ⟨hf, he⟩, fun he => he.2⟩
  have hflag : ∀ b v, endOpen t.pipe b v = if b = a ∧ v = w then false else endOpen s.pipe b v := by
    intro b v
    unfold endOpen
    rw [hpipe]
    by_cases hb : b = a
    · subst hb
      rw [update_self, hp]
      rcases hnew with ⟨rfl, -⟩ | ⟨rfl, hclosed, -⟩
      · cases v <;> cases w <;> simp [Pipe.isOpen, Pipe.close]
      · cases v <;> cases w <;> simp_all [Pipe.isOpen, Pipe.close]
    · rw [update_of_ne hb, if_neg fun hbw => hb hbw.1]
  refine ⟨fun f' => ?_, fun f' => ?_, fun f' => ?_, fun b v => ?_, fun {f1 f2 b v} h1 h2 => ?_,
    fun f' => ?_, fun b q hq => ?_, fun b hb => ?_, fun i fd hi => ?_, hlife⟩
  · rw [hget, hslots]
    by_cases hf : f' = f
    · subst hf
      rw [if_pos rfl, shift_self]
      have href := h.ref f'
      simp only
      omega
    · rw [if_neg hf, shift_of_ne _ hf]
      exact h.ref f'
  · rw [hget]
    split_ifs
    · exact le_refl _
    · exact h.nonneg f'
  · rw [hget]
    split_ifs
    · exact fun _ => rfl
    · exact h.idle f'
  · rw [hflag]
    by_cases hbv : b = a ∧ v = w
    · obtain ⟨rfl, rfl⟩ := hbv
      rw [if_pos ⟨rfl, rfl⟩]
      constructor
      · intro hfalse
        cases hfalse
      · rintro ⟨f', hf'⟩
        obtain ⟨hne, he⟩ := (hends f' b v).1 hf'
        exact absurd (h.uniq he hend) hne
    · rw [if_neg hbv, h.ends]
      refine exists_congr fun f' => ?_
      rw [hends]
      constructor
      · intro he
        refine ⟨?_, he⟩
        rintro rfl
        exact hbv ⟨he.pipe.symm.trans hend.pipe, he.writable.symm.trans hend.writable⟩
      · exact fun he => he.2
  · exact h.uniq ((hends _ _ _).1 h1).2 ((hends _ _ _).1 h2).2
  · rw [hget]
    split_ifs
    · intro htype
      cases htype
    · exact h.readable f'
  · rw [hpipe] at hq
    by_cases hb : b = a
    · subst hb
      rw [update_self] at hq
      rcases hnew with ⟨rfl, hsome, -⟩ | ⟨rfl, -⟩
      · cases hq
        exact hsome
      · cases hq
    · rw [update_of_ne hb] at hq
      exact h.alive b q hq
  · rw [hpipe] at hb
    by_cases hba : b = a
    · subst hba
      rcases hnew with ⟨rfl, -, hfree⟩ | ⟨rfl, -⟩
      · rw [hfree]
        exact h.mem b (by rw [hp]; simp)
      · exact absurd (update_self ..) hb
    · rw [update_of_ne hba] at hb
      rcases hnew with ⟨-, -, hfree⟩ | ⟨-, -, hfree⟩
      · rw [hfree]
        exact h.mem b hb
      · rw [hfree b hba]
        exact h.mem b hb
  · rw [hproc]
    exact h.dead i fd hi

end FileInv

end Xv6.Fs
