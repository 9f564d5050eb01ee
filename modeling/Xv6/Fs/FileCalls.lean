import Xv6.Fs.FileTable

/-!
# What the calls do to the file table

A specification for each function of `file.c`, for `pipealloc` and for each system call, in terms of
`FileInv`. The file system below takes no part: it does not touch the tables that the invariant is about.
The main theorem says that in every state between calls the four levels agree and that the page of a pipe is
freed once, when its second end is closed.
-/

set_option autoImplicit false

namespace Xv6.Fs

open Function Xv6.Base

section Rules

variable {α β : Type} {s : Sys} {Q : β → Sys → Prop}

/-- An operation of the file system leaves everything else. -/
theorem onFs_meets {E : FilePanic → Prop} {F : Panic → Prop} {x : FM α} {R : α → State → Prop} (hx : Meets F x s.fs R)
    (hE : ∀ e, F e → E (.fs e)) : Meets E (onFs x) s fun a t => ∃ fs, t = s.setFs fs ∧ R a fs := by
  cases hrun : x s.fs with
  | ok r =>
    have heq : onFs x s = .ok (r.1, s.setFs r.2) := by
      unfold onFs
      rw [hrun]
    exact .of_ok heq ⟨r.2, rfl, hx.post r.1 r.2 hrun⟩
  | error e =>
    have heq : onFs x s = .error (.fs e) := by
      unfold onFs
      rw [hrun]
    exact .of_error heq (hE e (hx.fails e hrun))

theorem onFs_step {x : FM α} {k : α → SM β} (h : ∀ a fs, Meets FileSafe (k a) (s.setFs fs) Q) :
    Meets FileSafe (onFs x >>= k) s Q := by
  refine .bind (onFs_meets (F := fun _ => True) (R := fun _ _ => True) ⟨fun _ _ _ => trivial, fun _ _ => trivial⟩
    fun e _ => by simp [FileSafe]) ?_
  rintro a t ⟨fs, rfl, -⟩
  exact h a fs

theorem onFs_last {x : FM β} (h : ∀ a fs, Q a (s.setFs fs)) : Meets FileSafe (onFs x) s Q := by
  have := onFs_step (x := x) (k := fun a => pure a) (s := s) (Q := Q) fun a fs => .pure (h a fs)
  rwa [bind_pure] at this

theorem deref_step {E : FilePanic → Prop} {o : Option (Fin NINODE)} {k : Fin NINODE → SM β} (hE : E .nullInode)
    (h : ∀ a, o = some a → Meets E (k a) s Q) : Meets E (derefInode o >>= k) s Q := by
  cases o with
  | none => exact .bind (R := fun _ _ => False) (.throw hE) fun _ _ h => h.elim
  | some a => exact .step rfl (h a rfl)

theorem derefInode_step {o : Option (Fin NINODE)} {k : Fin NINODE → SM β}
    (h : ∀ a, Meets FileSafe (k a) s Q) : Meets FileSafe (derefInode o >>= k) s Q :=
  deref_step (by simp [FileSafe]) fun a _ => h a

/-- A change of the offset of a file, or none. -/
theorem modifyOff_step {E : FilePanic → Prop} {c : Prop} [Decidable c] (f : Fin NFILE) (g : UInt32 → UInt32) {k : SM β}
    (hk : ∀ off, Meets E k (s.setFile f { s.file f with off := off }) Q) :
    Meets E (do
      (if c then modifyFile f fun x => { x with off := g x.off } else pure ())
      k) s Q := by
  by_cases hc : c
  · rw [if_pos hc]
    exact .step rfl (hk _)
  · rw [if_neg hc]
    have hsame := hk (s.file f).off
    rw [show s.setFile f { s.file f with off := (s.file f).off } = s by
      unfold Sys.setFile
      rw [update_eq_self]] at hsame
    exact .step rfl hsame

/-- `filealloc` takes a file without references. -/
theorem filealloc_cases (s : Sys) : ((∀ f, (s.file f).ref ≠ 0) ∧ filealloc s = .ok (none, s)) ∨
    ∃ f, (s.file f).ref = 0 ∧ filealloc s = .ok (some f, s.setFile f { s.file f with ref := 1 }) := by
  unfold filealloc
  cases hfind : (List.finRange NFILE).find? fun f => decide ((s.file f).ref = 0) with
  | none => exact .inl ⟨by simpa using hfind, rfl⟩
  | some f => exact .inr ⟨f, by simpa using List.find?_some hfind, rfl⟩

/-- `fdalloc` takes a free descriptor. -/
theorem fdalloc_cases (s : Sys) (i : Fin NPROC) (f : Fin NFILE) :
    ((∀ fd, (s.proc i).ofile fd ≠ none) ∧ fdalloc i f s = .ok (none, s)) ∨
      ∃ fd, (s.proc i).ofile fd = none ∧ fdalloc i f s = .ok (some fd, s.setOfile i fd (some f)) := by
  unfold fdalloc
  cases hfind : (List.finRange NOFILE).find? fun fd => decide ((s.proc i).ofile fd = none) with
  | none => exact .inl ⟨by simpa using hfind, rfl⟩
  | some fd => exact .inr ⟨fd, by simpa using List.find?_some hfind, rfl⟩

end Rules

/-! ## Lives of pipes -/

section Life

variable {pipe : Nat → Option Pipe} {es : List PipeEvent} {a : Nat}

/-- An event of the pipe in page `a`, after which the page holds `new`. -/
theorem life_event (h : ∀ b, pipeLife b es = some (pipe b)) {e : PipeEvent} {new : Option Pipe}
    (hnew : followPipe a (pipe a) e = some new) (hother : ∀ b, a ≠ b → followPipe b (pipe b) e = some (pipe b)) (b : Nat) :
    pipeLife b (es ++ [e]) = some (update pipe a new b) := by
  rw [pipeLife_snoc, h]
  by_cases hb : a = b
  · subst hb
    rw [update_self]
    exact hnew
  · rw [update_of_ne (Ne.symm hb)]
    exact hother b hb

end Life

/-! ## `file.c` -/

variable {f : Fin NFILE} {t : Sys}

section Functions

variable {adj : Fin NFILE → Int} {live : Fin NPROC → Prop} {s : Sys}

/-- What a function that works on files and pipes leaves. -/
structure KeepsProcs (s t : Sys) : Prop where
  proc : t.proc = s.proc
  init : t.init = s.init

theorem filealloc_meets (h : FileInv adj live s) :
    Meets FileSafe filealloc s fun r t => KeepsProcs s t ∧ t.pipe = s.pipe ∧ t.free = s.free ∧
      ((r = none ∧ FileInv adj live t) ∨ ∃ f, r = some f ∧ FileInv (shift adj f 1) live t ∧
        (t.file f).type = .none ∧ (t.file f).ref = 1 ∧ (s.file f).ref = 0 ∧ ∀ f', f' ≠ f → t.file f' = s.file f') := by
  rcases filealloc_cases s with ⟨-, heq⟩ | ⟨f, hzero, heq⟩
  · exact .of_ok heq ⟨⟨rfl, rfl⟩, rfl, rfl, .inl ⟨rfl, h⟩⟩
  · have hnone := h.idle f hzero
    have hself : (s.setFile f { s.file f with ref := 1 }).file f = { s.file f with ref := 1 } :=
      update_self ..
    refine .of_ok heq ⟨⟨rfl, rfl⟩, rfl, rfl, .inr ⟨f, rfl, ?_, ?_, ?_, hzero, fun f' hf =>
      update_of_ne hf ..⟩⟩
    · refine h.setFile (.inr hzero) ?_ ?_ ?_ ?_
      · rw [hnone]
        simp
      · simp [hzero]
      · simp
      · simp
    · rw [hself]
      exact hnone
    · rw [hself]

theorem filedup_meets (h : FileInv adj live s) (hf : 1 ≤ (s.file f).ref) :
    Meets FileSafe (filedup f) s fun _ t => FileInv (shift adj f 1) live t ∧ KeepsProcs s t := by
  refine .step rfl ?_
  rw [if_neg (by omega)]
  exact .of_ok rfl ⟨h.setRef (by omega) (by omega), rfl, rfl⟩

/-- The last reference to an end of a pipe. -/
theorem pipeclose_meets (h : FileInv adj live s) {a : Nat} {w : Bool}
    (hend : (s.file f).IsEnd a w) (hone : (s.file f).ref = 1) :
    Meets FileSafe (pipeclose a w) (s.setFile f { s.file f with ref := 0, type := .none })
      fun _ t => FileInv (shift adj f (-1)) live t ∧ KeepsProcs s t := by
  have hopen : endOpen s.pipe a w = true := (h.ends a w).2 ⟨f, hend⟩
  cases hp : s.pipe a with
  | none =>
    rw [endOpen, hp] at hopen
    cases hopen
  | some p =>
    have hpw : p.isOpen w = true := by
      rw [endOpen, hp] at hopen
      exact hopen
    have hused : s.free a = false := h.mem a (by rw [hp]; simp)
    have hlife := life_event h.life (show followPipe a (s.pipe a) (.close a w) = some (some (p.close w)) by
      simp [followPipe, hp, hpw]) fun b hb => if_neg hb
    by_cases hboth : (p.close w).readopen = false ∧ (p.close w).writeopen = false
    · have hclosed : p.close w = ⟨false, false⟩ := by
        obtain ⟨h1, h2⟩ := hboth
        cases hc : p.close w with
        | mk r w' =>
          rw [hc] at h1 h2
          simp only at h1 h2
          rw [h1, h2]
      refine .of_ok (a := ()) (t := (((((s.setFile f { s.file f with ref := 0, type := .none }).setPipe a
        (some (p.close w))).addEvent (.close a w)).setFree a true).setPipe a none).addEvent (.free a))
        ?_ ⟨h.closeEnd hend hone hp rfl rfl ?_ (.inr ⟨rfl, hclosed, fun b hb => ?_⟩) ?_, rfl, rfl⟩
      · have hpipe : (s.setFile f { s.file f with ref := 0, type := .none }).pipe a = some p := hp
        unfold pipeclose
        rw [hpipe]
        simp only
        rw [if_pos hboth]
        exact if_neg (by simp [Sys.addEvent, Sys.setPipe, Sys.setFile, hused])
      · exact update_idem ..
      · exact update_of_ne hb ..
      · exact life_event hlife (by simp [followPipe, hclosed]) fun b hb => if_neg hb
    · refine .of_ok (a := ()) (t := ((s.setFile f { s.file f with ref := 0, type := .none }).setPipe a
        (some (p.close w))).addEvent (.close a w)) ?_
        ⟨h.closeEnd hend hone hp rfl rfl rfl (.inl ⟨rfl, ?_, rfl⟩) hlife, rfl, rfl⟩
      · have hpipe : (s.setFile f { s.file f with ref := 0, type := .none }).pipe a = some p := hp
        unfold pipeclose
        rw [hpipe]
        exact if_neg hboth
      · cases hr : (p.close w).readopen with
        | true => exact .inl rfl
        | false =>
          cases hw' : (p.close w).writeopen with
          | true => exact .inr rfl
          | false => exact absurd ⟨hr, hw'⟩ hboth

theorem fileclose_meets (sb : Superblock) (h : FileInv adj live s) (hf : 1 ≤ (s.file f).ref) :
    Meets FileSafe (fileclose sb f) s fun _ t => FileInv (shift adj f (-1)) live t ∧ KeepsProcs s t := by
  refine .step rfl ?_
  rw [if_neg (by omega)]
  refine .ite (fun hmore => ?_) fun hlast => ?_
  · exact .of_ok rfl ⟨h.setRef (d := -1) (by omega) (by omega), rfl, rfl⟩
  · have hone : (s.file f).ref = 1 := by omega
    refine .step rfl ?_
    -- a file that is not an end of a pipe
    have hnot : (s.file f).type ≠ .pipe →
        FileInv (shift adj f (-1)) live (s.setFile f { s.file f with ref := 0, type := .none }) := by
      intro htype
      refine h.setFile (.inl htype) (by simp) ?_ (le_refl _) fun _ => rfl
      simp [hone]
    cases htype : (s.file f).type with
    | none => exact .pure ⟨hnot (by rw [htype]; simp), rfl, rfl⟩
    | pipe => exact pipeclose_meets h ⟨by omega, htype, rfl, rfl⟩ hone
    | inode | device =>
      exact derefInode_step fun _ => onFs_step fun _ _ => onFs_step fun _ _ => onFs_last fun _ _ =>
        ⟨(((hnot (by rw [htype]; simp)).setFs _).setFs _).setFs _, rfl, rfl⟩

theorem fdalloc_meets (h : FileInv adj live s) {i : Fin NPROC} (hi : live i) (f : Fin NFILE) :
    Meets FileSafe (fdalloc i f) s fun r t => t.file = s.file ∧
      ((r = none ∧ t = s) ∨ ∃ fd, r = some fd ∧ (s.proc i).ofile fd = none ∧
        t = s.setOfile i fd (some f) ∧ FileInv (shift adj f (-1)) live t) := by
  rcases fdalloc_cases s i f with ⟨-, heq⟩ | ⟨fd, hfree, heq⟩
  · exact .of_ok heq ⟨rfl, .inl ⟨rfl, rfl⟩⟩
  · exact .of_ok heq ⟨rfl, .inr ⟨fd, rfl, hfree, rfl, h.install hi hfree f⟩⟩

/-! ## Pipes -/

/-- A new pipe with its two files. -/
theorem FileInv.newPipe (h : FileInv adj live s) {f0 f1 : Fin NFILE} (hne : f0 ≠ f1) {a : Nat}
    (h0 : (s.file f0).ref = 1) (h1 : (s.file f1).ref = 1) (t0 : (s.file f0).type = .none)
    (t1 : (s.file f1).type = .none) (hp : s.pipe a = none) (hused : s.free a = false)
    (hproc : t.proc = s.proc) (hfree : t.free = s.free) (hfile : t.file = update (update s.file f0
      { s.file f0 with type := .pipe, readable := true, writable := false, pipe := a }) f1
      { s.file f1 with type := .pipe, readable := false, writable := true, pipe := a })
    (hpipe : t.pipe = update s.pipe a (some ⟨true, true⟩))
    (hlife : ∀ b, pipeLife b t.events = some (t.pipe b)) : FileInv adj live t := by
  have hget0 : t.file f0 = { s.file f0 with type := .pipe, readable := true, writable := false, pipe := a } := by
    rw [hfile, update_of_ne hne, update_self]
  have hget1 : t.file f1 = { s.file f1 with type := .pipe, readable := false, writable := true, pipe := a } := by
    rw [hfile, update_self]
  have hget : ∀ f, f ≠ f0 → f ≠ f1 → t.file f = s.file f := by
    intro f hf0 hf1
    rw [hfile, update_of_ne hf1, update_of_ne hf0]
  have href : ∀ f, (t.file f).ref = (s.file f).ref := by
    intro f
    by_cases hf0 : f = f0
    · rw [hf0, hget0]
    · by_cases hf1 : f = f1
      · rw [hf1, hget1]
      · rw [hget f hf0 hf1]
  have hslots : ∀ f, t.slots f = s.slots f := fun f => by
    unfold Sys.slots
    rw [hproc]
  -- nothing was an end of this pipe, and the new files were ends of none
  have hno : ∀ f w, ¬ (s.file f).IsEnd a w := by
    intro f w he
    have hopen := (h.ends a w).2 ⟨f, he⟩
    rw [endOpen, hp] at hopen
    cases hopen
  have hends : ∀ f b v, (t.file f).IsEnd b v ↔
      (s.file f).IsEnd b v ∨ (b = a ∧ ((f = f0 ∧ v = false) ∨ (f = f1 ∧ v = true))) := by
    intro f b v
    by_cases hf0 : f = f0
    · subst hf0
      rw [hget0]
      constructor
      · rintro ⟨-, -, rfl, rfl⟩
        exact .inr ⟨rfl, .inl ⟨rfl, rfl⟩⟩
      · rintro (he | ⟨rfl, ⟨-, rfl⟩ | ⟨heq, -⟩⟩)
        · exact absurd he.type (by rw [t0]; simp)
        · exact ⟨by simp [h0], rfl, rfl, rfl⟩
        · exact absurd heq hne
    · by_cases hf1 : f = f1
      · subst hf1
        rw [hget1]
        constructor
        · rintro ⟨-, -, rfl, rfl⟩
          exact .inr ⟨rfl, .inr ⟨rfl, rfl⟩⟩
        · rintro (he | ⟨rfl, ⟨heq, -⟩ | ⟨-, rfl⟩⟩)
          · exact absurd he.type (by rw [t1]; simp)
          · exact absurd heq hf0
          · exact ⟨by simp [h1], rfl, rfl, rfl⟩
      · rw [hget f hf0 hf1]
        constructor
        · exact .inl
        · rintro (he | ⟨-, ⟨heq, -⟩ | ⟨heq, -⟩⟩)
          · exact he
          · exact absurd heq hf0
          · exact absurd heq hf1
  refine ⟨fun f => ?_, fun f => ?_, fun f => ?_, fun b v => ?_, fun {f f' b v} hf hf' => ?_, fun f => ?_,
    fun b q hq => ?_, fun b hb => ?_, fun i fd hi => ?_, hlife⟩
  · rw [href, hslots]
    exact h.ref f
  · rw [href]
    exact h.nonneg f
  · intro hzero
    rw [href] at hzero
    have hf0 : f ≠ f0 := by
      rintro rfl
      omega
    have hf1 : f ≠ f1 := by
      rintro rfl
      omega
    rw [hget f hf0 hf1]
    exact h.idle f hzero
  · by_cases hb : b = a
    · subst hb
      rw [endOpen, hpipe, update_self]
      constructor
      · intro _
        cases v with
        | false => exact ⟨f0, (hends _ _ _).2 (.inr ⟨rfl, .inl ⟨rfl, rfl⟩⟩)⟩
        | true => exact ⟨f1, (hends _ _ _).2 (.inr ⟨rfl, .inr ⟨rfl, rfl⟩⟩)⟩
      · intro _
        cases v <;> rfl
    · have hflag : endOpen t.pipe b v = endOpen s.pipe b v := by
        unfold endOpen
        rw [hpipe, update_of_ne hb]
      rw [hflag, h.ends]
      refine exists_congr fun f => ?_
      rw [hends]
      exact ⟨.inl, fun he => he.resolve_right fun hba => hb hba.1⟩
  · rcases (hends _ _ _).1 hf with he | ⟨rfl, he⟩ <;> rcases (hends _ _ _).1 hf' with he' | ⟨hba, he'⟩
    · exact h.uniq he he'
    · exact absurd (hba ▸ he) (hno f v)
    · exact absurd he' (hno f' v)
    · rcases he with ⟨rfl, rfl⟩ | ⟨rfl, rfl⟩ <;> rcases he' with ⟨rfl, hv⟩ | ⟨rfl, hv⟩
      · rfl
      · cases hv
      · cases hv
      · rfl
  · by_cases hf0 : f = f0
    · rw [hf0, hget0]
      simp
    · by_cases hf1 : f = f1
      · rw [hf1, hget1]
        simp
      · rw [hget f hf0 hf1]
        exact h.readable f
  · rw [hpipe] at hq
    by_cases hb : b = a
    · subst hb
      rw [update_self] at hq
      cases hq
      exact .inl rfl
    · rw [update_of_ne hb] at hq
      exact h.alive b q hq
  · rw [hfree]
    by_cases hba : b = a
    · rw [hba]
      exact hused
    · rw [hpipe, update_of_ne hba] at hb
      exact h.mem b hb
  · rw [hproc]
    exact h.dead i fd hi

/-- `kalloc` takes a page that holds no pipe. -/
theorem kalloc_meets (h : FileInv adj live s) (page : Option Nat) :
    Meets FileSafe (kalloc page) s fun r t => FileInv adj live t ∧ KeepsProcs s t ∧ t.file = s.file ∧
      ∀ a, r = some a → t.pipe a = none ∧ t.free a = false := by
  cases page with
  | none => exact .of_ok rfl ⟨h, ⟨rfl, rfl⟩, rfl, fun a ha => by cases ha⟩
  | some a =>
    by_cases hfree : s.free a = true
    · have heq : kalloc (some a) s = .ok (some a, s.setFree a false) := if_pos hfree
      refine .of_ok heq ⟨?_, ⟨rfl, rfl⟩, rfl, ?_⟩
      · refine { h with mem := fun b hb => ?_ }
        show update s.free a false b = false
        by_cases hba : b = a
        · rw [hba, update_self]
        · rw [update_of_ne hba]
          exact h.mem b hb
      · intro b hb
        cases hb
        refine ⟨?_, update_self ..⟩
        by_contra hne
        rw [h.mem a hne] at hfree
        cases hfree
    · have heq : kalloc (some a) s = .ok (none, s) := if_neg hfree
      exact .of_ok heq ⟨h, ⟨rfl, rfl⟩, rfl, fun b hb => by cases hb⟩

theorem KeepsProcs.trans {u : Sys} (h : KeepsProcs s t) (h' : KeepsProcs t u) : KeepsProcs s u :=
  ⟨h'.proc.trans h.proc, h'.init.trans h.init⟩

/-- Two files that the call holds are given up. -/
theorem fileclose_two_meets {γ : Type} (sb : Superblock) {f0 f1 : Fin NFILE} (hne : f0 ≠ f1)
    (hadj : adj f0 = 0 ∧ adj f1 = 0) (h : FileInv (shift (shift adj f0 1) f1 1) live s) (x : γ) :
    Meets FileSafe (do
      fileclose sb f0
      fileclose sb f1
      pure x) s fun r t => r = x ∧ FileInv adj live t ∧ KeepsProcs s t := by
  refine .bind (fileclose_meets sb h (h.pos_of_adj ?_)) ?_
  · rw [shift_of_ne _ hne, shift_self, hadj.1]
    exact le_refl _
  rintro - t ⟨ht, hk⟩
  rw [← shift_comm _ hne, shift_shift, Int.add_right_neg, shift_zero] at ht
  refine .bind (fileclose_meets sb ht (ht.pos_of_adj ?_)) ?_
  · rw [shift_self, hadj.2]
    exact le_refl _
  rintro - u ⟨hu, hk'⟩
  rw [shift_shift, Int.add_right_neg, shift_zero] at hu
  exact .pure ⟨rfl, hu, hk.trans hk'⟩

theorem pipealloc_meets (sb : Superblock) (h : FileInv (fun _ => 0) live s) (page : Option Nat) :
    Meets FileSafe (pipealloc sb page) s fun r t => KeepsProcs s t ∧
      ((r = none ∧ FileInv (fun _ => 0) live t) ∨ ∃ f0 f1, r = some (f0, f1) ∧ f0 ≠ f1 ∧
        FileInv (shift (shift (fun _ => 0) f0 1) f1 1) live t) := by
  refine .bind (filealloc_meets h) ?_
  rintro r0 s0 ⟨hk0, -, -, ⟨rfl, hs0⟩ | ⟨f0, rfl, hs0, ht0, hr0, -, -⟩⟩
  · exact .pure ⟨hk0, .inl ⟨rfl, hs0⟩⟩
  refine .bind (filealloc_meets hs0) ?_
  rintro r1 s1 ⟨hk1, -, -, ⟨rfl, hs1⟩ | ⟨f1, rfl, hs1, ht1, hr1, hz1, hother⟩⟩
  · refine .bind (fileclose_meets sb hs1 (hs1.pos_of_adj (by rw [shift_self]; simp))) ?_
    rintro - t ⟨ht, hk⟩
    rw [shift_shift, Int.add_right_neg, shift_zero] at ht
    exact .pure ⟨(hk0.trans hk1).trans hk, .inl ⟨rfl, ht⟩⟩
  have hne : f0 ≠ f1 := by
    rintro rfl
    omega
  refine .bind (kalloc_meets hs1 page) ?_
  rintro r2 s2 ⟨hs2, hk2, hfile, hpage⟩
  cases r2 with
  | none =>
    refine (fileclose_two_meets sb hne ⟨rfl, rfl⟩ hs2 none).weaken ?_
    rintro r t ⟨rfl, ht, hk⟩
    exact ⟨((hk0.trans hk1).trans hk2).trans hk, .inl ⟨rfl, ht⟩⟩
  | some a =>
    obtain ⟨hp, hused⟩ := hpage a rfl
    have hf0 : s2.file f0 = s0.file f0 := by rw [hfile, hother f0 hne]
    have hinit : pipeInit f0 f1 a s2 = .ok ((), (((s2.setPipe a (some ⟨true, true⟩)).addEvent
        (.alloc a)).setFile f0 { s2.file f0 with
          type := .pipe, readable := true, writable := false, pipe := a }).setFile f1
        { s2.file f1 with type := .pipe, readable := false, writable := true, pipe := a }) := by
      show Except.ok ((), Sys.setFile _ f1 _) = _
      congr 3
      simp only [Sys.setFile, Sys.addEvent, Sys.setPipe, update_of_ne hne.symm]
    refine .step hinit (.pure ⟨((hk0.trans hk1).trans hk2).trans ⟨rfl, rfl⟩, .inr ⟨f0, f1, rfl, hne, ?_⟩⟩)
    refine hs2.newPipe hne ?_ ?_ ?_ ?_ hp hused rfl rfl rfl rfl
      (life_event hs2.life (by simp [followPipe, hp]) fun b hb => if_neg hb)
    · rw [hf0, hr0]
    · rw [hfile, hr1]
    · rw [hf0, ht0]
    · rw [hfile, ht1]

end Functions

/-! ## System calls -/

/-- Between calls: the processes that are alive have all the references to files. -/
def FilesOk (s : Sys) : Prop := FileInv (fun _ => 0) (fun i => (s.proc i).state = .live) s

section Calls

variable {s t : Sys} {i : Fin NPROC}

/-- The processes that are alive are those that were before. -/
theorem FilesOk.of_states (h : FileInv (fun _ => 0) (fun i => (s.proc i).state = .live) t)
    (hstates : ∀ j, (t.proc j).state = (s.proc j).state) : FilesOk t :=
  h.mono fun j hj => (hstates j).trans hj

theorem FilesOk.of_keeps (h : FileInv (fun _ => 0) (fun i => (s.proc i).state = .live) t)
    (hk : KeepsProcs s t) : FilesOk t := FilesOk.of_states h fun j => by rw [hk.proc]

theorem setOfile_state (s : Sys) (i : Fin NPROC) (fd : Fin NOFILE) (x : Option (Fin NFILE))
    (j : Fin NPROC) : ((s.setOfile i fd x).proc j).state = (s.proc j).state := by
  show (update s.proc i _ j).state = _
  by_cases hj : j = i
  · subst hj
    rw [update_self]
  · rw [update_of_ne hj]

theorem setOfile_ofile (s : Sys) (i : Fin NPROC) (fd : Fin NOFILE) (x : Option (Fin NFILE)) (fd' : Fin NOFILE) :
    ((s.setOfile i fd x).proc i).ofile fd' = if fd' = fd then x else (s.proc i).ofile fd' := by
  show (update s.proc i _ i).ofile fd' = _
  rw [update_self]
  exact update_apply ..

theorem argfd_step {α : Type} {E : FilePanic → Prop} {Q : α → Sys → Prop} {fd : Int}
    {k : Option (Fin NOFILE × Fin NFILE) → SM α} (hnone : Meets E (k none) s Q)
    (hsome : ∀ fd' f, (s.proc i).ofile fd' = some f → Meets E (k (some (fd', f))) s Q) :
    Meets E (argfd i fd >>= k) s Q := by
  by_cases hfd : 0 ≤ fd ∧ fd.toNat < NOFILE
  · cases hf : (s.proc i).ofile ⟨fd.toNat, hfd.2⟩ with
    | none =>
      refine .step ?_ hnone
      unfold argfd
      rw [dif_pos hfd, hf]
    | some f =>
      refine .step ?_ (hsome _ f hf)
      unfold argfd
      rw [dif_pos hfd, hf]
  · exact .step (dif_neg hfd) hnone

theorem sysDup_meets (h : FilesOk s) (hi : (s.proc i).state = .live) (fd : Int) :
    Meets FileSafe (sysDup i fd) s fun _ t => FilesOk t := by
  refine argfd_step (.pure h) fun _ f hslot => ?_
  have href := h.pos_of_slot hslot (le_refl _)
  refine .bind (fdalloc_meets h hi f) ?_
  rintro r' t ⟨hfile, ⟨rfl, rfl⟩ | ⟨fd', rfl, -, rfl, ht⟩⟩
  · exact .pure h
  · refine .bind (filedup_meets ht (by rw [hfile]; exact href)) ?_
    rintro - u ⟨hu, hk⟩
    rw [shift_shift, Int.add_left_neg, shift_zero] at hu
    refine .pure (FilesOk.of_states hu fun j => ?_)
    rw [hk.proc, setOfile_state]

theorem sysClose_meets (sb : Superblock) (h : FilesOk s) (hi : (s.proc i).state = .live) (fd : Int) :
    Meets FileSafe (sysClose sb i fd) s fun _ t => FilesOk t := by
  refine argfd_step (.pure h) fun _ f hslot => ?_
  have hr := h.remove hi hslot
  refine .step rfl (.bind (fileclose_meets sb hr (hr.pos_of_adj ?_)) ?_)
  · rw [shift_self]
    simp
  rintro - t ⟨ht, hk⟩
  rw [shift_shift, Int.add_right_neg, shift_zero] at ht
  refine .pure (FilesOk.of_states ht fun j => ?_)
  rw [hk.proc, setOfile_state]

section Inodes

variable {adj : Fin NFILE → Int} {live : Fin NPROC → Prop}

section

variable (sb : Superblock)

theorem fileread_meets (h : FileInv adj live s) (f : Fin NFILE)
    (copyout : Nat → Nat → Bool) (n : Int32) (other : Int) :
    Meets FileSafe (fileread sb f copyout n other) s fun _ t => FileInv adj live t ∧ KeepsProcs s t := by
  refine .step rfl (.ite (fun _ => .pure ⟨h, rfl, rfl⟩) fun _ => ?_)
  cases (s.file f).type with
  | none => exact .throw (by simp [FileSafe])
  | pipe => exact .pure ⟨h, rfl, rfl⟩
  | device => exact .ite (fun _ => .pure ⟨h, rfl, rfl⟩) fun _ => .pure ⟨h, rfl, rfl⟩
  | inode =>
    refine derefInode_step fun ip => onFs_step fun _ fs => onFs_step fun r fs' => ?_
    refine modifyOff_step f (· + UInt32.ofNat r.1.toNat) fun off => onFs_step fun _ fs => ?_
    exact .pure ⟨(((h.setFs _).setFs fs').setOff f off).setFs fs, rfl, rfl⟩

theorem filewriteChunk_meets (h : FileInv adj live s) (f : Fin NFILE) (ip : Fin NINODE)
    (M : Vm.UMem) (addr n1 : Nat) : Meets FileSafe (filewriteChunk sb f ip M addr n1) s fun _ t =>
      FileInv adj live t ∧ KeepsProcs s t := by
  refine onFs_step fun _ fs => onFs_step fun _ fs' => .step rfl (onFs_step fun r fs'' => ?_)
  refine modifyOff_step f (· + UInt32.ofNat r.toNat) fun off => onFs_step fun _ _ => onFs_step fun _ _ => ?_
  exact .pure ⟨((((h.setFs fs').setFs fs'').setOff f off).setFs _).setFs _, rfl, rfl⟩

theorem filewriteLoop_meets (f : Fin NFILE) (ip : Fin NINODE) (M : Vm.UMem)
    (addr n : Nat) (fuel : Nat) : ∀ {s : Sys} (i : Nat), FileInv adj live s →
      Meets FileSafe (filewriteLoop sb f ip M addr n fuel i) s fun _ t => FileInv adj live t ∧ KeepsProcs s t := by
  induction fuel with
  | zero => exact fun i h => .pure ⟨h, rfl, rfl⟩
  | succ fuel ih =>
    intro s i h
    refine .ite (fun _ => ?_) fun _ => .pure ⟨h, rfl, rfl⟩
    refine .bind (filewriteChunk_meets sb h f ip M _ _) ?_
    rintro r t ⟨ht, hk⟩
    refine .ite (fun _ => .pure ⟨ht, hk⟩) fun _ => ?_
    exact (ih _ ht).weaken fun _ u hu => ⟨hu.1, hk.trans hu.2⟩

theorem filewrite_meets (h : FileInv adj live s) (f : Fin NFILE) (M : Vm.UMem)
    (addr : Nat) (n : Int32) (other : Int) :
    Meets FileSafe (filewrite sb f M addr n other) s fun _ t => FileInv adj live t ∧ KeepsProcs s t := by
  refine .step rfl (.ite (fun _ => .pure ⟨h, rfl, rfl⟩) fun _ => ?_)
  cases (s.file f).type with
  | none => exact .throw (by simp [FileSafe])
  | pipe => exact .pure ⟨h, rfl, rfl⟩
  | device => exact .ite (fun _ => .pure ⟨h, rfl, rfl⟩) fun _ => .pure ⟨h, rfl, rfl⟩
  | inode =>
    refine derefInode_step fun ip => .bind (filewriteLoop_meets sb f ip M addr _ _ _ h) ?_
    rintro i t ht
    exact .ite (fun _ => .pure ht) fun _ => .pure ht

theorem filestat_meets (h : FileInv adj live s) (f : Fin NFILE) (copyout : Bool) :
    Meets FileSafe (filestat sb f copyout) s fun _ t => FileInv adj live t ∧ KeepsProcs s t := by
  refine .step rfl (.ite (fun _ => ?_) fun _ => .pure ⟨h, rfl, rfl⟩)
  refine derefInode_step fun ip => onFs_step fun _ fs => onFs_step fun _ fs' => ?_
  have ht := (h.setFs fs).setFs fs'
  exact .ite (fun _ => .pure ⟨ht, rfl, rfl⟩) fun _ => .pure ⟨ht, rfl, rfl⟩

end

end Inodes

theorem sysPipe_meets (sb : Superblock) (h : FilesOk s) (hi : (s.proc i).state = .live)
    (page : Option Nat) (copy0 copy1 : Bool) :
    Meets FileSafe (sysPipe sb i page copy0 copy1) s fun _ t => FilesOk t := by
  refine .bind (pipealloc_meets sb h page) ?_
  rintro r s1 ⟨hk1, ⟨rfl, hs1⟩ | ⟨rf, wf, rfl, hne, hs1⟩⟩
  · exact .pure (FilesOk.of_keeps hs1 hk1)
  -- the way out that closes both files
  have hbad : ∀ u, FileInv (shift (shift (fun _ => 0) rf 1) wf 1)
      (fun i => (s.proc i).state = .live) u → (∀ j, (u.proc j).state = (s.proc j).state) →
      Meets FileSafe (do
        fileclose sb rf
        fileclose sb wf
        pure (-1 : Int)) u fun _ t => FilesOk t := by
    intro u hu hst
    refine (fileclose_two_meets sb hne ⟨rfl, rfl⟩ hu (-1)).weaken ?_
    rintro r t ⟨-, ht, hk⟩
    exact FilesOk.of_states ht fun j => by rw [hk.proc, hst]
  have hst1 : ∀ j, (s1.proc j).state = (s.proc j).state := fun j => by rw [hk1.proc]
  refine .bind (fdalloc_meets hs1 hi rf) ?_
  rintro r0 s2 ⟨-, ⟨rfl, rfl⟩ | ⟨fd0, rfl, hfree0, rfl, hs2⟩⟩
  · exact hbad s2 hs1 hst1
  have hslot0 : ((s1.setOfile i fd0 (some rf)).proc i).ofile fd0 = some rf := by
    rw [setOfile_ofile, if_pos rfl]
  refine .bind (fdalloc_meets hs2 hi wf) ?_
  rintro r1 s3 ⟨-, ⟨rfl, rfl⟩ | ⟨fd1, rfl, hfree1, rfl, hs3⟩⟩
  · have hs3 := hs2.remove hi hslot0
    refine .step rfl (hbad _ (hs3.congr fun f => ?_) fun j => ?_)
    · simp only [shift_apply]
      split_ifs <;> rfl
    · rw [setOfile_state, setOfile_state, hst1]
  · have hfd : fd0 ≠ fd1 := by
      rintro rfl
      rw [hslot0] at hfree1
      cases hfree1
    refine .ite (fun _ => ?_) fun _ => .pure (FilesOk.of_states (hs3.congr fun f => ?_) fun j => ?_)
    · have hslot0' : (((s1.setOfile i fd0 (some rf)).setOfile i fd1 (some wf)).proc i).ofile fd0 =
          some rf := by rw [setOfile_ofile, if_neg hfd, hslot0]
      have hs4 := hs3.remove hi hslot0'
      have hslot1 : ((((s1.setOfile i fd0 (some rf)).setOfile i fd1 (some wf)).setOfile i fd0
          none).proc i).ofile fd1 = some wf := by
        rw [setOfile_ofile, if_neg hfd.symm, setOfile_ofile, if_pos rfl]
      have hs5 := hs4.remove hi hslot1
      refine .step rfl (.step rfl (hbad _ (hs5.congr fun f => ?_) fun j => ?_))
      · simp only [shift_apply]
        split_ifs <;> rfl
      · rw [setOfile_state, setOfile_state, setOfile_state, setOfile_state, hst1]
    · simp only [shift_apply]
      split_ifs <;> rfl
    · rw [setOfile_state, setOfile_state, hst1]

variable {live : Fin NPROC → Prop}

/-- A file that `sys_open` has filled in. -/
theorem FileInv.opened {adj : Fin NFILE → Int} (h : FileInv adj live s) (hone : (s.file f).ref = 1)
    (hnone : (s.file f).type = .none) (ip : Fin NINODE) (di : Dinode) (omode : UInt32) :
    FileInv adj live (s.setFile f ((s.file f).opened ip di omode)) := by
  have htype : ((s.file f).opened ip di omode).type ≠ .pipe ∧ ((s.file f).opened ip di omode).ref = (s.file f).ref := by
    unfold File.opened
    by_cases hdev : di.type = T_DEVICE
    · simp [hdev]
    · simp [hdev]
  have hset := h.setFile (f := f) (d := 0) (.inl (by rw [hnone]; simp)) htype.1
    (by rw [htype.2, add_zero]) (by rw [htype.2, hone]; simp) (by rw [htype.2, hone]; simp)
  rwa [shift_zero] at hset

theorem sysOpen_meets (sb : Superblock) (h : FilesOk s) (hi : (s.proc i).state = .live)
    (path : Option (List UInt8)) (omode : UInt32) :
    Meets FileSafe (sysOpen sb i path omode) s fun _ t => FilesOk t := by
  cases path with
  | none => exact .pure h
  | some path =>
    refine .step rfl (derefInode_step fun cwd => onFs_step fun r fs => ?_)
    cases r with
    | none => exact .pure (h.setFs fs)
    | some ip =>
      refine onFs_step fun e fs' => .ite (fun _ => ?_) fun _ => ?_
      · exact onFs_step fun _ _ => .pure (((h.setFs fs).setFs fs').setFs _)
      refine .bind (filealloc_meets ((h.setFs fs).setFs fs')) ?_
      rintro r s1 ⟨hk1, -, -, ⟨rfl, hs1⟩ | ⟨f, rfl, hs1, htype, hone, -, -⟩⟩
      · exact onFs_step fun _ _ => .pure (FilesOk.of_keeps (hs1.setFs _) ⟨hk1.proc, hk1.init⟩)
      have hst1 : ∀ j, (s1.proc j).state = (s.proc j).state := fun j => by
        rw [hk1.proc]
        rfl
      refine .bind (fdalloc_meets hs1 hi f) ?_
      rintro r s2 ⟨hfile, ⟨rfl, rfl⟩ | ⟨fd, rfl, -, rfl, hs2⟩⟩
      · refine .bind (fileclose_meets sb hs1 (by omega)) ?_
        rintro - s3 ⟨hs3, hk3⟩
        rw [shift_shift, Int.add_right_neg, shift_zero] at hs3
        refine onFs_step fun _ _ => .pure (FilesOk.of_states (hs3.setFs _) fun j => ?_)
        show (s3.proc j).state = _
        rw [hk3.proc]
        exact hst1 j
      · rw [shift_shift, Int.add_right_neg, shift_zero] at hs2
        have hs3 := hs2.opened (f := f) (by rw [hfile]; exact hone) (by rw [hfile]; exact htype) ip e.di omode
        refine .step rfl ?_
        have hlast : ∀ fs1, Meets FileSafe (do
            onFs (iunlock sb ip)
            onFs endOp
            pure (fd.val : Int)) (((s1.setOfile i fd (some f)).setFile f
              (((s1.setOfile i fd (some f)).file f).opened ip e.di omode)).setFs fs1)
            fun _ t => FilesOk t := by
          intro fs1
          refine onFs_step fun _ fs2 => onFs_step fun _ fs3 => .pure ?_
          refine FilesOk.of_states (((hs3.setFs fs1).setFs fs2).setFs fs3) fun j => ?_
          exact (setOfile_state s1 i fd (some f) j).trans (hst1 j)
        by_cases htrunc : omode &&& O_TRUNC ≠ 0 ∧ e.di.type = T_FILE
        · rw [if_pos htrunc]
          exact onFs_step fun _ fs1 => hlast fs1
        · rw [if_neg htrunc]
          exact .step rfl (hlast _)

/-! ## Processes -/

/-- The open files of process `i` become those of process `j` too. -/
theorem forkFiles_meets {j : Fin NPROC} (hj : live j) :
    ∀ (fds : List (Fin NOFILE)) {s : Sys}, fds.Nodup → FileInv (fun _ => 0) live s →
      (∀ fd ∈ fds, (s.proc j).ofile fd = none) →
      Meets FileSafe (forkFiles i j fds) s fun _ t => FileInv (fun _ => 0) live t ∧
        ∀ k, (t.proc k).state = (s.proc k).state := by
  intro fds
  induction fds with
  | nil => exact fun _ h _ => .pure ⟨h, fun _ => rfl⟩
  | cons fd fds ih =>
    intro s hnd h hfree
    obtain ⟨hnot, hnd⟩ := List.nodup_cons.1 hnd
    refine .step rfl ?_
    cases hslot : (s.proc i).ofile fd with
    | none => exact ih hnd h fun fd' hfd => hfree fd' (.tail _ hfd)
    | some f =>
      refine .bind (filedup_meets h (h.pos_of_slot hslot (le_refl _))) ?_
      rintro - t ⟨ht, hk⟩
      have hfd : (t.proc j).ofile fd = none := by
        rw [hk.proc]
        exact hfree fd (.head _)
      have hu := ht.install hj hfd f
      rw [shift_shift, Int.add_right_neg, shift_zero] at hu
      refine .step rfl ((ih hnd hu fun fd' hfd' => ?_).weaken ?_)
      · have hne : fd' ≠ fd := by
          rintro rfl
          exact hnot hfd'
        rw [setOfile_ofile, if_neg hne, hk.proc]
        exact hfree fd' (.tail _ hfd')
      · rintro - v ⟨hv, hst⟩
        refine ⟨hv, fun k => ?_⟩
        rw [hst, setOfile_state, hk.proc]

theorem sysFork_meets (h : FilesOk s) (mem : Bool) : Meets FileSafe (sysFork i mem) s fun _ t => FilesOk t := by
  refine .step rfl ?_
  cases hfind : (List.finRange NPROC).find? fun j => decide ((s.proc j).state = .unused) with
  | none => exact .pure h
  | some j =>
    have hj : (s.proc j).state = .unused := by simpa using List.find?_some hfind
    refine .ite (fun _ => ?_) fun _ => .pure h
    -- the child may have files from here on
    have hlive : FileInv (fun _ => 0) (fun k => (s.proc k).state = .live ∨ k = j) s :=
      FileInv.mono h fun k => .inl
    refine .bind (forkFiles_meets (.inr rfl) _ (List.nodup_finRange _) hlive
      fun fd _ => h.dead j fd (by rw [hj]; simp)) ?_
    rintro - t ⟨ht, hst⟩
    refine .step rfl (derefInode_step fun cwd => onFs_step fun _ fs => .step rfl
      (.step rfl (.pure ?_)))
    refine FileInv.setProc (ht.setFs fs) ?_ fun k fd hk => ?_
    · rfl
    refine ht.dead k fd ?_
    rintro (hlk | rfl)
    · refine hk ?_
      show (update t.proc j _ k).state = .live
      by_cases hkj : k = j
      · rw [hkj, update_self]
      · rw [update_of_ne hkj, hst]
        exact hlk
    · refine hk ?_
      show (update t.proc k _ k).state = .live
      rw [update_self]

/-- The open files of a process are closed. -/
theorem exitFiles_meets (sb : Superblock) (hi : live i) :
    ∀ (fds : List (Fin NOFILE)) {s : Sys}, FileInv (fun _ => 0) live s →
      Meets FileSafe (exitFiles sb i fds) s fun _ t => FileInv (fun _ => 0) live t ∧
        (∀ k, (t.proc k).state = (s.proc k).state) ∧
        ∀ fd, (fd ∈ fds ∨ (s.proc i).ofile fd = none) → (t.proc i).ofile fd = none := by
  intro fds
  induction fds with
  | nil => exact fun h => .pure ⟨h, fun _ => rfl, fun fd hfd => hfd.resolve_left (by simp)⟩
  | cons fd fds ih =>
    intro s h
    refine .step rfl ?_
    cases hslot : (s.proc i).ofile fd with
    | none =>
      refine (ih h).weaken ?_
      rintro - t ⟨ht, hst, hnone⟩
      refine ⟨ht, hst, fun fd' hfd' => hnone fd' ?_⟩
      rcases hfd' with hfd' | hfd'
      · rcases List.mem_cons.1 hfd' with rfl | hfd'
        · exact .inr hslot
        · exact .inl hfd'
      · exact .inr hfd'
    | some f =>
      refine .bind (fileclose_meets sb h (h.pos_of_slot hslot (le_refl _))) ?_
      rintro - t ⟨ht, hk⟩
      have hslot' : (t.proc i).ofile fd = some f := by rw [hk.proc, hslot]
      have hu := ht.remove hi hslot'
      rw [shift_shift, Int.add_left_neg, shift_zero] at hu
      refine .step rfl ((ih hu).weaken ?_)
      rintro - v ⟨hv, hst, hnone⟩
      refine ⟨hv, fun k => ?_, fun fd' hfd' => hnone fd' ?_⟩
      · rw [hst, setOfile_state, hk.proc]
      · rw [setOfile_ofile]
        by_cases heq : fd' = fd
        · exact .inr (if_pos heq)
        · rw [if_neg heq, hk.proc]
          rcases hfd' with hfd' | hfd'
          · exact .inl ((List.mem_cons.1 hfd').resolve_left heq)
          · exact .inr hfd'

theorem sysExit_meets (sb : Superblock) (h : FilesOk s) (hi : (s.proc i).state = .live) :
    Meets FileSafe (sysExit sb i) s fun _ t => FilesOk t := by
  refine .step rfl (.ite (fun _ => .throw (by simp [FileSafe])) fun _ => ?_)
  refine .bind (exitFiles_meets sb hi _ h) ?_
  rintro - t ⟨ht, hst, hnone⟩
  refine .step rfl (derefInode_step fun cwd => onFs_step fun _ fs1 => onFs_step fun _ fs2 =>
    onFs_step fun _ fs3 => .step rfl (.step rfl (.pure ?_)))
  refine FileInv.setProc (((ht.setFs fs1).setFs fs2).setFs fs3) ?_ fun k fd hk => ?_
  · rfl
  by_cases hki : k = i
  · rw [hki]
    exact hnone fd (.inl (List.mem_finRange fd))
  · refine ht.dead k fd fun hlive => hk ?_
    show (update t.proc i _ k).state = .live
    rw [update_of_ne hki, hst]
    exact hlive

theorem sysChdirProc_meets (sb : Superblock) (h : FilesOk s) (path : Option (List UInt8)) :
    Meets FileSafe (sysChdirProc sb i path) s fun _ t => FilesOk t := by
  refine .step rfl (derefInode_step fun cwd => onFs_step fun r fs => ?_)
  cases r with
  | none => exact .pure (h.setFs fs)
  | some ip =>
    refine .step rfl (.pure (FileInv.setProc (FileInv.setFs h fs) ?_ fun k fd hk =>
      h.dead k fd fun hlive => hk ?_))
    · rfl
    show (update s.proc i _ k).state = .live
    by_cases hki : k = i
    · rw [hki, update_self]
      exact hki ▸ hlive
    · rw [update_of_ne hki]
      exact hlive

theorem withCwd_meets (h : FilesOk s) (x : Fin NINODE → FM Int) :
    Meets FileSafe (withCwd i x) s fun _ t => FilesOk t := by
  exact .step rfl (derefInode_step fun cwd => onFs_last fun _ fs => h.setFs fs)

/-- Every system call keeps the tables in step. -/
theorem call_meets (sb : Superblock) (h : FilesOk s) (hi : (s.proc i).state = .live) (c : Call) :
    Meets FileSafe (c.run sb i) s fun _ t => FilesOk t := by
  cases c with
  | openFile path omode => exact sysOpen_meets sb h hi path omode
  | dup fd => exact sysDup_meets h hi fd
  | close fd => exact sysClose_meets sb h hi fd
  | read fd copyout n other =>
    refine argfd_step (.pure h) fun _ f _ => ?_
    exact (fileread_meets sb h f copyout n other).weaken fun _ t ht => FilesOk.of_keeps ht.1 ht.2
  | write fd M addr n other =>
    refine argfd_step (.pure h) fun _ f _ => ?_
    exact (filewrite_meets sb h f M addr n other).weaken fun _ t ht => FilesOk.of_keeps ht.1 ht.2
  | fstat fd copyout =>
    refine argfd_step (.pure h) fun _ f _ => ?_
    exact (filestat_meets sb h f copyout).weaken fun _ t ht => FilesOk.of_keeps ht.1 ht.2
  | pipe page copy0 copy1 => exact sysPipe_meets sb h hi page copy0 copy1
  | fork mem => exact sysFork_meets h mem
  | exit => exact sysExit_meets sb h hi
  | chdir path => exact sysChdirProc_meets sb h path
  | mkdir path | mknod path major minor => exact withCwd_meets h _
  | link old new =>
    cases old with
    | none => exact .pure h
    | some old =>
      cases new with
      | none => exact .pure h
      | some new => exact withCwd_meets h _
  | unlink path | exec path reads =>
    cases path with
    | none => exact .pure h
    | some path => exact withCwd_meets h _

end Calls

/-! ## Runs -/

/-- The tables when the first process starts: no file is in use. -/
structure Sys.NoFiles (s : Sys) : Prop where
  file : ∀ f, (s.file f).ref = 0 ∧ (s.file f).type = .none
  proc : ∀ i fd, (s.proc i).ofile fd = none
  pipe : ∀ a, s.pipe a = none
  events : s.events = []

variable {s : Sys}

theorem Sys.NoFiles.ok (h : s.NoFiles) : FilesOk s := by
  have hslots : ∀ f, s.slots f = 0 := by
    intro f
    by_contra hne
    obtain ⟨i, fd, hslot⟩ := slots_pos_iff.1 (Nat.pos_of_ne_zero hne)
    rw [h.proc] at hslot
    cases hslot
  have hend : ∀ f a w, ¬ (s.file f).IsEnd a w := by
    intro f a w he
    have hpos := he.ref
    rw [(h.file f).1] at hpos
    exact lt_irrefl _ hpos
  refine ⟨fun f => ?_, fun f => ?_, fun f _ => (h.file f).2, fun a w => ?_, fun hf => absurd hf (hend _ _ _),
    fun f hf => ?_, fun a p hp => ?_, fun a hp => absurd (h.pipe a) hp, fun i fd _ => h.proc i fd,
    fun a => ?_⟩
  · rw [(h.file f).1, hslots]
    rfl
  · rw [(h.file f).1]
  · rw [endOpen, h.pipe]
    constructor
    · intro hfalse
      cases hfalse
    · rintro ⟨f, hf⟩
      exact absurd hf (hend f a w)
  · rw [(h.file f).2] at hf
    cases hf
  · rw [h.pipe] at hp
    cases hp
  · rw [h.events, h.pipe]
    rfl

theorem step_filesOk {sb : Superblock} {l : Label} (h : FilesOk s) (hstep : Step sb s l t) : FilesOk t := by
  cases hstep with
  | call t i c r hi hrun => exact (call_meets sb h hi c).post r t hrun
  | reap j hj =>
    refine FileInv.setProc h ?_ fun k fd hk => h.dead k fd fun hlive => hk ?_
    · rfl
    have hkj : k ≠ j := by
      rintro rfl
      rw [hlive] at hj
      cases hj
    show (update s.proc j _ k).state = .live
    rw [update_of_ne hkj]
    exact hlive
  | memory free hfree => exact { h with mem := hfree }

/-- The descriptors of live processes that refer to file `f`. -/
def Sys.openSlots (s : Sys) (f : Fin NFILE) : Finset (Fin NPROC × Fin NOFILE) :=
  Finset.univ.filter fun x => (s.proc x.1).state = .live ∧ (s.proc x.1).ofile x.2 = some f

theorem FilesOk.slots_eq (h : FilesOk s) (f : Fin NFILE) : s.slots f = (s.openSlots f).card := by
  have hlive : s.openSlots f = Finset.univ.filter fun x => (s.proc x.1).ofile x.2 = some f := by
    refine Finset.filter_congr fun x _ => ⟨fun hx => hx.2, fun hx => ⟨?_, hx⟩⟩
    by_contra hdead
    rw [h.dead x.1 x.2 hdead] at hx
    cases hx
  rw [hlive, Finset.card_filter, Fintype.sum_prod_type]
  rfl

/-- A slot of a live process refers to the end `w` of the pipe in page `a`: a file for reading only, or for
writing only. -/
def Sys.RefersToEnd (s : Sys) (a : Nat) (w : Bool) : Prop :=
  ∃ f, (s.openSlots f).Nonempty ∧ (s.file f).type = .pipe ∧ (s.file f).pipe = a ∧
    (s.file f).writable = w ∧ (s.file f).readable = !w

theorem FilesOk.endOpen_iff (h : FilesOk s) (a : Nat) (w : Bool) : endOpen s.pipe a w = true ↔ s.RefersToEnd a w := by
  have hpos : ∀ f, 0 < (s.file f).ref ↔ (s.openSlots f).Nonempty := by
    intro f
    rw [← Finset.card_pos, ← h.slots_eq, h.ref, add_zero, Int.natCast_pos]
  rw [h.ends]
  refine exists_congr fun f => ?_
  constructor
  · rintro ⟨hr, ht, hp, hw⟩
    refine ⟨(hpos f).1 hr, ht, hp, hw, ?_⟩
    rw [h.readable f ht, hw]
  · rintro ⟨hr, ht, hp, hw, -⟩
    exact ⟨(hpos f).2 hr, ht, hp, hw⟩

/-- After any sequence of system calls: the count of a file is the number of descriptors of live processes
for it; a file that is not in use has type `FD_NONE`; an end of a pipe is open just if some descriptor refers
to it; the page of a pipe has been allocated and freed in turns, each time freed when both ends were
closed, and is kept as long as one is open; and no call fails because a count or a pipe is out of step. -/
theorem file_table_agrees (sb : Superblock) {s₀ s : Sys} {ls : List Label} (h₀ : s₀.NoFiles)
    (hrun : Run (Step sb) s₀ ls s) :
    (∀ f, (s.file f).ref = (s.openSlots f).card) ∧
      (∀ f, (s.file f).ref = 0 → (s.file f).type = .none) ∧
      (∀ a p, s.pipe a = some p → (p.readopen = true ↔ s.RefersToEnd a false) ∧
        (p.writeopen = true ↔ s.RefersToEnd a true) ∧ (p.readopen = true ∨ p.writeopen = true)) ∧
      (∀ a, pipeLife a s.events = some (s.pipe a)) ∧
      ∀ i c e, (s.proc i).state = .live → Call.run sb i c s = .error e → FileSafe e := by
  have h : FilesOk s := hrun.invariant (P := fun _ s => FilesOk s) h₀.ok fun _ _ _ _ h hstep =>
    step_filesOk h hstep
  refine ⟨fun f => ?_, h.idle, fun a p hp => ⟨?_, ?_, h.alive a p hp⟩, h.life, fun i c e hi he =>
    (call_meets sb h hi c).fails e he⟩
  · rw [h.ref, add_zero, h.slots_eq]
  · rw [← h.endOpen_iff, endOpen, hp]
    rfl
  · rw [← h.endOpen_iff, endOpen, hp]
    rfl

/-- A system with one process, which has no open file, and with one free page. -/
def oneProcess : Sys where
  fs := ⟨fun _ => 0, fun _ => 0, ⟨[], 0, []⟩, fun _ => ⟨0, 0, 0, false, false, .zero⟩, []⟩
  file := fun _ => ⟨.none, 0, false, false, 0, none, 0, 0⟩
  proc := fun i => ⟨if i.val = 0 then .live else .unused, fun _ => none, none⟩
  pipe := fun _ => none
  free := fun a => decide (a = 7)
  init := ⟨0, by decide⟩
  events := []

theorem file_table_agrees_pipe :
    ∃ s, Run (Step ⟨0, 0, 0, 0, 0, 0, 0, by decide⟩) oneProcess [.call oneProcess.init (.pipe (some 7) true true) 0,
      .call oneProcess.init (.close 1) 0] s ∧ s.pipe 7 = some ⟨true, false⟩ ∧
      ∀ f, (s.file f).ref = (s.openSlots f).card := by
  have hstart : oneProcess.NoFiles := ⟨fun _ => ⟨rfl, rfl⟩, fun _ _ => rfl, fun _ => rfl, rfl⟩
  have h1 : Run (Step ⟨0, 0, 0, 0, 0, 0, 0, by decide⟩) oneProcess _ _ :=
    Run.single (Step.call oneProcess _ oneProcess.init (.pipe (some 7) true true) 0 rfl rfl)
  have h2 := h1.snoc (Step.call _ _ oneProcess.init (.close 1) 0 rfl rfl)
  exact ⟨_, h2, rfl, (file_table_agrees _ hstart h2).1⟩

end Xv6.Fs
