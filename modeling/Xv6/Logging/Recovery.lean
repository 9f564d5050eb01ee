import Xv6.Logging.Transaction

/-!
# Crashes and recovery

What `commit` and `recover_from_log` write to the disk, one block at a time. A crash may come between any two
writes, also during recovery, and loses all but the disk. An operation changes a block in the buffer cache only
(`log_write` pins the buffer there), and nobody but the log writes the blocks of the log.

`Store` says what the log is for: operations change what is current, a commit makes all of it durable, and after a
crash what is durable is current again. `log_recovers` says that every run agrees with it.
-/

set_option autoImplicit false

namespace Xv6.Logging

open Function Xv6.Base

/-- Where `commit` or `recover_from_log` is: in the loop of `write_log` or in that of `install_trans`. Outside both
it is `writeLog 0`. -/
inductive Phase where
  | writeLog (tail : Nat)
  | installTrans (tail : Nat)

/-- The log and the disk. `cache` is what `bread` finds, `head` what the header block on the disk says. -/
structure Machine (V : Type) where
  log : Log
  cache : Nat → V
  disk : Nat → V
  head : List Nat
  phase : Phase

/-- The block is not one of the log's. -/
def Log.Home (lg : Log) (b : Nat) : Prop := b < lg.start ∨ lg.start + lg.size ≤ b

variable {V : Type}

def Machine.bwrite (m : Machine V) (b : Nat) (v : V) (phase : Phase) : Machine V :=
  { m with cache := update m.cache b v, disk := update m.disk b v, phase := phase }

inductive Label (V : Type) where
  | write (b : Nat) (v : V)
  | commit
  | crash
  | other

/-- Steps with at most one write to the disk. A `begin_op` that sleeps changes nothing, and after a panic only a
crash could follow; neither is a step. -/
inductive Machine.Step : Machine V → Label V → Machine V → Prop
  | beginOp (m : Machine V) (lg : Log) : m.phase = .writeLog 0 → beginOp m.log = some lg →
      Step m .other { m with log := lg }
  | write (m : Machine V) (b : Nat) (v : V) (lg : Log) : m.log.Home b → logWrite m.log b = .ok lg →
      Step m (.write b v) { m with log := lg, cache := update m.cache b v }
  | endOp (m : Machine V) (commit : Bool) (lg : Log) : 0 < m.log.outstanding → endOp m.log = .ok (commit, lg) →
      Step m .other { m with log := lg }
  -- `commit`
  | writeLog (m : Machine V) (tail b : Nat) : m.log.committing = true → m.phase = .writeLog tail →
      m.log.block[tail]? = some b →
      Step m .other (m.bwrite (m.log.start + tail + 1) (m.cache b) (.writeLog (tail + 1)))
  | commit (m : Machine V) : m.log.committing = true → m.phase = .writeLog m.log.n → 0 < m.log.n →
      Step m .commit { m with head := m.log.block, phase := .installTrans 0 }
  -- `commit` and `recover_from_log`
  | installTrans (m : Machine V) (tail b : Nat) : m.phase = .installTrans tail → m.log.block[tail]? = some b →
      Step m .other (m.bwrite b (m.cache (m.log.start + tail + 1)) (.installTrans (tail + 1)))
  | clear (m : Machine V) : m.phase = .installTrans m.log.n →
      Step m .other { m with log := { m.log with block := [] }, head := [], phase := .writeLog 0 }
  -- the end of `end_op`
  | finish (m : Machine V) : m.log.committing = true → m.phase = .writeLog 0 → m.log.block = [] →
      Step m .other { m with log := { m.log with committing := false } }
  -- a reboot up to `read_head`
  | crash (m : Machine V) : Step m .crash { m with
      log := ⟨m.log.start, m.log.size, 0, false, m.head⟩, cache := m.disk, phase := .installTrans 0 }

/-- An empty log above a disk. -/
def Machine.init (start size : Nat) (disk : Nat → V) : Machine V :=
  ⟨⟨start, size, 0, false, []⟩, disk, disk, [], .writeLog 0⟩

/-- What the log is for. -/
structure Store (V : Type) where
  current : Nat → V
  durable : Nat → V

def Store.step (S : Store V) : Label V → Store V
  | .write b v => ⟨update S.current b v, S.durable⟩
  | .commit => ⟨S.current, S.current⟩
  | .crash => ⟨S.durable, S.durable⟩
  | .other => S

/-- The store after a run. -/
def store (disk : Nat → V) (ls : List (Label V)) : Store V := ls.foldl Store.step ⟨disk, disk⟩

/-- What a recovery makes of a block. -/
def Machine.view (m : Machine V) (b : Nat) : V :=
  if b ∈ m.head then m.disk (m.log.start + m.head.idxOf b + 1) else m.disk b

/-- A header that fits the log. -/
def Log.Fits (lg : Log) (bs : List Nat) : Prop := bs.Nodup ∧ (∀ b ∈ bs, lg.Home b) ∧ bs.length ≤ lg.size - 1

/-- How far the disk is in each phase. -/
def PhaseOk (m : Machine V) (S : Store V) : Phase → Prop
  | .writeLog tail => m.head = [] ∧ (∀ b, m.log.Home b → m.cache b = S.current b) ∧
      (tail ≠ 0 → m.log.committing = true) ∧
      (∀ b, m.log.Home b → b ∉ m.log.block → S.current b = S.durable b) ∧
      ∀ i b, i < tail → m.log.block[i]? = some b → m.disk (m.log.start + i + 1) = S.current b
  | .installTrans tail => m.head = m.log.block ∧ m.log.outstanding = 0 ∧
      (∀ b, m.log.Home b → S.current b = S.durable b ∧ (m.cache b = S.current b ∨ m.cache b = m.disk b)) ∧
      ∀ i b, i < tail → m.log.block[i]? = some b → m.cache b = S.current b ∧ m.disk b = S.durable b

/-- The machine agrees with the store. -/
structure Ok (m : Machine V) (S : Store V) : Prop where
  exclusive : m.log.committing = true → m.log.outstanding = 0
  fits : m.log.Fits m.log.block
  headFits : m.log.Fits m.head
  buf : ∀ b, ¬m.log.Home b → m.cache b = m.disk b
  durable : ∀ b, m.log.Home b → m.view b = S.durable b
  phase : PhaseOk m S m.phase

section Proofs

variable {m : Machine V} {S : Store V}

/-- The copies of a header's blocks are in the log. -/
theorem Log.Fits.slot {lg : Log} {bs : List Nat} (h : lg.Fits bs) {i : Nat} (hi : i < bs.length) {b : Nat}
    (hb : lg.Home b) : lg.start + i + 1 ≠ b := by
  have hroom := h.2.2
  unfold Log.Home at hb
  omega

section

variable (h : Ok m S)
include h

/-- A block and its buffer are written together. -/
theorem Ok.buf_bwrite (x : Nat) (v : V) (phase : Phase) (b : Nat) (hb : ¬m.log.Home b) :
    (m.bwrite x v phase).cache b = (m.bwrite x v phase).disk b := by
  simp only [Machine.bwrite, update_apply, h.buf b hb]

/-- While an operation is in progress neither a commit nor a recovery is. -/
theorem Ok.idle (ho : 0 < m.log.outstanding) : m.log.committing = false ∧ m.phase = .writeLog 0 := by
  have hcom : m.log.committing = false := by
    by_contra hc
    rw [h.exclusive (by simpa using hc)] at ho
    exact absurd ho (by decide)
  refine ⟨hcom, ?_⟩
  have hok := h.phase
  cases hp : m.phase with
  | writeLog tail =>
    rw [hp] at hok
    by_contra hne
    rw [hok.2.2.1 fun e => hne (by rw [e])] at hcom
    cases hcom
  | installTrans tail =>
    rw [hp] at hok
    rw [hok.2.1] at ho
    exact absurd ho (by decide)

/-- Between commits the counters have no effect on the disk. -/
theorem Ok.count (hphase : m.phase = .writeLog 0) {o : Int} {c : Bool} (hc : c = true → o = 0) :
    Ok { m with log := { m.log with outstanding := o, committing := c } } S := by
  have hok := h.phase
  rw [hphase] at hok
  obtain ⟨hhead, hcur, -, hclean, -⟩ := hok
  refine ⟨hc, h.fits, h.headFits, h.buf, h.durable, ?_⟩
  show PhaseOk _ S m.phase
  rw [hphase]
  exact ⟨hhead, hcur, fun hne => absurd rfl hne, hclean, nofun⟩

/-- An operation writes a block that is then in the header. -/
theorem Ok.write (hphase : m.phase = .writeLog 0) {b : Nat} (hb : m.log.Home b) (v : V) {bs : List Nat}
    (hfits : m.log.Fits bs) (hsub : ∀ x, x ∉ bs → x ≠ b ∧ x ∉ m.log.block) : Ok { m with
      log := { m.log with block := bs }, cache := update m.cache b v } ⟨update S.current b v, S.durable⟩ := by
  have hok := h.phase
  rw [hphase] at hok
  obtain ⟨hhead, hcur, -, hclean, -⟩ := hok
  refine ⟨h.exclusive, hfits, h.headFits, fun x hx => ?_, h.durable, ?_⟩
  · have hne : x ≠ b := fun e => hx (by rw [e]; exact hb)
    exact (update_of_ne hne ..).trans (h.buf x hx)
  · show PhaseOk _ _ m.phase
    rw [hphase]
    refine ⟨hhead, fun x hx => ?_, fun hne => absurd rfl hne, fun x hx hnot => ?_, nofun⟩
    · simp only [update_apply, hcur x hx]
    · exact (update_of_ne (hsub x hnot).1 ..).trans (hclean x hx (hsub x hnot).2)

/-- `write_log` copies a block to the log. -/
theorem Ok.writeLog (hcom : m.log.committing = true) {tail b : Nat} (hphase : m.phase = .writeLog tail)
    (hb : m.log.block[tail]? = some b) :
    Ok (m.bwrite (m.log.start + tail + 1) (m.cache b) (.writeLog (tail + 1))) S := by
  have hok := h.phase
  rw [hphase] at hok
  obtain ⟨hhead, hcur, -, hclean, hcopied⟩ := hok
  obtain ⟨hlt, -⟩ := List.getElem?_eq_some_iff.1 hb
  have hne : ∀ b, m.log.Home b → b ≠ m.log.start + tail + 1 := fun b hb => (h.fits.slot hlt hb).symm
  refine ⟨h.exclusive, h.fits, h.headFits, h.buf_bwrite _ _ _, fun b hb => ?_, hhead, fun b hb => ?_, fun _ => hcom,
    hclean, fun i b' hi hb' => ?_⟩
  · rw [← h.durable b hb]
    simp [Machine.view, Machine.bwrite, hhead, hne b hb]
  · rw [← hcur b hb]
    exact update_of_ne (hne b hb) ..
  · by_cases hit : i = tail
    · subst hit
      obtain rfl : b = b' := Option.some.inj (hb.symm.trans hb')
      rw [← hcur b (h.fits.2.1 b (List.mem_of_getElem? hb))]
      exact update_self ..
    · rw [← hcopied i b' (by omega) hb']
      exact update_of_ne (show m.log.start + i + 1 ≠ m.log.start + tail + 1 by omega) ..

/-- The first `write_head` commits. -/
theorem Ok.commit (hcom : m.log.committing = true) (hphase : m.phase = .writeLog m.log.n) :
    Ok { m with head := m.log.block, phase := .installTrans 0 } ⟨S.current, S.current⟩ := by
  have hok := h.phase
  rw [hphase] at hok
  obtain ⟨hhead, hcur, -, hclean, hcopied⟩ := hok
  refine ⟨h.exclusive, h.fits, h.fits, h.buf, fun b hb => ?_, rfl, h.exclusive hcom,
    fun b hb => ⟨rfl, .inl (hcur b hb)⟩, nofun⟩
  unfold Machine.view
  split_ifs with hmem
  · have hlt := List.idxOf_lt_length_of_mem hmem
    exact hcopied _ b hlt (by rw [List.getElem?_eq_getElem hlt, List.getElem_idxOf])
  · have hdur := h.durable b hb
    rw [Machine.view, hhead, if_neg List.not_mem_nil] at hdur
    exact hdur.trans (hclean b hb hmem).symm

/-- `install_trans` copies a block home. -/
theorem Ok.installTrans {tail b : Nat} (hphase : m.phase = .installTrans tail) (hb : m.log.block[tail]? = some b) :
    Ok (m.bwrite b (m.cache (m.log.start + tail + 1)) (.installTrans (tail + 1))) S := by
  have hok := h.phase
  rw [hphase] at hok
  obtain ⟨hhead, hout, hcur, hdone⟩ := hok
  obtain ⟨hlt, hget⟩ := List.getElem?_eq_some_iff.1 hb
  have hmem := List.mem_of_getElem? hb
  have hhome := h.fits.2.1 b hmem
  -- the log still has the block, as it was committed
  have hval : m.cache (m.log.start + tail + 1) = S.durable b := by
    rw [h.buf _ fun hlog => h.fits.slot hlt hlog rfl, ← h.durable b hhome, Machine.view, hhead, if_pos hmem, ← hget,
      h.fits.1.idxOf_getElem]
  refine ⟨h.exclusive, h.fits, h.headFits, h.buf_bwrite _ _ _, fun b' hb' => ?_, hhead, hout, fun b' hb' => ?_,
    fun i b' hi hb' => ?_⟩
  · rw [← h.durable b' hb']
    by_cases hmem' : b' ∈ m.head
    · have hne := h.headFits.slot (List.idxOf_lt_length_of_mem hmem') hhome
      simp [Machine.view, Machine.bwrite, hmem', hne]
    · have hne : b' ≠ b := fun e => hmem' (hhead ▸ e ▸ hmem)
      simp [Machine.view, Machine.bwrite, hmem', hne]
  · refine ⟨(hcur b' hb').1, ?_⟩
    by_cases he : b' = b
    · exact .inr (by simp [Machine.bwrite, he])
    · simpa [Machine.bwrite, he] using (hcur b' hb').2
  · by_cases he : b' = b
    · simp [Machine.bwrite, he, hval, (hcur b hhome).1]
    · have hit : i ≠ tail := by
        rintro rfl
        exact he (Option.some.inj (hb'.symm.trans hb))
      simpa [Machine.bwrite, he] using hdone i b' (by omega) hb'

/-- At the end of `install_trans` the disk has what is durable, and the log is no longer needed. -/
theorem Ok.clear (hphase : m.phase = .installTrans m.log.n) :
    Ok { m with log := { m.log with block := [] }, head := [], phase := .writeLog 0 } S := by
  have hok := h.phase
  rw [hphase] at hok
  obtain ⟨hhead, -, hcur, hdone⟩ := hok
  have hnil : m.log.Fits [] := ⟨List.nodup_nil, nofun, Nat.zero_le _⟩
  have hdisk : ∀ b, m.log.Home b → m.cache b = S.current b ∧ m.disk b = S.durable b := by
    intro b hb
    by_cases hmem : b ∈ m.log.block
    · have hlt := List.idxOf_lt_length_of_mem hmem
      exact hdone _ b hlt (by rw [List.getElem?_eq_getElem hlt, List.getElem_idxOf])
    · have hview := h.durable b hb
      rw [Machine.view, hhead, if_neg hmem] at hview
      obtain ⟨e, hcache⟩ := hcur b hb
      exact ⟨hcache.elim id fun hc => hc.trans (hview.trans e.symm), hview⟩
  exact ⟨h.exclusive, hnil, hnil, h.buf, fun b hb => (hdisk b hb).2, rfl, fun b hb => (hdisk b hb).1,
    fun hne => absurd rfl hne, fun b hb _ => (hcur b hb).1, nofun⟩

theorem Ok.crash : Ok { m with
    log := ⟨m.log.start, m.log.size, 0, false, m.head⟩, cache := m.disk, phase := .installTrans 0 }
    ⟨S.durable, S.durable⟩ :=
  ⟨nofun, h.headFits, h.headFits, fun _ _ => rfl, h.durable, rfl, rfl, fun _ _ => ⟨rfl, .inr rfl⟩, nofun⟩

theorem Ok.step {l : Label V} {t : Machine V} (hs : m.Step l t) : Ok t (S.step l) := by
  cases hs with
  | beginOp lg hphase hlg =>
    obtain ⟨hcom, -, rfl⟩ := beginOp_eq_some_iff.1 hlg
    refine h.count hphase fun hc => ?_
    rw [hcom] at hc
    cases hc
  | write b v lg hb hlg =>
    unfold logWrite at hlg
    split_ifs at hlg with hbig hout hmem
    · cases hlg
      exact h.write (h.idle (by omega)).2 hb v h.fits fun x hx => ⟨fun e => hx (e ▸ hmem), hx⟩
    · cases hlg
      obtain ⟨hnodup, hhome, -⟩ := h.fits
      refine h.write (h.idle (by omega)).2 hb v ⟨by simpa using hnodup.concat hmem, ?_, ?_⟩ fun x hx => ?_
      · simpa [or_imp, forall_and] using ⟨hhome, hb⟩
      · rw [List.length_append, List.length_singleton]
        unfold Log.n at hbig
        omega
      · simpa [and_comm] using hx
  | endOp c lg ho hlg =>
    obtain ⟨hcom, hphase⟩ := h.idle ho
    rcases endOp_cases m.log with ⟨-, e⟩ | ⟨-, -, e⟩ | ⟨-, -, e⟩
    · rw [e] at hlg
      cases hlg
    · rw [e] at hlg
      cases hlg
      exact h.count hphase fun _ => rfl
    · rw [e] at hlg
      cases hlg
      refine h.count hphase fun hc => ?_
      rw [hcom] at hc
      cases hc
  | writeLog tail b hcom hphase hb => exact h.writeLog hcom hphase hb
  | commit hcom hphase _ => exact h.commit hcom hphase
  | installTrans tail b hphase hb => exact h.installTrans hphase hb
  | clear hphase => exact h.clear hphase
  | finish _ hphase _ => exact h.count hphase nofun
  | crash => exact h.crash

end

/-- In every run, with crashes at any point: what a recovery would make of the disk is what the last commit left,
whole; the operations see all that is current; a commit happens only while no operation is in progress; and
once a commit or a recovery has come to its end, everything is durable and in its place on the disk. -/
theorem log_recovers {start size : Nat} {disk : Nat → V} {ls : List (Label V)}
    (h : Run Machine.Step (Machine.init start size disk) ls m) :
    (∀ b, m.log.Home b → m.view b = (store disk ls).durable b) ∧
    (0 < m.log.outstanding → ∀ b, m.log.Home b → m.cache b = (store disk ls).current b) ∧
    (m.phase = .writeLog 0 → m.log.block = [] → ∀ b, m.log.Home b →
      m.disk b = (store disk ls).durable b ∧ (store disk ls).durable b = (store disk ls).current b) ∧
    ∀ t, m.Step .commit t → m.log.outstanding = 0 := by
  have hok : Ok m (store disk ls) := by
    refine h.invariant (P := fun ls m => Ok m (store disk ls)) ?_ fun ls m l t hm hs => ?_
    · exact ⟨nofun, ⟨List.nodup_nil, nofun, Nat.zero_le _⟩, ⟨List.nodup_nil, nofun, Nat.zero_le _⟩, fun _ _ => rfl,
        fun _ _ => rfl, rfl, fun _ _ => rfl, fun hne => absurd rfl hne, fun _ _ _ => rfl, nofun⟩
    · rw [store, List.foldl_append]
      exact hm.step hs
  have hphase := hok.phase
  refine ⟨hok.durable, fun ho => ?_, fun hp hnil b hb => ?_, fun t ht => ?_⟩
  · rw [(hok.idle ho).2] at hphase
    exact hphase.2.1
  · rw [hp] at hphase
    obtain ⟨hhead, -, -, hclean, -⟩ := hphase
    have hdisk := hok.durable b hb
    rw [Machine.view, hhead, if_neg List.not_mem_nil] at hdisk
    exact ⟨hdisk, (hclean b hb (by rw [hnil]; exact List.not_mem_nil)).symm⟩
  · cases ht with
    | commit hcom _ _ => exact hok.exclusive hcom

/-- A block is written and committed, and the machine crashes before it is installed. -/
theorem log_recovers_committed :
    ∃ ls m, Run Machine.Step (Machine.init 2 30 fun _ => false) ls m ∧ Label.crash ∈ ls ∧ m.log.Home 40 ∧
      m.disk 40 = (store (fun _ => false) ls).durable 40 ∧ (store (fun _ => false) ls).durable 40 = true := by
  have h1 := Run.single (Machine.Step.beginOp (Machine.init 2 30 fun _ => false) ⟨2, 30, 1, false, []⟩ rfl rfl)
  have h2 := h1.snoc (.write _ 40 true ⟨2, 30, 1, false, [40]⟩ (.inr (by decide)) rfl)
  have h3 := h2.snoc (.endOp _ true ⟨2, 30, 0, true, [40]⟩ (by decide) rfl)
  have h4 := h3.snoc (.writeLog _ 0 40 rfl rfl rfl)
  have h5 := h4.snoc (.commit _ rfl rfl (by decide))
  have h6 := h5.snoc (.crash _)
  have h7 := h6.snoc (.installTrans _ 0 40 rfl rfl)
  have h8 := h7.snoc (.clear _ rfl)
  have hhome : (⟨2, 30, 0, false, []⟩ : Log).Home 40 := .inr (by decide)
  exact ⟨_, _, h8, by simp, hhome, ((log_recovers h8).2.2.1 rfl rfl 40 hhome).1, rfl⟩

end Proofs

end Xv6.Logging
