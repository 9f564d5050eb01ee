import Xv6.Console.Model

/-!
# The console is a line editor

`Editor` says what the console is for, on lists: characters are appended to a line, erased from its
end, and the line is committed by a newline, by control-D, or when there is no more room; readers take
committed bytes in order. The ring with its three counters shows the state of such an editor
(`Shows`), and keeps doing so whatever is typed and read, also when the counters wrap.
-/

set_option autoImplicit false

namespace Xv6.Console

open Xv6.Base

/-- A line editor: all the bytes committed so far, how many of them have been taken, and the line. -/
structure Editor where
  committed : List UInt8
  taken : Nat
  line : List UInt8

namespace Editor

/-- Committed bytes that no reader has taken. -/
def unread (ed : Editor) : List UInt8 := ed.committed.drop ed.taken

/-- Append to the line. -/
def append (ed : Editor) (c : UInt8) : Editor :=
  if c = chr '\n' ∨ c = C 'D' ∨ ed.unread.length + ed.line.length + 1 = INPUT_BUF_SIZE then
    { ed with committed := ed.committed ++ (ed.line ++ [c]), line := [] }
  else { ed with line := ed.line ++ [c] }

/-- A character is typed. When the buffer is full it is ignored. -/
def type (ed : Editor) (c : UInt8) : Editor :=
  if c = C 'P' then ed
  else if c = C 'U' then { ed with line := [] }
  else if c = C 'H' ∨ c = 0x7f then { ed with line := ed.line.dropLast }
  else if c ≠ 0 ∧ ed.unread.length + ed.line.length < INPUT_BUF_SIZE then
    ed.append (if c = chr '\r' then chr '\n' else c)
  else ed

/-- The editor after a step of the console. -/
def feed (ed : Editor) : Label → Editor
  | .typed c => ed.type c
  | .read _ (some _) _ => { ed with taken := ed.taken + 1 }
  | _ => ed

/-- The editor after a run. -/
def run (ls : List Label) : Editor := ls.foldl feed ⟨[], 0, []⟩

end Editor

/-- The bytes that readers have removed in a run, in order. -/
def removed (ls : List Label) : List UInt8 :=
  ls.filterMap fun
    | .read _ taken _ => taken
    | _ => none

/-! ## The ring -/

/-- The ring shows the editor: from `r` to `w` what has been committed and not taken, from `w` to `e`
the line, which has no newline and no control-D in it. -/
structure Shows (cons : Cons) (ed : Editor) : Prop where
  ring : Ring.Holds cons.buf cons.r cons.e (ed.unread ++ ed.line)
  write : cons.w = cons.r + UInt32.ofNat ed.unread.length
  taken : ed.taken ≤ ed.committed.length
  plain : ∀ b ∈ ed.line, b ≠ chr '\n' ∧ b ≠ C 'D'

namespace Shows

variable {cons : Cons} {ed : Editor}

section

variable (h : Shows cons ed)
include h

theorem length_le : ed.unread.length + ed.line.length ≤ INPUT_BUF_SIZE := by
  have hle := h.ring.length_le
  rwa [List.length_append] at hle

theorem pending_e : Ring.pending cons.r cons.e = ed.unread.length + ed.line.length := by
  rw [← h.ring.length_eq, List.length_append]

theorem pending_w : Ring.pending cons.r cons.w = ed.unread.length := by
  have hle := h.length_le
  have e : cons.w - cons.r = UInt32.ofNat ed.unread.length := by
    rw [h.write]
    grind
  rw [Ring.pending, e, UInt32.toNat_ofNat', Nat.mod_eq_of_lt]
  unfold INPUT_BUF_SIZE at hle
  omega

/-- There is nothing to read just if nothing committed is left. -/
theorem r_eq_w_iff : cons.r = cons.w ↔ ed.unread = [] := by
  rw [← Ring.pending_eq_zero_iff, h.pending_w, List.length_eq_zero_iff]

/-- There is nothing to erase just if the line is empty. -/
theorem e_eq_w_iff : cons.e = cons.w ↔ ed.line = [] := by
  constructor
  · intro heq
    have hlen := h.pending_e
    rw [heq, h.pending_w] at hlen
    exact List.length_eq_zero_iff.1 (by omega)
  · intro hnil
    have hlen := h.pending_e
    rw [hnil, List.length_nil, Nat.add_zero] at hlen
    rw [← Ring.add_pending cons.r cons.e, hlen, ← h.write]

/-- The line can be read off the ring. -/
theorem line_at {k : Nat} (hk : k < ed.line.length) :
    cons.buf (Ring.cell INPUT_BUF_SIZE (cons.w + UInt32.ofNat k)) = ed.line[k] := by
  have hget := h.ring.get (ed.unread.length + k) (by rw [List.length_append]; omega)
  rw [List.getElem_append_right (by omega)] at hget
  have e : cons.w + UInt32.ofNat k = cons.r + UInt32.ofNat (ed.unread.length + k) := by
    rw [h.write, UInt32.ofNat_add]
    grind
  rw [e, hget]
  simp

theorem pending_line : Ring.pending cons.w cons.e = ed.line.length := by
  have hle := h.length_le
  have e : cons.e - cons.w = UInt32.ofNat ed.line.length := by
    rw [← Ring.add_pending cons.r cons.e, h.pending_e, h.write, UInt32.ofNat_add]
    grind
  rw [Ring.pending, e, UInt32.toNat_ofNat', Nat.mod_eq_of_lt]
  unfold INPUT_BUF_SIZE at hle
  omega

end

/-! ### Typing -/

/-- The last character of the line is erased. -/
theorem erase (h : Shows cons ed) {line : List UInt8} {b : UInt8} (hl : ed.line = line ++ [b]) :
    cons.buf (Ring.cell INPUT_BUF_SIZE (cons.e - 1)) = b ∧
      Shows { cons with e := cons.e - 1 } { ed with line := line } := by
  have hring := h.ring
  rw [hl, ← List.append_assoc] at hring
  obtain ⟨hb, hback⟩ := hring.pop_back
  refine ⟨hb, hback, h.write, h.taken, fun b' hb' => h.plain b' ?_⟩
  rw [hl]
  exact List.mem_append_left _ hb'

/-- The loop of `C('U')` stops at `w`: it meets no newline before. -/
theorem killLine_shows (n : Nat) (h : Shows cons ed) (hn : ed.line.length = n) :
    Shows (killLine n cons).1 { ed with line := [] } := by
  induction n generalizing cons ed with
  | zero =>
    obtain ⟨committed, taken, line⟩ := ed
    cases List.length_eq_zero_iff.1 hn
    exact h
  | succ n ih =>
    have hne : ed.line ≠ [] := by
      intro hnil
      rw [hnil] at hn
      cases hn
    have hl : ed.line = ed.line.dropLast ++ [ed.line.getLast hne] :=
      (List.dropLast_append_getLast hne).symm
    obtain ⟨hb, hback⟩ := h.erase hl
    have hgo : cons.e ≠ cons.w ∧ cons.buf (Ring.cell INPUT_BUF_SIZE (cons.e - 1)) ≠ chr '\n' := by
      refine ⟨fun heq => hne (h.e_eq_w_iff.1 heq), ?_⟩
      rw [hb]
      exact (h.plain _ (List.getLast_mem hne)).1
    rw [killLine, if_pos hgo]
    have hlen : ed.line.dropLast.length = n := by
      rw [List.length_dropLast]
      omega
    exact @ih _ { ed with line := ed.line.dropLast } hback hlen

section

variable (h : Shows cons ed) (hroom : ed.unread.length + ed.line.length < INPUT_BUF_SIZE) (c : UInt8)
include h hroom

/-- A character is stored behind the line. -/
theorem store : Ring.Holds (cons.store c).buf (cons.store c).r (cons.store c).e (ed.unread ++ (ed.line ++ [c])) := by
  rw [← List.append_assoc]
  refine h.ring.push (by decide) (by decide) ?_ c
  rw [List.length_append]
  exact hroom

/-- The line is committed together with the character just stored. -/
theorem commit :
    Shows { cons.store c with w := (cons.store c).e }
      { ed with committed := ed.committed ++ (ed.line ++ [c]), line := [] } := by
  have hring := h.store hroom c
  have hunread : ({ ed with committed := ed.committed ++ (ed.line ++ [c]), line := [] } :
      Editor).unread = ed.unread ++ (ed.line ++ [c]) := List.drop_append_of_le_length h.taken
  refine ⟨?_, ?_, ?_, fun b hb => by cases hb⟩
  · rw [hunread, List.append_nil]
    exact hring
  · rw [hunread, hring.length_eq, Ring.add_pending]
  · exact h.taken.trans (by simp)

theorem append_shows :
    Shows (if c = chr '\n' ∨ c = C 'D' ∨ (cons.store c).e - (cons.store c).r = UInt32.ofNat INPUT_BUF_SIZE then
      ⟨{ cons.store c with w := (cons.store c).e }, true, consputc c.toNat⟩
    else ⟨cons.store c, false, consputc c.toNat⟩ : Intr).cons (ed.append c) := by
  have hring := h.store hroom c
  have hlen := hring.length_eq
  rw [List.length_append, List.length_append, List.length_singleton] at hlen
  have hfull : (cons.store c).e - (cons.store c).r = UInt32.ofNat INPUT_BUF_SIZE ↔
      ed.unread.length + ed.line.length + 1 = INPUT_BUF_SIZE := by
    have hcap : (UInt32.ofNat INPUT_BUF_SIZE).toNat = INPUT_BUF_SIZE := rfl
    rw [← UInt32.toNat_inj, hcap]
    unfold Ring.pending at hlen
    omega
  unfold Editor.append
  by_cases hc : c = chr '\n' ∨ c = C 'D' ∨ ed.unread.length + ed.line.length + 1 = INPUT_BUF_SIZE
  · rw [if_pos (by rwa [hfull]), if_pos hc]
    exact h.commit hroom c
  · rw [if_neg (by rwa [hfull]), if_neg hc]
    obtain ⟨hn, hd⟩ : c ≠ chr '\n' ∧ c ≠ C 'D' := ⟨fun h' => hc (.inl h'), fun h' => hc (.inr (.inl h'))⟩
    refine ⟨hring, h.write, h.taken, fun b hb => ?_⟩
    rcases List.mem_append.1 hb with hb | hb
    · exact h.plain b hb
    · rw [List.mem_singleton.1 hb]
      exact ⟨hn, hd⟩

end

/-- `consoleintr` does what the editor does. -/
theorem consoleintr_shows (h : Shows cons ed) (c : UInt8) : Shows (consoleintr c cons).cons (ed.type c) := by
  unfold consoleintr Editor.type
  by_cases hP : c = C 'P'
  · rw [if_pos hP, if_pos hP]
    exact h
  rw [if_neg hP, if_neg hP]
  by_cases hU : c = C 'U'
  · rw [if_pos hU, if_pos hU]
    exact h.killLine_shows _ h.pending_line.symm
  rw [if_neg hU, if_neg hU]
  by_cases hH : c = C 'H' ∨ c = 0x7f
  · rw [if_pos hH, if_pos hH]
    by_cases he : cons.e ≠ cons.w
    · rw [if_pos he]
      have hne : ed.line ≠ [] := fun hnil => he (h.e_eq_w_iff.2 hnil)
      exact (h.erase (List.dropLast_append_getLast hne).symm).2
    · rw [if_neg he]
      have hnil := h.e_eq_w_iff.1 (not_not.1 he)
      obtain ⟨committed, taken, line⟩ := ed
      cases hnil
      exact h
  rw [if_neg hH, if_neg hH]
  have hroom : cons.e - cons.r < UInt32.ofNat INPUT_BUF_SIZE ↔ ed.unread.length + ed.line.length < INPUT_BUF_SIZE := by
    rw [UInt32.lt_iff_toNat_lt, ← h.pending_e]
    exact Iff.rfl
  by_cases hc : c ≠ 0 ∧ ed.unread.length + ed.line.length < INPUT_BUF_SIZE
  · rw [if_pos ⟨hc.1, hroom.2 hc.2⟩, if_pos hc]
    exact h.append_shows hc.2 _
  · rw [if_neg fun hc' => hc ⟨hc'.1, hroom.1 hc'.2⟩, if_neg hc]
    exact h

/-! ### Reading -/

/-- A reader takes the oldest committed byte. -/
theorem take (h : Shows cons ed) (hne : cons.r ≠ cons.w) : ed.unread = cons.buf (Ring.cell INPUT_BUF_SIZE cons.r) ::
        ({ ed with taken := ed.taken + 1 } : Editor).unread ∧
      Shows { cons with r := cons.r + 1 } { ed with taken := ed.taken + 1 } := by
  have hlt : ed.taken < ed.committed.length := by
    by_contra hge
    exact hne (h.r_eq_w_iff.2 (List.drop_eq_nil_of_le (Nat.le_of_not_lt hge)))
  have hcons : ed.unread = ed.committed[ed.taken] :: ed.committed.drop (ed.taken + 1) :=
    List.drop_eq_getElem_cons hlt
  have hring := h.ring
  rw [hcons, List.cons_append] at hring
  obtain ⟨hfront, hrest⟩ := hring.pop
  refine ⟨?_, hrest, ?_, hlt, h.plain⟩
  · rw [hfront]
    exact hcons
  · have hw := h.write
    rw [hcons, List.length_cons, UInt32.ofNat_add] at hw
    rw [hw]
    unfold Editor.unread
    grind

/-- A pass of `consoleread` removes nothing or what the editor's reader takes. -/
theorem consoleread_shows (h : Shows cons ed) (killed ok : Bool) (k : Call) :
    match (consoleread killed ok k cons).taken with
    | none => Shows (consoleread killed ok k cons).cons ed
    | some b => Shows (consoleread killed ok k cons).cons { ed with taken := ed.taken + 1 } ∧
        ed.unread = b :: ({ ed with taken := ed.taken + 1 } : Editor).unread := by
  unfold consoleread
  by_cases hn : 0 < k.n
  · rw [if_pos hn]
    by_cases hrw : cons.r = cons.w
    · rw [if_pos hrw]
      cases killed with
      | true | false => exact h
    · rw [if_neg hrw]
      obtain ⟨hfront, hnext⟩ := h.take hrw
      simp only
      split_ifs
      · -- control-D is put back
        have e : cons.r + 1 - 1 = cons.r := by grind
        simp only [e]
        exact h
      · exact ⟨hnext, hfront⟩
      · exact ⟨hnext, hfront⟩
      · exact ⟨hnext, hfront⟩
      · exact ⟨hnext, hfront⟩
  · rw [if_neg hn]
    exact h

end Shows

theorem killLine_frame (n : Nat) (cons : Cons) : (killLine n cons).1.buf = cons.buf ∧ (killLine n cons).1.r = cons.r ∧
      (killLine n cons).1.w = cons.w := by
  induction n generalizing cons with
  | zero => exact ⟨rfl, rfl, rfl⟩
  | succ n ih =>
    rw [killLine]
    split_ifs
    · exact ih _
    · exact ⟨rfl, rfl, rfl⟩

/-- Backspace, delete and `C('U')` move nothing but `e`. -/
theorem consoleintr_erases {c : UInt8} (hc : c = C 'H' ∨ c = 0x7f ∨ c = C 'U') (cons : Cons) :
    (consoleintr c cons).cons.buf = cons.buf ∧ (consoleintr c cons).cons.r = cons.r ∧
      (consoleintr c cons).cons.w = cons.w := by
  unfold consoleintr
  rcases hc with rfl | rfl | rfl
  · rw [if_neg (by decide), if_neg (by decide), if_pos (.inl rfl)]
    split_ifs
    · exact ⟨rfl, rfl, rfl⟩
    · exact ⟨rfl, rfl, rfl⟩
  · rw [if_neg (by decide), if_neg (by decide), if_pos (.inr rfl)]
    split_ifs
    · exact ⟨rfl, rfl, rfl⟩
    · exact ⟨rfl, rfl, rfl⟩
  · rw [if_neg (by decide), if_pos rfl]
    exact killLine_frame ..

/-! ## Calls of `consoleread` -/

/-- The call of a process. -/
def Pc.call : Pc → Option Call
  | .idle => none
  | .waiting k | .running k | .sleeping k => some k

/-- `n` and `target` count the bytes that have been copied. -/
def Call.Ok (k : Call) : Prop :=
  (k.n ≤ 0 ∧ -2 ^ 31 ≤ k.n ∧ k.target = k.n % 2 ^ 32 ∧ k.copied = []) ∨
    (0 ≤ k.n ∧ k.target = k.n + k.copied.length ∧ k.target < 2 ^ 31)

theorem Call.enter_ok (dst : UInt64) {n : Int} (h : -2 ^ 31 ≤ n) (h' : n < 2 ^ 31) : (Call.enter dst n).Ok := by
  by_cases hn : n ≤ 0
  · exact .inl ⟨hn, h, rfl, rfl⟩
  · refine .inr ⟨?_, ?_, ?_⟩
    · exact Int.le_of_lt (Int.lt_of_not_ge hn)
    · simp only [Call.enter, List.length_nil]
      omega
    · simp only [Call.enter]
      omega

/-- A call returns the number of bytes that it has copied. -/
theorem Call.Ok.result {k : Call} (h : k.Ok) : k.result = k.copied.length := by
  unfold Call.result
  rcases h with ⟨hle, hge, ht, hc⟩ | ⟨hpos, ht, hlt⟩
  · rw [hc, ht, List.length_nil]
    have hdiff : k.n % 2 ^ 32 - k.n = 0 ∨ k.n % 2 ^ 32 - k.n = 2 ^ 32 := by omega
    rcases hdiff with hdiff | hdiff
    · rw [hdiff]
      rfl
    · rw [hdiff]
      rfl
  · rw [ht, show k.n + (k.copied.length : Int) - k.n = k.copied.length by omega]
    refine Int.bmod_eq_of_le ?_ ?_
    · omega
    · omega

/-- The test for bytes already copied. -/
theorem Call.Ok.some_copied_iff {k : Call} (h : k.Ok) (hn : 0 < k.n) : k.n % 2 ^ 32 < k.target ↔ k.copied ≠ [] := by
  rcases h with ⟨hle, -⟩ | ⟨-, ht, hlt⟩
  · omega
  · have hmod : k.n % 2 ^ 32 = k.n := Int.emod_eq_of_lt (by omega) (by omega)
    rw [hmod, ht, ← List.length_pos_iff]
    omega

theorem Call.Ok.copy {k : Call} (h : k.Ok) (hn : 0 < k.n) (c : UInt8) :
    ({ k with dst := k.dst + 1, n := k.n - 1, copied := k.copied ++ [c] } : Call).Ok := by
  rcases h with ⟨hle, -⟩ | ⟨-, ht, hlt⟩
  · omega
  · refine .inr ⟨?_, ?_, hlt⟩
    · show 0 ≤ k.n - 1
      omega
    · show k.target = k.n - 1 + ((k.copied ++ [c]).length : Int)
      rw [List.length_append, List.length_singleton, ht]
      push_cast
      omega

theorem consoleread_ok {k : Call} (h : k.Ok) (killed ok : Bool) (cons : Cons) {k' : Call}
    (hk : (consoleread killed ok k cons).next.pc.call = some k') : k'.Ok := by
  unfold consoleread at hk
  simp only at hk
  split_ifs at hk with hn h1 h2 h3 h4 h5 h6
  · cases hk
  · cases hk
    exact h
  · cases hk
  · cases hk
  · cases hk
  · cases hk
  · cases hk
    exact h.copy hn _
  · cases hk

/-! ## Runs -/

/-- What holds after a run. -/
structure Inv (ls : List Label) (s : Sys) : Prop where
  shows : Shows s.cons (Editor.run ls)
  took : removed ls = (Editor.run ls).committed.take (Editor.run ls).taken
  calls : ∀ p k, (s.pc p).call = some k → k.Ok

theorem run_snoc (ls : List Label) (l : Label) : Editor.run (ls ++ [l]) = (Editor.run ls).feed l := by
  simp [Editor.run, List.foldl_append]

theorem type_committed (ed : Editor) (c : UInt8) :
    ed.committed <+: (ed.type c).committed ∧ (ed.type c).taken = ed.taken := by
  unfold Editor.type Editor.append
  split_ifs <;> simp

theorem wakeup_call (pc : Nat → Pc) (q : Nat) : (wakeup pc q).call = (pc q).call := by
  unfold wakeup
  cases pc q <;> rfl

theorem Inv.init (buf : Fin INPUT_BUF_SIZE → UInt8) (x : UInt32) : Inv [] (Sys.init buf x) where
  shows := ⟨Ring.Holds.empty buf x, by simp [Sys.init, Editor.run, Editor.unread], Nat.le_refl 0,
    fun b hb => by cases hb⟩
  took := rfl
  calls := fun p k hk => by cases hk

theorem Inv.calls_update {ls : List Label} {s : Sys} (h : Inv ls s) {p : Nat} {pc : Pc}
    (hpc : ∀ k, pc.call = some k → k.Ok) (q : Nat) (k : Call)
    (hk : (Function.update s.pc p pc q).call = some k) : k.Ok := by
  by_cases hq : q = p
  · subst hq
    rw [Function.update_self] at hk
    exact hpc k hk
  · rw [Function.update_of_ne hq] at hk
    exact h.calls q k hk

theorem Inv.silent {ls : List Label} {s t : Sys} (h : Inv ls s) (hcons : t.cons = s.cons)
    (hcalls : ∀ p k, (t.pc p).call = some k → k.Ok) : Inv (ls ++ [.silent]) t where
  shows := by
    rw [run_snoc, hcons]
    exact h.shows
  took := by
    rw [run_snoc]
    simpa [removed, Editor.feed] using h.took
  calls := hcalls

theorem Inv.step {ls : List Label} {s t : Sys} {l : Label} (h : Inv ls s) (hs : Step s l t) : Inv (ls ++ [l]) t := by
  cases hs with
  | typed c _ =>
    obtain ⟨⟨rest, hrest⟩, htaken⟩ := type_committed (Editor.run ls) c
    refine ⟨?_, ?_, fun p k hk => ?_⟩
    · rw [run_snoc]
      exact h.shows.consoleintr_shows c
    · rw [run_snoc]
      show removed (ls ++ [.typed c]) = ((Editor.run ls).type c).committed.take ((Editor.run ls).type c).taken
      rw [htaken, ← hrest, List.take_append_of_le_length h.shows.taken]
      simpa [removed] using h.took
    · refine h.calls p k ?_
      simp only [Sys.interrupt] at hk
      split_ifs at hk
      · rwa [wakeup_call] at hk
      · exact hk
  | call p dst n hpc hge hlt =>
    refine h.silent rfl (h.calls_update fun k hk => ?_)
    cases hk
    exact Call.enter_ok dst hge hlt
  | acquire p k hpc hlock =>
    refine h.silent rfl (h.calls_update fun k' hk => ?_)
    cases hk
    exact h.calls p k (by rw [hpc]; rfl)
  | kill p =>
    refine h.silent rfl (h.calls_update fun k hk => ?_)
    rw [wakeup_call] at hk
    exact h.calls p k hk
  | pass p k ok hpc =>
    have hshows := h.shows.consoleread_shows (s.killed p) ok k
    have hcalls : ∀ q k', ((s.apply p (consoleread (s.killed p) ok k s.cons)).pc q).call = some k' →
        k'.Ok :=
      h.calls_update fun k' hk => consoleread_ok (h.calls p k (by rw [hpc]; rfl)) _ _ _ hk
    cases htaken : (consoleread (s.killed p) ok k s.cons).taken with
    | none =>
      rw [htaken] at hshows
      refine ⟨?_, ?_, hcalls⟩
      · rw [run_snoc]
        exact hshows
      · rw [run_snoc]
        simpa [removed, Editor.feed] using h.took
    | some b =>
      rw [htaken] at hshows
      obtain ⟨hshows, hfront⟩ := hshows
      refine ⟨?_, ?_, hcalls⟩
      · rw [run_snoc]
        exact hshows
      · rw [run_snoc]
        show removed (ls ++ [_]) = (Editor.run ls).committed.take ((Editor.run ls).taken + 1)
        have hget : (Editor.run ls).committed[(Editor.run ls).taken]? = some b := by
          have h0 := congrArg (fun l : List UInt8 => l[0]?) hfront
          simpa [Editor.unread] using h0
        rw [List.take_add_one, hget, ← h.took]
        simp [removed]

/-- The line discipline. For every run, whatever the common value of the counters at its start:
`r`, `w` and `e` stay in this order and within `INPUT_BUF_SIZE` of each other; the line being edited has
no newline and no control-D in it; backspace, delete and `C('U')` change neither the committed bytes nor
where they end; the bytes that readers have removed are, in order, the first of those that the editor
has committed, and the rest is in the ring; and a control-D ends the read that comes to it and stays in
place just if that read has copied bytes already. -/
theorem line_discipline {buf : Fin INPUT_BUF_SIZE → UInt8} {x : UInt32} {ls : List Label} {s : Sys}
    (h : Run Step (Sys.init buf x) ls s) :
    (Ring.pending s.cons.r s.cons.w ≤ Ring.pending s.cons.r s.cons.e ∧
      Ring.pending s.cons.r s.cons.e ≤ INPUT_BUF_SIZE) ∧
    (∀ i < Ring.pending s.cons.w s.cons.e,
      s.cons.buf (Ring.cell INPUT_BUF_SIZE (s.cons.w + UInt32.ofNat i)) ≠ chr '\n' ∧
      s.cons.buf (Ring.cell INPUT_BUF_SIZE (s.cons.w + UInt32.ofNat i)) ≠ C 'D') ∧
    (∀ c, c = C 'H' ∨ c = 0x7f ∨ c = C 'U' →
      (consoleintr c s.cons).cons.buf = s.cons.buf ∧ (consoleintr c s.cons).cons.r = s.cons.r ∧
      (consoleintr c s.cons).cons.w = s.cons.w ∧
      Ring.pending s.cons.r s.cons.w ≤ Ring.pending s.cons.r (consoleintr c s.cons).cons.e) ∧
    (removed ls <+: (Editor.run ls).committed ∧
      (Editor.run ls).committed.length = (removed ls).length + Ring.pending s.cons.r s.cons.w) ∧
    (∀ p k ok, s.pc p = .running k → 0 < k.n → s.cons.r ≠ s.cons.w →
      s.cons.buf (Ring.cell INPUT_BUF_SIZE s.cons.r) = C 'D' →
      (consoleread (s.killed p) ok k s.cons).next = .ret k.copied.length ∧
      ((consoleread (s.killed p) ok k s.cons).cons.r = s.cons.r ↔ k.copied ≠ [])) := by
  have hinv : Inv ls s := h.invariant (P := Inv) (Inv.init buf x) fun _ _ _ _ hi hs => hi.step hs
  have hshows := hinv.shows
  refine ⟨⟨?_, ?_⟩, fun i hi => ?_, fun c hc => ?_, ⟨?_, ?_⟩, fun p k ok hpc hn hne hD => ?_⟩
  · rw [hshows.pending_w, hshows.pending_e]
    omega
  · rw [hshows.pending_e]
    exact hshows.length_le
  · rw [hshows.pending_line] at hi
    rw [hshows.line_at hi]
    exact hshows.plain _ (List.getElem_mem hi)
  · obtain ⟨hbuf, hr, hw⟩ := consoleintr_erases hc s.cons
    refine ⟨hbuf, hr, hw, ?_⟩
    have hnext := hshows.consoleintr_shows c
    rw [← hr, ← hw, hnext.pending_w, hnext.pending_e]
    omega
  · rw [hinv.took]
    exact List.take_prefix ..
  · rw [hinv.took, hshows.pending_w, List.length_take, Editor.unread, List.length_drop, Nat.min_eq_left hshows.taken]
    have hle := hshows.taken
    omega
  · have hok := hinv.calls p k (by rw [hpc]; rfl)
    have hback : s.cons.r + 1 - 1 = s.cons.r := by grind
    have hforth : s.cons.r + 1 ≠ s.cons.r := by simp
    unfold consoleread
    rw [if_pos hn, if_neg hne, hD, if_pos rfl]
    by_cases hc : k.copied ≠ []
    · rw [if_pos ((hok.some_copied_iff hn).2 hc)]
      exact ⟨congrArg Next.ret hok.result, fun _ => hc, fun _ => hback⟩
    · rw [if_neg fun hlt => hc ((hok.some_copied_iff hn).1 hlt)]
      exact ⟨congrArg Next.ret hok.result, fun heq => absurd heq hforth, fun hne => absurd hne hc⟩

/-- Just before the counters wrap, a character is typed and erased, and then a line of one character,
which a process reads. -/
theorem line_discipline_wrap :
    ∃ (ls : List Label) (s : Sys), Run Step (Sys.init (fun _ => 0) 4294967294) ls s ∧
      removed ls = [chr 'i', chr '\n'] ∧ s.cons.r = 0 ∧
      removed ls <+: (Editor.run ls).committed := by
  have h1 := Run.single (Step.typed (Sys.init (fun _ => 0) 4294967294) (chr 'h') rfl)
  have h2 := h1.snoc (Step.typed _ 0x7f rfl)
  have h3 := h2.snoc (Step.typed _ (chr 'i') rfl)
  have h4 := h3.snoc (Step.typed _ (chr '\r') rfl)
  have h5 := h4.snoc (Step.call _ 0 0 10 rfl (by decide) (by decide))
  have h6 := h5.snoc (Step.acquire _ 0 _ rfl rfl)
  have h7 := h6.snoc (Step.pass _ 0 _ true rfl)
  have h8 := h7.snoc (Step.pass _ 0 ⟨1, 9, 10, [chr 'i']⟩ true (by decide +kernel))
  refine ⟨_, _, h8, by decide +kernel, by decide +kernel, (line_discipline h8).2.2.2.1.1⟩

end Xv6.Console
