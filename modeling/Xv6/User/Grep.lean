import Xv6.User.Regexp
import Xv6.User.Ulib

/-!
# The input loop of `grep`

`grep` collects input in a buffer of 1024 bytes, prints the lines in it that match, and moves the unfinished
line to the start of the buffer. A `read` may return any number of the bytes left, at least one unless none is
asked for or none is left. The result does not depend on how the input is split, but a line of 1023 bytes
leaves no room in the buffer: `grep` then asks for 0 bytes and takes the answer for the end of the input.
-/

set_option autoImplicit false

namespace Xv6.User

open Function Xv6.Base

def newline : UInt8 := 10

/-- `sizeof(buf)`. -/
def bufSize : Nat := 1024

/-- How many bytes a `read` of `n` bytes returns with `left` bytes of input left; `k` is the choice of the
kernel, which waits for at least one byte. -/
def readLen (k n left : Nat) : Nat := min (max 1 k) (min n left)

/-- The loop of `grep` over the lines in the buffer, from address `p` on: the buffer and `p` after it, and what
has been written. -/
def grepLines (pattern : List UInt8) : Nat → Mem → Nat → List UInt8 → Option (Mem × Nat × List UInt8)
  | 0, _, _, _ => none
  | fuel + 1, buf, p, out =>
    match strchr buf newline (bufSize - p) p with
    | none => some (buf, p, out)
    | some q =>
      let buf := update buf q 0
      if grepMatch pattern (cstring buf (bufSize - p) p) then
        let buf := update buf q newline
        grepLines pattern fuel buf (q + 1) (out ++ bytesAt buf p (q + 1 - p))
      else grepLines pattern fuel buf (q + 1) out

/-- The loop of `grep(pattern, fd)`, with `m` bytes in the buffer and the input `input` left to read. -/
def grepLoop (pattern : List UInt8) :
    Nat → (Nat → Nat) → List UInt8 → Mem → Nat → List UInt8 → Option (List UInt8)
  | 0, _, _, _, _, _ => none
  | fuel + 1, split, input, buf, m, out =>
    let n := readLen (split 0) (bufSize - m - 1) input.length
    if n > 0 then
      let buf := writeBytes buf m (input.take n)
      let m := m + n
      let buf := update buf m 0
      match grepLines pattern bufSize buf 0 out with
      | none => none
      | some (buf, p, out) =>
        let m' := if m > 0 then m - p else m
        let buf := if m > 0 then memmove buf 0 p m' else buf
        grepLoop pattern fuel (fun i => split (i + 1)) (input.drop n) buf m' out
    else some out

/-- `grep(pattern, fd)`: what is written, or `none` if it has not ended after `fuel` reads. The `i`-th read
returns `split i` bytes if it can. -/
def grep (pattern : List UInt8) (fuel : Nat) (split : Nat → Nat) (input : List UInt8) (buf : Mem) :
    Option (List UInt8) := grepLoop pattern fuel split input buf 0 []

/-! ## Lines -/

/-- The lines of an input that are ended by a newline. -/
def lines : List UInt8 → List (List UInt8)
  | [] => []
  | b :: bs => if b = newline then [] :: lines bs else (lines bs).modifyHead (b :: ·)

theorem lines_line {line : List UInt8} (h : newline ∉ line) (rest : List UInt8) :
    lines (line ++ newline :: rest) = line :: lines rest := by
  induction line with
  | nil => exact if_pos rfl
  | cons b line ih =>
    rw [List.mem_cons, not_or] at h
    rw [List.cons_append, lines, if_neg (Ne.symm h.1), ih h.2]
    rfl

theorem lines_of_not_mem {bs : List UInt8} (h : newline ∉ bs) : lines bs = [] := by
  induction bs with
  | nil => rfl
  | cons b bs ih =>
    rw [List.mem_cons, not_or] at h
    rw [lines, if_neg (Ne.symm h.1), ih h.2]
    rfl

/-- Input without a newline begins the first line. -/
theorem lines_append {bs : List UInt8} (h : newline ∉ bs) (rest : List UInt8) :
    lines (bs ++ rest) = (lines rest).modifyHead (bs ++ ·) := by
  induction bs with
  | nil => exact (congrFun List.modifyHead_id (lines rest)).symm
  | cons b bs ih =>
    rw [List.mem_cons, not_or] at h
    rw [List.cons_append, lines, if_neg (Ne.symm h.1), ih h.2, List.modifyHead_modifyHead]
    rfl

/-- What printing the matching lines among `ls` writes. -/
def printed (pattern : List UInt8) (ls : List (List UInt8)) : List UInt8 :=
  (ls.filter (grepMatch pattern)).flatMap (· ++ [newline])

/-- The lines for which the buffer has room, up to the first that is too long. -/
def shortLines (input : List UInt8) : List (List UInt8) := (lines input).takeWhile (·.length + 1 < bufSize)

theorem shortLines_line {line : List UInt8} (h : newline ∉ line) (hlen : line.length + 1 < bufSize)
    (rest : List UInt8) : shortLines (line ++ newline :: rest) = line :: shortLines rest := by
  rw [shortLines, lines_line h, List.takeWhile_cons_of_pos (by simpa using hlen)]
  rfl

/-- A full buffer without a newline begins a line that is too long, or the last one. -/
theorem shortLines_full {bs : List UInt8} (h : newline ∉ bs) (hlen : bufSize ≤ bs.length + 1) (rest : List UInt8) :
    shortLines (bs ++ rest) = [] := by
  rw [shortLines, lines_append h]
  cases lines rest with
  | nil => rfl
  | cons l ls => exact List.takeWhile_cons_of_neg (by simp; omega)

theorem printed_cons (pattern line : List UInt8) (ls : List (List UInt8)) : printed pattern (line :: ls) =
      (if grepMatch pattern line then line ++ [newline] else []) ++ printed pattern ls := by
  unfold printed
  rw [List.filter_cons]
  split_ifs with h
  · simp
  · simp

/-! ## The loops -/

section

variable (pattern : List UInt8)

/-- The loop over the lines in the buffer prints the complete ones that match, and leaves `p` at the unfinished
one. -/
theorem grepLines_spec (out : List UInt8) {fuel : Nat} {buf : Mem} {p : Nat} {cur : List UInt8}
    (hbuf : At buf p (cur ++ [0])) (hno : 0 ∉ cur) (hlen : p + cur.length < bufSize) (hfuel : cur.length < fuel) :
    ∃ buf' p' tail out', grepLines pattern fuel buf p out = some (buf', p', out ++ out') ∧
      At buf' p' tail ∧ 0 ∉ tail ∧ newline ∉ tail ∧ p' + tail.length = p + cur.length ∧
      ∀ rest, printed pattern (shortLines (cur ++ rest)) = out' ++ printed pattern (shortLines (tail ++ rest)) := by
  induction fuel generalizing buf p out cur with
  | zero => omega
  | succ fuel ih =>
    by_cases hnl : newline ∈ cur
    · obtain ⟨line, cur, rfl, hline⟩ := List.eq_append_cons_of_mem hnl
      rw [List.length_append, List.length_cons] at hlen hfuel
      have hno0 : 0 ∉ line := fun h => hno (List.mem_append_left _ h)
      have hno' : 0 ∉ cur := fun h => hno (List.mem_append_right _ (.tail _ h))
      rw [List.append_assoc, List.cons_append] at hbuf
      have hq := hbuf.strchr_some (n := bufSize - p) (by decide) hno0 hline (by omega)
      obtain ⟨hl, hc, hrest⟩ := at_append.1 hbuf
      -- the byte at `q` is all that changes, and it is not read again
      have hkeep : ∀ b, At (update buf (p + line.length) b) (p + line.length + 1) (cur ++ [0]) := fun b =>
        hrest.congr fun x h1 _ => update_of_ne (by omega) ..
      have hself : ∀ b, At (update buf (p + line.length) b) p (line ++ [b]) := by
        refine fun b => at_append.2 ⟨hl.congr fun x _ h2 => update_of_ne (by omega) .., ?_, trivial⟩
        exact update_self ..
      have hstr := (hself 0).cstring (n := bufSize - p) hno0 (by omega)
      have hsplit : ∀ rest, printed pattern (shortLines ((line ++ newline :: cur) ++ rest)) =
          (if grepMatch pattern line then line ++ [newline] else []) ++ printed pattern (shortLines (cur ++ rest)) := by
        intro rest
        rw [List.append_assoc, List.cons_append, shortLines_line hline (by omega), printed_cons]
      rw [grepLines, hq]
      simp only [hstr, update_idem]
      split_ifs with hm
      · have hbytes := (hself newline).bytesAt
        rw [List.length_append, List.length_singleton] at hbytes
        rw [show p + line.length + 1 - p = line.length + 1 by omega, hbytes]
        obtain ⟨buf', p', tail, out', hrun, h1, h2, h3, h4, h5⟩ :=
          ih (out ++ (line ++ [newline])) (hkeep newline) hno' (by omega) (by omega)
        refine ⟨buf', p', tail, line ++ [newline] ++ out', by rw [hrun]; simp, h1, h2, h3, ?_, fun rest => ?_⟩
        · rw [List.length_append, List.length_cons]
          omega
        · rw [hsplit, if_pos hm, h5]
          exact (List.append_assoc ..).symm
      · obtain ⟨buf', p', tail, out', hrun, h1, h2, h3, h4, h5⟩ := ih out (hkeep 0) hno' (by omega) (by omega)
        refine ⟨buf', p', tail, out', hrun, h1, h2, h3, ?_, fun rest => ?_⟩
        · rw [List.length_append, List.length_cons]
          omega
        · rw [hsplit, if_neg hm, h5, List.nil_append]
    · refine ⟨buf, p, cur, [], ?_, (at_append.1 hbuf).1, hno, hnl, rfl, fun _ => rfl⟩
      rw [grepLines, hbuf.strchr_none hnl, List.append_nil]

/-- The loop of `grep` with the unfinished line `pend` in the buffer. Every read takes a byte of the input at
least, so it ends. -/
theorem grepLoop_spec (fuel : Nat) (split : Nat → Nat) (pend out : List UInt8) {input : List UInt8} {buf : Mem}
    (hbuf : At buf 0 pend) (hpend : 0 ∉ pend) (hnl : newline ∉ pend) (hlen : pend.length < bufSize)
    (hno : 0 ∉ input) (hfuel : input.length < fuel) : grepLoop pattern fuel split input buf pend.length out =
      some (out ++ printed pattern (shortLines (pend ++ input))) := by
  induction fuel generalizing split input pend out buf with
  | zero => omega
  | succ fuel ih =>
    obtain ⟨n, hn⟩ : ∃ n, n = readLen (split 0) (bufSize - pend.length - 1) input.length := ⟨_, rfl⟩
    have hle : n ≤ bufSize - pend.length - 1 ∧ n ≤ input.length := by
      unfold readLen at hn
      omega
    rw [grepLoop]
    simp only [← hn]
    by_cases hpos : n > 0
    · rw [if_pos hpos]
      have htake : (input.take n).length = n := List.length_take_of_le hle.2
      have hcur : (pend ++ input.take n).length = pend.length + n := by rw [List.length_append, htake]
      have hat : At (update (writeBytes buf pend.length (input.take n)) (pend.length + n) 0) 0
          (pend ++ input.take n ++ [0]) := by
        refine at_append.2 ⟨At.congr (at_append.2 ⟨hbuf.congr fun x _ hx => ?_, ?_⟩) fun x _ hx =>
          update_of_ne (by omega) .., ?_, trivial⟩
        · exact writeBytes_of_not_mem _ (by omega)
        · rw [Nat.zero_add]
          exact at_writeBytes ..
        · rw [hcur, Nat.zero_add, update_self]
      have hcur0 : 0 ∉ pend ++ input.take n := by
        rw [List.mem_append, not_or]
        exact ⟨hpend, fun h => hno (List.mem_of_mem_take h)⟩
      obtain ⟨buf', p', tail, out', hrun, h1, h2, h3, h4, h5⟩ :=
        grepLines_spec pattern out hat hcur0 (by omega) (show _ < bufSize by omega)
      have hm : pend.length + n - p' = tail.length := by omega
      rw [hrun]
      simp only [if_pos (show pend.length + n > 0 by omega), hm, memmove_eq]
      rw [ih _ _ _ (h1.copy 0) h2 h3 (by omega) (fun h => hno (List.mem_of_mem_drop h))
        (by rw [List.length_drop]; omega), List.append_assoc, ← h5, List.append_assoc, List.take_append_drop]
    · rw [if_neg hpos]
      have hzero : bufSize ≤ pend.length + 1 ∨ input = [] := by
        rcases List.eq_nil_or_concat input with rfl | ⟨_, _, rfl⟩
        · exact .inr rfl
        · unfold readLen at hn
          rw [List.length_concat] at hn
          omega
      have hnone : shortLines (pend ++ input) = [] := by
        rcases hzero with hfull | rfl
        · exact shortLines_full hnl hfull input
        · rw [List.append_nil, shortLines, lines_of_not_mem hnl]
          rfl
      rw [hnone]
      exact congrArg some (List.append_nil out).symm

/-- Printing more lines writes the same only if none of them matches. -/
theorem printed_append_eq_left (ls ls' : List (List UInt8)) :
    printed pattern ls = printed pattern (ls ++ ls') ↔ ∀ line ∈ ls', grepMatch pattern line = false := by
  unfold printed
  rw [List.filter_append, List.flatMap_append, List.self_eq_append_right, List.flatMap_eq_nil_iff]
  simp

end

/-- `grep` ends and prints, however the input arrives, the matching lines before the first line of 1023 bytes
or more; so it prints all matching lines exactly if none of the others matches. -/
theorem grep_prints_iff (pattern : List UInt8) (split : Nat → Nat) (input : List UInt8) (buf : Mem)
    (hno : 0 ∉ input) (fuel : Nat) (hfuel : input.length < fuel) :
    (∃ out, grep pattern fuel split input buf = some out) ∧
      (grep pattern fuel split input buf = some (printed pattern (lines input)) ↔
        ∀ line ∈ (lines input).dropWhile (·.length + 1 < bufSize), grepMatch pattern line = false) := by
  have hrun := grepLoop_spec pattern fuel split [] [] (show At buf 0 [] from trivial) (by simp) (by simp)
    (by decide) hno hfuel
  rw [List.nil_append, List.nil_append] at hrun
  refine ⟨⟨_, hrun⟩, ?_⟩
  rw [grep, show grepLoop pattern fuel split input buf 0 [] = _ from hrun, Option.some_inj, shortLines,
    ← printed_append_eq_left pattern ((lines input).takeWhile _), List.takeWhile_append_dropWhile]

/-- Two lines that arrive in pieces of 2 bytes. -/
theorem grep_prints_iff_ab :
    grep [97] 10 (fun _ => 2) [97, 98, 10, 98, 10] (fun _ => 0) = some (printed [97] (lines [97, 98, 10, 98, 10])) :=
  (grep_prints_iff [97] (fun _ => 2) [97, 98, 10, 98, 10] (fun _ => 0) (by decide) 10 (by decide)).2.2 (by decide)

/-- A line of 1023 bytes is not printed. -/
theorem grep_loses_long_line : grepMatch [] (List.replicate 1023 97) = true ∧
    printed [] (lines (List.replicate 1023 97 ++ [newline])) ≠ [] ∧
      grep [] 1025 (fun _ => bufSize) (List.replicate 1023 97 ++ [newline]) (fun _ => 0) = some [] := by
  have hmem : ∀ b ∈ List.replicate 1023 (97 : UInt8), b = 97 := fun b => List.eq_of_mem_replicate
  have hnl : newline ∉ List.replicate 1023 (97 : UInt8) := fun h => absurd (hmem _ h) (by decide)
  have hno : 0 ∉ List.replicate 1023 (97 : UInt8) ++ [newline] := fun h =>
    (List.mem_append.1 h).elim (fun h => absurd (hmem _ h) (by decide)) (by decide)
  have hmatch : grepMatch [] (List.replicate 1023 97) = true := by
    rw [List.replicate_succ]
    rfl
  refine ⟨hmatch, ?_, ?_⟩
  · rw [lines_line hnl, printed_cons, if_pos hmatch, List.append_assoc]
    exact List.append_ne_nil_of_right_ne_nil _ (by simp)
  · have hrun := grepLoop_spec [] 1025 (fun _ => bufSize) [] [] (show At (fun _ => 0) 0 [] from trivial) (by simp)
      (by simp) (by decide) hno (by rw [List.length_append, List.length_replicate]; decide)
    rwa [List.nil_append, List.nil_append, shortLines_full hnl (by rw [List.length_replicate]; decide)] at hrun

end Xv6.User
