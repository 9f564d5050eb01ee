import Mathlib.Computability.Language
import Mathlib.Tactic

/-!
# The matcher of `grep`

`match`, `matchhere` and `matchstar` of `user/grep.c`, on C strings: a string is the list of its bytes, and
its end is the terminating NUL. The matcher decides the language of its pattern. How the characters of a
pattern are read is fixed by the order in which `matchhere` tests them: a character before `*` is repeated,
whatever it is, a last `$` is the end of the text, and every other character stands for itself, `.` for any.
-/

set_option autoImplicit false

namespace Xv6.User

open Computability

/-- The characters with a meaning in patterns: `^`, `.`, `*` and `$`. -/
def caret : UInt8 := 94

@[inherit_doc caret] def dot : UInt8 := 46

@[inherit_doc caret] def star : UInt8 := 42

@[inherit_doc caret] def dollar : UInt8 := 36

/-- `matchstar(c, re, text)`, where `here` is `matchhere(re, ·)`: some number of characters that `c` stands
for, then `re`. -/
def matchstar (c : UInt8) (here : List UInt8 → Bool) : List UInt8 → Bool
  | [] => here []
  | x :: text => here (x :: text) || ((x == c || c == dot) && matchstar c here text)

/-- The last test of `matchhere(re, text)`, where `here` is `matchhere(re+1, ·)`. -/
def matchone (c : UInt8) (here : List UInt8 → Bool) : List UInt8 → Bool
  | [] => false
  | x :: text => (c == dot || c == x) && here text

/-- `matchhere(re, text)`: the pattern matches at the beginning of the text. -/
def matchhere : List UInt8 → List UInt8 → Bool
  | [], _ => true
  | [c], text => if c = dollar then text.isEmpty else matchone c (matchhere []) text
  | c :: d :: re, text =>
    if d = star then matchstar c (matchhere re) text else matchone c (matchhere (d :: re)) text

/-- The loop of `match(re, text)`, which also looks at the empty string at the end. -/
def matchFrom (re : List UInt8) : List UInt8 → Bool
  | [] => matchhere re []
  | x :: text => matchhere re (x :: text) || matchFrom re text

/-- `match(re, text)`. -/
def grepMatch (re text : List UInt8) : Bool :=
  if re.head? = some caret then matchhere re.tail text else matchFrom re text

/-! ## The language of a pattern -/

/-- The one-character words that a character of a pattern stands for. -/
def charLanguage (c : UInt8) : Language UInt8 := {w | ∃ x, (c = dot ∨ c = x) ∧ w = [x]}

/-- The words of a pattern; a last `$` adds nothing to a word. -/
def language : List UInt8 → Language UInt8
  | [] => 1
  | [c] => if c = dollar then 1 else charLanguage c
  | c :: d :: re => if d = star then (charLanguage c)∗ * language re else charLanguage c * language (d :: re)

/-- A word `w` of the pattern, followed by `post` in the text: after a last `$` there is nothing. -/
def Word (re w post : List UInt8) : Prop := w ∈ language re ∧ (re.getLast? = some dollar → post = [])

/-- What a pattern means: some part of the text is a word of it, at the beginning of the text if the pattern
starts with `^`. -/
def Denotes (re text : List UInt8) : Prop :=
  if re.head? = some caret then ∃ w post, text = w ++ post ∧ Word re.tail w post
  else ∃ pre w post, text = pre ++ w ++ post ∧ Word re w post

theorem mem_kstar_charLanguage {c : UInt8} {w : List UInt8} : w ∈ (charLanguage c)∗ ↔ ∀ x ∈ w, c = dot ∨ c = x := by
  rw [Language.mem_kstar]
  constructor
  · rintro ⟨ws, rfl, hws⟩ x hx
    obtain ⟨v, hv, hxv⟩ := List.mem_flatten.1 hx
    obtain ⟨y, hy, rfl⟩ := hws v hv
    rw [List.mem_singleton.1 hxv]
    exact hy
  · intro h
    refine ⟨w.map fun x => [x], (List.flatMap_singleton' w).symm, fun v hv => ?_⟩
    obtain ⟨x, hx, rfl⟩ := List.mem_map.1 hv
    exact ⟨x, h x hx, rfl⟩

/-- `matchstar` tries every number of repetitions. -/
theorem matchstar_iff {c : UInt8} {here : List UInt8 → Bool} (text : List UInt8) :
    matchstar c here text = true ↔ ∃ w rest, text = w ++ rest ∧ w ∈ (charLanguage c)∗ ∧ here rest = true := by
  simp only [mem_kstar_charLanguage]
  induction text with
  | nil => simp [matchstar]
  | cons x text ih =>
    simp only [matchstar, Bool.or_eq_true, Bool.and_eq_true, beq_iff_eq, ih]
    constructor
    · rintro (hhere | ⟨hx, w, rest, rfl, hw, hrest⟩)
      · exact ⟨[], x :: text, rfl, by simp, hhere⟩
      · refine ⟨x :: w, rest, rfl, fun y hy => ?_, hrest⟩
        rcases List.mem_cons.1 hy with rfl | hy
        · exact hx.symm.imp id Eq.symm
        · exact hw y hy
    · rintro ⟨w, rest, heq, hw, hrest⟩
      cases w with
      | nil => exact .inl (heq ▸ hrest)
      | cons y w =>
        obtain ⟨rfl, rfl⟩ := List.cons_eq_cons.1 heq
        refine .inr ⟨(hw x (by simp)).symm.imp Eq.symm id, w, rest, rfl, fun z hz => ?_, hrest⟩
        exact hw z (.tail _ hz)

theorem matchone_iff {c : UInt8} {here : List UInt8 → Bool} (text : List UInt8) :
    matchone c here text = true ↔ ∃ w rest, text = w ++ rest ∧ w ∈ charLanguage c ∧ here rest = true := by
  cases text with
  | nil =>
    constructor
    · intro h
      cases h
    · rintro ⟨w, rest, heq, ⟨x, -, rfl⟩, -⟩
      cases heq
  | cons x text =>
    simp only [matchone, Bool.and_eq_true, Bool.or_eq_true, beq_iff_eq]
    constructor
    · rintro ⟨hx, hhere⟩
      exact ⟨[x], text, rfl, ⟨x, hx, rfl⟩, hhere⟩
    · rintro ⟨w, rest, heq, ⟨y, hy, rfl⟩, hrest⟩
      obtain ⟨rfl, rfl⟩ := List.cons_eq_cons.1 heq
      exact ⟨hy, hrest⟩

/-- A first part of a pattern, then the rest of it. -/
theorem exists_word_mul (L : Language UInt8) (re : List UInt8) {re' text : List UInt8}
    (hlast : re'.getLast? = some dollar ↔ re.getLast? = some dollar) (hL : language re' = L * language re) :
    (∃ w rest, text = w ++ rest ∧ w ∈ L ∧ ∃ v post, rest = v ++ post ∧ Word re v post) ↔
      ∃ w post, text = w ++ post ∧ Word re' w post := by
  unfold Word
  rw [hL, hlast]
  constructor
  · rintro ⟨w, rest, rfl, hw, v, post, rfl, hv, hend⟩
    exact ⟨w ++ v, post, (List.append_assoc ..).symm, Language.mem_mul.2 ⟨w, hw, v, hv, rfl⟩, hend⟩
  · rintro ⟨w, post, rfl, hw, hend⟩
    obtain ⟨u, hu, v, hv, rfl⟩ := Language.mem_mul.1 hw
    exact ⟨u, v ++ post, List.append_assoc .., hu, v, post, rfl, hv, hend⟩

/-- `matchhere` finds a word of the pattern at the beginning of the text. -/
theorem matchhere_iff : ∀ re text : List UInt8,
    matchhere re text = true ↔ ∃ w post, text = w ++ post ∧ Word re w post
  | [], text => by
    simp only [matchhere, true_iff]
    exact ⟨[], text, rfl, rfl, fun h => by cases h⟩
  | [c], text => by
    rw [matchhere]
    split_ifs with hc
    · rw [List.isEmpty_iff]
      constructor
      · rintro rfl
        exact ⟨[], [], rfl, by simp [language, hc], fun _ => rfl⟩
      · rintro ⟨w, post, rfl, hw, hend⟩
        rw [language, if_pos hc] at hw
        rw [(Language.mem_one w).1 hw, hend (by rw [hc]; rfl)]
        rfl
    · rw [matchone_iff, ← exists_word_mul (charLanguage c) [] (by simp [hc]) (by simp [language, hc])]
      simp only [matchhere_iff []]
  | c :: d :: re, text => by
    rw [matchhere]
    split_ifs with hd
    · rw [matchstar_iff, ← exists_word_mul (charLanguage c)∗ re ?_ (by rw [language, if_pos hd])]
      · simp only [matchhere_iff re]
      · cases re with
        | nil => simp [hd, star, dollar]
        | cons e re => simp
    · rw [matchone_iff, ← exists_word_mul (charLanguage c) (d :: re) (by simp) (by rw [language, if_neg hd])]
      simp only [matchhere_iff (d :: re)]

theorem matchFrom_iff (re text : List UInt8) :
    matchFrom re text = true ↔ ∃ pre rest, text = pre ++ rest ∧ matchhere re rest = true := by
  induction text with
  | nil => simp [matchFrom]
  | cons x text ih =>
    rw [matchFrom, Bool.or_eq_true, ih]
    constructor
    · rintro (hhere | ⟨pre, rest, rfl, hrest⟩)
      · exact ⟨[], x :: text, rfl, hhere⟩
      · exact ⟨x :: pre, rest, rfl, hrest⟩
    · rintro ⟨pre, rest, heq, hrest⟩
      cases pre with
      | nil => exact .inl (heq ▸ hrest)
      | cons y pre =>
        obtain ⟨rfl, rfl⟩ := List.cons_eq_cons.1 heq
        exact .inr ⟨pre, rest, rfl, hrest⟩

/-- `match` decides what its pattern means, for every pattern and every text. -/
theorem grepMatch_denotes (re text : List UInt8) : grepMatch re text = true ↔ Denotes re text := by
  unfold grepMatch Denotes
  split_ifs
  · exact matchhere_iff re.tail text
  · rw [matchFrom_iff]
    simp only [matchhere_iff]
    constructor
    · rintro ⟨pre, rest, rfl, w, post, rfl, hw⟩
      exact ⟨pre, w, post, (List.append_assoc ..).symm, hw⟩
    · rintro ⟨pre, w, post, rfl, hw⟩
      exact ⟨pre, w ++ post, List.append_assoc .., w, post, rfl, hw⟩

-- `$*b` repeats a literal `$`, `^*` is a literal `*` at the beginning
example : grepMatch [dollar, star, 98] [97, dollar, 98] = true ∧ grepMatch [caret, star] [97, star] = false := by
  decide

end Xv6.User
