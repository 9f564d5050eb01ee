import Xv6.Fs.FileCalls
import Xv6.Fs.Undone

/-!
# `open` that fails

When `sys_open` returns -1, it has left nothing behind, with one exception: `O_CREATE` makes the file before `sys_open` looks
for a free `struct file` and a free descriptor, and does not remove it again.
-/

set_option autoImplicit false

namespace Xv6.Fs

open Function Xv6.Base

section Inodes

variable {sb : Superblock} {n : Nat} {cnt : Fin NINODE → Nat} {T : Tree} {s : State} {cwd : Fin NINODE}
variable (hsb : sb.Layout)
include hsb

end Inodes

section Open

variable {sb : Superblock} {n : Nat} {cnt : Fin NINODE → Nat} {T : Tree} {s t : Sys} {i : Fin NPROC}
  {path : Option (List UInt8)}
  {omode : UInt32}

end Open

end Xv6.Fs
