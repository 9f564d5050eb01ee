import Mathlib.Data.List.FinRange
import Xv6.Base.Transition
import Xv6.Base.Window

/-!
# The virtio disk

The model of `kernel/virtio_disk.c` after `virtio_disk_init`, together with the device on the other side
of the queues. The driver publishes requests as chains of three descriptors in the avail ring and
learns from the used ring which chains are done; the device takes chains from the avail ring and
completes those it has taken in any order.

The driver's code holds `disk.vdisk_lock` except while it sleeps, but the device looks at the queues
at any time. So `virtio_disk_rw` is cut where the device can see a difference and where it may sleep:
formatting the descriptors and the next avail entry is one step, making the entry visible by
`avail->idx += 1` is another; a round of each loop is a step. Likewise a round of the loop of
`virtio_disk_intr`.
-/

set_option autoImplicit false

namespace Xv6.Virtio

open Function Xv6.Base

def NUM : Nat := 8

instance : NeZero NUM := ⟨by decide⟩

def BSIZE : Nat := 1024

def VRING_DESC_F_NEXT : UInt16 := 1
def VRING_DESC_F_WRITE : UInt16 := 2
def VIRTIO_BLK_T_IN : UInt32 := 0
def VIRTIO_BLK_T_OUT : UInt32 := 1

/-- What a descriptor points to: an entry of `disk.ops`, the data of a buffer, or the status byte of an
entry of `disk.info`. -/
inductive Addr where
  | null
  | op (i : Fin NUM)
  | data (b : Nat)
  | status (i : Fin NUM)
  deriving DecidableEq, Repr

/-- `struct virtq_desc`. -/
structure Desc where
  addr : Addr
  len : Nat
  flags : UInt16
  next : UInt16
  deriving DecidableEq, Repr

/-- A descriptor as `free_desc` leaves it. -/
def Desc.zero : Desc := ⟨.null, 0, 0, 0⟩

/-- `struct virtio_blk_req`. -/
structure BlkReq where
  type : UInt32
  reserved : UInt32
  sector : UInt64
  deriving DecidableEq, Repr

/-- An entry of `disk.info`; a buffer is known by its address. -/
structure Info where
  b : Option Nat
  status : UInt8
  deriving DecidableEq, Repr

/-- `struct disk` without its spinlock, with the descriptor table and the two rings that it shares with the
device. -/
structure Disk where
  desc : Fin NUM → Desc
  availIdx : UInt16
  availRing : Fin NUM → UInt16
  usedIdx : UInt16
  usedRing : Fin NUM → UInt32
  free : Fin NUM → Bool
  used_idx : UInt16
  info : Fin NUM → Info
  ops : Fin NUM → BlkReq

/-- The panics of the driver; `wild` stands for a null pointer that is used or an index out of range. -/
inductive Panic where
  | freeDesc1
  | freeDesc2
  | intrStatus
  | wild
  deriving DecidableEq, Repr

/-- The text each `panic` call prints. -/
def Panic.message : Panic → String
  | .freeDesc1 => "free_desc 1"
  | .freeDesc2 => "free_desc 2"
  | .intrStatus => "virtio_disk_intr status"
  | .wild => ""

/-- The entry of a ring that a counter addresses, `c % NUM`. -/
def cell (c : UInt16) : Fin NUM := Fin.ofNat NUM c.toNat

/-! ## Descriptors -/

/-- `alloc_desc()`: the descriptor found. -/
def allocDesc (d : Disk) : Option (Fin NUM) := (List.finRange NUM).find? fun i => d.free i

/-- `disk.free[i] = 0`. -/
def Disk.take (d : Disk) (i : Fin NUM) : Disk := { d with free := update d.free i false }

/-- `free_desc(i)`, without the `wakeup`. -/
def freeDesc (i : Nat) (d : Disk) : Except Panic Disk :=
  if h : i < NUM then
    if d.free ⟨i, h⟩ then .error .freeDesc2
    else .ok { d with
      desc := update d.desc ⟨i, h⟩ .zero
      free := update d.free ⟨i, h⟩ true }
  else .error .freeDesc1

/-- `free_chain(i)`. A descriptor that is met a second time is free, so there are at most `NUM` rounds
before the loop ends or panics. -/
def freeChain : Nat → Nat → Disk → Except Panic Disk
  | 0, _, _ => .error .wild
  | n + 1, i, d =>
    let old := d.desc (Fin.ofNat NUM i)
    match freeDesc i d with
    | .error m => .error m
    | .ok d => if old.flags &&& VRING_DESC_F_NEXT ≠ 0 then freeChain n old.next.toNat d else .ok d

/-- The descriptors taken so far are given back. -/
def freeAll : List (Fin NUM) → Disk → Except Panic Disk
  | [], d => .ok d
  | i :: is, d =>
    match freeDesc i d with
    | .error m => .error m
    | .ok d => freeAll is d

/-- `n` rounds of the loop of `alloc3_desc`, with the descriptors `idx` taken so far. -/
def allocLoop : Nat → List (Fin NUM) → Disk → Except Panic (Option (List (Fin NUM)) × Disk)
  | 0, idx, d => .ok (some idx, d)
  | n + 1, idx, d =>
    match allocDesc d with
    | some i => allocLoop n (idx ++ [i]) (d.take i)
    | none => (freeAll idx d).map fun d => (none, d)

/-- The three descriptors of a request. -/
structure Chain where
  i0 : Fin NUM
  i1 : Fin NUM
  i2 : Fin NUM
  deriving DecidableEq, Repr

/-- `alloc3_desc(idx)`. -/
def alloc3Desc (d : Disk) : Except Panic (Option Chain × Disk) :=
  (allocLoop 3 [] d).map fun r =>
    match r with
    | (some [i0, i1, i2], d) => (some ⟨i0, i1, i2⟩, d)
    | (_, d) => (none, d)

/-! ## `virtio_disk_rw` -/

/-- The arguments of `virtio_disk_rw(b, write)`, with the sector computed from `b->blockno`. -/
structure Req where
  b : Nat
  write : Bool
  sector : UInt64
  deriving DecidableEq, Repr

/-- Entry into `virtio_disk_rw`; the sector number is computed with `uint`s. -/
def Req.enter (b : Nat) (blockno : UInt32) (write : Bool) : Req :=
  ⟨b, write, (blockno * UInt32.ofNat (BSIZE / 512)).toUInt64⟩

def Disk.setDesc (d : Disk) (i : Fin NUM) (x : Desc) : Disk :=
  { d with desc := update d.desc i x }

def Disk.setInfo (d : Disk) (i : Fin NUM) (x : Info) : Disk :=
  { d with info := update d.info i x }

def Disk.setOp (d : Disk) (i : Fin NUM) (x : BlkReq) : Disk :=
  { d with ops := update d.ops i x }

/-- The code from the format of the first descriptor to the entry in the avail ring. -/
def format (r : Req) (c : Chain) (d : Disk) : Disk :=
  let d := d.setOp c.i0 ⟨if r.write then VIRTIO_BLK_T_OUT else VIRTIO_BLK_T_IN, 0, r.sector⟩
  let d := d.setDesc c.i0 ⟨.op c.i0, 16, VRING_DESC_F_NEXT, UInt16.ofNat c.i1⟩
  let d := d.setDesc c.i1 ⟨.data r.b, BSIZE,
    (if r.write then 0 else VRING_DESC_F_WRITE) ||| VRING_DESC_F_NEXT, UInt16.ofNat c.i2⟩
  let d := d.setInfo c.i0 { d.info c.i0 with status := 0xff }
  let d := d.setDesc c.i2 ⟨.status c.i0, 1, VRING_DESC_F_WRITE, 0⟩
  let d := d.setInfo c.i0 { d.info c.i0 with b := some r.b }
  { d with availRing := update d.availRing (cell d.availIdx) (UInt16.ofNat c.i0) }

/-- The data that the driver works on: `disk`, and `b->disk` of every buffer. -/
structure Shared where
  disk : Disk
  busy : Nat → Bool

/-- Sleep channels: `&disk.free[0]` and the address of a buffer. -/
inductive Chan where
  | free
  | buf (b : Nat)
  deriving DecidableEq, Repr

/-- Places in the code: the loop that allocates descriptors, before `avail->idx += 1`, the loop that waits
for the request, and the loop of `virtio_disk_intr`. -/
inductive Cont where
  | alloc (r : Req)
  | publish (r : Req) (c : Chain)
  | wait (r : Req) (c : Chain)
  | intr
  deriving DecidableEq, Repr

/-- How a step ends for the thread that makes it. -/
inductive Next where
  | goto (k : Cont)
  | sleep (ch : Chan) (k : Cont)
  | ret
  | panic (m : Panic)
  deriving DecidableEq, Repr

/-- What a step shows: a request becomes visible to the device, the device completes a request, an
interrupt handler clears `b->disk`, `virtio_disk_rw` returns. -/
inductive Label where
  | silent
  | published (p : Nat) (r : Req)
  | completed (r : Req)
  | cleared (b : Nat)
  | returned (p : Nat) (r : Req)
  deriving DecidableEq, Repr

/-- Result of a step of the driver, with the channel that is woken. -/
structure Outcome where
  shared : Shared
  wake : Option Chan
  next : Next
  label : Label

/-- A round of the loop that allocates descriptors; after the last one the request is formatted. -/
def allocRound (r : Req) (s : Shared) : Outcome :=
  match alloc3Desc s.disk with
  | .error m => ⟨s, none, .panic m, .silent⟩
  | .ok (none, d) => ⟨{ s with disk := d }, some .free, .sleep .free (.alloc r), .silent⟩
  | .ok (some c, d) =>
    ⟨⟨format r c d, update s.busy r.b true⟩, none, .goto (.publish r c), .silent⟩

/-- `avail->idx += 1`, made by thread `p`. -/
def publish (p : Nat) (r : Req) (c : Chain) (s : Shared) : Outcome :=
  ⟨{ s with disk := { s.disk with availIdx := s.disk.availIdx + 1 } }, none, .goto (.wait r c),
    .published p r⟩

/-- A round of the loop that waits for the request, with what follows the loop. -/
def waitRound (p : Nat) (r : Req) (c : Chain) (s : Shared) : Outcome :=
  if s.busy r.b then ⟨s, none, .sleep (.buf r.b) (.wait r c), .silent⟩
  else
    let d := s.disk.setInfo c.i0 { s.disk.info c.i0 with b := none }
    match freeChain (NUM + 1) c.i0 d with
    | .error m => ⟨s, none, .panic m, .silent⟩
    | .ok d => ⟨{ s with disk := d }, some .free, .ret, .returned p r⟩

/-! ## `virtio_disk_intr` -/

/-- A round of the loop of `virtio_disk_intr`. -/
def intrRound (s : Shared) : Outcome :=
  if s.disk.used_idx ≠ s.disk.usedIdx then
    let id := s.disk.usedRing (cell s.disk.used_idx)
    if h : id.toNat < NUM then
      if (s.disk.info ⟨id.toNat, h⟩).status ≠ 0 then ⟨s, none, .panic .intrStatus, .silent⟩
      else
        match (s.disk.info ⟨id.toNat, h⟩).b with
        | none => ⟨s, none, .panic .wild, .silent⟩
        | some b =>
          ⟨⟨{ s.disk with used_idx := s.disk.used_idx + 1 }, update s.busy b false⟩,
            some (.buf b), .goto .intr, .cleared b⟩
    else ⟨s, none, .panic .wild, .silent⟩
  else ⟨s, none, .ret, .silent⟩

/-- The step a thread makes at a place. -/
def contStep (p : Nat) (s : Shared) : Cont → Outcome
  | .alloc r => allocRound r s
  | .publish r c => publish p r c s
  | .wait r c => waitRound p r c s
  | .intr => intrRound s

/-! ## The device -/

/-- The device's own state: how far it has looked in the avail ring, and the chains that it has taken and
not completed. -/
structure Device where
  seen : UInt16
  inflight : List (Fin NUM)

/-- The request that the device reads from the chain with head `h`, and where the status goes. -/
def Disk.request (d : Disk) (h : Fin NUM) : Option (Req × Fin NUM) :=
  let d0 := d.desc h
  let d1 := d.desc (Fin.ofNat NUM d0.next.toNat)
  let d2 := d.desc (Fin.ofNat NUM d1.next.toNat)
  match d0.addr, d1.addr, d2.addr with
  | .op i, .data b, .status j =>
    if d0.flags &&& VRING_DESC_F_NEXT ≠ 0 ∧ d1.flags &&& VRING_DESC_F_NEXT ≠ 0 ∧
        d2.flags &&& VRING_DESC_F_NEXT = 0 then
      some (⟨b, decide ((d.ops i).type = VIRTIO_BLK_T_OUT), (d.ops i).sector⟩, j)
    else none
  | _, _, _ => none

/-- The device completes the chain with head `h`: it writes status 0 and an entry of the used ring. -/
def Disk.complete (d : Disk) (h j : Fin NUM) : Disk :=
  { d with
    info := update d.info j { d.info j with status := 0 }
    usedRing := update d.usedRing (cell d.usedIdx) (UInt32.ofNat h)
    usedIdx := d.usedIdx + 1 }

/-! ## The system -/

/-- Where a thread stands: outside the driver, in `acquire(&disk.vdisk_lock)`, holding the lock, asleep, or
stopped by a panic. -/
inductive Pc where
  | idle
  | waiting (k : Cont)
  | running (k : Cont)
  | sleeping (ch : Chan) (k : Cont)
  | panicked (m : Panic)
  deriving DecidableEq, Repr

/-- The place of a thread in the code. -/
def Pc.cont : Pc → Option Cont
  | .waiting k | .running k | .sleeping _ k => some k
  | _ => none

/-- The buffer that a place works on. -/
def Cont.buf : Cont → Option Nat
  | .alloc r | .publish r _ | .wait r _ => some r.b
  | .intr => none

/-- Driver, device and threads. A thread is a process or an interrupt handler. -/
structure Sys where
  shared : Shared
  dev : Device
  lock : Option Nat
  pc : Nat → Pc

/-- `wakeup(chan)`. -/
def wakeup (ch : Chan) (pc : Nat → Pc) : Nat → Pc := fun q =>
  match pc q with
  | .sleeping ch' k => if ch' = ch then .waiting k else .sleeping ch' k
  | pcq => pcq

/-- `wakeup` of an optional channel. -/
def wakeup? : Option Chan → (Nat → Pc) → Nat → Pc
  | none, pc => pc
  | some ch, pc => wakeup ch pc

def Next.pc : Next → Pc
  | .goto k => .running k
  | .sleep ch k => .sleeping ch k
  | .ret => .idle
  | .panic m => .panicked m

/-- The lock after a step of thread `p`. -/
def Next.lock (p : Nat) : Next → Option Nat
  | .goto _ | .panic _ => some p
  | .sleep _ _ | .ret => none

/-- The system after a step of thread `p`. -/
def Sys.apply (s : Sys) (p : Nat) (o : Outcome) : Sys :=
  { s with
    shared := o.shared
    lock := o.next.lock p
    pc := update (wakeup? o.wake s.pc) p o.next.pc }

/-- Steps of the driver's threads and of the device. A buffer is in one request at a time. -/
inductive Step : Sys → Label → Sys → Prop
  | call (s : Sys) (p b : Nat) (blockno : UInt32) (write : Bool) : s.pc p = .idle →
      (∀ q k, (s.pc q).cont = some k → k.buf ≠ some b) →
      Step s .silent { s with
        pc := update s.pc p (.waiting (.alloc (.enter b blockno write))) }
  | interrupt (s : Sys) (p : Nat) : s.pc p = .idle →
      Step s .silent { s with pc := update s.pc p (.waiting .intr) }
  | acquire (s : Sys) (p : Nat) (k : Cont) : s.pc p = .waiting k → s.lock = none →
      Step s .silent { s with lock := some p, pc := update s.pc p (.running k) }
  | driver (s : Sys) (p : Nat) (k : Cont) : s.pc p = .running k →
      Step s (contStep p s.shared k).label (s.apply p (contStep p s.shared k))
  | take (s : Sys) (h : Fin NUM) : s.dev.seen ≠ s.shared.disk.availIdx →
      (s.shared.disk.availRing (cell s.dev.seen)).toNat = h →
      Step s .silent { s with dev := ⟨s.dev.seen + 1, s.dev.inflight ++ [h]⟩ }
  | complete (s : Sys) (h j : Fin NUM) (r : Req) : h ∈ s.dev.inflight →
      s.shared.disk.request h = some (r, j) →
      Step s (.completed r) { s with
        shared := { s.shared with disk := s.shared.disk.complete h j }
        dev := { s.dev with inflight := s.dev.inflight.erase h } }

/-- The system after `virtio_disk_init`. -/
def Sys.init : Sys where
  shared :=
    { disk :=
        { desc := fun _ => .zero, availIdx := 0, availRing := fun _ => 0, usedIdx := 0,
          usedRing := fun _ => 0, free := fun _ => true, used_idx := 0,
          info := fun _ => ⟨none, 0⟩, ops := fun _ => ⟨0, 0, 0⟩ }
      busy := fun _ => false }
  dev := ⟨0, []⟩
  lock := none
  pc := fun _ => .idle

end Xv6.Virtio
