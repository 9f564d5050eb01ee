import Xv6.Base.Bytes
import Xv6.Base.Param
import Xv6.Base.StateExcept

/-!
# Blocks, the log and the free bit map

The lower half of `kernel/fs.c` with the part of `kernel/log.c` that a single operation sees. The
contents of the blocks are one byte-addressed memory, block `b` at `b * BSIZE`: `data` is what `bread`
returns and `disk` what the home locations of the blocks hold. `log_write` puts a block into the current
transaction; when the last operation ends, the blocks of the transaction are copied to the disk.
-/

set_option autoImplicit false

namespace Xv6.Fs

open Function Xv6.Base

def BSIZE : Nat := 1024
def ROOTINO : Nat := 1
def NDIRECT : Nat := 12
/-- `BSIZE / sizeof(uint)`. -/
def NINDIRECT : Nat := 256
def MAXFILE : Nat := NDIRECT + NINDIRECT
/-- Inodes per block. -/
def IPB : Nat := 16
/-- Bits of the bit map per block. -/
def BPB : Nat := BSIZE * 8
def DIRSIZ : Nat := 14
/-- `sizeof(struct dirent)`. -/
def direntSize : Nat := 16

def T_DIR : Int16 := 1
def T_FILE : Int16 := 2
def T_DEVICE : Int16 := 3

/-- The panics of the file system; `deadlock` stands for a sleep-lock acquired by its holder. -/
inductive Panic where
  | tooBig
  | outsideOfTrans
  | freeingFreeBlock
  | bmapOutOfRange
  | igetNoInodes
  | ilock
  | ilockNoType
  | iunlock
  | dirlookupNotDir
  | dirlookupRead
  | dirlinkRead
  | isdiremptyReadi
  | unlinkNlink
  | unlinkWritei
  | deadlock
  deriving DecidableEq, Repr

/-- The text each `panic` call prints. -/
def Panic.message : Panic → String
  | .tooBig => "too big a transaction"
  | .outsideOfTrans => "log_write outside of trans"
  | .freeingFreeBlock => "freeing free block"
  | .bmapOutOfRange => "bmap: out of range"
  | .igetNoInodes => "iget: no inodes"
  | .ilock => "ilock"
  | .ilockNoType => "ilock: no type"
  | .iunlock => "iunlock"
  | .dirlookupNotDir => "dirlookup not DIR"
  | .dirlookupRead => "dirlookup read"
  | .dirlinkRead => "dirlink read"
  | .isdiremptyReadi => "isdirempty: readi"
  | .unlinkNlink => "unlink: nlink < 1"
  | .unlinkWritei => "unlink: writei"
  | .deadlock => ""

/-- `struct superblock`; the number of blocks is a `uint`. -/
structure Superblock where
  size : Nat
  nblocks : Nat
  ninodes : Nat
  nlog : Nat
  logstart : Nat
  inodestart : Nat
  bmapstart : Nat
  size_lt : size < 2 ^ 32

/-- Block containing inode `i`. -/
def Superblock.IBLOCK (sb : Superblock) (i : Nat) : Nat := i / IPB + sb.inodestart

/-- Block of the free map containing the bit for block `b`. -/
def Superblock.BBLOCK (sb : Superblock) (b : Nat) : Nat := b / BPB + sb.bmapstart

/-! ## Inodes on disk -/

/-- `struct dinode`, and the copy of it in `struct inode`. -/
structure Dinode where
  type : Int16
  major : Int16
  minor : Int16
  nlink : Int16
  size : UInt32
  addrs : Fin (NDIRECT + 1) → UInt32
  deriving DecidableEq

def Dinode.zero : Dinode := ⟨0, 0, 0, 0, 0, fun _ => 0⟩

/-- `sizeof(struct dinode)`. -/
def dinodeSize : Nat := 64

/-- The `short` at address `a`. -/
def loadShort (m : Mem) (a : Nat) : Int16 := (UInt16.ofNat (loadLE m a 2)).toInt16

/-- The `uint` at address `a`. -/
def loadUint (m : Mem) (a : Nat) : UInt32 := UInt32.ofNat (loadLE m a 4)

def storeShort (m : Mem) (a : Nat) (x : Int16) : Mem := storeLE m a 2 x.toUInt16.toNat

def storeUint (m : Mem) (a : Nat) (x : UInt32) : Mem := storeLE m a 4 x.toNat

/-- The fields of the `struct dinode` at address `a`. -/
def readDinode (m : Mem) (a : Nat) : Dinode where
  type := loadShort m a
  major := loadShort m (a + 2)
  minor := loadShort m (a + 4)
  nlink := loadShort m (a + 6)
  size := loadUint m (a + 8)
  addrs := fun i => loadUint m (a + 12 + 4 * i)

/-- Copy the first `n` of `addrs` to `a`. -/
def storeAddrs (m : Mem) (a : Nat) (addrs : Nat → UInt32) : Nat → Mem
  | 0 => m
  | n + 1 => storeUint (storeAddrs m a addrs n) (a + 4 * n) (addrs n)

/-- Store a `struct dinode` at address `a`. -/
def writeDinode (m : Mem) (a : Nat) (d : Dinode) : Mem :=
  let m := storeShort m a d.type
  let m := storeShort m (a + 2) d.major
  let m := storeShort m (a + 4) d.minor
  let m := storeShort m (a + 6) d.nlink
  let m := storeUint m (a + 8) d.size
  storeAddrs m (a + 12) (fun i => d.addrs (Fin.ofNat (NDIRECT + 1) i)) (NDIRECT + 1)

/-- Address of dinode `i`: entry `i % IPB` of block `IBLOCK(i, sb)`. -/
def Superblock.dinode (sb : Superblock) (i : Nat) : Nat :=
  sb.IBLOCK i * BSIZE + i % IPB * dinodeSize

/-! ## State -/

/-- The in-memory log header and the number of operations; `writes` are all the blocks that `log_write` was
called for. -/
structure Log where
  block : List Nat
  outstanding : Nat
  writes : List Nat

/-- `struct inode`. -/
structure Inode where
  dev : Nat
  inum : Nat
  ref : Int
  locked : Bool
  valid : Bool
  di : Dinode

/-- The inode of a sleep-lock that is released, with its copy of the dinode and the dinode itself. -/
structure Release where
  inum : Nat
  valid : Bool
  di : Dinode
  onDisk : Dinode

/-- The file system: blocks, log and inode table, with the history of released sleep-locks. -/
structure State where
  data : Mem
  disk : Mem
  log : Log
  inode : Fin NINODE → Inode
  releases : List Release

namespace State

variable (s : State)

def setData (m : Mem) : State := { s with data := m }

def setLog (l : Log) : State := { s with log := l }

def setInode (k : Fin NINODE) (ip : Inode) : State := { s with inode := update s.inode k ip }

@[simp]
theorem setData_data (m : Mem) : (s.setData m).data = m := rfl

@[simp]
theorem setData_log (m : Mem) : (s.setData m).log = s.log := rfl

@[simp]
theorem setData_inode (m : Mem) : (s.setData m).inode = s.inode := rfl

@[simp]
theorem setLog_data (l : Log) : (s.setLog l).data = s.data := rfl

@[simp]
theorem setLog_log (l : Log) : (s.setLog l).log = l := rfl

@[simp]
theorem setLog_inode (l : Log) : (s.setLog l).inode = s.inode := rfl

@[simp]
theorem setInode_data (k : Fin NINODE) (ip : Inode) : (s.setInode k ip).data = s.data := rfl

@[simp]
theorem setInode_log (k : Fin NINODE) (ip : Inode) : (s.setInode k ip).log = s.log := rfl

@[simp]
theorem setInode_inode (k : Fin NINODE) (ip : Inode) : (s.setInode k ip).inode = update s.inode k ip := rfl

end State

/-- File-system code. -/
abbrev FM := StateT State (Except Panic)

/-- The contents of the blocks. -/
def getData : FM Mem := fun s => .ok (s.data, s)

/-- Change the contents of blocks. -/
def modifyData (f : Mem → Mem) : FM Unit := fun s => .ok ((), s.setData (f s.data))

/-! ## The log -/

/-- The log after `log_write` of block `b`. -/
def Log.add (l : Log) (b : Nat) : Log where
  block := if b ∈ l.block then l.block else l.block ++ [b]
  outstanding := l.outstanding
  writes := l.writes ++ [b]

/-- `log_write(b)`. -/
def logWrite (sb : Superblock) (b : Nat) : FM Unit := fun s =>
  if LOGSIZE ≤ s.log.block.length ∨ sb.nlog ≤ s.log.block.length + 1 then .error .tooBig
  else if s.log.outstanding < 1 then .error .outsideOfTrans
  else .ok ((), s.setLog (s.log.add b))

/-- `begin_op()` for an operation that finds room in the log. -/
def beginOp : FM Unit := fun s =>
  .ok ((), s.setLog { s.log with outstanding := s.log.outstanding + 1 })

/-- The disk after the blocks of a transaction are installed. -/
def install (blocks : List Nat) (data disk : Mem) : Mem := fun a =>
  if a / BSIZE ∈ blocks then data a else disk a

/-- `end_op()`; the last operation commits. -/
def endOp : FM Unit := fun s =>
  if s.log.outstanding - 1 = 0 then
    .ok ((), { s with
      disk := install s.log.block s.data s.disk
      log := { s.log with block := [], outstanding := 0 } })
  else .ok ((), s.setLog { s.log with outstanding := s.log.outstanding - 1 })

/-! ## Blocks -/

section

variable (sb : Superblock)

/-- `bzero(dev, bno)`. -/
def bzero (bno : Nat) : FM Unit := do
  modifyData fun m => fill m (bno * BSIZE) BSIZE 0
  logWrite sb bno

/-- Address of the byte with the bit for block `b + bi`, where `b` is a multiple of `BPB`. -/
def bitAddr (b bi : Nat) : Nat := sb.BBLOCK b * BSIZE + bi / 8

/-- `1 << (bi % 8)`. -/
def bitMask (bi : Nat) : UInt8 := 1 <<< UInt8.ofNat (bi % 8)

/-- The loops of `balloc`: the first block whose bit is clear, as `(b, bi)`. -/
def findFree (m : Mem) : Option (Nat × Nat) :=
  ((List.range ((sb.size + BPB - 1) / BPB)).map (· * BPB)).findSome? fun b =>
    ((List.range BPB).find? fun bi =>
      decide (b + bi < sb.size) && decide (m (bitAddr sb b bi) &&& bitMask bi = 0)).map fun bi => (b, bi)

/-- `balloc(dev)`. -/
def balloc : FM Nat := do
  let m ← getData
  match findFree sb m with
  | some (b, bi) => do
      modifyData fun m =>
        update m (bitAddr sb b bi) (m (bitAddr sb b bi) ||| bitMask bi)
      logWrite sb (sb.BBLOCK b)
      bzero sb (b + bi)
      pure (b + bi)
  | none => pure 0

/-- `bfree(dev, b)`. -/
def bfree (b : Nat) : FM Unit := do
  let m ← getData
  let bi := b % BPB
  if m (bitAddr sb b bi) &&& bitMask bi = 0 then throw .freeingFreeBlock
  else do
    modifyData fun m =>
      update m (bitAddr sb b bi) (m (bitAddr sb b bi) &&& ~~~ (bitMask bi))
    logWrite sb (sb.BBLOCK b)

end

end Xv6.Fs
