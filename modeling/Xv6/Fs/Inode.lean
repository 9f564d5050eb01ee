import Xv6.Fs.Disk
import Xv6.Vm.Space

/-!
# Inodes

The inode layer of `kernel/fs.c`. An `ip` is the index of an entry of the inode table. A sleep-lock is a
flag: operations are run one after the other, so a lock that is found taken is one that the operation
itself holds.
-/

set_option autoImplicit false

namespace Xv6.Fs

open Xv6.Base Xv6.Vm

/-- An entry of the inode table. -/
def getInode (k : Fin NINODE) : FM Inode := fun s => .ok (s.inode k, s)

theorem getInode_eq (k : Fin NINODE) (s : State) : getInode k s = .ok (s.inode k, s) := rfl

/-- Change an entry of the inode table. -/
def modifyInode (k : Fin NINODE) (f : Inode → Inode) : FM Unit := fun s =>
  .ok ((), s.setInode k (f (s.inode k)))

/-- Change the in-memory copy of a dinode. -/
def modifyDi (k : Fin NINODE) (f : Dinode → Dinode) : FM Unit :=
  modifyInode k fun ip => { ip with di := f ip.di }

/-- `ip->addrs[i] = x`. -/
def Dinode.setAddr (d : Dinode) (i : Fin (NDIRECT + 1)) (x : UInt32) : Dinode :=
  { d with addrs := Function.update d.addrs i x }

/-- `acquiresleep(&ip->lock)`. -/
def acquiresleep (k : Fin NINODE) : FM Unit := fun s =>
  if (s.inode k).locked then .error .deadlock
  else .ok ((), s.setInode k { s.inode k with locked := true })

section

variable (sb : Superblock)

/-- `releasesleep(&ip->lock)`. -/
def releasesleep (k : Fin NINODE) : FM Unit := fun s =>
  let ip := s.inode k
  .ok ((), { s.setInode k { ip with locked := false } with
    releases := s.releases ++ [⟨ip.inum, ip.valid, ip.di, readDinode s.data (sb.dinode ip.inum)⟩] })

/-- The loop of `iget`: the entry of the inode, or the first entry that is not in use. -/
def State.findInode (s : State) (dev inum : Nat) : Option (Fin NINODE) :=
  (List.finRange NINODE).find? fun k =>
    decide (0 < (s.inode k).ref ∧ (s.inode k).dev = dev ∧ (s.inode k).inum = inum)

def State.emptyInode (s : State) : Option (Fin NINODE) :=
  (List.finRange NINODE).find? fun k => decide ((s.inode k).ref = 0)

/-- `iget(dev, inum)`. -/
def iget (dev inum : Nat) : FM (Fin NINODE) := fun s =>
  match s.findInode dev inum with
  | some k => .ok (k, s.setInode k { s.inode k with ref := (s.inode k).ref + 1 })
  | none =>
    match s.emptyInode with
    | some k =>
      .ok (k, s.setInode k { s.inode k with dev := dev, inum := inum, ref := 1, valid := false })
    | none => .error .igetNoInodes

/-- `idup(ip)`. -/
def idup (k : Fin NINODE) : FM Unit := modifyInode k fun ip => { ip with ref := ip.ref + 1 }

/-- The first free inode of the loop of `ialloc`. -/
def findFreeInode (m : Mem) : Option Nat :=
  (List.range sb.ninodes).find? fun i => decide (0 < i ∧ (readDinode m (sb.dinode i)).type = 0)

/-- `ialloc(dev, type)`. -/
def ialloc (dev : Nat) (type : Int16) : FM (Option (Fin NINODE)) := do
  let m ← getData
  match findFreeInode sb m with
  | some inum => do
      modifyData fun m => writeDinode m (sb.dinode inum) { Dinode.zero with type := type }
      logWrite sb (sb.IBLOCK inum)
      let k ← iget dev inum
      pure (some k)
  | none => pure none

/-- `iupdate(ip)`. -/
def iupdate (k : Fin NINODE) : FM Unit := do
  let ip ← getInode k
  modifyData fun m => writeDinode m (sb.dinode ip.inum) ip.di
  logWrite sb (sb.IBLOCK ip.inum)

/-- `ilock(ip)`. -/
def ilock (k : Fin NINODE) : FM Unit := do
  let ip ← getInode k
  if ip.ref < 1 then throw .ilock
  else do
    acquiresleep k
    if ip.valid then pure ()
    else do
      let m ← getData
      modifyInode k fun ip => { ip with valid := true, di := readDinode m (sb.dinode ip.inum) }
      let ip ← getInode k
      if ip.di.type = 0 then throw .ilockNoType else pure ()

/-- `iunlock(ip)`. -/
def iunlock (k : Fin NINODE) : FM Unit := do
  let ip ← getInode k
  if ip.locked = false ∨ ip.ref < 1 then throw .iunlock
  else releasesleep sb k

/-! ## Contents -/

/-- Entry `bn` of the indirect block `b`. -/
def indirect (m : Mem) (b bn : Nat) : UInt32 := loadUint m (b * BSIZE + 4 * bn)

/-- The part of `bmap` for `ip->addrs[i]`: the block there, which is allocated if there is none. -/
def bmapAddr (k : Fin NINODE) (i : Fin (NDIRECT + 1)) : FM Nat := do
  let ip ← getInode k
  if ip.di.addrs i = 0 then do
    let addr ← balloc sb
    if addr = 0 then pure 0
    else do
      modifyDi k fun d => d.setAddr i (UInt32.ofNat addr)
      pure addr
  else pure (ip.di.addrs i).toNat

/-- The part of `bmap` for entry `bn` of the indirect block `b`. -/
def bmapIndirect (b bn : Nat) : FM Nat := do
  let m ← getData
  if indirect m b bn = 0 then do
    let addr ← balloc sb
    if addr = 0 then pure 0
    else do
      modifyData fun m => storeUint m (b * BSIZE + 4 * bn) (UInt32.ofNat addr)
      logWrite sb b
      pure addr
  else pure (indirect m b bn).toNat

theorem neZero_addrs : NeZero (NDIRECT + 1) := ⟨Nat.succ_ne_zero NDIRECT⟩

/-- `bmap(ip, bn)`. -/
def bmap (k : Fin NINODE) (bn : Nat) : FM Nat :=
  if bn < NDIRECT then bmapAddr sb k (@Fin.ofNat (NDIRECT + 1) neZero_addrs bn)
  else if bn - NDIRECT < NINDIRECT then do
    let addr ← bmapAddr sb k (Fin.last NDIRECT)
    if addr = 0 then pure 0 else bmapIndirect sb addr (bn - NDIRECT)
  else throw .bmapOutOfRange

/-- The loop of `itrunc` over the direct blocks. -/
def itruncDirect (k : Fin NINODE) : List (Fin (NDIRECT + 1)) → FM Unit
  | [] => pure ()
  | i :: is => do
      let ip ← getInode k
      if ip.di.addrs i = 0 then itruncDirect k is
      else do
        bfree sb (ip.di.addrs i).toNat
        modifyDi k fun d => d.setAddr i 0
        itruncDirect k is

/-- The loop of `itrunc` over the entries of the indirect block `b`. -/
def itruncIndirect (b : Nat) : List Nat → FM Unit
  | [] => pure ()
  | j :: js => do
      let m ← getData
      if indirect m b j = 0 then itruncIndirect b js
      else do
        bfree sb (indirect m b j).toNat
        itruncIndirect b js

/-- The indices of the direct blocks. -/
def directIndices : List (Fin (NDIRECT + 1)) := (List.finRange NDIRECT).map Fin.castSucc

/-- `itrunc(ip)`. -/
def itrunc (k : Fin NINODE) : FM Unit := do
  itruncDirect sb k directIndices
  let ip ← getInode k
  (if ip.di.addrs (Fin.last NDIRECT) = 0 then pure ()
    else do
      itruncIndirect sb (ip.di.addrs (Fin.last NDIRECT)).toNat (List.range NINDIRECT)
      bfree sb (ip.di.addrs (Fin.last NDIRECT)).toNat
      modifyDi k fun d => d.setAddr (Fin.last NDIRECT) 0)
  modifyDi k fun d => { d with size := 0 }
  iupdate sb k

/-- `iput(ip)`. -/
def iput (k : Fin NINODE) : FM Unit := do
  let ip ← getInode k
  (if ip.ref = 1 ∧ ip.valid = true ∧ ip.di.nlink = 0 then do
      acquiresleep k
      itrunc sb k
      modifyDi k fun d => { d with type := 0 }
      iupdate sb k
      modifyInode k fun ip => { ip with valid := false }
      releasesleep sb k
    else pure ())
  modifyInode k fun ip => { ip with ref := ip.ref - 1 }

/-- `iunlockput(ip)`. -/
def iunlockput (k : Fin NINODE) : FM Unit := do
  iunlock sb k
  iput sb k

/-- Where `readi` puts the bytes: a kernel buffer, or user memory, where `copyout` of `m` bytes after the
first `tot` may fail. -/
inductive Dst where
  | kernel
  | user (copyout : Nat → Nat → Bool)

/-- `either_copyout` of `m` bytes after the first `tot`. -/
def Dst.copyout : Dst → Nat → Nat → Bool
  | .kernel, _, _ => true
  | .user ok, tot, m => ok tot m

/-- `m = min(n - tot, BSIZE - off%BSIZE)`. -/
def piece (off rest : Nat) : Nat := min rest (BSIZE - off % BSIZE)

/-- The loop of `readi`: `tot` bytes, those of `acc`, have been read, and the next one is at `off`. Every
round reads at least one byte, so `fuel` rounds are enough for as many bytes. -/
def readiLoop (k : Fin NINODE) (dst : Dst) (n : Nat) :
    Nat → Nat → Nat → List UInt8 → FM (Int × List UInt8)
  | 0, _, tot, acc => pure ((tot : Int), acc)
  | fuel + 1, off, tot, acc =>
    if tot < n then do
      let addr ← bmap sb k (off / BSIZE)
      if addr = 0 then pure ((tot : Int), acc)
      else do
        let m ← getData
        let len := piece off (n - tot)
        if dst.copyout tot len then
          readiLoop k dst n fuel (off + len) (tot + len)
            (acc ++ (List.range len).map fun j => m (addr * BSIZE + off % BSIZE + j))
        else pure (-1, acc)
    else pure ((tot : Int), acc)

/-- `readi(ip, user_dst, dst, off, n)`: the result and the bytes read. -/
def readi (k : Fin NINODE) (dst : Dst) (off n : UInt32) : FM (Int × List UInt8) := do
  let ip ← getInode k
  if ip.di.size < off ∨ off + n < off then pure (0, [])
  else
    let n := if ip.di.size < off + n then ip.di.size - off else n
    readiLoop sb k dst n.toNat n.toNat off.toNat 0 []

/-- Where `writei` takes the bytes from: a kernel buffer, or user memory at an address. -/
inductive Src where
  | kernel (buf : List UInt8)
  | user (M : UMem) (addr : Nat)

/-- `either_copyin` of `m` bytes after the first `tot`: the result and the bytes that were copied. -/
def Src.copyin : Src → Nat → Nat → Int × List UInt8
  | .kernel buf, tot, m => (0, (List.range m).map fun j => buf.getD (tot + j) 0)
  | .user M addr, tot, m => M.copyin m ((addr + tot) % 2 ^ 64) m

/-- The loop of `writei`: `tot` bytes have been written, the next one goes to `off`. The final `off` and `tot`
are returned. -/
def writeiLoop (k : Fin NINODE) (src : Src) (n : Nat) : Nat → Nat → Nat → FM (Nat × Nat)
  | 0, off, tot => pure (off, tot)
  | fuel + 1, off, tot =>
    if tot < n then do
      let addr ← bmap sb k (off / BSIZE)
      if addr = 0 then pure (off, tot)
      else do
        let len := piece off (n - tot)
        let r := src.copyin tot len
        modifyData fun m => writeBytes m (addr * BSIZE + off % BSIZE) r.2
        if r.1 = -1 then pure (off, tot)
        else do
          logWrite sb addr
          writeiLoop k src n fuel (off + len) (tot + len)
    else pure (off, tot)

/-- `writei(ip, user_src, src, off, n)`. -/
def writei (k : Fin NINODE) (src : Src) (off n : UInt32) : FM Int := do
  let ip ← getInode k
  if ip.di.size < off ∨ off + n < off then pure (-1)
  else if UInt32.ofNat (MAXFILE * BSIZE) < off + n then pure (-1)
  else do
    let r ← writeiLoop sb k src n.toNat n.toNat off.toNat 0
    let ip ← getInode k
    (if ip.di.size.toNat < r.1 then modifyDi k fun d => { d with size := UInt32.ofNat r.1 }
      else pure ())
    iupdate sb k
    pure (r.2 : Int)

end

end Xv6.Fs
