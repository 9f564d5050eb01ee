import Xv6.Fs.Inode

/-!
# Directories and paths

The upper half of `kernel/fs.c` and the functions of `kernel/sysfile.c` that work on the tree of
directories. A path or a name is the list of its bytes up to the 0 that ends it; reading behind the end of
a list gives 0.
-/

set_option autoImplicit false

namespace Xv6.Fs

open Xv6.Base

/-- `strncmp(p, q, n)`. -/
def strncmp : Nat → List UInt8 → List UInt8 → Int
  | 0, _, _ => 0
  | n + 1, p, q =>
    if p.headD 0 ≠ 0 ∧ p.headD 0 = q.headD 0 then strncmp n p.tail q.tail
    else ((p.headD 0).toNat : Int) - (q.headD 0).toNat

/-- The `n` bytes that `strncpy(s, t, n)` stores. -/
def strncpy : Nat → List UInt8 → List UInt8
  | 0, _ => []
  | n + 1, t => if t.headD 0 ≠ 0 then t.headD 0 :: strncpy n t.tail else List.replicate (n + 1) 0

/-- `namecmp(s, t)`. -/
def namecmp (s t : List UInt8) : Int := strncmp DIRSIZ s t

/-- `de.inum` of the bytes of a `struct dirent`. -/
def direntInum (de : List UInt8) : Nat := loadLE (fun j => de.getD j 0) 0 2

/-- `de.name`. -/
def direntName (de : List UInt8) : List UInt8 := de.drop 2

/-- The bytes of a `struct dirent`. -/
def dirent (inum : Nat) (name : List UInt8) : List UInt8 :=
  [UInt8.ofNat inum, UInt8.ofNat (inum / 256)] ++ strncpy DIRSIZ name

/-- The offsets that a loop over the entries of a directory of this size visits. -/
def direntOffsets (size : Nat) : List Nat :=
  (List.range ((size + direntSize - 1) / direntSize)).map (· * direntSize)

section

variable (sb : Superblock)

/-- `readi` of the entry at `off` into a `struct dirent`. -/
def readDirent (k : Fin NINODE) (off : Nat) (e : Panic) : FM (List UInt8) := do
  let r ← readi sb k .kernel (UInt32.ofNat off) (UInt32.ofNat direntSize)
  if r.1 ≠ direntSize then throw e else pure r.2

/-- The loop of `dirlookup`. -/
def dirlookupLoop (k : Fin NINODE) (name : List UInt8) : List Nat → FM (Option (Fin NINODE × Nat))
  | [] => pure none
  | off :: offs => do
      let de ← readDirent sb k off .dirlookupRead
      if direntInum de = 0 then dirlookupLoop k name offs
      else if namecmp name (direntName de) = 0 then do
        let dp ← getInode k
        let ip ← iget dp.dev (direntInum de)
        pure (some (ip, off))
      else dirlookupLoop k name offs

/-- `dirlookup(dp, name, poff)`: the inode and the offset of the entry. -/
def dirlookup (k : Fin NINODE) (name : List UInt8) : FM (Option (Fin NINODE × Nat)) := do
  let dp ← getInode k
  if dp.di.type ≠ T_DIR then throw .dirlookupNotDir
  else dirlookupLoop sb k name (direntOffsets dp.di.size.toNat)

/-- The second loop of `dirlink`: the offset of an empty entry, or the first one behind the end. -/
def dirlinkLoop (k : Fin NINODE) (last : Nat) : List Nat → FM Nat
  | [] => pure last
  | off :: offs => do
      let de ← readDirent sb k off .dirlinkRead
      if direntInum de = 0 then pure off else dirlinkLoop k last offs

/-- `dirlink(dp, name, inum)`. -/
def dirlink (k : Fin NINODE) (name : List UInt8) (inum : Nat) : FM Int := do
  match ← dirlookup sb k name with
  | some (ip, _) => do
      iput sb ip
      pure (-1)
  | none => do
      let dp ← getInode k
      let offs := direntOffsets dp.di.size.toNat
      let off ← dirlinkLoop sb k (offs.length * direntSize) offs
      let r ← writei sb k (.kernel (dirent inum name)) (UInt32.ofNat off) (UInt32.ofNat direntSize)
      if r ≠ direntSize then pure (-1) else pure 0

/-! ## Paths -/

def slash : UInt8 := 47

/-- `skipelem(path, name)`: the next element, cut to `DIRSIZ` bytes, and the rest of the path. -/
def skipelem (path : List UInt8) : Option (List UInt8 × List UInt8) :=
  match path.dropWhile (· == slash) with
  | [] => none
  | p => some ((p.takeWhile (· != slash)).take DIRSIZ,
      (p.dropWhile (· != slash)).dropWhile (· == slash))

/-- The loop of `namex`. Every round takes at least one byte from the path. -/
def namexLoop (nameiparent : Bool) : Nat → Fin NINODE → List UInt8 → List UInt8 →
    FM (Option (Fin NINODE × List UInt8))
  | 0, ip, _, name => do
      if nameiparent then do
        iput sb ip
        pure none
      else pure (some (ip, name))
  | fuel + 1, ip, path, name =>
    match skipelem path with
    | none => do
        if nameiparent then do
          iput sb ip
          pure none
        else pure (some (ip, name))
    | some (name, path) => do
        ilock sb ip
        let dp ← getInode ip
        if dp.di.type ≠ T_DIR then do
          iunlockput sb ip
          pure none
        else if nameiparent ∧ path = [] then do
          iunlock sb ip
          pure (some (ip, name))
        else do
          match ← dirlookup sb ip name with
          | none => do
              iunlockput sb ip
              pure none
          | some (next, _) => do
              iunlockput sb ip
              namexLoop nameiparent fuel next path name

/-- `namex(path, nameiparent, name)`, for a process with current directory `cwd`. -/
def namex (cwd : Fin NINODE) (path : List UInt8) (nameiparent : Bool) : FM (Option (Fin NINODE × List UInt8)) :=
  if path.head? = some slash then do
    let ip ← iget ROOTDEV ROOTINO
    namexLoop sb nameiparent path.length ip path []
  else do
    idup cwd
    namexLoop sb nameiparent path.length cwd path []

/-- `namei(path)`. -/
def namei (cwd : Fin NINODE) (path : List UInt8) : FM (Option (Fin NINODE)) := do
  let r ← namex sb cwd path false
  pure (r.map (·.1))

/-- `nameiparent(path, name)`. -/
def nameiparent (cwd : Fin NINODE) (path : List UInt8) : FM (Option (Fin NINODE × List UInt8)) :=
  namex sb cwd path true

/-! ## Operations on the tree -/

/-- The bytes of "." and "..". -/
def dot : List UInt8 := [46]
def dotdot : List UInt8 := [46, 46]

/-- The part of `create` after label `fail`. -/
def createFail (ip dp : Fin NINODE) : FM (Option (Fin NINODE)) := do
  modifyDi ip fun d => { d with nlink := 0 }
  iupdate sb ip
  iunlockput sb ip
  iunlockput sb dp
  pure none

/-- The part of `create` that enters the new inode into the parent directory. -/
def createLink (ip dp : Fin NINODE) (name : List UInt8) (type : Int16) (inum : Nat) :
    FM (Option (Fin NINODE)) := do
  let r ← dirlink sb dp name inum
  if r < 0 then createFail sb ip dp
  else do
    (if type = T_DIR then do
        modifyDi dp fun d => { d with nlink := d.nlink + 1 }
        iupdate sb dp
      else pure ())
    iunlockput sb dp
    pure (some ip)

/-- The part of `create` for a name that the parent directory does not have. -/
def createNew (dp : Fin NINODE) (name : List UInt8) (type major minor : Int16) :
    FM (Option (Fin NINODE)) := do
  let d ← getInode dp
  match ← ialloc sb d.dev type with
  | none => do
      iunlockput sb dp
      pure none
  | some ip => do
      ilock sb ip
      modifyDi ip fun d => { d with major := major, minor := minor, nlink := 1 }
      iupdate sb ip
      let i ← getInode ip
      if type = T_DIR then do
        let r ← dirlink sb ip dot i.inum
        if r < 0 then createFail sb ip dp
        else do
          let r ← dirlink sb ip dotdot d.inum
          if r < 0 then createFail sb ip dp
          else createLink sb ip dp name type i.inum
      else createLink sb ip dp name type i.inum

/-- `create(path, type, major, minor)`: the inode, locked. -/
def create (cwd : Fin NINODE) (path : List UInt8) (type major minor : Int16) :
    FM (Option (Fin NINODE)) := do
  match ← nameiparent sb cwd path with
  | none => pure none
  | some (dp, name) => do
      ilock sb dp
      match ← dirlookup sb dp name with
      | some (ip, _) => do
          iunlockput sb dp
          ilock sb ip
          let i ← getInode ip
          if type = T_FILE ∧ (i.di.type = T_FILE ∨ i.di.type = T_DEVICE) then pure (some ip)
          else do
            iunlockput sb ip
            pure none
      | none => createNew sb dp name type major minor

/-- The loop of `isdirempty`. -/
def isdiremptyLoop (k : Fin NINODE) : List Nat → FM Bool
  | [] => pure true
  | off :: offs => do
      let de ← readDirent sb k off .isdiremptyReadi
      if direntInum de ≠ 0 then pure false else isdiremptyLoop k offs

/-- `isdirempty(dp)`: the entries after "." and "..". -/
def isdirempty (k : Fin NINODE) : FM Bool := do
  let dp ← getInode k
  isdiremptyLoop sb k ((direntOffsets dp.di.size.toNat).drop 2)

/-- The part of `sys_link` after label `bad`. -/
def linkBad (ip : Fin NINODE) : FM Int := do
  ilock sb ip
  modifyDi ip fun d => { d with nlink := d.nlink - 1 }
  iupdate sb ip
  iunlockput sb ip
  endOp
  pure (-1)

/-- `sys_link()` with the paths `old` and `new`. -/
def sysLink (cwd : Fin NINODE) (old new : List UInt8) : FM Int := do
  beginOp
  match ← namei sb cwd old with
  | none => do
      endOp
      pure (-1)
  | some ip => do
      ilock sb ip
      let i ← getInode ip
      if i.di.type = T_DIR then do
        iunlockput sb ip
        endOp
        pure (-1)
      else do
        modifyDi ip fun d => { d with nlink := d.nlink + 1 }
        iupdate sb ip
        iunlock sb ip
        match ← nameiparent sb cwd new with
        | none => linkBad sb ip
        | some (dp, name) => do
            ilock sb dp
            let d ← getInode dp
            let i ← getInode ip
            if d.dev ≠ i.dev then do
              iunlockput sb dp
              linkBad sb ip
            else do
              let r ← dirlink sb dp name i.inum
              if r < 0 then do
                iunlockput sb dp
                linkBad sb ip
              else do
                iunlockput sb dp
                iput sb ip
                endOp
                pure 0

/-- The part of `sys_unlink` after label `bad`. -/
def unlinkBad (dp : Fin NINODE) : FM Int := do
  iunlockput sb dp
  endOp
  pure (-1)

/-- The part of `sys_unlink` that removes the entry at `off`, which names `ip`. -/
def unlinkEntry (dp ip : Fin NINODE) (off : Nat) : FM Int := do
  let r ← writei sb dp (.kernel (List.replicate direntSize 0)) (UInt32.ofNat off)
    (UInt32.ofNat direntSize)
  if r ≠ direntSize then throw .unlinkWritei
  else do
    let i ← getInode ip
    (if i.di.type = T_DIR then do
        modifyDi dp fun d => { d with nlink := d.nlink - 1 }
        iupdate sb dp
      else pure ())
    iunlockput sb dp
    modifyDi ip fun d => { d with nlink := d.nlink - 1 }
    iupdate sb ip
    iunlockput sb ip
    endOp
    pure 0

/-- `sys_unlink()` with the path `path`. -/
def sysUnlink (cwd : Fin NINODE) (path : List UInt8) : FM Int := do
  beginOp
  match ← nameiparent sb cwd path with
  | none => do
      endOp
      pure (-1)
  | some (dp, name) => do
      ilock sb dp
      if namecmp name dot = 0 ∨ namecmp name dotdot = 0 then unlinkBad sb dp
      else do
        match ← dirlookup sb dp name with
        | none => unlinkBad sb dp
        | some (ip, off) => do
            ilock sb ip
            let i ← getInode ip
            if i.di.nlink < 1 then throw .unlinkNlink
            else if i.di.type = T_DIR then do
              let empty ← isdirempty sb ip
              if empty then unlinkEntry sb dp ip off
              else do
                iunlockput sb ip
                unlinkBad sb dp
            else unlinkEntry sb dp ip off

/-- `sys_mkdir()` with a path that can be fetched, or without. -/
def sysMkdir (cwd : Fin NINODE) (path : Option (List UInt8)) : FM Int := do
  beginOp
  match path with
  | none => do
      endOp
      pure (-1)
  | some path => do
      match ← create sb cwd path T_DIR 0 0 with
      | none => do
          endOp
          pure (-1)
      | some ip => do
          iunlockput sb ip
          endOp
          pure 0

/-- `sys_mknod()`. -/
def sysMknod (cwd : Fin NINODE) (path : Option (List UInt8)) (major minor : Int16) : FM Int := do
  beginOp
  match path with
  | none => do
      endOp
      pure (-1)
  | some path => do
      match ← create sb cwd path T_DEVICE major minor with
      | none => do
          endOp
          pure (-1)
      | some ip => do
          iunlockput sb ip
          endOp
          pure 0

/-- `sys_chdir()`: the new current directory, if there is one. -/
def sysChdir (cwd : Fin NINODE) (path : Option (List UInt8)) : FM (Option (Fin NINODE)) := do
  beginOp
  match path with
  | none => do
      endOp
      pure none
  | some path => do
      match ← namei sb cwd path with
      | none => do
          endOp
          pure none
      | some ip => do
          ilock sb ip
          let i ← getInode ip
          if i.di.type ≠ T_DIR then do
            iunlockput sb ip
            endOp
            pure none
          else do
            iunlock sb ip
            iput sb cwd
            endOp
            pure (some ip)

/-- The part of `exec(path, argv)` between `begin_op` and `end_op`: the parts of the file that it reads
depend on the contents and on the memory that it gets, and it can stop after any of them. -/
def execInode (cwd : Fin NINODE) (path : List UInt8) (reads : List (UInt32 × UInt32)) : FM Int := do
  beginOp
  match ← namei sb cwd path with
  | none => do
      endOp
      pure (-1)
  | some ip => do
      ilock sb ip
      reads.forM fun r => do
        let _ ← readi sb ip .kernel r.1 r.2
      iunlockput sb ip
      endOp
      pure 0

end

end Xv6.Fs
