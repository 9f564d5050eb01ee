import Xv6.Base.Transition
import Xv6.Fs.Dir

/-!
# Open files and system calls

The model of `kernel/file.c`, of `pipealloc` and `pipeclose`, of the system calls of `kernel/sysfile.c`, and of
what `fork` and `exit` do with files, on top of the file system. Every call runs from start to end. What a
call takes from the rest of the kernel is a parameter of it: whether a path can be fetched, which page
`kalloc` finds, whether memory can be copied.
-/

set_option autoImplicit false

namespace Xv6.Fs

open Function Xv6.Base Xv6.Vm

inductive FileType where
  | none
  | pipe
  | inode
  | device
  deriving DecidableEq, Repr

/-- `struct file`; a pipe is known by the address of its page. -/
structure File where
  type : FileType
  ref : Int
  readable : Bool
  writable : Bool
  pipe : Nat
  ip : Option (Fin NINODE)
  off : UInt32
  major : Int16

/-- The ends of a `struct pipe`. -/
structure Pipe where
  readopen : Bool
  writeopen : Bool
  deriving DecidableEq, Repr

/-- The flag of an end. -/
def Pipe.isOpen (p : Pipe) (writable : Bool) : Bool := if writable then p.writeopen else p.readopen

/-- The flag of an end is cleared. -/
def Pipe.close (p : Pipe) (writable : Bool) : Pipe :=
  if writable then { p with writeopen := false } else { p with readopen := false }

/-- Whether a slot of the process table is in use, and by a process that has not exited. -/
inductive ProcState where
  | unused
  | live
  | zombie
  deriving DecidableEq, Repr

/-- The files of a process. -/
structure Proc where
  state : ProcState
  ofile : Fin NOFILE → Option (Fin NFILE)
  cwd : Option (Fin NINODE)

/-- What happens to the page of a pipe. -/
inductive PipeEvent where
  | alloc (a : Nat)
  | close (a : Nat) (writable : Bool)
  | free (a : Nat)
  deriving DecidableEq, Repr

/-- File system, open files, pipes and processes. `free` are the pages on the free list, `events` is the
history of the pages of pipes. -/
structure Sys where
  fs : State
  file : Fin NFILE → File
  proc : Fin NPROC → Proc
  pipe : Nat → Option Pipe
  free : Nat → Bool
  init : Fin NPROC
  events : List PipeEvent

namespace Sys

variable (s : Sys)

def setFs (fs : State) : Sys := { s with fs := fs }

def setFile (f : Fin NFILE) (x : File) : Sys := { s with file := update s.file f x }

def setProc (i : Fin NPROC) (p : Proc) : Sys := { s with proc := update s.proc i p }

def setOfile (i : Fin NPROC) (fd : Fin NOFILE) (x : Option (Fin NFILE)) : Sys :=
  s.setProc i { s.proc i with ofile := update (s.proc i).ofile fd x }

def setPipe (a : Nat) (p : Option Pipe) : Sys := { s with pipe := update s.pipe a p }

def setFree (a : Nat) (b : Bool) : Sys := { s with free := update s.free a b }

def addEvent (e : PipeEvent) : Sys := { s with events := s.events ++ [e] }

end Sys

/-- The panics of the calls on files, with those of the file system. `nullInode` stands for a pointer to an
inode that is used and is 0, `danglingPipe` for a pipe whose page has been freed and `doubleFree` for a
page that is freed while it is free. -/
inductive FilePanic where
  | fs (e : Panic)
  | filedup
  | fileclose
  | fileread
  | filewrite
  | initExiting
  | nullInode
  | danglingPipe
  | doubleFree
  deriving DecidableEq, Repr

/-- The text each `panic` call prints. -/
def FilePanic.message : FilePanic → String
  | .fs e => e.message
  | .filedup => "filedup"
  | .fileclose => "fileclose"
  | .fileread => "fileread"
  | .filewrite => "filewrite"
  | .initExiting => "init exiting"
  | _ => ""

/-- Code that works on files. -/
abbrev SM := StateT Sys (Except FilePanic)

/-- An operation of the file system. -/
def onFs {α : Type} (x : FM α) : SM α := fun s =>
  match x s.fs with
  | .ok (a, fs) => .ok (a, s.setFs fs)
  | .error e => .error (.fs e)

def getFile (f : Fin NFILE) : SM File := fun s => .ok (s.file f, s)

def modifyFile (f : Fin NFILE) (g : File → File) : SM Unit := fun s =>
  .ok ((), s.setFile f (g (s.file f)))

def getProc (i : Fin NPROC) : SM Proc := fun s => .ok (s.proc i, s)

def setProc (i : Fin NPROC) (p : Proc) : SM Unit := fun s => .ok ((), s.setProc i p)

def setOfile (i : Fin NPROC) (fd : Fin NOFILE) (x : Option (Fin NFILE)) : SM Unit := fun s =>
  .ok ((), s.setOfile i fd x)

/-- Use a pointer that the code does not test for 0. -/
def derefInode (o : Option (Fin NINODE)) : SM (Fin NINODE) :=
  match o with
  | some k => pure k
  | none => throw .nullInode

section

variable (sb : Superblock)

/-! ## Pages and pipes -/

/-- `kalloc()`, which finds the page `page` or none. -/
def kalloc (page : Option Nat) : SM (Option Nat) := fun s =>
  match page with
  | some a => if s.free a then .ok (some a, s.setFree a false) else .ok (none, s)
  | none => .ok (none, s)

/-- `kfree(a)` of the page of a pipe; a page that is free already is not freed again. -/
def kfree (a : Nat) : SM Unit := fun s =>
  if s.free a then .error .doubleFree
  else .ok ((), ((s.setFree a true).setPipe a none).addEvent (.free a))

/-- `pipeclose(pi, writable)`. -/
def pipeclose (a : Nat) (writable : Bool) : SM Unit := fun s =>
  match s.pipe a with
  | none => .error .danglingPipe
  | some p =>
    let s := (s.setPipe a (some (p.close writable))).addEvent (.close a writable)
    if (p.close writable).readopen = false ∧ (p.close writable).writeopen = false then kfree a s
    else .ok ((), s)

/-! ## `file.c` -/

/-- `filealloc()`. -/
def filealloc : SM (Option (Fin NFILE)) := fun s =>
  match (List.finRange NFILE).find? fun f => decide ((s.file f).ref = 0) with
  | some f => .ok (some f, s.setFile f { s.file f with ref := 1 })
  | none => .ok (none, s)

/-- `filedup(f)`. -/
def filedup (f : Fin NFILE) : SM Unit := do
  let x ← getFile f
  if x.ref < 1 then throw .filedup else modifyFile f fun x => { x with ref := x.ref + 1 }

/-- `fileclose(f)`. -/
def fileclose (f : Fin NFILE) : SM Unit := do
  let ff ← getFile f
  if ff.ref < 1 then throw .fileclose
  else if 0 < ff.ref - 1 then modifyFile f fun x => { x with ref := x.ref - 1 }
  else do
    modifyFile f fun x => { x with ref := 0, type := .none }
    match ff.type with
    | .none => pure ()
    | .pipe => pipeclose ff.pipe ff.writable
    | .inode | .device => do
        let ip ← derefInode ff.ip
        onFs beginOp
        onFs (iput sb ip)
        onFs endOp

/-- `filestat(f, addr)`; `copyout` says whether the result can be copied out. -/
def filestat (f : Fin NFILE) (copyout : Bool) : SM Int := do
  let x ← getFile f
  if x.type = .inode ∨ x.type = .device then do
    let ip ← derefInode x.ip
    onFs (ilock sb ip)
    onFs (iunlock sb ip)
    if copyout then pure 0 else pure (-1)
  else pure (-1)

/-- `fileread(f, addr, n)`; `other` is the result of `piperead` or of the device. -/
def fileread (f : Fin NFILE) (copyout : Nat → Nat → Bool) (n : Int32) (other : Int) : SM Int := do
  let x ← getFile f
  if x.readable = false then pure (-1)
  else
    match x.type with
    | .pipe => pure other
    | .device => if x.major < 0 ∨ (NDEV : Int) ≤ x.major.toInt then pure (-1) else pure other
    | .inode => do
        let ip ← derefInode x.ip
        onFs (ilock sb ip)
        let r ← onFs (readi sb ip (.user copyout) x.off n.toUInt32)
        (if 0 < r.1 then modifyFile f fun x => { x with off := x.off + UInt32.ofNat r.1.toNat }
          else pure ())
        onFs (iunlock sb ip)
        pure r.1
    | .none => throw .fileread

/-- `((MAXOPBLOCKS-1-1-2) / 2) * BSIZE`. -/
def maxChunk : Nat := (MAXOPBLOCKS - 1 - 1 - 2) / 2 * BSIZE

/-- One transaction of `filewrite`: `writei` of `n1` bytes from `addr` at the offset of the file. -/
def filewriteChunk (f : Fin NFILE) (ip : Fin NINODE) (M : UMem) (addr n1 : Nat) : SM Int := do
  onFs beginOp
  onFs (ilock sb ip)
  let x ← getFile f
  let r ← onFs (writei sb ip (.user M addr) x.off (UInt32.ofNat n1))
  (if 0 < r then modifyFile f fun x => { x with off := x.off + UInt32.ofNat r.toNat } else pure ())
  onFs (iunlock sb ip)
  onFs endOp
  pure r

/-- The loop of `filewrite`; `i` of the `n` bytes have been written. -/
def filewriteLoop (f : Fin NFILE) (ip : Fin NINODE) (M : UMem) (addr n : Nat) : Nat → Nat → SM Nat
  | 0, i => pure i
  | fuel + 1, i =>
    if i < n then do
      let n1 := min (n - i) maxChunk
      let r ← filewriteChunk sb f ip M ((addr + i) % 2 ^ 64) n1
      if r ≠ n1 then pure i else filewriteLoop f ip M addr n fuel (i + n1)
    else pure i

/-- `filewrite(f, addr, n)`; `other` is the result of `pipewrite` or of the device. -/
def filewrite (f : Fin NFILE) (M : UMem) (addr : Nat) (n : Int32) (other : Int) : SM Int := do
  let x ← getFile f
  if x.writable = false then pure (-1)
  else
    match x.type with
    | .pipe => pure other
    | .device => if x.major < 0 ∨ (NDEV : Int) ≤ x.major.toInt then pure (-1) else pure other
    | .inode => do
        let ip ← derefInode x.ip
        let i ← filewriteLoop sb f ip M addr n.toInt.toNat n.toInt.toNat 0
        if (i : Int) = n.toInt then pure n.toInt else pure (-1)
    | .none => throw .filewrite

/-! ## Descriptors -/

/-- `argfd(n, pfd, pf)`: the descriptor and its file. -/
def argfd (i : Fin NPROC) (fd : Int) : SM (Option (Fin NOFILE × Fin NFILE)) := fun s =>
  if h : 0 ≤ fd ∧ fd.toNat < NOFILE then
    match (s.proc i).ofile ⟨fd.toNat, h.2⟩ with
    | some f => .ok (some (⟨fd.toNat, h.2⟩, f), s)
    | none => .ok (none, s)
  else .ok (none, s)

/-- `fdalloc(f)`. -/
def fdalloc (i : Fin NPROC) (f : Fin NFILE) : SM (Option (Fin NOFILE)) := fun s =>
  match (List.finRange NOFILE).find? fun fd => decide ((s.proc i).ofile fd = none) with
  | some fd => .ok (some fd, s.setOfile i fd (some f))
  | none => .ok (none, s)

/-- `sys_dup()`. -/
def sysDup (i : Fin NPROC) (fd : Int) : SM Int := do
  match ← argfd i fd with
  | none => pure (-1)
  | some (_, f) => do
      match ← fdalloc i f with
      | none => pure (-1)
      | some fd => do
          filedup f
          pure (fd.val : Int)

/-- `sys_close()`. -/
def sysClose (i : Fin NPROC) (fd : Int) : SM Int := do
  match ← argfd i fd with
  | none => pure (-1)
  | some (fd, f) => do
      setOfile i fd none
      fileclose sb f
      pure 0

/-- `sys_read()`. -/
def sysRead (i : Fin NPROC) (fd : Int) (copyout : Nat → Nat → Bool) (n : Int32) (other : Int) :
    SM Int := do
  match ← argfd i fd with
  | none => pure (-1)
  | some (_, f) => fileread sb f copyout n other

/-- `sys_write()`. -/
def sysWrite (i : Fin NPROC) (fd : Int) (M : UMem) (addr : Nat) (n : Int32) (other : Int) :
    SM Int := do
  match ← argfd i fd with
  | none => pure (-1)
  | some (_, f) => filewrite sb f M addr n other

/-- `sys_fstat()`. -/
def sysFstat (i : Fin NPROC) (fd : Int) (copyout : Bool) : SM Int := do
  match ← argfd i fd with
  | none => pure (-1)
  | some (_, f) => filestat sb f copyout

/-! ## Pipes -/

/-- The files and the page of a new pipe. -/
def pipeInit (f0 f1 : Fin NFILE) (a : Nat) : SM Unit := do
  (fun s => .ok ((), (s.setPipe a (some ⟨true, true⟩)).addEvent (.alloc a)) : SM Unit)
  modifyFile f0 fun x => { x with type := .pipe, readable := true, writable := false, pipe := a }
  modifyFile f1 fun x => { x with type := .pipe, readable := false, writable := true, pipe := a }

/-- `pipealloc(f0, f1)`. -/
def pipealloc (page : Option Nat) : SM (Option (Fin NFILE × Fin NFILE)) := do
  match ← filealloc with
  | none => pure none
  | some f0 => do
      match ← filealloc with
      | none => do
          fileclose sb f0
          pure none
      | some f1 => do
          match ← kalloc page with
          | none => do
              fileclose sb f0
              fileclose sb f1
              pure none
          | some a => do
              pipeInit f0 f1 a
              pure (some (f0, f1))

/-- `sys_pipe()`; `copy0` and `copy1` say whether the descriptors can be copied out. -/
def sysPipe (i : Fin NPROC) (page : Option Nat) (copy0 copy1 : Bool) : SM Int := do
  match ← pipealloc sb page with
  | none => pure (-1)
  | some (rf, wf) => do
      match ← fdalloc i rf with
      | none => do
          fileclose sb rf
          fileclose sb wf
          pure (-1)
      | some fd0 => do
          match ← fdalloc i wf with
          | none => do
              setOfile i fd0 none
              fileclose sb rf
              fileclose sb wf
              pure (-1)
          | some fd1 => do
              if copy0 = false ∨ copy1 = false then do
                setOfile i fd0 none
                setOfile i fd1 none
                fileclose sb rf
                fileclose sb wf
                pure (-1)
              else pure 0

/-! ## `sys_open` -/

def O_RDONLY : UInt32 := 0x000
def O_WRONLY : UInt32 := 0x001
def O_RDWR : UInt32 := 0x002
def O_CREATE : UInt32 := 0x200
def O_TRUNC : UInt32 := 0x400

/-- The first part of `sys_open`: the inode, locked, or none after `end_op`. -/
def openInode (cwd : Fin NINODE) (path : List UInt8) (omode : UInt32) : FM (Option (Fin NINODE)) := do
  beginOp
  if omode &&& O_CREATE ≠ 0 then do
    match ← create sb cwd path T_FILE 0 0 with
    | none => do
        endOp
        pure none
    | some ip => pure (some ip)
  else do
    match ← namei sb cwd path with
    | none => do
        endOp
        pure none
    | some ip => do
        ilock sb ip
        let i ← getInode ip
        if i.di.type = T_DIR ∧ omode ≠ O_RDONLY then do
          iunlockput sb ip
          endOp
          pure none
        else pure (some ip)

/-- The inode is given up and the operation ends. -/
def openBad (ip : Fin NINODE) : FM Unit := do
  iunlockput sb ip
  endOp

/-- `struct file` after `sys_open` has filled it in. -/
def File.opened (x : File) (ip : Fin NINODE) (di : Dinode) (omode : UInt32) : File :=
  let x := if di.type = T_DEVICE then { x with type := .device, major := di.major }
    else { x with type := .inode, off := 0 }
  { x with
    ip := some ip
    readable := decide (omode &&& O_WRONLY = 0)
    writable := decide (omode &&& O_WRONLY ≠ 0 ∨ omode &&& O_RDWR ≠ 0) }

/-- `sys_open()` with a path that can be fetched, or without. -/
def sysOpen (i : Fin NPROC) (path : Option (List UInt8)) (omode : UInt32) : SM Int := do
  match path with
  | none => pure (-1)
  | some path => do
      let p ← getProc i
      let cwd ← derefInode p.cwd
      match ← onFs (openInode sb cwd path omode) with
      | none => pure (-1)
      | some ip => do
          let e ← onFs (getInode ip)
          if e.di.type = T_DEVICE ∧ (e.di.major < 0 ∨ (NDEV : Int) ≤ e.di.major.toInt) then do
            onFs (openBad sb ip)
            pure (-1)
          else do
            match ← filealloc with
            | none => do
                onFs (openBad sb ip)
                pure (-1)
            | some f => do
                match ← fdalloc i f with
                | none => do
                    fileclose sb f
                    onFs (openBad sb ip)
                    pure (-1)
                | some fd => do
                    modifyFile f fun x => x.opened ip e.di omode
                    (if omode &&& O_TRUNC ≠ 0 ∧ e.di.type = T_FILE then onFs (itrunc sb ip)
                      else pure ())
                    onFs (iunlock sb ip)
                    onFs endOp
                    pure (fd.val : Int)

/-! ## Processes -/

/-- The loop of `fork` over the open files. -/
def forkFiles (i j : Fin NPROC) : List (Fin NOFILE) → SM Unit
  | [] => pure ()
  | fd :: fds => do
      let p ← getProc i
      match p.ofile fd with
      | some f => do
          filedup f
          setOfile j fd (some f)
          forkFiles i j fds
      | none => forkFiles i j fds

/-- `fork()`: the slot of the child. `mem` says whether there is memory for the child. -/
def sysFork (i : Fin NPROC) (mem : Bool) : SM Int := do
  match ← (fun s => .ok ((List.finRange NPROC).find? fun j =>
      decide ((s.proc j).state = .unused), s) : SM (Option (Fin NPROC))) with
  | none => pure (-1)
  | some j =>
    if mem then do
      forkFiles i j (List.finRange NOFILE)
      let p ← getProc i
      let cwd ← derefInode p.cwd
      onFs (idup cwd)
      let np ← getProc j
      setProc j { np with cwd := some cwd, state := .live }
      pure (j.val : Int)
    else pure (-1)

/-- The loop of `exit` over the open files. -/
def exitFiles (i : Fin NPROC) : List (Fin NOFILE) → SM Unit
  | [] => pure ()
  | fd :: fds => do
      let p ← getProc i
      match p.ofile fd with
      | some f => do
          fileclose sb f
          setOfile i fd none
          exitFiles i fds
      | none => exitFiles i fds

/-- `exit(status)`. -/
def sysExit (i : Fin NPROC) : SM Int := do
  let init ← (fun s => .ok (s.init, s) : SM (Fin NPROC))
  if i = init then throw .initExiting
  else do
    exitFiles sb i (List.finRange NOFILE)
    let p ← getProc i
    let cwd ← derefInode p.cwd
    onFs beginOp
    onFs (iput sb cwd)
    onFs endOp
    let p ← getProc i
    setProc i { p with cwd := none, state := .zombie }
    pure 0

/-- A call on the tree of directories, made with the current directory of the process. -/
def withCwd (i : Fin NPROC) (x : Fin NINODE → FM Int) : SM Int := do
  let p ← getProc i
  let cwd ← derefInode p.cwd
  onFs (x cwd)

/-- `sys_chdir()` of process `i`. -/
def sysChdirProc (i : Fin NPROC) (path : Option (List UInt8)) : SM Int := do
  let p ← getProc i
  let cwd ← derefInode p.cwd
  match ← onFs (sysChdir sb cwd path) with
  | none => pure (-1)
  | some ip => do
      setProc i { p with cwd := some ip }
      pure 0

/-! ## The system -/

/-- System calls with what they get from user memory and from the rest of the kernel. -/
inductive Call where
  | openFile (path : Option (List UInt8)) (omode : UInt32)
  | dup (fd : Int)
  | close (fd : Int)
  | read (fd : Int) (copyout : Nat → Nat → Bool) (n : Int32) (other : Int)
  | write (fd : Int) (M : UMem) (addr : Nat) (n : Int32) (other : Int)
  | fstat (fd : Int) (copyout : Bool)
  | pipe (page : Option Nat) (copy0 copy1 : Bool)
  | fork (mem : Bool)
  | exit
  | chdir (path : Option (List UInt8))
  | mkdir (path : Option (List UInt8))
  | mknod (path : Option (List UInt8)) (major minor : Int16)
  | link (old new : Option (List UInt8))
  | unlink (path : Option (List UInt8))
  | exec (path : Option (List UInt8)) (reads : List (UInt32 × UInt32))

/-- A system call of process `i`. -/
def Call.run (i : Fin NPROC) : Call → SM Int
  | .openFile path omode => sysOpen sb i path omode
  | .dup fd => sysDup i fd
  | .close fd => sysClose sb i fd
  | .read fd copyout n other => sysRead sb i fd copyout n other
  | .write fd M addr n other => sysWrite sb i fd M addr n other
  | .fstat fd copyout => sysFstat sb i fd copyout
  | .pipe page copy0 copy1 => sysPipe sb i page copy0 copy1
  | .fork mem => sysFork i mem
  | .exit => sysExit sb i
  | .chdir path => sysChdirProc sb i path
  | .mkdir path => withCwd i fun cwd => sysMkdir sb cwd path
  | .mknod path major minor => withCwd i fun cwd => sysMknod sb cwd path major minor
  | .link old new =>
    match old, new with
    | some old, some new => withCwd i fun cwd => sysLink sb cwd old new
    | _, _ => pure (-1)
  | .unlink path =>
    match path with
    | some path => withCwd i fun cwd => sysUnlink sb cwd path
    | none => pure (-1)
  | .exec path reads =>
    match path with
    | some path => withCwd i fun cwd => execInode sb cwd path reads
    | none => pure (-1)

/-- What a step is: a system call of a process with its result, `wait` that frees the slot of a process that
has exited, or memory that the rest of the kernel takes or gives back. -/
inductive Label where
  | call (i : Fin NPROC) (c : Call) (r : Int)
  | reap (j : Fin NPROC)
  | memory

inductive Step : Sys → Label → Sys → Prop
  | call (s t : Sys) (i : Fin NPROC) (c : Call) (r : Int) : (s.proc i).state = .live →
      c.run sb i s = .ok (r, t) → Step s (.call i c r) t
  | reap (s : Sys) (j : Fin NPROC) : (s.proc j).state = .zombie →
      Step s (.reap j) (s.setProc j { s.proc j with state := .unused })
  | memory (s : Sys) (free : Nat → Bool) : (∀ a, s.pipe a ≠ none → free a = false) →
      Step s .memory { s with free := free }

end

end Xv6.Fs
