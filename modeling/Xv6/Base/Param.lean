/-!
# Constants of `kernel/param.h`
-/

namespace Xv6

/-- Maximum number of processes. -/
def NPROC : Nat := 64

/-- Open files per process. -/
def NOFILE : Nat := 16

/-- Open files per system. -/
def NFILE : Nat := 100

/-- Maximum number of active inodes. -/
def NINODE : Nat := 50

/-- Maximum major device number. -/
def NDEV : Nat := 10

/-- Device number of the file system's disk. -/
def ROOTDEV : Nat := 1

/-- Maximum number of arguments of `exec`. -/
def MAXARG : Nat := 32

/-- Maximum length of a path name. -/
def MAXPATH : Nat := 128

/-- Maximum number of blocks any file-system operation writes. -/
def MAXOPBLOCKS : Nat := 10

/-- Maximum number of data blocks in the on-disk log. -/
def LOGSIZE : Nat := MAXOPBLOCKS * 3

/-- Size of the disk block cache. -/
def NBUF : Nat := MAXOPBLOCKS * 3

end Xv6
