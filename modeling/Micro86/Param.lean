import Micro86.Lib.Bytes

/-!
# Kernel parameters and the on-disk format

Constants of `include/param.h` and `include/fs.h` that the file-system code uses.
-/

namespace Micro86

def BSIZE : Nat := 2048

def MAXOPBLOCKS : Nat := 10

def LOGSIZE : Nat := MAXOPBLOCKS * 3

def NBUF : Nat := MAXOPBLOCKS * 3

def FSSIZE : Nat := 50000

def ROOTINO : Nat := 1

def NDIRECT : Nat := 11

def NINDIRECT : Nat := BSIZE / 4

def MAXFILE : Nat := NDIRECT + NINDIRECT

def DINODESIZE : Nat := 80

def IPB : Nat := BSIZE / DINODESIZE

def BPB : Nat := BSIZE * 8

def DIRSIZ : Nat := 20

def DIRENTSIZE : Nat := 32

def NPROC : Nat := 64

theorem NPROC_pos : 0 < NPROC := by decide

theorem one_lt_NPROC : 1 < NPROC := by decide

def NOFILE : Nat := 128

def NFILE : Nat := 100

def NINODE : Nat := 50

theorem NINODE_pos : 0 < NINODE := by decide

def NDEV : Nat := 255

theorem BSIZE_eq : BSIZE = 2048 := rfl
theorem LOGSIZE_eq : LOGSIZE = 30 := rfl
theorem NDIRECT_eq : NDIRECT = 11 := rfl
theorem NINDIRECT_eq : NINDIRECT = 512 := rfl
theorem DINODESIZE_eq : DINODESIZE = 80 := rfl
theorem IPB_eq : IPB = 25 := rfl
theorem BPB_eq : BPB = 16384 := rfl
theorem DIRENTSIZE_eq : DIRENTSIZE = 32 := rfl

abbrev Block := ByteBlock BSIZE

end Micro86
