import Micro86.Fs.Paths
import Micro86.Lib.Counting
import Micro86.Lib.Program

/-!
# The state of the file system calls and its atomic actions

Several processes in system calls share the inodes on disk, the inode cache with its locks, the file
table and the count of outstanding operations of the log.  `Op` lists the atomic sections of the
code of `fs.c`, `file.c` and `sys.c`: what happens under one spin lock, or under the sleep lock of
an inode with no other process in between.  `sem` is what each of them does.

The contents of an inode are a list of bytes, as `Micro86.Fs` shows them to be for the blocks; below
its size every block of a file is mapped, so that `readi` allocates nothing.  There is one device.
-/

namespace Micro86.Calls

open Fs (Inode Ptr Dirent S_IFCHR asShort slice splice dent)
open Function

abbrev Pid := Fin NPROC
abbrev Fid := Fin NFILE
abbrev Fd := Fin NOFILE

/-- `struct inode`; `ino` is the copy of the fields on disk. -/
structure Slot where
  inum : Nat
  ref : Int
  lock : Option Pid
  valid : Bool
  ino : Inode

inductive FdType where
  | none
  | pipe
  | inode
  deriving DecidableEq

/-- `struct file`; `ip` keeps its value when the file is closed or becomes a pipe. -/
structure File where
  type : FdType
  ref : Int
  readable : Bool
  writable : Bool
  ip : Option Ptr
  off : Nat

/-- What the calls read and change in `struct proc`. -/
structure Proc where
  uid : UInt16
  euid : UInt16
  gid : UInt16
  umask : UInt16
  ofile : Fd → Option Fid
  cwd : Option Ptr

structure State where
  /-- The inodes in the inode blocks. -/
  disk : Nat → Inode
  /-- The bytes in the blocks of an inode. -/
  data : Nat → List UInt8
  icache : Ptr → Slot
  file : Fid → File
  /-- The processes; `none` for an unused entry of the table. -/
  proc : Pid → Option Proc
  /-- `log.outstanding`. -/
  outstanding : Int
  /-- The calls of `begin_op` of a process less its calls of `end_op`. -/
  trans : Pid → Int

/-- What the state does not determine: the clock at two readings, the result and the data of a
    driver or of another part of the kernel, the blocks `balloc` finds, what the stack holds where a
    `struct dirent` is declared, whether memory is left, and the `umask` of a recycled process. -/
structure Hint where
  clock : UInt32
  later : UInt32
  ret : Int
  bytes : List UInt8
  blocks : Fin (NDIRECT + 1) → UInt32
  entry : Dirent
  memory : Bool
  mask : UInt16

namespace State

variable (s : State)

def setSlot (ip : Ptr) (v : Slot) : State := { s with icache := Function.update s.icache ip v }

def setDisk (i : Nat) (v : Inode) : State := { s with disk := Function.update s.disk i v }

def setData (i : Nat) (v : List UInt8) : State := { s with data := Function.update s.data i v }

def setFile (f : Fid) (v : File) : State := { s with file := Function.update s.file f v }

def setProc (p : Pid) (v : Option Proc) : State := { s with proc := Function.update s.proc p v }

section Lookup

variable {s}

@[elab_as_elim] theorem setSlot_cases {s : State} {ip : Ptr}
    {v : Slot} {motive : Ptr → Slot → Prop} (jp : Ptr) (self : motive ip v)
    (of_ne : jp ≠ ip → motive jp (s.icache jp)) : motive jp ((s.setSlot ip v).icache jp) :=
  @update_cases _ _ _ s.icache ip v _ jp self of_ne

theorem setSlot_self (ip : Ptr) (v : Slot) : (s.setSlot ip v).icache ip = v := update_self ..

theorem setSlot_ne {ip jp : Ptr} (v : Slot) (h : jp ≠ ip) :
    (s.setSlot ip v).icache jp = s.icache jp :=
  update_of_ne h ..

theorem setDisk_ne {i j : Nat} (v : Inode) (h : j ≠ i) :
    (s.setDisk i v).disk j = s.disk j := update_of_ne h ..

theorem setData_ne {i j : Nat} (v : List UInt8) (h : j ≠ i) : (s.setData i v).data j = s.data j :=
  update_of_ne h ..

theorem setProc_self (p : Pid) (v : Option Proc) : (s.setProc p v).proc p = v := update_self ..

theorem setProc_ne {p q : Pid} (v : Option Proc) (h : q ≠ p) : (s.setProc p v).proc q = s.proc q :=
  update_of_ne h ..

end Lookup

def setIno (ip : Ptr) (v : Inode) : State := s.setSlot ip { s.icache ip with ino := v }

/-- The stores of `iupdate`; `ctime` is not among them. -/
def update (ip : Ptr) : State :=
  s.setDisk (s.icache ip).inum { (s.icache ip).ino with ctime := (s.disk (s.icache ip).inum).ctime }

def logging {α : Type} (x : α) : Outcome α :=
  if s.outstanding < 1 then .panic "log_write outside of trans" else .next x

/-! ## The inode cache -/

def iget (inum : Nat) : Outcome (Ptr × State) :=
  match (List.finRange NINODE).find? fun ip =>
    decide (0 < (s.icache ip).ref ∧ (s.icache ip).inum = inum) with
  | some ip => .next (ip, s.setSlot ip { s.icache ip with ref := (s.icache ip).ref + 1 })
  | none =>
    match (List.finRange NINODE).find? fun ip => decide ((s.icache ip).ref = 0) with
    | some ip =>
        .next (ip, s.setSlot ip { s.icache ip with inum := inum, ref := 1, valid := false })
    | none => .panic "iget: no inodes"

def load (ip : Ptr) : Outcome (Unit × State) :=
  if (s.icache ip).valid then .next ((), s)
  else if (s.disk (s.icache ip).inum).mode = 0 then .panic "ilock: no type"
  else .next ((), s.setSlot ip { s.icache ip with valid := true, ino := s.disk (s.icache ip).inum })

/-- `ialloc` at one inode number: take it if it is free. -/
def ialloc (h : Hint) (inum : Nat) (type : UInt16) : Outcome (Bool × State) :=
  if (s.disk inum).mode = 0 then
    s.logging
      (true, (s.setDisk inum { Inode.zero with mode := type, ctime := h.clock }).setData inum [])
  else .next (false, s)

/-! ## Contents -/

def itrunc (ip : Ptr) : State :=
  ((s.setIno ip { (s.icache ip).ino with addrs := fun _ => 0, size := 0 }).setData
    (s.icache ip).inum []).update ip

def readi (h : Hint) (ip : Ptr) (off n : Nat) : Int × List UInt8 :=
  let ino := (s.icache ip).ino
  if ino.isDev then
    if asShort ino.major < 0 ∨ (NDEV : Int) ≤ asShort ino.major then (- Fs.ENXIO, [])
      else (h.ret, h.bytes)
  else if ino.size.toNat < off ∨ (off + n) % 4294967296 < off then (-1, [])
  else
    let n := if ino.size.toNat < (off + n) % 4294967296 then ino.size.toNat - off else n
    ((n : Int), slice (s.data (s.icache ip).inum) off n)

def mapped (addrs blocks : Fin (NDIRECT + 1) → UInt32) (n : Nat) (k : Fin (NDIRECT + 1)) : UInt32 :=
  if addrs k = 0 ∧ k.val * BSIZE < n then blocks k else addrs k

/-- The bytes written; a file that grows is stored with its new size, blocks and times. -/
def write (h : Hint) (ip : Ptr) (src : List UInt8) (off : Nat) : State :=
  let ino := (s.icache ip).ino
  let s' := s.setData (s.icache ip).inum (splice (s.data (s.icache ip).inum) off src)
  if ino.size.toNat < off + src.length then
    (s'.setIno ip { ino with
      size := UInt32.ofNat (off + src.length), addrs :=
        mapped ino.addrs h.blocks (off + src.length),
      ctime := h.clock, lmtime := h.later }).update ip
  else s'

def writei (h : Hint) (ip : Ptr) (src : List UInt8) (off : Nat) : Outcome (Int × State) :=
  let ino := (s.icache ip).ino
  if ino.mode &&& S_IFCHR ≠ 0 then
    if asShort ino.major < 0 ∨ (NDEV : Int) ≤ asShort ino.major then .next (-1, s)
      else .next (h.ret, s)
  else if ino.size.toNat < off ∨ (off + src.length) % 4294967296 < off then .next (-1, s)
  else if MAXFILE * BSIZE < (off + src.length) % 4294967296 then .next (-1, s)
  else if src = [] then .next (0, s)
  else s.logging ((src.length : Int), s.write h ip src off)

/-! ## Entries of a directory -/

/-- The loops over the entries from number `k` on, up to the first with `stop`: its number, the
    entry read last, and whether it was found; `none` if an entry is cut off by the end of the
    file. -/
def scan (c : List UInt8) (size : Nat) (stop : Dirent → Bool) : Nat →
    Nat → Dirent → Option (Nat × Dirent × Bool)
  | 0, k, de => some (k, de, false)
  | fuel + 1, k, de =>
    if size ≤ DIRENTSIZE * k then some (k, de, false)
    else if size < DIRENTSIZE * k + DIRENTSIZE then none
    else if stop (dent c k) then some (k, dent c k, true)
    else scan c size stop fuel (k + 1) (dent c k)

def scanDir (ip : Ptr) (stop : Dirent → Bool) (k : Nat)
    (de : Dirent) : Option (Nat × Dirent × Bool) :=
  scan (s.data (s.icache ip).inum) (s.icache ip).ino.size.toNat stop
    ((s.icache ip).ino.size.toNat / DIRENTSIZE + 1) k de

def dirFind (h : Hint) (dp : Ptr) (name : List UInt8) : Outcome (Option (Nat × Nat) × State) :=
  if ¬ (s.icache dp).ino.isDir then .panic "dirlookup not DIR"
  else match s.scanDir dp (Fs.hasName name) 0 h.entry with
    | none => .panic "dirlookup read"
    | some (k, de, true) => .next (some (de.ino, DIRENTSIZE * k), s)
    | some (_, _, false) => .next (none, s)

/-- The search of `dirlink` for an empty entry: its offset, and what the entry read last holds. -/
def dirFree (h : Hint) (dp : Ptr) : Outcome ((Nat × Dirent) × State) :=
  match s.scanDir dp (fun de => de.ino == 0) 0 h.entry with
  | none => .panic "dirlink read"
  | some (k, de, _) => .next ((DIRENTSIZE * k, de), s)

def isdirempty (h : Hint) (dp : Ptr) : Outcome (Bool × State) :=
  match s.scanDir dp (fun de => de.ino != 0) 2 h.entry with
  | none => .panic "isdirempty: readi"
  | some (_, _, found) => .next (!found, s)

/-! ## Files and processes -/

def fileAlloc : Option Fid × State :=
  match (List.finRange NFILE).find? fun f => decide ((s.file f).ref = 0) with
  | some f => (some f, s.setFile f { s.file f with ref := 1 })
  | none => (none, s)

/-- `file_close` under the lock of the table; it returns the file if that was the last reference. -/
def fileDrop (f : Fid) : Outcome (Option File × State) :=
  if (s.file f).ref < 1 then .panic "fileclose"
  else if 1 < (s.file f).ref then
    .next (none, s.setFile f { s.file f with ref := (s.file f).ref - 1 })
  else .next (some (s.file f), s.setFile f { s.file f with ref := 0, type := .none })

def setOfile (p : Pid) (me : Proc) (fd : Fd) (v : Option Fid) : State :=
  s.setProc p (some { me with ofile := Function.update me.ofile fd v })

def fdalloc (p : Pid) (me : Proc) (f : Fid) : Option Fd × State :=
  match (List.finRange NOFILE).find? fun fd => (me.ofile fd).isNone with
  | some fd => (some fd, s.setOfile p me fd (some f))
  | none => (none, s)

def opened (me : Proc) (f : Fid) : Int := ∑ fd, if me.ofile fd = some f then 1 else 0

/-- `fork` once it has the child's memory: the child gets references of its own. -/
def share (q : Pid) (me : Proc) (mask : UInt16) (cwd : Ptr) : State :=
  { s with
    file := fun f => { s.file f with ref := (s.file f).ref + opened me f }
    icache := Function.update s.icache cwd { s.icache cwd with ref := (s.icache cwd).ref + 1 }
    proc := Function.update s.proc q (some { me with umask := mask }) }

def fork (h : Hint) (me : Proc) : Outcome (Option Pid × State) :=
  match (List.finRange NPROC).find? fun q => (s.proc q).isNone with
  | none => .next (none, s)
  | some q =>
    if h.memory = false then .next (none, s)
    else if ∃ fd f, me.ofile fd = some f ∧ (s.file f).ref < 1 then .panic "filedup"
    else match me.cwd with
      | none => .panic "idup"
      | some cwd => .next (some q, s.share q me h.mask cwd)

end State

/-! ## Actions -/

inductive Op where
  | panic (msg : String)
  | beginOp
  | endOp
  | iget (inum : Nat)
  | idup (ip : Ptr)
  /-- The test `ilock` starts with. -/
  | ilockTest (ip : Ptr)
  | acquiresleep (ip : Ptr)
  | releasesleep (ip : Ptr)
  | load (ip : Ptr)
  | iunlock (ip : Ptr)
  /-- `ip->valid && ip->nlink == 0`. -/
  | unlinked (ip : Ptr)
  /-- `ip->ref`, as `iput` reads it. -/
  | refCount (ip : Ptr)
  /-- `ip->valid = 0`. -/
  | invalidate (ip : Ptr)
  /-- `ip->ref--`. -/
  | drop (ip : Ptr)
  | fields (ip : Ptr)
  | inum (ip : Ptr)
  | assign (ip : Ptr) (v : Inode → Inode)
  | iupdate (ip : Ptr)
  | itrunc (ip : Ptr)
  | readi (ip : Ptr) (off n : Nat)
  | writei (ip : Ptr) (src : List UInt8) (off : Nat)
  | ialloc (inum : Nat) (type : UInt16)
  | dirFind (dp : Ptr) (name : List UInt8)
  | dirFree (dp : Ptr)
  | isdirempty (dp : Ptr)
  /-- `epoch_mktime()`. -/
  | now
  /-- `myproc()`. -/
  | me
  | setCwd (ip : Option Ptr)
  | setOfile (fd : Fd) (f : Option Fid)
  | fdalloc (f : Fid)
  | fileAlloc
  | fileDup (f : Fid)
  | fileDrop (f : Fid)
  | fileGet (f : Fid)
  | setOff (f : Fid) (off : Nat)
  | setInode (f : Fid) (ip : Ptr) (readable writable : Bool)
  | setPipe (f : Fid) (readable writable : Bool)
  | fork
  /-- The end of `exit`. -/
  | leave
  /-- A result that other parts of the kernel decide. -/
  | outcome

abbrev Ans : Op → Type
  | .panic _ => Empty
  | .iget _ => Ptr
  | .unlinked _ => Bool
  | .refCount _ => Int
  | .fields _ => Inode
  | .inum _ => Nat
  | .readi _ _ _ => Int × List UInt8
  | .writei _ _ _ => Int
  | .ialloc _ _ => Bool
  | .dirFind _ _ => Option (Nat × Nat)
  | .dirFree _ => Nat × Dirent
  | .isdirempty _ => Bool
  | .now => UInt32
  | .me => Proc
  | .fdalloc _ => Option Fd
  | .fileAlloc => Option Fid
  | .fileDrop _ => Option File
  | .fileGet _ => File
  | .fork => Option Pid
  | .outcome => Int
  | _ => Unit

def Op.logs : Op → Bool
  | .iupdate _ => true
  | .itrunc _ => true
  | .writei _ _ _ => true
  | .ialloc _ _ => true
  | _ => false

def State.byProc {α : Type} (s : State) (p : Pid) (x : Proc → Outcome α) : Outcome α :=
  match s.proc p with
  | some me => x me
  | none => .blocked

def sem (p : Pid) (h : Hint) (s : State) : (o : Op) → Outcome (Ans o × State)
  | .panic msg => .panic msg
  | .beginOp => .next ((), { s with
      outstanding := s.outstanding + 1, trans := Function.update s.trans p (s.trans p + 1) })
  | .endOp => .next ((), { s with
      outstanding := s.outstanding - 1, trans := Function.update s.trans p (s.trans p - 1) })
  | .iget inum => s.iget inum
  | .idup ip => .next ((), s.setSlot ip { s.icache ip with ref := (s.icache ip).ref + 1 })
  | .ilockTest ip => if (s.icache ip).ref < 1 then .panic "ilock" else .next ((), s)
  | .acquiresleep ip =>
    if (s.icache ip).lock = none then
      .next ((), s.setSlot ip { s.icache ip with lock := some p }) else .blocked
  | .releasesleep ip => .next ((), s.setSlot ip { s.icache ip with lock := none })
  | .load ip => s.load ip
  | .iunlock ip =>
    if (s.icache ip).lock ≠ some p ∨ (s.icache ip).ref < 1 then .panic "iunlock"
    else .next ((), s.setSlot ip { s.icache ip with lock := none })
  | .unlinked ip => .next (((s.icache ip).valid && (s.icache ip).ino.nlink == 0), s)
  | .refCount ip => .next ((s.icache ip).ref, s)
  | .invalidate ip => .next ((), s.setSlot ip { s.icache ip with valid := false })
  | .drop ip => .next ((), s.setSlot ip { s.icache ip with ref := (s.icache ip).ref - 1 })
  | .fields ip => .next ((s.icache ip).ino, s)
  | .inum ip => .next ((s.icache ip).inum, s)
  | .assign ip v => .next ((), s.setIno ip (v (s.icache ip).ino))
  | .iupdate ip => s.logging ((), s.update ip)
  | .itrunc ip => s.logging ((), s.itrunc ip)
  | .readi ip off n => .next (s.readi h ip off n, s)
  | .writei ip src off => s.writei h ip src off
  | .ialloc inum type => s.ialloc h inum type
  | .dirFind dp name => s.dirFind h dp name
  | .dirFree dp => s.dirFree h dp
  | .isdirempty dp => s.isdirempty h dp
  | .now => .next (h.clock, s)
  | .me => s.byProc p fun me => .next (me, s)
  | .setCwd ip => s.byProc p fun me => .next ((), s.setProc p (some { me with cwd := ip }))
  | .setOfile fd f => s.byProc p fun me => .next ((), s.setOfile p me fd f)
  | .fdalloc f => s.byProc p fun me => .next (s.fdalloc p me f)
  | .fileAlloc => .next s.fileAlloc
  | .fileDup f =>
    if (s.file f).ref < 1 then .panic "filedup"
      else .next ((), s.setFile f { s.file f with ref := (s.file f).ref + 1 })
  | .fileDrop f => s.fileDrop f
  | .fileGet f => .next (s.file f, s)
  | .setOff f off => .next ((), s.setFile f { s.file f with off := off })
  | .setInode f ip readable writable =>
    .next ((), s.setFile f
      { s.file f with type := .inode, ip := some ip, readable := readable, writable := writable })
  | .setPipe f readable writable =>
    .next
      ((), s.setFile f { s.file f with type := .pipe, readable := readable, writable := writable })
  | .fork => s.byProc p fun me => s.fork h me
  | .leave => .next ((), s.setProc p none)
  | .outcome => .next (h.ret, s)

def ready (p : Pid) (s : State) : Bool := (s.proc p).isSome

end Micro86.Calls
