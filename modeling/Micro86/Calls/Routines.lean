import Micro86.Calls.Model

/-!
# The system calls on files and directories

The routines of `fs.c` and `file.c` and the calls of `sys.c` as programs of atomic actions.  A call
takes its arguments as the argument routines fetch them; where a fetch that fails is part of the
work of a transaction, the argument is optional.  Numbers of loop rounds the source does not bound
(interpreters of interpreters, directories above directories) are arguments.
-/

namespace Micro86.Calls

open Fs (Inode Ptr Dirent S_IFMT S_IFREG S_IFDIR S_IFBLK DOT DOTDOT SLASH skipelem namecmp asShort)

abbrev M := Prog Op Ans

abbrev perform (o : Op) : M (Ans o) := Prog.perform o

def EPERM : Int := 1
def ENOENT : Int := 2
def EIO : Int := 5
def EBADF : Int := 9
def ENOMEM : Int := 12
def EACCES : Int := 13
def EEXIST : Int := 17
def ENOTDIR : Int := 20
def EINVAL : Int := 22
def EMFILE : Int := 24
def ESPIPE : Int := 29
def ENOTEMPTY : Int := 39

def O_WRONLY : UInt32 := 1
def O_RDWR : UInt32 := 2
def O_CREAT : UInt32 := 0o100
def O_TRUNC : UInt32 := 0o1000
def O_APPEND : UInt32 := 0o2000

def S_IFLNK : UInt16 := 0o120000

def has (omode flag : UInt32) : Bool := omode &&& flag != 0

def panic {α : Type} (msg : String) : M α := .act (.panic msg) Empty.elim

/-- `if (p) x;`. -/
def onlyIf (p : Prop) [Decidable p] (x : M Unit) : M Unit := if p then x else pure ()

def beginOp : M Unit := perform .beginOp
def endOp : M Unit := perform .endOp
def iget (inum : Nat) : M Ptr := perform (.iget inum)
def idup (ip : Ptr) : M Unit := perform (.idup ip)
def iunlock (ip : Ptr) : M Unit := perform (.iunlock ip)
def fields (ip : Ptr) : M Inode := perform (.fields ip)
def assign (ip : Ptr) (v : Inode → Inode) : M Unit := perform (.assign ip v)
def iupdate (ip : Ptr) : M Unit := perform (.iupdate ip)
def itrunc (ip : Ptr) : M Unit := perform (.itrunc ip)
def readi (ip : Ptr) (off n : Nat) : M (Int × List UInt8) := perform (.readi ip off n)
def writei (ip : Ptr) (src : List UInt8) (off : Nat) : M Int := perform (.writei ip src off)
def now : M UInt32 := perform .now
def myproc : M Proc := perform .me
def fileGet (f : Fid) : M File := perform (.fileGet f)
def setOff (f : Fid) (off : Nat) : M Unit := perform (.setOff f off)
def outcome : M Int := perform .outcome

/-! ## Inodes -/

def ilock (ip : Ptr) : M Unit := do
  perform (.ilockTest ip)
  perform (.acquiresleep ip)
  perform (.load ip)

def iputFree (ip : Ptr) : M Unit := do
  itrunc ip
  assign ip fun ino => { ino with mode := 0 }
  iupdate ip
  perform (.invalidate ip)

def iputUnlinked (ip : Ptr) : M Unit := do
  let r ← perform (.refCount ip)
  onlyIf (r = 1) (iputFree ip)

def iput (ip : Ptr) : M Unit := do
  perform (.acquiresleep ip)
  let unlinked ← perform (.unlinked ip)
  onlyIf (unlinked = true) (iputUnlinked ip)
  perform (.releasesleep ip)
  perform (.drop ip)

def iunlockput (ip : Ptr) : M Unit := do
  iunlock ip
  iput ip

/-- `ialloc` from inode number `inum` on, `n` numbers. -/
def iallocFrom (type : UInt16) : Nat → Nat → M Ptr
  | 0, _ => panic "ialloc: no inodes"
  | n + 1, inum => do
    let free ← perform (.ialloc inum type)
    if free then iget inum else iallocFrom type n (inum + 1)

def ialloc (n : Nat) (type : UInt16) : M Ptr := iallocFrom type (n - 1) 1

/-! ## Directories and paths -/

def dirlookup (dp : Ptr) (name : List UInt8) : M (Option (Ptr × Nat)) := do
  let found ← perform (.dirFind dp name)
  match found with
  | none => pure none
  | some (inum, off) =>
    let ip ← iget inum
    pure (some (ip, off))

def dirlink (dp : Ptr) (name : List UInt8) (inum : Nat) : M Int := do
  let found ← dirlookup dp name
  match found with
  | some (ip, _) =>
    iput ip
    pure (-1)
  | none =>
    let place ← perform (.dirFree dp)
    let n ← writei dp (place.2.put name inum).bytes place.1
    if n ≠ DIRENTSIZE then panic "dirlink" else pure 0

/-- The loop of `namex`; every round consumes a path element, so `fuel` above the length of the
    path suffices. -/
def namexLoop (nameiparent : Bool) : Nat → Ptr → List UInt8 →
    List UInt8 → M (Option (Ptr × List UInt8))
  | 0, _, _, _ => panic "namex"
  | fuel + 1, ip, path, name =>
    match skipelem path with
    | none =>
      if nameiparent then do
        iput ip
        pure none
      else pure (some (ip, name))
    | some (name, path) => do
      ilock ip
      let ino ← fields ip
      if ¬ ino.isDir then do
        iunlockput ip
        pure none
      else if nameiparent ∧ path = [] then do
        -- stop one level early
        iunlock ip
        pure (some (ip, name))
      else do
        let next ← dirlookup ip name
        match next with
        | none =>
          iunlockput ip
          pure none
        | some (next, _) =>
          iunlockput ip
          namexLoop nameiparent fuel next path name

def namexStart (path : List UInt8) : M Ptr :=
  if path.headD 0 = SLASH then iget ROOTINO
  else do
    let p ← myproc
    match p.cwd with
    | none => panic "idup"
    | some cwd =>
      idup cwd
      pure cwd

def namex (path : List UInt8) (nameiparent : Bool) : M (Option (Ptr × List UInt8)) := do
  let ip ← namexStart path
  namexLoop nameiparent (path.length + 1) ip path []

def namei (path : List UInt8) : M (Option Ptr) := do
  let r ← namex path false
  pure (r.map Prod.fst)

def nameiparent (path : List UInt8) : M (Option (Ptr × List UInt8)) := namex path true

def createDots (ip dp : Ptr) : M Unit := do
  assign dp fun ino => { ino with nlink := ino.nlink + 1 }
  iupdate dp
  let inum ← perform (.inum ip)
  let r ← dirlink ip DOT inum
  if r < 0 then panic "create dots"
  else do
    let parent ← perform (.inum dp)
    let r ← dirlink ip DOTDOT parent
    if r < 0 then panic "create dots" else pure ()

def createNew (n : Nat) (dp : Ptr) (name : List UInt8)
    (type major minor : UInt16) : M (Option Ptr) := do
  let ip ← ialloc n type
  ilock ip
  let ctime ← now
  let lmtime ← now
  let p ← myproc
  assign ip fun ino => { ino with
    major := major, minor := minor, mode := type, nlink := 1, ctime := ctime, lmtime := lmtime,
    uid := p.uid.toUInt32, gid := p.gid.toUInt32 }
  iupdate ip
  onlyIf (type &&& S_IFMT = S_IFDIR) (createDots ip dp)
  let inum ← perform (.inum ip)
  let r ← dirlink dp name inum
  if r < 0 then panic "create: dirlink"
  else do
    iunlockput dp
    pure (some ip)

def create (n : Nat) (path : List UInt8) (type major minor : UInt16) : M (Option Ptr) := do
  let r ← nameiparent path
  match r with
  | none => pure none
  | some (dp, name) =>
    ilock dp
    let found ← dirlookup dp name
    match found with
    | some (ip, _) =>
      iunlockput dp
      ilock ip
      if type &&& S_IFMT = S_IFREG then pure (some ip)
      else do
        iunlockput ip
        pure none
    | none => createNew n dp name type major minor

/-! ## Files -/

def leaveWith (r : Int) : M Int := do
  endOp
  pure r

def putWith (ip : Ptr) (r : Int) : M Int := do
  iunlockput ip
  leaveWith r

def unlockWith (ip : Ptr) (r : Int) : M Int := do
  iunlock ip
  leaveWith r

def fileClose (f : Fid) : M Unit := do
  let ff ← perform (.fileDrop f)
  match ff with
  | none => pure ()
  | some ff =>
    match ff.type, ff.ip with
    | .inode, some ip =>
      beginOp
      iput ip
      endOp
    | _, _ => pure ()

def fileRead (f : Fid) (n : Nat) : M Int := do
  let file ← fileGet f
  if ¬ file.readable then pure (- EACCES)
  else match file.type, file.ip with
    | .pipe, _ => outcome
    | .inode, some ip =>
      ilock ip
      let cur ← fileGet f
      let r ← readi ip cur.off n
      onlyIf (0 < r.1) (setOff f ((cur.off + r.1.toNat) % 4294967296))
      iunlock ip
      pure r.1
    | _, _ => panic "fileread"

def MAXWRITE : Nat := (MAXOPBLOCKS - 1 - 1 - 2) / 2 * 512

def mayWrite (p : Proc) (ino : Inode) : Prop := p.uid.toUInt32 = ino.uid ∨ ino.isDev
deriving Decidable

def wrote (f : Fid) (ip : Ptr) (off : Nat) (r : Int) : M Unit := do
  setOff f ((off + r.toNat) % 4294967296)
  let lmtime ← now
  assign ip fun ino => { ino with lmtime := lmtime }
  iupdate ip

def writeChunk (f : Fid) (ip : Ptr) (src : List UInt8) : M Int := do
  let file ← fileGet f
  let r ← writei ip src file.off
  onlyIf (0 < r) (wrote f ip file.off r)
  iunlock ip
  endOp
  pure r

def writeLoop (f : Fid) (ip : Ptr) (n : Int) : Nat → List UInt8 → M Int
  | 0, _ => pure n
  | fuel + 1, src =>
    if src = [] then pure n
    else do
      beginOp
      ilock ip
      let p ← myproc
      let ino ← fields ip
      if ¬ mayWrite p ino then unlockWith ip (-1)
      else do
        let r ← writeChunk f ip (src.take MAXWRITE)
        if r < 0 then pure (-1)
        else if r ≠ (src.take MAXWRITE).length then panic "short filewrite"
        else writeLoop f ip n fuel (src.drop MAXWRITE)

def fileWrite (f : Fid) (src : List UInt8) : M Int := do
  let file ← fileGet f
  if ¬ file.writable then pure (- EACCES)
  else match file.type, file.ip with
    | .pipe, _ => outcome
    | .inode, some ip => writeLoop f ip src.length src.length src
    | _, _ => panic "filewrite"

def fdOf (fd : Int) : Option Fd :=
  if h : 0 ≤ fd ∧ fd.toNat < NOFILE then some ⟨fd.toNat, h.2⟩ else none

def argfd (fd : Int) : M (Option (Fd × Fid)) := do
  let p ← myproc
  pure ((fdOf fd).bind fun d => (p.ofile d).map fun f => (d, f))

/-- A call on a descriptor; `missing` is the result if nothing is open there. -/
def onFdOr (missing fd : Int) (x : Fd → Fid → M Int) : M Int := do
  let r ← argfd fd
  match r with
  | none => pure missing
  | some (d, f) => x d f

abbrev onFd (fd : Int) (x : Fd → Fid → M Int) : M Int := onFdOr (- EINVAL) fd x

/-! ## The calls -/

def sysRead (fd : Int) (n : Nat) : M Int := onFd fd fun _ f => fileRead f n

def sysWrite (fd : Int) (src : List UInt8) : M Int := onFd fd fun _ f => fileWrite f src

def readvLoop (f : Fid) : List Nat → Int → M Int
  | [], total => pure total
  | n :: ns, total => do
    let r ← fileRead f n
    if r < 0 then pure (- EIO) else if r < n then pure (total + r) else readvLoop f ns (total + r)

def sysReadv (fd : Int) (ns : List Nat) : M Int := onFd fd fun _ f => readvLoop f ns 0

def writevLoop (f : Fid) : List (List UInt8) → Int → M Int
  | [], total => pure total
  | src :: rest, total => do
    let r ← fileWrite f src
    if r < 0 then pure (- EIO) else writevLoop f rest (total + r)

def sysWritev (fd : Int) (vec : List (List UInt8)) : M Int := onFd fd fun _ f => writevLoop f vec 0

def openFull (ip : Ptr) (f : Fid) (full : Int) : M Int := do
  let lmtime ← now
  assign ip fun ino => { ino with lmtime := lmtime }
  fileClose f
  putWith ip full

/-- `sys_open` and `sys_creat` with the locked inode: a new file and descriptor for it. -/
def openFile (ip : Ptr) (append readable writable : Bool) (full : Int) : M Int := do
  let f ← perform .fileAlloc
  match f with
  | none => putWith ip full
  | some f =>
    let fd ← perform (.fdalloc f)
    match fd with
    | none => openFull ip f full
    | some fd =>
      iunlock ip
      let ino ← fields ip
      setOff f (if append then ino.size.toNat else 0)
      endOp
      perform (.setInode f ip readable writable)
      pure fd.val

def openInode (n : Nat) (path : List UInt8) (omode : UInt32) (mode : UInt16) : M (Option Ptr) :=
  if has omode O_CREAT then do
    let p ← myproc
    create n path ((S_IFREG ||| mode) &&& ~~~p.umask) 0 0
  else do
    let r ← namei path
    match r with
    | none => pure none
    | some ip =>
      ilock ip
      pure (some ip)

def sysOpen (n : Nat) (path : List UInt8) (omode : UInt32) (mode : UInt16) : M Int := do
  beginOp
  let r ← openInode n path omode mode
  match r with
  | none => leaveWith (- ENOENT)
  | some ip =>
    onlyIf (has omode O_TRUNC = true) (itrunc ip)
    openFile ip (has omode O_APPEND) (!has omode O_WRONLY)
      (has omode O_WRONLY || has omode O_RDWR) (-1)

def sysCreat (n : Nat) (path : List UInt8) (mode : UInt16) : M Int := do
  beginOp
  let p ← myproc
  let r ← create n path ((S_IFREG ||| mode) &&& ~~~p.umask) 0 0
  match r with
  | none => leaveWith (- ENOENT)
  | some ip =>
    itrunc ip
    openFile ip false false true (- ENOENT)

def sysClose (fd : Int) : M Int :=
  onFd fd fun d f => do
    perform (.setOfile d none)
    fileClose f
    pure 0

def unlinkOne (ip : Ptr) : M Unit := do
  assign ip fun ino => { ino with nlink := ino.nlink - 1 }
  iupdate ip

def linkBad (ip : Ptr) : M Int := do
  ilock ip
  unlinkOne ip
  putWith ip (- ENOENT)

def linkTo (ip : Ptr) (new : List UInt8) : M Int := do
  assign ip fun ino => { ino with nlink := ino.nlink + 1 }
  iupdate ip
  iunlock ip
  let r ← nameiparent new
  match r with
  | none => linkBad ip
  | some (dp, name) =>
    ilock dp
    let inum ← perform (.inum ip)
    let r ← dirlink dp name inum
    if r < 0 then do
      iunlockput dp
      linkBad ip
    else do
      iunlockput dp
      iput ip
      leaveWith 0

/-- A call in a transaction on the inode of a path, which it locks. -/
def onPath (path : List UInt8) (missing : Int) (x : Ptr → M Int) : M Int := do
  beginOp
  let r ← namei path
  match r with
  | none => leaveWith missing
  | some ip =>
    ilock ip
    x ip

def sysLink (old new : List UInt8) : M Int := onPath old (- ENOENT) fun ip => linkTo ip new

def sysLinkat (old new : List UInt8) : M Int :=
  onPath old (- ENOENT) fun ip => do
    let ino ← fields ip
    if ino.isDir then putWith ip (- EPERM) else linkTo ip new

def isDots (name : List UInt8) : Bool := namecmp name DOT == 0 || namecmp name DOTDOT == 0

/-- The entry of `ip` at `off` is cleared, and with it the link; `dir` when `ip` is a directory. -/
def removeEntry (dp ip : Ptr) (off : Nat) (dir : Bool) (msg : String) : M Int := do
  let n ← writei dp (List.replicate DIRENTSIZE 0) off
  if n ≠ DIRENTSIZE then panic msg
  else do
    onlyIf (dir = true) (unlinkOne dp)
    iunlockput dp
    unlinkOne ip
    putWith ip 0

def unlinkIn (dp : Ptr) (name : List UInt8) : M Int :=
  if isDots name then putWith dp (- ENOENT)
  else do
    let found ← dirlookup dp name
    match found with
    | none => putWith dp (- ENOENT)
    | some (ip, off) =>
      ilock ip
      let ino ← fields ip
      if asShort ino.nlink < 1 then panic "unlink: nlink < 1"
      else if ino.isDir then do
        let empty ← perform (.isdirempty ip)
        if empty then removeEntry dp ip off true "unlink: writei"
        else do
          iunlockput ip
          putWith dp (- ENOENT)
      else removeEntry dp ip off false "unlink: writei"

/-- A call in a transaction on the directory of the last element of a path, which it locks. -/
def onParent (path : List UInt8) (x : Ptr → List UInt8 → M Int) : M Int := do
  beginOp
  let r ← nameiparent path
  match r with
  | none => leaveWith (- ENOENT)
  | some (dp, name) =>
    ilock dp
    x dp name

def sysUnlink (path : List UInt8) : M Int :=
  onParent path fun dp name => do
    let p ← myproc
    let ino ← fields dp
    -- the reference to the directory is not dropped
    if ¬ mayWrite p ino then unlockWith dp (- EACCES) else unlinkIn dp name

def rmdirIn (dp : Ptr) (name : List UInt8) : M Int := do
  let found ← dirlookup dp name
  match found with
  | none => putWith dp (- ENOENT)
  | some (ip, off) =>
    ilock ip
    let ino ← fields ip
    if ¬ ino.isDir then do
      iunlockput ip
      putWith dp (- ENOTDIR)
    else do
      let empty ← perform (.isdirempty ip)
      if empty then removeEntry dp ip off true "rmdir: writei"
      else do
        iunlockput ip
        putWith dp (- ENOTEMPTY)

def sysRmdir (path : List UInt8) : M Int :=
  onParent path fun dp name => do
    let p ← myproc
    let ino ← fields dp
    if p.uid.toUInt32 ≠ ino.uid then putWith dp (- EPERM)
    else if isDots name then putWith dp (- EPERM)
    else rmdirIn dp name

/-- `exec` and the interpreters it starts, at most `depth` of them; what it reads of the file and
    makes of it is decided elsewhere. -/
def exec : Nat → List UInt8 → M Int
  | 0, _ => panic "exec"
  | depth + 1, path => do
    beginOp
    let r ← namei path
    match r with
    | none => leaveWith (-1)
    | some ip =>
      ilock ip
      let buf ← readi ip 0 128
      iunlockput ip
      endOp
      if 2 ≤ buf.1 ∧ buf.2.take 2 = [35, 33] then
        exec depth (((buf.2.drop 2).dropWhile fun b => b == 32 || b == 9).takeWhile
          fun b => b != 0 && b != 32 && b != 9 && b != 10)
      else outcome

def canExec (p : Proc) (ino : Inode) : Bool :=
  if p.uid.toUInt32 = ino.uid then ino.mode &&& 0o100 != 0
  else if p.gid.toUInt32 = ino.gid then ino.mode &&& 0o010 != 0
  else ino.mode &&& 0o001 != 0

def sysExec (depth : Nat) (path : List UInt8) : M Int :=
  onPath path (- ENOENT) fun ip => do
    let p ← myproc
    let ino ← fields ip
    if ¬ canExec p ino then putWith ip (- EPERM)
    else do
      iunlockput ip
      endOp
      exec depth path

/-- The reference to the old working directory is dropped, then the new one is set. -/
def changeDir (ip : Ptr) : M Int := do
  iunlock ip
  let p ← myproc
  match p.cwd with
  | none => panic "iput"
  | some cwd =>
    iput cwd
    endOp
    perform (.setCwd (some ip))
    pure 0

def sysChdir (path : Option (List UInt8)) : M Int := do
  beginOp
  match path with
  | none => leaveWith (- ENOENT)
  | some path =>
    let r ← namei path
    match r with
    | none => leaveWith (- ENOENT)
    | some ip =>
      ilock ip
      let ino ← fields ip
      if ¬ ino.isDir then putWith ip (- ENOTDIR) else changeDir ip

def blockSize (ip : Ptr) : M Unit := assign ip fun ino =>
    { ino with size := UInt32.ofNat (FSSIZE * BSIZE) }

def sysMknod (n : Nat) (args : Option (List UInt8 × UInt16 × UInt16 × UInt16)) : M Int := do
  let p ← myproc
  if p.euid ≠ 0 then pure (- EPERM)
  else do
    beginOp
    match args with
    | none => leaveWith (- EACCES)
    | some (path, mode, major, minor) =>
      let r ← create n path mode major minor
      match r with
      | none => leaveWith (- EEXIST)
      | some ip =>
        onlyIf (mode &&& S_IFMT = S_IFBLK) (blockSize ip)
        putWith ip 0

def sysMkdir (n : Nat) (path : Option (List UInt8)) : M Int := do
  beginOp
  match path with
  | none => leaveWith (- EEXIST)
  | some path =>
    let p ← myproc
    let r ← create n path ((S_IFDIR ||| 0o755) &&& ~~~p.umask) 0 0
    match r with
    | none => leaveWith (- EEXIST)
    | some ip => putWith ip 0

def mayChange (p : Proc) (ino : Inode) : Prop := p.uid = 0 ∨ p.uid.toUInt32 = ino.uid
deriving Decidable

def chmodTo (mode : UInt16) (ino : Inode) : Inode :=
  { ino with mode := ino.mode &&& ~~~0o777 ||| mode &&& 0o777 }

def chownTo (owner group : UInt32) (ino : Inode) : Inode := { ino with uid := owner, gid := group }

/-- A change of a locked inode by its owner; `release` ends the call. -/
def change (ip : Ptr) (v : Inode → Inode) (release : Ptr → Int → M Int) : M Int := do
  let p ← myproc
  let ino ← fields ip
  if ¬ mayChange p ino then release ip (- EACCES)
  else do
    assign ip v
    iupdate ip
    release ip 0

def sysChmod (path : List UInt8) (mode : UInt16) : M Int :=
  onPath path (- ENOENT) fun ip => change ip (chmodTo mode) putWith

-- `sys_chown` only unlocks the inode
def sysChown (path : List UInt8) (owner group : UInt32) : M Int :=
  onPath path (- ENOENT) fun ip => change ip (chownTo owner group) unlockWith

def changeFile (fd : Int) (v : Inode → Inode) : M Int :=
  onFd fd fun _ f => do
    beginOp
    let file ← fileGet f
    match file.ip with
    | none => panic "ilock"
    | some ip =>
      ilock ip
      change ip v unlockWith

def sysFchmod (fd : Int) (mode : UInt16) : M Int := changeFile fd (chmodTo mode)

def sysFchown (fd : Int) (owner group : UInt32) : M Int := changeFile fd (chownTo owner group)

inductive Whence where
  | set
  | cur
  | fromEnd
  | other

def seek (file : File) (ino : Inode) (offset : Int) : Whence → Option Nat
  | .set => some (offset % 4294967296).toNat
  | .cur => some ((file.off + offset) % 4294967296).toNat
  | .fromEnd => some ((ino.size.toNat + offset) % 4294967296).toNat
  | .other => none

def seekFile (fd : Int) (offset : Int) (whence : Whence) (long : Bool) : M Int :=
  onFd fd fun _ f => do
    let file ← fileGet f
    if file.type = .pipe then pure (- ESPIPE)
    else match file.ip with
      | none => panic "ilock"
      | some ip =>
        ilock ip
        let cur ← fileGet f
        let ino ← fields ip
        match seek cur ino offset whence with
        | none =>
          iunlock ip
          pure (- EINVAL)
        | some off =>
          setOff f off
          iunlock ip
          pure (if long then 0 else off)

def sysLseek (fd : Int) (offset : Int) (whence : Whence) : M Int := seekFile fd offset whence false

def sysLlseek (fd : Int) (offset : Int) (whence : Whence) : M Int := seekFile fd offset whence true

-- the reference is not dropped
def sysUtime (path : List UInt8) : M Int :=
  onPath path (- ENOENT) fun ip => do
    let t ← now
    assign ip fun ino => { ino with ctime := t, lmtime := t }
    iupdate ip
    unlockWith ip 0

def permits (p : Proc) (ino : Inode) (mode : UInt16) : Bool :=
  let perm := ino.mode &&& 0o777
  let perm := if p.uid.toUInt32 = ino.uid then perm >>> 6
      else if p.gid.toUInt32 = ino.gid then perm >>> 3 else perm
  perm &&& (mode &&& 0o007) == mode &&& 0o007

-- the reference is not dropped
def sysAccess (path : List UInt8) (mode : UInt16) : M Int :=
  onPath path (- EBADF) fun ip => do
    let p ← myproc
    let ino ← fields ip
    if permits p ino mode then unlockWith ip 0 else unlockWith ip (- EACCES)

def sysReadlink (path : List UInt8) (n : Nat) : M Int :=
  onPath path (- ENOENT) fun ip => do
    let ino ← fields ip
    if ino.mode &&& S_IFMT ≠ S_IFLNK then putWith ip (- EINVAL)
    else do
      let r ← readi ip 0 n
      if r.1 < 0 then putWith ip (- EIO) else putWith ip r.1

def sysDup (fd : Int) : M Int :=
  onFd fd fun _ f => do
    let d ← perform (.fdalloc f)
    match d with
    | none => pure (- ENOENT)
    | some d =>
      perform (.fileDup f)
      pure d.val

/-- `F_DUPFD` of `sys_fcntl` with the argument `arg`. -/
def sysFcntl (fd : Int) (arg : Nat) : M Int :=
  onFd fd fun _ f => do
    let p ← myproc
    match (List.finRange NOFILE).find? fun d => decide (arg ≤ d.val) && (p.ofile d).isNone with
    | none => pure (- EMFILE)
    | some d =>
      perform (.setOfile d (some f))
      perform (.fileDup f)
      pure d.val

/-- Close what a descriptor has open; the file is closed first. -/
def closeFd (d : Fd) (f : Option Fid) : M Unit :=
  match f with
  | none => pure ()
  | some f => do
    fileClose f
    perform (.setOfile d none)

def sysDup2 (oldfd newfd : Int) : M Int :=
  match fdOf oldfd, fdOf newfd with
  | some old, some new => do
    let p ← myproc
    match p.ofile old with
    | none => pure (- EBADF)
    | some f =>
      if old = new then pure new.val
      else do
        closeFd new (p.ofile new)
        perform (.setOfile new (some f))
        perform (.fileDup f)
        pure new.val
  | _, _ => pure (- EBADF)

def pipealloc : M (Option (Fid × Fid)) := do
  let f0 ← perform .fileAlloc
  match f0 with
  | none => pure none
  | some f0 =>
    let f1 ← perform .fileAlloc
    match f1 with
    | none =>
      fileClose f0
      pure none
    | some f1 =>
      -- a page for the pipe, or not
      let page ← outcome
      if page = 0 then do
        fileClose f0
        fileClose f1
        pure none
      else do
        perform (.setPipe f0 true false)
        perform (.setPipe f1 false true)
        pure (some (f0, f1))

def sysPipe : M Int := do
  let r ← pipealloc
  match r with
  | none => pure (- ENOMEM)
  | some (rf, wf) =>
    let fd0 ← perform (.fdalloc rf)
    match fd0 with
    | none =>
      fileClose rf
      fileClose wf
      pure (- ENOMEM)
    | some fd0 =>
      let fd1 ← perform (.fdalloc wf)
      match fd1 with
      | none =>
        perform (.setOfile fd0 none)
        fileClose rf
        fileClose wf
        pure (- ENOMEM)
      | some _ => pure 0

def sysFork : M Int := do
  let q ← perform .fork
  match q with
  | none => pure (- ENOMEM)
  | some q => pure q.val

def closeAll : List Fd → M Unit
  | [] => pure ()
  | d :: ds => do
    let p ← myproc
    closeFd d (p.ofile d)
    closeAll ds

def exit : M Int := do
  closeAll (List.finRange NOFILE)
  beginOp
  let curproc ← myproc
  match curproc.cwd with
  | none => panic "iput"
  | some cwd =>
    iput cwd
    endOp
    perform (.setCwd none)
    perform .leave
    pure 0

def getdentsLoop (f : Fid) (ip : Ptr) : Nat → M Unit
  | 0 => pure ()
  | n + 1 => do
    let file ← fileGet f
    let r ← readi ip file.off DIRENTSIZE
    if r.1 ≠ DIRENTSIZE then pure ()
    else do
      setOff f ((file.off + DIRENTSIZE) % 4294967296)
      getdentsLoop f ip n

def sysGetdents (fd : Int) (n : Nat) : M Int :=
  onFdOr (-1) fd fun _ f => do
    let file ← fileGet f
    match file.ip with
    | none => pure (-1)
    | some ip =>
      let ino ← fields ip
      if ino.mode &&& S_IFDIR = 0 then pure (-1)
      else do
        ilock ip
        getdentsLoop f ip n
        iunlock ip
        outcome

/-- The loop of `sys_getcwd` from the locked directory `cwd`, less than `depth` levels up; it
    returns the directory it ends with, locked.  The references it takes on the way are not
    dropped. -/
def getcwdLoop (root : Ptr) : Nat → Ptr → M Ptr
  | 0, _ => panic "getcwd"
  | depth + 1, cwd => do
    let here ← perform (.inum cwd)
    let top ← perform (.inum root)
    if here = top then pure cwd
    else do
      let parent ← dirlookup cwd DOTDOT
      match parent with
      | none => pure cwd
      | some (parent, _) =>
        ilock parent
        iunlock cwd
        getcwdLoop root depth parent

def sysGetcwd (depth : Nat) : M Int := do
  let p ← myproc
  match p.cwd with
  | none => panic "ilock"
  | some cwd =>
    ilock cwd
    let root ← iget ROOTINO
    let last ← getcwdLoop root depth cwd
    iunlock last
    iput root
    outcome

def sysStatx (path : List UInt8) : M Int := do
  let r ← namei path
  match r with
  | none => pure (- ENOENT)
  | some ip =>
    ilock ip
    let _ ← fields ip
    iunlockput ip
    outcome

/-- The calls that use inodes or files; `other` stands for the rest. -/
inductive Call where
  | fork
  | exit
  | read (fd : Int) (n : Nat)
  | write (fd : Int) (src : List UInt8)
  | open (path : List UInt8) (omode : UInt32) (mode : UInt16)
  | close (fd : Int)
  | creat (path : List UInt8) (mode : UInt16)
  | link (old new : List UInt8)
  | unlink (path : List UInt8)
  | exec (depth : Nat) (path : List UInt8)
  | chdir (path : Option (List UInt8))
  | mknod (args : Option (List UInt8 × UInt16 × UInt16 × UInt16))
  | chmod (path : List UInt8) (mode : UInt16)
  | chown (path : List UInt8) (owner group : UInt32)
  | lseek (fd : Int) (offset : Int) (whence : Whence)
  | utime (path : List UInt8)
  | access (path : List UInt8) (mode : UInt16)
  | mkdir (path : Option (List UInt8))
  | rmdir (path : List UInt8)
  | dup (fd : Int)
  | pipe
  | fcntl (fd : Int) (arg : Nat)
  | dup2 (oldfd newfd : Int)
  | readlink (path : List UInt8) (n : Nat)
  | fchmod (fd : Int) (mode : UInt16)
  | fchown (fd : Int) (owner group : UInt32)
  | llseek (fd : Int) (offset : Int) (whence : Whence)
  | getdents (fd : Int) (n : Nat)
  | readv (fd : Int) (ns : List Nat)
  | writev (fd : Int) (vec : List (List UInt8))
  | getcwd (depth : Nat)
  | linkat (old new : List UInt8)
  | statx (path : List UInt8)
  | other

def Call.prog (n : Nat) : Call → M Int
  | .fork => sysFork
  | .exit => Calls.exit
  | .read fd n => sysRead fd n
  | .write fd src => sysWrite fd src
  | .open path omode mode => sysOpen n path omode mode
  | .close fd => sysClose fd
  | .creat path mode => sysCreat n path mode
  | .link old new => sysLink old new
  | .unlink path => sysUnlink path
  | .exec depth path => sysExec depth path
  | .chdir path => sysChdir path
  | .mknod args => sysMknod n args
  | .chmod path mode => sysChmod path mode
  | .chown path owner group => sysChown path owner group
  | .lseek fd offset whence => sysLseek fd offset whence
  | .utime path => sysUtime path
  | .access path mode => sysAccess path mode
  | .mkdir path => sysMkdir n path
  | .rmdir path => sysRmdir path
  | .dup fd => sysDup fd
  | .pipe => sysPipe
  | .fcntl fd arg => sysFcntl fd arg
  | .dup2 oldfd newfd => sysDup2 oldfd newfd
  | .readlink path n => sysReadlink path n
  | .fchmod fd mode => sysFchmod fd mode
  | .fchown fd owner group => sysFchown fd owner group
  | .llseek fd offset whence => sysLlseek fd offset whence
  | .getdents fd n => sysGetdents fd n
  | .readv fd ns => sysReadv fd ns
  | .writev fd vec => sysWritev fd vec
  | .getcwd depth => sysGetcwd depth
  | .linkat old new => sysLinkat old new
  | .statx path => sysStatx path
  | .other => outcome

/-! ## Accounts

`simp` executes a routine: it unfolds single actions and goes on with what is left after every
answer. -/

attribute [simp] beginOp endOp iget idup iunlock fields assign
  iupdate itrunc readi writei now myproc fileGet setOff outcome
  onlyIf Unique.forall_iff Option.forall

instance : Nonempty Ptr := ⟨⟨0, by decide⟩⟩

@[simp] theorem keeps_panic {γ α : Type} {D : Discipline Op Ans γ}
    {g : γ} {msg : String} {Q : α → γ → Prop} :
    Prog.Keeps D g (panic msg) Q ↔ D.needs g (.panic msg) := ⟨And.left, fun h => ⟨h, nofun⟩⟩

abbrev Kernel := Pool Pid Call State Int Op Ans

abbrev kernelStep (n : Nat) : Kernel → Event Pid Call Hint → Outcome Kernel :=
  Pool.step (Call.prog n) sem ready

/-! ## A small volume -/

def slot0 : Ptr := ⟨0, NINODE_pos⟩
def proc0 : Pid := ⟨0, NPROC_pos⟩
def proc1 : Pid := ⟨1, one_lt_NPROC⟩

def entry (ino : UInt8) (name : List UInt8) : List UInt8 :=
  [ino, 0, 0, 0, 0, 0, 0] ++ name ++ List.replicate (25 - name.length) 0

def NAME : List UInt8 := [102]

/-- The root directory with one file `f` in it, owned by `uid`, with one byte; processes of the
    users `uid0` and `uid1` with the root directory as their working directory. -/
def smallVolume (uid : UInt32) (uid0 uid1 : UInt16) : State where
  disk i :=
    if i = 1 then { Inode.zero with mode := 0o040755, nlink := 2, size := 96 }
    else if i = 2 then { Inode.zero with mode := 0o100644, nlink := 1, size := 1, uid := uid }
    else Inode.zero
  data i := if i = 1 then entry 1 DOT ++ entry 1 DOTDOT ++ entry 2 NAME
    else if i = 2 then [120] else []
  icache ip := if ip = slot0 then ⟨1, 2, none, false, Inode.zero⟩
    else ⟨0, 0, none, false, Inode.zero⟩
  file _ := ⟨.none, 0, false, false, none, 0⟩
  proc p :=
    if p = proc0 then some ⟨uid0, uid0, 0, 0, fun _ => none, some slot0⟩
    else if p = proc1 then some ⟨uid1, uid1, 0, 0, fun _ => none, some slot0⟩
    else none
  outstanding := 0
  trans _ := 0

/-- Nothing happens that the state does not determine. -/
def noHint : Hint := ⟨0, 0, 0, [], fun _ => 0, ByteBlock.zero, true, 0⟩

def idle (s : State) : Kernel := ⟨s, fun _ => none⟩

def gos (p : Pid) (k : Nat) : List (Event Pid Call Hint) := List.replicate k (.go p noHint)

def whole (p : Pid) (c : Call) (k : Nat) : List (Event Pid Call Hint) :=
  .call p c :: gos p k ++ [.done p]

end Micro86.Calls
