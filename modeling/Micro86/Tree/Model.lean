import Micro86.Fs.Paths

/-!
# The directory tree

The name space above blocks and bytes: an inode is its mode, link count, owner and, for a
directory, its list of entries.  The in-memory inodes are reference counts with a valid bit.

* `iget`, `ilock`, `iput`, `ialloc`, `dirlookup`, `dirlink`, `namex`, `create` — as in `fs.c` and
  `sys.c`, one level up.
* `sysLink`, `sysLinkat`, `sysUnlink`, `sysRmdir`, `sysMkdir`, `creatInode`, … — the system calls
  on names.
-/

namespace Micro86.Tree

open Exec
open Fs (S_IFMT S_IFDIR S_IFREG namecmp strncpy skipelem DOT DOTDOT SLASH asShort)

/-- A directory entry; free when the inode number is zero. -/
structure Dent where
  ino : Nat
  name : List UInt8
  deriving DecidableEq

structure Node where
  mode : UInt16
  nlink : UInt16
  uid : UInt32
  dents : List Dent

def Node.isDir (n : Node) : Prop := n.mode &&& S_IFMT = S_IFDIR
deriving Decidable

/-- The in-memory side of an inode; not in memory when `ref` is zero. -/
structure Mem where
  ref : Nat
  valid : Bool

structure State where
  node : Nat → Node
  mem : Nat → Mem

abbrev TreeM := Exec State

namespace State

variable (s : State)

def setNode (i : Nat) (n : Node) : State := { s with node := Function.update s.node i n }

def setMem (i : Nat) (m : Mem) : State := { s with mem := Function.update s.mem i m }

def free (i : Nat) : State :=
  (s.setNode i { s.node i with mode := 0, dents := [] }).setMem i { s.mem i with valid := false }

def get (i : Nat) : State :=
  s.setMem i (if (s.mem i).ref = 0 then ⟨1, false⟩ else { s.mem i with ref := (s.mem i).ref + 1 })

/-- Does dropping a reference free the inode? -/
def Last (i : Nat) : Prop := (s.mem i).valid = true ∧ (s.node i).nlink = 0 ∧ (s.mem i).ref = 1
deriving Decidable

def drop (i : Nat) : State := s.setMem i { s.mem i with ref := (s.mem i).ref - 1 }

def put (i : Nat) : State := if s.Last i then (s.free i).drop i else s.drop i

end State

/-! ## Inodes -/

def iget (i : Nat) : TreeM Nat := do
  Exec.modify (·.get i)
  pure i

def idup (i : Nat) : TreeM Nat := do
  Exec.modify fun s => s.setMem i { s.mem i with ref := (s.mem i).ref + 1 }
  pure i

def ilock (i : Nat) : TreeM Unit := do
  let s ← Exec.get
  if (s.mem i).ref < 1 then Exec.panic "ilock"
  else if (s.mem i).valid = false then do
    Exec.modify (·.setMem i { s.mem i with valid := true })
    if (s.node i).mode = 0 then Exec.panic "ilock: no type" else pure ()
  else pure ()

def iunlock (i : Nat) : TreeM Unit := do
  let s ← Exec.get
  if (s.mem i).ref < 1 then Exec.panic "iunlock" else pure ()

def iput (i : Nat) : TreeM Unit := Exec.modify (·.put i)

def iunlockput (i : Nat) : TreeM Unit := do
  iunlock i
  iput i

def iassign (i : Nat) (f : Node → Node) : TreeM Unit :=
  Exec.modify fun s => s.setNode i (f (s.node i))

def ialloc (n : Nat) (type : UInt16) : TreeM Nat := do
  let s ← Exec.get
  match (List.range' 1 (n - 1)).find? fun i => decide ((s.node i).mode = 0) with
  | some i =>
    Exec.modify (·.setNode i ⟨type, 0, 0, []⟩)
    iget i
  | none => Exec.panic "ialloc: no inodes"

def itrunc (i : Nat) : TreeM Unit := iassign i fun n => { n with dents := [] }

/-! ## Entries -/

def hasName (name : List UInt8) (e : Dent) : Bool := e.ino != 0 && namecmp name e.name == 0

def find (name : List UInt8) (ds : List Dent) : Option (Dent × Nat) :=
  ds.zipIdx.find? fun e => hasName name e.1

def place (ds : List Dent) : Nat := ds.findIdx fun e => e.ino == 0

def store (ds : List Dent) (k : Nat) (e : Dent) : List Dent :=
  if k < ds.length then ds.set k e else ds ++ [e]

def dirlookup (d : Nat) (name : List UInt8) : TreeM (Option (Nat × Nat)) := do
  let s ← Exec.get
  if ¬ (s.node d).isDir then Exec.panic "dirlookup not DIR"
  else match find name (s.node d).dents with
    | some (e, k) => do
      let ip ← iget e.ino
      pure (some (ip, k))
    | none => pure none

def dirlink (d : Nat) (name : List UInt8) (inum : Nat) : TreeM Int := do
  let found ← dirlookup d name
  match found with
  | some (ip, _) =>
    iput ip
    pure (-1)
  | none =>
    let s ← Exec.get
    if MAXFILE * BSIZE < DIRENTSIZE * place (s.node d).dents + DIRENTSIZE then Exec.panic "dirlink"
    else do
      iassign d fun n =>
        { n with dents := store n.dents (place n.dents) ⟨inum % 65536, strncpy DIRSIZ name⟩ }
      pure 0

def erase (d k : Nat) : TreeM Unit :=
  iassign d fun n => { n with dents := n.dents.set k ⟨0, List.replicate DIRSIZ 0⟩ }

def isdirempty (d : Nat) : TreeM Bool := do
  let s ← Exec.get
  pure (((s.node d).dents.drop 2).all fun e => e.ino == 0)

/-! ## Paths -/

def namexLoop (nameiparent : Bool) : Nat → Nat → List UInt8 →
    List UInt8 → TreeM (Option (Nat × List UInt8))
  | 0, _, _, _ => pure none
  | fuel + 1, ip, path, name =>
    match skipelem path with
    | none =>
      if nameiparent then do
        iput ip
        pure none
      else pure (some (ip, name))
    | some (name, path) => do
      ilock ip
      let s ← Exec.get
      if ¬ (s.node ip).isDir then do
        iunlockput ip
        pure none
      else if nameiparent ∧ path = [] then do
        iunlock ip
        pure (some (ip, name))
      else do
        let next ← dirlookup ip name
        match next with
        | none =>
          iunlockput ip
          pure none
        | some (next, _) =>
          iunlockput ip
          namexLoop nameiparent fuel next path name

def namex (cwd : Nat) (path : List UInt8)
    (nameiparent : Bool) : TreeM (Option (Nat × List UInt8)) :=
  if path.headD 0 = SLASH then do
    let ip ← iget ROOTINO
    namexLoop nameiparent (path.length + 1) ip path []
  else do
    let ip ← idup cwd
    namexLoop nameiparent (path.length + 1) ip path []

def namei (cwd : Nat) (path : List UInt8) : TreeM (Option Nat) := do
  let r ← namex cwd path false
  pure (r.map Prod.fst)

def nameiparent (cwd : Nat) (path : List UInt8) : TreeM (Option (Nat × List UInt8)) :=
  namex cwd path true

/-! ## System calls -/

structure Cred where
  cwd : Nat
  uid : UInt32
  umask : UInt16
  suser : Bool

def createDots (ip dp : Nat) : TreeM Unit := do
  let s ← Exec.get
  if (s.node ip).isDir then do
    iassign dp fun n => { n with nlink := n.nlink + 1 }
    let r ← dirlink ip DOT ip
    if r < 0 then Exec.panic "create dots"
    else do
      let r ← dirlink ip DOTDOT dp
      if r < 0 then Exec.panic "create dots" else pure ()
  else pure ()

def createNew (n : Nat) (c : Cred) (dp : Nat) (name : List UInt8)
    (type : UInt16) : TreeM (Option Nat) := do
  let ip ← ialloc n type
  ilock ip
  iassign ip fun n => { n with mode := type, nlink := 1, uid := c.uid }
  createDots ip dp
  let r ← dirlink dp name ip
  if r < 0 then Exec.panic "create: dirlink"
  else do
    iunlockput dp
    pure (some ip)

def create (n : Nat) (c : Cred) (path : List UInt8) (type : UInt16) : TreeM (Option Nat) := do
  let r ← nameiparent c.cwd path
  match r with
  | none => pure none
  | some (dp, name) =>
    ilock dp
    let found ← dirlookup dp name
    match found with
    | some (ip, _) =>
      iunlockput dp
      ilock ip
      if type &&& S_IFMT = S_IFREG then pure (some ip)
      else do
        iunlockput ip
        pure none
    | none => createNew n c dp name type

def EPERM : Int := 1
def ENOENT : Int := 2
def EACCES : Int := 13
def EEXIST : Int := 17
def ENOTDIR : Int := 20
def ENOTEMPTY : Int := 39

def linkBad (ip : Nat) : TreeM Int := do
  ilock ip
  iassign ip fun n => { n with nlink := n.nlink - 1 }
  iunlockput ip
  pure (-ENOENT)

/-- What `sys_link` and `sys_linkat` share: count the link to the locked inode, then enter it. -/
def linkTo (c : Cred) (ip : Nat) (new : List UInt8) : TreeM Int := do
  iassign ip fun n => { n with nlink := n.nlink + 1 }
  iunlock ip
  let r ← nameiparent c.cwd new
  match r with
  | none => linkBad ip
  | some (dp, name) =>
    ilock dp
    let r ← dirlink dp name ip
    if r < 0 then do
      iunlockput dp
      linkBad ip
    else do
      iunlockput dp
      iput ip
      pure 0

def sysLink (c : Cred) (old new : List UInt8) : TreeM Int := do
  let r ← namei c.cwd old
  match r with
  | none => pure (-ENOENT)
  | some ip =>
    ilock ip
    linkTo c ip new

def sysLinkat (c : Cred) (old new : List UInt8) : TreeM Int := do
  let r ← namei c.cwd old
  match r with
  | none => pure (-ENOENT)
  | some ip =>
    ilock ip
    let s ← Exec.get
    if (s.node ip).isDir then do
      iunlockput ip
      pure (-EPERM)
    else linkTo c ip new

def isDots (name : List UInt8) : Bool := namecmp name DOT == 0 || namecmp name DOTDOT == 0

def Node.isDev (n : Node) : Prop := n.mode &&& S_IFMT = Fs.S_IFCHR ∨ n.mode &&& S_IFMT = Fs.S_IFBLK
deriving Decidable

def dropParent (dp ip : Nat) : TreeM Unit := do
  let s ← Exec.get
  if (s.node ip).isDir then iassign dp fun n => { n with nlink := n.nlink - 1 } else pure ()

def unlinkEntry (dp k ip : Nat) : TreeM Int := do
  erase dp k
  dropParent dp ip
  iunlockput dp
  iassign ip fun n => { n with nlink := n.nlink - 1 }
  iunlockput ip
  pure 0

def sysUnlink (c : Cred) (path : List UInt8) : TreeM Int := do
  let r ← nameiparent c.cwd path
  match r with
  | none => pure (-ENOENT)
  | some (dp, name) =>
    ilock dp
    let s ← Exec.get
    if c.uid ≠ (s.node dp).uid ∧ ¬ (s.node dp).isDev then do
      -- the reference to the parent is not dropped here
      iunlock dp
      pure (-EACCES)
    else if isDots name then do
      iunlockput dp
      pure (-ENOENT)
    else do
      let found ← dirlookup dp name
      match found with
      | none =>
        iunlockput dp
        pure (-ENOENT)
      | some (ip, k) =>
        ilock ip
        let s ← Exec.get
        if asShort (s.node ip).nlink < 1 then Exec.panic "unlink: nlink < 1"
        else do
          let empty ← isdirempty ip
          if (s.node ip).isDir ∧ empty = false then do
            iunlockput ip
            iunlockput dp
            pure (-ENOENT)
          else unlinkEntry dp k ip

/-- The rest of `sys_rmdir` once the entry `k` for the empty directory `ip` is to go. -/
def rmdirEntry (dp k ip : Nat) : TreeM Int := do
  erase dp k
  iassign dp fun n => { n with nlink := n.nlink - 1 }
  iunlockput dp
  iassign ip fun n => { n with nlink := n.nlink - 1 }
  iunlockput ip
  pure 0

def sysRmdir (c : Cred) (path : List UInt8) : TreeM Int := do
  let r ← nameiparent c.cwd path
  match r with
  | none => pure (-ENOENT)
  | some (dp, name) =>
    ilock dp
    let s ← Exec.get
    if c.uid ≠ (s.node dp).uid then do
      iunlockput dp
      pure (-EPERM)
    else if isDots name then do
      iunlockput dp
      pure (-EPERM)
    else do
      let found ← dirlookup dp name
      match found with
      | none =>
        iunlockput dp
        pure (-ENOENT)
      | some (ip, k) =>
        ilock ip
        let s ← Exec.get
        if ¬ (s.node ip).isDir then do
          iunlockput ip
          iunlockput dp
          pure (-ENOTDIR)
        else do
          let empty ← isdirempty ip
          if empty = false then do
            iunlockput ip
            iunlockput dp
            pure (-ENOTEMPTY)
          else rmdirEntry dp k ip

def mknode (n : Nat) (c : Cred) (path : List UInt8) (type : UInt16) : TreeM Int := do
  let r ← create n c path type
  match r with
  | none => pure (-EEXIST)
  | some ip =>
    iunlockput ip
    pure 0

def sysMkdir (n : Nat) (c : Cred) (path : List UInt8) : TreeM Int :=
  mknode n c path ((S_IFDIR ||| 0o755) &&& ~~~c.umask)

def sysMknod (n : Nat) (c : Cred) (path : List UInt8) (mode : UInt16) : TreeM Int :=
  if c.suser then mknode n c path mode else pure (-EPERM)

def truncIf (trunc : Bool) (ip : Nat) : TreeM Unit := if trunc then itrunc ip else pure ()

/-- The end of `sys_open` and `sys_creat` with the locked inode: truncate it, then hand it to a
    file if there is `room` for one; `full` is the error if there is none. -/
def openFile (ip : Nat) (trunc room : Bool) (full : Int) : TreeM (Except Int Nat) := do
  truncIf trunc ip
  if room then do
    iunlock ip
    pure (.ok ip)
  else do
    iunlockput ip
    pure (.error full)

/-- `sys_creat`, and `sys_open` with `O_CREAT`, up to the new file: the inode it holds. -/
def creatInode (n : Nat) (c : Cred) (path : List UInt8) (mode : UInt16)
    (trunc room : Bool) (full : Int) : TreeM (Except Int Nat) := do
  let r ← create n c path ((S_IFREG ||| mode) &&& ~~~c.umask)
  match r with
  | none => pure (.error (-ENOENT))
  | some ip => openFile ip trunc room full

def openInode (c : Cred) (path : List UInt8) (trunc room : Bool) : TreeM (Except Int Nat) := do
  let r ← namei c.cwd path
  match r with
  | none => pure (.error (-ENOENT))
  | some ip =>
    ilock ip
    openFile ip trunc room (-1)

def chdirInode (c : Cred) (path : List UInt8) : TreeM (Except Int Nat) := do
  let r ← namei c.cwd path
  match r with
  | none => pure (.error (-ENOENT))
  | some ip =>
    ilock ip
    let s ← Exec.get
    if ¬ (s.node ip).isDir then do
      iunlockput ip
      pure (.error (-ENOTDIR))
    else do
      iunlock ip
      iput c.cwd
      pure (.ok ip)

end Micro86.Tree
