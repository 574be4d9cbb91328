import Micro86.Lib.Exec
import Micro86.Lib.Transition
import Micro86.Lib.Update
import Micro86.Param

/-!
# The file table and the descriptors

`ftable` is one table of `NFILE` entries for the system; each process has `NOFILE` descriptor slots
that point into it.  An entry counts the slots that point to it; the last `file_close` releases the
end of a pipe or the inode the entry stands for.

`made` and `released` record the pipe ends and inodes put in entries and given back.
-/

namespace Micro86.Files

inductive FdType where
  | none
  | pipe
  | inode
  deriving DecidableEq, Repr

inductive Obj where
  | pipeEnd (page : Nat) (writable : Bool)
  | inode (ip : Nat)
  deriving DecidableEq, Repr

/-- `struct file`.  `serial` numbers what was put in the entry last. -/
structure File where
  type : FdType
  ref : Nat
  readable : Bool
  writable : Bool
  pipe : Nat
  ip : Nat
  off : Nat
  serial : Nat
  deriving DecidableEq

/-- The pipe end or inode to be released with the entry. -/
def File.obj (f : File) : Option Obj :=
  match f.type with
  | .none => none
  | .pipe => some (.pipeEnd f.pipe f.writable)
  | .inode => some (.inode f.ip)

/-- `state` of a process, as far as descriptors are concerned. -/
inductive Status where
  | unused
  | embryo
  | live
  | zombie
  deriving DecidableEq, Repr

abbrev Slot := Fin NPROC × Fin NOFILE

structure Table where
  file : Fin NFILE → File
  ofile : Slot → Option (Fin NFILE)
  status : Fin NPROC → Status
  pid : Fin NPROC → Nat
  nextpid : Nat
  initproc : Fin NPROC
  made : List Obj
  released : List (Nat × Obj)

namespace Table

def setFile (s : Table) (f : Fin NFILE) (v : File) : Table :=
  { s with file := Function.update s.file f v }

def setSlot (s : Table) (x : Slot) (v : Option (Fin NFILE)) : Table :=
  { s with ofile := Function.update s.ofile x v }

def setStatus (s : Table) (p : Fin NPROC) (v : Status) : Table :=
  { s with status := Function.update s.status p v }

def setRef (s : Table) (f : Fin NFILE) (n : Nat) : Table := s.setFile f { s.file f with ref := n }

def assign (s : Table) (f : Fin NFILE) (v : File) (x : Obj) : Table :=
  { s.setFile f { v with ref := (s.file f).ref, serial := s.made.length } with
    made := s.made ++ [x] }

/-- The entry without its last reference, and what is released with it. -/
def vacate (s : Table) (f : Fin NFILE) : Table :=
  { s.setFile f { s.file f with ref := 0, type := .none } with
    released := s.released ++ ((s.file f).obj.map (fun x => ((s.file f).serial, x))).toList }

def dropRef (s : Table) (f : Fin NFILE) : Table :=
  if (s.file f).ref - 1 > 0 then s.setRef f ((s.file f).ref - 1) else s.vacate f

end Table

/-! ## Operations -/

def fileAlloc : Exec Table (Option (Fin NFILE)) := do
  let s ← Exec.get
  match (List.finRange NFILE).find? (fun f => (s.file f).ref = 0) with
  | none => pure none
  | some f => do
    Exec.modify (fun s => s.setRef f 1)
    pure (some f)

def fileDup (f : Fin NFILE) : Exec Table Unit := do
  let s ← Exec.get
  if (s.file f).ref < 1 then Exec.panic "filedup"
    else Exec.modify (fun s => s.setRef f ((s.file f).ref + 1))

def fileClose (f : Fin NFILE) : Exec Table Unit := do
  let s ← Exec.get
  if (s.file f).ref < 1 then Exec.panic "fileclose" else Exec.modify (fun s => s.dropRef f)

def fdalloc (p : Fin NPROC) (f : Fin NFILE) : Exec Table (Option (Fin NOFILE)) := do
  let s ← Exec.get
  match (List.finRange NOFILE).find? (fun fd => s.ofile (p, fd) = none) with
  | none => pure none
  | some fd => do
    Exec.modify (fun s => s.setSlot (p, fd) (some f))
    pure (some fd)

def fdOf (fd : Int) : Option (Fin NOFILE) :=
  if h : 0 ≤ fd ∧ fd < NOFILE then some ⟨fd.toNat, by omega⟩ else none

def argfd (s : Table) (p : Fin NPROC) (fd : Int) : Option (Fin NOFILE × Fin NFILE) :=
  match fdOf fd with
  | none => none
  | some fd => (s.ofile (p, fd)).map (fun f => (fd, f))

/-! ## Calls -/

def EBADF : Int := 9
def EINVAL : Int := 22
def ENOENT : Int := 2
def ENOMEM : Int := 12

/-- What `sys_open` takes from its flags. -/
structure Mode where
  wronly : Bool
  rdwr : Bool
  append : Bool

/-- The end of `sys_open` and `sys_creat`, with the inode `ip` of size `size` in hand: a new entry,
a descriptor, and the entry filled in as `v`; `err` when the tables are full. -/
def install (p : Fin NPROC) (err : Int) (ip : Nat) (v : File → File) : Exec Table Int := do
  match ← fileAlloc with
  | none => pure err
  | some f =>
    match ← fdalloc p f with
    | none => do
      fileClose f
      pure err
    | some fd => do
      Exec.modify (fun s => s.assign f { v (s.file f) with type := .inode, ip := ip } (.inode ip))
      pure fd.val

/-- `sys_open`; `found` is the inode `create` or `namei` gives, with its size. -/
def sysOpen (p : Fin NPROC) (found : Option (Nat × Nat)) (omode : Mode) : Exec Table Int :=
  match found with
  | none => pure (-ENOENT)
  | some (ip, size) => install p (-1) ip (fun f =>
      { f with
        off := if omode.append then size else 0
        readable := !omode.wronly
        writable := omode.wronly || omode.rdwr })

def sysCreat (p : Fin NPROC) (found : Option Nat) : Exec Table Int :=
  match found with
  | none => pure (-ENOENT)
  | some ip =>
      install p (-ENOENT) ip (fun f => { f with readable := false, writable := true, off := 0 })

def sysDup (p : Fin NPROC) (fd : Int) : Exec Table Int := do
  let s ← Exec.get
  match argfd s p fd with
  | none => pure (-EINVAL)
  | some (_, f) =>
    match ← fdalloc p f with
    | none => pure (-ENOENT)
    | some fd' => do
      fileDup f
      pure fd'.val

/-- `if (p->ofile[fd]){ file_close(p->ofile[fd]); p->ofile[fd] = 0; }`, in `sys_dup2` and `exit`. -/
def closeSlot (x : Slot) : Exec Table Unit := do
  let s ← Exec.get
  match s.ofile x with
  | none => pure ()
  | some f => do
    fileClose f
    Exec.modify (fun s => s.setSlot x none)

def sysDup2 (p : Fin NPROC) (oldfd newfd : Int) : Exec Table Int := do
  match fdOf oldfd, fdOf newfd with
  | some old, some new => do
    let s ← Exec.get
    match s.ofile (p, old) with
    | none => pure (-EBADF)
    | some f =>
      if old = new then pure newfd
      else do
        closeSlot (p, new)
        Exec.modify (fun s => s.setSlot (p, new) (some f))
        fileDup f
        pure newfd
  | _, _ => pure (-EBADF)

def sysClose (p : Fin NPROC) (fd : Int) : Exec Table Int := do
  let s ← Exec.get
  match argfd s p fd with
  | none => pure (-EINVAL)
  | some (fd, f) => do
    Exec.modify (fun s => s.setSlot (p, fd) none)
    fileClose f
    pure 0

def pipeEnd (page : Nat) (w : Bool) (f : File) : File :=
  { f with type := .pipe, readable := !w, writable := w, pipe := page }

def pipealloc (page : Option Nat) : Exec Table (Option (Fin NFILE × Fin NFILE)) := do
  match ← fileAlloc with
  | none => pure none
  | some f0 =>
    match ← fileAlloc with
    | none => do
      fileClose f0
      pure none
    | some f1 =>
      match page with
      | none => do
        fileClose f0
        fileClose f1
        pure none
      | some page => do
        Exec.modify (fun s => s.assign f0 (pipeEnd page false (s.file f0)) (.pipeEnd page false))
        Exec.modify (fun s => s.assign f1 (pipeEnd page true (s.file f1)) (.pipeEnd page true))
        pure (some (f0, f1))

def sysPipe (p : Fin NPROC) (page : Option Nat) : Exec Table Int := do
  match ← pipealloc page with
  | none => pure (-ENOMEM)
  | some (rf, wf) =>
    match ← fdalloc p rf with
    | none => do
      fileClose rf
      fileClose wf
      pure (-ENOMEM)
    | some fd0 =>
      match ← fdalloc p wf with
      | none => do
        Exec.modify (fun s => s.setSlot (p, fd0) none)
        fileClose rf
        fileClose wf
        pure (-ENOMEM)
      | some _ => pure 0

def dupSlot (x y : Slot) : Exec Table Unit := do
  let s ← Exec.get
  match s.ofile x with
  | none => pure ()
  | some f => do
    fileDup f
    Exec.modify (fun s => s.setSlot y (some f))

def dupFiles (p np : Fin NPROC) : List (Fin NOFILE) → Exec Table Unit
  | [] => pure ()
  | fd :: fds => do
    dupSlot (p, fd) (np, fd)
    dupFiles p np fds

/-- `fork`; `kstack` and `copied` say whether `kalloc` and `copyuvm` find memory. -/
def fork (p : Fin NPROC) (kstack copied : Bool) : Exec Table Int := do
  let s ← Exec.get
  match (List.finRange NPROC).find? (fun q => s.status q = .unused) with
  | none => pure (-ENOMEM)
  | some np => do
    Exec.modify (fun s =>
      { s.setStatus np .embryo with
        pid := Function.update s.pid np s.nextpid
        nextpid := s.nextpid + 1 })
    if kstack = false ∨ copied = false then do
      Exec.modify (fun s => s.setStatus np .unused)
      pure (-ENOMEM)
    else do
      dupFiles p np (List.finRange NOFILE)
      Exec.modify (fun s => s.setStatus np .live)
      pure s.nextpid

def closeFiles (p : Fin NPROC) : List (Fin NOFILE) → Exec Table Unit
  | [] => pure ()
  | fd :: fds => do
    closeSlot (p, fd)
    closeFiles p fds

/-- `exit`; `ignored` says whether the parent ignores `SIGCHLD`: then `sched` is called without the
lock it asks for. -/
def exit (p : Fin NPROC) (ignored : Bool) : Exec Table Int := do
  let s ← Exec.get
  if p = s.initproc then Exec.panic "attempted to kill init"
  else do
    closeFiles p (List.finRange NOFILE)
    if ignored then do
      Exec.modify (fun s => s.setStatus p .unused)
      Exec.panic "sched ptable.lock"
    else do
      Exec.modify (fun s => s.setStatus p .zombie)
      pure 0

def reap (q : Fin NPROC) : Exec Table Int := do
  let s ← Exec.get
  if s.status q = .zombie then do
    Exec.modify (fun s => s.setStatus q .unused)
    pure (s.pid q)
  else pure (-1)

/-- The calls; `invalid` is any of them with arguments that cannot be fetched. -/
inductive Call where
  | invalid
  | «open» (found : Option (Nat × Nat)) (omode : Mode)
  | creat (found : Option Nat)
  | dup (fd : Int)
  | dup2 (oldfd newfd : Int)
  | pipe (page : Option Nat)
  | close (fd : Int)
  | fork (kstack copied : Bool)
  | exit (ignored : Bool)
  | waitpid (q : Fin NPROC)

def Call.run (p : Fin NPROC) : Call → Exec Table Int
  | .invalid => pure (-EINVAL)
  | .open found omode => sysOpen p found omode
  | .creat found => sysCreat p found
  | .dup fd => sysDup p fd
  | .dup2 oldfd newfd => sysDup2 p oldfd newfd
  | .pipe page => sysPipe p page
  | .close fd => sysClose p fd
  | .fork kstack copied => Files.fork p kstack copied
  | .exit ignored => Files.exit p ignored
  | .waitpid q => reap q

def Next (s : Table) (a : Fin NPROC × Call) (t : Table) : Prop :=
  s.status a.1 = .live ∧ ∃ r, a.2.run a.1 s = .ok (r, t)

structure Table.Booted (s : Table) : Prop where
  file : ∀ f, (s.file f).ref = 0 ∧ (s.file f).type = .none
  ofile : ∀ x, s.ofile x = none
  made : s.made = []
  released : s.released = []

end Micro86.Files
