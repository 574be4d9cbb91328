import Micro86.Lib.Transition
import Micro86.Lib.Counting
import Micro86.Tree.Removal
import Micro86.Tree.Creation

/-!
# Processes, open files and system calls

The tree with the tables that hold references into it: the working directory of every process and
the open files.  A step is one system call of one process.

* `Call.exec` — the calls; `step` — one call of a process, which goes on or panics.
-/

namespace Micro86.Tree

open Exec
open Fs (S_IFMT S_IFDIR S_IFREG)

/-- An open file; `ip` is the inode of one of type `FD_INODE`. -/
structure File where
  ref : Nat
  ip : Option Nat

/-- A process; without a working directory it does not run. -/
structure Proc where
  cwd : Option Nat
  uid : UInt32
  umask : UInt16
  suser : Bool
  init : Bool
  ofile : Fin NOFILE → Option (Fin NFILE)

structure Sys where
  fs : State
  proc : Fin NPROC → Proc
  file : Fin NFILE → File

namespace Sys

variable (s : Sys)

def setFs (t : State) : Sys := { s with fs := t }

def setProc (p : Fin NPROC) (pr : Proc) : Sys := { s with proc := Function.update s.proc p pr }

def setFile (f : Fin NFILE) (fl : File) : Sys := { s with file := Function.update s.file f fl }

def setOfile (p : Fin NPROC) (fd : Fin NOFILE) (f : Option (Fin NFILE)) : Sys :=
  s.setProc p { s.proc p with ofile := Function.update (s.proc p).ofile fd f }

def setCwd (p : Fin NPROC) (cwd : Option Nat) : Sys := s.setProc p { s.proc p with cwd := cwd }

end Sys

abbrev SysM := Exec Sys

def onFs {α : Type} (x : TreeM α) : SysM α := Exec.zoom Sys.fs Sys.setFs x

def EINVAL : Int := 22

/-! ## Open files -/

def fileAlloc (s : Sys) : Option (Fin NFILE) :=
  (List.finRange NFILE).find? fun f => (s.file f).ref == 0

def fdalloc (pr : Proc) : Option (Fin NOFILE) :=
  (List.finRange NOFILE).find? fun fd => (pr.ofile fd).isNone

def fileClose (f : Fin NFILE) : SysM Unit := do
  let s ← Exec.get
  if (s.file f).ref < 1 then Exec.panic "fileclose"
  else if 1 < (s.file f).ref then
    Exec.modify (·.setFile f { s.file f with ref := (s.file f).ref - 1 })
  else do
    Exec.modify (·.setFile f ⟨0, none⟩)
    match (s.file f).ip with
    | some ip => onFs (iput ip)
    | none => pure ()

/-- What `sys_open` and `sys_creat` do with a file structure and a descriptor; `find` gets the inode
    and is told whether both are there. -/
def openFd (p : Fin NPROC) (find : Bool → TreeM (Except Int Nat)) : SysM Int := do
  let s ← Exec.get
  let r ← onFs (find ((fileAlloc s).isSome && (fdalloc (s.proc p)).isSome))
  match r, fileAlloc s, fdalloc (s.proc p) with
  | .ok ip, some f, some fd =>
    Exec.modify fun s => (s.setFile f ⟨1, some ip⟩).setOfile p fd (some f)
    pure fd.val
  | .error e, _, _ => pure e
  | .ok _, _, _ => pure (-1)

def closeAll (p : Fin NPROC) : List (Fin NOFILE) → SysM Unit
  | [] => pure ()
  | fd :: fds => do
    let s ← Exec.get
    match (s.proc p).ofile fd with
    | some f =>
      fileClose f
      Exec.modify (·.setOfile p fd none)
    | none => pure ()
    closeAll p fds

/-! ## System calls -/

/-- `sys_open` carries the mode if `O_CREAT` is set, and whether `O_TRUNC` is. -/
inductive Call where
  | sysOpen (path : List UInt8) (creat : Option UInt16) (trunc : Bool)
  | sysCreat (path : List UInt8) (mode : UInt16)
  | sysMkdir (path : List UInt8)
  | sysMknod (path : List UInt8) (mode : UInt16)
  | sysLink (old new : List UInt8)
  | sysLinkat (old new : List UInt8)
  | sysUnlink (path : List UInt8)
  | sysRmdir (path : List UInt8)
  | sysChdir (path : List UInt8)
  | sysClose (fd : Fin NOFILE)
  | sysExit

def fileMode (c : Cred) (mode : UInt16) : UInt16 := (S_IFREG ||| mode) &&& ~~~c.umask

def dirMode (c : Cred) : UInt16 := (S_IFDIR ||| 0o755) &&& ~~~c.umask

def Call.exec (N : Nat) (p : Fin NPROC) (c : Cred) : Call → SysM Int
  | .sysOpen path (some mode) trunc => openFd p fun room => creatInode N c path mode trunc room (-1)
  | .sysOpen path none trunc => openFd p fun room => openInode c path trunc room
  | .sysCreat path mode => openFd p fun room => creatInode N c path mode true room (-ENOENT)
  | .sysMkdir path => onFs (Tree.sysMkdir N c path)
  | .sysMknod path mode => onFs (Tree.sysMknod N c path mode)
  | .sysLink old new => onFs (Tree.sysLink c old new)
  | .sysLinkat old new => onFs (Tree.sysLinkat c old new)
  | .sysUnlink path => onFs (Tree.sysUnlink c path)
  | .sysRmdir path => onFs (Tree.sysRmdir c path)
  | .sysChdir path => do
    let r ← onFs (chdirInode c path)
    match r with
    | .ok ip =>
      Exec.modify (·.setCwd p (some ip))
      pure 0
    | .error e => pure e
  | .sysClose fd => do
    let s ← Exec.get
    match (s.proc p).ofile fd with
    | none => pure (-EINVAL)
    | some f =>
      Exec.modify (·.setOfile p fd none)
      fileClose f
      pure 0
  | .sysExit => do
    let s ← Exec.get
    if (s.proc p).init then Exec.panic "attempted to kill init"
    else do
      closeAll p (List.finRange NOFILE)
      onFs (iput c.cwd)
      Exec.modify (·.setCwd p none)
      pure 0

def Proc.cred (pr : Proc) (cwd : Nat) : Cred := ⟨cwd, pr.uid, pr.umask, pr.suser⟩

/-- One system call; only a process with a working directory makes one. -/
def step (N : Nat) (s : Sys) (a : Fin NPROC × Call) : Outcome Sys :=
  match (s.proc a.1).cwd with
  | none => .blocked
  | some cwd =>
    match a.2.exec N a.1 ((s.proc a.1).cred cwd) s with
    | .ok (_, t) => .next t
    | .error msg => .panic msg

/-! ## The conditions -/

def Succeeds (x : TreeM Int) (s : State) : Prop := wp x (fun r _ => r = 0) (fun _ => False) s

/-- No hard link to a directory, none beyond the largest link count, no removal of a directory in
    use, and no truncation of a directory. -/
def Call.Ok (N : Nat) (c : Cred) (s : State) : Call → Prop
  | .sysOpen path (some mode) trunc =>
    CreateOk c path (fileMode c mode) s ∧ TruncOk (create N c path (fileMode c mode)) trunc s
  | .sysOpen path none trunc => TruncOk (namei c.cwd path) trunc s
  | .sysCreat path mode => CreateOk c path (fileMode c mode) s ∧
        TruncOk (create N c path (fileMode c mode)) true s
  | .sysMkdir path => Succeeds (Tree.sysMkdir N c path) s → CreateOk c path (dirMode c) s
  | .sysMknod path mode => Succeeds (Tree.sysMknod N c path mode) s → CreateOk c path mode s
  | .sysLink old new => LinkRoom c old s ∧ (Succeeds (Tree.sysLink c old new) s → LinkFile c old s)
  | .sysLinkat old _ => LinkRoom c old s
  | .sysUnlink path => Succeeds (Tree.sysUnlink c path) s → RemoveOk c path s
  | .sysRmdir path => Succeeds (Tree.sysRmdir c path) s → RemoveOk c path s
  | .sysChdir _ => True
  | .sysClose _ => True
  | .sysExit => True

instance {c : Cred} {path : List UInt8} {type : UInt16} {s : State} :
    Decidable (CreateOk c path type s) :=
  inferInstanceAs (Decidable (_ → wp _ _ _ _))

instance {x : TreeM (Option Nat)} {trunc : Bool} {s : State} : Decidable (TruncOk x trunc s) :=
  inferInstanceAs (Decidable (_ → wp _ _ _ _))

instance {c : Cred} {old : List UInt8} {s : State} :
    Decidable (LinkRoom c old s) := inferInstanceAs (Decidable (wp _ _ _ _))

instance {c : Cred} {old : List UInt8} {s : State} :
    Decidable (LinkFile c old s) := inferInstanceAs (Decidable (wp _ _ _ _))

instance {c : Cred} {path : List UInt8} {s : State} :
    Decidable (RemoveOk c path s) := inferInstanceAs (Decidable (wp _ _ _ _))

instance {x : TreeM Int} {s : State} : Decidable (Succeeds x s) :=
  inferInstanceAs (Decidable (wp _ _ _ _))

instance {N : Nat} {c : Cred} {s : State} : (call : Call) → Decidable (call.Ok N c s)
  | .sysOpen _ (some _) _ => inferInstanceAs (Decidable (CreateOk _ _ _ _ ∧ TruncOk _ _ _))
  | .sysOpen _ none _ => inferInstanceAs (Decidable (TruncOk _ _ _))
  | .sysCreat _ _ => inferInstanceAs (Decidable (CreateOk _ _ _ _ ∧ TruncOk _ _ _))
  | .sysMkdir _ => inferInstanceAs (Decidable (Succeeds _ _ → CreateOk _ _ _ _))
  | .sysMknod _ _ => inferInstanceAs (Decidable (Succeeds _ _ → CreateOk _ _ _ _))
  | .sysLink _ _ => inferInstanceAs (Decidable (LinkRoom _ _ _ ∧ (Succeeds _ _ → LinkFile _ _ _)))
  | .sysLinkat _ _ => inferInstanceAs (Decidable (LinkRoom _ _ _))
  | .sysUnlink _ => inferInstanceAs (Decidable (Succeeds _ _ → RemoveOk _ _ _))
  | .sysRmdir _ => inferInstanceAs (Decidable (Succeeds _ _ → RemoveOk _ _ _))
  | .sysChdir _ => inferInstanceAs (Decidable True)
  | .sysClose _ => inferInstanceAs (Decidable True)
  | .sysExit => inferInstanceAs (Decidable True)

def Allowed (N : Nat) (s : Sys) (a : Fin NPROC × Call) : Prop :=
  match (s.proc a.1).cwd with
  | none => True
  | some cwd => a.2.Ok N ((s.proc a.1).cred cwd) s.fs

/-! ## The invariant -/

instance {N : Nat} {s : Sys} {a : Fin NPROC × Call} : Decidable (Allowed N s a) := by
  unfold Allowed
  split <;> infer_instance

def Call.type (c : Cred) : Call → Option UInt16
  | .sysOpen _ (some mode) _ => some (fileMode c mode)
  | .sysCreat _ mode => some (fileMode c mode)
  | .sysMkdir _ => some (dirMode c)
  | .sysMknod _ mode => some mode
  | _ => none

/-- The panics that remain: the volume or the directory is full, the first process exits, or an
    inode is created without a type. -/
def Call.Panic (c : Cred) (call : Call) (msg : String) : Prop :=
  msg = "ialloc: no inodes" ∨ msg = "dirlink" ∨ msg = "attempted to kill init" ∨
    (call.type c = some 0 ∧ msg = "ilock: no type")

def cwds (proc : Fin NPROC → Proc) (i : Nat) : Nat := ∑ p, if (proc p).cwd = some i then 1 else 0

def opens (file : Fin NFILE → File) (i : Nat) : Nat := ∑ f, if (file f).ip = some i then 1 else 0

def Sys.held (s : Sys) (i : Nat) : Nat := cwds s.proc i + opens s.file i

def Proc.uses (pr : Proc) (f : Fin NFILE) : Nat := ∑ fd, if pr.ofile fd = some f then 1 else 0

def Sys.uses (s : Sys) (f : Fin NFILE) : Nat := ∑ p, (s.proc p).uses f

/-- Every working directory and open file holds a reference to an allocated inode, and file `f` has
    at least `u f` references, one for each descriptor. -/
structure Sound (N : Nat) (u : Fin NFILE → Nat) (s : Sys) : Prop where
  inv : Inv N none s.fs
  held : ∀ i, s.held i ≤ (s.fs.mem i).ref
  uses : ∀ f, u f ≤ (s.file f).ref

/-- **The invariant of the system.** -/
def Sys.Safe (N : Nat) (s : Sys) : Prop := Sound N s.uses s

end Micro86.Tree
