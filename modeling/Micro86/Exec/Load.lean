import Micro86.Exec.Script
import Micro86.Lib.Bytes
import Micro86.Mm.Copyout
import Micro86.Mm.Kmap

/-!
# Loading a program

`exec` of `lib/exec.c` from the ELF header on, on the page tables of `mm/vm.c`, the memory behind
them, and what `exec` changes of the process.
-/

namespace Micro86.ExecFile

open Exec
open Mm (PGSIZE KERNBASE NPTENTRIES Pte)
open Vm (Image PageDir Mem Store NPAGES PGROUNDUP pages KPAGE Loaded)

/-! ## Headers -/

def ELF_MAGIC : Nat := 0x464C457F

def ELF_PROG_LOAD : Nat := 1

def EHSIZE : Nat := 52

def PHSIZE : Nat := 32

def USERSTACK : Nat := 64 * 1024 * 32

structure ElfHdr where
  magic : Nat
  entry : Nat
  phoff : Nat
  phnum : Nat

structure ProgHdr where
  type : Nat
  off : Nat
  vaddr : Nat
  filesz : Nat
  memsz : Nat

def ElfHdr.ofBytes (data : List UInt8) : ElfHdr :=
  let b : ByteBlock EHSIZE := ByteBlock.zero.write 0 data
  ⟨b.u32 0, b.u32 24, b.u32 28, b.u16 44⟩

def ProgHdr.ofBytes (data : List UInt8) : ProgHdr :=
  let b : ByteBlock PHSIZE := ByteBlock.zero.write 0 data
  ⟨b.u32 0, b.u32 4, b.u32 8, b.u32 16, b.u32 20⟩

def File.readAll (f : File) (off n : Nat) : Option (List UInt8) :=
  match f.readi off n with
  | some data => if data.length = n then some data else none
  | none => none

/-! ## Segments -/

section

variable (img : Image) (phystop : Nat) (f : File)

/-- The loop of `loaduvm`, for at most `fuel` pages; `false` for -1. -/
def loadLoop (addr offset sz : Nat) : Nat → Nat → Exec Mem Bool
  | 0, _ => pure true
  | fuel + 1, i =>
    if i < sz then do
      match ← Vm.walkpgdir ((addr + i) % 2 ^ 32) false with
      | none => Exec.panic "loaduvm: address should exist"
      | some e =>
        let n := if sz - i < PGSIZE then sz - i else PGSIZE
        match f.readi ((offset + i) % 2 ^ 32) n with
        | none => pure false
        | some data => do
          Exec.modify fun m => { m with stores := .data (e.frame * PGSIZE) data :: m.stores }
          if data.length ≠ n then pure false
            else loadLoop addr offset sz fuel ((i + PGSIZE) % 2 ^ 32)
    else pure true

def loaduvm (addr offset sz : Nat) : Exec Mem Bool := loadLoop f addr offset sz NPAGES 0

/-- What is done for a program header: the new size, or `none` for `goto bad`. -/
def segment (ph : ProgHdr) (sz : Nat) : Exec Mem (Option Nat) :=
  if ph.type ≠ ELF_PROG_LOAD then pure (some sz)
  else if ph.memsz < ph.filesz then pure none
  else if (ph.vaddr + ph.memsz) % 2 ^ 32 < ph.vaddr then pure none
  else do
    let sz ← Vm.allocuvm img phystop sz ((ph.vaddr + ph.memsz) % 2 ^ 32)
    if sz = 0 then pure none
    else if ph.vaddr % PGSIZE ≠ 0 then pure none
    else if ← loaduvm f ph.vaddr ph.off ph.filesz then pure (some sz) else pure none

def segments : Nat → Nat → Nat → Exec Mem (Option Nat)
  | 0, _, sz => pure (some sz)
  | n + 1, off, sz =>
    match f.readAll off PHSIZE with
    | none => pure none
    | some data => do
      match ← segment img phystop f (.ofBytes data) sz with
      | none => pure none
      | some sz => segments n ((off + PHSIZE) % 2 ^ 32) sz

def stack (sz : Nat) : Exec Mem (Option Nat) := do
  let sz ← Vm.allocuvm img phystop (PGROUNDUP sz) ((PGROUNDUP sz + USERSTACK) % 2 ^ 32)
  if sz = 0 then pure none
  else do
    Vm.clearpteu ((sz + 2 ^ 32 - USERSTACK) % 2 ^ 32)
    pure (some sz)

-- the pages of the stack are not to be allocated by the elaborator
attribute [irreducible] stack

end

/-! ## The state -/

/-- What the registers of the process are when it returns from the system call. -/
structure TrapFrame where
  eip : Nat
  esp : Nat
  regs : Nat → Nat

structure Proc where
  pgdir : PageDir
  root : Nat
  sz : Nat
  tf : TrapFrame
  name : Str
  sighandlers : Nat → Nat

structure Sys where
  /-- The free pages, and the table that is built. -/
  vm : Mem
  /-- Physical memory; tables are not part of it. -/
  mem : Nat → UInt8
  /-- References to each inode. -/
  refs : Nat → Nat
  /-- `log.outstanding`. -/
  outstanding : Nat
  proc : Proc

def applyStore (mem : Nat → UInt8) : Store → Nat → UInt8
  | .fill f b, a => if a / PGSIZE = f then b else mem a
  | .data pa bytes, a => if pa ≤ a ∧ a < pa + bytes.length then bytes.getD (a - pa) 0 else mem a

/-- Memory after stores, the last of which is the first of the list. -/
def applyStores (mem : Nat → UInt8) : List Store → Nat → UInt8
  | [] => mem
  | st :: l => applyStore (applyStores mem l) st

def onVm {α : Type} (x : Exec Mem α) : Exec Sys α := fun s =>
  match x { s.vm with stores := [] } with
  | .ok (a, m) => .ok (a, { s with vm := m, mem := applyStores s.mem m.stores })
  | .error msg => .error msg

def tables (d : PageDir) : Mm.Tables := fun i => (d i).map Vm.PageTab.ptes

def copyout (va : Nat) (bytes : List UInt8) : Exec Sys Bool := fun s =>
  match Mm.copyout (tables s.proc.pgdir) (tables s.vm.pgdir)
    va (fun i => bytes.getD i 0) bytes.length ⟨s.mem, [], []⟩ with
  | .ok (r, t) => .ok (r = 0, { s with mem := t.mem })
  | .error msg => .error msg

/-! ## Arguments -/

def lower (sp n : Nat) : Nat := (sp + 2 ^ 32 - n % 2 ^ 32) % 2 ^ 32 / 4 * 4

/-- The strings of `argv` from number `argc` on; the new `sp`, and the pointers. -/
def pushStrings : List Str → Nat → Nat → List Nat → Exec Sys (Option (Nat × List Nat))
  | [], _, sp, ptrs => pure (some (sp, ptrs))
  | arg :: rest, argc, sp, ptrs =>
    if argc ≥ MAXARG then pure none
    else do
      if ← copyout (lower sp (arg.length + 1)) (arg ++ [0]) then
        pushStrings rest (argc + 1) (lower sp (arg.length + 1))
          (ptrs ++ [lower sp (arg.length + 1)])
      else pure none

def ustack (argc sp : Nat) (ptrs : List Nat) : List Nat :=
  [0xFFFFFFFF, argc, (sp + 2 ^ 32 - (argc + 1) * 4) % 2 ^ 32] ++ ptrs ++ [0]

def pushArgs (argv : List Str) (sz : Nat) : Exec Sys (Option Nat) := do
  match ← pushStrings argv 0 sz [] with
  | none => pure none
  | some (sp, ptrs) =>
    if ← copyout ((sp + 2 ^ 32 - (3 + argv.length + 1) * 4) % 2 ^ 32)
        ((ustack argv.length sp ptrs).flatMap ByteBlock.le32) then
      pure (some ((sp + 2 ^ 32 - (3 + argv.length + 1) * 4) % 2 ^ 32))
    else pure none

/-! ## `exec` -/

/-- What `namei` finds, and the files. -/
structure Disk where
  namei : Str → Option Nat
  inode : Nat → File

/-- What `exec` returns; or its scan for the interpreter left `buf`, and a zero byte was stored
    further up in the kernel stack, where the trap frame is. -/
inductive Ret where
  | code (r : Int)
  | overrun
  deriving DecidableEq

def beginOp : Exec Sys Unit := Exec.modify fun s => { s with outstanding := s.outstanding + 1 }

def endOp : Exec Sys Unit := Exec.modify fun s => { s with outstanding := s.outstanding - 1 }

def iget (inum : Nat) : Exec Sys Unit :=
  Exec.modify fun s => { s with refs := Function.update s.refs inum (s.refs inum + 1) }

def iunlockput (inum : Nat) : Exec Sys Unit :=
  Exec.modify fun s => { s with refs := Function.update s.refs inum (s.refs inum - 1) }

def baseName (path : Str) : Str := (path.reverse.takeWhile (· ≠ 0x2F)).reverse

def NAMELEN : Nat := 15

section

variable (img : Image) (phystop : Nat) (disk : Disk)

def bad (pgdir : Bool) (ip : Option Nat) : Exec Sys Ret := do
  if pgdir then onVm (Vm.freevm img phystop)
  match ip with
  | some inum => do
    iunlockput inum
    endOp
    pure (.code (-ENOEXEC))
  | none => pure (.code (-ENOEXEC))

/-- The old table is freed and the new one is that of the process. -/
def commit (path : Str) (entry sz sp : Nat) : Exec Sys Ret := do
  let s ← Exec.get
  let new := s.vm
  Exec.modify fun s => { s with
    vm := { s.vm with pgdir := s.proc.pgdir, root := s.proc.root }
    proc := { s.proc with
      name := (baseName path).take NAMELEN
      pgdir := new.pgdir
      root := new.root
      sz := sz
      tf := { s.proc.tf with eip := entry, esp := sp } } }
  onVm (Vm.freevm img phystop)
  Exec.modify fun s => { s with proc := { s.proc with sighandlers := fun _ => 0 } }
  pure (.code 0)

/-- `exec` from the check of the ELF header on, with the inode locked. -/
def execElf (inum : Nat) (path : Str) (argv : List Str) : Exec Sys Ret :=
  match (disk.inode inum).readAll 0 EHSIZE with
  | none => bad img phystop false (some inum)
  | some data =>
    let elf := ElfHdr.ofBytes data
    if elf.magic ≠ ELF_MAGIC then bad img phystop false (some inum)
    else do
      if ← onVm (Vm.setupkvm img phystop) then
        match ← onVm (segments img phystop (disk.inode inum) elf.phnum elf.phoff 0) with
        | none => bad img phystop true (some inum)
        | some sz => do
          iunlockput inum
          endOp
          match ← onVm (stack img phystop sz) with
          | none => bad img phystop true none
          | some sz =>
            match ← pushArgs argv sz with
            | none => bad img phystop true none
            | some sp => commit img phystop path elf.entry sz sp
      else bad img phystop false (some inum)

variable (kstack : Nat → Nat → UInt8)

/-- `exec(path, argv)` with at most `fuel` calls of itself, the first at `depth`; `kstack depth` is
    what the kernel stack holds at `buf`. -/
def execve : Nat → Nat → Str → List Str → Exec Sys (Option Ret)
  | 0, _, _, _ => pure none
  | fuel + 1, depth, path, argv => do
    beginOp
    match disk.namei path with
    | none => do
      endOp
      pure (some (.code (-1)))
    | some inum => do
      iget inum
      match (disk.inode inum).readi 0 BUFSIZE with
      | some (c :: d :: rest) =>
        if c = 0x23 ∧ d = 0x21 then
          match interpAt (buffer (c :: d :: rest) (kstack depth)) with
          | none => pure (some .overrun)
          | some (p, q) =>
            if q ≥ BUFSIZE then pure (some .overrun)
            else do
              let interp := slice (buffer (c :: d :: rest) (kstack depth)) p q
              iunlockput inum
              endOp
              execve fuel (depth + 1) interp (nargv interp path argv)
        else do
          let r ← execElf img phystop disk inum path argv
          pure (some r)
      | _ => do
        let r ← bad img phystop false (some inum)
        pure (some r)

end

end Micro86.ExecFile
