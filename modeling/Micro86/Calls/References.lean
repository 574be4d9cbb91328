import Micro86.Calls.Ledger

/-!
# The references of the system calls

Every call that takes a reference to an inode drops it again, hands it to a file or makes it the
working directory, on every path through it, with five exceptions: `sys_chown`, `sys_utime` and
`sys_access` keep the reference to the inode they have found, `sys_unlink` that to the directory
when it refuses, and `sys_getcwd` those to the directories above.

* `inode_refs_balanced` — in every interleaving without those five, the count of an entry of the
  cache is the number of working directories and files on it whenever no call is in progress.
-/

namespace Micro86.Calls

open Prog Function
open Fs (Inode Ptr Dirent)

variable {m : Option Proc} {o : Op} {Q : Unit → Account → Prop} {fd : Int}

/-- The results that come with all references dropped. -/
def Returns : Call → Int → Prop
  | .chown _ _ _, r => r = - ENOENT
  | .utime _, r => r = - ENOENT
  | .access _ _, r => r = - EBADF
  | .unlink _, r => r ≠ - EACCES
  | _, _ => True

section Routines

variable {c : Call} {g : Account} {me : Proc} {n inum fuel off : Nat}
  {ip dp : Ptr} {path name src : List UInt8}
  {type major minor : UInt16} {r : Int} {f : Fid} {d : Fd}

/-- Nothing is owed but references to inodes. -/
def Account.Covered (g : Account) : Prop := g.Sound ∧ g.files = 0 ∧ g.fresh = fun _ => false

/-- The rest of the call leaves nothing owed, or references to inodes at most. -/
def Closes (c : Call) (g : Account) (x : M Int) : Prop :=
  Keeps (ledger c) g x fun r g' => g'.Covered ∧ (Returns c r → g'.Settled)

/-! ## Accounts -/

theorem one_nonneg {α : Type} [DecidableEq α] (x y : α) : 0 ≤ one (some x) y := by
  unfold one
  split <;> decide

@[simp] theorem one_none {α : Type} [DecidableEq α] : one (none : Option α) = 0 := rfl

namespace Account

@[simp] theorem add_zero : g.add 0 = g := by simp [add]

@[simp] theorem add_neg (k : Ptr → Int) : (g.add k).add (- k) = g := by simp [add]

@[simp] theorem add_add_neg (k l : Ptr → Int) : ((g.add k).add l).add (- k) = g.add l := by
  simp [add, add_right_comm g.refs k l]

@[simp] theorem add_me (k : Ptr → Int) : (g.add k).me = g.me := rfl

/-- What a path walk starts with: the process has its entry, and all it has given back it had. -/
def Walks (g : Account) : Prop := (∃ me, g.me = some me) ∧ g.Sound

@[simp] theorem Walks.add (hg : g.Walks) : (g.add (one (some ip))).Walks :=
  ⟨hg.1, fun jp => Int.add_nonneg (hg.2 jp) (one_nonneg ip jp)⟩

def close (g : Account) (f : Fid) : Account := (g.addFiles (- one (some f))).setFresh f false

def start (me : Proc) : Account := zero.setMe (some me)

@[simp] theorem start_me : (start me).me = some me := rfl

@[simp] theorem start_settled : (start me).Settled := ⟨rfl, rfl, rfl⟩

@[simp] theorem start_covered : (start me).Covered := ⟨fun _ => le_refl 0, rfl, rfl⟩

@[simp] theorem settled_mk : Settled ⟨0, 0, fun _ => false, m⟩ := ⟨rfl, rfl, rfl⟩

@[simp] theorem covered_mk : Covered ⟨0, 0, fun _ => false, m⟩ := ⟨fun _ => le_refl 0, rfl, rfl⟩

@[simp] theorem start_walks : (start me).Walks := ⟨⟨me, rfl⟩, fun _ => le_refl 0⟩

@[simp] theorem start_walks_add : ((start me).add (one (some ip))).Walks := start_walks.add

@[simp] theorem covered_add : ((start me).add (one (some ip))).Covered :=
  ⟨(start_walks.add).2, rfl, rfl⟩

end Account

/-! ## Inodes, directories and paths -/

@[simp] theorem ledger_needs : (ledger c).needs g o = o.payable g := rfl

@[simp] theorem ledger_gives {r : Ans o} :
    (ledger c).gives g o r = (NoClimb c o r ∧ o.answers g r) := rfl

@[simp] theorem ledger_after {r : Ans o} : (ledger c).after g o r = g.after o r := rfl

attribute [local simp] Op.payable Op.answers NoClimb Account.after

@[simp] theorem ledger_ilock : Keeps (ledger c) g (ilock ip) Q ↔ Q () g := by
  simp [ilock]

@[simp] theorem ledger_iput :
    Keeps (ledger c) g (iput ip) Q ↔ Q () (g.add (- one (some ip))) := by
  simp [iput, iputUnlinked, iputFree]

@[simp] theorem ledger_iunlockput :
    Keeps (ledger c) g (iunlockput ip) Q ↔ Q () (g.add (- one (some ip))) := by
  simp [iunlockput]

theorem ledger_ialloc {Q : Ptr → Account → Prop} (hQ : ∀ ip, Q ip (g.add (one (some ip)))) :
    Keeps (ledger c) g (ialloc n type) Q := by
  have hfrom : ∀ k inum, Keeps (ledger c) g (iallocFrom type k inum) Q := by
    intro k
    induction k with
    | zero => simp [iallocFrom]
    | succ k ih => simp [iallocFrom, hQ, ih]
  exact hfrom _ _

@[simp] theorem ledger_dirlookup {Q : Option (Ptr × Nat) → Account → Prop} :
    Keeps (ledger c) g (dirlookup dp name) Q ↔
      Q none g ∧
        ((∀ depth, c ≠ .getcwd depth) → ∀ ip off, Q (some (ip, off)) (g.add (one (some ip)))) := by
  simp [dirlookup]
  exact fun _ => ⟨fun h hc ip off => h 0 off hc ip, fun h _ off hc ip => h hc ip off⟩

@[simp] theorem ledger_dirlink {Q : Int → Account → Prop} :
    Keeps (ledger c) g (dirlink dp name inum) Q ↔ Q 0 g ∧
      ((∀ depth, c ≠ .getcwd depth) → Q (-1) g) := by
  simp [dirlink]

theorem ledger_namexLoop {parent : Bool} {Q : Option (Ptr × List UInt8) → Account → Prop}
    (hnone : Q none g) (hsome : ∀ ip name, Q (some (ip, name)) (g.add (one (some ip)))) :
    Keeps (ledger c) (g.add (one (some ip))) (namexLoop parent fuel ip path name) Q := by
  induction fuel generalizing ip path name with
  | zero => simp [namexLoop]
  | succ fuel ih =>
    unfold namexLoop
    split <;> simp [hnone, hsome, ih]

@[simp] theorem ledger_namex {parent : Bool} {Q : Option (Ptr × List UInt8) → Account → Prop}
    (hg : g.Walks) (hnone : Q none g)
    (hsome : ∀ ip name, Q (some (ip, name)) (g.add (one (some ip)))) :
    Keeps (ledger c) g (namex path parent) Q := by
  obtain ⟨⟨me, hme⟩, hsound⟩ := hg
  simp [namex, namexStart, hme, ledger_namexLoop hnone hsome]
  intro _
  split
  · simp
  · rename_i cwd hcwd
    simp [cwdOf, ledger_namexLoop hnone hsome, hme, hcwd, hsound]

@[simp] theorem ledger_create {Q : Option Ptr → Account → Prop} (hg : g.Walks) (hnone : Q none g)
    (hsome : ∀ ip, Q (some ip) (g.add (one (some ip)))) :
    Keeps (ledger c) g (create n path type major minor) Q := by
  refine keeps_bind.mpr (ledger_namex hg ?_ fun dp name => ?_)
  · simp [hnone]
  · simp [createNew, createDots, hnone, hsome]
    exact ledger_ialloc fun ip => by simp [hsome]

/-! ## Files -/

theorem ledger_fileClose (hown : 1 ≤ g.own f) (hQ : Q () (g.close f)) :
    Keeps (ledger c) g (fileClose f) Q := by
  simp only [fileClose, keeps_bind, keeps_perform]
  refine ⟨hown, fun ff _ => ?_⟩
  cases ff with
  | none => exact hQ
  | some ff =>
    dsimp only
    split
    · rename_i ip htype hip
      have hon : ff.on = one (some ip) := by
        funext jp
        simp [File.on, one, htype, hip]
      show Keeps (ledger c) ((g.close f).add ff.on) _ _
      simp [hon, hQ]
    rename_i hne
    have hon : ff.on = 0 := by
      funext jp
      exact if_neg fun h => hne jp h.1 h.2
    show Q () ((g.close f).add ff.on)
    simpa [hon] using hQ

@[simp] theorem ledger_fileRead {Q : Int → Account → Prop} (hQ : ∀ r, Q r g) :
    Keeps (ledger c) g (fileRead f n) Q := by
  simp [fileRead, hQ]
  intro file _
  split <;> simp [hQ]

theorem ledger_writeLoop {k : Int} {Q : Int → Account → Prop} (hQ : ∀ r, Q r g) :
    Keeps (ledger c) g (writeLoop f ip k fuel src) Q := by
  induction fuel generalizing src with
  | zero => simp [writeLoop, hQ]
  | succ fuel ih => simp [writeLoop, writeChunk, wrote, unlockWith, leaveWith, hQ, ih]

@[simp] theorem ledger_fileWrite {Q : Int → Account → Prop} (hQ : ∀ r, Q r g) :
    Keeps (ledger c) g (fileWrite f src) Q := by
  simp [fileWrite, hQ]
  intro file _
  split <;> simp [hQ, ledger_writeLoop]

/-! ## Calls on descriptors -/

theorem ledger_onFd {x : Fd → Fid → M Int} {missing : Int} {Q : Int → Account → Prop}
    (hme : g.me = some me) (hnone : ∀ r, Q r g)
    (h : ∀ d f, me.ofile d = some f → Keeps (ledger c) g (x d f) Q) :
    Keeps (ledger c) g (onFdOr missing fd x) Q := by
  simp [onFdOr, argfd, hme]
  cases hr : (fdOf fd).bind fun d => (me.ofile d).map fun f => (d, f) with
  | none => simp [hnone]
  | some r =>
    obtain ⟨d, _, hd⟩ := Option.bind_eq_some_iff.mp hr
    obtain ⟨f, hf, he⟩ := Option.map_eq_some_iff.mp hd
    cases he
    exact h d f hf

theorem own_pos (hme : g.me = some me) (hd : me.ofile d = some f) (hf : 0 ≤ g.files f) :
    1 ≤ g.own f := by
  have := opened_pos hd
  simp only [Account.own, hme, heldBy]
  omega

theorem own_files (hf : 1 ≤ g.files f) : 1 ≤ g.own f := by
  have := heldBy_nonneg g.me f
  unfold Account.own
  omega

def Proc.setFd (me : Proc) (d : Fd) (v : Option Fid) : Proc :=
  { me with ofile := update me.ofile d v }

theorem closes_onFd {x : Fd → Fid → M Int} {missing : Int}
    (h : ∀ d f, me.ofile d = some f → Closes c (.start me) (x d f)) :
    Closes c (.start me) (onFdOr missing fd x) :=
  ledger_onFd rfl (fun _ => by simp) h

attribute [local simp] Closes Account.addFiles Account.setFresh Account.setMe Account.close

theorem closes_sysClose : Closes c (.start me) (sysClose fd) := by
  refine closes_onFd fun d f hd => ?_
  simp [hd]
  refine ledger_fileClose (own_files ?_) ?_ <;> simp [Account.start, Account.zero]

theorem closes_sysDup : Closes c (.start me) (sysDup fd) := by
  refine closes_onFd fun d f _ => ?_
  simp [Account.start, Account.zero]

theorem closes_sysFcntl {arg : Nat} : Closes c (.start me) (sysFcntl fd arg) := by
  refine closes_onFd fun d f _ => ?_
  simp
  split
  · simp
  rename_i d' hd'
  have hfree := List.find?_some hd'
  simp at hfree
  simp [Account.start, Account.zero, hfree.2]

theorem ledger_closeFd (hQ : Q () (.start (me.setFd d none))) :
    Keeps (ledger c) (.start me) (closeFd d (me.ofile d)) Q := by
  cases hd : me.ofile d with
  | none =>
    have hsame : me.setFd d none = me := by rw [Proc.setFd, ← hd, update_eq_self]
    simpa [closeFd, hsame] using hQ
  | some f =>
    simp only [closeFd, keeps_bind]
    refine ledger_fileClose (own_pos rfl hd (le_refl 0)) ?_
    simpa [Account.start, Account.zero, Proc.setFd, hd] using hQ

theorem closes_sysDup2 {oldfd newfd : Int} : Closes c (.start me) (sysDup2 oldfd newfd) := by
  unfold sysDup2
  split
  · simp
    split
    · simp
    · simp
      exact fun _ => ledger_closeFd (by simp [Account.start, Account.zero, Proc.setFd])
  · simp

/-- The two ends of a pipe that are not in the descriptor table yet. -/
def Account.ends (me : Option Proc) (f0 f1 : Fid) (fresh : Fid → Bool) : Account :=
  ⟨0, one (some f0) + one (some f1), fresh, me⟩

theorem ledger_closeTwo {f0 f1 : Fid} {fresh : Fid → Bool}
    (hfresh : ∀ x, x ≠ f0 → x ≠ f1 → fresh x = false) (hQ : Q () ⟨0, 0, fun _ => false, m⟩) :
    Keeps (ledger c) (.ends m f0 f1 fresh) (fileClose f0 >>= fun _ => fileClose f1) Q := by
  have hnone : update (update fresh f0 false) f1 false = fun _ => false := by
    funext x
    simp only [update_apply]
    grind
  simp only [keeps_bind]
  refine ledger_fileClose (own_files ?_) (ledger_fileClose (own_files ?_) ?_)
  · have := one_nonneg f1 f0
    simp [Account.ends]
    omega
  · simp [Account.ends]
  · simpa [Account.ends, hnone] using hQ

theorem ledger_pipealloc {Q : Option (Fid × Fid) → Account → Prop} (hnone : Q none (.start me))
    (hsome : ∀ f0 f1, Q (some (f0, f1)) (.ends (some me) f0 f1 fun _ => false)) :
    Keeps (ledger c) (.start me) pipealloc Q := by
  simp [pipealloc, Account.start, Account.zero]
  refine ⟨hnone, fun f0 => ⟨ledger_fileClose (own_files (by simp)) ?_, fun f1 hf1 page => ?_⟩⟩
  · simpa [Account.start, Account.zero] using hnone
  · have hne : f1 ≠ f0 := by
      rintro rfl
      simp at hf1
    have hfresh : update (update (update (update (fun _ : Fid => false) f0 true) f1 true) f0
        false) f1 false = fun _ => false := by
      funext x
      simp only [update_apply]
      grind
    refine ⟨fun _ => ?_, fun _ => ⟨by simp [hne.symm], by simp [hne], ?_⟩⟩
    · exact keeps_bind.mp (ledger_closeTwo (fun x h0 h1 => by simp [h0, h1]) hnone)
    · rw [hfresh]
      exact hsome f0 f1

theorem closes_sysPipe : Closes c (.start me) sysPipe := by
  refine keeps_bind.mpr (ledger_pipealloc (by simp) fun f0 f1 => ?_)
  have hclose : ∀ me, Keeps (ledger c) (.ends (some me) f0 f1 fun _ => false)
      (fileClose f0 >>= fun _ => fileClose f1)
      fun _ g' => g'.Covered ∧ (Returns c (- ENOMEM) → g'.Settled) :=
        fun me => ledger_closeTwo (fun _ _ _ => rfl) (by simp)
  simp [Account.ends] at hclose ⊢
  exact ⟨hclose me, fun d => by simpa [add_comm] using hclose _⟩

/-! ## Calls on paths -/

attribute [local simp] leaveWith putWith unlockWith onPath onParent
  nameiparent namei unlinkOne removeEntry linkTo linkBad change

theorem closes_openFile {append readable writable : Bool} :
    Keeps (ledger c) ((Account.start me).add (one (some ip)))
      (openFile ip append readable writable r)
      fun r g' => g'.Covered ∧ (Returns c r → g'.Settled) := by
  simp [openFile, openFull, Account.start, Account.zero, Account.add]
  exact fun f => ledger_fileClose (own_files (by simp)) (by simp)

theorem closes_exec {depth : Nat} :
    Keeps (ledger c) (.start me) (exec depth path) fun r g' =>
      g'.Covered ∧ (Returns c r → g'.Settled) := by
  induction depth generalizing path with
  | zero => simp [exec]
  | succ depth ih => simp [exec, ih]

/-- The reference to the old working directory is given back, that to the new one is kept. -/
theorem closes_changeDir : Keeps (ledger c) ((Account.start me).add (one (some ip))) (changeDir ip)
    fun r g' => g'.Covered ∧ (Returns c r → g'.Settled) := by
  simp [changeDir]
  split
  · simp
  rename_i cwd hcwd
  have hrefs : one (some ip) + - one (some cwd) + (one (some cwd) - one (some ip)) = 0 := by
    funext jp
    show one (some ip) jp + - one (some cwd) jp + (one (some cwd) jp - one (some ip) jp) = 0
    omega
  simp [Account.start, Account.zero, Account.add, cwdOf, hcwd, hrefs]

theorem closes_sysGetcwd {depth : Nat} (hc : c = .getcwd depth) :
    Closes c (.start me) (sysGetcwd depth) := by
  have hloop : ∀ (g : Account) {Q : Ptr → Account → Prop} root k cwd,
      (∀ ip, Q ip g) → Keeps (ledger c) g (getcwdLoop root k cwd) Q := by
    intro g Q root k cwd hQ
    cases k with
    | zero => simp [getcwdLoop]
    | succ k => simp [getcwdLoop, hQ, hc]
  simp [sysGetcwd]
  split <;> simp [hloop]

theorem ledger_closeAll {ds : List Fd}
    (hQ : ∀ me', me'.cwd = me.cwd → (∀ d, me'.ofile d = if d ∈ ds then none else me.ofile d) →
      Q () (.start me')) :
    Keeps (ledger c) (.start me) (closeAll ds) Q := by
  induction ds generalizing me with
  | nil => simpa [closeAll] using hQ me rfl
  | cons d ds ih =>
    simp [closeAll]
    refine ledger_closeFd (ih fun me' hcwd hds => hQ me' hcwd fun x => ?_)
    rw [hds x]
    simp only [Proc.setFd]
    grind

theorem closes_exit : Closes c (.start me) exit := by
  refine keeps_bind.mpr (ledger_closeAll fun me' _ hds => ?_)
  simp
  split
  · simp
  · rename_i cwd hcwd
    simp [hcwd, hds, Account.start, Account.zero, Account.add, cwdOf]

theorem closes_changeFile {v : Inode → Inode} : Closes c (.start me) (changeFile fd v) := by
  refine closes_onFd fun _ f _ => ?_
  simp
  intro file
  split <;> simp

theorem closes_seekFile {offset : Int} {whence : Whence} {long : Bool} :
    Closes c (.start me) (seekFile fd offset whence long) := by
  refine closes_onFd fun _ f _ => ?_
  simp
  intro file _
  split
  · simp
  simp
  intro cur ino
  split <;> simp

theorem closes_readvLoop {ns : List Nat} {total : Int} :
    Closes c (.start me) (readvLoop f ns total) := by
  induction ns generalizing total with
  | nil => simp [readvLoop]
  | cons n ns ih =>
    simp only [Closes] at ih
    simp [readvLoop, ih]

theorem closes_writevLoop {vec : List (List UInt8)} {total : Int} :
    Closes c (.start me) (writevLoop f vec total) := by
  induction vec generalizing total with
  | nil => simp [writevLoop]
  | cons src vec ih =>
    simp only [Closes] at ih
    simp [writevLoop, ih]

theorem ledger_getdentsLoop (hQ : Q () g) : Keeps (ledger c) g (getdentsLoop f ip n) Q := by
  induction n with
  | zero => simpa [getdentsLoop] using hQ
  | succ n ih => simp [getdentsLoop, ih, hQ]

theorem closes_prog (n : Nat) (c : Call) (me : Proc) : Closes c (.start me) (c.prog n) := by
  cases c with
  | fork => simp [Call.prog, sysFork]
  | exit => exact closes_exit
  | read fd n | write fd src => exact closes_onFd fun _ _ _ => by simp
  | «open» path omode mode => simp [Call.prog, sysOpen, openInode, closes_openFile]
  | close fd => exact closes_sysClose
  | creat path mode => simp [Call.prog, sysCreat, closes_openFile]
  | link old new => simp [Call.prog, sysLink]
  | unlink path => simp [Call.prog, sysUnlink, unlinkIn, Returns]
  | exec depth path => simp [Call.prog, sysExec, closes_exec]
  | chdir path => cases path <;> simp [Call.prog, sysChdir, closes_changeDir]
  | mknod args => cases args <;> simp [Call.prog, sysMknod, blockSize]
  | chmod path mode => simp [Call.prog, sysChmod]
  | chown path owner group => simp [Call.prog, sysChown, Returns, EACCES, ENOENT]
  | lseek fd offset whence | llseek fd offset whence => exact closes_seekFile
  | utime path => simp [Call.prog, sysUtime, Returns, ENOENT]
  | access path mode => simp [Call.prog, sysAccess, Returns, EACCES, EBADF]
  | mkdir path => cases path <;> simp [Call.prog, sysMkdir]
  | rmdir path => simp [Call.prog, sysRmdir, rmdirIn]
  | dup fd => exact closes_sysDup
  | pipe => exact closes_sysPipe
  | fcntl fd arg => exact closes_sysFcntl
  | dup2 oldfd newfd => exact closes_sysDup2
  | readlink path n => simp [Call.prog, sysReadlink]
  | fchmod fd mode | fchown fd owner group => exact closes_changeFile
  | getdents fd n =>
    refine closes_onFd fun _ f _ => ?_
    simp
    intro file
    split <;> simp [ledger_getdentsLoop]
  | readv fd ns => exact closes_onFd fun _ _ _ => closes_readvLoop
  | writev fd vec => exact closes_onFd fun _ _ _ => closes_writevLoop
  | getcwd depth => exact closes_sysGetcwd rfl
  | linkat old new => simp [Call.prog, sysLinkat]
  | statx path => simp [Call.prog, sysStatx]
  | other => simp [Call.prog]

end Routines

/-! ## Interleavings -/

/-- The steps without a lost reference: `sys_chown`, `sys_utime` and `sys_access` do not find their
    file, `sys_unlink` is not refused, and `sys_getcwd` does not go up. -/
abbrev NoLeak (n : Nat) : Kernel → Event Pid Call Hint → Kernel → Prop :=
  Pool.Next (Call.prog n) sem ready NoClimb Returns

/-- The kernel when the first process starts: its working directory is the root directory, and there
    are no files. -/
structure Booted (t : Kernel) : Prop where
  quiet : t.Quiet
  first : ∃ me root, t.shared.proc proc0 = some me ∧ me.cwd = some root ∧
    (∀ fd, me.ofile fd = none) ∧ ∀ ip, (t.shared.icache ip).ref = one (some root) ip
  alone : ∀ p, p ≠ proc0 → t.shared.proc p = none
  files : ∀ f, (t.shared.file f).ref = 0 ∧ (t.shared.file f).type = .none

theorem sum_first {f : Pid → Int} (h : ∀ p, p ≠ proc0 → f p = 0) : ∑ p, f p = f proc0 :=
  Finset.sum_eq_single proc0 (fun p _ => h p) fun hp => absurd (Finset.mem_univ _) hp

theorem Booted.balanced {t : Kernel} (ht : Booted t) :
    Balanced 0 t.shared fun _ => Account.zero := by
  obtain ⟨me, root, hme, hcwd, hfd, hrefs⟩ := ht.first
  have hheld : ∀ p f, heldBy (t.shared.proc p) f = 0 := by
    intro p f
    by_cases hp : p = proc0
    · rw [hp, hme]
      exact opened_none hfd
    · rw [ht.alone p hp]
      rfl
  refine ⟨fun ip => ?_, fun f => ?_, fun p f => ?_, fun _ _ => nofun,
    fun _ _ _ => nofun, fun f _ => (ht.files f).2, fun _ _ => nofun⟩
  · have hcwds : t.shared.cwds ip = one (some root) ip := by
      rw [State.cwds, sum_first fun p hp =>
        by rw [ht.alone p hp]; rfl, hme, show cwdOf (some me) = some root from hcwd]
    have hopens : t.shared.opens ip = 0 := Finset.sum_eq_zero fun f _ => if_neg fun h => by
      rw [(ht.files f).2] at h
      cases h.1
    have hzero : ∑ _p : Pid, Account.zero.refs ip = 0 := Finset.sum_eq_zero fun _ _ => rfl
    rw [hrefs ip, hcwds, hopens, hzero, Pi.zero_apply]
    omega
  · have hslots : t.shared.slots f = 0 := Finset.sum_eq_zero fun p _ => hheld p f
    have hzero : ∑ _p : Pid, Account.zero.files f = 0 := Finset.sum_eq_zero fun _ _ => rfl
    rw [(ht.files f).1, hslots, hzero]
    rfl
  · rw [hheld p f]
    exact le_refl 0

theorem Balanced.remember {lost : Ptr → Int} {s : State} {g : Pid → Account}
    {p : Pid} {v : Account} (hI : Balanced lost s g)
    (hrefs : v.refs = (g p).refs) (hfiles : v.files = (g p).files) (hfresh : v.fresh = (g p).fresh)
    (hme : ∀ me, v.me = some me → s.proc p = some me) : Balanced lost s (update g p v) := by
  have htype : ∀ f, (g p).fresh f = false → (s.file f).type = (s.file f).type := fun _ _ => rfl
  refine hI.step (fun ip => ?_) (fun f => ?_) (fun q _ => .inl rfl) ?_ ?_ ?_ hI.free hme
  · rw [hrefs]
    omega
  · rw [hfiles]
    omega
  · rw [hfiles]
    exact hI.own p
  · rw [hfiles, hfresh]
    exact hI.fresh p
  · exact hI.other_fresh htype fun f hf => by rwa [hfresh] at hf

theorem ledger_rules (n : Nat) :
    Pool.Rules (Call.prog n) sem ready ledger Account.zero Account.Settled
      NoClimb Returns (Balanced 0) where
  call p s g c hready hI hz := by
    obtain ⟨me, hme⟩ := Option.isSome_iff_exists.mp hready
    refine ⟨.start me, hI.remember ?_ ?_ ?_ ?_, Keeps.mono (closes_prog n c me) fun _ _ h => h.2⟩
    · rw [hz]
      rfl
    · rw [hz]
      rfl
    · rw [hz]
      rfl
    · intro me' h
      cases h
      exact hme
  go p h s g c o r s' hI hneeds hs hallowed := by
    obtain ⟨hanswers, hI'⟩ := hI.go hneeds hs
    exact ⟨⟨hallowed, hanswers⟩, hI'⟩
  done p s g hI hz := hI.remember hz.1.symm hz.2.1.symm hz.2.2.symm nofun

/-- **Inode reference balance.**  Whenever no call is in progress, the count of an entry of the
    cache is the number of processes whose working directory it is plus the number of files on it.
    While calls are in progress, their processes hold the rest; so `iget` runs out of entries only
    when each of them is held. -/
theorem inode_refs_balanced {n : Nat} {t u : Kernel} {es : List (Event Pid Call Hint)}
    (ht : Booted t) (hr : Run (NoLeak n) t es u) :
    (u.Quiet → ∀ ip, (u.shared.icache ip).ref = u.shared.cwds ip + u.shared.opens ip) ∧
      ∃ held : Pid → Ptr → Int, (∀ p, u.thread p = none → held p = 0) ∧
        (∀ ip, (u.shared.icache ip).ref = u.shared.cwds ip + u.shared.opens ip + ∑ p, held p ip) ∧
        ∀ p h inum msg, sem p h u.shared (.iget inum) = .panic msg →
          ∀ ip, u.shared.cwds ip + u.shared.opens ip + ∑ p, held p ip ≠ 0 := by
  have hacc := Pool.accounted_run (ledger_rules n) hr (Pool.accounted_of_quiet ht.quiet ht.balanced)
  refine ⟨fun hq ip => ?_, ?_⟩
  · have hzero : ∑ _p : Pid, Account.zero.refs ip = 0 := Finset.sum_eq_zero fun _ _ => rfl
    have := (hacc.quiet hq).refs ip
    rw [hzero, Pi.zero_apply] at this
    omega
  · obtain ⟨g, hI, hfits⟩ := hacc
    have hrefs : ∀ ip, (u.shared.icache ip).ref = u.shared.cwds ip + u.shared.opens ip + ∑ p,
        (g p).refs ip := fun ip => by
      rw [hI.refs ip, Pi.zero_apply, zero_add]
    refine ⟨fun p => (g p).refs, fun p hp => ?_, hrefs, fun p h inum msg hs ip => ?_⟩
    · have hz := hfits p
      rw [hp] at hz
      exact congrArg Account.refs hz
    · rw [← hrefs ip]
      exact iget_panics hs ip

/-- The calls that drop all references they take, whatever they return. -/
def Call.drops : Call → Bool
  | .chown _ _ _ => false
  | .utime _ => false
  | .access _ _ => false
  | .unlink _ => false
  | .getcwd _ => false
  | _ => true

theorem noLeak_run {n : Nat} {t u : Kernel} {es : List (Event Pid Call Hint)} (ht : t.Quiet)
    (hes : ∀ p c, .call p c ∈ es → c.drops = true) (hr : Run (Outcome.rel (kernelStep n)) t es u) :
    Run (NoLeak n) t es u := by
  refine Pool.run_of_calls (fun c => c.drops = true) (fun c o r hc => ?_)
    (fun c r hc => ?_) (fun p c x hx => ?_) hes hr
  · cases o with
    | dirFind =>
      rintro ⟨depth, rfl⟩
      cases hc
    | _ => trivial
  · cases c with
    | chown | utime | access | unlink => cases hc
    | _ => trivial
  · rw [ht p] at hx
    cases hx

/-- The small volume with the first process only. -/
def firstVolume : State :=
  { smallVolume 0 0 0 with
    icache ip := if ip = slot0 then ⟨1, 1, none, false, Inode.zero⟩
      else ⟨0, 0, none, false, Inode.zero⟩
    proc p := if p = proc0 then some ⟨0, 0, 0, 0, fun _ => none, some slot0⟩ else none }

theorem booted_firstVolume : Booted (idle firstVolume) where
  quiet _ := rfl
  first := by
    refine ⟨_, slot0, rfl, rfl, fun _ => rfl, fun ip => ?_⟩
    show (if ip = slot0 then _ else _ : Slot).ref = if some slot0 = some ip then 1 else 0
    by_cases h : ip = slot0
    · rw [if_pos h, if_pos (congrArg some h.symm)]
    · rw [if_neg h, if_neg fun hs => h (Option.some.inj hs).symm]
  alone p hp := if_neg hp
  files f := ⟨rfl, rfl⟩

/-- `open` hands the reference to the file. -/
theorem inode_refs_balanced_open :
    ∃ u ip, Run (NoLeak 3) (idle firstVolume) (whole proc0 (.open NAME 0 0) 24) u ∧
      u.shared.opens ip = 1 ∧ (u.shared.icache ip).ref = u.shared.cwds ip + u.shared.opens ip := by
  obtain ⟨u, hr, hquiet, hopens⟩ :=
    Outcome.exists_run (kernelStep 3) (idle firstVolume) (whole proc0 (.open NAME 0 0) 24)
    (fun u => (∀ p, (u.thread p).isNone = true) ∧ ∃ ip, u.shared.opens ip = 1) (by decide +kernel)
  obtain ⟨ip, hopens⟩ := hopens
  have hr : Run (NoLeak 3) (idle firstVolume) (whole proc0 (.open NAME 0 0) 24) u :=
    noLeak_run (fun _ => rfl) (fun p c hc => by simp [whole, gos] at hc; rw [hc.2]; rfl) hr
  exact ⟨u, ip, hr, hopens, (inode_refs_balanced booted_firstVolume hr).1
    (fun p => Option.isNone_iff_eq_none.mp (hquiet p)) ip⟩

/-- After `utime` the entry of the file has a count and nobody holds it. -/
theorem utime_keeps_reference : Booted (idle firstVolume) ∧
    ∃ u, Run (Outcome.rel (kernelStep 3)) (idle firstVolume)
      (whole proc0 (.utime NAME) 22) u ∧ u.Quiet ∧
      ∃ ip, (u.shared.icache ip).ref = 1 ∧ u.shared.cwds ip + u.shared.opens ip = 0 := by
  refine ⟨booted_firstVolume, ?_⟩
  obtain ⟨u, hr, hquiet, hip⟩ :=
    Outcome.exists_run (kernelStep 3) (idle firstVolume) (whole proc0 (.utime NAME) 22)
    (fun u => (∀ p, (u.thread p).isNone = true) ∧ ∃ ip, (u.shared.icache ip).ref = 1 ∧
      u.shared.cwds ip + u.shared.opens ip = 0)
    (by decide +kernel)
  exact ⟨u, hr, fun p => Option.isNone_iff_eq_none.mp (hquiet p), hip⟩

end Micro86.Calls
