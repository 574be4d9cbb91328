import Micro86.Calls.Steps

/-!
# `log_write` and transactions

Every routine that calls `log_write` must run between `begin_op` and `end_op` of its own process.
The account of a process is the number of its open operations.

* `operations_iput`, `operations_namex`, … — what the routines need of the account.
* `log_writes_covered` — in every interleaving, unless `sys_statx` or `sys_getcwd`, which open no
  operation, drops the last reference to an inode without links.
* `statx_frees_outside` — `sys_statx` does, when another process unlinks the file meanwhile.
-/

namespace Micro86.Calls

open Prog Function
open Fs (Inode Ptr Dirent)

/-- The calls that drop references without an operation of their own. -/
def Call.bare : Call → Bool
  | .statx _ => true
  | .getcwd _ => true
  | _ => false

/-- The only reference to an inode without links is not dropped by a call that has no operation
    open. -/
@[simp] def KeepsLast (c : Call) : (o : Op) → Ans o → Prop
  | .refCount _, r => c.bare = true → r ≠ 1
  | _, _ => True

@[simp] def OUTSIDE : String := "log_write outside of trans"

@[simp] def Op.within (d : Int) : Op → Prop
  | .iupdate _ => 0 < d
  | .itrunc _ => 0 < d
  | .writei _ _ _ => 0 < d
  | .ialloc _ _ => 0 < d
  | .endOp => 0 < d
  | .panic msg => msg ≠ OUTSIDE
  | _ => True

def operations (c : Call) : Discipline Op Ans Int where
  needs d o := o.within d
  gives _ o r := KeepsLast c o r
  after d o _ :=
    match o with
    | .beginOp => d + 1
    | .endOp => d - 1
    | _ => d

section Routines

variable {c : Call} {d : Int} {n inum fuel off : Nat} {ip dp : Ptr} {path name src : List UInt8}
  {type major minor : UInt16} {r : Int} {f : Fid} {fd : Fd}
variable {o : Op} {Q : Unit → Int → Prop}

@[simp] theorem operations_needs : (operations c).needs d o = o.within d := rfl

@[simp] theorem operations_gives {r : Ans o} : (operations c).gives d o r = KeepsLast c o r := rfl

@[simp] theorem operations_after {r : Ans o} :
    (operations c).after d o r = match o with | .beginOp => d + 1 | .endOp => d - 1 | _ => d := rfl

/-! ## Inodes, directories and paths -/

@[simp] theorem operations_ilock : Keeps (operations c) d (ilock ip) Q ↔ Q () d := by
  simp [ilock]

@[simp] theorem operations_iput :
    Keeps (operations c) d (iput ip) Q ↔ (c.bare = true ∨ 0 < d) ∧ Q () d := by
  simp [iput, iputUnlinked, iputFree]
  constructor
  · intro h
    have := h.2 1
    grind
  · grind

@[simp] theorem operations_iunlockput :
    Keeps (operations c) d (iunlockput ip) Q ↔ (c.bare = true ∨ 0 < d) ∧ Q () d := by
  simp [iunlockput]

@[simp] theorem operations_ialloc {Q : Ptr → Int → Prop} (hd : 0 < d) (hQ : ∀ ip, Q ip d) :
    Keeps (operations c) d (ialloc n type) Q := by
  have hfrom : ∀ k inum, Keeps (operations c) d (iallocFrom type k inum) Q := by
    intro k
    induction k with
    | zero => simp [iallocFrom]
    | succ k ih => simp [iallocFrom, hd, hQ, ih]
  exact hfrom _ _

@[simp] theorem operations_dirlookup {Q : Option (Ptr × Nat) → Int → Prop} :
    Keeps (operations c) d (dirlookup dp name) Q ↔ ∀ r, Q r d := by
  simp only [dirlookup]
  simp
  exact fun _ => ⟨fun h ip off => h 0 off ip, fun h _ off ip => h ip off⟩

@[simp] theorem operations_dirlink {Q : Int → Int → Prop} :
    Keeps (operations c) d (dirlink dp name inum) Q ↔ 0 < d ∧ Q (-1) d ∧ Q 0 d := by
  simp [dirlink]
  grind

theorem operations_namexLoop {parent : Bool} {Q : Option (Ptr × List UInt8) → Int → Prop}
    (h : c.bare = true ∨ 0 < d)
    (hQ : ∀ r, Q r d) : Keeps (operations c) d (namexLoop parent fuel ip path name) Q := by
  induction fuel generalizing ip path name with
  | zero => simp [namexLoop]
  | succ fuel ih =>
    unfold namexLoop
    split <;> simp [h, hQ, ih]

@[simp] theorem operations_namex {parent : Bool} {Q : Option (Ptr × List UInt8) → Int → Prop}
    (h : c.bare = true ∨ 0 < d)
    (hQ : ∀ r, Q r d) : Keeps (operations c) d (namex path parent) Q := by
  simp [namex, namexStart, operations_namexLoop h hQ]
  intro _ p
  split <;> simp [operations_namexLoop h hQ]

@[simp] theorem operations_create {Q : Option Ptr → Int → Prop} (hd : 0 < d) (hQ : ∀ r, Q r d) :
    Keeps (operations c) d (create n path type major minor) Q := by
  simp [create, nameiparent, createNew, createDots, hd, hQ]

/-! ## Files -/

@[simp] theorem operations_fileClose (hd : 0 ≤ d) (hQ : Q () d) :
    Keeps (operations c) d (fileClose f) Q := by
  have hpos : 0 < d + 1 := Int.lt_add_one_of_le hd
  simp [fileClose, hQ]
  intro ff
  split <;> simp [hQ, hpos]

@[simp] theorem operations_fileRead {Q : Int → Int → Prop} (hQ : ∀ r, Q r d) :
    Keeps (operations c) d (fileRead f n) Q := by
  simp [fileRead, hQ]
  intro file _
  split <;> simp [hQ]

theorem operations_writeLoop {k : Int} {Q : Int → Int → Prop} (hQ : ∀ r, Q r 0) :
    Keeps (operations c) 0 (writeLoop f ip k fuel src) Q := by
  induction fuel generalizing src with
  | zero => simp [writeLoop, hQ]
  | succ fuel ih => simp [writeLoop, writeChunk, wrote, unlockWith, leaveWith, hQ, ih]

@[simp] theorem operations_fileWrite {Q : Int → Int → Prop} (hQ : ∀ r, Q r 0) :
    Keeps (operations c) 0 (fileWrite f src) Q := by
  simp [fileWrite, hQ]
  intro file _
  split <;> simp [hQ, operations_writeLoop]

@[simp] theorem operations_onFd {x : Fd → Fid → M Int} {missing fd : Int}
    {Q : Int → Int → Prop} (hnone : ∀ r, Q r d)
    (hx : ∀ e f, Keeps (operations c) d (x e f) Q) :
    Keeps (operations c) d (onFdOr missing fd x) Q := by
  simp [onFdOr, argfd]
  intro p
  split <;> simp [hnone, hx]

@[simp] theorem operations_closeFd {f : Option Fid} (hd : 0 ≤ d) (hQ : Q () d) :
    Keeps (operations c) d (closeFd fd f) Q := by
  unfold closeFd
  split <;> simp [hd, hQ]

end Routines

section Calls

variable {c : Call} {n : Nat} {ip dp : Ptr} {path name : List UInt8} {r : Int} {f : Fid}

/-- The rest of a call closes its operations. -/
def Ends (c : Call) (d : Int) (x : M Int) : Prop := Keeps (operations c) d x fun _ d' => d' = 0

attribute [local simp] Ends leaveWith putWith unlockWith onPath
  onParent nameiparent namei unlinkOne removeEntry linkTo linkBad change openFile openFull

theorem ends_readvLoop {ns : List Nat} {total : Int} : Ends c 0 (readvLoop f ns total) := by
  induction ns generalizing total with
  | nil => simp [readvLoop]
  | cons n ns ih =>
    simp only [Ends] at ih
    simp [readvLoop, ih]

theorem ends_writevLoop {vec : List (List UInt8)} {total : Int} :
    Ends c 0 (writevLoop f vec total) := by
  induction vec generalizing total with
  | nil => simp [writevLoop]
  | cons src vec ih =>
    simp only [Ends] at ih
    simp [writevLoop, ih]

theorem operations_exec {depth : Nat} :
    Keeps (operations c) 0 (exec depth path) fun _ d => d = 0 := by
  induction depth generalizing path with
  | zero => simp [exec]
  | succ depth ih => simp [exec, ih]

theorem operations_changeDir : Keeps (operations c) 1 (changeDir ip) fun _ d => d = 0 := by
  simp [changeDir]
  intro p
  split <;> simp

theorem ends_changeFile {fd : Int} {v : Inode → Inode} : Ends c 0 (changeFile fd v) := by
  refine operations_onFd (fun _ => rfl) fun _ f => ?_
  simp
  intro file
  split <;> simp

theorem ends_seekFile {fd offset : Int} {whence : Whence} {long : Bool} :
    Ends c 0 (seekFile fd offset whence long) := by
  refine operations_onFd (fun _ => rfl) fun _ f => ?_
  simp
  intro file _
  split
  · simp
  simp
  intro cur ino
  split <;> simp

theorem ends_sysDup2 {oldfd newfd : Int} : Ends c 0 (sysDup2 oldfd newfd) := by
  unfold sysDup2
  split
  · simp
    intro p
    split <;> simp
  · simp

theorem ends_closeAll {ds : List Fd} {Q : Unit → Int → Prop} (hQ : Q () 0) :
    Keeps (operations c) 0 (closeAll ds) Q := by
  induction ds with
  | nil => simpa [closeAll] using hQ
  | cons d ds ih => simp [closeAll, ih]

theorem ends_getdentsLoop {Q : Unit → Int → Prop} (hQ : Q () 0) :
    Keeps (operations c) 0 (getdentsLoop f ip n) Q := by
  induction n with
  | zero => simpa [getdentsLoop] using hQ
  | succ n ih => simp [getdentsLoop, ih, hQ]

theorem ends_getcwdLoop {root cwd : Ptr} {depth : Nat} {Q : Ptr → Int → Prop} (hQ : ∀ ip, Q ip 0) :
    Keeps (operations c) 0 (getcwdLoop root depth cwd) Q := by
  induction depth generalizing cwd with
  | zero => simp [getcwdLoop]
  | succ depth ih => simp [getcwdLoop, ih, hQ]

/-- **Every call** closes the operations it opens and writes the log inside them. -/
theorem ends_prog (n : Nat) (c : Call) : Ends c 0 (c.prog n) := by
  cases c with
  | fork => simp [Call.prog, sysFork]
  | exit =>
    refine Keeps.bind (ends_closeAll (Q := fun _ d => d = 0) rfl) ?_
    simp
    intro p
    split <;> simp
  | read fd n => simp [Call.prog, sysRead]
  | write fd src => simp [Call.prog, sysWrite]
  | «open» path omode mode => simp [Call.prog, sysOpen, openInode]
  | close fd => simp [Call.prog, sysClose]
  | creat path mode => simp [Call.prog, sysCreat]
  | link old new => simp [Call.prog, sysLink]
  | unlink path => simp [Call.prog, sysUnlink, unlinkIn]
  | exec depth path => simp [Call.prog, sysExec, operations_exec]
  | chdir path => cases path <;> simp [Call.prog, sysChdir, operations_changeDir]
  | mknod args => cases args <;> simp [Call.prog, sysMknod, blockSize]
  | chmod path mode => simp [Call.prog, sysChmod]
  | chown path owner group => simp [Call.prog, sysChown]
  | lseek fd offset whence | llseek fd offset whence => exact ends_seekFile
  | utime path => simp [Call.prog, sysUtime]
  | access path mode => simp [Call.prog, sysAccess]
  | mkdir path => cases path <;> simp [Call.prog, sysMkdir]
  | rmdir path => simp [Call.prog, sysRmdir, rmdirIn]
  | dup fd => simp [Call.prog, sysDup]
  | pipe => simp [Call.prog, sysPipe, pipealloc]
  | fcntl fd arg =>
    refine operations_onFd (fun _ => rfl) fun _ f => ?_
    simp
    intro p
    split <;> simp
  | dup2 oldfd newfd => exact ends_sysDup2
  | readlink path n => simp [Call.prog, sysReadlink]
  | fchmod fd mode | fchown fd owner group => exact ends_changeFile
  | getdents fd n =>
    refine operations_onFd (fun _ => rfl) fun _ f => ?_
    simp
    intro file
    split <;> simp [ends_getdentsLoop]
  | readv fd ns => exact operations_onFd (fun _ => rfl) fun _ _ => ends_readvLoop
  | writev fd vec => exact operations_onFd (fun _ => rfl) fun _ _ => ends_writevLoop
  | getcwd depth =>
    simp [Call.prog, sysGetcwd]
    intro p
    split <;> simp [ends_getcwdLoop, Call.bare]
  | linkat old new => simp [Call.prog, sysLinkat]
  | statx path => simp [Call.prog, sysStatx, Call.bare]
  | other => simp [Call.prog]

end Calls

/-! ## The log -/

section Log

variable {p : Pid} {h : Hint} {s s' : State}

def SameLog (s s' : State) : Prop := s'.trans = s.trans ∧ s'.outstanding = s.outstanding

theorem sameLog_of_ne {o : Op} {r : Ans o} (hs : sem p h s o = .next (r, s'))
    (hbegin : o ≠ .beginOp) (hend : o ≠ .endOp) : SameLog s s' := by
  revert hs
  cases o
  case beginOp => exact absurd rfl hbegin
  case endOp => exact absurd rfl hend
  all_goals
    simp only [sem, State.iget, State.load, State.ialloc, State.logging,
      State.writei, State.write, State.dirFind, State.dirFree,
      State.isdirempty, State.fileAlloc, State.fileDrop, State.byProc, State.fdalloc, State.fork]
    repeat' split
  all_goals
    rintro ⟨⟩
  all_goals
    exact ⟨rfl, rfl⟩

/-- The log counts the open operations of all processes. -/
structure Counted (s : State) (g : Pid → Int) : Prop where
  own : ∀ p, s.trans p = g p
  nonneg : ∀ p, 0 ≤ g p
  total : s.outstanding = ∑ p, g p

namespace Counted

variable {g : Pid → Int}

variable (hI : Counted s g)
include hI

theorem congr (hs : SameLog s s') : Counted s' (update g p (g p)) := by
  rw [update_eq_self]
  exact ⟨fun q => by rw [hs.1, hI.own q], hI.nonneg, by rw [hs.2, hI.total]⟩

theorem move (k : Int) (hk : 0 ≤ g p + k) :
    Counted { s with outstanding := s.outstanding + k, trans := update s.trans p (s.trans p + k) }
      (update g p (g p + k)) := by
  refine ⟨fun q => ?_, fun q => ?_, ?_⟩
  · by_cases hq : q = p
    · subst hq
      dsimp only
      rw [update_self, update_self, hI.own q]
    · dsimp only
      rw [update_of_ne hq, update_of_ne hq, hI.own q]
  · exact update_cases q hk fun _ => hI.nonneg q
  · have hsum := sum_update (Finset.mem_univ p) g (g p + k) id
    simp only [id] at hsum
    have htotal := hI.total
    dsimp only
    omega

theorem outstanding_pos (hp : 0 < g p) : 1 ≤ s.outstanding := by
  have hle : g p ≤ ∑ q, g q := Finset.single_le_sum (fun q _ => hI.nonneg q) (Finset.mem_univ p)
  rw [hI.total]
  omega

end Counted

theorem operations_rules (n : Nat) :
    Pool.Rules (Call.prog n) sem ready operations 0 (· = 0) KeepsLast
      (fun _ _ => True) Counted where
  call p s g c _ hI hz :=
    ⟨0, by rwa [← hz, update_eq_self], Keeps.mono (ends_prog n c) fun _ _ hd _ => hd⟩
  go p h s g c o r s' hI hneeds hs hallowed := by
    refine ⟨hallowed, ?_⟩
    cases o with
    | panic msg => cases hs
    | beginOp =>
      cases hs
      exact hI.move 1 (by have := hI.nonneg p; omega)
    | endOp =>
      cases hs
      exact hI.move (-1) (by have : 0 < g p := hneeds; omega)
    | _ => exact hI.congr (sameLog_of_ne hs nofun nofun)
  done p s g hI hz := by
    rw [← hz, update_eq_self]
    exact hI

/-- An action that stops with the message of `log_write` writes the log, or is that panic. -/
theorem sem_outside {o : Op} (hmsg : ∀ msg, o = .panic msg → msg ≠ OUTSIDE) :
    sem p h s o = .panic OUTSIDE → o.logs = true ∧ s.outstanding < 1 := by
  cases o
  case panic msg => exact fun hs => absurd (Outcome.panic.inj hs) (hmsg msg rfl)
  all_goals
    simp only [sem, State.iget, State.load, State.ialloc, State.logging,
      State.writei, State.dirFind, State.dirFree,
      State.isdirempty, State.fileDrop, State.byProc, State.fork, Op.logs]
    repeat' split
  -- the test of `log_write`, other messages, and actions that go on
  all_goals
    intro hs
    first
    | exact ⟨trivial, ‹_›⟩
    | exact absurd (Outcome.panic.inj hs) (by decide)
    | cases hs

end Log

/-! ## Interleavings -/

abbrev NoBareFree (n : Nat) : Kernel → Event Pid Call Hint → Kernel → Prop :=
  Pool.Next (Call.prog n) sem ready KeepsLast fun _ _ => True

/-- Every process is outside calls, and no operation is open. -/
def Resting (t : Kernel) : Prop := t.Quiet ∧ t.shared.outstanding = 0 ∧ ∀ p, t.shared.trans p = 0

theorem logs_within {o : Op} {d : Int} (ho : o.logs = true) (hw : o.within d) : 0 < d := by
  cases o with
  | iupdate | itrunc | writei | ialloc => exact hw
  | _ => cases ho

theorem panic_within {msg : String} {o : Op} {d : Int} (ho : o = .panic msg) (hw : o.within d) :
    msg ≠ OUTSIDE := by
  subst ho
  exact hw

/-- **Disk updates happen inside transactions**: whoever is about to call `log_write` has an
    operation of its own open, and no step stops with "log_write outside of trans". -/
theorem log_writes_covered {n : Nat} {t u : Kernel} {es : List (Event Pid Call Hint)}
    (ht : Resting t) (hr : Run (NoBareFree n) t es u) :
    (∀ p c o k, u.thread p = some (c, .act o k) → o.logs = true → 0 < u.shared.trans p) ∧
      ∀ e, kernelStep n u e ≠ .panic "log_write outside of trans" := by
  obtain ⟨hquiet, hout, htrans⟩ := ht
  have hstart : Counted t.shared fun _ => 0 :=
    ⟨htrans, fun _ => le_refl 0, by rw [hout, Finset.sum_const_zero]⟩
  obtain ⟨g, hI, hneeds⟩ :=
    (Pool.accounted_run (operations_rules n) hr (Pool.accounted_of_quiet hquiet hstart)).needs
  refine ⟨fun p c o k hp ho => ?_, fun e he => ?_⟩
  · rw [hI.own p]
    exact logs_within ho (hneeds p c o k hp)
  · cases e with
    | call p c =>
      simp only [Pool.step] at he
      split at he
      · split at he <;> cases he
      · cases he
    | done p =>
      simp only [Pool.step] at he
      split at he <;> cases he
    | go p h =>
      simp only [Pool.step] at he
      split at he
      · rename_i c o k hp
        split at he
        · cases he
        · cases he
        rename_i msg hs
        cases he
        have hw := hneeds p c o k hp
        obtain ⟨ho, hlt⟩ := sem_outside (fun msg hm => panic_within hm hw) hs
        have := hI.outstanding_pos (logs_within ho hw)
        omega
      · cases he

theorem noBareFree_run {n : Nat} {t u : Kernel} {es : List (Event Pid Call Hint)}
    (ht : ∀ p c x, t.thread p = some (c, x) → c.bare = false)
    (hes : ∀ p c, .call p c ∈ es → c.bare = false)
    (hr : Run (Outcome.rel (kernelStep n)) t es u) : Run (NoBareFree n) t es u := by
  refine Pool.run_of_calls (fun c => c.bare = false) (fun c o r hc => ?_)
    (fun _ _ _ => trivial) ht hes hr
  cases o with
  | refCount ip => exact fun hb => absurd hb (by rw [hc]; decide)
  | _ => trivial

/-- `unlink` frees the file inside its operation. -/
theorem log_writes_covered_unlink :
    ∃ u, Run (NoBareFree 3) (idle (smallVolume 0 0 0)) (whole proc0 (.unlink NAME) 38) u ∧
    ∀ e, kernelStep 3 u e ≠ .panic "log_write outside of trans" := by
  have hrest : Resting (idle (smallVolume 0 0 0)) := ⟨fun _ => rfl, rfl, fun _ => rfl⟩
  obtain ⟨u, hr, _⟩ :=
    Outcome.exists_run (kernelStep 3) (idle (smallVolume 0 0 0)) (whole proc0 (.unlink NAME) 38)
    (fun _ => True) (by decide +kernel)
  have hr : Run (NoBareFree 3) (idle (smallVolume 0 0 0)) (whole proc0 (.unlink NAME) 38) u :=
    noBareFree_run (fun _ _ _ h => by cases h)
      (fun p c hc => by simp [whole, gos] at hc; rw [hc.2]; rfl) hr
  exact ⟨u, hr, (log_writes_covered hrest hr).2⟩

def LogsOutside (t : Kernel) (p : Pid) : Prop :=
  match t.thread p with
  | some (_, .act o _) => o.logs = true ∧ t.shared.trans p = 0
  | _ => False

instance {t : Kernel} {p : Pid} : Decidable (LogsOutside t p) := by
  unfold LogsOutside
  split <;> infer_instance

/-- While `sys_statx` of one process has found the file, another unlinks it; then `sys_statx` drops
    the last reference to it. -/
def unlinkMeanwhile : List (Event Pid Call Hint) :=
  .call proc0 (.statx NAME) :: gos proc0 13 ++ whole proc1 (.unlink NAME) 34 ++ gos proc0 8

theorem statx_frees_outside : Resting (idle (smallVolume 0 0 0)) ∧
    ∃ u, Run (Outcome.rel (kernelStep 3)) (idle (smallVolume 0 0 0)) unlinkMeanwhile u ∧
      LogsOutside u proc0 ∧
      (kernelStep 3 u (.go proc0 noHint)).Panics "log_write outside of trans" := by
  refine ⟨⟨fun _ => rfl, rfl, fun _ => rfl⟩, ?_⟩
  exact Outcome.exists_run _ _ _ _ (by decide +kernel)

end Micro86.Calls
