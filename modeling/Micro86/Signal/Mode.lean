import Micro86.Lib.Transition
import Micro86.Signal.Deliver

/-!
# Staying in user mode

A process runs in user mode, traps, and the kernel returns to it through its trap frame.  The steps
below are those of one process between its creation by `fork` and its exit; what the rest of the
system does to memory is part of each step.

* `user_mode_kept` — the frames stay in user mode in every run in which no call stores outside user
  memory, no signal is delivered to a stack without page tables, and every frame that
  `sys_rt_sigreturn` restores is in user mode.
* `sigreturn_to_kernel` — a process that edits its saved frame returns to the kernel's code segment.
-/

namespace Micro86.Signal

open Exec Mm

def errno (n : UInt32) : UInt32 := 0 - n

def EPERM : UInt32 := 1
def EINTR : UInt32 := 4
def EINVAL : UInt32 := 22

def catchable : List Nat := [1, 2, 3, 4, 5, 6, 8, 10, 11, 12, 13, 14, 17]

section

variable (ram : Ram) (kstack : Nat)

/-- A system call with what it found in the registers and in user memory. -/
inductive Call where
  | signal (signum : Nat) (handler restorer : UInt32)
  | rtSigaction (signum : Nat) (handler restorer : UInt32)
  | rtSigprocmask (how : Nat) (set : UInt32)
  | rtSigsuspend (mask : UInt32)
  | rtSigreturn
  | iopl (level : Int32)
  /-- An `exec` that succeeds. -/
  | exec (space : Space ram kstack) (entry sp : UInt32)
  /-- Any other call: it may change the address space and the user ids. -/
  | other (ret : UInt32) (space : Space ram kstack) (euid : UInt16)

inductive Act where
  /-- The process runs in user mode until a trap pushes the frame `tf`. -/
  | user (tf : Frame) (mem : Nat → UInt8)
  /-- An interrupt. -/
  | interrupt (mem : Nat → UInt8)
  /-- An exception in user mode. -/
  | fault
  /-- Pending signals change (`kill`, timers). -/
  | post (pending : UInt32)
  /-- A system call, with what memory becomes meanwhile.  A call that is `stray` stores outside user
      memory. -/
  | call (c : Call ram kstack) (mem : Nat → UInt8) (stray : Bool)

end

variable {ram : Ram} {kstack : Nat}
variable {p s t : Task ram kstack}

/-- Memory becomes `mem`; only a stray store changes the kernel stack of the process. -/
def Task.havoc (mem : Nat → UInt8) (stray : Bool) (p : Task ram kstack) : Task ram kstack :=
  { p with m := { p.m with
    mem := fun x => if stray = false ∧ x / PGSIZE = kstack then p.m.mem x else mem x } }

def sysSignal (signum : Nat) (handler restorer : UInt32) : Exec (Task ram kstack) UInt32 := do
  let p ← Exec.get
  if signum ∈ catchable then do
    Exec.modify fun p => { p with
      sighandlers := Function.update p.sighandlers signum handler
      sigrestorers := Function.update p.sigrestorers signum restorer }
    pure (p.sighandlers signum)
  else pure (errno 1)

def sysRtSigaction (signum : Nat) (handler restorer : UInt32) : Exec (Task ram kstack) UInt32 :=
  if signum < 1 ∨ signum ≥ NSIG ∨ signum = SIGKILL ∨ signum = SIGSTOP then pure (errno EPERM)
  else if restorer = 0 ∨ restorer = errno 1 then pure (errno EINVAL)
  else do
    Exec.modify fun p => { p with
      sighandlers := Function.update p.sighandlers signum handler
      sigrestorers := Function.update p.sigrestorers signum restorer }
    pure 0

def sysRtSigprocmask (how : Nat) (set : UInt32) : Exec (Task ram kstack) UInt32 :=
  let newmask := set &&& ~~~ (bit SIGKILL ||| bit SIGSTOP)
  if how = 0 then do
    Exec.modify fun p => { p with sigmask := p.sigmask ||| newmask }
    pure 0
  else if how = 1 then do
    Exec.modify fun p => { p with sigmask := p.sigmask &&& ~~~ newmask }
    pure 0
  else if how = 2 then do
    Exec.modify fun p => { p with sigmask := newmask }
    pure 0
  else pure (errno EPERM)

def sysRtSigsuspend (mask : UInt32) : Exec (Task ram kstack) UInt32 := do
  let old ← Exec.get
  Exec.modify fun p => { p with sigmask := mask }
  dosignal
  Exec.modify fun p => { p with sigmask := old.sigmask }
  pure (errno EINTR)

def sysIopl (level : Int32) : Exec (Task ram kstack) UInt32 := do
  let p ← Exec.get
  if p.euid ≠ 0 then pure (errno EPERM)
  else if level < 0 ∨ level > 3 then pure (errno EINVAL)
  else do
    Exec.modify fun p => p.setReg Offset.eflags
      ((p.reg Offset.eflags &&& ~~~ (0x3000 : UInt32)) ||| ((level.toUInt32 &&& 3) <<< 12))
    pure 0

def sysExec (space : Space ram kstack) (entry sp : UInt32) : Exec (Task ram kstack) UInt32 := do
  Exec.modify fun p =>
    Task.setReg Offset.esp sp (Task.setReg Offset.eip entry { p with space := space })
  Exec.modify fun p => { p with sighandlers := fun _ => SIG_DFL }
  pure 0

def Call.run : Call ram kstack → Exec (Task ram kstack) UInt32
  | .signal signum handler restorer => sysSignal signum handler restorer
  | .rtSigaction signum handler restorer => sysRtSigaction signum handler restorer
  | .rtSigprocmask how set => sysRtSigprocmask how set
  | .rtSigsuspend mask => sysRtSigsuspend mask
  | .rtSigreturn => sysRtSigreturn
  | .iopl level => sysIopl level
  | .exec space entry sp => sysExec space entry sp
  | .other ret space euid => do
    Exec.modify fun p => { p with space := space, euid := euid }
    pure ret

def syscall (c : Call ram kstack) : Exec (Task ram kstack) (Option Unit) := do
  let ret ← c.run
  Exec.modify fun p => p.setReg Offset.eax ret
  let p ← Exec.get
  if p.killed then pure none
  else do
    dosignal
    pure (some ())

/-- The default case of `trap`. -/
def fault : Exec (Task ram kstack) (Option Unit) := do
  let p ← Exec.get
  if p.reg Offset.eip = errno 1 then pure none
  else do
    Exec.modify fun p => { p with sigpending := p.sigpending ||| bit SIGSEGV }
    dosignal
    let p ← Exec.get
    if p.killed then pure none else pure (some ())

/-- A trap ends with the process back in user mode, with its exit, or with a panic. -/
def ofTrap (x : Exec (Task ram kstack) (Option Unit))
    (p : Task ram kstack) : Outcome (Task ram kstack) :=
  match x p with
  | .ok (some _, t) => .next t
  | .ok (none, _) => .blocked
  | .error msg => .panic msg

/-- One step of the process.  In user mode the processor changes neither the privilege level nor,
    with I/O privilege 0, the flags that `UserMode` is about. -/
def step (p : Task ram kstack) : Act ram kstack → Outcome (Task ram kstack)
  | .user tf mem => if UserMode p.tf →
        UserMode tf then .next ((p.havoc mem false).setTf tf) else .blocked
  | .interrupt mem => if p.killed then .blocked else .next (p.havoc mem false)
  | .fault => ofTrap fault p
  | .post pending => .next { p with sigpending := pending }
  | .call c mem stray => if p.killed then .blocked else ofTrap (syscall c) (p.havoc mem stray)

/-- The child `fork` makes of `parent`, with its own kernel stack and address space. -/
def forkChild {parentStack : Nat} (parent : Task ram parentStack)
    (space : Space ram kstack) (mem : Nat → UInt8) : Task ram kstack :=
  let np : Task ram kstack :=
    { m := ⟨mem, [], []⟩, space := space, euid := parent.euid
      sighandlers := parent.sighandlers, sigrestorers := parent.sigrestorers
      sigmask := 0, sigpending := 0, savedTrapframeSp := 0, killed := false, termsig := 0 }
  Task.setReg Offset.eax 0 (np.setTf parent.tf)

/-! ## The invariant -/

theorem tf_setTf {tf : Frame} {i : Nat} (hi : i < TFSIZE) : (p.setTf tf).tf i = tf i := by
  show (if tfAddr kstack ≤ tfAddr kstack + i ∧
      tfAddr kstack + i < tfAddr kstack + TFSIZE then tf (tfAddr kstack + i - tfAddr kstack)
    else _) = tf i
  rw [if_pos ⟨Nat.le_add_right _ _, by omega⟩, Nat.add_sub_cancel_left]

theorem UserMode.setTf {tf : Frame} (h : UserMode tf) : UserMode (p.setTf tf).tf :=
  h.congr fun _ hi => tf_setTf hi.lt

theorem UserMode.keeps (h : UserMode s.tf) (hk : Keeps s t) (hn : t.m.nulls = s.m.nulls) :
    UserMode t.tf :=
  h.congr (hk.tf hn)

theorem UserMode.setEax (h : UserMode p.tf) (w : UInt32) : UserMode (p.setReg Offset.eax w).tf :=
  h.keeps (.setReg w eax_not_guarded) rfl

theorem havoc_keeps {mem : Nat → UInt8} : Keeps p (p.havoc mem false) := by
  refine ⟨List.suffix_refl _, fun _ i hi => if_pos ⟨rfl, ?_⟩⟩
  have := hi.lt
  simp only [tfAddr, PGSIZE, TFSIZE] at *
  omega

def FrameOk (p : Task ram kstack) (va : UInt32) : Prop :=
  match savedFrame p va with
  | some tf => UserMode tf
  | none => True

instance (p : Task ram kstack) (va : UInt32) : Decidable (FrameOk p va) := by
  unfold FrameOk
  split <;> infer_instance

/-- A frame that `sys_rt_sigreturn` restores is in user mode. -/
def Call.Restores : Call ram kstack → Task ram kstack → Prop
  | .rtSigreturn, p => FrameOk p p.savedTrapframeSp
  | _, _ => True

instance (c : Call ram kstack) (p : Task ram kstack) : Decidable (c.Restores p) := by
  unfold Call.Restores
  split <;> infer_instance

/-- What a call of a process without privileges does to the frame. -/
def CallKeeps (c : Call ram kstack) (s : Task ram kstack) : Prop :=
  wp c.run (fun _ t => s.m.nulls <:+ t.m.nulls ∧ (t.m.nulls = s.m.nulls → UserMode t.tf))
    (fun _ => True) s

theorem Keeps.userMode (hk : Keeps s t) (h : UserMode s.tf) :
    s.m.nulls <:+ t.m.nulls ∧ (t.m.nulls = s.m.nulls → UserMode t.tf) := ⟨hk.nulls, h.keeps hk⟩

theorem sysRtSigreturn_mode (h : UserMode s.tf)
    (hr : FrameOk s s.savedTrapframeSp) : CallKeeps .rtSigreturn s := by
  show wp sysRtSigreturn _ _ s
  unfold sysRtSigreturn
  rw [wp_bind, wp_get]
  by_cases h0 : s.savedTrapframeSp = 0
  · rw [if_pos h0]
    exact (Keeps.refl s).userMode h
  rw [if_neg h0]
  unfold FrameOk at hr
  cases hs : savedFrame s s.savedTrapframeSp with
  | none => trivial
  | some tf =>
    rw [hs] at hr
    exact ⟨List.suffix_refl _, fun _ => hr.setTf⟩

theorem run_mode (c : Call ram kstack) (h : UserMode s.tf) (heuid : s.euid ≠ 0)
    (hr : c.Restores s) : CallKeeps c s := by
  cases c with
  | signal signum handler restorer =>
    show wp (sysSignal signum handler restorer) _ _ s
    unfold sysSignal
    rw [wp_bind, wp_get]
    split
    · exact (Keeps.of_m rfl).userMode h
    · exact (Keeps.refl s).userMode h
  | rtSigaction signum handler restorer =>
    show wp (sysRtSigaction signum handler restorer) _ _ s
    unfold sysRtSigaction
    split
    · exact (Keeps.refl s).userMode h
    split
    · exact (Keeps.refl s).userMode h
    · exact (Keeps.of_m rfl).userMode h
  | rtSigprocmask how set =>
    show wp (sysRtSigprocmask how set) _ _ s
    unfold sysRtSigprocmask
    simp only []
    split
    · exact (Keeps.of_m rfl).userMode h
    split
    · exact (Keeps.of_m rfl).userMode h
    split
    · exact (Keeps.of_m rfl).userMode h
    · exact (Keeps.refl s).userMode h
  | rtSigsuspend mask =>
    show wp (sysRtSigsuspend mask) _ _ s
    unfold sysRtSigsuspend
    rw [wp_bind, wp_get, wp_bind, wp_modify]
    have hmask : Keeps s { s with sigmask := mask } := Keeps.of_m rfl
    refine dosignal_keeps.seq fun _ t ht => ?_
    exact ((hmask.trans ht).trans (Keeps.of_m rfl)).userMode h
  | rtSigreturn => exact sysRtSigreturn_mode h hr
  | iopl level =>
    show wp (sysIopl level) _ _ s
    unfold sysIopl
    rw [wp_bind, wp_get, if_pos heuid]
    exact (Keeps.refl s).userMode h
  | exec space entry sp =>
    have hspace : Keeps s { s with space := space } := Keeps.of_m rfl
    have hregs := (hspace.trans (.setReg entry eip_not_guarded)).trans (.setReg sp esp_not_guarded)
    exact (hregs.trans (Keeps.of_m rfl)).userMode h
  | other ret space euid => exact (Keeps.of_m rfl).userMode h

/-- A trap leaves the frame in user mode if it returns to the process. -/
def TrapKeeps (x : Exec (Task ram kstack) (Option Unit)) (s : Task ram kstack) : Prop :=
  wp x (fun _ t => s.m.nulls <:+ t.m.nulls ∧ (t.m.nulls = s.m.nulls → UserMode t.tf))
    (fun _ => True) s

theorem syscall_mode {c : Call ram kstack} (h : UserMode s.tf)
    (heuid : s.euid ≠ 0) (hr : c.Restores s) : TrapKeeps (syscall c) s := by
  unfold TrapKeeps syscall
  refine (run_mode c h heuid hr).seq fun ret t ⟨hsuf, ht⟩ => ?_
  rw [wp_bind, wp_modify, wp_bind, wp_get]
  have hret : Keeps t (t.setReg Offset.eax ret) := .setReg ret eax_not_guarded
  split
  · exact ⟨hsuf, fun hn => (ht hn).setEax ret⟩
  refine dosignal_keeps.seq fun _ u hu => ?_
  have htu := hret.trans hu
  refine ⟨hsuf.trans htu.nulls, fun hn => ?_⟩
  have hle := htu.nulls.length_le
  rw [hn] at hle
  have hst : t.m.nulls = s.m.nulls := (hsuf.eq_of_length_le hle).symm
  exact (ht hst).keeps htu (hn.trans hst.symm)

theorem fault_mode (h : UserMode s.tf) : TrapKeeps fault s := by
  unfold TrapKeeps fault
  rw [wp_bind, wp_get]
  split
  · exact (Keeps.refl s).userMode h
  rw [wp_bind, wp_modify]
  have hpend : Keeps s { s with sigpending := s.sigpending ||| bit SIGSEGV } := Keeps.of_m rfl
  refine dosignal_keeps.seq fun _ t ht => ?_
  rw [wp_bind, wp_get]
  split
  · exact (hpend.trans ht).userMode h
  · exact (hpend.trans ht).userMode h

theorem ofTrap_mode {x : Exec (Task ram kstack) (Option Unit)} (hx : TrapKeeps x s)
    (h : ofTrap x s = .next t) (hn : t.m.nulls = s.m.nulls) : UserMode t.tf := by
  unfold ofTrap at h
  split at h
  · rename_i u hu
    cases h
    exact (hx.of_ok hu).2 hn
  · cases h
  · cases h

/-- The call of the step is not stray, and a frame that it restores is in user mode. -/
def Act.Clean (s : Task ram kstack) : Act ram kstack → Prop
  | .call c mem stray => stray = false ∧ c.Restores (s.havoc mem stray)
  | _ => True

instance (s : Task ram kstack) (a : Act ram kstack) : Decidable (a.Clean s) := by
  unfold Act.Clean
  split <;> infer_instance

/-- The step is clean and reads no page-table entry through a null pointer. -/
def Act.Ok (s : Task ram kstack) (a : Act ram kstack) (t : Task ram kstack) : Prop :=
  a.Clean s ∧ t.m.nulls = s.m.nulls
deriving Decidable

theorem step_mode {a : Act ram kstack} (h : UserMode s.tf) (heuid : s.euid ≠ 0)
    (hstep : step s a = .next t) (hok : a.Ok s t) : UserMode t.tf := by
  cases a with
  | user tf mem =>
    simp only [step] at hstep
    split at hstep
    · rename_i htf
      cases hstep
      exact (htf h).setTf
    · cases hstep
  | interrupt mem =>
    simp only [step] at hstep
    split at hstep
    · cases hstep
    · cases hstep
      exact h.keeps havoc_keeps rfl
  | fault => exact ofTrap_mode (fault_mode h) hstep hok.2
  | post pending =>
    cases hstep
    exact h
  | call c mem stray =>
    obtain ⟨⟨rfl, hr⟩, hn⟩ := hok
    simp only [step] at hstep
    split at hstep
    · cases hstep
    · exact ofTrap_mode (syscall_mode (h.keeps havoc_keeps rfl) heuid hr) hstep hn

def Next (s : Task ram kstack) (a : Act ram kstack) (t : Task ram kstack) : Prop :=
  step s a = .next t ∧ s.euid ≠ 0

/-! ## A process with a handler -/

def userInitTf : Frame := fun i =>
  if i = Offset.cs then 0x23 else if i = Offset.ss then 0x2B else if i = Offset.eflags + 1 then 0x02
  else if i = Offset.esp + 1 then 0x10 else 0

def smallSpace : Space smallRam 8 where
  toPageTable := onePage
  own := by
    intro va e h hu
    rw [onePageTab_user h hu]
    decide

def smallParent : Task smallRam 8 :=
  Task.setTf userInitTf
    { m := ⟨fun _ => 0, [], []⟩, space := smallSpace, euid := 1000
      sighandlers := fun _ => 0, sigrestorers := fun _ => 0
      sigmask := 0, sigpending := 0, savedTrapframeSp := 0, killed := false, termsig := 0 }

/-- The user page with the code segment of the kernel in the frame saved below `0x1000`. -/
def editedPage (x : Nat) : UInt8 :=
  if x = 16 * PGSIZE + 0x1000 - TFSIZE + Offset.cs then 0x10 else 0

def savedPage (x : Nat) : UInt8 :=
  if 16 * PGSIZE + 0x1000 - TFSIZE ≤ x ∧
    x < 16 * PGSIZE + 0x1000 then userInitTf (x - (16 * PGSIZE + 0x1000 - TFSIZE)) else 0

/-- `signal(SIGUSR1, 0x100, 0x200)`; the signal arrives and is delivered on the way out of another
    call; the handler runs and calls `rt_sigreturn`. -/
def handlerRun (page : Nat → UInt8) : List (Act smallRam 8) :=
  [.call (.signal 10 0x100 0x200) (fun _ => 0) false, .post (bit 10),
    .call (.other 0 smallSpace 1000) (fun _ => 0) false,
    .user userInitTf page, .call .rtSigreturn page false]

/-- In every run of a process from its creation by a parent in user mode. -/
theorem user_mode_kept {ram : Ram} {kstack parentStack : Nat}
    (parent : Task ram parentStack) (space : Space ram kstack)
    (mem : Nat → UInt8) (acts : List (Act ram kstack)) (t : Task ram kstack)
    (hparent : UserMode parent.tf)
    (hrun : Run (fun s a t => Next s a t ∧ a.Ok s t) (forkChild parent space mem) acts t) :
    UserMode t.tf := by
  refine Run.invariant (I := fun s => UserMode s.tf) (fun s a u hs hnext => ?_) hrun ?_
  · obtain ⟨⟨hstep, heuid⟩, hok⟩ := hnext
    exact step_mode hs heuid hstep hok
  · exact (hparent.setTf).setEax 0

/-- A handler that leaves the saved frame alone returns to user mode. -/
theorem user_mode_kept_handler :
    ∃ t, Run (fun s a t => Next s a t ∧ a.Ok s t) (forkChild smallParent smallSpace fun _ => 0)
    (handlerRun savedPage) t ∧ UserMode t.tf := by
  obtain ⟨t, hrun, -⟩ := Outcome.exists_guarded (fun s a t => s.euid ≠ 0 ∧ Act.Ok s a t) step
    (forkChild smallParent smallSpace fun _ => 0) (handlerRun savedPage) (fun _ => True)
    (by decide +kernel)
  have hrun : Run (fun s a t => Next s a t ∧ a.Ok s t) (forkChild smallParent smallSpace fun _ => 0)
      (handlerRun savedPage) t :=
    hrun.mono fun _ _ _ h => ⟨⟨h.1, h.2.1⟩, h.2.2⟩
  exact ⟨t, hrun, user_mode_kept smallParent smallSpace _ _ t (by decide +kernel) hrun⟩

/-- If the handler edits the frame, the process ends in the code segment of the kernel, at privilege
    0. -/
theorem sigreturn_to_kernel :
    ∃ t, Run Next (forkChild smallParent smallSpace fun _ => 0) (handlerRun editedPage) t ∧
    word t.tf Offset.cs = 0x10 ∧ ¬ UserMode t.tf :=
  Outcome.exists_guarded (fun s _ _ => s.euid ≠ 0) step _ _ _ (by decide +kernel)

end Micro86.Signal
