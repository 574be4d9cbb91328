import Micro86.Lib.Transition
import Micro86.Lib.Update
import Micro86.Param
import Micro86.Signal.Pending

/-!
# The process table

The table, its lock and the scheduler, on one processor.  What the kernel does with `ptable.lock`
held is one step.  Outside of it a process can be interrupted and another one scheduled, so `fork`
and `exit` are several steps.

* `step` — one step of the process that runs, of the scheduler or of an interrupt.
-/

namespace Micro86.Ptable

open Signal Exec

abbrev Slot := Fin NPROC

def slots : List Slot := List.finRange NPROC

def SIGHUP : Nat := 1
def SIGINT : Nat := 2
def SIGQUIT : Nat := 3
def SIGCHLD : Nat := 17
def SIGTSTP : Nat := 20

inductive PState where
  | UNUSED
  | EMBRYO
  | SLEEPING
  | RUNNABLE
  | RUNNING
  | ZOMBIE
  deriving DecidableEq

/-- What a process sleeps on: a process, or anything else. -/
inductive Chan where
  | proc (p : Slot)
  | other (n : Nat)
  deriving DecidableEq

/-- How far `fork` has got with the new slot. -/
inductive Stage where
  /-- `allocproc` has released the lock. -/
  | stack
  /-- The slot has a kernel stack. -/
  | ids
  /-- Ids and signal handlers are copied. -/
  | vm
  /-- The memory is copied, and the slot has a parent. -/
  | files
  deriving DecidableEq

/-- Where a process is in the kernel. -/
inductive Pc where
  /-- A child that has not run yet; it starts in `forkret`. -/
  | newborn
  /-- In user mode, or in a call not listed below. -/
  | user
  | forking (np : Slot) (stage : Stage)
  /-- In `exit`, before the lock is taken. -/
  | closing (parent : Option Slot) (status : Int32)
  | waiting (pid : Int32) (options : Nat)
  /-- In the loop of `sys_rt_sigsuspend`. -/
  | suspended (newmask : UInt32)
  /-- After the loop. -/
  | woken (newmask : UInt32)
  /-- After `exit`. -/
  | gone
  deriving DecidableEq

structure Proc where
  state : PState
  pid : Int32
  uid : UInt16
  pgrp : Int32
  leader : Bool
  parent : Option Slot
  /-- There is a kernel stack. -/
  kstack : Bool
  /-- There are page tables that have not been freed. -/
  pgdir : Bool
  chan : Option Chan
  alarmticks : Nat
  exitstatus : Int32
  name : String
  sig : Sig
  pc : Pc
  /-- The number of processes created before; no routine reads this field or the ones below. -/
  born : Nat
  /-- Signals sent to the process and not consumed since. -/
  posted : List Nat
  /-- The signal `dosignal` killed the process for. -/
  killedBy : Option Nat

structure Reap where
  /-- The process that called. -/
  caller : Slot
  pid : Int32
  /-- `born` of the child, its parent, and whether it had a stack and page tables. -/
  child : Nat
  parent : Option Slot
  owned : Bool

structure Table where
  procs : Slot → Proc
  initproc : Slot
  nextpid : Int32
  births : Nat
  /-- Children returned by `waitpid`, last first. -/
  reaped : List Reap

namespace Proc

def wake (p : Proc) : Proc := if p.state = .SLEEPING then { p with state := .RUNNABLE } else p

def post (n : Nat) (p : Proc) : Proc :=
  { p with sig := p.sig.raise n, posted := if 1 ≤ n ∧ n < 32 then n :: p.posted else p.posted }

def dosignal (fails : Bool) (p : Proc) : Proc :=
  let q := p.sig.dosignal fails
  { p with
    sig := q.1
    posted := if q.1.killed then [] else p.posted.filter fun n => n ∉ q.2
    killedBy := if p.sig.killed = false ∧ q.1.killed = true then q.2.head? else p.killedBy }

def tick (p : Proc) : Proc :=
  if p.alarmticks > 0 then
    -- the test of the assignment `p->sigpending = 0` fails
    if p.alarmticks - 1 = 0 then { p with alarmticks := 0, sig := { p.sig with sigpending := 0 } }
    else { p with alarmticks := p.alarmticks - 1 }
  else p

def alloc (pid : Int32) (born : Nat) (p : Proc) : Proc :=
  { p with
    state := .EMBRYO, pid := pid, uid := 0, leader := false, alarmticks := 0
    sig := { p.sig with
      sigmask := 0, termsig := 0
      sighandlers := fun n => if n = SIGCHLD then SIG_IGN else SIG_DFL }
    born := born, posted := [], killedBy := none }

def inherit (cur : Proc) (np : Proc) : Proc :=
  { np with
    uid := cur.uid, pgrp := cur.pgrp, leader := false, alarmticks := 0
    sig := { np.sig with
      sigpending := 0, sigmask := 0
      sighandlers := cur.sig.sighandlers, sigrestorers := cur.sig.sigrestorers } }

def atPc (pc : Pc) (p : Proc) : Proc := { p with pc := pc }

def freed (p : Proc) : Proc :=
  { p with
    kstack := false, pgdir := false, pid := 0, parent := none, name := ""
    sig := { p.sig with killed := false }, state := .UNUSED }

def waited (p : Proc) : Proc :=
  { p with sig := p.sig.clear SIGCHLD, posted := p.posted.filter (· ≠ SIGCHLD), pc := .user }

end Proc

namespace Table

variable (t : Table)

def on (p : Slot) (f : Proc → Proc) : Table :=
  { t with procs := Function.update t.procs p (f (t.procs p)) }

def all (f : Slot → Proc → Proc) : Table := { t with procs := fun q => f q (t.procs q) }

def wakeup1 (chan : Option Chan) : Table :=
  t.all fun _ p => if p.state = .SLEEPING ∧ p.chan = chan then { p with state := .RUNNABLE } else p

def adopt (me : Slot) : List Slot → Table → Table
  | [], t => t
  | p :: ps, t =>
    if (t.procs p).parent = some me then
      let t' := t.on p fun q => { q with parent := some t.initproc }
      adopt me ps (if (t.procs p).state = .ZOMBIE then t'.wakeup1 (some (.proc t.initproc)) else t')
    else adopt me ps t

/-- The scan of `waitpid`: a child that is a zombie, and whether there are children. -/
def scan (me : Slot) (pid : Int32) : List Slot → Bool → Option Slot × Bool
  | [], havekids => (none, havekids)
  | p :: ps, havekids =>
    if (t.procs p).parent ≠ some me then scan me pid ps havekids
    else if pid > 0 ∧ (t.procs p).pid ≠ pid then scan me pid ps true
    else if (t.procs p).state = .ZOMBIE then (some p, true)
    else scan me pid ps true

def reap (me p : Slot) : Table :=
  let child := t.procs p
  { (t.on p Proc.freed).on me Proc.waited with
    reaped := ⟨me, child.pid, child.born, child.parent, child.kstack && child.pgdir⟩ :: t.reaped }

def kill (me : Slot) (pid : Int32) (sig : Nat) : Table :=
  match slots.find? fun p => (t.procs p).pid = pid with
  | none => t
  | some p =>
    if (t.procs me).uid ≠ 0 ∧ (t.procs p).uid ≠ (t.procs me).uid then t
    else t.on p fun q =>
      ((if q.state ≠ .ZOMBIE then { q with exitstatus := Int32.ofNat sig } else q).wake).post sig

/-- `p->parent && p->parent->leader == 1`. -/
def underLeader (p : Slot) : Bool :=
  match (t.procs p).parent with
  | some r => (t.procs r).leader
  | none => false

def killPgrp (pgrp : Int32) (sig : Nat) : Table :=
  let children := slots.any fun p => (t.procs p).pgrp = pgrp ∧
      (t.procs p).state ≠ .UNUSED ∧ t.underLeader p
  t.all fun _ p =>
    if p.pgrp = pgrp ∧ p.state ≠ .UNUSED then
      if (sig = SIGQUIT ∨ sig = SIGINT ∨ sig = SIGTSTP) ∧ p.leader ∧
        children then p else (p.post sig).wake
    else p

end Table

/-- Changes of the table.  `me` is the process that runs. -/
inductive Change where
  | wakeup (chan : Option Chan)
  /-- The scheduler picks a process. -/
  | run (p : Slot)
  | yield (me : Slot)
  | sleep (me : Slot) (chan : Chan) (pc : Pc)
  /-- The rest of `sleep`, or of a call. -/
  | move (me : Slot) (pc : Pc)
  | alloc (me np : Slot)
  | noStack (me np : Slot)
  | stack (me np : Slot)
  | inherit (me np : Slot)
  | noMemory (me np : Slot)
  | memory (me np : Slot)
  | ready (me np : Slot)
  /-- `exit` tells the parent it found when it started. -/
  | notify (parent : Slot)
  | status (me : Slot) (status : Int32)
  | adopt (me : Slot)
  | zombie (me : Slot)
  | reap (me p : Slot)
  | kill (me : Slot) (pid : Int32) (sig : Nat)
  | killPgrp (pgrp : Int32) (sig : Nat)
  | tick (me : Slot)
  | alarm (me : Slot) (ticks : Nat)
  | ctrlAltDel (me : Slot)
  | vhangup (me : Slot)
  | raise (me : Slot)
  | dosignal (me : Slot) (fails : Bool)
  | sigmask (me : Slot) (mask : UInt32)
  | sigaction (me : Slot) (signo : Nat) (handler restorer : UInt32)
  | exec (me : Slot) (name : String)
  /-- `setuid`, `setpgid`, `setsid` and the like. -/
  | setIds (p : Slot) (uid : UInt16) (pgrp : Int32) (leader : Bool)

def Change.apply (t : Table) : Change → Table
  | .wakeup chan => t.wakeup1 chan
  | .run p => t.on p fun q => { q with state := .RUNNING }
  | .yield me => t.on me fun q => { q with state := .RUNNABLE }
  | .sleep me chan pc => t.on me fun q => { q with chan := some chan, state := .SLEEPING, pc := pc }
  | .move me pc => t.on me fun q => { q with chan := none, pc := pc }
  | .alloc me np =>
    let u := (t.on np (Proc.alloc t.nextpid t.births)).on me (Proc.atPc (.forking np .stack))
    { u with nextpid := t.nextpid + 1, births := t.births + 1 }
  | .noStack me np =>
      (t.on np fun q => { q with kstack := false, state := .UNUSED }).on me (Proc.atPc .user)
  | .stack me np =>
      (t.on np fun q => { q with kstack := true }).on me (Proc.atPc (.forking np .ids))
  | .inherit me np => (t.on np (Proc.inherit (t.procs me))).on me (Proc.atPc (.forking np .vm))
  | .noMemory me np =>
    (t.on np fun q => { q with pgdir := false, kstack := false, state := .UNUSED }).on
    me (Proc.atPc .user)
  | .memory me np =>
    (t.on np fun q => { q with pgdir := true, parent := some me, name := (t.procs me).name }).on
    me (Proc.atPc (.forking np .files))
  | .ready me np =>
      (t.on np fun q => { q with state := .RUNNABLE, pc := .newborn }).on me (Proc.atPc .user)
  | .notify parent => t.on parent fun q => (q.post SIGCHLD).wake
  | .status me exitstatus => t.on me fun q => { q with exitstatus := exitstatus }
  | .adopt me => t.adopt me slots
  | .zombie me => t.on me fun q => { q with state := .ZOMBIE, pc := .gone }
  | .reap me p => t.reap me p
  | .kill me pid sig => t.kill me pid sig
  | .killPgrp pgrp sig => t.killPgrp pgrp sig
  | .tick me => t.on me Proc.tick
  | .alarm me ticks => t.on me fun q => { q with alarmticks := ticks }
  -- `sigpending = SIGINT` and `sigpending |= SIGHUP`: the numbers, not the bits
  | .ctrlAltDel me =>
    t.on me fun q => { q with
      sig := { q.sig with sigpending := UInt32.ofNat SIGINT }
      posted := SIGINT :: q.posted }
  | .vhangup me =>
    t.on me fun q => { q with
      sig := { q.sig with sigpending := q.sig.sigpending ||| UInt32.ofNat SIGHUP }
      posted := SIGHUP :: q.posted }
  | .raise me => t.on me (Proc.post SIGSEGV)
  | .dosignal me fails => t.on me (Proc.dosignal fails)
  | .sigmask me mask => t.on me fun q => { q with sig := { q.sig with sigmask := mask } }
  | .sigaction me signo handler restorer => t.on me fun q =>
      { q with sig := { q.sig with
          sighandlers := Function.update q.sig.sighandlers signo handler
          sigrestorers := Function.update q.sig.sigrestorers signo restorer } }
  | .exec me name => t.on me fun q =>
        { q with name := name, sig := { q.sig with sighandlers := fun _ => SIG_DFL } }
  | .setIds p uid pgrp leader => t.on p fun q =>
        { q with uid := uid, pgrp := pgrp, leader := leader }

/-! ## The lock and the scheduler -/

structure State extends Table where
  /-- `c->proc`. -/
  cpu : Option Slot
  /-- `ptable.lock` is held. -/
  lock : Bool
  ncli : Nat
  /-- Where the loop of `scheduler` is in the table. -/
  pos : Nat
  /-- `C_A_D`. -/
  cad : Bool

def acquire : Exec State Unit := fun s =>
  if s.lock then .error "acquire: holding"
    else .ok ((), { s with lock := true, ncli := s.ncli + 1 })

def release : Exec State Unit := fun s =>
  if s.lock then .ok ((), { s with lock := false, ncli := s.ncli - 1 }) else .error "release"

def change (c : Change) : Exec State Unit :=
  Exec.modify fun s => { s with toTable := c.apply s.toTable }

/-- Enter the scheduler, which goes on with the lock held.  Interrupts are off where `ncli` is not
    0. -/
def sched (me : Slot) : Exec State Unit := do
  let s ← Exec.get
  if s.lock = false then Exec.panic "sched ptable.lock"
  else if s.ncli ≠ 1 then Exec.panic "sched locks"
  else if (s.procs me).state = .RUNNING then Exec.panic "sched running"
  else Exec.modify fun s => { s with cpu := none }

def locked (c : Change) : Exec State Unit := do
  acquire
  change c
  release

def yield (me : Slot) : Exec State Unit := do
  acquire
  change (.yield me)
  sched me

def sleepLocked (me : Slot) (chan : Chan) (pc : Pc) : Exec State Unit := do
  change (.sleep me chan pc)
  sched me

/-- `sleep(chan, lk)`, and `pause` for the process itself as channel. -/
def sleep (me : Slot) (chan : Chan) : Exec State Unit := do
  acquire
  let s ← Exec.get
  sleepLocked me chan (s.procs me).pc

def waitpidLoop (me : Slot) (pid : Int32) (options : Nat) : Exec State Unit := do
  let s ← Exec.get
  match s.toTable.scan me pid slots false with
  | (some p, _) => do
    change (.reap me p)
    release
  | (none, false) => do
    change (.move me .user)
    release
  | (none, true) =>
    if options % 2 = 1 then do
      change (.move me .user)
      release
    else sleepLocked me (.proc me) (.waiting pid options)

def waitpid (me : Slot) (pid : Int32) (options : Nat) : Exec State Unit := do
  acquire
  waitpidLoop me pid options

def suspendLoop (me : Slot) (newmask : UInt32) : Exec State Unit := do
  let s ← Exec.get
  if (s.procs me).sig.sigpending &&& ~~~ (s.procs me).sig.sigmask = 0 then
    sleepLocked me (.proc me) (.suspended newmask)
  else do
    change (.move me (.woken newmask))
    release

def sysRtSigsuspend (me : Slot) (oldmask : UInt32) : Exec State Unit := do
  let s ← Exec.get
  change (.sigmask me oldmask)
  acquire
  suspendLoop me (s.procs me).sig.sigmask

def sigsuspendEnd (me : Slot) (newmask : UInt32) (fails : Bool) : Exec State Unit := do
  change (.dosignal me fails)
  change (.sigmask me newmask)
  change (.move me .user)

def allocproc (me : Slot) : Exec State Unit := do
  acquire
  let s ← Exec.get
  match slots.find? fun p => (s.procs p).state = .UNUSED with
  | none => release
  | some np => do
    change (.alloc me np)
    release

def exit (me : Slot) (status : Int32) : Exec State Unit := do
  let s ← Exec.get
  if me = s.initproc then
    if (s.procs me).name = "initcode" then Exec.panic "no init program found!"
      else Exec.panic "attempted to kill init"
  else change (.move me (.closing (s.procs me).parent status))

def Table.ignores (t : Table) : Option Slot → Bool
  | some r => (t.procs r).sig.sighandlers SIGCHLD = SIG_IGN
  | none => false

def Table.discard (t : Table) (me : Slot) (parent : Option Slot) : Table :=
  (t.on me fun p => { p with state := .UNUSED }).wakeup1 (parent.map .proc)

/-- `if (parent) { ... }`. -/
def notify : Option Slot → Exec State Unit
  | some r => change (.notify r)
  | none => pure ()

def exitTail (me : Slot) (parent : Option Slot) (status : Int32) : Exec State Unit := do
  acquire
  notify parent
  let s ← Exec.get
  if s.ignores parent then do
    Exec.modify fun s => { s with toTable := s.discard me parent }
    release
    sched me
  else do
    change (.status me status)
    change (.wakeup ((s.procs me).parent.map .proc))
    change (.adopt me)
    change (.zombie me)
    sched me

def resume (p : Slot) : Exec State Unit := do
  let s ← Exec.get
  match (s.procs p).pc with
  | .newborn => do
    change (.move p .user)
    release
  | .waiting pid options => do
    change (.move p (.waiting pid options))
    waitpidLoop p pid options
  | .suspended newmask => do
    change (.move p (.suspended newmask))
    suspendLoop p newmask
  | pc => do
    change (.move p pc)
    release

def schedule : Exec State Unit := do
  let s ← Exec.get
  match slots.find? fun p => s.pos ≤ p.val ∧ (s.procs p).state = .RUNNABLE with
  | none => release
  | some p => do
    Exec.modify fun s => { s with cpu := some p, pos := p.val + 1 }
    change (.run p)
    resume p

inductive Act where
  /-- The scheduler starts over. -/
  | scan
  | schedule
  /-- A timer interrupt in the kernel, or the end of one in user mode. -/
  | yield
  | sleep (n : Nat)
  | pause
  | wakeup (n : Nat)
  | fork
  /-- `kalloc` for the kernel stack. -/
  | kalloc (ok : Bool)
  | inherit
  | copyuvm (ok : Bool)
  | ready
  | exit (status : Int32)
  | exitTail
  | waitpid (pid : Int32) (options : Nat)
  | kill (pid : Int32) (sig : Nat)
  | killPgrp (pgrp : Int32) (sig : Nat)
  | tick
  | alarm (ticks : Nat)
  | ctrlAltDel
  | reboot (cad : Bool)
  | vhangup
  /-- An exception in user mode. -/
  | fault (fails : Bool)
  | dosignal (fails : Bool)
  | sigsuspend (oldmask : UInt32)
  | sigsuspendEnd (fails : Bool)
  | sigprocmask (mask : UInt32)
  | sigaction (signo : Nat) (handler restorer : UInt32)
  | exec (name : String)
  | setIds (p : Slot) (uid : UInt16) (pgrp : Int32) (leader : Bool)

def ofExec (x : Exec State Unit) (s : State) : Outcome State :=
  match x s with
  | .ok (_, t) => .next t
  | .error msg => .panic msg

namespace State

variable (s : State)

/-- By the process that runs, if it is at a `pc` with `ok`. -/
def running (ok : Pc → Bool) (k : Slot → Exec State Unit) : Outcome State :=
  match s.cpu with
  | some me => if ok (s.procs me).pc then ofExec (k me) s else .blocked
  | none => .blocked

def forking (stage : Stage) (k : Slot → Slot → Exec State Unit) : Outcome State :=
  match s.cpu with
  | some me =>
    match (s.procs me).pc with
    | .forking np st => if st = stage then ofExec (k me np) s else .blocked
    | _ => .blocked
  | none => .blocked

def interrupt (c : Change) : Outcome State := if s.lock then .blocked else ofExec (locked c) s

end State

def Pc.isUser (pc : Pc) : Bool := pc = .user

/-- Where a process may sleep for something of the file system. -/
def Pc.maySleep : Pc → Bool
  | .user => true
  | .closing _ _ => true
  | _ => false

def step (s : State) : Act → Outcome State
  | .scan => if s.cpu = none ∧ s.lock = false then
        ofExec (do acquire; Exec.modify fun s => { s with pos := 0 }) s else .blocked
  | .schedule => if s.cpu = none ∧ s.lock = true then ofExec schedule s else .blocked
  | .yield => s.running (fun _ => true) yield
  | .sleep n => s.running Pc.maySleep fun me => sleep me (.other n)
  | .pause => s.running Pc.isUser fun me => sleep me (.proc me)
  | .wakeup n => s.interrupt (.wakeup (some (.other n)))
  | .fork => s.running Pc.isUser allocproc
  | .kalloc ok => s.forking .stack fun me np => change (if ok then .stack me np else .noStack me np)
  | .inherit => s.forking .ids fun me np => change (.inherit me np)
  | .copyuvm ok => s.forking .vm fun me np => change (if ok then .memory me np else .noMemory me np)
  | .ready => s.forking .files fun me np => locked (.ready me np)
  | .exit status => s.running Pc.isUser fun me => exit me status
  | .exitTail =>
    match s.cpu with
    | some me =>
      match (s.procs me).pc with
      | .closing parent status => ofExec (exitTail me parent status) s
      | _ => .blocked
    | none => .blocked
  | .waitpid pid options => s.running Pc.isUser fun me => waitpid me pid options
  | .kill pid sig => s.running Pc.isUser fun me => locked (.kill me pid sig)
  | .killPgrp pgrp sig => s.interrupt (.killPgrp pgrp sig)
  | .tick => s.running Pc.isUser fun me => change (.tick me)
  | .alarm ticks => s.running Pc.isUser fun me => change (.alarm me ticks)
  | .ctrlAltDel => if s.cad then .blocked else s.running (fun _ => true) fun me =>
        change (.ctrlAltDel me)
  | .reboot cad => s.running Pc.isUser fun _ => Exec.modify fun s => { s with cad := cad }
  | .vhangup => s.running Pc.isUser fun me => change (.vhangup me)
  | .fault fails => s.running Pc.isUser fun me => do
    change (.raise me)
    change (.dosignal me fails)
  | .dosignal fails => s.running Pc.isUser fun me => change (.dosignal me fails)
  | .sigsuspend oldmask => s.running Pc.isUser fun me => sysRtSigsuspend me oldmask
  | .sigsuspendEnd fails =>
    match s.cpu with
    | some me =>
      match (s.procs me).pc with
      | .woken newmask => ofExec (sigsuspendEnd me newmask fails) s
      | _ => .blocked
    | none => .blocked
  | .sigprocmask mask => s.running Pc.isUser fun me => change (.sigmask me mask)
  | .sigaction signo handler restorer => s.running Pc.isUser fun me =>
        change (.sigaction me signo handler restorer)
  | .exec name => s.running Pc.isUser fun me => change (.exec me name)
  | .setIds p uid pgrp leader => s.running Pc.isUser fun _ => change (.setIds p uid pgrp leader)

/-! ## After `user_init` -/

def freeProc : Proc where
  state := .UNUSED
  pid := 0
  uid := 0
  pgrp := 0
  leader := false
  parent := none
  kstack := false
  pgdir := false
  chan := none
  alarmticks := 0
  exitstatus := 0
  name := ""
  sig := ⟨fun _ => 0, fun _ => 0, 0, 0, false, 0⟩
  pc := .gone
  born := 0
  posted := []
  killedBy := none

def userInit : Proc :=
  { freeProc.alloc 1 0 with
    state := .RUNNABLE, pgrp := 1, kstack := true, pgdir := true, name := "initcode"
    pc := .newborn }

def boot : State where
  procs := fun q => if q.val = 0 then userInit else freeProc
  initproc := ⟨0, NPROC_pos⟩
  nextpid := 2
  births := 1
  reaped := []
  cpu := none
  lock := false
  ncli := 0
  pos := 0
  cad := true

end Micro86.Ptable
