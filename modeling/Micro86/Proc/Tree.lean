import Micro86.Proc.Table

/-!
# The tree of processes

* `Tree` — every process but `init` has a parent that is neither free nor a zombie, slots that are
  free own nothing, and a slot that `fork` works on belongs to one process.
* `Tree.change` — every change keeps the tree.
-/

namespace Micro86.Ptable

open Signal Exec

variable {a b : PState} {t u : Table} {me p np : Slot} {pc : Pc}
  {f : Proc → Proc} {chan : Option Chan} {q : Proc}

/-! ## Single slots -/

section

variable {t : Table} {p q : Slot} {f : Proc → Proc}

@[simp] theorem on_self : (t.on p f).procs p = f (t.procs p) := by
  simp [Table.on]

theorem on_ne (h : q ≠ p) : (t.on p f).procs q = t.procs q := by
  simp [Table.on, Function.update_of_ne h]

@[elab_as_elim] theorem on_cases {motive : Slot → Proc → Prop}
    (q : Slot) (self : motive p (f (t.procs p)))
    (of_ne : q ≠ p → motive q (t.procs q)) : motive q ((t.on p f).procs q) :=
  @update_cases _ _ _ t.procs p (f (t.procs p)) _ q self of_ne

@[simp] theorem on_initproc : (t.on p f).initproc = t.initproc := rfl

theorem on_field {α : Type} (F : Proc → α) (h : F (f (t.procs p)) = F (t.procs p)) (q : Slot) :
    F ((t.on p f).procs q) = F (t.procs q) := by
  refine on_cases q ?_ fun _ => ?_
  · rw [h]
  · rfl

end

def PState.isAwake : PState → Bool
  | .SLEEPING => true
  | .RUNNABLE => true
  | .RUNNING => true
  | _ => false

/-- From one awake state to another, or no change. -/
def PState.Turns (a b : PState) : Prop := b = a ∨ a.isAwake = true ∧ b.isAwake = true

theorem PState.Turns.refl (a : PState) : a.Turns a := .inl rfl

theorem PState.Turns.trans {c : PState} (h : a.Turns b) (h' : b.Turns c) : a.Turns c := by
  rcases h with rfl | ⟨ha, hb⟩
  · exact h'
  rcases h' with rfl | ⟨-, hc⟩
  · exact .inr ⟨ha, hb⟩
  · exact .inr ⟨ha, hc⟩

theorem PState.Turns.isAwake (h : a.Turns b) : b.isAwake = a.isAwake := by
  rcases h with rfl | ⟨ha, hb⟩
  · rfl
  · rw [ha, hb]

theorem PState.Turns.eq {c : PState} (h : a.Turns b) (hc : c.isAwake = false) : b = c ↔ a = c := by
  rcases h with rfl | ⟨ha, hb⟩
  · exact .rfl
  constructor
  · rintro rfl
    rw [hb] at hc
    cases hc
  · rintro rfl
    rw [ha] at hc
    cases hc

def Pc.isFree : Pc → Bool
  | .forking _ _ => false
  | .gone => false
  | _ => true

def Pc.isClosing : Pc → Bool
  | .closing _ _ => true
  | _ => false

def Table.Goes (t : Table) (me : Slot) (pc : Pc) : Prop :=
  pc = (t.procs me).pc ∨ (t.procs me).pc.isFree = true ∧ pc.isFree = true ∧
    (pc.isClosing = true → me ≠ t.initproc)

def Pc.isWaiting : Pc → Bool
  | .waiting _ _ => true
  | _ => false

/-- `waitpid` sleeps only without `WNOHANG` and while there are children. -/
def Table.Waits (t : Table) (me : Slot) : Pc → Prop
  | .waiting _ options => options % 2 = 0 ∧ ∃ q, (t.procs q).parent = some me
  | _ => True

/-- `waitpid` does not give up. -/
def Table.Patient (t : Table) (me : Slot) (pc : Pc) : Prop :=
  pc = (t.procs me).pc ∨ t.Waits me pc ∧
    ((t.procs me).pc.isWaiting = true → ¬ t.Waits me (t.procs me).pc)

/-- `fork` by `me` has got to `stage` with `np`. -/
def Table.Forks (t : Table) (me np : Slot) (stage : Stage) : Prop :=
  (t.procs me).state = .RUNNING ∧ (t.procs me).pc = .forking np stage ∧ (t.procs np).state = .EMBRYO

/-- Where the kernel makes the change. -/
def Change.Fits (t : Table) : Change → Prop
  | .run p => (t.procs p).state = .RUNNABLE
  | .yield me => (t.procs me).state = .RUNNING
  | .sleep me chan pc => (t.procs me).state = .RUNNING ∧ t.Goes me pc ∧
        t.Patient me pc ∧ ∀ r, chan = .proc r → r = me
  | .move me pc => (t.procs me).state = .RUNNING ∧ t.Goes me pc ∧ t.Patient me pc
  | .alloc me np => (t.procs me).state = .RUNNING ∧ (t.procs me).pc = .user ∧
        (t.procs np).state = .UNUSED
  | .noStack me np => t.Forks me np .stack
  | .stack me np => t.Forks me np .stack
  | .inherit me np => t.Forks me np .ids
  | .noMemory me np => t.Forks me np .vm
  | .memory me np => t.Forks me np .vm
  | .ready me np => t.Forks me np .files
  | .adopt me => me ≠ t.initproc ∧ (t.procs me).pc.isClosing = true ∧ (t.procs me).state = .RUNNING
  | .zombie me => (t.procs me).state = .RUNNING ∧ me ≠ t.initproc ∧
        (t.procs me).pc.isClosing = true ∧ ∀ q, (t.procs q).parent ≠ some me
  | .reap me p => (t.procs me).state = .RUNNING ∧ (t.procs me).pc.isFree = true ∧
        (t.procs p).parent = some me ∧ (t.procs p).state = .ZOMBIE
  | .dosignal me _ => (t.procs me).pc.isWaiting = false
  | _ => True

theorem Table.patient (hold : (t.procs me).pc.isWaiting = false) (hnew : pc.isWaiting = false) :
    t.Patient me pc := by
  refine .inr ⟨?_, fun h => absurd (hold.symm.trans h) (by decide)⟩
  cases pc with
  | waiting pid options => cases hnew
  | _ => trivial

def Makes (t : Table) (c : Change) (u : Table) : Prop := c.Fits t ∧ u = c.apply t

/-! ## The invariant -/

/-- What `fork` has given to a slot. -/
def Proc.StageOk (me : Slot) (np : Proc) : Stage → Prop
  | .stack => np.parent = none ∧ np.kstack = false ∧ np.pgdir = false
  | .ids => np.parent = none ∧ np.kstack = true ∧ np.pgdir = false
  | .vm => np.parent = none ∧ np.kstack = true ∧ np.pgdir = false
  | .files => np.parent = some me ∧ np.kstack = true ∧ np.pgdir = true

structure Tree (t : Table) : Prop where
  init : (t.procs t.initproc).state.isAwake = true ∧ (t.procs t.initproc).parent = none
  unused : ∀ q, (t.procs q).state = .UNUSED → (t.procs q).parent = none ∧
    (t.procs q).kstack = false ∧ (t.procs q).pgdir = false
  embryo : ∀ q, (t.procs q).state = .EMBRYO → ∃ p stage, (t.procs p).pc = .forking q stage ∧
    (t.procs p).state.isAwake = true
  forking : ∀ p np stage, (t.procs p).pc = .forking np stage → (t.procs p).state.isAwake = true →
    (t.procs np).state = .EMBRYO ∧ (t.procs np).StageOk p stage
  unique : ∀ p p' np stage stage', (t.procs p).pc = .forking np stage →
    (t.procs p').pc = .forking np stage' →
    (t.procs p).state.isAwake = true → (t.procs p').state.isAwake = true → p = p'
  child : ∀ q r, (t.procs q).parent = some r → (t.procs r).state.isAwake = true
  live : ∀ q, (t.procs q).state.isAwake = true ∨ (t.procs q).state = .ZOMBIE →
    (t.procs q).kstack = true ∧ (t.procs q).pgdir = true ∧
      (q ≠ t.initproc → (t.procs q).parent.isSome = true)
  closing : ∀ p, (t.procs p).pc.isClosing = true → (t.procs p).state.isAwake = true → p ≠ t.initproc

/-- What the tree depends on, up to changes between awake states. -/
structure Proc.SameTree (p q : Proc) : Prop where
  state : p.state.Turns q.state
  parent : q.parent = p.parent
  kstack : q.kstack = p.kstack
  pgdir : q.pgdir = p.pgdir
  forks : ∀ np stage, q.pc = .forking np stage ↔ p.pc = .forking np stage

/-- No change but in `chan`, ids and signals, and between awake states. -/
structure Proc.Stays (p q : Proc) : Prop where
  state : p.state.Turns q.state
  parent : q.parent = p.parent
  kstack : q.kstack = p.kstack
  pgdir : q.pgdir = p.pgdir
  pc : q.pc = p.pc

/-- No change but in ids and signals, or a wakeup. -/
structure Proc.Keeps (p q : Proc) : Prop where
  stays : p.Stays q
  running : q.state = .RUNNING ↔ p.state = .RUNNING
  chan : q.chan = p.chan
  born : q.born = p.born

theorem PState.neither_running (ha : a ≠ .RUNNING) (hb : b ≠ .RUNNING) :
    a = .RUNNING ↔ b = .RUNNING :=
  ⟨fun h => absurd h ha, fun h => absurd h hb⟩

namespace Proc

variable {p q r : Proc}

theorem Stays.sameTree (h : p.Stays q) :
    p.SameTree q := ⟨h.state, h.parent, h.kstack, h.pgdir, fun np stage => by rw [h.pc]⟩

theorem Stays.refl (p : Proc) : p.Stays p := ⟨.refl _, rfl, rfl, rfl, rfl⟩

theorem Stays.trans (h : p.Stays q) (h' : q.Stays r) : p.Stays r :=
  ⟨h.state.trans h'.state, h'.parent.trans h.parent, h'.kstack.trans h.kstack,
    h'.pgdir.trans h.pgdir, h'.pc.trans h.pc⟩

theorem SameTree.stage (h : p.SameTree q) {stage : Stage} (hs : p.StageOk me stage) :
    q.StageOk me stage := by
  cases stage with
  | stack | ids | vm | files =>
    exact ⟨h.parent.trans hs.1, h.kstack.trans hs.2.1, h.pgdir.trans hs.2.2⟩

theorem StageOk.parent_eq {r : Slot} {stage : Stage} (hs : p.StageOk me stage)
    (hp : p.parent = some r) : r = me := by
  cases stage with
  | files => exact (Option.some.inj (hs.1.symm.trans hp)).symm
  | _ => exact nomatch hs.1.symm.trans hp

theorem stays_of_awake {st : PState} (h : p.state.isAwake = true) (h' : st.isAwake = true) :
    p.Stays { p with state := st } :=
  ⟨.inr ⟨h, h'⟩, rfl, rfl, rfl, rfl⟩

theorem Keeps.refl (p : Proc) : p.Keeps p := ⟨.refl p, .rfl, rfl, rfl⟩

theorem Keeps.trans (h : p.Keeps q) (h' : q.Keeps r) : p.Keeps r :=
  ⟨h.stays.trans h'.stays, h'.running.trans h.running, h'.chan.trans h.chan, h'.born.trans h.born⟩

theorem keeps_of_asleep (h : p.state = .SLEEPING) : p.Keeps { p with state := .RUNNABLE } :=
  ⟨stays_of_awake (by rw [h]; rfl) rfl, PState.neither_running nofun (by rw [h]; decide), rfl, rfl⟩

theorem wake_keeps (p : Proc) : p.Keeps p.wake := by
  unfold wake
  split
  · rename_i h
    exact keeps_of_asleep h
  · exact .refl p

theorem post_keeps (n : Nat) (p : Proc) :
    p.Keeps (p.post n) := ⟨⟨.refl _, rfl, rfl, rfl, rfl⟩, .rfl, rfl, rfl⟩

theorem tick_keeps (p : Proc) : p.Keeps p.tick := by
  unfold tick
  split
  · split
    · exact ⟨⟨.refl _, rfl, rfl, rfl, rfl⟩, .rfl, rfl, rfl⟩
    · exact ⟨⟨.refl _, rfl, rfl, rfl, rfl⟩, .rfl, rfl, rfl⟩
  · exact .refl p

end Proc

theorem Tree.same (h : Tree t) (hinit : u.initproc = t.initproc)
    (hsame : ∀ q, (t.procs q).SameTree (u.procs q))
    (hclosing : ∀ q, (u.procs q).pc.isClosing = true → (t.procs q).pc.isClosing = true ∨
      q ≠ t.initproc) : Tree u := by
  have hawake : ∀ q, (u.procs q).state.isAwake = (t.procs q).state.isAwake :=
    fun q => (hsame q).state.isAwake
  refine ⟨?_, fun q hq => ?_, fun q hq => ?_, fun p np stage hp ha => ?_,
    fun p p' np stage stage' hp hp' ha ha' => ?_,
    fun q r hq => ?_, fun q hq => ?_, fun p hp ha => ?_⟩
  · rw [hinit, hawake, (hsame _).parent]
    exact h.init
  · rw [(hsame q).parent, (hsame q).kstack, (hsame q).pgdir]
    exact h.unused q (((hsame q).state.eq rfl).mp hq)
  · obtain ⟨p, stage, hp, ha⟩ := h.embryo q (((hsame q).state.eq rfl).mp hq)
    exact ⟨p, stage, ((hsame p).forks q stage).mpr hp, (hawake p).trans ha⟩
  · rw [hawake] at ha
    obtain ⟨he, hs⟩ := h.forking p np stage (((hsame p).forks np stage).mp hp) ha
    exact ⟨((hsame np).state.eq rfl).mpr he, (hsame np).stage hs⟩
  · rw [hawake] at ha ha'
    exact h.unique p p' np stage stage' (((hsame p).forks np stage).mp hp)
      (((hsame p').forks np stage').mp hp') ha ha'
  · rw [(hsame q).parent] at hq
    exact (hawake r).trans (h.child q r hq)
  · rw [hawake, (hsame q).state.eq (show PState.isAwake .ZOMBIE = false from rfl)] at hq
    rw [(hsame q).kstack, (hsame q).pgdir, (hsame q).parent, hinit]
    exact h.live q hq
  · rw [hawake] at ha
    rw [hinit]
    exact (hclosing p hp).elim (fun hc => h.closing p hc ha) id

theorem Tree.on_same (h : Tree t) (hf : (t.procs p).SameTree (f (t.procs p)))
    (hclosing : (f (t.procs p)).pc.isClosing = true → (t.procs p).pc.isClosing = true ∨
      p ≠ t.initproc) : Tree (t.on p f) := by
  refine h.same rfl (fun q => ?_) fun q hq => ?_
  · exact on_cases q hf fun _ => (Proc.Stays.refl _).sameTree
  · by_cases hqp : q = p
    · rw [hqp, on_self] at hq
      rw [hqp]
      exact hclosing hq
    · rw [on_ne hqp] at hq
      exact .inl hq

theorem Tree.stays (h : Tree t) (hinit : u.initproc = t.initproc)
    (hstays : ∀ q, (t.procs q).Stays (u.procs q)) : Tree u :=
  h.same hinit (fun q => (hstays q).sameTree) fun q hq => .inl ((hstays q).pc ▸ hq)

theorem Tree.on_stays (h : Tree t) (p : Slot) (f : Proc → Proc)
    (hf : (t.procs p).Stays (f (t.procs p))) : Tree (t.on p f) :=
  h.on_same hf.sameTree fun hc => .inl (hf.pc ▸ hc)

theorem kill_keeps (t : Table) (me : Slot) (pid : Int32) (sig : Nat) (q : Slot) :
    (t.procs q).Keeps ((t.kill me pid sig).procs q) := by
  unfold Table.kill
  split
  · exact .refl _
  rename_i p hp
  split
  · exact .refl _
  refine on_cases q ?_ fun _ => ?_
  · refine Proc.Keeps.trans ?_ ((Proc.wake_keeps _).trans (Proc.post_keeps sig _))
    split
    · exact ⟨⟨.refl _, rfl, rfl, rfl, rfl⟩, .rfl, rfl, rfl⟩
    · exact .refl _
  · exact .refl _

theorem kill_initproc (t : Table) (me : Slot) (pid : Int32) (sig : Nat) :
    (t.kill me pid sig).initproc = t.initproc := by
  unfold Table.kill
  split
  · rfl
  split
  · rfl
  · rfl

theorem killPgrp_keeps (t : Table) (pgrp : Int32) (sig : Nat) (q : Slot) :
    (t.procs q).Keeps ((t.killPgrp pgrp sig).procs q) := by
  simp only [Table.killPgrp, Table.all]
  split
  · split
    · exact .refl _
    · exact (Proc.post_keeps sig _).trans (Proc.wake_keeps _)
  · exact .refl _

theorem Tree.goes (h : Tree t) (me : Slot) (hgoes : t.Goes me pc) (hpc : (f (t.procs me)).pc = pc)
    (hstate : (t.procs me).state.Turns (f (t.procs me)).state)
    (hparent : (f (t.procs me)).parent = (t.procs me).parent)
    (hkstack : (f (t.procs me)).kstack = (t.procs me).kstack)
    (hpgdir : (f (t.procs me)).pgdir = (t.procs me).pgdir) : Tree (t.on me f) := by
  rcases hgoes with heq | ⟨hold, hnew, hclosing⟩
  · exact h.on_stays me f ⟨hstate, hparent, hkstack, hpgdir, hpc.trans heq⟩
  refine h.on_same ⟨hstate, hparent, hkstack, hpgdir, fun np stage => ?_⟩ fun hc =>
    .inr (hclosing (hpc ▸ hc))
  rw [hpc]
  constructor
  · rintro rfl
    cases hnew
  · intro hp
    rw [hp] at hold
    cases hold

/-! ## Creation -/

/-- What becomes of the slot that `me` works on: it goes on with it, gives it up, or it is a
    child. -/
inductive Fork (me np : Slot) (cur new : Proc) : Prop where
  | works (stage : Stage) (pc : cur.pc = .forking np stage) (state : new.state = .EMBRYO)
      (stageOk : new.StageOk me stage)
  | fails (pc : cur.pc = .user) (state : new.state = .UNUSED)
      (owns : new.parent = none ∧ new.kstack = false ∧ new.pgdir = false)
  | child (pc : cur.pc = .user) (state : new.state = .RUNNABLE) (pc' : new.pc = .newborn)
      (owns : new.parent = some me ∧ new.kstack = true ∧ new.pgdir = true)

/-- A step of `fork` by `me`: the slot `np` changes, and where `me` stands. -/
structure Table.Forked (t : Table) (me np : Slot) (u : Table) : Prop where
  init : u.initproc = t.initproc
  running : (t.procs me).state = .RUNNING
  pc : (t.procs me).pc = .user ∨ ∃ stage, (t.procs me).pc = .forking np stage
  vacant : (t.procs np).state = .UNUSED ∨ (t.procs np).state = .EMBRYO
  claim : ∀ p stage, (t.procs p).pc = .forking np stage → (t.procs p).state.isAwake = true → p = me
  other : ∀ q, q ≠ me → q ≠ np → u.procs q = t.procs q
  cur : ∃ pc, u.procs me = { t.procs me with pc := pc }
  fork : Fork me np (u.procs me) (u.procs np)

namespace Table.Forked

variable {q r : Slot} {stage : Stage}

variable (hf : t.Forked me np u)
include hf

theorem asleep : (t.procs np).state.isAwake = false := by
  rcases hf.vacant with h | h <;> rw [h] <;> rfl

theorem state_me : (u.procs me).state = .RUNNING := by
  obtain ⟨pc, hcur⟩ := hf.cur
  rw [hcur]
  exact hf.running

theorem place (hq : q ≠ np) : (u.procs q).state = (t.procs q).state ∧
    (u.procs q).parent = (t.procs q).parent ∧
    (u.procs q).kstack = (t.procs q).kstack ∧ (u.procs q).pgdir = (t.procs q).pgdir := by
  by_cases hqm : q = me
  · obtain ⟨pc, hcur⟩ := hf.cur
    rw [hqm, hcur]
    exact ⟨rfl, rfl, rfl, rfl⟩
  · rw [hf.other q hqm hq]
    exact ⟨rfl, rfl, rfl, rfl⟩

theorem slot_eq (hp : (u.procs me).pc = .forking q stage) : q = np := by
  cases hf.fork with
  | works stage' pc _ _ =>
    rw [pc] at hp
    cases hp
    rfl
  | fails pc _ _ | child pc _ _ _ => rw [pc] at hp; cases hp

theorem not_forking (ha : (u.procs np).state.isAwake = true) :
    (u.procs np).pc ≠ .forking q stage := by
  intro hp
  cases hf.fork with
  | works _ _ state _ | fails _ state _ => rw [state] at ha; cases ha
  | child _ _ pc _ => rw [pc] at hp; cases hp

/-- Who is in `fork` now is `me` with `np`, or was before. -/
theorem before (hp : (u.procs p).pc = .forking q stage) (ha : (u.procs p).state.isAwake = true) :
    p = me ∧ q = np ∨
      q ≠ np ∧ (t.procs p).pc = .forking q stage ∧ (t.procs p).state.isAwake = true := by
  by_cases hpn : p = np
  · subst hpn
    exact absurd hp (hf.not_forking ha)
  by_cases hpm : p = me
  · subst hpm
    exact .inl ⟨rfl, hf.slot_eq hp⟩
  rw [hf.other p hpm hpn] at hp ha
  refine .inr ⟨?_, hp, ha⟩
  rintro rfl
  exact hpm (hf.claim p stage hp ha)

/-- Who works on another slot goes on with it. -/
theorem after (hq : q ≠ np) (hp : (t.procs p).pc = .forking q stage)
    (ha : (t.procs p).state.isAwake = true) : u.procs p = t.procs p := by
  refine hf.other p ?_ ?_
  · rintro rfl
    rcases hf.pc with hpc | ⟨stage', hpc⟩
    · rw [hpc] at hp
      cases hp
    · rw [hpc] at hp
      cases hp
      exact hq rfl
  · rintro rfl
    rw [hf.asleep] at ha
    cases ha

theorem parent_me (hq : (u.procs np).parent = some r) : r = me := by
  cases hf.fork with
  | works stage _ _ stageOk => exact stageOk.parent_eq hq
  | fails _ _ owns => exact absurd (owns.1.symm.trans hq) (by simp)
  | child _ _ _ owns => exact (Option.some.inj (owns.1.symm.trans hq)).symm

variable (h : Tree t)
include h

theorem ne_init : np ≠ t.initproc := by
  rintro rfl
  have hasleep := hf.asleep
  rw [h.init.1] at hasleep
  cases hasleep

theorem unused (hq : (u.procs q).state = .UNUSED) :
    (u.procs q).parent = none ∧ (u.procs q).kstack = false ∧ (u.procs q).pgdir = false := by
  by_cases hqn : q = np
  · subst hqn
    cases hf.fork with
    | works _ _ state _ | child _ state _ _ => rw [state] at hq; cases hq
    | fails _ _ owns => exact owns
  obtain ⟨h1, h2, h3, h4⟩ := hf.place hqn
  rw [h1] at hq
  rw [h2, h3, h4]
  exact h.unused q hq

theorem embryo (hq : (u.procs q).state = .EMBRYO) :
    ∃ p stage, (u.procs p).pc = .forking q stage ∧ (u.procs p).state.isAwake = true := by
  by_cases hqn : q = np
  · subst hqn
    cases hf.fork with
    | works stage pc _ _ => exact ⟨me, stage, pc, by rw [hf.state_me]; rfl⟩
    | fails _ state _ | child _ state _ _ => rw [state] at hq; cases hq
  rw [(hf.place hqn).1] at hq
  obtain ⟨p, stage, hp, ha⟩ := h.embryo q hq
  have hsame := hf.after hqn hp ha
  exact ⟨p, stage, by rwa [hsame], by rwa [hsame]⟩

theorem forking (hp : (u.procs p).pc = .forking q stage)
    (ha : (u.procs p).state.isAwake = true) :
    (u.procs q).state = .EMBRYO ∧ (u.procs q).StageOk p stage := by
  rcases hf.before hp ha with ⟨rfl, rfl⟩ | ⟨hqn, hp, ha⟩
  · cases hf.fork with
    | works stage' pc state stageOk =>
      rw [pc] at hp
      cases hp
      exact ⟨state, stageOk⟩
    | fails pc _ _ | child pc _ _ _ => rw [pc] at hp; cases hp
  obtain ⟨he, hs⟩ := h.forking p q stage hp ha
  have hqm : q ≠ me := by
    rintro rfl
    rw [hf.running] at he
    cases he
  rw [hf.other q hqm hqn]
  exact ⟨he, hs⟩

theorem child (hq : (u.procs q).parent = some r) : (u.procs r).state.isAwake = true := by
  by_cases hqn : q = np
  · subst hqn
    rw [hf.parent_me hq, hf.state_me]
    rfl
  rw [(hf.place hqn).2.1] at hq
  have hrn : r ≠ np := by
    rintro rfl
    have hasleep := hf.asleep
    rw [h.child q r hq] at hasleep
    cases hasleep
  rw [(hf.place hrn).1]
  exact h.child q r hq

theorem live (hq : (u.procs q).state.isAwake = true ∨ (u.procs q).state = .ZOMBIE) :
    (u.procs q).kstack = true ∧ (u.procs q).pgdir = true ∧
      (q ≠ t.initproc → (u.procs q).parent.isSome = true) := by
  by_cases hqn : q = np
  · subst hqn
    cases hf.fork with
    | works _ _ state _ | fails _ state _ => rw [state] at hq; rcases hq with hq | hq <;> cases hq
    | child _ _ _ owns => exact ⟨owns.2.1, owns.2.2, fun _ => by rw [owns.1]; rfl⟩
  obtain ⟨h1, h2, h3, h4⟩ := hf.place hqn
  rw [h1] at hq
  rw [h2, h3, h4]
  exact h.live q hq

theorem closing (hp : (u.procs p).pc.isClosing = true) (ha : (u.procs p).state.isAwake = true) :
    p ≠ t.initproc := by
  by_cases hpn : p = np
  · rw [hpn]
    exact hf.ne_init h
  by_cases hpm : p = me
  · subst hpm
    cases hf.fork with
    | works _ pc _ _ | fails pc _ _ | child pc _ _ _ => rw [pc] at hp; cases hp
  · rw [hf.other p hpm hpn] at hp ha
    exact h.closing p hp ha

end Table.Forked

theorem Tree.fork (h : Tree t) (hf : t.Forked me np u) : Tree u where
  init := by
    obtain ⟨h1, h2, -⟩ := hf.place (hf.ne_init h).symm
    rw [hf.init, h1, h2]
    exact h.init
  unused q := hf.unused h
  embryo q := hf.embryo h
  forking p q stage := hf.forking h
  unique p p' q stage stage' hp hp' ha ha' := by
    rcases hf.before hp ha with ⟨rfl, rfl⟩ | ⟨hqn, hp, ha⟩
    · rcases hf.before hp' ha' with ⟨rfl, -⟩ | ⟨hqn, -⟩
      · rfl
      · exact absurd rfl hqn
    rcases hf.before hp' ha' with ⟨-, rfl⟩ | ⟨-, hp', ha'⟩
    · exact absurd rfl hqn
    · exact h.unique p p' q stage stage' hp hp' ha ha'
  child q r := hf.child h
  live q hq := by
    rw [hf.init]
    exact hf.live h hq
  closing p hp ha := by
    rw [hf.init]
    exact hf.closing h hp ha

/-! ## Exit -/

/-- Nothing happened to the process, or it was woken up on `chan`. -/
def Proc.Wakes (chan : Option Chan) (p q : Proc) : Prop :=
  q = p ∨ p.state = .SLEEPING ∧ p.chan = chan ∧ q = { p with state := .RUNNABLE }

theorem wakeup1_wakes (t : Table) (chan : Option Chan) (q : Slot) :
    (t.procs q).Wakes chan ((t.wakeup1 chan).procs q) := by
  simp only [Table.wakeup1, Table.all]
  split
  · rename_i h
    exact .inr ⟨h.1, h.2, rfl⟩
  · exact .inl rfl

theorem Proc.Wakes.keeps {p : Proc} (h : p.Wakes chan q) : p.Keeps q := by
  rcases h with rfl | ⟨hs, -, rfl⟩
  · exact .refl _
  · exact Proc.keeps_of_asleep hs

theorem wakeup1_keeps (t : Table) (chan : Option Chan) (q : Slot) :
    (t.procs q).Keeps ((t.wakeup1 chan).procs q) :=
  (wakeup1_wakes t chan q).keeps

/-- Two calls of `wakeup1` on one channel wake what one does. -/
theorem Proc.Wakes.trans {p r : Proc} (h : p.Wakes chan q) (h' : q.Wakes chan r) :
    p.Wakes chan r := by
  rcases h with rfl | ⟨hs, hc, rfl⟩
  · exact h'
  rcases h' with rfl | ⟨hs', -, -⟩
  · exact .inr ⟨hs, hc, rfl⟩
  · cases hs'

theorem Proc.Wakes.field {α : Type} (F : Proc → α)
    (hF : ∀ p : Proc, F { p with state := .RUNNABLE } = F p) {p : Proc}
    (h : p.Wakes chan q) : F q = F p := by
  rcases h with rfl | ⟨-, -, rfl⟩
  · rfl
  · exact hF p

/-- The child of `me` gets a new parent. -/
def Proc.handed (me init : Slot) (p : Proc) : Proc :=
  if p.parent = some me then { p with parent := some init } else p

section

variable {me init : Slot} {p : Proc}

theorem Proc.handed_field {α : Type} (F : Proc → α)
    (hF : ∀ (p : Proc) r, F { p with parent := r } = F p) : F (p.handed me init) = F p := by
  unfold Proc.handed
  split
  · exact hF p _
  · rfl

@[simp] theorem Proc.handed_state : (p.handed me init).state = p.state :=
  handed_field state fun _ _ => rfl
@[simp] theorem Proc.handed_sig : (p.handed me init).sig = p.sig := handed_field sig fun _ _ => rfl
@[simp] theorem Proc.handed_chan : (p.handed me init).chan = p.chan :=
  handed_field chan fun _ _ => rfl
@[simp] theorem Proc.handed_kstack : (p.handed me init).kstack = p.kstack :=
  handed_field kstack fun _ _ => rfl
@[simp] theorem Proc.handed_pgdir : (p.handed me init).pgdir = p.pgdir :=
  handed_field pgdir fun _ _ => rfl
@[simp] theorem Proc.handed_pc : (p.handed me init).pc = p.pc := handed_field pc fun _ _ => rfl

end

theorem Proc.handed_wakes (me init : Slot) {p : Proc} (h : p.Wakes chan q) :
    (p.handed me init).Wakes chan (q.handed me init) := by
  rcases h with rfl | ⟨hs, hc, rfl⟩
  · exact .inl rfl
  unfold Proc.handed
  by_cases hp : p.parent = some me
  · rw [if_pos hp, if_pos (show ({ p with state := .RUNNABLE } : Proc).parent = some me from hp)]
    exact .inr ⟨hs, hc, rfl⟩
  · rw [if_neg hp, if_neg (show ¬ ({ p with state := .RUNNABLE } : Proc).parent = some me from hp)]
    exact .inr ⟨hs, hc, rfl⟩

/-- The loop of `exit` has gone over `ps`: the children there have been handed to `init`, which may
    have been woken up. -/
structure Adopts (me : Slot) (ps : List Slot) (t u : Table) : Prop where
  initproc : u.initproc = t.initproc
  births : u.births = t.births
  reaped : u.reaped = t.reaped
  wakes : ∀ q, ((t.procs q).handed me t.initproc).Wakes (some (.proc t.initproc))
    ((u.procs q).handed me t.initproc)
  parent : ∀ q, q ∈ ps ∨ (t.procs q).parent ≠ some me → (u.procs q).parent ≠ some me

theorem Adopts.trans {ps ps' : List Slot} {v : Table} (h : Adopts me ps t u)
    (h' : Adopts me ps' u v) : Adopts me (ps ++ ps') t v := by
  refine ⟨h'.initproc.trans h.initproc, h'.births.trans h.births,
    h'.reaped.trans h.reaped, fun q => ?_, fun q hq => h'.parent q ?_⟩
  · have := h'.wakes q
    rw [h.initproc] at this
    exact (h.wakes q).trans this
  · rw [List.mem_append, or_right_comm] at hq
    exact hq.elim (fun hq => .inr (h.parent q hq)) .inl

theorem Adopts.wakeup {ps : List Slot} (h : Adopts me ps t u) :
    Adopts me ps t (u.wakeup1 (some (.proc t.initproc))) := by
  refine ⟨h.initproc, h.births, h.reaped, fun q => ?_, fun q hq => ?_⟩
  · exact (h.wakes q).trans (Proc.handed_wakes me t.initproc (wakeup1_wakes u _ q))
  · rw [(wakeup1_keeps u _ q).stays.parent]
    exact h.parent q hq

theorem Adopts.round (hme : me ≠ t.initproc) (hp : (t.procs p).parent = some me) :
    Adopts me [p] t (t.on p fun q => { q with parent := some t.initproc }) := by
  have hnew : some t.initproc ≠ some me := fun h => hme (Option.some.inj h).symm
  refine ⟨rfl, rfl, rfl, fun q => .inl ?_, fun q hq => ?_⟩
  · refine on_cases q ?_ fun _ => ?_
    · rw [Proc.handed, Proc.handed, if_neg hnew, if_pos hp]
    · rfl
  · refine on_cases q ?_ fun hqp => ?_
    · exact hnew
    · exact hq.resolve_left (fun h => hqp (List.mem_singleton.mp h))

theorem adopt_spec (ps : List Slot) (hme : me ≠ t.initproc) :
    Adopts me ps t (Table.adopt me ps t) := by
  induction ps generalizing t with
  | nil => exact ⟨rfl, rfl, rfl, fun q => .inl rfl, fun q hq => hq.resolve_left List.not_mem_nil⟩
  | cons p ps ih =>
    have hround : ∀ v, Adopts me [p] t v → Adopts me (p :: ps) t (Table.adopt me ps v) := by
      intro v hv
      exact hv.trans (ih (hv.initproc ▸ hme))
    unfold Table.adopt
    by_cases hp : (t.procs p).parent = some me
    · rw [if_pos hp]
      by_cases hz : (t.procs p).state = .ZOMBIE
      · simp only [if_pos hz]
        exact hround _ (Adopts.round hme hp).wakeup
      · simp only [if_neg hz]
        exact hround _ (Adopts.round hme hp)
    rw [if_neg hp]
    refine hround t ⟨rfl, rfl, rfl, fun q => .inl rfl, fun q hq => hq.elim (fun h => ?_) id⟩
    rw [List.mem_singleton.mp h]
    exact hp

/-- Without a zombie among the children nobody is woken up. -/
theorem adopt_calm {ps : List Slot} (hme : me ≠ t.initproc)
    (hno : ∀ z ∈ ps, (t.procs z).parent = some me → (t.procs z).state ≠ .ZOMBIE) (q : Slot) :
    ((Table.adopt me ps t).procs q).state = (t.procs q).state := by
  induction ps generalizing t with
  | nil => rfl
  | cons p ps ih =>
    unfold Table.adopt
    have hno' : ∀ z ∈ ps, (t.procs z).parent = some me → (t.procs z).state ≠ .ZOMBIE :=
      fun z hz => hno z (.tail _ hz)
    by_cases hp : (t.procs p).parent = some me
    · simp only [if_pos hp, if_neg (hno p List.mem_cons_self hp)]
      rw [ih (t := t.on p fun q => { q with parent := some t.initproc }) hme fun z hz hpar => ?_]
      · exact on_field Proc.state rfl q
      · have hzp : z ≠ p := by
          rintro rfl
          rw [on_self] at hpar
          exact hme (Option.some.inj hpar).symm
        rw [on_ne hzp] at hpar ⊢
        exact hno' z hz hpar
    · rw [if_neg hp]
      exact ih hme hno'

theorem mem_slots (q : Slot) : q ∈ slots := List.mem_finRange q

section

variable (hme : me ≠ t.initproc)
include hme

theorem adopt_no_child (q : Slot) : ((Table.adopt me slots t).procs q).parent ≠ some me :=
  (adopt_spec slots hme).parent q (.inl (mem_slots q))

theorem adopt_procs (q : Slot) :
    ((t.procs q).handed me t.initproc).Wakes (some (.proc t.initproc))
    ((Table.adopt me slots t).procs q) := by
  have h := (adopt_spec slots hme).wakes q
  rwa [Proc.handed.eq_def me _ ((Table.adopt me slots t).procs q),
    if_neg (adopt_no_child hme q)] at h

theorem adopt_pc (q : Slot) : ((Table.adopt me slots t).procs q).pc = (t.procs q).pc := by
  rw [(adopt_procs hme q).field Proc.pc fun _ => rfl, Proc.handed_pc]

end

section

variable (h : Tree t)
include h

theorem Tree.handed (hpc : (t.procs me).pc.isClosing = true) :
    Tree { t with procs := fun q => (t.procs q).handed me t.initproc } := by
  have hkept : ∀ q, (t.procs q).parent ≠ some me → (t.procs q).handed me t.initproc = t.procs q :=
    fun q hq => if_neg hq
  have hchild : ∀ q, (t.procs q).parent = some me →
      ((t.procs q).handed me t.initproc).parent = some t.initproc := by
    intro q hq
    rw [Proc.handed, if_pos hq]
  refine ⟨?_, fun q hq => ?_, ?_, fun p np stage hp ha => ?_,
    ?_, fun q r hq => ?_, fun q hq => ?_, ?_⟩ <;>
    simp only [Proc.handed_state, Proc.handed_kstack, Proc.handed_pgdir, Proc.handed_pc] at *
  · rw [hkept _ (by rw [h.init.2]; exact nofun)]
    exact h.init
  · have hq := h.unused q hq
    rw [hkept q (by rw [hq.1]; exact nofun)]
    exact hq
  · exact h.embryo
  · obtain ⟨he, hs⟩ := h.forking p np stage hp ha
    -- the slot is not a child of `me`, which is not in `fork`
    have hnot : (t.procs np).parent ≠ some me := by
      intro hpar
      rw [hs.parent_eq hpar, hp] at hpc
      cases hpc
    rw [hkept np hnot]
    exact ⟨he, hs⟩
  · exact h.unique
  · by_cases hqm : (t.procs q).parent = some me
    · rw [hchild q hqm] at hq
      rw [← Option.some.inj hq]
      exact h.init.1
    · rw [hkept q hqm] at hq
      exact h.child q r hq
  · obtain ⟨hk, hd, hp⟩ := h.live q hq
    refine ⟨hk, hd, fun hne => ?_⟩
    by_cases hqm : (t.procs q).parent = some me
    · rw [hchild q hqm]
      rfl
    · rw [hkept q hqm]
      exact hp hne
  · exact h.closing

theorem Tree.adopt (hme : me ≠ t.initproc) (hpc : (t.procs me).pc.isClosing = true) :
    Tree (Table.adopt me slots t) :=
  (h.handed hpc).stays (adopt_spec slots hme).initproc fun q => (adopt_procs hme q).keeps.stays

/-- A process without children leaves: it is a zombie, or its slot is free and owns nothing. -/
theorem Tree.leave (hinit : p ≠ t.initproc)
    (hstate : (t.procs p).state.isAwake = true ∨ (t.procs p).state = .ZOMBIE)
    (hfork : ∀ np stage, (t.procs p).pc = .forking np stage →
      (t.procs p).state.isAwake = false) (hno : ∀ q, (t.procs q).parent ≠ some p)
    (hleft : (f (t.procs p)).state = .UNUSED ∧ (f (t.procs p)).parent = none ∧
      (f (t.procs p)).kstack = false ∧ (f (t.procs p)).pgdir = false ∨
      (f (t.procs p)).state = .ZOMBIE ∧ (f (t.procs p)).parent = (t.procs p).parent ∧
        (f (t.procs p)).kstack = (t.procs p).kstack ∧
        (f (t.procs p)).pgdir = (t.procs p).pgdir) : Tree (t.on p f) := by
  set u := t.on p f with hu
  have hself : u.procs p = f (t.procs p) := on_self
  have hother : ∀ q, q ≠ p → u.procs q = t.procs q := fun q => on_ne
  have hback : ∀ q, (u.procs q).state.isAwake = true → q ≠ p := by
    rintro q ha rfl
    rw [hself] at ha
    rcases hleft with hl | hl <;> rw [hl.1] at ha <;> cases ha
  have hnotembryo : (u.procs p).state ≠ .EMBRYO ∧ (t.procs p).state ≠ .EMBRYO := by
    constructor
    · intro he
      rw [hself] at he
      rcases hleft with hl | hl <;> rw [hl.1] at he <;> cases he
    · intro he
      rw [he] at hstate
      rcases hstate with hs | hs <;> cases hs
  refine ⟨?_, fun q hq => ?_, fun q hq => ?_, fun q np stage hq ha => ?_,
    fun q q' np stage stage' hq hq' ha ha' => ?_,
    fun q r hq => ?_, fun q hq => ?_, fun q hq ha => ?_⟩
  · show (u.procs t.initproc).state.isAwake = true ∧ (u.procs t.initproc).parent = none
    rw [hother _ hinit.symm]
    exact h.init
  · by_cases hqp : q = p
    · subst hqp
      rw [hself] at hq ⊢
      rcases hleft with hl | hl
      · exact hl.2
      · rw [hl.1] at hq
        cases hq
    · rw [hother q hqp] at hq ⊢
      exact h.unused q hq
  · have hqp : q ≠ p := by
      rintro rfl
      exact hnotembryo.1 hq
    rw [hother q hqp] at hq
    obtain ⟨r, stage, hr, ha⟩ := h.embryo q hq
    have hrp : r ≠ p := by
      rintro rfl
      rw [hfork q stage hr] at ha
      cases ha
    rw [← hother r hrp] at hr ha
    exact ⟨r, stage, hr, ha⟩
  · rw [hother q (hback q ha)] at hq ha
    obtain ⟨he, hs⟩ := h.forking q np stage hq ha
    have hnp : np ≠ p := by
      rintro rfl
      exact hnotembryo.2 he
    rw [hother np hnp]
    exact ⟨he, hs⟩
  · rw [hother q (hback q ha)] at hq ha
    rw [hother q' (hback q' ha')] at hq' ha'
    exact h.unique q q' np stage stage' hq hq' ha ha'
  · have hq' : (t.procs q).parent = some r := by
      by_cases hqp : q = p
      · subst hqp
        rw [hself] at hq
        rcases hleft with hl | hl
        · rw [hl.2.1] at hq
          cases hq
        · rwa [hl.2.1] at hq
      · rwa [hother q hqp] at hq
    have hrp : r ≠ p := by
      rintro rfl
      exact hno q hq'
    rw [hother r hrp]
    exact h.child q r hq'
  · by_cases hqp : q = p
    · subst hqp
      rw [hself] at hq ⊢
      rcases hleft with hl | hl
      · rw [hl.1] at hq
        rcases hq with hq | hq <;> cases hq
      · rw [hl.2.1, hl.2.2.1, hl.2.2.2]
        exact h.live q hstate
    · rw [hother q hqp] at hq ⊢
      exact h.live q hq
  · rw [hother q (hback q ha)] at hq ha
    exact h.closing q hq ha

theorem Tree.zombie (hrun : (t.procs me).state = .RUNNING) (hme : me ≠ t.initproc)
    (hpc : (t.procs me).pc.isClosing = true) (hno : ∀ q, (t.procs q).parent ≠ some me) :
    Tree (t.on me fun q => { q with state := .ZOMBIE, pc := .gone }) := by
  refine h.leave hme (.inl (by rw [hrun]; rfl)) (fun np stage hp => ?_)
    hno (.inr ⟨rfl, rfl, rfl, rfl⟩)
  rw [hp] at hpc
  cases hpc

theorem Tree.reap (hrun : (t.procs me).state = .RUNNING) (hpc : (t.procs me).pc.isFree = true)
    (hz : (t.procs p).state = .ZOMBIE) : Tree (t.reap me p) := by
  have hasleep : (t.procs p).state.isAwake = false := by rw [hz]; rfl
  have hpm : p ≠ me := by
    rintro rfl
    rw [hrun] at hz
    cases hz
  have hinit : p ≠ t.initproc := by
    rintro rfl
    rw [h.init.1] at hasleep
    cases hasleep
  have hno : ∀ q, (t.procs q).parent ≠ some p := by
    intro q hq
    rw [h.child q p hq] at hasleep
    cases hasleep
  -- the zombie leaves, then the parent goes on
  have hleft :=
    h.leave (f := Proc.freed) hinit (.inr hz) (fun _ _ _ => hasleep) hno (.inl ⟨rfl, rfl, rfl, rfl⟩)
  have hgoes : (t.on p Proc.freed).Goes me .user :=
    .inr ⟨by rw [on_ne hpm.symm]; exact hpc, rfl, nofun⟩
  have hdone := hleft.goes me (f := Proc.waited) hgoes rfl (.refl _) rfl rfl rfl
  exact hdone.stays rfl fun q => .refl _

end

/-! ## Every change -/

theorem fork_procs (hne : np ≠ me) (f g : Proc → Proc) :
    ((t.on np f).on me g).procs me = g (t.procs me) ∧
      ((t.on np f).on me g).procs np = f (t.procs np) ∧
      ∀ q, q ≠ me → q ≠ np → ((t.on np f).on me g).procs q = t.procs q := by
  refine ⟨?_, ?_, fun q hq hq' => ?_⟩
  · rw [on_self, on_ne hne.symm]
  · rw [on_ne hne, on_self]
  · rw [on_ne hq, on_ne hq']

theorem Tree.forks (h : Tree t) {stage : Stage} (hf : t.Forks me np stage)
    (hfork : Fork me np ((t.procs me).atPc pc) (f (t.procs np))) :
    Tree ((t.on np f).on me (Proc.atPc pc)) := by
  obtain ⟨hrun, hpc, he⟩ := hf
  have hawake : (t.procs me).state.isAwake = true := by rw [hrun]; rfl
  have hne : np ≠ me := by
    rintro rfl
    rw [hrun] at he
    cases he
  obtain ⟨h1, h2, h3⟩ := fork_procs hne f (Proc.atPc pc)
  have hclaim : ∀ p stage', (t.procs p).pc = .forking np stage' →
      (t.procs p).state.isAwake = true → p = me :=
    fun p stage' hp ha => h.unique p me np stage' stage hp hpc ha hawake
  refine h.fork ⟨rfl, hrun, .inr ⟨stage, hpc⟩, .inr he, hclaim, h3, ⟨pc, h1⟩, ?_⟩
  rw [h1, h2]
  exact hfork

theorem Tree.alloc (h : Tree t) (hrun : (t.procs me).state = .RUNNING)
    (hpc : (t.procs me).pc = .user)
    (hnp : (t.procs np).state = .UNUSED) : Tree (Change.apply t (.alloc me np)) := by
  have hne : np ≠ me := by
    rintro rfl
    rw [hrun] at hnp
    cases hnp
  obtain ⟨h1, h2, h3⟩ :=
    fork_procs (t := t) hne (Proc.alloc t.nextpid t.births) (Proc.atPc (.forking np .stack))
  have hclaim : ∀ p stage, (t.procs p).pc = .forking np stage →
      (t.procs p).state.isAwake = true → p = me := fun p stage hp ha => by
    rw [(h.forking p np stage hp ha).1] at hnp
    cases hnp
  refine h.fork ⟨rfl, hrun, .inl hpc, .inl hnp, hclaim, h3, ⟨_, h1⟩, ?_⟩
  have hworks : Fork me np ((t.procs me).atPc (.forking np .stack))
      ((t.procs np).alloc t.nextpid t.births) :=
    .works .stack rfl rfl (h.unused np hnp)
  rw [← h1, ← h2] at hworks
  exact hworks

theorem Tree.change (h : Tree t) {c : Change} (hc : c.Fits t) : Tree (c.apply t) := by
  cases c with
  | wakeup chan => exact h.stays rfl fun q => (wakeup1_keeps t chan q).stays
  | run p =>
    refine h.on_stays p (fun q => { q with state := .RUNNING }) (Proc.stays_of_awake ?_ rfl)
    rw [show (t.procs p).state = .RUNNABLE from hc]
    rfl
  | yield me =>
    refine h.on_stays me (fun q => { q with state := .RUNNABLE }) (Proc.stays_of_awake ?_ rfl)
    rw [show (t.procs me).state = .RUNNING from hc]
    rfl
  | sleep me chan pc =>
    refine h.goes me (f := fun q => { q with chan := some chan, state := .SLEEPING, pc := pc })
      hc.2.1 rfl (.inr ⟨?_, rfl⟩) rfl rfl rfl
    rw [hc.1]
    rfl
  | move me pc =>
    exact h.goes me (f := fun q => { q with chan := none, pc := pc })
      hc.2.1 rfl (.refl _) rfl rfl rfl
  | alloc me np => exact h.alloc hc.1 hc.2.1 hc.2.2
  | noStack me np =>
    obtain ⟨hp, -, hd⟩ := (h.forking me np .stack hc.2.1 (by rw [hc.1]; rfl)).2
    exact h.forks hc (.fails rfl rfl ⟨hp, rfl, hd⟩)
  | stack me np =>
    obtain ⟨hp, -, hd⟩ := (h.forking me np .stack hc.2.1 (by rw [hc.1]; rfl)).2
    exact h.forks hc (.works .ids rfl hc.2.2 ⟨hp, rfl, hd⟩)
  | inherit me np =>
    exact h.forks hc (.works .vm rfl hc.2.2 (h.forking me np .ids hc.2.1 (by rw [hc.1]; rfl)).2)
  | noMemory me np =>
    obtain ⟨hp, -, -⟩ := (h.forking me np .vm hc.2.1 (by rw [hc.1]; rfl)).2
    exact h.forks hc (.fails rfl rfl ⟨hp, rfl, rfl⟩)
  | memory me np =>
    obtain ⟨-, hk, -⟩ := (h.forking me np .vm hc.2.1 (by rw [hc.1]; rfl)).2
    exact h.forks hc (.works .files rfl hc.2.2 ⟨rfl, hk, rfl⟩)
  | ready me np =>
    exact h.forks hc (.child rfl rfl rfl (h.forking me np .files hc.2.1 (by rw [hc.1]; rfl)).2)
  | notify parent =>
    exact h.on_stays parent (fun q => (q.post SIGCHLD).wake)
      ((Proc.post_keeps SIGCHLD _).trans (Proc.wake_keeps _)).stays
  | adopt me => exact h.adopt hc.1 hc.2.1
  | zombie me => exact h.zombie hc.1 hc.2.1 hc.2.2.1 hc.2.2.2
  | reap me p => exact h.reap hc.1 hc.2.1 hc.2.2.2
  | kill me pid sig =>
    exact h.stays (kill_initproc t me pid sig) fun q =>
      (kill_keeps t me pid sig q).stays
  | killPgrp pgrp sig => exact h.stays rfl fun q => (killPgrp_keeps t pgrp sig q).stays
  | tick me => exact h.on_stays me Proc.tick (Proc.tick_keeps _).stays
  -- what is left touches ids, signals and the exit status of one process
  | _ =>
    simp only [Change.apply]
    refine Tree.on_stays h _ _ ?_
    exact ⟨.refl _, rfl, rfl, rfl, rfl⟩

end Micro86.Ptable
