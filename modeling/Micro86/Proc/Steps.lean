import Micro86.Proc.Changes

/-!
# Steps as changes of the table

Every step that completes makes a list of changes, each where it fits, and leaves the lock and the
processor as they should be.

* `Settled` — one process runs and the lock is free, or the scheduler runs.
* `step_spec` — what one step does.
-/

namespace Micro86.Ptable

open Signal Exec

variable {t : Table} {c : Change} {Q : Unit → State → Prop} {pc : Pc}
  {cs : List Change} {me : Slot} {pid : Int32}

structure Settled (s : State) : Prop where
  running : ∀ p, (s.procs p).state = .RUNNING ↔ s.cpu = some p
  lock : s.cpu ≠ none → s.lock = false
  ncli : s.ncli = if s.lock then 1 else 0

theorem Change.running (hc : c.Fits t) (hs : c.isStill = true) (q : Slot) :
    ((c.apply t).procs q).state = .RUNNING ↔ (t.procs q).state = .RUNNING := by
  cases Change.became hc q with
  | keeps h _ => exact h.running
  | goes st chan pc _ still _ _ eq =>
    rw [eq, ← still hs]
  | works before after _ _ _ _ =>
    refine PState.neither_running (fun h => ?_) (fun h => ?_)
    · rw [h] at after
      rcases after with h | h | h
      · cases h
      · cases h
      · cases h.1
    · rw [h] at before
      rcases before with h | h
      · cases h
      · cases h
  | handed me _ wakes =>
    have := wakes.keeps.running
    rwa [Proc.handed_state] at this
  | zombie made _ =>
    rw [made] at hs
    cases hs
  | freed me made eq =>
    rw [made] at hc
    rw [eq]
    exact PState.neither_running nofun (by rw [hc.2.2.2]; decide)
  | waited z _ eq =>
    rw [eq]
    exact .rfl

/-! ## With the lock held -/

/-- Process `me` runs with the lock held, after the changes `cs` of the table `t`. -/
structure Mid (t : Table) (me : Slot) (cs : List Change) (s : State) : Prop where
  cpu : s.cpu = some me
  lock : s.lock = true
  ncli : s.ncli = 1
  others : ∀ p, (s.procs p).state = .RUNNING → p = me
  made : Run Makes t cs s.toTable

@[simp] theorem wp_change {E : String → Prop} {s : State} :
    wp (change c) Q E s ↔ Q () { s with toTable := c.apply s.toTable } := .rfl

/-- A step is over, with changes for which `P` holds. -/
def Done (t : Table) (P : List Change → Prop) (s : State) : Prop :=
  Settled s ∧ ∃ cs, Run Makes t cs s.toTable ∧ P cs

section

variable {t : Table} {me : Slot} {cs : List Change} {s : State}
  {P : List Change → Prop} {E : String → Prop}

theorem Settled.isRunning (h : Settled s) (hcpu : s.cpu = some me) :
    (s.procs me).state = .RUNNING := (h.running me).mpr hcpu

theorem Settled.changed (h : Settled s) (hc : c.Fits s.toTable) (hstill : c.isStill = true) :
    Settled { s with toTable := c.apply s.toTable } :=
  ⟨fun p => (Change.running hc hstill p).trans (h.running p), h.lock, h.ncli⟩

theorem Settled.wp_acquire (h : Settled s) (hcpu : s.cpu = some me)
    (hQ : Mid s.toTable me [] { s with lock := true, ncli := s.ncli + 1 } →
      Q () { s with lock := true, ncli := s.ncli + 1 }) :
    wp acquire Q E s := by
  have hlock : s.lock = false := h.lock (by rw [hcpu]; exact nofun)
  have hncli : s.ncli = 0 := by
    rw [h.ncli, hlock]
    rfl
  unfold wp acquire
  rw [if_neg (by rw [hlock]; decide)]
  refine hQ ⟨hcpu, rfl, ?_, fun p hp => ?_, .nil _⟩
  · show s.ncli + 1 = 1
    rw [hncli]
  · exact Option.some.inj (((h.running p).mp hp).symm.trans hcpu)

variable (h : Mid t me cs s)
include h

theorem Mid.changed (hc : c.Fits s.toTable)
    (hrun : ∀ p, ((c.apply s.toTable).procs p).state = .RUNNING → p = me) :
    Mid t me (cs ++ [c]) { s with toTable := c.apply s.toTable } :=
  ⟨h.cpu, h.lock, h.ncli, hrun, h.made.snoc ⟨hc, rfl⟩⟩

theorem Mid.still (hc : c.Fits s.toTable) (hstill : c.isStill = true) :
    Mid t me (cs ++ [c]) { s with toTable := c.apply s.toTable } :=
  h.changed hc fun p hp => h.others p ((Change.running hc hstill p).mp hp)

theorem Mid.wp_release (hrun : (s.procs me).state = .RUNNING) (hP : P cs) :
    wp release (fun _ u => Done t P u) E s := by
  unfold wp release
  rw [if_pos h.lock]
  refine ⟨⟨fun p => ?_, fun _ => rfl, ?_⟩, cs, h.made, hP⟩
  · refine ⟨fun hp => ?_, fun hp => ?_⟩
    · rw [h.others p hp]
      exact h.cpu
    · rw [show p = me from Option.some.inj (hp.symm.trans h.cpu)]
      exact hrun
  · show s.ncli - 1 = 0
    rw [h.ncli]

theorem Mid.wp_sched (hrun : (s.procs me).state ≠ .RUNNING) (hP : P cs) :
    wp (sched me) (fun _ u => Done t P u) E s := by
  unfold sched
  rw [wp_bind, wp_get, if_neg (by rw [h.lock]; decide),
    if_neg (by rw [h.ncli]; decide), if_neg hrun]
  refine ⟨⟨fun p => ⟨fun hp => ?_, nofun⟩, absurd rfl, ?_⟩, cs, h.made, hP⟩
  · exact absurd (h.others p hp ▸ hp) hrun
  · show s.ncli = if s.lock then 1 else 0
    rw [h.ncli, h.lock]
    rfl

theorem Mid.wp_sleepLocked {chan : Chan} (hc : (Change.sleep me chan pc).Fits s.toTable)
    (hP : P (cs ++ [.sleep me chan pc])) :
    wp (sleepLocked me chan pc) (fun _ u => Done t P u) E s := by
  have hself : (((Change.sleep me chan pc).apply s.toTable).procs me).state = .SLEEPING := by
    simp [Change.apply]
  have hother : ∀ p, p ≠ me → ((Change.sleep me chan pc).apply s.toTable).procs p = s.procs p := by
    intro p hp
    simp [Change.apply, on_ne hp]
  unfold sleepLocked
  rw [wp_bind, wp_change]
  refine (h.changed hc fun p hp => ?_).wp_sched ?_ hP
  · by_contra hne
    rw [hother p hne] at hp
    exact hne (h.others p hp)
  · show (((Change.sleep me chan pc).apply s.toTable).procs me).state ≠ .RUNNING
    rw [hself]
    decide

end

/-! ## Calls -/

/-- Changes that post no signal from outside, set no mask or handler, and give none to a process or
    end it. -/
def Change.isQuiet : Change → Bool
  | .notify _ => false
  | .inherit _ _ => false
  | .adopt _ => false
  | .zombie _ => false
  | .kill _ _ _ => false
  | .killPgrp _ _ => false
  | .tick _ => false
  | .ctrlAltDel _ => false
  | .vhangup _ => false
  | .raise _ => false
  | .dosignal _ _ => false
  | .sigmask _ _ => false
  | .sigaction _ _ _ _ => false
  | .exec _ _ => false
  | _ => true

def Quiet (cs : List Change) : Prop := ∀ c ∈ cs, c.isQuiet = true

theorem Quiet.nil : Quiet [] := fun _ h => nomatch h

theorem Quiet.snoc (h : Quiet cs) (hc : c.isQuiet = true) : Quiet (cs ++ [c]) := by
  intro d hd
  rcases List.mem_append.mp hd with hd | hd
  · exact h d hd
  · rw [List.mem_singleton.mp hd]
    exact hc

/-- A child that `waitpid(pid)` is for. -/
def Table.Matches (t : Table) (me : Slot) (pid : Int32) (p : Slot) : Prop :=
  (t.procs p).parent = some me ∧ ¬ (pid > 0 ∧ (t.procs p).pid ≠ pid)

theorem scan_some {p : Slot} {ps : List Slot} {havekids b : Bool}
    (h : t.scan me pid ps havekids = (some p, b)) :
    t.Matches me pid p ∧ (t.procs p).state = .ZOMBIE := by
  induction ps generalizing havekids with
  | nil => cases h
  | cons q ps ih =>
    unfold Table.scan at h
    split at h
    · exact ih h
    rename_i hpar
    split at h
    · exact ih h
    rename_i hpid
    split at h
    · rename_i hz
      cases h
      exact ⟨⟨not_not.mp hpar, hpid⟩, hz⟩
    · exact ih h

theorem scan_none {ps : List Slot} {havekids b : Bool} (h : t.scan me pid ps havekids = (none, b)) :
    (b = true ↔ havekids = true ∨ ∃ q ∈ ps, (t.procs q).parent = some me) ∧
    ∀ q ∈ ps, t.Matches me pid q → (t.procs q).state ≠ .ZOMBIE := by
  induction ps generalizing havekids with
  | nil =>
    cases h
    exact ⟨⟨.inl, fun h => h.elim id fun ⟨q, hq, _⟩ => nomatch hq⟩, fun q hq => nomatch hq⟩
  | cons q ps ih =>
    unfold Table.scan at h
    split at h
    · rename_i hpar
      obtain ⟨hb, hno⟩ := ih h
      rw [hb, List.exists_mem_cons_iff]
      refine ⟨or_congr_right ⟨.inr, fun h => h.resolve_left hpar⟩,
        List.forall_mem_cons.mpr ⟨fun hm => absurd hm.1 hpar, hno⟩⟩
    rename_i hpar
    have hchild : ∃ q' ∈ q :: ps, (t.procs q').parent = some me := ⟨q, .head _, not_not.mp hpar⟩
    have htrue :
        t.scan me pid ps true = (none, b) → (t.Matches me pid q → (t.procs q).state ≠ .ZOMBIE) →
        (b = true ↔ havekids = true ∨ ∃ q' ∈ q :: ps, (t.procs q').parent = some me) ∧
          ∀ q' ∈ q :: ps, t.Matches me pid q' → (t.procs q').state ≠ .ZOMBIE :=
      fun h hq => ⟨⟨fun _ => .inr hchild, fun _ => (ih h).1.mpr (.inl rfl)⟩,
        List.forall_mem_cons.mpr ⟨hq, (ih h).2⟩⟩
    split at h
    · rename_i hpid
      exact htrue h fun hm => absurd hpid hm.2
    split at h
    · cases h
    · rename_i hz
      exact htrue h fun _ => hz

section

variable {t : Table} {me : Slot} {cs : List Change} {s : State}
  {P : List Change → Prop} {E : String → Prop}

theorem Mid.wp_moveRelease (h : Mid t me cs s) (hc : (Change.move me pc).Fits s.toTable)
    (hP : P (cs ++ [.move me pc])) :
    wp (do change (.move me pc); release) (fun _ u => Done t P u) E s := by
  rw [wp_bind, wp_change]
  exact (h.still hc rfl).wp_release ((Change.running hc rfl me).mpr hc.1) hP

theorem Mid.wp_waitpidLoop (h : Mid t me cs s) {options : Nat}
    (hrun : (s.procs me).state = .RUNNING)
    (hpc : (s.procs me).pc = .user ∨ (s.procs me).pc = .waiting pid options) (hq : Quiet cs) :
    wp (waitpidLoop me pid options) (fun _ u => Done t Quiet u) E s := by
  have hfree : (s.procs me).pc.isFree = true := by
    rcases hpc with hpc | hpc <;> rw [hpc] <;> rfl
  have huser : s.Goes me .user := .inr ⟨hfree, rfl, nofun⟩
  -- a process that has slept in `waitpid` leaves it only if it need not wait
  have hpatient : ¬ (options % 2 = 0 ∧ ∃ q, (s.procs q).parent = some me) → s.Patient me .user := by
    refine fun hno => .inr ⟨trivial, fun hw => ?_⟩
    rcases hpc with hpc | hpc
    · rw [hpc] at hw
      cases hw
    · rw [hpc]
      exact hno
  unfold waitpidLoop
  rw [wp_bind, wp_get]
  split
  · rename_i p b hscan
    obtain ⟨⟨hpar, -⟩, hz⟩ := scan_some hscan
    have hfit : (Change.reap me p).Fits s.toTable := ⟨hrun, hfree, hpar, hz⟩
    rw [wp_bind, wp_change]
    exact (h.still hfit rfl).wp_release ((Change.running hfit rfl me).mpr hrun) (hq.snoc rfl)
  · rename_i hscan
    refine h.wp_moveRelease ⟨hrun, huser, hpatient ?_⟩ (hq.snoc rfl)
    rintro ⟨-, q, hchild⟩
    exact nomatch (scan_none hscan).1.mpr (.inr ⟨q, mem_slots q, hchild⟩)
  rename_i hscan
  split
  · rename_i hnohang
    refine h.wp_moveRelease ⟨hrun, huser, hpatient ?_⟩ (hq.snoc rfl)
    rintro ⟨heven, -⟩
    rw [hnohang] at heven
    cases heven
  refine h.wp_sleepLocked ⟨hrun, .inr ⟨hfree, rfl, nofun⟩, ?_,
    fun r hr => by cases hr; rfl⟩ (hq.snoc rfl)
  rcases hpc with hpc | hpc
  · obtain ⟨q, -, hchild⟩ := ((scan_none hscan).1.mp rfl).resolve_left nofun
    refine .inr ⟨⟨by omega, q, hchild⟩, fun hw => ?_⟩
    rw [hpc] at hw
    cases hw
  · exact .inl hpc.symm

theorem Mid.wp_suspendLoop (h : Mid t me cs s) {newmask : UInt32}
    (hrun : (s.procs me).state = .RUNNING) (hpc : (s.procs me).pc.isFree = true)
    (hwait : (s.procs me).pc.isWaiting = false)
    (hsleep : P (cs ++ [.sleep me (.proc me) (.suspended newmask)]))
    (hmove : P (cs ++ [.move me (.woken newmask)])) :
    wp (suspendLoop me newmask) (fun _ u => Done t P u) E s := by
  unfold suspendLoop
  rw [wp_bind, wp_get]
  split
  · exact h.wp_sleepLocked ⟨hrun, Or.inr ⟨hpc, rfl, fun h => nomatch h⟩,
      Table.patient hwait rfl, fun r hr => by cases hr; rfl⟩ hsleep
  · exact h.wp_moveRelease ⟨hrun, .inr ⟨hpc, rfl, fun h => nomatch h⟩,
      Table.patient hwait rfl⟩ hmove

theorem Settled.wp_locked (h : Settled s) (hcpu : s.cpu = some me)
    (hc : c.Fits s.toTable) (hstill : c.isStill = true) (hP : P [c]) :
    wp (locked c) (fun _ u => Done s.toTable P u) E s := by
  unfold locked
  rw [wp_bind]
  refine h.wp_acquire hcpu fun hm => ?_
  rw [wp_bind, wp_change]
  refine (hm.still hc hstill).wp_release ?_ hP
  exact (Change.running hc hstill me).mpr (h.isRunning hcpu)

theorem Settled.wp_change (h : Settled s) (hc : c.Fits s.toTable)
    (hstill : c.isStill = true) (hP : P [c]) : wp (change c) (fun _ u => Done s.toTable P u) E s :=
  ⟨h.changed hc hstill, [c], .cons ⟨hc, rfl⟩ (.nil _), hP⟩

end

/-! ## The scheduler, `fork` and `exit` -/

section

variable {t : Table} {me : Slot} {cs : List Change} {s : State}
  {P : List Change → Prop} {E : String → Prop}

theorem wp_yield (h : Settled s) (hcpu : s.cpu = some me) :
    wp (yield me) (fun _ u => Done s.toTable Quiet u) E s := by
  have hself : (((Change.yield me).apply s.toTable).procs me).state = .RUNNABLE := by
    simp [Change.apply]
  unfold yield
  rw [wp_bind]
  refine h.wp_acquire hcpu fun hm => ?_
  rw [wp_bind, wp_change]
  refine (hm.changed (c := .yield me) (h.isRunning hcpu) fun p hp => ?_).wp_sched
    ?_ (Quiet.nil.snoc rfl)
  · by_contra hne
    simp only [Change.apply, on_ne hne] at hp
    exact hne (hm.others p hp)
  · show (((Change.yield me).apply s.toTable).procs me).state ≠ .RUNNING
    rw [hself]
    decide

theorem wp_sleep (h : Settled s) (hcpu : s.cpu = some me) {chan : Chan}
    (hchan : ∀ r, chan = .proc r → r = me) :
    wp (sleep me chan) (fun _ u => Done s.toTable Quiet u) E s := by
  unfold sleep
  rw [wp_bind]
  refine h.wp_acquire hcpu fun hm => ?_
  rw [wp_bind, wp_get]
  exact hm.wp_sleepLocked ⟨h.isRunning hcpu, .inl rfl, .inl rfl, hchan⟩ (Quiet.nil.snoc rfl)

theorem wp_allocproc (h : Settled s) (hcpu : s.cpu = some me) (hpc : (s.procs me).pc = .user) :
    wp (allocproc me) (fun _ u => Done s.toTable Quiet u) E s := by
  unfold allocproc
  rw [wp_bind]
  refine h.wp_acquire hcpu fun hm => ?_
  rw [wp_bind, wp_get]
  split
  · exact hm.wp_release (h.isRunning hcpu) Quiet.nil
  rename_i np hnp
  have hunused : (s.procs np).state = .UNUSED := by simpa using List.find?_some hnp
  have hfit : (Change.alloc me np).Fits s.toTable := ⟨h.isRunning hcpu, hpc, hunused⟩
  rw [wp_bind, wp_change]
  exact (hm.still hfit rfl).wp_release ((Change.running hfit rfl me).mpr (h.isRunning hcpu))
    (Quiet.nil.snoc rfl)

theorem Mid.wp_resume (h : Mid t me cs s) (hrun : (s.procs me).state = .RUNNING) (hq : Quiet cs) :
    wp (resume me) (fun _ u => Done t Quiet u) E s := by
  unfold resume
  rw [wp_bind, wp_get]
  split
  · rename_i hpc
    have hpatient : s.Patient me .user := Table.patient (by rw [hpc]; rfl) rfl
    exact h.wp_moveRelease ⟨hrun, .inr ⟨by rw [hpc]; rfl, rfl, nofun⟩, hpatient⟩ (hq.snoc rfl)
  · rename_i pid options hpc
    have hfit : (Change.move me (.waiting pid options)).Fits s.toTable :=
      ⟨hrun, .inl hpc.symm, .inl hpc.symm⟩
    rw [wp_bind, wp_change]
    refine (h.still hfit rfl).wp_waitpidLoop ((Change.running hfit rfl me).mpr hrun)
      (.inr ?_) (hq.snoc rfl)
    simp [Change.apply]
  · rename_i newmask hpc
    have hfit : (Change.move me (.suspended newmask)).Fits s.toTable :=
      ⟨hrun, .inl hpc.symm, .inl hpc.symm⟩
    have hpc' : ((Change.apply s.toTable (.move me (.suspended newmask))).procs me).pc =
        .suspended newmask := by
      simp [Change.apply]
    rw [wp_bind, wp_change]
    exact (h.still hfit rfl).wp_suspendLoop ((Change.running hfit rfl me).mpr hrun)
      (congrArg Pc.isFree hpc') (congrArg Pc.isWaiting hpc')
      ((hq.snoc rfl).snoc rfl) ((hq.snoc rfl).snoc rfl)
  · exact h.wp_moveRelease ⟨hrun, .inl rfl, .inl rfl⟩ (hq.snoc rfl)

theorem wp_schedule (h : Settled s) (hcpu : s.cpu = none) (hlock : s.lock = true) :
    wp schedule (fun _ u => Done s.toTable Quiet u) E s := by
  have hidle : ∀ p, (s.procs p).state ≠ .RUNNING := by
    intro p hp
    rw [(h.running p).mp hp] at hcpu
    cases hcpu
  have hncli : s.ncli = 1 := by
    rw [h.ncli, hlock]
    rfl
  unfold schedule
  rw [wp_bind, wp_get]
  split
  · unfold wp release
    rw [if_pos hlock]
    refine ⟨⟨h.running, absurd hcpu, ?_⟩, [], .nil _, Quiet.nil⟩
    show s.ncli - 1 = 0
    rw [hncli]
  rename_i p hp
  have hrunnable : (s.procs p).state = .RUNNABLE := by
    have := List.find?_some hp
    simp only [decide_eq_true_eq] at this
    exact this.2
  rw [wp_bind, wp_modify, wp_bind, wp_change]
  have hothers : ∀ q, ((Change.apply s.toTable (.run p)).procs q).state = .RUNNING → q = p := by
    intro q hq
    by_contra hne
    simp only [Change.apply, on_ne hne] at hq
    exact hidle q hq
  have hmid : Mid s.toTable p [.run p]
      { s with toTable := Change.apply s.toTable (.run p), cpu := some p, pos := p.val + 1 } :=
    ⟨rfl, hlock, hncli, hothers, .cons ⟨hrunnable, rfl⟩ (.nil _)⟩
  refine hmid.wp_resume ?_ (Quiet.nil.snoc rfl)
  simp [Change.apply]

def exitChanges (t : Table) (me : Slot) (parent : Option Slot) (status : Int32) : List Change :=
  parent.toList.map .notify ++
    [.status me status, .wakeup ((t.procs me).parent.map .proc), .adopt me, .zombie me]

theorem notify_keeps (t : Table) (r q : Slot) :
    (t.procs q).Keeps (((Change.notify r).apply t).procs q) := by
  show (t.procs q).Keeps ((t.on r fun q => (q.post SIGCHLD).wake).procs q)
  refine on_cases q ?_ fun _ => ?_
  · exact (Proc.post_keeps SIGCHLD _).trans (Proc.wake_keeps _)
  · exact .refl _

theorem notify_sighandlers (t : Table) (r q : Slot) :
    (((Change.notify r).apply t).procs q).sig.sighandlers = (t.procs q).sig.sighandlers := by
  refine on_field (fun p => p.sig.sighandlers) (f := fun q => (q.post SIGCHLD).wake) ?_ q
  unfold Proc.wake
  split <;> rfl

theorem Mid.wp_zombie (h : Mid t me cs s) (hrun : (s.procs me).state = .RUNNING)
    (hme : me ≠ s.initproc)
    (hpc : (s.procs me).pc.isClosing = true) {status : Int32} {chan : Option Chan}
    (hP : P (cs ++ [.status me status, .wakeup chan, .adopt me, .zombie me])) :
    wp (do
      change (.status me status)
      change (.wakeup chan)
      change (.adopt me)
      change (.zombie me)
      sched me) (fun _ u => Done t P u) E s := by
  rw [wp_bind, wp_change, wp_bind, wp_change, wp_bind, wp_change, wp_bind, wp_change]
  have m1 := h.still (c := .status me status) trivial rfl
  have m2 := m1.still (c := .wakeup chan) trivial rfl
  -- neither changes where the process is
  set t1 := (Change.status me status).apply s.toTable with ht1
  have r1 : (t1.procs me).state = .RUNNING ∧ (t1.procs me).pc = (s.procs me).pc := by
    rw [ht1, Change.apply, on_self]
    exact ⟨hrun, rfl⟩
  have hstays := (wakeup1_keeps t1 chan me).stays
  have r2 : ((t1.wakeup1 chan).procs me).state = .RUNNING :=
    (wakeup1_keeps t1 chan me).running.mpr r1.1
  have p2 : ((t1.wakeup1 chan).procs me).pc.isClosing = true := by rw [hstays.pc, r1.2]; exact hpc
  have m3 := m2.still (c := .adopt me) ⟨hme, p2, r2⟩ rfl
  have r3 : ((Table.adopt me slots (t1.wakeup1 chan)).procs me).state = .RUNNING :=
    (Change.running (t := t1.wakeup1 chan) (c := .adopt me) ⟨hme, p2, r2⟩ rfl me).mpr r2
  have p3 : ((Table.adopt me slots (t1.wakeup1 chan)).procs me).pc.isClosing = true := by
    rw [adopt_pc (t := t1.wakeup1 chan) hme]
    exact p2
  have hinit : me ≠ (Table.adopt me slots (t1.wakeup1 chan)).initproc := by
    rw [(adopt_spec slots (t := t1.wakeup1 chan) hme).initproc]
    exact hme
  have m4 := m3.changed (c := .zombie me) ⟨r3, hinit, p3, adopt_no_child hme⟩ fun p hp => by
    by_contra hne
    simp only [Change.apply, on_ne hne] at hp
    exact hne (m3.others p hp)
  refine m4.wp_sched ?_ ?_
  · simp only [Change.apply, on_self]
    decide
  · simpa [List.nil_append] using hP

/-- If the parent ignores `SIGCHLD`, the lock is released before `sched`. -/
theorem Mid.wp_discard (h : Mid t me cs s) {parent : Option Slot} (hE : E "sched ptable.lock") :
    wp (do
      Exec.modify fun s => { s with toTable := s.discard me parent }
      release
      sched me) Q E s := by
  rw [wp_bind, wp_modify, wp_bind]
  unfold wp release
  rw [if_pos h.lock]
  exact hE

theorem wp_exitTail (h : Settled s) (ht : Tree s.toTable) (hcpu : s.cpu = some me)
    {parent : Option Slot} {status : Int32} (hpc : (s.procs me).pc = .closing parent status) :
    wp (exitTail me parent status) (fun _ u => s.ignores parent = false ∧
      Done s.toTable (· = exitChanges s.toTable me parent status) u)
      (fun msg => s.ignores parent = true ∧ msg = "sched ptable.lock") s := by
  have hclosing : (s.procs me).pc.isClosing = true := by rw [hpc]; rfl
  have hrun := h.isRunning hcpu
  have hme : me ≠ s.initproc := ht.closing me hclosing (by rw [hrun]; rfl)
  unfold exitTail
  rw [wp_bind]
  refine h.wp_acquire hcpu fun hm => ?_
  rw [wp_bind]
  -- the rest, after the parent was told
  have hrest : ∀ (u : State) (cs : List Change), Mid s.toTable me cs u →
      cs = parent.toList.map .notify →
      (u.procs me).state = .RUNNING → u.initproc = s.initproc →
        (u.procs me).pc = (s.procs me).pc → (u.procs me).parent = (s.procs me).parent →
      u.ignores parent = s.ignores parent →
      wp (do
        let s ← Exec.get
        if s.ignores parent then do
          Exec.modify fun s => { s with toTable := s.discard me parent }
          release
          sched me
        else do
          change (.status me status)
          change (.wakeup ((s.procs me).parent.map .proc))
          change (.adopt me)
          change (.zombie me)
          sched me) (fun _ u => s.ignores parent = false ∧
            Done s.toTable (· = exitChanges s.toTable me parent status) u)
        (fun msg => s.ignores parent = true ∧ msg = "sched ptable.lock") u := by
    intro u cs hmid hcs hrun' hinit hpc' hpar hign
    rw [wp_bind, wp_get]
    cases hig : s.ignores parent with
    | true =>
      rw [if_pos (hign.trans hig)]
      exact hmid.wp_discard ⟨rfl, rfl⟩
    | false =>
      rw [if_neg (by rw [hign, hig]; decide)]
      refine wp.mono (hmid.wp_zombie hrun' (hinit ▸ hme) (hpc' ▸ hclosing) ?_)
        (fun _ v hv => ⟨rfl, hv⟩) (fun msg (hmsg : False) => hmsg.elim)
      rw [hcs, hpar]
      rfl
  cases parent with
  | none => exact hrest _ [] hm rfl hrun rfl rfl rfl rfl
  | some r =>
    have hkeeps := notify_keeps s.toTable r me
    refine hrest _ [.notify r] (hm.still trivial rfl) rfl (hkeeps.running.mpr hrun)
      rfl hkeeps.stays.pc hkeeps.stays.parent ?_
    show decide (_ = _) = decide (_ = _)
    rw [notify_sighandlers]

end

/-! ## One step -/

/-- The steps that panic: `exit` of `init`, and the end of `exit` if the parent ignores
    `SIGCHLD`. -/
def Panics (s : State) (msg : String) : Act → Prop
  | .exit _ => s.cpu = some s.initproc ∧
        (msg = "no init program found!" ∨ msg = "attempted to kill init")
  | .exitTail => ∃ me parent status, s.cpu = some me ∧ (s.procs me).pc = .closing parent status ∧
        s.ignores parent = true ∧
      msg = "sched ptable.lock"
  | _ => False

def Script (s : State) (cs : List Change) : Act → Prop
  | .exitTail => ∃ me parent status, s.cpu = some me ∧ (s.procs me).pc = .closing parent status ∧
        s.ignores parent = false ∧
      cs = exitChanges s.toTable me parent status
  | .inherit => ∃ me np, s.cpu = some me ∧ (s.procs me).pc = .forking np .ids ∧
        cs = [.inherit me np]
  | .kill pid sig => ∃ me, s.cpu = some me ∧ cs = [.kill me pid sig]
  | .killPgrp pgrp sig => cs = [.killPgrp pgrp sig]
  | .tick => ∃ me, s.cpu = some me ∧ cs = [.tick me]
  | .ctrlAltDel => ∃ me, s.cpu = some me ∧ cs = [.ctrlAltDel me]
  | .vhangup => ∃ me, s.cpu = some me ∧ cs = [.vhangup me]
  | .fault fails => ∃ me, s.cpu = some me ∧ cs = [.raise me, .dosignal me fails]
  | .dosignal fails => ∃ me, s.cpu = some me ∧ cs = [.dosignal me fails]
  | .sigsuspend oldmask => ∃ me c, s.cpu = some me ∧ cs = [.sigmask me oldmask, c] ∧
      (c = .sleep me (.proc me) (.suspended (s.procs me).sig.sigmask) ∨
        c = .move me (.woken (s.procs me).sig.sigmask))
  | .sigsuspendEnd fails => ∃ me newmask, s.cpu = some me ∧ (s.procs me).pc = .woken newmask ∧
      cs = [.dosignal me fails, .sigmask me newmask, .move me .user]
  | .sigprocmask mask => ∃ me, s.cpu = some me ∧ cs = [.sigmask me mask]
  | .sigaction signo handler restorer => ∃ me, s.cpu = some me ∧
        cs = [.sigaction me signo handler restorer]
  | .exec name => ∃ me, s.cpu = some me ∧ cs = [.exec me name]
  | _ => Quiet cs

/-- The changes that are not quiet, by the step that makes them. -/
def Act.makes : Act → Change → Bool
  | .exitTail, .notify _ => true
  | .exitTail, .adopt _ => true
  | .exitTail, .zombie _ => true
  | .inherit, .inherit _ _ => true
  | .kill _ _, .kill _ _ _ => true
  | .killPgrp _ _, .killPgrp _ _ => true
  | .tick, .tick _ => true
  | .ctrlAltDel, .ctrlAltDel _ => true
  | .vhangup, .vhangup _ => true
  | .fault _, .raise _ => true
  | .fault _, .dosignal _ _ => true
  | .dosignal _, .dosignal _ _ => true
  | .sigsuspendEnd _, .dosignal _ _ => true
  | .sigsuspend _, .sigmask _ _ => true
  | .sigsuspendEnd _, .sigmask _ _ => true
  | .sigprocmask _, .sigmask _ _ => true
  | .sigaction _ _ _, .sigaction _ _ _ _ => true
  | .exec _, .exec _ _ => true
  | _, _ => false

theorem script_makes {s : State} {a : Act} (h : Script s cs a) :
    ∀ c ∈ cs, c.isQuiet = true ∨ a.makes c = true := by
  have hall : ∀ {cs : List Change}, (cs.all fun c => c.isQuiet || a.makes c) = true →
      ∀ c ∈ cs, c.isQuiet = true ∨ a.makes c = true :=
    fun h c hc => by simpa using List.all_eq_true.mp h c hc
  cases a with
  | exitTail =>
    obtain ⟨me, parent, status, -, -, -, rfl⟩ := h
    cases parent <;> exact hall rfl
  | inherit => obtain ⟨me, np, -, -, rfl⟩ := h; exact hall rfl
  | kill pid sig | tick | ctrlAltDel | vhangup | fault fails | dosignal fails | sigprocmask mask
  | sigaction signo handler restorer | exec name =>
    obtain ⟨me, -, rfl⟩ := h; exact hall rfl
  | killPgrp pgrp sig => obtain rfl := h; exact hall rfl
  | sigsuspend oldmask =>
    obtain ⟨me, c, -, rfl, rfl | rfl⟩ := h
    · exact hall rfl
    · exact hall rfl
  | sigsuspendEnd fails => obtain ⟨me, newmask, -, -, rfl⟩ := h; exact hall rfl
  | _ => exact fun c hc => .inl (h c hc)

theorem made_invariant {I : Table → Prop} {K : Change → Prop}
    (hstep : ∀ (t : Table) (c : Change), I t → c.Fits t → K c → I (c.apply t))
    {u : Table} (h : Run Makes t cs u) (hk : ∀ c ∈ cs, K c) (ht : I t) : I u := by
  induction h with
  | nil => exact ht
  | cons hm _ ih =>
    refine ih (fun c hc => hk c (.tail _ hc)) ?_
    rw [hm.2]
    exact hstep _ _ ht hm.1 (hk _ List.mem_cons_self)

def Spec (s : State) (a : Act) : Outcome State → Prop
  | .blocked => True
  | .panic msg => Panics s msg a
  | .next t => Done s.toTable (Script s · a) t

section

variable {s : State} {a : Act}

theorem spec_ofExec {x : Exec State Unit}
    (h : wp x (fun _ t => Done s.toTable (Script s · a) t) (fun msg => Panics s msg a) s) :
    Spec s a (ofExec x s) := by
  unfold wp at h
  unfold ofExec
  split at h
  · rename_i t heq
    rw [heq]
    exact h
  rename_i msg heq
  rw [heq]
  exact h

theorem spec_running {ok : Pc → Bool} {k : Slot → Exec State Unit}
    (h : ∀ me, s.cpu = some me → ok (s.procs me).pc = true →
      wp (k me) (fun _ t => Done s.toTable (Script s · a) t) (fun msg => Panics s msg a) s) :
    Spec s a (s.running ok k) := by
  unfold State.running
  split
  · rename_i me hcpu
    split
    · rename_i hok
      exact spec_ofExec (h me hcpu hok)
    · trivial
  · trivial

theorem spec_forking {stage : Stage} {k : Slot → Slot → Exec State Unit}
    (h : ∀ me np, s.cpu = some me → (s.procs me).pc = .forking np stage →
      wp (k me np) (fun _ t => Done s.toTable (Script s · a) t) (fun msg => Panics s msg a) s) :
    Spec s a (s.forking stage k) := by
  unfold State.forking
  split
  · rename_i me hcpu
    split
    · rename_i np st hpc
      split
      · rename_i hst
        exact spec_ofExec (h me np hcpu (hst ▸ hpc))
      · trivial
    · trivial
  · trivial

theorem spec_interrupt (hs : Settled s) (hc : c.Fits s.toTable)
    (hstill : c.isStill = true) (hscript : Script s [c] a) : Spec s a (s.interrupt c) := by
  unfold State.interrupt
  split
  · trivial
  rename_i hlock
  refine spec_ofExec ?_
  cases hcpu : s.cpu with
  | some me => exact hs.wp_locked hcpu hc hstill hscript
  | none =>
    have hlock : s.lock = false := by simpa using hlock
    have hncli : s.ncli = 0 := by
      rw [hs.ncli, hlock]
      rfl
    unfold locked
    rw [wp_bind]
    unfold wp acquire
    rw [if_neg (by rw [hlock]; decide)]
    refine ⟨⟨fun p => (Change.running hc hstill p).trans (hs.running p), fun _ => rfl, ?_⟩,
      [c], .cons ⟨hc, rfl⟩ (.nil _), hscript⟩
    show s.ncli + 1 - 1 = 0
    rw [hncli]

theorem isUser_eq (h : pc.isUser = true) : pc = .user := of_decide_eq_true h

theorem step_spec (hs : Settled s) (ht : Tree s.toTable) (a : Act) : Spec s a (step s a) := by
  have hforks : ∀ {me np stage}, s.cpu = some me → (s.procs me).pc = .forking np stage →
      s.toTable.Forks me np stage := by
    intro me np stage hcpu hpc
    have hrun := hs.isRunning hcpu
    exact ⟨hrun, hpc, (ht.forking me np stage hpc (by rw [hrun]; rfl)).1⟩
  have hone : ∀ {c : Change}, c.isQuiet = true → Quiet [c] := Quiet.nil.snoc
  cases a with
  | scan =>
    simp only [step]
    split
    · rename_i hidle
      refine spec_ofExec ?_
      rw [wp_bind]
      unfold wp acquire
      rw [if_neg (by rw [hidle.2]; decide)]
      refine ⟨⟨hs.running, absurd hidle.1, ?_⟩, [], .nil _, Quiet.nil⟩
      show s.ncli + 1 = 1
      rw [hs.ncli, hidle.2]
      rfl
    · trivial
  | schedule =>
    simp only [step]
    split
    · rename_i hidle
      exact spec_ofExec (wp_schedule hs hidle.1 hidle.2)
    · trivial
  | yield =>
    simp only [step]
    exact spec_running fun me hcpu _ => wp_yield hs hcpu
  | sleep n => exact spec_running fun me hcpu _ => wp_sleep hs hcpu fun r hr => by cases hr
  | pause => exact spec_running fun me hcpu _ => wp_sleep hs hcpu fun r hr => by cases hr; rfl
  | wakeup n => exact spec_interrupt hs trivial rfl (hone rfl)
  | fork => exact spec_running fun me hcpu hpc => wp_allocproc hs hcpu (isUser_eq hpc)
  | kalloc ok =>
    refine spec_forking fun me np hcpu hpc => ?_
    cases ok with
    | true => exact hs.wp_change (hforks hcpu hpc) rfl (hone rfl)
    | false => exact hs.wp_change (hforks hcpu hpc) rfl (hone rfl)
  | inherit =>
    exact spec_forking fun me np hcpu hpc =>
      hs.wp_change (hforks hcpu hpc) rfl ⟨me, np, hcpu, hpc, rfl⟩
  | copyuvm ok =>
    refine spec_forking fun me np hcpu hpc => ?_
    cases ok with
    | true => exact hs.wp_change (hforks hcpu hpc) rfl (hone rfl)
    | false => exact hs.wp_change (hforks hcpu hpc) rfl (hone rfl)
  | ready =>
    exact spec_forking fun me np hcpu hpc =>
      hs.wp_locked hcpu (hforks hcpu hpc) rfl (hone rfl)
  | exit status =>
    refine spec_running fun me hcpu hpc => ?_
    unfold exit
    rw [wp_bind, wp_get]
    split
    · rename_i hinit
      rw [hinit] at hcpu
      split
      · exact ⟨hcpu, .inl rfl⟩
      · exact ⟨hcpu, .inr rfl⟩
    rename_i hinit
    have hpatient : s.Patient me (.closing (s.procs me).parent status) :=
      Table.patient (by rw [isUser_eq hpc]; rfl) rfl
    exact hs.wp_change ⟨hs.isRunning hcpu, .inr ⟨by rw [isUser_eq hpc]; rfl, rfl, fun _ => hinit⟩,
      hpatient⟩ rfl (hone rfl)
  | exitTail =>
    simp only [step]
    split
    · rename_i me hcpu
      split
      · rename_i parent status hpc
        refine spec_ofExec ((wp_exitTail hs ht hcpu hpc).mono (fun _ t h => ?_) fun msg h => ?_)
        · obtain ⟨hig, hdone, cs, hrun, hcs⟩ := h
          exact ⟨hdone, cs, hrun, me, parent, status, hcpu, hpc, hig, hcs⟩
        · exact ⟨me, parent, status, hcpu, hpc, h.1, h.2⟩
      · trivial
    · trivial
  | waitpid pid options =>
    refine spec_running fun me hcpu hpc => ?_
    unfold waitpid
    rw [wp_bind]
    refine hs.wp_acquire hcpu fun hm => ?_
    exact hm.wp_waitpidLoop (hs.isRunning hcpu) (.inl (isUser_eq hpc)) Quiet.nil
  | kill pid sig =>
    exact spec_running fun me hcpu _ =>
      hs.wp_locked hcpu trivial rfl ⟨me, hcpu, rfl⟩
  | killPgrp pgrp sig => exact spec_interrupt hs trivial rfl rfl
  | tick | vhangup | sigprocmask mask | sigaction signo handler restorer
      | exec name => exact spec_running fun me hcpu _ => hs.wp_change trivial rfl ⟨me, hcpu, rfl⟩
  | alarm ticks | setIds p uid pgrp leader =>
    exact spec_running fun me hcpu _ =>
      hs.wp_change trivial rfl (hone rfl)
  | ctrlAltDel =>
    simp only [step]
    split
    · trivial
    · exact spec_running fun me hcpu _ => hs.wp_change trivial rfl ⟨me, hcpu, rfl⟩
  | reboot cad =>
    exact spec_running fun me hcpu _ =>
      ⟨⟨hs.running, hs.lock, hs.ncli⟩, [], .nil _, Quiet.nil⟩
  | fault fails =>
    refine spec_running fun me hcpu hpc => ?_
    have h1 := hs.changed (c := .raise me) trivial rfl
    have hfit : (Change.dosignal me fails).Fits (Change.apply s.toTable (.raise me)) := by
      simp only [Change.Fits, Change.apply, on_self]
      exact congrArg Pc.isWaiting (isUser_eq hpc)
    refine ⟨h1.changed hfit rfl, [.raise me, .dosignal me fails], ?_, me, hcpu, rfl⟩
    exact .cons ⟨trivial, rfl⟩ (.cons ⟨hfit, rfl⟩ (.nil _))
  | dosignal fails =>
    exact spec_running fun me hcpu hpc =>
      hs.wp_change (congrArg Pc.isWaiting (isUser_eq hpc)) rfl ⟨me, hcpu, rfl⟩
  | sigsuspend oldmask =>
    refine spec_running fun me hcpu hpc => ?_
    unfold sysRtSigsuspend
    rw [wp_bind, wp_get, wp_bind, wp_change, wp_bind]
    have h1 := hs.changed (c := .sigmask me oldmask) trivial rfl
    have hpc1 : ((Change.apply s.toTable (.sigmask me oldmask)).procs me).pc = .user := by
      simp [Change.apply, isUser_eq hpc]
    refine h1.wp_acquire hcpu fun hm => ?_
    let P : List Change → Prop := fun cs => ∃ c, cs = [c] ∧
      (c = .sleep me (.proc me) (.suspended (s.procs me).sig.sigmask) ∨
        c = .move me (.woken (s.procs me).sig.sigmask))
    refine (hm.wp_suspendLoop (P := P) (h1.isRunning hcpu) (congrArg Pc.isFree hpc1)
      (congrArg Pc.isWaiting hpc1) ⟨_, rfl, .inl rfl⟩
      ⟨_, rfl, .inr rfl⟩).mono (fun _ u hu => ?_) (fun _ (hmsg : False) => hmsg.elim)
    obtain ⟨hset, cs, hrun, c, rfl, hc⟩ := hu
    exact ⟨hset, [.sigmask me oldmask, c], .cons ⟨trivial, rfl⟩ hrun, me, c, hcpu, rfl, hc⟩
  | sigsuspendEnd fails =>
    simp only [step]
    split
    · rename_i me hcpu
      split
      · rename_i newmask hpc
        have hfit1 : (Change.dosignal me fails).Fits s.toTable := congrArg Pc.isWaiting hpc
        have h1 := hs.changed hfit1 rfl
        have h2 := h1.changed (c := .sigmask me newmask) trivial rfl
        have hpc2 : ((Change.apply (Change.apply s.toTable (.dosignal me fails))
            (.sigmask me newmask)).procs me).pc = .woken newmask := by
          simp only [Change.apply, on_self]
          exact hpc
        have hfit : (Change.move me .user).Fits
            (Change.apply (Change.apply s.toTable (.dosignal me fails)) (.sigmask me newmask)) :=
          ⟨h2.isRunning hcpu, .inr ⟨by rw [hpc2]; rfl, rfl, fun h => by cases h⟩,
            Table.patient (congrArg Pc.isWaiting hpc2) rfl⟩
        refine spec_ofExec ⟨h2.changed hfit rfl, [.dosignal me fails,
          .sigmask me newmask, .move me .user], ?_, me, newmask, hcpu, hpc, rfl⟩
        exact .cons ⟨hfit1, rfl⟩ (.cons ⟨trivial, rfl⟩ (.cons ⟨hfit, rfl⟩ (.nil _)))
      · trivial
    · trivial

end

end Micro86.Ptable
