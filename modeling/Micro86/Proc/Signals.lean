import Micro86.Proc.Sigchld

/-!
# Signals in the process table

* `pending_kept` — no signal is lost in every run without `ctrl_alt_del` in which no alarm expires
  while signals are pending, `vhangup` finds `SIGHUP` pending, and a slot has got no signal when
  `fork` clears it.
* `sigchld_spares` — no process is killed by `SIGCHLD` in every run in which a process that gets the
  signal blocks or ignores it, or sleeps in `waitpid`.
-/

namespace Micro86.Ptable

open Signal Exec

variable {c : Change} {p : Proc} {q : Slot} {a : Act} {s t : State}

/-! ## One change -/

theorem Change.touches {t : Table} (hc : c.Fits t) (q : Slot) :
    Touches t c q ((c.apply t).procs q) := by
  have hused : ∀ {st : PState}, (t.procs q).state = st → st ≠ .UNUSED →
      (t.procs q).state ≠ .UNUSED :=
    fun h hne h' => hne (h.symm.trans h')
  cases Change.became hc q with
  | keeps _ touch | works _ _ _ _ _ touch => exact touch
  | goes st chan pc awake _ _ _ eq =>
    rw [eq]
    refine .inl ⟨rfl, rfl, rfl, rfl, fun _ h => ?_⟩
    rw [h] at awake
    cases awake.1
  | handed me _ wakes => exact .inl ((Proc.Calm.handed me t.initproc _).trans (.of_wakes wakes))
  | zombie made eq =>
    rw [made] at hc
    rw [eq]
    exact .inl ⟨rfl, rfl, rfl, rfl, fun _ => hused hc.1 (by decide)⟩
  | freed me made eq =>
    rw [eq, made]
    exact .inr ⟨_, .freed me q _, .refl _⟩
  | waited z made eq =>
    rw [eq, made]
    exact .inr ⟨_, .waited q z _, .refl _⟩

/-! ## Pending signals -/

/-- Signals that were sent and not consumed are pending. -/
def Proc.Owed (p : Proc) : Prop := p.state ≠ .UNUSED → ∀ n ∈ p.posted,
    1 ≤ n ∧ n < 32 ∧ p.sig.isPending n

theorem Proc.Owed.calm {q : Proc} (h : p.Owed) (hc : p.Calm q) : q.Owed := by
  intro hq n hn
  rw [hc.posted] at hn
  rw [hc.sig]
  exact h (hc.used hq) n hn

theorem Proc.Owed.post (h : p.Owed) (m : Nat) : (p.post m).Owed := by
  intro hp n hn
  have hold : n ∈ p.posted → 1 ≤ n ∧ n < 32 ∧ (p.sig.raise m).isPending n := fun hn =>
    ⟨(h hp n hn).1, (h hp n hn).2.1, Sig.isPending_raise.mpr (.inl (h hp n hn).2.2)⟩
  simp only [Proc.post] at hn
  split at hn
  · rename_i hm
    rcases List.mem_cons.mp hn with rfl | hn
    · exact ⟨hm.1, hm.2, Sig.isPending_raise.mpr (.inr rfl)⟩
    · exact hold hn
  · exact hold hn

theorem Proc.Owed.dosignal (h : p.Owed) (fails : Bool) : (p.dosignal fails).Owed := by
  intro hp n hn
  simp only [Proc.dosignal] at hn
  split at hn
  · cases hn
  rename_i hkilled
  obtain ⟨hn, hconsumed⟩ := List.mem_filter.mp hn
  obtain ⟨h1, h2, hpend⟩ := h hp n hn
  refine ⟨h1, h2, ?_⟩
  rcases p.sig.dosignal_keeps fails h1 h2 hpend with hk | hp | hc
  · exact absurd hk hkilled
  · exact hp
  · exact absurd hc (of_decide_eq_true hconsumed)

theorem Proc.Owed.waited (h : p.Owed) : p.waited.Owed := by
  intro hp n hn
  obtain ⟨hn, hne⟩ := List.mem_filter.mp hn
  obtain ⟨h1, h2, hpend⟩ := h hp n hn
  refine ⟨h1, h2, Sig.isPending_clear.mpr ⟨hpend, fun h => of_decide_eq_true hne ?_⟩⟩
  rw [Nat.mod_eq_of_lt h2] at h
  exact h

def Change.Saves (t : Table) : Change → Prop
  | .tick me => (t.procs me).alarmticks = 1 → (t.procs me).posted = []
  | .ctrlAltDel _ => False
  | .vhangup me => (t.procs me).sig.isPending SIGHUP
  | .inherit _ np => (t.procs np).posted = []
  | _ => True

theorem Proc.Owed.touch {t : Table} {p' : Proc} (h : (t.procs q).Owed)
    (hs : c.Saves t) (ht : Touch t c q (t.procs q) p') : p'.Owed := by
  cases ht with
  | alloc me => exact fun _ n hn => nomatch hn
  | inherit me =>
    intro _ n hn
    rw [show ((t.procs me).inherit (t.procs q)).posted = [] from hs] at hn
    cases hn
  | notify => exact h.post SIGCHLD
  | freed => exact absurd rfl
  | waited => exact h.waited
  | kill me q pid sig | killPgrp q pgrp sig => exact h.post sig
  | tick =>
    intro hp n hn
    unfold Proc.tick at hn hp ⊢
    split at hn
    · rename_i hpos
      split at hn
      · rw [show (t.procs q).posted = [] from hs (by omega)] at hn
        cases hn
      rename_i hmore
      rw [if_pos hpos, if_neg hmore] at hp ⊢
      exact h hp n hn
    rename_i hoff
    rw [if_neg hoff] at hp ⊢
    exact h hp n hn
  | ctrlAltDel => exact hs.elim
  | vhangup =>
    intro hp n hn
    have hor : ∀ {n : Nat}, (t.procs q).sig.isPending n →
        ({ (t.procs q).sig with sigpending := (t.procs q).sig.sigpending ||| UInt32.ofNat SIGHUP } :
        Sig).isPending n := by
      intro n hn
      exact or_bit_and (m := 0).mpr (.inl hn)
    rcases List.mem_cons.mp hn with rfl | hn
    · exact ⟨by decide, by decide, hor hs⟩
    · exact ⟨(h hp n hn).1, (h hp n hn).2.1, hor (h hp n hn).2.2⟩
  | raise => exact h.post SIGSEGV
  | dosignal me fails => exact h.dosignal fails
  | sigmask me mask | sigaction me signo handler restorer | exec me name => exact h

theorem owed_change {t : Table} (h : ∀ q, (t.procs q).Owed) (hc : c.Fits t)
    (hs : c.Saves t) (q : Slot) : ((c.apply t).procs q).Owed := by
  rcases Change.touches hc q with hcalm | ⟨p, hp, hcalm⟩
  · exact (h q).calm hcalm
  · exact ((h q).touch hs hp).calm hcalm

def Act.Saves (s : State) : Act → Prop
  | .tick => ∀ me ∈ s.cpu, (s.procs me).alarmticks = 1 → (s.procs me).posted = []
  | .ctrlAltDel => False
  | .vhangup => ∀ me ∈ s.cpu, (s.procs me).sig.isPending SIGHUP
  | .inherit => ∀ me ∈ s.cpu, ∀ np, (s.procs me).pc = .forking np .ids → (s.procs np).posted = []
  | _ => True

instance (s : State) (a : Act) : Decidable (a.Saves s) := by
  unfold Act.Saves
  split
  · exact Option.decidableForallMem _
  · exact instDecidableFalse
  · exact Option.decidableForallMem _
  · exact Option.decidableForallMem _
  · exact instDecidableTrue

theorem saves_of_makes (h : c.isQuiet = true ∨ a.makes c = true)
    (ha : a ≠ .tick ∧ a ≠ .ctrlAltDel ∧ a ≠ .vhangup ∧ a ≠ .inherit) (t : Table) : c.Saves t := by
  obtain ⟨h1, h2, h3, h4⟩ := ha
  cases c with
  | tick me =>
    rcases h with h | h
    · cases h
    · cases a <;> first | exact absurd rfl h1 | cases h
  | ctrlAltDel me =>
    rcases h with h | h
    · cases h
    · cases a <;> first | exact absurd rfl h2 | cases h
  | vhangup me =>
    rcases h with h | h
    · cases h
    · cases a <;> first | exact absurd rfl h3 | cases h
  | inherit me np =>
    rcases h with h | h
    · cases h
    · cases a <;> first | exact absurd rfl h4 | cases h
  | _ => trivial

theorem owed_next (h : Inv s) (ho : ∀ q, (s.procs q).Owed) (hstep : step s a = .next t)
    (hs : a.Saves s) : ∀ q, (t.procs q).Owed := by
  obtain ⟨-, cs, hmade, hscript⟩ := h.done hstep
  have hsingle : ∀ {c : Change}, cs = [c] → c.Saves s.toTable → ∀ q, (t.procs q).Owed := by
    rintro c rfl hc
    rw [made_eq hmade]
    cases hmade with
    | cons hm _ => exact owed_change ho hm.1 hc
  have hrest : a ≠ .tick ∧ a ≠ .ctrlAltDel ∧ a ≠ .vhangup ∧ a ≠ .inherit →
      ∀ q, (t.procs q).Owed := fun ha =>
    made_invariant (fun u c hu hc hk => owed_change hu hc (hk u))
      hmade (fun c hc => saves_of_makes (script_makes hscript c hc) ha) ho
  cases a with
  | tick | vhangup =>
    obtain ⟨me, hcpu, hcs⟩ := hscript
    exact hsingle hcs (hs me hcpu)
  | ctrlAltDel => exact hs.elim
  | inherit =>
    obtain ⟨me, np, hcpu, hpc, hcs⟩ := hscript
    exact hsingle hcs (hs me hcpu np hpc)
  | _ => exact hrest ⟨nofun, nofun, nofun, nofun⟩

theorem boot_owed (q : Slot) : (boot.procs q).Owed := by
  intro _ n hn
  rcases boot_procs q with h | h <;> rw [h.2] at hn <;> cases hn

/-- A signal that was sent to a process and not consumed by `dosignal`, or for `SIGCHLD` cleared by
    `waitpid`, is pending, in every run in which every step saves the signals. -/
theorem pending_kept (as : List Act) (s : State)
    (hrun : Run (fun s a t => step s a = .next t ∧ a.Saves s) boot as s) (q : Slot)
    (hq : (s.procs q).state ≠ .UNUSED) (n : Nat) (hn : n ∈ (s.procs q).posted) :
    (s.procs q).sig.isPending n := by
  have hall : Inv s ∧ ∀ q, (s.procs q).Owed :=
    Run.invariant (I := fun s => Inv s ∧ ∀ q, (s.procs q).Owed)
    (fun s a t h hn => ⟨(h.1.next hn.1).1, owed_next h.1 h.2 hn.1 hn.2⟩) hrun ⟨boot_inv, boot_owed⟩
  exact (hall.2 q hq n hn).2.2

/-- `init` has forked a child and sends itself `SIGTERM`, which is blocked, before the child
    exits. -/
def twoPending : List Act :=
  [.scan, .schedule, .exec "init", .sigprocmask (bit 15), .alarm 1] ++
    forkAll ++ [.kill 1 15, .yield, .schedule, .exit 0, .exitTail]

theorem pending_kept_two :
    ∃ s, Run (fun s a t => step s a = .next t ∧ a.Saves s) boot twoPending s ∧
    (s.procs s.initproc).sig.isPending 15 ∧ (s.procs s.initproc).sig.isPending SIGCHLD := by
  obtain ⟨s, hrun, hq, h1, h2⟩ :=
    Outcome.exists_guarded (fun s a _ => Act.Saves s a) step boot twoPending
    (fun s => (s.procs s.initproc).state ≠ .UNUSED ∧ 15 ∈ (s.procs s.initproc).posted ∧
      SIGCHLD ∈ (s.procs s.initproc).posted) (by decide +kernel)
  exact ⟨s, hrun, pending_kept twoPending s hrun _ hq _ h1,
    pending_kept twoPending s hrun _ hq _ h2⟩

/-- An alarm expires: the two signals are gone, and no other has come. -/
theorem alarm_clears_pending :
    ∃ s, Run (Outcome.rel step) boot (twoPending ++ [.schedule, .scan, .schedule, .tick]) s ∧
    (s.procs s.initproc).posted = [SIGCHLD, 15] ∧ (s.procs s.initproc).sig.sigpending = 0 :=
  Outcome.exists_run step boot _ _ (by decide +kernel)

/-! ## Processes in `waitpid` -/

/-- The process is in the loop of `waitpid`, and not in user mode before it has returned. -/
def Proc.isHeld (p : Proc) : Prop := p.state.isAwake = true ∧ p.pc.isWaiting = true
deriving Decidable

/-- Processes that sleep in `waitpid` have something to wait for. -/
def Waiting (t : Table) : Prop := ∀ q, (t.procs q).isHeld → t.Waits q (t.procs q).pc

/-- Where a change leaves process `p` of slot `q`, as far as `waitpid` goes. -/
inductive Place (t : Table) (c : Change) (q : Slot) (p p' : Proc) : Prop where
  | goes (awake : p'.state.isAwake = p.state.isAwake) (pc : t.Patient q p'.pc)
  | elsewhere (before : ¬ p.isHeld) (after : ¬ p'.isHeld)
  | reaps (z : Slot) (made : c = .reap q z) (after : ¬ p'.isHeld)

section

variable {t : Table} {c : Change} {q : Slot}

theorem not_held_pc (h : p.pc.isWaiting = false) :
    ¬ p.isHeld := fun hh => absurd (h.symm.trans hh.2) (by decide)

theorem not_held_state (h : p.state.isAwake = false) :
    ¬ p.isHeld := fun hh => absurd (h.symm.trans hh.1) (by decide)

theorem Change.place (hc : c.Fits t) (q : Slot) :
    Place t c q (t.procs q) ((c.apply t).procs q) := by
  cases Change.became hc q with
  | keeps h _ => exact .goes h.stays.state.isAwake (.inl h.stays.pc)
  | goes st chan pc awake _ _ patient eq =>
    rw [eq]
    exact .goes (awake.2.trans awake.1.symm) patient
  | works before after _ _ _ _ =>
    refine .elsewhere (not_held_state ?_) ?_
    · rcases before with h | h
      · rw [h]
        rfl
      · rw [h]
        rfl
    · rcases after with h | h | ⟨-, h⟩
      · exact not_held_state (by rw [h]; rfl)
      · exact not_held_state (by rw [h]; rfl)
      · exact not_held_pc (by rw [h]; rfl)
  | handed me made wakes =>
    have hawake := wakes.keeps.stays.state.isAwake
    rw [Proc.handed_state] at hawake
    subst made
    exact .goes hawake (.inl (adopt_pc hc.1 q))
  | zombie made eq =>
    subst made
    rw [eq]
    refine .elsewhere (not_held_pc ?_) (not_held_pc rfl)
    have hclosing := hc.2.2.1
    cases hpc : (t.procs q).pc with
    | waiting pid options =>
      rw [hpc] at hclosing
      cases hclosing
    | _ => rfl
  | freed me made eq =>
    subst made
    rw [eq]
    exact .elsewhere (not_held_state (by rw [hc.2.2.2]; rfl)) (not_held_state rfl)
  | waited z made eq =>
    rw [eq]
    exact .reaps z made (not_held_pc rfl)

theorem Change.held (hc : c.Fits t) (hw : Waiting t) (h : (t.procs q).isHeld) :
    ((c.apply t).procs q).isHeld ∨ ∃ z, c = .reap q z := by
  cases Change.place hc q with
  | goes hawake hpc =>
    rcases hpc with hpc | ⟨-, hno⟩
    · exact .inl ⟨hawake.trans h.1, hpc ▸ h.2⟩
    · exact absurd (hw q h) (hno h.2)
  | elsewhere hbefore => exact absurd h hbefore
  | reaps z hz => exact .inr ⟨z, hz⟩

theorem Change.child (ht : Tree t) (hc : c.Fits t) {r : Slot} (h : (t.procs r).parent = some q) :
    ((c.apply t).procs r).parent = some q ∨ c = .reap q r ∨ c = .adopt q := by
  cases Change.became hc r with
  | keeps hk _ => exact .inl (hk.stays.parent.trans h)
  | goes st chan pc _ _ _ _ eq | zombie _ eq | waited z _ eq =>
    exact .inl ((congrArg Proc.parent eq).trans h)
  | works _ _ _ _ parent _ =>
    rcases parent with hpar | ⟨me, rfl⟩
    · exact .inl (hpar.trans h)
    -- the slot has no parent yet
    have hnone := (ht.forking me r .vm hc.2.1 (by rw [hc.1]; rfl)).2.1
    exact nomatch hnone.symm.trans h
  | handed me made wakes =>
    subst made
    by_cases hq : q = me
    · exact .inr (.inr (by rw [hq]))
    left
    rw [wakes.keeps.stays.parent, Proc.handed,
      if_neg (by rw [h]; exact fun heq => hq (Option.some.inj heq))]
    exact h
  | freed me made _ =>
    subst made
    obtain rfl : me = q := Option.some.inj (hc.2.2.1.symm.trans h)
    exact .inr (.inl rfl)

theorem Waiting.change (ht : Tree t) (h : Waiting t) (hc : c.Fits t) : Waiting (c.apply t) := by
  intro q hq
  have hwaits : t.Waits q ((c.apply t).procs q).pc := by
    cases Change.place hc q with
    | goes hawake hpc =>
      rcases hpc with hpc | hpc
      · rw [hpc]
        exact h q ⟨hawake.symm.trans hq.1, hpc ▸ hq.2⟩
      · exact hpc.1
    | elsewhere _ hafter | reaps z _ hafter => exact absurd hq hafter
  -- the child it waits for is still there
  cases hpc : ((c.apply t).procs q).pc with
  | waiting pid options =>
    rw [hpc] at hwaits
    obtain ⟨heven, r, hr⟩ := hwaits
    rcases Change.child ht hc hr with hr' | rfl | rfl
    · exact ⟨heven, r, hr'⟩
    · have huser : ((Change.apply t (.reap q r)).procs q).pc = .user := congrArg Proc.pc on_self
      exact nomatch huser.symm.trans hpc
    have hclosing := hc.2.1
    rw [← adopt_pc hc.1 q,
      show ((Table.adopt q slots t).procs q).pc = .waiting pid options from hpc] at hclosing
    cases hclosing
  | _ => trivial

end

/-! ## `SIGCHLD` and its default action -/

/-- `SIGCHLD` has killed no process of the slot, and is not about to. -/
structure Proc.Spared (p : Proc) : Prop where
  killedBy : p.killedBy ≠ some SIGCHLD
  shielded : p.sig.Shielded SIGCHLD ∨ p.isHeld

theorem Sig.Shielded.of_zero {p : Sig} {n : Nat} (h : p.sigpending = 0) : p.Shielded n := by
  intro hp
  unfold Sig.isPending at hp
  rw [h] at hp
  exact absurd UInt32.zero_and hp

/-- Changes after which a process is as safe from `SIGCHLD` as before. -/
def Change.isMild : Change → Bool
  | .notify _ => false
  | .kill _ _ _ => false
  | .killPgrp _ _ => false
  | .sigmask _ _ => false
  | .sigaction _ _ _ _ => false
  | .exec _ _ => false
  | _ => true

def Change.isDosignal : Change → Bool
  | .dosignal _ _ => true
  | _ => false

section

variable {t : Table} {c : Change} {q : Slot} {p : Proc}

theorem Touch.shielded (h : Touch t c q (t.procs q) p) (hmild : c.isMild = true)
    (hs : (t.procs q).sig.Shielded SIGCHLD) : p.sig.Shielded SIGCHLD := by
  cases h with
  | alloc me => exact fun _ => .inr rfl
  | inherit me => exact Sig.Shielded.of_zero rfl
  | freed me => exact hs
  | waited z => exact hs.clear SIGCHLD
  | tick =>
    unfold Proc.tick
    split
    · split
      · exact Sig.Shielded.of_zero rfl
      · exact hs
    · exact hs
  | ctrlAltDel => exact fun hp => absurd (show UInt32.ofNat SIGINT &&& bit SIGCHLD = 0 by decide) hp
  | vhangup =>
    intro hp
    rcases (or_bit_and (m := 0)).mp hp with hp | hp
    · exact hs hp
    · cases hp
  | raise =>
    intro hp
    rcases Sig.isPending_raise.mp hp with hp | hp
    · exact hs hp
    · cases hp
  | dosignal me fails => exact (Sig.dosignal_shielded fails hs (by decide)).1
  | notify | kill | killPgrp | sigmask | sigaction | exec => cases hmild

theorem Touch.killedBy (h : Touch t c q (t.procs q) p) (hc : c.Fits t)
    (hk : (t.procs q).killedBy ≠ some SIGCHLD)
    (hs : c.isDosignal = true → (t.procs q).sig.Shielded SIGCHLD ∨ (t.procs q).isHeld) :
    p.killedBy ≠ some SIGCHLD := by
  cases h with
  | alloc me => exact nofun
  | tick =>
    unfold Proc.tick
    split
    · split
      · exact hk
      · exact hk
    · exact hk
  | dosignal me fails =>
    simp only [Proc.dosignal]
    split
    · rename_i hnew
      exact (Sig.dosignal_shielded fails ((hs rfl).resolve_right (not_held_pc hc))
        (by decide)).2 hnew.1 hnew.2
    · exact hk
  | _ => exact hk

theorem killedBy_change (hc : c.Fits t) (hk : (t.procs q).killedBy ≠ some SIGCHLD)
    (hs : c.isDosignal = true → (t.procs q).sig.Shielded SIGCHLD ∨ (t.procs q).isHeld) :
    ((c.apply t).procs q).killedBy ≠ some SIGCHLD := by
  rcases Change.touches hc q with hcalm | ⟨p, hp, hcalm⟩
  · rw [hcalm.killedBy]
    exact hk
  · rw [hcalm.killedBy]
    exact hp.killedBy hc hk hs

theorem Proc.Spared.change (h : (t.procs q).Spared) (hw : Waiting t)
    (hc : c.Fits t) (hmild : c.isMild = true) : ((c.apply t).procs q).Spared := by
  refine ⟨killedBy_change hc h.killedBy fun _ => h.shielded, ?_⟩
  rcases h.shielded with hs | hheld
  · left
    rcases Change.touches hc q with hcalm | ⟨p, hp, hcalm⟩
    · rw [hcalm.sig]
      exact hs
    · rw [hcalm.sig]
      exact hp.shielded hmild hs
  rcases Change.held hc hw hheld with hheld | ⟨z, rfl⟩
  · exact .inr hheld
  left
  intro hp
  have hself :
      (Change.apply t (.reap q z)).procs q = ((t.on z Proc.freed).procs q).waited := on_self
  rw [hself] at hp
  exact absurd rfl (Sig.isPending_clear.mp hp).2

end

def Act.isLoud : Act → Bool
  | .exitTail => true
  | .kill _ _ => true
  | .killPgrp _ _ => true
  | .sigsuspend _ => true
  | .sigsuspendEnd _ => true
  | .sigprocmask _ => true
  | .sigaction _ _ _ => true
  | .exec _ => true
  | _ => false

theorem isMild_of_quiet (h : c.isQuiet = true) : c.isMild = true := by
  cases c <;> first | rfl | cases h

theorem isLoud_of_makes (h : a.makes c = true) (hc : c.isMild = false) : a.isLoud = true := by
  cases c with
  | notify r | kill me pid sig | killPgrp pgrp sig | sigmask me mask
      | sigaction me signo handler restorer | exec me name => cases a <;> first | rfl | cases h
  | _ => cases hc

/-- After such a step, process `q` blocks or ignores `SIGCHLD`, has none pending, or is in
    `waitpid`. -/
def Act.Spares (q : Slot) (a : Act) (t : State) : Prop :=
  a.isLoud = true → (t.procs q).sig.Shielded SIGCHLD ∨ (t.procs q).isHeld
deriving Decidable

structure Safe (q : Slot) (s : State) : Prop where
  inv : Inv s
  waiting : Waiting s.toTable
  spared : (s.procs q).Spared

theorem Inv.waiting (h : Inv s) (hw : Waiting s.toTable) (hstep : step s a = .next t) :
    Waiting t.toTable := by
  obtain ⟨-, cs, hmade, -⟩ := h.done hstep
  exact (made_invariant (I := fun u => Tree u ∧ Waiting u)
    (fun u c hu hc _ => ⟨hu.1.change hc, hu.2.change hu.1 hc⟩)
    hmade (fun _ _ => trivial) ⟨h.tree, hw⟩).2

theorem Safe.mild (h : Safe q s) (hstep : step s a = .next t) (ha : a.isLoud = false) :
    (t.procs q).Spared := by
  obtain ⟨-, cs, hmade, hscript⟩ := h.inv.done hstep
  have hmild : ∀ c ∈ cs, c.isMild = true := by
    intro c hc
    by_contra hc'
    have hc' : c.isMild = false := by simpa using hc'
    rcases script_makes hscript c hc with hq | hm
    · exact absurd (hc'.symm.trans (isMild_of_quiet hq)) (by decide)
    · exact absurd (ha.symm.trans (isLoud_of_makes hm hc')) (by decide)
  exact (made_invariant (I := fun u => (Tree u ∧ Waiting u) ∧ (u.procs q).Spared)
    (fun u c hu hc hk =>
      ⟨⟨hu.1.1.change hc, hu.1.2.change hu.1.1 hc⟩, hu.2.change hu.1.2 hc hk⟩) hmade hmild
    ⟨⟨h.inv.tree, h.waiting⟩, h.spared⟩).2

theorem Safe.loud (h : Safe q s) (hstep : step s a = .next t) (ha : a.isLoud = true) :
    (t.procs q).killedBy ≠ some SIGCHLD := by
  obtain ⟨-, cs, hmade, hscript⟩ := h.inv.done hstep
  have hkeep : ∀ {t u : Table} {cs : List Change}, Run Makes t cs u →
      (∀ c ∈ cs, c.isDosignal = false) → (t.procs q).killedBy ≠ some SIGCHLD →
      (u.procs q).killedBy ≠ some SIGCHLD := fun hmade hno hk =>
    made_invariant
      (fun u c hu hc hk => killedBy_change hc hu fun hd =>
        absurd (hk.symm.trans hd) (by decide)) hmade hno hk
  have hall : ∀ {cs : List Change}, (cs.all fun c => !c.isDosignal) = true →
      ∀ c ∈ cs, c.isDosignal = false :=
    fun h c hc => by simpa using List.all_eq_true.mp h c hc
  cases a with
  | exitTail =>
    obtain ⟨me, parent, status, -, -, -, rfl⟩ := hscript
    cases parent <;> exact hkeep hmade (hall rfl) h.spared.killedBy
  | kill pid sig | sigprocmask mask | sigaction signo handler restorer
      | exec name => obtain ⟨me, -, rfl⟩ := hscript; exact hkeep hmade (hall rfl) h.spared.killedBy
  | killPgrp pgrp sig => obtain rfl := hscript; exact hkeep hmade (hall rfl) h.spared.killedBy
  | sigsuspend oldmask =>
    obtain ⟨me, c, -, rfl, rfl | rfl⟩ := hscript
    · exact hkeep hmade (hall rfl) h.spared.killedBy
    · exact hkeep hmade (hall rfl) h.spared.killedBy
  | sigsuspendEnd fails =>
    obtain ⟨me, newmask, -, -, rfl⟩ := hscript
    cases hmade with
    | cons hm hrest =>
      rw [hm.2] at hrest
      exact hkeep hrest (hall rfl) (h.spared.change h.waiting hm.1 rfl).killedBy
  | _ => cases ha

theorem Safe.next (h : Safe q s) (hstep : step s a = .next t) (hs : a.Spares q t) : Safe q t := by
  refine ⟨(h.inv.next hstep).1, h.inv.waiting h.waiting hstep, ?_⟩
  cases ha : a.isLoud with
  | true => exact ⟨h.loud hstep ha, hs ha⟩
  | false => exact h.mild hstep ha

theorem boot_safe (q : Slot) : Safe q boot := by
  have hidle : (boot.procs q).sig.sigpending = 0 ∧ (boot.procs q).killedBy = none := by
    rcases boot_procs q with h | h <;> rw [h.2] <;> exact ⟨rfl, rfl⟩
  refine ⟨boot_inv, fun p hp => ?_, ⟨?_, .inl (Sig.Shielded.of_zero hidle.1)⟩⟩
  · rw [boot_awake hp.1]
    trivial
  · rw [hidle.2]
    exact nofun

/-- The process of slot `q` is never killed by `SIGCHLD` in a run in which, after each step that
    sends a signal or changes a mask or a handler, it is not open to the signal: none is pending, it
    is blocked or ignored, or the process is in `waitpid`, from which it does not return before a
    child is reaped. -/
theorem sigchld_spares (q : Slot) (as : List Act) (s : State)
    (hrun : Run (fun s a t => step s a = .next t ∧ a.Spares q t) boot as s) :
    (s.procs q).killedBy ≠ some SIGCHLD :=
  (Run.invariant (fun _ _ _ h hn => h.next hn.1 hn.2) hrun (boot_safe q)).spared.killedBy

theorem sigchld_spares_wait : ∃ s, Run (fun s a t => step s a = .next t ∧ a.Spares boot.initproc t)
    boot (waitRun ++ [.dosignal false]) s ∧
    s.reaped.map Reap.pid = [2] ∧ (s.procs boot.initproc).killedBy ≠ some SIGCHLD := by
  obtain ⟨s, hrun, hpid⟩ := Outcome.exists_guarded (fun _ => Act.Spares boot.initproc)
      step boot (waitRun ++ [.dosignal false])
    (fun s => s.reaped.map Reap.pid = [2]) (by decide +kernel)
  exact ⟨s, hrun, hpid, sigchld_spares boot.initproc _ s hrun⟩

/-- `init` installs no handler; its child exits while it is in user mode, and the signal kills
    it. -/
theorem exit_kills_parent : ∃ s, Run (Outcome.rel step) boot
    (childExits ++ [.exitTail, .schedule, .scan, .schedule, .dosignal false]) s ∧
    (s.procs s.initproc).sig.killed = true ∧ (s.procs s.initproc).killedBy = some SIGCHLD :=
  Outcome.exists_run step boot _ _ (by decide +kernel)

end Micro86.Ptable
