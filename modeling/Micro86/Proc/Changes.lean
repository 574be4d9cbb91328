import Micro86.Proc.Tree

/-!
# What a change does to one slot

* `Change.became` — every change where it fits; the invariants of runs are read off from it.
-/

namespace Micro86.Ptable

open Signal Exec

/-- The signals of a process are left alone. -/
structure Proc.Calm (p q : Proc) : Prop where
  born : q.born = p.born
  sig : q.sig = p.sig
  posted : q.posted = p.posted
  killedBy : q.killedBy = p.killedBy
  used : q.state ≠ .UNUSED → p.state ≠ .UNUSED

/-- What a change does to the signals of slot `q`. -/
inductive Touch (t : Table) : Change → Slot → Proc → Proc → Prop where
  | alloc (me np : Slot) (p : Proc) : Touch t (.alloc me np) np p (p.alloc t.nextpid t.births)
  | inherit (me np : Slot) (p : Proc) : Touch t (.inherit me np) np p ((t.procs me).inherit p)
  | notify (r : Slot) (p : Proc) : Touch t (.notify r) r p (p.post SIGCHLD)
  | freed (me z : Slot) (p : Proc) : Touch t (.reap me z) z p p.freed
  | waited (me z : Slot) (p : Proc) : Touch t (.reap me z) me p p.waited
  | kill (me q : Slot) (pid : Int32) (sig : Nat) (p : Proc) :
      Touch t (.kill me pid sig) q p (p.post sig)
  | killPgrp (q : Slot) (pgrp : Int32) (sig : Nat) (p : Proc) :
      Touch t (.killPgrp pgrp sig) q p (p.post sig)
  | tick (me : Slot) (p : Proc) : Touch t (.tick me) me p p.tick
  | ctrlAltDel (me : Slot) (p : Proc) : Touch t (.ctrlAltDel me) me p
      { p with
        sig := { p.sig with sigpending := UInt32.ofNat SIGINT }, posted := SIGINT :: p.posted }
  | vhangup (me : Slot) (p : Proc) : Touch t (.vhangup me) me p
      { p with
        sig := { p.sig with sigpending := p.sig.sigpending ||| UInt32.ofNat SIGHUP }
        posted := SIGHUP :: p.posted }
  | raise (me : Slot) (p : Proc) : Touch t (.raise me) me p (p.post SIGSEGV)
  | dosignal (me : Slot) (fails : Bool) (p : Proc) :
      Touch t (.dosignal me fails) me p (p.dosignal fails)
  | sigmask (me : Slot) (mask : UInt32) (p : Proc) :
      Touch t (.sigmask me mask) me p { p with sig := { p.sig with sigmask := mask } }
  | sigaction (me : Slot) (signo : Nat) (handler restorer : UInt32) (p : Proc) :
      Touch t (.sigaction me signo handler restorer) me p
      { p with sig := { p.sig with
          sighandlers := Function.update p.sig.sighandlers signo handler
          sigrestorers := Function.update p.sig.sigrestorers signo restorer } }
  | exec (me : Slot) (name : String) (p : Proc) :
      Touch t (.exec me name) me p { p with sig := { p.sig with sighandlers := fun _ => SIG_DFL } }

def Change.isStill : Change → Bool
  | .run _ => false
  | .yield _ => false
  | .sleep _ _ _ => false
  | .zombie _ => false
  | _ => true

def Change.isPlain : Change → Bool
  | .alloc _ _ => false
  | .reap _ _ => false
  | _ => true

namespace Proc.Calm

variable {p q r : Proc}

theorem refl (p : Proc) : p.Calm p := ⟨rfl, rfl, rfl, rfl, id⟩

theorem trans (h : p.Calm q) (h' : q.Calm r) : p.Calm r :=
  ⟨h'.born.trans h.born, h'.sig.trans h.sig, h'.posted.trans h.posted,
    h'.killedBy.trans h.killedBy, h.used ∘ h'.used⟩

theorem wake (p : Proc) : p.Calm p.wake := by
  unfold Proc.wake
  split
  · rename_i h
    exact ⟨rfl, rfl, rfl, rfl, fun _ hu => nomatch hu.symm.trans h⟩
  · exact .refl p

theorem of_wakes {chan : Option Chan} (h : p.Wakes chan q) : p.Calm q := by
  rcases h with rfl | ⟨hs, -, rfl⟩
  · exact .refl _
  · exact ⟨rfl, rfl, rfl, rfl, fun _ hu => nomatch hu.symm.trans hs⟩

theorem handed (me init : Slot) (p : Proc) : p.Calm (p.handed me init) := by
  unfold Proc.handed
  split
  · exact ⟨rfl, rfl, rfl, rfl, id⟩
  · exact .refl p

end Proc.Calm

section

variable {t : Table} {c : Change}

/-- Slot `q` is left alone, or touched. -/
def Touches (t : Table) (c : Change) (q : Slot) (p' : Proc) : Prop :=
  (t.procs q).Calm p' ∨ ∃ p, Touch t c q (t.procs q) p ∧ p.Calm p'

inductive Became (t : Table) (c : Change) (q : Slot) (p' : Proc) : Prop where
  /-- Ids and signals change, or the process is woken up. -/
  | keeps (keeps : (t.procs q).Keeps p') (touch : Touches t c q p')
  /-- The process runs, stops, or goes on elsewhere in the kernel. -/
  | goes (st : PState) (chan : Option Chan) (pc : Pc) (awake : (t.procs q).state.isAwake = true ∧
      st.isAwake = true)
      (still : c.isStill = true → st = (t.procs q).state)
      (own : chan = (t.procs q).chan ∨ chan = none ∨ ∃ ch, chan = some ch ∧
        ∀ r, ch = .proc r → r = q) (patient : t.Patient q pc)
      (eq : p' = { t.procs q with state := st, chan := chan, pc := pc })
  /-- `fork` works on the slot. -/
  | works (before : (t.procs q).state = .UNUSED ∨ (t.procs q).state = .EMBRYO)
      (after : p'.state = .UNUSED ∨ p'.state = .EMBRYO ∨ p'.state = .RUNNABLE ∧ p'.pc = .newborn)
      (born : c.isPlain = true → (t.procs q).state = .EMBRYO ∧
        p'.born = (t.procs q).born) (chan : p'.chan = (t.procs q).chan)
      (parent : p'.parent = (t.procs q).parent ∨ ∃ me, c = .memory me q) (touch : Touches t c q p')
  | handed (me : Slot) (made : c = .adopt me)
      (wakes : ((t.procs q).handed me t.initproc).Wakes (some (.proc t.initproc)) p')
  | zombie (made : c = .zombie q) (eq : p' = { t.procs q with state := .ZOMBIE, pc := .gone })
  | freed (me : Slot) (made : c = .reap me q) (eq : p' = (t.procs q).freed)
  | waited (z : Slot) (made : c = .reap q z) (eq : p' = (t.procs q).waited)

theorem Became.same {q : Slot} : Became t c q (t.procs q) := .keeps (.refl _) (.inl (.refl _))

theorem on_became {p : Slot} {f : Proc → Proc} (h : Became t c p (f (t.procs p))) (q : Slot) :
    Became t c q ((t.on p f).procs q) := by
  exact on_cases q h fun _ => .same

theorem on_touch {p : Slot} {f : Proc → Proc} (hkeeps : (t.procs p).Keeps (f (t.procs p)))
    (h : Touch t c p (t.procs p) (f (t.procs p))) (q : Slot) : Became t c q ((t.on p f).procs q) :=
  on_became (.keeps hkeeps (.inr ⟨_, h, .refl _⟩)) q

theorem fork_became {me np : Slot} {f : Proc → Proc} {pc : Pc}
    (hrun : (t.procs me).state = .RUNNING) (hold : (t.procs me).pc.isWaiting = false)
    (hnew : pc.isWaiting = false) (hnp : (t.procs np).state.isAwake = false)
    (h : Became t c np (f (t.procs np))) (q : Slot) :
    Became t c q (((t.on np f).on me (Proc.atPc pc)).procs q) := by
  have hawake : (t.procs me).state.isAwake = true := by
    rw [hrun]
    rfl
  have hne : np ≠ me := by
    rintro rfl
    exact absurd (hnp.symm.trans hawake) (by decide)
  obtain ⟨h1, h2, h3⟩ := fork_procs hne f (Proc.atPc pc)
  by_cases hqm : q = me
  · rw [hqm, h1]
    exact .goes (t.procs me).state (t.procs me).chan pc ⟨hawake, hawake⟩
      (fun _ => rfl) (.inl rfl) (Table.patient hold hnew) rfl
  by_cases hqn : q = np
  · rw [hqn, h2]
    exact h
  · rw [h3 q hqm hqn]
    exact .same

theorem Proc.keeps_of_eq {p p' : Proc} (hs : p'.state = p.state) (h1 : p'.parent = p.parent)
    (h2 : p'.kstack = p.kstack) (h3 : p'.pgdir = p.pgdir) (h4 : p'.pc = p.pc)
    (h5 : p'.chan = p.chan) (h6 : p'.born = p.born) : p.Keeps p' :=
  ⟨⟨.inl hs, h1, h2, h3, h4⟩, by rw [hs], h5, h6⟩

/-- The slot `fork` works on is an embryo, and it is not returned by `waitpid`. -/
theorem Table.Forks.became {me np : Slot} {stage : Stage} {f : Proc → Proc} {pc : Pc}
    (hf : t.Forks me np stage) (hpc : pc.isWaiting = false)
    (hafter : (f (t.procs np)).state = .UNUSED ∨ (f (t.procs np)).state = .EMBRYO ∨
      (f (t.procs np)).state = .RUNNABLE ∧ (f (t.procs np)).pc = .newborn)
    (hborn : (f (t.procs np)).born = (t.procs np).born)
    (hchan : (f (t.procs np)).chan = (t.procs np).chan)
    (hparent : (f (t.procs np)).parent = (t.procs np).parent ∨ ∃ me, c = .memory me np)
    (htouch : Touches t c np (f (t.procs np))) (q : Slot) :
    Became t c q (((t.on np f).on me (Proc.atPc pc)).procs q) :=
  fork_became hf.1 (by rw [hf.2.1]; rfl) hpc (by rw [hf.2.2]; rfl)
    (.works (.inr hf.2.2) hafter (fun _ => ⟨hf.2.2, hborn⟩) hchan hparent htouch) q

theorem reap_became {me z : Slot} (hne : z ≠ me) (q : Slot) :
    Became t (.reap me z) q (((t.on z Proc.freed).on me Proc.waited).procs q) := by
  obtain ⟨h1, h2, h3⟩ := fork_procs hne Proc.freed Proc.waited
  by_cases hqm : q = me
  · rw [hqm, h1]
    exact .waited z rfl rfl
  by_cases hqz : q = z
  · rw [hqz, h2]
    exact .freed me rfl rfl
  · rw [h3 q hqm hqz]
    exact .same

theorem kill_touches (me : Slot) (pid : Int32) (sig : Nat) (q : Slot) :
    Touches t (.kill me pid sig) q ((t.kill me pid sig).procs q) := by
  unfold Table.kill
  split
  · exact .inl (.refl _)
  rename_i p _
  split
  · exact .inl (.refl _)
  refine on_cases q ?_ fun _ => ?_
  · refine .inr ⟨_, .kill me p pid sig _, ?_⟩
    -- posting comes last, and depends on the signals only
    have hcalm : (t.procs p).Calm (if (t.procs p).state ≠ .ZOMBIE then
        { t.procs p with exitstatus := Int32.ofNat sig } else t.procs p).wake := by
      refine Proc.Calm.trans ?_ (.wake _)
      split
      · exact ⟨rfl, rfl, rfl, rfl, id⟩
      · exact .refl _
    exact ⟨hcalm.born, by simp only [Proc.post, hcalm.sig], by
      simp only [Proc.post, hcalm.posted], hcalm.killedBy, hcalm.used⟩
  · exact .inl (.refl _)

theorem killPgrp_touches (pgrp : Int32) (sig : Nat) (q : Slot) :
    Touches t (.killPgrp pgrp sig) q ((t.killPgrp pgrp sig).procs q) := by
  simp only [Table.killPgrp, Table.all]
  split
  · split
    · exact .inl (.refl _)
    · exact .inr ⟨_, .killPgrp q pgrp sig _, .wake _⟩
  · exact .inl (.refl _)

theorem Change.became (hc : c.Fits t) (q : Slot) : Became t c q ((c.apply t).procs q) := by
  cases c with
  | wakeup chan => exact .keeps (wakeup1_keeps t chan q) (.inl (.of_wakes (wakeup1_wakes t chan q)))
  | run p =>
    refine on_became (f := fun q => { q with state := .RUNNING })
      (.goes .RUNNING _ _ ⟨?_, rfl⟩ (fun h => by cases h) (.inl rfl) (.inl rfl) rfl) q
    rw [show (t.procs p).state = .RUNNABLE from hc]
    rfl
  | yield me =>
    refine on_became (f := fun q => { q with state := .RUNNABLE })
      (.goes .RUNNABLE _ _ ⟨?_, rfl⟩ (fun h => by cases h) (.inl rfl) (.inl rfl) rfl) q
    rw [show (t.procs me).state = .RUNNING from hc]
    rfl
  | sleep me chan pc =>
    refine on_became (f := fun q => { q with chan := some chan, state := .SLEEPING, pc := pc })
      (.goes .SLEEPING (some chan) pc ⟨?_, rfl⟩ (fun h => by cases h)
        (.inr (.inr ⟨chan, rfl, hc.2.2.2⟩)) hc.2.2.1 rfl) q
    rw [hc.1]
    rfl
  | move me pc =>
    have hawake : (t.procs me).state.isAwake = true := by
      rw [hc.1]
      rfl
    exact on_became (f := fun q => { q with chan := none, pc := pc })
      (.goes _ none pc ⟨hawake, hawake⟩ (fun _ => rfl) (.inr (.inl rfl)) hc.2.2 rfl) q
  | alloc me np =>
    refine fork_became hc.1 (by rw [hc.2.1]; rfl) rfl (by rw [hc.2.2]; rfl) ?_ q
    exact .works (.inl hc.2.2) (.inr (.inl rfl)) nofun rfl (.inl rfl)
      (.inr ⟨_, .alloc me np _, .refl _⟩)
  | noStack me np =>
    exact hc.became rfl (.inl rfl) rfl rfl (.inl rfl) (.inl ⟨rfl, rfl, rfl, rfl, absurd rfl⟩) q
  | stack me np =>
    exact hc.became rfl (.inr (.inl hc.2.2)) rfl rfl (.inl rfl) (.inl ⟨rfl, rfl, rfl, rfl, id⟩) q
  | inherit me np =>
    exact hc.became rfl (.inr (.inl hc.2.2)) rfl rfl (.inl rfl)
      (.inr ⟨_, .inherit me np _, .refl _⟩) q
  | noMemory me np =>
    exact hc.became rfl (.inl rfl) rfl rfl (.inl rfl) (.inl ⟨rfl, rfl, rfl, rfl, absurd rfl⟩) q
  | memory me np =>
    exact hc.became rfl (.inr (.inl hc.2.2)) rfl rfl
      (.inr ⟨me, rfl⟩) (.inl ⟨rfl, rfl, rfl, rfl, id⟩) q
  | ready me np =>
    refine hc.became rfl (.inr (.inr ⟨rfl, rfl⟩)) rfl rfl (.inl rfl)
      (.inl ⟨rfl, rfl, rfl, rfl, fun _ h => ?_⟩) q
    exact nomatch h.symm.trans hc.2.2
  | notify parent =>
    exact on_became (f := fun q => (q.post SIGCHLD).wake)
      (.keeps ((Proc.post_keeps SIGCHLD _).trans (Proc.wake_keeps _))
      (.inr ⟨_, .notify parent _, .wake _⟩)) q
  | adopt me => exact .handed me rfl (adopt_procs hc.1 q)
  | zombie me =>
    exact on_became (f := fun q => { q with state := .ZOMBIE, pc := .gone }) (.zombie rfl rfl) q
  | reap me z =>
    refine reap_became ?_ q
    rintro rfl
    exact nomatch hc.1.symm.trans hc.2.2.2
  | kill me pid sig => exact .keeps (kill_keeps t me pid sig q) (kill_touches me pid sig q)
  | killPgrp pgrp sig => exact .keeps (killPgrp_keeps t pgrp sig q) (killPgrp_touches pgrp sig q)
  | tick me => exact on_touch (Proc.tick_keeps _) (.tick me _) q
  | ctrlAltDel me =>
    simp only [Change.apply]
    refine on_touch (Proc.keeps_of_eq rfl rfl rfl rfl rfl rfl rfl) ?_ q
    exact .ctrlAltDel me _
  | vhangup me =>
    simp only [Change.apply]
    refine on_touch (Proc.keeps_of_eq rfl rfl rfl rfl rfl rfl rfl) ?_ q
    exact .vhangup me _
  | raise me => exact on_touch (Proc.post_keeps SIGSEGV _) (.raise me _) q
  | dosignal me fails =>
    exact on_touch (Proc.keeps_of_eq rfl rfl rfl rfl rfl rfl rfl) (.dosignal me fails _) q
  | sigmask me mask =>
    simp only [Change.apply]
    refine on_touch (Proc.keeps_of_eq rfl rfl rfl rfl rfl rfl rfl) ?_ q
    exact .sigmask me mask _
  | sigaction me signo handler restorer =>
    simp only [Change.apply]
    refine on_touch (Proc.keeps_of_eq rfl rfl rfl rfl rfl rfl rfl) ?_ q
    exact .sigaction me signo handler restorer _
  | exec me name =>
    refine on_became
      (f := fun q => { q with name := name, sig := { q.sig with sighandlers := fun _ => SIG_DFL } })
      (.keeps (Proc.keeps_of_eq rfl rfl rfl rfl rfl rfl rfl) (.inr ⟨_, .exec me name _, ?_⟩)) q
    exact ⟨rfl, rfl, rfl, rfl, id⟩
  -- `status`, `alarm` and `setIds`
  | _ =>
    simp only [Change.apply]
    refine on_became (.keeps (Proc.keeps_of_eq rfl rfl rfl rfl rfl rfl rfl) (.inl ?_)) q
    exact ⟨rfl, rfl, rfl, rfl, id⟩

end

end Micro86.Ptable
