import Micro86.Proc.Exit

/-!
# Who gets `SIGCHLD`

* `sigchld_to_parent` — `SIGCHLD` goes to the parent in every run in which no process has got
  another parent while it was half-way through `exit`.
-/

namespace Micro86.Ptable

open Signal Exec

variable {t u : Table} {c : Change} {s : State} {q r me : Slot} {p : Proc} {status : Int32}

/-! ## Channels -/

/-- A process that sleeps on a process sleeps on itself. -/
def Chans (t : Table) : Prop := ∀ q r, (t.procs q).chan = some (.proc r) → r = q

theorem Change.chan (hc : c.Fits t) (q : Slot) :
    ((c.apply t).procs q).chan = (t.procs q).chan ∨ ((c.apply t).procs q).chan = none ∨
      ∃ chan, ((c.apply t).procs q).chan = some chan ∧ ∀ r, chan = .proc r → r = q := by
  cases Change.became hc q with
  | keeps h _ => exact .inl h.chan
  | goes st chan pc _ _ own _ eq =>
    rw [eq]
    exact own
  | works _ _ _ chan _ _ => exact .inl chan
  | handed me _ wakes => exact .inl (wakes.keeps.chan.trans Proc.handed_chan)
  | zombie _ eq | freed me _ eq | waited z _ eq =>
    rw [eq]
    exact .inl rfl

theorem Chans.change (h : Chans t) (hc : c.Fits t) : Chans (c.apply t) := by
  intro q r hr
  rcases c.chan hc q with hsame | hnone | ⟨chan, hchan, hown⟩
  · exact h q r (hsame.symm.trans hr)
  · rw [hnone] at hr
    cases hr
  · exact hown r (Option.some.inj (hchan.symm.trans hr))

theorem boot_chans : Chans boot.toTable := by
  intro q r hr
  rcases boot_procs q with h | h <;> rw [h.2] at hr <;> cases hr

theorem Chans.next {t : State} {a : Act} (h : Inv s) (hchans : Chans s.toTable)
    (hstep : step s a = .next t) : Chans t.toTable := by
  obtain ⟨-, cs, hmade, -⟩ := h.done hstep
  exact made_invariant (fun u c hu hc _ => hu.change hc) hmade (fun _ _ => trivial) hchans

/-! ## The end of `exit` -/

/-- A process that is woken up on the channel of a process is that process. -/
theorem wakes_state {p' : Proc} (hown : ∀ r, p.chan = some (.proc r) → r = q) (hne : q ≠ r)
    (h : p.Wakes (some (.proc r)) p') : p'.state = p.state := by
  rcases h with rfl | ⟨-, hchan, -⟩
  · rfl
  · exact absurd (hown r hchan).symm hne

theorem wakes_sigpending {chan : Option Chan} {q : Proc} (h : p.Wakes chan q) :
    q.sig.sigpending = p.sig.sigpending :=
  h.field (fun p => p.sig.sigpending) fun _ => rfl

theorem told_other {parent : Option Slot} (hq : q ≠ me) (hpar : parent ≠ some q) :
    p.told me q parent status = p := by
  unfold Proc.told
  rw [if_neg hq, if_neg hpar]

theorem wake_sig (p : Proc) : p.wake.sig = p.sig := by
  unfold Proc.wake
  split <;> rfl

theorem exit_posts (hme : me ≠ t.initproc) (h : Run Makes t (exitChanges t me (some r) status) u) :
    (u.procs r).sig.isPending SIGCHLD := by
  obtain ⟨p, p', hw, hw', -, hu⟩ := exit_slot hme h r
  have htold : ((t.procs r).told me r (some r) status).sig.sigpending =
      ((t.procs r).sig.raise SIGCHLD).sigpending := by
    unfold Proc.told
    rw [if_pos rfl]
    split
    · show ((t.procs r).post SIGCHLD).wake.sig.sigpending = _
      rw [wake_sig]
      rfl
    · rw [wake_sig]
      rfl
  have hend : (u.procs r).sig.sigpending = ((t.procs r).sig.raise SIGCHLD).sigpending := by
    have hp' : p'.sig.sigpending = ((t.procs r).sig.raise SIGCHLD).sigpending := by
      rw [wakes_sigpending hw', Proc.handed_sig, wakes_sigpending hw, htold]
    rw [hu]
    split
    · exact hp'
    · exact hp'
  unfold Sig.isPending
  rw [hend]
  exact Sig.isPending_raise.mpr (.inr rfl)

theorem exit_others (hchans : Chans t) (hme : me ≠ t.initproc)
    (h : Run Makes t (exitChanges t me (some r) status) u) (hr : (t.procs me).parent = some r)
    (hq : q ≠ me) (hqr : q ≠ r) :
    (u.procs q).sig.sigpending = (t.procs q).sig.sigpending ∧
    ((u.procs q).state = (t.procs q).state ∨ q = t.initproc ∧
      ∃ z, (t.procs z).parent = some me ∧ (t.procs z).state = .ZOMBIE) := by
  obtain ⟨p, p', hw, hw', hcalm, hu⟩ := exit_slot hme h q
  rw [told_other hq (fun h => hqr (Option.some.inj h).symm), hr] at hw
  rw [if_neg hq] at hu
  have hstate : p.state = (t.procs q).state := wakes_state (hchans q) hqr hw
  refine ⟨?_, ?_⟩
  · rw [hu, wakes_sigpending hw', Proc.handed_sig, wakes_sigpending hw]
  · rw [hu]
    by_cases hqi : q = t.initproc
    · by_cases hz : ∃ z, (t.procs z).parent = some me ∧ (t.procs z).state = .ZOMBIE
      · exact .inr ⟨hqi, hz⟩
      · exact .inl ((hcalm fun z hz' hzz => hz ⟨z, hz', hzz⟩).trans hstate)
    left
    have hown : ∀ r, (p.handed me t.initproc).chan = some (.proc r) → r = q := by
      rw [Proc.handed_chan, hw.keeps.chan]
      exact hchans q
    rw [wakes_state hown hqi hw', Proc.handed_state, hstate]

/-! ## Zombies -/

theorem Change.no_zombie (hc : c.Fits t) (hno : ∀ me, c ≠ .zombie me)
    (h : ((c.apply t).procs q).state = .ZOMBIE) : (t.procs q).state = .ZOMBIE := by
  cases Change.became hc q with
  | keeps hk _ => exact (hk.stays.state.eq rfl).mp h
  | goes st chan pc awake _ _ _ eq =>
    rw [eq] at h
    have hawake := awake.2
    rw [show st = .ZOMBIE from h] at hawake
    cases hawake
  | works _ after _ _ _ _ =>
    rw [h] at after
    rcases after with h | h | h
    · cases h
    · cases h
    · cases h.1
  | handed me _ wakes =>
    rw [← Proc.handed_state]
    exact (wakes.keeps.stays.state.eq rfl).mp h
  | zombie made _ => exact absurd made (hno q)
  | freed me _ eq =>
    rw [eq] at h
    cases h
  | waited z _ eq =>
    rw [eq] at h
    exact h

theorem exit_zombie {parent : Option Slot} (hme : me ≠ t.initproc)
    (h : Run Makes t (exitChanges t me parent status) u) (hq : q ≠ me)
    (hz : (u.procs q).state = .ZOMBIE) : (t.procs q).state = .ZOMBIE := by
  obtain ⟨p, p', hw, hw', -, hu⟩ := exit_slot hme h q
  rw [hu, if_neg hq] at hz
  have hp : p.state = .ZOMBIE := by
    rw [← Proc.handed_state]
    exact (hw'.keeps.stays.state.eq rfl).mp hz
  exact ((told_stays me q parent status (t.procs q)).state.eq rfl).mp
    ((hw.keeps.stays.state.eq rfl).mp hp)

theorem script_zombie {cs : List Change} {a : Act} (h : Script s cs a) (ha : a ≠ .exitTail) :
    ∀ c ∈ cs, ∀ me, c ≠ .zombie me := by
  rintro c hc me rfl
  rcases script_makes h _ hc with hq | hm
  · cases hq
  cases a with
  | exitTail => exact ha rfl
  | _ => cases hm

/-- The parent that `exit` found is still the parent at its end. -/
def Act.Current (s : State) : Act → Prop
  | .exitTail => ∀ e ∈ s.exiting, e.2 = (s.procs e.1).parent
  | _ => True

instance (s : State) (a : Act) : Decidable (a.Current s) := by
  unfold Act.Current
  split
  · exact Option.decidableForallMem _
  · exact instDecidableTrue

theorem exit_next {t : State} (h : step s (.exit status) = .next t) :
    ∃ me, s.cpu = some me ∧ ∀ q, q ≠ me → t.procs q = s.procs q := by
  simp only [step, State.running] at h
  split at h
  · rename_i me hcpu
    split at h
    · refine ⟨me, hcpu, fun q hq => ?_⟩
      unfold ofExec exit at h
      rw [bind_of_ok (show Exec.get s = .ok (s, s) from rfl)] at h
      split at h
      · rename_i hok
        split at hok
        · split at hok <;> cases hok
        cases h
        cases hok
        simp [Change.apply, on_ne hq]
      · cases h
    · cases h
  · cases h

/-- In every run in which the parent that `exit` found is still the parent at its end: a process
    becomes a zombie at the end of its own `exit` only, its parent then has `SIGCHLD` pending, and
    an `exit` changes the pending signals and the state of no other process, but for `init` if it
    inherits a zombie. -/
theorem sigchld_to_parent (as : List Act) (s t : State) (a : Act)
    (hrun : Run (fun s a t => step s a = .next t ∧ a.Current s) boot as s)
    (hcur : a.Current s) (hstep : step s a = .next t) :
    (∀ z, (s.procs z).state ≠ .ZOMBIE → (t.procs z).state = .ZOMBIE →
      a = .exitTail ∧ s.cpu = some z ∧ ∃ r, (s.procs z).parent = some r ∧
        (t.procs r).sig.isPending SIGCHLD) ∧
    ∀ me, s.cpu = some me → (a = .exitTail ∨ ∃ status, a = .exit status) →
      ∀ q, q ≠ me → (s.procs me).parent ≠ some q →
      (t.procs q).sig.sigpending = (s.procs q).sig.sigpending ∧
      ((t.procs q).state = (s.procs q).state ∨
        q = s.initproc ∧ ∃ z, (s.procs z).parent = some me ∧ (s.procs z).state = .ZOMBIE) := by
  have hall : Inv s ∧ Chans s.toTable := Run.invariant (I := fun s => Inv s ∧ Chans s.toTable)
    (fun s a t h hn => ⟨(h.1.next hn.1).1, h.2.next h.1 hn.1⟩) hrun ⟨boot_inv, boot_chans⟩
  obtain ⟨⟨hset, ht, -⟩, hchans⟩ := hall
  have hspec := step_spec hset ht a
  rw [hstep] at hspec
  obtain ⟨-, cs, hmade, hscript⟩ := hspec
  by_cases ha : a = .exitTail
  · subst ha
    obtain ⟨me, parent, status, hcpu, hpc, -, rfl⟩ := hscript
    have hawake : (s.procs me).state.isAwake = true := by
      rw [hset.isRunning hcpu]
      rfl
    have hme : me ≠ s.initproc := ht.closing me (by rw [hpc]; rfl) hawake
    obtain ⟨r, hr⟩ := Option.isSome_iff_exists.mp ((ht.live me (.inl hawake)).2.2 hme)
    obtain rfl : parent = some r := (hcur (me, parent) (exiting_closing hcpu hpc)).trans hr
    have hposted := exit_posts hme hmade
    refine ⟨fun z hz hz' => ?_, fun me' hcpu' _ q hq hpar => ?_⟩
    · have hzm : z = me := by
        by_contra hne
        exact hz (exit_zombie hme hmade hne hz')
      rw [hzm]
      exact ⟨rfl, hcpu, r, hr, hposted⟩
    · obtain rfl : me' = me := Option.some.inj (hcpu'.symm.trans hcpu)
      exact exit_others hchans hme hmade hr hq fun hqr => hpar (hqr ▸ hr)
  · refine ⟨fun z hz hz' => ?_, fun me hcpu hexit q hq _ => ?_⟩
    · refine absurd (?_ : (s.procs z).state = .ZOMBIE) hz
      exact made_invariant (I := fun u => ∀ z, (u.procs z).state = .ZOMBIE →
        (s.procs z).state = .ZOMBIE)
        (fun u c hu hc hno z hz => hu z (Change.no_zombie hc hno hz))
          hmade (script_zombie hscript ha) (fun _ => id) z hz'
    · obtain ⟨status, rfl⟩ := hexit.resolve_left ha
      obtain ⟨me', hcpu', hsame⟩ := exit_next hstep
      obtain rfl : me' = me := Option.some.inj (hcpu'.symm.trans hcpu)
      rw [hsame q hq]
      exact ⟨rfl, .inl rfl⟩

theorem sigchld_to_parent_init :
    ∃ s t, Run (fun s a t => step s a = .next t ∧ a.Current s) boot childExits s ∧
    step s .exitTail = .next t ∧ ∃ z r, (s.procs z).parent = some r ∧
      (t.procs r).sig.isPending SIGCHLD := by
  obtain ⟨s, hrun, hcur, hlive, hnext⟩ :=
    Outcome.exists_guarded (fun s a _ => Act.Current s a) step boot childExits
    (fun s => Act.Current s .exitTail ∧ (s.procs ⟨1, by decide⟩).state ≠ .ZOMBIE ∧
      (step s .exitTail).Next fun t => (t.procs ⟨1, by decide⟩).state = .ZOMBIE) (by decide +kernel)
  obtain ⟨t, ht, hz⟩ := hnext.exists
  obtain ⟨-, -, r, hr⟩ := (sigchld_to_parent childExits s t .exitTail hrun hcur ht).1 _ hlive hz
  exact ⟨s, t, hrun, ht, _, r, hr⟩

/-- `init` has a handler and forks 1, which forks 2; 2 sleeps in `exit`, 1 exits and is reaped, and
    `init` forks another process into slot 1, before 2 goes on. -/
def staleRun : List Act :=
  [.scan, .schedule, .exec "init", .sigaction SIGCHLD 0x200 0x300] ++
    forkAll ++ [.yield, .schedule] ++ forkAll ++
  [.yield, .schedule, .exit 0, .sleep 0, .schedule, .scan, .schedule,
    .yield, .schedule, .exit 0, .exitTail, .schedule, .scan, .schedule,
    .waitpid (-1) 0] ++ forkAll ++ [.wakeup 0, .yield, .schedule, .yield, .schedule]

/-- The process that has got the slot gets the signal, and `init`, the parent of 2, does not. -/
theorem stale_parent_signalled :
    ∃ s, Run (Outcome.rel step) boot staleRun s ∧ ∃ p q : Slot, p ≠ q ∧ s.cpu = some q ∧
    (s.procs q).parent = some s.initproc ∧ ∃ t, step s .exitTail = .next t ∧
      (t.procs q).state = .ZOMBIE ∧
      ¬ (t.procs s.initproc).sig.isPending SIGCHLD ∧
        (t.procs p).sig.sigpending ≠ (s.procs p).sig.sigpending := by
  obtain ⟨s, hrun, hcpu, hpar, hnext⟩ := Outcome.exists_run step boot staleRun
    (fun s => s.cpu = some ⟨2, by decide⟩ ∧ (s.procs ⟨2, by decide⟩).parent = some s.initproc ∧
      (step s .exitTail).Next fun t => (t.procs ⟨2, by decide⟩).state = .ZOMBIE ∧
        ¬ (t.procs s.initproc).sig.isPending SIGCHLD ∧
        (t.procs ⟨1, by decide⟩).sig.sigpending ≠
          (s.procs ⟨1, by decide⟩).sig.sigpending) (by decide +kernel)
  obtain ⟨t, ht, hz, hno, hposted⟩ := hnext.exists
  exact ⟨s, hrun, ⟨1, by decide⟩, _, by decide, hcpu, hpar, t, ht, hz, hno, hposted⟩

end Micro86.Ptable
