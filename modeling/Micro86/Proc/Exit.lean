import Micro86.Proc.Steps

/-!
# Exit and wait

* `Life` — processes are numbered by their creation; a number is returned by `waitpid` at most once.
* `children_reaped_once` — the tree of processes and the returns of `waitpid`, in every run.
* `exit_succeeds` — `exit` reaches none of the panics of `sched` in every run in which no parent
  ignores `SIGCHLD`.
* `descends_from_init` — no process is cut off from `init`.
-/

namespace Micro86.Ptable

open Signal Exec

variable {t u : Table} {c : Change} {me : Slot} {s : State} {parent : Option Slot} {status : Int32}

/-! ## Numbers of processes -/

structure Life (t : Table) : Prop where
  below : ∀ q, (t.procs q).state ≠ .UNUSED → (t.procs q).born < t.births
  distinct : ∀ p q, (t.procs p).state ≠ .UNUSED → (t.procs q).state ≠ .UNUSED →
    (t.procs p).born = (t.procs q).born → p = q
  fresh : ∀ q, (t.procs q).state ≠ .UNUSED → ∀ r ∈ t.reaped, r.child ≠ (t.procs q).born
  returned : ∀ r ∈ t.reaped, r.child < t.births ∧ r.parent = some r.caller ∧ r.owned = true
  once : (t.reaped.map Reap.child).Nodup

def Proc.isLive (p : Proc) : Prop := p.state.isAwake = true ∨ p.state = .ZOMBIE

/-- The slot is used by the process it was used by, or by none. -/
structure Proc.Lasts (p q : Proc) : Prop where
  born : q.born = p.born
  live : p.isLive → q.isLive
  used : q.state ≠ .UNUSED → p.state ≠ .UNUSED

namespace Proc

variable {p q r : Proc}

theorem Lasts.refl (p : Proc) : p.Lasts p := ⟨rfl, id, id⟩

theorem Lasts.trans (h : p.Lasts q) (h' : q.Lasts r) :
    p.Lasts r := ⟨h'.born.trans h.born, h'.live ∘ h.live, h.used ∘ h'.used⟩

theorem Lasts.of_turns (hborn : q.born = p.born) (h : p.state.Turns q.state) : p.Lasts q := by
  refine ⟨hborn, fun hp => ?_, fun hq hp => hq ((h.eq rfl).mpr hp)⟩
  rcases hp with hp | hp
  · exact .inl (h.isAwake.trans hp)
  · exact .inr ((h.eq rfl).mpr hp)

theorem Lasts.of_embryo (hborn : q.born = p.born) (h : p.state = .EMBRYO) : p.Lasts q := by
  refine ⟨hborn, fun hp => ?_, fun _ hp => nomatch hp.symm.trans h⟩
  rw [Proc.isLive, h] at hp
  rcases hp with hp | hp <;> cases hp

theorem Keeps.lasts (h : p.Keeps q) : p.Lasts q := .of_turns h.born h.stays.state

theorem Lasts.handed (me init : Slot) (p : Proc) : p.Lasts (p.handed me init) := by
  unfold Proc.handed
  split
  · exact ⟨rfl, id, id⟩
  · exact .refl p

end Proc

theorem on_lasts {p : Slot} {f : Proc → Proc} (h : (t.procs p).Lasts (f (t.procs p))) (q : Slot) :
    (t.procs q).Lasts ((t.on p f).procs q) := by
  exact on_cases q h fun _ => .refl _

theorem Change.lasts (hc : c.Fits t) (hplain : c.isPlain = true) (q : Slot) :
    (t.procs q).Lasts ((c.apply t).procs q) := by
  cases Change.became hc q with
  | keeps h _ => exact h.lasts
  | goes st chan pc awake _ _ _ eq =>
    rw [eq]
    exact .of_turns rfl (.inr awake)
  | works _ _ born _ _ _ => exact .of_embryo (born hplain).2 (born hplain).1
  | handed me _ wakes => exact (Proc.Lasts.handed me t.initproc _).trans wakes.keeps.lasts
  | zombie made eq =>
    rw [made] at hc
    rw [eq]
    exact ⟨rfl, fun _ => .inr rfl, fun _ h => nomatch h.symm.trans hc.1⟩
  | freed me made _ | waited z made _ =>
    rw [made] at hplain
    cases hplain

theorem Change.plain_lists (hc : c.Fits t) (hplain : c.isPlain = true) :
    (c.apply t).births = t.births ∧ (c.apply t).reaped = t.reaped := by
  cases c with
  | alloc me np | reap me p => cases hplain
  | adopt me => exact ⟨(adopt_spec slots hc.1).births, (adopt_spec slots hc.1).reaped⟩
  | kill me pid sig =>
    simp only [Change.apply, Table.kill]
    split
    · exact ⟨rfl, rfl⟩
    split
    · exact ⟨rfl, rfl⟩
    · exact ⟨rfl, rfl⟩
  | _ => exact ⟨rfl, rfl⟩

theorem Life.plain (h : Life t) (hbirths : u.births = t.births) (hreaped : u.reaped = t.reaped)
    (hlasts : ∀ q, (t.procs q).Lasts (u.procs q)) : Life u := by
  refine ⟨fun q hq => ?_, fun p q hp hq heq => ?_, fun q hq r hr => ?_, fun r hr => ?_, ?_⟩
  · rw [(hlasts q).born, hbirths]
    exact h.below q ((hlasts q).used hq)
  · rw [(hlasts p).born, (hlasts q).born] at heq
    exact h.distinct p q ((hlasts p).used hp) ((hlasts q).used hq) heq
  · rw [(hlasts q).born]
    exact h.fresh q ((hlasts q).used hq) r (hreaped ▸ hr)
  · rw [hbirths]
    exact h.returned r (hreaped ▸ hr)
  · rw [hreaped]
    exact h.once

theorem Life.alloc (h : Life t) {np : Slot} (hrun : (t.procs me).state = .RUNNING)
    (hnp : (t.procs np).state = .UNUSED) : Life (Change.apply t (.alloc me np)) := by
  have hne : np ≠ me := by
    rintro rfl
    rw [hrun] at hnp
    cases hnp
  obtain ⟨h1, h2, h3⟩ :=
    fork_procs hne (Proc.alloc t.nextpid t.births) (Proc.atPc (.forking np .stack))
  set u := Change.apply t (.alloc me np) with hu
  have hnew : (u.procs np).born = t.births := by
    show (((t.on np (Proc.alloc t.nextpid t.births)).on me
        (Proc.atPc (.forking np .stack))).procs np).born = _
    rw [h2]
    rfl
  have hold : ∀ q, q ≠ np → (u.procs q).state = (t.procs q).state ∧
      (u.procs q).born = (t.procs q).born := by
    intro q hq
    have huq : u.procs q = ((t.on np (Proc.alloc t.nextpid t.births)).on
        me (Proc.atPc (.forking np .stack))).procs q := rfl
    rw [huq]
    by_cases hqm : q = me
    · rw [hqm, h1]
      exact ⟨rfl, rfl⟩
    · rw [h3 q hqm hq]
      exact ⟨rfl, rfl⟩
  have hlt : ∀ q, q ≠ np → (u.procs q).state ≠ .UNUSED → (u.procs q).born < t.births := by
    intro q hq hs
    rw [(hold q hq).1] at hs
    rw [(hold q hq).2]
    exact h.below q hs
  refine ⟨fun q hq => ?_, fun p q hp hq heq => ?_, fun q hq r hr => ?_, fun r hr => ?_, h.once⟩
  · show (u.procs q).born < t.births + 1
    by_cases hqn : q = np
    · rw [hqn, hnew]
      exact Nat.lt_succ_self _
    · exact Nat.lt_succ_of_lt (hlt q hqn hq)
  · by_cases hpn : p = np
    · by_cases hqn : q = np
      · rw [hpn, hqn]
      have := hlt q hqn hq
      rw [← heq, hpn, hnew] at this
      exact absurd this (Nat.lt_irrefl _)
    by_cases hqn : q = np
    · have := hlt p hpn hp
      rw [heq, hqn, hnew] at this
      exact absurd this (Nat.lt_irrefl _)
    rw [(hold p hpn).1] at hp
    rw [(hold q hqn).1] at hq
    rw [(hold p hpn).2, (hold q hqn).2] at heq
    exact h.distinct p q hp hq heq
  · by_cases hqn : q = np
    · rw [hqn, hnew]
      exact Nat.ne_of_lt (h.returned r hr).1
    rw [(hold q hqn).1] at hq
    rw [(hold q hqn).2]
    exact h.fresh q hq r hr
  · exact ⟨Nat.lt_succ_of_lt (h.returned r hr).1, (h.returned r hr).2⟩

theorem Life.reap (h : Life t) (ht : Tree t) {p : Slot} (hpar : (t.procs p).parent = some me)
    (hz : (t.procs p).state = .ZOMBIE) : Life (t.reap me p) := by
  have hused : (t.procs p).state ≠ .UNUSED := by rw [hz]; decide
  obtain ⟨hk, hd, -⟩ := ht.live p (.inr hz)
  have hgone : ∀ q, ((t.reap me p).procs q).state ≠ .UNUSED →
      (t.procs q).state ≠ .UNUSED ∧ q ≠ p ∧ ((t.reap me p).procs q).born = (t.procs q).born := by
    intro q hq
    have hborn : ((t.reap me p).procs q).born = (t.procs q).born :=
      (on_field Proc.born rfl q).trans (on_field Proc.born rfl q)
    have hst : ((t.reap me p).procs q).state = ((t.on p Proc.freed).procs q).state :=
      on_field Proc.state rfl q
    rw [hst] at hq
    by_cases hqp : q = p
    · rw [hqp, on_self] at hq
      exact absurd rfl hq
    · rw [on_ne hqp] at hq
      exact ⟨hq, hqp, hborn⟩
  refine ⟨fun q hq => ?_, fun q q' hq hq' heq => ?_, fun q hq r hr => ?_, fun r hr => ?_, ?_⟩
  · obtain ⟨hqs, -, hborn⟩ := hgone q hq
    rw [hborn]
    exact h.below q hqs
  · obtain ⟨hqs, -, hborn⟩ := hgone q hq
    obtain ⟨hqs', -, hborn'⟩ := hgone q' hq'
    rw [hborn, hborn'] at heq
    exact h.distinct q q' hqs hqs' heq
  · obtain ⟨hqs, hqp, hborn⟩ := hgone q hq
    rw [hborn]
    rcases List.mem_cons.mp hr with rfl | hr
    · exact fun heq => hqp (h.distinct p q hused hqs heq).symm
    · exact h.fresh q hqs r hr
  · rcases List.mem_cons.mp hr with rfl | hr
    · exact ⟨h.below p hused, hpar, by simp [hk, hd]⟩
    · exact h.returned r hr
  · show ((t.procs p).born :: t.reaped.map Reap.child).Nodup
    refine List.nodup_cons.mpr ⟨fun hmem => ?_, h.once⟩
    obtain ⟨r, hr, heq⟩ := List.mem_map.mp hmem
    exact h.fresh p hused r hr heq

theorem Life.change (h : Life t) (ht : Tree t) (hc : c.Fits t) : Life (c.apply t) := by
  by_cases hplain : c.isPlain = true
  · obtain ⟨hb, hr⟩ := Change.plain_lists hc hplain
    exact h.plain hb hr (Change.lasts hc hplain)
  cases c with
  | alloc me np => exact h.alloc hc.1 hc.2.2
  | reap me p => exact h.reap ht hc.2.2.1 hc.2.2.2
  | _ => exact absurd rfl hplain

/-- A process that is live stays so until `waitpid` returns it. -/
structure Holds (t u : Table) : Prop where
  reaped : t.reaped <:+ u.reaped
  live : ∀ q, (t.procs q).isLive → (u.procs q).isLive ∧ (u.procs q).born = (t.procs q).born ∨
    ∃ r ∈ u.reaped, r.child = (t.procs q).born

theorem Holds.refl (t : Table) : Holds t t := ⟨List.suffix_refl _, fun _ h => .inl ⟨h, rfl⟩⟩

theorem Holds.trans {v : Table} (h : Holds t u) (h' : Holds u v) : Holds t v := by
  refine ⟨h.reaped.trans h'.reaped, fun q hq => ?_⟩
  rcases h.live q hq with ⟨hl, hb⟩ | ⟨r, hr, hc⟩
  · rcases h'.live q hl with ⟨hl', hb'⟩ | ⟨r, hr, hc⟩
    · exact .inl ⟨hl', hb'.trans hb⟩
    · exact .inr ⟨r, hr, hc.trans hb⟩
  · exact .inr ⟨r, h'.reaped.subset hr, hc⟩

theorem Holds.change (hc : c.Fits t) : Holds t (c.apply t) := by
  by_cases hplain : c.isPlain = true
  · have hlast := Change.lasts hc hplain
    exact ⟨(Change.plain_lists hc hplain).2 ▸ List.suffix_refl _,
      fun q hq => .inl ⟨(hlast q).live hq, (hlast q).born⟩⟩
  cases c with
  | alloc me np =>
    refine ⟨List.suffix_refl _, fun q hq => .inl ?_⟩
    have hqn : q ≠ np := by
      rintro rfl
      rw [Proc.isLive, hc.2.2] at hq
      rcases hq with hq | hq <;> cases hq
    have hlast := on_lasts (t := t.on np (Proc.alloc t.nextpid t.births))
        (p := me) (f := Proc.atPc (.forking np .stack)) ⟨rfl, id, id⟩ q
    rw [on_ne hqn] at hlast
    exact ⟨hlast.live hq, hlast.born⟩
  | reap me p =>
    refine ⟨List.suffix_cons _ _, fun q hq => ?_⟩
    by_cases hqp : q = p
    · exact .inr ⟨_, .head _, by rw [hqp]⟩
    have hlast := on_lasts (t := t.on p Proc.freed) (p := me) (f := Proc.waited) ⟨rfl, id, id⟩ q
    rw [on_ne hqp] at hlast
    exact .inl ⟨hlast.live hq, hlast.born⟩
  | _ => exact absurd rfl hplain

/-! ## Runs -/

structure Inv (s : State) : Prop where
  settled : Settled s
  tree : Tree s.toTable
  life : Life s.toTable

theorem Inv.done {t : State} {a : Act} (h : Inv s) (hstep : step s a = .next t) :
    Done s.toTable (Script s · a) t := by
  have hspec := step_spec h.settled h.tree a
  rwa [hstep] at hspec

theorem Inv.next {t : State} {a : Act} (h : Inv s) (hstep : step s a = .next t) :
    Inv t ∧ Holds s.toTable t.toTable := by
  obtain ⟨hset, cs, hrun, -⟩ := h.done hstep
  have hall : (Tree t.toTable ∧ Life t.toTable) ∧ Holds s.toTable t.toTable :=
    made_invariant (I := fun u => (Tree u ∧ Life u) ∧ Holds s.toTable u)
      (fun u c hu hc _ => ⟨⟨hu.1.1.change hc, hu.1.2.change hu.1.1 hc⟩, hu.2.trans (.change hc)⟩)
        hrun (fun _ _ => trivial)
      ⟨⟨h.tree, h.life⟩, .refl _⟩
  exact ⟨⟨hset, hall.1.1, hall.1.2⟩, hall.2⟩

theorem boot_procs (q : Slot) :
    q = boot.initproc ∧ boot.procs q = userInit ∨ q ≠ boot.initproc ∧ boot.procs q = freeProc := by
  by_cases hq : q.val = 0
  · exact .inl ⟨Fin.ext hq, if_pos hq⟩
  · exact .inr ⟨fun h => hq (congrArg Fin.val h), if_neg hq⟩

theorem boot_used {q : Slot} (h : (boot.procs q).state ≠ .UNUSED) :
    q = boot.initproc ∧ boot.procs q = userInit := by
  rcases boot_procs q with hq | hq
  · exact hq
  · rw [hq.2] at h
    exact absurd rfl h

theorem boot_awake {q : Slot} (h : (boot.procs q).state.isAwake = true) :
    boot.procs q = userInit := by
  refine (boot_used fun hu => ?_).2
  rw [hu] at h
  cases h

theorem boot_inv : Inv boot := by
  refine ⟨⟨fun p => ?_, absurd rfl, rfl⟩,
    ⟨⟨rfl, rfl⟩, fun q hq => ?_, fun q hq => ?_, fun p np stage hp ha => ?_,
    fun p p' np stage stage' hp hp' ha ha' => ?_, fun q r hq =>
      ?_, fun q hq => ?_, fun p hp ha => ?_⟩,
    ⟨fun q hq => ?_, fun p q hp hq _ => ?_, fun q hq r hr => (nomatch hr),
      fun r hr => (nomatch hr), List.nodup_nil⟩⟩
  · refine ⟨fun hp => ?_, nofun⟩
    rcases boot_procs p with h | h <;> rw [h.2] at hp <;> cases hp
  · rcases boot_procs q with h | h
    · rw [h.2] at hq
      cases hq
    · rw [h.2]
      exact ⟨rfl, rfl, rfl⟩
  · rcases boot_procs q with h | h <;> rw [h.2] at hq <;> cases hq
  · rw [boot_awake ha] at hp
    cases hp
  · rw [boot_awake ha] at hp
    cases hp
  · rcases boot_procs q with h | h <;> rw [h.2] at hq <;> cases hq
  · have hused : (boot.procs q).state ≠ .UNUSED := by
      intro hu
      rw [hu] at hq
      rcases hq with hq | hq <;> cases hq
    obtain ⟨hinit, hproc⟩ := boot_used hused
    rw [hproc]
    exact ⟨rfl, rfl, absurd hinit⟩
  · rw [boot_awake ha] at hp
    cases hp
  · rw [(boot_used hq).2]
    decide
  · rw [(boot_used hp).1, (boot_used hq).1]

theorem Inv.run {t : State} {as : List Act} (h : Inv s) (hrun : Run (Outcome.rel step) s as t) :
    Inv t ∧ Holds s.toTable t.toTable :=
  Run.invariant (I := fun u => Inv u ∧ Holds s.toTable u.toTable)
    (fun _ _ _ hu hstep => ⟨(hu.1.next hstep).1, hu.2.trans (hu.1.next hstep).2⟩) hrun ⟨h, .refl _⟩

/-- In every state that is reached: a process other than `init` that is neither free nor an embryo
    has a parent that is neither free nor a zombie, and a zombie has no children; `waitpid` has
    returned each child at most once, to the process that was its parent, when the child had its
    stack and page table; and a process keeps both until then, after which they are gone. -/
theorem children_reaped_once (as : List Act) (s : State) (hrun : Run (Outcome.rel step) boot as s) :
    (∀ q, q ≠ s.initproc → (s.procs q).state ≠ .UNUSED → (s.procs q).state ≠ .EMBRYO →
      ∃ r, (s.procs q).parent = some r ∧ (s.procs r).state ≠ .UNUSED ∧
        (s.procs r).state ≠ .ZOMBIE) ∧
    (∀ q, (s.procs q).state = .ZOMBIE → ∀ p, (s.procs p).parent ≠ some q) ∧
    (s.reaped.map Reap.child).Nodup ∧ (∀ r ∈ s.reaped, r.parent = some r.caller ∧ r.owned = true) ∧
    (∀ q, (s.procs q).isLive → (s.procs q).kstack = true ∧ (s.procs q).pgdir = true ∧
      ∀ r ∈ s.reaped, r.child ≠ (s.procs q).born) ∧
    (∀ q, (s.procs q).state = .UNUSED → (s.procs q).kstack = false ∧ (s.procs q).pgdir = false) ∧
    ∀ bs t, Run (Outcome.rel step) s bs t → ∀ q, (s.procs q).isLive →
      (t.procs q).isLive ∧ (t.procs q).born = (s.procs q).born ∨
      ∃ r ∈ t.reaped, r.child = (s.procs q).born := by
  obtain ⟨⟨hset, ht, hl⟩, -⟩ := boot_inv.run hrun
  refine ⟨fun q hq hu he => ?_, fun q hq p hp => ?_, hl.once,
    fun r hr => (hl.returned r hr).2, fun q hq => ?_, fun q hq => (ht.unused q hq).2,
    fun bs t hbs q hq => ((⟨hset, ht, hl⟩ : Inv s).run hbs).2.live q hq⟩
  · have hlive : (s.procs q).isLive := by
      unfold Proc.isLive
      cases hs : (s.procs q).state with
      | UNUSED => exact absurd hs hu
      | EMBRYO => exact absurd hs he
      | SLEEPING | RUNNABLE | RUNNING => exact .inl rfl
      | ZOMBIE => exact .inr rfl
    obtain ⟨r, hr⟩ := Option.isSome_iff_exists.mp ((ht.live q hlive).2.2 hq)
    have hawake := ht.child q r hr
    refine ⟨r, hr, fun h => ?_, fun h => ?_⟩
    · rw [h] at hawake
      cases hawake
    · rw [h] at hawake
      cases hawake
  · have hawake := ht.child p q hp
    rw [hq] at hawake
    cases hawake
  · refine ⟨(ht.live q hq).1, (ht.live q hq).2.1, hl.fresh q fun hu => ?_⟩
    rw [Proc.isLive, hu] at hq
    rcases hq with hq | hq <;> cases hq

def forkAll : List Act := [.fork, .kalloc true, .inherit, .copyuvm true, .ready]

def waitRun : List Act :=
  [.scan, .schedule, .exec "init"] ++ forkAll ++
    [.waitpid (-1) 0, .schedule, .exit 0, .exitTail, .schedule, .scan, .schedule]

theorem children_reaped_once_wait :
    ∃ s, Run (Outcome.rel step) boot waitRun s ∧ s.reaped.map Reap.pid = [2] ∧
    (s.reaped.map Reap.child).Nodup := by
  obtain ⟨s, hrun, hpid⟩ :=
    Outcome.exists_run step boot waitRun (fun s => s.reaped.map Reap.pid = [2]) (by decide +kernel)
  exact ⟨s, hrun, hpid, (children_reaped_once waitRun s hrun).2.2.1⟩

/-! ## `exit` -/

/-- The process that runs, if it is inside `exit`, with the parent it found there. -/
def State.exiting (s : State) : Option (Slot × Option Slot) :=
  s.cpu.bind fun me =>
    match (s.procs me).pc with
    | .closing parent _ => some (me, parent)
    | _ => none

theorem exiting_closing (hcpu : s.cpu = some me)
    (hpc : (s.procs me).pc = .closing parent status) : s.exiting = some (me, parent) := by
  unfold State.exiting
  rw [hcpu, Option.bind_some, hpc]

/-- The end of `exit` finds a parent that does not ignore `SIGCHLD`. -/
def Act.Heeded (s : State) : Act → Prop
  | .exitTail => ∀ e ∈ s.exiting, s.ignores e.2 = false
  | _ => True

instance (s : State) (a : Act) : Decidable (a.Heeded s) := by
  unfold Act.Heeded
  split
  · exact Option.decidableForallMem _
  · exact instDecidableTrue

theorem made_eq {cs : List Change} (h : Run Makes t cs u) : u = cs.foldl Change.apply t := by
  induction h with
  | nil => rfl
  | cons hm _ ih =>
    rw [ih, hm.2]
    rfl

/-- A slot after the parent was told and the exit status stored. -/
def Proc.told (me q : Slot) (parent : Option Slot) (status : Int32) (p : Proc) : Proc :=
  let p' := if parent = some q then (p.post SIGCHLD).wake else p
  if q = me then { p' with exitstatus := status } else p'

theorem exit_slot (hme : me ≠ t.initproc)
    (h : Run Makes t (exitChanges t me parent status) u) (q : Slot) :
    ∃ p p', ((t.procs q).told me q parent status).Wakes ((t.procs me).parent.map .proc) p ∧
      (p.handed me t.initproc).Wakes (some (.proc t.initproc)) p' ∧
      ((∀ z, (t.procs z).parent = some me → (t.procs z).state ≠ .ZOMBIE) → p'.state = p.state) ∧
      u.procs q = if q = me then { p' with state := .ZOMBIE, pc := .gone } else p' := by
  -- the table after the first changes
  set t1 : Table := (parent.toList.map Change.notify).foldl Change.apply t with ht1
  have hinit1 : t1.initproc = t.initproc := by
    cases parent with
    | none | some r => rfl
  have hproc1 :
      ∀ q, t1.procs q = if parent = some q then ((t.procs q).post SIGCHLD).wake else t.procs q := by
    intro q
    cases parent with
    | none => rfl
    | some r =>
      show (t.on r fun q => (q.post SIGCHLD).wake).procs q = _
      refine on_cases q ?_ fun hq => ?_
      · rw [if_pos rfl]
      · rw [if_neg fun h => hq (Option.some.inj h).symm]
  set t2 := t1.on me fun q => { q with exitstatus := status } with ht2
  have hproc2 : t2.procs q = (t.procs q).told me q parent status := by
    unfold Proc.told
    by_cases hq : q = me
    · rw [hq, ht2, on_self, hproc1, if_pos rfl]
    · rw [ht2, on_ne hq, hproc1, if_neg hq]
  set t3 := t2.wakeup1 ((t.procs me).parent.map .proc) with ht3
  have hme3 : me ≠ t3.initproc := by
    show me ≠ t1.initproc
    rw [hinit1]
    exact hme
  have hu : u = (Table.adopt me slots t3).on me fun q =>
      { q with state := .ZOMBIE, pc := .gone } := by
    rw [made_eq h, exitChanges, List.foldl_append]
    rfl
  have hw := wakeup1_wakes t2 ((t.procs me).parent.map .proc) q
  have ha := adopt_procs hme3 q
  rw [show t3.initproc = t.initproc from hinit1] at ha
  rw [hproc2] at hw
  refine ⟨t3.procs q, (Table.adopt me slots t3).procs q, hw, ha, fun hno => ?_, ?_⟩
  · refine adopt_calm hme3 (fun z _ hpar hz => ?_) q
    -- parents and zombies are those of before
    have hsame : (t3.procs z).parent = (t.procs z).parent ∧
        ((t3.procs z).state = .ZOMBIE ↔ (t.procs z).state = .ZOMBIE) := by
      have h3 := (wakeup1_keeps t2 ((t.procs me).parent.map .proc) z).stays
      have h2 : (t1.procs z).Stays (t2.procs z) := by
        by_cases hzm : z = me
        · rw [hzm, ht2, on_self]
          exact ⟨.refl _, rfl, rfl, rfl, rfl⟩
        · rw [ht2, on_ne hzm]
          exact .refl _
      have h1 : (t.procs z).Stays (t1.procs z) := by
        rw [hproc1]
        split
        · exact ((Proc.post_keeps SIGCHLD _).trans (Proc.wake_keeps _)).stays
        · exact .refl _
      have hall := (h1.trans h2).trans h3
      exact ⟨hall.parent, hall.state.eq rfl⟩
    exact hno z (hsame.1 ▸ hpar) (hsame.2.mp hz)
  · rw [hu]
    refine on_cases q ?_ fun hq => ?_
    · rw [if_pos rfl]
    · rw [if_neg hq]

theorem told_stays (me q : Slot) (parent : Option Slot) (status : Int32) (p : Proc) :
    p.Stays (p.told me q parent status) := by
  have h : p.Stays (if parent = some q then (p.post SIGCHLD).wake else p) := by
    split
    · exact ((Proc.post_keeps SIGCHLD _).trans (Proc.wake_keeps _)).stays
    · exact .refl _
  unfold Proc.told
  by_cases hq : q = me
  · simp only [if_pos hq]
    exact h.trans ⟨.refl _, rfl, rfl, rfl, rfl⟩
  · simp only [if_neg hq]
    exact h

theorem exit_hands (hme : me ≠ t.initproc)
    (h : Run Makes t (exitChanges t me parent status) u) :
    (u.procs me).state = .ZOMBIE ∧ ∀ q, (t.procs q).parent = some me →
    (u.procs q).parent = some t.initproc := by
  refine ⟨?_, fun q hq => ?_⟩
  · obtain ⟨p, p', -, -, -, hu⟩ := exit_slot hme h me
    rw [hu, if_pos rfl]
  · obtain ⟨p, p', hw, hw', -, hu⟩ := exit_slot hme h q
    have hpar : p.parent = some me :=
      hw.keeps.stays.parent.trans ((told_stays me q parent status (t.procs q)).parent.trans hq)
    have hpar' : p'.parent = some t.initproc := by
      rw [hw'.keeps.stays.parent, Proc.handed, if_pos hpar]
    rw [hu]
    split
    · exact hpar'
    · exact hpar'

/-- In every run in which no parent ignores `SIGCHLD` when a child gets to the end of `exit`: free
    slots own nothing, only the exit of `init` panics, and every other process can exit, with its
    children handed to `init`. -/
theorem exit_succeeds (as : List Act) (s : State)
    (hrun : Run (fun s a t => step s a = .next t ∧ a.Heeded s) boot as s) :
    (∀ q, (s.procs q).state = .UNUSED → (s.procs q).kstack = false ∧ (s.procs q).pgdir = false) ∧
    (∀ a msg, a.Heeded s → step s a = .panic msg → s.cpu = some s.initproc ∧
      ∃ status, a = .exit status) ∧
    ∀ me, s.cpu = some me → me ≠ s.initproc →
      ((s.procs me).pc = .user → ∀ status, ∃ t, step s (.exit status) = .next t ∧
        (t.procs me).pc = .closing (s.procs me).parent status) ∧
      ∀ parent status, (s.procs me).pc = .closing parent status → Act.Heeded s .exitTail →
        ∃ t, step s .exitTail = .next t ∧ (t.procs me).state = .ZOMBIE ∧
          ∀ q, (s.procs q).parent = some me → (t.procs q).parent = some s.initproc := by
  obtain ⟨⟨hset, ht, hl⟩, -⟩ := boot_inv.run (hrun.mono fun _ _ _ h => h.1)
  refine ⟨fun q hq => (ht.unused q hq).2, fun a msg hheed hpanic => ?_,
    fun me hcpu hme => ⟨fun hpc status => ?_, fun parent status hpc hheed => ?_⟩⟩
  · have hspec := step_spec hset ht a
    rw [hpanic] at hspec
    cases a with
    | exit status => exact ⟨hspec.1, status, rfl⟩
    | exitTail =>
      obtain ⟨me, parent, status, hcpu, hpc, hig, -⟩ := hspec
      rw [hheed (me, parent) (exiting_closing hcpu hpc)] at hig
      cases hig
    | _ => exact hspec.elim
  · refine ⟨{ s with
      toTable := (Change.move me (.closing (s.procs me).parent status)).apply s.toTable }, ?_, ?_⟩
    · have huser : Pc.isUser (s.procs me).pc = true := by
        rw [hpc]
        rfl
      have hstep : step s (.exit status) = ofExec (exit me status) s := by
        simp [step, State.running, hcpu, huser]
      rw [hstep]
      unfold ofExec exit
      rw [bind_of_ok (show Exec.get s = .ok (s, s) from rfl), if_neg hme]
      rfl
    · simp [Change.apply]
  · have hig := hheed (me, parent) (exiting_closing hcpu hpc)
    obtain ⟨_, t, hok, -, hset', cs, hmade, rfl⟩ :=
      ((wp_exitTail hset ht hcpu hpc).mono (fun _ _ h => h)
      fun msg h => show False from by rw [hig] at h; cases h.1).returns fun _ => id
    refine ⟨t, ?_, exit_hands hme hmade⟩
    simp only [step, hcpu, hpc]
    unfold ofExec
    rw [hok]

/-- The child of `init` is about to end; `SIGCHLD` has its default action since `exec`. -/
def childExits : List Act :=
  [.scan, .schedule, .exec "init"] ++ forkAll ++ [.yield, .schedule, .exit 0]

theorem exit_succeeds_child :
    ∃ s, Run (fun s a t => step s a = .next t ∧ a.Heeded s) boot childExits s ∧
    ∃ me t, step s .exitTail = .next t ∧ (t.procs me).state = .ZOMBIE := by
  obtain ⟨s, hrun, hcpu, hme, hpc, hheed⟩ :=
    Outcome.exists_guarded (fun s a _ => Act.Heeded s a) step boot childExits
    (fun s => s.cpu = some ⟨1, by decide⟩ ∧ ⟨1, by decide⟩ ≠ s.initproc ∧
      (s.procs ⟨1, by decide⟩).pc = .closing (some s.initproc) 0 ∧
      Act.Heeded s .exitTail) (by decide +kernel)
  obtain ⟨t, ht, hz, -⟩ := ((exit_succeeds childExits s hrun).2.2 _ hcpu hme).2 _ _ hpc hheed
  exact ⟨s, hrun, _, t, ht, hz⟩

/-- `init` ignores `SIGCHLD`; its child calls `sched` without the lock. -/
theorem ignored_child_panics : ∃ s, Run (Outcome.rel step) boot
      ([.scan, .schedule, .exec "init", .sigaction SIGCHLD SIG_IGN 0x300] ++
        forkAll ++ [.yield, .schedule, .exit 0]) s ∧
    s.cpu ≠ some s.initproc ∧ (step s .exitTail).Panics "sched ptable.lock" :=
  Outcome.exists_run step boot _ _ (by decide +kernel)

/-! ## Ancestors -/

/-- `r` is `q` or an ancestor of it. -/
def Table.Under (t : Table) : Slot → Slot → Prop :=
  Relation.ReflTransGen fun q r => (t.procs q).parent = some r

def Rooted (t : Table) : Prop := ∀ q, (t.procs q).isLive → t.Under q t.initproc

theorem Change.parents (hc : c.Fits t) (q : Slot) :
    ((c.apply t).procs q).parent = (t.procs q).parent ∨
      ((c.apply t).procs q).parent = some t.initproc ∨
      (t.procs q).state.isAwake = false ∧ ∀ r, ((c.apply t).procs q).parent = some r →
      (t.procs r).state.isAwake = true := by
  cases Change.became hc q with
  | keeps h _ => exact .inl h.stays.parent
  | goes _ _ _ _ _ _ _ eq | zombie _ eq | waited _ _ eq =>
    rw [eq]
    exact .inl rfl
  | works _ _ _ _ parent _ =>
    refine parent.imp id ?_
    rintro ⟨me, rfl⟩
    refine .inr ⟨by rw [hc.2.2]; rfl, fun r hr => ?_⟩
    obtain rfl : me = r := Option.some.inj
        (((on_field Proc.parent rfl q).trans (congrArg Proc.parent on_self)).symm.trans hr)
    rw [hc.1]
    rfl
  | handed me _ wakes =>
    rw [wakes.keeps.stays.parent, Proc.handed]
    split
    · exact .inr (.inl rfl)
    · exact .inl rfl
  | freed me made eq =>
    subst made
    rw [eq]
    exact .inr (.inr ⟨by rw [hc.2.2.2]; rfl, fun _ h => by cases h⟩)

theorem Change.initproc (hc : c.Fits t) : (c.apply t).initproc = t.initproc := by
  cases c with
  | adopt me => exact (adopt_spec slots hc.1).initproc
  | kill me pid sig => exact kill_initproc t me pid sig
  | _ => rfl

theorem Rooted.change (h : Rooted t) (ht : Tree t) (hc : c.Fits t) : Rooted (c.apply t) := by
  -- the way up from a process that is not a zombie is still there, or ends at `init` sooner
  have hkeep : ∀ q, t.Under q t.initproc → (t.procs q).state.isAwake = true →
      (c.apply t).Under q t.initproc := by
    intro q hq
    induction hq using Relation.ReflTransGen.head_induction_on with
    | refl => exact fun _ => .refl
    | head hqr _ ih =>
      intro ha
      rcases c.parents hc _ with hp | hp | ⟨hp, _⟩
      · exact .head (hp.trans hqr) (ih (ht.child _ _ hqr))
      · exact .single hp
      · exact absurd (hp.symm.trans ha) (by decide)
  intro q hq
  by_cases hqi : q = (c.apply t).initproc
  · rw [hqi]
    exact .refl
  obtain ⟨r, hr⟩ := Option.isSome_iff_exists.mp (((ht.change hc).live q hq).2.2 hqi)
  have ha : (t.procs r).state.isAwake = true := by
    rcases c.parents hc q with hp | hp | ⟨_, hp⟩
    · exact ht.child q r (hp.symm.trans hr)
    · rw [← Option.some.inj (hp.symm.trans hr)]
      exact ht.init.1
    · exact hp r hr
  rw [Change.initproc hc]
  exact .head hr (hkeep r (h r (.inl ha)) ha)

theorem Inv.rooted {t : State} {a : Act} (h : Inv s) (hr : Rooted s.toTable)
    (hstep : step s a = .next t) : Rooted t.toTable := by
  obtain ⟨-, cs, hmade, -⟩ := h.done hstep
  exact (made_invariant (I := fun u => Tree u ∧ Rooted u)
    (fun u c hu hc _ => ⟨hu.1.change hc, hu.2.change hu.1 hc⟩) hmade
    (fun _ _ => trivial) ⟨h.tree, hr⟩).2

/-- **Every process descends from `init`**: from parent to parent one gets there, also from a
    zombie. -/
theorem descends_from_init (as : List Act) (s : State) (hrun : Run (Outcome.rel step) boot as s)
    (q : Slot) (hq : (s.procs q).isLive) : s.Under q s.initproc := by
  have hboot : Rooted boot.toTable := fun q hq => by
    rcases boot_procs q with ⟨rfl, -⟩ | ⟨-, h⟩
    · exact .refl
    · rw [h] at hq
      rcases hq with hq | hq <;> cases hq
  exact (Run.invariant (I := fun s => Inv s ∧ Rooted s.toTable)
    (fun _ _ _ h hstep => ⟨(h.1.next hstep).1, h.1.rooted h.2 hstep⟩) hrun ⟨boot_inv, hboot⟩).2 q hq

theorem descends_from_init_child :
    ∃ s, Run (Outcome.rel step) boot ([.scan, .schedule, .exec "init"] ++ forkAll) s ∧
    s.Under ⟨1, one_lt_NPROC⟩ s.initproc := by
  obtain ⟨s, hrun, hq⟩ := Outcome.exists_run step boot ([.scan, .schedule, .exec "init"] ++ forkAll)
    (fun s => (s.procs ⟨1, one_lt_NPROC⟩).state.isAwake = true) (by decide +kernel)
  exact ⟨s, hrun, descends_from_init _ s hrun _ (.inl hq)⟩

end Micro86.Ptable
