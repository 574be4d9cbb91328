import Micro86.Proc.Signals

/-!
# What the calls about processes give

* `wait_matches_iff` — one round of `waitpid`, on any table.
* `alarm_timely_iff` — a process after `sys_alarm` and some ticks of the timer.
* `kill_exact_iff` — `sys_kill`, on any table.
* `status_decodes_iff` — the status of a child, in any run.
-/

namespace Micro86.Ptable

open Signal Exec

/-! ## `waitpid` -/

inductive Round where
  /-- With the pid of a child. -/
  | child (p : Slot)
  /-- With -1. -/
  | childless
  /-- With 0. -/
  | nothing
  | sleeps
  deriving DecidableEq

section

variable (t : Table) (me : Slot) (pid : Int32) (options : Nat)

def Table.round : Round :=
  match t.scan me pid slots false with
  | (some p, _) => .child p
  | (none, false) => .childless
  | (none, true) => if options % 2 = 1 then .nothing else .sleeps

theorem waitpidLoop_round : waitpidLoop me pid options = (do
    let s ← Exec.get
    match s.toTable.round me pid options with
    | .child p => do
      change (.reap me p)
      release
    | .sleeps => sleepLocked me (.proc me) (.waiting pid options)
    | _ => do
      change (.move me .user)
      release) := by
  unfold waitpidLoop
  congr 1
  funext s
  unfold Table.round
  rcases s.toTable.scan me pid slots false with ⟨_ | p, _ | _⟩
  · rfl
  · dsimp only
    split <;> rfl
  · rfl
  · rfl

/-- There are children to wait for, and none of them has exited. -/
def Table.Awaits : Prop := (∃ p, t.Matches me pid p) ∧ ∀ p, t.Matches me pid p →
    (t.procs p).state ≠ .ZOMBIE

structure WaitOk : Prop where
  child : ∀ p, t.round me pid options = .child p → t.Matches me pid p ∧ (t.procs p).state = .ZOMBIE
  childless : t.round me pid options = .childless ↔ ¬ ∃ p, t.Matches me pid p
  nothing : t.round me pid options = .nothing → options % 2 = 1 ∧ t.Awaits me pid
  sleeps : t.round me pid options = .sleeps → options % 2 ≠ 1 ∧ t.Awaits me pid

/-- `havekids` is set before the pid is looked at: with children, but none of them meant, `waitpid`
    does not return -1. -/
theorem wait_matches_iff :
    WaitOk t me pid options ↔ ((∃ p, (t.procs p).parent = some me) → ∃ p, t.Matches me pid p) := by
  cases hscan : t.scan me pid slots false with
  | mk found havekids =>
  cases found with
  | some p =>
    have hround : t.round me pid options = .child p := by simp only [Table.round, hscan]
    obtain ⟨hmatch, hz⟩ := scan_some hscan
    constructor
    · intro _ _
      exact ⟨p, hmatch⟩
    · intro _
      refine ⟨fun q hq => ?_, ⟨fun hq => ?_, absurd ⟨p, hmatch⟩⟩, fun hq => ?_, fun hq => ?_⟩
      · cases hround.symm.trans hq
        exact ⟨hmatch, hz⟩
      all_goals cases hround.symm.trans hq
  | none =>
    obtain ⟨hkids, hno⟩ := scan_none hscan
    have hno : ∀ p, t.Matches me pid p → (t.procs p).state ≠ .ZOMBIE := fun p => hno p (mem_slots p)
    have hkids :
        havekids = true ↔ ∃ p, (t.procs p).parent = some me := by simpa [mem_slots] using hkids
    cases havekids with
    | false =>
      have hround : t.round me pid options = .childless := by simp only [Table.round, hscan]
      have hnone : ¬ ∃ p, (t.procs p).parent = some me := fun h => nomatch hkids.mpr h
      constructor
      · intro _ h
        exact absurd h hnone
      · intro _
        have hmatch : ¬ ∃ p, t.Matches me pid p := fun ⟨p, hm⟩ => hnone ⟨p, hm.1⟩
        refine ⟨fun q hq => ?_, iff_of_true hround hmatch, fun hq => ?_, fun hq => ?_⟩
        all_goals cases hround.symm.trans hq
    | true =>
      have hround : t.round me pid options = if options % 2 = 1 then .nothing
          else .sleeps := by simp only [Table.round, hscan]
      constructor
      · intro h _
        by_contra hm
        have := hround.symm.trans (h.childless.mpr hm)
        split at this <;> cases this
      · intro h
        have hawaits : t.Awaits me pid := ⟨h (hkids.mp rfl), hno⟩
        by_cases hopt : options % 2 = 1
        · rw [if_pos hopt] at hround
          refine ⟨fun q hq => ?_, ⟨fun hq => ?_, absurd hawaits.1⟩,
            fun _ => ⟨hopt, hawaits⟩, fun hq => ?_⟩
          all_goals cases hround.symm.trans hq
        · rw [if_neg hopt] at hround
          refine ⟨fun q hq => ?_, ⟨fun hq => ?_, absurd hawaits.1⟩,
            fun hq => ?_, fun _ => ⟨hopt, hawaits⟩⟩
          all_goals cases hround.symm.trans hq

end

/-- A child with pid 2, and a call that waits for pid 5. -/
theorem wait_for_stranger :
    let t := boot.toTable.on ⟨1, by decide⟩ fun p =>
        { p with state := .RUNNABLE, pid := 2, parent := some ⟨0, by decide⟩ }
    (∀ p, (t.procs p).parent = some ⟨0, by decide⟩ → (t.procs p).pid ≠ 5) ∧
    t.round ⟨0, by decide⟩ 5 0 = .sleeps := by
  decide +kernel

/-! ## `sys_alarm` -/

def SIGALRM : Nat := 14

/-- A process and its `alarminterval`, which no other routine reads. -/
structure Alarmed where
  proc : Proc
  alarminterval : Int

def sysAlarm (ticks : Int) (a : Alarmed) : Int × Alarmed :=
  if ticks < 0 then (-1, a)
    else (a.alarminterval, ⟨{ a.proc with alarmticks := ticks.toNat }, ticks⟩)

/-- `b` is `a` after `k` ticks in user mode and anything else but a call of `alarm`. -/
inductive Ticked (a : Alarmed) : Nat → Alarmed → Prop where
  | none : Ticked a 0 a
  | tick {k : Nat} {b : Alarmed} (h : Ticked a k b) :
      Ticked a (k + 1) ⟨b.proc.tick, b.alarminterval⟩
  | other {k : Nat} {b : Alarmed} (h : Ticked a k b) (p : Proc)
      (ht : p.alarmticks = b.proc.alarmticks) : Ticked a k ⟨p, b.alarminterval⟩

theorem tick_alarmticks (p : Proc) : p.tick.alarmticks = p.alarmticks - 1 := by
  unfold Proc.tick
  split
  · split
    · rename_i hlast
      exact hlast.symm
    · rfl
  · rename_i hnone
    rw [Nat.le_zero.mp (Nat.not_lt.mp hnone)]

theorem Ticked.left {a b : Alarmed} {k : Nat} (h : Ticked a k b) :
    b.proc.alarmticks = a.proc.alarmticks - k ∧ b.alarminterval = a.alarminterval := by
  induction h with
  | none => exact ⟨rfl, rfl⟩
  | tick _ ih => exact ⟨by rw [tick_alarmticks, ih.1]; omega, ih.2⟩
  | other _ p ht ih => exact ⟨ht.trans ih.1, ih.2⟩

/-- What should hold of a process `k` ticks after `sys_alarm(n)`. -/
structure Timely (n k : Nat) (b : Alarmed) : Prop where
  rings : k + 1 = n → b.proc.tick.sig.isPending SIGALRM ∧ ∀ g,
    b.proc.sig.isPending g → b.proc.tick.sig.isPending g
  silent : k + 1 < n → b.proc.tick.sig = b.proc.sig
  left : ∀ m, 0 ≤ m → (sysAlarm m b).1 = (n - k : Nat)

/-- The last tick clears the pending signals and raises none, and `sys_alarm` returns the whole
    interval. -/
theorem alarm_timely_iff {a b : Alarmed} {n k : Nat} (hn : 0 < n)
    (h : Ticked (sysAlarm n a).2 k b) : Timely n k b ↔ k = 0 ∧ n ≠ 1 := by
  obtain ⟨hticks, hinterval⟩ := h.left
  have hset : (sysAlarm n a).2 = ⟨{ a.proc with alarmticks := n }, n⟩ := by
    unfold sysAlarm
    rw [if_neg (by omega), Int.toNat_natCast]
  rw [hset] at hticks hinterval
  have hleft : ∀ m, 0 ≤ m → (sysAlarm m b).1 = n := by
    intro m hm
    unfold sysAlarm
    rw [if_neg (by omega)]
    exact hinterval
  constructor
  · intro ht
    have hk : k = 0 := by
      have := (hleft 0 (by omega)).symm.trans (ht.left 0 (by omega))
      omega
    refine ⟨hk, fun h1 => (ht.rings (by omega)).1 ?_⟩
    simp only [Proc.tick, hticks]
    rw [if_pos (by omega), if_pos (by omega)]
    exact UInt32.zero_and
  · rintro ⟨rfl, h1⟩
    constructor
    · intro h
      omega
    · intro h
      simp only [Proc.tick, hticks]
      rw [if_pos (by omega), if_neg (by omega)]
    · exact hleft

theorem alarm_timely_iff_two : Timely 2 0 (sysAlarm 2 ⟨userInit, 0⟩).2 ↔ 0 = 0 ∧ 2 ≠ 1 :=
  alarm_timely_iff (by decide) .none

theorem alarm_silent : ¬ ((sysAlarm 1 ⟨userInit, 0⟩).2.proc.tick).sig.isPending SIGALRM ∧
    (sysAlarm 0 ⟨(sysAlarm 1 ⟨userInit, 0⟩).2.proc.tick,
      (sysAlarm 1 ⟨userInit, 0⟩).2.alarminterval⟩).1 = 1 := by
  decide +kernel

/-! ## `sys_kill` -/

section

variable (t : Table) (euid : Slot → UInt16) (null : Option UInt16) (me : Slot) (pid signo : Int32)

def Table.highest : List Slot → Option Slot → Option Slot
  | [], maxProc => maxProc
  | p :: ps, maxProc =>
    if (t.procs p).state = .UNUSED then Table.highest ps maxProc
    else if maxProc.all fun q => (t.procs p).pid > (t.procs q).pid then Table.highest ps (some p)
    else Table.highest ps maxProc

def Table.findProc : Option Slot :=
  if pid = -2 then t.highest slots none
  else if pid = -1 then slots.find? fun p => (t.procs p).parent = (t.procs me).parent
  else if pid = 0 then some me
  else slots.find? fun p => (t.procs p).pid = pid

def Table.named : Option Slot := slots.find? fun p => (t.procs p).pid = pid

/-- `p->euid` in `sys_kill`; `null` is what can be read there through a null pointer. -/
def Table.readEuid : Option UInt16 := (t.findProc me pid).elim null fun p => some (euid p)

/-- `sys_kill`: the result, the process that is sent the signal, and the table; `none` for a page
    fault in the kernel. -/
def Table.sysKill : Option (Int × Option Slot × Table) :=
  if signo < 1 ∨ signo ≥ 65 then some (-22, none, t)
  else
    match t.readEuid euid null me pid with
    | none => none
    | some id =>
      if id ≠ euid me ∧ euid me ≠ 0 then some (-1, none, t)
      else
        -- `kill` and what it returns
        let u := t.kill me pid signo.toInt.toNat
        match t.named pid with
        | none => some (-3, none, u)
        | some p => if (t.procs me).uid ≠ 0 ∧
              (t.procs p).uid ≠ (t.procs me).uid then some (1, none, u) else some (0, some p, u)

/-- The caller may send signals to `p`, by both rules. -/
def Table.Permits (p : Slot) : Prop :=
  (euid p = euid me ∨ euid me = 0) ∧ ((t.procs me).uid = 0 ∨ (t.procs p).uid = (t.procs me).uid)

def Table.target : Option Slot := slots.find? fun p => (t.procs p).pid = pid ∧
    (t.procs p).state ≠ .UNUSED

/-- `u` is `t` with a signal sent to `p`.  Above 32 `dosignal` takes it for another one with the
    same bit. -/
structure Sent (u : Table) (p : Slot) (sig : Nat) : Prop where
  number : sig ≤ 32
  pending :
    ∀ g, 1 ≤ g → g ≤ 32 → ((u.procs p).sig.isPending g ↔ (t.procs p).sig.isPending g ∨ g = sig)
  woken : (u.procs p).state = (t.procs p).wake.state
  others : ∀ q, q ≠ p → u.procs q = t.procs q

def KillOk : Prop :=
  match t.sysKill euid null me pid signo with
  | none => False
  | some (ret, none, u) => ret < 0 ∧ u = t ∧ ∀ p, t.target pid = some p →
        signo < 1 ∨ signo ≥ 65 ∨ ¬ t.Permits euid me p
  | some (ret, some p, u) => ret = 0 ∧ t.target pid = some p ∧
        t.Permits euid me p ∧ Sent t u p signo.toInt.toNat

/-- There is an id to compare with, and where it lets the caller pass, the slot that `kill` finds is
    in use and permitted, and the signal has a bit of its own. -/
def KillSafe : Prop :=
  signo < 1 ∨ signo ≥ 65 ∨ ∃ id, t.readEuid euid null me pid = some id ∧ ∀ p, t.named pid = some p →
    if id = euid me ∨ euid me = 0 then (t.procs p).state ≠ .UNUSED ∧
      t.Permits euid me p ∧ signo.toInt.toNat ≤ 32
    else ∀ q, t.target pid = some q → ¬ t.Permits euid me q

end

section

variable {t : Table} {euid : Slot → UInt16} {null : Option UInt16} {me p : Slot} {pid signo : Int32}

theorem target_of_named (h : t.named pid = some p) (hp : (t.procs p).state ≠ .UNUSED) :
    t.target pid = some p := by
  obtain ⟨hpid, before, after, hslots, hbefore⟩ := List.find?_eq_some_iff_append.mp h
  refine List.find?_eq_some_iff_append.mpr ⟨?_, before, after, hslots, fun q hq => ?_⟩
  · exact decide_eq_true ⟨of_decide_eq_true hpid, hp⟩
  · have hne := hbefore q hq
    rw [Bool.not_eq_true', decide_eq_false_iff_not] at hne ⊢
    exact fun hq => hne hq.1

theorem named_of_target {q : Slot} (h : t.target pid = some q) : t.named pid ≠ none := by
  intro hnone
  have hfound := List.find?_some h
  exact List.find?_eq_none.mp hnone q (mem_slots q) (decide_eq_true (of_decide_eq_true hfound).1)

theorem kill_sent (h : t.named pid = some p)
    (huid : ¬ ((t.procs me).uid ≠ 0 ∧ (t.procs p).uid ≠ (t.procs me).uid)) {sig : Nat}
    (hpos : 1 ≤ sig) (hsig : sig ≤ 32) : Sent t (t.kill me pid sig) p sig := by
  have hkill : t.kill me pid sig = t.on p fun q =>
      ((if q.state ≠ .ZOMBIE then { q with exitstatus := Int32.ofNat sig }
        else q).wake).post sig := by
    unfold Table.named at h
    simp [Table.kill, h, if_neg huid]
  have hproc : ∀ q, ((if (t.procs p).state ≠ .ZOMBIE then
      { t.procs p with exitstatus := Int32.ofNat sig } else t.procs p).wake).post sig = q →
      q.sig = (t.procs p).sig.raise sig ∧ q.state = (t.procs p).wake.state := by
    rintro _ rfl
    by_cases hz : (t.procs p).state ≠ .ZOMBIE
    · rw [if_pos hz]
      unfold Proc.wake
      split <;> exact ⟨rfl, rfl⟩
    · rw [if_neg hz]
      unfold Proc.wake
      split <;> exact ⟨rfl, rfl⟩
  rw [hkill]
  constructor
  · exact hsig
  · intro g hg hg'
    rw [on_self, (hproc _ rfl).1, Sig.isPending_raise]
    exact or_congr_right (by omega)
  · rw [on_self]
    exact (hproc _ rfl).2
  · intro q hq
    exact on_ne hq

theorem kill_exact_iff : KillOk t euid null me pid signo ↔ KillSafe t euid null me pid signo := by
  unfold KillOk KillSafe Table.sysKill
  by_cases hsig : signo < 1 ∨ signo ≥ 65
  · simp only [if_pos hsig]
    rcases hsig with h | h <;> simp [h]
  obtain ⟨hlow, hhigh⟩ := not_or.mp hsig
  simp only [hlow, hhigh, false_or, if_false]
  cases hid : t.readEuid euid null me pid with
  | none => simp
  | some id =>
  by_cases hadmits : id = euid me ∨ euid me = 0
  · have : ¬ (id ≠ euid me ∧ euid me ≠ 0) := by tauto
    simp only [if_neg this, Option.some.injEq, exists_eq_left', if_pos hadmits]
    cases hnamed : t.named pid with
    | none =>
      have hkill : t.kill me pid signo.toInt.toNat = t := by
        unfold Table.named at hnamed
        simp [Table.kill, hnamed]
      have hno : ∀ p, t.target pid ≠ some p := fun p hp => named_of_target hp hnamed
      constructor
      · intro _ p hp
        cases hp
      · intro _
        exact ⟨by decide, hkill, fun p hp => absurd hp (hno p)⟩
    | some p =>
      by_cases huid : (t.procs me).uid ≠ 0 ∧ (t.procs p).uid ≠ (t.procs me).uid
      · have hno : ¬ t.Permits euid me p := fun h => h.2.elim huid.1 huid.2
        simp [huid, hno]
      simp only [if_neg huid, true_and, Option.some.injEq, forall_eq']
      constructor
      · rintro ⟨htarget, hpermits, hsent⟩
        have := List.find?_some htarget
        simp only [decide_eq_true_eq] at this
        exact ⟨this.2, hpermits, hsent.number⟩
      · rintro ⟨hstate, hpermits, hnumber⟩
        refine ⟨target_of_named hnamed hstate, hpermits, kill_sent hnamed huid ?_ hnumber⟩
        rw [Int32.lt_iff_toInt_lt] at hlow
        have : (1 : Int32).toInt = 1 := rfl
        omega
  · have : id ≠ euid me ∧ euid me ≠ 0 := not_or.mp hadmits
    simp only [if_pos this, Option.some.injEq, exists_eq_left', if_neg hadmits]
    constructor
    · intro h _ _
      exact h.2.2
    · intro h
      refine ⟨by decide, trivial, fun q hq => ?_⟩
      obtain ⟨p, hp⟩ := Option.ne_none_iff_exists'.mp (named_of_target hq)
      exact h p hp q hq

end

/-- `kill(0, 9)` is sent to the first free slot, whose pid is 0; for a pid that nobody has there is
    a page fault. -/
theorem kill_unused_slot : (boot.toTable.sysKill (fun _ => 0) none ⟨0, by decide⟩ 0 9).map
    (fun r => (r.1, r.2.1)) = some (0, some ⟨1, by decide⟩) ∧
    (boot.procs ⟨1, by decide⟩).state = .UNUSED ∧
    (boot.toTable.sysKill (fun _ => 0) none ⟨0, by decide⟩ 7 9).isNone := by
  decide +kernel

/-! ## The status of a zombie -/

/-- The word that `waitpid` stores: signals that dump core have a bit more. -/
def waitStatus (termsig : Nat) : Nat :=
  if termsig ∈ [SIGQUIT, 4, 5, 7, 8, SIGSEGV, 31] then termsig &&& 0x7f ||| 0x80
    else termsig &&& 0x7f

inductive Ending where
  | exited (code : Int)
  | signaled (signo : Nat)
  deriving DecidableEq

/-- The convention of the C library. -/
def decode (word : Nat) : Ending :=
  if word &&& 0x7f = 0 then .exited (word >>> 8 &&& 0xff : Nat) else .signaled (word &&& 0x7f)

theorem decode_waitStatus (n : Nat) :
    decode (waitStatus n) = if n % 128 = 0 then .exited 0 else .signaled (n % 128) := by
  unfold waitStatus
  split
  · rename_i h
    simp only [List.mem_cons, List.not_mem_nil, or_false] at h
    rcases h with rfl | rfl | rfl | rfl | rfl | rfl | rfl <;> rfl
  have hand : ∀ m, m &&& 0x7f = m % 128 := fun m => Nat.and_two_pow_sub_one_eq_mod m 7
  simp only [decode, hand, Nat.mod_mod]
  split
  · rename_i h
    rw [h]
    rfl
  · rfl

theorem dosignalFrom_killed {fails : Bool} {k n : Nat} {p : Sig}
    {consumed : List Nat} (h : (Sig.dosignalFrom fails k n p consumed).1.killed = false) :
    p.killed = false ∧ (Sig.dosignalFrom fails k n p consumed).1.termsig = p.termsig := by
  induction k generalizing n p consumed with
  | zero => exact ⟨h, rfl⟩
  | succ k ih =>
    unfold Sig.dosignalFrom at h ⊢
    split_ifs at h ⊢
    · exact ih h
    · exact ih h
    · exact ⟨(Bool.or_eq_false_iff.mp h).1, rfl⟩
    · exact ih h

/-- A process that was not killed has no `termsig`. -/
def Proc.Unmarked (p : Proc) : Prop := p.state ≠ .UNUSED → p.sig.killed = false → p.sig.termsig = 0

theorem Proc.Unmarked.touch {t : Table} {c : Change} {q : Slot}
    {p p' : Proc} (h : p.Unmarked) (ht : Touch t c q p p') : p'.Unmarked := by
  cases ht with
  | alloc => exact fun _ _ => rfl
  | freed => exact absurd rfl
  | tick =>
    unfold Proc.tick
    split
    · split <;> exact h
    · exact h
  | dosignal me fails =>
    intro hp hk
    obtain ⟨hk', hterm⟩ := dosignalFrom_killed hk
    exact hterm.trans (h hp hk')
  | _ => exact h

theorem Inv.unmarked {s t : State} {a : Act} (h : Inv s) (hu : ∀ q, (s.procs q).Unmarked)
    (hstep : step s a = .next t) : ∀ q, (t.procs q).Unmarked := by
  obtain ⟨-, cs, hmade, -⟩ := h.done hstep
  refine made_invariant (I := fun u => ∀ q, (u.procs q).Unmarked)
    (fun u c hu hc _ q => ?_) hmade (fun _ _ => trivial) hu
  have hcalm : ∀ {p p' : Proc}, p.Unmarked → p.Calm p' → p'.Unmarked := fun h hc hp hk => by
    rw [hc.sig] at hk ⊢
    exact h (hc.used hp) hk
  rcases Change.touches hc q with h | ⟨p, hp, h⟩
  · exact hcalm (hu q) h
  · exact hcalm ((hu q).touch hp) h

/-! ### Children that were killed -/

/-- If the process that was born as number `born` in slot `z` runs `dosignal`, it is clean. -/
def Act.Clean (z : Slot) (born : Nat) (s : State) (a : Act) : Prop :=
  s.cpu = some z → (s.procs z).born = born →
    match a with
    | .fault fails => ((s.procs z).sig.raise SIGSEGV).Clean fails
    | .dosignal fails => (s.procs z).sig.Clean fails
    | .sigsuspendEnd fails => (s.procs z).sig.Clean fails
    | _ => True

instance (z : Slot) (born : Nat) (s : State) (a : Act) : Decidable (a.Clean z born s) := by
  unfold Act.Clean
  split <;> infer_instance

/-- The signal that a process was killed for is in `termsig`. -/
def Proc.Marked (born : Nat) (p : Proc) : Prop :=
  p.born = born → ∀ g, p.killedBy = some g → p.sig.termsig = g ∧ 1 ≤ g ∧ g ≤ 32

/-- `Act.Clean` for one change of the table. -/
def Change.Clean (z : Slot) (born : Nat) (t : Table) : Change → Prop
  | .dosignal me fails => me = z → (t.procs z).born = born → (t.procs z).sig.Clean fails
  | _ => True

section

variable {t : Table} {c : Change} {z : Slot} {born : Nat}

theorem Proc.Marked.touch {p : Proc} (h : (t.procs z).Marked born) (hc : c.Clean z born t)
    (ht : Touch t c z (t.procs z) p) : p.Marked born := by
  cases ht with
  | alloc => exact fun _ _ hg => nomatch hg
  | tick =>
    unfold Proc.tick
    split
    · split <;> exact h
    · exact h
  | dosignal me fails =>
    intro hborn g hg
    simp only [Proc.dosignal] at hg ⊢
    split at hg
    · rename_i hnew
      obtain ⟨g', hhead, hterm, hpos⟩ := (hc rfl hborn).kills hnew.2
      cases hhead.symm.trans hg
      exact ⟨hterm, hpos⟩
    · rename_i hold
      have hlive : ((t.procs z).sig.dosignal fails).1.killed = false := by
        simpa [(hc rfl hborn).1] using hold
      obtain ⟨-, hterm⟩ := dosignalFrom_killed hlive
      exact ⟨hterm.trans (h hborn g hg).1, (h hborn g hg).2⟩
  | _ => exact h

theorem Proc.Marked.change (h : (t.procs z).Marked born) (hfits : c.Fits t)
    (hc : c.Clean z born t) : ((c.apply t).procs z).Marked born := by
  have hcalm : ∀ {p p' : Proc}, p.Marked born → p.Calm p' → p'.Marked born :=
    fun h hc hborn g hg => by
    rw [hc.killedBy] at hg
    rw [hc.sig]
    exact h (hc.born ▸ hborn) g hg
  rcases Change.touches hfits z with ht | ⟨p, hp, ht⟩
  · exact hcalm h ht
  · exact hcalm (h.touch hc hp) ht

theorem Proc.Marked.made {u : Table} {cs : List Change} (h : (t.procs z).Marked born)
    (hmade : Run Makes t cs u)
    (hcs : ∀ c ∈ cs, c.isDosignal = false) : (u.procs z).Marked born := by
  refine made_invariant (I := fun u => (u.procs z).Marked born)
    (fun u c hu hc hk => hu.change hc ?_) hmade hcs h
  cases c with
  | dosignal me fails => cases hk
  | _ => trivial

theorem Proc.Marked.made_cons {u : Table} {cs : List Change}
    {me : Slot} {fails : Bool} (h : (t.procs z).Marked born)
    (hmade : Run Makes t (.dosignal me fails :: cs) u)
    (hc : (Change.dosignal me fails).Clean z born t)
    (hcs : ∀ c ∈ cs, c.isDosignal = false) : (u.procs z).Marked born := by
  cases hmade with
  | cons hm hrest =>
    rw [hm.2] at hrest
    exact (h.change hm.1 hc).made hrest hcs

end

theorem isQuiet_dosignal {c : Change} (h : c.isQuiet = true) : c.isDosignal = false := by
  cases c with
  | dosignal me fails => cases h
  | _ => rfl

theorem Inv.marked {s t : State} {a : Act} {z : Slot} {born : Nat}
    (h : Inv s) (hm : (s.procs z).Marked born)
    (hstep : step s a = .next t) (ha : a.Clean z born s) : (t.procs z).Marked born := by
  obtain ⟨-, cs, hmade, hscript⟩ := h.done hstep
  cases a with
  | fault fails =>
    obtain ⟨me, hcpu, rfl⟩ := hscript
    cases hmade with
    | cons hm' hrest =>
      rw [hm'.2] at hrest
      refine (hm.change hm'.1 trivial).made_cons hrest ?_ (fun _ hc => absurd hc List.not_mem_nil)
      rintro rfl hborn
      have hself :
          (Change.apply s.toTable (.raise me)).procs me = (s.procs me).post SIGSEGV := on_self
      rw [hself] at hborn ⊢
      exact ha hcpu hborn
  | dosignal fails =>
    obtain ⟨me, hcpu, rfl⟩ := hscript
    exact hm.made_cons hmade (fun hme hborn => ha (hme ▸ hcpu) hborn)
      (fun _ hc => absurd hc List.not_mem_nil)
  | sigsuspendEnd fails =>
    obtain ⟨me, newmask, hcpu, -, rfl⟩ := hscript
    refine hm.made_cons hmade (fun hme hborn => ha (hme ▸ hcpu) hborn) fun c hc => ?_
    rcases List.mem_cons.mp hc with rfl | hc
    · rfl
    · rw [List.mem_singleton.mp hc]
      rfl
  | _ =>
    refine hm.made hmade fun c hc => ?_
    rcases script_makes hscript c hc with hq | hq
    · exact isQuiet_dosignal hq
    · cases c with
      | dosignal me fails => cases hq
      | _ => rfl

/-- For every child that has ended, in every run.  The status `exit` was called with is not in the
    word. The signal that killed the child is, in runs in which `dosignal` was clean whenever the
    child ran it. -/
theorem status_decodes_iff (as : List Act) (s : State) (hrun : Run (Outcome.rel step) boot as s)
    (z : Slot) (hz : (s.procs z).state = .ZOMBIE) : ((s.procs z).sig.killed = false →
      (decode (waitStatus (s.procs z).sig.termsig) = .exited ((s.procs z).exitstatus.toInt % 256) ↔
        (s.procs z).exitstatus.toInt % 256 = 0)) ∧
    (Run (fun s' a t => step s' a = .next t ∧ a.Clean z (s.procs z).born s') boot as s →
      ∀ signo, (s.procs z).killedBy = some signo →
        decode (waitStatus (s.procs z).sig.termsig) = .signaled signo) := by
  have hboot : ∀ q, (boot.procs q).Unmarked ∧ (boot.procs q).Marked (s.procs z).born := by
    intro q
    refine ⟨fun _ _ => ?_, fun _ g hg => ?_⟩
    · rcases boot_procs q with h | h <;> rw [h.2] <;> rfl
    · rcases boot_procs q with h | h <;> rw [h.2] at hg <;> cases hg
  rw [decode_waitStatus]
  refine ⟨fun hk => ?_, fun hclean signo hsigno => ?_⟩
  · have hall : Inv s ∧ ∀ q, (s.procs q).Unmarked :=
      Run.invariant (I := fun s => Inv s ∧ ∀ q, (s.procs q).Unmarked)
      (fun s a t h hn => ⟨(h.1.next hn).1, h.1.unmarked h.2 hn⟩)
        hrun ⟨boot_inv, fun q => (hboot q).1⟩
    rw [hall.2 z (by rw [hz]; decide) hk]
    simp [eq_comm]
  · have hall : Inv s ∧ (s.procs z).Marked (s.procs z).born :=
      Run.invariant (I := fun r => Inv r ∧ (r.procs z).Marked (s.procs z).born)
        (fun r a t h hn => ⟨(h.1.next hn.1).1, h.1.marked h.2 hn.1 hn.2⟩)
          hclean ⟨boot_inv, (hboot z).2⟩
    obtain ⟨hterm, hpos, hle⟩ := hall.2 rfl signo hsigno
    rw [hterm, Nat.mod_eq_of_lt (by omega), if_neg (by omega)]

def child : Slot := ⟨1, by decide⟩

def childRun : List Act := [.scan, .schedule, .exec "init"] ++ forkAll ++ [.yield, .schedule]

/-- A child exits with status 256, and another one sends itself `SIGKILL`. -/
theorem status_decodes_iff_children :
    (∃ s, Run (Outcome.rel step) boot (childRun ++ [.exit 256, .exitTail]) s ∧
      ∃ z, (s.procs z).state = .ZOMBIE ∧
      (s.procs z).exitstatus = 256 ∧ decode (waitStatus (s.procs z).sig.termsig) = .exited 0) ∧
    ∃ s,
      Run (Outcome.rel step) boot (childRun ++ [.kill 2 9, .dosignal false, .exit 0, .exitTail]) s ∧
      ∃ z, (s.procs z).state = .ZOMBIE ∧ (s.procs z).killedBy = some 9 ∧
        decode (waitStatus (s.procs z).sig.termsig) = .signaled 9 := by
  constructor
  · obtain ⟨s, hrun, hz, hk, hs⟩ :=
      Outcome.exists_run step boot (childRun ++ [.exit 256, .exitTail])
      (fun s => (s.procs child).state = .ZOMBIE ∧ (s.procs child).sig.killed = false ∧
        (s.procs child).exitstatus = 256) (by decide +kernel)
    have hiff := (status_decodes_iff _ s hrun _ hz).1 hk
    rw [hs] at hiff
    exact ⟨s, hrun, _, hz, hs, hiff.mpr (by decide)⟩
  · obtain ⟨s, hrun, hz, hk, hborn⟩ :=
      Outcome.exists_guarded (fun s a _ => a.Clean child 1 s) step boot
      (childRun ++ [.kill 2 9, .dosignal false, .exit 0, .exitTail])
      (fun s => (s.procs child).state = .ZOMBIE ∧ (s.procs child).killedBy = some 9 ∧
        (s.procs child).born = 1) (by decide +kernel)
    have hrun' : Run (Outcome.rel step) boot _ s := hrun.mono fun _ _ _ h => h.1
    exact ⟨s, hrun', _, hz, hk, (status_decodes_iff _ s hrun' _ hz).2 (by rwa [hborn]) 9 hk⟩

/-- The word of a child that calls `exit(3)`, and that of a child killed for want of a restorer. -/
theorem exit_status_lost :
    (∃ s, Run (Outcome.rel step) boot (childRun ++ [.exit 3, .exitTail]) s ∧
      (s.procs child).state = .ZOMBIE ∧
      (s.procs child).exitstatus = 3 ∧
        decode (waitStatus (s.procs child).sig.termsig) = .exited 0) ∧
    ∃ s, Run (Outcome.rel step) boot
        (childRun ++ [.sigaction 10 0x1000 0, .kill 2 10, .dosignal false, .exit 0, .exitTail]) s ∧
      (s.procs child).state = .ZOMBIE ∧ (s.procs child).killedBy = some 10 ∧
      decode (waitStatus (s.procs child).sig.termsig) = .exited 0 :=
  ⟨Outcome.exists_run step boot _ _ (by decide +kernel),
    Outcome.exists_run step boot _ _ (by decide +kernel)⟩

end Micro86.Ptable
