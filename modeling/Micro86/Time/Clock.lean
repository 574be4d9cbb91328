import Micro86.Lib.Transition

/-!
# Clocks

Wall time is `system_time`, in seconds, plus the time-stamp counter since `tsc_offset`; `sys_stime`
sets `tsc_realtime` instead, in nanoseconds, which only `clock_gettime(CLOCK_REALTIME)` reads.

* `Clock` — the variables of `time/time.c` and `time/tsc.c`, and the counter.
* `sysTime`, `clockGettime`, `sysStime`, `clockSettime` — the system calls, in the arithmetic of the
  machine.
* `conversions_agree_iff` — when the conversions of `tsc.c` round down.
* `clocks_agree_iff` — when both clocks agree after one of them was set.
* `monotonic_kept` — `CLOCK_MONOTONIC` in runs that do not put `system_time` back.
-/

namespace Micro86.Time

/-! ## The system calls -/

def i64 (x : Int) : Int := Int.bmod x (2 ^ 64)

def u64 (x : Int) : Int := x % 2 ^ 64

structure Clock where
  systemTime : Int
  tscOffset : Nat
  tscFreqHz : Nat
  tscRealtime : Nat
  /-- What `rdtsc()` returns. -/
  tsc : Nat
deriving DecidableEq

structure Timespec where
  sec : Int
  nsec : Int
deriving DecidableEq

def CLOCK_REALTIME : Int := 0
def CLOCK_MONOTONIC : Int := 1

def NSEC : Nat := 1000000000

def EPERM : Int := 1

namespace Clock

def ticks (c : Clock) : Nat := (c.tsc + 2 ^ 64 - c.tscOffset) % 2 ^ 64

def epochMktime (c : Clock) : Int := i64 (c.systemTime + (c.ticks / c.tscFreqHz : Nat))

/-- `ns` of `sys_clock_gettime`, before the switch.  The variables are signed and `tsc_freq_hz` is
    not, so the divisions are those of unsigned words. -/
def ns (c : Clock) : Int :=
  let tscDelta := i64 c.ticks
  let seconds := i64 (u64 tscDelta / c.tscFreqHz)
  let remainder := i64 (u64 tscDelta % c.tscFreqHz)
  i64 (i64 (seconds * NSEC) + u64 (i64 (remainder * NSEC)) / c.tscFreqHz)

def timespec (c : Clock) (ns : Int) : Timespec :=
  ⟨i64 (c.systemTime + ns.tdiv NSEC), u64 (ns.tmod NSEC)⟩

end Clock

def sysTime (c : Clock) : Int := c.epochMktime % 2 ^ 32

def clockGettime (c : Clock) (clkid : Int) : Option Timespec :=
  if clkid = CLOCK_MONOTONIC then some (c.timespec c.ns)
  else if clkid = CLOCK_REALTIME then some (c.timespec (i64 (c.ns + c.tscRealtime)))
  else none

def sysStime (c : Clock) (suser : Bool) (epoch : Int) : Int × Clock :=
  if !suser then (-EPERM, c) else (0, { c with tscRealtime := (u64 (epoch * NSEC)).toNat })

def clockSettime (c : Clock) (suser : Bool) (clkid sec : Int) : Int × Clock :=
  if !suser then (-EPERM, c)
  else if clkid ≠ CLOCK_REALTIME then (-EPERM, c)
  else (0, { c with systemTime := i64 (sec - (c.ticks / c.tscFreqHz : Nat)) })

/-! ## Without overflow -/

/-- The counter has not wrapped, its frequency is below 2^33 Hz, and the uptime is below 2^63 ns. -/
structure Clock.Within (c : Clock) : Prop where
  started : c.tscOffset ≤ c.tsc
  word : c.tsc < 2 ^ 64
  freq : 0 < c.tscFreqHz
  slow : c.tscFreqHz < 2 ^ 33
  short : (c.tsc - c.tscOffset) * NSEC / c.tscFreqHz < 2 ^ 63

instance (c : Clock) : Decidable c.Within :=
  decidable_of_iff (c.tscOffset ≤ c.tsc ∧ c.tsc < 2 ^ 64 ∧ 0 < c.tscFreqHz ∧
    c.tscFreqHz < 2 ^ 33 ∧ (c.tsc - c.tscOffset) * NSEC / c.tscFreqHz < 2 ^ 63)
    ⟨fun ⟨h1, h2, h3, h4, h5⟩ => ⟨h1, h2, h3, h4, h5⟩,
      fun h => ⟨h.started, h.word, h.freq, h.slow, h.short⟩⟩

theorem i64_of_range {x : Int} (h : -2 ^ 63 ≤ x) (h' : x < 2 ^ 63) : i64 x = x := by
  unfold i64 Int.bmod
  simp only
  split <;> omega

theorem u64_i64 (x : Int) : u64 (i64 x) = u64 x := by
  unfold u64 i64
  exact Int.bmod_emod ..

section

variable {c c' : Clock}

theorem Clock.Within.ticks (h : c.Within) : c.ticks = c.tsc - c.tscOffset := by
  have hstarted := h.started
  have hword := h.word
  unfold Clock.ticks
  omega

theorem split_div {a b f : Nat} (hf : 0 < f) : a / f * b + a % f * b / f = a * b / f := by
  have hsplit : a * b = a % f * b + f * (a / f * b) := by
    rw [Nat.mul_comm f, Nat.mul_assoc, Nat.mul_comm b f, ← Nat.mul_assoc,
      ← Nat.add_mul, Nat.mul_comm (a / f), Nat.add_comm, Nat.div_add_mod]
  rw [hsplit, Nat.add_mul_div_left _ _ hf, Nat.add_comm]

theorem u64_natCast {n : Nat} (h : n < 2 ^ 64) : u64 n = n := by
  unfold u64
  omega

theorem i64_natCast {n : Nat} (h : n < 2 ^ 63) : i64 n = n := i64_of_range (by omega) (by omega)

theorem ns_eq (h : c.Within) : c.ns = (c.ticks * NSEC / c.tscFreqHz : Nat) := by
  have hword : c.ticks < 2 ^ 64 := Nat.mod_lt _ (Nat.two_pow_pos 64)
  have hsplit := split_div (a := c.ticks) (b := NSEC) h.freq
  have hshort : c.ticks * NSEC / c.tscFreqHz < 2 ^ 63 := by
    rw [h.ticks]
    exact h.short
  have hrem : c.ticks % c.tscFreqHz < c.tscFreqHz := Nat.mod_lt _ h.freq
  have hslow := h.slow
  have hmul : c.ticks % c.tscFreqHz * NSEC < 2 ^ 63 := by
    simp only [NSEC]
    omega
  have hsecs : c.ticks / c.tscFreqHz * NSEC < 2 ^ 63 :=
    Nat.lt_of_le_of_lt (Nat.le_add_right _ _) (hsplit ▸ hshort)
  have hsec : c.ticks / c.tscFreqHz < 2 ^ 63 :=
    Nat.lt_of_le_of_lt (Nat.le_mul_of_pos_right _ (by decide)) hsecs
  unfold Clock.ns
  simp only [u64_i64, u64_natCast hword]
  rw [← Int.natCast_ediv, ← Int.natCast_emod, i64_natCast hsec,
    i64_natCast (by omega), ← Int.natCast_mul, ← Int.natCast_mul,
    i64_natCast hsecs, u64_natCast (by omega), ← Int.natCast_ediv,
      ← Int.natCast_add, hsplit, i64_natCast hshort]

/-! ## The conversions of `tsc.c` -/

def Clock.tscToUs (c : Clock) : Nat := c.ticks * 1000000 % 2 ^ 64 / c.tscFreqHz

def Clock.tscToNs (c : Clock) : Nat := c.ticks * NSEC % 2 ^ 64 / c.tscFreqHz

/-- The three conversions of the counter round down. -/
def Clock.Converts (c : Clock) : Prop :=
  c.tscToNs = (c.tsc - c.tscOffset) * NSEC / c.tscFreqHz ∧
    c.tscToUs = (c.tsc - c.tscOffset) * 1000000 / c.tscFreqHz ∧
    c.ns = ((c.tsc - c.tscOffset) * NSEC / c.tscFreqHz : Nat)

/-- A product that wraps is less by `2 ^ 64` at least. -/
theorem mod_div_lt {n f : Nat} (hf : 0 < f) (hslow : f < 2 ^ 33) (hn : 2 ^ 64 ≤ n) :
    n % 2 ^ 64 / f < n / f := by
  have hle : n % 2 ^ 64 + f ≤ n := by omega
  have := Nat.div_le_div_right (c := f) hle
  rw [Nat.add_div_right _ hf] at this
  exact this

theorem conversions_agree_iff (h : c.Within) :
    c.Converts ↔ (c.tsc - c.tscOffset) * NSEC < 2 ^ 64 := by
  have hns := ns_eq h
  rw [h.ticks] at hns
  unfold Clock.Converts Clock.tscToNs Clock.tscToUs
  rw [h.ticks]
  constructor
  · intro hconv
    by_contra hwrap
    exact absurd hconv.1 (Nat.ne_of_lt (mod_div_lt h.freq h.slow (Nat.not_lt.mp hwrap)))
  · intro hlt
    have hus : (c.tsc - c.tscOffset) * 1000000 < 2 ^ 64 :=
      Nat.lt_of_le_of_lt (Nat.mul_le_mul_left _ (by decide)) hlt
    rw [Nat.mod_eq_of_lt hlt, Nat.mod_eq_of_lt hus]
    exact ⟨rfl, rfl, hns⟩

theorem conversions_agree_iff_second : Clock.Converts ⟨0, 0, 1000, 0, 1000⟩ :=
  (conversions_agree_iff (c := ⟨0, 0, 1000, 0, 1000⟩) (by decide)).mpr (by decide)

/-- Twenty seconds at one gigahertz. -/
theorem conversion_wraps : ¬ ∀ c : Clock, c.Within → c.Converts := by
  intro h
  obtain ⟨hns, -⟩ := h ⟨0, 0, 1000000000, 0, 20000000000⟩ (by decide)
  exact absurd hns (by decide)

end

/-! ## `CLOCK_MONOTONIC` -/

def Timespec.Le (a b : Timespec) : Prop := a.sec < b.sec ∨ a.sec = b.sec ∧ a.nsec ≤ b.nsec
deriving Decidable

theorem Timespec.Le.trans {a b d : Timespec} (h : a.Le b) (h' : b.Le d) : a.Le d := by
  unfold Timespec.Le at *
  omega

section

variable {c c' : Clock}

/-- `system_time` is far from overflow. -/
def Clock.Near (c : Clock) : Prop := -2 ^ 62 ≤ c.systemTime ∧ c.systemTime < 2 ^ 62
deriving Decidable

theorem timespec_eq (hst : c.Near) {n : Nat} (hn : n < 2 ^ 63) :
    c.timespec n = ⟨c.systemTime + (n / NSEC : Nat), (n % NSEC : Nat)⟩ := by
  obtain ⟨hlow, hhigh⟩ := hst
  have hdiv : ((n : Int)).tdiv NSEC = (n / NSEC : Nat) := rfl
  have hmod : ((n : Int)).tmod NSEC = (n % NSEC : Nat) := rfl
  unfold Clock.timespec
  rw [hdiv, hmod, i64_of_range, u64_natCast]
  all_goals
    simp only [NSEC]
    omega

def Clock.monotonic (c : Clock) : Timespec := c.timespec c.ns

theorem monotonic_eq (h : c.Within) (hst : c.Near) :
    c.monotonic = ⟨c.systemTime + (c.ticks * NSEC / c.tscFreqHz / NSEC : Nat),
      (c.ticks * NSEC / c.tscFreqHz % NSEC : Nat)⟩ := by
  have hshort : c.ticks * NSEC / c.tscFreqHz < 2 ^ 63 := by
    rw [h.ticks]
    exact h.short
  unfold Clock.monotonic
  rw [ns_eq h, timespec_eq hst hshort]

theorem monotonic_le (h : c.Within) (h' : c'.Within) (hst : c.Near)
    (hst' : c'.Near) (hfreq : c'.tscFreqHz = c.tscFreqHz) (hticks : c.ticks ≤ c'.ticks)
    (hsys : c.systemTime ≤ c'.systemTime) : c.monotonic.Le c'.monotonic := by
  have hns : c.ticks * NSEC / c.tscFreqHz ≤ c'.ticks * NSEC / c'.tscFreqHz := by
    rw [hfreq]
    exact Nat.div_le_div_right (Nat.mul_le_mul_right _ hticks)
  rw [monotonic_eq h hst, monotonic_eq h' hst']
  generalize c.ticks * NSEC / c.tscFreqHz = n at hns ⊢
  generalize c'.ticks * NSEC / c'.tscFreqHz = n' at hns ⊢
  simp only [Timespec.Le, NSEC]
  omega

end

/-- The clocks, and what `clock_gettime(CLOCK_MONOTONIC)` has returned, last first. -/
structure Sys where
  clock : Clock
  times : List Timespec
deriving DecidableEq

/-- Time goes on, or a system call is made. -/
inductive Act where
  | tick (d : Nat)
  | stime (suser : Bool) (epoch : Int)
  | settime (suser : Bool) (clkid sec : Int)
  | gettime (clkid : Int)

def step (s : Sys) : Act → Sys
  | .tick d => { s with clock := { s.clock with tsc := s.clock.tsc + d } }
  | .stime suser epoch => { s with clock := (sysStime s.clock suser epoch).2 }
  | .settime suser clkid sec => { s with clock := (clockSettime s.clock suser clkid sec).2 }
  | .gettime clkid =>
    match clockGettime s.clock clkid with
    | some ts => if clkid = CLOCK_MONOTONIC then { s with times := ts :: s.times } else s
    | none => s

/-- The clocks when the counter is `now`. -/
def Clock.at (c : Clock) (now : Nat) : Clock := { c with tsc := now }

/-- The counter keeps within its bounds, and `system_time` is put neither back nor close to an
    overflow. -/
def Act.Forward (s : Sys) : Act → Prop
  | .tick d => (s.clock.at (s.clock.tsc + d)).Within
  | .settime suser clkid sec => suser = true → clkid = CLOCK_REALTIME →
      s.clock.systemTime ≤ i64 (sec - (s.clock.ticks / s.clock.tscFreqHz : Nat)) ∧
      i64 (sec - (s.clock.ticks / s.clock.tscFreqHz : Nat)) < 2 ^ 62
  | _ => True

instance (s : Sys) (a : Act) : Decidable (a.Forward s) := by
  unfold Act.Forward
  split <;> infer_instance

/-- What has been returned is in order, and not later than what would be returned now. -/
structure Ordered (s : Sys) : Prop where
  within : s.clock.Within
  near : s.clock.Near
  order : s.times.Pairwise fun b a => a.Le b
  past : ∀ r ∈ s.times, r.Le s.clock.monotonic
  nsec : ∀ r ∈ s.times, r.nsec < NSEC

section

variable {s t : Sys}

theorem step_freq (s : Sys) (a : Act) : (step s a).clock.tscFreqHz = s.clock.tscFreqHz ∧
    (step s a).clock.tscOffset = s.clock.tscOffset ∧ s.clock.tsc ≤ (step s a).clock.tsc := by
  cases a with
  | tick d => exact ⟨rfl, rfl, Nat.le_add_right _ _⟩
  | stime suser epoch =>
    simp only [step, sysStime]
    split <;> exact ⟨rfl, rfl, Nat.le_refl _⟩
  | settime suser clkid sec =>
    simp only [step, clockSettime]
    split
    · exact ⟨rfl, rfl, Nat.le_refl _⟩
    · split <;> exact ⟨rfl, rfl, Nat.le_refl _⟩
  | gettime clkid =>
    simp only [step]
    split
    · split <;> exact ⟨rfl, rfl, Nat.le_refl _⟩
    · exact ⟨rfl, rfl, Nat.le_refl _⟩

theorem step_times (s : Sys) (a : Act) :
    (step s a).times = s.times ∨ (step s a).times = s.clock.monotonic :: s.times := by
  cases a with
  | tick d | stime suser epoch | settime suser clkid sec => exact .inl rfl
  | gettime clkid =>
    by_cases hid : clkid = CLOCK_MONOTONIC
    · subst hid
      exact .inr rfl
    · simp only [step, if_neg hid]
      split <;> exact .inl rfl

theorem step_forward {a : Act} (h : s.clock.Within) (hnear : s.clock.Near) (ha : a.Forward s) :
    (step s a).clock.Within ∧ s.clock.systemTime ≤ (step s a).clock.systemTime ∧
      (step s a).clock.systemTime < 2 ^ 62 := by
  have hsame : s.clock.Within ∧ s.clock.systemTime ≤ s.clock.systemTime ∧
      s.clock.systemTime < 2 ^ 62 := ⟨h, Int.le_refl _, hnear.2⟩
  cases a with
  | tick d => exact ⟨ha, hsame.2⟩
  | stime suser epoch =>
    simp only [step, sysStime]
    split
    · exact hsame
    · exact ⟨⟨h.started, h.word, h.freq, h.slow, h.short⟩, hsame.2⟩
  | settime suser clkid sec =>
    simp only [step, clockSettime]
    split
    · exact hsame
    rename_i hsu
    split
    · exact hsame
    rename_i hid
    exact ⟨⟨h.started, h.word, h.freq, h.slow, h.short⟩,
      ha (by simpa using hsu) (by simpa using hid)⟩
  | gettime clkid =>
    simp only [step]
    split
    · split <;> exact hsame
    · exact hsame

theorem Ordered.step {a : Act} (h : Ordered s) (ha : a.Forward s) : Ordered (step s a) := by
  obtain ⟨hfreq, hoffset, htsc⟩ := step_freq s a
  obtain ⟨hwithin, hsys, hhigh⟩ := step_forward h.within h.near ha
  have hnear : (Time.step s a).clock.Near := ⟨Int.le_trans h.near.1 hsys, hhigh⟩
  have hle : s.clock.monotonic.Le (Time.step s a).clock.monotonic := by
    refine monotonic_le h.within hwithin h.near hnear hfreq ?_ hsys
    rw [h.within.ticks, hwithin.ticks, hoffset]
    exact Nat.sub_le_sub_right htsc _
  have hpast : ∀ r ∈ s.times, r.Le (Time.step s a).clock.monotonic :=
    fun r hr => (h.past r hr).trans hle
  rcases step_times s a with htimes | htimes
  · refine ⟨hwithin, hnear, ?_, ?_, ?_⟩ <;> rw [htimes]
    · exact h.order
    · exact hpast
    · exact h.nsec
  refine ⟨hwithin, hnear, ?_, ?_, ?_⟩ <;> rw [htimes]
  · exact List.pairwise_cons.mpr ⟨h.past, h.order⟩
  · exact List.forall_mem_cons.mpr ⟨hle, hpast⟩
  · refine List.forall_mem_cons.mpr ⟨?_, h.nsec⟩
    rw [monotonic_eq h.within h.near]
    exact Int.ofNat_lt.mpr (Nat.mod_lt _ (by decide))

theorem monotonic_kept {acts : List Act} (hwithin : s.clock.Within)
    (hnear : s.clock.Near) (hfirst : s.times = [])
    (hrun : Run (fun s a t => t = step s a ∧ a.Forward s) s acts t) :
    t.times.Pairwise (fun b a => a.Le b) ∧ ∀ r ∈ t.times, r.nsec < NSEC := by
  have hinit : Ordered s := by
    refine ⟨hwithin, hnear, ?_, ?_, ?_⟩ <;> rw [hfirst]
    · exact List.Pairwise.nil
    · exact fun r hr => absurd hr List.not_mem_nil
    · exact fun r hr => absurd hr List.not_mem_nil
  have hlast : Ordered t := by
    refine hrun.invariant (fun s a t hs hn => ?_) hinit
    obtain ⟨rfl, hforward⟩ := hn
    exact hs.step hforward
  exact ⟨hlast.order, hlast.nsec⟩

end

def kilohertz : Clock := ⟨1000, 0, 1000, 0, 0⟩

/-- Half a second passes, and the clock is put forward. -/
theorem monotonic_kept_settime :
    ∃ t, Run (fun s a t => t = step s a ∧ a.Forward s) ⟨kilohertz, []⟩
    [.gettime CLOCK_MONOTONIC, .tick 500, .settime true CLOCK_REALTIME 2000,
      .gettime CLOCK_MONOTONIC] t ∧
    t.times = [⟨2000, 500000000⟩, ⟨1000, 0⟩] ∧ t.times.Pairwise (fun b a => a.Le b) ∧
      ∀ r ∈ t.times, r.nsec < NSEC := by
  have hrun : Run (fun s a t => t = step s a ∧ a.Forward s) ⟨kilohertz, []⟩
      [.gettime CLOCK_MONOTONIC, .tick 500, .settime true CLOCK_REALTIME 2000,
        .gettime CLOCK_MONOTONIC] _ :=
    .cons ⟨rfl, by decide⟩ (.cons ⟨rfl, by decide⟩ (.cons ⟨rfl, by decide⟩
      (.cons ⟨rfl, by decide⟩ (.nil _))))
  exact ⟨_, hrun, by decide, monotonic_kept (by decide) (by decide) rfl hrun⟩

/-- The clock is put back between two calls. -/
theorem settime_goes_back : ∃ t, Run (fun s a t => t = step s a ∧ t.clock.Within) ⟨kilohertz, []⟩
    [.gettime CLOCK_MONOTONIC, .settime true CLOCK_REALTIME 500, .gettime CLOCK_MONOTONIC] t ∧
    t.times = [⟨500, 0⟩, ⟨1000, 0⟩] ∧ ¬ t.times.Pairwise (fun b a => a.Le b) :=
  ⟨_, .cons ⟨rfl, by decide⟩ (.cons ⟨rfl, by decide⟩ (.cons ⟨rfl, by decide⟩ (.nil _))),
    by decide, by decide⟩

/-! ## Setting the clocks -/

def Clock.secs (c : Clock) (now : Nat) : Nat := (now - c.tscOffset) / c.tscFreqHz

def Clock.frac (c : Clock) (now : Nat) : Nat :=
  (now - c.tscOffset) % c.tscFreqHz * NSEC / c.tscFreqHz

/-- Nothing overflows in the next seconds. -/
structure Clock.Sane (c : Clock) : Prop where
  started : c.tscOffset ≤ c.tsc
  word : c.tsc + c.tscFreqHz < 2 ^ 64
  freq : 0 < c.tscFreqHz
  slow : c.tscFreqHz < 2 ^ 33
  near : c.Near
  realtime : c.tscRealtime < 2 ^ 62
  early : c.secs c.tsc + 1 < 2 ^ 32

/-- Both clocks report `t` plus the seconds elapsed since the counter was `c.tsc`. -/
def Reports (c : Clock) (t : Nat) (elapsed : Nat → Nat) : Prop :=
  ∀ now, c.tsc ≤ now → now < 2 ^ 64 → c.secs now < 2 ^ 32 → t + elapsed now < 2 ^ 32 →
    sysTime (c.at now) = (t + elapsed now : Nat) ∧
      (clockGettime (c.at now) CLOCK_REALTIME).map Timespec.sec =
      some ((t + elapsed now : Nat) : Int)

def Clock.elapsed (c : Clock) (now : Nat) : Nat := (now - c.tsc) / c.tscFreqHz

def Clock.begun (c : Clock) (now : Nat) : Nat := c.secs now - c.secs c.tsc

section

variable {c : Clock} {t now : Nat}

section

variable (h : c.Sane)
include h

theorem Clock.Sane.frac_lt (now : Nat) : c.frac now < NSEC := by
  refine (Nat.div_lt_iff_lt_mul h.freq).mpr ?_
  rw [Nat.mul_comm NSEC]
  exact Nat.mul_lt_mul_of_pos_right (Nat.mod_lt _ h.freq) (by decide)

theorem Clock.Sane.ns_at (now : Nat) :
    (now - c.tscOffset) * NSEC / c.tscFreqHz = c.secs now * NSEC + c.frac now :=
  (split_div h.freq).symm

theorem Clock.Sane.within (hnow : c.tsc ≤ now) (hword : now < 2 ^ 64)
    (hsecs : c.secs now < 2 ^ 32) : (c.at now).Within := by
  refine ⟨Nat.le_trans h.started hnow, hword, h.freq, h.slow, ?_⟩
  have hfrac := h.frac_lt now
  show (now - c.tscOffset) * NSEC / c.tscFreqHz < 2 ^ 63
  rw [h.ns_at]
  simp only [NSEC] at *
  omega

theorem Clock.Sane.reported (hnow : c.tsc ≤ now) (hword : now < 2 ^ 64)
    (hsecs : c.secs now < 2 ^ 32) : sysTime (c.at now) = (c.systemTime + c.secs now) % 2 ^ 32 ∧
      (clockGettime (c.at now) CLOCK_REALTIME).map Timespec.sec =
      some (c.systemTime + c.secs now + ((c.frac now + c.tscRealtime) / NSEC : Nat)) := by
  have hwithin := h.within hnow hword hsecs
  have hticks : (c.at now).ticks = now - c.tscOffset := hwithin.ticks
  have hfrac := h.frac_lt now
  have hrealtime := h.realtime
  obtain ⟨hlow, hhigh⟩ := h.near
  constructor
  · unfold sysTime Clock.epochMktime
    rw [hticks]
    show i64 (c.systemTime + c.secs now) % 2 ^ 32 = _
    rw [i64_of_range (by omega) (by omega)]
  · have hns : (c.at now).ns = (c.secs now * NSEC + c.frac now : Nat) := by
      rw [ns_eq hwithin, hticks]
      exact congrArg _ (h.ns_at now)
    have hsum : c.secs now * NSEC + c.frac now + c.tscRealtime < 2 ^ 63 := by
      simp only [NSEC] at *
      omega
    have hi64 : i64 ((c.at now).ns + (c.at now).tscRealtime) =
        (c.secs now * NSEC + c.frac now + c.tscRealtime : Nat) := by
      rw [hns]
      exact i64_natCast hsum
    show some ((c.at now).timespec (i64 ((c.at now).ns + (c.at now).tscRealtime))).sec = _
    have hnear : (c.at now).Near := h.near
    rw [hi64, timespec_eq hnear hsum]
    show some (c.systemTime + ((c.secs now * NSEC + c.frac now + c.tscRealtime) / NSEC : Nat)) = _
    rw [Nat.add_assoc, Nat.add_comm, Nat.add_mul_div_right _ _ (by decide : 0 < NSEC),
      Nat.add_comm, Int.natCast_add, Int.add_assoc]

/-! ### The next seconds -/

theorem Clock.Sane.next (hrem : (c.tsc - c.tscOffset) % c.tscFreqHz ≠ 0) :
    ∃ now, c.tsc ≤ now ∧ now < 2 ^ 64 ∧ c.secs now = c.secs c.tsc + 1 ∧ c.elapsed now = 0 := by
  have hword := h.word
  have hlt := Nat.mod_lt (c.tsc - c.tscOffset) h.freq
  have hdiv := Nat.div_add_mod (c.tsc - c.tscOffset) c.tscFreqHz
  refine ⟨c.tsc + (c.tscFreqHz - (c.tsc - c.tscOffset) % c.tscFreqHz), by omega, by omega, ?_, ?_⟩
  · unfold Clock.secs
    refine Nat.div_eq_of_eq_mul_right h.freq ?_
    rw [Nat.mul_add, Nat.mul_one]
    omega
  · unfold Clock.elapsed
    exact Nat.div_eq_of_lt (by omega)

theorem Clock.Sane.last :
    ∃ now, c.tsc ≤ now ∧ now < 2 ^ 64 ∧ c.secs now = c.secs c.tsc ∧
      c.elapsed now = 0 ∧ c.frac now = (c.tscFreqHz - 1) * NSEC / c.tscFreqHz := by
  have hstarted := h.started
  have hword := h.word
  have hlt := Nat.mod_lt (c.tsc - c.tscOffset) h.freq
  have hdiv := Nat.div_add_mod (c.tsc - c.tscOffset) c.tscFreqHz
  have hnow : c.tsc + (c.tscFreqHz - 1 - (c.tsc - c.tscOffset) % c.tscFreqHz) - c.tscOffset =
      c.tscFreqHz * ((c.tsc - c.tscOffset) / c.tscFreqHz) + (c.tscFreqHz - 1) := by omega
  refine ⟨c.tsc + (c.tscFreqHz - 1 - (c.tsc - c.tscOffset) % c.tscFreqHz),
    by omega, by omega, ?_, ?_, ?_⟩
  · unfold Clock.secs
    rw [hnow, Nat.mul_add_div h.freq,
      Nat.div_eq_of_lt (by omega : c.tscFreqHz - 1 < c.tscFreqHz), Nat.add_zero]
  · unfold Clock.elapsed
    exact Nat.div_eq_of_lt (by omega)
  · unfold Clock.frac
    rw [hnow, Nat.mul_add_mod, Nat.mod_eq_of_lt (by omega : c.tscFreqHz - 1 < c.tscFreqHz)]

theorem elapsed_eq_begun (hrem : (c.tsc - c.tscOffset) % c.tscFreqHz = 0) (hnow : c.tsc ≤ now) :
    c.elapsed now = c.begun now := by
  have hstarted := h.started
  have hdiv := Nat.div_add_mod (c.tsc - c.tscOffset) c.tscFreqHz
  have hsum : now - c.tscOffset = c.tscFreqHz * ((c.tsc - c.tscOffset) / c.tscFreqHz) +
      (now - c.tsc) := by omega
  unfold Clock.elapsed Clock.begun Clock.secs
  rw [hsum, Nat.mul_add_div h.freq, Nat.add_sub_cancel_left]

end

theorem begun_cast (hnow : c.tsc ≤ now) : (c.secs now : Int) = c.secs c.tsc + c.begun now := by
  have hmono : c.secs c.tsc ≤ c.secs now := Nat.div_le_div_right (Nat.sub_le_sub_right hnow _)
  unfold Clock.begun
  omega

theorem begun_self : c.begun c.tsc = 0 := Nat.sub_self _

theorem elapsed_self : c.elapsed c.tsc = 0 := by
  unfold Clock.elapsed
  rw [Nat.sub_self, Nat.zero_div]

theorem Clock.Sane.frac_le (h : c.Sane) (now : Nat) :
    c.frac now ≤ (c.tscFreqHz - 1) * NSEC / c.tscFreqHz :=
  Nat.div_le_div_right (Nat.mul_le_mul_right _ (Nat.le_sub_one_of_lt (Nat.mod_lt _ h.freq)))

/-! ### After setting -/

/-- `sys_stime(t)`, with zero in the upper half of `epoch`. -/
def Clock.stimed (c : Clock) (t : Nat) : Clock := (sysStime c true t).2

/-- `clock_settime(CLOCK_REALTIME, t)`. -/
def Clock.settimed (c : Clock) (t : Nat) : Clock := (clockSettime c true CLOCK_REALTIME t).2

theorem Clock.Sane.stimed_eq (ht : t < 2 ^ 32) :
    c.stimed t = { c with tscRealtime := t * NSEC } := by
  have hword : t * NSEC < 2 ^ 64 := by
    simp only [NSEC]
    omega
  have hu64 : u64 ((t : Int) * NSEC) = (t * NSEC : Nat) := u64_natCast hword
  show { c with tscRealtime := (u64 ((t : Int) * NSEC)).toNat } = _
  rw [hu64]
  rfl

theorem Clock.Sane.settimed_eq (h : c.Sane) (ht : t < 2 ^ 32) :
    c.settimed t = { c with systemTime := t - c.secs c.tsc } := by
  have hearly := h.early
  have hticks : c.ticks = c.tsc - c.tscOffset := by
    have hstarted := h.started
    have hword := h.word
    unfold Clock.ticks
    omega
  show { c with systemTime := i64 (t - (c.ticks / c.tscFreqHz : Nat)) } = _
  rw [hticks]
  show { c with systemTime := i64 (t - c.secs c.tsc) } = _
  rw [i64_of_range (by omega) (by omega)]

theorem Clock.Sane.stimed (h : c.Sane) (ht : t < 2 ^ 32) : (c.stimed t).Sane := by
  rw [stimed_eq ht]
  refine ⟨h.started, h.word, h.freq, h.slow, h.near, ?_, h.early⟩
  show t * NSEC < 2 ^ 62
  simp only [NSEC]
  omega

theorem Clock.Sane.settimed (h : c.Sane) (ht : t < 2 ^ 32) : (c.settimed t).Sane := by
  have hearly := h.early
  rw [h.settimed_eq ht]
  refine ⟨h.started, h.word, h.freq, h.slow, ⟨?_, ?_⟩, h.realtime, h.early⟩
  · show -2 ^ 62 ≤ (t : Int) - c.secs c.tsc
    omega
  · show (t : Int) - c.secs c.tsc < 2 ^ 62
    omega

variable {elapsed : Nat → Nat}

section

variable (h : c.Sane) (ht : t < 2 ^ 32)
include h ht

theorem reports_stimed : Reports (c.stimed t) t elapsed ↔
    ∀ now, c.tsc ≤ now → now < 2 ^ 64 → c.secs now < 2 ^ 32 → t + elapsed now < 2 ^ 32 →
      (c.systemTime + c.secs now) % 2 ^ 32 = (t + elapsed now : Nat) ∧
      c.systemTime + c.secs now = elapsed now := by
  have hs := h.stimed ht
  have hdiv : ∀ now, (c.frac now + t * NSEC) / NSEC = t := by
    intro now
    rw [Nat.add_mul_div_right _ _ (by decide : 0 < NSEC),
      Nat.div_eq_of_lt (h.frac_lt now), Nat.zero_add]
  rw [Clock.Sane.stimed_eq ht] at hs ⊢
  refine forall_congr' fun now => forall_congr' fun hnow => forall_congr' fun hword =>
    forall_congr' fun hsecs => forall_congr' fun hsum => ?_
  obtain ⟨htime, hgettime⟩ := hs.reported hnow hword hsecs
  rw [htime, hgettime, Option.some.injEq]
  show _ ∧ c.systemTime + c.secs now + ((c.frac now + t * NSEC) / NSEC : Nat) = _ ↔ _
  rw [hdiv]
  refine and_congr_right fun _ => ?_
  omega

theorem reports_settimed : Reports (c.settimed t) t elapsed ↔
    ∀ now, c.tsc ≤ now → now < 2 ^ 64 → c.secs now < 2 ^ 32 → t + elapsed now < 2 ^ 32 →
      ((t : Int) + c.begun now) % 2 ^ 32 = (t + elapsed now : Nat) ∧
      c.begun now + (c.frac now + c.tscRealtime) / NSEC = elapsed now := by
  have hs := h.settimed ht
  rw [h.settimed_eq ht] at hs ⊢
  refine forall_congr' fun now => forall_congr' fun hnow => forall_congr' fun hword =>
    forall_congr' fun hsecs => forall_congr' fun hsum => ?_
  obtain ⟨htime, hgettime⟩ := hs.reported hnow hword hsecs
  have hbegun := begun_cast (c := c) hnow
  rw [htime, hgettime, Option.some.injEq]
  show ((t : Int) - c.secs c.tsc + c.secs now) % 2 ^ 32 = _ ∧
      (t : Int) - c.secs c.tsc + c.secs now + ((c.frac now + c.tscRealtime) / NSEC : Nat) = _ ↔ _
  have hsecs' : (t : Int) - c.secs c.tsc + c.secs now = t + c.begun now := by omega
  rw [hsecs']
  refine and_congr_right fun _ => ?_
  omega

theorem stimed_at_call (hcall : elapsed c.tsc = 0) (hr : Reports (c.stimed t) t elapsed) :
    t = 0 ∧ c.systemTime + c.secs c.tsc = 0 := by
  have hword := h.word
  have hearly := h.early
  have hnow := (reports_stimed h ht).mp hr c.tsc (Nat.le_refl _) (by omega) (by omega) (by omega)
  omega

theorem settimed_at_last
    (hlast : ∀ now, c.elapsed now = 0 → c.secs now = c.secs c.tsc → elapsed now = 0)
    (hr : Reports (c.settimed t) t elapsed) :
    c.tscRealtime + (c.tscFreqHz - 1) * NSEC / c.tscFreqHz < NSEC := by
  have hearly := h.early
  obtain ⟨now, hnow, hword, hsecs, helapsed, hfrac⟩ := h.last
  have hzero := hlast now helapsed hsecs
  have hreport := ((reports_settimed h ht).mp hr now hnow hword (by omega) (by omega)).2
  rw [hfrac, hzero] at hreport
  have hdiv := (Nat.add_eq_zero_iff.mp hreport).2
  rcases Nat.div_eq_zero_iff.mp hdiv with hdiv | hdiv
  · exact absurd hdiv (by decide)
  · omega

theorem settimed_begun (hrt : c.tscRealtime + (c.tscFreqHz - 1) * NSEC / c.tscFreqHz < NSEC) :
    Reports (c.settimed t) t c.begun := by
  refine (reports_settimed h ht).mpr fun now hnow hword hsecs hsum => ⟨by omega, ?_⟩
  have hfrac := h.frac_le now
  rw [Nat.div_eq_of_lt (by omega), Nat.add_zero]

end

/-- When both clocks agree after one of them was set, as seconds elapse or as seconds begin. -/
theorem clocks_agree_iff (h : c.Sane) (ht : t < 2 ^ 32) :
    (Reports (c.stimed t) t c.elapsed ↔ t = 0 ∧ c.systemTime + c.secs c.tsc = 0 ∧
      (c.tsc - c.tscOffset) % c.tscFreqHz = 0) ∧
    (Reports (c.stimed t) t c.begun ↔ t = 0 ∧ c.systemTime + c.secs c.tsc = 0) ∧
    (Reports (c.settimed t) t c.elapsed ↔
      (c.tsc - c.tscOffset) % c.tscFreqHz = 0 ∧
        c.tscRealtime + (c.tscFreqHz - 1) * NSEC / c.tscFreqHz < NSEC) ∧
    (Reports (c.settimed t) t c.begun ↔
      c.tscRealtime + (c.tscFreqHz - 1) * NSEC / c.tscFreqHz < NSEC) := by
  have hearly := h.early
  have hstimed : t = 0 → c.systemTime + c.secs c.tsc = 0 → Reports (c.stimed t) t c.begun := by
    intro hzero hsys
    refine (reports_stimed h ht).mpr fun now hnow hword hsecs hsum => ?_
    have := begun_cast hnow
    omega
  -- what was said of seconds that begin holds for those that elapse, at the beginning of a second
  have hsame : (c.tsc - c.tscOffset) % c.tscFreqHz = 0 → ∀ d : Clock,
      d.tsc = c.tsc → Reports d t c.begun → Reports d t c.elapsed := by
    intro hrem d hd hr now hnow hword hsecs hsum
    rw [elapsed_eq_begun h hrem (hd ▸ hnow)] at hsum ⊢
    exact hr now hnow hword hsecs hsum
  refine ⟨⟨fun hr => ?_,
    fun ⟨hzero, hsys, hrem⟩ => hsame hrem _ (by rw [Clock.Sane.stimed_eq ht]) (hstimed hzero hsys)⟩,
    ⟨stimed_at_call h ht begun_self, fun ⟨hzero, hsys⟩ => hstimed hzero hsys⟩,
    ⟨fun hr => ⟨?_, settimed_at_last h ht (fun _ helapsed _ => helapsed) hr⟩,
      fun ⟨hrem, hrt⟩ => hsame hrem _ (by rw [h.settimed_eq ht]) (settimed_begun h ht hrt)⟩,
    ⟨settimed_at_last h ht fun now _ hsecs => ?_, settimed_begun h ht⟩⟩
  · obtain ⟨hzero, hsys⟩ := stimed_at_call h ht elapsed_self hr
    refine ⟨hzero, hsys, ?_⟩
    by_contra hrem
    obtain ⟨now, hnow, hword, hsecs, helapsed⟩ := h.next hrem
    have hreport := ((reports_stimed h ht).mp hr now hnow hword (by omega) (by omega)).2
    omega
  · by_contra hrem
    obtain ⟨now, hnow, hword, hsecs, helapsed⟩ := h.next hrem
    have hreport := ((reports_settimed h ht).mp hr now hnow hword (by omega) (by omega)).2
    have hzero := (Nat.add_eq_zero_iff.mp (hreport.trans helapsed)).1
    have hbegun := begun_cast hnow
    omega
  · unfold Clock.begun
    rw [hsecs, Nat.sub_self]

end

theorem clocks_agree_iff_kilohertz :
    kilohertz.Sane ∧ (Reports (kilohertz.settimed 5000) 5000 kilohertz.elapsed ↔ True) ∧
    (Reports (kilohertz.stimed 5000) 5000 kilohertz.elapsed ↔ False) := by
  have hsane : kilohertz.Sane :=
    ⟨by decide, by decide, by decide, by decide, by decide, by decide, by decide⟩
  obtain ⟨hstime, -, hsettime, -⟩ := clocks_agree_iff (t := 5000) hsane (by decide)
  exact ⟨hsane, hsettime.trans (iff_true_intro (by decide)),
    hstime.trans (iff_false_intro (by decide))⟩

/-- Neither clock reports the time `sys_stime` was called with, nor does `CLOCK_REALTIME` report the
    time set with `clock_settime` after that. -/
theorem stime_not_reported :
    (sysStime kilohertz true 5000).1 = 0 ∧ sysTime (kilohertz.stimed 5000) = 1000 ∧
    clockGettime (kilohertz.stimed 5000) CLOCK_REALTIME = some ⟨6000, 0⟩ ∧
    (clockSettime (kilohertz.stimed 5000) true CLOCK_REALTIME 7000).1 = 0 ∧
    clockGettime ((kilohertz.stimed 5000).settimed 7000) CLOCK_REALTIME =
      some ⟨12000, 0⟩ := by decide

end Micro86.Time
