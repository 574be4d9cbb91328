import Micro86.Signal.Chosen

/-!
# Pending signals

`dosignal` without the memory of the process: whether the frame can be pushed on the user stack is
a parameter.

* `Sig.dosignal` — what `dosignal` does to it, with the signals it consumed, last first.
* `dosignal_sig` — `dosignal` on a process with its memory does just that.
* `Sig.dosignal_keeps` — a pending signal that is not consumed stays pending, unless the process is
  killed.
* `Sig.dosignal_shielded` — a signal that is blocked or ignored kills no process.
* `Sig.dosignal_kills` — the signal that does, and what `termsig` is then.
-/

namespace Micro86.Signal

open Exec Mm

structure Sig where
  sighandlers : Nat → UInt32
  sigrestorers : Nat → UInt32
  sigmask : UInt32
  sigpending : UInt32
  killed : Bool
  termsig : Nat

namespace Sig

def isPending (p : Sig) (signo : Nat) : Prop := p.sigpending &&& bit signo ≠ 0

def isBlocked (p : Sig) (signo : Nat) : Prop := p.sigmask &&& bit signo ≠ 0

instance (p : Sig) (signo : Nat) : Decidable (p.isPending signo) :=
  inferInstanceAs (Decidable (_ ≠ _))

instance (p : Sig) (signo : Nat) : Decidable (p.isBlocked signo) :=
  inferInstanceAs (Decidable (_ ≠ _))

def raise (signo : Nat) (p : Sig) : Sig := { p with sigpending := p.sigpending ||| bit signo }

def clear (signo : Nat) (p : Sig) : Sig := { p with sigpending := p.sigpending &&& ~~~ bit signo }

/-- The loop of `dosignal` with `k` signals to go; the frame cannot be pushed if `fails`. -/
def dosignalFrom (fails : Bool) : Nat → Nat → Sig → List Nat → Sig × List Nat
  | 0, _, p, consumed => (p, consumed)
  | k + 1, signo, p, consumed =>
    if ¬ p.isPending signo then dosignalFrom fails k (signo + 1) p consumed
    else if signo ≠ SIGKILL ∧ p.isBlocked signo then dosignalFrom fails k (signo + 1) p consumed
    else if signo = SIGKILL ∨ p.sighandlers signo = SIG_DFL then
      ({ p.clear signo with termsig := signo, killed := true }, signo :: consumed)
    else if p.sighandlers signo = SIG_IGN then
      dosignalFrom fails k (signo + 1) (p.clear signo) (signo :: consumed)
    else if p.sigrestorers signo = 0 then
      ({ p.clear signo with sigpending := 0, killed := true }, signo :: consumed)
    else ({ p.clear signo with sigmask := p.sigmask ||| bit signo, killed := p.killed || fails },
      signo :: consumed)

def dosignal (fails : Bool) (p : Sig) : Sig × List Nat := dosignalFrom fails (NSIG - 1) 1 p []

end Sig

/-! ## Bits -/

theorem toNat_bit (n : Nat) : (bit n).toNat = 2 ^ (n % 32) := by
  have hlt : 2 ^ (n % 32) < 2 ^ 32 := Nat.pow_lt_pow_right (by decide) (Nat.mod_lt _ (by decide))
  unfold bit
  rw [UInt32.toNat_shiftLeft, UInt32.toNat_one, Nat.one_shiftLeft,
    UInt32.toNat_ofNat', Nat.mod_mod_of_dvd _ (by decide), Nat.mod_eq_of_lt hlt]

theorem and_bit_ne_zero {x : UInt32} {n : Nat} :
    x &&& bit n ≠ 0 ↔ x.toNat.testBit (n % 32) = true := by
  have hpos := Nat.two_pow_pos (n % 32)
  rw [ne_eq, ← UInt32.toNat_inj, UInt32.toNat_and, toNat_bit, Nat.and_two_pow, UInt32.toNat_zero]
  cases x.toNat.testBit (n % 32) with
  | true =>
    rw [Bool.toNat_true, Nat.one_mul]
    exact ⟨fun _ => rfl, fun _ => hpos.ne'⟩
  | false =>
    rw [Bool.toNat_false, Nat.zero_mul]
    exact ⟨absurd rfl, nofun⟩

theorem or_bit_and {x : UInt32} {m n : Nat} :
    (x ||| bit m) &&& bit n ≠ 0 ↔ x &&& bit n ≠ 0 ∨ n % 32 = m % 32 := by
  rw [and_bit_ne_zero, and_bit_ne_zero, UInt32.toNat_or, toNat_bit,
    Nat.testBit_or, Nat.testBit_two_pow, Bool.or_eq_true, decide_eq_true_eq, eq_comm (a := m % 32)]

theorem andNot_bit_and {x : UInt32} {m n : Nat} :
    (x &&& ~~~ bit m) &&& bit n ≠ 0 ↔ x &&& bit n ≠ 0 ∧ n % 32 ≠ m % 32 := by
  have hlt : 2 ^ (m % 32) < 2 ^ 32 := Nat.pow_lt_pow_right (by decide) (Nat.mod_lt _ (by decide))
  have hn : n % 32 < 32 := Nat.mod_lt _ (by decide)
  rw [and_bit_ne_zero, and_bit_ne_zero, UInt32.toNat_and, UInt32.toNat_not,
    toNat_bit, Nat.testBit_and,
    show UInt32.size - 1 - 2 ^ (m % 32) = 2 ^ 32 - (2 ^ (m % 32) + 1) by unfold UInt32.size; omega,
    Nat.testBit_two_pow_sub_succ hlt, Nat.testBit_two_pow, Bool.and_eq_true,
      Bool.and_eq_true, decide_eq_true_eq, Bool.not_eq_true',
    decide_eq_false_iff_not, eq_comm (a := m % 32)]
  exact ⟨fun h => ⟨h.1, h.2.2⟩, fun h => ⟨h.1, hn, h.2⟩⟩

namespace Sig

variable {p : Sig} {m n signo : Nat}

@[simp] theorem isPending_raise :
    (p.raise m).isPending n ↔ p.isPending n ∨ n % 32 = m % 32 := or_bit_and

@[simp] theorem isPending_clear : (p.clear m).isPending n ↔ p.isPending n ∧ n % 32 ≠ m % 32 :=
  andNot_bit_and

theorem isPending_congr (h : m % 32 = n % 32) : p.isPending m ↔ p.isPending n := by
  unfold isPending
  rw [and_bit_ne_zero, and_bit_ne_zero, h]

theorem isBlocked_congr (h : m % 32 = n % 32) : p.isBlocked m ↔ p.isBlocked n := by
  unfold isBlocked
  rw [and_bit_ne_zero, and_bit_ne_zero, h]

/-- The signals before `signo` that are still pending are blocked. -/
def Passed (p : Sig) (signo : Nat) : Prop :=
  ∀ m, 1 ≤ m → m ≤ 32 → m < signo → p.isPending m → m ≠ SIGKILL ∧ p.isBlocked m

theorem Passed.clear (h : p.Passed signo) (m : Nat) : (p.clear m).Passed signo := by
  intro i hi hi' hlt hp
  exact h i hi hi' hlt (isPending_clear.mp hp).1

/-- The numbers above 32 share bits with those below; a signal that is acted on is none of them. -/
theorem Passed.acts (h : p.Passed signo) (hsigno : 1 ≤ signo) (hp : p.isPending signo)
    (hfree : ¬ (signo ≠ SIGKILL ∧ p.isBlocked signo)) {n : Nat} (hn : 1 ≤ n) (hn' : n ≤ 32)
    (hbit : n % 32 = signo % 32) : n = signo := by
  by_contra hne
  have hlt : n < signo := by omega
  obtain ⟨-, hb⟩ := h n hn hn' hlt ((isPending_congr hbit).mpr hp)
  exact hfree ⟨by unfold SIGKILL; omega, (isBlocked_congr hbit).mp hb⟩

theorem Passed.next (h : p.Passed signo)
    (hn : ¬ p.isPending signo ∨ signo ≠ SIGKILL ∧ p.isBlocked signo) : p.Passed (signo + 1) := by
  intro m hm hm' hlt hp
  rcases Nat.lt_succ_iff_lt_or_eq.mp hlt with hlt | rfl
  · exact h m hm hm' hlt hp
  · exact hn.resolve_left (fun hnp => hnp hp)

theorem dosignalFrom_keeps {fails : Bool} {k : Nat} {consumed : List Nat} (hpass : p.Passed signo)
    (hsigno : 1 ≤ signo) (hn : 1 ≤ n) (hn' : n < 32)
    (h : p.isPending n ∨ n ∈ consumed) :
    (dosignalFrom fails k signo p consumed).1.killed = true ∨
      (dosignalFrom fails k signo p consumed).1.isPending n ∨
      n ∈ (dosignalFrom fails k signo p consumed).2 := by
  induction k generalizing signo p consumed with
  | zero => exact .inr h
  | succ k ih =>
    unfold dosignalFrom
    by_cases hpend : p.isPending signo
    swap
    · rw [if_pos hpend]
      exact ih (hpass.next (.inl hpend)) (Nat.succ_pos _) h
    rw [if_neg (not_not.mpr hpend)]
    by_cases hmask : signo ≠ SIGKILL ∧ p.isBlocked signo
    · rw [if_pos hmask]
      exact ih (hpass.next (.inr hmask)) (Nat.succ_pos _) h
    rw [if_neg hmask]
    -- the signal the loop acts on is consumed, the others keep their bits
    have hclear : (p.clear signo).isPending n ∨ n ∈ signo :: consumed := by
      rcases h with h | h
      · by_cases hbit : n % 32 = signo % 32
        · exact .inr (hpass.acts hsigno hpend hmask hn hn'.le hbit ▸ .head _)
        · exact .inl (isPending_clear.mpr ⟨h, hbit⟩)
      · exact .inr (.tail _ h)
    by_cases hdfl : signo = SIGKILL ∨ p.sighandlers signo = SIG_DFL
    · rw [if_pos hdfl]
      exact .inl rfl
    rw [if_neg hdfl]
    by_cases hign : p.sighandlers signo = SIG_IGN
    · rw [if_pos hign]
      refine ih ((hpass.clear signo).next (.inl ?_)) (Nat.succ_pos _) hclear
      exact fun hp => (isPending_clear.mp hp).2 rfl
    rw [if_neg hign]
    by_cases hres : p.sigrestorers signo = 0
    · rw [if_pos hres]
      exact .inl rfl
    rw [if_neg hres]
    exact .inr hclear

theorem dosignal_keeps (fails : Bool) (hn : 1 ≤ n) (hn' : n < 32) (h : p.isPending n) :
    (p.dosignal fails).1.killed = true ∨ (p.dosignal fails).1.isPending n ∨
    n ∈ (p.dosignal fails).2 :=
  dosignalFrom_keeps (fun _ hm _ hlt _ => absurd hm hlt.not_ge) le_rfl hn hn' (.inl h)

/-- If the signal is pending, it is blocked or ignored. -/
def Shielded (n : Nat) (p : Sig) : Prop := p.isPending n → p.isBlocked n ∨ p.sighandlers n = SIG_IGN
deriving Decidable

theorem Shielded.clear (h : p.Shielded n) (m : Nat) :
    (p.clear m).Shielded n := fun hp => h (isPending_clear.mp hp).1

theorem dosignalFrom_shielded {fails : Bool} {k : Nat} {consumed : List Nat}
    (hs : p.Shielded n) (hn : n ≠ SIGKILL) :
    (dosignalFrom fails k signo p consumed).1.Shielded n ∧
      (p.killed = false → (dosignalFrom fails k signo p consumed).1.killed = true →
      (dosignalFrom fails k signo p consumed).2.head? ≠ some n) := by
  induction k generalizing signo p consumed with
  | zero => exact ⟨hs, fun h h' => absurd (h.symm.trans h') (by decide)⟩
  | succ k ih =>
    unfold dosignalFrom
    by_cases hpend : p.isPending signo
    swap
    · rw [if_pos hpend]
      exact ih hs
    rw [if_neg (not_not.mpr hpend)]
    by_cases hmask : signo ≠ SIGKILL ∧ p.isBlocked signo
    · rw [if_pos hmask]
      exact ih hs
    rw [if_neg hmask]
    by_cases hign : p.sighandlers signo = SIG_IGN ∧ signo ≠ SIGKILL
    · rw [if_neg (by rw [hign.1]; rintro (h | h); exacts [hign.2 h, absurd h (by decide)]),
        if_pos hign.1]
      exact ih (hs.clear signo)
    -- only a signal that is not ignored ends the loop
    have hne : signo ≠ n := by
      rintro rfl
      rcases hs hpend with hb | hi
      · exact hmask ⟨hn, hb⟩
      · exact hign ⟨hi, hn⟩
    have hhead : (signo :: consumed).head? ≠ some n := fun h => hne (Option.some.inj h)
    by_cases hdfl : signo = SIGKILL ∨ p.sighandlers signo = SIG_DFL
    · rw [if_pos hdfl]
      exact ⟨hs.clear signo, fun _ _ => hhead⟩
    have hign' : p.sighandlers signo ≠ SIG_IGN := fun h => hign ⟨h, fun hk => hdfl (.inl hk)⟩
    rw [if_neg hdfl, if_neg hign']
    by_cases hres : p.sigrestorers signo = 0
    · rw [if_pos hres]
      refine ⟨fun hp => absurd hp ?_, fun _ _ => hhead⟩
      exact fun h => h (UInt32.zero_and)
    rw [if_neg hres]
    refine ⟨fun hp => ?_, fun _ _ => hhead⟩
    rcases hs.clear signo hp with hb | hi
    · exact .inl (or_bit_and.mpr (.inl hb))
    · exact .inr hi

theorem dosignal_shielded (fails : Bool) (hs : p.Shielded n) (hn : n ≠ SIGKILL) :
    (p.dosignal fails).1.Shielded n ∧
    (p.killed = false → (p.dosignal fails).1.killed = true → (p.dosignal fails).2.head? ≠ some n) :=
  dosignalFrom_shielded hs hn

/-! ### The signal that kills -/

/-- The signal is pending, and neither blocked nor ignored. -/
def Due (p : Sig) (n : Nat) : Prop :=
  p.isPending n ∧ (n = SIGKILL ∨ ¬ p.isBlocked n ∧ p.sighandlers n ≠ SIG_IGN)
deriving Decidable

def First (p : Sig) (g : Nat) : Prop := 1 ≤ g ∧ p.Due g ∧ ∀ m < g, 1 ≤ m → ¬ p.Due m

instance (p : Sig) (g : Nat) : Decidable (p.First g) :=
  inferInstanceAs (Decidable (_ ∧ _ ∧ ∀ m < g, _ → ¬ _))

/-- The process is killed for the signal whatever the handler is. -/
def Default (p : Sig) (g : Nat) : Prop := g = SIGKILL ∨ p.sighandlers g = SIG_DFL
deriving Decidable

theorem Due.of_clear (h : (p.clear m).Due n) : p.Due n := ⟨(isPending_clear.mp h.1).1, h.2⟩

theorem Due.clear (h : p.Due n) (hne : n % 32 ≠ m % 32) : (p.clear m).Due n :=
  ⟨isPending_clear.mpr ⟨h.1, hne⟩, h.2⟩

theorem dosignalFrom_kills {fails : Bool} {k : Nat} {consumed : List Nat} (hpass : p.Passed signo)
    (hsigno : 1 ≤ signo) (hlive : p.killed = false)
    (h : (dosignalFrom fails k signo p consumed).1.killed = true) :
    ∃ g, (dosignalFrom fails k signo p consumed).2.head? = some g ∧ signo ≤ g ∧ g ≤ 32 ∧ p.Due g ∧
      (∀ m, signo ≤ m → m < g → ¬ p.Due m) ∧
      (dosignalFrom fails k signo p consumed).1.termsig = (if p.Default g then g else p.termsig) ∧
      (p.Default g ∨ p.sigrestorers g = 0 ∨ fails = true) := by
  induction k generalizing signo p consumed with
  | zero => exact absurd (hlive.symm.trans h) (by decide)
  | succ k ih =>
    -- a signal that is passed over is not due
    have hpassed : ∀ {g}, ¬ p.Due signo → (∀ m, signo + 1 ≤ m → m < g → ¬ p.Due m) →
        ∀ m, signo ≤ m → m < g → ¬ p.Due m := fun hnot hrest m hm hlt => by
      rcases Nat.eq_or_lt_of_le hm with rfl | hm
      · exact hnot
      · exact hrest m hm hlt
    unfold dosignalFrom at h ⊢
    by_cases hpend : p.isPending signo
    swap
    · rw [if_pos hpend] at h ⊢
      obtain ⟨g, hhead, hle, hle', hdue, hfirst, hterm, hwhy⟩ :=
        ih (hpass.next (.inl hpend)) (Nat.succ_pos _) hlive h
      exact ⟨g, hhead, Nat.le_of_succ_le hle, hle', hdue,
        hpassed (fun hd => hpend hd.1) hfirst, hterm, hwhy⟩
    rw [if_neg (not_not.mpr hpend)] at h ⊢
    by_cases hmask : signo ≠ SIGKILL ∧ p.isBlocked signo
    · rw [if_pos hmask] at h ⊢
      obtain ⟨g, hhead, hle, hle', hdue, hfirst, hterm, hwhy⟩ :=
        ih (hpass.next (.inr hmask)) (Nat.succ_pos _) hlive h
      refine ⟨g, hhead, Nat.le_of_succ_le hle, hle', hdue,
        hpassed (fun hd => ?_) hfirst, hterm, hwhy⟩
      exact hd.2.elim hmask.1 fun hfree => hfree.1 hmask.2
    rw [if_neg hmask] at h ⊢
    have hle : signo ≤ 32 := by
      by_contra hgt
      have :=
        hpass.acts (n := (signo - 1) % 32 + 1) hsigno hpend hmask (by omega) (by omega) (by omega)
      omega
    have hnone : ∀ m, signo ≤ m → m < signo → ¬ p.Due m := fun m hm hlt => absurd hlt hm.not_gt
    by_cases hdfl : signo = SIGKILL ∨ p.sighandlers signo = SIG_DFL
    · have hdue : p.Due signo := by
        refine ⟨hpend, (em (signo = SIGKILL)).imp_right fun hne => ⟨fun hb => hmask ⟨hne, hb⟩, ?_⟩⟩
        rw [hdfl.resolve_left hne]
        decide
      rw [if_pos hdfl]
      exact ⟨signo, rfl, le_rfl, hle, hdue, hnone, (if_pos hdfl).symm, .inl hdfl⟩
    rw [if_neg hdfl] at h ⊢
    by_cases hign : p.sighandlers signo = SIG_IGN
    · have hnot : ¬ (p.clear signo).isPending signo := fun hp => (isPending_clear.mp hp).2 rfl
      rw [if_pos hign] at h ⊢
      obtain ⟨g, hhead, hlt, hle', hdue, hfirst, hterm, hwhy⟩ :=
        ih ((hpass.clear signo).next (.inl hnot)) (Nat.succ_pos _) hlive h
      refine ⟨g, hhead, Nat.le_of_succ_le hlt, hle', hdue.of_clear,
        hpassed ?_ fun m hm hmg hd => ?_, hterm, hwhy⟩
      · exact fun hd => hd.2.elim (fun hk => hdfl (.inl hk)) fun hfree => hfree.2 hign
      · exact hfirst m hm hmg (hd.clear (by omega))
    rw [if_neg hign] at h ⊢
    have hdue : p.Due signo := ⟨hpend, .inr ⟨fun hb => hmask ⟨fun hk => hdfl (.inl hk), hb⟩, hign⟩⟩
    by_cases hres : p.sigrestorers signo = 0
    · rw [if_pos hres]
      exact ⟨signo, rfl, le_rfl, hle, hdue, hnone, (if_neg hdfl).symm, .inr (.inl hres)⟩
    rw [if_neg hres] at h ⊢
    refine ⟨signo, rfl, le_rfl, hle, hdue, hnone, (if_neg hdfl).symm, .inr (.inr ?_)⟩
    simpa [hlive] using h

theorem dosignal_kills {fails : Bool} (hlive : p.killed = false)
    (h : (p.dosignal fails).1.killed = true) :
    ∃ g ≤ 32, p.First g ∧ (p.dosignal fails).2.head? = some g ∧
      (p.dosignal fails).1.termsig = (if p.Default g then g else p.termsig) ∧
      (p.Default g ∨ p.sigrestorers g = 0 ∨ fails = true) := by
  obtain ⟨g, hhead, hle, hle', hdue, hfirst, hterm, hwhy⟩ :=
    dosignalFrom_kills (fun _ hm _ hlt _ => absurd hm hlt.not_ge) le_rfl hlive h
  exact ⟨g, hle', ⟨hle, hdue, fun m hlt hm => hfirst m hm hlt⟩, hhead, hterm, hwhy⟩

/-- The process was not killed, and the signal that `dosignal` acts on has the default action, or a
    restorer and room for the frame. -/
def Clean (fails : Bool) (p : Sig) : Prop :=
  p.killed = false ∧ ∀ g ≤ 32, p.First g → p.Default g ∨ p.sigrestorers g ≠ 0 ∧ fails = false

instance (fails : Bool) (p : Sig) : Decidable (p.Clean fails) :=
  inferInstanceAs (Decidable (_ ∧ ∀ g ≤ 32, _ → _))

theorem Clean.kills {fails : Bool} (h : p.Clean fails) (hk : (p.dosignal fails).1.killed = true) :
    ∃ g, (p.dosignal fails).2.head? = some g ∧ (p.dosignal fails).1.termsig = g ∧
      1 ≤ g ∧ g ≤ 32 := by
  obtain ⟨g, hle, hfirst, hhead, hterm, hwhy⟩ := dosignal_kills h.1 hk
  have hdfl : p.Default g := by
    rcases h.2 g hle hfirst with hdfl | ⟨hres, hpush⟩
    · exact hdfl
    · rcases hwhy with hdfl | hnone | hfails
      · exact hdfl
      · exact absurd hnone hres
      · exact absurd (hpush.symm.trans hfails) (by decide)
  rw [if_pos hdfl] at hterm
  exact ⟨g, hhead, hterm, hfirst.1, hle⟩

end Sig

/-! ## The process with its memory -/

variable {ram : Ram} {kstack : Nat}

def Task.sig (p : Task ram kstack) : Sig :=
  ⟨p.sighandlers, p.sigrestorers, p.sigmask, p.sigpending, p.killed, p.termsig⟩

def Delivers (w : Sig) (t : Task ram kstack) : Prop := t.sig = w ∨ t.sig = { w with killed := true }

theorem deliver_sig {p : Task ram kstack} {signo : Nat} {handler restorer : UInt32} :
    wp (deliver signo handler restorer)
      (fun _ t => Delivers { p.sig with sigmask := p.sigmask ||| bit signo } t)
      (fun _ => True) p := by
  refine wp_deliver (I := fun u => u.sig = { p.sig with sigmask := p.sigmask ||| bit signo })
    rfl (fun h => copyoutFails_m.imp ?_) (fun u hu => .inr (by rw [← hu]; rfl))
    fun _ _ _ hu => .inl hu
  rintro _ _ ⟨m, rfl⟩
  exact h

theorem dosignalFrom_sig {p : Task ram kstack} {k signo : Nat} {consumed : List Nat} :
    wp (dosignalFrom k signo) (fun _ t => ∃ fails,
      t.sig = (p.sig.dosignalFrom fails k signo consumed).1) (fun _ => True) p := by
  induction k generalizing p signo consumed with
  | zero => exact ⟨false, rfl⟩
  | succ k ih =>
    unfold dosignalFrom Sig.dosignalFrom
    rw [wp_bind, wp_get]
    by_cases hpend : p.sigpending &&& bit signo = 0
    · simp only [if_pos hpend, if_pos (show ¬ p.sig.isPending signo from not_not.mpr hpend)]
      exact ih
    simp only [if_neg hpend, if_neg (show ¬ ¬ p.sig.isPending signo from not_not.mpr hpend)]
    by_cases hmask : signo ≠ SIGKILL ∧ p.sigmask &&& bit signo ≠ 0
    · simp only [if_pos hmask, if_pos (show signo ≠ SIGKILL ∧ p.sig.isBlocked signo from hmask)]
      exact ih
    simp only [if_neg hmask, if_neg (show ¬ (signo ≠ SIGKILL ∧ p.sig.isBlocked signo) from hmask)]
    rw [wp_bind, wp_modify]
    by_cases hdfl : signo = SIGKILL ∨ p.sighandlers signo = SIG_DFL
    · simp only [if_pos hdfl,
        if_pos (show signo = SIGKILL ∨ p.sig.sighandlers signo = SIG_DFL from hdfl)]
      exact ⟨false, rfl⟩
    simp only [if_neg hdfl,
      if_neg (show ¬ (signo = SIGKILL ∨ p.sig.sighandlers signo = SIG_DFL) from hdfl)]
    by_cases hign : p.sighandlers signo = SIG_IGN
    · simp only [if_pos hign, if_pos (show p.sig.sighandlers signo = SIG_IGN from hign)]
      exact ih (p := { p with sigpending := p.sigpending &&& ~~~ bit signo })
    simp only [if_neg hign, if_neg (show ¬ p.sig.sighandlers signo = SIG_IGN from hign)]
    by_cases hres : p.sigrestorers signo = 0
    · simp only [if_pos hres, if_pos (show p.sig.sigrestorers signo = 0 from hres)]
      exact ⟨false, rfl⟩
    simp only [if_neg hres, if_neg (show ¬ p.sig.sigrestorers signo = 0 from hres)]
    refine deliver_sig.imp fun _ t ht => ?_
    rcases ht with ht | ht
    · exact ⟨false, by rw [ht, Bool.or_false]; rfl⟩
    · exact ⟨true, by rw [ht, Bool.or_true]; rfl⟩

/-- `dosignal` on a process with its memory. -/
theorem dosignal_sig {p : Task ram kstack} :
    wp dosignal (fun _ t => ∃ fails, t.sig = (p.sig.dosignal fails).1) (fun _ => True) p :=
      dosignalFrom_sig

end Micro86.Signal
