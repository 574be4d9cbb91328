import Micro86.Signal.Mode

/-!
# Which signal goes to a handler

`dosignal` looks for a pending signal that is not blocked, skips those that are ignored, and either
kills the process or points its trap frame at one handler.

* `dosignal_chosen`, `dosignal_rests` — what `dosignal` does with and without one.
* `deliver_saves` — after a delivery the frame of the interrupted code can be read where
  `saved_trapframe_sp` points to.
-/

namespace Micro86.Signal

open Exec Mm

variable {tab : Tables} {va x len i : Nat} {buf : Nat → UInt8} {s t : Machine} {sp : UInt32}

variable {ram : Ram} {kstack : Nat}

/-- The signal the loop of `dosignal` gives to a handler, with `k` signals to go. -/
def chosenFrom : Nat → Nat → Task ram kstack → Option Nat
  | 0, _, _ => none
  | k + 1, signo, p =>
    if p.sigpending &&& bit signo = 0 then chosenFrom k (signo + 1) p
    else if signo ≠ SIGKILL ∧ p.sigmask &&& bit signo ≠ 0 then chosenFrom k (signo + 1) p
    else if signo = SIGKILL ∨ p.sighandlers signo = SIG_DFL then none
    else if p.sighandlers signo = SIG_IGN then
      chosenFrom k (signo + 1) { p with sigpending := p.sigpending &&& ~~~ bit signo }
    else if p.sigrestorers signo = 0 then none
    else some signo

def chosen (p : Task ram kstack) : Option Nat := chosenFrom (NSIG - 1) 1 p

/-- Memory, mask and saved frame are as they were. -/
structure Rests (p t : Task ram kstack) : Prop where
  m : t.m = p.m
  space : t.space = p.space
  sigmask : t.sigmask = p.sigmask
  saved : t.savedTrapframeSp = p.savedTrapframeSp

/-- `run` is what `dosignal` does to `p` when it gives no signal, or signal `n`, to a handler. -/
def Serves (p : Task ram kstack) (run : Except String (Unit × Task ram kstack)) : Option Nat → Prop
  | none => ∃ t, run = .ok ((), t) ∧ Rests p t
  | some n => p.sigmask &&& bit n = 0 ∧ ∃ pending,
        run = deliver n (p.sighandlers n) (p.sigrestorers n) { p with sigpending := pending }

theorem Serves.of_pending {p : Task ram kstack} {run : Except String (Unit × Task ram kstack)}
    {o : Option Nat} {pending : UInt32}
    (h : Serves { p with sigpending := pending } run o) : Serves p run o := by
  cases o with
  | none =>
    obtain ⟨t, ht, hr⟩ := h
    exact ⟨t, ht, ⟨hr.m, hr.space, hr.sigmask, hr.saved⟩⟩
  | some n => exact h

theorem dosignalFrom_serves {k signo : Nat} {p : Task ram kstack} :
    Serves p (dosignalFrom k signo p) (chosenFrom k signo p) := by
  induction k generalizing signo p with
  | zero => exact ⟨p, rfl, ⟨rfl, rfl, rfl, rfl⟩⟩
  | succ k ih =>
    unfold chosenFrom dosignalFrom
    rw [bind_of_ok (show Exec.get p = .ok (p, p) from rfl)]
    by_cases hpend : p.sigpending &&& bit signo = 0
    · rw [if_pos hpend, if_pos hpend]
      exact ih
    rw [if_neg hpend, if_neg hpend]
    by_cases hmask : signo ≠ SIGKILL ∧ p.sigmask &&& bit signo ≠ 0
    · rw [if_pos hmask, if_pos hmask]
      exact ih
    rw [if_neg hmask, if_neg hmask, bind_of_ok (show Exec.modify _ p = .ok ((), _) from rfl)]
    by_cases hdfl : signo = SIGKILL ∨ p.sighandlers signo = SIG_DFL
    · rw [if_pos hdfl, if_pos hdfl]
      exact ⟨_, rfl, ⟨rfl, rfl, rfl, rfl⟩⟩
    rw [if_neg hdfl, if_neg hdfl]
    by_cases hign : p.sighandlers signo = SIG_IGN
    · rw [if_pos hign, if_pos hign]
      exact ih.of_pending
    rw [if_neg hign, if_neg hign]
    by_cases hres : p.sigrestorers signo = 0
    · rw [if_pos hres, if_pos hres]
      exact ⟨_, rfl, ⟨rfl, rfl, rfl, rfl⟩⟩
    rw [if_neg hres, if_neg hres]
    refine ⟨?_, _, rfl⟩
    by_contra hne
    exact hmask ⟨fun hkill => hdfl (.inl hkill), hne⟩

theorem dosignal_serves (p : Task ram kstack) :
    Serves p (dosignal p) (chosen p) := dosignalFrom_serves

theorem dosignal_rests {p : Task ram kstack} (h : chosen p = none) :
    ∃ t, dosignal p = .ok ((), t) ∧ Rests p t := by
  have hserves := dosignal_serves p
  rwa [h] at hserves

theorem dosignal_chosen {n : Nat} {p : Task ram kstack} (h : chosen p = some n) :
    p.sigmask &&& bit n = 0 ∧ ∃ pending, dosignal p =
      deliver n (p.sighandlers n) (p.sigrestorers n) { p with sigpending := pending } := by
  have hserves := dosignal_serves p
  rwa [h] at hserves

/-! ## The saved frame -/

/-- User pages lie below the kernel, and no two addresses share a byte of memory: `allocuvm` and
    `copyuvm` give every page a frame of its own. -/
structure UserPages (tab : Tables) : Prop where
  below : ∀ va < 2 ^ 32, (userAddr tab va).isSome → va < KERNBASE
  distinct : ∀ va < 2 ^ 32, ∀ vb < 2 ^ 32, ∀ x, userAddr tab va = some x →
    userAddr tab vb = some x → va = vb

def Intact (p : Task ram kstack) (va : UInt32) (f : Frame) : Prop :=
  ∀ i < TFSIZE, ∃ x ∈ target p.space.tab va.toNat i, p.m.mem x = f i

instance (p : Task ram kstack) (va : UInt32) (f : Frame) : Decidable (Intact p va f) :=
  inferInstanceAs (Decidable (∀ i < TFSIZE, ∃ x ∈ target p.space.tab va.toNat i, p.m.mem x = f i))

theorem kernAddr_of_user (h : userAddr tab va = some x) : kernAddr tab va = some x := by
  obtain ⟨e, he, hu, rfl⟩ := user_eq_some h
  have hp : e.p = true := by
    simp only [Pte.isUser, Bool.and_eq_true] at hu
    exact hu.1
  unfold kernAddr
  simp [he, hp]

theorem Intact.savedFrame {p : Task ram kstack} {va : UInt32} {f : Frame} (h : Intact p va f) :
    ∃ g, savedFrame p va = some g ∧ ∀ i < TFSIZE, g i = f i := by
  have hall : ∀ i < TFSIZE, (kernAddr p.space.tab ((va.toNat + i) % 2 ^ 32)).isSome := by
    intro i hi
    obtain ⟨x, hx, -⟩ := h i hi
    rw [kernAddr_of_user hx]
    rfl
  refine ⟨_, if_pos hall, fun i hi => ?_⟩
  obtain ⟨x, hx, hm⟩ := h i hi
  simp only [kernAddr_of_user hx]
  exact hm

theorem copyout_wrote (cur pgdir : PageTable ram) {r : Int} (hva : va < 2 ^ 32)
    (h : copyout cur.tab pgdir.tab va buf len s = .ok (r, t))
    (hr : ¬ r < 0) (htab : ∀ i < len, (walkpgdir pgdir.tab ((va + i) % 2 ^ 32)).isSome) :
    (∀ i < len, (target pgdir.tab va i).isSome) ∧ Wrote pgdir.tab va buf len s t := by
  by_cases hmap : ∀ i < len, (target pgdir.tab va i).isSome
  · obtain ⟨u, hu, heq⟩ :=
      copyout_upto cur pgdir buf s hva (Nat.le_refl len) hmap (fun h => absurd h (Nat.lt_irrefl _))
    rw [Nat.sub_self, copyout_zero, h] at heq
    cases heq
    exact ⟨hmap, hu⟩
  exfalso
  -- the copy stops at the first byte without an address
  obtain ⟨k, hk, hbefore, hnone⟩ :
      ∃ k < len, (∀ i < k, (target pgdir.tab va i).isSome) ∧ target pgdir.tab va k = none := by
    have hex : ∃ k, k < len ∧ target pgdir.tab va k = none := by
      simpa using hmap
    obtain ⟨hk, hnone⟩ := Nat.find_spec hex
    refine ⟨Nat.find hex, hk, fun i hi => ?_, hnone⟩
    by_contra hi'
    exact Nat.find_min hex hi ⟨by omega, by simpa using hi'⟩
  obtain ⟨u, hu, heq⟩ := copyout_upto cur pgdir buf s hva (Nat.le_of_lt hk) hbefore (fun _ => hnone)
  rw [h] at heq
  cases hw : walkpgdir pgdir.tab ((va + k) % 2 ^ 32) with
  | none =>
    have := htab k hk
    rw [hw] at this
    cases this
  | some e =>
    have hu : e.isUser = false := by
      by_contra hu
      have := user_of_walk hw (by simpa using hu)
      unfold target at hnone
      rw [hnone] at this
      cases this
    rw [copyout_absent (by omega) hw hu] at heq
    cases heq
    exact hr (by decide)

theorem copyoutFails_wrote {p t : Task ram kstack}
    (h : copyoutFails sp buf len p = .ok (false, t))
    (htab : ∀ i < len, (walkpgdir p.space.tab ((sp.toNat + i) % 2 ^ 32)).isSome) :
    (∀ i < len, (target p.space.tab sp.toNat i).isSome) ∧
    Wrote p.space.tab sp.toNat buf len p.m t.m ∧ t.space = p.space := by
  unfold copyoutFails at h
  split at h
  · rename_i r m hc
    simp only [Except.ok.injEq, Prod.mk.injEq, decide_eq_false_iff_not] at h
    obtain ⟨hr, rfl⟩ := h
    obtain ⟨hmap, hw⟩ :=
      copyout_wrote p.space.toPageTable p.space.toPageTable sp.toNat_lt hc hr htab
    exact ⟨hmap, hw, rfl⟩
  · cases h

theorem push_ok {p t : Task ram kstack} {rest : Exec (Task ram kstack) Unit}
    (h : (copyoutFails sp buf len >>= fun failed => if failed = true then deliverFailed else rest)
      p = .ok ((), t))
    (hk : t.killed = false) :
    ∃ u, copyoutFails sp buf len p = .ok (false, u) ∧ rest u = .ok ((), t) := by
  cases hc : copyoutFails sp buf len p with
  | error msg =>
    rw [bind_of_error hc] at h
    cases h
  | ok q =>
    obtain ⟨failed, u⟩ := q
    rw [bind_of_ok hc] at h
    cases failed with
    | true =>
      cases h
      cases hk
    | false => exact ⟨u, rfl, h⟩

theorem wrote_frame (hpages : UserPages tab) {va : UInt32}
    (h : Wrote tab sp.toNat buf len s t) (hx : target tab va.toNat i = some x)
    (hne : ∀ j < len, (va.toNat + i) % 2 ^ 32 ≠ (sp.toNat + j) % 2 ^ 32) : t.mem x = s.mem x := by
  rcases h.mem x with ⟨j, hj, hxj, -⟩ | ⟨-, hm⟩
  · exact absurd (hpages.distinct _ (Nat.mod_lt _ (by decide))
      _ (Nat.mod_lt _ (by decide)) x hx hxj) (hne j hj)
  · exact hm

theorem wrote_range (hpages : UserPages tab)
    (h : Wrote tab sp.toNat buf len s t) (hlen : len ≤ 2 ^ 32)
    (hi : i < len) (hx : target tab sp.toNat i = some x) :
    t.mem x = buf i := by
  rcases h.mem x with ⟨j, hj, hxj, hm⟩ | ⟨hno, -⟩
  · have := hpages.distinct _ (Nat.mod_lt _ (by decide)) _ (Nat.mod_lt _ (by decide)) x hx hxj
    have hij : i = j := by omega
    rw [hm, hij]
  · exact absurd hx (hno i hi)

/-- The words pushed below the frame are not part of it. -/
theorem below_ne (sp w : UInt32) {j : Nat} (hi : i < TFSIZE)
    (hj : j < 4) (hw : 4 ≤ w.toNat ∧ w.toNat ≤ 12) :
    (sp.toNat + i) % 2 ^ 32 ≠ ((sp - w).toNat + j) % 2 ^ 32 := by
  rw [UInt32.toNat_sub]
  unfold TFSIZE at hi
  omega

theorem user_not_tf (space : Space ram kstack) (hx : target space.tab va i = some x) (off : Nat)
    (hoff : off + 4 ≤ TFSIZE) : ¬ (tfAddr kstack + off ≤ x ∧ x < tfAddr kstack + off + 4) := by
  intro hin
  refine tfAddr_not_user space (i := x - tfAddr kstack) (by omega) ((va + i) % 2 ^ 32) ?_
  rw [show tfAddr kstack + (x - tfAddr kstack) = x by omega]
  exact hx

/-- The part of the stack that a delivery writes, below `esp`, has page tables. -/
def Task.Stacked (p : Task ram kstack) : Prop :=
  ∀ k < TFSIZE + 12, (walkpgdir p.space.tab (p.reg Offset.esp - UInt32.ofNat (k + 1)).toNat).isSome

instance (p : Task ram kstack) : Decidable p.Stacked := Nat.decidableBallLT ..

theorem Task.Stacked.push {p : Task ram kstack} (h : p.Stacked) {d : Nat} (hd : d ≤ TFSIZE + 12)
    (hsp : sp = p.reg Offset.esp - UInt32.ofNat d) :
    ∀ i < d, (walkpgdir p.space.tab ((sp.toNat + i) % 2 ^ 32)).isSome := by
  intro i hi
  have hk := h (d - 1 - i) (by omega)
  have hva : (p.reg Offset.esp - UInt32.ofNat (d - 1 - i + 1)).toNat = (sp.toNat + i) % 2 ^ 32 := by
    unfold TFSIZE at hd
    rw [hsp, UInt32.toNat_sub, UInt32.toNat_sub, UInt32.toNat_ofNat', UInt32.toNat_ofNat']
    omega
  rwa [hva] at hk

/-- After a delivery to a stack with page tables, the frame it interrupted can be read where
    `saved_trapframe_sp` points to, and no entry was read through a null pointer. -/
theorem deliver_saves {p t : Task ram kstack} {n : Nat} {handler restorer : UInt32}
    (hpages : UserPages p.space.tab)
    (h : deliver n handler restorer p = .ok ((), t)) (hk : t.killed = false)
    (hst : p.Stacked) : t.savedTrapframeSp ≠ 0 ∧ Intact t t.savedTrapframeSp p.tf ∧
      t.space = p.space ∧ t.m.nulls = p.m.nulls := by
  unfold deliver at h
  rw [bind_of_ok (show Exec.modify _ p = .ok ((), _) from rfl),
    bind_of_ok (show Exec.get _ = .ok (_, _) from rfl)] at h
  set q : Task ram kstack := { p with sigmask := p.sigmask ||| bit n } with hq
  set sp := q.reg Offset.esp - UInt32.ofNat TFSIZE with hsp
  obtain ⟨u1, h1, h⟩ := push_ok h hk
  obtain ⟨u2, h2, h⟩ := push_ok h hk
  obtain ⟨u3, h3, h⟩ := push_ok h hk
  obtain ⟨u4, h4, h⟩ := push_ok h hk
  cases h
  have hst : q.Stacked := hst
  obtain ⟨m1, w1, s1⟩ := copyoutFails_wrote h1 (hst.push (by decide) rfl)
  have below : ∀ w : Nat, w ≤ 12 → 4 ≤ w → ∀ i < 4,
      (walkpgdir q.space.tab (((sp - UInt32.ofNat w).toNat + i) % 2 ^ 32)).isSome := by
    intro w hw h4 i hi
    refine hst.push (d := TFSIZE + w) (by omega) ?_ i (by omega)
    rw [hsp, UInt32.ofNat_add, sub_sub]
  obtain ⟨m2, w2, s2⟩ := copyoutFails_wrote h2 (s1 ▸ below 4 (by decide) (by decide))
  rw [s1] at s2
  obtain ⟨-, w3, s3⟩ := copyoutFails_wrote h3 (s2 ▸ below 8 (by decide) (by decide))
  rw [s2] at s3
  obtain ⟨-, w4, s4⟩ := copyoutFails_wrote h4 (s3 ▸ below 12 (by decide) (by decide))
  rw [s3] at s4
  rw [s1] at m2 w2
  rw [s2] at w3
  rw [s3] at w4
  refine ⟨fun h0 => ?_, fun i hi => ?_, s4, ?_⟩
  · -- below address 0 there are only pages of the kernel
    have h0 : sp = 0 := h0
    have := hpages.below _ (Nat.mod_lt _ (by decide)) (m2 0 (by decide))
    rw [h0] at this
    exact absurd this (by decide)
  · obtain ⟨x, hx⟩ := Option.isSome_iff_exists.mp (m1 i hi)
    refine ⟨x, ?_, ?_⟩
    · show target u4.space.tab _ i = some x
      rw [s4]
      exact hx
    · have hm1 : u1.m.mem x = p.tf i := wrote_range hpages w1 (by decide) hi hx
      have hm2 : u2.m.mem x = u1.m.mem x :=
        wrote_frame hpages w2 hx fun j hj => below_ne sp 4 hi hj (by decide)
      have hm3 : u3.m.mem x = u2.m.mem x :=
        wrote_frame hpages w3 hx fun j hj => below_ne sp 8 hi hj (by decide)
      have hm4 : u4.m.mem x = u3.m.mem x :=
        wrote_frame hpages w4 hx fun j hj => below_ne sp 12 hi hj (by decide)
      have hout := user_not_tf p.space hx
      show putWord (putWord u4.m.mem _ _) _ _ x = p.tf i
      rw [putWord_of_not _ (hout Offset.eip (by decide)),
        putWord_of_not _ (hout Offset.esp (by decide)), hm4, hm3, hm2, hm1]
  · exact w4.nulls.trans (w3.nulls.trans (w2.nulls.trans w1.nulls))

end Micro86.Signal
