import Micro86.Signal.Chosen

/-!
# Handlers within handlers

A signal that is delivered while a handler runs pushes a second frame.  The process remembers one
saved frame only, in `saved_trapframe_sp`, and `rt_sigreturn` forgets it.

* `sigreturn_restores` — as long as no signal is delivered to a process that runs a handler, every
  `rt_sigreturn` restores the frame its handler interrupted.
* `outer_frame_lost` — with two handlers the outer one does not return to where it came from.
* `mask_kept_iff` — the mask after handlers have returned is the one before them only if they were
  all run by `rt_sigsuspend`.
* `signal_stays_blocked` — a signal that was caught once is blocked.
-/

namespace Micro86.Signal

open Exec Mm

variable {ram : Ram} {kstack : Nat}

def sigreturn : Exec (Task ram kstack) Unit := do
  let ret ← sysRtSigreturn
  Exec.modify fun p => p.setReg Offset.eax ret

/-- Any call but `rt_sigreturn` and `rt_sigsuspend`. -/
def Call.isPlain : Call ram kstack → Bool
  | .rtSigreturn => false
  | .rtSigsuspend _ => false
  | _ => true

/-- The address space the call leaves has pages of its own only. -/
def Call.Unshared : Call ram kstack → Prop
  | .exec space _ _ => UserPages space.tab
  | .other _ space _ => UserPages space.tab
  | _ => True

section

variable (ram : Ram) (kstack : Nat)

/-- A process and the frames that its handlers have to return to, with their addresses on the user
    stack, innermost first. -/
structure Nest where
  task : Task ram kstack
  frames : List (UInt32 × Frame)

inductive Event where
  /-- User code runs until a trap pushes the frame `tf`. -/
  | user (tf : Frame) (mem : Nat → UInt8)
  /-- A system call, up to the return value in `eax`, with what memory becomes meanwhile. -/
  | call (c : Call ram kstack) (mem : Nat → UInt8)
  /-- Pending signals change. -/
  | post (pending : UInt32)
  /-- The mask is set, as in the two halves of `rt_sigsuspend`. -/
  | mask (sigmask : UInt32)
  /-- `rt_sigsuspend` returns. -/
  | ret (eax : UInt32)
  | dosignal
  | sigreturn

end

/-- One event; a process that `dosignal` killed does not get back to user mode. -/
def Nest.step (s : Nest ram kstack) : Event ram kstack → Outcome (Nest ram kstack)
  | .user tf mem => .next { s with task := (s.task.havoc mem false).setTf tf }
  | .call c mem =>
    if c.isPlain then
      match c.run (s.task.havoc mem false) with
      | .ok (ret, t) => .next { s with task := t.setReg Offset.eax ret }
      | .error msg => .panic msg
    else .blocked
  | .post pending => .next { s with task := { s.task with sigpending := pending } }
  | .mask sigmask => .next { s with task := { s.task with sigmask := sigmask } }
  | .ret eax => .next { s with task := s.task.setReg Offset.eax eax }
  | .dosignal =>
    match Signal.dosignal s.task with
    | .ok (_, t) =>
      if t.killed then .blocked
      else if (chosen s.task).isSome then
        .next { task := t, frames := (t.savedTrapframeSp, s.task.tf) :: s.frames }
      else .next { s with task := t }
    | .error msg => .panic msg
  | .sigreturn =>
    match s.frames with
    | [] => .blocked
    | _ :: rest =>
      match Signal.sigreturn s.task with
      | .ok (_, t) => .next { task := t, frames := rest }
      | .error msg => .panic msg

/-- User code and its system calls leave the saved frames where they are. -/
def Event.Leaves (e : Event ram kstack) (t : Nest ram kstack) : Prop :=
  match e with
  | .user _ _ => ∀ af ∈ t.frames, Intact t.task af.1 af.2
  | .call c _ => c.Unshared ∧ ∀ af ∈ t.frames, Intact t.task af.1 af.2
  | _ => True

def Nest.Next (s : Nest ram kstack) (e : Event ram kstack) (t : Nest ram kstack) : Prop :=
  s.step e = .next t ∧ e.Leaves t

/-- A signal goes to a handler only while no handler runs, and to a stack with page tables. -/
def Event.Unnested (s : Nest ram kstack) : Event ram kstack → Prop
  | .dosignal => (chosen s.task).isSome → s.frames = [] ∧ s.task.Stacked
  | _ => True

instance (s : Nest ram kstack) (e : Event ram kstack) : Decidable (e.Unnested s) := by
  unfold Event.Unnested
  split <;> infer_instance

/-! ## Registers of the frame -/

variable {p t : Task ram kstack} {f : Frame} {s : Nest ram kstack} {e : Event smallRam 8}

theorem byteOf_word (tf : Frame) (off : Nat) {j : Nat} (hj : j < 4) :
    byteOf (UInt32.ofNat (word tf off)) j = tf (off + j) := by
  have h0 := (tf off).toNat_lt
  have h1 := (tf (off + 1)).toNat_lt
  have h2 := (tf (off + 2)).toNat_lt
  have h3 := (tf (off + 3)).toNat_lt
  have hlt : word tf off < 2 ^ 32 := by
    unfold word
    omega
  unfold byteOf
  rw [UInt32.toNat_ofNat_of_lt' hlt, ← UInt8.toNat_inj, UInt8.toNat_ofNat']
  unfold word
  obtain rfl | rfl | rfl | rfl : j = 0 ∨ j = 1 ∨ j = 2 ∨ j = 3 := by omega
  · show _ = (tf off).toNat
    omega
  · omega
  · omega
  · omega

theorem tf_setReg_reg (p : Task ram kstack) (off i : Nat) :
    (p.setReg off (p.reg off)).tf i = p.tf i := by
  show putWord p.m.mem (tfAddr kstack + off) (p.reg off) (tfAddr kstack + i) =
      p.m.mem (tfAddr kstack + i)
  by_cases h : tfAddr kstack + off ≤ tfAddr kstack + i ∧ tfAddr kstack + i < tfAddr kstack + off + 4
  · unfold putWord
    rw [if_pos h]
    refine (byteOf_word p.tf off (by omega)).trans ?_
    show p.m.mem _ = p.m.mem _
    congr 1
    omega
  · exact putWord_of_not _ h

theorem Intact.setReg {va : UInt32} (h : Intact p va f) {off : Nat} (hoff : off + 4 ≤ TFSIZE)
    (w : UInt32) : Intact (p.setReg off w) va f := by
  intro i hi
  obtain ⟨x, hx, hm⟩ := h i hi
  exact ⟨x, hx, (putWord_of_not w (user_not_tf p.space hx off hoff)).trans hm⟩

theorem Intact.of_eq {va : UInt32} (h : Intact p va f) (hm : t.m = p.m) (hs : t.space = p.space) :
    Intact t va f := by
  unfold Intact
  rw [hm, hs]
  exact h

theorem sigreturn_intact (h0 : p.savedTrapframeSp ≠ 0) (h : Intact p p.savedTrapframeSp f) :
    ∃ t, sigreturn p = .ok ((), t) ∧ (∀ i < TFSIZE, t.tf i = f i) ∧ t.space = p.space := by
  obtain ⟨g, hg, hgf⟩ := h.savedFrame
  set q : Task ram kstack := { p.setTf g with savedTrapframeSp := 0 } with hq
  have hret : sysRtSigreturn p = .ok (q.reg Offset.eax, q) := by
    unfold sysRtSigreturn
    rw [bind_of_ok (show Exec.get p = .ok (p, p) from rfl), if_neg h0, hg]
    rfl
  refine ⟨q.setReg Offset.eax (q.reg Offset.eax), ?_, fun i hi => ?_, rfl⟩
  · unfold sigreturn
    rw [bind_of_ok hret]
    rfl
  · rw [tf_setReg_reg]
    exact (tf_setTf hi).trans (hgf i hi)

/-! ## One handler at a time -/

/-- The handler that runs, if one does, can return. -/
structure Returns (s : Nest ram kstack) : Prop where
  pages : UserPages s.task.space.tab
  frames : s.frames = [] ∨ ∃ f, s.frames = [(s.task.savedTrapframeSp, f)] ∧
    s.task.savedTrapframeSp ≠ 0 ∧ Intact s.task s.task.savedTrapframeSp f

theorem Returns.move (h : Returns s) (hpages : UserPages t.space.tab)
    (hsaved : t.savedTrapframeSp = s.task.savedTrapframeSp)
    (hframes : ∀ af ∈ s.frames, Intact s.task af.1 af.2 → Intact t af.1 af.2) :
    Returns { s with task := t } := by
  refine ⟨hpages, h.frames.imp id ?_⟩
  rintro ⟨f, hf, h0, hi⟩
  rw [hsaved]
  exact ⟨f, hf, h0, hframes (_, f) (hf ▸ List.mem_singleton_self _) hi⟩

theorem Call.run_saved {c : Call ram kstack} (hc : c.isPlain = true) (p : Task ram kstack) :
    wp c.run (fun _ t => t.savedTrapframeSp = p.savedTrapframeSp ∧
      (c.Unshared → UserPages p.space.tab → UserPages t.space.tab)) (fun _ => True) p := by
  cases c with
  | signal signum handler restorer =>
    show wp (sysSignal signum handler restorer) _ _ p
    unfold sysSignal
    rw [wp_bind, wp_get]
    split
    · exact ⟨rfl, fun _ => id⟩
    · exact ⟨rfl, fun _ => id⟩
  | rtSigaction signum handler restorer =>
    show wp (sysRtSigaction signum handler restorer) _ _ p
    unfold sysRtSigaction
    split
    · exact ⟨rfl, fun _ => id⟩
    split
    · exact ⟨rfl, fun _ => id⟩
    · exact ⟨rfl, fun _ => id⟩
  | rtSigprocmask how set =>
    show wp (sysRtSigprocmask how set) _ _ p
    unfold sysRtSigprocmask
    simp only []
    split
    · exact ⟨rfl, fun _ => id⟩
    split
    · exact ⟨rfl, fun _ => id⟩
    split
    · exact ⟨rfl, fun _ => id⟩
    · exact ⟨rfl, fun _ => id⟩
  | rtSigsuspend mask | rtSigreturn => cases hc
  | iopl level =>
    show wp (sysIopl level) _ _ p
    unfold sysIopl
    rw [wp_bind, wp_get]
    split
    · exact ⟨rfl, fun _ => id⟩
    split
    · exact ⟨rfl, fun _ => id⟩
    · exact ⟨rfl, fun _ => id⟩
  | exec space entry sp | other ret space euid => exact ⟨rfl, fun h _ => h⟩

theorem Returns.step {t : Nest ram kstack} {e : Event ram kstack}
    (h : Returns s) (hnext : s.Next e t) (hun : e.Unnested s) : Returns t := by
  obtain ⟨hstep, hleaves⟩ := hnext
  cases e with
  | user tf mem =>
    cases hstep
    exact h.move h.pages rfl fun af haf _ => hleaves af haf
  | call c mem =>
    simp only [Nest.step] at hstep
    split at hstep
    · rename_i hc
      split at hstep
      · rename_i ret p hrun
        cases hstep
        obtain ⟨hsaved, hpages⟩ := (Call.run_saved hc (s.task.havoc mem false)).of_ok hrun
        exact h.move (hpages hleaves.1 h.pages) hsaved fun af haf _ => hleaves.2 af haf
      · cases hstep
    · cases hstep
  | post pending | mask sigmask =>
    cases hstep
    exact h.move h.pages rfl fun _ _ hi => hi.of_eq rfl rfl
  | ret eax =>
    cases hstep
    exact h.move h.pages rfl fun _ _ hi => hi.setReg (by decide) eax
  | dosignal =>
    simp only [Nest.step] at hstep
    split at hstep
    · rename_i u p hrun
      split at hstep
      · cases hstep
      rename_i hk
      split at hstep
      · rename_i hsome
        cases hstep
        obtain ⟨hfree, hst⟩ := hun hsome
        obtain ⟨n, hn'⟩ := Option.isSome_iff_exists.mp hsome
        obtain ⟨-, pending, hdel⟩ := dosignal_chosen hn'
        obtain ⟨h0, hi, hs, -⟩ :=
          deliver_saves (p := { s.task with sigpending := pending }) h.pages (hdel.symm.trans hrun)
          (by simpa using hk) hst
        refine ⟨?_, .inr ⟨s.task.tf, ?_, h0, hi⟩⟩
        · show UserPages p.space.tab
          rw [hs]
          exact h.pages
        · rw [hfree]
      · rename_i hnone
        cases hstep
        obtain ⟨v, hv, hr⟩ := dosignal_rests (show chosen s.task = none by simpa using hnone)
        cases hrun.symm.trans hv
        exact h.move (hr.space ▸ h.pages) hr.saved fun _ _ hi => hi.of_eq hr.m hr.space
    · cases hstep
  | sigreturn =>
    simp only [Nest.step] at hstep
    split at hstep
    · cases hstep
    rename_i af rest hframes
    split at hstep
    · rename_i u p hrun
      cases hstep
      rcases h.frames with hnil | ⟨f, hf, h0, hi⟩
      · rw [hframes] at hnil
        cases hnil
      obtain ⟨v, hv, -, hs⟩ := sigreturn_intact h0 hi
      cases hrun.symm.trans hv
      rw [hframes] at hf
      refine ⟨?_, .inl (List.cons.inj hf).2⟩
      show UserPages p.space.tab
      rw [hs]
      exact h.pages
    · cases hstep

/-! ## A process with two handlers -/

theorem onePage_userAddr {va x : Nat} (hva : va < 2 ^ 32) (h : userAddr onePageTab va = some x) :
    va < PGSIZE ∧ x = 16 * PGSIZE + va := by
  obtain ⟨e, he, hu, hx⟩ := user_eq_some h
  rw [onePageTab_user he hu] at hx
  obtain ⟨pgtab, ht, rfl⟩ := Option.map_eq_some_iff.mp he
  have hdx : PDX va = 0 ∧ PTX va = 0 := by
    unfold onePageTab at ht
    split at ht
    · rename_i hd
      cases ht
      refine ⟨hd, ?_⟩
      by_contra hp
      simp only [hp] at hu
      cases hu
    split at ht
    · cases ht
      cases hu
    · cases ht
  simp only [PDX, PTX, NPDENTRIES_eq, NPTENTRIES_eq, PGSIZE_eq] at hdx hx ⊢
  omega

theorem onePage_pages : UserPages onePageTab := by
  refine ⟨fun va hva h => ?_, fun va hva vb hvb x h h' => ?_⟩
  · obtain ⟨x, hx⟩ := Option.isSome_iff_exists.mp h
    have := (onePage_userAddr hva hx).1
    rw [PGSIZE_eq] at this
    rw [KERNBASE_eq]
    omega
  · have hx := (onePage_userAddr hva h).2
    have hx' := (onePage_userAddr hvb h').2
    omega

def twoHandlers : Task smallRam 8 :=
  { smallParent with
    sighandlers := fun n => if n = 10 then 0x100 else if n = 12 then 0x200 else 0
    sigrestorers := fun _ => 0x300 }

def Event.leaves (e : Event smallRam 8) (t : Nest smallRam 8) : Bool :=
  match e with
  | .user _ _ => decide (∀ af ∈ t.frames, Intact t.task af.1 af.2)
  | .call _ _ => false
  | _ => true

theorem Event.leaves_of {t : Nest smallRam 8} (h : e.leaves t = true) : e.Leaves t := by
  cases e with
  | user tf mem =>
    simp only [Event.leaves, decide_eq_true_eq] at h
    exact h
  | call c mem => cases h
  | _ => trivial

/-- In every run in which no signal is delivered to a process that runs a handler, the frame of the
    handler that runs is restored by `rt_sigreturn`. -/
theorem sigreturn_restores {ram : Ram} {kstack : Nat} (p : Task ram kstack)
    (hpages : UserPages p.space.tab) (es : List (Event ram kstack)) (t : Nest ram kstack)
    (hrun : Run (fun s e t => s.Next e t ∧ e.Unnested s) ⟨p, []⟩ es t) :
    ∀ a f rest, t.frames = (a, f) :: rest → ∃ u, sigreturn t.task = .ok ((), u) ∧
      ∀ i < TFSIZE, u.tf i = f i := by
  intro a f rest hframes
  have h : Returns t := Run.invariant (fun s e u hs hn => hs.step hn.1 hn.2) hrun ⟨hpages, .inl rfl⟩
  rcases h.frames with hnil | ⟨g, hg, h0, hi⟩
  · rw [hnil] at hframes
    cases hframes
  obtain ⟨u, hu, htf, -⟩ := sigreturn_intact h0 hi
  rw [hframes] at hg
  cases hg
  exact ⟨u, hu, htf⟩

def usr1Handled : List (Event smallRam 8) := [.post (bit 10), .dosignal, .user userInitTf savedPage]

/-- One handler, which then returns. -/
theorem sigreturn_restores_usr1 : ∃ t : Nest smallRam 8,
    Run (fun s e t => s.Next e t ∧ e.Unnested s) ⟨twoHandlers, []⟩ usr1Handled t ∧
    ∃ a f rest, t.frames = (a, f) :: rest ∧ ∃ u, sigreturn t.task = .ok ((), u) ∧
      ∀ i < TFSIZE, u.tf i = f i := by
  obtain ⟨t, hrun, hframes⟩ :=
    Outcome.exists_guarded (fun s e t => Event.leaves e t = true ∧ e.Unnested s) Nest.step
    ⟨twoHandlers, []⟩ usr1Handled (fun t => t.frames.isEmpty = false) (by decide +kernel)
  have hnext : Run (fun (s : Nest smallRam 8) e t => s.Next e t ∧
      e.Unnested s) ⟨twoHandlers, []⟩ usr1Handled t :=
    hrun.mono fun _ _ _ h => ⟨⟨h.1, Event.leaves_of h.2.1⟩, h.2.2⟩
  cases hf : t.frames with
  | nil =>
    rw [hf] at hframes
    cases hframes
  | cons af rest =>
    exact ⟨t, hnext, af.1, af.2, rest, hf,
      sigreturn_restores twoHandlers onePage_pages _ t hnext _ _ rest hf⟩

/-- One handler is to return to address 0, and `rt_sigreturn` leaves it at `0x108`. -/
def Nest.lost (t : Nest smallRam 8) : Bool :=
  match t.frames, sigreturn t.task with
  | [(_, f)], .ok (_, u) => word f Offset.eip == 0 && word u.tf Offset.eip == 0x108
  | _, _ => false

theorem Nest.of_lost {t : Nest smallRam 8} (h : t.lost = true) :
    ∃ a f, t.frames = [(a, f)] ∧ word f Offset.eip = 0 ∧
    ∃ u, sigreturn t.task = .ok ((), u) ∧ word u.tf Offset.eip = 0x108 := by
  unfold Nest.lost at h
  split at h
  · rename_i a f x u hf hu
    simp only [Bool.and_eq_true, beq_iff_eq] at h
    exact ⟨a, f, hf, h.1, u, hu, h.2⟩
  · cases h

/-- The handler of `SIGUSR1` is interrupted by `SIGUSR2`, whose handler returns; the first handler
    then calls `rt_sigreturn` at `0x108` and is still there afterwards. -/
theorem outer_frame_lost : ∃ t, Run Nest.Next ⟨twoHandlers, []⟩
    [.post (bit 10 ||| bit 12), .dosignal, .dosignal, .sigreturn,
      .user (putWord userInitTf Offset.eip 0x108) savedPage] t ∧
    ∃ a f, t.frames = [(a, f)] ∧ word f Offset.eip = 0 ∧ ∃ u,
      sigreturn t.task = .ok ((), u) ∧ word u.tf Offset.eip = 0x108 := by
  obtain ⟨t, hrun, hlost⟩ :=
    Outcome.exists_guarded (fun _ e t => Event.leaves e t = true) Nest.step ⟨twoHandlers, []⟩
    [.post (bit 10 ||| bit 12), .dosignal, .dosignal, .sigreturn,
      .user (putWord userInitTf Offset.eip 0x108) savedPage]
    (fun t => t.lost = true) (by decide +kernel)
  exact ⟨t, hrun.mono fun _ _ _ h => ⟨h.1, Event.leaves_of h.2⟩, Nest.of_lost hlost⟩

/-! ## The signal mask -/

/-- Where a signal is delivered: on the way out of a trap, or in `rt_sigsuspend`. -/
inductive Delivery where
  | trap
  | suspend (mask : UInt32)
deriving DecidableEq

def Delivery.run : Delivery → Exec (Task ram kstack) Unit
  | .trap => dosignal
  | .suspend mask => do
    let ret ← sysRtSigsuspend mask
    Exec.modify fun p => p.setReg Offset.eax ret

def Delivery.chosen : Delivery → Task ram kstack → Option Nat
  | .trap, p => Signal.chosen p
  | .suspend mask, p => Signal.chosen { p with sigmask := mask }

/-- Signals are given to handlers one after another.  Each handler runs, without a change of the
    mask, and returns through `rt_sigreturn`. -/
inductive Handled : Task ram kstack → List Delivery → Task ram kstack → Prop where
  | nil (p : Task ram kstack) : Handled p [] p
  | cons {p t u v w : Task ram kstack} {d : Delivery} {ds : List Delivery}
      (pending : UInt32) {n : Nat}
      (sent : d.chosen { p with sigpending := pending } = some n)
      (delivered : d.run { p with sigpending := pending } = .ok ((), t))
      (handler : u.sigmask = t.sigmask) (returned : sigreturn u = .ok ((), v))
      (rest : Handled v ds w) : Handled p (d :: ds) w

theorem sigreturn_sigmask (p : Task ram kstack) :
    wp sigreturn (fun _ t => t.sigmask = p.sigmask) (fun _ => True) p := by
  unfold sigreturn sysRtSigreturn
  rw [wp_bind, wp_bind, wp_get]
  split
  · rfl
  split
  · trivial
  · rfl

theorem deliver_sigmask {n : Nat} {handler restorer : UInt32} (p : Task ram kstack) :
    wp (deliver n handler restorer) (fun _ t => t.sigmask = p.sigmask ||| bit n)
      (fun _ => True) p := by
  refine wp_deliver (I := fun u => u.sigmask = p.sigmask ||| bit n)
    rfl (fun h => copyoutFails_m.imp ?_) (fun _ hu => hu) fun _ _ _ hu => hu
  rintro _ _ ⟨m, rfl⟩
  exact h

theorem bit_ne_zero (n : Nat) : bit n ≠ 0 := by
  intro h
  have h : (bit n).toNat = 0 := congrArg UInt32.toNat h
  unfold bit at h
  rw [UInt32.toNat_shiftLeft, UInt32.toNat_one, Nat.one_shiftLeft] at h
  have hlt : 2 ^ ((UInt32.ofNat n).toNat % 32) < 2 ^ 32 :=
    Nat.pow_lt_pow_right (by decide) (Nat.mod_lt _ (by decide))
  rw [Nat.mod_eq_of_lt hlt] at h
  exact absurd h (Nat.ne_of_gt (Nat.two_pow_pos _))

theorem or_and_self (a b : UInt32) : (a ||| b) &&& b = b := by
  rw [← UInt32.toBitVec_inj]
  ext i hi
  simp only [UInt32.toBitVec_and, UInt32.toBitVec_or, BitVec.getElem_and,
    BitVec.getElem_or, Bool.and_eq_right_iff_imp, Bool.or_eq_true]
  exact .inr

theorem Delivery.run_sigmask {d : Delivery} {n : Nat} (hn : d.chosen p = some n)
    (h : d.run p = .ok ((), t)) :
    (d = .trap → p.sigmask &&& bit n = 0 ∧ t.sigmask = p.sigmask ||| bit n) ∧
    (d ≠ .trap → t.sigmask = p.sigmask) := by
  cases d with
  | trap =>
    obtain ⟨hfree, pending, hdel⟩ := dosignal_chosen hn
    exact ⟨fun _ => ⟨hfree,
      (deliver_sigmask { p with sigpending := pending }).of_ok (hdel.symm.trans h)⟩, absurd rfl⟩
  | suspend mask =>
    refine ⟨fun heq => (nomatch heq), fun _ => ?_⟩
    -- the mask of before the call is put back, whatever `dosignal` did to it
    have hmask :
        wp (Delivery.run (.suspend mask)) (fun _ t => t.sigmask = p.sigmask) (fun _ => True) p := by
      unfold Delivery.run sysRtSigsuspend
      rw [wp_bind, wp_bind, wp_get, wp_bind, wp_modify, wp_bind]
      unfold wp
      split
      · rfl
      · trivial
    exact hmask.of_ok h

theorem Handled.sigmask_or {v : Task ram kstack} {ds : List Delivery} (h : Handled p ds v) :
    p.sigmask ||| v.sigmask = v.sigmask := by
  induction h with
  | nil p => exact UInt32.or_self
  | @cons p t u v w d ds pending n sent delivered handler returned rest ih =>
    have hv : v.sigmask = t.sigmask := ((sigreturn_sigmask u).of_ok returned).trans handler
    obtain ⟨htrap, hother⟩ := Delivery.run_sigmask sent delivered
    by_cases hd : d = .trap
    · have ht : t.sigmask = p.sigmask ||| bit n := (htrap hd).2
      rw [← ih, hv, ht, ← UInt32.or_assoc, ← UInt32.or_assoc, UInt32.or_self]
    have ht : t.sigmask = p.sigmask := hother hd
    rw [← ht, ← hv]
    exact ih

theorem exists_handled (p : Task ram kstack) (d : Delivery) (pending : UInt32)
    (Q : Task ram kstack → Prop) [DecidablePred Q]
    (hsent : (d.chosen { p with sigpending := pending }).isSome)
    (h : wp (d.run >>= fun _ => sigreturn) (fun _ v => Q v) (fun _ => False)
      { p with sigpending := pending }) :
    ∃ v, Handled p [d] v ∧ Q v := by
  obtain ⟨n, hn⟩ := Option.isSome_iff_exists.mp hsent
  obtain ⟨_, t, ht, h⟩ := (wp_bind.mp h).returns fun _ => id
  obtain ⟨_, v, hv, hq⟩ := h.returns fun _ => id
  exact ⟨v, .cons pending hn ht rfl hv (.nil v), hq⟩

/-- After any number of handlers the mask is as before exactly if none of the signals was delivered
    on the way out of a trap. -/
theorem mask_kept_iff {ram : Ram} {kstack : Nat} (p v : Task ram kstack)
    (ds : List Delivery) (h : Handled p ds v) : v.sigmask = p.sigmask ↔ .trap ∉ ds := by
  induction h with
  | nil p => exact ⟨fun _ => List.not_mem_nil, fun _ => rfl⟩
  | @cons p t u v w d ds pending n sent delivered handler returned rest ih =>
    have hv : v.sigmask = t.sigmask := ((sigreturn_sigmask u).of_ok returned).trans handler
    obtain ⟨htrap, hother⟩ := Delivery.run_sigmask sent delivered
    by_cases hd : d = .trap
    · obtain ⟨hfree, ht⟩ := htrap hd
      refine ⟨fun heq => ?_, absurd (hd ▸ .head _)⟩
      -- the bit that the delivery set is still there
      exfalso
      have hor := rest.sigmask_or
      rw [heq, hv, ht, UInt32.or_comm, ← UInt32.or_assoc, UInt32.or_self] at hor
      have hbit := or_and_self p.sigmask (bit n)
      rw [hor, show p.sigmask &&& bit n = 0 from hfree] at hbit
      exact bit_ne_zero n hbit.symm
    · have ht : t.sigmask = p.sigmask := hother hd
      rw [← ht, ← hv, ih, List.mem_cons, not_or]
      exact ⟨fun hno => ⟨fun heq => hd heq.symm, hno⟩, And.right⟩

/-- `SIGUSR1` is caught in `rt_sigsuspend`. -/
theorem mask_kept_iff_suspend :
    ∃ v, Handled twoHandlers [.suspend 0] v ∧ v.sigmask = twoHandlers.sigmask := by
  obtain ⟨v, hv, -⟩ := exists_handled twoHandlers (.suspend 0)
      (bit 10) (fun _ => True) (by decide +kernel) (by decide +kernel)
  exact ⟨v, hv, (mask_kept_iff twoHandlers v [.suspend 0] hv).mpr (by decide)⟩

/-- `SIGUSR1` is caught on the way out of a trap: after its handler has returned it is blocked, and
    the same signal sent again is not delivered. -/
theorem signal_stays_blocked : chosen { twoHandlers with sigpending := bit 10 } = some 10 ∧
    ∃ v, Handled twoHandlers [.trap] v ∧ v.sigmask ≠ twoHandlers.sigmask ∧
      v.sighandlers 10 = twoHandlers.sighandlers 10 ∧
      chosen { v with sigpending := bit 10 } = none := by
  refine ⟨by decide +kernel, ?_⟩
  exact exists_handled twoHandlers .trap (bit 10) (fun v => v.sigmask ≠ twoHandlers.sigmask ∧
    v.sighandlers 10 = twoHandlers.sighandlers 10 ∧
      chosen { v with sigpending := bit 10 } = none) (by decide +kernel) (by decide +kernel)

end Micro86.Signal
