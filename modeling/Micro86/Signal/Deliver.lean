import Micro86.Signal.Frame

/-!
# Delivery of signals and return from handlers

`dosignal` runs before the kernel returns to a process.  It copies the trap frame to the user stack
with `copyout` and points the frame at the handler; `sys_rt_sigreturn` copies the frame back from
there.  The trap frame itself lies in the page frame of the kernel stack.

* `Keeps` — `cs`, `eflags` and `ss` of the trap frame are as they were, if no page-table entry was
  read through a null pointer.
-/

namespace Micro86.Signal

open Exec Mm

def NSIG : Nat := 65

def SIGKILL : Nat := 9
def SIGSEGV : Nat := 11
def SIGSTOP : Nat := 19

def SIG_DFL : UInt32 := 0
def SIG_IGN : UInt32 := 1

/-- `1 << signo`; the processor takes shift counts modulo 32. -/
def bit (signo : Nat) : UInt32 := 1 <<< UInt32.ofNat signo

/-- The address space of a process; its kernel stack is not mapped for the user. -/
structure Space (ram : Ram) (kstack : Nat) extends PageTable ram where
  own : ∀ va e, walkpgdir tab va = some e → e.isUser = true → e.frame ≠ kstack

structure Task (ram : Ram) (kstack : Nat) where
  m : Machine
  space : Space ram kstack
  euid : UInt16
  sighandlers : Nat → UInt32
  sigrestorers : Nat → UInt32
  sigmask : UInt32
  sigpending : UInt32
  savedTrapframeSp : UInt32
  killed : Bool
  termsig : Nat

variable {ram : Ram} {kstack : Nat}
variable {s t : Task ram kstack}

/-- Physical address of the trap frame, at the top of the kernel stack. -/
def tfAddr (kstack : Nat) : Nat := kstack * PGSIZE + (PGSIZE - TFSIZE)

namespace Task

def tf (p : Task ram kstack) : Frame := fun i => p.m.mem (tfAddr kstack + i)

def reg (p : Task ram kstack) (off : Nat) : UInt32 := UInt32.ofNat (word p.tf off)

def setReg (off : Nat) (w : UInt32) (p : Task ram kstack) : Task ram kstack :=
  { p with m := { p.m with mem := putWord p.m.mem (tfAddr kstack + off) w } }

def setTf (tf : Frame) (p : Task ram kstack) : Task ram kstack :=
  { p with m := { p.m with
    mem := fun x =>
      if tfAddr kstack ≤ x ∧ x < tfAddr kstack + TFSIZE then tf (x - tfAddr kstack)
      else p.m.mem x } }

end Task

def copyoutFails (sp : UInt32) (buf : Nat → UInt8)
    (len : Nat) : Exec (Task ram kstack) Bool := fun p =>
  match copyout p.space.tab p.space.tab sp.toNat buf len p.m with
  | .ok (r, m) => .ok (decide (r < 0), { p with m := m })
  | .error msg => .error msg

def deliverFailed : Exec (Task ram kstack) Unit := Exec.modify fun p => { p with killed := true }

def deliver (signo : Nat) (handler restorer : UInt32) : Exec (Task ram kstack) Unit := do
  Exec.modify fun p => { p with sigmask := p.sigmask ||| bit signo }
  let p ← Exec.get
  let sp := p.reg Offset.esp - UInt32.ofNat TFSIZE
  if ← copyoutFails sp p.tf TFSIZE then deliverFailed
  else if ← copyoutFails (sp - 4) (byteOf restorer) 4 then deliverFailed
  else if ← copyoutFails (sp - 8) (byteOf (UInt32.ofNat signo)) 4 then deliverFailed
  else if ← copyoutFails (sp - 12) (byteOf restorer) 4 then deliverFailed
  else
    Exec.modify fun p => Task.setReg Offset.eip handler
      (Task.setReg Offset.esp (sp - 12) { p with savedTrapframeSp := sp })

def dosignalFrom : Nat → Nat → Exec (Task ram kstack) Unit
  | 0, _ => pure ()
  | k + 1, signo => do
    let p ← Exec.get
    if p.sigpending &&& bit signo = 0 then dosignalFrom k (signo + 1)
    else if signo ≠ SIGKILL ∧ p.sigmask &&& bit signo ≠ 0 then dosignalFrom k (signo + 1)
    else do
      Exec.modify fun p => { p with sigpending := p.sigpending &&& ~~~ bit signo }
      if signo = SIGKILL ∨ p.sighandlers signo = SIG_DFL then
        Exec.modify fun p => { p with termsig := signo, killed := true }
      else if p.sighandlers signo = SIG_IGN then dosignalFrom k (signo + 1)
      -- would return to garbage; the process is killed instead
      else if p.sigrestorers signo = 0 then Exec.modify fun p =>
        { p with sigpending := 0, killed := true }
      else deliver signo (p.sighandlers signo) (p.sigrestorers signo)

def dosignal : Exec (Task ram kstack) Unit := dosignalFrom (NSIG - 1) 1

/-- The physical address the kernel reads at `va`. -/
def kernAddr (tab : Tables) (va : Nat) : Option Nat :=
  match walkpgdir tab va with
  | some e => if e.p then some (e.frame * PGSIZE + va % PGSIZE) else none
  | none => none

def savedFrame (p : Task ram kstack) (va : UInt32) : Option Frame :=
  if ∀ i < TFSIZE, (kernAddr p.space.tab ((va.toNat + i) % 2 ^ 32)).isSome then
    some fun i =>
      match kernAddr p.space.tab ((va.toNat + i) % 2 ^ 32) with
      | some x => p.m.mem x
      | none => 0
  else none

def sysRtSigreturn : Exec (Task ram kstack) UInt32 := do
  let p ← Exec.get
  if p.savedTrapframeSp = 0 then pure (p.reg Offset.eax)
  else
    match savedFrame p p.savedTrapframeSp with
    | none => Exec.panic "Page Fault"
    | some saved => do
      Exec.modify fun p => { Task.setTf saved p with savedTrapframeSp := 0 }
      let p ← Exec.get
      pure (p.reg Offset.eax)

/-! ## What is left alone -/

/-- `cs`, `eflags` and `ss` of the trap frame are as they were, if no entry was read through a null
    pointer. -/
structure Keeps (s t : Task ram kstack) : Prop where
  nulls : s.m.nulls <:+ t.m.nulls
  tf : t.m.nulls = s.m.nulls → ∀ i, Guarded i → t.tf i = s.tf i

theorem Keeps.refl (s : Task ram kstack) : Keeps s s := ⟨List.suffix_refl _, fun _ _ _ => rfl⟩

theorem Keeps.trans {u : Task ram kstack} (h : Keeps s t) (h' : Keeps t u) : Keeps s u := by
  refine ⟨h.nulls.trans h'.nulls, fun heq i hi => ?_⟩
  have hle := h'.nulls.length_le
  rw [heq] at hle
  have hst : t.m.nulls = s.m.nulls := (h.nulls.eq_of_length_le hle).symm
  rw [h'.tf (heq.trans hst.symm) i hi, h.tf hst i hi]

theorem Keeps.of_m (h : t.m = s.m) : Keeps s t :=
  ⟨h ▸ List.suffix_refl _, fun _ i _ => by unfold Task.tf; rw [h]⟩

theorem Guarded.lt {i : Nat} (h : Guarded i) : i < TFSIZE := by
  unfold Guarded Offset.cs Offset.esp Offset.ss TFSIZE at *
  omega

theorem Keeps.setReg {off : Nat} (w : UInt32) (hoff : ∀ i, Guarded i → ¬ (off ≤ i ∧ i < off + 4)) :
    Keeps s (Task.setReg off w s) := by
  refine ⟨List.suffix_refl _, fun _ i hi => putWord_of_not w fun hin => hoff i hi ?_⟩
  omega

theorem esp_not_guarded (i : Nat) (h : Guarded i) : ¬ (Offset.esp ≤ i ∧ i < Offset.esp + 4) := by
  unfold Guarded Offset.cs Offset.esp Offset.ss TFSIZE at *
  omega

theorem eip_not_guarded (i : Nat) (h : Guarded i) : ¬ (Offset.eip ≤ i ∧ i < Offset.eip + 4) := by
  unfold Guarded Offset.cs Offset.esp Offset.ss TFSIZE Offset.eip at *
  omega

theorem eax_not_guarded (i : Nat) (h : Guarded i) : ¬ (Offset.eax ≤ i ∧ i < Offset.eax + 4) := by
  unfold Guarded Offset.cs Offset.esp Offset.ss TFSIZE Offset.eax at *
  omega

theorem Keeps.toHandler (handler sp saved : UInt32) :
    Keeps s (Task.setReg Offset.eip handler
      (Task.setReg Offset.esp sp { s with savedTrapframeSp := saved })) := by
  have hsaved : Keeps s { s with savedTrapframeSp := saved } := Keeps.of_m rfl
  exact (hsaved.trans (.setReg sp esp_not_guarded)).trans (.setReg handler eip_not_guarded)

/-- The trap frame lies in the page frame of the kernel stack. -/
theorem tfAddr_not_user (space : Space ram kstack) {i : Nat} (hi : i < TFSIZE) (va : Nat) :
    userAddr space.tab va ≠ some (tfAddr kstack + i) := by
  intro h
  obtain ⟨e, he, hu, hx⟩ := user_eq_some h
  have hne := space.own va e he hu
  have hdiv : (tfAddr kstack + i) / PGSIZE = kstack := by
    simp only [tfAddr, PGSIZE, TFSIZE] at *
    omega
  have hdiv' : (e.frame * PGSIZE + va % PGSIZE) / PGSIZE = e.frame := by
    simp only [PGSIZE]
    omega
  rw [hx, hdiv'] at hdiv
  exact hne hdiv

theorem copyoutFails_keeps {sp : UInt32} {buf : Nat → UInt8} {len : Nat} :
    wp (copyoutFails sp buf len) (fun _ t => Keeps s t) (fun _ => True) s := by
  unfold wp copyoutFails
  cases h : copyout s.space.tab s.space.tab sp.toNat buf len s.m with
  | error msg => trivial
  | ok q =>
    refine ⟨copyout_nulls.of_ok h, fun heq i hi => ?_⟩
    exact (copyout_keeps s.space.toPageTable s.space.toPageTable
      (tfAddr_not_user s.space hi.lt)).of_ok h heq

theorem copyoutFails_m {sp : UInt32} {buf : Nat → UInt8} {len : Nat} :
    wp (copyoutFails sp buf len) (fun _ t => ∃ m, t = { s with m := m }) (fun _ => True) s := by
  unfold wp copyoutFails
  cases copyout s.space.tab s.space.tab sp.toNat buf len s.m with
  | error msg => trivial
  | ok q => exact ⟨q.2, rfl⟩

/-- The rule of `deliver`: `I` holds until a `copyout` fails or the frame is pointed at the
    handler. -/
theorem wp_deliver {I Q : Task ram kstack → Prop} {signo : Nat} {handler restorer : UInt32}
    (hmask : I { s with sigmask := s.sigmask ||| bit signo })
    (hpush : ∀ {sp buf len u}, I u → wp (copyoutFails sp buf len) (fun _ => I) (fun _ => True) u)
    (hfailed : ∀ u, I u → Q { u with killed := true })
    (hdone : ∀ u sp saved, I u → Q (Task.setReg Offset.eip handler
      (Task.setReg Offset.esp sp { u with savedTrapframeSp := saved }))) :
    wp (deliver signo handler restorer) (fun _ => Q) (fun _ => True) s := by
  have push : ∀ {sp buf len rest t}, I t → (∀ u, I u → wp rest (fun _ => Q) (fun _ => True) u) →
      wp (copyoutFails sp buf len >>= fun failed => if failed = true then deliverFailed else rest)
        (fun _ => Q) (fun _ => True) t := by
    intro sp buf len rest t ht hrest
    refine (hpush ht).seq fun failed u hu => ?_
    by_cases hf : failed = true
    · rw [if_pos hf]
      exact hfailed u hu
    · rw [if_neg hf]
      exact hrest u hu
  unfold deliver
  rw [wp_bind, wp_modify, wp_bind, wp_get]
  refine push hmask fun t ht => ?_
  refine push ht fun u hu => ?_
  refine push hu fun v hv => ?_
  exact push hv fun w hw => hdone w _ _ hw

theorem deliver_keeps {signo : Nat} {handler restorer : UInt32} :
    wp (deliver signo handler restorer) (fun _ t => Keeps s t) (fun _ => True) s :=
  wp_deliver (I := Keeps s) (Keeps.of_m rfl) (fun h => copyoutFails_keeps.imp fun _ _ => h.trans)
    (fun _ h => h.trans (Keeps.of_m rfl)) fun _ _ _ h => h.trans (Keeps.toHandler _ _ _)

theorem dosignalFrom_keeps {k signo : Nat} :
    wp (dosignalFrom k signo) (fun _ t => Keeps s t) (fun _ => True) s := by
  induction k generalizing signo s with
  | zero => exact Keeps.refl s
  | succ k ih =>
    unfold dosignalFrom
    rw [wp_bind, wp_get]
    split
    · exact ih
    split
    · exact ih
    rw [wp_bind, wp_modify]
    have hpend : Keeps s { s with sigpending := s.sigpending &&& ~~~ bit signo } := Keeps.of_m rfl
    split
    · exact Keeps.of_m rfl
    split
    · exact ih.imp fun _ t => hpend.trans
    split
    · exact Keeps.of_m rfl
    · exact deliver_keeps.imp fun _ t => hpend.trans

theorem dosignal_keeps : wp dosignal (fun _ t => Keeps s t) (fun _ => True) s := dosignalFrom_keeps

end Micro86.Signal
