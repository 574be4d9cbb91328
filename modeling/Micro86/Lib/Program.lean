import Micro86.Lib.Transition
import Micro86.Lib.Update

/-!
# Programs of atomic actions

A routine of a kernel as the tree of its atomic actions: it returns, or performs an action and goes
on with the answer.  The programs of several processes run interleaved over one shared state.

* `Prog` — the trees, a monad; `perform o` is one action.
* `Discipline`, `Prog.Keeps` — an account kept along a program: what an action needs, which answers
  it can get, and what the account is afterwards.  One rule per construct.
* `Pool` — processes in calls; `Pool.step` starts a call, performs an action, or ends a call.
* `Pool.accounted_run` — if every call keeps its discipline and every action keeps the invariant
  between the shared state and the accounts, then so does every interleaving.
-/

namespace Micro86

open Function

/-- A program that performs actions `o : Op`, each answered by an `Ans o`. -/
inductive Prog (Op : Type) (Ans : Op → Type) (α : Type) where
  | ret (a : α)
  | act (o : Op) (k : Ans o → Prog Op Ans α)

/-- An account kept along programs. -/
structure Discipline (Op : Type) (Ans : Op → Type) (γ : Type) where
  /-- What an action needs. -/
  needs : γ → Op → Prop
  /-- The answers it can get. -/
  gives : γ → (o : Op) → Ans o → Prop
  /-- The account after an answer. -/
  after : γ → (o : Op) → Ans o → γ

namespace Prog

variable {Op : Type} {Ans : Op → Type} {α β γ : Type}

protected def bind : Prog Op Ans α → (α → Prog Op Ans β) → Prog Op Ans β
  | ret a, f => f a
  | act o k, f => act o fun r => (k r).bind f

instance : Monad (Prog Op Ans) where
  pure := ret
  bind := Prog.bind

/-- One action. -/
def perform (o : Op) : Prog Op Ans (Ans o) := act o ret

/-- Every action of the program has what it needs, and the result and the last account satisfy
    the postcondition. -/
def Keeps (D : Discipline Op Ans γ) : γ → Prog Op Ans α → (α → γ → Prop) → Prop
  | g, ret a, Q => Q a g
  | g, act o k, Q => D.needs g o ∧ ∀ r, D.gives g o r → Keeps D (D.after g o r) (k r) Q

section Rules

variable {D : Discipline Op Ans γ} {g : γ} {x : Prog Op Ans α} {f : α → Prog Op Ans β}
variable {Q : α → γ → Prop}

@[simp] theorem keeps_pure {a : α} : Keeps D g (pure a) Q ↔ Q a g := .rfl

@[simp] theorem keeps_perform {o : Op} {Q : Ans o → γ → Prop} :
    Keeps D g (perform o) Q ↔ D.needs g o ∧ ∀ r, D.gives g o r → Q r (D.after g o r) := .rfl

@[simp] theorem keeps_bind {Q : β → γ → Prop} :
    Keeps D g (x >>= f) Q ↔ Keeps D g x fun a g' => Keeps D g' (f a) Q := by
  show Keeps D g (x.bind f) Q ↔ _
  induction x generalizing g with
  | ret a => rfl
  | act o k ih =>
    show D.needs g o ∧ (∀ r, D.gives g o r → Keeps D _ ((k r).bind f) Q) ↔
      D.needs g o ∧ ∀ r, D.gives g o r → Keeps D _ (k r) _
    exact and_congr_right fun _ => forall_congr' fun r => imp_congr_right fun _ => ih r

@[simp] theorem keeps_ite {p : Prop} [Decidable p] {x y : Prog Op Ans α} :
    Keeps D g (if p then x else y) Q ↔ (p → Keeps D g x Q) ∧ (¬ p → Keeps D g y Q) := by
  split <;> simp_all

theorem Keeps.mono {Q' : α → γ → Prop} (h : Keeps D g x Q) (hQ : ∀ a g', Q a g' → Q' a g') :
    Keeps D g x Q' := by
  induction x generalizing g with
  | ret a => exact hQ a g h
  | act o k ih => exact ⟨h.1, fun r hr => ih r (h.2 r hr)⟩

/-- The first program by its specification, then the rest. -/
theorem Keeps.bind {R : β → γ → Prop} (h : Keeps D g x Q)
    (hf : ∀ a g', Q a g' → Keeps D g' (f a) R) : Keeps D g (x >>= f) R :=
  keeps_bind.mpr (h.mono hf)

end Rules

end Prog

/-! ## Interleavings -/

section Pool

variable {P C H σ ρ γ Op : Type} {Ans : Op → Type}

/-- The shared state, and for every process in a call the call and what is left of its program. -/
structure Pool (P C σ ρ Op : Type) (Ans : Op → Type) where
  shared : σ
  thread : P → Option (C × Prog Op Ans ρ)

/-- A process starts a call, performs its next action, or returns from the call; `h` settles what
    the state does not determine. -/
inductive Event (P C H : Type) where
  | call (p : P) (c : C)
  | go (p : P) (h : H)
  | done (p : P)

namespace Pool

variable [DecidableEq P] (prog : C → Prog Op Ans ρ)
  (sem : P → H → σ → (o : Op) → Outcome (Ans o × σ)) (ready : P → σ → Bool)

def setThread (t : Pool P C σ ρ Op Ans) (p : P)
    (x : Option (C × Prog Op Ans ρ)) : Pool P C σ ρ Op Ans :=
  { t with thread := update t.thread p x }

/-- One event; a call needs a process that is ready and in no call. -/
def step (t : Pool P C σ ρ Op Ans) : Event P C H → Outcome (Pool P C σ ρ Op Ans)
  | .call p c =>
    match t.thread p with
    | none => if ready p t.shared then .next (t.setThread p (some (c, prog c))) else .blocked
    | some _ => .blocked
  | .go p h =>
    match t.thread p with
    | some (c, .act o k) =>
      match sem p h t.shared o with
      | .next (r, s) => .next (setThread { t with shared := s } p (some (c, k r)))
      | .blocked => .blocked
      | .panic msg => .panic msg
    | _ => .blocked
  | .done p =>
    match t.thread p with
    | some (_, .ret _) => .next (t.setThread p none)
    | _ => .blocked

/-- What an event may be, by the call it is part of: which answers an action may get, and which
    results the call may return. -/
def Meets (allowed : C → (o : Op) → Ans o → Prop) (fine : C → ρ → Prop) (t : Pool P C σ ρ Op Ans) :
    Event P C H → Prop
  | .call _ _ => True
  | .go p h => ∀ c o k r s, t.thread p = some (c, .act o k) →
        sem p h t.shared o = .next (r, s) → allowed c o r
  | .done p => ∀ c r, t.thread p = some (c, .ret r) → fine c r

/-- The steps that meet a condition. -/
def Next (allowed : C → (o : Op) → Ans o → Prop) (fine : C → ρ → Prop) (t : Pool P C σ ρ Op Ans)
    (e : Event P C H) (u : Pool P C σ ρ Op Ans) : Prop :=
  t.Meets sem allowed fine e ∧ step prog sem ready t e = .next u

/-- No process is in a call. -/
def Quiet (t : Pool P C σ ρ Op Ans) : Prop := ∀ p, t.thread p = none

/-- The account `v` fits what a process is in: nothing is owed outside calls, and a program keeps
    its discipline to its end. -/
def Fits (D : C → Discipline Op Ans γ) (zero : γ) (settled : γ → Prop)
    (fine : C → ρ → Prop) (v : γ) : Option (C × Prog Op Ans ρ) → Prop
  | none => v = zero
  | some (c, x) => Prog.Keeps (D c) v x fun r g => fine c r → settled g

/-- There are accounts for the processes that fit and agree with the shared state. -/
def Accounted (D : C → Discipline Op Ans γ) (zero : γ) (settled : γ → Prop) (fine : C → ρ → Prop)
    (I : σ → (P → γ) → Prop) (t : Pool P C σ ρ Op Ans) : Prop :=
  ∃ g : P → γ, I t.shared g ∧ ∀ p, Fits D zero settled fine (g p) (t.thread p)

variable {prog sem ready} {D : C → Discipline Op Ans γ} {zero : γ} {settled : γ → Prop}
  {allowed : C → (o : Op) → Ans o → Prop} {fine : C → ρ → Prop} {I : σ → (P → γ) → Prop}
  {t u : Pool P C σ ρ Op Ans} {e : Event P C H} {es : List (Event P C H)}

/-- A process in a call was in it before, or has just started it. -/
theorem step_thread (hs : step prog sem ready t e = .next u) {q : P} {c : C} {x : Prog Op Ans ρ}
    (hq : u.thread q = some (c, x)) : (∃ y, t.thread q = some (c, y)) ∨ e = .call q c := by
  have hset : ∀ {s : σ} {p : P} {v : Option (C × Prog Op Ans ρ)},
      (setThread { t with shared := s } p v).thread q = some (c, x) →
      (q = p ∧ v = some (c, x)) ∨ t.thread q = some (c, x) := by
    intro s p v hv
    dsimp only [setThread] at hv
    by_cases hqp : q = p
    · subst hqp
      rw [update_self] at hv
      exact .inl ⟨rfl, hv⟩
    · rw [update_of_ne hqp] at hv
      exact .inr hv
  cases e with
  | call p c' =>
    simp only [step] at hs
    split at hs
    · split at hs
      · cases hs
        rcases hset hq with ⟨rfl, hv⟩ | hv
        · cases hv
          exact .inr rfl
        · exact .inl ⟨x, hv⟩
      · cases hs
    · cases hs
  | go p h =>
    simp only [step] at hs
    split at hs
    · rename_i c' o k hp
      split at hs
      · cases hs
        rcases hset hq with ⟨rfl, hv⟩ | hv
        · cases hv
          exact .inl ⟨_, hp⟩
        · exact .inl ⟨x, hv⟩
      · cases hs
      · cases hs
    · cases hs
  | done p =>
    simp only [step] at hs
    split at hs
    · cases hs
      rcases hset hq with ⟨rfl, hv⟩ | hv
      · cases hv
      · exact .inl ⟨x, hv⟩
    · cases hs

/-- A run whose calls all meet the condition by themselves. -/
theorem run_of_calls (ok : C → Prop) (hallowed : ∀ c o r, ok c → allowed c o r)
    (hfine : ∀ c r, ok c → fine c r)
    (ht : ∀ p c x, t.thread p = some (c, x) → ok c) (hes : ∀ p c, .call p c ∈ es → ok c)
    (hr : Run (Outcome.rel (step prog sem ready)) t es u) :
    Run (Next prog sem ready allowed fine) t es u := by
  induction hr with
  | nil => exact .nil _
  | @cons t v u e es hs hr ih =>
    have hkeeps : ∀ p c x, v.thread p = some (c, x) → ok c := by
      intro p c x hx
      rcases step_thread hs hx with ⟨y, hy⟩ | rfl
      · exact ht p c y hy
      · exact hes p c List.mem_cons_self
    refine .cons ⟨?_, hs⟩ (ih hkeeps fun p c hc => hes p c (.tail _ hc))
    cases e with
    | call p c => trivial
    | go p h => exact fun c o k r _ hp _ => hallowed c o r (ht p c _ hp)
    | done p => exact fun c r hp => hfine c r (ht p c _ hp)

/-- The rules a discipline has to prove: calls keep it from some account on, actions and returns
    keep the invariant. -/
structure Rules (prog : C → Prog Op Ans ρ) (sem : P → H → σ → (o : Op) → Outcome (Ans o × σ))
    (ready : P → σ → Bool) (D : C → Discipline Op Ans γ) (zero : γ) (settled : γ → Prop)
    (allowed : C → (o : Op) → Ans o → Prop) (fine : C → ρ → Prop)
    (I : σ → (P → γ) → Prop) : Prop where
  call : ∀ p s g c, ready p s = true → I s g → g p = zero →
    ∃ v, I s (update g p v) ∧ Prog.Keeps (D c) v (prog c) fun r g => fine c r → settled g
  go : ∀ p h s g c o r s', I s g → (D c).needs (g p) o → sem p h s o = .next (r, s') →
    allowed c o r → (D c).gives (g p) o r ∧ I s' (update g p ((D c).after (g p) o r))
  done : ∀ p s g, I s g → settled (g p) → I s (update g p zero)

theorem Accounted.setThread {g : P → γ} {p : P} {x : Option (C × Prog Op Ans ρ)} {v : γ} {s : σ}
    (hg : ∀ q, Fits D zero settled fine (g q) (t.thread q)) (hI : I s (update g p v))
    (hx : Fits D zero settled fine v x) :
    Accounted D zero settled fine I (Pool.setThread { t with shared := s } p x) := by
  refine ⟨update g p v, hI, fun q => ?_⟩
  dsimp only [Pool.setThread]
  by_cases hq : q = p
  · subst hq
    rw [update_self, update_self]
    exact hx
  · rw [update_of_ne hq, update_of_ne hq]
    exact hg q

/-- **One event.** -/
theorem accounted_step (R : Rules prog sem ready D zero settled allowed fine I)
    (h : Accounted D zero settled fine I t) (hs : Next prog sem ready allowed fine t e u) :
    Accounted D zero settled fine I u := by
  obtain ⟨g, hI, hg⟩ := h
  obtain ⟨hmeets, hs⟩ := hs
  cases e with
  | call p c =>
    have hp := hg p
    simp only [step] at hs
    split at hs
    · rename_i ht
      rw [ht] at hp
      split at hs
      · rename_i hready
        cases hs
        obtain ⟨v, hI', hv⟩ := R.call p t.shared g c hready hI hp
        exact Accounted.setThread hg hI' hv
      · cases hs
    · cases hs
  | go p h =>
    have hp := hg p
    simp only [step] at hs
    split at hs
    · rename_i c o k ht
      rw [ht] at hp
      split at hs
      · rename_i r s hsem
        cases hs
        obtain ⟨hgives, hI'⟩ := R.go p h t.shared g c o r s hI hp.1 hsem (hmeets c o k r s ht hsem)
        exact Accounted.setThread hg hI' (hp.2 r hgives)
      · cases hs
      · cases hs
    · cases hs
  | done p =>
    have hp := hg p
    simp only [step] at hs
    split at hs
    · rename_i c r ht
      rw [ht] at hp
      cases hs
      exact Accounted.setThread hg (R.done p _ g hI (hp (hmeets c r ht))) rfl
    · cases hs

/-- **Every interleaving** of calls that keep their discipline. -/
theorem accounted_run (R : Rules prog sem ready D zero settled allowed fine I)
    (hr : Run (Next prog sem ready allowed fine) t es u) (h : Accounted D zero settled fine I t) :
    Accounted D zero settled fine I u :=
  hr.invariant (fun _ _ _ => accounted_step R) h

omit [DecidableEq P] in
/-- Outside calls nothing is owed. -/
theorem Accounted.quiet (h : Accounted D zero settled fine I t) (hq : t.Quiet) :
    I t.shared fun _ => zero := by
  obtain ⟨g, hI, hg⟩ := h
  have hz : g = fun _ => zero := by
    funext p
    have hp := hg p
    rw [hq p] at hp
    exact hp
  rwa [hz] at hI

omit [DecidableEq P] in
theorem accounted_of_quiet (hq : t.Quiet) (hI : I t.shared fun _ => zero) :
    Accounted D zero settled fine I t := by
  refine ⟨fun _ => zero, hI, fun p => ?_⟩
  rw [hq p]
  exact rfl

omit [DecidableEq P] in
/-- The action a process is about to perform has what it needs. -/
theorem Accounted.needs (h : Accounted D zero settled fine I t) :
    ∃ g : P → γ, I t.shared g ∧ ∀ p c o k, t.thread p = some (c, .act o k) →
      (D c).needs (g p) o := by
  obtain ⟨g, hI, hg⟩ := h
  refine ⟨g, hI, fun p c o k ht => ?_⟩
  have hp := hg p
  rw [ht] at hp
  exact hp.1

end Pool

end Pool

end Micro86
