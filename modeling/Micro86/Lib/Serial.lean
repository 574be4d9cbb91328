import Micro86.Lib.Program

/-!
# Programs run one after the other

A program of atomic actions run to its end with nobody in between, over a step relation that says
what an action can answer and leave.

* `Prog.Runs` — the runs; `Prog.exec` computes one.
* `Prog.Leads` — the weakest liberal precondition, with one rule per construct.
* `Runs.accounted` — what an account kept along the program says of every action of a run.
-/

namespace Micro86.Prog

variable {Op : Type} {Ans : Op → Type} {σ α β γ H : Type}

/-- The program runs from the first state to its result and the last state. -/
inductive Runs (step : σ → (o : Op) → Ans o → σ → Prop) : Prog Op Ans α → σ → α → σ → Prop
  | ret (a : α) (s : σ) : Runs step (.ret a) s a s
  | act {o : Op} {k : Ans o → Prog Op Ans α} {s t u : σ} {r : Ans o} {a : α} :
    step s o r t → Runs step (k r) t a u → Runs step (.act o k) s a u

/-- Whenever the program ends, its result and the last state satisfy the postcondition. -/
def Leads (step : σ → (o : Op) → Ans o → σ → Prop) : σ → Prog Op Ans α → (α → σ → Prop) → Prop
  | s, .ret a, Q => Q a s
  | s, .act o k, Q => ∀ r t, step s o r t → Leads step t (k r) Q

section Rules

variable {step : σ → (o : Op) → Ans o → σ → Prop} {s t : σ} {x : Prog Op Ans α}
  {f : α → Prog Op Ans β}
variable {Q : α → σ → Prop} {a : α}

theorem Runs.leads (hr : Runs step x s a t) (h : Leads step s x Q) : Q a t := by
  induction hr with
  | ret => exact h
  | act hs _ ih => exact ih (h _ _ hs)

theorem Runs.mono {T : σ → (o : Op) → Ans o → σ → Prop} (hr : Runs step x s a t)
    (h : ∀ s o r t, step s o r t → T s o r t) : Runs T x s a t := by
  induction hr with
  | ret a s => exact .ret a s
  | act hs _ ih => exact .act (h _ _ _ _ hs) ih

@[simp] theorem leads_pure : Leads step s (pure a) Q ↔ Q a s := .rfl

@[simp] theorem leads_perform {o : Op} {Q : Ans o → σ → Prop} :
    Leads step s (perform o) Q ↔ ∀ r t, step s o r t → Q r t := .rfl

@[simp] theorem leads_bind {Q : β → σ → Prop} :
    Leads step s (x >>= f) Q ↔ Leads step s x fun a t => Leads step t (f a) Q := by
  show Leads step s (x.bind f) Q ↔ _
  induction x generalizing s with
  | ret a => rfl
  | act o k ih =>
    show (∀ r t, step s o r t → Leads step t ((k r).bind f) Q) ↔
        ∀ r t, step s o r t → Leads step t (k r) _
    exact forall_congr' fun r => forall_congr' fun t => imp_congr_right fun _ => ih r

theorem Leads.mono {Q' : α → σ → Prop} (h : Leads step s x Q) (hQ : ∀ a t, Q a t → Q' a t) :
    Leads step s x Q' := by
  induction x generalizing s with
  | ret a => exact hQ a s h
  | act o k ih => exact fun r t hs => ih r (h r t hs)

theorem leads_and {Q' : α → σ → Prop} (h : Leads step s x Q) (h' : Leads step s x Q') :
    Leads step s x fun a t => Q a t ∧ Q' a t := by
  induction x generalizing s with
  | ret a => exact ⟨h, h'⟩
  | act o k ih => exact fun r t hs => ih r (h r t hs) (h' r t hs)

/-- The first program by its specification, then the rest. -/
theorem Leads.bind {R : β → σ → Prop} (h : Leads step s x Q)
    (hf : ∀ a t, Q a t → Leads step t (f a) R) : Leads step s (x >>= f) R :=
  leads_bind.mpr (h.mono hf)

/-- **The account along a run**: if every action keeps the invariant between the state and the
    account, the run also has what the account says of each action. -/
theorem Runs.accounted {D : Discipline Op Ans γ} {I : σ → γ → Prop}
    {T : σ → (o : Op) → Ans o → σ → Prop} {Q : α → γ → Prop} {g : γ}
    (hgo : ∀ s g o r t, I s g → D.needs g o → step s o r t →
      T s o r t ∧ D.gives g o r ∧ I t (D.after g o r))
    (hr : Runs step x s a t) (hx : Keeps D g x Q) (hI : I s g) :
    Runs T x s a t ∧ ∃ g', Q a g' ∧ I t g' := by
  induction hr generalizing g with
  | ret a s => exact ⟨.ret a s, g, hx, hI⟩
  | act hs _ ih =>
    obtain ⟨hs', hgives, hI'⟩ := hgo _ _ _ _ _ hI hx.1 hs
    obtain ⟨hr', hQ⟩ := ih (hx.2 _ hgives) hI'
    exact ⟨.act hs' hr', hQ⟩

end Rules

/-- The program with what the state does not determine given for each action. -/
def exec (sem : H → σ → (o : Op) → Outcome (Ans o × σ)) : Prog Op Ans α →
    List H → σ → Option (α × σ)
  | .ret a, [], s => some (a, s)
  | .act o k, h :: hs, s =>
    match sem h s o with
    | .next (r, t) => exec sem (k r) hs t
    | _ => none
  | _, _, _ => none

theorem runs_of_exec {sem : H → σ → (o : Op) → Outcome (Ans o × σ)}
    {x : Prog Op Ans α} {hs : List H} {s t : σ} {a : α}
    (h : exec sem x hs s = some (a, t)) :
    Runs (fun s o r t => ∃ h, sem h s o = .next (r, t)) x s a t := by
  induction x generalizing hs s with
  | ret b =>
    cases hs with
    | nil =>
      cases h
      exact .ret a t
    | cons => cases h
  | act o k ih =>
    cases hs with
    | nil => cases h
    | cons h' hs =>
      simp only [exec] at h
      split at h
      · rename_i r u hsem
        exact .act ⟨h', hsem⟩ (ih r h)
      · cases h

end Micro86.Prog
