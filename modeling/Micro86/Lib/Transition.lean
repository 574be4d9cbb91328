import Mathlib

/-!
# Labelled transition systems and their runs

A system is a relation `next : σ → α → σ → Prop` (`next s a s'`: in state `s` the action `a`
may lead to `s'`).  A run is a finite list of actions.

* `Run.invariant` — what every step preserves, every run preserves.
* `Outcome` — the result of one atomic action of a kernel: it blocks, panics or goes on.
* `Outcome.exec` — the run of a list of actions, computed.
* `Outcome.guard` — a system restricted to actions that meet a condition.
-/

namespace Micro86

variable {σ α : Type}

/-- The actions `as` lead from one state to another. -/
inductive Run (next : σ → α → σ → Prop) : σ → List α → σ → Prop where
  | nil (s : σ) : Run next s [] s
  | cons {s t u : σ} {a : α} {as : List α} :
      next s a t → Run next t as u → Run next s (a :: as) u

namespace Run

variable {next : σ → α → σ → Prop} {s t u : σ} {a : α} {as bs : List α}

/-- A property kept by every step is kept by every run. -/
theorem invariant {I : σ → Prop} (hstep : ∀ s a t, I s → next s a t → I t)
    (h : Run next s as t) (hs : I s) : I t := by
  induction h with
  | nil => exact hs
  | cons hn _ ih => exact ih (hstep _ _ _ hs hn)

theorem append (h : Run next s as t) (h' : Run next t bs u) : Run next s (as ++ bs) u := by
  induction h with
  | nil => exact h'
  | cons hn _ ih => exact .cons hn (ih h')

/-- A run extended by one step. -/
theorem snoc (h : Run next s as t) (hn : next t a u) : Run next s (as ++ [a]) u :=
  h.append (.cons hn (.nil u))

/-- A run of a relation is a run of every larger one. -/
theorem mono {next' : σ → α → σ → Prop} (hle : ∀ s a t, next s a t → next' s a t)
    (h : Run next s as t) : Run next' s as t := by
  induction h with
  | nil => exact .nil _
  | cons hn _ ih => exact .cons (hle _ _ _ hn) ih

end Run

/-- Result of one atomic action: the caller sleeps, the kernel panics, or it goes on. -/
inductive Outcome (σ : Type) where
  | blocked
  | panic (msg : String)
  | next (s : σ)

/-- The step relation of a system given by a function into `Outcome`. -/
def Outcome.rel (step : σ → α → Outcome σ) (s : σ) (a : α) (t : σ) : Prop := step s a = .next t

/-- The state after a list of actions, if none of them blocks or panics. -/
def Outcome.exec (step : σ → α → Outcome σ) : σ → List α → Option σ
  | s, [] => some s
  | s, a :: as =>
    match step s a with
    | .next t => exec step t as
    | _ => none

theorem Outcome.run_of_exec {step : σ → α → Outcome σ} {s t : σ} {as : List α}
    (h : exec step s as = some t) : Run (rel step) s as t := by
  induction as generalizing s with
  | nil => cases h; exact .nil _
  | cons a as ih =>
    simp only [exec] at h
    split at h
    · rename_i r hr
      exact .cons hr (ih h)
    · cases h

/-- The action goes on to a state with `Q`. -/
def Outcome.Next (o : Outcome σ) (Q : σ → Prop) : Prop :=
  match o with
  | .next t => Q t
  | _ => False

instance {o : Outcome σ} {Q : σ → Prop} [DecidablePred Q] : Decidable (o.Next Q) :=
  match o with
  | .next t => inferInstanceAs (Decidable (Q t))
  | .blocked => inferInstanceAs (Decidable False)
  | .panic _ => inferInstanceAs (Decidable False)

theorem Outcome.Next.exists {o : Outcome σ} {Q : σ → Prop} (h : o.Next Q) :
    ∃ t, o = .next t ∧ Q t := by
  cases o with
  | next t => exact ⟨t, rfl, h⟩
  | blocked | panic msg => exact h.elim

/-- The action stops with the message. -/
def Outcome.Panics (o : Outcome σ) (msg : String) : Prop :=
  match o with
  | .panic m => m = msg
  | _ => False

instance {o : Outcome σ} {msg : String} : Decidable (o.Panics msg) :=
  match o with
  | .panic m => inferInstanceAs (Decidable (m = msg))
  | .blocked => inferInstanceAs (Decidable False)
  | .next _ => inferInstanceAs (Decidable False)

/-- A run found by computing it. -/
theorem Outcome.exists_run (step : σ → α → Outcome σ) (s : σ)
    (as : List α) (Q : σ → Prop) [DecidablePred Q]
    (h : (exec step s as).any (fun t => Q t) = true) : ∃ t, Run (rel step) s as t ∧ Q t := by
  cases ht : exec step s as with
  | none =>
    rw [ht] at h
    cases h
  | some t =>
    rw [ht] at h
    exact ⟨t, run_of_exec ht, by simpa using h⟩

/-- Only the actions for which `ok` holds. -/
def Outcome.guard (ok : σ → α → σ → Bool) (step : σ → α → Outcome σ) (s : σ) (a : α) : Outcome σ :=
  match step s a with
  | .next t => if ok s a t then .next t else .blocked
  | .blocked => .blocked
  | .panic msg => .panic msg

theorem Outcome.of_guard {ok : σ → α → σ → Bool} {step : σ → α → Outcome σ}
    {s t : σ} {a : α} (h : rel (guard ok step) s a t) : step s a = .next t ∧ ok s a t = true := by
  unfold rel guard at h
  split at h
  · rename_i u hu
    split at h
    · rename_i hok
      cases h
      exact ⟨hu, hok⟩
    · cases h
  · cases h
  · cases h

/-- A run whose steps all meet `ok`, found by computing it. -/
theorem Outcome.exists_guarded (ok : σ → α → σ → Prop) [∀ s a t, Decidable (ok s a t)]
    (step : σ → α → Outcome σ) (s : σ) (as : List α) (Q : σ → Prop) [DecidablePred Q]
    (h : (exec (guard (fun s a t => decide (ok s a t)) step) s as).any (fun t => Q t) = true) :
    ∃ t, Run (fun s a t => step s a = .next t ∧ ok s a t) s as t ∧ Q t := by
  obtain ⟨t, hrun, hq⟩ := exists_run _ s as Q h
  refine ⟨t, hrun.mono fun s a u hu => ?_, hq⟩
  obtain ⟨hstep, hok⟩ := of_guard hu
  exact ⟨hstep, of_decide_eq_true hok⟩

end Micro86
