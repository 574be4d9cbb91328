import Mathlib

/-!
# Kernel routines: state, return value, panic

A routine over a state `σ` returns a value and the next state, or panics with a message.

* `Exec.wp` — weakest precondition for a postcondition on results and one on panic messages,
  with one rule per construct.
* `Exec.forUpTo` — the loop `for (i = 0; i < n; i++)`.
-/

namespace Micro86

/-- A routine: the result and the next state, or a panic. -/
def Exec (σ α : Type) := σ → Except String (α × σ)

namespace Exec

variable {σ α β : Type}

instance : Monad (Exec σ) where
  pure a := fun s => .ok (a, s)
  bind x f := fun s =>
    match x s with
    | .ok (a, t) => f a t
    | .error msg => .error msg

protected def panic (msg : String) : Exec σ α := fun _ => .error msg

protected def get : Exec σ σ := fun s => .ok (s, s)

protected def modify (f : σ → σ) : Exec σ Unit := fun s => .ok ((), f s)

/-- Every result of `x` from `s` satisfies `Q`, and if it panics, the message satisfies `E`. -/
def wp (x : Exec σ α) (Q : α → σ → Prop) (E : String → Prop) (s : σ) : Prop :=
  match x s with
  | .ok (a, t) => Q a t
  | .error msg => E msg

instance {x : Exec σ α} {Q : α → σ → Prop} {E : String → Prop}
    {s : σ} [∀ a t, Decidable (Q a t)] [DecidablePred E] : Decidable (wp x Q E s) := by
  unfold wp
  split <;> infer_instance

variable {x : Exec σ α} {f : α → Exec σ β} {E E' : String → Prop} {s : σ}
variable {a : α} {t : σ} {msg : String} {Q : α → σ → Prop}

theorem bind_of_ok (h : x s = .ok (a, t)) : (x >>= f) s = f a t := by
  show (match x s with | .ok (a, t) => f a t | .error msg => .error msg) = _
  rw [h]

theorem bind_of_error (h : x s = .error msg) : (x >>= f) s = .error msg := by
  show (match x s with | .ok (a, t) => f a t | .error msg => .error msg) = _
  rw [h]

theorem wp_of_eq (h : x s = .ok (a, t)) : wp x Q E s ↔ Q a t := by
  unfold wp
  rw [h]

@[simp] theorem wp_pure : wp (pure a) Q E s ↔ Q a s := .rfl

@[simp] theorem wp_panic : wp (Exec.panic msg) Q E s ↔ E msg := .rfl

@[simp] theorem wp_get {Q : σ → σ → Prop} : wp Exec.get Q E s ↔ Q s s := .rfl

@[simp] theorem wp_modify {Q : Unit → σ → Prop} {g : σ → σ} :
    wp (Exec.modify g) Q E s ↔ Q () (g s) := .rfl

@[simp] theorem wp_bind {Q : β → σ → Prop} :
    wp (x >>= f) Q E s ↔ wp x (fun a t => wp (f a) Q E t) E s := by
  show (match (match x s with | .ok (a, t) => f a t | .error msg => .error msg) with
    | .ok (b, t) => Q b t | .error msg => E msg) ↔ _
  unfold wp
  cases x s <;> rfl

/-- Consequence. -/
theorem wp.mono {Q' : α → σ → Prop} (h : wp x Q E s) (hQ : ∀ a t, Q a t → Q' a t)
    (hE : ∀ msg, E msg → E' msg) : wp x Q' E' s := by
  unfold wp at h ⊢
  split at h
  · exact hQ _ _ h
  · exact hE _ h

/-- The first routine by its specification, then the rest. -/
theorem wp.bind {R : α → σ → Prop} {Q : β → σ → Prop} (h : wp x R E' s)
    (hE : ∀ msg, E' msg → E msg) (hf : ∀ a t, R a t → wp (f a) Q E t) : wp (x >>= f) Q E s :=
  wp_bind.mpr (h.mono hf hE)

/-- The same when the panics are the same. -/
theorem wp.imp {Q' : α → σ → Prop} (h : wp x Q E s) (hQ : ∀ a t, Q a t → Q' a t) :
    wp x Q' E s := h.mono hQ fun _ => id

theorem wp.seq {R : α → σ → Prop} {Q : β → σ → Prop} (h : wp x R E s)
    (hf : ∀ a t, R a t → wp (f a) Q E t) : wp (x >>= f) Q E s :=
  wp_bind.mpr (h.imp hf)

section

variable (h : wp x Q E s)
include h

/-- The result is that of the routine. -/
theorem wp.with_eq : wp x (fun a t => Q a t ∧ x s = .ok (a, t)) E s := by
  unfold wp at h ⊢
  cases hx : x s with
  | ok p =>
    rw [hx] at h
    exact ⟨h, rfl⟩
  | error msg =>
    rw [hx] at h
    exact h

/-- Two specifications of one routine. -/
theorem wp.and {Q' : α → σ → Prop} {E' : String → Prop} (h' : wp x Q' E' s) :
    wp x (fun a t => Q a t ∧ Q' a t) (fun msg => E msg ∧ E' msg) s := by
  unfold wp at h h' ⊢
  cases hx : x s with
  | ok r | error msg =>
    rw [hx] at h h'
    exact ⟨h, h'⟩

/-- What a specification says of a result. -/
theorem wp.of_ok (hx : x s = .ok (a, t)) :
    Q a t := by
  unfold wp at h
  rwa [hx] at h

theorem wp.of_error (hx : x s = .error msg) :
    E msg := by
  unfold wp at h
  rwa [hx] at h

/-- A routine none of whose panics is possible returns. -/
theorem wp.returns (hE : ∀ msg, ¬ E msg) :
    ∃ a t, x s = .ok (a, t) ∧ Q a t := by
  unfold wp at h
  split at h
  · rename_i a t hx
    exact ⟨a, t, hx, h⟩
  · exact (hE _ h).elim

end

/-- A routine that cannot return panics. -/
theorem wp.panics (h : wp x (fun _ _ => False) (· = msg) s) : x s = .error msg := by
  unfold wp at h
  split at h
  · exact h.elim
  · rename_i hx
    rw [hx, h]

/-- A routine on one part of a larger state. -/
def zoom {τ : Type} (part : τ → σ) (put : τ → σ → τ) (x : Exec σ α) : Exec τ α := fun s =>
  match x (part s) with
  | .ok (a, t) => .ok (a, put s t)
  | .error msg => .error msg

@[simp] theorem wp_zoom {τ : Type} {part : τ → σ} {put : τ → σ → τ} {Q : α → τ → Prop} {s : τ} :
    wp (zoom part put x) Q E s ↔ wp x (fun a t => Q a (put s t)) E (part s) := by
  unfold wp zoom
  cases x (part s) <;> rfl

/-- `for (i = 0; i < n; i++) body(i)`. -/
def forUpTo : Nat → (Nat → Exec σ Unit) → Exec σ Unit
  | 0, _ => pure ()
  | n + 1, body => do
    forUpTo n body
    body n

theorem forUpTo_zero (body : Nat → Exec σ Unit) : forUpTo 0 body = pure () := rfl

theorem forUpTo_succ (n : Nat) (body : Nat → Exec σ Unit) :
    forUpTo (n + 1) body = forUpTo n body >>= fun _ => body n := rfl

/-- What holds after the first rounds. -/
theorem wp_forUpTo_count {I : Nat → σ → Prop} {n : Nat} {body : Nat → Exec σ Unit}
    (h : ∀ i t, i < n → I i t → wp (body i) (fun _ u => I (i + 1) u) E t) (hs : I 0 s) :
    wp (forUpTo n body) (fun _ t => I n t) E s := by
  induction n with
  | zero => exact hs
  | succ n ih =>
    rw [forUpTo_succ]
    refine (ih fun i t hi => h i t (Nat.lt_succ_of_lt hi)).bind (fun _ => id) fun _ t ht => ?_
    exact h n t (Nat.lt_succ_self n) ht

-- long loops must not be unrolled while a proof about them is elaborated
attribute [irreducible] forUpTo

end Exec

end Micro86
