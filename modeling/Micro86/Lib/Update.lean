import Mathlib

/-!
# One entry of a map is replaced

* `update_cases` — what holds of the new value and of the other entries holds of the new map.
* `unique_update` — no two entries in use get the same key.
-/

namespace Micro86

open Function

variable {α β γ : Type} [DecidableEq α] {f : α → β} {a : α} {v : β}

@[elab_as_elim] theorem update_cases {motive : α → β → Prop}
    (x : α) (self : motive a v) (of_ne : x ≠ a → motive x (f x)) : motive x (update f a v x) := by
  by_cases hx : x = a
  · rw [hx, update_self]
    exact self
  · rw [update_of_ne hx]
    exact of_ne hx

theorem unique_update {U : β → Prop} {k : β → γ}
    (h : ∀ x y, U (f x) → U (f y) → k (f x) = k (f y) → x = y)
    (hv : U v → ∀ x, x ≠ a → U (f x) → k (f x) ≠ k v) (x y : α) :
    U (update f a v x) → U (update f a v y) → k (update f a v x) = k (update f a v y) → x = y := by
  refine update_cases x (fun hx => ?_) fun hxa hx => ?_
  · refine update_cases y (fun _ _ => rfl) fun hya hy he => ?_
    exact absurd he.symm (hv hx y hya hy)
  · refine update_cases y (fun hy he => ?_) fun _ => h x y hx
    exact absurd he (hv hy x hxa hx)

end Micro86
