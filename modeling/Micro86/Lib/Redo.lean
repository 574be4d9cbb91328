import Micro86.Lib.Update

/-!
# Sequences of writes to a store

A store is a function `α → β`; a write is a pair of an address and a value.  The facts here are
what the correctness of a redo log rests on: addresses outside a write sequence keep their
value, and repeating a whole sequence after any prefix of it has the effect of the sequence.
-/

namespace Micro86.Redo

open Function

variable {α β : Type} [DecidableEq α]

/-- Perform the writes in order. -/
def applyWrites (ws : List (α × β)) (d : α → β) : α → β :=
  ws.foldl (fun d w => update d w.1 w.2) d

@[simp] theorem applyWrites_nil (d : α → β) : applyWrites [] d = d := rfl

@[simp] theorem applyWrites_cons (w : α × β) (ws : List (α × β)) (d : α → β) :
    applyWrites (w :: ws) d = applyWrites ws (update d w.1 w.2) := rfl

theorem applyWrites_append (ws vs : List (α × β)) (d : α → β) :
    applyWrites (ws ++ vs) d = applyWrites vs (applyWrites ws d) := List.foldl_append ..

/-- An address that is not written keeps its value. -/
theorem applyWrites_of_notMem {ws : List (α × β)} {a : α} (h : a ∉ ws.map Prod.fst) (d : α → β) :
    applyWrites ws d a = d a := by
  induction ws generalizing d with
  | nil => rfl
  | cons w ws ih =>
    simp only [List.map_cons, List.mem_cons, not_or] at h
    rw [applyWrites_cons, ih h.2, update_of_ne h.1]

/-- A written address ends with the same value whatever the store was. -/
theorem applyWrites_congr {ws : List (α × β)} {a : α} {d e : α → β}
    (h : a ∈ ws.map Prod.fst ∨ d a = e a) : applyWrites ws d a = applyWrites ws e a := by
  induction ws generalizing d e with
  | nil =>
    rcases h with h | h
    · cases h
    · exact h
  | cons w ws ih =>
    rw [applyWrites_cons, applyWrites_cons]
    apply ih
    by_cases hw : a = w.1
    · right; subst hw; simp
    rcases h with h | h
    · rw [List.map_cons, List.mem_cons] at h
      exact .inl (h.resolve_left hw)
    · right; rw [update_of_ne hw, update_of_ne hw, h]

/-- With distinct addresses, each written address ends with its own value. -/
theorem applyWrites_of_mem {ws : List (α × β)} (hnd : (ws.map Prod.fst).Nodup) {w : α × β}
    (hw : w ∈ ws) (d : α → β) : applyWrites ws d w.1 = w.2 := by
  induction ws generalizing d with
  | nil => cases hw
  | cons v ws ih =>
    simp only [List.map_cons, List.nodup_cons] at hnd
    rcases List.mem_cons.mp hw with rfl | hw
    · rw [applyWrites_cons, applyWrites_of_notMem hnd.1, update_self]
    · exact ih hnd.2 hw _

/-- **Redo is idempotent**: after any prefix of the writes, doing them all again gives the
    effect of doing them all once. -/
theorem applyWrites_take_redo (ws : List (α × β)) (k : Nat) (d : α → β) :
    applyWrites ws (applyWrites (ws.take k) d) = applyWrites ws d := by
  funext a
  apply applyWrites_congr
  by_cases h : a ∈ ws.map Prod.fst
  · exact .inl h
  right
  apply applyWrites_of_notMem
  intro hm
  obtain ⟨w, hw, rfl⟩ := List.mem_map.mp hm
  exact h (List.mem_map.mpr ⟨w, List.mem_of_mem_take hw, rfl⟩)

end Micro86.Redo
