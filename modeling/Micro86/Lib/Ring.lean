import Micro86.Lib.Update

/-!
# Ring buffers with free-running counters

A ring of `cap` cells holds the part of a stream between two counters.  The counters of a program
are words that wrap; they stand for the lengths of what was put in and taken out.

* `Ring` — the cells hold elements `taken, …, l.length - 1` of the stream `l`.
* `Ring.put`, `Ring.take` — one element in, one element out.
* `Ring.full_iff`, `Ring.empty_iff` — comparisons of wrapped counters decide the lengths.
* `window` — the elements in a number of cells from a position on.
-/

namespace Micro86

open Function

variable {α : Type}

/-- The cells `data` hold the elements of the stream `l` from `taken` on. -/
structure Ring (cap : Nat) (data : Nat → α) (l : List α) (taken : Nat) : Prop where
  le : taken ≤ l.length
  fits : l.length ≤ taken + cap
  cell : ∀ k, taken ≤ k → k < l.length → l[k]? = some (data (k % cap))

namespace Ring

variable {cap taken : Nat} {data : Nat → α} {l : List α} {x : α}

/-- Two positions less than a full turn apart are different cells. -/
theorem cell_ne {i j : Nat} (hij : i < j) (hcap : j < i + cap) : i % cap ≠ j % cap := by
  intro h
  have hmod : (j - i) % cap = 0 := by
    have := Nat.sub_mod_eq_zero_of_mod_eq h.symm
    exact this
  have hlt : j - i < cap := by omega
  rw [Nat.mod_eq_of_lt hlt] at hmod
  omega

variable (h : Ring cap data l taken)
include h

theorem put (hroom : l.length < taken + cap) :
    Ring cap (update data (l.length % cap) x) (l ++ [x]) taken := by
  have hlen : (l ++ [x]).length = l.length + 1 := by simp
  refine ⟨by rw [hlen]; exact Nat.le_succ_of_le h.le, by omega, fun k hk hkl => ?_⟩
  by_cases hlast : k = l.length
  · subst hlast
    rw [List.getElem?_concat_length, update_self]
  · have hkl' : k < l.length := by omega
    rw [List.getElem?_append_left hkl', update_of_ne (cell_ne hkl' (by omega)), h.cell k hk hkl']

theorem take (hmore : taken < l.length) :
    l[taken]? = some (data (taken % cap)) ∧ Ring cap data l (taken + 1) := by
  have hfits := h.fits
  exact ⟨h.cell taken (Nat.le_refl _) hmore, hmore,
    by omega, fun k hk hkl => h.cell k (by omega) hkl⟩

/-- Wrapped counters that differ by `cap` belong to a full ring. -/
theorem full_iff {m : Nat} (hm : cap < m) :
    l.length % m = (taken + cap) % m ↔ l.length = taken + cap := by
  have hle := h.le
  have hfits := h.fits
  refine ⟨fun heq => ?_, fun heq => by rw [heq]⟩
  by_contra hne
  have hmod : (taken + cap - l.length) % m = 0 := Nat.sub_mod_eq_zero_of_mod_eq heq.symm
  rw [Nat.mod_eq_of_lt (by omega)] at hmod
  omega

/-- Wrapped counters that agree belong to an empty ring. -/
theorem empty_iff {m : Nat} (hm : cap < m) : taken % m = l.length % m ↔ taken = l.length := by
  have hle := h.le
  have hfits := h.fits
  refine ⟨fun heq => ?_, fun heq => by rw [heq]⟩
  by_contra hne
  have hmod : (l.length - taken) % m = 0 := Nat.sub_mod_eq_zero_of_mod_eq heq.symm
  rw [Nat.mod_eq_of_lt (by omega)] at hmod
  omega

end Ring

/-! ## Windows -/

/-- The `n` elements from position `start` on. -/
def window (cap : Nat) (data : Nat → α) (start n : Nat) : List α :=
  (List.range n).map fun k => data ((start + k) % cap)

section

variable {cap start n m : Nat} {data : Nat → α} {x : α}

@[simp] theorem window_length : (window cap data start n).length = n := by
  simp [window]

@[simp] theorem window_zero : window cap data start 0 = [] := rfl

/-- Positions count modulo the number of cells. -/
theorem window_congr {start' : Nat} (h : start % cap = start' % cap) :
    window cap data start n = window cap data start' n := by
  unfold window
  refine List.map_congr_left fun k _ => ?_
  rw [Nat.add_mod, h, ← Nat.add_mod]

theorem window_add :
    window cap data start (n + m) = window cap data start n ++ window cap data (start + n) m := by
  simp [window, List.range_add, Nat.add_assoc]

theorem window_one : window cap data start 1 = [data (start % cap)] := rfl

theorem window_snoc : window cap data start (n + 1) = window cap data start n ++
    [data ((start + n) % cap)] := window_add

theorem window_cons :
    window cap data start (n + 1) = data (start % cap) :: window cap data (start + 1) n := by
  rw [Nat.add_comm, window_add, window_one, List.singleton_append]

/-- A cell outside a window is written. -/
theorem window_update {i : Nat} (h : ∀ k < n, (start + k) % cap ≠ i) :
    window cap (update data i x) start n = window cap data start n := by
  unfold window
  refine List.map_congr_left fun k hk => ?_
  rw [update_of_ne (h k (List.mem_range.mp hk))]

/-- The cell after a window is written. -/
theorem window_put (h : n < cap) : window cap (update data ((start + n) % cap) x) start (n + 1) =
    window cap data start n ++ [x] := by
  rw [window_snoc, update_self, window_update]
  intro k hk
  exact Ring.cell_ne (by omega) (by omega)

end

end Micro86
