import Micro86.Lib.Update

/-!
# Who owns which block

A table of references `ref : ι → Nat` (zero: no reference) and an allocation map
`used : Nat → Bool` over the blocks `[lo, hi)` are in step (`Owns`) when every reference is to a
used block of the range, no block is referenced twice, and every used block is referenced.

* `Owns.alloc` — a free block is marked used and stored in an empty entry.
* `Owns.release` — a set of entries is emptied and what they referenced is marked free.
-/

namespace Micro86

open Function

variable {ι : Type} [DecidableEq ι]

structure Owns (lo hi : Nat) (ref : ι → Nat) (used : Nat → Bool) : Prop where
  pos : 0 < lo
  range : ∀ x, ref x ≠ 0 → lo ≤ ref x ∧ ref x < hi
  marked : ∀ x, ref x ≠ 0 → used (ref x) = true
  unique : ∀ x y, ref x = ref y → ref x ≠ 0 → x = y
  referenced : ∀ b, lo ≤ b → b < hi → used b = true → ∃ x, ref x = b

namespace Owns

variable {lo hi : Nat} {ref : ι → Nat} {used : Nat → Bool}

omit [DecidableEq ι] in
/-- A free block is not referenced. -/
theorem ne_of_free (h : Owns lo hi ref used) {b : Nat} (hb : used b = false) {x : ι}
    (hx : ref x ≠ 0) : ref x ≠ b := by
  rintro rfl
  rw [h.marked x hx] at hb
  cases hb

theorem alloc (h : Owns lo hi ref used) {x : ι} {b : Nat} (hx : ref x = 0) (hb : used b = false)
    (hlo : lo ≤ b) (hhi : b < hi) :
    Owns lo hi (update ref x b) (update used b true) where
  pos := h.pos
  range y := update_cases y (fun _ => ⟨hlo, hhi⟩) fun _ => h.range y
  marked y := by
    refine update_cases y (fun _ => update_self ..) fun _ hy => ?_
    rw [update_of_ne (h.ne_of_free hb hy)]
    exact h.marked y hy
  unique y z hyz hy := by
    have hold : ∀ y z, ref y ≠ 0 → ref z ≠ 0 → ref y = ref z → y = z :=
      fun y z hy _ he => h.unique y z he hy
    exact unique_update (U := (· ≠ 0)) (k := id) hold (fun _ y _ => h.ne_of_free hb)
      y z hy (hyz ▸ hy) hyz
  referenced c hc hc' hu := by
    by_cases hcb : c = b
    · exact ⟨x, by rw [hcb, update_self]⟩
    rw [update_of_ne hcb] at hu
    obtain ⟨y, rfl⟩ := h.referenced c hc hc' hu
    have hyx : y ≠ x := by
      rintro rfl
      have := h.pos
      omega
    exact ⟨y, update_of_ne hyx _ _⟩

omit [DecidableEq ι] in
theorem release (h : Owns lo hi ref used) {ref' : ι → Nat} {used' : Nat → Bool} (X : ι → Prop)
    (hin : ∀ x, X x → ref' x = 0) (hout : ∀ x, ¬ X x → ref' x = ref x)
    (hused : ∀ b, lo ≤ b → b < hi → (used' b = true ↔ used b = true ∧ ∀ x, X x → ref x ≠ b)) :
    Owns lo hi ref' used' := by
  have hkeep : ∀ x, ref' x ≠ 0 → ¬ X x ∧ ref' x = ref x := fun x hx =>
    ⟨fun hX => hx (hin x hX), hout x fun hX => hx (hin x hX)⟩
  refine ⟨h.pos, fun x hx => ?_, fun x hx => ?_, fun x y hxy hx => ?_, fun b hb hb' hu => ?_⟩
  · obtain ⟨_, he⟩ := hkeep x hx
    rw [he] at hx ⊢
    exact h.range x hx
  · obtain ⟨hX, he⟩ := hkeep x hx
    rw [he] at hx ⊢
    obtain ⟨h1, h2⟩ := h.range x hx
    refine (hused _ h1 h2).mpr ⟨h.marked x hx, fun y hy hyx => hX ?_⟩
    exact h.unique y x hyx (by omega) ▸ hy
  · obtain ⟨_, hex⟩ := hkeep x hx
    obtain ⟨_, hey⟩ := hkeep y (by omega)
    exact h.unique x y (by omega) (by omega)
  · obtain ⟨hub, hno⟩ := (hused b hb hb').mp hu
    obtain ⟨x, hx⟩ := h.referenced b hb hb' hub
    exact ⟨x, by rw [hout x fun hX => hno x hX hx, hx]⟩

omit [DecidableEq ι] in
/-- The map outside the range and equal references do not matter. -/
theorem congr (h : Owns lo hi ref used) {ref' : ι → Nat} {used' : Nat → Bool}
    (href : ∀ x, ref' x = ref x) (hused : ∀ b, lo ≤ b → b < hi → used' b = used b) :
    Owns lo hi ref' used' :=
  h.release (fun _ => False) (fun _ hx => hx.elim) (fun x _ => href x)
    fun b hb hb' => by simp [hused b hb hb']

end Owns

/-- The number of free blocks below `hi`. -/
def freeCount (hi : Nat) (used : Nat → Bool) : Nat :=
  ((Finset.range hi).filter (used · = false)).card

theorem freeCount_alloc {hi b : Nat} {used : Nat → Bool} (hb : used b = false) (hhi : b < hi) :
    freeCount hi (update used b true) + 1 = freeCount hi used := by
  have hmem : b ∈ (Finset.range hi).filter (used · = false) := by simp [hb, hhi]
  have heq : (Finset.range hi).filter (update used b true · = false) =
      ((Finset.range hi).filter (used · = false)).erase b := by
    ext c
    by_cases hc : c = b
    · simp [hc]
    · simp [hc]
  rw [freeCount, freeCount, heq, Finset.card_erase_add_one hmem]

theorem freeCount_mono {hi : Nat} {used used' : Nat → Bool}
    (h : ∀ b, b < hi → used' b = true → used b = true) :
    freeCount hi used ≤ freeCount hi used' := by
  apply Finset.card_le_card
  intro b hb
  simp only [Finset.mem_filter, Finset.mem_range] at hb ⊢
  refine ⟨hb.1, ?_⟩
  cases hu : used' b with
  | false => rfl
  | true => rw [h b hb.1 hu] at hb; exact absurd hb.2 (by decide)

end Micro86
