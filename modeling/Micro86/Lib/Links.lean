import Micro86.Lib.Update

/-!
# Linked lists through link cells

Nodes are of a type `α`.  A link function maps a place to the node its link cell points to; the
place `none` is the anchor of the list (a head pointer, or the sentinel of a circular list), and a
cell that holds `none` points nowhere, or back to the anchor.

* `Path next x l y` — following `next` from the place `x` visits `l` and then meets `y`.
* `Path.snoc`, `Path.cons`, `Path.splice`, `Path.pop` — insertion at either end, removal.
* `lastPlace`, `search` — the loops that walk a list.
* `Circle` — a doubly linked circular list.
-/

namespace Micro86

open Function

variable {α : Type}
variable {x : Option α} {a : α} {l : List α} {next : Option α → Option α} {fuel : Nat}

/-- Following `next` from `x` visits `l`, and the last cell holds `y`. -/
def Path (next : Option α → Option α) (x : Option α) : List α → Option α → Prop
  | [], y => next x = y
  | a :: l, y => next x = some a ∧ Path next (some a) l y

/-- The last place of a path. -/
def lastNode (x : Option α) : List α → Option α
  | [] => x
  | a :: l => lastNode (some a) l

/-- The first node of a list, or where it ends. -/
def headNode : List α → Option α → Option α
  | [], y => y
  | a :: _, _ => some a

theorem lastNode_append_singleton (x : Option α) (l : List α) (a : α) :
    lastNode x (l ++ [a]) = some a := by
  induction l generalizing x with
  | nil => rfl
  | cons b l ih => exact ih (some b)

theorem lastNode_reverse (l : List α) : lastNode none l.reverse = headNode l none := by
  cases l with
  | nil => rfl
  | cons a l => rw [List.reverse_cons, lastNode_append_singleton, headNode]

theorem lastNode_mem (x : Option α) (l : List α) :
    lastNode x l = x ∨ ∃ a ∈ l, lastNode x l = some a := by
  induction l generalizing x with
  | nil => exact .inl rfl
  | cons a l ih =>
    rcases ih (some a) with h | ⟨b, hb, h⟩
    · exact .inr ⟨a, .head _, h⟩
    · exact .inr ⟨b, List.mem_cons_of_mem a hb, h⟩

/-- A place that is not among the nodes of a list. -/
def Apart (x : Option α) (l : List α) : Prop := ∀ a ∈ l, x ≠ some a

theorem Apart.tail (h : Apart x (a :: l)) : Apart x l :=
  fun b hb => h b (List.mem_cons_of_mem a hb)

theorem apart_none (l : List α) : Apart none l := fun _ _ => Option.some_ne_none _ |>.symm

theorem apart_some : Apart (some a) l ↔ a ∉ l :=
  ⟨fun h ha => h a ha rfl, fun h _ hb hab => h (Option.some.inj hab ▸ hb)⟩

theorem lastNode_ne {z : Option α} (hx : z ≠ x) (hz : Apart z l) : z ≠ lastNode x l := by
  intro h
  rcases lastNode_mem x l with hl | ⟨a, ha, hl⟩
  · exact hx (h.trans hl)
  · exact hz a ha (h.trans hl)

namespace Path

variable {next next' : Option α → Option α} {x y : Option α} {l : List α}

/-- Only the cells of the path count. -/
theorem frame (h : Path next x l y) (hx : next' x = next x)
    (hl : ∀ a ∈ l, next' (some a) = next (some a)) : Path next' x l y := by
  induction l generalizing x with
  | nil => exact hx.trans h
  | cons a l ih =>
    exact ⟨hx.trans h.1,
      ih h.2 (hl a List.mem_cons_self) (fun b hb => hl b (List.mem_cons_of_mem a hb))⟩

theorem first (h : Path next x l y) : next x = headNode l y := by
  cases l with
  | nil => exact h
  | cons a l => exact h.1

/-- The cell of a node within a path. -/
theorem second {l₁ l₂ : List α} {a : α} (h : Path next x (l₁ ++ a :: l₂) y) :
    next (some a) = headNode l₂ y := by
  induction l₁ generalizing x with
  | nil => exact h.2.first
  | cons b l₁ ih => exact ih h.2

variable [DecidableEq α]

/-- The anchor is made to point to the second node. -/
theorem pop {a : α} (h : Path next none (a :: l) y) :
    Path (update next none (next (some a))) none l y := by
  cases l with
  | nil =>
    rw [Path, update_self]
    exact h.2
  | cons b l =>
    refine ⟨?_, h.2.2.frame (update_of_ne (Option.some_ne_none b) ..)
      (fun c _ => update_of_ne (Option.some_ne_none c) ..)⟩
    rw [update_self]
    exact h.2.1

/-- A new node after the anchor. -/
theorem cons (h : Path next none l y) {a : α} (ha : a ∉ l) :
    Path (update (update next (some a) (next none)) none (some a)) none (a :: l) y := by
  refine ⟨update_self .., ?_⟩
  have hcell : update (update next (some a) (next none)) none (some a) (some a) = next none := by
    rw [update_of_ne (Option.some_ne_none a), update_self]
  cases l with
  | nil => exact hcell.trans h
  | cons b l =>
    have hne : ∀ c ∈ b :: l,
        update (update next (some a) (next none)) none (some a) (some c) = next (some c) := by
      intro c hc
      rw [update_of_ne (Option.some_ne_none c), update_of_ne]
      exact fun he => ha (Option.some.inj he ▸ hc)
    exact ⟨hcell.trans h.1,
      h.2.frame (hne b List.mem_cons_self) (fun c hc => hne c (List.mem_cons_of_mem b hc))⟩

/-- A new node at the end: its own cell is set to `z`, the last cell of the path to the node. -/
theorem snoc (h : Path next x l y) {a : α} {z : Option α} (hnd : l.Nodup)
    (hx : Apart x l) (hxa : x ≠ some a) (ha : a ∉ l) :
    Path (update (update next (some a) z) (lastNode x l) (some a)) x (l ++ [a]) z := by
  induction l generalizing x with
  | nil =>
    refine ⟨update_self .., ?_⟩
    show update (update next (some a) z) x (some a) (some a) = z
    rw [update_of_ne (fun he => hxa he.symm), update_self]
  | cons b l ih =>
    obtain ⟨hbl, hnd⟩ := List.nodup_cons.mp hnd
    have hab : a ≠ b := fun he => ha (he ▸ .head _)
    refine ⟨?_, ih h.2 hnd (apart_some.mpr hbl) (fun he => hab (Option.some.inj he).symm)
      (fun hin => ha (List.mem_cons_of_mem b hin))⟩
    -- the cell of `x` is not the last one
    have hlast : x ≠ lastNode (some b) l := lastNode_ne (hx b List.mem_cons_self) hx.tail
    show update (update next (some a) z) (lastNode (some b) l) (some a) x = some b
    rw [update_of_ne hlast, update_of_ne hxa]
    exact h.1

/-- A node is bypassed: the cell before it takes the content of its own. -/
theorem splice {l₁ l₂ : List α} {a : α} (h : Path next x (l₁ ++ a :: l₂) y)
    (hnd : (l₁ ++ a :: l₂).Nodup)
    (hx : Apart x (l₁ ++ a :: l₂)) :
    Path (update next (lastNode x l₁) (next (some a))) x (l₁ ++ l₂) y := by
  induction l₁ generalizing x with
  | nil =>
    have hcell : update next x (next (some a)) x = next (some a) := update_self ..
    cases l₂ with
    | nil => exact hcell.trans h.2
    | cons b l₂ =>
      have hne :
          ∀ c ∈ b :: l₂, update next x (next (some a)) (some c) = next (some c) := fun c hc =>
        update_of_ne (fun he => hx c (List.mem_cons_of_mem a hc) he.symm) ..
      exact ⟨hcell.trans h.2.1,
        h.2.2.frame (hne b List.mem_cons_self) (fun c hc => hne c (List.mem_cons_of_mem b hc))⟩
  | cons b l₁ ih =>
    obtain ⟨hb, hnd⟩ := List.nodup_cons.mp hnd
    refine ⟨?_, ih h.2 hnd (apart_some.mpr hb)⟩
    have hapart :
        Apart x l₁ := fun c hc => hx c (List.mem_cons_of_mem b (List.mem_append_left _ hc))
    rw [lastNode, update_of_ne (lastNode_ne (hx b List.mem_cons_self) hapart)]
    exact h.1

end Path

/-! ## Walking a list -/

/-- `for (pp = x; *pp; pp = &(*pp)->next);` — the last place, within `fuel` steps. -/
def lastPlace (next : Option α → Option α) : Nat → Option α → Option α
  | 0, pp => pp
  | fuel + 1, pp =>
    match next pp with
    | none => pp
    | some a => lastPlace next fuel (some a)

theorem lastPlace_eq (h : Path next x l none)
    (hfuel : l.length ≤ fuel) : lastPlace next fuel x = lastNode x l := by
  induction l generalizing x fuel with
  | nil =>
    cases fuel with
    | zero => rfl
    | succ fuel =>
      rw [lastPlace, show next x = none from h]
      rfl
  | cons a l ih =>
    cases fuel with
    | zero => cases hfuel
    | succ fuel =>
      rw [lastPlace, h.1]
      exact ih h.2 (Nat.le_of_succ_le_succ hfuel)

/-- `for (b = start; b != anchor; b = b->next) if (p(b)) return b;`. -/
def search (next : Option α → Option α) (p : α → Bool) : Nat → Option α → Option α
  | 0, _ => none
  | _ + 1, none => none
  | fuel + 1, some a => if p a then some a else search next p fuel (next (some a))

theorem search_some {p : α → Bool} {start : Option α}
    (h : search next p fuel start = some a) : p a = true := by
  induction fuel generalizing start with
  | zero => cases h
  | succ fuel ih =>
    cases start with
    | none => cases h
    | some b =>
      rw [search] at h
      split at h
      · rename_i hb
        cases h
        exact hb
      · exact ih h

theorem search_eq {p : α → Bool}
    (h : Path next x l none) (hfuel : l.length ≤ fuel) :
    search next p fuel (next x) = l.find? p := by
  induction l generalizing x fuel with
  | nil =>
    rw [show next x = none from h]
    cases fuel <;> rfl
  | cons a l ih =>
    cases fuel with
    | zero => cases hfuel
    | succ fuel =>
      rw [h.1, search, List.find?_cons]
      cases p a with
      | true => rfl
      | false => exact ih h.2 (Nat.le_of_succ_le_succ hfuel)

/-! ## Circular lists -/

/-- A doubly linked circular list of the nodes `l`. -/
structure Circle (next prev : Option α → Option α) (l : List α) : Prop where
  forth : Path next none l none
  back : Path prev none l.reverse none
  nodup : l.Nodup

namespace Circle

variable [DecidableEq α] {next prev : Option α → Option α} {l : List α} {a : α}

/-- `a->next->prev = a->prev; a->prev->next = a->next;`. -/
theorem unlink (h : Circle next prev l) (ha : a ∈ l) :
    Circle (update next (prev (some a)) (next (some a)))
      (update prev (next (some a)) (prev (some a))) (l.erase a) := by
  obtain ⟨l₁, l₂, rfl⟩ := List.append_of_mem ha
  have hnotin : a ∉ l₁ := fun hin => (List.disjoint_of_nodup_append h.nodup) hin List.mem_cons_self
  have hrev : (l₁ ++ a :: l₂).reverse = l₂.reverse ++ a :: l₁.reverse := by simp
  have hback : Path prev none (l₂.reverse ++ a :: l₁.reverse) none := hrev ▸ h.back
  have hnd : (l₂.reverse ++ a :: l₁.reverse).Nodup := hrev ▸ List.nodup_reverse.mpr h.nodup
  have hnext : next (some a) = lastNode none l₂.reverse := by rw [lastNode_reverse, h.forth.second]
  have hprev : prev (some a) = lastNode none l₁ := by
    rw [hback.second, ← lastNode_reverse, List.reverse_reverse]
  rw [List.erase_append_right _ hnotin, List.erase_cons_head]
  refine ⟨?_, ?_, h.nodup.sublist (List.Sublist.append_left (List.sublist_cons_self a l₂) l₁)⟩
  · rw [hprev]
    exact h.forth.splice h.nodup (apart_none _)
  · rw [hnext, List.reverse_append]
    exact hback.splice hnd (apart_none _)

/-- `a->next = anchor.next; a->prev = &anchor; anchor.next->prev = a; anchor.next = a;`. -/
theorem insert (h : Circle next prev l) (ha : a ∉ l) :
    Circle (update (update next (some a) (next none)) none (some a))
      (update (update prev (some a) none) (next none) (some a)) (a :: l) := by
  refine ⟨h.forth.cons ha, ?_, List.nodup_cons.mpr ⟨ha, h.nodup⟩⟩
  have hlast : next none = lastNode none l.reverse := by rw [lastNode_reverse, h.forth.first]
  rw [hlast, List.reverse_cons]
  exact h.back.snoc (List.nodup_reverse.mpr h.nodup) (apart_none _) (Option.some_ne_none a).symm
    (fun hin => ha (List.mem_reverse.mp hin))

end Circle

end Micro86
