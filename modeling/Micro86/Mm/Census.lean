import Micro86.Lib.Counting
import Micro86.Mm.Vm

/-!
# Where the pages are

Every page the allocator gave out for a table is on the list of free pages, or is the directory, a
table, or a page of the user part.
-/

namespace Micro86.Vm

open Mm (PGSIZE NPDENTRIES NPTENTRIES KERNBASE PDX PTX Pte)
open Function

def KPAGE : Nat := KERNBASE / PGSIZE

def one : Option Nat → Multiset Nat
  | some f => {f}
  | none => 0

@[simp] theorem one_some (f : Nat) : one (some f) = {f} := rfl

@[simp] theorem one_none : one none = 0 := rfl

def PageDir.tabFrames (d : PageDir) : Multiset Nat :=
  ∑ i ∈ Finset.range NPDENTRIES, one ((d i).map PageTab.frame)

def PageDir.userFrames (d : PageDir) : Multiset Nat :=
  ∑ x ∈ Finset.range KPAGE, one ((d.entry x).map Pte.frame)

-- sums over a whole table must not be evaluated
attribute [irreducible] PageDir.tabFrames PageDir.userFrames

namespace Mem

/-- Pages that are free or part of the table. -/
def core (m : Mem) : Multiset Nat := m.freelist + m.root ::ₘ m.pgdir.tabFrames

def census (m : Mem) : Multiset Nat := m.core + m.pgdir.userFrames

end Mem

def Store.In (C : Multiset Nat) : Store → Prop
  | .fill f _ => f ∈ C
  | .data pa bytes => pa / PGSIZE ∈ C ∧ pa % PGSIZE + bytes.length ≤ PGSIZE

/-- From `m` to `m'`, stores were made to pages of `C` only. -/
def Mem.StoresIn (C : Multiset Nat) (m m' : Mem) : Prop :=
  ∃ l, m'.stores = l ++ m.stores ∧ ∀ st ∈ l, st.In C

/-- From `m` to `m'`, pages have changed their place only, and stores were made to them only. -/
structure Mem.Same (m m' : Mem) : Prop where
  census : m'.census = m.census
  stores : m.StoresIn m.census m'

section

variable {m m' m'' : Mem} {C C' : Multiset Nat} {f x i : Nat}
  {fs : List Nat} {e : Pte} {t : PageTab}
variable {d : PageDir}

theorem Store.In.mono {st : Store} (h : st.In C) (hle : C ⊆ C') : st.In C' := by
  cases st with
  | fill f b => exact hle h
  | data pa bytes => exact ⟨hle h.1, h.2⟩

theorem Mem.StoresIn.refl (C : Multiset Nat) (m : Mem) :
    m.StoresIn C m := ⟨[], rfl, fun _ h => absurd h List.not_mem_nil⟩

theorem Mem.StoresIn.of_eq (h : m'.stores = m.stores) :
    m.StoresIn C m' := ⟨[], h, fun _ h => absurd h List.not_mem_nil⟩

theorem Mem.StoresIn.mono (h : m.StoresIn C m') (hle : C ⊆ C') : m.StoresIn C' m' := by
  obtain ⟨l, hl, hin⟩ := h
  exact ⟨l, hl, fun st hst => (hin st hst).mono hle⟩

theorem Mem.StoresIn.trans (h : m.StoresIn C m') (h' : m'.StoresIn C m'') : m.StoresIn C m'' := by
  obtain ⟨l, hl, hin⟩ := h
  obtain ⟨l', hl', hin'⟩ := h'
  refine ⟨l' ++ l, by rw [hl', hl, List.append_assoc], fun st hst => ?_⟩
  rcases List.mem_append.mp hst with hst | hst
  · exact hin' st hst
  · exact hin st hst

theorem Mem.StoresIn.memset {b : UInt8} (hf : f ∈ C) (h : m'.stores = .fill f b :: m.stores) :
    m.StoresIn C m' := by
  refine ⟨[.fill f b], h, fun st hst => ?_⟩
  rw [List.mem_singleton.mp hst]
  exact hf

theorem Mem.Same.refl (m : Mem) : m.Same m := ⟨rfl, .refl _ m⟩

theorem Mem.Same.trans (h : m.Same m') (h' : m'.Same m'') : m.Same m'' :=
  ⟨h'.census.trans h.census, h.stores.trans (h.census ▸ h'.stores)⟩

theorem core_subset (m : Mem) : m.core ⊆ m.census :=
  Multiset.subset_of_le (Multiset.le_add_right _ _)

theorem mem_core_of_free (h : f ∈ m.freelist) :
    f ∈ m.core := Multiset.mem_add.mpr (.inl (Multiset.mem_coe.mpr h))

theorem root_mem_core (m : Mem) :
    m.root ∈ m.core := Multiset.mem_add.mpr (.inr (Multiset.mem_cons_self _ _))

/-! ## Pages move -/

theorem core_take (h : m.freelist = f :: fs) :
    m.core = f ::ₘ Mem.core { m with freelist := fs } := by
  unfold Mem.core
  rw [h, ← Multiset.cons_coe, Multiset.cons_add]

theorem core_put (m : Mem) (f : Nat) : (m.put f).core = f ::ₘ m.core := by
  unfold Mem.core Mem.put Mem.memset
  rw [← Multiset.cons_coe, Multiset.cons_add]

theorem tabFrames_update (hi : i < NPDENTRIES) (hnone : m.pgdir i = none) (t : PageTab) :
    PageDir.tabFrames (update m.pgdir i (some t)) = t.frame ::ₘ m.pgdir.tabFrames := by
  have hsum := sum_update (Finset.mem_range.mpr hi) m.pgdir (some t) fun o =>
      one (o.map PageTab.frame)
  rw [hnone] at hsum
  unfold PageDir.tabFrames
  rw [← Multiset.singleton_add, add_comm]
  exact (add_zero _).symm.trans hsum

theorem tabFrames_eq (d : PageDir) :
    d.tabFrames = ∑ i ∈ Finset.range NPDENTRIES, one ((d i).map PageTab.frame) := by
  unfold PageDir.tabFrames
  rfl

theorem mem_tabFrames (hi : i < NPDENTRIES) (h : d i = some t) : t.frame ∈ d.tabFrames := by
  rw [tabFrames_eq, Multiset.mem_sum]
  refine ⟨i, Finset.mem_range.mpr hi, ?_⟩
  rw [h]
  exact Multiset.mem_singleton_self t.frame

theorem tabFrames_setPte (m : Mem) (va : Nat) (e : Pte) :
    (m.setPte va e).pgdir.tabFrames = m.pgdir.tabFrames := by
  unfold PageDir.tabFrames
  refine Finset.sum_congr rfl fun i _ => ?_
  by_cases hi : i = PDX va
  · subst hi
    simp only [Mem.setPte, update_self, Option.map_map]
    rfl
  · simp [Mem.setPte, update_of_ne hi]

theorem core_setPte (m : Mem) (va : Nat) (e : Pte) : (m.setPte va e).core = m.core := by
  unfold Mem.core
  rw [tabFrames_setPte]
  rfl

/-! ## The user part -/

theorem userFrames_congr {d' : PageDir} (h : ∀ y < KPAGE, d'.entry y = d.entry y) :
    d'.userFrames = d.userFrames := by
  unfold PageDir.userFrames
  exact Finset.sum_congr rfl fun y hy => by rw [h y (Finset.mem_range.mp hy)]

theorem userFrames_zero (h : ∀ y < KPAGE, d.entry y = none) : d.userFrames = 0 := by
  unfold PageDir.userFrames
  exact Finset.sum_eq_zero fun y hy => by rw [h y (Finset.mem_range.mp hy)]; rfl

theorem userFrames_update (d d' : PageDir) (hx : x < KPAGE)
    (h : ∀ y, y ≠ x → d'.entry y = d.entry y) :
    d'.userFrames + one ((d.entry x).map Pte.frame) = d.userFrames +
      one ((d'.entry x).map Pte.frame) := by
  have hentry : d'.entry = update d.entry x (d'.entry x) := by
    funext y
    refine update_cases y ?_ fun hy => ?_
    · rfl
    · rw [h y hy]
  have hsum := sum_update (Finset.mem_range.mpr hx) d.entry (d'.entry x) fun o =>
      one (o.map Pte.frame)
  rw [← hentry] at hsum
  unfold PageDir.userFrames
  exact hsum

theorem mem_userFrames (hx : x < KPAGE) (h : d.entry x = some e) : e.frame ∈ d.userFrames := by
  unfold PageDir.userFrames
  rw [Multiset.mem_sum]
  refine ⟨x, Finset.mem_range.mpr hx, ?_⟩
  rw [h]
  exact Multiset.mem_singleton_self e.frame

theorem mem_census_of_entry (hx : x < KPAGE) (h : m.pgdir.entry x = some e) : e.frame ∈ m.census :=
  Multiset.mem_add.mpr (.inr (mem_userFrames hx h))

theorem census_congr (hcore : m'.core = m.core)
    (hentry : ∀ y < KPAGE, m'.pgdir.entry y = m.pgdir.entry y) : m'.census = m.census := by
  unfold Mem.census
  rw [hcore, userFrames_congr hentry]

/-! ## How many -/

theorem card_one_le (o : Option Nat) : (one o).card ≤ 1 := by
  cases o with
  | none => exact Nat.zero_le 1
  | some f => exact (Multiset.card_singleton f).le

theorem tabFrames_card (d : PageDir) : d.tabFrames.card ≤ NPDENTRIES := by
  rw [tabFrames_eq, Multiset.card_sum]
  calc ∑ i ∈ Finset.range NPDENTRIES, (one ((d i).map PageTab.frame)).card ≤
      ∑ i ∈ Finset.range NPDENTRIES, 1 := Finset.sum_le_sum fun i _ => card_one_le _
    _ = NPDENTRIES := by rw [← Finset.card_eq_sum_ones, Finset.card_range]

theorem userFrames_card {n : Nat} (h : ∀ y, n ≤ y → y < KPAGE → d.entry y = none) :
    d.userFrames.card ≤ n := by
  have hsum : d.userFrames.card = ∑ y ∈ Finset.range KPAGE,
      (one ((d.entry y).map Pte.frame)).card := by
    unfold PageDir.userFrames
    rw [Multiset.card_sum]
  have hle : ∀ y ∈ Finset.range KPAGE,
      (one ((d.entry y).map Pte.frame)).card ≤ if y ∈ Finset.range n then 1 else 0 := by
    intro y hy
    by_cases hyn : y ∈ Finset.range n
    · rw [if_pos hyn]
      exact card_one_le _
    · rw [h y (Nat.not_lt.mp fun hlt => hyn (Finset.mem_range.mpr hlt)) (Finset.mem_range.mp hy)]
      exact Nat.zero_le _
  calc d.userFrames.card = ∑ y ∈ Finset.range KPAGE, (one ((d.entry y).map Pte.frame)).card := hsum
    _ ≤ ∑ y ∈ Finset.range KPAGE, if y ∈ Finset.range n then 1 else 0 := Finset.sum_le_sum hle
    _ = (Finset.range KPAGE ∩ Finset.range n).card := by
      rw [Finset.sum_ite_mem, Finset.card_eq_sum_ones]
    _ ≤ (Finset.range n).card := Finset.card_le_card Finset.inter_subset_right
    _ = n := Finset.card_range n

theorem census_card {n : Nat} (h : ∀ y, n ≤ y → y < KPAGE → m.pgdir.entry y = none) :
    m.census.card ≤ m.freelist.length + 1 + NPDENTRIES + n := by
  have htabs := tabFrames_card m.pgdir
  have husers := userFrames_card h
  unfold Mem.census Mem.core
  rw [Multiset.card_add, Multiset.card_add, Multiset.card_cons, Multiset.coe_card]
  omega

theorem entry_inj {y : Nat} {e' : Pte} (hnodup : d.userFrames.Nodup)
    (hx : x < KPAGE) (hy : y < KPAGE) (he : d.entry x = some e) (he' : d.entry y = some e')
    (h : e.frame = e'.frame) : x = y := by
  by_contra hne
  have hpair : ∑ z ∈ ({x, y} : Finset Nat), one ((d.entry z).map Pte.frame) ≤ d.userFrames := by
    unfold PageDir.userFrames
    refine Finset.sum_le_sum_of_subset fun z hz => ?_
    rcases Finset.mem_insert.mp hz with rfl | hz
    · exact Finset.mem_range.mpr hx
    · rw [Finset.mem_singleton.mp hz]
      exact Finset.mem_range.mpr hy
  rw [Finset.sum_pair hne, he, he', Option.map_some, Option.map_some,
    one_some, one_some, h, Multiset.singleton_add] at hpair
  exact (Multiset.nodup_cons.mp (Multiset.nodup_of_le hpair hnodup)).1
    (Multiset.mem_singleton_self _)

end

end Micro86.Vm
