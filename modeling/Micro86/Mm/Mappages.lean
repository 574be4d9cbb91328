import Micro86.Mm.Census

/-!
# Mapping pages

* `mapLoop_spec`, `mappages_spec` — pages that are not mapped are mapped, as long as there is memory
  for tables.
-/

namespace Micro86.Vm

open Exec Function
open Mm (PGSIZE NPDENTRIES NPTENTRIES KERNBASE DEVSPACE PDX PTX PGROUNDDOWN Pte)

section

variable {m m' m'' : Mem} {x y : Nat} {e : Pte} {t : PageTab}

/-- Every page that is free or part of the table has `P`. -/
structure Mem.Owned (P : Nat → Prop) (m : Mem) : Prop where
  free : ∀ f ∈ m.freelist, P f
  root : P m.root
  tables : ∀ i t, m.pgdir i = some t → P t.frame

/-- There are pages for all tables of `D` that are missing. -/
def Mem.Enough (D : Finset Nat) (m : Mem) : Prop :=
  (D.filter fun i => m.pgdir i = none).card ≤ m.freelist.length

/-- What `walkpgdir` may do: a table for directory entry `i`, of a free page. -/
structure Mem.Grown (i : Nat) (m m' : Mem) : Prop where
  entry : ∀ y, m'.pgdir.entry y = m.pgdir.entry y
  writes : m'.writes = m.writes
  root : m'.root = m.root
  free : m'.freelist <:+ m.freelist
  owned : ∀ P, m.Owned P → m'.Owned P
  enough : ∀ D, i ∈ D → m.Enough D → m'.Enough D
  core : m'.core = m.core
  stores : m.StoresIn m.core m'

theorem Mem.Grown.refl (i : Nat) (m : Mem) : Mem.Grown i m m :=
  ⟨fun _ => rfl, rfl, rfl, List.suffix_refl _, fun _ => id, fun _ _ => id, rfl, .refl _ m⟩

theorem grown_table {f : Nat} {fs : List Nat} {i : Nat} (hfree : m.freelist = f :: fs)
    (hnone : m.pgdir i = none) (hi : i < NPDENTRIES) :
    Mem.Grown i m { m.memset f 0 with
      freelist := fs, pgdir := update m.pgdir i (some ⟨f, fun _ => noPte⟩) } := by
  have hf : f ∈ m.freelist := by
    rw [hfree]
    exact .head _
  refine ⟨fun y => ?_, rfl, rfl, ?_, fun P hP => ⟨fun g hg => ?_, hP.root, fun j t ht => ?_⟩,
    fun D hi he => ?_, ?_, .memset (mem_core_of_free hf) rfl⟩
  · unfold PageDir.entry
    by_cases hy : y / NPTENTRIES = i
    · simp only [hy, update_self, hnone]
      rfl
    · simp [update_of_ne hy]
  · rw [hfree]
    exact List.suffix_cons f fs
  · exact hP.free g (by rw [hfree]; exact .tail _ hg)
  · by_cases hj : j = i
    · rw [hj] at ht
      simp only [update_self, Option.some.injEq] at ht
      rw [← ht]
      exact hP.free f hf
    · simp only [update_of_ne hj] at ht
      exact hP.tables j t ht
  · -- one table fewer is missing, and one page fewer is free
    unfold Mem.Enough at he ⊢
    have herase : (D.filter fun j => update m.pgdir i (some ⟨f, fun _ => noPte⟩) j = none) =
        (D.filter fun j => m.pgdir j = none).erase i := by
      ext j
      simp only [Finset.mem_erase]
      by_cases hj : j = i
      · subst hj
        simp
      · simp [hj]
    have hmem : i ∈ D.filter fun j => m.pgdir j = none := Finset.mem_filter.mpr ⟨hi, hnone⟩
    rw [hfree, List.length_cons] at he
    rw [herase, Finset.card_erase_of_mem hmem]
    exact Nat.sub_le_of_le_add he
  · rw [core_take hfree]
    unfold Mem.core
    rw [tabFrames_update hi hnone, Multiset.cons_swap, Multiset.add_cons]
    rfl

theorem dir_lt (hx : x < NPAGES) : x / NPTENTRIES < NPDENTRIES := by
  simp only [NPAGES, NPTENTRIES, NPDENTRIES] at *
  omega

theorem wp_walkpgdir_alloc (hx : x < NPAGES) :
    wp (walkpgdir (x * PGSIZE) true) (fun r m' => m.Grown (x / NPTENTRIES) m' ∧
      match r with
      | none => (∀ D, x / NPTENTRIES ∈ D → ¬ m.Enough D) ∧ m.pgdir (x / NPTENTRIES) = none
      | some e => ∃ t, m'.pgdir (x / NPTENTRIES) = some t ∧
          e = t.ptes (x % NPTENTRIES)) (fun _ => False) m := by
  unfold walkpgdir
  rw [wp_bind, wp_get, PDX_page hx, PTX_page]
  cases htab : m.pgdir (x / NPTENTRIES) with
  | some t => exact ⟨.refl _ m, t, htab, rfl⟩
  | none =>
    show wp (kalloc >>= _) _ _ m
    rw [wp_bind]
    unfold wp kalloc
    cases hfree : m.freelist with
    | nil =>
      refine ⟨.refl _ m, fun D hD he => ?_, rfl⟩
      have hmem : x / NPTENTRIES ∈ D.filter fun i => m.pgdir i = none :=
        Finset.mem_filter.mpr ⟨hD, htab⟩
      have hpos := Finset.card_pos.mpr ⟨_, hmem⟩
      unfold Mem.Enough at he
      rw [hfree] at he
      exact absurd he hpos.not_ge
    | cons f fs =>
      exact ⟨grown_table hfree htab (dir_lt hx), _, update_self .., rfl⟩

theorem wp_walkpgdir {Q : Option Pte → Mem → Prop} {E : String → Prop} (hx : x < NPAGES)
    (h : Q ((m.pgdir (x / NPTENTRIES)).map fun t => t.ptes (x % NPTENTRIES)) m) :
    wp (walkpgdir (x * PGSIZE) false) Q E m := by
  unfold walkpgdir
  rw [wp_bind, wp_get, PDX_page hx, PTX_page]
  cases htab : m.pgdir (x / NPTENTRIES) with
  | some t | none =>
    rw [htab] at h
    exact h

theorem owned_setPte {P : Nat → Prop} (h : m.Owned P) (va : Nat) : (m.setPte va e).Owned P := by
  refine ⟨h.free, h.root, fun i t ht => ?_⟩
  by_cases hi : i = PDX va
  · subst hi
    simp only [Mem.setPte, update_self, Option.map_eq_some_iff] at ht
    obtain ⟨t', ht', rfl⟩ := ht
    exact h.tables _ t' ht'
  · simp only [Mem.setPte, update_of_ne hi] at ht
    exact h.tables i t ht

theorem isSome_setPte (m : Mem) (va : Nat) (e : Pte) (i : Nat) :
    ((m.setPte va e).pgdir i).isSome = (m.pgdir i).isSome := by
  by_cases hi : i = PDX va
  · subst hi
    simp [Mem.setPte]
  · simp [Mem.setPte, update_of_ne hi]

theorem enough_setPte (D : Finset Nat) (va : Nat) : (m.setPte va e).Enough D ↔ m.Enough D := by
  have hnone : ∀ i, (m.setPte va e).pgdir i = none ↔ m.pgdir i = none := by
    intro i
    rw [← Option.isNone_iff_eq_none, ← Option.isNone_iff_eq_none,
      ← Option.not_isSome, ← Option.not_isSome, isSome_setPte]
  unfold Mem.Enough
  simp only [hnone]
  rfl

/-! ## `mappages` -/

def pageAt (x j : Nat) : Nat := (x + j) % NPAGES

theorem pageAt_lt (x j : Nat) : pageAt x j < NPAGES := Nat.mod_lt _ (by decide)

theorem pageAt_zero (hx : x < NPAGES) : pageAt x 0 = x := Nat.mod_eq_of_lt hx

theorem pageAt_succ (x j : Nat) : pageAt (pageAt x 1) j = pageAt x (j + 1) := by
  simp only [pageAt, NPAGES]
  omega

theorem pageAt_ne {j : Nat} (hj : 0 < j) (hj' : j < NPAGES) : pageAt x j ≠ x := by
  simp only [pageAt, NPAGES] at *
  omega

theorem pageAt_next (x : Nat) : (x * PGSIZE + PGSIZE) % 2 ^ 32 = pageAt x 1 * PGSIZE := by
  simp only [pageAt, NPAGES, PGSIZE]
  omega

/-- Of `n + 1` pages from page `x` on, the first `k` have been mapped. -/
structure Mapped (m m' : Mem) (x n pa : Nat) (perm : Perm) (k : Nat) : Prop where
  outside : ∀ y, (∀ j ≤ n, y ≠ pageAt x j) → m'.pgdir.entry y = m.pgdir.entry y
  mapped :
    ∀ j ≤ n, j < k → m'.pgdir.entry (pageAt x j) = some (perm.pte ((pa + j * PGSIZE) % 2 ^ 32))
  fresh : ∀ j ≤ n, k ≤ j → m'.pgdir.entry (pageAt x j) = none
  writes : ∀ w ∈ m'.writes, w ∈ m.writes ∨ ∃ j ≤ n, w = pageAt x j * PGSIZE
  root : m'.root = m.root
  free : m'.freelist <:+ m.freelist
  owned : ∀ P, m.Owned P → m'.Owned P
  enough : ∀ D, (∀ j ≤ n, pageAt x j / NPTENTRIES ∈ D) → m.Enough D → m'.Enough D
  core : m'.core = m.core
  stores : m.StoresIn m.core m'

section

variable {perm : Perm} {n pa k : Nat}

theorem Mem.Grown.mapped (h : m.Grown (x / NPTENTRIES) m') (hx : x < NPAGES)
    (hfresh : ∀ j ≤ n, m.pgdir.entry (pageAt x j) = none) : Mapped m m' x n pa perm 0 := by
  refine ⟨fun y _ => h.entry y, fun j _ hj => absurd hj (Nat.not_lt_zero j), fun j hj _ => ?_,
    fun w hw => ?_, h.root, h.free, h.owned, fun D hD => h.enough D ?_, h.core, h.stores⟩
  · rw [h.entry]
    exact hfresh j hj
  · rw [h.writes] at hw
    exact .inl hw
  · exact pageAt_zero hx ▸ hD 0 (Nat.zero_le n)

theorem Mem.Grown.mappedOne (h : m.Grown (x / NPTENTRIES) m')
    (hx : x < NPAGES) (hpa : pa < 2 ^ 32) (ht : m'.pgdir (x / NPTENTRIES) = some t) :
    Mapped m (m'.setPte (x * PGSIZE) (perm.pte pa)) x 0 pa perm 1 := by
  have hentry : ∀ y, (m'.setPte (x * PGSIZE) (perm.pte pa)).pgdir.entry y = if y = x then
      some (perm.pte pa) else m.pgdir.entry y := by
    intro y
    rw [entry_setPte hx ht, h.entry]
    rfl
  refine ⟨fun y hy => ?_, fun j hj _ => ?_, fun j hj hk => ?_,
    fun w hw => ?_, h.root, h.free, fun P hP => owned_setPte (h.owned P hP) _,
    fun D hD he => (enough_setPte D _).mpr (h.enough D (pageAt_zero hx ▸ hD 0 (Nat.le_refl 0)) he),
      (core_setPte m' _ _).trans h.core, h.stores⟩
  · have hyx : y ≠ x := by
      have := hy 0 (Nat.le_refl 0)
      rwa [pageAt_zero hx] at this
    rw [hentry, if_neg hyx]
  · obtain rfl : j = 0 := Nat.le_zero.mp hj
    rw [pageAt_zero hx, hentry, if_pos rfl, Nat.zero_mul, Nat.add_zero, Nat.mod_eq_of_lt hpa]
  · omega
  · rcases List.mem_cons.mp hw with rfl | hw
    · exact .inr ⟨0, Nat.le_refl 0, by rw [pageAt_zero hx]⟩
    · rw [h.writes] at hw
      exact .inl hw

theorem Mapped.cons (h : Mapped m m' x 0 pa perm 1)
    (h' : Mapped m' m'' (pageAt x 1) n ((pa + PGSIZE) % 2 ^ 32) perm k) (hx : x < NPAGES)
    (hn : n + 1 < NPAGES) : Mapped m m'' x (n + 1) pa perm (k + 1) := by
  have hne : ∀ j ≤ n, x ≠ pageAt (pageAt x 1) j := by
    intro j hj heq
    rw [pageAt_succ] at heq
    exact pageAt_ne (Nat.succ_pos j) (by omega) heq.symm
  have hsplit : ∀ j ≤ n + 1, j = 0 ∨ ∃ i ≤ n, j = i + 1 := by
    intro j hj
    cases j with
    | zero => exact .inl rfl
    | succ i => exact .inr ⟨i, Nat.le_of_succ_le_succ hj, rfl⟩
  have hfirst : m''.pgdir.entry x = some (perm.pte (pa % 2 ^ 32)) := by
    rw [h'.outside x hne]
    have := h.mapped 0 (Nat.le_refl 0) Nat.one_pos
    rwa [pageAt_zero hx, Nat.zero_mul, Nat.add_zero] at this
  refine ⟨fun y hy => ?_, fun j hj hk => ?_, fun j hj hk => ?_,
    fun w hw => ?_, h'.root.trans h.root, h'.free.trans h.free,
    fun P hP => h'.owned P (h.owned P hP), fun D hD he =>
      h'.enough D (fun j hj => ?_) (h.enough D (fun j hj => hD j (by omega)) he),
    h'.core.trans h.core, h.stores.trans (h.core ▸ h'.stores)⟩
  · rw [h'.outside y fun j hj => ?_, h.outside y fun j hj => ?_]
    · obtain rfl : j = 0 := Nat.le_zero.mp hj
      exact hy 0 (Nat.zero_le _)
    · rw [pageAt_succ]
      exact hy (j + 1) (Nat.succ_le_succ hj)
  · rcases hsplit j hj with rfl | ⟨i, hi, rfl⟩
    · rw [pageAt_zero hx, hfirst, Nat.zero_mul, Nat.add_zero]
    have hpa :
        ((pa + PGSIZE) % 2 ^ 32 + i * PGSIZE) % 2 ^ 32 = (pa + (i + 1) * PGSIZE) % 2 ^ 32 := by
      rw [Nat.mod_add_mod, Nat.add_assoc, Nat.succ_mul, Nat.add_comm PGSIZE]
    rw [← pageAt_succ, h'.mapped i hi (Nat.lt_of_succ_lt_succ hk), hpa]
  · rcases hsplit j hj with rfl | ⟨i, hi, rfl⟩
    · omega
    · rw [← pageAt_succ]
      exact h'.fresh i hi (Nat.le_of_succ_le_succ hk)
  · rcases h'.writes w hw with hw | ⟨j, hj, rfl⟩
    · rcases h.writes w hw with hw | ⟨j, hj, rfl⟩
      · exact .inl hw
      · exact .inr ⟨j, by omega, rfl⟩
    · exact .inr ⟨j + 1, Nat.succ_le_succ hj, by rw [pageAt_succ]⟩
  · rw [pageAt_succ]
    exact hD (j + 1) (Nat.succ_le_succ hj)

theorem wp_mapLoop_succ {fuel last : Nat} {Q : Bool → Mem → Prop}
    {E : String → Prop} (hx : x < NPAGES) (hpa : pa < 2 ^ 32)
    (hfresh : m.pgdir.entry x = none) (hnomem : ∀ m', m.Grown (x / NPTENTRIES) m' →
      (∀ D, x / NPTENTRIES ∈ D → ¬ m.Enough D) → Q false m')
    (hnext : ∀ m', Mapped m m' x 0 pa perm 1 →
      wp (if x * PGSIZE = last then pure true
        else mapLoop perm fuel (pageAt x 1 * PGSIZE) last ((pa + PGSIZE) % 2 ^ 32)) Q E m') :
    wp (mapLoop perm (fuel + 1) (x * PGSIZE) last pa) Q E m := by
  unfold mapLoop
  refine (wp_walkpgdir_alloc hx).bind (fun _ h => h.elim) fun r m' hr => ?_
  cases r with
  | none => exact hnomem m' hr.1 hr.2.1
  | some e =>
    obtain ⟨hgrown, t, ht, rfl⟩ := hr
    have habsent : ¬ (t.ptes (x % NPTENTRIES)).p = true := by
      intro hp
      rw [← hgrown.entry, entry_of_table ht, if_pos hp] at hfresh
      cases hfresh
    show wp (if (t.ptes (x % NPTENTRIES)).p = true then _ else _) Q E m'
    rw [if_neg habsent, wp_bind, wp_modify, pageAt_next]
    exact hnext _ (hgrown.mappedOne hx hpa ht)

end

theorem mapLoop_spec (perm : Perm) {n fuel pa : Nat} (hx : x < NPAGES)
    (hpa : pa < 2 ^ 32) (hn : n < NPAGES) (hfuel : n < fuel)
    (hfresh : ∀ j ≤ n, m.pgdir.entry (pageAt x j) = none) :
    wp (mapLoop perm fuel (x * PGSIZE) (pageAt x n * PGSIZE) pa)
      (fun ok m' => ∃ k, Mapped m m' x n pa perm k ∧
        (if ok then k = n + 1 else k ≤ n ∧ ∀ D, (∀ j ≤ n, pageAt x j / NPTENTRIES ∈ D) →
          ¬ m.Enough D)) (fun _ => False) m := by
  obtain ⟨fuel, rfl⟩ : ∃ f, fuel = f + 1 := ⟨fuel - 1, by omega⟩
  have hfirst : m.pgdir.entry x = none := by
    have := hfresh 0 (Nat.zero_le n)
    rwa [pageAt_zero hx] at this
  have hfst : ∀ D : Finset Nat, (∀ j ≤ n, pageAt x j / NPTENTRIES ∈ D) → x / NPTENTRIES ∈ D :=
    fun D hD => pageAt_zero hx ▸ hD 0 (Nat.zero_le n)
  induction n generalizing x pa fuel m with
  | zero =>
    refine wp_mapLoop_succ hx hpa hfirst (fun m' hg he =>
      ⟨0, hg.mapped hx hfresh, Nat.le_refl 0, fun D hD => he D (hfst D hD)⟩) fun m' hm => ?_
    rw [pageAt_zero hx, if_pos rfl]
    exact ⟨1, hm, rfl⟩
  | succ n ih =>
    refine wp_mapLoop_succ hx hpa hfirst (fun m' hg he =>
      ⟨0, hg.mapped hx hfresh, Nat.zero_le _, fun D hD => he D (hfst D hD)⟩) fun m' hm => ?_
    -- the last page is another one
    have hlast : x * PGSIZE ≠ pageAt x (n + 1) * PGSIZE := by
      intro heq
      exact pageAt_ne (Nat.succ_pos n) hn (Nat.eq_of_mul_eq_mul_right (by decide) heq).symm
    have hfresh' : ∀ j ≤ n, m'.pgdir.entry (pageAt (pageAt x 1) j) = none := by
      intro j hj
      rw [pageAt_succ, hm.outside]
      · exact hfresh (j + 1) (Nat.succ_le_succ hj)
      · intro i hi
        obtain rfl : i = 0 := Nat.le_zero.mp hi
        rw [pageAt_zero hx]
        exact pageAt_ne (Nat.succ_pos j) (by omega)
    obtain ⟨fuel, rfl⟩ : ∃ f, fuel = f + 1 := ⟨fuel - 1, by omega⟩
    rw [if_neg hlast, ← pageAt_succ x n]
    have hpa' : (pa + PGSIZE) % 2 ^ 32 < 2 ^ 32 := Nat.mod_lt _ (Nat.two_pow_pos 32)
    have hfirst' : m'.pgdir.entry (pageAt x 1) = none := by
      have := hfresh' 0 (Nat.zero_le n)
      rwa [pageAt_zero (pageAt_lt x 1)] at this
    have hrest := ih (pageAt_lt x 1) hpa' (by omega) hfresh' fuel (by omega) hfirst' fun D hD =>
        pageAt_zero (pageAt_lt x 1) ▸ hD 0 (Nat.zero_le n)
    refine hrest.imp fun ok m'' h => ?_
    obtain ⟨k, hk, hok⟩ := h
    refine ⟨k + 1, hm.cons hk hx hn, ?_⟩
    cases ok with
    | true =>
      simp only [if_true] at hok ⊢
      rw [hok]
    | false =>
      simp only [Bool.false_eq_true] at hok ⊢
      refine ⟨Nat.succ_le_succ hok.1,
        fun D hD he => hok.2 D (fun j hj => ?_) (hm.enough D (fun j hj => hD j (by omega)) he)⟩
      rw [pageAt_succ]
      exact hD (j + 1) (Nat.succ_le_succ hj)

def morePages (size : Nat) : Nat := (size + 2 ^ 32 - 1) % 2 ^ 32 / PGSIZE

theorem morePages_lt (size : Nat) : morePages size < NPAGES := by
  simp only [morePages, NPAGES, PGSIZE]
  omega

theorem mappages_last (x size : Nat) : PGROUNDDOWN ((x * PGSIZE + size + 2 ^ 32 - 1) % 2 ^ 32) =
    pageAt x (morePages size) * PGSIZE := by
  simp only [PGROUNDDOWN, morePages, pageAt, NPAGES, PGSIZE]
  omega

theorem mappages_spec (perm : Perm) {pa size : Nat} (hx : x < NPAGES) (hpa : pa < 2 ^ 32)
    (hfresh : ∀ j ≤ morePages size, m.pgdir.entry (pageAt x j) = none) :
    wp (mappages (x * PGSIZE) size pa perm)
      (fun ok m' => ∃ k, Mapped m m' x (morePages size) pa perm k ∧
        (if ok then k = morePages size + 1 else k ≤ morePages size ∧
          ∀ D, (∀ j ≤ morePages size, pageAt x j / NPTENTRIES ∈ D) → ¬ m.Enough D))
      (fun _ => False) m := by
  have hstart : PGROUNDDOWN (x * PGSIZE) = x * PGSIZE := by
    simp [PGROUNDDOWN]
  have hn := morePages_lt size
  unfold mappages
  rw [hstart, mappages_last]
  exact mapLoop_spec perm hx hpa hn hn hfresh

theorem mappages_remap (perm : Perm) {pa size : Nat} (hx : x < NPAGES)
    (h : m.pgdir.entry x = some e) :
    mappages (x * PGSIZE) size pa perm m = .error "mappages: remap" := by
  have hstart : PGROUNDDOWN (x * PGSIZE) = x * PGSIZE := by
    simp [PGROUNDDOWN]
  obtain ⟨fuel, hfuel⟩ : ∃ f, NPAGES = f + 1 := ⟨NPAGES - 1, rfl⟩
  unfold mappages
  rw [hstart, hfuel]
  refine wp.panics ?_
  unfold mapLoop
  refine (wp_walkpgdir_alloc hx).bind (fun _ h => h.elim) fun r m' hr => ?_
  cases r with
  | none =>
    rw [entry_of_none hr.2.2] at h
    cases h
  | some e' =>
    obtain ⟨hgrown, t, ht, rfl⟩ := hr
    have hp : (t.ptes (x % NPTENTRIES)).p = true := by
      by_contra hp
      rw [← hgrown.entry, entry_of_table ht, if_neg hp] at h
      cases h
    show wp (if (t.ptes (x % NPTENTRIES)).p = true then _ else _) _ _ m'
    rw [if_pos hp]
    exact rfl

end

end Micro86.Vm
