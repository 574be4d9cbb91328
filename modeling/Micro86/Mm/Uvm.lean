import Micro86.Mm.Mappages

/-!
# User memory

* `Mem.Sound` — what the table and the list of free pages must be like for `freevm`.
* `deallocLoop_spec`, `freevm_spec` — pages below `KERNBASE` are freed, without a panic.
-/

namespace Micro86.Vm

open Exec
open Mm (PGSIZE NPDENTRIES NPTENTRIES KERNBASE DEVSPACE NFRAMES PDX PTX PGROUNDDOWN Pte)

def pages (sz : Nat) : Nat := (sz + PGSIZE - 1) / PGSIZE

section

variable {img : Image} {phystop : Nat} {m m' m'' : Mem} {f x y : Nat} {e : Pte} {E : String → Prop}
variable {sz fuel oldsz newsz n g : Nat} {fs : List Nat} {C : Multiset Nat}

/-! ## Tables that can be freed -/

structure Mem.Sound (img : Image) (phystop : Nat) (m : Mem) : Prop where
  owned : m.Owned (img.Frame phystop)
  user : ∀ x < KPAGE, ∀ e, m.pgdir.entry x = some e → img.Frame phystop e.frame

/-- Entries are written below `KERNBASE` only, and the directory stays where it is. -/
structure Mem.Below (m m' : Mem) : Prop where
  writes : ∀ w ∈ m'.writes, w ∈ m.writes ∨ w < KERNBASE
  root : m'.root = m.root
  kernel : ∀ y, KPAGE ≤ y → m'.pgdir.entry y = m.pgdir.entry y

theorem Mem.Below.refl (m : Mem) : m.Below m := ⟨fun _ => .inl, rfl, fun _ _ => rfl⟩

theorem Mem.Below.trans (h : m.Below m') (h' : m'.Below m'') : m.Below m'' := by
  refine ⟨fun w hw => ?_, h'.root.trans h.root, fun y hy => (h'.kernel y hy).trans (h.kernel y hy)⟩
  rcases h'.writes w hw with hw | hw
  · exact h.writes w hw
  · exact .inr hw

/-- The entries of the pages from `x` to `top` are gone, and the pages are free; if there was none,
    nothing was done. -/
structure Freed (m m' : Mem) (x top : Nat) : Prop where
  gone : ∀ y, x ≤ y → y < top → m'.pgdir.entry y = none
  kept : ∀ y, y < x ∨ top ≤ y → m'.pgdir.entry y = m.pgdir.entry y
  idle : (∀ y, x ≤ y → y < top → m.pgdir.entry y = none) → m' = m
  same : m.Same m'

theorem page_lt (hx : x < KPAGE) : x < NPAGES := by
  simp only [KPAGE, NPAGES, Mm.KERNBASE_eq, PGSIZE] at *
  omega

theorem page_below (hx : x < KPAGE) : x * PGSIZE < KERNBASE := by
  simp only [KPAGE, PGSIZE] at *
  omega

theorem lt_pages : x < pages sz ↔ x * PGSIZE < sz := by
  simp only [pages, PGSIZE]
  omega

theorem le_pages (sz : Nat) : sz ≤ pages sz * PGSIZE := by
  simp only [pages, PGSIZE]
  omega

theorem pages_mono {sz' : Nat} (h : sz ≤ sz') : pages sz ≤ pages sz' := by
  simp only [pages, PGSIZE]
  omega

theorem pages_le (h : sz ≤ KERNBASE) : pages sz ≤ KPAGE := by
  simp only [pages, KPAGE, Mm.KERNBASE_eq, PGSIZE] at *
  omega

theorem page_next (hx : x < KPAGE) : (x * PGSIZE + PGSIZE) % 2 ^ 32 = (x + 1) * PGSIZE := by
  simp only [KPAGE, Mm.KERNBASE_eq, PGSIZE] at *
  omega

def nextTab (x : Nat) : Nat := (x / NPTENTRIES + 1) * NPTENTRIES

theorem nextTab_addr (hx : x < KPAGE) : PGADDR (PDX (x * PGSIZE) + 1) 0 0 = nextTab x * PGSIZE := by
  rw [PDX_page (page_lt hx)]
  simp only [PGADDR, nextTab, KPAGE, Mm.KERNBASE_eq, PGSIZE, NPTENTRIES] at *
  omega

theorem lt_nextTab (x : Nat) : x < nextTab x := by
  simp only [nextTab, NPTENTRIES]
  omega

theorem nextTab_le (hx : x < KPAGE) : nextTab x ≤ KPAGE := by
  simp only [nextTab, KPAGE, Mm.KERNBASE_eq, PGSIZE, NPTENTRIES] at *
  omega

theorem same_tab (hy : x ≤ y) (hy' : y < nextTab x) : y / NPTENTRIES = x / NPTENTRIES := by
  simp only [nextTab, NPTENTRIES] at *
  omega

/-- The entry of a user page has been written; if it is present, with a page that can be freed. -/
theorem Mem.Sound.setPte {t : PageTab} (h : m.Sound img phystop)
    (hx : x < KPAGE) (ht : m.pgdir (x / NPTENTRIES) = some t)
    (he : e.p = true → img.Frame phystop e.frame) :
    (m.setPte (x * PGSIZE) e).Sound img phystop ∧ m.Below (m.setPte (x * PGSIZE) e) := by
  have hentry : ∀ y, (m.setPte (x * PGSIZE) e).pgdir.entry y = if y = x then
      (if e.p then some e else none) else m.pgdir.entry y :=
    fun y => entry_setPte (page_lt hx) ht
  refine ⟨⟨owned_setPte h.owned _, fun y hy e' he' => ?_⟩, ⟨fun w hw => ?_, rfl, fun y hy => ?_⟩⟩
  · rw [hentry] at he'
    split at he'
    · split at he'
      · rename_i hp
        cases he'
        exact he hp
      · cases he'
    · exact h.user y hy e' he'
  · rcases List.mem_cons.mp hw with rfl | hw
    · exact .inr (page_below hx)
    · exact .inl hw
  · rw [hentry, if_neg (by omega)]

theorem Mem.Sound.put (h : m.Sound img phystop) (hf : img.Frame phystop f) :
    (m.put f).Sound img phystop := by
  refine ⟨⟨fun g hg => ?_, h.owned.root, h.owned.tables⟩, h.user⟩
  rcases List.mem_cons.mp hg with rfl | hg
  · exact hf
  · exact h.owned.free g hg

theorem same_dealloc {t : PageTab} (hx : x < KPAGE) (ht : m.pgdir (x / NPTENTRIES) = some t)
    (he : m.pgdir.entry x = some e) : m.Same ((m.put e.frame).setPte (x * PGSIZE) noPte) := by
  have hput : (m.put e.frame).pgdir (x / NPTENTRIES) = some t := ht
  have hentry : ∀ y, ((m.put e.frame).setPte (x * PGSIZE) noPte).pgdir.entry y = if y = x then none
      else m.pgdir.entry y :=
    fun y => entry_setPte (page_lt hx) hput
  refine ⟨?_, .memset (mem_census_of_entry hx he) rfl⟩
  have husers :=
    userFrames_update m.pgdir ((m.put e.frame).setPte (x * PGSIZE) noPte).pgdir hx fun y hy => by
    rw [hentry, if_neg hy]
  rw [hentry x, if_pos rfl, he, Option.map_some, Option.map_none,
    one_some, one_none, Multiset.add_zero] at husers
  unfold Mem.census
  rw [core_setPte, core_put, ← husers, Multiset.add_comm _ {e.frame},
    Multiset.singleton_add, Multiset.cons_add, Multiset.add_cons]

/-! ## `deallocuvm` -/

section

variable (hm : m.Sound img phystop)
include hm

theorem wp_deallocLoop_succ {Q : Unit → Mem → Prop} (hx : x < KPAGE) (hlt : x * PGSIZE < oldsz)
    (hjump : ∀ x', x < x' → x' ≤ KPAGE → (∀ y, x ≤ y → y < x' → m.pgdir.entry y = none) →
      wp (deallocLoop img phystop fuel (x' * PGSIZE) oldsz) Q E m)
    (hnext : ∀ m', m'.Sound img phystop → m.Below m' → Freed m m' x (x + 1) →
      wp (deallocLoop img phystop fuel ((x + 1) * PGSIZE) oldsz) Q E m') :
    wp (deallocLoop img phystop (fuel + 1) (x * PGSIZE) oldsz) Q E m := by
  unfold deallocLoop
  rw [if_pos hlt, wp_bind]
  refine wp_walkpgdir (page_lt hx) ?_
  cases ht : m.pgdir (x / NPTENTRIES) with
  | none =>
    -- no table: on to the next one
    show wp (deallocLoop img phystop fuel _ oldsz) Q E m
    rw [nextTab_addr hx]
    refine hjump _ (lt_nextTab x) (nextTab_le hx) fun y hy hy' => entry_of_none ?_
    rw [same_tab hy hy']
    exact ht
  | some t =>
    show wp (deallocPage img phystop (x * PGSIZE) (t.ptes (x % NPTENTRIES)) >>= fun _ => _) Q E m
    rw [wp_bind, page_next hx]
    unfold deallocPage
    cases hp : (t.ptes (x % NPTENTRIES)).p with
    | true =>
      have hframe : img.Frame phystop (t.ptes (x % NPTENTRIES)).frame :=
        hm.user x hx _ (by rw [entry_of_table ht, if_pos hp])
      rw [if_neg (by decide), if_neg hframe.ne_zero, wp_bind]
      refine wp_kfree hframe ?_
      rw [wp_modify]
      have ht' : (m.put (t.ptes (x % NPTENTRIES)).frame).pgdir (x / NPTENTRIES) = some t := ht
      have hentry :
          m.pgdir.entry x = some (t.ptes (x % NPTENTRIES)) := by rw [entry_of_table ht, if_pos hp]
      obtain ⟨hs, hb⟩ := (hm.put hframe).setPte (e := noPte) hx ht' nofun
      refine hnext _ hs ⟨hb.writes, hb.root, hb.kernel⟩
        ⟨fun y hy hy' => ?_, fun y hy => ?_, fun hnone => ?_, same_dealloc hx ht hentry⟩
      · rw [entry_setPte (page_lt hx) ht', if_pos (by omega)]
        rfl
      · rw [entry_setPte (page_lt hx) ht', if_neg (by omega)]
        rfl
      · have := hnone x (Nat.le_refl x) (Nat.lt_succ_self x)
        rw [hentry] at this
        cases this
    | false =>
      refine hnext m hm (.refl m) ⟨fun y hy hy' => ?_, fun y _ => rfl, fun _ => rfl, .refl m⟩
      obtain rfl : y = x := by omega
      rw [entry_of_table ht, hp]
      rfl

theorem deallocLoop_spec (hsz : oldsz ≤ KERNBASE) (hfuel : KPAGE ≤ x + fuel) :
    wp (deallocLoop img phystop fuel (x * PGSIZE) oldsz)
      (fun _ m' => m'.Sound img phystop ∧ m.Below m' ∧ Freed m m' x (pages oldsz))
      (fun _ => False) m := by
  -- nothing to free beyond the last page
  have hdone : ∀ {m : Mem} {x : Nat}, m.Sound img phystop → ¬ x * PGSIZE < oldsz →
      m.Sound img phystop ∧ m.Below m ∧ Freed m m x (pages oldsz) := by
    intro m x hm hx
    refine ⟨hm, .refl m, fun y hy hy' => absurd (lt_pages.mp (hy.trans_lt hy')) hx,
      fun _ _ => rfl, fun _ => rfl, .refl m⟩
  induction fuel generalizing x m with
  | zero => exact hdone hm fun hlt => hfuel.not_gt ((lt_pages.mpr hlt).trans_le (pages_le hsz))
  | succ fuel ih =>
    by_cases hlt : x * PGSIZE < oldsz
    swap
    · unfold deallocLoop
      rw [if_neg hlt]
      exact hdone hm hlt
    have htop : x < pages oldsz := lt_pages.mpr hlt
    have hx : x < KPAGE := htop.trans_le (pages_le hsz)
    refine wp_deallocLoop_succ hm hx hlt (fun x' hlt' _ hnone => ?_) (fun m' hs hb hfreed => ?_)
    · refine (ih hm (by omega)).imp fun _ m' h => ?_
      obtain ⟨hs, hb, hf⟩ := h
      refine ⟨hs, hb, fun y hy hy' => ?_, fun y hy => hf.kept y (by omega),
        fun hno => hf.idle fun y hy hy' => hno y (by omega) hy', hf.same⟩
      by_cases hy'' : y < x'
      · rw [hf.kept y (.inl hy'')]
        exact hnone y hy hy''
      · exact hf.gone y (by omega) hy'
    · refine (ih hs (by omega)).imp fun _ m'' h => ?_
      obtain ⟨hs', hb', hf⟩ := h
      refine ⟨hs', hb.trans hb', fun y hy hy' => ?_, fun y hy => ?_,
        fun hno => ?_, hfreed.same.trans hf.same⟩
      · by_cases hyx : y = x
        · rw [hf.kept y (by omega)]
          exact hfreed.gone y hy (by omega)
        · exact hf.gone y (by omega) hy'
      · rw [hf.kept y (by omega), hfreed.kept y (by omega)]
      · obtain rfl := hfreed.idle fun y hy hy' => hno y hy (by omega)
        exact hf.idle fun y hy hy' => hno y (by omega) hy'

/-- The first page of the kernel is mapped to physical address 0. -/
theorem deallocLoop_kernel (hsz : KERNBASE < oldsz) (hx : x ≤ KPAGE) (hfuel : KPAGE < x + fuel)
    (hkern : m.pgdir.entry KPAGE = some e) (he : e.frame = 0) :
    deallocLoop img phystop fuel (x * PGSIZE) oldsz m = .error "kfree" := by
  refine wp.panics ?_
  induction fuel generalizing x m with
  | zero => omega
  | succ fuel ih =>
    have hlt : x * PGSIZE < oldsz :=
      Nat.lt_of_le_of_lt ((Nat.mul_le_mul_right _ hx).trans rfl.le) hsz
    by_cases hx' : x < KPAGE
    · refine wp_deallocLoop_succ hm hx' hlt (fun x' hlt' hle _ => ih hm hle (by omega) hkern)
        (fun m' hs hb _ => ?_)
      exact ih hs (by omega) (by omega) (by rw [hb.kernel _ le_rfl]; exact hkern)
    obtain rfl : x = KPAGE := by omega
    unfold deallocLoop
    rw [if_pos hlt, wp_bind]
    refine wp_walkpgdir (by decide) ?_
    cases ht : m.pgdir (KPAGE / NPTENTRIES) with
    | none =>
      rw [entry_of_none ht] at hkern
      cases hkern
    | some t =>
      rw [entry_of_table ht] at hkern
      split at hkern
      · rename_i hp
        cases hkern
        show wp (deallocPage img phystop (KPAGE * PGSIZE) (t.ptes (KPAGE % NPTENTRIES)) >>=
            fun _ => _) _ _ m
        rw [wp_bind]
        unfold deallocPage
        rw [hp, he, if_neg (by decide), if_pos (Nat.zero_mul _)]
        exact rfl
      · cases hkern

end

theorem PGROUNDUP_pages (h : sz ≤ KERNBASE) : PGROUNDUP sz = pages sz * PGSIZE := by
  simp only [PGROUNDUP, PGROUNDDOWN, pages, Mm.KERNBASE_eq, PGSIZE] at *
  omega

section

variable (hm : m.Sound img phystop)
include hm

theorem deallocuvm_spec (hsz : oldsz ≤ KERNBASE) (hlt : newsz < oldsz) :
    wp (deallocuvm img phystop oldsz newsz)
      (fun _ m' => m'.Sound img phystop ∧ m.Below m' ∧ Freed m m' (pages newsz) (pages oldsz))
      (fun _ => False) m := by
  have hfuel : KPAGE ≤ pages newsz + NPAGES := Nat.le_trans (by decide) (Nat.le_add_left NPAGES _)
  unfold deallocuvm
  rw [if_neg hlt.not_ge, PGROUNDUP_pages (by omega), wp_bind]
  exact deallocLoop_spec hm hsz hfuel

theorem deallocuvm_kernel (hsz : KERNBASE < oldsz) (hnew : newsz ≤ KERNBASE)
    (hkern : m.pgdir.entry KPAGE = some e) (he : e.frame = 0) :
    deallocuvm img phystop oldsz newsz m = .error "kfree" := by
  have hfuel : KPAGE < pages newsz + NPAGES :=
    Nat.lt_of_lt_of_le (by decide) (Nat.le_add_left NPAGES _)
  unfold deallocuvm
  rw [if_neg (by omega), PGROUNDUP_pages hnew]
  exact bind_of_error (deallocLoop_kernel hm hsz (pages_le hnew) hfuel hkern he)

theorem freeTables_spec :
    wp (freeTables img phystop) (fun _ m' => m'.Sound img phystop ∧
      m'.pgdir = m.pgdir ∧ m'.root = m.root ∧ m'.writes = m.writes ∧
      m'.freelist = m.freelist + m.pgdir.tabFrames ∧ m.StoresIn m.core m') (fun _ => False) m := by
  rw [tabFrames_eq]
  unfold freeTables
  refine wp_forUpTo_count (I := fun n m' => m'.Sound img phystop ∧
    m'.pgdir = m.pgdir ∧ m'.root = m.root ∧ m'.writes = m.writes ∧
    (m'.freelist : Multiset Nat) = m.freelist + ∑ i ∈ Finset.range n,
    one ((m.pgdir i).map PageTab.frame) ∧ m.StoresIn m.core m')
    (fun i m' hi h => ?_)
      ⟨hm, rfl, rfl, rfl, by rw [Finset.range_zero, Finset.sum_empty, Multiset.add_zero], .refl _ m⟩
  obtain ⟨hs, hdir, hroot, hwrites, hfree, hstores⟩ := h
  rw [wp_bind, wp_get, Finset.sum_range_succ, hdir]
  cases ht : m.pgdir i with
  | none =>
    exact ⟨hs, hdir, hroot, hwrites,
      by rw [hfree, Option.map_none, one_none, Multiset.add_zero], hstores⟩
  | some t =>
    have hframe := hs.owned.tables i t (hdir ▸ ht)
    have hcore : t.frame ∈ m.core :=
      Multiset.mem_add.mpr (.inr (Multiset.mem_cons_of_mem (mem_tabFrames hi ht)))
    refine wp_kfree hframe ⟨hs.put hframe, hdir, hroot, hwrites,
      ?_, hstores.trans (.memset hcore rfl)⟩
    show ((t.frame :: m'.freelist : List Nat) : Multiset Nat) = _
    rw [← Multiset.cons_coe, hfree, Option.map_some, one_some,
      ← Multiset.singleton_add, Multiset.add_comm, Multiset.add_assoc]

theorem freevm_spec :
    wp (freevm img phystop) (fun _ m' => m.Below m' ∧ (∀ f ∈ m'.freelist, img.Frame phystop f) ∧
      ((∀ x < KPAGE, m.pgdir.entry x = none) → m'.writes = m.writes) ∧
      m'.freelist = m.census ∧ m.StoresIn m.census m') (fun _ => False) m := by
  unfold freevm
  refine (deallocuvm_spec hm le_rfl (by decide)).seq fun _ m1 h1 => ?_
  obtain ⟨hs1, hb1, hf1⟩ := h1
  have hnone : ∀ y < KPAGE, m1.pgdir.entry y = none := fun y => hf1.gone y (Nat.zero_le y)
  have hcore : m1.core = m.census := by
    rw [← hf1.same.census, Mem.census, userFrames_zero hnone, Multiset.add_zero]
  refine (freeTables_spec hs1).seq fun _ m2 h2 => ?_
  obtain ⟨hs2, hdir, hroot, hwrites, hfree, hstores⟩ := h2
  rw [hcore] at hstores
  have hrootIn : m2.root ∈ m.census := hcore ▸ hroot ▸ root_mem_core m1
  rw [wp_bind, wp_get]
  refine wp_kfree hs2.owned.root ⟨⟨fun w hw => ?_, hroot.trans hb1.root, fun y hy => ?_⟩,
    (hs2.put hs2.owned.root).owned.free, fun hno => ?_, ?_,
    hf1.same.stores.trans (hstores.trans (.memset hrootIn rfl))⟩
  · exact hb1.writes w (hwrites ▸ hw)
  · show m2.pgdir.entry y = m.pgdir.entry y
    rw [hdir]
    exact hb1.kernel y hy
  · have hidle := hf1.idle fun y _ hy => hno y (hy.trans_le (pages_le le_rfl))
    exact hwrites.trans (congrArg Mem.writes hidle)
  · show ((m2.root :: m2.freelist : List Nat) : Multiset Nat) = _
    rw [← Multiset.cons_coe, hfree, hroot, ← hcore, Mem.core, Multiset.add_cons]

end

/-! ## `allocuvm` -/

/-- The user part of the table has its first `n` pages, and the page of the kernel at `KERNBASE` is
    mapped to physical address 0.  There are no more pages than fit between `KERNBASE` and
    `DEVSPACE`. -/
structure Loaded (img : Image) (phystop : Nat) (m : Mem) (n : Nat) : Prop where
  sound : m.Sound img phystop
  mapped : ∀ x < n, ∃ e, m.pgdir.entry x = some e ∧ e.u = true
  empty : ∀ x, n ≤ x → x < KPAGE → m.pgdir.entry x = none
  kernel : ∃ e, m.pgdir.entry KPAGE = some e ∧ e.frame = 0
  room : n + m.freelist.length ≤ NFRAMES

theorem Loaded.lt (h : Loaded img phystop m n) : n < KPAGE :=
  Nat.lt_of_le_of_lt ((Nat.le_add_right _ _).trans h.room) (by decide)

def Mem.taken (m : Mem) (g : Nat) (fs : List Nat) : Mem := Mem.memset { m with freelist := fs } g 0

theorem Loaded.take (h : Loaded img phystop m n) (hfree : m.freelist = g :: fs) :
    img.Frame phystop g ∧ (m.taken g fs).Sound img phystop ∧ n + 1 + fs.length ≤ NFRAMES := by
  have hroom := h.room
  rw [hfree, List.length_cons] at hroom
  refine ⟨h.sound.owned.free g (by rw [hfree]; exact .head _),
    ⟨⟨fun f hf => ?_, h.sound.owned.root, h.sound.owned.tables⟩, h.sound.user⟩, by omega⟩
  exact h.sound.owned.free f (by rw [hfree]; exact .tail _ hf)

/-- From `m` to `m'`, the pages of `C` are missing, and stores were made to pages of `m` only. -/
structure Mem.Lacks (C : Multiset Nat) (m m' : Mem) : Prop where
  census : C + m'.census = m.census
  stores : m.StoresIn m.census m'

theorem Mem.Same.lacks (h : m.Same m') :
    m.Lacks 0 m' := ⟨by rw [Multiset.zero_add, h.census], h.stores⟩

theorem lacks_taken (hfree : m.freelist = g :: fs) : m.Lacks {g} (m.taken g fs) := by
  have hg : g ∈ m.freelist := by
    rw [hfree]
    exact .head _
  refine ⟨?_, .memset (core_subset m (mem_core_of_free hg)) rfl⟩
  unfold Mem.census
  rw [core_take hfree, Multiset.singleton_add, Multiset.cons_add]
  rfl

theorem Mem.Lacks.subset (h : m.Lacks C m') : m'.census ⊆ m.census := by
  rw [← h.census]
  exact Multiset.subset_of_le (Multiset.le_add_left _ _)

theorem Mem.Lacks.trans (h : m.Lacks C m') (h' : m'.Same m'') : m.Lacks C m'' :=
  ⟨by rw [h'.census, h.census], h.stores.trans (h'.stores.mono h.subset)⟩

theorem Mem.Lacks.back (h : m.Lacks C m') (hcensus : m''.census = C + m'.census)
    (hstores : m'.StoresIn m.census m'') : m.Same m'' :=
  ⟨by rw [hcensus, h.census], h.stores.trans hstores⟩

def userPte (frame : Nat) : Pte := ⟨frame, true, true, true⟩

theorem mappages_page (h : m.Sound img phystop) (hn : n < KPAGE)
    (hempty : m.pgdir.entry n = none) (hg : img.Frame phystop g) :
    wp (mappages (n * PGSIZE) PGSIZE (g * PGSIZE) ⟨true, true⟩)
      (fun ok m' => m'.Sound img phystop ∧ m.Below m' ∧ m'.freelist.length ≤ m.freelist.length ∧
        (∀ y, y ≠ n → m'.pgdir.entry y = m.pgdir.entry y) ∧
        m'.pgdir.entry n = (if ok then some (userPte g) else none) ∧ m'.core = m.core ∧
          m.StoresIn m.core m' ∧ (ok = false → m.freelist = [])) (fun _ => False) m := by
  have hpage := hg.page
  have hpa : g * PGSIZE < 2 ^ 32 := by
    simp only [NPAGES, PGSIZE] at *
    omega
  refine (mappages_spec ⟨true, true⟩ (page_lt hn) hpa fun j hj => ?_).imp fun ok m' hm => ?_
  · obtain rfl : j = 0 := Nat.le_zero.mp hj
    rw [pageAt_zero (page_lt hn)]
    exact hempty
  obtain ⟨k, hk, hok⟩ := hm
  have hout : ∀ y, y ≠ n → m'.pgdir.entry y = m.pgdir.entry y := by
    refine fun y hy => hk.outside y fun j hj => ?_
    obtain rfl : j = 0 := Nat.le_zero.mp hj
    rw [pageAt_zero (page_lt hn)]
    exact hy
  have hpte : Perm.pte ⟨true, true⟩ (g * PGSIZE) = userPte g := by
    unfold Perm.pte
    rw [Nat.mul_div_cancel _ (by decide)]
    rfl
  have hentry : m'.pgdir.entry n = if ok then some (userPte g) else none := by
    cases ok with
    | true =>
      have := hk.mapped 0 (Nat.le_refl 0) (by simp only [if_true] at hok; omega)
      rwa [pageAt_zero (page_lt hn), Nat.zero_mul, Nat.add_zero, Nat.mod_eq_of_lt hpa, hpte] at this
    | false =>
      have := hk.fresh 0 (Nat.le_refl 0) hok.1
      rwa [pageAt_zero (page_lt hn)] at this
  refine ⟨⟨hk.owned _ h.owned, fun y hy e he => ?_⟩, ⟨fun w hw => ?_, hk.root, fun y hy =>
    hout y (by omega)⟩, hk.free.length_le, hout, hentry, hk.core, hk.stores, fun hno => ?_⟩
  · by_cases hyn : y = n
    · rw [hyn, hentry] at he
      cases ok with
      | true =>
        simp only [if_true, Option.some.injEq] at he
        rw [← he]
        exact hg
      | false => cases he
    · rw [hout y hyn] at he
      exact h.user y hy e he
  · rcases hk.writes w hw with hw | ⟨j, hj, rfl⟩
    · exact .inl hw
    obtain rfl : j = 0 := Nat.le_zero.mp hj
    rw [pageAt_zero (page_lt hn)]
    exact .inr (page_below hn)
  · -- one page is enough for a table
    subst hno
    by_contra hfree
    refine hok.2 {n / NPTENTRIES} (fun j hj => ?_) ?_
    · obtain rfl : j = 0 := Nat.le_zero.mp hj
      rw [pageAt_zero (page_lt hn)]
      exact Finset.mem_singleton_self _
    · exact (Finset.card_filter_le _ _).trans (Nat.succ_le_of_lt (List.length_pos_of_ne_nil hfree))

theorem same_alloc (hfree : m.freelist = g :: fs) (hn : n < KPAGE) (hempty : m.pgdir.entry n = none)
    (hout : ∀ y, y ≠ n → m'.pgdir.entry y = m.pgdir.entry y)
    (hentry : m'.pgdir.entry n = some (userPte g)) (hcore : m'.core = (m.taken g fs).core)
    (hstores : (m.taken g fs).StoresIn (m.taken g fs).core m') : m.Same m' := by
  have hlacks := lacks_taken hfree
  refine hlacks.back ?_ (hstores.mono fun f hf => hlacks.subset (core_subset _ hf))
  have husers := userFrames_update m.pgdir m'.pgdir hn hout
  rw [hempty, hentry, Option.map_some, Option.map_none, one_some,
    one_none, Multiset.add_zero, userPte] at husers
  unfold Mem.census
  rw [hcore, husers, Multiset.add_comm m.pgdir.userFrames, ← Multiset.add_assoc,
    Multiset.add_comm _ {g}, Multiset.add_assoc]
  rfl

section

variable (h : Loaded img phystop m n)
include h

theorem wp_allocLoop_succ {Q : Bool → Mem → Prop} (hlt : n * PGSIZE < newsz)
    (hnomem : ∀ m' C, m.freelist.length ≤ 1 → m'.Sound img phystop → m.Below m' → m.Lacks C m' →
      wp (deallocuvm img phystop newsz oldsz) (fun _ m'' => m''.Sound img phystop ∧ m'.Same m'' ∧
        ∀ m3, m3.Sound img phystop → m''.Below m3 → m.Same m3 → Q false m3) E m')
    (hnext : ∀ m', Loaded img phystop m' (n + 1) → m.Below m' →
      m.Same m' → wp (allocLoop img phystop oldsz newsz fuel ((n + 1) * PGSIZE)) Q E m') :
    wp (allocLoop img phystop oldsz newsz (fuel + 1) (n * PGSIZE)) Q E m := by
  unfold allocLoop
  rw [if_pos hlt, wp_bind]
  unfold wp kalloc
  cases hfree : m.freelist with
  | nil =>
    show wp (deallocuvm img phystop newsz oldsz >>= fun _ => pure false) Q E m
    rw [wp_bind]
    refine (hnomem m 0 (by rw [hfree]; exact Nat.zero_le 1) h.sound
      (.refl m) (Mem.Same.refl m).lacks).imp fun _ m'' h'' => ?_
    exact h''.2.2 m'' h''.1 (.refl m'') h''.2.1
  | cons g fs =>
    obtain ⟨hg, hs, hroom⟩ := h.take hfree
    have hempty := h.empty n (Nat.le_refl n) h.lt
    refine (mappages_page hs h.lt hempty hg).bind (fun _ h => h.elim) fun ok m' hm => ?_
    obtain ⟨hs', hb, hlen, hout, hentry, hcore, hstores, hlast⟩ := hm
    have hb' : m.Below m' := ⟨hb.writes, hb.root, hb.kernel⟩
    cases ok with
    | true =>
      rw [if_pos rfl, page_next h.lt]
      refine hnext m' ⟨hs', fun x hx => ?_, fun x hx hx' => ?_, ?_, ?_⟩
        hb' (same_alloc hfree h.lt hempty hout hentry hcore hstores)
      · by_cases hxn : x = n
        · rw [hxn]
          exact ⟨userPte g, hentry, rfl⟩
        · rw [hout x hxn]
          exact h.mapped x (by omega)
      · rw [hout x (by omega)]
        exact h.empty x (by omega) hx'
      · rw [hb'.kernel _ le_rfl]
        exact h.kernel
      · have hfs : m'.freelist.length ≤ fs.length := hlen
        omega
    | false =>
      rw [if_neg (by decide)] at hentry
      -- the page is missing until it is put back
      have hkept : ∀ y, m'.pgdir.entry y = m.pgdir.entry y := by
        intro y
        by_cases hy : y = n
        · rw [hy, hentry, hempty]
        · exact hout y hy
      have hsame : (m.taken g fs).Same m' :=
        ⟨census_congr hcore fun y _ => hkept y, hstores.mono (core_subset _)⟩
      have hlacks : m.Lacks {g} m' := (lacks_taken hfree).trans hsame
      have hgIn : g ∈ m.census := core_subset m (mem_core_of_free (by rw [hfree]; exact .head _))
      rw [if_neg (by decide), wp_bind]
      have hfs : fs = [] := hlast rfl
      refine (hnomem m' {g} (by rw [hfree, hfs]; exact Nat.le_refl 1) hs' hb' hlacks).imp
        fun _ m'' h'' => ?_
      obtain ⟨hs'', hsame'', hQ⟩ := h''
      rw [wp_bind]
      refine wp_kfree hg (hQ _ (hs''.put hg) ⟨fun _ => .inl, rfl, fun _ _ => rfl⟩
        ((hlacks.trans hsame'').back ?_ (.memset hgIn rfl)))
      unfold Mem.census
      rw [core_put, Multiset.singleton_add, Multiset.cons_add]
      rfl

theorem allocLoop_spec (hsz : newsz ≤ KERNBASE) (hold : pages oldsz ≤ n)
    (hn : n ≤ pages newsz) (hfuel : KPAGE ≤ n + fuel) :
    wp (allocLoop img phystop oldsz newsz fuel (n * PGSIZE))
      (fun ok m' => m.Below m' ∧ m.Same m' ∧
        if ok then Loaded img phystop m' (pages newsz) else m'.Sound img phystop ∧
          m.census.card ≤ NPDENTRIES + 2 + pages newsz) (fun _ => False) m := by
  induction fuel generalizing n m with
  | zero => exact absurd h.lt hfuel.not_gt
  | succ fuel ih =>
    by_cases hlt : n * PGSIZE < newsz
    · have hmore : oldsz < newsz :=
        Nat.lt_of_le_of_lt ((le_pages oldsz).trans (Nat.mul_le_mul_right _ hold)) hlt
      refine wp_allocLoop_succ h hlt (fun m' C hfew hs hb _ => ?_) (fun m' hl hb hsame => ?_)
      · have hcard : m.census.card ≤ NPDENTRIES + 2 + pages newsz := by
          have := census_card h.empty
          omega
        refine (deallocuvm_spec hs hsz hmore).imp fun _ m'' h'' => ?_
        exact ⟨h''.1, h''.2.2.same,
          fun m3 hs3 hb3 hsame3 => ⟨(hb.trans h''.2.1).trans hb3, hsame3, hs3, hcard⟩⟩
      · refine (ih hl (by omega) (lt_pages.mpr hlt) (by omega)).imp fun ok m'' h'' => ?_
        rw [hsame.census] at h''
        exact ⟨hb.trans h''.1, hsame.trans h''.2.1, h''.2.2⟩
    · have heq : n = pages newsz := Nat.le_antisymm hn (Nat.not_lt.mp fun h => hlt (lt_pages.mp h))
      unfold allocLoop
      rw [if_neg hlt]
      refine ⟨.refl m, .refl m, ?_⟩
      rw [if_pos rfl, ← heq]
      exact h

/-- There is no memory for all pages up to `KERNBASE`, and what was allocated is not all that is
    freed. -/
theorem allocLoop_kernel (hsz : KERNBASE < newsz) (hold : oldsz ≤ KERNBASE)
    (hfuel : KPAGE ≤ n + fuel) :
    allocLoop img phystop oldsz newsz fuel (n * PGSIZE) m = .error "kfree" := by
  refine wp.panics ?_
  induction fuel generalizing n m with
  | zero => exact absurd h.lt hfuel.not_gt
  | succ fuel ih =>
    obtain ⟨e, hkern, he⟩ := h.kernel
    refine wp_allocLoop_succ h ((page_below h.lt).trans hsz)
      (fun m' C _ hs hb _ => ?_) (fun m' hl _ _ => ih hl (by omega))
    have hpanic := deallocuvm_kernel hs hsz hold (by rw [hb.kernel _ le_rfl]; exact hkern) he
    unfold wp
    rw [hpanic]

end

theorem clearpteu_spec (hm : m.Sound img phystop) (hx : x < KPAGE) (he : m.pgdir.entry x = some e) :
    wp (clearpteu (x * PGSIZE)) (fun _ m' => m'.Sound img phystop ∧ m.Below m' ∧ m.Same m' ∧
      ∀ y, m'.pgdir.entry y = if y = x then some { e with u := false }
        else m.pgdir.entry y) (fun _ => False) m := by
  unfold clearpteu
  rw [wp_bind]
  refine wp_walkpgdir (page_lt hx) ?_
  cases ht : m.pgdir (x / NPTENTRIES) with
  | none =>
    rw [entry_of_none ht] at he
    cases he
  | some t =>
    have hp : e.p = true ∧ t.ptes (x % NPTENTRIES) = e := by
      rw [entry_of_table ht] at he
      split at he
      · cases he
        exact ⟨by assumption, rfl⟩
      · cases he
    dsimp only [Option.map_some]
    rw [wp_modify, hp.2]
    have hentry : ∀ y, (m.setPte (x * PGSIZE) { e with u := false }).pgdir.entry y = if y = x then
        some { e with u := false } else m.pgdir.entry y := by
      intro y
      rw [entry_setPte (page_lt hx) ht]
      rw [hp.1, if_pos rfl]
    obtain ⟨hs, hb⟩ := hm.setPte (e := { e with u := false }) hx ht fun _ => hm.user x hx e he
    refine ⟨hs, hb, ⟨?_, .of_eq rfl⟩, hentry⟩
    have husers := userFrames_update m.pgdir (m.setPte (x * PGSIZE) { e with u := false }).pgdir
        hx fun y hy => by
      rw [hentry, if_neg hy]
    rw [hentry x, if_pos rfl, he, Option.map_some, Option.map_some] at husers
    unfold Mem.census
    rw [core_setPte, Multiset.add_left_inj.mp husers]

theorem allocuvm_spec (h : Loaded img phystop m (pages oldsz))
    (hold : oldsz ≤ KERNBASE) (hsz : newsz ≤ KERNBASE) : wp (allocuvm img phystop oldsz newsz)
      (fun sz m' => m.Below m' ∧ m'.Sound img phystop ∧ m.Same m' ∧
        (sz = 0 → 0 < newsz → m.census.card ≤ NPDENTRIES + 2 + pages newsz) ∧
        (sz = 0 ∨ sz = max oldsz newsz ∧ sz ≤ KERNBASE ∧ Loaded img phystop m' (pages sz)))
        (fun _ => False) m := by
  have hfuel : KPAGE ≤ pages oldsz + NPAGES := Nat.le_trans (by decide) (Nat.le_add_left NPAGES _)
  unfold allocuvm
  by_cases hlt : newsz < oldsz
  · rw [if_pos hlt]
    exact ⟨.refl m, h.sound, .refl m,
      fun hzero => by omega, .inr ⟨(Nat.max_eq_left hlt.le).symm, hold, h⟩⟩
  rw [if_neg hlt, PGROUNDUP_pages hold]
  refine (allocLoop_spec h hsz le_rfl (pages_mono (Nat.not_lt.mp hlt)) hfuel).seq fun ok m' h' => ?_
  cases ok with
  | true =>
    have hl : Loaded img phystop m' (pages newsz) := h'.2.2
    refine ⟨h'.1, hl.sound, h'.2.1, fun hzero hpos => ?_,
      .inr ⟨(Nat.max_eq_right (Nat.not_lt.mp hlt)).symm, hsz, hl⟩⟩
    omega
  | false => exact ⟨h'.1, h'.2.2.1, h'.2.1, fun _ _ => h'.2.2.2, .inl rfl⟩

theorem allocuvm_kernel (h : Loaded img phystop m (pages oldsz))
    (hold : oldsz ≤ KERNBASE) (hsz : KERNBASE < newsz) :
    allocuvm img phystop oldsz newsz m = .error "kfree" := by
  have hfuel : KPAGE ≤ pages oldsz + NPAGES := Nat.le_trans (by decide) (Nat.le_add_left NPAGES _)
  unfold allocuvm
  rw [if_neg (by omega), PGROUNDUP_pages hold]
  exact bind_of_error (allocLoop_kernel h hsz hold hfuel)

end

end Micro86.Vm
