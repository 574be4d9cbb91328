import Micro86.Lib.Bytes
import Micro86.Mm.Uvm

/-!
# The mappings of the kernel

`set_phystop` of `boot/multiboot.c` finds the end of physical memory, and `setupkvm` maps the memory
up to it from `KERNBASE` on.

* `lt_setPhystop` — how the entries of the memory map determine `PHYSTOP`.
* `setupkvm_spec` — the mappings are made above `KERNBASE`, without a panic, if memory ends below
  `DEVSPACE`.
* `setupkvm_remap` — with 1 GB or more, the mapping of memory runs into that of the devices.
-/

namespace Micro86.Vm

open Exec
open Mm (PGSIZE NPDENTRIES NPTENTRIES KERNBASE DEVSPACE NFRAMES PDX PTX PGROUNDDOWN Pte)

/-! ## `set_phystop` -/

/-- The tag with the memory map, `mmap->size` bytes, with a stride that is not zero. -/
structure MmapTag where
  size : Nat
  bytes : ByteBlock size
  stride : bytes.u32 8 ≠ 0

def MmapTag.entrySize (tag : MmapTag) : Nat := tag.bytes.u32 8

def MULTIBOOT_MEMORY_AVAILABLE : Nat := 1

def mmapEntrySize : Nat := 24

/-- The new `max_top` after an entry. -/
def mmapTop (start len type maxTop : Nat) : Nat :=
  if type ≠ MULTIBOOT_MEMORY_AVAILABLE then maxTop
  else if len = 0 then maxTop
  else if start ≥ 0x100000000 then maxTop
  else
    let stop := (start + len) % 2 ^ 64
    if stop < start then maxTop
    else
      let stop := if stop > 0x100000000 then 0x100000000 else stop
      if stop > maxTop then stop else maxTop

def mmapLoop (tag : MmapTag) : Nat → Nat → Nat → Nat
  | 0, _, maxTop => maxTop
  | fuel + 1, p, maxTop =>
    if p + mmapEntrySize ≤ tag.size then
      mmapLoop tag fuel (p + tag.entrySize)
        (mmapTop (tag.bytes.u64 p) (tag.bytes.u64 (p + 8)) (tag.bytes.u32 (p + 16)) maxTop)
    else maxTop

def physLimit : Nat := 0x7DFE0000

def setPhystop : Option MmapTag → Nat
  | none => 0
  | some tag =>
    let maxTop := mmapLoop tag (tag.size + 1) 16 0
    if maxTop = 0 then 0
    else
      let maxTop := if maxTop > physLimit then physLimit else maxTop
      PGROUNDDOWN maxTop % 2 ^ 32

/-- The end of the available memory that the entry at `p` describes, or 0. -/
def MmapTag.top (tag : MmapTag) (p : Nat) : Nat :=
  mmapTop (tag.bytes.u64 p) (tag.bytes.u64 (p + 8)) (tag.bytes.u32 (p + 16)) 0

theorem mmapTop_eq (start len type maxTop : Nat) :
    mmapTop start len type maxTop = max maxTop (mmapTop start len type 0) := by
  unfold mmapTop
  grind

theorem le_mmapLoop {tag : MmapTag} {fuel p maxTop y : Nat} (hfuel : tag.size < p + fuel) :
    y ≤ mmapLoop tag fuel p maxTop ↔ y ≤ maxTop ∨ ∃ i, p + i * tag.entrySize + mmapEntrySize ≤
      tag.size ∧ y ≤ tag.top (p + i * tag.entrySize) := by
  have hpos : 0 < tag.entrySize := Nat.pos_of_ne_zero tag.stride
  induction fuel generalizing p maxTop with
  | zero =>
    refine (or_iff_left ?_).symm
    rintro ⟨i, hi, -⟩
    omega
  | succ fuel ih =>
    have hnext : ∀ i, p + (i + 1) * tag.entrySize = p + tag.entrySize + i * tag.entrySize := by
      intro i
      rw [Nat.succ_mul]
      omega
    unfold mmapLoop
    split
    · rename_i hin
      refine (ih (by omega)).trans ?_
      rw [mmapTop_eq, le_max_iff, or_assoc]
      refine or_congr_right ⟨?_, ?_⟩
      · rintro (h | ⟨i, hi, h⟩)
        · exact ⟨0, by rwa [Nat.zero_mul], by rw [Nat.zero_mul]; exact h⟩
        · exact ⟨i + 1, by rwa [hnext], by rwa [hnext]⟩
      · rintro ⟨_ | i, hi, h⟩
        · rw [Nat.zero_mul] at h
          exact .inl h
        · rw [hnext] at hi h
          exact .inr ⟨i, hi, h⟩
    · refine (or_iff_left ?_).symm
      rintro ⟨i, hi, -⟩
      omega

/-- **`PHYSTOP`** is above `x` if some entry, and the limit, leave room for its page. -/
theorem lt_setPhystop {tag : MmapTag} {x : Nat} : x < setPhystop (some tag) ↔
    PGROUNDDOWN x + PGSIZE ≤ physLimit ∧ ∃ i, 16 + i * tag.entrySize + mmapEntrySize ≤ tag.size ∧
      PGROUNDDOWN x + PGSIZE ≤ tag.top (16 + i * tag.entrySize) := by
  have hloop : PGROUNDDOWN x + PGSIZE ≤ mmapLoop tag (tag.size + 1) 16 0 ↔ _ :=
    (le_mmapLoop (by omega)).trans (or_iff_right (Nat.not_le.mpr (Nat.add_pos_right _ (by decide))))
  rw [← hloop]
  simp only [setPhystop]
  generalize mmapLoop tag (tag.size + 1) 16 0 = top
  split_ifs
  all_goals
    simp only [PGROUNDDOWN, PGSIZE, physLimit] at *
    omega

theorem setPhystop_le (tag : Option MmapTag) :
    setPhystop tag ≤ physLimit ∧ setPhystop tag % PGSIZE = 0 := by
  have hround : ∀ a ≤ physLimit, PGROUNDDOWN a % 2 ^ 32 ≤ physLimit ∧
      PGROUNDDOWN a % 2 ^ 32 % PGSIZE = 0 := by
    intro a ha
    simp only [PGROUNDDOWN, PGSIZE] at *
    omega
  cases tag with
  | none => exact ⟨Nat.zero_le _, rfl⟩
  | some tag =>
    simp only [setPhystop]
    split
    · exact ⟨Nat.zero_le _, rfl⟩
    split
    · exact hround _ le_rfl
    · exact hround _ (by omega)

/-! ## Pages of a mapping -/

def Kmap.Covers (k : Kmap) (y : Nat) : Prop :=
  ∃ j ≤ morePages k.size, y = pageAt (k.virt / PGSIZE) j

/-- A mapping that starts with a whole page. -/
structure Kmap.Aligned (k : Kmap) : Prop where
  page : k.virt / PGSIZE * PGSIZE = k.virt
  virt : k.virt / PGSIZE < NPAGES
  phys : k.physStart < 2 ^ 32

structure Kmap.Ok (k : Kmap) : Prop extends k.Aligned where
  stop : k.virt + k.size ≤ 2 ^ 32
  kernel : ∀ y, k.Covers y → KPAGE ≤ y

def Kmap.Apart (k k' : Kmap) : Prop := ∀ y, k.Covers y → ¬ k'.Covers y

section

variable {img : Image} {phystop x y n : Nat} {m m' : Mem} {k : Kmap} {ks : List Kmap}
variable {perm : Perm} {f : Nat} {fs : List Nat} {d : PageDir}

theorem Kmap.covers_wrap (hv : k.virt = x * PGSIZE) (hn : morePages k.size + 1 = n)
    (hx : x < NPAGES) : k.Covers y ↔ y < NPAGES ∧ (x ≤ y ∧ y < x + n ∨ y + NPAGES < x + n) := by
  have hpage : k.virt / PGSIZE = x := by
    rw [hv]
    exact Nat.mul_div_cancel _ (by decide)
  unfold Kmap.Covers
  rw [hpage]
  constructor
  · rintro ⟨j, hj, rfl⟩
    refine ⟨pageAt_lt x j, ?_⟩
    simp only [pageAt, NPAGES] at *
    omega
  · rintro ⟨hy, hin | hin⟩
    · refine ⟨y - x, by omega, ?_⟩
      rw [pageAt, Nat.add_sub_cancel' hin.1, Nat.mod_eq_of_lt hy]
    · refine ⟨y + NPAGES - x, by omega, ?_⟩
      rw [pageAt, Nat.add_sub_cancel' (by omega), Nat.add_mod_right, Nat.mod_eq_of_lt hy]

theorem morePages_mul (hn : 0 < n) (hn' : n ≤ NPAGES) : morePages (n * PGSIZE) + 1 = n := by
  simp only [morePages, NPAGES, PGSIZE] at *
  omega

theorem Kmap.covers_iff (hv : k.virt = x * PGSIZE) (hs : k.size = n * PGSIZE)
    (hn : 0 < n) (hx : x + n ≤ NPAGES) : k.Covers y ↔ x ≤ y ∧ y < x + n := by
  have hmore : morePages k.size + 1 = n := by
    rw [hs]
    exact morePages_mul hn (by omega)
  rw [Kmap.covers_wrap hv hmore (by omega)]
  omega

/-! ## `setupkvm` -/

/-- What the loop of `setupkvm` does for the mappings `ks`. -/
structure Kmapped (img : Image) (phystop : Nat) (ks : List Kmap)
    (m : Mem) (ok : Bool) (m' : Mem) : Prop where
  writes : ∀ w ∈ m'.writes, w ∈ m.writes ∨ KERNBASE ≤ w
  free : ∀ f ∈ m'.freelist, img.Frame phystop f
  nomem :
    ok = false → ∀ D : Finset Nat, (∀ k ∈ ks, ∀ y, k.Covers y → y / NPTENTRIES ∈ D) → ¬ m.Enough D
  owned : ok = true → m'.Owned (img.Frame phystop)
  outside : ok = true → ∀ y, (∀ k ∈ ks, ¬ k.Covers y) → m'.pgdir.entry y = m.pgdir.entry y
  maps : ok = true → ∀ k ∈ ks, ∀ j ≤ morePages k.size,
    m'.pgdir.entry (pageAt (k.virt / PGSIZE) j) =
      some (k.perm.pte ((k.physStart + j * PGSIZE) % 2 ^ 32))
  less : ok = true → m'.freelist <:+ m.freelist
  census : ok = true → m'.census = m.census
  freed : ok = false → m'.freelist = m.census
  stores : m.StoresIn m.census m'

theorem kernel_addr (h : KPAGE ≤ y) : KERNBASE ≤ y * PGSIZE := by
  simp only [KPAGE, Mm.KERNBASE_eq, PGSIZE] at *
  omega

theorem Kmap.Aligned.mappages_spec (hk : k.Aligned)
    (hfresh : ∀ y, k.Covers y → m.pgdir.entry y = none) :
    wp (mappages k.virt k.size k.physStart k.perm)
      (fun ok m' => ∃ i, Mapped m m' (k.virt / PGSIZE) (morePages k.size) k.physStart k.perm i ∧
        (if ok then i = morePages k.size + 1
         else i ≤ morePages k.size ∧ ∀ D,
           (∀ j ≤ morePages k.size, pageAt (k.virt / PGSIZE) j / NPTENTRIES ∈ D) → ¬ m.Enough D))
      (fun _ => False) m := by
  have hspec : wp (mappages (k.virt / PGSIZE * PGSIZE) k.size k.physStart k.perm) _ _ m :=
    Vm.mappages_spec k.perm hk.virt hk.phys fun j hj => hfresh _ ⟨j, hj, rfl⟩
  rwa [hk.page] at hspec

theorem Mapped.of_not_covers {pa i : Nat}
    (h : Mapped m m' (k.virt / PGSIZE) (morePages k.size) pa perm i) (hy : ¬ k.Covers y) :
    m'.pgdir.entry y = m.pgdir.entry y := h.outside y fun j hj heq => hy ⟨j, hj, heq⟩

theorem mapAll_spec (hm : m.Owned (img.Frame phystop)) (huser : ∀ x < KPAGE, m.pgdir.entry x = none)
    (hok : ∀ k ∈ ks, k.Ok)
    (hapart : ks.Pairwise Kmap.Apart) (hfresh : ∀ k ∈ ks, ∀ y, k.Covers y →
      m.pgdir.entry y = none) :
    wp (mapAll img phystop ks) (Kmapped img phystop ks m) (fun _ => False) m := by
  induction ks generalizing m with
  | nil =>
    exact ⟨fun _ => .inl, hm.free, fun h => (nomatch h), fun _ => hm,
      fun _ _ _ => rfl, fun _ k hk => absurd hk List.not_mem_nil,
      fun _ => List.suffix_refl _, fun _ => rfl, fun h => (nomatch h), .refl _ m⟩
  | cons k ks ih =>
    have hk := hok k List.mem_cons_self
    rw [List.pairwise_cons] at hapart
    unfold mapAll
    refine (hk.mappages_spec (hfresh k List.mem_cons_self)).seq fun ok m1 h1 => ?_
    obtain ⟨i, hmap, hi⟩ := h1
    have huser1 : ∀ x < KPAGE, m1.pgdir.entry x = none := by
      intro x hx
      rw [hmap.of_not_covers fun hc => hx.not_ge (hk.kernel x hc)]
      exact huser x hx
    have hwrites : ∀ w ∈ m1.writes, w ∈ m.writes ∨ KERNBASE ≤ w := by
      intro w hw
      rcases hmap.writes w hw with hw | ⟨j, hj, rfl⟩
      · exact .inl hw
      · exact .inr (kernel_addr (hk.kernel _ ⟨j, hj, rfl⟩))
    have howned := hmap.owned _ hm
    have hcensus : m1.census = m.census :=
      census_congr hmap.core fun x hx => by rw [huser1 x hx, huser x hx]
    have hstores : m.StoresIn m.census m1 := hmap.stores.mono (core_subset m)
    cases ok with
    | true =>
      rw [if_pos rfl] at hi ⊢
      have hfresh1 : ∀ k' ∈ ks, ∀ y, k'.Covers y → m1.pgdir.entry y = none := by
        intro k' hk' y hy
        rw [hmap.of_not_covers fun hc => hapart.1 k' hk' y hc hy]
        exact hfresh k' (.tail _ hk') y hy
      refine (ih howned huser1 (fun k' hk' => hok k' (.tail _ hk')) hapart.2 hfresh1).imp
        fun ok m' h => ?_
      refine ⟨fun w hw => ?_, h.free, fun hno D hD he => ?_, h.owned,
        fun hyes y hy => ?_, fun hyes k' hk' j hj => ?_, fun hyes => (h.less hyes).trans hmap.free,
        fun hyes => (h.census hyes).trans hcensus, fun hno =>
          (h.freed hno).trans hcensus, hstores.trans (hcensus ▸ h.stores)⟩
      · rcases h.writes w hw with hw | hw
        · exact hwrites w hw
        · exact .inr hw
      · refine h.nomem hno D (fun k' hk' => hD k' (.tail _ hk')) (hmap.enough D (fun j hj => ?_) he)
        exact hD k List.mem_cons_self _ ⟨j, hj, rfl⟩
      · rw [h.outside hyes y fun k' hk' => hy k' (.tail _ hk')]
        exact hmap.of_not_covers (hy k List.mem_cons_self)
      · rcases List.mem_cons.mp hk' with rfl | hk'
        · rw [h.outside hyes _ fun k' hk' => hapart.1 k' hk' _ ⟨j, hj, rfl⟩]
          exact hmap.mapped j hj (by omega)
        · exact h.maps hyes k' hk' j hj
    | false =>
      rw [if_neg (by decide)] at hi ⊢
      have hs : m1.Sound img phystop := by
        refine ⟨howned, fun x hx e he => ?_⟩
        rw [huser1 x hx] at he
        cases he
      refine (freevm_spec hs).seq fun _ m2 h2 => ?_
      obtain ⟨-, hfree, hidle, hfreed, hstores2⟩ := h2
      refine ⟨fun w hw => hwrites w (hidle huser1 ▸ hw), hfree,
        fun _ D hD => hi.2 D fun j hj => ?_, fun h => (nomatch h), fun h => (nomatch h),
        fun h => (nomatch h), fun h => (nomatch h), fun h =>
          (nomatch h), fun _ => hfreed.trans hcensus, hstores.trans (hcensus ▸ hstores2)⟩
      exact hD k List.mem_cons_self _ ⟨j, hj, rfl⟩

/-- Memory ends after the kernel's data and does not reach the devices. -/
structure Image.Fits (img : Image) (phystop : Nat) : Prop where
  page : phystop % PGSIZE = 0
  data : V2P img.data < phystop
  devices : KERNBASE + phystop ≤ DEVSPACE

theorem V2P_data (img : Image) : V2P img.data + KERNBASE = img.data := by
  have htext := img.text
  have hbss := img.bss
  have hsmall := img.small
  simp only [V2P, KERNLINK] at *
  omega

def Image.dataPage (img : Image) : Nat := img.data / PGSIZE

theorem Image.data_eq (img : Image) : img.data = img.dataPage * PGSIZE := by
  have haligned := img.aligned
  simp only [Image.dataPage, PGSIZE] at *
  omega

theorem Image.dataPage_bounds (img : Image) :
    KPAGE + 256 < img.dataPage ∧ img.dataPage ≤ KPAGE + 1024 := by
  have htext := img.text
  have hbss := img.bss
  have hsmall := img.small
  rw [img.data_eq] at htext hbss
  simp only [KERNLINK, EXTMEM, KPAGE, PGSIZE] at *
  omega

theorem text_size (img : Image) (perm : Perm) :
    Kmap.size ⟨KERNLINK, V2P KERNLINK, V2P img.data, perm⟩ =
      (img.dataPage - (KPAGE + 256)) * PGSIZE := by
  have hlink : V2P KERNLINK = EXTMEM := by decide
  have hbounds := img.dataPage_bounds
  have hV2P := V2P_data img
  rw [img.data_eq] at hV2P ⊢
  simp only [Kmap.size, EXTMEM, KPAGE, Mm.KERNBASE_eq, PGSIZE] at *
  omega

theorem memory_size (img : Image) (hpage : phystop % PGSIZE = 0)
    (hdata : V2P img.data < phystop) (htop : phystop < 2 ^ 32) (perm : Perm) :
    Kmap.size ⟨img.data, V2P img.data, phystop, perm⟩ =
      (KPAGE + phystop / PGSIZE - img.dataPage) * PGSIZE := by
  have hV2P := V2P_data img
  rw [img.data_eq] at hV2P hdata ⊢
  simp only [Kmap.size, KPAGE, Mm.KERNBASE_eq, PGSIZE] at *
  omega

def DPAGE : Nat := DEVSPACE / PGSIZE

theorem Image.Fits.bounds (h : img.Fits phystop) : img.dataPage < KPAGE + phystop / PGSIZE ∧
    KPAGE + phystop / PGSIZE ≤ DPAGE ∧ phystop < 2 ^ 32 := by
  have hpage := h.page
  have hdata := h.data
  have hdev := h.devices
  have hV2P := V2P_data img
  rw [img.data_eq] at hV2P hdata
  simp only [KPAGE, DPAGE, DEVSPACE, Mm.KERNBASE_eq, PGSIZE] at *
  omega

theorem dirs_covers : Kmap.Covers ⟨KERNBASE, 0, EXTMEM, perm⟩ y ↔ KPAGE ≤ y ∧ y < KPAGE + 256 := by
  have hvirt : KERNBASE = KPAGE * PGSIZE := by decide
  have hsize : (EXTMEM + 2 ^ 32 - 0) % 2 ^ 32 = 256 * PGSIZE := by decide
  exact Kmap.covers_iff hvirt hsize (by decide) (by decide)

theorem text_covers : Kmap.Covers ⟨KERNLINK, V2P KERNLINK, V2P img.data, perm⟩ y ↔
    KPAGE + 256 ≤ y ∧ y < img.dataPage := by
  have hbounds := img.dataPage_bounds
  have hpages : KPAGE + 1024 ≤ NPAGES := by decide
  have hvirt : KERNLINK = (KPAGE + 256) * PGSIZE := by decide
  have hstop : KPAGE + 256 + (img.dataPage - (KPAGE + 256)) = img.dataPage :=
    Nat.add_sub_cancel' hbounds.1.le
  have hcovers := Kmap.covers_iff (y := y) hvirt (text_size img perm) (Nat.sub_pos_of_lt hbounds.1)
    (by rw [hstop]; exact hbounds.2.trans hpages)
  rwa [hstop] at hcovers

theorem memory_covers (perm : Perm) (h : img.Fits phystop) :
    Kmap.Covers ⟨img.data, V2P img.data, phystop, perm⟩ y ↔ img.dataPage ≤ y ∧
      y < KPAGE + phystop / PGSIZE := by
  have hbounds := h.bounds
  have hpages : DPAGE ≤ NPAGES := by decide
  rw [Kmap.covers_iff img.data_eq (memory_size img h.page h.data hbounds.2.2 perm)
    (by omega) (by omega)]
  omega

theorem devices_covers (perm : Perm) :
    Kmap.Covers ⟨DEVSPACE, DEVSPACE, 0, perm⟩ y ↔ DPAGE ≤ y ∧ y < NPAGES := by
  have hvirt : DEVSPACE = DPAGE * PGSIZE := by decide
  have hsize : (0 + 2 ^ 32 - DEVSPACE) % 2 ^ 32 = (NPAGES - DPAGE) * PGSIZE := by decide
  have hpages : DPAGE + (NPAGES - DPAGE) = NPAGES := by decide
  have hcovers :=
    Kmap.covers_iff (k := ⟨DEVSPACE, DEVSPACE, 0, perm⟩) (y := y) hvirt hsize (by decide) hpages.le
  rwa [hpages] at hcovers

theorem kmap_aligned (img : Image) (phystop : Nat) : ∀ k ∈ kmap img phystop, k.Aligned := by
  have hdata := img.dataPage_bounds
  have hpages : KPAGE + 1024 < NPAGES := by decide
  intro k hk
  simp only [kmap, List.mem_cons, List.not_mem_nil, or_false] at hk
  rcases hk with rfl | rfl | rfl | rfl
  · exact ⟨by decide, by decide, by decide⟩
  · have hlink : KERNLINK / PGSIZE * PGSIZE = KERNLINK ∧ KERNLINK / PGSIZE < NPAGES ∧
        V2P KERNLINK < 2 ^ 32 := by decide
    exact ⟨hlink.1, hlink.2.1, hlink.2.2⟩
  · refine ⟨img.data_eq.symm, ?_, Nat.mod_lt _ (Nat.two_pow_pos 32)⟩
    show img.dataPage < NPAGES
    omega
  · exact ⟨by decide, by decide, by decide⟩

theorem kmap_ok (h : img.Fits phystop) : ∀ k ∈ kmap img phystop, k.Ok := by
  have hdata := img.dataPage_bounds
  have hbounds := h.bounds
  have hdev : KPAGE ≤ DPAGE ∧ DPAGE * PGSIZE ≤ 2 ^ 32 ∧
      (KPAGE + 1024) * PGSIZE ≤ 2 ^ 32 := by decide
  intro k hk
  have haligned := kmap_aligned img phystop k hk
  simp only [kmap, List.mem_cons, List.not_mem_nil, or_false] at hk
  rcases hk with rfl | rfl | rfl | rfl
  · exact ⟨haligned, by decide, fun y hy => (dirs_covers.mp hy).1⟩
  · refine ⟨haligned, ?_, fun y hy => ?_⟩
    · have hlink : KERNLINK = (KPAGE + 256) * PGSIZE := by decide
      rw [text_size, hlink, ← Nat.add_mul, Nat.add_sub_cancel' (by omega)]
      exact (Nat.mul_le_mul_right _ hdata.2).trans hdev.2.2
    · have := text_covers.mp hy
      omega
  · refine ⟨haligned, ?_, fun y hy => ?_⟩
    · rw [memory_size img h.page h.data hbounds.2.2]
      show img.data + _ ≤ _
      rw [img.data_eq, ← Nat.add_mul, Nat.add_sub_cancel' (by omega)]
      exact (Nat.mul_le_mul_right _ hbounds.2.1).trans hdev.2.1
    · have := (memory_covers _ h).mp hy
      omega
  refine ⟨haligned, by decide, fun y hy => ?_⟩
  have := (devices_covers _).mp hy
  omega

theorem kmap_apart (h : img.Fits phystop) : (kmap img phystop).Pairwise Kmap.Apart := by
  have hbounds := h.bounds
  have hdata := img.dataPage_bounds
  simp only [kmap, List.pairwise_cons, List.mem_cons, List.not_mem_nil,
    forall_eq_or_imp, Kmap.Apart, dirs_covers, text_covers,
    memory_covers _ h, devices_covers, false_imp_iff, implies_true, List.Pairwise.nil, and_true]
  refine ⟨⟨fun y hy => ?_, fun y hy => ?_, fun y hy => ?_⟩, ⟨fun y hy => ?_, fun y hy => ?_⟩,
    fun y hy => ?_⟩ <;> omega

/-- The result of `setupkvm` on free pages that `kfree` accepts: there is no memory, or the table
    has the pages of the kernel only, the first of them at physical address 0. -/
structure Setup (img : Image) (phystop : Nat) (m : Mem) (ok : Bool) (m' : Mem) : Prop where
  writes : ∀ w ∈ m'.writes, w ∈ m.writes ∨ KERNBASE ≤ w
  free : ∀ f ∈ m'.freelist, img.Frame phystop f
  nomem : ok = false → m.freelist.length ≤ 256
  owned : ok = true → m'.Owned (img.Frame phystop)
  user : ok = true → ∀ x < KPAGE, m'.pgdir.entry x = none
  kernel : ok = true → ∃ e, m'.pgdir.entry KPAGE = some e ∧ e.frame = 0
  less : ok = true → m'.freelist <:+ m.freelist
  memory : ok = true → ∀ f, img.dataPage ≤ KPAGE + f → f < phystop / PGSIZE →
    m'.pgdir.entry (KPAGE + f) = some ⟨f, true, true, false⟩
  system : ok = true → ∀ y, KPAGE ≤ y → ∀ e, m'.pgdir.entry y = some e → e.u = false
  last : ok = true → ∃ e, m'.pgdir.entry (NPAGES - 1) = some e
  census : ok = true → m'.census = m.freelist
  freed : ok = false → List.Perm m'.freelist m.freelist
  stores : m.StoresIn m.freelist m'

def kernelDirs : Finset Nat := (Finset.range NPDENTRIES).filter (768 ≤ ·)

theorem kernelDirs_mem (hy : KPAGE ≤ y) (hy' : y < NPAGES) : y / NPTENTRIES ∈ kernelDirs := by
  refine Finset.mem_filter.mpr ⟨Finset.mem_range.mpr ?_, ?_⟩ <;>
    simp only [KPAGE, NPAGES, Mm.KERNBASE_eq, PGSIZE, NPTENTRIES, NPDENTRIES] at * <;> omega

theorem setupkvm_cons (hfree : m.freelist = f :: fs) :
    setupkvm img phystop m = (if P2V phystop > DEVSPACE then Exec.panic "PHYSTOP too high"
      else mapAll img phystop (kmap img phystop) : Exec Mem Bool)
      { m.memset f 0 with freelist := fs, pgdir := fun _ => none, root := f } := by
  have hkalloc : kalloc m = .ok (some f, { m with freelist := fs }) := by
    unfold kalloc
    rw [hfree]
  unfold setupkvm
  rw [bind_of_ok hkalloc]
  exact bind_of_ok rfl

theorem tabFrames_none : PageDir.tabFrames (fun _ => none) = 0 := by
  rw [tabFrames_eq]
  exact Finset.sum_eq_zero fun _ _ => rfl

theorem census_empty {writes : List Nat} {stores : List Store} :
    Mem.census ⟨fun _ => none, f, fs, writes, stores⟩ = ((f :: fs : List Nat) : Multiset Nat) := by
  unfold Mem.census Mem.core
  rw [tabFrames_none, userFrames_zero fun y _ => entry_of_none rfl,
    Multiset.add_zero, Multiset.add_cons, Multiset.add_zero, Multiset.cons_coe]

def KernelEntries (img : Image) (phystop : Nat) (d : PageDir) : Prop :=
  ∀ k ∈ kmap img phystop, ∀ j ≤ morePages k.size,
  d.entry (pageAt (k.virt / PGSIZE) j) = some (k.perm.pte ((k.physStart + j * PGSIZE) % 2 ^ 32))

theorem memory_entry (h : img.Fits phystop) (hf : img.dataPage ≤ KPAGE + f)
    (hf' : f < phystop / PGSIZE)
    (hmaps : KernelEntries img phystop d) : d.entry (KPAGE + f) = some ⟨f, true, true, false⟩ := by
  have hmem : ⟨img.data, V2P img.data, phystop, ⟨true, false⟩⟩ ∈ kmap img phystop := by
    simp [kmap]
  obtain ⟨j, hj, hpage⟩ := (memory_covers ⟨true, false⟩ h).mpr ⟨hf, Nat.add_lt_add_left hf' KPAGE⟩
  have hentry := hmaps _ hmem j hj
  rw [hpage, hentry]
  -- page `f` is `j` pages after the first page of data
  have hframe : (V2P img.data + j * PGSIZE) % 2 ^ 32 / PGSIZE = f := by
    have hV2P := V2P_data img
    have hpage' : KPAGE + f = pageAt img.dataPage j := hpage
    rw [img.data_eq] at hV2P ⊢
    simp only [pageAt, KPAGE, NPAGES, Mm.KERNBASE_eq, PGSIZE] at *
    omega
  simp only [Perm.pte, hframe]

theorem kernel_entry {y : Nat} {e : Pte} (he : d.entry y = some e)
    (hmaps : KernelEntries img phystop d)
    (hout : ∀ y, (∀ k ∈ kmap img phystop, ¬ k.Covers y) → d.entry y = none) : e.u = false := by
  by_cases hcovered : ∃ k ∈ kmap img phystop, k.Covers y
  · obtain ⟨k, hk, j, hj, rfl⟩ := hcovered
    rw [hmaps k hk j hj] at he
    cases he
    simp only [kmap, List.mem_cons, List.not_mem_nil, or_false] at hk
    rcases hk with rfl | rfl | rfl | rfl <;> rfl
  · rw [hout y fun k hk hc => hcovered ⟨k, hk, hc⟩] at he
    cases he

/-- The last page of the address space belongs to the devices. -/
theorem last_entry (hmaps : KernelEntries img phystop d) : ∃ e, d.entry (NPAGES - 1) = some e := by
  have hmem : ⟨DEVSPACE, DEVSPACE, 0, ⟨true, false⟩⟩ ∈ kmap img phystop := by
    simp [kmap]
  obtain ⟨j, hj, hpage⟩ :=
    (devices_covers ⟨true, false⟩).mpr (show DPAGE ≤ NPAGES - 1 ∧ NPAGES - 1 < NPAGES by decide)
  rw [hpage]
  exact ⟨_, hmaps _ hmem j hj⟩

theorem setupkvm_nil (hfree : m.freelist = []) : setupkvm img phystop m = .ok (false, m) := by
  have hkalloc : kalloc m = .ok (none, m) := by
    unfold kalloc
    rw [hfree]
  unfold setupkvm
  rw [bind_of_ok hkalloc]
  rfl

theorem setupkvm_check (h : P2V phystop > DEVSPACE) :
    wp (setupkvm img phystop) (fun _ m' => m'.writes = m.writes) (· = "PHYSTOP too high") m := by
  unfold wp
  cases hfree : m.freelist with
  | nil =>
    rw [setupkvm_nil hfree]
  | cons f fs =>
    rw [setupkvm_cons hfree, if_pos h]
    rfl

theorem setupkvm_spec (h : img.Fits phystop) (hm : ∀ f ∈ m.freelist, img.Frame phystop f) :
    wp (setupkvm img phystop) (Setup img phystop m) (fun _ => False) m := by
  have hdev : ¬ P2V phystop > DEVSPACE := by
    have hdevices := h.devices
    simp only [P2V] at *
    omega
  cases hfree : m.freelist with
  | nil =>
    unfold wp
    rw [setupkvm_nil hfree]
    exact ⟨fun _ => .inl, hm, fun _ => by rw [hfree]; exact Nat.zero_le _, fun h => (by
      cases h), fun h => (by cases h), fun h => (by cases h), fun h => (by cases h),
      fun h => (by cases h), fun h => (by cases h), fun h =>
        (by cases h), fun h => (by cases h), fun _ => List.Perm.refl _, .refl _ m⟩
  | cons f fs =>
    rw [hfree] at hm
    unfold wp
    rw [setupkvm_cons hfree, if_neg hdev]
    have howned : Mem.Owned (img.Frame phystop)
        { m.memset f 0 with freelist := fs, pgdir := fun _ => none, root := f } :=
      ⟨fun g hg => hm g (.tail _ hg), hm f List.mem_cons_self, fun i t ht => (by cases ht)⟩
    refine (mapAll_spec howned (fun x _ => entry_of_none rfl)
      (kmap_ok h) (kmap_apart h) fun k hk y hy => entry_of_none rfl).imp fun ok m' hok => ?_
    have hcensus : Mem.census
        { m.memset f 0 with freelist := fs, pgdir := fun _ => none, root := f } = m.freelist := by
      rw [hfree]
      exact census_empty
    refine ⟨hok.writes, hok.free, fun hno => ?_, hok.owned, fun hyes x hx => ?_,
      fun hyes => ?_, fun hyes => ?_, fun hyes g hg hg' => ?_,
      fun hyes y _ e he => ?_, fun hyes => ?_, fun hyes => (hok.census hyes).trans hcensus,
      fun hno => Multiset.coe_eq_coe.mp ((hok.freed hno).trans hcensus), ?_⟩
    · have hfew := hok.nomem hno kernelDirs fun k hk y hy => ?_
      · have hcard : kernelDirs.card = 256 := by decide +kernel
        unfold Mem.Enough at hfew
        simp only [Finset.filter_true] at hfew
        rw [hfree, List.length_cons]
        omega
      · obtain ⟨j, hj, rfl⟩ := hy
        exact kernelDirs_mem ((kmap_ok h k hk).kernel _ ⟨j, hj, rfl⟩) (pageAt_lt _ _)
    · exact hok.outside hyes x fun k hk hy => hx.not_ge ((kmap_ok h k hk).kernel x hy)
    · refine ⟨_, hok.maps hyes _ List.mem_cons_self 0 (Nat.zero_le _), rfl⟩
    · rw [hfree]
      exact (hok.less hyes).trans (List.suffix_cons f fs)
    · exact memory_entry h hg hg' (hok.maps hyes)
    · exact kernel_entry he (hok.maps hyes) (hok.outside hyes)
    · exact last_entry (hok.maps hyes)
    · have hstores := hok.stores
      rw [hcensus] at hstores
      refine Mem.StoresIn.trans (.memset ?_ rfl) hstores
      rw [hfree]
      exact .head _

/-! ## Too much memory -/

theorem wp_mapAll_cons {Q : Bool → Mem → Prop} {E : String → Prop} {D : Finset Nat} (hk : k.Aligned)
    (hfresh : ∀ y, k.Covers y → m.pgdir.entry y = none) (hD : ∀ y, k.Covers y →
      y / NPTENTRIES ∈ D) (hm : m.Enough D)
    (hnext : ∀ m', Mapped m m' (k.virt / PGSIZE) (morePages k.size)
      k.physStart k.perm (morePages k.size + 1) → m'.Enough D →
      wp (mapAll img phystop ks) Q E m') : wp (mapAll img phystop (k :: ks)) Q E m := by
  have hD' : ∀ j ≤ morePages k.size, pageAt (k.virt / PGSIZE) j / NPTENTRIES ∈ D :=
    fun j hj => hD _ ⟨j, hj, rfl⟩
  unfold mapAll
  refine (hk.mappages_spec hfresh).bind (fun _ h => h.elim) fun ok m' h => ?_
  obtain ⟨i, hmap, hi⟩ := h
  cases ok with
  | true =>
    rw [if_pos rfl] at hi ⊢
    subst hi
    exact hnext m' hmap (hmap.enough D hD' hm)
  | false =>
    exact absurd hm (hi.2 D hD')

/-- The directory entries of the addresses from `KERNBASE` on for memory up to `physLimit`, which
    wrap around. -/
def wrapDirs : Finset Nat := (Finset.range NPDENTRIES).filter fun i => i < 248 ∨ 768 ≤ i

/-- The mapping of memory that reaches the last address or wraps around. -/
theorem memory_wraps (hpage : phystop % PGSIZE = 0) (hlow : 0x40000000 ≤ phystop)
    (hhigh : phystop ≤ physLimit) :
    Kmap.Covers ⟨img.data, V2P img.data, phystop, perm⟩ y ↔ y < NPAGES ∧
      (img.dataPage ≤ y ∨ y + NPAGES < KPAGE + phystop / PGSIZE) := by
  have hdata := img.dataPage_bounds
  have htop : V2P img.data < phystop ∧ phystop < 2 ^ 32 := by
    have hV2P := V2P_data img
    have hbss := img.bss
    have hsmall := img.small
    simp only [physLimit] at *
    omega
  have hpages : NPAGES ≤ KPAGE + phystop / PGSIZE ∧
      KPAGE + phystop / PGSIZE ≤ img.dataPage + NPAGES ∧ KPAGE + 1024 < NPAGES := by
    simp only [KPAGE, NPAGES, Mm.KERNBASE_eq, PGSIZE] at *
    omega
  have hmore := morePages_mul (n := KPAGE + phystop / PGSIZE - img.dataPage) (by omega) (by omega)
  rw [← memory_size img hpage htop.1 htop.2 perm] at hmore
  rw [Kmap.covers_wrap img.data_eq hmore (by omega)]
  omega

theorem wrapDirs_mem (hy : y < NPAGES) (h : KPAGE ≤ y ∨ y + NPAGES < KPAGE + phystop / PGSIZE)
    (hhigh : phystop ≤ physLimit) : y / NPTENTRIES ∈ wrapDirs := by
  refine Finset.mem_filter.mpr ⟨Finset.mem_range.mpr ?_, ?_⟩ <;>
    simp only [physLimit, KPAGE, NPAGES, Mm.KERNBASE_eq, PGSIZE, NPTENTRIES, NPDENTRIES]
      at * <;> omega

/-- With 1 GB or more, the mapping of memory covers that of the devices. -/
theorem setupkvm_remap (hpage : phystop % PGSIZE = 0) (hlow : 0x40000000 ≤ phystop)
    (hhigh : phystop ≤ physLimit) (hm : 505 ≤ m.freelist.length) :
    setupkvm img phystop m = .error "mappages: remap" := by
  have hdata := img.dataPage_bounds
  have hcheck : ¬ P2V phystop > DEVSPACE := by
    simp only [P2V, physLimit, DEVSPACE, Mm.KERNBASE_eq] at *
    omega
  have hwrap : KPAGE + phystop / PGSIZE ≤ KPAGE + NPAGES := by
    simp only [physLimit, NPAGES, PGSIZE] at *
    omega
  have hdev : KPAGE + 1024 ≤ DPAGE ∧ DPAGE < NPAGES := by decide
  cases hfree : m.freelist with
  | nil =>
    rw [hfree] at hm
    exact absurd hm (by decide)
  | cons f fs =>
    rw [setupkvm_cons hfree, if_neg hcheck]
    have henough : Mem.Enough wrapDirs
        { m.memset f 0 with freelist := fs, pgdir := fun _ => none, root := f } := by
      have hcard : wrapDirs.card = 504 := by decide +kernel
      rw [hfree, List.length_cons] at hm
      unfold Mem.Enough
      simp only [Finset.filter_true]
      omega
    refine wp.panics ?_
    have haligned := kmap_aligned img phystop
    simp only [kmap, List.forall_mem_cons] at haligned
    obtain ⟨h0, h1, h2, h3, -⟩ := haligned
    unfold kmap
    refine wp_mapAll_cons h0 (fun y _ => entry_of_none rfl) (fun y hy => ?_)
      henough fun m1 hm1 he1 => ?_
    · have := dirs_covers.mp hy
      exact wrapDirs_mem (by omega) (.inl this.1) hhigh
    refine wp_mapAll_cons h1 (fun y hy => ?_) (fun y hy => ?_) he1 fun m2 hm2 he2 => ?_
    · have := text_covers.mp hy
      rw [hm1.of_not_covers fun hy0 => by have := dirs_covers.mp hy0; omega]
      exact entry_of_none rfl
    · have := text_covers.mp hy
      exact wrapDirs_mem (by omega) (.inl (by omega)) hhigh
    refine wp_mapAll_cons h2 (fun y hy => ?_) (fun y hy => ?_) he2 fun m3 hm3 he3 => ?_
    · have := (memory_wraps hpage hlow hhigh).mp hy
      rw [hm2.of_not_covers fun hy1 =>
        by have := text_covers.mp hy1; omega, hm1.of_not_covers fun hy0 => by
        have := dirs_covers.mp hy0; omega]
      exact entry_of_none rfl
    · have := (memory_wraps hpage hlow hhigh).mp hy
      refine wrapDirs_mem this.1 ?_ hhigh
      omega
    -- the first page of the devices has been mapped already
    have hmemory : Kmap.Covers ⟨img.data, V2P img.data, phystop, ⟨true, false⟩⟩ DPAGE :=
      (memory_wraps hpage hlow hhigh).mpr ⟨hdev.2, .inl (by omega)⟩
    obtain ⟨j, hj, hdevice⟩ := hmemory
    have hused := hm3.mapped j hj (by omega)
    rw [← hdevice] at hused
    unfold mapAll wp
    rw [bind_of_error (h3.page ▸ mappages_remap _ hdev.2 hused)]

/-! ## The address map -/

/-- The mappings of the kernel lie between `KERNBASE` and the end of the address space and have no
    page in common, `setupkvm` panics with its own message or not at all and maps nothing below
    `KERNBASE`, and `P2V` tells the addresses of memory apart. -/
structure KernelMapOk (img : Image) (phystop : Nat) : Prop where
  maps : P2V phystop > DEVSPACE ∨
    (∀ k ∈ kmap img phystop, k.virt + k.size ≤ 2 ^ 32 ∧ ∀ y, k.Covers y → KPAGE ≤ y) ∧
      (kmap img phystop).Pairwise Kmap.Apart
  runs : ∀ m : Mem, (∀ f ∈ m.freelist, img.Frame phystop f) →
    wp (setupkvm img phystop) (fun _ m' => ∀ w ∈ m'.writes, w ∈ m.writes ∨
      KERNBASE ≤ w) (· = "PHYSTOP too high") m
  apart : ∀ a b, a < phystop → b < phystop → P2V a = P2V b → a = b

theorem KernelMapOk.not_remap (h : KernelMapOk img phystop) (hfree : m.freelist = fs)
    (hm : ∀ f ∈ fs, img.Frame phystop f) : setupkvm img phystop m ≠ .error "mappages: remap" := by
  intro hpanic
  have hmessage := (h.runs m (hfree ▸ hm)).of_error hpanic
  exact absurd hmessage (by decide)

theorem P2V_inj {a b : Nat} (ha : a < 2 ^ 32) (hb : b < 2 ^ 32) (h : P2V a = P2V b) : a = b := by
  simp only [P2V] at h
  omega

/-- Memory that ends before the kernel's data is mapped over the whole address space. -/
theorem memory_below (hpage : phystop % PGSIZE = 0) (hlow : phystop ≤ V2P img.data) :
    Kmap.Covers ⟨img.data, V2P img.data, phystop, perm⟩ 0 := by
  have hdata := img.dataPage_bounds
  have hpages : KPAGE + 1024 < NPAGES := by decide
  have hmore :
      NPAGES ≤ img.dataPage + morePages (Kmap.size ⟨img.data, V2P img.data, phystop, perm⟩) := by
    have hV2P := V2P_data img
    rw [img.data_eq] at hV2P hlow ⊢
    simp only [Kmap.size, morePages, NPAGES, Mm.KERNBASE_eq, PGSIZE] at *
    omega
  obtain ⟨n, hn⟩ :
      ∃ n, morePages (Kmap.size ⟨img.data, V2P img.data, phystop, perm⟩) + 1 = n := ⟨_, rfl⟩
  have hlt : 0 + NPAGES < img.dataPage + n := by
    rw [Nat.zero_add, ← hn]
    exact hmore.trans_lt (Nat.add_lt_add_left (Nat.lt_succ_self _) _)
  have hpos : 0 < NPAGES := by decide
  exact (Kmap.covers_wrap img.data_eq hn (hdata.2.trans_lt hpages)).mpr ⟨hpos, .inr hlt⟩

theorem kernel_map_fits (img : Image) (tag : Option MmapTag) :
    KernelMapOk img (setPhystop tag) ↔ V2P img.data < setPhystop tag ∧
      setPhystop tag < 0x40000000 := by
  obtain ⟨hlimit, hpage⟩ := setPhystop_le tag
  generalize setPhystop tag = phystop at hlimit hpage ⊢
  have hdata := img.dataPage_bounds
  have hdev : KPAGE + 1024 ≤ DPAGE ∧ DPAGE < NPAGES := by decide
  have hmem : ⟨img.data, V2P img.data, phystop, ⟨true, false⟩⟩ ∈ kmap img phystop := by
    simp [kmap]
  constructor
  · intro h
    refine ⟨?_, ?_⟩
    · by_contra hlow
      have hcheck : ¬ P2V phystop > DEVSPACE := by
        have hV2P := V2P_data img
        have hbss := img.bss
        have hsmall := img.small
        simp only [P2V, DEVSPACE, Mm.KERNBASE_eq] at *
        omega
      have hkernel :=
        ((h.maps.resolve_left hcheck).1 _ hmem).2 0 (memory_below hpage (Nat.not_lt.mp hlow))
      exact absurd hkernel (by decide)
    · by_contra hhigh
      have hcheck : ¬ P2V phystop > DEVSPACE := by
        simp only [P2V, physLimit, DEVSPACE, Mm.KERNBASE_eq] at *
        omega
      have hapart := (h.maps.resolve_left hcheck).2
      simp only [kmap, List.pairwise_cons, List.mem_cons, List.not_mem_nil,
        or_false, forall_eq] at hapart
      refine hapart.2.2.1 DPAGE
        ((memory_wraps hpage (Nat.not_lt.mp hhigh) hlimit).mpr ⟨hdev.2, .inl (by omega)⟩) ?_
      exact (devices_covers _).mpr ⟨le_rfl, hdev.2⟩
  · rintro ⟨hlow, hhigh⟩
    have hinj : ∀ a b, a < phystop → b < phystop → P2V a = P2V b → a = b :=
      fun a b ha hb => P2V_inj (by omega) (by omega)
    by_cases hcheck : P2V phystop > DEVSPACE
    · refine ⟨.inl hcheck, fun m hm => ?_, hinj⟩
      exact (setupkvm_check hcheck).imp fun _ m' h w hw => .inl (h ▸ hw)
    have hfits : img.Fits phystop := by
      refine ⟨hpage, hlow, ?_⟩
      simp only [P2V, Mm.KERNBASE_eq] at *
      omega
    refine ⟨.inr ⟨fun k hk => ⟨(kmap_ok hfits k hk).stop, (kmap_ok hfits k hk).kernel⟩,
      kmap_apart hfits⟩, fun m hm => ?_, hinj⟩
    exact (setupkvm_spec hfits hm).mono (fun _ _ h => h.writes) fun _ h => h.elim

end

def smallImage : Image :=
  ⟨KERNBASE + 0x110000, KERNBASE + 0x180000, by decide, by decide, by decide, by decide⟩

def twoGigabytes : MmapTag where
  size := 40
  bytes := ByteBlock.zero.write 0 (ByteBlock.le32 6 ++ ByteBlock.le32 40 ++
    ByteBlock.le32 24 ++ ByteBlock.le32 0 ++ ByteBlock.le32 0x100000 ++
    ByteBlock.le32 0 ++ ByteBlock.le32 0x7FF00000 ++ ByteBlock.le32 0 ++
      ByteBlock.le32 1 ++ ByteBlock.le32 0)
  stride := by decide

def bootPages : List Nat := (List.range' 384 640).reverse

theorem boot_frames : ∀ f ∈ bootPages, smallImage.Frame physLimit f := by
  intro f hf
  rw [bootPages, List.mem_reverse, List.mem_range'_1] at hf
  have hkend : smallImage.kend = 0xC0180000 := rfl
  refine ⟨?_, ?_, ?_⟩ <;> simp only [P2V, physLimit, NPAGES, Mm.KERNBASE_eq, PGSIZE] <;> omega

theorem twoGigabytes_top : setPhystop (some twoGigabytes) = physLimit := by
  have hloop : mmapLoop twoGigabytes 41 16 0 = 0x80000000 := by decide +kernel
  show (if mmapLoop twoGigabytes 41 16 0 = 0 then 0 else _) = physLimit
  rw [hloop]
  decide

/-- The kernel does not start with 2 GB of memory. -/
theorem two_gigabytes_remap :
    (∀ f ∈ bootPages, smallImage.Frame (setPhystop (some twoGigabytes)) f) ∧
    setupkvm smallImage (setPhystop (some twoGigabytes)) ⟨fun _ => none, 0, bootPages, [], []⟩ =
      .error "mappages: remap" ∧
    ¬ KernelMapOk smallImage (setPhystop (some twoGigabytes)) := by
  rw [twoGigabytes_top]
  have hpanic : setupkvm smallImage physLimit ⟨fun _ => none, 0, bootPages, [], []⟩ =
      .error "mappages: remap" :=
    setupkvm_remap (by decide) (by decide) le_rfl
      (by rw [bootPages, List.length_reverse, List.length_range']; decide)
  refine ⟨boot_frames, hpanic, fun h => ?_⟩
  exact h.not_remap (by dsimp only) boot_frames hpanic

end Micro86.Vm
