import Micro86.Mm.Paging

/-!
# Building page tables

The routines of `mm/vm.c` that build and free the table under one page directory, on the list of
free pages of `mm/kalloc.c`.  Addresses and sizes are 32-bit words.

* `Mem` — a page directory, the free pages, and the addresses whose entries have been written.
* `PageDir.entry` — the table as a map from page numbers to present entries.
-/

namespace Micro86.Vm

open Exec Function
open Mm (PGSIZE NPDENTRIES NPTENTRIES KERNBASE DEVSPACE PDX PTX PGROUNDDOWN Pte)

/-! ## Constants -/

def EXTMEM : Nat := 0x100000

def KERNLINK : Nat := KERNBASE + EXTMEM

def V2P (a : Nat) : Nat := (a + 2 ^ 32 - KERNBASE) % 2 ^ 32

def P2V (a : Nat) : Nat := (a + KERNBASE) % 2 ^ 32

def PGROUNDUP (sz : Nat) : Nat := PGROUNDDOWN ((sz + PGSIZE - 1) % 2 ^ 32)

/-- The address of directory index `d`, table index `t` and offset `o`. -/
def PGADDR (d t o : Nat) : Nat := (d * 2 ^ 22 + t * 2 ^ 12 + o) % 2 ^ 32

def NPAGES : Nat := 2 ^ 20

/-- The symbols of `kernel.ld`: the data segment starts on the page after a text segment that is
    linked at `KERNLINK`, and the kernel lies in the 4 MB that are mapped at boot. -/
structure Image where
  data : Nat
  kend : Nat
  aligned : data % PGSIZE = 0
  text : KERNLINK < data
  bss : data ≤ kend
  small : kend ≤ KERNBASE + 0x400000

/-! ## The state -/

/-- A page table: the page it is in, and its entries. -/
structure PageTab where
  frame : Nat
  ptes : Nat → Pte

abbrev PageDir := Nat → Option PageTab

/-- What has been stored in pages: one byte everywhere, or data from a physical address on. -/
inductive Store where
  | fill (frame : Nat) (b : UInt8)
  | data (pa : Nat) (bytes : List UInt8)

structure Mem where
  pgdir : PageDir
  /-- The page of the directory. -/
  root : Nat
  /-- `kmem.freelist`, as numbers of pages. -/
  freelist : List Nat
  /-- Addresses whose entries have been written, last first; no routine reads this field. -/
  writes : List Nat
  /-- Stores other than of entries, last first; no routine reads this field. -/
  stores : List Store

def Mem.setPte (m : Mem) (va : Nat) (e : Pte) : Mem :=
  { m with
    pgdir := update m.pgdir (PDX va)
      ((m.pgdir (PDX va)).map fun t => { t with ptes := update t.ptes (PTX va) e })
    writes := va :: m.writes }

def Mem.memset (m : Mem) (frame : Nat) (b : UInt8) : Mem :=
  { m with stores := .fill frame b :: m.stores }

def Mem.put (m : Mem) (frame : Nat) : Mem :=
  { m.memset frame 1 with freelist := frame :: m.freelist }

def noPte : Pte := ⟨0, false, false, false⟩

def kalloc : Exec Mem (Option Nat) := fun m =>
  match m.freelist with
  | [] => .ok (none, m)
  | f :: fs => .ok (some f, { m with freelist := fs })

/-- `walkpgdir`, with the entry in place of its address. -/
def walkpgdir (va : Nat) (alloc : Bool) : Exec Mem (Option Pte) := do
  let m ← Exec.get
  match m.pgdir (PDX va) with
  | some t => pure (some (t.ptes (PTX va)))
  | none =>
    if !alloc then pure none
    else do
      match ← kalloc with
      | none => pure none
      | some f => do
        Exec.modify fun m =>
          { m.memset f 0 with pgdir := update m.pgdir (PDX va) (some ⟨f, fun _ => noPte⟩) }
        pure (some noPte)

structure Perm where
  w : Bool
  u : Bool

def Perm.pte (perm : Perm) (pa : Nat) : Pte := ⟨pa / PGSIZE, true, perm.w, perm.u⟩

def mapLoop (perm : Perm) : Nat → Nat → Nat → Nat → Exec Mem Bool
  | 0, _, _, _ => pure true
  | fuel + 1, a, last, pa => do
    match ← walkpgdir a true with
    | none => pure false
    | some e =>
      if e.p then Exec.panic "mappages: remap"
      else do
        Exec.modify fun m => m.setPte a (perm.pte pa)
        if a = last then pure true
          else mapLoop perm fuel ((a + PGSIZE) % 2 ^ 32) last ((pa + PGSIZE) % 2 ^ 32)

/-- `mappages`; `false` for -1.  The loop visits no page twice. -/
def mappages (va size pa : Nat) (perm : Perm) : Exec Mem Bool :=
  mapLoop perm NPAGES (PGROUNDDOWN va) (PGROUNDDOWN ((va + size + 2 ^ 32 - 1) % 2 ^ 32)) pa

section

variable (img : Image) (phystop : Nat)

def kfree (pa : Nat) : Exec Mem Unit :=
  let v := P2V pa
  if v % PGSIZE ≠ 0 ∨ v < img.kend ∨ V2P v ≥ phystop then Exec.panic "kfree"
  else Exec.modify fun m => m.put (V2P v / PGSIZE)

def deallocPage (a : Nat) (e : Pte) : Exec Mem Unit :=
  if e.p = false then pure ()
  else if e.frame * PGSIZE = 0 then Exec.panic "kfree"
  else do
    kfree img phystop (e.frame * PGSIZE)
    Exec.modify fun m => m.setPte a noPte

def deallocLoop : Nat → Nat → Nat → Exec Mem Unit
  | 0, _, _ => pure ()
  | fuel + 1, a, oldsz =>
    if a < oldsz then do
      match ← walkpgdir a false with
      -- `PGADDR(PDX(a) + 1, 0, 0) - PGSIZE`, and `PGSIZE` is added
      | none => deallocLoop fuel (PGADDR (PDX a + 1) 0 0) oldsz
      | some e => do
        deallocPage img phystop a e
        deallocLoop fuel ((a + PGSIZE) % 2 ^ 32) oldsz
    else pure ()

def deallocuvm (oldsz newsz : Nat) : Exec Mem Nat :=
  if newsz ≥ oldsz then pure oldsz
  else do
    deallocLoop img phystop NPAGES (PGROUNDUP newsz) oldsz
    pure newsz

def freeTables : Exec Mem Unit :=
  forUpTo NPDENTRIES fun i => do
    let m ← Exec.get
    match m.pgdir i with
    | some t => kfree img phystop (t.frame * PGSIZE)
    | none => pure ()

def freevm : Exec Mem Unit := do
  let _ ← deallocuvm img phystop KERNBASE 0
  freeTables img phystop
  let m ← Exec.get
  kfree img phystop (m.root * PGSIZE)

variable (oldsz newsz : Nat) in
/-- The loop of `allocuvm`, for at most `fuel` pages; `false` if there is no memory. -/
def allocLoop : Nat → Nat → Exec Mem Bool
  | 0, _ => pure true
  | fuel + 1, a =>
    if a < newsz then do
      match ← kalloc with
      | none => do
        let _ ← deallocuvm img phystop newsz oldsz
        pure false
      | some mem => do
        Exec.modify fun m => m.memset mem 0
        if ← mappages a PGSIZE (mem * PGSIZE) ⟨true, true⟩ then
          allocLoop fuel ((a + PGSIZE) % 2 ^ 32)
        else do
          let _ ← deallocuvm img phystop newsz oldsz
          kfree img phystop (mem * PGSIZE)
          pure false
    else pure true

def allocuvm (oldsz newsz : Nat) : Exec Mem Nat :=
  if newsz < oldsz then pure oldsz
  else do
    if ← allocLoop img phystop oldsz newsz NPAGES (PGROUNDUP oldsz) then pure newsz else pure 0

def clearpteu (uva : Nat) : Exec Mem Unit := do
  match ← walkpgdir uva false with
  | none => Exec.panic "clearpteu"
  | some e => Exec.modify fun m => m.setPte uva { e with u := false }

/-! ## The mappings of the kernel -/

structure Kmap where
  virt : Nat
  physStart : Nat
  physEnd : Nat
  perm : Perm

def Kmap.size (k : Kmap) : Nat := (k.physEnd + 2 ^ 32 - k.physStart) % 2 ^ 32

def kmap : List Kmap :=
  [⟨KERNBASE, 0, EXTMEM, ⟨true, false⟩⟩,
   ⟨KERNLINK, V2P KERNLINK, V2P img.data, ⟨false, false⟩⟩,
   ⟨img.data, V2P img.data, phystop, ⟨true, false⟩⟩,
   ⟨DEVSPACE, DEVSPACE, 0, ⟨true, false⟩⟩]

def mapAll : List Kmap → Exec Mem Bool
  | [] => pure true
  | k :: ks => do
    if ← mappages k.virt k.size k.physStart k.perm then mapAll ks
    else do
      freevm img phystop
      pure false

def setupkvm : Exec Mem Bool := do
  match ← kalloc with
  | none => pure false
  | some f => do
    Exec.modify fun m => { m.memset f 0 with pgdir := fun _ => none, root := f }
    if P2V phystop > DEVSPACE then Exec.panic "PHYSTOP too high"
    else mapAll img phystop (kmap img phystop)

end

/-! ## `kfree` -/

/-- A page between the end of the kernel and `PHYSTOP`. -/
structure Image.Frame (img : Image) (phystop f : Nat) : Prop where
  page : f < NPAGES
  above : img.kend ≤ P2V (f * PGSIZE)
  below : f * PGSIZE < phystop

section

variable {img : Image} {phystop f : Nat} {m : Mem} {E : String → Prop}

theorem Image.Frame.ne_zero (h : img.Frame phystop f) : f * PGSIZE ≠ 0 := by
  intro hf
  have habove := h.above
  have htext := img.text
  have hbss := img.bss
  simp only [P2V, KERNLINK] at *
  omega

theorem wp_kfree {Q : Unit → Mem → Prop} (h : img.Frame phystop f) (hQ : Q () (m.put f)) :
    wp (kfree img phystop (f * PGSIZE)) Q E m := by
  have hpage := h.page
  have hv : P2V (f * PGSIZE) % PGSIZE = 0 ∧ V2P (P2V (f * PGSIZE)) = f * PGSIZE := by
    simp only [V2P, P2V, NPAGES, PGSIZE, Mm.KERNBASE_eq] at *
    omega
  have hok : ¬ (P2V (f * PGSIZE) % PGSIZE ≠ 0 ∨ P2V (f * PGSIZE) < img.kend ∨
      V2P (P2V (f * PGSIZE)) ≥ phystop) := by
    rw [hv.1, hv.2]
    rintro (h1 | h1 | h1)
    · exact h1 rfl
    · exact absurd h.above (Nat.not_le.mpr h1)
    · exact absurd h.below (Nat.not_lt.mpr h1)
  unfold kfree
  rw [if_neg hok, wp_modify, hv.2, Nat.mul_div_cancel _ (by decide)]
  exact hQ

-- its test must not be evaluated while a proof about it is elaborated
attribute [irreducible] kfree

end

/-! ## Pages -/

def PageDir.entry (d : PageDir) (x : Nat) : Option Pte :=
  match d (x / NPTENTRIES) with
  | some t => if (t.ptes (x % NPTENTRIES)).p then some (t.ptes (x % NPTENTRIES)) else none
  | none => none

theorem PDX_page {x : Nat} (hx : x < NPAGES) : PDX (x * PGSIZE) = x / NPTENTRIES := by
  simp only [NPAGES, PDX, PGSIZE, NPTENTRIES, NPDENTRIES] at *
  omega

theorem PTX_page (x : Nat) : PTX (x * PGSIZE) = x % NPTENTRIES := by
  simp only [PTX, PGSIZE, NPTENTRIES]
  omega

section

variable {m m' m'' : Mem} {x y : Nat} {e : Pte} {t : PageTab}

theorem entry_of_table (h : m.pgdir (x / NPTENTRIES) = some t) :
    m.pgdir.entry x = if (t.ptes (x % NPTENTRIES)).p then some (t.ptes (x % NPTENTRIES))
      else none := by
  simp [PageDir.entry, h]

theorem entry_of_none (h : m.pgdir (x / NPTENTRIES) = none) : m.pgdir.entry x = none := by
  simp [PageDir.entry, h]

theorem entry_setPte (hx : x < NPAGES) (h : m.pgdir (x / NPTENTRIES) = some t) :
    (m.setPte (x * PGSIZE) e).pgdir.entry y = if y = x then (if e.p then some e else none)
    else m.pgdir.entry y := by
  have htab : (m.setPte (x * PGSIZE) e).pgdir (x / NPTENTRIES) =
      some { t with ptes := update t.ptes (x % NPTENTRIES) e } := by
    simp [Mem.setPte, PDX_page hx, PTX_page, h]
  by_cases hdir : y / NPTENTRIES = x / NPTENTRIES
  · have htab' : (m.setPte (x * PGSIZE) e).pgdir (y / NPTENTRIES) =
        some { t with ptes := update t.ptes (x % NPTENTRIES) e } := by
      rw [hdir, htab]
    rw [entry_of_table htab', entry_of_table (hdir ▸ h)]
    by_cases hyx : y = x
    · subst hyx
      simp
    have hne : y % NPTENTRIES ≠ x % NPTENTRIES := by
      intro heq
      apply hyx
      rw [← Nat.div_add_mod y NPTENTRIES, hdir, heq, Nat.div_add_mod]
    simp [update_of_ne hne, if_neg hyx]
  · have hyx : y ≠ x := fun h => hdir (by rw [h])
    have hsame : (m.setPte (x * PGSIZE) e).pgdir (y / NPTENTRIES) = m.pgdir (y / NPTENTRIES) := by
      simp [Mem.setPte, PDX_page hx, update_of_ne hdir]
    rw [if_neg hyx]
    unfold PageDir.entry
    rw [hsame]

end

end Micro86.Vm
