import Micro86.Lib.Exec

/-!
# Page tables

Constants of `include/mmu.h` and `include/memlayout.h`, and a page table as the memory management
unit sees it: 1024 directory entries, each without a table or with one of 1024 entries.

* `walkpgdir` — the entry of a virtual address, if its directory entry is present.
-/

namespace Micro86.Mm

def PGSIZE : Nat := 4096

def NPDENTRIES : Nat := 1024

def NPTENTRIES : Nat := 1024

def KERNBASE : Nat := 0xC0000000

def DEVSPACE : Nat := 0xFE000000

def PDX (va : Nat) : Nat := va / 2 ^ 22 % NPDENTRIES

def PTX (va : Nat) : Nat := va / 2 ^ 12 % NPTENTRIES

def PGROUNDDOWN (a : Nat) : Nat := a - a % PGSIZE

/-- `setupkvm` panics when there is more physical memory than fits between `KERNBASE` and
    `DEVSPACE`. -/
def NFRAMES : Nat := (DEVSPACE - KERNBASE) / PGSIZE

theorem PGSIZE_eq : PGSIZE = 4096 := rfl
theorem NPDENTRIES_eq : NPDENTRIES = 1024 := rfl
theorem NPTENTRIES_eq : NPTENTRIES = 1024 := rfl
theorem KERNBASE_eq : KERNBASE = 3221225472 := rfl
theorem NFRAMES_eq : NFRAMES = 253952 := rfl

/-- A page-table entry: the page frame and the flags `PTE_P`, `PTE_W`, `PTE_U`. -/
structure Pte where
  frame : Nat
  p : Bool
  w : Bool
  u : Bool
deriving DecidableEq

def Pte.ofWord (x : Nat) : Pte := ⟨x / PGSIZE, x.testBit 0, x.testBit 1, x.testBit 2⟩

def Pte.isUser (e : Pte) : Bool := e.p && e.u

abbrev Tables := Nat → Option (Nat → Pte)

def walkpgdir (tab : Tables) (va : Nat) : Option Pte :=
  (tab (PDX va)).map fun pgtab => pgtab (PTX va)

/-- `P2V` of the start of a page frame. -/
def P2V (frame : Nat) : Nat := (frame * PGSIZE + KERNBASE) % 2 ^ 32

/-- The page frames the allocator hands out, from `end` to `PHYSTOP`. -/
structure Ram where
  first : Nat
  top : Nat
  fits : top ≤ NFRAMES

/-- A page table as `setupkvm` and `allocuvm` make it: user pages come from the allocator, and every
    page frame of the allocator is mapped for the kernel at its `P2V` address. -/
structure PageTable (ram : Ram) where
  tab : Tables
  user : ∀ va e, walkpgdir tab va = some e → e.isUser = true →
    ram.first ≤ e.frame ∧ e.frame < ram.top
  kern : ∀ f, ram.first ≤ f → f < ram.top → walkpgdir tab (P2V f) = some ⟨f, true, true, false⟩

/-- The physical address behind `va`, if the page is mapped with `PTE_P` and `PTE_U`. -/
def userAddr (tab : Tables) (va : Nat) : Option Nat :=
  match walkpgdir tab va with
  | some e => if e.isUser then some (e.frame * PGSIZE + va % PGSIZE) else none
  | none => none

section

variable {tab : Tables} {va vb : Nat} {e : Pte}

theorem sub_PGROUNDDOWN (a : Nat) : a - PGROUNDDOWN a = a % PGSIZE := by
  have := Nat.mod_le a PGSIZE
  unfold PGROUNDDOWN
  omega

theorem PDX_eq (va : Nat) : PDX va = va / PGSIZE / NPTENTRIES % NPDENTRIES := by
  rw [PDX, Nat.div_div_eq_div_mul]
  rfl

theorem walkpgdir_congr (h : va / PGSIZE = vb / PGSIZE) : walkpgdir tab va = walkpgdir tab vb := by
  have ht : PTX va = PTX vb := congrArg (· % NPTENTRIES) h
  unfold walkpgdir
  rw [PDX_eq, PDX_eq, h, ht]

theorem walkpgdir_PGROUNDDOWN : walkpgdir tab (PGROUNDDOWN va) = walkpgdir tab va := by
  refine walkpgdir_congr ?_
  simp only [PGROUNDDOWN, PGSIZE]
  omega

theorem user_of_walk (h : walkpgdir tab va = some e) (hu : e.isUser = true) :
    userAddr tab va = some (e.frame * PGSIZE + va % PGSIZE) := by
  simp [userAddr, h, hu]

theorem user_eq_some {x : Nat} (h : userAddr tab va = some x) :
    ∃ e, walkpgdir tab va = some e ∧ e.isUser = true ∧ x = e.frame * PGSIZE + va % PGSIZE := by
  unfold userAddr at h
  split at h
  · rename_i e he
    split at h
    · rename_i hu
      exact ⟨e, he, hu, (Option.some.inj h).symm⟩
    · cases h
  · cases h

theorem P2V_add {ram : Ram} {f o : Nat} (hf : f < ram.top) (ho : o < PGSIZE) :
    P2V f ≠ 0 ∧ (P2V f + o) / PGSIZE = P2V f / PGSIZE ∧ (P2V f + o) % PGSIZE = o := by
  have := ram.fits
  simp only [P2V, PGSIZE, KERNBASE_eq, NFRAMES_eq] at *
  omega

end

end Micro86.Mm
