import Micro86.Exec.Safe

/-!
# The initial user stack

`exec` copies the arguments to the address space it has built, from the end of the stack downwards,
while the process still runs in its own.

* `copyout_inside`, `copyout_outside` — `copyout` between the guard page and `sz`, and anywhere else
  below `sp`.
* `pushStrings_spec`, `pushArgs_spec` — the strings, and the words below them.
* `initial_stack` — what a program finds at `esp`.
-/

namespace Micro86.ExecFile

open Exec
open Mm (PGSIZE KERNBASE NPTENTRIES NPDENTRIES NFRAMES Pte Tables)
open Vm (Image PageDir Mem Store NPAGES PGROUNDUP pages KPAGE Loaded)

/-! ## Tables -/

section

variable {d : PageDir} {va x : Nat} {e : Pte}

theorem page_index (va : Nat) : Mm.PDX va = va / PGSIZE % NPAGES / NPTENTRIES ∧
    Mm.PTX va = va / PGSIZE % NPAGES % NPTENTRIES := by
  simp only [Mm.PDX, Mm.PTX, PGSIZE, NPAGES, NPTENTRIES, NPDENTRIES]
  omega

theorem entry_eq_walk (d : PageDir) (va : Nat) :
    d.entry (va / PGSIZE % NPAGES) = (Mm.walkpgdir (tables d) va).filter (fun e => e.p) := by
  obtain ⟨hdir, htab⟩ := page_index va
  unfold Mm.walkpgdir tables PageDir.entry
  rw [hdir, htab]
  cases d (va / PGSIZE % NPAGES / NPTENTRIES) with
  | none => rfl
  | some t => rw [Option.map_some, Option.map_some, Option.filter_some]

theorem entry_of_walk (h : Mm.walkpgdir (tables d) va = some e) (hp : e.p = true) :
    d.entry (va / PGSIZE % NPAGES) = some e := by
  rw [entry_eq_walk, h, Option.filter_some, if_pos hp]

theorem walk_of_entry (h : d.entry (va / PGSIZE % NPAGES) = some e) :
    Mm.walkpgdir (tables d) va = some e ∧ e.p = true := by
  rw [entry_eq_walk] at h
  exact Option.filter_eq_some_iff.mp h

theorem page_of_lt (hva : va < 2 ^ 32) : va / PGSIZE % NPAGES = va / PGSIZE :=
  Nat.mod_eq_of_lt (by simp only [PGSIZE, NPAGES]; omega)

theorem user_iff {a : Nat} : Mm.userAddr (tables d) va = some a ↔
    ∃ e, d.entry (va / PGSIZE % NPAGES) = some e ∧ e.u = true ∧
      a = e.frame * PGSIZE + va % PGSIZE := by
  constructor
  · intro h
    obtain ⟨e, hwalk, hu, ha⟩ := Mm.user_eq_some h
    have hpu : e.p = true ∧ e.u = true := by simpa [Pte.isUser] using hu
    exact ⟨e, entry_of_walk hwalk hpu.1, hpu.2, ha⟩
  · rintro ⟨e, hentry, hu, rfl⟩
    obtain ⟨hwalk, hp⟩ := walk_of_entry hentry
    exact Mm.user_of_walk hwalk (by simp [Pte.isUser, hp, hu])

end

section

variable {img : Image} {phystop : Nat} {d : PageDir} {x a b : Nat} {e : Pte}

theorem KernelHalf.below (h : KernelHalf img phystop d) (he : d.entry x = some e)
    (hu : e.u = true) : x < KPAGE := by
  by_contra hge
  rw [h.system x (Nat.not_lt.mp hge) e he] at hu
  cases hu

theorem user_frame (h : KernelHalf img phystop d) (ha : Mm.userAddr (tables d) a = some b) :
    b / PGSIZE ∈ d.userFrames := by
  obtain ⟨e, he, hu, rfl⟩ := user_iff.mp ha
  rw [Nat.mul_comm, Nat.mul_add_div (by decide),
    Nat.div_eq_of_lt (Nat.mod_lt _ (by decide)), Nat.add_zero]
  exact Vm.mem_userFrames (h.below he hu) he

theorem frame_dataPage {f : Nat} (hfits : img.Fits phystop) (h : img.Frame phystop f) :
    img.dataPage - KPAGE ≤ f ∧ f < phystop / PGSIZE := by
  have habove := h.above
  have hbelow := h.below
  have hpage := hfits.page
  have hbss := img.bss
  rw [img.data_eq] at hbss
  simp only [Vm.P2V, KPAGE, PGSIZE] at *
  omega

theorem top_le (hfits : img.Fits phystop) : phystop / PGSIZE ≤ Mm.NFRAMES := by
  have hdevices := hfits.devices
  simp only [Mm.NFRAMES_eq, Mm.DEVSPACE, Mm.KERNBASE_eq, PGSIZE] at *
  omega

def ramOf (hfits : img.Fits phystop) : Mm.Ram where
  first := img.dataPage - KPAGE
  top := phystop / PGSIZE
  fits := top_le hfits

theorem kernel_page {f : Nat} (hf : f < NFRAMES) : Mm.P2V f / PGSIZE % NPAGES = KPAGE + f := by
  simp only [Mm.P2V, KPAGE, NPAGES, Mm.NFRAMES_eq, Mm.KERNBASE_eq, PGSIZE] at *
  omega

def pageTable (hfits : img.Fits phystop)
    (huser : ∀ x < KPAGE, ∀ e, d.entry x = some e → img.Frame phystop e.frame)
    (hkernel : KernelHalf img phystop d) : Mm.PageTable (ramOf hfits) where
  tab := tables d
  user := by
    intro va e hwalk hu
    have hpu : e.p = true ∧ e.u = true := by simpa [Pte.isUser] using hu
    have hentry := entry_of_walk hwalk hpu.1
    by_cases hx : va / PGSIZE % NPAGES < KPAGE
    · exact frame_dataPage hfits (huser _ hx e hentry)
    have hsystem := hkernel.system _ (Nat.not_lt.mp hx) e hentry
    rw [hpu.2] at hsystem
    cases hsystem
  kern := by
    intro f hf hf'
    have hlt : f < NFRAMES := Nat.lt_of_lt_of_le hf' (ramOf hfits).fits
    refine (walk_of_entry ?_).1
    rw [kernel_page hlt]
    exact hkernel.memory f (Nat.sub_le_iff_le_add'.mp hf) hf'

end

/-! ## User memory -/

def userByte (d : PageDir) (mem : Nat → UInt8) (va : Nat) : Option UInt8 :=
  (Mm.userAddr (tables d) va).map mem

def Holds (d : PageDir) (mem : Nat → UInt8) (va : Nat) (bytes : List UInt8) : Prop :=
  ∀ i b, bytes[i]? = some b → userByte d mem (va + i) = some b

def stackBase (sz : Nat) : Nat := (guardPage sz + 1) * PGSIZE

/-- Bytes have been written from `va` on, and nothing else of user memory or outside it. -/
structure Put (d : PageDir) (va : Nat) (bytes : List UInt8) (mem mem' : Nat → UInt8) : Prop where
  holds : Holds d mem' va bytes
  rest : ∀ a < 2 ^ 32, a < va ∨ va + bytes.length ≤ a → userByte d mem' a = userByte d mem a
  other : ∀ a, a / PGSIZE ∉ d.userFrames → mem' a = mem a

/-- What is needed of the two address spaces when arguments are copied. -/
structure Space (img : Image) (phystop : Nat) (s : Sys) (sz : Nat) : Prop where
  fits : img.Fits phystop
  built : Built img phystop s.vm sz
  kernel : KernelHalf img phystop s.vm.pgdir
  nodup : s.vm.census.Nodup
  callerUser : ∀ x < KPAGE, ∀ e, s.proc.pgdir.entry x = some e → img.Frame phystop e.frame
  callerKernel : KernelHalf img phystop s.proc.pgdir

section

variable {img : Image} {phystop : Nat} {s : Sys} {sz va : Nat} {bytes : List UInt8}

theorem user_inj {d : PageDir} {a b x : Nat} (hkernel : KernelHalf img phystop d)
    (hnodup : d.userFrames.Nodup) (ha : a < 2 ^ 32) (hb : b < 2 ^ 32)
    (hax : Mm.userAddr (tables d) a = some x) (hbx : Mm.userAddr (tables d) b = some x) :
    a = b := by
  obtain ⟨e, he, hu, rfl⟩ := user_iff.mp hax
  obtain ⟨e', he', hu', heq⟩ := user_iff.mp hbx
  rw [page_of_lt ha] at he
  rw [page_of_lt hb] at he'
  have hframe : e.frame = e'.frame ∧ a % PGSIZE = b % PGSIZE := by
    simp only [PGSIZE] at *
    omega
  have hpage := Vm.entry_inj hnodup (hkernel.below he hu) (hkernel.below he' hu') he he' hframe.1
  rw [← Nat.div_add_mod a PGSIZE, ← Nat.div_add_mod b PGSIZE, hpage, hframe.2]

theorem sz_lt (h : Built img phystop s.vm sz) : sz < 2 ^ 32 := by
  have hlt := h.high
  simp only [KPAGE, Mm.KERNBASE_eq, PGSIZE] at *
  omega

theorem stack_page {a : Nat} (hbuilt : Built img phystop s.vm sz)
    (hlow : stackBase sz ≤ a) (hhigh : a < sz) :
    a / PGSIZE < sz / PGSIZE ∧ a / PGSIZE ≠ guardPage sz ∧ a < 2 ^ 32 := by
  have haligned := hbuilt.aligned
  have hlt := hbuilt.high
  simp only [stackBase, KPAGE, Mm.KERNBASE_eq, PGSIZE] at *
  omega

theorem stack_mapped {a : Nat} (hbuilt : Built img phystop s.vm sz)
    (hlow : stackBase sz ≤ a) (hhigh : a < sz) : (Mm.userAddr (tables s.vm.pgdir) a).isSome := by
  obtain ⟨hpage, hne, hlt⟩ := stack_page hbuilt hlow hhigh
  obtain ⟨e, he, hu⟩ := hbuilt.mapped _ hpage hne
  refine Option.isSome_iff_exists.mpr ⟨_, user_iff.mpr ⟨e, ?_, hu, rfl⟩⟩
  rw [page_of_lt hlt]
  exact he

theorem Space.userNodup (h : Space img phystop s sz) : s.vm.pgdir.userFrames.Nodup :=
  Multiset.nodup_of_le (Multiset.le_add_left _ _) h.nodup

theorem copyout_inside (bytes : List UInt8) (h : Space img phystop s sz)
    (hlow : stackBase sz ≤ va) (hhigh : va + bytes.length ≤ sz) :
    ∃ mem, copyout va bytes s = .ok (true, { s with mem := mem }) ∧
      Put s.vm.pgdir va bytes s.mem mem := by
  have hsz := sz_lt h.built
  have htarget : ∀ i < bytes.length,
      Mm.target (tables s.vm.pgdir) va i = Mm.userAddr (tables s.vm.pgdir) (va + i) := by
    intro i hi
    rw [Mm.target, Nat.mod_eq_of_lt (by omega)]
  have hmap : ∀ i < bytes.length, (Mm.target (tables s.vm.pgdir) va i).isSome := by
    intro i hi
    rw [htarget i hi]
    exact stack_mapped h.built (by omega) (by omega)
  have hva : va < 2 ^ 32 := by omega
  obtain ⟨t, ht, hrun⟩ := Mm.copyout_upto (pageTable h.fits h.callerUser h.callerKernel)
      (pageTable h.fits h.built.sound.user h.kernel)
    (fun i => bytes.getD i 0) ⟨s.mem, [], []⟩ hva (Nat.le_refl bytes.length)
      hmap (fun hlt => absurd hlt (Nat.lt_irrefl _))
  rw [Nat.sub_self, Mm.copyout_zero] at hrun
  refine ⟨t.mem, ?_, fun i b hb => ?_, fun a ha hout => ?_, fun a ha => ?_⟩
  · unfold copyout
    rw [show Mm.copyout (tables s.proc.pgdir) (tables s.vm.pgdir)
      va (fun i => bytes.getD i 0) bytes.length ⟨s.mem, [], []⟩ = .ok (0, t) from hrun]
    rfl
  · obtain ⟨hi, -⟩ := List.getElem?_eq_some_iff.mp hb
    obtain ⟨x, hx⟩ := Option.isSome_iff_exists.mp (hmap i hi)
    rcases ht.mem x with ⟨j, hj, hjx, hm⟩ | ⟨hno, -⟩
    · rw [htarget i hi] at hx
      have hij := user_inj h.kernel h.userNodup (show va + i < 2 ^ 32 by omega)
          (by omega) hx ((htarget j hj).symm.trans hjx)
      obtain rfl : i = j := by omega
      unfold userByte
      rw [hx, Option.map_some, hm, List.getD_eq_getElem?_getD, hb]
      rfl
    · exact absurd hx (hno i hi)
  · unfold userByte
    cases hx : Mm.userAddr (tables s.vm.pgdir) a with
    | none => rfl
    | some x =>
      rw [Option.map_some, Option.map_some]
      rcases ht.mem x with ⟨j, hj, hjx, -⟩ | ⟨-, hm⟩
      · have := user_inj h.kernel h.userNodup ha (by omega) hx ((htarget j hj).symm.trans hjx)
        omega
      · rw [hm]
  · rcases ht.mem a with ⟨j, hj, hja, -⟩ | ⟨-, hm⟩
    · exact absurd (user_frame h.kernel hja) ha
    · exact hm

/-! ## Room on the stack -/

def Room (sz sp len : Nat) : Prop := len ≤ sp ∧ stackBase sz ≤ lower sp len
deriving Decidable

theorem lower_of_le {sp len : Nat} (hsp : sp < 2 ^ 32) (h : len ≤ sp) :
    lower sp len = (sp - len) / 4 * 4 := by
  unfold lower
  omega

theorem lower_lt (sp len : Nat) : lower sp len < 2 ^ 32 ∧ lower sp len % 4 = 0 := by
  unfold lower
  omega

/-- Without room, the bytes reach the guard page, or the last page of all. -/
theorem no_room {sp len base g : Nat} (hsp : sp < 2 ^ 32) (hlow : base ≤ sp)
    (hbase : base = (g + 1) * PGSIZE) (hpos : 0 < len)
    (hroom : ¬ (len ≤ sp ∧ base ≤ lower sp len)) :
    ∃ k < len, (lower sp len + k) % 2 ^ 32 / PGSIZE = g ∨
      (lower sp len + k) % 2 ^ 32 / PGSIZE = NPAGES - 1 := by
  by_cases hlen : len ≤ sp
  · have hva := lower_of_le hsp hlen
    have hlt : lower sp len < base := by
      by_contra hge
      exact hroom ⟨hlen, Nat.not_lt.mp hge⟩
    simp only [PGSIZE] at *
    rw [hva] at hlt ⊢
    by_cases hend : (sp - len) / 4 * 4 + len < base + 1
    · exact ⟨len - 1, by omega, .inl (by omega)⟩
    · exact ⟨base - 1 - (sp - len) / 4 * 4, by omega, .inl (by omega)⟩
  · obtain ⟨hva, -⟩ := lower_lt sp len
    refine ⟨2 ^ 32 - 1 - lower sp len, ?_, .inr ?_⟩
    · by_cases hhuge : 2 ^ 32 ≤ len
      · omega
      have hlower : lower sp len = (sp + 2 ^ 32 - len) / 4 * 4 := by
        unfold lower
        omega
      simp only [PGSIZE] at *
      omega
    · have hsum : lower sp len + (2 ^ 32 - 1 - lower sp len) = 2 ^ 32 - 1 := by omega
      rw [hsum]
      decide

theorem guard_blocks (h : Space img phystop s sz) {a : Nat} (ha : a < 2 ^ 32)
    (hpage : a / PGSIZE = guardPage sz ∨ a / PGSIZE = NPAGES - 1) :
    ∃ e, Mm.walkpgdir (tables s.vm.pgdir) a = some e ∧ e.isUser = false := by
  have hentry : ∃ e, s.vm.pgdir.entry (a / PGSIZE) = some e ∧ e.u = false := by
    rcases hpage with hpage | hpage
    · rw [hpage]
      exact h.built.guard
    obtain ⟨e, he⟩ := h.kernel.last
    rw [hpage]
    exact ⟨e, he, h.kernel.system _ (by decide) e he⟩
  obtain ⟨e, he, hu⟩ := hentry
  rw [← page_of_lt ha] at he
  exact ⟨e, (walk_of_entry he).1, by rw [Pte.isUser, hu, Bool.and_false]⟩

theorem copyout_outside {sp : Nat} (bytes : List UInt8) (h : Space img phystop s sz)
    (hlow : stackBase sz ≤ sp) (hhigh : sp ≤ sz) (hpos : 0 < bytes.length)
    (hroom : ¬ Room sz sp bytes.length) :
    wp (copyout (lower sp bytes.length) bytes) (fun ok _ => ok = false) (· = "Page Fault") s := by
  obtain ⟨k, hk, hpage⟩ := no_room (hhigh.trans_lt (sz_lt h.built)) hlow rfl hpos hroom
  obtain ⟨e, hwalk, hu⟩ := guard_blocks h (Nat.mod_lt _ (Nat.two_pow_pos 32)) hpage
  have hrun : wp (Mm.copyout (tables s.proc.pgdir) (tables s.vm.pgdir)
      (lower sp bytes.length) (fun i => bytes.getD i 0) bytes.length) (fun r _ => r = -1)
      (· = "Page Fault") ⟨s.mem, [], []⟩ :=
      Mm.copyout_blocked (lower_lt sp bytes.length).1 hk hwalk hu
  unfold wp at hrun ⊢
  unfold copyout
  split at hrun
  · rename_i r t heq
    rw [heq, hrun]
    rfl
  rename_i heq
  rw [heq]
  exact hrun

theorem Space.withMem (h : Space img phystop s sz) (mem : Nat → UInt8) :
    Space img phystop { s with mem := mem } sz :=
  ⟨h.fits, h.built, h.kernel, h.nodup, h.callerUser, h.callerKernel⟩

end

/-! ## Strings -/

def spAfter : Nat → List Str → Nat
  | sp, [] => sp
  | sp, arg :: rest => spAfter (lower sp (arg.length + 1)) rest

def pointers : Nat → List Str → List Nat
  | _, [] => []
  | sp, arg :: rest => lower sp (arg.length + 1) :: pointers (lower sp (arg.length + 1)) rest

def Rooms (sz : Nat) : Nat → List Str → Prop
  | _, [] => True
  | sp, arg :: rest => Room sz sp (arg.length + 1) ∧ Rooms sz (lower sp (arg.length + 1)) rest

def HoldsAll (d : PageDir) (mem : Nat → UInt8) : Nat → List Str → Prop
  | _, [] => True
  | sp, arg :: rest => Holds d mem (lower sp (arg.length + 1)) (arg ++ [0]) ∧
        HoldsAll d mem (lower sp (arg.length + 1)) rest

/-- From `mem` to `mem'`, the strings have been pushed. -/
structure Pushed (d : PageDir) (sp : Nat) (argv : List Str) (mem mem' : Nat → UInt8) : Prop where
  strings : HoldsAll d mem' sp argv
  above : ∀ a < 2 ^ 32, sp ≤ a → userByte d mem' a = userByte d mem a
  other : ∀ a, a / PGSIZE ∉ d.userFrames → mem' a = mem a

section

variable {img : Image} {phystop : Nat} {s : Sys} {d : PageDir} {mem mem' : Nat → UInt8}
  {sz sp va argc : Nat} {bytes : List UInt8} {argv : List Str} {ptrs : List Nat}

theorem Holds.congr (h : Holds d mem va bytes)
    (heq : ∀ i < bytes.length, userByte d mem' (va + i) = userByte d mem (va + i)) :
    Holds d mem' va bytes := by
  intro i b hb
  obtain ⟨hi, -⟩ := List.getElem?_eq_some_iff.mp hb
  rw [heq i hi]
  exact h i b hb

theorem Room.bounds {len : Nat} (hroom : Room sz sp len) (hsp : sp < 2 ^ 32) :
    lower sp len + len ≤ sp ∧ stackBase sz ≤ lower sp len := by
  have hva := lower_of_le hsp hroom.1
  refine ⟨?_, hroom.2⟩
  rw [hva]
  have := hroom.1
  omega

theorem pushStrings_inside (ptrs : List Nat) (h : Space img phystop s sz)
    (hhigh : sp ≤ sz) (hrooms : Rooms sz sp argv) (hmax : argc + argv.length ≤ MAXARG) :
    ∃ mem, pushStrings argv argc sp ptrs s =
      .ok (some (spAfter sp argv, ptrs ++ pointers sp argv), { s with mem := mem }) ∧
      Pushed s.vm.pgdir sp argv s.mem mem := by
  induction argv generalizing s sp argc ptrs with
  | nil =>
    refine ⟨s.mem, ?_, trivial, fun _ _ _ => rfl, fun _ _ => rfl⟩
    rw [pointers, List.append_nil]
    rfl
  | cons arg rest ih =>
    obtain ⟨hroom, hrest⟩ := hrooms
    have hlen : (arg ++ [0]).length = arg.length + 1 := List.length_append
    have hsz := sz_lt h.built
    obtain ⟨hend, hlow⟩ := hroom.bounds (hhigh.trans_lt hsz)
    obtain ⟨mem1, hrun1, hput⟩ := copyout_inside (arg ++ [0]) h hlow (by rw [hlen]; omega)
    have hmax' : ¬ argc ≥ MAXARG := by
      rw [List.length_cons] at hmax
      omega
    have hmax1 : argc + 1 + rest.length ≤ MAXARG := by
      rw [List.length_cons] at hmax
      omega
    obtain ⟨mem2, hrun2, hpushed⟩ :=
      ih (ptrs ++ [lower sp (arg.length + 1)]) (h.withMem mem1) (by omega) hrest hmax1
    refine ⟨mem2, ?_, ⟨hput.holds.congr fun i hi => ?_, hpushed.strings⟩,
      fun a ha hsp => ?_, fun a ha => ?_⟩
    · unfold pushStrings
      rw [if_neg hmax', bind_of_ok hrun1, if_pos rfl, hrun2,
        pointers, spAfter, List.append_assoc, List.singleton_append]
    · exact hpushed.above _ (by omega) (Nat.le_add_right _ _)
    · rw [hpushed.above a ha (by omega)]
      exact hput.rest a ha (.inr (by rw [hlen]; omega))
    · rw [hpushed.other a ha]
      exact hput.other a ha

theorem pushStrings_outside (h : Space img phystop s sz) (hlow : stackBase sz ≤ sp)
    (hhigh : sp ≤ sz) (hno : ¬ (Rooms sz sp argv ∧ argc + argv.length ≤ MAXARG))
    (hargc : argc ≤ MAXARG) :
    wp (pushStrings argv argc sp ptrs) (fun r _ => r = none) (· = "Page Fault") s := by
  induction argv generalizing s sp argc ptrs with
  | nil => exact absurd ⟨trivial, hargc⟩ hno
  | cons arg rest ih =>
    have hlen : (arg ++ [0]).length = arg.length + 1 := List.length_append
    unfold pushStrings
    by_cases hmax : argc ≥ MAXARG
    · rw [if_pos hmax]
      rfl
    rw [if_neg hmax]
    by_cases hroom : Room sz sp (arg.length + 1)
    · obtain ⟨hend, hbase⟩ := hroom.bounds (hhigh.trans_lt (sz_lt h.built))
      obtain ⟨mem1, hrun1, -⟩ := copyout_inside (arg ++ [0]) h hbase (by rw [hlen]; omega)
      unfold wp
      rw [bind_of_ok hrun1, if_pos rfl]
      refine ih (h.withMem mem1) hbase (by omega)
        (fun hrest => hno ⟨⟨hroom, hrest.1⟩, ?_⟩) (by omega)
      rw [List.length_cons]
      omega
    have hrun :=
      copyout_outside (arg ++ [0]) h hlow hhigh (by rw [hlen]; exact Nat.succ_pos _) (hlen ▸ hroom)
    rw [hlen] at hrun
    refine hrun.seq fun ok t hok => ?_
    rw [hok]
    rfl

theorem spAfter_le (hsp : sp < 2 ^ 32) (hrooms : Rooms sz sp argv) : spAfter sp argv ≤ sp := by
  induction argv generalizing sp with
  | nil => exact Nat.le_refl sp
  | cons arg rest ih =>
    obtain ⟨hend, -⟩ := hrooms.1.bounds hsp
    exact (ih (by omega) hrooms.2).trans (by omega)

theorem spAfter_bounds (hrooms : Rooms sz sp argv) (hlow : stackBase sz ≤ sp)
    (halign : sp % 4 = 0) : stackBase sz ≤ spAfter sp argv ∧ spAfter sp argv % 4 = 0 := by
  induction argv generalizing sp with
  | nil => exact ⟨hlow, halign⟩
  | cons arg rest ih => exact ih hrooms.2 hrooms.1.2 (lower_lt sp _).2

end

/-! ## All arguments -/

def tableSize (argv : List Str) : Nat := (3 + argv.length + 1) * 4

def espOf (sz : Nat) (argv : List Str) : Nat := lower (spAfter sz argv) (tableSize argv)

structure ArgsFit (sz : Nat) (argv : List Str) : Prop where
  strings : Rooms sz sz argv
  count : argv.length ≤ MAXARG
  table : Room sz (spAfter sz argv) (tableSize argv)

/-- The arguments are few, and fit on any stack. -/
structure ArgsSmall (argv : List Str) : Prop where
  count : argv.length ≤ MAXARG
  bytes : (argv.map fun arg => arg.length + 4).sum + tableSize argv ≤ USERSTACK - PGSIZE

instance (argv : List Str) : Decidable (ArgsSmall argv) :=
  decidable_of_iff (argv.length ≤ MAXARG ∧
    (argv.map fun arg => arg.length + 4).sum + tableSize argv ≤ USERSTACK - PGSIZE)
    ⟨fun h => ⟨h.1, h.2⟩, fun h => ⟨h.count, h.bytes⟩⟩

/-- User memory with the arguments on the stack. -/
structure Stacked (d : PageDir) (sz : Nat) (argv : List Str) (mem mem' : Nat → UInt8) : Prop where
  strings : HoldsAll d mem' sz argv
  table : Holds d mem' (espOf sz argv)
    (ByteBlock.words (ustack argv.length (spAfter sz argv) (pointers sz argv)))
  other : ∀ a, a / PGSIZE ∉ d.userFrames → mem' a = mem a

section

variable {img : Image} {phystop : Nat} {s : Sys} {d : PageDir}
  {mem : Nat → UInt8} {sz sp : Nat} {argv : List Str}

theorem pointers_length : (pointers sp argv).length = argv.length := by
  induction argv generalizing sp with
  | nil => rfl
  | cons arg rest ih => exact congrArg (· + 1) ih

theorem table_length (sz sp : Nat) (argv : List Str) :
    (ByteBlock.words (ustack argv.length sp (pointers sz argv))).length = tableSize argv := by
  rw [ByteBlock.length_words]
  simp only [ustack, tableSize, List.length_append, List.length_cons,
    List.length_nil, pointers_length]
  omega

theorem table_start (halign : sp % 4 = 0) (hcount : argv.length ≤ MAXARG) :
    (sp + 2 ^ 32 - tableSize argv) % 2 ^ 32 = lower sp (tableSize argv) := by
  unfold tableSize lower
  simp only [MAXARG] at hcount
  omega

theorem stackBase_add (h : Built img phystop s.vm sz) :
    stackBase sz + (USERSTACK - PGSIZE) = sz ∧ sz % 4 = 0 := by
  have hlow := h.low
  have haligned := h.aligned
  simp only [stackBase, guardPage, USERSTACK, PGSIZE] at *
  omega

theorem spAfter_built (h : Built img phystop s.vm sz) (hrooms : Rooms sz sz argv) :
    stackBase sz ≤ spAfter sz argv ∧ spAfter sz argv ≤ sz ∧ spAfter sz argv % 4 = 0 := by
  obtain ⟨hsize, halign⟩ := stackBase_add h
  obtain ⟨hlow, hmod⟩ := spAfter_bounds hrooms (by omega) halign
  exact ⟨hlow, spAfter_le (sz_lt h) hrooms, hmod⟩

theorem HoldsAll.congr {mem' : Nat → UInt8} (h : HoldsAll d mem sp argv)
    (hsp : sp < 2 ^ 32) (hrooms : Rooms sz sp argv)
    (heq : ∀ a < 2 ^ 32, spAfter sp argv ≤ a → userByte d mem' a = userByte d mem a) :
    HoldsAll d mem' sp argv := by
  induction argv generalizing sp with
  | nil => trivial
  | cons arg rest ih =>
    obtain ⟨hroom, hrest⟩ := hrooms
    have hlen : (arg ++ [0]).length = arg.length + 1 := List.length_append
    obtain ⟨hend, -⟩ := hroom.bounds hsp
    have hle := spAfter_le (lower_lt sp _).1 hrest
    refine ⟨h.1.congr fun i hi => heq _ ?_ ?_, ih h.2 (by omega) hrest heq⟩
    · omega
    · exact hle.trans (Nat.le_add_right _ _)

theorem lower_ge {len : Nat} (hsp : sp < 2 ^ 32) (h : len ≤ sp) : sp - len - 3 ≤ lower sp len := by
  rw [lower_of_le hsp h]
  omega

/-- Each string takes its bytes, the zero byte, and at most three more. -/
theorem rooms_of_bytes (hsp : sp < 2 ^ 32)
    (h : stackBase sz + (argv.map fun arg => arg.length + 4).sum ≤ sp) :
    Rooms sz sp argv ∧ sp ≤ spAfter sp argv + (argv.map fun arg => arg.length + 4).sum := by
  induction argv generalizing sp with
  | nil => exact ⟨trivial, Nat.le_refl sp⟩
  | cons arg rest ih =>
    rw [List.map_cons, List.sum_cons] at h ⊢
    have hle : arg.length + 1 ≤ sp := by omega
    have hge := lower_ge hsp hle
    have hsp' := (lower_lt sp (arg.length + 1)).1
    obtain ⟨hrooms, hafter⟩ := ih hsp' (by omega)
    refine ⟨⟨⟨hle, by omega⟩, hrooms⟩, ?_⟩
    rw [spAfter]
    omega

theorem ArgsSmall.fit (h : ArgsSmall argv) (hbuilt : Built img phystop s.vm sz) :
    ArgsFit sz argv := by
  have hsz := sz_lt hbuilt
  have hbytes := h.bytes
  have hsize := (stackBase_add hbuilt).1
  have hroom : stackBase sz + (argv.map fun arg => arg.length + 4).sum ≤ sz := by omega
  obtain ⟨hrooms, hafter⟩ := rooms_of_bytes hsz hroom
  obtain ⟨-, hle, hmod⟩ := spAfter_built hbuilt hrooms
  refine ⟨hrooms, h.count, by omega, ?_⟩
  -- the words keep the alignment
  rw [lower_of_le (hle.trans_lt hsz) (by omega)]
  have htable : tableSize argv % 4 = 0 := Nat.mul_mod_left _ _
  omega

theorem pushArgs_inside (h : Space img phystop s sz) (hfit : ArgsFit sz argv) :
    ∃ mem, pushArgs argv sz s = .ok (some (espOf sz argv), { s with mem := mem }) ∧
      Stacked s.vm.pgdir sz argv s.mem mem := by
  have hsz := sz_lt h.built
  obtain ⟨-, hhigh, hmod⟩ := spAfter_built h.built hfit.strings
  have hlen := table_length sz (spAfter sz argv) argv
  obtain ⟨hend, hroom⟩ := hfit.table.bounds (hhigh.trans_lt hsz)
  have hcount : 0 + argv.length ≤ MAXARG := (Nat.zero_add _).symm ▸ hfit.count
  obtain ⟨mem1, hrun1, hpushed⟩ := pushStrings_inside [] h (Nat.le_refl sz) hfit.strings hcount
  obtain ⟨mem2, hrun2, hput⟩ :=
    copyout_inside (ByteBlock.words (ustack argv.length (spAfter sz argv) (pointers sz argv)))
      (h.withMem mem1) hroom (by rw [hlen]; omega)
  refine ⟨mem2, ?_, hpushed.strings.congr hsz hfit.strings fun a ha hsp => ?_,
    hput.holds, fun a ha => ?_⟩
  · unfold pushArgs
    rw [bind_of_ok hrun1, List.nil_append]
    dsimp only
    rw [show (3 + argv.length + 1) * 4 = tableSize argv from rfl, table_start hmod hfit.count]
    exact bind_of_ok hrun2
  · exact hput.rest a ha (.inr (by rw [hlen]; omega))
  · rw [hput.other a ha]
    exact hpushed.other a ha

theorem pushArgs_outside (h : Space img phystop s sz) (hfit : ¬ ArgsFit sz argv) :
    wp (pushArgs argv sz) (fun r _ => r = none) (· = "Page Fault") s := by
  unfold pushArgs
  by_cases hstrings : Rooms sz sz argv ∧ 0 + argv.length ≤ MAXARG
  · obtain ⟨hrooms, hcount⟩ := hstrings
    obtain ⟨hlow, hhigh, hmod⟩ := spAfter_built h.built hrooms
    obtain ⟨mem1, hrun1, -⟩ := pushStrings_inside [] h (Nat.le_refl sz) hrooms hcount
    rw [Nat.zero_add] at hcount
    have hlen := table_length sz (spAfter sz argv) argv
    have hroom : ¬ Room sz (spAfter sz argv) (tableSize argv) :=
      fun hroom => hfit ⟨hrooms, hcount, hroom⟩
    have hrun2 := copyout_outside (ByteBlock.words
        (ustack argv.length (spAfter sz argv) (pointers sz argv))) (h.withMem mem1) hlow hhigh
      (by rw [hlen]; unfold tableSize; omega) (hlen.symm ▸ hroom)
    rw [hlen] at hrun2
    unfold wp
    rw [bind_of_ok hrun1, List.nil_append]
    dsimp only
    rw [show (3 + argv.length + 1) * 4 = tableSize argv from rfl, table_start hmod hcount]
    refine hrun2.seq fun ok t hok => ?_
    rw [hok]
    rfl
  · have hbase : stackBase sz ≤ sz := Nat.le.intro (stackBase_add h.built).1
    refine (pushStrings_outside h hbase (Nat.le_refl sz) hstrings (Nat.zero_le _)).seq
      fun r t hr => ?_
    rw [hr]
    rfl

theorem setup_half {m m' : Mem} (hsetup : Vm.Setup img phystop m true m')
    (hentry : ∀ y, KPAGE ≤ y → d.entry y = m'.pgdir.entry y) : KernelHalf img phystop d := by
  refine ⟨fun f hf hf' => ?_, fun y hy e he => ?_, ?_⟩
  · rw [hentry _ (Nat.le_add_right _ _)]
    exact hsetup.memory rfl f hf hf'
  · rw [hentry y hy] at he
    exact hsetup.system rfl y hy e he
  · rw [hentry _ (by decide)]
    exact hsetup.last rfl

theorem Building.half {t : Sys} (hb : Building img phystop s t) :
    KernelHalf img phystop t.vm.pgdir := by
  obtain ⟨m, -, hsetup, hbelow⟩ := hb.kernel
  exact setup_half hsetup hbelow.kernel

variable {t : Sys} (h : Ready img phystop s) (hb : Building img phystop s t)
include h hb

theorem Building.nodup : t.vm.census.Nodup := by
  rw [hb.census]
  exact Multiset.coe_nodup.mpr h.freeNodup

theorem Building.space (hbuilt : Built img phystop t.vm sz) (hproc : t.proc = s.proc) :
    Space img phystop t sz :=
  ⟨h.fits, hbuilt, hb.half, hb.nodup h, hproc ▸ h.sound.user, hproc ▸ h.kernel⟩

theorem Building.apart (hproc : t.proc = s.proc) {f : Nat} (hf : f ∈ t.vm.pgdir.userFrames) :
    f ∉ t.caller.census := by
  have hnodup := hb.nodup h
  rw [caller_census, hproc, Multiset.mem_add, not_or]
  refine ⟨fun hfree => ?_, h.apart ?_⟩
  · unfold Mem.census at hnodup
    exact Multiset.disjoint_left.mp (Multiset.nodup_add.mp hnodup).2.2
      (Vm.mem_core_of_free (Multiset.mem_coe.mp hfree)) hf
  · have hcensus : f ∈ t.vm.census := Multiset.mem_add.mpr (.inr hf)
    rw [hb.census] at hcensus
    exact Multiset.mem_coe.mp hcensus

end

/-! ## What a program finds -/

def userWord (d : PageDir) (mem : Nat → UInt8) (va : Nat) : Option Nat := do
  let b0 ← userByte d mem va
  let b1 ← userByte d mem (va + 1)
  let b2 ← userByte d mem (va + 2)
  let b3 ← userByte d mem (va + 3)
  pure (b0.toNat + 2 ^ 8 * b1.toNat + 2 ^ 16 * b2.toNat + 2 ^ 24 * b3.toNat)

/-- The stack of a process that begins to run with the arguments `argv`, which are at `ptrs`. -/
structure InitialStack (p : Proc) (mem : Nat → UInt8) (argv : List Str)
    (ptrs : List Nat) : Prop where
  count : ptrs.length = argv.length
  words : ∀ k w : Nat, ([0xFFFFFFFF, argv.length, p.tf.esp + 12] ++ ptrs ++ [0])[k]? = some w →
    userWord p.pgdir mem (p.tf.esp + 4 * k) = some w
  strings : ∀ (i : Nat) arg ptr, argv[i]? = some arg → ptrs[i]? = some ptr →
    Holds p.pgdir mem ptr (arg ++ [0])
  guard : ∀ a, a / PGSIZE = (p.sz - USERSTACK) / PGSIZE → userByte p.pgdir mem a = none
  low : p.sz - USERSTACK + PGSIZE ≤ p.tf.esp
  above : ∀ (i : Nat) arg ptr, argv[i]? = some arg → ptrs[i]? = some ptr →
    p.tf.esp + 4 * (argv.length + 4) ≤ ptr ∧ ptr + (arg.length + 1) ≤ p.sz
  apart : ∀ (i j : Nat) argi argj ptri ptrj, i < j → argv[i]? = some argi →
    argv[j]? = some argj → ptrs[i]? = some ptri → ptrs[j]? = some ptrj →
    ptrj + (argj.length + 1) ≤ ptri
  aligned : p.tf.esp % 4 = 0 ∧ ∀ ptr ∈ ptrs, ptr % 4 = 0

section

variable {d : PageDir} {mem mem' : Nat → UInt8} {sz sp va : Nat} {argv : List Str}

theorem Holds.word {ws : List Nat} (h : Holds d mem va (ByteBlock.words ws)) {k w : Nat}
    (hk : ws[k]? = some w) (hw : w < 2 ^ 32) : userWord d mem (va + 4 * k) = some w := by
  have hbyte : ∀ j b, (ByteBlock.le32 w)[j]? = some b →
      userByte d mem (va + 4 * k + j) = some b := by
    intro j b hb
    have hj : j < 4 := by
      obtain ⟨hj, -⟩ := List.getElem?_eq_some_iff.mp hb
      exact hj
    rw [Nat.add_assoc]
    exact h _ b ((ByteBlock.getElem?_words ws hk hj).trans hb)
  have h0 := hbyte 0 _ rfl
  have h1 := hbyte 1 _ rfl
  have h2 := hbyte 2 _ rfl
  have h3 := hbyte 3 _ rfl
  rw [Nat.add_zero] at h0
  unfold userWord
  rw [h0, h1, h2, h3]
  simp only [Option.bind_eq_bind, Option.bind_some, Option.pure_def,
    Option.some.injEq, UInt8.toNat_ofNat']
  omega

theorem HoldsAll.get (h : HoldsAll d mem sp argv) {i ptr : Nat}
    {arg : Str} (harg : argv[i]? = some arg) (hptr : (pointers sp argv)[i]? = some ptr) :
    Holds d mem ptr (arg ++ [0]) := by
  induction argv generalizing sp i with
  | nil => cases harg
  | cons a rest ih =>
    cases i with
    | zero =>
      cases harg
      cases hptr
      exact h.1
    | succ i => exact ih h.2 harg hptr

theorem pointer_bounds (hsp : sp < 2 ^ 32) (hrooms : Rooms sz sp argv) {i ptr : Nat} {arg : Str}
    (harg : argv[i]? = some arg) (hptr : (pointers sp argv)[i]? = some ptr) :
    spAfter sp argv ≤ ptr ∧ ptr + (arg.length + 1) ≤ sp := by
  induction argv generalizing sp i with
  | nil => cases harg
  | cons a rest ih =>
    obtain ⟨hroom, hrest⟩ := hrooms
    obtain ⟨hend, -⟩ := hroom.bounds hsp
    cases i with
    | zero =>
      cases harg
      cases hptr
      exact ⟨spAfter_le (by omega) hrest, hend⟩
    | succ i =>
      obtain ⟨habove, hbelow⟩ := ih (by omega) hrest harg hptr
      exact ⟨habove, by omega⟩

theorem pointer_apart (hsp : sp < 2 ^ 32) (hrooms : Rooms sz sp argv)
    {i j ptri ptrj : Nat} {argi argj : Str} (hij : i < j)
    (hargi : argv[i]? = some argi) (hargj : argv[j]? = some argj)
    (hptri : (pointers sp argv)[i]? = some ptri) (hptrj : (pointers sp argv)[j]? = some ptrj) :
    ptrj + (argj.length + 1) ≤ ptri := by
  induction argv generalizing sp i j with
  | nil => cases hargi
  | cons a rest ih =>
    obtain ⟨hroom, hrest⟩ := hrooms
    have hlt := (lower_lt sp (a.length + 1)).1
    cases j with
    | zero => exact absurd hij (Nat.not_lt_zero i)
    | succ j =>
      cases i with
      | zero =>
        cases hptri
        exact (pointer_bounds hlt hrest hargj hptrj).2
      | succ i => exact ih hlt hrest (Nat.lt_of_succ_lt_succ hij) hargi hargj hptri hptrj

theorem pointer_aligned {ptr : Nat} (h : ptr ∈ pointers sp argv) : ptr % 4 = 0 ∧ ptr < 2 ^ 32 := by
  induction argv generalizing sp with
  | nil => cases h
  | cons a rest ih =>
    rcases List.mem_cons.mp h with rfl | h
    · exact ⟨(lower_lt sp _).2, (lower_lt sp _).1⟩
    · exact ih h

theorem userByte_congr {img : Image} {phystop a : Nat} (hkernel : KernelHalf img phystop d)
    (h : ∀ a, a / PGSIZE ∈ d.userFrames → mem' a = mem a) :
    userByte d mem' a = userByte d mem a := by
  unfold userByte
  cases hx : Mm.userAddr (tables d) a with
  | none => rfl
  | some x => rw [Option.map_some, Option.map_some, h _ (user_frame hkernel hx)]

theorem argv_word {n : Nat} (hsp : sp < 2 ^ 32) (hroom : (3 + n + 1) * 4 ≤ sp) (hmod : sp % 4 = 0) :
    (sp + 2 ^ 32 - (n + 1) * 4) % 2 ^ 32 = lower sp ((3 + n + 1) * 4) + 12 := by
  rw [lower_of_le hsp hroom]
  omega

end

section

variable {img : Image} {phystop : Nat} {disk : Disk} {kstack : Nat → Nat → UInt8}
  {s t u : Sys} {fuel depth inum sz entry : Nat} {path : Str} {argv : List Str} {mem : Nat → UInt8}

theorem Stacked.initial (h : Space img phystop t sz) (hfit : ArgsFit sz argv)
    (hst : Stacked t.vm.pgdir sz argv t.mem mem)
    (hproc : u.proc = t.proc.become t.vm path entry sz (espOf sz argv))
    (hmem : ∀ a, a / PGSIZE ∈ t.vm.pgdir.userFrames → u.mem a = mem a) :
    InitialStack u.proc u.mem argv (pointers sz argv) := by
  have hsz := sz_lt h.built
  obtain ⟨-, hhigh, hmod⟩ := spAfter_built h.built hfit.strings
  have hlt := hhigh.trans_lt hsz
  have hesp : espOf sz argv + tableSize argv ≤ spAfter sz argv ∧ espOf sz argv % 4 = 0 := by
    unfold espOf
    rw [lower_of_le hlt hfit.table.1]
    have := hfit.table.1
    omega
  have hbyte : ∀ a, userByte t.vm.pgdir u.mem a = userByte t.vm.pgdir mem a :=
    fun a => userByte_congr h.kernel hmem
  have hholds : ∀ va bytes, Holds t.vm.pgdir mem va bytes → Holds t.vm.pgdir u.mem va bytes :=
    fun va bytes hv => hv.congr fun i _ => hbyte _
  have hsize : tableSize argv = 4 * (argv.length + 4) := by
    unfold tableSize
    omega
  rw [hproc]
  refine ⟨pointers_length, fun k w hw => ?_, fun i arg ptr harg hptr => ?_,
    fun a ha => ?_, ?_, fun i arg ptr harg hptr => ?_,
    fun i j argi argj ptri ptrj => pointer_apart hsz hfit.strings,
      hesp.2, fun ptr hptr => (pointer_aligned hptr).1⟩
  · have hustack : ustack argv.length (spAfter sz argv) (pointers sz argv) =
        [0xFFFFFFFF, argv.length, espOf sz argv + 12] ++ pointers sz argv ++ [0] := by
      unfold ustack
      rw [argv_word hlt hfit.table.1 hmod]
      rfl
    refine Holds.word (hholds _ _ hst.table) (hustack ▸ hw) ?_
    -- every word fits in 32 bits
    have hcount := hfit.count
    have hin : w ∈ [0xFFFFFFFF, argv.length, espOf sz argv + 12] ++ pointers sz argv ++ [0] :=
      List.mem_of_getElem? hw
    have hcases : w = 0xFFFFFFFF ∨ w = argv.length ∨ w = espOf sz argv + 12 ∨
        w ∈ pointers sz argv ∨ w = 0 := by
      simpa [or_assoc] using hin
    rcases hcases with rfl | rfl | rfl | hptr | rfl
    · decide
    · omega
    · omega
    · exact (pointer_aligned hptr).2
    · decide
  · exact hholds _ _ (hst.strings.get harg hptr)
  · obtain ⟨e, he, hu⟩ := h.built.guard
    have ha' : a / PGSIZE % NPAGES = guardPage sz := by
      rw [ha]
      refine Nat.mod_eq_of_lt ((Nat.div_le_div_right (Nat.sub_le _ _)).trans_lt ?_)
      exact Vm.page_lt h.built.high
    unfold userByte
    cases hx : Mm.userAddr (tables t.vm.pgdir) a with
    | none =>
      show Option.map u.mem (Mm.userAddr (tables t.vm.pgdir) a) = none
      rw [hx]
      rfl
    | some x =>
      obtain ⟨e', he', hu', -⟩ := user_iff.mp hx
      rw [ha', he] at he'
      cases he'
      rw [hu] at hu'
      cases hu'
  · have hlow' : stackBase sz ≤ espOf sz argv := hfit.table.2
    have hsize := (stackBase_add h.built).1
    have hle : PGSIZE ≤ USERSTACK := by decide
    have heq : sz - USERSTACK + PGSIZE = stackBase sz := by
      have := h.built.low
      omega
    exact heq ▸ hlow'
  · obtain ⟨habove, hbelow⟩ := pointer_bounds hsz hfit.strings harg hptr
    refine ⟨?_, hbelow⟩
    rw [← hsize]
    exact hesp.1.trans habove

theorem bad_code {pgdir : Bool} {ip : Option Nat} :
    wp (bad img phystop pgdir ip) (fun r _ => r = .code (-ENOEXEC)) (fun _ => True) s := by
  unfold bad
  cases pgdir with
  | false =>
    cases ip with
    | none | some inum => rfl
  | true =>
    rw [if_pos rfl, wp_bind]
    unfold wp
    split
    · cases ip with
      | none | some inum => rfl
    · trivial

theorem execElf_empty {data : List UInt8} (h : Ready img phystop s)
    (hread : (disk.inode inum).readAll 0 EHSIZE = some data)
    (hmagic : (ElfHdr.ofBytes data).magic = ELF_MAGIC) (hphnum : (ElfHdr.ofBytes data).phnum = 0)
    (hfree : NPDENTRIES + 514 < s.vm.freelist.length) (hargs : ArgsSmall argv) :
    ∃ u, execElf img phystop disk inum path argv s = .ok (.code 0, u) := by
  obtain ⟨ok, m1, hrun1, hsetup⟩ :=
    (Vm.setupkvm_spec (m := { s.vm with stores := [] }) h.fits h.free).returns fun _ => id
  obtain rfl : ok = true := by
    by_contra hno
    have := hsetup.nomem (by simpa using hno)
    dsimp only at this
    omega
  have hb1 := setup_building h hrun1 hsetup
  have hloaded := setup_loaded hsetup h.freeLength
  have hcard : ({ m1 with stores := [] } : Mem).census.card = s.vm.freelist.length := by
    rw [show ({ m1 with stores := [] } : Mem).census = m1.census from rfl,
      hsetup.census rfl, Multiset.coe_card]
  have hsegs : segments img phystop (disk.inode inum) (ElfHdr.ofBytes data).phnum
      (ElfHdr.ofBytes data).phoff 0 { m1 with stores := [] } =
      .ok (some 0, { m1 with stores := [] }) := by
    rw [hphnum]
    rfl
  have hloaded0 : Loaded img phystop { m1 with stores := [] } (pages 0) := hloaded
  obtain ⟨r, m3, hrun3, hbelow, hsame, hsound, hbuilt, hnone⟩ :=
    (stack_spec hloaded0 (Nat.zero_le _)).returns fun _ => id
  have hb2 := (hb1.after (.refl _) (.refl _) hloaded.sound).close inum
  have hb3 := hb2.after hbelow hsame hsound
  cases r with
  | none =>
    have hfew := hnone rfl
    rw [hcard] at hfew
    exact absurd hfree hfew.not_gt
  | some sz =>
    have hspace := hb3.space h (hbuilt sz rfl) rfl
    obtain ⟨mem, hpush, -⟩ := pushArgs_inside hspace (hargs.fit hspace.built)
    have hcommit : wp (commit img phystop path (ElfHdr.ofBytes data).entry sz (espOf sz argv))
        (fun r _ => r = .code 0) (fun _ => False)
        { (((s.after m1).after { m1 with stores := [] }).close inum).after m3 with mem := mem } :=
      wp_commit (h.retire hb3.sound.owned.free rfl) fun _ _ _ _ _ _ => rfl
    obtain ⟨r, u, hrun4, rfl⟩ := hcommit.returns fun _ => id
    refine ⟨u, ?_⟩
    unfold execElf
    rw [hread]
    dsimp only
    rw [if_neg (not_not.mpr hmagic), bind_of_ok (onVm_ok hrun1),
      if_pos rfl, bind_of_ok (onVm_ok hsegs)]
    dsimp only
    rw [close_bind, bind_of_ok (onVm_ok hrun3)]
    exact (bind_of_ok hpush).trans hrun4

/-- Every program begins with its arguments on the stack. -/
theorem initial_stack (h : Ready img phystop s) (hpath : disk.namei path = some inum)
    (hmagic : [0x7F, 0x45, 0x4C, 0x46] <+: (disk.inode inum).bytes)
    (hrun : execve img phystop disk kstack (fuel + 1) depth path argv s = .ok (some (.code 0), u)) :
    ∃ ptrs, InitialStack u.proc u.mem argv ptrs := by
  rw [execve_elf hpath hmagic] at hrun
  have hready := h.open inum
  have hspec : wp (execElf img phystop disk inum path argv) (fun r u => r = .code 0 →
      ∃ ptrs, InitialStack u.proc u.mem argv ptrs) (fun _ => True) (s.open inum) := by
    by_cases hfits : ProgramFits img phystop (disk.inode inum) (s.open inum).vm
    · refine wp_execElf hready hfits (fun t _ _ _ hr => (nomatch hr))
        fun data sz t _ _ _ hbuilt hb _ hclosed => ?_
      have hspace := hb.space hready hbuilt hclosed.proc
      by_cases hargs : ArgsFit sz argv
      · obtain ⟨mem, hpush, hst⟩ := pushArgs_inside hspace hargs
        unfold wp
        rw [bind_of_ok hpush]
        refine wp_commit (hready.retire hb.sound.owned.free hclosed.proc)
          fun u hproc hmem _ _ _ _ => ?_
        exact ⟨_,
          hst.initial hspace hargs hproc fun a ha => hmem a (hb.apart hready hclosed.proc ha)⟩
      refine (pushArgs_outside hspace hargs).bind (fun _ _ => trivial) fun r t' hr => ?_
      rw [hr]
      exact bad_code.imp fun r u hr' heq => absurd (hr'.symm.trans heq) (by decide)
    · unfold wp
      rw [execElf_panics hready hfits]
      trivial
  have hwhole : wp (execElf img phystop disk inum path argv >>= fun r => pure (some r))
      (fun r u => r = some (.code 0) → ∃ ptrs, InitialStack u.proc u.mem argv ptrs)
      (fun _ => True) (s.open inum) :=
    hspec.bind (fun _ _ => trivial) fun r u hr heq => hr (Option.some.inj heq)
  exact hwhole.of_ok hrun rfl

end

/-! ## A process -/

theorem exists_process {img : Image} {phystop : Nat} {F : List Nat}
    (hfits : img.Fits phystop) (hframes : ∀ f ∈ F, img.Frame phystop f) (hnodup : F.Nodup)
    (hmax : F.length ≤ NFRAMES) (hlen : 256 < F.length) :
    ∃ s : Sys, Ready img phystop s ∧ F.length ≤ s.vm.freelist.length + 1 + NPDENTRIES := by
  obtain ⟨ok, m, -, hsetup⟩ :=
    (Vm.setupkvm_spec (m := ⟨fun _ => none, 0, F, [], []⟩) hfits hframes).returns fun _ => id
  obtain rfl : ok = true := by
    by_contra hno
    have hfew : F.length ≤ 256 := hsetup.nomem (by simpa using hno)
    omega
  have hloaded := setup_loaded hsetup hmax
  have hcensus : m.census = F := hsetup.census rfl
  refine ⟨⟨m, fun _ => 0, fun _ => 0, 0, ⟨m.pgdir, m.root, 0, ⟨0, 0, fun _ => 0⟩, [], fun _ => 0⟩⟩,
    ⟨hfits, hloaded.sound, ?_, setup_half hsetup fun _ _ => rfl⟩, ?_⟩
  · show m.census.Nodup
    rw [hcensus]
    exact Multiset.coe_nodup.mpr hnodup
  · have hle : m.census.card ≤ _ := Vm.census_card hloaded.empty
    rwa [hcensus, Multiset.coe_card] at hle

def physTop : Nat := 0x8000000

def physPages : List Nat := List.range' 384 32384

theorem physPages_frames : ∀ f ∈ physPages, Vm.smallImage.Frame physTop f := by
  intro f hf
  rw [physPages, List.mem_range'_1] at hf
  have hkend : Vm.smallImage.kend = 0xC0180000 := rfl
  refine ⟨?_, ?_, ?_⟩ <;> simp only [Vm.P2V, physTop, NPAGES, Mm.KERNBASE_eq, PGSIZE] <;> omega

theorem physPages_length : physPages.length = 32384 := List.length_range'

theorem exists_ready :
    ∃ s : Sys, Ready Vm.smallImage physTop s ∧ NPDENTRIES + 514 < s.vm.freelist.length := by
  obtain ⟨s, hready, hlen⟩ :=
    exists_process ⟨by decide, by decide, by decide⟩ physPages_frames List.nodup_range'
    (by rw [physPages_length]; decide) (by rw [physPages_length]; decide)
  rw [physPages_length] at hlen
  refine ⟨s, hready, ?_⟩
  simp only [NPDENTRIES] at *
  omega

def oneFile (f : File) : Disk := ⟨fun _ => some 1, fun _ => f⟩

def emptyProgram : File := ⟨0o755, 0, 0, emptyElf, emptyElf_small⟩

theorem initial_stack_ls : ∃ s u, Ready Vm.smallImage physTop s ∧
    execve Vm.smallImage physTop (oneFile emptyProgram) (fun _ _ => 0)
      1 0 [0x6C, 0x73] [[0x6C, 0x73], [0x2D, 0x6C]] s = .ok (some (.code 0), u) ∧
    ∃ ptrs, InitialStack u.proc u.mem [[0x6C, 0x73], [0x2D, 0x6C]] ptrs := by
  obtain ⟨s, hready, hfree⟩ := exists_ready
  have hpath : (oneFile emptyProgram).namei [0x6C, 0x73] = some 1 := rfl
  have hmagic : [0x7F, 0x45, 0x4C, 0x46] <+: ((oneFile emptyProgram).inode 1).bytes :=
    List.prefix_append _ _
  have hrun : ∃ u, execElf Vm.smallImage physTop (oneFile emptyProgram)
      1 [0x6C, 0x73] [[0x6C, 0x73], [0x2D, 0x6C]] (s.open 1) = .ok (.code 0, u) :=
    execElf_empty (hready.open 1) (show emptyProgram.readAll 0 EHSIZE = some emptyElf by decide)
      (by decide) (by decide) hfree (by decide)
  obtain ⟨u, hrun⟩ := hrun
  have hexec : execve Vm.smallImage physTop (oneFile emptyProgram)
      (fun _ _ => 0) 1 0 [0x6C, 0x73] [[0x6C, 0x73], [0x2D, 0x6C]] s = .ok (some (.code 0), u) := by
    rw [execve_elf hpath hmagic, bind_of_ok hrun]
    rfl
  exact ⟨s, u, hready, hexec, initial_stack hready hpath hmagic hexec⟩

end Micro86.ExecFile
