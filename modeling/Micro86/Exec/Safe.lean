import Micro86.Exec.Load

/-!
# Program headers

The sizes and addresses of a program header are chosen by the file, and `allocuvm` does not look
whether the end of a segment is below `KERNBASE`.

* `segment_spec`, `segments_spec` — a header is loaded, or `exec` fails, or `kfree` panics.
* `segment_panics` — a segment that ends above `KERNBASE` panics whatever memory there is.
-/

namespace Micro86.ExecFile

open Exec
open Mm (PGSIZE KERNBASE NPTENTRIES NFRAMES Pte)
open Vm (Image PageDir Mem Store NPAGES PGROUNDUP pages KPAGE Loaded)

variable {data : List UInt8} {α : Type} {E : String → Prop}

/-! ## `loaduvm` -/

/-- Stores were made to pages of the table only, and nothing else was changed. -/
structure Quiet (m m' : Mem) : Prop where
  pgdir : m'.pgdir = m.pgdir
  root : m'.root = m.root
  freelist : m'.freelist = m.freelist
  writes : m'.writes = m.writes
  stores : m.StoresIn m.census m'

section

variable {img : Image} {phystop : Nat} {m m' m'' : Mem} {f : File} {x n sz : Nat}

theorem Quiet.refl (m : Mem) : Quiet m m := ⟨rfl, rfl, rfl, rfl, .refl _ m⟩

section

variable (h : Quiet m m')
include h

theorem Quiet.census : m'.census = m.census := by
  unfold Mem.census Mem.core
  rw [h.pgdir, h.root, h.freelist]

theorem Quiet.trans (h' : Quiet m' m'') : Quiet m m'' :=
  ⟨h'.pgdir.trans h.pgdir, h'.root.trans h.root, h'.freelist.trans h.freelist,
    h'.writes.trans h.writes, h.stores.trans (h.census ▸ h'.stores)⟩

theorem Quiet.same : m.Same m' := ⟨h.census, h.stores⟩

theorem Quiet.below : m.Below m' :=
  ⟨fun w hw => .inl (h.writes ▸ hw), h.root, fun y _ => by rw [h.pgdir]⟩

theorem Quiet.sound (hm : m.Sound img phystop) : m'.Sound img phystop :=
  ⟨⟨h.freelist ▸ hm.owned.free, h.root ▸ hm.owned.root, h.pgdir ▸ hm.owned.tables⟩,
    h.pgdir ▸ hm.user⟩

theorem Quiet.loaded (hm : Loaded img phystop m n) : Loaded img phystop m' n :=
  ⟨h.sound hm.sound, h.pgdir ▸ hm.mapped, h.pgdir ▸ hm.empty,
    h.pgdir ▸ hm.kernel, h.freelist ▸ hm.room⟩

end

theorem readi_length {off k : Nat} (h : f.readi off k = some data) : data.length ≤ k := by
  unfold File.readi at h
  split at h
  · cases h
  · cases h
    exact List.length_take_le _ _

theorem loadLoop_spec {fuel offset j : Nat} (h : Loaded img phystop m n)
    (hpages : ∀ i, i * PGSIZE < sz → x + i < n) :
    wp (loadLoop f (x * PGSIZE) offset sz fuel (j * PGSIZE))
      (fun _ m' => Quiet m m') (fun _ => False) m := by
  induction fuel generalizing m j with
  | zero => exact .refl m
  | succ fuel ih =>
    unfold loadLoop
    by_cases hlt : j * PGSIZE < sz
    swap
    · rw [if_neg hlt]
      exact .refl m
    have hpage := hpages j hlt
    have hk : x + j < KPAGE := hpage.trans h.lt
    have haddr : (x * PGSIZE + j * PGSIZE) % 2 ^ 32 = (x + j) * PGSIZE := by
      rw [← Nat.add_mul]
      exact Nat.mod_eq_of_lt ((Vm.page_below hk).trans (by decide))
    rw [if_pos hlt, haddr, Vm.page_next ((Nat.le_add_left j x).trans_lt hk), wp_bind]
    refine Vm.wp_walkpgdir (Vm.page_lt hk) ?_
    obtain ⟨e, hentry, -⟩ := h.mapped (x + j) hpage
    cases ht : m.pgdir ((x + j) / NPTENTRIES) with
    | none =>
      rw [Vm.entry_of_none ht] at hentry
      cases hentry
    | some t =>
      rw [Vm.entry_of_table ht] at hentry
      split at hentry
      swap
      · cases hentry
      rename_i hp
      cases hentry
      dsimp only [Option.map_some]
      have hk' : (if sz - j * PGSIZE < PGSIZE then sz - j * PGSIZE else PGSIZE) ≤ PGSIZE := by
        split <;> omega
      generalize (if sz - j * PGSIZE < PGSIZE then sz - j * PGSIZE else PGSIZE) = k at hk' ⊢
      cases hread : f.readi ((offset + j * PGSIZE) % 2 ^ 32) k with
      | none => exact .refl m
      | some data =>
        have hlen : data.length ≤ PGSIZE := (readi_length hread).trans hk'
        have hframe : (t.ptes ((x + j) % NPTENTRIES)).frame ∈ m.census :=
          Vm.mem_census_of_entry hk (by rw [Vm.entry_of_table ht, if_pos hp])
        rw [wp_bind, wp_modify]
        have hquiet : Quiet m { m with
            stores := .data ((t.ptes ((x + j) % NPTENTRIES)).frame * PGSIZE) data ::
              m.stores } := by
          refine ⟨rfl, rfl, rfl, rfl, [.data ((t.ptes ((x + j) % NPTENTRIES)).frame * PGSIZE) data],
            rfl, fun st hst => ?_⟩
          rw [List.mem_singleton.mp hst]
          refine ⟨?_, ?_⟩
          · rw [Nat.mul_div_cancel _ (by decide)]
            exact hframe
          · rw [Nat.mul_mod_left, Nat.zero_add]
            exact hlen
        by_cases hfull : data.length ≠ k
        · rw [if_pos hfull]
          exact hquiet
        · rw [if_neg hfull]
          exact (ih (hquiet.loaded h)).imp fun _ m' => hquiet.trans

end

/-! ## One program header -/

/-- A segment that passes the checks of `exec` ends at `KERNBASE` or below. -/
def ProgHdr.Fits (ph : ProgHdr) : Prop :=
  ph.type = ELF_PROG_LOAD → ph.filesz ≤ ph.memsz → ph.vaddr + ph.memsz < 2 ^ 32 →
    ph.vaddr + ph.memsz ≤ KERNBASE

theorem ofBytes_words (data : List UInt8) :
    (ProgHdr.ofBytes data).vaddr < 2 ^ 32 ∧ (ProgHdr.ofBytes data).memsz < 2 ^ 32 :=
  ⟨ByteBlock.u32_lt _ _, ByteBlock.u32_lt _ _⟩

/-- What loading leaves: entries above `KERNBASE` and the number of pages as they were, and after a
    success a table with all pages up to the new size. -/
structure Stage (img : Image) (phystop : Nat) (m m' : Mem) (r : Option Nat) : Prop where
  below : m.Below m'
  same : m.Same m'
  sound : m'.Sound img phystop
  loaded : ∀ sz, r = some sz → sz ≤ KERNBASE ∧ Loaded img phystop m' (pages sz)

section

variable {img : Image} {phystop : Nat} {m m' m'' : Mem} {f : File}
  {ph : ProgHdr} {sz : Nat} {r : Option Nat}

theorem Stage.refl (h : Loaded img phystop m (pages sz)) (hsz : sz ≤ KERNBASE) :
    Stage img phystop m m (some sz) :=
  ⟨.refl m, .refl m, h.sound, fun _ heq => by cases heq; exact ⟨hsz, h⟩⟩

theorem Stage.failed (hb : m.Below m') (hs : m.Same m') (h : m'.Sound img phystop) :
    Stage img phystop m m' none :=
  ⟨hb, hs, h, nofun⟩

theorem Stage.trans {r' : Option Nat} (h : Stage img phystop m m' r)
    (h' : Stage img phystop m' m'' r') : Stage img phystop m m'' r' :=
  ⟨h.below.trans h'.below, h.same.trans h'.same, h'.sound, h'.loaded⟩

variable (hwords : ph.vaddr < 2 ^ 32 ∧ ph.memsz < 2 ^ 32)
include hwords

theorem segment_end (hover : ¬ (ph.vaddr + ph.memsz) % 2 ^ 32 < ph.vaddr) :
    (ph.vaddr + ph.memsz) % 2 ^ 32 = ph.vaddr + ph.memsz ∧ ph.vaddr + ph.memsz < 2 ^ 32 := by
  omega

/-- A segment above `KERNBASE` panics: there is no memory for it, and what is freed then is more
    than was allocated. -/
theorem segment_panics (h : Loaded img phystop m (pages sz))
    (hsz : sz ≤ KERNBASE) (hfits : ¬ ph.Fits) : segment img phystop f ph sz m = .error "kfree" := by
  unfold ProgHdr.Fits at hfits
  simp only [Classical.not_imp, Nat.not_le] at hfits
  obtain ⟨htype, hfile, hover, hkern⟩ := hfits
  have hend : (ph.vaddr + ph.memsz) % 2 ^ 32 = ph.vaddr + ph.memsz := Nat.mod_eq_of_lt hover
  unfold segment
  rw [if_neg (not_not.mpr htype), if_neg hfile.not_gt, hend, if_neg (by omega)]
  exact bind_of_error (Vm.allocuvm_kernel h hsz hkern)

theorem segment_spec (h : Loaded img phystop m (pages sz)) (hsz : sz ≤ KERNBASE) (hfits : ph.Fits) :
    wp (segment img phystop f ph sz) (fun r m' => Stage img phystop m m' r) (fun _ => False) m := by
  unfold segment
  by_cases htype : ph.type ≠ ELF_PROG_LOAD
  · rw [if_pos htype]
    exact .refl h hsz
  rw [if_neg htype]
  by_cases hfile : ph.memsz < ph.filesz
  · rw [if_pos hfile]
    exact .failed (.refl m) (.refl m) h.sound
  rw [if_neg hfile]
  by_cases hover : (ph.vaddr + ph.memsz) % 2 ^ 32 < ph.vaddr
  · rw [if_pos hover]
    exact .failed (.refl m) (.refl m) h.sound
  rw [if_neg hover]
  obtain ⟨hend, hlt⟩ := segment_end hwords hover
  have hkern := hfits (not_not.mp htype) (Nat.not_lt.mp hfile) hlt
  rw [hend]
  refine (Vm.allocuvm_spec h hsz hkern).seq fun sz' m' h' => ?_
  obtain ⟨hbelow, hsound, hsame, -, hgrown⟩ := h'
  by_cases hzero : sz' = 0
  · rw [if_pos hzero]
    exact .failed hbelow hsame hsound
  rw [if_neg hzero]
  obtain ⟨hmax, hsz', hloaded⟩ := hgrown.resolve_left hzero
  by_cases halign : ph.vaddr % PGSIZE ≠ 0
  · rw [if_pos halign]
    exact .failed hbelow hsame hsound
  rw [if_neg halign]
  -- the file part of the segment lies in pages that have been allocated
  have haddr : ph.vaddr = ph.vaddr / PGSIZE * PGSIZE := by
    simp only [PGSIZE] at *
    omega
  have hpages : ∀ i, i * PGSIZE < ph.filesz → ph.vaddr / PGSIZE + i < pages sz' := by
    intro i hi
    rw [Vm.lt_pages, Nat.add_mul, ← haddr]
    omega
  unfold loaduvm
  have hload : wp (loadLoop f (ph.vaddr / PGSIZE * PGSIZE) ph.off ph.filesz NPAGES (0 * PGSIZE))
      (fun _ => Quiet m') (fun _ => False) m' :=
    loadLoop_spec hloaded hpages
  rw [← haddr, Nat.zero_mul] at hload
  refine hload.seq fun ok m'' hquiet => ?_
  have hbelow' := hbelow.trans hquiet.below
  have hsame' := hsame.trans hquiet.same
  cases ok with
  | true =>
    exact ⟨hbelow', hsame', hquiet.sound hsound,
      fun _ heq => by cases heq; exact ⟨hsz', hquiet.loaded hloaded⟩⟩
  | false => exact .failed hbelow' hsame' (hquiet.sound hsound)

end

/-! ## All program headers -/

section

variable (img : Image) (phystop : Nat) (f : File)

/-- Of the `n` segments from offset `off` on, the first one fits, if it can be read, and so do the
    others once it has been loaded and the program is of size `sz'`. -/
def SegmentsFit : Nat → Nat → Nat → Mem → Prop
  | 0, _, _, _ => True
  | n + 1, off, sz, m =>
    ∀ data, f.readAll off PHSIZE = some data → (ProgHdr.ofBytes data).Fits ∧
      ∀ sz' m', segment img phystop f (.ofBytes data) sz m = .ok (some sz', m') →
        SegmentsFit n ((off + PHSIZE) % 2 ^ 32) sz' m'

end

section

variable {img : Image} {phystop : Nat} {m m' : Mem} {f : File} {n off sz : Nat}

theorem segments_cons (hread : f.readAll off PHSIZE = some data) :
    segments img phystop f (n + 1) off sz = (segment img phystop f (.ofBytes data) sz >>= fun r =>
      match r with
      | none => pure none
      | some sz => segments img phystop f n ((off + PHSIZE) % 2 ^ 32) sz) := by
  conv_lhs => unfold segments
  split
  · rename_i hnone
    exact nomatch hnone.symm.trans hread
  rename_i data' hdata
  obtain rfl : data' = data := Option.some.inj (hdata.symm.trans hread)
  rfl

theorem segments_short (hread : f.readAll off PHSIZE = none) :
    segments img phystop f (n + 1) off sz = pure none := by
  conv_lhs => unfold segments
  rw [hread]

theorem segments_spec (h : Loaded img phystop m (pages sz))
    (hsz : sz ≤ KERNBASE) (hfit : SegmentsFit img phystop f n off sz m) :
    wp (segments img phystop f n off sz) (fun r m' => Stage img phystop m m' r)
      (fun _ => False) m := by
  induction n generalizing off sz m with
  | zero => exact .refl h hsz
  | succ n ih =>
    cases hread : f.readAll off PHSIZE with
    | none =>
      rw [segments_short hread]
      exact .failed (.refl m) (.refl m) h.sound
    | some data =>
      obtain ⟨hfirst, hrest⟩ := hfit data hread
      rw [segments_cons hread]
      refine (segment_spec (ofBytes_words data) h hsz hfirst).with_eq.seq fun r m' hr => ?_
      obtain ⟨hstage, heq⟩ := hr
      cases r with
      | none => exact hstage
      | some sz' =>
        obtain ⟨hsz', hloaded⟩ := hstage.loaded sz' rfl
        exact (ih hloaded hsz' (hrest sz' m' heq)).imp fun r' m'' => hstage.trans

theorem segments_panics (h : Loaded img phystop m (pages sz))
    (hsz : sz ≤ KERNBASE) (hfit : ¬ SegmentsFit img phystop f n off sz m) :
    segments img phystop f n off sz m = .error "kfree" := by
  induction n generalizing off sz m with
  | zero => exact absurd trivial hfit
  | succ n ih =>
    cases hread : f.readAll off PHSIZE with
    | none =>
      refine absurd (fun data hdata => ?_) hfit
      cases hread.symm.trans hdata
    | some data =>
      rw [segments_cons hread]
      by_cases hfirst : (ProgHdr.ofBytes data).Fits
      · -- then it is a later one
        obtain ⟨r, m', heq, hstage⟩ :=
          (segment_spec (ofBytes_words data) h hsz hfirst).returns (fun _ => id)
        have hlater : ¬ ∀ sz' m'', segment img phystop f (.ofBytes data) sz m =
            .ok (some sz', m'') →
              SegmentsFit img phystop f n ((off + PHSIZE) % 2 ^ 32) sz' m'' := by
          refine fun hrest => hfit fun data' hdata => ?_
          cases hread.symm.trans hdata
          exact ⟨hfirst, hrest⟩
        rw [heq] at hlater
        rw [bind_of_ok heq]
        cases r with
        | none => exact absurd (fun _ _ he => nomatch he) hlater
        | some sz' =>
          obtain ⟨hsz', hloaded⟩ := hstage.loaded sz' rfl
          refine ih hloaded hsz' fun hrest => hlater fun _ _ he => ?_
          cases he
          exact hrest
      · exact bind_of_error (segment_panics (ofBytes_words data) h hsz hfirst)

end

/-! ## The stack -/

def guardPage (sz : Nat) : Nat := (sz - USERSTACK) / PGSIZE

/-- An address space that is ready for the arguments: all pages up to `sz`, the one below the stack
    not for the user. -/
structure Built (img : Image) (phystop : Nat) (m : Mem) (sz : Nat) : Prop where
  sound : m.Sound img phystop
  aligned : sz % PGSIZE = 0
  low : USERSTACK ≤ sz
  high : sz / PGSIZE < KPAGE
  mapped : ∀ x < sz / PGSIZE, x ≠ guardPage sz → ∃ e, m.pgdir.entry x = some e ∧ e.u = true
  guard : ∃ e, m.pgdir.entry (guardPage sz) = some e ∧ e.u = false
  empty : ∀ x, sz / PGSIZE ≤ x → x < KPAGE → m.pgdir.entry x = none

section

variable {img : Image} {phystop : Nat} {m m' : Mem} {sz n : Nat}

theorem pages_mul (n : Nat) : pages (n * PGSIZE) = n := by
  simp only [pages, PGSIZE]
  omega

theorem stack_bounds (hn : n ≤ NFRAMES) : n * PGSIZE ≤ KERNBASE ∧ (n + 512) * PGSIZE ≤ KERNBASE ∧
    (n * PGSIZE + USERSTACK) % 2 ^ 32 = (n + 512) * PGSIZE ∧
      ((n + 512) * PGSIZE + 2 ^ 32 - USERSTACK) % 2 ^ 32 = n * PGSIZE ∧
    guardPage ((n + 512) * PGSIZE) = n ∧ USERSTACK ≤ (n + 512) * PGSIZE := by
  simp only [guardPage, USERSTACK, Mm.NFRAMES_eq, Mm.KERNBASE_eq, PGSIZE] at *
  omega

theorem stack_spec (h : Loaded img phystop m (pages sz)) (hsz : sz ≤ KERNBASE) :
    wp (stack img phystop sz) (fun r m' => m.Below m' ∧ m.Same m' ∧
      m'.Sound img phystop ∧ (∀ sz', r = some sz' → Built img phystop m' sz') ∧
      (r = none → m.census.card ≤ Mm.NPDENTRIES + pages sz + 514)) (fun _ => False) m := by
  have hroom := h.room
  unfold stack
  rw [Vm.PGROUNDUP_pages hsz]
  generalize pages sz = n at h hroom
  obtain ⟨hold, hnew, hadd, hsub, hguard, hlow⟩ := stack_bounds (n := n) (by omega)
  have hpos : 0 < (n + 512) * PGSIZE := Nat.mul_pos (Nat.succ_pos _) (by decide)
  have hle : n * PGSIZE ≤ (n + 512) * PGSIZE := Nat.mul_le_mul_right _ (Nat.le_add_right n 512)
  rw [hadd]
  refine (Vm.allocuvm_spec ((pages_mul n).symm ▸ h) hold hnew).seq fun sz' m' h' => ?_
  obtain ⟨hbelow, hsound, hsame, hfew, hgrown⟩ := h'
  by_cases hzero : sz' = 0
  · rw [if_pos hzero]
    refine ⟨hbelow, hsame, hsound, fun _ heq => (nomatch heq), fun _ => ?_⟩
    have hcard := hfew hzero hpos
    rwa [pages_mul, Nat.add_add_add_comm] at hcard
  rw [if_neg hzero]
  obtain ⟨hmax, -, hloaded⟩ := hgrown.resolve_left hzero
  rw [Nat.max_eq_right hle] at hmax
  rw [hmax, pages_mul] at hloaded
  rw [hmax, hsub, wp_bind]
  obtain ⟨e, he, -⟩ := hloaded.mapped n (by omega)
  refine (Vm.clearpteu_spec hsound (Nat.lt_trans (by omega) hloaded.lt) he).imp fun _ m'' h'' => ?_
  obtain ⟨hsound', hbelow', hsame', hentry⟩ := h''
  have hdiv : (n + 512) * PGSIZE / PGSIZE = n + 512 := Nat.mul_div_cancel _ (by decide)
  refine ⟨hbelow.trans hbelow', hsame.trans hsame', hsound',
    fun sz'' heq => ?_, fun heq => (nomatch heq)⟩
  cases heq
  refine ⟨hsound', Nat.mul_mod_left _ _, hlow,
    by rw [hdiv]; exact hloaded.lt, fun x hx hne => ?_, ?_, fun x hx hx' => ?_⟩
  · rw [hdiv] at hx
    rw [hguard] at hne
    rw [hentry, if_neg hne]
    exact hloaded.mapped x hx
  · rw [hguard, hentry, if_pos rfl]
    exact ⟨_, rfl, rfl⟩
  · rw [hdiv] at hx
    rw [hentry, if_neg (by omega)]
    exact hloaded.empty x hx hx'

end

/-! ## Memory -/

section

variable {C : Multiset Nat} {mem : Nat → UInt8} {l : List Store} {a : Nat} {s : Sys} {m m' : Mem}

theorem applyStore_of_not {st : Store} (h : st.In C) (ha : a / PGSIZE ∉ C) :
    applyStore mem st a = mem a := by
  cases st with
  | fill f b =>
    refine if_neg fun heq => ha ?_
    rw [heq]
    exact h
  | data pa bytes =>
    obtain ⟨hpage, hfit⟩ := h
    refine if_neg fun hin => ha ?_
    -- the bytes stay in the page they begin in
    have heq : a / PGSIZE = pa / PGSIZE := by
      simp only [PGSIZE] at *
      omega
    rw [heq]
    exact hpage

theorem applyStores_of_not (h : ∀ st ∈ l, st.In C) (ha : a / PGSIZE ∉ C) :
    applyStores mem l a = mem a := by
  induction l with
  | nil => rfl
  | cons st l ih =>
    unfold applyStores
    rw [applyStore_of_not (h st List.mem_cons_self) ha]
    exact ih fun st' hst' => h st' (.tail _ hst')

theorem stores_of_storesIn (h : Mem.StoresIn C { m with stores := [] } m') :
    ∀ st ∈ m'.stores, st.In C := by
  obtain ⟨l, hl, hin⟩ := h
  rw [hl, List.append_nil]
  exact hin

def Sys.after (s : Sys) (m : Mem) : Sys := { s with vm := m, mem := applyStores s.mem m.stores }

theorem onVm_ok {x : Exec Mem α} {r : α} (h : x { s.vm with stores := [] } = .ok (r, m)) :
    onVm x s = .ok (r, s.after m) := by
  unfold onVm
  rw [h]
  rfl

theorem onVm_error {x : Exec Mem α} {msg : String} (h : x { s.vm with stores := [] } = .error msg) :
    onVm x s = .error msg := by
  unfold onVm
  rw [h]

theorem wp_onVm {x : Exec Mem α} {Q : α → Sys → Prop} :
    wp (onVm x) Q E s ↔ wp x (fun a m => Q a (s.after m)) E { s.vm with stores := [] } := by
  unfold wp onVm
  cases x { s.vm with stores := [] } <;> rfl

theorem after_mem (h : Mem.StoresIn C { m with stores := [] } m') (ha : a / PGSIZE ∉ C) :
    (s.after m').mem a = s.mem a :=
  applyStores_of_not (stores_of_storesIn h) ha

end

/-! ## `exec` up to the arguments -/

def Sys.caller (s : Sys) : Mem :=
  { s.vm with pgdir := s.proc.pgdir, root := s.proc.root, stores := [] }

def Proc.pages (p : Proc) : Multiset Nat := p.root ::ₘ (p.pgdir.tabFrames + p.pgdir.userFrames)

theorem caller_census (s : Sys) : s.caller.census = s.vm.freelist + s.proc.pages := by
  unfold Mem.census Mem.core Proc.pages
  rw [Multiset.add_assoc, Multiset.cons_add]
  rfl

/-- The part of a table that `setupkvm` makes: the memory from the kernel's data on, no page for the
    user, and the last page of all. -/
structure KernelHalf (img : Image) (phystop : Nat) (d : PageDir) : Prop where
  memory : ∀ f, img.dataPage ≤ KPAGE + f → f < phystop / PGSIZE →
    d.entry (KPAGE + f) = some ⟨f, true, true, false⟩
  system : ∀ y, KPAGE ≤ y → ∀ e, d.entry y = some e → e.u = false
  last : ∃ e, d.entry (NPAGES - 1) = some e

/-- The free pages and those of the caller are pages of the allocator, each in one place, and the
    caller's table has the part of the kernel. -/
structure Ready (img : Image) (phystop : Nat) (s : Sys) : Prop where
  fits : img.Fits phystop
  sound : s.caller.Sound img phystop
  nodup : s.caller.census.Nodup
  kernel : KernelHalf img phystop s.proc.pgdir

def Sys.close (s : Sys) (inum : Nat) : Sys :=
  { s with refs := Function.update s.refs inum (s.refs inum - 1), outstanding := s.outstanding - 1 }

/-- The inode has been given back, and nothing of the process has been changed. -/
structure Closed (inum : Nat) (s s' : Sys) : Prop where
  refs : s'.refs = Function.update s.refs inum (s.refs inum - 1)
  outstanding : s'.outstanding = s.outstanding - 1
  proc : s'.proc = s.proc

/-- Entries have been written by `setupkvm` or below `KERNBASE`. -/
def WritesBelow (img : Image) (phystop : Nat) (s s' : Sys) : Prop :=
  ∀ w ∈ s'.vm.writes, w ∈ s.vm.writes ∨ w < KERNBASE ∨ ∃ ok m,
    Vm.setupkvm img phystop { s.vm with stores := [] } = .ok (ok, m) ∧ w ∈ m.writes

/-- Pages that were free at first are all that has been written to. -/
def Untouched (s s' : Sys) : Prop := ∀ a, a / PGSIZE ∉ s.vm.freelist → s'.mem a = s.mem a

/-- All pages have been given back. -/
structure GivenBack (img : Image) (phystop : Nat) (s s' : Sys) : Prop where
  free : List.Perm s'.vm.freelist s.vm.freelist
  writes : WritesBelow img phystop s s'

/-- An address space in the making: its pages and those that are free now were free at first. -/
structure Building (img : Image) (phystop : Nat) (s s' : Sys) : Prop where
  kernel : ∃ m, Vm.setupkvm img phystop { s.vm with stores := [] } = .ok (true, m) ∧
    Vm.Setup img phystop { s.vm with stores := [] } true m ∧ m.Below s'.vm
  sound : s'.vm.Sound img phystop
  census : s'.vm.census = s.vm.freelist

/-- `setupkvm`, the loop over the program headers and the stack, on the tables alone. -/
def Loads (img : Image) (phystop : Nat) (f : File) (elf : ElfHdr)
    (m : Mem) (sz : Nat) (m' : Mem) : Prop :=
  ∃ m1 sz0 m2, Vm.setupkvm img phystop { m with stores := [] } = .ok (true, m1) ∧
    segments img phystop f elf.phnum elf.phoff 0 { m1 with stores := [] } = .ok (some sz0, m2) ∧
    stack img phystop sz0 { m2 with stores := [] } = .ok (some sz, m')

def ProgramFits (img : Image) (phystop : Nat) (f : File) (m : Mem) : Prop :=
  ∀ data m', f.readAll 0 EHSIZE = some data → (ElfHdr.ofBytes data).magic = ELF_MAGIC →
    Vm.setupkvm img phystop { m with stores := [] } = .ok (true, m') →
    SegmentsFit img phystop f (ElfHdr.ofBytes data).phnum (ElfHdr.ofBytes data).phoff
      0 { m' with stores := [] }

section

variable {img : Image} {phystop : Nat} {s s' : Sys} {m : Mem} {sz inum : Nat}

section

variable (h : Ready img phystop s)
include h

theorem Ready.free : ∀ f ∈ s.vm.freelist, img.Frame phystop f := h.sound.owned.free

theorem Ready.freeNodup : s.vm.freelist.Nodup := by
  have hnodup := h.nodup
  rw [caller_census] at hnodup
  exact Multiset.coe_nodup.mp (Multiset.nodup_add.mp hnodup).1

theorem Ready.apart {f : Nat} (hf : f ∈ s.vm.freelist) : f ∉ s.proc.pages := by
  have hnodup := h.nodup
  rw [caller_census] at hnodup
  exact Multiset.disjoint_left.mp (Multiset.nodup_add.mp hnodup).2.2 (Multiset.mem_coe.mpr hf)

end

theorem frame_lt {f : Nat} (hfits : img.Fits phystop) (h : img.Frame phystop f) : f < NFRAMES := by
  have hbelow := h.below
  have hdevices := hfits.devices
  simp only [Mm.NFRAMES_eq, Mm.DEVSPACE, Mm.KERNBASE_eq, PGSIZE] at *
  omega

theorem Ready.freeLength (h : Ready img phystop s) : s.vm.freelist.length ≤ NFRAMES := by
  have hsubset : s.vm.freelist.toFinset ⊆ Finset.range NFRAMES := by
    intro f hf
    exact Finset.mem_range.mpr (frame_lt h.fits (h.free f (List.mem_toFinset.mp hf)))
  have hcard := Finset.card_le_card hsubset
  rwa [List.toFinset_card_of_nodup h.freeNodup, Finset.card_range] at hcard

theorem setup_loaded {m0 : Mem} (hsetup : Vm.Setup img phystop m0 true m)
    (hlen : m0.freelist.length ≤ NFRAMES) : Loaded img phystop { m with stores := [] } 0 := by
  refine ⟨⟨⟨(hsetup.owned rfl).free, (hsetup.owned rfl).root, (hsetup.owned rfl).tables⟩,
    fun x hx e he => ?_⟩, fun x hx => absurd hx (Nat.not_lt_zero x),
    fun x _ => hsetup.user rfl x, hsetup.kernel rfl, ?_⟩
  · have hnone := hsetup.user rfl x hx
    exact absurd (hnone.symm.trans he) (by simp)
  · rw [Nat.zero_add]
    exact Nat.le_trans (hsetup.less rfl).length_le hlen

theorem sound_stores (h : m.Sound img phystop) :
    ({ m with stores := [] } : Mem).Sound img phystop :=
  ⟨⟨h.owned.free, h.owned.root, h.owned.tables⟩, h.user⟩

theorem loaded_stores {n : Nat} (h : Loaded img phystop m n) :
    Loaded img phystop { m with stores := [] } n :=
  ⟨sound_stores h.sound, h.mapped, h.empty, h.kernel, h.room⟩

section

variable (h : Building img phystop s s')
include h

theorem Building.writes : WritesBelow img phystop s s' := by
  obtain ⟨m, hrun, -, hbelow⟩ := h.kernel
  intro w hw
  rcases hbelow.writes w hw with hw | hw
  · exact .inr (.inr ⟨true, m, hrun, hw⟩)
  · exact .inr (.inl hw)

theorem Building.after (hbelow : ({ s'.vm with stores := [] } : Mem).Below m)
    (hsame : ({ s'.vm with stores := [] } : Mem).Same m) (hsound : m.Sound img phystop) :
    Building img phystop s (s'.after m) := by
  obtain ⟨m1, hrun, hsetup, hkernel⟩ := h.kernel
  have hcensus : ({ s'.vm with stores := [] } : Mem).census = s.vm.freelist := h.census
  exact ⟨⟨m1, hrun, hsetup, hkernel.trans ⟨hbelow.writes, hbelow.root, hbelow.kernel⟩⟩,
    hsound, hsame.census.trans hcensus⟩

theorem Building.untouched (hsame : ({ s'.vm with stores := [] } : Mem).Same m)
    (huntouched : Untouched s s') : Untouched s (s'.after m) := by
  have hcensus : ({ s'.vm with stores := [] } : Mem).census = s.vm.freelist := h.census
  intro a ha
  rw [after_mem (hcensus ▸ hsame.stores) (by simpa using ha)]
  exact huntouched a ha

theorem Building.close (inum : Nat) : Building img phystop s (s'.close inum) :=
  ⟨h.kernel, h.sound, h.census⟩

end

theorem setup_building (h : Ready img phystop s)
    (hrun : Vm.setupkvm img phystop { s.vm with stores := [] } = .ok (true, m))
    (hsetup : Vm.Setup img phystop { s.vm with stores := [] } true m) :
    Building img phystop s (s.after m) :=
  ⟨⟨m, hrun, hsetup, .refl m⟩, ⟨hsetup.owned rfl, (setup_loaded hsetup h.freeLength).sound.user⟩,
    hsetup.census rfl⟩

theorem wp_freevm (h : Building img phystop s s') {Q : Unit → Sys → Prop}
    (hQ : ∀ t, GivenBack img phystop s t → (∀ a, a / PGSIZE ∉ s.vm.freelist → t.mem a = s'.mem a) →
      t.refs = s'.refs → t.outstanding = s'.outstanding →
      t.proc = s'.proc → Q () t) : wp (onVm (Vm.freevm img phystop)) Q E s' := by
  rw [wp_onVm]
  refine (Vm.freevm_spec (sound_stores h.sound)).mono (fun _ m' h' => ?_) (fun _ hE => hE.elim)
  obtain ⟨hbelow, -, -, hfree, hstores⟩ := h'
  have hcensus : ({ s'.vm with stores := [] } : Mem).census = s.vm.freelist := h.census
  rw [hcensus] at hfree hstores
  refine hQ _ ⟨Multiset.coe_eq_coe.mp hfree, fun w hw => ?_⟩
    (fun a ha => after_mem hstores (by simpa using ha)) rfl rfl rfl
  rcases hbelow.writes w hw with hw | hw
  · exact h.writes w hw
  · exact .inr (.inl hw)

end

section

variable {img : Image} {phystop : Nat} {disk : Disk} {s s' : Sys}
  {inum : Nat} {path : Str} {argv : List Str} {Q : Ret → Sys → Prop} {E : String → Prop}

theorem close_bind {x : Exec Sys α} :
    (iunlockput inum >>= fun _ => endOp >>= fun _ => x) s = x (s.close inum) := rfl

theorem wp_close {x : Exec Sys α} {Q : α → Sys → Prop} :
    wp (iunlockput inum >>= fun _ => endOp >>= fun _ => x) Q E s ↔ wp x Q E (s.close inum) := .rfl

/-- What has to be shown of `exec`: of every failure before the arguments, and of what follows. -/
theorem wp_execElf (h : Ready img phystop s) (hfit : ProgramFits img phystop (disk.inode inum) s.vm)
    (hfailed : ∀ t, GivenBack img phystop s t → Untouched s t →
      Closed inum s t → Q (.code (-ENOEXEC)) t)
    (hargs : ∀ data sz t, (disk.inode inum).readAll 0 EHSIZE = some data →
      (ElfHdr.ofBytes data).magic = ELF_MAGIC →
      Loads img phystop (disk.inode inum) (.ofBytes data) s.vm sz t.vm →
        Built img phystop t.vm sz → Building img phystop s t → Untouched s t → Closed inum s t →
      wp (pushArgs argv sz >>= fun r =>
        match r with
        | none => bad img phystop true none
        | some sp => commit img phystop path (ElfHdr.ofBytes data).entry sz sp) Q E t) :
    wp (execElf img phystop disk inum path argv) Q E s := by
  unfold execElf
  have hearly : wp (bad img phystop false (some inum)) Q E s :=
    hfailed _ ⟨.refl _, fun w => .inl⟩ (fun _ _ => rfl) ⟨rfl, rfl, rfl⟩
  cases hread : (disk.inode inum).readAll 0 EHSIZE with
  | none => exact hearly
  | some data =>
    dsimp only
    by_cases hmagic : (ElfHdr.ofBytes data).magic ≠ ELF_MAGIC
    · rw [if_pos hmagic]
      exact hearly
    rw [if_neg hmagic, wp_bind, wp_onVm]
    refine (Vm.setupkvm_spec (m := { s.vm with stores := [] }) h.fits h.free).with_eq.mono
      (fun ok m1 h1 => ?_) (fun _ hE => hE.elim)
    obtain ⟨hsetup, hrun1⟩ := h1
    have hu1 : Untouched s (s.after m1) := fun a ha => after_mem hsetup.stores (by simpa using ha)
    cases ok with
    | false =>
      exact hfailed _ ⟨hsetup.freed rfl, fun w hw => .inr (.inr ⟨false, m1, hrun1, hw⟩)⟩
        hu1 ⟨rfl, rfl, rfl⟩
    | true =>
      have hb1 := setup_building h hrun1 hsetup
      rw [if_pos rfl, wp_bind, wp_onVm]
      refine (segments_spec (setup_loaded hsetup h.freeLength)
        (Nat.zero_le _) (hfit data m1 hread (not_not.mp hmagic) hrun1)).with_eq.mono
        (fun r m2 h2 => ?_) (fun _ hE => hE.elim)
      obtain ⟨hstage, hrun2⟩ := h2
      have hb2 := hb1.after hstage.below hstage.same hstage.sound
      have hu2 := hb1.untouched hstage.same hu1
      cases r with
      | none =>
        refine wp_bind.mpr (wp_freevm hb2 fun t hgiven hmem hrefs hout hproc => wp_close.mpr ?_)
        have hrefs' : t.refs = s.refs := hrefs
        have hout' : t.outstanding = s.outstanding := hout
        refine hfailed _ ⟨hgiven.free, hgiven.writes⟩ (fun a ha => (hmem a ha).trans (hu2 a ha))
          ⟨?_, ?_, hproc⟩
        · rw [← hrefs']
          rfl
        · rw [← hout']
          rfl
      | some sz0 =>
        have hsz0 : sz0 ≤ KERNBASE := (hstage.loaded sz0 rfl).1
        have hloaded := loaded_stores (hstage.loaded sz0 rfl).2
        refine wp_close.mpr ?_
        rw [wp_bind, wp_onVm]
        refine (stack_spec hloaded hsz0).with_eq.mono (fun r m3 h3 => ?_) (fun _ hE => hE.elim)
        obtain ⟨⟨hbelow, hsame, hsound, hbuilt, -⟩, hrun3⟩ := h3
        have hb3 := (hb2.close inum).after hbelow hsame hsound
        have hu3 := (hb2.close inum).untouched hsame hu2
        cases r with
        | none =>
          refine wp_bind.mpr (wp_freevm hb3 fun t hgiven hmem hrefs hout hproc => ?_)
          exact hfailed _ hgiven (fun a ha => (hmem a ha).trans (hu3 a ha)) ⟨hrefs, hout, hproc⟩
        | some sz =>
          exact hargs data sz _ hread (not_not.mp hmagic)
            ⟨m1, sz0, m2, hrun1, hrun2, hrun3⟩ (hbuilt sz rfl) hb3 hu3 ⟨rfl, rfl, rfl⟩

theorem execElf_panics (h : Ready img phystop s)
    (hfit : ¬ ProgramFits img phystop (disk.inode inum) s.vm) :
    execElf img phystop disk inum path argv s = .error "kfree" := by
  unfold ProgramFits at hfit
  simp only [not_forall] at hfit
  obtain ⟨data, m1, hread, hmagic, hrun, hsegs⟩ := hfit
  have hsetup : Vm.Setup img phystop { s.vm with stores := [] } true m1 :=
    (Vm.setupkvm_spec (m := { s.vm with stores := [] }) h.fits h.free).of_ok hrun
  have hpanic := segments_panics (setup_loaded hsetup h.freeLength) (Nat.zero_le _) hsegs
  unfold execElf
  rw [hread]
  dsimp only
  rw [if_neg (not_not.mpr hmagic), bind_of_ok (onVm_ok hrun), if_pos rfl]
  exact bind_of_error (onVm_error hpanic)

end

/-! ## Arguments and the end -/

section

variable {img : Image} {phystop : Nat} {s t : Sys} {va sz : Nat}
  {bytes : List UInt8} {argv : List Str} {sp argc : Nat} {ptrs : List Nat}

theorem copyout_frame :
    wp (copyout va bytes) (fun _ t => ∃ mem, t = { s with mem := mem }) (· = "Page Fault") s := by
  have hrun : wp (Mm.copyout (tables s.proc.pgdir) (tables s.vm.pgdir)
      va (fun i => bytes.getD i 0) bytes.length) _ (· = "Page Fault") ⟨s.mem, [], []⟩ :=
    Mm.copyout_nulls
  unfold wp at hrun ⊢
  unfold copyout
  split at hrun
  · rename_i heq
    rw [heq]
    exact ⟨_, rfl⟩
  rename_i heq
  rw [heq]
  exact hrun

theorem pushStrings_frame : wp (pushStrings argv argc sp ptrs)
    (fun _ t => ∃ mem, t = { s with mem := mem }) (· = "Page Fault") s := by
  induction argv generalizing argc sp ptrs s with
  | nil => exact ⟨s.mem, rfl⟩
  | cons arg rest ih =>
    unfold pushStrings
    by_cases hmax : argc ≥ MAXARG
    · rw [if_pos hmax]
      exact ⟨s.mem, rfl⟩
    rw [if_neg hmax]
    refine copyout_frame.seq ?_
    rintro ok _ ⟨mem, rfl⟩
    cases ok with
    | true => exact ih
    | false => exact ⟨mem, rfl⟩

theorem pushArgs_frame :
    wp (pushArgs argv sz) (fun _ t => ∃ mem, t = { s with mem := mem }) (· = "Page Fault") s := by
  unfold pushArgs
  refine pushStrings_frame.seq ?_
  rintro r _ ⟨mem, rfl⟩
  cases r with
  | none => exact ⟨mem, rfl⟩
  | some r =>
    refine copyout_frame.seq ?_
    rintro ok _ ⟨mem', rfl⟩
    cases ok with
    | true | false => exact ⟨mem', rfl⟩

def Proc.become (p : Proc) (m : Mem) (path : Str) (entry sz sp : Nat) : Proc :=
  { p with
    name := (baseName path).take NAMELEN
    pgdir := m.pgdir
    root := m.root
    sz := sz
    tf := { p.tf with eip := entry, esp := sp }
    sighandlers := fun _ => 0 }

theorem Ready.retire (h : Ready img phystop s) (hfree : ∀ f ∈ t.vm.freelist, img.Frame phystop f)
    (hproc : t.proc = s.proc) : t.caller.Sound img phystop := by
  unfold Sys.caller
  rw [hproc]
  exact ⟨⟨hfree, h.sound.owned.root, h.sound.owned.tables⟩, h.sound.user⟩

theorem wp_commit {path : Str} {entry : Nat} {Q : Ret → Sys → Prop}
    (hsound : t.caller.Sound img phystop)
    (hQ : ∀ u, u.proc = t.proc.become t.vm path entry sz sp →
      (∀ a, a / PGSIZE ∉ t.caller.census → u.mem a = t.mem a) →
      t.caller.Below u.vm → u.refs = t.refs → u.outstanding = t.outstanding → Q (.code 0) u) :
    wp (commit img phystop path entry sz sp) Q E t := by
  unfold commit
  rw [wp_bind, wp_get]
  rw [wp_bind, wp_modify, wp_bind, wp_onVm]
  refine (Vm.freevm_spec hsound).mono (fun _ m' h' => ?_) (fun _ hE => hE.elim)
  obtain ⟨hbelow, -, -, -, hstores⟩ := h'
  rw [wp_bind, wp_modify, wp_pure]
  exact hQ _ rfl (fun a => after_mem (m := t.caller) hstores) hbelow rfl rfl

end

/-! ## Files with the ELF magic -/

def Sys.open (s : Sys) (inum : Nat) : Sys :=
  { s with refs := Function.update s.refs inum (s.refs inum + 1), outstanding := s.outstanding + 1 }

section

variable {img : Image} {phystop : Nat} {disk : Disk} {kstack : Nat → Nat → UInt8}
  {s : Sys} {fuel depth inum : Nat} {path : Str} {argv : List Str}

theorem Ready.open (h : Ready img phystop s) (inum : Nat) :
    Ready img phystop (s.open inum) := ⟨h.fits, h.sound, h.nodup, h.kernel⟩

theorem execve_elf (hpath : disk.namei path = some inum)
    (hmagic : [0x7F, 0x45, 0x4C, 0x46] <+: (disk.inode inum).bytes) :
    execve img phystop disk kstack (fuel + 1) depth path argv s =
      (execElf img phystop disk inum path argv >>= fun r => pure (some r)) (s.open inum) := by
  obtain ⟨rest, hbytes⟩ := hmagic
  have hread : (disk.inode inum).readi 0 BUFSIZE =
      some (0x7F :: 0x45 :: (0x4C :: 0x46 :: rest).take 126) := by
    unfold File.readi
    rw [if_neg (by simp), ← hbytes]
    rfl
  unfold execve
  rw [hpath]
  dsimp only
  rw [hread]
  rfl

end

end Micro86.ExecFile
