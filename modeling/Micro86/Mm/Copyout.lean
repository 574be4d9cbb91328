import Micro86.Mm.Paging

/-!
# Copying to user memory

`copyout` finds each page of its destination with `uva2ka`, which reads the entry `walkpgdir`
returns without looking whether it returned one.  For an address without a page table the entry is
read through a null pointer: it is the word at virtual address 0 of the running process.

* `Machine` — physical memory, with the stores made and the entries read through a null pointer.
* `copyout_ok_iff` — it holds exactly where the first page that is not mapped has a page table, as
  long as no two addresses of the range are the same byte of memory.
-/

namespace Micro86.Mm

open Exec Function

structure Machine where
  mem : Nat → UInt8
  /-- Physical addresses stored to, last first. -/
  stores : List Nat
  /-- User pages whose entry was read through a null pointer, last first. -/
  nulls : List Nat

def Machine.store (s : Machine) (x : Nat) (b : UInt8) : Machine :=
  { s with mem := update s.mem x b, stores := x :: s.stores }

def word (mem : Nat → UInt8) (x : Nat) : Nat :=
  (mem x).toNat + 2 ^ 8 * (mem (x + 1)).toNat + 2 ^ 16 * (mem (x + 2)).toNat +
    2 ^ 24 * (mem (x + 3)).toNat

section

-- `cur` is the page table in `%cr3`, `pgdir` the one `copyout` is called with
variable (cur pgdir : Tables)

/-- A store by the kernel.  `CR0_WP` is set, so the page must be writable for it as well. -/
def storeByte (va : Nat) (b : UInt8) : Exec Machine Unit :=
  match walkpgdir cur va with
  | some e =>
    if e.p && e.w then Exec.modify fun s => s.store (e.frame * PGSIZE + va % PGSIZE) b
    else Exec.panic "Page Fault"
  | none => Exec.panic "Page Fault"

def memmove (dst : Nat) (buf : Nat → UInt8) (n : Nat) : Exec Machine Unit :=
  forUpTo n fun i => storeByte cur ((dst + i) % 2 ^ 32) (buf i)

/-- `*pte` for `pte == 0`: the word at virtual address 0. -/
def nullPte (va : Nat) : Exec Machine Pte := do
  let s ← Exec.get
  Exec.modify fun s => { s with nulls := va :: s.nulls }
  match walkpgdir cur 0 with
  | some e =>
    if e.p then pure (Pte.ofWord (word s.mem (e.frame * PGSIZE)))
    else Exec.panic "Page Fault"
  | none => Exec.panic "Page Fault"

def readPte (uva : Nat) : Exec Machine Pte :=
  match walkpgdir pgdir uva with
  | some e => pure e
  | none => nullPte cur uva

def uva2ka (uva : Nat) : Exec Machine Nat := do
  let pte ← readPte cur pgdir uva
  if pte.p = false then pure 0
  else if pte.u = false then pure 0
  else pure (P2V pte.frame)

def copyout (va : Nat) (buf : Nat → UInt8) (len : Nat) : Exec Machine Int :=
  if len = 0 then pure 0
  else do
    let va0 := PGROUNDDOWN va
    let pa0 ← uva2ka cur pgdir va0
    if pa0 = 0 then pure (-1)
    else do
      let n := min (PGSIZE - (va - va0)) len
      memmove cur (pa0 + (va - va0)) buf n
      copyout ((va0 + PGSIZE) % 2 ^ 32) (fun i => buf (n + i)) (len - n)
termination_by len
decreasing_by
  have := sub_PGROUNDDOWN va
  have := Nat.mod_lt va (show 0 < PGSIZE by decide)
  omega

end

/-! ## Stores -/

def Machine.stored (x : Nat) (buf : Nat → UInt8) : Nat → Machine → Machine
  | 0, s => s
  | n + 1, s => (stored x buf n s).store (x + n) (buf n)

section

open Machine (stored)

variable {x n y : Nat} {buf : Nat → UInt8} {s : Machine}

@[simp] theorem stored_nulls : (stored x buf n s).nulls = s.nulls := by
  induction n with
  | zero => rfl
  | succ n ih => exact ih

theorem mem_stored_stores :
    y ∈ (stored x buf n s).stores ↔ (∃ i < n, y = x + i) ∨ y ∈ s.stores := by
  induction n with
  | zero => simp [stored]
  | succ n ih =>
    have hstep : y ∈ (stored x buf (n + 1) s).stores ↔ y = x + n ∨
        y ∈ (stored x buf n s).stores := List.mem_cons
    rw [hstep, ih]
    constructor
    · rintro (rfl | ⟨i, hi, rfl⟩ | h)
      · exact .inl ⟨n, by omega, rfl⟩
      · exact .inl ⟨i, by omega, rfl⟩
      · exact .inr h
    · rintro (⟨i, hi, rfl⟩ | h)
      · by_cases hin : i = n
        · exact .inl (by rw [hin])
        · exact .inr (.inl ⟨i, by omega, rfl⟩)
      · exact .inr (.inr h)

theorem stored_mem_add {i : Nat} (hi : i < n) : (stored x buf n s).mem (x + i) = buf i := by
  induction n with
  | zero => omega
  | succ n ih =>
    show update (stored x buf n s).mem (x + n) (buf n) (x + i) = buf i
    by_cases hin : i = n
    · rw [hin, update_self]
    · rw [update_of_ne (by omega)]
      exact ih (by omega)

theorem stored_mem_of_not (hy : ∀ i < n, y ≠ x + i) : (stored x buf n s).mem y = s.mem y := by
  induction n with
  | zero => rfl
  | succ n ih =>
    show update (stored x buf n s).mem (x + n) (buf n) y = _
    rw [update_of_ne (hy n (by omega))]
    exact ih fun i hi => hy i (by omega)

variable {ram : Ram} {cur : PageTable ram} {f o : Nat}

theorem storeByte_kern (hf : ram.first ≤ f) (hf' : f < ram.top) (ho : o < PGSIZE) (b : UInt8) :
    storeByte cur.tab ((P2V f + o) % 2 ^ 32) b s = .ok ((), s.store (f * PGSIZE + o) b) := by
  obtain ⟨-, hpage, hoff⟩ := P2V_add hf' ho
  have hlt : P2V f + o < 2 ^ 32 := by
    simp only [P2V, PGSIZE] at *
    omega
  unfold storeByte
  rw [Nat.mod_eq_of_lt hlt, walkpgdir_congr hpage, cur.kern f hf hf', hoff]
  rfl

theorem memmove_kern (cur : PageTable ram) (hf : ram.first ≤ f)
    (hf' : f < ram.top) (ho : o + n ≤ PGSIZE) :
    memmove cur.tab (P2V f + o) buf n s = .ok ((), stored (f * PGSIZE + o) buf n s) := by
  unfold memmove
  induction n with
  | zero =>
    rw [forUpTo_zero]
    rfl
  | succ n ih =>
    rw [forUpTo_succ, bind_of_ok (ih (by omega)), Nat.add_assoc,
      storeByte_kern hf hf' (by omega), ← Nat.add_assoc]
    rfl

theorem memmove_nulls {cur : Tables} :
    wp (memmove cur x buf n) (fun _ t => t.nulls = s.nulls) (· = "Page Fault") s := by
  unfold memmove
  induction n with
  | zero =>
    rw [forUpTo_zero]
    rfl
  | succ n ih =>
    rw [forUpTo_succ]
    refine ih.seq fun _ t ht => ?_
    unfold storeByte
    split
    · split
      · exact ht
      · rfl
    · rfl

end

/-! ## One page -/

section

open Machine (stored)

variable {ram : Ram} {cur pgdir : PageTable ram} {va len : Nat}
  {buf : Nat → UInt8} {s : Machine} {e : Pte}

def chunk (va len : Nat) : Nat := min (PGSIZE - va % PGSIZE) len

theorem chunk_le (va len : Nat) : chunk va len ≤ len := Nat.min_le_right _ _

theorem add_chunk_le : va % PGSIZE + chunk va len ≤ PGSIZE := by
  have := Nat.mod_lt va (show 0 < PGSIZE by decide)
  unfold chunk
  omega

theorem chunk_pos (va : Nat) (h : 0 < len) : 0 < chunk va len := by
  have := Nat.mod_lt va (show 0 < PGSIZE by decide)
  unfold chunk
  omega

theorem chunk_page {i : Nat} (hi : i < chunk va len) :
    (va + i) / PGSIZE = va / PGSIZE ∧ (va + i) % PGSIZE = va % PGSIZE + i := by
  simp only [chunk, PGSIZE] at *
  omega

theorem chunk_mod (hva : va < 2 ^ 32) {i : Nat} (hi : i < chunk va len) :
    (va + i) % 2 ^ 32 = va + i := by
  simp only [chunk, PGSIZE] at *
  omega

theorem chunk_next (h : chunk va len ≠ len) :
    (PGROUNDDOWN va + PGSIZE) % 2 ^ 32 = (va + chunk va len) % 2 ^ 32 := by
  have := Nat.mod_le va PGSIZE
  have := Nat.mod_lt va (show 0 < PGSIZE by decide)
  have : PGROUNDDOWN va + PGSIZE = va + chunk va len := by
    unfold chunk at h ⊢
    unfold PGROUNDDOWN
    omega
  rw [this]

theorem readPte_of_walk {cur tab : Tables} (h : walkpgdir tab va = some e) :
    readPte cur tab va s = .ok (e, s) := by
  unfold readPte
  rw [h]
  rfl

theorem uva2ka_user {cur tab : Tables} (h : walkpgdir tab va = some e) (hu : e.isUser = true) :
    uva2ka cur tab va s = .ok (P2V e.frame, s) := by
  have hpu : e.p = true ∧ e.u = true := by simpa [Pte.isUser] using hu
  rw [uva2ka, bind_of_ok (readPte_of_walk h), if_neg (by simp [hpu.1]), if_neg (by simp [hpu.2])]
  rfl

theorem uva2ka_absent {cur tab : Tables} (h : walkpgdir tab va = some e) (hu : e.isUser = false) :
    uva2ka cur tab va s = .ok (0, s) := by
  rw [uva2ka, bind_of_ok (readPte_of_walk h)]
  by_cases hp : e.p = false
  · rw [if_pos hp]
    rfl
  have : e.u = false := by simpa [Pte.isUser, hp] using hu
  rw [if_neg hp, if_pos this]
  rfl

theorem readPte_nulls {cur tab : Tables} : wp (readPte cur tab va) (fun _ t => s.nulls <:+ t.nulls ∧
    (walkpgdir tab va = none → s.nulls.length < t.nulls.length)) (· = "Page Fault") s := by
  cases hw : walkpgdir tab va with
  | some e =>
    rw [wp_of_eq (readPte_of_walk hw)]
    exact ⟨List.suffix_refl _, nofun⟩
  | none =>
    unfold readPte
    rw [hw]
    unfold nullPte
    rw [wp_bind, wp_get, wp_bind, wp_modify]
    split
    · split
      · exact ⟨List.suffix_cons va s.nulls, fun _ => Nat.lt_succ_self _⟩
      · rfl
    · rfl

theorem uva2ka_nulls {cur tab : Tables} : wp (uva2ka cur tab va) (fun _ t => s.nulls <:+ t.nulls ∧
    (walkpgdir tab va = none → s.nulls.length < t.nulls.length)) (· = "Page Fault") s := by
  unfold uva2ka
  refine readPte_nulls.seq fun pte t ht => ?_
  by_cases hp : pte.p = false
  · rwa [if_pos hp]
  rw [if_neg hp]
  by_cases hu : pte.u = false
  · rwa [if_pos hu]
  · rwa [if_neg hu]

theorem copyout_zero {cur tab : Tables} : copyout cur tab va buf 0 s = .ok (0, s) := by
  rw [copyout]
  rfl

theorem copyout_eq {cur tab : Tables} (h : 0 < len) :
    copyout cur tab va buf len = (uva2ka cur tab (PGROUNDDOWN va) >>= fun pa0 =>
    if pa0 = 0 then pure (-1)
    else memmove cur (pa0 + va % PGSIZE) buf (chunk va len) >>= fun _ =>
      copyout cur tab ((PGROUNDDOWN va + PGSIZE) % 2 ^ 32) (fun i => buf (chunk va len + i))
        (len - chunk va len)) := by
  rw [copyout, if_neg (by omega)]
  simp [sub_PGROUNDDOWN, chunk]

theorem copyout_user (hlen : 0 < len) (h : walkpgdir pgdir.tab va = some e) (hu : e.isUser = true) :
    copyout cur.tab pgdir.tab va buf len s =
      copyout cur.tab pgdir.tab ((PGROUNDDOWN va + PGSIZE) % 2 ^ 32)
        (fun i => buf (chunk va len + i)) (len - chunk va len)
        (stored (e.frame * PGSIZE + va % PGSIZE) buf (chunk va len) s) := by
  obtain ⟨hf, hf'⟩ := pgdir.user va e h hu
  obtain ⟨hne, -⟩ := P2V_add hf' (Nat.mod_lt va (show 0 < PGSIZE by decide))
  rw [copyout_eq hlen, bind_of_ok (uva2ka_user (walkpgdir_PGROUNDDOWN.trans h) hu), if_neg hne,
    bind_of_ok (memmove_kern cur hf hf' add_chunk_le)]

theorem copyout_absent {cur tab : Tables} (hlen : 0 < len) (h : walkpgdir tab va = some e)
    (hu : e.isUser = false) : copyout cur tab va buf len s = .ok (-1, s) := by
  rw [copyout_eq hlen, bind_of_ok (uva2ka_absent (walkpgdir_PGROUNDDOWN.trans h) hu)]
  rfl

theorem copyout_nulls {cur tab : Tables} :
    wp (copyout cur tab va buf len) (fun _ t => s.nulls <:+ t.nulls) (· = "Page Fault") s := by
  induction len using Nat.strongRecOn generalizing va buf s with
  | _ len ih =>
    by_cases hlen : len = 0
    · subst hlen
      exact (wp_of_eq copyout_zero).mpr (List.suffix_refl _)
    rw [copyout_eq (by omega)]
    refine (uva2ka_nulls).seq ?_
    rintro pa0 t ⟨ht, -⟩
    by_cases h0 : pa0 = 0
    · rw [if_pos h0]
      exact ht
    rw [if_neg h0]
    refine (memmove_nulls).seq fun _ u hu => ?_
    have hc := chunk_pos va (Nat.pos_of_ne_zero hlen)
    refine (ih (len - chunk va len) (by omega)).imp fun _ v hv => ?_
    rw [hu] at hv
    exact ht.trans hv

/-- A page without a page table: its entry is read through a null pointer. -/
theorem copyout_null {cur tab : Tables} (hlen : 0 < len) (h : walkpgdir tab va = none) :
    wp (copyout cur tab va buf len) (fun _ t => s.nulls.length < t.nulls.length)
      (· = "Page Fault") s := by
  rw [copyout_eq hlen]
  refine (uva2ka_nulls).seq ?_
  rintro pa0 t ⟨-, ht⟩
  have ht := ht (walkpgdir_PGROUNDDOWN.trans h)
  by_cases h0 : pa0 = 0
  · rw [if_pos h0]
    exact ht
  rw [if_neg h0]
  refine (memmove_nulls).seq fun _ u hu => ?_
  refine (copyout_nulls).imp fun _ v hv => ?_
  have := hv.length_le
  rw [hu] at this
  omega

/-- A page that is present and not for the user is not passed, whatever is read before it. -/
theorem copyout_blocked {cur tab : Tables} {k : Nat} (hva : va < 2 ^ 32)
    (hk : k < len) (h : walkpgdir tab ((va + k) % 2 ^ 32) = some e) (hu : e.isUser = false) :
    wp (copyout cur tab va buf len) (fun r _ => r = -1) (· = "Page Fault") s := by
  induction len using Nat.strongRecOn generalizing va buf k s with
  | _ len ih =>
    have hlen : 0 < len := Nat.lt_of_le_of_lt (Nat.zero_le k) hk
    have hpos := chunk_pos va hlen
    by_cases hc : k < chunk va len
    · rw [chunk_mod hva hc, walkpgdir_congr (chunk_page hc).1] at h
      exact (wp_of_eq (copyout_absent hlen h hu)).mpr rfl
    rw [copyout_eq hlen]
    refine (uva2ka_nulls).seq fun pa0 t _ => ?_
    by_cases h0 : pa0 = 0
    · rw [if_pos h0]
      rfl
    rw [if_neg h0]
    refine (memmove_nulls).seq fun _ u _ => ?_
    have hnext : (PGROUNDDOWN va + PGSIZE) % 2 ^ 32 = (va + chunk va len) % 2 ^ 32 :=
      chunk_next (by omega)
    have hsum : va + chunk va len + (k - chunk va len) = va + k := by omega
    rw [hnext]
    refine ih (len - chunk va len) (by omega) (k := k - chunk va len)
      (Nat.mod_lt _ (by decide)) (by omega) ?_
    rw [Nat.mod_add_mod, hsum]
    exact h

theorem copyout_keeps (cur pgdir : PageTable ram) {x : Nat}
    (hx : ∀ va, userAddr pgdir.tab va ≠ some x) :
    wp (copyout cur.tab pgdir.tab va buf len) (fun _ t => t.nulls = s.nulls →
      t.mem x = s.mem x) (· = "Page Fault") s := by
  induction len using Nat.strongRecOn generalizing va buf s with
  | _ len ih =>
    by_cases hlen : len = 0
    · rw [hlen, wp_of_eq copyout_zero]
      exact fun _ => rfl
    have hlen : 0 < len := by omega
    cases hw : walkpgdir pgdir.tab va with
    | none =>
      refine (copyout_null hlen hw).imp fun _ t ht heq => ?_
      rw [heq] at ht
      exact absurd ht (Nat.lt_irrefl _)
    | some e =>
      by_cases hu : e.isUser = true
      · have hc := chunk_pos va hlen
        unfold wp
        rw [copyout_user hlen hw hu]
        refine (ih (len - chunk va len) (by omega)).imp fun _ t ht hnulls => ?_
        rw [ht (hnulls.trans stored_nulls.symm)]
        refine stored_mem_of_not fun i hi hxi => ?_
        obtain ⟨hpage, hoff⟩ := chunk_page hi
        refine hx (va + i) ?_
        rw [user_of_walk ((walkpgdir_congr hpage).trans hw) hu, hoff, hxi, Nat.add_assoc]
      · rw [wp_of_eq (copyout_absent hlen hw (by simpa using hu))]
        exact fun _ => rfl

end

/-! ## A whole range -/

/-- The physical address of byte `i` of the range; addresses wrap at 32 bits. -/
def target (tab : Tables) (va i : Nat) : Option Nat := userAddr tab ((va + i) % 2 ^ 32)

/-- From `s` to `t` the first `k` bytes were stored, and nothing else. -/
structure Wrote (tab : Tables) (va : Nat) (buf : Nat → UInt8) (k : Nat) (s t : Machine) : Prop where
  nulls : t.nulls = s.nulls
  stores : ∀ x ∈ t.stores, x ∈ s.stores ∨ ∃ i < k, target tab va i = some x
  mem : ∀ x, (∃ i < k, target tab va i = some x ∧ t.mem x = buf i) ∨
    ((∀ i < k, target tab va i ≠ some x) ∧ t.mem x = s.mem x)

section

variable {tab : Tables} {va len k n : Nat} {buf : Nat → UInt8} {s t u : Machine} {e : Pte}

theorem Wrote.refl : Wrote tab va buf 0 s s :=
  ⟨rfl, fun _ => .inl, fun _ => .inr ⟨fun _ h => absurd h (Nat.not_lt_zero _), rfl⟩⟩

theorem target_add (i : Nat) : target tab ((va + n) % 2 ^ 32) i = target tab va (n + i) := by
  unfold target
  rw [Nat.mod_add_mod, Nat.add_assoc]

theorem Wrote.trans (h : Wrote tab va buf n s t)
    (h' : Wrote tab ((va + n) % 2 ^ 32) (fun i => buf (n + i)) k t u) :
    Wrote tab va buf (n + k) s u := by
  refine ⟨h'.nulls.trans h.nulls, fun x hx => ?_, fun x => ?_⟩
  · rcases h'.stores x hx with hx | ⟨i, hi, hx⟩
    · rcases h.stores x hx with hx | ⟨i, hi, hx⟩
      · exact .inl hx
      · exact .inr ⟨i, by omega, hx⟩
    · exact .inr ⟨n + i, by omega, target_add i ▸ hx⟩
  · rcases h'.mem x with ⟨i, hi, hx, hm⟩ | ⟨hno', hm⟩
    · exact .inl ⟨n + i, by omega, target_add i ▸ hx, hm⟩
    rcases h.mem x with ⟨i, hi, hx, hm'⟩ | ⟨hno, hm'⟩
    · exact .inl ⟨i, by omega, hx, hm.trans hm'⟩
    refine .inr ⟨fun i hi => ?_, hm.trans hm'⟩
    by_cases hin : i < n
    · exact hno i hin
    · have := hno' (i - n) (by omega)
      rwa [target_add, Nat.add_sub_cancel' (by omega)] at this

theorem target_chunk (hva : va < 2 ^ 32) (h : walkpgdir tab va = some e)
    (hu : e.isUser = true) {i : Nat}
    (hi : i < chunk va len) : target tab va i = some (e.frame * PGSIZE + va % PGSIZE + i) := by
  obtain ⟨hpage, hoff⟩ := chunk_page hi
  unfold target
  rw [chunk_mod hva hi, user_of_walk ((walkpgdir_congr hpage).trans h) hu, hoff, Nat.add_assoc]

theorem Wrote.chunk (hva : va < 2 ^ 32) (h : walkpgdir tab va = some e) (hu : e.isUser = true) :
    Wrote tab va buf (chunk va len) s
      (Machine.stored (e.frame * PGSIZE + va % PGSIZE) buf (chunk va len) s) := by
  refine ⟨stored_nulls, fun x hx => ?_, fun x => ?_⟩
  · rcases mem_stored_stores.mp hx with ⟨i, hi, rfl⟩ | hx
    · exact .inr ⟨i, hi, target_chunk hva h hu hi⟩
    · exact .inl hx
  · by_cases hx : ∃ i < Mm.chunk va len, x = e.frame * PGSIZE + va % PGSIZE + i
    · obtain ⟨i, hi, rfl⟩ := hx
      exact .inl ⟨i, hi, target_chunk hva h hu hi, stored_mem_add hi⟩
    refine .inr ⟨fun i hi htx => hx ⟨i, hi, ?_⟩, stored_mem_of_not fun i hi hxi => hx ⟨i, hi, hxi⟩⟩
    rw [target_chunk hva h hu hi] at htx
    exact (Option.some.inj htx).symm

theorem target_isSome_chunk (tab : Tables) (hva : va < 2 ^ 32) {i : Nat} (hi : i < chunk va len) :
    (target tab va i).isSome = (target tab va 0).isSome := by
  obtain ⟨hpage, -⟩ := chunk_page hi
  have h0 : (va + 0) % 2 ^ 32 = va := Nat.mod_eq_of_lt hva
  unfold target userAddr
  rw [chunk_mod hva hi, h0, walkpgdir_congr hpage]
  cases walkpgdir tab va with
  | none => rfl
  | some e =>
    show (if e.isUser = true then some _ else none : Option Nat).isSome =
        (if e.isUser = true then some _ else none : Option Nat).isSome
    split <;> rfl

variable {ram : Ram} {cur pgdir : PageTable ram}

theorem copyout_upto (cur pgdir : PageTable ram) (buf : Nat → UInt8) (s : Machine)
    (hva : va < 2 ^ 32) (hk : k ≤ len) (hmap : ∀ i < k, (target pgdir.tab va i).isSome)
    (hend : k < len → target pgdir.tab va k = none) : ∃ t, Wrote pgdir.tab va buf k s t ∧
      copyout cur.tab pgdir.tab va buf len s =
        copyout cur.tab pgdir.tab ((va + k) % 2 ^ 32) (fun i => buf (k + i)) (len - k) t := by
  induction len using Nat.strongRecOn generalizing va buf k s with
  | _ len ih =>
    by_cases hk0 : k = 0
    · subst hk0
      refine ⟨s, .refl, ?_⟩
      simp only [Nat.add_zero, Nat.zero_add, Nat.sub_zero, Nat.mod_eq_of_lt hva]
    have hlen : 0 < len := by omega
    have hc := chunk_pos va hlen
    have hcl := chunk_le va len
    -- the first page is mapped, so the range without holes ends after it
    have h0 := hmap 0 (by omega)
    obtain ⟨x, hx⟩ := Option.isSome_iff_exists.mp h0
    obtain ⟨e, hwalk, hu, -⟩ := user_eq_some hx
    rw [Nat.add_zero, Nat.mod_eq_of_lt hva] at hwalk
    have hck : chunk va len ≤ k := by
      by_contra hlt
      have hnone := hend (by omega)
      have := target_isSome_chunk pgdir.tab hva (show k < chunk va len by omega)
      rw [hnone, h0] at this
      cases this
    have hfirst : Wrote pgdir.tab va buf (chunk va len) s _ := Wrote.chunk hva hwalk hu
    rw [copyout_user hlen hwalk hu]
    by_cases hcl' : chunk va len = len
    · have hklen : k = len := by omega
      rw [hklen]
      refine ⟨_, hcl' ▸ hfirst, ?_⟩
      rw [hcl', Nat.sub_self, copyout_zero, copyout_zero]
    rw [chunk_next hcl']
    obtain ⟨t, hrest, heq⟩ :=
      ih (len - chunk va len) (by omega) (k := k - chunk va len) (fun i => buf (chunk va len + i))
      (Machine.stored (e.frame * PGSIZE + va % PGSIZE) buf (chunk va len) s)
      (Nat.mod_lt (va + chunk va len) (by decide)) (by omega)
      (fun i hi => by rw [target_add]; exact hmap _ (by omega))
      (fun hlt => by rw [target_add, Nat.add_sub_cancel' hck]; exact hend (by omega))
    refine ⟨t, ?_, heq.trans ?_⟩
    · have := hfirst.trans hrest
      rwa [Nat.add_sub_cancel' hck] at this
    · rw [Nat.mod_add_mod, Nat.add_assoc, Nat.add_sub_cancel' hck,
        Nat.sub_sub, Nat.add_sub_cancel' hck]
      simp [← Nat.add_assoc, Nat.add_sub_cancel' hck]

end

/-! ## What callers rely on -/

/-- The call returns; every store is to a byte of the range that is mapped for the user; if the
    whole range is, it returns 0 and user memory holds the source; if not, it returns -1; and no
    entry is used that `walkpgdir` did not find. -/
def CopyoutOk (cur tab : Tables) (mem : Nat → UInt8) (va : Nat)
    (buf : Nat → UInt8) (len : Nat) : Prop :=
  ∃ r t, copyout cur tab va buf len ⟨mem, [], []⟩ = .ok (r, t) ∧
    (∀ x ∈ t.stores, ∃ i < len, target tab va i = some x) ∧
    ((∀ i < len, (target tab va i).isSome) → r = 0 ∧ ∀ i < len, ∀ x, target tab va i = some x →
      t.mem x = buf i) ∧
    ((∃ i < len, target tab va i = none) → r = -1) ∧
    t.nulls = []

/-- The first byte of the range that is not mapped for the user has a page table. -/
def StopsAtTable (tab : Tables) (va len : Nat) : Prop :=
  ∀ k < len, (∀ i < k, (target tab va i).isSome) → (walkpgdir tab ((va + k) % 2 ^ 32)).isSome

/-- If the whole range is mapped, bytes of the range that are one byte of memory get one value. -/
def Unambiguous (tab : Tables) (va : Nat) (buf : Nat → UInt8) (len : Nat) : Prop :=
  (∀ i < len, (target tab va i).isSome) → ∀ i < len, ∀ j < len,
    target tab va i = target tab va j → buf i = buf j

section

variable {ram : Ram} {cur pgdir : PageTable ram} {mem : Nat → UInt8}
  {va len : Nat} {buf : Nat → UInt8}

theorem target_of_walk_none {i : Nat} (h : walkpgdir pgdir.tab ((va + i) % 2 ^ 32) = none) :
    target pgdir.tab va i = none := by
  unfold target userAddr
  rw [h]

theorem copyoutOk_of_mapped (hva : va < 2 ^ 32) (hmap : ∀ i < len, (target pgdir.tab va i).isSome)
    (hone : Unambiguous pgdir.tab va buf len) : CopyoutOk cur.tab pgdir.tab mem va buf len := by
  obtain ⟨t, ht, heq⟩ := copyout_upto cur pgdir buf ⟨mem, [], []⟩ hva (Nat.le_refl len) hmap
    (fun h => absurd h (Nat.lt_irrefl _))
  rw [Nat.sub_self, copyout_zero] at heq
  refine ⟨0, t, heq, fun x hx => ?_, fun _ => ⟨rfl, fun i hi x hx => ?_⟩, ?_, ht.nulls⟩
  · rcases ht.stores x hx with h | h
    · cases h
    · exact h
  · rcases ht.mem x with ⟨j, hj, hxj, hm⟩ | ⟨hno, -⟩
    · rw [hm]
      exact (hone hmap i hi j hj (hx.trans hxj.symm)).symm
    · exact absurd hx (hno i hi)
  · rintro ⟨i, hi, hnone⟩
    have := hmap i hi
    rw [hnone] at this
    cases this

theorem copyoutOk_of_stop {k : Nat} (hva : va < 2 ^ 32) (hk : k < len)
    (hmap : ∀ i < k, (target pgdir.tab va i).isSome)
    (hnone : target pgdir.tab va k = none)
    (htab : (walkpgdir pgdir.tab ((va + k) % 2 ^ 32)).isSome) :
    CopyoutOk cur.tab pgdir.tab mem va buf len := by
  obtain ⟨t, ht, heq⟩ :=
    copyout_upto cur pgdir buf ⟨mem, [], []⟩ hva (Nat.le_of_lt hk) hmap (fun _ => hnone)
  obtain ⟨e, he⟩ := Option.isSome_iff_exists.mp htab
  have hu : e.isUser = false := by
    by_contra hu
    have := user_of_walk he (by simpa using hu)
    unfold target at hnone
    rw [hnone] at this
    cases this
  rw [copyout_absent (by omega) he hu] at heq
  refine ⟨-1, t, heq, fun x hx => ?_, fun hall => ?_, fun _ => rfl, ht.nulls⟩
  · rcases ht.stores x hx with h | ⟨i, hi, h⟩
    · cases h
    · exact ⟨i, by omega, h⟩
  · have := hall k hk
    rw [hnone] at this
    cases this

theorem not_copyoutOk {k : Nat} (hva : va < 2 ^ 32) (hk : k < len)
    (hmap : ∀ i < k, (target pgdir.tab va i).isSome)
    (hno : walkpgdir pgdir.tab ((va + k) % 2 ^ 32) = none) :
    ¬ CopyoutOk cur.tab pgdir.tab mem va buf len := by
  rintro ⟨r, t, hrun, -, -, -, hnulls⟩
  obtain ⟨u, -, heq⟩ := copyout_upto cur pgdir buf ⟨mem, [], []⟩ hva (Nat.le_of_lt hk) hmap
    (fun _ => target_of_walk_none hno)
  have := (copyout_null (by omega) hno).of_ok (heq.symm.trans hrun)
  rw [hnulls] at this
  exact absurd this (Nat.not_lt_zero _)

end

/-- For every page table, destination, length, source and memory. -/
theorem copyout_ok_iff {ram : Ram} (cur pgdir : PageTable ram)
    (mem : Nat → UInt8) (va len : UInt32) (buf : Nat → UInt8) :
    CopyoutOk cur.tab pgdir.tab mem va.toNat buf len.toNat ↔
      StopsAtTable pgdir.tab va.toNat len.toNat ∧ Unambiguous pgdir.tab va.toNat buf len.toNat := by
  have hva := va.toNat_lt
  constructor
  · intro hok
    refine ⟨fun k hk hmap => ?_, fun hmap i hi j hj hij => ?_⟩
    · by_contra hno
      exact not_copyoutOk hva hk hmap (by simpa using hno) hok
    · obtain ⟨r, t, -, -, hall, -⟩ := hok
      obtain ⟨-, hbytes⟩ := hall hmap
      obtain ⟨x, hx⟩ := Option.isSome_iff_exists.mp (hmap i hi)
      exact (hbytes i hi x hx).symm.trans (hbytes j hj x (hij.symm.trans hx))
  · rintro ⟨hstop, hone⟩
    by_cases hmap : ∀ i < len.toNat, (target pgdir.tab va.toNat i).isSome
    · exact copyoutOk_of_mapped hva hmap hone
    -- the first byte without an address
    have hex : ∃ k, k < len.toNat ∧ target pgdir.tab va.toNat k = none := by
      by_contra hno
      refine hmap fun i hi => ?_
      by_contra hnone
      exact hno ⟨i, hi, by simpa using hnone⟩
    obtain ⟨hk, hnone⟩ := Nat.find_spec hex
    have hbefore : ∀ i < Nat.find hex, (target pgdir.tab va.toNat i).isSome := by
      intro i hi
      by_contra hi'
      exact Nat.find_min hex hi ⟨by omega, by simpa using hi'⟩
    exact copyoutOk_of_stop hva hk hbefore hnone (hstop _ hk hbefore)

def onePageTab : Tables := fun d =>
  if d = 0 then some fun j => if j = 0 then ⟨16, true, true, true⟩ else ⟨0, false, false, false⟩
  else if 768 ≤ d ∧ d < 1016 then some fun j => ⟨(d - 768) * NPTENTRIES + j, true, true, false⟩
  else none

def smallRam : Ram := ⟨4, 32, by decide⟩

theorem onePageTab_user {va : Nat} {e : Pte} (h : walkpgdir onePageTab va = some e)
    (hu : e.isUser = true) : e.frame = 16 := by
  obtain ⟨t, ht, rfl⟩ := Option.map_eq_some_iff.mp h
  unfold onePageTab at ht
  split at ht
  · obtain rfl := Option.some.inj ht
    by_cases hj : PTX va = 0
    · simp [hj]
    · simp only [hj] at hu
      cases hu
  split at ht
  · obtain rfl := Option.some.inj ht
    cases hu
  · cases ht

def onePage : PageTable smallRam where
  tab := onePageTab
  user := by
    intro va e h hu
    rw [onePageTab_user h hu]
    decide
  kern := by
    intro f hf hf'
    have hdx : PDX (P2V f) = 768 ∧ PTX (P2V f) = f := by
      simp only [PDX, PTX, P2V, PGSIZE, KERNBASE_eq, NPDENTRIES_eq, NPTENTRIES_eq, smallRam] at *
      omega
    rw [walkpgdir, hdx.1, hdx.2]
    show some (⟨(768 - 768) * NPTENTRIES + f, true, true, false⟩ : Pte) = _
    rw [Nat.sub_self, Nat.zero_mul, Nat.zero_add]

/-- The first word of the page, `0x5007`, looks like an entry for frame 5. -/
def onePageMem (x : Nat) : UInt8 :=
  if x = 16 * PGSIZE then 0x07 else if x = 16 * PGSIZE + 1 then 0x50 else 0

/-- A byte for address `0x400000`, which has no page table, is stored in frame 5, where no page is
    mapped for the user, and `copyout` returns 0. -/
theorem copyout_wild : ¬ CopyoutOk onePage.tab onePage.tab onePageMem 0x400000 (fun _ => 0xFF) 1 ∧
    ∃ t,
      copyout onePage.tab onePage.tab 0x400000 (fun _ => 0xFF) 1 ⟨onePageMem, [], []⟩ = .ok (0, t) ∧
      t.mem (5 * PGSIZE) = 0xFF ∧ ∀ va, userAddr onePage.tab va ≠ some (5 * PGSIZE) := by
  refine ⟨not_copyoutOk (by decide) (by decide) (fun _ h => absurd h (Nat.not_lt_zero _)) rfl,
    Machine.stored (5 * PGSIZE + 0) (fun _ => 0xFF) 1 ⟨onePageMem, [], [0x400000]⟩,
      ?_, rfl, fun va h => ?_⟩
  · have hka : uva2ka onePage.tab onePage.tab (PGROUNDDOWN 0x400000) ⟨onePageMem, [], []⟩ =
        .ok (P2V 5, ⟨onePageMem, [], [0x400000]⟩) := rfl
    rw [copyout_eq (by decide), bind_of_ok hka, if_neg (by decide),
      bind_of_ok (memmove_kern onePage (by decide) (by decide) (by decide))]
    exact copyout_zero
  · obtain ⟨e, he, hu, hx⟩ := user_eq_some h
    rw [onePageTab_user he hu] at hx
    simp only [PGSIZE] at *
    omega

end Micro86.Mm
