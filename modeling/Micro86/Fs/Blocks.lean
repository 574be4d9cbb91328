import Micro86.Fs.State

/-!
# The block allocator

`buffer_read`, `log_write`, `bzero`, `balloc` and `bfree` of `fs.c`.

* `Spec` — a specification with resources: the routine adds at most `k` entries to the log
  header and takes at most `r` free blocks, and it panics only for want of these (`Fails`) or of
  an open transaction.
* `balloc_spec`, `bfree_spec` — their effect on the logical file system.
-/

namespace Micro86.Fs

open Exec

/-- The number of header entries below which `log_write` goes on. -/
def SuperBlock.logCap (sb : SuperBlock) : Nat := min LOGSIZE (sb.nlog - 1)

def bufferRead (b : Nat) : FsM Block := fun s => .ok (s.disk b, s)

def logWrite (sb : SuperBlock) (b : Nat) (data : Block) : FsM Unit := fun s =>
  if LOGSIZE ≤ s.lh.length ∨ sb.nlog ≤ s.lh.length + 1 then .error "too big a transaction"
  else if s.outstanding < 1 then .error "log_write outside of trans"
  else .ok ((), s.write b data)

def bzero (sb : SuperBlock) (bno : Nat) : FsM Unit := do
  let _ ← bufferRead bno
  logWrite sb bno ByteBlock.zero

def ballocFind (sb : SuperBlock) (disk : Nat → Block) : Option (Nat × Nat) :=
  (List.range ((sb.size + BPB - 1) / BPB)).findSome? fun k =>
    ((List.range (min BPB (sb.size - k * BPB))).find? fun bi =>
      !(disk (sb.bblock (k * BPB))).bit bi).map fun bi => (k * BPB, bi)

def balloc (sb : SuperBlock) : FsM Nat := do
  let s ← Exec.get
  match ballocFind sb s.disk with
  | some (b, bi) =>
    let bp ← bufferRead (sb.bblock b)
    logWrite sb (sb.bblock b) (bp.setBit bi)
    bzero sb (b + bi)
    pure (b + bi)
  | none => Exec.panic "balloc: out of blocks"

def bfree (sb : SuperBlock) (b : Nat) : FsM Unit := do
  let bp ← bufferRead (sb.bblock b)
  if bp.bit (b % BPB) = false then Exec.panic "freeing free block"
  else logWrite sb (sb.bblock b) (bp.clearBit (b % BPB))

/-! ## Specifications with resources -/

def State.free (sb : SuperBlock) (s : State) : Nat := freeCount sb.size (s.store sb).used

/-- The panics of a routine that needs `k` header entries and `r` free blocks. -/
def Fails (sb : SuperBlock) (s : State) (k r : Nat) (msg : String) : Prop :=
  (msg = "too big a transaction" ∧ sb.logCap < s.lh.length + k) ∨
  (msg = "log_write outside of trans" ∧ s.outstanding = 0) ∨
  (msg = "balloc: out of blocks" ∧ s.free sb < r)

structure Uses (sb : SuperBlock) (s t : State) (k r : Nat) : Prop where
  lh : t.lh.length ≤ s.lh.length + k
  free : s.free sb ≤ t.free sb + r
  outstanding : t.outstanding = s.outstanding

def Spec (sb : SuperBlock) {α : Type} (x : FsM α) (s : State)
    (k r : Nat) (Q : α → State → Prop) : Prop :=
  wp x (fun a t => Uses sb s t k r ∧ Q a t) (Fails sb s k r) s

section Rules

variable {sb : SuperBlock} {α β : Type} {x : FsM α} {f : α → FsM β} {s t u : State} {k l r q : Nat}
variable {Q : β → State → Prop}

theorem Uses.trans (h : Uses sb s t k r) (h' : Uses sb t u l q) : Uses sb s u (k + l) (r + q) := by
  obtain ⟨h1, h2, h3⟩ := h
  obtain ⟨h4, h5, h6⟩ := h'
  exact ⟨by omega, by omega, h6.trans h3⟩

theorem Uses.fails (h : Uses sb s t k r) {msg : String} (hf : Fails sb t l q msg) :
    Fails sb s (k + l) (r + q) msg := by
  obtain ⟨h1, h2, h3⟩ := h
  rcases hf with ⟨hm, hf⟩ | ⟨hm, hf⟩ | ⟨hm, hf⟩
  · exact .inl ⟨hm, by omega⟩
  · exact .inr (.inl ⟨hm, by omega⟩)
  · exact .inr (.inr ⟨hm, by omega⟩)

theorem Fails.mono {msg : String} (h : Fails sb s k r msg) (hk : k ≤ l) (hr : r ≤ q) :
    Fails sb s l q msg := by
  rcases h with ⟨hm, hf⟩ | h | ⟨hm, hf⟩
  · exact .inl ⟨hm, by omega⟩
  · exact .inr (.inl h)
  · exact .inr (.inr ⟨hm, by omega⟩)

theorem Spec.mono {Q Q' : α → State → Prop} (h : Spec sb x s k r Q) (hQ : ∀ a t, Q a t → Q' a t)
    (hk : k ≤ l := by omega) (hr : r ≤ q := by omega) : Spec sb x s l q Q' := by
  refine wp.mono h ?_ fun msg hf => hf.mono hk hr
  rintro a t ⟨⟨h1, h2, h3⟩, hq⟩
  exact ⟨⟨by omega, by omega, h3⟩, hQ a t hq⟩

theorem Spec.pure {Q : α → State → Prop} {a : α} (h : Q a s) : Spec sb (Pure.pure a) s k r Q :=
  ⟨⟨Nat.le_add_right _ _, Nat.le_add_right _ _, rfl⟩, h⟩

theorem Spec.bind {R : α → State → Prop} (hx : Spec sb x s k r R)
    (hf : ∀ a t, R a t → Spec sb (f a) t (l - k) (q - r) Q) (hk : k ≤ l := by omega)
    (hr : r ≤ q := by omega) :
    Spec sb (x >>= f) s l q Q := by
  refine wp.bind hx (fun msg h => h.mono hk hr) ?_
  rintro a t ⟨hu, ha⟩
  rw [← Nat.add_sub_of_le hk, ← Nat.add_sub_of_le hr]
  refine wp.mono (hf a t ha) ?_ fun msg => hu.fails
  rintro b v ⟨hv, hq⟩
  exact ⟨hu.trans hv, hq⟩

theorem Spec.read {b : Nat} {f : Block → FsM β} (h : Spec sb (f (s.disk b)) s k r Q) :
    Spec sb (bufferRead b >>= f) s k r Q := h

theorem Spec.forUpTo {n : Nat} {body : Nat → FsM Unit} {I : Nat → State → Prop} (h0 : I 0 s)
    (hstep : ∀ i, i < n → ∀ t, I i t → Spec sb (body i) t k r fun _ u => I (i + 1) u) :
    Spec sb (forUpTo n body) s (n * k) (n * r) fun _ u => I n u := by
  induction n with
  | zero =>
    rw [Nat.zero_mul, Nat.zero_mul, forUpTo_zero]
    exact Spec.pure h0
  | succ n ih =>
    rw [Nat.succ_mul, Nat.succ_mul, forUpTo_succ]
    refine Spec.bind (ih fun i hi => hstep i (by omega)) fun _ t ht => ?_
    exact (hstep n (by omega) t ht).mono fun _ _ => id

theorem Spec.modify {g : State → State} {f : Unit → FsM β} (hlh : (g s).lh = s.lh)
    (hout : (g s).outstanding = s.outstanding) (hfree : (g s).free sb = s.free sb)
    (h : Spec sb (f ()) (g s) k r Q) : Spec sb (Exec.modify g >>= f) s k r Q := by
  refine wp.mono h ?_ fun msg hm => ?_
  · rintro a t ⟨⟨h1, h2, h3⟩, hq⟩
    rw [hlh] at h1
    rw [hfree] at h2
    exact ⟨⟨h1, h2, h3.trans hout⟩, hq⟩
  · unfold Fails at hm ⊢
    rwa [hlh, hout, hfree] at hm

theorem Spec.get {f : State → FsM β} (h : Spec sb (f s) s k r Q) :
    Spec sb (Exec.get >>= f) s k r Q := h

end Rules

/-! ## The allocator -/

section Allocator

variable {sb : SuperBlock} {s : State}

theorem length_write_lh_le (s : State) (b : Nat) (data : Block) :
    (s.write b data).lh.length ≤ s.lh.length + 1 := by
  show (Log.absorb s.lh b).length ≤ _
  unfold Log.absorb
  split
  · omega
  · simp

theorem logWrite_spec {b : Nat} {data : Block} {r : Nat}
    (hfree : s.free sb ≤ (s.write b data).free sb + r) :
    Spec sb (logWrite sb b data) s 1 r fun _ t => t = s.write b data := by
  unfold Spec wp logWrite
  split
  · rename_i a t h
    split at h
    · cases h
    split at h
    · cases h
    · cases h
      exact ⟨⟨length_write_lh_le s b data, hfree, rfl⟩, rfl⟩
  rename_i msg h
  split at h
  · cases h
    refine .inl ⟨rfl, ?_⟩
    unfold SuperBlock.logCap
    omega
  split at h
  · cases h
    exact .inr (.inl ⟨rfl, by omega⟩)
  · cases h

theorem ballocFind_some {b bi : Nat} (h : ballocFind sb s.disk = some (b, bi)) :
    bi < BPB ∧ b % BPB = 0 ∧ b + bi < sb.size ∧ (s.disk (sb.bblock b)).bit bi = false := by
  obtain ⟨k, hk, hsome⟩ := List.exists_of_findSome?_eq_some h
  obtain ⟨bi', hfind, heq⟩ := Option.map_eq_some_iff.mp hsome
  obtain ⟨rfl, rfl⟩ := Prod.mk.inj heq
  have hmem := List.mem_range.mp (List.mem_of_find?_eq_some hfind)
  have hbit := List.find?_some hfind
  refine ⟨by omega, Nat.mul_mod_left _ _, by omega, by simpa using hbit⟩

theorem ballocFind_none (h : ballocFind sb s.disk = none) {b : Nat} (hb : b < sb.size) :
    (s.store sb).used b = true := by
  have hk := List.findSome?_eq_none_iff.mp h (b / BPB)
    (List.mem_range.mpr (by rw [BPB_eq]; omega))
  rw [Option.map_eq_none_iff, List.find?_eq_none] at hk
  have hbit := hk (b % BPB) (List.mem_range.mpr (by rw [BPB_eq]; omega))
  have hblock : sb.bblock (b / BPB * BPB) = sb.bblock b := by
    unfold SuperBlock.bblock
    rw [BPB_eq]
    omega
  rw [hblock] at hbit
  show (if _ then _ else _) = true
  rw [if_pos hb]
  simpa using hbit

/-- **`balloc`**: the block was free and is a data block; it is now marked and zero. -/
theorem balloc_spec (hmeta : ∀ b, b < sb.nmeta → (s.store sb).used b = true) :
    Spec sb (balloc sb) s 2 1 fun b t => Fresh sb (s.store sb) b ∧
      t.store sb = ((s.store sb).setUsed b true).setBlk b ByteBlock.zero ∧ SameInodes sb s t := by
  unfold balloc
  refine Spec.get ?_
  split
  · rename_i b bi hfind
    obtain ⟨hbi, hb, hsize, hbit⟩ := ballocFind_some hfind
    have hmod : (b + bi) % BPB = bi := by rw [BPB_eq] at *; omega
    have hblock : sb.bblock b = sb.bblock (b + bi) := by
      unfold SuperBlock.bblock
      rw [BPB_eq] at *
      omega
    have hused : (s.store sb).used (b + bi) = false := by
      show (if _ then _ else _) = false
      rw [if_pos hsize, ← hblock, hmod, hbit]
    have hdata : sb.nmeta ≤ b + bi := by
      refine Nat.le_of_not_lt fun hlt => ?_
      rw [hmeta _ hlt] at hused
      cases hused
    have hset : ∀ j, ((s.disk (sb.bblock b)).setBit bi).bit j =
        if j = (b + bi) % BPB then true else (s.disk (sb.bblock (b + bi))).bit j := by
      intro j
      rw [ByteBlock.bit_setBit _ (by rw [BPB_eq] at hbi; rw [BSIZE_eq]; omega), hmod, ← hblock]
      by_cases hj : j = bi <;> simp
    rw [hblock] at hset ⊢
    generalize hbp : (s.disk (sb.bblock (b + bi))).setBit bi = bp at hset
    have hs1 := store_write_bitmap hsize hset
    have hfree : s.free sb ≤ (s.write (sb.bblock (b + bi)) bp).free sb + 1 := by
      unfold State.free
      rw [hs1]
      exact Nat.le_of_eq (freeCount_alloc hused hsize).symm
    refine Spec.read ?_
    rw [hbp]
    refine Spec.bind (logWrite_spec hfree) ?_
    rintro _ t rfl
    have hs2 := store_write_data (s := s.write (sb.bblock (b + bi)) bp) ByteBlock.zero hdata
    rw [hs1] at hs2
    refine Spec.bind (Spec.read (logWrite_spec (r := 0) ?_)) ?_
    · unfold State.free
      rw [hs2, hs1]
      exact le_rfl
    · rintro _ t rfl
      refine Spec.pure ⟨⟨hdata, hsize, hused⟩, hs2, ?_⟩
      exact (sameInodes_write _ (sb.bblock_ge _)).trans
        (sameInodes_write _ (sb.bmapstart_le_nmeta.trans hdata))
  · rename_i hnone
    refine .inr (.inr ⟨rfl, ?_⟩)
    have hall : s.free sb = 0 := by
      unfold State.free freeCount
      rw [Finset.card_eq_zero, Finset.filter_eq_empty_iff]
      intro b hb
      rw [ballocFind_none hnone (Finset.mem_range.mp hb)]
      decide
    omega

theorem bfree_spec {b : Nat} (hb : b < sb.size) (hused : (s.store sb).used b = true) :
    Spec sb (bfree sb b) s 1 0 fun _ t =>
      t.store sb = (s.store sb).setUsed b false ∧ SameInodes sb s t := by
  have hbit : (s.disk (sb.bblock b)).bit (b % BPB) = true := by
    have h : (if b < sb.size then (s.disk (sb.bblock b)).bit (b % BPB) else true) = true := hused
    rwa [if_pos hb] at h
  have hclear : ∀ j, ((s.disk (sb.bblock b)).clearBit (b % BPB)).bit j =
      if j = b % BPB then false else (s.disk (sb.bblock b)).bit j := by
    intro j
    have : b % BPB / 8 < BSIZE := by rw [BPB_eq, BSIZE_eq]; omega
    rw [ByteBlock.bit_clearBit _ this]
    by_cases hj : j = b % BPB <;> simp
  have hs := store_write_bitmap hb hclear
  unfold bfree
  refine Spec.read ?_
  rw [if_neg (by rw [hbit]; decide)]
  refine (logWrite_spec (r := 0) ?_).mono ?_
  · unfold State.free
    rw [hs]
    refine freeCount_mono fun c _ hc => ?_
    by_cases hcb : c = b
    · rw [hcb, hused]
    · simpa [hcb] using hc
  · rintro _ t rfl
    exact ⟨hs, sameInodes_write _ (sb.bblock_ge b)⟩

end Allocator

end Micro86.Fs
