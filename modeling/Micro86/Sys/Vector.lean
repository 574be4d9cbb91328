import Micro86.Sys.Args

/-!
# Vector input and output

`sys_readv` and `sys_writev` check that the iovec array lies below the size of the process, with the
number of its bytes taken modulo 2^32, and never look at the buffers the array names.

* `sysReadv`, `sysWritev` — the calls, for any `file_read` and `file_write` and any user memory.
* `vector_ok_iff` — the calls are confined exactly when the array and the buffers they reach are.
-/

namespace Micro86.Sys

open Exec

/-- Memory and files, with a record of what a call has read and passed on, last first. -/
structure Io (σ : Type) where
  st : σ
  /-- Addresses of the words read from the iovec array. -/
  loads : List UInt32
  /-- Buffers passed to `file_read` or `file_write`. -/
  calls : List (UInt32 × Int32)

section

variable {σ φ : Type}

-- size of the process, its open files, and the words of its memory as the kernel reads them
variable (sz : UInt32) (ofile : Nat → Option φ) (load : σ → UInt32 → Except String UInt32)

-- `file_read` or `file_write`
variable (op : φ → UInt32 → Int32 → Exec σ Int32)

def iovec (vec i : UInt32) : Exec (Io σ) (UInt32 × UInt32) := fun s =>
  match load s.st (vec + 4 * (i * 2)), load s.st (vec + 4 * (i * 2 + 1)) with
  | .ok p, .ok n =>
      .ok ((p, n), { s with loads := (vec + 4 * (i * 2 + 1)) :: (vec + 4 * (i * 2)) :: s.loads })
  | .error msg, _ => .error msg
  | .ok _, .error msg => .error msg

def fileOp (f : φ) (p : UInt32) (n : Int32) : Exec (Io σ) Int32 := fun s =>
  match op f p n s.st with
  | .ok (r, st) => .ok (r, { s with st := st, calls := (p, n) :: s.calls })
  | .error msg => .error msg

/-- `sys_read` is this with `file_read`, `sys_write` with `file_write`. -/
def sysScalar (regs : Regs) : Exec (Io σ) Int32 :=
  match argfd ofile regs 0 with
  | none => pure (-EINVAL)
  | some f =>
    match argint regs 2 with
    | none => pure (-EINVAL)
    | some n =>
      match argptr sz regs 1 n.toInt32 with
      | none => pure (-EINVAL)
      | some p => fileOp op f p n.toInt32

/-- The loop of `sys_readv` and `sys_writev` with `k` segments to go; only the first stops at a
    short result. -/
def vecLoop (short : Bool) (f : φ) (vec : UInt32) : Nat → UInt32 → Int32 → Exec (Io σ) Int32
  | 0, _, total => pure total
  | k + 1, i, total => do
    let q ← iovec load vec i
    let r ← fileOp op f q.1 q.2.toInt32
    if r < 0 then pure (- EIO)
    else if short = true ∧ r < q.2.toInt32 then pure (total + r)
    else vecLoop short f vec k (i + 1) (total + r)

/-- `sys_readv` is this with `file_read` and `short`, `sys_writev` with `file_write` and without. -/
def sysVector (short : Bool) (regs : Regs) : Exec (Io σ) Int32 :=
  match argfd ofile regs 0 with
  | none => pure (-EINVAL)
  | some f =>
    match argint regs 2 with
    | none => pure (-EINVAL)
    | some count =>
      match argptr sz regs 1 (count * 4 * 2).toInt32 with
      | none => pure (-EINVAL)
      | some vec => vecLoop load op short f vec count.toInt32.toInt.toNat 0 0

/-! The scalar calls on the segments, one after the other.  An iovec that is not below the size and
a buffer that is not inside are errors; `argptr` itself would accept a buffer that wraps. -/

def segment (regs : Regs) (p n : UInt32) : Exec (Io σ) Int32 :=
  if Inside sz p n.toInt32 then sysScalar sz ofile op { regs with ecx := p, edx := n }
    else pure (-EINVAL)

def vecSpec (short : Bool) (regs : Regs) (vec : UInt32) : Nat → UInt32 → Int32 → Exec (Io σ) Int32
  | 0, _, total => pure total
  | k + 1, i, total =>
    if (vec + 4 * (i * 2)).toNat + 8 ≤ sz.toNat then do
      let q ← iovec load vec i
      let r ← segment sz ofile op regs q.1 q.2
      if r < 0 then pure (- EIO)
      else if short = true ∧ r < q.2.toInt32 then pure (total + r)
      else vecSpec short regs vec k (i + 1) (total + r)
    else pure (-EINVAL)

def vectorSpec (short : Bool) (regs : Regs) : Exec (Io σ) Int32 :=
  match argfd ofile regs 0 with
  | none => pure (-EINVAL)
  | some _ =>
    match argint regs 2 with
    | none => pure (-EINVAL)
    | some count =>
      match argptr sz regs 1 (count * 4 * 2).toInt32 with
      | none => pure (-EINVAL)
      | some vec => vecSpec sz ofile load op short regs vec count.toInt32.toInt.toNat 0 0

end

section

variable {σ φ : Type} (sz : UInt32) (ofile : Nat → Option φ)
  (load : σ → UInt32 → Except String UInt32)
  (fileRead fileWrite : φ → UInt32 → Int32 → Exec σ Int32)

def sysRead (regs : Regs) : Exec (Io σ) Int32 := sysScalar sz ofile fileRead regs

def sysWrite (regs : Regs) : Exec (Io σ) Int32 := sysScalar sz ofile fileWrite regs

def sysReadv (regs : Regs) : Exec (Io σ) Int32 := sysVector sz ofile load fileRead true regs

def sysWritev (regs : Regs) : Exec (Io σ) Int32 := sysVector sz ofile load fileWrite false regs

/-- `sys_read` on one segment after the other, up to the first error or short read. -/
def readvSpec (regs : Regs) : Exec (Io σ) Int32 := vectorSpec sz ofile load fileRead true regs

def writevSpec (regs : Regs) : Exec (Io σ) Int32 := vectorSpec sz ofile load fileWrite false regs

end

/-- The words read from the array lie below `sz`, and the buffers passed on lie inside `[0, sz)`. -/
structure Confined {σ : Type} (sz : UInt32) (s : Io σ) : Prop where
  loads : ∀ a ∈ s.loads, a.toNat + 4 ≤ sz.toNat
  calls : ∀ q ∈ s.calls, Inside sz q.1 q.2

/-- The call behaves as the confined sequence of scalar calls, and is confined itself. -/
def ConfinedAs {σ : Type} (sz : UInt32) (call spec : Exec (Io σ) Int32) (st : σ) : Prop :=
  call ⟨st, [], []⟩ = spec ⟨st, [], []⟩ ∧
    wp call (fun _ t => Confined sz t) (fun _ => True) ⟨st, [], []⟩

section

variable {σ φ : Type} (sz : UInt32) (ofile : Nat → Option φ)
  (load : σ → UInt32 → Except String UInt32) (op : φ → UInt32 → Int32 → Exec σ Int32)

/-- Every iovec the loop reaches lies below `sz`, and the buffer it names inside. -/
def ReachesInside (short : Bool) (f : φ) (vec : UInt32) : Nat → UInt32 → σ → Prop
  | 0, _, _ => True
  | k + 1, i, st =>
    (vec + 4 * (i * 2)).toNat + 8 ≤ sz.toNat ∧
      ∀ p n, load st (vec + 4 * (i * 2)) = .ok p → load st (vec + 4 * (i * 2 + 1)) = .ok n →
        Inside sz p n.toInt32 ∧
          ∀ r st', op f p n.toInt32 st = .ok (r, st') → ¬ r < 0 → ¬ (short = true ∧ r < n.toInt32) →
            ReachesInside short f vec k (i + 1) st'

/-- If the arguments are accepted. -/
def SegmentsInside (short : Bool) (regs : Regs) (st : σ) : Prop :=
  ∀ f count vec, argfd ofile regs 0 = some f → argint regs 2 = some count →
    argptr sz regs 1 (count * 4 * 2).toInt32 = some vec →
    ReachesInside sz load op short f vec count.toInt32.toInt.toNat 0 st

end

/-! ## One segment -/

section

variable {σ φ : Type} {sz : UInt32} {ofile : Nat → Option φ}
  {load : σ → UInt32 → Except String UInt32}
  {op : φ → UInt32 → Int32 → Exec σ Int32} {short : Bool} {regs : Regs}
  {f : φ} {vec i a p n : UInt32} {k : Nat}
  {total r : Int32} {s : Io σ} {st : σ}

def Io.read (s : Io σ) (vec i : UInt32) : Io σ :=
  { s with loads := (vec + 4 * (i * 2 + 1)) :: (vec + 4 * (i * 2)) :: s.loads }

def Io.passed (s : Io σ) (p n : UInt32) (st : σ) : Io σ :=
  { s with st := st, calls := (p, n.toInt32) :: s.calls }

theorem iovec_ok (hp : load s.st (vec + 4 * (i * 2)) = .ok p)
    (hn : load s.st (vec + 4 * (i * 2 + 1)) = .ok n) :
    iovec load vec i s = .ok ((p, n), s.read vec i) := by
  simp only [iovec, hp, hn]
  rfl

theorem iovec_cases (load : σ → UInt32 → Except String UInt32) (vec i : UInt32) (s : Io σ) :
    (∃ p n, load s.st (vec + 4 * (i * 2)) = .ok p ∧ load s.st (vec + 4 * (i * 2 + 1)) = .ok n) ∨
    ∃ msg, iovec load vec i s = .error msg := by
  cases hp : load s.st (vec + 4 * (i * 2)) with
  | error msg => exact .inr ⟨msg, by simp [iovec, hp]⟩
  | ok p =>
    cases hn : load s.st (vec + 4 * (i * 2 + 1)) with
    | error msg => exact .inr ⟨msg, by simp [iovec, hp, hn]⟩
    | ok n => exact .inl ⟨p, n, rfl, rfl⟩

theorem fileOp_ok (h : op f p n.toInt32 s.st = .ok (r, st)) :
    fileOp op f p n.toInt32 s = .ok (r, s.passed p n st) := by
  unfold fileOp
  rw [h]
  rfl

theorem fileOp_error {msg : String} (h : op f p n.toInt32 s.st = .error msg) :
    fileOp op f p n.toInt32 s = .error msg := by
  unfold fileOp
  rw [h]

theorem segment_inside (hf : argfd ofile regs 0 = some f) (h : Inside sz p n.toInt32) :
    segment sz ofile op regs p n = fileOp op f p n.toInt32 := by
  have hfd : argfd ofile { regs with ecx := p, edx := n } 0 = some f := hf
  have hptr : argptr sz { regs with ecx := p, edx := n } 1 n.toInt32 = some p :=
    argptr_of_inside rfl h
  unfold segment sysScalar
  rw [if_pos h, hfd]
  simp [argint, hptr]

/-! ## The loop -/

/-- What the loop does after `file_read` or `file_write` returned `r`. -/
def onwards (short : Bool) (n r total : Int32) (rest : Exec (Io σ) Int32) : Exec (Io σ) Int32 :=
  if r < 0 then pure (- EIO) else if short = true ∧ r < n then pure (total + r) else rest

theorem vecLoop_step (hp : load s.st (vec + 4 * (i * 2)) = .ok p)
    (hn : load s.st (vec + 4 * (i * 2 + 1)) = .ok n) (hr : op f p n.toInt32 s.st = .ok (r, st)) :
    vecLoop load op short f vec (k + 1) i total s =
      onwards short n.toInt32 r total (vecLoop load op short f vec k (i + 1) (total + r))
        ((s.read vec i).passed p n st) := by
  rw [vecLoop, bind_of_ok (iovec_ok hp hn), bind_of_ok (fileOp_ok (s := s.read vec i) hr)]
  rfl

theorem vecSpec_step (hf : argfd ofile regs 0 = some f)
    (hvec : (vec + 4 * (i * 2)).toNat + 8 ≤ sz.toNat)
    (hp : load s.st (vec + 4 * (i * 2)) = .ok p) (hn : load s.st (vec + 4 * (i * 2 + 1)) = .ok n)
    (hin : Inside sz p n.toInt32) (hr : op f p n.toInt32 s.st = .ok (r, st)) :
    vecSpec sz ofile load op short regs vec (k + 1) i total s =
      onwards short n.toInt32 r total
        (vecSpec sz ofile load op short regs vec k (i + 1) (total + r))
        ((s.read vec i).passed p n st) := by
  rw [vecSpec, if_pos hvec, bind_of_ok (iovec_ok hp hn), segment_inside hf hin,
    bind_of_ok (fileOp_ok (s := s.read vec i) hr)]
  rfl

theorem wp_onwards {m : Int32} {rest : Exec (Io σ) Int32} {Q : Io σ → Prop} (hs : Q s)
    (hrest : ¬ r < 0 → ¬ (short = true ∧ r < m) → wp rest (fun _ t => Q t) (fun _ => True) s) :
    wp (onwards short m r total rest) (fun _ t => Q t) (fun _ => True) s := by
  unfold onwards
  by_cases hneg : r < 0
  · rw [if_pos hneg]
    exact hs
  rw [if_neg hneg]
  by_cases hshort : short = true ∧ r < m
  · rw [if_pos hshort]
    exact hs
  · rw [if_neg hshort]
    exact hrest hneg hshort

theorem wp_vecLoop {Q : Io σ → Prop}
    (h : ∀ p n r st, load s.st (vec + 4 * (i * 2)) = .ok p →
      load s.st (vec + 4 * (i * 2 + 1)) = .ok n →
      wp (onwards short n.toInt32 r total (vecLoop load op short f vec k (i + 1) (total + r)))
        (fun _ t => Q t) (fun _ => True) ((s.read vec i).passed p n st)) :
    wp (vecLoop load op short f vec (k + 1) i total) (fun _ t => Q t) (fun _ => True) s := by
  unfold wp
  rcases iovec_cases load vec i s with ⟨p, n, hp, hn⟩ | ⟨msg, herr⟩
  · cases hr : op f p n.toInt32 s.st with
    | error msg =>
      rw [vecLoop, bind_of_ok (iovec_ok hp hn), bind_of_error (fileOp_error (s := s.read vec i) hr)]
      trivial
    | ok q =>
      rw [vecLoop_step hp hn hr]
      exact h p n q.1 q.2 hp hn
  · rw [vecLoop, bind_of_error herr]
    trivial

theorem vecLoop_record : wp (vecLoop load op short f vec k i total)
    (fun _ t => s.loads <:+ t.loads ∧ s.calls <:+ t.calls) (fun _ => True) s := by
  induction k generalizing i total s with
  | zero => exact ⟨List.suffix_refl _, List.suffix_refl _⟩
  | succ k ih =>
    refine wp_vecLoop fun p n r st _ _ => ?_
    have hloads : s.loads <:+ ((s.read vec i).passed p n st).loads :=
      (List.suffix_cons _ _).trans (List.suffix_cons _ _)
    have hcalls : s.calls <:+ ((s.read vec i).passed p n st).calls := List.suffix_cons _ _
    refine wp_onwards ⟨hloads, hcalls⟩ fun _ _ => ?_
    exact ih.imp fun _ t ht => ⟨hloads.trans ht.1, hcalls.trans ht.2⟩

theorem vecLoop_first : wp (vecLoop load op short f vec (k + 1) i total)
    (fun _ t => ∃ p n, load s.st (vec + 4 * (i * 2)) = .ok p ∧
      load s.st (vec + 4 * (i * 2 + 1)) = .ok n ∧
      vec + 4 * (i * 2) ∈ t.loads ∧ vec + 4 * (i * 2 + 1) ∈ t.loads ∧
        (p, n.toInt32) ∈ t.calls) (fun _ => True) s := by
  refine wp_vecLoop fun p n r st hp hn => ?_
  refine (wp_onwards (Q := fun t => ((s.read vec i).passed p n st).loads <:+ t.loads ∧
    ((s.read vec i).passed p n st).calls <:+ t.calls)
    ⟨List.suffix_refl _, List.suffix_refl _⟩ fun _ _ => vecLoop_record).imp fun _ t ht =>
      ⟨p, n, hp, hn, ?_⟩
  exact ⟨ht.1.subset (.tail _ List.mem_cons_self), ht.1.subset List.mem_cons_self,
    ht.2.subset List.mem_cons_self⟩

theorem iovec_below {b : UInt32} (h0 : b.toNat + 4 ≤ sz.toNat) (h1 : (b + 4).toNat + 4 ≤ sz.toNat) :
    b.toNat + 8 ≤ sz.toNat := by
  have := sz.toNat_lt
  have h4 : (4 : UInt32).toNat = 4 := rfl
  rw [UInt32.toNat_add, h4, Nat.mod_eq_of_lt (by omega)] at h1
  omega

theorem iovec_second : vec + 4 * (i * 2 + 1) = vec + 4 * (i * 2) + 4 := by
  rw [UInt32.mul_add, UInt32.mul_one, UInt32.add_assoc]

theorem first_inside {t : Io σ} {v : Int32}
    (h : vecLoop load op short f vec (k + 1) i total s = .ok (v, t)) (ht : Confined sz t) :
    (vec + 4 * (i * 2)).toNat + 8 ≤ sz.toNat ∧ ∀ p n, load s.st (vec + 4 * (i * 2)) = .ok p →
      load s.st (vec + 4 * (i * 2 + 1)) = .ok n → Inside sz p n.toInt32 := by
  obtain ⟨p, n, hp, hn, h0, h1, hc⟩ := vecLoop_first.of_ok h
  refine ⟨iovec_below (ht.loads _ h0) (iovec_second ▸ ht.loads _ h1), fun p' n' hp' hn' => ?_⟩
  rw [hp] at hp'
  rw [hn] at hn'
  cases hp'
  cases hn'
  exact ht.calls _ hc

theorem Confined.passed (hs : Confined sz s) (hvec : (vec + 4 * (i * 2)).toNat + 8 ≤ sz.toNat)
    (hin : Inside sz p n.toInt32) : Confined sz ((s.read vec i).passed p n st) := by
  have := sz.toNat_lt
  refine ⟨fun b hb => ?_, fun q hq => ?_⟩
  · rcases List.mem_cons.mp hb with rfl | hb
    · have h4 : (4 : UInt32).toNat = 4 := rfl
      rw [iovec_second, UInt32.toNat_add, h4, Nat.mod_eq_of_lt (by omega)]
      omega
    rcases List.mem_cons.mp hb with rfl | hb
    · omega
    · exact hs.loads b hb
  · rcases List.mem_cons.mp hq with rfl | hq
    · exact hin
    · exact hs.calls q hq

/-- The loop and the sequence of scalar calls agree, and the loop is confined. -/
def LoopOk (sz : UInt32) (ofile : Nat → Option φ) (load : σ → UInt32 → Except String UInt32)
    (op : φ → UInt32 → Int32 → Exec σ Int32)
    (short : Bool) (regs : Regs) (f : φ) (vec : UInt32) (k : Nat)
    (i : UInt32) (total : Int32) (s : Io σ) : Prop :=
  vecLoop load op short f vec k i total s = vecSpec sz ofile load op short regs vec k i total s ∧
    wp (vecLoop load op short f vec k i total) (fun _ t => Confined sz t) (fun _ => True) s

theorem reachesInside_of_loopOk (hf : argfd ofile regs 0 = some f) (hs : Confined sz s)
    (h : LoopOk sz ofile load op short regs f vec k i total s) :
    ReachesInside sz load op short f vec k i s.st := by
  induction k generalizing i total s with
  | zero => trivial
  | succ k ih =>
    obtain ⟨heq, hconf⟩ := h
    by_cases hvec : (vec + 4 * (i * 2)).toNat + 8 ≤ sz.toNat
    · refine ⟨hvec, fun p n hp hn => ?_⟩
      by_cases hin : Inside sz p n.toInt32
      · refine ⟨hin, fun r st' hr hneg hshort => ?_⟩
        -- the rest of the loop
        rw [vecLoop_step hp hn hr, vecSpec_step hf hvec hp hn hin hr,
          onwards, onwards, if_neg hneg, if_neg hshort, if_neg hneg, if_neg hshort] at heq
        refine ih (hs.passed hvec hin) ⟨heq, ?_⟩
        unfold wp at hconf ⊢
        rwa [vecLoop_step hp hn hr, onwards, if_neg hneg, if_neg hshort] at hconf
      -- the scalar call refuses the buffer
      have hspec : vecSpec sz ofile load op short regs vec (k + 1) i total s =
          .ok (- EIO, s.read vec i) := by
        rw [vecSpec, if_pos hvec, bind_of_ok (iovec_ok hp hn), segment, if_neg hin]
        rfl
      have hrun := heq.trans hspec
      exact absurd ((first_inside hrun (hconf.of_ok hrun)).2 p n hp hn) hin
    · have hspec :
          vecSpec sz ofile load op short regs vec (k + 1) i total s = .ok (-EINVAL, s) := by
        rw [vecSpec, if_neg hvec]
        rfl
      have hrun := heq.trans hspec
      exact absurd (first_inside hrun (hconf.of_ok hrun)).1 hvec

theorem loopOk_of_reachesInside (total : Int32) (hf : argfd ofile regs 0 = some f)
    (hs : Confined sz s)
    (h : ReachesInside sz load op short f vec k i s.st) :
    LoopOk sz ofile load op short regs f vec k i total s := by
  induction k generalizing i total s with
  | zero => exact ⟨rfl, hs⟩
  | succ k ih =>
    obtain ⟨hvec, hseg⟩ := h
    rcases iovec_cases load vec i s with ⟨p, n, hp, hn⟩ | ⟨msg, herr⟩
    · obtain ⟨hin, hrest⟩ := hseg p n hp hn
      cases hr : op f p n.toInt32 s.st with
      | error msg =>
        have hloop : vecLoop load op short f vec (k + 1) i total s = .error msg := by
          rw [vecLoop, bind_of_ok (iovec_ok hp hn),
            bind_of_error (fileOp_error (s := s.read vec i) hr)]
        refine ⟨hloop.trans ?_, ?_⟩
        · rw [vecSpec, if_pos hvec, bind_of_ok (iovec_ok hp hn), segment_inside hf hin,
            bind_of_error (fileOp_error (s := s.read vec i) hr)]
        · unfold wp
          rw [hloop]
          trivial
      | ok q =>
        have hs' : Confined sz ((s.read vec i).passed p n q.2) := hs.passed hvec hin
        have hnext := fun hneg hshort => ih (total + q.1) hs' (hrest q.1 q.2 hr hneg hshort)
        unfold LoopOk wp
        rw [vecLoop_step hp hn hr, vecSpec_step hf hvec hp hn hin hr]
        refine ⟨?_, wp_onwards hs' fun hneg hshort => (hnext hneg hshort).2⟩
        unfold onwards
        by_cases hneg : q.1 < 0
        · rw [if_pos hneg, if_pos hneg]
        by_cases hshort : short = true ∧ q.1 < n.toInt32
        · rw [if_neg hneg, if_pos hshort, if_neg hneg, if_pos hshort]
        · rw [if_neg hneg, if_neg hshort, if_neg hneg, if_neg hshort]
          exact (hnext hneg hshort).1
    · have hloop : vecLoop load op short f vec (k + 1) i total s = .error msg := by
        rw [vecLoop, bind_of_error herr]
      refine ⟨hloop.trans ?_, ?_⟩
      · rw [vecSpec, if_pos hvec, bind_of_error herr]
      · unfold wp
        rw [hloop]
        trivial

theorem sysVector_confined_iff {st : σ} :
    ConfinedAs sz (sysVector sz ofile load op short regs)
      (vectorSpec sz ofile load op short regs) st ↔
      SegmentsInside sz ofile load op short regs st := by
  have hs : Confined sz (⟨st, [], []⟩ : Io σ) := ⟨fun _ h => (nomatch h), fun _ h => (nomatch h)⟩
  cases hf : argfd ofile regs 0 with
  | none =>
    refine ⟨fun _ f count vec hf' => (nomatch hf.symm.trans hf'), fun _ => ?_⟩
    unfold ConfinedAs sysVector vectorSpec
    simp only [hf, true_and]
    exact hs
  | some f =>
    cases hc : argint regs 2 with
    | none => cases hc
    | some count =>
      cases hv : argptr sz regs 1 (count * 4 * 2).toInt32 with
      | none =>
        refine ⟨fun _ f' count' vec hf' hc' hv' => ?_, fun _ => ?_⟩
        · rw [hc] at hc'
          cases hc'
          exact nomatch hv.symm.trans hv'
        · unfold ConfinedAs sysVector vectorSpec
          simp only [hf, hc, hv, true_and]
          exact hs
      | some vec =>
        have hloop : ConfinedAs sz (sysVector sz ofile load op short regs)
            (vectorSpec sz ofile load op short regs) st ↔
            LoopOk sz ofile load op short regs f vec count.toInt32.toInt.toNat
              0 0 ⟨st, [], []⟩ := by
          unfold ConfinedAs LoopOk sysVector vectorSpec
          simp only [hf, hc, hv]
        rw [hloop]
        refine ⟨fun h f' count' vec' hf' hc' hv' => ?_,
          fun h => loopOk_of_reachesInside 0 hf hs (h f count vec hf hc hv)⟩
        rw [hf] at hf'
        rw [hc] at hc'
        cases hf'
        cases hc'
        rw [hv] at hv'
        cases hv'
        exact reachesInside_of_loopOk hf hs h

end

/-- For every process size, open files, registers and user memory, and whatever `file_read` and
    `file_write` do. -/
theorem vector_confined_iff {σ φ : Type} (sz : UInt32) (ofile : Nat → Option φ)
    (load : σ → UInt32 → Except String UInt32)
    (fileRead fileWrite : φ → UInt32 → Int32 → Exec σ Int32) (regs : Regs) (st : σ) :
    (ConfinedAs sz (sysReadv sz ofile load fileRead regs)
      (readvSpec sz ofile load fileRead regs) st ↔
      SegmentsInside sz ofile load fileRead true regs st) ∧
    (ConfinedAs sz (sysWritev sz ofile load fileWrite regs)
      (writevSpec sz ofile load fileWrite regs) st ↔
      SegmentsInside sz ofile load fileWrite false regs st) :=
  ⟨sysVector_confined_iff, sysVector_confined_iff⟩

/-! ## A buffer in the kernel -/

def aaaa (_ : Unit) (p : UInt32) (_ : Int32) : Exec (UInt32 → UInt32) Int32 :=
  fun m => .ok (4, Function.update m p 0x41414141)

def oneFile (fd : Nat) : Option Unit := if fd = 0 then some () else none

def wildVec (a : UInt32) : UInt32 := if a = 0x100 then 0xC0200000 else if a = 0x104 then 4 else 0

/-- `readv` of one segment stores into the kernel, where `read` refuses the buffer; and with `count`
    2^29 it reads its array at the end of the process and beyond. -/
theorem readv_wild :
    ¬ ConfinedAs 0x1000 (sysReadv 0x1000 oneFile (fun m a => .ok (m a)) aaaa ⟨0, 0x100, 1, 0, 0, 0⟩)
      (readvSpec 0x1000 oneFile (fun m a => .ok (m a)) aaaa ⟨0, 0x100, 1, 0, 0, 0⟩) wildVec ∧
    (∃ t, sysReadv 0x1000 oneFile (fun m a => .ok (m a)) aaaa
      ⟨0, 0x100, 1, 0, 0, 0⟩ ⟨wildVec, [], []⟩ = .ok (4, t) ∧ t.st 0xC0200000 = 0x41414141) ∧
    (∃ t, sysRead 0x1000 oneFile aaaa ⟨0, 0xC0200000, 4, 0, 0, 0⟩ ⟨wildVec, [], []⟩ =
      .ok (-EINVAL, t)) ∧
    ¬ ConfinedAs 0x1000
      (sysReadv 0x1000 oneFile (fun m a => .ok (m a)) aaaa ⟨0, 0xFFC, 0x20000000, 0, 0, 0⟩)
      (readvSpec 0x1000 oneFile (fun m a => .ok (m a)) aaaa
        ⟨0, 0xFFC, 0x20000000, 0, 0, 0⟩) wildVec := by
  refine ⟨?_, ?_, ?_, ?_⟩
  · intro h
    have := (sysVector_confined_iff.mp h) () 1 0x100 rfl rfl rfl
    exact absurd (this.2 0xC0200000 4 rfl rfl).1 (by decide)
  · exact ⟨_, rfl, by decide⟩
  · exact ⟨_, rfl⟩
  · intro h
    have hreach := (sysVector_confined_iff.mp h) () 0x20000000 0xFFC rfl rfl rfl
    exact absurd hreach.1 (by decide)

end Micro86.Sys
