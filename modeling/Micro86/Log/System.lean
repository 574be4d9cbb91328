import Micro86.Lib.Transition
import Micro86.Log.Recovery

/-!
# The log as a concurrent system

Any number of processes run `begin_op`, `log_write`, `end_op` (with `commit()`) while the
buffer cache loads and evicts blocks and `sync()` walks it.  Every section under `log.lock` is
one atomic action, and so is every single-block disk write, since the buffers it uses are
locked; between two actions anything may be scheduled.

* `Sys` — the state.  `running`, `mods`, `hist`, `ended` are history variables: no action reads
  them.
* `step` — one action: `blocked` (the process sleeps, or the call is not one it can make now),
  `panic`, or the next state.
* `Fires` — the same transitions as a relation, with every guard spelled out; `fires_of_step`
  is the only place where `step` is unfolded.
-/

namespace Micro86.Log

/-- What a process is doing: outside a transaction; between `begin_op` and `end_op`, having
    logged the given blocks; in `commit()` (`none`: it has returned). -/
inductive Proc where
  | idle
  | inOp (logged : List Nat)
  | committing (pc : Option CommitPc)
  deriving DecidableEq, Repr

/-- A header written by `write_head` at the commit point: its blocks with their contents, and
    the number of modifications made before. -/
structure Committed where
  blocks : List (Nat × Block)
  time : Nat

/-- An operation that has called `end_op`: the blocks it logged, the number of headers
    committed before it, and the number of modifications made before its `end_op`. -/
structure EndedOp where
  logged : List Nat
  epoch : Nat
  time : Nat

structure Sys (P : Type) where
  mem : Mem
  lh : List Nat
  outstanding : Int
  committing : Bool
  procs : P → Proc
  /-- Processes between `begin_op` and `end_op`. -/
  running : List P
  /-- Every modification of a buffer under `log_write`, oldest first. -/
  mods : List (Nat × Block)
  hist : List Committed
  ended : List EndedOp

inductive Act (P : Type) where
  | beginOp (p : P)
  | logWrite (p : P) (b : Nat) (data : Block)
  | endOp (p : P)
  | commitStep (p : P)
  | load (b : Nat)
  | evict (b : Nat)
  | syncIter (b : Nat)

/-- The loop of `log_write`: a block already in the header is absorbed. -/
def absorb (lh : List Nat) (b : Nat) : List Nat := if b ∈ lh then lh else lh ++ [b]

def Mem.modify (m : Mem) (b : Nat) (data : Block) : Mem :=
  { m with cache := Function.update m.cache b (some ⟨data, true⟩) }

/-- Recycling a buffer for another block. -/
def Mem.evict (m : Mem) (b : Nat) : Mem := { m with cache := Function.update m.cache b none }

variable {P : Type} [DecidableEq P]

namespace Sys

variable (s : Sys P)

def afterBegin (p : P) : Sys P :=
  { s with
    outstanding := s.outstanding + 1
    procs := Function.update s.procs p (.inOp [])
    running := p :: s.running }

def afterLogWrite (p : P) (logged : List Nat) (b : Nat) (data : Block) : Sys P :=
  { s with
    lh := absorb s.lh b
    mem := s.mem.modify b data
    procs := Function.update s.procs p (.inOp (absorb logged b))
    mods := s.mods ++ [(b, data)] }

def afterEnd (p : P) (logged : List Nat) (committing : Bool) (next : Proc) : Sys P :=
  { s with
    outstanding := s.outstanding - 1
    committing := committing
    procs := Function.update s.procs p next
    running := s.running.erase p
    ended := s.ended ++ [⟨logged, s.hist.length, s.mods.length⟩] }

def afterCommitWrite (p : P) (c : CommitState) (hist : List Committed) : Sys P :=
  { s with
    mem := c.mem
    lh := c.lh
    procs := Function.update s.procs p (.committing c.pc)
    hist := hist }

/-- The header about to be committed, with the cached contents. -/
def header : Committed := ⟨s.lh.map fun b => (b, s.mem.view b), s.mods.length⟩

end Sys

def step (dev : LogDev) (s : Sys P) : Act P → Outcome (Sys P)
  | .beginOp p =>
    match s.procs p with
    | .idle =>
      if s.committing then .blocked
      else if (s.lh.length : Int) + (s.outstanding + 1) * MAXOPBLOCKS > LOGSIZE then .blocked
      else .next (s.afterBegin p)
    | _ => .blocked
  | .logWrite p b data =>
    match s.procs p with
    | .inOp logged =>
      -- the file system logs 32-bit block numbers outside the log area
      if dev.inLog b ∨ 4294967296 ≤ b then .blocked
      else if LOGSIZE ≤ s.lh.length ∨ dev.size ≤ s.lh.length + 1 then .panic "too big a transaction"
      else if s.outstanding < 1 then .panic "log_write outside of trans"
      else .next (s.afterLogWrite p logged b data)
    | _ => .blocked
  | .endOp p =>
    match s.procs p with
    | .inOp logged =>
      if s.committing then .panic "log.committing"
      else if s.outstanding - 1 = 0 then
        .next (s.afterEnd p logged true (.committing (commitStart s.lh s.mem).pc))
      else .next (s.afterEnd p logged s.committing .idle)
    | _ => .blocked
  | .commitStep p =>
    match s.procs p with
    | .committing none =>
      .next { s with committing := false, procs := Function.update s.procs p .idle }
    | .committing (some (.writeLog tail)) =>
      -- past the last block, this write is `write_head`: the commit point
      .next (s.afterCommitWrite p (commitWrite dev ⟨some (.writeLog tail), s.lh, s.mem⟩)
        (if tail < s.lh.length then s.hist else s.hist ++ [s.header]))
    | .committing (some (.install tail)) =>
      .next (s.afterCommitWrite p (commitWrite dev ⟨some (.install tail), s.lh, s.mem⟩) s.hist)
    | _ => .blocked
  | .load b => .next { s with mem := s.mem.load b }
  | .evict b =>
    match s.mem.cache b with
    | some ⟨_, false⟩ => .next { s with mem := s.mem.evict b }
    | _ => .blocked
  | .syncIter b =>
    match s.mem.cache b with
    | some ⟨data, true⟩ => .next { s with mem := s.mem.bufferWrite b data }
    | _ => .next s

/-- A freshly booted system: empty in-memory log, clean header, cache in step with the disk. -/
structure Sys.Init (dev : LogDev) (s : Sys P) : Prop where
  lh : s.lh = []
  outstanding : s.outstanding = 0
  committing : s.committing = false
  procs : ∀ p, s.procs p = .idle
  head : readHead (s.mem.disk dev.start) = []
  cache : ∀ b buf, s.mem.cache b = some buf → buf.dirty = false ∧ buf.data = s.mem.disk b
  running : s.running = []
  mods : s.mods = []
  hist : s.hist = []
  ended : s.ended = []

/-- The system right after `recover_from_log`, with nothing cached. -/
def Sys.boot (disk : Nat → Block) : Sys P where
  mem := ⟨disk, fun _ => none⟩
  lh := []
  outstanding := 0
  committing := false
  procs _ := .idle
  running := []
  mods := []
  hist := []
  ended := []

omit [DecidableEq P] in
theorem Sys.boot_init {dev : LogDev} {disk : Nat → Block} (h : readHead (disk dev.start) = []) :
    (Sys.boot disk : Sys P).Init dev where
  lh := rfl
  outstanding := rfl
  committing := rfl
  procs _ := rfl
  head := h
  cache _ _ hb := by cases hb
  running := rfl
  mods := rfl
  hist := rfl
  ended := rfl

/-! ## What a step can do -/

inductive Fires (dev : LogDev) (s : Sys P) : Act P → Sys P → Prop where
  | beginOp (p : P) (hp : s.procs p = .idle) (hc : s.committing = false)
      (hroom : (s.lh.length : Int) + (s.outstanding + 1) * MAXOPBLOCKS ≤ LOGSIZE) :
      Fires dev s (.beginOp p) (s.afterBegin p)
  | logWrite (p : P) (b : Nat) (data : Block) (logged : List Nat) (hp : s.procs p = .inOp logged)
      (hb : ¬ dev.inLog b) (hu : b < 4294967296) (hslots : s.lh.length < LOGSIZE)
      (hroom : s.lh.length + 1 < dev.size) (hout : 1 ≤ s.outstanding) :
      Fires dev s (.logWrite p b data) (s.afterLogWrite p logged b data)
  | endOpLast (p : P) (logged : List Nat) (hp : s.procs p = .inOp logged)
      (hc : s.committing = false)
      (hout : s.outstanding = 1) :
      Fires dev s (.endOp p) (s.afterEnd p logged true (.committing (commitStart s.lh s.mem).pc))
  | endOpMore (p : P) (logged : List Nat) (hp : s.procs p = .inOp logged)
      (hc : s.committing = false)
      (hout : s.outstanding ≠ 1) : Fires dev s (.endOp p) (s.afterEnd p logged false .idle)
  | writeLog (p : P) (tail home : Nat) (hp : s.procs p = .committing (some (.writeLog tail)))
      (ht : s.lh[tail]? = some home) :
      Fires dev s (.commitStep p) (s.afterCommitWrite p
        ⟨some (.writeLog (tail + 1)), s.lh, writeLogBlock dev tail home s.mem⟩ s.hist)
  | writeHead (p : P) (tail : Nat) (hp : s.procs p = .committing (some (.writeLog tail)))
      (ht : s.lh.length ≤ tail) :
      Fires dev s (.commitStep p) (s.afterCommitWrite p
        ⟨some (.install 0), s.lh, putHead dev s.lh s.mem⟩ (s.hist ++ [s.header]))
  | install (p : P) (tail home : Nat) (hp : s.procs p = .committing (some (.install tail)))
      (ht : s.lh[tail]? = some home) :
      Fires dev s (.commitStep p) (s.afterCommitWrite p
        ⟨some (.install (tail + 1)), s.lh, installBlock dev tail home s.mem⟩ s.hist)
  | clear (p : P) (tail : Nat) (hp : s.procs p = .committing (some (.install tail)))
      (ht : s.lh.length ≤ tail) :
      Fires dev s (.commitStep p) (s.afterCommitWrite p ⟨none, [], putHead dev [] s.mem⟩ s.hist)
  | finish (p : P) (hp : s.procs p = .committing none) :
      Fires dev s (.commitStep p)
        { s with committing := false, procs := Function.update s.procs p .idle }
  | load (b : Nat) : Fires dev s (.load b) { s with mem := s.mem.load b }
  | evict (b : Nat) (data : Block) (hb : s.mem.cache b = some ⟨data, false⟩) :
      Fires dev s (.evict b) { s with mem := s.mem.evict b }
  | sync (b : Nat) (data : Block) (hb : s.mem.cache b = some ⟨data, true⟩) :
      Fires dev s (.syncIter b) { s with mem := s.mem.bufferWrite b data }
  | syncClean (b : Nat) (hb : ∀ data, s.mem.cache b ≠ some ⟨data, true⟩) :
      Fires dev s (.syncIter b) s

theorem fires_of_step {dev : LogDev} {s t : Sys P} {a : Act P} (h : step dev s a = .next t) :
    Fires dev s a t := by
  cases a with
  | beginOp p =>
    simp only [step] at h
    split at h
    · rename_i hp
      split at h
      · cases h
      rename_i hc
      split at h
      · cases h
      · cases h
        exact .beginOp p hp (by simpa using hc) (by omega)
    · cases h
  | logWrite p b data =>
    simp only [step] at h
    split at h
    · rename_i logged hp
      split at h
      · cases h
      rename_i hb
      split at h
      · cases h
      rename_i hroom
      split at h
      · cases h
      cases h
      rw [not_or] at hb hroom
      exact .logWrite p b data logged hp hb.1 (by omega) (by omega) (by omega) (by omega)
    · cases h
  | endOp p =>
    simp only [step] at h
    split at h
    · rename_i logged hp
      split at h
      · cases h
      rename_i hc
      have hc' : s.committing = false := by simpa using hc
      split at h
      · cases h
        exact .endOpLast p logged hp hc' (by omega)
      cases h
      rw [hc']
      exact .endOpMore p logged hp hc' (by omega)
    · cases h
  | commitStep p =>
    simp only [step] at h
    split at h
    · rename_i hp
      cases h
      exact .finish p hp
    · rename_i tail hp
      cases h
      cases ht : s.lh[tail]? with
      | some home =>
        have hlt : tail < s.lh.length := (List.getElem?_eq_some_iff.mp ht).1
        simp only [commitWrite, ht, if_pos hlt]
        exact .writeLog p tail home hp ht
      | none =>
        have hle : s.lh.length ≤ tail := List.getElem?_eq_none_iff.mp ht
        simp only [commitWrite, ht, if_neg hle.not_gt]
        exact .writeHead p tail hp hle
    · rename_i tail hp
      cases h
      cases ht : s.lh[tail]? with
      | some home =>
        simp only [commitWrite, ht]
        exact .install p tail home hp ht
      | none =>
        simp only [commitWrite, ht]
        exact .clear p tail hp (List.getElem?_eq_none_iff.mp ht)
    · cases h
  | load b => simp only [step] at h; cases h; exact .load b
  | evict b =>
    simp only [step] at h
    split at h
    · rename_i data hb
      cases h
      exact .evict b data hb
    · cases h
  | syncIter b =>
    simp only [step] at h
    split at h
    · rename_i data hb
      cases h
      exact .sync b data hb
    rename_i hb
    cases h
    exact .syncClean b hb

end Micro86.Log
