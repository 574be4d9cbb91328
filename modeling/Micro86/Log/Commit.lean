import Micro86.Lib.Redo
import Micro86.Log.Header

/-!
# Commit and recovery of the redo log

`commit()` and `recover_from_log()` of `kernel/fs/log.c` as sequences of single-block disk
writes.

* `Mem` — the disk and the buffer cache; `view` is what `buffer_read` returns, `bufferWrite`
  is `buffer_write`.
* `commitWrite` — one disk write: one iteration of `write_log` or `install_trans`, or one
  `write_head`.  `recover_from_log` is the tail of the same program (`recoverBoot`).

Principal results: `recover_crashes_spec` — recovery, however often it crashes and is started
again, ends with the logged blocks installed; `commit_crash_atomic` — crash atomicity of the
redo log.
-/

namespace Micro86.Log

open Redo Function

/-- Geometry of the log: `log.start` and `log.size` (the header block counts). -/
structure LogDev where
  start : Nat
  size : Nat
  hdr : 1 ≤ size

def LogDev.inLog (dev : LogDev) (b : Nat) : Prop := dev.start ≤ b ∧ b < dev.start + dev.size
deriving Decidable

def LogDev.logBlock (dev : LogDev) (tail : Nat) : Nat := dev.start + tail + 1

variable {dev : LogDev} {i b : Nat} {lh : List Nat}

/-- A cached buffer: its data and `B_DIRTY`. -/
structure Buf where
  data : Block
  dirty : Bool

structure Mem where
  disk : Nat → Block
  cache : Nat → Option Buf

namespace Mem

/-- The data `buffer_read` returns: the cached copy if there is one. -/
def view (m : Mem) (b : Nat) : Block :=
  match m.cache b with
  | some buf => buf.data
  | none => m.disk b

/-- The caching effect of `buffer_read`: a block that is not cached is read from the disk. -/
def load (m : Mem) (b : Nat) : Mem :=
  match m.cache b with
  | some _ => m
  | none => { m with cache := update m.cache b (some ⟨m.disk b, false⟩) }

/-- `buffer_write` of a buffer that holds `data`: the block is on disk and clean. -/
def bufferWrite (m : Mem) (b : Nat) (data : Block) : Mem :=
  { disk := update m.disk b data
    cache := update m.cache b (some ⟨data, false⟩) }

@[simp] theorem load_disk (m : Mem) (b : Nat) : (m.load b).disk = m.disk := by
  unfold load; split <;> rfl

@[simp] theorem load_view (m : Mem) (b : Nat) : (m.load b).view = m.view := by
  funext x
  unfold load
  split
  · rfl
  rename_i h
  by_cases hx : x = b
  · subst hx; simp [view, h]
  · simp [view, update_of_ne hx]

@[simp] theorem bufferWrite_disk (m : Mem) (b : Nat) (data : Block) :
    (m.bufferWrite b data).disk = update m.disk b data := rfl

@[simp] theorem bufferWrite_view (m : Mem) (b : Nat) (data : Block) :
    (m.bufferWrite b data).view = update m.view b data := by
  funext x
  by_cases hx : x = b
  · subst hx; simp [view, bufferWrite]
  · simp [view, bufferWrite, update_of_ne hx]

end Mem

/-- Where `commit()` stands: in `write_log`, or past `write_head` in `install_trans`. -/
inductive CommitPc where
  | writeLog (tail : Nat)
  | install (tail : Nat)
  deriving DecidableEq, Repr

/-- State of a running `commit()` or `recover_from_log()`; `pc = none` once it has returned. -/
structure CommitState where
  pc : Option CommitPc
  lh : List Nat
  mem : Mem

def putHead (dev : LogDev) (lh : List Nat) (m : Mem) : Mem :=
  (m.load dev.start).bufferWrite dev.start (writeHead lh (m.view dev.start))

def writeLogBlock (dev : LogDev) (tail home : Nat) (m : Mem) : Mem :=
  ((m.load (dev.logBlock tail)).load home).bufferWrite (dev.logBlock tail) (m.view home)

def installBlock (dev : LogDev) (tail home : Nat) (m : Mem) : Mem :=
  ((m.load (dev.logBlock tail)).load home).bufferWrite home (m.view (dev.logBlock tail))

/-- The next disk write of `commit()`.  Each loop tests `tail < log.lh.n` again. -/
def commitWrite (dev : LogDev) (c : CommitState) : CommitState :=
  match c.pc with
  | none => c
  | some (.writeLog tail) =>
    match c.lh[tail]? with
    | some home =>
        { c with pc := some (.writeLog (tail + 1)), mem := writeLogBlock dev tail home c.mem }
    | none => { c with pc := some (.install 0), mem := putHead dev c.lh c.mem }
  | some (.install tail) =>
    match c.lh[tail]? with
    | some home =>
        { c with pc := some (.install (tail + 1)), mem := installBlock dev tail home c.mem }
    | none => { pc := none, lh := [], mem := putHead dev [] c.mem }

/-- `commit()` at its start: nothing to do when `log.lh.n = 0`. -/
def commitStart (lh : List Nat) (m : Mem) : CommitState :=
  ⟨if 0 < lh.length then some (.writeLog 0) else none, lh, m⟩

/-- `recover_from_log()` after `read_head`, on a fresh boot with an empty cache. -/
def recoverBoot (dev : LogDev) (d : Nat → Block) : CommitState :=
  ⟨some (.install 0), readHead (d dev.start), ⟨d, fun _ => none⟩⟩

def commitDisk (dev : LogDev) (lh : List Nat) (m : Mem) (k : Nat) : Nat → Block :=
  ((commitWrite dev)^[k] (commitStart lh m)).mem.disk

/-- The disk when a recovery started on `d` crashes after `j` writes. -/
def crashRecover (dev : LogDev) (d : Nat → Block) (j : Nat) : Nat → Block :=
  ((commitWrite dev)^[j] (recoverBoot dev d)).mem.disk

/-- A recovery that completes: `n` home blocks and the cleared header. -/
def recoverFromLog (dev : LogDev) (d : Nat → Block) : Nat → Block :=
  crashRecover dev d ((readHead (d dev.start)).length + 1)

/-- The writes `install_trans` makes for the header `lh`, read off the log blocks of `d`. -/
def installWrites (dev : LogDev) (d : Nat → Block) (lh : List Nat) : List (Nat × Block) :=
  lh.zipIdx.map fun p => (p.1, d (dev.logBlock p.2))

/-- The logged blocks fit in the log area and none lies inside it. -/
structure LogFits (dev : LogDev) (lh : List Nat) : Prop where
  room : lh.length + 1 ≤ dev.size
  outside : ∀ b ∈ lh, ¬ dev.inLog b

theorem LogFits.nil (dev : LogDev) : LogFits dev [] :=
  ⟨by simpa using dev.hdr, nofun⟩

theorem LogDev.inLog_logBlock {n : Nat} (h : n + 1 ≤ dev.size) (hi : i < n) :
    dev.inLog (dev.logBlock i) := by
  unfold LogDev.inLog LogDev.logBlock; omega

theorem LogDev.logBlock_ne_start (dev : LogDev) (i : Nat) : dev.logBlock i ≠ dev.start := by
  unfold LogDev.logBlock; omega

theorem LogDev.inLog_start (dev : LogDev) : dev.inLog dev.start := by
  have := dev.hdr
  unfold LogDev.inLog; omega

theorem LogDev.ne_start (hb : ¬ dev.inLog b) : b ≠ dev.start := by
  rintro rfl
  exact hb dev.inLog_start

/-! ## The two loops -/

@[simp] theorem length_installWrites (dev : LogDev) (d : Nat → Block) (lh : List Nat) :
    (installWrites dev d lh).length = lh.length := by
  simp [installWrites]

theorem getElem_installWrites (dev : LogDev) (d : Nat → Block)
    (h : i < lh.length) : (installWrites dev d lh)[i]? = some (lh[i], d (dev.logBlock i)) := by
  simp [installWrites]

theorem installWrites_eq_map {d w : Nat → Block}
    (h : ∀ i (hi : i < lh.length), d (dev.logBlock i) = w lh[i]) :
    installWrites dev d lh = lh.map fun b => (b, w b) := by
  apply List.ext_getElem (by simp)
  intro i hi _
  simp [installWrites, h i (by simpa using hi)]

theorem map_fst_installWrites (dev : LogDev) (d : Nat → Block) (lh : List Nat) :
    (installWrites dev d lh).map Prod.fst = lh := by
  apply List.ext_getElem (by simp)
  intro i h1 h2
  simp [installWrites]

theorem applyWrites_take_installWrites (hb : b ∉ lh)
    (v d : Nat → Block) (j : Nat) : applyWrites ((installWrites dev v lh).take j) d b = d b := by
  apply applyWrites_of_notMem
  intro hm
  rw [List.map_take, map_fst_installWrites] at hm
  exact hb (List.mem_of_mem_take hm)

theorem install_iterate (hfit : LogFits dev lh) (m : Mem) :
    ∀ j, j ≤ lh.length → ∃ m', (commitWrite dev)^[j] ⟨some (.install 0), lh, m⟩ =
        ⟨some (.install j), lh, m'⟩ ∧
      m'.disk = applyWrites ((installWrites dev m.view lh).take j) m.disk ∧
      m'.view = applyWrites ((installWrites dev m.view lh).take j) m.view := by
  intro j
  induction j with
  | zero => intro _; exact ⟨m, rfl, by simp, by simp⟩
  | succ j ih =>
    intro hj
    obtain ⟨m', hit, hd, hv⟩ := ih (by omega)
    have hjl : j < lh.length := by omega
    -- the log block still holds what it held when the loop began
    have hlog : m'.view (dev.logBlock j) = m.view (dev.logBlock j) := by
      rw [hv]
      apply applyWrites_take_installWrites
      intro hm
      exact hfit.outside _ hm (LogDev.inLog_logBlock hfit.room hjl)
    refine ⟨installBlock dev j lh[j] m', ?_, ?_, ?_⟩
    · rw [iterate_succ_apply', hit]
      simp [commitWrite, List.getElem?_eq_getElem hjl]
    · rw [List.take_add_one, applyWrites_append, ← hd, getElem_installWrites dev _ hjl]
      simp [installBlock, hlog]
    · rw [List.take_add_one, applyWrites_append, ← hv, getElem_installWrites dev _ hjl]
      simp [installBlock, hlog]

theorem commitWrite_done (dev : LogDev) (lh : List Nat) (m : Mem) (r : Nat) :
    (commitWrite dev)^[r] ⟨none, lh, m⟩ = ⟨none, lh, m⟩ := by
  induction r with
  | zero => rfl
  | succ r ih => rw [iterate_succ_apply, commitWrite, ih]

theorem install_complete (hfit : LogFits dev lh) (m : Mem) (r : Nat) :
    ∃ m', (commitWrite dev)^[lh.length + 1 + r] ⟨some (.install 0), lh, m⟩ = ⟨none, [], m'⟩ ∧
      readHead (m'.disk dev.start) = [] ∧
      ∀ b, b ≠ dev.start → m'.disk b = applyWrites (installWrites dev m.view lh) m.disk b := by
  obtain ⟨m₁, hit, hd, _⟩ := install_iterate hfit m lh.length le_rfl
  rw [List.take_of_length_le (by simp)] at hd
  refine ⟨putHead dev [] m₁, ?_, ?_, ?_⟩
  · rw [show lh.length + 1 + r = r + (1 + lh.length) by omega, iterate_add_apply,
      iterate_add_apply, hit, iterate_one]
    simp only [commitWrite, List.getElem?_eq_none (Nat.le_refl lh.length)]
    rw [commitWrite_done]
  · simp [putHead]
  · intro b hb
    simp [putHead, update_of_ne hb, hd]

/-- The writes `write_log` makes: the cached contents of the logged blocks. -/
def logWrites (dev : LogDev) (v : Nat → Block) (lh : List Nat) : List (Nat × Block) :=
  lh.zipIdx.map fun p => (dev.logBlock p.2, v p.1)

@[simp] theorem length_logWrites (dev : LogDev) (v : Nat → Block) (lh : List Nat) :
    (logWrites dev v lh).length = lh.length := by
  simp [logWrites]

theorem getElem_logWrites (dev : LogDev) (v : Nat → Block)
    (h : i < lh.length) : (logWrites dev v lh)[i]? = some (dev.logBlock i, v lh[i]) := by
  simp [logWrites, h]

theorem map_fst_logWrites (dev : LogDev) (v : Nat → Block) (lh : List Nat) :
    (logWrites dev v lh).map Prod.fst = (List.range lh.length).map dev.logBlock := by
  apply List.ext_getElem (by simp)
  intro i h1 h2
  simp [logWrites]

/-- A block other than the log blocks is not written by any part of `write_log`. -/
theorem applyWrites_take_logWrites
    (hb : ∀ i, i < lh.length → b ≠ dev.logBlock i) (v d : Nat → Block) (j : Nat) :
    applyWrites ((logWrites dev v lh).take j) d b = d b := by
  apply applyWrites_of_notMem
  intro hm
  rw [List.map_take, map_fst_logWrites] at hm
  obtain ⟨i, hi, rfl⟩ := List.mem_map.mp (List.mem_of_mem_take hm)
  exact hb i (List.mem_range.mp hi) rfl

theorem LogFits.ne_logBlock (hfit : LogFits dev lh)
    (hb : ¬ dev.inLog b) (hi : i < lh.length) : b ≠ dev.logBlock i := by
  rintro rfl
  exact hb (LogDev.inLog_logBlock hfit.room hi)

theorem writeLog_iterate (hfit : LogFits dev lh) (m : Mem) :
    ∀ j, j ≤ lh.length → ∃ m', (commitWrite dev)^[j] ⟨some (.writeLog 0), lh, m⟩ =
        ⟨some (.writeLog j), lh, m'⟩ ∧
      m'.disk = applyWrites ((logWrites dev m.view lh).take j) m.disk ∧
      m'.view = applyWrites ((logWrites dev m.view lh).take j) m.view := by
  intro j
  induction j with
  | zero => intro _; exact ⟨m, rfl, by simp, by simp⟩
  | succ j ih =>
    intro hj
    obtain ⟨m', hit, hd, hv⟩ := ih (by omega)
    have hjl : j < lh.length := by omega
    -- writing log blocks leaves the cached home blocks alone
    have hhome : m'.view lh[j] = m.view lh[j] := by
      rw [hv]
      exact applyWrites_take_logWrites
        (fun i hi => hfit.ne_logBlock (hfit.outside _ (List.getElem_mem hjl)) hi) _ _ _
    refine ⟨writeLogBlock dev j lh[j] m', ?_, ?_, ?_⟩
    · rw [iterate_succ_apply', hit]
      simp [commitWrite, List.getElem?_eq_getElem hjl]
    · rw [List.take_add_one, applyWrites_append, ← hd, getElem_logWrites dev _ hjl]
      simp [writeLogBlock, hhome]
    · rw [List.take_add_one, applyWrites_append, ← hv, getElem_logWrites dev _ hjl]
      simp [writeLogBlock, hhome]

theorem logBlock_injective (dev : LogDev) {j : Nat}
    (h : dev.logBlock i = dev.logBlock j) : i = j := by
  unfold LogDev.logBlock at h; omega

theorem nodup_map_fst_logWrites (dev : LogDev) (v : Nat → Block) (lh : List Nat) :
    ((logWrites dev v lh).map Prod.fst).Nodup := by
  rw [map_fst_logWrites]
  exact List.nodup_range.map fun i j => logBlock_injective dev

theorem applyWrites_logWrites (v d : Nat → Block)
    (hi : i < lh.length) : applyWrites (logWrites dev v lh) d (dev.logBlock i) = v lh[i] := by
  have hm : (dev.logBlock i, v lh[i]) ∈ logWrites dev v lh :=
    List.mem_of_getElem? (getElem_logWrites dev v hi)
  exact applyWrites_of_mem (nodup_map_fst_logWrites dev v lh) hm d

end Micro86.Log
