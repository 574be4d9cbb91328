import Micro86.Log.System

/-!
# Invariants of the concurrent log

Three groups of facts that hold in every reachable state, whatever `sync()` does:

* `Control` — who runs: `log.outstanding` counts the running operations, and while
  `log.committing` is set exactly one process is in `commit()` and no operation runs;
* `HeaderOk` — the in-memory header: distinct 32-bit blocks outside the log, with room for
  them, and empty whenever nothing is pending;
* `Content` — the buffer cache: clean buffers agree with the disk, only blocks of the header
  are dirty, and a block reads as its last modification.
-/

namespace Micro86.Log

open Redo Function

/-! ## The buffer cache -/

namespace Mem

def Dirty (m : Mem) (b : Nat) : Prop := ∃ data, m.cache b = some ⟨data, true⟩

/-- Clean buffers agree with the disk. -/
def Coherent (m : Mem) : Prop := ∀ b data, m.cache b = some ⟨data, false⟩ → data = m.disk b

variable {m : Mem} {b x : Nat} {data : Block}

section

variable (h : m.Coherent)
include h

theorem Coherent.view_eq (hd : ¬ m.Dirty b) : m.view b = m.disk b := by
  unfold view
  split
  · rename_i buf hc
    obtain ⟨data, dirty⟩ := buf
    cases dirty with
    | false => exact h b data hc
    | true => exact absurd ⟨data, hc⟩ hd
  · rfl

theorem Coherent.load (b : Nat) : (m.load b).Coherent := by
  intro x data hx
  rw [load_disk]
  unfold Mem.load at hx
  split at hx
  · exact h x data hx
  by_cases hxb : x = b
  · subst hxb
    simp only [update_self, Option.some.injEq, Buf.mk.injEq] at hx
    exact hx.1.symm
  · simp only [update_of_ne hxb] at hx
    exact h x data hx

theorem Coherent.bufferWrite (b : Nat) (data : Block) :
    (m.bufferWrite b data).Coherent := by
  intro x v
  by_cases hxb : x = b
  · subst hxb
    simp only [Mem.bufferWrite, update_self, Option.some.injEq, Buf.mk.injEq]
    exact fun hx => hx.1.symm
  · simp only [Mem.bufferWrite, update_of_ne hxb]
    exact h x v

theorem Coherent.modify (b : Nat) (data : Block) : (m.modify b data).Coherent := by
  intro x v
  dsimp only [Mem.modify]
  exact update_cases x nofun fun _ => h x v

theorem Coherent.evict (b : Nat) : (m.evict b).Coherent := by
  intro x v
  dsimp only [Mem.evict]
  exact update_cases x nofun fun _ => h x v

end

theorem dirty_load : (m.load b).Dirty x ↔ m.Dirty x := by
  unfold load Dirty
  split
  · rfl
  rename_i hc
  by_cases hxb : x = b
  · subst hxb; simp [hc]
  · simp [update_of_ne hxb]

theorem dirty_bufferWrite : (m.bufferWrite b data).Dirty x ↔ x ≠ b ∧ m.Dirty x := by
  by_cases hxb : x = b
  · subst hxb; simp [bufferWrite, Dirty]
  · simp [bufferWrite, Dirty, hxb]

theorem dirty_modify : (m.modify b data).Dirty x ↔ x = b ∨ m.Dirty x := by
  by_cases hxb : x = b
  · subst hxb; simp [modify, Dirty]
  · simp [modify, Dirty, hxb]

theorem dirty_of_evict (h : (m.evict b).Dirty x) : m.Dirty x := by
  obtain ⟨v, hv⟩ := h
  by_cases hxb : x = b
  · subst hxb; simp [evict] at hv
  · exact ⟨v, by simpa [evict, update_of_ne hxb] using hv⟩

@[simp] theorem evict_disk : (m.evict b).disk = m.disk := rfl

@[simp] theorem modify_view : (m.modify b data).view = update m.view b data := by
  funext x
  by_cases hx : x = b
  · subst hx; simp [view, modify]
  · simp [view, modify, update_of_ne hx]

theorem evict_view (h : m.Coherent) (hb : m.cache b = some ⟨data, false⟩) :
    (m.evict b).view = m.view := by
  funext x
  by_cases hx : x = b
  · subst hx
    simp only [view, evict, update_self, hb]
    exact (h x data hb).symm
  · simp [view, evict, update_of_ne hx]

end Mem

/-! ### The three kinds of commit writes -/

section CommitWrites

variable {dev : LogDev} {tail home : Nat} {lh : List Nat} {m : Mem} {x : Nat}

@[simp] theorem writeLogBlock_disk :
    (writeLogBlock dev tail home m).disk = update m.disk (dev.logBlock tail) (m.view home) := by
  simp [writeLogBlock]

@[simp] theorem writeLogBlock_view :
    (writeLogBlock dev tail home m).view = update m.view (dev.logBlock tail) (m.view home) := by
  simp [writeLogBlock]

@[simp] theorem installBlock_disk :
    (installBlock dev tail home m).disk = update m.disk home (m.view (dev.logBlock tail)) := by
  simp [installBlock]

@[simp] theorem installBlock_view :
    (installBlock dev tail home m).view = update m.view home (m.view (dev.logBlock tail)) := by
  simp [installBlock]

@[simp] theorem putHead_disk : (putHead dev lh m).disk =
    update m.disk dev.start (Log.writeHead lh (m.view dev.start)) := by
  simp [putHead]

@[simp] theorem putHead_view : (putHead dev lh m).view =
    update m.view dev.start (Log.writeHead lh (m.view dev.start)) := by
  simp [putHead]

theorem Mem.Coherent.writeLogBlock (h : m.Coherent) : (writeLogBlock dev tail home m).Coherent :=
  ((h.load _).load _).bufferWrite _ _

theorem Mem.Coherent.installBlock (h : m.Coherent) : (installBlock dev tail home m).Coherent :=
  ((h.load _).load _).bufferWrite _ _

theorem Mem.Coherent.putHead (h : m.Coherent) : (putHead dev lh m).Coherent :=
  (h.load _).bufferWrite _ _

theorem dirty_writeLogBlock (h : (writeLogBlock dev tail home m).Dirty x) : m.Dirty x :=
  Mem.dirty_load.mp (Mem.dirty_load.mp (Mem.dirty_bufferWrite.mp h).2)

theorem dirty_installBlock (h : (installBlock dev tail home m).Dirty x) : x ≠ home ∧ m.Dirty x :=
  ⟨(Mem.dirty_bufferWrite.mp h).1,
    Mem.dirty_load.mp (Mem.dirty_load.mp (Mem.dirty_bufferWrite.mp h).2)⟩

theorem dirty_putHead (h : (putHead dev lh m).Dirty x) : m.Dirty x :=
  Mem.dirty_load.mp (Mem.dirty_bufferWrite.mp h).2

end CommitWrites

/-! ## Control -/

variable {P : Type}
variable {s t : Sys P} {p q : P} {l : List Nat} {dev : LogDev} {pc : Option CommitPc} {x : Proc}

structure Control (s : Sys P) : Prop where
  nodup : s.running.Nodup
  inOp_iff : ∀ p, p ∈ s.running ↔ ∃ l, s.procs p = .inOp l
  count : s.outstanding = s.running.length
  flag : ∀ p pc, s.procs p = .committing pc → s.committing = true ∧ s.running = []
  idle : s.committing = true → s.running = []
  unique : ∀ p q pc pc', s.procs p = .committing pc → s.procs q = .committing pc' → p = q

theorem Control.not_committing (h : Control s)
    (hp : s.procs p = .inOp l) (q : P) (pc : Option CommitPc) : s.procs q ≠ .committing pc := by
  intro hq
  have hm := (h.inOp_iff p).mpr ⟨l, hp⟩
  rw [(h.flag q pc hq).2] at hm
  cases hm

theorem Control.of_mem (h : Control s) (m : Mem) : Control { s with mem := m } :=
  ⟨h.nodup, h.inOp_iff, h.count, h.flag, h.idle, h.unique⟩

theorem control_init (h : s.Init dev) : Control s where
  nodup := by rw [h.running]; exact List.nodup_nil
  inOp_iff p := by rw [h.running, h.procs p]; simp
  count := by rw [h.outstanding, h.running]; rfl
  flag p pc hp := by rw [h.procs p] at hp; cases hp
  idle _ := h.running
  unique p q pc pc' hp := by rw [h.procs p] at hp; cases hp

variable [DecidableEq P]

theorem committing_of_update {f : P → Proc}
    (h : update f p x q = .committing pc) :
    (q = p ∧ x = .committing pc) ∨ (q ≠ p ∧ f q = .committing pc) := by
  by_cases hq : q = p
  · subst hq
    exact .inl ⟨rfl, by simpa using h⟩
  · exact .inr ⟨hq, by simpa [update_of_ne hq] using h⟩

/-- While `p` commits, a step of `p` leaves it the only process in `commit()`. -/
theorem Control.committing_self (h : Control s) {pc' : Option CommitPc}
    (hp : s.procs p = .committing pc)
    (hq : update s.procs p x q = .committing pc') : x = .committing pc' := by
  rcases committing_of_update hq with ⟨_, hx⟩ | ⟨hne, hq⟩
  · exact hx
  · exact absurd (h.unique q p pc' pc hq hp) hne

theorem Control.committing_inOp (h : Control s)
    (hp : s.procs p = .inOp l)
    (hq : update s.procs p x q = .committing pc) : x = .committing pc := by
  rcases committing_of_update hq with ⟨_, hx⟩ | ⟨_, hq⟩
  · exact hx
  · exact absurd hq (h.not_committing hp q pc)

theorem committing_begin (h : (s.afterBegin p).procs q = .committing pc) :
    s.procs q = .committing pc := by
  rcases committing_of_update h with ⟨_, hx⟩ | ⟨_, hq⟩
  · cases hx
  · exact hq

theorem commitStart_pc {lh : List Nat} {m : Mem}
    (h : Proc.committing (commitStart lh m).pc = .committing pc) :
    (pc = none ∧ lh = []) ∨ pc = some (.writeLog 0) := by
  simp only [commitStart, Proc.committing.injEq] at h
  split at h
  · exact .inr h.symm
  · exact .inl ⟨h.symm, List.eq_nil_of_length_eq_zero (by omega)⟩

theorem Control.of_update (ht : t.procs = update s.procs p x)
    (hother : ∀ q pc, s.procs q = .committing pc → q = p) (nodup : t.running.Nodup)
    (inOp_iff : ∀ q, q ∈ t.running ↔ ∃ l, update s.procs p x q = .inOp l)
    (count : t.outstanding = t.running.length)
    (hflag : ∀ pc, x = .committing pc → t.committing = true)
    (idle : t.committing = true → t.running = []) : Control t := by
  have key : ∀ q pc, t.procs q = .committing pc → q = p ∧ x = .committing pc := by
    intro q pc hq
    rw [ht] at hq
    rcases committing_of_update hq with hx | ⟨hne, hq⟩
    · exact hx
    · exact absurd (hother q pc hq) hne
  refine ⟨nodup, fun q => by rw [ht]; exact inOp_iff q, count, fun q pc hq => ?_, idle, ?_⟩
  · have hc := hflag pc (key q pc hq).2
    exact ⟨hc, idle hc⟩
  · intro q r pc pc' hq hr
    rw [(key q pc hq).1, (key r pc' hr).1]

section

variable (h : Control s)
include h

theorem Control.of_begin (hp : s.procs p = .idle)
    (hc : s.committing = false) : Control (s.afterBegin p) := by
  refine .of_update rfl (fun q pc hq => ?_) (List.nodup_cons.mpr ⟨fun hm => ?_, h.nodup⟩)
    (fun q => ?_) ?_ nofun (fun hcm => ?_)
  · rw [(h.flag q pc hq).1] at hc; cases hc
  · obtain ⟨l, hl⟩ := (h.inOp_iff p).mp hm
    rw [hp] at hl; cases hl
  · by_cases hq : q = p
    · subst hq; simp [Sys.afterBegin]
    · simp [Sys.afterBegin, hq, h.inOp_iff q]
  · have := h.count
    simp [Sys.afterBegin]; omega
  · rw [show s.committing = true from hcm] at hc; cases hc

section

variable (hp : s.procs p = .inOp l)
include hp

theorem Control.of_logWrite
    (b : Nat) (data : Block) : Control (s.afterLogWrite p l b data) := by
  refine .of_update rfl (fun q pc hq => (h.not_committing hp q pc hq).elim) h.nodup (fun q => ?_)
    h.count nofun h.idle
  by_cases hq : q = p
  · subst hq
    have := (h.inOp_iff q).mpr ⟨l, hp⟩
    simp [Sys.afterLogWrite, this]
  · simp [Sys.afterLogWrite, update_of_ne hq, h.inOp_iff q]

/-- The last operation out is the only one that was running. -/
theorem Control.erase_eq_nil
    (hout : s.outstanding = 1) : s.running.erase p = [] := by
  have hm := (h.inOp_iff p).mpr ⟨l, hp⟩
  have hl := List.length_erase_of_mem hm
  have := h.count
  exact List.eq_nil_of_length_eq_zero (by omega)

theorem Control.of_end
    {c : Bool} {next : Proc} (hnext : ∀ l, next ≠ .inOp l)
    (hc : ∀ pc, next = .committing pc → c = true) (hout : c = true → s.outstanding = 1) :
    Control (s.afterEnd p l c next) := by
  refine .of_update rfl (fun q pc hq => (h.not_committing hp q pc hq).elim) (h.nodup.erase p)
    (fun q => ?_) ?_ hc (fun hcm => h.erase_eq_nil hp (hout hcm))
  · by_cases hq : q = p
    · subst hq
      simp [Sys.afterEnd, h.nodup.mem_erase_iff, hnext]
    · simp [Sys.afterEnd, hq, h.inOp_iff q]
  · have hm := (h.inOp_iff p).mpr ⟨l, hp⟩
    have hl := List.length_erase_of_mem hm
    have hpos := List.length_pos_of_mem hm
    have := h.count
    simp only [Sys.afterEnd]; omega

end

theorem Control.of_commit
    (hp : s.procs p = .committing pc) {next : Proc} (hprocs : t.procs = update s.procs p next)
    (hrun : t.running = s.running) (hout : t.outstanding = s.outstanding)
    (hnext : (next = .idle ∧ t.committing = false) ∨
      ((∃ pc', next = .committing pc') ∧ t.committing = s.committing)) : Control t := by
  obtain ⟨hcm, hidle⟩ := h.flag p pc hp
  refine .of_update hprocs (fun q pc' hq => h.unique q p pc' pc hq hp) (by rw [hrun]; exact h.nodup)
    (fun q => ?_) (by rw [hout, hrun]; exact h.count) (fun pc' hx => ?_)
      (fun _ => by rw [hrun, hidle])
  · rw [hrun, hidle]
    constructor
    · intro hm; cases hm
    rintro ⟨l, hl⟩
    by_cases hqp : q = p
    · subst hqp
      rw [update_self] at hl
      subst hl
      rcases hnext with ⟨h1, _⟩ | ⟨⟨_, h1⟩, _⟩ <;> cases h1
    · rw [update_of_ne hqp] at hl
      exact (h.not_committing hl p pc hp).elim
  · rcases hnext with ⟨h1, _⟩ | ⟨_, h2⟩
    · rw [h1] at hx; cases hx
    · rw [h2]; exact hcm

theorem control_step {a : Act P} (hf : Fires dev s a t) :
    Control t := by
  cases hf with
  | beginOp p hp hc _ => exact h.of_begin hp hc
  | logWrite p b data logged hp _ _ _ _ _ => exact h.of_logWrite hp b data
  | endOpLast p logged hp _ hout =>
    exact h.of_end hp nofun (fun _ _ => rfl) (fun _ => hout)
  | endOpMore p logged hp _ _ =>
    exact h.of_end hp nofun nofun nofun
  | writeLog p tail home hp _ | writeHead p tail hp _ | install p tail home hp _
      | clear p tail hp _ => exact h.of_commit hp rfl rfl rfl (.inr ⟨⟨_, rfl⟩, rfl⟩)
  | finish p hp => exact h.of_commit hp rfl rfl rfl (.inl ⟨rfl, rfl⟩)
  | load b | evict b _ _ | sync b _ _ => exact h.of_mem _
  | syncClean b _ => exact h

end

/-! ## The in-memory header -/

@[simp] theorem mem_absorb {lh : List Nat} {b x : Nat} : x ∈ absorb lh b ↔ x ∈ lh ∨ x = b := by
  unfold absorb
  split
  · rename_i hb
    refine ⟨.inl, ?_⟩
    rintro (h | rfl)
    · exact h
    · exact hb
  · simp

theorem nodup_absorb {lh : List Nat} (h : lh.Nodup) (b : Nat) : (absorb lh b).Nodup := by
  unfold absorb
  split
  · exact h
  rename_i hb
  refine List.nodup_append.mpr ⟨h, List.nodup_singleton b, ?_⟩
  rintro x hx y hy rfl
  exact hb (by rwa [List.mem_singleton.mp hy] at hx)

theorem length_absorb_le (lh : List Nat) (b : Nat) : (absorb lh b).length ≤ lh.length + 1 := by
  unfold absorb
  split
  · omega
  · simp

structure HeaderOk (dev : LogDev) (s : Sys P) : Prop where
  nodup : s.lh.Nodup
  slots : s.lh.length ≤ LOGSIZE
  fits : LogFits dev s.lh
  isU32 : ∀ b ∈ s.lh, b < 4294967296
  finished : ∀ p, s.procs p = .committing none → s.lh = []
  quiet : s.running = [] → s.committing = false → s.lh = []

/-- The in-memory header is a transaction as the commit sequence expects it. -/
def HeaderOk.txn {dev : LogDev} {s : Sys P} (h : HeaderOk dev s) : Txn dev :=
  ⟨s.lh, h.nodup, h.slots, h.fits, h.isU32⟩

omit [DecidableEq P] in
theorem headerOk_init (h : s.Init dev) : HeaderOk dev s where
  nodup := by rw [h.lh]; exact List.nodup_nil
  slots := by rw [h.lh]; exact Nat.zero_le _
  fits := by rw [h.lh]; exact LogFits.nil dev
  isU32 b hb := by rw [h.lh] at hb; cases hb
  finished _ _ := h.lh
  quiet _ _ := h.lh

theorem headerOk_step {a : Act P} (hc : Control s) (h : HeaderOk dev s)
    (hf : Fires dev s a t) : HeaderOk dev t := by
  cases hf with
  | beginOp p hp hcf _ =>
    exact ⟨h.nodup, h.slots, h.fits, h.isU32, fun q hq => h.finished q (committing_begin hq),
      nofun⟩
  | logWrite p b data logged hp hb hu hslots hroom _ =>
    have hlen := length_absorb_le s.lh b
    refine ⟨nodup_absorb h.nodup b, ?_, ⟨?_, ?_⟩, ?_, ?_, ?_⟩
    · show (absorb s.lh b).length ≤ LOGSIZE
      omega
    · show (absorb s.lh b).length + 1 ≤ dev.size
      omega
    · intro x hx
      rcases mem_absorb.mp hx with hx | rfl
      · exact h.fits.outside x hx
      · exact hb
    · intro x hx
      rcases mem_absorb.mp hx with hx | rfl
      · exact h.isU32 x hx
      · exact hu
    · intro q hq
      cases hc.committing_inOp hp hq
    · intro hr _
      have := (hc.inOp_iff p).mpr ⟨logged, hp⟩
      rw [show s.running = [] from hr] at this; cases this
  | endOpLast p logged hp hcf hout =>
    refine ⟨h.nodup, h.slots, h.fits, h.isU32, fun q hq => ?_, nofun⟩
    rcases commitStart_pc (hc.committing_inOp hp hq) with ⟨_, hnil⟩ | hpc
    · exact hnil
    · cases hpc
  | endOpMore p logged hp hcf hout =>
    refine ⟨h.nodup, h.slots, h.fits, h.isU32, fun q hq => ?_, fun hr _ => ?_⟩
    · cases hc.committing_inOp hp hq
    · have hm := (hc.inOp_iff p).mpr ⟨logged, hp⟩
      have hl := List.length_erase_of_mem hm
      have hpos := List.length_pos_of_mem hm
      have hcount := hc.count
      rw [show s.running.erase p = [] from hr, List.length_nil] at hl
      omega
  | writeLog p tail home hp _ | writeHead p tail hp _ | install p tail home hp _ =>
    refine ⟨h.nodup, h.slots, h.fits, h.isU32, fun q hq => ?_, h.quiet⟩
    cases hc.committing_self hp hq
  | clear p tail hp _ =>
    refine ⟨List.nodup_nil, Nat.zero_le _, LogFits.nil dev, fun b hb => ?_,
      fun _ _ => rfl, fun _ _ => rfl⟩
    cases hb
  | finish p hp =>
    have hnil := h.finished p hp
    exact ⟨h.nodup, h.slots, h.fits, h.isU32, fun _ _ => hnil, fun _ _ => hnil⟩
  | load b | evict b _ _ | sync b _ _ =>
    exact ⟨h.nodup, h.slots, h.fits, h.isU32, h.finished, h.quiet⟩
  | syncClean b _ => exact h

/-! ## Contents -/

/-- The cache and the log blocks, relative to the disk `d₀` at boot. -/
structure Content (dev : LogDev) (d₀ : Nat → Block) (s : Sys P) : Prop where
  coherent : s.mem.Coherent
  dirty : ∀ b, s.mem.Dirty b → b ∈ s.lh ∧
    ∀ p tail, s.procs p = .committing (some (.install tail)) → b ∉ s.lh.take tail
  view : ∀ b, ¬ dev.inLog b → s.mem.view b = applyWrites s.mods d₀ b
  written : ∀ p tail, s.procs p = .committing (some (.writeLog tail)) → ∀ i (h : i < s.lh.length),
    i < tail → s.mem.disk (dev.logBlock i) = s.mem.view s.lh[i]
  committed : ∀ p tail, s.procs p = .committing (some (.install tail)) →
    readHead (s.mem.disk dev.start) = s.lh ∧
    ∀ i (h : i < s.lh.length), s.mem.disk (dev.logBlock i) = s.mem.view s.lh[i]
  last : ∀ p tail, s.procs p = .committing (some (.install tail)) → s.hist.getLast? = some s.header

omit [DecidableEq P] in
theorem content_init (h : s.Init dev) : Content dev s.mem.disk s where
  coherent b data hb := (h.cache b _ hb).2
  dirty b hd := by
    obtain ⟨data, hb⟩ := hd
    cases (h.cache b _ hb).1
  view b _ := by
    rw [h.mods, applyWrites_nil]
    unfold Mem.view
    split
    · rename_i buf hb
      exact (h.cache b buf hb).2
    · rfl
  written p tail hp := by rw [h.procs p] at hp; cases hp
  committed p tail hp := by rw [h.procs p] at hp; cases hp
  last p tail hp := by rw [h.procs p] at hp; cases hp

section

variable {dev : LogDev} {d₀ : Nat → Block} {s : Sys P}

omit [DecidableEq P] in
/-- Blocks of the log area are never dirty: they read as they are on disk. -/
theorem Content.view_log (h : Content dev d₀ s) (hh : HeaderOk dev s) {b : Nat} (hb : dev.inLog b) :
    s.mem.view b = s.mem.disk b :=
  h.coherent.view_eq fun hd => hh.fits.outside b (h.dirty b hd).1 hb

omit [DecidableEq P] in
/-- The log block `install_trans` copies holds what the home block reads as. -/
theorem Content.view_logBlock (h : Content dev d₀ s) (hh : HeaderOk dev s) {p : P} {tail : Nat}
    (hp : s.procs p = .committing (some (.install tail))) (hlt : tail < s.lh.length) :
    s.mem.view (dev.logBlock tail) = s.mem.view s.lh[tail] := by
  rw [h.view_log hh (LogDev.inLog_logBlock hh.fits.room hlt)]
  exact (h.committed p tail hp).2 tail hlt

omit [DecidableEq P] in
theorem Content.of_start (coherent : s.mem.Coherent) (hdirty : ∀ b, s.mem.Dirty b → b ∈ s.lh)
    (view : ∀ b, ¬ dev.inLog b → s.mem.view b = applyWrites s.mods d₀ b)
    (hpc : ∀ q pc, s.procs q = .committing (some pc) → pc = .writeLog 0) : Content dev d₀ s := by
  refine ⟨coherent, fun b hb => ⟨hdirty b hb, fun q tail hq => ?_⟩,
    view, fun q tail hq i hi hlt => ?_, fun q tail hq => ?_, fun q tail hq => ?_⟩
  · cases hpc q _ hq
  · cases hpc q _ hq
    cases hlt
  · cases hpc q _ hq
  · cases hpc q _ hq

omit [DecidableEq P] in
/-- The cache changes, and with it no block of the log and nothing that is read. -/
theorem Content.of_mem (h : Content dev d₀ s) (hh : HeaderOk dev s)
    {m : Mem} (coherent : m.Coherent)
    (hdirty : ∀ b, m.Dirty b → s.mem.Dirty b) (hview : m.view = s.mem.view)
    (hdisk : ∀ b, dev.inLog b → m.disk b = s.mem.disk b) :
    Content dev d₀ { s with mem := m } := by
  have hlog : ∀ i, i < s.lh.length → m.disk (dev.logBlock i) = s.mem.disk (dev.logBlock i) :=
    fun i hi => hdisk _ (LogDev.inLog_logBlock hh.fits.room hi)
  refine ⟨coherent, fun b hb => h.dirty b (hdirty b hb), ?_,
    fun p tail hp i hi hlt => ?_, fun p tail hp => ⟨?_, fun i hi => ?_⟩, ?_⟩
  · simpa [hview] using h.view
  · rw [hlog i hi, hview]
    exact h.written p tail hp i hi hlt
  · rw [hdisk _ dev.inLog_start]
    exact (h.committed p tail hp).1
  · rw [hlog i hi, hview]
    exact (h.committed p tail hp).2 i hi
  · simpa [hview, Sys.header] using h.last

omit [DecidableEq P] in
theorem HeaderOk.ne_logBlock (hh : HeaderOk dev s) {i j : Nat} (hi : i < s.lh.length)
    (hj : j < s.lh.length) : s.lh[i] ≠ dev.logBlock j :=
  hh.fits.ne_logBlock (hh.fits.outside _ (List.getElem_mem hi)) hj

omit [DecidableEq P] in
theorem HeaderOk.ne_start (hh : HeaderOk dev s) {i : Nat} (hi : i < s.lh.length) :
    s.lh[i] ≠ dev.start :=
  LogDev.ne_start (hh.fits.outside _ (List.getElem_mem hi))

section

variable {tail home : Nat}

variable (hc : Control s) (hh : HeaderOk dev s) (h : Content dev d₀ s)
include hc hh h

theorem Content.writeLog (hp : s.procs p = .committing (some (.writeLog tail)))
    (ht : s.lh[tail]? = some home) : Content dev d₀ (s.afterCommitWrite p
      ⟨some (.writeLog (tail + 1)), s.lh, writeLogBlock dev tail home s.mem⟩ s.hist) := by
  obtain ⟨hlt, rfl⟩ := List.getElem?_eq_some_iff.mp ht
  refine ⟨h.coherent.writeLogBlock, fun x hx => ⟨(h.dirty x (dirty_writeLogBlock hx)).1, ?_⟩,
    fun x hx => ?_, fun q j hq i hi hij => ?_, fun q j hq => ?_, fun q j hq => ?_⟩
  · intro q j hq
    cases hc.committing_self hp hq
  · simp only [Sys.afterCommitWrite, writeLogBlock_view]
    rw [update_of_ne (hh.fits.ne_logBlock hx hlt), h.view x hx]
  · cases hc.committing_self hp hq
    have hil : i < s.lh.length := hi
    show (writeLogBlock dev tail s.lh[tail] s.mem).disk _ =
        (writeLogBlock dev tail s.lh[tail] s.mem).view s.lh[i]
    rw [writeLogBlock_view, writeLogBlock_disk, update_of_ne (hh.ne_logBlock hil hlt)]
    by_cases hie : i = tail
    · subst hie; simp
    · rw [update_of_ne (fun he => hie (logBlock_injective dev he))]
      exact h.written p tail hp i hi (by omega)
  · cases hc.committing_self hp hq
  · cases hc.committing_self hp hq

theorem Content.writeHead (hp : s.procs p = .committing (some (.writeLog tail)))
    (ht : s.lh.length ≤ tail) : Content dev d₀ (s.afterCommitWrite p
      ⟨some (.install 0), s.lh, putHead dev s.lh s.mem⟩ (s.hist ++ [s.header])) := by
  refine ⟨h.coherent.putHead, fun x hx => ⟨(h.dirty x (dirty_putHead hx)).1, ?_⟩,
    fun x hx => ?_, fun q j hq => ?_, fun q j hq => ⟨?_, fun i hi => ?_⟩, fun q j hq => ?_⟩
  · intro q j hq
    cases hc.committing_self hp hq
    simp
  · simp only [Sys.afterCommitWrite, putHead_view]
    rw [update_of_ne (LogDev.ne_start hx), h.view x hx]
  · cases hc.committing_self hp hq
  · exact readHead_putHead hh.txn s.mem
  · have hil : i < s.lh.length := hi
    show (putHead dev s.lh s.mem).disk _ = (putHead dev s.lh s.mem).view s.lh[i]
    rw [putHead_view, putHead_disk, update_of_ne (dev.logBlock_ne_start i),
      update_of_ne (hh.ne_start hil)]
    exact h.written p tail hp i hi (hi.trans_le ht)
  · show (s.hist ++ [s.header]).getLast? =
        some ⟨s.lh.map fun b => (b, (putHead dev s.lh s.mem).view b), _⟩
    rw [List.getLast?_concat, Sys.header]
    congr 2
    apply List.map_congr_left
    intro b hb
    rw [putHead_view, update_of_ne (LogDev.ne_start (hh.fits.outside b hb))]

theorem Content.install (hp : s.procs p = .committing (some (.install tail)))
    (ht : s.lh[tail]? = some home) : Content dev d₀ (s.afterCommitWrite p
      ⟨some (.install (tail + 1)), s.lh, installBlock dev tail home s.mem⟩ s.hist) := by
  obtain ⟨hlt, rfl⟩ := List.getElem?_eq_some_iff.mp ht
  have hv := h.view_logBlock hh hp hlt
  have hview : (installBlock dev tail s.lh[tail] s.mem).view = s.mem.view := by
    rw [installBlock_view, hv, update_eq_self]
  refine ⟨h.coherent.installBlock, fun x hx => ⟨(h.dirty x (dirty_installBlock hx).2).1, ?_⟩,
    fun x hx => ?_, fun q j hq => ?_, fun q j hq => ⟨?_, fun i hi => ?_⟩, fun q j hq => ?_⟩
  · intro q j hq hm
    cases hc.committing_self hp hq
    obtain ⟨hxne, hxd⟩ := dirty_installBlock hx
    rw [List.take_add_one, List.mem_append] at hm
    rcases hm with hm | hm
    · exact (h.dirty x hxd).2 p tail hp hm
    rw [show (s.afterCommitWrite p ⟨some (.install (tail + 1)), s.lh, _⟩ s.hist).lh[tail]? =
      some s.lh[tail] from ht] at hm
    exact hxne (by simpa using hm)
  · simp only [Sys.afterCommitWrite, hview]
    exact h.view x hx
  · cases hc.committing_self hp hq
  · simp only [Sys.afterCommitWrite, installBlock_disk]
    rw [update_of_ne (hh.ne_start hlt).symm]
    exact (h.committed p tail hp).1
  · have hil : i < s.lh.length := hi
    show (installBlock dev tail s.lh[tail] s.mem).disk _ =
        (installBlock dev tail s.lh[tail] s.mem).view s.lh[i]
    rw [hview, installBlock_disk, update_of_ne (hh.ne_logBlock hlt hil).symm]
    exact (h.committed p tail hp).2 i hil
  · show s.hist.getLast? =
        some ⟨s.lh.map fun b => (b, (installBlock dev tail s.lh[tail] s.mem).view b), _⟩
    rw [hview]
    exact h.last p tail hp

end

omit [DecidableEq P] in
theorem Content.sync (hh : HeaderOk dev s) (h : Content dev d₀ s) {b : Nat} {data : Block}
    (hb : s.mem.cache b = some ⟨data, true⟩) :
    Content dev d₀ { s with mem := s.mem.bufferWrite b data } := by
  have hbout := hh.fits.outside b (h.dirty b ⟨data, hb⟩).1
  have hvb : s.mem.view b = data := by simp [Mem.view, hb]
  refine h.of_mem hh (h.coherent.bufferWrite b data) (fun x hx => (Mem.dirty_bufferWrite.mp hx).2)
    ?_ fun x hx => ?_
  · rw [Mem.bufferWrite_view, ← hvb, update_eq_self]
  · rw [Mem.bufferWrite_disk, update_of_ne]
    rintro rfl
    exact hbout hx

theorem content_step {t : Sys P} {a : Act P} (hc : Control s) (hh : HeaderOk dev s)
    (h : Content dev d₀ s) (hf : Fires dev s a t) : Content dev d₀ t := by
  cases hf with
  | beginOp p hp hcf _ =>
    refine ⟨h.coherent, fun b hb => ⟨(h.dirty b hb).1, fun q tail hq => ?_⟩, h.view,
      fun q tail hq => h.written q tail (committing_begin hq),
      fun q tail hq => h.committed q tail (committing_begin hq),
      fun q tail hq => h.last q tail (committing_begin hq)⟩
    exact (h.dirty b hb).2 q tail (committing_begin hq)
  | logWrite p b data logged hp hb _ _ _ _ =>
    refine .of_start (h.coherent.modify b data) (fun x hx => ?_) (fun x hx => ?_) fun q pc hq => ?_
    · rcases Mem.dirty_modify.mp hx with rfl | hx
      · exact mem_absorb.mpr (.inr rfl)
      · exact mem_absorb.mpr (.inl (h.dirty x hx).1)
    · simp only [Sys.afterLogWrite, Mem.modify_view, applyWrites_append, applyWrites_cons,
        applyWrites_nil]
      by_cases hxb : x = b
      · subst hxb; simp
      · rw [update_of_ne hxb, update_of_ne hxb, h.view x hx]
    · cases hc.committing_inOp hp hq
  | endOpLast p logged hp _ _ =>
    -- the new committer is at the start of `write_log`, or has nothing to do
    refine .of_start h.coherent (fun b hb => (h.dirty b hb).1) h.view fun q pc hq => ?_
    rcases commitStart_pc (hc.committing_inOp hp hq) with ⟨hx, _⟩ | hx <;> cases hx
    rfl
  | endOpMore p logged hp _ _ =>
    refine .of_start h.coherent (fun b hb => (h.dirty b hb).1) h.view fun q pc hq => ?_
    cases hc.committing_inOp hp hq
  | writeLog p tail home hp ht => exact h.writeLog hc hh hp ht
  | writeHead p tail hp ht => exact h.writeHead hc hh hp ht
  | install p tail home hp ht => exact h.install hc hh hp ht
  | clear p tail hp ht =>
    refine .of_start h.coherent.putHead (fun x hx => ?_) (fun x hx => ?_) fun q pc hq => ?_
    · obtain ⟨hm, hnot⟩ := h.dirty x (dirty_putHead hx)
      have := hnot p tail hp
      rw [List.take_of_length_le ht] at this
      exact absurd hm this
    · simp only [Sys.afterCommitWrite, putHead_view]
      rw [update_of_ne (LogDev.ne_start hx), h.view x hx]
    · cases hc.committing_self hp hq
  | finish p hp =>
    refine .of_start h.coherent (fun b hb => (h.dirty b hb).1) h.view fun q pc hq => ?_
    cases hc.committing_self hp hq
  | load b => exact h.of_mem hh (h.coherent.load b) (fun x => Mem.dirty_load.mp) (by simp) (by simp)
  | evict b data hb =>
    exact h.of_mem hh (h.coherent.evict b) (fun x => Mem.dirty_of_evict)
      (Mem.evict_view h.coherent hb) fun _ _ => rfl
  | sync b data hb => exact h.sync hh hb
  | syncClean b _ => exact h

end

end Micro86.Log
