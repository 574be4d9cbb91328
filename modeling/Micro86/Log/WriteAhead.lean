import Micro86.Log.GroupCommit

/-!
# The write-ahead rule

`committedDisk` is the disk at boot with every committed header applied.  The rule
(`WriteAheadRule`): the home block of a transaction whose header is not written yet still holds
its committed contents, and recovery after a crash at this moment, however often recovery
itself crashes, shows exactly `committedDisk`.

`sync()` writes every buffer with `B_DIRTY` set to its home block, and `log_write` sets that
flag to pin uncommitted blocks: `sync_breaks_write_ahead` is a run of three actions that ends
with uncommitted contents on disk.  `write_ahead_of_syncSafe`: the rule holds in every run in
which no iteration of `sync()` finds a dirty buffer while a transaction is pending; a crash then
undoes whole operations (`crash_rolls_back`).
-/

namespace Micro86.Log

open Redo Function

variable {P : Type}

def Sys.PastHead (s : Sys P) : Prop := ∃ p tail, s.procs p = .committing (some (.install tail))

def committedDisk (d₀ : Nat → Block) (s : Sys P) : Nat → Block :=
  applyWrites (s.hist.flatMap (·.blocks)) d₀

def WriteAheadRule (dev : LogDev) (d₀ : Nat → Block) (s : Sys P) : Prop :=
  (¬ s.PastHead → ∀ b ∈ s.lh, s.mem.disk b = committedDisk d₀ s b) ∧
  ∀ (crashes : List Nat) (b : Nat), ¬ dev.inLog b →
    recoverFromLog dev (crashes.foldl (crashRecover dev) s.mem.disk) b = committedDisk d₀ s b

/-- A transaction is pending: blocks are logged and their header is not written. -/
def Sys.Uncommitted (s : Sys P) : Prop := s.lh ≠ [] ∧ ¬ s.PastHead

/-- An iteration of `sync()` finds its buffer dirty only when no transaction is pending. -/
def SyncSafe (s : Sys P) (a : Act P) : Prop :=
  ∀ b, a = .syncIter b → s.mem.Dirty b → ¬ s.Uncommitted

structure WriteAhead (dev : LogDev) (d₀ : Nat → Block) (s : Sys P) : Prop where
  before : ¬ s.PastHead → readHead (s.mem.disk dev.start) = [] ∧
    ∀ b, ¬ dev.inLog b → s.mem.disk b = committedDisk d₀ s b
  past : s.PastHead → ∀ b, ¬ dev.inLog b → b ∉ s.lh → s.mem.disk b = committedDisk d₀ s b

section

variable {dev : LogDev} {d₀ : Nat → Block} {s t : Sys P}

theorem applyWrites_header (h : HeaderOk dev s) (d : Nat → Block) {b : Nat} (hb : b ∈ s.lh) :
    applyWrites s.header.blocks d b = s.mem.view b := by
  have hnodup : (s.header.blocks.map Prod.fst).Nodup := by rw [map_fst_header]; exact h.nodup
  have hmem : (b, s.mem.view b) ∈ s.header.blocks := List.mem_map.mpr ⟨b, hb, rfl⟩
  exact applyWrites_of_mem hnodup hmem d

theorem Inv.committedDisk_lh (h : Inv dev d₀ s) (hpast : s.PastHead) {b : Nat} (hb : b ∈ s.lh) :
    committedDisk d₀ s b = s.mem.view b := by
  obtain ⟨p, tail, hp⟩ := hpast
  obtain ⟨hs, hhist⟩ := List.getLast?_eq_some_iff.mp (h.content.last p tail hp)
  rw [committedDisk, hhist, List.flatMap_append, applyWrites_append, List.flatMap_singleton]
  exact applyWrites_header h.header _ hb

theorem WriteAhead.rule (h : Inv dev d₀ s) (hw : WriteAhead dev d₀ s) :
    WriteAheadRule dev d₀ s := by
  constructor
  · intro hnp b hb
    exact (hw.before hnp).2 b (h.header.fits.outside b hb)
  intro crashes b hb
  by_cases hpast : s.PastHead
  · obtain ⟨p, tail, hp⟩ := id hpast
    have hhead := (h.content.committed p tail hp).1
    rw [recover_crashes_spec crashes (by rw [hhead]; exact h.header.fits) b hb, recovered, hhead,
      h.installWrites_eq hp]
    by_cases hbl : b ∈ s.lh
    · rw [h.committedDisk_lh hpast hbl, applyWrites_header h.header _ hbl]
    · rw [applyWrites_of_notMem (by rw [map_fst_header]; exact hbl)]
      exact hw.past hpast b hb hbl
  obtain ⟨hhead, hdisk⟩ := hw.before hpast
  rw [recover_crashes_spec crashes (by rw [hhead]; exact LogFits.nil dev) b hb,
    recovered_of_clean hhead, hdisk b hb]

theorem WriteAhead.of_same (hw : WriteAhead dev d₀ s) (hdisk : t.mem.disk = s.mem.disk)
    (hhist : t.hist = s.hist) (hlh : t.PastHead → t.lh = s.lh) (hpast : t.PastHead ↔ s.PastHead) :
    WriteAhead dev d₀ t := by
  have hcd : committedDisk d₀ t = committedDisk d₀ s := by rw [committedDisk, committedDisk, hhist]
  constructor
  · intro hn
    rw [hdisk, hcd]
    exact hw.before fun hs => hn (hpast.mpr hs)
  · intro ht b hb hbl
    rw [hdisk, hcd]
    exact hw.past (hpast.mp ht) b hb (by rw [← hlh ht]; exact hbl)

theorem writeAhead_init (h : s.Init dev) : WriteAhead dev s.mem.disk s where
  before _ := ⟨h.head, fun b _ => by rw [committedDisk, h.hist]; rfl⟩
  past hp := by
    obtain ⟨p, tail, hp⟩ := hp
    rw [h.procs p] at hp; cases hp

variable [DecidableEq P]

theorem pastHead_update {p : P} {x y : Proc} (ht : t.procs = update s.procs p x)
    (hp : s.procs p = y) (hy : ∀ tail, y ≠ .committing (some (.install tail)))
    (hx : ∀ tail, x ≠ .committing (some (.install tail))) : t.PastHead ↔ s.PastHead := by
  constructor
  · rintro ⟨q, tail, hq⟩
    rw [ht] at hq
    rcases committing_of_update hq with ⟨_, hx'⟩ | ⟨_, hq⟩
    · exact (hx tail hx').elim
    · exact ⟨q, tail, hq⟩
  · rintro ⟨q, tail, hq⟩
    refine ⟨q, tail, ?_⟩
    rw [ht]
    by_cases hqp : q = p
    · subst hqp; exact (hy tail (hp.symm.trans hq)).elim
    · rw [update_of_ne hqp]; exact hq

theorem writeAhead_step {a : Act P} (h : Inv dev d₀ s) (hw : WriteAhead dev d₀ s)
    (hsafe : SyncSafe s a) (hf : Fires dev s a t) : WriteAhead dev d₀ t := by
  have hc := h.control
  cases hf with
  | beginOp p hp _ _ | endOpMore p logged hp _ _ | finish p hp =>
    exact hw.of_same rfl rfl (fun _ => rfl)
      (pastHead_update rfl hp nofun nofun)
  | logWrite p b data logged hp _ _ _ _ _ =>
    refine hw.of_same rfl rfl (fun ht => ?_)
      (pastHead_update rfl hp nofun nofun)
    obtain ⟨q, tail, hq⟩ := ht
    cases hc.committing_inOp hp hq
  | endOpLast p logged hp _ _ =>
    refine hw.of_same rfl rfl (fun _ => rfl)
      (pastHead_update rfl hp nofun (fun tail hx => ?_))
    rcases commitStart_pc hx with ⟨hx, _⟩ | hx <;> cases hx
  | writeLog p tail home hp ht =>
    have hlt := (List.getElem?_eq_some_iff.mp ht).1
    have hiff := pastHead_update (t := s.afterCommitWrite p
      ⟨some (.writeLog (tail + 1)), s.lh, writeLogBlock dev tail home s.mem⟩ s.hist) rfl
      hp nofun nofun
    -- only a log block is written
    have hdisk : ∀ b, ¬ dev.inLog b → (writeLogBlock dev tail home s.mem).disk b = s.mem.disk b :=
      fun b hb => by
        rw [writeLogBlock_disk, update_of_ne (h.header.fits.ne_logBlock hb hlt)]
    refine ⟨fun hn => ?_, fun hpast b hb hbl => ?_⟩
    · obtain ⟨hhead, hd⟩ := hw.before fun hs => hn (hiff.mpr hs)
      refine ⟨?_, fun b hb => ?_⟩
      · show readHead ((writeLogBlock dev tail home s.mem).disk dev.start) = []
        rw [writeLogBlock_disk, update_of_ne (dev.logBlock_ne_start tail).symm, hhead]
      · show (writeLogBlock dev tail home s.mem).disk b = _
        rw [hdisk b hb]
        exact hd b hb
    · show (writeLogBlock dev tail home s.mem).disk b = _
      rw [hdisk b hb]
      exact hw.past (hiff.mp hpast) b hb hbl
  | writeHead p tail hp _ =>
    have hnp : ¬ s.PastHead := by
      rintro ⟨q, j, hq⟩
      have := hc.unique q p _ _ hq hp
      subst this
      rw [hp] at hq; cases hq
    have hd := (hw.before hnp).2
    refine ⟨fun hn => (hn ⟨p, 0, by simp [Sys.afterCommitWrite]⟩).elim, fun _ b hb hbl => ?_⟩
    show (putHead dev s.lh s.mem).disk b =
        applyWrites ((s.hist ++ [s.header]).flatMap (·.blocks)) d₀ b
    rw [putHead_disk, update_of_ne (LogDev.ne_start hb), hd b hb, List.flatMap_append,
      applyWrites_append, List.flatMap_singleton,
      applyWrites_of_notMem (by rw [map_fst_header]; exact hbl)]
    rfl
  | install p tail home hp ht =>
    have hhome : home ∈ s.lh := List.mem_of_getElem? ht
    refine ⟨fun hn => (hn ⟨p, tail + 1, by simp [Sys.afterCommitWrite]⟩).elim, fun _ b hb hbl => ?_⟩
    show (installBlock dev tail home s.mem).disk b = _
    have hne : b ≠ home := by
      rintro rfl
      exact hbl hhome
    rw [installBlock_disk, update_of_ne hne]
    exact hw.past ⟨p, tail, hp⟩ b hb hbl
  | clear p tail hp ht =>
    have hpast : s.PastHead := ⟨p, tail, hp⟩
    have hnt : ¬ (s.afterCommitWrite p ⟨none, [], putHead dev [] s.mem⟩ s.hist).PastHead := by
      rintro ⟨q, j, hq⟩
      cases hc.committing_self hp hq
    refine ⟨fun _ => ⟨?_, fun b hb => ?_⟩, fun hx => (hnt hx).elim⟩
    · show readHead ((putHead dev [] s.mem).disk dev.start) = []
      simp
    · show (putHead dev [] s.mem).disk b = committedDisk d₀ s b
      rw [putHead_disk, update_of_ne (LogDev.ne_start hb)]
      by_cases hbl : b ∈ s.lh
      · -- every block of the header has been installed, so it is clean
        have hclean : ¬ s.mem.Dirty b := by
          intro hd
          have := (h.content.dirty b hd).2 p tail hp
          rw [List.take_of_length_le ht] at this
          exact this hbl
        rw [h.committedDisk_lh hpast hbl, h.content.coherent.view_eq hclean]
      · exact hw.past hpast b hb hbl
  | load b => exact hw.of_same (Mem.load_disk _ _) rfl (fun _ => rfl) .rfl
  | evict b _ _ => exact hw.of_same rfl rfl (fun _ => rfl) .rfl
  | sync b data hb =>
    have hbl := (h.content.dirty b ⟨data, hb⟩).1
    have hpast : s.PastHead := by
      refine Classical.byContradiction fun hn => ?_
      exact hsafe b rfl ⟨data, hb⟩ ⟨List.ne_nil_of_mem hbl, hn⟩
    refine ⟨fun hn => (hn hpast).elim, fun _ x hx hxl => ?_⟩
    show (s.mem.bufferWrite b data).disk x = _
    have hne : x ≠ b := by
      rintro rfl
      exact hxl hbl
    rw [Mem.bufferWrite_disk, update_of_ne hne]
    exact hw.past hpast x hx hxl
  | syncClean b _ => exact hw

/-- **The write-ahead rule holds in every run whose `sync()` iterations find no dirty buffer
    while a transaction is pending.** -/
theorem write_ahead_of_syncSafe {s₀ : Sys P} {acts : List (Act P)} (h₀ : s₀.Init dev)
    (hrun : Run (fun s a t => SyncSafe s a ∧ step dev s a = .next t) s₀ acts s) :
    WriteAheadRule dev s₀.mem.disk s := by
  have hboth : Inv dev s₀.mem.disk s ∧ WriteAhead dev s₀.mem.disk s := by
    refine Run.invariant (I := fun r => Inv dev s₀.mem.disk r ∧ WriteAhead dev s₀.mem.disk r)
      (fun r a u hr hs => ?_) hrun ⟨inv_init h₀, writeAhead_init h₀⟩
    exact ⟨inv_step hr.1 hs.2, writeAhead_step hr.1 hr.2 hs.1 (fires_of_step hs.2)⟩
  exact hboth.2.rule hboth.1

/-- An operation logs a block and commits; `sync()` comes after `write_head`. -/
theorem sync_past_head_runs :
    ∃ s : Sys Unit, Run (fun s a t => SyncSafe s a ∧ step ⟨2, 30, by decide⟩ s a = .next t)
      (Sys.boot fun _ => .zero) [.beginOp (), .logWrite () 50 (fun _ => 1), .endOp (),
        .commitStep (), .commitStep (), .syncIter 50] s ∧
    committedDisk (fun _ => .zero) s 50 = fun _ => 1 := by
  refine ⟨_, .cons ⟨?_, rfl⟩ (.cons ⟨?_, rfl⟩ (.cons ⟨?_, rfl⟩ (.cons ⟨?_, rfl⟩ (.cons ⟨?_, rfl⟩
    (.cons ⟨?_, rfl⟩ (.nil _)))))), rfl⟩
  case refine_6 => exact fun _ _ _ hu => hu.2 ⟨(), 0, rfl⟩
  all_goals intro b hb; cases hb

theorem boot_zero_init : (Sys.boot fun _ => .zero : Sys Unit).Init ⟨2, 30, by decide⟩ :=
  Sys.boot_init (readHead_of_n_zero (ByteBlock.u32_zero 0))

theorem write_ahead_sync_past_head :
    ∃ s : Sys Unit, Run (fun s a t => SyncSafe s a ∧ step ⟨2, 30, by decide⟩ s a = .next t)
      (Sys.boot fun _ => .zero) [.beginOp (), .logWrite () 50 (fun _ => 1),
        .endOp (), .commitStep (), .commitStep (), .syncIter 50] s ∧
    WriteAheadRule ⟨2, 30, by decide⟩ (fun _ => .zero) s := by
  obtain ⟨s, hs, -⟩ := sync_past_head_runs
  exact ⟨s, hs, write_ahead_of_syncSafe boot_zero_init hs⟩

/-! ## Crashes -/

variable {s₀ r : Sys P} {a : Act P}

/-- A crash in `s` goes back to `r`, a moment on a way to it from `s₀`, without running
    operations. -/
structure RollsBack (dev : LogDev) (s₀ s r : Sys P) : Prop where
  before : ∃ as, Run (Outcome.rel (step dev)) s₀ as r
  after : ∃ as, Run (Outcome.rel (step dev)) r as s
  quiet : r.running = []
  ended : ∀ op ∈ s.ended, op.epoch < s.hist.length → op ∈ r.ended
  view : ∀ b, ¬ dev.inLog b → committedDisk s₀.mem.disk s b = r.mem.view b

theorem rollsBack_init (h : s.Init dev) : RollsBack dev s s s where
  before := ⟨[], .nil s⟩
  after := ⟨[], .nil s⟩
  quiet := h.running
  ended _ hop _ := hop
  view b hb := by rw [(content_init h).view b hb, h.mods, committedDisk, h.hist]; rfl

theorem RollsBack.step (h : RollsBack dev s₀ s r) (hstep : Log.step dev s a = .next t)
    (ht : Inv dev s₀.mem.disk t) (hw : WriteAhead dev s₀.mem.disk t) :
    ∃ r, RollsBack dev s₀ t r := by
  obtain ⟨as, has⟩ := h.before
  obtain ⟨bs, hbs⟩ := h.after
  have hafter := hbs.snoc hstep
  cases fires_of_step hstep with
  | endOpLast p logged | endOpMore p logged =>
    refine ⟨r, h.before, ⟨_, hafter⟩, h.quiet, fun op hop hlt => ?_, h.view⟩
    rcases List.mem_append.mp hop with hop | hop
    · exact h.ended op hop hlt
    · rw [List.mem_singleton.mp hop] at hlt
      exact absurd hlt (Nat.lt_irrefl _)
  | writeHead p tail =>
    have hp := update_self p (Proc.committing (some (.install 0))) s.procs
    refine ⟨_, ⟨_, has.append hafter⟩, ⟨[], .nil _⟩, (ht.control.flag p _ hp).2,
      fun _ hop _ => hop, fun b hb => ?_⟩
    by_cases hbl : b ∈ s.lh
    · exact ht.committedDisk_lh ⟨p, 0, hp⟩ hbl
    · rw [← hw.past ⟨p, 0, hp⟩ b hb hbl,
        ht.content.coherent.view_eq fun hd => hbl (ht.content.dirty b hd).1]
  | _ => exact ⟨r, h.before, ⟨_, hafter⟩, h.quiet, h.ended, h.view⟩

/-- **A crash goes back to a moment without running operations**, however often recovery crashes
    too. -/
theorem crash_rolls_back {acts : List (Act P)} (h₀ : s₀.Init dev)
    (hrun : Run (fun s a t => SyncSafe s a ∧ Log.step dev s a = .next t) s₀ acts s) :
    ∃ r, RollsBack dev s₀ s r ∧ ∀ (crashes : List Nat) b, ¬ dev.inLog b →
      recoverFromLog dev (crashes.foldl (crashRecover dev) s.mem.disk) b = r.mem.view b := by
  obtain ⟨⟨hs, hw⟩, r, hr⟩ := Run.invariant (I :=
      fun s => (Inv dev s₀.mem.disk s ∧ WriteAhead dev s₀.mem.disk s) ∧ ∃ r, RollsBack dev s₀ s r)
    (fun s a t hs ht => by
      obtain ⟨⟨hs, hw⟩, r, hr⟩ := hs
      have hinv := inv_step hs ht.2
      have hwa := writeAhead_step hs hw ht.1 (fires_of_step ht.2)
      exact ⟨⟨hinv, hwa⟩, hr.step ht.2 hinv hwa⟩) hrun
        ⟨⟨inv_init h₀, writeAhead_init h₀⟩, s₀, rollsBack_init h₀⟩
  exact ⟨r, hr, fun crashes b hb => ((hw.rule hs).2 crashes b hb).trans (hr.view b hb)⟩

/-- The operation has ended and its header is written: it is among what recovery shows. -/
theorem crash_rolls_back_past_head :
    ∃ s r : Sys Unit, Run (fun s a t => SyncSafe s a ∧ Log.step ⟨2, 30, by decide⟩ s a = .next t)
      (Sys.boot fun _ => .zero) [.beginOp (), .logWrite () 50 (fun _ => 1), .endOp (),
        .commitStep (), .commitStep (), .syncIter 50] s ∧
    RollsBack ⟨2, 30, by decide⟩ (Sys.boot fun _ => .zero) s r ∧
    (r.mem.view 50 = fun _ => 1) ∧
    ∀ (crashes : List Nat) b, ¬ (⟨2, 30, by decide⟩ : LogDev).inLog b →
      recoverFromLog ⟨2, 30, by decide⟩
        (crashes.foldl (crashRecover ⟨2, 30, by decide⟩) s.mem.disk) b = r.mem.view b := by
  obtain ⟨s, hs, hcommitted⟩ := sync_past_head_runs
  obtain ⟨r, hr, hrecover⟩ := crash_rolls_back boot_zero_init hs
  exact ⟨s, r, hs, hr, (hr.view 50 (by decide)).symm.trans hcommitted, hrecover⟩

end

/-- **`sync()` breaks the rule**: one operation logs block 50, and before it ends `sync()`
    finds the buffer dirty and writes it home. -/
theorem sync_breaks_write_ahead :
    ∃ s : Sys Unit, Outcome.exec (step ⟨2, 30, by decide⟩) (Sys.boot fun _ => .zero)
      [.beginOp (), .logWrite () 50 (fun _ => 1), .syncIter 50] = some s ∧
    s.hist = [] ∧ ¬ WriteAheadRule ⟨2, 30, by decide⟩ (fun _ => .zero) s := by
  obtain ⟨s, hs, hproc, hlh, hhist, hdisk⟩ :
      ∃ s : Sys Unit, Outcome.exec (step ⟨2, 30, by decide⟩) (Sys.boot fun _ => .zero)
        [.beginOp (), .logWrite () 50 (fun _ => 1), .syncIter 50] = some s ∧
      s.procs () = .inOp [50] ∧ s.lh = [50] ∧ s.hist = [] ∧ s.mem.disk 50 = fun _ => 1 :=
    ⟨_, rfl, rfl, rfl, rfl, rfl⟩
  refine ⟨s, hs, hhist, fun h => ?_⟩
  have hnp : ¬ s.PastHead := by
    rintro ⟨p, tail, hp⟩
    rw [hproc] at hp
    cases hp
  have hhome := h.1 hnp 50 (by rw [hlh]; exact List.mem_singleton.mpr rfl)
  rw [hdisk, committedDisk, hhist] at hhome
  have : (1 : UInt8) = 0 := congrFun hhome ⟨0, by decide⟩
  exact absurd this (by decide)

end Micro86.Log
