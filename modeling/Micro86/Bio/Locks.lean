import Micro86.Bio.Cache
import Micro86.Lib.Counting

/-!
# Locks and reference counts of buffers

A process that uses a buffer counts a reference first and takes the lock then; `buffer_release`
gives them back in the other order.  `sync()` takes the lock without counting a reference.

* `Locks` — who holds a lock, who waits for the disk, and what `refcnt` counts.
* `locked_not_recycled` — runs in which `sync()` holds the lock only of buffers some process counts.
* `sync_loses_buffer` — a run in which the buffer `sync()` writes is recycled for another block.
-/

namespace Micro86.Bio

open Ide (BufId Buf)
open Function

namespace Pos

variable {x : Pos} {b : BufId}

/-- The buffer whose lock a process holds in the middle of a call. -/
def holds : Pos → Option BufId
  | gotten _ b | fetching _ b | writing b | syncing b _ | syncWriting b _ => some b
  | _ => none

/-- The buffer a process waits for in `ide_dirty_write`. -/
def waits : Pos → Option BufId
  | fetching _ b | writing b | syncWriting b _ => some b
  | _ => none

/-- The buffer whose lock a process holds in `sync`. -/
def syncHolds : Pos → Option BufId
  | syncing b _ | syncWriting b _ => some b
  | _ => none

/-- The buffer a process counts a reference to without its lock. -/
def counts : Pos → Option BufId
  | locking _ b | releasing b => some b
  | _ => none

def refs (x : Pos) (b : BufId) : Nat := if x.counts = some b then 1 else 0

theorem refs_of_counts (h : x.counts = some b) : x.refs b = 1 := if_pos h

theorem refs_of_not (h : x.counts ≠ some b) : x.refs b = 0 := if_neg h

theorem holds_of_waits (h : x.waits = some b) : x.holds = some b := by
  cases x <;> first | exact h | cases h

theorem holds_of_syncHolds (h : x.syncHolds = some b) : x.holds = some b := by
  cases x <;> first | exact h | cases h

end Pos

variable {P : Type} [DecidableEq P]

/-- 1 if the lock is held by a process that counted a reference. -/
def Cache.held (s : Cache P) (b : BufId) : Nat :=
  match s.owner b with
  | none => 0
  | some p => if (s.pos p).syncHolds = some b then 0 else 1

structure Locks [Fintype P] (s : Cache P) : Prop where
  holds : ∀ p b, (s.pos p).holds = some b → s.owner b = some p
  waits : ∀ b, s.ide.inCall b = true ↔ ∃ p, (s.pos p).waits = some b
  count : ∀ b, s.refcnt b = s.held b + ∑ p, (s.pos p).refs b

/-! ## Calls of the driver -/

section

variable {s t : Ide.Sys} {b : BufId}

theorem ideStart_frame (h : Ide.ideStart s b = .next t) :
    t.bufs = s.bufs ∧ t.disk = s.disk ∧ t.inCall = s.inCall := by
  unfold Ide.ideStart at h
  split at h
  · cases h
  · cases h
    exact ⟨rfl, rfl, rfl⟩

theorem ideDirtyWrite_frame (h : Ide.ideDirtyWrite s b = .next t) :
    t.bufs = s.bufs ∧ t.disk = s.disk ∧ t.inCall = update s.inCall b true := by
  unfold Ide.ideDirtyWrite at h
  split at h
  · cases h
  split at h
  · cases h
  split at h
  · cases h
  split at h
  · exact ideStart_frame h
  · cases h
    exact ⟨rfl, rfl, rfl⟩

theorem resume_frame (h : Ide.resume s b = .next t) :
    t.bufs = s.bufs ∧ t.disk = s.disk ∧ (t.inCall = s.inCall ∧ s.inCall b = true ∨
      (s.bufs b).finished = true ∧ t.inCall = update s.inCall b false) := by
  unfold Ide.resume at h
  split at h
  · cases h
  rename_i hcall
  rw [not_or, Bool.not_eq_false] at hcall
  split at h
  · rename_i hfin
    cases h
    exact ⟨rfl, rfl, .inr ⟨hfin, rfl⟩⟩
  · cases h
    exact ⟨rfl, rfl, .inl ⟨rfl, hcall.1⟩⟩

theorem complete_frame (h : Ide.complete s = .next t) : t.inCall = s.inCall := by
  unfold Ide.complete at h
  split at h
  · split at h
    · cases h
      rfl
    · cases h
      rfl
  · cases h

theorem interrupt_frame (h : Ide.ideInterrupt s = .next t) : t.inCall = s.inCall := by
  unfold Ide.ideInterrupt at h
  split at h
  · split at h
    · cases h
      rfl
    split at h
    · cases h
      rfl
    · exact (ideStart_frame h).2.2
  · cases h

end

/-! ## One process takes a step -/

section

variable {s t : Cache P} {p : P} {y : Pos}

section

variable (hpos : t.pos = update s.pos p y)
include hpos

theorem pos_move_self : t.pos p = y := by
  rw [hpos, update_self]

theorem pos_move_ne {q : P} (hq : q ≠ p) : t.pos q = s.pos q := by
  rw [hpos, update_of_ne hq]

/-- The lock of a buffer counts the same as before, if it has the same owner and `p` is in `sync`
with it as before. -/
theorem held_move {b : BufId} (howner : t.owner b = s.owner b)
    (hy : y.syncHolds = some b ↔ (s.pos p).syncHolds = some b) : t.held b = s.held b := by
  unfold Cache.held
  rw [howner]
  cases s.owner b with
  | none => rfl
  | some q =>
    by_cases hq : q = p
    · subst hq
      simp [pos_move_self hpos, hy]
    · simp [pos_move_ne hpos hq]

theorem waits_move {b : BufId} (hy : y.waits = some b ↔ (s.pos p).waits = some b) :
    (∃ q, (s.pos q).waits = some b) ↔ ∃ q, (t.pos q).waits = some b := by
  refine exists_congr (fun q => ?_)
  by_cases hq : q = p
  · rw [hq, pos_move_self hpos, hy]
  · rw [pos_move_ne hpos hq]

end

variable [Fintype P]

theorem sum_refs_move (hpos : t.pos = update s.pos p y) (b : BufId) :
    ∑ q, (t.pos q).refs b + (s.pos p).refs b = ∑ q, (s.pos q).refs b + y.refs b := by
  rw [hpos]
  exact sum_update (Finset.mem_univ p) s.pos y (fun x => x.refs b)

variable (h : Locks s) (hpos : t.pos = update s.pos p y)
include h hpos

theorem waits_same (hcall : t.ide.inCall = s.ide.inCall)
    (hy : y.waits = (s.pos p).waits) (b : BufId) :
    t.ide.inCall b = true ↔ ∃ q, (t.pos q).waits = some b := by
  rw [hcall, h.waits b]
  exact waits_move hpos (by rw [hy])

theorem waits_start {b : BufId} (hcall : t.ide.inCall = update s.ide.inCall b true)
    (hold : (s.pos p).waits = none) (hy : y.waits = some b)
    (a : BufId) : t.ide.inCall a = true ↔ ∃ q, (t.pos q).waits = some a := by
  rw [hcall]
  refine update_cases a ?_ fun hab => ?_
  · exact ⟨fun _ => ⟨p, by rw [pos_move_self hpos, hy]⟩, fun _ => rfl⟩
  · rw [h.waits a]
    refine waits_move hpos ?_
    rw [hold, hy]
    exact ⟨fun he => absurd (Option.some.inj he).symm hab, fun he => absurd he (by simp)⟩

theorem waits_stop {b : BufId} (hcall : t.ide.inCall = update s.ide.inCall b false)
    (hold : (s.pos p).waits = some b) (hy : y.waits = none)
    (a : BufId) : t.ide.inCall a = true ↔ ∃ q, (t.pos q).waits = some a := by
  have howner : s.owner b = some p := h.holds p b (Pos.holds_of_waits hold)
  rw [hcall]
  refine update_cases a ?_ fun hab => ?_
  · refine ⟨fun he => absurd he (by decide), ?_⟩
    rintro ⟨q, hq⟩
    -- only the owner of the lock waits for the disk
    by_cases hqp : q = p
    · rw [hqp, pos_move_self hpos, hy] at hq
      cases hq
    rw [pos_move_ne hpos hqp] at hq
    have := h.holds q b (Pos.holds_of_waits hq)
    rw [howner] at this
    exact absurd (Option.some.inj this).symm hqp
  · rw [h.waits a]
    refine waits_move hpos ?_
    rw [hold, hy]
    exact ⟨fun he => absurd he (by simp), fun he => absurd (Option.some.inj he).symm hab⟩

theorem Locks.keepOwners (howner : t.owner = s.owner)
    (hholds : ∀ b, y.holds = some b → s.owner b = some p)
    (hsync : y.syncHolds = (s.pos p).syncHolds)
    (hwaits : ∀ b, t.ide.inCall b = true ↔ ∃ q, (t.pos q).waits = some b)
    (hcount : ∀ b, t.refcnt b + (s.pos p).refs b = s.refcnt b + y.refs b) : Locks t := by
  refine ⟨fun q b hq => ?_, hwaits, fun b => ?_⟩
  · rw [howner]
    by_cases hqp : q = p
    · subst hqp
      rw [pos_move_self hpos] at hq
      exact hholds b hq
    · rw [pos_move_ne hpos hqp] at hq
      exact h.holds q b hq
  · have hheld : t.held b = s.held b := held_move hpos (by rw [howner]) (by rw [hsync])
    have hsum := sum_refs_move hpos b
    have hold := h.count b
    have hb := hcount b
    omega

/-- `p` takes the lock of `b`; it counted its reference before, or is in `sync`. -/
theorem Locks.acquire {b : BufId} (hfree : s.owner b = none)
    (howner : t.owner = update s.owner b (some p)) (hy : y.holds = some b)
    (hold : (s.pos p).holds = none)
    (hywaits : y.waits = none) (hcall : t.ide.inCall = s.ide.inCall) (hrefcnt : t.refcnt = s.refcnt)
    (hcounts : y.counts = none) (hgive : (s.pos p).counts = if y.syncHolds = some b then none
      else some b) : Locks t := by
  have hnowait : (s.pos p).waits = none := by
    by_contra hne
    obtain ⟨a, ha⟩ := Option.ne_none_iff_exists'.mp hne
    rw [Pos.holds_of_waits ha] at hold
    cases hold
  refine ⟨fun q a hq => ?_, waits_same h hpos hcall (by rw [hywaits, hnowait]), fun a => ?_⟩
  · rw [howner]
    by_cases hqp : q = p
    · subst hqp
      rw [pos_move_self hpos, hy] at hq
      cases hq
      exact update_self ..
    rw [pos_move_ne hpos hqp] at hq
    have hqa := h.holds q a hq
    have hab : a ≠ b := by
      rintro rfl
      rw [hfree] at hqa
      cases hqa
    rw [update_of_ne hab]
    exact hqa
  · have hsum := sum_refs_move hpos a
    have hcount := h.count a
    have hyrefs : y.refs a = 0 := by rw [Pos.refs, hcounts]; rfl
    rw [hrefcnt]
    by_cases hab : a = b
    · subst hab
      have hnew : t.held a = if y.syncHolds = some a then 0 else 1 := by
        simp [Cache.held, howner, pos_move_self hpos]
      have hold' : s.held a = 0 := by simp only [Cache.held, hfree]
      have hrefs : (s.pos p).refs a = if y.syncHolds = some a then 0 else 1 := by
        rw [Pos.refs, hgive]
        split
        · rfl
        · exact if_pos rfl
      omega
    · have hheld : t.held a = s.held a := by
        refine held_move hpos (by rw [howner, update_of_ne hab]) ⟨fun hs => ?_, fun hs => ?_⟩
        · have := Pos.holds_of_syncHolds hs
          rw [hy] at this
          exact absurd (Option.some.inj this).symm hab
        · have := Pos.holds_of_syncHolds hs
          rw [hold] at this
          cases this
      have hrefs : (s.pos p).refs a = 0 := by
        rw [Pos.refs, hgive]
        split
        · rfl
        · exact if_neg (fun he => hab (Option.some.inj he).symm)
      omega

/-- `p` gives the lock of `b` back; it keeps its reference, or is in `sync`. -/
theorem Locks.giveUp {b : BufId} (hmine : s.owner b = some p)
    (howner : t.owner = update s.owner b none) (hy : y.holds = none)
    (hhold : ∀ a, (s.pos p).holds = some a → a = b) (hwaits : ∀ a, t.ide.inCall a = true ↔
      ∃ q, (t.pos q).waits = some a)
    (hrefcnt : t.refcnt = s.refcnt) (hcounts : (s.pos p).counts = none)
    (hkeep : y.counts = if (s.pos p).syncHolds = some b then none else some b) : Locks t := by
  refine ⟨fun q a hq => ?_, hwaits, fun a => ?_⟩
  · rw [howner]
    have hqp : q ≠ p := by
      rintro rfl
      rw [pos_move_self hpos, hy] at hq
      cases hq
    rw [pos_move_ne hpos hqp] at hq
    have hqa := h.holds q a hq
    have hab : a ≠ b := by
      rintro rfl
      rw [hmine] at hqa
      exact hqp (Option.some.inj hqa).symm
    rw [update_of_ne hab]
    exact hqa
  · have hsum := sum_refs_move hpos a
    have hcount := h.count a
    have hrefs : (s.pos p).refs a = 0 := by rw [Pos.refs, hcounts]; rfl
    rw [hrefcnt]
    by_cases hab : a = b
    · subst hab
      have hnew : t.held a = 0 := by simp only [Cache.held, howner, update_self]
      have hold : s.held a = if (s.pos p).syncHolds = some a then 0
          else 1 := by simp only [Cache.held, hmine]
      have hyrefs : y.refs a = if (s.pos p).syncHolds = some a then 0 else 1 := by
        rw [Pos.refs, hkeep]
        split
        · rfl
        · exact if_pos rfl
      omega
    · have hheld : t.held a = s.held a := by
        refine held_move hpos (by rw [howner, update_of_ne hab]) ⟨fun hs => ?_, fun hs => ?_⟩
        · have := Pos.holds_of_syncHolds hs
          rw [hy] at this
          cases this
        · exact absurd (hhold a (Pos.holds_of_syncHolds hs)) hab
      have hyrefs : y.refs a = 0 := by
        rw [Pos.refs, hkeep]
        split
        · rfl
        · exact if_neg (fun he => hab (Option.some.inj he).symm)
      omega

end

/-! ## Steps -/

section

variable {s t : Cache P} {p : P} {b : BufId}

section

omit [DecidableEq P]

theorem resumeIde_cases {done : Cache P → Cache P} (h : s.resumeIde b done = .next t) :
    ∃ ide, Ide.resume s.ide b = .next ide ∧ (ide.bufs = s.ide.bufs ∧ ide.disk = s.ide.disk) ∧
      (t = { s with ide := ide } ∧ ide.inCall = s.ide.inCall ∨
        t = done { s with ide := ide } ∧ (s.ide.bufs b).finished = true ∧
          ide.inCall = update s.ide.inCall b false) := by
  unfold Cache.resumeIde at h
  split at h
  · rename_i ide hide
    obtain ⟨hbufs, hdisk, hcall⟩ := resume_frame hide
    cases h
    refine ⟨ide, hide, ⟨hbufs, hdisk⟩, ?_⟩
    rcases hcall with ⟨hsame, hb⟩ | ⟨hfin, hdone⟩
    · rw [if_pos (by rw [hsame]; exact hb)]
      exact .inl ⟨rfl, hsame⟩
    · rw [if_neg (by rw [hdone, update_self]; decide)]
      exact .inr ⟨rfl, hfin, hdone⟩
  · cases h
  · cases h

theorem ideStep_cases {a : Ide.Act} (h : ideStep s a = .next t) :
    ∃ ide, t = { s with ide := ide } ∧ Ide.step s.ide a = .next ide := by
  unfold ideStep at h
  split at h
  · rename_i ide hide
    cases h
    exact ⟨ide, rfl, hide⟩
  · cases h
  · cases h

theorem dropRef_frame (s : Cache P) (b : BufId) :
    (s.dropRef b).pos = s.pos ∧ (s.dropRef b).owner = s.owner ∧ (s.dropRef b).ide = s.ide ∧
      (s.dropRef b).refcnt = update s.refcnt b (s.refcnt b - 1) := by
  unfold Cache.dropRef
  split
  · exact ⟨rfl, rfl, rfl, rfl⟩
  · exact ⟨rfl, rfl, rfl, rfl⟩

variable [Fintype P]

theorem Locks.ofIde (h : Locks s) {ide : Ide.Sys} (hcall : ide.inCall = s.ide.inCall) :
    Locks { s with ide := ide } :=
  ⟨h.holds,
    fun a => by rw [← h.waits a]; exact iff_of_eq (congrArg (fun f => f a = true) hcall), h.count⟩

theorem Locks.modify (h : Locks s) (b : BufId) (data : Block) :
    Locks (s.modify b data) := ⟨h.holds, h.waits, h.count⟩

theorem Locks.resumeIde (h : Locks s) {done : Cache P → Cache P}
    (hdone : ∀ ide : Ide.Sys, ide.inCall = update s.ide.inCall b false →
      Locks (done { s with ide := ide }))
    (ht : s.resumeIde b done = .next t) : Locks t := by
  obtain ⟨ide, -, -, ⟨rfl, hcall⟩ | ⟨rfl, -, hcall⟩⟩ := resumeIde_cases ht
  · exact h.ofIde hcall
  · exact hdone ide hcall

theorem Cache.Cold.locks (h : s.Cold) : Locks s := by
  refine ⟨fun p b hp => ?_, fun b => ?_, fun b => ?_⟩
  · rw [h.pos p] at hp
    cases hp
  · rw [h.ide.inCall b]
    refine ⟨fun he => absurd he (by decide), ?_⟩
    rintro ⟨p, hp⟩
    rw [h.pos p] at hp
    cases hp
  · have hsum : ∑ p, (s.pos p).refs b = 0 := Finset.sum_eq_zero (fun p _ => by rw [h.pos p]; rfl)
    rw [h.refcnt b, hsum, Cache.held, h.owner b]

theorem Locks.counted (h : Locks s) (hb : s.owner b = some p) (hp : (s.pos p).syncHolds ≠ some b) :
    1 ≤ s.refcnt b := by
  have hcount := h.count b
  have hheld : s.held b = 1 := by
    simp only [Cache.held, hb]
    exact if_neg hp
  omega

end

theorem callIde_cases {x : Pos} (h : s.callIde p b x = .next t) :
    ∃ ide, t = { s with ide := ide }.moveTo p x ∧ Ide.ideDirtyWrite s.ide b = .next ide := by
  unfold Cache.callIde at h
  split at h
  · rename_i ide hide
    cases h
    exact ⟨ide, rfl, hide⟩
  · cases h
  · cases h

/-- `buffer_get` finds a buffer of the block or recycles one nobody counts; either way it counts one
reference more. -/
theorem bufferGet_cases {k : Key} (h : s.bufferGet p k = .next t) :
    ∃ b, t.pos = update s.pos p (.locking k b) ∧ t.owner = s.owner ∧ t.ide.inCall = s.ide.inCall ∧
      t.refcnt = update s.refcnt b (s.refcnt b + 1) ∧
      (s.cached k = some b ∧ t = (s.setRef b (s.refcnt b + 1)).moveTo p (.locking k b) ∨
        s.cached k = none ∧ s.refcnt b = 0 ∧ (s.ide.bufs b).dirty = false ∧
          t = (s.recycle k b).moveTo p (.locking k b)) := by
  unfold Cache.bufferGet at h
  split at h
  · rename_i b hb
    cases h
    exact ⟨b, rfl, rfl, rfl, rfl, .inl ⟨hb, rfl⟩⟩
  rename_i hnone
  split at h
  · rename_i b hb
    cases h
    have hp := search_some hb
    simp only [decide_eq_true_eq] at hp
    refine ⟨b, rfl, rfl, rfl, ?_, .inr ⟨hnone, hp.1, hp.2, rfl⟩⟩
    rw [hp.1]
    rfl
  · cases h

variable [Fintype P]

theorem Locks.callIde (h : Locks s) {x : Pos} (hwas : (s.pos p).waits = none)
    (hmine : s.owner b = some p)
    (hx : x.waits = some b) (hxcounts : x.counts = none) (hcounts : (s.pos p).counts = none)
    (hsync : x.syncHolds = (s.pos p).syncHolds) (ht : s.callIde p b x = .next t) : Locks t := by
  obtain ⟨ide, rfl, hide⟩ := callIde_cases ht
  obtain ⟨-, -, hcall⟩ := ideDirtyWrite_frame hide
  refine h.keepOwners rfl rfl (fun a ha => ?_) hsync (waits_start h rfl hcall hwas hx) (fun a => ?_)
  · rw [Pos.holds_of_waits hx] at ha
    cases ha
    exact hmine
  · rw [Pos.refs, Pos.refs, hxcounts, hcounts]
    rfl

theorem Locks.go (h : Locks s) (ht : go s p = .next t) : Locks t := by
  unfold Bio.go at ht
  split at ht
  · cases ht
  · rename_i k b hpos
    split at ht
    · rename_i hfree
      cases ht
      exact h.acquire rfl hfree rfl rfl (by rw [hpos]; rfl) rfl rfl rfl rfl (by rw [hpos]; rfl)
    · cases ht
  · rename_i k b hpos
    have hmine : s.owner b = some p := h.holds p b (by rw [hpos]; rfl)
    split at ht
    · cases ht
      refine h.keepOwners rfl rfl nofun (by rw [hpos]; rfl)
        (waits_same h rfl rfl (by rw [hpos]; rfl)) (fun a => by rw [hpos]; rfl)
    · exact h.callIde (by rw [hpos]; rfl) hmine rfl rfl (by rw [hpos]; rfl) (by rw [hpos]; rfl) ht
  · rename_i k b hpos
    refine h.resumeIde (fun ide hcall => ?_) ht
    exact h.keepOwners rfl rfl nofun (by rw [hpos]; rfl)
      (waits_stop h rfl hcall (by rw [hpos]; rfl) rfl) (fun a => by rw [hpos]; rfl)
  · rename_i b hpos
    refine h.resumeIde (fun ide hcall => ?_) ht
    exact h.keepOwners rfl rfl nofun (by rw [hpos]; rfl)
      (waits_stop h rfl hcall (by rw [hpos]; rfl) rfl) (fun a => by rw [hpos]; rfl)
  · rename_i b hpos
    cases ht
    obtain ⟨hdpos, hdowner, hdide, hdref⟩ := dropRef_frame s b
    refine h.keepOwners (by rw [Cache.moveTo, hdpos]) hdowner (fun a ha => by cases ha)
      (by rw [hpos]; rfl) (waits_same h (by rw [Cache.moveTo, hdpos])
        (by rw [Cache.moveTo, hdide]) (by rw [hpos]; rfl))
      (fun a => ?_)
    -- the reference given back was counted
    have hcount := h.count b
    have hmine : (s.pos p).refs b ≤ ∑ q, (s.pos q).refs b :=
      le_sum (Finset.mem_univ p) (fun q => (s.pos q).refs b)
    rw [hpos, Pos.refs_of_counts rfl] at hmine
    show (s.dropRef b).refcnt a + _ = _
    rw [hdref, hpos, Pos.refs_of_not (x := .idle) (by simp [Pos.counts])]
    refine update_cases a ?_ fun hab => ?_
    · rw [Pos.refs_of_counts rfl]
      omega
    · rw [Pos.refs_of_not (x := .releasing b) (fun he => hab (Option.some.inj he).symm)]
  · rename_i hpos
    cases ht
    exact h.keepOwners rfl rfl nofun (by rw [hpos]; rfl)
      (waits_same h rfl rfl (by rw [hpos]; rfl)) (fun a => by rw [hpos]; rfl)
  · rename_i b rest hpos
    split at ht
    · rename_i hfree
      cases ht
      exact h.acquire rfl hfree rfl rfl (by rw [hpos]; rfl) rfl rfl rfl rfl
        (by rw [hpos]; exact (if_pos rfl).symm)
    · cases ht
  · rename_i b rest hpos
    have hmine : s.owner b = some p := h.holds p b (by rw [hpos]; rfl)
    split at ht
    · exact h.callIde (by rw [hpos]; rfl) hmine rfl rfl (by rw [hpos]; rfl) (by rw [hpos]; rfl) ht
    cases ht
    exact h.giveUp rfl hmine rfl rfl (fun a ha => by rw [hpos] at ha; cases ha; rfl)
      (waits_same h rfl rfl (by rw [hpos]; rfl)) rfl (by rw [hpos]; rfl)
        (by rw [hpos]; exact (if_pos rfl).symm)
  · rename_i b rest hpos
    have hmine : s.owner b = some p := h.holds p b (by rw [hpos]; rfl)
    refine h.resumeIde (fun ide hcall => ?_) ht
    exact h.giveUp rfl hmine rfl rfl (fun a ha => by rw [hpos] at ha; cases ha; rfl)
      (waits_stop h rfl hcall (by rw [hpos]; rfl) rfl) rfl (by rw [hpos]; rfl)
        (by rw [hpos]; exact (if_pos rfl).symm)

theorem Locks.step {a : Act P} (h : Locks s) (ht : step s a = .next t) : Locks t := by
  unfold Bio.step at ht
  split at ht
  · rename_i p k
    split at ht
    · rename_i hidle
      obtain ⟨b, hpos, howner, hcall, href, -⟩ := bufferGet_cases ht
      refine h.keepOwners hpos howner nofun (by rw [hidle]; rfl)
        (waits_same h hpos hcall (by rw [hidle]; rfl)) (fun a => ?_)
      rw [href, hidle, Pos.refs_of_not (by simp [Pos.counts])]
      refine update_cases a ?_ fun hab => ?_
      · rw [Pos.refs_of_counts rfl]
      · rw [Pos.refs_of_not (x := .locking k b) (fun he => hab (Option.some.inj he).symm)]
    · cases ht
  · exact h.go ht
  · split at ht
    · cases ht
      exact h.modify _ _
    · cases ht
  · rename_i p b data
    split at ht
    · rename_i hp
      have hmod := h.modify b data
      exact hmod.callIde (by rw [show (s.modify b data).pos p = _ from hp.1]; rfl) hp.2 rfl rfl
        (by rw [show (s.modify b data).pos p = _ from hp.1]; rfl)
          (by rw [show (s.modify b data).pos p = _ from hp.1]; rfl) ht
    · cases ht
  · rename_i p b
    split at ht
    · rename_i hp
      cases ht
      exact h.giveUp rfl hp.2 rfl rfl (fun a ha => by rw [hp.1] at ha; cases ha)
        (waits_same h rfl rfl (by rw [hp.1]; rfl)) rfl (by rw [hp.1]; rfl) (by rw [hp.1]; rfl)
    · cases ht
  · rename_i p
    split at ht
    · rename_i hidle
      cases ht
      exact h.keepOwners rfl rfl nofun (by rw [hidle]; rfl)
        (waits_same h rfl rfl (by rw [hidle]; rfl)) (fun a => by rw [hidle]; rfl)
    · cases ht
  · obtain ⟨ide, rfl, hide⟩ := ideStep_cases ht
    exact h.ofIde (complete_frame hide)
  · obtain ⟨ide, rfl, hide⟩ := ideStep_cases ht
    exact h.ofIde (interrupt_frame hide)
  · obtain ⟨ide, rfl, hide⟩ := ideStep_cases ht
    cases hide
    exact h.ofIde rfl

end

/-! ## Runs -/

/-- `sync` takes the lock of a buffer only while some process counts a reference to it, and the last
reference is not given back while `sync` has the lock. -/
def Act.Ok (s : Cache P) : Act P → Prop
  | .go p =>
    match s.pos p with
    | .sync (b :: _) => 1 ≤ s.refcnt b
    | .releasing b => (∃ q, (s.pos q).syncHolds = some b) → 2 ≤ s.refcnt b
    | _ => True
  | _ => True

def SyncCounted (s : Cache P) : Prop := ∀ p b, (s.pos p).syncHolds = some b → 1 ≤ s.refcnt b

section

variable {s t : Cache P} {p : P}

theorem SyncCounted.mono (h : SyncCounted s) {y : Pos} (hpos : t.pos = update s.pos p y)
    (hy : ∀ b, y.syncHolds = some b → (s.pos p).syncHolds = some b ∨
      1 ≤ s.refcnt b) (href : ∀ b, s.refcnt b ≤ t.refcnt b) :
    SyncCounted t := by
  intro q b hq
  by_cases hqp : q = p
  · subst hqp
    rw [pos_move_self hpos] at hq
    exact ((hy b hq).elim (h q b) id).trans (href b)
  · rw [pos_move_ne hpos hqp] at hq
    exact (h q b hq).trans (href b)

theorem SyncCounted.callIde (h : SyncCounted s) {b : BufId} {x : Pos}
    (hx : ∀ a, x.syncHolds = some a → (s.pos p).syncHolds = some a)
    (ht : s.callIde p b x = .next t) : SyncCounted t := by
  obtain ⟨ide, rfl, -⟩ := callIde_cases ht
  exact h.mono rfl (fun a ha => .inl (hx a ha)) (fun _ => le_rfl)

variable (h : SyncCounted s)
include h

omit [DecidableEq P] in
theorem SyncCounted.resumeIde {b : BufId} {done : Cache P → Cache P}
    (hdone : ∀ ide : Ide.Sys, SyncCounted (done { s with ide := ide }))
    (ht : s.resumeIde b done = .next t) : SyncCounted t := by
  obtain ⟨ide, -, -, ⟨rfl, -⟩ | ⟨rfl, -, -⟩⟩ := resumeIde_cases ht
  · exact h
  · exact hdone ide

theorem SyncCounted.go (hok : (Act.go p).Ok s) (ht : go s p = .next t) : SyncCounted t := by
  have hmove : ∀ {u : Cache P} {y : Pos}, u.pos = update s.pos p y →
      u.refcnt = s.refcnt → y.syncHolds = none → SyncCounted u :=
    fun hpos href hy => h.mono hpos (fun a ha => by rw [hy] at ha; cases ha) (fun a => by rw [href])
  unfold Bio.go at ht
  unfold Act.Ok at hok
  dsimp only at hok
  split at ht
  · cases ht
  · split at ht
    · cases ht
      exact hmove rfl rfl rfl
    · cases ht
  · split at ht
    · cases ht
      exact hmove rfl rfl rfl
    · exact h.callIde (fun a ha => by cases ha) ht
  · exact h.resumeIde (fun ide => hmove rfl rfl rfl) ht
  · exact h.resumeIde (fun ide => hmove rfl rfl rfl) ht
  · rename_i b hpos
    cases ht
    rw [hpos] at hok
    obtain ⟨hdpos, -, -, hdref⟩ := dropRef_frame s b
    intro q a hq
    have hmoved :
        ((s.dropRef b).moveTo p .idle).pos = update s.pos p .idle := by rw [Cache.moveTo, hdpos]
    have hold : (s.pos q).syncHolds = some a := by
      by_cases hqp : q = p
      · rw [hqp, pos_move_self hmoved] at hq
        cases hq
      · rwa [pos_move_ne hmoved hqp] at hq
    show 1 ≤ (s.dropRef b).refcnt a
    rw [hdref]
    by_cases hab : a = b
    · subst hab
      rw [update_self]
      have := hok ⟨q, hold⟩
      omega
    · rw [update_of_ne hab]
      exact h q a hold
  · cases ht
    exact hmove rfl rfl rfl
  · rename_i b rest hpos
    rw [hpos] at hok
    split at ht
    · cases ht
      refine h.mono rfl (fun a ha => ?_) (fun _ => le_rfl)
      cases ha
      exact .inr hok
    · cases ht
  · rename_i b rest hpos
    split at ht
    · exact h.callIde (fun a ha => by rw [hpos]; exact ha) ht
    · cases ht
      exact hmove rfl rfl rfl
  · exact h.resumeIde (fun ide => hmove rfl rfl rfl) ht

theorem SyncCounted.step {a : Act P} (hok : a.Ok s) (ht : step s a = .next t) : SyncCounted t := by
  unfold Bio.step at ht
  split at ht
  · split at ht
    · obtain ⟨b, hpos, -, -, href, -⟩ := bufferGet_cases ht
      refine h.mono hpos nofun (fun a => ?_)
      rw [href]
      refine update_cases a ?_ fun _ => ?_
      · exact Nat.le_succ _
      · rfl
    · cases ht
  · exact h.go hok ht
  · split at ht
    · cases ht
      exact h
    · cases ht
  · rename_i p b data
    split at ht
    · have hmod : SyncCounted (s.modify b data) := h
      exact hmod.callIde (fun a ha => by cases ha) ht
    · cases ht
  · split at ht
    · cases ht
      exact h.mono rfl nofun (fun _ => le_rfl)
    · cases ht
  · split at ht
    · cases ht
      exact h.mono rfl nofun (fun _ => le_rfl)
    · cases ht
  -- the steps of the driver move no process
  all_goals
    obtain ⟨ide, rfl, -⟩ := ideStep_cases ht
    exact h

end

/-- **A locked buffer is not recycled.**  In every state of every run in which `sync` has the lock
only of buffers that are counted: a buffer whose lock is held is counted, and `buffer_get` leaves a
buffer that is locked or in a call of the driver as it is. -/
theorem locked_not_recycled [Fintype P] {s t : Cache P} {acts : List (Act P)} (hs : s.Cold)
    (h : Run (fun s a t => a.Ok s ∧ Outcome.rel step s a t) s acts t) :
    (∀ b, t.owner b ≠ none → 1 ≤ t.refcnt b) ∧
      ∀ p k u, step t (.read p k) = .next u → ∀ b, t.owner b ≠ none ∨
        t.ide.inCall b = true → u.ide.bufs b = t.ide.bufs b := by
  obtain ⟨hlocks, hsync⟩ : Locks t ∧ SyncCounted t :=
    h.invariant (I := fun u => Locks u ∧ SyncCounted u)
      (fun _ _ _ hi hn => ⟨hi.1.step hn.2, hi.2.step hn.1 hn.2⟩)
      ⟨hs.locks, fun p b hp => by rw [hs.pos p] at hp; cases hp⟩
  have hcounted : ∀ b, t.owner b ≠ none → 1 ≤ t.refcnt b := by
    intro b hb
    obtain ⟨p, hp⟩ := Option.ne_none_iff_exists'.mp hb
    by_cases hsy : (t.pos p).syncHolds = some b
    · exact hsync p b hsy
    · exact hlocks.counted hp hsy
  refine ⟨hcounted, fun p k u hu b hb => ?_⟩
  have howned : t.owner b ≠ none := by
    rcases hb with hb | hb
    · exact hb
    obtain ⟨q, hq⟩ := (hlocks.waits b).mp hb
    rw [hlocks.holds q b (Pos.holds_of_waits hq)]
    exact Option.some_ne_none q
  unfold step at hu
  dsimp only at hu
  split at hu
  · obtain ⟨a, -, -, -, -, ⟨-, rfl⟩ | ⟨-, hzero, -, rfl⟩⟩ := bufferGet_cases hu
    · rfl
    -- the buffer that is recycled is not counted, so it is another one
    have hba : b ≠ a := by
      rintro rfl
      have := hcounted b howned
      omega
    exact update_of_ne hba ..
  · cases hu

def coldCache (P : Type) : Cache P where
  ide := { Ide.coldStart with bufs := fun _ => ⟨0, 0, false, false, ByteBlock.zero⟩ }
  refcnt := fun _ => 0
  owner := fun _ => none
  links := bufferInit
  pos := fun _ => .idle
  events := []

theorem coldCache_cold (P : Type) : (coldCache P).Cold :=
  ⟨⟨rfl, fun _ => rfl, rfl, rfl, rfl, rfl, rfl⟩, fun _ => ⟨rfl, rfl, rfl⟩,
    fun _ => rfl, fun _ => rfl, rfl, fun _ => rfl, rfl⟩

/-- The first buffer `buffer_get` recycles. -/
def firstBuf : BufId := ⟨0, by decide⟩

/-- A process waits in the driver for block 5, with the lock of the first buffer.  A second one
reads block 6: the next buffer is recycled for it, and the first one stays as it is. -/
theorem locked_not_recycled_read :
    ∃ t u : Cache Bool, Run (fun s a t => a.Ok s ∧ Outcome.rel step s a t)
      (coldCache Bool) [.read false ⟨1, 5⟩, .go false, .go false] t ∧
      t.owner firstBuf = some false ∧ t.ide.inCall firstBuf = true ∧ 1 ≤ t.refcnt firstBuf ∧
      step t (.read true ⟨1, 6⟩) = .next u ∧
      keyOf (t.ide.bufs ⟨1, by decide⟩) = ⟨0, 0⟩ ∧ keyOf (u.ide.bufs ⟨1, by decide⟩) = ⟨1, 6⟩ ∧
      u.ide.bufs firstBuf = t.ide.bufs firstBuf := by
  have hrun : Run (fun s a t => a.Ok s ∧ Outcome.rel step s a t)
      (coldCache Bool) [.read false ⟨1, 5⟩, .go false, .go false] _ :=
    .cons ⟨trivial, rfl⟩ (.cons ⟨trivial, rfl⟩ (.cons ⟨trivial, rfl⟩ (.nil _)))
  obtain ⟨hcounted, hkept⟩ := locked_not_recycled (coldCache_cold Bool) hrun
  exact ⟨_, _, hrun, rfl, rfl, hcounted _ (by decide +kernel), rfl, rfl, rfl,
    hkept true ⟨1, 6⟩ _ rfl firstBuf (.inr rfl)⟩

/-- Process 0 reads block 5 and logs it; process 1 enters `sync`, which locks the buffer and writes
it; the disk finishes, its interrupt clears `B_DIRTY` and wakes process 1, which is not run yet.  In
the meantime processes 2 to 30 begin to read blocks, and take all other buffers. -/
def syncRun : List (Act Nat) :=
  [.read 0 ⟨1, 5⟩, .go 0, .go 0, .complete, .interrupt, .go 0,
    .logWrite 0 firstBuf ByteBlock.zero, .release 0 firstBuf, .go 0,
    .sync 1, .go 1, .go 1, .complete,
      .interrupt] ++ (List.range 29).map (fun i => .read (i + 2) ⟨1, 100 + i⟩)

/-- **`sync()` loses its buffer.**  Its lock is held by process 1, which waits for it in the driver,
and nobody counts it: the next `buffer_get` gives it to another block and clears its flags. -/
theorem sync_loses_buffer :
    ∃ t u, Run (Outcome.rel step) (coldCache Nat) syncRun t ∧
      t.owner firstBuf = some 1 ∧ t.ide.inCall firstBuf = true ∧
      t.refcnt firstBuf = 0 ∧ step t (.read 31 ⟨1, 300⟩) = .next u ∧
        (t.ide.bufs firstBuf).valid = true ∧
      (u.ide.bufs firstBuf).valid = false ∧ keyOf (t.ide.bufs firstBuf) = ⟨1, 5⟩ ∧
      keyOf (u.ide.bufs firstBuf) = ⟨1, 300⟩ := by
  obtain ⟨t, hrun, ht⟩ := Outcome.exists_run step (coldCache Nat) syncRun
    (fun t => t.owner firstBuf = some 1 ∧ t.ide.inCall firstBuf = true ∧ t.refcnt firstBuf = 0 ∧
      (t.ide.bufs firstBuf).valid = true ∧ keyOf (t.ide.bufs firstBuf) = ⟨1, 5⟩ ∧
      (step t (.read 31 ⟨1, 300⟩)).Next (fun u => (u.ide.bufs firstBuf).valid = false ∧
        keyOf (u.ide.bufs firstBuf) = ⟨1, 300⟩))
    (by decide +kernel)
  obtain ⟨howner, hcall, hzero, hvalid, hkey, hnext⟩ := ht
  obtain ⟨u, hu, huvalid, hukey⟩ := Outcome.Next.exists hnext
  exact ⟨t, u, hrun, howner, hcall, hzero, hu, hvalid, huvalid, hkey, hukey⟩

end Micro86.Bio
