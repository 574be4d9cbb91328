import Micro86.Bio.Transparent

/-!
# The size of the buffer pool

`buffer_get` panics when the block has no buffer and none can be recycled.  Nothing is reserved
before it is called: the log pins its blocks until they are installed, and every process that waits
for the disk pins the buffer it waits for.

* `pool_suffices` — runs in which the pool has room for what is used and pinned.
* `readers_exhaust_pool` — 30 processes wait for the disk, and the next one panics.
-/

namespace Micro86.Bio

open Ide (BufId Buf)

variable {P : Type} [DecidableEq P]

namespace Cache

variable (s : Cache P)

/-- The buffers a process holds, waits to lock or is about to give back. -/
def uses (p : P) : Finset BufId :=
  Finset.univ.filter fun b => s.owner b = some p ∧ (s.pos p).syncHolds ≠ some b ∨
    (s.pos p).counts = some b

def pinned : Finset BufId := Finset.univ.filter fun b => (s.ide.bufs b).dirty = true

end Cache

/-! ## The list of buffers -/

section

variable {s t : Cache P} {p : P} {b : BufId}

omit [DecidableEq P] in
theorem dropRef_links (s : Cache P) (b : BufId) :
    (s.dropRef b).links = s.links ∨ (s.dropRef b).links = (s.links.unlink b).insert b := by
  unfold Cache.dropRef
  split
  · exact .inr rfl
  · exact .inl rfl

theorem go_links (h : go s p = .next t) :
    t.links = s.links ∨ ∃ b, t.links = (s.links.unlink b).insert b := by
  have hcall : ∀ {b x}, s.callIde p b x = .next t → t.links = s.links := fun hcall => by
    obtain ⟨ide, rfl, -⟩ := callIde_cases hcall
    rfl
  have hresume : ∀ {b} {done : Cache P → Cache P}, s.resumeIde b done = .next t →
      (∀ u, (done u).links = u.links) → t.links = s.links :=
    fun hresume hdone => by
      obtain ⟨ide, -, -, ⟨rfl, -⟩ | ⟨rfl, -⟩⟩ := resumeIde_cases hresume
      · rfl
      · exact hdone _
  unfold go at h
  split at h
  · cases h
  · split at h
    · cases h
      exact .inl rfl
    · cases h
  · split at h
    · cases h
      exact .inl rfl
    · exact .inl (hcall h)
  · exact .inl (hresume h fun _ => rfl)
  · exact .inl (hresume h fun _ => rfl)
  · rename_i b _
    cases h
    exact (dropRef_links s b).imp id (fun hb => ⟨b, hb⟩)
  · cases h
    exact .inl rfl
  · split at h
    · cases h
      exact .inl rfl
    · cases h
  · split at h
    · exact .inl (hcall h)
    · cases h
      exact .inl rfl
  · exact .inl (hresume h fun _ => rfl)

/-- A step leaves the list alone or moves one buffer to its front. -/
theorem step_links {a : Act P} (h : step s a = .next t) :
    t.links = s.links ∨ ∃ b, t.links = (s.links.unlink b).insert b := by
  unfold step at h
  split at h
  · split at h
    · obtain ⟨b, -, -, -, -, ⟨-, rfl⟩ | ⟨-, -, -, rfl⟩⟩ := bufferGet_cases h
      · exact .inl rfl
      · exact .inl rfl
    · cases h
  · exact go_links h
  · split at h
    · cases h
      exact .inl rfl
    · cases h
  · split at h
    · obtain ⟨ide, rfl, -⟩ := callIde_cases h
      exact .inl rfl
    · cases h
  · split at h
    · cases h
      exact .inl rfl
    · cases h
  · split at h
    · cases h
      exact .inl rfl
    · cases h
  · obtain ⟨ide, rfl, -⟩ := ideStep_cases h
    exact .inl rfl
  · obtain ⟨ide, rfl, -⟩ := ideStep_cases h
    exact .inl rfl
  · obtain ⟨ide, rfl, -⟩ := ideStep_cases h
    exact .inl rfl

end

/-! ## Recyclable buffers -/

structure Pooled [Fintype P] (s : Cache P) : Prop where
  locks : Locks s
  listed : ∃ l, Listed s.links l

section

variable [Fintype P] {s t : Cache P} {p : P} {b : BufId}

theorem Pooled.step {a : Act P} (h : Pooled s) (ht : step s a = .next t) : Pooled t := by
  obtain ⟨l, hl⟩ := h.listed
  refine ⟨h.locks.step ht, ?_⟩
  obtain heq | ⟨b, heq⟩ := step_links ht
  · rw [heq]
    exact ⟨l, hl⟩
  · rw [heq]
    exact ⟨_, hl.move b⟩

omit [DecidableEq P] in
theorem Cache.Cold.pooled (h : s.Cold) : Pooled s :=
  ⟨h.locks, _, by rw [h.links]; exact bufferInit_listed⟩

theorem Locks.counted_iff (h : Locks s) : s.refcnt b ≠ 0 ↔ ∃ q, b ∈ s.uses q := by
  simp only [Cache.uses, Finset.mem_filter, Finset.mem_univ, true_and]
  rw [h.count b, Ne, Nat.add_eq_zero_iff, not_and_or]
  refine ⟨?_, ?_⟩
  · rintro (hheld | hrefs)
    · unfold Cache.held at hheld
      split at hheld
      · exact absurd rfl hheld
      · rename_i q hq
        exact ⟨q, .inl ⟨hq, fun hsync => hheld (if_pos hsync)⟩⟩
    · obtain ⟨q, -, hq⟩ := Finset.exists_ne_zero_of_sum_ne_zero hrefs
      exact ⟨q, .inr (by by_contra hcounts; exact hq (Pos.refs_of_not hcounts))⟩
  · rintro ⟨q, ⟨howner, hsync⟩ | hcounts⟩
    · left
      unfold Cache.held
      rw [howner]
      dsimp only
      rw [if_neg hsync]
      exact Nat.one_ne_zero
    · right
      have hle := Finset.single_le_sum (f := fun q => (s.pos q).refs b)
          (fun _ _ => Nat.zero_le _) (Finset.mem_univ q)
      have hone : (s.pos q).refs b = 1 := Pos.refs_of_counts hcounts
      omega

theorem bufferGet_panics_iff (h : Pooled s) {k : Key} :
    s.bufferGet p k = .panic "buffer_get: no buffers" ↔
      (∀ b, keyOf (s.ide.bufs b) ≠ k) ∧ ∀ b, b ∈ s.pinned ∨ ∃ q, b ∈ s.uses q := by
  obtain ⟨l, hl⟩ := h.listed
  have hcached : s.cached k = none ↔ ∀ b, keyOf (s.ide.bufs b) ≠ k := by
    unfold Cache.cached
    rw [search_eq hl.circle.forth hl.length.le, List.find?_eq_none]
    simp [hl.mem]
  have hunused : s.unused = none ↔ ∀ b, b ∈ s.pinned ∨ ∃ q, b ∈ s.uses q := by
    unfold Cache.unused
    rw [search_eq hl.circle.back (by rw [List.length_reverse, hl.length]), List.find?_eq_none]
    refine forall_congr' fun b => ?_
    rw [← h.locks.counted_iff]
    simp only [List.mem_reverse, hl.mem, decide_eq_true_eq, true_implies,
      not_and, Cache.pinned, Finset.mem_filter, Finset.mem_univ, true_and, Bool.not_eq_false]
    exact ⟨fun himp => (em (s.refcnt b = 0)).imp himp id,
      fun hor hzero => hor.resolve_right (fun hne => hne hzero)⟩
  rw [← hcached, ← hunused]
  unfold Cache.bufferGet
  split
  · rename_i b hb
    simp [hb]
  rename_i hnone
  split
  · rename_i b hb
    simp [hb]
  · rename_i hnone'
    simp [hnone, hnone']

theorem exists_recyclable (hroom : (Finset.univ.biUnion s.uses ∪ s.pinned).card < NBUF) :
    ∃ b, b ∉ s.pinned ∧ ∀ q, b ∉ s.uses q := by
  obtain ⟨b, -, hb⟩ := Finset.exists_mem_notMem_of_card_lt_card
    (hroom.trans_eq (Finset.card_fin NBUF).symm)
  rw [Finset.mem_union, not_or, Finset.mem_biUnion] at hb
  exact ⟨b, hb.2, fun q hq => hb.1 ⟨q, Finset.mem_univ q, hq⟩⟩

/-- **The pool suffices while it is not overcommitted.**  In every state of every run, `buffer_get`
for a block that is cached, or while the buffers processes use and those that are dirty are fewer
than `NBUF`, does not panic. -/
theorem pool_suffices {acts : List (Act P)} (hs : s.Cold)
    (h : Run (Outcome.rel step) s acts t) {k : Key} (hroom : (∃ b, keyOf (t.ide.bufs b) = k) ∨
      (Finset.univ.biUnion t.uses ∪ t.pinned).card < NBUF) :
    step t (.read p k) ≠ .panic "buffer_get: no buffers" := by
  have hpooled : Pooled t := h.invariant (fun _ _ _ hi => hi.step) hs.pooled
  intro hpanic
  unfold Bio.step at hpanic
  dsimp only at hpanic
  split at hpanic
  · obtain ⟨hnone, hbusy⟩ := (bufferGet_panics_iff hpooled).mp hpanic
    obtain ⟨b, hb⟩ | hroom := hroom
    · exact hnone b hb
    obtain ⟨b, hpinned, huses⟩ := exists_recyclable hroom
    obtain hb | ⟨q, hq⟩ := hbusy b
    · exact hpinned hb
    · exact huses q hq
  · cases hpanic

end

/-- 40 processes read one block: the first waits for the disk, the others for its lock on the
    buffer. -/
def sharedRun : List (Act (Fin NPROC)) :=
  let readers := (List.finRange NPROC).take 40
  readers.map (fun p => .read p ⟨1, 100⟩) ++ [.go ⟨0, by decide⟩, .go ⟨0, by decide⟩]

/-- The 40 processes have 40 references to one buffer, and the other 29 are left for a 41st
    process. -/
theorem pool_suffices_shared :
    ∃ t, Run (Outcome.rel step) (coldCache (Fin NPROC)) sharedRun t ∧
      (∀ p : Fin NPROC, p.val < 40 → (t.uses p).card = 1) ∧
      (Finset.univ.biUnion t.uses ∪ t.pinned).card = 1 ∧
      step t (.read ⟨40, by decide⟩ ⟨1, 300⟩) ≠ .panic "buffer_get: no buffers" := by
  obtain ⟨t, hrun, huses, hcard⟩ := Outcome.exists_run step (coldCache (Fin NPROC)) sharedRun
    (fun t => (∀ p : Fin NPROC, p.val < 40 → (t.uses p).card = 1) ∧
      (Finset.univ.biUnion t.uses ∪ t.pinned).card = 1) (by decide +kernel)
  refine ⟨t, hrun, huses, hcard, pool_suffices (coldCache_cold _) hrun (.inr ?_)⟩
  rw [hcard]
  decide

/-- 30 processes call `read` for one block each of 30 files; each waits for the disk in
    `buffer_read`. -/
def readersRun : List (Act (Fin NPROC)) :=
  ((List.finRange NPROC).take NBUF).flatMap fun p => [.read p ⟨1, 100 + p⟩, .go p, .go p]

/-- **Readers exhaust the pool.**  The first 30 processes wait for the disk; nothing is logged; the
next process that reads a block panics. -/
theorem readers_exhaust_pool :
    ∃ t, Run (Outcome.rel step) (coldCache (Fin NPROC)) readersRun t ∧
      (∀ p : Fin NPROC, p.val < NBUF → (t.pos p).waits ≠ none) ∧
      (∀ b, (t.ide.bufs b).dirty = false) ∧
      (step t (.read ⟨NBUF, by decide⟩ ⟨1, 300⟩)).Panics "buffer_get: no buffers" :=
  Outcome.exists_run step (coldCache (Fin NPROC)) readersRun
    (fun t => (∀ p : Fin NPROC, p.val < NBUF → (t.pos p).waits ≠ none) ∧
      (∀ b, (t.ide.bufs b).dirty = false) ∧
      (step t (.read ⟨NBUF, by decide⟩ ⟨1, 300⟩)).Panics "buffer_get: no buffers")
        (by decide +kernel)

end Micro86.Bio
