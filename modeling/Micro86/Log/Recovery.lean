import Micro86.Log.Commit

/-!
# Crash atomicity of the redo log

* `recover_crashes_spec` — any number of crashed recoveries followed by one that completes
  shows exactly `recovered`: a crashed recovery has installed a prefix of the logged blocks,
  and installing them all again has the effect of installing them once.
* `commit_crash_atomic` — a crash after any number of writes of `commit()` leaves, once a
  recovery completes, all home blocks old or all new, and every other block as it was.
-/

namespace Micro86.Log

open Redo

variable {dev : LogDev}
variable {d : Nat → Block}

/-- The blocks outside the log that a completed recovery of `d` shows. -/
def recovered (dev : LogDev) (d : Nat → Block) : Nat → Block :=
  applyWrites (installWrites dev d (readHead (d dev.start))) d

theorem recovered_of_clean (h : readHead (d dev.start) = []) : recovered dev d = d := by
  simp [recovered, h, installWrites]

/-- A recovery that crashes inside `install_trans` has made a prefix of its writes. -/
theorem crashRecover_prefix (hfit : LogFits dev (readHead (d dev.start))) {j : Nat}
    (hj : j ≤ (readHead (d dev.start)).length) :
    crashRecover dev d j =
      applyWrites ((installWrites dev d (readHead (d dev.start))).take j) d := by
  obtain ⟨m', hit, hd, _⟩ := install_iterate hfit ⟨d, fun _ => none⟩ j hj
  rw [crashRecover, recoverBoot, hit]
  exact hd

theorem crashRecover_complete (hfit : LogFits dev (readHead (d dev.start))) {j : Nat}
    (hj : (readHead (d dev.start)).length < j) :
    readHead (crashRecover dev d j dev.start) = [] ∧
      ∀ b, b ≠ dev.start → crashRecover dev d j b = recovered dev d b := by
  obtain ⟨r, rfl⟩ : ∃ r, j = (readHead (d dev.start)).length + 1 + r :=
    ⟨_, (Nat.add_sub_of_le hj).symm⟩
  obtain ⟨m', hit, hh, hd⟩ := install_complete hfit ⟨d, fun _ => none⟩ r
  rw [crashRecover, recoverBoot, hit]
  exact ⟨hh, hd⟩

theorem LogFits.start_notMem {lh : List Nat} (hfit : LogFits dev lh) : dev.start ∉ lh := by
  intro hm
  exact hfit.outside _ hm dev.inLog_start

/-- Installing some of the logged blocks changes neither the header nor the log blocks. -/
theorem installWrites_congr {lh : List Nat} (hfit : LogFits dev lh) (d : Nat → Block) (j : Nat) :
    installWrites dev (applyWrites ((installWrites dev d lh).take j) d) lh =
      installWrites dev d lh := by
  apply List.ext_getElem? fun i => ?_
  by_cases hi : i < lh.length
  · rw [getElem_installWrites dev _ hi, getElem_installWrites dev _ hi,
      applyWrites_take_installWrites]
    intro hm
    exact hfit.outside _ hm (LogDev.inLog_logBlock hfit.room hi)
  · rw [List.getElem?_eq_none (by simpa using hi), List.getElem?_eq_none (by simpa using hi)]

/-- One crashed recovery changes nothing of what a completed recovery will show. -/
theorem crashRecover_step (hfit : LogFits dev (readHead (d dev.start))) (j : Nat) :
    LogFits dev (readHead (crashRecover dev d j dev.start)) ∧
      ∀ b, ¬ dev.inLog b → recovered dev (crashRecover dev d j) b = recovered dev d b := by
  by_cases hj : j ≤ (readHead (d dev.start)).length
  · have hpre := crashRecover_prefix hfit hj
    have hhead : crashRecover dev d j dev.start = d dev.start := by
      rw [hpre]
      exact applyWrites_take_installWrites hfit.start_notMem _ _ _
    refine ⟨by rw [hhead]; exact hfit, fun b _ => ?_⟩
    rw [recovered, hhead, hpre, installWrites_congr hfit, applyWrites_take_redo]
    rfl
  obtain ⟨hhead, hdisk⟩ := crashRecover_complete hfit (Nat.lt_of_not_le hj)
  refine ⟨by rw [hhead]; exact LogFits.nil dev, fun b hb => ?_⟩
  rw [recovered_of_clean hhead]
  exact hdisk b (LogDev.ne_start hb)

/-- **Recovery is immune to crashes of its own**: after any list of recoveries, each crashing
    after some number of writes, a recovery that completes shows `recovered dev d`. -/
theorem recover_crashes_spec (crashes : List Nat) :
    ∀ {d : Nat → Block}, LogFits dev (readHead (d dev.start)) → ∀ b, ¬ dev.inLog b →
      recoverFromLog dev (crashes.foldl (crashRecover dev) d) b = recovered dev d b := by
  induction crashes with
  | nil =>
    intro d hfit b hb
    exact (crashRecover_complete hfit (Nat.lt_succ_self _)).2 b (LogDev.ne_start hb)
  | cons j crashes ih =>
    intro d hfit b hb
    obtain ⟨hfit', hsame⟩ := crashRecover_step hfit j
    rw [List.foldl_cons, ih hfit' b hb, hsame b hb]

/-! ## Commit -/

/-- An in-memory transaction as `log_write` builds it. -/
structure Txn (dev : LogDev) where
  /-- `log.lh.block[0..n)`. -/
  blocks : List Nat
  nodup : blocks.Nodup
  /-- Room left by the test of `log_write`. -/
  slots : blocks.length ≤ LOGSIZE
  fits : LogFits dev blocks
  /-- `b->blockno` is a 32-bit number. -/
  isU32 : ∀ b ∈ blocks, b < 4294967296

theorem readHead_putHead (t : Txn dev) (m : Mem) :
    readHead ((putHead dev t.blocks m).disk dev.start) = t.blocks := by
  simp [putHead, readHead_writeHead _ t.slots t.isU32]

/-- Crash inside `write_log`: recovery finds an empty header and the old home blocks. -/
theorem commitDisk_writeLog (t : Txn dev) (m : Mem) (hclean : readHead (m.disk dev.start) = [])
    (hne : 0 < t.blocks.length) {k : Nat} (hk : k ≤ t.blocks.length) :
    readHead (commitDisk dev t.blocks m k dev.start) = [] ∧
      ∀ b, ¬ dev.inLog b → commitDisk dev t.blocks m k b = m.disk b := by
  obtain ⟨m', hit, hd, _⟩ := writeLog_iterate t.fits m k hk
  have hdisk : commitDisk dev t.blocks m k =
      applyWrites ((logWrites dev m.view t.blocks).take k) m.disk := by
    rw [commitDisk, commitStart, if_pos hne, hit]
    exact hd
  constructor
  · rw [hdisk, applyWrites_take_logWrites, hclean]
    exact fun i _ => (dev.logBlock_ne_start i).symm
  · intro b hb
    rw [hdisk]
    exact applyWrites_take_logWrites (fun i => t.fits.ne_logBlock hb) _ _ _

theorem commit_head (t : Txn dev) (m : Mem) (hne : 0 < t.blocks.length) :
    ∃ m₁, (commitWrite dev)^[t.blocks.length + 1] (commitStart t.blocks m) =
        ⟨some (.install 0), t.blocks, m₁⟩ ∧
      readHead (m₁.disk dev.start) = t.blocks ∧
      (∀ b, ¬ dev.inLog b → m₁.disk b = m.disk b) ∧
      installWrites dev m₁.disk t.blocks = t.blocks.map (fun b => (b, m.view b)) ∧
      installWrites dev m₁.view t.blocks = t.blocks.map (fun b => (b, m.view b)) := by
  obtain ⟨m', hit, hd, hv⟩ := writeLog_iterate t.fits m t.blocks.length le_rfl
  rw [List.take_of_length_le (by simp)] at hd hv
  refine ⟨putHead dev t.blocks m', ?_, readHead_putHead t m', ?_, ?_, ?_⟩
  · rw [Nat.add_comm, Function.iterate_add_apply, commitStart,
      if_pos hne, hit, Function.iterate_one]
    simp [commitWrite]
  · intro b hb
    have hbs := LogDev.ne_start hb
    simp only [putHead, Mem.bufferWrite_disk, Mem.load_disk, Function.update_of_ne hbs, hd]
    have :=
      applyWrites_take_logWrites (fun i => t.fits.ne_logBlock hb) m.view m.disk t.blocks.length
    rwa [List.take_of_length_le (by simp)] at this
  · refine installWrites_eq_map fun i hi => ?_
    simp [putHead, Function.update_of_ne (dev.logBlock_ne_start i),
      hd, applyWrites_logWrites _ _ hi]
  · refine installWrites_eq_map fun i hi => ?_
    simp [putHead, Function.update_of_ne (dev.logBlock_ne_start i),
      hv, applyWrites_logWrites _ _ hi]

/-- Crash past the commit point: recovery shows the transaction's contents. -/
theorem commitDisk_install (t : Txn dev) (m : Mem) (hne : 0 < t.blocks.length) (j : Nat) :
    LogFits dev (readHead (commitDisk dev t.blocks m (t.blocks.length + 1 + j) dev.start)) ∧
      ∀ b, ¬ dev.inLog b → recovered dev (commitDisk dev t.blocks m (t.blocks.length + 1 + j)) b =
        applyWrites (t.blocks.map fun b => (b, m.view b)) m.disk b := by
  obtain ⟨m₁, hit, hhead, hout, hwd, hwv⟩ := commit_head t m hne
  have hk : commitDisk dev t.blocks m (t.blocks.length + 1 + j) =
      ((commitWrite dev)^[j] ⟨some (.install 0), t.blocks, m₁⟩).mem.disk := by
    rw [commitDisk, Nat.add_comm, Function.iterate_add_apply, hit]
  have hbase : ∀ b, ¬ dev.inLog b → applyWrites (t.blocks.map fun b => (b, m.view b)) m₁.disk b =
      applyWrites (t.blocks.map fun b => (b, m.view b)) m.disk b :=
    fun b hb => applyWrites_congr (.inr (hout b hb))
  by_cases hj : j ≤ t.blocks.length
  · -- inside `install_trans`: header and log blocks are those of the commit point
    obtain ⟨m', hit', hd, _⟩ := install_iterate t.fits m₁ j hj
    rw [hwv, ← hwd] at hd
    rw [hk, hit']
    simp only [recovered, hd, applyWrites_take_installWrites t.fits.start_notMem, hhead]
    refine ⟨t.fits, fun b hb => ?_⟩
    rw [installWrites_congr t.fits, applyWrites_take_redo, hwd, hbase b hb]
  -- past the second `write_head`
  obtain ⟨r, rfl⟩ : ∃ r, j = t.blocks.length + 1 + r :=
    ⟨_, (Nat.add_sub_of_le (Nat.lt_of_not_le hj)).symm⟩
  obtain ⟨m', hit', hclean, hd⟩ := install_complete t.fits m₁ r
  rw [hk, hit']
  refine ⟨by rw [hclean]; exact LogFits.nil dev, fun b hb => ?_⟩
  have hbs := LogDev.ne_start hb
  rw [recovered_of_clean hclean, hd b hbs, hwv, hbase b hb]

/-- **Crash atomicity of the redo log.**  `commit()` of any transaction, on a disk whose header
    has `n = 0`, crashing after any number `k` of its single-block writes, followed by any list
    of recoveries that crash after any number of writes: once a recovery completes, the home
    blocks are all at their old contents or all at the cached ones, and every block outside
    the transaction and the log is unchanged. -/
theorem commit_crash_atomic (t : Txn dev) (m : Mem) (hclean : (m.disk dev.start).u32 0 = 0)
    (k : Nat) (crashes : List Nat) :
    let r := recoverFromLog dev (crashes.foldl (crashRecover dev) (commitDisk dev t.blocks m k))
    ((∀ b ∈ t.blocks, r b = m.disk b) ∨ (∀ b ∈ t.blocks, r b = m.view b)) ∧
      ∀ b, b ∉ t.blocks → ¬ dev.inLog b → r b = m.disk b := by
  intro r
  have hhead := readHead_of_n_zero hclean
  -- before the commit point recovery shows the old disk
  have hold : readHead (commitDisk dev t.blocks m k dev.start) = [] →
      (∀ b, ¬ dev.inLog b → commitDisk dev t.blocks m k b = m.disk b) →
      ∀ b, ¬ dev.inLog b → r b = m.disk b := by
    intro hc hd b hb
    show recoverFromLog dev _ b = m.disk b
    rw [recover_crashes_spec crashes (by rw [hc]; exact LogFits.nil dev) b hb,
      recovered_of_clean hc, hd b hb]
  rcases Nat.eq_zero_or_pos t.blocks.length with hz | hne
  · have hd : commitDisk dev t.blocks m k = m.disk := by
      rw [commitDisk, commitStart, if_neg (by omega), commitWrite_done]
    have := hold (by rw [hd]; exact hhead) (fun b _ => by rw [hd])
    exact ⟨.inl fun b hb => this b (t.fits.outside b hb), fun b _ => this b⟩
  by_cases hk : k ≤ t.blocks.length
  · obtain ⟨hc, hd⟩ := commitDisk_writeLog t m hhead hne hk
    have := hold hc hd
    exact ⟨.inl fun b hb => this b (t.fits.outside b hb), fun b _ => this b⟩
  obtain ⟨j, rfl⟩ : ∃ j, k = t.blocks.length + 1 + j :=
    ⟨_, (Nat.add_sub_of_le (Nat.lt_of_not_le hk)).symm⟩
  obtain ⟨hfit, hrec⟩ := commitDisk_install t m hne j
  have hr : ∀ b, ¬ dev.inLog b →
      r b = applyWrites (t.blocks.map fun b => (b, m.view b)) m.disk b := by
    intro b hb
    show recoverFromLog dev _ b = _
    rw [recover_crashes_spec crashes hfit b hb, hrec b hb]
  have hfst : (t.blocks.map fun b => (b, m.view b)).map Prod.fst = t.blocks := by
    simp [Function.comp_def]
  refine ⟨.inr fun b hb => ?_, fun b hnb hb => ?_⟩
  · rw [hr b (t.fits.outside b hb)]
    exact applyWrites_of_mem (by rw [hfst]; exact t.nodup)
      (List.mem_map.mpr ⟨b, hb, rfl⟩) _
  · rw [hr b hb]
    exact applyWrites_of_notMem (by rw [hfst]; exact hnb) _

/-- Blocks 50 and 51 of a zeroed disk, both cached and dirty: a crash after the header, and
    another one inside recovery. -/
theorem commit_crash_atomic_two_blocks :
    let dev : LogDev := ⟨2, 30, by decide⟩
    let m :
        Mem := ⟨fun _ => .zero, fun b => if b = 50 ∨ b = 51 then some ⟨fun _ => 1, true⟩ else none⟩
    let r := recoverFromLog dev ([1].foldl (crashRecover dev) (commitDisk dev [50, 51] m 3))
    (∀ b ∈ [50, 51], r b = m.disk b) ∨ (∀ b ∈ [50, 51], r b = m.view b) := by
  intro dev m r
  have fits : LogFits dev [50, 51] := ⟨by decide, by decide⟩
  let t : Txn dev := ⟨[50, 51], by decide, by decide, fits, by decide⟩
  exact (commit_crash_atomic t m (ByteBlock.u32_zero 0) 3 [1]).1

end Micro86.Log
