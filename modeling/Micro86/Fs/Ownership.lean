import Micro86.Fs.Paths

/-!
# Disk block ownership

Every operation on regular files and directories keeps `Consistent`: each block has one owner and
the bitmap marks exactly the blocks that are owned.  The inode cache has to be write-through in the
fields that ownership depends on (`Icache`): a stale copy hides addresses that come back when its
slot is recycled.  `create` relies on entries that name inodes of the volume (`Named`).  Without
either it fails (`stale_copy_breaks_ownership`).

* `ownership_preserved` — `bmap`, `readi`, `writei`, `itrunc`, `ialloc`, `iput`, `dirlink`,
  `create` and `balloc`.
-/

namespace Micro86.Fs

open Exec

/-- From `s` the operation keeps ownership, and `bfree` does not panic. -/
def KeepsOwnership (sb : SuperBlock) {α : Type} (x : FsM α) (s : State) : Prop :=
  wp x (fun _ t => Consistent sb (t.store sb) ∧ Icache sb t none) OtherPanic s

section Operations

variable {env : Env} {s : State} {p : Ptr}

theorem Spec.keepsOwnership {α : Type} {x : FsM α} {k r : Nat}
    {Q : α → State → Prop} (h : Spec env.sb x s k r Q)
    (hQ : ∀ a t, Q a t → Consistent env.sb (t.store env.sb) ∧ Icache env.sb t none) :
    KeepsOwnership env.sb x s :=
  wp.mono h (fun a t ht => hQ a t ht.2) fun _ hm => hm.halts.other

theorem writei_keepsOwnership {off : Nat} {src : List UInt8}
    (h : Opened env.sb s p) (hoff : off < 4294967296)
    (hn : src.length < 4294967296) : KeepsOwnership env.sb (writei env p src off) s := by
  by_cases hin : off ≤ (s.contents env.sb p).length ∧ off + src.length ≤ MAXFILE * BSIZE
  · exact (writei_spec h hin.1 hin.2).keepsOwnership fun _ _ ht => ⟨ht.2.consistent, ht.2.icache⟩
  · rw [KeepsOwnership, wp_of_eq (writei_refused h hoff hn hin)]
    exact ⟨h.consistent, h.icache⟩

theorem readi_unchanged {off n : Nat} (h : Opened env.sb s p)
    (hoff : off < 4294967296) (hn : n < 4294967296) : ∃ r, readi env p off n s = .ok (r, s) := by
  by_cases hin : off ≤ (s.contents env.sb p).length ∧ off + n < 4294967296
  · exact ⟨_, readi_eq h hin.1 hin.2⟩
  · exact ⟨_, readi_refused h hoff hn hin⟩

theorem ialloc_keepsOwnership (hc : Consistent env.sb (s.store env.sb))
    (hi : Icache env.sb s none) (type : UInt16) :
    KeepsOwnership env.sb (ialloc env.sb env.now type) s := by
  refine wp.mono (ialloc_spec (H := []) hi nofun) ?_ fun msg hm => ?_
  · rintro q t ⟨i, _, _, hfree, hstore, _, hcache, _, _⟩
    refine ⟨?_, hcache⟩
    rw [hstore]
    exact hc.newInode hfree type
  · rcases hm with rfl | rfl | hm
    · decide
    · decide
    · exact hm.halts.other

theorem dirlink_keepsOwnership (h : Opened env.sb s p) (hd : (s.icache p).ino.isDir)
    (name : List UInt8) (inum : Nat) : KeepsOwnership env.sb (dirlink env p name inum) s := by
  refine wp.mono (dirlink_spec h hd (holds_singleton h.active))
    (fun r t hr => ?_) fun _ hm => hm.other
  cases hr with
  | «exists» _ _ _ _ _ _ _ hput | linked _ _ _ _ _ _ _ hput => exact ⟨hput.consistent, hput.icache⟩

end Operations

/-- **Ownership**: in a consistent file system with a write-through inode cache, every operation
    keeps both; `create` moreover relies on, and keeps, directory entries that name inodes of the
    volume. -/
theorem ownership_preserved (env : Env) (s : State) (hc : Consistent env.sb (s.store env.sb))
    (hi : Icache env.sb s none) :
    (∀ u p bn, Consistent env.sb (u.store env.sb) → Locked env.sb u p →
      (u.icache p).ino.isReg ∨ (u.icache p).ino.isDir → bn < MAXFILE →
      wp (bmap env.sb p bn) (fun b t => Consistent env.sb (t.store env.sb) ∧ Locked env.sb t p ∧
        (t.store env.sb).dataAddr (u.icache p).inum bn = b ∧
        (bn * BSIZE < (u.icache p).ino.size.toNat → t = u)) OtherPanic u) ∧
    (∀ p off n, Opened env.sb s p → off < 4294967296 → n < 4294967296 →
      ∃ r, readi env p off n s = .ok (r, s)) ∧
    (∀ p off src, Opened env.sb s p → off < 4294967296 → src.length < 4294967296 →
      KeepsOwnership env.sb (writei env p src off) s) ∧
    (∀ p, Opened env.sb s p → KeepsOwnership env.sb (itrunc env.sb p) s) ∧
    (∀ type, KeepsOwnership env.sb (ialloc env.sb env.now type) s) ∧
    (∀ p, (s.icache p).Active → KeepsOwnership env.sb (iput env.sb p) s) ∧
    (∀ p name inum, Opened env.sb s p → (s.icache p).ino.isDir →
      KeepsOwnership env.sb (dirlink env p name inum) s ∧
      (Named env.sb (s.store env.sb) → inum % 65536 < env.sb.ninodes →
        wp (dirlink env p name inum) (fun _ t => Named env.sb (t.store env.sb)) OtherPanic s)) ∧
    (∀ c path type major minor, Named env.sb (s.store env.sb) → (s.icache c.cwd).Active →
      (s.icache c.cwd).inum < env.sb.ninodes →
      KeepsOwnership env.sb (create env c path type major minor) s ∧
      wp (create env c path type major minor) (fun _ t => Named env.sb (t.store env.sb))
        OtherPanic s) ∧
    wp (balloc env.sb) (fun b _ => env.sb.nmeta ≤ b ∧ b < env.sb.size ∧
      (s.store env.sb).used b = false ∧ ∀ i k, (s.store env.sb).addr i k ≠ b) OtherPanic s := by
  refine ⟨fun u p bn hcu hl hk hbn => ?_, fun p off n => readi_unchanged,
    fun p off src => writei_keepsOwnership, fun p hp => ?_,
    ialloc_keepsOwnership hc hi, fun p hp => ?_, fun p name inum hp hd => ⟨?_, fun hn hinum => ?_⟩,
    fun c path type major minor hn hcwd hlt => ?_, ?_⟩
  · refine wp.mono (bmap_spec hcu hl hbn) ?_ fun _ hm => hm.halts.other
    rintro b t ⟨_, ht⟩
    have hfile : ((u.store env.sb).ino (u.icache p).inum).isReg ∨
        ((u.store env.sb).ino (u.icache p).inum).isDir := by
      rw [hl.store]
      exact hk
    refine ⟨ht.consistent, ht.locked, ht.addr, fun hlt => ht.same (hcu.mapped _ hfile bn ?_).2⟩
    rw [hl.store]
    exact hlt
  · exact (itrunc_spec hc hp.locked).keepsOwnership fun _ _ ht => ⟨ht.consistent, ht.icache⟩
  · exact (iput_spec hc hi (holds_singleton hp)).keepsOwnership fun _ _ ht =>
      ⟨ht.consistent, ht.icache⟩
  · exact dirlink_keepsOwnership hp hd name inum
  · exact wp.imp (dirlink_safe ⟨hc, hi, hn⟩ (holds_singleton hp.active)
      List.mem_cons_self hp.valid hd name hinum) fun _ _ ht => ht.1.named
  · have h := create_safe c path type major minor ⟨hc, hi, hn⟩ hcwd hlt
    exact ⟨wp.imp h (fun _ _ ht => ⟨ht.1.consistent, ht.1.icache⟩),
      wp.imp h (fun _ _ ht => ht.1.named)⟩
  · refine wp.mono (balloc_spec hc.metadata) ?_ fun _ hm => hm.halts.other
    rintro b t ⟨_, hb, _⟩
    refine ⟨hb.lo, hb.hi, hb.free, fun i k he => ?_⟩
    have hpos := hc.owns.pos
    have hlo := hb.lo
    exact hc.owns.ne_of_free (x := (i, k)) hb.free (by show (s.store env.sb).addr i k ≠ 0; omega) he

theorem emptyVolume_named {n : Fin 16} {mode : UInt16} {data : Block} :
    Named (smallSb n) ((emptyVolume mode data).store (smallSb n)) := by
  intro i hi k hk
  have hd := DIRENTSIZE_eq
  rcases @volume_ino n _ data { Inode.zero with mode := mode } mode_inode_zero i with h | h
  · exact absurd hi (Inode.not_isDir_of_mode h)
  · rw [Store.length_contents, emptyVolume, h] at hk
    exact absurd hk (by show ¬ _ ≤ 0; omega)

/-- In the empty root directory of the small volume two files can be created.  The first one gets
    the directory its first block, so the second one is created on a volume where a block is
    owned. -/
theorem ownership_preserved_small :
    ∃ p q t u,
      create (smallEnv 8) ⟨slot0, 0, 0⟩ [97] S_IFREG 0 0 (smallVolume S_IFDIR) = .ok (some p, t) ∧
      (t.store (smallSb 8)).addr 1 0 = 40 ∧ Consistent (smallSb 8) (t.store (smallSb 8)) ∧
      create (smallEnv 8) ⟨slot0, 0, 0⟩ [98] S_IFREG 0 0 t = .ok (some q, u) ∧
      (u.store (smallSb 8)).addr 1 0 = 40 ∧ Consistent (smallSb 8) (u.store (smallSb 8)) ∧
      Named (smallSb 8) (u.store (smallSb 8)) := by
  have hopen : Opened (smallSb 8) (smallVolume S_IFDIR) slot0 :=
    emptyVolume_opened (.inr (by decide))
  have hruns : wp (create (smallEnv 8) ⟨slot0, 0, 0⟩ [97] S_IFREG 0 0)
      (fun r t => (r.isSome ∧ (t.store (smallSb 8)).addr 1 0 = 40 ∧ (t.icache slot0).Active ∧
          (t.icache slot0).inum < 4) ∧
        wp (create (smallEnv 8) ⟨slot0, 0, 0⟩ [98] S_IFREG 0 0)
          (fun r u => r.isSome ∧ (u.store (smallSb 8)).addr 1 0 = 40) (fun _ => False) t)
      (fun _ => False) (smallVolume S_IFDIR) := by
    decide +kernel
  obtain ⟨r, t, ht, ⟨hr, haddr, hactive, hinum⟩, hnext⟩ := hruns.returns fun _ => id
  obtain ⟨r', u, hu, hr', haddr'⟩ := hnext.returns fun _ => id
  obtain ⟨p, rfl⟩ := Option.isSome_iff_exists.mp hr
  obtain ⟨q, rfl⟩ := Option.isSome_iff_exists.mp hr'
  obtain ⟨hkeeps, hnamed⟩ :=
    (ownership_preserved (smallEnv 8) (smallVolume S_IFDIR) emptyVolume_consistent
    hopen.icache).2.2.2.2.2.2.2.1 ⟨slot0, 0, 0⟩ [97] S_IFREG
      0 0 emptyVolume_named hopen.active (by decide)
  obtain ⟨hcon, hicache⟩ := hkeeps.of_ok ht
  obtain ⟨hkeeps', hnamed'⟩ := (ownership_preserved (smallEnv 8) t hcon hicache).2.2.2.2.2.2.2.1
    ⟨slot0, 0, 0⟩ [98] S_IFREG 0 0 (hnamed.of_ok ht) hactive hinum
  exact ⟨p, q, t, u, ht, haddr, hcon, hu, haddr', (hkeeps'.of_ok hu).1, hnamed'.of_ok hu⟩

def staleCopy : Inode := { Inode.zero with mode := S_IFREG, nlink := 1 }

/-- The volume whose inode 1 maps block 41 on disk, with a stale copy in memory that does not. -/
def staleVolume : State :=
  volume ((initInode ByteBlock.zero 80 S_IFREG 0).write 104 (ByteBlock.le32 41)) staleCopy .zero

def staleDropped : State := staleVolume.setSlot slot0 ⟨1, 0, true, staleCopy⟩

theorem stale_dropped_ino : (staleDropped.store (smallSb 8)).ino 1 =
    (readInode ((initInode ByteBlock.zero 80 S_IFREG 0).write 104 (ByteBlock.le32 41))
      80).core := by
  have hnone : staleDropped.cached 1 = none := by
    refine List.find?_eq_none.mpr fun q _ => ?_
    rw [decide_eq_true_eq]
    rintro ⟨ha, _⟩
    by_cases hq : q = slot0
    · rw [hq, staleDropped, State.setSlot_self] at ha
      exact absurd ha (by unfold Slot.Active; decide)
    · rw [staleDropped, State.setSlot_ne _ hq] at ha
      exact hq (Fin.ext (volume_active ha))
  show (staleDropped.inode (smallSb 8) 1).core = _
  rw [State.inode, hnone]
  rfl

/-- What `ilock` reads of inode 75, beyond the last one: a directory without links, with block
    40. -/
def strayInode : Block :=
  (initInode ByteBlock.zero 0 S_IFDIR 0).write 24 (ByteBlock.le32 40)

/-- Copies that take precedence over the disk are not enough: dropping the last reference to a
    stale copy uncovers an address that nothing has marked.  Nor is a write-through cache enough for
    `create`: an entry may name an inode beyond the last one, which is read from a data block, and
    freed with the blocks it seems to have. -/
theorem stale_copy_breaks_ownership :
    (Consistent (smallSb 8) (staleVolume.store (smallSb 8)) ∧ (staleVolume.icache slot0).Active ∧
      (staleVolume.icache slot0).valid = true ∧ (staleVolume.icache slot0).ino.isReg ∧
      iput (smallSb 8) slot0 staleVolume = .ok ((), staleDropped) ∧
      ¬ Consistent (smallSb 8) (staleDropped.store (smallSb 8))) ∧
    ∃ s t, Consistent (smallSb 8) (s.store (smallSb 8)) ∧ Icache (smallSb 8) s none ∧
      (s.icache slot0).Active ∧ (s.icache slot0).inum < (smallSb 8).ninodes ∧
      create (smallEnv 8) ⟨slot0, 0, 0⟩ [120] S_IFDIR 0 0 s = .ok (none, t) ∧
      ¬ Consistent (smallSb 8) (t.store (smallSb 8)) := by
  refine ⟨⟨volume_consistent ?_ rfl rfl, Int.one_pos, rfl, by decide, rfl, fun h => ?_⟩, ?_⟩
  · intro i hi hne
    rw [readInode_congr (c := initInode ByteBlock.zero 80 S_IFREG 0), mode_inode_zero i hi hne]
    intro j hj
    refine ByteBlock.byte_write_of_notMem _ ?_
    unfold SuperBlock.ioff
    rw [IPB_eq, DINODESIZE_eq] at *
    show _ ∨ 104 + 4 ≤ _
    omega
  · have haddr : (staleDropped.store (smallSb 8)).addr 1 0 = 41 := by
      have hmode : ((staleDropped.store (smallSb 8)).ino 1).mode ≠ 0 := by
        rw [stale_dropped_ino]; decide +kernel
      refine (Store.addr_direct hmode 0).trans ?_
      rw [stale_dropped_ino]
      decide +kernel
    have hmark := h.owns.marked (1, 0)
        (by show (staleDropped.store (smallSb 8)).addr 1 0 ≠ 0; rw [haddr]; decide)
    cases hmark
  -- `dirlink` enters inode 75 in the root directory, and the next `create` of the name frees it
  · have hruns : wp (dirlink (smallEnv 8) slot0 [120] 75)
        (fun _ s => ((s.icache slot0).Active ∧ (s.icache slot0).inum < (smallSb 8).ninodes) ∧
          wp (create (smallEnv 8) ⟨slot0, 0, 0⟩ [120] S_IFDIR 0 0)
            (fun r t => r = none ∧ (t.store (smallSb 8)).addr 1 0 = 40 ∧
              (t.store (smallSb 8)).used 40 = false)
            (fun _ => False) s)
        (fun _ => False) (emptyVolume S_IFDIR strayInode) := by
      decide +kernel
    obtain ⟨r, s, hs, hcwd, hnext⟩ := hruns.returns fun _ => id
    obtain ⟨r', t, ht, rfl, haddr, hfree⟩ := hnext.returns fun _ => id
    have hopen : Opened (smallEnv 8).sb (emptyVolume S_IFDIR strayInode) slot0 :=
      emptyVolume_opened (.inr (by decide))
    obtain ⟨hcon, hicache⟩ := (dirlink_keepsOwnership hopen (by decide) [120] 75).of_ok hs
    refine ⟨s, t, hcon, hicache, hcwd.1, hcwd.2, ht, fun h => ?_⟩
    have hmark :=
      h.owns.marked (1, 0) (by show (t.store (smallSb 8)).addr 1 0 ≠ 0; rw [haddr]; decide)
    rw [show (t.store (smallSb 8)).addr _ _ = 40 from haddr, hfree] at hmark
    cases hmark

end Micro86.Fs
