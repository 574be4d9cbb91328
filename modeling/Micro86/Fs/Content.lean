import Micro86.Fs.Inodes

/-!
# Inode content: `bmap` and `itrunc`

`bmap` maps block `bn` of a file to a disk block, allocating it (and the indirect block) if
there is none; `itrunc` frees all blocks of a file; `iput` frees an inode that nothing refers
to any more.

* `bmap_spec` — the block is mapped afterwards, the file system has only grown (`Grows`).
* `itrunc_spec`, `iput_spec` — consistency is kept; in particular every block that is freed
  is marked.
-/

namespace Micro86.Fs

open Exec Function

def setAddr (ip : Ptr) (k : Fin (NDIRECT + 1)) (v : Nat) : FsM Unit :=
  Exec.modify fun s => s.setIno ip ((s.icache ip).ino.setAddr k v)

def bmapDirect (sb : SuperBlock) (ip : Ptr) (k : Fin (NDIRECT + 1)) : FsM Nat := do
  let s ← Exec.get
  if ((s.icache ip).ino.addrs k).toNat = 0 then do
    let addr ← balloc sb
    setAddr ip k addr
    pure addr
  else pure ((s.icache ip).ino.addrs k).toNat

/-- The disk block address of block `bn` of the inode; allocates one if there is none. -/
def bmap (sb : SuperBlock) (ip : Ptr) (bn : Nat) : FsM Nat :=
  if h : bn < NDIRECT then bmapDirect sb ip ⟨bn, by omega⟩
  else if bn - NDIRECT < NINDIRECT then do
    -- load the indirect block, allocating if necessary
    let ind ← bmapDirect sb ip (Fin.last NDIRECT)
    let bp ← bufferRead ind
    if bp.u32 (4 * (bn - NDIRECT)) = 0 then do
      let addr ← balloc sb
      let bp ← bufferRead ind
      logWrite sb ind (bp.write (4 * (bn - NDIRECT)) (ByteBlock.le32 addr))
      pure addr
    else pure (bp.u32 (4 * (bn - NDIRECT)))
  else Exec.panic "bmap: out of range"

def itruncDirect (sb : SuperBlock) (ip : Ptr) (i : Nat) : FsM Unit := do
  let s ← Exec.get
  if ((s.icache ip).ino.addrs (Fin.ofNat _ i)).toNat ≠ 0 then do
    bfree sb ((s.icache ip).ino.addrs (Fin.ofNat _ i)).toNat
    setAddr ip (Fin.ofNat _ i) 0
  else pure ()

def itruncIndirect (sb : SuperBlock) (ip : Ptr) : FsM Unit := do
  let s ← Exec.get
  if (s.icache ip).ino.indirect ≠ 0 then do
    let bp ← bufferRead (s.icache ip).ino.indirect
    forUpTo NINDIRECT fun j => if bp.u32 (4 * j) ≠ 0 then bfree sb (bp.u32 (4 * j)) else pure ()
    bfree sb (s.icache ip).ino.indirect
    setAddr ip (Fin.last NDIRECT) 0
  else pure ()

def itrunc (sb : SuperBlock) (ip : Ptr) : FsM Unit := do
  forUpTo NDIRECT (itruncDirect sb ip)
  itruncIndirect sb ip
  Exec.modify fun s => s.setIno ip { (s.icache ip).ino with size := 0 }
  iupdate sb ip

def ifree (sb : SuperBlock) (ip : Ptr) : FsM Unit := do
  itrunc sb ip
  Exec.modify fun s => s.setIno ip { (s.icache ip).ino with mode := 0 }
  iupdate sb ip
  Exec.modify fun s => s.setSlot ip { s.icache ip with valid := false }

/-- The first half of `iput`, under the inode's lock: free an inode that has no links and no
    other references. -/
def iputLast (sb : SuperBlock) (ip : Ptr) : FsM Unit := do
  let s ← Exec.get
  if (s.icache ip).valid = true ∧ (s.icache ip).ino.nlink = 0 ∧
    (s.icache ip).ref = 1 then ifree sb ip
  else pure ()

def iput (sb : SuperBlock) (ip : Ptr) : FsM Unit := do
  iputLast sb ip
  Exec.modify fun s => s.setSlot ip { s.icache ip with ref := (s.icache ip).ref - 1 }

section Bmap

variable {sb : SuperBlock} {s t : State} {p : Ptr} {x : Option Ptr}

structure Locked (sb : SuperBlock) (s : State) (p : Ptr) : Prop where
  active : (s.icache p).Active
  valid : (s.icache p).valid = true
  mode : (s.icache p).ino.mode ≠ 0
  icache : Icache sb s (some p)

theorem Icache.weaken (h : Icache sb s none) (p : Ptr) : Icache sb s (some p) :=
  ⟨h.unique, h.known, fun q hq hv _ => h.live q hq hv nofun,
    fun q hq hv _ => h.through q hq hv nofun⟩

theorem Icache.locked (h : Icache sb s none) (hp : (s.icache p).Active)
    (hv : (s.icache p).valid = true) : Locked sb s p :=
  ⟨hp, hv, h.live p hp hv nofun, h.weaken p⟩

section

variable (h : Locked sb s p)
include h

theorem Locked.store : (s.store sb).ino (s.icache p).inum = (s.icache p).ino.core :=
  h.icache.store_self h.active h.valid

theorem Locked.store_mode : ((s.store sb).ino (s.icache p).inum).mode ≠ 0 := by
  rw [h.store]
  exact h.mode

theorem Locked.addr_direct (k : Fin (NDIRECT + 1)) :
    (s.store sb).addr (s.icache p).inum k = ((s.icache p).ino.addrs k).toNat := by
  rw [Store.addr_direct h.store_mode, h.store]
  rfl

theorem Locked.same (hs : SameInodes sb s t) : Locked sb t p := by
  refine ⟨?_, ?_, ?_, hs.keep h.icache⟩
  · rw [hs.icache]; exact h.active
  · rw [hs.icache]; exact h.valid
  · rw [hs.icache]; exact h.mode

theorem Locked.setIno {ip : Inode} (hm : ip.mode ≠ 0) : Locked sb (s.setIno p ip) p :=
  ⟨by simpa using h.active, by simpa using h.valid, by
    simpa using hm, h.icache.setIno (.inr rfl) ip⟩

theorem Locked.store_setIno (ip : Inode) :
    (s.setIno p ip).store sb = (s.store sb).setInode (s.icache p).inum ip.core :=
  h.icache.store_setIno h.active h.valid ip

theorem Locked.free_setIno (ip : Inode) : (s.setIno p ip).free sb = s.free sb := by
  unfold State.free
  rw [h.store_setIno]
  rfl

end

/-- The only changes to the cache are block addresses in slot `p`. -/
structure SlotGrows (s t : State) (p : Ptr) : Prop where
  self : ∃ a, t.icache p = { s.icache p with ino := { (s.icache p).ino with addrs := a } }
  other : ∀ q, q ≠ p → t.icache q = s.icache q

theorem SlotGrows.of_same (h : t.icache = s.icache) : SlotGrows s t p :=
  ⟨⟨_, by rw [h]⟩, fun q _ => by rw [h]⟩

theorem SlotGrows.trans {u : State} (h : SlotGrows s t p) (h' : SlotGrows t u p) :
    SlotGrows s u p := by
  obtain ⟨a, ha⟩ := h.self
  obtain ⟨b, hb⟩ := h'.self
  exact ⟨⟨b, by rw [hb, ha]⟩, fun q hq => (h'.other q hq).trans (h.other q hq)⟩

theorem SlotGrows.inum (h : SlotGrows s t p) : (t.icache p).inum = (s.icache p).inum := by
  obtain ⟨a, ha⟩ := h.self
  rw [ha]

/-- `bmap`'s result: consistent, grown, mapped. -/
structure Mapped (sb : SuperBlock) (s : State) (p : Ptr) (k b : Nat) (t : State) : Prop where
  consistent : Consistent sb (t.store sb)
  locked : Locked sb t p
  grows : Grows (s.store sb) (t.store sb) (s.icache p).inum
  slots : SlotGrows s t p
  dinode : ∀ i, i < sb.ninodes → t.dinode sb i = s.dinode sb i
  addr : (t.store sb).addr (s.icache p).inum k = b
  nonzero : b ≠ 0
  same : (s.store sb).addr (s.icache p).inum k ≠ 0 → t = s

theorem bmapDirect_spec (hc : Consistent sb (s.store sb)) (hl : Locked sb s p)
    (k : Fin (NDIRECT + 1)) : Spec sb (bmapDirect sb p k) s 2 1 fun b t => Mapped sb s p k b t := by
  unfold bmapDirect
  refine Spec.get ?_
  split
  · rename_i hz
    have hz' : (((s.store sb).ino (s.icache p).inum).addrs k).toNat = 0 := by
      rw [hl.store]
      exact hz
    refine Spec.bind (balloc_spec hc.metadata) ?_
    rintro b u ⟨hb, hs, hsame⟩
    have hpos : b ≠ 0 := by
      have := hc.owns.pos
      have := hb.lo
      omega
    have hu := hl.same hsame
    have hstore : (u.setIno p ((u.icache p).ino.setAddr k b)).store sb =
        (s.store sb).allocDirect (s.icache p).inum k b := by
      rw [hu.store_setIno, hs, hsame.icache, Store.allocDirect, hl.store]
      rfl
    unfold setAddr
    refine Spec.modify rfl rfl (hu.free_setIno _)
      (Spec.pure ⟨?_, hu.setIno hu.mode, ?_, ?_, hsame.dinode, ?_, hpos, ?_⟩)
    · rw [hstore]
      exact hc.allocDirect hl.store_mode hz' hb
    · rw [hstore]
      exact grows_allocDirect hc hl.store_mode hz' hb
    · refine ⟨⟨((s.icache p).ino.setAddr k b).addrs, ?_⟩, fun q hq => ?_⟩
      · rw [State.setIno, State.setSlot_self, hsame.icache]
        rfl
      · rw [State.setIno, State.setSlot_ne _ hq, hsame.icache]
    · rw [hstore, addr_allocDirect hc hl.store_mode hz' hb, if_pos ⟨rfl, rfl⟩]
    · intro hne
      exact absurd ((hl.addr_direct k).trans hz) hne
  · rename_i hz
    exact Spec.pure ⟨hc, hl, Grows.refl _ _, SlotGrows.of_same rfl,
      fun _ _ => rfl, hl.addr_direct k, hz, fun _ => rfl⟩

theorem disk_eq_blk {b : Nat} (hb : sb.nmeta ≤ b) :
    s.disk b = (s.store sb).blk b := (if_pos hb).symm

theorem slotOf_indirect {bn : Nat} (h : ¬ bn < NDIRECT) :
    Store.slotOf bn = NDIRECT + 1 + (bn - NDIRECT) := by
  unfold Store.slotOf
  rw [if_neg h]
  omega

/-- **`bmap`** within a file: the block is mapped, and nothing that was mapped has changed. -/
theorem bmap_spec (hc : Consistent sb (s.store sb)) (hl : Locked sb s p)
    {bn : Nat} (hbn : bn < MAXFILE) :
    Spec sb (bmap sb p bn) s 5 2 fun b t => Mapped sb s p (Store.slotOf bn) b t := by
  unfold bmap
  split
  · rename_i h
    have hslot : Store.slotOf bn = bn := if_pos h
    rw [hslot]
    exact (bmapDirect_spec hc hl ⟨bn, by omega⟩).mono fun _ _ => id
  rename_i h
  have hj : bn - NDIRECT < NINDIRECT := by
    have : MAXFILE = NDIRECT + NINDIRECT := rfl
    omega
  rw [if_pos hj, slotOf_indirect h]
  generalize bn - NDIRECT = j at hj
  refine Spec.bind (bmapDirect_spec hc hl (Fin.last NDIRECT)) ?_
  intro ind u hu
  have hino := hu.slots.inum
  have hum : ((u.store sb).ino (s.icache p).inum).mode ≠ 0 := by
    rw [← hino]
    exact hu.locked.store_mode
  have hind : ((u.store sb).ino (s.icache p).inum).indirect = ind := by
    rw [← Store.addr_indirect hum]
    exact hu.addr
  have hrange := hu.consistent.addr_range (by rw [hu.addr]; exact hu.nonzero)
  rw [hu.addr] at hrange
  have hentry : (u.store sb).addr (s.icache p).inum (NDIRECT + 1 + j) =
      ((u.store sb).blk ind).u32 (4 * j) := by
    rw [Store.addr_entry hum hj, Store.entry, hind, if_neg hu.nonzero]
  -- an entry that was mapped was reached through a mapped indirect block
  have hback : (s.store sb).addr (s.icache p).inum (NDIRECT + 1 + j) ≠ 0 → u = s := by
    intro hne
    refine hu.same fun hz => hne ?_
    have hz' : ((s.store sb).ino (s.icache p).inum).indirect = 0 := by
      rw [← Store.addr_indirect hl.store_mode]
      exact hz
    rw [Store.addr_entry hl.store_mode hj, Store.entry, if_pos hz']
  refine Spec.read ?_
  rw [disk_eq_blk hrange.1, ← hentry]
  split
  · rename_i hz
    refine Spec.bind (balloc_spec hu.consistent.metadata) ?_
    rintro b v ⟨hb, hv, hsame⟩
    have hne : ind ≠ b := by
      have := hu.consistent.indirect_ne hb.free hum (by rw [hind]; exact hu.nonzero)
      rwa [hind] at this
    have hvi : v.disk ind = (u.store sb).blk ind := by
      rw [disk_eq_blk hrange.1, hv]
      simp [hne]
    refine Spec.read ?_
    rw [hvi]
    have hstore : (v.write ind (((u.store sb).blk ind).write (4 * j) (ByteBlock.le32 b))).store sb =
        (u.store sb).allocEntry (s.icache p).inum j b := by
      rw [store_write_data _ hrange.1, hv, Store.allocEntry, hind]
    have hwi :
        SameInodes sb u (v.write ind (((u.store sb).blk ind).write (4 * j) (ByteBlock.le32 b))) :=
      hsame.trans (sameInodes_write _ (sb.bmapstart_le_nmeta.trans hrange.1))
    refine Spec.bind (logWrite_spec (r := 0) ?_) ?_
    · unfold State.free
      rw [hstore, hv]
      exact le_rfl
    · rintro _ _ rfl
      have hind' :
          ((u.store sb).ino (s.icache p).inum).indirect ≠ 0 := by rw [hind]; exact hu.nonzero
      refine Spec.pure ⟨?_, hu.locked.same hwi, ?_, ?_, ?_, ?_, ?_, ?_⟩
      · rw [hstore]
        exact hu.consistent.allocEntry hum hind' hj hz hb
      · rw [hstore]
        exact hu.grows.trans (grows_allocEntry hu.consistent hum hind' hj hz hb)
      · exact hu.slots.trans (SlotGrows.of_same hwi.icache)
      · exact fun i hi => (hwi.dinode i hi).trans (hu.dinode i hi)
      · rw [hstore, addr_allocEntry hu.consistent hum hind' hj hb, if_pos ⟨rfl, rfl⟩]
      · have := hu.consistent.owns.pos
        have := hb.lo
        omega
      · intro hne
        rw [hback hne] at hz
        exact absurd hz hne
  · rename_i hz
    exact Spec.pure ⟨hu.consistent, hu.locked, hu.grows, hu.slots, hu.dinode, rfl, hz, hback⟩

end Bmap

/-! ## Truncation -/

section Itrunc

variable {sb : SuperBlock} {s t u : State} {p : Ptr}

/-- A state on the way through `itrunc`: the blocks at the addresses `F` are freed, and slot `p`
    holds the addresses `A`. -/
structure Truncating (sb : SuperBlock) (s : State) (p : Ptr) (A : Fin (NDIRECT + 1) → UInt32)
    (F : Nat → Prop) (t : State) : Prop where
  freed : Freed sb (s.store sb) (t.store sb) (s.icache p).inum F
  self : t.icache p = { s.icache p with ino := { (s.icache p).ino with addrs := A } }
  other : ∀ q, q ≠ p → t.icache q = s.icache q
  icache : Icache sb t (some p)

namespace Truncating

variable {A : Fin (NDIRECT + 1) → UInt32} {F G : Nat → Prop}

variable (h : Truncating sb s p A F t)
include h

theorem locked (hl : Locked sb s p) : Locked sb t p :=
  ⟨by rw [h.self]; exact hl.active, by rw [h.self]; exact hl.valid, by
    rw [h.self]; exact hl.mode, h.icache⟩

theorem congr (hFG : ∀ k, F k ↔ G k) : Truncating sb s p A G t := by
  rwa [← show F = G from funext fun k => propext (hFG k)]

theorem weaken (hc : Consistent sb (s.store sb)) (hFG : ∀ k, F k → G k)
    (hG : ∀ k, G k → F k ∨ (s.store sb).addr (s.icache p).inum k = 0) : Truncating sb s p A G t :=
  ⟨h.freed.weaken hc hFG hG, h.self, h.other, h.icache⟩

/-- `bfree(addr); addrs[k] = 0` and the other in-memory changes to slot `p`. -/
theorem setAddrs (hl : Locked sb s p) (B : Fin (NDIRECT + 1) → UInt32) :
    Truncating sb s p B F (t.setIno p { (t.icache p).ino with addrs := B }) where
  freed := by
    have hi : (t.icache p).inum = (s.icache p).inum := by rw [h.self]
    rw [(h.locked hl).store_setIno, hi]
    exact h.freed.setInode _
  self := by rw [State.setIno, State.setSlot_self, h.self]
  other q hq := by rw [State.setIno, State.setSlot_ne _ hq, h.other q hq]
  icache := h.icache.setIno (Or.inr rfl) _

theorem bfree_spec (hc : Consistent sb (s.store sb)) {k : Nat} (hk : ¬ F k)
    (hne : (s.store sb).addr (s.icache p).inum k ≠ 0) :
    Spec sb (bfree sb ((s.store sb).addr (s.icache p).inum k)) t 1 0 fun _ u =>
      Truncating sb s p A (fun n => F n ∨ n = k) u := by
  obtain ⟨_, hlt⟩ := hc.addr_range hne
  refine (Fs.bfree_spec hlt (h.freed.still_used hc hk hne)).mono ?_
  rintro _ u ⟨hs, hsame⟩
  refine ⟨?_,
    by rw [hsame.icache]; exact h.self, fun q hq => by rw [hsame.icache]; exact h.other q hq,
    hsame.keep h.icache⟩
  rw [hs]
  exact h.freed.setUsed hc hne

end Truncating

/-- The addresses in memory after `n` rounds of the first loop. -/
def clearedTo (A : Fin (NDIRECT + 1) → UInt32) (n : Nat) : Fin (NDIRECT + 1) → UInt32 :=
  fun k => if k.val < n then 0 else A k

theorem update_clearedTo (A : Fin (NDIRECT + 1) → UInt32) (k : Fin (NDIRECT + 1)) :
    update (clearedTo A k.val) k 0 = clearedTo A (k.val + 1) := by
  funext j
  unfold clearedTo
  by_cases hj : j = k
  · subst hj
    simp
  · have hiff : j.val < k.val + 1 ↔ j.val < k.val := by omega
    simp [update_of_ne hj, hiff]

theorem clearedTo_succ_of_zero {A : Fin (NDIRECT + 1) → UInt32}
    {k : Fin (NDIRECT + 1)} (h : (A k).toNat = 0) :
    clearedTo A (k.val + 1) = clearedTo A k.val := by
  have hz : A k = 0 := UInt32.toNat_inj.mp h
  rw [← update_clearedTo, update_eq_self_iff]
  simp [clearedTo, hz]

theorem clearedTo_all (A : Fin (NDIRECT + 1) → UInt32) : clearedTo A (NDIRECT + 1) = fun _ => 0 :=
  funext fun k => if_pos k.isLt

theorem Truncating.setAddr_spec {A : Fin (NDIRECT + 1) → UInt32} {F : Nat → Prop}
    (h : Truncating sb s p A F t) (hl : Locked sb s p) (k : Fin (NDIRECT + 1)) :
    Spec sb (setAddr p k 0) t 0 0 fun _ u => Truncating sb s p (update A k 0) F u := by
  have hset : t.setIno p ((t.icache p).ino.setAddr k 0) =
      t.setIno p { (t.icache p).ino with addrs := update A k 0 } := by
    unfold Inode.setAddr
    rw [h.self]
    rfl
  refine ⟨⟨le_rfl, ((h.locked hl).free_setIno _).ge, rfl⟩, ?_⟩
  · show Truncating sb s p _ F (t.setIno p ((t.icache p).ino.setAddr k 0))
    rw [hset]
    exact h.setAddrs hl _

theorem itruncDirect_spec (hc : Consistent sb (s.store sb)) (hl : Locked sb s p) :
    Spec sb (forUpTo NDIRECT (itruncDirect sb p)) s NDIRECT 0 fun _ t =>
      Truncating sb s p (clearedTo (s.icache p).ino.addrs NDIRECT) (· < NDIRECT) t := by
  have h0 : Truncating sb s p (clearedTo (s.icache p).ino.addrs 0) (· < 0) s := by
    refine ⟨(Freed.refl _ _).weaken hc (fun _ hk => hk.elim) fun k hk =>
      absurd hk (Nat.not_lt_zero k), ?_, fun _ _ => rfl, hl.icache⟩
    have : clearedTo (s.icache p).ino.addrs 0 = (s.icache p).ino.addrs := by
      funext k
      simp [clearedTo]
    rw [this]
  refine (Spec.forUpTo (k := 1) (r := 0)
    (I := fun n t => Truncating sb s p (clearedTo (s.icache p).ino.addrs n) (· < n) t)
    h0 ?_).mono fun _ _ => id
  intro n hn t ht
  obtain ⟨i, rfl⟩ : ∃ i : Fin (NDIRECT + 1), n = i := ⟨⟨n, by omega⟩, rfl⟩
  have haddr := hl.addr_direct i
  have hmem : (t.icache p).ino.addrs i = (s.icache p).ino.addrs i := by
    rw [ht.self]
    simp [clearedTo]
  have hgrow : ∀ k, k < i.val ∨ k = i ↔ k < i + 1 := fun k => by omega
  unfold itruncDirect
  refine Spec.get ?_
  rw [Fin.ofNat_val_eq_self, hmem, ← haddr]
  split
  · rename_i hne
    refine Spec.bind (ht.bfree_spec hc (Nat.lt_irrefl i) hne) ?_
    intro _ u hu
    refine (hu.setAddr_spec hl _).mono ?_
    intro _ v hv
    rw [update_clearedTo] at hv
    exact hv.congr hgrow
  · rename_i hz
    have hz : (s.store sb).addr (s.icache p).inum i = 0 := Decidable.not_not.mp hz
    refine Spec.pure ?_
    rw [clearedTo_succ_of_zero (haddr.symm.trans hz)]
    refine ht.weaken hc (fun k hk => by omega) fun k hk => ?_
    rcases (hgrow k).mpr hk with hk | rfl
    · exact .inl hk
    · exact .inr hz

theorem itruncIndirect_spec (hc : Consistent sb (s.store sb)) (hl : Locked sb s p)
    (ht : Truncating sb s p (clearedTo (s.icache p).ino.addrs NDIRECT) (· < NDIRECT) t) :
    Spec sb (itruncIndirect sb p) t (NINDIRECT + 1) 0 fun _ u =>
      Truncating sb s p (fun _ => 0) (· < NDIRECT + 1 + NINDIRECT) u := by
  have hmem : (t.icache p).ino.indirect = (s.icache p).ino.indirect := by
    unfold Inode.indirect
    rw [ht.self]
    simp [clearedTo]
  have hind : (s.store sb).addr (s.icache p).inum NDIRECT = (s.icache p).ino.indirect :=
    hl.addr_direct (Fin.last NDIRECT)
  have hent : ∀ j, j < NINDIRECT → (s.icache p).ino.indirect ≠ 0 →
      (s.store sb).addr (s.icache p).inum (NDIRECT + 1 + j) =
        ((s.store sb).blk (s.icache p).ino.indirect).u32 (4 * j) := by
    intro j hj hne
    have hi : ((s.store sb).ino (s.icache p).inum).indirect = (s.icache p).ino.indirect := by
      rw [hl.store]
      rfl
    rw [Store.addr_entry hl.store_mode hj, Store.entry, hi, if_neg hne]
  unfold itruncIndirect
  refine Spec.get ?_
  rw [hmem]
  split
  · rename_i hne
    have hlo : sb.nmeta ≤ (s.icache p).ino.indirect := by
      rw [← hind] at hne ⊢
      exact (hc.addr_range hne).1
    refine Spec.read ?_
    rw [disk_eq_blk hlo, ht.freed.blk]
    -- the entries, one block each
    have hloop : Spec sb (forUpTo NINDIRECT fun j =>
        if ((s.store sb).blk (s.icache p).ino.indirect).u32 (4 * j) ≠ 0 then
          bfree sb (((s.store sb).blk (s.icache p).ino.indirect).u32 (4 * j)) else pure ()) t
        (NINDIRECT * 1) (NINDIRECT * 0) fun _ u =>
        Truncating sb s p (clearedTo (s.icache p).ino.addrs NDIRECT)
          (fun k => k < NDIRECT ∨ (NDIRECT + 1 ≤ k ∧ k < NDIRECT + 1 + NINDIRECT)) u := by
      refine Spec.forUpTo
        (I := fun n u => Truncating sb s p (clearedTo (s.icache p).ino.addrs NDIRECT)
        (fun k => k < NDIRECT ∨ (NDIRECT + 1 ≤ k ∧ k < NDIRECT + 1 + n)) u) ?_ ?_
      · exact ht.congr fun k => by omega
      intro j hj u hu
      rw [← hent j hj hne]
      have hgrow : ∀ k, (k < NDIRECT ∨ (NDIRECT + 1 ≤ k ∧ k < NDIRECT + 1 + j)) ∨
          k = NDIRECT + 1 + j ↔
          k < NDIRECT ∨ (NDIRECT + 1 ≤ k ∧ k < NDIRECT + 1 + (j + 1)) := fun k => by omega
      split
      · rename_i hz
        exact (hu.bfree_spec hc (by omega) hz).mono fun _ v hv => hv.congr hgrow
      rename_i hz
      refine Spec.pure (hu.weaken hc (fun k hk => (hgrow k).mp (.inl hk)) fun k hk => ?_)
      rcases (hgrow k).mpr hk with hk | rfl
      · exact .inl hk
      · exact .inr (Decidable.not_not.mp hz)
    refine Spec.bind hloop fun _ u hu => ?_
    rw [← hind]
    refine Spec.bind (hu.bfree_spec hc (by omega) (by rw [hind]; exact hne)) ?_
    intro _ v hv
    refine (hv.setAddr_spec hl (Fin.last NDIRECT)).mono fun _ w hw => ?_
    have hlast :
        update (clearedTo (s.icache p).ino.addrs NDIRECT) (Fin.last NDIRECT) 0 = fun _ => 0 :=
      (update_clearedTo _ (Fin.last NDIRECT)).trans (clearedTo_all _)
    rw [hlast] at hw
    exact hw.congr fun k => by omega
  · rename_i hz
    have hz : (s.icache p).ino.indirect = 0 := Decidable.not_not.mp hz
    have hzero : clearedTo (s.icache p).ino.addrs NDIRECT = fun _ => 0 :=
      (clearedTo_succ_of_zero (k := Fin.last NDIRECT) hz).symm.trans (clearedTo_all _)
    rw [hzero] at ht
    refine Spec.pure (ht.weaken hc (fun k hk => by omega) fun k hk => ?_)
    by_cases hk' : k < NDIRECT
    · exact .inl hk'
    right
    obtain rfl | hgt : k = NDIRECT ∨ NDIRECT + 1 ≤ k := by omega
    · rw [hind, hz]
    obtain ⟨j, rfl⟩ : ∃ j, k = NDIRECT + 1 + j := ⟨k - (NDIRECT + 1), by omega⟩
    rw [Store.addr_entry hl.store_mode (by omega), Store.entry, if_pos]
    rw [hl.store]
    exact hz

/-- `itrunc`'s result: consistent again, inode `i` empty, every other inode as it was. -/
structure Truncated (sb : SuperBlock) (s : State) (p : Ptr) (t : State) : Prop where
  consistent : Consistent sb (t.store sb)
  icache : Icache sb t none
  self :
    t.icache p = { s.icache p with ino := { (s.icache p).ino with addrs := fun _ => 0, size := 0 } }
  other : ∀ q, q ≠ p → t.icache q = s.icache q
  ino : ∀ j, j ≠ (s.icache p).inum → (t.store sb).ino j = (s.store sb).ino j
  blk : (t.store sb).blk = (s.store sb).blk

/-- **`itrunc`** of a valid inode: every block it frees is marked, so it cannot panic with
    `freeing free block`. -/
theorem itrunc_spec (hc : Consistent sb (s.store sb)) (hl : Locked sb s p) :
    Spec sb (itrunc sb p) s (MAXFILE + 2) 0 fun _ t => Truncated sb s p t := by
  unfold itrunc
  have hmax : MAXFILE = NDIRECT + NINDIRECT := rfl
  refine Spec.bind (itruncDirect_spec hc hl) fun _ t ht => ?_
  refine Spec.bind (itruncIndirect_spec hc hl ht) fun _ u hu => ?_
  have hul := hu.locked hl
  have hmem : { (u.icache p).ino with size := 0 } =
      ({ (s.icache p).ino with addrs := fun _ => 0, size := 0 } : Inode) := by rw [hu.self]
  have hinum : (u.icache p).inum = (s.icache p).inum := by rw [hu.self]
  refine Spec.modify rfl rfl (hul.free_setIno _) ?_
  rw [hmem]
  have hvl : Locked sb (u.setIno p { (s.icache p).ino with addrs := fun _ => 0, size := 0 }) p :=
    hul.setIno hl.mode
  have hvs := hul.store_setIno { (s.icache p).ino with addrs := fun _ => 0, size := 0 }
  rw [hinum] at hvs
  refine (iupdate_spec hvl.icache (.inr rfl) hvl.active hvl.valid).mono ?_
  rintro _ w ⟨hws, hwc, _, _, hwi⟩
  refine ⟨?_, hwi hvl.mode, ?_, fun q hq => ?_, fun j hj => ?_, ?_⟩
  · rw [hws, hvs]
    refine (hu.freed.setInode _).consistent hc (fun k hk => ?_) (fun k => ?_) ?_
    · refine Decidable.byContradiction fun hge => hk ?_
      rw [Store.addr_of_alloc hl.store_mode, Store.addrOf, dif_neg (by omega), if_neg hge]
    · simp [Inode.core]
    · simp [Inode.core]
  · rw [hwc, State.setIno, State.setSlot_self, hu.self]
  · rw [hwc, State.setIno, State.setSlot_ne _ hq, hu.other q hq]
  · rw [hws, hvs, ← hu.freed.other j hj]
    exact update_of_ne hj _ _
  · rw [hws, hvs, ← hu.freed.blk]
    rfl

end Itrunc

/-! ## Dropping references -/

section Iput

variable {sb : SuperBlock} {s t u : State} {p : Ptr} {H : List Ptr}

/-- What `iput` leaves: inodes as they were or freed, and no block written. -/
structure Put (sb : SuperBlock) (s : State) (p : Ptr) (H : List Ptr) (t : State) : Prop where
  consistent : Consistent sb (t.store sb)
  icache : Icache sb t none
  holds : Holds t H
  keeps : Keeps s t H
  blk : (t.store sb).blk = (s.store sb).blk
  other : ∀ j, j ≠ (s.icache p).inum → (t.store sb).ino j = (s.store sb).ino j
  self : (t.store sb).ino (s.icache p).inum = (s.store sb).ino (s.icache p).inum ∨
    (((t.store sb).ino (s.icache p).inum).mode = 0 ∧ ((s.store sb).ino (s.icache p).inum).nlink = 0)

theorem Holds.drop (h : Holds s (p :: H)) (hp : (t.icache p).ref = (s.icache p).ref - 1)
    (hother : ∀ q, q ≠ p → (t.icache q).ref = (s.icache q).ref) : Holds t H := by
  intro q hmem
  have hq := h q (.tail _ hmem)
  rw [List.count_cons] at hq
  by_cases hqp : q = p
  · subst hqp
    simp only [beq_self_eq_true, if_true] at hq
    omega
  rw [hother q hqp]
  have hne : (p == q) = false := by simpa using fun he => hqp he.symm
  simpa [hne] using hq

/-- A slot whose last reference is dropped need not be in step with anything. -/
theorem Icache.drop (h : Icache sb s none) (hp : (s.icache p).Active) :
    Icache sb (s.setSlot p { s.icache p with ref := (s.icache p).ref - 1 }) none :=
  h.setSlot (.inl rfl) (fun _ q hq hqa he => hq (h.unique q p hqa hp he))
    (fun _ => h.known p hp) fun _ hv _ => ⟨h.live p hp hv nofun, h.through p hp hv nofun⟩

/-- The state right before `iput` drops the last reference to an inode without links. -/
structure Freeing (sb : SuperBlock) (s : State) (p : Ptr) (t : State) : Prop where
  consistent : Consistent sb (t.store sb)
  icache : Icache sb t none
  self : (t.icache p).ref = (s.icache p).ref
  slots : ∀ q, q ≠ p → t.icache q = s.icache q
  blk : (t.store sb).blk = (s.store sb).blk
  other : ∀ j, j ≠ (s.icache p).inum → (t.store sb).ino j = (s.store sb).ino j
  mode : ((t.store sb).ino (s.icache p).inum).mode = 0

theorem ifree_spec (hc : Consistent sb (s.store sb)) (hl : Locked sb s p) :
    Spec sb (ifree sb p) s (MAXFILE + 3) 0 fun _ t => Freeing sb s p t := by
  unfold ifree
  refine Spec.bind (itrunc_spec hc hl) fun _ t ht => ?_
  have htl : Locked sb t p :=
    ht.icache.locked (by rw [ht.self]; exact hl.active) (by rw [ht.self]; exact hl.valid)
  have hinum : (t.icache p).inum = (s.icache p).inum := by rw [ht.self]
  refine Spec.modify rfl rfl (htl.free_setIno _) ?_
  have hus := htl.store_setIno { (t.icache p).ino with mode := 0 }
  have hui := ht.icache.setIno (p := p) (.inl rfl) { (t.icache p).ino with mode := 0 }
  generalize hu : t.setIno p { (t.icache p).ino with mode := 0 } = u at hus hui
  have hua : (u.icache p).Active := by rw [← hu]; simpa using htl.active
  have huv : (u.icache p).valid = true := by rw [← hu]; simpa using htl.valid
  refine Spec.bind (iupdate_spec hui (.inr rfl) hua huv) ?_
  rintro _ w ⟨hws, hwc, hwi, hsync, _⟩
  have hwa : (w.icache p).Active := by rw [hwc]; exact hua
  have hwv : (w.icache p).valid = true := by rw [hwc]; exact huv
  -- dropping the copy makes the disk the authority, and it is in step
  have hxi : Icache sb (w.setSlot p { w.icache p with valid := false }) none :=
    hwi.setSlot (.inr rfl) (fun _ q hq hqa he => hq (hwi.unique q p hqa hwa he)) nofun nofun
  have hxs := hwi.store_eq_of_sync hxi rfl hwa hwv (by rw [hwc]; exact hsync)
  have hstore : (w.setSlot p { w.icache p with valid := false }).store sb =
      (t.store sb).setInode (s.icache p).inum (Inode.core { (t.icache p).ino with mode := 0 }) := by
    rw [hxs, hws, hus, hinum]
  refine ⟨⟨le_rfl, Nat.le_of_eq ?_, rfl⟩, ?_⟩
  · unfold State.free
    exact congrArg (fun st => freeCount sb.size (Store.used st)) hxs.symm
  show Freeing sb s p (w.setSlot p { w.icache p with valid := false })
  have hzero : ∀ k, (t.store sb).addr (s.icache p).inum k = 0 := by
    intro k
    have hi := htl.store
    rw [hinum] at hi
    unfold Store.addr Store.addrOf Store.entry
    rw [hi, ht.self]
    simp [Inode.core, Inode.indirect]
  refine ⟨?_, hxi, ?_, fun q hq => ?_, ?_, fun j hj => ?_, ?_⟩
  · rw [hstore]
    refine ht.consistent.setInode (fun k => ?_) fun hm => ?_
    · rw [hzero]
      exact Store.addr_of_free (by simp [Inode.core])
    · simp [Inode.isReg, Inode.isDir, Inode.core, S_IFREG, S_IFDIR] at hm
  · rw [State.setSlot_self, hwc, ← hu, State.setIno_ref, ht.self]
  · rw [State.setSlot_ne _ hq, hwc, ← hu, State.setIno, State.setSlot_ne _ hq, ht.other q hq]
  · rw [hstore, ← ht.blk]
    rfl
  · rw [hstore, ← ht.ino j hj]
    exact update_of_ne hj _ _
  · rw [hstore]
    simp [Inode.core]

/-- **`iput`** keeps consistency, whether it frees the inode or not. -/
theorem iput_spec (hc : Consistent sb (s.store sb)) (hi : Icache sb s none)
    (hH : Holds s (p :: H)) : Spec sb (iput sb p) s (MAXFILE + 3) 0 fun _ t => Put sb s p H t := by
  have hp : (s.icache p).Active := hH.active List.mem_cons_self
  have hslots : ∀ (t : State), (t.icache p).ref = (s.icache p).ref →
      (∀ q, q ≠ p → t.icache q = s.icache q) →
      Holds (t.setSlot p { t.icache p with ref := (t.icache p).ref - 1 }) H := by
    intro t h1 h2
    refine hH.drop (by rw [State.setSlot_self]; exact congrArg (· - 1) h1) fun q hq => ?_
    rw [State.setSlot_ne _ hq, h2 q hq]
  have hfreeEq : ∀ t : State, Icache sb t none → (t.icache p).Active →
      Spec sb
        (Exec.modify fun s => s.setSlot p { s.icache p with ref := (s.icache p).ref - 1 }) t 0 0
        fun _ u => u = t.setSlot p { t.icache p with ref := (t.icache p).ref - 1 } := by
    intro t hti hta
    refine ⟨⟨le_rfl, Nat.le_of_eq ?_, rfl⟩, rfl⟩
    unfold State.free
    exact congrArg (fun st => freeCount sb.size (Store.used st))
      (hti.store_eq (hti.drop hta) rfl).symm
  unfold iput iputLast
  by_cases hfree : (s.icache p).valid = true ∧ (s.icache p).ino.nlink = 0 ∧ (s.icache p).ref = 1
  · obtain ⟨hv, hn, href⟩ := hfree
    have hl := hi.locked hp hv
    have hpH : p ∉ H := by
      intro hm
      have h1 := hH p List.mem_cons_self
      have h2 := List.count_pos_iff.mpr hm
      rw [List.count_cons_self] at h1
      omega
    refine Spec.bind (R := fun _ => Freeing sb s p) (k := MAXFILE + 3) (r := 0) ?_ fun _ t ht => ?_
    · refine Spec.get ?_
      rw [if_pos ⟨hv, hn, href⟩]
      exact ifree_spec hc hl
    have hta : (t.icache p).Active := by
      unfold Slot.Active
      rw [ht.self]
      exact hp
    have hstore := ht.icache.store_eq (ht.icache.drop hta) rfl
    refine (hfreeEq t ht.icache hta).mono ?_
    rintro _ _ rfl
    refine ⟨by rw [hstore]; exact ht.consistent, ht.icache.drop hta, hslots t ht.self ht.slots, fun
      q hq => ?_, by rw [hstore]; exact ht.blk, fun j hj => by rw [hstore]; exact ht.other j hj,
      .inr ⟨by rw [hstore]; exact ht.mode, by rw [hl.store]; exact hn⟩⟩
    have hqp : q ≠ p := fun he => hpH (he ▸ hq)
    rw [State.setSlot_ne _ hqp, ht.slots q hqp]
    exact ⟨rfl, fun hv => ⟨hv, rfl⟩⟩
  · refine Spec.bind (R := fun _ t => t = s) (k := 0) (r := 0) ?_ ?_
    · refine Spec.get ?_
      rw [if_neg hfree]
      exact Spec.pure rfl
    rintro _ _ rfl
    have hstore := hi.store_eq (hi.drop hp) rfl
    refine (hfreeEq _ hi hp).mono ?_
    rintro _ _ rfl
    refine ⟨by
      rw [hstore]; exact hc, hi.drop hp, hslots _ rfl fun _ _ => rfl, fun q _ => ?_, by rw [hstore],
      fun j _ => by rw [hstore], .inl (by rw [hstore])⟩
    exact State.setSlot_cases q ⟨rfl, fun hv => ⟨hv, rfl⟩⟩ fun _ => ⟨rfl, fun hv => ⟨hv, rfl⟩⟩

end Iput

end Micro86.Fs
