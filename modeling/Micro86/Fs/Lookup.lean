import Micro86.Fs.Paths

/-!
# Looking a path up

What `namei` does on blocks that it leaves as they are.  Unlike in `Micro86.Fs.Paths`, the inode
numbers need not be below `ninodes`: `iget` and `ilock` do not test them.

* `Walking.step` — one path element that is found; `Walking.lost` — one that is not.
* `readi_unmapped` — outside a transaction, `readi` of a block that is not mapped panics.
-/

namespace Micro86.Fs

open Exec

/-- One slot per inode, and valid copies agree with the disk. -/
structure Coherent (sb : SuperBlock) (s : State) : Prop where
  unique : ∀ p q, (s.icache p).Active → (s.icache q).Active →
    (s.icache p).inum = (s.icache q).inum → p = q
  through : ∀ p, (s.icache p).Active → (s.icache p).valid = true →
    (s.icache p).ino.core = (s.dinode sb (s.icache p).inum).core

/-- Two slots are free, for the directory and for the entry in it. -/
structure Spare (s : State) : Prop where
  nonneg : ∀ p, 0 ≤ (s.icache p).ref
  two : ∃ a b, a ≠ b ∧ (s.icache a).ref = 0 ∧ (s.icache b).ref = 0

/-- A walk that started in `s` is at inode `i`, which it holds through `p`. -/
structure Walking (sb : SuperBlock) (s : State) (p : Ptr) (i : Nat) (t : State) : Prop where
  disk : t.disk = s.disk
  outstanding : t.outstanding = s.outstanding
  coherent : Coherent sb t
  refs : ∀ q, (t.icache q).ref = (s.icache q).ref + if q = p then 1 else 0
  inum : (t.icache p).inum = i

theorem Inode.of_core {ip ip' : Inode} (he : ip'.core = ip.core) :
    ip'.mode = ip.mode ∧ ip'.nlink = ip.nlink ∧ ip'.size = ip.size ∧ ip'.addrs = ip.addrs := by
  have hmode : ip'.core.mode = ip.core.mode := congrArg Inode.mode he
  have hnlink : ip'.core.nlink = ip.core.nlink := congrArg Inode.nlink he
  have hsize : ip'.core.size = ip.core.size := congrArg Inode.size he
  have haddrs : ip'.core.addrs = ip.core.addrs := congrArg Inode.addrs he
  exact ⟨hmode, hnlink, hsize, haddrs⟩

section Cache

variable {sb : SuperBlock} {s t : State} {p q : Ptr} {i : Nat}

theorem Coherent.setSlot (h : Coherent sb s) {sl : Slot}
    (huniq : sl.Active → ∀ q, q ≠ p → (s.icache q).Active → (s.icache q).inum ≠ sl.inum)
    (hsync : sl.Active → sl.valid = true → sl.ino.core = (s.dinode sb sl.inum).core) :
    Coherent sb (s.setSlot p sl) :=
  ⟨unique_update h.unique huniq, fun q => State.setSlot_cases q hsync fun _ => h.through q⟩

theorem Coherent.setSlot_same (h : Coherent sb s) (hp : (s.icache p).Active)
    {sl : Slot} (hi : sl.inum = (s.icache p).inum)
    (hsync : sl.Active → sl.valid = true → sl.ino.core = (s.dinode sb sl.inum).core) :
    Coherent sb (s.setSlot p sl) :=
  h.setSlot (fun _ q hq hqa he => hq (h.unique q p hqa hp (he.trans hi))) hsync

theorem IgetTo.coherent (h : IgetTo s i p t) (hc : Coherent sb s) : Coherent sb t := by
  cases h with
  | hit ha _ => exact hc.setSlot_same ha rfl fun _ => hc.through p ha
  | miss hno _ => exact hc.setSlot (fun _ q _ => hno q) nofun

theorem IgetTo.refs (h : IgetTo s i p t) (q : Ptr) :
    (t.icache q).ref = (s.icache q).ref + if q = p then 1 else 0 := by
  cases h with
  | hit _ _ =>
    refine State.setSlot_cases q ?_ fun hq => ?_
    · rw [if_pos rfl]
    · rw [if_neg hq, Int.add_zero]
  | miss _ hz =>
    refine State.setSlot_cases q ?_ fun hq => ?_
    · rw [if_pos rfl, hz, Int.zero_add]
    · rw [if_neg hq, Int.add_zero]

theorem IgetTo.outstanding (h : IgetTo s i p t) :
    t.outstanding = s.outstanding := by cases h <;> rfl

theorem iget_returns (hfree : ∃ a, (s.icache a).ref = 0) (i : Nat) :
    ∃ p t, iget i s = .ok (p, t) ∧ IgetTo s i p t := by
  obtain ⟨a, ha⟩ := hfree
  exact (iget_spec i).returns fun _ hE => hE.2 a ha

theorem Spare.free (h : Spare s) (hw : Walking sb s p i t) : ∃ a, (t.icache a).ref = 0 := by
  obtain ⟨a, b, hne, ha, hb⟩ := h.two
  by_cases hap : a = p
  · refine ⟨b, ?_⟩
    rw [hw.refs, hb, if_neg fun hbp => hne (hap.trans hbp.symm)]
    rfl
  refine ⟨a, ?_⟩
  rw [hw.refs, ha, if_neg hap]
  rfl

theorem Spare.active (h : Spare s) (hw : Walking sb s p i t) : (t.icache p).Active := by
  have := h.nonneg p
  unfold Slot.Active
  rw [hw.refs, if_pos rfl]
  omega

theorem Spare.begins (h : Spare s) (hc : Coherent sb s) (i : Nat) :
    ∃ p t, iget i s = .ok (p, t) ∧ Walking sb s p i t := by
  obtain ⟨a, _, _, ha, _⟩ := h.two
  obtain ⟨p, t, he, ht⟩ := iget_returns ⟨a, ha⟩ i
  exact ⟨p, t, he, ht.disk, ht.outstanding, ht.coherent hc, ht.refs, ht.inum_eq⟩

/-- The inode the walk is at has been read. -/
structure Walking.Locked (sb : SuperBlock) (s : State) (p : Ptr) (i : Nat) (t : State) : Prop where
  walking : Walking sb s p i t
  valid : (t.icache p).valid = true
  ino : (t.icache p).ino.core = (s.dinode sb i).core

theorem Walking.Locked.isDir (h : Walking.Locked sb s p i t) (hdir : (s.dinode sb i).isDir) :
    (t.icache p).ino.isDir := by
  unfold Inode.isDir at hdir ⊢
  rw [(Inode.of_core h.ino).1]
  exact hdir

theorem Walking.ilock (hs : Spare s) (h : Walking sb s p i t) (hm : (s.dinode sb i).mode ≠ 0) :
    ∃ u, ilock sb p t = .ok ((), u) ∧ Walking.Locked sb s p i u := by
  have ha := hs.active h
  have hdin : t.dinode sb i = s.dinode sb i := by
    unfold State.dinode
    rw [h.disk]
  have href : ¬ (t.icache p).ref < 1 := by
    unfold Slot.Active at ha
    omega
  cases hv : (t.icache p).valid with
  | true =>
    refine ⟨t, ?_, h, hv, ?_⟩
    · unfold Fs.ilock
      show (if _ then _ else _ : FsM Unit) t = _
      rw [if_neg href, if_neg (by rw [hv]; decide)]
      rfl
    · rw [h.coherent.through p ha hv, h.inum, hdin]
  | false =>
    have hloaded : ({ t.icache p with ino := t.dinode sb i, valid := true } : Slot).inum =
        (t.icache p).inum := rfl
    refine ⟨t.setSlot p { t.icache p with ino := t.dinode sb i, valid := true },
      ?_, ⟨h.disk, h.outstanding, ?_, fun q => ?_, ?_⟩, ?_, ?_⟩
    · unfold Fs.ilock
      show (if _ then _ else _ : FsM Unit) t = _
      rw [if_neg href, if_pos hv]
      show (if (t.dinode sb (t.icache p).inum).mode = 0 then Exec.panic _ else pure () : FsM Unit)
        (t.setSlot p { t.icache p with ino := t.dinode sb (t.icache p).inum, valid := true }) = _
      rw [h.inum, if_neg (by rw [hdin]; exact hm)]
      rfl
    · refine h.coherent.setSlot_same ha hloaded fun _ _ => ?_
      show (t.dinode sb i).core = (t.dinode sb (t.icache p).inum).core
      rw [h.inum]
    · rw [← h.refs]
      exact State.setSlot_cases q rfl fun _ => rfl
    · rw [State.setSlot_self]
      exact h.inum
    · rw [State.setSlot_self]
    · rw [State.setSlot_self, ← hdin]

/-- `iunlockput` of an inode that has links drops the reference and nothing else. -/
theorem iunlockput_linked (ha : (t.icache p).Active) (hl : (t.icache p).ino.nlink ≠ 0) :
    iunlockput sb p t = .ok ((), t.setSlot p { t.icache p with ref := (t.icache p).ref - 1 }) := by
  have hlast : iputLast sb p t = .ok ((), t) := by
    unfold iputLast
    show (if _ then _ else _ : FsM Unit) t = _
    rw [if_neg fun hc => hl hc.2.1]
    rfl
  unfold iunlockput
  rw [bind_of_ok (iunlock_eq ha), iput, bind_of_ok hlast]
  rfl

end Cache

/-! ## Directories -/

section Directories

variable {env : Env} {s t : State} {p : Ptr} {i : Nat} {bs name : List UInt8}

/-- The kernel reads through the in-memory copy what is there to read on disk. -/
theorem Begins.congr {disk : Nat → Block} {ip ip' : Inode} (h : Begins disk ip bs)
    (he : ip'.core = ip.core) : Begins disk ip' bs := by
  obtain ⟨hmode, _, hsize, haddrs⟩ := Inode.of_core he
  have hblock : ∀ bn, fileBlock disk ip' bn = fileBlock disk ip bn := by
    intro bn
    unfold fileBlock Inode.indirect
    rw [haddrs]
  refine ⟨?_, by rw [hsize]; exact h.le, fun o ho => ?_, fun o ho => ?_⟩
  · have := h.dev
    unfold Inode.isDev at this ⊢
    rwa [hmode]
  · rw [hblock]
    exact h.mapped o ho
  · rw [hblock]
    exact h.byte o ho

theorem dirlookup_found (h : Begins s.disk (s.icache p).ino bs)
    (hd : (s.icache p).ino.isDir) {m : Nat}
    (hin : DIRENTSIZE * m + DIRENTSIZE ≤ bs.length) (hm : hasName name (dent bs m) = true)
    (hbefore : ∀ j, j < m → hasName name (dent bs j) = false) (hfree : ∃ a, (s.icache a).ref = 0) :
    ∃ q t, dirlookup env p name s = .ok (some (q, DIRENTSIZE * m), t) ∧
      IgetTo s (dent bs m).ino q t := by
  obtain ⟨q, t, hget, ht⟩ := iget_returns hfree (dent bs m).ino
  refine ⟨q, t, ?_, ht⟩
  unfold dirlookup
  show (if _ then _ else _ : FsM _) s = _
  rw [if_neg (not_not.mpr hd),
    bind_of_ok (h.dirScan_found env "dirlookup read" _ hin hm hbefore h.le _), if_pos rfl,
    bind_of_ok hget]
  rfl

theorem dirlookup_absent (h : Reads s.disk (s.icache p).ino bs) (hd : (s.icache p).ino.isDir)
    (hno : ∀ j, DIRENTSIZE * j + DIRENTSIZE ≤ bs.length → hasName name (dent bs j) = false) :
    wp (dirlookup env p name) (fun r _ => r = none) (fun _ => True) s := by
  unfold dirlookup
  rw [wp_bind, wp_get, if_neg (not_not.mpr hd)]
  have hscan :=
    dirScan_spec env "dirlookup read" (hasName name) h (s.icache p).ino.size.toNat 0 ByteBlock.zero
    (by rw [h.size]; omega)
  refine wp.bind hscan (fun _ _ => trivial) ?_
  rintro r _ ⟨rfl, hr⟩
  cases hr with
  | found m _ hin hm _ =>
    rw [hno m hin] at hm
    cases hm
  | none m de _ _ _ _ => rfl

end Directories

/-! ## Blocks that are not mapped -/

section Unmapped

variable {env : Env} {sb : SuperBlock} {s : State} {p : Ptr} {bs name : List UInt8}

/-- The routine does not return. -/
def Stops {α : Type} (x : FsM α) (s : State) : Prop := wp x (fun _ _ => False) (fun _ => True) s

theorem Stops.bind {α β : Type} {x : FsM α} {f : α → FsM β} (h : Stops x s) : Stops (x >>= f) s :=
  wp.seq h fun _ _ hf => hf.elim

section

variable (ho : s.outstanding = 0)
include ho

theorem balloc_outside : Stops (balloc sb) s := by
  have hlog : ∀ b data, Stops (logWrite sb b data) s := by
    intro b data
    unfold Stops wp logWrite
    rw [if_pos (show s.outstanding < 1 by omega)]
    split <;> split at * <;> simp_all
  unfold Stops balloc
  rw [wp_bind, wp_get]
  split
  · exact (hlog _ _).bind
  · trivial

theorem bmap_unmapped {bn : Nat} (hz : bn < MAXFILE → fileBlock s.disk (s.icache p).ino bn = 0) :
    Stops (bmap sb p bn) s := by
  have hmax : MAXFILE = NDIRECT + NINDIRECT := rfl
  have hdirect : ∀ k : Fin (NDIRECT + 1), ((s.icache p).ino.addrs k).toNat = 0 →
      Stops (bmapDirect sb p k) s := by
    intro k hk
    unfold Stops bmapDirect
    rw [wp_bind, wp_get, if_pos hk]
    exact (balloc_outside ho).bind
  unfold bmap
  unfold fileBlock at hz
  split
  · rename_i h
    rw [dif_pos h] at hz
    exact hdirect _ (hz (by omega))
  rename_i h
  rw [dif_neg h] at hz
  split
  · have hz := hz (by omega)
    by_cases hi : (s.icache p).ino.indirect = 0
    · exact (hdirect _ hi).bind
    rw [if_neg hi] at hz
    have hind : bmapDirect sb p (Fin.last NDIRECT) s = .ok ((s.icache p).ino.indirect, s) :=
      bmapDirect_of_mapped hi
    have hread :
        bufferRead (s.icache p).ino.indirect s = .ok (s.disk (s.icache p).ino.indirect, s) := rfl
    unfold Stops
    rw [wp_bind, wp_of_eq hind, wp_bind, wp_of_eq hread, if_pos hz]
    exact (balloc_outside ho).bind
  · trivial

theorem readi_unmapped {off n : Nat} (hn : 0 < n) (hin : off + n ≤ (s.icache p).ino.size.toNat)
    (hdev : ¬ (s.icache p).ino.isDev) (hz : off / BSIZE < MAXFILE →
      fileBlock s.disk (s.icache p).ino (off / BSIZE) = 0) :
    Stops (readi env p off n) s := by
  have hmax := UInt32.toNat_lt (s.icache p).ino.size
  have hwrap : (off + n) % 4294967296 = off + n := Nat.mod_eq_of_lt (by omega)
  obtain ⟨n, rfl⟩ := Nat.exists_eq_add_of_lt hn
  unfold Stops readi
  rw [wp_bind, wp_get, if_neg hdev, hwrap, if_neg (by omega)]
  show wp (readLoop env.sb p (if _ then _ else _) off (if _ then _ else _) >>= _) _ _ _
  rw [if_neg (by omega), readLoop, if_neg (by omega)]
  exact Stops.bind (Stops.bind (bmap_unmapped ho hz))

end

/-- A lookup outside a transaction that reaches a hole panics. -/
theorem dirlookup_unmapped (h : Begins s.disk (s.icache p).ino bs)
    (hd : (s.icache p).ino.isDir) (ho : s.outstanding = 0)
    {m : Nat} (hm : bs.length = DIRENTSIZE * m) (hno : ∀ j, j < m →
      hasName name (dent bs j) = false)
    (hin : bs.length + DIRENTSIZE ≤ (s.icache p).ino.size.toNat)
    (hz : bs.length / BSIZE < MAXFILE → fileBlock s.disk (s.icache p).ino (bs.length / BSIZE) = 0) :
    Stops (dirlookup env p name) s := by
  have hD := DIRENTSIZE_eq
  have hlt : m < (s.icache p).ino.size.toNat := by
    rw [hD] at hm hin
    omega
  obtain ⟨fuel, hfuel⟩ := Nat.exists_eq_add_of_lt hlt
  obtain ⟨de, hpass⟩ :=
    h.dirScan_pass env "dirlookup read" (hasName name) hm.symm.le (Nat.zero_le m)
    (fun j _ => hno j) (fuel + 1) ByteBlock.zero
  rw [Nat.sub_zero, Nat.mul_zero, ← Nat.add_assoc, ← hfuel] at hpass
  have hscan : Stops (dirScan env p "dirlookup read" (hasName name)
      (s.icache p).ino.size.toNat 0 ByteBlock.zero) s := by
    unfold Stops wp
    rw [hpass]
    show Stops (dirScan env p "dirlookup read" (hasName name) (fuel + 1) (DIRENTSIZE * m) de) s
    unfold Stops dirScan
    rw [wp_bind, wp_get, if_neg (by omega)]
    refine Stops.bind (readi_unmapped ho (by omega) (by omega) h.dev ?_)
    rw [← hm]
    exact hz
  unfold Stops dirlookup
  rw [wp_bind, wp_get, if_neg (not_not.mpr hd)]
  exact hscan.bind

end Unmapped

/-! ## One path element -/

section Elements

variable {env : Env} {s t : State} {p : Ptr} {i : Nat} {bs name nm path path' : List UInt8}

theorem Walking.step (hs : Spare s) (h : Walking env.sb s p i t) (hdir : (s.dinode env.sb i).isDir)
    (hlinked : (s.dinode env.sb i).nlink ≠ 0) (hb : Begins s.disk (s.dinode env.sb i) bs)
    (hskip : skipelem path = some (name, path')) {m : Nat}
    (hin : DIRENTSIZE * m + DIRENTSIZE ≤ bs.length)
    (hm : hasName name (dent bs m) = true) (hbefore : ∀ j, j < m →
      hasName name (dent bs j) = false) (fuel : Nat) :
    ∃ q u, namexLoop env false (fuel + 1) p path nm t = namexLoop env false fuel q path' name u ∧
      Walking env.sb s q (dent bs m).ino u := by
  obtain ⟨t1, hlock, hlocked⟩ := h.ilock hs (Inode.mode_ne_zero (.inr hdir))
  have hdir1 := hlocked.isDir hdir
  obtain ⟨hw, hv, hino⟩ := hlocked
  have hb1 : Begins t1.disk (t1.icache p).ino bs := by
    rw [hw.disk]
    exact hb.congr hino
  obtain ⟨q, t2, hlook, hget⟩ :=
    @dirlookup_found env t1 p bs name hb1 hdir1 m hin hm hbefore (hs.free hw)
  -- the slot of the directory keeps its inode and its copy
  have ha1 := hs.active hw
  obtain ⟨hinum, hkept⟩ := hget.keeps (holds_singleton ha1) p (List.mem_singleton_self p)
  obtain ⟨hv2, hino2⟩ := hkept hv
  have ha2 : (t2.icache p).Active := by
    unfold Slot.Active at ha1 ⊢
    rw [hget.refs]
    split <;> omega
  have hl2 : (t2.icache p).ino.nlink ≠ 0 := by
    rw [hino2, (Inode.of_core hino).2.1]
    exact hlinked
  refine ⟨q, t2.setSlot p { t2.icache p with ref := (t2.icache p).ref - 1 }, ?_, ?_⟩
  · rw [namexLoop, hskip]
    show (Fs.ilock env.sb p >>= _) t = _
    rw [bind_of_ok hlock]
    show (if _ then _ else _ : FsM _) t1 = _
    rw [if_neg (not_not.mpr hdir1), if_neg (by simp), bind_of_ok hlook]
    show (iunlockput env.sb p >>= _) t2 = _
    rw [bind_of_ok (iunlockput_linked ha2 hl2)]
  · have hdisk : t2.disk = s.disk := hget.disk.trans hw.disk
    have hc2 := hget.coherent hw.coherent
    refine ⟨hdisk, hget.outstanding.trans hw.outstanding, ?_, fun r => ?_, ?_⟩
    · exact hc2.setSlot_same ha2 rfl fun _ => hc2.through p ha2
    · have hr := hget.refs r
      rw [hw.refs r] at hr
      by_cases hrp : r = p
      · subst hrp
        rw [State.setSlot_self]
        show (t2.icache r).ref - 1 = _
        rw [if_pos rfl] at hr
        omega
      · rw [State.setSlot_ne _ hrp, hr, if_neg hrp, Int.add_zero]
    · by_cases hqp : q = p
      · subst hqp
        rw [State.setSlot_self]
        exact hget.inum_eq
      · rw [State.setSlot_ne _ hqp]
        exact hget.inum_eq

theorem Walking.lost (hs : Spare s) (h : Walking env.sb s p i t) (hdir : (s.dinode env.sb i).isDir)
    (hskip : skipelem path = some (name, path'))
    (hlook : ∀ u, u.disk = s.disk → u.outstanding = s.outstanding →
      (u.icache p).ino.core = (s.dinode env.sb i).core →
      wp (dirlookup env p name) (fun r _ => r = none) (fun _ => True) u) (fuel : Nat) :
    wp (namexLoop env false (fuel + 1) p path nm) (fun r _ => r = none) (fun _ => True) t := by
  obtain ⟨t1, hlock, hlocked⟩ := h.ilock hs (Inode.mode_ne_zero (.inr hdir))
  have hdir1 := hlocked.isDir hdir
  obtain ⟨hw, _, hino⟩ := hlocked
  have hany : ∀ u, wp (iunlockput env.sb p >>= fun _ => pure none : FsM (Option (Ptr × List UInt8)))
      (fun r _ => r = none) (fun _ => True) u := by
    intro u
    rw [wp_bind]
    unfold wp
    split
    · rfl
    · trivial
  rw [namexLoop, hskip]
  rw [wp_bind, wp_of_eq hlock, wp_bind, wp_get, if_neg (not_not.mpr hdir1), if_neg (by simp)]
  refine wp.seq (hlook t1 hw.disk hw.outstanding hino) ?_
  rintro r u rfl
  exact hany u

end Elements

end Micro86.Fs
