import Micro86.Fs.ReadWrite

/-!
# Files are byte sequences

The abstract file is a list of bytes that is read by slices and written by splicing.  `readi` and
`writei` implement it on every regular file and directory of a consistent file system.

* `writei_spec`, `writei_refused` — writing, in and out of range.
* `files_refine_bytes` — the refinement, with the panics of a write that runs out of blocks or
  of log space.
-/

namespace Micro86.Fs

open Exec

/-! ## The abstract file -/

/-- `c` with `src` in place of its bytes from `off` on. -/
def splice (c : List UInt8) (off : Nat) (src : List UInt8) : List UInt8 :=
  c.take off ++ src ++ c.drop (off + src.length)

theorem length_splice {c : List UInt8} {off : Nat} (src : List UInt8) (h : off ≤ c.length) :
    (splice c off src).length = max c.length (off + src.length) := by
  simp only [splice, List.length_append, List.length_take, List.length_drop]
  omega

/-! ## Regular files and directories -/

section

variable {ip : Inode} (h : ip.isReg ∨ ip.isDir)
include h

theorem Inode.not_chr : ip.mode &&& S_IFCHR = 0 := by
  have hmask : S_IFMT &&& S_IFCHR = S_IFCHR := by decide
  rw [← hmask, ← UInt16.and_assoc]
  rcases h with h | h
  · rw [show ip.mode &&& S_IFMT = _ from h]; decide
  · rw [show ip.mode &&& S_IFMT = _ from h]; decide

theorem Inode.not_isDev : ¬ ip.isDev := by
  unfold Inode.isDev
  rcases h with h | h
  · rw [show ip.mode &&& S_IFMT = _ from h]; decide
  · rw [show ip.mode &&& S_IFMT = _ from h]; decide

theorem Inode.mode_ne_zero : ip.mode ≠ 0 := by
  intro hz
  unfold Inode.isReg Inode.isDir at h
  rw [hz] at h
  revert h
  decide

end

section Reads

variable {sb : SuperBlock} {st : Store} {i : Nat} {disk : Nat → Block} {ip : Inode}

variable (hc : Consistent sb st)
include hc

theorem Consistent.fileBlock_eq (hm : (st.ino i).mode ≠ 0)
    (hblk : ∀ b, sb.nmeta ≤ b → disk b = st.blk b) (ha : ip.addrs = (st.ino i).addrs)
    {bn : Nat} (hbn : bn < MAXFILE) :
    fileBlock disk ip bn = st.dataAddr i bn := by
  have hind : ip.indirect = (st.ino i).indirect := by unfold Inode.indirect; rw [ha]
  unfold fileBlock Store.dataAddr
  split
  · rename_i hlt
    rw [Store.slotOf, if_pos hlt, Store.addr_direct hm ⟨bn, by omega⟩, ha]
  rename_i hge
  have hj : bn - NDIRECT < NINDIRECT := by
    have : MAXFILE = NDIRECT + NINDIRECT := rfl
    omega
  rw [slotOf_indirect hge, Store.addr_entry hm hj, Store.entry, hind]
  split
  · rfl
  rename_i hne
  rw [← Store.addr_indirect hm] at hne ⊢
  rw [hblk _ (hc.addr_range hne).1]

/-- A file of a consistent file system, read through an inode with its addresses and at least its
    size. -/
theorem Consistent.begins (hk : (st.ino i).isReg ∨ (st.ino i).isDir)
    (hblk : ∀ b, sb.nmeta ≤ b → disk b = st.blk b) (ha : ip.addrs = (st.ino i).addrs)
    (hsize : (st.ino i).size.toNat ≤ ip.size.toNat) (hdev : ¬ ip.isDev) :
    Begins disk ip (st.contents i) := by
  have hm := Inode.mode_ne_zero hk
  have hmapped : ∀ o, o < (st.contents i).length → o / BSIZE < MAXFILE ∧
      st.dataAddr i (o / BSIZE) ≠ 0 := by
    intro o ho
    refine hc.mapped i hk (o / BSIZE) ?_
    have := Nat.div_mul_le_self o BSIZE
    rw [Store.length_contents] at ho
    omega
  refine ⟨hdev, by rw [Store.length_contents]; exact hsize, fun o ho => ?_, fun o ho => ?_⟩
  · obtain ⟨hlt, hne⟩ := hmapped o ho
    exact ⟨hlt, by rwa [hc.fileBlock_eq hm hblk ha hlt]⟩
  · obtain ⟨hlt, hne⟩ := hmapped o ho
    rw [st.getElem?_contents (by simpa using ho), hc.fileBlock_eq hm hblk ha hlt,
      hblk _ (hc.data_range hne).1]
    rfl

theorem Consistent.reads (hk : (st.ino i).isReg ∨ (st.ino i).isDir)
    (hblk : ∀ b, sb.nmeta ≤ b → disk b = st.blk b) (ha : ip.addrs = (st.ino i).addrs)
    (hsize : ip.size = (st.ino i).size)
    (hdev : ¬ ip.isDev) : Reads disk ip (st.contents i) :=
  ⟨hc.begins hk hblk ha (by rw [hsize]) hdev, by rw [hsize, Store.length_contents]⟩

end Reads

/-- A regular file or directory that its caller has locked. -/
structure Opened (sb : SuperBlock) (s : State) (p : Ptr) : Prop where
  consistent : Consistent sb (s.store sb)
  icache : Icache sb s none
  active : (s.icache p).Active
  valid : (s.icache p).valid = true
  file : (s.icache p).ino.isReg ∨ (s.icache p).ino.isDir

def State.contents (sb : SuperBlock) (s : State) (p : Ptr) : List UInt8 :=
  (s.store sb).contents (s.icache p).inum

section Opened

variable {env : Env} {s : State} {p : Ptr} {off n : Nat} {src : List UInt8}
variable {sb : SuperBlock}

section

variable (h : Opened sb s p)
include h

theorem Opened.locked : Locked sb s p :=
  h.icache.locked h.active h.valid

theorem Opened.store_file :
    ((s.store sb).ino (s.icache p).inum).isReg ∨ ((s.store sb).ino (s.icache p).inum).isDir := by
  rw [h.locked.store]
  exact h.file

theorem Opened.length_contents :
    (s.contents sb p).length = (s.icache p).ino.size.toNat := by
  rw [State.contents, Store.length_contents, h.locked.store]
  rfl

theorem Opened.reads : Reads s.disk (s.icache p).ino (s.contents sb p) :=
  h.consistent.reads h.store_file (fun _ => disk_eq_blk) (by rw [h.locked.store]; rfl)
    (by rw [h.locked.store]; rfl) (Inode.not_isDev h.file)

end

variable (h : Opened env.sb s p)
include h

theorem readi_eq (hoff : off ≤ (s.contents env.sb p).length) (hwrap : off + n < 4294967296) :
    readi env p off n s = .ok (((min n ((s.contents env.sb p).length - off) : Nat),
      slice (s.contents env.sb p) off n), s) := h.reads.readi_eq hoff hwrap

theorem readi_refused (hoff : off < 4294967296) (hn : n < 4294967296)
    (hbad : ¬ (off ≤ (s.contents env.sb p).length ∧ off + n < 4294967296)) :
    readi env p off n s = .ok ((-1, []), s) := h.reads.readi_refused hoff hn hbad

theorem writei_spec (hoff : off ≤ (s.contents env.sb p).length)
    (hmax : off + src.length ≤ MAXFILE * BSIZE) :
    Spec env.sb (writei env p src off) s (6 * touched off src.length + 1)
      (2 * touched off src.length) fun r t => r = src.length ∧ Spliced env.sb s p off src t := by
  have hlen := h.length_contents
  have hbound : MAXFILE * BSIZE < 4294967296 := by decide
  unfold writei
  refine Spec.get ?_
  have hchr := Inode.not_chr h.file
  rw [if_neg (not_not.mpr hchr), if_neg (by omega), if_neg (by omega)]
  refine Spec.bind (writeLoop_spec src.length off src s h.consistent h.locked le_rfl hmax) ?_
  rintro _ t ⟨rfl, ht⟩
  refine Spec.bind
    (writeSize_spec h.consistent h.icache h.store_file (by omega) hmax h.locked ht) ?_
  intro _ u hu
  exact Spec.pure ⟨rfl, hu⟩

theorem writei_refused (hoff : off < 4294967296) (hn : src.length < 4294967296)
    (hbad : ¬ (off ≤ (s.contents env.sb p).length ∧ off + src.length ≤ MAXFILE * BSIZE)) :
    writei env p src off s = .ok (-1, s) := by
  have hlen := h.length_contents
  have hchr := Inode.not_chr h.file
  unfold writei
  show (if _ then _ else _ : FsM _) s = _
  rw [if_neg (not_not.mpr hchr)]
  split
  · rfl
  · rw [if_pos (by omega)]
    rfl

end Opened

/-- Enough of everything for a write of `n` bytes: an open transaction, entries of the log header
    and free blocks. -/
structure WriteRoom (sb : SuperBlock) (s : State) (off n : Nat) : Prop where
  trans : 0 < s.outstanding
  log : s.lh.length + (6 * touched off n + 1) ≤ sb.logCap
  blocks : 2 * touched off n ≤ s.free sb

theorem not_fails {sb : SuperBlock} {s : State} {k r : Nat} (htrans : 0 < s.outstanding)
    (hlog : s.lh.length + k ≤ sb.logCap) (hblocks : r ≤ s.free sb) (msg : String) :
    ¬ Fails sb s k r msg := by
  unfold Fails
  omega

/-- **Refinement**: on a regular file or directory of a consistent file system `readi` is `slice`
    and `writei` is `splice`, for requests in range; other requests are refused.  A write panics
    for want of blocks or of log space only. -/
theorem files_refine_bytes (env : Env) (s : State) (p : Ptr) (h : Opened env.sb s p) :
    (∀ off n, off < 4294967296 → n < 4294967296 →
      readi env p off n s =
        if off ≤ (s.contents env.sb p).length ∧ off + n < 4294967296 then
          .ok (((min n ((s.contents env.sb p).length - off) : Nat),
            slice (s.contents env.sb p) off n), s)
        else .ok ((-1, []), s)) ∧
    (∀ off src, off < 4294967296 → src.length < 4294967296 →
      (¬ (off ≤ (s.contents env.sb p).length ∧ off + src.length ≤ MAXFILE * BSIZE) →
        writei env p src off s = .ok (-1, s)) ∧
      (off ≤ (s.contents env.sb p).length → off + src.length ≤ MAXFILE * BSIZE →
        (WriteRoom env.sb s off src.length → ∃ t, writei env p src off s = .ok (src.length, t)) ∧
        (∀ msg, writei env p src off s = .error msg →
          Fails env.sb s (6 * touched off src.length + 1) (2 * touched off src.length) msg) ∧
        ∀ r t, writei env p src off s = .ok (r, t) →
          r = src.length ∧ (t.icache p).inum = (s.icache p).inum ∧
          t.contents env.sb p = splice (s.contents env.sb p) off src ∧
          (t.contents env.sb p).length = max (s.contents env.sb p).length (off + src.length) ∧
          (∀ j, j ≠ (s.icache p).inum → (t.store env.sb).contents j = (s.store env.sb).contents j) ∧
          Consistent env.sb (t.store env.sb) ∧ Icache env.sb t none)) := by
  refine ⟨fun off n hoff hn => ?_,
    fun off src hoff hn => ⟨writei_refused h hoff hn, fun hle hmax => ?_⟩⟩
  · split
    · rename_i hin
      exact readi_eq h hin.1 hin.2
    · rename_i hout
      exact readi_refused h hoff hn hout
  · have hspec := writei_spec h hle hmax
    refine ⟨fun hroom => ?_, fun msg => hspec.of_error, fun r t hok => ?_⟩
    · obtain ⟨r, t, hok, _, rfl, _⟩ := hspec.returns (not_fails hroom.trans hroom.log hroom.blocks)
      exact ⟨t, hok⟩
    · obtain ⟨_, rfl, ht⟩ := hspec.of_ok hok
      have hself : t.contents env.sb p = splice (s.contents env.sb p) off src := by
        rw [State.contents, ht.inum]
        exact ht.self
      refine ⟨rfl, ht.inum, hself, ?_, ht.other, ht.consistent, ht.icache⟩
      rw [hself, length_splice src hle]

theorem writei_of_full {env : Env} {s : State} {p : Ptr} {src : List UInt8} (h : Opened env.sb s p)
    (hfull : ballocFind env.sb s.disk = none) (hempty : (s.icache p).ino.addrs 0 = 0)
    (hsrc : src ≠ [])
    (hlen : src.length ≤ MAXFILE * BSIZE) :
    writei env p src 0 s = .error "balloc: out of blocks" := by
  have hballoc : balloc env.sb s = .error "balloc: out of blocks" := by
    unfold balloc
    rw [bind_of_ok (show Exec.get s = .ok (s, s) from rfl), hfull]
    rfl
  have hbmap : bmap env.sb p (0 / BSIZE) s = .error "balloc: out of blocks" := by
    show (if ((s.icache p).ino.addrs 0).toNat = 0 then _ else _ : FsM Nat) s = _
    rw [if_pos (by rw [hempty]; rfl)]
    exact bind_of_error hballoc
  have hloop : writeLoop env.sb p src.length 0 src s = .error "balloc: out of blocks" := by
    cases src with
    | nil => exact absurd rfl hsrc
    | cons x xs =>
      show (if _ then _ else _ : FsM Nat) s = _
      rw [if_neg hsrc]
      exact bind_of_error hbmap
  unfold writei
  show (if _ then _ else _ : FsM _) s = _
  rw [if_neg (not_not.mpr (Inode.not_chr h.file)), if_neg (by omega), if_neg (by omega)]
  exact bind_of_error hloop

/-! ## A small volume -/

/-- Room for four inodes, forty blocks of metadata and `n` data blocks. -/
def smallSb (n : Fin 16) : SuperBlock where
  size := 40 + n
  nblocks := n
  ninodes := 4
  nlog := 31
  logstart := 2
  inodestart := 38
  bmapstart := 39
  log_start := by omega
  log_end := by omega
  inode_end := by decide
  bmap_end := by rw [BPB_eq]; omega
  root_lt := by decide
  size_lt := by omega

/-- The volume with the inode block `inodes` and `data` in all free blocks; `ip` is the copy of
    inode 1 in slot 0, inside a transaction. -/
def volume (inodes : Block) (ip : Inode) (data : Block) : State where
  disk b :=
    if b = 38 then inodes
    else if b = 39 then ByteBlock.zero.write 0 (List.replicate 5 255)
    else data
  lh := []
  outstanding := 1
  icache q := if q.val = 0 then ⟨1, 1, true, ip⟩ else ⟨0, 0, false, Inode.zero⟩

def slot0 : Ptr := ⟨0, NINODE_pos⟩

def emptyVolume (mode : UInt16) (data : Block) : State :=
  volume (initInode ByteBlock.zero 80 mode 0) { Inode.zero with mode := mode } data

abbrev smallVolume (mode : UInt16) : State := emptyVolume mode .zero

section Small

variable {n : Fin 16} {inodes data : Block} {ip : Inode} {mode : UInt16}

theorem volume_active {q : Ptr} (h : ((volume inodes ip data).icache q).Active) : q.val = 0 := by
  unfold volume Slot.Active at h
  by_contra hq
  simp [hq] at h

theorem volume_slot {q : Ptr} (h : q.val = 0) :
    (volume inodes ip data).icache q = ⟨1, 1, true, ip⟩ := if_pos h

theorem volume_used {b : Nat} (hb : b < 40 + n) :
    ((volume inodes ip data).store (smallSb n)).used b = decide (b < 40) := by
  have hmod : b % BPB = b := by rw [BPB_eq]; omega
  have hblock : (smallSb n).bblock b = 39 := by
    show b / BPB + 39 = 39
    rw [BPB_eq]
    omega
  show (if b < 40 + n.val then ((volume inodes ip data).disk _).bit (b % BPB) else true) = _
  rw [if_pos hb, hblock, hmod]
  show (ByteBlock.zero.write 0 (List.replicate 5 255) : Block).bit b = _
  rw [ByteBlock.bit_eq, ByteBlock.byte_write _ _ _ (by rw [BSIZE_eq]; omega),
    List.getElem?_replicate]
  by_cases h : b < 40
  · have h255 : ∀ k, k < 8 → (255 : UInt8).toBitVec.getLsbD k = true := by decide
    rw [if_pos (by omega), if_pos (by omega), Option.getD_some,
      h255 _ (Nat.mod_lt _ (by omega)), decide_eq_true h]
  · rw [if_pos (Nat.zero_le _), if_neg (by omega), decide_eq_false h,
      Option.getD_none, ByteBlock.byte_zero]
    exact BitVec.getLsbD_zero

theorem volume_ino
    (h0 : ∀ i < 4, i ≠ 1 → (readInode inodes (SuperBlock.ioff i)).mode = 0) (i : Nat) :
    (((volume inodes ip data).store (smallSb n)).ino i).mode = 0 ∨
      ((volume inodes ip data).store (smallSb n)).ino i = ip.core := by
  show (if i < 4 then _ else _ : Inode).mode = 0 ∨ (if i < 4 then _ else _ : Inode) = _
  split
  · rename_i hi
    unfold State.inode
    split
    · rename_i q hq
      have hq := List.find?_some hq
      simp only [decide_eq_true_eq] at hq
      rw [volume_slot (volume_active hq.1)]
      exact .inr rfl
    rename_i hnone
    have hne : i ≠ 1 := by
      rintro rfl
      have h := List.find?_eq_none.mp hnone ⟨0, by decide⟩ (List.mem_finRange _)
      exact absurd (decide_eq_true ⟨Int.one_pos, rfl, rfl⟩) h
    have hblock : (smallSb n).iblock i = 38 := by
      show i / IPB + 38 = 38
      rw [IPB_eq]
      omega
    left
    show (readInode ((volume inodes ip data).disk _) _).mode = 0
    rw [hblock]
    exact h0 i hi hne
  · exact .inl rfl

theorem volume_consistent (h0 : ∀ i < 4, i ≠ 1 → (readInode inodes (SuperBlock.ioff i)).mode = 0)
    (haddrs : ip.addrs = fun _ => 0) (hsize : ip.size = 0) :
    Consistent (smallSb n) ((volume inodes ip data).store (smallSb n)) := by
  have hnmeta : (smallSb n).nmeta = 40 := by
    show 40 + n.val - n.val = 40
    omega
  have hrange : (smallSb n).size = 40 + n := rfl
  have haddr : ∀ i k, ((volume inodes ip data).store (smallSb n)).addr i k = 0 := by
    intro i k
    rcases @volume_ino n inodes data ip h0 i with h | h
    · exact Store.addr_of_free h
    unfold Store.addr Store.addrOf Store.entry Inode.indirect
    rw [h]
    simp [Inode.core, haddrs]
  refine ⟨fun b hb => ?_, ⟨by omega, fun x => absurd (haddr _ _), fun x => absurd (haddr _ _),
    fun x y _ => absurd (haddr _ _), fun b hlo hhi hb => ?_⟩, fun i hk k hlt => ?_⟩
  · rw [volume_used (by omega)]
    exact decide_eq_true (by omega)
  · rw [volume_used (by omega), decide_eq_true_eq] at hb
    omega
  · rcases @volume_ino n inodes data ip h0 i with h | h
    · exact absurd h (Inode.mode_ne_zero hk)
    · rw [h] at hlt
      exact absurd hlt (by show ¬ _ < ip.size.toNat; rw [hsize]; exact Nat.not_lt_zero _)

theorem emptyVolume_dinode :
    (emptyVolume mode data).dinode (smallSb n) 1 = { Inode.zero with mode := mode } :=
  readInode_initInode _ _ _ (by decide)

theorem emptyVolume_icache (hmode : mode ≠ 0) :
    Icache (smallSb n) (emptyVolume mode data) none := by
  refine ⟨fun q r hq hr _ => Fin.ext ?_, fun q hq _ => ?_, fun q hq _ _ => ?_, fun q hq _ _ => ?_⟩
  · rw [volume_active hq, volume_active hr]
  all_goals rw [show (emptyVolume mode data).icache q = _ from volume_slot (volume_active hq)]
  · exact (by decide : 1 < 4)
  · exact hmode
  · rw [emptyVolume_dinode]

theorem mode_inode_zero (i : Nat) (hi : i < 4) (hne : i ≠ 1) :
    (readInode (initInode ByteBlock.zero 80 mode 0) (SuperBlock.ioff i)).mode = 0 := by
  have hoff : SuperBlock.ioff i + DINODESIZE ≤ 80 ∨ 80 + DINODESIZE ≤ SuperBlock.ioff i := by
    unfold SuperBlock.ioff
    rw [IPB_eq, DINODESIZE_eq]
    omega
  rw [readInode_initInode_disjoint _ _ _ hoff]
  simp [readInode]

theorem emptyVolume_consistent :
    Consistent (smallSb n) ((emptyVolume mode data).store (smallSb n)) :=
  volume_consistent mode_inode_zero rfl rfl

theorem emptyVolume_opened (h : mode &&& S_IFMT = S_IFREG ∨ mode &&& S_IFMT = S_IFDIR) :
    Opened (smallSb n) (emptyVolume mode data) slot0 :=
  ⟨emptyVolume_consistent,
    emptyVolume_icache (@Inode.mode_ne_zero { Inode.zero with mode := mode } h),
      Int.one_pos, rfl, h⟩

def smallEnv (n : Fin 16) : Env :=
  ⟨smallSb n, 0, fun _ => none, fun _ => none, fun _ => ByteBlock.zero⟩

theorem emptyVolume_free : n ≤ (emptyVolume mode data).free (smallSb n) := by
  have hsub : (Finset.range n).map ⟨(40 + ·), fun _ _ => Nat.add_left_cancel⟩ ⊆
      (Finset.range (smallSb n).size).filter
      fun b => ((emptyVolume mode data).store (smallSb n)).used b = false := by
    intro b hb
    obtain ⟨k, hk, rfl⟩ := Finset.mem_map.mp hb
    have hk := Finset.mem_range.mp hk
    have hlt : 40 + k < 40 + n.val := by omega
    rw [Finset.mem_filter, Finset.mem_range]
    exact ⟨hlt, (volume_used hlt).trans (decide_eq_false (by omega))⟩
  have hcard := Finset.card_le_card hsub
  rwa [Finset.card_map, Finset.card_range] at hcard

end Small

/-- The refinement at an empty file: the write of three bytes returns, and they are the contents. -/
theorem files_refine_bytes_small :
    ∃ t, writei (smallEnv 8) slot0 [104, 105, 10] 0 (smallVolume S_IFREG) = .ok (3, t) ∧
      t.contents (smallSb 8) slot0 = [104, 105, 10] := by
  have hopen : Opened (smallSb 8) (smallVolume S_IFREG) slot0 :=
    emptyVolume_opened (.inl (by decide))
  have hempty : (smallVolume S_IFREG).contents (smallSb 8) slot0 = [] := by
    rw [← List.length_eq_zero_iff, hopen.length_contents]
    rfl
  obtain ⟨hreturns, _, hsplice⟩ :=
    ((files_refine_bytes (smallEnv 8) _ _ hopen).2 0 [104, 105, 10] (by decide)
    (by decide)).2 (by decide) (by decide)
  obtain ⟨t, ht⟩ := hreturns ⟨by decide, by decide, Nat.le_trans (by decide) emptyVolume_free⟩
  obtain ⟨_, _, hcontents, _⟩ := hsplice 3 t ht
  refine ⟨t, ht, hcontents.trans ?_⟩
  rw [show (smallVolume S_IFREG).contents (smallEnv 8).sb _ = _ from hempty]
  rfl

/-- A write to a full volume does not return: `balloc` panics. -/
theorem writei_panics_on_full_volume :
    Opened (smallSb 0) (smallVolume S_IFREG) slot0 ∧
    0 + [(1 : UInt8)].length ≤ MAXFILE * BSIZE ∧
    writei (smallEnv 0) slot0 [1] 0 (smallVolume S_IFREG) = .error "balloc: out of blocks" := by
  have hopen : Opened (smallSb 0) (smallVolume S_IFREG) slot0 :=
    emptyVolume_opened (.inl (by decide))
  have hfull : ballocFind (smallSb 0) (smallVolume S_IFREG).disk = none := by decide +kernel
  exact ⟨hopen,
    by decide, @writei_of_full (smallEnv 0) _ _ _ hopen hfull rfl (by decide) (by decide)⟩

end Micro86.Fs
