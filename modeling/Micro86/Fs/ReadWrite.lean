import Micro86.Fs.Content

/-!
# `readi` and `writei`

Both split a request at block boundaries and map each block with `bmap`.

* `Reads.readi_eq` — reading a file returns the slice of its contents and changes nothing.
* `writei_spec` — writing splices the data into the contents; no other inode is touched.
-/

namespace Micro86.Fs

open Exec Function

variable {off n i : Nat} {st st' : Store} {src : List UInt8}

/-- What the file code takes from the rest of the kernel: the superblock, the clock, the device
    switch (by major number; `minor`, request and offset to the result) and what the stack holds
    where `dirlink` to an inode number declares its `struct dirent`. -/
structure Env where
  sb : SuperBlock
  /-- `epoch_mktime()`. -/
  now : UInt32
  devRead : Nat → Option (UInt16 → Nat → Nat → Int × List UInt8)
  devWrite : Nat → Option (UInt16 → List UInt8 → Nat → Int)
  stack : Nat → ByteBlock DIRENTSIZE

/-- A `short` as a signed number. -/
def asShort (x : UInt16) : Int := if x.toNat < 32768 then x.toNat else x.toNat - 65536

def ENXIO : Int := 6

/-- The loop of `readi`; every round copies at least one byte, so `fuel = n` rounds suffice. -/
def readLoop (sb : SuperBlock) (ip : Ptr) : Nat → Nat → Nat → FsM (List UInt8)
  | 0, _, _ => pure []
  | fuel + 1, off, n =>
    if n = 0 then pure []
    else do
      let b ← bmap sb ip (off / BSIZE)
      let bp ← bufferRead b
      let rest ← readLoop sb ip fuel (off + min n (BSIZE - off % BSIZE))
          (n - min n (BSIZE - off % BSIZE))
      pure (bp.read (off % BSIZE) (min n (BSIZE - off % BSIZE)) ++ rest)

def readi (env : Env) (ip : Ptr) (off n : Nat) : FsM (Int × List UInt8) := do
  let s ← Exec.get
  let ino := (s.icache ip).ino
  if ino.isDev then
    if asShort ino.major < 0 ∨ (NDEV : Int) ≤ asShort ino.major then pure (- ENXIO, [])
    else match env.devRead ino.major.toNat with
      | none => pure (- ENXIO, [])
      | some read => pure (read ino.minor n off)
  else if ino.size.toNat < off ∨ (off + n) % 4294967296 < off then pure (-1, [])
  else do
    let n := if ino.size.toNat < (off + n) % 4294967296 then ino.size.toNat - off else n
    let data ← readLoop env.sb ip n off n
    pure ((n : Int), data)

def writeLoop (sb : SuperBlock) (ip : Ptr) : Nat → Nat → List UInt8 → FsM Nat
  | 0, off, _ => pure off
  | fuel + 1, off, src =>
    if src = [] then pure off
    else do
      let b ← bmap sb ip (off / BSIZE)
      let bp ← bufferRead b
      logWrite sb b (bp.write (off % BSIZE) (src.take (BSIZE - off % BSIZE)))
      writeLoop sb ip fuel (off + min src.length (BSIZE - off % BSIZE))
        (src.drop (BSIZE - off % BSIZE))

def writeSize (env : Env) (ip : Ptr) (n off : Nat) : FsM Unit := do
  let s ← Exec.get
  if 0 < n ∧ (s.icache ip).ino.size.toNat < off then do
    Exec.modify fun s => s.setIno ip
      { (s.icache ip).ino with size := UInt32.ofNat off, ctime := env.now, lmtime := env.now }
    iupdate env.sb ip
  else pure ()

def writei (env : Env) (ip : Ptr) (src : List UInt8) (off : Nat) : FsM Int := do
  let s ← Exec.get
  let ino := (s.icache ip).ino
  if ino.mode &&& S_IFCHR ≠ 0 then
    if asShort ino.major < 0 ∨ (NDEV : Int) ≤ asShort ino.major then pure (-1)
    else match env.devWrite ino.major.toNat with
      | none => pure (-1)
      | some write => pure (write ino.minor src off)
  else if ino.size.toNat < off ∨ (off + src.length) % 4294967296 < off then pure (-1)
  else if MAXFILE * BSIZE < (off + src.length) % 4294967296 then pure (-1)
  else do
    let off' ← writeLoop env.sb ip src.length off src
    writeSize env ip src.length off'
    pure (src.length : Int)

/-! ## Reading -/

def slice (c : List UInt8) (off n : Nat) : List UInt8 := (c.drop off).take n

theorem getElem?_slice (bs : List UInt8) (off n k : Nat) :
    (slice bs off n)[k]? = if k < n then bs[off + k]? else none := by
  rw [slice, List.getElem?_take]
  split
  · rw [List.getElem?_drop]
  · rfl

theorem length_slice {bs : List UInt8} (h : off + n ≤ bs.length) : (slice bs off n).length = n := by
  rw [slice, List.length_take, List.length_drop]
  omega

theorem slice_append (bs : List UInt8) (off m n : Nat) :
    slice bs off m ++ slice bs (off + m) n = slice bs off (m + n) := by
  rw [slice, slice, slice, List.take_add, List.drop_drop]

/-- The disk block that holds block `bn` of the file `ip`, or zero. -/
def fileBlock (disk : Nat → Block) (ip : Inode) (bn : Nat) : Nat :=
  if h : bn < NDIRECT then (ip.addrs ⟨bn, Nat.lt_succ_of_lt h⟩).toNat
  else if ip.indirect = 0 then 0
  else (disk ip.indirect).u32 (4 * (bn - NDIRECT))

/-- On these blocks the inode `ip` is a file that begins with the bytes `bs`, all of them mapped. -/
structure Begins (disk : Nat → Block) (ip : Inode) (bs : List UInt8) : Prop where
  dev : ¬ ip.isDev
  le : bs.length ≤ ip.size.toNat
  mapped : ∀ o, o < bs.length → o / BSIZE < MAXFILE ∧ fileBlock disk ip (o / BSIZE) ≠ 0
  byte :
    ∀ o, o < bs.length → bs[o]? = some ((disk (fileBlock disk ip (o / BSIZE))).byte (o % BSIZE))

/-- The file has the contents `bs`. -/
structure Reads (disk : Nat → Block) (ip : Inode)
    (bs : List UInt8) : Prop extends Begins disk ip bs where
  size : ip.size.toNat = bs.length

theorem block_of_add {k : Nat} (h : off % BSIZE + k < BSIZE) :
    (off + k) / BSIZE = off / BSIZE ∧ (off + k) % BSIZE = off % BSIZE + k := by
  simp only [BSIZE] at *
  omega

section Read

variable {env : Env} {sb : SuperBlock} {s : State} {p : Ptr} {bs : List UInt8} {off n : Nat}

theorem bmapDirect_of_mapped {k : Fin (NDIRECT + 1)} (hk : ((s.icache p).ino.addrs k).toNat ≠ 0) :
    bmapDirect sb p k s = .ok (((s.icache p).ino.addrs k).toNat, s) := by
  unfold bmapDirect
  show (if _ then _ else _ : FsM Nat) s = _
  rw [if_neg hk]
  rfl

theorem bmap_of_mapped {bn : Nat} (hbn : bn < MAXFILE)
    (hne : fileBlock s.disk (s.icache p).ino bn ≠ 0) :
    bmap sb p bn s = .ok (fileBlock s.disk (s.icache p).ino bn, s) := by
  unfold bmap fileBlock at *
  split
  · rename_i h
    rw [dif_pos h] at hne
    exact bmapDirect_of_mapped hne
  rename_i h
  have hj : bn - NDIRECT < NINDIRECT := by
    have : MAXFILE = NDIRECT + NINDIRECT := rfl
    omega
  rw [dif_neg h] at hne
  by_cases hi : (s.icache p).ino.indirect = 0
  · rw [if_pos hi] at hne
    exact absurd rfl hne
  rw [if_neg hi] at hne
  have hread :
      bufferRead (s.icache p).ino.indirect s = .ok (s.disk (s.icache p).ino.indirect, s) := rfl
  rw [if_pos hj, if_neg hi, bind_of_ok (bmapDirect_of_mapped (k := Fin.last NDIRECT) hi)]
  show (bufferRead (s.icache p).ino.indirect >>= _) s = _
  rw [bind_of_ok hread, if_neg hne]
  rfl

theorem Begins.read_block {disk : Nat → Block} {ip : Inode} (h : Begins disk ip bs)
    (hin : off + n ≤ bs.length)
    (hm : off % BSIZE + n ≤ BSIZE) :
    (disk (fileBlock disk ip (off / BSIZE))).read (off % BSIZE) n = slice bs off n := by
  apply List.ext_getElem?
  intro k
  rw [getElem?_slice]
  by_cases hk : k < n
  · obtain ⟨h1, h2⟩ := @block_of_add off k (by omega)
    rw [if_pos hk, h.byte _ (by omega), h1, h2, List.getElem?_eq_getElem (by simpa using hk),
      ByteBlock.getElem_read]
  · rw [if_neg hk, List.getElem?_eq_none (by simpa using hk)]

theorem readLoop_eq (h : Begins s.disk (s.icache p).ino bs) :
    ∀ fuel off n, n ≤ fuel → off + n ≤ bs.length →
    readLoop sb p fuel off n s = .ok (slice bs off n, s)
  | 0, off, n, hn, _ => by
    have : n = 0 := by omega
    subst this
    rfl
  | fuel + 1, off, n, hn, hle => by
    rw [readLoop]
    split
    · rename_i hz
      subst hz
      rfl
    rename_i hz
    generalize hm : min n (BSIZE - off % BSIZE) = m
    have hB := BSIZE_eq
    have hmod : off % BSIZE < BSIZE := Nat.mod_lt _ (by omega)
    obtain ⟨hlt, hne⟩ := h.mapped off (by omega)
    have ih := readLoop_eq h fuel (off + m) (n - m) (by omega) (by omega)
    have hread : bufferRead (fileBlock s.disk (s.icache p).ino (off / BSIZE)) s = .ok (_, s) := rfl
    rw [bind_of_ok (bmap_of_mapped hlt hne), bind_of_ok hread,
      bind_of_ok ih, h.read_block (by omega) (by omega)]
    show Except.ok (_ ++ _, s) = _
    rw [slice_append, show m + (n - m) = n by omega]

theorem Begins.readi_eq (h : Begins s.disk (s.icache p).ino bs) (hin : off + n ≤ bs.length) :
    readi env p off n s = .ok ((n, slice bs off n), s) := by
  have hle := h.le
  have hmax := UInt32.toNat_lt (s.icache p).ino.size
  have hwrap : (off + n) % 4294967296 = off + n := Nat.mod_eq_of_lt (by omega)
  have hloop := @readLoop_eq env.sb _ _ _ h n off n le_rfl hin
  unfold readi
  show (if _ then _ else _ : FsM _) s = _
  rw [if_neg h.dev, hwrap, if_neg (by omega)]
  show (readLoop env.sb p (if _ then _ else _) off (if _ then _ else _) >>= _) s = _
  rw [if_neg (by omega), bind_of_ok hloop]
  rfl

theorem Reads.readi_eq (h : Reads s.disk (s.icache p).ino bs)
    (hoff : off ≤ bs.length) (hwrap : off + n < 4294967296) :
    readi env p off n s = .ok (((min n (bs.length - off) : Nat), slice bs off n), s) := by
  have hsize := h.size
  generalize hm : min n (bs.length - off) = m
  have hif : (if (s.icache p).ino.size.toNat < (off + n) % 4294967296 then
      (s.icache p).ino.size.toNat - off else n) = m := by
    rw [Nat.mod_eq_of_lt hwrap]
    split <;> omega
  have hslice : slice bs off n = slice bs off m := by
    unfold slice
    rw [← hm, ← List.length_drop, List.take_eq_take_iff]
    omega
  have hloop := @readLoop_eq env.sb _ _ _ h.toBegins m off m le_rfl (by omega)
  unfold readi
  show (if _ then _ else _ : FsM _) s = _
  rw [if_neg h.dev, if_neg (by rw [Nat.mod_eq_of_lt hwrap]; omega)]
  show (readLoop env.sb p (if _ then _ else _) off (if _ then _ else _) >>= _) s = _
  rw [hif, bind_of_ok hloop, hslice]
  rfl

theorem Reads.readi_refused (h : Reads s.disk (s.icache p).ino bs)
    (hoff : off < 4294967296) (hn : n < 4294967296)
    (hbad : ¬ (off ≤ bs.length ∧ off + n < 4294967296)) :
    readi env p off n s = .ok ((-1, []), s) := by
  have hsize := h.size
  unfold readi
  show (if _ then _ else _ : FsM _) s = _
  rw [if_neg h.dev, if_pos (by omega)]
  rfl

theorem mapped_of_lt (hc : Consistent sb (s.store sb)) {o : Nat}
    (hk : ((s.store sb).ino i).isReg ∨ ((s.store sb).ino i).isDir)
    (ho : o < ((s.store sb).ino i).size.toNat) :
    (s.store sb).dataAddr i (o / BSIZE) ≠ 0 := by
  refine (hc.mapped i hk (o / BSIZE) ?_).2
  have := Nat.div_mul_le_self o BSIZE
  omega

end Read

/-! ## Writing -/

/-- The data `src` has been written at `off` of inode `i`; nothing else has changed but for blocks
    added to `i`. -/
structure Written (st st' : Store) (i off : Nat) (src : List UInt8) : Prop where
  other : ∀ j, j ≠ i → st'.ino j = st.ino j
  self : ∃ a, st'.ino i = { st.ino i with addrs := a }
  addrs : ∀ j k, j ≠ i → st'.addr j k = st.addr j k
  kept : ∀ k, st.addr i k ≠ 0 → st'.addr i k = st.addr i k
  blk : ∀ j n, j ≠ i → st.dataAddr j n ≠ 0 → st'.blk (st.dataAddr j n) = st.blk (st.dataAddr j n)
  written : ∀ o, off ≤ o → o < off + src.length →
    st'.dataAddr i (o / BSIZE) ≠ 0 ∧ src[o - off]? = some (st'.byteAt i o)
  rest : ∀ o, st.dataAddr i (o / BSIZE) ≠ 0 → o < off ∨ off + src.length ≤ o →
    st'.byteAt i o = st.byteAt i o
  same : (∀ o, off ≤ o → o < off + src.length → st.dataAddr i (o / BSIZE) ≠ 0) →
    st'.ino i = st.ino i

namespace Written

variable {st st' st'' : Store} {i off : Nat} {src src' : List UInt8}

theorem nil (st : Store) (i off : Nat) : Written st st i off [] :=
  ⟨fun _ _ => rfl, ⟨_, rfl⟩, fun _ _ _ => rfl, fun _ _ => rfl, fun _ _ _ _ => rfl,
    fun o h1 h2 => absurd h2 (by simp; omega), fun _ _ _ => rfl, fun _ => rfl⟩

theorem data_kept (h : Written st st' i off src) (hn : st.dataAddr i n ≠ 0) :
    st'.dataAddr i n = st.dataAddr i n := h.kept _ hn

theorem append (h : Written st st' i off src) (h' : Written st' st'' i (off + src.length) src') :
    Written st st'' i off (src ++ src') where
  other j hj := (h'.other j hj).trans (h.other j hj)
  self := by
    obtain ⟨a, ha⟩ := h.self
    obtain ⟨b, hb⟩ := h'.self
    exact ⟨b, by rw [hb, ha]⟩
  addrs j k hj := (h'.addrs j k hj).trans (h.addrs j k hj)
  kept k hk := by
    have h1 := h.kept k hk
    rw [h'.kept k (by rw [h1]; exact hk), h1]
  blk j n hj hn := by
    have h1 : st'.dataAddr j n = st.dataAddr j n := h.addrs j _ hj
    have h2 := h'.blk j n hj (by rw [h1]; exact hn)
    rw [h1] at h2
    rw [h2, h.blk j n hj hn]
  written o ho ho' := by
    rw [List.length_append] at ho'
    by_cases hlt : o < off + src.length
    · obtain ⟨h1, h2⟩ := h.written o ho hlt
      refine ⟨by rw [h'.data_kept h1]; exact h1, ?_⟩
      rw [List.getElem?_append_left (by omega), h'.rest o h1 (Or.inl hlt)]
      exact h2
    obtain ⟨h1, h2⟩ := h'.written o (by omega) (by omega)
    refine ⟨h1, ?_⟩
    rw [List.getElem?_append_right (by omega), ← h2]
    congr 1
    omega
  rest o ho hout := by
    rw [List.length_append] at hout
    rw [h'.rest o (by rw [h.data_kept ho]; exact ho) (by omega), h.rest o ho (by omega)]
  same hall := by
    rw [List.length_append] at hall
    rw [h'.same fun o ho ho' => ?_, h.same fun o ho ho' => hall o ho (by omega)]
    have := hall o (by omega) (by omega)
    rw [h.data_kept this]
    exact this

end Written

section Write

variable {sb : SuperBlock} {s t : State} {p : Ptr}

theorem addr_setBlk_data (hc : Consistent sb st) (data : Block) (j k : Nat) :
    (st.setBlk (st.dataAddr i n) data).addr j k = st.addr j k := by
  refine Store.addr_congr rfl fun hm hi => ?_
  refine update_of_ne (fun he => ?_) _ _
  rw [← Store.addr_indirect hm] at he hi
  exact Store.slotOf_ne n (hc.addr_unique he hi).2.symm

theorem Consistent.setBlk_data (hc : Consistent sb st) (data : Block) :
    Consistent sb (st.setBlk (st.dataAddr i n) data) :=
  ⟨hc.metadata, hc.owns.congr (fun x => addr_setBlk_data hc data _ _) fun _ _ _ => rfl,
      fun j hj m hm => by
    rw [Store.dataAddr, addr_setBlk_data hc]
    exact hc.mapped j hj m hm⟩

theorem written_block {bn : Nat} (off : Nat) (src : List UInt8) (hc : Consistent sb st')
    (hg : Grows st st' i) (hn : st'.dataAddr i bn ≠ 0) (hsame : st.dataAddr i bn ≠ 0 → st' = st)
    (hbn : off / BSIZE = bn) (hfit : off % BSIZE + src.length ≤ BSIZE) (hlen : src ≠ []) :
    Written st (st'.setBlk (st'.dataAddr i bn)
      ((st'.blk (st'.dataAddr i bn)).write (off % BSIZE) src)) i off src := by
  generalize hst : st'.setBlk (st'.dataAddr i bn) _ = st''
  have haddr : ∀ j k, st''.addr j k = st'.addr j k := fun j k => by
    rw [← hst]
    exact addr_setBlk_data hc _ j k
  have hself :
      st''.blk (st'.dataAddr i bn) = (st'.blk (st'.dataAddr i bn)).write (off % BSIZE) src := by
    rw [← hst]
    exact update_self ..
  have hblk : ∀ c, c ≠ st'.dataAddr i bn → st''.blk c = st'.blk c := fun c hc => by
    rw [← hst]
    exact update_of_ne hc _ _
  have hino : st''.ino = st'.ino := by rw [← hst]; rfl
  have hpos : 0 < src.length := List.length_pos_iff.mpr hlen
  have hdata : ∀ j n, st''.dataAddr j n = st'.dataAddr j n := fun j n => haddr j _
  refine ⟨fun j hj =>
    by rw [hino]; exact hg.other j hj, ?_, fun j k hj => by rw [haddr]; exact hg.addrs j k hj,
    fun k hk => by rw [haddr]; exact hg.kept k hk, fun j n hj hne => ?_, fun o ho ho' => ?_,
    fun o ho hout => ?_, fun hall => ?_⟩
  · rw [hino]
    exact hg.self
  · have h1 : st'.dataAddr j n = st.dataAddr j n := hg.addrs j _ hj
    rw [hblk _ fun he => ?_, hg.blk j n hne]
    exact hj (hc.addr_unique (h1.trans he) (by rw [show st'.addr j _ = _ from h1]; exact hne)).1
  · -- inside the block
    obtain ⟨k, rfl⟩ : ∃ k, o = off + k := ⟨o - off, by omega⟩
    have hin : off % BSIZE + k < BSIZE := by omega
    obtain ⟨h1, h2⟩ := block_of_add hin
    rw [hbn] at h1
    refine ⟨by rw [hdata, h1]; exact hn, ?_⟩
    have hk : off % BSIZE + k - off % BSIZE = k := by omega
    have hk' : off + k - off = k := by omega
    rw [Store.byteAt, hdata, h1, h2, hself, ByteBlock.byte_write _ _ _ hin,
      if_pos (by omega), hk, hk', List.getElem?_eq_getElem (by omega)]
    rfl
  · have hkept : st'.dataAddr i (o / BSIZE) = st.dataAddr i (o / BSIZE) := hg.kept _ ho
    rw [Store.byteAt, Store.byteAt, hdata, hkept]
    by_cases hob : o / BSIZE = bn
    · have hst' := hsame (hob ▸ ho)
      rw [← hkept, hob, hself, ByteBlock.byte_write_of_notMem _ ?_, hst']
      simp only [BSIZE] at *
      omega
    rw [hblk _ fun he => hob ?_, hg.blk i _ ho]
    rw [← hkept] at he
    exact Store.slotOf_inj
      (hc.addr_unique he (by rw [show st'.addr i _ = _ from hkept]; exact ho)).2
  · rw [hino, hsame]
    have := hall off le_rfl (by omega)
    rwa [hbn] at this

def touched (off n : Nat) : Nat := if n = 0 then 0 else (off + n - 1) / BSIZE - off / BSIZE + 1

theorem touched_step (hn : n ≠ 0) :
    touched off n = 1 +
      touched (off + min n (BSIZE - off % BSIZE)) (n - min n (BSIZE - off % BSIZE)) := by
  unfold touched
  rw [if_neg hn]
  by_cases hz : n - min n (BSIZE - off % BSIZE) = 0
  · rw [if_pos hz]
    simp only [BSIZE] at *
    omega
  rw [if_neg hz]
  simp only [BSIZE] at *
  omega

structure LoopDone (sb : SuperBlock) (s : State) (p : Ptr) (off : Nat)
    (src : List UInt8) (t : State) : Prop where
  consistent : Consistent sb (t.store sb)
  locked : Locked sb t p
  slots : SlotGrows s t p
  dinode : ∀ i, i < sb.ninodes → t.dinode sb i = s.dinode sb i
  written : Written (s.store sb) (t.store sb) (s.icache p).inum off src

theorem writeLoop_spec :
    ∀ (fuel off : Nat) (src : List UInt8) (s : State), Consistent sb (s.store sb) →
    Locked sb s p → src.length ≤ fuel → off + src.length ≤ MAXFILE * BSIZE →
    Spec sb (writeLoop sb p fuel off src) s (6 * touched off src.length)
      (2 * touched off src.length) fun off' t => off' = off + src.length ∧ LoopDone sb s p off src t
  | 0, off, src, s, hc, hl, hf, _ => by
    have hnil : src = [] := List.eq_nil_of_length_eq_zero (by omega)
    subst hnil
    exact Spec.pure ⟨rfl, hc, hl, SlotGrows.of_same rfl, fun _ _ => rfl, Written.nil _ _ _⟩
  | fuel + 1, off, src, s, hc, hl, hf, hmax => by
    rw [writeLoop]
    split
    · rename_i hnil
      subst hnil
      exact Spec.pure ⟨rfl, hc, hl, SlotGrows.of_same rfl, fun _ _ => rfl, Written.nil _ _ _⟩
    rename_i hne
    have hpos : 0 < src.length := List.length_pos_iff.mpr hne
    have hB := BSIZE_eq
    have hmod : off % BSIZE < BSIZE := Nat.mod_lt _ (by omega)
    have hbn : off / BSIZE < MAXFILE := Nat.div_lt_of_lt_mul (by rw [Nat.mul_comm]; omega)
    rw [touched_step (by omega)]
    generalize hm : BSIZE - off % BSIZE = m
    have hlen : (src.take m).length = min src.length m := by rw [List.length_take, Nat.min_comm]
    have hlen' :
        (src.drop m).length = src.length - min src.length m := by rw [List.length_drop]; omega
    refine Spec.bind (bmap_spec hc hl hbn) ?_
    intro b u hu
    have hb : (u.store sb).dataAddr (s.icache p).inum (off / BSIZE) = b := hu.addr
    have hb0 :
        (u.store sb).dataAddr (s.icache p).inum (off / BSIZE) ≠ 0 := by rw [hb]; exact hu.nonzero
    have hlo := (hu.consistent.data_range hb0).1
    rw [hb] at hlo
    refine Spec.read ?_
    rw [disk_eq_blk hlo]
    have hstore :=
      store_write_data (s := u) (((u.store sb).blk b).write (off % BSIZE) (src.take m)) hlo
    have hsame :
        SameInodes sb u (u.write b (((u.store sb).blk b).write (off % BSIZE) (src.take m))) :=
      sameInodes_write _ (Nat.le_trans sb.bmapstart_le_nmeta hlo)
    have hw :=
      written_block off (src.take m) hu.consistent hu.grows hb0 (fun h => by rw [hu.same h]) rfl
      (by omega) (by intro he; rw [he] at hlen; simp at hlen; omega)
    have hcon := hu.consistent.setBlk_data (i := (s.icache p).inum) (n := off / BSIZE)
      (((u.store sb).blk b).write (off % BSIZE) (src.take m))
    rw [hb] at hw hcon
    rw [← hstore] at hw hcon
    refine Spec.bind (logWrite_spec (r := 0) ?_) ?_
    · unfold State.free
      rw [hstore]
      exact Nat.le_refl _
    rintro _ v rfl
    have ih := writeLoop_spec fuel (off + min src.length m) (src.drop m)
        _ hcon (hu.locked.same hsame) (by omega) (by omega)
    rw [hlen'] at ih
    refine ih.mono ?_
    rintro off' w ⟨hoff, hd⟩
    refine ⟨by omega, hd.consistent, hd.locked, hu.slots.trans ((SlotGrows.of_same
      hsame.icache).trans hd.slots),
      fun i hi => (hd.dinode i hi).trans ((hsame.dinode i hi).trans (hu.dinode i hi)), ?_⟩
    have hrest := hd.written
    rw [show ((u.write b _).icache p).inum = _ from hu.slots.inum, ← hlen] at hrest
    have happ := hw.append hrest
    rwa [List.take_append_drop] at happ

/-! ## The whole of `writei` -/

/-- The state after `writei`: the contents of the inode are spliced, all others are as they were. -/
structure Spliced (sb : SuperBlock) (s : State) (p : Ptr) (off : Nat)
    (src : List UInt8) (t : State) : Prop where
  consistent : Consistent sb (t.store sb)
  icache : Icache sb t none
  slots : ∀ q, q ≠ p → t.icache q = s.icache q
  inum : (t.icache p).inum = (s.icache p).inum
  ref : (t.icache p).ref = (s.icache p).ref
  valid : (t.icache p).valid = true
  ino : ∀ j, j ≠ (s.icache p).inum → (t.store sb).ino j = (s.store sb).ino j
  mode : ((t.store sb).ino (s.icache p).inum).mode = ((s.store sb).ino (s.icache p).inum).mode
  nlink : ((t.store sb).ino (s.icache p).inum).nlink = ((s.store sb).ino (s.icache p).inum).nlink
  other : ∀ j, j ≠ (s.icache p).inum → (t.store sb).contents j = (s.store sb).contents j
  self : (t.store sb).contents (s.icache p).inum =
    ((s.store sb).contents (s.icache p).inum).take off ++ src ++
      ((s.store sb).contents (s.icache p).inum).drop (off + src.length)

@[simp] theorem Store.length_contents (st : Store) (i : Nat) :
    (st.contents i).length = (st.ino i).size.toNat := by
  simp [Store.contents]

theorem Store.getElem?_contents (st : Store) {o : Nat} (h : o < (st.ino i).size.toNat) :
    (st.contents i)[o]? = some (st.byteAt i o) := by
  simp [Store.contents, h]

theorem blk_zero (hc : Consistent sb (s.store sb)) : (s.store sb).blk 0 = ByteBlock.zero :=
  if_neg hc.owns.pos.not_ge

theorem Written.contents_other (h : Written st st' i off src)
    (hzero : st'.blk 0 = st.blk 0) {j : Nat} (hj : j ≠ i) : st'.contents j = st.contents j := by
  unfold Store.contents
  rw [h.other j hj]
  refine List.map_congr_left fun o _ => ?_
  have haddr : st'.dataAddr j (o / BSIZE) = st.dataAddr j (o / BSIZE) := h.addrs j _ hj
  rw [Store.byteAt, Store.byteAt, haddr]
  by_cases hz : st.dataAddr j (o / BSIZE) = 0
  · rw [hz, hzero]
  · rw [h.blk j _ hj hz]

theorem getElem?_splice {bs : List UInt8} (h : off ≤ bs.length) (o : Nat) :
    (bs.take off ++ src ++ bs.drop (off + src.length))[o]? =
      if off ≤ o ∧ o < off + src.length then src[o - off]? else bs[o]? := by
  have htake : (bs.take off).length = off := by rw [List.length_take]; omega
  rw [List.append_assoc]
  by_cases h1 : o < off
  · rw [List.getElem?_append_left (by omega), List.getElem?_take_of_lt h1, if_neg (by omega)]
  rw [List.getElem?_append_right (by omega), htake]
  by_cases h2 : o < off + src.length
  · rw [List.getElem?_append_left (by omega), if_pos (by omega)]
  rw [List.getElem?_append_right (by omega), List.getElem?_drop, if_neg (by omega)]
  congr 1
  omega

theorem Written.splice (h : Written st st' i off src)
    (hmapped : ∀ o, o < (st.ino i).size.toNat → st.dataAddr i (o / BSIZE) ≠ 0)
    (hoff : off ≤ (st.ino i).size.toNat) :
    (List.range (max (st.ino i).size.toNat (off + src.length))).map (st'.byteAt i) =
      (st.contents i).take off ++ src ++ (st.contents i).drop (off + src.length) := by
  have hlen := st.length_contents i
  have hget : ∀ o, o < max (st.ino i).size.toNat (off + src.length) →
      ((List.range (max (st.ino i).size.toNat (off + src.length))).map (st'.byteAt i))[o]? =
        some (st'.byteAt i o) := fun o ho => by simp [ho]
  apply List.ext_getElem?
  intro o
  rw [getElem?_splice (by omega)]
  split
  · rename_i ho
    rw [(h.written o ho.1 ho.2).2, hget o (by omega)]
  by_cases hold : o < (st.ino i).size.toNat
  · rw [st.getElem?_contents hold, hget o (by omega), h.rest o (hmapped o hold) (by omega)]
  · rw [List.getElem?_eq_none (by simp; omega), List.getElem?_eq_none (by omega)]

section SetInode

variable {ip : Inode}

variable (haddr : ∀ j k, (st.setInode i ip).addr j k = st.addr j k)
include haddr

theorem byteAt_setInode (j o : Nat) : (st.setInode i ip).byteAt j o = st.byteAt j o := by
  unfold Store.byteAt Store.dataAddr
  simp only [haddr]
  rfl

theorem contents_setInode_ne {j : Nat} (hj : j ≠ i) :
    (st.setInode i ip).contents j = st.contents j := by
  rw [Store.contents, Store.contents,
    show (st.setInode i ip).ino j = st.ino j from update_of_ne hj _ _]
  exact List.map_congr_left fun o _ => byteAt_setInode haddr j o

theorem contents_setInode_self :
    (st.setInode i ip).contents i = (List.range ip.size.toNat).map (st.byteAt i) := by
  rw [Store.contents, show (st.setInode i ip).ino i = ip from update_self ..]
  exact List.map_congr_left fun o _ => byteAt_setInode haddr i o

end SetInode

/-- All blocks up to the new size are mapped. -/
theorem Written.consistent_grow {ip : Inode} (h : Written st st' i off src)
    (hc : Consistent sb st')
    (hmapped : ∀ o, o < (st.ino i).size.toNat → st.dataAddr i (o / BSIZE) ≠ 0)
    (hoff : off ≤ (st.ino i).size.toNat) (hmax : off + src.length ≤ MAXFILE * BSIZE)
    (haddr : ∀ j k, (st'.setInode i ip).addr j k = st'.addr j k)
    (hsize : ip.size.toNat = off + src.length) : Consistent sb (st'.setInode i ip) := by
  refine hc.setInode (haddr _) fun _ n hn => ?_
  rw [hsize] at hn
  have hB := BSIZE_eq
  have hdiv : n * BSIZE / BSIZE = n := Nat.mul_div_cancel _ (by omega)
  refine ⟨Nat.lt_of_mul_lt_mul_right (hn.trans_le hmax), ?_⟩
  by_cases hold : n * BSIZE < (st.ino i).size.toNat
  · have hne := hmapped _ hold
    rw [hdiv] at hne
    rwa [h.data_kept hne]
  · have hne := (h.written (n * BSIZE) (by omega) hn).1
    rwa [hdiv] at hne

theorem Locked.settle (h : Locked sb s p)
    (hthrough : (s.icache p).ino.core = (s.dinode sb (s.icache p).inum).core) :
    Icache sb s none := by
  refine ⟨h.icache.unique, h.icache.known, fun q hq hv _ => ?_, fun q hq hv _ => ?_⟩
  · by_cases hqp : q = p
    · rw [hqp]
      exact h.mode
    · exact h.icache.live q hq hv fun he => hqp (Option.some.inj he).symm
  · by_cases hqp : q = p
    · rw [hqp]
      exact hthrough
    · exact h.icache.through q hq hv fun he => hqp (Option.some.inj he).symm

namespace LoopDone

variable (hcs : Consistent sb (s.store sb)) (hls : Locked sb s p)
  (hmapped : ∀ o, o < (s.icache p).ino.size.toNat →
    (s.store sb).dataAddr (s.icache p).inum (o / BSIZE) ≠ 0)
  (hoff : off ≤ (s.icache p).ino.size.toNat) (hd : LoopDone sb s p off src t)
include hcs hls hmapped hoff hd

/-- The file has grown, and its inode has been stored. -/
theorem grown {u : State} {ip : Inode} (hus : u.store sb = (t.setIno p ip).store sb)
    (huc : u.icache = (t.setIno p ip).icache) (hun : Icache sb u none)
    (hmode : ip.mode = (t.icache p).ino.mode) (hnlink : ip.nlink = (t.icache p).ino.nlink)
    (haddrs : ip.addrs = (t.icache p).ino.addrs) (hsize : ip.size.toNat = off + src.length)
    (hgrow : (s.icache p).ino.size.toNat < off + src.length)
    (hmax : off + src.length ≤ MAXFILE * BSIZE) : Spliced sb s p off src u := by
  obtain ⟨a, ha⟩ := hd.slots.self
  have hinum := hd.slots.inum
  have hsz : ((s.store sb).ino (s.icache p).inum).size = (s.icache p).ino.size := by
    rw [hls.store]
    rfl
  have htino : (t.store sb).ino (s.icache p).inum = (t.icache p).ino.core := by
    rw [← hinum]
    exact hd.locked.store
  have hzero : (t.store sb).blk 0 = (s.store sb).blk 0 := by
    rw [blk_zero hcs, blk_zero hd.consistent]
  rw [hd.locked.store_setIno, hinum] at hus
  have haddr : ∀ j k, ((t.store sb).setInode (s.icache p).inum ip.core).addr j k =
      (t.store sb).addr j k :=
    Store.addr_setInode (by rw [htino]; exact hmode) (by rw [htino]; exact haddrs)
  have hself : ((t.store sb).setInode (s.icache p).inum ip.core).ino (s.icache p).inum = ip.core :=
    update_self ..
  refine ⟨?_, hun, fun q hq => ?_, ?_, ?_, ?_, fun j hj => ?_, ?_, ?_, fun j hj => ?_, ?_⟩
  · rw [hus]
    exact hd.written.consistent_grow hd.consistent (by rwa [hsz]) (by rwa [hsz]) hmax haddr hsize
  · rw [huc, State.setIno, State.setSlot_ne _ hq, hd.slots.other q hq]
  · rw [huc, State.setIno_inum, hinum]
  · rw [huc, State.setIno_ref, ha]
  · rw [huc, State.setIno_valid, hd.locked.valid]
  · rw [hus, ← hd.written.other j hj]
    exact update_of_ne hj _ _
  · rw [hus, hself, hls.store]
    exact hmode.trans (by rw [ha]; rfl)
  · rw [hus, hself, hls.store]
    exact hnlink.trans (by rw [ha]; rfl)
  · rw [hus, contents_setInode_ne haddr hj, hd.written.contents_other hzero hj]
  · rw [hus, contents_setInode_self haddr, ← hd.written.splice (by rwa [hsz]) (by rwa [hsz]), hsz,
      Nat.max_eq_right hgrow.le, show ip.core.size.toNat = _ from hsize]

/-- The file has not grown: nothing was allocated, and the in-memory copy is as it was. -/
theorem unchanged (hi : Icache sb s none)
    (hfit : off + src.length ≤ (s.icache p).ino.size.toNat ∨ src.length = 0) :
    Spliced sb s p off src t := by
  have hinum := hd.slots.inum
  obtain ⟨a, ha⟩ := hd.slots.self
  have hsz : ((s.store sb).ino (s.icache p).inum).size = (s.icache p).ino.size := by
    rw [hls.store]
    rfl
  have hzero : (t.store sb).blk 0 = (s.store sb).blk 0 := by
    rw [blk_zero hcs, blk_zero hd.consistent]
  have hino : (t.store sb).ino (s.icache p).inum = (s.store sb).ino (s.icache p).inum :=
    hd.written.same fun o h1 h2 => hmapped o (by omega)
  have hthrough : (t.icache p).ino.core = (t.dinode sb (t.icache p).inum).core := by
    have h1 := hd.locked.store
    rw [hinum, hino, hls.store] at h1
    rw [← h1, hinum, hd.dinode _ (hi.known p hls.active hls.valid)]
    exact hi.through p hls.active hls.valid fun h => by cases h
  refine ⟨hd.consistent, hd.locked.settle hthrough, hd.slots.other, hinum, by rw [ha],
    hd.locked.valid, hd.written.other, by rw [hino], by rw [hino],
    fun j => hd.written.contents_other hzero, ?_⟩
  rw [← hd.written.splice (by rwa [hsz]) (by rwa [hsz]), Store.contents, hino]
  congr 2
  rw [hsz]
  omega

end LoopDone

theorem writeSize_spec {env : Env} (hcs : Consistent env.sb (s.store env.sb))
    (hi : Icache env.sb s none)
    (hk : ((s.store env.sb).ino (s.icache p).inum).isReg ∨
      ((s.store env.sb).ino (s.icache p).inum).isDir)
    (hoff : off ≤ (s.icache p).ino.size.toNat) (hmax : off + src.length ≤ MAXFILE * BSIZE)
    (hls : Locked env.sb s p) (hd : LoopDone env.sb s p off src t) :
    Spec env.sb (writeSize env p src.length (off + src.length)) t 1 0 fun _ u =>
      Spliced env.sb s p off src u := by
  have hmapped : ∀ o, o < (s.icache p).ino.size.toNat →
      (s.store env.sb).dataAddr (s.icache p).inum (o / BSIZE) ≠ 0 := fun o ho =>
    mapped_of_lt hcs hk (by rw [hls.store]; exact ho)
  obtain ⟨a, ha⟩ := hd.slots.self
  unfold writeSize
  refine Spec.get ?_
  rw [show (t.icache p).ino.size = (s.icache p).ino.size by rw [ha]]
  split
  · rename_i hgrow
    have hsize : (UInt32.ofNat (off + src.length)).toNat = off + src.length := by
      have hlt : MAXFILE * BSIZE < 4294967296 := by decide
      rw [UInt32.toNat_ofNat', Nat.mod_eq_of_lt (by omega)]
    have hset : Locked env.sb (t.setIno p { (t.icache p).ino with
        size := UInt32.ofNat (off + src.length), ctime := env.now, lmtime := env.now }) p :=
      hd.locked.setIno hd.locked.mode
    refine Spec.modify rfl rfl (hd.locked.free_setIno _) ?_
    refine (iupdate_spec hset.icache (.inr rfl) hset.active hset.valid).mono ?_
    rintro _ u ⟨hus, huc, _, _, hun⟩
    exact hd.grown hcs hls hmapped hoff hus huc (hun hset.mode) rfl rfl rfl hsize hgrow.2 hmax
  · rename_i hfit
    exact Spec.pure (hd.unchanged hcs hls hmapped hoff hi (by omega))

end Write

end Micro86.Fs
