import Micro86.Fs.Dirs
import Micro86.Fs.Paths
import Micro86.Mkfs.ReadBack

/-!
# Packing a host directory tree

`scan_directory` and `main`.  What the host's system calls return is the input: a `Listing` is what
`readdir` returns for a directory, with the result of `stat`, `opendir`, `open` and `read` for each
entry.

* `Files` — the inodes that are being built: their number, and the mode and the contents of each.
* `scanEntries_shows` — `scan_directory` on the image does what `Files.scan` does.
-/

namespace Micro86.Mkfs

open Exec Fs Image Function

/-! ## The program -/

/-- A name that the host returns. -/
structure HostName where
  bytes : List UInt8
  nonempty : bytes ≠ []
  noNul : 0 ∉ bytes
  noSlash : SLASH ∉ bytes

def HostName.isDots (name : HostName) : Bool := name.bytes == DOT || name.bytes == DOTDOT

/-- The entries of a host directory in the order of `readdir`.  `opens` is whether `opendir`
    succeeds, `reads` what `read` returns block by block, if the file can be opened. -/
inductive Listing where
  | nil
  | dir (name : HostName) (mode : UInt16) (opens : Bool) (sub rest : Listing)
  | file (name : HostName) (mode : UInt16) (reads : Option (List (List UInt8))) (rest : Listing)
  | special (name : HostName) (rest : Listing)
  | noStat (name : HostName) (rest : Listing)

/-- The permission bits that are copied: `S_IWGRP` and `S_IWOTH` are not among them. -/
def permBits : List UInt16 := [0o400, 0o200, 0o100, 0o040, 0o010, 0o004, 0o001]

def convertMode (type hostMode : UInt16) : UInt16 :=
  permBits.foldl (fun m bit => if hostMode &&& bit ≠ 0 then m ||| bit else m) type

/-- The entries `.` and `..`: `strcpy` into a zeroed `struct dirent`. -/
def dotFor (name : List UInt8) (inum : Nat) : Dirent :=
  ((ByteBlock.zero : Dirent).write 0 (ByteBlock.le16 inum)).write 7 (name ++ [0])

/-- Any other entry: `strncpy`, then `d_name[DIRSIZ-1] = 0`. -/
def direntFor (name : List UInt8) (inum : Nat) : Dirent :=
  (((ByteBlock.zero : Dirent).write 0 (ByteBlock.le16 inum)).write 7 (strncpy DIRSIZ name)).write
  (7 + (DIRSIZ - 1)) [0]

def addDotEntries (dirIno parentIno : Nat) : MkfsM Unit := do
  iappend dirIno (dotFor DOT dirIno).bytes
  iappend dirIno (dotFor DOTDOT parentIno).bytes

def createDirectory (clock : Nat → UInt32) (parentIno : Nat) (mode : UInt16) : MkfsM Nat := do
  let newIno ← ialloc clock mode
  if newIno = 0 then pure 0
  else do
    addDotEntries newIno parentIno
    pure newIno

def appendAll (inum : Nat) : List (List UInt8) → MkfsM Unit
  | [] => pure ()
  | buf :: reads => do
    iappend inum buf
    appendAll inum reads

/-- The loop of `scan_directory`; the result is whether it returns zero. -/
def scanEntries (clock : Nat → UInt32) : Listing → Nat → MkfsM Bool
  | .nil, _ => pure true
  | .dir name mode opens sub rest, ino =>
    if name.isDots then scanEntries clock rest ino
    else do
      let newIno ← createDirectory clock ino (convertMode S_IFDIR mode)
      if newIno = 0 then scanEntries clock rest ino
      else do
        iappend ino (direntFor name.bytes newIno).bytes
        let ok ← (if opens then scanEntries clock sub newIno else pure false)
        if ok then scanEntries clock rest ino else pure false
  | .file name mode reads rest, ino =>
    if name.isDots then scanEntries clock rest ino
    else do
      let newIno ← ialloc clock (convertMode S_IFREG mode)
      iappend ino (direntFor name.bytes newIno).bytes
      appendAll newIno (reads.getD [])
      scanEntries clock rest ino
  | .special _ rest, ino => scanEntries clock rest ino
  | .noStat _ rest, ino => scanEntries clock rest ino

def scanDirectory (clock : Nat → UInt32) (opens : Bool) (entries : Listing)
    (ino : Nat) : MkfsM Bool :=
  if opens then scanEntries clock entries ino else pure false

def bitmap (used : Nat) : Block := (List.range used).foldl ByteBlock.setBit ByteBlock.zero

def balloc (used : Nat) : MkfsM Unit :=
  if used < BSIZE * 8 then wsect sb.bmapstart (bitmap used) else Exec.panic "used < BSIZE*8"

def sbBlock : Block :=
  ByteBlock.zero.write 0 (ByteBlock.words
    [sb.size, sb.nblocks, sb.ninodes, sb.nlog, sb.logstart, sb.inodestart, sb.bmapstart])

def rootMode : UInt16 := S_IFDIR ||| 0o755

/-- The size of the root directory is rounded up, past a full last block to one block more. -/
def fixRootSize : MkfsM Unit := do
  let din ← rinode ROOTINO
  winode ROOTINO { din with size := UInt32.ofNat ((din.size.toNat / BSIZE + 1) * BSIZE) }

def main (clock : Nat → UInt32) (opens : Bool) (root : Listing) : MkfsM Unit := do
  Exec.forUpTo FSSIZE fun i => wsect i ByteBlock.zero
  wsect 1 sbBlock
  let rootino ← ialloc clock rootMode
  if rootino ≠ ROOTINO then Exec.panic "rootino == ROOTINO"
  else do
    addDotEntries rootino rootino
    let ok ← scanDirectory clock opens root rootino
    if ok then do
      fixRootSize
      let img ← Exec.get
      balloc img.freeblock
    else Exec.panic "error scanning directory tree"

def created : Image := ⟨fun _ => ByteBlock.zero, 0, 1, nmeta⟩

/-- `mkfs` ends with exit status zero and has written `img`. -/
def Packs (clock : Nat → UInt32) (opens : Bool) (root : Listing) (img : Image) : Prop :=
  main clock opens root created = .ok ((), img)

/-! ## The files that are built -/

structure Files where
  next : Nat
  mode : Nat → UInt16
  data : Nat → List UInt8

namespace Files

variable (f : Files)

def ialloc (type : UInt16) : Files :=
  ⟨f.next + 1, update f.mode f.next type, update f.data f.next []⟩

def iappend (i : Nat) (p : List UInt8) : Files :=
  { f with data := update f.data i (f.data i ++ p) }

def createDirectory (parentIno : Nat) (mode : UInt16) : Files :=
  ((f.ialloc mode).iappend f.next (dotFor DOT f.next).bytes).iappend
    f.next (dotFor DOTDOT parentIno).bytes

def scan : Listing → Nat → Files → Files
  | .nil, _, f => f
  | .dir name mode _ sub rest, ino, f =>
    if name.isDots then scan rest ino f
    else
      scan rest ino (scan sub f.next ((f.createDirectory ino (convertMode S_IFDIR mode)).iappend ino
      (direntFor name.bytes f.next).bytes))
  | .file name mode reads rest, ino, f =>
    if name.isDots then scan rest ino f
    else scan rest ino (((f.ialloc (convertMode S_IFREG mode)).iappend
      ino (direntFor name.bytes f.next).bytes).iappend f.next (reads.getD []).flatten)
  | .special _ rest, ino, f => scan rest ino f
  | .noStat _ rest, ino, f => scan rest ino f

end Files

/-- The image shows the files `f`. -/
structure Image.Is (img : Image) (f : Files) : Prop where
  formed : Formed img.files img.freeblock
  blank : img.Blank
  ino : ∀ i, 1 ≤ i → i < f.next → (img.dinode i).mode = f.mode i ∧
    (img.dinode i).nlink = 1 ∧ (img.dinode i).uid = 0
  free : ∀ i, i < inodeCap → i = 0 ∨ f.next ≤ i → img.dinode i = Inode.zero
  data : ∀ i, 1 ≤ i → i < f.next → img.files.contents i = f.data i

/-- The same for as long as the inodes fit; beyond that nothing but the counters is known. -/
structure Shows (img : Image) (f : Files) : Prop where
  next : img.freeinode = f.next
  above : nmeta ≤ img.freeblock
  pos : 1 ≤ f.next
  fits : f.next ≤ inodeCap → img.Is f

namespace Files

def size (f : Files) (i : Nat) : Nat := if 1 ≤ i ∧ i < f.next then (f.data i).length else 0

/-- The volume is large enough for the files. -/
structure Room (f : Files) : Prop where
  fits : f.next ≤ inodeCap
  small : ∀ i, f.size i ≤ MAXFILE * BSIZE
  blocks : freeblockFor f.size ≤ FSSIZE

/-- Files are only added and only grow. -/
structure Le (f g : Files) : Prop where
  next : f.next ≤ g.next
  size : ∀ i, f.size i ≤ g.size i

variable {f g h : Files}

theorem Le.refl (f : Files) : Le f f := ⟨le_rfl, fun _ => le_rfl⟩

theorem Le.trans (hfg : Le f g) (hgh : Le g h) : Le f h :=
  ⟨hfg.next.trans hgh.next, fun i => (hfg.size i).trans (hgh.size i)⟩

theorem Room.mono (hg : Room g) (hle : Le f g) : Room f where
  fits := hle.next.trans hg.fits
  small i := (hle.size i).trans (hg.small i)
  blocks := (freeblockFor_mono hle.size).trans hg.blocks

@[simp] theorem next_ialloc (type : UInt16) : (f.ialloc type).next = f.next + 1 := rfl

@[simp] theorem next_iappend (i : Nat) (p : List UInt8) : (f.iappend i p).next = f.next := rfl

@[simp] theorem next_createDirectory (parent : Nat) (mode : UInt16) :
    (f.createDirectory parent mode).next = f.next + 1 := rfl

theorem size_ialloc (type : UInt16) (i : Nat) : (f.ialloc type).size i = f.size i := by
  unfold Files.size
  rw [next_ialloc]
  by_cases hi : i = f.next
  · subst hi
    rw [show (f.ialloc type).data f.next = [] from update_self ..,
      List.length_nil, ite_self, if_neg (by omega)]
  rw [show (f.ialloc type).data i = f.data i from update_of_ne hi _ _]
  refine if_congr ?_ rfl rfl
  omega

theorem le_ialloc (f : Files) (type : UInt16) : Le f (f.ialloc type) :=
  ⟨Nat.le_succ _, fun i => Nat.le_of_eq (size_ialloc type i).symm⟩

theorem size_iappend {i : Nat} (h1 : 1 ≤ i) (h2 : i < f.next) (p : List UInt8) (j : Nat) :
    (f.iappend i p).size j = update f.size i (f.size i + p.length) j := by
  unfold Files.size
  rw [next_iappend]
  by_cases hj : j = i
  · subst hj
    rw [show (f.iappend j p).data j = f.data j ++ p from update_self ..,
      update_self, if_pos ⟨h1, h2⟩, if_pos ⟨h1, h2⟩, List.length_append]
  · rw [show (f.iappend i p).data j = f.data j from update_of_ne hj _ _, update_of_ne hj]

theorem le_iappend (f : Files) (i : Nat) (p : List UInt8) : Le f (f.iappend i p) := by
  refine ⟨le_rfl, fun j => ?_⟩
  unfold Files.size
  rw [next_iappend]
  split
  · by_cases hj : j = i
    · subst hj
      rw [show (f.iappend j p).data j = f.data j ++ p from update_self .., List.length_append]
      exact Nat.le_add_right _ _
    · rw [show (f.iappend i p).data j = f.data j from update_of_ne hj _ _]
  · exact le_rfl

theorem le_createDirectory (f : Files) (parent : Nat) (mode : UInt16) :
    Le f (f.createDirectory parent mode) :=
  (le_ialloc f mode).trans ((le_iappend _ _ _).trans (le_iappend _ _ _))

theorem le_scan (l : Listing) (ino : Nat) (f : Files) : Le f (f.scan l ino) := by
  induction l generalizing ino f with
  | nil => exact Le.refl f
  | dir name mode opens sub rest ihs ihr =>
    unfold Files.scan
    split
    · exact ihr _ _
    · exact (le_createDirectory _ _ _).trans ((le_iappend _ _ _).trans ((ihs _ _).trans (ihr _ _)))
  | file name mode reads rest ih =>
    unfold Files.scan
    split
    · exact ih _ _
    · exact (le_ialloc _ _).trans ((le_iappend _ _ _).trans ((le_iappend _ _ _).trans (ih _ _)))
  | special name rest ih | noStat name rest ih => exact ih _ _

end Files

theorem Image.Is.size {img : Image} {f : Files} (h : img.Is f) {i : Nat} (hi : i < inodeCap) :
    (img.dinode i).size.toNat = f.size i := by
  unfold Files.size
  split
  · rename_i hin
    rw [← h.data i hin.1 hin.2, length_files img hi]
  · rw [h.free i hi (by omega)]
    rfl

theorem Image.Is.freeblock {img : Image} {f : Files} (h : img.Is f) :
    img.freeblock = freeblockFor f.size := by
  rw [h.formed.count]
  refine freeblockFor_congr fun i hi => ?_
  rw [← h.size hi, files_ino img hi]
  rfl

/-! ## The counters -/

section Counter

variable {img : Image}

/-- No inode has been allocated since, and no block given back. -/
structure Image.Past (img img' : Image) : Prop where
  freeinode : img'.freeinode = img.freeinode
  freeblock : img.freeblock ≤ img'.freeblock

theorem Image.Past.trans {img img' img'' : Image} (h : img.Past img') (h' : img'.Past img'') :
    img.Past img'' :=
  ⟨h'.freeinode.trans h.freeinode, h.freeblock.trans h'.freeblock⟩

/-- The routine leaves `freeinode` alone, and `freeblock` does not go down. -/
def KeepsCounter {α : Type} (x : MkfsM α) : Prop :=
  ∀ img, wp x (fun _ img' => img.Past img') (fun _ => True) img

theorem KeepsCounter.bind {α β : Type} {x : MkfsM α} {g : α → MkfsM β}
    (hx : KeepsCounter x) (hg : ∀ a, KeepsCounter (g a)) : KeepsCounter (x >>= g) := fun img =>
  wp.seq (hx img) fun a _ he => wp.mono (hg a _) (fun _ _ => he.trans) fun _ => id

theorem KeepsCounter.pure {α : Type} (a : α) :
    KeepsCounter (Pure.pure a : MkfsM α) := fun _ => ⟨rfl, le_rfl⟩

theorem KeepsCounter.ite {α : Type} {c : Prop} [Decidable c]
    {x y : MkfsM α} (hx : KeepsCounter x) (hy : KeepsCounter y) :
    KeepsCounter (if c then x else y) := by
  split
  · exact hx
  · exact hy

theorem KeepsCounter.panic {α : Type} (msg : String) :
    KeepsCounter (Exec.panic msg : MkfsM α) := fun _ => trivial

theorem wsect_counter (sec : Nat) (buf : Block) :
    KeepsCounter (wsect sec buf) := fun _ => ⟨rfl, le_rfl⟩

theorem rsect_counter (sec : Nat) : KeepsCounter (rsect sec) := by
  intro img
  unfold rsect
  rw [wp_bind, wp_get]
  exact KeepsCounter.ite (KeepsCounter.pure _) (KeepsCounter.panic _) img

theorem nextBlock_counter : KeepsCounter nextBlock := fun _ => ⟨rfl, Nat.le_succ _⟩

theorem winode_counter (inum : Nat) (ip : Inode) : KeepsCounter (winode inum ip) :=
  (rsect_counter _).bind fun _ => wsect_counter _ _

theorem rinode_counter (inum : Nat) : KeepsCounter (rinode inum) :=
  (rsect_counter _).bind fun _ => KeepsCounter.pure _

theorem blockFor_counter (din : Inode) (fbn : Nat) : KeepsCounter (blockFor din fbn) := by
  have hdirect : ∀ k, KeepsCounter (directBlock din k) := fun k =>
    KeepsCounter.ite (nextBlock_counter.bind fun _ => KeepsCounter.pure _) (KeepsCounter.pure _)
  unfold blockFor
  split
  · exact (hdirect _).bind fun _ => KeepsCounter.pure _
  refine (hdirect _).bind fun din' => KeepsCounter.bind ?_ fun _ => KeepsCounter.pure _
  exact (rsect_counter _).bind fun _ => KeepsCounter.ite
    (nextBlock_counter.bind fun _ => (wsect_counter _ _).bind fun _ => KeepsCounter.pure _)
      (KeepsCounter.pure _)

theorem iappendLoop_counter (fuel : Nat) (din : Inode) (off : Nat) (p : List UInt8) :
    KeepsCounter (iappendLoop fuel din off p) := by
  induction fuel generalizing din off p with
  | zero => exact KeepsCounter.pure _
  | succ fuel ih =>
    unfold iappendLoop
    exact KeepsCounter.ite (KeepsCounter.pure _) (KeepsCounter.ite (KeepsCounter.panic _)
      ((blockFor_counter _ _).bind fun _ => (rsect_counter _).bind fun _ =>
        (wsect_counter _ _).bind fun _ => ih _ _ _))

theorem iappend_counter (inum : Nat) (p : List UInt8) : KeepsCounter (iappend inum p) :=
  (rinode_counter _).bind fun _ => (iappendLoop_counter _ _ _ _).bind fun _ => winode_counter _ _

end Counter

/-! ## Simulation -/

section Simulation

variable {img : Image} {f : Files} {clock : Nat → UInt32}

theorem Formed.setInode {st : Store} {fb i : Nat} (h : Formed st fb)
    {ip : Inode} (hmode : ip.mode = (st.ino i).mode)
    (haddrs : ip.addrs = (st.ino i).addrs) (hsize : ip.size = (st.ino i).size) :
    Formed (st.setInode i ip) fb ∧ ∀ j, (st.setInode i ip).contents j = st.contents j := by
  have haddr := Store.addr_setInode hmode haddrs
  have hsz : ∀ j, ((st.setInode i ip).ino j).size = (st.ino j).size := by
    intro j
    show (update st.ino i ip j).size = _
    refine update_cases j ?_ fun _ => ?_
    · rw [hsize]
    · rfl
  have hbyte : ∀ j o, (st.setInode i ip).byteAt j o = st.byteAt j o := by
    intro j o
    unfold Store.byteAt Store.dataAddr
    rw [haddr]
    rfl
  refine ⟨⟨?_, fun j k hj hk => ?_, ?_, fun j o hj ho hne => ?_⟩, fun j => ?_⟩
  · refine h.consistent.setInode (haddr i) fun hk n hn => ?_
    rw [hsize] at hn
    unfold Inode.isReg Inode.isDir at hk
    rw [hmode] at hk
    exact h.consistent.mapped i hk n hn
  · rw [haddr, hsz]
    exact h.tight j k hj hk
  · simp only [hsz]
    exact h.count
  · rw [hsz] at ho
    rw [Store.dataAddr, haddr] at hne
    rw [hbyte]
    exact h.tail j o hj ho hne
  · unfold Store.contents
    rw [hsz]
    exact List.map_congr_left fun o _ => hbyte j o

section

variable (h : Shows img f)
include h

theorem Shows.ialloc (clock : Nat → UInt32) (type : UInt16) :
    wp (ialloc clock type) (fun i img' => i = f.next ∧ Shows img' (f.ialloc type))
      (fun _ => ¬ (f.ialloc type).Room) img := by
  have hnext :
      nextInode img = .ok (img.freeinode, { img with freeinode := img.freeinode + 1 }) := rfl
  unfold Mkfs.ialloc
  rw [wp_bind, wp_of_eq hnext, h.next]
  by_cases hlt : f.next < inodeCap
  · obtain ⟨hf, hb, hino, hfree, hdata⟩ := h.fits hlt.le
    have hb' : ({ img with freeinode := f.next + 1 } : Image).Blank :=
      ⟨hb.sectors, hb.lo, hb.hi, hb.fresh, hb.bitmap⟩
    rw [wp_bind, wp_of_eq (winode_eq hb'.sectors hlt _), wp_pure]
    generalize hip :
      ({ Inode.zero with mode := type, nlink := 1, ctime := clock f.next, lmtime := clock f.next } :
      Inode) = ip
    generalize himg : ({ img with freeinode := f.next + 1 } : Image) = img1 at hb' ⊢
    have hdin :
        ∀ j, (img1.setDinode f.next ip).dinode j = if j = f.next then ip else img.dinode j := by
      intro j
      rw [dinode_setDinode, ← himg]
      rfl
    have hfiles : (img1.setDinode f.next ip).files = img.files.setInode f.next (asFile ip) := by
      rw [files_setDinode hlt, ← himg]
      rfl
    have hold : img.files.ino f.next = asFile Inode.zero := by
      rw [show img.files.ino f.next = asFile (img.dinode f.next) from if_pos hlt,
        hfree _ hlt (.inr le_rfl)]
    obtain ⟨hform, hcont⟩ : Formed (img.files.setInode f.next (asFile ip)) img.freeblock ∧ _ :=
      hf.setInode (by rw [hold]; rfl) (by rw [hold, ← hip]; rfl) (by rw [hold, ← hip]; rfl)
    have hempty : img.files.contents f.next = [] := by
      rw [← List.length_eq_zero_iff, Store.length_contents, hold]
      rfl
    refine ⟨rfl, ⟨by rw [← himg]; rfl, hb'.lo, Nat.le_succ_of_le h.pos, fun _ => ⟨?_,
      hb'.setDinode hlt _, fun i h1 h2 => ?_, fun i h1 h2 => ?_, fun i h1 h2 => ?_⟩⟩⟩
    · rw [hfiles, setDinode_freeblock, ← himg]
      exact hform
    · rw [hdin]
      show _ = update f.mode f.next type i ∧ _
      by_cases hi : i = f.next
      · rw [if_pos hi, hi, update_self, ← hip]
        exact ⟨rfl, rfl, rfl⟩
      · rw [if_neg hi, update_of_ne hi]
        exact hino i h1 (Nat.lt_of_le_of_ne (Nat.lt_succ_iff.mp h2) hi)
    · have hi : i ≠ f.next := by
        have : f.next + 1 ≤ i ∨ i = 0 := h2.symm
        have := h.pos
        omega
      rw [hdin, if_neg hi]
      refine hfree i h1 (h2.imp_right fun hle => ?_)
      have : f.next + 1 ≤ i := hle
      omega
    · rw [hfiles, hcont]
      show _ = update f.data f.next [] i
      by_cases hi : i = f.next
      · rw [hi, update_self, hempty]
      · rw [update_of_ne hi]
        exact hdata i h1 (Nat.lt_of_le_of_ne (Nat.lt_succ_iff.mp h2) hi)
  · refine wp.bind (winode_counter _ _ _) (fun _ _ hroom => hlt hroom.fits) fun _ img' he => ?_
    exact ⟨rfl, he.freeinode, h.above.trans he.freeblock, Nat.le_succ_of_le h.pos,
      fun hfit => absurd hfit hlt⟩

theorem Shows.iappend {i : Nat} (hi : 1 ≤ i) (hlt : i < f.next) (p : List UInt8) :
    wp (iappend i p) (fun _ img' => Shows img' (f.iappend i p))
      (fun _ => ¬ (f.iappend i p).Room) img := by
  by_cases hfit : f.next ≤ inodeCap
  · have his := h.fits hfit
    obtain ⟨hf, hb, hino, hfree, hdata⟩ := h.fits hfit
    have hlt' := hlt.trans_le hfit
    refine wp.mono (iappend_spec hlt' hf hb p) (fun _ img' happ => ?_) fun _ hno hroom => ?_
    rotate_left
    · have hsize := his.size hlt'
      have hsum := sum_update (Finset.mem_range.mpr hlt') f.size (f.size i + p.length) need
      have hmono := need_mono (Nat.le_add_right (f.size i) p.length)
      have hsmall := hroom.small i
      have hblocks := hroom.blocks
      rw [Files.size_iappend hi hlt, update_self] at hsmall
      rw [show (f.iappend i p).size = _ from funext (Files.size_iappend hi hlt p),
        freeblockFor] at hblocks
      unfold NoRoom at hno
      rw [his.freeblock, hsize, freeblockFor] at hno
      omega
    refine ⟨happ.freeinode.trans h.next, happ.blank.lo, h.pos,
      fun _ => ⟨happ.formed, happ.blank, fun j h1 h2 => ?_, fun j h1 h2 => ?_, fun j h1 h2 => ?_⟩⟩
    · by_cases hj : j = i
      · obtain ⟨a, z, he⟩ := happ.ino
        rw [hj, he]
        exact hino i hi hlt
      · rw [happ.dinode j (h2.trans_le hfit) hj]
        exact hino j h1 h2
    · have hj : j ≠ i := by
        have : j = 0 ∨ f.next ≤ j := h2
        omega
      rw [happ.dinode j h1 hj]
      exact hfree j h1 h2
    · show _ = update f.data i _ j
      refine update_cases j ?_ fun hj => ?_
      · rw [happ.self, hdata i hi hlt]
      · rw [happ.other j hj]
        exact hdata j h1 h2
  · exact wp.mono (iappend_counter i p img)
      (fun _ _ he => ⟨he.freeinode.trans h.next, h.above.trans he.freeblock, h.pos,
      fun hle => absurd hle hfit⟩)
      fun _ _ hroom => hfit hroom.fits

theorem Shows.addDotEntries {i : Nat} (hi : 1 ≤ i) (hlt : i < f.next) (parent : Nat) :
    wp (addDotEntries i parent)
      (fun _ img' =>
        Shows img' ((f.iappend i (dotFor DOT i).bytes).iappend i (dotFor DOTDOT parent).bytes))
      (fun _ =>
        ¬ ((f.iappend i (dotFor DOT i).bytes).iappend i (dotFor DOTDOT parent).bytes).Room) img :=
  wp.bind (h.iappend hi hlt _) (fun _ hno hroom => hno (hroom.mono (Files.le_iappend _ _ _)))
    fun _ _ h' => h'.iappend hi hlt _

theorem Shows.createDirectory (clock : Nat → UInt32) (parent : Nat) (mode : UInt16) :
    wp (createDirectory clock parent mode) (fun i img' => i = f.next ∧
      Shows img' (f.createDirectory parent mode))
      (fun _ => ¬ (f.createDirectory parent mode).Room) img := by
  refine wp.bind (h.ialloc clock mode) (fun _ hno hroom => hno (hroom.mono ?_)) ?_
  · exact (Files.le_iappend _ _ _).trans (Files.le_iappend _ _ _)
  rintro _ img' ⟨rfl, h'⟩
  have hpos := h.pos
  rw [if_neg (by omega)]
  refine wp.seq (h'.addDotEntries h.pos (Nat.lt_succ_self _) parent) fun _ img'' h'' => ?_
  exact ⟨rfl, h''⟩

end

theorem Shows.appendAll {i : Nat} (hi : 1 ≤ i) (reads : List (List UInt8)) :
    ∀ {img f}, Shows img f → i < f.next →
      wp (appendAll i reads) (fun _ img' => Shows img' (f.iappend i reads.flatten))
        (fun _ => ¬ (f.iappend i reads.flatten).Room) img := by
  induction reads with
  | nil =>
    intro img f h hlt
    have hsame : f.iappend i [] = f := by
      unfold Files.iappend
      rw [List.append_nil, update_eq_self]
    show Shows img (f.iappend i [])
    rwa [hsame]
  | cons buf reads ih =>
    intro img f h hlt
    have htwice :
        (f.iappend i buf).iappend i reads.flatten = f.iappend i (buf :: reads).flatten := by
      unfold Files.iappend
      simp
    rw [← htwice]
    exact wp.bind (h.iappend hi hlt buf)
      (fun _ hno hroom => hno (hroom.mono (Files.le_iappend _ _ _))) fun _ img' h' => ih h' hlt

def Listing.inodes : Listing → Nat
  | .nil => 0
  | .dir name _ _ sub rest => if name.isDots then rest.inodes else 1 + sub.inodes + rest.inodes
  | .file name _ _ rest => if name.isDots then rest.inodes else 1 + rest.inodes
  | .special _ rest => rest.inodes
  | .noStat _ rest => rest.inodes

theorem Files.next_scan (l : Listing) (ino : Nat) (f : Files) :
    (f.scan l ino).next = f.next + l.inodes := by
  induction l generalizing ino f with
  | nil => rfl
  | dir name mode opens sub rest ihs ihr =>
    unfold Files.scan Listing.inodes
    split
    · exact ihr _ _
    · rw [ihr, ihs, next_iappend, next_createDirectory]
      omega
  | file name mode reads rest ih =>
    unfold Files.scan Listing.inodes
    split
    · exact ih _ _
    · rw [ih, next_iappend, next_iappend, next_ialloc]
      omega
  | special name rest ih | noStat name rest ih => exact ih _ _

def Listing.AllOpen : Listing → Prop
  | .nil => True
  | .dir name _ opens sub rest => (name.isDots = true ∨ opens = true ∧ sub.AllOpen) ∧ rest.AllOpen
  | .file _ _ _ rest => rest.AllOpen
  | .special _ rest => rest.AllOpen
  | .noStat _ rest => rest.AllOpen

/-- **`scan_directory`** that returns zero has built what `Files.scan` builds.  It returns zero when
    every directory can be opened and the volume is large enough. -/
theorem scanEntries_shows (clock : Nat → UInt32) (l : Listing) {ino : Nat} (hi : 1 ≤ ino) :
    ∀ {img f}, Shows img f → ino < f.next →
      wp (scanEntries clock l ino) (fun ok img' => (ok = true → Shows img' (f.scan l ino)) ∧
        (l.AllOpen → ok = true)) (fun _ => ¬ (f.scan l ino).Room) img := by
  induction l generalizing ino with
  | nil => exact fun h _ => ⟨fun _ => h, fun _ => rfl⟩
  | dir name mode opens sub rest ihs ihr =>
    intro img f h hlt
    unfold scanEntries Files.scan
    split
    · exact wp.imp (ihr hi h hlt) fun _ _ hr => ⟨hr.1, fun ho => hr.2 ho.2⟩
    rename_i hd
    generalize hf1 : f.createDirectory ino (convertMode S_IFDIR mode) = f1
    have hle1 := Files.le_iappend f1 ino (direntFor name.bytes f.next).bytes
    generalize hf2 : f1.iappend ino (direntFor name.bytes f.next).bytes = f2 at hle1
    have hle2 := Files.le_scan sub f.next f2
    have hle3 := Files.le_scan rest ino (f2.scan sub f.next)
    refine wp.bind (h.createDirectory clock ino _) (fun _ hno hroom => hno ?_) ?_
    · rw [hf1]
      exact hroom.mono (hle1.trans (hle2.trans hle3))
    rintro _ img1 ⟨rfl, h1⟩
    rw [hf1] at h1
    have hnext : f1.next = f.next + 1 := by rw [← hf1]; rfl
    have hnext' : f2.next = f.next + 1 := by rw [← hf2]; exact hnext
    rw [if_neg (by omega)]
    refine wp.bind (h1.iappend hi (by omega) _) (fun _ hno hroom => hno ?_) fun _ img2 h2 => ?_
    · rw [hf2]
      exact hroom.mono (hle2.trans hle3)
    rw [hf2] at h2
    cases opens with
    | false =>
      refine ⟨fun hf => absurd hf (by decide), fun ho => ?_⟩
      rcases ho.1 with hdots | ⟨hopen, _⟩
      · exact absurd hdots hd
      · exact hopen
    | true =>
      refine wp.bind (ihs h.pos h2 (by omega)) (fun _ hno hroom => hno (hroom.mono hle3))
        fun ok img3 h3 => ?_
      cases ok with
      | false =>
        refine ⟨fun hf => absurd hf (by decide), fun ho => ?_⟩
        rcases ho.1 with hdots | ⟨_, hsub⟩
        · exact absurd hdots hd
        · exact h3.2 hsub
      | true =>
        have hlt3 : ino < (f2.scan sub f.next).next := by
          rw [Files.next_scan]
          omega
        exact wp.imp (ihr hi (h3.1 rfl) hlt3) fun _ _ hr => ⟨hr.1, fun ho => hr.2 ho.2⟩
  | file name mode reads rest ih =>
    intro img f h hlt
    unfold scanEntries Files.scan
    split
    · exact ih hi h hlt
    generalize hf1 : f.ialloc (convertMode S_IFREG mode) = f1
    have hle1 := Files.le_iappend f1 ino (direntFor name.bytes f.next).bytes
    generalize hf2 : f1.iappend ino (direntFor name.bytes f.next).bytes = f2 at hle1
    have hle2 := Files.le_iappend f2 f.next (reads.getD []).flatten
    generalize hf3 : f2.iappend f.next (reads.getD []).flatten = f3 at hle2
    have hle3 := Files.le_scan rest ino f3
    refine wp.bind (h.ialloc clock _) (fun _ hno hroom => hno ?_) ?_
    · rw [hf1]
      exact hroom.mono (hle1.trans (hle2.trans hle3))
    rintro _ img1 ⟨rfl, h1⟩
    rw [hf1] at h1
    have hnext : f1.next = f.next + 1 := by rw [← hf1]; rfl
    have hnext' : f2.next = f.next + 1 := by rw [← hf2]; exact hnext
    have hnext3 : f3.next = f.next + 1 := by rw [← hf3]; exact hnext'
    refine wp.bind (h1.iappend hi (by omega) _) (fun _ hno hroom => hno ?_) fun _ img2 h2 => ?_
    · rw [hf2]
      exact hroom.mono (hle2.trans hle3)
    rw [hf2] at h2
    refine wp.bind (Shows.appendAll h.pos _ h2 (by omega)) (fun _ hno hroom => hno ?_)
      fun _ img3 h3 => ?_
    · rw [hf3]
      exact hroom.mono hle3
    rw [hf3] at h3
    exact ih hi h3 (by omega)
  | special name rest ih | noStat name rest ih => exact ih hi

end Simulation

end Micro86.Mkfs
