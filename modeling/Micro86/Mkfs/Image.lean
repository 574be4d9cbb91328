import Micro86.Lib.Counting
import Micro86.Fs.Files

/-!
# The image that `mkfs` writes

`wsect` and `rsect` on the image file, `winode`, `rinode`, `ialloc` and `iappend` over them.  The
program exits, or an assertion aborts it, where the model panics.

* `Image.files` — the blocks and inodes of an image as a logical file system, in which every inode
  of the inode area counts as a regular file: `iappend` does not look at the mode.
-/

namespace Micro86.Mkfs

open Exec Fs Function

def NINODES : Nat := 200

def nbitmap : Nat := FSSIZE / (BSIZE * 8) + 1

def ninodeblocks : Nat := NINODES / IPB + 1

def nlog : Nat := LOGSIZE

/-- Number of meta blocks (boot, sb, nlog, inode, bitmap). -/
def nmeta : Nat := 2 + nlog + ninodeblocks + nbitmap

def sb : SuperBlock where
  size := FSSIZE
  nblocks := FSSIZE - nmeta
  ninodes := NINODES
  nlog := nlog
  logstart := 2
  inodestart := 2 + nlog
  bmapstart := 2 + nlog + ninodeblocks
  log_start := Nat.le_add_right 2 0
  log_end := by decide
  inode_end := by decide
  bmap_end := by decide
  root_lt := by decide
  size_lt := by decide

def inodeCap : Nat := ninodeblocks * IPB

theorem nmeta_eq : nmeta = 45 := rfl
theorem inodeCap_eq : inodeCap = 225 := rfl
theorem sb_bmapstart : sb.bmapstart = 41 := rfl
theorem sb_inodestart : sb.inodestart = 32 := rfl

/-- The image file, as far as it was written, and the counters. -/
structure Image where
  disk : Nat → Block
  sectors : Nat
  freeinode : Nat
  freeblock : Nat

abbrev MkfsM := Exec Image

/-- Where `lseek(fsfd, sec * BSIZE, 0)` leads: the product is an `unsigned int`. -/
def sector (sec : Nat) : Nat := sec * BSIZE % 4294967296 / BSIZE

def Image.write (img : Image) (sec : Nat) (data : Block) : Image :=
  { img with disk := update img.disk sec data, sectors := max img.sectors (sec + 1) }

def wsect (sec : Nat) (buf : Block) : MkfsM Unit :=
  Exec.modify fun img => img.write (sector sec) buf

def rsect (sec : Nat) : MkfsM Block := do
  let img ← Exec.get
  if sector sec < img.sectors then pure (img.disk (sector sec)) else Exec.panic "read"

/-- `*dip = *ip`; the padding of a `struct dinode` is zero since `ialloc`. -/
def writeDinode (b : Block) (o : Nat) (ip : Inode) : Block :=
  (writeInode (b.write o (List.replicate DINODESIZE 0)) o ip).write
    (o + 8) (ByteBlock.le32 ip.ctime.toNat)

def winode (inum : Nat) (ip : Inode) : MkfsM Unit := do
  let buf ← rsect (sb.iblock inum)
  wsect (sb.iblock inum) (writeDinode buf (SuperBlock.ioff inum) ip)

def rinode (inum : Nat) : MkfsM Inode := do
  let buf ← rsect (sb.iblock inum)
  pure (readInode buf (SuperBlock.ioff inum))

/-- `freeblock++`; the counter cannot wrap, since a sector past `FSSIZE` is never read. -/
def nextBlock : MkfsM Nat := do
  let img ← Exec.get
  Exec.modify fun img => { img with freeblock := img.freeblock + 1 }
  pure img.freeblock

def nextInode : MkfsM Nat := do
  let img ← Exec.get
  Exec.modify fun img => { img with freeinode := img.freeinode + 1 }
  pure img.freeinode

/-- `clock inum` is what `time` returns when inode `inum` is allocated. -/
def ialloc (clock : Nat → UInt32) (type : UInt16) : MkfsM Nat := do
  let inum ← nextInode
  winode inum
    { Inode.zero with mode := type, nlink := 1, ctime := clock inum, lmtime := clock inum }
  pure inum

def directBlock (din : Inode) (k : Fin (NDIRECT + 1)) : MkfsM Inode :=
  if (din.addrs k).toNat = 0 then do
    let b ← nextBlock
    pure (din.setAddr k b)
  else pure din

/-- `if (indirect[j] == 0) indirect[j] = freeblock++`, with the read and the write of the indirect
    block. -/
def indirectBlock (din : Inode) (j : Nat) : MkfsM Nat := do
  let indirect ← rsect din.indirect
  if indirect.u32 (4 * j) = 0 then do
    let b ← nextBlock
    wsect din.indirect (indirect.write (4 * j) (ByteBlock.le32 b))
    pure b
  else pure (indirect.u32 (4 * j))

/-- The block for block `fbn` of the file: the inode, perhaps with a new address, and the sector. -/
def blockFor (din : Inode) (fbn : Nat) : MkfsM (Inode × Nat) :=
  if h : fbn < NDIRECT then do
    let din ← directBlock din ⟨fbn, Nat.lt_succ_of_lt h⟩
    pure (din, (din.addrs ⟨fbn, Nat.lt_succ_of_lt h⟩).toNat)
  else do
    let din ← directBlock din (Fin.last NDIRECT)
    let x ← indirectBlock din (fbn - NDIRECT)
    pure (din, x)

/-- The loop of `iappend`; every round takes at least one byte of `p`. -/
def iappendLoop : Nat → Inode → Nat → List UInt8 → MkfsM (Inode × Nat)
  | 0, din, off, _ => pure (din, off)
  | fuel + 1, din, off, p =>
    if p = [] then pure (din, off)
    else if MAXFILE ≤ off / BSIZE then Exec.panic "fbn < MAXFILE"
    else do
      let r ← blockFor din (off / BSIZE)
      let buf ← rsect r.2
      wsect r.2 (buf.write (off % BSIZE) (p.take (BSIZE - off % BSIZE)))
      iappendLoop fuel r.1 (off + min p.length (BSIZE - off % BSIZE)) (p.drop (BSIZE - off % BSIZE))

def iappend (inum : Nat) (p : List UInt8) : MkfsM Unit := do
  let din ← rinode inum
  let r ← iappendLoop p.length din din.size.toNat p
  winode inum { r.1 with size := UInt32.ofNat r.2 }

/-! ## The image as a file system -/

namespace Image

def dinode (img : Image) (i : Nat) : Inode := readInode (img.disk (sb.iblock i)) (SuperBlock.ioff i)

def asFile (ip : Inode) : Inode := { ip with mode := S_IFREG }

def files (img : Image) : Store where
  ino i := if i < inodeCap then asFile (img.dinode i) else Inode.zero
  used b := decide (b < img.freeblock)
  blk b := if nmeta ≤ b then img.disk b else ByteBlock.zero

/-- The same with `din` for inode `i`: `iappend` works on a copy of the inode. -/
def view (img : Image) (i : Nat) (din : Inode) : Store := img.files.setInode i (asFile din)

/-- What is left of the zeroed file: the blocks not handed out yet and the bitmap. -/
structure Blank (img : Image) : Prop where
  sectors : img.sectors = FSSIZE
  lo : nmeta ≤ img.freeblock
  hi : img.freeblock ≤ FSSIZE
  fresh : ∀ b, img.freeblock ≤ b → img.disk b = ByteBlock.zero
  bitmap : ∀ b, sb.bmapstart ≤ b → b < nmeta → img.disk b = ByteBlock.zero

end Image

/-! ## Sectors -/

section Sectors

variable {img : Image} {sec : Nat}

theorem sector_of_lt (h : sec < FSSIZE) : sector sec = sec := by
  have hF : FSSIZE = 50000 := rfl
  have hB := BSIZE_eq
  rw [sector, Nat.mod_eq_of_lt (by rw [hB]; omega), Nat.mul_div_cancel _ (by omega)]

theorem rsect_eq (hs : img.sectors = FSSIZE) (h : sec < FSSIZE) :
    rsect sec img = .ok (img.disk sec, img) := by
  unfold rsect
  show (if _ then _ else _ : MkfsM Block) img = _
  rw [sector_of_lt h, if_pos (by omega)]
  rfl

theorem wsect_eq (h : sec < FSSIZE) (buf : Block) :
    wsect sec buf img = .ok ((), img.write sec buf) := by
  unfold wsect
  rw [sector_of_lt h]
  rfl

theorem Image.write_disk (data : Block) (b : Nat) :
    (img.write sec data).disk b = if b = sec then data else img.disk b := by
  simp [Image.write, update_apply]

theorem Image.write_sectors (data : Block) (hs : img.sectors = FSSIZE) (h : sec < FSSIZE) :
    (img.write sec data).sectors = FSSIZE := by
  show max img.sectors (sec + 1) = FSSIZE
  omega

theorem Image.Blank.write (h : img.Blank) (data : Block) (hlo : sec < sb.bmapstart ∨ nmeta ≤ sec)
    (hhi : sec < img.freeblock) : (img.write sec data).Blank where
  sectors := Image.write_sectors data h.sectors (Nat.lt_of_lt_of_le hhi h.hi)
  lo := h.lo
  hi := h.hi
  fresh b hb := by
    have hb : img.freeblock ≤ b := hb
    rw [Image.write_disk, if_neg (by omega)]
    exact h.fresh b hb
  bitmap b hb hb' := by
    rw [Image.write_disk, if_neg (by omega)]
    exact h.bitmap b hb hb'

end Sectors

/-! ## Inodes -/

section Inodes

variable {img : Image} {i j : Nat}

theorem readInode_writeDinode (b : Block) {o : Nat} (ip : Inode) (h : o + DINODESIZE ≤ BSIZE) :
    readInode (writeDinode b o ip) o = ip := by
  have hd := DINODESIZE_eq
  have hread := readInode_writeInode (b.write o (List.replicate DINODESIZE 0)) ip h
  unfold writeDinode
  generalize writeInode (b.write o (List.replicate DINODESIZE 0)) o ip = w at hread
  have hfields : readInode (w.write (o + 8) (ByteBlock.le32 ip.ctime.toNat)) o =
      { readInode w o with ctime := ip.ctime } := by
    unfold readInode
    ext k
    all_goals simp (disch := first | omega | (simp only [ByteBlock.length_le32]; omega))
      only [ByteBlock.u16_write_disjoint, ByteBlock.u32_write_disjoint]
    case ctime => exact congrArg _ (ofNat_u32_same _ _ (by omega))
  rw [hfields, hread]

theorem byte_writeDinode (b : Block) {o : Nat} (ip : Inode) {k : Nat}
    (hk : k < o ∨ o + DINODESIZE ≤ k) : (writeDinode b o ip).byte k = b.byte k := by
  have hd := DINODESIZE_eq
  unfold writeDinode
  rw [ByteBlock.byte_write_of_notMem _ (by rw [ByteBlock.length_le32]; omega),
    byte_writeInode _ _ hk, ByteBlock.byte_write_of_notMem _ (by rw [List.length_replicate]; omega)]

theorem iblock_lt (h : i < inodeCap) : sb.iblock i < sb.bmapstart := by
  rw [inodeCap_eq] at h
  rw [SuperBlock.iblock, IPB_eq, sb_inodestart, sb_bmapstart]
  omega

theorem iblock_sector (h : i < inodeCap) : sb.iblock i < FSSIZE := by
  have hF : FSSIZE = 50000 := rfl
  have := iblock_lt h
  rw [sb_bmapstart] at this
  omega

def Image.setDinode (img : Image) (i : Nat) (ip : Inode) : Image :=
  img.write (sb.iblock i) (writeDinode (img.disk (sb.iblock i)) (SuperBlock.ioff i) ip)

theorem winode_eq (hs : img.sectors = FSSIZE) (h : i < inodeCap) (ip : Inode) :
    winode i ip img = .ok ((), img.setDinode i ip) := by
  unfold winode
  rw [bind_of_ok (rsect_eq hs (iblock_sector h)), wsect_eq (iblock_sector h)]
  rfl

theorem rinode_eq (hs : img.sectors = FSSIZE) (h : i < inodeCap) :
    rinode i img = .ok (img.dinode i, img) := by
  unfold rinode
  rw [bind_of_ok (rsect_eq hs (iblock_sector h))]
  rfl

theorem Image.dinode_setDinode (ip : Inode) (j : Nat) :
    (img.setDinode i ip).dinode j = if j = i then ip else img.dinode j := by
  unfold Image.dinode Image.setDinode
  rw [Image.write_disk]
  by_cases hj : j = i
  · subst hj
    rw [if_pos rfl, if_pos rfl, readInode_writeDinode _ _ (SuperBlock.ioff_fits _)]
  rw [if_neg hj]
  split
  · rename_i hb
    refine readInode_congr fun k hk => ?_
    rw [byte_writeDinode _ _ ?_, hb]
    have := sb.ioff_disjoint hj hb
    omega
  · rfl

theorem Image.files_setDinode (h : i < inodeCap) (ip : Inode) :
    (img.setDinode i ip).files = img.view i ip := by
  have hlt := iblock_lt h
  have hm : sb.bmapstart ≤ nmeta := by decide
  apply Store.ext
  · funext j
    show (if j < inodeCap then asFile ((img.setDinode i ip).dinode j) else Inode.zero) =
      update img.files.ino i (asFile ip) j
    rw [Image.dinode_setDinode]
    refine update_cases j ?_ fun hj => ?_
    · rw [if_pos h, if_pos rfl]
    · rw [if_neg hj]
      rfl
  · rfl
  · funext b
    show (if nmeta ≤ b then (img.write _ _).disk b else ByteBlock.zero) = if nmeta ≤ b then
        img.disk b else ByteBlock.zero
    split
    · rw [Image.write_disk, if_neg (by omega)]
    · rfl

theorem Image.Blank.setDinode (h : img.Blank) (hi : i < inodeCap) (ip : Inode) :
    (img.setDinode i ip).Blank := by
  have hlt := iblock_lt hi
  have hlo := h.lo
  have hm : sb.bmapstart ≤ nmeta := by decide
  exact h.write _ (.inl hlt) (by omega)

@[simp] theorem Image.setDinode_freeblock (ip : Inode) :
    (img.setDinode i ip).freeblock = img.freeblock := rfl

end Inodes

end Micro86.Mkfs
