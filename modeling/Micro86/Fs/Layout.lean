import Micro86.Lib.Bitmap
import Micro86.Param

/-!
# The on-disk format

The superblock, the on-disk inode with its byte offsets inside an inode block, and the mode
bits of `include/stat.h`.

* `SuperBlock` — the layout `[ boot | super | log | inodes | bitmap | data ]`, with the order
  of the areas as fields.
* `readInode`, `writeInode` — a `struct dinode` at a byte offset: what `ilock` reads and what
  `iupdate` stores (every field but `ctime`).
-/

namespace Micro86.Fs

def S_IFMT : UInt16 := 0o170000
def S_IFREG : UInt16 := 0o100000
def S_IFDIR : UInt16 := 0o040000
def S_IFCHR : UInt16 := 0o020000
def S_IFBLK : UInt16 := 0o060000

/-- `struct superblock`, with the order of the areas that it describes. -/
structure SuperBlock where
  size : Nat
  nblocks : Nat
  ninodes : Nat
  nlog : Nat
  logstart : Nat
  inodestart : Nat
  bmapstart : Nat
  log_start : 2 ≤ logstart
  log_end : logstart + nlog ≤ inodestart
  inode_end : inodestart + (ninodes + IPB - 1) / IPB ≤ bmapstart
  bmap_end : bmapstart + (size + BPB - 1) / BPB + nblocks ≤ size
  root_lt : ROOTINO < ninodes
  size_lt : size < 2147483648

namespace SuperBlock

variable (sb : SuperBlock)

def nmeta : Nat := sb.size - sb.nblocks

def iblock (i : Nat) : Nat := i / IPB + sb.inodestart

def bblock (b : Nat) : Nat := b / BPB + sb.bmapstart

def ioff (i : Nat) : Nat := i % IPB * DINODESIZE

theorem iblock_lt {i : Nat} (h : i < sb.ninodes) : sb.iblock i < sb.bmapstart := by
  have := sb.inode_end
  rw [IPB_eq] at this
  rw [iblock, IPB_eq]
  omega

theorem bblock_ge (b : Nat) : sb.bmapstart ≤ sb.bblock b := Nat.le_add_left _ _

theorem bblock_lt {b : Nat} (h : b < sb.size) : sb.bblock b < sb.nmeta := by
  have := sb.bmap_end
  rw [BPB_eq] at this
  rw [bblock, nmeta, BPB_eq]
  omega

theorem bmapstart_le_nmeta : sb.bmapstart ≤ sb.nmeta := by
  have := sb.bmap_end
  rw [BPB_eq] at this
  rw [nmeta]
  omega

theorem nmeta_le : sb.nmeta ≤ sb.size := Nat.sub_le _ _

theorem ioff_fits (i : Nat) : ioff i + DINODESIZE ≤ BSIZE := by
  rw [ioff, IPB_eq, DINODESIZE_eq, BSIZE_eq]
  omega

theorem ioff_disjoint {i j : Nat} (h : i ≠ j) (hb : sb.iblock i = sb.iblock j) :
    ioff i + DINODESIZE ≤ ioff j ∨ ioff j + DINODESIZE ≤ ioff i := by
  rw [iblock, iblock, IPB_eq] at hb
  rw [ioff, ioff, IPB_eq, DINODESIZE_eq]
  omega

end SuperBlock

/-- The fields of an inode that live on disk. -/
@[ext] structure Inode where
  mode : UInt16
  lmtime : UInt32
  ctime : UInt32
  major : UInt16
  minor : UInt16
  nlink : UInt16
  size : UInt32
  addrs : Fin (NDIRECT + 1) → UInt32
  uid : UInt32
  gid : UInt32

namespace Inode

def zero : Inode := ⟨0, 0, 0, 0, 0, 0, 0, fun _ => 0, 0, 0⟩

def isDir (ip : Inode) : Prop := ip.mode &&& S_IFMT = S_IFDIR

def isReg (ip : Inode) : Prop := ip.mode &&& S_IFMT = S_IFREG

def isDev (ip : Inode) : Prop := ip.mode &&& S_IFMT = S_IFCHR ∨ ip.mode &&& S_IFMT = S_IFBLK

instance (ip : Inode) : Decidable ip.isDir := inferInstanceAs (Decidable (_ = _))
instance (ip : Inode) : Decidable ip.isReg := inferInstanceAs (Decidable (_ = _))
instance (ip : Inode) : Decidable ip.isDev := inferInstanceAs (Decidable (_ ∨ _))

/-- `addrs[NDIRECT]`: the indirect block. -/
def indirect (ip : Inode) : Nat := (ip.addrs (Fin.last NDIRECT)).toNat

def addrList (ip : Inode) : List Nat := List.ofFn fun k => (ip.addrs k).toNat

end Inode

open ByteBlock

def readInode (b : Block) (o : Nat) : Inode where
  mode := UInt16.ofNat (b.u16 o)
  lmtime := UInt32.ofNat (b.u32 (o + 4))
  ctime := UInt32.ofNat (b.u32 (o + 8))
  major := UInt16.ofNat (b.u16 (o + 12))
  minor := UInt16.ofNat (b.u16 (o + 14))
  nlink := UInt16.ofNat (b.u16 (o + 16))
  size := UInt32.ofNat (b.u32 (o + 20))
  addrs k := UInt32.ofNat (b.u32 (o + 24 + 4 * k))
  uid := UInt32.ofNat (b.u32 (o + 72))
  gid := UInt32.ofNat (b.u32 (o + 76))

/-- The stores of `iupdate` into the `struct dinode` at byte `o`; `ctime` is not among them. -/
def writeInode (b : Block) (o : Nat) (ip : Inode) : Block :=
  ((((((((b.write o (le16 ip.mode.toNat)).write (o + 4) (le32 ip.lmtime.toNat)).write
    (o + 12) (le16 ip.major.toNat)).write (o + 14) (le16 ip.minor.toNat)).write
    (o + 16) (le16 ip.nlink.toNat)).write (o + 20) (le32 ip.size.toNat)).write
    (o + 72) (le32 ip.uid.toNat)).write (o + 76) (le32 ip.gid.toNat)).write
    (o + 24) (words ip.addrList)

/-- The stores of `ialloc` into a free `struct dinode`: `memset`, then `mode` and `ctime`. -/
def initInode (b : Block) (o : Nat) (mode : UInt16) (ctime : UInt32) : Block :=
  ((b.write o (List.replicate DINODESIZE 0)).write o (le16 mode.toNat)).write
    (o + 8) (le32 ctime.toNat)

section Codec

variable (b : Block) {o : Nat}

theorem ofNat_u16_same (x : UInt16) (h : o + 2 ≤ BSIZE) :
    UInt16.ofNat ((b.write o (le16 x.toNat)).u16 o) = x := by
  rw [u16_write_same b _ h, Nat.mod_eq_of_lt x.toNat_lt, UInt16.ofNat_toNat]

theorem ofNat_u32_same (x : UInt32) (h : o + 4 ≤ BSIZE) :
    UInt32.ofNat ((b.write o (le32 x.toNat)).u32 o) = x := by
  rw [u32_write_same b _ h, Nat.mod_eq_of_lt x.toNat_lt, UInt32.ofNat_toNat]

theorem length_addrList (ip : Inode) :
    ip.addrList.length = 12 := by simp [Inode.addrList, NDIRECT_eq]

theorem getElem?_addrList (ip : Inode) (k : Fin (NDIRECT + 1)) :
    ip.addrList[k.val]? = some (ip.addrs k).toNat := by
  rw [Inode.addrList, List.getElem?_ofFn, dif_pos k.isLt]

/-- What `iupdate` stores, `ilock` reads back; `ctime` is the one that was there. -/
theorem readInode_writeInode (ip : Inode) (h : o + DINODESIZE ≤ BSIZE) :
    readInode (writeInode b o ip) o = { ip with ctime := (readInode b o).ctime } := by
  rw [DINODESIZE_eq] at h
  have hl := length_addrList ip
  unfold readInode writeInode
  ext k
  all_goals simp (disch :=
    first | omega | (simp only [length_le16, length_le32, length_words]; omega))
    only [u16_write_disjoint, u32_write_disjoint]
  case mode => exact congrArg _ (ofNat_u16_same b _ (by omega))
  case lmtime => exact congrArg _ (ofNat_u32_same _ _ (by omega))
  case major => exact congrArg _ (ofNat_u16_same _ _ (by omega))
  case minor => exact congrArg _ (ofNat_u16_same _ _ (by omega))
  case nlink => exact congrArg _ (ofNat_u16_same _ _ (by omega))
  case size => exact congrArg _ (ofNat_u32_same _ _ (by omega))
  case addrs =>
    rw [u32_write_words _ (by omega) (getElem?_addrList ip k), Nat.mod_eq_of_lt (UInt32.toNat_lt _),
      UInt32.ofNat_toNat]
  case uid => exact congrArg _ (ofNat_u32_same _ _ (by omega))
  case gid => exact congrArg _ (ofNat_u32_same _ _ (by omega))

theorem readInode_congr {b c : Block} (h : ∀ i, i < DINODESIZE → b.byte (o + i) = c.byte (o + i)) :
    readInode b o = readInode c o := by
  rw [DINODESIZE_eq] at h
  have h16 : ∀ k, k + 2 ≤ 80 → b.u16 (o + k) = c.u16 (o + k) := fun k hk =>
    u16_congr fun j hj => by rw [Nat.add_assoc]; exact h _ (by omega)
  have h32 : ∀ k, k + 4 ≤ 80 → b.u32 (o + k) = c.u32 (o + k) := fun k hk =>
    u32_congr fun j hj => by rw [Nat.add_assoc]; exact h _ (by omega)
  have h0 := h16 0 (by omega)
  rw [Nat.add_zero] at h0
  unfold readInode
  rw [h0, h32 4 (by omega), h32 8 (by omega), h16 12 (by omega),
    h16 14 (by omega), h16 16 (by omega), h32 20 (by omega), h32 72 (by omega), h32 76 (by omega)]
  congr 1
  funext k
  have hk : k.val < 12 := k.isLt
  rw [Nat.add_assoc, h32 (24 + 4 * k.val) (by omega)]

theorem byte_writeInode (ip : Inode) {i : Nat} (hi : i < o ∨ o + DINODESIZE ≤ i) :
    (writeInode b o ip).byte i = b.byte i := by
  rw [DINODESIZE_eq] at hi
  have hl := length_addrList ip
  unfold writeInode
  simp (disch := (simp; omega)) only [byte_write_of_notMem]

theorem byte_initInode (mode : UInt16) (ctime : UInt32) {i : Nat}
    (hi : i < o ∨ o + DINODESIZE ≤ i) : (initInode b o mode ctime).byte i = b.byte i := by
  rw [DINODESIZE_eq] at hi
  unfold initInode
  simp (disch :=
    (simp only [length_le16, length_le32, List.length_replicate, DINODESIZE_eq]; omega))
    only [byte_write_of_notMem]

theorem readInode_initInode_disjoint (mode : UInt16) (ctime : UInt32) {o' : Nat}
    (h : o' + DINODESIZE ≤ o ∨ o + DINODESIZE ≤ o') :
    readInode (initInode b o mode ctime) o' = readInode b o' :=
  readInode_congr fun i hi => byte_initInode b mode ctime (by omega)

theorem readInode_initInode (mode : UInt16) (ctime : UInt32) (h : o + DINODESIZE ≤ BSIZE) :
    readInode (initInode b o mode ctime) o = { Inode.zero with mode := mode, ctime := ctime } := by
  have hd := DINODESIZE_eq
  have hz : ∀ i, i < DINODESIZE → (b.write o (List.replicate DINODESIZE 0)).byte (o + i) = 0 := by
    intro i hi
    rw [byte_write b _ _ (by omega), if_pos (by omega), Nat.add_sub_cancel_left,
      List.getElem?_replicate, if_pos hi, Option.getD_some]
  have h16 : ∀ k, k + 2 ≤ 80 → (b.write o (List.replicate DINODESIZE 0)).u16 (o + k) = 0 :=
    fun k hk => by
    unfold u16
    rw [hz k (by omega), Nat.add_assoc o k 1, hz (k + 1) (by omega)]
    rfl
  have h32 : ∀ k, k + 4 ≤ 80 → (b.write o (List.replicate DINODESIZE 0)).u32 (o + k) = 0 :=
    fun k hk => by
    unfold u32
    rw [hz k (by omega), Nat.add_assoc o k 1, hz (k + 1) (by omega), Nat.add_assoc o k 2,
      hz (k + 2) (by omega), Nat.add_assoc o k 3, hz (k + 3) (by omega)]
    rfl
  unfold readInode initInode
  ext k
  all_goals simp (disch := first | omega | (simp only [length_le16, length_le32]; omega))
    only [u16_write_disjoint, u32_write_disjoint, h16, h32]
  case mode => exact congrArg _ (ofNat_u16_same _ _ (by omega))
  case ctime => exact congrArg _ (ofNat_u32_same _ _ (by omega))
  case addrs =>
    have hk : k.val < 12 := k.isLt
    rw [Nat.add_assoc, h32 (24 + 4 * k.val) (by omega)]
    rfl
  all_goals rfl

end Codec

end Micro86.Fs
