import Micro86.Mkfs.Stored

/-!
# The finished image and the kernel's invariant

* `Mountable` — what the kernel's file-system code needs of an image: the inodes lie in the inode
  blocks and are below `ninodes`, and the blocks are consistent.
* `mountable_iff` — the images for which it holds.
-/

namespace Micro86.Mkfs

open Exec Fs Image

/-- The kernel's state on the image, with no inode in memory and no open transaction. -/
def Image.boot (img : Image) : State := ⟨img.disk, [], 0, fun _ => ⟨0, 0, false, Inode.zero⟩⟩

/-- Every inode that was allocated is below `ninodes` and its block is an inode block, not one of
    the bitmap or the data; and the kernel's invariant of blocks and files holds. -/
structure Mountable (img : Image) : Prop where
  inodes : ∀ i, 1 ≤ i → i < img.freeinode → i < sb.ninodes ∧
    sb.inodestart ≤ sb.iblock i ∧ sb.iblock i < sb.bmapstart
  consistent : Consistent sb (img.boot.store sb)

/-! ## Types -/

theorem Stored.typed {f : Files} {l : Listing} {ino n : Nat} (h : Stored f l ino n) :
    ∀ i, n ≤ i → i < n + l.inodes → f.mode i &&& S_IFMT = S_IFDIR ∨
      f.mode i &&& S_IFMT = S_IFREG := by
  induction l generalizing ino n with
  | nil => exact fun i h1 h2 => absurd h2 h1.not_gt
  | dir name mode opens sub rest ihs ihr =>
    unfold Stored at h
    unfold Listing.inodes
    split at h
    · rename_i hd
      rw [if_pos hd]
      exact ihr h
    rename_i hd
    rw [if_neg hd]
    obtain ⟨⟨h1, _, h3⟩, h4⟩ := h
    intro i hi hi'
    by_cases hin : i = n
    · rw [hin, h1]
      exact .inl (convertMode_type mode (by decide))
    by_cases hsub : i < n + 1 + sub.inodes
    · exact ihs h3 i (by omega) hsub
    · exact ihr h4 i (by omega) (by omega)
  | file name mode reads rest ih =>
    unfold Stored at h
    unfold Listing.inodes
    split at h
    · rename_i hd
      rw [if_pos hd]
      exact ih h
    rename_i hd
    rw [if_neg hd]
    obtain ⟨⟨h1, _⟩, h3⟩ := h
    intro i hi hi'
    by_cases hin : i = n
    · rw [hin, h1]
      exact .inr (convertMode_type mode (by decide))
    · exact ih h3 i (by omega) (by omega)
  | special name rest ih | noStat name rest ih => exact ih h

theorem packed_typed (root : Listing) {i : Nat} (h1 : 1 ≤ i) (h2 : i < (Files.packed root).next) :
    (Files.packed root).mode i &&& S_IFMT = S_IFDIR ∨
    (Files.packed root).mode i &&& S_IFMT = S_IFREG := by
  obtain ⟨hroot, _, hs⟩ := packed_stored root
  rw [Files.next_packed] at h2
  by_cases hi : i = ROOTINO
  · rw [hi, hroot]
    exact .inl (by decide)
  · have : ROOTINO = 1 := rfl
    exact hs.typed i (by omega) (by omega)

theorem packed_mode_ne_zero (root : Listing) {i : Nat} (h1 : 1 ≤ i)
    (h2 : i < (Files.packed root).next) : (Files.packed root).mode i ≠ 0 := by
  intro hz
  have := packed_typed root h1 h2
  rw [hz] at this
  revert this
  decide

/-! ## The bitmap -/

theorem bit_bitmap {used : Nat} (h : used ≤ BPB) (j : Nat) :
    (bitmap used).bit j = decide (j < used) := by
  unfold bitmap
  induction used with
  | zero =>
    rw [List.range_zero, List.foldl_nil, ByteBlock.bit_zero]
    simp
  | succ used ih =>
    have hB := BSIZE_eq
    have hP := BPB_eq
    rw [List.range_succ, List.foldl_append, List.foldl_cons,
      List.foldl_nil, ByteBlock.bit_setBit _ (by omega), ih (by omega)]
    by_cases hj : j = used
    · simp [hj]
    · have : j < used + 1 ↔ j < used := by omega
      simp [hj, this]

/-! ## The finished image -/

section Finish

variable {img : Image} {root : Listing}

theorem finish_disk (b : Nat) (hb : nmeta ≤ b) : img.finish.disk b = img.disk b := by
  have h1 : sb.bmapstart < nmeta := by decide
  have h2 : sb.iblock ROOTINO < nmeta := by decide
  unfold Image.finish Image.setDinode
  rw [Image.write_disk, if_neg (by omega), Image.write_disk, if_neg (by omega)]

theorem finish_dinode {i : Nat} (hi : i < inodeCap) :
    img.finish.dinode i = if i = ROOTINO then roundSize (img.dinode i) else img.dinode i := by
  have hlt := iblock_lt hi
  unfold Image.finish
  rw [show ∀ (im : Image) d, (im.write sb.bmapstart d).dinode i = im.dinode i from fun im d => by
    unfold Image.dinode; rw [Image.write_disk, if_neg (by omega)], dinode_setDinode]
  split
  · rename_i h
    rw [h]
  · rfl

theorem finish_bitmap (hb : img.Blank) (hfb : img.freeblock < BPB) {b : Nat} (hlt : b < sb.size) :
    (img.finish.disk (sb.bblock b)).bit (b % BPB) = decide (b < img.freeblock) := by
  have hblock : sb.bblock b = b / BPB + sb.bmapstart := rfl
  have hmeta := sb.bblock_lt hlt
  have hroot : sb.iblock ROOTINO < sb.bmapstart := by decide
  unfold Image.finish Image.setDinode
  rw [Image.write_disk]
  by_cases hfirst : b < BPB
  · rw [if_pos (by rw [hblock, Nat.div_eq_of_lt hfirst, Nat.zero_add]),
      bit_bitmap hfb.le, Nat.mod_eq_of_lt hfirst]
  have hpos : 0 < b / BPB := Nat.div_pos (Nat.le_of_not_lt hfirst) (by omega)
  rw [if_neg (by omega), Image.write_disk, if_neg (by omega),
    hb.bitmap _ (by omega) hmeta, ByteBlock.bit_zero]
  exact (decide_eq_false (by omega)).symm

theorem boot_icache (img : Image) : Icache sb img.boot none := by
  have hno : ∀ p, ¬ (img.boot.icache p).Active := fun _ => Int.lt_irrefl 0
  exact ⟨fun p _ h => absurd h (hno p), fun p h => absurd h (hno p),
    fun p h => absurd h (hno p), fun p h => absurd h (hno p)⟩

theorem boot_ino (img : Image) (i : Nat) :
    (img.boot.store sb).ino i = if i < sb.ninodes then (img.dinode i).core else Inode.zero :=
  (boot_icache img).store_disk i

theorem addr_of_zero {st : Store} {i : Nat} (ha : (st.ino i).addrs = fun _ => 0) (k : Nat) :
    st.addr i k = 0 := by
  unfold Store.addr Store.addrOf Store.entry Inode.indirect
  simp [ha]

variable (his : img.Is (Files.packed root)) (hfits : (Files.packed root).next ≤ NINODES)

include his hfits

theorem finish_addr (i k : Nat) : (img.finish.boot.store sb).addr i k = img.files.addr i k := by
  have hcap : NINODES ≤ inodeCap := by decide
  have haddrs : ∀ j, j < inodeCap → (img.finish.dinode j).addrs = (img.dinode j).addrs ∧
      (img.finish.dinode j).mode = (img.dinode j).mode := by
    intro j hj
    rw [finish_dinode hj]
    split <;> exact ⟨rfl, rfl⟩
  by_cases hin : 1 ≤ i ∧ i < (Files.packed root).next
  · have hlt : i < sb.ninodes := hin.2.trans_le hfits
    have hlt' : i < inodeCap := hlt.trans_le hcap
    have hb := boot_ino img.finish i
    rw [if_pos hlt] at hb
    have hf := files_ino img hlt'
    obtain ⟨ha, hm⟩ := haddrs i hlt'
    have hmode : ((img.finish.boot.store sb).ino i).mode ≠ 0 := by
      rw [hb]
      show (img.finish.dinode i).mode ≠ 0
      rw [hm, (his.ino i hin.1 hin.2).1]
      exact packed_mode_ne_zero root hin.1 hin.2
    have hmode' : (img.files.ino i).mode ≠ 0 := Inode.mode_ne_zero (.inl (files_isReg img hlt'))
    have hadd : ((img.finish.boot.store sb).ino i).addrs = (img.files.ino i).addrs := by
      rw [hb, hf]
      exact ha
    have hblk : ∀ b, (img.finish.boot.store sb).blk b = img.files.blk b := by
      intro b
      show (if nmeta ≤ b then img.finish.disk b else ByteBlock.zero) = if nmeta ≤ b then img.disk b
          else ByteBlock.zero
      split
      · rename_i hle
        exact finish_disk b hle
      · rfl
    have hind : ((img.finish.boot.store sb).ino i).indirect = (img.files.ino i).indirect := by
      unfold Inode.indirect
      rw [hadd]
    rw [Store.addr_of_alloc hmode, Store.addr_of_alloc hmode']
    unfold Store.addrOf Store.entry
    rw [hadd, hind, hblk]
  · have hzero : ∀ j, j < inodeCap → j = i → img.dinode j = Inode.zero := fun j hj hji => by
      refine his.free j hj ?_
      omega
    rw [addr_of_zero, addr_of_zero]
    · show (if i < inodeCap then asFile (img.dinode i) else Inode.zero).addrs = _
      split
      · rename_i hlt
        rw [hzero i hlt rfl]
        rfl
      · rfl
    · rw [boot_ino]
      split
      · rename_i hlt
        have hlt' : i < inodeCap := hlt.trans_le hcap
        show (img.finish.dinode i).addrs = _
        rw [(haddrs i hlt').1, hzero i hlt' rfl]
        rfl
      · rfl

omit hfits in
theorem root_size : (img.dinode ROOTINO).size.toNat = DIRENTSIZE * (2 + root.entries) := by
  have hnext := Files.next_packed root
  have hroot : ROOTINO = 1 := rfl
  rw [← length_files img (by decide), his.data ROOTINO (Nat.le_refl _) (by omega), length_root]

omit hfits in
theorem root_size_le : (img.dinode ROOTINO).size.toNat ≤ MAXFILE * BSIZE := by
  have hroot : ROOTINO < inodeCap := by decide
  refine Nat.le_of_not_lt fun hgt => ?_
  have := (his.formed.consistent.mapped ROOTINO (Or.inl (files_isReg img hroot)) MAXFILE
    (by rw [files_ino img hroot]; exact hgt)).1
  exact Nat.lt_irrefl _ this

omit hfits in
theorem round_root_size :
    (roundSize (img.dinode ROOTINO)).size.toNat =
    (DIRENTSIZE * (2 + root.entries) / BSIZE + 1) * BSIZE := by
  have hle := root_size_le his
  have hsz := root_size his
  show (UInt32.ofNat _).toNat = _
  rw [UInt32.toNat_ofNat', hsz, Nat.mod_eq_of_lt]
  simp only [MAXFILE, NDIRECT, NINDIRECT, BSIZE] at *
  omega

/-- **Consistent**, unless the last block of the root directory is full. -/
theorem finish_consistent (hfb : img.freeblock < BPB)
    (hpart : DIRENTSIZE * (2 + root.entries) % BSIZE ≠ 0) :
    Consistent sb (img.finish.boot.store sb) := by
  have haddr := finish_addr his hfits
  have hc := his.formed.consistent
  have hcap : NINODES ≤ inodeCap := by decide
  have hused : ∀ b, b < sb.size → (img.finish.boot.store sb).used b = img.files.used b := by
    intro b hb
    show (if b < sb.size then (img.finish.disk (sb.bblock b)).bit (b % BPB) else true) =
        decide (b < img.freeblock)
    rw [if_pos hb, finish_bitmap his.blank hfb hb]
  refine ⟨fun b hb => ?_, hc.owns.congr (fun x => haddr _ _) fun b _ => hused b,
    fun i hk n hn => ?_⟩
  · rw [hused b (hb.trans_le sb.nmeta_le)]
    exact hc.metadata b hb
  · rw [Store.dataAddr, haddr]
    have hlt : i < sb.ninodes := by
      by_contra hge
      rw [boot_ino, if_neg hge] at hn
      exact absurd hn (Nat.not_lt_zero _)
    have hlt' : i < inodeCap := hlt.trans_le hcap
    refine hc.mapped i (.inl (files_isReg img hlt')) n ?_
    rw [files_ino img hlt']
    show n * BSIZE < (img.dinode i).size.toNat
    rw [boot_ino, if_pos hlt, show (Inode.core _).size = (img.finish.dinode i).size from rfl,
      finish_dinode hlt'] at hn
    split at hn
    · rename_i hi
      rw [hi] at hn ⊢
      rw [round_root_size his] at hn
      rw [root_size his]
      simp only [BSIZE] at *
      omega
    · exact hn

theorem finish_unmapped (hfull : DIRENTSIZE * (2 + root.entries) % BSIZE = 0) :
    ¬ Consistent sb (img.finish.boot.store sb) := by
  intro hc
  have hroot : ROOTINO < sb.ninodes := by decide
  have hsz := root_size his
  have hino : (img.finish.boot.store sb).ino ROOTINO = (roundSize (img.dinode ROOTINO)).core := by
    rw [boot_ino, if_pos hroot, finish_dinode (by decide), if_pos rfl]
  have hdir : ((img.finish.boot.store sb).ino ROOTINO).isDir := by
    have hnext := Files.next_packed root
    rw [hino]
    show (img.dinode ROOTINO).mode &&& S_IFMT = S_IFDIR
    rw [(his.ino ROOTINO le_rfl (by have : ROOTINO = 1 := rfl; omega)).1, (packed_stored root).1]
    decide
  have hround := round_root_size his
  obtain ⟨hlt, hne⟩ := hc.mapped ROOTINO (.inr hdir) (DIRENTSIZE * (2 + root.entries) / BSIZE) (by
    rw [hino, show (Inode.core _).size = (roundSize (img.dinode ROOTINO)).size from rfl, hround]
    simp only [BSIZE] at *
    omega)
  rw [Store.dataAddr, finish_addr his hfits,
    his.formed.tight ROOTINO _ (by decide) (slotOf_lt hlt), start_slotOf,
    files_ino img (by decide)] at hne
  have hne : _ < (img.dinode ROOTINO).size.toNat := hne
  simp only [BSIZE] at *
  omega

end Finish

/-! ## Trees of empty files -/

instance alphabet_neZero : NeZero 26 := ⟨by decide⟩

def letters (a b : Fin 26) : HostName where
  bytes := [97 + UInt8.ofNat a, 97 + UInt8.ofNat b]
  nonempty := List.cons_ne_nil _ _
  noNul := by revert a b; decide +kernel
  noSlash := by revert a b; decide +kernel

theorem letters_isDots (a b : Fin 26) : (letters a b).isDots = false := by
  revert a b
  decide +kernel

def emptyFiles : Nat → Listing
  | 0 => .nil
  | n + 1 => .file (letters (Fin.ofNat 26 (n / 26)) (Fin.ofNat 26 n)) 0o644 (some []) (emptyFiles n)

theorem emptyFiles_inodes (n : Nat) : (emptyFiles n).inodes = n ∧ (emptyFiles n).entries = n := by
  induction n with
  | zero => exact ⟨rfl, rfl⟩
  | succ n ih =>
    unfold emptyFiles Listing.inodes Listing.entries
    rw [letters_isDots, ih.1, ih.2]
    exact ⟨Nat.add_comm 1 n, Nat.add_comm 1 n⟩

theorem emptyFiles_small (n : Nat) (b : Nat) :
    (emptyFiles n).AllOpen ∧ (emptyFiles n).Within b := by
  induction n with
  | zero => exact ⟨trivial, trivial⟩
  | succ n ih => exact ⟨ih.1, Nat.zero_le _, ih.2⟩

theorem packs_emptyFiles {n : Nat} (hn : n ≤ 223) (clock : Nat → UInt32) :
    ∃ img, Packs clock true (emptyFiles n) img := by
  obtain ⟨hino, hent⟩ := emptyFiles_inodes n
  obtain ⟨hopen, hl⟩ := emptyFiles_small n (4 * BSIZE)
  refine packs_of_within hopen ?_ ?_ hl (by decide) (by decide) clock
  · rw [hino]
    exact Nat.add_le_add_left hn 2
  · rw [hent]
    simp only [DIRENTSIZE, BSIZE]
    omega

/-! ## Which images the kernel can use -/

/-- The exact condition under which `mkfs` leaves an image that the kernel can use. -/
theorem mountable_iff {clock : Nat → UInt32} {opens : Bool} {root : Listing}
    {img : Image} (h : Packs clock opens root img) :
    Mountable img ↔ 1 + root.inodes < NINODES ∧ DIRENTSIZE * (2 + root.entries) % BSIZE ≠ 0 := by
  obtain ⟨hnext, _, hfits⟩ := h.packed
  have hcap : NINODES ≤ inodeCap := by decide
  have hN : sb.ninodes = NINODES := rfl
  constructor
  · rintro ⟨hin, hc⟩
    have hlt : 1 + root.inodes < NINODES := (hin (1 + root.inodes) (by omega) (by omega)).1
    obtain ⟨img0, his, hfb, rfl⟩ := hfits (by omega)
    refine ⟨hlt, fun hfull => finish_unmapped his ?_ hfull hc⟩
    rw [Files.next_packed]
    omega
  · rintro ⟨hlt, hpart⟩
    obtain ⟨img0, his, hfb, rfl⟩ := hfits (by omega)
    refine ⟨fun i h1 h2 => ⟨by omega, Nat.le_add_left _ _, iblock_lt (by omega)⟩,
      finish_consistent his ?_ hfb hpart⟩
    rw [Files.next_packed]
    omega

/-- A directory with a file of two bytes, and an empty file beside it. -/
def smallTree : Listing :=
  .dir (letters 0 0) 0o755 true (.file (letters 0 1) 0o644 (some [[104, 105]]) .nil)
    (.file (letters 0 2) 0o600 (some []) .nil)

theorem mountable_small :
    ∃ img, Packs (fun _ => 0) true smallTree img ∧ img.freeinode = 5 ∧ Mountable img := by
  obtain ⟨img, h⟩ := @packs_of_within smallTree BSIZE ⟨.inr ⟨rfl, trivial⟩, trivial⟩
    (by decide) (by decide) ⟨by decide, ⟨by decide, trivial⟩, by decide, trivial⟩
    (by decide) (by decide) fun _ => 0
  exact ⟨img, h, h.packed.next, (mountable_iff h).mpr (by decide)⟩

/-- Sixty-two empty files fill the first block of the root directory, whose size is then rounded up
    to a second block that it does not have; and of 199 files the last gets an inode number that is
    not below `ninodes`. -/
theorem not_mountable :
    (∃ img, Packs (fun _ => 0) true (emptyFiles 62) img ∧ ¬ Mountable img) ∧
    ∃ img, Packs (fun _ => 0) true (emptyFiles 199) img ∧ ¬ Mountable img := by
  constructor
  · obtain ⟨img, h⟩ := packs_emptyFiles (by decide : 62 ≤ 223) fun _ => 0
    refine ⟨img, h, fun hm => ?_⟩
    obtain ⟨img0, his, _, rfl⟩ := h.packed.fits (by decide)
    exact finish_unmapped his (by decide) (by decide) hm.consistent
  · obtain ⟨img, h⟩ := packs_emptyFiles (by decide : 199 ≤ 223) fun _ => 0
    refine ⟨img, h, fun hm => ?_⟩
    have hnext := h.packed.next
    rw [(emptyFiles_inodes 199).1] at hnext
    exact absurd (hm.inodes 200 (by decide) (by omega)).1 (by decide)

end Micro86.Mkfs
