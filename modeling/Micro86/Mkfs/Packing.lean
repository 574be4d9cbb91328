import Micro86.Mkfs.Scan

/-!
# The finished image

`main` around `scan_directory`: the zeroed file, the superblock, the root directory, and at the end
the size of the root directory and the bitmap.

* `Packed` — the image file at exit status zero: the files, the root directory's size rounded up,
  and the bitmap of the blocks handed out.
* `Packs.packed` — what `main` leaves behind; `packs_of_room` — when it gets there.
-/

namespace Micro86.Mkfs

open Exec Fs Image

def Files.start : Files := ⟨1, fun _ => 0, fun _ => []⟩

def Files.packed (root : Listing) : Files :=
  (Files.start.createDirectory ROOTINO rootMode).scan root ROOTINO

theorem Files.next_packed (root : Listing) : (Files.packed root).next = 2 + root.inodes := by
  rw [Files.packed, Files.next_scan, Files.next_createDirectory]
  rfl

def roundSize (ip : Inode) : Inode :=
  { ip with size := UInt32.ofNat ((ip.size.toNat / BSIZE + 1) * BSIZE) }

def Image.finish (img : Image) : Image :=
  (img.setDinode ROOTINO (roundSize (img.dinode ROOTINO))).write sb.bmapstart (bitmap img.freeblock)

/-- The image that `mkfs` leaves for the listing `root`. -/
structure Packed (root : Listing) (img : Image) : Prop where
  next : img.freeinode = 2 + root.inodes
  bitmap : ∃ used, nmeta ≤ used ∧ used < BPB ∧ img.disk sb.bmapstart = bitmap used
  fits : 2 + root.inodes ≤ inodeCap →
    ∃ img0 : Image, img0.Is (Files.packed root) ∧ img0.freeblock < BPB ∧ img = img0.finish

section Main

variable {img : Image} {clock : Nat → UInt32}

theorem zero_loop : ∀ n, n ≤ FSSIZE →
    Exec.forUpTo n (fun i => wsect i ByteBlock.zero) created =
      .ok ((), { created with sectors := n }) := by
  intro n
  induction n with
  | zero =>
    intro _
    rw [forUpTo_zero]
    rfl
  | succ n ih =>
    intro hn
    have hsame : Function.update (fun _ => ByteBlock.zero : Nat → Block) n ByteBlock.zero = fun _ =>
        ByteBlock.zero :=
      Function.update_eq_self n _
    rw [forUpTo_succ, bind_of_ok (ih (Nat.le_of_succ_le hn)), wsect_eq hn]
    unfold Image.write created
    rw [hsame, Nat.max_eq_right (Nat.le_succ n)]

theorem files_write_low {sec : Nat} (h : sec < sb.inodestart) (data : Block) :
    (img.write sec data).files = img.files ∧ ∀ i, (img.write sec data).dinode i = img.dinode i := by
  have hlo : sb.inodestart ≤ nmeta := by decide
  have hdin : ∀ i, (img.write sec data).dinode i = img.dinode i := by
    intro i
    have : sb.inodestart ≤ sb.iblock i := Nat.le_add_left _ _
    unfold Image.dinode
    rw [Image.write_disk, if_neg (by omega)]
  refine ⟨?_, hdin⟩
  apply Store.ext
  · funext i
    show (if i < inodeCap then asFile ((img.write sec data).dinode i) else Inode.zero) = _
    rw [hdin]
    rfl
  · rfl
  · funext b
    show (if nmeta ≤ b then (img.write sec data).disk b else ByteBlock.zero) = if nmeta ≤ b then
        img.disk b else ByteBlock.zero
    split
    · rw [Image.write_disk, if_neg (by omega)]
    · rfl

theorem start_shows : Shows (zeroed.write 1 sbBlock) Files.start := by
  obtain ⟨hfiles, hdin⟩ := @files_write_low zeroed 1 (by decide) sbBlock
  refine ⟨rfl, le_rfl, le_rfl,
    fun _ => ⟨?_, zeroed_blank.write _ (.inl (by decide)) (by decide), fun i h1 h2 => ?_,
    fun i _ _ => ?_, fun i h1 h2 => ?_⟩⟩
  · rw [hfiles]
    exact zeroed_formed
  · exact absurd h2 h1.not_gt
  · rw [hdin, zeroed_dinode]
  · exact absurd h2 h1.not_gt

theorem fixRootSize_eq (hs : img.sectors = FSSIZE) :
    fixRootSize img = .ok ((), img.setDinode ROOTINO (roundSize (img.dinode ROOTINO))) := by
  have hroot : ROOTINO < inodeCap := by decide
  unfold fixRootSize
  rw [bind_of_ok (rinode_eq hs hroot), winode_eq hs hroot]
  rfl

/-- What makes `main` fail: a directory that cannot be opened, or a volume too small for the files
    or for one block of bitmap. -/
def Fails (opens : Bool) (root : Listing) : Prop :=
  opens = true → root.AllOpen → (Files.packed root).Room →
    BPB ≤ freeblockFor (Files.packed root).size

theorem main_spec (clock : Nat → UInt32) (opens : Bool) (root : Listing) :
    wp (main clock opens root) (fun _ img => Packed root img)
      (fun _ => Fails opens root) created := by
  have hloop : Exec.forUpTo FSSIZE (fun i => wsect i ByteBlock.zero) created = .ok ((), zeroed) :=
    zero_loop FSSIZE le_rfl
  have hsb : wsect 1 sbBlock zeroed = .ok ((), zeroed.write 1 sbBlock) := wsect_eq (by decide) _
  have hle := Files.le_scan root ROOTINO (Files.start.createDirectory ROOTINO rootMode)
  have hself : ∀ used (img : Image),
      (img.write (sector sb.bmapstart) (bitmap used)).disk sb.bmapstart = bitmap used :=
    fun used img => by rw [Image.write_disk, if_pos (by decide)]
  unfold main
  rw [wp_bind, wp_of_eq hloop, wp_bind, wp_of_eq hsb]
  refine wp.bind (start_shows.ialloc clock rootMode)
    (fun _ hno _ _ hroom => absurd (hroom.mono ?_) hno) ?_
  · exact ((Files.le_iappend _ _ _).trans (Files.le_iappend _ _ _)).trans hle
  rintro _ img1 ⟨rfl, h1⟩
  rw [if_neg (by decide)]
  refine wp.bind (h1.addDotEntries (Nat.le_refl 1) (by decide) _)
    (fun _ hno _ _ hroom => absurd (hroom.mono hle) hno) fun _ img2 h2 => ?_
  unfold scanDirectory
  cases opens with
  | false => exact fun ho => absurd ho (by decide)
  | true =>
    refine wp.bind (scanEntries_shows clock root (Nat.le_refl 1) h2 (by decide))
      (fun _ hno _ _ hroom => absurd hroom hno) fun ok img3 h3 => ?_
    cases ok with
    | false => exact fun _ ho => absurd (h3.2 ho) (by decide)
    | true =>
      have h3 : Shows img3 (Files.packed root) := h3.1 rfl
      rw [if_pos rfl]
      have hnext : img3.freeinode = 2 + root.inodes := h3.next.trans (Files.next_packed root)
      by_cases hfit : 2 + root.inodes ≤ inodeCap
      · have his := h3.fits (by rw [Files.next_packed]; exact hfit)
        rw [wp_bind, wp_of_eq (fixRootSize_eq his.blank.sectors), wp_bind, wp_get]
        show wp (balloc img3.freeblock) _ _ _
        unfold balloc
        split
        · rename_i hlt
          rw [wp_of_eq (wsect_eq (by decide) _)]
          exact ⟨hnext, ⟨_, h3.above, hlt, hself img3.freeblock _⟩, fun _ => ⟨img3, his, hlt, rfl⟩⟩
        rename_i hge
        rw [his.freeblock] at hge
        exact fun _ _ _ => Nat.le_of_not_lt hge
      · -- the inodes have run into the bitmap: only their number is known
        have hno : (Files.packed root).Room → BPB ≤ freeblockFor (Files.packed root).size :=
          fun hroom => by
          have := hroom.fits
          rw [Files.next_packed] at this
          exact absurd this hfit
        refine wp.bind (((rinode_counter _).bind fun _ => winode_counter _ _) img3)
          (fun _ _ _ _ => hno) fun _ img4 h4 => ?_
        rw [wp_bind, wp_get]
        unfold balloc
        split
        · rename_i hlt
          exact ⟨h4.freeinode.trans hnext,
            ⟨_, h3.above.trans h4.freeblock, hlt, hself img4.freeblock img4⟩,
            fun hle => absurd hle hfit⟩
        · exact fun _ _ => hno

/-- **`main`** with exit status zero. -/
theorem Packs.packed {opens : Bool} {root : Listing} (h : Packs clock opens root img) :
    Packed root img :=
  (main_spec clock opens root).of_ok h

/-- **`main`** exits with status zero on a tree that fits. -/
theorem packs_of_room {root : Listing} (hopen : root.AllOpen) (hroom : (Files.packed root).Room)
    (hfb : freeblockFor (Files.packed root).size < BPB) (clock : Nat → UInt32) :
    ∃ img, Packs clock true root img := by
  obtain ⟨_, img, h, _⟩ := (main_spec clock true root).returns fun _ hno =>
      hfb.not_ge (hno rfl hopen hroom)
  exact ⟨img, h⟩

end Main

end Micro86.Mkfs
