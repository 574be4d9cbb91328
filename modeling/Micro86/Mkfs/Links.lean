import Micro86.Tree.Quiet
import Micro86.Mkfs.Names

/-!
# Link counts of the finished image

`mkfs` gives every inode one link.  The kernel counts, for a directory, the `..` of every
subdirectory as well, and `rmdir` takes that link away from the parent.

* `linked_iff` — both hold exactly for the trees without subdirectories whose inodes fit.
-/

namespace Micro86.Mkfs

open Exec Fs Image
open Micro86.Tree (Dent Node cstr links)

variable {l : Listing} {n i d parent : Nat}

/-! ## The image as a tree -/

def fileByte (disk : Nat → Block) (ip : Inode) (o : Nat) : UInt8 :=
  if fileBlock disk ip (o / BSIZE) = 0 then 0
    else (disk (fileBlock disk ip (o / BSIZE))).byte (o % BSIZE)

def Image.contents (img : Image) (i : Nat) : List UInt8 :=
  (List.range (img.dinode i).size.toNat).map (fileByte img.disk (img.dinode i))

def toDent (de : Dirent) : Dent := ⟨de.ino, de.name⟩

/-- Inode `i`, if it was allocated. -/
def Image.node (img : Image) (i : Nat) : Node :=
  if 1 ≤ i ∧ i < img.freeinode then
    ⟨(img.dinode i).mode, (img.dinode i).nlink, (img.dinode i).uid,
      if (img.dinode i).isDir then
        (List.range ((img.dinode i).size.toNat / DIRENTSIZE)).map fun k =>
          toDent (dent (img.contents i) k)
      else []⟩
  else ⟨0, 0, 0, []⟩

/-- Every inode that was allocated is there, and its link count is right. -/
def LinksCounted (img : Image) : Prop :=
  ∀ i, 1 ≤ i → i < img.freeinode → ((img.dinode i).isDir ∨ (img.dinode i).isReg) ∧
    (img.node i).nlink.toNat = links img.freeinode img.node i

/-- No run of `rmdir` by any processes brings the link count of a directory to zero that an entry
    still names. -/
def RmdirSafe (img : Image) : Prop :=
  ∀ (s t : Tree.Sys) (as : List (Fin NPROC × Tree.Call)), s.fs.node = img.node →
    (∀ i, (s.fs.mem i).valid = true → (s.fs.node i).mode ≠ 0) →
      (∀ a ∈ as, ∃ path, a.2 = .sysRmdir path) →
    Run (fun s a t => Tree.step img.freeinode s a = .next t) s as t →
    ∀ d, (t.fs.node d).isDir → 0 < links img.freeinode t.fs.node d → (t.fs.node d).nlink ≠ 0

/-! ## Directories of the image -/

theorem toDent_zeros (des : List Dirent) (n : Nat) {k : Nat} (hk : des.length ≤ k) :
    toDent (dent (des.flatMap Dirent.bytes ++ List.replicate n 0) k) =
      ⟨0, List.replicate DIRSIZ 0⟩ := by
  rw [dent_zeros des n hk]
  decide

theorem children_inos (h : ∀ ch ∈ l.children n, ch.sub = none) :
    (l.children n).map Child.ino = List.range' n l.inodes := by
  induction l generalizing n with
  | nil => rfl
  | dir name mode opens sub rest ihs ihr =>
    rw [Listing.children] at h ⊢
    rw [Listing.inodes]
    split
    · rename_i hd
      rw [if_pos hd] at h
      exact ihr h
    rename_i hd
    rw [if_neg hd] at h
    cases h _ List.mem_cons_self
  | file name mode reads rest ih =>
    rw [Listing.children] at h ⊢
    rw [Listing.inodes]
    split
    · rename_i hd
      rw [if_pos hd] at h
      exact ih h
    rename_i hd
    rw [if_neg hd] at h
    rw [List.map_cons, ih fun ch hch => h ch (.tail _ hch), Nat.add_comm 1, List.range'_succ]
  | special name rest ih | noStat name rest ih => exact ih h

theorem isDot_dotFor (i : Nat) : (toDent (dotFor DOT i)).isDot = true := by
  have hstr : (toDent (dotFor DOT i)).str = DOT := cstr_dotFor (.inl rfl) i
  unfold Dent.isDot
  rw [hstr]
  decide

theorem isDot_dotdotFor (i : Nat) : (toDent (dotFor DOTDOT i)).isDot = false := by
  have hstr : (toDent (dotFor DOTDOT i)).str = DOTDOT := cstr_dotFor (.inr rfl) i
  unfold Dent.isDot
  rw [hstr]
  decide

/-- A host name that is cut is no `.`. -/
theorem isDot_dirent {nm : HostName} (h : nm.isDots = false) (i : Nat) :
    (toDent (direntFor nm.bytes i)).isDot = false := by
  have hstr : (toDent (direntFor nm.bytes i)).str = nm.bytes.take (DIRSIZ - 1) :=
    cstr_direntFor nm i
  unfold Dent.isDot
  rw [hstr, beq_eq_false_iff_ne]
  intro he
  have hlen := congrArg List.length he
  rw [List.length_take, show (cstr DIRSIZ DOT).length = 1 by decide] at hlen
  rw [List.take_of_length_le (by have : DIRSIZ = 20 := rfl; omega),
    show cstr DIRSIZ DOT = DOT by decide] at he
  unfold HostName.isDots at h
  simp [he] at h

section Nodes

variable {img : Image} {root : Listing} (his : img.Is (Files.packed root))
  (hfit : (Files.packed root).next ≤ inodeCap)
  (hnext : img.finish.freeinode = (Files.packed root).next)

include his hfit

/-- Only the root directory is longer than what was packed, and what follows is zero. -/
theorem finish_tail {o : Nat} (h1 : 1 ≤ i) (h2 : i < (Files.packed root).next)
    (hle : ((Files.packed root).data i).length ≤ o)
    (ho : o < (img.finish.dinode i).size.toNat) :
    fileByte img.finish.disk (img.finish.dinode i) o = 0 := by
  have hsize := finish_size his hfit h1 h2
  by_cases hi : i = ROOTINO
  · subst hi
    rw [if_pos rfl] at hsize
    unfold fileByte
    by_cases hfull : ((Files.packed root).data ROOTINO).length % BSIZE = 0
    · have hdiv : o / BSIZE = ((Files.packed root).data ROOTINO).length / BSIZE := by
        simp only [BSIZE] at *
        omega
      have hlt : ((Files.packed root).data ROOTINO).length / BSIZE < MAXFILE := by
        have hent := entries_le root
        rw [Files.next_packed] at hfit
        rw [length_root]
        simp only [BSIZE, MAXFILE, NINDIRECT, DIRENTSIZE, inodeCap,
          ninodeblocks, NINODES, IPB, DINODESIZE] at *
        omega
      rw [hdiv, if_pos (finish_root_unmapped his hfull hlt)]
    · have hr := finish_root_reads his hfit hfull
      have hlen := hr.size
      obtain ⟨_, hne⟩ := hr.mapped o (by omega)
      have hbyte := hr.byte o (by omega)
      rw [List.getElem?_append_right hle, List.getElem?_replicate, if_pos (by omega)] at hbyte
      rw [if_neg hne, ← Option.some.inj hbyte]
  · rw [if_neg hi] at hsize
    omega

theorem finish_contents (h1 : 1 ≤ i) (h2 : i < (Files.packed root).next) :
    img.finish.contents i = (Files.packed root).data i ++
      List.replicate
        ((img.finish.dinode i).size.toNat - ((Files.packed root).data i).length) 0 := by
  have hb := finish_begins his hfit h1 h2
  have hle := hb.le
  apply List.ext_getElem?
  intro o
  by_cases ho : o < (img.finish.dinode i).size.toNat
  · rw [Image.contents, List.getElem?_map, List.getElem?_range ho, Option.map_some]
    by_cases hin : o < ((Files.packed root).data i).length
    · obtain ⟨_, hne⟩ := hb.mapped o hin
      rw [fileByte, if_neg hne, List.getElem?_append_left hin, hb.byte o hin]
    · rw [finish_tail his hfit h1 h2 (Nat.le_of_not_lt hin) ho,
        List.getElem?_append_right (Nat.le_of_not_lt hin),
        List.getElem?_replicate, if_pos (by omega)]
  · rw [Image.contents, List.getElem?_map, List.getElem?_eq_none (by rw [List.length_range]; omega),
      Option.map_none,
      List.getElem?_eq_none (by rw [List.length_append, List.length_replicate]; omega)]

include hnext

theorem finish_node (h1 : 1 ≤ i) (h2 : i < (Files.packed root).next) :
    (img.finish.node i).mode = (Files.packed root).mode i ∧ (img.finish.node i).nlink = 1 ∧
    (img.finish.node i).uid = 0 := by
  unfold Image.node
  rw [if_pos ⟨h1, by omega⟩]
  exact finish_mode his hfit h1 h2

section

variable (h : DirAt (Files.packed root) d parent l n)
include h

theorem DirAt.dents :
    (img.finish.node d).dents = (dirEntries d parent l n).map toDent ++
      List.replicate ((img.finish.dinode d).size.toNat / DIRENTSIZE -
        (dirEntries d parent l n).length) ⟨0, List.replicate DIRSIZ 0⟩ := by
  have hb := finish_begins his hfit h.lo h.hi
  have hle := hb.le
  have hD := DIRENTSIZE_eq
  have hdir : (img.finish.dinode d).isDir := by
    unfold Inode.isDir
    rw [(finish_mode his hfit h.lo h.hi).1]
    exact h.isDir
  have hlen :
      ((Files.packed root).data d).length = DIRENTSIZE * (dirEntries d parent l n).length := by
    rw [h.data, length_flatMap_bytes]
  have hcount :
      (dirEntries d parent l n).length ≤ (img.finish.dinode d).size.toNat / DIRENTSIZE := by
    rw [Nat.le_div_iff_mul_le (by omega), Nat.mul_comm]
    omega
  have hcont := finish_contents his hfit h.lo h.hi
  rw [h.data] at hcont
  have hnode : (img.finish.node d).dents =
      (List.range ((img.finish.dinode d).size.toNat / DIRENTSIZE)).map fun k =>
      toDent (Fs.dent (img.finish.contents d) k) := by
    have hlt : 1 ≤ d ∧ d < img.finish.freeinode := ⟨h.lo, by rw [hnext]; exact h.hi⟩
    unfold Image.node
    rw [if_pos hlt]
    exact if_pos hdir
  rw [hnode, hcont]
  apply List.ext_getElem?
  intro k
  by_cases hk : k < (img.finish.dinode d).size.toNat / DIRENTSIZE
  · rw [List.getElem?_map, List.getElem?_range hk, Option.map_some]
    by_cases hin : k < (dirEntries d parent l n).length
    · rw [List.getElem?_append_left (by rw [List.length_map]; exact hin),
        List.getElem?_map, List.getElem?_eq_getElem hin, dent_flatMap _ _ hin, Option.map_some]
    · rw [toDent_zeros _ _ (Nat.le_of_not_lt hin),
        List.getElem?_append_right (by rw [List.length_map]; omega),
        List.getElem?_replicate, if_pos (by rw [List.length_map]; omega)]
  · rw [List.getElem?_map, List.getElem?_eq_none (by rw [List.length_range]; omega),
      Option.map_none,
      List.getElem?_eq_none
        (by rw [List.length_append, List.length_map, List.length_replicate]; omega)]

theorem DirAt.node_isDir : (img.finish.node d).isDir := by
  unfold Node.isDir
  rw [(finish_node his hfit hnext h.lo h.hi).1]
  exact h.isDir

/-- **The entries that count**: the `..`, and one for each child. -/
theorem DirAt.names_eq (hparent : parent < 65536)
    (hi : 1 ≤ i) :
    (img.finish.node d).names i = (if parent = i then 1 else 0) +
    ((l.children n).map Child.ino).count i := by
  have hcapv : inodeCap = 225 := by decide
  have hlast := h.last
  have hchild : ∀ ch ∈ l.children n, (toDent ch.dirent).ino = ch.ino ∧
      (toDent ch.dirent).isDot = false := by
    intro ch hch
    obtain ⟨hdots, _, hhi, _, _, _⟩ := h.stored.child ch hch
    refine ⟨(direntFor_ino _ _).trans (Nat.mod_eq_of_lt (by omega)), ?_⟩
    exact isDot_dirent hdots ch.ino
  have hdot : (toDent (dotFor DOT d)).isDot = true := isDot_dotFor d
  have hdotdot : (toDent (dotFor DOTDOT parent)).isDot = false ∧
      (toDent (dotFor DOTDOT parent)).ino = parent :=
    ⟨isDot_dotdotFor parent, (dotFor_ino _ _).trans (Nat.mod_eq_of_lt hparent)⟩
  have hzero : (List.replicate
      ((img.finish.dinode d).size.toNat / DIRENTSIZE - (dirEntries d parent l n).length)
      (⟨0, List.replicate DIRSIZ 0⟩ : Dent)).countP (fun e => e.ino == i && !e.isDot) = 0 := by
    rw [List.countP_eq_zero]
    intro e he
    rw [List.eq_of_mem_replicate he, Bool.and_eq_true, beq_iff_eq]
    rintro ⟨hz, _⟩
    have hz : 0 = i := hz
    omega
  have hkids :
      ((l.children n).map fun ch => toDent ch.dirent).countP (fun e => e.ino == i && !e.isDot) =
      ((l.children n).map Child.ino).count i := by
    rw [List.count, List.countP_map, List.countP_map]
    refine List.countP_congr fun ch hch => ?_
    obtain ⟨h1, h2⟩ := hchild ch hch
    show ((toDent ch.dirent).ino == i && !(toDent ch.dirent).isDot) = true ↔ (ch.ino == i) = true
    rw [h1, h2]
    simp
  unfold Node.names
  rw [if_pos (h.node_isDir his hfit hnext), h.dents his hfit hnext,
    List.countP_append, hzero, Nat.add_zero, dirEntries, dirents_eq,
    List.map_cons, List.map_cons, List.map_map, List.countP_cons,
      List.countP_cons, hdot, hdotdot.1, hdotdot.2]
  show ((l.children n).map fun ch => toDent ch.dirent).countP _ + _ + _ = _
  rw [hkids]
  by_cases hp : parent = i
  · simp
    omega
  · simp [hp]

end

theorem links_subdir {ch : Child} {sub : Listing} (hch : ch ∈ root.children 2)
    (hsub : ch.sub = some sub) : 2 ≤ links img.finish.freeinode img.finish.node ROOTINO := by
  have hroot := DirAt.root root
  have hkid := hroot.child hch hsub
  have hlo := (hroot.stored.child ch hch).lo
  have hr1 : ROOTINO = 1 := rfl
  have hself := hroot.names_eq his hfit hnext (by decide) (Nat.le_refl ROOTINO)
  have hother := hkid.names_eq his hfit hnext (by decide) (Nat.le_refl ROOTINO)
  rw [if_pos rfl] at hself hother
  have hpair : ({ROOTINO, ch.ino} : Finset Nat) ⊆ Finset.range img.finish.freeinode := by
    intro d hd
    rw [Finset.mem_range, hnext]
    rcases Finset.mem_insert.mp hd with rfl | hd
    · exact hroot.hi
    · rw [Finset.mem_singleton.mp hd]
      exact hkid.hi
  have hsum := Finset.sum_le_sum_of_subset (f := fun d => (img.finish.node d).names ROOTINO) hpair
  rw [Finset.sum_pair (by omega)] at hsum
  unfold links
  omega

variable (hfiles : ∀ ch ∈ root.children 2, ch.sub = none)

include hfiles

/-- Without subdirectories the root is the only directory. -/
theorem root_only (hd : (img.finish.node d).isDir) : d = ROOTINO := by
  by_contra hne
  by_cases hin : 1 ≤ d ∧ d < (Files.packed root).next
  · have hr1 : ROOTINO = 1 := rfl
    have hpacked := Files.next_packed root
    have hmem : d ∈ (root.children 2).map Child.ino := by
      rw [children_inos hfiles, List.mem_range'_1]
      omega
    obtain ⟨ch, hch, rfl⟩ := List.mem_map.mp hmem
    obtain ⟨_, _, _, hmode, _, hreg⟩ := (DirAt.root root).stored.child ch hch
    unfold Node.isDir at hd
    rw [(finish_node his hfit hnext hin.1 hin.2).1, hmode, hreg (hfiles ch hch)] at hd
    revert hd
    decide
  · have hnode : img.finish.node d = ⟨0, 0, 0, []⟩ := if_neg (by rw [hnext]; exact hin)
    rw [hnode] at hd
    revert hd
    decide

theorem links_files (h1 : 1 ≤ i) (h2 : i < (Files.packed root).next) :
    links img.finish.freeinode img.finish.node i = 1 := by
  have hroot := DirAt.root root
  have hr1 : ROOTINO = 1 := rfl
  have hpacked := Files.next_packed root
  have hsum : links img.finish.freeinode img.finish.node i = (img.finish.node ROOTINO).names i := by
    refine Finset.sum_eq_single ROOTINO
      (fun d _ hd => if_neg fun hdir => hd (root_only his hfit hnext hfiles hdir)) fun hno => ?_
    rw [Finset.mem_range, hnext] at hno
    exact absurd hroot.hi hno
  rw [hsum, hroot.names_eq his hfit hnext (by decide) h1, children_inos hfiles]
  by_cases hi : ROOTINO = i
  · rw [if_pos hi, List.count_eq_zero.mpr]
    rw [List.mem_range'_1]
    omega
  rw [if_neg hi, Nat.zero_add, List.count_eq_one_of_mem List.nodup_range']
  rw [List.mem_range'_1]
  omega

theorem rmdirSafe_files : RmdirSafe img.finish := by
  intro s t as hnode hvalid hall hrun
  have hcases : ∀ i, (img.finish.node i).mode ≠ 0 → (img.finish.node i).nlink ≠ 0 := by
    intro i hm
    by_cases hin : 1 ≤ i ∧ i < (Files.packed root).next
    · rw [(finish_node his hfit hnext hin.1 hin.2).2.1]
      decide
    have hzero : img.finish.node i = ⟨0, 0, 0, []⟩ := if_neg (by rw [hnext]; exact hin)
    rw [hzero] at hm
    exact absurd rfl hm
  have honly : ∀ d, (img.finish.node d).isDir → ∀ e ∈ (img.finish.node d).dents,
      e.ino ≠ 0 → (img.finish.node e.ino).isDir →
      e.str = cstr DIRSIZ DOT ∨ e.str = cstr DIRSIZ DOTDOT := by
    intro d hd e he hlive hdir
    have hd := root_only his hfit hnext hfiles hd
    have hino := root_only his hfit hnext hfiles hdir
    rw [hd, (DirAt.root root).dents his hfit hnext, List.mem_append] at he
    rcases he with he | he
    · rw [dirEntries, dirents_eq, List.map_cons, List.map_cons,
        List.mem_cons, List.mem_cons, List.map_map] at he
      rcases he with rfl | rfl | he
      · exact .inl ((cstr_dotFor (.inl rfl) _).trans (by decide))
      · exact .inr ((cstr_dotFor (.inr rfl) _).trans (by decide))
      obtain ⟨ch, hch, rfl⟩ := List.mem_map.mp he
      obtain ⟨_, hlo, hhi, _, _, _⟩ := (DirAt.root root).stored.child ch hch
      have hlast := (DirAt.root root).last
      have hcapv : inodeCap = 225 := by decide
      have hmod : (toDent ch.dirent).ino = ch.ino :=
        (direntFor_ino _ _).trans (Nat.mod_eq_of_lt (by omega))
      have hino : (toDent ch.dirent).ino = ROOTINO := hino
      have hr1 : ROOTINO = 1 := rfl
      omega
    · rw [List.eq_of_mem_replicate he] at hlive
      exact absurd rfl hlive
  have hq :=
    Tree.rmdir_quiet hcases honly hall hrun ⟨hnode, fun i hv => by rw [← hnode]; exact hvalid i hv⟩
  intro d hdir _
  rw [hq.same] at hdir ⊢
  have hr := DirAt.root root
  rw [root_only his hfit hnext hfiles hdir, (finish_node his hfit hnext hr.lo hr.hi).2.1]
  decide

end Nodes

/-- **Link counts**: the trees without subdirectories, as long as the inodes fit. -/
theorem linked_iff {clock : Nat → UInt32} {opens : Bool} {root : Listing}
    {img : Image} (h : Packs clock opens root img) :
    LinksCounted img ∧ RmdirSafe img ↔ 2 + root.inodes ≤ inodeCap ∧
      ∀ ch ∈ root.children 2, ch.sub = none := by
  have hpacked := h.packed
  have hnext := Files.next_packed root
  constructor
  · rintro ⟨hcount, _⟩
    have hfit : 2 + root.inodes ≤ inodeCap := by
      refine Nat.le_of_not_lt fun hgt => ?_
      have htype := (hcount inodeCap (by decide) (by rw [hpacked.next]; exact hgt)).1
      unfold Inode.isDir Inode.isReg at htype
      rw [overwritten_inode h] at htype
      revert htype
      decide
    obtain ⟨img0, his, _, rfl⟩ := hpacked.fits hfit
    refine ⟨hfit, fun ch hch => ?_⟩
    cases hsub : ch.sub with
    | none => rfl
    | some sub =>
      have hroot := (DirAt.root root)
      have htwo :=
        links_subdir his (by rw [hnext]; exact hfit) (hpacked.next.trans hnext.symm) hch hsub
      have hone := (hcount ROOTINO le_rfl (by rw [hpacked.next, ← hnext]; exact hroot.hi)).2
      rw [(finish_node his (by rw [hnext]; exact hfit) (hpacked.next.trans hnext.symm)
        hroot.lo hroot.hi).2.1] at hone
      have hone : 1 = _ := hone
      omega
  · rintro ⟨hfit, hfiles⟩
    obtain ⟨img0, his, _, rfl⟩ := hpacked.fits hfit
    have hfit : (Files.packed root).next ≤ inodeCap := by rw [hnext]; exact hfit
    have hn := hpacked.next.trans hnext.symm
    refine ⟨fun i h1 h2 => ⟨?_, ?_⟩, rmdirSafe_files his hfit hn hfiles⟩
    · rw [hn] at h2
      unfold Inode.isDir Inode.isReg
      rw [(finish_mode his hfit h1 h2).1]
      exact packed_typed root h1 h2
    · rw [hn] at h2
      rw [(finish_node his hfit hn h1 h2).2.1, links_files his hfit hn hfiles h1 h2]
      rfl

/-- One empty file. -/
theorem linked_file :
    ∃ img, Packs (fun _ => 0) true (emptyFiles 1) img ∧ LinksCounted img ∧ RmdirSafe img := by
  obtain ⟨img, h⟩ := packs_emptyFiles (by decide : 1 ≤ 223) fun _ => 0
  refine ⟨img, h, (linked_iff h).mpr ⟨by decide +kernel, fun ch hch => ?_⟩⟩
  rw [List.mem_singleton.mp hch]

/-! ## One empty subdirectory -/

def oneDir : Listing := .dir (letters 0 0) 0o755 true .nil .nil

def oneDirNode (i : Nat) : Node :=
  if i = 1 then ⟨rootMode, 1, 0,
    (dirEntries 1 1 oneDir 2).map toDent ++ List.replicate 61 ⟨0, List.replicate DIRSIZ 0⟩⟩
  else if i = 2 then ⟨convertMode S_IFDIR 0o755, 1, 0, (dirEntries 2 1 .nil 3).map toDent⟩
  else ⟨0, 0, 0, []⟩

theorem oneDir_node {img : Image} (his : img.Is (Files.packed oneDir))
    (hnext : img.finish.freeinode = (Files.packed oneDir).next) : img.finish.node = oneDirNode := by
  have hfit : (Files.packed oneDir).next ≤ inodeCap := by decide
  have hthree : (Files.packed oneDir).next = 3 := by decide
  have hroot := DirAt.root oneDir
  have hkid : DirAt (Files.packed oneDir) 2 1 .nil 3 := hroot.child List.mem_cons_self rfl
  have hz1 : (img.finish.dinode ROOTINO).size.toNat / DIRENTSIZE -
      (dirEntries ROOTINO ROOTINO oneDir 2).length = 61 := by
    rw [finish_size his hfit hroot.lo hroot.hi, if_pos rfl, length_root]
    decide
  have hz2 :
      (img.finish.dinode 2).size.toNat / DIRENTSIZE - (dirEntries 2 1 .nil 3).length = 0 := by
    rw [finish_size his hfit hkid.lo hkid.hi, if_neg (by decide), hkid.data, length_flatMap_bytes]
    decide
  have heta : ∀ nd : Node, nd = ⟨nd.mode, nd.nlink, nd.uid, nd.dents⟩ := fun _ => rfl
  funext i
  unfold oneDirNode
  split
  · rename_i hi
    subst hi
    have hd := hroot.dents his hfit hnext
    rw [hz1] at hd
    obtain ⟨hm, hl, hu⟩ := finish_node his hfit hnext hroot.lo hroot.hi
    rw [heta (img.finish.node 1)]
    exact congr (congr (congr (congrArg Node.mk (hm.trans (packed_stored oneDir).1)) hl) hu) hd
  split
  · rename_i hi
    subst hi
    have hd := hkid.dents his hfit hnext
    rw [hz2, List.replicate_zero, List.append_nil] at hd
    obtain ⟨hm, hl, hu⟩ := finish_node his hfit hnext hkid.lo hkid.hi
    rw [heta (img.finish.node 2)]
    exact congr (congr (congr (congrArg Node.mk
      (hm.trans ((packed_stored oneDir).2.2.child _ List.mem_cons_self).mode)) hl) hu) hd
  · exact if_neg (by rw [hnext, hthree]; omega)

def oneDirSys : Tree.Sys := { Tree.rootSys with fs := ⟨oneDirNode, Tree.rootSys.fs.mem⟩ }

theorem oneDir_rmdir : (Outcome.exec (Tree.step 3) oneDirSys
    [(Tree.firstProc, .sysRmdir (pathOf [letters 0 0]))]).map (fun t =>
    ((t.fs.node 1).nlink, links 3 t.fs.node 1, decide (t.fs.node 1).isDir)) =
    some (0, 1, true) := by
  decide +kernel

/-- **A tree with one empty subdirectory**: the root has one link where the kernel counts two, and
    removing the subdirectory leaves it with none. -/
theorem subdirectory_not_linked :
    ∃ img, Packs (fun _ => 0) true oneDir img ∧ ¬ LinksCounted img ∧ ¬ RmdirSafe img := by
  obtain ⟨img, h⟩ :=
    @packs_of_within oneDir BSIZE ⟨.inr ⟨rfl, trivial⟩, trivial⟩ (by decide) (by decide)
    ⟨by decide, trivial, trivial⟩ (by decide) (by decide) fun _ => 0
  have hfit : (Files.packed oneDir).next ≤ inodeCap := by decide
  have hnext := h.packed.next
  obtain ⟨img0, his, _, rfl⟩ := h.packed.fits (by decide)
  have hroot := DirAt.root oneDir
  have hthree : img0.finish.freeinode = 3 := hnext
  refine ⟨img0.finish, h, fun hcount => ?_, fun hsafe => ?_⟩
  · have htwo := links_subdir his hfit hnext
        (List.mem_cons_self : (⟨letters 0 0, 2, _, some .nil⟩ : Child) ∈ _) rfl
    have hone := (hcount ROOTINO le_rfl (by rw [hthree]; decide)).2
    rw [(finish_node his hfit hnext hroot.lo hroot.hi).2.1] at hone
    have hone : 1 = _ := hone
    omega
  · obtain ⟨t, ht, hres⟩ := Option.map_eq_some_iff.mp oneDir_rmdir
    have hz : (t.fs.node 1).nlink = 0 := congrArg Prod.fst hres
    have hl : links 3 t.fs.node 1 = 1 := congrArg (fun r => r.2.1) hres
    have hd : decide (t.fs.node 1).isDir = true := congrArg (fun r => r.2.2) hres
    have hvalid : ∀ i, (oneDirSys.fs.mem i).valid = true → (oneDirSys.fs.node i).mode ≠ 0 := by
      intro i hv
      have hi : i = ROOTINO := by
        by_contra hne
        have : (oneDirSys.fs.mem i) = ⟨0, false⟩ := if_neg hne
        rw [this] at hv
        cases hv
      rw [hi]
      decide
    have hall : ∀ a ∈ [(Tree.firstProc, Tree.Call.sysRmdir (pathOf [letters 0 0]))],
        ∃ path, a.2 = .sysRmdir path := by
      intro a ha
      rw [List.mem_singleton.mp ha]
      exact ⟨_, rfl⟩
    refine hsafe oneDirSys t _ (oneDir_node his hnext).symm hvalid
      hall ?_ 1 (of_decide_eq_true hd) ?_ hz
    · rw [hthree]
      exact Outcome.run_of_exec ht
    · rw [hthree, hl]
      decide

end Micro86.Mkfs
