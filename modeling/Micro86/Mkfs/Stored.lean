import Micro86.Mkfs.Packing

/-!
# Where the host tree ends up

The inodes are numbered in the order in which `scan_directory` meets them.
-/

namespace Micro86.Mkfs

open Exec Fs Image Function

variable {f : Files} {ino n : Nat} {l : Listing}

/-! ## Types -/

theorem or_and_S_IFMT (m b : UInt16) :
    (m ||| b) &&& S_IFMT = (m &&& S_IFMT) ||| (b &&& S_IFMT) := by
  rw [← UInt16.toBitVec_inj]
  simp only [UInt16.toBitVec_or]
  exact BitVec.and_or_distrib_right

theorem convertMode_type (hostMode : UInt16) {type : UInt16} (ht : type &&& S_IFMT = type) :
    convertMode type hostMode &&& S_IFMT = type := by
  have hall : permBits.all (fun bit => bit &&& S_IFMT == 0) = true := by decide
  have hbits : ∀ bit ∈ permBits, bit &&& S_IFMT = 0 :=
    fun bit hbit => beq_iff_eq.mp (List.all_eq_true.mp hall bit hbit)
  unfold convertMode
  generalize permBits = bits at hbits
  have hfold : ∀ m, m &&& S_IFMT = type →
      bits.foldl (fun m bit => if hostMode &&& bit ≠ 0 then m ||| bit else m) m &&&
        S_IFMT = type := by
    induction bits with
    | nil => exact fun m hm => hm
    | cons bit bits ih =>
      intro m hm
      rw [List.foldl_cons]
      refine ih (fun b hb => hbits b (.tail _ hb)) _ ?_
      split
      · rw [or_and_S_IFMT, hm, hbits bit List.mem_cons_self, UInt16.or_zero]
      · exact hm
  exact hfold type ht

/-! ## The numbering -/

/-- The entries of a listing whose first inode is number `n`. -/
def Listing.dirents : Listing → Nat → List Dirent
  | .nil, _ => []
  | .dir name _ _ sub rest, n =>
    if name.isDots then rest.dirents n
      else direntFor name.bytes n :: rest.dirents (n + 1 + sub.inodes)
  | .file name _ _ rest, n =>
    if name.isDots then rest.dirents n
    else direntFor name.bytes n :: rest.dirents (n + 1)
  | .special _ rest, n => rest.dirents n
  | .noStat _ rest, n => rest.dirents n

def dirEntries (ino parent : Nat) (l : Listing) (n : Nat) : List Dirent :=
  dotFor DOT ino :: dotFor DOTDOT parent :: l.dirents n

/-- Every file and directory below directory `ino` is in its inode, from number `n` on. -/
def Stored (f : Files) : Listing → Nat → Nat → Prop
  | .nil, _, _ => True
  | .dir name mode _ sub rest, ino, n =>
    if name.isDots then Stored f rest ino n
    else (f.mode n = convertMode S_IFDIR mode ∧
      f.data n = (dirEntries n ino sub (n + 1)).flatMap Dirent.bytes ∧
      Stored f sub n (n + 1)) ∧ Stored f rest ino (n + 1 + sub.inodes)
  | .file name mode reads rest, ino, n =>
    if name.isDots then Stored f rest ino n
    else (f.mode n = convertMode S_IFREG mode ∧ f.data n = (reads.getD []).flatten) ∧
      Stored f rest ino (n + 1)
  | .special _ rest, ino, n => Stored f rest ino n
  | .noStat _ rest, ino, n => Stored f rest ino n

section Stored

variable {f f' : Files}

theorem Stored.congr {l : Listing} {ino n : Nat} (h : Stored f l ino n)
    (hsame : ∀ i, n ≤ i → i < n + l.inodes → f'.mode i = f.mode i ∧ f'.data i = f.data i) :
    Stored f' l ino n := by
  induction l generalizing ino n with
  | nil => trivial
  | dir name mode opens sub rest ihs ihr =>
    unfold Stored at h ⊢
    unfold Listing.inodes at hsame
    split at h
    · rename_i hd
      rw [if_pos hd] at hsame ⊢
      exact ihr h hsame
    rename_i hd
    rw [if_neg hd] at hsame ⊢
    obtain ⟨⟨h1, h2, h3⟩, h4⟩ := h
    obtain ⟨hm, hdata⟩ := hsame n le_rfl (by omega)
    refine ⟨⟨hm.trans h1, hdata.trans h2, ihs h3 fun i hi hi' => ?_⟩, ihr h4 fun i hi hi' => ?_⟩
    · exact hsame i (by omega) (by omega)
    · exact hsame i (by omega) (by omega)
  | file name mode reads rest ih =>
    unfold Stored at h ⊢
    unfold Listing.inodes at hsame
    split at h
    · rename_i hd
      rw [if_pos hd] at hsame ⊢
      exact ih h hsame
    rename_i hd
    rw [if_neg hd] at hsame ⊢
    obtain ⟨⟨h1, h2⟩, h3⟩ := h
    obtain ⟨hm, hdata⟩ := hsame n le_rfl (by omega)
    refine ⟨⟨hm.trans h1, hdata.trans h2⟩, ih h3 fun i hi hi' => ?_⟩
    exact hsame i (by omega) (by omega)
  | special name rest ih | noStat name rest ih => exact ih h hsame

/-- What `Files.scan` did: the directory got its entries, the new inodes hold the listing, and the
    old inodes are as they were. -/
structure Scanned (f : Files) (l : Listing) (ino : Nat) (f' : Files) : Prop where
  self : f'.data ino = f.data ino ++ (l.dirents f.next).flatMap Dirent.bytes
  mode : ∀ i, i < f.next → f'.mode i = f.mode i
  other : ∀ i, i < f.next → i ≠ ino → f'.data i = f.data i
  stored : Stored f' l ino f.next

theorem data_iappend_self (i : Nat) (p : List UInt8) :
    (f.iappend i p).data i = f.data i ++ p := update_self ..

theorem data_iappend_ne {i j : Nat} (h : j ≠ i) (p : List UInt8) :
    (f.iappend i p).data j = f.data j :=
  update_of_ne h _ _

theorem data_ialloc_ne {j : Nat} (h : j ≠ f.next) (type : UInt16) :
    (f.ialloc type).data j = f.data j :=
  update_of_ne h _ _

theorem data_createDirectory (parent : Nat) (mode : UInt16) :
    (f.createDirectory parent mode).data f.next = (dotFor DOT f.next).bytes ++
    (dotFor DOTDOT parent).bytes := by
  unfold Files.createDirectory
  rw [data_iappend_self, data_iappend_self,
    show (f.ialloc mode).data f.next = [] from update_self .., List.nil_append]

theorem data_createDirectory_ne {j : Nat} (h : j ≠ f.next) (parent : Nat) (mode : UInt16) :
    (f.createDirectory parent mode).data j = f.data j := by
  unfold Files.createDirectory
  rw [data_iappend_ne h, data_iappend_ne h, data_ialloc_ne h]

theorem scan_scanned (l : Listing) {ino : Nat} (hi : ino < f.next) :
    Scanned f l ino (f.scan l ino) := by
  induction l generalizing ino f with
  | nil => exact ⟨(List.append_nil _).symm, fun _ _ => rfl, fun _ _ _ => rfl, trivial⟩
  | dir name mode opens sub rest ihs ihr =>
    unfold Files.scan
    split
    · rename_i hd
      obtain ⟨h1, h2, h3, h4⟩ := ihr hi
      refine ⟨?_, h2, h3, ?_⟩
      · rw [h1, Listing.dirents, if_pos hd]
      · unfold Stored
        rwa [if_pos hd]
    rename_i hd
    generalize hf1 : (f.createDirectory ino (convertMode S_IFDIR mode)).iappend
      ino (direntFor name.bytes f.next).bytes = f1
    have hne : ino ≠ f.next := hi.ne
    have hnext : f1.next = f.next + 1 := by rw [← hf1]; rfl
    have hs : Scanned f1 sub f.next _ := ihs (by omega)
    have hnext' :
        (f1.scan sub f.next).next = f.next + 1 + sub.inodes := by rw [Files.next_scan, hnext]
    have hr : Scanned (f1.scan sub f.next) rest ino _ := ihr (by omega)
    have hself : f1.data ino = f.data ino ++ (direntFor name.bytes f.next).bytes := by
      rw [← hf1, data_iappend_self, data_createDirectory_ne hne]
    have hnew : f1.data f.next = (dotFor DOT f.next).bytes ++ (dotFor DOTDOT ino).bytes := by
      rw [← hf1, data_iappend_ne hne.symm, data_createDirectory]
    have hmode : f1.mode f.next = convertMode S_IFDIR mode := by rw [← hf1]; exact update_self ..
    have hold : ∀ i, i < f.next → i ≠ ino → f1.data i = f.data i := fun i h1 h2 => by
      rw [← hf1, data_iappend_ne h2, data_createDirectory_ne h1.ne]
    have hmold : ∀ i, i < f.next → f1.mode i = f.mode i := fun i h1 => by
      rw [← hf1]
      exact update_of_ne h1.ne _ _
    refine ⟨?_, fun i h1 => ?_, fun i h1 h2 => ?_, ?_⟩
    · rw [hr.self, hs.other ino (by omega) hne, hself, Listing.dirents,
        if_neg hd, hnext', List.flatMap_cons, List.append_assoc]
    · rw [hr.mode i (by omega), hs.mode i (by omega), hmold i h1]
    · rw [hr.other i (by omega) h2, hs.other i (by omega) h1.ne, hold i h1 h2]
    · unfold Stored
      rw [if_neg hd]
      have hstored := hr.stored
      rw [hnext'] at hstored
      refine ⟨⟨?_, ?_, ?_⟩, hstored⟩
      · rw [hr.mode _ (by omega), hs.mode _ (by omega), hmode]
      · rw [hr.other _ (by omega) hne.symm, hs.self, hnew, hnext,
          dirEntries, List.flatMap_cons, List.flatMap_cons, List.append_assoc]
      · have h3 := hs.stored
        rw [hnext] at h3
        exact h3.congr fun i h1 h2 => ⟨hr.mode i (by omega), hr.other i (by omega) (by omega)⟩
  | file name mode reads rest ih =>
    unfold Files.scan
    split
    · rename_i hd
      obtain ⟨h1, h2, h3, h4⟩ := ih hi
      refine ⟨?_, h2, h3, ?_⟩
      · rw [h1, Listing.dirents, if_pos hd]
      · unfold Stored
        rwa [if_pos hd]
    rename_i hd
    generalize hf1 : ((f.ialloc (convertMode S_IFREG mode)).iappend
      ino (direntFor name.bytes f.next).bytes).iappend f.next (reads.getD []).flatten = f1
    have hne : ino ≠ f.next := hi.ne
    have hnext : f1.next = f.next + 1 := by rw [← hf1]; rfl
    have hr : Scanned f1 rest ino _ := ih (by omega)
    have hself : f1.data ino = f.data ino ++ (direntFor name.bytes f.next).bytes := by
      rw [← hf1, data_iappend_ne hne, data_iappend_self, data_ialloc_ne hne]
    have hnew : f1.data f.next = (reads.getD []).flatten := by
      rw [← hf1, data_iappend_self, data_iappend_ne hne.symm,
        show (f.ialloc _).data f.next = [] from update_self .., List.nil_append]
    have hmode : f1.mode f.next = convertMode S_IFREG mode := by rw [← hf1]; exact update_self ..
    have hold : ∀ i, i < f.next → i ≠ ino → f1.data i = f.data i := fun i h1 h2 => by
      rw [← hf1, data_iappend_ne h1.ne, data_iappend_ne h2, data_ialloc_ne h1.ne]
    have hmold : ∀ i, i < f.next → f1.mode i = f.mode i := fun i h1 => by
      rw [← hf1]
      exact update_of_ne h1.ne _ _
    refine ⟨?_, fun i h1 => ?_, fun i h1 h2 => ?_, ?_⟩
    · rw [hr.self, hself, Listing.dirents, if_neg hd, hnext, List.flatMap_cons, List.append_assoc]
    · rw [hr.mode i (by omega), hmold i h1]
    · rw [hr.other i (by omega) h2, hold i h1 h2]
    · unfold Stored
      rw [if_neg hd]
      have hstored := hr.stored
      rw [hnext] at hstored
      refine ⟨⟨?_, ?_⟩, hstored⟩
      · rw [hr.mode _ (by omega), hmode]
      · rw [hr.other _ (by omega) hne.symm, hnew]
  | special name rest ih | noStat name rest ih =>
    obtain ⟨h1, h2, h3, h4⟩ := ih hi
    exact ⟨h1, h2, h3, h4⟩

end Stored

/-- **The files of the finished image**: the root directory is inode one, and the host tree
    follows. -/
theorem packed_stored (root : Listing) :
    (Files.packed root).mode ROOTINO = rootMode ∧
    (Files.packed root).data ROOTINO = (dirEntries ROOTINO ROOTINO root 2).flatMap Dirent.bytes ∧
    Stored (Files.packed root) root ROOTINO 2 := by
  have hs := @scan_scanned (Files.start.createDirectory ROOTINO rootMode) root ROOTINO (by decide)
  refine ⟨?_, ?_, hs.stored⟩
  · rw [Files.packed, hs.mode ROOTINO (by decide)]
    rfl
  · rw [Files.packed, hs.self,
      show (Files.start.createDirectory ROOTINO rootMode).data ROOTINO = _ from
      data_createDirectory ROOTINO rootMode, dirEntries, List.flatMap_cons,
        List.flatMap_cons, List.append_assoc]
    rfl

/-! ## One directory at a time -/

/-- An entry of a listing that is packed; `sub` is there for a directory. -/
structure Child where
  name : HostName
  ino : Nat
  mode : UInt16
  sub : Option Listing

/-- The entries that are packed, when the first inode is number `n`. -/
def Listing.children : Listing → Nat → List Child
  | .nil, _ => []
  | .dir name mode _ sub rest, n =>
    if name.isDots then rest.children n
    else ⟨name, n, convertMode S_IFDIR mode, some sub⟩ :: rest.children (n + 1 + sub.inodes)
  | .file name mode _ rest, n =>
    if name.isDots then rest.children n
      else ⟨name, n, convertMode S_IFREG mode, none⟩ :: rest.children (n + 1)
  | .special _ rest, n => rest.children n
  | .noStat _ rest, n => rest.children n

def Child.dirent (ch : Child) : Dirent := direntFor ch.name.bytes ch.ino

def Child.below (ch : Child) : Nat := (ch.sub.map Listing.inodes).getD 0

theorem dirents_eq (l : Listing) (n : Nat) : l.dirents n = (l.children n).map Child.dirent := by
  induction l generalizing n with
  | nil => rfl
  | dir name mode opens sub rest ihs ihr | file name mode reads rest ihr =>
    unfold Listing.dirents Listing.children
    split
    · exact ihr _
    · rw [List.map_cons, ihr]
      rfl
  | special name rest ih | noStat name rest ih => exact ih _

/-- What is known of every child: what it needs to be stored, and where. -/
structure Child.In (f : Files) (ino n last : Nat) (ch : Child) : Prop where
  name : ch.name.isDots = false
  lo : n ≤ ch.ino
  hi : ch.ino + 1 + ch.below ≤ last
  mode : f.mode ch.ino = ch.mode
  dir : ∀ sub, ch.sub = some sub → ch.mode &&& S_IFMT = S_IFDIR ∧
    f.data ch.ino = (dirEntries ch.ino ino sub (ch.ino + 1)).flatMap Dirent.bytes ∧
      Stored f sub ch.ino (ch.ino + 1)
  file : ch.sub = none → ch.mode &&& S_IFMT = S_IFREG

theorem Child.In.widen {n' last : Nat} {ch : Child} (h : ch.In f ino n last) (hn : n' ≤ n) :
    ch.In f ino n' last :=
  ⟨h.name, hn.trans h.lo, h.hi, h.mode, h.dir, h.file⟩

theorem Stored.child (h : Stored f l ino n) :
    ∀ ch ∈ l.children n, ch.In f ino n (n + l.inodes) := by
  induction l generalizing n with
  | nil => exact fun ch hch => absurd hch List.not_mem_nil
  | dir name mode opens sub rest ihs ihr =>
    unfold Stored at h
    rw [Listing.children, Listing.inodes]
    split at h
    · rename_i hd
      rw [if_pos hd, if_pos hd]
      exact ihr h
    rename_i hd
    rw [if_neg hd, if_neg hd]
    obtain ⟨⟨h1, h2, h3⟩, h4⟩ := h
    intro ch hch
    rcases List.mem_cons.mp hch with rfl | hch
    · refine ⟨by simpa using hd, le_rfl, ?_, h1, fun sub' hs => ?_, nofun⟩
      · show n + 1 + sub.inodes ≤ _
        omega
      · cases hs
        exact ⟨convertMode_type mode (by decide), h2, h3⟩
    have hin := ihr h4 ch hch
    rw [show n + 1 + sub.inodes + rest.inodes = n + (1 + sub.inodes + rest.inodes) by omega] at hin
    exact hin.widen (by omega)
  | file name mode reads rest ih =>
    unfold Stored at h
    rw [Listing.children, Listing.inodes]
    split at h
    · rename_i hd
      rw [if_pos hd, if_pos hd]
      exact ih h
    rename_i hd
    rw [if_neg hd, if_neg hd]
    obtain ⟨⟨h1, _⟩, h3⟩ := h
    intro ch hch
    rcases List.mem_cons.mp hch with rfl | hch
    · refine ⟨by simpa using hd, le_rfl, ?_, h1, nofun, fun _ => convertMode_type mode (by decide)⟩
      show n + 1 + 0 ≤ _
      omega
    have hin := ih h3 ch hch
    rw [show n + 1 + rest.inodes = n + (1 + rest.inodes) by omega] at hin
    exact hin.widen (by omega)
  | special name rest ih | noStat name rest ih => exact ih h

/-- Directory `d` holds the listing `l`, whose inodes are numbered from `n` on. -/
structure DirAt (f : Files) (d parent : Nat) (l : Listing) (n : Nat) : Prop where
  lo : 1 ≤ d
  hi : d < f.next
  first : 2 ≤ n
  last : n + l.inodes ≤ f.next
  isDir : f.mode d &&& S_IFMT = S_IFDIR
  data : f.data d = (dirEntries d parent l n).flatMap Dirent.bytes
  stored : Stored f l d n

theorem DirAt.root (root : Listing) : DirAt (Files.packed root) ROOTINO ROOTINO root 2 := by
  obtain ⟨hmode, hdata, hs⟩ := packed_stored root
  have hnext := Files.next_packed root
  have hroot : ROOTINO = 1 := rfl
  exact ⟨le_rfl, by omega, le_rfl, by omega, by rw [hmode]; decide, hdata, hs⟩

theorem DirAt.child {d parent : Nat} {sub : Listing} (h : DirAt f d parent l n) {ch : Child}
    (hch : ch ∈ l.children n) (hsub : ch.sub = some sub) : DirAt f ch.ino d sub (ch.ino + 1) := by
  obtain ⟨_, hlo, hhi, hmode, hdir, _⟩ := h.stored.child ch hch
  obtain ⟨htype, hdata, hs⟩ := hdir sub hsub
  have hfirst := h.first
  have hlast := h.last
  have hbelow : ch.below = sub.inodes := by unfold Child.below; rw [hsub]; rfl
  exact ⟨by omega, by omega, by omega, by omega, by rw [hmode]; exact htype, hdata, hs⟩

/-! ## Sizes of directories -/

def Listing.entries : Listing → Nat
  | .nil => 0
  | .dir name _ _ _ rest => if name.isDots then rest.entries else 1 + rest.entries
  | .file name _ _ rest => if name.isDots then rest.entries else 1 + rest.entries
  | .special _ rest => rest.entries
  | .noStat _ rest => rest.entries

theorem length_dirents (l : Listing) (n : Nat) : (l.dirents n).length = l.entries := by
  induction l generalizing n with
  | nil => rfl
  | dir name mode opens sub rest ihs ihr | file name mode reads rest ihr =>
    unfold Listing.dirents Listing.entries
    split
    · exact ihr _
    · rw [List.length_cons, ihr, Nat.add_comm]
  | special name rest ih | noStat name rest ih => exact ih _

theorem entries_le (l : Listing) : l.entries ≤ l.inodes := by
  induction l with
  | nil => exact le_rfl
  | dir name mode opens sub rest ihs ihr | file name mode reads rest ih =>
    rw [Listing.entries, Listing.inodes]
    split <;> omega
  | special name rest ih | noStat name rest ih => exact ih

theorem length_bytes (de : Dirent) : de.bytes.length = DIRENTSIZE := ByteBlock.length_read ..

theorem length_flatMap_bytes (des : List Dirent) :
    (des.flatMap Dirent.bytes).length = DIRENTSIZE * des.length := by
  induction des with
  | nil => rfl
  | cons de des ih =>
    rw [List.flatMap_cons, List.length_append,
      ih, length_bytes, List.length_cons, Nat.mul_succ, Nat.add_comm]

theorem length_dirEntries (ino parent : Nat) (l : Listing) (n : Nat) :
    ((dirEntries ino parent l n).flatMap Dirent.bytes).length = DIRENTSIZE * (2 + l.entries) := by
  rw [length_flatMap_bytes, dirEntries, List.length_cons, List.length_cons, length_dirents]
  congr 1
  omega

theorem length_root (root : Listing) :
    ((Files.packed root).data ROOTINO).length = DIRENTSIZE * (2 + root.entries) := by
  rw [(packed_stored root).2.1, length_dirEntries]

/-- No file or directory below is larger than `n` bytes. -/
def Listing.Within (n : Nat) : Listing → Prop
  | .nil => True
  | .dir _ _ _ sub rest => DIRENTSIZE * (2 + sub.entries) ≤ n ∧ sub.Within n ∧ rest.Within n
  | .file _ _ reads rest => (reads.getD []).flatten.length ≤ n ∧ rest.Within n
  | .special _ rest => rest.Within n
  | .noStat _ rest => rest.Within n

theorem Stored.within {b : Nat} (h : Stored f l ino n) (hl : l.Within b) :
    ∀ i, n ≤ i → i < n + l.inodes → (f.data i).length ≤ b := by
  induction l generalizing ino n with
  | nil => exact fun i h1 h2 => absurd h2 h1.not_gt
  | dir name mode opens sub rest ihs ihr =>
    unfold Stored at h
    unfold Listing.inodes
    split at h
    · rename_i hd
      rw [if_pos hd]
      exact ihr h hl.2.2
    rename_i hd
    rw [if_neg hd]
    obtain ⟨⟨_, h2, h3⟩, h4⟩ := h
    intro i hi hi'
    by_cases hin : i = n
    · rw [hin, h2, length_dirEntries]
      exact hl.1
    by_cases hsub : i < n + 1 + sub.inodes
    · exact ihs h3 hl.2.1 i (by omega) hsub
    · exact ihr h4 hl.2.2 i (by omega) (by omega)
  | file name mode reads rest ih =>
    unfold Stored at h
    unfold Listing.inodes
    split at h
    · rename_i hd
      rw [if_pos hd]
      exact ih h hl.2
    rename_i hd
    rw [if_neg hd]
    obtain ⟨⟨_, h2⟩, h3⟩ := h
    intro i hi hi'
    by_cases hin : i = n
    · rw [hin, h2]
      exact hl.1
    · exact ih h3 hl.2 i (by omega) (by omega)
  | special name rest ih | noStat name rest ih => exact ih h hl

/-- **`mkfs` succeeds** on a tree of few and small files. -/
theorem packs_of_within {root : Listing} {b : Nat} (hopen : root.AllOpen)
    (hino : 2 + root.inodes ≤ inodeCap)
    (hroot : DIRENTSIZE * (2 + root.entries) ≤ b) (hl : root.Within b) (hb : b ≤ MAXFILE * BSIZE)
    (hfb : nmeta + inodeCap * need b < BPB) (clock : Nat → UInt32) :
    ∃ img, Packs clock true root img := by
  have hsize : ∀ i, (Files.packed root).size i ≤ b := by
    intro i
    unfold Files.size
    split
    · rename_i hi
      rw [Files.next_packed] at hi
      by_cases hone : i = ROOTINO
      · rw [hone, length_root]
        exact hroot
      · have : ROOTINO = 1 := rfl
        exact (packed_stored root).2.2.within hl i (by omega) (by omega)
    · exact Nat.zero_le _
  have hblocks : freeblockFor (Files.packed root).size ≤ nmeta + inodeCap * need b := 
    freeblockFor_le fun i => need_mono (hsize i)
  have hBPB : BPB ≤ FSSIZE := by decide
  refine packs_of_room hopen ⟨?_, fun i => (hsize i).trans hb, by omega⟩ (by omega) clock
  rw [Files.next_packed]
  exact hino

end Micro86.Mkfs
