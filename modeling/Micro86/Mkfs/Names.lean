import Micro86.Mkfs.Entries

/-!
# Names written by `mkfs` and looked up by the kernel

`mkfs` cuts a name to `DIRSIZ - 1` bytes and a terminator; `skipelem` cuts a path element to
`DIRSIZ` bytes without one, and `namecmp` compares `DIRSIZ` bytes.

* `walk_found`, `walk_lost` — paths of short names, and paths with a name that is too long.
* `resolves_iff` — the trees of which every file and directory is found.
-/

namespace Micro86.Mkfs

open Exec Fs Image
open Micro86.Tree (cstr)

/-! ## Files, directories and paths -/

structure Place where
  path : List HostName
  ino : Nat
  mode : UInt16

def Place.under (name : HostName) (pl : Place) : Place := { pl with path := name :: pl.path }

/-- The files and directories of a listing whose first inode is number `n`. -/
def Listing.places : Listing → Nat → List Place
  | .nil, _ => []
  | .dir name mode _ sub rest, n =>
    if name.isDots then rest.places n
    else ⟨[name], n, convertMode S_IFDIR mode⟩ ::
      ((sub.places (n + 1)).map (Place.under name) ++ rest.places (n + 1 + sub.inodes))
  | .file name mode _ rest, n =>
    if name.isDots then rest.places n
      else ⟨[name], n, convertMode S_IFREG mode⟩ :: rest.places (n + 1)
  | .special _ rest, n => rest.places n
  | .noStat _ rest, n => rest.places n

/-- The names of a directory as `mkfs` truncates them. -/
def Listing.names : Listing → List (List UInt8)
  | .nil => []
  | .dir name _ _ _ rest =>
    if name.isDots then rest.names
    else name.bytes.take (DIRSIZ - 1) :: rest.names
  | .file name _ _ rest =>
    if name.isDots then rest.names
    else name.bytes.take (DIRSIZ - 1) :: rest.names
  | .special _ rest => rest.names
  | .noStat _ rest => rest.names

/-- The truncated names are distinct in every directory below. -/
def Listing.SubsDistinct : Listing → Prop
  | .nil => True
  | .dir name _ _ sub rest => (name.isDots = false → sub.names.Nodup ∧ sub.SubsDistinct) ∧
        rest.SubsDistinct
  | .file _ _ _ rest => rest.SubsDistinct
  | .special _ rest => rest.SubsDistinct
  | .noStat _ rest => rest.SubsDistinct

def Listing.Distinct (l : Listing) : Prop := l.names.Nodup ∧ l.SubsDistinct

def pathOf (xs : List HostName) : List UInt8 := xs.flatMap fun x => SLASH :: x.bytes

/-- `namei` on the image resolves the path to inode `i`, whatever is in the inode cache, and the
    inode is there, with the mode `mode`. -/
def Resolves (img : Image) (path : List UInt8) (i : Nat) (mode : UInt16) : Prop :=
  (img.dinode i).mode = mode ∧
  ∀ (env : Env) (s : State) (cwd : Ptr), env.sb = sb → s.disk = img.disk → Coherent sb s → Spare s →
    ∃ p t, namei env cwd path s = .ok (some p, t) ∧ (t.icache p).Active ∧ (t.icache p).inum = i

section Listings

variable {l : Listing} {n : Nat}

theorem names_eq (l : Listing) (n : Nat) :
    l.names = (l.children n).map fun ch => ch.name.bytes.take (DIRSIZ - 1) := by
  induction l generalizing n with
  | nil => rfl
  | dir name mode opens sub rest ihs ihr | file name mode reads rest ihr =>
    unfold Listing.names Listing.children
    split
    · exact ihr _
    · rw [List.map_cons, ← ihr]
  | special name rest ih | noStat name rest ih => exact ih _

theorem Listing.SubsDistinct.child (h : l.SubsDistinct) {ch : Child}
    (hch : ch ∈ l.children n) {sub : Listing} (hsub : ch.sub = some sub) : sub.Distinct := by
  induction l generalizing n with
  | nil => exact absurd hch List.not_mem_nil
  | dir name mode opens sub' rest ihs ihr =>
    rw [Listing.children] at hch
    split at hch
    · exact ihr h.2 hch
    rename_i hd
    rcases List.mem_cons.mp hch with rfl | hch
    · cases hsub
      exact h.1 (by simpa using hd)
    · exact ihr h.2 hch
  | file name mode reads rest ih =>
    rw [Listing.children] at hch
    split at hch
    · exact ih h hch
    rcases List.mem_cons.mp hch with rfl | hch
    · cases hsub
    · exact ih h hch
  | special name rest ih | noStat name rest ih => exact ih h hch

/-- A place is a child, or below one. -/
inductive Child.Has (ch : Child) : Place → Prop where
  | self : ch.Has ⟨[ch.name], ch.ino, ch.mode⟩
  | below (sub : Listing) (pl : Place) (hsub : ch.sub = some sub)
      (hpl : pl ∈ sub.places (ch.ino + 1)) : ch.Has (pl.under ch.name)

theorem mem_places {pl : Place} (h : pl ∈ l.places n) : ∃ ch ∈ l.children n, ch.Has pl := by
  induction l generalizing n with
  | nil => exact absurd h List.not_mem_nil
  | dir name mode opens sub rest ihs ihr =>
    rw [Listing.places] at h
    rw [Listing.children]
    split at h
    · rename_i hd
      rw [if_pos hd]
      exact ihr h
    rename_i hd
    rw [if_neg hd]
    rcases List.mem_cons.mp h with rfl | h
    · exact ⟨⟨name, n, convertMode S_IFDIR mode, some sub⟩, .head _, .self⟩
    rcases List.mem_append.mp h with h | h
    · obtain ⟨pl', hpl, rfl⟩ := List.mem_map.mp h
      exact ⟨⟨name, n, convertMode S_IFDIR mode, some sub⟩, .head _, .below sub pl' rfl hpl⟩
    · obtain ⟨ch, hch, hh⟩ := ihr h
      exact ⟨ch, .tail _ hch, hh⟩
  | file name mode reads rest ih =>
    rw [Listing.places] at h
    rw [Listing.children]
    split at h
    · rename_i hd
      rw [if_pos hd]
      exact ih h
    rename_i hd
    rw [if_neg hd]
    rcases List.mem_cons.mp h with rfl | h
    · exact ⟨⟨name, n, convertMode S_IFREG mode, none⟩, .head _, .self⟩
    · obtain ⟨ch, hch, hh⟩ := ih h
      exact ⟨ch, .tail _ hch, hh⟩
  | special name rest ih | noStat name rest ih => exact ih h

theorem exists_place {i : Nat} (h1 : n ≤ i) (h2 : i < n + l.inodes) :
    ∃ pl ∈ l.places n, pl.ino = i := by
  induction l generalizing n with
  | nil => exact absurd h2 h1.not_gt
  | dir name mode opens sub rest ihs ihr =>
    rw [Listing.inodes] at h2
    rw [Listing.places]
    split at h2
    · rename_i hd
      rw [if_pos hd]
      exact ihr h1 h2
    rename_i hd
    rw [if_neg hd]
    by_cases hn : i = n
    · exact ⟨⟨[name], n, convertMode S_IFDIR mode⟩, .head _, hn.symm⟩
    by_cases hsub : i < n + 1 + sub.inodes
    · obtain ⟨pl, hpl, hi⟩ := @ihs (n + 1) (by omega) hsub
      exact ⟨pl.under name, .tail _ (List.mem_append_left _ (List.mem_map_of_mem hpl)), hi⟩
    · obtain ⟨pl, hpl, hi⟩ := @ihr (n + 1 + sub.inodes) (by omega) (by omega)
      exact ⟨pl, .tail _ (List.mem_append_right _ hpl), hi⟩
  | file name mode reads rest ih =>
    rw [Listing.inodes] at h2
    rw [Listing.places]
    split at h2
    · rename_i hd
      rw [if_pos hd]
      exact ih h1 h2
    rename_i hd
    rw [if_neg hd]
    by_cases hn : i = n
    · exact ⟨⟨[name], n, convertMode S_IFREG mode⟩, .head _, hn.symm⟩
    · obtain ⟨pl, hpl, hi⟩ := @ih (n + 1) (by omega) (by omega)
      exact ⟨pl, .tail _ hpl, hi⟩
  | special name rest ih | noStat name rest ih => exact ih h1 h2

end Listings

/-! ## Path elements -/

section Elements

/-- The path continues with the elements `xs`, perhaps after slashes. -/
def Spells (path : List UInt8) (xs : List HostName) : Prop :=
  path.dropWhile (· == SLASH) = (pathOf xs).dropWhile (· == SLASH)

theorem HostName.dropWhile_slash (x : HostName) (rest : List UInt8) :
    (x.bytes ++ rest).dropWhile (· == SLASH) = x.bytes ++ rest := by
  obtain ⟨b, bs, hb⟩ := List.exists_cons_of_ne_nil x.nonempty
  have hne : ¬ (b == SLASH) = true :=
    fun he => x.noSlash (by rw [hb, ← beq_iff_eq.mp he]; exact .head _)
  rw [hb, List.cons_append, List.dropWhile_cons_of_neg (p := (· == SLASH)) hne]

theorem dropWhile_pathOf_cons (x : HostName) (xs : List HostName) :
    (pathOf (x :: xs)).dropWhile (· == SLASH) = x.bytes ++ pathOf xs := by
  have hdef : pathOf (x :: xs) = SLASH :: (x.bytes ++ pathOf xs) := rfl
  rw [hdef, List.dropWhile_cons_of_pos (p := (· == SLASH)) (beq_self_eq_true SLASH),
    x.dropWhile_slash]

theorem HostName.takeWhile_slash (x : HostName) (xs : List HostName) :
    (x.bytes ++ pathOf xs).takeWhile (· != SLASH) = x.bytes ∧
    (x.bytes ++ pathOf xs).dropWhile (· != SLASH) = pathOf xs := by
  have hall : ∀ b ∈ x.bytes, (b != SLASH) = true :=
    fun b hb => bne_iff_ne.mpr fun he => x.noSlash (he ▸ hb)
  have hstop : (pathOf xs).takeWhile (· != SLASH) = [] ∧
      (pathOf xs).dropWhile (· != SLASH) = pathOf xs := by
    cases xs with
    | nil => exact ⟨rfl, rfl⟩
    | cons y ys =>
      have hdef : pathOf (y :: ys) = SLASH :: (y.bytes ++ pathOf ys) := rfl
      rw [hdef, List.takeWhile_cons_of_neg (by decide), List.dropWhile_cons_of_neg (by decide)]
      exact ⟨rfl, rfl⟩
  constructor
  · rw [List.takeWhile_append_of_pos hall, hstop.1, List.append_nil]
  · rw [List.dropWhile_append_of_pos hall, hstop.2]

theorem Spells.nil {path : List UInt8} (h : Spells path []) : skipelem path = none := by
  unfold skipelem
  rw [show path.dropWhile (· == SLASH) = [] from h]

theorem Spells.cons {path : List UInt8} {x : HostName} {xs : List HostName}
    (h : Spells path (x :: xs)) :
    ∃ path', skipelem path = some (x.bytes.take DIRSIZ, path') ∧ Spells path' xs := by
  obtain ⟨htake, hdrop⟩ := x.takeWhile_slash xs
  have hpath : path.dropWhile (· == SLASH) = x.bytes ++ pathOf xs :=
    h.trans (dropWhile_pathOf_cons x xs)
  obtain ⟨b, bs, hb⟩ :=
    List.exists_cons_of_ne_nil (show x.bytes ++ pathOf xs ≠ [] by simp [x.nonempty])
  refine ⟨(pathOf xs).dropWhile (· == SLASH), ?_, ?_⟩
  · rw [hb] at hpath htake hdrop
    unfold skipelem
    rw [hpath]
    show some ((List.takeWhile (· != SLASH) (b :: bs)).take DIRSIZ, _) = _
    rw [htake, hdrop]
  · unfold Spells
    cases xs with
    | nil => rfl
    | cons y ys => rw [dropWhile_pathOf_cons, y.dropWhile_slash]

theorem length_le_pathOf (xs : List HostName) : xs.length ≤ (pathOf xs).length := by
  induction xs with
  | nil => exact le_rfl
  | cons x xs ih =>
    have hdef : pathOf (x :: xs) = SLASH :: (x.bytes ++ pathOf xs) := rfl
    rw [hdef, List.length_cons, List.length_cons, List.length_append]
    omega

end Elements

/-! ## Entries -/

section Entries

theorem hasName_iff {elem : List UInt8} {de : Dirent} :
    hasName elem de = true ↔ de.ino ≠ 0 ∧ cstr DIRSIZ elem = cstr DIRSIZ de.name := by
  unfold hasName
  rw [Bool.and_eq_true, bne_iff_ne, beq_iff_eq, Tree.namecmp_eq_zero]

theorem HostName.cstr_take (x : HostName) :
    cstr DIRSIZ (x.bytes.take DIRSIZ) = x.bytes.take DIRSIZ := by
  rw [cstr_of_noNul _ fun h => x.noNul (List.mem_of_mem_take h), List.take_take, Nat.min_self]

theorem hasName_child (x : HostName) (ch : Child) :
    hasName (x.bytes.take DIRSIZ) ch.dirent = true ↔ ch.ino % 65536 ≠ 0 ∧
      x.bytes.take DIRSIZ = ch.name.bytes.take (DIRSIZ - 1) := by
  rw [hasName_iff, x.cstr_take, Child.dirent, cstr_direntFor, direntFor_ino]

theorem hasName_dots {x : HostName} (hx : x.isDots = false) {nm : List UInt8}
    (hnm : nm = DOT ∨ nm = DOTDOT) (i : Nat) :
    hasName (x.bytes.take DIRSIZ) (dotFor nm i) = false := by
  rw [Bool.eq_false_iff]
  intro h
  obtain ⟨_, he⟩ := hasName_iff.mp h
  rw [x.cstr_take, cstr_dotFor hnm] at he
  have hlen : nm.length < DIRSIZ := by rcases hnm with rfl | rfl <;> decide
  have hshort : x.bytes.length ≤ DIRSIZ := by
    have := congrArg List.length he
    rw [List.length_take] at this
    omega
  rw [List.take_of_length_le hshort] at he
  unfold HostName.isDots at hx
  rcases hnm with rfl | rfl <;> simp [he] at hx

variable {f : Files} {d parent n : Nat} {l : Listing}

theorem length_children (l : Listing) (n : Nat) : (l.children n).length = l.entries := by
  rw [← length_dirents l n, dirents_eq, List.length_map]

variable (h : DirAt f d parent l n)
include h

theorem DirAt.dent (c : List UInt8) {j : Nat} (hj : j < 2 + (l.children n).length) :
    dent (f.data d ++ c) j = dotFor DOT d ∧ j = 0 ∨
      dent (f.data d ++ c) j = dotFor DOTDOT parent ∧ j = 1 ∨
      ∃ k ch, (l.children n)[k]? = some ch ∧ dent (f.data d ++ c) j = ch.dirent ∧ j = k + 2 := by
  have hlen : (dirEntries d parent l n).length = 2 + (l.children n).length := by
    rw [dirEntries, List.length_cons, List.length_cons, dirents_eq, List.length_map]
    omega
  rw [h.data, dent_flatMap _ c (by rw [hlen]; exact hj)]
  rcases j with _ | _ | k
  · exact .inl ⟨rfl, rfl⟩
  · exact .inr (.inl ⟨rfl, rfl⟩)
  · have hk' : k < (l.children n).length := by omega
    refine .inr (.inr ⟨k, (l.children n)[k], List.getElem?_eq_getElem hk', ?_, rfl⟩)
    simp [dirEntries, dirents_eq]

theorem DirAt.length_data : (f.data d).length = DIRENTSIZE * (2 + (l.children n).length) := by
  rw [h.data, length_dirEntries, length_children]

theorem DirAt.found (hcap : f.next ≤ inodeCap) (hd : l.names.Nodup) {k : Nat} {ch : Child}
    (hk : (l.children n)[k]? = some ch) (hshort : ch.name.bytes.length < DIRSIZ) :
    DIRENTSIZE * (k + 2) + DIRENTSIZE ≤ (f.data d).length ∧
      hasName (ch.name.bytes.take DIRSIZ) (Fs.dent (f.data d) (k + 2)) = true ∧
      (Fs.dent (f.data d) (k + 2)).ino = ch.ino ∧ ∀ j, j < k + 2 →
      hasName (ch.name.bytes.take DIRSIZ) (Fs.dent (f.data d) j) = false := by
  have hlt : k < (l.children n).length := (List.getElem?_eq_some_iff.mp hk).1
  have hmem := List.mem_of_getElem? hk
  obtain ⟨hdots, hlo, hhi, _, _, _⟩ := h.stored.child ch hmem
  have hcapv : inodeCap = 225 := by decide
  have hfirst := h.first
  have hlast := h.last
  have hino : ch.ino % 65536 = ch.ino := Nat.mod_eq_of_lt (by omega)
  have hcut : ch.name.bytes.take DIRSIZ = ch.name.bytes.take (DIRSIZ - 1) := by
    rw [List.take_of_length_le (by omega), List.take_of_length_le (by omega)]
  have hdent : ∀ j, j < 2 + (l.children n).length → _ := fun j hj => h.dent [] hj
  simp only [List.append_nil] at hdent
  refine ⟨?_, ?_, ?_, fun j hj => ?_⟩
  · rw [h.length_data, ← Nat.mul_succ]
    exact Nat.mul_le_mul_left _ (by omega)
  · rcases hdent (k + 2) (by omega) with ⟨_, hj⟩ | ⟨_, hj⟩ | ⟨k', ch', hk', he, hj⟩
    · omega
    · omega
    obtain rfl : k = k' := by omega
    obtain rfl : ch = ch' := Option.some.inj (hk.symm.trans hk')
    rw [he, hasName_child, hino]
    exact ⟨by omega, hcut⟩
  · rcases hdent (k + 2) (by omega) with ⟨_, hj⟩ | ⟨_, hj⟩ | ⟨k', ch', hk', he, hj⟩
    · omega
    · omega
    obtain rfl : k = k' := by omega
    obtain rfl : ch = ch' := Option.some.inj (hk.symm.trans hk')
    rw [he, Child.dirent, direntFor_ino, hino]
  · rcases hdent j (by omega) with ⟨he, _⟩ | ⟨he, _⟩ | ⟨k', ch', hk', he, hj'⟩
    · rw [he]
      exact hasName_dots hdots (.inl rfl) d
    · rw [he]
      exact hasName_dots hdots (.inr rfl) parent
    rw [he, Bool.eq_false_iff]
    intro hhas
    obtain ⟨_, heq⟩ := (hasName_child ch.name ch').mp hhas
    rw [hcut] at heq
    -- two entries in front of each other have different names
    rw [names_eq l n] at hd
    have hget : ∀ {a : Nat} {c : Child}, (l.children n)[a]? = some c →
        ((l.children n).map fun ch => ch.name.bytes.take (DIRSIZ - 1))[a]? =
        some (c.name.bytes.take (DIRSIZ - 1)) := by
      intro a c hc
      rw [List.getElem?_map, hc]
      rfl
    have hkk :
        k = k' := (List.getElem?_inj (by rw [List.length_map]; exact hlt) hd).mp ((hget hk).trans
      ((congrArg some heq).trans (hget hk').symm))
    omega

theorem DirAt.absent {x : HostName} (hlong : DIRSIZ ≤ x.bytes.length) (c : List UInt8) {j : Nat}
    (hj : j < 2 + (l.children n).length) :
    hasName (x.bytes.take DIRSIZ) (Fs.dent (f.data d ++ c) j) = false := by
  have hdots : x.isDots = false := by
    unfold HostName.isDots
    rw [Bool.or_eq_false_iff, beq_eq_false_iff_ne, beq_eq_false_iff_ne]
    constructor
    · intro he
      rw [he] at hlong
      exact absurd hlong (by decide)
    · intro he
      rw [he] at hlong
      exact absurd hlong (by decide)
  rcases h.dent c hj with ⟨he, _⟩ | ⟨he, _⟩ | ⟨k, ch, _, he, _⟩
  · rw [he]
    exact hasName_dots hdots (.inl rfl) d
  · rw [he]
    exact hasName_dots hdots (.inr rfl) parent
  rw [he, Bool.eq_false_iff]
  intro hhas
  have hlen := congrArg List.length ((hasName_child x ch).mp hhas).2
  rw [List.length_take, List.length_take] at hlen
  have hD : DIRSIZ = 20 := rfl
  omega

end Entries

/-! ## Walks on the image -/

section Walks

variable {img : Image} {root : Listing} {env : Env} {s : State} (his : img.Is (Files.packed root))
  (hfit : (Files.packed root).next ≤ inodeCap) (henv : env.sb = sb)
  (hdisk : s.disk = img.finish.disk) (hs : Spare s)

include hdisk in
theorem dinode_finish (i : Nat) : s.dinode sb i = img.finish.dinode i := by
  unfold State.dinode Image.dinode
  rw [hdisk]

include his hfit hdisk in
theorem DirAt.kernel {d parent n : Nat} {l : Listing} (h : DirAt (Files.packed root) d parent l n) :
    (s.dinode sb d).isDir ∧ (s.dinode sb d).nlink ≠ 0 ∧
    Begins s.disk (s.dinode sb d) ((Files.packed root).data d) := by
  obtain ⟨hmode, hnlink, _⟩ := finish_mode his hfit h.lo h.hi
  rw [dinode_finish hdisk, hdisk]
  refine ⟨?_, by rw [hnlink]; decide, finish_begins his hfit h.lo h.hi⟩
  unfold Inode.isDir
  rw [hmode]
  exact h.isDir

include his hfit henv hdisk hs

/-- **A path of short names** leads to the inode. -/
theorem walk_found (xs : List HostName) {d parent n fuel : Nat}
    {l : Listing} {pl : Place} {p : Ptr} {t : State}
    {path nm : List UInt8} (hpl : pl ∈ l.places n) (hxs : pl.path = xs)
    (h : DirAt (Files.packed root) d parent l n)
    (hdist : l.Distinct) (hshort : ∀ x ∈ xs, x.bytes.length < DIRSIZ)
    (hspells : Spells path xs) (hfuel : xs.length < fuel)
    (hw : Walking sb s p d t) :
    ∃ q u nm', namexLoop env false fuel p path nm t = .ok (some (q, nm'), u) ∧
      Walking sb s q pl.ino u := by
  induction xs generalizing d parent n fuel l pl p t path nm with
  | nil =>
    obtain ⟨ch, _, hhas⟩ := mem_places hpl
    cases hhas <;> cases hxs
  | cons x xs ih =>
    obtain ⟨ch, hch, hhas⟩ := mem_places hpl
    obtain ⟨k, hk⟩ := List.getElem?_of_mem hch
    obtain ⟨path', hskip, hspells'⟩ := hspells.cons
    obtain ⟨fuel, rfl⟩ := Nat.exists_eq_add_of_lt hfuel
    obtain ⟨hdir, hlinked, hb⟩ := h.kernel his hfit hdisk
    have hname : x = ch.name := by
      cases hhas with
      | self | below sub pl' _ _ => exact (List.cons.inj hxs).1.symm
    subst hname
    obtain ⟨hin, hm, hino, hbefore⟩ := h.found hfit hdist.1 hk (hshort _ List.mem_cons_self)
    rw [← henv] at hdir hlinked hb hw
    obtain ⟨q, u, hstep, hw'⟩ :=
      @Walking.step env s t p d _ _ nm path path' hs hw hdir hlinked hb hskip _ hin hm hbefore
      ((ch.name :: xs).length + fuel)
    rw [hino, henv] at hw'
    rw [hstep]
    cases hhas with
    | self =>
      obtain rfl : xs = [] := (List.cons.inj hxs).2.symm
      refine ⟨q, u, ch.name.bytes.take DIRSIZ, ?_, hw'⟩
      rw [show ([ch.name].length + fuel) = fuel +
        1 by rw [List.length_singleton, Nat.add_comm], namexLoop, hspells'.nil]
      rfl
    | below sub pl' hsub hpl' =>
      exact @ih ch.ino d (ch.ino + 1) ((ch.name :: xs).length + fuel)
        sub pl' q u path' (ch.name.bytes.take DIRSIZ) hpl'
        (List.cons.inj hxs).2 (h.child hch hsub) (hdist.2.child hch hsub)
          (fun y hy => hshort y (.tail _ hy)) hspells'
        (by rw [List.length_cons]; omega) hw'

omit hs in
theorem dirlookup_long (ho : s.outstanding = 0) {d parent n : Nat}
    {l : Listing} (h : DirAt (Files.packed root) d parent l n)
    {x : HostName} (hlong : DIRSIZ ≤ x.bytes.length) {p : Ptr}
    {u : State} (hd : u.disk = s.disk) (huo : u.outstanding = s.outstanding)
    (hino : (u.icache p).ino.core = (s.dinode env.sb d).core) :
    wp (dirlookup env p (x.bytes.take DIRSIZ)) (fun r _ => r = none) (fun _ => True) u := by
  obtain ⟨hdir, _, hb⟩ := h.kernel his hfit hdisk
  rw [henv] at hino
  obtain ⟨hmode, _, hsize, haddrs⟩ := Inode.of_core hino
  have hdir' : (u.icache p).ino.isDir := by
    unfold Inode.isDir at hdir ⊢
    rw [hmode]
    exact hdir
  have hb' : Begins u.disk (u.icache p).ino ((Files.packed root).data d) := by
    rw [hd]
    exact hb.congr hino
  have hlen := h.length_data
  have hD := DIRENTSIZE_eq
  have hentry : ∀ {len j : Nat}, len = DIRENTSIZE * (2 + (l.children n).length) →
      DIRENTSIZE * j + DIRENTSIZE ≤ len → j < 2 + (l.children n).length := by
    intro len j he hle
    rw [he, ← Nat.mul_succ] at hle
    exact Nat.le_of_mul_le_mul_left hle (by omega)
  have hsz := finish_size his hfit h.lo h.hi
  rw [← dinode_finish hdisk, ← hsize] at hsz
  by_cases hroot : d = ROOTINO
  · subst hroot
    rw [if_pos rfl] at hsz
    by_cases hfull : ((Files.packed root).data ROOTINO).length % BSIZE = 0
    · have hhole := finish_root_unmapped his hfull
      have hB := BSIZE_eq
      refine wp.mono
        (dirlookup_unmapped hb' hdir' (huo.trans ho) hlen (fun j hj => ?_) ?_ fun hlt => ?_)
        (fun _ _ hf => hf.elim) fun _ h => h
      · have := h.absent hlong [] hj
        rwa [List.append_nil] at this
      · rw [hsz, Nat.add_mul, Nat.one_mul, Nat.div_mul_cancel (Nat.dvd_of_mod_eq_zero hfull)]
        omega
      · rw [← hhole hlt, hd, hdisk]
        unfold fileBlock Inode.indirect
        rw [haddrs, dinode_finish hdisk]
    · have hr := finish_root_reads his hfit hfull
      rw [← dinode_finish hdisk, ← hdisk] at hr
      have hr' : Reads u.disk (u.icache p).ino ((Files.packed root).data ROOTINO ++
          List.replicate
            ((s.dinode sb ROOTINO).size.toNat - ((Files.packed root).data ROOTINO).length) 0) := by
        rw [hd]
        exact ⟨hr.toBegins.congr hino, by rw [hsize]; exact hr.size⟩
      refine dirlookup_absent hr' hdir' fun j hj => ?_
      by_cases hjn : j < 2 + (l.children n).length
      · exact h.absent hlong _ hjn
      have hfree := dent_zeros (dirEntries ROOTINO parent l n)
        ((s.dinode sb ROOTINO).size.toNat - ((Files.packed root).data ROOTINO).length) (k := j) (by
          rw [dirEntries, List.length_cons, List.length_cons, dirents_eq, List.length_map]
          omega)
      rw [← h.data] at hfree
      rw [hfree, Bool.eq_false_iff]
      exact fun hhas => (hasName_iff.mp hhas).1 (ByteBlock.u16_zero 0)
  · rw [if_neg hroot] at hsz
    have hr' : Reads u.disk (u.icache p).ino ((Files.packed root).data d) := ⟨hb', hsz⟩
    refine dirlookup_absent hr' hdir' fun j hj => ?_
    have := h.absent hlong [] (hentry hlen hj)
    rwa [List.append_nil] at this

/-- **A path with a name that is too long** leads nowhere. -/
theorem walk_lost (ho : s.outstanding = 0) (xs : List HostName)
    {d parent n fuel : Nat} {l : Listing} {pl : Place} {p : Ptr} {t : State}
    {path nm : List UInt8} (hpl : pl ∈ l.places n) (hxs : pl.path = xs)
    (h : DirAt (Files.packed root) d parent l n)
    (hdist : l.Distinct) (hlong : ∃ x ∈ xs, DIRSIZ ≤ x.bytes.length)
    (hspells : Spells path xs) (hw : Walking sb s p d t) :
    wp (namexLoop env false fuel p path nm) (fun r _ => r = none) (fun _ => True) t := by
  induction xs generalizing d parent n fuel l pl p t path nm with
  | nil =>
    obtain ⟨_, hx, _⟩ := hlong
    exact absurd hx List.not_mem_nil
  | cons x xs ih =>
    cases fuel with
    | zero => rfl
    | succ fuel =>
      obtain ⟨path', hskip, hspells'⟩ := hspells.cons
      obtain ⟨hdir, hlinked, hb⟩ := h.kernel his hfit hdisk
      by_cases hx : DIRSIZ ≤ x.bytes.length
      · rw [← henv] at hdir hw
        exact hw.lost hs hdir hskip (fun u => dirlookup_long his hfit henv hdisk ho h hx) fuel
      obtain ⟨ch, hch, hhas⟩ := mem_places hpl
      obtain ⟨k, hk⟩ := List.getElem?_of_mem hch
      have hlong' : ∃ y ∈ xs, DIRSIZ ≤ y.bytes.length := by
        obtain ⟨y, hy, hyl⟩ := hlong
        rcases List.mem_cons.mp hy with rfl | hy
        · exact absurd hyl hx
        · exact ⟨y, hy, hyl⟩
      cases hhas with
      | self =>
        obtain rfl : xs = [] := (List.cons.inj hxs).2.symm
        obtain ⟨_, hy, _⟩ := hlong'
        exact absurd hy List.not_mem_nil
      | below sub pl' hsub hpl' =>
        obtain rfl : x = ch.name := (List.cons.inj hxs).1.symm
        obtain ⟨hin, hm, hino, hbefore⟩ := h.found hfit hdist.1 hk (Nat.lt_of_not_le hx)
        rw [← henv] at hdir hlinked hb hw
        obtain ⟨q, u, hstep, hw'⟩ := @Walking.step env s t p
            d _ _ nm path path' hs hw hdir hlinked hb hskip _ hin hm hbefore fuel
        rw [hino, henv] at hw'
        unfold wp
        rw [hstep]
        exact ih hpl' (List.cons.inj hxs).2 (h.child hch hsub)
          (hdist.2.child hch hsub) hlong' hspells' hw'

end Walks

/-! ## Which names are found -/

section Resolution

variable {img : Image} {root : Listing}

/-- With more inodes than fit, the bitmap is written over one of them. -/
theorem overwritten_inode {clock : Nat → UInt32} {opens : Bool} (h : Packs clock opens root img) :
    (img.dinode inodeCap).mode = 0xffff := by
  obtain ⟨used, hlo, hhi, hbitmap⟩ := h.packed.bitmap
  have hmeta : nmeta = 45 := by decide
  have hbyte : ∀ k, k < 2 → (bitmap used).byte k = 0xff := by
    intro k hk
    rw [← UInt8.toBitVec_inj]
    refine BitVec.eq_of_getLsbD_eq fun j hj => ?_
    have hbit := bit_bitmap hhi.le (8 * k + j)
    rw [ByteBlock.bit_eq, decide_eq_true (show 8 * k + j < used by omega),
      show (8 * k + j) / 8 = k by omega, show (8 * k + j) % 8 = j by omega] at hbit
    rw [hbit]
    have hones : ∀ j < 8, true = (255 : UInt8).toBitVec.getLsbD j := by decide
    exact hones j hj
  have hblock : img.dinode inodeCap = readInode (bitmap used) 0 := by
    rw [← hbitmap]
    rfl
  rw [hblock]
  show UInt16.ofNat ((bitmap used).u16 0) = _
  unfold ByteBlock.u16
  rw [hbyte 0 (by decide), hbyte 1 (by decide)]
  decide

theorem Stored.place {f : Files} (xs : List HostName) {l : Listing}
    {d n : Nat} {pl : Place} (h : Stored f l d n) (hpl : pl ∈ l.places n) (hxs : pl.path = xs) :
    n ≤ pl.ino ∧ pl.ino < n + l.inodes ∧ f.mode pl.ino = pl.mode ∧
      (pl.mode &&& S_IFMT = S_IFDIR ∨ pl.mode &&& S_IFMT = S_IFREG) := by
  induction xs generalizing l d n pl with
  | nil =>
    obtain ⟨ch, _, hhas⟩ := mem_places hpl
    cases hhas <;> cases hxs
  | cons x xs ih =>
    obtain ⟨ch, hch, hhas⟩ := mem_places hpl
    obtain ⟨_, hlo, hhi, hmode, hdir, hfile⟩ := h.child ch hch
    cases hhas with
    | self =>
      refine ⟨hlo, ?_, hmode, ?_⟩
      · show ch.ino < _
        omega
      · cases hsub : ch.sub with
        | none => exact .inr (hfile hsub)
        | some sub => exact .inl (hdir sub hsub).1
    | below sub pl' hsub hpl' =>
      have hbelow : ch.below = sub.inodes := by unfold Child.below; rw [hsub]; rfl
      obtain ⟨h1, h2, h3, h4⟩ :=
        @ih sub ch.ino (ch.ino + 1) pl' (hdir sub hsub).2.2 hpl' (List.cons.inj hxs).2
      refine ⟨?_, ?_, h3, h4⟩
      · show n ≤ pl'.ino
        omega
      · show pl'.ino < _
        omega

theorem namex_absolute {env : Env} {s t : State} {cwd p : Ptr}
    {xs : List HostName} (hne : xs ≠ []) (hget : iget ROOTINO s = .ok (p, t)) :
    namex env cwd (pathOf xs) false s =
      namexLoop env false ((pathOf xs).length + 1) p (pathOf xs) [] t := by
  obtain ⟨x, ys, rfl⟩ := List.exists_cons_of_ne_nil hne
  have hhead : (pathOf (x :: ys)).headD 0 = SLASH := rfl
  unfold namex
  rw [if_pos hhead, bind_of_ok hget]

theorem path_ne_nil {l : Listing} {n : Nat} {pl : Place} (h : pl ∈ l.places n) : pl.path ≠ [] := by
  obtain ⟨ch, _, hhas⟩ := mem_places h
  cases hhas <;> exact List.cons_ne_nil _ _

theorem boot_coherent (img : Image) : Coherent sb img.boot :=
  ⟨(boot_icache img).unique, fun p ha hv => (boot_icache img).through p ha hv nofun⟩

theorem boot_spare (img : Image) : Spare img.boot :=
  ⟨fun _ => Int.le_refl 0, ⟨0, by decide⟩, ⟨1, by decide⟩, by decide, rfl, rfl⟩

variable (his : img.Is (Files.packed root)) (hfit : (Files.packed root).next ≤ inodeCap)
  (hdist : root.Distinct) {pl : Place} (hpl : pl ∈ root.places 2)

include his hfit hdist hpl

theorem resolves_short (hshort : ∀ x ∈ pl.path, x.bytes.length < DIRSIZ) :
    Resolves img.finish (pathOf pl.path) pl.ino pl.mode := by
  obtain ⟨h1, h2, hmode, _⟩ := (packed_stored root).2.2.place pl.path hpl rfl
  have hnext := Files.next_packed root
  refine ⟨by rw [(finish_mode his hfit (by omega) (by omega)).1,
    hmode], fun env s cwd henv hdisk hc hs => ?_⟩
  obtain ⟨p, t, hget, hw⟩ := hs.begins hc ROOTINO
  obtain ⟨q, u, nm, hwalk, hu⟩ := @walk_found img root env s
      his hfit henv hdisk hs pl.path ROOTINO ROOTINO 2 _ root pl p t (pathOf pl.path) []
    hpl rfl (DirAt.root root) hdist hshort rfl (Nat.lt_succ_of_le (length_le_pathOf pl.path)) hw
  refine ⟨q, u, ?_, hs.active hu, hu.inum⟩
  unfold namei
  rw [bind_of_ok ((namex_absolute (path_ne_nil hpl) hget).trans hwalk)]
  rfl

theorem not_resolves_long (hlong : ∃ x ∈ pl.path, DIRSIZ ≤ x.bytes.length)
    (i : Nat) (mode : UInt16) : ¬ Resolves img.finish (pathOf pl.path) i mode := by
  intro hr
  let env : Env := ⟨sb, 0, fun _ => none, fun _ => none, fun _ => ByteBlock.zero⟩
  obtain ⟨p, t, hget, hw⟩ := (boot_spare img.finish).begins (boot_coherent img.finish) ROOTINO
  obtain ⟨q, u, hok, _⟩ := hr.2 env img.finish.boot p rfl rfl (boot_coherent _) (boot_spare _)
  have hlost : wp (namex env p (pathOf pl.path) false) (fun r _ => r = none)
      (fun _ => True) img.finish.boot := by
    unfold wp
    rw [namex_absolute (path_ne_nil hpl) hget]
    exact @walk_lost img root env img.finish.boot his hfit rfl
      rfl (boot_spare _) rfl pl.path ROOTINO ROOTINO 2 _ root pl p t _ _
      hpl rfl (DirAt.root root) hdist hlong rfl hw
  have hnamei :
      wp (namei env p (pathOf pl.path)) (fun r _ => r = none) (fun _ => True) img.finish.boot := by
    refine wp.seq hlost ?_
    rintro r v rfl
    rfl
  cases hnamei.of_ok hok

end Resolution

/-- **The trees whose names are found**: the inodes fit, and no name has `DIRSIZ` bytes or more. -/
theorem resolves_iff {clock : Nat → UInt32} {opens : Bool} {root : Listing}
    {img : Image} (h : Packs clock opens root img) (hdist : root.Distinct) :
    (∀ pl ∈ root.places 2, Resolves img (pathOf pl.path) pl.ino pl.mode) ↔
      2 + root.inodes ≤ inodeCap ∧ ∀ pl ∈ root.places 2, ∀ x ∈ pl.path,
        x.bytes.length < DIRSIZ := by
  have hpacked := h.packed
  constructor
  · intro hall
    have hfit : 2 + root.inodes ≤ inodeCap := by
      refine Nat.le_of_not_lt fun hgt => ?_
      obtain ⟨pl, hpl, hino⟩ := @exists_place root 2 inodeCap (by decide) hgt
      have hmode := (hall pl hpl).1
      have htype := ((packed_stored root).2.2.place pl.path hpl rfl).2.2.2
      rw [hino, overwritten_inode h] at hmode
      rw [← hmode] at htype
      revert htype
      decide
    obtain ⟨img0, his, _, rfl⟩ := hpacked.fits hfit
    refine ⟨hfit, fun pl hpl x hx => Nat.lt_of_not_le fun hlong => ?_⟩
    exact not_resolves_long his (by rw [Files.next_packed]; exact hfit)
      hdist hpl ⟨x, hx, hlong⟩ _ _ (hall pl hpl)
  · rintro ⟨hfit, hshort⟩ pl hpl
    obtain ⟨img0, his, _, rfl⟩ := hpacked.fits hfit
    exact resolves_short his (by rw [Files.next_packed]; exact hfit) hdist hpl (hshort pl hpl)

/-- One file with a short name. -/
theorem resolves_aa : ∃ img, Packs (fun _ => 0) true (emptyFiles 1) img ∧ (emptyFiles 1).Distinct ∧
    ∀ pl ∈ (emptyFiles 1).places 2, Resolves img (pathOf pl.path) pl.ino pl.mode := by
  obtain ⟨img, h⟩ := packs_emptyFiles (by decide : 1 ≤ 223) fun _ => 0
  have hdist : (emptyFiles 1).Distinct := ⟨by decide +kernel, trivial⟩
  refine ⟨img, h, hdist, (resolves_iff h hdist).mpr ⟨by decide +kernel, fun pl hpl x hx => ?_⟩⟩
  rw [List.mem_singleton.mp hpl] at hx
  rw [List.mem_singleton.mp hx]
  decide

def longName : HostName := ⟨List.replicate DIRSIZ 97, by decide, by decide, by decide⟩

/-- One empty file of that name: the kernel does not find it. -/
theorem long_name_lost : ∃ img, Packs (fun _ => 0) true (.file longName 0o644 (some []) .nil) img ∧
    (Listing.file longName 0o644 (some []) .nil).Distinct ∧
    ¬ Resolves img (pathOf [longName]) 2 (convertMode S_IFREG 0o644) := by
  have hdist : (Listing.file longName 0o644 (some []) .nil).Distinct := ⟨by decide, trivial⟩
  obtain ⟨img, h⟩ :=
    @packs_of_within (.file longName 0o644 (some []) .nil) BSIZE trivial (by decide) (by decide)
    ⟨Nat.zero_le _, trivial⟩ (by decide) (by decide) fun _ => 0
  refine ⟨img, h, hdist, ?_⟩
  obtain ⟨img0, his, _, rfl⟩ := h.packed.fits (by decide)
  exact not_resolves_long his (by decide) hdist List.mem_cons_self
    ⟨longName, .head _, by decide⟩ _ _

end Micro86.Mkfs
