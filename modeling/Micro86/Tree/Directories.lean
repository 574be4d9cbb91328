import Micro86.Tree.Forest

/-!
# Making and removing directories

The two edits that change which directories there are; each touches two inodes at once.

* `Adds` — a new directory with `.` and `..` is entered in its parent, whose link count goes up
  for the `..`.
-/

namespace Micro86.Tree

open Fs (S_IFMT S_IFDIR DOT DOTDOT asShort)
open Function

variable {j c : Nat}

variable {N : Nat} {node : Nat → Node} {d i k : Nat} {n m : Node}

theorem noLink (j : Nat) : (if (none : Option Nat) = some j then (1 : Int) else 0) = 0 :=
  if_neg (by simp)

/-- The tree after inode `i` became `n` and then directory `d` became `m`. -/
abbrev after (node : Nat → Node) (d i : Nat) (n m : Node) : Nat → Node :=
  update (update node i n) d m

theorem after_parent : after node d i n m d = m := update_self ..

theorem after_other (hd : j ≠ d) (hi : j ≠ i) : after node d i n m j = node j := by
  rw [after, update_of_ne hd, update_of_ne hi]

/-! ## A new directory -/

/-- Directory `i`, now `n`, is added to directory `d`, which becomes `m`. -/
structure Adds (N : Nat) (node : Nat → Node) (d i : Nat) (n m : Node) : Prop where
  wf : WellFormed N node none
  lt : d < N
  dir : (node d).isDir
  room : asShort (node d).nlink < 32767
  new_lt : i < N
  new_ne : i ≠ 0
  free : (node i).mode = 0
  new_dir : n.isDir
  new_nlink : n.nlink = 1
  new_dents : ∃ a b, n.dents = [⟨i, a⟩, ⟨d, b⟩] ∧ cstr DIRSIZ a = cstr DIRSIZ DOT ∧
    cstr DIRSIZ b = cstr DIRSIZ DOTDOT
  mode : m.mode = (node d).mode
  nlink : m.nlink = (node d).nlink + 1
  dents : ∃ nm, (Dent.mk i nm).isDot = false ∧
    m.dents = store (node d).dents (place (node d).dents) ⟨i, nm⟩

namespace Adds

variable (h : Adds N node d i n m)

include h

theorem ne : i ≠ d := fun he => Shaped.not_isDir_of_free h.free (he ▸ h.dir)

theorem parent_ne : d ≠ 0 := h.wf.shaped.ne_zero (Shaped.mode_ne h.dir)

theorem at_new : after node d i n m i = n := by rw [after, update_of_ne h.ne, update_self]

theorem new_parent : n.parent = d := by
  obtain ⟨a, b, hdents, _⟩ := h.new_dents
  exact Node.parent_eq hdents

theorem new_rest : n.rest = [] := by
  obtain ⟨a, b, hdents, _⟩ := h.new_dents
  exact Node.rest_eq hdents

theorem new_shape : n.Shape i := by
  obtain ⟨a, b, hdents, ha, hb⟩ := h.new_dents
  refine ⟨⟨a, b, ?_, ha, hb⟩, ?_, ?_⟩
  · rw [h.new_parent, h.new_rest]
    exact hdents
  · rw [h.new_parent]
    exact h.parent_ne
  · rw [h.new_rest]
    simp

theorem parent_kept : m.Shape d ∧ m.parent = (node d).parent ∧
    ∃ nm, m.rest = store (node d).rest (place (node d).rest) ⟨i, nm⟩ := by
  have hs := h.wf.shaped.shape d h.lt h.dir
  obtain ⟨a, b, hold, _⟩ := hs.dents
  obtain ⟨nm, hdot, hdents⟩ := h.dents
  have hnew :
      m.dents = (node d).dents.take 2 ++ store (node d).rest (place (node d).rest) ⟨i, nm⟩ := by
    rw [hdents, hold, store_cons h.parent_ne hs.parent_ne]
    rfl
  obtain ⟨hshape, hparent, hrest⟩ := hs.setRest hnew fun e he hlive => by
    rcases mem_store he with rfl | he
    · exact hdot
    · exact hs.plain e he hlive
  exact ⟨hshape, hparent, nm, hrest⟩

theorem dirs (hj : (after node d i n m j).isDir) : j = i ∨ (node j).isDir := by
  by_cases hji : j = i
  · exact .inl hji
  by_cases hjd : j = d
  · exact .inr (hjd ▸ h.dir)
  · rw [after_other hjd hji] at hj
    exact .inr hj

theorem modes (hj : (node j).mode ≠ 0) : (after node d i n m j).mode = (node j).mode := by
  have hji : j ≠ i := fun he => hj (he ▸ h.free)
  by_cases hjd : j = d
  · rw [hjd, after_parent, h.mode]
  · rw [after_other hjd hji]

theorem stays (hj : (node j).isDir) : (after node d i n m j).isDir := by
  unfold Node.isDir
  rw [h.modes (Shaped.mode_ne hj)]
  exact hj

theorem parents (hj : (node j).isDir) : (after node d i n m j).parent = (node j).parent := by
  have hji : j ≠ i := fun he => Shaped.not_isDir_of_free h.free (he ▸ hj)
  by_cases hjd : j = d
  · rw [hjd, after_parent, h.parent_kept.2.1]
  · rw [after_other hjd hji]

theorem unentered (hj : j < N) (hdir : (node j).isDir) :
    (node j).rest.countP (fun e => e.ino == i) = 0 := by
  refine List.countP_eq_zero.mpr fun e he hc => ?_
  rw [beq_iff_eq] at hc
  exact h.wf.shaped.free_unnamed h.free j hj hdir e (List.mem_of_mem_drop he) (hc ▸ h.new_ne) hc

theorem named (hj : j < N) (hdir : (after node d i n m j).isDir) {e : Dent}
    (he : e ∈ (after node d i n m j).dents) (hlive : e.ino ≠ 0) :
    e.ino < N ∧ (after node d i n m e.ino).mode ≠ 0 := by
  have hold : ∀ e : Dent, e.ino < N ∧ (node e.ino).mode ≠ 0 →
      e.ino < N ∧ (after node d i n m e.ino).mode ≠ 0 :=
    fun e he => ⟨he.1, by rw [h.modes he.2]; exact he.2⟩
  have hnew : i < N ∧ (after node d i n m i).mode ≠ 0 :=
    ⟨h.new_lt, by rw [h.at_new]; exact Shaped.mode_ne h.new_dir⟩
  by_cases hji : j = i
  · subst hji
    obtain ⟨a, b, hdents, _⟩ := h.new_dents
    rw [h.at_new, hdents] at he
    rcases List.mem_cons.mp he with rfl | he
    · exact hnew
    · rw [List.mem_singleton.mp he]
      exact hold ⟨d, b⟩ ⟨h.lt, Shaped.mode_ne h.dir⟩
  by_cases hjd : j = d
  · subst hjd
    obtain ⟨nm, _, hdents⟩ := h.dents
    rw [after_parent, hdents] at he
    rcases mem_store he with rfl | he
    · exact hnew
    · exact hold e (h.wf.shaped.named j h.lt h.dir e he hlive)
  · rw [after_other hjd hji] at hdir he
    exact hold e (h.wf.shaped.named j hj hdir e he hlive)

theorem rests (hc : c ≠ 0) : (after node d i n m j).rest.countP (fun e => e.ino == c) =
    (if j = d ∧ c = i then 1 else 0) + if j = i then 0
    else (node j).rest.countP (fun e => e.ino == c) := by
  by_cases hji : j = i
  · rw [hji, h.at_new, h.new_rest, if_neg fun he => h.ne he.1, if_pos rfl]
    rfl
  rw [if_neg hji]
  by_cases hjd : j = d
  · obtain ⟨nm, hrest⟩ := h.parent_kept.2.2
    rw [hjd, after_parent, hrest, countP_store fun e he => by simp [he, hc.symm], Nat.add_comm]
    simp [@eq_comm _ c i]
  · rw [after_other hjd hji, if_neg fun he => hjd he.1, Nat.zero_add]

theorem once (hc : c < N) (hj : j < N) (hc' : (after node d i n m c).isDir)
    (hj' : (after node d i n m j).isDir) :
    (after node d i n m j).rest.countP (fun e => e.ino == c) =
      if c ≠ ROOTINO ∧ (after node d i n m c).parent = j then 1 else 0 := by
  have hS := h.wf.shaped
  have hfd := Shaped.not_isDir_of_free h.free
  rcases h.dirs hc' with rfl | hcdir
  · have hroot : c ≠ ROOTINO := fun he => hfd (he ▸ hS.root.1)
    have hzero : (if j = c then 0 else (node j).rest.countP (fun e => e.ino == c)) = 0 := by
      split
      · rfl
      · rename_i hjc
        exact h.unentered hj ((h.dirs hj').resolve_left hjc)
    rw [h.rests h.new_ne, hzero, h.at_new, h.new_parent]
    simp [hroot, eq_comm]
  have hci : c ≠ i := fun he => hfd (he ▸ hcdir)
  rw [h.rests (hS.ne_zero (Shaped.mode_ne hcdir)), if_neg fun he => hci he.2,
    h.parents hcdir, Nat.zero_add]
  by_cases hji : j = i
  · rw [if_pos hji, if_neg fun he => hfd ?_]
    rw [← hji, ← he.2]
    exact hS.parentDir c hc hcdir
  · rw [if_neg hji]
    exact hS.once c j hc hj hcdir ((h.dirs hj').resolve_left hji)

theorem shaped : Shaped N (after node d i n m) := by
  have hS := h.wf.shaped
  refine ⟨hS.small, ?_, hS.root_lt, ⟨h.stays hS.root.1, ?_⟩,
    fun j hj hj' => ?_, fun j hj hj' e => h.named hj hj', fun j hj hj' => ?_, fun c j => h.once⟩
  · rw [after_other h.parent_ne.symm h.new_ne.symm]
    exact hS.zero
  · rw [h.parents hS.root.1]
    exact hS.root.2
  · by_cases hji : j = i
    · rw [hji, h.at_new]
      exact h.new_shape
    by_cases hjd : j = d
    · rw [hjd, after_parent]
      exact h.parent_kept.1
    · rw [after_other hjd hji] at hj' ⊢
      exact hS.shape j hj hj'
  · rcases h.dirs hj' with rfl | hjdir
    · rw [h.at_new, h.new_parent]
      exact h.stays h.dir
    · rw [h.parents hjdir]
      exact h.stays (hS.parentDir j hj hjdir)

theorem links (hj : j ≠ 0) : Tree.links N (after node d i n m) j =
    Tree.links N node j + (if d = j then 1 else 0) + if i = j then 1 else 0 := by
  have hupd := @links_update _ node _ j h.new_lt n
  have hupd' := @links_update _ (update node i n) _ j h.lt m
  have hfree : (node i).names j = 0 := if_neg (Shaped.not_isDir_of_free h.free)
  have hnew : n.names j = if d = j then 1 else 0 := by
    rw [h.new_shape.names_eq h.new_dir hj, h.new_parent, h.new_rest]
    simp
  have hparent : m.names j = (node d).names j + if i = j then 1 else 0 := by
    obtain ⟨nm, hdot, hdents⟩ := h.dents
    rw [← names_store m.nlink h.dir hdot hj]
    exact names_congr h.mode hdents
  rw [update_of_ne h.ne.symm, hparent] at hupd'
  show Tree.links N (update (update node i n) d m) j = _
  omega

theorem counted : Counted N (after node d i n m) none := by
  intro j hj hmode
  rw [noLink]
  by_cases hji : j = i
  · subst hji
    rw [h.at_new, h.new_nlink, h.links h.new_ne, h.wf.shaped.links_free h.free h.new_ne,
      if_neg h.ne.symm, if_pos rfl]
    decide
  have hold : (node j).mode ≠ 0 := by
    by_cases hjd : j = d
    · rw [hjd]
      exact Shaped.mode_ne h.dir
    · rwa [after_other hjd hji] at hmode
  have hcount := h.wf.counted j hj hold
  rw [noLink] at hcount
  rw [h.links (h.wf.shaped.ne_zero hold), if_neg (Ne.symm hji)]
  by_cases hjd : j = d
  · subst hjd
    rw [after_parent, if_pos rfl, h.nlink, asShort_add h.room (by omega), hcount]
    omega
  · rw [after_other hjd hji, if_neg (Ne.symm hjd), hcount]
    omega

/-- **A new directory leaves a well-formed tree.** -/
theorem wellFormed : WellFormed N (after node d i n m) none := ⟨h.shaped, h.counted⟩

end Adds

/-! ## A directory removed -/

/-- The empty directory `i`, entered in `d` at place `k + 2`, is freed; `d` becomes `m`. -/
structure Removes (N : Nat) (node : Nat → Node) (d i k : Nat) (n m : Node) : Prop where
  wf : WellFormed N node none
  lt : d < N
  dir : (node d).isDir
  entry : ∃ nm, (node d).dents[k + 2]? = some ⟨i, nm⟩
  old_dir : (node i).isDir
  empty : ∀ e ∈ (node i).rest, e.ino = 0
  freed : n.mode = 0
  mode : m.mode = (node d).mode
  nlink : m.nlink = (node d).nlink - 1
  dents : ∃ z : Dent, z.ino = 0 ∧ m.dents = (node d).dents.set (k + 2) z

namespace Removes

variable (h : Removes N node d i k n m)

include h

theorem old_ne : i ≠ 0 := h.wf.shaped.ne_zero (Shaped.mode_ne h.old_dir)

theorem rest_entry : ∃ nm, (node d).rest[k]? = some ⟨i, nm⟩ := by
  obtain ⟨nm, hk⟩ := h.entry
  exact ⟨nm, WellFormed.rest_of_getElem? h.wf.shaped h.lt h.dir hk⟩

theorem old_lt : i < N := by
  obtain ⟨nm, hk⟩ := h.entry
  exact (h.wf.shaped.named d h.lt h.dir _ (List.mem_of_getElem? hk) h.old_ne).1

theorem ne : i ≠ d := by
  rintro rfl
  obtain ⟨nm, hk⟩ := h.rest_entry
  exact h.old_ne (h.empty _ (List.mem_of_getElem? hk))

theorem old_parent : i ≠ ROOTINO ∧ (node i).parent = d := by
  obtain ⟨nm, hk⟩ := h.rest_entry
  have honce := h.wf.shaped.once i d h.old_lt h.lt h.old_dir h.dir
  by_contra hne
  rw [if_neg hne] at honce
  exact List.countP_eq_zero.mp honce _ (List.mem_of_getElem? hk) (beq_self_eq_true i)

theorem childless (hj : j < N) (hdir : (node j).isDir) : (node j).parent ≠ i := by
  intro hp
  have hS := h.wf.shaped
  have hroot : j ≠ ROOTINO := fun he => h.old_parent.1 (by rw [← hp, he]; exact hS.root.2)
  have honce := hS.once j i hj h.old_lt hdir h.old_dir
  rw [if_pos ⟨hroot, hp⟩] at honce
  have hzero : (node i).rest.countP (fun e => e.ino == j) = 0 :=
    List.countP_eq_zero.mpr fun e he hc =>
    hS.ne_zero (Shaped.mode_ne hdir) (by rw [← beq_iff_eq.mp hc]; exact h.empty e he)
  omega

/-- **An empty directory has one link.** -/
theorem one_link : asShort (node i).nlink = 1 := by
  have hS := h.wf.shaped
  have hnames : ∀ j, j < N → (node j).names i = if j = d then 1 else 0 := fun j hj => by
    by_cases hdir : (node j).isDir
    · rw [(hS.shape j hj hdir).names_eq hdir h.old_ne, if_neg (h.childless hj hdir),
        hS.once i j h.old_lt hj h.old_dir hdir, h.old_parent.2]
      simp [h.old_parent.1, eq_comm]
    · rw [Node.names, if_neg hdir, if_neg fun he : j = d => hdir (he ▸ h.dir)]
  have hlinks : Tree.links N node i = 1 := by
    unfold Tree.links
    rw [Finset.sum_congr rfl fun j hj => hnames j (Finset.mem_range.mp hj),
      Finset.sum_ite_eq' (Finset.range N) d, if_pos (Finset.mem_range.mpr h.lt)]
  rw [h.wf.counted i h.old_lt (Shaped.mode_ne h.old_dir), hlinks, noLink]
  rfl

theorem at_old : after node d i n m i = n := by rw [after, update_of_ne h.ne, update_self]

theorem modes (hji : j ≠ i) : (after node d i n m j).mode = (node j).mode := by
  by_cases hjd : j = d
  · rw [hjd, after_parent, h.mode]
  · rw [after_other hjd hji]

theorem dirs : (after node d i n m j).isDir ↔ j ≠ i ∧ (node j).isDir := by
  by_cases hji : j = i
  · subst hji
    rw [h.at_old]
    exact ⟨fun hd => absurd hd (Shaped.not_isDir_of_free h.freed), fun hd => absurd rfl hd.1⟩
  unfold Node.isDir
  rw [h.modes hji]
  exact ⟨fun hd => ⟨hji, hd⟩, fun hd => hd.2⟩

theorem parent_kept : m.Shape d ∧ m.parent = (node d).parent ∧
    ∃ z : Dent, z.ino = 0 ∧ m.rest = (node d).rest.set k z := by
  have hs := h.wf.shaped.shape d h.lt h.dir
  obtain ⟨a, b, hold, _⟩ := hs.dents
  obtain ⟨z, hz, hdents⟩ := h.dents
  have hnew : m.dents = (node d).dents.take 2 ++ (node d).rest.set k z := by
    rw [hdents, hold]
    rfl
  obtain ⟨hshape, hparent, hrest⟩ := hs.setRest hnew fun e he hlive => by
    rcases List.mem_or_eq_of_mem_set he with he | rfl
    · exact hs.plain e he hlive
    · exact absurd hz hlive
  exact ⟨hshape, hparent, z, hz, hrest⟩

theorem parents (hji : j ≠ i) : (after node d i n m j).parent = (node j).parent := by
  by_cases hjd : j = d
  · rw [hjd, after_parent, h.parent_kept.2.1]
  · rw [after_other hjd hji]

theorem rests (hc : c ≠ 0) (hji : j ≠ i) :
    (after node d i n m j).rest.countP (fun e => e.ino == c) + (if j = d ∧ c = i then 1 else 0) =
      (node j).rest.countP (fun e => e.ino == c) := by
  by_cases hjd : j = d
  · obtain ⟨z, hz, hrest⟩ := h.parent_kept.2.2
    obtain ⟨nm, hk⟩ := h.rest_entry
    have hcount := countP_set_add (f := fun e => e.ino == c) hk z
    rw [hjd, after_parent, hrest]
    simpa [hz, hc.symm, @eq_comm _ c i] using hcount
  · rw [after_other hjd hji, if_neg fun he => hjd he.1, Nat.add_zero]

theorem unentered (hj : j < N) (hdir : (after node d i n m j).isDir) :
    (after node d i n m j).rest.countP (fun e => e.ino == i) = 0 := by
  obtain ⟨hji, hold⟩ := h.dirs.mp hdir
  have hcount := h.rests h.old_ne hji
  rw [h.wf.shaped.once i j h.old_lt hj h.old_dir hold, h.old_parent.2] at hcount
  simp only [h.old_parent.1, ne_eq, not_false_eq_true, true_and, and_true] at hcount
  by_cases hjd : j = d
  · rw [if_pos hjd, if_pos hjd.symm] at hcount
    omega
  · rw [if_neg hjd, if_neg (Ne.symm hjd)] at hcount
    omega

theorem shape (hj : j < N) (hdir : (after node d i n m j).isDir) :
    (after node d i n m j).Shape j := by
  obtain ⟨hji, hold⟩ := h.dirs.mp hdir
  by_cases hjd : j = d
  · rw [hjd, after_parent]
    exact h.parent_kept.1
  · rw [after_other hjd hji]
    exact h.wf.shaped.shape j hj hold

theorem named (hj : j < N) (hdir : (after node d i n m j).isDir) {e : Dent}
    (he : e ∈ (after node d i n m j).dents) (hlive : e.ino ≠ 0) :
    e.ino < N ∧ (after node d i n m e.ino).mode ≠ 0 := by
  obtain ⟨hji, hold⟩ := h.dirs.mp hdir
  have hei : e.ino ≠ i := by
    obtain ⟨a, b, hdents, _⟩ := (h.shape hj hdir).dents
    rw [hdents] at he
    rcases List.mem_cons.mp he with rfl | he
    · exact hji
    rcases List.mem_cons.mp he with rfl | he
    · show (after node d i n m j).parent ≠ i
      rw [h.parents hji]
      exact h.childless hj hold
    · exact fun hei => List.countP_eq_zero.mp (h.unentered hj hdir) e he (beq_iff_eq.mpr hei)
  have hmem : e ∈ (node j).dents := by
    by_cases hjd : j = d
    · obtain ⟨z, hz, hdents⟩ := h.dents
      rw [hjd, after_parent, hdents] at he
      rw [hjd]
      exact (List.mem_or_eq_of_mem_set he).resolve_right fun hez => hlive (hez ▸ hz)
    · rwa [after_other hjd hji] at he
  rw [h.modes hei]
  exact h.wf.shaped.named j hj hold e hmem hlive

theorem shaped : Shaped N (after node d i n m) := by
  have hS := h.wf.shaped
  have hroot : ROOTINO ≠ i := h.old_parent.1.symm
  refine ⟨hS.small, ?_, hS.root_lt, ⟨h.dirs.mpr ⟨hroot, hS.root.1⟩, ?_⟩, fun j => h.shape,
    fun j hj hj' e => h.named hj hj', fun j hj hj' => ?_, fun c j hc hj hc' hj' => ?_⟩
  · rw [h.modes h.old_ne.symm]
    exact hS.zero
  · rw [h.parents hroot]
    exact hS.root.2
  · obtain ⟨hji, hold⟩ := h.dirs.mp hj'
    rw [h.parents hji]
    exact h.dirs.mpr ⟨h.childless hj hold, hS.parentDir j hj hold⟩
  · obtain ⟨hji, hold⟩ := h.dirs.mp hj'
    obtain ⟨hci, hcold⟩ := h.dirs.mp hc'
    have hcount := h.rests (hS.ne_zero (Shaped.mode_ne hcold)) hji
    rw [if_neg fun he => hci he.2, Nat.add_zero] at hcount
    rw [hcount, h.parents hci]
    exact hS.once c j hc hj hcold hold

theorem links (hj : j ≠ 0) : Tree.links N (after node d i n m) j + (if d = j then 1 else 0) +
    (if i = j then 1 else 0) = Tree.links N node j := by
  have hS := h.wf.shaped
  have hupd := @links_update _ node _ j h.old_lt n
  have hupd' := @links_update _ (update node i n) _ j h.lt m
  have hfree : n.names j = 0 := if_neg (Shaped.not_isDir_of_free h.freed)
  have hold : (node i).names j = if d = j then 1 else 0 := by
    have hzero : (node i).rest.countP (fun e => e.ino == j) = 0 :=
      List.countP_eq_zero.mpr fun e he hc =>
      hj (by rw [← beq_iff_eq.mp hc]; exact h.empty e he)
    rw [(hS.shape i h.old_lt h.old_dir).names_eq h.old_dir hj, hzero, h.old_parent.2]
    rfl
  have hparent : m.names j + (if i = j then 1 else 0) = (node d).names j := by
    obtain ⟨z, hz, hdents⟩ := h.dents
    obtain ⟨nm, hk⟩ := h.entry
    obtain ⟨nm', hk'⟩ := h.rest_entry
    have hname : nm' = nm := by
      have := WellFormed.rest_of_getElem? hS h.lt h.dir hk
      rw [hk'] at this
      exact (Dent.mk.inj (Option.some.inj this)).2
    have hdot := (hS.shape d h.lt h.dir).plain ⟨i, nm⟩ (hname ▸ List.mem_of_getElem? hk') h.old_ne
    rw [← names_erase m.nlink h.dir hk hz hdot hj]
    exact congrArg (· + _) (names_congr h.mode hdents)
  rw [update_of_ne h.ne.symm] at hupd'
  show Tree.links N (update (update node i n) d m) j + _ + _ = _
  omega

theorem counted : Counted N (after node d i n m) none := by
  intro j hj hmode
  have hji : j ≠ i := fun he => hmode (by rw [he, h.at_old]; exact h.freed)
  rw [h.modes hji] at hmode
  have hcount := h.wf.counted j hj hmode
  have hlinks := h.links (h.wf.shaped.ne_zero hmode)
  rw [if_neg (Ne.symm hji)] at hlinks
  rw [noLink] at hcount ⊢
  by_cases hjd : j = d
  · subst hjd
    have hpos := h.wf.nlink_of_dir h.lt h.dir
    rw [if_pos rfl] at hlinks
    rw [after_parent, h.nlink, asShort_sub hpos]
    omega
  rw [if_neg (Ne.symm hjd)] at hlinks
  rw [after_other hjd hji]
  omega

theorem wellFormed : WellFormed N (after node d i n m) none := ⟨h.shaped, h.counted⟩

end Removes

end Micro86.Tree
