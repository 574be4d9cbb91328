import Micro86.Tree.Links

/-!
# `create` and the calls above it
-/

namespace Micro86.Tree

open Exec Function
open Fs (S_IFMT S_IFDIR S_IFREG strncpy namecmp DOT DOTDOT asShort)

variable {c : Cred} {path : List UInt8} {trunc room : Bool}

variable {N : Nat} {x : Option Nat} {s t : State} {dp ip i : Nat}
  {E : String → Prop} {name : List UInt8} {type : UInt16} {uid : UInt32}

/-! ## A fresh inode -/

theorem wp_ialloc {Q : Nat → State → Prop} (hnone : E "ialloc: no inodes")
    (hsome : ∀ i, i ≠ 0 → i < N → (s.node i).mode = 0 →
      Q i ((s.setNode i ⟨type, 0, 0, []⟩).get i)) :
    wp (ialloc N type) Q E s := by
  unfold ialloc
  rw [wp_bind, wp_get]
  split
  · rename_i i hi
    have hmem := List.mem_range'_1.mp (List.mem_of_find?_eq_some hi)
    have hfree := List.find?_some hi
    exact hsome i (by omega) (by omega) (by simpa using hfree)
  · exact hnone

def State.fresh (s : State) (i : Nat) (type : UInt16) (uid : UInt32) : State :=
  (((s.setNode i ⟨type, 0, 0, []⟩).get i).lock i).setNode i ⟨type, 1, uid, []⟩

theorem State.node_fresh : (s.fresh i type uid).node = update s.node i ⟨type, 1, uid, []⟩ :=
  update_idem ..

theorem State.ref_fresh (j : Nat) :
    ((s.fresh i type uid).mem j).ref = (s.mem j).ref + if j = i then 1 else 0 := by
  show ((((s.setNode i ⟨type, 0, 0, []⟩).get i).lock i).mem j).ref = _
  rw [State.ref_lock, State.ref_get]
  rfl

theorem Inv.ref_free (h : Inv N x s) (hfree : (s.node i).mode = 0) : (s.mem i).ref = 0 := by
  by_contra hne
  exact (h.live i (by omega)).2 hfree

theorem Inv.fresh (h : Inv N none s) (hi0 : i ≠ 0) (hi : i < N)
    (hfree : (s.node i).mode = 0) (hm : type ≠ 0)
    (hnd : ¬ type &&& S_IFMT = S_IFDIR) : Inv N (some i) (s.fresh i type uid) := by
  refine ⟨?_, fun j hj => ?_⟩
  · rw [State.node_fresh]
    exact h.tree.newFile hi0 hfree hm hnd rfl
  · rw [State.node_fresh]
    refine update_cases j ?_ fun hji => ?_
    · exact ⟨hi, hm⟩
    · rw [State.ref_fresh, if_neg hji] at hj
      exact h.live j hj

theorem Refs.fresh (a : List Nat) : Refs s (s.fresh i type uid) a (a ++ [i]) := fun j => by
  rw [State.ref_fresh, List.count_append, List.count_singleton]
  by_cases hj : j = i
  · simp [hj]
    omega
  · simp [Ne.symm hj]

/-! ## A new directory -/

/-- The entries `.` and `..` of a new directory, and the parent's link for the second. -/
def State.dots (s : State) (i dp : Nat) : State := ((s.link dp).enter i DOT i).enter i DOTDOT dp

theorem wp_createDots {Q : Unit → State → Prop} (hdir : (s.node ip).isDir)
    (hnew : (s.node ip).dents = [])
    (hip : ip % 65536 ≠ 0) (hne : dp ≠ ip) : wp (createDots ip dp) Q E s ↔ Q () (s.dots ip dp) := by
  have hlink : (s.link dp).node ip = s.node ip := update_of_ne hne.symm _ _
  have hent : ((s.link dp).enter ip DOT ip).node ip =
      { s.node ip with dents := [⟨ip % 65536, strncpy DIRSIZ DOT⟩] } := by
    unfold State.enter
    rw [hlink, hnew]
    exact update_self ..
  have hnamed : hasName DOTDOT ⟨ip % 65536, strncpy DIRSIZ DOT⟩ = false := by
    unfold hasName
    rw [Bool.and_eq_false_iff]
    exact .inr (show (namecmp DOTDOT (strncpy DIRSIZ DOT) == 0) = false by decide)
  have hlive : ((ip % 65536) == 0) = false := by simpa using hip
  unfold createDots
  rw [wp_bind, wp_get, if_pos hdir, wp_bind]
  refine wp_iassign.trans ?_
  show wp _ _ _ (s.link dp) ↔ _
  rw [wp_bind, wp_dirlink (by rw [hlink]; exact hdir) (by rw [hlink, hnew]; rfl),
    if_neg (by rw [hlink, hnew]; decide)]
  simp only [Int.lt_irrefl, if_false, wp_bind]
  rw [wp_dirlink (by rw [hent]; exact hdir) (by rw [hent]; simp [find, hnamed]), if_neg (by
    rw [hent]
    simp only [place, List.findIdx_cons, hlive]
    decide)]
  simp only [Int.lt_irrefl]
  rfl

theorem Adds.of_fresh (h : Inv N none s) (hdp : dp < N) (hdir : (s.node dp).isDir)
    (hroom : asShort (s.node dp).nlink < 32767)
    (hi0 : i ≠ 0) (hi : i < N) (hfree : (s.node i).mode = 0) (htype : type &&& S_IFMT = S_IFDIR)
    (hf : find name (s.node dp).dents = none) : ∃ n m, Adds N s.node dp i n m ∧
      (((s.fresh i type uid).dots i dp).enter dp name i).node = after s.node dp i n m := by
  have hne : dp ≠ i := fun he => Shaped.not_isDir_of_free hfree (he ▸ hdir)
  have hsmall := h.tree.shaped.small
  have hi' : i % 65536 = i := Nat.mod_eq_of_lt (by omega)
  have hdp' : dp % 65536 = dp := Nat.mod_eq_of_lt (by omega)
  have hlive : (i == 0) = false := by simpa using hi0
  refine ⟨⟨type, 1, uid, [⟨i, strncpy DIRSIZ DOT⟩, ⟨dp, strncpy DIRSIZ DOTDOT⟩]⟩,
    { s.node dp with
      nlink := (s.node dp).nlink + 1
      dents := store (s.node dp).dents (place (s.node dp).dents) ⟨i, strncpy DIRSIZ name⟩ },
    ⟨h.tree, hdp, hdir, hroom, hi, hi0, hfree, htype, rfl,
      ⟨_, _, rfl, cstr_strncpy _ _, cstr_strncpy _ _⟩, rfl, rfl,
      _, isDot_of_find_none h.tree.shaped hdp hdir hf, rfl⟩, ?_⟩
  funext j
  by_cases hji : j = i
  · subst hji
    simp [State.dots, State.enter, State.link, State.setNode,
      State.node_fresh, hne.symm, hi', hdp', place, store, hlive]
  by_cases hjd : j = dp
  · subst hjd
    simp [State.dots, State.enter, State.link, State.setNode, State.node_fresh, hji, hi']
  · simp [State.dots, State.enter, State.link, State.setNode, State.node_fresh, hji, hjd]

theorem Inv.newDir (h : Inv N none s) (hdp : dp < N) (hdir : (s.node dp).isDir)
    (hroom : asShort (s.node dp).nlink < 32767)
    (hi0 : i ≠ 0) (hi : i < N) (hfree : (s.node i).mode = 0) (htype : type &&& S_IFMT = S_IFDIR)
    (hf : find name (s.node dp).dents = none) :
    Inv N none (((s.fresh i type uid).dots i dp).enter dp name i) := by
  obtain ⟨n, m, hadds, hnode⟩ :
      ∃ n m, Adds N s.node dp i n m ∧ (((s.fresh i type uid).dots i dp).enter dp name i).node = _ :=
    Adds.of_fresh h hdp hdir hroom hi0 hi hfree htype hf
  refine ⟨by rw [hnode]; exact hadds.wellFormed, fun j hj => ?_⟩
  have hr : ((((s.fresh i type uid).dots i dp).enter dp name i).mem j).ref =
      (s.mem j).ref + if j = i then 1 else 0 :=
    @State.ref_fresh s i type uid j
  rw [hnode]
  by_cases hji : j = i
  · rw [hji, hadds.at_new]
    exact ⟨hi, Shaped.mode_ne hadds.new_dir⟩
  rw [hr, if_neg hji] at hj
  rw [hadds.modes (h.live j hj).2]
  exact h.live j hj

/-! ## `create` -/

/-- The panics of `create`: the volume or the directory is full, or the type is missing. -/
def CreatePanic (type : UInt16) (msg : String) : Prop :=
  msg = "ialloc: no inodes" ∨ msg = "dirlink" ∨ (type = 0 ∧ msg = "ilock: no type")

theorem enterNew_serves {Q : Option Nat → State → Prop} (hf : find name (t.node dp).dents = none)
    (hdir : (t.node dp).isDir)
    (hrefs : Refs s t [dp] [dp, i]) (hr : 0 < (t.mem dp).ref) (hne : dp ≠ i)
    (hQ : 0 < (((t.enter dp name i).put dp).mem i).ref →
      Refs s ((t.enter dp name i).put dp) [dp] [i] → Q (some i) ((t.enter dp name i).put dp)) :
    wp (dirlink dp name i >>= fun r => if r < 0 then Exec.panic "create: dirlink"
      else iunlockput dp >>= fun _ => pure (some i)) Q (CreatePanic type) t := by
  have hput : Refs s ((t.enter dp name i).put dp) [dp] [i] :=
    hrefs.trans (Refs.put (s := t.enter dp name i) hr [i])
  rw [wp_bind, wp_dirlink hdir hf]
  split
  · exact .inr (.inl rfl)
  rw [if_neg (Int.lt_irrefl 0), wp_bind]
  refine (wp_iunlockput ?_).mpr (hQ ?_ hput)
  · exact hr
  · have := hput i
    simp only [List.count_singleton_self, List.count_singleton, beq_iff_eq, if_neg hne] at this
    omega

theorem State.fresh_eq : (((s.setNode i ⟨type, 0, 0, []⟩).get i).lock i).setNode i
    { (((s.setNode i ⟨type, 0, 0, []⟩).get i).lock i).node i with
      mode := type, nlink := 1, uid := c.uid } = s.fresh i type c.uid := by
  have hnode : (((s.setNode i ⟨type, 0, 0, []⟩).get i).lock i).node i = ⟨type, 0, 0, []⟩ :=
    update_self ..
  rw [hnode]
  rfl

section New

variable (h : Inv N none s) (hdir : (s.node dp).isDir) (hr : 0 < (s.mem dp).ref)
  (hf : find name (s.node dp).dents = none) (hi0 : i ≠ 0) (hi : i < N) (hfree : (s.node i).mode = 0)

include h hdir hr hf hi0 hi hfree

theorem newDir_serves (htype : type &&& S_IFMT = S_IFDIR) :
    wp (createDots i dp >>= fun _ => dirlink dp name i >>= fun r => if r < 0 then
      Exec.panic "create: dirlink"
      else iunlockput dp >>= fun _ =>
        pure (some i)) (fun r t => ∃ i, r = some i ∧ 0 < (t.mem i).ref ∧
        (asShort (s.node dp).nlink < 32767 → Serves N s t [dp] [i]))
        (CreatePanic type) (s.fresh i type uid) := by
  have hne : dp ≠ i := fun he => Shaped.not_isDir_of_free hfree (he ▸ hdir)
  have hsmall := h.tree.shaped.small
  have hfresh :
      (s.fresh i type uid).node i = ⟨type, 1, uid, []⟩ := by rw [State.node_fresh, update_self]
  have hdots : ((s.fresh i type uid).dots i dp).node dp =
      { s.node dp with nlink := (s.node dp).nlink + 1 } := by
    simp [State.dots, State.enter, State.link, State.setNode, State.node_fresh, hne]
  have hrdp : 0 < ((s.fresh i type uid).mem dp).ref := by
    rw [State.ref_fresh]
    omega
  rw [wp_bind, wp_createDots (by rw [hfresh]; exact htype) (by rw [hfresh])
    (by rw [Nat.mod_eq_of_lt (by omega)]; exact hi0) hne]
  refine enterNew_serves (by rw [hdots]; exact hf) (by rw [hdots]; exact hdir)
    (show Refs s (s.fresh i type uid) [dp] [dp, i] from Refs.fresh [dp]) hrdp hne fun hpos hput =>
      ⟨i, rfl, hpos, fun hroom => ?_⟩
  exact ⟨(h.newDir (h.live dp hr).1 hdir hroom hi0 hi hfree htype hf).put hrdp, hput⟩

theorem newFile_serves (htype0 : type ≠ 0) (htype : ¬ type &&& S_IFMT = S_IFDIR) :
    wp (createDots i dp >>= fun _ => dirlink dp name i >>= fun r => if r < 0 then
      Exec.panic "create: dirlink"
      else iunlockput dp >>= fun _ =>
        pure (some i)) (fun r t => ∃ i, r = some i ∧ 0 < (t.mem i).ref ∧
        Serves N s t [dp] [i]) (CreatePanic type) (s.fresh i type uid) := by
  have hne : dp ≠ i := fun he => Shaped.not_isDir_of_free hfree (he ▸ hdir)
  have hfresh :
      (s.fresh i type uid).node i = ⟨type, 1, uid, []⟩ := by rw [State.node_fresh, update_self]
  have hnode :
      (s.fresh i type uid).node dp = s.node dp := by rw [State.node_fresh, update_of_ne hne]
  have hrdp : 0 < ((s.fresh i type uid).mem dp).ref := by
    rw [State.ref_fresh]
    omega
  have hri : 0 < ((s.fresh i type uid).mem i).ref := by
    rw [State.ref_fresh, if_pos rfl]
    omega
  have hinv : Inv N (some i) (s.fresh i type uid) := h.fresh hi0 hi hfree htype0 htype
  have hent := hinv.enter (h.live dp hr).1 (by rw [hnode]; exact hdir) hri
    (by rw [hfresh]; exact htype) (by rw [hnode]; exact hf)
  unfold createDots
  rw [wp_bind, wp_bind, wp_get, if_neg (by rw [hfresh]; exact htype), wp_pure]
  refine enterNew_serves (by rw [hnode]; exact hf) (by rw [hnode]; exact hdir)
    (show Refs s (s.fresh i type uid) [dp] [dp, i] from Refs.fresh [dp])
      hrdp hne fun hpos hput => ?_
  exact ⟨i, rfl, hpos, hent.put hrdp, hput⟩

end New

theorem createNew_serves (h : Inv N none s) (hdir : (s.node dp).isDir) (hr : 0 < (s.mem dp).ref)
    (hf : find name (s.node dp).dents = none) :
    wp (createNew N c dp name type) (fun r t => ∃ i, r = some i ∧ 0 < (t.mem i).ref ∧
      ((type &&& S_IFMT = S_IFDIR → asShort (s.node dp).nlink < 32767) →
        Serves N s t [dp] [i])) (CreatePanic type) s := by
  unfold createNew
  rw [wp_bind]
  refine wp_ialloc (.inl rfl) fun i hi0 hi hfree => ?_
  have hmode : ((s.setNode i ⟨type, 0, 0, []⟩).get i).node i = ⟨type, 0, 0, []⟩ := update_self ..
  have hri : 0 < (((s.setNode i ⟨type, 0, 0, []⟩).get i).mem i).ref := by
    rw [State.ref_get, if_pos rfl]
    omega
  rw [wp_bind]
  by_cases htype0 : type = 0
  · -- an inode without a type is found free again when it is locked
    rw [wp_ilock_free hri (State.valid_get (h.ref_free hfree)) (by rw [hmode]; exact htype0)]
    exact .inr (.inr ⟨htype0, rfl⟩)
  rw [wp_ilock hri (by rw [hmode]; exact htype0), wp_bind, wp_iassign, State.fresh_eq]
  by_cases htype : type &&& S_IFMT = S_IFDIR
  · exact wp.imp (newDir_serves h hdir hr hf hi0 hi hfree htype)
      fun r t ⟨i, hi, hpos, hs⟩ => ⟨i, hi, hpos, fun hroom => hs (hroom htype)⟩
  · exact wp.imp (newFile_serves h hdir hr hf hi0 hi hfree htype0 htype)
      fun r t ⟨i, hi, hpos, hs⟩ => ⟨i, hi, hpos, fun _ => hs⟩

/-- A directory is created only where the parent has room for one more link. -/
def CreateOk (c : Cred) (path : List UInt8) (type : UInt16) (s : State) : Prop :=
  type &&& S_IFMT = S_IFDIR →
    wp (nameiparent c.cwd path) (fun o t => ∀ p ∈ o, asShort (t.node p.1).nlink < 32767)
      (fun _ => True) s

theorem create_serves (h : Inv N none s) (hcwd : 0 < (s.mem c.cwd).ref) :
    wp (create N c path type) (fun r t => (∀ i ∈ r, 0 < (t.mem i).ref) ∧
      ((r.isSome = true → CreateOk c path type s) → Serves N s t [] r.toList))
      (CreatePanic type) s := by
  unfold create
  refine wp.seq (namex_moves h hcwd).with_eq fun o t ht => ?_
  obtain ⟨⟨hw, hdir⟩, heq⟩ := ht
  cases o with
  | none => exact ⟨fun _ hi => (by cases hi), fun _ => hw.serves⟩
  | some p =>
    obtain ⟨dp, name⟩ := p
    have hr : 0 < (t.mem dp).ref := hw.held (by simp)
    have hd : (t.node dp).isDir := hdir rfl (dp, name) rfl
    have hl := hw.trans (Moves.lock hw.inv dp [dp])
    have hrl : 0 < ((t.lock dp).mem dp).ref := hl.held (by simp)
    rw [wp_bind, wp_ilock hr (hw.inv.live dp hr).2, wp_bind]
    cases hf : find name (t.node dp).dents with
    | none =>
      rw [wp_dirlookup_none (s := t.lock dp) hd hf]
      refine wp.imp (createNew_serves hl.inv hd hrl hf) fun r u hu => ?_
      obtain ⟨i, rfl, hpos, hu⟩ := hu
      refine ⟨fun j hj => by cases hj; exact hpos, fun hok => ?_⟩
      have hs := hu fun htype => (hok rfl htype).of_ok heq (dp, name) rfl
      exact ⟨hs.inv, hl.toRefs.trans hs.refs⟩
    | some ek =>
      obtain ⟨e, k⟩ := ek
      have hnamed := hl.inv.named (hw.inv.live dp hr).1 hd hf
      have hg := hl.trans (Moves.get hl.inv hnamed.1 hnamed.2 [dp])
      have hrg : 0 < (((t.lock dp).get e.ino).mem dp).ref := hg.held (by simp)
      have hp : Moves N none s _ [] [e.ino] := hg.trans (Moves.put hg.inv hrg [e.ino])
      have hre : 0 < ((((t.lock dp).get e.ino).put dp).mem e.ino).ref := hp.held (by simp)
      have hlk := hp.trans (Moves.lock hp.inv e.ino [e.ino])
      have hrlk : 0 < (((((t.lock dp).get e.ino).put dp).lock e.ino).mem e.ino).ref :=
        hlk.held (by simp)
      rw [wp_dirlookup_some (s := t.lock dp) hd hf]
      simp only [wp_bind]
      rw [wp_iunlockput hrg, wp_ilock hre (hp.inv.live _ hre).2]
      split
      · exact ⟨fun j hj => by cases hj; exact hrlk, fun _ => hlk.serves⟩
      · rw [wp_bind, wp_iunlockput hrlk]
        exact ⟨fun _ hi => (by cases hi), fun _ => (hlk.trans (Moves.put hlk.inv hrlk [])).serves⟩

/-! ## The calls above -/

theorem mknode_serves (h : Inv N none s) (hcwd : 0 < (s.mem c.cwd).ref) :
    wp (mknode N c path type) (fun r t => (r = 0 → CreateOk c path type s) →
      Serves N s t [] []) (CreatePanic type) s := by
  unfold mknode
  refine wp.seq (create_serves h hcwd) fun o t ht => ?_
  cases o with
  | none => exact fun _ => ht.2 nofun
  | some ip =>
    have hr := ht.1 ip rfl
    simp only [wp_bind]
    rw [wp_iunlockput hr]
    intro hok
    have hs := ht.2 fun _ => hok rfl
    exact ⟨hs.inv.put hr, hs.refs.trans (Refs.put hr [])⟩

/-- The inode found is not a directory if it is to be truncated. -/
def TruncOk (x : TreeM (Option Nat)) (trunc : Bool) (s : State) : Prop :=
  trunc = true → wp x (fun o t => ∀ i ∈ o, ¬ (t.node i).isDir) (fun _ => True) s

theorem wp_truncIf {Q : Unit → State → Prop} : wp (truncIf trunc ip) Q E s ↔
    Q () (if trunc = true then s.setNode ip { s.node ip with dents := [] } else s) := by
  cases trunc <;> exact .rfl

theorem openFile_serves {full : Int} (hr : 0 < (s.mem ip).ref) :
    wp (openFile ip trunc room full) (fun r t => Inv N none s →
      (trunc = true → ¬ (s.node ip).isDir) → Serves N s t [ip] r.toOption.toList) E s := by
  obtain ⟨t, ht⟩ :
      ∃ t, t = if trunc = true then s.setNode ip { s.node ip with dents := [] } else s := ⟨_, rfl⟩
  have hmem : t.mem = s.mem := by
    rw [ht]
    split <;> rfl
  have hinv : Inv N none s → (trunc = true → ¬ (s.node ip).isDir) → Inv N none t := fun h hnd => by
    rw [ht]
    split
    · rename_i htr
      exact h.setNode (h.tree.truncate (h.live ip hr).2 (hnd htr)) (h.live ip hr).2
    · exact h
  have hrefs : Refs s t [ip] [ip] := fun i => by rw [hmem]
  have hrt : 0 < (t.mem ip).ref := by rwa [hmem]
  unfold openFile
  rw [wp_bind, wp_truncIf, ← ht]
  split
  · rw [wp_bind, wp_iunlock hrt]
    exact fun h hnd => ⟨hinv h hnd, hrefs⟩
  · rw [wp_bind, wp_iunlockput hrt]
    exact fun h hnd => ⟨(hinv h hnd).put hrt, hrefs.trans (Refs.put hrt [])⟩

variable (h : Inv N none s) (hcwd : 0 < (s.mem c.cwd).ref)
include h hcwd

theorem creatInode_serves {mode : UInt16} {full : Int}
    : wp (creatInode N c path mode trunc room full) (fun r t =>
      CreateOk c path ((S_IFREG ||| mode) &&& ~~~c.umask) s →
      TruncOk (create N c path ((S_IFREG ||| mode) &&& ~~~c.umask)) trunc s →
        Serves N s t [] r.toOption.toList)
      (CreatePanic ((S_IFREG ||| mode) &&& ~~~c.umask)) s := by
  unfold creatInode
  refine wp.seq (create_serves h hcwd).with_eq fun o t ht => ?_
  obtain ⟨⟨hpos, hs⟩, heq⟩ := ht
  cases o with
  | none => exact fun hok _ => hs fun _ => hok
  | some ip =>
    refine wp.imp (openFile_serves (N := N) (hpos ip rfl)) fun r u hu hok htr => ?_
    have hcr := hs fun _ => hok
    have hop := hu hcr.inv fun htrunc => (htr htrunc).of_ok heq ip rfl
    exact ⟨hop.inv, hcr.refs.trans hop.refs⟩

theorem openInode_serves :
    wp (openInode c path trunc room) (fun r t => TruncOk (namei c.cwd path) trunc s →
      Serves N s t [] r.toOption.toList) E s := by
  unfold openInode
  refine wp.seq (namei_moves h hcwd).with_eq fun o t ht => ?_
  obtain ⟨hw, heq⟩ := ht
  cases o with
  | none => exact fun _ => hw.serves
  | some ip =>
    have hr : 0 < (t.mem ip).ref := hw.held (by simp)
    have hl := hw.trans (Moves.lock hw.inv ip [ip])
    simp only [wp_bind]
    rw [wp_ilock hr (hw.inv.live ip hr).2]
    refine wp.imp (openFile_serves (N := N) (hl.held (by simp))) fun r u hu htr => ?_
    have hop := hu hl.inv fun htrunc => (htr htrunc).of_ok heq ip rfl
    exact ⟨hop.inv, hl.toRefs.trans hop.refs⟩

theorem chdirInode_serves :
    wp (chdirInode c path) (fun r t => (∀ e, r = .error e → Serves N s t [] []) ∧
      ∀ i, r = .ok i → Serves N s t [c.cwd] [i]) E s := by
  unfold chdirInode
  refine wp.seq (namei_moves h hcwd) fun o t hw => ?_
  cases o with
  | none => exact ⟨fun _ _ => hw.serves, fun _ hi => (by cases hi)⟩
  | some ip =>
    have hr : 0 < (t.mem ip).ref := hw.held (by simp)
    have hl := hw.trans (Moves.lock hw.inv ip [ip])
    have hrl : 0 < ((t.lock ip).mem ip).ref := hl.held (by simp)
    simp only [wp_bind]
    rw [wp_ilock hr (hw.inv.live ip hr).2, wp_get]
    split
    · rw [wp_bind, wp_iunlockput hrl]
      exact ⟨fun _ _ => (hl.trans (Moves.put hl.inv hrl [])).serves, fun _ hi => (by cases hi)⟩
    have hrc : 0 < ((t.lock ip).mem c.cwd).ref := hl.ref_pos hcwd
    have hrefs : Refs s (t.lock ip) [c.cwd] [c.cwd, ip] := fun i => by
      have := hl.toRefs i
      simp only [List.count_cons] at *
      omega
    rw [wp_bind, wp_iunlock hrl, wp_bind, wp_iput]
    refine ⟨fun _ he => (by cases he), fun i hi => ?_⟩
    cases hi
    exact ⟨hl.inv.put hrc, hrefs.trans (Refs.put hrc [ip])⟩

end Micro86.Tree
