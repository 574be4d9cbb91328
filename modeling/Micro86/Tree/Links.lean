import Micro86.Tree.Walks

/-!
# Links

* `LinkRoom`, `LinkFile` — when `link` keeps the invariant, as weakest preconditions of the path
  walk that finds the old name.
-/

namespace Micro86.Tree

open Exec Function
open Fs (S_IFMT S_IFDIR S_IFREG strncpy namecmp DOT DOTDOT asShort)

variable {N : Nat} {x : Option Nat} {s t u : State} {i d dp ip k : Nat}
  {E : String → Prop} {name : List UInt8}
variable {a b : List Nat} {c : Cred} {new : List UInt8}

/-- At least the references in `b` were gained for those in `a`. -/
def Refs (s t : State) (a b : List Nat) : Prop :=
  ∀ i, (s.mem i).ref + b.count i ≤ (t.mem i).ref + a.count i

theorem Refs.trans {c : List Nat} (h : Refs s t a b) (h' : Refs t u b c) :
    Refs s u a c := fun i => by
  have := h i
  have := h' i
  omega

theorem Refs.frame (h : Refs s t a b) (c : List Nat) : Refs s t (a ++ c) (b ++ c) := fun i => by
  rw [List.count_append, List.count_append]
  have := h i
  omega

theorem Refs.pos (h : Refs s t a a) (hi : 0 < (s.mem i).ref) : 0 < (t.mem i).ref := by
  have := h i
  omega

theorem Refs.put (hr : 0 < (s.mem i).ref) (a : List Nat) :
    Refs s (s.put i) (i :: a) a := fun j => by
  rw [State.ref_put, List.count_cons]
  by_cases hj : j = i
  · subst hj
    simp
    omega
  · simp [hj]

structure Serves (N : Nat) (s t : State) (a b : List Nat) : Prop where
  inv : Inv N none t
  refs : Refs s t a b

theorem Moves.serves (h : Moves N none s t a b) : Serves N s t a b :=
  ⟨h.inv, fun i => (h.refs i).symm.le⟩

theorem Moves.toRefs (h : Moves N x s t a b) : Refs s t a b := fun i => (h.refs i).symm.le

theorem Serves.put (h : Inv N none s) (hr : 0 < (s.mem i).ref) : Serves N s (s.put i) (i :: a) a :=
  (Moves.put h hr a).serves

/-! ## Edits of the state -/

namespace State

def link (s : State) (i : Nat) : State :=
  s.setNode i { s.node i with nlink := (s.node i).nlink + 1 }

def unlink (s : State) (i : Nat) : State :=
  s.setNode i { s.node i with nlink := (s.node i).nlink - 1 }

def enter (s : State) (d : Nat) (name : List UInt8) (inum : Nat) : State :=
  s.setNode d { s.node d with
    dents := store (s.node d).dents (place (s.node d).dents) ⟨inum % 65536, strncpy DIRSIZ name⟩ }

def erase (s : State) (d k : Nat) : State :=
  s.setNode d { s.node d with dents := (s.node d).dents.set k ⟨0, List.replicate DIRSIZ 0⟩ }

end State

theorem Inv.setNode (h : Inv N x s) {n : Node} {y : Option Nat}
    (hw : WellFormed N (update s.node i n) y) (hm : n.mode ≠ 0) : Inv N y (s.setNode i n) := by
  refine ⟨hw, fun j hj => ?_⟩
  show j < N ∧ (update s.node i n j).mode ≠ 0
  by_cases hji : j = i
  · rw [hji, update_self]
    exact ⟨(h.live i (hji ▸ hj)).1, hm⟩
  · rw [update_of_ne hji]
    exact h.live j hj

theorem Inv.link (h : Inv N none s) (hr : 0 < (s.mem i).ref)
    (hmax : asShort (s.node i).nlink < 32767) : Inv N (some i) (s.link i) :=
  h.setNode (h.tree.link (h.live i hr).1 (h.live i hr).2 hmax) (h.live i hr).2

theorem Inv.unlink (h : Inv N (some i) s) (hr : 0 < (s.mem i).ref) : Inv N none (s.unlink i) :=
  h.setNode (h.tree.unlink (h.live i hr).1 (h.live i hr).2) (h.live i hr).2

/-! ## Entries -/

theorem wp_dirlink {inum : Nat} {Q : Int → State → Prop} (hd : (s.node d).isDir)
    (hf : find name (s.node d).dents = none) : wp (dirlink d name inum) Q E s ↔
      if MAXFILE * BSIZE < DIRENTSIZE * place (s.node d).dents + DIRENTSIZE then E "dirlink"
        else Q 0 (s.enter d name inum) := by
  unfold dirlink
  rw [wp_bind, wp_dirlookup_none hd hf]
  simp only [wp_bind, wp_get]
  split <;> rfl

theorem dirlink_spec {inum : Nat} (h : Inv N x s) (hd : d < N) (hdir : (s.node d).isDir) :
    wp (dirlink d name inum) (fun r t => (r < 0 ∧ Moves N x s t [] []) ∨
      (r = 0 ∧ find name (s.node d).dents = none ∧ t = s.enter d name inum)) (· = "dirlink") s := by
  cases hf : find name (s.node d).dents with
  | none =>
    rw [wp_dirlink hdir hf]
    split
    · rfl
    · exact .inr ⟨rfl, rfl, rfl⟩
  | some ek =>
    have hnamed := h.named hd hdir hf
    have hg := Moves.get h hnamed.1 hnamed.2 []
    unfold dirlink
    rw [wp_bind, wp_dirlookup_some hdir hf]
    exact .inl ⟨by decide, hg.trans (Moves.put hg.inv (hg.held (by simp)) [])⟩

theorem isDot_of_find_none (h : Shaped N s.node) (hd : d < N) (hdir : (s.node d).isDir)
    (hf : find name (s.node d).dents = none) : (Dent.mk i (strncpy DIRSIZ name)).isDot = false := by
  obtain ⟨a, b, hdents, ha, _⟩ := (h.shape d hd hdir).dents
  have hfirst := find_none hf (e := ⟨d, a⟩) (by rw [hdents]; simp)
  have hne : cstr DIRSIZ name ≠ cstr DIRSIZ DOT := fun he => by
    have hhas : hasName name ⟨d, a⟩ = true :=
      hasName_iff.mpr ⟨h.ne_zero (Shaped.mode_ne hdir), he.trans ha.symm⟩
    rw [hfirst] at hhas
    cases hhas
  show (cstr DIRSIZ (strncpy DIRSIZ name) == cstr DIRSIZ DOT) = false
  rw [cstr_strncpy]
  exact beq_eq_false_iff_ne.mpr hne

theorem Inv.enter (h : Inv N (some i) s) (hd : d < N) (hdir : (s.node d).isDir)
    (hr : 0 < (s.mem i).ref)
    (hnd : ¬ (s.node i).isDir) (hf : find name (s.node d).dents = none) :
    Inv N none (s.enter d name i) := by
  obtain ⟨hi, hm⟩ := h.live i hr
  have hsmall : i % 65536 = i := Nat.mod_eq_of_lt (hi.trans_le h.tree.shaped.small)
  unfold State.enter
  rw [hsmall]
  exact h.setNode (h.tree.enter hd hdir hi hm hnd (isDot_of_find_none h.tree.shaped hd hdir hf))
    (Shaped.mode_ne hdir)

theorem isDots_eq_false (h : isDots name = false) :
    cstr DIRSIZ name ≠ cstr DIRSIZ DOT ∧ cstr DIRSIZ name ≠ cstr DIRSIZ DOTDOT := by
  unfold isDots at h
  rw [Bool.or_eq_false_iff, beq_eq_false_iff_ne, beq_eq_false_iff_ne,
    ne_eq, ne_eq, namecmp_eq_zero, namecmp_eq_zero] at h
  exact h

theorem find_place (h : Shaped N s.node) (hd : d < N) (hdir : (s.node d).isDir)
    (hdots : isDots name = false) {e : Dent}
    (hf : find name (s.node d).dents = some (e, k)) :
    ∃ k', k = k' + 2 ∧ (s.node d).dents[k' + 2]? = some e := by
  obtain ⟨hk, hname⟩ := find_some hf
  obtain ⟨hdot, hdotdot⟩ := isDots_eq_false hdots
  obtain ⟨a, b, hdents, ha, hb⟩ := (h.shape d hd hdir).dents
  have hstr := (hasName_iff.mp hname).2
  match k, hk with
  | 0, hk =>
    rw [hdents, List.getElem?_cons_zero] at hk
    rw [← Option.some.inj hk] at hstr
    exact absurd (hstr.trans ha) hdot
  | 1, hk =>
    rw [hdents, List.getElem?_cons_succ, List.getElem?_cons_zero] at hk
    rw [← Option.some.inj hk] at hstr
    exact absurd (hstr.trans hb) hdotdot
  | k' + 2, hk => exact ⟨k', rfl, hk⟩

/-! ## Links -/

/-- The inode under the old name has room for one more link. -/
def LinkRoom (c : Cred) (old : List UInt8) (s : State) : Prop :=
  wp (namei c.cwd old) (fun o t => ∀ i ∈ o, asShort (t.node i).nlink < 32767) (fun _ => True) s

/-- The old name is not that of a directory. -/
def LinkFile (c : Cred) (old : List UInt8) (s : State) : Prop :=
  wp (namei c.cwd old) (fun o t => ∀ i ∈ o, ¬ (t.node i).isDir) (fun _ => True) s

theorem linkBad_serves (h : Inv N (some ip) s) (hr : 0 < (s.mem ip).ref) :
    wp (linkBad ip) (fun _ t => Serves N s t [ip] []) E s := by
  have hl := Moves.lock h ip [ip]
  have hr' : 0 < ((s.lock ip).mem ip).ref := hl.toRefs.pos hr
  unfold linkBad
  simp only [wp_bind]
  rw [wp_ilock hr (h.live ip hr).2]
  refine wp_iassign.mpr ((wp_iunlockput ?_).mpr ⟨(hl.inv.unlink hr').put hr', hl.toRefs.trans ?_⟩)
  · exact hr'
  · exact Refs.put (s := (s.lock ip).unlink ip) hr' []

theorem linkTaken_serves (h : Inv N (some ip) s) (hdp : 0 < (s.mem dp).ref)
    (hr : 0 < ((s.put dp).mem ip).ref) :
    wp (iunlockput dp >>= fun _ => linkBad ip) (fun _ t => Serves N s t [dp, ip] []) E s := by
  rw [wp_bind, wp_iunlockput hdp]
  refine wp.imp (linkBad_serves (h.put hdp) hr) fun r t ht => ⟨ht.inv, ?_⟩
  exact (Refs.put hdp [ip]).trans ht.refs

variable (h : Inv N none s)
include h

theorem linkTo_serves (hr : 0 < (s.mem ip).ref)
    (hcwd : 0 < (s.mem c.cwd).ref) (hmax : asShort (s.node ip).nlink < 32767) :
    wp (linkTo c ip new) (fun r t => (r = 0 → ¬ (s.node ip).isDir) →
      Serves N s t [ip] []) (· = "dirlink") s := by
  have h1 := h.link hr hmax
  unfold linkTo
  simp only [wp_bind]
  refine wp_iassign.mpr ((wp_iunlock ?_).mpr (wp.imp (namex_moves h1 hcwd) (fun o t ht => ?_)))
  · exact hr
  obtain ⟨hw, hdir⟩ := ht
  have hrt : 0 < (t.mem ip).ref := hw.ref_pos hr
  cases o with
  | none =>
    refine wp.imp (linkBad_serves hw.inv hrt) fun r u hu _ => ?_
    exact ⟨hu.inv, (hw.frame [ip]).toRefs.trans hu.refs⟩
  | some p =>
    obtain ⟨dp, name⟩ := p
    have hdp : 0 < (t.mem dp).ref := hw.held (by simp)
    obtain ⟨hdplt, hdpm⟩ := hw.inv.live dp hdp
    have hl := Moves.lock hw.inv dp []
    have hdpdir : ((t.lock dp).node dp).isDir := hdir rfl (dp, name) rfl
    have hrefs : Refs s (t.lock dp) [ip] [dp, ip] :=
      (hw.frame [ip]).toRefs.trans (hl.toRefs.frame [dp, ip])
    simp only [wp_bind]
    rw [wp_ilock hdp hdpm]
    refine wp.imp (dirlink_spec hl.inv hdplt hdpdir) fun r u hu => ?_
    rcases hu with ⟨hneg, hu⟩ | ⟨hzero, hfind, rfl⟩
    · have hrdp : 0 < (u.mem dp).ref := hu.ref_pos (hl.ref_pos hdp)
      have hput : Refs s u [ip] [dp, ip] := hrefs.trans (hu.toRefs.frame [dp, ip])
      rw [if_pos hneg]
      refine wp.imp (linkTaken_serves hu.inv hrdp ((hput.trans (Refs.put hrdp [ip])).pos hr))
        fun r v hv _ => ?_
      exact ⟨hv.inv, hput.trans hv.refs⟩
    have hrdp : 0 < (((t.lock dp).enter dp name ip).mem dp).ref := hl.ref_pos hdp
    have hput : Refs s (((t.lock dp).enter dp name ip).put dp) [ip] [ip] :=
      hrefs.trans (Refs.put hrdp [ip])
    rw [if_neg (by omega)]
    simp only [wp_bind]
    refine (wp_iunlockput hrdp).mpr (wp_iput.mpr fun hcond => ?_)
    -- the link was made, so this is no directory, before the walk and after it
    have hnd : ¬ ((t.lock dp).node ip).isDir := fun hd => hcond rfl (by
      have hnode : (t.lock dp).node ip = _ := (hw.kept hr).trans (update_self ..)
      rw [hnode] at hd
      exact hd)
    have hent := hl.inv.enter hdplt hdpdir (hl.ref_pos hrt) hnd hfind
    have hrip := hput.pos hr
    exact ⟨(hent.put hrdp).put hrip, hput.trans (Refs.put hrip [])⟩

theorem sysLink_serves {old : List UInt8} (hcwd : 0 < (s.mem c.cwd).ref)
    (hroom : LinkRoom c old s) :
    wp (sysLink c old new) (fun r t => (r = 0 → LinkFile c old s) →
      Serves N s t [] []) (· = "dirlink") s := by
  unfold sysLink
  refine wp.seq (namei_moves h hcwd).with_eq fun o t ht => ?_
  obtain ⟨hw, heq⟩ := ht
  cases o with
  | none => exact fun _ => hw.serves
  | some ip =>
    have hr : 0 < (t.mem ip).ref := hw.held (by simp)
    have hl := Moves.lock hw.inv ip []
    simp only [wp_bind]
    rw [wp_ilock hr (hw.inv.live ip hr).2]
    refine wp.imp
      (linkTo_serves hl.inv (hl.ref_pos hr) (hl.ref_pos (hw.ref_pos hcwd)) (hroom.of_ok heq ip rfl))
      fun r u hu hcond => ?_
    have hser := hu fun hz => (hcond hz).of_ok heq ip rfl
    exact ⟨hser.inv, (hw.toRefs.trans (hl.toRefs.frame [ip])).trans hser.refs⟩

theorem sysLinkat_serves {old : List UInt8} (hcwd : 0 < (s.mem c.cwd).ref)
    (hroom : LinkRoom c old s) :
    wp (sysLinkat c old new) (fun _ t => Serves N s t [] []) (· = "dirlink") s := by
  unfold sysLinkat
  refine wp.seq (namei_moves h hcwd).with_eq fun o t ht => ?_
  obtain ⟨hw, heq⟩ := ht
  cases o with
  | none => exact hw.serves
  | some ip =>
    have hr : 0 < (t.mem ip).ref := hw.held (by simp)
    have hl := Moves.lock hw.inv ip []
    have hrefs : Refs s (t.lock ip) [] [ip] := hw.toRefs.trans (hl.toRefs.frame [ip])
    simp only [wp_bind]
    rw [wp_ilock hr (hw.inv.live ip hr).2, wp_get]
    by_cases hd : ((t.lock ip).node ip).isDir
    · rw [if_pos hd, wp_bind, wp_iunlockput (hl.ref_pos hr)]
      exact ⟨hl.inv.put (hl.ref_pos hr), hrefs.trans (Refs.put (hl.ref_pos hr) [])⟩
    rw [if_neg hd]
    refine wp.imp
      (linkTo_serves hl.inv (hl.ref_pos hr) (hl.ref_pos (hw.ref_pos hcwd)) (hroom.of_ok heq ip rfl))
      fun r u hu => ?_
    exact ⟨(hu fun _ => hd).inv, hrefs.trans (hu fun _ => hd).refs⟩

end Micro86.Tree
