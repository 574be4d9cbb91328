import Micro86.Tree.Directories

/-!
# References and path walks

* `Moves` — the references in `a` are exchanged for those in `b`; directories, and inodes held
  beyond `a`, are untouched.
* `namex_moves` — a path walk panics in no case and returns one reference.
-/

namespace Micro86.Tree

open Exec Function
open Fs (skipelem SLASH)

variable {Q : Unit → State → Prop} {name path : List UInt8}

variable {N : Nat} {x : Option Nat} {s t u : State} {i d : Nat} {E : String → Prop}

/-! ## The inode cache -/

namespace State

def lock (s : State) (i : Nat) : State := s.setMem i { s.mem i with valid := true }

theorem ref_get (j : Nat) : ((s.get i).mem j).ref = (s.mem j).ref + if j = i then 1 else 0 := by
  unfold get setMem
  by_cases hj : j = i
  · subst hj
    simp only [update_self, if_true]
    split
    · rename_i h
      rw [h]
    · rfl
  · simp [hj]

theorem valid_get (h : (s.mem i).ref = 0) :
    ((s.get i).mem i).valid = false := by simp [get, setMem, h]

theorem ref_lock (j : Nat) : ((s.lock i).mem j).ref = (s.mem j).ref := by
  unfold lock setMem
  by_cases hj : j = i
  · subst hj
    simp
  · simp [hj]

theorem valid_lock : ((s.lock i).mem i).valid = true := by simp [lock, setMem]

theorem ref_drop (j : Nat) : ((s.drop i).mem j).ref = (s.mem j).ref - if j = i then 1 else 0 := by
  unfold drop setMem
  by_cases hj : j = i
  · subst hj
    simp
  · simp [hj]

theorem ref_put (j : Nat) : ((s.put i).mem j).ref = (s.mem j).ref - if j = i then 1 else 0 := by
  unfold put
  split
  · rw [ref_drop]
    unfold free setMem setNode
    by_cases hj : j = i
    · subst hj
      simp
    · simp [hj]
  · exact ref_drop j

theorem node_put : (s.put i).node =
    if s.Last i then update s.node i { s.node i with mode := 0, dents := [] } else s.node := by
  unfold put
  split <;> rfl

theorem put_of_not_last (h : ¬ s.Last i) : s.put i = s.drop i := if_neg h

end State

section Rules

variable {α : Type}

theorem wp_iget {Q : Nat → State → Prop} : wp (iget i) Q E s ↔ Q i (s.get i) := .rfl

theorem wp_iput : wp (iput i) Q E s ↔ Q () (s.put i) := .rfl

theorem wp_iassign {f : Node → Node} :
    wp (iassign i f) Q E s ↔ Q () (s.setNode i (f (s.node i))) := .rfl

section

variable (hr : 0 < (s.mem i).ref)
include hr

theorem wp_ilock (hm : (s.node i).mode ≠ 0) :
    wp (ilock i) Q E s ↔ Q () (s.lock i) := by
  unfold ilock
  rw [wp_bind, wp_get, if_neg (by omega)]
  by_cases hv : (s.mem i).valid = false
  · rw [if_pos hv, wp_bind, wp_modify, if_neg hm]
    rfl
  have hself : s.lock i = s := by
    have hmem : ({ s.mem i with valid := true } : Mem) = s.mem i := by
      cases hmi : s.mem i with
      | mk ref valid =>
        rw [hmi] at hv
        simp only [Bool.not_eq_false] at hv
        rw [hv]
    unfold State.lock State.setMem
    rw [hmem, update_eq_self]
  rw [if_neg hv, hself]
  rfl

theorem wp_ilock_free (hv : (s.mem i).valid = false)
    (hm : (s.node i).mode = 0) : wp (ilock i) Q E s ↔ E "ilock: no type" := by
  unfold ilock
  rw [wp_bind, wp_get, if_neg (by omega), if_pos hv, wp_bind, wp_modify, if_pos hm]
  rfl

theorem wp_iunlock : wp (iunlock i) Q E s ↔ Q () s := by
  unfold iunlock
  rw [wp_bind, wp_get, if_neg (by omega)]
  rfl

theorem wp_iunlockput :
    wp (iunlockput i) Q E s ↔ Q () (s.put i) := by
  unfold iunlockput
  rw [wp_bind, wp_iunlock hr]
  rfl

end

theorem wp_dirlookup_none {Q : Option (Nat × Nat) → State → Prop} (hd : (s.node d).isDir)
    (hf : find name (s.node d).dents = none) : wp (dirlookup d name) Q E s ↔ Q none s := by
  unfold dirlookup
  rw [wp_bind, wp_get, if_neg (not_not.mpr hd), hf]
  rfl

theorem wp_dirlookup_some {e : Dent} {k : Nat} {Q : Option (Nat × Nat) → State → Prop}
    (hd : (s.node d).isDir) (hf : find name (s.node d).dents = some (e, k)) :
    wp (dirlookup d name) Q E s ↔ Q (some (e.ino, k)) (s.get e.ino) := by
  unfold dirlookup
  rw [wp_bind, wp_get, if_neg (not_not.mpr hd), hf]
  rfl

end Rules

/-! ## The invariant -/

/-- Well formed, and what is in memory is allocated. -/
structure Inv (N : Nat) (x : Option Nat) (s : State) : Prop where
  tree : WellFormed N s.node x
  live : ∀ i, 0 < (s.mem i).ref → i < N ∧ (s.node i).mode ≠ 0

/-- The references `a` become the references `b`. -/
structure Moves (N : Nat) (x : Option Nat) (s t : State) (a b : List Nat) : Prop where
  inv : Inv N x t
  refs : ∀ i, (t.mem i).ref + a.count i = (s.mem i).ref + b.count i
  nodes : ∀ i, t.node i = s.node i ∨
    ((t.node i).mode = 0 ∧ ¬ (s.node i).isDir ∧ (s.mem i).ref ≤ a.count i)

namespace Inv

theorem congr (h : Inv N x s) (hn : t.node = s.node)
    (hr : ∀ i, (t.mem i).ref = (s.mem i).ref) : Inv N x t :=
  ⟨by rw [hn]; exact h.tree, fun i hi => by rw [hn]; exact h.live i (by rwa [hr] at hi)⟩

theorem get (h : Inv N x s) (hi : i < N) (hm : (s.node i).mode ≠ 0) : Inv N x (s.get i) := by
  refine ⟨h.tree, fun j hj => ?_⟩
  by_cases hji : j = i
  · rw [hji]
    exact ⟨hi, hm⟩
  · rw [State.ref_get, if_neg hji] at hj
    exact h.live j hj

theorem put (h : Inv N x s) (hr : 0 < (s.mem i).ref) : Inv N x (s.put i) := by
  have hold : ∀ j, 0 < ((s.put i).mem j).ref → j < N ∧ (s.node j).mode ≠ 0 := fun j hj => by
    rw [State.ref_put] at hj
    exact h.live j (by omega)
  by_cases hl : s.Last i
  · refine ⟨?_, fun j hj => ?_⟩
    · rw [State.node_put, if_pos hl]
      exact h.tree.free (h.live i hr).1 (h.live i hr).2 hl.2.1
    · have hji : j ≠ i := by
        rintro rfl
        rw [State.ref_put, if_pos rfl, hl.2.2] at hj
        omega
      rw [State.node_put, if_pos hl, update_of_ne hji]
      exact hold j hj
  · exact ⟨by rw [State.node_put, if_neg hl]; exact h.tree, fun j hj => by
      rw [State.node_put, if_neg hl]; exact hold j hj⟩

end Inv

namespace Moves

variable {a b c : List Nat}

theorem refl (h : Inv N x s) (a : List Nat) :
    Moves N x s s a a := ⟨h, fun _ => rfl, fun _ => .inl rfl⟩

theorem trans (h : Moves N x s t a b) (h' : Moves N x t u b c) : Moves N x s u a c := by
  refine ⟨h'.inv, fun i => ?_, fun i => ?_⟩
  · have := h.refs i
    have := h'.refs i
    omega
  · rcases h.nodes i with hi | ⟨_, hi2, hi3⟩
    · rcases h'.nodes i with hj | ⟨hj1, hj2, hj3⟩
      · exact .inl (hj.trans hi)
      · have := h.refs i
        exact .inr ⟨hj1, by rwa [hi] at hj2, by omega⟩
    rcases h'.nodes i with hj | ⟨hj1, _, _⟩
    · exact .inr ⟨by rw [hj]; assumption, hi2, hi3⟩
    · exact .inr ⟨hj1, hi2, hi3⟩

theorem frame (h : Moves N x s t a b) (c : List Nat) : Moves N x s t (a ++ c) (b ++ c) := by
  refine ⟨h.inv, fun i => ?_, fun i => ?_⟩
  · rw [List.count_append, List.count_append]
    have := h.refs i
    omega
  · rcases h.nodes i with hi | ⟨hi1, hi2, hi3⟩
    · exact .inl hi
    · exact .inr ⟨hi1, hi2, by rw [List.count_append]; omega⟩

theorem get (h : Inv N x s) (hi : i < N) (hm : (s.node i).mode ≠ 0) (a : List Nat) :
    Moves N x s (s.get i) a (a ++ [i]) := by
  refine ⟨h.get hi hm, fun j => ?_, fun j => .inl rfl⟩
  rw [State.ref_get, List.count_append, List.count_singleton]
  by_cases hj : j = i
  · simp [hj]
    omega
  · simp [hj, Ne.symm hj]

theorem lock (h : Inv N x s) (i : Nat) (a : List Nat) : Moves N x s (s.lock i) a a :=
  ⟨h.congr rfl State.ref_lock, fun j => by rw [State.ref_lock], fun _ => .inl rfl⟩

theorem put (h : Inv N x s) (hr : 0 < (s.mem i).ref) (a : List Nat) :
    Moves N x s (s.put i) (i :: a) a := by
  refine ⟨h.put hr, fun j => ?_, fun j => ?_⟩
  · rw [State.ref_put, List.count_cons]
    by_cases hj : j = i
    · subst hj
      simp
      omega
    · simp [hj, Ne.symm hj]
  · rw [State.node_put]
    by_cases hl : s.Last i
    · rw [if_pos hl]
      by_cases hj : j = i
      · subst hj
        refine .inr ⟨by rw [update_self], h.tree.not_isDir (h.live j hr).1 hl.2.1, ?_⟩
        rw [hl.2.2, List.count_cons_self]
        omega
      · exact .inl (update_of_ne hj _ _)
    · rw [if_neg hl]
      exact .inl rfl

variable (h : Moves N x s t [] b)
include h

theorem held (hi : i ∈ b) : 0 < (t.mem i).ref := by
  have := h.refs i
  have := List.count_pos_iff.mpr hi
  rw [List.count_nil] at *
  omega

theorem ref_pos (hi : 0 < (s.mem i).ref) : 0 < (t.mem i).ref := by
  have := h.refs i
  rw [List.count_nil] at this
  omega

theorem kept (hi : 0 < (s.mem i).ref) : t.node i = s.node i :=
  (h.nodes i).resolve_right fun hi' => by
    have := hi'.2.2
    rw [List.count_nil] at this
    omega

end Moves

/-! ## Walks -/

theorem skipelem_length {rest : List UInt8} (h : skipelem path = some (name, rest)) :
    rest.length < path.length := by
  have hdrop :
      ∀ (f : UInt8 → Bool) (l : List UInt8), (l.dropWhile f).length ≤ l.length := fun f l =>
    (List.dropWhile_sublist f).length_le
  unfold skipelem at h
  split at h
  · cases h
  rename_i y ys hys
  have hle := hdrop (· == SLASH) path
  have hne : y ≠ SLASH := by
    have := List.head?_dropWhile_not (· == SLASH) path
    rw [hys] at this
    simpa using this
  rw [hys, List.length_cons] at hle
  have hrest : ((y :: ys).dropWhile (· != SLASH)).length ≤ ys.length := by
    rw [List.dropWhile_cons, if_pos (by simpa using hne)]
    exact hdrop _ _
  have := hdrop (· == SLASH) ((y :: ys).dropWhile (· != SLASH))
  rw [← (Prod.mk.inj (Option.some.inj h)).2]
  omega

theorem Inv.named (h : Inv N x s) (hi : d < N) (hd : (s.node d).isDir) {e : Dent} {k : Nat}
    (hf : find name (s.node d).dents = some (e, k)) : e.ino < N ∧ (s.node e.ino).mode ≠ 0 := by
  obtain ⟨hk, hname⟩ := find_some hf
  exact h.tree.shaped.named d hi hd e (List.mem_of_getElem? hk) (hasName_iff.mp hname).1

theorem namexLoop_moves {nameiparent : Bool} :
    ∀ (fuel : Nat) {s : State} {ip : Nat} {path name : List UInt8},
    Inv N x s → 0 < (s.mem ip).ref → path.length < fuel →
    wp (namexLoop nameiparent fuel ip path name)
      (fun r t => Moves N x s t [ip] (r.toList.map Prod.fst) ∧
      (nameiparent = true → ∀ p ∈ r, (t.node p.1).isDir)) E s
  | 0, _, _, _, _, _, _, hlen => absurd hlen (Nat.not_lt_zero _)
  | fuel + 1, s, ip, path, name, h, hr, hlen => by
    unfold namexLoop
    cases hs : skipelem path with
    | none =>
      cases nameiparent with
      | true => exact ⟨Moves.put h hr [], fun _ p hp => by cases hp⟩
      | false => exact ⟨Moves.refl h [ip], fun hf => by cases hf⟩
    | some p =>
      obtain ⟨elem, rest⟩ := p
      have hl : Moves N x s (s.lock ip) [ip] [ip] := Moves.lock h ip _
      have hr' : 0 < ((s.lock ip).mem ip).ref := by rwa [State.ref_lock]
      have hput := hl.trans (Moves.put hl.inv hr' [])
      simp only [wp_bind]
      rw [wp_ilock hr (h.live ip hr).2, wp_get]
      by_cases hd : ((s.lock ip).node ip).isDir
      · rw [if_neg (not_not.mpr hd)]
        by_cases hstop : nameiparent = true ∧ rest = []
        · rw [if_pos hstop, wp_bind, wp_iunlock hr']
          refine ⟨hl, fun _ p hp => ?_⟩
          cases hp
          exact hd
        rw [if_neg hstop, wp_bind]
        cases hf : find elem ((s.lock ip).node ip).dents with
        | none =>
          rw [wp_dirlookup_none hd hf]
          simp only [wp_bind]
          rw [wp_iunlockput hr']
          exact ⟨hput, fun _ p hp => by cases hp⟩
        | some ek =>
          obtain ⟨e, k⟩ := ek
          rw [wp_dirlookup_some hd hf]
          simp only [wp_bind]
          have hnamed := hl.inv.named (h.live ip hr).1 hd hf
          have hg := hl.trans (Moves.get hl.inv hnamed.1 hnamed.2 [ip])
          have hrg : 0 < (((s.lock ip).get e.ino).mem ip).ref := by
            rw [State.ref_get]
            omega
          rw [wp_iunlockput hrg]
          have hp : Moves N x s _ [ip] [e.ino] := hg.trans (Moves.put hg.inv hrg [e.ino])
          -- the reference to the next directory outlives that to this one
          have hre : 0 < ((((s.lock ip).get e.ino).put ip).mem e.ino).ref := by
            have hcount := (Moves.put hg.inv hrg [e.ino]).refs e.ino
            have hget := State.ref_get (s := s.lock ip) (i := e.ino) e.ino
            rw [if_pos rfl] at hget
            simp only [List.count_cons, List.count_nil, beq_self_eq_true, if_true] at hcount
            by_cases hei : ip = e.ino
            · rw [← hei] at hcount hget ⊢
              simp at hcount
              omega
            · simp [hei] at hcount
              omega
          refine wp.mono (namexLoop_moves fuel hp.inv hre ?_)
            (fun r t ht => ⟨hp.trans ht.1, ht.2⟩) fun _ hm => hm
          have := skipelem_length hs
          omega
      · rw [if_pos hd, wp_bind, wp_iunlockput hr']
        exact ⟨hput, fun _ p hp => by cases hp⟩

/-- **A path walk never panics**, returns at most one reference and leaves directories alone. -/
theorem namex_moves {cwd : Nat} {nameiparent : Bool} (h : Inv N x s) (hcwd : 0 < (s.mem cwd).ref) :
    wp (namex cwd path nameiparent) (fun r t => Moves N x s t [] (r.toList.map Prod.fst) ∧
      (nameiparent = true → ∀ p ∈ r, (t.node p.1).isDir)) E s := by
  unfold namex
  split
  · have hroot := h.tree.shaped.root.1
    have hg := Moves.get h h.tree.shaped.root_lt (Shaped.mode_ne hroot) []
    rw [wp_bind, wp_iget]
    refine wp.imp (namexLoop_moves _ hg.inv (hg.held (by simp)) (Nat.lt_succ_self _))
      fun r t ht => ⟨hg.trans ht.1, ht.2⟩
  have hself : s.setMem cwd { s.mem cwd with ref := (s.mem cwd).ref + 1 } = s.get cwd := by
    unfold State.get
    rw [if_neg (by omega)]
  have hg := Moves.get h (h.live cwd hcwd).1 (h.live cwd hcwd).2 []
  unfold idup
  simp only [wp_bind, wp_modify, wp_pure, hself]
  refine wp.imp (namexLoop_moves _ hg.inv (hg.held (by simp)) (Nat.lt_succ_self _))
    fun r t ht => ⟨hg.trans ht.1, ht.2⟩

theorem namei_moves {cwd : Nat} (h : Inv N x s) (hcwd : 0 < (s.mem cwd).ref) :
    wp (namei cwd path) (fun r t => Moves N x s t [] r.toList) E s := by
  unfold namei
  refine wp.seq (namex_moves h hcwd) fun r t ht => ?_
  cases r with
  | none | some p => exact ht.1

end Micro86.Tree
