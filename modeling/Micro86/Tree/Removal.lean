import Micro86.Tree.Links

/-!
# `unlink` and `rmdir`

* `sysUnlink_serves`, `sysRmdir_serves` — a removal keeps the invariant under that condition, and
  in no case finds a link count below one.
-/

namespace Micro86.Tree

open Exec
open Fs (asShort)

variable {Q : Int → State → Prop} {k' : Nat}

variable {N : Nat} {s t : State} {dp ip k : Nat} {E : String → Prop} {name : List UInt8}

def State.removeDir (s : State) (dp k ip : Nat) : State :=
  ((((s.erase dp k).unlink dp).put dp).unlink ip).put ip

def State.removeFile (s : State) (dp k ip : Nat) : State :=
  (((s.erase dp k).put dp).unlink ip).put ip

/-- The entry at place `k + 2` of the directory `dp` names `ip`, and both are held. -/
structure Entered (N : Nat) (s : State) (dp k ip : Nat) : Prop where
  inv : Inv N none s
  dir : (s.node dp).isDir
  parent_held : 0 < (s.mem dp).ref
  held : 0 < (s.mem ip).ref
  entry : ∃ nm, (s.node dp).dents[k + 2]? = some ⟨ip, nm⟩

namespace Entered

variable (h : Entered N s dp k ip)

include h

theorem parent_lt : dp < N := (h.inv.live dp h.parent_held).1

theorem live : ip ≠ 0 := h.inv.tree.shaped.ne_zero (h.inv.live ip h.held).2

/-- The entry is a link, so there is at least one. -/
theorem nlink_pos : 0 < asShort (s.node ip).nlink := by
  obtain ⟨nm, hk⟩ := h.entry
  have hS := h.inv.tree.shaped
  have hrest := List.mem_of_getElem? (WellFormed.rest_of_getElem? hS h.parent_lt h.dir hk)
  have hdot := (hS.shape dp h.parent_lt h.dir).plain _ hrest h.live
  have hlinks : 0 < links N s.node ip :=
    links_pos h.parent_lt (names_pos h.dir (List.mem_of_getElem? hk) rfl hdot)
  rw [h.inv.tree.counted ip (h.inv.live ip h.held).1 (h.inv.live ip h.held).2, noLink]
  omega

theorem removeFile (hne : dp ≠ ip) (hnd : ¬ (s.node ip).isDir) :
    Inv N none (s.removeFile dp (k + 2) ip) := by
  obtain ⟨nm, hk⟩ := h.entry
  have herase : Inv N (some ip) (s.erase dp (k + 2)) :=
    h.inv.setNode (h.inv.tree.erase h.parent_lt h.dir hk h.live hnd rfl) (Shaped.mode_ne h.dir)
  have hput := herase.put h.parent_held
  have hr : 0 < (((s.erase dp (k + 2)).put dp).mem ip).ref := by
    rw [State.ref_put, if_neg hne.symm]
    exact h.held
  exact (hput.unlink hr).put hr

theorem removes (hdir : (s.node ip).isDir) (hempty : ∀ e ∈ (s.node ip).rest, e.ino = 0) :
    Removes N s.node dp ip k
      { s.node ip with mode := 0, nlink := (s.node ip).nlink - 1, dents := [] }
      (((s.erase dp (k + 2)).unlink dp).node dp) := by
  have hnode : ((s.erase dp (k + 2)).unlink dp).node dp = { s.node dp with
      nlink := (s.node dp).nlink - 1, dents :=
        (s.node dp).dents.set (k + 2) ⟨0, List.replicate DIRSIZ 0⟩ } := by
    simp [State.unlink, State.erase, State.setNode]
  rw [hnode]
  exact ⟨h.inv.tree, h.parent_lt, h.dir, h.entry, hdir, hempty, rfl, rfl, rfl, _, rfl, rfl⟩

/-- The only reference to the directory is ours, so it is freed. -/
theorem removeDir (hdir : (s.node ip).isDir) (hempty : ∀ e ∈ (s.node ip).rest, e.ino = 0)
    (hlast : (s.mem ip).ref = 1)
    (hvalid : (s.mem ip).valid = true) : Inv N none (s.removeDir dp (k + 2) ip) := by
  have hrm := h.removes hdir hempty
  have hne := hrm.ne
  have hw := hrm.wellFormed
  have hparent : ¬ ((s.erase dp (k + 2)).unlink dp).Last dp := fun hl => by
    have hpos := hw.nlink_of_dir h.parent_lt (hrm.dirs.mpr ⟨hne.symm, h.dir⟩)
    rw [after_parent, hl.2.1] at hpos
    exact absurd hpos (by decide)
  have hone : (s.node ip).nlink - 1 = 0 :=
    asShort_eq_zero (by rw [asShort_sub h.nlink_pos, hrm.one_link]; rfl)
  have hlastip : ((((s.erase dp (k + 2)).unlink dp).put dp).unlink ip).Last ip := by
    rw [State.put_of_not_last hparent]
    refine ⟨?_, ?_, ?_⟩
    · simpa [State.unlink, State.drop, State.erase, State.setNode, State.setMem, hne] using hvalid
    · simpa [State.unlink, State.drop, State.erase, State.setNode, State.setMem, hne] using hone
    · simpa [State.unlink, State.drop, State.erase, State.setNode, State.setMem, hne] using hlast
  have hnode : (s.removeDir dp (k + 2) ip).node = after s.node dp ip
      { s.node ip with mode := 0, nlink := (s.node ip).nlink - 1, dents := [] }
        (((s.erase dp (k + 2)).unlink dp).node dp) := by
    unfold State.removeDir
    rw [State.node_put, if_pos hlastip, State.put_of_not_last hparent]
    funext j
    by_cases hji : j = ip
    · subst hji
      simp [State.unlink, State.drop, State.erase, State.setNode, State.setMem, hne]
    by_cases hjd : j = dp
    · subst hjd
      simp [State.unlink, State.drop, State.setNode, State.setMem, hji]
    · simp [State.unlink, State.drop, State.erase, State.setNode, State.setMem, hji, hjd]
  have hrefs : ∀ j, ((s.removeDir dp (k + 2) ip).mem j).ref =
      (s.mem j).ref - (if j = dp then 1 else 0) - if j = ip then 1 else 0 := by
    intro j
    unfold State.removeDir
    rw [State.ref_put]
    show (((((s.erase dp (k + 2)).unlink dp).put dp).mem j).ref) - _ = _
    rw [State.ref_put]
    rfl
  refine ⟨by rw [hnode]; exact hw, fun j hj => ?_⟩
  rw [hrefs] at hj
  have hji : j ≠ ip := by
    rintro rfl
    rw [if_pos rfl] at hj
    omega
  rw [hnode, hrm.modes hji]
  exact h.inv.live j (by omega)

variable (hne : dp ≠ ip)
include hne

theorem removeDir_refs : Refs s (s.removeDir dp (k + 2) ip) [dp, ip] [] := by
  have hr : 0 < ((((s.erase dp (k + 2)).unlink dp).put dp).mem ip).ref := by
    rw [State.ref_put, if_neg hne.symm]
    exact h.held
  exact (Refs.put (s := (s.erase dp (k + 2)).unlink dp) h.parent_held [ip]).trans
    (Refs.put (s := (((s.erase dp (k + 2)).unlink dp).put dp).unlink ip) hr [])

theorem removeFile_refs : Refs s (s.removeFile dp (k + 2) ip) [dp, ip] [] := by
  have hr : 0 < (((s.erase dp (k + 2)).put dp).mem ip).ref := by
    rw [State.ref_put, if_neg hne.symm]
    exact h.held
  exact (Refs.put (s := s.erase dp (k + 2)) h.parent_held [ip]).trans
    (Refs.put (s := ((s.erase dp (k + 2)).put dp).unlink ip) hr [])

theorem wp_rmdirEntry :
    wp (rmdirEntry dp (k + 2) ip) Q E s ↔ Q 0 (s.removeDir dp (k + 2) ip) := by
  have hr : 0 < (((((s.erase dp (k + 2)).unlink dp).put dp).unlink ip).mem ip).ref := by
    show 0 < (((((s.erase dp (k + 2)).unlink dp).put dp).mem ip)).ref
    rw [State.ref_put, if_neg hne.symm]
    exact h.held
  unfold rmdirEntry
  simp only [wp_bind]
  exact (wp_iunlockput (s := (s.erase dp (k + 2)).unlink dp) h.parent_held).trans (wp_iunlockput hr)

/-- `unlink` of a directory does what `rmdir` does. -/
theorem wp_unlinkEntry :
    wp (unlinkEntry dp (k + 2) ip) Q E s ↔
      if (s.node ip).isDir then Q 0 (s.removeDir dp (k + 2) ip)
        else Q 0 (s.removeFile dp (k + 2) ip) := by
  have hnode : (s.erase dp (k + 2)).node ip = s.node ip := Function.update_of_ne hne.symm _ _
  have herase : ∀ {R : Unit → State → Prop}, wp (Tree.erase dp (k + 2)) R E s ↔
      R () (s.erase dp (k + 2)) := .rfl
  unfold unlinkEntry
  simp only [wp_bind]
  rw [herase]
  unfold dropParent
  rw [wp_bind, wp_get]
  by_cases hdir : (s.node ip).isDir
  · have hrm := h.wp_rmdirEntry (E := E) hne (Q := Q)
    unfold rmdirEntry at hrm
    simp only [wp_bind] at hrm
    rw [if_pos (by rw [hnode]; exact hdir), if_pos hdir]
    exact hrm
  have hr : 0 < ((((s.erase dp (k + 2)).put dp).unlink ip).mem ip).ref := by
    show 0 < ((((s.erase dp (k + 2)).put dp).mem ip)).ref
    rw [State.ref_put, if_neg hne.symm]
    exact h.held
  rw [if_neg (by rw [hnode]; exact hdir), if_neg hdir, wp_pure]
  exact (wp_iunlockput (s := s.erase dp (k + 2)) h.parent_held).trans (wp_iunlockput hr)

end Entered

/-- The name is not that of a directory that someone holds. -/
def RemoveOk (c : Cred) (path : List UInt8) (s : State) : Prop :=
  wp (nameiparent c.cwd path) (fun o t => ∀ p ∈ o, ∀ e ∈ find p.2 (t.node p.1).dents,
    (t.node e.1.ino).isDir → (s.mem e.1.ino).ref = 0) (fun _ => True) s

theorem found_entered (hw : Moves N none s t [] [dp]) (hdir : (t.node dp).isDir)
    (hdots : isDots name = false) {e : Dent}
    (hf : find name (t.node dp).dents = some (e, k)) : ∃ k', k = k' + 2 ∧
      Entered N (((t.lock dp).get e.ino).lock e.ino) dp k' e.ino ∧
      Moves N none s (((t.lock dp).get e.ino).lock e.ino) [] [dp, e.ino] := by
  have hr : 0 < (t.mem dp).ref := hw.held (by simp)
  have hdp := (hw.inv.live dp hr).1
  have hnamed := hw.inv.named hdp hdir hf
  have hl := Moves.lock hw.inv dp [dp]
  have hg := Moves.get hl.inv hnamed.1 hnamed.2 [dp]
  have hall := (hw.trans hl).trans (hg.trans (Moves.lock hg.inv e.ino _))
  obtain ⟨k', hk, hentry⟩ := find_place hw.inv.tree.shaped hdp hdir hdots hf
  exact ⟨k', hk, ⟨hall.inv, hdir, hall.held (by simp), hall.held (by simp), e.name, hentry⟩, hall⟩

section

variable (h : Entered N t dp k' ip) (hm : Moves N none s t [] [dp, ip])
include h hm

theorem Entered.removedDir (hdir : (t.node ip).isDir)
    (hempty : ∀ e ∈ (t.node ip).rest, e.ino = 0) (hvalid : (t.mem ip).valid = true)
    (hfree : (s.mem ip).ref = 0) :
    Serves N s (t.removeDir dp (k' + 2) ip) [] [] := by
  have hne := (h.removes hdir hempty).ne
  have hlast : (t.mem ip).ref = 1 := by
    have hcount := hm.refs ip
    simp only [List.count_cons, if_true, beq_iff_eq, if_neg hne.symm] at hcount
    omega
  exact ⟨h.removeDir hdir hempty hlast hvalid, hm.toRefs.trans (h.removeDir_refs hne.symm)⟩

theorem Entered.removedFile (hnd : ¬ (t.node ip).isDir) :
    Serves N s (t.removeFile dp (k' + 2) ip) [] [] := by
  have hne : dp ≠ ip := fun he => hnd (he ▸ h.dir)
  exact ⟨h.removeFile hne hnd, hm.toRefs.trans (h.removeFile_refs hne)⟩

theorem Entered.refused {r : Int}
    (hQ : ∀ u, Serves N s u [] [] → Q r u) :
    wp (iunlockput ip >>= fun _ => iunlockput dp >>= fun _ => pure r) Q E t := by
  have hswap : Refs s t [] [ip, dp] := fun i => by
    have := hm.toRefs i
    simp only [List.count_cons] at *
    omega
  have hput := hswap.trans (Refs.put h.held [dp])
  have hr : 0 < ((t.put ip).mem dp).ref := by
    have := hput dp
    simp only [List.count_cons, beq_self_eq_true, if_true] at this
    omega
  rw [wp_bind, wp_iunlockput h.held, wp_bind, wp_iunlockput hr]
  exact hQ _ ⟨(h.inv.put h.held).put hr, hput.trans (Refs.put hr [])⟩

end

theorem lookup_entered {r : Int} {body : Nat → Nat → TreeM Int} (hw : Moves N none s t [] [dp])
    (hd : (t.node dp).isDir) (hdots : isDots name = false) (hnone : ∀ u, Serves N s u [] [] → Q r u)
    (hbody : ∀ e k u, find name (t.node dp).dents = some (e, k + 2) →
      (u.node e.ino).isDir = (t.node e.ino).isDir →
      Entered N u dp k e.ino → Moves N none s u [] [dp, e.ino] →
        (u.mem e.ino).valid = true → wp (body e.ino (k + 2)) Q E u) :
    wp (dirlookup dp name >>= fun found => match found with
      | none => iunlockput dp >>= fun _ => pure r
      | some (ip, k) => ilock ip >>= fun _ => body ip k) Q E (t.lock dp) := by
  have hl := hw.trans (Moves.lock hw.inv dp [dp])
  have hr : 0 < ((t.lock dp).mem dp).ref := hl.held (by simp)
  rw [wp_bind]
  cases hf : find name (t.node dp).dents with
  | none =>
    rw [wp_dirlookup_none (s := t.lock dp) hd hf]
    simp only [wp_bind]
    rw [wp_iunlockput hr]
    exact hnone _ (hl.trans (Moves.put hl.inv hr [])).serves
  | some ek =>
    obtain ⟨e, k⟩ := ek
    obtain ⟨k', rfl, hent, hall⟩ := found_entered hw hd hdots hf
    have hre : 0 < (((t.lock dp).get e.ino).mem e.ino).ref := by
      rw [State.ref_get, if_pos rfl]
      omega
    rw [wp_dirlookup_some (s := t.lock dp) hd hf]
    simp only [wp_bind]
    rw [wp_ilock hre (hall.inv.live e.ino hent.held).2]
    exact hbody e k' _ hf rfl hent hall State.valid_lock

theorem sysRmdir_serves {c : Cred} {path : List UInt8} (h : Inv N none s)
    (hcwd : 0 < (s.mem c.cwd).ref) :
    wp (sysRmdir c path) (fun r t => (r = 0 → RemoveOk c path s) → Serves N s t [] []) E s := by
  unfold sysRmdir
  refine wp.seq (namex_moves h hcwd).with_eq fun o t ht => ?_
  obtain ⟨⟨hw, hdir⟩, heq⟩ := ht
  cases o with
  | none => exact fun _ => hw.serves
  | some p =>
    obtain ⟨dp, name⟩ := p
    have hr : 0 < (t.mem dp).ref := hw.held (by simp)
    have hl := hw.trans (Moves.lock hw.inv dp [dp])
    have hrl : 0 < ((t.lock dp).mem dp).ref := hl.held (by simp)
    have hput : Serves N s ((t.lock dp).put dp) [] [] := (hl.trans (Moves.put hl.inv hrl [])).serves
    rw [wp_bind, wp_ilock hr (hw.inv.live dp hr).2, wp_bind, wp_get]
    split
    · rw [wp_bind, wp_iunlockput hrl]
      exact fun _ => hput
    split
    · rw [wp_bind, wp_iunlockput hrl]
      exact fun _ => hput
    rename_i hdots
    rw [Bool.not_eq_true] at hdots
    refine lookup_entered hw (hdir rfl (dp, name) rfl) hdots
      (fun _ hu _ => hu) fun e k u hf hsame hent hall hvalid => ?_
    rw [wp_bind, wp_get]
    split
    · exact hent.refused hall fun _ hu _ => hu
    rename_i hdirip
    rw [not_not] at hdirip
    unfold isdirempty
    simp only [wp_bind, wp_get, wp_pure]
    split
    · exact hent.refused hall fun _ hu _ => hu
    rename_i hall'
    rw [Bool.not_eq_false, List.all_eq_true] at hall'
    have hempty : ∀ e' ∈ (u.node e.ino).rest, e'.ino = 0 :=
      fun e' he' => beq_iff_eq.mp (hall' e' he')
    rw [hent.wp_rmdirEntry (hent.removes hdirip hempty).ne.symm]
    intro hcond
    exact hent.removedDir hall hdirip hempty hvalid
      ((hcond rfl).of_ok heq (dp, name) rfl (e, k + 2) hf (hsame ▸ hdirip))

theorem sysUnlink_serves {c : Cred} {path : List UInt8} (h : Inv N none s)
    (hcwd : 0 < (s.mem c.cwd).ref) :
    wp (sysUnlink c path) (fun r t => (r = 0 → RemoveOk c path s) → Serves N s t [] []) E s := by
  unfold sysUnlink
  refine wp.seq (namex_moves h hcwd).with_eq fun o t ht => ?_
  obtain ⟨⟨hw, hdir⟩, heq⟩ := ht
  cases o with
  | none => exact fun _ => hw.serves
  | some p =>
    obtain ⟨dp, name⟩ := p
    have hr : 0 < (t.mem dp).ref := hw.held (by simp)
    have hl := hw.trans (Moves.lock hw.inv dp [dp])
    have hrl : 0 < ((t.lock dp).mem dp).ref := hl.held (by simp)
    rw [wp_bind, wp_ilock hr (hw.inv.live dp hr).2, wp_bind, wp_get]
    split
    · -- the reference to the parent leaks
      rw [wp_bind, wp_iunlock hrl]
      refine fun _ => ⟨hl.inv, fun i => ?_⟩
      have := hl.toRefs i
      rw [List.count_nil] at *
      omega
    split
    · rw [wp_bind, wp_iunlockput hrl]
      exact fun _ => (hl.trans (Moves.put hl.inv hrl [])).serves
    rename_i hdots
    rw [Bool.not_eq_true] at hdots
    refine lookup_entered hw (hdir rfl (dp, name) rfl) hdots
      (fun _ hu _ => hu) fun e k u hf hsame hent hall hvalid => ?_
    have hpos := hent.nlink_pos
    rw [wp_bind, wp_get, if_neg (by omega)]
    unfold isdirempty
    simp only [wp_bind, wp_get, wp_pure]
    by_cases hdirip : (u.node e.ino).isDir
    · split
      · exact hent.refused hall fun _ hu _ => hu
      rename_i hnot
      have hempty : ∀ e' ∈ (u.node e.ino).rest, e'.ino = 0 := fun e' he' => by
        simp only [hdirip, true_and, Bool.not_eq_false, List.all_eq_true] at hnot
        exact beq_iff_eq.mp (hnot e' he')
      rw [hent.wp_unlinkEntry (hent.removes hdirip hempty).ne.symm, if_pos hdirip]
      intro hcond
      exact hent.removedDir hall hdirip hempty hvalid
        ((hcond rfl).of_ok heq (dp, name) rfl (e, k + 2) hf (hsame ▸ hdirip))
    · rw [if_neg fun hc => hdirip hc.1, hent.wp_unlinkEntry (fun he => hdirip (he ▸ hent.dir)),
        if_neg hdirip]
      exact fun _ => hent.removedFile hall hdirip

end Micro86.Tree
