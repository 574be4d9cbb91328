import Micro86.Tree.Runs

/-!
# Trees on which `rmdir` finds nothing to remove

* `Quiet` — the nodes are as they were, and no inode without a type is in memory.
* `namexLoop_quiet` — a walk changes no node as long as every inode has links.
* `rmdir_quiet` — nor does `rmdir`, if no entry but `.` and `..` names a directory.
-/

namespace Micro86.Tree

open Exec
open Fs (DOT DOTDOT)

structure Quiet (node : Nat → Node) (s : State) : Prop where
  same : s.node = node
  valid : ∀ i, (s.mem i).valid = true → (node i).mode ≠ 0

section Quiet

variable {node : Nat → Node} {s : State} {d i : Nat}

theorem Quiet.setMem (h : Quiet node s) {m : Mem} (hm : m.valid = true → (node i).mode ≠ 0) :
    Quiet node (s.setMem i m) := by
  refine ⟨h.same, fun j hj => ?_⟩
  have hj : (Function.update s.mem i m j).valid = true := hj
  by_cases hji : j = i
  · subst hji
    rw [Function.update_self] at hj
    exact hm hj
  · rw [Function.update_of_ne hji] at hj
    exact h.valid j hj

theorem Quiet.get (h : Quiet node s) : Quiet node (s.get i) := by
  refine h.setMem fun hv => ?_
  split at hv
  · cases hv
  · exact h.valid i hv

theorem Quiet.ilock (h : Quiet node s) :
    wp (ilock i) (fun _ t => Quiet node t) (fun _ => True) s := by
  unfold Tree.ilock
  rw [wp_bind, wp_get]
  split
  · trivial
  split
  · rw [wp_bind, wp_modify]
    split
    · trivial
    rename_i hm
    rw [h.same] at hm
    exact h.setMem fun _ => hm
  · exact h

variable (hlinked : ∀ i, (node i).mode ≠ 0 → (node i).nlink ≠ 0)

include hlinked

theorem Quiet.put (h : Quiet node s) : Quiet node (s.put i) := by
  have hlast : ¬ s.Last i := by
    rintro ⟨hv, hz, _⟩
    rw [h.same] at hz
    exact hlinked i (h.valid i hv) hz
  unfold State.put
  rw [if_neg hlast]
  exact h.setMem fun hv => h.valid i hv

theorem Quiet.iunlockput (h : Quiet node s) :
    wp (iunlockput i) (fun _ t => Quiet node t) (fun _ => True) s := by
  unfold Tree.iunlockput iunlock
  rw [wp_bind, wp_bind, wp_get]
  split
  · trivial
  · exact h.put hlinked

omit hlinked in
theorem Quiet.dirlookup (h : Quiet node s) (name : List UInt8) :
    wp (dirlookup d name) (fun r t => Quiet node t ∧ ∀ ip k, r = some (ip, k) →
      (node d).isDir ∧ ∃ e ∈ (node d).dents, hasName name e = true ∧
      e.ino = ip) (fun _ => True) s := by
  unfold Tree.dirlookup
  rw [wp_bind, wp_get, h.same]
  split
  · trivial
  rename_i hd
  split
  · rename_i e k hf
    refine ⟨h.get, fun ip k' hr => ?_⟩
    obtain ⟨hk, hname⟩ := find_some hf
    cases hr
    exact ⟨not_not.mp hd, e, List.mem_of_getElem? hk, hname, rfl⟩
  · exact ⟨h, nofun⟩

theorem Quiet.fail {α : Type} (h : Quiet node s) (a : α) :
    wp (Tree.iunlockput i >>= fun _ => pure a : TreeM α) (fun _ t => Quiet node t)
      (fun _ => True) s :=
  wp.seq (h.iunlockput hlinked) fun _ _ ht => ht

theorem namexLoop_quiet (parent : Bool) (fuel : Nat) (ip : Nat)
    (path name : List UInt8) (h : Quiet node s) :
    wp (namexLoop parent fuel ip path name) (fun _ t => Quiet node t) (fun _ => True) s := by
  induction fuel generalizing ip path name s with
  | zero => exact h
  | succ fuel ih =>
    unfold namexLoop
    split
    · split
      · exact wp_bind.mpr (wp_iput.mpr (h.put hlinked))
      · exact h
    refine wp.seq h.ilock fun _ t ht => ?_
    rw [wp_bind, wp_get]
    split
    · exact ht.fail hlinked none
    split
    · unfold iunlock
      rw [wp_bind, wp_bind, wp_get]
      split
      · trivial
      · exact ht
    refine wp.seq (ht.dirlookup _) fun r u hu => ?_
    cases r with
    | none => exact hu.1.fail hlinked none
    | some r => exact wp.seq (hu.1.iunlockput hlinked) fun _ v => ih r.1 _ _

theorem namex_quiet (parent : Bool) (cwd : Nat) (path : List UInt8) (h : Quiet node s) :
    wp (namex cwd path parent) (fun _ t => Quiet node t) (fun _ => True) s := by
  unfold namex
  split
  · exact wp_bind.mpr (wp_iget.mpr (namexLoop_quiet hlinked parent _ _ _ _ h.get))
  · exact namexLoop_quiet hlinked parent _ _ _ _ (h.setMem fun hv => h.valid _ hv)

variable (honly : ∀ d, (node d).isDir → ∀ e ∈ (node d).dents, e.ino ≠ 0 → (node e.ino).isDir →
  e.str = cstr DIRSIZ DOT ∨ e.str = cstr DIRSIZ DOTDOT)

include honly

theorem sysRmdir_quiet (c : Cred) (path : List UInt8) (h : Quiet node s) :
    wp (sysRmdir c path) (fun _ t => Quiet node t) (fun _ => True) s := by
  unfold sysRmdir
  refine wp.seq (namex_quiet hlinked true c.cwd path h) fun r t ht => ?_
  cases r with
  | none => exact ht
  | some r =>
    refine wp.seq ht.ilock fun _ u hu => ?_
    rw [wp_bind, wp_get]
    split
    · exact hu.fail hlinked _
    split
    · exact hu.fail hlinked _
    rename_i hdots
    refine wp.seq (hu.dirlookup _) fun found v hv => ?_
    cases found with
    | none => exact hv.1.fail hlinked _
    | some found =>
      obtain ⟨hdir, e, he, hname, hino⟩ := hv.2 found.1 found.2 rfl
      obtain ⟨hlive, hstr⟩ := hasName_iff.mp hname
      have hfile : ¬ (node found.1).isDir := by
        intro hd
        rw [← hino] at hd
        refine hdots ?_
        unfold isDots
        rw [Bool.or_eq_true, beq_iff_eq, beq_iff_eq, namecmp_eq_zero, namecmp_eq_zero, hstr]
        exact honly _ hdir e he hlive hd
      refine wp.seq hv.1.ilock fun _ w hw => ?_
      rw [wp_bind, wp_get, hw.same, if_pos hfile]
      exact wp.seq (hw.iunlockput hlinked) fun _ x hx => hx.fail hlinked _

/-- **Runs of `rmdir`** change no node. -/
theorem rmdir_quiet {N : Nat} {a b : Sys} {as : List (Fin NPROC × Call)}
    (hall : ∀ x ∈ as, ∃ path, x.2 = .sysRmdir path)
    (hr : Run (fun s a t => step N s a = .next t) a as b) (h : Quiet node a.fs) :
    Quiet node b.fs := by
  induction hr with
  | nil => exact h
  | @cons a b c x as hs hr ih =>
    refine ih (fun y hy => hall y (.tail _ hy)) ?_
    obtain ⟨path, hpath⟩ := hall x List.mem_cons_self
    unfold step at hs
    split at hs
    · cases hs
    rename_i cwd _
    split at hs
    · rename_i r t hx
      cases hs
      rw [hpath] at hx
      have hwp : wp (Call.exec N x.1 ((a.proc x.1).cred cwd) (.sysRmdir path))
          (fun _ t => Quiet node t.fs) (fun _ => True) a :=
        wp_onFs.mpr (sysRmdir_quiet hlinked honly _ path h)
      exact hwp.of_ok hx
    · cases hs

end Quiet

end Micro86.Tree
