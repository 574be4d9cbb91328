import Micro86.Calls.Routines

/-!
# What an action can do

One inversion lemma for each action that has more than one outcome.
-/

namespace Micro86.Calls

open Fs (Inode Ptr Dirent)

variable {s t : State} {h : Hint}
variable {inum : Nat} {ip dp : Ptr} {r : Option (Nat × Nat)}

theorem logging_next {α : Type} {x y : α} (hs : s.logging x = .next y) : y = x := by
  unfold State.logging at hs
  split at hs
  · cases hs
  · cases hs
    rfl

theorem byProc_next {α : Type} {p : Pid} {x : Proc → Outcome α}
    {y : α} (hs : s.byProc p x = .next y) : ∃ me, s.proc p = some me ∧ x me = .next y := by
  unfold State.byProc at hs
  split at hs
  · rename_i me hme
    exact ⟨me, hme, hs⟩
  · cases hs

/-- `iget` finds the inode in the cache, or takes an entry without references. -/
inductive Igets (s : State) (inum : Nat) : Ptr → State → Prop where
  | cached (ip : Ptr) (href : 0 < (s.icache ip).ref) (hinum : (s.icache ip).inum = inum) :
      Igets s inum ip (s.setSlot ip { s.icache ip with ref := (s.icache ip).ref + 1 })
  | fresh (ip : Ptr) (href : (s.icache ip).ref = 0) (hnone : ∀ q, 0 < (s.icache q).ref →
      (s.icache q).inum ≠ inum) :
      Igets s inum ip (s.setSlot ip { s.icache ip with inum := inum, ref := 1, valid := false })

theorem iget_next (hs : s.iget inum = .next (ip, t)) : Igets s inum ip t := by
  unfold State.iget at hs
  split at hs
  · rename_i q hq
    cases hs
    have hq' := List.find?_some hq
    rw [decide_eq_true_eq] at hq'
    exact .cached ip hq'.1 hq'.2
  rename_i hnone
  split at hs
  · rename_i q hq
    cases hs
    have hq' := List.find?_some hq
    rw [decide_eq_true_eq] at hq'
    refine .fresh ip hq' fun r hr he => ?_
    have := List.find?_eq_none.mp hnone r (List.mem_finRange r)
    rw [decide_eq_true_eq] at this
    exact this ⟨hr, he⟩
  · cases hs

/-- `iget` panics only when every entry of the cache has references. -/
theorem iget_panics {msg : String} (hs : s.iget inum = .panic msg) :
    ∀ ip, (s.icache ip).ref ≠ 0 := by
  unfold State.iget at hs
  split at hs
  · cases hs
  split at hs
  · cases hs
  rename_i hnone
  intro ip he
  have := List.find?_eq_none.mp hnone ip (List.mem_finRange ip)
  rw [decide_eq_true_eq] at this
  exact this he

theorem load_next {r : Unit} (hs : s.load ip = .next (r, t)) :
    ((s.icache ip).valid = true ∧ t = s) ∨
      ((s.icache ip).valid = false ∧ (s.disk (s.icache ip).inum).mode ≠ 0 ∧
        t = s.setSlot ip { s.icache ip with valid := true, ino := s.disk (s.icache ip).inum }) := by
  unfold State.load at hs
  split at hs
  · rename_i hv
    cases hs
    exact .inl ⟨hv, rfl⟩
  rename_i hv
  split at hs
  · cases hs
  rename_i hm
  cases hs
  exact .inr ⟨by simpa using hv, hm, rfl⟩

theorem ialloc_next {type : UInt16} {r : Bool} (hs : s.ialloc h inum type = .next (r, t)) :
    (r = true ∧ (s.disk inum).mode = 0 ∧
        t = (s.setDisk inum { Inode.zero with mode := type, ctime := h.clock }).setData inum []) ∨
      (r = false ∧ t = s) := by
  unfold State.ialloc at hs
  split at hs
  · rename_i hm
    cases logging_next hs
    exact .inl ⟨rfl, hm, rfl⟩
  · cases hs
    exact .inr ⟨rfl, rfl⟩

theorem writei_next {src : List UInt8} {off : Nat} {r : Int}
    (hs : s.writei h ip src off = .next (r, t)) :
    (off ≤ (s.icache ip).ino.size.toNat ∧ (off + src.length) % 4294967296 ≤ MAXFILE * BSIZE ∧
        off ≤ (off + src.length) % 4294967296 ∧ t = s.write h ip src off) ∨
      (t = s ∧ ((s.icache ip).ino.mode &&& Fs.S_IFCHR ≠ 0 ∨ r ≤ 0)) := by
  unfold State.writei at hs
  dsimp only at hs
  split at hs
  · rename_i hchr
    split at hs <;> cases hs <;> exact .inr ⟨rfl, .inl hchr⟩
  split at hs
  · cases hs
    exact .inr ⟨rfl, .inr (by decide)⟩
  split at hs
  · cases hs
    exact .inr ⟨rfl, .inr (by decide)⟩
  split at hs
  · cases hs
    exact .inr ⟨rfl, .inr (le_refl 0)⟩
  cases logging_next hs
  exact .inl ⟨by omega, by omega, by omega, rfl⟩

theorem dirFind_next {name : List UInt8} (hs : s.dirFind h dp name = .next (r, t)) :
    t = s := by
  unfold State.dirFind at hs
  split at hs
  · cases hs
  · split at hs <;> cases hs <;> rfl

inductive Finds (s : State) (dp : Ptr) (name : List UInt8) : Option (Nat × Nat) → Prop where
  | absent (de : Dirent) (k : Nat) (de' : Dirent)
      (hscan : s.scanDir dp (Fs.hasName name) 0 de = some (k, de', false)) :
      Finds s dp name none
  | present (de : Dirent) (k : Nat) (de' : Dirent)
      (hscan : s.scanDir dp (Fs.hasName name) 0 de = some (k, de', true)) :
      Finds s dp name (some (de'.ino, DIRENTSIZE * k))

theorem dirFind_finds {name : List UInt8} (hs : s.dirFind h dp name = .next (r, t)) :
    t = s ∧ (s.icache dp).ino.isDir ∧ Finds s dp name r := by
  unfold State.dirFind at hs
  split at hs
  · cases hs
  rename_i hdir
  have hdir := Decidable.not_not.mp hdir
  split at hs
  · cases hs
  · rename_i k de hscan
    cases hs
    exact ⟨rfl, hdir, .present h.entry k de hscan⟩
  rename_i k de hscan
  cases hs
  exact ⟨rfl, hdir, .absent h.entry k de hscan⟩

theorem dirFree_finds {r : Nat × Dirent} (hs : s.dirFree h dp = .next (r, t)) :
    t = s ∧ ∃ k found, r.1 = DIRENTSIZE * k ∧
      s.scanDir dp (fun de => de.ino == 0) 0 h.entry = some (k, r.2, found) := by
  unfold State.dirFree at hs
  split at hs
  · cases hs
  rename_i k de found hscan
  cases hs
  exact ⟨rfl, k, found, rfl, hscan⟩

theorem fileAlloc_eq {r : Option Fid} (hs : s.fileAlloc = (r, t)) :
    (∃ f, r = some f ∧ (s.file f).ref = 0 ∧ t = s.setFile f { s.file f with ref := 1 }) ∨
    (r = none ∧ t = s) := by
  unfold State.fileAlloc at hs
  split at hs
  · rename_i f hf
    cases hs
    have hf' := List.find?_some hf
    rw [decide_eq_true_eq] at hf'
    exact .inl ⟨f, rfl, hf', rfl⟩
  · cases hs
    exact .inr ⟨rfl, rfl⟩

theorem fileDrop_next {f : Fid} {r : Option File} (hs : s.fileDrop f = .next (r, t)) :
    (1 < (s.file f).ref ∧ r = none ∧ t = s.setFile f { s.file f with ref := (s.file f).ref - 1 }) ∨
      ((s.file f).ref = 1 ∧ r = some (s.file f) ∧
        t = s.setFile f { s.file f with ref := 0, type := .none }) := by
  unfold State.fileDrop at hs
  split at hs
  · cases hs
  split at hs
  · rename_i hlt
    cases hs
    exact .inl ⟨hlt, rfl, rfl⟩
  · cases hs
    exact .inr ⟨by omega, rfl, rfl⟩

theorem fdalloc_eq {p : Pid} {me : Proc} {f : Fid} {r : Option Fd}
    (hs : s.fdalloc p me f = (r, t)) :
    (∃ fd, r = some fd ∧ me.ofile fd = none ∧ t = s.setOfile p me fd (some f)) ∨
    (r = none ∧ t = s) := by
  unfold State.fdalloc at hs
  split at hs
  · rename_i fd hfd
    cases hs
    have hfd' := List.find?_some hfd
    exact .inl ⟨fd, rfl, by simpa using hfd', rfl⟩
  · cases hs
    exact .inr ⟨rfl, rfl⟩

theorem fork_next {me : Proc} {r : Option Pid} (hs : s.fork h me = .next (r, t)) :
    (∃ q cwd, s.proc q = none ∧ me.cwd = some cwd ∧ t = s.share q me h.mask cwd) ∨ t = s := by
  unfold State.fork at hs
  split at hs
  · cases hs
    exact .inr rfl
  rename_i q hq
  have hq' := List.find?_some hq
  split at hs
  · cases hs
    exact .inr rfl
  split at hs
  · cases hs
  split at hs
  · cases hs
  rename_i cwd hcwd
  cases hs
  exact .inl ⟨q, cwd, by simpa using hq', hcwd, rfl⟩

end Micro86.Calls
