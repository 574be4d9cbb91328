import Micro86.Calls.Model
import Micro86.File.Table

/-!
# The file table of the two models

`Micro86.Files` runs whole calls on the file table and the descriptors; the sections that the calls
consist of here do to both what its routines do.
-/

namespace Micro86.Calls

open Exec Function

variable {s s' : State} {t : Files.Table} {p : Pid} {me : Proc} {f : Fid}

/-- The counts and the descriptors of `t` are those of `s`. -/
structure Agrees (s : State) (t : Files.Table) : Prop where
  ref : ∀ f, (s.file f).ref = (t.file f).ref
  ofile : ∀ p me, s.proc p = some me → ∀ fd, me.ofile fd = t.ofile (p, fd)

namespace Agrees

theorem setFile (h : Agrees s t) {v : File} {w : Files.File} (hv : v.ref = w.ref) :
    Agrees (s.setFile f v) (t.setFile f w) := by
  refine ⟨fun g => ?_, h.ofile⟩
  by_cases hg : g = f
  · subst hg
    simpa [State.setFile, Files.Table.setFile] using hv
  · simpa [State.setFile, Files.Table.setFile, hg] using h.ref g

theorem setOfile (h : Agrees s t) (hp : s.proc p = some me) (fd : Fd) (v : Option Fid) :
    Agrees (s.setOfile p me fd v) (t.setSlot (p, fd) v) := by
  refine ⟨h.ref, fun q you hq e => ?_⟩
  by_cases hqp : q = p
  · subst hqp
    cases (State.setProc_self q _).symm.trans hq
    simp [Files.Table.setSlot, update_apply, h.ofile q me hp]
  · rw [h.ofile q you ((State.setProc_ne _ hqp).symm.trans hq) e]
    simp [Files.Table.setSlot, hqp]

theorem fileAlloc (h : Agrees s t) : wp Files.fileAlloc
    (fun r u => r = s.fileAlloc.1 ∧ Agrees s.fileAlloc.2 u) (fun _ => False) t := by
  unfold Files.fileAlloc State.fileAlloc
  rw [wp_bind, wp_get]
  simp only [h.ref, Int.natCast_eq_zero]
  generalize (List.finRange NFILE).find? _ = r
  cases r with
  | none => exact ⟨rfl, h⟩
  | some f => exact ⟨rfl, h.setFile rfl⟩

theorem fdalloc (h : Agrees s t) (hp : s.proc p = some me) : wp (Files.fdalloc p f)
    (fun r u => r = (s.fdalloc p me f).1 ∧ Agrees (s.fdalloc p me f).2 u) (fun _ => False) t := by
  unfold Files.fdalloc State.fdalloc
  rw [wp_bind, wp_get]
  simp only [h.ofile p me hp, ← Option.isNone_iff_eq_none, Bool.decide_eq_true]
  generalize (List.finRange NOFILE).find? _ = r
  cases r with
  | none => exact ⟨rfl, h⟩
  | some fd => exact ⟨rfl, h.setOfile hp fd _⟩

theorem fileDup (h : Agrees s t) {hint : Hint} : match sem p hint s (.fileDup f) with
    | .next (_, s') => wp (Files.fileDup f) (fun _ u => Agrees s' u) (fun _ => False) t
    | _ => wp (Files.fileDup f) (fun _ _ => False) (· = "filedup") t := by
  have hf := h.ref f
  unfold Files.fileDup
  by_cases hlt : (s.file f).ref < 1
  · simp only [sem, if_pos hlt, wp_bind, wp_get]
    rw [if_pos (by omega)]
    rfl
  · simp only [sem, if_neg hlt, wp_bind, wp_get]
    rw [if_neg (by omega)]
    exact h.setFile (by rw [hf]; rfl)

theorem fileDrop (h : Agrees s t) : match s.fileDrop f with
    | .next (_, s') => wp (Files.fileClose f) (fun _ u => Agrees s' u) (fun _ => False) t
    | _ => wp (Files.fileClose f) (fun _ _ => False) (· = "fileclose") t := by
  have hf := h.ref f
  unfold Files.fileClose
  by_cases hlt : (s.file f).ref < 1
  · simp only [State.fileDrop, if_pos hlt, wp_bind, wp_get]
    rw [if_pos (by omega)]
    rfl
  by_cases hmore : 1 < (s.file f).ref
  · simp only [State.fileDrop, if_neg hlt, if_pos hmore, wp_bind, wp_get]
    rw [if_neg (by omega), wp_modify, Files.Table.dropRef, if_pos (by omega)]
    exact h.setFile (by dsimp only; omega)
  · simp only [State.fileDrop, if_neg hlt, if_neg hmore, wp_bind, wp_get]
    rw [if_neg (by omega), wp_modify, Files.Table.dropRef, if_neg (by omega)]
    obtain ⟨hr, ho⟩ : Agrees (s.setFile f { s.file f with ref := 0, type := .none })
      (t.setFile f { t.file f with ref := 0, type := .none }) := h.setFile rfl
    exact ⟨hr, ho⟩

end Agrees

end Micro86.Calls
