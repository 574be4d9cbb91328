import Micro86.Tree.System

/-!
# Runs of system calls

* `sound_step` — an allowed call keeps the invariant of the system and panics only when a volume or
  a directory is full.
* `entries_allocated`, `links_counted` — what holds in every state of a run of allowed calls.
-/

namespace Micro86.Tree

open Exec Function
open Fs (S_IFMT S_IFDIR S_IFREG asShort strncpy DOT DOTDOT)

variable {N : Nat} {s t : Sys} {p : Fin NPROC} {f : Fin NFILE}
  {fd : Fin NOFILE} {i : Nat} {u : Fin NFILE → Nat} {E : String → Prop}

/-! ## The tables -/

namespace Sys

theorem held_setProc (pr : Proc) :
    (s.setProc p pr).held i + (if (s.proc p).cwd = some i then 1 else 0) =
    s.held i + if pr.cwd = some i then 1 else 0 := by
  have hsum : cwds (s.setProc p pr).proc i + _ = cwds s.proc i + _ :=
    sum_update (Finset.mem_univ p) s.proc pr fun pr => if pr.cwd = some i then 1 else 0
  have hfile : opens (s.setProc p pr).file i = opens s.file i := rfl
  unfold held
  omega

theorem held_setFile (fl : File) :
    (s.setFile f fl).held i + (if (s.file f).ip = some i then 1 else 0) =
    s.held i + if fl.ip = some i then 1 else 0 := by
  have hsum : opens (s.setFile f fl).file i + _ = opens s.file i + _ :=
    sum_update (Finset.mem_univ f) s.file fl fun fl => if fl.ip = some i then 1 else 0
  have hproc : cwds (s.setFile f fl).proc i = cwds s.proc i := rfl
  unfold held
  omega

theorem held_setOfile (v : Option (Fin NFILE)) : (s.setOfile p fd v).held i = s.held i := by
  have hsum : (s.setOfile p fd v).held i + _ = s.held i + if (s.proc p).cwd = some i then 1
      else 0 := held_setProc _
  omega

theorem held_setCwd (v : Option Nat) :
    (s.setCwd p v).held i + (if (s.proc p).cwd = some i then 1 else 0) =
    s.held i + if v = some i then 1 else 0 := held_setProc _

theorem uses_setProc (pr : Proc) (f : Fin NFILE) :
    (s.setProc p pr).uses f + (s.proc p).uses f = s.uses f + pr.uses f :=
  sum_update (Finset.mem_univ p) s.proc pr fun pr => pr.uses f

theorem uses_setOfile (v : Option (Fin NFILE)) :
    (s.setOfile p fd v).uses f + (if (s.proc p).ofile fd = some f then 1 else 0) =
    s.uses f + if v = some f then 1 else 0 := by
  have hproc : (s.setOfile p fd v).uses f + (s.proc p).uses f =
      s.uses f + ∑ fd', if update (s.proc p).ofile fd v fd' = some f then 1 else 0 :=
        uses_setProc _ f
  have hfd : _ + _ = (s.proc p).uses f + _ :=
    sum_update (Finset.mem_univ fd) (s.proc p).ofile v fun o => if o = some f then 1 else 0
  omega

theorem uses_setCwd (v : Option Nat) : (s.setCwd p v).uses f = s.uses f := by
  have hproc : (s.setCwd p v).uses f + (s.proc p).uses f = s.uses f + (s.proc p).uses f :=
    uses_setProc _ f
  omega

section

variable (h : (s.proc p).ofile fd = some f)
include h

theorem uses_pos : 0 < s.uses f := by
  have hproc := le_sum (Finset.mem_univ p) fun p => (s.proc p).uses f
  have hfd := le_sum (Finset.mem_univ fd) fun fd => if (s.proc p).ofile fd = some f then 1 else 0
  rw [if_pos h] at hfd
  exact Nat.lt_of_lt_of_le hfd hproc

theorem uses_clear_self : (s.setOfile p fd none).uses f = s.uses f - 1 := by
  have hset := @uses_setOfile s p f fd none
  rw [if_pos h, if_neg (by simp)] at hset
  omega

theorem uses_clear_of_ne {g : Fin NFILE} (hg : g ≠ f) :
    (s.setOfile p fd none).uses g = s.uses g := by
  have hset := @uses_setOfile s p g fd none
  have hne : ¬ (s.proc p).ofile fd = some g := fun he => hg (Option.some.inj (he.symm.trans h))
  rw [if_neg hne, if_neg (by simp), Nat.add_zero, Nat.add_zero] at hset
  exact hset

theorem uses_clear :
    (s.setOfile p fd none).uses = update s.uses f (s.uses f - 1) := by
  funext g
  refine update_cases g ?_ fun hg => ?_
  · rw [uses_clear_self h]
  · rw [uses_clear_of_ne h hg]

end

theorem cwd_held {cwd : Nat} (h : (s.proc p).cwd = some cwd) : 0 < s.held cwd := by
  have hle : _ ≤ cwds s.proc cwd := le_sum (Finset.mem_univ p) fun p =>
      if (s.proc p).cwd = some cwd then 1 else 0
  rw [if_pos h] at hle
  unfold held
  omega

theorem file_held (h : (s.file f).ip = some i) : 0 < s.held i := by
  have hle : _ ≤ opens s.file i := le_sum (Finset.mem_univ f) fun f =>
      if (s.file f).ip = some i then 1 else 0
  rw [if_pos h] at hle
  unfold held
  omega

end Sys

namespace Sound

theorem of_serves {v : Fin NFILE → Nat} {a b : List Nat} (h : Sound N u s)
    (hs : Serves N s.fs t.fs a b)
    (hheld : ∀ i, t.held i + a.count i ≤ s.held i + b.count i) (huses : ∀ f, v f ≤ (t.file f).ref) :
    Sound N v t := by
  refine ⟨hs.inv, fun i => ?_, huses⟩
  have := h.held i
  have := hs.refs i
  have := hheld i
  omega

theorem cwd_ref {cwd : Nat} (h : Sound N u s) (hc : (s.proc p).cwd = some cwd) :
    0 < (s.fs.mem cwd).ref :=
  (Sys.cwd_held hc).trans_le (h.held cwd)

end Sound

theorem Sys.Safe.serves {t : State} (h : s.Safe N) (hs : Serves N s.fs t [] []) :
    (s.setFs t).Safe N :=
  Sound.of_serves h hs (fun _ => le_rfl) h.uses

/-! ## Open files -/

theorem wp_onFs {α : Type} {x : TreeM α} {Q : α → Sys → Prop} :
    wp (onFs x) Q E s ↔ wp x (fun a t => Q a (s.setFs t)) E s.fs :=
  wp_zoom

theorem fileClose_sound (h : Sound N u s) (hu : 0 < u f) :
    wp (fileClose f) (fun _ t => Sound N (update u f (u f - 1)) t ∧ t.proc = s.proc) E s := by
  have hf := h.uses f
  have hupd : ∀ {fl : File}, u f - 1 ≤ fl.ref → ∀ g,
      update u f (u f - 1) g ≤ ((s.setFile f fl).file g).ref := by
    intro fl hfl g
    show _ ≤ (update s.file f fl g).ref
    by_cases hg : g = f
    · rw [hg, update_self, update_self]
      exact hfl
    · rw [update_of_ne hg, update_of_ne hg]
      exact h.uses g
  have hheld : ∀ (fl : File) i, (s.setFile f fl).held i + _ = s.held i + _ :=
    fun fl i => Sys.held_setFile fl
  unfold fileClose
  rw [wp_bind, wp_get, if_neg (by omega)]
  split
  · refine ⟨⟨h.inv, fun i => ?_, hupd (by show _ ≤ (s.file f).ref - 1; omega)⟩, rfl⟩
    have hsame : (s.setFile f { s.file f with ref := (s.file f).ref - 1 }).held i +
        (if (s.file f).ip = some i then 1 else 0) =
        s.held i + if (s.file f).ip = some i then 1 else 0 := hheld _ i
    have := h.held i
    show (s.setFile f { s.file f with ref := (s.file f).ref - 1 }).held i ≤ (s.fs.mem i).ref
    omega
  rw [wp_bind, wp_modify]
  cases hip : (s.file f).ip with
  | none =>
    refine ⟨⟨h.inv, fun i => ?_, hupd (by show _ ≤ 0; omega)⟩, rfl⟩
    have hsame : (s.setFile f ⟨0, none⟩).held i + (if (s.file f).ip = some i then 1 else 0) =
        s.held i + if none = some i then 1 else 0 := hheld _ i
    have := h.held i
    rw [hip] at hsame
    show (s.setFile f ⟨0, none⟩).held i ≤ (s.fs.mem i).ref
    omega
  | some ip =>
    have hr : 0 < (s.fs.mem ip).ref := (Sys.file_held hip).trans_le (h.held ip)
    refine wp_onFs.mpr (wp_iput.mpr ⟨Sound.of_serves h (Serves.put (a := []) h.inv hr)
      (fun i => ?_) (hupd (by show _ ≤ 0; omega)), rfl⟩)
    have hsame := hheld ⟨0, none⟩ i
    rw [hip, if_neg (show ¬ none = some i by simp)] at hsame
    rw [List.count_singleton, List.count_nil]
    show (s.setFile f ⟨0, none⟩).held i + _ ≤ _
    by_cases hi : ip = i
    · rw [if_pos (by rw [hi])] at hsame
      rw [if_pos (by rw [hi]; exact beq_self_eq_true i)]
      omega
    · rw [if_neg (by rw [beq_iff_eq]; exact hi)]
      omega

/-- `sys_close` clears the descriptor first, `exit` last. -/
theorem closeAll_sound (fds : List (Fin NOFILE)) (h : s.Safe N) :
    wp (closeAll p fds) (fun _ t => t.Safe N ∧ (t.proc p).cwd = (s.proc p).cwd) E s := by
  induction fds generalizing s with
  | nil => exact ⟨h, rfl⟩
  | cons fd fds ih =>
    unfold closeAll
    rw [wp_bind, wp_get]
    cases hfd : (s.proc p).ofile fd with
    | none => exact ih h
    | some f =>
      simp only [wp_bind, wp_modify]
      refine wp.imp (fileClose_sound h (Sys.uses_pos hfd)) fun _ t ht => ?_
      obtain ⟨hs, hproc⟩ := ht
      have hfd' : (t.proc p).ofile fd = some f := by rw [hproc]; exact hfd
      have huses : t.uses = s.uses := by unfold Sys.uses; rw [hproc]
      have hclear : (t.setOfile p fd none).Safe N := by
        refine ⟨hs.inv, fun i => by rw [Sys.held_setOfile]; exact hs.held i, fun g => ?_⟩
        rw [Sys.uses_clear hfd', huses]
        exact hs.uses g
      refine wp.imp (ih hclear) fun _ t' ht' => ⟨ht'.1, ht'.2.trans ?_⟩
      show (update t.proc p _ p).cwd = _
      rw [update_self, hproc]

theorem fileAlloc_free (h : fileAlloc s = some f) : (s.file f).ref = 0 := by
  have hfree := List.find?_some h
  exact beq_iff_eq.mp hfree

section

variable (h : s.Safe N)
include h

theorem Sys.Safe.install {t : State} {ip : Nat} (hs : Serves N s.fs t [] [ip])
    (hf : (s.file f).ref = 0) :
    (((s.setFs t).setFile f ⟨1, some ip⟩).setOfile p fd (some f)).Safe N := by
  refine Sound.of_serves h hs (fun i => ?_) fun g => ?_
  · have hset : ((s.setFs t).setFile f ⟨1, some ip⟩).held i +
        _ = s.held i + if some ip = some i then 1 else 0 :=
      Sys.held_setFile _
    have hone : (if some ip = some i then 1 else 0) = if ip == i then 1 else 0 := by simp
    rw [Sys.held_setOfile, List.count_nil, List.count_singleton]
    omega
  · have hset : (((s.setFs t).setFile f ⟨1, some ip⟩).setOfile p fd (some f)).uses g +
        (if (s.proc p).ofile fd = some g then 1 else 0) = s.uses g + if some f = some g then 1
        else 0 := Sys.uses_setOfile _
    have hle := h.uses g
    show _ ≤ (update s.file f ⟨1, some ip⟩ g).ref
    by_cases hg : g = f
    · subst hg
      rw [update_self]
      rw [if_pos rfl] at hset
      show _ ≤ 1
      omega
    rw [update_of_ne hg]
    rw [if_neg fun he => hg (Option.some.inj he).symm] at hset
    omega

/-- More references than the tables hold do no harm. -/
theorem Sys.Safe.leak {t : State} {b : List Nat} (hs : Serves N s.fs t [] b) :
    (s.setFs t).Safe N :=
  Sound.of_serves h hs (fun i => by show s.held i + 0 ≤ _; omega) h.uses

theorem Sys.Safe.setCwd {t : State} {cwd ip : Nat} (hcwd : (s.proc p).cwd = some cwd)
    (hs : Serves N s.fs t [cwd] [ip]) :
    ((s.setFs t).setCwd p (some ip)).Safe N := by
  refine Sound.of_serves h hs (fun i => ?_) fun g => ?_
  · have hset :
        ((s.setFs t).setCwd p (some ip)).held i + (if (s.proc p).cwd = some i then 1 else 0) =
        s.held i + if some ip = some i then 1 else 0 := Sys.held_setCwd _
    have hold :
        (if (s.proc p).cwd = some i then 1 else 0) = if cwd == i then 1 else 0 := by rw [hcwd]; simp
    have hnew : (if some ip = some i then 1 else 0) = if ip == i then 1 else 0 := by simp
    rw [List.count_singleton, List.count_singleton]
    omega
  · rw [Sys.uses_setCwd]
    exact h.uses g

/-- A process that has closed its files gives up its working directory. -/
theorem Sys.Safe.exit {cwd : Nat} (hcwd : (s.proc p).cwd = some cwd) :
    ((s.setFs (s.fs.put cwd)).setCwd p none).Safe N := by
  refine Sound.of_serves h (t := (s.setFs (s.fs.put cwd)).setCwd p none)
    (Serves.put (a := []) h.inv (h.cwd_ref hcwd)) (fun i => ?_) fun g => ?_
  · have hset : ((s.setFs (s.fs.put cwd)).setCwd p none).held i +
        (if (s.proc p).cwd = some i then 1 else 0) =
        s.held i + if none = some i then 1 else 0 := Sys.held_setCwd _
    have hold :
        (if (s.proc p).cwd = some i then 1 else 0) = if cwd == i then 1 else 0 := by rw [hcwd]; simp
    have hnew : (if none = some i then 1 else 0) = 0 := by simp
    rw [List.count_singleton, List.count_nil]
    omega
  · rw [Sys.uses_setCwd]
    exact h.uses g

theorem openFd_sound {find : Bool → TreeM (Except Int Nat)}
    (hfind : ∀ room, wp (find room) (fun r t => Serves N s.fs t [] r.toOption.toList) E s.fs) :
    wp (openFd p find) (fun _ t => t.Safe N) E s := by
  unfold openFd
  simp only [wp_bind]
  refine wp_onFs.mpr (wp.imp (hfind _) (fun r t ht => ?_))
  split
  · rename_i ip f fd hf hfd
    exact h.install ht (fileAlloc_free hf)
  · exact h.leak ht
  · exact h.leak ht

/-! ## System calls -/

theorem exec_sound {call : Call} {cwd : Nat} (hcwd : (s.proc p).cwd = some cwd)
    (hok : call.Ok N ((s.proc p).cred cwd) s.fs) :
    wp (call.exec N p ((s.proc p).cred cwd)) (fun _ t => t.Safe N)
      (call.Panic ((s.proc p).cred cwd)) s := by
  have hr : 0 < (s.fs.mem cwd).ref := h.cwd_ref hcwd
  generalize hc : (s.proc p).cred cwd = c at *
  have hcr : 0 < (s.fs.mem c.cwd).ref := by rw [← hc]; exact hr
  have hcreate : ∀ {type msg}, CreatePanic type msg → call.type c = some type →
      call.Panic c msg := by
    rintro type msg (hm | hm | ⟨ht, hm⟩) htype
    · exact .inl hm
    · exact .inr (.inl hm)
    · exact .inr (.inr (.inr ⟨by rw [htype, ht], hm⟩))
  cases call with
  | sysOpen path creat trunc =>
    cases creat with
    | none =>
      unfold Call.exec
      exact openFd_sound h fun room => wp.imp (openInode_serves h.inv hcr) fun r t ht => ht hok
    | some mode =>
      unfold Call.exec
      exact openFd_sound h fun room =>
          wp.mono (creatInode_serves h.inv hcr) (fun r t ht => ht hok.1 hok.2) fun msg hE =>
        hcreate hE rfl
  | sysCreat path mode =>
    unfold Call.exec
    exact openFd_sound h fun room =>
        wp.mono (creatInode_serves h.inv hcr) (fun r t ht => ht hok.1 hok.2) fun msg hE =>
      hcreate hE rfl
  | sysMkdir path =>
    refine wp_onFs.mpr (wp.mono (mknode_serves h.inv hcr).with_eq
      (fun r t ht => h.serves (ht.1 fun hz => hok ?_)) fun msg hE => hcreate hE rfl)
    exact (wp_of_eq ht.2).mpr hz
  | sysMknod path mode =>
    have hdef :
        Tree.sysMknod N c path mode = if c.suser then mknode N c path mode else pure (-EPERM) := rfl
    refine wp_onFs.mpr ?_
    by_cases hsu : c.suser = true
    · rw [hdef, if_pos hsu]
      refine wp.mono (mknode_serves h.inv hcr).with_eq
        (fun r t ht => h.serves (ht.1 fun hz => hok ?_)) fun msg hE => hcreate hE rfl
      unfold Succeeds
      rw [hdef, if_pos hsu]
      exact (wp_of_eq ht.2).mpr hz
    · rw [hdef, if_neg hsu]
      exact h
  | sysLink old new =>
    refine wp_onFs.mpr (wp.mono (sysLink_serves h.inv hcr hok.1).with_eq
        (fun r t ht => h.serves (ht.1 fun hz => hok.2 ?_)) fun msg hE =>
      .inr (.inl hE))
    exact (wp_of_eq ht.2).mpr hz
  | sysLinkat old new =>
    exact wp_onFs.mpr
      (wp.mono (sysLinkat_serves h.inv hcr hok) (fun r t => h.serves) fun msg hE => .inr (.inl hE))
  | sysUnlink path =>
    refine wp_onFs.mpr (wp.mono (sysUnlink_serves h.inv hcr).with_eq
      (fun r t ht => h.serves (ht.1 fun hz => hok ?_)) fun msg hE => hE)
    exact (wp_of_eq ht.2).mpr hz
  | sysRmdir path =>
    refine wp_onFs.mpr (wp.mono (sysRmdir_serves h.inv hcr).with_eq
      (fun r t ht => h.serves (ht.1 fun hz => hok ?_)) fun msg hE => hE)
    exact (wp_of_eq ht.2).mpr hz
  | sysChdir path =>
    unfold Call.exec
    rw [wp_bind]
    refine wp_onFs.mpr (wp.imp (chdirInode_serves h.inv hcr) (fun r t ht => ?_))
    cases r with
    | error e => exact h.serves (ht.1 e rfl)
    | ok ip => exact h.setCwd hcwd (by have := ht.2 ip rfl; rwa [← hc] at this)
  | sysClose fd =>
    unfold Call.exec
    rw [wp_bind, wp_get]
    cases hfd : (s.proc p).ofile fd with
    | none => exact h
    | some f =>
      simp only [wp_bind, wp_modify]
      have hclear : Sound N s.uses (s.setOfile p fd none) :=
        ⟨h.inv, fun i => by rw [Sys.held_setOfile]; exact h.held i, h.uses⟩
      refine wp.imp (fileClose_sound hclear (Sys.uses_pos hfd)) fun _ t ht => ?_
      have huses : t.uses = (s.setOfile p fd none).uses := by unfold Sys.uses; rw [ht.2]
      show t.Safe N
      unfold Sys.Safe
      rw [huses, Sys.uses_clear hfd]
      exact ht.1
  | sysExit =>
    unfold Call.exec
    rw [wp_bind, wp_get]
    split
    · exact .inr (.inr (.inl rfl))
    simp only [wp_bind]
    refine wp.imp (closeAll_sound _ h) fun _ t ht => wp_onFs.mpr (wp_iput.mpr ?_)
    have hcwdt : (t.proc p).cwd = some c.cwd := by rw [ht.2, hcwd, ← hc]; rfl
    exact ht.1.exit hcwdt

theorem step_sound {a : Fin NPROC × Call} (hok : Allowed N s a) (hs : step N s a = .next t) :
    t.Safe N := by
  unfold step at hs
  unfold Allowed at hok
  split at hs
  · cases hs
  rename_i cwd hcwd
  rw [hcwd] at hok
  split at hs
  · rename_i r t' hx
    cases hs
    exact (exec_sound h hcwd hok).of_ok hx
  · cases hs

theorem step_panic {a : Fin NPROC × Call} {msg : String} (hok : Allowed N s a)
    (hs : step N s a = .panic msg) :
    ∃ cwd, (s.proc a.1).cwd = some cwd ∧ a.2.Panic ((s.proc a.1).cred cwd) msg := by
  unfold step at hs
  unfold Allowed at hok
  split at hs
  · cases hs
  rename_i cwd hcwd
  rw [hcwd] at hok
  split at hs
  · cases hs
  rename_i msg' hx
  cases hs
  exact ⟨cwd, hcwd, (exec_sound h hcwd hok).of_error hx⟩

end

def AllowedStep (N : Nat) (s : Sys) (a : Fin NPROC × Call) (t : Sys) : Prop :=
  Allowed N s a ∧ step N s a = .next t

theorem run_sound {as : List (Fin NPROC × Call)} (h : s.Safe N)
    (hr : Run (AllowedStep N) s as t) : t.Safe N :=
  hr.invariant (fun _ _ _ h hs => step_sound h hs.1 hs.2) h

/-! ## What holds in every state of a run -/

/-- Still linked, or the working directory or an open file of some process. -/
def Sys.InUse (N : Nat) (s : Sys) (d : Nat) : Prop :=
  0 < links N s.fs.node d ∨ (∃ p, (s.proc p).cwd = some d) ∨ ∃ f, (s.file f).ip = some d

theorem Sound.lt_of_inUse {d : Nat} (h : Sound N u s) (hdir : (s.fs.node d).isDir)
    (hd : s.InUse N d) : d < N := by
  have hheld : 0 < s.held d → d < N := fun hpos => (h.inv.live d (hpos.trans_le (h.held d))).1
  rcases hd with hlinks | ⟨p, hp⟩ | ⟨f, hf⟩
  · exact h.inv.tree.shaped.lt_of_links (h.inv.tree.shaped.ne_zero (Shaped.mode_ne hdir)) hlinks
  · exact hheld (Sys.cwd_held hp)
  · exact hheld (Sys.file_held hf)

/-! ## A volume with only a root -/

def firstProc : Fin NPROC := ⟨0, NPROC_pos⟩

def firstFd : Fin NOFILE := ⟨0, by decide⟩

def rootNode : Node :=
  ⟨S_IFDIR ||| 0o755, 1, 0, [⟨ROOTINO, strncpy DIRSIZ DOT⟩, ⟨ROOTINO, strncpy DIRSIZ DOTDOT⟩]⟩

def rootSys : Sys where
  fs := ⟨fun i => if i = ROOTINO then rootNode else ⟨0, 0, 0, []⟩,
    fun i => if i = ROOTINO then ⟨1, true⟩ else ⟨0, false⟩⟩
  proc :=
    fun p => ⟨if p = firstProc then some ROOTINO else none, 0, 0o22, true, false, fun _ => none⟩
  file := fun _ => ⟨0, none⟩

theorem rootSys_node (d : Nat) :
    rootSys.fs.node d = if d = ROOTINO then rootNode else ⟨0, 0, 0, []⟩ := rfl

theorem rootSys_dir {d : Nat} (h : (rootSys.fs.node d).isDir) : d = ROOTINO := by
  by_contra hne
  rw [rootSys_node, if_neg hne] at h
  exact absurd h (by decide)

theorem rootSys_root : rootSys.fs.node ROOTINO = rootNode := by rw [rootSys_node, if_pos rfl]

theorem rootSys_shaped : Shaped 10 rootSys.fs.node := by
  have hroot := rootSys_root
  refine ⟨by decide, by rw [rootSys_node]; rfl, by decide, by
    rw [hroot]; decide, fun d _ hd => ?_, fun d _ hd e he _ => ?_,
    fun d _ hd => ?_, fun c d _ _ hc hd => ?_⟩
  · rw [rootSys_dir hd, hroot]
    exact ⟨⟨_, _, rfl, by decide, by decide⟩, by decide, by decide⟩
  · rw [rootSys_dir hd, hroot] at he
    have hino : e.ino = ROOTINO := by
      rcases List.mem_cons.mp he with rfl | he
      · rfl
      · rw [List.mem_singleton.mp he]
    rw [hino, hroot]
    decide
  · rw [rootSys_dir hd, hroot]
    show (rootSys.fs.node ROOTINO).isDir
    rw [hroot]
    decide
  · rw [rootSys_dir hc, rootSys_dir hd, hroot]
    decide

theorem rootSys_counted : Counted 10 rootSys.fs.node none := by
  intro i _ hm
  have hi : i = ROOTINO := by
    by_contra hne
    rw [rootSys_node, if_neg hne] at hm
    exact hm rfl
  rw [hi]
  decide +kernel

theorem rootSys_held (i : Nat) : rootSys.held i = if i = ROOTINO then 1 else 0 := by
  have hopens : opens rootSys.file i = 0 := Finset.sum_eq_zero fun f _ => if_neg (by simp [rootSys])
  have hcwds : cwds rootSys.proc i = if i = ROOTINO then 1 else 0 := by
    unfold cwds
    rw [Finset.sum_eq_single firstProc]
    · simp [rootSys, eq_comm]
    · intro p _ hp
      simp [rootSys, hp]
    · intro h
      exact absurd (Finset.mem_univ _) h
  unfold Sys.held
  rw [hopens, hcwds, Nat.add_zero]

theorem rootSys_safe : rootSys.Safe 10 := by
  have hmem : ∀ i, (rootSys.fs.mem i).ref = if i = ROOTINO then 1 else 0 := fun i => by
    show (if i = ROOTINO then (⟨1, true⟩ : Mem) else ⟨0, false⟩).ref = _
    split <;> rfl
  refine ⟨⟨⟨rootSys_shaped, rootSys_counted⟩, fun i hi => ?_⟩, fun i => ?_, fun f => ?_⟩
  · have hroot : i = ROOTINO := by
      by_contra hne
      rw [hmem, if_neg hne] at hi
      omega
    rw [hroot, rootSys_root]
    decide
  · rw [rootSys_held, hmem]
  · have huses : rootSys.uses f = 0 := Finset.sum_eq_zero fun p _ =>
        Finset.sum_eq_zero fun fd _ => if_neg (by simp [rootSys])
    rw [huses]
    exact Nat.zero_le _

def pathA : List UInt8 := [47, 97]

def pathAB : List UInt8 := [47, 97, 47, 98]

def pathC : List UInt8 := [47, 99]

/-- A file is made, linked and unlinked in a directory that is then removed, another becomes the
    working directory. -/
def busyRun : List (Fin NPROC × Call) :=
  [(firstProc, .sysMkdir pathA), (firstProc, .sysCreat pathAB 0o644),
    (firstProc, .sysLink pathAB pathC),
    (firstProc, .sysUnlink pathAB), (firstProc, .sysRmdir pathA), (firstProc, .sysClose firstFd),
    (firstProc, .sysMkdir pathA), (firstProc, .sysChdir pathA),
      (firstProc, .sysLinkat pathC pathAB)]

theorem busyRun_runs : ∃ t, Run (AllowedStep 10) rootSys busyRun t := by
  obtain ⟨t, hrun, -⟩ := Outcome.exists_guarded (fun s a _ => Allowed 10 s a) (step 10) rootSys
    busyRun (fun _ => True) (by decide +kernel)
  exact ⟨t, hrun.mono fun _ _ _ h => h.symm⟩

/-- **No dangling entries.** In every state of a run of allowed calls, every live entry of a
    directory in use names an allocated inode; every path walk returns; and no allowed call finds an
    inode without a type, unless it creates one. -/
theorem entries_allocated {as : List (Fin NPROC × Call)} (h : s.Safe N)
    (hr : Run (AllowedStep N) s as t) :
    (∀ d, (t.fs.node d).isDir → t.InUse N d → ∀ e ∈ (t.fs.node d).dents, e.ino ≠ 0 →
      (t.fs.node e.ino).mode ≠ 0) ∧
    (∀ p cwd path parent, (t.proc p).cwd = some cwd →
      ∃ r u, namex cwd path parent t.fs = .ok (r, u)) ∧
    (∀ p call, Allowed N t (p, call) → step N t (p, call) = .panic "ilock: no type" →
      ∃ cwd, (t.proc p).cwd = some cwd ∧ call.type ((t.proc p).cred cwd) = some 0) := by
  have ht := run_sound h hr
  refine ⟨fun d hdir hd e he hlive => ?_, fun p cwd path parent hcwd => ?_, fun p call hok hs => ?_⟩
  · exact (ht.inv.tree.shaped.named d (ht.lt_of_inUse hdir hd) hdir e he hlive).2
  · obtain ⟨r, u, hx, _⟩ := (namex_moves ht.inv (ht.cwd_ref hcwd)).returns fun _ => id
    exact ⟨r, u, hx⟩
  · obtain ⟨cwd, hcwd, hp⟩ := step_panic ht hok hs
    refine ⟨cwd, hcwd, ?_⟩
    rcases hp with hm | hm | hm | ⟨htype, _⟩
    · exact absurd hm (by decide)
    · exact absurd hm (by decide)
    · exact absurd hm (by decide)
    · exact htype

theorem entries_allocated_busy : rootSys.Safe 10 ∧ ∃ t, Run (AllowedStep 10) rootSys busyRun t ∧
    ∀ d, (t.fs.node d).isDir → t.InUse 10 d → ∀ e ∈ (t.fs.node d).dents,
      e.ino ≠ 0 → (t.fs.node e.ino).mode ≠ 0 := by
  obtain ⟨t, ht⟩ := busyRun_runs
  exact ⟨rootSys_safe, t, ht, (entries_allocated rootSys_safe ht).1⟩

def Outcome.message {σ : Type} : Outcome σ → Option String
  | .panic msg => some msg
  | _ => none

/-- The working directory `/a/b` is removed, then its parent: `..` of the working directory names a
    free inode, and the next walk through it panics. -/
theorem dangling_parent : rootSys.Safe 10 ∧
    (Outcome.exec (step 10) rootSys [(firstProc, .sysMkdir pathA),
      (firstProc, .sysMkdir pathAB), (firstProc, .sysChdir pathAB),
      (firstProc, .sysRmdir pathAB),
        (firstProc, .sysRmdir pathA)]).map (fun t => ((t.proc firstProc).cwd,
        (t.fs.node 3).dents.map Dent.ino, (t.fs.node 2).mode,
        Outcome.message (step 10 t (firstProc, .sysChdir DOTDOT)))) =
      some (some 3, [3, 2], 0, some "ilock: no type") :=
  ⟨rootSys_safe, by decide +kernel⟩

/-- **Link counts.** In every state of a run of allowed calls, the link count of every allocated
    inode is the number of live entries, other than `.`, that name it, and `unlink` returns. -/
theorem links_counted {as : List (Fin NPROC × Call)} (h : s.Safe N)
    (hr : Run (AllowedStep N) s as t) :
    (∀ i, i < N → (t.fs.node i).mode ≠ 0 → asShort (t.fs.node i).nlink = links N t.fs.node i) ∧
    (∀ p cwd path, (t.proc p).cwd = some cwd →
      ∃ r u, sysUnlink ((t.proc p).cred cwd) path t.fs = .ok (r, u)) := by
  have ht := run_sound h hr
  refine ⟨fun i hi hm => ?_, fun p cwd path hcwd => ?_⟩
  · rw [ht.inv.tree.counted i hi hm, noLink, Int.add_zero]
  · have hserves : wp (sysUnlink ((t.proc p).cred cwd) path) _ (fun _ => False) t.fs :=
      sysUnlink_serves ht.inv (ht.cwd_ref hcwd)
    obtain ⟨r, u, hx, _⟩ := hserves.returns fun _ => id
    exact ⟨r, u, hx⟩

theorem links_counted_busy : rootSys.Safe 10 ∧ ∃ t, Run (AllowedStep 10) rootSys busyRun t ∧
    ∀ i, i < 10 → (t.fs.node i).mode ≠ 0 → asShort (t.fs.node i).nlink = links 10 t.fs.node i := by
  obtain ⟨t, ht⟩ := busyRun_runs
  exact ⟨rootSys_safe, t, ht, (links_counted rootSys_safe ht).1⟩

/-- `creat` on a directory truncates it: the root keeps the link of the `..` that is gone. -/
theorem truncated_directory_miscounted : rootSys.Safe 10 ∧
    (Outcome.exec (step 10) rootSys [(firstProc, .sysMkdir pathA),
        (firstProc, .sysCreat pathA 0o644)]).map (fun t =>
      (asShort (t.fs.node ROOTINO).nlink, links 10 t.fs.node ROOTINO)) = some (2, 1) :=
  ⟨rootSys_safe, by decide +kernel⟩

end Micro86.Tree
