import Micro86.File.Refs

/-!
# Every call keeps the counts

Each call is followed through its operations with `Ok`; at its return nothing is owed.

* `file_refs` — every sequence of calls.
-/

namespace Micro86.Files

open Exec (wp wp_bind wp_get wp_modify wp_pure wp_panic)
open Function

variable {f : Fin NFILE} {s : Table}
variable {e : Fin NFILE → Int} {fresh : List (Fin NFILE)}

abbrev Between (s : Table) : Prop := Ok s (fun _ => 0) []

def Other (msg : String) : Prop := msg ≠ "filedup" ∧ msg ≠ "fileclose"

/-! ## Operations -/

section

variable {s : Table} {E : String → Prop}

theorem wp_fileAlloc {Q : Option (Fin NFILE) → Table → Prop} (hnone : Q none s)
    (hsome : ∀ f, (s.file f).ref = 0 → Q (some f) (s.setRef f 1)) : wp fileAlloc Q E s := by
  unfold fileAlloc
  rw [wp_bind, wp_get]
  split
  · exact hnone
  · rename_i f hf
    exact hsome f (by simpa using List.find?_some hf)

theorem wp_fdalloc {p : Fin NPROC} {Q : Option (Fin NOFILE) → Table → Prop} (hnone : Q none s)
    (hsome : ∀ fd, s.ofile (p, fd) = none → Q (some fd) (s.setSlot (p, fd) (some f))) :
    wp (fdalloc p f) Q E s := by
  unfold fdalloc
  rw [wp_bind, wp_get]
  split
  · exact hnone
  · rename_i fd hfd
    exact hsome fd (by simpa using List.find?_some hfd)

theorem wp_fileDup {Q : Unit → Table → Prop} (hf : 1 ≤ (s.file f).ref)
    (hQ : Q () (s.setRef f ((s.file f).ref + 1))) : wp (fileDup f) Q E s := by
  unfold fileDup
  rw [wp_bind, wp_get, if_neg hf.not_gt]
  exact hQ

theorem wp_fileClose {Q : Unit → Table → Prop} (hf : 1 ≤ (s.file f).ref)
    (hQ : Q () (s.dropRef f)) : wp (fileClose f) Q E s := by
  unfold fileClose
  rw [wp_bind, wp_get, if_neg hf.not_gt]
  exact hQ

end

theorem dropRef_other (s : Table) {g : Fin NFILE} (h : g ≠ f) :
    (s.dropRef f).file g = s.file g := by
  unfold Table.dropRef
  split
  · exact s.setFile_ne f h _
  · exact s.setFile_ne f h _

theorem dropRef_frame (s : Table) (f : Fin NFILE) :
    (s.dropRef f).ofile = s.ofile ∧ (s.dropRef f).status = s.status := by
  unfold Table.dropRef
  split
  · exact ⟨rfl, rfl⟩
  · exact ⟨rfl, rfl⟩

/-- An entry just allocated is given up: it is free again. -/
theorem Ok.dropFresh (h : Ok s e (f :: fresh))
    (hf : (s.file f).ref = 1) : Ok (s.dropRef f) (fun g => e g - points (some f) g) fresh := by
  have hdrop := h.drop hf.symm.le
  refine ⟨hdrop.refs, hdrop.idle, fun g hg => ?_, hdrop.objs⟩
  refine (hdrop.typed g hg).imp_right (fun hin => (List.mem_cons.mp hin).resolve_left ?_)
  rintro rfl
  unfold Table.dropRef at hg
  rw [hf, if_neg (by decide), show (s.vacate g).file g = _ from s.setFile_self g _] at hg
  exact absurd hg (Nat.lt_irrefl 0)

theorem argfd_eq {p : Fin NPROC} {fd : Int} {x : Fin NOFILE} (h : argfd s p fd = some (x, f)) :
    s.ofile (p, x) = some f := by
  unfold argfd at h
  split at h
  · cases h
  obtain ⟨g, hg, he⟩ := Option.map_eq_some_iff.mp h
  cases he
  exact hg

theorem Ok.ref_pos (h : Ok s e fresh) {x : Slot}
    (hx : s.ofile x = some f) (he : 0 ≤ e f) : 1 ≤ (s.file f).ref := by
  have hrefs := h.refs f
  have hcount := s.count_pos hx
  omega

/-! ## Calls -/

section

variable {s : Table} {p : Fin NPROC}

section

variable (h : Between s)
include h

section

variable (hp : s.status p = .live)
include hp

theorem install_balanced (err : Int) (ip : Nat) (v : File → File) :
    wp (install p err ip v) (fun _ t => Between t) Other s := by
  unfold install
  rw [wp_bind]
  refine wp_fileAlloc h (fun f hf => ?_)
  have halloc := h.alloc hf
  have href : ((s.setRef f 1).file f).ref = 1 := by rw [s.setRef_ref, if_pos rfl]
  have hobj : ((s.setRef f 1).file f).obj = none := by
    rw [s.setRef_obj]
    exact h.objs.free f hf
  rw [wp_bind]
  refine wp_fdalloc ?_ (fun fd hfd => ?_)
  · rw [wp_bind]
    exact wp_fileClose href.symm.le ((halloc.dropFresh href).congr (fun g => by ring))
  · rw [wp_bind, wp_modify]
    have hslot := halloc.setSlot (p, fd) (some f) (.inr (.inl hp))
    refine (hslot.assign (Nat.zero_lt_one.trans_le href.symm.le) hobj rfl
      (fun g hg => .inl (List.mem_singleton.mp hg))).congr (fun g => ?_)
    rw [show (s.setRef f 1).ofile (p, fd) = none from hfd, points_none]
    push_cast
    ring

theorem sysOpen_balanced (found : Option (Nat × Nat)) (omode : Mode) :
    wp (sysOpen p found omode) (fun _ t => Between t) Other s := by
  unfold sysOpen
  split
  · exact h
  · exact install_balanced h hp _ _ _

theorem sysCreat_balanced (found : Option Nat) :
    wp (sysCreat p found) (fun _ t => Between t) Other s := by
  unfold sysCreat
  split
  · exact h
  · exact install_balanced h hp _ _ _

theorem sysDup_balanced (fd : Int) :
    wp (sysDup p fd) (fun _ t => Between t) Other s := by
  unfold sysDup
  rw [wp_bind, wp_get]
  split
  · exact h
  rename_i x f hx
  have href := h.ref_pos (argfd_eq hx) (Int.le_refl 0)
  rw [wp_bind]
  refine wp_fdalloc h (fun fd' hfd => ?_)
  have hslot := h.setSlot (p, fd') (some f) (.inr (.inl hp))
  rw [wp_bind]
  refine wp_fileDup href ((hslot.dup href).congr (fun g => ?_))
  rw [hfd, points_none]
  push_cast
  ring

end

theorem closeSlot_balanced (x : Slot) :
    wp (closeSlot x) (fun _ t => Between t ∧ t.status = s.status ∧
      t.ofile = update s.ofile x none) Other s := by
  unfold closeSlot
  rw [wp_bind, wp_get]
  split
  · rename_i hx
    exact ⟨h, rfl, by rw [← hx, update_eq_self]⟩
  rename_i f hx
  obtain ⟨hofile, hstatus⟩ := dropRef_frame s f
  rw [wp_bind]
  refine wp_fileClose (h.ref_pos hx (Int.le_refl 0)) ?_
  rw [wp_modify]
  refine ⟨?_, hstatus, by rw [← hofile]; rfl⟩
  refine ((h.drop (h.ref_pos hx (Int.le_refl 0))).setSlot x none (.inl rfl)).congr (fun g => ?_)
  rw [hofile, hx, points_none]
  push_cast
  ring

theorem sysDup2_balanced (hp : s.status p = .live) (oldfd newfd : Int) :
    wp (sysDup2 p oldfd newfd) (fun _ t => Between t) Other s := by
  unfold sysDup2
  split
  · rename_i old new _ _
    rw [wp_bind, wp_get]
    split
    · exact h
    rename_i f hf
    split
    · exact h
    rename_i hne
    refine (closeSlot_balanced h (p, new)).seq ?_
    rintro _ t ⟨ht, hstatus, hofile⟩
    have hold : t.ofile (p, old) = some f := by
      rw [hofile, update_of_ne (fun he => hne (Prod.mk.inj he).2)]
      exact hf
    have hnew : t.ofile (p, new) = none := by rw [hofile, update_self]
    have href := ht.ref_pos hold (Int.le_refl 0)
    have hslot := ht.setSlot (p, new) (some f) (.inr (.inl (by rw [hstatus]; exact hp)))
    rw [wp_bind, wp_modify, wp_bind]
    refine wp_fileDup href ((hslot.dup href).congr (fun g => ?_))
    rw [hnew, points_none]
    push_cast
    ring
  · exact h

theorem sysClose_balanced (fd : Int) : wp (sysClose p fd) (fun _ t => Between t) Other s := by
  unfold sysClose
  rw [wp_bind, wp_get]
  split
  · exact h
  rename_i x f hx
  have hslot := h.setSlot (p, x) none (.inl rfl)
  have href := h.ref_pos (argfd_eq hx) (Int.le_refl 0)
  rw [wp_bind, wp_modify, wp_bind]
  refine wp_fileClose href ((hslot.drop href).congr (fun g => ?_))
  rw [argfd_eq hx, points_none]
  push_cast
  ring

end

/-- A pipe that was made: both ends are counted and no descriptor points to them. -/
structure NewPipe (s t : Table) (rf wf : Fin NFILE) : Prop where
  ok : Ok t (fun g => points (some rf) g + points (some wf) g) []
  ne : wf ≠ rf
  rref : (t.file rf).ref = 1
  wref : (t.file wf).ref = 1
  status : t.status = s.status

theorem pipealloc_balanced (h : Between s) (page : Option Nat) :
    wp (pipealloc page) (fun r t => match r
      with | none => Between t | some (rf, wf) => NewPipe s t rf wf) Other s := by
  unfold pipealloc
  rw [wp_bind]
  refine wp_fileAlloc h (fun f hf => ?_)
  have halloc := h.alloc hf
  have href : ((s.setRef f 1).file f).ref = 1 := by rw [s.setRef_ref, if_pos rfl]
  rw [wp_bind]
  refine wp_fileAlloc ?_ (fun g hg => ?_)
  · rw [wp_bind]
    exact wp_fileClose href.symm.le ((halloc.dropFresh href).congr (fun g => by ring))
  have hgf : g ≠ f := by
    rintro rfl
    rw [href] at hg
    cases hg
  have hboth := halloc.alloc hg
  have hrefg : (((s.setRef f 1).setRef g 1).file g).ref = 1 := by rw [Table.setRef_ref, if_pos rfl]
  have hreff : (((s.setRef f 1).setRef g 1).file f).ref = 1 := by
    rw [Table.setRef_ref, if_neg hgf.symm, href]
  cases page with
  | none =>
    rw [wp_bind]
    refine wp_fileClose hreff.symm.le ?_
    rw [wp_bind]
    have hrefg' : ((((s.setRef f 1).setRef g 1).dropRef f).file g).ref = 1 := by
      rw [dropRef_other _ hgf, hrefg]
    have hswap : Ok ((s.setRef f 1).setRef g 1)
        (fun k => 0 + points (some f) k + points (some g) k) [f, g] :=
      hboth.mono (fun k hk => by simpa [or_comm] using hk)
    refine wp_fileClose hrefg'.symm.le
      (((hswap.dropFresh hreff).dropFresh hrefg').congr (fun k => by ring))
  | some page =>
    rw [wp_bind, wp_modify, wp_bind, wp_modify]
    have hobjf : (((s.setRef f 1).setRef g 1).file f).obj = none := by
      rw [Table.setRef_obj, Table.setRef_obj]
      exact h.objs.free f hf
    have hobjg : (((s.setRef f 1).setRef g 1).file g).obj = none := by
      rw [Table.setRef_obj]
      exact halloc.objs.free g hg
    have hone :
        Ok _ _ [g] := hboth.assign (v := pipeEnd page false (((s.setRef f 1).setRef g 1).file f))
      (by rw [hreff]; exact Nat.one_pos) hobjf rfl (fun k hk => by simpa [or_comm] using hk)
    -- the entry of the write end is untouched by the assignments to the read end
    have hother : ∀ v x,
        (((s.setRef f 1).setRef g 1).assign f v x).file g = ((s.setRef f 1).setRef g 1).file g :=
      fun v x => Table.setFile_ne _ f hgf _
    have htwo : Ok _ _ [] := hone.assign
      (v := pipeEnd page true ((((s.setRef f 1).setRef g 1).assign
        f (pipeEnd page false (((s.setRef f 1).setRef g 1).file f)) (.pipeEnd page false)).file g))
      (by rw [hother, hrefg]; exact Nat.one_pos) (by rw [hother]; exact hobjg)
        rfl (fun k hk => .inl (List.mem_singleton.mp hk))
    refine ⟨htwo.congr (fun k => by ring), hgf, ?_, ?_, rfl⟩
    · rw [show (Table.assign _ g _ _).file f = _ from Table.setFile_ne _ g hgf.symm _,
        show (Table.assign _ f _ _).file f = _ from Table.setFile_self _ f _]
      exact hreff
    · rw [show (Table.assign _ g _ _).file g = _ from Table.setFile_self _ g _]
      show ((Table.assign _ f _ _).file g).ref = 1
      rw [hother]
      exact hrefg

theorem NewPipe.close {t u : Table} {rf wf : Fin NFILE} (h : NewPipe s t rf wf)
    (hfile : u.file = t.file) (hu : Ok u (fun g => points (some rf) g + points (some wf) g) []) :
    wp (do fileClose rf; fileClose wf; pure (-ENOMEM)) (fun _ t => Between t) Other u := by
  have hrref : 1 ≤ (u.file rf).ref := by rw [hfile, h.rref]
  have hwref : 1 ≤ ((u.dropRef rf).file wf).ref := by rw [dropRef_other _ h.ne, hfile, h.wref]
  rw [wp_bind]
  refine wp_fileClose hrref ?_
  rw [wp_bind]
  exact wp_fileClose hwref (((hu.drop hrref).drop hwref).congr (fun g => by ring))

theorem sysPipe_balanced (h : Between s) (hp : s.status p = .live) (page : Option Nat) :
    wp (sysPipe p page) (fun _ t => Between t) Other s := by
  unfold sysPipe
  refine (pipealloc_balanced h page).seq (fun r t hr => ?_)
  cases r with
  | none => exact hr
  | some ends =>
    obtain ⟨rf, wf⟩ := ends
    have hlive : t.status p = .live := by rw [hr.status]; exact hp
    rw [wp_bind]
    refine wp_fdalloc (hr.close rfl hr.ok) (fun fd0 hfd0 => ?_)
    have hslot : Ok (t.setSlot (p, fd0) (some rf)) (fun g => (points (some wf) g : Int)) [] :=
      (hr.ok.setSlot (p, fd0) (some rf) (.inr (.inl hlive))).congr
        (fun g => by rw [hfd0, points_none]; push_cast; ring)
    rw [wp_bind]
    refine wp_fdalloc ?_ (fun fd1 hfd1 => ?_)
    · rw [wp_bind, wp_modify]
      refine hr.close rfl ((hslot.setSlot (p, fd0) none (.inl rfl)).congr (fun g => ?_))
      rw [show (t.setSlot (p, fd0) (some rf)).ofile (p, fd0) = some rf
        from update_self .., points_none]
      push_cast
      ring
    · refine (hslot.setSlot (p, fd1) (some wf) (.inr (.inl hlive))).congr (fun g => ?_)
      rw [hfd1, points_none]
      push_cast
      ring

theorem dupSlot_balanced (h : Between s) (x : Slot) {y : Slot}
    (hy : s.status y.1 = .embryo) (hnone : s.ofile y = none) :
    wp (dupSlot x y) (fun _ t => Between t ∧ t.status = s.status ∧
      ∀ z, z ≠ y → t.ofile z = s.ofile z) Other s := by
  unfold dupSlot
  rw [wp_bind, wp_get]
  split
  · exact ⟨h, rfl, fun _ _ => rfl⟩
  rename_i f hx
  have href := h.ref_pos hx (Int.le_refl 0)
  rw [wp_bind]
  refine wp_fileDup href ?_
  rw [wp_modify]
  refine ⟨?_, rfl, fun z hz => update_of_ne hz ..⟩
  refine ((h.dup href).setSlot y (some f) (.inr (.inr hy))).congr (fun g => ?_)
  rw [show (s.setRef f _).ofile y = none from hnone, points_none]
  push_cast
  ring

/-- The loop of `fork`: the child has none of the descriptors still to be copied. -/
theorem dupFiles_balanced {np : Fin NPROC} {fds : List (Fin NOFILE)}
    (hnd : fds.Nodup) (h : Between s)
    (hnp : s.status np = .embryo) (hnone : ∀ fd ∈ fds, s.ofile (np, fd) = none) :
    wp (dupFiles p np fds) (fun _ t => Between t) Other s := by
  induction fds generalizing s with
  | nil => exact h
  | cons fd fds ih =>
    obtain ⟨hnotin, hnd⟩ := List.nodup_cons.mp hnd
    refine (dupSlot_balanced h (p, fd) hnp (hnone fd List.mem_cons_self)).seq ?_
    rintro _ t ⟨ht, hstatus, hofile⟩
    refine ih hnd ht (by rw [hstatus]; exact hnp) (fun fd' hfd' => ?_)
    rw [hofile _ (fun he => hnotin ((Prod.mk.inj he).2 ▸ hfd'))]
    exact hnone fd' (List.mem_cons_of_mem fd hfd')

variable (h : Between s)
include h

theorem fork_balanced (kstack copied : Bool) :
    wp (fork p kstack copied) (fun _ t => Between t) Other s := by
  unfold fork
  rw [wp_bind, wp_get]
  split
  · exact h
  rename_i np hnp
  have hunused : s.status np = .unused := by simpa using List.find?_some hnp
  have hnone : ∀ fd, s.ofile (np, fd) = none := fun fd => h.idle (np, fd) (.inl hunused)
  have hembryo := h.setStatus np .embryo (.inr (.inl rfl))
  have hpid : Between
      { s.setStatus np .embryo with pid := update s.pid np s.nextpid, nextpid := s.nextpid + 1 } :=
    ⟨hembryo.refs, hembryo.idle, hembryo.typed,
      hembryo.objs.of_obj hembryo.objs.free (fun _ => rfl) (fun _ => rfl) rfl rfl⟩
  rw [wp_bind, wp_modify]
  split
  · rw [wp_bind, wp_modify]
    exact hpid.setStatus np .unused (.inr (.inr hnone))
  refine (dupFiles_balanced (List.nodup_finRange NOFILE) hpid
    (update_self ..) (fun fd _ => hnone fd)).seq (fun _ t ht => ?_)
  rw [wp_bind, wp_modify]
  exact ht.setStatus np .live (.inl rfl)

theorem closeFiles_balanced {fds : List (Fin NOFILE)} :
    wp (closeFiles p fds) (fun _ t => Between t ∧ (∀ x, s.ofile x = none → t.ofile x = none) ∧
      ∀ fd ∈ fds, t.ofile (p, fd) = none) Other s := by
  induction fds generalizing s with
  | nil => exact ⟨h, fun _ => id, fun _ hfd => absurd hfd List.not_mem_nil⟩
  | cons fd fds ih =>
    refine (closeSlot_balanced h (p, fd)).seq ?_
    rintro _ t ⟨ht, -, hofile⟩
    refine (ih ht).imp ?_
    rintro _ u ⟨hu, hkeep, hclosed⟩
    refine ⟨hu, fun x hx => hkeep x ?_, fun fd' hfd' => ?_⟩
    · rw [hofile]
      refine update_cases x ?_ fun _ => ?_
      · rfl
      · rw [hx]
    · rcases List.mem_cons.mp hfd' with rfl | hfd'
      · exact hkeep _ (by rw [hofile, update_self])
      · exact hclosed fd' hfd'

theorem exit_balanced (ignored : Bool) : wp (exit p ignored) (fun _ t => Between t) Other s := by
  unfold exit
  rw [wp_bind, wp_get]
  split
  · rw [wp_panic]
    exact ⟨by decide, by decide⟩
  refine (closeFiles_balanced h).seq ?_
  rintro _ t ⟨ht, -, hclosed⟩
  split
  · rw [wp_bind, wp_modify, wp_panic]
    exact ⟨by decide, by decide⟩
  · rw [wp_bind, wp_modify]
    exact ht.setStatus p .zombie (.inr (.inr (fun fd => hclosed fd (List.mem_finRange fd))))

theorem reap_balanced (q : Fin NPROC) : wp (reap q) (fun _ t => Between t) Other s := by
  unfold reap
  rw [wp_bind, wp_get]
  split
  · rename_i hz
    rw [wp_bind, wp_modify]
    exact h.setStatus q .unused (.inr (.inr (fun fd => h.idle (q, fd) (.inr hz))))
  · exact h

theorem Call.balanced (hp : s.status p = .live) (call : Call) :
    wp (call.run p) (fun _ t => Between t) Other s := by
  cases call with
  | invalid => exact h
  | «open» found omode => exact sysOpen_balanced h hp found omode
  | creat found => exact sysCreat_balanced h hp found
  | dup fd => exact sysDup_balanced h hp fd
  | dup2 oldfd newfd => exact sysDup2_balanced h hp oldfd newfd
  | pipe page => exact sysPipe_balanced h hp page
  | close fd => exact sysClose_balanced h fd
  | fork kstack copied => exact fork_balanced h kstack copied
  | exit ignored => exact exit_balanced h ignored
  | waitpid q => exact reap_balanced h q

end

/-! ## Runs -/

theorem Table.Booted.between (h : s.Booted) : Between s := by
  have hobj : ∀ f, (s.file f).obj = none := fun f => by rw [File.obj, (h.file f).2]
  have hcount : ∀ f, s.count f = 0 :=
    fun f => Finset.sum_eq_zero (fun x _ => by rw [h.ofile x, points_none])
  refine ⟨fun f => ?_, fun x _ => h.ofile x, fun f hf => ?_, ?_⟩
  · rw [(h.file f).1, hcount f]
    rfl
  · rw [(h.file f).1] at hf
    exact absurd hf (Nat.lt_irrefl 0)
  · refine ⟨fun f _ => hobj f, fun f x hf => ?_, fun f g => absurd (hobj f),
      fun o x ho => ?_, fun o x ho => ?_, ?_⟩
    · rw [hobj f] at hf
      cases hf
    · rw [h.made] at ho
      cases ho
    · rw [h.released] at ho
      cases ho
    · rw [h.released]
      exact List.nodup_nil

/-- The descriptor `x` refers to the pipe end or inode `obj` that was put in an entry as number
    `o`. -/
def Table.Refers (s : Table) (x : Slot) (o : Nat) (obj : Obj) : Prop :=
  ∃ f, s.ofile x = some f ∧ (s.file f).obj = some obj ∧ (s.file f).serial = o

theorem Ok.released_iff (h : Between s) {o : Nat} {obj : Obj} (ho : s.made[o]? = some obj) :
    (o, obj) ∈ s.released ↔ ¬ ∃ x, s.Refers x o obj := by
  refine ⟨?_, fun hno => ?_⟩
  · rintro hrel ⟨x, f, -, hobj, rfl⟩
    exact (h.objs.held f obj hobj).2 (List.mem_map.mpr ⟨_, hrel, rfl⟩)
  · refine (h.objs.accounted o obj ho).resolve_right ?_
    rintro ⟨f, hobj, hs⟩
    have href : 0 < (s.file f).ref := by
      refine Nat.pos_of_ne_zero (fun hz => ?_)
      rw [h.objs.free f hz] at hobj
      cases hobj
    have hrefs := h.refs f
    obtain ⟨x, hx⟩ := s.exists_slot (f := f) (by omega)
    exact hno ⟨x, f, hx, hobj, hs⟩

/-- **Reference counts of the file table.**  In every state between the calls of any run: the count
of each entry is the number of descriptors that point to it; no call panics in `file_dup` or
`file_close`; an entry `file_alloc` gives out is one no descriptor points to; and each pipe end and
each inode put in an entry was released, then exactly once, if and only if no descriptor refers to
it. -/
theorem file_refs {s t : Table} {acts : List (Fin NPROC × Call)}
    (hs : s.Booted) (h : Run Next s acts t) : (∀ f, (t.file f).ref = t.count f) ∧
      (∀ p call msg, t.status p = .live → Call.run p call t = .error msg →
        msg ≠ "filedup" ∧ msg ≠ "fileclose") ∧
      (∀ f u, fileAlloc t = .ok (some f, u) → ∀ x, t.ofile x ≠ some f) ∧
      (t.released.map Prod.fst).Nodup ∧
      ∀ o obj, t.made[o]? = some obj → ((o, obj) ∈ t.released ↔ ¬ ∃ x, t.Refers x o obj) := by
  have hbetween : Between t := by
    refine h.invariant (fun s a t hi hn => ?_) hs.between
    obtain ⟨hlive, r, hr⟩ := hn
    exact (Call.balanced hi hlive a.2).of_ok hr
  have hrefs : ∀ f, (t.file f).ref = t.count f := fun f => by
    have := hbetween.refs f
    omega
  refine ⟨hrefs, ?_, ?_, hbetween.objs.once, fun o obj => hbetween.released_iff⟩
  · intro p call msg hlive herr
    exact (Call.balanced hbetween hlive call).of_error herr
  · intro f u halloc x hx
    have hfree : (t.file f).ref = 0 :=
      (wp_fileAlloc (Q := fun r _ => ∀ g, r = some g → (t.file g).ref = 0)
        (E := fun _ => True) nofun (fun g hg k hk => by cases hk; exact hg)).of_ok halloc f rfl
    have hpos := t.count_pos hx
    rw [← hrefs f, hfree] at hpos
    exact absurd hpos (by decide)

def init : Fin NPROC := ⟨0, NPROC_pos⟩

def booted : Table where
  file := fun _ => ⟨.none, 0, false, false, 0, 0, 0, 0⟩
  ofile := fun _ => none
  status := fun p => if p = init then .live else .unused
  pid := fun _ => 1
  nextpid := 2
  initproc := init
  made := []
  released := []

/-- Inode 5 is opened, its descriptor duplicated, and both are closed: it is released once. -/
theorem file_refs_closed :
    ∃ t, Run Next booted [(init, .open (some (5, 0)) ⟨false, true, false⟩),
      (init, .dup 0), (init, .close 0), (init, .close 1)] t ∧
      t.released = [(0, .inode 5)] ∧ ¬ ∃ x, t.Refers x 0 (.inode 5) := by
  have hrun : Run Next booted [(init, .open (some (5, 0)) ⟨false, true, false⟩),
      (init, .dup 0), (init, .close 0), (init, .close 1)] _ :=
    .cons ⟨rfl, _, rfl⟩ (.cons ⟨rfl, _, rfl⟩ (.cons ⟨rfl, _, rfl⟩ (.cons ⟨rfl, _, rfl⟩ (.nil _))))
  have hbooted : booted.Booted := ⟨fun _ => ⟨rfl, rfl⟩, fun _ => rfl, rfl, rfl⟩
  exact ⟨_, hrun, rfl, ((file_refs hbooted hrun).2.2.2.2 0 (.inode 5) rfl).mp (by decide +kernel)⟩

end Micro86.Files
