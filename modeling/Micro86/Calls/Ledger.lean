import Micro86.Calls.Steps

/-!
# References to inodes and files, accounted for

The reference count of an entry of the inode cache is the number of processes whose working
directory it is, plus the number of files on it, plus what the calls in progress hold; likewise for
the files of the table and the descriptors.  `Account` is what a process in a call holds in excess
of the tables (less than nothing where it has given a reference back before the pointer to it).

* `Balanced.go` — every action keeps them in agreement.
-/

namespace Micro86.Calls

open Fs (Inode Ptr Dirent)
open Function

variable {f : Fid} {w : File}

/-- One reference, to the entry or file that a pointer points to. -/
def one {α : Type} [DecidableEq α] (v : Option α) (x : α) : Int := if v = some x then 1 else 0

@[simp] theorem one_self {α : Type} [DecidableEq α] (x : α) : one (some x) x = 1 := if_pos rfl

theorem one_of_ne {α : Type} [DecidableEq α] {x y : α} (h : y ≠ x) : one (some x) y = 0 :=
  if_neg fun hs => h (Option.some.inj hs).symm

def File.on (f : File) (ip : Ptr) : Int := if f.type = .inode ∧ f.ip = some ip then 1 else 0

def cwdOf (q : Option Proc) : Option Ptr := q.bind Proc.cwd

def heldBy (q : Option Proc) (f : Fid) : Int :=
  match q with
  | none => 0
  | some me => State.opened me f

namespace State

variable (s : State)

def cwds (ip : Ptr) : Int := ∑ p, one (cwdOf (s.proc p)) ip

def opens (ip : Ptr) : Int := ∑ f, (s.file f).on ip

def slots (f : Fid) : Int := ∑ p, heldBy (s.proc p) f

end State

/-- What a process in a call holds: references to inodes and files in excess of the tables, and
    files that it has allocated and that have no type yet; `me` is its entry of the process
    table. -/
structure Account where
  refs : Ptr → Int
  files : Fid → Int
  fresh : Fid → Bool
  me : Option Proc

namespace Account

variable (g : Account)

def zero : Account := ⟨0, 0, fun _ => false, none⟩

/-- Nothing is owed. -/
def Settled : Prop := g.refs = 0 ∧ g.files = 0 ∧ g.fresh = fun _ => false

def add (k : Ptr → Int) : Account := { g with refs := g.refs + k }

def addFiles (k : Fid → Int) : Account := { g with files := g.files + k }

def setFresh (f : Fid) (b : Bool) : Account := { g with fresh := update g.fresh f b }

def setMe (v : Option Proc) : Account := { g with me := v }

/-- No reference has been given back that the process does not have. -/
def Sound : Prop := ∀ ip, 0 ≤ g.refs ip

def own (f : Fid) : Int := heldBy g.me f + g.files f

end Account

/-- `sys_getcwd` does not go up. -/
def NoClimb (c : Call) : (o : Op) → Ans o → Prop
  | .dirFind _ _, r => (∃ depth, c = .getcwd depth) → r = none
  | _, _ => True

def Op.payable (g : Account) : Op → Prop
  | .fileDrop f => 1 ≤ g.own f
  | .setInode f _ _ _ => g.fresh f = true
  | .setPipe f _ _ => g.fresh f = true
  | .setCwd _ => ∃ me, g.me = some me
  | .setOfile _ _ => ∃ me, g.me = some me
  | .fdalloc _ => ∃ me, g.me = some me
  | .idup ip => cwdOf g.me = some ip ∧ g.Sound
  | .leave => ∃ me, g.me = some me ∧ me.cwd = none ∧ ∀ fd, me.ofile fd = none
  | _ => True

def Op.answers (g : Account) : (o : Op) → Ans o → Prop
  | .me, r => ∀ me, g.me = some me → r = me
  | .fileAlloc, r => ∀ f, r = some f → g.fresh f = false
  | .fileDrop f, r => g.fresh f = true → ∀ ff, r = some ff → ff.type = .none
  | _, _ => True

def Account.after (g : Account) : (o : Op) → Ans o → Account
  | .iget _, r => g.add (one (some r))
  | .idup ip, _ => g.add (one (some ip))
  | .drop ip, _ => g.add (- one (some ip))
  | .setCwd v, _ =>
      (g.add (one (cwdOf g.me) - one v)).setMe (g.me.map fun me => { me with cwd := v })
  | .setOfile fd v, _ =>
    (g.addFiles (one (g.me.bind fun me => me.ofile fd) - one v)).setMe
      (g.me.map fun me => { me with ofile := update me.ofile fd v })
  | .fdalloc f, r =>
    match r with
    | none => g
    | some fd => (g.addFiles (- one (some f))).setMe
          (g.me.map fun me => { me with ofile := update me.ofile fd (some f) })
  | .fileAlloc, r =>
    match r with
    | none => g
    | some f => (g.addFiles (one (some f))).setFresh f true
  | .fileDup f, _ => g.addFiles (one (some f))
  | .fileDrop f, r =>
    match r with
    | none => (g.addFiles (- one (some f))).setFresh f false
    | some ff => ((g.addFiles (- one (some f))).setFresh f false).add ff.on
  | .setInode f ip _ _, _ => (g.setFresh f false).add (- one (some ip))
  | .setPipe f _ _, _ => g.setFresh f false
  | .leave, _ => g.setMe none
  | _, _ => g

/-- The actions that touch neither counts nor files nor processes. -/
def Op.still : Op → Bool
  | .iget _ => false
  | .idup _ => false
  | .drop _ => false
  | .setCwd _ => false
  | .setOfile _ _ => false
  | .fdalloc _ => false
  | .fileAlloc => false
  | .fileDup _ => false
  | .fileDrop _ => false
  | .setOff _ _ => false
  | .setInode _ _ _ _ => false
  | .setPipe _ _ _ => false
  | .fork => false
  | .leave => false
  | _ => true

/-- The references a call holds. -/
def ledger (c : Call) : Discipline Op Ans Account where
  needs g o := o.payable g
  gives g o r := NoClimb c o r ∧ o.answers g r
  after g o r := g.after o r

/-! ## Counting -/

section Counts

variable {s : State} {me : Proc}

theorem opened_update (me : Proc) (fd : Fd) (v : Option Fid) (f : Fid) :
    State.opened { me with ofile := update me.ofile fd v } f =
      State.opened me f + (one v f - one (me.ofile fd) f) := by
  have h := sum_update (Finset.mem_univ fd) me.ofile v fun x => (if x = some f then 1 else 0 : Int)
  have h1 : State.opened { me with ofile := update me.ofile fd v } f +
      one (me.ofile fd) f = State.opened me f + one v f := h
  omega

theorem opened_nonneg (f : Fid) : 0 ≤ State.opened me f :=
  Finset.sum_nonneg fun fd _ => by split <;> decide

theorem opened_pos {fd : Fd} (h : me.ofile fd = some f) : 1 ≤ State.opened me f := by
  have hle : (if me.ofile fd = some f then 1 else 0 : Int) ≤ State.opened me f :=
    Finset.single_le_sum (f := fun fd => (if me.ofile fd = some f then 1 else 0 : Int))
      (fun fd _ => by split <;> decide) (Finset.mem_univ fd)
  rwa [if_pos h] at hle

theorem opened_none (h : ∀ fd, me.ofile fd = none) : State.opened me f = 0 :=
  Finset.sum_eq_zero fun fd _ => by rw [h fd]; rfl

theorem heldBy_nonneg (q : Option Proc) (f : Fid) : 0 ≤ heldBy q f := by
  cases q with
  | none => exact le_refl 0
  | some me => exact opened_nonneg f

theorem cwds_setProc (p : Pid) (v : Option Proc) (ip : Ptr) :
    (s.setProc p v).cwds ip = s.cwds ip + (one (cwdOf v) ip - one (cwdOf (s.proc p)) ip) := by
  have h := sum_update (Finset.mem_univ p) s.proc v fun q => one (cwdOf q) ip
  have h1 : (s.setProc p v).cwds ip + one (cwdOf (s.proc p)) ip = s.cwds ip + one (cwdOf v) ip := h
  omega

theorem slots_setProc (p : Pid) (v : Option Proc) (f : Fid) :
    (s.setProc p v).slots f = s.slots f + (heldBy v f - heldBy (s.proc p) f) := by
  have h := sum_update (Finset.mem_univ p) s.proc v fun q => heldBy q f
  have h1 : (s.setProc p v).slots f + heldBy (s.proc p) f = s.slots f + heldBy v f := h
  omega

theorem opens_setFile (f : Fid) (v : File) (ip : Ptr) :
    (s.setFile f v).opens ip = s.opens ip + (v.on ip - (s.file f).on ip) := by
  have h := sum_update (Finset.mem_univ f) s.file v fun x => x.on ip
  have h1 : (s.setFile f v).opens ip + (s.file f).on ip = s.opens ip + v.on ip := h
  omega

end Counts

/-! ## The tables and the accounts -/

/-- The reference counts are what the tables and the calls in progress hold, and what earlier calls
    have lost; a file that a process has allocated has no type until it gives it one, and no other
    process touches it. -/
structure Balanced (lost : Ptr → Int) (s : State) (g : Pid → Account) : Prop where
  refs : ∀ ip, (s.icache ip).ref = lost ip + s.cwds ip + s.opens ip + ∑ p, (g p).refs ip
  files : ∀ f, (s.file f).ref = s.slots f + ∑ p, (g p).files f
  own : ∀ p f, 0 ≤ heldBy (s.proc p) f + (g p).files f
  fresh : ∀ p f, (g p).fresh f = true → (s.file f).type = .none ∧
    1 ≤ heldBy (s.proc p) f + (g p).files f
  alone : ∀ p q f, (g p).fresh f = true → (g q).fresh f = true → p = q
  free : ∀ f, (s.file f).ref = 0 → (s.file f).type = .none
  me : ∀ p me, (g p).me = some me → s.proc p = some me

namespace Balanced

variable {lost : Ptr → Int} {s s' : State} {g : Pid → Account} {p : Pid} {v : Account}

section

variable (hI : Balanced lost s g)
include hI

theorem own_le (f : Fid) : heldBy (s.proc p) f + (g p).files f ≤ (s.file f).ref := by
  have hsum : (s.file f).ref = ∑ q, (heldBy (s.proc q) f + (g q).files f) := by
    rw [Finset.sum_add_distrib]
    exact hI.files f
  rw [hsum]
  exact Finset.single_le_sum (fun q _ => hI.own q f) (Finset.mem_univ p)

theorem not_fresh (h : (s.file f).ref = 0) : (g p).fresh f = false := by
  by_contra hf
  have hone := (hI.fresh p f (by simpa using hf)).2
  have hle := hI.own_le (p := p) f
  omega

/-- **The account of one process changes**, and the tables with it. -/
theorem step
    (hrefs : ∀ ip, (s'.icache ip).ref - (s.icache ip).ref =
      (s'.cwds ip - s.cwds ip) + (s'.opens ip - s.opens ip) + (v.refs ip - (g p).refs ip))
    (hfiles : ∀ f,
      (s'.file f).ref - (s.file f).ref = (s'.slots f - s.slots f) + (v.files f - (g p).files f))
    (hproc : ∀ q, q ≠ p → s'.proc q = s.proc q ∨ s.proc q = none)
    (hown : ∀ f, 0 ≤ heldBy (s'.proc p) f + v.files f)
    (hfresh : ∀ f, v.fresh f = true → (s'.file f).type = .none ∧
      1 ≤ heldBy (s'.proc p) f + v.files f)
    (hother : ∀ q f, q ≠ p → (g q).fresh f = true → (s'.file f).type = .none ∧ v.fresh f = false)
    (hfree : ∀ f, (s'.file f).ref = 0 → (s'.file f).type = .none)
    (hme : ∀ me, v.me = some me → s'.proc p = some me) :
    Balanced lost s' (update g p v) := by
  have hheld : ∀ q f, q ≠ p → heldBy (s.proc q) f ≤ heldBy (s'.proc q) f := by
    intro q f hq
    rcases hproc q hq with h | h
    · rw [h]
    · rw [h]
      exact heldBy_nonneg _ f
  refine ⟨fun ip => ?_, fun f => ?_, fun q f => ?_, fun q f hf => ?_,
    fun q r f hq hr => ?_, hfree, fun q me hq => ?_⟩
  · have hsum := sum_update (Finset.mem_univ p) g v fun a => a.refs ip
    have h1 := hI.refs ip
    have h2 := hrefs ip
    omega
  · have hsum := sum_update (Finset.mem_univ p) g v fun a => a.files f
    have h1 := hI.files f
    have h2 := hfiles f
    omega
  · have := hI.own q f
    grind [update_apply]
  · have := hI.fresh q f
    grind [update_apply]
  · have := hI.alone q r f
    grind [update_apply]
  · have := hI.me q me
    grind [update_apply]

end

/-- The account and the tables stay; anything else may change. -/
structure Same (s s' : State) : Prop where
  refs : ∀ ip, (s'.icache ip).ref = (s.icache ip).ref
  file : s'.file = s.file
  proc : s'.proc = s.proc

theorem Same.refl (s : State) : Same s s := ⟨fun _ => rfl, rfl, rfl⟩

section

variable (hI : Balanced lost s g)
include hI

theorem other_fresh (htype : ∀ f, (g p).fresh f = false → (s'.file f).type = (s.file f).type)
    (hv : ∀ f, v.fresh f = true → (g p).fresh f = true) (q : Pid)
    (f : Fid) (hq : q ≠ p) (hf : (g q).fresh f = true) :
    (s'.file f).type = .none ∧ v.fresh f = false := by
  have hnot : (g p).fresh f = false := by
    by_contra h
    exact hq (hI.alone q p f hf (by simpa using h))
  refine ⟨?_, ?_⟩
  · rw [htype f hnot]
    exact (hI.fresh q f hf).1
  · by_contra h
    rw [hv f (by simpa using h)] at hnot
    cases hnot

theorem same (hs : Same s s') : Balanced lost s' (update g p (g p)) := by
  obtain ⟨hrefs, hfile, hproc⟩ := hs
  refine hI.step ?_ ?_ (fun q _ => .inl (by rw [hproc])) ?_ ?_ ?_ ?_ ?_
  · intro ip
    rw [hrefs ip, State.cwds, State.cwds, State.opens, State.opens, hproc, hfile]
    omega
  · intro f
    rw [State.slots, State.slots, hproc, hfile]
    omega
  · rw [hproc]
    exact hI.own p
  · rw [hproc, hfile]
    exact hI.fresh p
  · exact hI.other_fresh (fun f _ => by rw [hfile]) fun f h => h
  · rw [hfile]
    exact hI.free
  · rw [hproc]
    exact hI.me p

theorem recount (ip : Ptr) (w : Slot) (k : Ptr → Int) (hw : w.ref = (s.icache ip).ref + k ip)
    (hk : ∀ jp, jp ≠ ip → k jp = 0) :
    Balanced lost (s.setSlot ip w) (update g p ((g p).add k)) := by
  refine hI.step ?_ (fun f => ?_) (fun q _ => .inl rfl) (hI.own p) (hI.fresh p)
    (hI.other_fresh (fun _ _ => rfl) fun f h => h) hI.free (hI.me p)
  · intro jp
    show _ = (s.cwds jp - s.cwds jp) + (s.opens jp - s.opens jp) +
        ((g p).refs jp + k jp - (g p).refs jp)
    refine State.setSlot_cases jp ?_ fun hj => ?_
    · omega
    · rw [hk jp hj]
      omega
  · show (s.file f).ref - (s.file f).ref = (s.slots f - s.slots f) + ((g p).files f - (g p).files f)
    omega

theorem taken (ip : Ptr) (w : Slot) (hw : w.ref = (s.icache ip).ref + 1) :
    Balanced lost (s.setSlot ip w) (update g p ((g p).add (one (some ip)))) :=
  hI.recount ip w _ (by rw [one_self, hw]) fun _ => one_of_ne

theorem given (ip : Ptr) (w : Slot) (hw : w.ref = (s.icache ip).ref - 1) :
    Balanced lost (s.setSlot ip w) (update g p ((g p).add (- one (some ip)))) := by
  refine hI.recount ip w _ ?_ fun jp hj => ?_
  · rw [Pi.neg_apply, one_self, hw]
    rfl
  · rw [Pi.neg_apply, one_of_ne hj]
    rfl

theorem reproc {w : Option Proc} (hme : v.me = w)
    (hrefs : ∀ ip, v.refs ip = (g p).refs ip + (one (cwdOf (s.proc p)) ip - one (cwdOf w) ip))
    (hfiles : ∀ f, v.files f = (g p).files f + (heldBy (s.proc p) f - heldBy w f))
    (hfresh : v.fresh = (g p).fresh) : Balanced lost (s.setProc p w) (update g p v) := by
  have hself : (s.setProc p w).proc p = w := State.setProc_self p w
  refine hI.step ?_ ?_ (fun q hq => .inl (State.setProc_ne w hq)) ?_ ?_ ?_ hI.free ?_
  · intro ip
    have h := cwds_setProc (s := s) p w ip
    show (s.icache ip).ref - (s.icache ip).ref = _ + (s.opens ip - s.opens ip) + _
    rw [hrefs ip]
    omega
  · intro f
    have h := slots_setProc (s := s) p w f
    show (s.file f).ref - (s.file f).ref = _
    rw [hfiles f]
    omega
  · intro f
    rw [hself, hfiles f]
    have := hI.own p f
    omega
  · intro f hf
    rw [hfresh] at hf
    obtain ⟨htype, hone⟩ := hI.fresh p f hf
    refine ⟨htype, ?_⟩
    rw [hself, hfiles f]
    omega
  · exact hI.other_fresh (fun _ _ => rfl) fun f h => by rwa [hfresh] at h
  · intro me h
    rw [hself, ← hme, h]

theorem refile (hme : v.me = (g p).me)
    (hrefs : ∀ ip, v.refs ip = (g p).refs ip + ((s.file f).on ip - w.on ip))
    (hfiles : ∀ x, v.files x = (g p).files x + (w.ref - (s.file f).ref) * one (some f) x)
    (hown : 0 ≤ heldBy (s.proc p) f + v.files f)
    (hfresh : ∀ x, x ≠ f → v.fresh x = (g p).fresh x)
    (hself : v.fresh f = true → w.type = .none ∧ 1 ≤ heldBy (s.proc p) f + v.files f)
    (hfree : w.ref = 0 → w.type = .none)
    (hother : ∀ q, q ≠ p → (g q).fresh f = true → w.type = .none ∧ v.fresh f = false) :
    Balanced lost (s.setFile f w) (update g p v) := by
  have hat : ∀ x, (s.setFile f w).file x = if x = f then w else s.file x := fun x => update_apply ..
  have hproc : (s.setFile f w).proc = s.proc := rfl
  have hkeep : ∀ x, x ≠ f → v.files x = (g p).files x := fun x hx => by
    rw [hfiles x, one, if_neg fun h => hx (Option.some.inj h).symm]
    omega
  refine hI.step ?_ (fun x => ?_) (fun q _ => .inl rfl) (fun x => ?_)
    (fun x hx => ?_) (fun q x hq hx => ?_) (fun x => ?_) (fun me h => hI.me p me (hme ▸ h))
  · intro ip
    have h := opens_setFile (s := s) f w ip
    show (s.icache ip).ref - (s.icache ip).ref = (s.cwds ip - s.cwds ip) + _ + _
    rw [hrefs ip]
    omega
  · show _ = (s.slots x - s.slots x) + _
    by_cases hx : x = f
    · subst hx
      rw [hat x, if_pos rfl, hfiles x, one, if_pos rfl]
      omega
    · rw [hat x, if_neg hx, hkeep x hx]
      omega
  · have := hI.own p x
    grind
  · have := hI.fresh p x
    grind
  · have := hI.fresh q x hx
    have := hI.alone q p x hx
    grind
  · have := hI.free x
    grind

theorem share {q : Pid} {me : Proc} {cwd : Ptr} (mask : UInt16) (hp : s.proc p = some me)
    (hq : s.proc q = none) (hcwd : me.cwd = some cwd) :
    Balanced lost (s.share q me mask cwd) (update g p (g p)) := by
  have hqp : q ≠ p := by
    rintro rfl
    rw [hp] at hq
    cases hq
  have hproc :
      (s.share q me mask cwd).proc = (s.setProc q (some { me with umask := mask })).proc := rfl
  refine hI.step ?_ ?_ ?_ ?_ ?_ ?_ ?_ ?_
  · intro ip
    have h := cwds_setProc (s := s) q (some { me with umask := mask }) ip
    rw [hq] at h
    have h1 : (s.share q me mask cwd).cwds ip = s.cwds ip + (one me.cwd ip - 0) := h
    have h2 : (s.share q me mask cwd).opens ip = s.opens ip := rfl
    have h3 : ((s.share q me mask cwd).icache ip).ref = (s.icache ip).ref + one (some cwd) ip := by
      dsimp only [State.share]
      refine update_cases ip ?_ fun hip => ?_
      · rw [one, if_pos rfl]
      · rw [one, if_neg fun h => hip (Option.some.inj h).symm, Int.add_zero]
    rw [h1, h2, h3, hcwd]
    omega
  · intro f
    have h := slots_setProc (s := s) q (some { me with umask := mask }) f
    rw [hq] at h
    have h1 : (s.share q me mask cwd).slots f = s.slots f + (State.opened me f - 0) := h
    have h2 : ((s.share q me mask cwd).file f).ref = (s.file f).ref + State.opened me f := rfl
    rw [h1, h2]
    omega
  · intro r hr
    by_cases hrq : r = q
    · subst hrq
      exact .inr hq
    · left
      rw [hproc, State.setProc_ne _ hrq]
  · intro f
    rw [hproc, State.setProc_ne _ hqp.symm]
    exact hI.own p f
  · intro f hf
    rw [hproc, State.setProc_ne _ hqp.symm]
    exact hI.fresh p f hf
  · exact hI.other_fresh (fun _ _ => rfl) fun f h => h
  · intro f hf
    have h2 : ((s.share q me mask cwd).file f).ref = (s.file f).ref + State.opened me f := rfl
    have hle := hI.own_le (p := p) f
    have hown := hI.own p f
    have hnon : 0 ≤ State.opened me f := opened_nonneg f
    exact hI.free f (by omega)
  · intro me' h
    rw [hproc, State.setProc_ne _ hqp.symm]
    exact hI.me p me' h

end

variable {h : Hint}

section

variable (hI : Balanced lost s g)
include hI

theorem drop {r : Option File} (hown : 1 ≤ (g p).own f) (hs : s.fileDrop f = .next (r, s')) :
    Op.answers (g p) (.fileDrop f) r ∧
      Balanced lost s' (update g p ((g p).after (.fileDrop f) r)) := by
  have hheld : heldBy (g p).me f ≤ heldBy (s.proc p) f := by
    cases hme : (g p).me with
    | none => exact heldBy_nonneg _ f
    | some me => rw [hI.me p me hme]
  have hown : 1 ≤ heldBy (s.proc p) f + (g p).files f := by
    have : 1 ≤ heldBy (g p).me f + (g p).files f := hown
    omega
  have hfiles : ∀ x : Fid, (g p).files x + (- one (some f)) x =
      (g p).files x + ((s.file f).ref - 1 - (s.file f).ref) * one (some f) x := by
    intro x
    have : (s.file f).ref - 1 - (s.file f).ref = -1 := by omega
    rw [this, Int.neg_one_mul]
    rfl
  have hat : (g p).files f + (- one (some f)) f = (g p).files f - 1 := by
    rw [Pi.neg_apply, one_self]
    omega
  have hself : ∀ b : Account, (b.setFresh f false).fresh f = false := fun b => update_self ..
  have hne : ∀ (b : Account) (x : Fid), x ≠ f → (b.setFresh f false).fresh x = b.fresh x :=
    fun b x hx => update_of_ne hx ..
  have hothers : ∀ q, q ≠ p → (g q).fresh f = true → (s.file f).type = .none :=
    fun q _ hf => (hI.fresh q f hf).1
  rcases fileDrop_next hs with ⟨hlt, rfl, rfl⟩ | ⟨hone, rfl, rfl⟩
  · refine ⟨fun _ ff hff => (by cases hff), ?_⟩
    refine hI.refile rfl (fun ip => ?_) hfiles ?_ (hne _) (fun hf => ?_)
      (fun hz => ?_) fun q hq hf => ⟨hothers q hq hf, hself _⟩
    · show (g p).refs ip = (g p).refs ip + ((s.file f).on ip - (s.file f).on ip)
      omega
    · show 0 ≤ heldBy (s.proc p) f + ((g p).files f + (- one (some f)) f)
      rw [hat]
      omega
    · rw [show ((g p).after (.fileDrop f) none).fresh f = false from hself _] at hf
      cases hf
    · dsimp only at hz
      omega
  · refine ⟨fun hf ff hff => ?_, ?_⟩
    · cases hff
      exact (hI.fresh p f hf).1
    · refine hI.refile rfl (fun ip => ?_) (fun x => ?_) ?_ (hne _)
        (fun hf => ?_) (fun _ => rfl) fun q _ _ => ⟨rfl, hself _⟩
      · show (g p).refs ip + (s.file f).on ip = (g p).refs ip + ((s.file f).on ip - 0)
        omega
      · show (g p).files x + (- one (some f)) x = (g p).files x +
            (0 - (s.file f).ref) * one (some f) x
        rw [hfiles x, hone]
        rfl
      · show 0 ≤ heldBy (s.proc p) f + ((g p).files f + (- one (some f)) f)
        rw [hat]
        omega
      · rw [show ((g p).after (.fileDrop f) (some (s.file f))).fresh f = false from hself _] at hf
        cases hf

theorem alloc (hz : (s.file f).ref = 0) :
    Balanced lost (s.setFile f { s.file f with ref := 1 })
      (update g p (((g p).addFiles (one (some f))).setFresh f true)) := by
  have htype := hI.free f hz
  have hown := hI.own p f
  have hat : (g p).files f + one (some f) f = (g p).files f + 1 := by rw [one_self]
  refine hI.refile rfl (fun ip => ?_) (fun x => ?_) ?_ (fun x hx => update_of_ne hx ..)
    (fun _ => ⟨htype, ?_⟩) (fun _ => htype) ?_
  · show (g p).refs ip = (g p).refs ip + ((s.file f).on ip - (s.file f).on ip)
    omega
  · show (g p).files x + one (some f) x = (g p).files x + (1 - (s.file f).ref) * one (some f) x
    rw [hz]
    omega
  · show 0 ≤ heldBy (s.proc p) f + ((g p).files f + one (some f) f)
    omega
  · show 1 ≤ heldBy (s.proc p) f + ((g p).files f + one (some f) f)
    omega
  · intro q _ hf
    rw [hI.not_fresh hz] at hf
    cases hf

theorem dup (hpos : 1 ≤ (s.file f).ref) :
    Balanced lost (s.setFile f { s.file f with ref := (s.file f).ref + 1 })
      (update g p ((g p).addFiles (one (some f)))) := by
  have hown := hI.own p f
  have hat : (g p).files f + one (some f) f = (g p).files f + 1 := by rw [one_self]
  refine hI.refile rfl (fun ip => ?_) (fun x => ?_) ?_ (fun _ _ => rfl)
    (fun hf => ?_) (fun hz => ?_) fun q hq hf => ⟨(hI.fresh q f hf).1, ?_⟩
  · show (g p).refs ip = (g p).refs ip + ((s.file f).on ip - (s.file f).on ip)
    omega
  · show (g p).files x + one (some f) x = (g p).files x + ((s.file f).ref + 1 - (s.file f).ref) *
        one (some f) x
    rw [add_sub_cancel_left, Int.one_mul]
  · show 0 ≤ heldBy (s.proc p) f + ((g p).files f + one (some f) f)
    omega
  · obtain ⟨htype, hone⟩ := hI.fresh p f hf
    refine ⟨htype, ?_⟩
    show 1 ≤ heldBy (s.proc p) f + ((g p).files f + one (some f) f)
    omega
  · dsimp only at hz
    omega
  · have hsame : ∀ x, (g p).fresh x = false → (s.file x).type = (s.file x).type := fun _ _ => rfl
    exact (hI.other_fresh hsame (fun _ => id) q f hq hf).2

theorem retype (hf : (g p).fresh f = true) (href : w.ref = (s.file f).ref) :
    Balanced lost (s.setFile f w) (update g p (((g p).setFresh f false).add (- w.on))) := by
  obtain ⟨htype, hone⟩ := hI.fresh p f hf
  have hself : (((g p).setFresh f false).add (- w.on)).fresh f = false := update_self ..
  refine hI.refile rfl (fun ip => ?_) (fun x => ?_) (hI.own p f)
    (fun x hx => update_of_ne hx ..) (fun h => ?_) (fun hz => ?_) ?_
  · have hoff : (s.file f).on ip = 0 := if_neg fun h => by rw [htype] at h; cases h.1
    show (g p).refs ip + - w.on ip = (g p).refs ip + ((s.file f).on ip - w.on ip)
    omega
  · show (g p).files x = (g p).files x + (w.ref - (s.file f).ref) * one (some f) x
    rw [href, Int.sub_self, Int.zero_mul, Int.add_zero]
  · rw [hself] at h
    cases h
  · have hle := hI.own_le (p := p) f
    omega
  · intro q hq hq'
    exact absurd (hI.alone q p f hq' hf) hq

theorem seek (htype : w.type = (s.file f).type) (hip : w.ip = (s.file f).ip)
    (href : w.ref = (s.file f).ref) : Balanced lost (s.setFile f w) (update g p (g p)) := by
  refine hI.refile rfl (fun ip => ?_) (fun x => ?_) (hI.own p f)
    (fun _ _ => rfl) (fun hf => ?_) (fun hz => ?_) fun q hq hf => ?_
  · rw [File.on, File.on, htype, hip]
    omega
  · rw [href, Int.sub_self, Int.zero_mul, Int.add_zero]
  · rw [htype]
    exact hI.fresh p f hf
  · rw [htype]
    exact hI.free f (by rw [← href, hz])
  · rw [htype]
    refine ⟨(hI.fresh q f hf).1, ?_⟩
    by_contra h
    exact hq (hI.alone q p f hf (by simpa using h))

theorem reslot {me : Proc} (hme : (g p).me = some me) (fd : Fd) (w : Option Fid) :
    Balanced lost (s.setOfile p me fd w)
      (update g p (((g p).addFiles (one (me.ofile fd) - one w)).setMe
      (some { me with ofile := update me.ofile fd w }))) := by
  have hp := hI.me p me hme
  refine hI.reproc rfl (fun ip => ?_) (fun f => ?_) rfl
  · rw [hp]
    show (g p).refs ip = (g p).refs ip + (one me.cwd ip - one me.cwd ip)
    omega
  · rw [hp]
    have h := opened_update me fd w f
    show (g p).files f + (one (me.ofile fd) f - one w f) = (g p).files f +
        (State.opened me f - State.opened _ f)
    omega

theorem byProc_me {α : Type} {me : Proc} {x : Proc → Outcome α} {y : α} (hme : (g p).me = some me)
    (hs : s.byProc p x = .next y) : x me = .next y := by
  obtain ⟨me', hme', hs⟩ := byProc_next hs
  rw [hI.me p me hme] at hme'
  cases hme'
  exact hs

theorem chdir {me : Proc} (hme : (g p).me = some me) (v : Option Ptr) :
    Balanced lost (s.setProc p (some { me with cwd := v }))
      (update g p ((g p).after (.setCwd v) ())) := by
  have hp := hI.me p me hme
  refine hI.reproc ?_ (fun ip => ?_) (fun f => ?_) rfl
  · show (g p).me.map _ = _
    rw [hme]
    rfl
  · rw [hp]
    show (g p).refs ip + (one (cwdOf (g p).me) ip - one v ip) = _
    rw [hme]
    rfl
  · rw [hp]
    show (g p).files f = (g p).files f + (State.opened me f - State.opened me f)
    omega

theorem install {me : Proc} (hme : (g p).me = some me) {fd : Fd} (hfd : me.ofile fd = none) :
    Balanced lost (s.setOfile p me fd (some f))
      (update g p ((g p).after (.fdalloc f) (some fd))) := by
  have hfree : one (me.ofile fd) - one (some f) = - one (some f) := by
    rw [hfd]
    exact zero_sub _
  have hslot := hI.reslot hme fd (some f)
  rw [hfree] at hslot
  unfold Account.after
  rw [hme]
  exact hslot

theorem typeInode {ip : Ptr} {readable writable : Bool} (hf : (g p).fresh f = true) :
    Balanced lost (s.setFile f
        { s.file f with type := .inode, ip := some ip, readable := readable, writable := writable })
      (update g p ((g p).after (.setInode f ip readable writable) ())) := by
  have hon : one (some ip) = File.on
      { s.file f with
        type := .inode, ip := some ip, readable := readable, writable := writable } := by
    funext jp
    simp [File.on, one]
  show Balanced lost _ (update g p (((g p).setFresh f false).add (- one (some ip))))
  rw [hon]
  exact hI.retype hf rfl

theorem typePipe {readable writable : Bool} (hf : (g p).fresh f = true) :
    Balanced lost (s.setFile f
        { s.file f with type := .pipe, readable := readable, writable := writable })
      (update g p ((g p).after (.setPipe f readable writable) ())) := by
  have hon : - File.on
      { s.file f with type := .pipe, readable := readable, writable := writable } = 0 := by
    funext jp
    simp [File.on]
  have hadd : ((g p).setFresh f false).add 0 = (g p).setFresh f false := by
    unfold Account.add
    rw [add_zero]
  have hpipe := hI.retype
    (w := { s.file f with type := .pipe, readable := readable, writable := writable }) hf rfl
  rwa [hon, hadd] at hpipe

theorem leave {me : Proc} (hme : (g p).me = some me) (hcwd : me.cwd = none)
    (hnone : ∀ fd, me.ofile fd = none) :
    Balanced lost (s.setProc p none) (update g p ((g p).after .leave ())) := by
  have hp := hI.me p me hme
  refine hI.reproc rfl (fun ip => ?_) (fun f => ?_) rfl
  · rw [hp, show cwdOf (some me) = none from hcwd]
    show (g p).refs ip = (g p).refs ip + (0 - 0)
    omega
  · rw [hp]
    show (g p).files f = (g p).files f + (State.opened me f - 0)
    rw [opened_none hnone]
    omega

end

theorem same_of_still {o : Op} {r : Ans o} (hs : sem p h s o = .next (r, s'))
    (ho : o.still = true) : Same s s' := by
  revert hs
  cases o <;> cases ho
  all_goals
    simp only [sem, State.load, State.ialloc, State.logging,
      State.writei, State.write, State.dirFind, State.dirFree, State.isdirempty, State.byProc]
    repeat' split
  all_goals rintro ⟨⟩
  all_goals first | exact ⟨fun _ => rfl, rfl, rfl⟩ | refine ⟨fun jp => ?_, rfl, rfl⟩
  all_goals
    simp only [State.itrunc, State.update, State.setIno, State.setDisk,
      State.setData, State.setSlot, update_apply]
    split <;> simp_all

/-- **Every action** keeps the tables and the accounts in agreement. -/
theorem go {o : Op} {r : Ans o} (hI : Balanced lost s g) (hpay : o.payable (g p))
    (hs : sem p h s o = .next (r, s')) :
    o.answers (g p) r ∧ Balanced lost s' (update g p ((g p).after o r)) := by
  cases o with
  | panic msg => cases hs
  | iget inum =>
    refine ⟨trivial, ?_⟩
    cases iget_next hs with
    | cached href hinum => exact hI.taken r _ rfl
    | fresh href hnone => exact hI.taken r _ (by rw [href]; rfl)
  | idup ip =>
    cases hs
    exact ⟨trivial, hI.taken ip _ rfl⟩
  | drop ip =>
    cases hs
    exact ⟨trivial, hI.given ip _ rfl⟩
  | me =>
    obtain ⟨me, hme, hs⟩ := byProc_next hs
    cases hs
    refine ⟨fun q hq => ?_, hI.same (Same.refl _)⟩
    rw [hI.me p q hq] at hme
    exact (Option.some.inj hme).symm
  | setCwd v =>
    obtain ⟨me, hme⟩ := hpay
    cases hI.byProc_me hme hs
    exact ⟨trivial, hI.chdir hme v⟩
  | setOfile fd v =>
    obtain ⟨me, hme⟩ := hpay
    cases hI.byProc_me hme hs
    refine ⟨trivial, ?_⟩
    unfold Account.after
    rw [hme]
    exact hI.reslot hme fd v
  | fdalloc f =>
    obtain ⟨me, hme⟩ := hpay
    rcases fdalloc_eq (Outcome.next.inj (hI.byProc_me hme hs)) with ⟨fd, rfl, hfd, rfl⟩ | ⟨rfl, rfl⟩
    · exact ⟨trivial, hI.install hme hfd⟩
    · exact ⟨trivial, hI.same (Same.refl _)⟩
  | fileAlloc =>
    have hs : s.fileAlloc = (r, s') := Outcome.next.inj hs
    rcases fileAlloc_eq hs with ⟨f, rfl, hz, rfl⟩ | ⟨rfl, rfl⟩
    · refine ⟨fun x hx => ?_, hI.alloc hz⟩
      cases hx
      exact hI.not_fresh hz
    · exact ⟨fun x hx => (by cases hx), hI.same (Same.refl _)⟩
  | fileDup f =>
    simp only [sem] at hs
    split at hs
    · cases hs
    · cases hs
      exact ⟨trivial, hI.dup (by omega)⟩
  | fileDrop f => exact hI.drop hpay hs
  | setOff f off =>
    cases hs
    exact ⟨trivial, hI.seek rfl rfl rfl⟩
  | setInode f ip readable writable =>
    cases hs
    exact ⟨trivial, hI.typeInode hpay⟩
  | setPipe f readable writable =>
    cases hs
    exact ⟨trivial, hI.typePipe hpay⟩
  | fork =>
    obtain ⟨me, hme, hs⟩ := byProc_next hs
    rcases fork_next hs with ⟨q, cwd, hq, hcwd, rfl⟩ | rfl
    · exact ⟨trivial, hI.share h.mask hme hq hcwd⟩
    · exact ⟨trivial, hI.same (Same.refl _)⟩
  | leave =>
    cases hs
    obtain ⟨me, hme, hcwd, hnone⟩ := hpay
    exact ⟨trivial, hI.leave hme hcwd hnone⟩
  | _ => exact ⟨trivial, hI.same (same_of_still hs rfl)⟩

end Balanced

end Micro86.Calls
