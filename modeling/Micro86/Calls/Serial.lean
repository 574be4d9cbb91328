import Micro86.Calls.References
import Micro86.Lib.Serial

/-!
# Calls one after the other

A sequence of system calls, each run to its end before the next one starts.

* `Covers` — every reference in the tables is counted.  It holds after every call if it holds before
  (`turn_covers`), and along the call no reference to an unused entry of the inode cache is
  duplicated.
-/

namespace Micro86.Calls

open Prog Function
open Fs (Inode Ptr Dirent)

/-- What an action of a process can answer and leave, where `ok` allows it. -/
def Acts (ok : State → Op → Prop) (p : Pid) (s : State) (o : Op) (r : Ans o) (t : State) : Prop :=
  ok s o ∧ ∃ h, sem p h s o = .next (r, t)

/-- A call of a process, from its start to its end. -/
def Turn (n : Nat) (ok : Call → State → Op → Prop) (s : State)
    (e : Pid × Call) (t : State) : Prop :=
  ready e.1 s = true ∧ ∃ r, Runs (Acts (ok e.2) e.1) (e.2.prog n) s r t

/-- Every reference in the tables is counted; references that calls have lost are counted too. -/
structure Covers (s : State) : Prop where
  refs : ∀ ip, s.cwds ip + s.opens ip ≤ (s.icache ip).ref
  files : ∀ f, (s.file f).ref = s.slots f
  free : ∀ f, (s.file f).ref = 0 → (s.file f).type = .none

/-- A reference is duplicated only where there is one. -/
def Op.backed (s : State) : Op → Prop
  | .idup ip => 0 < (s.icache ip).ref
  | _ => True

/-! ## The counts -/

section Counts

variable {s : State} {p : Pid} {v : Account} {lost : Ptr → Int}

def only (p : Pid) (v : Account) : Pid → Account := update (fun _ => Account.zero) p v

theorem sum_only (p : Pid) (v : Account) (ip : Ptr) : ∑ q, (only p v q).refs ip = v.refs ip := by
  have h := sum_update (Finset.mem_univ p) (fun _ : Pid => Account.zero) v fun a => a.refs ip
  have hz : ∑ _q : Pid, Account.zero.refs ip = 0 := Finset.sum_eq_zero fun _ _ => rfl
  have h0 : Account.zero.refs ip = 0 := rfl
  dsimp only [only] at h ⊢
  omega

theorem sum_only_files (p : Pid) (v : Account) (f : Fid) :
    ∑ q, (only p v q).files f = v.files f := by
  have h := sum_update (Finset.mem_univ p) (fun _ : Pid => Account.zero) v fun a => a.files f
  have hz : ∑ _q : Pid, Account.zero.files f = 0 := Finset.sum_eq_zero fun _ _ => rfl
  have h0 : Account.zero.files f = 0 := rfl
  dsimp only [only] at h ⊢
  omega

theorem only_after (w : Account) : update (only p v) p w = only p w := update_idem ..

theorem Covers.balanced (hs : Covers s) {me : Proc} (hme : s.proc p = some me) :
    Balanced (fun ip => (s.icache ip).ref - (s.cwds ip + s.opens ip))
      s (only p (Account.zero.setMe (some me))) := by
  have hz : ∀ q f, (only p (Account.zero.setMe (some me)) q).files f = 0 ∧
      (only p (Account.zero.setMe (some me)) q).fresh f = false := by
    intro q f
    unfold only
    exact update_cases q ⟨rfl, rfl⟩ fun _ => ⟨rfl, rfl⟩
  refine ⟨fun ip => ?_, fun f => ?_, fun q f => ?_, fun q f hf => ?_,
    fun q r f hf => ?_, hs.free, fun q me' hq => ?_⟩
  · rw [sum_only]
    show _ = _ + (0 : Int)
    omega
  · rw [sum_only_files, hs.files f]
    show _ = _ + (0 : Int)
    omega
  · rw [(hz q f).1, add_zero]
    exact heldBy_nonneg _ f
  · rw [(hz q f).2] at hf
    cases hf
  · rw [(hz q f).2] at hf
    cases hf
  · unfold only at hq
    by_cases hqp : q = p
    · subst hqp
      rw [update_self] at hq
      cases hq
      exact hme
    · rw [update_of_ne hqp] at hq
      cases hq

theorem opens_nonneg (ip : Ptr) : 0 ≤ s.opens ip := Finset.sum_nonneg fun f _ => by
  unfold File.on
  split <;> decide

theorem cwds_pos {me : Proc} {ip : Ptr} (hme : s.proc p = some me) (hcwd : me.cwd = some ip) :
    1 ≤ s.cwds ip := by
  have hnonneg : ∀ q : Pid, 0 ≤ one (cwdOf (s.proc q)) ip := fun q => by
    unfold one
    split <;> decide
  have hle : one (cwdOf (s.proc p)) ip ≤ s.cwds ip :=
    Finset.single_le_sum (fun q _ => hnonneg q) (Finset.mem_univ p)
  rwa [hme, show cwdOf (some me) = some ip from hcwd, one_self] at hle

theorem Balanced.backed (hI : Balanced lost s (only p v)) (hlost : ∀ ip, 0 ≤ lost ip)
    {o : Op} (hpay : o.payable v) : o.backed s := by
  cases o with
  | idup ip =>
    obtain ⟨hcwd, hsound⟩ := hpay
    obtain ⟨me, hme, hip⟩ := Option.bind_eq_some_iff.mp hcwd
    have hproc : s.proc p = some me := hI.me p me (by rw [only, update_self]; exact hme)
    have hrefs := hI.refs ip
    rw [sum_only] at hrefs
    have h1 := cwds_pos hproc hip
    have h2 := opens_nonneg (s := s) ip
    have h3 := hlost ip
    have h4 := hsound ip
    show 0 < (s.icache ip).ref
    omega
  | _ => trivial

theorem Balanced.covers (hI : Balanced lost s (only p v)) (hlost : ∀ ip, 0 ≤ lost ip)
    (hv : v.Covered) : Covers s where
  refs ip := by
    have hrefs := hI.refs ip
    rw [sum_only] at hrefs
    have h1 := hlost ip
    have h2 := hv.1 ip
    omega
  files f := by
    have hfiles := hI.files f
    rw [sum_only_files, hv.2.1, Pi.zero_apply, add_zero] at hfiles
    exact hfiles
  free := hI.free

end Counts

/-- **A call keeps the counts**, and duplicates only references that are counted. -/
theorem turn_covers {n : Nat} {ok : Call → State → Op → Prop} {s t : State} {p : Pid} {c : Call}
    (hc : ∀ depth, c ≠ .getcwd depth) (hs : Covers s) (ht : Turn n ok s (p, c) t) :
    Covers t ∧ Turn n (fun c s o => o.backed s ∧ ok c s o) s (p, c) t := by
  obtain ⟨hready, r, hr⟩ := ht
  obtain ⟨me, hme⟩ := Option.isSome_iff_exists.mp hready
  have hlost : ∀ ip, 0 ≤ (s.icache ip).ref - (s.cwds ip + s.opens ip) := fun ip => by
    have := hs.refs ip
    omega
  have hclimb : ∀ o r, NoClimb c o r := by
    intro o r
    cases o with
    | dirFind =>
      rintro ⟨depth, hd⟩
      exact absurd hd (hc depth)
    | _ => trivial
  obtain ⟨hr', g, hg, hI⟩ := hr.accounted
    (I := fun u v => Balanced (fun ip => (s.icache ip).ref - (s.cwds ip + s.opens ip)) u (only p v))
    (T := Acts (fun u o => o.backed u ∧ ok c u o) p)
    (fun u v o r w hI hneeds hstep => by
      obtain ⟨hok, h, hsem⟩ := hstep
      have hv : only p v p = v := update_self ..
      obtain ⟨hanswers, hI'⟩ := hI.go (by rw [hv]; exact hneeds) hsem
      rw [hv] at hanswers hI'
      rw [only_after] at hI'
      exact ⟨⟨⟨hI.backed hlost hneeds, hok⟩, h, hsem⟩, ⟨hclimb o r, hanswers⟩, hI'⟩)
    (closes_prog n c me) (hs.balanced hme)
  exact ⟨hI.covers hlost hg.1, hready, r, hr'⟩

theorem exists_turn (n : Nat) (ok : Call → State → Op → Prop)
    (p : Pid) (c : Call) (hok : ∀ s o, ok c s o) (k : Nat) (s : State)
    (Q : State → Prop) [DecidablePred Q] (hready : ready p s = true)
    (h : (Prog.exec (sem p) (c.prog n) (List.replicate k noHint) s).any (fun x => Q x.2) = true) :
    ∃ t, Turn n ok s (p, c) t ∧ Q t := by
  cases hx : Prog.exec (sem p) (c.prog n) (List.replicate k noHint) s with
  | none =>
    rw [hx] at h
    cases h
  | some x =>
    rw [hx] at h
    refine ⟨x.2, ⟨hready, x.1, (runs_of_exec hx).mono fun s o r t hs => ⟨hok s o, hs⟩⟩,
      by simpa using h⟩

end Micro86.Calls
