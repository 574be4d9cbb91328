import Micro86.Log.GroupCommit

/-!
# Log space

`begin_op` reserves `MAXOPBLOCKS` header entries per operation against `LOGSIZE`, while
`log_write` panics from `log.size - 1` entries on, before it looks whether the block is already
in the header.  With the layout of mkfs `log.size` is `LOGSIZE`, so the two tests disagree by
two: three operations within their budgets reach the panic
(`reservation_too_big_a_transaction`).

* `reserve` — the entries in use plus those the running operations may still add.
* `reservation_sufficient` — the panic is unreachable when every `begin_op` leaves
  `reserve` below `log.size - 1`.
-/

namespace Micro86.Log

open Function

variable {P : Type}

def Proc.logged : Proc → List Nat
  | .inOp l => l
  | _ => []

@[simp] theorem Proc.logged_inOp (l : List Nat) : (Proc.inOp l).logged = l := rfl

/-- The operation stays within the `MAXOPBLOCKS` distinct blocks that `begin_op` reserves. -/
def Budget (s : Sys P) : Act P → Prop
  | .logWrite p b _ => (absorb (s.procs p).logged b).length ≤ MAXOPBLOCKS
  | _ => True

instance (s : Sys P) : (a : Act P) → Decidable (Budget s a)
  | .logWrite p b _ =>
      inferInstanceAs (Decidable ((absorb (s.procs p).logged b).length ≤ MAXOPBLOCKS))
  | .beginOp _ | .endOp _ | .commitStep _ | .load _ | .evict _ | .syncIter _ => .isTrue trivial

def Sys.unused (s : Sys P) : Nat :=
  (s.running.map fun p => MAXOPBLOCKS - (s.procs p).logged.length).sum

def Sys.reserve (s : Sys P) : Nat := s.lh.length + s.unused

/-- An operation is admitted only when the header cannot reach `log.size - 1` entries. -/
def RoomyBegin (dev : LogDev) (s : Sys P) : Act P → Prop
  | .beginOp _ => s.reserve + MAXOPBLOCKS < dev.size - 1
  | _ => True

instance (dev : LogDev) (s : Sys P) : (a : Act P) → Decidable (RoomyBegin dev s a)
  | .beginOp _ => inferInstanceAs (Decidable (s.reserve + MAXOPBLOCKS < dev.size - 1))
  | .logWrite .. | .endOp _ | .commitStep _ | .load _ | .evict _ | .syncIter _ => .isTrue trivial

theorem Sys.unused_of_idle {s : Sys P} (h : s.running = []) : s.unused = 0 := by
  simp [Sys.unused, h]

theorem reserve_commit {s t : Sys P} (hc : Control s) {p : P} {pc : Option CommitPc}
    (hp : s.procs p = .committing pc)
    (hrun : t.running = s.running) (hlh : t.lh.length ≤ s.lh.length) : t.reserve ≤ s.reserve := by
  have hidle := (hc.flag p pc hp).2
  rw [Sys.reserve, Sys.reserve, Sys.unused_of_idle hidle, Sys.unused_of_idle (hrun.trans hidle)]
  omega

variable [DecidableEq P]

section

variable {dev : LogDev} {d₀ : Nat → Block} {s t : Sys P}

theorem unused_split {p : P} (hp : p ∈ s.running) :
    s.unused = (MAXOPBLOCKS - (s.procs p).logged.length) +
      ((s.running.erase p).map fun q => MAXOPBLOCKS - (s.procs q).logged.length).sum :=
  (List.sum_map_erase _ hp).symm

section

variable (hc : Control s)
include hc

theorem unused_erase_update (p : P) (x : Proc) :
    ((s.running.erase p).map fun q => MAXOPBLOCKS - (update s.procs p x q).logged.length).sum =
      ((s.running.erase p).map fun q => MAXOPBLOCKS - (s.procs q).logged.length).sum := by
  congr 1
  refine List.map_congr_left fun q hq => ?_
  have hne : q ≠ p := by
    rintro rfl
    exact hc.nodup.not_mem_erase hq
  rw [update_of_ne hne]

/-- An entry added to the header is one of the `MAXOPBLOCKS` of the operation that adds it. -/
theorem reserve_logWrite (hg : Grouped d₀ s) {p : P} {l : List Nat} {b : Nat}
    {data : Block} (hp : s.procs p = .inOp l) (hbud : (absorb l b).length ≤ MAXOPBLOCKS) :
    (s.afterLogWrite p l b data).reserve ≤ s.reserve := by
  have hmem : p ∈ s.running := (hc.inOp_iff p).mpr ⟨l, hp⟩
  have hs := unused_split hmem
  have ht := unused_split (s := s.afterLogWrite p l b data) hmem
  simp only [Sys.afterLogWrite, unused_erase_update hc, update_self, Proc.logged_inOp] at ht
  simp only [hp, Proc.logged_inOp] at hs
  have hlen : (absorb s.lh b).length + l.length ≤ s.lh.length + (absorb l b).length := by
    by_cases hb : b ∈ s.lh
    · have : l.length ≤ (absorb l b).length := by unfold absorb; split <;> simp
      simp only [absorb, if_pos hb] at this ⊢
      omega
    have hbl : b ∉ l := fun hm => hb (hg.logged p l hp b hm)
    simp only [absorb, if_neg hb, if_neg hbl, List.length_append]
    omega
  show (absorb s.lh b).length + (s.afterLogWrite p l b data).unused ≤ s.lh.length + s.unused
  simp only [Sys.afterLogWrite]
  omega

theorem reserve_end {p : P} {l : List Nat} {c : Bool} {x : Proc}
    (hp : s.procs p = .inOp l) : (s.afterEnd p l c x).reserve ≤ s.reserve := by
  have hs := unused_split ((hc.inOp_iff p).mpr ⟨l, hp⟩)
  have ht : (s.afterEnd p l c x).unused =
      ((s.running.erase p).map fun q => MAXOPBLOCKS - (s.procs q).logged.length).sum :=
    unused_erase_update hc p x
  show s.lh.length + (s.afterEnd p l c x).unused ≤ s.lh.length + s.unused
  omega

theorem reserve_begin {p : P} (hp : s.procs p = .idle) :
    (s.afterBegin p).reserve = s.reserve + MAXOPBLOCKS := by
  have hout : p ∉ s.running := by
    intro hm
    obtain ⟨l, hl⟩ := (hc.inOp_iff p).mp hm
    rw [hp] at hl; cases hl
  have hrest := unused_erase_update hc p (.inOp [])
  rw [List.erase_of_not_mem hout] at hrest
  have hsum : (s.afterBegin p).unused = MAXOPBLOCKS + s.unused := by
    simp only [Sys.unused, Sys.afterBegin, List.map_cons, List.sum_cons, update_self,
      Proc.logged_inOp, List.length_nil, Nat.sub_zero, hrest]
  show s.lh.length + (s.afterBegin p).unused = s.lh.length + s.unused + MAXOPBLOCKS
  omega

theorem reserve_step {a : Act P} (hg : Grouped d₀ s) (hbud : Budget s a)
    (hf : Fires dev s a t) : t.reserve ≤ s.reserve ∨
      (∃ p, a = .beginOp p) ∧ t.reserve = s.reserve + MAXOPBLOCKS := by
  cases hf with
  | beginOp p hp _ _ => exact .inr ⟨⟨p, rfl⟩, reserve_begin hc hp⟩
  | logWrite p b data logged hp _ _ _ _ _ =>
    simp only [Budget, hp] at hbud
    exact .inl (reserve_logWrite hc hg hp hbud)
  | endOpLast p logged hp _ _ | endOpMore p logged hp _ _ => exact .inl (reserve_end hc hp)
  | writeLog p tail home hp _ | writeHead p tail hp _ | install p tail home hp _
      | finish p hp => exact .inl (reserve_commit hc hp rfl le_rfl)
  | clear p tail hp _ => exact .inl (reserve_commit hc hp rfl (Nat.zero_le _))
  | load b | evict b _ _ | sync b data _ | syncClean b _ => exact .inl le_rfl

end

/-- **Log space suffices when `begin_op` leaves room for `log_write`'s own test.**  On a log of
    `LOGSIZE` blocks, in every run of operations within their budgets in which each `begin_op`
    is taken with the reservation below `log.size - 1`, no `log_write` within the budget
    panics, of a new block or of one already in the header. -/
theorem reservation_sufficient {s₀ : Sys P} {acts : List (Act P)} (hsize : dev.size = LOGSIZE)
    (h₀ : s₀.Init dev)
    (hrun : Run (fun s a t => Budget s a ∧ RoomyBegin dev s a ∧ step dev s a = .next t) s₀ acts s) :
    ∀ p b data, Budget s (.logWrite p b data) →
      step dev s (.logWrite p b data) ≠ .panic "too big a transaction" := by
  have hL := LOGSIZE_eq
  have hboth : Inv dev s₀.mem.disk s ∧ s.reserve < dev.size - 1 := by
    refine Run.invariant (I := fun r => Inv dev s₀.mem.disk r ∧ r.reserve < dev.size - 1)
      (fun r a u hr hs => ⟨inv_step hr.1 hs.2.2, ?_⟩) hrun ⟨inv_init h₀, ?_⟩
    · obtain ⟨hbud, hroom, hstep⟩ := hs
      rcases reserve_step hr.1.control hr.1.grouped hbud (fires_of_step hstep)
        with hle | ⟨⟨p, rfl⟩, heq⟩
      · exact hle.trans_lt hr.2
      · rw [heq]
        exact hroom
    · rw [Sys.reserve, Sys.unused_of_idle h₀.running, h₀.lh, List.length_nil]
      omega
  have hlen : s.lh.length < dev.size - 1 := (Nat.le_add_right _ _).trans_lt hboth.2
  intro p b data _ hpanic
  simp only [step] at hpanic
  split at hpanic
  · split at hpanic
    · cases hpanic
    split at hpanic
    · omega
    split at hpanic
    · exact absurd (Outcome.panic.inj hpanic) (by decide)
    · cases hpanic
  · cases hpanic

/-- Two operations at once keep within the room. -/
theorem reservation_sufficient_two_ops :
    ∃ s : Sys (Fin 2), Run (fun s a t => Budget s a ∧ RoomyBegin ⟨2, 30, by decide⟩ s a ∧
        step ⟨2, 30, by decide⟩ s a = .next t)
      (Sys.boot fun _ => .zero) [.beginOp 0, .beginOp 1, .logWrite 0 50 .zero] s ∧
    step ⟨2, 30, by decide⟩ s (.logWrite 1 50 .zero) ≠ .panic "too big a transaction" := by
  have hrun : ∃ s : Sys (Fin 2), Run (fun s a t => Budget s a ∧ RoomyBegin ⟨2, 30, by decide⟩ s a ∧
      step ⟨2, 30, by decide⟩ s a = .next t)
      (Sys.boot fun _ => .zero) [.beginOp 0, .beginOp 1, .logWrite 0 50 .zero] s ∧
      s.procs 1 = .inOp [] := by
    refine ⟨_,
      .cons ⟨trivial, ?_, rfl⟩ (.cons ⟨trivial, ?_, rfl⟩ (.cons ⟨?_, trivial, rfl⟩ (.nil _))), rfl⟩
    all_goals decide
  obtain ⟨s, hs, hp⟩ := hrun
  have hboot : (Sys.boot fun _ => .zero : Sys (Fin 2)).Init ⟨2, 30, by decide⟩ :=
    Sys.boot_init (readHead_of_n_zero (ByteBlock.u32_zero 0))
  refine ⟨s, hs, reservation_sufficient rfl hboot hs 1 50 .zero ?_⟩
  simp only [Budget, hp]
  decide

end

def budgetStep (dev : LogDev) (s : Sys P) (a : Act P) : Outcome (Sys P) :=
  if Budget s a then step dev s a else .blocked

/-- Three operations are admitted; the first two log ten blocks each and the third nine. -/
def fullLog : List (Act (Fin 3)) :=
  [.beginOp 0, .beginOp 1, .beginOp 2] ++
    ((List.range 10).map fun i => .logWrite 0 (100 + i) .zero) ++
    ((List.range 10).map fun i => .logWrite 1 (110 + i) .zero) ++
    (List.range 9).map fun i => .logWrite 2 (120 + i) .zero

/-- **The reservation falls short**: the third operation's tenth block is within its budget and
    panics, and so does logging again a block that is in the header. -/
theorem reservation_too_big_a_transaction :
    ∃ s : Sys (Fin 3),
      Outcome.exec (budgetStep ⟨2, LOGSIZE, by decide⟩) (Sys.boot fun _ => .zero) fullLog = some s ∧
    budgetStep ⟨2, LOGSIZE, by decide⟩ s (.logWrite 2 129 .zero) = .panic "too big a transaction" ∧
    128 ∈ s.lh ∧
    budgetStep ⟨2, LOGSIZE, by decide⟩ s (.logWrite 2 128 .zero) = .panic "too big a transaction" :=
  ⟨_, rfl, rfl, by decide, rfl⟩

end Micro86.Log
