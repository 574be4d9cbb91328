import Micro86.Log.Invariant

/-!
# Group commit

Any number of operations start, log blocks and end in any order; the last one out commits
without holding the lock.

* `Grouped` — the invariant that ties each operation to one header: while it runs and until
  the next commit point its blocks are in the in-memory header; from then on they are in the
  header committed next after it began, with contents not older than its `end_op`.
* `reachable_inv` — all invariants, for every run.
* `group_commit` — the main theorem.
-/

namespace Micro86.Log

open Redo

variable {P : Type}
variable {d₀ : Nat → Block} {s t : Sys P} {dev : LogDev} {p : P} {l : List Nat}

def EndedOp.Pending (op : EndedOp) (s : Sys P) : Prop :=
  op.epoch = s.hist.length ∧ ∀ b ∈ op.logged, b ∈ s.lh

/-- The blocks of `op` are all in the header committed next after it, with the contents they
    had at a moment not before its `end_op`. -/
def EndedOp.InHeader (op : EndedOp) (d₀ : Nat → Block) (s : Sys P) : Prop :=
  ∃ r, s.hist[op.epoch]? = some r ∧ op.time ≤ r.time ∧ r.time ≤ s.mods.length ∧
    ∀ b ∈ op.logged, (b, applyWrites (s.mods.take r.time) d₀ b) ∈ r.blocks

structure Grouped (d₀ : Nat → Block) (s : Sys P) : Prop where
  logged : ∀ p l, s.procs p = .inOp l → ∀ b ∈ l, b ∈ s.lh
  time : ∀ op ∈ s.ended, op.time ≤ s.mods.length
  ended : ∀ op ∈ s.ended, op.Pending s ∨ op.InHeader d₀ s
  past : ∀ p tail, s.procs p = .committing (some (.install tail)) →
    ∀ op ∈ s.ended, op.epoch < s.hist.length

theorem EndedOp.mono {op : EndedOp} (hlh : ∀ b ∈ s.lh, b ∈ t.lh)
    (hhist : t.hist = s.hist) (hmods : ∃ ms, t.mods = s.mods ++ ms)
    (h : op.Pending s ∨ op.InHeader d₀ s) : op.Pending t ∨ op.InHeader d₀ t := by
  obtain ⟨ms, hms⟩ := hmods
  rcases h with ⟨he, hl⟩ | ⟨r, hr, h1, h2, h3⟩
  · exact .inl ⟨by rw [hhist]; exact he, fun b hb => hlh b (hl b hb)⟩
  · refine .inr ⟨r, by rw [hhist]; exact hr, h1, by rw [hms, List.length_append]; omega, ?_⟩
    rwa [hms, List.take_append_of_le_length h2]

theorem Grouped.of_mem (h : Grouped d₀ s) (m : Mem) :
    Grouped d₀ { s with mem := m } :=
  ⟨h.logged, h.time, h.ended, h.past⟩

theorem grouped_init (h : s.Init dev) : Grouped d₀ s where
  logged p l hp := by rw [h.procs p] at hp; cases hp
  time op hop := by rw [h.ended] at hop; cases hop
  ended op hop := by rw [h.ended] at hop; cases hop
  past p tail hp := by rw [h.procs p] at hp; cases hp

variable [DecidableEq P]

theorem inOp_of_update {f : P → Proc} {q : P} {x : Proc}
    (h : Function.update f p x q = .inOp l) : x = .inOp l ∨ f q = .inOp l := by
  by_cases hq : q = p
  · subst hq
    exact .inl (by simpa using h)
  · exact .inr (by simpa [Function.update_of_ne hq] using h)

theorem Control.inOp_self (h : Control s) {q : P} {pc : Option CommitPc} {x : Proc}
    (hp : s.procs p = .committing pc) (hx : ∀ l, x ≠ .inOp l)
    (hq : Function.update s.procs p x q = .inOp l) : False := by
  rcases inOp_of_update hq with hx' | hq
  · exact hx l hx'
  · exact h.not_committing hq p pc hp

theorem grouped_end (hc : Control s) (h : Grouped d₀ s)
    (hp : s.procs p = .inOp l) {c : Bool} {next : Proc} (hnext : ∀ l, next ≠ .inOp l)
    (hinst : ∀ tail, next ≠ .committing (some (.install tail))) :
    Grouped d₀ (s.afterEnd p l c next) where
  logged q l' hq b hb := by
    rcases inOp_of_update hq with hx | hq
    · exact (hnext l' hx).elim
    · exact h.logged q l' hq b hb
  time op hop := by
    rcases List.mem_append.mp hop with hop | hop
    · exact h.time op hop
    rw [List.mem_singleton] at hop
    subst hop
    exact Nat.le_refl _
  ended op hop := by
    rcases List.mem_append.mp hop with hop | hop
    · exact EndedOp.mono (fun _ hb => hb) rfl ⟨[], (List.append_nil _).symm⟩ (h.ended op hop)
    rw [List.mem_singleton] at hop
    subst hop
    exact Or.inl ⟨rfl, h.logged p l hp⟩
  past q tail hq := (hinst tail (hc.committing_inOp hp hq)).elim

theorem grouped_step {a : Act P} (hc : Control s)
    (hh : HeaderOk dev s) (hcon : Content dev d₀ s) (h : Grouped d₀ s) (hf : Fires dev s a t) :
    Grouped d₀ t := by
  have hsame : ∃ ms, s.mods = s.mods ++ ms := ⟨[], (List.append_nil _).symm⟩
  cases hf with
  | beginOp p hp hcf _ =>
    refine ⟨fun q l hq b hb => ?_, h.time, h.ended, fun q tail hq => ?_⟩
    · rcases inOp_of_update hq with hx | hq
      · cases hx; cases hb
      · exact h.logged q l hq b hb
    · exact h.past q tail (committing_begin hq)
  | logWrite p b data logged hp _ _ _ _ _ =>
    have hlh : ∀ x ∈ s.lh, x ∈ (s.afterLogWrite p logged b data).lh :=
      fun x hx => mem_absorb.mpr (.inl hx)
    refine ⟨fun q l hq x hx => ?_, fun op hop => ?_, fun op hop => ?_, fun q tail hq => ?_⟩
    · rcases inOp_of_update hq with hl | hq
      · cases hl
        rcases mem_absorb.mp hx with hx | rfl
        · exact hlh x (h.logged p logged hp x hx)
        · exact mem_absorb.mpr (.inr rfl)
      · exact hlh x (h.logged q l hq x hx)
    · have := h.time op hop
      simp only [Sys.afterLogWrite, List.length_append]; omega
    · exact EndedOp.mono hlh rfl ⟨_, rfl⟩ (h.ended op hop)
    · cases hc.committing_inOp hp hq
  | endOpLast p logged hp _ _ =>
    refine grouped_end hc h hp (fun l hl => by cases hl) fun tail hx => ?_
    rcases commitStart_pc hx with ⟨hx, _⟩ | hx <;> cases hx
  | endOpMore p logged hp _ _ =>
    exact grouped_end hc h hp (fun l hl => by cases hl) fun tail hx => by cases hx
  | writeLog p tail home hp _ =>
    refine ⟨fun q l hq => (hc.inOp_self hp (fun l hl => by cases hl) hq).elim,
      h.time, fun op hop => ?_, fun q j hq => ?_⟩
    · exact EndedOp.mono (fun _ => id) rfl hsame (h.ended op hop)
    · cases hc.committing_self hp hq
  | writeHead p tail hp _ =>
    -- the commit point: every pending operation goes into this header
    refine ⟨fun q l hq => (hc.inOp_self hp (fun l hl => by cases hl) hq).elim,
      h.time, fun op hop => ?_, fun q j _ op hop => ?_⟩
    · right
      rcases h.ended op hop with ⟨he, hl⟩ | ⟨r, hr, h1, h2, h3⟩
      · refine ⟨s.header, ?_, h.time op hop, le_rfl, fun b hb => ?_⟩
        · show (s.hist ++ [s.header])[op.epoch]? = some s.header
          rw [he]; simp
        · have hv := hcon.view b (hh.fits.outside b (hl b hb))
          show (b, applyWrites (s.mods.take s.mods.length) d₀ b) ∈ s.lh.map fun b =>
              (b, s.mem.view b)
          rw [List.take_length, ← hv]
          exact List.mem_map.mpr ⟨b, hl b hb, rfl⟩
      refine ⟨r, ?_, h1, h2, h3⟩
      show (s.hist ++ [s.header])[op.epoch]? = some r
      rw [List.getElem?_append_left (List.getElem?_eq_some_iff.mp hr).1]
      exact hr
    · show op.epoch < (s.hist ++ [s.header]).length
      rw [List.length_append, List.length_singleton]
      rcases h.ended op hop with ⟨he, _⟩ | ⟨r, hr, _⟩
      · omega
      · have := (List.getElem?_eq_some_iff.mp hr).1
        omega
  | install p tail home hp _ =>
    refine ⟨fun q l hq => (hc.inOp_self hp (fun l hl => by cases hl) hq).elim,
      h.time, fun op hop => ?_, fun q j _ => h.past p tail hp⟩
    exact EndedOp.mono (fun _ => id) rfl hsame (h.ended op hop)
  | clear p tail hp _ =>
    refine ⟨fun q l hq => (hc.inOp_self hp (fun l hl => by cases hl) hq).elim,
      h.time, fun op hop => ?_, fun q j hq => ?_⟩
    · rcases h.ended op hop with ⟨he, _⟩ | hin
      · have := h.past p tail hp op hop
        omega
      · exact .inr hin
    · cases hc.committing_self hp hq
  | finish p hp =>
    refine ⟨fun q l hq => (hc.inOp_self hp (fun l hl => by cases hl) hq).elim, h.time, h.ended,
      fun q j hq => ?_⟩
    cases hc.committing_self hp hq
  | load b | evict b _ _ | sync b _ _ => exact h.of_mem _
  | syncClean b _ => exact h

/-! ## Every run -/

structure Inv (dev : LogDev) (d₀ : Nat → Block) (s : Sys P) : Prop where
  control : Control s
  header : HeaderOk dev s
  content : Content dev d₀ s
  grouped : Grouped d₀ s

theorem inv_step {a : Act P} (h : Inv dev d₀ s)
    (hs : step dev s a = .next t) : Inv dev d₀ t :=
  have hf := fires_of_step hs
  ⟨control_step h.control hf, headerOk_step h.control h.header hf,
    content_step h.control h.header h.content hf,
    grouped_step h.control h.header h.content h.grouped hf⟩

omit [DecidableEq P] in
theorem inv_init (h : s.Init dev) : Inv dev s.mem.disk s :=
  ⟨control_init h, headerOk_init h, content_init h, grouped_init h⟩

theorem reachable_inv {s₀ : Sys P} {acts : List (Act P)} (h₀ : s₀.Init dev)
    (hrun : Run (Outcome.rel (step dev)) s₀ acts s) : Inv dev s₀.mem.disk s :=
  hrun.invariant (fun _ _ _ => inv_step) (inv_init h₀)

omit [DecidableEq P] in
theorem map_fst_header (s : Sys P) : s.header.blocks.map Prod.fst = s.lh := by
  simp [Sys.header, Function.comp_def]

omit [DecidableEq P] in
theorem Inv.installWrites_eq (h : Inv dev d₀ s)
    {tail : Nat}
    (hp : s.procs p = .committing (some (.install tail))) :
    installWrites dev s.mem.disk s.lh = s.header.blocks :=
  installWrites_eq_map (h.content.committed p tail hp).2

/-- **Group commit.**  In every state reached by any interleaving of any number of processes
    (with `sync()`, cache loads and evictions at any time):
    `commit()` runs only with `log.outstanding = 0`; whoever may call `log_write` does so with
    `log.committing` clear; `end_op` never panics; and for every operation that has ended, all
    its blocks wait in the in-memory header (which is empty once nothing is pending), or all
    of them are in one and the same committed header, with the contents they had at a moment
    not before the operation's `end_op`.  From `write_head` on, the header last committed is the
    one on disk, and its contents are what recovery installs. -/
theorem group_commit {dev : LogDev} {s₀ s : Sys P} {acts : List (Act P)} (h₀ : s₀.Init dev)
    (hrun : Run (Outcome.rel (step dev)) s₀ acts s) :
    (∀ p pc, s.procs p = .committing pc → s.outstanding = 0) ∧
    (∀ p b data, step dev s (.logWrite p b data) ≠ .blocked → s.committing = false) ∧
    (∀ p msg, step dev s (.endOp p) ≠ .panic msg) ∧
    (∀ op ∈ s.ended, op.Pending s ∨ op.InHeader s₀.mem.disk s) ∧
    (s.outstanding = 0 → s.committing = false → s.lh = []) ∧
    (∀ p tail, s.procs p = .committing (some (.install tail)) → ∃ r, s.hist.getLast? = some r ∧
      readHead (s.mem.disk dev.start) = r.blocks.map Prod.fst ∧
      installWrites dev s.mem.disk (r.blocks.map Prod.fst) = r.blocks) := by
  have hinv := reachable_inv h₀ hrun
  have hflag : ∀ p l, s.procs p = .inOp l → s.committing = false := by
    intro p l hp
    cases hcm : s.committing with
    | false => rfl
    | true =>
      have hm := (hinv.control.inOp_iff p).mpr ⟨l, hp⟩
      rw [hinv.control.idle hcm] at hm
      cases hm
  refine ⟨fun p pc hp => ?_, fun p b data hs => ?_, fun p msg hs => ?_,
    hinv.grouped.ended, fun hout hcm => ?_, fun p tail hp => ?_⟩
  · rw [hinv.control.count, (hinv.control.flag p pc hp).2]; rfl
  · cases hp : s.procs p with
    | inOp l => exact hflag p l hp
    | idle | committing pc => simp [step, hp] at hs
  · simp only [step] at hs
    split at hs
    · rename_i l hp
      rw [hflag p l hp] at hs
      simp only [Bool.false_eq_true, if_false] at hs
      split at hs <;> cases hs
    · cases hs
  · refine hinv.header.quiet ?_ hcm
    have := hinv.control.count
    exact List.eq_nil_of_length_eq_zero (by omega)
  · refine ⟨s.header, hinv.content.last p tail hp, ?_, ?_⟩
    · rw [map_fst_header, (hinv.content.committed p tail hp).1]
    · rw [map_fst_header, hinv.installWrites_eq hp]

/-- An operation that logs one block, up to the commit point. -/
theorem group_commit_one_op :
    ∃ s : Sys Unit, Outcome.exec (step ⟨2, 30, by decide⟩) (Sys.boot fun _ => .zero)
      [.beginOp (), .logWrite () 50 (fun _ => 1), .endOp (),
        .commitStep (), .commitStep ()] = some s ∧
    s.outstanding = 0 ∧ ∃ r, s.hist.getLast? = some r ∧
      readHead (s.mem.disk 2) = r.blocks.map Prod.fst := by
  obtain ⟨s, hs, hp⟩ :
      ∃ s : Sys Unit, Outcome.exec (step ⟨2, 30, by decide⟩) (Sys.boot fun _ => .zero)
      [.beginOp (), .logWrite () 50 (fun _ => 1), .endOp (),
        .commitStep (), .commitStep ()] = some s ∧
      s.procs () = .committing (some (.install 0)) := ⟨_, rfl, rfl⟩
  have hboot : (Sys.boot fun _ => .zero : Sys Unit).Init ⟨2, 30, by decide⟩ :=
    Sys.boot_init (readHead_of_n_zero (ByteBlock.u32_zero 0))
  obtain ⟨hout, _, _, _, _, hlast⟩ := group_commit hboot (Outcome.run_of_exec hs)
  obtain ⟨r, hr, hhead, _⟩ := hlast () 0 hp
  exact ⟨s, hs, hout () _ hp, r, hr, hhead⟩

end Micro86.Log
