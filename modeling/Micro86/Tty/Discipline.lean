import Micro86.Lib.Transition
import Micro86.Tty.Input

/-!
# The line discipline over runs

Characters arrive and any number of processes call `ttyread`; the flags change at any time.  One
step is one character, or one section of a call up to its return or to `sleep`.

* `line_discipline` — the counters stay in order and every step has its effect.
* `interrupted_read_iff` — when a call that returns `-EINTR` has taken no byte.
-/

namespace Micro86.Tty

open Function

structure State where
  ring : Input
  mode : Mode
  reader : Nat → Reader

def start (count : UInt32) (buf : Nat → UInt8) (m : Mode) : State :=
  ⟨⟨buf, count, count, count⟩, m, fun _ => .idle⟩

inductive Act where
  | key (c : Nat)
  | setFlags (m : Mode)
  -- process `id` calls `ttyread` for `n` bytes
  | read (id : Nat) (n : Int) (sig : Bool)
  -- `sleep` returns in process `id`
  | resume (id : Nat) (sig : Bool)

def ttyread (s : State) (id : Nat) (sig : Bool) (target n : Nat) (got : List UInt8) : State :=
  let (ring, reader) := s.ring.readLoop sig target n got
  { s with ring := ring, reader := update s.reader id reader }

def step (s : State) : Act → Outcome State
  | .key c => .next { s with ring := s.ring.key s.mode c }
  | .setFlags m => .next { s with mode := m }
  | .read id n sig =>
    match s.reader id with
    | .asleep _ _ _ => .blocked
    | _ => .next (ttyread s id sig n.toNat n.toNat [])
  | .resume id sig =>
    match s.reader id with
    | .asleep target n got => .next (ttyread s id sig target n got)
    | _ => .blocked

/-- What a call has read: as many bytes as it counts, `^D` never, and a newline only at the end of a
    call. -/
def Reader.Ok : Reader → Prop
  | .asleep target n got => got.length + n = target ∧ ∀ c ∈ got, c ≠ 0x04 ∧ c ≠ 0x0A
  | .returned ret got => ret = got.length ∧ (∀ c ∈ got, c ≠ 0x04) ∧ ∀ c ∈ got.dropLast, c ≠ 0x0A
  | _ => True

structure KeyEffect (m : Mode) (c : Nat) (l l' : Line) : Prop where
  signal : isSignal c → m.isig = true → l' = ⟨[], []⟩
  append : ¬ (isSignal c ∧ m.isig = true) → l.committed <+: l'.committed
  edit : c = ctrl 'U' ∨ (m.icanon = true ∧ (c = ctrl 'H' ∨ c = 0x7F)) →
    l'.committed = l.committed ∧ l'.pending <+: l.pending

structure ReadEffect (s t : State) (id target n : Nat) (got : List UInt8) : Prop where
  pending : t.ring.line.pending = s.ring.line.pending
  reads : Reads target n got s.ring.line.committed t.ring.line.committed (t.reader id)
  others : ∀ j, j ≠ id → t.reader j = s.reader j

def Effect (s t : State) : Act → Prop
  | .key c => t.ring.line = s.ring.line.key s.mode c ∧ KeyEffect s.mode c s.ring.line t.ring.line ∧
        t.reader = s.reader
  | .setFlags _ => t.ring.line = s.ring.line ∧ t.reader = s.reader
  | .read id n _ => ReadEffect s t id n.toNat n.toNat []
  | .resume id _ => ∃ target n got, s.reader id = .asleep target n got ∧
        ReadEffect s t id target n got

structure Inv (s : State) : Prop where
  ring : s.ring.Ok
  reader : ∀ id, (s.reader id).Ok

section

variable {m : Mode} {l l' : Line} {s t : State}

theorem finish_append (last : Bool) : l.committed <+: (l.finish last).committed := by
  unfold Line.finish
  split
  · exact List.prefix_append _ _
  · exact List.prefix_rfl

theorem foldl_type_committed (bs : List UInt8) :
    (bs.foldl Line.type l).committed = l.committed := by
  induction bs generalizing l with
  | nil => rfl
  | cons b bs ih => exact ih

theorem foldl_guarded_committed (bs : List UInt8) :
    (bs.foldl (fun l b => if l.length < INPUT_BUF then l.type b else l) l).committed =
    l.committed := by
  induction bs generalizing l with
  | nil => rfl
  | cons b bs ih =>
    rw [List.foldl_cons, ih]
    split <;> rfl

theorem normalchar_append (c : Nat) : l.committed <+: (l.normalchar m c).committed := by
  unfold Line.normalchar
  split
  · exact finish_append (l := l.type _) _
  · exact List.prefix_rfl

theorem key_append (c : Nat) (hc : ¬ (isSignal c ∧ m.isig = true)) :
    l.committed <+: (l.key m c).committed := by
  unfold Line.key
  split
  · have happend := finish_append (l :=
        (arrowSeq c).foldl (fun l b => if l.length < INPUT_BUF then l.type b else l) l) (!m.icanon)
    rwa [foldl_guarded_committed] at happend
  split
  · exact List.prefix_rfl
  split
  · rename_i hsignal
    rw [if_neg (fun hm => hc ⟨hsignal, hm⟩)]
  split
  · split
    · exact List.prefix_rfl
    · exact normalchar_append c
  split
  · split
    · have happend := finish_append (l := (List.replicate 8 0x20).foldl Line.type l) false
      rwa [foldl_type_committed] at happend
    · exact List.prefix_rfl
  · exact normalchar_append c

theorem keyEffect (c : Nat) : KeyEffect m c l (l.key m c) where
  signal hsignal hm := by
    have hc : ¬ (0xE100 ≤ c ∧ c ≤ 0xE103) ∧ c ≠ ctrl 'U' := by
      obtain rfl | rfl | rfl := hsignal <;> decide
    unfold Line.key
    rw [if_neg hc.1, if_neg hc.2, if_pos hsignal, if_pos hm]
  append := key_append c
  edit hc := by
    obtain rfl | ⟨hm, hc⟩ := hc
    · exact ⟨rfl, List.rdropWhile_prefix _ _⟩
    have hcases : ¬ (0xE100 ≤ c ∧ c ≤ 0xE103) ∧ c ≠ ctrl 'U' ∧ ¬ isSignal c := by
      obtain rfl | rfl := hc <;> decide
    unfold Line.key
    rw [if_neg hcases.1, if_neg hcases.2.1, if_neg hcases.2.2, if_pos hc, if_pos hm]
    exact ⟨rfl, List.dropLast_prefix _⟩

theorem Reads.ok {target n : Nat} {got front rest : List UInt8}
    {rd : Reader} (h : Reads target n got front rest rd)
    (hgot : got.length + n = target) (hplain : ∀ c ∈ got, c ≠ 0x04 ∧ c ≠ 0x0A) : rd.Ok := by
  have hboth : ∀ took : List UInt8, (∀ c ∈ took, c ≠ 0x04 ∧ c ≠ 0x0A) →
      ∀ c ∈ got ++ took, c ≠ 0x04 ∧ c ≠ 0x0A :=
    fun took htook c hc => (List.mem_append.mp hc).elim (hplain c) (htook c)
  cases h with
  | all took plain len split =>
    refine ⟨by
      rw [List.length_append, len, hgot], fun c hc => (hboth took plain c hc).1, fun c hc => ?_⟩
    exact (hboth took plain c (List.mem_of_mem_dropLast hc)).2
  | newline took plain len split =>
    refine ⟨?_, fun c hc => ?_, fun c hc => ?_⟩
    · simp only [List.length_append, List.length_singleton]
      omega
    · obtain hc | hc := List.mem_append.mp hc
      · exact (hboth took plain c hc).1
      · rw [List.mem_singleton.mp hc]
        decide
    · rw [List.dropLast_concat] at hc
      exact (hboth took plain c hc).2
  | stop took plain len after split mark =>
    refine ⟨?_, fun c hc => (hboth took plain c hc).1,
      fun c hc => (hboth took plain c (List.mem_of_mem_dropLast hc)).2⟩
    rw [List.length_append]
    omega
  | eof first pos split =>
    exact ⟨by
      omega, fun c hc => (hplain c hc).1, fun c hc => (hplain c (List.mem_of_mem_dropLast hc)).2⟩
  | sleep took plain len split empty =>
    refine ⟨?_, hboth took plain⟩
    rw [List.length_append]
    omega
  | interrupted plain len empty => trivial

theorem ttyread_spec {id target n : Nat} {sig : Bool} {got : List UInt8}
    (h : Inv s) (hgot : got.length + n = target) (hplain : ∀ c ∈ got, c ≠ 0x04 ∧ c ≠ 0x0A) :
    Inv (ttyread s id sig target n got) ∧
      ReadEffect s (ttyread s id sig target n got) id target n got := by
  obtain ⟨rest, ⟨hok, hline⟩, hreads⟩ := Input.readLoop_refines h.ring sig target n got (by omega)
  unfold ttyread
  generalize Input.readLoop sig target n s.ring got = result at hok hline hreads
  refine ⟨⟨hok, fun j => ?_⟩, ⟨by rw [hline], ?_, fun j hj => update_of_ne hj _ _⟩⟩
  · by_cases hj : j = id
    · rw [hj]
      simp only [update_self]
      exact hreads.ok hgot hplain
    · simp only [update_of_ne hj]
      exact h.reader j
  · simp only [update_self, hline]
    exact hreads

theorem step_spec {a : Act} (h : Inv s) (hstep : step s a = .next t) : Inv t ∧ Effect s t a := by
  cases a with
  | key c =>
    cases hstep
    obtain ⟨hok, hline⟩ := Input.key_refines h.ring c
    refine ⟨⟨hok, h.reader⟩, hline, ?_, rfl⟩
    rw [hline]
    exact keyEffect c
  | setFlags m =>
    cases hstep
    exact ⟨⟨h.ring, h.reader⟩, rfl, rfl⟩
  | read id n sig =>
    unfold step at hstep
    dsimp only at hstep
    split at hstep
    · cases hstep
    · cases hstep
      exact ttyread_spec h (Nat.zero_add _) (fun c hc => nomatch hc)
  | resume id sig =>
    unfold step at hstep
    dsimp only at hstep
    split at hstep
    · rename_i target n got hreader
      cases hstep
      have hasleep := h.reader id
      rw [hreader] at hasleep
      obtain ⟨hgot, hplain⟩ := hasleep
      exact ⟨(ttyread_spec h hgot hplain).1, target, n, got,
        hreader, (ttyread_spec h hgot hplain).2⟩
    · cases hstep

theorem start_inv (count : UInt32) (buf : Nat → UInt8) (m : Mode) : Inv (start count buf m) := by
  have hzero : (count - count).toNat = 0 := by rw [UInt32.sub_self]; rfl
  refine ⟨⟨le_rfl, ?_⟩, fun _ => trivial⟩
  simp only [start, hzero]
  exact Nat.zero_le _

end

/-- **The input ring refines the line discipline.**  In every state of every run the counters are in
    order; a character appends to the bytes that can be read, discards everything as a signal, or
    edits the line; a call of `ttyread` takes its bytes from the front, up to its length, a newline
    or `^D`. -/
theorem line_discipline {count : UInt32} {buf : Nat → UInt8} {m : Mode} {as : List Act} {s : State}
    (h : Run (Outcome.rel step) (start count buf m) as s) :
    s.ring.Ok ∧ (∀ id, (s.reader id).Ok) ∧ ∀ a t, step s a = .next t → Effect s t a := by
  have hinv :
      Inv s := h.invariant (fun s a t hs hstep => (step_spec hs hstep).1) (start_inv count buf m)
  exact ⟨hinv.ring, hinv.reader, fun a t hstep => (step_spec hinv hstep).2⟩

/-- A line typed while the counters wrap, and read. -/
theorem line_discipline_wraps :
    ∃ s, s.reader 1 = .returned 2 [0x61, 0x0A] ∧ s.ring.Ok ∧
      (∀ id, (s.reader id).Ok) ∧ ∀ a t, step s a = .next t → Effect s t a := by
  obtain ⟨s, hrun, hs⟩ := Outcome.exists_run step (start 0xFFFFFFFF (fun _ => 0) ⟨true, true⟩)
    [.key 0x61, .key 0x0A, .read 1 5 false]
      (fun s => s.reader 1 = .returned 2 [0x61, 0x0A]) (by decide)
  exact ⟨s, hs, line_discipline hrun⟩

/-! ## Interrupted calls -/

/-- The call a section belongs to: the process, the bytes to go, those taken before, and whether a
    signal is pending. -/
def Act.call (s : State) : Act → Option (Nat × Nat × List UInt8 × Bool)
  | .read id n sig => some (id, n.toNat, [], sig)
  | .resume id sig =>
    match s.reader id with
    | .asleep _ n got => some (id, n, got, sig)
    | _ => none
  | _ => none

/-- A call that returns `-EINTR` has taken nothing, and one that returns a count has stored as many
    bytes as it took, but for `^D`. -/
def LosesNothing (prior front rest : List UInt8) : Reader → Prop
  | .interrupted => prior = [] ∧ rest = front
  | .returned ret got => ret = got.length ∧
        (prior ++ front = got ++ rest ∨ prior ++ front = got ++ 0x04 :: rest)
  | _ => True

/-- With a signal pending, a call that has taken bytes, or finds some, also finds those that end
    it. -/
def EndsInTime (n : Nat) (prior front : List UInt8) (sig : Bool) : Prop :=
  sig = true → (∀ c ∈ front, c ≠ 0x04 ∧ c ≠ 0x0A) → front.length < n → prior = [] ∧ front = []

section

variable {s t : State} {target n id : Nat} {got front rest : List UInt8} {rd : Reader} {sig : Bool}

theorem readLoop_sig {t : Input} :
    (∀ target' n' got', (t.readLoop sig target n got).2 = .asleep target' n' got' → sig = false) ∧
    ((t.readLoop sig target n got).2 = .interrupted → sig = true) := by
  induction n generalizing t got with
  | zero => exact ⟨fun _ _ _ h => (by cases h), fun h => by cases h⟩
  | succ n ih =>
    unfold Input.readLoop
    split
    · cases sig with
      | true => exact ⟨fun _ _ _ h => (by cases h), fun _ => rfl⟩
      | false => exact ⟨fun _ _ _ _ => rfl, fun h => by cases h⟩
    dsimp only
    split
    · exact ⟨fun _ _ _ h => (by cases h), fun h => by cases h⟩
    split
    · exact ⟨fun _ _ _ h => (by cases h), fun h => by cases h⟩
    · exact ih

theorem Reads.losesNothing_iff (h : Reads target n got front rest rd) (hgot : rd.Ok)
    (hsig : (∀ target' n' got', rd = .asleep target' n' got' → sig = false) ∧
      (rd = .interrupted → sig = true)) :
    LosesNothing got front rest rd ↔ EndsInTime n got front sig := by
  cases h with
  | all took plain len split =>
    refine iff_of_true ⟨hgot.1, .inl (by rw [split, List.append_assoc])⟩ fun _ _ hlt => ?_
    rw [split, List.length_append] at hlt
    omega
  | newline took plain len split =>
    refine iff_of_true ⟨hgot.1, .inl (by rw [split]; simp)⟩ fun _ hplain _ => ?_
    exact absurd rfl (hplain 0x0A (by rw [split]; simp)).2
  | stop took plain len after split mark =>
    refine iff_of_true ⟨hgot.1, .inl (by rw [split, List.append_assoc])⟩ fun _ hplain _ => ?_
    exact absurd rfl
      (hplain 0x04 (by rw [split]; exact List.mem_append_right _ (List.mem_of_mem_head? mark))).1
  | eof first pos split =>
    refine iff_of_true ⟨hgot.1, .inr (by rw [split])⟩ fun _ hplain _ => ?_
    exact absurd rfl (hplain 0x04 (by rw [split]; exact .head _)).1
  | sleep took plain len split empty =>
    refine iff_of_true trivial fun htrue => ?_
    rw [hsig.1 _ _ _ rfl] at htrue
    cases htrue
  | interrupted plain len empty =>
    refine ⟨fun hl _ _ _ => ⟨hl.1, ?_⟩, fun hl => ?_⟩
    · rw [← hl.2, empty]
    · obtain ⟨hprior, hfront⟩ := hl (hsig.2 rfl) plain len
      exact ⟨hprior, by rw [empty, hfront]⟩

theorem Inv.losesNothing_iff (h : Inv s) (hgot : got.length + n = target)
    (hplain : ∀ c ∈ got, c ≠ 0x04 ∧ c ≠ 0x0A) :
    LosesNothing got s.ring.line.committed (ttyread s id sig target n got).ring.line.committed
      ((ttyread s id sig target n got).reader id) ↔ EndsInTime n got s.ring.line.committed sig := by
  obtain ⟨hnext, heffect⟩ : Inv (ttyread s id sig target n got) ∧
      ReadEffect s (ttyread s id sig target n got) id target n got :=
    ttyread_spec h hgot hplain
  have hreader : (ttyread s id sig target n got).reader id = (s.ring.readLoop sig target n got).2 :=
    update_self ..
  refine heffect.reads.losesNothing_iff (hnext.reader id) ?_
  rw [hreader]
  exact readLoop_sig

end

/-- **An interrupted read.**  In every state of every run, a section of a call loses no input if and
    only if it ends in time. -/
theorem interrupted_read_iff {count : UInt32} {buf : Nat → UInt8}
    {m : Mode} {as : List Act} {s t : State} {a : Act} {id n : Nat}
    {prior : List UInt8} {sig : Bool} (h : Run (Outcome.rel step) (start count buf m) as s)
    (hcall : a.call s = some (id, n, prior, sig))
    (hstep : step s a = .next t) :
    LosesNothing prior s.ring.line.committed t.ring.line.committed (t.reader id) ↔
      EndsInTime n prior s.ring.line.committed sig := by
  have hinv :
      Inv s := h.invariant (fun s a t hs hstep => (step_spec hs hstep).1) (start_inv count buf m)
  cases a with
  | key c | setFlags m => cases hcall
  | read id n sig =>
    cases hcall
    simp only [step] at hstep
    split at hstep
    · cases hstep
    · cases hstep
      exact hinv.losesNothing_iff (Nat.zero_add _) nofun
  | resume id sig =>
    simp only [step, Act.call] at hstep hcall
    split at hstep
    · rename_i target n got hreader
      rw [hreader] at hcall
      cases hcall
      cases hstep
      have hasleep := hinv.reader id
      rw [hreader] at hasleep
      exact hinv.losesNothing_iff hasleep.1 hasleep.2
    · cases hstep

/-- A line is there when the signal arrives. -/
theorem interrupted_read_line : ∃ s t : State, Act.call s (.read 1 5 true) = some (1, 5, [], true) ∧
    step s (.read 1 5 true) = .next t ∧
    LosesNothing [] s.ring.line.committed t.ring.line.committed (t.reader 1) := by
  have hrun : Run (Outcome.rel step) (start 0 (fun _ => 0) ⟨true, true⟩) [.key 0x61, .key 0x0A] _ :=
    .cons rfl (.cons rfl (.nil _))
  refine ⟨_, _, rfl, rfl,
    (interrupted_read_iff (a := .read 1 5 true) hrun rfl rfl).mpr fun _ hplain _ => ?_⟩
  exact absurd rfl (hplain 0x0A (by decide)).2

/-- Without `ICANON`, a process reads a byte and sleeps for more; the signal that wakes it loses the
    byte. -/
theorem interrupted_read_loses :
    ∃ s t : State,
      Run (Outcome.rel step) (start 0 (fun _ => 0) ⟨false, true⟩) [.key 0x61, .read 1 5 false] s ∧
      Act.call s (.resume 1 true) = some (1, 4, [0x61], true) ∧
        step s (.resume 1 true) = .next t ∧ t.reader 1 = .interrupted ∧
      ¬ LosesNothing [0x61] s.ring.line.committed t.ring.line.committed (t.reader 1) := by
  refine ⟨_, _, .cons rfl (.cons rfl (.nil _)), rfl, rfl, rfl, fun h => ?_⟩
  cases h.1

end Micro86.Tty
