import Micro86.Lib.Ring
import Micro86.Lib.Transition

/-!
# Pipes

A pipe is a ring of 512 bytes with two 32-bit counters that are never reset.  A call of `pipewrite`
or `piperead` runs with the lock of the pipe held up to its return or to the `sleep` that gives the
lock back; one such section is one step of the model.  Any number of processes take turns.

* `Sys` — the pipe, where each process stands, and the history of bytes.
* `pipe_fifo` — what was read is the beginning of what was written, for any total number of bytes,
  and a call that has returned has written everything.
-/

namespace Micro86.Ipc

open Function

def PIPESIZE : UInt32 := 512

structure Pipe where
  data : Nat → UInt8
  nread : UInt32
  nwrite : UInt32
  readopen : Bool
  writeopen : Bool

def Pipe.full (p : Pipe) : Prop := p.nwrite = p.nread + PIPESIZE

def Pipe.empty (p : Pipe) : Prop := p.nread = p.nwrite

instance (p : Pipe) : Decidable p.full := inferInstanceAs (Decidable (_ = _))

instance (p : Pipe) : Decidable p.empty := inferInstanceAs (Decidable (_ = _))

def Pipe.push (p : Pipe) (b : UInt8) : Pipe :=
  { p with data := update p.data (p.nwrite % PIPESIZE).toNat b, nwrite := p.nwrite + 1 }

def Pipe.next (p : Pipe) : UInt8 := p.data (p.nread % PIPESIZE).toNat

def Pipe.pop (p : Pipe) : Pipe := { p with nread := p.nread + 1 }

inductive WriteEnd where
  | returned
  | failed
  | sleeping (rest : List UInt8)
  deriving DecidableEq

structure Written where
  ending : WriteEnd
  stored : List UInt8
  pipe : Pipe

def pipewrite (killed : Bool) : List UInt8 → Pipe → Written
  | [], p => ⟨.returned, [], p⟩
  | b :: rest, p =>
    if p.full then
      if p.readopen = false ∨ killed = true then ⟨.failed, [], p⟩
        else ⟨.sleeping (b :: rest), [], p⟩
    else
      let r := pipewrite killed rest (p.push b)
      ⟨r.ending, b :: r.stored, r.pipe⟩

def copyOut : Nat → Pipe → List UInt8 × Pipe
  | 0, p => ([], p)
  | n + 1, p => if p.empty then ([], p) else (p.next :: (copyOut n p.pop).1, (copyOut n p.pop).2)

inductive ReadEnd where
  | returned (bytes : List UInt8)
  | failed
  | sleeping
  deriving DecidableEq

def piperead (killed : Bool) (n : Int) (p : Pipe) : ReadEnd × Pipe :=
  if p.empty ∧ p.writeopen = true then
    if killed = true then (.failed, p) else (.sleeping, p)
  else (.returned (copyOut n.toNat p).1, (copyOut n.toNat p).2)

inductive Chan where
  | nread
  | nwrite
  deriving DecidableEq

inductive Position where
  | away
  | writing (rest : List UInt8)
  | reading (n : Int)
  deriving DecidableEq

def Position.chan : Position → Option Chan
  | away => none
  | writing _ => some .nwrite
  | reading _ => some .nread

variable {P : Type} [DecidableEq P]
variable {p : Pipe}

/-- A call of `pipewrite`: its bytes, those stored so far, and what it has returned. -/
structure WriteCall where
  bytes : List UInt8
  stored : List UInt8
  result : Option Int
  deriving DecidableEq

variable {calls : List WriteCall}

/-- The pipe and its processes.  `stored`, `returned` and `calls` are the history: every byte put in
the ring with its writer, every byte given to a reader, and for each process its calls of
`pipewrite`, the last one first. -/
structure Sys (P : Type) where
  pipe : Pipe
  pos : P → Position
  asleep : P → Bool
  killed : P → Bool
  stored : List (P × UInt8)
  returned : List UInt8
  calls : P → List WriteCall

def WriteEnd.result (n : Nat) : WriteEnd → Option Int
  | returned => some n
  | failed => some (-1)
  | sleeping _ => none

namespace Sys

def wakeup (chan : Chan) (s : Sys P) : Sys P :=
  { s with asleep := fun q => s.asleep q && !decide ((s.pos q).chan = some chan) }

def moveTo (s : Sys P) (i : P) (x : Position) : Sys P := { s with pos := update s.pos i x }

def sleep (s : Sys P) (i : P) : Sys P := { s with asleep := update s.asleep i true }

@[simp] theorem moveTo_pos_self (s : Sys P) (i : P) (x : Position) :
    (s.moveTo i x).pos i = x := update_self ..

theorem moveTo_pos_ne (s : Sys P) {i j : P} (x : Position) (h : j ≠ i) :
    (s.moveTo i x).pos j = s.pos j :=
  update_of_ne h ..

theorem sleep_asleep_ne (s : Sys P) {i j : P} (h : j ≠ i) : (s.sleep i).asleep j = s.asleep j :=
  update_of_ne h ..

def record (r : Written) : List WriteCall → List WriteCall
  | [] => []
  | ⟨bytes, stored, _⟩ :: calls =>
      ⟨bytes, stored ++ r.stored, r.ending.result bytes.length⟩ :: calls

def store (s : Sys P) (i : P) (r : Written) : Sys P :=
  { s with
    pipe := r.pipe
    stored := s.stored ++ r.stored.map (fun b => (i, b))
    calls := update s.calls i (record r (s.calls i)) }

def turn (s : Sys P) (i : P) : Sys P :=
  match s.pos i with
  | .away => s
  | .writing rest =>
    let r := pipewrite (s.killed i) rest s.pipe
    match r.ending with
    | .returned => ((s.store i r).wakeup .nread).moveTo i .away
    | .failed => (s.store i r).moveTo i .away
    | .sleeping rest' => (((s.store i r).wakeup .nread).moveTo i (.writing rest')).sleep i
  | .reading n =>
    match piperead (s.killed i) n s.pipe with
    | (.returned bytes, p) =>
        (({ s with pipe := p, returned := s.returned ++ bytes }).wakeup .nwrite).moveTo i .away
    | (.failed, _) => s.moveTo i .away
    | (.sleeping, _) => s.sleep i

def pipeclose (s : Sys P) (writable : Bool) : Sys P :=
  if writable then ({ s with pipe := { s.pipe with writeopen := false } }).wakeup .nread
  else ({ s with pipe := { s.pipe with readopen := false } }).wakeup .nwrite

end Sys

inductive Act (P : Type) where
  | write (i : P) (bytes : List UInt8)
  | read (i : P) (n : Int)
  | resume (i : P)
  | close (writable : Bool)
  | kill (i : P)
  | signal (i : P)

/-- A call is made through an open descriptor, and the end a process is using stays open:
`pipeclose` is called when the last descriptor of that end goes away. -/
def Sys.Enabled (s : Sys P) : Act P → Prop
  | .write i _ => s.pos i = .away ∧ s.pipe.writeopen = true
  | .read i _ => s.pos i = .away ∧ s.pipe.readopen = true
  | .resume i => s.asleep i = false
  | .close true => s.pipe.writeopen = true ∧ ∀ i, (s.pos i).chan ≠ some .nwrite
  | .close false => s.pipe.readopen = true ∧ ∀ i, (s.pos i).chan ≠ some .nread
  | .kill _ => True
  | .signal _ => True

instance [Fintype P] (s : Sys P) (a : Act P) : Decidable (s.Enabled a) := by
  unfold Sys.Enabled
  split <;> infer_instance

def Sys.act (s : Sys P) : Act P → Sys P
  | .write i bytes =>
    ({ s with calls := update s.calls i (⟨bytes, [], none⟩ :: s.calls i) }.moveTo i
      (.writing bytes)).turn i
  | .read i n => (s.moveTo i (.reading n)).turn i
  | .resume i => s.turn i
  | .close writable => s.pipeclose writable
  | .kill i => { s with killed := update s.killed i true }
  | .signal i => { s with asleep := update s.asleep i false }

def Next (s : Sys P) (a : Act P) (t : Sys P) : Prop := s.Enabled a ∧ t = s.act a

/-- A pipe as `pipealloc` makes it, in a page with any contents. -/
structure Sys.Fresh (s : Sys P) : Prop where
  nread : s.pipe.nread = 0
  nwrite : s.pipe.nwrite = 0
  readopen : s.pipe.readopen = true
  writeopen : s.pipe.writeopen = true
  away : ∀ i, s.pos i = .away
  awake : ∀ i, s.asleep i = false
  stored : s.stored = []
  returned : s.returned = []
  calls : ∀ i, s.calls i = []

/-! ## The ring and the history -/

/-- The pipe holds what was put in `l` and not yet taken out to `out`. -/
structure Fifo (p : Pipe) (l out : List UInt8) : Prop where
  ring : Ring 512 p.data l out.length
  nread : p.nread.toNat = out.length % 2 ^ 32
  nwrite : p.nwrite.toNat = l.length % 2 ^ 32
  beginning : out <+: l

namespace Fifo

variable {p : Pipe} {l out : List UInt8}

theorem full_iff (h : Fifo p l out) : p.full ↔ l.length = out.length + 512 := by
  rw [← h.ring.full_iff (m := 2 ^ 32) (by decide)]
  have hsum : (p.nread + PIPESIZE).toNat = (out.length + 512) % 2 ^ 32 := by
    rw [UInt32.toNat_add, h.nread, Nat.mod_add_mod]
    rfl
  rw [Pipe.full, ← UInt32.toNat_inj, h.nwrite, hsum]

theorem empty_iff (h : Fifo p l out) : p.empty ↔ out.length = l.length := by
  rw [← h.ring.empty_iff (m := 2 ^ 32) (by decide), Pipe.empty,
    ← UInt32.toNat_inj, h.nread, h.nwrite]

theorem empty_eq (h : Fifo p l out) (he : p.empty) :
    out = l := h.beginning.eq_of_length (h.empty_iff.mp he)

/-- The counters index the ring as the lengths do, since 512 divides `2^32`. -/
theorem index {x : UInt32} {k : Nat} (h : x.toNat = k % 2 ^ 32) :
    (x % PIPESIZE).toNat = k % 512 := by
  rw [UInt32.toNat_mod, h]
  exact Nat.mod_mod_of_dvd k (by decide)

theorem succ {x : UInt32} {k : Nat} (h : x.toNat = k % 2 ^ 32) :
    (x + 1).toNat = (k + 1) % 2 ^ 32 := by
  rw [UInt32.toNat_add, h, Nat.mod_add_mod]
  rfl

variable (h : Fifo p l out)
include h

theorem push (hf : ¬ p.full) (b : UInt8) : Fifo (p.push b) (l ++ [b]) out := by
  have hroom : l.length < out.length + 512 :=
    Nat.lt_of_le_of_ne h.ring.fits (fun he => hf (h.full_iff.mpr he))
  refine ⟨?_, h.nread, ?_, h.beginning.trans (List.prefix_append _ _)⟩
  · simp only [Pipe.push, index h.nwrite]
    exact h.ring.put hroom
  · rw [List.length_append]
    exact succ h.nwrite

theorem pop (he : ¬ p.empty) : Fifo p.pop l (out ++ [p.next]) := by
  have hmore : out.length < l.length :=
    Nat.lt_of_le_of_ne h.ring.le (fun hl => he (h.empty_iff.mpr hl))
  obtain ⟨hcell, hring⟩ := h.ring.take hmore
  have hnext : l[out.length]? = some p.next := by rw [hcell, Pipe.next, index h.nread]
  refine ⟨?_, ?_, h.nwrite, ?_⟩
  · rw [List.length_append]
    exact hring
  · rw [List.length_append]
    exact succ h.nread
  · obtain ⟨rest, rfl⟩ := h.beginning
    cases rest with
    | nil => simp at hmore
    | cons b rest =>
      rw [List.getElem?_append_right le_rfl, Nat.sub_self] at hnext
      cases hnext
      exact ⟨rest, by rw [List.append_assoc, List.singleton_append]⟩

theorem count : (p.nwrite - p.nread).toNat = l.length - out.length := by
  have hle := h.ring.le
  have hfits := h.ring.fits
  rw [UInt32.toNat_sub, h.nwrite, h.nread]
  omega

end Fifo

/-! ## Sections -/

theorem pipewrite_fifo {killed : Bool} {rest : List UInt8} {l out : List UInt8} (h : Fifo p l out) :
    Fifo (pipewrite killed rest p).pipe (l ++ (pipewrite killed rest p).stored) out := by
  induction rest generalizing p l with
  | nil =>
    rw [pipewrite, List.append_nil]
    exact h
  | cons b rest ih =>
    unfold pipewrite
    split
    · split
      · rw [List.append_nil]
        exact h
      · rw [List.append_nil]
        exact h
    rename_i hf
    have := ih (h.push hf b)
    rwa [List.append_assoc] at this

def WriteEnd.Leaves (e : WriteEnd) (rest : List UInt8) : Prop :=
  match e with
  | .returned => rest = []
  | .failed => True
  | .sleeping rest' => rest = rest'

theorem pipewrite_split (killed : Bool) (rest : List UInt8) (p : Pipe) :
    ∃ left, rest = (pipewrite killed rest p).stored ++ left ∧
      (pipewrite killed rest p).ending.Leaves left := by
  induction rest generalizing p with
  | nil => exact ⟨[], rfl, rfl⟩
  | cons b rest ih =>
    unfold pipewrite
    split
    · split
      · exact ⟨b :: rest, rfl, trivial⟩
      · exact ⟨b :: rest, rfl, rfl⟩
    · obtain ⟨left, hrest, hleft⟩ := ih (p.push b)
      exact ⟨left, by rw [List.cons_append, ← hrest], hleft⟩

theorem copyOut_fifo {n : Nat} {l out : List UInt8} (h : Fifo p l out) :
    Fifo (copyOut n p).2 l (out ++ (copyOut n p).1) := by
  induction n generalizing p out with
  | zero =>
    rw [copyOut, List.append_nil]
    exact h
  | succ n ih =>
    unfold copyOut
    split
    · rw [List.append_nil]
      exact h
    rename_i he
    have := ih (h.pop he)
    rwa [List.append_assoc] at this

theorem piperead_nothing {killed : Bool} {n : Int} (hn : 0 < n)
    (h : (piperead killed n p).1 = .returned []) : p.empty ∧ p.writeopen = false := by
  unfold piperead at h
  split at h
  · split at h <;> cases h
  rename_i hwait
  have he : p.empty := by
    by_contra hne
    obtain ⟨k, hk⟩ : ∃ k, n.toNat = k + 1 := ⟨n.toNat - 1, by omega⟩
    rw [hk, copyOut, if_neg hne] at h
    cases h
  exact ⟨he, by simpa [he] using hwait⟩

/-! ## Runs -/

def bytesOf (i : P) (stored : List (P × UInt8)) : List UInt8 :=
  (stored.filter (fun x => x.1 = i)).map Prod.snd

/-- The calls of one process: each stored a first part of its bytes, and all of them if it returned
and did not fail; what is left of the last one is what the process still has in hand. -/
structure CallsOk (x : Position) (stored : List UInt8) (calls : List WriteCall) : Prop where
  each : ∀ call ∈ calls, call.stored <+: call.bytes
  whole : ∀ call ∈ calls, ∀ n, call.result = some n → n ≠ -1 →
    n = call.bytes.length ∧ call.stored = call.bytes
  inOrder : stored = (calls.reverse.map WriteCall.stored).flatten
  last : ∀ rest, x = .writing rest → ∃ done cs, calls = ⟨done ++ rest, done, none⟩ :: cs

structure Inv (s : Sys P) : Prop where
  fifo : Fifo s.pipe (s.stored.map Prod.snd) s.returned
  calls : ∀ i, CallsOk (s.pos i) (bytesOf i s.stored) (s.calls i)

theorem Sys.Fresh.inv {s : Sys P} (h : s.Fresh) : Inv s := by
  refine ⟨⟨⟨?_, ?_, ?_⟩, ?_, ?_, ?_⟩, fun i => ⟨?_, ?_, ?_, ?_⟩⟩
  · rw [h.returned]
    exact Nat.zero_le _
  · rw [h.stored]
    exact Nat.zero_le _
  · intro k _ hk
    rw [h.stored] at hk
    cases hk
  · rw [h.nread, h.returned]
    rfl
  · rw [h.nwrite, h.stored]
    rfl
  · rw [h.returned]
    exact List.nil_prefix
  · intro call hc
    rw [h.calls i] at hc
    cases hc
  · intro call hc
    rw [h.calls i] at hc
    cases hc
  · rw [h.stored, h.calls i]
    rfl
  · intro rest hx
    rw [h.away i] at hx
    cases hx

theorem CallsOk.moved {x y : Position} {stored : List UInt8}
    (h : CallsOk x stored calls) (hy : ∀ rest, y ≠ .writing rest) : CallsOk y stored calls :=
  ⟨h.each, h.whole, h.inOrder, fun rest hr => absurd hr (hy rest)⟩

def WriteEnd.position : WriteEnd → Position
  | returned | failed => .away
  | sleeping rest => .writing rest

theorem CallsOk.record {stored left : List UInt8} {r : Written}
    (h : CallsOk (.writing (r.stored ++ left)) stored calls) (hleft : r.ending.Leaves left) :
    CallsOk r.ending.position (stored ++ r.stored) (Sys.record r calls) := by
  obtain ⟨done, cs, rfl⟩ := h.last _ rfl
  refine ⟨?_, ?_, ?_, ?_⟩
  · intro call hc
    rcases List.mem_cons.mp hc with rfl | hc
    · exact ⟨left, by rw [List.append_assoc]⟩
    · exact h.each call (.tail _ hc)
  · intro call hc n hn hne
    rcases List.mem_cons.mp hc with rfl | hc
    · cases he : r.ending with
      | returned =>
        rw [he] at hn hleft
        cases hn
        cases hleft
        exact ⟨rfl, by rw [List.append_nil]⟩
      | failed =>
        rw [he] at hn
        cases hn
        exact absurd rfl hne
      | sleeping rest =>
        rw [he] at hn
        cases hn
    · exact h.whole call (.tail _ hc) n hn hne
  · rw [h.inOrder]
    simp [Sys.record]
  · intro rest hr
    cases he : r.ending with
    | returned | failed =>
      rw [he] at hr
      cases hr
    | sleeping rest' =>
      rw [he] at hr hleft
      cases hr
      cases hleft
      exact ⟨done ++ r.stored, cs, by rw [Sys.record, he, List.append_assoc]; rfl⟩

theorem bytesOf_append (i j : P) (stored : List (P × UInt8)) (bytes : List UInt8) :
    bytesOf i (stored ++ bytes.map (fun b => (j, b))) = if j = i then bytesOf i stored ++ bytes
      else bytesOf i stored := by
  unfold bytesOf
  rw [List.filter_append, List.map_append, List.filter_map]
  split
  · rename_i hij
    simp [hij]
  · rename_i hij
    simp [hij]

namespace Inv

variable {s : Sys P} {i : P}

variable (h : Inv s)
include h

theorem of_eq {t : Sys P} (hf : Fifo t.pipe (s.stored.map Prod.snd) s.returned)
    (hs : t.stored = s.stored)
    (hr : t.returned = s.returned) (hc : t.calls = s.calls) (hp : t.pos = s.pos) : Inv t := by
  refine ⟨?_, fun j => ?_⟩
  · rw [hs, hr]
    exact hf
  · rw [hs, hc, hp]
    exact h.calls j

theorem moveTo {x : Position} (hx : ∀ rest, x ≠ .writing rest) : Inv (s.moveTo i x) := by
  refine ⟨h.fifo, fun j => ?_⟩
  simp only [Sys.moveTo]
  exact update_cases j ((h.calls i).moved hx) fun _ => h.calls j

theorem store {rest left : List UInt8} {r : Written} (hpos : s.pos i = .writing rest)
    (hf : Fifo r.pipe (s.stored.map Prod.snd ++ r.stored) s.returned)
    (hrest : rest = r.stored ++ left) (hleft : r.ending.Leaves left) :
    Inv ((s.store i r).moveTo i r.ending.position) := by
  refine ⟨?_, fun j => ?_⟩
  · simpa [Sys.moveTo, Sys.store] using hf
  · simp only [Sys.moveTo, Sys.store]
    rw [bytesOf_append]
    by_cases hj : j = i
    · subst hj
      rw [if_pos rfl, update_self, update_self]
      have := h.calls j
      rw [hpos, hrest] at this
      exact this.record hleft
    · rw [if_neg (Ne.symm hj), update_of_ne hj, update_of_ne hj]
      exact h.calls j

theorem turn (i : P) : Inv (s.turn i) := by
  unfold Sys.turn
  split
  · exact h
  · rename_i rest hpos
    obtain ⟨left, hrest, hleft⟩ := pipewrite_split (s.killed i) rest s.pipe
    have hstore := h.store hpos (pipewrite_fifo h.fifo) hrest hleft
    dsimp only
    split
    · rename_i he
      rw [he] at hstore
      exact hstore.of_eq hstore.fifo rfl rfl rfl rfl
    · rename_i he
      rw [he] at hstore
      exact hstore
    · rename_i he
      rw [he] at hstore
      exact hstore.of_eq hstore.fifo rfl rfl rfl rfl
  · split
    · rename_i bytes p hread
      have haway := h.moveTo (i := i) (x := .away) (fun _ => by simp)
      refine ⟨?_, haway.calls⟩
      unfold piperead at hread
      split at hread
      · split at hread <;> cases hread
      · cases hread
        exact copyOut_fifo h.fifo
    · exact h.moveTo (fun _ => by simp)
    · exact h.of_eq h.fifo rfl rfl rfl rfl

theorem enter (i : P) (bytes : List UInt8) :
    Inv ({ s with calls := update s.calls i (⟨bytes, [], none⟩ :: s.calls i) }.moveTo i
      (.writing bytes)) := by
  refine ⟨h.fifo, fun j => ?_⟩
  simp only [Sys.moveTo]
  by_cases hj : j = i
  · subst hj
    rw [update_self, update_self]
    refine ⟨?_, ?_, ?_, ?_⟩
    · intro call hc
      rcases List.mem_cons.mp hc with rfl | hc
      · exact List.nil_prefix
      · exact (h.calls j).each call hc
    · intro call hc n hn
      rcases List.mem_cons.mp hc with rfl | hc
      · cases hn
      · exact (h.calls j).whole call hc n hn
    · rw [(h.calls j).inOrder]
      simp
    · intro rest hr
      cases hr
      exact ⟨[], s.calls j, rfl⟩
  · rw [update_of_ne hj, update_of_ne hj]
    exact h.calls j

theorem pipeclose (writable : Bool) : Inv (s.pipeclose writable) := by
  unfold Sys.pipeclose
  split
  · exact h.of_eq ⟨h.fifo.ring, h.fifo.nread, h.fifo.nwrite, h.fifo.beginning⟩ rfl rfl rfl rfl
  · exact h.of_eq ⟨h.fifo.ring, h.fifo.nread, h.fifo.nwrite, h.fifo.beginning⟩ rfl rfl rfl rfl

theorem step {a : Act P} {t : Sys P} (hn : Next s a t) : Inv t := by
  obtain ⟨-, rfl⟩ := hn
  cases a with
  | write i bytes => exact (h.enter i bytes).turn i
  | read i n => exact (h.moveTo (fun _ => by simp)).turn i
  | resume i => exact h.turn i
  | close writable => exact h.pipeclose writable
  | kill i | signal i => exact h.of_eq h.fifo rfl rfl rfl rfl

end Inv

/-- **Pipes are first-in first-out.**  In every state of every run, for any number of processes and
of bytes: the counters are at most `PIPESIZE` apart, the bytes read are the beginning of the bytes
stored, the bytes of each writer are stored in the order of its calls and within each call in their
order, a call of `pipewrite` that has returned other than `-1` has returned the number of its bytes
and stored them all, and a call of `piperead` that asks for bytes returns none only if every byte
stored was read and the write end is closed. -/
theorem pipe_fifo {s t : Sys P} {acts : List (Act P)} (hs : s.Fresh) (h : Run Next s acts t) :
    (t.pipe.nwrite - t.pipe.nread).toNat ≤ 512 ∧ t.returned <+: t.stored.map Prod.snd ∧
      (∀ i, bytesOf i t.stored = ((t.calls i).reverse.map WriteCall.stored).flatten ∧
        ∀ call ∈ t.calls i, call.stored <+: call.bytes ∧
          ∀ n, call.result = some n → n ≠ -1 → n = call.bytes.length ∧ call.stored = call.bytes) ∧
      ∀ (killed : Bool) (n : Int), 0 < n → (piperead killed n t.pipe).1 = .returned [] →
        t.returned = t.stored.map Prod.snd ∧ t.pipe.writeopen = false := by
  have hinv : Inv t := h.invariant (fun _ _ _ hi hn => Inv.step hi hn) hs.inv
  have hcount := hinv.fifo.count
  have hfits := hinv.fifo.ring.fits
  refine ⟨by omega, hinv.fifo.beginning, fun i => ⟨(hinv.calls i).inOrder, fun call hc => ?_⟩, ?_⟩
  · exact ⟨(hinv.calls i).each call hc, (hinv.calls i).whole call hc⟩
  intro killed n hn hret
  obtain ⟨he, hw⟩ := piperead_nothing hn hret
  exact ⟨hinv.fifo.empty_eq he, hw⟩

def newPipe : Sys Bool where
  pipe := ⟨fun _ => 0, 0, 0, true, true⟩
  pos := fun _ => .away
  asleep := fun _ => false
  killed := fun _ => false
  stored := []
  returned := []
  calls := fun _ => []

theorem newPipe_fresh : newPipe.Fresh :=
  ⟨rfl, rfl, rfl, rfl, fun _ => rfl, fun _ => rfl, rfl, rfl, fun _ => rfl⟩

/-- A reader sleeps on the empty pipe, is woken by a writer and gets two of its three bytes; the
call of the writer has returned 3. -/
theorem pipe_fifo_two_bytes :
    ∃ t, Run Next newPipe [.read false 2, .write true [7, 8, 9], .resume false] t ∧
      t.returned = [7, 8] ∧ t.returned <+: t.stored.map Prod.snd ∧
      ∃ call ∈ t.calls true, call.result = some 3 ∧ call.stored = call.bytes := by
  obtain ⟨t, hrun, hread, hcall⟩ :
      ∃ t, Run Next newPipe [.read false 2, .write true [7, 8, 9], .resume false] t ∧
      t.returned = [7, 8] ∧ ⟨[7, 8, 9], [7, 8, 9], some 3⟩ ∈ t.calls true :=
    ⟨_, .cons ⟨by decide +kernel, rfl⟩
      (.cons ⟨by decide +kernel, rfl⟩ (.cons ⟨by decide +kernel, rfl⟩ (.nil _))),
      by decide +kernel, by decide +kernel⟩
  obtain ⟨-, hbeginning, hcalls, -⟩ := pipe_fifo newPipe_fresh hrun
  exact ⟨t, hrun, hread, hbeginning, _, hcall, rfl,
    (((hcalls true).2 _ hcall).2 3 rfl (by decide)).2⟩

end Micro86.Ipc
