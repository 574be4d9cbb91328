import Micro86.Lib.Links
import Micro86.Lib.Transition
import Micro86.Param

/-!
# The disk request queue

`ide_dirty_write` appends a locked buffer to a linked list and sleeps; `ide_interrupt` takes the
head off, which is the command the disk has just finished, and starts the next one.  Sections with
`idelock` held are single steps, and so is the end of a command in the disk itself, after which it
raises its interrupt.

* `Sys`, `step` — the driver, the disk and the buffers.  A buffer that is in no call may be changed
  by whoever holds it.
* `Queue` — the list of pending buffers behind the links, and what the disk is doing.
* `requests_served` — requests are started one at a time, in order, and each is served by what the
  requests before it left on the disk.
-/

namespace Micro86.Ide

open Function

abbrev BufId := Fin NBUF

/-- The fields of `struct buf` the driver uses; `valid` and `dirty` are the flags. -/
structure Buf where
  dev : Nat
  blockno : Nat
  valid : Bool
  dirty : Bool
  data : Block

def Buf.drive (b : Buf) : Bool := b.dev % 2 = 1

/-- What is sent to the disk: the data to write, or a read command. -/
structure Command where
  drive : Bool
  blockno : Nat
  write : Option Block

/-- The disk is idle, works on a command, or has finished one and raised its interrupt; what was
read is then in its buffer. -/
inductive Device where
  | idle
  | busy (cmd : Command)
  | ready (cmd : Command) (data : Block)

/-- A buffer as it was when it was queued. -/
structure Request where
  buf : BufId
  was : Buf

abbrev Disk := Bool → Nat → Block

/-- `link none` is `idequeue`, `link (some b)` is `b->qnext`.  `queued`, `started`, `completed` and
`overlap` are the history: every request in order, every command with the buffer it was started
from, every completion with the buffer it left, and whether a command was ever sent to a disk still
at work. -/
structure Sys where
  bufs : BufId → Buf
  link : Option BufId → Option BufId
  inCall : BufId → Bool
  asleep : BufId → Bool
  device : Device
  disk : Disk
  havedisk1 : Bool
  queued : List Request
  started : List Request
  completed : List (Request × Buf)
  overlap : Bool

def command (b : Buf) : Command := ⟨b.drive, b.blockno, if b.dirty then some b.data else none⟩

def ideStart (s : Sys) (b : BufId) : Outcome Sys :=
  if (s.bufs b).blockno ≥ FSSIZE then .panic "fatal ide error: incorrect number of blocks"
  else .next { s with
    device := .busy (command (s.bufs b))
    started := s.started ++ [⟨b, s.bufs b⟩]
    overlap := s.overlap || (match s.device with | .idle => false | _ => true) }

/-- The flags `ide_dirty_write` waits for. -/
def Buf.finished (b : Buf) : Bool := b.valid && !b.dirty

def Sys.enqueue (s : Sys) (b : BufId) : Sys :=
  let link := update s.link (some b) none
  { s with
    link := update link (lastPlace link NBUF none) (some b)
    inCall := update s.inCall b true
    asleep := update s.asleep b true
    queued := s.queued ++ [⟨b, s.bufs b⟩] }

def ideDirtyWrite (s : Sys) (b : BufId) : Outcome Sys :=
  if s.inCall b then .blocked
  else if (s.bufs b).finished then .panic "iderw: nothing to do"
  else if (s.bufs b).dev ≠ 0 ∧ s.havedisk1 = false then .panic "iderw: ide disk 1 not present"
  else if (s.enqueue b).link none = some b then ideStart (s.enqueue b) b
  else .next (s.enqueue b)

def resume (s : Sys) (b : BufId) : Outcome Sys :=
  if s.inCall b = false ∨ s.asleep b = true then .blocked
  else if (s.bufs b).finished then .next { s with inCall := update s.inCall b false }
  else .next { s with asleep := update s.asleep b true }

def complete (s : Sys) : Outcome Sys :=
  match s.device with
  | .busy cmd =>
    match cmd.write with
    | some data =>
      .next { s with
        device := .ready cmd data
        disk := fun drive k => if drive = cmd.drive ∧
          k = cmd.blockno then data else s.disk drive k }
    | none => .next { s with device := .ready cmd (s.disk cmd.drive cmd.blockno) }
  | _ => .blocked

/-- What `ide_interrupt` does to the buffer at the head of the queue; `data` is what `insl`
    gives. -/
def Buf.finish (b : Buf) (data : Block) : Buf :=
  { b with valid := true, dirty := false, data := if b.dirty then b.data else data }

/-- The first part of `ide_interrupt`, for the head `b` of the queue: it is taken off and its
    process woken. -/
def Sys.dequeue (s : Sys) (b : BufId) (data : Block) : Sys :=
  { s with
    bufs := update s.bufs b ((s.bufs b).finish data)
    link := update s.link none (s.link (some b))
    asleep := update s.asleep b false
    device := .idle
    completed := s.completed ++ [(⟨b, s.bufs b⟩, (s.bufs b).finish data)] }

def ideInterrupt (s : Sys) : Outcome Sys :=
  match s.device with
  | .ready _ data =>
    match s.link none with
    | none => .next { s with device := .idle }
    | some b =>
      match (s.dequeue b data).link none with
      | none => .next (s.dequeue b data)
      | some b' => ideStart (s.dequeue b data) b'
  | _ => .blocked

inductive Act where
  | request (b : BufId)
  | resume (b : BufId)
  | signal (b : BufId)
  | change (b : BufId) (v : Buf)
  | complete
  | interrupt

def step (s : Sys) : Act → Outcome Sys
  | .request b => ideDirtyWrite s b
  | .resume b => resume s b
  | .signal b => .next { s with asleep := update s.asleep b false }
  | .change b v =>
    if s.inCall b then .blocked
    else .next { s with bufs := update s.bufs b v }
  | .complete => complete s
  | .interrupt => ideInterrupt s

/-- Nothing is queued and the disk is idle. -/
structure Sys.Idle (s : Sys) : Prop where
  link : s.link none = none
  inCall : ∀ b, s.inCall b = false
  device : s.device = .idle
  queued : s.queued = []
  started : s.started = []
  completed : s.completed = []
  overlap : s.overlap = false

/-! ## What a request is for -/

def Request.exec (r : Request) (d : Disk) : Disk :=
  if r.was.dirty then fun drive k => if drive = r.was.drive ∧
    k = r.was.blockno then r.was.data else d drive k else d

def serve (d : Disk) (rs : List Request) : Disk := rs.foldl (fun d r => r.exec d) d

/-- The buffer after its request was served from the blocks `d`: valid, clean, with the data of its
block if it was not dirty. -/
def Request.result (r : Request) (d : Disk) : Buf := r.was.finish (d r.was.drive r.was.blockno)

theorem Request.exec_dirty {r : Request} (h : r.was.dirty = true) (d : Disk) :
    r.exec d = fun drive k => if drive = r.was.drive ∧
      k = r.was.blockno then r.was.data else d drive k := if_pos h

theorem Request.exec_clean {r : Request} (h : r.was.dirty = false) (d : Disk) : r.exec d = d :=
  if_neg (by rw [h]; decide)

theorem serve_append (d : Disk) (rs : List Request) (r : Request) :
    serve d (rs ++ [r]) = r.exec (serve d rs) := by
  rw [serve, List.foldl_append]
  rfl

/-! ## The queue -/

def Sys.pending (s : Sys) (b : BufId) : Request := ⟨b, s.bufs b⟩

/-- The disk works on the head of the queue, or has finished it; `d` are the blocks left by the
completed requests. -/
def Device.Serves (dev : Device) (disk d : Disk) : List Request → Prop
  | [] => dev = .idle ∧ disk = d
  | r :: _ => (dev = .busy (command r.was) ∧ disk = d) ∨
      (dev = .ready (command r.was) (if r.was.dirty then r.was.data
        else d r.was.drive r.was.blockno) ∧ disk = r.exec d)

/-- The queue behind the links, whatever the disk does. -/
structure Core (d : Disk) (s : Sys) (q : List BufId) : Prop where
  path : Path s.link none q none
  nodup : q.Nodup
  inCall : ∀ b ∈ q, s.inCall b = true
  waiting : ∀ b ∈ q, (s.bufs b).finished = false
  done : ∀ b, s.inCall b = true → b ∉ q →
    (s.bufs b).finished = true ∧ s.asleep b = false ∧ ∃ r, (r, s.bufs b) ∈ s.completed ∧ r.buf = b
  queued : s.queued = s.completed.map Prod.fst ++ q.map s.pending
  results : ∀ i (r : Request) v, s.completed[i]? = some (r, v) →
    v = r.result (serve d ((s.completed.map Prod.fst).take i))
  overlap : s.overlap = false

/-- The queue, with the disk at work on its head. -/
structure Queue (d : Disk) (s : Sys) (q : List BufId) : Prop extends Core d s q where
  started : s.started = s.completed.map Prod.fst ++ (q.map s.pending).take 1
  device : s.device.Serves s.disk (serve d (s.completed.map Prod.fst)) (q.map s.pending)

section

variable {d : Disk} {s t : Sys} {q : List BufId} {b : BufId}

theorem Core.length_le (h : Core d s q) : q.length ≤ NBUF := by
  have := h.nodup.length_le_card
  rwa [Fintype.card_fin] at this

theorem Core.notMem (h : Core d s q) (hb : s.inCall b = false) : b ∉ q := by
  intro hin
  rw [h.inCall b hin] at hb
  cases hb

theorem Core.start (h : Core d s (b :: q)) (hidle : s.device = .idle)
    (hdisk : s.disk = serve d (s.completed.map Prod.fst))
    (hstarted : s.started = s.completed.map Prod.fst) (ht : ideStart s b = .next t) :
    Queue d t (b :: q) := by
  unfold ideStart at ht
  split at ht
  · cases ht
  cases ht
  refine ⟨⟨h.path, h.nodup, h.inCall, h.waiting, h.done, h.queued, h.results, ?_⟩, ?_, ?_⟩
  · rw [hidle, h.overlap]
    rfl
  · rw [hstarted]
    rfl
  · exact .inl ⟨rfl, hdisk⟩

theorem Core.enqueue (h : Core d s q) (hb : s.inCall b = false) (hf : (s.bufs b).finished = false) :
    Core d (s.enqueue b) (q ++ [b]) := by
  have hnot := h.notMem hb
  have hframe : Path (update s.link (some b) none) none q none :=
    h.path.frame (update_of_ne (Option.some_ne_none b).symm ..)
      (fun a ha => update_of_ne (fun he => ne_of_mem_of_not_mem ha hnot (Option.some.inj he)) ..)
  refine ⟨?_, ?_, fun a ha => ?_, fun a ha => ?_, fun a ha hna => ?_, ?_, h.results, h.overlap⟩
  · simp only [Sys.enqueue, lastPlace_eq hframe h.length_le]
    exact h.path.snoc h.nodup (apart_none q) (Option.some_ne_none b).symm hnot
  · exact List.nodup_append.mpr ⟨h.nodup, List.nodup_singleton b, fun x hx y hy => by
      rw [List.mem_singleton.mp hy]
      exact fun he => hnot (he ▸ hx)⟩
  · simp only [Sys.enqueue]
    refine update_cases a ?_ fun hab => ?_
    · rfl
    · exact h.inCall a
        ((List.mem_append.mp ha).resolve_right (fun hs => hab (List.mem_singleton.mp hs)))
  · rcases List.mem_append.mp ha with ha | ha
    · exact h.waiting a ha
    · rw [List.mem_singleton.mp ha]
      exact hf
  · have hab : a ≠ b := fun he => hna (List.mem_append_right q (List.mem_singleton.mpr he))
    simp only [Sys.enqueue, update_of_ne hab] at ha ⊢
    exact h.done a ha (fun hin => hna (List.mem_append_left [b] hin))
  · simp only [Sys.enqueue, h.queued, List.map_append, List.append_assoc]
    rfl

section

variable (h : Queue d s q)
include h

theorem Queue.request (ht : ideDirtyWrite s b = .next t) : Queue d t (q ++ [b]) := by
  unfold ideDirtyWrite at ht
  split at ht
  · cases ht
  rename_i hb
  split at ht
  · cases ht
  rename_i hf
  split at ht
  · cases ht
  have hcore : Core d (s.enqueue b) (q ++ [b]) := h.enqueue (by simpa using hb) (by simpa using hf)
  have hfirst := hcore.path.first
  cases q with
  | nil =>
    rw [if_pos (show (s.enqueue b).link none = some b from hfirst)] at ht
    exact hcore.start h.device.1 h.device.2 (h.started.trans (List.append_nil _)) ht
  | cons a q =>
    have hab : a ≠ b := by
      rintro rfl
      exact hb (h.inCall a List.mem_cons_self)
    have hne : (s.enqueue b).link none ≠ some b := by
      rw [hfirst]
      exact fun he => hab (Option.some.inj he)
    rw [if_neg hne] at ht
    cases ht
    exact ⟨hcore, h.started, h.device⟩

theorem Queue.resume (ht : resume s b = .next t) : Queue d t q := by
  unfold Ide.resume at ht
  split at ht
  · cases ht
  split at ht
  · rename_i hfin
    cases ht
    have hnot : b ∉ q := fun hin => by
      rw [h.waiting b hin] at hfin
      cases hfin
    refine ⟨⟨h.path, h.nodup, fun a ha => ?_, h.waiting, fun a ha hna => ?_,
      h.queued, h.results, h.overlap⟩, h.started, h.device⟩
    · dsimp only
      rw [update_of_ne (ne_of_mem_of_not_mem ha hnot)]
      exact h.inCall a ha
    · dsimp only at ha
      have hab : a ≠ b := by
        rintro rfl
        rw [update_self] at ha
        cases ha
      rw [update_of_ne hab] at ha
      exact h.done a ha hna
  · rename_i hfin
    cases ht
    refine ⟨⟨h.path, h.nodup, h.inCall, h.waiting, fun a ha hna => ?_,
      h.queued, h.results, h.overlap⟩, h.started, h.device⟩
    have hab : a ≠ b := by
      rintro rfl
      exact hfin (h.done a ha hna).1
    dsimp only
    rw [update_of_ne hab]
    exact h.done a ha hna

theorem Queue.signal (b : BufId) : Queue d { s with asleep := update s.asleep b false } q := by
  refine ⟨⟨h.path, h.nodup, h.inCall, h.waiting, fun a ha hna => ?_,
    h.queued, h.results, h.overlap⟩, h.started, h.device⟩
  obtain ⟨hfin, hawake, hres⟩ := h.done a ha hna
  refine ⟨hfin, ?_, hres⟩
  dsimp only
  refine update_cases a ?_ fun _ => ?_
  · rfl
  · rw [hawake]

/-- A buffer that is in no call changes: the queue does not see it. -/
theorem Queue.change (hb : s.inCall b = false) (v : Buf) :
    Queue d { s with bufs := update s.bufs b v } q := by
  have hnot := h.notMem hb
  have hsame : ∀ a, a ≠ b → update s.bufs b v a = s.bufs a := fun a ha => update_of_ne ha ..
  have hq : ∀ a ∈ q, update s.bufs b v a = s.bufs a :=
    fun a ha => hsame a (fun he => hnot (he ▸ ha))
  have hpending : q.map (Sys.pending { s with bufs := update s.bufs b v }) = q.map s.pending :=
    List.map_congr_left (fun a ha => by rw [Sys.pending, Sys.pending]; dsimp only; rw [hq a ha])
  refine ⟨⟨h.path, h.nodup, h.inCall, fun a ha => ?_, fun a ha hna => ?_,
    ?_, h.results, h.overlap⟩, ?_, ?_⟩
  · dsimp only
    rw [hq a ha]
    exact h.waiting a ha
  · have hab : a ≠ b := by
      rintro rfl
      rw [hb] at ha
      cases ha
    dsimp only
    rw [hsame a hab]
    exact h.done a ha hna
  · rw [hpending]
    exact h.queued
  · rw [hpending]
    exact h.started
  · rw [hpending]
    exact h.device

theorem Queue.complete_cases (ht : complete s = .next t) :
    ∃ b q', q = b :: q' ∧ s.disk = serve d (s.completed.map Prod.fst) ∧
      t = { s with
        device := .ready (command (s.bufs b))
          (if (s.bufs b).dirty then (s.bufs b).data else s.disk (s.bufs b).drive (s.bufs b).blockno)
        disk := (s.pending b).exec s.disk } := by
  have hdev := h.device
  unfold complete at ht
  cases q with
  | nil =>
    rw [hdev.1] at ht
    cases ht
  | cons b q =>
    rcases hdev with ⟨hbusy, hdisk⟩ | ⟨hready, -⟩
    · refine ⟨b, q, rfl, hdisk, ?_⟩
      rw [hbusy] at ht
      cases hdirty : (s.bufs b).dirty with
      | true =>
        rw [Request.exec_dirty hdirty]
        simp only [command, Sys.pending, hdirty] at ht ⊢
        cases ht
        rfl
      | false =>
        rw [Request.exec_clean hdirty]
        simp only [command, Sys.pending, hdirty] at ht ⊢
        cases ht
        rfl
    · rw [hready] at ht
      cases ht

theorem Queue.complete (ht : complete s = .next t) : Queue d t q := by
  have hcore := h.toCore
  have hstarted := h.started
  obtain ⟨b, q, rfl, hdisk, rfl⟩ := h.complete_cases ht
  refine ⟨⟨hcore.path, hcore.nodup, hcore.inCall, hcore.waiting,
    hcore.done, hcore.queued, hcore.results, hcore.overlap⟩, hstarted, .inr ⟨?_, ?_⟩⟩
  · rw [hdisk]
    rfl
  · exact congrArg (s.pending b).exec hdisk

end

/-- What the disk has ready for the head of the queue: a buffer that was dirty is on the disk, one
that was not gets what is there. -/
theorem Queue.ready_finish (h : Queue d s (b :: q)) {cmd : Command}
    {data : Block} (hready : s.device = .ready cmd data) :
    s.disk = (s.pending b).exec (serve d (s.completed.map Prod.fst)) ∧
      (s.bufs b).finish data = (s.pending b).result (serve d (s.completed.map Prod.fst)) := by
  have hserves := h.device
  rw [hready] at hserves
  rcases hserves with ⟨hbusy, -⟩ | ⟨heq, hdisk⟩
  · cases hbusy
  obtain ⟨-, hdata⟩ := Device.ready.inj heq
  refine ⟨hdisk, ?_⟩
  unfold Request.result Buf.finish
  rw [hdata]
  cases hdirty : (s.bufs b).dirty with
  | true | false => simp [Sys.pending, hdirty]

theorem Queue.dequeue (h : Queue d s (b :: q)) {cmd : Command}
    {data : Block} (hready : s.device = .ready cmd data) :
    Core d (s.dequeue b data) q ∧
      (s.dequeue b data).disk = serve d ((s.dequeue b data).completed.map Prod.fst) ∧
      (s.dequeue b data).started = (s.dequeue b data).completed.map Prod.fst := by
  obtain ⟨hbq, hnd⟩ := List.nodup_cons.mp h.nodup
  obtain ⟨hdisk, hresult⟩ := h.ready_finish hready
  have hfst :
      (s.dequeue b data).completed.map Prod.fst = s.completed.map Prod.fst ++ [s.pending b] := by
    simp [Sys.dequeue, Sys.pending]
  have hsame : ∀ a, a ≠ b → (s.dequeue b data).bufs a = s.bufs a := fun a ha => update_of_ne ha ..
  have hpending : q.map (s.dequeue b data).pending = q.map s.pending :=
    List.map_congr_left (fun a ha => by
      rw [Sys.pending, Sys.pending, hsame a (fun he => hbq (he ▸ ha))])
  refine ⟨⟨h.path.pop, hnd, fun a ha => h.inCall a (List.mem_cons_of_mem b ha),
    fun a ha => ?_, fun a ha hna => ?_, ?_, ?_, h.overlap⟩, ?_, ?_⟩
  · rw [hsame a (fun he => hbq (he ▸ ha))]
    exact h.waiting a (List.mem_cons_of_mem b ha)
  · by_cases hab : a = b
    · subst hab
      have hself : (s.dequeue a data).bufs a = (s.bufs a).finish data := update_self ..
      refine ⟨by rw [hself]; rfl, update_self .., s.pending a, ?_, rfl⟩
      rw [hself]
      exact List.mem_append_right _ (List.mem_singleton.mpr rfl)
    obtain ⟨hfin, hawake, r, hr, hrb⟩ :=
      h.done a ha (fun hin => (List.mem_cons.mp hin).elim hab hna)
    refine ⟨by rw [hsame a hab]; exact hfin, (update_of_ne hab ..).trans hawake, r, ?_, hrb⟩
    rw [hsame a hab]
    exact List.mem_append_left _ hr
  · rw [hfst, hpending, List.append_assoc]
    exact h.queued
  · intro i r v hi
    rcases Nat.lt_trichotomy i s.completed.length with hlt | heq | hgt
    · have hold : s.completed[i]? = some (r, v) := by
        rw [← hi]
        exact (List.getElem?_append_left hlt).symm
      rw [hfst, List.take_append_of_le_length (by rw [List.length_map]; exact hlt.le)]
      exact h.results i r v hold
    · subst heq
      have hnew : (s.completed ++ [(s.pending b, (s.bufs b).finish data)])[s.completed.length]? =
          some (r, v) := hi
      rw [List.getElem?_concat_length] at hnew
      cases hnew
      rw [hfst, List.take_append_of_le_length (by rw [List.length_map]),
        List.take_of_length_le (by rw [List.length_map])]
      exact hresult
    have hnone : (s.dequeue b data).completed[i]? = none :=
      List.getElem?_eq_none
        (by simp only [Sys.dequeue, List.length_append, List.length_singleton]; omega)
    rw [hnone] at hi
    cases hi
  · rw [hfst, serve_append]
    exact hdisk
  · rw [hfst]
    exact h.started

theorem Queue.interrupt (h : Queue d s q) (ht : ideInterrupt s = .next t) : Queue d t q.tail := by
  unfold ideInterrupt at ht
  split at ht
  · rename_i cmd data hready
    cases q with
    | nil =>
      have := h.device.1
      rw [hready] at this
      cases this
    | cons b q =>
      have hhead : s.link none = some b := h.path.1
      obtain ⟨hcore, hdisk, hstarted⟩ := h.dequeue hready
      rw [hhead] at ht
      dsimp only at ht
      have hfirst := hcore.path.first
      cases q with
      | nil =>
        rw [hfirst] at ht
        cases ht
        exact ⟨hcore, by rw [hstarted]; exact (List.append_nil _).symm, rfl, hdisk⟩
      | cons b' q =>
        rw [hfirst] at ht
        exact hcore.start rfl hdisk hstarted ht
  · cases ht

end

theorem Queue.interrupt_bufs {d : Disk} {s t : Sys} {q : List BufId}
    (h : Queue d s q) (ht : ideInterrupt s = .next t) : ∃ b ∈ q, t.disk = s.disk ∧
      t.bufs = update s.bufs b ((s.bufs b).finish (s.disk (s.bufs b).drive (s.bufs b).blockno)) ∧
      ((s.bufs b).dirty = true → s.disk (s.bufs b).drive (s.bufs b).blockno = (s.bufs b).data) := by
  unfold ideInterrupt at ht
  split at ht
  · rename_i cmd data hready
    cases q with
    | nil =>
      have := h.device.1
      rw [hready] at this
      cases this
    | cons b q =>
      obtain ⟨hdisk, hresult⟩ := h.ready_finish hready
      have hfinish : (s.bufs b).finish data =
          (s.bufs b).finish (s.disk (s.bufs b).drive (s.bufs b).blockno) := by
        rw [hresult, hdisk, Request.result]
        cases hdirty : (s.bufs b).dirty with
        | true => simp [Sys.pending, Buf.finish, hdirty]
        | false => rw [Request.exec_clean hdirty, Sys.pending]
      have hsame : t.disk = s.disk ∧ t.bufs = update s.bufs b ((s.bufs b).finish data) := by
        rw [show s.link none = some b from h.path.1] at ht
        dsimp only at ht
        split at ht
        · cases ht
          exact ⟨rfl, rfl⟩
        unfold ideStart at ht
        split at ht
        · cases ht
        · cases ht
          exact ⟨rfl, rfl⟩
      refine ⟨b, .head _, hsame.1, hfinish ▸ hsame.2, fun hdirty => ?_⟩
      rw [hdisk, Request.exec_dirty hdirty]
      exact if_pos ⟨rfl, rfl⟩
  · cases ht

theorem Queue.step {d : Disk} {s t : Sys} {q : List BufId} {a : Act}
    (h : Queue d s q) (ht : step s a = .next t) : ∃ q', Queue d t q' := by
  cases a with
  | request b => exact ⟨_, h.request ht⟩
  | resume b => exact ⟨_, h.resume ht⟩
  | signal b =>
    cases ht
    exact ⟨_, h.signal b⟩
  | change b v =>
    unfold Ide.step at ht
    dsimp only at ht
    split at ht
    · cases ht
    rename_i hb
    cases ht
    exact ⟨_, h.change (by simpa using hb) v⟩
  | complete => exact ⟨_, h.complete ht⟩
  | interrupt => exact ⟨_, h.interrupt ht⟩

theorem Sys.Idle.queue {s : Sys} (h : s.Idle) : Queue s.disk s [] := by
  refine ⟨⟨h.link, List.nodup_nil, fun b hb => absurd hb List.not_mem_nil,
    fun b hb => absurd hb List.not_mem_nil,
    fun b hb => ?_, ?_, fun i r v hi => ?_, h.overlap⟩, ?_, h.device, ?_⟩
  · rw [h.inCall b] at hb
    cases hb
  · rw [h.queued, h.completed]
    rfl
  · rw [h.completed] at hi
    cases hi
  · rw [h.started, h.completed]
    rfl
  · rw [h.completed]
    rfl

/-! ## Runs -/

namespace Queue

variable {d : Disk} {s : Sys} {q : List BufId}

variable (h : Queue d s q)
include h

theorem order :
    s.started <+: s.queued ∧ s.completed.map Prod.fst <+: s.queued ∧
      s.completed.length ≤ s.started.length ∧ s.started.length ≤ s.completed.length + 1 := by
  refine ⟨?_, ⟨_, h.queued.symm⟩, ?_, ?_⟩
  · rw [h.started, h.queued]
    exact List.prefix_append_right_inj _ |>.mpr (List.take_prefix 1 _)
  · rw [h.started, List.length_append, List.length_map]
    exact Nat.le_add_right _ _
  · rw [h.started, List.length_append, List.length_map]
    exact Nat.add_le_add_left (List.length_take_le 1 _) _

theorem completed_take {i : Nat} (hi : i ≤ s.completed.length) :
    (s.completed.map Prod.fst).take i = s.queued.take i := by
  rw [h.queued, List.take_append_of_le_length (by rwa [List.length_map])]

/-- The blocks are those left by the requests completed, or by those and the one the disk has
    finished. -/
theorem blocks :
    s.disk = serve d (s.queued.take s.completed.length) ∨
      s.disk = serve d (s.queued.take s.started.length) := by
  have hfst : s.queued.take s.completed.length = s.completed.map Prod.fst := by
    rw [← h.completed_take le_rfl]
    exact List.take_of_length_le (by rw [List.length_map])
  have hdev := h.device
  cases q with
  | nil =>
    rw [hfst]
    exact .inl hdev.2
  | cons b q =>
    rcases hdev with ⟨-, hdisk⟩ | ⟨-, hdisk⟩
    · rw [hfst]
      exact .inl hdisk
    refine .inr ?_
    have hstarted : s.queued.take s.started.length = s.completed.map Prod.fst ++ [s.pending b] := by
      obtain ⟨rest, hrest⟩ := h.order.1
      rw [← hrest, List.take_left, h.started]
      rfl
    rw [hstarted, serve_append]
    exact hdisk

/-- While something is pending the disk works or has raised its interrupt, and the interrupt
completes the oldest pending request; the next one is refused only for its block number. -/
theorem progress (hq : s.completed.length < s.queued.length) :
    (∃ u, Ide.complete s = .next u) ∨
      (∃ u, ideInterrupt s = .next u ∧ u.completed.length = s.completed.length + 1) ∨
      ∃ msg, ideInterrupt s = .panic msg ∧ ∃ r ∈ s.queued, FSSIZE ≤ r.was.blockno := by
  cases q with
  | nil =>
    rw [h.queued, List.length_append, List.length_map] at hq
    exact absurd hq (Nat.lt_irrefl _)
  | cons b q =>
    rcases h.device with ⟨hbusy, -⟩ | ⟨hready, -⟩
    · refine .inl ?_
      unfold Ide.complete
      rw [hbusy]
      dsimp only
      split
      · exact ⟨_, rfl⟩
      · exact ⟨_, rfl⟩
    refine .inr ?_
    obtain ⟨cmd, data, hready⟩ : ∃ cmd data, s.device = .ready cmd data := ⟨_, _, hready⟩
    obtain ⟨hcore, -, -⟩ := h.dequeue hready
    have hlen : (s.dequeue b data).completed.length = s.completed.length + 1 := by
      rw [Sys.dequeue, List.length_append]
      rfl
    unfold ideInterrupt
    rw [hready, show s.link none = some b from h.path.1]
    dsimp only
    have hfirst := hcore.path.first
    cases q with
    | nil =>
      rw [hfirst]
      exact .inl ⟨_, rfl, hlen⟩
    | cons b' q =>
      rw [hfirst]
      dsimp only [headNode]
      unfold ideStart
      split
      · rename_i hbig
        refine .inr ⟨_, rfl, s.pending b', ?_, ?_⟩
        · rw [h.queued]
          exact List.mem_append_right
            _ (List.mem_map_of_mem (List.mem_cons_of_mem b List.mem_cons_self))
        · have hne : b' ≠ b := fun he => (List.nodup_cons.mp h.nodup).1 (he ▸ .head _)
          simp only [Sys.dequeue, update_of_ne hne] at hbig
          exact hbig
      · exact .inl ⟨_, rfl, hlen⟩

theorem callers {b : BufId} (hb : s.inCall b = true) :
    s.pending b ∈ s.queued.drop s.completed.length ∨
      (s.asleep b = false ∧ ∃ r, (r, s.bufs b) ∈ s.completed ∧ r.buf = b) := by
  by_cases hin : b ∈ q
  · refine .inl ?_
    rw [h.queued, List.drop_left' (List.length_map ..)]
    exact List.mem_map_of_mem hin
  · exact .inr ⟨(h.done b hb hin).2.1, (h.done b hb hin).2.2⟩

end Queue

/-- **The disk request queue.**  In every state of every run from an idle disk: no command was sent
to a disk at work; commands were started in the order the buffers were queued, each from the buffer
as it was queued, and completed in that order, at most one being under way; request `i` left its
buffer valid and clean, with the data of its block after all requests queued before it if it was a
read; the blocks are those left by the requests in order; a caller waits with its buffer unchanged,
or was woken with it completed; and as long as a request is pending, the disk goes on to complete
it. -/
theorem requests_served {s t : Sys} {acts : List Act} (hs : s.Idle)
    (h : Run (Outcome.rel step) s acts t) : t.overlap = false ∧
      (t.started <+: t.queued ∧ t.completed.map Prod.fst <+: t.queued ∧
        t.completed.length ≤ t.started.length ∧ t.started.length ≤ t.completed.length + 1) ∧
      (∀ i (r : Request) v, t.completed[i]? = some (r, v) →
        v = { r.was with
              valid := true
              dirty := false
              data := if r.was.dirty then r.was.data
                else serve s.disk (t.queued.take i) r.was.drive r.was.blockno }) ∧
      (t.disk = serve s.disk (t.queued.take t.completed.length) ∨
        t.disk = serve s.disk (t.queued.take t.started.length)) ∧
      (∀ b, t.inCall b = true → t.pending b ∈ t.queued.drop t.completed.length ∨
        (t.asleep b = false ∧ ∃ r, (r, t.bufs b) ∈ t.completed ∧ r.buf = b)) ∧
      (t.completed.length < t.queued.length → (∃ u, step t .complete = .next u) ∨
        (∃ u, step t .interrupt = .next u ∧ u.completed.length = t.completed.length + 1) ∨
        ∃ msg, step t .interrupt = .panic msg ∧ ∃ r ∈ t.queued, FSSIZE ≤ r.was.blockno) := by
  obtain ⟨q, hq⟩ : ∃ q, Queue s.disk t q :=
    h.invariant (I := fun u => ∃ q, Queue s.disk u q)
      (fun _ _ _ hi hn => hi.elim fun _ hi => hi.step hn) ⟨[], hs.queue⟩
  refine ⟨hq.overlap, hq.order, fun i r v hi => ?_, hq.blocks, fun b => hq.callers, hq.progress⟩
  have hle : i ≤ t.completed.length := Nat.le_of_lt (List.getElem?_eq_some_iff.mp hi).1
  rw [← hq.completed_take hle]
  exact hq.results i r v hi

/-- Two drives of empty blocks, and all buffers for block 7 of drive 1, with nothing read yet. -/
def coldStart : Sys where
  bufs := fun _ => ⟨1, 7, false, false, ByteBlock.zero⟩
  link := fun _ => none
  inCall := fun _ => false
  asleep := fun _ => false
  device := .idle
  disk := fun _ _ => ByteBlock.zero
  havedisk1 := true
  queued := []
  started := []
  completed := []
  overlap := false

theorem coldStart_idle : coldStart.Idle := ⟨rfl, fun _ => rfl, rfl, rfl, rfl, rfl, rfl⟩

/-- Two buffers are read.  After the first interrupt one request is completed and the other is under
    way. -/
theorem requests_served_two :
    ∃ t, Run (Outcome.rel step) coldStart
      [.request ⟨3, by decide⟩, .request ⟨1, by decide⟩, .complete, .interrupt] t ∧
      t.completed.length = 1 ∧ t.started.length = 2 ∧ t.started <+: t.queued := by
  have hrun : Run (Outcome.rel step) coldStart
      [.request ⟨3, by decide⟩, .request ⟨1, by decide⟩, .complete, .interrupt] _ :=
    .cons rfl (.cons rfl (.cons rfl (.cons rfl (.nil _))))
  exact ⟨_, hrun, rfl, rfl, (requests_served coldStart_idle hrun).2.1.1⟩

end Micro86.Ide
