import Micro86.Bio.Ide

/-!
# The buffer cache

`NBUF` buffers on a doubly linked circular list, the most recently released first.  Sections with
`bcache.lock` held are single steps; so is taking or giving back the sleep-lock of a buffer.
Processes take turns between the steps, and the disk and its interrupts come in between.

* `Cache`, `step` — processes that read, modify, write and release buffers, and `sync()`.

A process that was given a buffer by `buffer_read` holds its lock until `buffer_release`.  `events`
records what `buffer_read` returned and every modification, the latest first.
-/

namespace Micro86.Bio

open Ide (BufId Buf Disk)

/-- `next` and `prev` of the buffers and of `bcache.head`, which is `none`. -/
structure Links where
  next : Option BufId → Option BufId
  prev : Option BufId → Option BufId

namespace Links

def insert (l : Links) (b : BufId) : Links where
  next := Function.update (Function.update l.next (some b) (l.next none)) none (some b)
  prev := Function.update (Function.update l.prev (some b) none) (l.next none) (some b)

def unlink (l : Links) (b : BufId) : Links where
  next := Function.update l.next (l.prev (some b)) (l.next (some b))
  prev := Function.update l.prev (l.next (some b)) (l.prev (some b))

/-- The buffers in the order of the list, as a loop over it meets them. -/
def walk (l : Links) : Nat → Option BufId → List BufId
  | 0, _ => []
  | _ + 1, none => []
  | fuel + 1, some b => b :: l.walk fuel (l.next (some b))

end Links

def bufferInit : Links := (List.finRange NBUF).foldl Links.insert ⟨fun _ => none, fun _ => none⟩

structure Key where
  dev : Nat
  blockno : Nat
  deriving DecidableEq

def keyOf (b : Buf) : Key := ⟨b.dev, b.blockno⟩

/-- What a process is doing.  Between calls it is `idle`, whatever buffers it holds. -/
inductive Pos where
  | idle
  /-- In `acquiresleep` of `buffer_get`, its reference counted. -/
  | locking (k : Key) (b : BufId)
  /-- Back from `buffer_get`. -/
  | gotten (k : Key) (b : BufId)
  /-- In `ide_dirty_write` of `buffer_read`. -/
  | fetching (k : Key) (b : BufId)
  /-- In `ide_dirty_write` of `buffer_write`. -/
  | writing (b : BufId)
  /-- In `buffer_release`, the lock given back and the reference still counted. -/
  | releasing (b : BufId)
  /-- In `sync`, before the lock of the first of the buffers still to be written. -/
  | sync (rest : List BufId)
  /-- In `sync`, with the lock of `b`. -/
  | syncing (b : BufId) (rest : List BufId)
  /-- In `ide_dirty_write`, called by `sync` for `b`. -/
  | syncWriting (b : BufId) (rest : List BufId)
  deriving DecidableEq

/-- What is observed: data returned by `buffer_read`, and data put in a buffer. -/
inductive Event where
  | returned (k : Key) (data : Block)
  | modified (k : Key) (data : Block)

structure Cache (P : Type) where
  ide : Ide.Sys
  refcnt : BufId → Nat
  owner : BufId → Option P
  links : Links
  pos : P → Pos
  events : List Event

variable {P : Type} [DecidableEq P]

namespace Cache

variable (s : Cache P)

def moveTo (p : P) (x : Pos) : Cache P := { s with pos := Function.update s.pos p x }

def setRef (b : BufId) (n : Nat) : Cache P := { s with refcnt := Function.update s.refcnt b n }

def setOwner (b : BufId) (o : Option P) : Cache P := { s with owner := Function.update s.owner b o }

def setBuf (b : BufId) (v : Buf) : Cache P :=
  { s with ide := { s.ide with bufs := Function.update s.ide.bufs b v } }

def note (e : Event) : Cache P := { s with events := e :: s.events }

def cached (k : Key) : Option BufId :=
  search s.links.next (fun b => keyOf (s.ide.bufs b) = k) NBUF (s.links.next none)

def unused : Option BufId :=
  search s.links.prev (fun b => s.refcnt b = 0 ∧ (s.ide.bufs b).dirty = false)
    NBUF (s.links.prev none)

def recycle (k : Key) (b : BufId) : Cache P :=
  (s.setBuf b
    { s.ide.bufs b with dev := k.dev, blockno := k.blockno, valid := false, dirty := false }).setRef
  b 1

def bufferGet (p : P) (k : Key) : Outcome (Cache P) :=
  match s.cached k with
  | some b => .next ((s.setRef b (s.refcnt b + 1)).moveTo p (.locking k b))
  | none =>
    match s.unused with
    | some b => .next ((s.recycle k b).moveTo p (.locking k b))
    | none => .panic "buffer_get: no buffers"

def dropRef (b : BufId) : Cache P :=
  if s.refcnt b - 1 = 0 then
    { s.setRef b (s.refcnt b - 1) with links := (s.links.unlink b).insert b }
  else s.setRef b (s.refcnt b - 1)

def callIde (p : P) (b : BufId) (x : Pos) : Outcome (Cache P) :=
  match Ide.ideDirtyWrite s.ide b with
  | .next ide => .next ({ s with ide := ide }.moveTo p x)
  | .panic msg => .panic msg
  | .blocked => .blocked

/-- `ide_dirty_write(b)` goes on after its `sleep`; when it returns, `done` follows. -/
def resumeIde (b : BufId) (done : Cache P → Cache P) : Outcome (Cache P) :=
  match Ide.resume s.ide b with
  | .next ide => .next (if ide.inCall b then { s with ide := ide } else done { s with ide := ide })
  | .panic msg => .panic msg
  | .blocked => .blocked

def giveBack (p : P) (k : Key) (b : BufId) : Cache P :=
  (s.note (.returned k (s.ide.bufs b).data)).moveTo p .idle

/-- The data of a buffer is changed and `B_DIRTY` set. -/
def modify (b : BufId) (data : Block) : Cache P :=
  (s.setBuf b { s.ide.bufs b with data := data, dirty := true }).note
  (.modified (keyOf (s.ide.bufs b)) data)

def syncNext (p : P) (b : BufId) (rest : List BufId) : Cache P :=
  (s.setOwner b none).moveTo p (.sync rest)

end Cache

inductive Act (P : Type) where
  /-- `buffer_read` begins. -/
  | read (p : P) (k : Key)
  /-- A process goes on where it stands. -/
  | go (p : P)
  /-- A buffer is modified and `log_write` called. -/
  | logWrite (p : P) (b : BufId) (data : Block)
  /-- A buffer is modified and `buffer_write` called. -/
  | write (p : P) (b : BufId) (data : Block)
  | release (p : P) (b : BufId)
  | sync (p : P)
  | complete
  | interrupt
  | signal (b : BufId)

def go (s : Cache P) (p : P) : Outcome (Cache P) :=
  match s.pos p with
  | .idle => .blocked
  | .locking k b =>
      if s.owner b = none then .next ((s.setOwner b (some p)).moveTo p (.gotten k b)) else .blocked
  | .gotten k b =>
    if (s.ide.bufs b).valid then .next (s.giveBack p k b)
    else s.callIde p b (.fetching k b)
  | .fetching k b => s.resumeIde b (fun s => s.giveBack p k b)
  | .writing b => s.resumeIde b (fun s => s.moveTo p .idle)
  | .releasing b => .next ((s.dropRef b).moveTo p .idle)
  | .sync [] => .next (s.moveTo p .idle)
  | .sync (b :: rest) =>
    if s.owner b = none then
      .next ((s.setOwner b (some p)).moveTo p (.syncing b rest)) else .blocked
  | .syncing b rest =>
    -- `buffer_write` sets a flag that is set already
    if (s.ide.bufs b).dirty then s.callIde p b (.syncWriting b rest)
      else .next (s.syncNext p b rest)
  | .syncWriting b rest => s.resumeIde b (fun s => s.syncNext p b rest)

def ideStep (s : Cache P) (a : Ide.Act) : Outcome (Cache P) :=
  match Ide.step s.ide a with
  | .next ide => .next { s with ide := ide }
  | .panic msg => .panic msg
  | .blocked => .blocked

def step (s : Cache P) : Act P → Outcome (Cache P)
  | .read p k => if s.pos p = .idle then s.bufferGet p k else .blocked
  | .go p => go s p
  | .logWrite p b data => if s.pos p = .idle ∧
        s.owner b = some p then .next (s.modify b data) else .blocked
  | .write p b data =>
    if s.pos p = .idle ∧
      s.owner b = some p then (s.modify b data).callIde p b (.writing b) else .blocked
  | .release p b =>
    if s.pos p = .idle ∧
      s.owner b = some p then .next ((s.setOwner b none).moveTo p (.releasing b)) else .blocked
  | .sync p =>
    if s.pos p = .idle then
      .next (s.moveTo p
        (.sync ((s.links.walk NBUF (s.links.next none)).filter (fun b => (s.ide.bufs b).dirty))))
    else .blocked
  | .complete => ideStep s .complete
  | .interrupt => ideStep s .interrupt
  | .signal b => ideStep s (.signal b)

/-- The cache after `buffer_init`, with an idle disk. -/
structure Cache.Cold (s : Cache P) : Prop where
  ide : s.ide.Idle
  bufs : ∀ b, keyOf (s.ide.bufs b) = ⟨0, 0⟩ ∧ (s.ide.bufs b).valid = false ∧
    (s.ide.bufs b).dirty = false
  refcnt : ∀ b, s.refcnt b = 0
  owner : ∀ b, s.owner b = none
  links : s.links = bufferInit
  pos : ∀ p, s.pos p = .idle
  events : s.events = []

end Micro86.Bio
