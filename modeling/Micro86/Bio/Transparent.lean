import Micro86.Bio.Locks

/-!
# The buffer cache is transparent

What `buffer_read` returns for a block is what was put there last, or what the disk held at first.
The blocks a buffer does not hold, and those it holds without a change, are up to date on the disk.

* `cache_transparent` — for device numbers other than 0 that select different drives.
* `same_drive` — two device numbers of one drive do not see each other's changes through the cache.
-/

namespace Micro86.Bio

open Ide (BufId Buf Disk)
open Function

variable {b : BufId} {k : Key} {ide : Ide.Sys}

variable {P : Type}

/-! ## The list -/

/-- The circular list is that of the buffers `l`, which are all of them. -/
structure Listed (k : Links) (l : List BufId) : Prop where
  circle : Circle k.next k.prev l
  all : l.Perm (List.finRange NBUF)

namespace Listed

variable {k : Links} {l : List BufId} {b : BufId}

variable (h : Listed k l)
include h

theorem mem (b : BufId) : b ∈ l := h.all.mem_iff.mpr (List.mem_finRange b)

theorem length : l.length = NBUF := by rw [h.all.length_eq, List.length_finRange]

theorem move (b : BufId) : Listed ((k.unlink b).insert b) (b :: l.erase b) := by
  have hnot : b ∉ l.erase b := fun hin => ((h.circle.nodup.mem_erase_iff).mp hin).1 rfl
  exact ⟨(h.circle.unlink (h.mem b)).insert hnot, (List.perm_cons_erase (h.mem b)).symm.trans h.all⟩

end Listed

theorem circle_insertAll {k : Links} {l bs : List BufId} (h : Circle k.next k.prev l)
    (hnd : bs.Nodup)
    (hdisj : ∀ b ∈ bs, b ∉ l) :
    Circle (bs.foldl Links.insert k).next (bs.foldl Links.insert k).prev (bs.reverse ++ l) := by
  induction bs generalizing k l with
  | nil => exact h
  | cons b bs ih =>
    obtain ⟨hb, hnd⟩ := List.nodup_cons.mp hnd
    have hins : Circle (k.insert b).next (k.insert b).prev (b :: l) :=
      h.insert (hdisj b List.mem_cons_self)
    rw [List.reverse_cons, List.append_assoc]
    refine ih hins hnd (fun c hc hin => ?_)
    rcases List.mem_cons.mp hin with rfl | hin
    · exact hb hc
    · exact hdisj c (List.mem_cons_of_mem b hc) hin

theorem bufferInit_listed : Listed bufferInit (List.finRange NBUF).reverse := by
  have hcircle :=
    circle_insertAll (k := ⟨fun _ => none, fun _ => none⟩) (l := []) ⟨rfl, rfl, List.nodup_nil⟩
    (List.nodup_finRange NBUF) (fun _ _ => List.not_mem_nil)
  exact ⟨hcircle, List.reverse_perm _⟩

/-! ## Contents -/

def Key.onDisk (k : Key) (d : Disk) : Block := d (k.dev % 2 = 1) k.blockno

/-- What was put in a block last, or what was there at first. -/
def lastWrite (orig : Key → Block) : List Event → Key → Block
  | [], k => orig k
  | .returned _ _ :: es, k => lastWrite orig es k
  | .modified k' data :: es, k => if k' = k then data else lastWrite orig es k

/-- Every `buffer_read` returned what was put in its block last. -/
def Consistent (orig : Key → Block) : List Event → Prop
  | [] => True
  | .returned k data :: es => data = lastWrite orig es k ∧ Consistent orig es
  | .modified _ _ :: es => Consistent orig es

/-- Device numbers other than 0, no two of which select the same drive. -/
structure Drives (D : Nat → Prop) : Prop where
  pos : ¬ D 0
  inj : ∀ d d', D d → D d' → d % 2 = d' % 2 → d = d'

namespace Pos

/-- The block a process reads, and the buffer it was given for it. -/
def asks : Pos → Option (Key × BufId)
  | locking k b | gotten k b | fetching k b => some (k, b)
  | _ => none

def fills : Pos → Option BufId
  | gotten _ b | fetching _ b => some b
  | _ => none

def inSync : Pos → Bool
  | sync _ | syncing _ _ | syncWriting _ _ => true
  | _ => false

end Pos

structure Faithful (D : Nat → Prop) (orig : Key → Block) (s : Cache P) : Prop where
  /-- A buffer is for a block of one of the devices, or was never used. -/
  keys : ∀ b, D (s.ide.bufs b).dev ∨
    (keyOf (s.ide.bufs b) = ⟨0, 0⟩ ∧ (s.ide.bufs b).valid = false ∧ s.refcnt b = 0)
  unique : ∀ b b', D (s.ide.bufs b).dev → keyOf (s.ide.bufs b) = keyOf (s.ide.bufs b') → b = b'
  asked : ∀ p k b, (s.pos p).asks = some (k, b) → keyOf (s.ide.bufs b) = k
  dirty : ∀ b, (s.ide.bufs b).dirty = true → (s.ide.bufs b).valid = true
  filled : ∀ b p, s.owner b = some p → (s.pos p).fills ≠ some b → (s.ide.bufs b).valid = true
  data : ∀ b, (s.ide.bufs b).valid = true →
    (s.ide.bufs b).data = lastWrite orig s.events (keyOf (s.ide.bufs b))
  clean : ∀ b, D (s.ide.bufs b).dev → (s.ide.bufs b).dirty = false →
    (keyOf (s.ide.bufs b)).onDisk s.ide.disk = lastWrite orig s.events (keyOf (s.ide.bufs b))
  absent : ∀ k, D k.dev → (∀ b, keyOf (s.ide.bufs b) ≠ k) →
    k.onDisk s.ide.disk = lastWrite orig s.events k
  noSync : ∀ p, (s.pos p).inSync = false
  trace : Consistent orig s.events

theorem Pos.syncHolds_of_not {x : Pos} (h : x.inSync = false) : x.syncHolds ≠ some b := by
  intro he
  cases x with
  | syncing a rest | syncWriting a rest => cases h
  | _ => cases he

section

variable {D : Nat → Prop} {orig : Key → Block} {s t : Cache P} {p : P} {y : Pos}

/-- Two blocks of the devices that are not the same are not at the same place on the disk. -/
theorem Drives.apart (hD : Drives D) {k' : Key} (hk : D k.dev) (hk' : D k'.dev) (hne : k ≠ k') :
    ¬ (decide (k.dev % 2 = 1) = decide (k'.dev % 2 = 1) ∧ k.blockno = k'.blockno) := by
  rintro ⟨hdrive, hblock⟩
  refine hne ?_
  have hmod : k.dev % 2 = k'.dev % 2 := by
    have := decide_eq_decide.mp hdrive
    omega
  have hdev := hD.inj k.dev k'.dev hk hk' hmod
  cases k
  cases k'
  cases hdev
  cases hblock
  rfl

section

variable (h : Faithful D orig s)
include h

theorem Faithful.returned {data : Block} (hdata : data = lastWrite orig s.events k) :
    Faithful D orig (s.note (.returned k data)) :=
  ⟨h.keys, h.unique, h.asked, h.dirty, h.filled, h.data, h.clean,
    h.absent, h.noSync, hdata, h.trace⟩

theorem Faithful.modify (hvalid : (s.ide.bufs b).valid = true) (hdev : D (s.ide.bufs b).dev)
    (data : Block) : Faithful D orig (s.modify b data) := by
  have hself : (s.modify b data).ide.bufs b = { s.ide.bufs b with data := data, dirty := true } :=
    update_self ..
  have hne : ∀ a, a ≠ b → (s.modify b data).ide.bufs a = s.ide.bufs a :=
    fun a ha => update_of_ne ha ..
  have hkey : ∀ a, keyOf ((s.modify b data).ide.bufs a) = keyOf (s.ide.bufs a) := by
    intro a
    by_cases hab : a = b
    · rw [hab, hself]
      rfl
    · rw [hne a hab]
  have hdevs : ∀ a, ((s.modify b data).ide.bufs a).dev = (s.ide.bufs a).dev :=
    fun a => congrArg Key.dev (hkey a)
  have hvalids : ∀ a, ((s.modify b data).ide.bufs a).valid = (s.ide.bufs a).valid := by
    intro a
    by_cases hab : a = b
    · rw [hab, hself]
    · rw [hne a hab]
  have hother : ∀ k, k ≠ keyOf (s.ide.bufs b) →
      lastWrite orig (s.modify b data).events k = lastWrite orig s.events k :=
    fun k hk => if_neg (fun he => hk he.symm)
  refine ⟨fun a => ?_, fun a a' => ?_, fun q k a hq => ?_, fun a ha => ?_,
    fun a q hq hnf => ?_, fun a ha => ?_,
    fun a hD hclean => ?_, fun k hD hk => ?_, h.noSync, h.trace⟩
  · rw [hkey, hdevs, hvalids]
    exact h.keys a
  · rw [hkey, hkey, hdevs]
    exact h.unique a a'
  · rw [hkey]
    exact h.asked q k a hq
  · rw [hvalids]
    by_cases hab : a = b
    · rw [hab]
      exact hvalid
    · rw [hne a hab] at ha
      exact h.dirty a ha
  · rw [hvalids]
    exact h.filled a q hq hnf
  · rw [hkey]
    rw [hvalids] at ha
    by_cases hab : a = b
    · subst hab
      rw [hself]
      exact (if_pos rfl).symm
    rw [hne a hab, hother]
    · exact h.data a ha
    · exact fun he => hab (h.unique b a hdev he.symm).symm
  · have hab : a ≠ b := by
      rintro rfl
      rw [hself] at hclean
      cases hclean
    rw [hne a hab] at hclean hD ⊢
    rw [hother _ (fun he => hab (h.unique b a hdev he.symm).symm)]
    exact h.clean a hD hclean
  · have hk' : ∀ a, keyOf (s.ide.bufs a) ≠ k := fun a => by
      rw [← hkey a]
      exact hk a
    rw [hother k (hk' b).symm]
    exact h.absent k hD hk'

theorem Faithful.recycle (hk : D k.dev) (hnone : ∀ a, keyOf (s.ide.bufs a) ≠ k)
    (hclean : (s.ide.bufs b).dirty = false) (howner : s.owner b = none)
    (hasks : ∀ p k', (s.pos p).asks ≠ some (k', b)) :
    Faithful D orig (s.recycle k b) := by
  have hself : (s.recycle k b).ide.bufs b =
      { s.ide.bufs b with dev := k.dev, blockno := k.blockno, valid := false, dirty := false } :=
    update_self ..
  have hselfKey : keyOf ((s.recycle k b).ide.bufs b) = k := by
    rw [hself]
    rfl
  have hne : ∀ a, a ≠ b → (s.recycle k b).ide.bufs a = s.ide.bufs a :=
    fun a ha => update_of_ne ha ..
  refine ⟨fun a => ?_, fun a a' hD hkey => ?_, fun q k' a hq => ?_,
    fun a ha => ?_, fun a q hq hnf => ?_, fun a ha => ?_,
    fun a hD hcl => ?_, fun k' hD hk' => ?_, h.noSync, h.trace⟩
  · by_cases hab : a = b
    · rw [hab, hself]
      exact .inl hk
    · rw [hne a hab, show (s.recycle k b).refcnt a = s.refcnt a from update_of_ne hab ..]
      exact h.keys a
  · by_cases hab : a = b
    · by_cases hab' : a' = b
      · rw [hab, hab']
      · rw [hab, hselfKey, hne a' hab'] at hkey
        exact absurd hkey.symm (hnone a')
    rw [hne a hab] at hD hkey
    by_cases hab' : a' = b
    · rw [hab', hselfKey] at hkey
      exact absurd hkey (hnone a)
    · rw [hne a' hab'] at hkey
      exact h.unique a a' hD hkey
  · have hab : a ≠ b := by
      rintro rfl
      exact hasks q k' hq
    rw [hne a hab]
    exact h.asked q k' a hq
  · have hab : a ≠ b := by
      rintro rfl
      rw [hself] at ha
      cases ha
    rw [hne a hab] at ha ⊢
    exact h.dirty a ha
  · have hab : a ≠ b := by
      rintro rfl
      have : s.owner a = some q := hq
      rw [howner] at this
      cases this
    rw [hne a hab]
    exact h.filled a q hq hnf
  · have hab : a ≠ b := by
      rintro rfl
      rw [hself] at ha
      cases ha
    rw [hne a hab] at ha ⊢
    exact h.data a ha
  · by_cases hab : a = b
    · rw [hab, hselfKey]
      exact h.absent k hk hnone
    · rw [hne a hab] at hD hcl ⊢
      exact h.clean a hD hcl
  · -- the block the buffer was for before is up to date on the disk
    by_cases hold : keyOf (s.ide.bufs b) = k'
    · have hdev : D (s.ide.bufs b).dev := by
        rw [← hold] at hD
        exact hD
      have := h.clean b hdev hclean
      rw [hold] at this
      exact this
    refine h.absent k' hD (fun a => ?_)
    by_cases hab : a = b
    · rw [hab]
      exact hold
    · have := hk' a
      rwa [hne a hab] at this

theorem Faithful.onDisk (hbufs : ide.bufs = s.ide.bufs)
    (hclean : ∀ b, D (s.ide.bufs b).dev → (s.ide.bufs b).dirty = false →
      (keyOf (s.ide.bufs b)).onDisk ide.disk = lastWrite orig s.events (keyOf (s.ide.bufs b)))
    (habsent : ∀ k, D k.dev → (∀ b, keyOf (s.ide.bufs b) ≠ k) →
      k.onDisk ide.disk = lastWrite orig s.events k) :
    Faithful D orig { s with ide := ide } := by
  cases ide
  cases hbufs
  exact ⟨h.keys, h.unique, h.asked, h.dirty, h.filled, h.data, hclean, habsent, h.noSync, h.trace⟩

theorem Faithful.complete (hD : Drives D) (hb : D (s.ide.bufs b).dev)
    (hbufs : ide.bufs = s.ide.bufs) (hdisk : ide.disk = (s.ide.pending b).exec s.ide.disk) :
    Faithful D orig { s with ide := ide } := by
  have hsame : ∀ k, D k.dev → k ≠ keyOf (s.ide.bufs b) ∨ (s.ide.bufs b).dirty = false →
      k.onDisk ide.disk = k.onDisk s.ide.disk := by
    intro k hk hor
    rw [hdisk]
    cases hdirty : (s.ide.bufs b).dirty with
    | false => rw [Ide.Request.exec_clean hdirty]
    | true =>
      have hne : k ≠ keyOf (s.ide.bufs b) := hor.resolve_right (by rw [hdirty]; decide)
      rw [Ide.Request.exec_dirty hdirty]
      exact if_neg (hD.apart hk hb hne)
  refine h.onDisk hbufs (fun a ha hcl => ?_) fun k hk hnone => ?_
  · rw [hsame _ ha]
    · exact h.clean a ha hcl
    · by_cases hab : a = b
      · rw [← hab]
        exact .inr hcl
      · exact .inl (fun he => hab (h.unique a b ha he))
  · rw [hsame k hk (.inl (hnone b).symm)]
    exact h.absent k hk hnone

/-- The interrupt finishes the head of the queue: a dirty buffer is on the disk now, a clean one is
    filled. -/
theorem Faithful.interrupt (hb : D (s.ide.bufs b).dev)
    (hdisk : ide.disk = s.ide.disk)
    (hbufs : ide.bufs = update s.ide.bufs b
      ((s.ide.bufs b).finish (s.ide.disk (s.ide.bufs b).drive (s.ide.bufs b).blockno)))
    (hdirty : (s.ide.bufs b).dirty = true →
      s.ide.disk (s.ide.bufs b).drive (s.ide.bufs b).blockno = (s.ide.bufs b).data) :
    Faithful D orig { s with ide := ide } := by
  have hself : ide.bufs b =
      (s.ide.bufs b).finish (s.ide.disk (s.ide.bufs b).drive (s.ide.bufs b).blockno) := by
    rw [hbufs, update_self]
  have hne : ∀ a, a ≠ b → ide.bufs a = s.ide.bufs a := fun a ha => by rw [hbufs, update_of_ne ha]
  have hkey : ∀ a, keyOf (ide.bufs a) = keyOf (s.ide.bufs a) := by
    intro a
    by_cases hab : a = b
    · rw [hab, hself]
      rfl
    · rw [hne a hab]
  have hdevs : ∀ a, (ide.bufs a).dev = (s.ide.bufs a).dev := fun a => congrArg Key.dev (hkey a)
  -- the block of the buffer, on the disk and in the buffer
  have hblock : (keyOf (s.ide.bufs b)).onDisk s.ide.disk =
      lastWrite orig s.events (keyOf (s.ide.bufs b)) := by
    cases hd : (s.ide.bufs b).dirty with
    | true => exact (hdirty hd).trans (h.data b (h.dirty b hd))
    | false => exact h.clean b hb hd
  have hdata : (ide.bufs b).data = lastWrite orig s.events (keyOf (s.ide.bufs b)) := by
    rw [hself, Ide.Buf.finish]
    split
    · rename_i hd
      exact h.data b (h.dirty b hd)
    · exact hblock
  have hvalid : ∀ a, (s.ide.bufs a).valid = true → (ide.bufs a).valid = true := by
    intro a ha
    by_cases hab : a = b
    · rw [hab, hself]
      rfl
    · rw [hne a hab]
      exact ha
  refine ⟨fun a => ?_, fun a a' => ?_, fun q k a hq => ?_, fun a ha => ?_,
    fun a q hq hnf => hvalid a (h.filled a q hq hnf),
    fun a ha => ?_, fun a ha hcl => ?_, fun k hk hnone => ?_, h.noSync, h.trace⟩
  · rw [hkey, hdevs]
    by_cases hab : a = b
    · rw [hab]
      exact .inl hb
    · rw [hne a hab]
      exact h.keys a
  · rw [hkey, hkey, hdevs]
    exact h.unique a a'
  · rw [hkey]
    exact h.asked q k a hq
  · have hab : a ≠ b := by
      rintro rfl
      rw [hself] at ha
      cases ha
    rw [hne a hab] at ha ⊢
    exact h.dirty a ha
  · rw [hkey]
    by_cases hab : a = b
    · rw [hab]
      exact hdata
    · rw [hne a hab] at ha ⊢
      exact h.data a ha
  · rw [hkey, hdisk]
    by_cases hab : a = b
    · rw [hab]
      exact hblock
    · rw [hne a hab] at ha hcl
      exact h.clean a ha hcl
  · rw [hdisk]
    exact h.absent k hk (fun a => by rw [← hkey a]; exact hnone a)

end

variable [DecidableEq P]

theorem Faithful.move (h : Faithful D orig s) (hpos : t.pos = update s.pos p y)
    (hbufs : t.ide.bufs = s.ide.bufs)
    (hdisk : t.ide.disk = s.ide.disk) (hevents : t.events = s.events)
    (hkeys : ∀ b, D (s.ide.bufs b).dev ∨ (s.refcnt b = 0 → t.refcnt b = 0))
    (hasked : ∀ k b, y.asks = some (k, b) → keyOf (s.ide.bufs b) = k)
    (howner : ∀ b q, t.owner b = some q → s.owner b = some q ∨ (q = p ∧ y.fills = some b))
    (hfilled : ∀ b, (s.pos p).fills = some b → y.fills = some b ∨ (s.ide.bufs b).valid = true)
    (hsync : y.inSync = false) : Faithful D orig t := by
  refine ⟨fun b => ?_, ?_, fun q k b hq => ?_, ?_, fun b q hq hnf => ?_,
    ?_, ?_, ?_, fun q => ?_, ?_⟩
  · rw [hbufs]
    rcases h.keys b with hD | ⟨hkey, hval, href⟩
    · exact .inl hD
    · exact (hkeys b).imp_right (fun hz => ⟨hkey, hval, hz href⟩)
  · rw [hbufs]
    exact h.unique
  · rw [hbufs]
    by_cases hqp : q = p
    · rw [hqp, pos_move_self hpos] at hq
      exact hasked k b hq
    · rw [pos_move_ne hpos hqp] at hq
      exact h.asked q k b hq
  · rw [hbufs]
    exact h.dirty
  · rw [hbufs]
    rcases howner b q hq with hold | ⟨rfl, hfills⟩
    · by_cases hqp : q = p
      · subst hqp
        rw [pos_move_self hpos] at hnf
        by_cases hf : (s.pos q).fills = some b
        · exact (hfilled b hf).resolve_left hnf
        · exact h.filled b q hold hf
      · rw [pos_move_ne hpos hqp] at hnf
        exact h.filled b q hold hnf
    · rw [pos_move_self hpos] at hnf
      exact absurd hfills hnf
  · rw [hbufs, hevents]
    exact h.data
  · rw [hbufs, hdisk, hevents]
    exact h.clean
  · rw [hbufs, hdisk, hevents]
    exact h.absent
  · by_cases hqp : q = p
    · rw [hqp, pos_move_self hpos]
      exact hsync
    · rw [pos_move_ne hpos hqp]
      exact h.noSync q
  · rw [hevents]
    exact h.trace

end

/-! ## Steps -/

/-- The devices a run uses; `sync` is not part of it. -/
def Act.Uses (D : Nat → Prop) : Act P → Prop
  | .read _ k => D k.dev
  | .sync _ => False
  | _ => True

structure Sound [Fintype P] (D : Nat → Prop) (d : Disk) (s : Cache P) : Prop where
  locks : Locks s
  listed : ∃ l, Listed s.links l
  queue : ∃ q, Ide.Queue d s.ide q
  faithful : Faithful D (fun k => k.onDisk d) s

namespace Sound

variable [Fintype P] {D : Nat → Prop} {d : Disk} {s t : Cache P} {p : P} {b : BufId}

section

variable (h : Sound D d s)
include h

theorem counted (hb : s.owner b = some p) : 1 ≤ s.refcnt b :=
  h.locks.counted hb (Pos.syncHolds_of_not (h.faithful.noSync p))

theorem counted_of_counts (hp : (s.pos p).counts = some b) : 1 ≤ s.refcnt b := by
  have hcount := h.locks.count b
  have hle := le_sum (Finset.mem_univ p) (fun q => (s.pos q).refs b)
  rw [Pos.refs_of_counts hp] at hle
  omega

theorem counted_of_asks (hp : (s.pos p).asks = some (k, b)) : 1 ≤ s.refcnt b := by
  cases hpos : s.pos p with
  | locking k' b' =>
    rw [hpos] at hp
    cases hp
    exact h.counted_of_counts (by rw [hpos]; rfl)
  | gotten k' b' | fetching k' b' =>
    rw [hpos] at hp
    cases hp
    exact h.counted (h.locks.holds p b (by rw [hpos]; rfl))
  | _ =>
    rw [hpos] at hp
    cases hp

theorem dev_of_counted (hb : 1 ≤ s.refcnt b) : D (s.ide.bufs b).dev := by
  refine (h.faithful.keys b).resolve_right ?_
  rintro ⟨-, -, hz⟩
  omega

theorem dev_of_inCall (hb : s.ide.inCall b = true) : D (s.ide.bufs b).dev := by
  obtain ⟨q, hq⟩ := (h.locks.waits b).mp hb
  exact h.dev_of_counted (h.counted (h.locks.holds q b (Pos.holds_of_waits hq)))

theorem notInCall (hb : s.refcnt b = 0) : s.ide.inCall b = false := by
  by_contra hne
  obtain ⟨q, hq⟩ := (h.locks.waits b).mp (by simpa using hne)
  have := h.counted (h.locks.holds q b (Pos.holds_of_waits hq))
  omega

theorem idle_holds (hp : s.pos p = .idle) (hb : s.owner b = some p) :
    (s.ide.bufs b).valid = true ∧ s.ide.inCall b = false := by
  refine ⟨h.faithful.filled b p hb (by rw [hp]; exact nofun), ?_⟩
  by_contra hne
  obtain ⟨q, hq⟩ := (h.locks.waits b).mp (by simpa using hne)
  have howner := h.locks.holds q b (Pos.holds_of_waits hq)
  rw [hb] at howner
  cases howner
  rw [hp] at hq
  cases hq

end

variable [DecidableEq P]

theorem read (h : Sound D d s) (hk : D k.dev) (hidle : s.pos p = .idle)
    (ht : s.bufferGet p k = .next t) (hlocks : Locks t) : Sound D d t := by
  obtain ⟨l, hl⟩ := h.listed
  obtain ⟨q, hq⟩ := h.queue
  obtain ⟨b, hpos, -, -, href, ⟨hfound, rfl⟩ | ⟨hnone, hzero, hclean, rfl⟩⟩ := bufferGet_cases ht
  · have hkey : keyOf (s.ide.bufs b) = k := by simpa using search_some hfound
    refine ⟨hlocks, ⟨l, hl⟩, ⟨q, hq⟩,
      h.faithful.move hpos rfl rfl rfl (fun a => ?_) (fun k' a ha => ?_)
      (fun _ _ => .inl) (fun a ha => by rw [hidle] at ha; cases ha) rfl⟩
    · by_cases hab : a = b
      · rw [hab]
        have : D (keyOf (s.ide.bufs b)).dev := by rw [hkey]; exact hk
        exact .inl this
      · exact .inr (fun hz => by rw [href, update_of_ne hab]; exact hz)
    · cases ha
      exact hkey
  · have habsent : ∀ a, keyOf (s.ide.bufs a) ≠ k := by
      intro a ha
      rw [Cache.cached, search_eq hl.circle.forth hl.length.le] at hnone
      have := List.find?_eq_none.mp hnone a (hl.mem a)
      exact this (by simpa using ha)
    have howner : s.owner b = none := by
      by_contra hne
      obtain ⟨o, ho⟩ := Option.ne_none_iff_exists'.mp hne
      have := h.counted ho
      omega
    have hasks : ∀ o k', (s.pos o).asks ≠ some (k', b) := by
      intro o k' ho
      have := h.counted_of_asks ho
      omega
    have hrec := h.faithful.recycle hk habsent hclean howner hasks
    refine ⟨hlocks, ⟨l, hl⟩, ⟨q, hq.change (h.notInCall hzero) _⟩, hrec.move rfl rfl rfl rfl
      (fun _ => .inr id) (fun k' a ha => ?_) (fun _ _ => .inl)
      (fun a ha => by rw [show (s.recycle k b).pos p = _ from hidle] at ha; cases ha) rfl⟩
    cases ha
    exact congrArg keyOf (update_self b _ s.ide.bufs)

theorem callIde (h : Sound D d s) {x : Pos}
    (hx : ∀ k a, x.asks = some (k, a) → (s.pos p).asks = some (k, a))
    (hfills : ∀ a, (s.pos p).fills = some a → x.fills = some a) (hsync : x.inSync = false)
    (ht : s.callIde p b x = .next t) (hlocks : Locks t) : Sound D d t := by
  obtain ⟨q, hq⟩ := h.queue
  obtain ⟨ide, rfl, hide⟩ := callIde_cases ht
  obtain ⟨hbufs, hdisk, -⟩ := ideDirtyWrite_frame hide
  exact ⟨hlocks, h.listed, ⟨_, hq.request hide⟩, h.faithful.move rfl hbufs hdisk rfl
    (fun _ => .inr id) (fun k a ha => h.faithful.asked p k a (hx k a ha)) (fun _ _ => .inl)
    (fun a ha => .inl (hfills a ha)) hsync⟩

omit [DecidableEq P] in
/-- A call of the driver goes on.  If it returns, `done` follows with the buffer valid. -/
theorem resumeIde (h : Sound D d s) {done : Cache P → Cache P}
    (hdone : ∀ ide : Ide.Sys, (done { s with ide := ide }).links = s.links ∧
      (done { s with ide := ide }).ide = ide)
    (hfaith : ∀ ide : Ide.Sys, ide.bufs = s.ide.bufs → ide.disk = s.ide.disk →
      (s.ide.bufs b).valid = true → Faithful D (fun k => k.onDisk d) (done { s with ide := ide }))
    (ht : s.resumeIde b done = .next t) (hlocks : Locks t) : Sound D d t := by
  obtain ⟨q, hq⟩ := h.queue
  obtain ⟨ide, hide, ⟨hbufs, hdisk⟩, ⟨rfl, -⟩ | ⟨rfl, hfin, -⟩⟩ := resumeIde_cases ht
  · refine ⟨hlocks, h.listed, ⟨_, hq.resume hide⟩, ?_⟩
    exact h.faithful.onDisk hbufs (by rw [hdisk]; exact h.faithful.clean)
      (by rw [hdisk]; exact h.faithful.absent)
  have hvalid : (s.ide.bufs b).valid = true := by
    rw [Ide.Buf.finished, Bool.and_eq_true] at hfin
    exact hfin.1
  refine ⟨hlocks, by rw [(hdone ide).1]; exact h.listed, ⟨q, ?_⟩, hfaith ide hbufs hdisk hvalid⟩
  rw [(hdone ide).2]
  exact hq.resume hide

theorem giveBack (h : Sound D d s) (hp : (s.pos p).asks = some (k, b))
    (hfills : ∀ a, (s.pos p).fills = some a → a = b)
    (hvalid : (s.ide.bufs b).valid = true) (hbufs : ide.bufs = s.ide.bufs)
    (hdisk : ide.disk = s.ide.disk) :
    Faithful D (fun k => k.onDisk d) (Cache.giveBack { s with ide := ide } p k b) := by
  have hkey := h.faithful.asked p k b hp
  have hdata : (ide.bufs b).data = lastWrite (fun k => k.onDisk d) s.events k := by
    rw [hbufs, h.faithful.data b hvalid, hkey]
  refine (h.faithful.returned hdata).move rfl hbufs hdisk rfl (fun _ => .inr id)
    nofun (fun _ _ => .inl) (fun a ha => .inr ?_) rfl
  rw [hfills a ha]
  exact hvalid

theorem go (h : Sound D d s) (ht : go s p = .next t) (hlocks : Locks t) : Sound D d t := by
  have hnosync := h.faithful.noSync p
  unfold Bio.go at ht
  split at ht
  · cases ht
  · rename_i k b hpos
    split at ht
    · cases ht
      refine ⟨hlocks, h.listed, h.queue, h.faithful.move rfl rfl rfl rfl
        (fun _ => .inr id) (fun k' a ha => h.faithful.asked p k' a (by rw [hpos]; exact ha))
          (fun a q hq => ?_)
        (fun a ha => by rw [hpos] at ha; cases ha) rfl⟩
      by_cases hab : a = b
      · subst hab
        have : update s.owner a (some p) a = some q := hq
        rw [update_self] at this
        cases this
        exact .inr ⟨rfl, rfl⟩
      · exact .inl ((update_of_ne hab ..).symm.trans hq)
    · cases ht
  · rename_i k b hpos
    split at ht
    · rename_i hvalid
      cases ht
      exact ⟨hlocks, h.listed, h.queue, h.giveBack (by rw [hpos]; rfl)
        (fun a ha => by rw [hpos] at ha; cases ha; rfl) hvalid rfl rfl⟩
    · exact h.callIde (fun k' a ha => by rw [hpos]; exact ha)
        (fun a ha => by rw [hpos] at ha; exact ha) rfl ht hlocks
  · rename_i k b hpos
    exact h.resumeIde (fun ide => ⟨rfl, rfl⟩)
      (fun ide hbufs hdisk hvalid => h.giveBack (by rw [hpos]; rfl)
      (fun a ha => by rw [hpos] at ha; cases ha; rfl) hvalid hbufs hdisk) ht hlocks
  · rename_i b hpos
    exact h.resumeIde (fun ide => ⟨rfl, rfl⟩)
      (fun ide hbufs hdisk _ => h.faithful.move rfl hbufs hdisk rfl
      (fun _ => .inr id) (fun k a ha => by cases ha) (fun _ _ => .inl)
      (fun a ha => by rw [hpos] at ha; cases ha) rfl) ht hlocks
  · rename_i b hpos
    cases ht
    obtain ⟨hdpos, hdowner, hdide, hdref⟩ := dropRef_frame s b
    obtain ⟨l, hl⟩ := h.listed
    refine ⟨hlocks, ?_, ?_,
      h.faithful.move (by rw [Cache.moveTo, hdpos]) (by rw [Cache.moveTo, hdide])
      (by rw [Cache.moveTo, hdide]) ?_ (fun a => .inr (fun hz => ?_)) (fun k a ha => by cases ha)
      (fun a q hq => .inl (by rw [← hdowner]; exact hq))
        (fun a ha => by rw [hpos] at ha; cases ha) rfl⟩
    · show ∃ l, Listed (s.dropRef b).links l
      unfold Cache.dropRef
      split
      · exact ⟨_, hl.move b⟩
      · exact ⟨l, hl⟩
    · show ∃ q, Ide.Queue d (s.dropRef b).ide q
      rw [hdide]
      exact h.queue
    · show (s.dropRef b).events = s.events
      unfold Cache.dropRef
      split
      · rfl
      · rfl
    · show (s.dropRef b).refcnt a = 0
      rw [hdref]
      by_cases hab : a = b
      · subst hab
        rw [update_self, hz]
      · rw [update_of_ne hab, hz]
  · rename_i hpos
    rw [hpos] at hnosync
    cases hnosync
  · rename_i b rest hpos
    rw [hpos] at hnosync
    cases hnosync
  · rename_i b rest hpos
    rw [hpos] at hnosync
    cases hnosync
  · rename_i b rest hpos
    rw [hpos] at hnosync
    cases hnosync

theorem step (hD : Drives D) {a : Act P} (h : Sound D d s) (huses : a.Uses D)
    (ht : step s a = .next t) : Sound D d t := by
  have hlocks := h.locks.step ht
  obtain ⟨q, hq⟩ := h.queue
  unfold Bio.step at ht
  split at ht
  · split at ht
    · rename_i hidle
      exact h.read huses hidle ht hlocks
    · cases ht
  · exact h.go ht hlocks
  · split at ht
    · rename_i hp
      cases ht
      obtain ⟨hvalid, hcall⟩ := h.idle_holds hp.1 hp.2
      exact ⟨hlocks, h.listed, ⟨q, hq.change hcall _⟩,
        h.faithful.modify hvalid (h.dev_of_counted (h.counted hp.2)) _⟩
    · cases ht
  · rename_i p b data
    split at ht
    · rename_i hp
      obtain ⟨hvalid, hcall⟩ := h.idle_holds hp.1 hp.2
      have hmod : Sound D d (s.modify b data) :=
        ⟨h.locks.modify b data, h.listed, ⟨q, hq.change hcall _⟩,
        h.faithful.modify hvalid (h.dev_of_counted (h.counted hp.2)) data⟩
      exact hmod.callIde (fun k a ha => by cases ha)
        (fun a ha =>
          by rw [show (s.modify b data).pos p = _ from hp.1] at ha; cases ha) rfl ht hlocks
    · cases ht
  · rename_i p b
    split at ht
    · rename_i hp
      cases ht
      refine ⟨hlocks, h.listed, h.queue, h.faithful.move rfl rfl rfl rfl (fun _ => .inr id)
        nofun (fun a q hq => ?_) (fun a ha => by rw [hp.1] at ha; cases ha) rfl⟩
      have hne : a ≠ b := by
        rintro rfl
        have : update s.owner a none a = some q := hq
        rw [update_self] at this
        cases this
      exact .inl ((update_of_ne hne ..).symm.trans hq)
    · cases ht
  · exact huses.elim
  · obtain ⟨ide, rfl, hide⟩ := ideStep_cases ht
    obtain ⟨b, q', rfl, -, hide'⟩ := hq.complete_cases hide
    have hbufs : ide.bufs = s.ide.bufs := by rw [hide']
    have hdisk : ide.disk = (s.ide.pending b).exec s.ide.disk := by rw [hide']
    exact ⟨hlocks, h.listed, ⟨_, hq.complete hide⟩,
      h.faithful.complete hD (h.dev_of_inCall (hq.inCall b List.mem_cons_self)) hbufs hdisk⟩
  · obtain ⟨ide, rfl, hide⟩ := ideStep_cases ht
    obtain ⟨b, hb, hdisk, hbufs, hdirty⟩ := hq.interrupt_bufs hide
    exact ⟨hlocks, h.listed, ⟨_, hq.interrupt hide⟩,
      h.faithful.interrupt (h.dev_of_inCall (hq.inCall b hb)) hdisk hbufs hdirty⟩
  · obtain ⟨ide, rfl, hide⟩ := ideStep_cases ht
    cases hide
    exact ⟨hlocks, h.listed, ⟨_, hq.signal _⟩,
      h.faithful.onDisk rfl h.faithful.clean h.faithful.absent⟩

end Sound

/-! ## Runs -/

theorem Cache.Cold.sound [Fintype P] {D : Nat → Prop} (hD : Drives D) {s : Cache P} (h : s.Cold) :
    Sound D s.ide.disk s := by
  have hdev : ∀ b, ¬ D (s.ide.bufs b).dev := fun b hb => by
    have hzero : (s.ide.bufs b).dev = 0 := congrArg Key.dev (h.bufs b).1
    rw [hzero] at hb
    exact hD.pos hb
  refine ⟨h.locks, ⟨_, by rw [h.links]; exact bufferInit_listed⟩, ⟨[], h.ide.queue⟩, ?_⟩
  refine ⟨fun b => .inr ⟨(h.bufs b).1, (h.bufs b).2.1, h.refcnt b⟩,
    fun b _ hb => absurd hb (hdev b), fun p k b hp => ?_,
    fun b hb => ?_, fun b p hb => ?_, fun b hb => ?_, fun b hb =>
      absurd hb (hdev b), fun k _ _ => ?_, fun p => ?_, ?_⟩
  · rw [h.pos p] at hp
    cases hp
  · rw [(h.bufs b).2.2] at hb
    cases hb
  · rw [h.owner b] at hb
    cases hb
  · rw [(h.bufs b).2.1] at hb
    cases hb
  · rw [h.events]
    rfl
  · rw [h.pos p]
    rfl
  · rw [h.events]
    trivial

/-- **The buffer cache is transparent**, for device numbers other than 0 no two of which select the
same drive.  In every state of every run: each `buffer_read` returned what was put in its block
last, or what the disk held at first; no two buffers that are in use or valid are for the same
block; and the list holds every buffer exactly once, in both directions. -/
theorem cache_transparent [Fintype P] [DecidableEq P] {D : Nat → Prop}
    (hD : Drives D) {s t : Cache P} {acts : List (Act P)}
    (hs : s.Cold) (h : Run (fun s a t => a.Uses D ∧ Outcome.rel step s a t) s acts t) :
    Consistent (fun k => k.onDisk s.ide.disk) t.events ∧
      (∀ b b', (0 < t.refcnt b ∨ (t.ide.bufs b).valid = true) →
        keyOf (t.ide.bufs b) = keyOf (t.ide.bufs b') → b = b') ∧
      ∃ l, Circle t.links.next t.links.prev l ∧ l.Perm (List.finRange NBUF) := by
  have hsound : Sound D s.ide.disk t :=
    h.invariant (fun _ _ _ hi hn => hi.step hD hn.1 hn.2) (hs.sound hD)
  obtain ⟨l, hl⟩ := hsound.listed
  refine ⟨hsound.faithful.trace, fun b b' huse hkey => ?_, l, hl.circle, hl.all⟩
  refine hsound.faithful.unique b b' ((hsound.faithful.keys b).resolve_right ?_) hkey
  rintro ⟨-, hval, hz⟩
  rcases huse with hpos | hv
  · omega
  · rw [hval] at hv
    cases hv

def ones : Block := fun _ => 1

/-- A process reads a block, writes it, gives it back and reads the same block of device `dev`. -/
def rereadRun (dev : Nat) : List (Act Bool) :=
  [.read false ⟨1, 5⟩, .go false, .go false, .complete, .interrupt,
    .go false, .write false firstBuf ones, .complete, .interrupt,
    .go false, .release false firstBuf, .go false, .read false ⟨dev, 5⟩,
      .go false, .go false, .complete, .interrupt, .go false]

/-- On device 1, the block just written is in the cache. -/
theorem cache_transparent_reread :
    ∃ t : Cache Bool, Run (fun s a t => a.Uses (· = 1) ∧ Outcome.rel step s a t)
      (coldCache Bool) ((rereadRun 1).take 15) t ∧
      t.events.length = 3 ∧ Consistent (fun k => k.onDisk (coldCache Bool).ide.disk) t.events := by
  have hrun : Run (fun s a t => a.Uses (· = 1) ∧ Outcome.rel step s a t)
      (coldCache Bool) ((rereadRun 1).take 15) _ :=
    .cons ⟨rfl, rfl⟩ (.cons ⟨trivial, rfl⟩
      (.cons ⟨trivial, rfl⟩ (.cons ⟨trivial, rfl⟩ (.cons ⟨trivial, rfl⟩ (.cons ⟨trivial, rfl⟩
      (.cons ⟨trivial, rfl⟩
        (.cons ⟨trivial, rfl⟩ (.cons ⟨trivial, rfl⟩ (.cons ⟨trivial, rfl⟩ (.cons ⟨trivial, rfl⟩
        (.cons ⟨trivial, rfl⟩
          (.cons ⟨rfl, rfl⟩ (.cons ⟨trivial, rfl⟩ (.cons ⟨trivial, rfl⟩ (.nil _)))))))))))))))
  have hD : Drives (· = 1) := ⟨by decide, fun d d' hd hd' _ => hd.trans hd'.symm⟩
  exact ⟨_, hrun, rfl, (cache_transparent hD (coldCache_cold Bool) hrun).1⟩

def lastReturned : List Event → Option (Key × UInt8)
  | .returned k data :: _ => some (k, data ⟨0, by decide⟩)
  | _ => none

theorem not_consistent_of_lastReturned {orig : Key → Block} {es : List Event} {v : UInt8}
    (h : lastReturned es = some (k, v)) (hv : lastWrite orig es.tail k ⟨0, by decide⟩ ≠ v) :
    ¬ Consistent orig es := by
  cases es with
  | nil => cases h
  | cons e es =>
    cases e with
    | modified k' data => cases h
    | returned k' data =>
      cases h
      rintro ⟨hdata, -⟩
      rw [hdata] at hv
      exact hv rfl

/-- **Device numbers of one drive.**  Block 5 of device 3 was never modified and the disk held
zeroes there; after block 5 of device 1 was written, `buffer_read(3, 5)` returns the ones put in the
other block. -/
theorem same_drive :
    ∃ t, Run (Outcome.rel step) (coldCache Bool) (rereadRun 3) t ∧
      ¬ Consistent (fun k => k.onDisk (coldCache Bool).ide.disk) t.events := by
  obtain ⟨t, hrun, hlast, hold⟩ := Outcome.exists_run step (coldCache Bool) (rereadRun 3)
    (fun t => lastReturned t.events = some (⟨3, 5⟩, 1) ∧
      lastWrite (fun k => k.onDisk (coldCache Bool).ide.disk)
        t.events.tail ⟨3, 5⟩ ⟨0, by decide⟩ = 0)
    (by decide +kernel)
  exact ⟨t, hrun, not_consistent_of_lastReturned hlast (by rw [hold]; decide)⟩

end Micro86.Bio
