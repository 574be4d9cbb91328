import Micro86.Ipc.Pipe

/-!
# Sleepers of a pipe

A reader sleeps while the pipe is empty, a writer while it is full.  Each exit of `pipewrite` and
`piperead` has to leave that true or wake the sleepers.  One exit does neither: a killed writer that
has stored bytes and then finds the pipe full returns without `wakeup(&p->nread)`.

* `no_missed_wakeup` — runs in which no such writer goes on.
* `reader_left_asleep` — a run in which one does.
-/

namespace Micro86.Ipc

open Function

variable {P : Type}
variable {killed : Bool} {rest : List UInt8} {p : Pipe} {s : Sys P} {j : P} {chan : Chan}

def Sys.SleepsOn (s : Sys P) (i : P) (chan : Chan) : Prop :=
  s.asleep i = true ∧ (s.pos i).chan = some chan

/-- What a sleeper on a channel waits to change. -/
def Pipe.Waits (p : Pipe) : Chan → Prop
  | .nread => p.empty ∧ p.writeopen = true
  | .nwrite => p.full ∧ p.readopen = true

def Pipe.Open (p : Pipe) : Chan → Prop
  | .nread => p.readopen = true
  | .nwrite => p.writeopen = true

structure Settled (s : Sys P) : Prop where
  waits : ∀ i chan, s.SleepsOn i chan → s.pipe.Waits chan
  inUse : ∀ i chan, (s.pos i).chan = some chan → s.pipe.Open chan
  awake : ∀ i, s.pos i = .away → s.asleep i = false

/-! ## Sections -/

theorem pipewrite_ends (killed : Bool) (rest : List UInt8) (p : Pipe) :
    (pipewrite killed rest p).pipe.readopen = p.readopen ∧
    (pipewrite killed rest p).pipe.writeopen = p.writeopen := by
  induction rest generalizing p with
  | nil => exact ⟨rfl, rfl⟩
  | cons b rest ih =>
    unfold pipewrite
    split
    · split <;> exact ⟨rfl, rfl⟩
    · exact ih (p.push b)

theorem pipewrite_of_full (h : p.full) :
    (pipewrite killed rest p).pipe = p := by
  cases rest with
  | nil => rfl
  | cons b rest =>
    rw [pipewrite, if_pos h]
    split <;> rfl

theorem pipewrite_sleeping {left : List UInt8}
    (h : (pipewrite killed rest p).ending = .sleeping left) :
    (pipewrite killed rest p).pipe.Waits .nwrite := by
  induction rest generalizing p with
  | nil => cases h
  | cons b rest ih =>
    unfold pipewrite at h ⊢
    split at h
    · rename_i hf
      split at h
      · cases h
      rename_i hgo
      rw [if_pos hf, if_neg hgo]
      exact ⟨hf, by simpa using fun hr => hgo (.inl hr)⟩
    rename_i hf
    rw [if_neg hf]
    exact ih h

theorem pipewrite_failed
    (h : (pipewrite killed rest p).ending = .failed) : p.readopen = false ∨ killed = true := by
  induction rest generalizing p with
  | nil => cases h
  | cons b rest ih =>
    unfold pipewrite at h
    split at h
    · split at h
      · assumption
      · cases h
    · exact ih (p := p.push b) h

def Pipe.room (p : Pipe) : Nat := 512 - (p.nwrite - p.nread).toNat

theorem Pipe.room_of_full (h : p.full) : p.room = 0 := by
  rw [Pipe.room, h, UInt32.add_comm, UInt32.add_sub_cancel]
  rfl

theorem Pipe.room_push (b : UInt8) : p.room ≤ (p.push b).room + 1 := by
  have hnext : p.nwrite + 1 - p.nread = p.nwrite - p.nread + 1 := by grind
  have hlt := (p.nwrite - p.nread).toNat_lt
  show 512 - (p.nwrite - p.nread).toNat ≤ 512 - (p.nwrite + 1 - p.nread).toNat + 1
  rw [hnext, UInt32.toNat_add, UInt32.toNat_one]
  omega

theorem pipewrite_of_room (h : rest.length ≤ p.room) :
    (pipewrite killed rest p).ending = .returned := by
  induction rest generalizing p with
  | nil => rfl
  | cons b rest ih =>
    rw [List.length_cons] at h
    have hf : ¬ p.full := fun hf => by
      rw [Pipe.room_of_full hf] at h
      omega
    have hpush := p.room_push b
    rw [pipewrite, if_neg hf]
    exact ih (by omega)

theorem copyOut_ends (n : Nat) (p : Pipe) :
    (copyOut n p).2.readopen = p.readopen ∧ (copyOut n p).2.writeopen = p.writeopen := by
  induction n generalizing p with
  | zero => exact ⟨rfl, rfl⟩
  | succ n ih =>
    unfold copyOut
    split
    · exact ⟨rfl, rfl⟩
    · exact ih p.pop

/-! ## One step -/

/-- The process `i` was killed and has more bytes left than there is room for, in a pipe that is not
full, while a reader sleeps. -/
def Sys.Abandons (s : Sys P) (i : P) (rest : List UInt8) : Prop :=
  s.killed i = true ∧ s.pipe.room < rest.length ∧ ¬ s.pipe.full ∧ ∃ j, s.SleepsOn j .nread

/-- The step is no section of such a writer. -/
def Act.Ok (s : Sys P) : Act P → Prop
  | .write i bytes => ¬ s.Abandons i bytes
  | .resume i => ∀ rest, s.pos i = .writing rest → ¬ s.Abandons i rest
  | _ => True

instance [Fintype P] (s : Sys P) (i : P) (rest : List UInt8) : Decidable (s.Abandons i rest) :=
  inferInstanceAs (Decidable (_ ∧ _ ∧ _ ∧ ∃ _, _ ∧ _))

instance [Fintype P] (s : Sys P) (a : Act P) : Decidable (a.Ok s) :=
  match a with
  | .write i bytes => inferInstanceAs (Decidable (¬ s.Abandons i bytes))
  | .resume i =>
    match h : s.pos i with
    | .writing rest => decidable_of_iff (¬ s.Abandons i rest) (by simp [Act.Ok, h])
    | .away | .reading _ => isTrue (by simp [Act.Ok, h])
  | .read .. | .close _ | .kill _ | .signal _ => isTrue trivial

theorem sleepsOn_wakeup {c : Chan} (h : (s.wakeup c).SleepsOn j chan) :
    chan ≠ c ∧ s.SleepsOn j chan := by
  obtain ⟨ha, hc⟩ := h
  simp only [Sys.wakeup, Bool.and_eq_true, Bool.not_eq_true', decide_eq_false_iff_not] at ha hc
  exact ⟨fun he => ha.2 (by rw [hc, he]), ha.1, hc⟩

theorem waits_after_write
    (h : Settled s) (hj : s.SleepsOn j chan) (hc : chan ≠ .nread) :
    (pipewrite killed rest s.pipe).pipe.Waits chan := by
  have hw := h.waits j chan hj
  cases chan with
  | nread => exact absurd rfl hc
  | nwrite =>
    rw [pipewrite_of_full hw.1]
    exact hw

theorem waits_after_failure {i : P} (h : Settled s)
    (hj : s.SleepsOn j chan) (hfail : (pipewrite (s.killed i) rest s.pipe).ending = .failed)
    (hok : ¬ s.Abandons i rest) : (pipewrite (s.killed i) rest s.pipe).pipe.Waits chan := by
  cases chan with
  | nwrite => exact waits_after_write h hj (by decide)
  | nread =>
    have hopen : s.pipe.readopen = true := h.inUse j .nread hj.2
    have hkilled : s.killed i = true := by
      rcases pipewrite_failed hfail with hclosed | hkilled
      · rw [hopen] at hclosed
        cases hclosed
      · exact hkilled
    have hroom : s.pipe.room < rest.length := by
      by_contra hroom
      rw [pipewrite_of_room (not_lt.mp hroom)] at hfail
      cases hfail
    by_cases hfull : s.pipe.full
    · rw [pipewrite_of_full hfull]
      exact h.waits j .nread hj
    · exact absurd ⟨hkilled, hroom, hfull, j, hj⟩ hok

namespace Settled

variable {s : Sys P} {i : P}

theorem wakeup_asleep {c : Chan} {j : P} (h : (s.wakeup c).asleep j = true) :
    s.asleep j = true := by
  simp only [Sys.wakeup, Bool.and_eq_true] at h
  exact h.1

theorem wakeup_awake {c : Chan} {j : P} (h : s.asleep j = false) :
    (s.wakeup c).asleep j = false := by
  simp [Sys.wakeup, h]

theorem of_others {t : Sys P} (h : Settled s) (hpos : ∀ j, j ≠ i → t.pos j = s.pos j)
    (hends : t.pipe.readopen = s.pipe.readopen ∧ t.pipe.writeopen = s.pipe.writeopen)
    (hasleep : ∀ j, j ≠ i → t.asleep j = true → s.asleep j = true)
    (hwaits : ∀ j chan, t.SleepsOn j chan → t.pipe.Waits chan)
    (hopen : ∀ chan, (t.pos i).chan = some chan → (s.pos i).chan = some chan)
    (hawake : t.pos i = .away → t.asleep i = false) : Settled t := by
  have hOpen : ∀ chan, s.pipe.Open chan → t.pipe.Open chan := by
    intro chan
    cases chan <;> simp [Pipe.Open, hends.1, hends.2]
  refine ⟨hwaits, fun j chan hj => ?_, fun j hj => ?_⟩
  · by_cases hji : j = i
    · subst hji
      exact hOpen chan (h.inUse j chan (hopen chan hj))
    · rw [hpos j hji] at hj
      exact hOpen chan (h.inUse j chan hj)
  · by_cases hji : j = i
    · subst hji
      exact hawake hj
    rw [hpos j hji] at hj
    by_contra hne
    have hold := hasleep j hji (by simpa using hne)
    rw [h.awake j hj] at hold
    cases hold

theorem pipeclose (h : Settled s) {writable : Bool} (hn : s.Enabled (.close writable)) :
    Settled (s.pipeclose writable) := by
  unfold Sys.pipeclose
  cases writable with
  | true =>
    rw [if_pos rfl]
    refine ⟨fun j chan hj => ?_, fun j chan hj => ?_, fun j hj => wakeup_awake (h.awake j hj)⟩
    · obtain ⟨hc, hold⟩ := sleepsOn_wakeup hj
      cases chan with
      | nread => exact absurd rfl hc
      | nwrite => exact absurd hold.2 (hn.2 j)
    · cases chan with
      | nread => exact h.inUse j .nread hj
      | nwrite => exact absurd hj (hn.2 j)
  | false =>
    rw [if_neg (by decide)]
    refine ⟨fun j chan hj => ?_, fun j chan hj => ?_, fun j hj => wakeup_awake (h.awake j hj)⟩
    · obtain ⟨hc, hold⟩ := sleepsOn_wakeup hj
      cases chan with
      | nread => exact absurd hold.2 (hn.2 j)
      | nwrite => exact absurd rfl hc
    · cases chan with
      | nread => exact absurd hj (hn.2 j)
      | nwrite => exact h.inUse j .nwrite hj

variable [DecidableEq P]

variable (h : Settled s)
include h

theorem leave {t : Sys P} (hi : t.asleep i = false) (hpos : t.pos = s.pos)
    (hends : t.pipe.readopen = s.pipe.readopen ∧ t.pipe.writeopen = s.pipe.writeopen)
    (hasleep : ∀ j, t.asleep j = true → s.asleep j = true)
    (hwaits : ∀ j chan, t.SleepsOn j chan → t.pipe.Waits chan) : Settled (t.moveTo i .away) := by
  refine h.of_others (fun j hj => ?_) hends (fun j _ => hasleep j)
    (fun j chan hj => ?_) (fun chan hc => ?_) (fun _ => hi)
  · rw [← hpos]
    exact t.moveTo_pos_ne _ hj
  · obtain ⟨ha, hc⟩ := hj
    by_cases hji : j = i
    · subst hji
      exact absurd (ha.symm.trans hi) (by decide)
    · rw [t.moveTo_pos_ne _ hji] at hc
      exact hwaits j chan ⟨ha, hc⟩
  · rw [t.moveTo_pos_self] at hc
    cases hc

section

variable (hi : s.asleep i = false)
include hi

theorem writeTurn {rest : List UInt8} (hpos : s.pos i = .writing rest)
    (hok : ¬ s.Abandons i rest) : Settled (s.turn i) := by
  have hends := pipewrite_ends (s.killed i) rest s.pipe
  have hkeep :
      ∀ j chan, ((s.store i (pipewrite (s.killed i) rest s.pipe)).wakeup .nread).SleepsOn j chan →
      (pipewrite (s.killed i) rest s.pipe).pipe.Waits chan := fun j chan hj =>
    waits_after_write h (sleepsOn_wakeup hj).2 (sleepsOn_wakeup hj).1
  unfold Sys.turn
  rw [hpos]
  dsimp only
  split
  · exact h.leave (wakeup_awake hi) rfl hends (fun j => wakeup_asleep) hkeep
  · rename_i hfail
    exact h.leave hi rfl hends (fun j hj => hj)
      (fun j chan hj => waits_after_failure h hj hfail hok)
  rename_i left hsleep
  have hself : ∀ t : Sys P, ((t.moveTo i (.writing left)).sleep i).pos i = .writing left :=
    fun t => t.moveTo_pos_self i _
  refine h.of_others (fun j => Sys.moveTo_pos_ne _ _) hends (fun j hj ha => ?_)
    (fun j chan hj => ?_) (fun chan hc => ?_) (fun hc => ?_)
  · rw [Sys.sleep_asleep_ne _ hj] at ha
    exact wakeup_asleep ha
  · obtain ⟨ha, hc⟩ := hj
    by_cases hji : j = i
    · subst hji
      rw [hself] at hc
      cases hc
      exact pipewrite_sleeping hsleep
    · rw [Sys.sleep_asleep_ne _ hji] at ha
      exact hkeep j chan ⟨ha, (congrArg Position.chan (Sys.moveTo_pos_ne _ _ hji)).symm.trans hc⟩
  · rw [hself] at hc
    rw [hpos]
    exact hc
  · rw [hself] at hc
    cases hc

/-- A section of `piperead`.  If a reader sleeps, the pipe is empty and the section takes
    nothing. -/
theorem readTurn {n : Int} (hpos : s.pos i = .reading n) :
    Settled (s.turn i) := by
  unfold Sys.turn piperead
  rw [hpos]
  dsimp only
  by_cases hwait : s.pipe.empty ∧ s.pipe.writeopen = true
  · rw [if_pos hwait]
    split
    · rename_i hret
      split at hret <;> cases hret
    · exact h.leave hi rfl ⟨rfl, rfl⟩ (fun j hj => hj) h.waits
    refine h.of_others (i := i) (fun j _ => rfl) ⟨rfl, rfl⟩ (fun j hj ha => ?_)
      (fun j chan hj => ?_) (fun chan hc => hc) (fun hc => ?_)
    · rwa [s.sleep_asleep_ne hj] at ha
    · obtain ⟨ha, hc⟩ := hj
      by_cases hji : j = i
      · subst hji
        have : (s.pos j).chan = some chan := hc
        rw [hpos] at this
        cases this
        exact hwait
      · rw [s.sleep_asleep_ne hji] at ha
        exact h.waits j chan ⟨ha, hc⟩
    · have : s.pos i = .away := hc
      rw [hpos] at this
      cases this
  · rw [if_neg hwait]
    refine h.leave (wakeup_awake hi) rfl (copyOut_ends n.toNat s.pipe)
      (fun j => wakeup_asleep) (fun j chan hj => ?_)
    obtain ⟨hc, hold⟩ := sleepsOn_wakeup hj
    cases chan with
    | nwrite => exact absurd rfl hc
    | nread => exact absurd (h.waits j .nread hold) hwait

theorem turn
    (hok : ∀ rest, s.pos i = .writing rest → ¬ s.Abandons i rest) : Settled (s.turn i) := by
  cases hpos : s.pos i with
  | away =>
    unfold Sys.turn
    rw [hpos]
    exact h
  | writing rest => exact h.writeTurn hi hpos (hok rest hpos)
  | reading n => exact h.readTurn hi hpos

end

theorem arrive {t : Sys P} (haway : s.pos i = .away) (x : Position)
    (c : Chan) (hx : x.chan = some c)
    (hopen : s.pipe.Open c) (hpipe : t.pipe = s.pipe) (hasleep : t.asleep = s.asleep)
    (hpos : t.pos = s.pos) :
    Settled (t.moveTo i x) := by
  refine ⟨fun j chan hj => ?_, fun j chan hj => ?_, fun j hj => ?_⟩
  · obtain ⟨ha, hc⟩ := hj
    simp only [Sys.moveTo, hpos, hasleep] at ha hc
    by_cases hji : j = i
    · subst hji
      rw [h.awake j haway] at ha
      cases ha
    rw [update_of_ne hji] at hc
    simp only [Sys.moveTo, hpipe]
    exact h.waits j chan ⟨ha, hc⟩
  · simp only [Sys.moveTo, hpos, hpipe] at hj ⊢
    by_cases hji : j = i
    · subst hji
      rw [update_self, hx] at hj
      cases hj
      exact hopen
    · rw [update_of_ne hji] at hj
      exact h.inUse j chan hj
  · simp only [Sys.moveTo, hpos, hasleep] at hj ⊢
    by_cases hji : j = i
    · subst hji
      exact h.awake j haway
    · rw [update_of_ne hji] at hj
      exact h.awake j hj

/-- `kill` wakes a sleeper before its time, which does no harm. -/
theorem signal (i : P) : Settled { s with asleep := update s.asleep i false } := by
  have hold : ∀ j, update s.asleep i false j = true → s.asleep j = true := by
    intro j hj
    by_cases hji : j = i
    · subst hji
      rw [update_self] at hj
      cases hj
    · rwa [update_of_ne hji] at hj
  refine ⟨fun j chan hj => h.waits j chan ⟨hold j hj.1, hj.2⟩, h.inUse, fun j hj => ?_⟩
  by_contra hne
  have := hold j (by simpa using hne)
  rw [h.awake j hj] at this
  cases this

theorem step {a : Act P} {t : Sys P} (hok : a.Ok s) (hn : Next s a t) : Settled t := by
  obtain ⟨hen, rfl⟩ := hn
  cases a with
  | write i bytes =>
    have harrive :
        Settled ({ s with calls := update s.calls i (⟨bytes, [], none⟩ :: s.calls i) }.moveTo i
        (.writing bytes)) :=
      h.arrive hen.1 (.writing bytes) .nwrite rfl hen.2 rfl rfl rfl
    refine harrive.turn (h.awake i hen.1) (fun rest hrest => ?_)
    rw [Sys.moveTo_pos_self] at hrest
    cases hrest
    rintro ⟨hk, hroom, hfull, j, hja, hjc⟩
    -- whoever sleeps on `&p->nread` is another process and slept before
    have hji : j ≠ i := by
      rintro rfl
      rw [Sys.moveTo_pos_self] at hjc
      cases hjc
    rw [Sys.moveTo_pos_ne _ _ hji] at hjc
    exact hok ⟨hk, hroom, hfull, j, hja, hjc⟩
  | read i n =>
    refine (h.arrive hen.1 (.reading n) .nread rfl hen.2 rfl rfl rfl).turn
      (h.awake i hen.1) (fun rest hrest => ?_)
    rw [Sys.moveTo_pos_self] at hrest
    cases hrest
  | resume i => exact h.turn hen hok
  | close writable => exact h.pipeclose hen
  | kill i => exact ⟨h.waits, h.inUse, h.awake⟩
  | signal i => exact h.signal i

end Settled

theorem Sys.Fresh.settled (h : s.Fresh) : Settled s := by
  refine ⟨fun i chan hi => ?_, fun i chan hi => ?_, fun i _ => h.awake i⟩
  · have := hi.1
    rw [h.awake i] at this
    cases this
  · rw [h.away i] at hi
    cases hi

/-! ## Runs -/

/-- **No missed wake-up.**  In every state of every run in which no killed writer abandons a
sleeping reader: who sleeps on `&p->nread` sleeps beside an empty pipe whose write end is open, who
sleeps on `&p->nwrite` beside a full one whose read end is open. -/
theorem no_missed_wakeup [DecidableEq P] {s t : Sys P} {acts : List (Act P)} (hs : s.Fresh)
    (h : Run (fun s a t => a.Ok s ∧ Next s a t) s acts t) (i : P) (hi : t.asleep i = true) :
    ((t.pos i).chan = some .nread → t.pipe.empty ∧ t.pipe.writeopen = true) ∧
      ((t.pos i).chan = some .nwrite → t.pipe.full ∧ t.pipe.readopen = true) := by
  have hset : Settled t := h.invariant (fun _ _ _ hset hn => hset.step hn.1 hn.2) hs.settled
  exact ⟨fun hc => hset.waits i .nread ⟨hi, hc⟩, fun hc => hset.waits i .nwrite ⟨hi, hc⟩⟩

/-- A writer of 513 bytes fills the pipe and sleeps; a reader takes 512 bytes, comes back for one
more and sleeps; the writer is killed, stores its last byte and wakes the reader, which takes it and
sleeps again. -/
def woken : List (Act Bool) :=
  [.write true (List.replicate 513 0), .read false 512, .read false 1,
    .kill true, .resume true, .resume false, .read false 1]

theorem no_missed_wakeup_killed :
    ∃ t, Run (fun s a t => Act.Ok s a ∧ Next s a t) newPipe woken t ∧ t.killed true = true ∧
      t.returned.length = 513 ∧ t.asleep false = true ∧ t.pipe.empty ∧ t.pipe.writeopen = true := by
  obtain ⟨t, hrun, hkilled, hread, hasleep, hchan⟩ :
      ∃ t, Run (fun s a t => Act.Ok s a ∧ Next s a t) newPipe woken t ∧ t.killed true = true ∧
        t.returned.length = 513 ∧ t.asleep false = true ∧ (t.pos false).chan = some .nread :=
    ⟨_, .cons ⟨by decide +kernel, by decide +kernel, rfl⟩ (.cons ⟨trivial, by decide +kernel, rfl⟩
      (.cons ⟨trivial, by decide +kernel, rfl⟩ (.cons ⟨trivial, by decide +kernel, rfl⟩
      (.cons ⟨by decide +kernel, by decide +kernel, rfl⟩
        (.cons ⟨by decide +kernel, by decide +kernel, rfl⟩
      (.cons ⟨trivial, by decide +kernel, rfl⟩ (.nil _))))))), by decide +kernel, by decide +kernel,
      by decide +kernel, by decide +kernel⟩
  obtain ⟨hempty, hopen⟩ := (no_missed_wakeup newPipe_fresh hrun false hasleep).1 hchan
  exact ⟨t, hrun, hkilled, hread, hasleep, hempty, hopen⟩

/-- A writer of 1025 bytes fills the pipe and sleeps; a reader takes 512 bytes, waking the writer,
comes back for one more and sleeps; the writer is killed, fills the pipe again and returns. -/
def abandoned : List (Act Bool) :=
  [.write true (List.replicate 1025 0), .read false 512, .read false 1, .kill true, .resume true]

/-- **A killed writer leaves a reader asleep beside a full pipe.** -/
theorem reader_left_asleep :
    ∃ t, Run Next newPipe abandoned t ∧ t.asleep false = true ∧
      (t.pos false).chan = some .nread ∧ ¬ t.pipe.empty ∧ t.pipe.full ∧ t.pipe.writeopen = true :=
  ⟨_, .cons ⟨by decide +kernel, rfl⟩ (.cons ⟨by decide +kernel, rfl⟩ (.cons ⟨by decide +kernel, rfl⟩
      (.cons ⟨by decide +kernel, rfl⟩ (.cons ⟨by decide +kernel, rfl⟩ (.nil _))))),
    by decide +kernel, by decide +kernel, by decide +kernel, by decide +kernel, by decide +kernel⟩

end Micro86.Ipc
