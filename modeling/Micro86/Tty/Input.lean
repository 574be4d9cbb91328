import Micro86.Lib.Ring

/-!
# Terminal input

`tty_interrupt` puts characters into a ring of 128 bytes with three 32-bit counters; `ttyread` takes
them out.  Both run with interrupts off, `ttyread` up to its return or to the `sleep` that gives the
lock back, so that each such section is one function here.  Echo, signals and wakeups do not touch
the ring.

* `Line` — the line discipline, on lists of bytes: those that can be read, and those of the line
  being typed.
* `Input.key_refines`, `Input.readLoop_refines` — each section does to the lists what the line
  discipline says.
-/

namespace Micro86.Tty

def INPUT_BUF : Nat := 128

/-- The bits of `c_lflag` that matter for input. -/
structure Mode where
  icanon : Bool
  isig : Bool

structure Input where
  buf : Nat → UInt8
  r : UInt32
  w : UInt32
  e : UInt32

/-- A process and its last call of `ttyread`. -/
inductive Reader where
  | idle
  -- in `sleep`, with `n` bytes to go of `target`
  | asleep (target n : Nat) (got : List UInt8)
  -- `target - n` was returned
  | returned (ret : Nat) (got : List UInt8)
  -- `-EINTR` was returned
  | interrupted
  deriving DecidableEq

/-! ## The code -/

def ctrl (c : Char) : Nat := c.toNat - '@'.toNat

def isSignal (c : Nat) : Prop := c = ctrl 'C' ∨ c = ctrl 'Z' ∨ c = ctrl '\\'
deriving Decidable

def arrowSeq (c : Nat) : List UInt8 :=
  [0x1B, 0x5B, if c = 0xE100 then 0x41 else if c = 0xE101 then 0x42
    else if c = 0xE102 then 0x44 else 0x43]

namespace Input

variable (m : Mode) (t : Input)

def push (c : UInt8) : Input :=
  { t with buf := Function.update t.buf (t.e.toNat % INPUT_BUF) c, e := t.e + 1 }

def commit : Input := { t with w := t.e }

def discard : Input := { t with w := t.r, e := t.r }

def atEnd : Bool := t.e = t.r + UInt32.ofNat INPUT_BUF

def room (n : Nat) : Bool := t.e - t.r < UInt32.ofNat n

def arrow (c : Nat) : Input :=
  let t := (arrowSeq c).foldl (fun t b => if t.room INPUT_BUF then t.push b else t) t
  if !m.icanon || t.atEnd then t.commit else t

def killLoop : Nat → Input → Input
  | 0, t => t
  | fuel + 1, t =>
    if t.e ≠ t.w ∧ t.buf ((t.e - 1).toNat % INPUT_BUF) ≠ 0x0A then
      killLoop fuel { t with e := t.e - 1 } else t

def tab : Input :=
  if t.room (INPUT_BUF - 8) then
    let t := (List.replicate 8 0x20).foldl push t
    if t.atEnd then t.commit else t
  else t

def normalchar (c : Nat) : Input :=
  if c ≠ 0 ∧ t.room INPUT_BUF then
    let t := t.push (UInt8.ofNat c)
    if !m.icanon || c = '\n'.toNat || c = ctrl 'D' || t.atEnd then t.commit else t
  else t

def key (c : Nat) : Input :=
  if 0xE100 ≤ c ∧ c ≤ 0xE103 then t.arrow m c
  else if c = ctrl 'U' then killLoop (t.e - t.w).toNat t
  else if c = ctrl 'C' then if m.isig then t.discard else t
  else if c = ctrl 'Z' then if m.isig then t.discard else t
  else if c = ctrl '\\' then if m.isig then t.discard else t
  else if c = ctrl 'H' ∨ c = 0x7F then
    if m.icanon then if t.e ≠ t.w then { t with e := t.e - 1 } else t
    else t.normalchar m c
  else if c = '\t'.toNat then t.tab
  else t.normalchar m c

/-- The loop of `ttyread` with `n` bytes to go of `target` after the bytes `got`, up to the return
    of the call or to `sleep`; `sig` says that the process is killed or has a signal pending. -/
def readLoop (sig : Bool) (target : Nat) : Nat → Input → List UInt8 → Input × Reader
  | 0, t, got => (t, .returned (target - 0) got)
  | n + 1, t, got =>
    if t.r = t.w then (t, if sig then .interrupted else .asleep target (n + 1) got)
    else
      let c := t.buf (t.r.toNat % INPUT_BUF)
      let t' := { t with r := t.r + 1 }
      if c = 0x04 then
        (if n + 1 < target then { t' with r := t'.r - 1 } else t', .returned (target - (n + 1)) got)
      else if c = 0x0A then (t', .returned (target - n) (got ++ [c]))
      else readLoop sig target n t' (got ++ [c])

end Input

/-! ## The line discipline -/

/-- Bytes that can be read, and bytes of the line being typed. -/
structure Line where
  committed : List UInt8
  pending : List UInt8

namespace Line

variable (m : Mode) (l : Line)

def length : Nat := l.committed.length + l.pending.length

def type (c : UInt8) : Line := { l with pending := l.pending ++ [c] }

def commit : Line := ⟨l.committed ++ l.pending, []⟩

def finish (last : Bool) : Line := if last || l.length = INPUT_BUF then l.commit else l

def kill : Line := { l with pending := l.pending.rdropWhile (· ≠ 0x0A) }

def erase : Line := { l with pending := l.pending.dropLast }

def normalchar (c : Nat) : Line :=
  if c ≠ 0 ∧ l.length < INPUT_BUF then
    (l.type (UInt8.ofNat c)).finish (!m.icanon || c = '\n'.toNat || c = ctrl 'D') else l

def key (c : Nat) : Line :=
  if 0xE100 ≤ c ∧ c ≤ 0xE103 then
    ((arrowSeq c).foldl (fun l b => if l.length < INPUT_BUF then l.type b else l)
      l).finish (!m.icanon)
  else if c = ctrl 'U' then l.kill
  else if isSignal c then if m.isig then ⟨[], []⟩ else l
  else if c = ctrl 'H' ∨ c = 0x7F then if m.icanon then l.erase else l.normalchar m c
  else if c = '\t'.toNat then
    if l.length < INPUT_BUF - 8 then ((List.replicate 8 0x20).foldl type l).finish false else l
  else l.normalchar m c

end Line

/-- What one section of `ttyread`, with `n` bytes to go of `target` after the bytes `got`, does with
    the bytes that can be read: `front` before, `rest` after. -/
inductive Reads (target n : Nat) (got front rest : List UInt8) : Reader → Prop where
  /-- All bytes asked for. -/
  | all (took : List UInt8) (plain : ∀ c ∈ took, c ≠ 0x04 ∧ c ≠ 0x0A)
      (len : took.length = n) (split : front = took ++ rest) :
      Reads target n got front rest (.returned target (got ++ took))
  /-- Up to a newline, which is read. -/
  | newline (took : List UInt8) (plain : ∀ c ∈ took, c ≠ 0x04 ∧ c ≠ 0x0A) (len : took.length < n)
      (split : front = took ++ 0x0A :: rest) : Reads target n
      got front rest (.returned (target - (n - took.length - 1)) (got ++ took ++ [0x0A]))
  /-- Up to `^D`, which stays after other bytes. -/
  | stop (took : List UInt8) (plain : ∀ c ∈ took, c ≠ 0x04 ∧
      c ≠ 0x0A) (len : took.length < n) (after : n - took.length < target)
      (split : front = took ++ rest) (mark : rest.head? = some 0x04) :
      Reads target n got front rest (.returned (target - (n - took.length)) (got ++ took))
  /-- `^D` as the first byte of the call, which is dropped. -/
  | eof (first : target ≤ n) (pos : 0 < n) (split : front = 0x04 :: rest) :
      Reads target n got front rest (.returned (target - n) got)
  /-- No byte is left. -/
  | sleep (took : List UInt8) (plain : ∀ c ∈ took, c ≠ 0x04 ∧
      c ≠ 0x0A) (len : took.length < n) (split : front = took)
      (empty : rest = []) :
      Reads target n got front rest (.asleep target (n - took.length) (got ++ took))
  | interrupted (plain : ∀ c ∈ front, c ≠ 0x04 ∧ c ≠ 0x0A) (len : front.length < n)
      (empty : rest = []) :
      Reads target n got front rest .interrupted

/-! ## Refinement -/

namespace Input

/-- The counters are in order, at most a full ring apart. -/
structure Ok (t : Input) : Prop where
  order : (t.w - t.r).toNat ≤ (t.e - t.r).toNat
  fits : (t.e - t.r).toNat ≤ INPUT_BUF

def line (t : Input) : Line :=
  ⟨window INPUT_BUF t.buf t.r.toNat (t.w - t.r).toNat,
    window INPUT_BUF t.buf t.w.toNat (t.e - t.w).toNat⟩

section

variable {t : Input} {m : Mode} {c : UInt8}
variable {l : Line}

theorem toNat_sub_mod (a b : UInt32) : (a - b).toNat = (a.toNat + 2 ^ 32 - b.toNat) % 2 ^ 32 := by
  have hb := b.toNat_lt
  rw [UInt32.toNat_sub]
  congr 1
  omega

theorem cell_add (a b : UInt32) : (a.toNat + (b - a).toNat) % INPUT_BUF = b.toNat % INPUT_BUF := by
  have ha := a.toNat_lt
  rw [toNat_sub_mod]
  simp only [INPUT_BUF]
  omega

theorem Ok.pending (h : t.Ok) : (t.e - t.w).toNat = (t.e - t.r).toNat - (t.w - t.r).toNat := by
  obtain ⟨horder, hfits⟩ := h
  have hr := t.r.toNat_lt
  have hw := t.w.toNat_lt
  simp only [toNat_sub_mod] at *
  omega

theorem Ok.length (h : t.Ok) : t.line.length = (t.e - t.r).toNat := by
  have hpending := h.pending
  have horder := h.order
  simp only [Line.length, line, window_length]
  omega

theorem Ok.room (h : t.Ok) {n : Nat} (hn : n < 2 ^ 32) : t.room n = true ↔ t.line.length < n := by
  rw [h.length]
  unfold Input.room
  rw [decide_eq_true_iff, UInt32.lt_iff_toNat_lt, UInt32.toNat_ofNat_of_lt' hn]

theorem Ok.atEnd (h : t.Ok) : t.atEnd = true ↔ t.line.length = INPUT_BUF := by
  have hr := t.r.toNat_lt
  have he := t.e.toNat_lt
  rw [h.length]
  unfold Input.atEnd
  rw [decide_eq_true_iff, ← UInt32.toNat_inj, UInt32.toNat_add,
    UInt32.toNat_ofNat_of_lt' (by decide)]
  simp only [toNat_sub_mod, INPUT_BUF] at *
  omega

theorem succ_sub (a b : UInt32) (h : (a - b).toNat < INPUT_BUF) :
    (a + 1 - b).toNat = (a - b).toNat + 1 := by
  have hb := b.toNat_lt
  have hone : (1 : UInt32).toNat = 1 := rfl
  simp only [toNat_sub_mod, UInt32.toNat_add, INPUT_BUF] at *
  omega

theorem pred_sub (a b : UInt32) (h : a ≠ b) : (a - 1 - b).toNat + 1 = (a - b).toNat := by
  have ha := a.toNat_lt
  have hb := b.toNat_lt
  have hne : a.toNat ≠ b.toNat := fun heq => h (UInt32.toNat_inj.mp heq)
  have hone : (1 : UInt32).toNat = 1 := rfl
  simp only [toNat_sub_mod] at *
  omega

theorem sub_succ (a b : UInt32) (h : a ≠ b) : (a - (b + 1)).toNat + 1 = (a - b).toNat := by
  have ha := a.toNat_lt
  have hb := b.toNat_lt
  have hne : a.toNat ≠ b.toNat := fun heq => h (UInt32.toNat_inj.mp heq)
  have hone : (1 : UInt32).toNat = 1 := rfl
  simp only [toNat_sub_mod, UInt32.toNat_add] at *
  omega

/-- The code in `t` does what `l` says. -/
def Refines (t : Input) (l : Line) : Prop := t.Ok ∧ t.line = l

theorem Ok.push (h : t.Ok) (hroom : t.line.length < INPUT_BUF) :
    (t.push c).Refines (t.line.type c) := by
  rw [h.length] at hroom
  have hpending := h.pending
  have horder := h.order
  have hr := succ_sub t.e t.r hroom
  have hw := succ_sub t.e t.w (by omega)
  refine ⟨⟨by simp only [Input.push]; omega, by simp only [Input.push]; omega⟩, ?_⟩
  simp only [line, Line.type, Input.push, Line.mk.injEq]
  refine ⟨?_, ?_⟩
  · -- the cell of `e` lies outside `[r, w)`
    rw [← cell_add t.r t.e]
    refine window_update fun k hk => Ring.cell_ne (by omega) (by omega)
  · rw [hw, ← cell_add t.w t.e]
    exact window_put (by omega)

theorem Ok.commit (h : t.Ok) : t.commit.Refines t.line.commit := by
  have hpending := h.pending
  have horder := h.order
  have hzero : (t.e - t.e).toNat = 0 := by rw [UInt32.sub_self]; rfl
  refine ⟨⟨le_rfl, h.fits⟩, ?_⟩
  simp only [line, Input.commit, Line.commit, hzero, window_zero]
  have hlen : (t.e - t.r).toNat = (t.w - t.r).toNat + (t.e - t.w).toNat := by omega
  rw [hlen, window_add, window_congr (cell_add t.r t.w)]

theorem discard_refines : t.discard.Refines ⟨[], []⟩ := by
  have hzero : (t.r - t.r).toNat = 0 := by rw [UInt32.sub_self]; rfl
  refine ⟨⟨le_rfl, ?_⟩, ?_⟩
  · simp only [discard, hzero]
    exact Nat.zero_le _
  · simp [line, discard]

section

variable (h : t.Refines l)
include h

theorem Refines.finish (last : Bool) :
    (if last || t.atEnd then t.commit else t).Refines (l.finish last) := by
  obtain ⟨hok, rfl⟩ := h
  have hiff : (last || t.atEnd) = true ↔ (last || decide (t.line.length = INPUT_BUF)) = true := by
    rw [Bool.or_eq_true, Bool.or_eq_true, hok.atEnd, decide_eq_true_iff]
  unfold Line.finish
  by_cases hlast : (last || t.atEnd) = true
  · rw [if_pos hlast, if_pos (hiff.mp hlast)]
    exact hok.commit
  · rw [if_neg hlast, if_neg (hlast ∘ hiff.mpr)]
    exact ⟨hok, rfl⟩

theorem Refines.push (hroom : l.length < INPUT_BUF) : (t.push c).Refines (l.type c) := by
  obtain ⟨hok, rfl⟩ := h
  exact hok.push hroom

theorem Refines.room {n : Nat} (hn : n < 2 ^ 32) : t.room n = true ↔ l.length < n := by
  obtain ⟨hok, rfl⟩ := h
  exact hok.room hn

theorem Refines.pushAll (bs : List UInt8) :
    (bs.foldl (fun t b => if t.room INPUT_BUF then t.push b else t) t).Refines
      (bs.foldl (fun l b => if l.length < INPUT_BUF then l.type b else l) l) := by
  induction bs generalizing t l with
  | nil => exact h
  | cons b bs ih =>
    simp only [List.foldl_cons]
    by_cases hroom : l.length < INPUT_BUF
    · rw [if_pos hroom, if_pos ((h.room (by decide)).mpr hroom)]
      exact ih (h.push hroom)
    · rw [if_neg hroom, if_neg (hroom ∘ (h.room (by decide)).mp)]
      exact ih h

theorem Refines.pushes (bs : List UInt8) (hroom : l.length + bs.length ≤ INPUT_BUF) :
    (bs.foldl Input.push t).Refines (bs.foldl Line.type l) := by
  induction bs generalizing t l with
  | nil => exact h
  | cons b bs ih =>
    rw [List.length_cons] at hroom
    have hlen : (l.type b).length = l.length + 1 := by
      simp only [Line.length, Line.type, List.length_append, List.length_singleton]
      omega
    exact ih (h.push (by omega)) (by omega)

theorem Refines.normalchar (n : Nat) : (t.normalchar m n).Refines (l.normalchar m n) := by
  have hroom := h.room (n := INPUT_BUF) (by decide)
  unfold Input.normalchar Line.normalchar
  by_cases hc : n ≠ 0 ∧ l.length < INPUT_BUF
  · rw [if_pos hc, if_pos (by rw [hroom]; exact hc)]
    exact (h.push hc.2).finish _
  · rw [if_neg hc, if_neg (by rw [hroom]; exact hc)]
    exact h

theorem Refines.tab :
    t.tab.Refines (if l.length < INPUT_BUF - 8 then
      ((List.replicate 8 0x20).foldl Line.type l).finish false else l) := by
  have hroom := h.room (n := INPUT_BUF - 8) (by decide)
  unfold Input.tab
  by_cases hlen : l.length < INPUT_BUF - 8
  · rw [if_pos hlen, if_pos (hroom.mpr hlen)]
    have hspaces : l.length + (List.replicate 8 (0x20 : UInt8)).length ≤ INPUT_BUF := by
      rw [List.length_replicate]
      omega
    have hfinish := (h.pushes _ hspaces).finish false
    rw [Bool.false_or] at hfinish
    exact hfinish
  · rw [if_neg hlen, if_neg (hlen ∘ hroom.mp)]
    exact h

end

theorem Ok.back (h : t.Ok) (hne : t.e ≠ t.w) :
    ({ t with e := t.e - 1 } : Input).Ok ∧
      t.line.pending = ({ t with e := t.e - 1 } : Input).line.pending ++
        [t.buf ((t.e - 1).toNat % INPUT_BUF)] := by
  have hpending := h.pending
  have hfits := h.fits
  have hw := pred_sub t.e t.w hne
  have hr := pred_sub t.e t.r (by
    rintro heq
    rw [heq, UInt32.sub_self] at hpending
    rw [heq] at hw
    have hzero : (0 : UInt32).toNat = 0 := rfl
    omega)
  refine ⟨⟨?_, ?_⟩, ?_⟩
  · dsimp only
    omega
  · dsimp only
    omega
  · simp only [line]
    rw [← hw, window_snoc, cell_add]

theorem Refines.erase (h : t.Refines l) :
    (if t.e ≠ t.w then { t with e := t.e - 1 } else t).Refines l.erase := by
  obtain ⟨hok, rfl⟩ := h
  by_cases hne : t.e ≠ t.w
  · rw [if_pos hne]
    obtain ⟨hok', hpending⟩ := hok.back hne
    refine ⟨hok', ?_⟩
    unfold Line.erase
    rw [hpending, List.dropLast_concat]
    rfl
  rw [if_neg hne]
  refine ⟨hok, ?_⟩
  have hzero : t.line.pending = [] := by
    simp only [line, not_not.mp hne, UInt32.sub_self]
    rfl
  unfold Line.erase
  rw [hzero, List.dropLast_nil, ← hzero]

theorem Ok.killLoop (fuel : Nat) (h : t.Ok) (hfuel : (t.e - t.w).toNat ≤ fuel) :
    (killLoop fuel t).Refines t.line.kill := by
  induction fuel generalizing t with
  | zero =>
    have hzero : t.line.pending = [] := by
      simp [line, Nat.le_zero.mp hfuel]
    refine ⟨h, ?_⟩
    simp only [Input.killLoop, Line.kill]
    rw [hzero, List.rdropWhile_nil, ← hzero]
  | succ fuel ih =>
    unfold Input.killLoop
    by_cases hne : t.e ≠ t.w
    · obtain ⟨hok', hpending⟩ := h.back hne
      have hless := pred_sub t.e t.w hne
      by_cases hnewline : t.buf ((t.e - 1).toNat % INPUT_BUF) ≠ 0x0A
      · rw [if_pos ⟨hne, hnewline⟩]
        have hkill : t.line.kill = ({ t with e := t.e - 1 } : Input).line.kill := by
          unfold Line.kill
          rw [hpending, List.rdropWhile_concat_pos _ _ _ (by simpa using hnewline)]
          rfl
        rw [hkill]
        exact ih hok' (by dsimp only; omega)
      rw [if_neg (fun hc => hnewline hc.2)]
      refine ⟨h, ?_⟩
      unfold Line.kill
      rw [hpending, List.rdropWhile_concat_neg _ _ _ (by simpa using hnewline), ← hpending]
    · rw [if_neg (fun hc => hne hc.1)]
      have hzero : t.line.pending = [] := by
        simp only [line, not_not.mp hne, UInt32.sub_self]
        rfl
      refine ⟨h, ?_⟩
      unfold Line.kill
      rw [hzero, List.rdropWhile_nil, ← hzero]

theorem key_refines (h : t.Ok) (c : Nat) : (t.key m c).Refines (t.line.key m c) := by
  have hself : t.Refines t.line := ⟨h, rfl⟩
  have hsignal :
      (if m.isig then t.discard else t).Refines (if m.isig then ⟨[], []⟩ else t.line) := by
    split
    · exact discard_refines
    · exact hself
  unfold key Line.key
  by_cases harrow : 0xE100 ≤ c ∧ c ≤ 0xE103
  · rw [if_pos harrow, if_pos harrow]
    exact (hself.pushAll _).finish _
  rw [if_neg harrow, if_neg harrow]
  by_cases hkill : c = ctrl 'U'
  · rw [if_pos hkill, if_pos hkill]
    exact h.killLoop _ le_rfl
  rw [if_neg hkill, if_neg hkill]
  by_cases hsig : isSignal c
  · rw [if_pos hsig]
    obtain hc | hc | hc := hsig
    · rw [if_pos hc]
      exact hsignal
    · rw [if_neg (by rw [hc]; decide), if_pos hc]
      exact hsignal
    · rw [if_neg (by rw [hc]; decide), if_neg (by rw [hc]; decide), if_pos hc]
      exact hsignal
  rw [if_neg hsig, if_neg (fun hc => hsig (.inl hc)), if_neg (fun hc => hsig (.inr (.inl hc))),
    if_neg (fun hc => hsig (.inr (.inr hc)))]
  by_cases hback : c = ctrl 'H' ∨ c = 0x7F
  · rw [if_pos hback, if_pos hback]
    by_cases hcanon : m.icanon = true
    · rw [if_pos hcanon, if_pos hcanon]
      exact hself.erase
    · rw [if_neg hcanon, if_neg hcanon]
      exact hself.normalchar c
  rw [if_neg hback, if_neg hback]
  by_cases htab : c = '\t'.toNat
  · rw [if_pos htab, if_pos htab]
    exact hself.tab
  · rw [if_neg htab, if_neg htab]
    exact hself.normalchar c

theorem Ok.take (h : t.Ok) (hne : t.r ≠ t.w) :
    ({ t with r := t.r + 1 } : Input).Ok ∧
      t.line = ⟨t.buf (t.r.toNat % INPUT_BUF) :: ({ t with r := t.r + 1 } : Input).line.committed,
        ({ t with r := t.r + 1 } : Input).line.pending⟩ := by
  have horder := h.order
  have hfits := h.fits
  have hw := sub_succ t.w t.r hne.symm
  have he := sub_succ t.e t.r (by
    rintro heq
    rw [heq, UInt32.sub_self] at horder
    have hzero : (0 : UInt32).toNat = 0 := rfl
    omega)
  refine ⟨⟨?_, ?_⟩, ?_⟩
  · dsimp only
    omega
  · dsimp only
    omega
  · simp only [line, Line.mk.injEq, and_true]
    rw [← hw, window_cons]
    congr 1
    refine window_congr ?_
    have hone : (1 : UInt32).toNat = 1 := rfl
    rw [UInt32.toNat_add, hone]
    simp only [INPUT_BUF]
    omega

end

end Input

theorem Reads.cons {target n : Nat} {got front rest : List UInt8}
    {rd : Reader} {c : UInt8} (hc : c ≠ 0x04 ∧ c ≠ 0x0A)
    (hn : n < target) (h : Reads target n (got ++ [c]) front rest rd) :
    Reads target (n + 1) got (c :: front) rest rd := by
  have hplain : ∀ took : List UInt8, (∀ x ∈ took, x ≠ 0x04 ∧ x ≠ 0x0A) →
      ∀ x ∈ c :: took, x ≠ 0x04 ∧ x ≠ 0x0A :=
    fun took htook => List.forall_mem_cons.mpr ⟨hc, htook⟩
  have hleft : ∀ took : List UInt8, n + 1 - (c :: took).length = n - took.length := fun took => by
    rw [List.length_cons, Nat.add_sub_add_right]
  cases h with
  | all took plain len split =>
    rw [List.append_assoc]
    exact .all (c :: took) (hplain took plain) (by rw [List.length_cons, len]) (by rw [split]; rfl)
  | newline took plain len split =>
    rw [← hleft took, List.append_assoc got]
    exact .newline (c :: took) (hplain took plain) (Nat.succ_lt_succ len) (by rw [split]; rfl)
  | stop took plain len after split mark =>
    rw [← hleft took] at after ⊢
    rw [List.append_assoc]
    exact .stop (c :: took) (hplain took plain) (Nat.succ_lt_succ len)
      after (by rw [split]; rfl) mark
  | eof first pos split => omega
  | sleep took plain len split empty =>
    rw [← hleft took, List.append_assoc]
    exact .sleep (c :: took) (hplain took plain) (Nat.succ_lt_succ len) (by rw [split]) empty
  | interrupted plain len empty =>
    exact .interrupted (hplain front plain) (Nat.succ_lt_succ len) empty

theorem Input.readLoop_refines {t : Input} (h : t.Ok) (sig : Bool)
    (target n : Nat) (got : List UInt8) (hn : n ≤ target) :
    ∃ rest, (readLoop sig target n t got).1.Refines ⟨rest, t.line.pending⟩ ∧
      Reads target n got t.line.committed rest (readLoop sig target n t got).2 := by
  induction n generalizing t got with
  | zero =>
    refine ⟨t.line.committed, ⟨h, rfl⟩, ?_⟩
    have hall :
        Reads target 0 got t.line.committed t.line.committed (.returned target (got ++ [])) :=
      .all [] (by simp) rfl rfl
    rw [List.append_nil] at hall
    exact hall
  | succ n ih =>
    unfold readLoop
    by_cases hempty : t.r = t.w
    · rw [if_pos hempty]
      have hcommitted : t.line.committed = [] := by
        simp only [line, hempty, UInt32.sub_self]
        rfl
      refine ⟨[], ⟨h, by rw [← hcommitted]⟩, ?_⟩
      rw [hcommitted]
      cases sig with
      | true => exact .interrupted (by simp) (Nat.succ_pos n) rfl
      | false =>
        have hsleep : Reads target (n + 1) got [] [] (.asleep target (n + 1) (got ++ [])) :=
          .sleep [] (by simp) (Nat.succ_pos n) rfl rfl
        rw [List.append_nil] at hsleep
        exact hsleep
    rw [if_neg hempty]
    obtain ⟨hok, hline⟩ := h.take hempty
    generalize hc : t.buf (t.r.toNat % INPUT_BUF) = c at hline
    by_cases hstop : c = 0x04
    · rw [if_pos hstop]
      by_cases hafter : n + 1 < target
      · -- `^D` is put back
        rw [if_pos hafter]
        have hback : ({ t with r := t.r + 1 - 1 } : Input) = t := by
          rw [UInt32.add_sub_cancel]
        refine ⟨t.line.committed, ?_, ?_⟩
        · rw [hback]
          exact ⟨h, rfl⟩
        · have hread : Reads target (n + 1) got t.line.committed
              t.line.committed (.returned (target - (n + 1)) (got ++ [])) :=
            .stop [] (by simp) (Nat.succ_pos n) hafter rfl (by rw [hline, hstop]; rfl)
          rw [List.append_nil] at hread
          exact hread
      · rw [if_neg hafter]
        refine ⟨_, ⟨hok, ?_⟩, .eof (Nat.not_lt.mp hafter) (Nat.succ_pos n) (by rw [hline, hstop])⟩
        rw [hline]
    rw [if_neg hstop]
    by_cases hnewline : c = 0x0A
    · rw [if_pos hnewline]
      refine ⟨_, ⟨hok, by rw [hline]⟩, ?_⟩
      have hread : Reads target (n + 1) got t.line.committed
          _ (.returned (target - n) (got ++ [] ++ [0x0A])) :=
        .newline [] (by simp) (Nat.succ_pos n) (by rw [hline, hnewline]; rfl)
      rw [List.append_nil] at hread
      rw [hnewline]
      exact hread
    rw [if_neg hnewline]
    obtain ⟨rest, hrest, hreads⟩ := ih hok (got ++ [c]) (Nat.le_of_succ_le hn)
    rw [hline]
    exact ⟨rest, hrest, hreads.cons ⟨hstop, hnewline⟩ hn⟩

end Micro86.Tty
