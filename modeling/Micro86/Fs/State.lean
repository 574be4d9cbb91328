import Micro86.Lib.Exec
import Micro86.Log.System
import Micro86.Fs.Store

/-!
# The state of the file-system code

The blocks as `buffer_read` returns them, the in-memory log header (`log_write` tests it), and
the inode cache.  One device, one operation at a time: sleeping locks have no state here.

* `State.inode` — the inode as the kernel sees it: a valid in-memory copy takes precedence over
  the disk.
* `Icache` — the cache invariant: one slot per inode, valid copies are copies of allocated
  inodes, and the cache is write-through (but for one slot, while its inode is being changed).
-/

namespace Micro86.Fs

open Function

abbrev Ptr := Fin NINODE

structure Slot where
  inum : Nat
  ref : Int
  valid : Bool
  ino : Inode

def Slot.Active (sl : Slot) : Prop := 0 < sl.ref
deriving Decidable

structure State where
  disk : Nat → Block
  lh : List Nat
  outstanding : Nat
  icache : Ptr → Slot

abbrev FsM := Exec State

namespace State

variable (sb : SuperBlock) (s : State)

def dinode (i : Nat) : Inode := readInode (s.disk (sb.iblock i)) (SuperBlock.ioff i)

def cached (i : Nat) : Option Ptr :=
  (List.finRange NINODE).find? fun p =>
    decide ((s.icache p).Active ∧ (s.icache p).inum = i ∧ (s.icache p).valid = true)

def inode (i : Nat) : Inode :=
  match s.cached i with
  | some p => (s.icache p).ino
  | none => s.dinode sb i

def store : Store where
  ino i := if i < sb.ninodes then (s.inode sb i).core else Inode.zero
  used b := if b < sb.size then (s.disk (sb.bblock b)).bit (b % BPB) else true
  blk b := if sb.nmeta ≤ b then s.disk b else ByteBlock.zero

def write (b : Nat) (data : Block) : State :=
  { s with disk := update s.disk b data, lh := Log.absorb s.lh b }

def setSlot (p : Ptr) (sl : Slot) : State := { s with icache := update s.icache p sl }

end State

/-- The cache invariant; `x` is the slot that may be ahead of the disk. -/
structure Icache (sb : SuperBlock) (s : State) (x : Option Ptr) : Prop where
  unique : ∀ p q, (s.icache p).Active → (s.icache q).Active →
    (s.icache p).inum = (s.icache q).inum → p = q
  known : ∀ p, (s.icache p).Active → (s.icache p).valid = true → (s.icache p).inum < sb.ninodes
  live : ∀ p, (s.icache p).Active → (s.icache p).valid = true →
    x ≠ some p → (s.icache p).ino.mode ≠ 0
  through : ∀ p, (s.icache p).Active → (s.icache p).valid = true → x ≠ some p →
    (s.icache p).ino.core = (s.dinode sb (s.icache p).inum).core

namespace Icache

variable {sb : SuperBlock} {s : State} {x : Option Ptr}

section

variable (h : Icache sb s x)
include h

theorem cached_self {p : Ptr} (hp : (s.icache p).Active)
    (hv : (s.icache p).valid = true) : s.cached (s.icache p).inum = some p := by
  cases hc : s.cached (s.icache p).inum with
  | none =>
    have := List.find?_eq_none.mp hc p (List.mem_finRange p)
    simp [hp, hv] at this
  | some q =>
    have hq := List.find?_some hc
    simp only [decide_eq_true_eq] at hq
    rw [h.unique p q hp hq.1 hq.2.1.symm]

theorem inode_self {p : Ptr} (hp : (s.icache p).Active)
    (hv : (s.icache p).valid = true) : s.inode sb (s.icache p).inum = (s.icache p).ino := by
  rw [State.inode, h.cached_self hp hv]

theorem inode_disk {i : Nat} (hi : ∀ p, x = some p → (s.icache p).inum ≠ i) :
    (s.inode sb i).core = (s.dinode sb i).core := by
  unfold State.inode
  split
  · rename_i p hc
    have hq := List.find?_some hc
    simp only [decide_eq_true_eq] at hq
    obtain ⟨ha, rfl, hv⟩ := hq
    exact h.through p ha hv fun hx => hi p hx rfl
  · rfl

theorem store_self {p : Ptr} (hp : (s.icache p).Active)
    (hv : (s.icache p).valid = true) :
    (s.store sb).ino (s.icache p).inum = (s.icache p).ino.core := by
  show (if _ then _ else _) = _
  rw [if_pos (h.known p hp hv), h.inode_self hp hv]

end

theorem store_disk (h : Icache sb s none) (i : Nat) :
    (s.store sb).ino i = if i < sb.ninodes then (s.dinode sb i).core else Inode.zero := by
  show (if _ then _ else _) = _
  rw [h.inode_disk nofun]

theorem store_eq {t : State} (h : Icache sb s none) (h' : Icache sb t none) (hd : t.disk = s.disk) :
    t.store sb = s.store sb := by
  apply Store.ext
  · funext i
    rw [h.store_disk, h'.store_disk]
    unfold State.dinode
    rw [hd]
  · unfold State.store
    rw [hd]
  · unfold State.store
    rw [hd]

theorem store_eq_of_sync {t : State} {p : Ptr} (h : Icache sb s (some p)) (h' : Icache sb t none)
    (hd : t.disk = s.disk) (hp : (s.icache p).Active) (hv : (s.icache p).valid = true)
    (hsync : (s.dinode sb (s.icache p).inum).core = (s.icache p).ino.core) :
    t.store sb = s.store sb := by
  apply Store.ext
  · funext i
    rw [h'.store_disk]
    have hdi : t.dinode sb i = s.dinode sb i := by unfold State.dinode; rw [hd]
    rw [hdi]
    by_cases hi : i = (s.icache p).inum
    · subst hi
      rw [if_pos (h.known p hp hv), h.store_self hp hv, hsync]
    · show _ = if _ then _ else _
      rw [h.inode_disk fun q hq => by cases hq; exact fun he => hi he.symm]
  · unfold State.store
    rw [hd]
  · unfold State.store
    rw [hd]

end Icache

/-! ## In-memory changes -/

namespace State

def setIno (s : State) (p : Ptr) (ip : Inode) : State := s.setSlot p { s.icache p with ino := ip }

variable {s : State} {p q : Ptr}

@[simp] theorem setSlot_self (sl : Slot) : (s.setSlot p sl).icache p = sl := update_self ..

theorem setSlot_ne (sl : Slot) (h : q ≠ p) : (s.setSlot p sl).icache q = s.icache q :=
  update_of_ne h _ _

@[elab_as_elim] theorem setSlot_cases {sl : Slot} {motive : Ptr → Slot → Prop}
    (q : Ptr) (self : motive p sl)
    (of_ne : q ≠ p → motive q (s.icache q)) : motive q ((s.setSlot p sl).icache q) :=
  @update_cases _ _ _ s.icache p sl _ q self of_ne

variable (ip : Inode)
include ip

@[simp] theorem setIno_ino : ((s.setIno p ip).icache p).ino = ip := by
  rw [setIno, setSlot_self]

@[simp] theorem setIno_ref (q : Ptr) : ((s.setIno p ip).icache q).ref = (s.icache q).ref :=
  setSlot_cases q rfl fun _ => rfl

@[simp] theorem setIno_inum (q : Ptr) : ((s.setIno p ip).icache q).inum = (s.icache q).inum :=
  setSlot_cases q rfl fun _ => rfl

@[simp] theorem setIno_valid (q : Ptr) : ((s.setIno p ip).icache q).valid = (s.icache q).valid :=
  setSlot_cases q rfl fun _ => rfl

theorem setIno_ne (h : q ≠ p) : ((s.setIno p ip).icache q).ino = (s.icache q).ino := by
  rw [setIno, setSlot_ne _ h]

@[simp] theorem setIno_active (q : Ptr) :
    ((s.setIno p ip).icache q).Active ↔ (s.icache q).Active := by
  unfold Slot.Active; rw [setIno_ref]

theorem cached_setIno (i : Nat) : (s.setIno p ip).cached i = s.cached i := by
  unfold cached
  congr 1
  funext q
  rw [setIno_inum, setIno_valid]
  simp

end State

section Memory

variable {sb : SuperBlock} {s : State} {p : Ptr} {x : Option Ptr}

variable (h : Icache sb s x)
include h

theorem Icache.setSlot (hx : x = none ∨ x = some p) {sl : Slot} {y : Option Ptr}
    (huniq : sl.Active → ∀ q, q ≠ p → (s.icache q).Active → (s.icache q).inum ≠ sl.inum)
    (hknown : sl.Active → sl.valid = true → sl.inum < sb.ninodes)
    (hsync : sl.Active → sl.valid = true → y ≠ some p →
      sl.ino.mode ≠ 0 ∧ sl.ino.core = (s.dinode sb sl.inum).core) :
    Icache sb (s.setSlot p sl) y := by
  have hxq : ∀ q, q ≠ p → x ≠ some q := fun q hq he => by
    rcases hx with rfl | rfl
    · cases he
    · exact hq (Option.some.inj he).symm
  refine ⟨unique_update h.unique huniq, fun q => ?_, fun q => ?_, fun q => ?_⟩
  · exact State.setSlot_cases q hknown fun _ => h.known q
  · refine State.setSlot_cases q (fun hq hv hne => ?_) fun hqp hq hv _ => ?_
    · exact (hsync hq hv hne).1
    · exact h.live q hq hv (hxq q hqp)
  · refine State.setSlot_cases q (fun hq hv hne => ?_) fun hqp hq hv _ => ?_
    · exact (hsync hq hv hne).2
    · exact h.through q hq hv (hxq q hqp)

theorem Icache.setIno (hx : x = none ∨ x = some p) (ip : Inode) :
    Icache sb (s.setIno p ip) (some p) :=
  h.setSlot hx (fun ha q hq hqa he => hq (h.unique q p hqa ha he))
    (h.known p) fun _ _ => absurd rfl

theorem Icache.store_setIno (hp : (s.icache p).Active)
    (hv : (s.icache p).valid = true) (ip : Inode) :
    (s.setIno p ip).store sb = (s.store sb).setInode (s.icache p).inum ip.core := by
  apply Store.ext
  · funext i
    show (if i < sb.ninodes then ((s.setIno p ip).inode sb i).core else Inode.zero) =
      update (s.store sb).ino (s.icache p).inum ip.core i
    by_cases hi : i = (s.icache p).inum
    · subst hi
      rw [update_self, if_pos (h.known p hp hv), State.inode, State.cached_setIno,
        h.cached_self hp hv]
      simp
    rw [update_of_ne hi]
    show _ = if i < sb.ninodes then (s.inode sb i).core else Inode.zero
    unfold State.inode
    rw [State.cached_setIno]
    split
    · split
      · rename_i q hc
        have hq := List.find?_some hc
        simp only [decide_eq_true_eq] at hq
        rw [State.setIno_ne]
        rintro rfl
        exact hi hq.2.1.symm
      · rfl
    · rfl
  · rfl
  · rfl

end Memory

/-! ## References -/

/-- The references an operation holds, with repetitions, are counted in the slots. -/
def Holds (s : State) (H : List Ptr) : Prop := ∀ p ∈ H, (H.count p : Int) ≤ (s.icache p).ref

theorem Holds.active {s : State} {H : List Ptr} (h : Holds s H) {p : Ptr} (hp : p ∈ H) :
    (s.icache p).Active := by
  have h1 := h p hp
  have h2 := List.count_pos_iff.mpr hp
  unfold Slot.Active
  omega

theorem holds_singleton {s : State} {p : Ptr} (h : (s.icache p).Active) : Holds s [p] := by
  intro q hq
  rw [List.mem_singleton.mp hq, List.count_singleton_self]
  exact h

/-- Held slots stay with their inode, and valid ones keep their copy. -/
def Keeps (s t : State) (H : List Ptr) : Prop := ∀ p ∈ H, (t.icache p).inum = (s.icache p).inum ∧
  ((s.icache p).valid = true → (t.icache p).valid = true ∧ (t.icache p).ino = (s.icache p).ino)

/-! ## Block writes and the logical file system -/

section Writes

variable {sb : SuperBlock} {s t u : State}

/-- The inode cache and every on-disk inode are the same. -/
structure SameInodes (sb : SuperBlock) (s t : State) : Prop where
  icache : t.icache = s.icache
  dinode : ∀ i, i < sb.ninodes → t.dinode sb i = s.dinode sb i

section

variable (h : SameInodes sb s t)
include h

theorem SameInodes.trans (h' : SameInodes sb t u) : SameInodes sb s u :=
  ⟨h'.icache.trans h.icache, fun i hi => (h'.dinode i hi).trans (h.dinode i hi)⟩

theorem SameInodes.keep {x : Option Ptr} (hi : Icache sb s x) : Icache sb t x where
  unique := by rw [h.icache]; exact hi.unique
  known := by rw [h.icache]; exact hi.known
  live := by rw [h.icache]; exact hi.live
  through p hp hv hx := by
    rw [h.icache] at hp hv ⊢
    rw [h.dinode _ (hi.known p hp hv)]
    exact hi.through p hp hv hx

theorem SameInodes.store_ino : (t.store sb).ino = (s.store sb).ino := by
  funext i
  show (if _ then _ else _) = if _ then _ else _
  split
  · rename_i hi
    have hc : t.cached i = s.cached i := by unfold State.cached; rw [h.icache]
    unfold State.inode
    rw [hc, h.icache, h.dinode i hi]
  · rfl

end

theorem sameInodes_write {b : Nat} (data : Block) (hb : sb.bmapstart ≤ b) :
    SameInodes sb s (s.write b data) := by
  refine ⟨rfl, fun i hi => ?_⟩
  have := sb.iblock_lt hi
  show readInode (update s.disk b data _) _ = _
  rw [update_of_ne (by omega)]
  rfl

theorem store_write_data {b : Nat} (data : Block) (hb : sb.nmeta ≤ b) :
    (s.write b data).store sb = (s.store sb).setBlk b data := by
  have hle : sb.bmapstart ≤ b := sb.bmapstart_le_nmeta.trans hb
  apply Store.ext
  · exact (sameInodes_write data hle).store_ino
  · funext c
    show (if c < sb.size then (update s.disk b data (sb.bblock c)).bit (c % BPB) else true) =
      if _ then _ else _
    split
    · rename_i hc
      have := sb.bblock_lt hc
      rw [update_of_ne (by omega)]
    · rfl
  · funext c
    show (if sb.nmeta ≤ c then update s.disk b data c else ByteBlock.zero) =
      update (fun c => if sb.nmeta ≤ c then s.disk c else ByteBlock.zero) b data c
    by_cases hc : c = b
    · subst hc
      simp [hb]
    · simp [hc]

theorem store_write_bitmap {b : Nat} {data : Block} {v : Bool} (hb : b < sb.size)
    (hdata : ∀ j, data.bit j = if j = b % BPB then v else (s.disk (sb.bblock b)).bit j) :
    (s.write (sb.bblock b) data).store sb = (s.store sb).setUsed b v := by
  apply Store.ext
  · exact (sameInodes_write data (sb.bblock_ge b)).store_ino
  · funext c
    show (if c < sb.size then
        (update s.disk (sb.bblock b) data (sb.bblock c)).bit (c % BPB) else true) =
      update (fun c => if c < sb.size then (s.disk (sb.bblock c)).bit (c % BPB) else true) b v c
    by_cases hcb : c = b
    · subst hcb
      simp [hb, hdata]
    rw [update_of_ne hcb]
    split
    · by_cases hk : sb.bblock c = sb.bblock b
      · have hne : c % BPB ≠ b % BPB := by
          unfold SuperBlock.bblock at hk
          rw [BPB_eq] at hk ⊢
          omega
        rw [hk, update_self, hdata, if_neg hne]
      · rw [update_of_ne hk]
    · rfl
  · funext c
    show (if sb.nmeta ≤ c then update s.disk (sb.bblock b) data c else ByteBlock.zero) =
      if _ then _ else _
    split
    · have := sb.bblock_lt hb
      rw [update_of_ne (by omega)]
    · rfl

end Writes

end Micro86.Fs
