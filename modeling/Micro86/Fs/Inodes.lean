import Micro86.Fs.Blocks

/-!
# Inodes

`ialloc`, `iupdate`, `iget`, `idup`, `ilock` and `iunlock` of `fs.c`.  `iput` frees the content
and comes with it, in `Micro86.Fs.Content`.

* `iupdate_spec` — `iupdate` writes the in-memory copy through; the file system is the same.
* `iget_spec`, `ilock_spec` — neither changes the file system.
* `ialloc_spec` — a free inode becomes an empty one of the given type.
-/

namespace Micro86.Fs

open Exec Function

def iupdate (sb : SuperBlock) (ip : Ptr) : FsM Unit := do
  let s ← Exec.get
  let inum := (s.icache ip).inum
  let bp ← bufferRead (sb.iblock inum)
  logWrite sb (sb.iblock inum) (writeInode bp (SuperBlock.ioff inum) (s.icache ip).ino)

def iget (inum : Nat) : FsM Ptr := do
  let s ← Exec.get
  match (List.finRange NINODE).find? fun p =>
    decide ((s.icache p).Active ∧ (s.icache p).inum = inum) with
  | some p =>
    Exec.modify (·.setSlot p { s.icache p with ref := (s.icache p).ref + 1 })
    pure p
  | none =>
    match (List.finRange NINODE).find? fun p => decide ((s.icache p).ref = 0) with
    | some p =>
      Exec.modify (·.setSlot p { s.icache p with inum := inum, ref := 1, valid := false })
      pure p
    | none => Exec.panic "iget: no inodes"

def idup (ip : Ptr) : FsM Ptr := do
  Exec.modify fun s => s.setSlot ip { s.icache ip with ref := (s.icache ip).ref + 1 }
  pure ip

def ilock (sb : SuperBlock) (ip : Ptr) : FsM Unit := do
  let s ← Exec.get
  if (s.icache ip).ref < 1 then Exec.panic "ilock"
  else if (s.icache ip).valid = false then do
    let bp ← bufferRead (sb.iblock (s.icache ip).inum)
    let dip := readInode bp (SuperBlock.ioff (s.icache ip).inum)
    Exec.modify (·.setSlot ip { s.icache ip with ino := dip, valid := true })
    if dip.mode = 0 then Exec.panic "ilock: no type" else pure ()
  else pure ()

def iunlock (ip : Ptr) : FsM Unit := do
  let s ← Exec.get
  if (s.icache ip).ref < 1 then Exec.panic "iunlock" else pure ()

/-- Allocate an inode; `now` is what `epoch_mktime` returns. -/
def ialloc (sb : SuperBlock) (now : UInt32) (type : UInt16) : FsM Ptr := do
  let s ← Exec.get
  match (List.range' 1 (sb.ninodes - 1)).find? fun inum => decide ((s.dinode sb inum).mode = 0) with
  | some inum =>
    let bp ← bufferRead (sb.iblock inum)
    logWrite sb (sb.iblock inum) (initInode bp (SuperBlock.ioff inum) type now)
    iget inum
  | none => Exec.panic "ialloc: no inodes"

section Specs

variable {sb : SuperBlock} {s t : State} {p : Ptr} {x : Option Ptr} {H : List Ptr}

/-! ## Writing inodes -/

theorem dinode_write {i : Nat} {data : Block}
    (hdata : ∀ b, b < SuperBlock.ioff i ∨ SuperBlock.ioff i + DINODESIZE ≤ b →
      data.byte b = (s.disk (sb.iblock i)).byte b) {j : Nat} (hj : j ≠ i) :
    (s.write (sb.iblock i) data).dinode sb j = s.dinode sb j := by
  unfold State.dinode
  show readInode (update s.disk (sb.iblock i) data (sb.iblock j)) _ = _
  by_cases hb : sb.iblock j = sb.iblock i
  · rw [hb, update_self]
    refine readInode_congr fun k hk => hdata _ ?_
    have := sb.ioff_disjoint hj hb
    omega
  · rw [update_of_ne hb]

theorem dinode_write_self {i : Nat} {data : Block} :
    (s.write (sb.iblock i) data).dinode sb i = readInode data (SuperBlock.ioff i) := by
  unfold State.dinode
  show readInode (update s.disk (sb.iblock i) data (sb.iblock i)) _ = _
  rw [update_self]

theorem store_write_inode {i : Nat} (hi : i < sb.ninodes) (data : Block) :
    ((s.write (sb.iblock i) data).store sb).used = (s.store sb).used ∧
      ((s.write (sb.iblock i) data).store sb).blk = (s.store sb).blk := by
  have hlt := sb.iblock_lt hi
  have hle := sb.bmapstart_le_nmeta
  constructor
  · funext c
    have := sb.bblock_ge c
    show (if c < sb.size then (update s.disk (sb.iblock i) data (sb.bblock c)).bit (c % BPB)
        else true) = _
    rw [update_of_ne (by omega)]
    rfl
  · funext c
    show (if sb.nmeta ≤ c then update s.disk (sb.iblock i) data c else ByteBlock.zero) =
      if sb.nmeta ≤ c then s.disk c else ByteBlock.zero
    split
    · rw [update_of_ne (by omega)]
    · rfl

theorem free_write_inode {i : Nat} (hi : i < sb.ninodes) (data : Block) :
    (s.write (sb.iblock i) data).free sb = s.free sb := by
  unfold State.free
  rw [(store_write_inode hi data).1]

/-- **`iupdate`** leaves the file system as it is and brings the disk up to date. -/
theorem iupdate_spec (h : Icache sb s x) (hx : x = none ∨ x = some p) (hp : (s.icache p).Active)
    (hv : (s.icache p).valid = true) :
    Spec sb (iupdate sb p) s 1 0 fun _ t => t.store sb = s.store sb ∧ t.icache = s.icache ∧
      Icache sb t (some p) ∧ (t.dinode sb (s.icache p).inum).core = (s.icache p).ino.core ∧
      ((s.icache p).ino.mode ≠ 0 → Icache sb t none) := by
  have hi := h.known p hp hv
  have hbytes : ∀ b, b < SuperBlock.ioff (s.icache p).inum ∨
      SuperBlock.ioff (s.icache p).inum + DINODESIZE ≤ b → _ = _ :=
    fun b hb => byte_writeInode (s.disk (sb.iblock (s.icache p).inum)) (s.icache p).ino hb
  unfold iupdate
  refine Spec.get (Spec.read ?_)
  refine (logWrite_spec (r := 0) (by rw [free_write_inode hi]; exact le_rfl)).mono ?_
  rintro _ t rfl
  have hself :
      ((s.write (sb.iblock (s.icache p).inum) (writeInode (s.disk (sb.iblock (s.icache p).inum))
      (SuperBlock.ioff (s.icache p).inum) (s.icache p).ino)).dinode sb (s.icache p).inum).core =
      (s.icache p).ino.core := by
    rw [dinode_write_self, readInode_writeInode _ _ (SuperBlock.ioff_fits _)]
    rfl
  have hthrough : ∀ q, (s.icache q).Active → (s.icache q).valid = true → q ≠ p →
      (s.icache q).ino.core = ((s.write (sb.iblock (s.icache p).inum) (writeInode
        (s.disk (sb.iblock (s.icache p).inum)) (SuperBlock.ioff (s.icache p).inum)
        (s.icache p).ino)).dinode sb (s.icache q).inum).core := by
    intro q hq hqv hne
    rw [dinode_write hbytes fun he => hne (h.unique q p hq hp he)]
    exact h.through q hq hqv (by rcases hx with rfl | rfl <;> simp [hne.symm])
  have hlive : ∀ q, (s.icache q).Active → (s.icache q).valid = true →
      q ≠ p → (s.icache q).ino.mode ≠ 0 :=
    fun q hq hqv hne => h.live q hq hqv (by rcases hx with rfl | rfl <;> simp [hne.symm])
  refine ⟨?_, rfl, ⟨h.unique, h.known, fun q hq hqv hne => ?_, fun q hq hqv hne => ?_⟩,
      hself, fun hm =>
    ⟨h.unique, h.known, fun q hq hqv _ => ?_, fun q hq hqv _ => ?_⟩⟩
  · apply Store.ext
    · funext j
      show (if j < sb.ninodes then (State.inode sb _ j).core else Inode.zero) = if _ then _ else _
      split
      · unfold State.inode
        show (match s.cached j with | some q => (s.icache q).ino | none => _).core = _
        cases hc : s.cached j with
        | some q => rfl
        | none =>
          have hj : j ≠ (s.icache p).inum := by
            rintro rfl
            rw [h.cached_self hp hv] at hc
            cases hc
          simp [dinode_write hbytes hj]
      · rfl
    · exact (store_write_inode hi _).1
    · exact (store_write_inode hi _).2
  · exact hlive q hq hqv fun he => hne (by rw [he])
  · exact hthrough q hq hqv fun he => hne (by rw [he])
  · by_cases hq' : q = p
    · rw [show ((s.write _ _).icache q) = s.icache q from rfl, hq']
      exact hm
    · exact hlive q hq hqv hq'
  · by_cases hq' : q = p
    · subst hq'
      exact hself.symm
    · exact hthrough q hq hqv hq'

/-! ## The cache -/

inductive IgetTo (s : State) (inum : Nat) : Ptr → State → Prop where
  | hit (p : Ptr) (ha : (s.icache p).Active) (hi : (s.icache p).inum = inum) :
      IgetTo s inum p (s.setSlot p { s.icache p with ref := (s.icache p).ref + 1 })
  | miss (p : Ptr) (hno : ∀ q, (s.icache q).Active → (s.icache q).inum ≠ inum)
      (hz : (s.icache p).ref = 0) :
      IgetTo s inum p (s.setSlot p { s.icache p with inum := inum, ref := 1, valid := false })

theorem iget_spec (inum : Nat) :
    wp (iget inum) (IgetTo s inum) (fun msg => msg = "iget: no inodes" ∧
      ∀ q, (s.icache q).ref ≠ 0) s := by
  unfold iget
  rw [wp_bind, wp_get]
  split
  · rename_i p hf
    have hp := List.find?_some hf
    simp only [decide_eq_true_eq] at hp
    exact IgetTo.hit p hp.1 hp.2
  rename_i hf
  split
  · rename_i p hf'
    have hp := List.find?_some hf'
    simp only [decide_eq_true_eq] at hp
    refine IgetTo.miss p (fun q hq hi => ?_) hp
    have := List.find?_eq_none.mp hf q (List.mem_finRange q)
    simp [hq, hi] at this
  rename_i hf'
  refine ⟨rfl, fun q hq => ?_⟩
  have := List.find?_eq_none.mp hf' q (List.mem_finRange q)
  simp [hq] at this

namespace IgetTo

variable {inum : Nat}

variable (h : IgetTo s inum p t)
include h

theorem disk : t.disk = s.disk := by cases h <;> rfl

theorem inum_eq : (t.icache p).inum = inum := by
  cases h with
  | hit _ hi => rw [State.setSlot_self]; exact hi
  | miss _ _ => rw [State.setSlot_self]

theorem holds (hH : Holds s H) : Holds t (p :: H) := by
  intro q hmem
  rw [List.count_cons]
  by_cases hq : q = p
  · subst hq
    have hcount : (H.count q : Int) ≤ (s.icache q).ref ∨ H.count q = 0 := by
      by_cases hqH : q ∈ H
      · exact .inl (hH q hqH)
      · exact .inr (List.count_eq_zero.mpr hqH)
    cases h with
    | hit ha _ =>
      rw [State.setSlot_self]
      unfold Slot.Active at ha
      simp only [beq_self_eq_true, if_true]
      omega
    | miss _ hz =>
      rw [State.setSlot_self]
      simp only [beq_self_eq_true, if_true]
      omega
  · have hne : (p == q) = false := by simpa using fun he => hq he.symm
    have hqH := (List.mem_cons.mp hmem).resolve_left hq
    rw [hne]
    cases h with
    | hit _ _ | miss _ _ => rw [State.setSlot_ne _ hq]; simpa using hH q hqH

theorem keeps (hH : Holds s H) : Keeps s t H := by
  intro q hq
  have ha := hH.active hq
  cases h with
  | hit _ _ =>
    exact State.setSlot_cases q ⟨rfl, fun hv => ⟨hv, rfl⟩⟩ fun _ => ⟨rfl, fun hv => ⟨hv, rfl⟩⟩
  | miss _ hz =>
    have hqp : q ≠ p := by
      rintro rfl
      unfold Slot.Active at ha
      omega
    rw [State.setSlot_ne _ hqp]
    exact ⟨rfl, fun hv => ⟨hv, rfl⟩⟩

theorem icache (hi : Icache sb s none) : Icache sb t none := by
  cases h with
  | hit ha _ =>
    exact hi.setSlot (.inl rfl) (fun _ q hq hqa he => hq (hi.unique q p hqa ha he))
      (fun _ => hi.known p ha)
      fun _ hv _ => ⟨hi.live p ha hv nofun, hi.through p ha hv nofun⟩
  | miss hno _ =>
    exact hi.setSlot (.inl rfl) (fun _ q _ => hno q) nofun nofun

end IgetTo

structure IlockTo (sb : SuperBlock) (s : State) (p : Ptr) (t : State) : Prop where
  disk : t.disk = s.disk
  valid : (t.icache p).valid = true
  ref : ∀ q, (t.icache q).ref = (s.icache q).ref
  inum : ∀ q, (t.icache q).inum = (s.icache q).inum
  kept : ∀ q, (s.icache q).valid = true → (t.icache q).valid = true ∧
    (t.icache q).ino = (s.icache q).ino
  icache : Icache sb t none

/-- **`ilock`** of a referenced inode: it panics when the inode is free. -/
theorem ilock_spec (h : Icache sb s none) (hp : (s.icache p).Active)
    (hi : (s.icache p).inum < sb.ninodes) : wp (ilock sb p) (fun _ t => IlockTo sb s p t)
      (fun msg => msg = "ilock: no type" ∧ (s.dinode sb (s.icache p).inum).mode = 0) s := by
  unfold ilock
  rw [wp_bind, wp_get, if_neg (by unfold Slot.Active at hp; omega)]
  cases hv : (s.icache p).valid with
  | true =>
    rw [if_neg (by decide), wp_pure]
    exact ⟨rfl, hv, fun _ => rfl, fun _ => rfl, fun _ hq => ⟨hq, rfl⟩, h⟩
  | false =>
    rw [if_pos rfl]
    show wp _ _ _ _
    simp only [wp_bind]
    show wp (if (s.dinode sb (s.icache p).inum).mode = 0 then _ else _) _ _ _
    split
    · rename_i hm
      exact ⟨rfl, hm⟩
    rename_i hm
    rw [wp_pure]
    refine ⟨rfl, by rw [State.setSlot_self], fun q => ?_, fun q => ?_, fun q hq => ?_, ?_⟩
    · exact State.setSlot_cases q rfl fun _ => rfl
    · exact State.setSlot_cases q rfl fun _ => rfl
    · have hqp : q ≠ p := by
        rintro rfl
        rw [hv] at hq
        cases hq
      rw [State.setSlot_ne _ hqp]
      exact ⟨hq, rfl⟩
    · exact h.setSlot (.inl rfl) (fun _ q hq hqa he => hq (h.unique q p hqa hp he))
        (fun _ _ => hi) fun _ _ _ => ⟨hm, rfl⟩

namespace IlockTo

theorem holds (h : IlockTo sb s p t) (hH : Holds s H) :
    Holds t H := fun q hq => by rw [h.ref]; exact hH q hq

theorem keeps (h : IlockTo sb s p t) (H : List Ptr) : Keeps s t H := fun q _ => ⟨h.inum q, h.kept q⟩

end IlockTo

/-! ## Allocation -/

theorem ialloc_spec {now : UInt32} {type : UInt16} (h : Icache sb s none) (hH : Holds s H) :
    wp (ialloc sb now type) (fun p t => ∃ i, 1 ≤ i ∧ i < sb.ninodes ∧
      ((s.store sb).ino i).mode = 0 ∧
        t.store sb = (s.store sb).setInode i { Inode.zero with mode := type } ∧
        (t.icache p).inum = i ∧ Icache sb t none ∧ Holds t (p :: H) ∧ Keeps s t H)
      (fun msg => msg = "ialloc: no inodes" ∨ msg = "iget: no inodes" ∨ Fails sb s 1 0 msg) s := by
  unfold ialloc
  rw [wp_bind, wp_get]
  split
  · rename_i i hf
    have hmem := List.mem_range'_1.mp (List.mem_of_find?_eq_some hf)
    have hz : (s.dinode sb i).mode = 0 := by simpa using List.find?_some hf
    have hi : i < sb.ninodes := by omega
    -- no valid copy of a free inode is cached
    have hno : ∀ q, (s.icache q).Active → (s.icache q).valid = true → (s.icache q).inum ≠ i := by
      rintro q hq hv rfl
      have := congrArg Inode.mode (h.through q hq hv nofun)
      exact h.live q hq hv nofun (this.trans hz)
    have hbytes : ∀ b, b < SuperBlock.ioff i ∨ SuperBlock.ioff i + DINODESIZE ≤ b → _ = _ :=
      fun b hb => byte_initInode (s.disk (sb.iblock i)) type now hb
    show wp (logWrite sb _ _ >>= _) _ _ s
    refine wp.bind (logWrite_spec (by rw [free_write_inode hi]; exact le_rfl))
      (fun msg hm => .inr (.inr hm)) ?_
    rintro _ u ⟨_, rfl⟩
    have hu : Icache sb
        (s.write (sb.iblock i) (initInode (s.disk (sb.iblock i)) (SuperBlock.ioff i) type now))
        none := by
      refine ⟨h.unique, h.known, h.live, fun q hq hv hx => ?_⟩
      show (s.icache q).ino.core = (State.dinode sb _ (s.icache q).inum).core
      rw [dinode_write hbytes (hno q hq hv)]
      exact h.through q hq hv hx
    have hstore : State.store sb (s.write (sb.iblock i)
        (initInode (s.disk (sb.iblock i)) (SuperBlock.ioff i) type now)) =
        (s.store sb).setInode i { Inode.zero with mode := type } := by
      apply Store.ext
      · funext j
        rw [hu.store_disk]
        show _ = update (s.store sb).ino i _ j
        by_cases hj : j = i
        · subst hj
          rw [if_pos hi, dinode_write_self, readInode_initInode _ _ _ (SuperBlock.ioff_fits _),
            update_self]
          rfl
        · rw [dinode_write hbytes hj, update_of_ne hj, h.store_disk]
      · exact (store_write_inode hi _).1
      · exact (store_write_inode hi _).2
    have hmode : ((s.store sb).ino i).mode = 0 := by
      rw [h.store_disk, if_pos hi]
      exact hz
    refine wp.mono (iget_spec i) (fun p t ht => ?_) fun msg hm => .inr (.inl hm.1)
    refine ⟨i, hmem.1, hi, hmode, ?_, ht.inum_eq, ht.icache hu, ht.holds hH, ?_⟩
    · rw [hu.store_eq (ht.icache hu) ht.disk, hstore]
    · exact ht.keeps hH
  · exact .inl rfl

end Specs

end Micro86.Fs
