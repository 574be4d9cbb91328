import Micro86.Calls.Serial

/-!
# Actions that change no inode

Most actions of the calls leave the inodes on disk and their contents alone and change the copies in
the cache only by filling and emptying entries.

* `kept_namex`, `kept_create`, `kept_sysOpen`, … — then the routines keep it, given what they do to
  inodes.
-/

namespace Micro86.Calls

open Prog
open Fs (Inode Ptr Dirent S_IFMT S_IFREG S_IFDIR)

variable {ip : Ptr} {w : Slot} {n : Nat}

/-- The actions that write neither the disk nor the fields of a copy, and that start or end no
    process. -/
def Op.tame : Op → Bool
  | .assign _ _ => false
  | .iupdate _ => false
  | .itrunc _ => false
  | .writei _ _ _ => false
  | .ialloc _ _ => false
  | .fork => false
  | .leave => false
  | _ => true

/-- What happens to an entry of the cache: the copy stays, the entry is emptied, or the copy is read
    from the disk. -/
inductive Slot.Becomes (disk : Nat → Inode) (v w : Slot) : Prop where
  | kept (hinum : w.inum = v.inum) (hino : w.ino = v.ino) (hvalid : w.valid = v.valid)
      (href : 0 < w.ref → 0 < v.ref)
  | emptied (hvalid : w.valid = false)
  | loaded (hinum : w.inum = v.inum) (hino : w.ino = disk v.inum) (hmode : (disk v.inum).mode ≠ 0)

/-- No inode has two entries that are in use. -/
def Unique (s : State) : Prop :=
  ∀ ip jp, 0 < (s.icache ip).ref → 0 < (s.icache jp).ref →
    (s.icache ip).inum = (s.icache jp).inum → ip = jp

structure Calm (p : Pid) (s t : State) : Prop where
  disk : t.disk = s.disk
  data : t.data = s.data
  slot : ∀ ip, (s.icache ip).Becomes s.disk (t.icache ip)
  unique : Unique s → Unique t
  uid : ∀ me', t.proc p = some me' → ∃ me, s.proc p = some me ∧ me'.uid = me.uid

namespace Calm

variable {p : Pid} {s t : State}

theorem Becomes.refl {disk : Nat → Inode} (v : Slot) : v.Becomes disk v := .kept rfl rfl rfl id

theorem of_cache (hdisk : t.disk = s.disk) (hdata : t.data = s.data) (hcache : t.icache = s.icache)
    (huid : ∀ me', t.proc p = some me' → ∃ me, s.proc p = some me ∧ me'.uid = me.uid) :
    Calm p s t where
  disk := hdisk
  data := hdata
  slot ip := by
    rw [hcache]
    exact Becomes.refl _
  unique h := by
    unfold Unique
    rw [hcache]
    exact h
  uid := huid

theorem refl (p : Pid) (s : State) : Calm p s s := of_cache rfl rfl rfl fun me h => ⟨me, h, rfl⟩

theorem of_slot (hw : (s.icache ip).Becomes s.disk w)
    (hunique : Unique s → Unique (s.setSlot ip w)) : Calm p s (s.setSlot ip w) where
  disk := rfl
  data := rfl
  slot jp := State.setSlot_cases jp hw fun _ => Becomes.refl _
  unique := hunique
  uid me h := ⟨me, h, rfl⟩

theorem unique_setSlot (hinum : w.inum = (s.icache ip).inum)
    (href : 0 < w.ref → 0 < (s.icache ip).ref) (h : Unique s) : Unique (s.setSlot ip w) := by
  have hsame : ∀ jp, ((s.setSlot ip w).icache jp).inum = (s.icache jp).inum ∧
      (0 < ((s.setSlot ip w).icache jp).ref → 0 < (s.icache jp).ref) := by
    intro jp
    exact State.setSlot_cases jp ⟨hinum, href⟩ fun _ => ⟨rfl, id⟩
  intro jp kp hj hk he
  rw [(hsame jp).1, (hsame kp).1] at he
  exact h jp kp ((hsame jp).2 hj) ((hsame kp).2 hk) he

theorem of_kept (hinum : w.inum = (s.icache ip).inum) (hino : w.ino = (s.icache ip).ino)
    (hvalid : w.valid = (s.icache ip).valid) (href : 0 < w.ref → 0 < (s.icache ip).ref) :
    Calm p s (s.setSlot ip w) :=
  of_slot (.kept hinum hino hvalid href) (unique_setSlot hinum href)

theorem of_iget {inum : Nat} (h : Igets s inum ip t) : Calm p s t := by
  cases h with
  | cached href hinum => exact of_kept rfl rfl rfl fun _ => href
  | fresh href hnone =>
    -- the entry is the only one for its inode
    refine of_slot (.emptied rfl) fun h => ?_
    exact unique_update (f := s.icache) (U := (0 < Slot.ref ·))
      (k := Slot.inum) h fun _ jp _ => hnone jp

end Calm

section Tame

variable {p : Pid} {h : Hint} {s t : State}

theorem uid_setProc {me me' : Proc} (hme : s.proc p = some me) (huid : me'.uid = me.uid) :
    ∀ w, (s.setProc p (some me')).proc p = some w → ∃ me, s.proc p = some me ∧ w.uid = me.uid := by
  intro w hw
  rw [State.setProc_self] at hw
  cases hw
  exact ⟨me, hme, huid⟩

theorem calm_of_tame {o : Op} {r : Ans o} (ho : o.tame = true)
    (hb : o.backed s) (hs : sem p h s o = .next (r, t)) : Calm p s t := by
  cases o
  case iget inum => exact Calm.of_iget (iget_next hs)
  case load ip =>
    rcases load_next hs with ⟨_, rfl⟩ | ⟨_, hm, rfl⟩
    · exact Calm.refl p _
    · exact Calm.of_slot (.loaded rfl rfl hm) (Calm.unique_setSlot rfl id)
  all_goals
    revert hs
    simp only [sem, State.dirFind, State.dirFree, State.isdirempty,
      State.fileAlloc, State.fileDrop, State.byProc, State.fdalloc]
    cases ho
    repeat' split
  all_goals rintro ⟨⟩
  -- the entry of the cache stays as it is, but for its lock and count, or is emptied
  case invalidate.refl => exact Calm.of_slot (.emptied rfl) (Calm.unique_setSlot rfl id)
  all_goals first
    | exact Calm.of_cache rfl rfl rfl fun w hw => ⟨w, hw, rfl⟩
    | exact Calm.of_cache rfl rfl rfl (uid_setProc (by assumption) (by rfl))
    | exact Calm.of_kept rfl rfl rfl fun hr =>
      by first | exact hr | exact hb | (dsimp only at hr; omega)

end Tame

/-! ## Invariants -/

/-- The process has the lock of an entry in use, and the entry a copy of its inode. -/
structure Held (p : Pid) (s : State) (ip : Ptr) : Prop where
  ref : 0 < (s.icache ip).ref
  valid : (s.icache ip).valid = true
  lock : (s.icache ip).lock = some p

def State.locked (s : State) (p : Pid) (ip : Ptr) : State :=
  s.setSlot ip { s.icache ip with
    lock := some p, valid := true
    ino := if (s.icache ip).valid then (s.icache ip).ino else s.disk (s.icache ip).inum }

/-- What `ilock` has tested. -/
structure Lockable (s : State) (ip : Ptr) : Prop where
  ref : 0 < (s.icache ip).ref
  lock : (s.icache ip).lock = none
  mode : (s.icache ip).valid = false → (s.disk (s.icache ip).inum).mode ≠ 0

/-- An invariant of the calls of a process that tame actions keep, that the freeing of an inode
    keeps, and that says nothing of the time of modification. -/
structure Keeper (ok : State → Op → Prop) (p : Pid) (J : State → Prop) : Prop where
  backed : ∀ s o, ok s o → o.backed s
  calm : ∀ s t, J s → Calm p s t → J t
  free : ∀ s ip, J s → 0 < (s.icache ip).ref → (s.icache ip).valid = true →
    (s.icache ip).ino.nlink = 0 → Leads (Acts ok p) s (iputFree ip) fun _ t => J t
  touch : ∀ s ip lmtime, J s → J (s.setIno ip { (s.icache ip).ino with lmtime := lmtime })

def Kept (ok : State → Op → Prop) (p : Pid) (J : State → Prop) {α : Type} (x : M α) : Prop :=
  ∀ s, J s → Leads (Acts ok p) s x fun _ t => J t

section Routines

variable {ok : State → Op → Prop} {p : Pid} {J : State → Prop}
  {s : State} {α β : Type} {Q : β → State → Prop}
variable {f : Unit → M β}

theorem Kept.bind {x : M α} {f : α → M β} (hx : Kept ok p J x) (hf : ∀ a, Kept ok p J (f a)) :
    Kept ok p J (x >>= f) :=
  fun s hs => (hx s hs).bind hf

theorem kept_pure {a : α} : Kept ok p J (pure a) := fun _ => id

theorem kept_ite {c : Prop} [Decidable c] {x y : M α} (hx : Kept ok p J x) (hy : Kept ok p J y) :
    Kept ok p J (if c then x else y) := by
  split
  · exact hx
  · exact hy

theorem kept_onlyIf {c : Prop} [Decidable c] {x : M Unit} (hx : Kept ok p J x) :
    Kept ok p J (onlyIf c x) :=
  kept_ite hx kept_pure

theorem leads_panic {msg : String} : Leads (Acts ok p) s (panic msg : M β) Q := nofun

theorem kept_panic {msg : String} : Kept ok p J (panic msg : M α) := fun _ _ => leads_panic

theorem leads_myproc {f : Proc → M β}
    (h : ∀ me, s.proc p = some me → Leads (Acts ok p) s (f me) Q) :
    Leads (Acts ok p) s (myproc >>= f) Q := by
  refine leads_bind.mpr (leads_perform.mpr fun r t hs => ?_)
  obtain ⟨_, _, hs⟩ := hs
  obtain ⟨me, hme, hs⟩ := byProc_next hs
  cases hs
  exact h r hme

theorem leads_fields {f : Inode → M β} (h : Leads (Acts ok p) s (f (s.icache ip).ino) Q) :
    Leads (Acts ok p) s (fields ip >>= f) Q := by
  refine leads_bind.mpr (leads_perform.mpr fun r t hs => ?_)
  obtain ⟨_, _, hs⟩ := hs
  cases hs
  exact h

theorem leads_fileGet {file : Fid} {f : File → M β} (h : Leads (Acts ok p) s (f (s.file file)) Q) :
    Leads (Acts ok p) s (fileGet file >>= f) Q := by
  refine leads_bind.mpr (leads_perform.mpr fun r t hs => ?_)
  obtain ⟨_, _, hs⟩ := hs
  cases hs
  exact h

theorem leads_assign {v : Inode → Inode}
    (h : Leads (Acts ok p) (s.setIno ip (v (s.icache ip).ino)) (f ()) Q) :
    Leads (Acts ok p) s (assign ip v >>= f) Q := by
  refine leads_bind.mpr (leads_perform.mpr fun r t hs => ?_)
  obtain ⟨_, _, hs⟩ := hs
  cases hs
  exact h

theorem leads_iupdate (h : Leads (Acts ok p) (s.update ip) (f ()) Q) :
    Leads (Acts ok p) s (iupdate ip >>= f) Q := by
  refine leads_bind.mpr (leads_perform.mpr fun r t hs => ?_)
  obtain ⟨_, _, hs⟩ := hs
  cases logging_next hs
  exact h

theorem leads_itrunc
    (h : ok s (.itrunc ip) → Leads (Acts ok p) (s.itrunc ip) (f ()) Q) :
    Leads (Acts ok p) s (itrunc ip >>= f) Q := by
  refine leads_bind.mpr (leads_perform.mpr fun r t hs => ?_)
  obtain ⟨hok, _, hs⟩ := hs
  cases logging_next hs
  exact h hok

theorem calm_locked (h : Lockable s ip) : Calm p s (s.locked p ip) := by
  unfold State.locked
  cases hv : (s.icache ip).valid with
  | true => exact Calm.of_kept rfl rfl hv.symm id
  | false => exact Calm.of_slot (.loaded rfl rfl (h.mode hv)) (Calm.unique_setSlot rfl id)

theorem held_locked (h : Lockable s ip) : Held p (s.locked p ip) ip := by
  have hself : (s.locked p ip).icache ip = _ := State.setSlot_self ..
  constructor <;> rw [hself]
  exact h.ref

theorem leads_ilock (h : Lockable s ip → Leads (Acts ok p) (s.locked p ip) (f ()) Q) :
    Leads (Acts ok p) s (ilock ip >>= f) Q := by
  refine leads_bind.mpr (leads_bind.mpr
      (leads_perform.mpr fun _ t ht => leads_bind.mpr (leads_perform.mpr fun _ u hu =>
    leads_perform.mpr fun _ w hw => ?_)))
  obtain ⟨_, _, ht⟩ := ht
  simp only [sem] at ht
  split at ht
  · cases ht
  cases ht
  obtain ⟨_, _, hu⟩ := hu
  simp only [sem] at hu
  split at hu
  on_goal 2 => cases hu
  rename_i hlock
  cases hu
  obtain ⟨_, _, hw⟩ := hw
  -- the entry has been read already, or is read now
  rcases load_next hw with ⟨hv, rfl⟩ | ⟨hv, hm, rfl⟩
  · rw [State.setSlot_self] at hv
    have hstate : s.setSlot ip { s.icache ip with lock := some p } = s.locked p ip := by
      unfold State.locked
      dsimp only at hv ⊢
      rw [if_pos hv, hv]
    rw [hstate]
    exact h
      ⟨by omega, hlock, fun hf => by rw [show (s.icache ip).valid = true from hv] at hf; cases hf⟩
  rw [State.setSlot_self] at hv hm
  have hstate : (s.setSlot ip { s.icache ip with lock := some p }).setSlot ip
      { (s.setSlot ip { s.icache ip with lock := some p }).icache ip with
        valid := true, ino := s.disk ((s.setSlot ip { s.icache ip with lock := some p }).icache
          ip).inum } = s.locked p ip := by
    unfold State.locked
    rw [State.setSlot_self]
    rw [hv]
    unfold State.setSlot
    rw [Function.update_idem]
    rfl
  have hrest := h ⟨by omega, hlock, fun _ => hm⟩
  rw [← hstate] at hrest
  exact hrest

end Routines

/-! ## Routines that keep an invariant -/

namespace Keeper

variable {ok : State → Op → Prop} {p : Pid} {J : State → Prop}
  {s : State} {α β : Type} {Q : β → State → Prop}

variable (K : Keeper ok p J)
include K

theorem tame {o : Op} (ho : o.tame = true) : Kept ok p J (perform o) := by
  refine fun s hs => leads_perform.mpr fun r t ht => ?_
  obtain ⟨hok, _, ht⟩ := ht
  exact K.calm s t hs (calm_of_tame ho (K.backed s o hok) ht)

theorem locks {f : Unit → M β} (hs : J s)
    (h : ∀ t, J t → Held p t ip → Leads (Acts ok p) t (f ()) Q) :
    Leads (Acts ok p) s (ilock ip >>= f) Q :=
  leads_ilock fun hl => h _ (K.calm s _ hs (calm_locked hl)) (held_locked hl)

theorem iput (ip : Ptr) : Kept ok p J (iput ip) := by
  refine (K.tame rfl).bind fun _ => fun s hs => ?_
  refine leads_bind.mpr (leads_perform.mpr fun unlinked t ht => leads_bind.mpr ?_)
  obtain ⟨_, _, ht⟩ := ht
  cases ht
  refine Leads.mono ?_ fun _ t ht => ((K.tame rfl).bind fun _ => K.tame rfl) t ht
  unfold onlyIf
  split
  · rename_i hun
    refine leads_bind.mpr (leads_perform.mpr fun r t ht => ?_)
    obtain ⟨_, _, ht⟩ := ht
    cases ht
    unfold onlyIf
    split
    · rename_i hone
      have href : (s.icache ip).ref = 1 := hone
      rw [Bool.and_eq_true, beq_iff_eq] at hun
      exact K.free s ip hs (by omega) hun.1 hun.2
    · exact hs
  · exact hs

theorem iunlockput (ip : Ptr) : Kept ok p J (iunlockput ip) := (K.tame rfl).bind fun _ => K.iput ip

theorem leaveWith (r : Int) : Kept ok p J (leaveWith r) := (K.tame rfl).bind fun _ => kept_pure

theorem putWith (ip : Ptr) (r : Int) : Kept ok p J (putWith ip r) :=
  (K.iunlockput ip).bind fun _ => K.leaveWith r

theorem unlockWith (ip : Ptr) (r : Int) : Kept ok p J (unlockWith ip r) :=
  (K.tame rfl).bind fun _ => K.leaveWith r

theorem ilock (ip : Ptr) : Kept ok p J (ilock ip) :=
  (K.tame rfl).bind fun _ => (K.tame rfl).bind fun _ => K.tame rfl

/-! ### Directories and paths -/

theorem dirlookup (dp : Ptr) (name : List UInt8) : Kept ok p J (dirlookup dp name) := by
  refine (K.tame rfl).bind fun found => ?_
  cases found with
  | none => exact kept_pure
  | some e => exact (K.tame rfl).bind fun _ => kept_pure

theorem namexLoop (parent : Bool) (fuel : Nat) (ip : Ptr) (path name : List UInt8) :
    Kept ok p J (namexLoop parent fuel ip path name) := by
  induction fuel generalizing ip path name with
  | zero => exact kept_panic
  | succ fuel ih =>
    unfold Calls.namexLoop
    split
    · exact kept_ite ((K.iput ip).bind fun _ => kept_pure) kept_pure
    refine (K.ilock ip).bind fun _ => (K.tame rfl).bind fun ino => ?_
    refine kept_ite ((K.iunlockput ip).bind fun _ => kept_pure) ?_
    refine kept_ite ((K.tame rfl).bind fun _ => kept_pure) ((K.dirlookup ip _).bind fun next => ?_)
    cases next with
    | none => exact (K.iunlockput ip).bind fun _ => kept_pure
    | some next => exact (K.iunlockput ip).bind fun _ => ih _ _ _

theorem namex (path : List UInt8) (parent : Bool) : Kept ok p J (namex path parent) := by
  refine Kept.bind (kept_ite (K.tame rfl) ((K.tame rfl).bind fun me => ?_)) fun ip =>
    K.namexLoop parent _ ip path []
  split
  · exact kept_panic
  · exact (K.tame rfl).bind fun _ => kept_pure

theorem namei (path : List UInt8) : Kept ok p J (namei path) :=
  (K.namex path false).bind fun _ => kept_pure

theorem looks {dp : Ptr} {name : List UInt8} {f : Option (Ptr × Nat) → M β} (hs : J s)
    (hnone : (s.icache dp).ino.isDir → Leads (Acts ok p) s (f none) Q)
    (hsome : ∀ t e, J t → Leads (Acts ok p) t (f (some e)) Q) :
    Leads (Acts ok p) s (Calls.dirlookup dp name >>= f) Q := by
  refine leads_bind.mpr (leads_bind.mpr (leads_perform.mpr fun found t ht => ?_))
  obtain ⟨_, h, ht⟩ := ht
  have ht' := dirFind_next ht
  subst ht'
  cases found with
  | none =>
    refine hnone ?_
    simp only [sem, State.dirFind] at ht
    split at ht
    · cases ht
    · rename_i hd
      simpa using hd
  | some e => exact leads_bind.mpr ((K.tame rfl t hs).mono fun ip u => hsome u (ip, e.2))

/-- The result of a routine that returns a locked inode. -/
def Locks (p : Pid) (J : State → Prop) (r : Option Ptr) (t : State) : Prop :=
  J t ∧ ∀ ip, r = some ip → Held p t ip

theorem create {type major minor : UInt16}
    (hnew : ∀ s dp name, J s → Held p s dp → (s.icache dp).ino.isDir →
      Leads (Acts ok p) s (createNew n dp name type major minor)
        (Locks p J)) (path : List UInt8) (hs : J s) :
    Leads (Acts ok p) s (create n path type major minor) (Locks p J) := by
  refine (K.namex path true s hs).bind fun r t ht => ?_
  cases r with
  | none => exact ⟨ht, nofun⟩
  | some r =>
    refine K.locks ht fun u hu hheld => K.looks hu (hnew u r.1 r.2 hu hheld) fun w e hw => ?_
    refine (K.iunlockput r.1 w hw).bind fun _ w hw => K.locks hw fun w hw hheld => ?_
    show Leads _ w (if _ then _ else _) _
    split
    · exact ⟨hw, fun ip hip => by cases hip; exact hheld⟩
    · exact (K.iunlockput e.1 w hw).bind fun _ w hw => ⟨hw, nofun⟩

/-! ### Files -/

theorem fileClose (f : Fid) : Kept ok p J (fileClose f) := by
  refine (K.tame rfl).bind fun ff => ?_
  cases ff with
  | none => exact kept_pure
  | some ff =>
    dsimp only
    split
    · exact (K.tame rfl).bind fun _ => (K.iput _).bind fun _ => K.tame rfl
    · exact kept_pure

def Writes (ok : State → Op → Prop) (p : Pid) (J : State → Prop) : Prop :=
  ∀ s f ip src me, J s → Held p s ip → s.proc p = some me → mayWrite me (s.icache ip).ino →
    Leads (Acts ok p) s (writeChunk f ip src) fun _ t => J t

theorem writeLoop (hw : Writes ok p J) (f : Fid) (ip : Ptr) (n : Int)
    (fuel : Nat) (src : List UInt8) : Kept ok p J (writeLoop f ip n fuel src) := by
  induction fuel generalizing src with
  | zero => exact kept_pure
  | succ fuel ih =>
    refine kept_ite kept_pure
      ((K.tame rfl).bind fun _ => fun s hs => K.locks hs fun t ht hheld => ?_)
    refine leads_myproc fun me hme => leads_fields ?_
    split
    · exact K.unlockWith ip _ t ht
    rename_i hmay
    refine (hw t f ip _ me ht hheld hme (Decidable.not_not.mp hmay)).bind fun r u hu => ?_
    exact kept_ite kept_pure (kept_ite kept_panic (ih _)) u hu

theorem fileWrite (hw : Writes ok p J) (f : Fid) (src : List UInt8) :
    Kept ok p J (fileWrite f src) := by
  refine (K.tame rfl).bind fun file => kept_ite kept_pure ?_
  split
  · exact K.tame rfl
  · exact K.writeLoop hw f _ _ _ _
  · exact kept_panic

theorem writevLoop (hw : Writes ok p J) (f : Fid) (vec : List (List UInt8)) (total : Int) :
    Kept ok p J (writevLoop f vec total) := by
  induction vec generalizing total with
  | nil => exact kept_pure
  | cons src vec ih => exact (K.fileWrite hw f src).bind fun r => kept_ite kept_pure (ih _)

theorem onFd {x : Fd → Fid → M Int} {missing : Int} (fd : Int) (h : ∀ d f, Kept ok p J (x d f)) :
    Kept ok p J (onFdOr missing fd x) := by
  refine Kept.bind ((K.tame rfl).bind fun me => kept_pure) fun r => ?_
  cases r with
  | none => exact kept_pure
  | some r => exact h r.1 r.2

theorem onPath {x : Ptr → M Int} (path : List UInt8) (missing : Int)
    (h : ∀ s ip, J s → Held p s ip → Leads (Acts ok p) s (x ip) fun _ t => J t) :
    Kept ok p J (onPath path missing x) := by
  refine (K.tame rfl).bind fun _ => (K.namei path).bind fun r => ?_
  cases r with
  | none => exact K.leaveWith missing
  | some ip => exact fun s hs => K.locks hs fun t => h t ip

/-! ### Calls -/

theorem openFile (ip : Ptr) (append readable writable : Bool) (full : Int) :
    Kept ok p J (openFile ip append readable writable full) := by
  refine (K.tame rfl).bind fun f => ?_
  cases f with
  | none => exact K.putWith ip full
  | some f =>
    refine (K.tame rfl).bind fun fd => ?_
    cases fd with
    | none =>
      refine (K.tame rfl).bind fun lmtime => fun s hs => leads_assign ?_
      exact ((K.fileClose f).bind fun _ => K.putWith ip full) _ (K.touch s ip lmtime hs)
    | some fd =>
      refine (K.tame rfl).bind fun _ => (K.tame rfl).bind fun ino => (K.tame rfl).bind fun _ => ?_
      exact (K.tame rfl).bind fun _ => (K.tame rfl).bind fun _ => kept_pure

def Creates (ok : State → Op → Prop) (p : Pid) (J : State → Prop) (n : Nat) : Prop :=
  ∀ s dp name type major minor, J s → Held p s dp → (s.icache dp).ino.isDir →
    Leads (Acts ok p) s (createNew n dp name type major minor) (Locks p J)

def Truncates (ok : State → Op → Prop) (p : Pid) (J : State → Prop) : Prop :=
  ∀ s ip, J s → Held p s ip → ok s (.itrunc ip) → J (s.itrunc ip)

section

variable (hnew : Creates ok p J n)
include hnew

theorem openInode (path : List UInt8) (omode : UInt32) (mode : UInt16)
    (hs : J s) : Leads (Acts ok p) s (openInode n path omode mode) (Locks p J) := by
  unfold Calls.openInode
  split
  · refine ((K.tame rfl) s hs).bind fun me t ht => ?_
    exact K.create (fun s dp name => hnew s dp name _ _ _) path ht
  refine (K.namei path s hs).bind fun r t ht => ?_
  cases r with
  | none => exact ⟨ht, nofun⟩
  | some ip => exact K.locks ht fun u hu hheld => ⟨hu, fun jp hjp => by cases hjp; exact hheld⟩

theorem sysOpen (htrunc : Truncates ok p J) (path : List UInt8)
    (omode : UInt32) (mode : UInt16) : Kept ok p J (sysOpen n path omode mode) := by
  refine (K.tame rfl).bind fun _ => fun s hs =>
    (K.openInode hnew path omode mode hs).bind fun r t ht => ?_
  cases r with
  | none => exact K.leaveWith _ t ht.1
  | some ip =>
    refine Leads.bind ?_ fun _ => K.openFile ip _ _ _ _
    unfold onlyIf
    split
    · refine leads_perform.mpr fun _ u hu => ?_
      obtain ⟨hok, _, hu⟩ := hu
      cases logging_next hu
      exact htrunc t ip ht.1 (ht.2 ip rfl) hok
    · exact ht.1

theorem sysCreat (htrunc : Truncates ok p J) (path : List UInt8)
    (mode : UInt16) : Kept ok p J (sysCreat n path mode) := by
  refine (K.tame rfl).bind fun _ => (K.tame rfl).bind fun me => fun s hs => ?_
  refine (K.create (fun s dp name => hnew s dp name _ _ _) path hs).bind fun r t ht => ?_
  cases r with
  | none => exact K.leaveWith _ t ht.1
  | some ip =>
    exact leads_itrunc fun hok =>
      K.openFile ip _ _ _ _ _ (htrunc t ip ht.1 (ht.2 ip rfl) hok)

end

theorem seekFile (fd offset : Int) (whence : Whence) (long : Bool) :
    Kept ok p J (seekFile fd offset whence long) := by
  refine K.onFd fd fun _ f => (K.tame rfl).bind fun file => kept_ite kept_pure ?_
  split
  · exact kept_panic
  refine (K.ilock _).bind fun _ => (K.tame rfl).bind fun cur => (K.tame rfl).bind fun ino => ?_
  split
  · exact (K.tame rfl).bind fun _ => kept_pure
  · exact (K.tame rfl).bind fun _ => (K.tame rfl).bind fun _ => kept_pure

theorem changeFile (fd : Int) (v : Inode → Inode)
    (h : ∀ s ip, J s → Held p s ip →
      Leads (Acts ok p) s (change ip v Calls.unlockWith) fun _ t => J t) :
    Kept ok p J (changeFile fd v) := by
  refine K.onFd fd fun _ f => (K.tame rfl).bind fun _ => (K.tame rfl).bind fun file => ?_
  split
  · exact kept_panic
  · exact fun s hs => K.locks hs fun t => h t _

theorem sysClose (fd : Int) : Kept ok p J (sysClose fd) :=
  K.onFd fd fun _ f => (K.tame rfl).bind fun _ => (K.fileClose f).bind fun _ => kept_pure

end Keeper

end Micro86.Calls
