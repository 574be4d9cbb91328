import Micro86.Calls.Calm

/-!
# What the creation of an inode does

`create` takes a free inode number, locks and fills the inode, writes the two entries of a
directory, and links the inode into the directory it was given.  These rules give the states in
between.

* `leads_createNew` — the states of `create` for a name that is not there.
* `leads_put_others` — dropping a reference leaves the other entries of the cache.
-/

namespace Micro86.Calls

open Prog
open Fs (Inode Ptr Dirent S_IFMT S_IFREG S_IFDIR DOT DOTDOT)

variable {ip dp : Ptr} {name : List UInt8} {j : Nat}

section Rules

variable {ok : State → Op → Prop} {p : Pid} {s : State} {α β : Type} {Q : β → State → Prop}

theorem leads_true {x : M α} : Leads (Acts ok p) s x fun _ _ => True := by
  induction x generalizing s with
  | ret a => trivial
  | act o k ih => exact fun r t _ => ih r

theorem leads_now {f : UInt32 → M β} (h : ∀ time, Leads (Acts ok p) s (f time) Q) :
    Leads (Acts ok p) s (now >>= f) Q := by
  refine leads_bind.mpr (leads_perform.mpr fun r t hs => ?_)
  obtain ⟨_, _, hs⟩ := hs
  cases hs
  exact h _

theorem leads_inum {f : Nat → M β} (h : Leads (Acts ok p) s (f (s.icache ip).inum) Q) :
    Leads (Acts ok p) s (perform (.inum ip) >>= f) Q := by
  refine leads_bind.mpr (leads_perform.mpr fun r t hs => ?_)
  obtain ⟨_, _, hs⟩ := hs
  cases hs
  exact h

end Rules

/-! ## The steps -/

def State.allocated (s : State) (j : Nat) (type : UInt16) (ctime : UInt32) : State :=
  (s.setDisk j { Inode.zero with mode := type, ctime := ctime }).setData j []

def newInode (type major minor : UInt16) (ctime lmtime : UInt32)
    (me : Proc) (ino : Inode) : Inode :=
  { ino with
    major := major, minor := minor, mode := type, nlink := 1, ctime := ctime, lmtime := lmtime,
    uid := me.uid.toUInt32, gid := me.gid.toUInt32 }

def State.stored (s : State) (ip : Ptr) (v : Inode → Inode) : State :=
  (s.setIno ip (v (s.icache ip).ino)).update ip

/-- An entry with the name and the number has been written into the directory, into the first empty
    place or at the end. -/
structure Links (s : State) (dp : Ptr) (name : List UInt8) (inum : Nat) (t : State) : Prop where
  dir : (s.icache dp).ino.isDir
  absent : Finds s dp name none
  wrote : ∃ (h : Hint) (de0 de : Dirent) (k : Nat) (found : Bool),
    s.scanDir dp (fun de => de.ino == 0) 0 de0 = some (k, de, found) ∧
      DIRENTSIZE * k ≤ (s.icache dp).ino.size.toNat ∧
      DIRENTSIZE * k + DIRENTSIZE ≤ MAXFILE * BSIZE ∧
        t = s.write h dp (de.put name inum).bytes (DIRENTSIZE * k)

/-- The new directory has its two entries, and the directory above another link. -/
def Dots (s : State) (ip dp : Ptr) (t : State) : Prop :=
  ∃ u,
    Links (s.stored dp fun ino => { ino with nlink := ino.nlink + 1 }) ip DOT (s.icache ip).inum u ∧
    Links u ip DOTDOT (u.icache dp).inum t

section Steps

variable {ok : State → Op → Prop} {p : Pid} {s : State} {β : Type} {Q : β → State → Prop}

theorem leads_stored {v : Inode → Inode} {f : Unit → M β}
    (h : Leads (Acts ok p) (s.stored ip v) (f ()) Q) :
    Leads (Acts ok p) s (assign ip v >>= fun _ => iupdate ip >>= f) Q :=
  leads_assign (leads_iupdate h)

theorem leads_iallocFrom {type : UInt16} {n i : Nat} {f : Ptr → M β}
    (h : ∀ j ctime ip t, i ≤ j → j < i + n → (s.disk j).mode = 0 →
      Igets (s.allocated j type ctime) j ip t →
      Leads (Acts ok p) t (f ip) Q) : Leads (Acts ok p) s (iallocFrom type n i >>= f) Q := by
  refine leads_bind.mpr ?_
  induction n generalizing i with
  | zero => exact leads_panic
  | succ n ih =>
    refine leads_bind.mpr (leads_perform.mpr fun free t ht => ?_)
    obtain ⟨_, h', ht⟩ := ht
    rcases ialloc_next ht with ⟨rfl, hm, rfl⟩ | ⟨rfl, rfl⟩
    · refine leads_perform.mpr fun ip u hu => ?_
      obtain ⟨_, _, hu⟩ := hu
      exact h i h'.clock ip u (le_refl i) (by omega) hm (iget_next hu)
    · exact ih fun j ctime ip u hj hlt => h j ctime ip u (by omega) (by omega)

theorem not_chr_of_dir {ino : Inode} (h : ino.isDir) : ino.mode &&& Fs.S_IFCHR = 0 := by
  have hbits : ∀ m : UInt16, m &&& S_IFMT = S_IFDIR → m &&& Fs.S_IFCHR = 0 := by
    intro m hm
    have hand : m &&& Fs.S_IFCHR = m &&& S_IFMT &&& Fs.S_IFCHR := by
      rw [UInt16.and_assoc]
      rfl
    rw [hand, hm]
    rfl
  exact hbits ino.mode h

theorem leads_dirlink {inum : Nat} {msg : String} {f : M β}
    (h : ∀ t, Links s dp name inum t → Leads (Acts ok p) t f Q) :
    Leads (Acts ok p) s (dirlink dp name inum >>= fun r => if r < 0 then panic msg else f) Q := by
  refine leads_bind.mpr (leads_bind.mpr (leads_bind.mpr (leads_perform.mpr fun found t ht => ?_)))
  obtain ⟨_, _, ht⟩ := ht
  obtain ⟨rfl, hdir, hfinds⟩ := dirFind_finds ht
  cases found with
  | some e =>
    refine leads_bind.mpr
      (Leads.mono leads_true fun ip u _ => leads_bind.mpr (Leads.mono leads_true fun _ w _ => ?_))
    exact leads_panic
  | none =>
    refine leads_bind.mpr
      (leads_perform.mpr fun place u hu => leads_bind.mpr (leads_perform.mpr fun n w hw => ?_))
    obtain ⟨_, hh, hu⟩ := hu
    obtain ⟨rfl, k, found, hoff, hscan⟩ := dirFree_finds hu
    obtain ⟨_, hint, hw⟩ := hw
    show Leads _ w (if n ≠ _ then _ else _) _
    split
    · exact leads_panic
    rename_i hn
    have hn : n = DIRENTSIZE := Decidable.not_not.mp hn
    have hlen : (place.2.put name inum).bytes.length = DIRENTSIZE := ByteBlock.length_read ..
    rcases writei_next hw with ⟨hsize, hmax, hwrap, rfl⟩ | ⟨rfl, hchr | hneg⟩
    · rw [hoff] at hsize ⊢
      have hd : DIRENTSIZE = 32 := rfl
      refine h _ ⟨hdir, hfinds, hint, hh.entry, place.2, k, found, hscan, hsize, ?_, rfl⟩
      omega
    · exact absurd (not_chr_of_dir hdir) hchr
    have hpos : (0 : Int) < DIRENTSIZE := by decide
    rw [hn] at hneg
    exact absurd hpos (not_lt.mpr hneg)

theorem leads_createDots {f : Unit → M β} (h : ∀ t, Dots s ip dp t → Leads (Acts ok p) t (f ()) Q) :
    Leads (Acts ok p) s (createDots ip dp >>= f) Q := by
  refine leads_bind.mpr (leads_stored
    (leads_inum (leads_dirlink fun u hu => leads_inum (leads_dirlink fun t ht => ?_))))
  refine h t ⟨u, ?_, ht⟩
  have hinum : ((s.stored dp fun ino => { ino with nlink := ino.nlink + 1 }).icache ip).inum =
      (s.icache ip).inum := by
    show ((s.setSlot dp _).icache ip).inum = _
    exact State.setSlot_cases ip rfl fun _ => rfl
  rwa [hinum] at hu

/-- What `create` does once it knows that the name is not there: all up to the last `iunlockput`. -/
structure Creation (p : Pid) (s : State) (n : Nat) (dp : Ptr)
    (name : List UInt8) (type : UInt16) (ip : Ptr) (t : State) : Prop where
  steps : ∃ (j : Nat) (time : UInt32) (u : State) (v : Inode → Inode) (w : State),
    1 ≤ j ∧ j < n ∧ (s.disk j).mode = 0 ∧ Igets (s.allocated j type time) j ip u ∧ Lockable u ip ∧
      (∀ ino, (v ino).mode = type ∧ (v ino).size = ino.size ∧ (v ino).nlink = 1) ∧
      (if type &&& S_IFMT = S_IFDIR then Dots ((u.locked p ip).stored ip v) ip dp w
        else w = (u.locked p ip).stored ip v) ∧
      Links w dp name (w.icache ip).inum t

theorem leads_createNew {n : Nat} {type major minor : UInt16} {Q : Option Ptr → State → Prop}
    (h : ∀ ip t, Creation p s n dp name type ip t →
      Leads (Acts ok p) t (iunlockput dp >>= fun _ => (pure (some ip) : M (Option Ptr))) Q) :
    Leads (Acts ok p) s (createNew n dp name type major minor) Q := by
  refine leads_iallocFrom fun j time ip u hj hlt hm hget => leads_ilock fun hlock => ?_
  refine leads_now fun ctime => leads_now fun lmtime => leads_myproc fun me _ => leads_stored ?_
  refine leads_bind.mpr ?_
  have hrest : ∀ w, (if type &&& S_IFMT = S_IFDIR then
      Dots ((u.locked p ip).stored ip (newInode type major minor ctime lmtime me)) ip dp w
      else w = (u.locked p ip).stored ip (newInode type major minor ctime lmtime me)) →
      Leads (Acts ok p) w (perform (.inum ip) >>= fun inum => dirlink dp name inum >>= fun r =>
        if r < 0 then panic "create: dirlink" else iunlockput dp >>= fun _ =>
          (pure (some ip) : M (Option Ptr))) Q := by
    intro w hw
    refine leads_inum (leads_dirlink fun t ht =>
      h ip t ⟨j, time, u, newInode type major minor ctime lmtime me, w, ?_⟩)
    exact ⟨hj, by omega, hm, hget, hlock, fun _ => ⟨rfl, rfl, rfl⟩, hw, ht⟩
  unfold onlyIf
  split
  · rename_i hdir
    exact leads_bind.mp (leads_createDots fun w hw => hrest w (by rwa [if_pos hdir]))
  rename_i hdir
  refine hrest _ ?_
  rw [if_neg hdir]
  rfl

end Steps

/-! ## Entries of the cache along the steps -/

/-- Only the fields of inodes have changed in the cache. -/
structure Steady (s t : State) : Prop where
  inum : ∀ ip, (t.icache ip).inum = (s.icache ip).inum
  ref : ∀ ip, (t.icache ip).ref = (s.icache ip).ref
  valid : ∀ ip, (t.icache ip).valid = (s.icache ip).valid
  lock : ∀ ip, (t.icache ip).lock = (s.icache ip).lock

section Entries

variable {p : Pid} {s t u : State} {ip dp : Ptr}

theorem Steady.refl (s : State) :
    Steady s s := ⟨fun _ => rfl, fun _ => rfl, fun _ => rfl, fun _ => rfl⟩

theorem Steady.trans (h : Steady s t) (h' : Steady t u) : Steady s u :=
  ⟨fun ip => (h'.inum ip).trans (h.inum ip), fun ip => (h'.ref ip).trans (h.ref ip),
    fun ip => (h'.valid ip).trans (h.valid ip), fun ip => (h'.lock ip).trans (h.lock ip)⟩

theorem steady_setIno (ip : Ptr) (v : Inode) : Steady s (s.setIno ip v) := by
  have hself : ∀ jp, ∃ ino, (s.setIno ip v).icache jp = { s.icache jp with ino := ino } := by
    intro jp
    by_cases hj : jp = ip
    · subst hj
      exact ⟨v, State.setSlot_self ..⟩
    · exact ⟨(s.icache jp).ino, State.setSlot_ne _ hj⟩
  constructor <;> intro jp <;> obtain ⟨ino, hino⟩ := hself jp <;> rw [hino]

theorem Steady.of_cache (h : Steady s t) (hu : u.icache = t.icache) : Steady s u := by
  constructor <;> rw [hu]
  · exact h.inum
  · exact h.ref
  · exact h.valid
  · exact h.lock

theorem steady_stored (ip : Ptr) (v : Inode → Inode) :
    Steady s (s.stored ip v) := (steady_setIno ip _).of_cache rfl

theorem steady_itrunc (ip : Ptr) : Steady s (s.itrunc ip) := (steady_setIno ip _).of_cache rfl

theorem steady_write (h : Hint) (ip : Ptr) (src : List UInt8) (off : Nat) :
    Steady s (s.write h ip src off) := by
  unfold State.write
  dsimp only
  split
  · exact (steady_setIno ip _).of_cache rfl
  · exact (Steady.refl s).of_cache rfl

theorem Links.steady {inum : Nat} (h : Links s dp name inum t) : Steady s t := by
  obtain ⟨_, _, _, _, _, _, _, _, rfl⟩ := h.wrote
  exact steady_write ..

theorem Dots.steady (h : Dots s ip dp t) : Steady s t := by
  obtain ⟨u, hu, ht⟩ := h
  exact ((steady_stored dp _).trans hu.steady).trans ht.steady

theorem Held.steady (h : Held p s ip) (hs : Steady s t) : Held p t ip :=
  ⟨by rw [hs.ref]; exact h.ref, by rw [hs.valid]; exact h.valid, by rw [hs.lock]; exact h.lock⟩

theorem Igets.entry (h : Igets s j ip t) : (t.icache ip).inum = j ∧ 0 < (t.icache ip).ref := by
  cases h with
  | cached href hinum =>
    rw [State.setSlot_self]
    exact ⟨hinum, by dsimp only; omega⟩
  | fresh href hnone =>
    rw [State.setSlot_self]
    exact ⟨rfl, Int.one_pos⟩

theorem Igets.keeps (h : Igets s j ip t) (hd : 0 < (s.icache dp).ref) :
    (t.icache dp).inum = (s.icache dp).inum ∧ (t.icache dp).ino = (s.icache dp).ino ∧
      0 < (t.icache dp).ref ∧
      (t.icache dp).valid = (s.icache dp).valid ∧ (t.icache dp).lock = (s.icache dp).lock := by
  cases h with
  | cached href hinum =>
    refine State.setSlot_cases dp ?_ fun _ => ?_
    · exact ⟨rfl, rfl, by dsimp only; omega, rfl, rfl⟩
    · exact ⟨rfl, rfl, hd, rfl, rfl⟩
  | fresh href hnone =>
    have hdp : dp ≠ ip := by
      rintro rfl
      omega
    rw [State.setSlot_ne _ hdp]
    exact ⟨rfl, rfl, hd, rfl, rfl⟩

theorem Held.iget (h : Held p s dp) (hg : Igets s j ip t) : Held p t dp := by
  obtain ⟨_, _, href, hvalid, hlock⟩ := hg.keeps h.ref
  exact ⟨href, hvalid.trans h.valid, hlock.trans h.lock⟩

/-- Two entries, of which the process has locked one and can lock the other. -/
theorem Held.ne (h : Held p s dp) (hl : Lockable s ip) : dp ≠ ip := by
  rintro rfl
  have := h.lock
  rw [hl.lock] at this
  cases this

theorem locked_ne (h : dp ≠ ip) : (s.locked p ip).icache dp = s.icache dp := State.setSlot_ne _ h

theorem locked_inum (jp : Ptr) : ((s.locked p ip).icache jp).inum = (s.icache jp).inum := by
  by_cases hj : jp = ip
  · subst hj
    unfold State.locked
    rw [State.setSlot_self]
  · rw [locked_ne hj]

end Entries

/-! ## Other entries of the cache -/

section Others

variable {ok : State → Op → Prop} {p : Pid} {s : State} {ip : Ptr}

def Others (ip : Ptr) (s t : State) : Prop := ∀ jp, jp ≠ ip → t.icache jp = s.icache jp

/-- The actions of `iput` and `iunlock`. -/
def Op.onOnly (ip : Ptr) : Op → Bool
  | .acquiresleep jp => jp == ip
  | .releasesleep jp => jp == ip
  | .iunlock jp => jp == ip
  | .unlinked jp => jp == ip
  | .refCount jp => jp == ip
  | .invalidate jp => jp == ip
  | .drop jp => jp == ip
  | .assign jp _ => jp == ip
  | .iupdate jp => jp == ip
  | .itrunc jp => jp == ip
  | _ => false

theorem kept_others {o : Op} (ho : o.onOnly ip = true) : Kept ok p (Others ip s) (perform o) := by
  refine fun t ht => leads_perform.mpr fun r u hu => ?_
  obtain ⟨_, _, hu⟩ := hu
  have hset : ∀ w : Slot, Others ip s (t.setSlot ip w) :=
    fun w jp hj => by rw [State.setSlot_ne w hj, ht jp hj]
  cases o with
  | acquiresleep jp | iunlock jp =>
    cases beq_iff_eq.mp ho
    simp only [sem] at hu
    split at hu <;> cases hu
    exact hset _
  | releasesleep jp | invalidate jp | drop jp | assign jp v =>
    cases beq_iff_eq.mp ho
    cases hu
    exact hset _
  | unlinked jp | refCount jp =>
    cases hu
    exact ht
  | iupdate jp =>
    cases logging_next hu
    exact ht
  | itrunc jp =>
    cases beq_iff_eq.mp ho
    cases logging_next hu
    exact hset _
  | _ => cases ho

/-- **Dropping a reference** touches one entry. -/
theorem leads_put_others : Leads (Acts ok p) s (iunlockput ip) fun _ t => Others ip s t := by
  have hop : ∀ {o : Op}, o.onOnly ip = true → Kept ok p (Others ip s) (perform o) := kept_others
  have hfree : Kept ok p (Others ip s) (iputFree ip) :=
    (hop (BEq.rfl)).bind fun _ => (hop (BEq.rfl)).bind fun _ =>
      (hop (BEq.rfl)).bind fun _ => hop BEq.rfl
  have hunlinked : Kept ok p (Others ip s) (iputUnlinked ip) :=
    (hop (BEq.rfl)).bind fun _ => kept_onlyIf hfree
  have hput : Kept ok p (Others ip s) (iput ip) :=
    (hop (BEq.rfl)).bind fun _ => (hop (BEq.rfl)).bind fun _ =>
        (kept_onlyIf hunlinked).bind fun _ =>
      (hop (BEq.rfl)).bind fun _ => hop BEq.rfl
  exact ((hop (BEq.rfl)).bind fun _ => hput) s fun _ _ => rfl

end Others

end Micro86.Calls
