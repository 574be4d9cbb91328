import Micro86.Calls.Creation

/-!
# Only the owner changes a file

A regular file with a link, and calls one after the other by processes of other users: the calls
that write a file or change its mode or owner test the owner first, and what creates or frees inodes
never meets a file that has a link.  The truncation of `sys_open` and `sys_creat` has no such test.

* `others_keep_file` — the file is as it was after any sequence of such calls.
-/

namespace Micro86.Calls

open Prog
open Fs (Inode Ptr Dirent S_IFMT S_IFREG S_IFDIR)

variable {ip dp : Ptr} {name : List UInt8} {me : Proc}

/-- An inode shows the mode, owner and size of the file, and has a link. -/
structure Shows (file ino : Inode) : Prop where
  mode : ino.mode = file.mode
  uid : ino.uid = file.uid
  size : ino.size = file.size
  nlink : ino.nlink ≠ 0

/-- Inode `i` is the file with these contents, on disk and in every entry of the cache in use. -/
structure FileIs (i : Nat) (file : Inode) (bytes : List UInt8) (s : State) : Prop where
  disk : Shows file (s.disk i)
  data : s.data i = bytes
  cached : ∀ ip, 0 < (s.icache ip).ref → (s.icache ip).valid = true →
    (s.icache ip).inum = i → Shows file (s.icache ip).ino

def Call.onFiles : Call → Bool
  | .open _ _ _ => true
  | .creat _ _ => true
  | .write _ _ => true
  | .writev _ _ => true
  | .lseek _ _ _ => true
  | .llseek _ _ _ => true
  | .chmod _ _ => true
  | .fchmod _ _ => true
  | .chown _ _ _ => true
  | .fchown _ _ _ => true
  | .close _ => true
  | _ => false

/-- `sys_open` and `sys_creat` do not truncate inode `i`, and writes go to no directory. -/
def Spares (i : Nat) : Call → State → Op → Prop
  | .open _ _ _, s, .itrunc ip => (s.icache ip).inum ≠ i
  | .creat _ _, s, .itrunc ip => (s.icache ip).inum ≠ i
  | .write _ _, s, .writei ip _ _ => ¬ (s.icache ip).ino.isDir
  | .writev _ _, s, .writei ip _ _ => ¬ (s.icache ip).ino.isDir
  | _, _, _ => True

def Stranger (owner : UInt32) (me : Proc) : Prop := me.uid ≠ 0 ∧ me.uid.toUInt32 ≠ owner

/-- A call on files by a process of another user. -/
def Foreign (n i : Nat) (owner : UInt32) (s : State) (e : Pid × Call) (t : State) : Prop :=
  e.2.onFiles = true ∧ (∀ me, s.proc e.1 = some me → Stranger owner me) ∧ Turn n (Spares i) s e t

namespace FileIs

variable {i : Nat} {file : Inode} {bytes : List UInt8} {s t : State} {p : Pid}

variable (h : FileIs i file bytes s)
include h

theorem of_other (hdisk : t.disk i = s.disk i) (hdata : t.data i = s.data i)
    (hcache : ∀ ip, (t.icache ip).inum = i → t.icache ip = s.icache ip) :
    FileIs i file bytes t where
  disk := by
    rw [hdisk]
    exact h.disk
  data := hdata.trans h.data
  cached ip href hvalid hinum := by
    have he := hcache ip hinum
    rw [he] at href hvalid hinum ⊢
    exact h.cached ip href hvalid hinum

theorem setIno (hip : (s.icache ip).inum ≠ i) (v : Inode) :
    FileIs i file bytes (s.setIno ip v) := by
  refine h.of_other rfl rfl fun jp hjp => ?_
  rw [(steady_setIno ip v).inum jp] at hjp
  exact State.setSlot_ne _ fun he => hip (he ▸ hjp)

theorem update (hip : (s.icache ip).inum ≠ i) : FileIs i file bytes (s.update ip) :=
  h.of_other (State.setDisk_ne _ (Ne.symm hip)) rfl fun _ _ => rfl

theorem setData {j : Nat} (hj : j ≠ i) (v : List UInt8) : FileIs i file bytes (s.setData j v) :=
  h.of_other rfl (State.setData_ne v (Ne.symm hj)) fun _ _ => rfl

section

variable (hip : (s.icache ip).inum ≠ i)
include hip

theorem stored (v : Inode → Inode) :
    FileIs i file bytes (s.stored ip v) := by
  refine (h.setIno hip _).update ?_
  rwa [(steady_setIno ip _).inum]

theorem itrunc : FileIs i file bytes (s.itrunc ip) := by
  refine ((h.setIno hip _).setData hip []).update ?_
  show ((s.setIno ip _).icache ip).inum ≠ i
  rwa [(steady_setIno ip _).inum]

theorem write {hint : Hint} {src : List UInt8} {off : Nat} :
    FileIs i file bytes (s.write hint ip src off) := by
  have hdata := h.setData hip (Fs.splice (s.data (s.icache ip).inum) off src)
  unfold State.write
  dsimp only
  split
  · refine (hdata.setIno hip _).update ?_
    rwa [(steady_setIno ip _).inum]
  · exact hdata

end

theorem links {inum : Nat} (hdp : (s.icache dp).inum ≠ i)
    (hl : Links s dp name inum t) : FileIs i file bytes t := by
  obtain ⟨_, _, _, _, _, _, _, _, rfl⟩ := hl.wrote
  exact h.write hdp

theorem dots (hip : (s.icache ip).inum ≠ i) (hdp : (s.icache dp).inum ≠ i)
    (hd : Dots s ip dp t) : FileIs i file bytes t := by
  obtain ⟨u, hu, ht⟩ := hd
  have hip' : ∀ {w : State}, Steady s w → (w.icache ip).inum ≠ i := fun hw => by rwa [hw.inum]
  have hfirst := (h.stored hdp _).links (hip' (steady_stored dp _)) hu
  exact hfirst.links (hip' ((steady_stored dp _).trans hu.steady)) ht

theorem calm (hc : Calm p s t) : FileIs i file bytes t where
  disk := by
    rw [hc.disk]
    exact h.disk
  data := by
    rw [hc.data]
    exact h.data
  cached ip href hvalid hinum := by
    cases hc.slot ip with
    | kept hi hino hv hr =>
      rw [hino]
      exact h.cached ip (hr href) (hv ▸ hvalid) (hi ▸ hinum)
    | emptied hv =>
      rw [hv] at hvalid
      cases hvalid
    | loaded hi hino _ =>
      rw [hino, ← hi, hinum]
      exact h.disk

theorem allocated {j : Nat} (hj : j ≠ i) (type : UInt16) (time : UInt32) :
    FileIs i file bytes (s.allocated j type time) :=
  h.of_other (State.setDisk_ne _ (Ne.symm hj)) (State.setData_ne _ (Ne.symm hj)) fun _ _ => rfl

theorem ne_of_dir (hreg : file.isReg) (hd : Held p s dp) (hdir : (s.icache dp).ino.isDir) :
    (s.icache dp).inum ≠ i := by
  intro he
  have hmode := (h.cached dp hd.ref hd.valid he).mode
  unfold Inode.isDir at hdir
  rw [hmode, show file.mode &&& S_IFMT = S_IFREG from hreg] at hdir
  exact absurd hdir (by decide)

end FileIs

/-! ## The calls -/

section Calls

variable {i : Nat} {file : Inode} {bytes : List UInt8} {ok : State → Op → Prop}
  {p : Pid} {s t : State}

/-- The file is as it was, and the caller is not its owner. -/
structure Safe (i : Nat) (file : Inode) (bytes : List UInt8) (p : Pid) (s : State) : Prop where
  kept : FileIs i file bytes s
  stranger : ∀ me, s.proc p = some me → Stranger file.uid me

theorem Safe.of_proc (h : Safe i file bytes p s) (hf : FileIs i file bytes t)
    (hp : t.proc = s.proc) : Safe i file bytes p t := ⟨hf, by rw [hp]; exact h.stranger⟩

theorem Safe.calm (h : Safe i file bytes p s) (hc : Calm p s t) : Safe i file bytes p t := by
  refine ⟨h.kept.calm hc, fun me' hme' => ?_⟩
  obtain ⟨me, hme, huid⟩ := hc.uid me' hme'
  have hstranger := h.stranger me hme
  unfold Stranger at hstranger ⊢
  rwa [huid]

theorem proc_write {h : Hint} {src : List UInt8} {off : Nat} :
    (s.write h ip src off).proc = s.proc := by
  unfold State.write
  dsimp only
  split <;> rfl

theorem Links.proc {inum : Nat} (h : Links s dp name inum t) : t.proc = s.proc := by
  obtain ⟨_, _, _, _, _, _, _, _, rfl⟩ := h.wrote
  exact proc_write

theorem Dots.proc (h : Dots s ip dp t) : t.proc = s.proc := by
  obtain ⟨u, hu, ht⟩ := h
  exact ht.proc.trans hu.proc

theorem safe_keeper (hb : ∀ s o, ok s o → o.backed s) : Keeper ok p (Safe i file bytes p) where
  backed := hb
  calm s t hs hc := hs.calm hc
  free s ip hs href hvalid hnlink := by
    -- a file with a link is not freed
    have hip : (s.icache ip).inum ≠ i := fun he => (hs.kept.cached ip href hvalid he).nlink hnlink
    have htrunc : ((s.itrunc ip).icache ip).inum ≠ i := by rwa [(steady_itrunc ip).inum]
    refine leads_itrunc fun _ => leads_stored (leads_perform.mpr fun _ t ht => ?_)
    obtain ⟨hok, _, ht⟩ := ht
    have hsafe : Safe i file bytes p ((s.itrunc ip).stored ip fun ino => { ino with mode := 0 }) :=
      hs.of_proc ((hs.kept.itrunc hip).stored htrunc _) rfl
    exact hsafe.calm (calm_of_tame rfl (hb _ _ hok) ht)
  touch s ip lmtime hs := by
    refine hs.of_proc ⟨hs.kept.disk, hs.kept.data, fun jp href hvalid hinum => ?_⟩ rfl
    by_cases hj : jp = ip
    · subst hj
      have hself : (s.setIno jp { (s.icache jp).ino with lmtime := lmtime }).icache jp =
          { s.icache jp with ino := { (s.icache jp).ino with lmtime := lmtime } } :=
            State.setSlot_self ..
      rw [hself] at href hvalid hinum ⊢
      have hshows := hs.kept.cached jp href hvalid hinum
      exact ⟨hshows.mode, hshows.uid, hshows.size, hshows.nlink⟩
    have hne : (s.setIno ip { (s.icache ip).ino with lmtime := lmtime }).icache jp = s.icache jp :=
      State.setSlot_ne _ hj
    rw [hne] at href hvalid hinum ⊢
    exact hs.kept.cached jp href hvalid hinum

theorem Safe.creation {n : Nat} {type : UInt16} (h : Safe i file bytes p s)
    (hreg : file.isReg) (hd : Held p s dp) (hdir : (s.icache dp).ino.isDir)
    (hc : Creation p s n dp name type ip t) :
    Safe i file bytes p t ∧ Held p t ip ∧ ip ≠ dp := by
  obtain ⟨j, time, u, v, w, _, _, hfree, hget, hlock, _, hdots, hlink⟩ := hc.steps
  have hj : j ≠ i := by
    rintro rfl
    rw [h.kept.disk.mode] at hfree
    rw [Inode.isReg, hfree] at hreg
    exact absurd hreg (by decide)
  have hdp := h.kept.ne_of_dir hreg hd hdir
  -- the new inode, locked
  have hu : Safe i file bytes p u :=
    (h.of_proc (h.kept.allocated hj type time) rfl).calm (Calm.of_iget hget)
  have hdu :
      Held p u dp := Held.iget (s := s.allocated j type time) ⟨hd.ref, hd.valid, hd.lock⟩ hget
  have hne : dp ≠ ip := hdu.ne hlock
  have hl : Safe i file bytes p (u.locked p ip) := hu.calm (calm_locked hlock)
  have hipl : ((u.locked p ip).icache ip).inum ≠ i := by
    rw [locked_inum, hget.entry.1]
    exact hj
  have hdpl : ((u.locked p ip).icache dp).inum ≠ i := by
    rw [locked_inum, (Igets.keeps hget hd.ref).1]
    exact hdp
  -- filled, with its entries if it is a directory
  have hs : Safe i file bytes p ((u.locked p ip).stored ip v) :=
    hl.of_proc (hl.kept.stored hipl v) rfl
  have hsteady : Steady (u.locked p ip) ((u.locked p ip).stored ip v) := steady_stored ip v
  have hw : Safe i file bytes p w ∧ Steady (u.locked p ip) w := by
    split at hdots
    · refine ⟨hs.of_proc (hs.kept.dots ?_ ?_ hdots) hdots.proc, hsteady.trans hdots.steady⟩
      · rwa [hsteady.inum]
      · rwa [hsteady.inum]
    · rw [hdots]
      exact ⟨hs, hsteady⟩
  have ht : Steady (u.locked p ip) t := hw.2.trans hlink.steady
  refine ⟨hw.1.of_proc (hw.1.kept.links ?_ hlink) hlink.proc,
    (held_locked hlock).steady ht, hne.symm⟩
  rwa [hw.2.inum]

theorem safe_creates (hreg : file.isReg) (hb : ∀ s o, ok s o → o.backed s) (n : Nat) :
    Keeper.Creates ok p (Safe i file bytes p) n := by
  intro s dp name type major minor hs hd hdir
  refine leads_createNew fun ip t hc => ?_
  obtain ⟨ht, hip, hne⟩ := hs.creation hreg hd hdir hc
  refine leads_bind.mpr ?_
  refine (leads_and ((safe_keeper hb).iunlockput dp t ht) leads_put_others).mono fun _ u hu =>
    ⟨hu.1, fun jp hjp => ?_⟩
  cases hjp
  have hsame := hu.2 ip hne
  exact ⟨by rw [hsame]; exact hip.ref, by rw [hsame]; exact hip.valid, by
    rw [hsame]; exact hip.lock⟩

section

variable (h : Safe i file bytes p s)
include h

theorem Safe.ne_of_owner (hd : Held p s ip) (hme : s.proc p = some me)
    (huid : me.uid.toUInt32 = (s.icache ip).ino.uid) : (s.icache ip).inum ≠ i := by
  intro he
  rw [(h.kept.cached ip hd.ref hd.valid he).uid] at huid
  exact (h.stranger me hme).2 huid

theorem Safe.ne_of_mayWrite (hreg : file.isReg) (hd : Held p s ip)
    (hme : s.proc p = some me) (hmay : mayWrite me (s.icache ip).ino) : (s.icache ip).inum ≠ i := by
  rcases hmay with huid | hdev
  · exact h.ne_of_owner hd hme huid
  intro he
  have hmode := (h.kept.cached ip hd.ref hd.valid he).mode
  have hfile : (s.icache ip).ino.isReg := by
    rw [Inode.isReg, hmode]
    exact hreg
  exact Fs.Inode.not_isDev (.inl hfile) hdev

theorem Safe.ne_of_mayChange (hd : Held p s ip) (hme : s.proc p = some me)
    (hmay : mayChange me (s.icache ip).ino) : (s.icache ip).inum ≠ i := by
  rcases hmay with hroot | huid
  · exact absurd hroot (h.stranger me hme).1
  · exact h.ne_of_owner hd hme huid

end

theorem safe_writes (hreg : file.isReg) (hb : ∀ s o, ok s o → o.backed s) :
    Keeper.Writes ok p (Safe i file bytes p) := by
  have K : Keeper ok p (Safe i file bytes p) := safe_keeper hb
  intro s f ip src me hs hd hme hmay
  have hip := hs.ne_of_mayWrite hreg hd hme hmay
  refine leads_fileGet (leads_bind.mpr (leads_perform.mpr fun r t ht => ?_))
  obtain ⟨_, hint, ht⟩ := ht
  have hafter : Safe i file bytes p t ∧ (t.icache ip).inum ≠ i := by
    rcases writei_next ht with ⟨_, _, _, rfl⟩ | ⟨rfl, _⟩
    · refine ⟨hs.of_proc (hs.kept.write hip) proc_write, ?_⟩
      rwa [(steady_write hint ip src _).inum]
    · exact ⟨hs, hip⟩
  refine Leads.bind ?_ fun _ u hu =>
    ((K.tame rfl).bind fun _ => (K.tame rfl).bind fun _ => kept_pure) u hu
  unfold onlyIf
  split
  · -- the offset is in the file table
    refine leads_bind.mpr (leads_perform.mpr fun _ u hu => leads_now fun lmtime => ?_)
    obtain ⟨_, _, hu⟩ := hu
    cases hu
    have hoff : ∀ w, FileIs i file bytes (t.setFile f w) :=
      fun w => hafter.1.kept.of_other rfl rfl fun _ _ => rfl
    refine leads_assign (leads_perform.mpr fun _ w hw => ?_)
    obtain ⟨_, _, hw⟩ := hw
    cases logging_next hw
    exact hafter.1.of_proc ((hoff _).stored hafter.2 fun ino => { ino with lmtime := lmtime }) rfl
  · exact hafter.1

theorem safe_change {v : Inode → Inode} {release : Ptr → Int → M Int}
    (hrelease : ∀ r, Kept ok p (Safe i file bytes p) (release ip r))
    (hs : Safe i file bytes p s) (hd : Held p s ip) :
    Leads (Acts ok p) s (change ip v release) fun _ t => Safe i file bytes p t := by
  refine leads_myproc fun me hme => leads_fields ?_
  split
  · exact hrelease _ s hs
  rename_i hmay
  have hip := hs.ne_of_mayChange hd hme (Decidable.not_not.mp hmay)
  exact leads_stored (hrelease 0 _ (hs.of_proc (hs.kept.stored hip v) rfl))

theorem safe_call (hreg : file.isReg) {n : Nat} {c : Call} (hc : c.onFiles = true) :
    Kept (fun s o => o.backed s ∧ Spares i c s o) p (Safe i file bytes p) (c.prog n) := by
  have hb : ∀ s o, (o.backed s ∧ Spares i c s o) → o.backed s := fun _ _ h => h.1
  have K : Keeper (fun s o => o.backed s ∧ Spares i c s o) p (Safe i file bytes p) := safe_keeper hb
  cases c with
  | «open» path omode mode =>
    exact K.sysOpen (safe_creates hreg hb n)
      (fun s ip hs _ hok => hs.of_proc (hs.kept.itrunc hok.2) rfl) path omode mode
  | creat path mode =>
    exact K.sysCreat (safe_creates hreg hb n)
      (fun s ip hs _ hok => hs.of_proc (hs.kept.itrunc hok.2) rfl) path mode
  | write fd src => exact K.onFd fd fun _ f => K.fileWrite (safe_writes hreg hb) f src
  | writev fd vec => exact K.onFd fd fun _ f => K.writevLoop (safe_writes hreg hb) f vec 0
  | lseek fd offset whence => exact K.seekFile fd offset whence false
  | llseek fd offset whence => exact K.seekFile fd offset whence true
  | chmod path mode => exact K.onPath path _ fun s ip => safe_change (K.putWith ip)
  | chown path owner group => exact K.onPath path _ fun s ip => safe_change (K.unlockWith ip)
  | fchmod fd mode | fchown fd owner group =>
    exact K.changeFile fd _ fun s ip => safe_change (K.unlockWith ip)
  | close fd => exact K.sysClose fd
  | _ => cases hc

end Calls

/-- **Only the owner changes a file.**  After any sequence of calls on files by processes of other
    users that truncate no file of the owner's, the file has the contents, size, mode and owner it
    had. -/
theorem others_keep_file {n i : Nat} {file : Inode} {bytes : List UInt8}
    {s t : State} {es : List (Pid × Call)}
    (hs : Covers s) (hreg : file.isReg) (hfile : FileIs i file bytes s)
    (hr : Run (Foreign n i file.uid) s es t) :
    FileIs i file bytes t := by
  refine (hr.invariant (I := fun u => Covers u ∧ FileIs i file bytes u)
    (fun u e w hu he => ?_) ⟨hs, hfile⟩).2
  obtain ⟨hc, hstranger, hturn⟩ := he
  have hgetcwd : ∀ depth, e.2 ≠ .getcwd depth := by
    intro depth hd
    rw [hd] at hc
    cases hc
  obtain ⟨hcovers, _, r, hrun⟩ := turn_covers hgetcwd hu.1 hturn
  exact ⟨hcovers, (hrun.leads (safe_call hreg hc u ⟨hu.2, hstranger⟩)).kept⟩

def foreignVolume : State := smallVolume 5 7 7

theorem covers_foreignVolume : Covers foreignVolume :=
  ⟨by decide +kernel, by decide +kernel, fun _ _ => rfl⟩

theorem fileIs_foreignVolume : FileIs 2 (foreignVolume.disk 2) [120] foreignVolume := by
  refine ⟨⟨rfl, rfl, rfl, by decide⟩, rfl, fun ip _ hvalid _ => ?_⟩
  have hnone : (foreignVolume.icache ip).valid = false := by
    show (if ip = slot0 then _ else _ : Slot).valid = false
    split <;> rfl
  rw [hnone] at hvalid
  cases hvalid

theorem stranger_foreignVolume :
    ∀ me, foreignVolume.proc proc0 = some me → Stranger (foreignVolume.disk 2).uid me := by
  intro me hme
  cases hme
  exact ⟨by decide, by decide⟩

/-- `chmod` by another user leaves the file. -/
theorem others_keep_file_chmod :
    ∃ t, Run (Foreign 3 2 (foreignVolume.disk 2).uid) foreignVolume [(proc0, .chmod NAME 0o777)] t ∧
    FileIs 2 (foreignVolume.disk 2) [120] t := by
  obtain ⟨t, hturn, _⟩ := exists_turn 3 (Spares 2) proc0 (.chmod NAME 0o777) (fun _ _ => trivial) 25
    foreignVolume (fun _ => True) rfl (by decide +kernel)
  have hr :
      Run (Foreign 3 2 (foreignVolume.disk 2).uid) foreignVolume [(proc0, .chmod NAME 0o777)] t :=
    .cons ⟨rfl, stranger_foreignVolume, hturn⟩ (.nil t)
  exact ⟨t, hr, others_keep_file covers_foreignVolume (by decide) fileIs_foreignVolume hr⟩

/-- `open` with `O_TRUNC` by another user empties the file. -/
theorem open_truncates_foreign :
    Covers foreignVolume ∧ FileIs 2 (foreignVolume.disk 2) [120] foreignVolume ∧
    (∀ me, foreignVolume.proc proc0 = some me → Stranger (foreignVolume.disk 2).uid me) ∧
    ∃ t, Turn 3 (fun _ _ _ => True) foreignVolume (proc0, .open NAME O_TRUNC 0) t ∧
      (t.disk 2).size = 0 ∧ t.data 2 = [] :=
  ⟨covers_foreignVolume, fileIs_foreignVolume, stranger_foreignVolume,
    exists_turn 3 _ proc0 _ (fun _ _ => trivial) 25 foreignVolume _ rfl (by decide +kernel)⟩

end Micro86.Calls
