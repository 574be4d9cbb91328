import Micro86.Fs.Dirs

/-!
# Paths and `create`

`namex` walks a path one element at a time; `create` looks the parent up, allocates an inode and
links it.

* `Good` — what the operations keep: block ownership, the cache invariant and entries that name
  inodes of the volume.
-/

namespace Micro86.Fs

open Exec Function

def SLASH : UInt8 := 47

/-- Copy the next path element: the element, cut to `DIRSIZ` bytes, and the path after it. -/
def skipelem (path : List UInt8) : Option (List UInt8 × List UInt8) :=
  match path.dropWhile (· == SLASH) with
  | [] => none
  | x :: xs =>
    some (((x :: xs).takeWhile (· != SLASH)).take DIRSIZ,
      ((x :: xs).dropWhile (· != SLASH)).dropWhile (· == SLASH))

def iunlockput (sb : SuperBlock) (ip : Ptr) : FsM Unit := do
  iunlock ip
  iput sb ip

/-- The loop of `namex`; every round consumes a path element, so `fuel` above the length of the
    path suffices. -/
def namexLoop (env : Env) (nameiparent : Bool) : Nat → Ptr → List UInt8 → List UInt8 →
    FsM (Option (Ptr × List UInt8))
  | 0, _, _, _ => pure none
  | fuel + 1, ip, path, name =>
    match skipelem path with
    | none =>
      if nameiparent then do
        iput env.sb ip
        pure none
      else pure (some (ip, name))
    | some (name, path) => do
      ilock env.sb ip
      let s ← Exec.get
      if ¬ (s.icache ip).ino.isDir then do
        iunlockput env.sb ip
        pure none
      else if nameiparent ∧ path = [] then do
        -- stop one level early
        iunlock ip
        pure (some (ip, name))
      else do
        let next ← dirlookup env ip name
        match next with
        | none =>
          iunlockput env.sb ip
          pure none
        | some (next, _) =>
          iunlockput env.sb ip
          namexLoop env nameiparent fuel next path name

/-- Look up the inode for a path name, or its parent and the final element. -/
def namex (env : Env) (cwd : Ptr) (path : List UInt8)
    (nameiparent : Bool) : FsM (Option (Ptr × List UInt8)) :=
  if path.headD 0 = SLASH then do
    let ip ← iget ROOTINO
    namexLoop env nameiparent (path.length + 1) ip path []
  else do
    let ip ← idup cwd
    namexLoop env nameiparent (path.length + 1) ip path []

def namei (env : Env) (cwd : Ptr) (path : List UInt8) : FsM (Option Ptr) := do
  let r ← namex env cwd path false
  pure (r.map Prod.fst)

def nameiparent (env : Env) (cwd : Ptr) (path : List UInt8) : FsM (Option (Ptr × List UInt8)) :=
  namex env cwd path true

def iassign (sb : SuperBlock) (ip : Ptr) (f : Inode → Inode) : FsM Unit := do
  Exec.modify fun s => s.setIno ip (f (s.icache ip).ino)
  iupdate sb ip

def DOT : List UInt8 := [46]

def DOTDOT : List UInt8 := [46, 46]

structure Cred where
  cwd : Ptr
  uid : UInt32
  gid : UInt32

def createDots (env : Env) (ip dp : Ptr) : FsM Unit := do
  let s ← Exec.get
  if (s.icache ip).ino.isDir then do
    iassign env.sb dp fun ino => { ino with nlink := ino.nlink + 1 }
    let r ← dirlink env ip DOT (s.icache ip).inum
    if r < 0 then Exec.panic "create dots"
    else do
      let r ← dirlink env ip DOTDOT (s.icache dp).inum
      if r < 0 then Exec.panic "create dots" else pure ()
  else pure ()

/-- The second half of `create`: a new inode under a name that is not there yet. -/
def createNew (env : Env) (c : Cred) (dp : Ptr) (name : List UInt8) (type major minor : UInt16) :
    FsM (Option Ptr) := do
  let ip ← ialloc env.sb env.now type
  ilock env.sb ip
  iassign env.sb ip fun ino => { ino with
    major := major, minor := minor, mode := type, nlink := 1, ctime := env.now, lmtime := env.now,
    uid := c.uid, gid := c.gid }
  createDots env ip dp
  let s ← Exec.get
  let r ← dirlink env dp name (s.icache ip).inum
  if r < 0 then Exec.panic "create: dirlink"
  else do
    iunlockput env.sb dp
    pure (some ip)

def create (env : Env) (c : Cred) (path : List UInt8)
    (type major minor : UInt16) : FsM (Option Ptr) := do
  let r ← nameiparent env c.cwd path
  match r with
  | none => pure none
  | some (dp, name) =>
    ilock env.sb dp
    let found ← dirlookup env dp name
    match found with
    | some (ip, _) =>
      iunlockput env.sb dp
      ilock env.sb ip
      if type &&& S_IFMT = S_IFREG then pure (some ip)
      else do
        iunlockput env.sb ip
        pure none
    | none => createNew env c dp name type major minor

/-! ## What the operations keep -/

structure Good (sb : SuperBlock) (s : State) : Prop where
  consistent : Consistent sb (s.store sb)
  icache : Icache sb s none
  named : Named sb (s.store sb)

/-- Held slots stay with their inode; valid ones stay valid and of their type. -/
def Stays (s t : State) (H : List Ptr) : Prop := ∀ p ∈ H, (t.icache p).inum = (s.icache p).inum ∧
  ((s.icache p).valid = true → (t.icache p).valid = true ∧
    (t.icache p).ino.mode = (s.icache p).ino.mode)

/-- A panic other than that of `bfree`. -/
def OtherPanic (msg : String) : Prop := msg ≠ "freeing free block"
deriving Decidable

/-- The operation keeps `Good`, and `bfree` does not panic. -/
def Safe (sb : SuperBlock) {α : Type} (x : FsM α) (s : State) (Q : α → State → Prop) : Prop :=
  wp x (fun a t => Good sb t ∧ Q a t) OtherPanic s

section Rules

variable {sb : SuperBlock} {α β : Type} {x : FsM α} {f : α → FsM β} {s t u : State} {H : List Ptr}
variable {Q R : α → State → Prop}

theorem Halts.other {msg : String} (h : Halts msg) : OtherPanic msg := by
  rintro rfl
  revert h
  decide

theorem Safe.pure {a : α} (h : Good sb s) (hQ : Q a s) : Safe sb (Pure.pure a) s Q :=
  ⟨h, hQ⟩

theorem Safe.bind {Q : β → State → Prop} (hx : Safe sb x s R)
    (hf : ∀ a t, Good sb t → R a t → Safe sb (f a) t Q) : Safe sb (x >>= f) s Q :=
  wp.seq hx fun a t h => hf a t h.1 h.2

theorem Safe.mono (hx : Safe sb x s R) (h : ∀ a t, R a t → Q a t) : Safe sb x s Q :=
  wp.imp hx fun a t ha => ⟨ha.1, h a t ha.2⟩

theorem Safe.get {Q : β → State → Prop} {f : State → FsM β} (h : Safe sb (f s) s Q) :
    Safe sb (Exec.get >>= f) s Q := h

theorem Stays.refl (s : State) (H : List Ptr) : Stays s s H := fun _ _ => ⟨rfl, fun h => ⟨h, rfl⟩⟩

theorem Stays.trans (h : Stays s t H) (h' : Stays t u H) : Stays s u H := by
  intro p hp
  obtain ⟨h1, h2⟩ := h p hp
  obtain ⟨h3, h4⟩ := h' p hp
  refine ⟨h3.trans h1, fun hv => ?_⟩
  obtain ⟨hv', hm⟩ := h2 hv
  obtain ⟨hv'', hm'⟩ := h4 hv'
  exact ⟨hv'', hm'.trans hm⟩

theorem Stays.sub {G : List Ptr} (h : Stays s t H) (hs : ∀ p ∈ G, p ∈ H) : Stays s t G :=
  fun p hp => h p (hs p hp)

theorem Keeps.stays (h : Keeps s t H) : Stays s t H := fun p hp =>
  ⟨(h p hp).1, fun hv => ⟨((h p hp).2 hv).1, by rw [((h p hp).2 hv).2]⟩⟩

theorem Holds.tail {p : Ptr} (h : Holds s (p :: H)) : Holds s H := by
  intro q hq
  have := h q (.tail _ hq)
  rw [List.count_cons] at this
  split at this <;> omega

theorem Holds.swap {p q : Ptr} (h : Holds s (p :: q :: H)) : Holds s (q :: p :: H) := by
  intro r hr
  have hperm := List.Perm.swap p q H
  rw [hperm.count_eq]
  exact h r (hperm.mem_iff.mp hr)

end Rules

/-! ## Names after a change -/

section Names

variable {sb : SuperBlock} {s t : State} {p : Ptr} {H : List Ptr}

theorem Store.contents_congr {st st' : Store} {i : Nat} (hino : st'.ino i = st.ino i)
    (hblk : st'.blk = st.blk) : st'.contents i = st.contents i := by
  have haddr : ∀ k, st'.addr i k = st.addr i k :=
    fun k => Store.addr_congr hino fun _ _ => by rw [hblk]
  unfold Store.contents Store.byteAt Store.dataAddr
  simp [hino, hblk, haddr]

theorem Named.of_contents {st st' : Store} (h : Named sb st)
    (hdir : ∀ i, (st'.ino i).isDir → (st.ino i).isDir ∧ st'.contents i = st.contents i) :
    Named sb st' := by
  intro i hi k hk
  obtain ⟨h1, h2⟩ := hdir i hi
  rw [h2] at hk ⊢
  exact h i h1 k hk

theorem Inode.not_isDir_of_mode {ip : Inode} (h : ip.mode = 0) : ¬ ip.isDir := by
  unfold Inode.isDir
  rw [h]
  decide

theorem Put.good (h : Put sb s p H t) (hg : Good sb s) : Good sb t := by
  refine ⟨h.consistent, h.icache, hg.named.of_contents fun i hi => ?_⟩
  by_cases hip : i = (s.icache p).inum
  · subst hip
    rcases h.self with hsame | ⟨hfree, _⟩
    · exact ⟨hsame ▸ hi, Store.contents_congr hsame h.blk⟩
    · exact absurd hi (Inode.not_isDir_of_mode hfree)
  · have hsame := h.other i hip
    exact ⟨hsame ▸ hi, Store.contents_congr hsame h.blk⟩

theorem Good.of_disk (hg : Good sb s) (hi : Icache sb t none) (hd : t.disk = s.disk) :
    Good sb t := by
  have hstore := hg.icache.store_eq hi hd
  exact ⟨by rw [hstore]; exact hg.consistent, hi, by rw [hstore]; exact hg.named⟩

theorem IgetTo.good {i : Nat} (h : IgetTo s i p t) (hg : Good sb s) :
    Good sb t := hg.of_disk (h.icache hg.icache) h.disk

theorem Spliced.good {m inum : Nat} {de : Dirent} {name : List UInt8}
    (h : Spliced sb s p (DIRENTSIZE * m) (de.put name inum).bytes t)
    (hg : Good sb s) (hm : DIRENTSIZE * m ≤ (s.contents sb p).length)
    (hd : ((s.store sb).ino (s.icache p).inum).isDir)
    (hinum : inum % 65536 < sb.ninodes) : Good sb t := by
  have hbytes : (de.put name inum).bytes.length = DIRENTSIZE := ByteBlock.length_read ..
  refine ⟨h.consistent, h.icache, fun i hi k hk => ?_⟩
  by_cases hip : i = (s.icache p).inum
  · subst hip
    have hself : (t.store sb).contents (s.icache p).inum =
        splice (s.contents sb p) (DIRENTSIZE * m) (de.put name inum).bytes := h.self
    rw [hself] at hk ⊢
    rw [dent_splice hbytes hm]
    split
    · rw [Dirent.write_bytes, Dirent.ino_put]
      exact hinum
    rename_i hkm
    refine hg.named _ hd k ?_
    show _ ≤ (s.contents sb p).length
    rw [length_splice _ hm, hbytes] at hk
    -- an entry that ends at or before `DIRENTSIZE * m + DIRENTSIZE` and is not that one
    rw [DIRENTSIZE_eq] at *
    omega
  · have hino := h.ino i hip
    rw [h.other i hip] at hk ⊢
    exact hg.named i (hino ▸ hi) k hk

theorem Spliced.stays {off : Nat} {src : List UInt8} (h : Spliced sb s p off src t) (hg : Good sb s)
    (hp : (s.icache p).Active) (hv : (s.icache p).valid = true) (H : List Ptr) : Stays s t H := by
  intro q _
  by_cases hq : q = p
  · subst hq
    refine ⟨h.inum, fun _ => ⟨h.valid, ?_⟩⟩
    have ha : (t.icache q).Active := by
      unfold Slot.Active
      rw [h.ref]
      exact hp
    have h1 := h.icache.store_self ha h.valid
    have h2 := hg.icache.store_self hp hv
    have hmode := h.mode
    rw [h2, ← h.inum, h1] at hmode
    exact hmode
  · rw [h.slots q hq]
    exact ⟨rfl, fun hv => ⟨hv, rfl⟩⟩

theorem Spliced.holds {off : Nat} {src : List UInt8} (h : Spliced sb s p off src t)
    (hH : Holds s H) : Holds t H := by
  intro q hmem
  by_cases hq : q = p
  · subst hq
    rw [h.ref]
    exact hH q hmem
  · rw [h.slots q hq]
    exact hH q hmem

end Names

/-! ## The primitives -/

section Primitives

variable {env : Env} {s : State} {p : Ptr} {H : List Ptr}

theorem Good.opened (hg : Good env.sb s) (hp : (s.icache p).Active) (hv : (s.icache p).valid = true)
    (hd : (s.icache p).ino.isDir) : Opened env.sb s p := ⟨hg.consistent, hg.icache, hp, hv, .inr hd⟩

theorem Good.store_isDir (hg : Good env.sb s) (hp : (s.icache p).Active)
    (hv : (s.icache p).valid = true)
    (hd : (s.icache p).ino.isDir) : ((s.store env.sb).ino (s.icache p).inum).isDir := by
  rw [hg.icache.store_self hp hv]
  exact hd

theorem iput_safe (hg : Good env.sb s) (hH : Holds s (p :: H)) :
    Safe env.sb (iput env.sb p) s fun _ t => Holds t H ∧ Stays s t H :=
  wp.mono (iput_spec hg.consistent hg.icache hH)
    (fun _ _ h => ⟨h.2.good hg, h.2.holds, h.2.keeps.stays⟩) fun _ h => h.halts.other

theorem iunlock_eq (hp : (s.icache p).Active) : iunlock p s = .ok ((), s) := by
  unfold iunlock
  show (if _ then _ else _ : FsM Unit) s = _
  rw [if_neg (by unfold Slot.Active at hp; omega)]
  rfl

variable (hg : Good env.sb s)
include hg

theorem iunlockput_safe (hH : Holds s (p :: H)) :
    Safe env.sb (iunlockput env.sb p) s fun _ t => Holds t H ∧ Stays s t H := by
  have hrun : iunlockput env.sb p s = iput env.sb p s :=
    bind_of_ok (iunlock_eq (hH.active List.mem_cons_self))
  have h := iput_safe hg hH
  unfold Safe wp at h ⊢
  rwa [hrun]

variable (hH : Holds s H)
include hH

theorem ilock_safe (hp : p ∈ H) (hi : (s.icache p).inum < env.sb.ninodes) :
    Safe env.sb (ilock env.sb p) s fun _ t =>
      Holds t H ∧ Stays s t H ∧ (t.icache p).valid = true ∧ t.store env.sb = s.store env.sb := by
  refine wp.mono (ilock_spec hg.icache (hH.active hp) hi) (fun _ t ht => ?_) fun msg hm => ?_
  · exact ⟨hg.of_disk ht.icache ht.disk, ht.holds hH, (ht.keeps H).stays,
      ht.valid, hg.icache.store_eq ht.icache ht.disk⟩
  · rw [hm.1]
    decide

theorem iget_safe (i : Nat) :
    Safe env.sb (iget i) s fun q t => Holds t (q :: H) ∧ Stays s t H ∧ (t.icache q).inum = i := by
  refine wp.mono (iget_spec i) (fun q t ht => ?_) fun msg hm => ?_
  · exact ⟨ht.good hg, ht.holds hH, (ht.keeps hH).stays, ht.inum_eq⟩
  · rw [hm.1]
    decide

theorem dirlookup_safe (hp : p ∈ H) (hv : (s.icache p).valid = true)
    (hd : (s.icache p).ino.isDir) (name : List UInt8) :
    Safe env.sb (dirlookup env p name) s fun r t => Holds t H ∧ Stays s t H ∧
      ∀ q off, r = some (q, off) → Holds t (q :: H) ∧ (t.icache q).inum < env.sb.ninodes := by
  have hact := hH.active hp
  refine wp.mono (dirlookup_spec (hg.opened hact hv hd) hd) (fun r t hr => ?_) fun _ h => h.other
  cases hr with
  | absent _ => exact ⟨hg, hH, Stays.refl _ _, nofun⟩
  | present q m _ hin _ _ hget =>
    refine ⟨hget.good hg, (hget.holds hH).tail, (hget.keeps hH).stays, fun q' off h => ?_⟩
    cases h
    refine ⟨hget.holds hH, ?_⟩
    rw [hget.inum_eq]
    exact hg.named _ (hg.store_isDir hact hv hd) m hin

theorem dirlink_safe (hp : p ∈ H) (hv : (s.icache p).valid = true)
    (hd : (s.icache p).ino.isDir) (name : List UInt8) {inum : Nat}
    (hinum : inum % 65536 < env.sb.ninodes) :
    Safe env.sb (dirlink env p name inum) s fun _ t => Holds t H ∧ Stays s t H := by
  have hact := hH.active hp
  refine wp.mono (dirlink_spec (hg.opened hact hv hd) hd hH) (fun r t hr => ?_) fun _ h => h.other
  cases hr with
  | «exists» q m u _ _ _ hget hput =>
    exact ⟨hput.good (hget.good hg), hput.holds, (hget.keeps hH).stays.trans hput.keeps.stays⟩
  | linked m de _ _ hle _ _ ht =>
    exact ⟨ht.good hg hle (hg.store_isDir hact hv hd) hinum, ht.holds hH, ht.stays hg hact hv H⟩

theorem iassign_safe {f : Inode → Inode} (hp : p ∈ H)
    (hv : (s.icache p).valid = true) (hmode : (f (s.icache p).ino).mode = (s.icache p).ino.mode)
    (hsize : (f (s.icache p).ino).size = (s.icache p).ino.size)
    (haddrs : (f (s.icache p).ino).addrs = (s.icache p).ino.addrs) :
    Safe env.sb (iassign env.sb p f) s fun _ t => Holds t H ∧ Stays s t H ∧
      (∀ q, (t.icache q).inum = (s.icache q).inum) := by
  have hl := hg.icache.locked (hH.active hp) hv
  have hself := hl.store
  have hstore := hl.store_setIno (f (s.icache p).ino)
  have hset : Locked env.sb (s.setIno p (f (s.icache p).ino)) p :=
    hl.setIno (by rw [hmode]; exact hl.mode)
  have haddr :
      ∀ j k, ((s.store env.sb).setInode (s.icache p).inum (f (s.icache p).ino).core).addr j k =
      (s.store env.sb).addr j k :=
    Store.addr_setInode (by rw [hself]; exact hmode) (by rw [hself]; exact haddrs)
  have hino : ∀ i, ∃ ip : Inode,
      ((s.store env.sb).setInode (s.icache p).inum (f (s.icache p).ino).core).ino i = ip ∧
      ip.mode = ((s.store env.sb).ino i).mode ∧ ip.size = ((s.store env.sb).ino i).size := by
    intro i
    by_cases hi : i = (s.icache p).inum
    · subst hi
      exact ⟨_, update_self .., by rw [hself]; exact hmode, by rw [hself]; exact hsize⟩
    · exact ⟨_, update_of_ne hi _ _, rfl, rfl⟩
  unfold iassign
  rw [Safe, wp_bind, wp_modify]
  refine wp.mono (iupdate_spec hset.icache (.inr rfl) hset.active hset.valid)
    ?_ fun _ h => h.halts.other
  rintro _ t ⟨_, hts, htc, _, _, htn⟩
  refine ⟨⟨?_, htn hset.mode, ?_⟩, fun q _ => ?_, fun q _ => ?_, fun q => ?_⟩
  · rw [hts, hstore]
    refine hg.consistent.setInode (haddr _) fun hk n hn => ?_
    refine hg.consistent.mapped (s.icache p).inum ?_ n ?_
    · unfold Inode.isReg Inode.isDir at hk ⊢
      rwa [hself, ← show (f (s.icache p).ino).core.mode = (s.icache p).ino.core.mode from hmode]
    · rw [hself]
      show n * BSIZE < (s.icache p).ino.size.toNat
      rw [← hsize]
      exact hn
  · rw [hts, hstore]
    refine hg.named.of_contents fun i hi => ?_
    obtain ⟨ip, hip, hm, hs⟩ := hino i
    refine ⟨?_, ?_⟩
    · unfold Inode.isDir at hi ⊢
      rwa [hip, hm] at hi
    · unfold Store.contents Store.byteAt Store.dataAddr
      simp only [haddr, hip, hs]
      rfl
  · rw [htc, State.setIno_ref]
    exact hH q ‹_›
  · rw [htc, State.setIno_inum, State.setIno_valid]
    refine ⟨rfl, fun hq => ⟨hq, ?_⟩⟩
    by_cases hqp : q = p
    · rw [hqp, State.setIno_ino, hmode]
    · rw [State.setIno_ne _ hqp]
  · rw [htc, State.setIno_inum]

theorem ialloc_safe (type : UInt16) :
    Safe env.sb (ialloc env.sb env.now type) s fun q t => Holds t (q :: H) ∧ Stays s t H ∧
      (t.icache q).inum < env.sb.ninodes ∧
      (t.store env.sb).ino (t.icache q).inum = { Inode.zero with mode := type } := by
  refine wp.mono (ialloc_spec hg.icache hH) ?_ fun msg hm => ?_
  · rintro q t ⟨i, _, hi, hfree, hstore, hinum, hcache, hholds, hkeeps⟩
    have hself : (t.store env.sb).ino i = { Inode.zero with mode := type } := by
      rw [hstore]
      exact update_self ..
    refine ⟨⟨?_, hcache, fun j hj k hk => ?_⟩, hholds, hkeeps.stays,
      by rw [hinum]; exact hi, by rw [hinum, hself]⟩
    · rw [hstore]
      exact hg.consistent.newInode hfree type
    · by_cases hji : j = i
      · subst hji
        rw [Store.length_contents, hself] at hk
        have := DIRENTSIZE_eq
        exact absurd hk (by show ¬ _ ≤ 0; omega)
      have hino : (t.store env.sb).ino j = (s.store env.sb).ino j := by
        rw [hstore]
        exact update_of_ne hji _ _
      have hc : (t.store env.sb).contents j = (s.store env.sb).contents j :=
        Store.contents_congr hino (by rw [hstore]; rfl)
      rw [hc] at hk ⊢
      exact hg.named j (hino ▸ hj) k hk
  · rcases hm with rfl | rfl | hm
    · decide
    · decide
    · exact hm.halts.other

end Primitives

/-! ## Walking a path -/

section Walk

variable {env : Env} {H : List Ptr}

theorem Stays.isDir {s t : State} {p : Ptr} (h : Stays s t H)
    (hp : p ∈ H) (hv : (s.icache p).valid = true)
    (hd : (s.icache p).ino.isDir) : (t.icache p).ino.isDir := by
  unfold Inode.isDir
  rw [((h p hp).2 hv).2]
  exact hd

/-- The result of a walk: the inode is held, and it is a directory when the walk stops early. -/
def WalkTo (env : Env) (H : List Ptr) (nameiparent : Bool) (s : State)
    (r : Option (Ptr × List UInt8)) (t : State) : Prop :=
  Holds t H ∧ Stays s t H ∧ ∀ q name, r = some (q, name) → Holds t (q :: H) ∧
    (t.icache q).inum < env.sb.ninodes ∧
    (nameiparent = true → (t.icache q).valid = true ∧ (t.icache q).ino.isDir)

theorem namexLoop_safe (parent : Bool) :
    ∀ (fuel : Nat) (p : Ptr) (path name : List UInt8) (s : State),
    Good env.sb s → Holds s (p :: H) → (s.icache p).inum < env.sb.ninodes →
    Safe env.sb (namexLoop env parent fuel p path name) s (WalkTo env H parent s)
  | 0, p, path, name, s, hg, hH, _ => Safe.pure hg ⟨hH.tail, Stays.refl _ _, nofun⟩
  | fuel + 1, p, path, name, s, hg, hH, hi => by
    unfold namexLoop
    split
    · split
      · refine Safe.bind (iput_safe hg hH) fun _ t ht h => ?_
        exact Safe.pure ht ⟨h.1, h.2, nofun⟩
      rename_i hpar
      refine Safe.pure hg ⟨hH.tail, Stays.refl _ _, fun q name' h => ?_⟩
      cases h
      exact ⟨hH, hi, fun h => absurd h hpar⟩
    rename_i elem rest _
    refine Safe.bind (ilock_safe hg hH List.mem_cons_self hi) ?_
    rintro _ t ht ⟨hHt, hst, hvt, _⟩
    have hit : (t.icache p).inum < env.sb.ninodes := by rw [(hst p List.mem_cons_self).1]; exact hi
    have hsub : ∀ q ∈ H, q ∈ p :: H := fun q hq => List.mem_cons_of_mem p hq
    refine Safe.get ?_
    split
    · refine Safe.bind (iunlockput_safe ht hHt) fun _ u hu h => ?_
      exact Safe.pure hu ⟨h.1, (hst.sub hsub).trans h.2, nofun⟩
    rename_i hdir
    have hd := not_not.mp hdir
    split
    · rw [Safe, wp_bind, wp_of_eq (iunlock_eq (hHt.active List.mem_cons_self))]
      refine Safe.pure ht ⟨hHt.tail, hst.sub hsub, fun q name' h => ?_⟩
      cases h
      exact ⟨hHt, hit, fun _ => ⟨hvt, hd⟩⟩
    refine Safe.bind (dirlookup_safe ht hHt List.mem_cons_self hvt hd elem) ?_
    rintro r u hu ⟨hHu, hsu, hr⟩
    split
    · refine Safe.bind (iunlockput_safe hu hHu) fun _ v hv h => ?_
      exact Safe.pure hv ⟨h.1, ((hst.trans hsu).sub hsub).trans h.2, nofun⟩
    rename_i next off
    obtain ⟨hHn, hin⟩ := hr next off rfl
    refine Safe.bind (iunlockput_safe hu hHn.swap) ?_
    rintro _ v hv ⟨hHv, hsv⟩
    have hiv : (v.icache next).inum < env.sb.ninodes := by
      rw [(hsv next List.mem_cons_self).1]
      exact hin
    refine Safe.mono (namexLoop_safe parent fuel next rest elem v hv hHv hiv) ?_
    rintro r' w ⟨h1, h2, h3⟩
    exact ⟨h1, (((hst.trans hsu).sub hsub).trans
      (hsv.sub fun q hq => List.mem_cons_of_mem _ hq)).trans h2, h3⟩

theorem namex_safe {s : State} {cwd : Ptr} (parent : Bool) (path : List UInt8)
    (hg : Good env.sb s) (hH : Holds s H)
    (hcwd : cwd ∈ H) (hi : (s.icache cwd).inum < env.sb.ninodes) :
    Safe env.sb (namex env cwd path parent) s (WalkTo env H parent s) := by
  unfold namex
  split
  · refine Safe.bind (iget_safe hg hH ROOTINO) ?_
    rintro p t ht ⟨hHt, hst, hit⟩
    refine Safe.mono
      (namexLoop_safe parent _ p path [] t ht hHt (by rw [hit]; exact env.sb.root_lt)) ?_
    rintro r u ⟨h1, h2, h3⟩
    exact ⟨h1, hst.trans h2, h3⟩
  have hact := hH.active hcwd
  have hget : IgetTo s (s.icache cwd).inum cwd
      (s.setSlot cwd { s.icache cwd with ref := (s.icache cwd).ref + 1 }) :=
    .hit cwd hact rfl
  have hdup : Safe env.sb (idup cwd) s fun p t => p = cwd ∧ IgetTo s (s.icache cwd).inum cwd t :=
    ⟨hget.good hg, rfl, hget⟩
  refine Safe.bind hdup ?_
  rintro _ t ht ⟨rfl, hto⟩
  refine Safe.mono
    (namexLoop_safe parent _ _ path [] t ht (hto.holds hH) (by rw [hto.inum_eq]; exact hi)) ?_
  rintro r u ⟨h1, h2, h3⟩
  exact ⟨h1, (hto.keeps hH).stays.trans h2, h3⟩

end Walk

/-! ## Creating -/

section Create

variable {env : Env} {H : List Ptr} {s : State}

theorem Safe.panic {α : Type} {msg : String} {Q : α → State → Prop} (h : OtherPanic msg) :
    Safe env.sb (Exec.panic msg : FsM α) s Q := h

theorem createDots_safe {ip dp : Ptr} (hg : Good env.sb s) (hH : Holds s H)
    (hip : ip ∈ H) (hdp : dp ∈ H)
    (hvi : (s.icache ip).valid = true) (hvd : (s.icache dp).valid = true) :
    Safe env.sb (createDots env ip dp) s fun _ t => Holds t H ∧ Stays s t H := by
  have hknown : ∀ q ∈ H, (s.icache q).valid = true → (s.icache q).inum % 65536 < env.sb.ninodes :=
    fun q hq hv =>
    (Nat.mod_le _ _).trans_lt (hg.icache.known q (hH.active hq) hv)
  unfold createDots
  refine Safe.get ?_
  split
  · rename_i hd
    refine Safe.bind (iassign_safe hg hH hdp hvd rfl rfl rfl) ?_
    rintro _ t ht ⟨hHt, hst, _⟩
    refine Safe.bind (dirlink_safe ht hHt hip ((hst ip hip).2 hvi).1
      (hst.isDir hip hvi hd) DOT (hknown ip hip hvi)) ?_
    rintro r u hu ⟨hHu, hsu⟩
    have hsu' := hst.trans hsu
    split
    · exact Safe.panic (by decide)
    refine Safe.bind (dirlink_safe hu hHu hip ((hsu' ip hip).2 hvi).1 (hsu'.isDir hip hvi hd) DOTDOT
      (hknown dp hdp hvd)) ?_
    rintro r v hv ⟨hHv, hsv⟩
    split
    · exact Safe.panic (by decide)
    · exact Safe.pure hv ⟨hHv, hsu'.trans hsv⟩
  · exact Safe.pure hg ⟨hH, Stays.refl _ _⟩

theorem createNew_safe {dp : Ptr} (c : Cred) (name : List UInt8)
    (type major minor : UInt16) (hg : Good env.sb s)
    (hH : Holds s (dp :: H)) (hv : (s.icache dp).valid = true) (hd : (s.icache dp).ino.isDir) :
    Safe env.sb (createNew env c dp name type major minor) s fun _ _ => True := by
  unfold createNew
  refine Safe.bind (ialloc_safe hg hH type) ?_
  rintro ip t ht ⟨hHt, hst, hi, hnew⟩
  have hip : ip ∈ ip :: dp :: H := .head _
  have hdp : dp ∈ ip :: dp :: H := .tail _ List.mem_cons_self
  refine Safe.bind (ilock_safe ht hHt hip hi) ?_
  rintro _ u hu ⟨hHu, hsu, hvu, hstore⟩
  -- the inode read from disk is the one that `ialloc` wrote
  have hmode : (u.icache ip).ino.mode = type := by
    have h := hu.icache.store_self (hHu.active hip) hvu
    rw [hstore, (hsu ip hip).1, hnew] at h
    exact (congrArg Inode.mode h).symm
  refine Safe.bind (iassign_safe hu hHu hip hvu hmode.symm rfl rfl) ?_
  rintro _ w hw ⟨hHw, hsw, _⟩
  have hvdp : (u.icache dp).valid = true := ((hsu dp hdp).2 ((hst dp List.mem_cons_self).2 hv).1).1
  have hddp : (u.icache dp).ino.isDir :=
    hsu.isDir hdp ((hst dp List.mem_cons_self).2 hv).1 (hst.isDir List.mem_cons_self hv hd)
  refine Safe.bind
    (createDots_safe hw hHw hip hdp ((hsw ip hip).2 hvu).1 ((hsw dp hdp).2 hvdp).1) ?_
  rintro _ x hx ⟨hHx, hsx⟩
  have hux := hsw.trans hsx
  refine Safe.get ?_
  have hinum : (x.icache ip).inum % 65536 < env.sb.ninodes :=
    (Nat.mod_le _ _).trans_lt (hx.icache.known ip (hHx.active hip) ((hux ip hip).2 hvu).1)
  refine Safe.bind
    (dirlink_safe hx hHx hdp ((hux dp hdp).2 hvdp).1 (hux.isDir hdp hvdp hddp) name hinum) ?_
  rintro r y hy ⟨hHy, _⟩
  split
  · exact Safe.panic (by decide)
  · refine Safe.bind (iunlockput_safe hy hHy.swap) fun _ z hz _ => ?_
    exact Safe.pure hz trivial

theorem create_safe (c : Cred) (path : List UInt8) (type major minor : UInt16) (hg : Good env.sb s)
    (hcwd : (s.icache c.cwd).Active) (hi : (s.icache c.cwd).inum < env.sb.ninodes) :
    Safe env.sb (create env c path type major minor) s fun _ _ => True := by
  have hH := holds_singleton hcwd
  unfold create nameiparent
  refine Safe.bind (namex_safe true path hg hH List.mem_cons_self hi) ?_
  rintro r t ht ⟨_, _, hr⟩
  split
  · exact Safe.pure ht trivial
  rename_i dp name
  obtain ⟨hHt, hit, hdir⟩ := hr dp name rfl
  obtain ⟨hvt, hdt⟩ := hdir rfl
  have hdp : dp ∈ dp :: [c.cwd] := .head _
  refine Safe.bind (ilock_safe ht hHt hdp hit) ?_
  rintro _ u hu ⟨hHu, hsu, hvu, _⟩
  have hdu := hsu.isDir hdp hvt hdt
  refine Safe.bind (dirlookup_safe hu hHu hdp hvu hdu name) ?_
  rintro r w hw ⟨hHw, hsw, hr⟩
  split
  · rename_i ip off
    obtain ⟨hHi, hiw⟩ := hr ip off rfl
    refine Safe.bind (iunlockput_safe hw hHi.swap) ?_
    rintro _ x hx ⟨hHx, hsx⟩
    refine Safe.bind
      (ilock_safe hx hHx List.mem_cons_self (by rw [(hsx ip List.mem_cons_self).1]; exact hiw)) ?_
    rintro _ y hy ⟨hHy, _⟩
    split
    · exact Safe.pure hy trivial
    · refine Safe.bind (iunlockput_safe hy hHy) fun _ z hz _ => ?_
      exact Safe.pure hz trivial
  · exact createNew_safe c name type major minor hw hHw ((hsw dp hdp).2 hvu).1
      (hsw.isDir hdp hvu hdu)

end Create

end Micro86.Fs
