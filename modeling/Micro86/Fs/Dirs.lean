import Micro86.Fs.Files

/-!
# Directories

A directory is a file of 32-byte entries; an entry with inode number zero is free.  `dirlookup`
and `dirlink` scan the entries with `readi`.

* `dirScan_spec` — a scan changes nothing and stops at the first entry with the property.
* `dirlink_spec` — the new entry is spliced into the first free place, or appended.
-/

namespace Micro86.Fs

open Exec

/-! ## Names and entries -/

/-- `strncmp(p, q, n)`; the end of a list is the terminating zero. -/
def strncmp : Nat → List UInt8 → List UInt8 → Int
  | 0, _, _ => 0
  | n + 1, p, q =>
    if p.headD 0 ≠ 0 ∧ p.headD 0 = q.headD 0 then strncmp n p.tail q.tail
    else (p.headD 0).toNat - (q.headD 0).toNat

def strncpy : Nat → List UInt8 → List UInt8
  | 0, _ => []
  | n + 1, t => if t.headD 0 = 0 then List.replicate (n + 1) 0 else t.headD 0 :: strncpy n t.tail

def namecmp (s t : List UInt8) : Int := strncmp DIRSIZ s t

abbrev Dirent := ByteBlock DIRENTSIZE

namespace Dirent

def ino (de : Dirent) : Nat := de.u16 0

def name (de : Dirent) : List UInt8 := de.read 7 DIRSIZ

def put (de : Dirent) (name : List UInt8) (inum : Nat) : Dirent :=
  (de.write 7 (strncpy DIRSIZ name)).write 0 (ByteBlock.le16 inum)

def bytes (de : Dirent) : List UInt8 := de.read 0 DIRENTSIZE

end Dirent

/-! ## The code -/

/-- The loops over the entries of a directory from `off` on: read an entry, stop at the first
    with `stop`.  Returns the offset and the entry the loop ends with. -/
def dirScan (env : Env) (dp : Ptr) (msg : String) (stop : Dirent → Bool) :
    Nat → Nat → Dirent → FsM (Nat × Dirent × Bool)
  | 0, off, de => pure (off, de, false)
  | fuel + 1, off, de => do
    let s ← Exec.get
    if (s.icache dp).ino.size.toNat ≤ off then pure (off, de, false)
    else do
      let r ← readi env dp off DIRENTSIZE
      if r.1 ≠ DIRENTSIZE then Exec.panic msg
      else if stop (de.write 0 r.2) then pure (off, de.write 0 r.2, true)
      else dirScan env dp msg stop fuel (off + DIRENTSIZE) (de.write 0 r.2)

def hasName (name : List UInt8) (de : Dirent) : Bool := de.ino != 0 && namecmp name de.name == 0

/-- Look for a directory entry: the inode and the byte offset of the entry. -/
def dirlookup (env : Env) (dp : Ptr) (name : List UInt8) : FsM (Option (Ptr × Nat)) := do
  let s ← Exec.get
  if ¬ (s.icache dp).ino.isDir then Exec.panic "dirlookup not DIR"
  else do
    let r ← dirScan env dp "dirlookup read" (hasName name) (s.icache dp).ino.size.toNat
        0 ByteBlock.zero
    if r.2.2 then do
      let ip ← iget r.2.1.ino
      pure (some (ip, r.1))
    else pure none

def dirlink (env : Env) (dp : Ptr) (name : List UInt8) (inum : Nat) : FsM Int := do
  let found ← dirlookup env dp name
  match found with
  | some (ip, _) =>
    iput env.sb ip
    pure (-1)
  | none =>
    let s ← Exec.get
    let r ← dirScan env dp "dirlink read" (fun de => de.ino == 0)
        (s.icache dp).ino.size.toNat 0 (env.stack inum)
    let n ← writei env dp (r.2.1.put name inum).bytes r.1
    if n ≠ DIRENTSIZE then Exec.panic "dirlink" else pure 0

/-! ## Scanning -/

def dent (c : List UInt8) (k : Nat) : Dirent :=
  ByteBlock.zero.write 0 (slice c (DIRENTSIZE * k) DIRENTSIZE)

theorem write_all {n : Nat} (b : ByteBlock n) {src : List UInt8} (h : src.length = n) :
    b.write 0 src = ByteBlock.zero.write 0 src := by
  apply ByteBlock.ext_byte
  intro i hi
  rw [ByteBlock.byte_write b 0 src hi, ByteBlock.byte_write _ 0 src hi, if_pos (Nat.zero_le _),
    if_pos (Nat.zero_le _), Nat.sub_zero, List.getElem?_eq_getElem (by omega),
      Option.getD_some, Option.getD_some]

inductive ScanTo (c : List UInt8) (stop : Dirent → Bool) (k : Nat) :
    Nat × Dirent × Bool → Prop where
  | found (m : Nat) (hk : k ≤ m) (hin : DIRENTSIZE * m + DIRENTSIZE ≤ c.length)
      (hm : stop (dent c m) = true)
      (hbefore : ∀ j, k ≤ j → j < m → stop (dent c j) = false) :
      ScanTo c stop k (DIRENTSIZE * m, dent c m, true)
  | none (m : Nat) (de : Dirent) (hk : k ≤ m) (hm : c.length ≤ DIRENTSIZE * m)
      (hlast : DIRENTSIZE * m ≤ max c.length (DIRENTSIZE * k))
      (hall : ∀ j, k ≤ j → j < m → stop (dent c j) = false) :
      ScanTo c stop k (DIRENTSIZE * m, de, false)

theorem ScanTo.step {c : List UInt8} {stop : Dirent → Bool} {k : Nat} {r : Nat × Dirent × Bool}
    (hin : DIRENTSIZE * k + DIRENTSIZE ≤ c.length) (hk : stop (dent c k) = false)
    (h : ScanTo c stop (k + 1) r) :
    ScanTo c stop k r := by
  have hsplit : ∀ m, (∀ j, k + 1 ≤ j → j < m → stop (dent c j) = false) →
      ∀ j, k ≤ j → j < m → stop (dent c j) = false := by
    intro m h j hkj hjm
    rcases Nat.eq_or_lt_of_le hkj with rfl | hlt
    · exact hk
    · exact h j hlt hjm
  cases h with
  | found m hkm hm hs hb => exact .found m (by omega) hm hs (hsplit m hb)
  | none m de hkm hm hlast hall =>
    have hmul : DIRENTSIZE * (k + 1) = DIRENTSIZE * k + DIRENTSIZE := Nat.mul_succ _ _
    exact .none m de (by omega) hm (by omega) (hsplit m hall)

section Scan

variable (env : Env) {s : State} {p : Ptr} {bs : List UInt8} (msg : String) (stop : Dirent → Bool)

/-- **A scan** changes nothing; it panics when the directory ends inside an entry. -/
theorem dirScan_spec (h : Reads s.disk (s.icache p).ino bs) : ∀ (fuel k : Nat) (de : Dirent),
    bs.length ≤ DIRENTSIZE * k + fuel →
    wp (dirScan env p msg stop fuel (DIRENTSIZE * k) de) (fun r t => t = s ∧ ScanTo bs stop k r)
      (fun m => m = msg ∧ ¬ DIRENTSIZE ∣ bs.length) s
  | 0, k, de, hf => ⟨rfl, .none k de (Nat.le_refl _) hf (by omega) fun j h1 h2 => by omega⟩
  | fuel + 1, k, de, hf => by
    have hlen := h.size
    have hd := DIRENTSIZE_eq
    unfold dirScan
    rw [wp_bind, wp_get]
    split
    · rename_i hend
      exact ⟨rfl, .none k de (Nat.le_refl _) (by omega) (by omega) fun j h1 h2 => by omega⟩
    rename_i hend
    have hmax : bs.length < 4294967296 := by
      rw [← hlen]
      exact UInt32.toNat_lt _
    have hcut : bs.length < DIRENTSIZE * k + DIRENTSIZE → ¬ DIRENTSIZE ∣ bs.length := by
      rintro hlt ⟨m, hm⟩
      rw [hd] at *
      omega
    by_cases hwrap : DIRENTSIZE * k + DIRENTSIZE < 4294967296
    · have hr : readi env p (DIRENTSIZE * k) DIRENTSIZE s = _ := h.readi_eq (by omega) hwrap
      rw [wp_bind, wp_of_eq hr]
      split
      · rename_i hn
        exact ⟨rfl, hcut (by omega)⟩
      rename_i hn
      have hin : DIRENTSIZE * k + DIRENTSIZE ≤ bs.length := by
        simp only [ne_eq, not_not] at hn
        omega
      have hde : de.write 0 (slice bs (DIRENTSIZE * k) DIRENTSIZE) = dent bs k :=
        write_all de (length_slice hin)
      simp only [hde]
      split
      · rename_i hstop
        exact ⟨rfl, .found k (Nat.le_refl _) hin hstop fun j h1 h2 => by omega⟩
      rename_i hstop
      have hmul : DIRENTSIZE * (k + 1) = DIRENTSIZE * k + DIRENTSIZE := Nat.mul_succ _ _
      refine wp.mono (dirScan_spec h fuel (k + 1) (dent _ k) (by omega)) ?_ fun _ h => h
      rintro r _ ⟨rfl, hto⟩
      exact ⟨rfl, hto.step hin (by simpa using hstop)⟩
    · rw [wp_bind, wp_of_eq (h.readi_refused (by omega) (by omega) fun hc => hwrap hc.2)]
      exact ⟨rfl, hcut (by omega)⟩

variable (h : Begins s.disk (s.icache p).ino bs)
include h

theorem Begins.dirScan_step {k : Nat} (hin : DIRENTSIZE * k + DIRENTSIZE ≤ bs.length)
    (fuel : Nat) (de : Dirent) :
    dirScan env p msg stop (fuel + 1) (DIRENTSIZE * k) de s =
      if stop (dent bs k) then .ok ((DIRENTSIZE * k, dent bs k, true), s)
      else dirScan env p msg stop fuel (DIRENTSIZE * (k + 1)) (dent bs k) s := by
  have hle := h.le
  have hd := DIRENTSIZE_eq
  have hde : de.write 0 (slice bs (DIRENTSIZE * k) DIRENTSIZE) = dent bs k :=
    write_all de (length_slice hin)
  have hr : readi env p (DIRENTSIZE * k) DIRENTSIZE s = _ := h.readi_eq hin
  rw [dirScan]
  show (if _ then _ else _ : FsM _) s = _
  rw [if_neg (by omega), bind_of_ok hr, if_neg (not_not.mpr rfl), hde]
  split <;> rfl

theorem Begins.dirScan_pass {m : Nat} (hin : DIRENTSIZE * m ≤ bs.length)
    {k : Nat} (hk : k ≤ m) (hno : ∀ j, k ≤ j → j < m → stop (dent bs j) = false)
    (fuel : Nat) (de : Dirent) :
    ∃ de', dirScan env p msg stop (m - k + fuel) (DIRENTSIZE * k) de s =
      dirScan env p msg stop fuel (DIRENTSIZE * m) de' s := by
  obtain ⟨d, rfl⟩ := Nat.exists_eq_add_of_le hk
  induction d generalizing k de with
  | zero => exact ⟨de, by rw [Nat.add_zero, Nat.sub_self, Nat.zero_add]⟩
  | succ d ih =>
    have hnext : k + 1 + d = k + (d + 1) := by omega
    have hlt : DIRENTSIZE * k + DIRENTSIZE ≤ bs.length := by
      rw [DIRENTSIZE_eq] at *
      omega
    obtain ⟨de', hde'⟩ := @ih (k + 1) (dent bs k) (by rw [hnext]; exact hin)
        (by omega) fun j h1 h2 => hno j (by omega) (by omega)
    refine ⟨de', ?_⟩
    rw [show k + (d + 1) - k + fuel = k + 1 + d - (k + 1) + fuel +
      1 by omega, h.dirScan_step env msg stop hlt,
      hno k le_rfl (by omega), if_neg Bool.false_ne_true, hde', hnext]

theorem Begins.dirScan_found {m : Nat} (hin : DIRENTSIZE * m + DIRENTSIZE ≤ bs.length)
    (hm : stop (dent bs m) = true) (hbefore : ∀ j, j < m → stop (dent bs j) = false)
    {fuel : Nat} (hf : bs.length ≤ fuel)
    (de : Dirent) :
    dirScan env p msg stop fuel 0 de s = .ok ((DIRENTSIZE * m, dent bs m, true), s) := by
  have hd := DIRENTSIZE_eq
  have hlt : m < fuel := by
    rw [hd] at hin
    omega
  obtain ⟨fuel', rfl⟩ := Nat.exists_eq_add_of_lt hlt
  obtain ⟨de', hde'⟩ :=
    h.dirScan_pass env msg stop (by omega) (Nat.zero_le m) (fun j _ => hbefore j) (fuel' + 1) de
  rw [Nat.sub_zero, Nat.mul_zero, ← Nat.add_assoc] at hde'
  rw [hde', h.dirScan_step env msg stop hin, if_pos hm]

end Scan

/-! ## Entries after a write -/

section Entries

variable {c src : List UInt8} {off m k : Nat}

theorem dent_splice (hlen : src.length = DIRENTSIZE) (hm : DIRENTSIZE * m ≤ c.length) (k : Nat) :
    dent (splice c (DIRENTSIZE * m) src) k = if k = m then ByteBlock.zero.write 0 src
      else dent c k := by
  by_cases hk : k = m
  · rw [if_pos hk, hk, dent]
    congr 1
    apply List.ext_getElem?
    intro o
    rw [getElem?_slice, splice, getElem?_splice hm]
    split
    · rw [if_pos (by omega), Nat.add_sub_cancel_left]
    · rw [List.getElem?_eq_none (by omega)]
  rw [if_neg hk, dent, dent]
  congr 1
  apply List.ext_getElem?
  intro o
  rw [getElem?_slice, getElem?_slice]
  split
  · rw [splice, getElem?_splice hm, if_neg ?_]
    rw [DIRENTSIZE_eq] at *
    omega
  · rfl

theorem length_strncpy : ∀ (n : Nat) (t : List UInt8), (strncpy n t).length = n
  | 0, _ => rfl
  | n + 1, t => by
    unfold strncpy
    split
    · simp
    · simp [length_strncpy n]

theorem Dirent.write_bytes (de : Dirent) : ByteBlock.zero.write 0 de.bytes = de := by
  apply ByteBlock.ext_byte
  intro i hi
  rw [ByteBlock.byte_write _ _ _ hi, if_pos (Nat.zero_le _), Dirent.bytes, ByteBlock.read]
  simp [hi]

theorem Dirent.ino_put (de : Dirent) (name : List UInt8) (inum : Nat) :
    (de.put name inum).ino = inum % 65536 :=
  ByteBlock.u16_write_same _ _ (by decide)

end Entries

/-- Every live entry of every directory names an inode of the volume. -/
def Named (sb : SuperBlock) (st : Store) : Prop :=
  ∀ i, (st.ino i).isDir → ∀ k, DIRENTSIZE * k + DIRENTSIZE ≤ (st.contents i).length →
    (dent (st.contents i) k).ino < sb.ninodes

/-! ## Looking up and linking -/

inductive LookupTo (sb : SuperBlock) (s : State) (p : Ptr) (name : List UInt8) :
    Option (Ptr × Nat) → State → Prop where
  | absent (hall : ∀ j, DIRENTSIZE * j < (s.contents sb p).length →
      hasName name (dent (s.contents sb p) j) = false) :
      LookupTo sb s p name none s
  | present (q : Ptr) (m : Nat) (t : State)
      (hin : DIRENTSIZE * m + DIRENTSIZE ≤ (s.contents sb p).length)
      (hm : hasName name (dent (s.contents sb p) m) = true)
      (hfirst : ∀ j, j < m → hasName name (dent (s.contents sb p) j) = false)
      (hget : IgetTo s (dent (s.contents sb p) m).ino q t) :
      LookupTo sb s p name (some (q, DIRENTSIZE * m)) t

/-- The panics of directory code: resources used up, and malformed or full directories. -/
def Halts (msg : String) : Prop :=
  msg ∈ ["too big a transaction", "log_write outside of trans",
    "balloc: out of blocks", "iget: no inodes",
    "ialloc: no inodes", "dirlookup read", "dirlink read", "dirlink"]
deriving Decidable

theorem Fails.halts {sb : SuperBlock} {s : State} {k r : Nat}
    {msg : String} (h : Fails sb s k r msg) : Halts msg := by
  rcases h with ⟨rfl, _⟩ | ⟨rfl, _⟩ | ⟨rfl, _⟩ <;> decide

section Lookup

variable {env : Env} {s : State} {p : Ptr} {name : List UInt8}

theorem dirlookup_spec (h : Opened env.sb s p) (hd : (s.icache p).ino.isDir) :
    wp (dirlookup env p name) (LookupTo env.sb s p name) Halts s := by
  have hlen := h.length_contents
  unfold dirlookup
  rw [wp_bind, wp_get, if_neg (not_not.mpr hd)]
  have hscan :=
    dirScan_spec env "dirlookup read" (hasName name) h.reads (s.icache p).ino.size.toNat 0
    ByteBlock.zero (by omega)
  refine wp.bind hscan (fun msg hm => by rw [hm.1]; decide) ?_
  rintro r _ ⟨rfl, hr⟩
  cases hr with
  | found m _ hin hm hbefore =>
    rw [if_pos rfl]
    refine wp.bind (iget_spec _) (fun msg hmsg => by rw [hmsg.1]; decide) fun q t hq => ?_
    exact .present q m t hin hm (fun j => hbefore j (Nat.zero_le _)) hq
  | none m de _ hm _ hall =>
    rw [if_neg Bool.false_ne_true]
    refine .absent fun j hj => hall j (Nat.zero_le _) ?_
    have := hj.trans_le hm
    exact Nat.lt_of_mul_lt_mul_left this

/-- What `dirlink` does: the name exists, or the entry goes to the first free place. -/
inductive LinkTo (sb : SuperBlock) (s : State) (p : Ptr) (H : List Ptr)
    (name : List UInt8) (inum : Nat) : Int → State → Prop where
  | exists (q : Ptr) (m : Nat) (u t : State)
      (hin : DIRENTSIZE * m + DIRENTSIZE ≤ (s.contents sb p).length)
      (hm : hasName name (dent (s.contents sb p) m) = true)
      (hget : IgetTo s (dent (s.contents sb p) m).ino q u)
      (hput : Put sb u q H t) : LinkTo sb s p H name inum (-1) t
  | linked (m : Nat) (de : Dirent) (t : State)
      (habsent : ∀ j, DIRENTSIZE * j < (s.contents sb p).length →
        hasName name (dent (s.contents sb p) j) = false)
      (hle : DIRENTSIZE * m ≤ (s.contents sb p).length)
      (hfree : DIRENTSIZE * m < (s.contents sb p).length → (dent (s.contents sb p) m).ino = 0)
      (hfirst : ∀ j, j < m → (dent (s.contents sb p) j).ino ≠ 0)
      (hspliced : Spliced sb s p (DIRENTSIZE * m) (de.put name inum).bytes t) :
      LinkTo sb s p H name inum 0 t

theorem dirlink_spec {H : List Ptr} {inum : Nat} (h : Opened env.sb s p)
    (hd : (s.icache p).ino.isDir)
    (hH : Holds s H) : wp (dirlink env p name inum) (LinkTo env.sb s p H name inum) Halts s := by
  have hlen := h.length_contents
  unfold dirlink
  refine wp.seq (dirlookup_spec h hd) fun r u hr => ?_
  cases hr with
  | present q m _ hin hm _ hget =>
    have hcon : Consistent env.sb (u.store env.sb) := by
      rw [h.icache.store_eq (hget.icache h.icache) hget.disk]
      exact h.consistent
    refine wp.bind (iput_spec hcon (hget.icache h.icache) (hget.holds hH)) (fun _ hm => hm.halts) ?_
    rintro _ t ⟨_, ht⟩
    exact .exists q m u t hin hm hget ht
  | absent hall =>
    show wp (dirScan _ _ _ _ _ _ _ >>= _) _ _ _
    have hscan := dirScan_spec env "dirlink read" (fun de => de.ino == 0) h.reads
      (s.icache p).ino.size.toNat 0 (env.stack inum) (by omega)
    refine wp.bind hscan (fun msg hm => by rw [hm.1]; decide) ?_
    rintro r t ⟨ht, hr⟩
    rw [ht]
    have hplace : ∃ m de, r.1 = DIRENTSIZE * m ∧ r.2.1 = de ∧
        DIRENTSIZE * m ≤ (s.contents env.sb p).length ∧
        (DIRENTSIZE * m < (s.contents env.sb p).length → (dent (s.contents env.sb p) m).ino = 0) ∧
        ∀ j, j < m → (dent (s.contents env.sb p) j).ino ≠ 0 := by
      cases hr with
      | found m _ hin hm hb =>
        exact ⟨m, _, rfl, rfl,
          by omega, fun _ => by simpa using hm, fun j hj => by simpa using hb j (Nat.zero_le _) hj⟩
      | none m de _ hm hlast ha =>
        refine ⟨m, de, rfl, rfl, ?_,
          fun hlt => by omega, fun j hj => by simpa using ha j (Nat.zero_le _) hj⟩
        omega
    obtain ⟨m, de, hoff, hde, hle, hfree, hfirst⟩ := hplace
    rw [hoff, hde]
    have hbytes : (de.put name inum).bytes.length = DIRENTSIZE := ByteBlock.length_read ..
    by_cases hmax : DIRENTSIZE * m + DIRENTSIZE ≤ MAXFILE * BSIZE
    · refine wp.bind (writei_spec h hle (by rw [hbytes]; exact hmax)) (fun _ hm => hm.halts) ?_
      rintro n t ⟨_, rfl, ht⟩
      rw [hbytes, if_neg (not_not.mpr rfl)]
      exact .linked m de t hall hle hfree hfirst ht
    have hsize : (s.contents env.sb p).length < 4294967296 := by
      rw [hlen]
      exact UInt32.toNat_lt _
    rw [wp_bind, wp_of_eq (writei_refused h (by omega) (by rw [hbytes]; decide)
      (by rw [hbytes]; exact fun hc => hmax hc.2))]
    rw [if_pos (by decide)]
    exact (by decide : Halts "dirlink")

end Lookup

end Micro86.Fs
