import Micro86.Lib.Ownership
import Micro86.Fs.Layout

/-!
# The logical file system

What the blocks and inodes are for, without the byte layout and the caches: inodes, the
allocation map and the data blocks.  The kernel state is mapped to a `Store` in
`Micro86.Fs.State`.

* `Store.addr` — all block addresses of an inode: `addrs[0..NDIRECT]`, then the entries of the
  indirect block.
-/

namespace Micro86.Fs

open Function

def Inode.setAddr (ip : Inode) (k : Fin (NDIRECT + 1)) (v : Nat) : Inode :=
  { ip with addrs := update ip.addrs k (UInt32.ofNat v) }

/-- What block ownership depends on.  A copy in memory may be ahead of the disk in the other fields:
    `iupdate` never writes `ctime` back, and a failed `open` sets `lmtime` without it. -/
def Inode.core (ip : Inode) : Inode :=
  { Inode.zero with mode := ip.mode, nlink := ip.nlink, size := ip.size, addrs := ip.addrs }

@[ext] structure Store where
  ino : Nat → Inode
  used : Nat → Bool
  blk : Nat → Block

namespace Store

variable (st : Store)

def entry (ip : Inode) (j : Nat) : Nat :=
  if ip.indirect = 0 then 0 else (st.blk ip.indirect).u32 (4 * j)

def addrOf (ip : Inode) (k : Nat) : Nat :=
  if h : k < NDIRECT + 1 then (ip.addrs ⟨k, h⟩).toNat
  else if k < NDIRECT + 1 + NINDIRECT then st.entry ip (k - (NDIRECT + 1))
  else 0

/-- Address number `k` of inode `i`; a free inode holds none. -/
def addr (i k : Nat) : Nat := if (st.ino i).mode = 0 then 0 else st.addrOf (st.ino i) k

/-- The number of the address that maps block `n` of a file: the indirect block's own address
    comes after the direct ones. -/
def slotOf (n : Nat) : Nat := if n < NDIRECT then n else n + 1

def dataAddr (i n : Nat) : Nat := st.addr i (slotOf n)

def byteAt (i off : Nat) : UInt8 := (st.blk (st.dataAddr i (off / BSIZE))).byte (off % BSIZE)

def contents (i : Nat) : List UInt8 := (List.range (st.ino i).size.toNat).map (st.byteAt i)

@[simp] def setInode (i : Nat) (ip : Inode) : Store :=
  { st with ino := update st.ino i ip }

@[simp] def setBlk (b : Nat) (data : Block) : Store :=
  { st with blk := update st.blk b data }

@[simp] def setUsed (b : Nat) (u : Bool) : Store := { st with used := update st.used b u }

end Store

/-- **Consistency**: metadata blocks are marked, every nonzero address is that of a marked data
    block and occurs once over all inodes, every marked data block is referenced, and the files
    and directories are mapped up to their sizes. -/
structure Consistent (sb : SuperBlock) (st : Store) : Prop where
  metadata : ∀ b, b < sb.nmeta → st.used b = true
  owns : Owns sb.nmeta sb.size (fun x : Nat × Nat => st.addr x.1 x.2) st.used
  mapped : ∀ i, (st.ino i).isReg ∨ (st.ino i).isDir →
    ∀ n, n * BSIZE < (st.ino i).size.toNat → n < MAXFILE ∧ st.dataAddr i n ≠ 0

/-! ## Addresses -/

namespace Store

variable {st st' : Store} {i j k n : Nat}

theorem addr_of_free (h : (st.ino i).mode = 0) : st.addr i k = 0 := if_pos h

section

variable (h : (st.ino i).mode ≠ 0)
include h

theorem addr_of_alloc : st.addr i k = st.addrOf (st.ino i) k := if_neg h

theorem addr_direct (k : Fin (NDIRECT + 1)) :
    st.addr i k = ((st.ino i).addrs k).toNat := by
  rw [addr_of_alloc h, addrOf, dif_pos k.isLt]

theorem addr_indirect : st.addr i NDIRECT = (st.ino i).indirect :=
  addr_direct h (Fin.last NDIRECT)

theorem addr_entry (hj : j < NINDIRECT) :
    st.addr i (NDIRECT + 1 + j) = st.entry (st.ino i) j := by
  rw [addr_of_alloc h, addrOf, dif_neg (by omega), if_pos (by omega), Nat.add_sub_cancel_left]

end

theorem addr_congr (hino : st'.ino i = st.ino i)
    (hblk : (st.ino i).mode ≠ 0 → (st.ino i).indirect ≠ 0 →
      st'.blk (st.ino i).indirect = st.blk (st.ino i).indirect) : st'.addr i k = st.addr i k := by
  unfold addr addrOf entry
  rw [hino]
  split
  · rfl
  rename_i hm
  split
  · rfl
  split
  · split
    · rfl
    · rename_i hi
      rw [hblk hm hi]
  · rfl

theorem slotOf_ne (n : Nat) : slotOf n ≠ NDIRECT := by
  unfold slotOf
  split <;> omega

theorem slotOf_inj {m n : Nat} (h : slotOf m = slotOf n) : m = n := by
  unfold slotOf at h
  split at h <;> split at h <;> omega

end Store

/-! ## Growing a file -/

/-- Inode `i` has gained blocks: what was mapped is kept, with its data, for every inode. -/
structure Grows (st st' : Store) (i : Nat) : Prop where
  other : ∀ j, j ≠ i → st'.ino j = st.ino j
  self : ∃ a, st'.ino i = { st.ino i with addrs := a }
  addrs : ∀ j k, j ≠ i → st'.addr j k = st.addr j k
  kept : ∀ k, st.addr i k ≠ 0 → st'.addr i k = st.addr i k
  blk : ∀ j n, st.dataAddr j n ≠ 0 → st'.blk (st.dataAddr j n) = st.blk (st.dataAddr j n)

namespace Grows

variable {st st' st'' : Store} {i : Nat}

theorem refl (st : Store) (i : Nat) : Grows st st i :=
  ⟨fun _ _ => rfl, ⟨_, rfl⟩, fun _ _ _ => rfl, fun _ _ => rfl, fun _ _ _ => rfl⟩

variable (h : Grows st st' i)
include h

theorem addr_eq {j k : Nat} (hk : st.addr j k ≠ 0) : st'.addr j k = st.addr j k := by
  by_cases hj : j = i
  · subst hj; exact h.kept k hk
  · exact h.addrs j k hj

theorem trans (h' : Grows st' st'' i) : Grows st st'' i where
  other j hj := (h'.other j hj).trans (h.other j hj)
  self := by
    obtain ⟨a, ha⟩ := h.self
    obtain ⟨a', ha'⟩ := h'.self
    exact ⟨a', by rw [ha', ha]⟩
  addrs j k hj := (h'.addrs j k hj).trans (h.addrs j k hj)
  kept k hk := by
    have h1 := h.kept k hk
    rw [h'.kept k (by rw [h1]; exact hk), h1]
  blk j n hn := by
    have h1 : st'.dataAddr j n = st.dataAddr j n := h.addr_eq hn
    have h2 := h'.blk j n (by rw [h1]; exact hn)
    rw [h1] at h2
    rw [h2, h.blk j n hn]

theorem ino (j : Nat) : ∃ a, st'.ino j = { st.ino j with addrs := a } := by
  by_cases hj : j = i
  · rw [hj]
    exact h.self
  · exact ⟨_, h.other j hj⟩

end Grows

structure Fresh (sb : SuperBlock) (st : Store) (b : Nat) : Prop where
  lo : sb.nmeta ≤ b
  hi : b < sb.size
  free : st.used b = false

section Alloc

variable {sb : SuperBlock} {st st' : Store} {i k b : Nat}

section

variable (h : Consistent sb st)
include h

theorem Consistent.of_alloc (hz : st.addr i k = 0) (hb : Fresh sb st b)
    (hgrow : Grows st st' i) (haddr : ∀ j n, st'.addr j n = if j = i ∧
      n = k then b else st.addr j n)
    (hused : st'.used = update st.used b true) : Consistent sb st' where
  metadata c hc := by
    have := hb.lo
    rw [hused, update_of_ne (by omega)]
    exact h.metadata c hc
  owns := by
    rw [hused]
    refine (h.owns.alloc (x := (i, k)) hz hb.free hb.lo hb.hi).congr (fun x => ?_) fun _ _ _ => rfl
    rw [haddr]
    by_cases hx : x = (i, k)
    · rw [hx, update_self, if_pos ⟨rfl, rfl⟩]
    · rw [update_of_ne hx, if_neg fun he => hx (Prod.ext he.1 he.2)]
  mapped j hj n hn := by
    obtain ⟨a, ha⟩ := hgrow.ino j
    rw [ha] at hj hn
    obtain ⟨h1, h2⟩ := h.mapped j hj n hn
    exact ⟨h1, by rw [Store.dataAddr, hgrow.addr_eq h2]; exact h2⟩

theorem Consistent.addr_range (hk : st.addr i k ≠ 0) :
    sb.nmeta ≤ st.addr i k ∧ st.addr i k < sb.size := h.owns.range (i, k) hk

theorem Consistent.data_range {n : Nat} (hn : st.dataAddr i n ≠ 0) :
    sb.nmeta ≤ st.dataAddr i n ∧ st.dataAddr i n < sb.size := h.addr_range hn

theorem Consistent.addr_unique {j n : Nat} (he : st.addr i k = st.addr j n)
    (hk : st.addr i k ≠ 0) : i = j ∧ k = n := by
  have := h.owns.unique (i, k) (j, n) he hk
  exact ⟨congrArg Prod.fst this, congrArg Prod.snd this⟩

end

theorem toNat_ofNat_block (hb : b < sb.size) : (UInt32.ofNat b).toNat = b := by
  have := sb.size_lt
  rw [UInt32.toNat_ofNat', Nat.mod_eq_of_lt (by omega)]

theorem Consistent.indirect_ne (h : Consistent sb st) (hfree : st.used b = false) {j : Nat}
    (hm : (st.ino j).mode ≠ 0) (hi : (st.ino j).indirect ≠ 0) : (st.ino j).indirect ≠ b := by
  rw [← Store.addr_indirect hm] at hi ⊢
  exact h.owns.ne_of_free (x := (j, NDIRECT)) hfree hi

def Store.allocDirect (st : Store) (i : Nat) (k : Fin (NDIRECT + 1)) (b : Nat) : Store :=
  ((st.setUsed b true).setBlk b ByteBlock.zero).setInode i ((st.ino i).setAddr k b)

def Store.allocEntry (st : Store) (i j b : Nat) : Store :=
  ((st.setUsed b true).setBlk b ByteBlock.zero).setBlk (st.ino i).indirect
    ((st.blk (st.ino i).indirect).write (4 * j) (ByteBlock.le32 b))

theorem setAddr_self (ip : Inode) (k : Fin (NDIRECT + 1)) (hb : b < sb.size) :
    ((ip.setAddr k b).addrs k).toNat = b := by
  show (update ip.addrs k (UInt32.ofNat b) k).toNat = b
  rw [update_self, toNat_ofNat_block hb]

theorem setAddr_ne (ip : Inode) {k n : Fin (NDIRECT + 1)} (v : Nat) (h : n ≠ k) :
    (ip.setAddr k v).addrs n = ip.addrs n := by
  rw [Inode.setAddr]
  exact update_of_ne h _ _

section Direct

variable {k : Fin (NDIRECT + 1)}

variable (h : Consistent sb st) (hm : (st.ino i).mode ≠ 0) (hz : ((st.ino i).addrs k).toNat = 0)
include h hm hz

theorem addr_allocDirect
    (hb : Fresh sb st b) (j n : Nat) :
    (st.allocDirect i k b).addr j n = if j = i ∧ n = k then b else st.addr j n := by
  by_cases hj : j = i
  · subst hj
    have hino : (st.allocDirect j k b).ino j = (st.ino j).setAddr k b := by
      simp [Store.allocDirect]
    have hblk : ∀ c, c ≠ b → (st.allocDirect j k b).blk c = st.blk c := fun c hc => by
      simp [Store.allocDirect, hc]
    have hm' : ((st.allocDirect j k b).ino j).mode ≠ 0 := by rw [hino]; exact hm
    rw [Store.addr_of_alloc hm', Store.addr_of_alloc hm, hino]
    unfold Store.addrOf
    by_cases hn : n < NDIRECT + 1
    · rw [dif_pos hn, dif_pos hn]
      by_cases hnk : n = k
      · subst hnk
        simp [setAddr_self _ _ hb.hi]
      · rw [if_neg (by tauto), setAddr_ne _ _ fun he => hnk (congrArg Fin.val he)]
    have hnk : ¬ (j = j ∧ n = k.val) := fun he => hn (he.2 ▸ k.isLt)
    rw [dif_neg hn, dif_neg hn, if_neg hnk]
    split
    · unfold Store.entry
      by_cases hk : k = Fin.last NDIRECT
      · -- the indirect block is the new one, and all its entries are zero
        subst hk
        have hi' : ((st.ino j).setAddr (Fin.last NDIRECT) b).indirect = b :=
          setAddr_self _ _ hb.hi
        have hi : (st.ino j).indirect = 0 := hz
        have hzero : (st.allocDirect j (Fin.last NDIRECT) b).blk b = ByteBlock.zero := by
          simp [Store.allocDirect]
        rw [hi', hi, hzero, if_pos rfl, ByteBlock.u32_zero, ite_self]
      have hi' : ((st.ino j).setAddr k b).indirect = (st.ino j).indirect := by
        unfold Inode.indirect
        rw [setAddr_ne _ _ fun he => hk he.symm]
      rw [hi']
      split
      · rfl
      · rename_i hi
        rw [hblk _ (h.indirect_ne hb.free hm hi)]
    · rfl
  · rw [if_neg (by tauto)]
    refine Store.addr_congr ?_ fun hm hi => ?_
    · simp [Store.allocDirect, hj]
    · simp [Store.allocDirect, h.indirect_ne hb.free hm hi]

theorem grows_allocDirect
    (hb : Fresh sb st b) : Grows st (st.allocDirect i k b) i where
  other j hj := by simp [Store.allocDirect, hj]
  self := ⟨_, by simp [Store.allocDirect]; rfl⟩
  addrs j n hj := by rw [addr_allocDirect h hm hz hb, if_neg (by tauto)]
  kept n hn := by
    rw [addr_allocDirect h hm hz hb, if_neg]
    rintro ⟨_, rfl⟩
    exact hn (by rw [Store.addr_direct hm, hz])
  blk j n hn := by
    have hne : st.dataAddr j n ≠ b := h.owns.ne_of_free (x := (j, Store.slotOf n)) hb.free hn
    simp [Store.allocDirect, hne]

theorem Consistent.allocDirect
    (hb : Fresh sb st b) : Consistent sb (st.allocDirect i k b) := by
  refine h.of_alloc (k := k) ?_ hb (grows_allocDirect h hm hz hb) (addr_allocDirect h hm hz hb) rfl
  rw [Store.addr_direct hm, hz]

end Direct

section Entry

variable {j : Nat}

variable (h : Consistent sb st) (hm : (st.ino i).mode ≠ 0) (hind : (st.ino i).indirect ≠ 0)
include h hm hind

theorem addr_allocEntry
    (hj : j < NINDIRECT) (hb : Fresh sb st b) (i' n : Nat) :
    (st.allocEntry i j b).addr i' n = if i' = i ∧ n = NDIRECT + 1 + j then b else st.addr i' n := by
  have hne := h.indirect_ne hb.free hm hind
  have hblk : ∀ c, c ≠ b → c ≠ (st.ino i).indirect → (st.allocEntry i j b).blk c = st.blk c :=
    fun c h1 h2 => by simp [Store.allocEntry, h1, h2]
  have hself : (st.allocEntry i j b).blk (st.ino i).indirect =
      (st.blk (st.ino i).indirect).write (4 * j) (ByteBlock.le32 b) := by
    simp [Store.allocEntry]
  by_cases hi : i' = i
  · subst hi
    rw [Store.addr_of_alloc hm, @Store.addr_of_alloc (st.allocEntry i' j b) _ _ hm]
    show (st.allocEntry i' j b).addrOf (st.ino i') n = _
    unfold Store.addrOf
    by_cases hn : n < NDIRECT + 1
    · rw [dif_pos hn, dif_pos hn, if_neg (by omega)]
    rw [dif_neg hn, dif_neg hn]
    by_cases hn' : n < NDIRECT + 1 + NINDIRECT
    · rw [if_pos hn', if_pos hn', Store.entry, Store.entry, if_neg hind, if_neg hind, hself]
      have hN := NINDIRECT_eq
      have hB := BSIZE_eq
      by_cases hnj : n = NDIRECT + 1 + j
      · have hsz := sb.size_lt
        have hlt := hb.hi
        rw [if_pos ⟨rfl, hnj⟩, hnj, Nat.add_sub_cancel_left,
          ByteBlock.u32_write_same _ _ (by omega)]
        omega
      · rw [if_neg (by tauto), ByteBlock.u32_write_disjoint _ (by simp; omega)]
    · rw [if_neg hn', if_neg hn', if_neg (by omega)]
  · rw [if_neg (by tauto)]
    refine Store.addr_congr rfl fun hm' hi' => ?_
    refine hblk _ (h.indirect_ne hb.free hm' hi') fun he => hi ?_
    rw [← Store.addr_indirect hm', ← Store.addr_indirect hm] at he
    rw [← Store.addr_indirect hm'] at hi'
    exact (h.addr_unique he hi').1

theorem grows_allocEntry
    (hj : j < NINDIRECT) (hz : st.addr i (NDIRECT + 1 + j) = 0) (hb : Fresh sb st b) :
    Grows st (st.allocEntry i j b) i where
  other _ _ := rfl
  self := ⟨_, rfl⟩
  addrs i' n hi := by rw [addr_allocEntry h hm hind hj hb, if_neg (by tauto)]
  kept n hn := by
    rw [addr_allocEntry h hm hind hj hb, if_neg]
    rintro ⟨_, rfl⟩
    exact hn hz
  blk i' n hn := by
    have hne : st.dataAddr i' n ≠ b := h.owns.ne_of_free (x := (i', Store.slotOf n)) hb.free hn
    -- a data block is never an indirect block
    have hne' : st.dataAddr i' n ≠ (st.ino i).indirect := by
      intro he
      rw [← Store.addr_indirect hm] at he
      exact Store.slotOf_ne n (h.addr_unique he hn).2
    simp [Store.allocEntry, hne, hne']

theorem Consistent.allocEntry
    (hj : j < NINDIRECT) (hz : st.addr i (NDIRECT + 1 + j) = 0)
    (hb : Fresh sb st b) : Consistent sb (st.allocEntry i j b) :=
  h.of_alloc hz hb (grows_allocEntry h hm hind hj hz hb) (addr_allocEntry h hm hind hj hb) rfl

end Entry

end Alloc

theorem Store.addr_setInode {st : Store} {i : Nat} {ip : Inode} (hm : ip.mode = (st.ino i).mode)
    (ha : ip.addrs = (st.ino i).addrs) (j k : Nat) : (st.setInode i ip).addr j k = st.addr j k := by
  by_cases hj : j = i
  · subst hj
    have hino : (st.setInode j ip).ino j = ip := update_self ..
    have hind : ip.indirect = (st.ino j).indirect := by unfold Inode.indirect; rw [ha]
    unfold Store.addr Store.addrOf Store.entry
    rw [hino, hm, ha, hind]
    rfl
  · exact Store.addr_congr (update_of_ne hj _ _) fun _ _ => rfl

theorem Consistent.setInode {sb : SuperBlock} {st : Store} {i : Nat}
    {ip : Inode} (h : Consistent sb st) (haddr : ∀ k, (st.setInode i ip).addr i k = st.addr i k)
    (hmapped : ip.isReg ∨ ip.isDir → ∀ n, n * BSIZE < ip.size.toNat →
      n < MAXFILE ∧ st.dataAddr i n ≠ 0) :
    Consistent sb (st.setInode i ip) := by
  have hino : ∀ j, j ≠ i → (st.setInode i ip).ino j = st.ino j := fun j hj => update_of_ne hj _ _
  have hall : ∀ j k, (st.setInode i ip).addr j k = st.addr j k := by
    intro j k
    by_cases hj : j = i
    · rw [hj, haddr]
    · exact Store.addr_congr (hino j hj) fun _ _ => rfl
  refine ⟨h.metadata, h.owns.congr (fun x => hall _ _) fun _ _ _ => rfl, fun j hj n hn => ?_⟩
  rw [Store.dataAddr, hall]
  by_cases hji : j = i
  · subst hji
    rw [show (st.setInode j ip).ino j = ip from update_self ..] at hj hn
    exact hmapped hj n hn
  · rw [hino j hji] at hj hn
    exact h.mapped j hj n hn

theorem Consistent.newInode {sb : SuperBlock} {st : Store} {i : Nat}
    (h : Consistent sb st) (hfree : (st.ino i).mode = 0)
    (mode : UInt16) : Consistent sb (st.setInode i { Inode.zero with mode := mode }) := by
  refine h.setInode (fun k => ?_) fun _ n hn => absurd hn (Nat.not_lt_zero _)
  rw [Store.addr_of_free hfree]
  unfold Store.addr Store.addrOf Store.entry
  simp [Inode.zero, Inode.indirect]

/-! ## Freeing a file -/

/-- The blocks at the addresses `F` of inode `i` are no longer marked. -/
structure Freed (sb : SuperBlock) (st st' : Store) (i : Nat) (F : Nat → Prop) : Prop where
  low : ∀ b, b < sb.nmeta → st'.used b = st.used b
  used : ∀ b, sb.nmeta ≤ b → b < sb.size →
    (st'.used b = true ↔ st.used b = true ∧ ∀ k, F k → st.addr i k ≠ b)
  blk : st'.blk = st.blk
  other : ∀ j, j ≠ i → st'.ino j = st.ino j

namespace Freed

variable {sb : SuperBlock} {st st' : Store} {i k : Nat} {F G : Nat → Prop}

theorem refl (st : Store) (i : Nat) : Freed sb st st i fun _ => False :=
  ⟨fun _ _ => rfl, fun _ _ _ => by simp, rfl, fun _ _ => rfl⟩

variable (h : Freed sb st st' i F)
include h

theorem weaken (hc : Consistent sb st) (hFG : ∀ k, F k → G k)
    (hG : ∀ k, G k → F k ∨ st.addr i k = 0) : Freed sb st st' i G where
  low := h.low
  used b hb hb' := by
    have hpos := hc.owns.pos
    rw [h.used b hb hb']
    refine and_congr_right fun _ => ⟨fun hF k hk => ?_, fun hG' k hk => hG' k (hFG k hk)⟩
    rcases hG k hk with hk | hz
    · exact hF k hk
    · omega
  blk := h.blk
  other := h.other

theorem still_used (hc : Consistent sb st) (hk : ¬ F k) (hne : st.addr i k ≠ 0) :
    st'.used (st.addr i k) = true := by
  obtain ⟨h1, h2⟩ := hc.addr_range hne
  refine (h.used _ h1 h2).mpr ⟨hc.owns.marked (i, k) hne, fun n hn he => hk ?_⟩
  rw [← (hc.addr_unique he (by omega)).2]
  exact hn

theorem setUsed (hc : Consistent sb st) (hne : st.addr i k ≠ 0) :
    Freed sb st (st'.setUsed (st.addr i k) false) i fun n => F n ∨ n = k where
  low b hb := by
    obtain ⟨h1, _⟩ := hc.addr_range hne
    rw [Store.setUsed, ← h.low b hb]
    exact update_of_ne (by omega) _ _
  used b hb hb' := by
    by_cases hbk : b = st.addr i k
    · subst hbk
      refine ⟨fun hu => ?_, fun hu => absurd rfl (hu.2 k (Or.inr rfl))⟩
      simp at hu
    rw [show (st'.setUsed (st.addr i k) false).used b = st'.used b from update_of_ne hbk _ _,
      h.used b hb hb']
    refine and_congr_right fun _ => ⟨fun hF n hn => ?_, fun hF n hn => hF n (Or.inl hn)⟩
    rcases hn with hn | rfl
    · exact hF n hn
    · exact fun he => hbk he.symm
  blk := h.blk
  other := h.other

theorem setInode (ip : Inode) : Freed sb st (st'.setInode i ip) i F :=
  ⟨h.low, h.used, h.blk, fun j hj => by
    rw [← h.other j hj]
    exact update_of_ne hj _ _⟩

/-- **Truncation**: all addresses freed and the inode emptied. -/
theorem consistent (hc : Consistent sb st) (hF : ∀ k, st.addr i k ≠ 0 → F k)
    (haddrs : ∀ k, ((st'.ino i).addrs k).toNat = 0) (hsize : (st'.ino i).size = 0) :
    Consistent sb st' := by
  have hself : ∀ k, st'.addr i k = 0 := by
    intro k
    unfold Store.addr Store.addrOf Store.entry
    have hi : (st'.ino i).indirect = 0 := haddrs _
    split
    · rfl
    split
    · exact haddrs _
    · exact ite_self _
  have hother : ∀ j k, j ≠ i → st'.addr j k = st.addr j k := fun j k hj =>
    Store.addr_congr (h.other j hj) fun _ _ => by rw [h.blk]
  refine ⟨fun b hb => by rw [h.low b hb]; exact hc.metadata b hb, ?_, fun j hj n hn => ?_⟩
  · refine hc.owns.release (fun x => x.1 = i) (fun x hx => by rw [hx]; exact hself _)
      (fun x => hother _ _) fun b hb hb' => ?_
    have hpos := hc.owns.pos
    rw [h.used b hb hb']
    refine and_congr_right fun _ => ⟨fun hno x hx he => ?_, fun hno k _ => hno (i, k) rfl⟩
    rw [hx] at he
    exact hno x.2 (hF _ (by omega)) he
  · by_cases hji : j = i
    · rw [hji, hsize] at hn
      exact absurd hn (Nat.not_lt_zero _)
    rw [h.other j hji] at hj hn
    rw [Store.dataAddr, hother j _ hji]
    exact hc.mapped j hj n hn

end Freed

end Micro86.Fs
