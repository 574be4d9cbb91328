import Micro86.Mkfs.Image

/-!
# Handing out blocks

`directBlock`, `indirectBlock` and `blockFor`: the blocks are handed out in order, and on the file
system each is an allocation.

* `Formed` — the invariant of an image: every block that was handed out belongs to exactly one
  file, and a file has exactly the blocks that its size needs.
* `blockFor_spec` — block `fbn` of the file is mapped, with the blocks that takes (`gain`).
-/

namespace Micro86.Mkfs

open Exec Fs Image Function

/-! ## What a file of `n` bytes needs -/

/-- The number of bytes a file has at least when address `k` is in use. -/
def start (k : Nat) : Nat := if k ≤ NDIRECT then k * BSIZE else (k - 1) * BSIZE

/-- The blocks of a file of `n` bytes, the indirect block among them. -/
def need (n : Nat) : Nat := (n + BSIZE - 1) / BSIZE + if NDIRECT * BSIZE < n then 1 else 0

/-- What `freeblock` is when the files have these sizes. -/
def freeblockFor (size : Nat → Nat) : Nat := nmeta + ∑ i ∈ Finset.range inodeCap, need (size i)

structure Formed (st : Store) (freeblock : Nat) : Prop where
  consistent : Consistent sb st
  tight : ∀ i k, i < inodeCap → k < NDIRECT + 1 + NINDIRECT →
    (st.addr i k ≠ 0 ↔ start k < (st.ino i).size.toNat)
  count : freeblock = freeblockFor fun i => (st.ino i).size.toNat
  /-- The blocks were zero, and only the bytes of the file were written. -/
  tail : ∀ i o, i < inodeCap → (st.ino i).size.toNat ≤ o → st.dataAddr i (o / BSIZE) ≠ 0 →
    st.byteAt i o = 0

theorem freeblockFor_congr {f g : Nat → Nat} (h : ∀ i, i < inodeCap → f i = g i) :
    freeblockFor f = freeblockFor g := by
  unfold freeblockFor
  rw [Finset.sum_congr rfl fun i hi => by rw [h i (Finset.mem_range.mp hi)]]

theorem freeblockFor_le {f : Nat → Nat} {n : Nat} (h : ∀ i, need (f i) ≤ n) :
    freeblockFor f ≤ nmeta + inodeCap * n := by
  have hle :=
    Finset.sum_le_card_nsmul (Finset.range inodeCap) (fun i => need (f i)) n fun i _ => h i
  rw [Finset.card_range, nsmul_eq_mul, Nat.cast_id] at hle
  exact Nat.add_le_add_left hle _

theorem need_mono {m n : Nat} (h : m ≤ n) : need m ≤ need n := by
  unfold need
  split <;> split <;> simp only [BSIZE] at * <;> omega

theorem freeblockFor_mono {f g : Nat → Nat} (h : ∀ i, f i ≤ g i) :
    freeblockFor f ≤ freeblockFor g :=
  Nat.add_le_add_left (Finset.sum_le_sum fun i _ => need_mono (h i)) _

theorem start_lt_add {off m k : Nat} (hm : 0 < m) (hfit : off % BSIZE + m ≤ BSIZE) :
    start k < off + m ↔ start k < off ∨ k = Store.slotOf (off / BSIZE) ∨
      NDIRECT ≤ off / BSIZE ∧ k = NDIRECT := by
  unfold start Store.slotOf
  split <;> split <;> simp only [BSIZE] at * <;> omega

theorem start_slotOf (n : Nat) : start (Store.slotOf n) = n * BSIZE := by
  unfold start Store.slotOf
  split
  · rw [if_pos (by omega)]
  · rw [if_neg (by omega), Nat.add_sub_cancel]

theorem need_add {off m : Nat} (hm : 0 < m) (hfit : off % BSIZE + m ≤ BSIZE) :
    need (off + m) = need off + (if off / BSIZE * BSIZE < off then 0 else 1) +
      if NDIRECT ≤ off / BSIZE ∧ ¬ NDIRECT * BSIZE < off then 1 else 0 := by
  unfold need
  split <;> split <;> split <;> split <;> simp only [BSIZE] at * <;> omega

/-! ## Handing out blocks -/

section Blocks

variable {img : Image} {i : Nat} {din : Inode}

def Image.bump (img : Image) : Image := { img with freeblock := img.freeblock + 1 }

theorem Image.Blank.bump (h : img.Blank) (hlt : img.freeblock < FSSIZE) : img.bump.Blank where
  sectors := h.sectors
  lo := Nat.le_succ_of_le h.lo
  hi := hlt
  fresh b hb := h.fresh b (Nat.le_of_succ_le hb)
  bitmap := h.bitmap

theorem nextBlock_eq (img : Image) : nextBlock img = .ok (img.freeblock, img.bump) := rfl

theorem view_ino (img : Image) (i : Nat) (din : Inode) :
    (img.view i din).ino i = asFile din := update_self ..

theorem view_mode (img : Image) (i : Nat) (din : Inode) : ((img.view i din).ino i).mode ≠ 0 := by
  rw [view_ino]
  show S_IFREG ≠ 0
  decide

theorem Image.Blank.fresh_block (h : img.Blank) (hlt : img.freeblock < FSSIZE) :
    Fresh sb (img.view i din) img.freeblock where
  lo := h.lo
  hi := hlt
  free := decide_eq_false (Nat.lt_irrefl _)

theorem used_bump (n : Nat) :
    (fun b => decide (b < n + 1)) = update (fun b => decide (b < n)) n true := by
  funext b
  by_cases hb : b = n
  · subst hb
    simp
  rw [update_of_ne hb]
  have : b < n + 1 ↔ b < n := by omega
  simp [this]

/-- A fresh block is zero already. -/
theorem Image.Blank.blk_fresh (h : img.Blank) :
    update img.files.blk img.freeblock ByteBlock.zero = img.files.blk := by
  rw [update_eq_self_iff]
  show _ = if nmeta ≤ img.freeblock then img.disk img.freeblock else ByteBlock.zero
  rw [if_pos h.lo, h.fresh _ le_rfl]

theorem view_bump (h : img.Blank) (k : Fin (NDIRECT + 1)) :
    img.bump.view i (din.setAddr k img.freeblock) =
      (img.view i din).allocDirect i k img.freeblock := by
  apply Store.ext
  · funext j
    show update img.files.ino i _ j = update (update img.files.ino i (asFile din)) i _ j
    rw [update_idem, view_ino]
    rfl
  · exact used_bump _
  · exact h.blk_fresh.symm

theorem view_write (hlo : nmeta ≤ i) (j : Nat) (data : Block) :
    (img.write i data).view j din = (img.view j din).setBlk i data := by
  have hm : sb.bmapstart ≤ nmeta := by decide
  apply Store.ext
  · funext a
    have hino : (img.write i data).files.ino = img.files.ino := by
      funext a
      show (if a < inodeCap then _ else _) = if a < inodeCap then _ else _
      split
      · rename_i ha
        have := iblock_lt ha
        unfold Image.dinode
        rw [Image.write_disk, if_neg (by omega)]
      · rfl
    show update (img.write i data).files.ino j _ a = update img.files.ino j _ a
    rw [hino]
  · rfl
  · funext b
    show (if nmeta ≤ b then (img.write i data).disk b else ByteBlock.zero) =
        update img.files.blk i data b
    rw [Image.write_disk]
    refine update_cases b ?_ fun hb => ?_
    · rw [if_pos hlo, if_pos rfl]
    · rw [if_neg hb]
      rfl

/-- Address `k` of inode `i` is in use and is block `b`; no other address has changed. -/
structure Takes (st : Store) (i k : Nat) (st' : Store) (b : Nat) : Prop where
  consistent : Consistent sb st'
  grows : Grows st st' i
  nonzero : b ≠ 0
  addr : ∀ j n, st'.addr j n = if j = i ∧ n = k then b else st.addr j n
  blank : st.addr i k = 0 → st'.blk b = ByteBlock.zero

namespace Takes

variable {st st' st'' : Store} {k b : Nat}

theorem refl (hc : Consistent sb st) (hb : st.addr i k = b) (hne : b ≠ 0) : Takes st i k st b := by
  refine ⟨hc, Grows.refl _ _, hne, fun j n => ?_, fun hz => absurd (hb.symm.trans hz) hne⟩
  split
  · rename_i h
    rw [h.1, h.2, hb]
  · rfl

theorem self (h : Takes st i k st' b) : st'.addr i k = b := by rw [h.addr, if_pos ⟨rfl, rfl⟩]

theorem addr_ne_zero (h : Takes st i k st' b) (j n : Nat) :
    st'.addr j n ≠ 0 ↔ st.addr j n ≠ 0 ∨ j = i ∧ n = k := by
  rw [h.addr]
  split
  · rename_i hjn
    exact ⟨fun _ => .inr hjn, fun _ => h.nonzero⟩
  · rename_i hjn
    exact ⟨.inl, fun ho => ho.resolve_right hjn⟩

end Takes

theorem freeblock_ne_zero (h : img.Blank) : img.freeblock ≠ 0 := by
  have := h.lo
  rw [nmeta_eq] at this
  omega

theorem takes_direct (hc : Consistent sb (img.view i din)) (hb : img.Blank)
    (hlt : img.freeblock < FSSIZE) {k : Fin (NDIRECT + 1)} (hz : (din.addrs k).toNat = 0) :
    Takes (img.view i din) i k (img.bump.view i (din.setAddr k img.freeblock)) img.freeblock := by
  have hz' : (((img.view i din).ino i).addrs k).toNat = 0 := by rw [view_ino]; exact hz
  have hm := view_mode img i din
  have hf : Fresh sb (img.view i din) img.freeblock := hb.fresh_block hlt
  rw [view_bump hb]
  exact ⟨hc.allocDirect hm hz' hf, grows_allocDirect hc hm hz' hf,
    freeblock_ne_zero hb, addr_allocDirect hc hm hz' hf, fun _ => update_self ..⟩

theorem takes_entry (hc : Consistent sb (img.view i din)) (hb : img.Blank)
    (hlt : img.freeblock < FSSIZE)
    (hind : din.indirect ≠ 0) (hlo : nmeta ≤ din.indirect) {j : Nat} (hj : j < NINDIRECT)
    (hz : (img.view i din).addr i (NDIRECT + 1 + j) = 0) :
    Takes (img.view i din) i (NDIRECT + 1 + j) ((img.bump.write din.indirect
      ((img.disk din.indirect).write (4 * j) (ByteBlock.le32 img.freeblock))).view
      i din) img.freeblock := by
  have hm := view_mode img i din
  have hf : Fresh sb (img.view i din) img.freeblock := hb.fresh_block hlt
  have hino : ((img.view i din).ino i).indirect = din.indirect := by rw [view_ino]; rfl
  have hstore : (img.bump.write din.indirect
      ((img.disk din.indirect).write (4 * j) (ByteBlock.le32 img.freeblock))).view i din =
      (img.view i din).allocEntry i j img.freeblock := by
    have hblk : img.disk din.indirect = (img.view i din).blk din.indirect := (if_pos hlo).symm
    rw [view_write hlo, Store.allocEntry, hino, hblk]
    apply Store.ext
    · rfl
    · exact used_bump _
    · show update img.files.blk _ _ = update (update img.files.blk img.freeblock _) _ _
      rw [hb.blk_fresh]
  have hi : ((img.view i din).ino i).indirect ≠ 0 := by rwa [hino]
  rw [hstore]
  refine ⟨hc.allocEntry hm hi hj hz hf, grows_allocEntry hc hm hi hj hz hf, freeblock_ne_zero hb,
    addr_allocEntry hc hm hi hj hf, fun _ => ?_⟩
  have hne := hc.indirect_ne hf.free hm hi
  rw [Store.allocEntry, show ∀ st b d,
    (Store.setBlk st b d).blk = update st.blk b d from fun _ _ _ => rfl, update_of_ne hne.symm]
  exact update_self ..

/-- The new blocks that block `fbn` of the file needs. -/
def gain (st : Store) (i fbn : Nat) : Nat :=
  (if st.dataAddr i fbn = 0 then 1 else 0) + if NDIRECT ≤ fbn ∧ st.addr i NDIRECT = 0 then 1 else 0

structure Maps (st : Store) (i fbn : Nat) (st' : Store) (x : Nat) : Prop where
  consistent : Consistent sb st'
  grows : Grows st st' i
  addr : st'.dataAddr i fbn = x
  nonzero : x ≠ 0
  same : st.dataAddr i fbn ≠ 0 → st' = st
  blank : st.dataAddr i fbn = 0 → st'.blk x = ByteBlock.zero
  addrs : ∀ j k, st'.addr j k ≠ 0 ↔ st.addr j k ≠ 0 ∨ j = i ∧
    (k = Store.slotOf fbn ∨ NDIRECT ≤ fbn ∧ k = NDIRECT)

/-- The result of `blockFor` on a copy of inode `i`, whatever the size in the copy. -/
structure Found (img : Image) (i : Nat) (din : Inode) (z : UInt32)
    (fbn : Nat) (r : Inode × Nat) (img' : Image) : Prop where
  maps : Maps (img.view i { din with size := z }) i fbn (img'.view i { r.1 with size := z }) r.2
  blank : img'.Blank
  freeblock : img'.freeblock = img.freeblock + gain (img.view i { din with size := z }) i fbn
  freeinode : img'.freeinode = img.freeinode
  dinode : ∀ j, j < inodeCap → img'.dinode j = img.dinode j
  ino : ∃ a, r.1 = { din with addrs := a }

/-- The sector is past the end of the file. -/
def PastEnd (r : Inode × Nat) (img : Image) : Prop :=
  FSSIZE ≤ r.2 ∧ r.2 ≤ FSSIZE + 1 ∧ img.sectors = FSSIZE

theorem toNat_ofNat_block {n : Nat} (h : n ≤ FSSIZE + 1) : (UInt32.ofNat n).toNat = n := by
  have hF : FSSIZE = 50000 := rfl
  rw [UInt32.toNat_ofNat', Nat.mod_eq_of_lt (by omega)]

theorem directBlock_new {k : Fin (NDIRECT + 1)} (hz : (din.addrs k).toNat = 0) :
    directBlock din k img = .ok (din.setAddr k img.freeblock, img.bump) := by
  unfold directBlock
  rw [if_pos hz]
  rfl

theorem directBlock_old {k : Fin (NDIRECT + 1)} (hz : (din.addrs k).toNat ≠ 0) :
    directBlock din k img = .ok (din, img) := by
  unfold directBlock
  rw [if_neg hz]
  rfl

theorem setAddr_toNat (k : Fin (NDIRECT + 1)) {n : Nat} (h : n ≤ FSSIZE + 1) :
    ((din.setAddr k n).addrs k).toNat = n := by
  show (update din.addrs k (UInt32.ofNat n) k).toNat = n
  rw [update_self, toNat_ofNat_block h]

theorem view_direct (k : Fin (NDIRECT + 1)) : (img.view i din).addr i k = (din.addrs k).toNat := by
  rw [Store.addr_direct (view_mode img i din), view_ino]
  rfl

def BlockTo (img : Image) (i : Nat) (din : Inode) (z : UInt32)
    (fbn : Nat) (r : Inode × Nat) (img' : Image) : Prop :=
  Found img i din z fbn r img' ∨
    PastEnd r img' ∧ FSSIZE < img.freeblock + gain (img.view i { din with size := z }) i fbn

theorem blockFor_direct {z : UInt32} (hc : Consistent sb (img.view i { din with size := z }))
    (hb : img.Blank)
    {fbn : Nat} (h : fbn < NDIRECT) (E : String → Prop) :
    wp (blockFor din fbn) (BlockTo img i din z fbn) E img := by
  have hslot : Store.slotOf fbn = fbn := if_pos h
  have haddr :
      (img.view i { din with size := z }).dataAddr i fbn = (din.addrs ⟨fbn, by omega⟩).toNat := by
    rw [Store.dataAddr, hslot]
    exact view_direct ⟨fbn, by omega⟩
  have hgain : gain (img.view i { din with size := z }) i fbn =
      if (din.addrs ⟨fbn, by omega⟩).toNat = 0 then 1 else 0 := by
    have hnot : ¬ (NDIRECT ≤ fbn ∧ (img.view i { din with size := z }).addr i NDIRECT = 0) :=
      fun hn => by omega
    rw [gain, haddr, if_neg hnot, Nat.add_zero]
  have hmaps : ∀ {st' b}, Takes (img.view i { din with size := z }) i fbn st' b →
      ((din.addrs ⟨fbn, by omega⟩).toNat ≠ 0 → st' = img.view i { din with size := z }) →
      Maps (img.view i { din with size := z }) i fbn st' b := by
    intro st' b ht hsame
    refine ⟨ht.consistent, ht.grows, ?_, ht.nonzero,
      by rwa [haddr], by rw [Store.dataAddr, hslot]; exact ht.blank, fun j k => ?_⟩
    · rw [Store.dataAddr, hslot, ht.self]
    · rw [ht.addr_ne_zero, hslot]
      omega
  unfold blockFor BlockTo
  rw [dif_pos h, wp_bind, hgain]
  by_cases hz : (din.addrs ⟨fbn, by omega⟩).toNat = 0
  · rw [if_pos hz, wp_of_eq (directBlock_new hz), wp_pure]
    have hx := @setAddr_toNat din ⟨fbn, by omega⟩ img.freeblock (Nat.le_succ_of_le hb.hi)
    by_cases hlt : img.freeblock < FSSIZE
    · refine .inl ⟨?_, hb.bump hlt, ?_, rfl, fun _ _ => rfl, ⟨_, rfl⟩⟩
      · rw [hx]
        exact hmaps (takes_direct hc hb hlt hz) fun hne => absurd hz hne
      · rw [hgain, if_pos hz]
        rfl
    have hfb : img.freeblock = FSSIZE := Nat.le_antisymm hb.hi (Nat.le_of_not_lt hlt)
    refine .inr ⟨⟨?_, ?_, hb.sectors⟩, by omega⟩
    · rw [hx, hfb]
    · rw [hx, hfb]
      exact Nat.le_succ _
  · rw [if_neg hz, wp_of_eq (directBlock_old hz), wp_pure]
    refine .inl ⟨hmaps (Takes.refl hc ?_ hz) fun _ => rfl, hb, ?_, rfl, fun _ _ => rfl, ⟨_, rfl⟩⟩
    · exact view_direct ⟨fbn, by omega⟩
    · rw [hgain, if_neg hz]
      rfl

inductive EntryTo (img : Image) (i : Nat) (din : Inode) (j x : Nat) (img' : Image) : Prop where
  | found (takes : Takes (img.view i din) i (NDIRECT + 1 + j) (img'.view i din) x)
      (blank : img'.Blank)
      (freeblock : img'.freeblock = img.freeblock + if (img.view i din).addr i (NDIRECT + 1 + j) =
        0 then 1 else 0)
      (freeinode : img'.freeinode = img.freeinode) (dinode : ∀ n, n < inodeCap →
        img'.dinode n = img.dinode n)
      (same : (img.view i din).addr i (NDIRECT + 1 + j) ≠ 0 → img' = img)
  | full (hz : (img.view i din).addr i (NDIRECT + 1 + j) = 0)
      (hfull : img.freeblock = FSSIZE) (hx : x = FSSIZE)
      (sectors : img'.sectors = FSSIZE)

theorem dinode_write {sec : Nat} (data : Block) (hlo : nmeta ≤ sec) {n : Nat} (hn : n < inodeCap) :
    (img.write sec data).dinode n = img.dinode n := by
  have hlt := iblock_lt hn
  have hm : sb.bmapstart ≤ nmeta := by decide
  unfold Image.dinode
  rw [Image.write_disk, if_neg (by omega)]

theorem indirectBlock_spec (hc : Consistent sb (img.view i din))
    (hb : img.Blank) (hind : din.indirect ≠ 0) {j : Nat}
    (hj : j < NINDIRECT) (E : String → Prop) :
    wp (indirectBlock din j) (EntryTo img i din j) E img := by
  have hm := view_mode img i din
  have hino : ((img.view i din).ino i).indirect = din.indirect := by rw [view_ino]; rfl
  have hrange := hc.addr_range (by rw [Store.addr_indirect hm, hino]; exact hind)
  rw [Store.addr_indirect hm, hino] at hrange
  obtain ⟨hlo, hhi⟩ := hrange
  have hentry :
      (img.view i din).addr i (NDIRECT + 1 + j) = (img.disk din.indirect).u32 (4 * j) := by
    rw [Store.addr_entry hm hj, Store.entry, hino, if_neg hind]
    exact congrArg (ByteBlock.u32 · (4 * j)) (if_pos hlo)
  have hmarked := hc.owns.marked (i, NDIRECT) (by rw [Store.addr_indirect hm, hino]; exact hind)
  rw [Store.addr_indirect hm, hino] at hmarked
  have hused : din.indirect < img.freeblock := of_decide_eq_true hmarked
  unfold indirectBlock
  rw [wp_bind, wp_of_eq (rsect_eq hb.sectors hhi), ← hentry]
  by_cases hz : (img.view i din).addr i (NDIRECT + 1 + j) = 0
  · rw [if_pos hz, wp_bind, wp_of_eq (nextBlock_eq img), wp_bind,
      wp_of_eq (wsect_eq hhi _), wp_pure]
    by_cases hlt : img.freeblock < FSSIZE
    · refine .found (takes_entry hc hb hlt hind hlo hj hz) ?_
        ?_ rfl (fun n => dinode_write _ hlo) fun hne => absurd hz hne
      · exact (hb.bump hlt).write _ (.inr hlo) (Nat.lt_succ_of_lt hused)
      · rw [if_pos hz]
        rfl
    · have hfb : img.freeblock = FSSIZE := Nat.le_antisymm hb.hi (Nat.le_of_not_lt hlt)
      exact .full hz hfb hfb (Image.write_sectors _ hb.sectors hhi)
  · rw [if_neg hz, wp_pure]
    exact .found (Takes.refl hc rfl hz) hb (by rw [if_neg hz]; rfl)
      rfl (fun _ _ => rfl) fun _ => rfl

theorem Takes.maps {st st' st'' : Store} {b x fbn : Nat} (h : Takes st i NDIRECT st' b)
    (hge : ¬ fbn < NDIRECT)
    (h' : Takes st' i (NDIRECT + 1 + (fbn - NDIRECT)) st'' x)
    (hsame : st.dataAddr i fbn ≠ 0 → st'' = st) :
    Maps st i fbn st'' x where
  consistent := h'.consistent
  grows := h.grows.trans h'.grows
  addr := by
    rw [Store.dataAddr, slotOf_indirect hge]
    exact h'.self
  nonzero := h'.nonzero
  same := hsame
  blank hz := by
    rw [Store.dataAddr, slotOf_indirect hge] at hz
    exact h'.blank (by rw [h.addr, if_neg (by omega)]; exact hz)
  addrs j k := by
    have hle : NDIRECT ≤ fbn := Nat.le_of_not_lt hge
    rw [h'.addr_ne_zero, h.addr_ne_zero, slotOf_indirect hge, or_assoc, ← and_or_left]
    simp only [hle, true_and, or_comm]

theorem gain_indirect (st : Store) {fbn : Nat} (h : ¬ fbn < NDIRECT) :
    gain st i fbn = (if st.addr i (NDIRECT + 1 + (fbn - NDIRECT)) = 0 then 1 else 0) +
      if st.addr i NDIRECT = 0 then 1 else 0 := by
  have hle : NDIRECT ≤ fbn := Nat.le_of_not_lt h
  simp [gain, Store.dataAddr, slotOf_indirect h, hle]

/-- The copy has an indirect block, perhaps a new one. -/
structure HasIndirect (img : Image) (i : Nat) (din : Inode) (z : UInt32)
    (din' : Inode) (img' : Image) : Prop where
  takes : Takes (img.view i { din with size := z }) i NDIRECT
    (img'.view i { din' with size := z }) din'.indirect
  blank : img'.Blank
  ino : ∃ a, din' = { din with addrs := a }
  freeinode : img'.freeinode = img.freeinode
  dinode : ∀ n, n < inodeCap → img'.dinode n = img.dinode n
  freeblock : img'.freeblock = img.freeblock +
    if (img.view i { din with size := z }).addr i NDIRECT = 0 then 1 else 0
  same : (img.view i { din with size := z }).addr i NDIRECT ≠ 0 → din' = din ∧ img' = img

theorem HasIndirect.entry {z : UInt32} {din' : Inode} {img' : Image}
    (h : HasIndirect img i din z din' img') {fbn : Nat}
    (hge : ¬ fbn < NDIRECT) (hmax : fbn < MAXFILE) (E : String → Prop) :
    wp (indirectBlock din' (fbn - NDIRECT) >>= fun x => pure (din', x))
      (BlockTo img i din z fbn) E img' := by
  have hj : fbn - NDIRECT < NINDIRECT := by
    have : MAXFILE = NDIRECT + NINDIRECT := rfl
    omega
  have hentry : (img'.view i { din' with size := z }).addr i (NDIRECT + 1 + (fbn - NDIRECT)) =
      (img.view i { din with size := z }).addr i (NDIRECT + 1 + (fbn - NDIRECT)) := by
    rw [h.takes.addr, if_neg (by omega)]
  have hspec : wp (indirectBlock { din' with size := z } (fbn - NDIRECT)) _ E img' :=
    indirectBlock_spec h.takes.consistent h.blank h.takes.nonzero hj E
  refine wp.seq hspec fun x img'' hx => ?_
  rw [wp_pure]
  cases hx with
  | found ht hb hfb hfi hdin hsame =>
    rw [hentry] at hfb hsame
    have hmaps : Maps (img.view i { din with size := z }) i fbn
        (img''.view i { din' with size := z }) x := by
      refine h.takes.maps hge ht fun hne => ?_
      rw [Store.dataAddr, slotOf_indirect hge] at hne
      -- a mapped entry was reached through a mapped indirect block
      have hindirect : (img.view i { din with size := z }).addr i NDIRECT ≠ 0 := by
        intro hz
        have hm := view_mode img i { din with size := z }
        rw [Store.addr_indirect hm] at hz
        rw [Store.addr_entry hm hj, Store.entry, if_pos hz] at hne
        exact hne rfl
      obtain ⟨h1, h2⟩ := h.same hindirect
      rw [hsame hne, h1, h2]
    refine .inl ⟨hmaps, hb, ?_, hfi.trans h.freeinode,
      fun n hn => (hdin n hn).trans (h.dinode n hn), h.ino⟩
    rw [hfb, h.freeblock, gain_indirect _ hge]
    omega
  | full hz hfull hx hs =>
    rw [hentry] at hz
    have hfb := h.freeblock
    refine .inr ⟨⟨hx.symm.le, Nat.le_succ_of_le hx.le, hs⟩, ?_⟩
    rw [gain_indirect _ hge, if_pos hz]
    omega

theorem blockFor_indirect {z : UInt32} (hc : Consistent sb (img.view i { din with size := z }))
    (hb : img.Blank) {fbn : Nat} (h : ¬ fbn < NDIRECT) (hmax : fbn < MAXFILE) :
    wp (blockFor din fbn) (BlockTo img i din z fbn)
      (fun _ => FSSIZE < img.freeblock + gain (img.view i { din with size := z }) i fbn) img := by
  have hdirect :
      (img.view i { din with size := z }).addr i NDIRECT = (din.addrs (Fin.last NDIRECT)).toNat :=
    view_direct (Fin.last NDIRECT)
  unfold blockFor
  rw [dif_neg h, wp_bind]
  by_cases hz : (din.addrs (Fin.last NDIRECT)).toNat = 0
  · rw [wp_of_eq (directBlock_new hz)]
    have hind : (din.setAddr (Fin.last NDIRECT) img.freeblock).indirect = img.freeblock :=
      setAddr_toNat _ (Nat.le_succ_of_le hb.hi)
    by_cases hlt : img.freeblock < FSSIZE
    · have hhas :
          HasIndirect img i din z (din.setAddr (Fin.last NDIRECT) img.freeblock) img.bump := by
        refine ⟨?_, hb.bump hlt, ⟨_, rfl⟩, rfl, fun _ _ => rfl, ?_, fun hne => ?_⟩
        · rw [hind]
          exact @takes_direct img i { din with size := z } hc hb hlt _ hz
        · rw [hdirect, if_pos hz]
          rfl
        · rw [hdirect] at hne
          exact absurd hz hne
      exact hhas.entry h hmax _
    · -- the indirect block itself is past the end
      have hfb : img.freeblock = FSSIZE := Nat.le_antisymm hb.hi (Nat.le_of_not_lt hlt)
      have hread : rsect (din.setAddr (Fin.last NDIRECT) img.freeblock).indirect img.bump =
          .error "read" := by
        have hsec : img.bump.sectors = FSSIZE := hb.sectors
        unfold rsect
        show (if _ then _ else _ : MkfsM Block) _ = _
        rw [hind, hfb, if_neg (by rw [hsec]; decide)]
        rfl
      have hrun : indirectBlock (din.setAddr (Fin.last NDIRECT) img.freeblock)
          (fbn - NDIRECT) img.bump = .error "read" :=
        bind_of_error hread
      unfold wp
      rw [bind_of_error hrun]
      show FSSIZE < _
      rw [gain_indirect _ h, hdirect, if_pos hz]
      omega
  · rw [wp_of_eq (directBlock_old hz)]
    have hhas : HasIndirect img i din z din img :=
      ⟨Takes.refl hc hdirect hz, hb, ⟨_, rfl⟩, rfl, fun _ _ => rfl,
        by rw [hdirect, if_neg hz]; rfl, fun _ => ⟨rfl, rfl⟩⟩
    exact hhas.entry h hmax _

theorem blockFor_spec {z : UInt32} (hc : Consistent sb (img.view i { din with size := z }))
    (hb : img.Blank) {fbn : Nat} (hmax : fbn < MAXFILE) :
    wp (blockFor din fbn) (BlockTo img i din z fbn)
      (fun _ => FSSIZE < img.freeblock + gain (img.view i { din with size := z }) i fbn) img := by
  by_cases h : fbn < NDIRECT
  · exact blockFor_direct hc hb h _
  · exact blockFor_indirect hc hb h hmax

end Blocks

end Micro86.Mkfs
