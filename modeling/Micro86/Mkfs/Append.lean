import Micro86.Mkfs.Blocks

/-!
# `iappend`

`iappend` extends a file block by block.

* `Formed.round` — one round of the loop on the file system.
* `iappend_spec` — one call appends its bytes and touches no other file; it exits only when the file
  gets too large or the blocks run out (`NoRoom`).
-/

namespace Micro86.Mkfs

open Exec Fs Image Function

/-! ## One round -/

section Round

variable {st st' : Store} {fb i off x : Nat} {src : List UInt8}

theorem slotOf_lt {n : Nat} (h : n < MAXFILE) : Store.slotOf n < NDIRECT + 1 + NINDIRECT := by
  have : MAXFILE = NDIRECT + NINDIRECT := rfl
  unfold Store.slotOf
  split <;> omega

theorem Formed.gain_eq (h : Formed st fb) (hi : i < inodeCap) (hsz : (st.ino i).size.toNat = off)
    (hfit : off % BSIZE + src.length ≤ BSIZE) (hne : src ≠ []) (hmax : off / BSIZE < MAXFILE) :
    need off + gain st i (off / BSIZE) = need (off + src.length) := by
  have hdata := h.tight i (Store.slotOf (off / BSIZE)) hi (slotOf_lt hmax)
  have hind := h.tight i NDIRECT hi (by omega)
  rw [start_slotOf, hsz] at hdata
  rw [show start NDIRECT = NDIRECT * BSIZE from if_pos le_rfl, hsz] at hind
  have hgain : gain st i (off / BSIZE) = (if off / BSIZE * BSIZE < off then 0 else 1) +
      if NDIRECT ≤ off / BSIZE ∧ ¬ NDIRECT * BSIZE < off then 1 else 0 := by
    have hfirst : (if st.addr i (Store.slotOf (off / BSIZE)) = 0 then 1 else 0) =
        if off / BSIZE * BSIZE < off then 0 else 1 := by
      by_cases hlt : off / BSIZE * BSIZE < off
      · rw [if_pos hlt, if_neg (hdata.mpr hlt)]
      · rw [if_neg hlt, if_pos (not_not.mp fun hz => hlt (hdata.mp hz))]
    have hsecond : (if NDIRECT ≤ off / BSIZE ∧ st.addr i NDIRECT = 0 then 1 else 0) =
        if NDIRECT ≤ off / BSIZE ∧ ¬ NDIRECT * BSIZE < off then 1 else 0 := by
      refine if_congr (and_congr_right fun _ => ?_) rfl rfl
      rw [← hind, not_not]
    rw [gain, Store.dataAddr, hfirst, hsecond]
  rw [hgain, need_add (List.length_pos_iff.mpr hne) hfit, Nat.add_assoc]

/-- `src` is written to sector `x`, which block `off / BSIZE` of the file has been mapped to, and
    the inode is stored as `ip`. -/
structure Appends (st : Store) (i off : Nat) (src : List UInt8) (st' : Store) (x : Nat)
    (ip : Inode) : Prop where
  inum : i < inodeCap
  reg : (st.ino i).isReg
  size : (st.ino i).size.toNat = off
  maps : Maps st i (off / BSIZE) st' x
  zero : st'.blk 0 = st.blk 0
  fit : off % BSIZE + src.length ≤ BSIZE
  nonempty : src ≠ []
  max : off + src.length ≤ MAXFILE * BSIZE
  mode : ip.mode = (st'.ino i).mode
  addrs : ip.addrs = (st'.ino i).addrs
  grown : ip.size.toNat = off + src.length

def wrote (st' : Store) (x off : Nat) (src : List UInt8) : Store :=
  st'.setBlk x ((st'.blk x).write (off % BSIZE) src)

namespace Appends

variable {ip : Inode} {j k o : Nat}

section

variable (ha : Appends st i off src st' x ip)
include ha

theorem addr_wrote (j k : Nat) : (wrote st' x off src).addr j k = st'.addr j k := by
  rw [wrote, ← ha.maps.addr]
  exact addr_setBlk_data ha.maps.consistent _ j k

theorem written : Written st (wrote st' x off src) i off src := by
  rw [wrote, ← ha.maps.addr]
  exact written_block off src ha.maps.consistent ha.maps.grows
    (by rw [ha.maps.addr]; exact ha.maps.nonzero) ha.maps.same rfl ha.fit ha.nonempty

theorem addr (j k : Nat) :
    ((wrote st' x off src).setInode i ip).addr j k = (wrote st' x off src).addr j k :=
  @Store.addr_setInode (wrote st' x off src) _ _ ha.mode ha.addrs j k

theorem ino_ne (hj : j ≠ i) : ((wrote st' x off src).setInode i ip).ino j = st.ino j := by
  rw [← ha.maps.grows.other j hj]
  exact update_of_ne hj _ _

theorem mapped (ho : o < (st.ino i).size.toNat) (h : Consistent sb st) :
    st.dataAddr i (o / BSIZE) ≠ 0 :=
  (h.mapped i (.inl ha.reg) (o / BSIZE) ((Nat.div_mul_le_self o BSIZE).trans_lt ho)).2

theorem consistent (h : Consistent sb st) :
    Consistent sb ((wrote st' x off src).setInode i ip) := by
  have hc : Consistent sb (wrote st' x off src) := by
    rw [wrote, ← ha.maps.addr]
    exact ha.maps.consistent.setBlk_data _
  exact ha.written.consistent_grow hc (fun o ho => ha.mapped ho h) ha.size.ge ha.max ha.addr
    ha.grown

/-- A new block is zero but for the bytes just written. -/
theorem byteAt_new (hold : st.dataAddr i (o / BSIZE) = 0) (hne : st'.dataAddr i (o / BSIZE) ≠ 0)
    (ho : off + src.length ≤ o) : (wrote st' x off src).byteAt i o = 0 := by
  have hblock : o / BSIZE = off / BSIZE := by
    rcases (ha.maps.addrs i (Store.slotOf (o / BSIZE))).mp hne with hz | ⟨_, hk | hk⟩
    · exact absurd hold hz
    · exact Store.slotOf_inj hk
    · exact absurd hk.2 (Store.slotOf_ne _)
  have hblk : (wrote st' x off src).blk x = (st'.blk x).write (off % BSIZE) src := update_self ..
  have hx : (wrote st' x off src).dataAddr i (o / BSIZE) = x := by
    rw [hblock]
    exact (ha.addr_wrote i _).trans ha.maps.addr
  rw [Store.byteAt, hx, hblk, ByteBlock.byte_write_of_notMem _ ?_,
    ha.maps.blank (by rw [← hblock]; exact hold), ByteBlock.byte_zero]
  simp only [BSIZE] at *
  omega

end

section

variable (h : Formed st fb) (ha : Appends st i off src st' x ip)
include h ha

theorem tight (hj : j < inodeCap) (hk : k < NDIRECT + 1 + NINDIRECT) :
    ((wrote st' x off src).setInode i ip).addr j k ≠ 0 ↔
      start k < (((wrote st' x off src).setInode i ip).ino j).size.toNat := by
  have hpos : 0 < src.length := List.length_pos_iff.mpr ha.nonempty
  rw [ha.addr, ha.addr_wrote, ha.maps.addrs, h.tight j k hj hk]
  by_cases hji : j = i
  · subst hji
    rw [show ((wrote st' x off src).setInode j ip).ino j = ip from update_self .., ha.grown,
      ha.size, start_lt_add hpos ha.fit]
    simp
  · rw [ha.ino_ne hji]
    simp [hji]

theorem count : fb + gain st i (off / BSIZE) = freeblockFor fun j =>
    (((wrote st' x off src).setInode i ip).ino j).size.toNat := by
  have hpos : 0 < src.length := List.length_pos_iff.mpr ha.nonempty
  have hmax := ha.max
  have hbn : off / BSIZE < MAXFILE := Nat.div_lt_of_lt_mul (by rw [Nat.mul_comm]; omega)
  have hsum := sum_update (Finset.mem_range.mpr ha.inum) st.ino ip fun ip => need ip.size.toNat
  have hupd : ((wrote st' x off src).setInode i ip).ino = update st.ino i ip := by
    funext j
    refine update_cases j ?_ fun hj => ?_
    · exact update_self ..
    · rw [ha.ino_ne hj]
  have hgain := h.gain_eq ha.inum ha.size ha.fit ha.nonempty hbn
  rw [h.count, hupd, freeblockFor, freeblockFor]
  simp only [ha.grown, ha.size] at hsum
  omega

theorem tail (hj : j < inodeCap)
    (ho : (((wrote st' x off src).setInode i ip).ino j).size.toNat ≤ o)
    (hne : ((wrote st' x off src).setInode i ip).dataAddr j (o / BSIZE) ≠ 0) :
    ((wrote st' x off src).setInode i ip).byteAt j o = 0 := by
  rw [byteAt_setInode ha.addr]
  rw [Store.dataAddr, ha.addr, ha.addr_wrote] at hne
  by_cases hji : j = i
  · subst hji
    rw [show ((wrote st' x off src).setInode j ip).ino j = ip from update_self .., ha.grown] at ho
    by_cases hold : st.dataAddr j (o / BSIZE) = 0
    · exact ha.byteAt_new hold hne ho
    · rw [ha.written.rest o hold (.inr ho)]
      exact h.tail j o hj (by rw [ha.size]; omega) hold
  · rw [ha.ino_ne hji] at ho
    have hsame : st'.dataAddr j (o / BSIZE) = st.dataAddr j (o / BSIZE) :=
      ha.maps.grows.addrs j _ hji
    have hne : st.dataAddr j (o / BSIZE) ≠ 0 := hsame ▸ hne
    rw [← h.tail j o hj ho hne, Store.byteAt, Store.byteAt,
      show (wrote st' x off src).dataAddr j (o / BSIZE) = st.dataAddr j (o / BSIZE) from
        ha.written.addrs j _ hji, ha.written.blk j _ hji hne]

theorem contents_self :
    ((wrote st' x off src).setInode i ip).contents i = st.contents i ++ src := by
  have hsplice := ha.written.splice (fun o ho => ha.mapped ho h.consistent) ha.size.ge
  have hlen := st.length_contents i
  have hsz := ha.size
  rw [List.take_of_length_le (by omega), List.drop_of_length_le (by omega), List.append_nil, hsz,
    Nat.max_eq_right (Nat.le_add_right _ _)] at hsplice
  rw [← hsplice, contents_setInode_self ha.addr, ha.grown]

end

end Appends

/-- One round of the loop: the bytes are in the block, and the size takes them in. -/
theorem Formed.round (h : Formed st fb) {ip : Inode} (ha : Appends st i off src st' x ip) :
    Formed ((wrote st' x off src).setInode i ip) (fb + gain st i (off / BSIZE)) ∧
      ((wrote st' x off src).setInode i ip).contents i = st.contents i ++ src ∧
      ∀ j, j ≠ i → ((wrote st' x off src).setInode i ip).contents j = st.contents j := by
  have hzero : (wrote st' x off src).blk 0 = st.blk 0 := by
    rw [← ha.zero]
    exact update_of_ne ha.maps.nonzero.symm _ _
  refine ⟨⟨ha.consistent h.consistent, fun j k => ha.tight h, ha.count h, fun j o => ha.tail h⟩,
    ha.contents_self h, fun j hj => ?_⟩
  rw [contents_setInode_ne ha.addr hj, ha.written.contents_other hzero hj]

end Round

/-! ## The loop -/

section Loop

variable {img : Image} {i : Nat}

/-- There is no room for `n` bytes more in a file of `off` bytes. -/
def NoRoom (img : Image) (off n : Nat) : Prop :=
  MAXFILE * BSIZE < off + n ∨ FSSIZE < img.freeblock + (need (off + n) - need off)

/-- The bytes `p` were appended to the copy `ip` of inode `i`, which is `ip'` now. -/
structure Appended (img : Image) (i : Nat) (ip : Inode) (p : List UInt8)
    (img' : Image) (ip' : Inode) : Prop where
  formed : Formed (img'.view i ip') img'.freeblock
  blank : img'.Blank
  freeinode : img'.freeinode = img.freeinode
  dinode : ∀ j, j < inodeCap → img'.dinode j = img.dinode j
  ino : ∃ a z, ip' = { ip with addrs := a, size := z }
  self : (img'.view i ip').contents i = (img.view i ip).contents i ++ p
  other : ∀ j, j ≠ i → (img'.view i ip').contents j = (img.view i ip).contents j

theorem Appended.nil {ip : Inode} (hf : Formed (img.view i ip) img.freeblock) (hb : img.Blank) :
    Appended img i ip [] img ip :=
  ⟨hf, hb, rfl, fun _ _ => rfl, ⟨_, _, rfl⟩, (List.append_nil _).symm, fun _ _ => rfl⟩

theorem Appended.trans {img' img'' : Image} {ip ip' ip'' : Inode}
    {p q : List UInt8} (h : Appended img i ip p img' ip')
    (h' : Appended img' i ip' q img'' ip'') : Appended img i ip (p ++ q) img'' ip'' where
  formed := h'.formed
  blank := h'.blank
  freeinode := h'.freeinode.trans h.freeinode
  dinode j hj := (h'.dinode j hj).trans (h.dinode j hj)
  ino := by
    obtain ⟨_, _, h1⟩ := h.ino
    obtain ⟨a, z, h2⟩ := h'.ino
    exact ⟨a, z, by rw [h2, h1]⟩
  self := by rw [h'.self, h.self, List.append_assoc]
  other j hj := (h'.other j hj).trans (h.other j hj)

theorem rsect_pastEnd {r : Inode × Nat} (h : PastEnd r img) : rsect r.2 img = .error "read" := by
  obtain ⟨h1, h2, h3⟩ := h
  have hF : FSSIZE = 50000 := rfl
  have hB := BSIZE_eq
  have hsec : sector r.2 = r.2 := by
    rw [sector, Nat.mod_eq_of_lt (by rw [hB]; omega), Nat.mul_div_cancel _ (by omega)]
  unfold rsect
  show (if _ then _ else _ : MkfsM Block) img = _
  rw [hsec, if_neg (by omega)]
  rfl

theorem Found.appended {din : Inode} {z z' : UInt32} {r : Inode × Nat}
    {img' : Image} {off : Nat} {src : List UInt8}
    (h : Found img i din z (off / BSIZE) r img') (hi : i < inodeCap)
    (hf : Formed (img.view i { din with size := z }) img.freeblock) (hz : z.toNat = off)
    (hfit : off % BSIZE + src.length ≤ BSIZE) (hne : src ≠ [])
    (hmax : off + src.length ≤ MAXFILE * BSIZE)
    (hz' : z'.toNat = off + src.length) :
    Appended img i { din with size := z } src
      (img'.write r.2 ((img'.disk r.2).write (off % BSIZE) src)) { r.1 with size := z' } := by
  have hreg : ((img.view i { din with size := z }).ino i).isReg := by
    rw [view_ino]
    show S_IFREG &&& S_IFMT = S_IFREG
    decide
  have hb0 : (img'.view i { r.1 with size := z }).dataAddr i (off / BSIZE) ≠ 0 := by
    rw [h.maps.addr]
    exact h.maps.nonzero
  have hlo := (h.maps.consistent.data_range hb0).1
  rw [h.maps.addr] at hlo
  have hused : r.2 < img'.freeblock := by
    have := h.maps.consistent.owns.marked (i, Store.slotOf (off / BSIZE)) hb0
    rw [show (img'.view i { r.1 with size := z }).addr i _ = _ from h.maps.addr] at this
    exact of_decide_eq_true this
  have hblk : img'.disk r.2 = (img'.view i { r.1 with size := z }).blk r.2 := (if_pos hlo).symm
  have hview :
      (img'.write r.2 ((img'.disk r.2).write (off % BSIZE) src)).view i { r.1 with size := z' } =
        (wrote (img'.view i { r.1 with size := z }) r.2 off src).setInode i
          (asFile { r.1 with size := z' }) := by
    rw [view_write hlo, hblk]
    apply Store.ext
    · show update _ i _ = update (update _ i _) i _
      rw [update_idem]
    · rfl
    · rfl
  have hino := view_ino img' i { r.1 with size := z }
  have happ : Appends (img.view i { din with size := z }) i off src
      (img'.view i { r.1 with size := z }) r.2 (asFile { r.1 with size := z' }) :=
    ⟨hi, hreg, by rw [view_ino]; exact hz, h.maps, rfl, hfit, hne, hmax,
      by rw [hino]; rfl, by rw [hino]; rfl, hz'⟩
  obtain ⟨hform, hself, hother⟩ := hf.round happ
  rw [← hview] at hform hself hother
  obtain ⟨a, ha⟩ := h.ino
  refine ⟨?_, h.blank.write _ (.inr hlo) hused, h.freeinode,
    fun j hj => ?_, ⟨a, z', by rw [ha]⟩, hself, hother⟩
  · rw [show (img'.write r.2 _).freeblock = _ from h.freeblock]
    exact hform
  · rw [dinode_write _ hlo hj, h.dinode j hj]

theorem toNat_ofNat_size {n : Nat} (h : n ≤ MAXFILE * BSIZE) : (UInt32.ofNat n).toNat = n := by
  have : MAXFILE * BSIZE < 4294967296 := by decide
  rw [UInt32.toNat_ofNat', Nat.mod_eq_of_lt (by omega)]

theorem iappendLoop_spec (hi : i < inodeCap) (fuel : Nat) {din : Inode}
    {off : Nat} {p : List UInt8} {z : UInt32}
    (hf : Formed (img.view i { din with size := z }) img.freeblock)
    (hb : img.Blank) (hz : z.toNat = off)
    (hfuel : p.length ≤ fuel) :
    wp (iappendLoop fuel din off p)
      (fun r img' => r.2 = off + p.length ∧
        ∃ z' : UInt32, z'.toNat = off + p.length ∧
          Appended img i { din with size := z } p img' { r.1 with size := z' })
      (fun _ => NoRoom img off p.length) img := by
  induction fuel generalizing din off p z img with
  | zero =>
    have hnil : p = [] := List.eq_nil_of_length_eq_zero (by omega)
    subst hnil
    exact ⟨rfl, z, hz, Appended.nil hf hb⟩
  | succ fuel ih =>
    unfold iappendLoop
    split
    · rename_i hnil
      subst hnil
      exact ⟨rfl, z, hz, Appended.nil hf hb⟩
    rename_i hne
    have hpos : 0 < p.length := List.length_pos_iff.mpr hne
    have hB := BSIZE_eq
    split
    · rename_i hmax
      have := Nat.mul_le_mul_right BSIZE hmax
      have := Nat.div_mul_le_self off BSIZE
      exact .inl (by omega)
    rename_i hmax
    have hmod : off % BSIZE < BSIZE := Nat.mod_lt _ (by omega)
    generalize hm : BSIZE - off % BSIZE = m
    have hlen : (p.take m).length = min p.length m := by rw [List.length_take, Nat.min_comm]
    have hlen' : (p.drop m).length = p.length - min p.length m := by rw [List.length_drop]; omega
    have htake : p.take m ≠ [] := by
      intro he
      rw [he] at hlen
      simp only [List.length_nil] at hlen
      omega
    have hend : off + (p.take m).length ≤ MAXFILE * BSIZE := by
      have := Nat.mul_le_mul_right BSIZE (Nat.lt_of_not_le hmax)
      have := Nat.div_add_mod off BSIZE
      rw [Nat.succ_mul] at *
      rw [Nat.mul_comm] at this
      omega
    have hgain : need off + _ = need (off + (p.take m).length) :=
      hf.gain_eq hi (by rw [view_ino]; exact hz) (by omega) htake (Nat.lt_of_not_le hmax)
    have hmono := @need_mono (off + (p.take m).length) (off + p.length) (by omega)
    refine wp.bind (blockFor_spec hf.consistent hb (Nat.lt_of_not_le hmax))
      (fun _ hE => .inr (by omega)) ?_
    rintro r img' (hfound | ⟨hpast, hfull⟩)
    · have happ := hfound.appended hi hf hz (by omega) htake hend (toNat_ofNat_size hend)
      have hb0 : (img'.view i { r.1 with size := z }).dataAddr i (off / BSIZE) ≠ 0 := by
        rw [hfound.maps.addr]
        exact hfound.maps.nonzero
      have hhi := (hfound.maps.consistent.data_range hb0).2
      rw [hfound.maps.addr] at hhi
      rw [wp_bind, wp_of_eq (rsect_eq hfound.blank.sectors hhi), wp_bind, wp_of_eq (wsect_eq hhi _)]
      refine wp.mono
        (ih happ.formed happ.blank (by rw [toNat_ofNat_size hend, hlen]) (by omega)) ?_ ?_
      · rintro r' img'' ⟨hr, z', hz', happ'⟩
        have hall := happ.trans happ'
        rw [List.take_append_drop] at hall
        exact ⟨by omega, z', by omega, hall⟩
      · rintro _ hE
        have hfb : (img'.write r.2 ((img'.disk r.2).write (off % BSIZE) (p.take m))).freeblock =
            _ := hfound.freeblock
        unfold NoRoom at hE ⊢
        rw [hfb, hlen', show off + min p.length m + (p.length - min p.length m) =
          off + p.length by omega, ← hlen] at hE
        omega
    · unfold wp
      rw [bind_of_error (rsect_pastEnd hpast)]
      exact .inr (by omega)

end Loop

/-! ## Whole calls -/

section Calls

variable {img img' : Image} {i : Nat} {p : List UInt8}

theorem view_dinode (img : Image) {i : Nat} (hi : i < inodeCap) :
    img.view i (img.dinode i) = img.files := by
  apply Store.ext
  · show update img.files.ino i _ = _
    rw [update_eq_self_iff]
    exact (if_pos hi).symm
  · rfl
  · rfl

structure AppendTo (img : Image) (i : Nat) (p : List UInt8) (img' : Image) : Prop where
  formed : Formed img'.files img'.freeblock
  blank : img'.Blank
  freeinode : img'.freeinode = img.freeinode
  dinode : ∀ j, j < inodeCap → j ≠ i → img'.dinode j = img.dinode j
  ino : ∃ a z, img'.dinode i = { img.dinode i with addrs := a, size := z }
  self : img'.files.contents i = img.files.contents i ++ p
  other : ∀ j, j ≠ i → img'.files.contents j = img.files.contents j

/-- **One call**: the bytes are appended, every other file is as it was. -/
theorem iappend_spec (hi : i < inodeCap) (hf : Formed img.files img.freeblock)
    (hb : img.Blank) (p : List UInt8) :
    wp (iappend i p) (fun _ img' => AppendTo img i p img')
      (fun _ => NoRoom img (img.dinode i).size.toNat p.length) img := by
  have hview := view_dinode img hi
  have hf' :
      Formed (img.view i { img.dinode i with size := (img.dinode i).size }) img.freeblock := by
    rw [show ({ img.dinode i with size := (img.dinode i).size } : Inode) = img.dinode i
      from rfl, hview]
    exact hf
  unfold iappend
  rw [wp_bind, wp_of_eq (rinode_eq hb.sectors hi)]
  refine wp.seq (iappendLoop_spec hi p.length hf' hb rfl le_rfl) ?_
  rintro r img' ⟨hr, z, hz, happ⟩
  have hsize : UInt32.ofNat r.2 = z := by rw [hr, ← hz, UInt32.ofNat_toNat]
  rw [wp_of_eq (winode_eq happ.blank.sectors hi _), hsize]
  obtain ⟨a, z', ha⟩ := happ.ino
  have hfiles := @files_setDinode img' i hi { r.1 with size := z }
  refine ⟨?_, happ.blank.setDinode hi _, happ.freeinode, fun j hj hji => ?_,
    ⟨a, z', ?_⟩, ?_, fun j hj => ?_⟩
  · rw [hfiles]
    exact happ.formed
  · rw [dinode_setDinode, if_neg hji, happ.dinode j hj]
  · rw [dinode_setDinode, if_pos rfl, ha]
  · rw [hfiles, happ.self, ← hview]
  · rw [hfiles, happ.other j hj, ← hview]

theorem files_ino (img : Image) (hi : i < inodeCap) :
    img.files.ino i = asFile (img.dinode i) := if_pos hi

theorem files_isReg (img : Image) (hi : i < inodeCap) : (img.files.ino i).isReg := by
  rw [files_ino img hi]
  show S_IFREG &&& S_IFMT = S_IFREG
  decide

theorem Formed.reads (hf : Formed img.files img.freeblock) (hi : i < inodeCap)
    (hdev : ¬ (img.dinode i).isDev) : Reads img.disk (img.dinode i) (img.files.contents i) :=
  hf.consistent.reads (.inl (files_isReg img hi)) (fun b hb => (if_pos hb).symm)
    (by rw [files_ino img hi]; rfl) (by rw [files_ino img hi]; rfl) hdev

theorem length_files (img : Image) (hi : i < inodeCap) :
    (img.files.contents i).length = (img.dinode i).size.toNat := by
  rw [Store.length_contents, files_ino img hi]
  rfl

end Calls

end Micro86.Mkfs
