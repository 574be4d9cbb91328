import Micro86.Fs.Lookup
import Micro86.Tree.Forest
import Micro86.Mkfs.Consistency

/-!
# Directory entries of the finished image

* `cstr_direntFor`, `cstr_dotFor` — the names that `mkfs` stores, as the kernel compares them.
* `finish_begins` — every file of the finished image begins with the bytes that were packed.
* `finish_root_reads`, `finish_root_unmapped` — what follows them in the root directory.
-/

namespace Micro86.Mkfs

open Exec Fs Image
open Micro86.Tree (cstr)

/-! ## Names -/

theorem cstr_of_noNul : ∀ (n : Nat) {p : List UInt8}, 0 ∉ p → cstr n p = p.take n
  | 0, _, _ => rfl
  | n + 1, [], _ => by
    unfold cstr
    rw [if_pos List.headD_nil, List.take_nil]
  | n + 1, x :: p, h => by
    have hx : x ≠ 0 := fun hx => h (hx ▸ List.mem_cons_self)
    unfold cstr
    rw [List.headD_cons, if_neg hx, List.tail_cons,
      cstr_of_noNul n fun hp => h (List.mem_cons_of_mem _ hp), List.take_succ_cons]

theorem cstr_strncpy_le : ∀ (m n : Nat) (t : List UInt8), m ≤ n → cstr m (strncpy n t) = cstr m t
  | 0, _, _, _ => rfl
  | m + 1, n + 1, t, h => by
    unfold strncpy
    by_cases hz : t.headD 0 = 0
    · rw [if_pos hz]
      unfold cstr
      rw [if_pos hz, List.replicate_succ, if_pos List.headD_cons]
    rw [if_neg hz]
    unfold cstr
    rw [if_neg hz, if_neg (by simpa using hz), List.headD_cons,
      List.tail_cons, cstr_strncpy_le m n _ (Nat.le_of_succ_le_succ h)]

/-- The last byte is overwritten with a terminator. -/
theorem cstr_cut : ∀ (n : Nat) (w : List UInt8), n ≤ w.length →
    cstr (n + 1) (w.take n ++ [0]) = cstr n w
  | 0, _, _ => rfl
  | n + 1, x :: w, h => by
    have ih := cstr_cut n w (Nat.le_of_succ_le_succ h)
    rw [List.take_succ_cons, List.cons_append]
    unfold cstr
    rw [List.headD_cons, List.headD_cons, List.tail_cons, List.tail_cons, ih]

theorem direntFor_name (nm : List UInt8) (ino : Nat) :
    (direntFor nm ino).name = (strncpy DIRSIZ nm).take (DIRSIZ - 1) ++ [0] := by
  have hlen := length_strncpy DIRSIZ nm
  have hD : DIRSIZ = 20 := rfl
  have hE := DIRENTSIZE_eq
  have htake : ((strncpy DIRSIZ nm).take (DIRSIZ - 1)).length = 19 := by
    rw [List.length_take]
    omega
  unfold Dirent.name direntFor
  refine List.ext_getElem (by simp only [List.length_append, htake]; rfl) fun k h1 h2 => ?_
  have hk : k < 20 := by simpa [hD] using h1
  rw [ByteBlock.getElem_read]
  by_cases hlast : k < 19
  · rw [ByteBlock.byte_write_of_notMem _ (.inl (by omega)),
      ByteBlock.byte_write_of_mem _ (by omega) (by omega) (by omega),
      List.getElem_append_left (by omega), List.getElem_take]
    congr 1
    omega
  have hk19 : k = 19 := by omega
  subst hk19
  rw [ByteBlock.byte_write_of_mem _ (by omega) (by omega) (by simp [hD]),
    List.getElem_append_right (by omega)]
  simp

theorem direntFor_ino (nm : List UInt8) (ino : Nat) : (direntFor nm ino).ino = ino % 65536 := by
  unfold Dirent.ino direntFor
  rw [ByteBlock.u16_write_disjoint _ (.inl (by decide)),
    ByteBlock.u16_write_disjoint _ (.inl (by decide))]
  exact ByteBlock.u16_write_same _ _ (by decide)

theorem dotFor_ino (nm : List UInt8) (ino : Nat) : (dotFor nm ino).ino = ino % 65536 := by
  unfold Dirent.ino dotFor
  rw [ByteBlock.u16_write_disjoint _ (.inl (by decide))]
  exact ByteBlock.u16_write_same _ _ (by decide)

/-- **The name that is stored**: cut to one byte less than the field. -/
theorem cstr_direntFor (nm : HostName) (ino : Nat) :
    cstr DIRSIZ (direntFor nm.bytes ino).name = nm.bytes.take (DIRSIZ - 1) := by
  have hlen := length_strncpy DIRSIZ nm.bytes
  rw [direntFor_name]
  refine (cstr_cut (DIRSIZ - 1) (strncpy DIRSIZ nm.bytes) (by rw [hlen]; decide)).trans ?_
  rw [cstr_strncpy_le _ _ _ (by decide), cstr_of_noNul _ nm.noNul]

theorem cstr_dotFor {nm : List UInt8} (h : nm = DOT ∨ nm = DOTDOT) (ino : Nat) :
    cstr DIRSIZ (dotFor nm ino).name = nm := by
  have hbyte : ∀ k, k < DIRSIZ → (dotFor nm ino).byte (7 + k) = ((nm ++ [0])[k]?).getD 0 := by
    intro k hk
    have hD : DIRSIZ = 20 := rfl
    have hE := DIRENTSIZE_eq
    unfold dotFor
    rw [ByteBlock.byte_write _ _ _ (by omega), if_pos (Nat.le_add_right 7 k),
      Nat.add_sub_cancel_left,
      ByteBlock.byte_write_of_notMem _ (.inr (by rw [ByteBlock.length_le16]; omega)),
        ByteBlock.byte_zero]
  have hname : (dotFor nm ino).name = (List.range DIRSIZ).map fun k => ((nm ++ [0])[k]?).getD 0 :=
    List.map_congr_left fun k hk => hbyte k (List.mem_range.mp hk)
  rw [hname]
  rcases h with rfl | rfl <;> decide +kernel

/-! ## Entries in a directory -/

theorem slice_flatMap_bytes (des : List Dirent) {k : Nat} (hk : k < des.length) :
    slice (des.flatMap Dirent.bytes) (DIRENTSIZE * k) DIRENTSIZE = des[k].bytes := by
  induction des generalizing k with
  | nil => exact absurd hk (Nat.not_lt_zero _)
  | cons de des ih =>
    have hlen := length_bytes de
    unfold slice at ih ⊢
    cases k with
    | zero =>
      rw [List.flatMap_cons, Nat.mul_zero, List.drop_zero,
        List.take_append_of_le_length (by omega), List.getElem_cons_zero,
        List.take_of_length_le (by omega)]
    | succ k =>
      have hdrop : de.bytes.drop DIRENTSIZE = [] := List.drop_of_length_le (by omega)
      rw [List.flatMap_cons, Nat.mul_succ, Nat.add_comm, ← List.drop_drop,
        List.drop_append_of_le_length (by omega), hdrop,
        List.nil_append, ih (Nat.lt_of_succ_lt_succ hk), List.getElem_cons_succ]

theorem dent_flatMap (des : List Dirent) (c : List UInt8) {k : Nat} (hk : k < des.length) :
    dent (des.flatMap Dirent.bytes ++ c) k = des[k] := by
  have hlen := length_flatMap_bytes des
  have hle : DIRENTSIZE * k + DIRENTSIZE ≤ DIRENTSIZE * des.length := by
    rw [← Nat.mul_succ]
    exact Nat.mul_le_mul_left _ hk
  have hslice :
      slice (des.flatMap Dirent.bytes ++ c) (DIRENTSIZE * k) DIRENTSIZE = des[k].bytes := by
    rw [← slice_flatMap_bytes des hk]
    unfold slice
    rw [List.drop_append_of_le_length (by omega),
      List.take_append_of_le_length (by rw [List.length_drop]; omega)]
  rw [dent, hslice, Dirent.write_bytes]

theorem dent_zeros (des : List Dirent) (n : Nat) {k : Nat} (hk : des.length ≤ k) :
    dent (des.flatMap Dirent.bytes ++ List.replicate n 0) k = ByteBlock.zero := by
  have hlen := length_flatMap_bytes des
  have hle : DIRENTSIZE * des.length ≤ DIRENTSIZE * k := Nat.mul_le_mul_left _ hk
  apply ByteBlock.ext_byte
  intro o ho
  unfold dent
  rw [ByteBlock.byte_write _ _ _ ho, if_pos (Nat.zero_le _),
    Nat.sub_zero, getElem?_slice, if_pos ho,
    List.getElem?_append_right (by omega), ByteBlock.byte_zero]
  cases hget :
    (List.replicate n (0 : UInt8))[DIRENTSIZE * k + o - (des.flatMap Dirent.bytes).length]? with
  | none => rfl
  | some x => exact List.eq_of_mem_replicate (List.mem_of_getElem? hget)

/-! ## Reading the finished image -/

section Reading

variable {img : Image} {root : Listing} (his : img.Is (Files.packed root))
  (hfit : (Files.packed root).next ≤ inodeCap)

include his hfit

theorem finish_mode {i : Nat} (h1 : 1 ≤ i) (h2 : i < (Files.packed root).next) :
    (img.finish.dinode i).mode = (Files.packed root).mode i ∧
    (img.finish.dinode i).nlink = 1 ∧ (img.finish.dinode i).uid = 0 := by
  rw [finish_dinode (by omega)]
  obtain ⟨hm, hl, hu⟩ := his.ino i h1 h2
  split
  · exact ⟨hm, hl, hu⟩
  · exact ⟨hm, hl, hu⟩

theorem finish_notDev {i : Nat} (h1 : 1 ≤ i) (h2 : i < (Files.packed root).next) :
    ¬ (img.finish.dinode i).isDev := by
  have ht := packed_typed root h1 h2
  unfold Inode.isDev
  rw [(finish_mode his hfit h1 h2).1]
  rcases ht with ht | ht <;> rw [ht] <;> decide

omit his hfit in
theorem finish_addrs {i : Nat} (hi : i < inodeCap) :
    (img.finish.dinode i).addrs = (img.files.ino i).addrs := by
  rw [finish_dinode hi, files_ino img hi]
  split <;> rfl

omit his hfit in
theorem finish_blk (b : Nat) (hb : sb.nmeta ≤ b) : img.finish.disk b = img.files.blk b := by
  rw [finish_disk b hb]
  exact (if_pos hb).symm

theorem finish_size {i : Nat} (h1 : 1 ≤ i) (h2 : i < (Files.packed root).next) :
    (img.finish.dinode i).size.toNat = if i = ROOTINO then
      (((Files.packed root).data i).length / BSIZE + 1) * BSIZE
      else ((Files.packed root).data i).length := by
  rw [finish_dinode (by omega)]
  split
  · rename_i hi
    rw [hi, round_root_size his, length_root]
  · rw [← his.data i h1 h2, length_files img (by omega)]

/-- **Every file begins with the bytes that were packed.** -/
theorem finish_begins {i : Nat} (h1 : 1 ≤ i) (h2 : i < (Files.packed root).next) :
    Begins img.finish.disk (img.finish.dinode i) ((Files.packed root).data i) := by
  have hcap : i < inodeCap := h2.trans_le hfit
  have hsize := finish_size his hfit h1 h2
  have hlen := length_files img hcap
  have hB := BSIZE_eq
  rw [his.data i h1 h2] at hlen
  rw [← his.data i h1 h2]
  refine his.formed.consistent.begins (.inl (files_isReg img hcap))
    finish_blk (finish_addrs hcap) ?_ (finish_notDev his hfit h1 h2)
  rw [files_ino img hcap]
  show (img.dinode i).size.toNat ≤ _
  rw [hsize, ← hlen]
  split
  · have := Nat.div_add_mod ((Files.packed root).data i).length BSIZE
    have := Nat.mod_lt ((Files.packed root).data i).length (show 0 < BSIZE by omega)
    rw [Nat.add_mul, Nat.mul_comm (_ / _)]
    omega
  · exact le_rfl

omit hfit in
theorem finish_rootBlock {bn : Nat} (hbn : bn < MAXFILE) :
    fileBlock img.finish.disk (img.finish.dinode ROOTINO) bn = img.files.dataAddr ROOTINO bn :=
  his.formed.consistent.fileBlock_eq
    (Inode.mode_ne_zero (Or.inl (files_isReg img (by decide)))) finish_blk
    (finish_addrs (by decide)) hbn

theorem finish_root_reads (hpart : ((Files.packed root).data ROOTINO).length % BSIZE ≠ 0) :
    Reads img.finish.disk (img.finish.dinode ROOTINO) ((Files.packed root).data ROOTINO ++
      List.replicate ((img.finish.dinode ROOTINO).size.toNat -
        ((Files.packed root).data ROOTINO).length) 0) := by
  have hnext := Files.next_packed root
  have hr : ROOTINO = 1 := rfl
  have hb := finish_begins his hfit (Nat.le_refl ROOTINO) (by omega)
  have hle := hb.le
  have hsize := finish_size his hfit (Nat.le_refl ROOTINO) (by omega)
  rw [if_pos rfl] at hsize
  generalize hd : (Files.packed root).data ROOTINO = data at *
  have hdata : img.files.contents ROOTINO = data := by rw [his.data ROOTINO le_rfl (by omega), hd]
  have hlen := length_files img (show ROOTINO < inodeCap by decide)
  rw [hdata] at hlen
  generalize hn : (img.finish.dinode ROOTINO).size.toNat = n at *
  have htotal : (data ++ List.replicate (n - data.length) 0).length = n := by
    rw [List.length_append, List.length_replicate]
    omega
  -- every block up to the rounded size holds a byte of the directory
  have hblock : ∀ o, o < n → o / BSIZE < MAXFILE ∧ img.files.dataAddr ROOTINO (o / BSIZE) ≠ 0 := by
    intro o ho
    refine his.formed.consistent.mapped ROOTINO (.inl (files_isReg img (by decide))) (o / BSIZE) ?_
    rw [files_ino img (by decide)]
    show _ < (img.dinode ROOTINO).size.toNat
    rw [← hlen]
    simp only [BSIZE] at *
    omega
  refine ⟨⟨hb.dev, by rw [htotal, hn], fun o ho => ?_, fun o ho => ?_⟩, by rw [htotal, hn]⟩
  · obtain ⟨hlt, hne⟩ := hblock o (by omega)
    exact ⟨hlt, by rwa [finish_rootBlock his hlt]⟩
  · obtain ⟨hlt, hne⟩ := hblock o (by omega)
    by_cases hin : o < data.length
    · rw [List.getElem?_append_left hin]
      exact hb.byte o hin
    have hz := his.formed.tail ROOTINO o (by decide) (by
      rw [files_ino img (by decide)]
      show (img.dinode ROOTINO).size.toNat ≤ _
      omega) hne
    have hrange : sb.nmeta ≤ img.files.dataAddr ROOTINO (o / BSIZE) :=
      (his.formed.consistent.data_range hne).1
    rw [List.getElem?_append_right (by omega), List.getElem?_replicate,
      if_pos (by omega), finish_rootBlock his hlt, finish_blk _ hrange]
    exact congrArg some hz.symm

omit hfit in
theorem finish_root_unmapped (hfull : ((Files.packed root).data ROOTINO).length % BSIZE = 0)
    (hlt : ((Files.packed root).data ROOTINO).length / BSIZE < MAXFILE) :
    fileBlock img.finish.disk (img.finish.dinode ROOTINO)
      (((Files.packed root).data ROOTINO).length / BSIZE) = 0 := by
  have hnext := Files.next_packed root
  have hr : ROOTINO = 1 := rfl
  have hlen := length_files img (show ROOTINO < inodeCap by decide)
  rw [his.data ROOTINO (Nat.le_refl _) (by omega)] at hlen
  generalize (Files.packed root).data ROOTINO = data at *
  refine not_not.mp fun hne => ?_
  rw [finish_rootBlock his hlt, Store.dataAddr] at hne
  have hstart := (his.formed.tight ROOTINO _ (by decide) (slotOf_lt hlt)).mp hne
  rw [start_slotOf, files_ino img (by decide)] at hstart
  have hstart : _ < (img.dinode ROOTINO).size.toNat := hstart
  simp only [BSIZE] at *
  omega

end Reading

end Micro86.Mkfs
