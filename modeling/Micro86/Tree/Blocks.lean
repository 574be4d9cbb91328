import Micro86.Tree.Model

/-!
# Directories on blocks

The entries of a directory in the tree are those that `Micro86.Fs` reads from its blocks.

* `dirlookup_blocks` — on blocks, `dirlookup` finds what it finds in the tree.
* `dirlink_blocks` — on blocks, `dirlink` stores the entry that it stores in the tree.
-/

namespace Micro86.Tree

open Exec
open Fs (Env Ptr Opened Halts Dirent dent splice strncpy)

variable {env : Env} {s : Fs.State} {p : Ptr} {c name : List UInt8} {m : Nat}

def Dent.of (de : Dirent) : Dent := ⟨de.ino, de.name⟩

/-- The entries of a directory with the bytes `c`. -/
def entries (c : List UInt8) : List Dent :=
  (List.range (c.length / DIRENTSIZE)).map fun k => .of (dent c k)

theorem mem_range_entries (h : DIRENTSIZE * m + DIRENTSIZE ≤ c.length) :
    m ∈ List.range (c.length / DIRENTSIZE) := by
  rw [List.mem_range]
  rw [DIRENTSIZE_eq] at *
  omega

theorem find_entries : find name (entries c) =
    ((List.range (c.length / DIRENTSIZE)).find? fun k => Fs.hasName name (dent c k)).map
      fun k => (.of (dent c k), k) := by
  have hidx : (entries c).zipIdx =
      (List.range (c.length / DIRENTSIZE)).map fun k => (.of (dent c k), k) := by
    apply List.ext_getElem (by simp [entries])
    simp [entries]
  rw [find, hidx, List.find?_map]
  rfl

theorem place_entries (hle : m ≤ c.length / DIRENTSIZE)
    (hfree : m < c.length / DIRENTSIZE → (dent c m).ino = 0)
    (hfirst : ∀ j < m, (dent c j).ino ≠ 0) : place (entries c) = m := by
  have hlen : (entries c).length = c.length / DIRENTSIZE := by simp [entries]
  unfold place
  rcases Nat.lt_or_eq_of_le hle with hlt | heq
  · rw [List.findIdx_eq (by omega)]
    simpa [entries, Dent.of] using ⟨hfree hlt, hfirst⟩
  · rw [heq, ← hlen, List.findIdx_eq_length]
    simpa [entries, Dent.of, ← heq] using hfirst

theorem entries_splice (hwhole : DIRENTSIZE ∣ c.length) (hle : m ≤ c.length / DIRENTSIZE)
    (de : Dirent) :
    entries (splice c (DIRENTSIZE * m) de.bytes) = store (entries c) m (.of de) := by
  have hm : DIRENTSIZE * m ≤ c.length := by
    rw [DIRENTSIZE_eq] at *
    omega
  have hbytes : de.bytes.length = DIRENTSIZE := ByteBlock.length_read ..
  have hdent := Fs.dent_splice hbytes hm
  rw [Dirent.write_bytes] at hdent
  have hlen := Fs.length_splice de.bytes hm
  rw [hbytes] at hlen
  have hcount : (entries c).length = c.length / DIRENTSIZE := by simp [entries]
  unfold store
  rw [hcount]
  split
  · have hsame : (splice c (DIRENTSIZE * m) de.bytes).length / DIRENTSIZE =
        c.length / DIRENTSIZE := by
      rw [DIRENTSIZE_eq] at *
      omega
    apply List.ext_getElem (by simp [entries, hsame])
    intro k _ _
    simp only [entries, List.getElem_map, List.getElem_range, hdent, List.getElem_set, eq_comm]
    split <;> rfl
  · have hmore : (splice c (DIRENTSIZE * m) de.bytes).length / DIRENTSIZE = m + 1 ∧
        c.length / DIRENTSIZE = m := by
      rw [DIRENTSIZE_eq] at *
      omega
    unfold entries
    rw [hmore.1, hmore.2, List.range_succ, List.map_append, List.map_singleton, hdent, if_pos rfl]
    congr 1
    refine List.map_congr_left fun k hk => ?_
    rw [hdent, if_neg (List.mem_range.mp hk).ne]

theorem Dent.of_put (de : Dirent) (name : List UInt8) (inum : Nat) :
    Dent.of (de.put name inum) = ⟨inum % 65536, strncpy DIRSIZ name⟩ := by
  have hlen := Fs.length_strncpy DIRSIZ name
  have hD : DIRSIZ = 20 := rfl
  have hE := DIRENTSIZE_eq
  unfold Dent.of
  rw [Dirent.ino_put]
  unfold Dirent.name Dirent.put
  congr 1
  refine List.ext_getElem (by rw [hlen, ByteBlock.length_read]) fun k _ hk => ?_
  rw [ByteBlock.getElem_read, ByteBlock.byte_write_of_notMem _ (.inr (by simp; omega)),
    ByteBlock.byte_write_of_mem _ (by omega) (by omega) (by omega)]
  congr 1
  omega

theorem find_entries_none
    (h : ∀ j, DIRENTSIZE * j < c.length → Fs.hasName name (dent c j) = false) :
    find name (entries c) = none := by
  rw [find_entries, List.find?_eq_none.mpr fun k hk => ?_]
  · rfl
  have hk : k < c.length / DIRENTSIZE := List.mem_range.mp hk
  rw [h k (by rw [DIRENTSIZE_eq] at *; omega)]
  exact Bool.false_ne_true

theorem dirlookup_blocks (h : Opened env.sb s p) (hd : (s.icache p).ino.isDir) :
    wp (Fs.dirlookup env p name) (fun r t => r.map (fun q => ((t.icache q.1).inum, q.2)) =
      (find name (entries (s.contents env.sb p))).map fun e => (e.1.ino, DIRENTSIZE * e.2))
      Halts s := by
  refine (Fs.dirlookup_spec h hd).imp fun r t ht => ?_
  cases ht with
  | absent hall =>
    rw [find_entries_none hall]
    rfl
  | present q m _ hin hm hfirst hget =>
    rw [find_entries, List.find?_range_eq_some.mpr ⟨hm, mem_range_entries hin, fun j hj => ?_⟩]
    · exact congrArg some (Prod.ext hget.inum_eq rfl)
    · rw [hfirst j hj]
      rfl

/-- For directories that consist of whole entries. -/
theorem dirlink_blocks {H : List Ptr} {inum : Nat} (h : Opened env.sb s p)
    (hd : (s.icache p).ino.isDir) (hH : Fs.Holds s H)
    (hwhole : DIRENTSIZE ∣ (s.contents env.sb p).length) :
    wp (Fs.dirlink env p name inum) (fun r t =>
      if (find name (entries (s.contents env.sb p))).isSome then r = -1
      else r = 0 ∧ entries (t.contents env.sb p) = store (entries (s.contents env.sb p))
        (place (entries (s.contents env.sb p))) ⟨inum % 65536, strncpy DIRSIZ name⟩) Halts s := by
  refine (Fs.dirlink_spec h hd hH).imp fun r t ht => ?_
  cases ht with
  | «exists» q m u _ hin hm hget hput =>
    rw [if_pos]
    rw [find_entries, Option.isSome_map, List.find?_isSome]
    exact ⟨m, mem_range_entries hin, hm⟩
  | linked m de _ habsent hle hfree hfirst hspliced =>
    have hplace : m ≤ (s.contents env.sb p).length / DIRENTSIZE := by
      rw [DIRENTSIZE_eq] at *
      omega
    have hbytes : t.contents env.sb p =
        splice (s.contents env.sb p) (DIRENTSIZE * m) (de.put name inum).bytes := by
      unfold Fs.State.contents
      rw [hspliced.inum]
      exact hspliced.self
    rw [find_entries_none habsent, place_entries hplace (fun hlt => hfree ?_) hfirst]
    · refine ⟨rfl, ?_⟩
      rw [hbytes, entries_splice hwhole hplace, Dent.of_put]
    · rw [DIRENTSIZE_eq] at *
      omega

end Micro86.Tree
