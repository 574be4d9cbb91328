import Micro86.Param

/-!
# The log header block

`struct logheader { int n; int block[LOGSIZE]; }` at the start of the header block: `n` at byte
0, `block[i]` at byte `4 + 4 * i`.
-/

namespace Micro86.Log

def entryOff (i : Nat) : Nat := 4 + 4 * i

/-- `read_head`: the block numbers of the on-disk header.  `n` is a signed `int`; for a
    negative one the loop body does not run. -/
def readHead (b : Block) : List Nat :=
  if b.u32 0 < 2147483648 then (List.range (b.u32 0)).map fun i => b.u32 (entryOff i) else []

def writeEntries : List Nat → Nat → Block → Block
  | [], _, b => b
  | x :: xs, i, b => writeEntries xs (i + 1) (b.write (entryOff i) (ByteBlock.le32 x))

def writeHead (lh : List Nat) (b : Block) : Block :=
  writeEntries lh 0 (b.write 0 (ByteBlock.le32 lh.length))

theorem writeEntries_u32_low : ∀ (xs : List Nat) (i : Nat) (b : Block) {off : Nat},
    off + 4 ≤ entryOff i → (writeEntries xs i b).u32 off = b.u32 off
  | [], _, _, _, _ => rfl
  | x :: xs, i, b, off, h => by
    rw [writeEntries, writeEntries_u32_low xs (i + 1) _ (by unfold entryOff at *; omega),
      ByteBlock.u32_write_disjoint b (Or.inl h)]

theorem writeEntries_u32_entry :
    ∀ (xs : List Nat) (i : Nat) (b : Block) (k : Nat) (hk : k < xs.length),
    entryOff (i + xs.length) ≤ BSIZE →
      (writeEntries xs i b).u32 (entryOff (i + k)) = xs[k] % 4294967296
  | x :: xs, i, b, 0, _, hb => by
    have hfit : entryOff i + 4 ≤ BSIZE := by
      simp only [List.length_cons, entryOff] at *; omega
    rw [writeEntries, writeEntries_u32_low xs (i + 1) _ (by simp [entryOff]; omega)]
    exact ByteBlock.u32_write_same b x hfit
  | x :: xs, i, b, k + 1, hk, hb => by
    have ih := writeEntries_u32_entry xs (i + 1) (b.write (entryOff i) (ByteBlock.le32 x)) k
      (by simpa using hk) (by simp only [List.length_cons] at hb; rwa [Nat.add_right_comm])
    rw [Nat.add_right_comm] at ih
    simpa [writeEntries, Nat.add_assoc] using ih

theorem writeHead_n {lh : List Nat} (b : Block) (h : lh.length ≤ LOGSIZE) :
    (writeHead lh b).u32 0 = lh.length := by
  have hl := LOGSIZE_eq
  rw [writeHead, writeEntries_u32_low _ _ _ (by simp [entryOff]),
    ByteBlock.u32_write_same b _ (by simp [BSIZE])]
  omega

/-- **The header round trip**: `read_head` returns what `write_head` stored. -/
theorem readHead_writeHead {lh : List Nat} (b : Block) (hlen : lh.length ≤ LOGSIZE)
    (hlt : ∀ x ∈ lh, x < 4294967296) : readHead (writeHead lh b) = lh := by
  have hl := LOGSIZE_eq
  have hn := writeHead_n b hlen
  unfold readHead
  rw [hn, if_pos (by omega)]
  apply List.ext_getElem (by simp)
  intro k h1 h2
  have hk := writeEntries_u32_entry lh 0 (b.write 0 (ByteBlock.le32 lh.length)) k h2
    (by simp only [entryOff, BSIZE]; omega)
  rw [Nat.zero_add] at hk
  simp only [List.getElem_map, List.getElem_range]
  rw [writeHead, hk, Nat.mod_eq_of_lt (hlt _ (List.getElem_mem h2))]

theorem readHead_of_n_zero {b : Block} (h : b.u32 0 = 0) : readHead b = [] := by
  simp [readHead, h]

@[simp] theorem readHead_writeHead_nil (b : Block) : readHead (writeHead [] b) = [] :=
  readHead_of_n_zero (writeHead_n b (by simp))

end Micro86.Log
