import Mathlib

/-!
# Blocks of bytes and little-endian fields

A block is a fixed number of bytes.  `write` is `memmove` into a block; `u16`/`u32` read a
little-endian field at a byte offset.  The lemmas come in pairs: a field just written reads
back, and a field disjoint from what is written is unchanged.
-/

namespace Micro86

variable {i off k : Nat} {src : List UInt8}

/-- A block of `n` bytes. -/
abbrev ByteBlock (n : Nat) := Fin n → UInt8

namespace ByteBlock

variable {n : Nat}

/-- Byte `i` of the block (zero outside it). -/
def byte (b : ByteBlock n) (i : Nat) : UInt8 := if h : i < n then b ⟨i, h⟩ else 0

/-- The block of zeroes. -/
def zero : ByteBlock n := fun _ => 0

/-- `memmove(b + off, src, src.length)`; bytes that would fall outside the block are dropped. -/
def write (b : ByteBlock n) (off : Nat) (src : List UInt8) : ByteBlock n :=
  fun i => if off ≤ i.val then (src[i.val - off]?).getD (b i) else b i

/-- The `len` bytes from `off` on. -/
def read (b : ByteBlock n) (off len : Nat) : List UInt8 :=
  (List.range len).map fun k => b.byte (off + k)

theorem ext_byte {b c : ByteBlock n} (h : ∀ i, i < n → b.byte i = c.byte i) : b = c := by
  funext i
  have := h i.val i.isLt
  simpa [byte] using this

@[simp] theorem byte_zero (i : Nat) : (zero : ByteBlock n).byte i = 0 := by
  unfold byte zero
  split <;> rfl

section

variable (b : ByteBlock n)
include b

theorem byte_of_ge (h : n ≤ i) : b.byte i = 0 := by
  unfold byte
  rw [dif_neg (by omega)]

/-- Every byte after a write. -/
theorem byte_write (off : Nat) (src : List UInt8) (hi : i < n) :
    (b.write off src).byte i = if off ≤ i then (src[i - off]?).getD (b.byte i) else b.byte i := by
  simp [byte, write, hi]

theorem byte_write_of_mem (hi : i < n)
    (h1 : off ≤ i) (h2 : i - off < src.length) : (b.write off src).byte i = src[i - off] := by
  rw [byte_write b off src hi, if_pos h1, List.getElem?_eq_getElem h2, Option.getD_some]

theorem byte_write_of_notMem
    (h : i < off ∨ off + src.length ≤ i) : (b.write off src).byte i = b.byte i := by
  by_cases hi : i < n
  · rw [byte_write b off src hi]
    split
    · rw [List.getElem?_eq_none (by omega), Option.getD_none]
    · rfl
  · rw [byte_of_ge _ (by omega), byte_of_ge _ (by omega)]

@[simp] theorem length_read (off len : Nat) : (b.read off len).length = len := by
  simp [read]

theorem getElem_read (off len : Nat) (hk : k < (b.read off len).length) :
    (b.read off len)[k] = b.byte (off + k) := by
  simp [read]

end

/-! ## Little-endian fields -/

/-- The two bytes of a 16-bit value (`xshort` order). -/
def le16 (v : Nat) : List UInt8 := [UInt8.ofNat v, UInt8.ofNat (v / 256)]

/-- The four bytes of a 32-bit value (`xint` order). -/
def le32 (v : Nat) : List UInt8 :=
  [UInt8.ofNat v, UInt8.ofNat (v / 256), UInt8.ofNat (v / 65536), UInt8.ofNat (v / 16777216)]

@[simp] theorem length_le16 (v : Nat) : (le16 v).length = 2 := rfl
@[simp] theorem length_le32 (v : Nat) : (le32 v).length = 4 := rfl

/-- The 16-bit field at byte offset `off`. -/
def u16 (b : ByteBlock n) (off : Nat) : Nat := (b.byte off).toNat + 256 * (b.byte (off + 1)).toNat

/-- The 32-bit field at byte offset `off`. -/
def u32 (b : ByteBlock n) (off : Nat) : Nat :=
  (b.byte off).toNat + 256 * (b.byte (off + 1)).toNat + 65536 * (b.byte (off + 2)).toNat +
    16777216 * (b.byte (off + 3)).toNat

/-- The 64-bit field at byte offset `off`. -/
def u64 (b : ByteBlock n) (off : Nat) : Nat := b.u32 off + 2 ^ 32 * b.u32 (off + 4)

theorem u32_lt (b : ByteBlock n) (off : Nat) : b.u32 off < 4294967296 := by
  have h0 := (b.byte off).toNat_lt
  have h1 := (b.byte (off + 1)).toNat_lt
  have h2 := (b.byte (off + 2)).toNat_lt
  have h3 := (b.byte (off + 3)).toNat_lt
  unfold u32; omega

@[simp] theorem u16_zero (off : Nat) : (zero : ByteBlock n).u16 off = 0 := by simp [u16]
@[simp] theorem u32_zero (off : Nat) : (zero : ByteBlock n).u32 off = 0 := by simp [u32]

/-- A field reads the same in two blocks that agree on its bytes. -/
theorem u16_congr {b c : ByteBlock n} (h : ∀ k, k < 2 → b.byte (off + k) = c.byte (off + k)) :
    b.u16 off = c.u16 off := by
  have h0 := h 0 (by omega)
  have h1 := h 1 (by omega)
  rw [Nat.add_zero] at h0
  unfold u16
  rw [h0, h1]

theorem u32_congr {b c : ByteBlock n} (h : ∀ k, k < 4 → b.byte (off + k) = c.byte (off + k)) :
    b.u32 off = c.u32 off := by
  have h0 := h 0 (by omega)
  have h1 := h 1 (by omega)
  have h2 := h 2 (by omega)
  have h3 := h 3 (by omega)
  rw [Nat.add_zero] at h0
  unfold u32
  rw [h0, h1, h2, h3]

theorem u16_write_disjoint (b : ByteBlock n) {o : Nat}
    (h : off + 2 ≤ o ∨ o + src.length ≤ off) : (b.write o src).u16 off = b.u16 off :=
  u16_congr fun k hk => byte_write_of_notMem b (by omega)

theorem u32_write_disjoint (b : ByteBlock n) {o : Nat}
    (h : off + 4 ≤ o ∨ o + src.length ≤ off) : (b.write o src).u32 off = b.u32 off :=
  u32_congr fun k hk => byte_write_of_notMem b (by omega)

theorem u16_write_same (b : ByteBlock n) (v : Nat) (h : off + 2 ≤ n) :
    (b.write off (le16 v)).u16 off = v % 65536 := by
  unfold u16
  rw [byte_write_of_mem b (by omega) (by omega) (by simp),
    byte_write_of_mem b (by omega) (by omega) (by simp)]
  simp [le16]
  omega

theorem u32_write_same (b : ByteBlock n) (v : Nat) (h : off + 4 ≤ n) :
    (b.write off (le32 v)).u32 off = v % 4294967296 := by
  unfold u32
  rw [byte_write_of_mem b (by omega) (by omega) (by simp),
    byte_write_of_mem b (by omega) (by omega) (by simp),
    byte_write_of_mem b (by omega) (by omega) (by simp),
    byte_write_of_mem b (by omega) (by omega) (by simp)]
  simp [le32]
  omega

/-! ## Arrays of 32-bit words -/

/-- The bytes of an array of 32-bit words. -/
def words (vs : List Nat) : List UInt8 := vs.flatMap le32

@[simp] theorem length_words (vs : List Nat) : (words vs).length = 4 * vs.length := by
  induction vs with
  | nil => rfl
  | cons v vs ih =>
    simp only [words, List.flatMap_cons, List.length_append,
      length_le32, List.length_cons] at ih ⊢; omega

theorem getElem?_words (vs : List Nat) {v : Nat} (hk : vs[k]? = some v) {j : Nat} (hj : j < 4) :
    (words vs)[4 * k + j]? = (le32 v)[j]? := by
  induction vs generalizing k with
  | nil => cases hk
  | cons w vs ih =>
    rw [words, List.flatMap_cons]
    cases k with
    | zero =>
      rw [List.getElem?_cons_zero, Option.some.injEq] at hk
      rw [hk, List.getElem?_append_left (by simp; omega), Nat.mul_zero, Nat.zero_add]
    | succ k =>
      rw [List.getElem?_append_right (by simp; omega), ← ih hk, words]
      congr 1
      simp only [length_le32]
      omega

/-- A word of an array just stored reads back. -/
theorem u32_write_words (b : ByteBlock n) {vs : List Nat} (hfit : off + 4 * vs.length ≤ n)
    {v : Nat} (hk : vs[k]? = some v) :
    (b.write off (words vs)).u32 (off + 4 * k) = v % 4294967296 := by
  have hlt : k < vs.length := (List.getElem?_eq_some_iff.mp hk).1
  have hbyte : ∀ j, j < 4 → (b.write off (words vs)).byte (off + 4 * k + j) =
      ((b.write (off + 4 * k) (le32 v)).byte (off + 4 * k + j)) := by
    intro j hj
    rw [byte_write b _ _ (by omega), byte_write b _ _ (by omega),
      if_pos (by omega), if_pos (by omega)]
    have h1 : off + 4 * k + j - off = 4 * k + j := by omega
    have h2 : off + 4 * k + j - (off + 4 * k) = j := by omega
    rw [h1, h2, getElem?_words vs hk hj]
  rw [← u32_write_same b v (by omega : off + 4 * k + 4 ≤ n)]
  exact u32_congr hbyte

end ByteBlock

end Micro86
