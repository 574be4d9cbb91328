import Micro86.Lib.Bytes

/-!
# Bitmaps in blocks

Bit `i` of a block is bit `i % 8` of byte `i / 8`, tested, set and cleared with the mask
`1 << (i % 8)`.
-/

namespace Micro86.ByteBlock

variable {n : Nat}

/-- `m = 1 << (bi % 8)`. -/
def bitMask (i : Nat) : UInt8 := 1 <<< UInt8.ofNat (i % 8)

/-- `(data[bi/8] & m) != 0`. -/
def bit (b : ByteBlock n) (i : Nat) : Bool := b.byte (i / 8) &&& bitMask i != 0

/-- `data[bi/8] |= m`. -/
def setBit (b : ByteBlock n) (i : Nat) : ByteBlock n :=
  b.write (i / 8) [b.byte (i / 8) ||| bitMask i]

/-- `data[bi/8] &= ~m`. -/
def clearBit (b : ByteBlock n) (i : Nat) : ByteBlock n :=
  b.write (i / 8) [b.byte (i / 8) &&& ~~~ bitMask i]

theorem toBitVec_bitMask (i : Nat) : (bitMask i).toBitVec = BitVec.twoPow 8 (i % 8) := by
  have h : ∀ k < 8, ((1 : UInt8) <<< UInt8.ofNat k).toBitVec = BitVec.twoPow 8 k := by decide
  exact h (i % 8) (by omega)

theorem and_bitMask (x : UInt8) (i : Nat) :
    (x &&& bitMask i != 0) = x.toBitVec.getLsbD (i % 8) := by
  have hz : (x &&& bitMask i = 0) ↔ (x.toBitVec &&& BitVec.twoPow 8 (i % 8) = 0#8) := by
    rw [← UInt8.toBitVec_inj, UInt8.toBitVec_and, toBitVec_bitMask]
    rfl
  have hpow : BitVec.twoPow 8 (i % 8) ≠ 0#8 := by
    have h : ∀ k < 8, BitVec.twoPow 8 k ≠ 0#8 := by decide
    exact h (i % 8) (by omega)
  rw [BitVec.and_twoPow] at hz
  cases hb : x.toBitVec.getLsbD (i % 8) with
  | true => simpa [hb, hpow] using hz
  | false => simpa [hb] using hz

theorem bit_eq (b : ByteBlock n) (i : Nat) : b.bit i = (b.byte (i / 8)).toBitVec.getLsbD (i % 8) :=
  and_bitMask _ _

/-- A write of one byte seen from bit `j`. -/
theorem bit_write_byte (b : ByteBlock n) {i j : Nat} (x : UInt8) (hi : i / 8 < n) :
    (b.write (i / 8) [x]).bit j = if j / 8 = i / 8 then x.toBitVec.getLsbD (j % 8)
    else b.bit j := by
  rw [bit_eq, bit_eq]
  split
  · rename_i h
    rw [h, byte_write_of_mem b hi le_rfl (by simp)]
    simp
  · rw [byte_write_of_notMem b (by simp; omega)]

theorem getLsbD_twoPow_mod {i j : Nat} :
    (BitVec.twoPow 8 (i % 8)).getLsbD (j % 8) = decide (i % 8 = j % 8) := by
  rw [BitVec.getLsbD_twoPow]
  have : j % 8 < 8 := Nat.mod_lt _ (by omega)
  by_cases h : i % 8 = j % 8 <;> simp [h, this]

theorem bit_setBit (b : ByteBlock n) {i : Nat} (hi : i / 8 < n) (j : Nat) :
    (b.setBit i).bit j = (decide (j = i) || b.bit j) := by
  rw [setBit, bit_write_byte b _ hi, bit_eq]
  split
  · rename_i h
    have hji : (i % 8 = j % 8) ↔ j = i := by omega
    rw [UInt8.toBitVec_or, toBitVec_bitMask, BitVec.getLsbD_or, getLsbD_twoPow_mod, h]
    simp [hji, Bool.or_comm]
  · have : j ≠ i := by rintro rfl; simp_all
    simp [this]

theorem bit_clearBit (b : ByteBlock n) {i : Nat} (hi : i / 8 < n) (j : Nat) :
    (b.clearBit i).bit j = (decide (j ≠ i) && b.bit j) := by
  rw [clearBit, bit_write_byte b _ hi, bit_eq]
  split
  · rename_i h
    have hji : (i % 8 = j % 8) ↔ j = i := by omega
    have : j % 8 < 8 := Nat.mod_lt _ (by omega)
    rw [UInt8.toBitVec_and, UInt8.toBitVec_not, toBitVec_bitMask, BitVec.getLsbD_and,
      BitVec.getLsbD_not, getLsbD_twoPow_mod, h]
    simp [hji, this, Bool.and_comm]
  · have : j ≠ i := by rintro rfl; simp_all
    simp [this]

@[simp] theorem bit_zero (i : Nat) : (zero : ByteBlock n).bit i = false := by
  rw [bit_eq, byte_zero]
  simp

end Micro86.ByteBlock
