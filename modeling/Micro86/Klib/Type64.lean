import Mathlib

/-!
# 64-bit division

`kernel/lib/type64.c`: restoring division, one bit of the dividend at a time, and the signed
functions over it.
-/

namespace Micro86.Type64

variable (dividend divisor : BitVec 64)

def divRound (i : Nat) (qr : BitVec 64 × BitVec 64) : BitVec 64 × BitVec 64 :=
  let remainder := qr.2 <<< 1 ||| (dividend >>> i &&& 1)
  if remainder ≥ divisor then (qr.1 ||| (1 : BitVec 64) <<< i, remainder - divisor)
    else (qr.1, remainder)

def divRounds : Nat → BitVec 64 × BitVec 64
  | 0 => (0, 0)
  | n + 1 => divRound dividend divisor (63 - n) (divRounds n)

def udivmoddi4 : BitVec 64 × BitVec 64 :=
  if divisor = 0 then (0, 0)
  else if divisor > dividend then (0, dividend)
  else if divisor = dividend then (1, 0)
  else divRounds dividend divisor 64

def udivdi3 : BitVec 64 := (divRounds dividend divisor 64).1

def divmoddi4 : BitVec 64 × BitVec 64 :=
  let absDividend := if dividend.msb then -dividend else dividend
  let absDivisor := if divisor.msb then -divisor else divisor
  let qr := udivmoddi4 absDividend absDivisor
  (if dividend.msb ≠ divisor.msb then -qr.1 else qr.1, if dividend.msb then -qr.2 else qr.2)

def divdi3 : BitVec 64 := (divmoddi4 dividend divisor).1

def moddi3 : BitVec 64 := (divmoddi4 dividend divisor).2

/-- The bits from `i` up have been divided. -/
structure Divided (i : Nat) (qr : BitVec 64 × BitVec 64) : Prop where
  quotient : qr.1.toNat = dividend.toNat / 2 ^ i / divisor.toNat * 2 ^ i
  remainder : qr.2.toNat = dividend.toNat / 2 ^ i % divisor.toNat

variable {dividend divisor} {i k : Nat} {qr : BitVec 64 × BitVec 64}

namespace Divided

theorem remainder_lt (h : Divided dividend divisor (i + 1) qr) : qr.2.toNat < 2 ^ 63 := by
  have hbits : dividend.toNat / 2 ^ (i + 1) ≤ dividend.toNat / 2 :=
    Nat.div_le_div_left (Nat.le_self_pow (Nat.succ_ne_zero i) 2) (by decide)
  have hmod := Nat.mod_le (dividend.toNat / 2 ^ (i + 1)) divisor.toNat
  have hlt := dividend.isLt
  rw [h.remainder]
  omega

theorem div_pow_succ (a i : Nat) : a / 2 ^ i = 2 * (a / 2 ^ (i + 1)) + a / 2 ^ i % 2 := by
  rw [pow_succ, ← Nat.div_div_eq_div_mul]
  omega

/-- The bit is shifted into the remainder, and no bit out of it. -/
theorem shift (h : Divided dividend divisor (i + 1) qr) :
    (qr.2 <<< 1 ||| (dividend >>> i &&& 1)).toNat = 2 * qr.2.toNat +
    dividend.toNat / 2 ^ i % 2 := by
  have hlt := h.remainder_lt
  have hone : (1 : BitVec 64).toNat = 1 := by decide
  rw [BitVec.toNat_or, BitVec.toNat_shiftLeft, Nat.mod_eq_of_lt (by rw [Nat.shiftLeft_eq]; omega),
    BitVec.toNat_and, hone, Nat.and_one_is_mod, BitVec.toNat_ushiftRight, Nat.shiftRight_eq_div_pow,
    ← Nat.shiftLeft_add_eq_or_of_lt (Nat.mod_lt _ (by decide)), Nat.shiftLeft_eq]
  omega

theorem setBit (hi : i < 64) (hq : qr.1.toNat = k * 2 ^ (i + 1)) :
    (qr.1 ||| (1 : BitVec 64) <<< i).toNat = (2 * k + 1) * 2 ^ i := by
  have hpow : 2 ^ i < 2 ^ 64 := Nat.pow_lt_pow_right (by decide) hi
  have hone : (1 : BitVec 64).toNat = 1 := by decide
  have hlow : 2 ^ i < 2 ^ (i + 1) := Nat.pow_lt_pow_right (by decide) (Nat.lt_succ_self i)
  rw [BitVec.toNat_or, hq, BitVec.toNat_shiftLeft, hone, Nat.shiftLeft_eq,
    Nat.one_mul, Nat.mod_eq_of_lt hpow, ← Nat.shiftLeft_eq,
    ← Nat.shiftLeft_add_eq_or_of_lt hlow, Nat.shiftLeft_eq, pow_succ]
  ring

theorem of_eq (hq : qr.1.toNat = k * 2 ^ i)
    (hr : qr.2.toNat + divisor.toNat * k = dividend.toNat / 2 ^ i)
    (hlt : qr.2.toNat < divisor.toNat) : Divided dividend divisor i qr := by
  obtain ⟨hdiv, hmod⟩ := (Nat.div_mod_unique (Nat.zero_lt_of_lt hlt)).mpr ⟨hr, hlt⟩
  exact ⟨by rw [hdiv, hq], hmod.symm⟩

theorem round (h : Divided dividend divisor (i + 1) qr) (hi : i < 64) (hb : 0 < divisor.toNat) :
    Divided dividend divisor i (divRound dividend divisor i qr) := by
  have hshift := h.shift
  have hquotient := h.quotient
  have hbit := div_pow_succ dividend.toNat i
  have hdiv := Nat.div_add_mod (dividend.toNat / 2 ^ (i + 1)) divisor.toNat
  have hlt := Nat.mod_lt (dividend.toNat / 2 ^ (i + 1)) hb
  rw [← h.remainder] at hdiv hlt
  generalize dividend.toNat / 2 ^ (i + 1) / divisor.toNat = k at hdiv hquotient
  simp only [divRound, ge_iff_le, BitVec.le_def]
  split
  · rename_i hge
    have hsub := BitVec.toNat_sub_of_le (BitVec.le_def.mpr hge)
    refine .of_eq (k := 2 * k + 1) (setBit hi hquotient) ?_ ?_
    · rw [hsub, Nat.mul_add, Nat.mul_left_comm]
      omega
    · rw [hsub]
      omega
  rename_i hlow
  refine .of_eq (k := 2 * k) ?_ ?_ (Nat.lt_of_not_le hlow)
  · rw [hquotient, pow_succ]
    ring
  · rw [hshift, Nat.mul_left_comm]
    omega

end Divided

theorem divided_rounds (hb : 0 < divisor.toNat) {n : Nat} (hn : n ≤ 64) :
    Divided dividend divisor (64 - n) (divRounds dividend divisor n) := by
  induction n with
  | zero =>
    refine .of_eq (k := 0) (by simp [divRounds]) ?_ hb
    rw [Nat.div_eq_of_lt dividend.isLt]
    rfl
  | succ n ih =>
    have hprev := ih (by omega)
    rw [show 64 - n = 63 - n + 1 by omega] at hprev
    rw [show 64 - (n + 1) = 63 - n by omega]
    exact hprev.round (by omega) hb

theorem divRounds_eq (hb : 0 < divisor.toNat) :
    divRounds dividend divisor 64 = (dividend / divisor, dividend % divisor) := by
  have h : Divided dividend divisor (64 - 64) _ := divided_rounds hb le_rfl
  have hquotient := h.quotient
  have hremainder := h.remainder
  simp only [Nat.sub_self, pow_zero, Nat.div_one, Nat.mul_one] at hquotient hremainder
  refine Prod.ext (BitVec.eq_of_toNat_eq ?_) (BitVec.eq_of_toNat_eq ?_)
  · rw [hquotient, BitVec.toNat_udiv]
  · rw [hremainder, BitVec.toNat_umod]

theorem udivmoddi4_eq (hb : divisor ≠ 0) :
    udivmoddi4 dividend divisor = (dividend / divisor, dividend % divisor) := by
  have hpos : 0 < divisor.toNat := Nat.pos_of_ne_zero fun h => hb (BitVec.eq_of_toNat_eq h)
  unfold udivmoddi4
  rw [if_neg hb]
  split
  · rename_i hlt
    rw [BitVec.udiv_eq_zero_iff_eq_zero_or_lt.mpr (.inr hlt), BitVec.umod_eq_of_lt hlt]
    rfl
  split
  · rename_i heq
    subst heq
    have hne : ¬ (divisor == 0#64) = true := by simpa using hb
    rw [BitVec.udiv_self, BitVec.umod_self, if_neg hne]
    rfl
  · exact divRounds_eq hpos

theorem divmoddi4_eq (hb : divisor ≠ 0) :
    divmoddi4 dividend divisor = (dividend.sdiv divisor, dividend.srem divisor) := by
  have habs : (if divisor.msb then -divisor else divisor) ≠ 0 := by
    split
    · exact fun h => hb (BitVec.neg_eq_zero_iff.mp h)
    · exact hb
  simp only [divmoddi4, udivmoddi4_eq habs, BitVec.sdiv, BitVec.srem]
  cases dividend.msb <;> cases divisor.msb <;> simp

/-- **The 64-bit division functions.** -/
theorem division_exact (a b : BitVec 64) (hb : b ≠ 0) :
    (∀ n < 64, (divRounds a b n).2.toNat < 2 ^ 63) ∧
      (udivmoddi4 a b).1.toNat = a.toNat / b.toNat ∧ (udivmoddi4 a b).2.toNat = a.toNat % b.toNat ∧
        (udivdi3 a b).toNat = a.toNat / b.toNat ∧
      (divmoddi4 a b).1.toInt = (a.toInt.tdiv b.toInt).bmod (2 ^ 64) ∧
        (divmoddi4 a b).2.toInt = a.toInt.tmod b.toInt ∧
      (divdi3 a b).toInt = (a.toInt.tdiv b.toInt).bmod (2 ^ 64) ∧
      (moddi3 a b).toInt = a.toInt.tmod b.toInt := by
  have hpos : 0 < b.toNat := Nat.pos_of_ne_zero fun h => hb (BitVec.eq_of_toNat_eq h)
  refine ⟨fun n hn => ?_, ?_⟩
  · have h : Divided a b (64 - n) _ := divided_rounds hpos hn.le
    rw [show 64 - n = 63 - n + 1 by omega] at h
    exact h.remainder_lt
  · simp [udivdi3, divdi3, moddi3, udivmoddi4_eq hb, divRounds_eq hpos,
      divmoddi4_eq hb, BitVec.toInt_sdiv, BitVec.toInt_srem]

theorem division_exact_most_negative :
    (divmoddi4 (BitVec.intMin 64) (-1)).1 = BitVec.intMin 64 := by
  obtain ⟨-, -, -, -, h, -⟩ := division_exact (BitVec.intMin 64) (-1) (by decide)
  exact BitVec.eq_of_toInt_eq (h.trans (by decide))

end Micro86.Type64
