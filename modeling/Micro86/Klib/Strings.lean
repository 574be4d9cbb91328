import Mathlib

/-!
# Numbers and copies

`kernel/lib/string.c`: `itoa` and `memmove`.

* `copyUp`, `copyDown` — the two loops of `memmove`; `moved` is the memory that either leaves.
-/

namespace Micro86.Klib

open Function

section Itoa

def digit (remainder : Nat) : UInt8 :=
  if remainder < 10 then .ofNat (remainder + '0'.toNat) else .ofNat (remainder + 'a'.toNat - 10)

def divide (divisor : Nat) (h : 1 < divisor) (buf : Nat → UInt8)
    (p ud : Nat) : (Nat → UInt8) × Nat :=
  let buf := update buf p (digit (ud % divisor))
  if ud / divisor = 0 then (buf, p + 1) else divide divisor h buf (p + 1) (ud / divisor)
termination_by ud
decreasing_by exact Nat.div_lt_self (Nat.pos_of_ne_zero fun h => by simp_all) h

def swap (buf : Nat → UInt8) (p1 p2 : Nat) : Nat → UInt8 :=
  if p1 < p2 then swap (update (update buf p1 (buf p2)) p2 (buf p1)) (p1 + 1) (p2 - 1) else buf
termination_by p2 - p1

/-- `itoa` once the sign is written: the digits, the NUL, and the digits turned round. -/
def itoaFrom (buf : Nat → UInt8) (start divisor : Nat) (h : 1 < divisor) (ud : Nat) : Nat → UInt8 :=
  let (buf, p) := divide divisor h buf start ud
  swap (update buf p 0) start (p - 1)

def itoa (buf : Nat → UInt8) (base : Char) (d : BitVec 32) : Nat → UInt8 :=
  if base = 'd' ∧ d.toInt < 0 then itoaFrom (update buf 0 '-'.toUInt8) 1 10 (by decide) (-d).toNat
  else if base = 'x' then itoaFrom buf 0 16 (by decide) d.toNat
  else itoaFrom buf 0 10 (by decide) d.toNat

def write (buf : Nat → UInt8) (p : Nat) (l : List UInt8) : Nat → UInt8 :=
  fun i => if p ≤ i then l[i - p]?.getD (buf i) else buf i

def value (b : Nat) (t : List UInt8) : Nat :=
  t.foldl (fun v c => v * b + if c < 'a'.toUInt8 then c.toNat - '0'.toNat
    else c.toNat - 'a'.toNat + 10) 0

/-- The canonical numeral of `n`: digits of the base, and a leading zero only in `0`. -/
structure Numeral (b n : Nat) (t : List UInt8) : Prop where
  nonempty : t ≠ []
  digits : ∀ c ∈ t, ∃ r < b, c = digit r
  canonical : t.head? = some '0'.toUInt8 → t = ['0'.toUInt8]
  value_eq : value b t = n

/-- The sign and a numeral are written, and a NUL, within 12 bytes. -/
def Prints (buf buf' : Nat → UInt8) (sign : List UInt8) (b n : Nat) : Prop :=
  ∃ t, Numeral b n t ∧ (sign ++ t ++ [0]).length ≤ 12 ∧ buf' = write buf 0 (sign ++ t ++ [0])

variable {b n p : Nat} {h : 1 < b} {buf : Nat → UInt8} {l t : List UInt8}

@[simp] theorem write_nil : write buf p [] = buf := by
  funext i
  simp [write]

theorem write_cons (c : UInt8) : write (update buf p c) (p + 1) l = write buf p (c :: l) := by
  funext i
  unfold write
  rcases Nat.lt_trichotomy i p with hi | rfl | hi
  · rw [if_neg (by omega), if_neg (by omega), update_of_ne (by omega)]
  · simp
  · rw [if_pos (by omega), if_pos (by omega), update_of_ne (by omega),
      show i - p = i - (p + 1) + 1 by omega]
    rfl

theorem write_snoc (c : UInt8) :
    update (write buf p l) (p + l.length) c = write buf p (l ++ [c]) := by
  induction l generalizing buf p with
  | nil => simpa using write_cons (l := []) (p := p) c
  | cons _ l ih =>
    rw [← write_cons, List.length_cons, Nat.add_comm l.length, ← Nat.add_assoc, ih, write_cons]
    rfl

theorem swap_apply (buf : Nat → UInt8) (p1 p2 i : Nat) :
    swap buf p1 p2 i = if p1 ≤ i ∧ i ≤ p2 then buf (p1 + p2 - i) else buf i := by
  fun_induction swap buf p1 p2 with
  | case1 buf p1 p2 hlt ih =>
    rw [ih]
    grind
  | case2 buf p1 p2 hge =>
    split
    · congr 1
      omega
    · rfl

theorem swap_write (hl : l ≠ []) :
    swap (write buf p (l ++ [0])) p (p + l.length - 1) = write buf p (l.reverse ++ [0]) := by
  have hpos := List.length_pos_iff.mpr hl
  funext i
  rw [swap_apply]
  unfold write
  grind

theorem value_snoc {r : Nat} (hr : r < 16) : value b (t ++ [digit r]) = value b t * b + r := by
  have hdigit : ∀ r < 16, (if digit r < 'a'.toUInt8 then (digit r).toNat - '0'.toNat
      else (digit r).toNat - 'a'.toNat + 10) = r := by decide
  rw [value, List.foldl_append]
  exact congrArg _ (hdigit r hr)

theorem Numeral.one (hb : b ≤ 16) (hn : n < b) : Numeral b n [digit n] := by
  refine ⟨nofun, fun c hc => ⟨n, hn, by simpa using hc⟩, by simp, ?_⟩
  simpa [value] using value_snoc (b := b) (t := []) (hn.trans_le hb)

theorem Numeral.snoc (h : 1 < b) (hb : b ≤ 16) (ht : Numeral b (n / b) t) (hn : n / b ≠ 0) :
    Numeral b n (t ++ [digit (n % b)]) := by
  have hr : n % b < b := Nat.mod_lt n (by omega)
  refine ⟨by simp, ?_, fun hz => ?_, ?_⟩
  · intro c hc
    obtain hc | hc := List.mem_append.mp hc
    · exact ht.digits c hc
    · exact ⟨n % b, hr, List.mem_singleton.mp hc⟩
  · obtain ⟨c, t, rfl⟩ := List.exists_cons_of_ne_nil ht.nonempty
    have hvalue := ht.value_eq
    rw [ht.canonical hz] at hvalue
    exact absurd (hvalue.symm.trans (Nat.zero_mul b)) hn
  · rw [value_snoc (hr.trans_le hb), ht.value_eq, Nat.div_add_mod']

theorem divide_spec (hb : b ≤ 16) (buf : Nat → UInt8) (p n : Nat) :
    ∃ t, Numeral b n t ∧ (∀ k, n < b ^ (k + 1) → t.length ≤ k + 1) ∧
    divide b h buf p n = (write buf p t.reverse, p + t.length) := by
  fun_induction divide b h buf p n with
  | case1 buf p n buf' hz =>
    have hn : n < b := (Nat.div_eq_zero_iff_lt (by omega)).mp hz
    refine ⟨_, .one hb hn, fun k _ => Nat.le_add_left 1 k, ?_⟩
    simp [← write_cons, buf', Nat.mod_eq_of_lt hn]
  | case2 buf p n buf' hz ih =>
    obtain ⟨t, ht, hlen, heq⟩ := ih
    refine ⟨_, ht.snoc h hb hz, fun k hk => ?_, ?_⟩
    · cases k with
      | zero => exact absurd (Nat.div_eq_of_lt (by simpa using hk)) hz
      | succ k => simpa using hlen k (Nat.div_lt_of_lt_mul (by rwa [← pow_succ']))
    · rw [heq, write_cons, List.reverse_append]
      simp
      omega

theorem itoaFrom_spec (hb : 10 ≤ b ∧ b ≤ 16) (hn : n < 2 ^ 32) :
    ∃ t, Numeral b n t ∧ t.length ≤ 10 ∧ itoaFrom buf p b h n = write buf p (t ++ [0]) := by
  obtain ⟨t, ht, hlen, heq⟩ := divide_spec (h := h) hb.2 buf p n
  refine ⟨t, ht, hlen 9 (hn.trans_le ?_), ?_⟩
  · exact (by decide : 2 ^ 32 ≤ 10 ^ 10).trans (Nat.pow_le_pow_left hb.1 10)
  · simp only [itoaFrom, heq]
    rw [← List.length_reverse, write_snoc, swap_write (by simpa using ht.nonempty),
      List.reverse_reverse]

theorem prints_unsigned (hb : 10 ≤ b ∧ b ≤ 16) (hn : n < 2 ^ 32) :
    Prints buf (itoaFrom buf 0 b h n) [] b n := by
  obtain ⟨t, ht, hlen, heq⟩ := itoaFrom_spec hb hn
  exact ⟨t, ht, by simp; omega, heq⟩

/-- **Number formatting.**  For every value and every base, the buffer holds the canonical numeral,
    NUL-terminated within 12 bytes, and its other bytes are unchanged. -/
theorem itoa_numeral (buf : Nat → UInt8) (d : BitVec 32) :
    Prints buf (itoa buf 'd' d) (if d.toInt < 0 then ['-'.toUInt8] else []) 10 d.toInt.natAbs ∧
      Prints buf (itoa buf 'u' d) [] 10 d.toNat ∧ Prints buf (itoa buf 'x' d) [] 16 d.toNat := by
  refine ⟨?_, prints_unsigned (by decide) d.isLt, prints_unsigned (by decide) d.isLt⟩
  unfold itoa
  have hint : d.toInt = if 2 * d.toNat < 2 ^ 32 then (d.toNat : Int) else d.toNat - 2 ^ 32 :=
    d.toInt_eq_toNat_cond
  have hlt := d.isLt
  by_cases hneg : d.toInt < 0
  · have habs : d.toInt.natAbs = (-d).toNat := by
      rw [BitVec.toNat_neg]
      omega
    obtain ⟨t, ht, hlen, heq⟩ := itoaFrom_spec (b := 10) (by decide) (-d).isLt
    rw [if_pos ⟨rfl, hneg⟩, if_pos hneg, heq, write_cons, habs]
    exact ⟨t, ht, by simp; omega, rfl⟩
  · rw [if_neg (fun h => hneg h.2), if_neg (by decide), if_neg hneg,
      show d.toInt.natAbs = d.toNat by omega]
    exact prints_unsigned (by decide) hlt

end Itoa

def copyUp (m : BitVec 32 → UInt8) (d s : BitVec 32) : Nat → BitVec 32 → UInt8
  | 0 => m
  | n + 1 => copyUp (update m d (m s)) (d + 1) (s + 1) n

def copyDown (m : BitVec 32 → UInt8) (d s : BitVec 32) : Nat → BitVec 32 → UInt8
  | 0 => m
  | n + 1 => copyDown (update m (d - 1) (m (s - 1))) (d - 1) (s - 1) n

def memmove (m : BitVec 32 → UInt8) (dst src n : BitVec 32) : (BitVec 32 → UInt8) × BitVec 32 :=
  if src < dst ∧ src + n > dst then (copyDown m (dst + n) (src + n) n.toNat, dst)
    else (copyUp m dst src n.toNat, dst)

variable {m : BitVec 32 → UInt8} {d s : BitVec 32} {n : Nat}

def moved (m : BitVec 32 → UInt8) (d s : BitVec 32) (n : Nat) : BitVec 32 → UInt8 :=
  fun a => if (a - d).toNat < n then m (s + (a - d)) else m a

theorem moved_zero : moved m d s 0 = m := by
  funext a
  exact if_neg (Nat.not_lt_zero _)

/-- Upwards, no byte is lost unless the destination starts inside the source. -/
theorem copyUp_eq (h : d = s ∨ n ≤ (d - s).toNat) (hn : n ≤ 2 ^ 32) :
    copyUp m d s n = moved m d s n := by
  induction n generalizing m d s with
  | zero => exact moved_zero.symm
  | succ n ih =>
    rw [copyUp, ih (by bv_omega) (by omega)]
    funext a
    have hsrc : s + 1 + (a - (d + 1)) = s + (a - d) := by grind
    simp only [moved, update_apply, hsrc]
    by_cases ha : a = d
    · subst ha
      rw [if_neg (by bv_omega), if_pos rfl, if_pos (by bv_omega), BitVec.sub_self, BitVec.add_zero]
    · rw [if_neg ha]
      by_cases hlt : (a - d).toNat < n + 1
      · rw [if_pos hlt, if_pos (by bv_omega), if_neg (by bv_omega)]
      · rw [if_neg hlt, if_neg (by bv_omega)]

theorem copyDown_eq (h : s = d ∨ n ≤ (s - d).toNat) (hn : n < 2 ^ 32) :
    copyDown m (d + .ofNat 32 n) (s + .ofNat 32 n) n = moved m d s n := by
  induction n generalizing m with
  | zero => exact moved_zero.symm
  | succ n ih =>
    have hlast (a : BitVec 32) : a + .ofNat 32 (n + 1) - 1 = a + .ofNat 32 n := by bv_omega
    rw [copyDown, hlast, hlast, ih (h.imp_right Nat.le_of_succ_le) (by omega)]
    funext a
    simp only [moved, update_apply]
    by_cases ha : a = d + .ofNat 32 n
    · have hsub : a - d = .ofNat 32 n := by bv_omega
      rw [if_pos ha, hsub, if_neg (by bv_omega), if_pos (by bv_omega)]
    · rw [if_neg ha]
      by_cases hlt : (a - d).toNat < n
      · rw [if_pos hlt, if_neg (by bv_omega), if_pos (by omega)]
      · rw [if_neg hlt, if_neg (by bv_omega)]

/-- **`memmove` under overlap.**  The bytes at `dst` are those that were at `src`, and no other byte
    changes. -/
theorem memmove_moves (m : BitVec 32 → UInt8) (dst src n : BitVec 32)
    (hdst : dst.toNat + n.toNat ≤ 2 ^ 32) (hsrc : src.toNat + n.toNat ≤ 2 ^ 32) :
    (memmove m dst src n).2 = dst ∧ (∀ i < n, (memmove m dst src n).1 (dst + i) = m (src + i)) ∧
      ∀ a, a < dst ∨ dst.toNat + n.toNat ≤ a.toNat → (memmove m dst src n).1 a = m a := by
  have hmoved : memmove m dst src n = (moved m dst src n.toNat, dst) := by
    unfold memmove
    split
    · rename_i hinside
      have := copyDown_eq (m := m) (d := dst) (s := src) (n := n.toNat) (by bv_omega) n.isLt
      simpa using this
    · rename_i houtside
      have := copyUp_eq (m := m) (d := dst) (s := src) (n := n.toNat) (by bv_omega) (by omega)
      simpa using this
  rw [hmoved]
  refine ⟨rfl, fun i hi => ?_, fun a ha => ?_⟩
  · have hsub : dst + i - dst = i := by grind
    simp only [moved, hsub]
    exact if_pos hi
  · exact if_neg (by bv_omega)

theorem memmove_moves_overlap : (memmove (fun a => .ofNat a.toNat) 1 0 2).1 2 = 1 :=
  (memmove_moves _ 1 0 2 (by decide) (by decide)).2.1 1 (by decide)

end Micro86.Klib
