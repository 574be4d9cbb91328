import Micro86.Param
import Micro86.Lib.Exec

/-!
# System-call arguments

A system call finds its arguments in registers.  `argptr`, `fetchint` and `fetchstr` accept buffers,
integers and strings that lie below the size of the process, with sums taken modulo 2^32.

* `args_sound` — what is accepted lies below `sz`, as long as `sz` is no more than 2^31.
-/

namespace Micro86.Sys

def EIO : Int32 := 5
def EINVAL : Int32 := 22

/-- The argument registers of the trap frame. -/
structure Regs where
  ebx : UInt32
  ecx : UInt32
  edx : UInt32
  esi : UInt32
  edi : UInt32
  ebp : UInt32

def argint (regs : Regs) : Nat → Option UInt32
  | 0 => some regs.ebx
  | 1 => some regs.ecx
  | 2 => some regs.edx
  | 3 => some regs.esi
  | 4 => some regs.edi
  | 5 => some regs.ebp
  | _ => none

def argptr (sz : UInt32) (regs : Regs) (n : Nat) (size : Int32) : Option UInt32 :=
  match argint regs n with
  | none => none
  | some i => if size < 0 ∨ i ≥ sz ∨ i + size.toUInt32 > sz then none else some i

def argfd {φ : Type} (ofile : Nat → Option φ) (regs : Regs) (n : Nat) : Option φ :=
  match argint regs n with
  | none => none
  | some i => if i.toInt32 < 0 ∨ i.toInt32.toInt ≥ NOFILE then none else ofile i.toNat

/-- `[p, p + n)` with `n >= 0` lies in `[0, sz)`, as `argptr` means it. -/
def Inside (sz p : UInt32) (n : Int32) : Prop :=
  0 ≤ n.toInt ∧ p.toNat < sz.toNat ∧ p.toNat + n.toInt ≤ sz.toNat
deriving Decidable

theorem toNat_toUInt32_of_nonneg {n : Int32} (h : 0 ≤ n.toInt) :
    n.toUInt32.toNat = n.toInt.toNat := by
  have hlt : n.toUInt32.toNat < 2 ^ 32 := n.toUInt32.toNat_lt
  have hcond : n.toInt = if 2 * n.toUInt32.toNat < 2 ^ 32 then (n.toUInt32.toNat : Int)
      else n.toUInt32.toNat - (2 ^ 32 : Nat) :=
    BitVec.toInt_eq_toNat_cond n.toBitVec
  split at hcond
  · omega
  · omega

theorem argptr_of_inside {sz p : UInt32} {regs : Regs} {k : Nat}
    {n : Int32} (h : argint regs k = some p)
    (hin : Inside sz p n) : argptr sz regs k n = some p := by
  obtain ⟨hn, hp, hsum⟩ := hin
  have hsz := sz.toNat_lt
  have hadd : (p + n.toUInt32).toNat = p.toNat + n.toInt.toNat := by
    rw [UInt32.toNat_add, toNat_toUInt32_of_nonneg hn, Nat.mod_eq_of_lt (by omega)]
  unfold argptr
  rw [h]
  refine if_neg ?_
  rintro (hneg | hge | hgt)
  · rw [Int32.lt_iff_toInt_lt] at hneg
    exact absurd hn (Int.not_le.mpr hneg)
  · rw [ge_iff_le, UInt32.le_iff_toNat_le] at hge
    omega
  · rw [gt_iff_lt, UInt32.lt_iff_toNat_lt, hadd] at hgt
    omega

/-! ## Integers and strings in user memory -/

def fetchint (sz addr : UInt32) : Option (List UInt32) :=
  if addr ≥ sz ∨ addr + 4 > sz then none else some [addr, addr + 1, addr + 2, addr + 3]

/-- The loop of `fetchstr` from `s` on: where it finds a NUL, and the bytes that it reads. -/
def fetchstrLoop (mem : UInt32 → UInt8) (ep : UInt32) : Nat → UInt32 → Option UInt32 × List UInt32
  | 0, _ => (none, [])
  | fuel + 1, s =>
    if s < ep then
      if mem s = 0 then (some s, [s])
      else
        let (r, reads) := fetchstrLoop mem ep fuel (s + 1)
        (r, s :: reads)
    else (none, [])

/-- `fetchstr(addr, &pp)`: the result and the bytes that it reads.  Every round comes closer to
    `sz`, so `sz` rounds suffice. -/
def fetchstr (mem : UInt32 → UInt8) (sz addr : UInt32) : Int32 × List UInt32 :=
  if addr ≥ sz then (-1, [])
  else
    match fetchstrLoop mem sz sz.toNat addr with
    | (some s, reads) => ((s - addr).toInt32, reads)
    | (none, reads) => (-1, reads)

def argstr (mem : UInt32 → UInt8) (sz : UInt32) (regs : Regs) (n : Nat) : Int32 × List UInt32 :=
  match argint regs n with
  | none => (-1, [])
  | some addr => fetchstr mem sz addr

section

variable {mem : UInt32 → UInt8} {sz ep s : UInt32}

/-- The scan from `s` to `ep`: it reads below `ep`, and stops at the first NUL. -/
structure Scanned (mem : UInt32 → UInt8) (ep s : UInt32)
    (r : Option UInt32 × List UInt32) : Prop where
  reads : ∀ a ∈ r.2, a.toNat < ep.toNat
  before : ∀ a : UInt32, s.toNat ≤ a.toNat → a.toNat < (r.1.getD ep).toNat → mem a ≠ 0
  stop : ∀ p, r.1 = some p → s.toNat ≤ p.toNat ∧ p.toNat < ep.toNat ∧ mem p = 0

theorem fetchstrLoop_scanned {fuel : Nat} (hfuel : ep.toNat ≤ s.toNat + fuel) :
    Scanned mem ep s (fetchstrLoop mem ep fuel s) := by
  induction fuel generalizing s with
  | zero =>
    exact ⟨nofun, fun a h h' => absurd h' (by rw [fetchstrLoop, Option.getD_none]; omega), nofun⟩
  | succ fuel ih =>
    unfold fetchstrLoop
    by_cases hs : s < ep
    · rw [if_pos hs]
      rw [UInt32.lt_iff_toNat_lt] at hs
      by_cases hnul : mem s = 0
      · rw [if_pos hnul]
        refine ⟨fun a ha => ?_, fun a h h' => absurd h' (Nat.not_lt.mpr h), fun p hp => ?_⟩
        · rw [List.mem_singleton.mp ha]
          exact hs
        · cases hp
          exact ⟨Nat.le_refl _, hs, hnul⟩
      rw [if_neg hnul]
      have hnext : (s + 1).toNat = s.toNat + 1 := by
        have := ep.toNat_lt
        rw [UInt32.toNat_add, UInt32.toNat_one, Nat.mod_eq_of_lt (by omega)]
      have hrest := ih (s := s + 1) (by omega)
      refine ⟨List.forall_mem_cons.mpr ⟨hs, hrest.reads⟩, fun a h h' => ?_, fun p hp => ?_⟩
      · rcases Nat.eq_or_lt_of_le h with heq | hlt
        · rwa [← UInt32.toNat_inj.mp heq]
        · exact hrest.before a (by omega) h'
      · obtain ⟨hle, hstop⟩ := hrest.stop p hp
        exact ⟨by omega, hstop⟩
    · rw [if_neg hs]
      rw [UInt32.lt_iff_toNat_lt] at hs
      exact ⟨nofun, fun a h h' => absurd h' (by rw [Option.getD_none]; omega), nofun⟩

/-- A string check in a process of size `sz`: it reads below `sz`; a result that is not negative is
    the length of the string, and without one there is no NUL. -/
structure StrOk (mem : UInt32 → UInt8) (sz addr : UInt32) (r : Int32 × List UInt32) : Prop where
  reads : ∀ a ∈ r.2, a.toNat < sz.toNat
  found : 0 ≤ r.1.toInt → addr.toNat + r.1.toInt < sz.toNat ∧ mem (addr + r.1.toUInt32) = 0 ∧
    ∀ j : UInt32, j.toNat < r.1.toInt → mem (addr + j) ≠ 0
  missing : r.1.toInt < 0 → ∀ a : UInt32, addr.toNat ≤ a.toNat → a.toNat < sz.toNat → mem a ≠ 0

theorem fetchstr_ok (hsz : sz.toNat ≤ 2 ^ 31) (addr : UInt32) :
    StrOk mem sz addr (fetchstr mem sz addr) := by
  have hneg : ¬ 0 ≤ (-1 : Int32).toInt := by decide
  unfold fetchstr
  by_cases haddr : addr ≥ sz
  · rw [if_pos haddr]
    rw [ge_iff_le, UInt32.le_iff_toNat_le] at haddr
    exact ⟨nofun, fun h => absurd h hneg, fun _ a h h' => by omega⟩
  rw [if_neg haddr]
  have hscan : Scanned mem sz addr (fetchstrLoop mem sz sz.toNat addr) :=
    fetchstrLoop_scanned (Nat.le_add_left ..)
  generalize fetchstrLoop mem sz sz.toNat addr = r at hscan
  obtain ⟨_ | p, reads⟩ := r
  · exact ⟨hscan.reads, fun h => absurd h hneg, fun _ => hscan.before⟩
  obtain ⟨hle, hlt, hnul⟩ := hscan.stop p rfl
  have hbound := sz.toNat_lt
  have hlen : (p - addr).toNat = p.toNat - addr.toNat :=
    UInt32.toNat_sub_of_le _ _ (UInt32.le_iff_toNat_le.mpr hle)
  have hint : (p - addr).toInt32.toInt = p.toNat - addr.toNat := by
    have hcond : (p - addr).toInt32.toInt = if 2 * (p - addr).toNat < 2 ^ 32 then
        ((p - addr).toNat : Int) else (p - addr).toNat - (2 ^ 32 : Nat) :=
      BitVec.toInt_eq_toNat_cond (p - addr).toBitVec
    rw [hlen, if_pos (by omega)] at hcond
    omega
  refine ⟨hscan.reads, fun _ => ⟨?_, ?_, fun j hj => ?_⟩, fun h => ?_⟩
  · rw [hint]
    omega
  · rw [show (p - addr).toInt32.toUInt32 = p - addr from rfl,
      UInt32.add_comm, UInt32.sub_add_cancel]
    exact hnul
  · rw [hint] at hj
    have hsum : (addr + j).toNat = addr.toNat + j.toNat := by
      rw [UInt32.toNat_add, Nat.mod_eq_of_lt (by omega)]
    exact hscan.before _ (by omega) (by show _ < p.toNat; omega)
  · rw [hint] at h
    omega

end

/-- **The checks of system-call arguments.** -/
theorem args_sound (mem : UInt32 → UInt8) (sz : UInt32) (regs : Regs) (hsz : sz.toNat ≤ 2 ^ 31) :
    (∀ n size p, argptr sz regs n size = some p → argint regs n = some p ∧ Inside sz p size) ∧
      (∀ addr reads, fetchint sz addr = some reads → addr.toNat + 4 ≤ sz.toNat ∧
        ∀ a ∈ reads, a.toNat < sz.toNat) ∧
      (∀ addr, StrOk mem sz addr (fetchstr mem sz addr)) ∧
      ∀ n, argstr mem sz regs n = (-1, []) ∨ ∃ addr, argint regs n = some addr ∧
        StrOk mem sz addr (argstr mem sz regs n) := by
  refine ⟨fun n size p h => ?_, fun addr reads h => ?_, fetchstr_ok hsz, fun n => ?_⟩
  · unfold argptr at h
    split at h
    · cases h
    rename_i i hi
    split at h
    · cases h
    rename_i hpass
    cases h
    rw [not_or, not_or, Int32.lt_iff_toInt_lt, ge_iff_le, UInt32.le_iff_toNat_le,
      gt_iff_lt, UInt32.lt_iff_toNat_lt, UInt32.toNat_add] at hpass
    obtain ⟨hnonneg, hlow, hhigh⟩ := hpass
    have hn : 0 ≤ size.toInt := Int.not_lt.mp hnonneg
    have hlt := size.toInt_lt
    rw [toNat_toUInt32_of_nonneg hn] at hhigh
    exact ⟨hi, hn, by omega, by omega⟩
  · unfold fetchint at h
    split at h
    · cases h
    rename_i hpass
    cases h
    rw [not_or, ge_iff_le, UInt32.le_iff_toNat_le, gt_iff_lt,
      UInt32.lt_iff_toNat_lt, UInt32.toNat_add] at hpass
    have hfour : addr.toNat + 4 ≤ sz.toNat := by
      simp at hpass
      omega
    refine ⟨hfour, ?_⟩
    simp
    omega
  · unfold argstr
    split
    · exact .inl rfl
    · rename_i addr haddr
      exact .inr ⟨addr, haddr, fetchstr_ok hsz addr⟩

/-- The string `ls` at `0x1000`. -/
def lsMemory (a : UInt32) : UInt8 :=
  if a = 0x1000 then 108 else if a = 0x1001 then 115 else 0

def lsRegs : Regs := ⟨0x2FF0, 0x1000, 0, 0, 0, 0⟩

theorem args_sound_ls :
    argptr 0x3000 lsRegs 0 16 = some 0x2FF0 ∧ Inside 0x3000 0x2FF0 16 ∧
      argptr 0x3000 lsRegs 0 17 = none ∧
      fetchint 0x3000 0x2FFC = some [0x2FFC, 0x2FFD, 0x2FFE, 0x2FFF] ∧
      (∀ a ∈ ([0x2FFC, 0x2FFD, 0x2FFE, 0x2FFF] : List UInt32), a.toNat < 0x3000) ∧
      argstr lsMemory 0x3000 lsRegs 1 = (2, [0x1000, 0x1001, 0x1002]) ∧
      StrOk lsMemory 0x3000 0x1000 (2, [0x1000, 0x1001, 0x1002]) := by
  obtain ⟨hptr, hint, hstr, -⟩ := args_sound lsMemory 0x3000 lsRegs (by decide)
  have hls : argstr lsMemory 0x3000 lsRegs 1 = (2, [0x1000, 0x1001, 0x1002]) := by
    decide +kernel
  refine ⟨by decide, (hptr 0 16 0x2FF0 (by decide)).2, by decide, rfl, (hint 0x2FFC _ rfl).2,
    hls, ?_⟩
  rw [← hls]
  exact hstr 0x1000

end Micro86.Sys
