import Micro86.Mm.Copyout

/-!
# Trap frames

A trap from user mode leaves the registers at the top of the kernel stack, and returning from the
trap loads them from there: the code segment with its privilege level, the flags, the stack.
-/

namespace Micro86.Signal

open Mm

def TFSIZE : Nat := 76

namespace Offset

def eax : Nat := 28
def eip : Nat := 56
def cs : Nat := 60
def eflags : Nat := 64
def esp : Nat := 68
def ss : Nat := 72

end Offset

/-- Interrupt flag, bit 9 of `eflags`. -/
def FL_IF : Nat := 0x200

abbrev Frame := Nat → UInt8

/-- Privilege 3 in `cs` and `ss`, interrupts on, I/O privilege 0. -/
structure UserMode (tf : Frame) : Prop where
  cs : word tf Offset.cs % 4 = 3
  ss : word tf Offset.ss % 4 = 3
  intr : word tf Offset.eflags / FL_IF % 2 = 1
  iopl : word tf Offset.eflags / 2 ^ 12 % 4 = 0

instance (tf : Frame) : Decidable (UserMode tf) :=
  decidable_of_iff (word tf Offset.cs % 4 = 3 ∧ word tf Offset.ss % 4 = 3 ∧
    word tf Offset.eflags / FL_IF % 2 = 1 ∧
      word tf Offset.eflags / 2 ^ 12 % 4 = 0)
    ⟨fun ⟨h1, h2, h3, h4⟩ => ⟨h1, h2, h3, h4⟩, fun h => ⟨h.cs, h.ss, h.intr, h.iopl⟩⟩

/-- The bytes of `cs`, `eflags` and `ss`. -/
def Guarded (i : Nat) : Prop := Offset.cs ≤ i ∧ i < Offset.esp ∨ Offset.ss ≤ i ∧ i < TFSIZE

def byteOf (w : UInt32) (i : Nat) : UInt8 := UInt8.ofNat (w.toNat / 2 ^ (8 * i))

def putWord (mem : Nat → UInt8) (x : Nat) (w : UInt32) : Nat → UInt8 := fun y =>
  if x ≤ y ∧ y < x + 4 then byteOf w (y - x) else mem y

theorem word_congr {mem mem' : Nat → UInt8} {x : Nat} (h : ∀ i < 4, mem (x + i) = mem' (x + i)) :
    word mem x = word mem' x := by
  have h0 := h 0 (by decide)
  unfold word
  rw [h 1 (by decide), h 2 (by decide), h 3 (by decide), show mem x = mem' x from h0]

theorem UserMode.congr {tf tf' : Frame} (h : UserMode tf) (heq : ∀ i, Guarded i → tf' i = tf i) :
    UserMode tf' := by
  have hcs : word tf' Offset.cs = word tf Offset.cs :=
    word_congr fun i hi => heq _ (.inl ⟨by omega, by unfold Offset.cs Offset.esp; omega⟩)
  have hfl : word tf' Offset.eflags = word tf Offset.eflags :=
    word_congr fun i hi => heq
      _ (.inl ⟨by unfold Offset.cs Offset.eflags; omega, by unfold Offset.eflags Offset.esp; omega⟩)
  have hss : word tf' Offset.ss = word tf Offset.ss :=
    word_congr fun i hi => heq _ (.inr ⟨by omega, by unfold Offset.ss TFSIZE; omega⟩)
  exact ⟨hcs ▸ h.cs, hss ▸ h.ss, hfl ▸ h.intr, hfl ▸ h.iopl⟩

theorem putWord_of_not {mem : Nat → UInt8} {x y : Nat} (w : UInt32) (h : ¬ (x ≤ y ∧ y < x + 4)) :
    putWord mem x w y = mem y :=
  if_neg h

end Micro86.Signal
