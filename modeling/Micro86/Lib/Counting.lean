import Micro86.Lib.Update

/-!
# Counting over a table

A table `g : ι → α` and a count `f` of each entry: how the total changes when one entry is replaced.
-/

namespace Micro86

variable {ι α : Type} [DecidableEq ι] {S : Finset ι} {a : ι}

/-- One entry of the table is replaced. -/
theorem sum_update {M : Type} [AddCommMonoid M] (ha : a ∈ S) (g : ι → α) (v : α) (f : α → M) :
    ∑ i ∈ S, f (Function.update g a v i) + f (g a) = ∑ i ∈ S, f (g i) + f v := by
  have hcomp :
      (fun i => f (Function.update g a v i)) = Function.update (fun i => f (g i)) a (f v) := by
    funext i
    by_cases hi : i = a
    · subst hi
      simp
    · simp [hi]
  rw [hcomp, Finset.sum_update_of_mem ha, ← Finset.sum_sdiff (Finset.singleton_subset_iff.mpr ha),
    Finset.sum_singleton]
  ac_rfl

omit [DecidableEq ι] in
theorem le_sum (ha : a ∈ S) (f : ι → Nat) : f a ≤ ∑ i ∈ S, f i :=
  Finset.single_le_sum (fun _ _ => Nat.zero_le _) ha

end Micro86
