/-
# SystemsLabs.Theory.Amounts -- amounts at indices, and the ranges that hold them

A sum of amounts when one of them changes (`sum_update`), and the bound that the place gives where
each amount is the length of a range and the ranges are apart (`sum_length_le`).
-/
import Mathlib.Algebra.BigOperators.Group.Finset.Basic
import Mathlib.Algebra.Order.BigOperators.Group.Finset
import Mathlib.Order.Interval.Finset.Nat

namespace SystemsLabs.Theory.Amounts

set_option autoImplicit false

variable {ι : Type} {s : Finset ι}

theorem sum_update [DecidableEq ι] {i : ι} (member : i ∈ s) (amount : ι → Nat) (n : Nat) :
    amount i ≤ ∑ j ∈ s, amount j ∧
      ∑ j ∈ s, Function.update amount i n j = ∑ j ∈ s, amount j - amount i + n := by
  have before : ∑ j ∈ s, amount j = amount i + ∑ j ∈ s.erase i, amount j := (Finset.add_sum_erase _ amount member).symm
  have after : ∑ j ∈ s, Function.update amount i n j = n + ∑ j ∈ s.erase i, amount j := by
    rw [← Finset.add_sum_erase _ _ member, Function.update_self]
    congr 1
    exact Finset.sum_congr rfl fun j inRest => Function.update_of_ne (Finset.ne_of_mem_erase inRest) ..
  omega

/-- Ranges that are apart in `[lo, hi)` fit there together. -/
theorem sum_length_le (s : Finset ι) (start length : ι → Nat) (lo hi : Nat)
    (inside : ∀ i ∈ s, lo ≤ start i ∧ start i + length i ≤ hi)
    (apart : ∀ i ∈ s, ∀ j ∈ s, i ≠ j → start i + length i ≤ start j ∨ start j + length j ≤ start i) :
    ∑ i ∈ s, length i ≤ hi - lo := by
  have disjoint : ∀ i ∈ s, ∀ j ∈ s, i ≠ j →
      Disjoint (Finset.Ico (start i) (start i + length i)) (Finset.Ico (start j) (start j + length j)) := by
    intro i memI j memJ ne
    rw [Finset.disjoint_left]
    intro x inI inJ
    rw [Finset.mem_Ico] at inI inJ
    have := apart i memI j memJ ne
    omega
  have covered : s.biUnion (fun i => Finset.Ico (start i) (start i + length i)) ⊆ Finset.Ico lo hi := by
    intro x inSome
    obtain ⟨i, member, inI⟩ := Finset.mem_biUnion.mp inSome
    rw [Finset.mem_Ico] at inI ⊢
    have := inside i member
    omega
  calc ∑ i ∈ s, length i = ∑ i ∈ s, (Finset.Ico (start i) (start i + length i)).card := by
        simp only [Nat.card_Ico, Nat.add_sub_cancel_left]
    _ = (s.biUnion fun i => Finset.Ico (start i) (start i + length i)).card := (Finset.card_biUnion disjoint).symm
    _ ≤ (Finset.Ico lo hi).card := Finset.card_le_card covered
    _ = hi - lo := Nat.card_Ico lo hi

end SystemsLabs.Theory.Amounts
