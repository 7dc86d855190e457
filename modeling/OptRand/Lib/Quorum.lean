import Mathlib.Data.Finset.Card
import Mathlib.Data.Finset.Range
import Mathlib.Order.Interval.Finset.Nat

/-!
# Quorums

Sets of at least `t` of `n` members. Two of them share at least `2 * t - n` members, and
this bound is attained (`exists_inter_card_eq`), so a system with at most `f` faulty members
has an honest member in the intersection of any two when `n + f < 2 * t`.
-/

namespace OptRand.Lib

open Finset

/-- Two quorums of a set of `n` members share at least `2 * t - n` members. -/
theorem two_mul_le_card_inter_add {n t : ℕ} {A B : Finset ℕ} (hA : A ⊆ range n)
    (hB : B ⊆ range n) (htA : t ≤ #A) (htB : t ≤ #B) : 2 * t ≤ #(A ∩ B) + n := by
  have hunion : #(A ∪ B) ≤ n := by
    rw [← card_range n]
    exact card_le_card (union_subset hA hB)
  have hsum := card_union_add_card_inter A B
  omega

/-- The first and the last `t` of `n` members share as few as possible. -/
theorem card_range_inter_Ico {n t : ℕ} (ht : t ≤ n) :
    #(range t ∩ Ico (n - t) n) = 2 * t - n := by
  have h : range t ∩ Ico (n - t) n = Ico (n - t) t := by
    ext k
    simp only [mem_inter, mem_range, mem_Ico]
    omega
  rw [h, Nat.card_Ico]
  omega

/-- Two quorums of more than `(n + f) / 2` members share one outside any `f` of them. -/
theorem exists_mem_inter_notMem {n f t : ℕ} {A B F : Finset ℕ} (hA : A ⊆ range n)
    (hB : B ⊆ range n) (htA : t ≤ #A) (htB : t ≤ #B) (hF : #F ≤ f) (ht : n + f < 2 * t) :
    ∃ k, k ∈ A ∧ k ∈ B ∧ k ∉ F := by
  have hinter := two_mul_le_card_inter_add hA hB htA htB
  have hlt : #F < #(A ∩ B) := by omega
  obtain ⟨k, hk, hkF⟩ := exists_mem_notMem_of_card_lt_card hlt
  exact ⟨k, (mem_inter.mp hk).1, (mem_inter.mp hk).2, hkF⟩

end OptRand.Lib
