import Mathlib.Algebra.Module.LinearMap.Basic
import Mathlib.Algebra.Module.LinearMap.End
import Mathlib.Algebra.Module.BigOperators
import Mathlib.Algebra.Field.ZMod
import Mathlib.GroupTheory.SpecificGroups.Cyclic.Basic
import Mathlib.LinearAlgebra.BilinearMap

/-!
# Pairings of groups of prime order

Two groups of prime order `q`, written additively, and a bilinear map `e` between them
that is not identically `0`. Then `e P Q = 0` only if `P = 0` or `Q = 0`, so an element is
determined by its pairing with a fixed non-zero element of the other group
(`eq_of_pairing_eq`). A linear map to such a group that is not `0` vanishes on one in `q` of its
arguments (`card_ker_mul`).
-/

namespace OptRand.Lib

variable {q : ℕ} [hq : Fact q.Prime]

section Cyclic

variable {G : Type*} [AddCommGroup G] [Module (ZMod q) G]

/-- A non-zero element of a group of prime order generates it. -/
theorem exists_smul_eq (hcard : Nat.card G = q) {P : G} (hP : P ≠ 0) (R : G) :
    ∃ k : ZMod q, k • P = R := by
  have hR : R ∈ AddSubgroup.zmultiples P := mem_zmultiples_of_prime_card hcard hP
  obtain ⟨m, hm⟩ := AddSubgroup.mem_zmultiples_iff.mp hR
  exact ⟨(m : ZMod q), by rw [Int.cast_smul_eq_zsmul, hm]⟩

/-- A linear map that is not `0` vanishes on one in `q` of its arguments. -/
theorem card_ker_mul {V : Type*} [AddCommGroup V] [Module (ZMod q) V] (hcard : Nat.card G = q)
    (f : V →ₗ[ZMod q] G) {v : V} (hv : f v ≠ 0) : Nat.card {u // f u = 0} * q = Nat.card V := by
  have hsurjective : Function.Surjective f.toAddMonoidHom := by
    intro R
    obtain ⟨k, hk⟩ := exists_smul_eq hcard hv R
    exact ⟨k • v, (map_smul f k v).trans hk⟩
  have hindex : f.toAddMonoidHom.ker.index = q := by
    rw [AddSubgroup.index_ker, AddMonoidHom.range_eq_top.mpr hsurjective, AddSubgroup.card_top,
      hcard]
  have hmul := f.toAddMonoidHom.ker.card_mul_index
  rw [hindex] at hmul
  exact hmul

end Cyclic

variable {G₁ G₂ GT : Type*} [AddCommGroup G₁] [AddCommGroup G₂] [AddCommGroup GT]
variable [Module (ZMod q) G₁] [Module (ZMod q) G₂] [Module (ZMod q) GT]

theorem eq_zero_or_eq_zero_of_pairing (e : G₁ →ₗ[ZMod q] G₂ →ₗ[ZMod q] GT)
    (h₁ : Nat.card G₁ = q) (h₂ : Nat.card G₂ = q) (hne : ∃ P Q, e P Q ≠ 0) {P : G₁} {Q : G₂}
    (h : e P Q = 0) : P = 0 ∨ Q = 0 := by
  by_contra hcon
  obtain ⟨hP, hQ⟩ := not_or.mp hcon
  obtain ⟨P', Q', hne⟩ := hne
  obtain ⟨k, rfl⟩ := exists_smul_eq h₁ hP P'
  obtain ⟨l, rfl⟩ := exists_smul_eq h₂ hQ Q'
  apply hne
  rw [map_smul, map_smul, LinearMap.smul_apply, h, smul_zero, smul_zero]

/-- An element is determined by its pairing with a non-zero element. -/
theorem eq_of_pairing_eq (e : G₁ →ₗ[ZMod q] G₂ →ₗ[ZMod q] GT)
    (h₁ : Nat.card G₁ = q) (h₂ : Nat.card G₂ = q) (hne : ∃ P Q, e P Q ≠ 0) {P P' : G₁} {Q : G₂}
    (hQ : Q ≠ 0) (h : e P Q = e P' Q) : P = P' := by
  have hsub : e (P - P') Q = 0 := by
    rw [map_sub, LinearMap.sub_apply, h, sub_self]
  rcases eq_zero_or_eq_zero_of_pairing e h₁ h₂ hne hsub with hP | hQ'
  · exact sub_eq_zero.mp hP
  · exact absurd hQ' hQ

end OptRand.Lib
