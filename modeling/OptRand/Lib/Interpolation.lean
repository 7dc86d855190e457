import Mathlib.LinearAlgebra.Lagrange
import Mathlib.Algebra.CharP.Basic
import Mathlib.Algebra.Module.BigOperators

/-!
# Interpolation in the exponent

Lagrange interpolation at `0` and the dual code of the evaluation code, over a field `F`
and with values in an `F`-module: a share of a secret is a module element `p(x) • g`, and
only `F`-linear combinations of shares can be formed.

* `sum_weight_smul`: the weights `∏ m ≠ j, x m / (x m - x j)` recover `p(0) • g` from the
  values `p(x j) • g` at more than `deg p` distinct points.
* `sum_dual_smul`: a vector `c(x i) / ∏ j ≠ i, (x i - x j)` annihilates the values of `p`
  when `deg c + deg p` is below the number of points less one.
* `exists_sum_dual_ne_zero`: these vectors annihilate no other values.
-/

namespace OptRand.Lib

open Finset Polynomial

variable {F G ι : Type*} [Field F] [AddCommGroup G] [Module F G] [DecidableEq ι]

/-- The weight of the `j`-th value in the interpolation at `0`. -/
def weightAtZero (s : Finset ι) (x : ι → F) (j : ι) : F :=
  ∏ m ∈ s.erase j, x m * (x m - x j)⁻¹

theorem weightAtZero_eq_eval_basis (s : Finset ι) (x : ι → F) (j : ι) :
    weightAtZero s x j = (Lagrange.basis s x j).eval 0 := by
  unfold weightAtZero Lagrange.basis Lagrange.basisDivisor
  rw [eval_prod]
  refine prod_congr rfl fun m _ => ?_
  rw [eval_mul, eval_C, eval_sub, eval_X, eval_C, zero_sub, mul_neg, mul_comm, ← neg_mul,
    ← inv_neg, neg_sub]

/-- Interpolation at `0` of a polynomial of degree below the number of points. -/
theorem sum_weight_mul {s : Finset ι} {x : ι → F} {p : F[X]} (hx : Set.InjOn x s)
    (hp : p.degree < #s) : ∑ j ∈ s, weightAtZero s x j * p.eval (x j) = p.eval 0 := by
  have h := congrArg (eval 0) (Lagrange.eq_interpolate hx hp)
  rw [Lagrange.interpolate_apply, eval_finsetSum] at h
  rw [h]
  refine sum_congr rfl fun j _ => ?_
  rw [eval_mul, eval_C, weightAtZero_eq_eval_basis, mul_comm]

theorem sum_weight_smul {s : Finset ι} {x : ι → F} {p : F[X]} (hx : Set.InjOn x s)
    (hp : p.degree < #s) (g : G) :
    ∑ j ∈ s, weightAtZero s x j • p.eval (x j) • g = p.eval 0 • g := by
  rw [← sum_weight_mul hx hp, sum_smul]
  exact sum_congr rfl fun j _ => (mul_smul _ _ _).symm

theorem degree_lt_succ_of_natDegree_le {p : F[X]} {d : ℕ} (h : p.natDegree ≤ d) :
    p.degree < (d + 1 : ℕ) := by
  refine lt_of_le_of_lt degree_le_natDegree ?_
  exact_mod_cast Nat.lt_succ_of_le h

/-- The words `c(x i) / ∏ j ≠ i, (x i - x j)` are orthogonal to the values of `p`. -/
theorem sum_dual_mul {s : Finset ι} {x : ι → F} {c p : F[X]} (hx : Set.InjOn x s)
    (hd : c.natDegree + p.natDegree + 1 < #s) :
    ∑ i ∈ s, (c.eval (x i) * ∏ j ∈ s.erase i, (x i - x j)⁻¹) * p.eval (x i) = 0 := by
  have hdeg : (c * p).degree < #s := by
    refine lt_of_le_of_lt degree_le_natDegree ?_
    have := natDegree_mul_le (p := c) (q := p)
    exact_mod_cast (by omega : (c * p).natDegree < #s)
  have hzero : (c * p).coeff (#s - 1) = 0 := by
    refine coeff_eq_zero_of_natDegree_lt ?_
    have := natDegree_mul_le (p := c) (q := p)
    omega
  rw [Lagrange.coeff_eq_sum hx hdeg] at hzero
  rw [← hzero]
  refine sum_congr rfl fun i _ => ?_
  rw [eval_mul, prod_inv_distrib, div_eq_mul_inv]
  ring

theorem sum_dual_smul {s : Finset ι} {x : ι → F} {c p : F[X]} (hx : Set.InjOn x s)
    (hd : c.natDegree + p.natDegree + 1 < #s) (g : G) :
    ∑ i ∈ s, (c.eval (x i) * ∏ j ∈ s.erase i, (x i - x j)⁻¹) • p.eval (x i) • g = 0 := by
  rw [← zero_smul F g, ← sum_dual_mul hx hd, sum_smul]
  exact sum_congr rfl fun i _ => (mul_smul _ _ _).symm

/-- No polynomial of degree above `d` is orthogonal to all the words of the dual code. -/
theorem exists_sum_dual_ne_zero {s : Finset ι} {x : ι → F} {p : F[X]} {d : ℕ}
    (hx : Set.InjOn x s) (hp : p.degree < #s) (hd : d < p.natDegree) :
    ∃ c : F[X], c.natDegree + d + 2 ≤ #s ∧
      ∑ i ∈ s, (c.eval (x i) * ∏ j ∈ s.erase i, (x i - x j)⁻¹) * p.eval (x i) ≠ 0 := by
  have hne : p ≠ 0 := by
    rintro rfl
    exact absurd hd (Nat.not_lt_zero d)
  have hlt : p.natDegree < #s := (natDegree_lt_iff_degree_lt hne).mpr hp
  -- the power that lifts the leading coefficient to the last one that the points determine
  refine ⟨X ^ (#s - 1 - p.natDegree), ?_, ?_⟩
  · rw [natDegree_X_pow]
    omega
  · have hdeg : (X ^ (#s - 1 - p.natDegree) * p).natDegree = #s - 1 := by
      rw [natDegree_X_pow_mul _ hne]
      omega
    have hlow : (X ^ (#s - 1 - p.natDegree) * p).degree < (#s : WithBot ℕ) := by
      refine lt_of_le_of_lt degree_le_natDegree ?_
      rw [hdeg]
      exact_mod_cast (by omega : #s - 1 < #s)
    have hcoeff := Lagrange.coeff_eq_sum hx hlow
    have hlead : (X ^ (#s - 1 - p.natDegree) * p).coeff (#s - 1) ≠ 0 := by
      have hmul : X ^ (#s - 1 - p.natDegree) * p ≠ 0 := mul_ne_zero (pow_ne_zero _ X_ne_zero) hne
      have hlast := leadingCoeff_ne_zero.mpr hmul
      rwa [← coeff_natDegree, hdeg] at hlast
    intro hzero
    apply hlead
    rw [hcoeff, ← hzero]
    refine sum_congr rfl fun i _ => ?_
    rw [eval_mul, prod_inv_distrib, div_eq_mul_inv]
    ring

/-! ## The polynomial of a coefficient list -/

/-- The polynomial whose coefficients are listed from that of `X ^ 0` up. -/
noncomputable def ofCoeffs (cs : List F) : F[X] := cs.foldr (fun c p => p * X + C c) 0

theorem eval_ofCoeffs (cs : List F) (x : F) :
    (ofCoeffs cs).eval x = cs.foldr (fun c r => r * x + c) 0 := by
  induction cs with
  | nil => exact eval_zero
  | cons c cs ih =>
    rw [List.foldr_cons, ← ih]
    simp [ofCoeffs]

theorem natDegree_ofCoeffs_le (cs : List F) : (ofCoeffs cs).natDegree ≤ cs.length - 1 := by
  induction cs with
  | nil => simp [ofCoeffs]
  | cons c cs ih =>
    change (ofCoeffs cs * X + C c).natDegree ≤ _
    rw [natDegree_add_C, List.length_cons]
    cases cs with
    | nil => simp [ofCoeffs]
    | cons d ds =>
      have := natDegree_mul_le (p := ofCoeffs (d :: ds)) (q := (X : F[X]))
      rw [natDegree_X] at this
      simp only [List.length_cons] at ih ⊢
      omega

theorem eval_zero_ofCoeffs (c : F) (cs : List F) : (ofCoeffs (c :: cs)).eval 0 = c := by
  rw [eval_ofCoeffs, List.foldr_cons, mul_zero, zero_add]

theorem eval_ofCoeffs_map_range (f : ℕ → F) (m : ℕ) (x : F) :
    (ofCoeffs ((List.range m).map f)).eval x = ∑ k ∈ range m, f k * x ^ k := by
  rw [eval_ofCoeffs]
  induction m generalizing f with
  | zero => rfl
  | succ m ih =>
    rw [List.range_succ_eq_map, List.map_cons, List.foldr_cons, List.map_map, ih, sum_range_succ',
      sum_mul, pow_zero, mul_one]
    congr 1
    refine sum_congr rfl fun k _ => ?_
    rw [Function.comp_apply, pow_succ, mul_assoc]

/-! ## The points `1, 2, …` of a field of large characteristic -/

theorem natCast_succ_injOn (q : ℕ) [CharP F q] {n : ℕ} (hn : n < q) :
    Set.InjOn (fun i : ℕ => ((i + 1 : ℕ) : F)) (range n : Finset ℕ) := by
  intro i hi j hj h
  simp only [coe_range, Set.mem_Iio] at hi hj
  have hs := CharP.natCast_injOn_Iio F q (Set.mem_Iio.mpr (by omega : i + 1 < q))
    (Set.mem_Iio.mpr (by omega : j + 1 < q)) h
  omega

theorem natCast_succ_ne_zero (q : ℕ) [CharP F q] {i : ℕ} (hi : i + 1 < q) :
    ((i + 1 : ℕ) : F) ≠ 0 := by
  rw [Ne, CharP.cast_eq_zero_iff F q]
  exact Nat.not_dvd_of_pos_of_lt (by omega) hi

end OptRand.Lib
