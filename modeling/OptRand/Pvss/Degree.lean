import OptRand.Pvss.Completeness
import Mathlib.Tactic.LinearCombination

/-!
# The degree test is exact

`ensure_degree` combines the elements with the word of the dual code that a random polynomial of
degree `n - d - 2` gives. Values of a polynomial of degree at most `d` pass for every choice. For
all other elements the combination is a linear map of the drawn coefficients that is not `0`, and
as the group has prime order `q`, one choice in `q` passes (`Polynomial.ensureDegree_exact`).
-/

namespace OptRand

open Lib Finset
open scoped Polynomial

namespace Pvss

variable {q : ℕ} [hq : Fact q.Prime] {G : Type} [AddCommGroup G] [Module (Fr q) G]

/-- The elements are the values at `1, …, n` of a polynomial of degree at most `degree` with
coefficients in the group. -/
def ValuesOfDegree (q : ℕ) {G : Type} [AddCommGroup G] [Module (Fr q) G] (evaluations : List G)
    (degree : ℕ) : Prop :=
  ∃ coeffs : ℕ → G, ∀ i < evaluations.length,
    evaluations[i]? = some (∑ k ∈ range (degree + 1), point q i ^ k • coeffs k)

/-- The combination that `ensure_degree` compares with `0`, of the elements `y 0, …, y (n - 1)`
and the `m` drawn coefficients. -/
def dualSum (y : ℕ → G) (n m : ℕ) : (Fin m → Fr q) →ₗ[Fr q] G where
  toFun c := ∑ i ∈ range n, ((∑ k, c k * point q i ^ (k : ℕ)) *
    ∏ j ∈ (range n).erase i, (point q i - point q j)⁻¹) • y i
  map_add' c c' := by
    rw [← sum_add_distrib]
    refine sum_congr rfl fun i _ => ?_
    simp only [Pi.add_apply, add_mul, sum_add_distrib, add_smul]
  map_smul' a c := by
    rw [smul_sum]
    refine sum_congr rfl fun i _ => ?_
    simp only [Pi.smul_apply, smul_eq_mul, mul_assoc, ← mul_sum, mul_smul, RingHom.id_apply]

theorem dualSum_apply (y : ℕ → G) (n m : ℕ) (c : Fin m → Fr q) :
    dualSum y n m c = ∑ i ∈ range n, ((∑ k, c k * point q i ^ (k : ℕ)) *
      ∏ j ∈ (range n).erase i, (point q i - point q j)⁻¹) • y i := rfl

/-- The coefficients of a polynomial as a choice. -/
theorem dualSum_coeff (y : ℕ → G) {n m : ℕ} {c : (Fr q)[X]} (hc : c.natDegree < m) :
    dualSum y n m (fun k => c.coeff k) = ∑ i ∈ range n, (c.eval (point q i) *
      ∏ j ∈ (range n).erase i, (point q i - point q j)⁻¹) • y i := by
  rw [dualSum_apply]
  refine sum_congr rfl fun i _ => ?_
  rw [Polynomial.eval_eq_sum_range' hc,
    Fin.sum_univ_eq_sum_range (fun k => c.coeff k * point q i ^ k) m]

/-- `ensure_degree` tests whether the combination is `0`. -/
theorem Polynomial.ensureDegree_eq_dualSum [DecidableEq G] {evaluations : List G} {degree : ℕ}
    {y : ℕ → G} (hq' : evaluations.length < q) (hlen : degree + 2 ≤ evaluations.length)
    (hy : ∀ i < evaluations.length, evaluations[i]? = some (y i)) (draws : ℕ → Fr q) :
    Polynomial.ensureDegree evaluations degree draws = .ok (decide
      (dualSum y evaluations.length (evaluations.length - degree - 1) (fun k => draws k) = 0)) := by
  have hcount : evaluations.length - degree - 2 + 1 = evaluations.length - degree - 1 := by omega
  have hsum : ∑ i ∈ range evaluations.length,
      ((ofCoeffs (Polynomial.random (evaluations.length - degree - 2) draws).coeffs).eval
          (point q i) *
        ∏ j ∈ (range evaluations.length).erase i, (point q i - point q j)⁻¹) • y i =
      dualSum y evaluations.length (evaluations.length - degree - 1) fun k => draws k := by
    rw [dualSum_apply]
    refine sum_congr rfl fun i _ => ?_
    unfold Polynomial.random
    rw [eval_ofCoeffs_map_range, hcount,
      Fin.sum_univ_eq_sum_range (fun k => draws k * point q i ^ k)]
  rw [Polynomial.ensureDegree_eq hq' hlen hy draws, hsum]

/-- The combination of values of a polynomial of degree at most `degree` is `0`. -/
theorem dualSum_eq_zero {y coeffs : ℕ → G} {n degree : ℕ} (hq' : n < q) (hlen : degree + 2 ≤ n)
    (hy : ∀ i < n, y i = ∑ k ∈ range (degree + 1), point q i ^ k • coeffs k)
    (c : Fin (n - degree - 1) → Fr q) : dualSum y n (n - degree - 1) c = 0 := by
  have hinj := natCast_succ_injOn (F := Fr q) q hq'
  let dual : (Fr q)[X] := ∑ k, Polynomial.C (c k) * Polynomial.X ^ (k : ℕ)
  have hdual : dual.natDegree ≤ n - degree - 2 := by
    refine Polynomial.natDegree_sum_le_of_forall_le _ _ fun k _ => ?_
    refine (Polynomial.natDegree_C_mul_X_pow_le _ _).trans ?_
    have hk := k.isLt
    omega
  have heval : ∀ i, dual.eval (point q i) = ∑ k, c k * point q i ^ (k : ℕ) := by
    intro i
    simp only [dual, Polynomial.eval_finsetSum, Polynomial.eval_mul, Polynomial.eval_C,
      Polynomial.eval_pow, Polynomial.eval_X]
  rw [dualSum_apply]
  calc ∑ i ∈ range n, ((∑ k, c k * point q i ^ (k : ℕ)) *
        ∏ j ∈ (range n).erase i, (point q i - point q j)⁻¹) • y i
      = ∑ i ∈ range n, ∑ k ∈ range (degree + 1), (dual.eval (point q i) *
          ∏ j ∈ (range n).erase i, (point q i - point q j)⁻¹) •
            (Polynomial.X ^ k : (Fr q)[X]).eval (point q i) • coeffs k := by
        refine sum_congr rfl fun i hi => ?_
        rw [hy i (mem_range.mp hi), ← heval, smul_sum]
        simp only [Polynomial.eval_pow, Polynomial.eval_X]
    _ = ∑ k ∈ range (degree + 1), ∑ i ∈ range n, (dual.eval (point q i) *
          ∏ j ∈ (range n).erase i, (point q i - point q j)⁻¹) •
            (Polynomial.X ^ k : (Fr q)[X]).eval (point q i) • coeffs k := sum_comm
    _ = 0 := by
        refine sum_eq_zero fun k hk => sum_dual_smul hinj ?_ (coeffs k)
        have hk' := mem_range.mp hk
        rw [Polynomial.natDegree_X_pow, card_range]
        omega

/-- Elements of a group of order `q` whose combinations are all `0` are values of a polynomial of
degree at most `degree`. -/
theorem exists_coeffs {y : ℕ → G} {n degree : ℕ} (hG : Nat.card G = q) (hq' : n < q)
    (hlen : degree + 2 ≤ n) (hzero : ∀ c : Fin (n - degree - 1) → Fr q, dualSum y n (n - degree - 1) c = 0) :
    ∃ coeffs : ℕ → G, ∀ i < n, y i = ∑ k ∈ range (degree + 1), point q i ^ k • coeffs k := by
  have hinj := natCast_succ_injOn (F := Fr q) q hq'
  -- a generator of the group turns its elements into scalars
  have hfinite : Finite G := Nat.finite_of_card_ne_zero (hG.symm ▸ hq.out.ne_zero)
  have hnontrivial : Nontrivial G :=
    Finite.one_lt_card_iff_nontrivial.mp (hG.symm ▸ hq.out.one_lt)
  obtain ⟨g, hg⟩ := exists_ne (0 : G)
  choose z hz using fun i => exists_smul_eq hG hg (y i)
  let p := Lagrange.interpolate (range n) (point q) z
  have hp : p.degree < #(range n) := Lagrange.degree_interpolate_lt z hinj
  have heval : ∀ i < n, p.eval (point q i) = z i :=
    fun i hi => Lagrange.eval_interpolate_at_node z hinj (mem_range.mpr hi)
  have hdegree : p.natDegree ≤ degree := by
    by_contra hlow
    obtain ⟨c, hc, hne⟩ := exists_sum_dual_ne_zero hinj hp (not_le.mp hlow)
    rw [card_range] at hc
    have hsum := hzero fun k => c.coeff k
    rw [dualSum_coeff y (by omega)] at hsum
    have hscalars : (∑ i ∈ range n, (c.eval (point q i) *
        ∏ j ∈ (range n).erase i, (point q i - point q j)⁻¹) * p.eval (point q i)) • g = 0 := by
      rw [← hsum, sum_smul]
      refine sum_congr rfl fun i hi => ?_
      rw [mul_smul, heval i (mem_range.mp hi), hz]
    exact (smul_eq_zero.mp hscalars).elim hne hg
  refine ⟨fun k => p.coeff k • g, fun i hi => ?_⟩
  rw [← hz i, ← heval i hi, Polynomial.eval_eq_sum_range' (Nat.lt_succ_of_le hdegree), sum_smul]
  refine sum_congr rfl fun k _ => ?_
  rw [smul_smul, mul_comm]

/-- The draws that give the dual polynomial the coefficients `c`. -/
def drawsOf {q m : ℕ} (c : Fin m → Fr q) (k : ℕ) : Fr q := if h : k < m then c ⟨k, h⟩ else 0

omit hq in
theorem drawsOf_val {m : ℕ} (c : Fin m → Fr q) : (fun k : Fin m => drawsOf c k) = c :=
  funext fun k => dif_pos k.isLt

/-- For elements of a group of order `q`, at least `degree + 2` and fewer than `q` of them,
`ensure_degree` returns true for every choice of the dual polynomial if and only if they are the
values of a polynomial of degree at most `degree`; otherwise it does for one choice in `q`. -/
theorem Polynomial.ensureDegree_exact [DecidableEq G] (hG : Nat.card G = q)
    (evaluations : List G) (degree : ℕ) (hq' : evaluations.length < q)
    (hlen : degree + 2 ≤ evaluations.length) :
    ((∀ draws : ℕ → Fr q, Polynomial.ensureDegree evaluations degree draws = .ok true) ↔
      ValuesOfDegree q evaluations degree) ∧
    (¬ ValuesOfDegree q evaluations degree →
      Nat.card {c : Fin (evaluations.length - degree - 1) → Fr q //
          Polynomial.ensureDegree evaluations degree (drawsOf c) = .ok true} * q =
        Nat.card (Fin (evaluations.length - degree - 1) → Fr q)) := by
  let y : ℕ → G := fun i => evaluations.getD i 0
  have hy : ∀ i < evaluations.length, evaluations[i]? = some (y i) := by
    intro i hi
    simp [y, hi]
  have htest := Polynomial.ensureDegree_eq_dualSum hq' hlen hy
  have hpasses : ∀ draws : ℕ → Fr q, Polynomial.ensureDegree evaluations degree draws = .ok true ↔
      dualSum y evaluations.length (evaluations.length - degree - 1) (fun k => draws k) = 0 := by
    intro draws
    rw [htest, Except.ok.injEq, decide_eq_true_iff]
  have hvalues : ValuesOfDegree q evaluations degree ↔ ∃ coeffs : ℕ → G,
      ∀ i < evaluations.length, y i = ∑ k ∈ range (degree + 1), point q i ^ k • coeffs k := by
    refine exists_congr fun coeffs => forall₂_congr fun i hi => ?_
    rw [hy i hi, Option.some_inj]
  have hall : (∀ c : Fin (evaluations.length - degree - 1) → Fr q,
      dualSum y evaluations.length (evaluations.length - degree - 1) c = 0) ↔
        ValuesOfDegree q evaluations degree := by
    rw [hvalues]
    constructor
    · exact exists_coeffs hG hq' hlen
    · rintro ⟨coeffs, hcoeffs⟩
      exact dualSum_eq_zero hq' hlen hcoeffs
  refine ⟨⟨fun h => ?_, fun h draws => ?_⟩, fun hnot => ?_⟩
  · refine hall.mp fun c => ?_
    have hc := (hpasses (drawsOf c)).mp (h (drawsOf c))
    rwa [drawsOf_val] at hc
  · exact (hpasses draws).mpr (hall.mpr h _)
  · obtain ⟨c, hc⟩ := not_forall.mp fun hzero => hnot (hall.mp hzero)
    rw [← card_ker_mul hG _ hc]
    congr 1
    refine Nat.card_congr (Equiv.subtypeEquivRight fun c => ?_)
    rw [hpasses, drawsOf_val]

/-- In the group of order `5`, the test of degree `1` accepts `1`, `2`, `3` always and `1`, `2`, `4`
for one dual polynomial of the five. -/
theorem Polynomial.ensureDegree_exact_five :
    (∀ draws : ℕ → Fr 5, Polynomial.ensureDegree ([1, 2, 3] : List (Fr 5)) 1 draws = .ok true) ∧
    Nat.card {c : Fin 1 → Fr 5 //
      Polynomial.ensureDegree ([1, 2, 4] : List (Fr 5)) 1 (drawsOf c) = .ok true} * 5 =
        Nat.card (Fin 1 → Fr 5) := by
  have hcard : Nat.card (Fr 5) = 5 := Nat.card_zmod 5
  constructor
  · refine (Polynomial.ensureDegree_exact hcard [1, 2, 3] 1 (by decide) (by decide)).1.mpr ?_
    refine ⟨fun k => if k = 0 then 0 else 1, fun i hi => ?_⟩
    match i with
    | 0 | 1 | 2 => decide
  · refine (Polynomial.ensureDegree_exact hcard [1, 2, 4] 1 (by decide) (by decide)).2 ?_
    rintro ⟨coeffs, h⟩
    have h₀ := Option.some.inj (h 0 (by decide))
    have h₁ := Option.some.inj (h 1 (by decide))
    have h₂ := Option.some.inj (h 2 (by decide))
    simp only [point, sum_range_succ, sum_range_zero, smul_eq_mul] at h₀ h₁ h₂
    push_cast at h₀ h₁ h₂
    have hone : (1 : Fr 5) = 0 := by linear_combination h₂ - 2 * h₁ + h₀
    exact one_ne_zero hone

end Pvss

end OptRand
