import OptRand.Lib.Checked
import OptRand.Lib.Interpolation
import Mathlib.Algebra.Field.ZMod

/-!
# Polynomials over `Fr` (`PolyOps.hpp`)

The polynomial operations of the PVSS library: evaluation by Horner's rule, Lagrange
interpolation at `0` from `degree + 1` group elements, and the test that a vector of group
elements lies on a polynomial of bounded degree. Random draws are arguments: a program that
draws field elements takes the stream of its draws.

Each loop is reduced to a closed form when the points are distinct field elements
(`lagrangeInterpolation_eq`, `ensureDegree_eq`), and from there to the algebra of
`OptRand.Lib.Interpolation`.
-/

namespace OptRand

open Lib Finset
open scoped Polynomial

namespace Pvss

/-- What stops a computation of the library. -/
inductive Error
  /-- `std::out_of_range`, raised by `vector::at` -/
  | outOfRange
  /-- a failed `assert` -/
  | assertion
  /-- a vector that cannot be allocated -/
  | badAlloc
  | runtimeError (what : String)
  deriving DecidableEq, Repr

/-- The field "in the exponent", of prime order `q`. -/
abbrev Fr (q : ℕ) := ZMod q

/-- `vector::at`. -/
def vectorAt {α : Type} (xs : List α) (i : ℕ) : Except Error α :=
  match xs[i]? with
  | some a => .ok a
  | none => .error .outOfRange

@[simp] theorem vectorAt_map_range {α : Type} (f : ℕ → α) {n i : ℕ} (h : i < n) :
    vectorAt ((List.range n).map f) i = .ok (f i) := by
  simp [vectorAt, h]

theorem vectorAt_ok {α : Type} {xs : List α} {i : ℕ} {a : α} (h : xs[i]? = some a) :
    vectorAt xs i = .ok a := by
  rw [vectorAt, h]

/-- `Fp_model::inverse`, which asserts that its argument is not zero. -/
def inverse {q : ℕ} (x : Fr q) : Except Error (Fr q) :=
  if x = 0 then .error .assertion else .ok x⁻¹

theorem inverse_ok {q : ℕ} {x : Fr q} (h : x ≠ 0) : inverse x = .ok x⁻¹ := if_neg h

/-- `Polynomial`: the coefficients, that of `x^0` first. -/
structure Polynomial (q : ℕ) where
  coeffs : List (Fr q)

namespace Polynomial

variable {q : ℕ}

/-- `Polynomial::Random`: `degree + 1` drawn coefficients. -/
def random (degree : ℕ) (draws : ℕ → Fr q) : Polynomial q :=
  ⟨(List.range (degree + 1)).map draws⟩

/-- `Polynomial::evaluate`, Horner's rule from the highest coefficient down. -/
def evaluate (p : Polynomial q) (point : Fr q) : Fr q :=
  p.coeffs.foldr (fun c result => result * point + c) 0

/-- `Polynomial::get_secret`. -/
def getSecret (p : Polynomial q) : Except Error (Fr q) := vectorAt p.coeffs 0

end Polynomial

section Group

variable {q : ℕ} {G : Type} [AddCommGroup G] [Module (Fr q) G]

/-- The factor `prod` of `lagrange_interpolation` for the `j`-th of the points `x`. -/
def lagrangeProd (degree : ℕ) (x : ℕ → Except Error (Fr q)) (j : ℕ) :
    Except Error (Fr q) := do
  let xj ← x j
  (List.range (degree + 1)).foldlM (fun prod m => do
    if m = j then return prod
    let xm ← x m
    return xm * (← inverse (xm - xj)) * prod) 1

/-- The body shared by the two `lagrange_interpolation` functions. -/
def lagrangeSum (degree : ℕ) (evals : List G) (x : ℕ → Except Error (Fr q)) :
    Except Error G := do
  if evals.length < degree + 1 then throw (.runtimeError "insufficient evaluations")
  (List.range (degree + 1)).foldlM (fun sum j => do
    let prod ← lagrangeProd degree x j
    return sum + prod • (← vectorAt evals j)) 0

/-- The free function `lagrange_interpolation`, at given points. -/
def lagrangeInterpolation (degree : ℕ) (evals : List G) (points : List (Fr q)) :
    Except Error G :=
  lagrangeSum degree evals (vectorAt points)

/-- `Polynomial::lagrange_interpolation`, at the points `1, 2, …`. -/
def Polynomial.lagrangeInterpolation (q : ℕ) {G : Type} [AddCommGroup G] [Module (Fr q) G]
    (degree : ℕ) (evaluations : List G) : Except Error G :=
  lagrangeSum degree evaluations fun j => (.ok ((j + 1 : ℕ) : Fr q) : Except Error (Fr q))

/-- `Polynomial::ensure_degree`, with the coefficients drawn for the dual polynomial.
`num - degree - 2` wraps around for fewer than `degree + 2` elements, and `Random` then
cannot allocate its coefficients. -/
def Polynomial.ensureDegree [DecidableEq G] (evaluations : List G) (degree : ℕ) (draws : ℕ → Fr q) :
    Except Error Bool := do
  let num := evaluations.length
  if num < degree then return false
  if num < degree + 2 then throw .badAlloc
  let poly := Polynomial.random (num - degree - 2) draws
  let v ← (List.range num).foldlM (fun v i => do
    let scalarI : Fr q := ((i + 1 : ℕ) : Fr q)
    let cperp ← (List.range num).foldlM (fun cperp j => do
      if j = i then return cperp
      return cperp * (← inverse (scalarI - ((j + 1 : ℕ) : Fr q)))) (poly.evaluate scalarI)
    return v + cperp • (← vectorAt evaluations i)) 0
  return decide (v = 0)

end Group

/-! ## Closed forms of the loops -/

section Specification

variable {q : ℕ} [hq : Fact q.Prime] {G : Type} [AddCommGroup G] [Module (Fr q) G]

theorem Polynomial.evaluate_eq_eval (p : Polynomial q) (point : Fr q) :
    p.evaluate point = (ofCoeffs p.coeffs).eval point := (eval_ofCoeffs _ _).symm

theorem Polynomial.natDegree_random_le (degree : ℕ) (draws : ℕ → Fr q) :
    (ofCoeffs (Polynomial.random degree draws).coeffs).natDegree ≤ degree := by
  refine (natDegree_ofCoeffs_le _).trans ?_
  simp [Polynomial.random]

omit hq in
/-- The secret of a random polynomial is the first of its draws. -/
theorem Polynomial.getSecret_random (degree : ℕ) (draws : ℕ → Fr q) :
    (Polynomial.random degree draws).getSecret = .ok (draws 0) :=
  vectorAt_map_range draws (Nat.succ_pos degree)

theorem Polynomial.eval_zero_random (degree : ℕ) (draws : ℕ → Fr q) :
    (ofCoeffs (Polynomial.random degree draws).coeffs).eval 0 = draws 0 := by
  unfold Polynomial.random
  rw [List.range_succ_eq_map, List.map_cons, eval_zero_ofCoeffs]

/-- At distinct points the factor of a value is its interpolation weight. -/
theorem lagrangeProd_eq {degree : ℕ} {x : ℕ → Except Error (Fr q)} {v : ℕ → Fr q}
    (hx : ∀ i ≤ degree, x i = .ok (v i)) (hv : Set.InjOn v (range (degree + 1) : Finset ℕ))
    {j : ℕ} (hj : j ≤ degree) :
    lagrangeProd degree x j = .ok (weightAtZero (range (degree + 1)) v j) := by
  have hstep : ∀ m ∈ List.range (degree + 1), ∀ prod : Fr q,
      (if m = j then (pure prod : Except Error (Fr q)) else do
        let xm ← x m
        return xm * (← inverse (xm - v j)) * prod) =
      .ok (if m = j then prod else prod * (v m * (v m - v j)⁻¹)) := by
    intro m hm prod
    split
    · rfl
    · rename_i hne
      have hm' := List.mem_range.mp hm
      have hd : v m - v j ≠ 0 := sub_ne_zero.mpr fun h => hne
        (hv (by simpa using hm') (by simpa using Nat.lt_succ_of_le hj) h)
      rw [hx m (Nat.le_of_lt_succ hm'), ok_bind, inverse_ok hd, ok_bind, pure_eq_ok,
        mul_comm]
  unfold lagrangeProd
  rw [hx j hj, ok_bind, foldlM_ok (1 : Fr q) hstep, foldl_mul_range_erase, one_mul]
  rfl

omit hq in
/-- The first factor is not defined when the first two points are equal. -/
theorem lagrangeProd_ne_ok {degree : ℕ} {x : ℕ → Except Error (Fr q)} {a : Fr q}
    (hd : 1 ≤ degree) (h₀ : x 0 = .ok a) (h₁ : x 1 = .ok a) (prod : Fr q) :
    lagrangeProd degree x 0 ≠ .ok prod := by
  obtain ⟨d, rfl⟩ := Nat.exists_eq_add_of_le' hd
  intro h
  unfold lagrangeProd at h
  rw [h₀, ok_bind, List.range_succ_eq_map, List.foldlM_cons, if_pos rfl, pure_eq_ok, ok_bind,
    List.range_succ_eq_map, List.map_cons, List.foldlM_cons, if_neg (by simp), h₁, ok_bind] at h
  obtain ⟨_, hstep, -⟩ := bind_eq_ok.mp h
  obtain ⟨inv, hinv, -⟩ := bind_eq_ok.mp hstep
  unfold inverse at hinv
  rw [if_pos (sub_self a)] at hinv
  cases hinv

theorem lagrangeSum_eq {degree : ℕ} {evals : List G} {y : ℕ → G}
    {x : ℕ → Except Error (Fr q)} {v : ℕ → Fr q} (hlen : degree < evals.length)
    (hy : ∀ i ≤ degree, evals[i]? = some (y i)) (hx : ∀ i ≤ degree, x i = .ok (v i))
    (hv : Set.InjOn v (range (degree + 1) : Finset ℕ)) :
    lagrangeSum degree evals x =
      .ok (∑ j ∈ range (degree + 1), weightAtZero (range (degree + 1)) v j • y j) := by
  have hstep : ∀ j ∈ List.range (degree + 1), ∀ sum : G, (do
      let prod ← lagrangeProd degree x j
      return sum + prod • (← vectorAt evals j)) =
      (.ok (sum + weightAtZero (range (degree + 1)) v j • y j) : Except Error G) := by
    intro j hj sum
    have hj' := Nat.le_of_lt_succ (List.mem_range.mp hj)
    rw [lagrangeProd_eq hx hv hj', ok_bind, vectorAt_ok (hy j hj'), ok_bind, pure_eq_ok]
  unfold lagrangeSum
  rw [if_neg (by omega), foldlM_ok (0 : G) hstep, foldl_add_range, zero_add]

/-- Interpolating more than `deg p` shares `p(x) • g` at distinct points gives `p(0) • g`. -/
theorem lagrangeSum_shares {degree : ℕ} {evals : List G} {x : ℕ → Except Error (Fr q)}
    {v : ℕ → Fr q} {p : (Fr q)[X]} {g : G} (hp : p.natDegree ≤ degree)
    (hlen : degree < evals.length)
    (hy : ∀ i ≤ degree, evals[i]? = some (p.eval (v i) • g))
    (hx : ∀ i ≤ degree, x i = .ok (v i))
    (hv : Set.InjOn v (range (degree + 1) : Finset ℕ)) :
    lagrangeSum degree evals x = .ok (p.eval 0 • g) := by
  rw [lagrangeSum_eq hlen hy hx hv, sum_weight_smul hv]
  rw [card_range]
  exact degree_lt_succ_of_natDegree_le hp

/-- With `num` below the field order the test is one linear combination of the elements. -/
theorem Polynomial.ensureDegree_eq [DecidableEq G] {evaluations : List G} {degree : ℕ}
    {y : ℕ → G} (hq' : evaluations.length < q) (hlen : degree + 2 ≤ evaluations.length)
    (hy : ∀ i < evaluations.length, evaluations[i]? = some (y i)) (draws : ℕ → Fr q) :
    Polynomial.ensureDegree evaluations degree draws =
      .ok (decide (∑ i ∈ range evaluations.length,
        ((ofCoeffs (Polynomial.random (evaluations.length - degree - 2) draws).coeffs).eval
            ((i + 1 : ℕ) : Fr q) *
          ∏ j ∈ (range evaluations.length).erase i,
            (((i + 1 : ℕ) : Fr q) - ((j + 1 : ℕ) : Fr q))⁻¹) • y i = 0)) := by
  have hinj := natCast_succ_injOn (F := Fr q) q hq'
  have hprod : ∀ i < evaluations.length, ∀ a : Fr q,
      (List.range evaluations.length).foldlM (fun cperp j => do
        if j = i then return cperp
        return cperp * (← inverse (((i + 1 : ℕ) : Fr q) - ((j + 1 : ℕ) : Fr q)))) a =
      (.ok (a * ∏ j ∈ (range evaluations.length).erase i,
        (((i + 1 : ℕ) : Fr q) - ((j + 1 : ℕ) : Fr q))⁻¹) : Except Error (Fr q)) := by
    intro i hi a
    rw [foldlM_ok a (g := fun cperp j => if j = i then cperp else
      cperp * (((i + 1 : ℕ) : Fr q) - ((j + 1 : ℕ) : Fr q))⁻¹), foldl_mul_range_erase]
    intro j hj b
    split
    · rfl
    · rename_i hne
      have hd : ((i + 1 : ℕ) : Fr q) - ((j + 1 : ℕ) : Fr q) ≠ 0 := sub_ne_zero.mpr fun h =>
        hne (hinj (by simpa using hi) (by simpa using List.mem_range.mp hj) h).symm
      rw [inverse_ok hd, ok_bind, pure_eq_ok]
  unfold Polynomial.ensureDegree
  simp only
  rw [if_neg (by omega), if_neg (by omega)]
  rw [foldlM_ok (0 : G) (g := fun v i => v +
    ((ofCoeffs (Polynomial.random (evaluations.length - degree - 2) draws).coeffs).eval
        ((i + 1 : ℕ) : Fr q) *
      ∏ j ∈ (range evaluations.length).erase i,
        (((i + 1 : ℕ) : Fr q) - ((j + 1 : ℕ) : Fr q))⁻¹) • y i), foldl_add_range, zero_add]
  · rfl
  · intro i hi v
    have hi' := List.mem_range.mp hi
    rw [hprod i hi', ok_bind, vectorAt_ok (hy i hi'), ok_bind, pure_eq_ok,
      Polynomial.evaluate_eq_eval]

/-- Shares of a polynomial of degree at most `degree` pass the test for every dual
polynomial. -/
theorem Polynomial.ensureDegree_shares [DecidableEq G] {evaluations : List G} {degree : ℕ}
    {p : (Fr q)[X]} {g : G} (hp : p.natDegree ≤ degree) (hq' : evaluations.length < q)
    (hlen : degree + 2 ≤ evaluations.length)
    (hy : ∀ i < evaluations.length,
      evaluations[i]? = some (p.eval ((i + 1 : ℕ) : Fr q) • g)) (draws : ℕ → Fr q) :
    Polynomial.ensureDegree evaluations degree draws = .ok true := by
  rw [Polynomial.ensureDegree_eq hq' hlen hy draws, sum_dual_smul (natCast_succ_injOn q hq')]
  · rw [decide_eq_true rfl]
  · have h₁ := Polynomial.natDegree_random_le (evaluations.length - degree - 2) draws
    rw [card_range]
    omega

end Specification

end Pvss

end OptRand
