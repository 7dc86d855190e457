import OptRand.Pvss.PolyOps
import OptRand.Lib.Pairing

/-!
# Discrete logarithm proofs (`Dleq.hpp`, `DecompProof.hpp`, `Decryption.hpp`)

The Fiat-Shamir proofs of the library: `DleqDual` for one exponent over two groups, `Dleq`
for one group, and the two objects built from `Dleq`, the decomposition proof of a sharing
and the decryption of an aggregate. The challenge is `hashToField` of the printed elements,
for an arbitrary function `hashToField`; a nonce is an argument.

A proof made with the witness `x` of its statement is accepted (`Dleq.verify_prove`,
`DleqDual.verify_prove`). For a `DleqDual` statement with two different exponents a commitment
has a response to one challenge only (`DleqDual.admits_iff`).
-/

namespace OptRand.Pvss

open OptRand.Lib

/-- What the library takes from the curve: the pairing before and after the final
exponentiation, how elements are printed, and `hashToField`. -/
structure Curve (q : ℕ) (G₁ G₂ GT : Type) where
  pairing : G₁ → G₂ → GT
  finalExponentiation : GT → GT
  text₁ : G₁ → String
  text₂ : G₂ → String
  hashToField : String → Fr q

/-- `reduced_pairing`. -/
def Curve.reducedPairing {q : ℕ} {G₁ G₂ GT : Type} (E : Curve q G₁ G₂ GT) (P : G₁) (Q : G₂) :
    GT :=
  E.finalExponentiation (E.pairing P Q)

/-- The reduced pairing is bilinear. -/
def Curve.Bilinear {q : ℕ} {G₁ G₂ GT : Type} [AddCommGroup G₁] [AddCommGroup G₂]
    [AddCommGroup GT] [Module (Fr q) G₁] [Module (Fr q) G₂] [Module (Fr q) GT]
    (E : Curve q G₁ G₂ GT) : Prop :=
  ∃ e : G₁ →ₗ[Fr q] G₂ →ₗ[Fr q] GT, ∀ P Q, E.reducedPairing P Q = e P Q

/-- The setting of the security results: groups of order `q` and a reduced pairing that is
bilinear and not trivial. -/
structure Curve.PrimeOrder {q : ℕ} {G₁ G₂ GT : Type} [AddCommGroup G₁] [AddCommGroup G₂]
    [AddCommGroup GT] [Module (Fr q) G₁] [Module (Fr q) G₂] [Module (Fr q) GT]
    (E : Curve q G₁ G₂ GT) : Prop where
  card₁ : Nat.card G₁ = q
  card₂ : Nat.card G₂ = q
  bilinear : E.Bilinear
  nondegenerate : ∃ P Q, E.reducedPairing P Q ≠ 0

theorem Curve.Bilinear.smul_smul {q : ℕ} {G₁ G₂ GT : Type} [AddCommGroup G₁] [AddCommGroup G₂]
    [AddCommGroup GT] [Module (Fr q) G₁] [Module (Fr q) G₂] [Module (Fr q) GT]
    {E : Curve q G₁ G₂ GT} (hE : E.Bilinear) (a b : Fr q) (P : G₁) (Q : G₂) :
    E.reducedPairing (a • P) (b • Q) = (a * b) • E.reducedPairing P Q := by
  obtain ⟨e, he⟩ := hE
  rw [he, he, map_smul, map_smul, LinearMap.smul_apply, ← mul_smul, mul_comm]

/-- Two elements with one pairing against a non-zero element are equal. -/
theorem Curve.PrimeOrder.left_inj {q : ℕ} [Fact q.Prime] {G₁ G₂ GT : Type} [AddCommGroup G₁]
    [AddCommGroup G₂] [AddCommGroup GT] [Module (Fr q) G₁] [Module (Fr q) G₂]
    [Module (Fr q) GT] {E : Curve q G₁ G₂ GT} (hE : E.PrimeOrder) {P P' : G₁} {Q : G₂}
    (hQ : Q ≠ 0) (h : E.reducedPairing P Q = E.reducedPairing P' Q) : P = P' := by
  obtain ⟨e, he⟩ := hE.bilinear
  obtain ⟨P₀, Q₀, hne⟩ := hE.nondegenerate
  rw [he, he] at h
  exact eq_of_pairing_eq e hE.card₁ hE.card₂ ⟨P₀, Q₀, by rwa [← he]⟩ hQ h

/-! ## One exponent over two groups -/

section DleqDual

variable {q : ℕ} {Ga Gb : Type} [AddCommGroup Ga] [AddCommGroup Gb]
variable [Module (Fr q) Ga] [Module (Fr q) Gb]

/-- `DleqDual`. -/
structure DleqDual (q : ℕ) (Ga Gb : Type) where
  gra : Ga
  grb : Gb
  pi : Fr q

/-- The challenge `c` of `DleqDual`. -/
def DleqDual.challenge (hashToField : String → Fr q) (textA : Ga → String)
    (textB : Gb → String) (g gx : Ga) (h hx : Gb) (gra : Ga) (grb : Gb) : Fr q :=
  hashToField (textA g ++ "\n" ++ textA gx ++ "\n" ++ textB h ++ "\n" ++ textB hx ++ "\n" ++
    textA gra ++ "\n" ++ textB grb ++ "\n")

/-- `DleqDual::verify`. -/
def DleqDual.verify [DecidableEq Ga] [DecidableEq Gb] (hashToField : String → Fr q)
    (textA : Ga → String) (textB : Gb → String) (self : DleqDual q Ga Gb) (g gx : Ga)
    (h hx : Gb) : Bool :=
  let c := DleqDual.challenge hashToField textA textB g gx h hx self.gra self.grb
  if self.pi • g ≠ self.gra + c • gx then false
  else decide (self.pi • h = self.grb + c • hx)

/-- `DleqDual::Prove`, with the nonce `r`. -/
def DleqDual.prove (hashToField : String → Fr q) (textA : Ga → String) (textB : Gb → String)
    (g gx : Ga) (h hx : Gb) (x r : Fr q) : DleqDual q Ga Gb :=
  let gra := r • g
  let grb := r • h
  let c := DleqDual.challenge hashToField textA textB g gx h hx gra grb
  ⟨gra, grb, r + x * c⟩

theorem response_eq {G : Type} [AddCommGroup G] [Module (Fr q) G] (g : G) (x r c : Fr q) :
    (r + x * c) • g = r • g + c • x • g := by
  rw [add_smul, mul_comm, mul_smul]

theorem DleqDual.verify_prove [DecidableEq Ga] [DecidableEq Gb] (hashToField : String → Fr q)
    (textA : Ga → String) (textB : Gb → String) (g : Ga) (h : Gb) (x r : Fr q) :
    (DleqDual.prove hashToField textA textB g (x • g) h (x • h) x r).verify hashToField textA
      textB g (x • g) h (x • h) = true := by
  unfold DleqDual.verify DleqDual.prove
  simp only
  rw [response_eq, if_neg (by simp), response_eq]
  exact decide_eq_true rfl

/-- Some response satisfies both equations of `DleqDual::verify` for the challenge `c`. -/
def DleqDual.Admits (g gx : Ga) (h hx : Gb) (gra : Ga) (grb : Gb) (c : Fr q) : Prop :=
  ∃ pi : Fr q, pi • g = gra + c • gx ∧ pi • h = grb + c • hx

theorem DleqDual.admits_of_verify [DecidableEq Ga] [DecidableEq Gb] {hashToField : String → Fr q}
    {textA : Ga → String} {textB : Gb → String} {self : DleqDual q Ga Gb} {g gx : Ga} {h hx : Gb}
    (hv : self.verify hashToField textA textB g gx h hx = true) :
    DleqDual.Admits g gx h hx self.gra self.grb
      (DleqDual.challenge hashToField textA textB g gx h hx self.gra self.grb) := by
  unfold DleqDual.verify at hv
  dsimp only at hv
  split at hv
  · cases hv
  · rename_i hleft
    exact ⟨self.pi, not_not.mp hleft, of_decide_eq_true hv⟩

/-- The challenges that have a response solve one linear equation in the exponents. -/
theorem DleqDual.admits_iff [Fact q.Prime] {g : Ga} {h : Gb} (hg : g ≠ 0) (hh : h ≠ 0)
    (x₁ x₂ a b c : Fr q) :
    DleqDual.Admits g (x₁ • g) h (x₂ • h) (a • g) (b • h) c ↔ c * (x₁ - x₂) = b - a := by
  have hleft : ∀ pi : Fr q, pi • g = a • g + c • x₁ • g ↔ pi = a + x₁ * c := by
    intro pi
    rw [← response_eq]
    exact (smul_left_injective (Fr q) hg).eq_iff
  have hright : ∀ pi : Fr q, pi • h = b • h + c • x₂ • h ↔ pi = b + x₂ * c := by
    intro pi
    rw [← response_eq]
    exact (smul_left_injective (Fr q) hh).eq_iff
  unfold DleqDual.Admits
  simp only [hleft, hright, exists_eq_left]
  rw [mul_sub, sub_eq_sub_iff_add_eq_add, mul_comm c, mul_comm c, add_comm a]

end DleqDual

/-! ## One group -/

section Dleq

variable {q : ℕ} {G : Type} [AddCommGroup G] [Module (Fr q) G]

/-- `Dleq`. -/
structure Dleq (q : ℕ) (G : Type) where
  gr : G
  pi : Fr q
  deriving DecidableEq

/-- The challenge `c` of `Dleq`. -/
def Dleq.challenge (hashToField : String → Fr q) (text : G → String) (g gx gr : G) : Fr q :=
  hashToField (text g ++ "\n" ++ text gx ++ "\n" ++ text gr ++ "\n")

/-- `Dleq::verify`. -/
def Dleq.verify [DecidableEq G] (hashToField : String → Fr q) (text : G → String)
    (self : Dleq q G) (g gx : G) : Bool :=
  let c := Dleq.challenge hashToField text g gx self.gr
  decide (self.pi • g = self.gr + c • gx)

/-- `Dleq::Prove`, with the nonce `r`. -/
def Dleq.prove (hashToField : String → Fr q) (text : G → String) (g gx : G) (x r : Fr q) :
    Dleq q G :=
  let gr := r • g
  let c := Dleq.challenge hashToField text g gx gr
  ⟨gr, r + x * c⟩

theorem Dleq.verify_prove [DecidableEq G] (hashToField : String → Fr q) (text : G → String)
    (g : G) (x r : Fr q) :
    (Dleq.prove hashToField text g (x • g) x r).verify hashToField text g (x • g) = true := by
  unfold Dleq.verify Dleq.prove
  simp only
  rw [response_eq]
  exact decide_eq_true rfl

/-- `DecompositionProof`. -/
structure DecompositionProof (q : ℕ) (G : Type) where
  pi : Dleq q G
  gs : G
  deriving DecidableEq

/-- `DecompositionProof::generate`, with the nonce `r`. -/
def DecompositionProof.generate (hashToField : String → Fr q) (text : G → String)
    (generator : G) (poly : Polynomial q) (r : Fr q) :
    Except Error (DecompositionProof q G) := do
  let secret ← poly.getSecret
  let gs := secret • generator
  return ⟨Dleq.prove hashToField text generator gs secret r, gs⟩

/-- `decryption_t`; `origin` is the index in the `pk_map`. -/
structure Decryption (q : ℕ) (G : Type) where
  dec : G
  pi : Dleq q G
  origin : ℕ

/-- `decryption_t::generate`, with the nonce `r`. -/
def Decryption.generate (hashToField : String → Fr q) (text : G → String) (enc : G)
    (sk : Fr q) (myId : ℕ) (r : Fr q) : Except Error (Decryption q G) := do
  let dec := (← inverse sk) • enc
  return ⟨dec, Dleq.prove hashToField text dec enc sk r, myId⟩

/-- `decryption_t::verify`. -/
def Decryption.verify [DecidableEq G] (hashToField : String → Fr q) (text : G → String)
    (self : Decryption q G) (enc : G) : Bool :=
  self.pi.verify hashToField text self.dec enc

end Dleq

end OptRand.Pvss
