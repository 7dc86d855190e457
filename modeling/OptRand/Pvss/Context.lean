import OptRand.Pvss.Dleq

/-!
# The PVSS context (`pvss.hpp`, `Factory.hpp`, `Config.hpp`)

`Context` and its functions: dealing and checking a sharing, combining sharings into an
aggregate and checking it, decrypting, checking a decryption, and reconstructing and
checking a beacon. `Setup.getContext` builds the contexts of all replicas.
-/

namespace OptRand.Pvss

/-- `SyncSystemConfig`. -/
structure SyncSystemConfig where
  numReplicas : ℕ
  numFaults : ℕ
  deriving DecidableEq

/-- `SyncSystemConfig::FromNumReplicas`: the `(n, (n-1)/2)` system. -/
def SyncSystemConfig.fromNumReplicas (numReplicas : ℕ) : SyncSystemConfig :=
  ⟨numReplicas, (numReplicas - 1) / 2⟩

/-- `pvss_sharing_t`. -/
structure PvssSharing (q : ℕ) (G₁ G₂ : Type) where
  encryptions : List G₁
  commitments : List G₂
  dleqProofs : List (DleqDual q G₁ G₂)
  decompPi : DecompositionProof q G₂
  secret : Fr q

/-- `pvss_aggregate_t`. -/
structure PvssAggregate (q : ℕ) (G₁ G₂ : Type) where
  encryptions : List G₁
  commitments : List G₂
  decomposition : List (DecompositionProof q G₂)
  idVec : List ℕ
  deriving DecidableEq

/-- `beacon_t`. -/
structure Beacon (G₁ GT : Type) where
  recon : G₁
  beacon : GT
  deriving DecidableEq

/-- The random draws of `create_sharing`: the coefficients of the polynomial, the nonces of
the `n` proofs and that of the decomposition proof. -/
structure SharingDraws (q : ℕ) where
  poly : ℕ → Fr q
  nonces : ℕ → Fr q
  decomp : Fr q

/-- `Context`. -/
structure Context (q : ℕ) (G₁ G₂ GT : Type) where
  curve : Curve q G₁ G₂ GT
  pkMap : List G₁
  config : SyncSystemConfig
  g1 : G₁
  g2 : G₁
  h1 : G₂
  h2 : G₂
  secretKey : Fr q
  myId : ℕ

namespace Context

variable {q : ℕ} {G₁ G₂ GT : Type} [AddCommGroup G₁] [AddCommGroup G₂]
variable [Module (Fr q) G₁] [Module (Fr q) G₂]

/-- `Context::create_sharing`. -/
def createSharing (ctx : Context q G₁ G₂ GT) (draws : SharingDraws q) :
    Except Error (PvssSharing q G₁ G₂) := do
  let n := ctx.config.numReplicas
  let poly := Polynomial.random ctx.config.numFaults draws.poly
  let evals := (List.range n).map fun i => poly.evaluate ((i + 1 : ℕ) : Fr q)
  let comms ← (List.range n).mapM fun i => do return (← vectorAt evals i) • ctx.h1
  let encs ← (List.range n).mapM fun i => do
    return (← vectorAt evals i) • (← vectorAt ctx.pkMap i)
  let proofs ← (List.range n).mapM fun i => do
    return DleqDual.prove ctx.curve.hashToField ctx.curve.text₁ ctx.curve.text₂
      (← vectorAt ctx.pkMap i) (← vectorAt encs i) ctx.h1 (← vectorAt comms i)
      (← vectorAt evals i) (draws.nonces i)
  let decompProof ← DecompositionProof.generate ctx.curve.hashToField ctx.curve.text₂ ctx.h1
    poly draws.decomp
  return ⟨encs, comms, proofs, decompProof, ← vectorAt poly.coeffs 0⟩

/-- `Context::verify_sharing`; `dual` are the coefficients drawn by `ensure_degree`. -/
def verifySharing [DecidableEq G₁] [DecidableEq G₂] (ctx : Context q G₁ G₂ GT)
    (pvss : PvssSharing q G₁ G₂) (dual : ℕ → Fr q) : Except Error Bool := do
  let n := ctx.config.numReplicas
  if pvss.encryptions.length ≠ n ∨ pvss.commitments.length ≠ n ∨ pvss.dleqProofs.length ≠ n then
    return false
  if !(← Polynomial.ensureDegree pvss.commitments ctx.config.numFaults dual) then return false
  let proofsHold ← (List.range n).allM fun i => do
    return (← vectorAt pvss.dleqProofs i).verify ctx.curve.hashToField ctx.curve.text₁
      ctx.curve.text₂ (← vectorAt ctx.pkMap i) (← vectorAt pvss.encryptions i) ctx.h1
      (← vectorAt pvss.commitments i)
  if !proofsHold then return false
  let point ← Polynomial.lagrangeInterpolation q ctx.config.numFaults pvss.commitments
  if point ≠ pvss.decompPi.gs then return false
  return pvss.decompPi.pi.verify ctx.curve.hashToField ctx.curve.text₂ ctx.h1 point

/-- `Context::aggregate`. -/
def aggregate (_ctx : Context q G₁ G₂ GT) (pvec : List (PvssSharing q G₁ G₂))
    (idVec : List ℕ) : Except Error (PvssAggregate q G₁ G₂) := do
  if pvec.isEmpty then throw .assertion
  if ¬ pvec.length ≤ idVec.length then throw .assertion
  let n := (← vectorAt pvec 0).encryptions.length
  let (encs, comms, decompProofs) ← pvec.foldlM (fun acc pvss => do
    if pvss.commitments.length ≠ n then throw Error.assertion
    if pvss.encryptions.length ≠ n then throw Error.assertion
    if pvss.dleqProofs.length ≠ n then throw Error.assertion
    return (List.zipWith (· + ·) acc.1 pvss.encryptions,
      List.zipWith (· + ·) acc.2.1 pvss.commitments, acc.2.2 ++ [pvss.decompPi]))
    (List.replicate n (0 : G₁), List.replicate n (0 : G₂), [])
  return ⟨encs, comms, decompProofs, idVec⟩

/-- `Context::verify_aggregation`; `dual` are the coefficients drawn by `ensure_degree`. -/
def verifyAggregation [DecidableEq G₂] [DecidableEq GT] (ctx : Context q G₁ G₂ GT)
    (agg : PvssAggregate q G₁ G₂) (dual : ℕ → Fr q) : Except Error Bool := do
  let n := ctx.config.numReplicas
  if agg.encryptions.length ≠ n ∨ agg.commitments.length ≠ n ∨
      agg.decomposition.length ≠ agg.idVec.length ∨ agg.idVec.length < ctx.config.numFaults then
    return false
  if !(← Polynomial.ensureDegree agg.commitments ctx.config.numFaults dual) then return false
  -- e(pk, com i) = e(enc, h1)
  let pairingsHold ← (List.range n).allM fun i => do
    return decide (ctx.curve.reducedPairing (← vectorAt ctx.pkMap i)
        (← vectorAt agg.commitments i) =
      ctx.curve.reducedPairing (← vectorAt agg.encryptions i) ctx.h1)
  if !pairingsHold then return false
  let point ← Polynomial.lagrangeInterpolation q ctx.config.numFaults agg.commitments
  if !agg.decomposition.all (fun dec =>
      dec.pi.verify ctx.curve.hashToField ctx.curve.text₂ ctx.h1 dec.gs) then return false
  let gsProd := agg.decomposition.foldl (fun gs dec => gs + dec.gs) 0
  return decide (gsProd = point)

/-- `Context::decrypt`, with the nonce `r` of its proof. -/
def decrypt (ctx : Context q G₁ G₂ GT) (agg : PvssAggregate q G₁ G₂) (r : Fr q) :
    Except Error (Decryption q G₁) := do
  Decryption.generate ctx.curve.hashToField ctx.curve.text₁
    (← vectorAt agg.encryptions ctx.myId) ctx.secretKey ctx.myId r

/-- `Context::verify_decryption`. -/
def verifyDecryption [DecidableEq G₁] (ctx : Context q G₁ G₂ GT) (agg : PvssAggregate q G₁ G₂)
    (dec : Decryption q G₁) : Except Error Bool := do
  return dec.verify ctx.curve.hashToField ctx.curve.text₁ (← vectorAt agg.encryptions dec.origin)

/-- `Context::reconstruct`. -/
def reconstruct (ctx : Context q G₁ G₂ GT) (recon : List (Decryption q G₁)) :
    Except Error (Beacon G₁ GT) := do
  if ¬ recon.length > ctx.config.numFaults then throw .assertion
  let points := recon.map fun dec => ((dec.origin + 1 : ℕ) : Fr q)
  let evals := recon.map fun dec => dec.dec
  let point ← lagrangeInterpolation ctx.config.numFaults evals points
  return ⟨point, ctx.curve.pairing point ctx.h2⟩

/-- `Context::verify_beacon`. -/
def verifyBeacon [DecidableEq GT] (ctx : Context q G₁ G₂ GT) (agg : PvssAggregate q G₁ G₂)
    (beacon : Beacon G₁ GT) : Bool :=
  let gs := agg.decomposition.foldl (fun gs decomp => gs + decomp.gs) 0
  if ctx.curve.reducedPairing ctx.g1 gs ≠ ctx.curve.reducedPairing beacon.recon ctx.h1 then
    false
  else decide (ctx.curve.pairing beacon.recon ctx.h2 = beacon.beacon)

end Context

/-- What `Factory::getContext` draws for a system of `numReplicas` replicas: the generators
and the secret keys. -/
structure Setup (q : ℕ) (G₁ G₂ GT : Type) where
  curve : Curve q G₁ G₂ GT
  numReplicas : ℕ
  g1 : G₁
  g2 : G₁
  h1 : G₂
  h2 : G₂
  secretKeys : ℕ → Fr q

namespace Setup

variable {q : ℕ} {G₁ G₂ GT : Type} [AddCommGroup G₁] [Module (Fr q) G₁]

/-- The public key of replica `i`. -/
def publicKey (S : Setup q G₁ G₂ GT) (i : ℕ) : G₁ := S.secretKeys i • S.g1

/-- The number of faults of the default configuration. -/
def numFaults (S : Setup q G₁ G₂ GT) : ℕ := (S.numReplicas - 1) / 2

/-- The context of replica `i`. -/
def context (S : Setup q G₁ G₂ GT) (i : ℕ) : Context q G₁ G₂ GT where
  curve := S.curve
  pkMap := (List.range S.numReplicas).map S.publicKey
  config := SyncSystemConfig.fromNumReplicas S.numReplicas
  g1 := S.g1
  g2 := S.g2
  h1 := S.h1
  h2 := S.h2
  secretKey := S.secretKeys i
  myId := i

/-- `Factory::getContext`. -/
def getContext (S : Setup q G₁ G₂ GT) : List (Context q G₁ G₂ GT) :=
  (List.range S.numReplicas).map S.context

theorem mem_getContext {S : Setup q G₁ G₂ GT} {ctx : Context q G₁ G₂ GT} :
    ctx ∈ S.getContext ↔ ∃ i < S.numReplicas, S.context i = ctx := by
  simp [getContext]

/-- The part of a context that is the same at every replica. -/
structure Public (S : Setup q G₁ G₂ GT) (ctx : Context q G₁ G₂ GT) : Prop where
  curve : ctx.curve = S.curve
  pkMap : ctx.pkMap = (List.range S.numReplicas).map S.publicKey
  numReplicas : ctx.config.numReplicas = S.numReplicas
  numFaults : ctx.config.numFaults = S.numFaults
  g1 : ctx.g1 = S.g1
  h1 : ctx.h1 = S.h1
  h2 : ctx.h2 = S.h2

theorem public_context (S : Setup q G₁ G₂ GT) (i : ℕ) : S.Public (S.context i) :=
  ⟨rfl, rfl, rfl, rfl, rfl, rfl, rfl⟩

end Setup

end OptRand.Pvss
