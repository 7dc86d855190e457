import OptRand.Pvss.Completeness

/-!
# What the checks of the PVSS library imply

* An accepted aggregate whose commitments lie on a polynomial of degree at most `f` has one
  beacon: every list of more than `f` true decryptions reconstructs it, and `verify_beacon`
  accepts no other (`Setup.beacon_unique`). It follows from the pairing equations and the
  sum of the decomposition proofs that the verifier checks.
* A decryption share is accepted for every non-zero exponent, not only for the secret key
  of its origin (`Context.verifyDecryption_iff`): the check relates the share to the
  ciphertext and leaves the public key out.
* The identities of an accepted aggregate are only counted, and one too few are enough
  (`Setup.contributors_iff`).
* An encryption and a commitment with different exponents fix the only challenge for which a
  sharing with them is accepted (`Context.challenge_unique`).
-/

namespace OptRand

open Lib Finset
open scoped Polynomial

namespace Pvss

variable {q : ℕ} {G₁ G₂ GT : Type} [AddCommGroup G₁] [AddCommGroup G₂] [AddCommGroup GT]
variable [Module (Fr q) G₁] [Module (Fr q) G₂] [Module (Fr q) GT] [hq : Fact q.Prime]
variable {S : Setup q G₁ G₂ GT} {ctx : Context q G₁ G₂ GT}

/-! ## Accepted aggregates -/

omit hq in
theorem length_of_ensureDegree [DecidableEq G₂] {evaluations : List G₂} {degree : ℕ}
    {dual : ℕ → Fr q} (h : Polynomial.ensureDegree evaluations degree dual = .ok true) :
    degree + 2 ≤ evaluations.length := by
  unfold Polynomial.ensureDegree at h
  by_contra hlt
  by_cases hshort : evaluations.length < degree
  · rw [if_pos hshort] at h
    cases h
  · rw [if_neg hshort, if_pos (by omega)] at h
    cases h

/-- What `verify_aggregation` has checked when it accepts. -/
structure Verified (S : Setup q G₁ G₂ GT) (agg : PvssAggregate q G₁ G₂) : Prop where
  encryptions : agg.encryptions.length = S.numReplicas
  commitments : agg.commitments.length = S.numReplicas
  decomposition : agg.decomposition.length = agg.idVec.length
  ids : S.numFaults ≤ agg.idVec.length
  replicas : S.numFaults + 2 ≤ S.numReplicas
  pairings : ∀ i < S.numReplicas, ∀ enc com, agg.encryptions[i]? = some enc →
    agg.commitments[i]? = some com →
    S.curve.reducedPairing (S.publicKey i) com = S.curve.reducedPairing enc S.h1
  gs : Polynomial.lagrangeInterpolation q S.numFaults agg.commitments =
    .ok (agg.decomposition.map DecompositionProof.gs).sum

omit hq [AddCommGroup GT] [Module (Fr q) GT] in
theorem verified_of_verifyAggregation [DecidableEq G₂] [DecidableEq GT] (hctx : S.Public ctx)
    {agg : PvssAggregate q G₁ G₂} {dual : ℕ → Fr q}
    (h : ctx.verifyAggregation agg dual = .ok true) : Verified S agg := by
  unfold Context.verifyAggregation at h
  simp only [hctx.numReplicas, hctx.numFaults, hctx.pkMap, hctx.h1, hctx.curve] at h
  split at h
  · cases h
  rename_i hsizes
  push Not at hsizes
  obtain ⟨henc, hcom, hdec, hids⟩ := hsizes
  obtain ⟨degreeHolds, hdegree, h⟩ := bind_eq_ok.mp h
  cases degreeHolds with
  | false => cases h
  | true =>
  obtain ⟨pairingsHold, hpairings, h⟩ := bind_eq_ok.mp h
  cases pairingsHold with
  | false => cases h
  | true =>
  obtain ⟨point, hpoint, h⟩ := bind_eq_ok.mp h
  split at h
  · cases h
  have hsum : agg.decomposition.foldl (fun gs dec => gs + dec.gs) 0 = point := by
    simpa [pure_eq_ok] using h
  rw [foldl_add_list, zero_add] at hsum
  refine ⟨henc, hcom, hdec, hids, ?_, ?_, by rw [hsum]; exact hpoint⟩
  · rw [← hcom]
    exact length_of_ensureDegree hdegree
  · intro i hi enc com hat hat'
    have hi' := allM_eq_true.mp hpairings i (List.mem_range.mpr hi)
    rw [vectorAt_map_range _ hi, ok_bind, vectorAt_ok hat', ok_bind, vectorAt_ok hat,
      ok_bind, pure_eq_ok] at hi'
    simpa using hi'

/-- The encryption of replica `i` in an accepted aggregate carries the value of the
commitment polynomial at the point of `i`. -/
theorem Verified.encryption {agg : PvssAggregate q G₁ G₂} (h : Verified S agg)
    (hE : S.curve.PrimeOrder) (hh1 : S.h1 ≠ 0) {p : (Fr q)[X]}
    (hcom : agg.commitments =
      (List.range S.numReplicas).map fun i => p.eval (point q i) • S.h1)
    {i : ℕ} {enc : G₁} (henc : agg.encryptions[i]? = some enc) :
    i < S.numReplicas ∧ enc = p.eval (point q i) • S.publicKey i := by
  have hi : i < S.numReplicas := by
    rw [← h.encryptions]
    exact (List.getElem?_eq_some_iff.mp henc).1
  have hat : agg.commitments[i]? = some (p.eval (point q i) • S.h1) := by
    rw [hcom, getElem?_map_range _ hi]
  have hpair := h.pairings i hi enc _ henc hat
  have hleft := hE.bilinear.smul_smul 1 (p.eval (point q i)) (S.publicKey i) S.h1
  have hright := hE.bilinear.smul_smul (p.eval (point q i)) 1 (S.publicKey i) S.h1
  rw [one_smul, one_mul] at hleft
  rw [one_smul, mul_one] at hright
  refine ⟨hi, hE.left_inj hh1 ?_⟩
  rw [← hpair, hleft, hright]

omit [AddCommGroup GT] [Module (Fr q) GT] in
theorem Verified.gs_eq {agg : PvssAggregate q G₁ G₂} (h : Verified S agg)
    (hnq : S.numReplicas < q) {p : (Fr q)[X]} (hdeg : p.natDegree ≤ S.numFaults)
    (hcom : agg.commitments =
      (List.range S.numReplicas).map fun i => p.eval (point q i) • S.h1) :
    (agg.decomposition.map DecompositionProof.gs).sum = p.eval 0 • S.h1 := by
  have hreplicas := h.replicas
  have hpoint : Polynomial.lagrangeInterpolation q S.numFaults agg.commitments =
      .ok (p.eval 0 • S.h1) :=
    lagrangeSum_shares hdeg (by rw [h.commitments]; omega)
      (fun i hi => by rw [hcom, getElem?_map_range _ (by omega)]) (fun _ _ => rfl)
      (natCast_succ_injOn q (by omega))
  have hgs := h.gs
  rw [hpoint] at hgs
  exact (Except.ok.inj hgs).symm

/-! ## The beacon of an aggregate -/

omit hq [AddCommGroup GT] [Module (Fr q) G₂] [Module (Fr q) GT] in
theorem verifyBeacon_eq_true [DecidableEq GT] (hctx : S.Public ctx)
    {agg : PvssAggregate q G₁ G₂} {b : Beacon G₁ GT} :
    ctx.verifyBeacon agg b = true ↔
      S.curve.reducedPairing S.g1 (agg.decomposition.map DecompositionProof.gs).sum =
        S.curve.reducedPairing b.recon S.h1 ∧
      b.beacon = S.curve.pairing b.recon S.h2 := by
  unfold Context.verifyBeacon
  simp only [hctx.curve, hctx.g1, hctx.h1, hctx.h2]
  rw [foldl_add_list, zero_add]
  split
  · rename_i hne
    simp [hne]
  · rename_i heq
    simp [not_not.mp heq, eq_comm]

/-- At most one beacon is accepted for an aggregate. -/
theorem verifyBeacon_unique [DecidableEq GT] (hE : S.curve.PrimeOrder) (hh1 : S.h1 ≠ 0)
    {ctx' : Context q G₁ G₂ GT} (hctx : S.Public ctx) (hctx' : S.Public ctx')
    {agg : PvssAggregate q G₁ G₂} {b b' : Beacon G₁ GT}
    (h : ctx.verifyBeacon agg b = true) (h' : ctx'.verifyBeacon agg b' = true) : b = b' := by
  obtain ⟨hrecon, hbeacon⟩ := (verifyBeacon_eq_true hctx).mp h
  obtain ⟨hrecon', hbeacon'⟩ := (verifyBeacon_eq_true hctx').mp h'
  have heq : b.recon = b'.recon := hE.left_inj hh1 (hrecon ▸ hrecon')
  cases b
  cases b'
  simp only at heq hbeacon hbeacon'
  rw [hbeacon, hbeacon', heq]

omit [AddCommGroup G₂] [AddCommGroup GT] [Module (Fr q) G₂] [Module (Fr q) GT] hq in
theorem decrypt_origin {agg : PvssAggregate q G₁ G₂} {r : Fr q} {dec : Decryption q G₁}
    (h : ctx.decrypt agg r = .ok dec) : dec.origin = ctx.myId := by
  obtain ⟨enc, -, hdec⟩ := bind_eq_ok.mp h
  obtain ⟨x, -, hdec⟩ := bind_eq_ok.mp hdec
  cases hdec
  rfl

omit [AddCommGroup G₂] [AddCommGroup GT] [Module (Fr q) G₂] [Module (Fr q) GT] hq in
/-- Decryptions of one origin reconstruct nothing: interpolation inverts the difference of the
first two points. -/
theorem reconstruct_ne_ok (hfaults : 1 ≤ ctx.config.numFaults) {decs : List (Decryption q G₁)}
    {i : ℕ} (horigin : ∀ dec ∈ decs, dec.origin = i) (b : Beacon G₁ GT) :
    ctx.reconstruct decs ≠ .ok b := by
  intro h
  unfold Context.reconstruct at h
  split at h
  · cases h
  rename_i hlen
  have hlen : ctx.config.numFaults < decs.length := not_not.mp hlen
  obtain ⟨point, hpoint, -⟩ := bind_eq_ok.mp h
  unfold lagrangeInterpolation lagrangeSum at hpoint
  split at hpoint
  · cases hpoint
  rw [List.range_succ_eq_map, List.foldlM_cons] at hpoint
  obtain ⟨_, hsum, -⟩ := bind_eq_ok.mp hpoint
  obtain ⟨prod, hprod, -⟩ := bind_eq_ok.mp hsum
  have hat : ∀ j < decs.length, vectorAt (decs.map fun dec => ((dec.origin + 1 : ℕ) : Fr q)) j =
      .ok ((i + 1 : ℕ) : Fr q) := by
    intro j hj
    refine vectorAt_ok ?_
    rw [List.getElem?_map, List.getElem?_eq_getElem hj, Option.map_some,
      horigin _ (List.getElem_mem hj)]
  exact lagrangeProd_ne_ok hfaults (hat 0 (by omega)) (hat 1 (by omega)) prod hprod

/-- The decryption of `agg` by the secret key of its origin. -/
def TrueDecryption (S : Setup q G₁ G₂ GT) (agg : PvssAggregate q G₁ G₂)
    (dec : Decryption q G₁) : Prop :=
  ∃ enc, agg.encryptions[dec.origin]? = some enc ∧
    dec.dec = (S.secretKeys dec.origin)⁻¹ • enc

/-- Every two quorums of true decryptions of an accepted aggregate reconstruct one beacon,
which `verify_beacon` accepts as the only one. -/
theorem Setup.beacon_unique [DecidableEq G₂] [DecidableEq GT] (S : Setup q G₁ G₂ GT)
    (hE : S.curve.PrimeOrder) (hh1 : S.h1 ≠ 0) (hnq : S.numReplicas < q)
    (hsk : ∀ i < S.numReplicas, S.secretKeys i ≠ 0) (agg : PvssAggregate q G₁ G₂)
    (haccepted : ∃ ctx ∈ S.getContext, ∃ dual, ctx.verifyAggregation agg dual = .ok true)
    (hcom : ∃ p : (Fr q)[X], p.natDegree ≤ S.numFaults ∧ agg.commitments =
      (List.range S.numReplicas).map fun i => p.eval (point q i) • S.h1)
    (decs decs' : List (Decryption q G₁))
    (hdecs : ∀ dec ∈ decs, TrueDecryption S agg dec)
    (hdecs' : ∀ dec ∈ decs', TrueDecryption S agg dec)
    (hnodup : (decs.map Decryption.origin).Nodup) (hlen : S.numFaults < decs.length)
    (hnodup' : (decs'.map Decryption.origin).Nodup) (hlen' : S.numFaults < decs'.length) :
    ∃ b, (∀ ctx ∈ S.getContext, ctx.reconstruct decs = .ok b ∧ ctx.reconstruct decs' = .ok b) ∧
      ∀ ctx ∈ S.getContext, ∀ b', ctx.verifyBeacon agg b' = true ↔ b' = b := by
  obtain ⟨ctx, hctx, dual, hverify⟩ := haccepted
  obtain ⟨p, hdeg, hcom⟩ := hcom
  have hpublic : ∀ ctx ∈ S.getContext, S.Public ctx := by
    intro ctx hctx
    obtain ⟨i, -, rfl⟩ := Setup.mem_getContext.mp hctx
    exact S.public_context i
  have h : Verified S agg := verified_of_verifyAggregation (hpublic ctx hctx) hverify
  have hshare : ∀ dec, TrueDecryption S agg dec →
      dec.origin < S.numReplicas ∧ dec.dec = p.eval (point q dec.origin) • S.g1 := by
    rintro dec ⟨enc, henc, hdec⟩
    obtain ⟨hi, rfl⟩ := h.encryption hE hh1 hcom henc
    refine ⟨hi, ?_⟩
    unfold Setup.publicKey at hdec
    rw [hdec, smul_comm, inv_smul_smul₀ (hsk _ hi)]
  have hbeacon : ∀ ctx ∈ S.getContext, ctx.verifyBeacon agg
      ⟨p.eval 0 • S.g1, S.curve.pairing (p.eval 0 • S.g1) S.h2⟩ = true := by
    intro ctx hctx
    refine (verifyBeacon_eq_true (hpublic ctx hctx)).mpr ⟨?_, rfl⟩
    have hleft := hE.bilinear.smul_smul 1 (p.eval 0) S.g1 S.h1
    have hright := hE.bilinear.smul_smul (p.eval 0) 1 S.g1 S.h1
    rw [one_smul, one_mul] at hleft
    rw [one_smul, mul_one] at hright
    rw [h.gs_eq hnq hdeg hcom, hleft, hright]
  refine ⟨⟨p.eval 0 • S.g1, S.curve.pairing (p.eval 0 • S.g1) S.h2⟩,
    fun ctx hctx => ⟨?_, ?_⟩, fun ctx hctx b' => ⟨fun h' => ?_, fun h' => ?_⟩⟩
  · exact reconstruct_eq (hpublic ctx hctx) hnq hdeg (fun dec hd => hshare dec (hdecs dec hd))
      hnodup hlen
  · exact reconstruct_eq (hpublic ctx hctx) hnq hdeg (fun dec hd => hshare dec (hdecs' dec hd))
      hnodup' hlen'
  · exact verifyBeacon_unique hE hh1 (hpublic ctx hctx) (hpublic ctx hctx) h'
      (hbeacon ctx hctx)
  · rw [h']
    exact hbeacon ctx hctx

theorem Curve.scalar_primeOrder : (Curve.scalar q).PrimeOrder where
  card₁ := Nat.card_zmod q
  card₂ := Nat.card_zmod q
  bilinear := Curve.scalar_bilinear
  nondegenerate := ⟨1, 1, by simp [Curve.reducedPairing, Curve.scalar]⟩

/-- The decomposition proof of the secret `s` over `Curve.scalar`, with the nonce `1`. -/
def scalarDecomposition (q : ℕ) (s : Fr q) : DecompositionProof q (Fr q) :=
  ⟨Dleq.prove (Curve.scalar q).hashToField (Curve.scalar q).text₂ 1 s s 1, s⟩

/-- An aggregate among three replicas whose commitments lie on `X + 1`. -/
def linearAggregate : PvssAggregate 5 (Fr 5) (Fr 5) :=
  ⟨[2, 1, 2], [2, 3, 4], [scalarDecomposition 5 3, scalarDecomposition 5 3], [0, 1]⟩

/-- The share of `linearAggregate` at the origin `i`. -/
def linearDecryption (dec : Fr 5) (i : ℕ) : Decryption 5 (Fr 5) := ⟨dec, ⟨0, 0⟩, i⟩

theorem beacon_unique_linear :
    ∃ b, (∀ ctx ∈ (Setup.scalar 5 3).getContext,
        ctx.reconstruct [linearDecryption 2 0, linearDecryption 3 1] = .ok b ∧
        ctx.reconstruct [linearDecryption 4 2, linearDecryption 3 1, linearDecryption 2 0] =
          .ok b) ∧
      ∀ ctx ∈ (Setup.scalar 5 3).getContext, ∀ b',
        ctx.verifyBeacon linearAggregate b' = true ↔ b' = b := by
  have hdec : ∀ dec ∈ [linearDecryption 4 2, linearDecryption 3 1, linearDecryption 2 0],
      TrueDecryption (Setup.scalar 5 3) linearAggregate dec := by
    intro dec h
    simp only [List.mem_cons, List.not_mem_nil, or_false] at h
    rcases h with rfl | rfl | rfl
    · exact ⟨2, rfl, by decide +kernel⟩
    · exact ⟨1, rfl, by decide +kernel⟩
    · exact ⟨2, rfl, by decide +kernel⟩
  refine (Setup.scalar 5 3).beacon_unique Curve.scalar_primeOrder (by decide) (by decide)
    (fun i hi => natCast_succ_ne_zero 5 (Nat.succ_lt_succ (Nat.lt_of_lt_of_le hi (by decide))))
    linearAggregate ?_ ?_ _ _ ?_ hdec (by decide) (by decide) (by decide) (by decide)
  · exact ⟨_, Setup.mem_getContext.mpr ⟨0, by decide, rfl⟩, fun _ => 1, by decide +kernel⟩
  · refine ⟨Polynomial.X + 1, ?_, ?_⟩
    · exact (Polynomial.natDegree_add_le _ _).trans (by simp [Setup.numFaults, Setup.scalar])
    · simp [Setup.scalar, linearAggregate, List.range_succ, point]
      decide
  · intro dec h
    refine hdec dec ?_
    simp only [List.mem_cons, List.not_mem_nil, or_false] at h ⊢
    tauto

/-! ## Decryption shares and public keys -/

omit [AddCommGroup G₂] [AddCommGroup GT] [Module (Fr q) G₂] [Module (Fr q) GT] in
/-- A proof with any non-zero witness `x` for the share `x⁻¹ • enc` is accepted. -/
theorem verifyDecryption_prove [DecidableEq G₁] (ctx : Context q G₁ G₂ GT)
    (agg : PvssAggregate q G₁ G₂) {i : ℕ} {enc : G₁} (henc : agg.encryptions[i]? = some enc)
    {x : Fr q} (hx : x ≠ 0) (r : Fr q) :
    ctx.verifyDecryption agg ⟨x⁻¹ • enc, Dleq.prove ctx.curve.hashToField ctx.curve.text₁
      (x⁻¹ • enc) enc x r, i⟩ = .ok true := by
  have hwitness : x • x⁻¹ • enc = enc := smul_inv_smul₀ hx enc
  have hproof := Dleq.verify_prove ctx.curve.hashToField ctx.curve.text₁ (x⁻¹ • enc) x r
  rw [hwitness] at hproof
  unfold Context.verifyDecryption Decryption.verify
  rw [vectorAt_ok henc, ok_bind, pure_eq_ok, hproof]

omit [AddCommGroup G₂] [AddCommGroup GT] [Module (Fr q) G₂] [Module (Fr q) GT] in
/-- Acceptance of a share made with the exponent `x` implies that `x` is the secret key of
its origin for that exponent only: the public key is not part of the check. -/
theorem Context.verifyDecryption_iff [DecidableEq G₁] (ctx : Context q G₁ G₂ GT)
    (agg : PvssAggregate q G₁ G₂) (i : ℕ) (sk : Fr q) (enc : G₁)
    (_hpk : ctx.pkMap[i]? = some (sk • ctx.g1)) (henc : agg.encryptions[i]? = some enc)
    (_hne : enc ≠ 0) (x : Fr q) (hx : x ≠ 0) (r : Fr q) :
    (ctx.verifyDecryption agg ⟨x⁻¹ • enc, Dleq.prove ctx.curve.hashToField ctx.curve.text₁
      (x⁻¹ • enc) enc x r, i⟩ = .ok true → x = sk) ↔ x = sk :=
  ⟨fun h => h (verifyDecryption_prove ctx agg henc hx r), fun h _ => h⟩

theorem verifyDecryption_iff_linear :
    (((Setup.scalar 5 3).context 0).verifyDecryption linearAggregate
      ⟨(2 : Fr 5)⁻¹ • 1, Dleq.prove (Curve.scalar 5).hashToField (Curve.scalar 5).text₁
        ((2 : Fr 5)⁻¹ • 1) 1 2 3, 1⟩ = .ok true → (2 : Fr 5) = 2) ↔ (2 : Fr 5) = 2 :=
  ((Setup.scalar 5 3).context 0).verifyDecryption_iff linearAggregate 1 2 1 (by decide +kernel)
    rfl (by decide) 2 (by decide) 3

/-- Replica `1` has the key `2`; a share made with the exponent `1` is accepted for it,
although it is not the decryption. -/
theorem verifyDecryption_wrong_key :
    ((Setup.scalar 5 3).context 0).pkMap[1]? =
        some ((2 : Fr 5) • ((Setup.scalar 5 3).context 0).g1) ∧
      linearAggregate.encryptions[1]? = some 1 ∧
      ((Setup.scalar 5 3).context 0).verifyDecryption linearAggregate
        ⟨(1 : Fr 5)⁻¹ • 1, Dleq.prove (Curve.scalar 5).hashToField (Curve.scalar 5).text₁
          ((1 : Fr 5)⁻¹ • 1) 1 1 3, 1⟩ = .ok true ∧
      (1 : Fr 5) ≠ 2 ∧ (1 : Fr 5)⁻¹ • (1 : Fr 5) ≠ (2 : Fr 5)⁻¹ • (1 : Fr 5) := by
  decide +kernel

/-! ## The contributors of an aggregate -/

/-- The distinct replica indices below `n` in an `id_vec`. -/
def contributors (n : ℕ) (ids : List ℕ) : Finset ℕ := ids.toFinset.filter (· < n)

/-- The aggregate of the sharing of `0`, under arbitrary identities. -/
def zeroAggregate (S : Setup q G₁ G₂ GT) (ids : List ℕ) : PvssAggregate q G₁ G₂ :=
  ⟨List.replicate S.numReplicas 0, List.replicate S.numReplicas 0,
    ids.map fun _ => ⟨Dleq.prove S.curve.hashToField S.curve.text₂ S.h1 0 0 0, 0⟩, ids⟩

omit [AddCommGroup GT] [Module (Fr q) GT] in
theorem zeroAggregate_aggregateOf [DecidableEq G₂] (ids : List ℕ) :
    AggregateOf S 0 (zeroAggregate S ids) where
  degree := by simp
  encryptions := by simp [zeroAggregate]
  commitments := by simp [zeroAggregate]
  decomp := by
    intro d hd
    obtain ⟨-, -, rfl⟩ := List.mem_map.mp hd
    have hproof := Dleq.verify_prove S.curve.hashToField S.curve.text₂ S.h1 0 0
    rwa [zero_smul] at hproof
  gs := by simp [zeroAggregate]
  ids := by simp [zeroAggregate]

/-- Which lists of identities guarantee `f + 1` contributors when an aggregate that carries
them is accepted: those too short to be accepted and those that name `f + 1` replicas
themselves. A system of one replica accepts nothing. -/
theorem Setup.contributors_iff [DecidableEq G₂] [DecidableEq GT] (S : Setup q G₁ G₂ GT)
    (hE : S.curve.Bilinear) (hnq : S.numReplicas < q) (ids : List ℕ) :
    (∀ agg : PvssAggregate q G₁ G₂, agg.idVec = ids → ∀ ctx ∈ S.getContext, ∀ dual,
      ctx.verifyAggregation agg dual = .ok true →
      S.numFaults + 1 ≤ (contributors S.numReplicas agg.idVec).card) ↔
    S.numReplicas ≤ 1 ∨ ids.length < S.numFaults ∨
      S.numFaults < (contributors S.numReplicas ids).card := by
  constructor
  · intro h
    by_cases hn : S.numReplicas ≤ 1
    · exact Or.inl hn
    by_cases hlen : ids.length < S.numFaults
    · exact Or.inr (Or.inl hlen)
    have haccepted := (zeroAggregate_aggregateOf (S := S) ids).verify hE (by omega) hnq
      (by simpa [zeroAggregate] using hlen) (S.public_context 0) fun _ => 0
    have hctx : S.context 0 ∈ S.getContext := Setup.mem_getContext.mpr ⟨0, by omega, rfl⟩
    exact Or.inr (Or.inr (h (zeroAggregate S ids) rfl _ hctx _ haccepted))
  · rintro h agg rfl ctx hctx dual haccepted
    obtain ⟨i, -, rfl⟩ := Setup.mem_getContext.mp hctx
    have hverified := verified_of_verifyAggregation (S.public_context i) haccepted
    have hreplicas := hverified.replicas
    have hids := hverified.ids
    rcases h with hn | hlen | hcard
    · omega
    · omega
    · exact hcard

theorem contributors_iff_scalar :
    (∀ agg : PvssAggregate 5 (Fr 5) (Fr 5), agg.idVec = [0, 2] →
      ∀ ctx ∈ (Setup.scalar 5 3).getContext, ∀ dual,
      ctx.verifyAggregation agg dual = .ok true →
      (Setup.scalar 5 3).numFaults + 1 ≤
        (contributors (Setup.scalar 5 3).numReplicas agg.idVec).card) ↔
    (Setup.scalar 5 3).numReplicas ≤ 1 ∨ [0, 2].length < (Setup.scalar 5 3).numFaults ∨
      (Setup.scalar 5 3).numFaults < (contributors (Setup.scalar 5 3).numReplicas [0, 2]).card :=
  (Setup.scalar 5 3).contributors_iff Curve.scalar_bilinear (by decide) [0, 2]

/-- One sharing, dealt by replica `0` of three, passes for an aggregate. -/
theorem contributors_single :
    ∃ sh agg, ((Setup.scalar 5 3).context 0).createSharing ⟨fun _ => 2, fun _ => 3, 1⟩ = .ok sh ∧
      ((Setup.scalar 5 3).context 0).aggregate [sh] [0] = .ok agg ∧
      ((Setup.scalar 5 3).context 1).verifyAggregation agg (fun _ => 1) = .ok true ∧
      (contributors 3 agg.idVec).card < (Setup.scalar 5 3).numFaults + 1 := by
  obtain ⟨sh, p, hsh, hshare, -⟩ := createSharing_ok ((Setup.scalar 5 3).public_context 0)
    ⟨fun _ => 2, fun _ => 3, 1⟩
  obtain ⟨agg, p', hagg, haggregate, hids, -⟩ := aggregate_ok
    ((Setup.scalar 5 3).context 0) [sh] [0] (by simp) rfl (by simpa using ⟨p, hshare⟩)
  refine ⟨sh, agg, hsh, hagg, ?_, ?_⟩
  · exact haggregate.verify Curve.scalar_bilinear (by decide) (by decide)
      (by rw [hids]; decide) ((Setup.scalar 5 3).public_context 1) _
  · rw [hids]
    decide

/-! ## The challenges of a sharing -/

omit [AddCommGroup GT] [Module (Fr q) GT] hq in
/-- An accepted sharing has a valid proof for every replica. -/
theorem verify_of_verifySharing [DecidableEq G₁] [DecidableEq G₂] {sh : PvssSharing q G₁ G₂}
    {dual : ℕ → Fr q} (h : ctx.verifySharing sh dual = .ok true) {i : ℕ} {pk enc : G₁} {com : G₂}
    {proof : DleqDual q G₁ G₂} (hpk : ctx.pkMap[i]? = some pk)
    (henc : sh.encryptions[i]? = some enc) (hcom : sh.commitments[i]? = some com)
    (hproof : sh.dleqProofs[i]? = some proof) :
    proof.verify ctx.curve.hashToField ctx.curve.text₁ ctx.curve.text₂ pk enc ctx.h1 com = true := by
  unfold Context.verifySharing at h
  dsimp only at h
  split at h
  · cases h
  rename_i hsizes
  push Not at hsizes
  obtain ⟨degreeHolds, -, h⟩ := bind_eq_ok.mp h
  cases degreeHolds with
  | false => cases h
  | true =>
  obtain ⟨proofsHold, hproofs, h⟩ := bind_eq_ok.mp h
  cases proofsHold with
  | false => cases h
  | true =>
  have hi : i < ctx.config.numReplicas := by
    rw [← hsizes.1]
    exact (List.getElem?_eq_some_iff.mp henc).1
  have hverify := allM_eq_true.mp hproofs i (List.mem_range.mpr hi)
  rw [vectorAt_ok hproof, ok_bind, vectorAt_ok hpk, ok_bind, vectorAt_ok henc, ok_bind,
    vectorAt_ok hcom, ok_bind, pure_eq_ok] at hverify
  exact Except.ok.inj hverify

omit [AddCommGroup GT] [Module (Fr q) GT] in
/-- For two different exponents over two generators (in a group of prime order, elements that are
not `0`) and two commitments there is one challenge that has a response. `verify_sharing` accepts a
ciphertext and a commitment of these exponents only when `hashToField` gives that challenge. -/
theorem Context.challenge_unique [DecidableEq G₁] [DecidableEq G₂] (h₁ : Nat.card G₁ = q)
    (h₂ : Nat.card G₂ = q) {g : G₁} {h : G₂} (hg : g ≠ 0) (hh : h ≠ 0) {x₁ x₂ : Fr q}
    (hne : x₁ ≠ x₂) (gra : G₁) (grb : G₂) :
    ∃ c₀ : Fr q, (∀ c, DleqDual.Admits g (x₁ • g) h (x₂ • h) gra grb c ↔ c = c₀) ∧
      ∀ (ctx : Context q G₁ G₂ GT) (sh : PvssSharing q G₁ G₂) (dual : ℕ → Fr q),
        ctx.verifySharing sh dual = .ok true → ctx.h1 = h →
        ∀ (i : ℕ) (proof : DleqDual q G₁ G₂), ctx.pkMap[i]? = some g →
        sh.encryptions[i]? = some (x₁ • g) → sh.commitments[i]? = some (x₂ • h) →
        sh.dleqProofs[i]? = some proof → proof.gra = gra → proof.grb = grb →
        DleqDual.challenge ctx.curve.hashToField ctx.curve.text₁ ctx.curve.text₂ g (x₁ • g) h
          (x₂ • h) gra grb = c₀ := by
  obtain ⟨a, rfl⟩ := exists_smul_eq h₁ hg gra
  obtain ⟨b, rfl⟩ := exists_smul_eq h₂ hh grb
  have hsub : x₁ - x₂ ≠ 0 := sub_ne_zero.mpr hne
  have hunique : ∀ c, DleqDual.Admits g (x₁ • g) h (x₂ • h) (a • g) (b • h) c ↔
      c = (b - a) / (x₁ - x₂) := by
    intro c
    rw [DleqDual.admits_iff hg hh, eq_div_iff hsub]
  refine ⟨_, hunique, ?_⟩
  rintro ctx sh dual haccepted rfl i proof hpk henc hcom hproof hgra hgrb
  have hadmits := DleqDual.admits_of_verify
    (verify_of_verifySharing haccepted hpk henc hcom hproof)
  rw [hgra, hgrb] at hadmits
  exact (hunique _).mp hadmits

/-- A sharing of `0` whose first ciphertext is one of `1`. -/
def falseSharing : PvssSharing 5 (Fr 5) (Fr 5) :=
  ⟨[1, 0, 0, 0], [0, 0, 0, 0], [⟨0, 2, 2⟩, ⟨0, 0, 0⟩, ⟨0, 0, 0⟩, ⟨0, 0, 0⟩], ⟨⟨0, 0⟩, 0⟩, 0⟩

/-- `hashToField` hits the challenge `2` of the first proof, and the false sharing is accepted. -/
theorem challenge_unique_scalar :
    ((Setup.scalar 5 4).context 1).verifySharing falseSharing (fun _ => 0) = .ok true ∧
    ∃ c₀ : Fr 5, (∀ c, DleqDual.Admits (1 : Fr 5) ((1 : Fr 5) • 1) (1 : Fr 5) ((0 : Fr 5) • 1)
      0 2 c ↔ c = c₀) ∧ c₀ = 2 := by
  have haccepted :
      ((Setup.scalar 5 4).context 1).verifySharing falseSharing (fun _ => 0) = .ok true := by
    decide +kernel
  have hcard : Nat.card (Fr 5) = 5 := Nat.card_zmod 5
  have hne : (1 : Fr 5) ≠ 0 := by decide
  obtain ⟨c₀, hunique, hhash⟩ := @Context.challenge_unique 5 (Fr 5) (Fr 5) (Fr 5) _ _ _ _ _ _ _
    hcard hcard 1 1 hne hne 1 0 hne 0 2
  refine ⟨haccepted, c₀, hunique, ?_⟩
  have hchallenge := hhash _ falseSharing _ haccepted rfl 0 ⟨0, 2, 2⟩ rfl rfl rfl rfl rfl rfl
  rw [← hchallenge]
  decide +kernel

end Pvss

end OptRand
