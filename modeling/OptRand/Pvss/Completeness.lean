import OptRand.Pvss.Context
import Mathlib.Tactic.NormNum.Prime

/-!
# Honest runs of the PVSS library succeed

A sharing dealt from a polynomial `p` of degree at most `f` consists of the values of `p`
at `1, …, n` in the exponent, with valid proofs (`SharingOf`). An aggregate of such
sharings consists of the values of the sum of their polynomials (`AggregateOf`), and the
decryptions of an aggregate are the values `p(i + 1) • g1` in the clear. Every check of
the library follows from these shapes.
-/

namespace OptRand

open Lib Finset
open scoped Polynomial

namespace Pvss

variable {q : ℕ} [hq : Fact q.Prime] {G₁ G₂ GT : Type} [AddCommGroup G₁] [AddCommGroup G₂]
variable [AddCommGroup GT] [Module (Fr q) G₁] [Module (Fr q) G₂] [Module (Fr q) GT]

/-- The point of replica `i`. -/
abbrev point (q i : ℕ) : Fr q := ((i + 1 : ℕ) : Fr q)

theorem getElem?_map_range {α : Type} (f : ℕ → α) {n i : ℕ} (h : i < n) :
    ((List.range n).map f)[i]? = some (f i) := by
  simp [h]

theorem zipWith_map_range {α : Type} (op : α → α → α) (f g : ℕ → α) (n : ℕ) :
    List.zipWith op ((List.range n).map f) ((List.range n).map g) =
      (List.range n).map fun i => op (f i) (g i) := by
  rw [List.zipWith_map, List.zipWith_self]

theorem replicate_eq_map_range {α : Type} (a : α) (n : ℕ) :
    List.replicate n a = (List.range n).map fun _ => a := by
  rw [List.map_const', List.length_range]

variable {S : Setup q G₁ G₂ GT}

/-! ## Sharings -/

/-- The sharing of the polynomial `p` among the replicas of `S`. -/
structure SharingOf [DecidableEq G₁] [DecidableEq G₂] (S : Setup q G₁ G₂ GT) (p : (Fr q)[X])
    (sh : PvssSharing q G₁ G₂) : Prop where
  degree : p.natDegree ≤ S.numFaults
  encryptions : sh.encryptions =
    (List.range S.numReplicas).map fun i => p.eval (point q i) • S.publicKey i
  commitments : sh.commitments =
    (List.range S.numReplicas).map fun i => p.eval (point q i) • S.h1
  proofs : ∃ π : ℕ → DleqDual q G₁ G₂, sh.dleqProofs = (List.range S.numReplicas).map π ∧
    ∀ i < S.numReplicas, (π i).verify S.curve.hashToField S.curve.text₁ S.curve.text₂
      (S.publicKey i) (p.eval (point q i) • S.publicKey i) S.h1 (p.eval (point q i) • S.h1) = true
  secret : sh.secret = p.eval 0
  gs : sh.decompPi.gs = p.eval 0 • S.h1
  decomp : sh.decompPi.pi.verify S.curve.hashToField S.curve.text₂ S.h1 sh.decompPi.gs = true

section Sharing

variable [DecidableEq G₁] [DecidableEq G₂] {ctx : Context q G₁ G₂ GT}

omit [AddCommGroup GT] [Module (Fr q) GT] in
theorem createSharing_ok (hctx : S.Public ctx) (draws : SharingDraws q) :
    ∃ sh p, ctx.createSharing draws = .ok sh ∧ SharingOf S p sh ∧ p.eval 0 = draws.poly 0 := by
  obtain ⟨poly, hpoly⟩ : ∃ poly, Polynomial.random S.numFaults draws.poly = poly := ⟨_, rfl⟩
  obtain ⟨p, hp⟩ : ∃ p, ofCoeffs poly.coeffs = p := ⟨_, rfl⟩
  have hevals : ((List.range S.numReplicas).map fun i => poly.evaluate (point q i)) =
      (List.range S.numReplicas).map fun i => p.eval (point q i) :=
    List.map_congr_left fun i _ => by rw [Polynomial.evaluate_eq_eval, hp]
  have hcomms : ((List.range S.numReplicas).mapM fun i => do
      return (← vectorAt ((List.range S.numReplicas).map fun i => p.eval (point q i)) i) •
        S.h1) =
      (.ok ((List.range S.numReplicas).map fun i => p.eval (point q i) • S.h1) :
        Except Error _) :=
    mapM_ok fun i hi => by
      rw [vectorAt_map_range _ (List.mem_range.mp hi), ok_bind, pure_eq_ok]
  have hencs : ((List.range S.numReplicas).mapM fun i => do
      return (← vectorAt ((List.range S.numReplicas).map fun i => p.eval (point q i)) i) •
        (← vectorAt ((List.range S.numReplicas).map S.publicKey) i)) =
      (.ok ((List.range S.numReplicas).map fun i => p.eval (point q i) • S.publicKey i) :
        Except Error _) :=
    mapM_ok fun i hi => by
      have hi := List.mem_range.mp hi
      rw [vectorAt_map_range _ hi, ok_bind, vectorAt_map_range _ hi, ok_bind, pure_eq_ok]
  have hproofs : ((List.range S.numReplicas).mapM fun i => do
      return DleqDual.prove S.curve.hashToField S.curve.text₁ S.curve.text₂
        (← vectorAt ((List.range S.numReplicas).map S.publicKey) i)
        (← vectorAt ((List.range S.numReplicas).map fun i =>
          p.eval (point q i) • S.publicKey i) i) S.h1
        (← vectorAt ((List.range S.numReplicas).map fun i => p.eval (point q i) • S.h1) i)
        (← vectorAt ((List.range S.numReplicas).map fun i => p.eval (point q i)) i)
        (draws.nonces i)) =
      (.ok ((List.range S.numReplicas).map fun i =>
        DleqDual.prove S.curve.hashToField S.curve.text₁ S.curve.text₂ (S.publicKey i)
          (p.eval (point q i) • S.publicKey i) S.h1 (p.eval (point q i) • S.h1)
          (p.eval (point q i)) (draws.nonces i)) : Except Error _) :=
    mapM_ok fun i hi => by
      have hi := List.mem_range.mp hi
      rw [vectorAt_map_range _ hi, ok_bind, vectorAt_map_range _ hi, ok_bind,
        vectorAt_map_range _ hi, ok_bind, vectorAt_map_range _ hi, ok_bind, pure_eq_ok]
  have hzero : p.eval 0 = draws.poly 0 := by
    rw [← hp, ← hpoly]
    exact Polynomial.eval_zero_random S.numFaults draws.poly
  have hsecret : poly.getSecret = .ok (p.eval 0) := by
    rw [hzero, ← hpoly]
    exact Polynomial.getSecret_random S.numFaults draws.poly
  have hget : vectorAt poly.coeffs 0 = .ok (p.eval 0) := hsecret
  have hrun : ctx.createSharing draws = .ok
      ⟨(List.range S.numReplicas).map fun i => p.eval (point q i) • S.publicKey i,
        (List.range S.numReplicas).map fun i => p.eval (point q i) • S.h1,
        (List.range S.numReplicas).map fun i =>
          DleqDual.prove S.curve.hashToField S.curve.text₁ S.curve.text₂ (S.publicKey i)
            (p.eval (point q i) • S.publicKey i) S.h1 (p.eval (point q i) • S.h1)
            (p.eval (point q i)) (draws.nonces i),
        ⟨Dleq.prove S.curve.hashToField S.curve.text₂ S.h1 (p.eval 0 • S.h1)
          (p.eval 0) draws.decomp, p.eval 0 • S.h1⟩, p.eval 0⟩ := by
    unfold Context.createSharing DecompositionProof.generate
    simp only [hctx.numReplicas, hctx.numFaults, hctx.pkMap, hctx.h1, hctx.curve, hpoly]
    rw [hevals, hcomms, ok_bind, hencs, ok_bind, hproofs, ok_bind, hsecret, ok_bind,
      pure_eq_ok, ok_bind, hget, ok_bind, pure_eq_ok]
  refine ⟨_, p, hrun, ?_, hzero⟩
  exact {
    degree := by
      rw [← hp, ← hpoly]
      exact Polynomial.natDegree_random_le _ _
    encryptions := rfl
    commitments := rfl
    proofs := ⟨_, rfl, fun i _ => DleqDual.verify_prove _ _ _ _ _ _ _⟩
    secret := rfl
    gs := rfl
    decomp := Dleq.verify_prove _ _ _ _ _ }

omit [AddCommGroup GT] [Module (Fr q) GT] in
theorem SharingOf.verify {p : (Fr q)[X]} {sh : PvssSharing q G₁ G₂} (h : SharingOf S p sh)
    (hn : 2 ≤ S.numReplicas) (hnq : S.numReplicas < q) (hctx : S.Public ctx)
    (dual : ℕ → Fr q) : ctx.verifySharing sh dual = .ok true := by
  obtain ⟨π, hπ, hverify⟩ := h.proofs
  have hlen : sh.commitments.length = S.numReplicas := by simp [h.commitments]
  have hcomm : ∀ i < S.numReplicas, sh.commitments[i]? = some (p.eval (point q i) • S.h1) :=
    fun i hi => by rw [h.commitments, getElem?_map_range _ hi]
  have hf : S.numFaults + 2 ≤ S.numReplicas := by unfold Setup.numFaults; omega
  have hdegree : Polynomial.ensureDegree sh.commitments S.numFaults dual = .ok true :=
    Polynomial.ensureDegree_shares h.degree (by omega) (by omega)
      (fun i hi => hcomm i (by omega)) dual
  have hproofs : ((List.range S.numReplicas).allM fun i => do
      return (← vectorAt sh.dleqProofs i).verify S.curve.hashToField S.curve.text₁
        S.curve.text₂ (← vectorAt ((List.range S.numReplicas).map S.publicKey) i)
        (← vectorAt sh.encryptions i) S.h1 (← vectorAt sh.commitments i)) =
      (.ok true : Except Error Bool) := by
    rw [allM_eq_true]
    intro i hi
    have hi := List.mem_range.mp hi
    rw [hπ, h.encryptions, h.commitments]
    simp only [vectorAt_map_range _ hi, ok_bind, pure_eq_ok]
    rw [hverify i hi]
  have hpoint : Polynomial.lagrangeInterpolation q S.numFaults sh.commitments =
      .ok (p.eval 0 • S.h1) :=
    lagrangeSum_shares h.degree (by omega) (fun i hi => hcomm i (by omega)) (fun _ _ => rfl)
      (natCast_succ_injOn q (by omega))
  unfold Context.verifySharing
  simp only [hctx.numReplicas, hctx.numFaults, hctx.pkMap, hctx.h1, hctx.curve]
  rw [if_neg (by simp [h.encryptions, h.commitments, hπ]), hdegree, ok_bind,
    if_neg (by simp), hproofs, ok_bind, if_neg (by simp), hpoint, ok_bind,
    if_neg (by simp [h.gs]), ← h.gs, h.decomp, pure_eq_ok]

end Sharing

/-! ## Aggregates -/

section Aggregate

variable [DecidableEq G₁] [DecidableEq G₂] {ctx : Context q G₁ G₂ GT}

/-- An aggregate whose shares lie on the polynomial `p`. -/
structure AggregateOf (S : Setup q G₁ G₂ GT) (p : (Fr q)[X]) (agg : PvssAggregate q G₁ G₂) :
    Prop where
  degree : p.natDegree ≤ S.numFaults
  encryptions : agg.encryptions =
    (List.range S.numReplicas).map fun i => p.eval (point q i) • S.publicKey i
  commitments : agg.commitments =
    (List.range S.numReplicas).map fun i => p.eval (point q i) • S.h1
  decomp : ∀ d ∈ agg.decomposition,
    d.pi.verify S.curve.hashToField S.curve.text₂ S.h1 d.gs = true
  gs : (agg.decomposition.map DecompositionProof.gs).sum = p.eval 0 • S.h1
  ids : agg.decomposition.length = agg.idVec.length

omit [AddCommGroup GT] [Module (Fr q) GT] in
/-- What the loop of `aggregate` computes from an accumulator that lies on `a`. -/
theorem aggregate_loop {shs : List (PvssSharing q G₁ G₂)}
    (hshs : ∀ sh ∈ shs, ∃ p, SharingOf S p sh) (a : (Fr q)[X])
    (ds : List (DecompositionProof q G₂)) :
    ∃ p : (Fr q)[X], p.natDegree ≤ S.numFaults ∧ p.eval 0 = (shs.map PvssSharing.secret).sum ∧
      shs.foldlM (fun acc pvss => do
        if pvss.commitments.length ≠ S.numReplicas then throw Error.assertion
        if pvss.encryptions.length ≠ S.numReplicas then throw Error.assertion
        if pvss.dleqProofs.length ≠ S.numReplicas then throw Error.assertion
        return (List.zipWith (· + ·) acc.1 pvss.encryptions,
          List.zipWith (· + ·) acc.2.1 pvss.commitments, acc.2.2 ++ [pvss.decompPi]))
        ((List.range S.numReplicas).map fun i => a.eval (point q i) • S.publicKey i,
          (List.range S.numReplicas).map fun i => a.eval (point q i) • S.h1, ds) =
      (.ok ((List.range S.numReplicas).map fun i => (a + p).eval (point q i) • S.publicKey i,
        (List.range S.numReplicas).map fun i => (a + p).eval (point q i) • S.h1,
        ds ++ shs.map PvssSharing.decompPi) : Except Error _) := by
  induction shs generalizing a ds with
  | nil => exact ⟨0, by simp, by simp, by simp [pure_eq_ok]⟩
  | cons sh shs ih =>
    obtain ⟨p, hp⟩ := hshs sh List.mem_cons_self
    obtain ⟨p', hdeg, hsum, hloop⟩ :=
      ih (fun sh' h' => hshs sh' (List.mem_cons_of_mem _ h')) (a + p) (ds ++ [sh.decompPi])
    obtain ⟨π, hπ, -⟩ := hp.proofs
    refine ⟨p + p', ?_, ?_, ?_⟩
    · exact (Polynomial.natDegree_add_le _ _).trans (max_le hp.degree hdeg)
    · rw [Polynomial.eval_add, hsum, List.map_cons, List.sum_cons, hp.secret]
    · rw [List.foldlM_cons, if_neg (by simp [hp.commitments]),
        if_neg (by simp [hp.encryptions]), if_neg (by simp [hπ]), pure_eq_ok, ok_bind]
      simp only [hp.encryptions, hp.commitments, zipWith_map_range, ← add_smul,
        ← Polynomial.eval_add]
      rw [hloop, List.map_cons, List.append_assoc, List.singleton_append, add_assoc]

omit [AddCommGroup GT] [Module (Fr q) GT] in
theorem aggregate_ok (ctx : Context q G₁ G₂ GT) (shs : List (PvssSharing q G₁ G₂))
    (ids : List ℕ) (hne : shs ≠ [])
    (hlen : ids.length = shs.length) (hshs : ∀ sh ∈ shs, ∃ p, SharingOf S p sh) :
    ∃ agg p, ctx.aggregate shs ids = .ok agg ∧ AggregateOf S p agg ∧ agg.idVec = ids ∧
      p.eval 0 = (shs.map PvssSharing.secret).sum := by
  obtain ⟨p, hdeg, hsum, hloop⟩ := aggregate_loop hshs 0 []
  obtain ⟨sh, hsh⟩ := List.exists_mem_of_ne_nil shs hne
  have hfirst : ∃ sh₀, vectorAt shs 0 = .ok sh₀ ∧ sh₀.encryptions.length = S.numReplicas := by
    cases shs with
    | nil => exact absurd rfl hne
    | cons sh₀ shs =>
      obtain ⟨p₀, hp₀⟩ := hshs sh₀ List.mem_cons_self
      exact ⟨sh₀, rfl, by simp [hp₀.encryptions]⟩
  obtain ⟨sh₀, hat, hn⟩ := hfirst
  refine ⟨⟨(List.range S.numReplicas).map fun i => p.eval (point q i) • S.publicKey i,
    (List.range S.numReplicas).map fun i => p.eval (point q i) • S.h1,
    shs.map PvssSharing.decompPi, ids⟩, p, ?_, ?_, rfl, hsum⟩
  · unfold Context.aggregate
    rw [if_neg (by simpa using hne), if_neg (by omega), hat, ok_bind]
    simp only [Polynomial.eval_zero, zero_smul, zero_add, List.nil_append] at hloop
    simp only [hn]
    rw [replicate_eq_map_range, replicate_eq_map_range, hloop, ok_bind, pure_eq_ok]
  · refine ⟨hdeg, rfl, rfl, ?_, ?_, by simp [hlen]⟩
    · intro d hd
      obtain ⟨sh', hsh', rfl⟩ := List.mem_map.mp hd
      obtain ⟨p', hp'⟩ := hshs sh' hsh'
      exact hp'.decomp
    · have hgs : ∀ sh' ∈ shs, sh'.decompPi.gs = sh'.secret • S.h1 := by
        intro sh' hsh'
        obtain ⟨p', hp'⟩ := hshs sh' hsh'
        rw [hp'.gs, hp'.secret]
      rw [List.map_map, hsum, List.sum_smul, List.map_map]
      exact congrArg List.sum (List.map_congr_left hgs)

omit [DecidableEq G₁] in
theorem AggregateOf.verify [DecidableEq GT] {p : (Fr q)[X]} {agg : PvssAggregate q G₁ G₂}
    (h : AggregateOf S p agg) (hE : S.curve.Bilinear) (hn : 2 ≤ S.numReplicas)
    (hnq : S.numReplicas < q) (hids : S.numFaults ≤ agg.idVec.length) (hctx : S.Public ctx)
    (dual : ℕ → Fr q) : ctx.verifyAggregation agg dual = .ok true := by
  have hlen : agg.commitments.length = S.numReplicas := by simp [h.commitments]
  have hcomm : ∀ i < S.numReplicas, agg.commitments[i]? = some (p.eval (point q i) • S.h1) :=
    fun i hi => by rw [h.commitments, getElem?_map_range _ hi]
  have hf : S.numFaults + 2 ≤ S.numReplicas := by unfold Setup.numFaults; omega
  have hdegree : Polynomial.ensureDegree agg.commitments S.numFaults dual = .ok true :=
    Polynomial.ensureDegree_shares h.degree (by omega) (by omega)
      (fun i hi => hcomm i (by omega)) dual
  have hpairings : ((List.range S.numReplicas).allM fun i => do
      return decide (S.curve.reducedPairing
        (← vectorAt ((List.range S.numReplicas).map S.publicKey) i)
        (← vectorAt agg.commitments i) =
        S.curve.reducedPairing (← vectorAt agg.encryptions i) S.h1)) =
      (.ok true : Except Error Bool) := by
    rw [allM_eq_true]
    intro i hi
    have hi := List.mem_range.mp hi
    rw [h.encryptions, h.commitments]
    simp only [vectorAt_map_range _ hi, ok_bind, pure_eq_ok]
    have hpair := hE.smul_smul 1 (p.eval (point q i)) (S.publicKey i) S.h1
    have hpair' := hE.smul_smul (p.eval (point q i)) 1 (S.publicKey i) S.h1
    rw [one_smul, one_mul] at hpair
    rw [one_smul, mul_one] at hpair'
    rw [hpair, hpair', decide_eq_true rfl]
  have hpoint : Polynomial.lagrangeInterpolation q S.numFaults agg.commitments =
      .ok (p.eval 0 • S.h1) :=
    lagrangeSum_shares h.degree (by omega) (fun i hi => hcomm i (by omega)) (fun _ _ => rfl)
      (natCast_succ_injOn q (by omega))
  have hall : agg.decomposition.all (fun dec =>
      dec.pi.verify S.curve.hashToField S.curve.text₂ S.h1 dec.gs) = true :=
    List.all_eq_true.mpr h.decomp
  have hids' := h.ids
  unfold Context.verifyAggregation
  simp only [hctx.numReplicas, hctx.numFaults, hctx.pkMap, hctx.h1, hctx.curve]
  rw [if_neg (by simp [h.encryptions, h.commitments, hids', hids]), hdegree, ok_bind,
    if_neg (by simp), hpairings, ok_bind, if_neg (by simp), hpoint, ok_bind, hall,
    if_neg (by simp), foldl_add_list, zero_add, h.gs, decide_eq_true rfl, pure_eq_ok]

/-! ## Decryptions and the beacon -/

omit [AddCommGroup GT] [Module (Fr q) GT] [DecidableEq G₁] in
/-- The decryption made by replica `i` is its share of the secret in the clear. -/
theorem AggregateOf.decrypt {p : (Fr q)[X]} {agg : PvssAggregate q G₁ G₂}
    (h : AggregateOf S p agg) {i : ℕ} (hi : i < S.numReplicas) (hsk : S.secretKeys i ≠ 0)
    (r : Fr q) :
    ∃ dec, (S.context i).decrypt agg r = .ok dec ∧ dec.origin = i ∧
      dec.dec = p.eval (point q i) • S.g1 ∧
      dec.pi = Dleq.prove S.curve.hashToField S.curve.text₁ dec.dec
        (S.secretKeys i • dec.dec) (S.secretKeys i) r := by
  have henc : vectorAt agg.encryptions i = .ok (p.eval (point q i) • S.publicKey i) := by
    rw [h.encryptions, vectorAt_map_range _ hi]
  have hdec : (S.secretKeys i)⁻¹ • p.eval (point q i) • S.publicKey i =
      p.eval (point q i) • S.g1 := by
    unfold Setup.publicKey
    rw [smul_comm, inv_smul_smul₀ hsk]
  refine ⟨⟨p.eval (point q i) • S.g1, Dleq.prove S.curve.hashToField S.curve.text₁
    (p.eval (point q i) • S.g1) (p.eval (point q i) • S.publicKey i) (S.secretKeys i) r, i⟩,
    ?_, rfl, rfl, ?_⟩
  · unfold Context.decrypt Decryption.generate Setup.context
    simp only
    rw [henc, ok_bind, inverse_ok hsk, ok_bind, hdec, pure_eq_ok]
  · unfold Setup.publicKey
    rw [smul_comm (S.secretKeys i)]

omit [AddCommGroup GT] [Module (Fr q) GT] in
theorem AggregateOf.verifyDecryption {p : (Fr q)[X]} {agg : PvssAggregate q G₁ G₂}
    (h : AggregateOf S p agg) (hctx : S.Public ctx) {i : ℕ} (hi : i < S.numReplicas)
    (hsk : S.secretKeys i ≠ 0) {r : Fr q} {dec : Decryption q G₁}
    (hdec : (S.context i).decrypt agg r = .ok dec) :
    ctx.verifyDecryption agg dec = .ok true := by
  obtain ⟨dec', hdec', horigin, hval, hpi⟩ := h.decrypt hi hsk r
  rw [hdec] at hdec'
  cases hdec'
  have henc : vectorAt agg.encryptions i = .ok (S.secretKeys i • dec.dec) := by
    rw [h.encryptions, vectorAt_map_range _ hi, hval, smul_comm]
    rfl
  unfold Context.verifyDecryption Decryption.verify
  rw [horigin, henc, ok_bind, pure_eq_ok, hctx.curve, hpi, Dleq.verify_prove]

omit [AddCommGroup G₂] [AddCommGroup GT] [Module (Fr q) G₂] [Module (Fr q) GT]
  [DecidableEq G₁] [DecidableEq G₂] in
/-- Reconstruction from any more than `f` shares of a polynomial of degree at most `f`, in
any order. -/
theorem reconstruct_eq (hctx : S.Public ctx) (hnq : S.numReplicas < q) {p : (Fr q)[X]}
    (hdeg : p.natDegree ≤ S.numFaults) {decs : List (Decryption q G₁)}
    (hval : ∀ dec ∈ decs, dec.origin < S.numReplicas ∧
      dec.dec = p.eval (point q dec.origin) • S.g1)
    (hnodup : (decs.map Decryption.origin).Nodup) (hlen : S.numFaults < decs.length) :
    ctx.reconstruct decs =
      .ok ⟨p.eval 0 • S.g1, S.curve.pairing (p.eval 0 • S.g1) S.h2⟩ := by
  obtain ⟨v, hv⟩ : ∃ v : ℕ → Fr q, v = fun j =>
      ((decs.map fun dec => point q dec.origin)[j]?).getD 0 := ⟨_, rfl⟩
  have hat : ∀ j (hj : j < decs.length), v j = point q (decs[j]).origin := by
    intro j hj
    simp [hv, hj]
  have hpoints : ∀ j ≤ S.numFaults,
      vectorAt (decs.map fun dec => point q dec.origin) j = .ok (v j) := by
    intro j hj
    have hj' : j < decs.length := by omega
    rw [hat j hj']
    exact vectorAt_ok (by simp [hj'])
  have hevals : ∀ j ≤ S.numFaults,
      (decs.map fun dec => dec.dec)[j]? = some (p.eval (v j) • S.g1) := by
    intro j hj
    have hj' : j < decs.length := by omega
    rw [hat j hj', ← (hval _ (List.getElem_mem hj')).2]
    simp [hj']
  have hinj : Set.InjOn v (range (S.numFaults + 1) : Finset ℕ) := by
    intro i hi j hj hij
    simp only [coe_range, Set.mem_Iio] at hi hj
    have hi' : i < decs.length := by omega
    have hj' : j < decs.length := by omega
    rw [hat i hi', hat j hj'] at hij
    have horigin : (decs[i]).origin = (decs[j]).origin :=
      natCast_succ_injOn q hnq (by simpa using (hval _ (List.getElem_mem hi')).1)
        (by simpa using (hval _ (List.getElem_mem hj')).1) hij
    have hget : (decs.map Decryption.origin).get ⟨i, by simpa using hi'⟩ =
        (decs.map Decryption.origin).get ⟨j, by simpa using hj'⟩ := by
      simpa using horigin
    exact Fin.val_eq_of_eq (List.nodup_iff_injective_get.mp hnodup hget)
  unfold Context.reconstruct lagrangeInterpolation
  simp only [hctx.numFaults, hctx.curve, hctx.h2]
  rw [if_neg (by omega), lagrangeSum_shares hdeg (by simpa using hlen) hevals hpoints hinj,
    ok_bind, pure_eq_ok]

omit [DecidableEq G₁] in
theorem AggregateOf.verifyBeacon [DecidableEq GT] {p : (Fr q)[X]} {agg : PvssAggregate q G₁ G₂}
    (h : AggregateOf S p agg) (hE : S.curve.Bilinear) (hctx : S.Public ctx) :
    ctx.verifyBeacon agg ⟨p.eval 0 • S.g1, S.curve.pairing (p.eval 0 • S.g1) S.h2⟩ = true := by
  have hpair := hE.smul_smul 1 (p.eval 0) S.g1 S.h1
  have hpair' := hE.smul_smul (p.eval 0) 1 S.g1 S.h1
  rw [one_smul, one_mul] at hpair
  rw [one_smul, mul_one] at hpair'
  unfold Context.verifyBeacon
  simp only [hctx.curve, hctx.g1, hctx.h1, hctx.h2]
  rw [foldl_add_list, zero_add, h.gs, hpair, hpair', if_neg (by simp)]
  exact decide_eq_true trivial

end Aggregate

/-! ## The whole run -/

/-- Whatever is drawn, the sharings dealt in any context are accepted in every context, and the
secret of a sharing is the constant coefficient that was drawn for its polynomial; an aggregate of
at least `f` of them is accepted, as is every decryption of it; and any more than `f` decryptions of
distinct origins give `g1` times the sum of the secrets, with a beacon that is accepted. -/
theorem Setup.completeness [DecidableEq G₁] [DecidableEq G₂] [DecidableEq GT]
    (S : Setup q G₁ G₂ GT) (hE : S.curve.Bilinear) (hn : 2 ≤ S.numReplicas)
    (hnq : S.numReplicas < q) (hsk : ∀ i < S.numReplicas, S.secretKeys i ≠ 0) :
    (∀ ctx ∈ S.getContext, ∀ draws, ∃ sh, ctx.createSharing draws = .ok sh ∧
      sh.secret = draws.poly 0 ∧
      ∀ ctx' ∈ S.getContext, ∀ dual, ctx'.verifySharing sh dual = .ok true) ∧
    ∀ shs : List (PvssSharing q G₁ G₂),
      (∀ sh ∈ shs, ∃ ctx ∈ S.getContext, ∃ draws, ctx.createSharing draws = .ok sh) →
      shs ≠ [] → S.numFaults ≤ shs.length → ∀ ids : List ℕ, ids.length = shs.length →
      ∀ ctx ∈ S.getContext, ∃ agg, ctx.aggregate shs ids = .ok agg ∧
        (∀ ctx' ∈ S.getContext, ∀ dual, ctx'.verifyAggregation agg dual = .ok true) ∧
        (∀ ctx' ∈ S.getContext, ∀ r, ∃ dec, ctx'.decrypt agg r = .ok dec ∧
          ∀ ctx'' ∈ S.getContext, ctx''.verifyDecryption agg dec = .ok true) ∧
        ∀ decs : List (Decryption q G₁),
          (∀ dec ∈ decs, ∃ ctx' ∈ S.getContext, ∃ r, ctx'.decrypt agg r = .ok dec) →
          (decs.map Decryption.origin).Nodup → S.numFaults < decs.length →
          ∀ ctx' ∈ S.getContext, ∃ b, ctx'.reconstruct decs = .ok b ∧
            b.recon = (shs.map PvssSharing.secret).sum • S.g1 ∧
            ∀ ctx'' ∈ S.getContext, ctx''.verifyBeacon agg b = true := by
  have hpublic : ∀ ctx ∈ S.getContext, S.Public ctx := by
    intro ctx hctx
    obtain ⟨i, -, rfl⟩ := Setup.mem_getContext.mp hctx
    exact S.public_context i
  constructor
  · intro ctx hctx draws
    obtain ⟨sh, p, hrun, hsh, hzero⟩ := createSharing_ok (hpublic ctx hctx) draws
    exact ⟨sh, hrun, hsh.secret.trans hzero,
      fun ctx' hctx' dual => hsh.verify hn hnq (hpublic ctx' hctx') dual⟩
  intro shs hshs hne hlen ids hids ctx _
  have hdealt : ∀ sh ∈ shs, ∃ p, SharingOf S p sh := by
    intro sh hsh
    obtain ⟨ctx', hctx', draws, hrun⟩ := hshs sh hsh
    obtain ⟨sh', p, hrun', hsh', -⟩ := createSharing_ok (hpublic ctx' hctx') draws
    rw [hrun] at hrun'
    cases hrun'
    exact ⟨p, hsh'⟩
  obtain ⟨agg, p, hrun, hagg, hidVec, hsecret⟩ :=
    aggregate_ok ctx shs ids hne hids hdealt
  refine ⟨agg, hrun, ?_, ?_, ?_⟩
  · intro ctx' hctx' dual
    exact hagg.verify hE hn hnq (by rw [hidVec, hids]; exact hlen) (hpublic ctx' hctx') dual
  · intro ctx' hctx' r
    obtain ⟨i, hi, rfl⟩ := Setup.mem_getContext.mp hctx'
    obtain ⟨dec, hdec, -⟩ := hagg.decrypt hi (hsk i hi) r
    exact ⟨dec, hdec, fun ctx'' hctx'' =>
      hagg.verifyDecryption (hpublic ctx'' hctx'') hi (hsk i hi) hdec⟩
  · intro decs hdecs hnodup hmore ctx' hctx'
    have hval : ∀ dec ∈ decs, dec.origin < S.numReplicas ∧
        dec.dec = p.eval (point q dec.origin) • S.g1 := by
      intro dec hdec
      obtain ⟨ctx'', hctx'', r, hrun'⟩ := hdecs dec hdec
      obtain ⟨i, hi, rfl⟩ := Setup.mem_getContext.mp hctx''
      obtain ⟨dec', hdec', horigin, hval, -⟩ := hagg.decrypt hi (hsk i hi) r
      rw [hrun'] at hdec'
      cases hdec'
      exact ⟨horigin ▸ hi, by rw [hval, horigin]⟩
    refine ⟨_, reconstruct_eq (hpublic ctx' hctx') hnq hagg.degree hval hnodup hmore, ?_, ?_⟩
    · rw [← hsecret]
    · intro ctx'' hctx''
      exact hagg.verifyBeacon hE (hpublic ctx'' hctx'')

/-- The curve whose groups are all the field itself, with multiplication as its pairing. -/
def Curve.scalar (q : ℕ) : Curve q (Fr q) (Fr q) (Fr q) where
  pairing := (· * ·)
  finalExponentiation := id
  text₁ := fun x => toString x.val
  text₂ := fun x => toString x.val
  hashToField := fun s => (s.length : Fr q)

theorem Curve.scalar_bilinear : (Curve.scalar q).Bilinear :=
  ⟨LinearMap.mul (Fr q) (Fr q), fun _ _ => rfl⟩

/-- `n` replicas over `Curve.scalar`, replica `i` with the key `i + 1`. -/
def Setup.scalar (q n : ℕ) : Setup q (Fr q) (Fr q) (Fr q) :=
  ⟨Curve.scalar q, n, 1, 1, 1, 1, fun i => ((i + 1 : ℕ) : Fr q)⟩

instance fact_prime_five : Fact (Nat.Prime 5) := ⟨by norm_num⟩

theorem scalar_secretKeys_ne_zero : ∀ i < 4, (Setup.scalar 5 4).secretKeys i ≠ 0 :=
  fun i hi => natCast_succ_ne_zero 5 (by omega : i + 1 < 5)

/-- Two sharings among four replicas, combined into an aggregate that all four accept. -/
theorem completeness_scalar :
    ∃ sh agg, ((Setup.scalar 5 4).context 0).createSharing ⟨fun _ => 2, fun _ => 3, 1⟩ = .ok sh ∧
      sh.secret = 2 ∧
      ((Setup.scalar 5 4).context 1).aggregate [sh, sh] [0, 3] = .ok agg ∧
      ∀ ctx ∈ (Setup.scalar 5 4).getContext, ∀ dual, ctx.verifyAggregation agg dual = .ok true := by
  have hctx : ∀ i < 4, (Setup.scalar 5 4).context i ∈ (Setup.scalar 5 4).getContext :=
    fun i hi => Setup.mem_getContext.mpr ⟨i, hi, rfl⟩
  obtain ⟨hdeal, hrun⟩ := (Setup.scalar 5 4).completeness Curve.scalar_bilinear (by decide)
    (by decide) scalar_secretKeys_ne_zero
  obtain ⟨sh, hsh, hsecret, -⟩ := hdeal _ (hctx 0 (by decide)) ⟨fun _ => 2, fun _ => 3, 1⟩
  have hdealt : ∀ sh' ∈ [sh, sh], ∃ ctx ∈ (Setup.scalar 5 4).getContext, ∃ draws,
      ctx.createSharing draws = .ok sh' := by
    intro sh' hsh'
    have heq : sh' = sh := by simpa using hsh'
    exact ⟨_, hctx 0 (by decide), _, heq ▸ hsh⟩
  obtain ⟨agg, hagg, hverify, -⟩ := hrun [sh, sh] hdealt (by simp)
    (by simp [Setup.numFaults, Setup.scalar]) [0, 3] rfl _ (hctx 1 (by decide))
  exact ⟨sh, agg, hsh, hsecret, hagg, hverify⟩

end Pvss

end OptRand
