import OptRand.Hotstuff.Outputs
import OptRand.Hotstuff.Scripts

/-!
# What a signature binds

Votes, acknowledgements and echoes are signatures of a bare digest: `create_part_cert` signs
the hash of a block or a Merkle root, without the kind of message and without the view. So
every signature of an honest replica for a digest can be shown as its vote or its
acknowledgement in any view, and a verified one tells no more than that the replica signed
that digest in some call (`System.binds_iff`).
-/

namespace OptRand.Hotstuff

open Lib

variable {T : PayloadTypes}

/-- `Vote::verify`. -/
def Vote.verify (E : Env T) (vote : Vote) : Except Error Bool := do
  let pubkey ← E.config.getPubkey vote.voter
  return vote.cert.verify SigScheme.ideal pubkey && vote.cert.objHash == vote.blkHash

/-- `Ack::verify`. -/
def Ack.verify (E : Env T) (ack : Ack) : Except Error Bool := do
  let pubkey ← E.config.getPubkey ack.voter
  return ack.cert.verify SigScheme.ideal pubkey && ack.cert.objHash == ack.blkHash

/-! ## Ideal signatures -/

namespace System

variable (E : Env T) (F : Faults T)

/-- Replica `i` has signed a digest. -/
def Signed (σ : System T) (i digest : ℕ) : Prop :=
  ∃ kind view, σ.Emitted E i (.signed kind digest view)

/-- Ideal signatures: one of an honest replica exists only when the replica has made it. -/
def Unforged (σ : System T) (sig : Signature) : Prop :=
  Honest E F sig.signer → σ.Signed E sig.signer sig.digest

/-- The verified acknowledgements of `r` for `h` that can exist are what they say. -/
def AcksBound (σ : System T) (r h : ℕ) : Prop :=
  ∀ ack : Ack, ack.voter = r → ack.blkHash = h → Unforged E F σ ack.cert.sig →
    ack.verify E = .ok true → σ.Ran r (.ack h) ack.view

/-- The verified certificates for `h` with the signer `r` that can exist are what they say. -/
def VotesBound (σ : System T) (r h : ℕ) : Prop :=
  ∀ qc : QuorumCert, qc.objHash = h → (∀ sig ∈ qc.signatures, Unforged E F σ sig) →
    qc.verify SigScheme.ideal E.config = .ok true → r ∈ qc.signers →
    ∃ proposer, σ.Ran r (.vote h proposer) qc.view

variable {E F} {σ : System T} {r h : ℕ}

theorem verify_ack_iff {ack : Ack} (hr : ack.voter < E.nreplicas) :
    ack.verify E = .ok true ↔
      ack.cert.objHash = ack.blkHash ∧ ack.cert.sig = ⟨ack.voter, ack.blkHash⟩ := by
  have hkey : E.config.getPubkey ack.voter = .ok ack.voter := ReplicaConfig.getPubkey_start hr
  unfold Ack.verify
  rw [hkey, ok_bind, pure_eq_ok, Except.ok.injEq, Bool.and_eq_true, beq_iff_eq]
  unfold PartCertSecp256k1.verify
  constructor
  · rintro ⟨hsig, hobj⟩
    have hsig : ack.cert.sig.signer = ack.voter ∧ ack.cert.sig.digest = ack.cert.objHash := by
      simpa using hsig
    refine ⟨hobj, ?_⟩
    rw [← hobj, ← hsig.1, ← hsig.2]
  · rintro ⟨hobj, hsig⟩
    exact ⟨by simp [hsig, hobj], hobj⟩

/-- A verified certificate holds a signature of each of its signers. -/
theorem signature_of_verify {qc : QuorumCert}
    (hqc : qc.verify SigScheme.ideal E.config = .ok true) (hr : r ∈ qc.signers) :
    ⟨r, qc.objHash⟩ ∈ qc.signatures := by
  obtain ⟨i, hi, rfl⟩ := QuorumCertSecp256k1.mem_signers.mp hr
  have hpart := (QuorumCertSecp256k1.verify_eq_true.mp hqc).2 i hi
  unfold QuorumCertSecp256k1.verifyPart at hpart
  obtain ⟨pk, hpk, hsig⟩ := bind_eq_ok.mp hpart
  split at hsig
  · rename_i sig hat
    have hlt := ReplicaConfig.lt_of_getPubkey_start hpk
    have hkey := (ReplicaConfig.getPubkey_start hlt).symm.trans hpk
    cases hkey
    have hsig : sig.signer = toReplicaID i ∧ sig.digest = qc.objHash := by
      simpa [pure_eq_ok] using hsig
    obtain ⟨front, back, hsigs, -⟩ := List.lookup_eq_some_iff.mp hat
    have hk : (toReplicaID i, sig) ∈ qc.sigs := by
      rw [hsigs]
      exact List.mem_append_right _ List.mem_cons_self
    have heq : sig = ⟨toReplicaID i, qc.objHash⟩ := by
      rw [← hsig.1, ← hsig.2]
    rw [← heq]
    exact List.mem_map.mpr ⟨_, hk, rfl⟩
  · cases hsig

/-- A view in which no call of the trace ran. -/
theorem exists_view_not_ran (σ : System T) : ∃ v, ∀ r fr, ¬ σ.Ran r fr v := by
  refine ⟨(σ.trace.map fun e => e.rep.view).sum + 1, ?_⟩
  rintro r fr ⟨e, he, -, -, hview⟩
  have hle := List.single_le_sum (l := σ.trace.map fun e => e.rep.view) (by simp) _
    (List.mem_map.mpr ⟨e, he, rfl⟩)
  omega

/-- What is shown as an acknowledgement or in a certificate of an honest replica for `h` is
one, for all views, exactly as long as the replica has signed nothing with the digest `h`: after
that, its signature verifies as an acknowledgement in every view. -/
theorem binds_iff (E : Env T) (F : Faults T) (σ : System T) (r h : ℕ) (hr : Honest E F r) :
    AcksBound E F σ r h ∧ VotesBound E F σ r h ↔ ¬ σ.Signed E r h := by
  constructor
  · rintro ⟨hacks, -⟩ hsigned
    obtain ⟨v, hv⟩ := exists_view_not_ran σ
    exact hv r _ (hacks ⟨r, h, createPartCert r h v, v⟩ rfl rfl (fun _ => hsigned)
      ((verify_ack_iff hr.1).mpr ⟨rfl, rfl⟩))
  · intro hsigned
    constructor
    · intro ack hvoter hblk hunforged hverify
      subst hvoter hblk
      have hsig := ((verify_ack_iff hr.1).mp hverify).2
      rw [hsig] at hunforged
      exact absurd (hunforged hr) hsigned
    · intro qc hobj hunforged hverify hsigner
      subst hobj
      exact absurd (hunforged _ (signature_of_verify hverify hsigner) hr) hsigned

/-! ## A vote shown as an acknowledgement -/

/-- The first proposal of replica `0`. -/
def firstBlock : BlockContent plainTypes :=
  ⟨[voteEnv.genesis], [], some (QuorumCertSecp256k1.create voteEnv.genesis 0), voteEnv.genesis,
    (11 : ℕ)⟩

/-- Another block on top of the genesis block. -/
def secondBlock : BlockContent plainTypes := { firstBlock with extra := (12 : ℕ) }

/-- A block on top of the first one. -/
def childBlock : BlockContent plainTypes :=
  { firstBlock with parentHashes := [voteEnv.hash firstBlock], extra := (12 : ℕ) }

/-- An acknowledgement of `h` in view `1`, with a signature of replica `r`. -/
def shownAck (r h : ℕ) : Ack := ⟨r, h, createPartCert r h 1, 1⟩

/-- Replica `0` has its proposal voted for by replica `1` and shows the signature to replica `2`
as an acknowledgement. -/
def voteAsAck : List (Scripted plainTypes) :=
  [.inject 0 1 (.propose ⟨0, firstBlock, 1⟩), .inject 0 2 (.propose ⟨0, firstBlock, 1⟩),
    .inject 0 2 (.ack (shownAck 1 (voteEnv.hash firstBlock))), .verify 2]

/-- Whether a call is an acknowledgement. -/
def isAck : Frame plainTypes → Bool
  | .ack _ => true
  | _ => false

/-- Whether an output is a signature of a digest. -/
def isSigned (digest : ℕ) : Output plainTypes → Bool
  | .signed _ d _ => d == digest
  | _ => false

/-- The block that an output is the signature of a vote for, in the given view. -/
def votedIn (view : ℕ) : Output plainTypes → Option ℕ
  | .signed .vote b v => if v = view then some b else none
  | _ => none

theorem eq_of_votedIn {view b : ℕ} {out : Output plainTypes} (h : votedIn view out = some b) :
    out = .signed .vote b view := by
  unfold votedIn at h
  split at h
  · split at h
    · rename_i hview
      cases h
      rw [hview]
    · cases h
  · cases h

/-- The blocks that replica `i` has voted for in a view. -/
def votesIn (E : Env plainTypes) (σ : System plainTypes) (i view : ℕ) : List ℕ :=
  (σ.history i).flatMap fun e => (e.outcome E).out.filterMap (votedIn view)

theorem emitted_of_mem_votesIn {E : Env plainTypes} {σ : System plainTypes} {i view b : ℕ}
    (h : b ∈ votesIn E σ i view) : σ.Emitted E i (.signed .vote b view) := by
  obtain ⟨e, he, hb⟩ := List.mem_flatMap.mp h
  obtain ⟨out, hout, hvoted⟩ := List.mem_filterMap.mp hb
  rw [eq_of_votedIn hvoted] at hout
  exact ⟨e, (mem_history.mp he).1, (mem_history.mp he).2, hout⟩

/-- Whether replica `1` has signed a digest. -/
def signedByFirst (digest : ℕ) (σ : System plainTypes) : Bool :=
  σ.trace.any fun e => e.node == 1 && (e.outcome voteEnv).out.any (isSigned digest)

theorem signed_iff_check {σ : System plainTypes} {digest : ℕ} :
    σ.Signed voteEnv 1 digest ↔ signedByFirst digest σ = true := by
  simp only [signedByFirst, List.any_eq_true, Bool.and_eq_true, beq_iff_eq]
  constructor
  · rintro ⟨kind, view, e, he, hnode, hout⟩
    exact ⟨e, he, hnode, _, hout, by simp [isSigned]⟩
  · rintro ⟨e, he, hnode, out, hout, hsigned⟩
    cases out with
    | signed kind d v =>
      cases eq_of_beq hsigned
      exact ⟨kind, v, e, he, hnode, hout⟩
    | _ => cases hsigned

/-- Replica `1` votes for the first block. Its signature is bound for another one only. -/
theorem binds_voteEnv : ∃ σ : System plainTypes, Reachable voteEnv firstByzantine σ ∧
    ¬ (AcksBound voteEnv firstByzantine σ 1 (voteEnv.hash firstBlock) ∧
      VotesBound voteEnv firstByzantine σ 1 (voteEnv.hash firstBlock)) ∧
    AcksBound voteEnv firstByzantine σ 1 (voteEnv.hash secondBlock) ∧
    VotesBound voteEnv firstByzantine σ 1 (voteEnv.hash secondBlock) := by
  obtain ⟨σ, hrun, htest⟩ := exists_reachable_of_play voteEnv firstByzantine voteAsAck
    (fun σ => signedByFirst (voteEnv.hash firstBlock) σ &&
      !signedByFirst (voteEnv.hash secondBlock) σ) (by decide +kernel)
  rw [Bool.and_eq_true, Bool.not_eq_true', ← signed_iff_check] at htest
  obtain ⟨hfirst, hsecond⟩ := htest
  refine ⟨σ, hrun, fun hbound => ?_, ?_⟩
  · exact (binds_iff voteEnv firstByzantine σ 1 _ (by decide)).mp hbound hfirst
  · apply (binds_iff voteEnv firstByzantine σ 1 _ (by decide)).mpr
    rw [signed_iff_check, hsecond]
    exact Bool.false_ne_true

/-- Replica `2` counts an acknowledgement by replica `1`, which has not acknowledged. -/
theorem vote_counted_as_ack : ∃ (σ : System plainTypes) (ack : Ack) (blk : Block plainTypes),
    Reachable voteEnv firstByzantine σ ∧ Honest voteEnv firstByzantine ack.voter ∧
    Unforged voteEnv firstByzantine σ ack.cert.sig ∧ ack.verify voteEnv = .ok true ∧
    (σ.nodes 2).rep.blkCache ack.blkHash = some blk ∧ ack.voter ∈ blk.acked ∧
    ¬ σ.Ran ack.voter (.ack ack.blkHash) ack.view := by
  obtain ⟨σ, hrun, htest⟩ := exists_reachable_of_play voteEnv firstByzantine voteAsAck
    (fun σ => ((σ.nodes 2).rep.blkCache (voteEnv.hash firstBlock)).any
        (fun b : Block plainTypes => decide (1 ∈ b.acked)) &&
      (signedByFirst (voteEnv.hash firstBlock) σ &&
      σ.trace.all fun e => !(e.node == 1 && isAck e.frame))) (by decide +kernel)
  simp only [Bool.and_eq_true, Option.any_eq_true, decide_eq_true_eq, ← signed_iff_check,
    List.all_eq_true, Bool.not_eq_true', Bool.and_eq_false_iff] at htest
  obtain ⟨⟨blk, hblk, hacked⟩, hsigned, hno⟩ := htest
  have hverify : (shownAck 1 (voteEnv.hash firstBlock)).verify voteEnv = .ok true :=
    (verify_ack_iff (show 1 < 3 by decide)).mpr ⟨rfl, rfl⟩
  refine ⟨σ, shownAck 1 (voteEnv.hash firstBlock), blk, hrun, by decide, fun _ => hsigned, hverify,
    hblk, hacked, ?_⟩
  rintro ⟨e, he, hnode, hframe, -⟩
  rcases hno e he with h | h
  · exact beq_eq_false_iff_ne.mp h hnode
  · rw [hframe] at h
    cases h

end System

end OptRand.Hotstuff
