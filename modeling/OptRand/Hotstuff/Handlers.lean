import OptRand.Hotstuff.System

/-!
# What the handlers do with their messages

The handlers of proposals and of echoes drop most messages by checks at their beginning. Each of
them is inverted here once: it drops its message and leaves the state alone, or the message passes
the checks and the rest of the handler runs (`Replica.onReceiveProposal_judge`,
`Replica.onReceiveProposalEcho_eq`, `Replica.onReceiveCertEcho_eq`).
-/

namespace OptRand.Hotstuff

open Lib

variable {T : PayloadTypes}

/-- The two kinds of echoes. -/
inductive EchoKind
  | proposal
  | cert

/-- The call that handles an echo. -/
def EchoKind.frame : EchoKind → Echo T → Frame T
  | .proposal, e => .onReceiveProposalEcho e
  | .cert, e => .onReceiveCertEcho e

/-- The key of an echo in a map of chunks. -/
def Echo.key (e : Echo T) : ℕ := toReplicaID e.idx

namespace Replica

variable {s : Replica T} {E : Env T} {e : Echo T}

/-! ## Proposals -/

/-- A proposal that `on_receive_proposal` does not drop. -/
def Takes (s : Replica T) (prop : Proposal) : Prop :=
  s.viewTrans = false ∧ s.finishedPropose prop.blk = false

/-- The blocks noted at the height of a proposal, with its block. -/
def slotWith (s : Replica T) (prop : Proposal) (bnew : Block T) : List ℕ :=
  if prop.blk ∈ s.proposals bnew.height then s.proposals bnew.height
  else s.proposals bnew.height ++ [prop.blk]

/-- No other block is noted at the height of a proposal. -/
def firstAt (s : Replica T) (prop : Proposal) (bnew : Block T) : Bool :=
  (s.proposals bnew.height).length ≤ 1 && (s.slotWith prop bnew).length ≤ 1

/-- `on_receive_proposal` from the equivocation check on. -/
def judge (prop : Proposal) (bnew : Block T) (s : Replica T) : Outcome T :=
  let noted : Replica T := if (s.proposals bnew.height).length ≤ 1 then
    { s with proposals := Function.update s.proposals bnew.height (s.slotWith prop bnew) } else s
  match if s.firstAt prop bnew then noted.branchAt noted.hqc.1 prop.blk else .ok prop.blk with
  | .error e => noted.raise e
  | .ok b =>
    let opinion := s.firstAt prop bnew && b == noted.hqc.1
    let s : Replica T := if opinion then { noted with vheight := bnew.height } else noted
    match bnew.qcRef with
    | some ref => s.call [.onQcFinish ref, .checkAggregation prop opinion]
    | none => s.call [.checkAggregation prop opinion]

/-- `on_receive_proposal` up to the equivocation check. -/
def adopt (s : Replica T) (bnew : Block T) : Attempt T :=
  match bnew.qcRef, bnew.qc with
  | some ref, some qc => s.updateHqc ref qc
  | some _, none => .error (s, .undefined)
  | none, _ => .ok s

/-- A proposal is dropped, or its delivered block is adopted and judged. -/
theorem onReceiveProposal_judge (s : Replica T) (prop : Proposal) :
    (∃ err, s.onReceiveProposal prop = ⟨s, [], [], err⟩) ∨
    ∃ bnew, s.Takes prop ∧ s.blkCache prop.blk = some bnew ∧ bnew.delivered = true ∧
      s.onReceiveProposal prop = (s.adopt bnew).andThen (judge prop bnew) := by
  unfold onReceiveProposal
  split
  · exact Or.inl ⟨_, rfl⟩
  · rename_i htrans
    split
    · exact Or.inl ⟨_, rfl⟩
    · rename_i hfinished
      split
      · exact Or.inl ⟨_, rfl⟩
      · rename_i bnew hb
        split
        · exact Or.inl ⟨_, rfl⟩
        · rename_i hdel
          have htakes : s.Takes prop := ⟨by simpa using htrans, by simpa using hfinished⟩
          exact Or.inr ⟨bnew, htakes, hb, by simpa using hdel, rfl⟩

theorem rep_judge (prop : Proposal) (bnew : Block T) (s : Replica T) : ∃ vheight proposals,
    (judge prop bnew s).rep = { s with vheight := vheight, proposals := proposals } := by
  unfold judge
  dsimp only
  repeat' split
  all_goals exact ⟨_, _, rfl⟩

/-! ## Echoes -/

/-- The chunks collected for each view. -/
def chunks (s : Replica T) : EchoKind → ℕ → List (ℕ × Option T.Chunk)
  | .proposal => s.propChunks
  | .cert => s.qcChunks

/-- The view in which something was decoded last. -/
def lastDecodedView (s : Replica T) : EchoKind → ℕ
  | .proposal => s.lastProposeDecodedView
  | .cert => s.lastCertDecodedView

/-- An echo passes the checks of its handler. -/
def accepts (E : Env T) (s : Replica T) (kind : EchoKind) (e : Echo T) : Bool :=
  decide (s.view ≤ e.view ∧ s.lastDecodedView kind < s.view ∧
    (s.chunks kind e.view).length ≤ E.config.nreconthres) &&
      E.dispersal.verifyPath e.merkleProof e.merkleRoot

/-- There is no chunk at the index of an echo. -/
def fresh (s : Replica T) (kind : EchoKind) (e : Echo T) : Bool :=
  (chunkAt (s.chunks kind e.view) e.key).isNone

/-- The chunks of a view after an echo. -/
def collected (s : Replica T) (kind : EchoKind) (e : Echo T) : List (ℕ × Option T.Chunk) :=
  if s.fresh kind e then setChunk (s.chunks kind e.view) e.key e.chunk
  else s.chunks kind e.view

/-- An echo leads to `Erasure::decode`. -/
def decodes (E : Env T) (s : Replica T) (kind : EchoKind) (e : Echo T) : Bool :=
  s.accepts E kind e &&
    decide ((if s.fresh kind e then (s.chunks kind e.view).length + 1
      else (s.chunks kind e.view).length) = E.config.nreconthres)

/-- What `Erasure::decode` is called with. -/
def decodeInput (E : Env T) (s : Replica T) (kind : EchoKind) (e : Echo T) :
    List (Option T.Chunk) :=
  (List.range E.nreplicas).map (chunkAt (s.collected kind e))

/-- The state in which a proposal is decoded. -/
def proposalDecoding (s : Replica T) (e : Echo T) : Replica T :=
  { s with
    lastProposeDecodedView := s.view
    propChunks := Function.update s.propChunks e.view (s.collected .proposal e) }

/-- The state in which a certificate is decoded. -/
def certDecoding (E : Env T) (s : Replica T) (e : Echo T) : Replica T :=
  { s with
    lastCertDecodedView := s.view
    qcChunks := Function.update (Function.update s.qcChunks e.view (s.collected .cert e)) e.view
      (touchChunks E.nreplicas (s.collected .cert e)) }

/-- The state without the chunks of a proposal that has been decoded. -/
def eraseChunks (s : Replica T) (view : ℕ) : Replica T :=
  { s with propChunks := Function.update s.propChunks view [] }

/-- What is done with a proposal that has been decoded. -/
def proposalDecoded (E : Env T) (s : Replica T) (e : Echo T) (content : ProposalContent T) :
    Outcome T :=
  let h := E.hash content.blk
  ((((s.proposalDecoding e).eraseChunks e.view).addBlk (content.blk.toBlock h)).deliverBlk
    h).andThen fun s => s.call [.onReceiveProposal ⟨content.proposer, h, content.view⟩]

theorem accepts_iff {kind : EchoKind} : s.accepts E kind e = true ↔
    (s.view ≤ e.view ∧ s.lastDecodedView kind < s.view ∧
      (s.chunks kind e.view).length ≤ E.config.nreconthres) ∧
        E.dispersal.verifyPath e.merkleProof e.merkleRoot = true := by
  unfold accepts
  rw [Bool.and_eq_true, decide_eq_true_iff]

/-- How many chunks there are after an echo. -/
theorem decodes_iff {kind : EchoKind} : s.decodes E kind e = true ↔ s.accepts E kind e = true ∧
    (if s.fresh kind e then (s.chunks kind e.view).length + 1
      else (s.chunks kind e.view).length) = E.config.nreconthres := by
  unfold decodes
  rw [Bool.and_eq_true, decide_eq_true_iff]

/-- The checks of both handlers. -/
theorem ite_accepts (E : Env T) (s : Replica T) (kind : EchoKind) (e : Echo T)
    (body : Outcome T) :
    (if e.view < s.view ∨ s.lastDecodedView kind ≥ s.view then s.done
      else if !E.dispersal.verifyPath e.merkleProof e.merkleRoot then s.done
      else if (s.chunks kind e.view).length > E.config.nreconthres then s.done
      else body) = if s.accepts E kind e then body else s.done := by
  by_cases haccepts : s.accepts E kind e = true
  · obtain ⟨⟨hview, hlast, hlen⟩, hpath⟩ := accepts_iff.mp haccepts
    have hguard : ¬ (e.view < s.view ∨ s.lastDecodedView kind ≥ s.view) :=
      not_or.mpr ⟨not_lt.mpr hview, not_le.mpr hlast⟩
    rw [if_pos haccepts, if_neg hguard, if_neg (by simp [hpath]), if_neg (not_lt.mpr hlen)]
  · rw [if_neg haccepts]
    split
    · rfl
    · rename_i hguard
      obtain ⟨hview, hlast⟩ := not_or.mp hguard
      split
      · rfl
      · rename_i hpath
        split
        · rfl
        · rename_i hlen
          refine absurd (accepts_iff.mpr ⟨⟨?_, ?_, ?_⟩, ?_⟩) haccepts
          · exact not_lt.mp hview
          · exact not_le.mp hlast
          · exact not_lt.mp hlen
          · simpa using hpath

/-- The handler of an echo of a proposal, by whether it accepts the echo and decodes. -/
theorem onReceiveProposalEcho_eq (e : Echo T) :
    (s.accepts E .proposal e = false ∧ s.onReceiveProposalEcho E e = s.done) ∨
    (s.accepts E .proposal e = true ∧ s.decodes E .proposal e = false ∧
      s.onReceiveProposalEcho E e = done { s with
        propChunks := Function.update s.propChunks e.view (s.collected .proposal e) }) ∨
    (s.decodes E .proposal e = true ∧ s.onReceiveProposalEcho E e =
      match E.dispersal.decodeProposal E.config.nreconthres
          (E.nreplicas - E.config.nreconthres) e.chunk (s.decodeInput E .proposal e) with
      | .error err => (s.proposalDecoding e).raise err
      | .ok content => s.proposalDecoded E e content) := by
  have heq : s.onReceiveProposalEcho E e = if s.accepts E .proposal e then _ else s.done :=
    ite_accepts E s .proposal e _
  rw [heq]
  by_cases haccepts : s.accepts E .proposal e = true
  · rw [if_pos haccepts]
    refine Or.inr ?_
    by_cases hdecodes : s.decodes E .proposal e = true
    · exact Or.inr ⟨hdecodes, if_pos (decodes_iff.mp hdecodes).2⟩
    · refine Or.inl ⟨haccepts, Bool.eq_false_iff.mpr hdecodes, ?_⟩
      exact if_neg fun hsize => hdecodes (decodes_iff.mpr ⟨haccepts, hsize⟩)
  · exact Or.inl ⟨Bool.eq_false_iff.mpr haccepts, if_neg haccepts⟩

/-- The handler of an echo of a certificate. -/
theorem onReceiveCertEcho_eq (e : Echo T) :
    (s.accepts E .cert e = false ∧ s.onReceiveCertEcho E e = s.done) ∨
    (s.accepts E .cert e = true ∧ s.decodes E .cert e = false ∧
      s.onReceiveCertEcho E e = done { s with
        qcChunks := Function.update s.qcChunks e.view (s.collected .cert e) }) ∨
    (s.decodes E .cert e = true ∧ s.onReceiveCertEcho E e =
      match E.dispersal.decodeCert E.config.nreconthres
          (E.nreplicas - E.config.nreconthres) e.chunk (s.decodeInput E .cert e) with
      | .error err => (s.certDecoding E e).raise err
      | .ok qc => (s.certDecoding E e).call [.onReceiveQc qc, .eraseQcChunks e.view]) := by
  have heq : s.onReceiveCertEcho E e = if s.accepts E .cert e then _ else s.done :=
    ite_accepts E s .cert e _
  rw [heq]
  by_cases haccepts : s.accepts E .cert e = true
  · rw [if_pos haccepts]
    refine Or.inr ?_
    by_cases hdecodes : s.decodes E .cert e = true
    · exact Or.inr ⟨hdecodes, if_pos (decodes_iff.mp hdecodes).2⟩
    · refine Or.inl ⟨haccepts, Bool.eq_false_iff.mpr hdecodes, ?_⟩
      exact if_neg fun hsize => hdecodes (decodes_iff.mpr ⟨haccepts, hsize⟩)
  · exact Or.inl ⟨Bool.eq_false_iff.mpr haccepts, if_neg haccepts⟩

end Replica

end OptRand.Hotstuff
