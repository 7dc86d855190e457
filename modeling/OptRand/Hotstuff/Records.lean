import OptRand.Hotstuff.Outputs

/-!
# What a replica notes about messages

`Records` is the part of the state that neither the block cache nor the promises touch: the
proposals seen at each height, the certificates and transcripts received, and the chunks of
echoes. Each field has few writers: `Replica.exec_notes` says what each call makes of the records.
-/

namespace OptRand.Hotstuff

open Lib

variable {T : PayloadTypes}

/-- The part of a state that the handlers note messages in. -/
structure Records (T : PayloadTypes) where
  vheight : ℕ
  viewTrans : Bool
  voteDisabled : Bool
  proposals : ℕ → List ℕ
  finishedPropose : ℕ → Bool
  lastProposedView : ℕ
  lastViewCertReceived : ℕ
  viewTranscripts : ℕ → List T.Sharing
  transcriptIds : ℕ → List ℕ
  propChunks : ℕ → List (ℕ × Option T.Chunk)
  qcChunks : ℕ → List (ℕ × Option T.Chunk)

/-- The transcripts that have been noted, with the replicas they are said to be from. -/
def Records.transcripts (r : Records T) : (ℕ → List T.Sharing) × (ℕ → List ℕ) :=
  (r.viewTranscripts, r.transcriptIds)

/-- The calls that change the `Records` of a replica. -/
def Frame.ChangesRecords : Frame T → Prop
  | .onReceiveProposal _ | .checkAggregation _ _ | .onReceiveQc _ | .sendSharing _
  | .onReceiveProposalEcho _ | .onReceiveCertEcho _ | .eraseQcChunks _
  | .onReceivePvssTranscript _ | .doPropose | .finishPropose _ => True
  | _ => False

namespace Replica

/-- The `Records` of a state. -/
def records (s : Replica T) : Records T :=
  ⟨s.vheight, s.viewTrans, s.voteDisabled, s.proposals, s.finishedPropose, s.lastProposedView,
    s.lastViewCertReceived, s.viewTranscripts, s.transcriptIds, s.propChunks, s.qcChunks⟩

/-- What the call `fr` in the state `s` makes of the records. -/
inductive Notes (E : Env T) (s : Replica T) : Frame T → Records T → Prop
  | nothing (fr : Frame T) : Notes E s fr s.records
  | proposal (prop : Proposal) (vheight : ℕ) (proposals : ℕ → List ℕ) :
      Notes E s (.onReceiveProposal prop)
        { s.records with vheight := vheight, proposals := proposals }
  | accepted (prop : Proposal) (opinion : Bool) (finished : ℕ → Bool) :
      Notes E s (.checkAggregation prop opinion) { s.records with finishedPropose := finished }
  | cert (qc : QuorumCert) (hview : s.view ≤ qc.view) (hlast : s.lastViewCertReceived < s.view) :
      Notes E s (.onReceiveQc qc) { s.records with lastViewCertReceived := qc.view }
  | ownTranscript (view forView : ℕ) (sharing : T.Sharing)
      (hown : (s.id + view) % E.nreplicas = s.id)
      (hfor : forView = (2 + (view - 1) / E.nreplicas) * E.nreplicas + s.id + 1)
      (hsharing : (E.pvss s.id).createSharing s.draws = .ok sharing) :
      Notes E s (.sendSharing view) { s.records with
        viewTranscripts := Function.update s.viewTranscripts forView
          (s.viewTranscripts forView ++ [sharing])
        transcriptIds := Function.update s.transcriptIds forView
          (s.transcriptIds forView ++ [s.id]) }
  | transcript (t : PVSSTranscript T)
      (hlen : (s.transcriptIds t.forView).length < E.config.nmajority)
      (hverify : (E.pvss s.id).verifySharing t.pvssTranscript s.draws = .ok true) :
      Notes E s (.onReceivePvssTranscript t) { s.records with
        viewTranscripts := Function.update s.viewTranscripts t.forView
          (s.viewTranscripts t.forView ++ [t.pvssTranscript])
        transcriptIds := Function.update s.transcriptIds t.forView
          (s.transcriptIds t.forView ++ [t.replicaID]) }
  | propChunks (e : Echo T) (chunks : ℕ → List (ℕ × Option T.Chunk)) :
      Notes E s (.onReceiveProposalEcho e) { s.records with propChunks := chunks }
  | qcChunks (e : Echo T) (chunks : ℕ → List (ℕ × Option T.Chunk)) :
      Notes E s (.onReceiveCertEcho e) { s.records with qcChunks := chunks }
  | erased (view : ℕ) :
      Notes E s (.eraseQcChunks view)
        { s.records with qcChunks := Function.update s.qcChunks view [] }
  | ownProposal (vheight : ℕ) (finished : ℕ → Bool) :
      Notes E s .doPropose { s.records with vheight := vheight, finishedPropose := finished }
  | proposed (prop : Proposal) :
      Notes E s (.finishPropose prop) { s.records with lastProposedView := s.view }

variable {s s' : Replica T} {E : Env T}

theorem andThen_records {r : Attempt T} {k : Replica T → Outcome T} {v : Records T}
    (hr : r.rep.records = v) (hk : ∀ s, (k s).rep.records = s.records) :
    (r.andThen k).rep.records = v := by
  unfold Attempt.andThen
  split
  · rw [hk]
    exact hr
  · exact hr

theorem exec_records {fr : Frame T} (h : ¬ fr.ChangesRecords) :
    (s.exec E fr).rep.records = s.records := by
  rw [exec_patch]
  cases fr <;> first | rfl | exact absurd trivial h

@[simp] theorem records_updateHqc {h : ℕ} {qc : QuorumCert} :
    (s.updateHqc h qc).rep.records = s.records := by
  obtain ⟨hqc, tail, heq⟩ := updateHqc_writes (s := s) h qc
  rw [heq]
  rfl

/-! ## Calls that note something -/

/-- What a proposal is noted in before its aggregate is looked at. -/
theorem records_onReceiveProposal (prop : Proposal) : ∃ vheight proposals,
    (s.onReceiveProposal prop).rep.records =
      { s.records with vheight := vheight, proposals := proposals } :=
  ⟨_, _, (congrArg records patch_onReceiveProposal).trans rfl⟩

/-- A proposal with an aggregate that is accepted is finished. -/
theorem records_checkAggregation (prop : Proposal) (opinion : Bool) : ∃ finished,
    (s.checkAggregation E prop opinion).rep.records =
      { s.records with finishedPropose := finished } :=
  ⟨_, (congrArg records patch_checkAggregation).trans rfl⟩

/-- A certificate that passes the guard of `on_receive_qc` is noted by its view. -/
theorem records_onReceiveQc (qc : QuorumCert) :
    ((qc.view < s.view ∨ s.view ≤ s.lastViewCertReceived) ∧
      (s.onReceiveQc E qc).rep.records = s.records) ∨
    (s.view ≤ qc.view ∧ s.lastViewCertReceived < s.view ∧
      (s.onReceiveQc E qc).rep.records = { s.records with lastViewCertReceived := qc.view }) := by
  unfold onReceiveQc
  split
  · rename_i hguard
    exact Or.inl ⟨hguard, rfl⟩
  · rename_i hguard
    obtain ⟨hview, hlast⟩ := not_or.mp hguard
    refine Or.inr ⟨not_lt.mp hview, not_le.mp hlast, ?_⟩
    dsimp only
    split
    · rfl
    · exact andThen_records records_updateHqc fun s => rfl

/-- A sharing for a view that the replica proposes itself is noted. -/
theorem records_sendSharing (view : ℕ) :
    (s.sendSharing E view).rep.records = s.records ∨
    ∃ sharing forView, (s.id + view) % E.nreplicas = s.id ∧
      forView = (2 + (view - 1) / E.nreplicas) * E.nreplicas + s.id + 1 ∧
      (E.pvss s.id).createSharing s.draws = .ok sharing ∧
      (s.sendSharing E view).rep.records = { s.records with
        viewTranscripts := Function.update s.viewTranscripts forView
          (s.viewTranscripts forView ++ [sharing])
        transcriptIds := Function.update s.transcriptIds forView
          (s.transcriptIds forView ++ [s.id]) } := by
  unfold sendSharing
  dsimp only
  split
  · exact Or.inl rfl
  · rename_i sharing hsharing
    by_cases hp : s.drawn.pm.proposer = s.drawn.id
    all_goals
      simp only [hp, if_true, if_false]
      split
      · rename_i hown
        have hown : (s.id + view) % E.nreplicas = s.id := hown
        refine Or.inr ⟨sharing, _, hown, rfl, hsharing, ?_⟩
        rw [hown]
        rfl
      · exact Or.inl rfl

/-- A transcript is noted until there are `nmajority`. -/
theorem records_onReceivePvssTranscript (t : PVSSTranscript T) :
    (s.onReceivePvssTranscript E t).rep.records = s.records ∨
    ((s.transcriptIds t.forView).length < E.config.nmajority ∧
      (E.pvss s.id).verifySharing t.pvssTranscript s.draws = .ok true ∧
      (s.onReceivePvssTranscript E t).rep.records = { s.records with
        viewTranscripts := Function.update s.viewTranscripts t.forView
          (s.viewTranscripts t.forView ++ [t.pvssTranscript])
        transcriptIds := Function.update s.transcriptIds t.forView
          (s.transcriptIds t.forView ++ [t.replicaID]) }) := by
  unfold onReceivePvssTranscript
  dsimp only
  split
  · exact Or.inl rfl
  · rename_i hlen
    split
    · exact Or.inl rfl
    · exact Or.inl rfl
    · rename_i hverify
      refine Or.inr ⟨not_le.mp hlen, hverify, ?_⟩
      repeat' split
      all_goals rfl

theorem records_onReceiveProposalEcho (e : Echo T) : ∃ chunks,
    (s.onReceiveProposalEcho E e).rep.records = { s.records with propChunks := chunks } :=
  ⟨_, (congrArg records patch_onReceiveProposalEcho).trans rfl⟩

theorem records_onReceiveCertEcho (e : Echo T) : ∃ chunks,
    (s.onReceiveCertEcho E e).rep.records = { s.records with qcChunks := chunks } :=
  ⟨_, (congrArg records patch_onReceiveCertEcho).trans rfl⟩

/-- `do_propose` notes its own proposal as finished. -/
theorem records_doPropose : ∃ vheight finished,
    (s.doPropose E).rep.records =
      { s.records with vheight := vheight, finishedPropose := finished } :=
  ⟨_, _, (congrArg records patch_doPropose).trans rfl⟩

theorem records_finishPropose (prop : Proposal) :
    (s.finishPropose prop).rep.records = { s.records with lastProposedView := s.view } := by
  unfold finishPropose
  dsimp only
  split <;> rfl

/-! ## What one call notes -/

theorem exec_notes (fr : Frame T) : Notes E s fr (s.exec E fr).rep.records := by
  by_cases hr : fr.ChangesRecords
  · cases fr <;> try exact False.elim hr
    case onReceiveProposal prop =>
      obtain ⟨vheight, proposals, h⟩ := records_onReceiveProposal (s := s) prop
      rw [exec, h]
      exact Notes.proposal prop vheight proposals
    case checkAggregation prop opinion =>
      obtain ⟨finished, h⟩ := records_checkAggregation (s := s) (E := E) prop opinion
      rw [exec, h]
      exact Notes.accepted prop opinion finished
    case onReceiveQc qc =>
      rcases records_onReceiveQc (s := s) (E := E) qc with ⟨-, h⟩ | ⟨hview, hlast, h⟩
      · rw [exec, h]
        exact Notes.nothing _
      · rw [exec, h]
        exact Notes.cert qc hview hlast
    case sendSharing view =>
      rcases records_sendSharing (s := s) (E := E) view with
        h | ⟨sharing, forView, hown, hfor, hsharing, h⟩
      · rw [exec, h]
        exact Notes.nothing _
      · rw [exec, h]
        exact Notes.ownTranscript view forView sharing hown hfor hsharing
    case onReceiveProposalEcho e =>
      obtain ⟨chunks, h⟩ := records_onReceiveProposalEcho (s := s) (E := E) e
      rw [exec, h]
      exact Notes.propChunks e chunks
    case onReceiveCertEcho e =>
      obtain ⟨chunks, h⟩ := records_onReceiveCertEcho (s := s) (E := E) e
      rw [exec, h]
      exact Notes.qcChunks e chunks
    case eraseQcChunks view => exact Notes.erased view
    case onReceivePvssTranscript t =>
      rcases records_onReceivePvssTranscript (s := s) (E := E) t with h | ⟨hlen, hverify, h⟩
      · rw [exec, h]
        exact Notes.nothing _
      · rw [exec, h]
        exact Notes.transcript t hlen hverify
    case doPropose =>
      obtain ⟨vheight, finished, h⟩ := records_doPropose (s := s) (E := E)
      rw [exec, h]
      exact Notes.ownProposal vheight finished
    case finishPropose prop =>
      rw [exec, records_finishPropose]
      exact Notes.proposed prop
  · rw [exec_records hr]
    exact Notes.nothing fr

/-- Only `on_receive_qc` notes the view of a certificate. -/
theorem exec_lastViewCertReceived (fr : Frame T) :
    (s.exec E fr).rep.lastViewCertReceived = s.lastViewCertReceived ∨
    ∃ qc, fr = .onReceiveQc qc ∧ s.view ≤ qc.view ∧ s.lastViewCertReceived < s.view ∧
      (s.exec E fr).rep.lastViewCertReceived = qc.view := by
  have hnotes := exec_notes (s := s) (E := E) fr
  change (s.exec E fr).rep.records.lastViewCertReceived = _ ∨ ∃ qc, _ ∧ _ ∧ _ ∧
    (s.exec E fr).rep.records.lastViewCertReceived = _
  generalize (s.exec E fr).rep.records = r at hnotes ⊢
  cases hnotes with
  | cert qc hview hlast => exact Or.inr ⟨qc, rfl, hview, hlast, rfl⟩
  | _ => exact Or.inl rfl

/-- Transcripts are noted when they are received, and when the replica makes one for itself. -/
theorem exec_transcripts (fr : Frame T) :
    ((s.exec E fr).rep.viewTranscripts = s.viewTranscripts ∧
      (s.exec E fr).rep.transcriptIds = s.transcriptIds) ∨
    ∃ w sharing sender, (s.exec E fr).rep.viewTranscripts =
        Function.update s.viewTranscripts w (s.viewTranscripts w ++ [sharing]) ∧
      (s.exec E fr).rep.transcriptIds =
        Function.update s.transcriptIds w (s.transcriptIds w ++ [sender]) ∧
      ((∃ t, fr = .onReceivePvssTranscript t ∧ t.forView = w ∧ t.pvssTranscript = sharing ∧
          t.replicaID = sender ∧ (s.transcriptIds w).length < E.config.nmajority ∧
          (E.pvss s.id).verifySharing sharing s.draws = .ok true) ∨
        ∃ view, fr = .sendSharing view ∧ (s.id + view) % E.nreplicas = s.id ∧
          w = (2 + (view - 1) / E.nreplicas) * E.nreplicas + s.id + 1 ∧ sender = s.id ∧
          (E.pvss s.id).createSharing s.draws = .ok sharing) := by
  have hnotes := exec_notes (s := s) (E := E) fr
  have htranscripts : (s.exec E fr).rep.viewTranscripts =
      (s.exec E fr).rep.records.viewTranscripts := rfl
  have hids : (s.exec E fr).rep.transcriptIds = (s.exec E fr).rep.records.transcriptIds := rfl
  rw [htranscripts, hids]
  generalize (s.exec E fr).rep.records = r at hnotes ⊢
  cases hnotes with
  | ownTranscript view forView sharing hown hfor hsharing =>
    exact Or.inr ⟨forView, sharing, s.id, rfl, rfl,
      Or.inr ⟨view, rfl, hown, hfor, rfl, hsharing⟩⟩
  | transcript t hlen hverify =>
    exact Or.inr ⟨t.forView, t.pvssTranscript, t.replicaID, rfl, rfl,
      Or.inl ⟨t, rfl, rfl, rfl, rfl, hlen, hverify⟩⟩
  | _ => exact Or.inl ⟨rfl, rfl⟩

end Replica

end OptRand.Hotstuff
