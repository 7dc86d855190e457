import OptRand.Hotstuff.Cache
import OptRand.Hotstuff.Records
import OptRand.Hotstuff.Runs

/-!
# Who calls whom

Votes, certificates and proposals pass through calls that have few callers. `Calls` lists the
callers of these, with what the caller has checked (`Replica.calls_exec`); the other calls are the
ones of promises, timers and the pacemaker. Most of the listed calls run directly after their
caller, in the state that it left (`System.Run.caller`); the rest of them may have to wait for
callbacks of promises.
-/

namespace OptRand.Hotstuff

open Lib

variable {T : PayloadTypes}

/-- The calls that run directly after their caller. -/
def Frame.Direct : Frame T → Prop
  | .onDeliverBlk _ | .onReceiveProposal _ | .vote _ _ | .onReceiveVote _ | .onReceiveStatus _
  | .onReceiveQc _ | .onReceiveAck _ | .onReceiveProposalEcho _ | .onReceiveCertEcho _
  | .doPropose => True
  | _ => False

/-- The calls that wait for others that their caller makes before them. -/
def Frame.Deferred : Frame T → Prop
  | .checkAggregation _ _ | .proposalVote _ _ | .ack _ | .onPropose_ _ => True
  | _ => False

/-- The calls that make a listed call. -/
def Frame.Caller : Frame T → Prop
  | .run _ _ | .onReceiveProposalEcho _ | .onReceiveCertEcho _ | .onReceiveProposal _
  | .checkAggregation _ _ | .proposalVote _ _ | .vote _ _ | .onReceiveVote _ | .onReceiveQc _
  | .ack _ | .sendStatus | .onReceiveStatus _ | .onProposeTimer | .doPropose => True
  | _ => False

namespace Replica

/-- The certificate that is decoded on an echo. -/
def certDecodedBy (E : Env T) (s : Replica T) (e : Echo T) : Except Error QuorumCert :=
  E.dispersal.decodeCert E.config.nreconthres (E.nreplicas - E.config.nreconthres) e.chunk
    ((List.range E.nreplicas).map (chunkAt
      (if (chunkAt (s.qcChunks e.view) (toReplicaID e.idx)).isNone then
        setChunk (s.qcChunks e.view) (toReplicaID e.idx) e.chunk
      else s.qcChunks e.view)))

end Replica

/-- The call `fr` in the state `s` makes the call `fr'`. -/
inductive Calls (E : Env T) (s : Replica T) : Frame T → Frame T → Prop
  | other (fr fr' : Frame T) (hdirect : ¬ fr'.Direct) (hdeferred : ¬ fr'.Deferred) :
      Calls E s fr fr'
  | delivered (h : ℕ) (result : Bool) : Calls E s (.run (.deliver h) result) (.onDeliverBlk h)
  | proposed (prop : Proposal) (result : Bool) :
      Calls E s (.run (.propose prop) result) (.onReceiveProposal prop)
  | voted (v : Vote) : Calls E s (.run (.vote v) true) (.onReceiveVote v)
  | acked (a : Ack) : Calls E s (.run (.ack a) true) (.onReceiveAck a)
  | status (st : Status) : Calls E s (.run (.status st) true) (.onReceiveStatus st)
  | echo (e : Echo T) : Calls E s (.run (.echo e) true) (.onReceiveProposalEcho e)
  | echo2 (e : Echo T) (result : Bool) :
      Calls E s (.run (.echo2 e) result) (.onReceiveCertEcho e)
  | qc (qc : QuorumCert) (result : Bool) : Calls E s (.run (.qc qc) result) (.onReceiveQc qc)
  | proposalDecoded (e : Echo T) (p : ProposalContent T) (hp : s.decodedBy E e = .ok p) :
      Calls E s (.onReceiveProposalEcho e) (.onReceiveProposal ⟨p.proposer, E.hash p.blk, p.view⟩)
  | certDecoded (e : Echo T) (qc : QuorumCert) (hqc : s.certDecodedBy E e = .ok qc) :
      Calls E s (.onReceiveCertEcho e) (.onReceiveQc qc)
  | taken (prop : Proposal) (opinion : Bool) (htakes : s.Takes prop)
      (hfirst : opinion = true → ∀ h ∈ s.proposals (s.height prop.blk), h = prop.blk)
      (hbranch : opinion = true → (s.onReceiveProposal prop).rep.branchAt
        (s.onReceiveProposal prop).rep.hqc.1 prop.blk =
          .ok (s.onReceiveProposal prop).rep.hqc.1) :
      Calls E s (.onReceiveProposal prop) (.checkAggregation prop opinion)
  | aggregated (prop : Proposal) (opinion : Bool) :
      Calls E s (.checkAggregation prop opinion) (.proposalVote prop opinion)
  | proposalVoted (prop : Proposal) (hvote : s.voteDisabled = false) :
      Calls E s (.proposalVote prop true) (.vote prop.blk prop.proposer)
  | ownVote (h : ℕ) : Calls E s (.vote h s.id)
      (.onReceiveVote ⟨s.id, h, createPartCert s.id h s.view, s.view⟩)
  | votesCompleted (v : Vote) : Calls E s (.onReceiveVote v) (.ack v.blkHash)
  | certTaken (qc : QuorumCert) : Calls E s (.onReceiveQc qc) (.ack qc.objHash)
  | ownAck (h : ℕ) : Calls E s (.ack h)
      (.onReceiveAck ⟨s.id, h, createPartCert s.id h s.view, s.view⟩)
  | ownStatus : Calls E s .sendStatus (.onReceiveStatus ⟨s.id, s.view, s.hqc.2⟩)
  | statusCompleted (st : Status) : Calls E s (.onReceiveStatus st) .doPropose
  | timer : Calls E s .onProposeTimer .doPropose
  | proposes (hproposes : s.Proposes) :
      Calls E s .doPropose (.vote (E.hash s.ownContent) s.id)
  | notes (hproposes : s.Proposes) :
      Calls E s .doPropose (.onPropose_ ⟨s.id, E.hash s.ownContent, s.view⟩)

/-- An effect whose calls are none of the listed ones. -/
def Outcome.CallsOthers (o : Outcome T) : Prop := ∀ fr ∈ o.calls, ¬ fr.Direct ∧ ¬ fr.Deferred

/-- A call that is none of the listed ones. -/
def Frame.other : Frame T → Bool
  | .onDeliverBlk _ | .onReceiveProposal _ | .vote _ _ | .onReceiveVote _ | .onReceiveStatus _
  | .onReceiveQc _ | .onReceiveAck _ | .onReceiveProposalEcho _ | .onReceiveCertEcho _
  | .doPropose | .checkAggregation _ _ | .proposalVote _ _ | .ack _ | .onPropose_ _ => false
  | _ => true

theorem Outcome.callsOthers_of_other {o : Outcome T} (h : o.calls.all Frame.other = true) :
    o.CallsOthers := by
  intro fr hfr
  have hother := List.all_eq_true.mp h fr hfr
  constructor
  all_goals
    intro hlisted
    cases fr <;> first | exact False.elim hlisted | cases hother

theorem Calls.of_others {E : Env T} {s : Replica T} {fr fr' : Frame T} {o : Outcome T}
    (ho : o.CallsOthers) (h : fr' ∈ o.calls) : Calls E s fr fr' :=
  Calls.other fr fr' (ho fr' h).1 (ho fr' h).2

namespace Replica

variable {s : Replica T} {E : Env T} {fr fr' : Frame T}

theorem calls_andThen (r : Attempt T) (k : Replica T → Outcome T) : (r.andThen k).calls = [] ∨
    ∃ s', r = .ok s' ∧ (r.andThen k).calls = (k s').calls := by
  unfold Attempt.andThen
  split
  · exact Or.inr ⟨_, rfl, rfl⟩
  · exact Or.inl rfl

/-! ## Calls that make no listed call -/

theorem exec_callsOthers (h : ¬ fr.Caller) : (s.exec E fr).CallsOthers := by
  refine Outcome.callsOthers_of_other (List.all_eq_true.mpr fun fr' hfr' => ?_)
  cases Frame.mayCall_of_mem hfr' <;> first | rfl | exact absurd trivial h

/-! ## Calls that do -/

theorem calls_runTask {task : Task T} {result : Bool}
    (h : fr' ∈ (s.runTask E task result).calls) : Calls E s (.run task result) fr' := by
  cases task <;> simp only [runTask] at h
  case fetched hash peer =>
    have hcall : Frame.MayCall (.run (.fetched hash peer) result) fr' := Frame.mayCall_of_mem h
    cases hcall
    exact Calls.other _ _ not_false not_false
  case deliver hash => exact List.mem_singleton.mp h ▸ Calls.delivered hash result
  case propose prop => exact List.mem_singleton.mp h ▸ Calls.proposed prop result
  case vote v =>
    cases result
    · cases h
    · exact List.mem_singleton.mp h ▸ Calls.voted v
  case ack a =>
    cases result
    · cases h
    · exact List.mem_singleton.mp h ▸ Calls.acked a
  case share sh => exact List.mem_singleton.mp h ▸ Calls.other _ _ not_false not_false
  case beacon b => exact List.mem_singleton.mp h ▸ Calls.other _ _ not_false not_false
  case status st =>
    cases result
    · cases h
    · exact List.mem_singleton.mp h ▸ Calls.status st
  case echo e =>
    cases result
    · cases h
    · exact List.mem_singleton.mp h ▸ Calls.echo e
  case echo2 e => exact List.mem_singleton.mp h ▸ Calls.echo2 e result
  case qc cert => exact List.mem_singleton.mp h ▸ Calls.qc cert result
  case respBlock => cases h

/-- The first block noted at its height is the only one. -/
theorem eq_of_firstAt {prop : Proposal} {bnew : Block T} (h : s.firstAt prop bnew = true) {k : ℕ}
    (hk : k ∈ s.proposals bnew.height) : k = prop.blk := by
  unfold firstAt slotWith at h
  simp only [Bool.and_eq_true, decide_eq_true_eq] at h
  by_cases hmem : prop.blk ∈ s.proposals bnew.height
  · match hslot : s.proposals bnew.height with
    | [] => simp [hslot] at hk
    | [a] =>
      rw [hslot] at hk hmem
      rw [List.mem_singleton.mp hk, List.mem_singleton.mp hmem]
    | a :: b :: l => simp [hslot] at h
  · rw [if_neg hmem, List.length_append, List.length_singleton] at h
    rw [List.length_eq_zero_iff.mp (by omega : (s.proposals bnew.height).length = 0)] at hk
    cases hk

/-- A proposal is voted for only if its block is the only one noted at its height, and extends the
block of the highest certificate. -/
theorem calls_judge {prop : Proposal} {bnew : Block T} (h : fr' ∈ (judge prop bnew s).calls) :
    (¬ fr'.Direct ∧ ¬ fr'.Deferred) ∨ ∃ opinion, fr' = .checkAggregation prop opinion ∧
      (opinion = true → (∀ k ∈ s.proposals bnew.height, k = prop.blk) ∧
        s.branchAt s.hqc.1 prop.blk = .ok s.hqc.1) := by
  unfold judge at h
  dsimp only at h
  split at h
  · cases h
  · rename_i b hbranch
    have hnoted : ∀ t : Replica T, t.chain = s.chain →
        (if s.firstAt prop bnew then t.branchAt t.hqc.1 prop.blk else .ok prop.blk) = .ok b →
        (s.firstAt prop bnew && b == t.hqc.1) = true →
        (∀ k ∈ s.proposals bnew.height, k = prop.blk) ∧
          s.branchAt s.hqc.1 prop.blk = .ok s.hqc.1 := by
      intro t ht hbranch hopinion
      obtain ⟨hfirst, hb⟩ := Bool.and_eq_true_iff.mp hopinion
      refine ⟨fun k hk => eq_of_firstAt hfirst hk, ?_⟩
      have hhqc : t.hqc = s.hqc := congrArg Chain.hqc ht
      rw [if_pos hfirst, eq_of_beq hb, hhqc, branchAt_congr (congrArg Chain.blkCache ht)] at hbranch
      exact hbranch
    have hvote := hnoted _ (by split <;> rfl) hbranch
    split at h
    · rcases List.mem_cons.mp h with rfl | h
      · exact Or.inl ⟨not_false, not_false⟩
      · exact Or.inr ⟨_, List.mem_singleton.mp h, hvote⟩
    · exact Or.inr ⟨_, List.mem_singleton.mp h, hvote⟩

/-- `on_receive_proposal` makes no call unless it takes up a delivered block. -/
theorem takes_of_calls {prop : Proposal} (h : fr' ∈ (s.onReceiveProposal prop).calls) :
    s.Takes prop ∧ ∃ b, s.blkCache prop.blk = some b ∧ b.delivered = true := by
  rcases onReceiveProposal_judge s prop with ⟨err, heq⟩ | ⟨b, htakes, hb, hdel, -⟩
  · rw [heq] at h
    cases h
  · exact ⟨htakes, b, hb, hdel⟩

theorem calls_onReceiveProposal {prop : Proposal} (h : fr' ∈ (s.onReceiveProposal prop).calls) :
    Calls E s (.onReceiveProposal prop) fr' := by
  rcases onReceiveProposal_judge s prop with ⟨err, heq⟩ | ⟨b, htakes, hb, hdel, heq⟩
  · rw [heq] at h
    cases h
  obtain ⟨s', hs', hcall⟩ := mem_calls_andThen (heq ▸ h)
  have hchain : (s.onReceiveProposal prop).rep.chain = s'.chain := by
    rw [heq, hs']
    exact chain_judge
  have hrecords : s'.records = s.records := by
    obtain ⟨hqc, tail, hadopt⟩ := adopt_writes (s := s) b
    rw [hs'] at hadopt
    change s' = _ at hadopt
    rw [hadopt]
    rfl
  rcases calls_judge hcall with ⟨hdirect, hdeferred⟩ | ⟨opinion, rfl, hvote⟩
  · exact Calls.other _ _ hdirect hdeferred
  · refine Calls.taken prop opinion htakes (fun ho => ?_) fun ho => ?_
    · have hslot := (hvote ho).1
      have hproposals : s'.proposals = s.proposals := congrArg Records.proposals hrecords
      rw [hproposals, ← height_eq hb] at hslot
      exact hslot
    · have hhqc : (s.onReceiveProposal prop).rep.hqc = s'.hqc := congrArg Chain.hqc hchain
      rw [hhqc, branchAt_congr (congrArg Chain.blkCache hchain)]
      exact (hvote ho).2

theorem calls_onReceiveVote {v : Vote} (h : fr' ∈ (s.onReceiveVote E v).calls) :
    Calls E s (.onReceiveVote v) fr' := by
  have hnone : (s.onReceiveVote E v).calls ≠ [] := List.ne_nil_of_mem h
  rcases onReceiveVote_cases (rfl : s.onReceiveVote E v = _) with
    ⟨-, hcalls⟩ | ⟨b, -, -, -, -, -, ⟨-, -, hcalls, -⟩ | ⟨qc, t, -, -, ⟨-, hcalls⟩ |
      ⟨-, -, hcalls | hcalls⟩⟩⟩
  · exact absurd hcalls hnone
  · exact absurd hcalls hnone
  · exact absurd hcalls hnone
  · exact absurd hcalls hnone
  · rw [hcalls] at h
    rcases List.mem_cons.mp h with rfl | h
    · exact Calls.other _ _ not_false not_false
    · rcases List.mem_cons.mp h with rfl | h
      · exact Calls.other _ _ not_false not_false
      · exact List.mem_singleton.mp h ▸ Calls.votesCompleted v

theorem calls_onReceiveQc {qc : QuorumCert} (h : fr' ∈ (s.onReceiveQc E qc).calls) :
    Calls E s (.onReceiveQc qc) fr' := by
  have hnone : (s.onReceiveQc E qc).calls ≠ [] := List.ne_nil_of_mem h
  rcases onReceiveQc_cases (rfl : s.onReceiveQc E qc = _) with
    ⟨-, -, hcalls⟩ | ⟨b, t, -, -, -, -, -, -, hcalls | hcalls⟩
  · exact absurd hcalls hnone
  · exact absurd hcalls hnone
  · rw [hcalls] at h
    rcases List.mem_cons.mp h with rfl | h
    · exact Calls.other _ _ not_false not_false
    · rcases List.mem_cons.mp h with rfl | h
      · exact Calls.certTaken qc
      · exact List.mem_singleton.mp h ▸ Calls.other _ _ not_false not_false

theorem calls_onReceiveStatus (st : Status) :
    (s.onReceiveStatus E st).calls = [] ∨ (s.onReceiveStatus E st).calls = [.doPropose] := by
  unfold onReceiveStatus
  dsimp only
  split
  · exact Or.inl rfl
  · split
    · exact Or.inl rfl
    · split
      · exact Or.inl rfl
      · rename_i b _
        rcases calls_andThen (updateHqc (s.setBlk st.qc.objHash { b with selfQc := some st.qc })
          st.qc.objHash st.qc) _ with hcalls | ⟨s', -, hcalls⟩
        · exact Or.inl hcalls
        · rw [hcalls]
          split
          · exact Or.inl rfl
          · split
            · exact Or.inr rfl
            · exact Or.inl rfl

theorem calls_onReceiveProposalEcho (e : Echo T) : (s.onReceiveProposalEcho E e).calls = [] ∨
    ∃ p, s.decodedBy E e = .ok p ∧ (s.onReceiveProposalEcho E e).calls =
      [.onReceiveProposal ⟨p.proposer, E.hash p.blk, p.view⟩] := by
  rcases onReceiveProposalEcho_cases (rfl : s.onReceiveProposalEcho E e = _) with
    ⟨-, ho⟩ | ⟨p, t, hp, -, ho⟩
  · exact Or.inl ho
  · rw [ho]
    unfold Attempt.andThen
    split
    · exact Or.inr ⟨p, hp, rfl⟩
    · exact Or.inl rfl

theorem calls_onReceiveCertEcho (e : Echo T) : (s.onReceiveCertEcho E e).calls = [] ∨
    ∃ cert, s.certDecodedBy E e = .ok cert ∧ (s.onReceiveCertEcho E e).calls =
      [.onReceiveQc cert, .eraseQcChunks e.view] := by
  rcases onReceiveCertEcho_eq (s := s) (E := E) e with ⟨-, h⟩ | ⟨-, -, h⟩ | ⟨-, h⟩
  · rw [h]
    exact Or.inl rfl
  · rw [h]
    exact Or.inl rfl
  · rw [h]
    split
    · exact Or.inl rfl
    · rename_i cert hcert
      exact Or.inr ⟨cert, hcert, rfl⟩

theorem calls_doPropose : (s.doPropose E).calls = [] ∨
    (s.Proposes ∧ (s.doPropose E).calls = [.vote (E.hash s.ownContent) s.id,
      .onPropose_ ⟨s.id, E.hash s.ownContent, s.view⟩,
      .finishPropose ⟨s.id, E.hash s.ownContent, s.view⟩]) := by
  unfold doPropose
  split
  · exact Or.inl rfl
  · rename_i hguard
    obtain ⟨hproposer, hlast⟩ := not_or.mp hguard
    unfold onPropose
    split
    · exact Or.inl rfl
    · rename_i htrans
      have hproposes : s.Proposes :=
        ⟨not_not.mp hproposer, not_le.mp hlast, by simpa using htrans⟩
      have hview : ∀ (t : Replica T) blk, (t.addBlk blk).view = t.view :=
        fun t blk => congrArg Views.view views_addBlk
      simp only [hview]
      unfold Attempt.andThen
      split
      · rename_i s' hs'
        have hviews : s'.views = s.views := by
          have hdeliver := congrArg (fun r : Attempt T => r.rep.views) hs'
          obtain ⟨cache, tails, hwrites⟩ := deliverBlk_writes
          rw [hwrites] at hdeliver
          exact hdeliver.symm.trans (views_modifyBlk.trans (views_addBlk.trans rfl))
        have hid : s'.id = s.id := congrArg Views.id hviews
        have hview' : s'.view = s.view := congrArg Views.view hviews
        dsimp only
        split
        · exact Or.inl rfl
        · refine Or.inr ⟨hproposes, ?_⟩
          dsimp only [call]
          rw [hid, hview']
          rfl
      · exact Or.inl rfl

theorem calls_proposalVote (prop : Proposal) (opinion : Bool) :
    (s.proposalVote prop opinion).calls = [.proposalDeliver prop] ∨
    (opinion = true ∧ s.voteDisabled = false ∧ (s.proposalVote prop opinion).calls =
      [.vote prop.blk prop.proposer, .proposalDeliver prop]) := by
  unfold proposalVote
  split
  · rename_i hvote
    obtain ⟨hopinion, hdisabled⟩ : opinion = true ∧ s.voteDisabled = false := by
      simpa using hvote
    exact Or.inr ⟨hopinion, hdisabled, rfl⟩
  · exact Or.inl rfl

theorem calls_vote (blk proposer : ℕ) : (s.vote E blk proposer).calls = [] ∨
    (proposer = s.id ∧ (s.vote E blk proposer).calls =
      [.onReceiveVote ⟨s.id, blk, createPartCert s.id blk s.view, s.view⟩]) := by
  unfold vote
  dsimp only
  split
  · rename_i hself
    exact Or.inr ⟨hself, rfl⟩
  · split
    all_goals exact Or.inl rfl

theorem calls_sendStatus : s.sendStatus.calls = [] ∨
    s.sendStatus.calls = [.onReceiveStatus ⟨s.id, s.view, s.hqc.2⟩] := by
  unfold sendStatus
  dsimp only
  split
  · exact Or.inl rfl
  · exact Or.inr rfl

theorem calls_onProposeTimer : s.onProposeTimer.calls = [] ∨
    s.onProposeTimer.calls = [.doPropose, .stopProposeTimer] := by
  unfold onProposeTimer
  dsimp only
  split
  · exact Or.inl rfl
  · exact Or.inr rfl

theorem calls_checkAggregation {prop : Proposal} {opinion : Bool}
    (h : fr' ∈ (s.checkAggregation E prop opinion).calls) :
    Calls E s (.checkAggregation prop opinion) fr' := by
  have hnone : (s.checkAggregation E prop opinion).calls ≠ [] := List.ne_nil_of_mem h
  rcases checkAggregation_cases (rfl : s.checkAggregation E prop opinion = _) with
    ⟨-, hcalls⟩ | ⟨-, -, -, -, -, hcalls | hcalls⟩
  · exact absurd hcalls hnone
  · exact absurd hcalls hnone
  · rw [hcalls] at h
    rcases List.mem_cons.mp h with rfl | h
    · exact Calls.other _ _ not_false not_false
    · exact List.mem_singleton.mp h ▸ Calls.aggregated prop opinion

/-! ## One call -/

theorem calls_exec (h : fr' ∈ (s.exec E fr).calls) : Calls E s fr fr' := by
  by_cases hc : fr.Caller
  · have hnone : (s.exec E fr).calls ≠ [] := List.ne_nil_of_mem h
    cases fr <;> try exact False.elim hc
    case run => exact calls_runTask h
    case onReceiveProposal => exact calls_onReceiveProposal h
    case checkAggregation => exact calls_checkAggregation h
    case onReceiveVote => exact calls_onReceiveVote h
    case onReceiveQc => exact calls_onReceiveQc h
    case proposalVote prop opinion =>
      rcases calls_proposalVote (s := s) prop opinion with hcalls | ⟨rfl, hdisabled, hcalls⟩
      · rw [exec, hcalls] at h
        exact List.mem_singleton.mp h ▸ Calls.other _ _ not_false not_false
      · rw [exec, hcalls] at h
        rcases List.mem_cons.mp h with rfl | h
        · exact Calls.proposalVoted prop hdisabled
        · exact List.mem_singleton.mp h ▸ Calls.other _ _ not_false not_false
    case vote blk proposer =>
      obtain ⟨rfl, hcalls⟩ := (calls_vote (s := s) (E := E) blk proposer).resolve_left hnone
      rw [exec, hcalls] at h
      exact List.mem_singleton.mp h ▸ Calls.ownVote blk
    case onReceiveStatus st =>
      have hcalls := (calls_onReceiveStatus (s := s) (E := E) st).resolve_left hnone
      rw [exec, hcalls] at h
      exact List.mem_singleton.mp h ▸ Calls.statusCompleted st
    case ack blk =>
      rcases List.mem_cons.mp h with rfl | h
      · exact Calls.ownAck blk
      · exact List.mem_singleton.mp h ▸ Calls.other _ _ not_false not_false
    case sendStatus =>
      have hcalls := (calls_sendStatus (s := s)).resolve_left hnone
      rw [exec, hcalls] at h
      exact List.mem_singleton.mp h ▸ Calls.ownStatus
    case onReceiveProposalEcho e =>
      obtain ⟨p, hp, hcalls⟩ := (calls_onReceiveProposalEcho (s := s) (E := E) e).resolve_left hnone
      rw [exec, hcalls] at h
      exact List.mem_singleton.mp h ▸ Calls.proposalDecoded e p hp
    case onReceiveCertEcho e =>
      obtain ⟨cert, hcert, hcalls⟩ := (calls_onReceiveCertEcho (s := s) (E := E) e).resolve_left hnone
      rw [exec, hcalls] at h
      rcases List.mem_cons.mp h with rfl | h
      · exact Calls.certDecoded e cert hcert
      · exact List.mem_singleton.mp h ▸ Calls.other _ _ not_false not_false
    case doPropose =>
      obtain ⟨hproposes, hcalls⟩ := (calls_doPropose (s := s) (E := E)).resolve_left hnone
      rw [exec, hcalls] at h
      rcases List.mem_cons.mp h with rfl | h
      · exact Calls.proposes hproposes
      · rcases List.mem_cons.mp h with rfl | h
        · exact Calls.notes hproposes
        · exact List.mem_singleton.mp h ▸ Calls.other _ _ not_false not_false
    case onProposeTimer =>
      have hcalls := (calls_onProposeTimer (s := s)).resolve_left hnone
      rw [exec, hcalls] at h
      rcases List.mem_cons.mp h with rfl | h
      · exact Calls.timer
      · exact List.mem_singleton.mp h ▸ Calls.other _ _ not_false not_false
  · exact Calls.of_others (exec_callsOthers hc) h

/-- Only the first call can be one that runs directly after its caller. -/
theorem not_direct_tail (h : fr' ∈ (s.exec E fr).calls.tail) : ¬ fr'.Direct := by
  have hnone : (s.exec E fr).calls ≠ [] := by
    intro hnil
    rw [hnil] at h
    cases h
  cases calls_exec (List.mem_of_mem_tail h) with
  | other _ _ hother => exact hother
  | taken | aggregated | votesCompleted | certTaken | notes => exact not_false
  | delivered | proposed | voted | acked | status | echo | echo2 | qc => cases h
  | proposalDecoded e p hp =>
    obtain ⟨_, -, hcalls⟩ := (calls_onReceiveProposalEcho (s := s) (E := E) e).resolve_left hnone
    rw [exec, hcalls] at h
    cases h
  | certDecoded e cert hcert =>
    obtain ⟨_, -, hcalls⟩ := (calls_onReceiveCertEcho (s := s) (E := E) e).resolve_left hnone
    rw [exec, hcalls] at h
    cases List.mem_singleton.mp h
  | proposalVoted prop hvote =>
    rcases calls_proposalVote (s := s) prop true with hcalls | ⟨-, -, hcalls⟩
    · rw [exec, hcalls] at h
      cases h
    · rw [exec, hcalls] at h
      cases List.mem_singleton.mp h
  | ownVote blk =>
    obtain ⟨-, hcalls⟩ := (calls_vote (s := s) (E := E) blk s.id).resolve_left hnone
    rw [exec, hcalls] at h
    cases h
  | ownAck blk => cases List.mem_singleton.mp h
  | ownStatus =>
    have hcalls := (calls_sendStatus (s := s)).resolve_left hnone
    rw [exec, hcalls] at h
    cases h
  | statusCompleted st =>
    have hcalls := (calls_onReceiveStatus (s := s) (E := E) st).resolve_left hnone
    rw [exec, hcalls] at h
    cases h
  | timer =>
    have hcalls := (calls_onProposeTimer (s := s)).resolve_left hnone
    rw [exec, hcalls] at h
    cases List.mem_singleton.mp h
  | proposes hproposes =>
    obtain ⟨-, hcalls⟩ := (calls_doPropose (s := s) (E := E)).resolve_left hnone
    rw [exec, hcalls] at h
    rcases List.mem_cons.mp h with h | h
    · cases h
    · cases List.mem_singleton.mp h

end Replica

/-! ## Runs -/

namespace System

variable {E : Env T} {F : Faults T} {ok : System T → ℕ → Frame T → Prop} {σ : System T}

/-- Where the listed calls on a stack come from. -/
structure Called (E : Env T) (past : List (Executed T)) (x : Node T) : Prop where
  tail : ∀ fr ∈ x.stack.tail, ¬ fr.Direct
  head : ∀ fr ∈ x.stack.head?, fr.Direct →
    ∃ e rest, past = e :: rest ∧ (e.outcome E).rep = x.rep ∧ fr ∈ (e.outcome E).calls
  deferred : ∀ fr ∈ x.stack, fr.Deferred → ∃ e ∈ past, fr ∈ (e.outcome E).calls

/-- Nothing has to be known of an empty stack. -/
theorem called_of_nil {past : List (Executed T)} {x : Node T} (hstack : x.stack = []) :
    Called E past x := by
  constructor
  all_goals
    rw [hstack]
    intro fr hfr
    cases hfr

theorem called_after {i : ℕ} {past : List (Executed T)} {s : Replica T} {fr : Frame T}
    {stack : List (Frame T)} (hx : ∀ f ∈ stack, ¬ f.Direct)
    (hdeferred : ∀ f ∈ stack, f.Deferred → ∃ e ∈ past, f ∈ (e.outcome E).calls) :
    Called E (⟨i, s, fr⟩ :: past) (Node.after (s.exec E fr) stack) := by
  rcases Node.stack_after (s.exec E fr) stack with hstack | hstack
  · exact called_of_nil hstack
  · constructor
    · intro f hf
      rw [hstack] at hf
      cases hcalls : (s.exec E fr).calls with
      | nil =>
        rw [hcalls] at hf
        exact hx f (List.mem_of_mem_tail hf)
      | cons a l =>
        rw [hcalls] at hf
        rcases List.mem_append.mp hf with hf | hf
        · have hmem : f ∈ (s.exec E fr).calls.tail := by
            rw [hcalls]
            exact hf
          exact Replica.not_direct_tail hmem
        · exact hx f hf
    · intro f hf hdirect
      rw [hstack] at hf
      cases hcalls : (s.exec E fr).calls with
      | nil =>
        rw [hcalls] at hf
        exact absurd hdirect (hx f (List.mem_of_mem_head? hf))
      | cons a l =>
        rw [hcalls] at hf
        cases Option.mem_some_iff.mp hf
        refine ⟨⟨i, s, fr⟩, past, rfl, Node.rep_after.symm, ?_⟩
        rw [Executed.outcome, hcalls]
        exact List.mem_cons_self
    · intro f hf hdef
      rw [hstack] at hf
      rcases List.mem_append.mp hf with hf | hf
      · exact ⟨_, List.mem_cons_self, hf⟩
      · obtain ⟨e, he, hcall⟩ := hdeferred f hf hdef
        exact ⟨e, List.mem_cons_of_mem _ he, hcall⟩

theorem Run.called (h : Run E F ok σ) (i : ℕ) : Called E (σ.history i) (σ.nodes i) := by
  refine h.history_induction (I := fun _ past x => Called E past x) ?_ ?_ ?_ i
  · exact fun i => called_of_nil rfl
  · intro i past x ev hx _ _
    refine ⟨fun fr hfr => absurd hfr List.not_mem_nil, ?_, ?_⟩
    · intro fr hfr hdirect
      cases Option.mem_some_iff.mp hfr
      cases ev <;> cases hdirect
    · intro fr hfr hdef
      cases List.mem_singleton.mp hfr
      cases ev <;> cases hdef
  · intro σ i fr stack _ _ _ hx hstack
    have htail := hx.tail
    have hdef := hx.deferred
    rw [hstack] at htail hdef
    exact called_after htail fun f hf => hdef f (List.mem_cons_of_mem _ hf)

/-- A call that runs directly after its caller does so in the state that the caller left. -/
theorem Run.made (h : Run E F ok σ) {i : ℕ} {fr : Frame T} {stack : List (Frame T)}
    (hstack : (σ.nodes i).stack = fr :: stack) (hdirect : fr.Direct) :
    ∃ e rest, σ.history i = e :: rest ∧ (e.outcome E).rep = (σ.nodes i).rep ∧
      fr ∈ (e.outcome E).calls := by
  refine (h.called i).head fr ?_ hdirect
  rw [hstack]
  rfl

theorem Run.caller (h : Run E F ok σ) {i : ℕ} {fr : Frame T} {stack : List (Frame T)}
    (hstack : (σ.nodes i).stack = fr :: stack) (hdirect : fr.Direct) :
    ∃ e rest, σ.history i = e :: rest ∧ (e.outcome E).rep = (σ.nodes i).rep ∧
      Calls E e.rep e.frame fr := by
  obtain ⟨e, rest, hpast, hrep, hcall⟩ := h.made hstack hdirect
  exact ⟨e, rest, hpast, hrep, Replica.calls_exec hcall⟩

end System

end OptRand.Hotstuff
