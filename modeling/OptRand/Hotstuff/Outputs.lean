import OptRand.Hotstuff.Frames

/-!
# What the calls emit

`Frame.MayEmit` is the table of the outputs, as `Frame.MayCall` is that of the calls. Apart from
messages, an output is a signature, a block handed to `do_consensus` or a beacon. Few calls have
one, and `Said` says which, and in what state.
-/

namespace OptRand.Hotstuff

open Lib

variable {T : PayloadTypes}

/-- A message. -/
def Output.IsMessage : Output T → Prop
  | .send _ _ | .broadcast _ => True
  | _ => False

/-- The calls with other outputs than messages. -/
def Frame.Emits : Frame T → Prop
  | .vote _ _ | .ack _ | .proposalDeliver _ | .onReceiveQc _ | .onReceiveAck _
  | .onReceiveShare _ => True
  | _ => False

/-- An effect whose outputs are messages. -/
def Outcome.Quiet (o : Outcome T) : Prop := ∀ out ∈ o.out, out.IsMessage

/-- The outputs that a call may have. -/
inductive Frame.MayEmit : Frame T → Output T → Prop
  | deliveryFetch {h peer dest hs} : MayEmit (.startDelivery h peer) (.send dest (.reqBlock hs))
  | runFetch {h peer result dest hs} :
      MayEmit (.run (.fetched h peer) result) (.send dest (.reqBlock hs))
  | runRespond {hs peer result dest blks} :
      MayEmit (.run (.respBlock hs peer) result) (.send dest (.respBlock blks))
  | fetchTimeout {h dest hs} : MayEmit (.fetchTimeout h) (.send dest (.reqBlock hs))
  | voteSigned {blk proposer digest view} :
      MayEmit (.vote blk proposer) (.signed .vote digest view)
  | voteSend {blk proposer dest vote} : MayEmit (.vote blk proposer) (.send dest (.vote vote))
  | ackSigned {blk digest view} : MayEmit (.ack blk) (.signed .ack digest view)
  | broadcastAck {ack} : MayEmit (.broadcastAck ack) (.broadcast (.ack ack))
  | broadcastQc {blk qc} : MayEmit (.broadcastQc blk) (.broadcast (.qc qc))
  | sendShare {share : Share T} : MayEmit (.sendShare share) (.broadcast (.share share))
  | echoSigned {prop root view} : MayEmit (.proposalDeliver prop) (.signed .echo root view)
  | echoSend {prop dest} {echo : Echo T} : MayEmit (.proposalDeliver prop) (.send dest (.echo echo))
  | echoBroadcast {prop} {echo : Echo T} : MayEmit (.proposalDeliver prop) (.broadcast (.echo echo))
  | certSigned {qc root view} : MayEmit (.onReceiveQc qc) (.signed .echo root view)
  | certSend {qc dest} {echo : Echo T} : MayEmit (.onReceiveQc qc) (.send dest (.echo2 echo))
  | certBroadcast {qc} {echo : Echo T} : MayEmit (.onReceiveQc qc) (.broadcast (.echo2 echo))
  | consensus {ack blk} : MayEmit (.onReceiveAck ack) (.consensus blk)
  | beacon {share : Share T} {view aggregate beacon} :
      MayEmit (.onReceiveShare share) (.beacon view aggregate beacon)
  | beaconBroadcast {share : Share T} {beacon : Beacon T} :
      MayEmit (.onReceiveShare share) (.broadcast (.beacon beacon))
  | status {dest status} : MayEmit .sendStatus (.send dest (.status status))
  | sharing {view dest} {ptrans : PVSSTranscript T} :
      MayEmit (.sendSharing view) (.send dest (.pvssTranscript ptrans))
  | propose {prop} {content : ProposalContent T} :
      MayEmit (.finishPropose prop) (.broadcast (.propose content))

/-- The outputs of an outcome are ones that `fr` may have. -/
def Outcome.Outputs (fr : Frame T) (o : Outcome T) : Prop := ∀ out ∈ o.out, fr.MayEmit out

namespace Replica

variable {s : Replica T} {E : Env T}

@[simp] theorem outputs_done {fr : Frame T} : s.done.Outputs fr := nofun

@[simp] theorem outputs_raise {fr : Frame T} {e : Error} : (s.raise e).Outputs fr := nofun

@[simp] theorem outputs_call {fr : Frame T} {calls : List (Frame T)} :
    (s.call calls).Outputs fr := nofun

@[simp] theorem outputs_emit {fr : Frame T} {out : List (Output T)} {calls : List (Frame T)} :
    (s.emit out calls).Outputs fr ↔ ∀ o ∈ out, fr.MayEmit o := Iff.rfl

theorem outputs_andThen {fr : Frame T} {r : Attempt T} {k : Replica T → Outcome T}
    (hk : ∀ s, (k s).Outputs fr) : (r.andThen k).Outputs fr := by
  unfold Attempt.andThen
  split
  · exact hk _
  · exact outputs_raise

theorem outputs_asyncFetchBlk {fr : Frame T} {h : ℕ} {peer : Option ℕ}
    (hfetch : ∀ dest hs, fr.MayEmit (.send dest (.reqBlock hs))) :
    ∀ out ∈ (s.asyncFetchBlk h peer).2.1, fr.MayEmit out := by
  unfold asyncFetchBlk
  dsimp only
  repeat' split
  all_goals simp [hfetch]

theorem outputs_echoes {fr : Frame T} {view mtype : ℕ} {chunks : List T.Chunk}
    {wrap : Echo T → Msg T} (hsigned : ∀ root, fr.MayEmit (.signed .echo root s.view))
    (hsend : ∀ dest echo, fr.MayEmit (.send dest (wrap echo)))
    (hbroadcast : ∀ echo, fr.MayEmit (.broadcast (wrap echo))) :
    ∀ out ∈ s.echoes E view mtype chunks wrap, fr.MayEmit out := by
  intro out hout
  obtain ⟨⟨chunk, i⟩, -, hout⟩ := List.mem_flatMap.mp hout
  rcases List.mem_cons.mp hout with rfl | hout
  · exact hsigned _
  · rw [List.mem_singleton.mp hout]
    split
    · exact hsend _ _
    · exact hbroadcast _

theorem outputs_handle {peer : ℕ} {msg : Msg T} :
    (s.handle E peer msg).Outputs (.handle peer msg) := by
  cases msg <;> simp only [handle] <;> (repeat' split) <;> simp

theorem outputs_startDelivery {h peer : ℕ} :
    (s.startDelivery h peer).Outputs (.startDelivery h peer) := by
  unfold startDelivery
  dsimp only
  split
  all_goals exact outputs_asyncFetchBlk fun _ _ => .deliveryFetch

theorem outputs_run {task : Task T} {result : Bool} :
    (s.runTask E task result).Outputs (.run task result) := by
  cases task <;> simp only [runTask]
  case fetched =>
    unfold fetched
    split
    · simp
    · dsimp only
      split
      · exact outputs_asyncFetchBlk fun _ _ => .runFetch
      · simp
  case respBlock => simpa using .runRespond
  all_goals repeat' split
  all_goals simp

theorem outputs_onDeliverBlk {h : ℕ} : (s.onDeliverBlk h).Outputs (.onDeliverBlk h) := by
  unfold onDeliverBlk
  repeat' split
  all_goals try simp
  refine outputs_andThen fun s => ?_
  split <;> simp

theorem outputs_onReceiveProposal {prop : Proposal} :
    (s.onReceiveProposal prop).Outputs (.onReceiveProposal prop) := by
  rcases onReceiveProposal_judge s prop with ⟨err, h⟩ | ⟨b, -, -, -, h⟩
  · rw [h]
    exact nofun
  · rw [h]
    refine outputs_andThen fun s => ?_
    unfold judge
    dsimp only
    repeat' split
    all_goals simp

theorem outputs_proposalDeliver {prop : Proposal} :
    (s.proposalDeliver E prop).Outputs (.proposalDeliver prop) := by
  unfold proposalDeliver
  repeat' split
  · simp
  · exact outputs_echoes (fun _ => .echoSigned) (fun _ _ => .echoSend) fun _ => .echoBroadcast
  · simp

theorem outputs_vote {blk proposer : ℕ} :
    (s.vote E blk proposer).Outputs (.vote blk proposer) := by
  unfold vote
  dsimp only
  repeat' split
  · simpa using .voteSigned
  · simpa using ⟨.voteSigned, .voteSend⟩
  · exact fun out hout => List.mem_singleton.mp hout ▸ .voteSigned

theorem outputs_onReceiveVote {vote : Vote} :
    (s.onReceiveVote E vote).Outputs (.onReceiveVote vote) := by
  unfold onReceiveVote
  dsimp only
  repeat' split
  all_goals try simp
  all_goals exact outputs_andThen fun s => outputs_call

theorem outputs_onReceiveStatus {status : Status} :
    (s.onReceiveStatus E status).Outputs (.onReceiveStatus status) := by
  unfold onReceiveStatus
  dsimp only
  split
  · simp
  · split
    · simp
    · split
      · simp
      · refine outputs_andThen fun s => ?_
        repeat' split
        all_goals simp

theorem outputs_onReceiveQc {qc : QuorumCert} :
    (s.onReceiveQc E qc).Outputs (.onReceiveQc qc) := by
  unfold onReceiveQc
  dsimp only
  repeat' split
  all_goals try simp
  refine outputs_andThen fun s => ?_
  exact outputs_echoes (fun _ => .certSigned) (fun _ _ => .certSend) fun _ => .certBroadcast

theorem outputs_onReceiveAck {ack : Ack} :
    (s.onReceiveAck E ack).Outputs (.onReceiveAck ack) := by
  unfold onReceiveAck
  dsimp only
  repeat' split
  all_goals try simp
  intro blk _
  exact .consensus

theorem outputs_onReceiveShare {share : Share T} :
    (s.onReceiveShare E share).Outputs (.onReceiveShare share) := by
  unfold onReceiveShare
  dsimp only
  repeat' split
  all_goals try simp
  exact ⟨.beacon, .beaconBroadcast⟩

theorem outputs_onReceiveProposalEcho {echo : Echo T} :
    (s.onReceiveProposalEcho E echo).Outputs (.onReceiveProposalEcho echo) := by
  rcases onReceiveProposalEcho_eq (s := s) (E := E) echo with ⟨-, h⟩ | ⟨-, -, h⟩ | ⟨-, h⟩
  · rw [h]
    exact outputs_done
  · rw [h]
    exact outputs_done
  · rw [h]
    split
    · exact outputs_raise
    · exact outputs_andThen fun s => outputs_call

theorem outputs_doPropose : (s.doPropose E).Outputs .doPropose := by
  unfold doPropose
  split
  · simp
  · unfold onPropose
    split
    · simp
    · refine outputs_andThen fun s => ?_
      split <;> simp

/-- A call has outputs of its line in the table. -/
theorem exec_outputs (fr : Frame T) : (s.exec E fr).Outputs fr := by
  cases fr
  case handle => exact outputs_handle
  case run => exact outputs_run
  case startDelivery => exact outputs_startDelivery
  case onDeliverBlk => exact outputs_onDeliverBlk
  case onReceiveProposal => exact outputs_onReceiveProposal
  case proposalDeliver => exact outputs_proposalDeliver
  case vote => exact outputs_vote
  case onReceiveVote => exact outputs_onReceiveVote
  case onReceiveStatus => exact outputs_onReceiveStatus
  case onReceiveQc => exact outputs_onReceiveQc
  case onReceiveAck => exact outputs_onReceiveAck
  case onReceiveShare => exact outputs_onReceiveShare
  case onReceiveProposalEcho => exact outputs_onReceiveProposalEcho
  case doPropose => exact outputs_doPropose
  all_goals
    simp only [exec, gather, all, notify, resolve, onFetchBlk, checkAggregation, proposalVote,
      onReceiveViewProposal_, broadcastQc, onReceiveQc_, ack, broadcastShare, onReceiveBeacon,
      tryEnterView, onEnterView, sendStatus, sendSharing, onReceiveCertEcho, eraseQcChunks,
      onReceivePvssTranscript, onProposeTimer, stopProposeTimer, fetchTimeout, onPropose_,
      finishPropose, onQcFinish, eraseQcWaiting, execCommand, beat, afterBeat, beatCallback,
      resolveBeat, proposerScheduleNext, lock]
    repeat' split
    all_goals simp
    all_goals try intros
    all_goals constructor

end Replica

/-- An output of a call is one of the table. -/
theorem Frame.mayEmit_of_mem {E : Env T} {s : Replica T} {fr : Frame T} {out : Output T}
    (h : out ∈ (s.exec E fr).out) : fr.MayEmit out :=
  s.exec_outputs fr out h

namespace Replica

variable {s : Replica T} {E : Env T}

theorem exec_quiet {fr : Frame T} (h : ¬ fr.Emits) : (s.exec E fr).Quiet := by
  intro out hout
  cases Frame.mayEmit_of_mem hout <;> first | exact trivial | exact absurd trivial h

/-! ## The other outputs -/

/-- What a call in the state `s` can emit besides messages: signatures of its view, blocks that
are executed, and beacons that are verified against the queue. -/
inductive Said (E : Env T) (s : Replica T) : Frame T → Output T → Prop
  | vote (digest proposer : ℕ) : Said E s (.vote digest proposer) (.signed .vote digest s.view)
  | ack (digest : ℕ) : Said E s (.ack digest) (.signed .ack digest s.view)
  | echo (fr : Frame T) (root : ℕ) : Said E s fr (.signed .echo root s.view)
  | consensus (a : Ack) (blk : ℕ) : Said E s (.onReceiveAck a) (.consensus blk)
  | beacon (sh : Share T) (b : T.Beacon) (hview : s.view ≤ sh.view)
      (hverify : (E.pvss s.id).verifyBeacon (s.aggQueue (E.getProposer sh.view)) b = true) :
      Said E s (.onReceiveShare sh) (.beacon sh.view (s.aggQueue (E.getProposer sh.view)) b)

variable {o : Output T}

theorem out_echoes {view mtype : ℕ} {chunks : List T.Chunk} {wrap : Echo T → Msg T}
    (h : o ∈ s.echoes E view mtype chunks wrap) :
    o.IsMessage ∨ ∃ root, o = .signed .echo root s.view := by
  unfold echoes at h
  obtain ⟨⟨chunk, i⟩, -, h⟩ := List.mem_flatMap.mp h
  rcases List.mem_cons.mp h with rfl | h
  · exact Or.inr ⟨_, rfl⟩
  · left
    rw [List.mem_singleton.mp h]
    split
    all_goals exact trivial

theorem out_vote {blk proposer : ℕ} (h : o ∈ (s.vote E blk proposer).out) :
    o.IsMessage ∨ o = .signed .vote blk s.view := by
  unfold vote at h
  dsimp only at h
  split at h
  · exact Or.inr (List.mem_singleton.mp h)
  · split at h
    · rcases List.mem_cons.mp h with rfl | h
      · exact Or.inr rfl
      · left
        rw [List.mem_singleton.mp h]
        exact trivial
    · exact Or.inr (List.mem_singleton.mp h)

theorem out_proposalDeliver {prop : Proposal} (h : o ∈ (s.proposalDeliver E prop).out) :
    o.IsMessage ∨ ∃ root, o = .signed .echo root s.view := by
  unfold proposalDeliver at h
  split at h
  · split at h
    · cases h
    · exact out_echoes h
  · cases h

theorem out_onReceiveQc {qc : QuorumCert} (h : o ∈ (s.onReceiveQc E qc).out) :
    o.IsMessage ∨ ∃ root, o = .signed .echo root s.view := by
  unfold onReceiveQc at h
  dsimp only at h
  split at h
  · cases h
  · split at h
    · cases h
    · unfold Attempt.andThen at h
      split at h
      · rename_i s' heq
        have hviews := congrArg (fun r : Attempt T => r.rep.views) heq
        have hview : s'.view = s.view := congrArg Views.view (hviews.symm.trans views_updateHqc)
        rw [← hview]
        exact out_echoes h
      · cases h

theorem out_onReceiveAck {a : Ack} (h : o ∈ (s.onReceiveAck E a).out) :
    ∃ blk, o = .consensus blk := by
  unfold onReceiveAck at h
  dsimp only at h
  repeat' split at h
  all_goals try exact absurd h List.not_mem_nil
  obtain ⟨blk, -, rfl⟩ := List.mem_map.mp h
  exact ⟨blk, rfl⟩

theorem out_onReceiveShare {sh : Share T} (h : o ∈ (s.onReceiveShare E sh).out) :
    o.IsMessage ∨ Said E s (.onReceiveShare sh) o := by
  unfold onReceiveShare at h
  split at h
  · cases h
  · rename_i hview
    dsimp only at h
    repeat' split at h
    all_goals try exact absurd h List.not_mem_nil
    rename_i beacon _ hbeacon
    rcases List.mem_cons.mp h with rfl | h
    · exact Or.inr (Said.beacon sh beacon (not_lt.mp hview) (by simpa using hbeacon))
    · left
      rw [List.mem_singleton.mp h]
      exact trivial

theorem exec_out {fr : Frame T} (h : o ∈ (s.exec E fr).out) : o.IsMessage ∨ Said E s fr o := by
  by_cases he : fr.Emits
  · cases fr <;> try exact False.elim he
    case vote blk p =>
      rcases out_vote h with hmsg | rfl
      · exact Or.inl hmsg
      · exact Or.inr (Said.vote blk p)
    case ack blk =>
      rw [List.mem_singleton.mp h]
      exact Or.inr (Said.ack blk)
    case proposalDeliver p =>
      rcases out_proposalDeliver h with hmsg | ⟨root, rfl⟩
      · exact Or.inl hmsg
      · exact Or.inr (Said.echo _ root)
    case onReceiveQc qc =>
      rcases out_onReceiveQc h with hmsg | ⟨root, rfl⟩
      · exact Or.inl hmsg
      · exact Or.inr (Said.echo _ root)
    case onReceiveAck a =>
      obtain ⟨blk, rfl⟩ := out_onReceiveAck h
      exact Or.inr (Said.consensus a blk)
    case onReceiveShare sh => exact out_onReceiveShare h
  · exact Or.inl (exec_quiet he _ h)

/-- Votes, acknowledgements and the two kinds of echo are all that is signed. -/
theorem exec_signed {fr : Frame T} {kind : SignKind} {digest v : ℕ}
    (h : .signed kind digest v ∈ (s.exec E fr).out) : v = s.view ∧
      ((kind = .vote ∧ ∃ p, fr = .vote digest p) ∨ (kind = .ack ∧ fr = .ack digest) ∨
        kind = .echo) := by
  rcases exec_out h with hmsg | hsaid
  · exact hmsg.elim
  · cases hsaid with
    | vote _ p => exact ⟨rfl, Or.inl ⟨rfl, p, rfl⟩⟩
    | ack => exact ⟨rfl, Or.inr (Or.inl ⟨rfl, rfl⟩)⟩
    | echo => exact ⟨rfl, Or.inr (Or.inr rfl)⟩

end Replica

end OptRand.Hotstuff
