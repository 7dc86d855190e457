import OptRand.Hotstuff.Handlers

/-!
# What a call writes and whom it calls

Each function of a replica writes a few fields of the state and makes calls of a few kinds. Both are
tables here, one line for each call: `Frame.patch` has the fields and `Frame.MayCall` the calls that
it may make. `Replica.exec_patch` and `Frame.mayCall_of_mem` prove them, so that an invariant of
some fields, or of the calls on a stack, is checked for the calls that matter to it only.
-/

namespace OptRand.Hotstuff

open Lib

variable {T : PayloadTypes}

/-! ## The tables -/

/-- The state `s` with the fields that the call may write as they are in `t`. -/
def Frame.patch (s t : Replica T) : Frame T → Replica T
  | .handle _ _ => { s with blkCache := t.blkCache, blkFetchWaiting := t.blkFetchWaiting }
  | .gather _ _ _ _ => { s with pendings := t.pendings, nextPending := t.nextPending }
  | .startDelivery _ _ =>
    { s with
      blkDeliveryWaiting := t.blkDeliveryWaiting
      blkFetchWaiting := t.blkFetchWaiting
      pendings := t.pendings
      nextPending := t.nextPending }
  | .notify _ _ => { s with pendings := t.pendings }
  | .run _ _ => { s with blkFetchWaiting := t.blkFetchWaiting }
  | .onDeliverBlk _ =>
    { s with blkCache := t.blkCache, tails := t.tails, blkDeliveryWaiting := t.blkDeliveryWaiting }
  | .onFetchBlk _ => { s with blkFetchWaiting := t.blkFetchWaiting }
  | .onReceiveProposal _ =>
    { s with
      hqc := t.hqc
      vheight := t.vheight
      proposals := t.proposals
      pm := { s.pm with hqcTail := t.pm.hqcTail } }
  | .checkAggregation _ _ =>
    { s with
      finishedPropose := t.finishedPropose
      viewAggTranscripts := t.viewAggTranscripts
      draws := t.draws
      blkCache := t.blkCache
      pm := { s.pm with
        hqcTail := t.pm.hqcTail
        propBlk := t.pm.propBlk
        regReceiveProposals := t.pm.regReceiveProposals } }
  | .proposalDeliver _ => { s with lastProposeDeliveredView := t.lastProposeDeliveredView }
  | .onReceiveViewProposal_ =>
    { s with
      lastViewProposalReceived := t.lastViewProposalReceived
      viewProposalWaiting := t.viewProposalWaiting }
  | .onReceiveVote _ =>
    { s with hqc := t.hqc, blkCache := t.blkCache, pm := { s.pm with hqcTail := t.pm.hqcTail } }
  | .onReceiveStatus _ =>
    { s with
      hqc := t.hqc
      statusReceived := t.statusReceived
      blkCache := t.blkCache
      pm := { s.pm with hqcTail := t.pm.hqcTail } }
  | .onReceiveQc _ =>
    { s with
      hqc := t.hqc
      lastViewCertReceived := t.lastViewCertReceived
      lastCertDeliveredView := t.lastCertDeliveredView
      blkCache := t.blkCache
      pm := { s.pm with hqcTail := t.pm.hqcTail } }
  | .onReceiveQc_ => { s with viewQcWaiting := t.viewQcWaiting }
  | .onReceiveAck _ =>
    { s with
      bExec := t.bExec
      blkCache := t.blkCache
      qcWaiting := t.qcWaiting
      pm := { s.pm with
        rotating := t.pm.rotating, locked := t.pm.locked, lastProposed := t.pm.lastProposed } }
  | .broadcastShare => { s with draws := t.draws }
  | .onReceiveShare _ =>
    { s with
      lastViewSharesReceived := t.lastViewSharesReceived
      lastViewBeaconReceived := t.lastViewBeaconReceived
      viewShares := t.viewShares }
  | .onReceiveBeacon _ => { s with lastViewBeaconReceived := t.lastViewBeaconReceived }
  | .tryEnterView =>
    { s with
      view := t.view
      aggQueue := t.aggQueue
      qcWaiting := t.qcWaiting
      pm := { s.pm with
        proposer := t.pm.proposer
        rotating := t.pm.rotating
        propBlk := t.pm.propBlk
        regProposals := t.pm.regProposals
        regReceiveProposals := t.pm.regReceiveProposals
        lastProposed := t.pm.lastProposed
        locked := t.pm.locked } }
  | .onEnterView _ => { s with viewWaiting := t.viewWaiting }
  | .sendSharing _ =>
    { s with
      viewTranscripts := t.viewTranscripts
      transcriptIds := t.transcriptIds
      draws := t.draws
      proposeTimer := t.proposeTimer }
  | .onReceiveProposalEcho _ =>
    { s with
      tails := t.tails
      lastProposeDecodedView := t.lastProposeDecodedView
      propChunks := t.propChunks
      blkCache := t.blkCache }
  | .onReceiveCertEcho _ =>
    { s with lastCertDecodedView := t.lastCertDecodedView, qcChunks := t.qcChunks }
  | .eraseQcChunks _ => { s with qcChunks := t.qcChunks }
  | .onReceivePvssTranscript _ =>
    { s with
      viewTranscripts := t.viewTranscripts
      transcriptIds := t.transcriptIds
      viewAggTranscripts := t.viewAggTranscripts
      draws := t.draws }
  | .doPropose =>
    { s with
      vheight := t.vheight
      finishedPropose := t.finishedPropose
      tails := t.tails
      blkCache := t.blkCache
      proposeTimer := t.proposeTimer }
  | .onProposeTimer | .stopProposeTimer => { s with proposeTimer := t.proposeTimer }
  | .onPropose_ _ =>
    { s with pm := { s.pm with
      hqcTail := t.pm.hqcTail
      propBlk := t.pm.propBlk
      regProposals := t.pm.regProposals
      lastProposed := t.pm.lastProposed
      locked := t.pm.locked } }
  | .finishPropose _ => { s with lastProposedView := t.lastProposedView }
  | .onQcFinish _ | .eraseQcWaiting _ => { s with qcWaiting := t.qcWaiting }
  | .execCommand _ =>
    { s with
      decisionWaiting := t.decisionWaiting
      cmdPendingBuffer := t.cmdPendingBuffer
      pm := { s.pm with pendingBeats := t.pm.pendingBeats, nextBeat := t.pm.nextBeat } }
  | .afterBeat _ => { s with pm := { s.pm with attachedBeats := t.pm.attachedBeats } }
  | .resolveBeat _ => { s with pm := { s.pm with resolvedBeats := t.pm.resolvedBeats } }
  | .beatCallback =>
    { s with
      qcWaiting := t.qcWaiting
      pm := { s.pm with
        proposer := t.pm.proposer
        rotating := t.pm.rotating
        propBlk := t.pm.propBlk
        regProposals := t.pm.regProposals
        regReceiveProposals := t.pm.regReceiveProposals
        lastProposed := t.pm.lastProposed
        locked := t.pm.locked } }
  | .proposerScheduleNext =>
    { s with
      qcWaiting := t.qcWaiting
      pm := { s.pm with pendingBeats := t.pm.pendingBeats, pmQcFinish := t.pm.pmQcFinish } }
  | .lock => { s with pm := { s.pm with locked := t.pm.locked } }
  | .resolve _ | .proposalVote _ _ | .vote _ _ | .broadcastQc _ | .ack _ | .broadcastAck _
  | .sendShare _ | .sendStatus | .fetchTimeout _ => s

/-- The calls that a call may make. -/
inductive Frame.MayCall : Frame T → Frame T → Prop
  | handleGather {peer : ℕ} {msg : Msg T} {hs conds wait} :
      MayCall (.handle peer msg) (.gather hs peer conds wait)
  | handleTranscript {peer : ℕ} {t : PVSSTranscript T} :
      MayCall (.handle peer (.pvssTranscript t)) (.onReceivePvssTranscript t)
  | handleFetch {peer : ℕ} {blks : List (BlockContent T)} {h} :
      MayCall (.handle peer (.respBlock blks)) (.onFetchBlk h)
  | gatherNext {hs peer conds hs' conds'} {wait : Wait T} :
      MayCall (.gather hs peer conds wait) (.gather hs' peer conds' wait)
  | gatherDelivery {hs peer conds h} {wait : Wait T} :
      MayCall (.gather hs peer conds wait) (.startDelivery h peer)
  | gatherRun {hs peer conds result} {wait : Wait T} :
      MayCall (.gather hs peer conds wait) (.run wait.task result)
  | startDelivery {h peer : ℕ} : MayCall (.startDelivery h peer) (.run (.fetched h peer) true)
  | notify {id : ℕ} {cond : Cond} {task : Task T} {result : Bool} :
      MayCall (.notify id cond) (.run task result)
  | resolve {id : ℕ} {cond : Cond} : MayCall (.resolve cond) (.notify id cond)
  | runFetched {h peer result hs conds check} :
      MayCall (.run (.fetched h peer) result) (.gather hs peer conds ⟨check, [], .deliver h⟩)
  | runDeliver {h result} : MayCall (.run (.deliver h) result) (.onDeliverBlk h)
  | runPropose {prop result} : MayCall (.run (.propose prop) result) (.onReceiveProposal prop)
  | runVote {vote result} : MayCall (.run (.vote vote) result) (.onReceiveVote vote)
  | runAck {ack result} : MayCall (.run (.ack ack) result) (.onReceiveAck ack)
  | runShare {share : Share T} {result} :
      MayCall (.run (.share share) result) (.onReceiveShare share)
  | runBeacon {beacon : Beacon T} {result} :
      MayCall (.run (.beacon beacon) result) (.onReceiveBeacon beacon)
  | runStatus {status result} : MayCall (.run (.status status) result) (.onReceiveStatus status)
  | runEcho {echo : Echo T} {result} :
      MayCall (.run (.echo echo) result) (.onReceiveProposalEcho echo)
  | runEcho2 {echo : Echo T} {result} :
      MayCall (.run (.echo2 echo) result) (.onReceiveCertEcho echo)
  | runQc {qc result} : MayCall (.run (.qc qc) result) (.onReceiveQc qc)
  | onDeliverBlk {h : ℕ} : MayCall (.onDeliverBlk h) (.resolve (.delivered h))
  | onFetchBlk {h : ℕ} : MayCall (.onFetchBlk h) (.resolve (.fetched h))
  | proposalFinish {prop : Proposal} {ref : ℕ} : MayCall (.onReceiveProposal prop) (.onQcFinish ref)
  | proposalCheck {prop : Proposal} {opinion : Bool} :
      MayCall (.onReceiveProposal prop) (.checkAggregation prop opinion)
  | checkReceived {prop : Proposal} {opinion : Bool} :
      MayCall (.checkAggregation prop opinion) .onReceiveViewProposal_
  | checkVote {prop : Proposal} {opinion : Bool} :
      MayCall (.checkAggregation prop opinion) (.proposalVote prop opinion)
  | proposalVote {prop : Proposal} {opinion : Bool} :
      MayCall (.proposalVote prop opinion) (.vote prop.blk prop.proposer)
  | proposalDeliver {prop : Proposal} {opinion : Bool} :
      MayCall (.proposalVote prop opinion) (.proposalDeliver prop)
  | onReceiveViewProposal_ {view : ℕ} :
      MayCall .onReceiveViewProposal_ (.resolve (.viewProposal view))
  | vote {blk proposer id view : ℕ} : MayCall (.vote blk proposer)
      (.onReceiveVote ⟨id, blk, createPartCert id blk view, view⟩)
  | voteFinish {vote : Vote} : MayCall (.onReceiveVote vote) (.onQcFinish vote.blkHash)
  | voteBroadcast {vote : Vote} : MayCall (.onReceiveVote vote) (.broadcastQc vote.blkHash)
  | voteAck {vote : Vote} : MayCall (.onReceiveVote vote) (.ack vote.blkHash)
  | onReceiveStatus {status : Status} : MayCall (.onReceiveStatus status) .doPropose
  | qcReceived {qc : QuorumCert} : MayCall (.onReceiveQc qc) .onReceiveQc_
  | qcAck {qc : QuorumCert} : MayCall (.onReceiveQc qc) (.ack qc.objHash)
  | qcEnter {qc : QuorumCert} : MayCall (.onReceiveQc qc) .tryEnterView
  | onReceiveQc_ {view : ℕ} : MayCall .onReceiveQc_ (.resolve (.viewQc view))
  | ackReceive {blk id view : ℕ} :
      MayCall (.ack blk) (.onReceiveAck ⟨id, blk, createPartCert id blk view, view⟩)
  | ackBroadcast {blk id view : ℕ} :
      MayCall (.ack blk) (.broadcastAck ⟨id, blk, createPartCert id blk view, view⟩)
  | onReceiveAck {ack : Ack} : MayCall (.onReceiveAck ack) .broadcastShare
  | shareReceive {share : Share T} : MayCall .broadcastShare (.onReceiveShare share)
  | shareSend {share : Share T} : MayCall .broadcastShare (.sendShare share)
  | onReceiveShare {share : Share T} : MayCall (.onReceiveShare share) .tryEnterView
  | onReceiveBeacon {beacon : Beacon T} : MayCall (.onReceiveBeacon beacon) .tryEnterView
  | tryEnterView {view : ℕ} : MayCall .tryEnterView (.onEnterView view)
  | enterResolve {view : ℕ} : MayCall (.onEnterView view) (.resolve (.enterView view))
  | enterStatus {view : ℕ} : MayCall (.onEnterView view) .sendStatus
  | enterSharing {view : ℕ} : MayCall (.onEnterView view) (.sendSharing view)
  | sendStatus {status : Status} : MayCall .sendStatus (.onReceiveStatus status)
  | onReceiveProposalEcho {echo : Echo T} {prop : Proposal} :
      MayCall (.onReceiveProposalEcho echo) (.onReceiveProposal prop)
  | certReceive {echo : Echo T} {qc : QuorumCert} :
      MayCall (.onReceiveCertEcho echo) (.onReceiveQc qc)
  | certErase {echo : Echo T} : MayCall (.onReceiveCertEcho echo) (.eraseQcChunks echo.view)
  | proposeVote {h id : ℕ} : MayCall .doPropose (.vote h id)
  | proposeNote {prop : Proposal} : MayCall .doPropose (.onPropose_ prop)
  | proposeFinish {prop : Proposal} : MayCall .doPropose (.finishPropose prop)
  | timerPropose : MayCall .onProposeTimer .doPropose
  | timerStop : MayCall .onProposeTimer .stopProposeTimer
  | onPropose_ {prop : Proposal} : MayCall (.onPropose_ prop) .proposerScheduleNext
  | finishPropose {prop : Proposal} : MayCall (.finishPropose prop) .onReceiveViewProposal_
  | finishResolve {blk beat : ℕ} : MayCall (.onQcFinish blk) (.resolveBeat beat)
  | finishErase {blk : ℕ} : MayCall (.onQcFinish blk) (.eraseQcWaiting blk)
  | beatSchedule {cmdHash : ℕ} : MayCall (.execCommand cmdHash) .proposerScheduleNext
  | beatAfter {cmdHash beat : ℕ} : MayCall (.execCommand cmdHash) (.afterBeat beat)
  | beatCallback {cmdHash : ℕ} : MayCall (.execCommand cmdHash) .beatCallback
  | afterBeat {beat : ℕ} : MayCall (.afterBeat beat) .beatCallback
  | resolveBeat {beat : ℕ} : MayCall (.resolveBeat beat) .beatCallback
  | callbackEnter : MayCall .beatCallback (.onEnterView 1)
  | scheduleResolve {beat : ℕ} : MayCall .proposerScheduleNext (.resolveBeat beat)
  | scheduleLock : MayCall .proposerScheduleNext .lock

/-- The calls that an outcome makes are ones that `fr` may make. -/
def Outcome.Makes (fr : Frame T) (o : Outcome T) : Prop := ∀ fr' ∈ o.calls, fr.MayCall fr'

/-- The state after an attempt, also when it throws. -/
def Attempt.rep : Attempt T → Replica T
  | .ok s => s
  | .error (s, _) => s

namespace Replica

variable {s : Replica T} {E : Env T}

/-! ## Outcomes -/

@[simp] theorem rep_done : s.done.rep = s := rfl

@[simp] theorem rep_raise {e : Error} : (s.raise e).rep = s := rfl

@[simp] theorem rep_call {calls : List (Frame T)} : (s.call calls).rep = s := rfl

@[simp] theorem rep_emit {out : List (Output T)} {calls : List (Frame T)} :
    (s.emit out calls).rep = s := rfl

/-- What is not changed after an attempt is as the attempt leaves it. -/
theorem rep_andThen {α : Type} (part : Replica T → α) {r : Attempt T} {k : Replica T → Outcome T}
    (hk : ∀ s, part (k s).rep = part s) : part (r.andThen k).rep = part r.rep := by
  unfold Attempt.andThen
  split
  · exact hk _
  · rfl

/-- The two parts of an attempt write what one call may write. -/
theorem andThen_patch (fr : Frame T) {r : Attempt T} {k : Replica T → Outcome T}
    (hr : r.rep = fr.patch s r.rep)
    (hk : ∀ s', s' = fr.patch s s' → (k s').rep = fr.patch s (k s').rep) :
    (r.andThen k).rep = fr.patch s (r.andThen k).rep := by
  unfold Attempt.andThen
  split
  · exact hk _ hr
  · exact hr

theorem mem_calls_andThen {fr : Frame T} {r : Attempt T} {k : Replica T → Outcome T}
    (h : fr ∈ (r.andThen k).calls) : ∃ s', r = .ok s' ∧ fr ∈ (k s').calls := by
  unfold Attempt.andThen at h
  split at h
  · exact ⟨_, rfl, h⟩
  · cases h

/-! ## What the functions write that calls are made of -/

theorem modifyBlk_writes {h : ℕ} {f : Block T → Block T} :
    ∃ cache, s.modifyBlk h f = { s with blkCache := cache } := by
  unfold modifyBlk
  split
  all_goals exact ⟨_, rfl⟩

theorem addBlk_writes (blk : Block T) : ∃ cache, s.addBlk blk = { s with blkCache := cache } := by
  unfold addBlk
  split
  all_goals exact ⟨_, rfl⟩

theorem foldl_receiveBlk_writes (cs : List (BlockContent T)) :
    ∃ cache, cs.foldl (receiveBlk E) s = { s with blkCache := cache } := by
  induction cs generalizing s with
  | nil => exact ⟨_, rfl⟩
  | cons c cs ih =>
    obtain ⟨cache, h⟩ := addBlk_writes (s := s) (c.toBlock (E.hash c))
    rw [List.foldl_cons, receiveBlk, h]
    exact ih

theorem foldl_eraseTail_writes {hs : List ℕ} :
    ∃ tails, hs.foldl eraseTail s = { s with tails := tails } := by
  induction hs generalizing s with
  | nil => exact ⟨_, rfl⟩
  | cons h hs ih => exact ih (s := s.eraseTail h)

theorem insertTail_writes {h : ℕ} : ∃ tails, s.insertTail h = { s with tails := tails } := by
  unfold insertTail
  split
  all_goals exact ⟨_, rfl⟩

theorem deliverBlk_writes {h : ℕ} :
    ∃ cache tails, (s.deliverBlk h).rep = { s with blkCache := cache, tails := tails } := by
  unfold deliverBlk
  split
  · exact ⟨_, _, rfl⟩
  · split
    · exact ⟨_, _, rfl⟩
    · dsimp only
      split
      · exact ⟨_, _, rfl⟩
      · split
        · exact ⟨_, _, rfl⟩
        · split
          · exact ⟨_, _, rfl⟩
          · obtain ⟨tails, h'⟩ := insertTail_writes (s := List.foldl eraseTail _ _) (h := h)
            obtain ⟨tails', herase⟩ := foldl_eraseTail_writes (s := s.setBlk h _)
            rw [Attempt.rep, h', herase]
            exact ⟨_, _, rfl⟩

theorem onHqcUpdate_writes {s' : Replica T} (h : s.onHqcUpdate = .ok s') :
    ∃ tail, s' = { s with pm := { s.pm with hqcTail := tail } } := by
  obtain ⟨tail, -, heq⟩ := bind_eq_ok.mp h
  cases heq
  exact ⟨tail, rfl⟩

theorem updateHqc_writes (h : ℕ) (qc : QuorumCert) : ∃ hqc tail, (s.updateHqc h qc).rep =
    { s with hqc := hqc, pm := { s.pm with hqcTail := tail } } := by
  unfold updateHqc
  split
  · exact ⟨_, _, rfl⟩
  · split
    · dsimp only
      split
      · rename_i heq
        obtain ⟨tail, rfl⟩ := onHqcUpdate_writes heq
        exact ⟨_, _, rfl⟩
      · exact ⟨_, _, rfl⟩
    · exact ⟨_, _, rfl⟩

theorem rejectQcFinish_writes : ∃ waiting, s.rejectQcFinish = { s with qcWaiting := waiting } := by
  unfold rejectQcFinish
  repeat' split
  all_goals exact ⟨_, rfl⟩

theorem stopRotate_writes : ∃ waiting, s.stopRotate E = { s with
    qcWaiting := waiting
    pm := { s.pm with rotating := false, locked := false, lastProposed := E.genesis } } := by
  obtain ⟨waiting, h⟩ := rejectQcFinish_writes (s := s)
  unfold stopRotate
  rw [h]
  exact ⟨_, rfl⟩

/-- Entering a view leaves the rotation stopped. -/
theorem enterView_writes (view : ℕ) (hrotating : s.pm.rotating = false) :
    ∃ waiting, s.enterView E view = { s with
      qcWaiting := waiting
      pm := { s.pm with
        regProposals := s.pm.regProposals + 1
        regReceiveProposals := s.pm.regReceiveProposals + 1
        propBlk := fun _ => none
        rotating := false
        proposer := E.getProposer view
        locked := false
        lastProposed := E.genesis } } := by
  have hstop : s.enterView E view = (s.rotate E view).stopRotate E :=
    if_neg (by rw [hrotating]; exact Bool.false_ne_true)
  obtain ⟨waiting, h⟩ := stopRotate_writes (s := s.rotate E view) (E := E)
  obtain ⟨waiting', hrotate⟩ : ∃ waiting', s.rotate E view = _ :=
    rejectQcFinish_writes
  rw [hstop, h, hrotate]
  exact ⟨_, rfl⟩

theorem notePropBlk_writes (proposer blk : ℕ) : ∃ propBlk, s.notePropBlk proposer blk =
    { s with pm := { s.pm with propBlk := propBlk } } := by
  unfold notePropBlk
  split
  all_goals exact ⟨_, rfl⟩

theorem asyncFetchBlk_writes (h : ℕ) (peer : Option ℕ) : ∃ waiting,
    (s.asyncFetchBlk h peer).1 = { s with blkFetchWaiting := waiting } := by
  unfold asyncFetchBlk
  split
  all_goals exact ⟨_, rfl⟩

theorem fetchAll_writes (hs : List ℕ) : ∃ waiting,
    (s.fetchAll hs).1 = { s with blkFetchWaiting := waiting } := by
  induction hs generalizing s with
  | nil => exact ⟨_, rfl⟩
  | cons h hs ih =>
    obtain ⟨waiting, heq⟩ := asyncFetchBlk_writes (s := s) h none
    rw [fetchAll]
    dsimp only
    rw [heq]
    exact ih

theorem onConsensus_writes (blk : ℕ) : ∃ waiting rotating locked last,
    s.onConsensus E blk = { s with
      qcWaiting := waiting
      pm := { s.pm with rotating := rotating, locked := locked, lastProposed := last } } := by
  unfold onConsensus
  split
  · obtain ⟨waiting, h⟩ := stopRotate_writes (s := s) (E := E)
    exact ⟨_, _, _, _, h⟩
  · exact ⟨_, _, _, _, rfl⟩

theorem commitBlocks_writes {queue : List ℕ} : ∃ cache waiting rotating locked last,
    s.commitBlocks E queue = { s with
      blkCache := cache
      qcWaiting := waiting
      pm := { s.pm with rotating := rotating, locked := locked, lastProposed := last } } := by
  induction queue generalizing s with
  | nil => exact ⟨_, _, _, _, _, rfl⟩
  | cons blk queue ih =>
    obtain ⟨cache, h⟩ := modifyBlk_writes (s := s) (h := blk)
      (f := fun b => { b with decision := 1 })
    obtain ⟨waiting, rotating, locked, last, h'⟩ := onConsensus_writes
      (s := s.modifyBlk blk fun b => { b with decision := 1 }) (E := E) blk
    rw [commitBlocks, h', h]
    exact ih

theorem noteProposal_writes {prop : Proposal} {s' : Replica T}
    (h : s.onReceiveProposal_ prop = .ok s') : ∃ tail propBlk waiting, s' = { s with
      pm := { s.pm with
        hqcTail := tail, propBlk := propBlk, regReceiveProposals := waiting } } := by
  obtain ⟨follows, -, heq⟩ := bind_eq_ok.mp h
  cases heq
  have hnote (t : Replica T) := notePropBlk_writes (s := t) prop.proposer prop.blk
  dsimp only
  repeat' split
  all_goals first | exact ⟨_, _, _, rfl⟩ | skip
  all_goals
    obtain ⟨propBlk, h'⟩ := hnote _
    rw [h']
    exact ⟨_, _, _, rfl⟩

/-! ## What a call writes -/

theorem patch_handle {peer : ℕ} {msg : Msg T} :
    (s.handle E peer msg).rep = (Frame.handle peer msg).patch s (s.handle E peer msg).rep := by
  cases msg <;> simp only [handle]
  case propose p =>
    obtain ⟨cache, h⟩ := addBlk_writes (s := s) (p.blk.toBlock (E.hash p.blk))
    rw [receiveBlk, h]
    rfl
  case respBlock blks =>
    obtain ⟨cache, h⟩ := foldl_receiveBlk_writes (s := s) (E := E) blks
    rw [h]
    rfl
  case reqBlock hs =>
    split
    · rfl
    · obtain ⟨waiting, h⟩ := fetchAll_writes (s := s) hs
      rw [rep_call, h]
      rfl
  all_goals rfl

theorem patch_startDelivery {h peer : ℕ} : (s.startDelivery h peer).rep =
    (Frame.startDelivery h peer).patch s (s.startDelivery h peer).rep := by
  obtain ⟨waiting, heq⟩ := asyncFetchBlk_writes h (some peer)
    (s := { s with blkDeliveryWaiting := h :: s.blkDeliveryWaiting })
  unfold startDelivery
  dsimp only
  rw [heq]
  split
  all_goals rfl

theorem patch_run {task : Task T} {result : Bool} : (s.runTask E task result).rep =
    (Frame.run task result).patch s (s.runTask E task result).rep := by
  cases task <;> simp only [runTask]
  case fetched h peer =>
    unfold fetched
    split
    · rfl
    · rename_i b _
      obtain ⟨waiting, heq⟩ := asyncFetchBlk_writes (s := s) b.qcRefHash (some peer)
      dsimp only
      rw [heq]
      split
      all_goals rfl
  all_goals repeat' split
  all_goals rfl

theorem patch_onDeliverBlk {h : ℕ} : (s.onDeliverBlk h).rep =
    (Frame.onDeliverBlk h).patch s (s.onDeliverBlk h).rep := by
  unfold onDeliverBlk
  split
  · rfl
  · split
    · rfl
    · split
      · rfl
      · refine andThen_patch (.onDeliverBlk h) ?_ fun s' hs' => ?_
        · obtain ⟨cache, tails, hdeliver⟩ := deliverBlk_writes (s := s) (h := h)
          rw [hdeliver]
          rfl
        · rw [hs']
          split
          all_goals rfl

theorem adopt_writes (bnew : Block T) : ∃ hqc tail, (s.adopt bnew).rep =
    { s with hqc := hqc, pm := { s.pm with hqcTail := tail } } := by
  unfold adopt
  split
  · exact updateHqc_writes _ _
  · exact ⟨_, _, rfl⟩
  · exact ⟨_, _, rfl⟩

theorem patch_onReceiveProposal {prop : Proposal} : (s.onReceiveProposal prop).rep =
    (Frame.onReceiveProposal prop).patch s (s.onReceiveProposal prop).rep := by
  rcases onReceiveProposal_judge s prop with ⟨err, h⟩ | ⟨b, -, -, -, h⟩
  · rw [h]
    rfl
  · rw [h]
    refine andThen_patch (.onReceiveProposal prop) ?_ fun s' hs' => ?_
    · obtain ⟨hqc, tail, hadopt⟩ := adopt_writes (s := s) b
      rw [hadopt]
      rfl
    · obtain ⟨vheight, proposals, hjudge⟩ := rep_judge prop b s'
      rw [hjudge, hs']
      rfl

theorem patch_checkAggregation {prop : Proposal} {opinion : Bool} :
    (s.checkAggregation E prop opinion).rep =
      (Frame.checkAggregation prop opinion).patch s (s.checkAggregation E prop opinion).rep := by
  obtain ⟨cache, h⟩ := modifyBlk_writes (s := s.drawn) (h := prop.blk)
    (f := fun b => { b with view := s.view })
  unfold checkAggregation
  split
  · rfl
  · dsimp only
    split
    · rfl
    · rfl
    · rw [h]
      split
      · rfl
      · rename_i heq
        obtain ⟨tail, propBlk, waiting, rfl⟩ := noteProposal_writes heq
        rfl

theorem patch_onReceiveVote {vote : Vote} : (s.onReceiveVote E vote).rep =
    (Frame.onReceiveVote vote).patch s (s.onReceiveVote E vote).rep := by
  unfold onReceiveVote
  dsimp only
  repeat' split
  all_goals try rfl
  all_goals
    refine andThen_patch (.onReceiveVote vote) ?_ fun s' hs' => hs'
    obtain ⟨hqc, tail, h⟩ := updateHqc_writes _ _
    rw [h]
    rfl

theorem patch_onReceiveStatus {status : Status} : (s.onReceiveStatus E status).rep =
    (Frame.onReceiveStatus status).patch s (s.onReceiveStatus E status).rep := by
  unfold onReceiveStatus
  dsimp only
  split
  · rfl
  · split
    · rfl
    · split
      · rfl
      · refine andThen_patch (.onReceiveStatus status) ?_ fun s' hs' => ?_
        · obtain ⟨hqc, tail, h⟩ := updateHqc_writes _ _
          rw [h]
          rfl
        · split
          · exact hs'
          · rw [hs']
            split
            all_goals rfl

theorem patch_onReceiveQc {qc : QuorumCert} : (s.onReceiveQc E qc).rep =
    (Frame.onReceiveQc qc).patch s (s.onReceiveQc E qc).rep := by
  unfold onReceiveQc
  dsimp only
  split
  · rfl
  · split
    · rfl
    · refine andThen_patch (.onReceiveQc qc) ?_ fun s' hs' => ?_
      · obtain ⟨hqc, tail, h⟩ := updateHqc_writes _ _
        rw [h]
        rfl
      · rw [hs']
        rfl

theorem patch_onReceiveAck {ack : Ack} : (s.onReceiveAck E ack).rep =
    (Frame.onReceiveAck ack).patch s (s.onReceiveAck E ack).rep := by
  unfold onReceiveAck
  dsimp only
  repeat' split
  all_goals try rfl
  rename_i heq
  obtain ⟨exec, -, heq⟩ := bind_eq_ok.mp heq
  obtain ⟨start, -, heq⟩ := bind_eq_ok.mp heq
  obtain ⟨⟨queue, b⟩, -, heq⟩ := bind_eq_ok.mp heq
  obtain ⟨last, -, heq⟩ := bind_eq_ok.mp heq
  dsimp only at heq
  split at heq
  · cases heq
  · cases heq
    obtain ⟨cache, waiting, rotating, locked, lastProposed, h⟩ := commitBlocks_writes
    rw [rep_emit, h]
    rfl

/-- Entering a view changes fields of the pacemaker and rejects the promise it waits for. -/
theorem enterView_patch {view : ℕ} : s.enterView E view =
    Frame.beatCallback.patch s (s.enterView E view) := by
  cases hrotating : s.pm.rotating
  · obtain ⟨waiting, h⟩ := enterView_writes (E := E) view hrotating
    rw [h]
    rfl
  · have h : s.enterView E view = s := if_pos hrotating
    rw [h]
    rfl

theorem patch_tryEnterView : (s.tryEnterView E).rep =
    Frame.tryEnterView.patch s (s.tryEnterView E).rep := by
  have hqueue : s.updateAggQueue E s.view =
      { s with aggQueue := (s.updateAggQueue E s.view).aggQueue } := by
    unfold updateAggQueue
    split
    all_goals rfl
  unfold tryEnterView
  split
  · dsimp only
    rw [rep_call, enterView_patch, hqueue]
    rfl
  · rfl

theorem patch_beatCallback : (s.beatCallback E).rep =
    Frame.beatCallback.patch s (s.beatCallback E).rep := by
  unfold beatCallback
  split
  · rfl
  · exact enterView_patch

theorem patch_onReceiveProposalEcho {echo : Echo T} : (s.onReceiveProposalEcho E echo).rep =
    (Frame.onReceiveProposalEcho echo).patch s (s.onReceiveProposalEcho E echo).rep := by
  rcases onReceiveProposalEcho_eq (s := s) (E := E) echo with ⟨-, h⟩ | ⟨-, -, h⟩ | ⟨-, h⟩
  · rw [h]
    rfl
  · rw [h]
    rfl
  · rw [h]
    split
    · rfl
    · refine andThen_patch (.onReceiveProposalEcho echo) ?_ fun s' hs' => hs'
      obtain ⟨cache, tails, hdeliver⟩ := deliverBlk_writes
      obtain ⟨cache', hadd⟩ := addBlk_writes _
      rw [hdeliver, hadd]
      rfl

theorem patch_onReceiveCertEcho {echo : Echo T} : (s.onReceiveCertEcho E echo).rep =
    (Frame.onReceiveCertEcho echo).patch s (s.onReceiveCertEcho E echo).rep := by
  rcases onReceiveCertEcho_eq (s := s) (E := E) echo with ⟨-, h⟩ | ⟨-, -, h⟩ | ⟨-, h⟩
  · rw [h]
    rfl
  · rw [h]
    rfl
  · rw [h]
    split
    all_goals rfl

theorem patch_doPropose : (s.doPropose E).rep = Frame.doPropose.patch s (s.doPropose E).rep := by
  unfold doPropose
  split
  · rfl
  · unfold onPropose
    split
    · rfl
    · refine andThen_patch .doPropose ?_ fun s' hs' => ?_
      · obtain ⟨cache, tails, hdeliver⟩ := deliverBlk_writes
        obtain ⟨cache', hmodify⟩ := modifyBlk_writes
        obtain ⟨cache'', hadd⟩ := addBlk_writes _
        rw [hdeliver, hmodify, hadd]
        rfl
      · rw [hs']
        split
        all_goals rfl

/-- Proposing a block notes it as the last one and unlocks the proposer. -/
theorem notePropose_writes (prop : Proposal) : ∃ propBlk reg, (s.onPropose_ prop).rep = { s with
    pm := { s.pm with
      hqcTail := prop.blk
      propBlk := propBlk
      regProposals := reg
      lastProposed := prop.blk
      locked := false } } := by
  obtain ⟨propBlk, h⟩ := notePropBlk_writes
    (s := { s with pm := { s.pm with hqcTail := prop.blk } }) s.id prop.blk
  unfold onPropose_
  dsimp only
  rw [rep_call, h]
  repeat' split
  all_goals exact ⟨_, _, rfl⟩

theorem patch_onPropose_ {prop : Proposal} : (s.onPropose_ prop).rep =
    (Frame.onPropose_ prop).patch s (s.onPropose_ prop).rep := by
  obtain ⟨propBlk, reg, h⟩ := notePropose_writes (s := s) prop
  rw [h]
  rfl

theorem patch_execCommand {cmdHash : ℕ} : (s.execCommand E cmdHash).rep =
    (Frame.execCommand cmdHash).patch s (s.execCommand E cmdHash).rep := by
  unfold execCommand beat
  dsimp only
  repeat' split
  all_goals rfl

theorem patch_proposerScheduleNext : (s.proposerScheduleNext E).rep =
    Frame.proposerScheduleNext.patch s (s.proposerScheduleNext E).rep := by
  obtain ⟨waiting, h⟩ := rejectQcFinish_writes (s := s)
  unfold proposerScheduleNext
  dsimp only
  rw [h]
  repeat' split
  all_goals rfl

/-- A call writes the fields of its line in the table. -/
theorem exec_patch (fr : Frame T) : (s.exec E fr).rep = fr.patch s (s.exec E fr).rep := by
  cases fr
  case handle => exact patch_handle
  case startDelivery => exact patch_startDelivery
  case run => exact patch_run
  case onDeliverBlk => exact patch_onDeliverBlk
  case onReceiveProposal => exact patch_onReceiveProposal
  case checkAggregation => exact patch_checkAggregation
  case onReceiveVote => exact patch_onReceiveVote
  case onReceiveStatus => exact patch_onReceiveStatus
  case onReceiveQc => exact patch_onReceiveQc
  case onReceiveAck => exact patch_onReceiveAck
  case tryEnterView => exact patch_tryEnterView
  case onReceiveProposalEcho => exact patch_onReceiveProposalEcho
  case onReceiveCertEcho => exact patch_onReceiveCertEcho
  case doPropose => exact patch_doPropose
  case onPropose_ => exact patch_onPropose_
  case execCommand => exact patch_execCommand
  case beatCallback => exact patch_beatCallback
  case proposerScheduleNext => exact patch_proposerScheduleNext
  all_goals
    simp only [exec, gather, all, notify, resolve, onFetchBlk, proposalVote, proposalDeliver, vote,
      broadcastQc, onReceiveViewProposal_, onReceiveQc_, ack, broadcastShare, onReceiveShare,
      onReceiveBeacon, onEnterView, sendStatus, sendSharing, eraseQcChunks,
      onReceivePvssTranscript, onProposeTimer, stopProposeTimer, fetchTimeout, finishPropose,
      onQcFinish, eraseQcWaiting, afterBeat, resolveBeat, lock]
    repeat' split
    all_goals rfl

/-! ## Which calls a call makes -/

theorem makes_andThen {fr : Frame T} {r : Attempt T} {k : Replica T → Outcome T}
    (hk : ∀ s, (k s).Makes fr) : (r.andThen k).Makes fr := by
  intro fr' hfr'
  obtain ⟨s', -, hcall⟩ := mem_calls_andThen hfr'
  exact hk s' fr' hcall

@[simp] theorem makes_done {fr : Frame T} : s.done.Makes fr := nofun

@[simp] theorem makes_raise {fr : Frame T} {e : Error} : (s.raise e).Makes fr := nofun

@[simp] theorem makes_call {fr : Frame T} {calls : List (Frame T)} :
    (s.call calls).Makes fr ↔ ∀ fr' ∈ calls, fr.MayCall fr' := Iff.rfl

@[simp] theorem makes_emit {fr : Frame T} {out : List (Output T)} {calls : List (Frame T)} :
    (s.emit out calls).Makes fr ↔ ∀ fr' ∈ calls, fr.MayCall fr' := Iff.rfl

theorem makes_handle {peer : ℕ} {msg : Msg T} :
    (s.handle E peer msg).Makes (.handle peer msg) := by
  cases msg <;> simp only [handle]
  case respBlock blks =>
    intro fr' hfr'
    obtain ⟨c, -, rfl⟩ := List.mem_map.mp hfr'
    exact .handleFetch
  case reqBlock hs =>
    split
    · simp
    · simpa using .handleGather
  case pvssTranscript => simpa using .handleTranscript
  all_goals simpa using .handleGather

theorem makes_gather {hs : List ℕ} {peer : ℕ} {conds : List Cond} {wait : Wait T} :
    (s.gather E hs peer conds wait).Makes (.gather hs peer conds wait) := by
  unfold gather
  split
  · unfold all
    dsimp only
    repeat' split
    all_goals try simp
    all_goals exact .gatherRun
  · repeat' split
    · simpa using .gatherNext
    · simpa using .gatherNext
    · simpa using ⟨.gatherDelivery, .gatherNext⟩

theorem makes_run {task : Task T} {result : Bool} :
    (s.runTask E task result).Makes (.run task result) := by
  cases task <;> simp only [runTask]
  case fetched =>
    unfold fetched
    split
    · simp
    · dsimp only
      split
      · simpa using .runFetched
      · simpa using .runFetched
  case respBlock => simp
  all_goals repeat' split
  all_goals simp
  all_goals constructor

theorem makes_onDeliverBlk {h : ℕ} : (s.onDeliverBlk h).Makes (.onDeliverBlk h) := by
  unfold onDeliverBlk
  repeat' split
  · simp
  · simp
  · simp
  · refine makes_andThen fun s => ?_
    split
    · simpa using .onDeliverBlk
    · simp

theorem makes_onReceiveProposal {prop : Proposal} :
    (s.onReceiveProposal prop).Makes (.onReceiveProposal prop) := by
  rcases onReceiveProposal_judge s prop with ⟨err, h⟩ | ⟨b, -, -, -, h⟩
  · rw [h]
    exact nofun
  · rw [h]
    refine makes_andThen fun s => ?_
    unfold judge
    dsimp only
    split
    · simp
    · split
      · simpa using ⟨.proposalFinish, .proposalCheck⟩
      · simpa using .proposalCheck

theorem makes_onReceiveVote {vote : Vote} :
    (s.onReceiveVote E vote).Makes (.onReceiveVote vote) := by
  unfold onReceiveVote
  dsimp only
  repeat' split
  all_goals try simp
  all_goals
    refine makes_andThen fun s => ?_
    simpa using ⟨.voteFinish, .voteBroadcast, .voteAck⟩

theorem makes_onReceiveStatus {status : Status} :
    (s.onReceiveStatus E status).Makes (.onReceiveStatus status) := by
  unfold onReceiveStatus
  dsimp only
  split
  · simp
  · split
    · simp
    · split
      · simp
      · refine makes_andThen fun s => ?_
        split
        · simp
        · split
          · simpa using .onReceiveStatus
          · simp

theorem makes_onReceiveQc {qc : QuorumCert} : (s.onReceiveQc E qc).Makes (.onReceiveQc qc) := by
  unfold onReceiveQc
  dsimp only
  repeat' split
  all_goals try simp
  refine makes_andThen fun s => ?_
  simpa using ⟨.qcReceived, .qcAck, .qcEnter⟩

theorem makes_onReceiveProposalEcho {echo : Echo T} :
    (s.onReceiveProposalEcho E echo).Makes (.onReceiveProposalEcho echo) := by
  rcases onReceiveProposalEcho_eq (s := s) (E := E) echo with ⟨-, h⟩ | ⟨-, -, h⟩ | ⟨-, h⟩
  · rw [h]
    simp
  · rw [h]
    simp
  · rw [h]
    split
    · simp
    · refine makes_andThen fun s => ?_
      simpa using .onReceiveProposalEcho

theorem makes_onReceiveCertEcho {echo : Echo T} :
    (s.onReceiveCertEcho E echo).Makes (.onReceiveCertEcho echo) := by
  rcases onReceiveCertEcho_eq (s := s) (E := E) echo with ⟨-, h⟩ | ⟨-, -, h⟩ | ⟨-, h⟩
  · rw [h]
    simp
  · rw [h]
    simp
  · rw [h]
    split
    · simp
    · simpa using ⟨.certReceive, .certErase⟩

theorem makes_doPropose : (s.doPropose E).Makes .doPropose := by
  unfold doPropose
  split
  · simp
  · unfold onPropose
    split
    · simp
    · refine makes_andThen fun s => ?_
      split
      · simp
      · simpa using ⟨.proposeVote, .proposeNote, .proposeFinish⟩

theorem makes_onQcFinish {blk : ℕ} : (s.onQcFinish blk).Makes (.onQcFinish blk) := by
  unfold onQcFinish
  split
  · simp
  · intro fr' hfr'
    rcases List.mem_append.mp hfr' with hfr' | hfr'
    · obtain ⟨beat, -, rfl⟩ := List.mem_map.mp hfr'
      exact .finishResolve
    · rw [List.mem_singleton.mp hfr']
      exact .finishErase
  · simpa using .finishErase

theorem makes_resolve {cond : Cond} : (s.resolve cond).Makes (.resolve cond) := by
  intro fr' hfr'
  obtain ⟨p, -, hp⟩ := List.mem_flatMap.mp hfr'
  rw [List.eq_of_mem_replicate hp]
  exact .resolve

theorem makes_vote {blk proposer : ℕ} : (s.vote E blk proposer).Makes (.vote blk proposer) := by
  unfold vote
  dsimp only
  split
  · simpa using .vote
  · split
    · simp
    · exact nofun

/-- A call makes calls of its line in the table. -/
theorem exec_makes (fr : Frame T) : (s.exec E fr).Makes fr := by
  cases fr
  case handle => exact makes_handle
  case gather => exact makes_gather
  case run => exact makes_run
  case resolve => exact makes_resolve
  case onDeliverBlk => exact makes_onDeliverBlk
  case onReceiveProposal => exact makes_onReceiveProposal
  case onReceiveVote => exact makes_onReceiveVote
  case onReceiveStatus => exact makes_onReceiveStatus
  case onReceiveQc => exact makes_onReceiveQc
  case onReceiveProposalEcho => exact makes_onReceiveProposalEcho
  case onReceiveCertEcho => exact makes_onReceiveCertEcho
  case doPropose => exact makes_doPropose
  case vote => exact makes_vote
  case onQcFinish => exact makes_onQcFinish
  all_goals
    simp only [exec, startDelivery, notify, onFetchBlk, checkAggregation, proposalVote,
      proposalDeliver, onReceiveViewProposal_, broadcastQc, onReceiveQc_, ack, onReceiveAck,
      broadcastShare, onReceiveShare, onReceiveBeacon, tryEnterView, onEnterView, sendStatus,
      sendSharing, eraseQcChunks, onReceivePvssTranscript, onProposeTimer, stopProposeTimer,
      fetchTimeout, onPropose_, finishPropose, eraseQcWaiting, execCommand, beat, afterBeat,
      beatCallback, resolveBeat, proposerScheduleNext, lock]
    repeat' split
    all_goals simp
    all_goals repeat' apply And.intro
    all_goals constructor

end Replica

/-- A call that is made is one of the table. -/
theorem Frame.mayCall_of_mem {E : Env T} {s : Replica T} {fr fr' : Frame T}
    (h : fr' ∈ (s.exec E fr).calls) : fr.MayCall fr' :=
  s.exec_makes fr fr' h

end OptRand.Hotstuff
