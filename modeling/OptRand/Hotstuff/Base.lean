import OptRand.Hotstuff.Core

/-!
# The network layer (`hotstuff.cpp`)

The handlers of `HotStuffBase`, the promises they wait for, and the functions that
`HotStuffCore` calls back. A replica is addressed by its id.
-/

namespace OptRand.Hotstuff

variable {T : PayloadTypes}

namespace Replica

/-! ## Waiting -/

/-- Whether a promise is still to be resolved. A promise of `blk_delivery_waiting` or
`blk_fetch_waiting` leaves its map when it is resolved. -/
def unresolved (s : Replica T) : Cond → Bool
  | .delivered h => h ∈ s.blkDeliveryWaiting
  | .fetched h => (s.blkFetchWaiting h).isSome
  | .veri => true
  | .enterView v => !(v ≤ s.view || s.viewWaiting v)
  | .viewProposal v => !(s.lastViewProposalReceived ≥ v || s.viewProposalWaiting v)
  | .viewQc v => !(s.lastViewCertReceived ≥ s.view || s.viewQcWaiting v)

/-- Start the verification of a message: its result, and whether it waits for the pool. -/
def startCheck (E : Env T) (s : Replica T) : Check → Except Error (Bool × Bool)
  | .skip => .ok (true, false)
  | .part cert signer digest => do
    let pubkey ← E.config.getPubkey signer
    return (cert.verify SigScheme.ideal pubkey && cert.objHash == digest, true)
  | .status status =>
    if status.view = 1 then .ok (true, false)
    else status.qc.verifyPool SigScheme.ideal E.config
  | .qc qc =>
    if qc.view < s.view then .ok (true, false)
    else qc.verifyPool SigScheme.ideal E.config
  | .block h =>
    match s.blkCache h with
    | none => .error .undefined
    | some blk =>
      match blk.qc with
      | none => .ok (true, false)
      | some qc =>
        if qc.objHash ≠ blk.qcRefHash then .ok (false, false)
        else qc.verifyPool SigScheme.ideal E.config

/-- `promise::all`, after the deliveries it waits for have been asked for: run the callback,
or wait. -/
def all (E : Env T) (s : Replica T) (conds : List Cond) (wait : Wait T) : Outcome T :=
  match s.startCheck E wait.check with
  | .error e => s.raise e
  | .ok (result, pooled) =>
    let conds := (conds ++ wait.conds).filter s.unresolved ++ if pooled then [.veri] else []
    if conds.isEmpty then s.call [.run wait.task result]
    else done { s with
      pendings := s.pendings ++ [⟨s.nextPending, conds, result, wait.task⟩]
      nextPending := s.nextPending + 1 }

/-- The calls of `async_deliver_blk` in a `promise::all`, one after the other. -/
def gather (E : Env T) (s : Replica T) (blkHashes : List ℕ) (peer : ℕ) (conds : List Cond)
    (wait : Wait T) : Outcome T :=
  match blkHashes with
  | [] => s.all E conds wait
  | h :: hs =>
    if s.isBlkDelivered h then s.call [.gather hs peer conds wait]
    else if h ∈ s.blkDeliveryWaiting then
      s.call [.gather hs peer (conds ++ [.delivered h]) wait]
    else s.call [.startDelivery h peer, .gather hs peer (conds ++ [.delivered h]) wait]

/-- One callback of a resolved promise, in a `promise::all`. -/
def notify (s : Replica T) (id : ℕ) (cond : Cond) : Outcome T :=
  match s.pendings.find? fun p => p.id == id with
  | none => s.done
  | some p =>
    let others := s.pendings.filter fun p => p.id != id
    if (p.conds.erase cond).isEmpty then call { s with pendings := others } [.run p.task p.result]
    else done { s with
      pendings := s.pendings.map fun p =>
        if p.id = id then { p with conds := p.conds.erase cond } else p }

/-- The callbacks of a promise, in the order of their registration. -/
def resolve (s : Replica T) (cond : Cond) : Outcome T :=
  s.call (s.pendings.flatMap fun p =>
    List.replicate (p.conds.count cond) (.notify p.id cond))

/-! ## Blocks -/

/-- `async_fetch_blk`: what the returned promise still waits for. -/
def asyncFetchBlk (s : Replica T) (h : ℕ) (peer : Option ℕ) :
    Replica T × List (Output T) × List Cond :=
  if s.isBlkFetched h then (s, [], [])
  else
    let replicaIds := (s.blkFetchWaiting h).getD []
    let out := match peer with
      | some p => if replicaIds.isEmpty then [.send p (.reqBlock [h])] else []
      | none => []
    let replicaIds := match peer with
      | some p => if p ∈ replicaIds then replicaIds else replicaIds ++ [p]
      | none => replicaIds
    ({ s with blkFetchWaiting := Function.update s.blkFetchWaiting h (some replicaIds) },
      out, [.fetched h])

/-- `async_deliver_blk` of a block that is neither delivered nor waited for. -/
def startDelivery (s : Replica T) (h peer : ℕ) : Outcome T :=
  let s : Replica T := { s with blkDeliveryWaiting := h :: s.blkDeliveryWaiting }
  let (s, out, conds) := s.asyncFetchBlk h (some peer)
  if conds.isEmpty then s.emit out [.run (.fetched h peer) true]
  else emit { s with
    pendings := s.pendings ++ [⟨s.nextPending, conds, true, .fetched h peer⟩]
    nextPending := s.nextPending + 1 } out []

/-- The callback of `async_fetch_blk` in `async_deliver_blk`. -/
def fetched (E : Env T) (s : Replica T) (h peer : ℕ) : Outcome T :=
  match s.blkCache h with
  | none => s.raise .undefined
  | some blk =>
    let check : Check := if h ≠ E.genesis then .block h else .skip
    let wait : Wait T := ⟨check, [], .deliver h⟩
    if blk.qc.isSome then
      let (s, out, conds) := s.asyncFetchBlk blk.qcRefHash (some peer)
      s.emit out [.gather blk.parentHashes peer conds wait]
    else s.call [.gather blk.parentHashes peer [] wait]

/-- `HotStuffBase::on_deliver_blk`. -/
def onDeliverBlk (s : Replica T) (h : ℕ) : Outcome T :=
  match s.blkCache h with
  | none => s.raise .undefined
  | some blk =>
    if !blk.parentHashes.all s.isBlkDelivered then s.raise .assertion
    else if blk.delivered then s.done
    else
      (s.deliverBlk h).andThen fun s =>
        if h ∈ s.blkDeliveryWaiting then
          call { s with blkDeliveryWaiting := s.blkDeliveryWaiting.filter fun k => k ≠ h }
            [.resolve (.delivered h)]
        else s.done

/-- `HotStuffBase::on_fetch_blk`. -/
def onFetchBlk (s : Replica T) (h : ℕ) : Outcome T :=
  match s.blkFetchWaiting h with
  | none => s.done
  | some _ => call { s with blkFetchWaiting := Function.update s.blkFetchWaiting h none }
      [.resolve (.fetched h)]

/-- `FetchContext::timeout_cb`: ask all replicas of the context again. -/
def fetchTimeout (s : Replica T) (h : ℕ) : Outcome T :=
  match s.blkFetchWaiting h with
  | none => s.done
  | some replicaIds => s.emit (replicaIds.map fun p => .send p (.reqBlock [h])) []

/-- `EntityStorage::add_blk` of a received block. -/
def receiveBlk (E : Env T) (s : Replica T) (c : BlockContent T) : Replica T :=
  s.addBlk (c.toBlock (E.hash c))

/-- The fetches of `req_blk_handler`. -/
def fetchAll (s : Replica T) : List ℕ → Replica T × List Cond
  | [] => (s, [])
  | h :: hs =>
    let (s, _, conds) := s.asyncFetchBlk h none
    let (s, conds') := s.fetchAll hs
    (s, conds ++ conds')

/-! ## Handlers -/

/-- The handlers that `HotStuffBase` registers, for a message from `peer`. -/
def handle (E : Env T) (s : Replica T) (peer : ℕ) : Msg T → Outcome T
  | .propose p =>
    let h := E.hash p.blk
    (s.receiveBlk E p.blk).call
      [.gather [h] peer [] ⟨.skip, [.enterView p.view], .propose ⟨p.proposer, h, p.view⟩⟩]
  | .vote v => s.call
      [.gather [v.blkHash] peer []
        ⟨.part v.cert v.voter v.blkHash, [.enterView v.view], .vote v⟩]
  | .ack a => s.call
      [.gather [a.blkHash] peer []
        ⟨.part a.cert a.voter a.blkHash, [.enterView a.view], .ack a⟩]
  | .share sh => s.call
      [.gather [] peer []
        ⟨.skip, [.enterView sh.view, .viewProposal sh.view, .viewQc sh.view], .share sh⟩]
  | .beacon b => s.call
      [.gather [] peer []
        ⟨.skip, [.enterView b.view, .viewProposal b.view, .viewQc b.view], .beacon b⟩]
  | .status st => s.call
      [.gather [] peer [] ⟨.status st, [.enterView st.view], .status st⟩]
  | .echo e => s.call
      [.gather [] peer []
        ⟨.part e.cert e.replicaID e.merkleRoot, [.enterView e.view], .echo e⟩]
  | .echo2 e => s.call
      [.gather [] peer [] ⟨.skip, [.enterView e.view, .viewProposal e.view], .echo2 e⟩]
  | .qc qc => s.call [.gather [qc.objHash] peer [] ⟨.qc qc, [], .qc qc⟩]
  | .pvssTranscript ptrans => s.call [.onReceivePvssTranscript ptrans]
  | .reqBlock blkHashes =>
    if blkHashes.isEmpty then s.raise (.runtimeError "mismatching promise value types")
    else
      let (s, conds) := s.fetchAll blkHashes
      s.call [.gather [] peer conds ⟨.skip, [], .respBlock blkHashes peer⟩]
  | .respBlock blks =>
    (blks.foldl (receiveBlk E) s).call (blks.map fun c => .onFetchBlk (E.hash c))

/-- The callbacks of the handlers. Those of `qc_handler` and of `async_deliver_blk` do not
look at the result of the verification. -/
def runTask (E : Env T) (s : Replica T) (task : Task T) (result : Bool) : Outcome T :=
  match task with
  | .fetched h peer => s.fetched E h peer
  | .deliver h => s.call [.onDeliverBlk h]
  | .propose prop => s.call [.onReceiveProposal prop]
  | .vote v => if !result then s.done else s.call [.onReceiveVote v]
  | .ack a => if !result then s.done else s.call [.onReceiveAck a]
  | .share sh => s.call [.onReceiveShare sh]
  | .beacon b => s.call [.onReceiveBeacon b]
  | .status st => if !result then s.done else s.call [.onReceiveStatus st]
  | .echo e => if !result then s.done else s.call [.onReceiveProposalEcho e]
  | .echo2 e => s.call [.onReceiveCertEcho e]
  | .qc qc => s.call [.onReceiveQc qc]
  | .respBlock blkHashes peer =>
    s.emit [.send peer (.respBlock (blkHashes.filterMap fun h =>
      (s.blkCache h).map Block.content))] []

/-! ## Proposing -/

/-- `HotStuffBase::do_propose`, with the parents of `PMHighTail::get_parents`. -/
def doPropose (E : Env T) (s : Replica T) : Outcome T :=
  if s.pm.proposer ≠ s.id ∨ s.lastProposedView ≥ s.view then s.done
  else onPropose E { s with proposeTimer := false } [] [s.pm.hqcTail]

/-- The propose timer, with `on_propose_timeout`. -/
def onProposeTimer (s : Replica T) : Outcome T :=
  let s : Replica T := { s with proposeTimer := false }
  if s.pm.proposer ≠ s.id ∨ s.lastProposedView ≥ s.view then s.done
  else s.call [.doPropose, .stopProposeTimer]

/-- `HotStuffBase::stop_propose_timer`. -/
def stopProposeTimer (s : Replica T) : Outcome T := done { s with proposeTimer := false }

/-! ## Running -/

/-- Run one frame. -/
def exec (E : Env T) (s : Replica T) : Frame T → Outcome T
  | .handle peer msg => s.handle E peer msg
  | .gather blkHashes peer conds wait => s.gather E blkHashes peer conds wait
  | .startDelivery h peer => s.startDelivery h peer
  | .notify id cond => s.notify id cond
  | .resolve cond => s.resolve cond
  | .run task result => s.runTask E task result
  | .onDeliverBlk h => s.onDeliverBlk h
  | .onFetchBlk h => s.onFetchBlk h
  | .onReceiveProposal prop => s.onReceiveProposal prop
  | .checkAggregation prop opinion => s.checkAggregation E prop opinion
  | .proposalVote prop opinion => s.proposalVote prop opinion
  | .proposalDeliver prop => s.proposalDeliver E prop
  | .onReceiveViewProposal_ => s.onReceiveViewProposal_
  | .vote blk proposer => s.vote E blk proposer
  | .onReceiveVote vote => s.onReceiveVote E vote
  | .broadcastQc blk => s.broadcastQc blk
  | .onReceiveStatus status => s.onReceiveStatus E status
  | .onReceiveQc qc => s.onReceiveQc E qc
  | .onReceiveQc_ => s.onReceiveQc_
  | .ack blk => s.ack blk
  | .broadcastAck ack => s.emit [.broadcast (.ack ack)] []
  | .onReceiveAck ack => s.onReceiveAck E ack
  | .broadcastShare => s.broadcastShare E
  | .sendShare share => s.emit [.broadcast (.share share)] []
  | .onReceiveShare share => s.onReceiveShare E share
  | .onReceiveBeacon beacon => s.onReceiveBeacon E beacon
  | .tryEnterView => s.tryEnterView E
  | .onEnterView view => s.onEnterView view
  | .sendStatus => s.sendStatus
  | .sendSharing view => s.sendSharing E view
  | .onReceiveProposalEcho echo => s.onReceiveProposalEcho E echo
  | .onReceiveCertEcho echo => s.onReceiveCertEcho E echo
  | .eraseQcChunks view => s.eraseQcChunks view
  | .onReceivePvssTranscript ptrans => s.onReceivePvssTranscript E ptrans
  | .doPropose => s.doPropose E
  | .onProposeTimer => s.onProposeTimer
  | .stopProposeTimer => s.stopProposeTimer
  | .fetchTimeout h => s.fetchTimeout h
  | .onPropose_ prop => s.onPropose_ prop
  | .finishPropose prop => s.finishPropose prop
  | .onQcFinish blk => s.onQcFinish blk
  | .eraseQcWaiting blk => s.eraseQcWaiting blk
  | .execCommand cmdHash => s.execCommand E cmdHash
  | .afterBeat beat => s.afterBeat beat
  | .beatCallback => s.beatCallback E
  | .resolveBeat beat => s.resolveBeat beat
  | .proposerScheduleNext => s.proposerScheduleNext E
  | .lock => s.lock

end Replica

/-! ## The initial state -/

/-- The genesis block after `on_init` and `add_replica`. -/
def Env.genesisBlock (E : Env T) : Block T where
  parentHashes := []
  cmds := []
  qc := some (QuorumCertSecp256k1.create E.genesis 0)
  qcRefHash := 0
  extra := E.emptyAggregate
  hash := E.genesis
  parents := []
  qcRef := some E.genesis
  selfQc := some (QuorumCertSecp256k1.create E.genesis 0)
  height := 0
  delivered := true
  decision := 1
  voted := (List.range E.nreplicas).map toReplicaID
  acked := []
  view := 0

/-- The setup file read into `agg_queue`. -/
def Env.setupQueue (E : Env T) : ℕ → T.Aggregate :=
  E.setup.zipIdx.foldl (fun queue (agg, i) => Function.update queue (toReplicaID i) agg)
    fun _ => E.emptyAggregate

/-- The setup file read into `view_agg_transcripts`. -/
def Env.setupTranscripts (E : Env T) : ℕ → T.Aggregate :=
  E.setup.zipIdx.foldl (fun transcripts (agg, i) => Function.update transcripts (i + 1) agg)
    fun _ => E.emptyAggregate

/-- Replica `id` after its constructor and `start`. -/
def Env.init (E : Env T) (id : ℕ) : Replica T where
  id := id
  hqc := (E.genesis, QuorumCertSecp256k1.create E.genesis 0)
  bExec := E.genesis
  vheight := 0
  view := 1
  viewTrans := false
  voteDisabled := false
  proposals := fun _ => []
  finishedPropose := fun _ => false
  tails := [E.genesis]
  lastProposeDeliveredView := 0
  lastProposeDecodedView := 0
  lastCertDecodedView := 0
  lastViewProposalReceived := 0
  lastViewCertReceived := 0
  lastViewSharesReceived := 0
  lastCertDeliveredView := 0
  lastProposedView := 0
  lastViewBeaconReceived := 0
  propChunks := fun _ => []
  qcChunks := fun _ => []
  statusReceived := fun _ => []
  viewTranscripts := fun _ => []
  transcriptIds := fun _ => []
  viewShares := fun _ => []
  aggQueue := E.setupQueue
  viewAggTranscripts := E.setupTranscripts
  draws := 0
  blkCache := fun h => if h = E.genesis then some E.genesisBlock else none
  viewWaiting := fun _ => false
  viewQcWaiting := fun _ => false
  viewProposalWaiting := fun _ => false
  qcWaiting := fun _ => none
  pendings := []
  nextPending := 0
  blkFetchWaiting := fun _ => none
  blkDeliveryWaiting := []
  proposeTimer := false
  decisionWaiting := []
  cmdPendingBuffer := []
  pm :=
    { hqcTail := E.genesis
      proposer := 0
      rotating := false
      propBlk := fun _ => none
      regProposals := 0
      regReceiveProposals := 0
      pendingBeats := []
      nextBeat := 0
      resolvedBeats := []
      attachedBeats := []
      lastProposed := E.genesis
      locked := false
      pmQcFinish := none }

theorem Env.blkCache_genesis (E : Env T) (id : ℕ) :
    (E.init id).blkCache E.genesis = some E.genesisBlock :=
  if_pos rfl

/-- A replica that has just started holds the genesis block only. -/
theorem Env.blkCache_init {E : Env T} {id h : ℕ} {b : Block T}
    (hb : (E.init id).blkCache h = some b) : h = E.genesis ∧ b = E.genesisBlock := by
  by_cases hgen : h = E.genesis
  · have hsome : (E.init id).blkCache h = some E.genesisBlock := if_pos hgen
    exact ⟨hgen, Option.some.inj (hb.symm.trans hsome)⟩
  · have hnone : (E.init id).blkCache h = none := if_neg hgen
    cases hb.symm.trans hnone

end OptRand.Hotstuff
