import OptRand.Hotstuff.PaceMaker

/-!
# The protocol (`consensus.cpp`)

The functions of `HotStuffCore`, in the order of the source. A function that makes calls
which may resolve promises is cut at these calls; its parts stand together.
-/

namespace OptRand.Hotstuff

variable {T : PayloadTypes}

/-- `create_part_cert` by replica `id`. -/
def createPartCert (id digest view : ℕ) : PartCert := ⟨digest, view, ⟨id, digest⟩⟩

/-- `serialize` of a `Block`: its content. -/
def Block.content (blk : Block T) : BlockContent T := blk.toBlockContent

namespace Replica

/-- A PVSS call that draws random values. -/
def drawn (s : Replica T) : Replica T := { s with draws := s.draws + 1 }

/-! ## Commits -/

/-- The last loop of `check_commit`. -/
def commitBlocks (E : Env T) (s : Replica T) : List ℕ → Replica T
  | [] => s
  | blk :: queue =>
    commitBlocks E ((s.modifyBlk blk fun b => { b with decision := 1 }).onConsensus E blk) queue

/-- `HotStuffCore::check_commit`: the state, or an exception, and the blocks handed to
`do_consensus`. -/
def checkCommit (E : Env T) (s : Replica T) (blk : ℕ) : Except Error (Replica T × List ℕ) := do
  let exec ← s.getBlk s.bExec
  let start ← s.getBlk blk
  let (queue, b) ← s.commitQueue exec.height start.height blk
  let last ← s.getBlk b
  if b ≠ s.bExec ∧ last.decision ≠ 1 then throw (.runtimeError "safety breached :(")
  return ({ s.commitBlocks E queue.reverse with bExec := blk }, queue.reverse)

/-! ## Votes -/

/-- `HotStuffCore::_vote`. -/
def vote (E : Env T) (s : Replica T) (blk proposer : ℕ) : Outcome T :=
  let vote : Vote := ⟨s.id, blk, createPartCert s.id blk s.view, s.view⟩
  let signed : Output T := .signed .vote blk s.view
  if proposer = s.id then s.emit [signed] [.onReceiveVote vote]
  else
    match E.config.getPubkey proposer with
    | .ok _ => s.emit [signed, .send proposer (.vote vote)] []
    | .error e => ⟨s, [signed], [], some e⟩

/-! ## Proposals -/

/-- `HotStuffCore::on_propose`, up to the call of `_vote`. -/
def onPropose (E : Env T) (s : Replica T) (cmds parents : List ℕ) : Outcome T :=
  if s.viewTrans then s.done
  else
    match parents with
    | [] => s.raise (.runtimeError "empty parents")
    | p :: _ =>
      let s := parents.foldl eraseTail s
      let content : BlockContent T := ⟨parents, cmds, some s.hqc.2, s.hqc.1, s.viewAggTranscripts s.view⟩
      let h := E.hash content
      let s := s.addBlk { content.toBlock h with
        parents := parents, qcRef := some s.hqc.1, height := s.height p + 1 }
      let s := s.modifyBlk h fun b => { b with
        view := s.view, selfQc := some (QuorumCertSecp256k1.create h s.view) }
      (s.deliverBlk h).andThen fun s =>
        if s.height h ≤ s.vheight then
          s.raise (.runtimeError "new block should be higher than vheight")
        else
          let prop : Proposal := ⟨s.id, h, s.view⟩
          call { s with
            vheight := s.height h
            finishedPropose := Function.update s.finishedPropose h true }
            [.vote h s.id, .onPropose_ prop, .finishPropose prop]

/-- The end of `on_propose`. -/
def finishPropose (s : Replica T) (prop : Proposal) : Outcome T :=
  let s : Replica T := { s with lastProposedView := s.view }
  match s.blkCache prop.blk with
  | none => s.raise .undefined
  | some blk =>
    s.emit [.broadcast (.propose ⟨prop.proposer, blk.content, prop.view⟩)]
      [.onReceiveViewProposal_]

/-- `on_receive_view_proposal_(view)`. -/
def onReceiveViewProposal_ (s : Replica T) : Outcome T :=
  call { s with
    lastViewProposalReceived := s.view
    viewProposalWaiting := Function.update s.viewProposalWaiting s.view true }
    [.resolve (.viewProposal s.view)]

/-- `HotStuffCore::on_receive_proposal`, up to the call of `on_qc_finish`. -/
def onReceiveProposal (s : Replica T) (prop : Proposal) : Outcome T :=
  if s.viewTrans then s.done
  else if s.finishedPropose prop.blk then s.done
  else
    match s.blkCache prop.blk with
    | none => s.raise .undefined
    | some bnew =>
      if !bnew.delivered then s.raise (.runtimeError "block not delivered")
      else
        let updated : Attempt T :=
          match bnew.qcRef, bnew.qc with
          | some ref, some qc => s.updateHqc ref qc
          | some _, none => .error (s, .undefined)
          | none, _ => .ok s
        updated.andThen fun s =>
          let pslot := s.proposals bnew.height
          let inserted := if prop.blk ∈ pslot then pslot else pslot ++ [prop.blk]
          -- a second block of one height is an equivocation: no vote for it
          let first := pslot.length ≤ 1 && inserted.length ≤ 1
          let s : Replica T := if pslot.length ≤ 1 then
            { s with proposals := Function.update s.proposals bnew.height inserted } else s
          match if first then s.branchAt s.hqc.1 prop.blk else .ok prop.blk with
          | .error e => s.raise e
          | .ok b =>
            let opinion := first && b == s.hqc.1
            let s : Replica T := if opinion then { s with vheight := bnew.height } else s
            match bnew.qcRef with
            | some ref => s.call [.onQcFinish ref, .checkAggregation prop opinion]
            | none => s.call [.checkAggregation prop opinion]

/-- `on_receive_proposal` from the parsing of the aggregate to the call of
`on_receive_view_proposal_`. -/
def checkAggregation (E : Env T) (s : Replica T) (prop : Proposal) (opinion : Bool) :
    Outcome T :=
  match s.blkCache prop.blk with
  | none => s.raise .undefined
  | some bnew =>
    let agg := bnew.extra
    match (E.pvss s.id).verifyAggregation agg s.draws with
    | .error e => s.raise (.pvss e)
    | .ok false => s.drawn.done
    | .ok true =>
      let s := s.drawn.modifyBlk prop.blk fun b => { b with view := s.view }
      let s : Replica T := { s with
        viewAggTranscripts := Function.update s.viewAggTranscripts s.view agg
        finishedPropose := Function.update s.finishedPropose prop.blk true }
      match s.onReceiveProposal_ prop with
      | .error e => s.raise e
      | .ok s => s.call [.onReceiveViewProposal_, .proposalVote prop opinion]

/-- `on_receive_proposal` from the vote on. -/
def proposalVote (s : Replica T) (prop : Proposal) (opinion : Bool) : Outcome T :=
  if opinion && !s.voteDisabled then
    s.call [.vote prop.blk prop.proposer, .proposalDeliver prop]
  else s.call [.proposalDeliver prop]

/-- The echoes of `_deliver_proposal` and `_deliver_cert`: one chunk for each replica, the
own one for all. `wrap` makes the message of an echo. -/
def echoes (E : Env T) (s : Replica T) (view mtype : ℕ) (chunks : List T.Chunk)
    (wrap : Echo T → Msg T) : List (Output T) :=
  let root := E.dispersal.root chunks
  (chunks.take E.nreplicas).zipIdx.flatMap fun (chunk, i) =>
    let echo : Echo T := ⟨s.id, i, view, mtype, root, E.dispersal.path chunks i,
      createPartCert s.id root s.view, chunk⟩
    [.signed .echo root s.view,
      if i ≠ s.id then .send i (wrap echo) else .broadcast (wrap echo)]

/-- The end of `on_receive_proposal` with `_deliver_proposal`. -/
def proposalDeliver (E : Env T) (s : Replica T) (prop : Proposal) : Outcome T :=
  if s.lastProposeDeliveredView < s.view then
    match s.blkCache prop.blk with
    | none => s.raise .undefined
    | some blk =>
      let chunks := E.dispersal.encodeProposal E.config.nreconthres
        (E.nreplicas - E.config.nreconthres) ⟨prop.proposer, blk.content, prop.view⟩
      let s : Replica T := { s with lastProposeDeliveredView := prop.view }
      s.emit (s.echoes E prop.view MessageType.PROPOSAL chunks .echo) []
  else s.done

/-! ## Certificates -/

/-- `HotStuffCore::on_receive_vote`, up to the call of `on_qc_finish`. -/
def onReceiveVote (E : Env T) (s : Replica T) (vote : Vote) : Outcome T :=
  if vote.view < s.view then s.done
  else
    match s.getDeliveredBlk vote.blkHash with
    | .error e => s.raise e
    | .ok blk =>
      let qsize := blk.voted.length
      if qsize ≥ E.config.nresponsive then s.done
      else if vote.voter ∈ blk.voted then s.done
      else
        let qc := match blk.selfQc with
          | some qc => qc
          | none => QuorumCertSecp256k1.create vote.blkHash s.view
        let blk := { blk with voted := blk.voted ++ [vote.voter], selfQc := some qc }
        let s := s.setBlk vote.blkHash blk
        match qc.addPart vote.voter vote.cert with
        | .error e => s.raise e
        | .ok qc =>
          let s := s.setBlk vote.blkHash { blk with selfQc := some qc }
          if qsize + 1 = E.config.nresponsive then
            (s.updateHqc vote.blkHash qc).andThen fun s =>
              s.call [.onQcFinish vote.blkHash, .broadcastQc vote.blkHash, .ack vote.blkHash]
          else s.done

/-- `do_broadcast_qc(QC(qc->clone(), this))` of `on_receive_vote`. -/
def broadcastQc (s : Replica T) (h : ℕ) : Outcome T :=
  match s.blkCache h with
  | some blk =>
    match blk.selfQc with
    | some qc => s.emit [.broadcast (.qc qc)] []
    | none => s.raise .undefined
  | none => s.raise .undefined

/-- `HotStuffCore::on_receive_status`. -/
def onReceiveStatus (E : Env T) (s : Replica T) (status : Status) : Outcome T :=
  if status.view < s.view ∨ s.lastProposedView ≥ s.view then s.done
  else
    let received := s.statusReceived status.view
    if received.length ≥ E.config.nmajority then s.done
    else
      match s.getDeliveredBlk status.qc.objHash with
      | .error e => s.raise e
      | .ok blk =>
        let s := s.setBlk status.qc.objHash { blk with selfQc := some status.qc }
        (s.updateHqc status.qc.objHash status.qc).andThen fun s =>
          if status.replicaID ∈ received then s.done
          else
            let s : Replica T := { s with
              statusReceived := Function.update s.statusReceived status.view
                (received ++ [status.replicaID]) }
            if received.length + 1 = E.config.nmajority ∧ s.hqc.2.view + 1 = s.view then
              s.call [.doPropose]
            else s.done

/-- The echoes of `_deliver_cert`. -/
def deliverCert (E : Env T) (s : Replica T) (qc : QuorumCert) : List (Output T) :=
  s.echoes E qc.view MessageType.CERT (E.dispersal.encodeCert E.config.nreconthres
    (E.nreplicas - E.config.nreconthres) qc) .echo2

/-- `HotStuffCore::on_receive_qc`, up to the call of `on_receive_qc_`. -/
def onReceiveQc (E : Env T) (s : Replica T) (qc : QuorumCert) : Outcome T :=
  if qc.view < s.view ∨ s.lastViewCertReceived ≥ s.view then s.done
  else
    let s : Replica T := { s with lastViewCertReceived := qc.view }
    match s.getDeliveredBlk qc.objHash with
    | .error e => s.raise e
    | .ok blk =>
      let s := s.setBlk qc.objHash { blk with selfQc := some qc }
      (s.updateHqc qc.objHash qc).andThen fun s =>
        let s : Replica T := { s with lastCertDeliveredView := qc.view }
        s.emit (s.deliverCert E qc) [.onReceiveQc_, .ack qc.objHash, .tryEnterView]

/-- `on_receive_qc_(view)`. -/
def onReceiveQc_ (s : Replica T) : Outcome T :=
  call { s with viewQcWaiting := Function.update s.viewQcWaiting s.view true }
    [.resolve (.viewQc s.view)]

/-! ## Acknowledgements -/

/-- `HotStuffCore::_ack`. -/
def ack (s : Replica T) (blk : ℕ) : Outcome T :=
  let ack : Ack := ⟨s.id, blk, createPartCert s.id blk s.view, s.view⟩
  s.emit [.signed .ack blk s.view] [.onReceiveAck ack, .broadcastAck ack]

/-- `HotStuffCore::on_receive_ack`. -/
def onReceiveAck (E : Env T) (s : Replica T) (ack : Ack) : Outcome T :=
  if ack.view < s.view then s.done
  else
    match s.getDeliveredBlk ack.blkHash with
    | .error e => s.raise e
    | .ok blk =>
      let qsize := blk.acked.length
      if qsize ≥ E.config.nresponsive then s.done
      else if ack.voter ∈ blk.acked then s.done
      else
        let s := s.setBlk ack.blkHash { blk with acked := blk.acked ++ [ack.voter] }
        if qsize + 1 = E.config.nresponsive then
          match s.checkCommit E ack.blkHash with
          | .error e => s.raise e
          | .ok (s, executed) => s.emit (executed.map .consensus) [.broadcastShare]
        else s.done

/-! ## Shares and beacons -/

/-- `HotStuffCore::_update_agg_queue`. -/
def updateAggQueue (E : Env T) (s : Replica T) (view : ℕ) : Replica T :=
  if view < E.config.nmajority then s
  else
    let toUpdateView := view - E.config.nmajority + 1
    { s with
      aggQueue := Function.update s.aggQueue (E.getProposer toUpdateView)
        (s.viewAggTranscripts toUpdateView) }

/-- `HotStuffCore::on_receive_beacon`. -/
def onReceiveBeacon (E : Env T) (s : Replica T) (beacon : Beacon T) : Outcome T :=
  if beacon.view < s.view ∨ s.lastViewBeaconReceived ≤ beacon.view then s.done
  else if !(E.pvss s.id).verifyBeacon (s.aggQueue (E.getProposer beacon.view)) beacon.bt then
    s.raise (.runtimeError "Beacon Verification failed.")
  else call { s with lastViewBeaconReceived := s.view } [.tryEnterView]

/-- `_broadcast_share(view)`, up to the call of `on_receive_share`. -/
def broadcastShare (E : Env T) (s : Replica T) : Outcome T :=
  match (E.pvss s.id).decrypt (s.aggQueue (E.getProposer s.view)) s.draws with
  | .error e => s.raise (.pvss e)
  | .ok decryption =>
    let share : Share T := ⟨s.id, s.view, decryption⟩
    s.drawn.call [.onReceiveShare share, .sendShare share]

/-- `HotStuffCore::on_receive_share`. -/
def onReceiveShare (E : Env T) (s : Replica T) (share : Share T) : Outcome T :=
  if share.view < s.view then s.done
  else
    let shares := s.viewShares share.view
    if shares.length ≥ E.config.nmajority then s.done
    else
      let agg := s.aggQueue (E.getProposer share.view)
      match (E.pvss s.id).verifyDecryption agg share.bt with
      | .error e => s.raise (.pvss e)
      | .ok false => s.raise (.runtimeError "Decryption Verification failed in View")
      | .ok true =>
        let shares := shares ++ [share.bt]
        let s : Replica T := { s with viewShares := Function.update s.viewShares share.view shares }
        if shares.length = E.config.nmajority then
          match (E.pvss s.id).reconstruct shares with
          | .error e => s.raise (.pvss e)
          | .ok beacon =>
            if !(E.pvss s.id).verifyBeacon agg beacon then
              s.raise (.runtimeError "Beacon Verification failed.")
            else
              emit { s with
                lastViewSharesReceived := s.view
                lastViewBeaconReceived := s.view }
                [.beacon share.view agg beacon, .broadcast (.beacon ⟨s.id, s.view, beacon⟩)]
                [.tryEnterView]
        else s.done

/-! ## Views -/

/-- `HotStuffCore::_try_enter_view`. -/
def tryEnterView (E : Env T) (s : Replica T) : Outcome T :=
  if s.lastViewCertReceived = s.view ∧
      (s.lastViewSharesReceived = s.view ∨ s.lastViewBeaconReceived = s.view) then
    let s := s.updateAggQueue E s.view
    let s : Replica T := { s with view := s.view + 1 }
    (s.enterView E s.view).call [.onEnterView s.view]
  else s.done

/-- `HotStuffCore::on_enter_view`. -/
def onEnterView (s : Replica T) (view : ℕ) : Outcome T :=
  call { s with viewWaiting := Function.update s.viewWaiting view true }
    [.resolve (.enterView view), .sendStatus, .sendSharing view]

/-- The status of `on_enter_view`, with `do_status`. -/
def sendStatus (s : Replica T) : Outcome T :=
  let status : Status := ⟨s.id, s.view, s.hqc.2⟩
  if s.pm.proposer ≠ s.id then s.emit [.send s.pm.proposer (.status status)] []
  else s.call [.onReceiveStatus status]

/-- The end of `on_enter_view`: the sharing for a later view, and `schedule_propose`. -/
def sendSharing (E : Env T) (s : Replica T) (view : ℕ) : Outcome T :=
  let dest := (s.id + view) % E.nreplicas
  let mul := (view - 1) / E.nreplicas
  let forView := (2 + mul) * E.nreplicas + dest + 1
  match (E.pvss s.id).createSharing s.draws with
  | .error e => s.raise (.pvss e)
  | .ok sharing =>
    let s := s.drawn
    let s : Replica T := if s.pm.proposer = s.id then { s with proposeTimer := true } else s
    if dest = s.id then
      done { s with
        viewTranscripts := Function.update s.viewTranscripts forView
          (s.viewTranscripts forView ++ [sharing])
        transcriptIds := Function.update s.transcriptIds forView
          (s.transcriptIds forView ++ [s.id]) }
    else s.emit [.send dest (.pvssTranscript ⟨s.id, forView, sharing⟩)] []

/-! ## Echoes -/

/-- `m[k]` of a map of chunks. -/
def chunkAt (m : List (ℕ × Option T.Chunk)) (k : ℕ) : Option T.Chunk :=
  (m.lookup k).join

/-- `m[k] = chunk`. -/
def setChunk (m : List (ℕ × Option T.Chunk)) (k : ℕ) (chunk : T.Chunk) :
    List (ℕ × Option T.Chunk) :=
  (k, some chunk) :: m.filter fun e => e.1 ≠ k

/-- The entries that the loop over `m[i]` leaves in the map. -/
def touchChunks (n : ℕ) (m : List (ℕ × Option T.Chunk)) : List (ℕ × Option T.Chunk) :=
  m ++ ((List.range n).filter fun i => !m.any fun e => e.1 == i).map fun i => (i, none)

/-- `HotStuffCore::on_receive_proposal_echo`. -/
def onReceiveProposalEcho (E : Env T) (s : Replica T) (echo : Echo T) : Outcome T :=
  if echo.view < s.view ∨ s.lastProposeDecodedView ≥ s.view then s.done
  else if !E.dispersal.verifyPath echo.merkleProof echo.merkleRoot then s.done
  else
    let chunks := s.propChunks echo.view
    if chunks.length > E.config.nreconthres then s.done
    else
      let idx := toReplicaID echo.idx
      let fresh := (chunkAt chunks idx).isNone
      let chunks' := if fresh then setChunk chunks idx echo.chunk else chunks
      let qsize := if fresh then chunks.length + 1 else chunks.length
      let s : Replica T := { s with propChunks := Function.update s.propChunks echo.view chunks' }
      if qsize = E.config.nreconthres then
        let s : Replica T := { s with lastProposeDecodedView := s.view }
        let arr := (List.range E.nreplicas).map (chunkAt chunks')
        match E.dispersal.decodeProposal E.config.nreconthres
            (E.nreplicas - E.config.nreconthres) echo.chunk arr with
        | .error e => s.raise e
        | .ok content =>
          let s : Replica T := { s with propChunks := Function.update s.propChunks echo.view [] }
          let h := E.hash content.blk
          let s := s.addBlk (content.blk.toBlock h)
          (s.deliverBlk h).andThen fun s =>
            s.call [.onReceiveProposal ⟨content.proposer, h, content.view⟩]
      else s.done

/-- `HotStuffCore::on_receive_cert_echo`, up to the call of `on_receive_qc`. -/
def onReceiveCertEcho (E : Env T) (s : Replica T) (echo : Echo T) : Outcome T :=
  if echo.view < s.view ∨ s.lastCertDecodedView ≥ s.view then s.done
  else if !E.dispersal.verifyPath echo.merkleProof echo.merkleRoot then s.done
  else
    let chunks := s.qcChunks echo.view
    if chunks.length > E.config.nreconthres then s.done
    else
      let idx := toReplicaID echo.idx
      let fresh := (chunkAt chunks idx).isNone
      let chunks' := if fresh then setChunk chunks idx echo.chunk else chunks
      let qsize := if fresh then chunks.length + 1 else chunks.length
      let s : Replica T := { s with qcChunks := Function.update s.qcChunks echo.view chunks' }
      if qsize = E.config.nreconthres then
        let arr := (List.range E.nreplicas).map (chunkAt chunks')
        let s : Replica T := { s with
          lastCertDecodedView := s.view
          qcChunks := Function.update s.qcChunks echo.view (touchChunks E.nreplicas chunks') }
        match E.dispersal.decodeCert E.config.nreconthres
            (E.nreplicas - E.config.nreconthres) echo.chunk arr with
        | .error e => s.raise e
        | .ok qc => s.call [.onReceiveQc qc, .eraseQcChunks echo.view]
      else s.done

/-- The end of `on_receive_cert_echo`. -/
def eraseQcChunks (s : Replica T) (view : ℕ) : Outcome T :=
  done { s with qcChunks := Function.update s.qcChunks view [] }

/-! ## Transcripts -/

/-- `HotStuffCore::on_receive_pvss_transcript`. -/
def onReceivePvssTranscript (E : Env T) (s : Replica T) (ptrans : PVSSTranscript T) :
    Outcome T :=
  let ids := s.transcriptIds ptrans.forView
  if ids.length ≥ E.config.nmajority then s.done
  else
    match (E.pvss s.id).verifySharing ptrans.pvssTranscript s.draws with
    | .error e => s.raise (.pvss e)
    | .ok false => s.raise (.runtimeError "PVSS Verification failed in status")
    | .ok true =>
      let transcripts := s.viewTranscripts ptrans.forView ++ [ptrans.pvssTranscript]
      let s : Replica T := { s.drawn with
        viewTranscripts := Function.update s.viewTranscripts ptrans.forView transcripts
        transcriptIds := Function.update s.transcriptIds ptrans.forView
          (ids ++ [ptrans.replicaID]) }
      if ids.length + 1 = E.config.nmajority then
        match (E.pvss s.id).aggregate transcripts (ids ++ [ptrans.replicaID]) with
        | .error e => s.raise (.pvss e)
        | .ok agg =>
          match (E.pvss s.id).verifyAggregation agg s.draws with
          | .error e => s.raise (.pvss e)
          | .ok false => s.raise (.runtimeError "Aggregation Verification failed in status")
          | .ok true => done { s.drawn with
              viewAggTranscripts := Function.update s.viewAggTranscripts ptrans.forView agg }
      else s.done

end Replica

end OptRand.Hotstuff
