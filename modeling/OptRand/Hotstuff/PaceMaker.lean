import OptRand.Hotstuff.Storage

/-!
# The pacemaker (`liveness.h`)

`PaceMakerRR`: the parent selection of `PMHighTail` and the proposer rotation of
`PMRoundRobinProposer`.
-/

namespace OptRand.Hotstuff

variable {T : PayloadTypes}

/-- `(_view - 1) % nreplicas`, the `get_proposer` of `HotStuffCore` and the proposer that
`rotate` chooses. -/
def Env.getProposer (E : Env T) (view : ℕ) : ℕ := (view - 1) % E.nreplicas

namespace Replica

/-- `pm_qc_finish.reject()`. -/
def rejectQcFinish (s : Replica T) : Replica T :=
  match s.pm.pmQcFinish with
  | none => s
  | some b =>
    match s.qcWaiting b with
    | some (.pending _) =>
      { s with qcWaiting := Function.update s.qcWaiting b (some .rejected) }
    | _ => s

/-- `PMRoundRobinProposer::rotate`. -/
def rotate (E : Env T) (s : Replica T) (view : ℕ) : Replica T :=
  rejectQcFinish { s with
    pm := { s.pm with
      regProposals := s.pm.regProposals + 1
      regReceiveProposals := s.pm.regReceiveProposals + 1
      propBlk := fun _ => none
      rotating := true
      proposer := E.getProposer view } }

/-- `PMRoundRobinProposer::stop_rotate`. -/
def stopRotate (E : Env T) (s : Replica T) : Replica T :=
  let s := s.rejectQcFinish
  { s with pm := { s.pm with rotating := false, locked := false, lastProposed := E.genesis } }

/-- `PMRoundRobinProposer::enter_view`. -/
def enterView (E : Env T) (s : Replica T) (view : ℕ) : Replica T :=
  if s.pm.rotating then s else (s.rotate E view).stopRotate E

/-- `PMRoundRobinProposer::on_consensus`. -/
def onConsensus (E : Env T) (s : Replica T) (blk : ℕ) : Replica T :=
  if s.pm.propBlk s.pm.proposer = some blk then s.stopRotate E else s

/-- The callback of `reg_proposal` and `reg_receive_proposal`: note the first block seen of
a proposer. -/
def notePropBlk (s : Replica T) (proposer blk : ℕ) : Replica T :=
  match s.pm.propBlk proposer with
  | some _ => s
  | none =>
    { s with pm := { s.pm with propBlk := Function.update s.pm.propBlk proposer (some blk) } }

/-- `on_receive_proposal_`, with the callbacks of `PMHighTail` and
`PMRoundRobinProposer`. -/
def onReceiveProposal_ (s : Replica T) (prop : Proposal) : Except Error (Replica T) := do
  let follows ← s.checkAncestry s.hqc.1 prop.blk
  let s : Replica T := if follows && s.height prop.blk > s.height s.pm.hqcTail then
    { s with pm := { s.pm with hqcTail := prop.blk } } else s
  let s : Replica T := if s.pm.regReceiveProposals > 0 then s.notePropBlk prop.proposer prop.blk else s
  return if s.pm.rotating then s else { s with pm := { s.pm with regReceiveProposals := 0 } }

/-- `on_propose_`, with the callbacks of `PMHighTail` and `PMRoundRobinProposer`. -/
def onPropose_ (s : Replica T) (prop : Proposal) : Outcome T :=
  let s : Replica T := { s with pm := { s.pm with hqcTail := prop.blk } }
  let s : Replica T := if s.pm.regProposals > 0 then s.notePropBlk s.id prop.blk else s
  let s : Replica T :=
    if s.pm.rotating then s else { s with pm := { s.pm with regProposals := 0 } }
  let s : Replica T := { s with pm := { s.pm with lastProposed := prop.blk, locked := false } }
  s.call [.proposerScheduleNext]

/-- `PMRoundRobinProposer::proposer_schedule_next`, with `async_qc_finish` of the block
proposed last. -/
def proposerScheduleNext (E : Env T) (s : Replica T) : Outcome T :=
  match s.pm.pendingBeats with
  | [] => s.done
  | beat :: beats =>
    if s.pm.locked then s.done
    else
      let s := s.rejectQcFinish
      let s : Replica T := { s with pm := { s.pm with pendingBeats := beats } }
      let b := s.pm.lastProposed
      match s.blkCache b with
      | none => s.raise .undefined
      | some blk =>
        if E.config.nmajority ≤ blk.voted.length then
          call { s with pm := { s.pm with pmQcFinish := none } } [.resolveBeat beat, .lock]
        else
          let s : Replica T := { s with pm := { s.pm with pmQcFinish := some b } }
          let wait (beats : List ℕ) : Replica T :=
            { s with qcWaiting := Function.update s.qcWaiting b (some (.pending beats)) }
          match s.qcWaiting b with
          | none => (wait [beat]).call [.lock]
          | some (.pending beats) => (wait (beats ++ [beat])).call [.lock]
          | some .fulfilled => s.call [.resolveBeat beat, .lock]
          | some .rejected => s.call [.lock]

/-- The end of `proposer_schedule_next`. -/
def lock (s : Replica T) : Outcome T := done { s with pm := { s.pm with locked := true } }

/-- `pm.resolve(proposer)` of a beat. -/
def resolveBeat (s : Replica T) (beat : ℕ) : Outcome T :=
  if beat ∈ s.pm.attachedBeats then s.call [.beatCallback]
  else done { s with pm := { s.pm with resolvedBeats := beat :: s.pm.resolvedBeats } }

/-- `.then` on the promise that `beat` returns. -/
def afterBeat (s : Replica T) (beat : ℕ) : Outcome T :=
  if beat ∈ s.pm.resolvedBeats then s.call [.beatCallback]
  else done { s with pm := { s.pm with attachedBeats := beat :: s.pm.attachedBeats } }

/-- `PMRoundRobinProposer::beat`. -/
def beat (s : Replica T) : Outcome T :=
  if !s.pm.rotating && s.pm.proposer == s.id then
    let beat := s.pm.nextBeat
    call { s with pm := { s.pm with
      pendingBeats := s.pm.pendingBeats ++ [beat], nextBeat := beat + 1 } }
      [.proposerScheduleNext, .afterBeat beat]
  else s.call [.beatCallback]

/-- The callback of the command queue on a beat. -/
def beatCallback (E : Env T) (s : Replica T) : Outcome T :=
  if s.lastProposedView ≥ s.view then s.done
  else (s.enterView E 1).call [.onEnterView 1]

/-- One round of the `cmd_pending` handler of `HotStuffBase::start`. -/
def execCommand (E : Env T) (s : Replica T) (cmdHash : ℕ) : Outcome T :=
  let s : Replica T := if cmdHash ∈ s.decisionWaiting then s else
    { s with
      decisionWaiting := cmdHash :: s.decisionWaiting
      cmdPendingBuffer := s.cmdPendingBuffer ++ [cmdHash] }
  if s.lastProposedView ≥ s.view then s.done
  else if E.blkSize ≤ s.cmdPendingBuffer.length then s.beat
  else s.done

/-- `HotStuffCore::on_qc_finish`. -/
def onQcFinish (s : Replica T) (blk : ℕ) : Outcome T :=
  match s.qcWaiting blk with
  | none => s.done
  | some (.pending beats) =>
    call { s with qcWaiting := Function.update s.qcWaiting blk (some .fulfilled) }
      (beats.map .resolveBeat ++ [.eraseQcWaiting blk])
  | some _ => s.call [.eraseQcWaiting blk]

/-- The end of `on_qc_finish`. -/
def eraseQcWaiting (s : Replica T) (blk : ℕ) : Outcome T :=
  done { s with qcWaiting := Function.update s.qcWaiting blk none }

end Replica

end OptRand.Hotstuff
