import OptRand.Hotstuff.Types

/-!
# The state of a replica

`Replica` has the fields of `HotStuffCore`, `HotStuffBase` and `PaceMakerRR` that the
protocol reads, and the block cache of `EntityStorage`.

A promise runs its callbacks inside the call that resolves it, so most functions can be
re-entered by the calls they make. Such a call is a `Frame` on a stack: a function body is
cut where it calls a function that may resolve a promise, and the rest of the body is a
frame of its own, under the frame of the callee. Running the top frame is one step.
A `promise::all` that still waits is a `Pending` entry, with the promises it waits for
(`Cond`) and its continuation (`Task`).
-/

namespace OptRand.Hotstuff

/-! ## Promises -/

/-- A promise that a `promise::all` waits for: a delivery, a fetch, the verification pool,
or one of the per-view promises of `HotStuffCore`. -/
inductive Cond
  | delivered (blkHash : ℕ)
  | fetched (blkHash : ℕ)
  | veri
  | enterView (view : ℕ)
  | viewProposal (view : ℕ)
  | viewQc (view : ℕ)
  deriving DecidableEq, Repr

/-- What a `promise::all` verifies. -/
inductive Check
  | skip
  | part (cert : PartCert) (signer digest : ℕ)
  | status (status : Status)
  | qc (qc : QuorumCert)
  | block (blkHash : ℕ)

variable (T : PayloadTypes)

/-- The callback of a `promise::all`. -/
inductive Task
  | fetched (blkHash peer : ℕ)
  | deliver (blkHash : ℕ)
  | propose (prop : Proposal)
  | vote (vote : Vote)
  | ack (ack : Ack)
  | share (share : Share T)
  | beacon (beacon : Beacon T)
  | status (status : Status)
  | echo (echo : Echo T)
  | echo2 (echo : Echo T)
  | qc (qc : QuorumCert)
  | respBlock (blkHashes : List ℕ) (peer : ℕ)

/-- A `promise::all` about to be formed: what is verified and what else is waited for. -/
structure Wait where
  check : Check
  conds : List Cond
  task : Task T

/-- A `promise::all` that waits. `result` is what its verification resolves to. -/
structure Pending where
  id : ℕ
  conds : List Cond
  result : Bool
  task : Task T

/-- The state of a promise in `qc_waiting`; a pending one has the beats to resolve. -/
inductive QcPromise
  | pending (beats : List ℕ)
  | fulfilled
  | rejected
  deriving DecidableEq, Repr

/-! ## Calls -/

/-- A call, or the rest of a function after a call. -/
inductive Frame
  | handle (peer : ℕ) (msg : Msg T)
  | gather (blkHashes : List ℕ) (peer : ℕ) (conds : List Cond) (wait : Wait T)
  | startDelivery (blkHash peer : ℕ)
  | notify (id : ℕ) (cond : Cond)
  | resolve (cond : Cond)
  | run (task : Task T) (result : Bool)
  | onDeliverBlk (blkHash : ℕ)
  | onFetchBlk (blkHash : ℕ)
  | onReceiveProposal (prop : Proposal)
  | checkAggregation (prop : Proposal) (opinion : Bool)
  | proposalVote (prop : Proposal) (opinion : Bool)
  | proposalDeliver (prop : Proposal)
  | onReceiveViewProposal_
  | vote (blk proposer : ℕ)
  | onReceiveVote (vote : Vote)
  | broadcastQc (blk : ℕ)
  | onReceiveStatus (status : Status)
  | onReceiveQc (qc : QuorumCert)
  | onReceiveQc_
  | ack (blk : ℕ)
  | broadcastAck (ack : Ack)
  | onReceiveAck (ack : Ack)
  | broadcastShare
  | sendShare (share : Share T)
  | onReceiveShare (share : Share T)
  | onReceiveBeacon (beacon : Beacon T)
  | tryEnterView
  | onEnterView (view : ℕ)
  | sendStatus
  | sendSharing (view : ℕ)
  | onReceiveProposalEcho (echo : Echo T)
  | onReceiveCertEcho (echo : Echo T)
  | eraseQcChunks (view : ℕ)
  | onReceivePvssTranscript (ptrans : PVSSTranscript T)
  | doPropose
  | onProposeTimer
  | stopProposeTimer
  | fetchTimeout (blkHash : ℕ)
  | onPropose_ (prop : Proposal)
  | finishPropose (prop : Proposal)
  | onQcFinish (blk : ℕ)
  | eraseQcWaiting (blk : ℕ)
  | execCommand (cmdHash : ℕ)
  | afterBeat (beat : ℕ)
  | beatCallback
  | resolveBeat (beat : ℕ)
  | proposerScheduleNext
  | lock

/-! ## The state -/

/-- `PaceMakerRR`: the tail of `PMHighTail` and the fields of `PMRoundRobinProposer`. A beat
is numbered; its promise is resolved, or its callback attached, or neither yet. The two
counters are the callbacks of `reg_proposal` and `reg_receive_proposal` that wait. -/
structure PaceMaker where
  hqcTail : ℕ
  proposer : ℕ
  rotating : Bool
  propBlk : ℕ → Option ℕ
  regProposals : ℕ
  regReceiveProposals : ℕ
  pendingBeats : List ℕ
  nextBeat : ℕ
  resolvedBeats : List ℕ
  attachedBeats : List ℕ
  lastProposed : ℕ
  locked : Bool
  pmQcFinish : Option ℕ

/-- The state of a replica. -/
structure Replica where
  id : ℕ
  hqc : ℕ × QuorumCert
  bExec : ℕ
  vheight : ℕ
  view : ℕ
  viewTrans : Bool
  voteDisabled : Bool
  proposals : ℕ → List ℕ
  finishedPropose : ℕ → Bool
  tails : List ℕ
  lastProposeDeliveredView : ℕ
  lastProposeDecodedView : ℕ
  lastCertDecodedView : ℕ
  lastViewProposalReceived : ℕ
  lastViewCertReceived : ℕ
  lastViewSharesReceived : ℕ
  lastCertDeliveredView : ℕ
  lastProposedView : ℕ
  lastViewBeaconReceived : ℕ
  propChunks : ℕ → List (ℕ × Option T.Chunk)
  qcChunks : ℕ → List (ℕ × Option T.Chunk)
  statusReceived : ℕ → List ℕ
  viewTranscripts : ℕ → List T.Sharing
  transcriptIds : ℕ → List ℕ
  viewShares : ℕ → List T.Decryption
  aggQueue : ℕ → T.Aggregate
  viewAggTranscripts : ℕ → T.Aggregate
  draws : ℕ
  blkCache : ℕ → Option (Block T)
  viewWaiting : ℕ → Bool
  viewQcWaiting : ℕ → Bool
  viewProposalWaiting : ℕ → Bool
  qcWaiting : ℕ → Option QcPromise
  pendings : List (Pending T)
  nextPending : ℕ
  blkFetchWaiting : ℕ → Option (List ℕ)
  blkDeliveryWaiting : List ℕ
  proposeTimer : Bool
  decisionWaiting : List ℕ
  cmdPendingBuffer : List ℕ
  pm : PaceMaker

/-- The kinds of object that a replica signs. -/
inductive SignKind
  | vote
  | ack
  | echo
  deriving DecidableEq, Repr

/-- What a step does besides changing the state: messages sent, and the calls and results
that the properties of the protocol speak of. -/
inductive Output
  | send (dest : ℕ) (msg : Msg T)
  | broadcast (msg : Msg T)
  | signed (kind : SignKind) (digest view : ℕ)
  | consensus (blk : ℕ)
  | beacon (view : ℕ) (aggregate : T.Aggregate) (beacon : T.Beacon)

/-- The effect of a step: the state, the outputs, the frames to run next (the first one
first), and the exception that left the step, if any. -/
structure Outcome where
  rep : Replica T
  out : List (Output T)
  calls : List (Frame T)
  error : Option Error

variable {T}

namespace Replica

/-- Return. -/
def done (s : Replica T) : Outcome T := ⟨s, [], [], none⟩

/-- Throw `e`. -/
def raise (s : Replica T) (e : Error) : Outcome T := ⟨s, [], [], some e⟩

/-- Call `calls` in turn. -/
def call (s : Replica T) (calls : List (Frame T)) : Outcome T := ⟨s, [], calls, none⟩

/-- Emit `out` and call `calls` in turn. -/
def emit (s : Replica T) (out : List (Output T)) (calls : List (Frame T)) : Outcome T :=
  ⟨s, out, calls, none⟩

end Replica

end OptRand.Hotstuff
