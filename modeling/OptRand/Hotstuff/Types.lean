import OptRand.Hotstuff.Crypto

/-!
# Blocks and messages (`entity.h`, `consensus.h`, `hotstuff.h`)

The objects that replicas exchange. A `block_t` is a pointer into the block cache, which is
keyed by hash, so a block is referred to by its hash here. Payloads that travel as text
(aggregates, sharings, shares, beacons) are carried as the values their text parses to. The
types of these values and of the erasure coded chunks are collected in `PayloadTypes`.
-/

namespace OptRand.Hotstuff

/-- The types of the values that messages carry in serialized form. -/
structure PayloadTypes where
  Aggregate : Type
  Sharing : Type
  Decryption : Type
  Beacon : Type
  Chunk : Type
  Path : Type

abbrev PartCert := PartCertSecp256k1 Signature

abbrev QuorumCert := QuorumCertSecp256k1 Signature

variable (T : PayloadTypes)

/-- The serialized fields of a `Block`. -/
structure BlockContent where
  parentHashes : List ℕ
  cmds : List ℕ
  qc : Option QuorumCert
  qcRefHash : ℕ
  extra : T.Aggregate

/-- `Block`. -/
structure Block extends BlockContent T where
  hash : ℕ
  parents : List ℕ
  qcRef : Option ℕ
  selfQc : Option QuorumCert
  height : ℕ
  delivered : Bool
  decision : ℕ
  voted : List ℕ
  acked : List ℕ
  view : ℕ

/-- `Proposal`, parsed: `blk` points into the block cache. -/
structure Proposal where
  proposer : ℕ
  blk : ℕ
  view : ℕ
  deriving DecidableEq, Repr

/-- `Vote`. -/
structure Vote where
  voter : ℕ
  blkHash : ℕ
  cert : PartCert
  view : ℕ
  deriving DecidableEq, Repr

/-- `Ack`. -/
structure Ack where
  voter : ℕ
  blkHash : ℕ
  cert : PartCert
  view : ℕ
  deriving DecidableEq, Repr

/-- `Status`. -/
structure Status where
  replicaID : ℕ
  view : ℕ
  qc : QuorumCert
  deriving DecidableEq

/-- `PVSSTranscript`. -/
structure PVSSTranscript where
  replicaID : ℕ
  forView : ℕ
  pvssTranscript : T.Sharing

/-- `Share`. -/
structure Share where
  replicaId : ℕ
  view : ℕ
  bt : T.Decryption

/-- `Beacon`. -/
structure Beacon where
  replicaId : ℕ
  view : ℕ
  bt : T.Beacon

/-- `Echo`. -/
structure Echo where
  replicaID : ℕ
  idx : ℕ
  view : ℕ
  mtype : ℕ
  merkleRoot : ℕ
  merkleProof : T.Path
  cert : PartCert
  chunk : T.Chunk

/-- `MessageType`. -/
def MessageType.PROPOSAL : ℕ := 0

def MessageType.CERT : ℕ := 1

/-- A `Proposal` as it is serialized, with the content of its block. -/
structure ProposalContent where
  proposer : ℕ
  blk : BlockContent T
  view : ℕ

/-- The messages of the replica network. -/
inductive Msg
  | propose (prop : ProposalContent T)
  | vote (vote : Vote)
  | reqBlock (blkHashes : List ℕ)
  | respBlock (blks : List (BlockContent T))
  | status (status : Status)
  | echo (echo : Echo T)
  | echo2 (echo : Echo T)
  | qc (qc : QuorumCert)
  | ack (ack : Ack)
  | share (share : Share T)
  | beacon (beacon : Beacon T)
  | pvssTranscript (ptrans : PVSSTranscript T)

/-! ## The libraries a replica calls -/

/-- What a replica uses of its `optrand_crypto::Context`. A function that draws random
values takes the number of the draw. -/
structure PvssContext where
  createSharing : ℕ → Except Pvss.Error T.Sharing
  verifySharing : T.Sharing → ℕ → Except Pvss.Error Bool
  aggregate : List T.Sharing → List ℕ → Except Pvss.Error T.Aggregate
  verifyAggregation : T.Aggregate → ℕ → Except Pvss.Error Bool
  decrypt : T.Aggregate → ℕ → Except Pvss.Error T.Decryption
  verifyDecryption : T.Aggregate → T.Decryption → Except Pvss.Error Bool
  reconstruct : List T.Decryption → Except Pvss.Error T.Beacon
  verifyBeacon : T.Aggregate → T.Beacon → Bool

/-- `Erasure` and `merkle`, applied to serialized proposals and certificates. In `decode` the
erased chunks are `none`; they are replaced by zero chunks of the size of the given chunk. -/
structure Dispersal where
  encodeProposal : ℕ → ℕ → ProposalContent T → List T.Chunk
  encodeCert : ℕ → ℕ → QuorumCert → List T.Chunk
  root : List T.Chunk → ℕ
  path : List T.Chunk → ℕ → T.Path
  verifyPath : T.Path → ℕ → Bool
  decodeProposal : ℕ → ℕ → T.Chunk → List (Option T.Chunk) → Except Error (ProposalContent T)
  decodeCert : ℕ → ℕ → T.Chunk → List (Option T.Chunk) → Except Error QuorumCert

/-- What does not change in a system: its size, the hash function of blocks, the libraries,
a default constructed aggregate, the setup file and the block size. -/
structure Env where
  nreplicas : ℕ
  hash : BlockContent T → ℕ
  emptyAggregate : T.Aggregate
  pvss : ℕ → PvssContext T
  dispersal : Dispersal T
  setup : List T.Aggregate
  blkSize : ℕ

/-- The configuration of every replica after `start`. -/
def Env.config {T : PayloadTypes} (E : Env T) : ReplicaConfig ℕ :=
  ReplicaConfig.start id E.nreplicas

/-- The hash of the genesis block, which has no parent, command or certificate. -/
def Env.genesis {T : PayloadTypes} (E : Env T) : ℕ :=
  E.hash ⟨[], [], none, 0, E.emptyAggregate⟩

end OptRand.Hotstuff
