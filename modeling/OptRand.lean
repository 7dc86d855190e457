import OptRand.Lib.Checked
import OptRand.Lib.Codec
import OptRand.Lib.Interpolation
import OptRand.Lib.Locking
import OptRand.Lib.MerkleLog
import OptRand.Lib.Pairing
import OptRand.Lib.Quorum
import OptRand.Lib.RoundRobin
import OptRand.Lib.Sha256
import OptRand.Pvss.PolyOps
import OptRand.Pvss.Completeness
import OptRand.Pvss.Degree
import OptRand.Pvss.Soundness
import OptRand.Pvss.Text
import OptRand.Pvss.Picosha
import OptRand.Pvss.Challenge
import OptRand.Hotstuff.Crypto
import OptRand.Hotstuff.State
import OptRand.Hotstuff.PaceMaker
import OptRand.Hotstuff.Core
import OptRand.Hotstuff.Base
import OptRand.Hotstuff.System
import OptRand.Hotstuff.Handlers
import OptRand.Hotstuff.Footprint
import OptRand.Hotstuff.Frames
import OptRand.Hotstuff.Runs
import OptRand.Hotstuff.Scripts
import OptRand.Hotstuff.Signing
import OptRand.Hotstuff.AggQueue
import OptRand.Hotstuff.Waiting
import OptRand.Hotstuff.BeaconAgreement
import OptRand.Hotstuff.Cache
import OptRand.Hotstuff.Records
import OptRand.Hotstuff.Calls
import OptRand.Hotstuff.ViewChange
import OptRand.Hotstuff.Shares
import OptRand.Hotstuff.Transcripts
import OptRand.Hotstuff.Voting
import OptRand.Hotstuff.Tree
import OptRand.Hotstuff.Execution
import OptRand.Hotstuff.HighTail
import OptRand.Hotstuff.Dispersal
import OptRand.Hotstuff.Certified
import OptRand.Hotstuff.Commits
import OptRand.Hotstuff.Agenda
import OptRand.Hotstuff.Beats
import OptRand.Hotstuff.Wakeups
import OptRand.Hotstuff.Statuses
import OptRand.Hotstuff.Gates
import OptRand.Hotstuff.Schedule
import OptRand.Hotstuff.QueueLag
import OptRand.Hotstuff.Proposals
import OptRand.Hotstuff.Rejections
import OptRand.Hotstuff.Refusals
import OptRand.Hotstuff.Ancestry
import OptRand.Hotstuff.Tails
import OptRand.Hotstuff.Prune
import OptRand.Hotstuff.Addressing
import OptRand.Wire.Crypto
import OptRand.Wire.Entity
import OptRand.Wire.Messages
import OptRand.Wire.Erasure
import OptRand.Wire.Merkle
import OptRand.Wire.MerkleTree
import OptRand.Wire.MerklePath
import OptRand.Wire.MerklePast
import OptRand.Wire.MerkleRuns
import OptRand.Wire.MerkleStore
import OptRand.Wire.MerkleHash
import OptRand.Wire.Dispersal
import OptRand.Hotstuff.Reassembly
import OptRand.Hotstuff.VeriPool
import OptRand.Promises.Machine
import OptRand.Promises.Callbacks
import OptRand.Promises.Outcomes
import OptRand.Promises.Gathering
import OptRand.Promises.Settling
import OptRand.Hotstuff.Promised
