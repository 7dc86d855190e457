import OptRand.Wire.Entity

/-!
# Messages on the wire (`consensus.h`, `hotstuff.cpp`)

The messages between replicas, written to a `DataStream` and read from one. Parsing a message that
carries blocks files them in the storage of the replica, so reading a message gives the storage too.

Every message of the program can be written, and `Message.received` says what is read back. It is
the message itself, with nothing else taken from the stream, unless a certificate in it holds a
signature that it does not write, or a block in it is not what its hash stands for
(`Message.round_trip`).
-/

namespace OptRand.Wire

open Lib

variable {Hash Sig : Type}

/-! ## Votes and acks -/

/-- `Vote`. -/
structure Vote (Hash Sig : Type) where
  voter : UInt16
  blkHash : Hash
  cert : PartCertSecp256k1 Hash Sig
  view : UInt32

namespace Vote

def serialize (E : Encodings Hash Sig) (vote : Vote Hash Sig) : List UInt8 :=
  E.u16.write vote.voter ++ (E.hash.write vote.blkHash ++ (E.u32.write vote.view ++
    vote.cert.serialize E))

def unserialize (E : Encodings Hash Sig) : Reader UInt8 (Vote Hash Sig) := do
  let voter ← E.u16.read
  let blkHash ← E.hash.read
  let view ← E.u32.read
  let cert ← PartCertSecp256k1.unserialize E
  return ⟨voter, blkHash, cert, view⟩

theorem reads {E : Encodings Hash Sig} (hE : E.RoundTrip) (vote : Vote Hash Sig) :
    Reads (unserialize E) (vote.serialize E) vote := by
  refine (hE.u16 vote.voter).bind ?_
  refine (hE.hash vote.blkHash).bind ?_
  refine (hE.u32 vote.view).bind ?_
  exact (PartCertSecp256k1.reads hE vote.cert).map fun cert =>
    Vote.mk vote.voter vote.blkHash cert vote.view

end Vote

/-- `Ack`: the fields of a `Vote`, written in the same order. -/
abbrev Ack (Hash Sig : Type) := Vote Hash Sig

def Ack.serialize (E : Encodings Hash Sig) (ack : Ack Hash Sig) : List UInt8 :=
  Vote.serialize E ack

def Ack.unserialize (E : Encodings Hash Sig) : Reader UInt8 (Ack Hash Sig) :=
  Vote.unserialize E

/-! ## Shares, beacons and transcripts -/

/-- `Share`. -/
structure Share where
  replicaId : UInt16
  view : UInt32
  bt : List UInt8

namespace Share

def serialize (E : Encodings Hash Sig) (share : Share) : List UInt8 :=
  E.u16.write share.replicaId ++ (E.u32.write share.view ++ E.putBytes share.bt)

def unserialize (E : Encodings Hash Sig) : Reader UInt8 Share := do
  let replicaId ← E.u16.read
  let view ← E.u32.read
  let bt ← E.getBytes
  return ⟨replicaId, view, bt⟩

theorem reads {E : Encodings Hash Sig} (hE : E.RoundTrip) {share : Share}
    (h : share.bt.length < 2 ^ 32) : Reads (unserialize E) (share.serialize E) share := by
  refine (hE.u16 share.replicaId).bind ?_
  refine (hE.u32 share.view).bind ?_
  exact (hE.bytes h).map fun bt => Share.mk share.replicaId share.view bt

end Share

/-- `Beacon`: the fields of a `Share`, written in the same order. -/
abbrev Beacon := Share

def Beacon.serialize (E : Encodings Hash Sig) (beacon : Beacon) : List UInt8 :=
  Share.serialize E beacon

def Beacon.unserialize (E : Encodings Hash Sig) : Reader UInt8 Beacon := Share.unserialize E

/-- `PVSSTranscript`. -/
structure PVSSTranscript where
  replicaID : UInt16
  forView : UInt32
  pvssTranscript : List UInt8

namespace PVSSTranscript

def serialize (E : Encodings Hash Sig) (ptrans : PVSSTranscript) : List UInt8 :=
  E.u32.write ptrans.forView ++ (E.u16.write ptrans.replicaID ++
    E.putBytes ptrans.pvssTranscript)

def unserialize (E : Encodings Hash Sig) : Reader UInt8 PVSSTranscript := do
  let forView ← E.u32.read
  let replicaID ← E.u16.read
  let pvssTranscript ← E.getBytes
  return ⟨replicaID, forView, pvssTranscript⟩

theorem reads {E : Encodings Hash Sig} (hE : E.RoundTrip) {ptrans : PVSSTranscript}
    (h : ptrans.pvssTranscript.length < 2 ^ 32) :
    Reads (unserialize E) (ptrans.serialize E) ptrans := by
  refine (hE.u32 ptrans.forView).bind ?_
  refine (hE.u16 ptrans.replicaID).bind ?_
  exact (hE.bytes h).map fun bt => PVSSTranscript.mk ptrans.replicaID ptrans.forView bt

end PVSSTranscript

/-! ## Echoes -/

/-- `Echo`. -/
structure Echo (Hash Sig : Type) where
  replicaID : UInt16
  idx : UInt32
  view : UInt32
  mtype : UInt32
  merkleRoot : Hash
  merkleProof : List UInt8
  cert : PartCertSecp256k1 Hash Sig
  chunk : Chunk

namespace Echo

def serialize (E : Encodings Hash Sig) (echo : Echo Hash Sig) : List UInt8 :=
  E.u16.write echo.replicaID ++ (E.u32.write echo.idx ++ (E.u32.write echo.view ++
    (E.u32.write echo.mtype ++ (E.hash.write echo.merkleRoot ++
      (E.putBytes echo.merkleProof ++ (echo.chunk.serialize E ++ echo.cert.serialize E))))))

def unserialize (E : Encodings Hash Sig) : Reader UInt8 (Echo Hash Sig) := do
  let replicaID ← E.u16.read
  let idx ← E.u32.read
  let view ← E.u32.read
  let mtype ← E.u32.read
  let merkleRoot ← E.hash.read
  let merkleProof ← E.getBytesOrClear
  let chunk ← Chunk.unserialize E
  let cert ← PartCertSecp256k1.unserialize E
  return ⟨replicaID, idx, view, mtype, merkleRoot, merkleProof, cert, chunk⟩

theorem reads {E : Encodings Hash Sig} (hE : E.RoundTrip) {echo : Echo Hash Sig}
    (hproof : echo.merkleProof.length < 2 ^ 32) (hchunk : echo.chunk.data.length < 2 ^ 32) :
    Reads (unserialize E) (echo.serialize E) echo := by
  refine (hE.u16 echo.replicaID).bind ?_
  refine (hE.u32 echo.idx).bind ?_
  refine (hE.u32 echo.view).bind ?_
  refine (hE.u32 echo.mtype).bind ?_
  refine (hE.hash echo.merkleRoot).bind ?_
  refine (hE.bytesOrClear hproof).bind ?_
  refine (Chunk.reads hE hchunk).bind ?_
  exact (PartCertSecp256k1.reads hE echo.cert).map fun cert => { echo with cert := cert }

end Echo

/-! ## Messages with a quorum certificate -/

/-- `Status`. -/
structure Status (Hash Sig : Type) where
  replicaID : UInt16
  view : UInt32
  qc : QuorumCertSecp256k1 Hash Sig

namespace Status

def serialize (E : Encodings Hash Sig) (status : Status Hash Sig) : Option (List UInt8) := do
  let qc ← status.qc.serialize E
  return E.u32.write status.view ++ (E.u16.write status.replicaID ++ qc)

variable [Inhabited Hash]

def unserialize (E : Encodings Hash Sig) : Reader UInt8 (Status Hash Sig) := do
  let view ← E.u32.read
  let replicaID ← E.u16.read
  let qc ← QuorumCertSecp256k1.parse E
  return ⟨replicaID, view, qc⟩

theorem reads {E : Encodings Hash Sig} (hE : E.RoundTrip) {status : Status Hash Sig}
    (hqc : status.qc.Complete) : ∃ bytes, status.serialize E = some bytes ∧
      Reads (unserialize E) bytes { status with qc := status.qc.trimmed } := by
  obtain ⟨w, hw, hread⟩ := hqc.reads hE
  refine ⟨E.u32.write status.view ++ (E.u16.write status.replicaID ++ w), ?_, ?_⟩
  · rw [serialize, hw]
    rfl
  · refine (hE.u32 status.view).bind ?_
    refine (hE.u16 status.replicaID).bind ?_
    exact (hread _ fun _ => rfl).map fun qc => Status.mk status.replicaID status.view qc

end Status

/-- `QC`. -/
structure QC (Hash Sig : Type) where
  qc : QuorumCertSecp256k1 Hash Sig

namespace QC

def serialize (E : Encodings Hash Sig) (qc : QC Hash Sig) : Option (List UInt8) :=
  qc.qc.serialize E

variable [Inhabited Hash]

def unserialize (E : Encodings Hash Sig) : Reader UInt8 (QC Hash Sig) := do
  let qc ← QuorumCertSecp256k1.parse E
  return ⟨qc⟩

theorem reads {E : Encodings Hash Sig} (hE : E.RoundTrip) {qc : QC Hash Sig}
    (hqc : qc.qc.Complete) : ∃ bytes, qc.serialize E = some bytes ∧
      Reads (unserialize E) bytes ⟨qc.qc.trimmed⟩ := by
  obtain ⟨w, hw, hread⟩ := hqc.reads hE
  exact ⟨w, hw, (hread _ fun _ => rfl).map QC.mk⟩

end QC

/-! ## Finality -/

/-- `Finality`. -/
structure Finality (Hash : Type) where
  rid : UInt16
  decision : Int8
  cmdIdx : UInt32
  cmdHeight : UInt32
  cmdHash : Hash
  blkHash : Hash

namespace Finality

def serialize (E : Encodings Hash Sig) (fin : Finality Hash) : List UInt8 :=
  E.u16.write fin.rid ++ (E.i8.write fin.decision ++ (E.u32.write fin.cmdIdx ++
    (E.u32.write fin.cmdHeight ++ (E.hash.write fin.cmdHash ++
      if fin.decision = 1 then E.hash.write fin.blkHash else []))))

/-- `if (decision == 1) s >> blk_hash`. -/
def getBlkHash (E : Encodings Hash Sig) (self : Finality Hash) (decision : Int8) :
    Reader UInt8 Hash :=
  if decision = 1 then E.hash.read else pure self.blkHash

def unserialize (E : Encodings Hash Sig) (self : Finality Hash) :
    Reader UInt8 (Finality Hash) := do
  let rid ← E.u16.read
  let decision ← E.i8.read
  let cmdIdx ← E.u32.read
  let cmdHeight ← E.u32.read
  let cmdHash ← E.hash.read
  let blkHash ← self.getBlkHash E decision
  return ⟨rid, decision, cmdIdx, cmdHeight, cmdHash, blkHash⟩

theorem reads {E : Encodings Hash Sig} (hE : E.RoundTrip) {fin self : Finality Hash}
    (h : fin.decision ≠ 1 → fin.blkHash = self.blkHash) :
    Reads (unserialize E self) (fin.serialize E) fin := by
  refine (hE.u16 fin.rid).bind ?_
  refine (hE.i8 fin.decision).bind ?_
  refine (hE.u32 fin.cmdIdx).bind ?_
  refine (hE.u32 fin.cmdHeight).bind ?_
  refine (hE.hash fin.cmdHash).bind ?_
  have hblk : Reads (self.getBlkHash E fin.decision)
      (if fin.decision = 1 then E.hash.write fin.blkHash else []) fin.blkHash := by
    unfold getBlkHash
    split
    · exact hE.hash fin.blkHash
    · rename_i hdecision
      rw [h hdecision]
      exact Reads.pure self.blkHash
  exact hblk.map fun blkHash => { fin with blkHash := blkHash }

end Finality

/-! ## All messages -/

/-- The classes of messages. -/
inductive MsgType
  | propose | vote | ack | status | echo | share | beacon | pvssTranscript | qc | finality
  | reqBlock | respBlock
  deriving DecidableEq

/-- A message. -/
inductive Message (Hash Sig : Type)
  /-- `Proposal`: the proposer, the block and the view. -/
  | propose (proposer : UInt16) (blk : Block Hash Sig) (view : UInt32)
  | vote (vote : Vote Hash Sig)
  | ack (ack : Ack Hash Sig)
  | status (status : Status Hash Sig)
  | echo (echo : Echo Hash Sig)
  | share (share : Share)
  | beacon (beacon : Beacon)
  | pvssTranscript (ptrans : PVSSTranscript)
  | qc (qc : QC Hash Sig)
  | finality (fin : Finality Hash)
  | reqBlock (blkHashes : List Hash)
  | respBlock (blks : List (Block Hash Sig))

namespace Message

def type : Message Hash Sig → MsgType
  | propose .. => .propose
  | vote _ => .vote
  | ack _ => .ack
  | status _ => .status
  | echo _ => .echo
  | share _ => .share
  | beacon _ => .beacon
  | pvssTranscript _ => .pvssTranscript
  | qc _ => .qc
  | finality _ => .finality
  | reqBlock _ => .reqBlock
  | respBlock _ => .respBlock

def serialize (E : Encodings Hash Sig) : Message Hash Sig → Option (List UInt8)
  | .propose proposer blk view => do
    let bytes ← blk.serialize E
    return E.u16.write proposer ++ (bytes ++ E.u32.write view)
  | .vote v => some (v.serialize E)
  | .ack a => some (Ack.serialize E a)
  | .status s => s.serialize E
  | .echo e => some (e.serialize E)
  | .share s => some (s.serialize E)
  | .beacon b => some (Beacon.serialize E b)
  | .pvssTranscript p => some (p.serialize E)
  | .qc q => q.serialize E
  | .finality f => some (f.serialize E)
  | .reqBlock hs => some (E.putCount hs.length ++ hs.flatMap E.hash.write)
  | .respBlock blks => do
    let bytes ← blks.mapM (Block.serialize E)
    return E.putCount blks.length ++ bytes.flatten

variable [DecidableEq Hash] [Inhabited Hash]

/-- Read a message of a class into a new object, with the storage of the replica. -/
def unserialize (E : Encodings Hash Sig) (st : EntityStorage Hash Sig) :
    MsgType → Reader UInt8 (Message Hash Sig × EntityStorage Hash Sig)
  | .propose => do
    let proposer ← E.u16.read
    let blk ← Block.unserialize E Block.fresh
    let view ← E.u32.read
    return (propose proposer (st.stored blk) view, st.addBlk blk)
  | .vote => do
    let v ← Vote.unserialize E
    return (vote v, st)
  | .ack => do
    let a ← Ack.unserialize E
    return (ack a, st)
  | .status => do
    let s ← Status.unserialize E
    return (status s, st)
  | .echo => do
    let e ← Echo.unserialize E
    return (echo e, st)
  | .share => do
    let s ← Share.unserialize E
    return (share s, st)
  | .beacon => do
    let b ← Beacon.unserialize E
    return (beacon b, st)
  | .pvssTranscript => do
    let p ← PVSSTranscript.unserialize E
    return (pvssTranscript p, st)
  | .qc => do
    let q ← QC.unserialize E
    return (qc q, st)
  | .finality => do
    let f ← Finality.unserialize E ⟨0, 0, 0, 0, default, default⟩
    return (finality f, st)
  | .reqBlock => do
    let n ← E.getCount
    let blkHashes ← readMany E.hash.read n
    return (reqBlock blkHashes, st)
  | .respBlock => do
    let n ← E.getCount
    let r ← st.readBlks E n
    return (respBlock r.1, r.2)

/-- A block that the program has, with lengths that fit. -/
def Sendable (E : Encodings Hash Sig) (blk : Block Hash Sig) : Prop :=
  blk.Obtained E ∧ blk.Sized ∧ blk.RefersToQc

/-- The messages of the program: their blocks and certificates come from the operations on them, the
lengths fit, and a field that is not written has its default. -/
def Valid (E : Encodings Hash Sig) : Message Hash Sig → Prop
  | .propose _ blk _ => Sendable E blk
  | .vote _ => True
  | .ack _ => True
  | .status s => s.qc.Obtained E fun _ => True
  | .echo e => e.merkleProof.length < 2 ^ 32 ∧ e.chunk.data.length < 2 ^ 32
  | .share s => s.bt.length < 2 ^ 32
  | .beacon b => b.bt.length < 2 ^ 32
  | .pvssTranscript p => p.pvssTranscript.length < 2 ^ 32
  | .qc q => q.qc.Obtained E fun _ => True
  | .finality f => f.decision ≠ 1 → f.blkHash = default
  | .reqBlock hs => hs.length < 2 ^ 32
  | .respBlock blks => blks.length < 2 ^ 32 ∧ ∀ blk ∈ blks, Sendable E blk

/-- What a replica with the storage `st` reads of the message, and its storage afterwards. -/
def received (E : Encodings Hash Sig) (st : EntityStorage Hash Sig) :
    Message Hash Sig → Message Hash Sig × EntityStorage Hash Sig
  | .propose proposer blk view =>
    (propose proposer (st.stored (blk.parsed E)) view, st.addBlk (blk.parsed E))
  | .status s => (status { s with qc := s.qc.trimmed }, st)
  | .qc q => (qc ⟨q.qc.trimmed⟩, st)
  | .respBlock blks => (respBlock (st.receive E blks).1, (st.receive E blks).2)
  | m => (m, st)

/-- A certificate of the message has no signature that is not written, and the storage keeps its
blocks. -/
def Kept (E : Encodings Hash Sig) (st : EntityStorage Hash Sig) : Message Hash Sig → Prop
  | .propose _ blk _ => st.Keeps E [blk]
  | .status s => s.qc.Tidy
  | .qc q => q.qc.Tidy
  | .respBlock blks => st.Keeps E blks
  | _ => True

theorem Sendable.reads {E : Encodings Hash Sig} (hE : E.RoundTrip) {blk : Block Hash Sig}
    (h : Sendable E blk) : ∃ bytes, blk.serialize E = some bytes ∧
      Reads (Block.unserialize E Block.fresh) bytes (blk.parsed E) :=
  h.1.complete.reads hE h.2.1 h.2.2

/-- A message of the program is written, and `received` is what is read. -/
theorem Valid.reads {E : Encodings Hash Sig} (hE : E.RoundTrip) (st : EntityStorage Hash Sig)
    {m : Message Hash Sig} (h : m.Valid E) : ∃ bytes, m.serialize E = some bytes ∧
      Reads (unserialize E st m.type) bytes (m.received E st) := by
  cases m with
  | propose proposer blk view =>
    obtain ⟨w, hw, hread⟩ := Sendable.reads hE h
    refine ⟨E.u16.write proposer ++ (w ++ E.u32.write view), ?_, ?_⟩
    · rw [serialize, hw]
      rfl
    · refine (hE.u16 proposer).bind ?_
      refine hread.bind ?_
      exact (hE.u32 view).map fun view =>
        (propose proposer (st.stored (blk.parsed E)) view, st.addBlk (blk.parsed E))
  | vote v => exact ⟨_, rfl, (Vote.reads hE v).map fun v => (vote v, st)⟩
  | ack a => exact ⟨_, rfl, (Vote.reads hE a).map fun a => (ack a, st)⟩
  | status s =>
    obtain ⟨w, hw, hread⟩ := Status.reads hE (QuorumCertSecp256k1.Obtained.complete h)
    exact ⟨w, hw, hread.map fun s => (status s, st)⟩
  | echo e => exact ⟨_, rfl, (Echo.reads hE h.1 h.2).map fun e => (echo e, st)⟩
  | share s => exact ⟨_, rfl, (Share.reads hE h).map fun s => (share s, st)⟩
  | beacon b => exact ⟨_, rfl, (Share.reads hE h).map fun b => (beacon b, st)⟩
  | pvssTranscript p =>
    exact ⟨_, rfl, (PVSSTranscript.reads hE h).map fun p => (pvssTranscript p, st)⟩
  | qc q =>
    obtain ⟨w, hw, hread⟩ := QC.reads hE (QuorumCertSecp256k1.Obtained.complete h)
    exact ⟨w, hw, hread.map fun q => (qc q, st)⟩
  | finality f =>
    have hread : Reads (Finality.unserialize E ⟨0, 0, 0, 0, default, default⟩) (f.serialize E) f :=
      Finality.reads hE h
    exact ⟨_, rfl, hread.map fun f => (finality f, st)⟩
  | reqBlock hs =>
    refine ⟨_, rfl, (hE.count h).bind ?_⟩
    exact (hE.hashes hs).map fun hs => (reqBlock hs, st)
  | respBlock blks =>
    obtain ⟨ws, hws, hreads⟩ := EntityStorage.reads_blks hE
      (fun blk hblk => ⟨(h.2 blk hblk).1.complete, (h.2 blk hblk).2⟩) st
    refine ⟨E.putCount blks.length ++ ws.flatten, ?_, ?_⟩
    · rw [serialize, hws]
      rfl
    · refine (hE.count h.1).bind ?_
      exact hreads.map fun r => (respBlock r.1, r.2)

/-- Exactly the messages that are kept are read as they were. -/
theorem Valid.received_eq_iff {E : Encodings Hash Sig} (hE : E.RoundTrip)
    (st : EntityStorage Hash Sig) {m : Message Hash Sig} (h : m.Valid E) :
    (m.received E st).1 = m ↔ m.Kept E st := by
  have hbytes : ∀ blk, Sendable E blk → blk.Obtained E ∧ ∃ bytes, blk.serialize E = some bytes := by
    intro blk hblk
    obtain ⟨bytes, hser, -⟩ := Sendable.reads hE hblk
    exact ⟨hblk.1, bytes, hser⟩
  cases m with
  | propose proposer blk view =>
    have hlist : (st.receive E [blk]).1 = [blk] ↔ st.Keeps E [blk] := by
      apply EntityStorage.receive_eq_iff
      intro b hb
      cases List.mem_singleton.mp hb
      exact hbytes blk h
    show propose proposer _ view = propose proposer blk view ↔ st.Keeps E [blk]
    rw [← hlist, propose.injEq]
    show _ ∧ st.stored (blk.parsed E) = blk ∧ _ ↔ [st.stored (blk.parsed E)] = [blk]
    simp
  | status s =>
    show status _ = status s ↔ s.qc.Tidy
    rw [← QuorumCertSecp256k1.trimmed_eq_iff, status.injEq, Status.mk.injEq]
    simp
  | qc q =>
    show qc _ = qc q ↔ q.qc.Tidy
    rw [← QuorumCertSecp256k1.trimmed_eq_iff, qc.injEq, QC.mk.injEq]
  | respBlock blks =>
    show respBlock _ = respBlock blks ↔ st.Keeps E blks
    rw [respBlock.injEq, EntityStorage.receive_eq_iff fun blk hblk => hbytes blk (h.2 blk hblk)]
  | vote | ack | echo | share | beacon | pvssTranscript | finality | reqBlock =>
    exact iff_of_true rfl trivial

/-- Every message of the program can be written. What is read of the bytes, whatever follows them,
is the message, and exactly the bytes are taken, if and only if the message is `Kept`. -/
theorem round_trip (E : Encodings Hash Sig) (hE : E.RoundTrip) (st : EntityStorage Hash Sig)
    (m : Message Hash Sig) (h : m.Valid E) : ∃ bytes, m.serialize E = some bytes ∧
      ((∃ st', Reads (unserialize E st m.type) bytes (m, st')) ↔ m.Kept E st) := by
  obtain ⟨bytes, hbytes, hreads⟩ := h.reads hE st
  refine ⟨bytes, hbytes, ?_⟩
  rw [← h.received_eq_iff hE st]
  constructor
  · rintro ⟨st', hm⟩
    exact congrArg Prod.fst (hreads.unique hm)
  · intro heq
    refine ⟨(m.received E st).2, ?_⟩
    have hpair : (m, (m.received E st).2) = m.received E st := Prod.ext heq.symm rfl
    rw [hpair]
    exact hreads

/-- A certificate of three replicas with the signatures of two. -/
def firstCert : Option (QuorumCertSecp256k1 (Fin (256 ^ 32)) (Fin (256 ^ 64))) := do
  let qc ← (QuorumCertSecp256k1.new 3 (wordOf 32 7) 1).addPart 2
    ⟨wordOf 32 7, 1, wordOf 64 22⟩
  qc.addPart 0 ⟨wordOf 32 7, 1, wordOf 64 20⟩

/-- A block with this certificate. -/
def firstBlock : Option (Block (Fin (256 ^ 32)) (Fin (256 ^ 64))) := do
  let qc ← firstCert
  Block.new byteEncodings [wordOf 32 7] [wordOf 32 5, wordOf 32 6] (some qc) (wordOf 32 7)
    [1, 2, 3]

theorem round_trip_first : ∃ blk bytes st', firstBlock = some blk ∧
    (respBlock [blk]).serialize byteEncodings = some bytes ∧
      Reads (unserialize byteEncodings ⟨fun _ => none, nofun⟩ .respBlock) bytes
        (respBlock [blk], st') := by
  have hsome : firstBlock.isSome = true := by decide +kernel
  obtain ⟨blk, hblk⟩ := Option.isSome_iff_exists.mp hsome
  have hparts := hblk
  unfold firstBlock firstCert at hparts
  obtain ⟨qc, hqc, hnew⟩ := Option.bind_eq_some_iff.mp hparts
  obtain ⟨qc', hfirst, hsecond⟩ := Option.bind_eq_some_iff.mp hqc
  have hobtained : ∀ into, qc.Obtained byteEncodings into :=
    fun into => ((QuorumCertSecp256k1.Obtained.new 3 (wordOf 32 7) 1).addPart hfirst).addPart hsecond
  obtain ⟨hash, hhash, rfl⟩ := Option.map_eq_some_iff.mp hnew
  have hsendable : Sendable byteEncodings
      (Block.mk [wordOf 32 7] [wordOf 32 5, wordOf 32 6] (some qc) (wordOf 32 7) [1, 2, 3] hash) :=
    ⟨Block.Obtained.new (fun q hq => Option.some.inj hq ▸ hobtained _) hnew,
      ⟨by simp, by simp, by simp⟩, nofun⟩
  have hvalid : (respBlock [Block.mk [wordOf 32 7] [wordOf 32 5, wordOf 32 6] (some qc) (wordOf 32 7)
      [1, 2, 3] hash]).Valid byteEncodings :=
    ⟨show 1 < 2 ^ 32 by decide, fun b hb => List.mem_singleton.mp hb ▸ hsendable⟩
  obtain ⟨bytes, hbytes, hiff⟩ := round_trip byteEncodings byteEncodings_roundTrip
    ⟨fun _ => none, nofun⟩ _ hvalid
  obtain ⟨st', hreads⟩ := hiff.mpr
    { hashed := fun b hb _ => List.mem_singleton.mp hb ▸ Block.getHash_of_rehash hnew
      stored := fun b hb => Or.inr ⟨rfl, List.mem_singleton.mp hb ▸ fun q hq =>
        Option.some.inj hq ▸ (hobtained _).tidy⟩
      inj := fun b hb b' hb' _ => (List.mem_singleton.mp hb).trans (List.mem_singleton.mp hb').symm }
  exact ⟨_, bytes, st', hblk, hbytes, hreads⟩

/-- The genesis block after `on_init` is read with another hash. -/
theorem genesis_reparsed : ∃ b0 bytes,
    Block.genesis byteEncodings = some b0 ∧
    (respBlock [b0.onInit 3 0]).Valid byteEncodings ∧
    (respBlock [b0.onInit 3 0]).serialize byteEncodings = some bytes ∧
    ∀ st', ¬ Reads (unserialize byteEncodings ⟨fun _ => none, nofun⟩ .respBlock) bytes
      (respBlock [b0.onInit 3 0], st') := by
  obtain ⟨b0, hb0, hhash⟩ : ∃ b0, Block.genesis byteEncodings = some b0 ∧
      (b0.onInit 3 0).getHash byteEncodings ≠ some b0.hash :=
    ⟨_, Block.genesis_eq byteEncodings, by decide +kernel⟩
  have hsendable : Sendable byteEncodings (b0.onInit 3 0) := by
    refine ⟨.onInit 3 0 hb0, ?_, nofun⟩
    cases (Block.genesis_eq byteEncodings).symm.trans hb0
    exact ⟨by decide, by decide, by decide⟩
  have hvalid : (respBlock [b0.onInit 3 0]).Valid byteEncodings :=
    ⟨show 1 < 2 ^ 32 by decide, fun b hb => List.mem_singleton.mp hb ▸ hsendable⟩
  obtain ⟨bytes, hbytes, hreads⟩ := hvalid.reads byteEncodings_roundTrip
    ⟨fun _ => none, nofun⟩
  refine ⟨b0, bytes, hb0, hvalid, hbytes, ?_⟩
  intro st' hread
  have hkeeps := (hvalid.received_eq_iff byteEncodings_roundTrip _).mp
    (congrArg Prod.fst (hreads.unique hread))
  have hinit : (b0.onInit 3 0).Initialised byteEncodings := ⟨b0, 3, 0, hb0, rfl⟩
  exact hhash (hkeeps.hashed _ List.mem_cons_self hinit)

end Message

end OptRand.Wire
