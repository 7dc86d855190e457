import OptRand.Wire.Crypto

/-!
# Blocks and chunks on the wire (`entity.cpp`, `erasure.cpp`)

A block is read together with its hash: `Block::unserialize` hashes what it has read. What arrives
is filed in the storage, and the block that is filed under the hash already is used in its place
(`EntityStorage.stored`).

`receive` says what comes out of a list of blocks that was written. It is the same list exactly when
every block has the hash of its own text and the storage, with what the list adds to it, has no
other block under these hashes (`receive_eq_iff`). The one block of the program without the hash of
its text is the genesis block, once `on_init` has given it a certificate.
-/

namespace OptRand.Wire

open Lib

variable {Hash Sig : Type}

/-- `s << htole((uint32_t)bt.size()) << bt`. -/
def Encodings.putBytes (E : Encodings Hash Sig) (bt : List UInt8) : List UInt8 :=
  E.putCount bt.length ++ bt

/-- The count and the bytes, taken with `get_data_inplace`. -/
def Encodings.getBytes (E : Encodings Hash Sig) : Reader UInt8 (List UInt8) := do
  let n ← E.getCount
  takeTokens n

/-- The count and the bytes; `get_data_inplace` is not called for none. -/
def Encodings.getBytesOrClear (E : Encodings Hash Sig) : Reader UInt8 (List UInt8) := do
  let n ← E.getCount
  if n = 0 then return [] else takeTokens n

namespace Encodings.RoundTrip

variable {E : Encodings Hash Sig}

theorem bytes (hE : E.RoundTrip) {bt : List UInt8} (hbt : bt.length < 2 ^ 32) :
    Reads E.getBytes (E.putBytes bt) bt :=
  (hE.count hbt).bind (reads_takeTokens bt)

theorem bytesOrClear (hE : E.RoundTrip) {bt : List UInt8} (hbt : bt.length < 2 ^ 32) :
    Reads E.getBytesOrClear (E.putBytes bt) bt := by
  refine (hE.count hbt).bind ?_
  split
  · rename_i hnil
    rw [List.length_eq_zero_iff.mp hnil]
    exact Reads.pure []
  · exact reads_takeTokens bt

/-- A counted list of hashes. -/
theorem hashes (hE : E.RoundTrip) (hs : List Hash) :
    Reads (readMany E.hash.read hs.length) (hs.flatMap E.hash.write) hs :=
  reads_readMany fun h _ => hE.hash h

end Encodings.RoundTrip

/-! ## Chunks -/

/-- `Chunk`. -/
structure Chunk where
  size : UInt32
  data : List UInt8

namespace Chunk

def serialize (E : Encodings Hash Sig) (chunk : Chunk) : List UInt8 :=
  E.u32.write (E.htole chunk.size) ++ E.putBytes chunk.data

def unserialize (E : Encodings Hash Sig) : Reader UInt8 Chunk := do
  let n ← E.u32.read
  let data ← E.getBytesOrClear
  return ⟨E.letoh n, data⟩

theorem reads {E : Encodings Hash Sig} (hE : E.RoundTrip) {chunk : Chunk}
    (h : chunk.data.length < 2 ^ 32) : Reads (unserialize E) (chunk.serialize E) chunk := by
  refine (hE.u32 (E.htole chunk.size)).bind ?_
  have hdata := (hE.bytesOrClear h).map fun data => Chunk.mk (E.letoh (E.htole chunk.size)) data
  rwa [hE.letoh_htole] at hdata ⊢

end Chunk

/-! ## Blocks -/

/-- `Block`: the fields that are written, and the hash. -/
@[ext]
structure Block (Hash Sig : Type) where
  parentHashes : List Hash
  cmds : List Hash
  qc : Option (QuorumCertSecp256k1 Hash Sig)
  qcRefHash : Hash
  extra : List UInt8
  hash : Hash

namespace Block

/-- The certificate and the hash of its block, with the flag in front. -/
def putProof (E : Encodings Hash Sig) (blk : Block Hash Sig) : Option (List UInt8) :=
  match blk.qc with
  | some qc => do
    let bytes ← qc.serialize E
    return E.u8.write 1 ++ (bytes ++ E.hash.write blk.qcRefHash)
  | none => some (E.u8.write 0)

def serialize (E : Encodings Hash Sig) (blk : Block Hash Sig) : Option (List UInt8) := do
  let proof ← blk.putProof E
  return E.putCount blk.parentHashes.length ++ (blk.parentHashes.flatMap E.hash.write ++
    (E.putCount blk.cmds.length ++ (blk.cmds.flatMap E.hash.write ++
      (proof ++ E.putBytes blk.extra))))

/-- `salticidae::get_hash(*this)`. -/
def getHash (E : Encodings Hash Sig) (blk : Block Hash Sig) : Option Hash :=
  (blk.serialize E).map E.getHash

/-- `hash = get_hash(*this)`. -/
def rehash (E : Encodings Hash Sig) (blk : Block Hash Sig) : Option (Block Hash Sig) :=
  (blk.getHash E).map fun hash => { blk with hash := hash }

/-- The lengths fit their counts. -/
structure Sized (blk : Block Hash Sig) : Prop where
  parentHashes : blk.parentHashes.length < 2 ^ 32
  cmds : blk.cmds.length < 2 ^ 32
  extra : blk.extra.length < 2 ^ 32

def Complete (blk : Block Hash Sig) : Prop := ∀ qc, blk.qc = some qc → qc.Complete

def Tidy (blk : Block Hash Sig) : Prop := ∀ qc, blk.qc = some qc → qc.Tidy

/-- What is read of the block: signatures that are not written are gone, and the hash is that of the
text. -/
def parsed (E : Encodings Hash Sig) (blk : Block Hash Sig) : Block Hash Sig :=
  { blk with
    qc := blk.qc.map QuorumCertSecp256k1.trimmed
    hash := (blk.getHash E).getD blk.hash }

variable {E : Encodings Hash Sig}

theorem serialize_parsed (blk : Block Hash Sig) :
    (blk.parsed E).serialize E = blk.serialize E := by
  have hproof : (blk.parsed E).putProof E = blk.putProof E := by
    unfold putProof parsed
    cases blk.qc with
    | none => rfl
    | some qc =>
      simp only [Option.map_some, qc.serialize_trimmed]
  unfold serialize
  rw [hproof]
  rfl

theorem getHash_eq {blk : Block Hash Sig} {bytes : List UInt8} (h : blk.serialize E = some bytes) :
    blk.getHash E = some (E.getHash bytes) := by
  rw [getHash, h, Option.map_some]

theorem hash_parsed {blk : Block Hash Sig} {bytes : List UInt8} (h : blk.serialize E = some bytes) :
    (blk.parsed E).hash = E.getHash bytes := by
  show (blk.getHash E).getD blk.hash = _
  rw [getHash_eq h, Option.getD_some]

theorem rehash_parsed {blk : Block Hash Sig} {bytes : List UInt8}
    (h : blk.serialize E = some bytes) (hash : Hash) :
    rehash E { blk.parsed E with hash := hash } = some (blk.parsed E) := by
  have hread : getHash E { blk.parsed E with hash := hash } = some (E.getHash bytes) := by
    show ((blk.parsed E).serialize E).map E.getHash = _
    rw [serialize_parsed, ← getHash_eq h, getHash]
  rw [rehash, hread, Option.map_some, ← hash_parsed h]

/-- The hash of a block that has been given the hash of its text. -/
theorem getHash_of_rehash {blk blk' : Block Hash Sig} (h : blk.rehash E = some blk') :
    blk'.getHash E = some blk'.hash := by
  obtain ⟨hash, hhash, rfl⟩ := Option.map_eq_some_iff.mp h
  exact hhash

theorem parsed_eq_iff {blk : Block Hash Sig} {bytes : List UInt8}
    (h : blk.serialize E = some bytes) :
    blk.parsed E = blk ↔ blk.Tidy ∧ blk.getHash E = some blk.hash := by
  have hqc : blk.qc.map QuorumCertSecp256k1.trimmed = blk.qc ↔ blk.Tidy := by
    unfold Tidy
    cases blk.qc with
    | none => simp
    | some qc => simp [QuorumCertSecp256k1.trimmed_eq_iff]
  rw [getHash_eq h, Option.some_inj, ← hash_parsed h]
  constructor
  · intro heq
    exact ⟨hqc.mp (congrArg Block.qc heq), congrArg Block.hash heq⟩
  · rintro ⟨htidy, heq⟩
    exact Block.ext rfl rfl (hqc.mpr htidy) rfl rfl heq

variable [Inhabited Hash]

/-- `Block()`. -/
def fresh : Block Hash Sig := ⟨[], [], none, default, [], default⟩

/-- The constructor of a block from its parts. -/
def new (E : Encodings Hash Sig) (parentHashes cmds : List Hash)
    (qc : Option (QuorumCertSecp256k1 Hash Sig)) (qcRefHash : Hash) (extra : List UInt8) :
    Option (Block Hash Sig) :=
  rehash E ⟨parentHashes, cmds, qc, qcRefHash, extra, default⟩

/-- `Block(bool delivered, int8_t decision)`, the genesis block. -/
def genesis (E : Encodings Hash Sig) : Option (Block Hash Sig) := rehash E fresh

theorem genesis_eq (E : Encodings Hash Sig) : genesis E = some { fresh with
    hash := E.getHash (E.putCount 0 ++ (E.putCount 0 ++ (E.u8.write 0 ++ E.putBytes []))) } := rfl

/-- `b0->qc = create_quorum_cert(b0->get_hash(), view)`, in `on_init`. -/
def onInit (b0 : Block Hash Sig) (nreplicas : ℕ) (view : UInt32) : Block Hash Sig :=
  { b0 with qc := some (QuorumCertSecp256k1.new nreplicas b0.hash view) }

/-- The certificate of the block, if the flag says that there is one. -/
def getProof (E : Encodings Hash Sig) (self : Block Hash Sig) :
    Reader UInt8 (Option (QuorumCertSecp256k1 Hash Sig) × Hash) := do
  let flag ← E.u8.read
  if flag ≠ 0 then
    let qc ← QuorumCertSecp256k1.parse E
    let qcRefHash ← E.hash.read
    return (some qc, qcRefHash)
  else
    return (none, self.qcRefHash)

def unserialize (E : Encodings Hash Sig) (self : Block Hash Sig) :
    Reader UInt8 (Block Hash Sig) := do
  let n ← E.getCount
  let parentHashes ← readMany E.hash.read n
  let n ← E.getCount
  let cmds ← readMany E.hash.read n
  let proof ← self.getProof E
  let extra ← E.getBytesOrClear
  StateT.lift (rehash E ⟨parentHashes, cmds, proof.1, proof.2, extra, self.hash⟩)

/-- A block without a certificate refers to none. -/
def RefersToQc (blk : Block Hash Sig) : Prop := blk.qc = none → blk.qcRefHash = default

/-- The certificate that was written is read, without the signatures that were not. -/
theorem Complete.reads_proof (hE : E.RoundTrip) {blk : Block Hash Sig} (hqc : blk.Complete)
    (href : blk.RefersToQc) : ∃ bytes, blk.putProof E = some bytes ∧
      Reads (getProof E fresh) bytes (blk.qc.map QuorumCertSecp256k1.trimmed, blk.qcRefHash) := by
  unfold putProof getProof
  cases hblk : blk.qc with
  | none =>
    refine ⟨E.u8.write 0, rfl, ?_⟩
    rw [href hblk, ← List.append_nil (E.u8.write 0)]
    refine (hE.u8 0).bind ?_
    rw [if_neg (not_not.mpr rfl)]
    exact Reads.pure _
  | some qc =>
    obtain ⟨bytes, hbytes, hreads⟩ := (hqc qc hblk).reads hE
    refine ⟨E.u8.write 1 ++ (bytes ++ E.hash.write blk.qcRefHash), ?_, ?_⟩
    · simp [hbytes]
    · refine (hE.u8 1).bind ?_
      rw [if_pos (by decide)]
      refine (hreads _ fun _ => rfl).bind ?_
      exact (hE.hash blk.qcRefHash).map _

/-- A block without missing signatures is written, and `Block.parsed` says what is read. -/
theorem Complete.reads (hE : E.RoundTrip) {blk : Block Hash Sig} (hqc : blk.Complete)
    (hsized : blk.Sized) (href : blk.RefersToQc) : ∃ bytes, blk.serialize E = some bytes ∧
      Reads (unserialize E fresh) bytes (blk.parsed E) := by
  obtain ⟨proof, hproof, hreads⟩ := hqc.reads_proof hE href
  have hser : blk.serialize E = some (E.putCount blk.parentHashes.length ++
      (blk.parentHashes.flatMap E.hash.write ++ (E.putCount blk.cmds.length ++
        (blk.cmds.flatMap E.hash.write ++ (proof ++ E.putBytes blk.extra))))) := by
    unfold serialize
    rw [hproof]
    rfl
  refine ⟨_, hser, ?_⟩
  refine (hE.count hsized.parentHashes).bind ?_
  refine (hE.hashes blk.parentHashes).bind ?_
  refine (hE.count hsized.cmds).bind ?_
  refine (hE.hashes blk.cmds).bind ?_
  refine hreads.bind ?_
  rw [← List.append_nil (E.putBytes blk.extra)]
  refine (hE.bytesOrClear hsized.extra).bind ?_
  exact Reads.lift (rehash_parsed hser fresh.hash)

variable [DecidableEq Hash]

/-- The blocks of the program: from the constructors, from `unserialize`, and the genesis block as
`on_init` leaves it. -/
inductive Obtained (E : Encodings Hash Sig) : Block Hash Sig → Prop
  | new {parentHashes cmds : List Hash} {qc : Option (QuorumCertSecp256k1 Hash Sig)}
      {qcRefHash : Hash} {extra : List UInt8} {blk : Block Hash Sig} :
      (∀ q, qc = some q → q.Obtained E fun _ => True) →
        new E parentHashes cmds qc qcRefHash extra = some blk → Obtained E blk
  | genesis {b0 : Block Hash Sig} : genesis E = some b0 → Obtained E b0
  | onInit {b0 : Block Hash Sig} (nreplicas : ℕ) (view : UInt32) :
      Block.genesis E = some b0 → Obtained E (b0.onInit nreplicas view)
  | unserialize {self blk : Block Hash Sig} {bytes rest : List UInt8} :
      (unserialize E self).run bytes = some (blk, rest) → Obtained E blk

/-- The genesis block after `on_init`. -/
def Initialised (E : Encodings Hash Sig) (blk : Block Hash Sig) : Prop :=
  ∃ b0 nreplicas view, genesis E = some b0 ∧ blk = b0.onInit nreplicas view

theorem complete_of_getProof {self : Block Hash Sig} {bytes rest : List UInt8}
    {proof : Option (QuorumCertSecp256k1 Hash Sig) × Hash}
    (h : (getProof E self).run bytes = some (proof, rest)) :
    ∀ qc, proof.1 = some qc → qc.Complete := by
  obtain ⟨flag, _, -, h⟩ := run_bind_eq_some.mp h
  split at h
  · obtain ⟨qc, _, hparse, h⟩ := run_bind_eq_some.mp h
    obtain ⟨ref, _, -, h⟩ := run_bind_eq_some.mp h
    cases Option.some.inj h
    rintro _ ⟨⟩
    have hempty : (QuorumCertSecp256k1.empty 0).Obtained E fun _ => True := .empty 0
    exact (hempty.unserialize trivial hparse).complete
  · cases Option.some.inj h
    rintro _ ⟨⟩

/-- A block that has been read misses no signature and has the hash of its text. -/
theorem unserialize_eq_some {self blk : Block Hash Sig} {bytes rest : List UInt8}
    (h : (unserialize E self).run bytes = some (blk, rest)) :
    blk.Complete ∧ blk.getHash E = some blk.hash := by
  obtain ⟨n, _, -, h⟩ := run_bind_eq_some.mp h
  obtain ⟨parentHashes, _, -, h⟩ := run_bind_eq_some.mp h
  obtain ⟨n, _, -, h⟩ := run_bind_eq_some.mp h
  obtain ⟨cmds, _, -, h⟩ := run_bind_eq_some.mp h
  obtain ⟨proof, _, hproof, h⟩ := run_bind_eq_some.mp h
  obtain ⟨extra, _, -, h⟩ := run_bind_eq_some.mp h
  have hrehash := run_lift_eq_some h
  refine ⟨?_, getHash_of_rehash hrehash⟩
  obtain ⟨hash, -, rfl⟩ := Option.map_eq_some_iff.mp hrehash
  exact complete_of_getProof hproof

/-- No signature is missing. -/
theorem Obtained.complete {blk : Block Hash Sig} (h : Obtained E blk) : blk.Complete := by
  cases h with
  | new hqc hnew =>
    obtain ⟨hash, -, rfl⟩ := Option.map_eq_some_iff.mp hnew
    exact fun q hq => (hqc q hq).complete
  | genesis hgenesis =>
    unfold Block.genesis at hgenesis
    obtain ⟨hash, -, rfl⟩ := Option.map_eq_some_iff.mp hgenesis
    rintro _ ⟨⟩
  | @onInit b0 nreplicas view _ =>
    rintro _ ⟨⟩
    have hnew : (QuorumCertSecp256k1.new nreplicas b0.hash view).Obtained E fun _ => True :=
      .new nreplicas b0.hash view
    exact hnew.complete
  | unserialize hread => exact (unserialize_eq_some hread).1

/-- Every block has the hash of its text, but for the genesis block after `on_init`. -/
theorem Obtained.getHash_eq {blk : Block Hash Sig} (h : Obtained E blk)
    (hne : ¬ blk.Initialised E) : blk.getHash E = some blk.hash := by
  cases h with
  | new _ hnew => exact getHash_of_rehash hnew
  | genesis hgenesis => exact getHash_of_rehash hgenesis
  | onInit nreplicas view hgenesis => exact absurd ⟨_, nreplicas, view, hgenesis, rfl⟩ hne
  | unserialize hread => exact (unserialize_eq_some hread).2

end Block

/-! ## Storage -/

/-- `EntityStorage`: every block is filed under its hash. -/
structure EntityStorage (Hash Sig : Type) where
  blkCache : Hash → Option (Block Hash Sig)
  hash_eq : ∀ h blk, blkCache h = some blk → blk.hash = h

namespace EntityStorage

/-- The block that `add_blk` returns: `insert` keeps a block that is there. -/
def stored (st : EntityStorage Hash Sig) (blk : Block Hash Sig) : Block Hash Sig :=
  (st.blkCache blk.hash).getD blk

theorem hash_stored (st : EntityStorage Hash Sig) (blk : Block Hash Sig) :
    (st.stored blk).hash = blk.hash := by
  unfold stored
  cases hblk : st.blkCache blk.hash with
  | none => rfl
  | some b => exact st.hash_eq blk.hash b hblk

theorem stored_eq_iff {E : Encodings Hash Sig} {st : EntityStorage Hash Sig}
    {blk : Block Hash Sig} {bytes : List UInt8} (h : blk.serialize E = some bytes) :
    st.stored (blk.parsed E) = blk ↔ blk.getHash E = some blk.hash ∧
      (st.blkCache blk.hash = some blk ∨ st.blkCache blk.hash = none ∧ blk.Tidy) := by
  have hhash := Block.hash_parsed h
  have hsame : st.stored (blk.parsed E) = blk → E.getHash bytes = blk.hash := by
    intro heq
    rw [← hhash, ← st.hash_stored, heq]
  rw [Block.getHash_eq h, Option.some_inj]
  constructor
  · intro heq
    have hblk := hsame heq
    refine ⟨hblk, ?_⟩
    unfold stored at heq
    rw [hhash, hblk] at heq
    cases hcache : st.blkCache blk.hash with
    | some b =>
      rw [hcache, Option.getD_some] at heq
      exact Or.inl (congrArg some heq)
    | none =>
      rw [hcache, Option.getD_none, Block.parsed_eq_iff h] at heq
      exact Or.inr ⟨rfl, heq.1⟩
  · rintro ⟨hblk, hcache⟩
    unfold stored
    rw [hhash, hblk]
    rcases hcache with hcache | ⟨hcache, htidy⟩
    · rw [hcache, Option.getD_some]
    · rw [hcache, Option.getD_none, Block.parsed_eq_iff h, Block.getHash_eq h, hblk]
      exact ⟨htidy, rfl⟩

variable [DecidableEq Hash]

/-- `add_blk`. -/
def addBlk (st : EntityStorage Hash Sig) (blk : Block Hash Sig) : EntityStorage Hash Sig where
  blkCache := Function.update st.blkCache blk.hash (some (st.stored blk))
  hash_eq := by
    intro h b hb
    by_cases hh : h = blk.hash
    · subst hh
      rw [Function.update_self] at hb
      cases Option.some.inj hb
      exact st.hash_stored blk
    · rw [Function.update_of_ne hh] at hb
      exact st.hash_eq h b hb

/-- What comes out of a list of blocks that was written, and the storage afterwards. -/
def receive (E : Encodings Hash Sig) (st : EntityStorage Hash Sig) :
    List (Block Hash Sig) → List (Block Hash Sig) × EntityStorage Hash Sig
  | [] => ([], st)
  | blk :: blks =>
    let rest := receive E (st.addBlk (blk.parsed E)) blks
    (st.stored (blk.parsed E) :: rest.1, rest.2)

/-- The loop of `MsgRespBlock::postponed_parse`. -/
def readBlks [Inhabited Hash] (E : Encodings Hash Sig) : ℕ → EntityStorage Hash Sig →
    Reader UInt8 (List (Block Hash Sig) × EntityStorage Hash Sig)
  | 0, st => return ([], st)
  | n + 1, st => do
    let blk ← Block.unserialize E Block.fresh
    let rest ← readBlks E n (st.addBlk blk)
    return (st.stored blk :: rest.1, rest.2)

/-- The blocks have the hashes of their texts, and neither the storage nor the list has another
block under one of these hashes; a block that is new to the storage has no signature that is not
written. -/
structure Keeps [Inhabited Hash] (E : Encodings Hash Sig) (st : EntityStorage Hash Sig)
    (blks : List (Block Hash Sig)) : Prop where
  hashed : ∀ blk ∈ blks, blk.Initialised E → blk.getHash E = some blk.hash
  stored : ∀ blk ∈ blks,
    st.blkCache blk.hash = some blk ∨ st.blkCache blk.hash = none ∧ blk.Tidy
  inj : ∀ blk ∈ blks, ∀ blk' ∈ blks, blk.hash = blk'.hash → blk = blk'

/-- A list is kept if its first block comes out unchanged and the rest is kept after it. -/
theorem keeps_cons_iff [Inhabited Hash] {E : Encodings Hash Sig} {st : EntityStorage Hash Sig}
    {blk : Block Hash Sig} {blks : List (Block Hash Sig)}
    (heq : st.stored (blk.parsed E) = blk) (hhash : blk.getHash E = some blk.hash)
    (hcache : st.blkCache blk.hash = some blk ∨ st.blkCache blk.hash = none ∧ blk.Tidy) :
    Keeps E st (blk :: blks) ↔ Keeps E (st.addBlk (blk.parsed E)) blks := by
  have hkey : (blk.parsed E).hash = blk.hash := by rw [← st.hash_stored, heq]
  have hnew : (st.addBlk (blk.parsed E)).blkCache blk.hash = some blk := by
    show Function.update st.blkCache _ _ _ = _
    rw [hkey, Function.update_self, heq]
  have hold : ∀ k, k ≠ blk.hash → (st.addBlk (blk.parsed E)).blkCache k = st.blkCache k := by
    intro k hk
    show Function.update st.blkCache _ _ _ = _
    rw [hkey, Function.update_of_ne hk]
  constructor
  · intro hkeeps
    refine ⟨fun b hb => hkeeps.hashed b (List.mem_cons_of_mem _ hb), ?_, fun b hb b' hb' =>
      hkeeps.inj b (List.mem_cons_of_mem _ hb) b' (List.mem_cons_of_mem _ hb')⟩
    intro b hb
    by_cases hk : b.hash = blk.hash
    · cases hkeeps.inj b (List.mem_cons_of_mem _ hb) blk List.mem_cons_self hk
      exact Or.inl hnew
    · rw [hold _ hk]
      exact hkeeps.stored b (List.mem_cons_of_mem _ hb)
  · intro hkeeps
    have hsame : ∀ b ∈ blks, b.hash = blk.hash → b = blk := by
      intro b hb hk
      have hb := hkeeps.stored b hb
      rw [hk, hnew] at hb
      rcases hb with hb | ⟨hb, -⟩
      · exact (Option.some.inj hb).symm
      · cases hb
    refine ⟨?_, ?_, ?_⟩
    · intro b hb
      rcases List.mem_cons.mp hb with rfl | hb
      · exact fun _ => hhash
      · exact hkeeps.hashed b hb
    · intro b hb
      rcases List.mem_cons.mp hb with rfl | hb
      · exact hcache
      · by_cases hk : b.hash = blk.hash
        · rw [hsame b hb hk]
          exact hcache
        · rw [← hold _ hk]
          exact hkeeps.stored b hb
    · intro b hb b' hb' hk
      rcases List.mem_cons.mp hb with rfl | hbs
      · rcases List.mem_cons.mp hb' with rfl | hbs'
        · rfl
        · exact (hsame b' hbs' hk.symm).symm
      · rcases List.mem_cons.mp hb' with rfl | hbs'
        · exact hsame b hbs hk
        · exact hkeeps.inj b hbs b' hbs' hk

/-- Exactly the lists that are kept come out as they were. -/
theorem receive_eq_iff [Inhabited Hash] {E : Encodings Hash Sig} {blks : List (Block Hash Sig)}
    (hblks : ∀ blk ∈ blks, blk.Obtained E ∧ ∃ bytes, blk.serialize E = some bytes)
    (st : EntityStorage Hash Sig) : (receive E st blks).1 = blks ↔ Keeps E st blks := by
  induction blks generalizing st with
  | nil => exact iff_of_true rfl ⟨nofun, nofun, nofun⟩
  | cons blk blks ih =>
    obtain ⟨hblk, bytes, hbytes⟩ := hblks blk List.mem_cons_self
    have htail := ih (fun b hb => hblks b (List.mem_cons_of_mem blk hb))
      (st.addBlk (blk.parsed E))
    show st.stored (blk.parsed E) :: (receive E (st.addBlk (blk.parsed E)) blks).1 = _ ↔ _
    rw [List.cons.injEq, htail]
    constructor
    · rintro ⟨heq, hkeeps⟩
      obtain ⟨hhash, hcache⟩ := (stored_eq_iff hbytes).mp heq
      exact (keeps_cons_iff heq hhash hcache).mpr hkeeps
    · intro hkeeps
      have hhash : blk.getHash E = some blk.hash := by
        by_cases hinit : blk.Initialised E
        · exact hkeeps.hashed blk List.mem_cons_self hinit
        · exact hblk.getHash_eq hinit
      have hcache := hkeeps.stored blk List.mem_cons_self
      have heq := (stored_eq_iff hbytes).mpr ⟨hhash, hcache⟩
      exact ⟨heq, (keeps_cons_iff heq hhash hcache).mp hkeeps⟩

/-- A list of blocks that was written is received. -/
theorem reads_blks [Inhabited Hash] {E : Encodings Hash Sig} (hE : E.RoundTrip)
    {blks : List (Block Hash Sig)}
    (hblks : ∀ blk ∈ blks, blk.Complete ∧ blk.Sized ∧ blk.RefersToQc)
    (st : EntityStorage Hash Sig) : ∃ bytes, blks.mapM (Block.serialize E) = some bytes ∧
      Reads (readBlks E blks.length st) bytes.flatten (receive E st blks) := by
  induction blks generalizing st with
  | nil => exact ⟨[], rfl, Reads.pure _⟩
  | cons blk blks ih =>
    obtain ⟨hqc, hsized, href⟩ := hblks blk List.mem_cons_self
    obtain ⟨w, hw, hread⟩ := hqc.reads hE hsized href
    obtain ⟨ws, hws, hreads⟩ := ih (fun b hb => hblks b (List.mem_cons_of_mem blk hb))
      (st.addBlk (blk.parsed E))
    refine ⟨w :: ws, ?_, ?_⟩
    · rw [List.mapM_cons, hw, hws]
      rfl
    · exact hread.bind (hreads.map fun rest => (st.stored (blk.parsed E) :: rest.1, rest.2))

end EntityStorage

end OptRand.Wire
