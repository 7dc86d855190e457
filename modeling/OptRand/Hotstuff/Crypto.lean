import OptRand.Lib.Quorum
import OptRand.Lib.Checked
import OptRand.Pvss.PolyOps

/-!
# Certificates and thresholds (`crypto.h`, `crypto.cpp`, `entity.h`, `on_init`)

`PartCertSecp256k1` and `QuorumCertSecp256k1` over an arbitrary signature scheme, and the
thresholds of a `ReplicaConfig`. A `QuorumCertSecp256k1` holds a bit vector of signers and a
map from signers to signatures; that the two agree is a field of the structure, kept by
`add_part` and by parsing.

Certificates are formed at `nresponsive` votes and accepted at `nmajority` signatures. The
second threshold makes two certificates meet in `nfaulty + 1` signers for the system sizes
`1`, `2` and `4` only (`ReplicaConfig.common_signers_iff`).
-/

namespace OptRand.Hotstuff

open Lib

/-- An exception, a failed assertion or a step whose effect C++ does not define. -/
inductive Error
  | runtimeError (what : String)
  | hotStuffError (what : String)
  | invalidArgument (what : String)
  | assertion
  | undefined
  | pvss (e : Pvss.Error)
  deriving DecidableEq, Repr

/-- `ReplicaID` is `uint16_t`: the conversion from a wider integer. -/
def toReplicaID (i : ℕ) : ℕ := i % 2 ^ 16

theorem toReplicaID_of_lt {i : ℕ} (h : i < 2 ^ 16) : toReplicaID i = i := Nat.mod_eq_of_lt h

theorem toReplicaID_toReplicaID (i : ℕ) : toReplicaID (toReplicaID i) = toReplicaID i :=
  Nat.mod_mod _ _

/-- A signature scheme: when a signature of a digest verifies under a public key. -/
structure SigScheme where
  PubKey : Type
  Sig : Type
  verify : Sig → ℕ → PubKey → Bool

/-- An ideal signature: who made it and of which digest. -/
structure Signature where
  signer : ℕ
  digest : ℕ
  deriving DecidableEq, Repr

/-- Ideal signatures, replica `i` having the public key `i`. -/
abbrev SigScheme.ideal : SigScheme :=
  ⟨ℕ, Signature, fun sig digest pubkey => decide (sig.signer = pubkey ∧ sig.digest = digest)⟩

/-! ## The configuration -/

/-- `ReplicaConfig`. -/
structure ReplicaConfig (PubKey : Type) where
  replicaMap : ℕ → Option PubKey
  nreplicas : ℕ
  nmajority : ℕ
  nresponsive : ℕ
  nreconthres : ℕ

namespace ReplicaConfig

variable {PubKey : Type}

/-- `ReplicaConfig::get_pubkey`. -/
def getPubkey (config : ReplicaConfig PubKey) (rid : ℕ) : Except Error PubKey :=
  match config.replicaMap rid with
  | some pubkey => .ok pubkey
  | none => .error (.hotStuffError "rid not found")

/-- The thresholds that `HotStuffCore::on_init` sets. -/
def onInit (config : ReplicaConfig PubKey) (nfaulty : ℕ) : ReplicaConfig PubKey :=
  { config with
    nmajority := config.nreplicas - nfaulty
    nresponsive := 3 * config.nreplicas / 4 + 1
    nreconthres := config.nreplicas / 4 + 1 }

/-- The number of faults that `HotStuffBase::start` assumes of `n` replicas, half the
number of peers. -/
def nfaulty (n : ℕ) : ℕ := (n - 1) / 2

/-- The configuration of `n` replicas after `HotStuffBase::start`. -/
def start (pubkeys : ℕ → PubKey) (n : ℕ) : ReplicaConfig PubKey :=
  onInit ⟨fun rid => if rid < n then some (pubkeys rid) else none, n, 0, 0, 0⟩ (nfaulty n)

theorem getPubkey_start {pubkeys : ℕ → PubKey} {n rid : ℕ} (h : rid < n) :
    (start pubkeys n).getPubkey rid = .ok (pubkeys rid) := by
  simp [getPubkey, start, onInit, h]

theorem lt_of_getPubkey_start {pubkeys : ℕ → PubKey} {n rid : ℕ} {pk : PubKey}
    (h : (start pubkeys n).getPubkey rid = .ok pk) : rid < n := by
  by_contra hge
  simp [getPubkey, start, onInit, hge] at h

@[simp] theorem nmajority_start (pubkeys : ℕ → PubKey) (n : ℕ) :
    (start pubkeys n).nmajority = n - nfaulty n := rfl

@[simp] theorem nresponsive_start (pubkeys : ℕ → PubKey) (n : ℕ) :
    (start pubkeys n).nresponsive = 3 * n / 4 + 1 := rfl

end ReplicaConfig

/-! ## Certificates -/

/-- `PartCertSecp256k1`. -/
structure PartCertSecp256k1 (Sig : Type) where
  objHash : ℕ
  view : ℕ
  sig : Sig
  deriving DecidableEq, Repr

/-- `PartCertSecp256k1::verify`. -/
def PartCertSecp256k1.verify (A : SigScheme) (cert : PartCertSecp256k1 A.Sig)
    (pubkey : A.PubKey) : Bool :=
  A.verify cert.sig cert.objHash pubkey

/-- `QuorumCertSecp256k1`: `rids` are the positions of the set bits, `sigs` the map from
`ReplicaID`s to signatures. -/
structure QuorumCertSecp256k1 (Sig : Type) where
  objHash : ℕ
  view : ℕ
  rids : List ℕ
  sigs : List (ℕ × Sig)
  keys_nodup : (sigs.map Prod.fst).Nodup
  mem_keys : ∀ k, k ∈ sigs.map Prod.fst ↔ k ∈ rids.map toReplicaID
  deriving DecidableEq

namespace QuorumCertSecp256k1

variable {Sig : Type}

/-- The constructor: no signer yet. -/
def create (objHash view : ℕ) : QuorumCertSecp256k1 Sig :=
  ⟨objHash, view, [], [], List.nodup_nil, fun _ => Iff.rfl⟩

/-- `unordered_map::insert`, which keeps an entry that is there. -/
def insertSig (sigs : List (ℕ × Sig)) (k : ℕ) (s : Sig) : List (ℕ × Sig) :=
  if k ∈ sigs.map Prod.fst then sigs else sigs ++ [(k, s)]

theorem mem_insertSig {sigs : List (ℕ × Sig)} {k : ℕ} {s : Sig} {k' : ℕ} :
    k' ∈ (insertSig sigs k s).map Prod.fst ↔ k' ∈ sigs.map Prod.fst ∨ k' = k := by
  unfold insertSig
  split
  · rename_i hk
    constructor
    · exact Or.inl
    · rintro (h | rfl)
      · exact h
      · exact hk
  · simp

theorem nodup_insertSig {sigs : List (ℕ × Sig)} {k : ℕ} {s : Sig}
    (h : (sigs.map Prod.fst).Nodup) : ((insertSig sigs k s).map Prod.fst).Nodup := by
  unfold insertSig
  split
  · exact h
  · rename_i hk
    rw [List.map_append]
    refine h.append (List.nodup_singleton _) ?_
    intro k' hk' hmem
    have heq : k' = k := by simpa using hmem
    exact hk (heq ▸ hk')

/-- `QuorumCertSecp256k1::add_part`. -/
def addPart (qc : QuorumCertSecp256k1 Sig) (rid : ℕ) (pc : PartCertSecp256k1 Sig) :
    Except Error (QuorumCertSecp256k1 Sig) :=
  if pc.objHash ≠ qc.objHash then
    .error (.invalidArgument "PartCert does match the block hash")
  else .ok
    { qc with
      rids := if toReplicaID rid ∈ qc.rids then qc.rids else qc.rids ++ [toReplicaID rid]
      sigs := insertSig qc.sigs (toReplicaID rid) pc.sig
      keys_nodup := nodup_insertSig qc.keys_nodup
      mem_keys := by
        intro k
        rw [mem_insertSig, qc.mem_keys]
        split
        · rename_i hmem
          constructor
          · rintro (h | rfl)
            · exact h
            · exact List.mem_map.mpr ⟨_, hmem, toReplicaID_toReplicaID rid⟩
          · exact Or.inl
        · rw [List.map_append, List.mem_append, List.map_cons, List.map_nil,
            List.mem_singleton, toReplicaID_toReplicaID] }

/-- `sigs[k]`, when there is an entry. -/
def sigAt (qc : QuorumCertSecp256k1 Sig) (k : ℕ) : Option Sig := qc.sigs.lookup k

/-- The replicas whose signatures the certificate holds. -/
def signers (qc : QuorumCertSecp256k1 Sig) : Finset ℕ := (qc.sigs.map Prod.fst).toFinset

theorem card_signers (qc : QuorumCertSecp256k1 Sig) : qc.signers.card = qc.sigs.length := by
  unfold signers
  rw [List.toFinset_card_of_nodup qc.keys_nodup, List.length_map]

theorem mem_signers {qc : QuorumCertSecp256k1 Sig} {k : ℕ} :
    k ∈ qc.signers ↔ ∃ i ∈ qc.rids, toReplicaID i = k := by
  unfold signers
  rw [List.mem_toFinset, qc.mem_keys, List.mem_map]

/-- One iteration of the loop of `verify`. -/
def verifyPart (A : SigScheme) (qc : QuorumCertSecp256k1 A.Sig)
    (config : ReplicaConfig A.PubKey) (i : ℕ) : Except Error Bool := do
  let pubkey ← config.getPubkey (toReplicaID i)
  match qc.sigAt (toReplicaID i) with
  | some sig => return A.verify sig qc.objHash pubkey
  | none => return false

/-- `QuorumCertSecp256k1::verify`. -/
def verify (A : SigScheme) (qc : QuorumCertSecp256k1 A.Sig) (config : ReplicaConfig A.PubKey) :
    Except Error Bool :=
  if qc.sigs.length < config.nmajority then .ok false
  else qc.rids.allM (qc.verifyPart A config)

/-- The other `verify`, which hands one task for each signer to a `VeriPool`: what the
promise is resolved with, and whether it waits for the pool. -/
def verifyPool (A : SigScheme) (qc : QuorumCertSecp256k1 A.Sig)
    (config : ReplicaConfig A.PubKey) : Except Error (Bool × Bool) :=
  if qc.sigs.length < config.nmajority then .ok (false, false)
  else do
    let values ← qc.rids.mapM (qc.verifyPart A config)
    return (values.all id, true)

theorem verify_eq_true {A : SigScheme} {qc : QuorumCertSecp256k1 A.Sig}
    {config : ReplicaConfig A.PubKey} :
    qc.verify A config = .ok true ↔ config.nmajority ≤ qc.signers.card ∧
      ∀ i ∈ qc.rids, qc.verifyPart A config i = .ok true := by
  unfold verify
  rw [card_signers]
  split
  · rename_i hlt
    constructor
    · intro h
      cases h
    · intro h
      exact absurd h.1 (by omega)
  · rename_i hle
    rw [allM_eq_true]
    exact ⟨fun h => ⟨by omega, h⟩, fun h => h.2⟩

/-- The signers of an accepted certificate are replicas of the configuration. -/
theorem signer_lt_of_verify {A : SigScheme} {qc : QuorumCertSecp256k1 A.Sig}
    {pubkeys : ℕ → A.PubKey} {n : ℕ}
    (h : qc.verify A (ReplicaConfig.start pubkeys n) = .ok true) {k : ℕ}
    (hk : k ∈ qc.signers) : k < n := by
  obtain ⟨i, hi, rfl⟩ := mem_signers.mp hk
  have hpart := (verify_eq_true.mp h).2 i hi
  obtain ⟨pk, hpk, -⟩ := bind_eq_ok.mp hpart
  exact ReplicaConfig.lt_of_getPubkey_start hpk

/-- What `add_part` leaves and adds. -/
theorem addPart_ok {qc qc' : QuorumCertSecp256k1 Sig} {rid : ℕ} {pc : PartCertSecp256k1 Sig}
    (h : qc.addPart rid pc = .ok qc') : pc.objHash = qc.objHash ∧ qc'.objHash = qc.objHash ∧
      qc'.rids = (if toReplicaID rid ∈ qc.rids then qc.rids else qc.rids ++ [toReplicaID rid]) ∧
      qc'.sigs = insertSig qc.sigs (toReplicaID rid) pc.sig := by
  unfold addPart at h
  split at h
  · cases h
  · rename_i hobj
    cases h
    exact ⟨not_not.mp hobj, rfl, rfl, rfl⟩

theorem signers_addPart {qc qc' : QuorumCertSecp256k1 Sig} {rid : ℕ} {pc : PartCertSecp256k1 Sig}
    (h : qc.addPart rid pc = .ok qc') : qc'.signers = insert (toReplicaID rid) qc.signers := by
  ext k
  unfold signers
  rw [(addPart_ok h).2.2.2, List.mem_toFinset, mem_insertSig, Finset.mem_insert, List.mem_toFinset,
    or_comm]

theorem lookup_insertSig {sigs : List (ℕ × Sig)} {k k' : ℕ} {s : Sig} :
    (insertSig sigs k s).lookup k' =
      if k' = k ∧ k ∉ sigs.map Prod.fst then some s else sigs.lookup k' := by
  unfold insertSig
  by_cases hk : k ∈ sigs.map Prod.fst
  · rw [if_pos hk, if_neg fun h => h.2 hk]
  · rw [if_neg hk, List.lookup_append]
    by_cases heq : k' = k
    · subst heq
      have hnone : sigs.lookup k' = none := by
        rw [List.lookup_eq_none_iff]
        rintro p hp
        exact bne_iff_ne.mpr fun heq => hk (heq ▸ List.mem_map_of_mem hp)
      rw [if_pos ⟨rfl, hk⟩, hnone]
      simp
    · rw [if_neg fun h => heq h.1]
      simp [List.lookup_cons, beq_false_of_ne heq]

/-- The signatures of a certificate verify after one that verifies is added. -/
theorem verifyPart_addPart {A : SigScheme} {qc qc' : QuorumCertSecp256k1 A.Sig}
    {config : ReplicaConfig A.PubKey} {rid : ℕ} {pc : PartCertSecp256k1 A.Sig} {pubkey : A.PubKey}
    (h : qc.addPart rid pc = .ok qc') (hparts : ∀ i ∈ qc.rids, qc.verifyPart A config i = .ok true)
    (hkey : config.getPubkey (toReplicaID rid) = .ok pubkey) (hsig : pc.verify A pubkey = true) :
    ∀ i ∈ qc'.rids, qc'.verifyPart A config i = .ok true := by
  obtain ⟨hpc, hobj, hrids, hsigs⟩ := addPart_ok h
  intro i hi
  unfold verifyPart sigAt
  rw [hobj, hsigs, lookup_insertSig]
  by_cases hnew : toReplicaID i = toReplicaID rid ∧ toReplicaID rid ∉ qc.sigs.map Prod.fst
  · rw [if_pos hnew, hnew.1, hkey, ok_bind, ← hpc]
    exact congrArg Except.ok hsig
  · rw [if_neg hnew]
    -- the signature was there before, perhaps of another position with the same key
    obtain ⟨j, hj, hji⟩ : ∃ j ∈ qc.rids, toReplicaID j = toReplicaID i := by
      by_cases hold : i ∈ qc.rids
      · exact ⟨i, hold, rfl⟩
      · have heq : i = toReplicaID rid := by
          rw [hrids] at hi
          split at hi
          · exact absurd hi hold
          · exact List.mem_singleton.mp ((List.mem_append.mp hi).resolve_left hold)
        have hkeys : toReplicaID i = toReplicaID rid := heq ▸ toReplicaID_toReplicaID rid
        have hmem := (qc.mem_keys _).mp (not_not.mp fun hnot => hnew ⟨hkeys, hnot⟩)
        rw [← hkeys] at hmem
        exact List.mem_map.mp hmem
    have hpart := hparts j hj
    unfold verifyPart sigAt at hpart
    rwa [hji] at hpart

/-- A certificate that verifies does so after a signature that verifies is added. -/
theorem verify_addPart {A : SigScheme} {qc qc' : QuorumCertSecp256k1 A.Sig}
    {config : ReplicaConfig A.PubKey} {rid : ℕ} {pc : PartCertSecp256k1 A.Sig} {pubkey : A.PubKey}
    (h : qc.addPart rid pc = .ok qc') (hqc : qc.verify A config = .ok true)
    (hkey : config.getPubkey (toReplicaID rid) = .ok pubkey) (hsig : pc.verify A pubkey = true) :
    qc'.verify A config = .ok true := by
  obtain ⟨hcard, hparts⟩ := verify_eq_true.mp hqc
  refine verify_eq_true.mpr ⟨?_, verifyPart_addPart h hparts hkey hsig⟩
  rw [signers_addPart h]
  exact hcard.trans (Finset.card_le_card (Finset.subset_insert _ _))

/-! ## How many signers two accepted certificates share -/

/-- The certificate with the signatures `sig k` of the replicas `k` of a list. -/
def ofSigners (objHash view : ℕ) (s : List ℕ) (hs : s.Nodup) (hlt : ∀ k ∈ s, k < 2 ^ 16)
    (sig : ℕ → Sig) : QuorumCertSecp256k1 Sig where
  objHash := objHash
  view := view
  rids := s
  sigs := s.map fun k => (k, sig k)
  keys_nodup := by simpa [Function.comp_def] using hs
  mem_keys := by
    intro k
    rw [List.map_map, List.map_congr_left fun i hi => toReplicaID_of_lt (hlt i hi)]
    rfl

theorem signers_ofSigners {objHash view : ℕ} {s : List ℕ} (hs : s.Nodup)
    (hlt : ∀ k ∈ s, k < 2 ^ 16) (sig : ℕ → Sig) :
    (ofSigners objHash view s hs hlt sig).signers = s.toFinset := by
  simp [signers, ofSigners, Function.comp_def]

theorem sigAt_ofSigners {objHash view : ℕ} {s : List ℕ} (hs : s.Nodup)
    (hlt : ∀ k ∈ s, k < 2 ^ 16) (sig : ℕ → Sig) {k : ℕ} (hk : k ∈ s) :
    (ofSigners objHash view s hs hlt sig).sigAt k = some (sig k) := by
  change (s.map fun k => (k, sig k)).lookup k = _
  clear hs hlt
  induction s with
  | nil => cases hk
  | cons a s ih =>
    rw [List.map_cons, List.lookup_cons]
    by_cases ha : k = a
    · simp [ha]
    · rw [beq_false_of_ne ha]
      exact ih ((List.mem_cons.mp hk).resolve_left ha)

/-- Enough replicas that sign properly make an accepted certificate. -/
theorem verify_ofSigners {A : SigScheme} {pubkeys : ℕ → A.PubKey} {n : ℕ}
    (objHash view : ℕ) (hn : n ≤ 2 ^ 16) {s : List ℕ} (hs : s.Nodup) (hlt : ∀ k ∈ s, k < n)
    (hcard : n - ReplicaConfig.nfaulty n ≤ s.length) {sig : ℕ → A.Sig}
    (hsig : ∀ k ∈ s, A.verify (sig k) objHash (pubkeys k) = true) :
    (ofSigners objHash view s hs (fun k hk => lt_of_lt_of_le (hlt k hk) hn) sig).verify A
      (ReplicaConfig.start pubkeys n) = .ok true := by
  refine verify_eq_true.mpr ⟨?_, ?_⟩
  · rw [signers_ofSigners, List.toFinset_card_of_nodup hs, ReplicaConfig.nmajority_start]
    exact hcard
  · intro i (hi : i ∈ s)
    have hid : toReplicaID i = i := toReplicaID_of_lt (lt_of_lt_of_le (hlt i hi) hn)
    unfold verifyPart
    rw [hid, ReplicaConfig.getPubkey_start (hlt i hi), ok_bind, sigAt_ofSigners _ _ _ hi]
    exact congrArg Except.ok (hsig i hi)

end QuorumCertSecp256k1

/-- Two accepted certificates always share `nfaulty + 1` signers in systems of one, two and
four replicas, and in no other: `verify` asks for `nmajority` signatures, although
`on_receive_vote` forms a certificate from `nresponsive` votes. -/
theorem ReplicaConfig.common_signers_iff (A : SigScheme) (pubkeys : ℕ → A.PubKey) (n : ℕ)
    (hpos : 1 ≤ n) (hn : n ≤ 2 ^ 16)
    (hsign : ∀ k < n, ∀ digest, ∃ sig, A.verify sig digest (pubkeys k) = true) :
    (∀ qc qc' : QuorumCertSecp256k1 A.Sig, qc.verify A (start pubkeys n) = .ok true →
      qc'.verify A (start pubkeys n) = .ok true →
      nfaulty n + 1 ≤ (qc.signers ∩ qc'.signers).card) ↔ n = 1 ∨ n = 2 ∨ n = 4 := by
  constructor
  · intro h
    obtain ⟨sig₀, -⟩ := hsign 0 hpos 0
    have : Nonempty A.Sig := ⟨sig₀⟩
    choose! sig hsig using hsign
    have hfaulty : nfaulty n = (n - 1) / 2 := rfl
    have hfirst : ∀ k ∈ List.range (n - nfaulty n), k < n := by
      intro k hk
      have := List.mem_range.mp hk
      omega
    have hlast : ∀ k ∈ List.range' (nfaulty n) (n - nfaulty n), k < n := by
      intro k hk
      have := List.mem_range'_1.mp hk
      omega
    have hcommon := h _ _
      (QuorumCertSecp256k1.verify_ofSigners 0 1 hn List.nodup_range hfirst (by simp)
        fun k hk => hsig k (hfirst k hk) 0)
      (QuorumCertSecp256k1.verify_ofSigners 1 1 hn List.nodup_range' hlast (by simp)
        fun k hk => hsig k (hlast k hk) 1)
    rw [QuorumCertSecp256k1.signers_ofSigners, QuorumCertSecp256k1.signers_ofSigners] at hcommon
    have hrange : (List.range (n - nfaulty n)).toFinset = Finset.range (n - nfaulty n) :=
      List.toFinset_range _
    have hIco : (List.range' (nfaulty n) (n - nfaulty n)).toFinset =
        Finset.Ico (n - (n - nfaulty n)) n := by
      ext k
      simp only [List.mem_toFinset, List.mem_range'_1, Finset.mem_Ico]
      omega
    rw [hrange, hIco, card_range_inter_Ico (by omega)] at hcommon
    omega
  · intro h qc qc' hqc hqc'
    have hsub : ∀ c : QuorumCertSecp256k1 A.Sig, c.verify A (start pubkeys n) = .ok true →
        c.signers ⊆ Finset.range n :=
      fun c hc k hk => Finset.mem_range.mpr (QuorumCertSecp256k1.signer_lt_of_verify hc hk)
    have hinter := two_mul_le_card_inter_add (hsub qc hqc) (hsub qc' hqc')
      (QuorumCertSecp256k1.verify_eq_true.mp hqc).1 (QuorumCertSecp256k1.verify_eq_true.mp hqc').1
    rw [nmajority_start] at hinter
    have hfaulty : nfaulty n = (n - 1) / 2 := rfl
    omega

theorem ReplicaConfig.common_signers_four :
    (∀ qc qc' : QuorumCertSecp256k1 SigScheme.ideal.Sig,
      qc.verify SigScheme.ideal (start id 4) = .ok true →
      qc'.verify SigScheme.ideal (start id 4) = .ok true →
      nfaulty 4 + 1 ≤ (qc.signers ∩ qc'.signers).card) ↔ 4 = 1 ∨ 4 = 2 ∨ 4 = 4 :=
  common_signers_iff SigScheme.ideal id 4 (by decide) (by decide)
    fun k _ digest => ⟨⟨k, digest⟩, decide_eq_true ⟨rfl, rfl⟩⟩

/-- Of three replicas, two certificates of one view for different blocks share one signer. -/
theorem QuorumCertSecp256k1.one_common_signer :
    ∃ qc qc' : QuorumCertSecp256k1 SigScheme.ideal.Sig,
      qc.verify SigScheme.ideal (ReplicaConfig.start id 3) = .ok true ∧
      qc'.verify SigScheme.ideal (ReplicaConfig.start id 3) = .ok true ∧
      qc.view = qc'.view ∧ qc.objHash ≠ qc'.objHash ∧
      (qc.signers ∩ qc'.signers).card < ReplicaConfig.nfaulty 3 + 1 :=
  ⟨ofSigners 7 1 [0, 1] (by decide) (by decide) fun k => ⟨k, 7⟩,
    ofSigners 8 1 [1, 2] (by decide) (by decide) fun k => ⟨k, 8⟩,
    rfl, rfl, rfl, by decide, by decide⟩

end OptRand.Hotstuff
