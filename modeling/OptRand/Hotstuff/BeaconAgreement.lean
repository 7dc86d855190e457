import OptRand.Hotstuff.Waiting
import OptRand.Pvss.Soundness

/-!
# Agreement on the beacon

A beacon of view `v` is verified against the aggregate that a replica's `agg_queue` has for the
proposer of `v`, and an aggregate has one beacon. So two replicas agree when their queues do, and
the queue of a replica is what it had in `view_agg_transcripts` when it left each view
(`OptRand.Hotstuff.AggQueue`). Two facts make sure that this entry is that of a proposal:

* a share from a peer is counted only after the proposal of its view, as its handler waits for
  it, and shares of one origin reconstruct nothing, so no view is left before its proposal
  (`Counted`);
* `on_receive_beacon` returns at once in every state that is reached, since
  `last_view_beacon_received` is never above the view.

What remains is that the proposals of a view carry one aggregate. `on_receive_proposal` does not
vote for a second proposal, but it takes up its aggregate; then the beacons differ
(`System.beacons_differ`).
-/

namespace OptRand.Hotstuff

open Lib

variable {T : PayloadTypes}

/-! ## Shares and the proposal of their view -/

/-- No quorum of its own decryptions reconstructs a beacon for a replica. -/
def Env.Alone (E : Env T) : Prop :=
  ∀ i decs b, (∀ dec ∈ decs, E.Own i dec) → (E.pvss i).reconstruct decs ≠ .ok b

/-- What a replica has received in its view: shares of its peers, and the end of the view, only
after the proposal. -/
structure Counted (E : Env T) (v : Views T) : Prop where
  own : ∀ w, v.lastViewProposalReceived < w → ∀ dec ∈ v.viewShares w, E.Own v.id dec
  shares_le : v.lastViewSharesReceived ≤ v.view
  beacon_le : v.lastViewBeaconReceived ≤ v.view
  shares : v.lastViewSharesReceived = v.view → v.lastViewProposalReceived = v.view
  beacon : v.lastViewBeaconReceived = v.view → v.lastViewProposalReceived = v.view

/-- The part of the views that shares are counted in. -/
def Views.counting (v : Views T) : ℕ × ℕ × ℕ × ℕ × ℕ × (ℕ → List T.Decryption) :=
  (v.id, v.view, v.lastViewProposalReceived, v.lastViewSharesReceived, v.lastViewBeaconReceived,
    v.viewShares)

theorem Counted.of_counting {E : Env T} {v v' : Views T} (hc : Counted E v)
    (h : v'.counting = v.counting) : Counted E v' := by
  cases v
  cases v'
  simp only [Views.counting, Prod.mk.injEq] at h
  obtain ⟨rfl, rfl, rfl, rfl, rfl, rfl⟩ := h
  exact ⟨hc.own, hc.shares_le, hc.beacon_le, hc.shares, hc.beacon⟩

namespace Replica

variable {s : Replica T} {E : Env T}

theorem counted_init (i : ℕ) : Counted E (E.init i).views where
  own _ _ _ h := nomatch h
  shares_le := Nat.zero_le 1
  beacon_le := Nat.zero_le 1
  shares h := nomatch h
  beacon h := nomatch h

/-- A share is counted in the view of the replica, and completes it only after the proposal. -/
theorem counted_onReceiveShare (hE : E.Alone) (hg : Gate E s) (hc : Counted E s.views)
    {sh : Share T} (ha : Admitted E s (.onReceiveShare sh)) :
    Counted E (s.onReceiveShare E sh).rep.views := by
  obtain ⟨hle, hshare⟩ := ha
  unfold onReceiveShare
  split
  · exact hc
  · rename_i hview
    have hview : sh.view = s.view := le_antisymm hle (not_lt.mp hview)
    have hown : ∀ w, s.lastViewProposalReceived < w →
        ∀ dec ∈ Function.update s.viewShares sh.view (s.viewShares sh.view ++ [sh.bt]) w,
          E.Own s.id dec := by
      intro w hw dec hdec
      by_cases heq : w = sh.view
      · subst heq
        rw [Function.update_self] at hdec
        rcases List.mem_append.mp hdec with hdec | hdec
        · exact hc.own _ hw dec hdec
        · rw [List.mem_singleton.mp hdec]
          exact hshare.resolve_right (not_le.mpr hw)
      · rw [Function.update_of_ne heq] at hdec
        exact hc.own w hw dec hdec
    dsimp only
    split
    · exact hc
    · split
      · exact hc
      · exact hc
      · split
        · split
          · exact ⟨hown, hc.shares_le, hc.beacon_le, hc.shares, hc.beacon⟩
          · rename_i beacon hrecon
            have hreceived : s.lastViewProposalReceived = s.view := by
              by_contra hne
              have hlt : s.lastViewProposalReceived < sh.view :=
                hview ▸ lt_of_le_of_ne hg.received_le hne
              have hall := hown sh.view hlt
              rw [Function.update_self] at hall
              exact hE s.id _ beacon hall hrecon
            split
            · exact ⟨hown, hc.shares_le, hc.beacon_le, hc.shares, hc.beacon⟩
            · exact ⟨hown, le_rfl, le_rfl, fun _ => hreceived, fun _ => hreceived⟩
        · exact ⟨hown, hc.shares_le, hc.beacon_le, hc.shares, hc.beacon⟩

/-- `on_receive_beacon` does nothing. -/
theorem onReceiveBeacon_eq (hc : Counted E s.views) {beacon : Beacon T} :
    s.onReceiveBeacon E beacon = s.done := by
  have hle : s.lastViewBeaconReceived ≤ s.view := hc.beacon_le
  unfold onReceiveBeacon
  rw [if_pos (by omega)]

theorem counted_exec (hE : E.Alone) (hg : Gate E s) (hc : Counted E s.views)
    {fr : Frame T} (ha : Admitted E s fr) : Counted E (s.exec E fr).rep.views := by
  cases fr
  case onReceiveViewProposal_ =>
    refine ⟨?_, hc.shares_le, hc.beacon_le, fun _ => rfl, fun _ => rfl⟩
    intro w hw
    exact hc.own w (hg.received_le.trans_lt hw)
  case onReceiveShare sh => exact counted_onReceiveShare hE hg hc ha
  case onReceiveBeacon =>
    rw [exec, onReceiveBeacon_eq hc]
    exact hc
  case tryEnterView =>
    rcases tryEnterView_cases rfl with h | ⟨-, -, h, -⟩
    · exact hc.of_counting (congrArg (fun o : Outcome T => o.rep.views.counting) h)
    · have hshares : s.lastViewSharesReceived ≤ s.view := hc.shares_le
      have hbeacon : s.lastViewBeaconReceived ≤ s.view := hc.beacon_le
      rw [exec, h]
      refine ⟨hc.own, hshares.trans (Nat.le_succ _), hbeacon.trans (Nat.le_succ _), ?_, ?_⟩
      · intro heq
        have heq : s.lastViewSharesReceived = s.view + 1 := heq
        omega
      · intro heq
        have heq : s.lastViewBeaconReceived = s.view + 1 := heq
        omega
  all_goals
    refine hc.of_counting ?_
    rw [exec_patch]
    rfl

theorem leavesAfterProposal (hc : Counted E s.views) (fr : Frame T) :
    LeavesAfterProposal s fr := by
  intro _ _ hend
  exact hend.elim hc.shares hc.beacon

end Replica

/-! ## Runs with one aggregate for each view -/

namespace System

variable {E : Env T} {F : Faults T} {σ : System T}

/-- The call leaves the aggregate `A w` in the entry of view `w` when it writes it for good. -/
def Consistent (E : Env T) (A : ℕ → T.Aggregate) (σ : System T) (i : ℕ) (fr : Frame T) : Prop :=
  Writes E A (σ.nodes i).rep fr

theorem Run.counted {ok : System T → ℕ → Frame T → Prop} (hE : E.Alone) (h : Run E F ok σ)
    (i : ℕ) : Counted E (σ.nodes i).rep.views := by
  refine h.node_induction (I := fun _ x => Counted E x.rep.views) ?_ ?_ ?_ i
  · exact Replica.counted_init
  · intro i x ev hx _ _
    exact hx
  · intro σ i fr stack hrun hi _ hx hstack
    obtain ⟨hgate, hcalls⟩ := hrun.admits hi.1
    have htop := hcalls fr (hstack ▸ List.mem_cons_self)
    rw [Node.rep_after]
    exact Replica.counted_exec hE hgate hx htop

/-- A beacon is that of the aggregate which the queue holds for its view. -/
theorem Run.beacon_held {A : ℕ → T.Aggregate} (hn : 1 ≤ E.nreplicas) (hE : E.Alone)
    (h : Run E F (Consistent E A) σ) {i v : ℕ} {agg : T.Aggregate} {b : T.Beacon}
    (hb : σ.Emitted E i (.beacon v agg b)) :
    agg = (if v ≤ E.nreplicas then E.setupQueue (v - 1) else A (v - E.nreplicas)) ∧
      (E.pvss i).verifyBeacon agg b = true := by
  obtain ⟨e, he, rfl, hout⟩ := hb
  obtain ⟨σ', stack, hrun, -, hi, hrep, hstack, -⟩ := h.exists_of_mem_trace he
  have hid : e.rep.id = e.node := hrep ▸ hrun.rep_id e.node
  obtain ⟨hgate, hcalls⟩ := hrun.admits hi.1
  have htop := hcalls e.frame (hstack ▸ List.mem_cons_self)
  rw [hrep] at htop
  rcases Replica.exec_out hout with hmsg | hsaid
  · exact hmsg.elim
  · generalize hfr : e.frame = fr at hsaid htop
    cases hsaid with
    | beacon sh b hview hverify =>
      have hview : sh.view = e.rep.view := le_antisymm htop.1 hview
      have haligned := hrun.aligned hn (fun σ i fr hrun _ hok =>
        ⟨hok, Replica.leavesAfterProposal (hrun.counted hE i) fr⟩) e.node
      rw [hrep] at haligned
      have hheld := haligned.held_eq hn
      unfold Env.held at hheld
      rw [← hview] at hheld
      rw [hid] at hverify
      exact ⟨hheld, hverify⟩

end System

/-! ## Replicas with the contexts of a setup -/

/-- The payloads of a PVSS. -/
abbrev pvssTypes (q : ℕ) (G₁ G₂ GT Chunk Path : Type) : PayloadTypes where
  Aggregate := Pvss.PvssAggregate q G₁ G₂
  Sharing := Pvss.PvssSharing q G₁ G₂
  Decryption := Pvss.Decryption q G₁
  Beacon := Pvss.Beacon G₁ GT
  Chunk := Chunk
  Path := Path

/-- The random values that a replica draws, by the number of the draw. -/
structure Draws (q : ℕ) where
  sharing : ℕ → Pvss.SharingDraws q
  dual : ℕ → ℕ → Pvss.Fr q
  nonce : ℕ → Pvss.Fr q

section

variable {q : ℕ} {G₁ G₂ GT Chunk Path : Type} [AddCommGroup G₁] [AddCommGroup G₂]
variable [Module (Pvss.Fr q) G₁] [Module (Pvss.Fr q) G₂]
variable [DecidableEq G₁] [DecidableEq G₂] [DecidableEq GT]

/-- The functions of a context, with the random values `draws`. -/
def pvssOf (ctx : Pvss.Context q G₁ G₂ GT) (draws : Draws q) :
    PvssContext (pvssTypes q G₁ G₂ GT Chunk Path) where
  createSharing k := ctx.createSharing (draws.sharing k)
  verifySharing sh k := ctx.verifySharing sh (draws.dual k)
  aggregate shs ids := ctx.aggregate shs ids
  verifyAggregation agg k := ctx.verifyAggregation agg (draws.dual k)
  decrypt agg k := ctx.decrypt agg (draws.nonce k)
  verifyDecryption agg dec := ctx.verifyDecryption agg dec
  reconstruct decs := ctx.reconstruct decs
  verifyBeacon agg b := ctx.verifyBeacon agg b

/-- The environment `E` with the replicas and contexts of the setup `S`. -/
def Env.withSetup (E : Env (pvssTypes q G₁ G₂ GT Chunk Path)) (S : Pvss.Setup q G₁ G₂ GT)
    (draws : ℕ → Draws q) : Env (pvssTypes q G₁ G₂ GT Chunk Path) :=
  { E with
    nreplicas := S.numReplicas
    pvss := fun i => pvssOf (S.context i) (draws i) }

variable {E : Env (pvssTypes q G₁ G₂ GT Chunk Path)} {S : Pvss.Setup q G₁ G₂ GT}
variable {draws : ℕ → Draws q}

theorem alone_withSetup (hn : 3 ≤ S.numReplicas) : (E.withSetup S draws).Alone := by
  intro i decs b hown
  have hfaults : 1 ≤ (S.context i).config.numFaults := by
    change 1 ≤ (S.numReplicas - 1) / 2
    omega
  refine Pvss.reconstruct_ne_ok hfaults (i := i) ?_ b
  intro dec hdec
  obtain ⟨agg, k, hdecrypt⟩ := hown dec hdec
  exact Pvss.decrypt_origin hdecrypt

end

namespace System

section

variable {q : ℕ} [Fact q.Prime] {G₁ G₂ GT Chunk Path : Type} [AddCommGroup G₁] [AddCommGroup G₂]
variable [AddCommGroup GT] [Module (Pvss.Fr q) G₁] [Module (Pvss.Fr q) G₂]
variable [Module (Pvss.Fr q) GT] [DecidableEq G₁] [DecidableEq G₂] [DecidableEq GT]

/-- Two replicas that reconstruct a beacon of one view have the same, in runs in which the
proposals that are taken up in a view carry one aggregate. -/
theorem beacon_agreement (E : Env (pvssTypes q G₁ G₂ GT Chunk Path)) (S : Pvss.Setup q G₁ G₂ GT)
    (draws : ℕ → Draws q) (F : Faults (pvssTypes q G₁ G₂ GT Chunk Path))
    (hE : S.curve.PrimeOrder) (hh1 : S.h1 ≠ 0) (hn : 3 ≤ S.numReplicas)
    (A : ℕ → Pvss.PvssAggregate q G₁ G₂) (σ : System (pvssTypes q G₁ G₂ GT Chunk Path))
    (h : Run (E.withSetup S draws) F (Consistent (E.withSetup S draws) A) σ)
    (i j v : ℕ) (agg agg' : Pvss.PvssAggregate q G₁ G₂) (b b' : Pvss.Beacon G₁ GT)
    (hi : σ.Emitted (E.withSetup S draws) i (.beacon v agg b))
    (hj : σ.Emitted (E.withSetup S draws) j (.beacon v agg' b')) : b = b' := by
  have hpos : 1 ≤ (E.withSetup S draws).nreplicas := le_trans (by decide) hn
  obtain ⟨hagg, hb⟩ := h.beacon_held hpos (alone_withSetup hn) hi
  obtain ⟨hagg', hb'⟩ := h.beacon_held hpos (alone_withSetup hn) hj
  have heq : agg' = agg := hagg'.trans hagg.symm
  subst heq
  exact Pvss.verifyBeacon_unique hE hh1 (S.public_context i) (S.public_context j) hb hb'

end

/-! ## A proposer with two proposals -/

/-- The payloads over `Pvss.Curve.scalar`. -/
abbrev scalarTypes : PayloadTypes :=
  pvssTypes 5 (Pvss.Fr 5) (Pvss.Fr 5) (Pvss.Fr 5) Unit Unit

/-- The aggregate of twice the polynomial of `Pvss.linearAggregate`. -/
def doubledAggregate : scalarTypes.Aggregate :=
  { Pvss.linearAggregate with
    encryptions := Pvss.linearAggregate.encryptions.map fun x => x + x
    commitments := Pvss.linearAggregate.commitments.map fun x => x + x
    decomposition := [Pvss.scalarDecomposition 5 1, Pvss.scalarDecomposition 5 1] }

/-- The random values of all replicas. -/
def scalarDraws : Draws 5 := ⟨fun _ => ⟨fun _ => 1, fun _ => 1, 1⟩, fun _ _ => 1, fun _ => 1⟩

/-- What three replicas have besides their contexts. A block is hashed to its first command, and
nothing is dispersed. -/
def scalarBase : Env scalarTypes where
  nreplicas := 3
  hash c := c.cmds.headD 0
  emptyAggregate := ⟨[], [], [], []⟩
  pvss i := pvssOf ((Pvss.Setup.scalar 5 3).context i) scalarDraws
  dispersal :=
    { encodeProposal := fun _ _ _ => []
      encodeCert := fun _ _ _ => []
      root := fun _ => 0
      path := fun _ _ => ()
      verifyPath := fun _ _ => true
      decodeProposal := fun _ _ _ _ => .error .undefined
      decodeCert := fun _ _ _ _ => .error .undefined }
  setup := List.replicate 6 Pvss.linearAggregate
  blkSize := 1

/-- Three replicas over `Pvss.Curve.scalar`. -/
def scalarEnv : Env scalarTypes :=
  scalarBase.withSetup (Pvss.Setup.scalar 5 3) fun _ => scalarDraws

/-- Replica `0` is Byzantine. -/
def scalarFaults : Faults scalarTypes := ⟨{0}, fun _ => []⟩

/-- Replica `0` sends the block `h` over `p` to replica `i` in view `v`. -/
def proposes (i v h p : ℕ) (agg : scalarTypes.Aggregate) : Scripted scalarTypes :=
  .inject 0 i (.propose ⟨0, ⟨[p], [h], some (QuorumCertSecp256k1.create 0 0), 0, agg⟩, v⟩)

/-- Replica `0` sends a certificate without signatures for the block `v` of view `v`. -/
def certifies (i v : ℕ) : Scripted scalarTypes := .inject 0 i (.qc (QuorumCertSecp256k1.create v v))

/-- Replica `i` receives the acknowledgements for the block `v` by its honest peer, which is the
message `k`, and by replica `0`. -/
def acknowledged (i v k : ℕ) : List (Scripted scalarTypes) :=
  [.deliver k, .inject 0 i (.ack ⟨0, v, createPartCert 0 v v, v⟩), .verify i]

/-- Replica `0` sends its decryption. -/
def decrypts (i v : ℕ) (agg : scalarTypes.Aggregate) : List (Scripted scalarTypes) :=
  match (scalarEnv.pvss 0).decrypt agg 0 with
  | .ok dec => [.inject 0 i (.share ⟨0, v, dec⟩)]
  | .error _ => []

/-- The events of view `v` after the proposals: replica `1` completes its acknowledgements and
its shares, and its share is the message `k'` to replica `2`. -/
def completes (v k k' : ℕ) : List (Scripted scalarTypes) :=
  [certifies 1 v, certifies 2 v] ++ acknowledged 1 v k ++
    decrypts 1 v Pvss.linearAggregate ++ decrypts 2 v Pvss.linearAggregate ++ [.deliver k']

/-- The events of views `1` to `4` after the first proposals. In view `4` replica `0` decrypts
`agg₁` for replica `1` and `agg₂` for replica `2`. -/
def fourViews (agg₁ agg₂ : scalarTypes.Aggregate) : List (Scripted scalarTypes) :=
  completes 1 5 7 ++
  [proposes 1 2 2 1 Pvss.linearAggregate, proposes 2 2 2 1 Pvss.linearAggregate] ++
    completes 2 20 22 ++
  [proposes 1 3 3 2 Pvss.linearAggregate, proposes 2 3 3 2 Pvss.linearAggregate] ++
    completes 3 33 35 ++
  [proposes 1 4 4 3 Pvss.linearAggregate, proposes 2 4 4 3 Pvss.linearAggregate,
    certifies 1 4, certifies 2 4] ++ acknowledged 1 4 49 ++ acknowledged 2 4 47 ++
    decrypts 1 4 agg₁ ++ decrypts 2 4 agg₂

/-- The proposal of view `1` carries an aggregate that is not one of the setup file. -/
def oneProposal : List (Scripted scalarTypes) :=
  [proposes 1 1 1 0 doubledAggregate, proposes 2 1 1 0 doubledAggregate] ++
    fourViews doubledAggregate doubledAggregate

/-- In view `1` replica `2` also receives the block `5`, which carries another aggregate; it is used
in view `4`. -/
def twoProposals : List (Scripted scalarTypes) :=
  [proposes 1 1 1 0 Pvss.linearAggregate, proposes 2 1 1 0 Pvss.linearAggregate,
    proposes 2 1 5 0 doubledAggregate] ++ fourViews Pvss.linearAggregate doubledAggregate

/-- Whether replica `i` has reconstructed the beacon `b` in view `v`. -/
def reconstructed (σ : System scalarTypes) (i v : ℕ) (b : scalarTypes.Beacon) : Bool :=
  σ.trace.any fun e => e.node == i &&
    match e.frame with
    | .onReceiveShare _ => (e.outcome scalarEnv).out.any fun out =>
      match out with
      | .beacon w _ b' => w == v && decide (b' = b)
      | _ => false
    | _ => false

theorem emitted_of_reconstructed {σ : System scalarTypes} {i v : ℕ} {b : scalarTypes.Beacon}
    (h : reconstructed σ i v b = true) : ∃ agg, σ.Emitted scalarEnv i (.beacon v agg b) := by
  obtain ⟨e, he, h⟩ := List.any_eq_true.mp h
  obtain ⟨hnode, h⟩ := Bool.and_eq_true_iff.mp h
  split at h
  · obtain ⟨out, hout, h⟩ := List.any_eq_true.mp h
    split at h
    · rename_i w agg b'
      obtain ⟨hw, hb⟩ := Bool.and_eq_true_iff.mp h
      obtain rfl : w = v := eq_of_beq hw
      obtain rfl : b' = b := of_decide_eq_true hb
      exact ⟨agg, e, he, eq_of_beq hnode, hout⟩
    · cases h
  · cases h

/-- Both honest replicas reconstruct the beacon of the aggregate proposed in view `1`. -/
theorem beacon_agreement_scalar : ∃ (σ : System scalarTypes) (agg agg' : scalarTypes.Aggregate)
    (b b' : scalarTypes.Beacon), σ.Emitted scalarEnv 1 (.beacon 4 agg b) ∧
    σ.Emitted scalarEnv 2 (.beacon 4 agg' b') ∧ b = b' := by
  let proposed (v : ℕ) := if v = 1 then doubledAggregate else Pvss.linearAggregate
  have hok : ∀ (σ : System scalarTypes) i fr, (σ.nodes i).rep.writesOnly proposed fr = true →
      Consistent scalarEnv proposed σ i fr := fun _ _ _ => writes_of_writesOnly
  obtain ⟨σ, hrun, htest⟩ := exists_of_play scalarEnv scalarFaults _ hok oneProposal
    (fun σ => reconstructed σ 1 4 ⟨2, 2⟩ && reconstructed σ 2 4 ⟨2, 2⟩) (by decide +kernel)
  obtain ⟨h₁, h₂⟩ := Bool.and_eq_true_iff.mp htest
  obtain ⟨agg, hb⟩ := emitted_of_reconstructed h₁
  obtain ⟨agg', hb'⟩ := emitted_of_reconstructed h₂
  exact ⟨σ, agg, agg', _, _, hb, hb', beacon_agreement scalarBase (Pvss.Setup.scalar 5 3)
    (fun _ => scalarDraws) scalarFaults Pvss.Curve.scalar_primeOrder (by decide) (by decide)
    proposed σ hrun 1 2 4 agg agg' _ _ hb hb'⟩

/-- One Byzantine proposer of three replicas makes the honest ones reconstruct different
beacons of view `4`. -/
theorem beacons_differ : ∃ (σ : System scalarTypes) (agg agg' : scalarTypes.Aggregate)
    (b b' : scalarTypes.Beacon), Reachable scalarEnv scalarFaults σ ∧
    scalarFaults.byzantine.card ≤ ReplicaConfig.nfaulty scalarEnv.nreplicas ∧
    σ.Emitted scalarEnv 1 (.beacon 4 agg b) ∧ σ.Emitted scalarEnv 2 (.beacon 4 agg' b') ∧
    b ≠ b' := by
  obtain ⟨σ, hrun, htest⟩ := exists_reachable_of_play scalarEnv scalarFaults twoProposals
    (fun σ => reconstructed σ 1 4 ⟨1, 1⟩ && reconstructed σ 2 4 ⟨2, 2⟩) (by decide +kernel)
  obtain ⟨h₁, h₂⟩ := Bool.and_eq_true_iff.mp htest
  obtain ⟨agg, hb⟩ := emitted_of_reconstructed h₁
  obtain ⟨agg', hb'⟩ := emitted_of_reconstructed h₂
  exact ⟨σ, agg, agg', _, _, hrun, by decide, hb, hb', by decide⟩

end System

end OptRand.Hotstuff
