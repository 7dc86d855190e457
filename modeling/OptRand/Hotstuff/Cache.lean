import OptRand.Hotstuff.Frames
import Mathlib.Logic.Relation

/-!
# What the calls do to the blocks and to the highest certificate

`Added` says which blocks a call puts into the cache, `Change` what it does to a block that is
there, and `TakenUp` which certificates become `hqc`. Every call does no more than these
(`Replica.exec_blk`, `Replica.exec_hqc`), so an invariant of the cache is checked on the
constructors.
-/

namespace OptRand.Hotstuff

open Lib Relation

variable {T : PayloadTypes}

/-- The blocks that a message carries. -/
def Msg.blocks : Msg T → List (BlockContent T)
  | .propose p => [p.blk]
  | .respBlock cs => cs
  | _ => []

namespace Replica

/-- `do_propose` goes on to `on_propose`. -/
def Proposes (s : Replica T) : Prop :=
  s.pm.proposer = s.id ∧ s.lastProposedView < s.view ∧ s.viewTrans = false

/-- The content of the block that `do_propose` makes. -/
def ownContent (s : Replica T) : BlockContent T :=
  ⟨[s.pm.hqcTail], [], some s.hqc.2, s.hqc.1, s.viewAggTranscripts s.view⟩

/-- The chunks of a proposal after an echo. -/
def chunksWith (s : Replica T) (e : Echo T) : List (ℕ × Option T.Chunk) :=
  if (chunkAt (s.propChunks e.view) (toReplicaID e.idx)).isNone then
    setChunk (s.propChunks e.view) (toReplicaID e.idx) e.chunk
  else s.propChunks e.view

/-- The proposal that is decoded on an echo. -/
def decodedBy (E : Env T) (s : Replica T) (e : Echo T) : Except Error (ProposalContent T) :=
  E.dispersal.decodeProposal E.config.nreconthres (E.nreplicas - E.config.nreconthres) e.chunk
    ((List.range E.nreplicas).map (chunkAt (s.chunksWith e)))

/-- The tails, and the one that the next proposal is made on. -/
def lead (s : Replica T) : List ℕ × ℕ := (s.tails, s.pm.hqcTail)

/-- The certificate that `on_receive_vote` adds a vote to. -/
def votedQc (s : Replica T) (h : ℕ) (b : Block T) : QuorumCert :=
  match b.selfQc with
  | some qc => qc
  | none => QuorumCertSecp256k1.create h s.view

end Replica

/-- The call `fr` in the state `s` puts the block `b` into the cache, as block `h`. -/
inductive Added (E : Env T) (s : Replica T) (h : ℕ) : Frame T → Block T → Prop
  | message (peer : ℕ) (msg : Msg T) (c : BlockContent T) (hc : c ∈ msg.blocks)
      (hh : h = E.hash c) : Added E s h (.handle peer msg) (c.toBlock h)
  | decoded (e : Echo T) (p : ProposalContent T) (hp : s.decodedBy E e = .ok p)
      (hh : h = E.hash p.blk) : Added E s h (.onReceiveProposalEcho e) (p.blk.toBlock h)
  | own (parents : List ℕ) (qcRef : Option ℕ) (height : ℕ) (hh : h = E.hash s.ownContent) :
      Added E s h .doPropose
        { s.ownContent.toBlock h with parents := parents, qcRef := qcRef, height := height }

/-- The blocks that a call in the state `s` may deliver. -/
inductive Delivers (E : Env T) (s : Replica T) : Frame T → ℕ → Prop
  | waited (h : ℕ) : Delivers E s (.onDeliverBlk h) h
  | decoded (e : Echo T) (p : ProposalContent T) (hp : s.decodedBy E e = .ok p) :
      Delivers E s (.onReceiveProposalEcho e) (E.hash p.blk)
  | own (hproposes : s.Proposes) : Delivers E s .doPropose (E.hash s.ownContent)

/-- What the call `fr` in the state `s` may do to block `h`. -/
inductive Change (E : Env T) (s : Replica T) (h : ℕ) (fr : Frame T) : Block T → Block T → Prop
  | deliver (b : Block T) (p : ℕ) (ps : List ℕ) (qcRef : Option ℕ) (hnew : b.delivered = false)
      (hp : b.parentHashes = p :: ps) (hall : ∀ k ∈ p :: ps, s.isBlkDelivered k = true)
      (hdelivers : Delivers E s fr h) : Change E s h fr b { b with
        parents := p :: ps, height := s.height p + 1, qcRef := qcRef, delivered := true }
  | attempt (b : Block T) (parents : List ℕ) (height : ℕ) (hnew : b.delivered = false) :
      Change E s h fr b { b with parents := parents, height := height }
  | seen (b : Block T) : Change E s h fr b { b with view := s.view }
  | propose (b : Block T) (hfr : fr = .doPropose) (hproposes : s.Proposes)
      (hh : h = E.hash s.ownContent) :
      Change E s h fr b { b with
        view := s.view, selfQc := some (QuorumCertSecp256k1.create h s.view) }
  | cert (b : Block T) (qc : QuorumCert) (hh : qc.objHash = h)
      (hfr : (fr = .onReceiveQc qc ∧ s.view ≤ qc.view) ∨
        ∃ st, fr = .onReceiveStatus st ∧ st.qc = qc) :
      Change E s h fr b { b with selfQc := some qc }
  | vote (b : Block T) (v : Vote) (qc : QuorumCert) (hfr : fr = .onReceiveVote v)
      (hh : v.blkHash = h) (hsize : b.voted.length < E.config.nresponsive)
      (hvoter : v.voter ∉ b.voted) (hqc : (s.votedQc h b).addPart v.voter v.cert = .ok qc) :
      Change E s h fr b { b with voted := b.voted ++ [v.voter], selfQc := some qc }
  | voteFailed (b : Block T) (v : Vote) (e : Error) (hfr : fr = .onReceiveVote v)
      (hh : v.blkHash = h) (hqc : (s.votedQc h b).addPart v.voter v.cert = .error e) :
      Change E s h fr b { b with
        voted := b.voted ++ [v.voter], selfQc := some (s.votedQc h b) }
  | ack (b : Block T) (a : Ack) (hfr : fr = .onReceiveAck a) (hh : a.blkHash = h)
      (hsize : b.acked.length < E.config.nresponsive) (hvoter : a.voter ∉ b.acked)
      (hview : s.view ≤ a.view) :
      Change E s h fr b { b with acked := b.acked ++ [a.voter] }
  | decide (b : Block T) (a : Ack) (hfr : fr = .onReceiveAck a) :
      Change E s h fr b { b with decision := 1 }

/-- The call `fr` in the state `s` makes the certificate `qc` the highest. -/
inductive TakenUp (E : Env T) (s : Replica T) : Frame T → QuorumCert → Prop
  | proposal (prop : Proposal) (b : Block T) (qc : QuorumCert) (htrans : s.viewTrans = false)
      (hfinished : s.finishedPropose prop.blk = false) (hb : s.blkCache prop.blk = some b)
      (hdel : b.delivered = true) (href : b.qcRef = some qc.objHash) (hqc : b.qc = some qc) :
      TakenUp E s (.onReceiveProposal prop) qc
  | vote (v : Vote) (b : Block T) (qc : QuorumCert) (hview : s.view ≤ v.view)
      (hb : s.blkCache v.blkHash = some b) (hdel : b.delivered = true)
      (hsize : b.voted.length + 1 = E.config.nresponsive) (hvoter : v.voter ∉ b.voted)
      (hqc : (s.votedQc v.blkHash b).addPart v.voter v.cert = .ok qc)
      (hobj : qc.objHash = v.blkHash) : TakenUp E s (.onReceiveVote v) qc
  | status (st : Status) (hview : s.view ≤ st.view) (hlast : s.lastProposedView < s.view)
      (hreceived : (s.statusReceived st.view).length < E.config.nmajority)
      (hdel : s.isBlkDelivered st.qc.objHash = true) : TakenUp E s (.onReceiveStatus st) st.qc
  | cert (qc : QuorumCert) (hview : s.view ≤ qc.view) (hlast : s.lastViewCertReceived < s.view)
      (hdel : s.isBlkDelivered qc.objHash = true) : TakenUp E s (.onReceiveQc qc) qc

/-- The blocks of `s` are in `cache`, and others as far as `fr` adds them; each has changed by what
`fr` may do to it. -/
structure Evolves (E : Env T) (s : Replica T) (fr : Frame T) (cache : ℕ → Option (Block T)) :
    Prop where
  kept : ∀ k b, s.blkCache k = some b →
    ∃ b', cache k = some b' ∧ ReflTransGen (Change E s k fr) b b'
  added : ∀ k b', s.blkCache k = none → cache k = some b' →
    ∃ b, Added E s k fr b ∧ ReflTransGen (Change E s k fr) b b'

section

variable {E : Env T} {s : Replica T} {fr : Frame T} {cache : ℕ → Option (Block T)}

theorem Evolves.of_eq (h : cache = s.blkCache) : Evolves E s fr cache := by
  subst h
  refine ⟨fun k b hb => ⟨b, hb, ReflTransGen.refl⟩, ?_⟩
  intro k b hnone hb
  rw [hnone] at hb
  cases hb

theorem Evolves.refl (E : Env T) (s : Replica T) (fr : Frame T) : Evolves E s fr s.blkCache :=
  Evolves.of_eq rfl

/-- Where a block comes from. -/
theorem Evolves.origin (h : Evolves E s fr cache) {k : ℕ} {b' : Block T}
    (hb : cache k = some b') : ∃ b, (s.blkCache k = some b ∨ Added E s k fr b) ∧
      ReflTransGen (Change E s k fr) b b' := by
  cases hs : s.blkCache k with
  | none =>
    obtain ⟨b, hadd, hsteps⟩ := h.added k b' hs hb
    exact ⟨b, Or.inr hadd, hsteps⟩
  | some b =>
    obtain ⟨b'', hb'', hsteps⟩ := h.kept k b hs
    rw [hb] at hb''
    exact ⟨b, Or.inl rfl, Option.some.inj hb'' ▸ hsteps⟩

theorem Evolves.change (h : Evolves E s fr cache) {k : ℕ} {b b' : Block T}
    (hb : cache k = some b) (hchange : Change E s k fr b b') :
    Evolves E s fr (Function.update cache k (some b')) := by
  constructor
  · intro j c hc
    obtain ⟨c', hc', hsteps⟩ := h.kept j c hc
    by_cases hj : j = k
    · subst hj
      rw [Function.update_self]
      rw [hb] at hc'
      exact ⟨b', rfl, (Option.some.inj hc' ▸ hsteps).tail hchange⟩
    · rw [Function.update_of_ne hj]
      exact ⟨c', hc', hsteps⟩
  · intro j c hnone hc
    by_cases hj : j = k
    · subst hj
      rw [Function.update_self] at hc
      obtain ⟨b₀, hadd, hsteps⟩ := h.added j b hnone hb
      exact ⟨b₀, hadd, Option.some.inj hc ▸ hsteps.tail hchange⟩
    · rw [Function.update_of_ne hj] at hc
      exact h.added j c hnone hc

end

/-- What stays of a block: its content, and all that its delivery settles. -/
structure Block.Le (b b' : Block T) : Prop where
  content : b'.content = b.content
  delivered : b.delivered = true →
    b'.delivered = true ∧ b'.parents = b.parents ∧ b'.height = b.height

theorem Block.Le.refl (b : Block T) : b.Le b := ⟨rfl, fun h => ⟨h, rfl, rfl⟩⟩

theorem Block.Le.trans {b b' b'' : Block T} (h : b.Le b') (h' : b'.Le b'') : b.Le b'' := by
  refine ⟨h'.content.trans h.content, fun hdel => ?_⟩
  obtain ⟨hdel', hparents, hheight⟩ := h.delivered hdel
  obtain ⟨hdel'', hparents', hheight'⟩ := h'.delivered hdel'
  exact ⟨hdel'', hparents'.trans hparents, hheight'.trans hheight⟩

theorem Change.le {E : Env T} {s : Replica T} {h : ℕ} {fr : Frame T} {b b' : Block T}
    (hchange : Change E s h fr b b') : b.Le b' := by
  cases hchange with
  | deliver _ _ _ hnew => exact ⟨rfl, fun hdel => by simp [hnew] at hdel⟩
  | attempt _ _ hnew => exact ⟨rfl, fun hdel => by simp [hnew] at hdel⟩
  | _ => exact ⟨rfl, fun hdel => ⟨hdel, rfl, rfl⟩⟩

theorem le_of_changes {E : Env T} {s : Replica T} {h : ℕ} {fr : Frame T} {b b' : Block T}
    (hsteps : ReflTransGen (Change E s h fr) b b') : b.Le b' := by
  induction hsteps with
  | refl => exact Block.Le.refl b
  | tail _ hstep ih => exact ih.trans hstep.le

/-- A block that is delivered was so before, or is one that the call may deliver. -/
theorem delivered_of_changes {E : Env T} {s : Replica T} {h : ℕ} {fr : Frame T} {b b' : Block T}
    (hsteps : ReflTransGen (Change E s h fr) b b') (hdel : b'.delivered = true) :
    b.delivered = true ∨ Delivers E s fr h := by
  induction hsteps with
  | refl => exact Or.inl hdel
  | tail _ hstep ih =>
    cases hstep with
    | deliver p ps qcRef hnew hp hall hdelivers => exact Or.inr hdelivers
    | attempt | seen | propose | cert | vote | voteFailed | ack | decide => exact ih hdel

namespace Replica

variable {s s' : Replica T} {E : Env T}

/-! ## Blocks that are added -/

@[simp] theorem blkCache_setBlk {h : ℕ} {blk : Block T} :
    (s.setBlk h blk).blkCache = Function.update s.blkCache h (some blk) := rfl

/-- A block in the cache after a write is the one written or was there. -/
theorem blkCache_of_setBlk {h k : ℕ} {blk b : Block T} (hb : (s.setBlk h blk).blkCache k = some b) :
    (k = h ∧ b = blk) ∨ s.blkCache k = some b := by
  rw [blkCache_setBlk] at hb
  by_cases hk : k = h
  · subst hk
    rw [Function.update_self] at hb
    exact Or.inl ⟨rfl, (Option.some.inj hb).symm⟩
  · rw [Function.update_of_ne hk] at hb
    exact Or.inr hb

theorem blkCache_addBlk {blk b : Block T} {k : ℕ} (h : (s.addBlk blk).blkCache k = some b) :
    s.blkCache k = some b ∨ (k = blk.hash ∧ b = blk) := by
  unfold addBlk at h
  split at h
  · exact Or.inl h
  · exact (blkCache_of_setBlk h).symm

theorem evolves_addBlk {t : Replica T} {fr : Frame T} {blk : Block T}
    (ht : Evolves E s fr t.blkCache) (hadd : Added E s blk.hash fr blk) :
    Evolves E s fr (t.addBlk blk).blkCache := by
  unfold addBlk
  split
  · exact ht
  · rename_i hnew
    have hnone : t.blkCache blk.hash = none := by simpa [isBlkFetched] using hnew
    constructor
    · intro k b hb
      obtain ⟨b', hb', hsteps⟩ := ht.kept k b hb
      have hne : k ≠ blk.hash := by
        rintro rfl
        rw [hnone] at hb'
        cases hb'
      rw [blkCache_setBlk, Function.update_of_ne hne]
      exact ⟨b', hb', hsteps⟩
    · intro k b' hs hb'
      rcases blkCache_of_setBlk hb' with ⟨rfl, rfl⟩ | hb'
      · exact ⟨b', hadd, ReflTransGen.refl⟩
      · exact ht.added k b' hs hb'

/-! ## Delivery -/

@[simp] theorem blkCache_foldl_eraseTail {hs : List ℕ} :
    (hs.foldl eraseTail s).blkCache = s.blkCache := by
  induction hs generalizing s with
  | nil => rfl
  | cons h hs ih => exact ih

@[simp] theorem blkCache_insertTail {h : ℕ} : (s.insertTail h).blkCache = s.blkCache := by
  unfold insertTail
  split <;> rfl

theorem deliveredParents_eq {hs ps : List ℕ} (h : s.deliveredParents hs = (ps, true)) :
    ps = hs ∧ ∀ k ∈ hs, s.isBlkDelivered k = true := by
  induction hs generalizing ps with
  | nil =>
    cases h
    exact ⟨rfl, nofun⟩
  | cons k hs ih =>
    rw [deliveredParents] at h
    split at h
    · rename_i hk
      cases hrest : s.deliveredParents hs with
      | mk ps' complete =>
        rw [hrest] at h
        cases h
        obtain ⟨rfl, hall⟩ := ih hrest
        exact ⟨rfl, List.forall_mem_cons.mpr ⟨hk, hall⟩⟩
    · cases h

/-- Delivery changes one block, as long as it has not been delivered. -/
theorem deliverBlk_cases {h : ℕ} {r : Attempt T} (hr : s.deliverBlk h = r) :
    r.rep.blkCache = s.blkCache ∨
    ∃ b, s.blkCache h = some b ∧ b.delivered = false ∧
      ((∃ parents height, r.rep.blkCache = Function.update s.blkCache h
          (some { b with parents := parents, height := height })) ∨
        ∃ p ps qcRef, b.parentHashes = p :: ps ∧ (∀ k ∈ p :: ps, s.isBlkDelivered k = true) ∧
          r.rep.blkCache = Function.update s.blkCache h (some { b with
            parents := p :: ps, height := s.height p + 1, qcRef := qcRef, delivered := true })) := by
  subst hr
  unfold deliverBlk
  split
  · exact Or.inl rfl
  · rename_i b hb
    split
    · exact Or.inl rfl
    · rename_i hnew
      refine Or.inr ⟨b, hb, by simpa using hnew, ?_⟩
      cases hparents : s.deliveredParents b.parentHashes with
      | mk parents complete =>
        dsimp only
        cases complete with
        | false => exact Or.inl ⟨parents, b.height, rfl⟩
        | true =>
          obtain ⟨heq, hall⟩ := deliveredParents_eq hparents
          cases hps : parents with
          | nil => exact Or.inl ⟨[], b.height, rfl⟩
          | cons p ps =>
            have hp : b.parentHashes = p :: ps := heq.symm.trans hps
            dsimp only
            split
            · rename_i hcomplete
              cases hcomplete
            · split
              · exact Or.inl ⟨p :: ps, s.height p + 1, rfl⟩
              · refine Or.inr ⟨p, ps, if b.qc.isSome then some b.qcRefHash else b.qcRef, hp,
                  hp ▸ hall, ?_⟩
                simp only [Attempt.rep, blkCache_insertTail, blkCache_foldl_eraseTail,
                  blkCache_setBlk]

theorem isBlkDelivered_iff {k : ℕ} :
    s.isBlkDelivered k = true ↔ ∃ b, s.blkCache k = some b ∧ b.delivered = true := by
  unfold isBlkDelivered
  cases s.blkCache k <;> simp

theorem height_eq {k : ℕ} {b : Block T} (h : s.blkCache k = some b) : s.height k = b.height := by
  unfold height
  rw [h]

/-- The blocks that are delivered in `t` are delivered in `s`, at the same height. -/
def DeliversNoMore (s t : Replica T) : Prop :=
  ∀ k b', t.blkCache k = some b' → b'.delivered = true →
    ∃ b, s.blkCache k = some b ∧ b.delivered = true ∧ b.height = b'.height

theorem deliversNoMore_of_eq {t : Replica T} (h : t.blkCache = s.blkCache) :
    DeliversNoMore s t :=
  fun _ b hb hdel => ⟨b, h ▸ hb, hdel, rfl⟩

theorem DeliversNoMore.addBlk {t : Replica T} {blk : Block T} (ht : DeliversNoMore s t)
    (hnew : blk.delivered = false) : DeliversNoMore s (t.addBlk blk) := by
  intro k b hb hdel
  rcases blkCache_addBlk hb with hb | ⟨-, rfl⟩
  · exact ht k b hb hdel
  · rw [hnew] at hdel
    cases hdel

theorem DeliversNoMore.modifyBlk {t : Replica T} {h : ℕ} {f : Block T → Block T}
    (ht : DeliversNoMore s t)
    (hf : ∀ b, (f b).delivered = b.delivered ∧ (f b).height = b.height) :
    DeliversNoMore s (t.modifyBlk h f) := by
  intro k b hb hdel
  unfold Replica.modifyBlk at hb
  split at hb
  · rename_i b₀ hb₀
    rcases blkCache_of_setBlk hb with ⟨rfl, rfl⟩ | hb
    · rw [(hf b₀).1] at hdel
      rw [(hf b₀).2]
      exact ht k b₀ hb₀ hdel
    · exact ht k b hb hdel
  · exact ht k b hb hdel

/-- Delivery in a state `t` that a call has reached, if it has delivered nothing before. -/
theorem evolves_deliverBlk {t : Replica T} {fr : Frame T} (ht : Evolves E s fr t.blkCache)
    (hmore : DeliversNoMore s t) {h : ℕ} (hdelivers : Delivers E s fr h) :
    Evolves E s fr (t.deliverBlk h).rep.blkCache := by
  have hold : ∀ k, t.isBlkDelivered k = true →
      s.isBlkDelivered k = true ∧ t.height k = s.height k := by
    intro k hk
    obtain ⟨b, hb, hdel⟩ := isBlkDelivered_iff.mp hk
    obtain ⟨b₀, hb₀, hdel₀, hheight⟩ := hmore k b hb hdel
    rw [height_eq hb, height_eq hb₀, hheight]
    exact ⟨isBlkDelivered_iff.mpr ⟨b₀, hb₀, hdel₀⟩, rfl⟩
  rcases deliverBlk_cases (s := t) (h := h) rfl with heq |
    ⟨b, hb, hnew, ⟨parents, height, heq⟩ | ⟨p, ps, qcRef, hp, hall, heq⟩⟩
  · rw [heq]
    exact ht
  · rw [heq]
    exact ht.change hb (Change.attempt b parents height hnew)
  · rw [heq, (hold p (hall p List.mem_cons_self)).2]
    exact ht.change hb
      (Change.deliver b p ps qcRef hnew hp (fun k hk => (hold k (hall k hk)).1) hdelivers)

/-! ## Certificates -/

theorem blkCache_updateHqc {h : ℕ} {qc : QuorumCert} :
    (s.updateHqc h qc).rep.blkCache = s.blkCache := by
  obtain ⟨hqc, tail, heq⟩ := updateHqc_writes (s := s) h qc
  rw [heq]

theorem bExec_updateHqc {h : ℕ} {qc : QuorumCert} :
    (s.updateHqc h qc).rep.bExec = s.bExec := by
  obtain ⟨hqc, tail, heq⟩ := updateHqc_writes (s := s) h qc
  rw [heq]

theorem hqc_updateHqc {h : ℕ} {qc : QuorumCert} :
    (s.updateHqc h qc).rep.hqc = s.hqc ∨
      ((s.updateHqc h qc).rep.hqc = (h, qc) ∧ qc.objHash = h ∧ s.hqc.2.view < qc.view) := by
  rcases s.updateHqc_cases h qc with ⟨e, heq⟩ | ⟨-, -, heq⟩ | ⟨hobj, hview, hpm⟩
  · rw [heq]
    exact Or.inl rfl
  · rw [heq]
    exact Or.inl rfl
  · exact Or.inr ⟨congrArg Chain.hqc hpm.chain, hobj, hview⟩

theorem le_of_updateHqc {h : ℕ} {qc : QuorumCert} (hs : s.updateHqc h qc = .ok s') :
    qc.objHash = h ∧ qc.view ≤ s'.hqc.2.view := by
  rcases s.updateHqc_cases h qc with ⟨e, heq⟩ | ⟨hobj, hview, heq⟩ | ⟨hobj, hview, hpm⟩
  · rw [heq] at hs
    cases hs
  · rw [heq] at hs
    cases hs
    exact ⟨hobj, hview⟩
  · rw [hs] at hpm
    have hhqc : s'.hqc = (h, qc) := congrArg Chain.hqc hpm.chain
    rw [hhqc]
    exact ⟨hobj, le_rfl⟩

theorem getBlk_eq_ok {h : ℕ} {b : Block T} : s.getBlk h = .ok b ↔ s.blkCache h = some b := by
  unfold getBlk
  cases s.blkCache h with
  | none => exact ⟨nofun, nofun⟩
  | some b' => simp only [Except.ok.injEq, Option.some.injEq]

theorem getDeliveredBlk_ok {h : ℕ} {b : Block T} (hb : s.getDeliveredBlk h = .ok b) :
    s.blkCache h = some b ∧ b.delivered = true := by
  unfold getDeliveredBlk at hb
  split at hb
  · rename_i b' hcache
    split at hb
    · rename_i hdel
      cases hb
      exact ⟨hcache, hdel⟩
    · cases hb
  · cases hb

/-- The effect of a call that ends with `update_hqc` and what follows on it. -/
structure Updates (s : Replica T) (h : ℕ) (qc : QuorumCert) (o : Outcome T) : Prop where
  blkCache : o.rep.blkCache = s.blkCache
  bExec : o.rep.bExec = s.bExec
  hqc : o.rep.hqc = s.hqc ∨ (o.rep.hqc = (h, qc) ∧ qc.objHash = h ∧ s.hqc.2.view < qc.view)
  calls : o.calls = [] ∨ (qc.objHash = h ∧ qc.view ≤ o.rep.hqc.2.view)
  attempt : o.error ≠ none ∨
    ∃ s', s.updateHqc h qc = .ok s' ∧ o.rep.hqc = s'.hqc ∧ o.rep.lead = s'.lead

theorem updates_andThen {h : ℕ} {qc : QuorumCert} {k : Replica T → Outcome T}
    (hk : ∀ s, (k s).rep.chain = s.chain ∧ (k s).rep.lead = s.lead) :
    Updates s h qc ((s.updateHqc h qc).andThen k) := by
  have hchain := rep_andThen chain (r := s.updateHqc h qc) fun s => (hk s).1
  refine ⟨?_, ?_, ?_, ?_, ?_⟩
  · exact (congrArg Chain.blkCache hchain).trans blkCache_updateHqc
  · exact (congrArg Chain.bExec hchain).trans bExec_updateHqc
  · have hhqc : ((s.updateHqc h qc).andThen k).rep.hqc = (s.updateHqc h qc).rep.hqc :=
      congrArg Chain.hqc hchain
    rw [hhqc]
    exact hqc_updateHqc
  · cases hr : s.updateHqc h qc with
    | error e => exact Or.inl rfl
    | ok s' =>
      obtain ⟨hobj, hle⟩ := le_of_updateHqc hr
      refine Or.inr ⟨hobj, ?_⟩
      have hhqc : (k s').rep.hqc = s'.hqc := congrArg Chain.hqc (hk s').1
      rw [Attempt.andThen, hhqc]
      exact hle
  · cases hr : s.updateHqc h qc with
    | error e => exact Or.inl (Option.some_ne_none _)
    | ok s' => exact Or.inr ⟨s', rfl, congrArg Chain.hqc (hk s').1, (hk s').2⟩

/-- What a vote does: it is dropped, or counted in its block. -/
theorem onReceiveVote_cases {v : Vote} {o : Outcome T} (ho : s.onReceiveVote E v = o) :
    (o.rep = s ∧ o.calls = []) ∨
    ∃ b, s.view ≤ v.view ∧ s.blkCache v.blkHash = some b ∧ b.delivered = true ∧
      b.voted.length < E.config.nresponsive ∧ v.voter ∉ b.voted ∧
      ((∃ e, (s.votedQc v.blkHash b).addPart v.voter v.cert = .error e ∧ o.calls = [] ∧
        o.rep = s.setBlk v.blkHash { b with
          voted := b.voted ++ [v.voter], selfQc := some (s.votedQc v.blkHash b) }) ∨
      ∃ qc t, (s.votedQc v.blkHash b).addPart v.voter v.cert = .ok qc ∧
        (t.chain = { s.chain with blkCache := Function.update s.blkCache v.blkHash (some { b with
          voted := b.voted ++ [v.voter], selfQc := some qc }) } ∧ t.lead = s.lead) ∧
        ((o.rep = t ∧ o.calls = []) ∨
          (b.voted.length + 1 = E.config.nresponsive ∧ Updates t v.blkHash qc o ∧
            (o.calls = [] ∨ o.calls =
              [.onQcFinish v.blkHash, .broadcastQc v.blkHash, .ack v.blkHash])))) := by
  subst ho
  unfold onReceiveVote
  dsimp only
  split
  · exact Or.inl ⟨rfl, rfl⟩
  · rename_i hview
    split
    · exact Or.inl ⟨rfl, rfl⟩
    · rename_i b hb
      obtain ⟨hcache, hdel⟩ := getDeliveredBlk_ok hb
      split
      · exact Or.inl ⟨rfl, rfl⟩
      · rename_i hsize
        split
        · exact Or.inl ⟨rfl, rfl⟩
        · rename_i hvoter
          refine Or.inr ⟨b, not_lt.mp hview, hcache, hdel, not_le.mp hsize, hvoter, ?_⟩
          split
          · rename_i e hadd
            exact Or.inl ⟨e, hadd, rfl, rfl⟩
          · rename_i qc hadd
            have hchain : ∀ b₁ b₂ : Block T,
                ((s.setBlk v.blkHash b₁).setBlk v.blkHash b₂).chain = { s.chain with
                  blkCache := Function.update s.blkCache v.blkHash (some b₂) } := by
              intro b₁ b₂
              simp only [chain, setBlk, Function.update_idem]
            refine Or.inr ⟨qc, _, hadd, ⟨hchain { b with
              voted := b.voted ++ [v.voter], selfQc := some (s.votedQc v.blkHash b) } _, rfl⟩, ?_⟩
            split
            · rename_i hfull
              refine Or.inr ⟨hfull, updates_andThen fun _ => ⟨rfl, rfl⟩, ?_⟩
              unfold Attempt.andThen
              split
              · exact Or.inr rfl
              · exact Or.inl rfl
            · exact Or.inl ⟨rfl, rfl⟩

/-- What a status does: it is dropped, or its certificate is noted in its block. -/
theorem onReceiveStatus_cases {st : Status} {o : Outcome T} (ho : s.onReceiveStatus E st = o) :
    (o.rep = s ∧ o.calls = []) ∨
    ∃ b, s.view ≤ st.view ∧ s.lastProposedView < s.view ∧
      (s.statusReceived st.view).length < E.config.nmajority ∧
      s.blkCache st.qc.objHash = some b ∧ b.delivered = true ∧
      Updates (s.setBlk st.qc.objHash { b with selfQc := some st.qc }) st.qc.objHash st.qc o := by
  subst ho
  unfold onReceiveStatus
  dsimp only
  split
  · exact Or.inl ⟨rfl, rfl⟩
  · rename_i hguard
    obtain ⟨hview, hlast⟩ := not_or.mp hguard
    split
    · exact Or.inl ⟨rfl, rfl⟩
    · rename_i hreceived
      split
      · exact Or.inl ⟨rfl, rfl⟩
      · rename_i b hb
        obtain ⟨hcache, hdel⟩ := getDeliveredBlk_ok hb
        refine Or.inr ⟨b, not_lt.mp hview, not_le.mp hlast, not_le.mp hreceived, hcache, hdel,
          updates_andThen fun s => ?_⟩
        repeat' split
        all_goals exact ⟨rfl, rfl⟩

/-- What a certificate does: it is dropped, or noted in its block. -/
theorem onReceiveQc_cases {qc : QuorumCert} {o : Outcome T} (ho : s.onReceiveQc E qc = o) :
    (o.rep.chain = s.chain ∧ o.rep.lead = s.lead ∧ o.calls = []) ∨
    ∃ b t, s.view ≤ qc.view ∧ s.lastViewCertReceived < s.view ∧
      s.blkCache qc.objHash = some b ∧ b.delivered = true ∧
      (t.chain = (s.setBlk qc.objHash { b with selfQc := some qc }).chain ∧ t.lead = s.lead) ∧
      Updates t qc.objHash qc o ∧
      (o.calls = [] ∨ o.calls = [.onReceiveQc_, .ack qc.objHash, .tryEnterView]) := by
  subst ho
  unfold onReceiveQc
  split
  · exact Or.inl ⟨rfl, rfl, rfl⟩
  · rename_i hguard
    obtain ⟨hview, hlast⟩ := not_or.mp hguard
    dsimp only
    split
    · exact Or.inl ⟨rfl, rfl, rfl⟩
    · rename_i b hb
      refine Or.inr ⟨b, _, not_lt.mp hview, not_le.mp hlast, (getDeliveredBlk_ok hb).1,
        (getDeliveredBlk_ok hb).2, ?_, updates_andThen fun s => ⟨rfl, rfl⟩, ?_⟩
      · exact ⟨rfl, rfl⟩
      · unfold Attempt.andThen
        split
        · exact Or.inr rfl
        · exact Or.inl rfl

theorem lead_judge {prop : Proposal} {bnew : Block T} : (judge prop bnew s).rep.lead = s.lead := by
  obtain ⟨_, _, h⟩ := rep_judge prop bnew s
  rw [h]
  rfl

/-- What a proposal does to the blocks and to the highest certificate. -/
theorem onReceiveProposal_cases {prop : Proposal} {o : Outcome T}
    (ho : s.onReceiveProposal prop = o) :
    (o.rep.chain = s.chain ∧ o.rep.lead = s.lead) ∨
    ∃ b ref qc, (s.viewTrans = false ∧ s.finishedPropose prop.blk = false) ∧
      s.blkCache prop.blk = some b ∧ b.delivered = true ∧ b.qcRef = some ref ∧ b.qc = some qc ∧
      Updates s ref qc o := by
  subst ho
  rcases onReceiveProposal_judge s prop with ⟨err, h⟩ | ⟨b, htakes, hb, hdel, h⟩
  · rw [h]
    exact Or.inl ⟨rfl, rfl⟩
  · have hjudge : ∀ t : Replica T, (judge prop b t).rep.chain = t.chain ∧
        (judge prop b t).rep.lead = t.lead := fun t => ⟨chain_judge, lead_judge⟩
    rw [h]
    unfold adopt
    split
    · rename_i ref qc href hqc
      exact Or.inr ⟨b, ref, qc, htakes, hb, hdel, href, hqc, updates_andThen hjudge⟩
    · exact Or.inl ⟨rfl, rfl⟩
    · exact Or.inl (hjudge s)

/-- What an acknowledgement does: it is dropped, or counted in its block, and the last one
commits. -/
theorem onReceiveAck_cases {a : Ack} {o : Outcome T} (ho : s.onReceiveAck E a = o) :
    (o.rep = s ∧ o.out = []) ∨
    ∃ b, s.view ≤ a.view ∧ s.blkCache a.blkHash = some b ∧ b.delivered = true ∧
      b.acked.length < E.config.nresponsive ∧ a.voter ∉ b.acked ∧
      ((o.rep = s.setBlk a.blkHash { b with acked := b.acked ++ [a.voter] } ∧ o.out = []) ∨
        b.acked.length + 1 = E.config.nresponsive ∧ ∃ s' executed,
          (s.setBlk a.blkHash { b with acked := b.acked ++ [a.voter] }).checkCommit E a.blkHash =
            .ok (s', executed) ∧ o.rep = s' ∧ o.out = executed.map .consensus) := by
  subst ho
  unfold onReceiveAck
  split
  · exact Or.inl ⟨rfl, rfl⟩
  · rename_i hview
    split
    · exact Or.inl ⟨rfl, rfl⟩
    · rename_i b hb
      dsimp only
      split
      · exact Or.inl ⟨rfl, rfl⟩
      · rename_i hsize
        split
        · exact Or.inl ⟨rfl, rfl⟩
        · rename_i hvoter
          refine Or.inr ⟨b, not_lt.mp hview, (getDeliveredBlk_ok hb).1, (getDeliveredBlk_ok hb).2,
            not_le.mp hsize, hvoter, ?_⟩
          split
          · rename_i hfull
            split
            · exact Or.inl ⟨rfl, rfl⟩
            · rename_i s' executed hcommit
              exact Or.inr ⟨hfull, s', executed, hcommit, rfl, rfl⟩
          · exact Or.inl ⟨rfl, rfl⟩

theorem blkCache_onConsensus {h : ℕ} : (s.onConsensus E h).blkCache = s.blkCache :=
  congrArg Chain.blkCache pmStep_onConsensus.chain

theorem evolves_commitBlocks {t : Replica T} {a : Ack}
    (ht : Evolves E s (.onReceiveAck a) t.blkCache) (queue : List ℕ) :
    Evolves E s (.onReceiveAck a) (t.commitBlocks E queue).blkCache := by
  induction queue generalizing t with
  | nil => exact ht
  | cons h queue ih =>
    refine ih ?_
    rw [blkCache_onConsensus]
    unfold Replica.modifyBlk
    split
    · rename_i b hb
      exact ht.change hb (Change.decide b a rfl)
    · exact ht

/-! ## Branches -/

theorem walkTo_congr (h : s'.blkCache = s.blkCache) (height fuel b : ℕ) :
    s'.walkTo height fuel b = s.walkTo height fuel b := by
  induction fuel generalizing b with
  | zero => simp only [walkTo, getBlk, h]
  | succ fuel ih => simp only [walkTo, getBlk, h, ih]

theorem branchAt_congr (h : s'.blkCache = s.blkCache) (a b : ℕ) :
    s'.branchAt a b = s.branchAt a b := by
  simp only [branchAt, getBlk, h, walkTo_congr h]

/-! ## Messages and own proposals -/

theorem evolves_handle {peer : ℕ} {msg : Msg T} :
    Evolves E s (.handle peer msg) (s.handle E peer msg).rep.blkCache := by
  have hreceive : ∀ cs : List (BlockContent T), (∀ c ∈ cs, c ∈ msg.blocks) →
      Evolves E s (.handle peer msg) (cs.foldl (receiveBlk E) s).blkCache := by
    intro cs hcs
    have hfold : ∀ t : Replica T, Evolves E s (.handle peer msg) t.blkCache →
        Evolves E s (.handle peer msg) (cs.foldl (receiveBlk E) t).blkCache := by
      induction cs with
      | nil => exact fun t ht => ht
      | cons c cs ih =>
        intro t ht
        refine ih (fun c hc => hcs c (List.mem_cons_of_mem _ hc)) _ (evolves_addBlk ht ?_)
        exact Added.message peer msg c (hcs c List.mem_cons_self) rfl
    exact hfold s (Evolves.refl E s _)
  cases msg <;> simp only [handle]
  case propose p => exact hreceive [p.blk] fun c hc => hc
  case respBlock cs => exact hreceive cs fun c hc => hc
  case reqBlock hs =>
    split
    · exact Evolves.refl E s _
    · obtain ⟨waiting, hfetch⟩ := fetchAll_writes (s := s) hs
      change Evolves E s _ (s.fetchAll hs).1.blkCache
      rw [hfetch]
      exact Evolves.refl E s _
  all_goals exact Evolves.refl E s _

theorem evolves_onDeliverBlk {h : ℕ} :
    Evolves E s (.onDeliverBlk h) (s.onDeliverBlk h).rep.blkCache := by
  unfold onDeliverBlk
  split
  · exact Evolves.refl E s _
  · split
    · exact Evolves.refl E s _
    · split
      · exact Evolves.refl E s _
      · rw [rep_andThen Replica.blkCache]
        · exact evolves_deliverBlk (Evolves.refl E s _) (deliversNoMore_of_eq rfl) (Delivers.waited h)
        · intro s
          split <;> rfl

/-- An echo does nothing to the blocks, or adds the block of the decoded proposal and delivers
it. -/
theorem onReceiveProposalEcho_cases {e : Echo T} {o : Outcome T}
    (ho : s.onReceiveProposalEcho E e = o) :
    (o.rep.chain = s.chain ∧ o.calls = []) ∨
    ∃ (p : ProposalContent T) (t : Replica T), s.decodedBy E e = .ok p ∧ t.chain = s.chain ∧
      o = ((t.addBlk (p.blk.toBlock (E.hash p.blk))).deliverBlk (E.hash p.blk)).andThen
        fun s => s.call [.onReceiveProposal ⟨p.proposer, E.hash p.blk, p.view⟩] := by
  subst ho
  rcases onReceiveProposalEcho_eq (s := s) (E := E) e with ⟨-, h⟩ | ⟨-, -, h⟩ | ⟨-, h⟩
  · rw [h]
    exact Or.inl ⟨rfl, rfl⟩
  · rw [h]
    exact Or.inl ⟨rfl, rfl⟩
  · rw [h]
    split
    · exact Or.inl ⟨rfl, rfl⟩
    · rename_i p hp
      exact Or.inr ⟨p, (s.proposalDecoding e).eraseChunks e.view, hp, rfl, rfl⟩

theorem evolves_onReceiveProposalEcho {e : Echo T} :
    Evolves E s (.onReceiveProposalEcho e) (s.onReceiveProposalEcho E e).rep.blkCache := by
  rcases onReceiveProposalEcho_cases (rfl : s.onReceiveProposalEcho E e = _) with
    ⟨h, -⟩ | ⟨p, t, hp, ht, h⟩
  · have hcache : (s.onReceiveProposalEcho E e).rep.blkCache = s.blkCache :=
      congrArg Chain.blkCache h
    rw [hcache]
    exact Evolves.refl E s _
  · have hcache : t.blkCache = s.blkCache := congrArg Chain.blkCache ht
    rw [h, rep_andThen Replica.blkCache fun _ => rfl]
    refine evolves_deliverBlk ?_ ((deliversNoMore_of_eq hcache).addBlk rfl) (Delivers.decoded e p hp)
    exact evolves_addBlk (Evolves.of_eq hcache) (Added.decoded e p hp rfl)

/-- The state in which `on_propose` delivers its block. -/
def withOwnBlk (E : Env T) (s : Replica T) (t : Replica T) (height : ℕ) : Replica T :=
  (t.addBlk { s.ownContent.toBlock (E.hash s.ownContent) with
    parents := [s.pm.hqcTail], qcRef := some s.hqc.1, height := height }).modifyBlk
      (E.hash s.ownContent) fun b => { b with
        view := s.view, selfQc := some (QuorumCertSecp256k1.create (E.hash s.ownContent) s.view) }

/-- `do_propose` does nothing to the blocks, or adds its block and delivers it. -/
theorem doPropose_cases {o : Outcome T} (ho : s.doPropose E = o) :
    o.rep.chain = s.chain ∨
    ∃ (t : Replica T) (height : ℕ) (k : Replica T → Outcome T), s.Proposes ∧ t.chain = s.chain ∧
      (∀ s, (k s).rep.chain = s.chain) ∧
      o = ((withOwnBlk E s t height).deliverBlk (E.hash s.ownContent)).andThen k := by
  subst ho
  unfold doPropose
  split
  · exact Or.inl rfl
  · rename_i hguard
    unfold onPropose
    split
    · exact Or.inl rfl
    · rename_i htrans
      have hproposes : s.Proposes := by
        obtain ⟨hproposer, hlast⟩ := not_or.mp hguard
        exact ⟨not_not.mp hproposer, not_le.mp hlast, by simpa using htrans⟩
      have hview : ∀ (t : Replica T) blk, (t.addBlk blk).view = t.view :=
        fun t blk => congrArg Views.view views_addBlk
      simp only [hview]
      refine Or.inr ⟨[s.pm.hqcTail].foldl eraseTail { s with proposeTimer := false },
        ([s.pm.hqcTail].foldl eraseTail { s with proposeTimer := false }).height s.pm.hqcTail + 1,
        _, hproposes, rfl, fun s => ?_, rfl⟩
      split <;> rfl

theorem evolves_doPropose : Evolves E s .doPropose (s.doPropose E).rep.blkCache := by
  rcases doPropose_cases (rfl : s.doPropose E = _) with h | ⟨t, height, k, hproposes, ht, hk, h⟩
  · have hcache : (s.doPropose E).rep.blkCache = s.blkCache := congrArg Chain.blkCache h
    rw [hcache]
    exact Evolves.refl E s _
  · have hcache : t.blkCache = s.blkCache := congrArg Chain.blkCache ht
    rw [h, rep_andThen Replica.blkCache fun s => (congrArg Chain.blkCache (hk s) :)]
    refine evolves_deliverBlk ?_ ?_ (Delivers.own hproposes)
    · have hadd : Evolves E s .doPropose (t.addBlk { s.ownContent.toBlock (E.hash s.ownContent) with
          parents := [s.pm.hqcTail], qcRef := some s.hqc.1, height := height }).blkCache :=
        evolves_addBlk (Evolves.of_eq hcache) (Added.own _ _ _ rfl)
      unfold withOwnBlk Replica.modifyBlk
      split
      · rename_i b hb
        exact hadd.change hb (Change.propose b rfl hproposes rfl)
      · exact hadd
    · exact ((deliversNoMore_of_eq hcache).addBlk rfl).modifyBlk fun b => ⟨rfl, rfl⟩

/-! ## One call -/

theorem evolves_onReceiveVote {v : Vote} :
    Evolves E s (.onReceiveVote v) (s.onReceiveVote E v).rep.blkCache := by
  rcases onReceiveVote_cases (rfl : s.onReceiveVote E v = _) with
    ⟨h, -⟩ | ⟨b, -, hb, -, hsize, hvoter, ⟨e, hadd, -, h⟩ | ⟨qc, t, hadd, ⟨ht, -⟩, h⟩⟩
  · exact Evolves.of_eq (congrArg Replica.blkCache h)
  · rw [h]
    exact (Evolves.refl E s _).change hb (Change.voteFailed b v e rfl rfl hadd)
  · have hcache : (s.onReceiveVote E v).rep.blkCache = t.blkCache := by
      rcases h with ⟨h, -⟩ | ⟨-, h, -⟩
      · rw [h]
      · exact h.blkCache
    have hvote : t.blkCache = Function.update s.blkCache v.blkHash (some { b with
        voted := b.voted ++ [v.voter], selfQc := some qc }) := congrArg Chain.blkCache ht
    rw [hcache, hvote]
    exact (Evolves.refl E s _).change hb (Change.vote b v qc rfl rfl hsize hvoter hadd)

theorem evolves_onReceiveStatus {st : Status} :
    Evolves E s (.onReceiveStatus st) (s.onReceiveStatus E st).rep.blkCache := by
  rcases onReceiveStatus_cases (rfl : s.onReceiveStatus E st = _) with
    ⟨h, -⟩ | ⟨b, -, -, -, hb, -, h⟩
  · exact Evolves.of_eq (congrArg Replica.blkCache h)
  · rw [h.blkCache]
    exact (Evolves.refl E s _).change hb (Change.cert b st.qc rfl (Or.inr ⟨st, rfl, rfl⟩))

theorem evolves_onReceiveQc {qc : QuorumCert} :
    Evolves E s (.onReceiveQc qc) (s.onReceiveQc E qc).rep.blkCache := by
  rcases onReceiveQc_cases (rfl : s.onReceiveQc E qc = _) with
    ⟨h, -⟩ | ⟨b, t, hview, -, hb, -, ⟨ht, -⟩, h, -⟩
  · exact Evolves.of_eq (congrArg Chain.blkCache h)
  · have hcert : t.blkCache = Function.update s.blkCache qc.objHash (some { b with
        selfQc := some qc }) := congrArg Chain.blkCache ht
    rw [h.blkCache, hcert]
    exact (Evolves.refl E s _).change hb (Change.cert b qc rfl (Or.inl ⟨rfl, hview⟩))

theorem evolves_onReceiveAck {a : Ack} :
    Evolves E s (.onReceiveAck a) (s.onReceiveAck E a).rep.blkCache := by
  rcases onReceiveAck_cases (rfl : s.onReceiveAck E a = _) with
    ⟨h, -⟩ | ⟨b, hview, hb, -, hsize, hvoter, h⟩
  · exact Evolves.of_eq (congrArg Replica.blkCache h)
  · have hack : Evolves E s (.onReceiveAck a)
        (s.setBlk a.blkHash { b with acked := b.acked ++ [a.voter] }).blkCache :=
      (Evolves.refl E s _).change hb (Change.ack b a rfl rfl hsize hvoter hview)
    rcases h with ⟨h, -⟩ | ⟨-, s', executed, hcommit, h, -⟩
    · rw [h]
      exact hack
    · obtain ⟨-, -, queue, -, -, -, -, -, -, -, -, rfl⟩ := checkCommit_eq_ok hcommit
      rw [h]
      exact evolves_commitBlocks hack queue.reverse

theorem exec_evolves (fr : Frame T) : Evolves E s fr (s.exec E fr).rep.blkCache := by
  cases fr
  case handle => exact evolves_handle
  case onDeliverBlk => exact evolves_onDeliverBlk
  case checkAggregation prop opinion =>
    rcases checkAggregation_cases rfl with ⟨h, -⟩ | ⟨b, hb, -, -, h, -⟩
    · exact Evolves.of_eq (congrArg Chain.blkCache h.2)
    · have hcache := congrArg Chain.blkCache h
      change (s.checkAggregation E prop opinion).rep.blkCache = _ at hcache
      rw [exec, hcache]
      exact (Evolves.refl E s _).change hb (Change.seen b)
  case onReceiveVote => exact evolves_onReceiveVote
  case onReceiveStatus => exact evolves_onReceiveStatus
  case onReceiveQc => exact evolves_onReceiveQc
  case onReceiveAck => exact evolves_onReceiveAck
  case onReceiveProposalEcho => exact evolves_onReceiveProposalEcho
  case doPropose => exact evolves_doPropose
  all_goals
    rw [exec_patch]
    exact Evolves.refl E s _

/-- No call removes a block or changes its content. -/
theorem exec_blk_le (fr : Frame T) {h : ℕ} {b : Block T} (hb : s.blkCache h = some b) :
    ∃ b', (s.exec E fr).rep.blkCache h = some b' ∧ b.Le b' := by
  obtain ⟨b', hb', hsteps⟩ := (exec_evolves fr).kept h b hb
  exact ⟨b', hb', le_of_changes hsteps⟩

/-- The highest certificate and the block executed last. -/
def tops (s : Replica T) : (ℕ × QuorumCert) × ℕ := (s.hqc, s.bExec)

/-- A certificate is taken up with a proposal, a vote, a status or itself, and blocks are executed
with an acknowledgement. -/
theorem exec_tops (fr : Frame T) : (s.exec E fr).rep.tops = s.tops ∨
    (∃ prop, fr = .onReceiveProposal prop) ∨ (∃ v, fr = .onReceiveVote v) ∨
    (∃ st, fr = .onReceiveStatus st) ∨ (∃ qc, fr = .onReceiveQc qc) ∨
    ∃ a, fr = .onReceiveAck a := by
  cases fr
  case onReceiveProposal prop => exact Or.inr (Or.inl ⟨prop, rfl⟩)
  case onReceiveVote v => exact Or.inr (Or.inr (Or.inl ⟨v, rfl⟩))
  case onReceiveStatus st => exact Or.inr (Or.inr (Or.inr (Or.inl ⟨st, rfl⟩)))
  case onReceiveQc qc => exact Or.inr (Or.inr (Or.inr (Or.inr (Or.inl ⟨qc, rfl⟩))))
  case onReceiveAck a => exact Or.inr (Or.inr (Or.inr (Or.inr (Or.inr ⟨a, rfl⟩))))
  all_goals
    left
    rw [exec_patch]
    rfl

/-- A call leaves the highest certificate, or takes up one of a higher view. -/
theorem exec_hqc (fr : Frame T) : (s.exec E fr).rep.hqc = s.hqc ∨
    ∃ qc, TakenUp E s fr qc ∧ s.hqc.2.view < qc.view ∧
      (s.exec E fr).rep.hqc = (qc.objHash, qc) := by
  have hupdates : ∀ {t : Replica T} {h : ℕ} {qc : QuorumCert} {o : Outcome T}, Updates t h qc o →
      t.hqc = s.hqc → (qc.objHash = h → TakenUp E s fr qc) → o.rep.hqc = s.hqc ∨
        ∃ qc, TakenUp E s fr qc ∧ s.hqc.2.view < qc.view ∧ o.rep.hqc = (qc.objHash, qc) := by
    intro t h qc o hup ht htaken
    rcases hup.hqc with h | ⟨h, rfl, hview⟩
    · exact Or.inl (h.trans ht)
    · exact Or.inr ⟨qc, htaken rfl, ht ▸ hview, h⟩
  rcases exec_tops (s := s) (E := E) fr with
    h | ⟨prop, rfl⟩ | ⟨v, rfl⟩ | ⟨st, rfl⟩ | ⟨qc, rfl⟩ | ⟨a, rfl⟩
  · exact Or.inl (congrArg Prod.fst h)
  · rcases onReceiveProposal_cases (rfl : s.onReceiveProposal prop = _) with
      ⟨h, -⟩ | ⟨b, ref, qc, ⟨htrans, hfinished⟩, hb, hdel, href, hqc, h⟩
    · exact Or.inl (congrArg Chain.hqc h)
    · exact hupdates h rfl fun hobj =>
        TakenUp.proposal prop b qc htrans hfinished hb hdel (hobj ▸ href) hqc
  · rcases onReceiveVote_cases (rfl : s.onReceiveVote E v = _) with
      ⟨h, -⟩ | ⟨b, hview, hb, hdel, -, hvoter, ⟨-, -, -, h⟩ |
        ⟨qc, t, hadd, ⟨ht, -⟩, ⟨h, -⟩ | ⟨hsize, h, -⟩⟩⟩
    · exact Or.inl (congrArg Replica.hqc h)
    · exact Or.inl (congrArg Replica.hqc h :)
    · exact Or.inl ((congrArg Replica.hqc h).trans (congrArg Chain.hqc ht))
    · exact hupdates h (congrArg Chain.hqc ht) (TakenUp.vote v b qc hview hb hdel hsize hvoter hadd)
  · rcases onReceiveStatus_cases (rfl : s.onReceiveStatus E st = _) with
      ⟨h, -⟩ | ⟨b, hview, hlast, hreceived, hb, hdel, h⟩
    · exact Or.inl (congrArg Replica.hqc h)
    · exact hupdates h rfl fun _ =>
        TakenUp.status st hview hlast hreceived (isBlkDelivered_iff.mpr ⟨b, hb, hdel⟩)
  · rcases onReceiveQc_cases (rfl : s.onReceiveQc E qc = _) with
      ⟨h, -⟩ | ⟨b, t, hview, hlast, hb, hdel, ⟨ht, -⟩, h, -⟩
    · exact Or.inl (congrArg Chain.hqc h)
    · exact hupdates h (congrArg Chain.hqc ht) fun _ =>
        TakenUp.cert qc hview hlast (isBlkDelivered_iff.mpr ⟨b, hb, hdel⟩)
  · left
    rw [exec_patch]
    rfl

/-- Only an acknowledgement moves the block executed last. -/
theorem exec_bExec {fr : Frame T} (hack : ∀ a, fr ≠ .onReceiveAck a) :
    (s.exec E fr).rep.bExec = s.bExec := by
  rw [exec_patch]
  cases fr <;> first | rfl | exact absurd rfl (hack _)

end Replica

end OptRand.Hotstuff
