import OptRand.Hotstuff.HighTail
import OptRand.Hotstuff.Statuses

/-!
# Walks to the genesis block

Delivery reads `parents[0]`, and nothing before it looks at how many parents a received block has: a
block without parents is undefined behaviour (`System.parentless_block`). Such blocks apart, every
read of `parents[0]` is of a block that has been delivered on top of another one. From a delivered
block the genesis block is as many steps away as the block is high, all of them delivered, so the
walks of `check_commit`, `on_receive_proposal` and `check_ancestry` end (`System.walks_end`).
-/

namespace OptRand.Hotstuff

open Lib

variable {T : PayloadTypes}

namespace Replica

variable {s t : Replica T} {E : Env T} {fr : Frame T} {h : ℕ}

/-! ## Calls of `on_deliver_blk` -/

/-- The state in which `on_receive_proposal_echo` delivers the block of a decoded proposal. -/
def withDecoded (E : Env T) (s : Replica T) (e : Echo T) (content : ProposalContent T) : Replica T :=
  ((s.proposalDecoding e).eraseChunks e.view).addBlk (content.blk.toBlock (E.hash content.blk))

/-- The state in which `on_propose` delivers its block. -/
def withOwn (E : Env T) (s : Replica T) : Replica T :=
  withOwnBlk E s ([s.pm.hqcTail].foldl eraseTail { s with proposeTimer := false })
    (s.height s.pm.hqcTail + 1)

/-- The call `fr` in the state `s` calls `on_deliver_blk` for block `h` in the state `t`. -/
inductive Attempts (E : Env T) (s : Replica T) : Frame T → Replica T → ℕ → Prop
  | waited (h : ℕ) (b : Block T) (hb : s.blkCache h = some b)
      (hall : b.parentHashes.all s.isBlkDelivered = true) (hnew : b.delivered = false) :
      Attempts E s (.onDeliverBlk h) s h
  | decoded (e : Echo T) (content : ProposalContent T) (hdecodes : s.decodes E .proposal e = true)
      (hcontent : E.dispersal.decodeProposal E.config.nreconthres
        (E.nreplicas - E.config.nreconthres) e.chunk (s.decodeInput E .proposal e) = .ok content) :
      Attempts E s (.onReceiveProposalEcho e) (s.withDecoded E e content) (E.hash content.blk)
  | own (hproposes : s.Proposes) : Attempts E s .doPropose (s.withOwn E) (E.hash s.ownContent)

theorem isBlkFetched_addBlk (s : Replica T) (blk : Block T) :
    ∃ b, (s.addBlk blk).blkCache blk.hash = some b := by
  unfold addBlk
  split
  · rename_i hfetched
    exact Option.isSome_iff_exists.mp hfetched
  · exact ⟨blk, Function.update_self _ _ _⟩

theorem cached_of_attempts (ha : Attempts E s fr t h) : ∃ b, t.blkCache h = some b := by
  cases ha with
  | waited _ b hb hall hnew => exact ⟨b, hb⟩
  | decoded e content hdecodes hcontent => exact isBlkFetched_addBlk _ _
  | own hproposes =>
    unfold withOwn withOwnBlk modifyBlk
    split
    · exact ⟨_, Function.update_self _ _ _⟩
    · exact isBlkFetched_addBlk _ _

/-- Whether `on_deliver_blk` reads `parents[0]` of an empty vector. -/
theorem deliverBlk_undefined_iff {b : Block T} (hb : t.blkCache h = some b) :
    (∃ t', t.deliverBlk h = .error (t', .undefined)) ↔
      b.delivered = false ∧ b.parentHashes = [] := by
  unfold deliverBlk
  rw [hb]
  dsimp only
  cases hdel : b.delivered with
  | true =>
    rw [if_pos rfl]
    exact iff_of_false (fun h => nomatch h) fun h => nomatch h.1
  | false =>
    rw [if_neg Bool.false_ne_true]
    cases hparents : t.deliveredParents b.parentHashes with
    | mk parents complete =>
      cases complete with
      | false =>
        refine iff_of_false ?_ ?_
        · rintro ⟨t', ht'⟩
          cases ht'
        · rintro ⟨-, hnil⟩
          rw [hnil] at hparents
          cases hparents
      | true =>
        rw [(deliveredParents_eq hparents).1]
        cases hhashes : b.parentHashes with
        | nil => exact iff_of_true ⟨_, rfl⟩ ⟨rfl, rfl⟩
        | cons p ps =>
          refine iff_of_false ?_ fun h => nomatch h.2
          rintro ⟨t', ht'⟩
          dsimp only at ht'
          split at ht'
          · cases ht'
          · split at ht' <;> cases ht'

end Replica

section

variable {s : Replica T} {E : Env T} {fr : Frame T}

namespace Linked

/-- The genesis block is as far away as a delivered block is high. -/
theorem exists_climb (hs : Linked E s) {h k : ℕ} (hdel : s.isBlkDelivered h = true)
    (hk : k ≤ s.height h) : ∃ p, climb s.parent k h = some p ∧ s.isBlkDelivered p = true ∧
      s.height p + k = s.height h := by
  refine Lib.exists_climb (P := fun h => s.isBlkDelivered h = true) hs.graded ?_ hdel hk
  intro h hdel hpos
  have hne : h ≠ E.genesis := by
    rintro rfl
    rw [hs.height_genesis] at hpos
    exact absurd hpos (lt_irrefl 0)
  obtain ⟨p, hp⟩ := hs.exists_parent hdel hne
  exact ⟨p, hp, (hs.parent_eq_some hp).2.1⟩

theorem eq_genesis (hs : Linked E s) {h : ℕ} (hdel : s.isBlkDelivered h = true)
    (hheight : s.height h = 0) : h = E.genesis := by
  by_contra hne
  obtain ⟨p, hp⟩ := hs.exists_parent hdel hne
  have hsucc := (hs.parent_eq_some hp).2.2.1
  omega

/-- The loop of `check_commit` ends. -/
theorem exists_commitQueue (hs : Linked E s) (height : ℕ) {fuel h : ℕ}
    (hdel : s.isBlkDelivered h = true) (hfuel : s.height h ≤ fuel) :
    ∃ q, s.commitQueue height fuel h = .ok q := by
  induction fuel generalizing h with
  | zero =>
    obtain ⟨b, hb, hheight, -⟩ := hs.step hdel
    have hle : b.height ≤ height := by omega
    unfold Replica.commitQueue
    rw [hb, ok_bind]
    exact ⟨_, if_pos hle⟩
  | succ fuel ih =>
    obtain ⟨b, hb, hheight, hstep⟩ := hs.step hdel
    unfold Replica.commitQueue
    rw [hb, ok_bind]
    by_cases hle : b.height ≤ height
    · exact ⟨_, if_pos hle⟩
    · obtain ⟨p, ps, hparents, hp⟩ := hstep (by omega)
      obtain ⟨-, hdelp, hheightp, -⟩ := hs.parent_eq_some hp
      obtain ⟨q, hq⟩ := ih hdelp (by omega)
      rw [if_neg hle, hparents]
      dsimp only
      rw [hq, ok_bind]
      exact ⟨_, rfl⟩

end Linked

namespace Replica

/-! ## The tails -/

theorem tails_updateHqc {h : ℕ} {qc : QuorumCert} : (s.updateHqc h qc).rep.tails = s.tails := by
  unfold updateHqc
  split
  · rfl
  · split
    · dsimp only
      split
      · rename_i heq
        obtain ⟨tail, -, heq⟩ := bind_eq_ok.mp heq
        cases heq
        rfl
      · rfl
    · rfl

theorem tails_onReceiveProposal {prop : Proposal} :
    (s.onReceiveProposal prop).rep.tails = s.tails := by
  rcases onReceiveProposal_judge s prop with ⟨err, h⟩ | ⟨b, -, -, -, h⟩
  · rw [h]
  · rw [h, rep_andThen Replica.tails]
    · unfold adopt
      split
      · exact tails_updateHqc
      · rfl
      · rfl
    · intro s
      obtain ⟨vheight, proposals, hjudge⟩ := rep_judge prop b s
      rw [hjudge]

theorem tails_onReceiveVote {v : Vote} : (s.onReceiveVote E v).rep.tails = s.tails := by
  unfold onReceiveVote
  dsimp only
  repeat' split
  all_goals try rfl
  all_goals exact (rep_andThen Replica.tails fun s => rfl).trans tails_updateHqc

theorem tails_onReceiveStatus {st : Status} : (s.onReceiveStatus E st).rep.tails = s.tails := by
  unfold onReceiveStatus
  dsimp only
  split
  · rfl
  · split
    · rfl
    · split
      · rfl
      · refine (rep_andThen Replica.tails fun s => ?_).trans tails_updateHqc
        repeat' split
        all_goals rfl

theorem tails_onReceiveQc {qc : QuorumCert} : (s.onReceiveQc E qc).rep.tails = s.tails := by
  unfold onReceiveQc
  dsimp only
  repeat' split
  all_goals try rfl
  exact (rep_andThen Replica.tails fun s => rfl).trans tails_updateHqc

/-- A call adds no tail that is not delivered. -/
theorem mem_tails_exec (fr : Frame T) {k : ℕ} (hk : k ∈ (s.exec E fr).rep.tails) :
    k ∈ s.tails ∨ (s.exec E fr).rep.isBlkDelivered k = true := by
  have hsame : (s.exec E fr).rep.tails = s.tails →
      k ∈ s.tails ∨ (s.exec E fr).rep.isBlkDelivered k = true :=
    fun heq => Or.inl (heq ▸ hk)
  by_cases hc : fr.ChangesLead
  · cases fr <;> try exact False.elim hc
    case onDeliverBlk => exact tailsFrom_onDeliverBlk.2 k hk
    case onReceiveProposalEcho => exact tailsFrom_onReceiveProposalEcho.2 k hk
    case doPropose => exact tailsFrom_doPropose.2 k hk
    case onPropose_ prop => exact hsame (congrArg Prod.fst (lead_onPropose_ :))
    case checkAggregation prop opinion =>
      rcases (lead_checkAggregation : (s.checkAggregation E prop opinion).rep.lead = s.lead ∨ _) with
        h | ⟨h, -⟩
      · exact hsame (congrArg Prod.fst h)
      · exact hsame (congrArg Prod.fst h)
    case onReceiveProposal => exact hsame tails_onReceiveProposal
    case onReceiveVote => exact hsame tails_onReceiveVote
    case onReceiveStatus => exact hsame tails_onReceiveStatus
    case onReceiveQc => exact hsame tails_onReceiveQc
  · exact hsame (congrArg Prod.fst (exec_lead hc))

end Replica

end

namespace System

/-- Blocks without parents are not delivered. -/
def DeliversChildren (E : Env T) (σ : System T) (i : ℕ) (fr : Frame T) : Prop :=
  ∀ t h, (σ.nodes i).rep.Attempts E fr t h →
    ∀ b, t.blkCache h = some b → b.delivered = false → b.parentHashes ≠ []

/-- The tails of a replica are delivered in every state. -/
theorem Run.delivered_of_mem_tails {E : Env T} {F : Faults T}
    {ok : System T → ℕ → Frame T → Prop} {σ : System T} (h : Run E F ok σ) (i : ℕ) {k : ℕ}
    (hk : k ∈ (σ.nodes i).rep.tails) : (σ.nodes i).rep.isBlkDelivered k = true := by
  revert hk
  refine h.node_induction (I := fun _ x => k ∈ x.rep.tails → x.rep.isBlkDelivered k = true)
    ?_ ?_ ?_ i
  · exact fun i hk => (leads_init E i).tails k hk
  · exact fun i x ev hx _ _ hk => hx hk
  · intro σ i fr stack _ _ _ hx _ hk
    rw [Node.rep_after] at hk ⊢
    rcases Replica.mem_tails_exec fr hk with hold | hnew
    · exact (Replica.exec_delivered fr (hx hold)).1
    · exact hnew

/-- In runs that deliver no block without parents `on_deliver_blk` never reads `parents[0]` of an
empty vector. From a delivered block `parents[0]` leads through delivered blocks to the genesis
block, in as many steps as the block is high, so the walks down to any height end; they start from
delivered blocks, as the tails are. -/
theorem walks_end (E : Env T) (F : Faults T) (σ : System T) (hrun : Run E F (DeliversChildren E) σ)
    (i : ℕ) :
    (∀ e ∈ σ.history i, ∀ t h, e.rep.Attempts E e.frame t h →
      ∀ t', t.deliverBlk h ≠ .error (t', .undefined)) ∧
    (∀ h, (σ.nodes i).rep.isBlkDelivered h = true →
      climb (σ.nodes i).rep.parent ((σ.nodes i).rep.height h) h = some E.genesis ∧
      (∀ k ≤ (σ.nodes i).rep.height h, ∃ p, climb (σ.nodes i).rep.parent k h = some p ∧
        (σ.nodes i).rep.isBlkDelivered p = true) ∧
      ∀ height, (∃ r, (σ.nodes i).rep.walkTo height ((σ.nodes i).rep.height h) h = .ok r) ∧
        ∃ q, (σ.nodes i).rep.commitQueue height ((σ.nodes i).rep.height h) h = .ok q) ∧
    ∀ k ∈ (σ.nodes i).rep.tails, (σ.nodes i).rep.isBlkDelivered k = true := by
  have hs := hrun.linked i
  refine ⟨?_, fun h hdel => ⟨?_, ?_, fun height => ⟨?_, ?_⟩⟩,
    fun k hk => hrun.delivered_of_mem_tails i hk⟩
  · intro e he t h hattempts t' hundefined
    obtain ⟨hmem, rfl⟩ := mem_history.mp he
    obtain ⟨σ', stack, -, -, -, hrep, -, hok⟩ := hrun.exists_of_mem_trace hmem
    obtain ⟨b, hb⟩ := Replica.cached_of_attempts hattempts
    obtain ⟨hnew, hnil⟩ := (Replica.deliverBlk_undefined_iff hb).mp ⟨t', hundefined⟩
    exact hok t h (hrep ▸ hattempts) b hb hnew hnil
  · obtain ⟨p, hp, hdelp, hheight⟩ := hs.exists_climb hdel le_rfl
    rw [hp, hs.eq_genesis hdelp (by omega)]
  · intro k hk
    obtain ⟨p, hp, hdelp, -⟩ := hs.exists_climb hdel hk
    exact ⟨p, hp, hdelp⟩
  · obtain ⟨r, hr, -⟩ := hs.walkTo_eq height hdel le_rfl
    exact ⟨r, hr⟩
  · exact hs.exists_commitQueue height hdel le_rfl

/-- Whether a block is delivered or has parents. -/
def childIn (s : Replica plainTypes) (h : ℕ) : Bool :=
  (s.blkCache h).all fun b : Block plainTypes => b.delivered || !b.parentHashes.isEmpty

/-- Whether a call delivers only blocks with parents. -/
def deliversChildren (σ : System plainTypes) (i : ℕ) : Frame plainTypes → Bool
  | .onDeliverBlk h => childIn (σ.nodes i).rep h
  | .doPropose => childIn ((σ.nodes i).rep.withOwn twoEnv) (twoEnv.hash (σ.nodes i).rep.ownContent)
  | _ => true

theorem ne_nil_of_childIn {s : Replica plainTypes} {h : ℕ} (hchild : childIn s h = true)
    {b : Block plainTypes} (hb : s.blkCache h = some b) (hnew : b.delivered = false) :
    b.parentHashes ≠ [] := by
  rintro hnil
  rw [childIn, hb, Option.all_some, hnew, hnil] at hchild
  cases hchild

theorem deliversChildren_of_check {σ : System plainTypes} {i : ℕ} {fr : Frame plainTypes}
    (h : deliversChildren σ i fr = true) : DeliversChildren twoEnv σ i fr := by
  intro t k hattempts b hb hnew
  cases hattempts with
  | waited | own => exact ne_nil_of_childIn h hb hnew
  | decoded _ _ _ hcontent => cases hcontent

/-- Replica `1` delivers the block of replica `0` and its own on top of it. -/
theorem walks_end_two : ∃ σ : System plainTypes, (σ.nodes 1).rep.view = 3 ∧
    (∃ h, (σ.nodes 1).rep.isBlkDelivered h = true ∧ (σ.nodes 1).rep.height h = 2) ∧
    (∀ e ∈ σ.history 1, ∀ t h, e.rep.Attempts twoEnv e.frame t h →
      ∀ t', t.deliverBlk h ≠ .error (t', .undefined)) ∧
    (∀ h, (σ.nodes 1).rep.isBlkDelivered h = true →
      climb (σ.nodes 1).rep.parent ((σ.nodes 1).rep.height h) h = some twoEnv.genesis ∧
      (∀ k ≤ (σ.nodes 1).rep.height h, ∃ p, climb (σ.nodes 1).rep.parent k h = some p ∧
        (σ.nodes 1).rep.isBlkDelivered p = true) ∧
      ∀ height, (∃ r, (σ.nodes 1).rep.walkTo height ((σ.nodes 1).rep.height h) h = .ok r) ∧
        ∃ q, (σ.nodes 1).rep.commitQueue height ((σ.nodes 1).rep.height h) h = .ok q) ∧
    ∀ k ∈ (σ.nodes 1).rep.tails, (σ.nodes 1).rep.isBlkDelivered k = true := by
  obtain ⟨σ, hrun, htest⟩ := exists_of_play twoEnv noFaults deliversChildren
    (fun _ _ _ => deliversChildren_of_check) twoViews
    (fun σ => (σ.nodes 1).rep.view == 3 && (σ.nodes 1).rep.tails.any fun h =>
      (σ.nodes 1).rep.isBlkDelivered h && (σ.nodes 1).rep.height h == 2) (by decide +kernel)
  simp only [Bool.and_eq_true, beq_iff_eq, List.any_eq_true] at htest
  obtain ⟨hview, h, -, hdel, hheight⟩ := htest
  exact ⟨σ, hview, ⟨h, hdel, hheight⟩, walks_end twoEnv noFaults σ hrun 1⟩

/-- A block without parents, commands and certificate. -/
def orphan : BlockContent plainTypes := ⟨[], [], none, 0, (11 : ℕ)⟩

/-- Whether a call delivers a block without parents. -/
def deliversOrphan (e : Executed plainTypes) : Bool :=
  match e.frame with
  | .onDeliverBlk h => h == twoEnv.hash orphan &&
    (e.rep.blkCache h).any fun b : Block plainTypes => !b.delivered && b.parentHashes == []
  | _ => false

theorem of_deliversOrphan {e : Executed plainTypes} (h : deliversOrphan e = true) :
    e.rep.Attempts twoEnv e.frame e.rep (twoEnv.hash orphan) ∧
      ∃ t, e.rep.deliverBlk (twoEnv.hash orphan) = .error (t, .undefined) := by
  unfold deliversOrphan at h
  split at h
  · rename_i k hframe
    simp only [Bool.and_eq_true, beq_iff_eq, Option.any_eq_true, Bool.not_eq_true'] at h
    obtain ⟨rfl, b, hb, hnew, hnil⟩ := h
    refine ⟨?_, (Replica.deliverBlk_undefined_iff hb).mpr ⟨hnew, hnil⟩⟩
    rw [hframe]
    refine Replica.Attempts.waited _ b hb ?_ hnew
    rw [hnil]
    rfl
  · cases h

/-- Replica `1` proposes a block without parents. -/
theorem parentless_block : ∃ (σ : System plainTypes) (e : Executed plainTypes),
    Reachable twoEnv secondByzantine σ ∧ Honest twoEnv secondByzantine 0 ∧ e ∈ σ.history 0 ∧
    e.rep.Attempts twoEnv e.frame e.rep (twoEnv.hash orphan) ∧
    (∃ t, e.rep.deliverBlk (twoEnv.hash orphan) = .error (t, .undefined)) ∧
    (σ.nodes 0).crashed = some .undefined := by
  obtain ⟨σ, hrun, htest⟩ := exists_reachable_of_play twoEnv secondByzantine
    [.inject 1 0 (.propose ⟨1, orphan, 1⟩)]
    (fun σ => (σ.history 0).any deliversOrphan && (σ.nodes 0).crashed == some .undefined)
    (by decide +kernel)
  rw [Bool.and_eq_true, List.any_eq_true, beq_iff_eq] at htest
  obtain ⟨⟨e, he, horphan⟩, hcrashed⟩ := htest
  obtain ⟨hattempts, hundefined⟩ := of_deliversOrphan horphan
  exact ⟨σ, e, hrun, by decide, he, hattempts, hundefined, hcrashed⟩

end System

end OptRand.Hotstuff
