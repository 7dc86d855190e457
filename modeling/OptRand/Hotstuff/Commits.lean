import OptRand.Hotstuff.Certified
import OptRand.Hotstuff.Execution
import OptRand.Hotstuff.HighTail
import OptRand.Hotstuff.ViewChange
import OptRand.Hotstuff.Waiting
import OptRand.Lib.Locking
import OptRand.Lib.Quorum

/-!
# Agreement on commits

A replica acknowledges a block after it has taken up its certificate, and commits it with
`nresponsive` acknowledgements. Votes and acknowledgements are signatures of the same hash, and
nothing stops a replica from voting for two blocks of a view or beside its highest certificate, so
one Byzantine replica can have two branches committed (`System.commits_disagree`). If the
certificates taken up hold `nresponsive` votes of their view, the acknowledgements counted were
made, and honest replicas vote once in a view, for a block once, and above their highest
certificate, then the blocks committed are on one branch, and `check_commit` never finds safety
breached (`System.commits_agree`).
-/

namespace OptRand.Hotstuff

open Lib Relation

variable {T : PayloadTypes}

/-! ## One tree for all replicas -/

open Classical in
/-- `parents[0]` of a block, which its hash determines. -/
noncomputable def Env.parentOf (E : Env T) (h : ℕ) : Option ℕ :=
  if hc : h ≠ E.genesis ∧ ∃ c, E.hash c = h then hc.2.choose.parentHashes.head? else none

section

variable {E : Env T} {s : Replica T} {h p : ℕ}

theorem parentOf_genesis : E.parentOf E.genesis = none := by
  unfold Env.parentOf
  rw [dif_neg fun hc => hc.1 rfl]

theorem parentOf_eq (hhash : Function.Injective E.hash) (hs : Linked E s) (hs' : Hashed E s)
    (hp : s.parent h = some p) : E.parentOf h = some p := by
  obtain ⟨hdel, -, -, hne⟩ := hs.parent_eq_some hp
  obtain ⟨b, hb, hdelb⟩ := Replica.isBlkDelivered_iff.mp hdel
  have hc : h ≠ E.genesis ∧ ∃ c, E.hash c = h := ⟨hne, b.content, hs' h b hb hne⟩
  have hcontent : hc.2.choose = b.content := hhash (hc.2.choose_spec.trans (hs' h b hb hne).symm)
  obtain ⟨q, ps, hparents, hhashes, -⟩ := hs.parent h b hb hdelb hne
  have hhashes : b.content.parentHashes = q :: ps := hhashes
  unfold Env.parentOf
  rw [dif_pos hc, hcontent, hhashes]
  unfold Replica.parent at hp
  rw [hb] at hp
  simp only [hdelb, if_true, hparents] at hp
  exact hp

/-- The tree of a replica is part of the one tree. -/
theorem ancestor_parentOf (hhash : Function.Injective E.hash) (hs : Linked E s) (hs' : Hashed E s)
    {a b : ℕ} (h : Ancestor s.parent a b) : Ancestor E.parentOf a b :=
  h.mono fun _ _ => parentOf_eq hhash hs hs'

/-- A replica knows all ancestors of a block that it has delivered. -/
theorem ancestor_of_parentOf (hhash : Function.Injective E.hash) (hs : Linked E s)
    (hs' : Hashed E s) {a b : ℕ} (hdel : s.isBlkDelivered b = true)
    (h : Ancestor E.parentOf a b) : Ancestor s.parent a b := by
  induction h with
  | refl => exact Ancestor.refl _ _
  | @tail k p _ hp ih =>
    have hne : k ≠ E.genesis := by
      rintro rfl
      have hp : E.parentOf E.genesis = some p := hp
      rw [parentOf_genesis] at hp
      cases hp
    obtain ⟨q, hq⟩ := hs.exists_parent (hs.delivered_ancestor hdel ih) hne
    have heq : p = q := Option.some.inj (hp.symm.trans (parentOf_eq hhash hs hs' hq))
    exact (Ancestor.single (heq ▸ hq)).trans ih

end

/-! ## Locks -/

/-- A block is acknowledged after its certificate has been taken up. -/
theorem Replica.takenUp_of_ack {E : Env T} {s : Replica T} {fr : Frame T} {b : ℕ}
    (h : .ack b ∈ (s.exec E fr).calls) : ∃ qc, TakenUp E s fr qc ∧ qc.objHash = b ∧
      qc.view ≤ (s.exec E fr).rep.hqc.2.view ∧
      (s.view ≤ qc.view ∨ ∃ v, fr = .onReceiveVote v) := by
  have hcalls : (s.exec E fr).calls ≠ [] := List.ne_nil_of_mem h
  cases Replica.calls_exec h with
  | other _ _ _ hdeferred => exact absurd trivial hdeferred
  | votesCompleted v =>
    rcases onReceiveVote_cases (rfl : s.onReceiveVote E v = _) with
      ⟨-, hnone⟩ | ⟨b, hview, hb, hdel, -, hvoter, ⟨_, -, hnone, -⟩ |
        ⟨qc, t, hadd, -, ⟨-, hnone⟩ | ⟨hsize, hup, -⟩⟩⟩
    · exact absurd hnone hcalls
    · exact absurd hnone hcalls
    · exact absurd hnone hcalls
    · obtain ⟨hobj, hle⟩ := hup.calls.resolve_left hcalls
      exact ⟨qc, TakenUp.vote v b qc hview hb hdel hsize hvoter hadd hobj, hobj, hle,
        Or.inr ⟨v, rfl⟩⟩
  | certTaken qc =>
    rcases onReceiveQc_cases (rfl : s.onReceiveQc E qc = _) with
      ⟨-, -, hnone⟩ | ⟨b, t, hview, hlast, hb, hdel, -, hup, -⟩
    · exact absurd hnone hcalls
    · exact ⟨qc, TakenUp.cert qc hview hlast (isBlkDelivered_iff.mpr ⟨b, hb, hdel⟩), rfl,
        (hup.calls.resolve_left hcalls).2, Or.inl hview⟩

/-! ## One commit -/

/-- The exception of `check_commit`. -/
def safetyBreached : Error := .runtimeError "safety breached :("

section

variable {E : Env T} {s : Replica T}

theorem Replica.getBlk_ne_breached (s : Replica T) (h : ℕ) :
    s.getBlk h ≠ .error safetyBreached := by
  unfold getBlk
  split <;> nofun

theorem Replica.getDeliveredBlk_ne_breached (s : Replica T) (h : ℕ) :
    s.getDeliveredBlk h ≠ .error safetyBreached := by
  have hne : Error.runtimeError "block not delivered" ≠ safetyBreached := by decide
  unfold getDeliveredBlk
  split
  · split
    · nofun
    · exact fun heq => hne (Except.error.inj heq)
  · exact fun heq => hne (Except.error.inj heq)

theorem Replica.commitQueue_ne_breached (s : Replica T) (height fuel h : ℕ) :
    s.commitQueue height fuel h ≠ .error safetyBreached := by
  induction fuel generalizing h with
  | zero =>
    unfold commitQueue
    refine bind_ne_error (s.getBlk_ne_breached h) fun b _ => ?_
    split
    all_goals
      intro heq
      cases heq
  | succ fuel ih =>
    unfold commitQueue
    refine bind_ne_error (s.getBlk_ne_breached h) fun b _ => ?_
    split
    · intro heq
      cases heq
    · split
      · rename_i p ps _
        refine bind_ne_error (ih p) fun r _ heq => ?_
        cases heq
      · intro heq
        cases heq

theorem Replica.blkCache_decided {k h : ℕ} {b : Block T}
    (hb : (s.modifyBlk k fun b => { b with decision := 1 }).blkCache h = some b) :
    b.decision = 1 ∨ (h ≠ k ∧ s.blkCache h = some b) := by
  unfold modifyBlk at hb
  by_cases hk : h = k
  · subst hk
    split at hb
    · rw [blkCache_setBlk, Function.update_self] at hb
      exact Or.inl (congrArg Block.decision (Option.some.inj hb)).symm
    · rename_i hnone
      rw [hnone] at hb
      cases hb
  · split at hb
    · rw [blkCache_setBlk, Function.update_of_ne hk] at hb
      exact Or.inr ⟨hk, hb⟩
    · exact Or.inr ⟨hk, hb⟩

/-- A commit decides the blocks of its queue. -/
theorem Replica.decision_commitBlocks {queue : List ℕ} {h : ℕ} {b : Block T}
    (hb : (s.commitBlocks E queue).blkCache h = some b)
    (hdec : h ∈ queue ∨ ∀ b₀, s.blkCache h = some b₀ → b₀.decision = 1) : b.decision = 1 := by
  induction queue generalizing s with
  | nil => exact hdec.elim (fun h => absurd h List.not_mem_nil) fun hold => hold b hb
  | cons k queue ih =>
    refine ih hb ?_
    rw [blkCache_onConsensus]
    by_cases hmem : h ∈ queue
    · exact Or.inl hmem
    · right
      intro b₀ hb₀
      rcases blkCache_decided hb₀ with hdecided | ⟨hk, hold⟩
      · exact hdecided
      · rcases hdec with hh | hdec
        · exact absurd hh (List.not_mem_cons_of_ne_of_not_mem hk hmem)
        · exact hdec b₀ hold

/-- All blocks up to `b_exec` are decided. -/
def DecidedTo (s : Replica T) : Prop :=
  ∀ k b, Ancestor s.parent k s.bExec → s.blkCache k = some b → b.decision = 1

theorem DecidedTo.acked (hd : DecidedTo s) {h : ℕ} {b : Block T}
    (hb : s.blkCache h = some b) (acked : List ℕ) :
    DecidedTo (s.setBlk h { b with acked := acked }) := by
  intro k b' hk hb'
  rw [(sameTree_acked hb acked).parent] at hk
  rcases Replica.blkCache_of_setBlk hb' with ⟨rfl, rfl⟩ | hold
  · exact hd k b hk hb
  · exact hd k b' hk hold

/-- The walk of a commit that is comparable with `b_exec` ends on the branch of `b_exec`. -/
theorem ancestor_bExec_of_commitQueue (hs : Linked E s) {blk b height fuel : ℕ} {queue : List ℕ}
    (hblk : s.isBlkDelivered blk = true)
    (hcomparable : Ancestor s.parent s.bExec blk ∨ Ancestor s.parent blk s.bExec)
    (hheight : height = s.height s.bExec)
    (hqueue : s.commitQueue height fuel blk = .ok (queue, b)) : Ancestor s.parent b s.bExec := by
  obtain ⟨hbranch, hlast, hmin, -⟩ := hs.commitQueue_eq hblk hqueue
  have hanc : Ancestor s.parent b blk := hbranch.ancestor hlast
  rcases hcomparable with hup | hdown
  · have hle := hup.height_le hs.graded
    exact hanc.of_height_le hs.graded hup (by omega)
  · exact hanc.trans hdown

/-- A commit that is comparable with `b_exec` is not refused. -/
theorem checkCommit_ne_breached (hs : Linked E s) (hd : DecidedTo s) {blk : ℕ}
    (hexec : s.isBlkDelivered s.bExec = true) (hblk : s.isBlkDelivered blk = true)
    (hcomparable : Ancestor s.parent s.bExec blk ∨ Ancestor s.parent blk s.bExec) :
    s.checkCommit E blk ≠ .error safetyBreached := by
  obtain ⟨exec, hbexec, hdexec⟩ := Replica.isBlkDelivered_iff.mp hexec
  obtain ⟨start, hbstart, -⟩ := Replica.isBlkDelivered_iff.mp hblk
  unfold Replica.checkCommit
  rw [Replica.getBlk_eq_ok.mpr hbexec, ok_bind, Replica.getBlk_eq_ok.mpr hbstart, ok_bind]
  refine bind_ne_error (s.commitQueue_ne_breached _ _ _) ?_
  rintro ⟨queue, b⟩ hqueue
  have hanc := ancestor_bExec_of_commitQueue hs hblk hcomparable
    (Replica.height_eq hbexec).symm hqueue
  obtain ⟨last, hlast, -⟩ := Replica.isBlkDelivered_iff.mp (hs.delivered_ancestor hexec hanc)
  have hdec := hd b last hanc hlast
  dsimp only
  rw [Replica.getBlk_eq_ok.mpr hlast, ok_bind, if_neg fun h => h.2 hdec]
  nofun

/-- After the commit, all blocks up to the committed one are decided. -/
theorem decidedTo_of_commit (hs : Linked E s) (hd : DecidedTo s) {blk : ℕ}
    (hblk : s.isBlkDelivered blk = true)
    (hcomparable : Ancestor s.parent s.bExec blk ∨ Ancestor s.parent blk s.bExec)
    {s' : Replica T} {executed : List ℕ} (hcommit : s.checkCommit E blk = .ok (s', executed))
    {k : ℕ} {b : Block T} (hk : Ancestor s.parent k blk) (hb : s'.blkCache k = some b) :
    b.decision = 1 := by
  obtain ⟨exec, start, queue, last, -, hgexec, -, hqueue, -, -, -, rfl⟩ :=
    Replica.checkCommit_eq_ok hcommit
  have hheight : exec.height = s.height s.bExec :=
    (Replica.height_eq (Replica.getBlk_eq_ok.mp hgexec)).symm
  have hanc := ancestor_bExec_of_commitQueue hs hblk hcomparable hheight hqueue
  obtain ⟨hbranch, hlast, -, -⟩ := hs.commitQueue_eq hblk hqueue
  refine Replica.decision_commitBlocks hb ?_
  exact (hbranch.mem_or_ancestor hlast hk).imp_right fun hlow b₀ hb₀ => hd k b₀ (hlow.trans hanc) hb₀

end

/-- An acknowledgement that is counted in its block. -/
def Replica.CountsAck (E : Env T) (s : Replica T) (a : Ack) : Prop :=
  s.view ≤ a.view ∧ ∃ b, s.blkCache a.blkHash = some b ∧
    b.acked.length < E.config.nresponsive ∧ a.voter ∉ b.acked

/-- Votes, the certificates that are taken up before an acknowledgement, and quorums. -/
def ballots (E : Env T) (F : Faults T) : Ballots (Executed T) ℕ ℕ where
  votes e r v b := e.node = r ∧ e.rep.view = v ∧ ∃ proposer, e.frame = .vote b proposer
  locks e r v b := e.node = r ∧ .ack b ∈ (e.outcome E).calls ∧
    ∃ qc, TakenUp E e.rep e.frame qc ∧ qc.objHash = b ∧ qc.view = v ∧
      v ≤ (e.outcome E).rep.hqc.2.view
  Quorum Q := ∃ A : Finset ℕ, (∀ r ∈ A, r ∈ Q) ∧ A ⊆ Finset.range E.nreplicas ∧
    E.config.nresponsive ≤ A.card
  Honest := System.Honest E F
  le := Ancestor E.parentOf

/-- Two quorums share an honest replica. -/
theorem ballots_inter {E : Env T} {F : Faults T}
    (hfaults : F.byzantine.card ≤ ReplicaConfig.nfaulty E.nreplicas) (Q Q' : Set ℕ)
    (hQ : (ballots E F).Quorum Q) (hQ' : (ballots E F).Quorum Q') :
    ∃ r ∈ Q, r ∈ Q' ∧ (ballots E F).Honest r := by
  obtain ⟨A, hAQ, hA, hcard⟩ := hQ
  obtain ⟨A', hAQ', hA', hcard'⟩ := hQ'
  have hquorum : E.nreplicas + ReplicaConfig.nfaulty E.nreplicas < 2 * E.config.nresponsive := by
    change E.nreplicas + (E.nreplicas - 1) / 2 < 2 * (3 * E.nreplicas / 4 + 1)
    omega
  obtain ⟨r, hr, hr', hnot⟩ := exists_mem_inter_notMem hA hA' hcard hcard' hfaults hquorum
  exact ⟨r, hAQ r hr, hAQ' r hr', Finset.mem_range.mp (hA hr), hnot⟩

namespace System

variable {E : Env T} {F : Faults T} {σ : System T}

/-- A certificate with the votes of `nresponsive` replicas, which have voted for its block in its
view as far as they are honest. -/
structure Genuine (E : Env T) (F : Faults T) (σ : System T) (qc : QuorumCert) : Prop where
  signers : qc.signers ⊆ Finset.range E.nreplicas
  quorum : E.config.nresponsive ≤ qc.signers.card
  voted : ∀ r ∈ qc.signers, Honest E F r →
    ∃ proposer, σ.Ran r (.vote qc.objHash proposer) qc.view

/-- What replica `i` runs next takes up only genuine certificates, completed in their view, counts
only acknowledgements that were made, and votes only once in a view, once for a block and above its
highest certificate. -/
structure Guarded (E : Env T) (F : Faults T) (σ : System T) (i : ℕ) (fr : Frame T) : Prop where
  cert : ∀ qc, TakenUp E (σ.nodes i).rep fr qc → 0 < qc.view → Genuine E F σ qc
  completed : ∀ v, fr = .onReceiveVote v → ∀ qc, TakenUp E (σ.nodes i).rep fr qc →
    (σ.nodes i).rep.view ≤ qc.view
  vote : ∀ b proposer, fr = .vote b proposer →
    (∀ v b', Voted (σ.history i) v b' → (v = (σ.nodes i).rep.view ↔ b' = b)) ∧
    Ancestor (σ.nodes i).rep.parent (σ.nodes i).rep.hqc.1 b
  ack : ∀ a, fr = .onReceiveAck a → (σ.nodes i).rep.CountsAck E a → Honest E F a.voter →
    ∃ v, σ.Ran a.voter (.ack a.blkHash) v

/-- A genuine certificate tells what is certified. -/
theorem Genuine.certified {qc : QuorumCert} (h : Genuine E F σ qc) :
    (ballots E F).Certified σ.trace qc.view qc.objHash := by
  refine ⟨{r | r ∈ qc.signers}, ⟨qc.signers, fun r hr => hr, h.signers, h.quorum⟩, ?_⟩
  intro r hr hhonest
  obtain ⟨proposer, e, he, hnode, hframe, hview⟩ := h.voted r hr hhonest
  exact ⟨e, he, hnode, hview, proposer, hframe⟩

/-- The votes of a replica are for one block in a view, and in one view for a block. -/
theorem Run.votes_once (h : Run E F (Guarded E F) σ) (i : ℕ) {v v' b b' : ℕ}
    (hb : Voted (σ.history i) v b) (hb' : Voted (σ.history i) v' b') : v = v' ↔ b = b' := by
  revert v v' b b'
  refine h.history_induction (I := fun _ past _ => ∀ {v v' b b'}, Voted past v b →
    Voted past v' b' → (v = v' ↔ b = b')) ?_ ?_ ?_ i
  · rintro i v v' b b' ⟨_, he, -⟩
    cases he
  · exact fun i past x ev hx _ _ => hx
  · intro σ i fr stack _ _ hguarded hx hstack v v' b b' hb hb'
    have hnew : ∀ {v b}, Voted (⟨i, (σ.nodes i).rep, fr⟩ :: σ.history i) v b →
        ((σ.nodes i).rep.view = v ∧ ∃ proposer, fr = .vote b proposer) ∨
          Voted (σ.history i) v b := by
      rintro v b ⟨e, he, hview, hframe⟩
      rcases List.mem_cons.mp he with rfl | he
      · exact Or.inl ⟨hview, hframe⟩
      · exact Or.inr ⟨e, he, hview, hframe⟩
    rcases hnew hb with ⟨rfl, proposer, rfl⟩ | hold
    · rcases hnew hb' with ⟨rfl, proposer', hframe⟩ | hold'
      · cases hframe
        exact ⟨fun _ => rfl, fun _ => rfl⟩
      · have hiff := (hguarded.vote b proposer rfl).1 v' b' hold'
        exact ⟨fun heq => (hiff.mp heq.symm).symm, fun heq => (hiff.mpr heq.symm).symm⟩
    · rcases hnew hb' with ⟨rfl, proposer', rfl⟩ | hold'
      · exact (hguarded.vote b' proposer' rfl).1 v b hold
      · exact hx hold hold'

/-- The highest certificate tells what is certified, unless it is of view `0`. -/
theorem Run.hqc_certified (h : Run E F (Guarded E F) σ) (i : ℕ)
    (hpos : 0 < (σ.nodes i).rep.hqc.2.view) :
    (ballots E F).Certified σ.trace (σ.nodes i).rep.hqc.2.view (σ.nodes i).rep.hqc.1 := by
  revert hpos
  refine h.rep_induction (I := fun past _ s => 0 < s.hqc.2.view →
    (ballots E F).Certified past s.hqc.2.view s.hqc.1) ?_ ?_ ?_ i
  · exact fun i hpos => absurd hpos (lt_irrefl 0)
  · exact fun past e i s hs hpos => (hs hpos).mono (List.subset_cons_self e past)
  · intro σ i fr stack _ _ hguarded hs _ hpos
    refine Ballots.Certified.mono ?_ (List.subset_cons_self _ σ.trace)
    rcases Replica.exec_hqc (E := E) (s := (σ.nodes i).rep) fr with hhqc | ⟨qc, htaken, -, hhqc⟩
    · rw [hhqc] at hpos ⊢
      exact hs hpos
    · rw [hhqc] at hpos ⊢
      exact (hguarded.cert qc htaken hpos).certified

/-- A certificate that is taken up before an acknowledgement is genuine and of no earlier view. -/
theorem Guarded.lock {i : ℕ} {fr : Frame T} {b : ℕ} {qc : QuorumCert}
    (h : Guarded E F σ i fr) (hpos : 1 ≤ (σ.nodes i).rep.view)
    (hack : .ack b ∈ ((σ.nodes i).rep.exec E fr).calls)
    (htaken : TakenUp E (σ.nodes i).rep fr qc) :
    (σ.nodes i).rep.view ≤ qc.view ∧ Genuine E F σ qc := by
  have hview : (σ.nodes i).rep.view ≤ qc.view := by
    cases Replica.calls_exec hack with
    | other _ _ _ hdeferred => exact absurd trivial hdeferred
    | votesCompleted v => exact h.completed v rfl qc htaken
    | certTaken cert =>
      cases htaken with
      | cert _ hview => exact hview
  exact ⟨hview, h.cert qc htaken (hpos.trans hview)⟩

theorem Run.certified_of_lock (h : Run E F (Guarded E F) σ) {later past : List (Executed T)}
    {e : Executed T} (htrace : σ.trace = later ++ e :: past) {r v b : ℕ}
    (hlock : (ballots E F).locks e r v b) :
    e.rep.view ≤ v ∧ 1 ≤ v ∧ (ballots E F).Certified past v b := by
  obtain ⟨σ', stack, hrun, rfl, -, hrep, -, hguarded⟩ := h.exists_of_trace htrace
  obtain ⟨-, hack, qc, htaken, rfl, rfl, -⟩ := hlock
  have hpos := hrun.view_pos e.node
  rw [Executed.outcome] at hack
  rw [← hrep] at hack htaken ⊢
  obtain ⟨hview, hgenuine⟩ := hguarded.lock hpos hack htaken
  exact ⟨hview, hpos.trans hview, hgenuine.certified⟩

/-- A replica that votes in a view has locked before on what it locks on in an earlier view. -/
theorem Run.lock_before (h : Run E F (Guarded E F) σ) {e e' : Executed T}
    {past : List (Executed T)} (hpast : e :: past <:+ σ.trace) {r v b w c : ℕ}
    (hvote : (ballots E F).votes e r w c) (he' : e' ∈ σ.trace)
    (hlock : (ballots E F).locks e' r v b) (hvw : v < w) : e' ∈ past := by
  obtain ⟨later, htrace⟩ := hpast
  have hmem := he'
  rw [← htrace] at hmem
  rcases List.mem_append.mp hmem with hlater | hmem
  · obtain ⟨l, l', rfl⟩ := List.append_of_mem hlater
    have htrace' : σ.trace = l ++ e' :: (l' ++ e :: past) := by
      rw [← htrace, List.append_assoc, List.cons_append]
    obtain ⟨σ', stack, hrun, htr, -, hrep, -, -⟩ := h.exists_of_trace htrace'
    have hnode : e.node = e'.node := hvote.1.trans hlock.1.symm
    have hvisited : σ'.Visited e'.node e.rep := by
      refine Or.inr ⟨e, ?_, hnode, rfl⟩
      rw [htr]
      exact List.mem_append_right _ List.mem_cons_self
    have hle := hrun.view_le_of_visited hvisited
    have hview := (h.certified_of_lock htrace' hlock).1
    rw [hrep, hvote.2.1] at hle
    omega
  · rcases List.mem_cons.mp hmem with rfl | hmem
    · obtain ⟨-, hack, -⟩ := hlock
      obtain ⟨-, -, proposer, hframe⟩ := hvote
      have hcall := Replica.calls_exec hack
      rw [hframe] at hcall
      cases hcall with
      | other _ _ _ hdeferred => exact absurd trivial hdeferred
    · exact hmem

/-- The rules of locking hold for the calls of a run. -/
theorem Run.locking (h : Run E F (Guarded E F) σ) (hhash : Function.Injective E.hash)
    (hfaults : F.byzantine.card ≤ ReplicaConfig.nfaulty E.nreplicas) :
    Locking (ballots E F) σ.trace where
  refl := Ancestor.refl E.parentOf
  trans := fun _ _ _ h h' => Ancestor.trans h h'
  inter := ballots_inter hfaults
  once := by
    rintro e he e' he' r v b v' b' - ⟨hnode, hview, hframe⟩ ⟨hnode', hview', hframe'⟩
    exact h.votes_once r ⟨e, mem_history.mpr ⟨he, hnode⟩, hview, hframe⟩
      ⟨e', mem_history.mpr ⟨he', hnode'⟩, hview', hframe'⟩
  certified := by
    intro e he r v b _ hlock
    obtain ⟨later, past, htrace⟩ := List.append_of_mem he
    have hsub : past ⊆ σ.trace := by
      rw [htrace]
      exact fun x hx => List.mem_append_right _ (List.mem_cons_of_mem e hx)
    exact (h.certified_of_lock htrace hlock).2.2.mono hsub
  before := by
    rintro e past hpast r v b w c - hvote ⟨e', he', hlock⟩ hvw
    exact ⟨e', h.lock_before hpast hvote he' hlock hvw, hlock⟩
  above := by
    rintro e past ⟨later, htrace⟩ r v b w c - ⟨rfl, hview, proposer, hframe⟩ ⟨e', he', hlock⟩
    obtain ⟨σ', stack, hrun, rfl, -, hrep, -, hguarded⟩ := h.exists_of_trace htrace.symm
    obtain ⟨l, l', hsplit⟩ := List.append_of_mem he'
    have hpos := (hrun.certified_of_lock hsplit hlock).2.1
    obtain ⟨hnode, -, qc, -, -, -, hle⟩ := hlock
    have hle' := hrun.le_of_mem_trace (m := fun s => s.hqc.2.view)
      (fun s fr => Replica.hqc_view_le fr) he'
    rw [hnode] at hle'
    have hvu : v ≤ (σ'.nodes e.node).rep.hqc.2.view := hle.trans hle'
    refine ⟨_, _, hvu, hrun.hqc_certified e.node (hpos.trans hvu), ?_⟩
    exact ancestor_parentOf hhash (hrun.linked e.node) (hrun.hashed e.node)
      (hguarded.vote c proposer hframe).2

/-! ## Acknowledgements -/

/-- Different replicas, of which the honest ones have locked on the block. -/
structure AckedBy (E : Env T) (F : Faults T) (past : List (Executed T)) (h : ℕ) (acked : List ℕ) :
    Prop where
  nodup : acked.Nodup
  lt : ∀ r ∈ acked, r < E.nreplicas
  locked : ∀ r ∈ acked, Honest E F r → ∃ e ∈ past, ∃ v, (ballots E F).locks e r v h

theorem AckedBy.mono {past past' : List (Executed T)} {h : ℕ} {acked : List ℕ}
    (ha : AckedBy E F past h acked) (hsub : past ⊆ past') : AckedBy E F past' h acked where
  nodup := ha.nodup
  lt := ha.lt
  locked := by
    intro r hr hhonest
    obtain ⟨e, he, hlock⟩ := ha.locked r hr hhonest
    exact ⟨e, hsub he, hlock⟩

theorem AckedBy.concat {past : List (Executed T)} {h r : ℕ} {acked : List ℕ}
    (ha : AckedBy E F past h acked) (hnew : r ∉ acked) (hlt : r < E.nreplicas)
    (hlock : Honest E F r → ∃ e ∈ past, ∃ v, (ballots E F).locks e r v h) :
    AckedBy E F past h (acked ++ [r]) where
  nodup := ha.nodup.append (List.nodup_singleton r) fun k hk hr =>
    hnew (List.mem_singleton.mp hr ▸ hk)
  lt := by
    intro k hk
    rcases List.mem_append.mp hk with hk | hk
    · exact ha.lt k hk
    · exact List.mem_singleton.mp hk ▸ hlt
  locked := by
    intro k hk
    rcases List.mem_append.mp hk with hk | hk
    · exact ha.locked k hk
    · exact List.mem_singleton.mp hk ▸ hlock

/-- `nresponsive` acknowledgements commit a block. -/
theorem AckedBy.committed {past : List (Executed T)} {h : ℕ} {acked : List ℕ}
    (ha : AckedBy E F past h acked) (hlen : acked.length = E.config.nresponsive) :
    (ballots E F).Committed past h := by
  refine ⟨{r | r ∈ acked}, ⟨acked.toFinset, fun r hr => List.mem_toFinset.mp hr, ?_, ?_⟩,
    ha.locked⟩
  · exact fun r hr => Finset.mem_range.mpr (ha.lt r (List.mem_toFinset.mp hr))
  · rw [List.toFinset_card_of_nodup ha.nodup, hlen]

/-- What a call does to the acknowledgements of a block. -/
theorem acked_of_changes {s : Replica T} {fr : Frame T} {h : ℕ} {b b' : Block T}
    {past : List (Executed T)} (hsteps : ReflTransGen (Change E s h fr) b b')
    (hb : AckedBy E F past h b.acked)
    (hack : ∀ a, fr = .onReceiveAck a → a.blkHash = h → s.view ≤ a.view →
      b.acked.length < E.config.nresponsive → a.voter ∉ b.acked → a.voter < E.nreplicas ∧
        (Honest E F a.voter → ∃ e ∈ past, ∃ v, (ballots E F).locks e a.voter v h)) :
    AckedBy E F past h b'.acked := by
  suffices hle : AckedBy E F past h b'.acked ∧ b.acked <+: b'.acked from hle.1
  induction hsteps with
  | refl => exact ⟨hb, List.prefix_rfl⟩
  | tail _ hstep ih =>
    cases hstep with
    | ack a hfr hh hsize hvoter hview =>
      obtain ⟨hlt, hlock⟩ := hack a hfr hh hview (ih.2.length_le.trans_lt hsize)
        fun hmem => hvoter (ih.2.subset hmem)
      exact ⟨ih.1.concat hvoter hlt hlock, ih.2.trans (List.prefix_append _ _)⟩
    | _ => exact ih

/-- A replica that acknowledges a block has locked on it. -/
theorem Run.lock_of_ran (h : Run E F (Guarded E F) σ) {r b v : ℕ} (hran : σ.Ran r (.ack b) v) :
    ∃ e ∈ σ.trace, ∃ u, (ballots E F).locks e r u b := by
  obtain ⟨e, he, rfl, hframe, -⟩ := hran
  obtain ⟨σ', stack, hrun, hsuffix, -, -, hstack, -⟩ := h.exists_of_mem_trace he
  have hmem : .ack b ∈ (σ'.nodes e.node).stack := by
    rw [hstack, hframe]
    exact List.mem_cons_self
  obtain ⟨e', he', hcall⟩ := (hrun.called e.node).deferred (.ack b) hmem trivial
  obtain ⟨hmem', hnode⟩ := mem_history.mp he'
  obtain ⟨qc, htaken, hobj, hle, -⟩ := Replica.takenUp_of_ack hcall
  exact ⟨e', hsuffix.subset hmem', qc.view, hnode, hcall, qc, htaken, hobj, rfl, hle⟩

/-- An acknowledgement that is counted comes from a replica that has locked on its block. -/
theorem Run.lock_of_counted (h : Run E F (Guarded E F) σ) {i : ℕ} (hi : i < E.nreplicas) {a : Ack}
    {stack : List (Frame T)} (hstack : (σ.nodes i).stack = .onReceiveAck a :: stack)
    (hguarded : Guarded E F σ i (.onReceiveAck a)) (hcounts : (σ.nodes i).rep.CountsAck E a) :
    a.voter < E.nreplicas ∧ (Honest E F a.voter →
      ∃ e ∈ σ.trace, ∃ v, (ballots E F).locks e a.voter v a.blkHash) := by
  have hadmitted := (h.admits hi).2 (.onReceiveAck a) (hstack ▸ List.mem_cons_self)
  obtain ⟨pubkey, hkey, -⟩ := bind_eq_ok.mp hadmitted.2
  refine ⟨ReplicaConfig.lt_of_getPubkey_start hkey, fun hhonest => ?_⟩
  obtain ⟨v, hran⟩ := hguarded.ack a rfl hcounts hhonest
  exact h.lock_of_ran hran

/-- The acknowledgements that are counted come from replicas that have locked on the block. -/
theorem Run.acked (h : Run E F (Guarded E F) σ) (i : ℕ) {k : ℕ} {b : Block T}
    (hb : (σ.nodes i).rep.blkCache k = some b) : AckedBy E F σ.trace k b.acked := by
  revert k b
  refine h.rep_induction (I := fun past _ s => ∀ {k b}, s.blkCache k = some b →
    AckedBy E F past k b.acked) ?_ ?_ ?_ i
  · intro i k b hb
    obtain ⟨-, rfl⟩ := Env.blkCache_init hb
    exact ⟨List.nodup_nil, nofun, nofun⟩
  · exact fun past e i s hs k b hb => (hs hb).mono (List.subset_cons_self e past)
  · intro σ i fr stack hrun honest hguarded hs hstack k b hb
    refine AckedBy.mono ?_ (List.subset_cons_self _ σ.trace)
    have hevolves := Replica.exec_evolves (E := E) (s := (σ.nodes i).rep) fr
    cases hk : (σ.nodes i).rep.blkCache k with
    | some b₀ =>
      obtain ⟨b', hb', hsteps⟩ := hevolves.kept k b₀ hk
      cases Option.some.inj (hb.symm.trans hb')
      refine acked_of_changes hsteps (hs hk) ?_
      rintro a rfl rfl hview hsize hvoter
      exact hrun.lock_of_counted honest.1 hstack hguarded ⟨hview, b₀, hk, hsize, hvoter⟩
    | none =>
      obtain ⟨b₀, hadd, hsteps⟩ := hevolves.added k b hk hb
      have hnone : b₀.acked = [] := by cases hadd <;> rfl
      refine acked_of_changes hsteps (hnone ▸ ⟨List.nodup_nil, nofun, nofun⟩) ?_
      rintro a rfl
      cases hadd

/-- The acknowledgement that completes those of a block commits it. -/
theorem Run.committed (h : Run E F (Guarded E F) σ) {i : ℕ} (hi : i < E.nreplicas) {a : Ack}
    {stack : List (Frame T)} (hstack : (σ.nodes i).stack = .onReceiveAck a :: stack)
    (hguarded : Guarded E F σ i (.onReceiveAck a)) {b : Block T}
    (hcompletes : (σ.nodes i).rep.Completes E a b) :
    (ballots E F).Committed σ.trace a.blkHash := by
  obtain ⟨hview, hb, hvoter, hlen⟩ := hcompletes
  have hsize : b.acked.length < E.config.nresponsive := by omega
  obtain ⟨hlt, hlock⟩ := h.lock_of_counted hi hstack hguarded ⟨hview, b, hb, hsize, hvoter⟩
  refine ((h.acked i hb).concat hvoter hlt hlock).committed ?_
  rw [List.length_append, List.length_singleton, hlen]

/-! ## Agreement -/

/-- What `b_exec` is: a delivered block up to which all are decided, and committed unless it is the
genesis block. -/
structure Settled (E : Env T) (F : Faults T) (past : List (Executed T)) (s : Replica T) : Prop where
  delivered : s.isBlkDelivered s.bExec = true
  committed : s.bExec = E.genesis ∨ (ballots E F).Committed past s.bExec
  decided : DecidedTo s

theorem settled_init (E : Env T) (F : Faults T) (i : ℕ) : Settled E F [] (E.init i) where
  delivered := (linked_init i).delivered_genesis
  committed := Or.inl rfl
  decided := by
    intro k b _ hb
    obtain ⟨-, rfl⟩ := Env.blkCache_init hb
    rfl

/-- A call keeps the ancestors of a block that was delivered before it. -/
theorem ancestor_of_exec (hhash : Function.Injective E.hash) {s : Replica T} {fr : Frame T}
    (hs : Linked E s) (hs' : Hashed E s) {a b : ℕ} (hdel : s.isBlkDelivered b = true)
    (h : Ancestor (s.exec E fr).rep.parent a b) : Ancestor s.parent a b :=
  ancestor_of_delivered hhash (linked_exec hs) (hashed_exec hs') hs hs' h hdel

/-- A block that becomes committed is on one branch with `b_exec`. -/
theorem Run.comparable_bExec (h : Run E F (Guarded E F) σ) (hhash : Function.Injective E.hash)
    (hfaults : F.byzantine.card ≤ ReplicaConfig.nfaulty E.nreplicas) {i blk : ℕ}
    (hsettled : Settled E F σ.trace (σ.nodes i).rep)
    (hblk : (σ.nodes i).rep.isBlkDelivered blk = true)
    (hcommitted : (ballots E F).Committed σ.trace blk) :
    Ancestor (σ.nodes i).rep.parent (σ.nodes i).rep.bExec blk ∨
      Ancestor (σ.nodes i).rep.parent blk (σ.nodes i).rep.bExec := by
  have hlinked := h.linked i
  have hhashed := h.hashed i
  rcases hsettled.committed with hgenesis | hexec
  · rw [hgenesis]
    exact Or.inl (hlinked.ancestor_genesis hblk)
  · rcases (h.locking hhash hfaults).comparable hexec hcommitted with hup | hdown
    · exact Or.inl (ancestor_of_parentOf hhash hlinked hhashed hblk hup)
    · exact Or.inr (ancestor_of_parentOf hhash hlinked hhashed hsettled.delivered hdown)

/-- A call that commits nothing. -/
theorem Settled.exec (hhash : Function.Injective E.hash) {past : List (Executed T)}
    {s : Replica T} {fr : Frame T} (hsettled : Settled E F past s) (hs : Linked E s)
    (hs' : Hashed E s) (hbExec : (s.exec E fr).rep.bExec = s.bExec)
    (hdecided : ∀ k b b', s.blkCache k = some b → (s.exec E fr).rep.blkCache k = some b' →
      b.decision = 1 → b'.decision = 1) : Settled E F past (s.exec E fr).rep where
  delivered := by
    rw [hbExec]
    exact (Replica.exec_delivered fr hsettled.delivered).1
  committed := by
    rw [hbExec]
    exact hsettled.committed
  decided := by
    intro k b' hk hb'
    rw [hbExec] at hk
    have hanc := ancestor_of_exec hhash hs hs' hsettled.delivered hk
    obtain ⟨b, hb, -⟩ := Replica.isBlkDelivered_iff.mp
      (hs.delivered_ancestor hsettled.delivered hanc)
    exact hdecided k b b' hb hb' (hsettled.decided k b hanc hb)

/-- An acknowledgement of which the commit is not refused keeps what `b_exec` is. -/
theorem Run.settled_onReceiveAck (h : Run E F (Guarded E F) σ)
    (hhash : Function.Injective E.hash)
    (hfaults : F.byzantine.card ≤ ReplicaConfig.nfaulty E.nreplicas) {i : ℕ}
    (hi : i < E.nreplicas) {a : Ack} {stack : List (Frame T)}
    (hstack : (σ.nodes i).stack = .onReceiveAck a :: stack)
    (hguarded : Guarded E F σ i (.onReceiveAck a))
    (hsettled : Settled E F σ.trace (σ.nodes i).rep) :
    Settled E F σ.trace ((σ.nodes i).rep.exec E (.onReceiveAck a)).rep := by
  have hlinked := h.linked i
  have hhashed := h.hashed i
  rcases Replica.onReceiveAck_cases (rfl : (σ.nodes i).rep.onReceiveAck E a = _) with
    ⟨hrep, -⟩ | ⟨b, hview, hb, hdel, -, hvoter, ⟨hrep, -⟩ | ⟨hfull, s', executed, hcommit, hrep, -⟩⟩
  · rw [Replica.exec, hrep]
    exact hsettled
  · refine hsettled.exec hhash hlinked hhashed (congrArg Replica.bExec hrep :) ?_
    intro k b₀ b' hb₀ hb' hdec
    rw [Replica.exec, hrep] at hb'
    rcases Replica.blkCache_of_setBlk hb' with ⟨rfl, rfl⟩ | hold
    · cases Option.some.inj (hb₀.symm.trans hb)
      exact hdec
    · cases Option.some.inj (hb₀.symm.trans hold)
      exact hdec
  · have hblk : (σ.nodes i).rep.isBlkDelivered a.blkHash = true :=
      Replica.isBlkDelivered_iff.mpr ⟨b, hb, hdel⟩
    have hcommitted := h.committed hi hstack hguarded ⟨hview, hb, hvoter, hfull⟩
    have hcomparable := h.comparable_bExec hhash hfaults hsettled hblk hcommitted
    have htree := sameTree_acked hb (b.acked ++ [a.voter])
    have hbExec : ((σ.nodes i).rep.exec E (.onReceiveAck a)).rep.bExec = a.blkHash := by
      obtain ⟨-, -, queue, -, -, -, -, -, -, -, -, rfl⟩ := Replica.checkCommit_eq_ok hcommit
      rw [Replica.exec, hrep]
    constructor
    · rw [hbExec]
      exact (Replica.exec_delivered (.onReceiveAck a) hblk).1
    · rw [hbExec]
      exact Or.inr hcommitted
    · intro k b' hk hb'
      rw [hbExec] at hk
      rw [Replica.exec, hrep] at hb'
      have hanc := ancestor_of_exec hhash hlinked hhashed hblk hk
      rw [← htree.parent] at hanc hcomparable
      rw [← htree.delivered] at hblk
      exact decidedTo_of_commit (hlinked.of_sameTree htree) (hsettled.decided.acked hb _) hblk
        hcomparable hcommit hanc hb'

theorem Run.settled (h : Run E F (Guarded E F) σ) (hhash : Function.Injective E.hash)
    (hfaults : F.byzantine.card ≤ ReplicaConfig.nfaulty E.nreplicas) (i : ℕ) :
    Settled E F σ.trace (σ.nodes i).rep := by
  have hmono : ∀ past e (s : Replica T), Settled E F past s → Settled E F (e :: past) s :=
    fun past e s hs => ⟨hs.delivered,
      hs.committed.imp_right fun hc => hc.mono (List.subset_cons_self e past), hs.decided⟩
  refine h.rep_induction (I := fun past _ s => Settled E F past s) (settled_init E F)
    (fun past e _ s => hmono past e s) ?_ i
  intro σ i fr stack hrun honest hguarded hs hstack
  refine hmono _ _ _ ?_
  by_cases hack : ∃ a, fr = .onReceiveAck a
  · obtain ⟨a, rfl⟩ := hack
    exact hrun.settled_onReceiveAck hhash hfaults honest.1 hstack hguarded hs
  · have hnone : ∀ a, fr ≠ .onReceiveAck a := fun a ha => hack ⟨a, ha⟩
    refine hs.exec hhash (hrun.linked i) (hrun.hashed i) (Replica.exec_bExec hnone) ?_
    intro k b b' hb hb' hdec
    obtain ⟨b'', hb'', hsteps⟩ := (Replica.exec_evolves fr).kept k b hb
    cases Option.some.inj (hb'.symm.trans hb'')
    exact (Replica.decision_of_changes hnone hsteps).trans hdec

/-- `on_receive_ack` finds safety breached only in `check_commit`. -/
theorem breached_onReceiveAck {s : Replica T} {a : Ack}
    (h : (s.onReceiveAck E a).error = some safetyBreached) : ∃ b, s.Completes E a b ∧
      b.delivered = true ∧ (s.setBlk a.blkHash { b with
        acked := b.acked ++ [a.voter] }).checkCommit E a.blkHash = .error safetyBreached := by
  unfold Replica.onReceiveAck at h
  split at h
  · cases h
  · rename_i hview
    split at h
    · rename_i e hget
      have herror : e = safetyBreached := Option.some.inj h
      exact absurd (herror ▸ hget) (s.getDeliveredBlk_ne_breached a.blkHash)
    · rename_i b hget
      obtain ⟨hb, hdel⟩ := Replica.getDeliveredBlk_ok hget
      dsimp only at h
      split at h
      · cases h
      · split at h
        · cases h
        · rename_i hvoter
          split at h
          · rename_i hfull
            split at h
            · rename_i e hcommit
              have herror : e = safetyBreached := Option.some.inj h
              exact ⟨b, ⟨not_lt.mp hview, hb, hvoter, hfull⟩, hdel, herror ▸ hcommit⟩
            · cases h
          · cases h

/-- `check_commit` does not find safety breached. -/
theorem Run.not_breached (h : Run E F (Guarded E F) σ) (hhash : Function.Injective E.hash)
    (hfaults : F.byzantine.card ≤ ReplicaConfig.nfaulty E.nreplicas) {e : Executed T}
    (he : e ∈ σ.trace) {a : Ack} (hframe : e.frame = .onReceiveAck a) :
    (e.outcome E).error ≠ some safetyBreached := by
  intro herror
  obtain ⟨σ', stack, hrun, -, honest, hrep, hstack, hguarded⟩ := h.exists_of_mem_trace he
  rw [Executed.outcome, ← hrep, hframe, Replica.exec] at herror
  rw [hframe] at hstack hguarded
  obtain ⟨b, hcompletes, hdel, hcommit⟩ := breached_onReceiveAck herror
  have hb := hcompletes.2.1
  have hsettled := hrun.settled hhash hfaults e.node
  have hblk : (σ'.nodes e.node).rep.isBlkDelivered a.blkHash = true :=
    Replica.isBlkDelivered_iff.mpr ⟨b, hb, hdel⟩
  have hcommitted := hrun.committed honest.1 hstack hguarded hcompletes
  have hcomparable := hrun.comparable_bExec hhash hfaults hsettled hblk hcommitted
  have htree := sameTree_acked hb (b.acked ++ [a.voter])
  have hexec := hsettled.delivered
  rw [← htree.parent] at hcomparable
  rw [← htree.delivered] at hblk hexec
  exact checkCommit_ne_breached ((hrun.linked e.node).of_sameTree htree)
    (hsettled.decided.acked hb _) hexec hblk hcomparable hcommit

/-- A block that is executed is an ancestor of a committed one, and delivered. -/
theorem Run.executed (h : Run E F (Guarded E F) σ) (hhash : Function.Injective E.hash) {i k : ℕ}
    (hk : σ.Emitted E i (.consensus k)) : (σ.nodes i).rep.isBlkDelivered k = true ∧
      ∃ blk, (ballots E F).Committed σ.trace blk ∧ Ancestor E.parentOf k blk := by
  obtain ⟨e, he, rfl, hout⟩ := hk
  obtain ⟨σ', stack, hrun, hsuffix, honest, hrep, hstack, hguarded⟩ := h.exists_of_mem_trace he
  obtain ⟨a, hframe⟩ : ∃ a, e.frame = .onReceiveAck a := by
    by_contra hnone
    have hnil := Replica.executed_exec (s := e.rep) (E := E) fun a ha => hnone ⟨a, ha⟩
    have hmem : k ∈ (e.outcome E).out.filterMap Output.executed :=
      List.mem_filterMap.mpr ⟨_, hout, rfl⟩
    rw [Executed.outcome, hnil] at hmem
    cases hmem
  have hlinked := hrun.linked e.node
  have hhashed := hrun.hashed e.node
  rw [Executed.outcome, hframe, Replica.exec] at hout
  rw [hframe] at hstack hguarded
  rw [hrep] at hlinked hhashed
  rcases Replica.onReceiveAck_cases (rfl : e.rep.onReceiveAck E a = _) with
    ⟨-, hnil⟩ | ⟨b, hview, hb, hdel, -, hvoter, ⟨-, hnil⟩ | ⟨hfull, s', executed, hcommit, -, heq⟩⟩
  · rw [hnil] at hout
    cases hout
  · rw [hnil] at hout
    cases hout
  · rw [heq] at hout
    obtain ⟨k', hk', hcons⟩ := List.mem_map.mp hout
    cases hcons
    have hcommitted := hrun.committed honest.1 hstack hguarded
      (by rw [hrep]; exact ⟨hview, hb, hvoter, hfull⟩)
    have htree := sameTree_acked hb (b.acked ++ [a.voter])
    have hblk : (e.rep.setBlk a.blkHash
        { b with acked := b.acked ++ [a.voter] }).isBlkDelivered a.blkHash = true := by
      rw [htree.delivered]
      exact Replica.isBlkDelivered_iff.mpr ⟨b, hb, hdel⟩
    obtain ⟨exec, start, queue, last, -, -, -, hqueue, -, -, rfl, -⟩ :=
      Replica.checkCommit_eq_ok hcommit
    obtain ⟨hbranch, hlast, -, hall⟩ := (hlinked.of_sameTree htree).commitQueue_eq hblk hqueue
    have hmem := List.mem_cons_of_mem last hk'
    have hdelk := hall k hmem
    have hanc := hbranch.ancestor_of_mem hlast hmem
    rw [htree.parent] at hanc
    rw [htree.delivered] at hdelk
    refine ⟨?_, a.blkHash, hcommitted.mono hsuffix.subset,
      ancestor_parentOf hhash hlinked hhashed hanc⟩
    have hle := h.le_of_mem_trace (m := fun s => s.isBlkDelivered k)
      (fun s fr => Bool.le_iff_imp.mpr fun hdel => (Replica.exec_delivered fr hdel).1) he
    exact Bool.le_iff_imp.mp hle (Replica.exec_delivered e.frame hdelk).1

/-- If the certificates taken up are genuine and completed in their view, the acknowledgements
counted were made, and honest replicas vote once in a view, once for a block and above their highest
certificate, then any two blocks that are executed are on one branch, and `check_commit` never finds
safety breached. -/
theorem commits_agree (E : Env T) (F : Faults T) (hhash : Function.Injective E.hash)
    (hfaults : F.byzantine.card ≤ ReplicaConfig.nfaulty E.nreplicas) (σ : System T)
    (h : Run E F (Guarded E F) σ) :
    (∀ i j b b', σ.Emitted E i (.consensus b) → σ.Emitted E j (.consensus b') →
      Ancestor (σ.nodes j).rep.parent b b' ∨ Ancestor (σ.nodes i).rep.parent b' b) ∧
    ∀ e ∈ σ.trace, ∀ a, e.frame = .onReceiveAck a → (e.outcome E).error ≠ some safetyBreached := by
  refine ⟨fun i j b b' hb hb' => ?_, fun e he a hframe => h.not_breached hhash hfaults he hframe⟩
  obtain ⟨hdel, blk, hcommitted, hanc⟩ := h.executed hhash hb
  obtain ⟨hdel', blk', hcommitted', hanc'⟩ := h.executed hhash hb'
  have htotal : Ancestor E.parentOf b b' ∨ Ancestor E.parentOf b' b := by
    rcases (h.locking hhash hfaults).comparable hcommitted hcommitted' with hle | hle
    · exact (hanc.trans hle).total hanc'
    · exact hanc.total (hanc'.trans hle)
  rcases htotal with hle | hle
  · exact Or.inl (ancestor_of_parentOf hhash (h.linked j) (h.hashed j) hdel' hle)
  · exact Or.inr (ancestor_of_parentOf hhash (h.linked i) (h.hashed i) hdel hle)

theorem emitted_of_executedIn {i k : ℕ} (h : k ∈ executedIn E (σ.history i)) :
    σ.Emitted E i (.consensus k) := by
  obtain ⟨e, he, hk⟩ := List.mem_flatMap.mp h
  obtain ⟨he, hnode⟩ := mem_history.mp (List.mem_reverse.mp he)
  obtain ⟨out, hout, hexecuted⟩ := List.mem_filterMap.mp hk
  refine ⟨e, he, hnode, ?_⟩
  cases out <;> cases hexecuted
  exact hout

/-- Whether a replica has run the vote for a block in a view. -/
def hasVoted (σ : System plainTypes) (r b v : ℕ) : Bool :=
  σ.trace.any fun e => e.node == r && e.rep.view == v &&
    match e.frame with
    | .vote b' _ => b' == b
    | _ => false

/-- Whether a replica has acknowledged a block. -/
def hasAcked (σ : System plainTypes) (r b : ℕ) : Bool :=
  σ.trace.any fun e => e.node == r &&
    match e.frame with
    | .ack b' => b' == b
    | _ => false

/-- Whether a call takes up no certificate, or that of replicas `0`, `1` and `2`, counts an
acknowledgement that was made, and makes the only vote, for a child of the certified block. -/
def guarded (σ : System plainTypes) (i : ℕ) : Frame plainTypes → Bool
  | .onReceiveProposal prop =>
    match (σ.nodes i).rep.blkCache prop.blk with
    | some b => b.qc == some voteEnv.genesisCert
    | none => true
  | .onReceiveQc qc => decide (qc.signers = {0, 1, 2}) &&
    hasVoted σ 1 qc.objHash qc.view && hasVoted σ 2 qc.objHash qc.view
  | .onReceiveStatus st => st.qc.view == 0
  | .onReceiveVote v =>
    match (σ.nodes i).rep.blkCache v.blkHash with
    | some b => b.voted.length + 1 != voteEnv.config.nresponsive
    | none => true
  | .vote b _ => (σ.nodes i).rep.parent b == some (σ.nodes i).rep.hqc.1 &&
    (σ.history i).all fun e =>
      match e.frame with
      | .vote _ _ => false
      | _ => true
  | .onReceiveAck a => a.voter == 0 || hasAcked σ a.voter a.blkHash
  | _ => true

theorem ran_of_hasVoted {σ : System plainTypes} {r b v : ℕ} (h : hasVoted σ r b v = true) :
    ∃ proposer, σ.Ran r (.vote b proposer) v := by
  obtain ⟨e, he, htest⟩ := List.any_eq_true.mp h
  obtain ⟨hsame, hvote⟩ := Bool.and_eq_true_iff.mp htest
  obtain ⟨hnode, hview⟩ := Bool.and_eq_true_iff.mp hsame
  split at hvote
  · rename_i b' proposer hframe
    exact ⟨proposer, e, he, beq_iff_eq.mp hnode, beq_iff_eq.mp hvote ▸ hframe, beq_iff_eq.mp hview⟩
  · cases hvote

theorem ran_of_hasAcked {σ : System plainTypes} {r b : ℕ} (h : hasAcked σ r b = true) :
    ∃ v, σ.Ran r (.ack b) v := by
  obtain ⟨e, he, htest⟩ := List.any_eq_true.mp h
  obtain ⟨hnode, hack⟩ := Bool.and_eq_true_iff.mp htest
  split at hack
  · rename_i b' hframe
    exact ⟨e.rep.view, e, he, beq_iff_eq.mp hnode, beq_iff_eq.mp hack ▸ hframe, rfl⟩
  · cases hack

theorem guarded_of_check {σ : System plainTypes} {i : ℕ} {fr : Frame plainTypes}
    (h : guarded σ i fr = true) : Guarded voteEnv firstByzantine σ i fr := by
  constructor
  · intro qc htaken hpos
    cases htaken with
    | proposal prop b qc _ _ hb _ _ hqc =>
      simp only [guarded, hb, hqc, beq_iff_eq, Option.some.injEq] at h
      rw [h] at hpos
      exact absurd hpos (lt_irrefl 0)
    | cert qc =>
      obtain ⟨⟨hsigners, hvoted⟩, hvoted'⟩ : (qc.signers = {0, 1, 2} ∧ _) ∧ _ := by
        simpa only [guarded, Bool.and_eq_true, decide_eq_true_iff] using h
      refine ⟨?_, ?_, ?_⟩
      · rw [hsigners]
        decide
      · rw [hsigners]
        decide
      · intro r hr hhonest
        rw [hsigners] at hr
        obtain rfl | rfl | rfl : r = 0 ∨ r = 1 ∨ r = 2 := by simpa using hr
        · exact absurd hhonest (by decide)
        · exact ran_of_hasVoted hvoted
        · exact ran_of_hasVoted hvoted'
    | status st =>
      rw [beq_iff_eq.mp h] at hpos
      exact absurd hpos (lt_irrefl 0)
    | vote v b qc _ hb _ hsize =>
      simp only [guarded, hb, bne_iff_ne] at h
      exact absurd hsize h
  · rintro v rfl qc htaken
    cases htaken with
    | vote v b qc _ hb _ hsize =>
      simp only [guarded, hb, bne_iff_ne] at h
      exact absurd hsize h
  · rintro b proposer rfl
    obtain ⟨hparent, hnone⟩ := Bool.and_eq_true_iff.mp h
    refine ⟨?_, Ancestor.single (beq_iff_eq.mp hparent)⟩
    rintro v b' ⟨e, he, -, proposer', hframe⟩
    have htest := List.all_eq_true.mp hnone e he
    rw [hframe] at htest
    cases htest
  · rintro a rfl - hhonest
    rcases Bool.or_eq_true_iff.mp h with hzero | hacked
    · rw [beq_iff_eq.mp hzero] at hhonest
      exact absurd hhonest (by decide)
    · exact ran_of_hasAcked hacked

/-- Replica `0` shows the signatures of all replicas for a block to replica `i` as
acknowledgements. -/
def acksOf (i h : ℕ) : List (Scripted plainTypes) :=
  (List.range 3).flatMap fun v => [.inject 0 i (.ack (shownAck v h)), .verify i]

/-- Replicas `1` and `2` commit the first proposal of replica `0`. -/
theorem commits_agree_first : ∃ σ : System plainTypes,
    executedIn voteEnv (σ.history 1) = [voteEnv.hash firstBlock] ∧
    executedIn voteEnv (σ.history 2) = [voteEnv.hash firstBlock] ∧
    (∀ i j b b', σ.Emitted voteEnv i (.consensus b) → σ.Emitted voteEnv j (.consensus b') →
      Ancestor (σ.nodes j).rep.parent b b' ∨ Ancestor (σ.nodes i).rep.parent b' b) ∧
    ∀ e ∈ σ.trace, ∀ a, e.frame = .onReceiveAck a →
      (e.outcome voteEnv).error ≠ some safetyBreached := by
  obtain ⟨σ, hrun, htest⟩ := exists_of_play voteEnv firstByzantine guarded
    (fun _ _ _ => guarded_of_check)
    (([1, 2].map fun i => .inject 0 i (.propose ⟨0, firstBlock, 1⟩)) ++
      ([1, 2].flatMap fun i =>
        [.inject 0 i (.qc (fullCert (voteEnv.hash firstBlock) 1)), .verify i]) ++
      acksOf 1 (voteEnv.hash firstBlock) ++ acksOf 2 (voteEnv.hash firstBlock))
    (fun σ => executedIn voteEnv (σ.history 1) == [voteEnv.hash firstBlock] &&
      executedIn voteEnv (σ.history 2) == [voteEnv.hash firstBlock]) (by decide +kernel)
  obtain ⟨hfirst, hsecond⟩ := Bool.and_eq_true_iff.mp htest
  exact ⟨σ, beq_iff_eq.mp hfirst, beq_iff_eq.mp hsecond,
    commits_agree voteEnv firstByzantine contentCode_injective (by decide) σ hrun⟩

/-- Replicas `1` and `2` vote for both branches, and replica `0` shows each branch's signatures to
one of them as acknowledgements. -/
def bothBranches : List (Scripted plainTypes) :=
  ([1, 2].flatMap fun i => [.inject 0 i (.propose ⟨0, firstBlock, 1⟩),
    .inject 0 i (.propose ⟨0, rightChild, 1⟩), .inject 0 i (.respBlock [secondBlock])]) ++
  acksOf 1 (voteEnv.hash firstBlock) ++ acksOf 2 (voteEnv.hash rightChild) ++
  acksOf 1 (voteEnv.hash rightChild)

/-- Replica `1` executes the first block and replica `2` the second one, and then `check_commit` of
replica `1` finds safety breached. -/
theorem commits_disagree : ∃ σ : System plainTypes, Reachable voteEnv firstByzantine σ ∧
    Honest voteEnv firstByzantine 1 ∧ Honest voteEnv firstByzantine 2 ∧
    (∃ b b', σ.Emitted voteEnv 1 (.consensus b) ∧ σ.Emitted voteEnv 2 (.consensus b') ∧
      ¬ Ancestor (σ.nodes 2).rep.parent b b' ∧ ¬ Ancestor (σ.nodes 1).rep.parent b' b) ∧
    (σ.nodes 1).crashed = some safetyBreached := by
  obtain ⟨σ, hrun, htest⟩ := exists_reachable_of_play voteEnv firstByzantine bothBranches
    (fun σ => executedIn voteEnv (σ.history 1) == [voteEnv.hash firstBlock] &&
      (executedIn voteEnv (σ.history 2) == [voteEnv.hash secondBlock, voteEnv.hash rightChild] &&
        ((σ.nodes 1).crashed == some safetyBreached && ([1, 2].all fun i =>
          (σ.nodes i).rep.height (voteEnv.hash firstBlock) ==
            (σ.nodes i).rep.height (voteEnv.hash secondBlock))))) (by decide +kernel)
  obtain ⟨hfirst, htest⟩ := Bool.and_eq_true_iff.mp htest
  obtain ⟨hsecond, htest⟩ := Bool.and_eq_true_iff.mp htest
  obtain ⟨hcrashed, hheights⟩ := Bool.and_eq_true_iff.mp htest
  have hheight : ∀ i ∈ [1, 2], (σ.nodes i).rep.height (voteEnv.hash firstBlock) =
      (σ.nodes i).rep.height (voteEnv.hash secondBlock) :=
    fun i hi => beq_iff_eq.mp (List.all_eq_true.mp hheights i hi)
  have hne : voteEnv.hash firstBlock ≠ voteEnv.hash secondBlock := by decide +kernel
  refine ⟨σ, hrun, by decide, by decide, ⟨voteEnv.hash firstBlock, voteEnv.hash secondBlock,
    emitted_of_executedIn ?_, emitted_of_executedIn ?_, fun hanc => ?_, fun hanc => ?_⟩,
    beq_iff_eq.mp hcrashed⟩
  · rw [beq_iff_eq.mp hfirst]
    exact List.mem_singleton_self _
  · rw [beq_iff_eq.mp hsecond]
    exact List.mem_cons_self
  · exact hne (hanc.eq_of_height_le (hrun.linked 2).graded (hheight 2 (by decide)).ge)
  · exact hne (hanc.eq_of_height_le (hrun.linked 1).graded (hheight 1 (by decide)).le).symm

end System

end OptRand.Hotstuff
