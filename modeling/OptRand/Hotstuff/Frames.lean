import OptRand.Hotstuff.Footprint

/-!
# What the calls leave alone

Most functions of a replica work on the block cache, on the highest certificate or on the
pacemaker. `Views` is the part of the state that none of these touch: the view, what has been
received in it, the aggregates and the promises. `Replica.exec_views` says which calls change
it, so that an invariant of this part is checked for those calls only.
-/

namespace OptRand.Hotstuff

open Lib

variable {T : PayloadTypes}

/-- The part of a state that the block cache and the pacemaker do not touch. -/
structure Views (T : PayloadTypes) where
  id : ℕ
  view : ℕ
  lastViewProposalReceived : ℕ
  lastViewSharesReceived : ℕ
  lastViewBeaconReceived : ℕ
  viewShares : ℕ → List T.Decryption
  aggQueue : ℕ → T.Aggregate
  viewAggTranscripts : ℕ → T.Aggregate
  viewWaiting : ℕ → Bool
  viewProposalWaiting : ℕ → Bool
  pendings : List (Pending T)

/-- The part of a state that holds blocks and certificates. -/
structure Chain (T : PayloadTypes) where
  id : ℕ
  view : ℕ
  hqc : ℕ × QuorumCert
  bExec : ℕ
  blkCache : ℕ → Option (Block T)

/-- The calls that change the `Views` of a replica. -/
def Frame.ChangesViews : Frame T → Prop
  | .gather _ _ _ _ | .startDelivery _ _ | .notify _ _ | .checkAggregation _ _
  | .onReceiveViewProposal_ | .onReceiveShare _ | .onReceiveBeacon _ | .tryEnterView
  | .onEnterView _ | .onReceivePvssTranscript _ => True
  | _ => False

/-- The calls that change the `Chain` of a replica. -/
def Frame.ChangesChain : Frame T → Prop
  | .handle _ _ | .onDeliverBlk _ | .onReceiveProposal _ | .checkAggregation _ _
  | .onReceiveVote _ | .onReceiveStatus _ | .onReceiveQc _ | .onReceiveAck _ | .tryEnterView
  | .onReceiveProposalEcho _ | .doPropose => True
  | _ => False

namespace Replica

/-- The `Views` of a state. -/
def views (s : Replica T) : Views T :=
  ⟨s.id, s.view, s.lastViewProposalReceived, s.lastViewSharesReceived, s.lastViewBeaconReceived,
    s.viewShares, s.aggQueue, s.viewAggTranscripts, s.viewWaiting, s.viewProposalWaiting,
    s.pendings⟩

/-- The `Chain` of a state. -/
def chain (s : Replica T) : Chain T := ⟨s.id, s.view, s.hqc, s.bExec, s.blkCache⟩

/-- Neither part differs. -/
def Same (s s' : Replica T) : Prop := s'.views = s.views ∧ s'.chain = s.chain

variable {s s' : Replica T} {E : Env T}

/-! ## The block cache -/

@[simp] theorem views_modifyBlk {h : ℕ} {f : Block T → Block T} :
    (s.modifyBlk h f).views = s.views := by
  obtain ⟨cache, h⟩ := modifyBlk_writes (s := s) (h := h) (f := f)
  rw [h]
  rfl

@[simp] theorem views_addBlk {blk : Block T} : (s.addBlk blk).views = s.views := by
  obtain ⟨cache, h⟩ := addBlk_writes (s := s) blk
  rw [h]
  rfl

/-! ## The pacemaker -/

/-- The pacemaker's functions change its own fields and `qc_waiting` only. -/
def PmStep (s s' : Replica T) : Prop :=
  ∃ pm waiting, s' = { s with pm := pm, qcWaiting := waiting }

theorem PmStep.refl (s : Replica T) : PmStep s s := ⟨s.pm, s.qcWaiting, rfl⟩

theorem PmStep.of_pm (s : Replica T) (pm : PaceMaker) : PmStep s { s with pm := pm } :=
  ⟨pm, s.qcWaiting, rfl⟩

theorem PmStep.trans {s s' s'' : Replica T} (h : PmStep s s') (h' : PmStep s' s'') :
    PmStep s s'' := by
  obtain ⟨pm, waiting, rfl⟩ := h
  obtain ⟨pm', waiting', rfl⟩ := h'
  exact ⟨pm', waiting', rfl⟩

theorem PmStep.ite {s t t' : Replica T} {c : Prop} [Decidable c] (h : PmStep s t)
    (h' : PmStep s t') : PmStep s (if c then t else t') := by
  split
  · exact h
  · exact h'

theorem PmStep.same {s s' : Replica T} (h : PmStep s s') : Same s s' := by
  obtain ⟨pm, waiting, rfl⟩ := h
  exact ⟨rfl, rfl⟩

theorem PmStep.views {s s' : Replica T} (h : PmStep s s') : s'.views = s.views := h.same.1

theorem PmStep.chain {s s' : Replica T} (h : PmStep s s') : s'.chain = s.chain := h.same.2

theorem pmStep_rejectQcFinish : PmStep s s.rejectQcFinish := by
  unfold rejectQcFinish
  split
  · exact PmStep.refl s
  · split
    · exact ⟨s.pm, _, rfl⟩
    · exact PmStep.refl s

theorem pmStep_rotate {view : ℕ} : PmStep s (s.rotate E view) :=
  (PmStep.of_pm s _).trans pmStep_rejectQcFinish

theorem pmStep_stopRotate : PmStep s (s.stopRotate E) :=
  pmStep_rejectQcFinish.trans (PmStep.of_pm _ _)

theorem pmStep_enterView {view : ℕ} : PmStep s (s.enterView E view) :=
  PmStep.ite (PmStep.refl s) (pmStep_rotate.trans pmStep_stopRotate)

theorem pmStep_onConsensus {blk : ℕ} : PmStep s (s.onConsensus E blk) :=
  PmStep.ite pmStep_stopRotate (PmStep.refl s)

theorem pmStep_notePropBlk {proposer blk : ℕ} : PmStep s (s.notePropBlk proposer blk) := by
  unfold notePropBlk
  split
  · exact PmStep.refl s
  · exact PmStep.of_pm s _

theorem pmStep_onHqcUpdate (h : s.onHqcUpdate = .ok s') : PmStep s s' := by
  obtain ⟨tail, -, heq⟩ := bind_eq_ok.mp h
  cases heq
  exact PmStep.of_pm s _

theorem pmStep_onReceiveProposal_ {prop : Proposal} (h : s.onReceiveProposal_ prop = .ok s') :
    PmStep s s' := by
  obtain ⟨follows, -, heq⟩ := bind_eq_ok.mp h
  cases heq
  have htail : ∀ (c : Prop) [Decidable c], PmStep s
      (if c then { s with pm := { s.pm with hqcTail := prop.blk } } else s) :=
    fun c _ => PmStep.ite (PmStep.of_pm s _) (PmStep.refl s)
  have hnote : ∀ (c : Prop) [Decidable c] {t : Replica T}, PmStep s t → PmStep s
      (if c then t.notePropBlk prop.proposer prop.blk else t) :=
    fun c _ t ht => PmStep.ite (ht.trans pmStep_notePropBlk) ht
  exact PmStep.ite (hnote _ (htail _)) ((hnote _ (htail _)).trans (PmStep.of_pm _ _))

theorem pmStep_beatCallback : PmStep s (s.beatCallback E).rep := by
  unfold beatCallback
  split
  · exact PmStep.refl s
  · exact pmStep_enterView

/-! ## Certificates and commits -/

theorem updateHqc_cases (s : Replica T) (h : ℕ) (qc : QuorumCert) :
    (∃ e, s.updateHqc h qc = .error (s, e)) ∨
    (qc.objHash = h ∧ qc.view ≤ s.hqc.2.view ∧ s.updateHqc h qc = .ok s) ∨
    (qc.objHash = h ∧ s.hqc.2.view < qc.view ∧
      PmStep { s with hqc := (h, qc) } (s.updateHqc h qc).rep) := by
  unfold updateHqc
  split
  · exact Or.inl ⟨_, rfl⟩
  · rename_i hobj
    have hobj : qc.objHash = h := not_not.mp hobj
    split
    · rename_i hview
      refine Or.inr (Or.inr ⟨hobj, hview, ?_⟩)
      dsimp only
      split
      · rename_i heq
        exact pmStep_onHqcUpdate heq
      · exact PmStep.refl _
    · rename_i hview
      exact Or.inr (Or.inl ⟨hobj, not_lt.mp hview, rfl⟩)

theorem views_updateHqc {h : ℕ} {qc : QuorumCert} : (s.updateHqc h qc).rep.views = s.views := by
  obtain ⟨hqc, tail, heq⟩ := updateHqc_writes (s := s) h qc
  rw [heq]
  rfl

/-- What a successful `check_commit` did. -/
theorem checkCommit_eq_ok {blk : ℕ} {executed : List ℕ}
    (h : s.checkCommit E blk = .ok (s', executed)) :
    ∃ exec start queue b last, s.getBlk s.bExec = .ok exec ∧ s.getBlk blk = .ok start ∧
      s.commitQueue exec.height start.height blk = .ok (queue, b) ∧ s.getBlk b = .ok last ∧
      (b = s.bExec ∨ last.decision = 1) ∧ executed = queue.reverse ∧
      s' = { s.commitBlocks E queue.reverse with bExec := blk } := by
  obtain ⟨exec, hexec, h⟩ := bind_eq_ok.mp h
  obtain ⟨start, hstart, h⟩ := bind_eq_ok.mp h
  obtain ⟨⟨queue, b⟩, hqueue, h⟩ := bind_eq_ok.mp h
  obtain ⟨last, hlast, h⟩ := bind_eq_ok.mp h
  dsimp only at h hlast
  split at h
  · cases h
  · rename_i hb
    cases h
    exact ⟨exec, start, queue, b, last, hexec, hstart, hqueue, hlast, by tauto, rfl, rfl⟩

theorem exec_chain {fr : Frame T} (h : ¬ fr.ChangesChain) :
    (s.exec E fr).rep.chain = s.chain := by
  rw [exec_patch]
  cases fr <;> first | rfl | exact absurd trivial h

@[simp] theorem chain_judge {prop : Proposal} {bnew : Block T} :
    (judge prop bnew s).rep.chain = s.chain := by
  obtain ⟨_, _, h⟩ := rep_judge prop bnew s
  rw [h]
  rfl

theorem exec_views {fr : Frame T} (h : ¬ fr.ChangesViews) :
    (s.exec E fr).rep.views = s.views := by
  rw [exec_patch]
  cases fr <;> first | rfl | exact absurd trivial h

/-! ## Calls that work on both -/

/-- `on_receive_proposal` writes the aggregate of an accepted block into the entry of the
current view, and the rest of it is called unless the walk of the pacemaker throws. -/
theorem checkAggregation_cases {prop : Proposal} {opinion : Bool} {o : Outcome T}
    (ho : s.checkAggregation E prop opinion = o) :
    (Same s o.rep ∧ o.calls = []) ∨
    ∃ blk, s.blkCache prop.blk = some blk ∧
      (E.pvss s.id).verifyAggregation blk.extra s.draws = .ok true ∧
      o.rep.views = { s.views with
        viewAggTranscripts := Function.update s.viewAggTranscripts s.view blk.extra } ∧
      o.rep.chain = (s.setBlk prop.blk { blk with view := s.view }).chain ∧
      (o.calls = [] ∨ o.calls = [.onReceiveViewProposal_, .proposalVote prop opinion]) := by
  subst ho
  unfold checkAggregation
  dsimp only
  split
  · exact Or.inl ⟨⟨rfl, rfl⟩, rfl⟩
  · rename_i blk hblk
    split
    · exact Or.inl ⟨⟨rfl, rfl⟩, rfl⟩
    · exact Or.inl ⟨⟨rfl, rfl⟩, rfl⟩
    · rename_i hagg
      have hmod : ∀ f, s.drawn.modifyBlk prop.blk f = s.drawn.setBlk prop.blk (f blk) := by
        intro f
        simp [modifyBlk, drawn, hblk]
      refine Or.inr ⟨blk, hblk, hagg, ?_⟩
      rw [hmod]
      split
      · exact ⟨rfl, rfl, Or.inl rfl⟩
      · rename_i heq
        have hsame := (pmStep_onReceiveProposal_ heq).same
        exact ⟨hsame.1, hsame.2, Or.inr rfl⟩

theorem updateAggQueue_eq {view : ℕ} :
    s.updateAggQueue E view = { s with aggQueue := (s.updateAggQueue E view).aggQueue } := by
  unfold updateAggQueue
  split <;> rfl

/-- `_try_enter_view` does nothing, or enters the next view after updating the queue. -/
theorem tryEnterView_cases {o : Outcome T} (ho : s.tryEnterView E = o) :
    o = s.done ∨
    (s.lastViewCertReceived = s.view ∧
      (s.lastViewSharesReceived = s.view ∨ s.lastViewBeaconReceived = s.view) ∧
      o.rep.views = { s.views with
        view := s.view + 1
        aggQueue := (s.updateAggQueue E s.view).aggQueue } ∧
      o.rep.chain = { s.chain with view := s.view + 1 } ∧
      o.out = [] ∧ o.calls = [.onEnterView (s.view + 1)]) := by
  subst ho
  unfold tryEnterView
  split
  · rename_i hguard
    right
    rw [updateAggQueue_eq]
    have hstep : ∀ t : Replica T, Same t (t.enterView E t.view) :=
      fun t => pmStep_enterView.same
    have hsame := hstep { s with
      aggQueue := (s.updateAggQueue E s.view).aggQueue, view := s.view + 1 }
    exact ⟨hguard.1, hguard.2, hsame.1, hsame.2, rfl, rfl⟩
  · exact Or.inl rfl

theorem exec_id (fr : Frame T) : (s.exec E fr).rep.id = s.id := by
  rw [exec_patch]
  cases fr <;> rfl

/-- Only `_try_enter_view` changes the view, by one. -/
theorem exec_view (fr : Frame T) : (s.exec E fr).rep.view = s.view ∨
    (fr = .tryEnterView ∧ (s.exec E fr).rep.view = s.view + 1) := by
  by_cases henter : fr = .tryEnterView
  · subst henter
    rcases tryEnterView_cases rfl with h | ⟨-, -, h, -⟩
    · exact Or.inl (congrArg (fun o : Outcome T => o.rep.view) h)
    · exact Or.inr ⟨rfl, congrArg Views.view h⟩
  · left
    rw [exec_patch]
    cases fr <;> first | rfl | exact absurd rfl henter

theorem view_le_exec (s : Replica T) (fr : Frame T) : s.view ≤ (s.exec E fr).rep.view := by
  rcases exec_view (s := s) (E := E) fr with hview | ⟨-, hview⟩
  all_goals omega

end Replica

end OptRand.Hotstuff
