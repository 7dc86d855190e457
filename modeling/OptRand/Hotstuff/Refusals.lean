import OptRand.Hotstuff.Beats
import OptRand.Hotstuff.Rejections

/-!
# What is written before a message is refused

`on_receive_proposal` notes the block at its height and raises `vheight` before it looks at the
transcript in the block. When `verify_aggregation` rejects the transcript, both writes stay, and a
block that the replica proposes later at this height makes `on_propose` throw
(`System.rejected_proposal_stays`). They leave nothing behind only if the replica has noted the
block before, or two others. `on_receive_qc` sets `last_view_cert_received` before it asks for the
certified block, so a certificate for a block that is not delivered always leaves its view behind
(`System.refusals_intact_iff`).
-/

namespace OptRand.Hotstuff

open Lib

variable {T : PayloadTypes}

namespace Replica

/-- `on_receive_proposal` comes to `verify_aggregation`, which rejects the transcript in the block,
and gives up in the state `s'`. -/
def GivesUp (E : Env T) (s : Replica T) (prop : Proposal) (s' : Replica T) : Prop :=
  ∃ front opinion s₁ bnew, (s.onReceiveProposal prop).error = none ∧
    (s.onReceiveProposal prop).calls = front ++ [.checkAggregation prop opinion] ∧
    Returns E (s.onReceiveProposal prop).rep front s₁ ∧ s₁.blkCache prop.blk = some bnew ∧
    (E.pvss s₁.id).verifyAggregation bnew.extra s₁.draws = .ok false ∧
    s' = (s₁.checkAggregation E prop opinion).rep

/-- `vheight`, `proposals` and `view_agg_transcripts` are the same. -/
def VotingIntact (s s' : Replica T) : Prop :=
  s'.vheight = s.vheight ∧ s'.proposals = s.proposals ∧ s'.viewAggTranscripts = s.viewAggTranscripts

/-- `last_view_cert_received`, `hqc` and the `self_qc` of all blocks are the same. -/
def CertsIntact (s s' : Replica T) : Prop :=
  s'.lastViewCertReceived = s.lastViewCertReceived ∧ s'.hqc = s.hqc ∧
    ∀ h, (s'.blkCache h).map Block.selfQc = (s.blkCache h).map Block.selfQc

/-- The block of the highest certificate after that of `bnew` has been taken up. -/
def highestWith (s : Replica T) (bnew : Block T) : ℕ :=
  match bnew.qcRef, bnew.qc with
  | some ref, some qc => if qc.view > s.hqc.2.view then ref else s.hqc.1
  | _, _ => s.hqc.1

/-- Nothing is written for a proposal: two blocks are noted at its height, or its own is, and if it
is on the branch of the highest certificate, then `vheight` is its height. -/
def Settled (s : Replica T) (prop : Proposal) : Prop :=
  ∃ bnew, s.blkCache prop.blk = some bnew ∧ (2 ≤ (s.proposals bnew.height).length ∨
    prop.blk ∈ s.proposals bnew.height ∧
      (s.branchAt (s.highestWith bnew) prop.blk = .ok (s.highestWith bnew) →
        s.vheight = bnew.height))

variable {s : Replica T} {E : Env T} {prop : Proposal}

/-! ## Proposals -/

theorem adopt_ok {bnew : Block T} {t : Replica T} (h : s.adopt bnew = .ok t) :
    ∃ hqc tail, t = { s with hqc := hqc, pm := { s.pm with hqcTail := tail } } ∧
      hqc.1 = s.highestWith bnew := by
  unfold adopt at h
  unfold highestWith
  split at h
  · rename_i ref qc href hqc
    unfold updateHqc at h
    split at h
    · cases h
    · split at h
      · rename_i hview
        dsimp only at h
        split at h
        · rename_i heq
          cases h
          obtain ⟨tail, rfl⟩ := onHqcUpdate_writes heq
          refine ⟨_, tail, rfl, ?_⟩
          rw [href, hqc]
          exact (if_pos hview).symm
        · cases h
      · rename_i hview
        cases h
        refine ⟨_, _, rfl, ?_⟩
        rw [href, hqc]
        exact (if_neg hview).symm
  · cases h
  · rename_i hnone
    cases h
    refine ⟨_, _, rfl, ?_⟩
    rw [hnone]

/-- The block is noted at its height unless two blocks are. -/
theorem proposals_judge (prop : Proposal) (bnew : Block T) (t : Replica T) :
    (judge prop bnew t).rep.proposals = if (t.proposals bnew.height).length ≤ 1 then
      Function.update t.proposals bnew.height (t.slotWith prop bnew) else t.proposals := by
  unfold judge
  dsimp only
  repeat' split
  all_goals rfl

/-- `vheight` is raised for a block on the branch of the highest certificate that is noted alone. -/
theorem vheight_judge {bnew : Block T} {t : Replica T}
    (herror : (judge prop bnew t).error = none) : (judge prop bnew t).rep.vheight =
      if t.firstAt prop bnew = true ∧ t.branchAt t.hqc.1 prop.blk = .ok t.hqc.1 then bnew.height
      else t.vheight := by
  revert herror
  unfold judge
  dsimp only
  generalize hnoted : (if (t.proposals bnew.height).length ≤ 1 then _ else t) = noted
  obtain ⟨hcache, hhqc, hvheight⟩ : noted.blkCache = t.blkCache ∧ noted.hqc = t.hqc ∧
      noted.vheight = t.vheight := by
    rw [← hnoted]
    split
    all_goals exact ⟨rfl, rfl, rfl⟩
  rw [← branchAt_congr hcache, ← hhqc, ← hvheight]
  intro herror
  by_cases hfirst : t.firstAt prop bnew = true
  · simp only [hfirst, Bool.true_and, if_true, true_and] at herror ⊢
    cases hbranch : noted.branchAt noted.hqc.1 prop.blk with
    | error e =>
      rw [hbranch] at herror
      cases herror
    | ok b =>
      simp only [beq_iff_eq, Except.ok.injEq]
      repeat' split
      all_goals rfl
  · rw [if_neg hfirst, if_neg (not_and_of_not_left _ hfirst)]
    simp only [hfirst, Bool.false_and]
    split
    all_goals rfl

/-- What `on_receive_proposal` leaves in `vheight` and in `proposals`, when it does not throw. -/
theorem onReceiveProposal_noted {bnew : Block T} (hb : s.blkCache prop.blk = some bnew)
    (herror : (s.onReceiveProposal prop).error = none)
    (hcalls : (s.onReceiveProposal prop).calls ≠ []) :
    (s.onReceiveProposal prop).rep.proposals = (if (s.proposals bnew.height).length ≤ 1 then
      Function.update s.proposals bnew.height (s.slotWith prop bnew) else s.proposals) ∧
    (s.onReceiveProposal prop).rep.vheight = if s.firstAt prop bnew = true ∧
      s.branchAt (s.highestWith bnew) prop.blk = .ok (s.highestWith bnew) then bnew.height
      else s.vheight := by
  rcases onReceiveProposal_judge s prop with ⟨err, h⟩ | ⟨b, -, hb', -, h⟩
  · rw [h] at hcalls
    exact absurd rfl hcalls
  · cases Option.some.inj (hb.symm.trans hb')
    rw [h] at herror hcalls ⊢
    cases hadopt : s.adopt bnew with
    | error p =>
      rw [hadopt] at hcalls
      exact absurd rfl hcalls
    | ok t =>
      rw [hadopt] at herror
      obtain ⟨hqc, tail, ht, hhqc⟩ := adopt_ok hadopt
      have hproposals : t.proposals = s.proposals := by rw [ht]
      have hslot : t.slotWith prop bnew = s.slotWith prop bnew := by rw [slotWith, hproposals]; rfl
      have hfirst : t.firstAt prop bnew = s.firstAt prop bnew := by
        rw [firstAt, hproposals, hslot]
        rfl
      have hhighest : t.hqc.1 = s.highestWith bnew := by
        rw [ht]
        exact hhqc
      have hvheight : t.vheight = s.vheight := by rw [ht]
      have hcache : t.blkCache = s.blkCache := by rw [ht]
      refine ⟨(proposals_judge prop bnew t).trans ?_, (vheight_judge herror).trans ?_⟩
      · rw [hproposals, hslot]
      · rw [hfirst, hhighest, hvheight, branchAt_congr hcache]

/-- Before the check `on_receive_proposal` calls at most `on_qc_finish`. -/
theorem calls_front (s : Replica T) (prop : Proposal) : (s.onReceiveProposal prop).calls = [] ∨
    (∃ o, (s.onReceiveProposal prop).calls = [.checkAggregation prop o]) ∨
    ∃ ref o, (s.onReceiveProposal prop).calls = [.onQcFinish ref, .checkAggregation prop o] := by
  rcases onReceiveProposal_judge s prop with ⟨err, h⟩ | ⟨bnew, -, -, -, h⟩
  all_goals rw [h]
  · exact Or.inl rfl
  · cases s.adopt bnew with
    | error p => exact Or.inl rfl
    | ok t =>
      change (judge prop bnew t).calls = [] ∨ (∃ o, (judge prop bnew t).calls = _) ∨
        ∃ ref o, (judge prop bnew t).calls = _
      unfold judge
      dsimp only
      split
      · exact Or.inl rfl
      · split
        · exact Or.inr (Or.inr ⟨_, _, rfl⟩)
        · exact Or.inr (Or.inl ⟨_, rfl⟩)

/-- No beat waits, so `on_qc_finish` returns at once. -/
theorem onQcFinish_after (hwaiting : ∀ k, s.qcWaiting k = none) (prop : Proposal) (ref : ℕ) :
    (s.onReceiveProposal prop).rep.exec E (.onQcFinish ref) =
      (s.onReceiveProposal prop).rep.done := by
  have hpatch := Replica.exec_patch (s := s) (E := E) (.onReceiveProposal prop)
  have hkept : (s.onReceiveProposal prop).rep.qcWaiting ref = none :=
    (congrFun (congrArg Replica.qcWaiting hpatch) ref).trans (hwaiting ref)
  rw [exec, onQcFinish, hkept]

/-- The calls before the check write nothing. -/
theorem GivesUp.eq (hwaiting : ∀ k, s.qcWaiting k = none) {s' : Replica T}
    (h : s.GivesUp E prop s') : (s.onReceiveProposal prop).error = none ∧
      (s.onReceiveProposal prop).calls ≠ [] ∧ s' = (s.onReceiveProposal prop).rep.drawn := by
  obtain ⟨front, opinion, s₁, bnew, herror, hcalls, hreturns, hb, hverify, rfl⟩ := h
  refine ⟨herror, by rw [hcalls]; simp, ?_⟩
  have hrest : s₁ = (s.onReceiveProposal prop).rep := by
    have hfront : front = [] ∨ ∃ ref, front = [.onQcFinish ref] := by
      rcases calls_front s prop with hnil | ⟨o, hone⟩ | ⟨ref, o, htwo⟩
      · rw [hnil] at hcalls
        exact absurd hcalls.symm (by simp)
      · have heq : [] ++ [.checkAggregation prop o] = front ++ [.checkAggregation prop opinion] :=
          hone.symm.trans hcalls
        exact Or.inl (List.append_inj_left' heq rfl).symm
      · have heq : [.onQcFinish ref] ++ [.checkAggregation prop o] =
            front ++ [.checkAggregation prop opinion] := htwo.symm.trans hcalls
        exact Or.inr ⟨ref, (List.append_inj_left' heq rfl).symm⟩
    rcases hfront with rfl | ⟨ref, rfl⟩
    · exact Returns.nil_iff.mp hreturns
    · exact (Returns.of_done (onQcFinish_after hwaiting prop ref)).mp hreturns
  rw [← hrest]
  unfold checkAggregation
  rw [hb]
  simp only [hverify]
  rfl

/-- Giving up leaves the votes intact exactly when nothing is written. -/
theorem GivesUp.intact_iff (hwaiting : ∀ k, s.qcWaiting k = none) {s' : Replica T}
    (h : s.GivesUp E prop s') : s.VotingIntact s' ↔ s.Settled prop := by
  obtain ⟨herror, hcalls, rfl⟩ := h.eq hwaiting
  obtain ⟨bnew, hb⟩ : ∃ bnew, s.blkCache prop.blk = some bnew := by
    rcases onReceiveProposal_judge s prop with ⟨err, h⟩ | ⟨bnew, -, hb, -⟩
    · rw [h] at hcalls
      exact absurd rfl hcalls
    · exact ⟨bnew, hb⟩
  obtain ⟨hproposals, hvheight⟩ := onReceiveProposal_noted hb herror hcalls
  have hpatch := Replica.exec_patch (s := s) (E := E) (.onReceiveProposal prop)
  have hagg : (s.onReceiveProposal prop).rep.viewAggTranscripts = s.viewAggTranscripts :=
    (congrArg Replica.viewAggTranscripts hpatch).trans rfl
  have hintact : s.VotingIntact (s.onReceiveProposal prop).rep.drawn ↔
      (s.onReceiveProposal prop).rep.vheight = s.vheight ∧
        (s.onReceiveProposal prop).rep.proposals = s.proposals := by
    constructor
    · exact fun h => ⟨h.1, h.2.1⟩
    · exact fun h => ⟨h.1, h.2, hagg⟩
  rw [hintact, hproposals, hvheight]
  have hsettled : s.Settled prop ↔ 2 ≤ (s.proposals bnew.height).length ∨
      prop.blk ∈ s.proposals bnew.height ∧
        (s.branchAt (s.highestWith bnew) prop.blk = .ok (s.highestWith bnew) →
          s.vheight = bnew.height) := by
    constructor
    · rintro ⟨b, hb', h⟩
      cases Option.some.inj (hb.symm.trans hb')
      exact h
    · exact fun h => ⟨bnew, hb, h⟩
  rw [hsettled]
  by_cases hfull : 2 ≤ (s.proposals bnew.height).length
  · have hfirst : s.firstAt prop bnew = false := by
      simp only [firstAt, Bool.and_eq_false_iff, decide_eq_false_iff_not]
      exact Or.inl (by omega)
    rw [if_neg (by simp [hfirst]), if_neg (Nat.not_le.mpr hfull)]
    exact iff_of_true ⟨rfl, rfl⟩ (Or.inl hfull)
  · rw [if_pos (Nat.lt_succ_iff.mp (Nat.not_le.mp hfull))]
    by_cases hmem : prop.blk ∈ s.proposals bnew.height
    · have hslot : s.slotWith prop bnew = s.proposals bnew.height := if_pos hmem
      have hfirst : s.firstAt prop bnew = true := by
        simp only [firstAt, hslot, Bool.and_eq_true, decide_eq_true_eq]
        omega
      rw [hslot, Function.update_eq_self]
      simp only [hfirst, true_and, and_true, hfull, false_or, hmem]
      by_cases hbranch : s.branchAt (s.highestWith bnew) prop.blk = .ok (s.highestWith bnew)
      · rw [if_pos hbranch]
        exact ⟨fun h _ => h.symm, fun h => (h hbranch).symm⟩
      · rw [if_neg hbranch]
        exact iff_of_true rfl fun h => absurd h hbranch
    · refine iff_of_false (fun h => ?_) (fun h => ?_)
      · have hslot := congrFun h.2 bnew.height
        rw [Function.update_self, slotWith, if_neg hmem] at hslot
        simpa using congrArg List.length hslot
      · exact h.elim hfull fun h => hmem h.1

/-! ## Certificates -/

/-- A certificate whose handler throws has left its view behind. -/
theorem not_certsIntact {qc : QuorumCert} {e : Error} (h : (s.onReceiveQc E qc).error = some e) :
    ¬ s.CertsIntact (s.onReceiveQc E qc).rep := by
  intro hintact
  rcases records_onReceiveQc (s := s) (E := E) qc with ⟨hguard, -⟩ | ⟨hview, hlast, hrecords⟩
  · rw [onReceiveQc, if_pos hguard] at h
    cases h
  · have hset : (s.onReceiveQc E qc).rep.lastViewCertReceived = qc.view :=
      congrArg Records.lastViewCertReceived hrecords
    have hkept := hintact.1
    omega

/-! ## Tests -/

/-- Whether the transcript in the block of a proposal is rejected. -/
def rejects (E : Env T) (s : Replica T) (prop : Proposal) : Bool :=
  let o := s.onReceiveProposal prop
  o.error.isNone && !o.calls.isEmpty &&
    match o.rep.blkCache prop.blk with
    | none => false
    | some bnew =>
      match (E.pvss o.rep.id).verifyAggregation bnew.extra o.rep.draws with
      | .ok valid => !valid
      | .error _ => false

theorem givesUp_of_rejects (hwaiting : ∀ k, s.qcWaiting k = none) (h : s.rejects E prop = true) :
    ∃ s', s.GivesUp E prop s' := by
  simp only [rejects, Bool.and_eq_true, Bool.not_eq_true', Option.isNone_iff_eq_none,
    List.isEmpty_eq_false_iff] at h
  obtain ⟨⟨herror, hcalls⟩, hrejects⟩ := h
  split at hrejects
  · cases hrejects
  · rename_i bnew hb
    split at hrejects
    · rename_i valid hverify
      obtain rfl : valid = false := by simpa using hrejects
      rcases calls_front s prop with hnil | ⟨o, hone⟩ | ⟨ref, o, htwo⟩
      · exact absurd hnil hcalls
      · exact ⟨_, [], o, _, bnew, herror, hone, Returns.nil _, hb, hverify, rfl⟩
      · have hreturns := (Returns.of_done (onQcFinish_after (E := E) hwaiting prop ref)).mpr rfl
        exact ⟨_, [_], o, _, bnew, herror, htwo, hreturns, hb, hverify, rfl⟩
    · cases hrejects

end Replica

namespace System

variable {E : Env T} {F : Faults T} {σ : System T}

/-- In every state, giving up on a proposal whose transcript is rejected leaves the votes intact
exactly when there was nothing to note, and a certificate for a block that is not delivered never
leaves the certificates intact. -/
theorem refusals_intact_iff (E : Env T) (F : Faults T) (σ : System T) (h : Reachable E F σ)
    (i : ℕ) :
    (∀ prop s', (σ.nodes i).rep.GivesUp E prop s' →
      ((σ.nodes i).rep.VotingIntact s' ↔ (σ.nodes i).rep.Settled prop)) ∧
    ∀ qc, ((σ.nodes i).rep.onReceiveQc E qc).error = some (.runtimeError "block not delivered") →
      ¬ (σ.nodes i).rep.CertsIntact ((σ.nodes i).rep.onReceiveQc E qc).rep :=
  ⟨fun _ _ hgives => hgives.intact_iff (h.steady i).waiting,
    fun _ herror => Replica.not_certsIntact herror⟩

/-- Two replicas whose PVSS has no aggregates from `10` on. -/
def strictEnv : Env plainTypes := { twoEnv with
  pvss := fun i => { plainPvss 2 i with
    verifyAggregation := fun agg _ => .ok (decide ((agg : ℕ) < 10)) } }

/-- The proposal that is handled, if its transcript is rejected. -/
def rejectedProposal (e : Executed plainTypes) : Option Proposal :=
  match e.frame with
  | .onReceiveProposal prop => if e.rep.rejects strictEnv prop then some prop else none
  | _ => none

theorem of_rejectedProposal {e : Executed plainTypes} {prop : Proposal}
    (h : rejectedProposal e = some prop) :
    e.frame = .onReceiveProposal prop ∧ e.rep.rejects strictEnv prop = true := by
  unfold rejectedProposal at h
  split at h
  · rename_i hframe
    split at h
    · rename_i hrejects
      cases h
      exact ⟨hframe, hrejects⟩
    · cases h
  · cases h

/-- Whether the block of a certificate is not delivered. -/
def undelivered (s : Replica plainTypes) (qc : QuorumCert) : Bool :=
  (s.onReceiveQc strictEnv qc).error == some (.runtimeError "block not delivered")

/-- The certificate that is handled, if its block is not delivered and its view is kept. -/
def undeliveredCert (e : Executed plainTypes) : Option QuorumCert :=
  match e.frame with
  | .onReceiveQc qc =>
    if undelivered e.rep qc && (e.rep.onReceiveQc strictEnv qc).rep.lastViewCertReceived !=
      e.rep.lastViewCertReceived then some qc else none
  | _ => none

theorem of_undeliveredCert {e : Executed plainTypes} {qc : QuorumCert}
    (h : undeliveredCert e = some qc) : e.frame = .onReceiveQc qc ∧
      (e.rep.onReceiveQc strictEnv qc).error = some (.runtimeError "block not delivered") ∧
      (e.rep.onReceiveQc strictEnv qc).rep.lastViewCertReceived ≠ e.rep.lastViewCertReceived := by
  unfold undeliveredCert at h
  split at h
  · rename_i hframe
    split at h
    · rename_i htest
      cases h
      simp only [undelivered, Bool.and_eq_true, beq_iff_eq, bne_iff_ne] at htest
      exact ⟨hframe, htest⟩
    · cases h
  · cases h

theorem refusals_first : ∃ s : Replica plainTypes, (∃ prop s', s.GivesUp strictEnv prop s') ∧
    (∀ prop s', s.GivesUp strictEnv prop s' → (s.VotingIntact s' ↔ s.Settled prop)) ∧
    ∃ qc, (s.onReceiveQc strictEnv qc).error = some (.runtimeError "block not delivered") ∧
      ¬ s.CertsIntact (s.onReceiveQc strictEnv qc).rep := by
  obtain ⟨σ, hrun, htest⟩ := exists_reachable_of_play strictEnv secondByzantine (sendsBlock 11 1)
    (fun σ => σ.trace.any fun e => (rejectedProposal e).isSome &&
      undelivered e.rep (QuorumCertSecp256k1.create 99 1))
    (by decide +kernel)
  simp only [List.any_eq_true, Bool.and_eq_true, Option.isSome_iff_exists, undelivered,
    beq_iff_eq] at htest
  obtain ⟨e, he, ⟨prop, hprop⟩, hqc⟩ := htest
  obtain ⟨σ', -, hrun', -, -, hrep, -⟩ := hrun.exists_of_mem_trace he
  have hrefusals := refusals_intact_iff strictEnv secondByzantine σ' hrun' e.node
  have hwaiting := (hrun'.steady e.node).waiting
  rw [hrep] at hrefusals hwaiting
  exact ⟨e.rep, ⟨prop, Replica.givesUp_of_rejects hwaiting (of_rejectedProposal hprop).2⟩,
    hrefusals.1, _, hqc, hrefusals.2 _ hqc⟩

/-- A proposal whose transcript is rejected raises `vheight`, and the replica throws when it
proposes. A certificate for an unknown block leaves its view behind. -/
theorem rejected_proposal_stays :
    (∃ σ : System plainTypes, Reachable strictEnv secondByzantine σ ∧
      (∃ e ∈ σ.history 0, ∃ prop s', e.frame = .onReceiveProposal prop ∧
        e.rep.GivesUp strictEnv prop s' ∧ s'.vheight ≠ e.rep.vheight) ∧
      (σ.nodes 0).crashed = some (.runtimeError "new block should be higher than vheight")) ∧
    ∃ σ : System plainTypes, Reachable strictEnv secondByzantine σ ∧
      ∃ e ∈ σ.history 0, ∃ qc, e.frame = .onReceiveQc qc ∧
        (e.outcome strictEnv).error = some (.runtimeError "block not delivered") ∧
        (e.outcome strictEnv).rep.lastViewCertReceived ≠ e.rep.lastViewCertReceived := by
  constructor
  · obtain ⟨σ, hrun, htest⟩ := exists_reachable_of_play strictEnv secondByzantine
      (.command 0 7 :: sendsBlock 11 1 ++ [.timer 0])
      (fun σ => (σ.history 0).any (fun e => (rejectedProposal e).any fun prop =>
          (e.rep.onReceiveProposal prop).rep.vheight != e.rep.vheight) &&
        (σ.nodes 0).crashed == some (.runtimeError "new block should be higher than vheight"))
      (by decide +kernel)
    simp only [Bool.and_eq_true, List.any_eq_true, Option.any_eq_true, beq_iff_eq,
      bne_iff_ne] at htest
    obtain ⟨⟨e, he, prop, hprop, hraised⟩, hcrashed⟩ := htest
    obtain ⟨hframe, hrejects⟩ := of_rejectedProposal hprop
    obtain ⟨σ', -, hrun', -, -, hrep, -⟩ := hrun.exists_of_mem_trace (mem_history.mp he).1
    have hwaiting := (hrun'.steady e.node).waiting
    rw [hrep] at hwaiting
    obtain ⟨s', hgives⟩ := Replica.givesUp_of_rejects hwaiting hrejects
    refine ⟨σ, hrun, ⟨e, he, prop, s', hframe, hgives, ?_⟩, hcrashed⟩
    rw [(hgives.eq hwaiting).2.2]
    exact hraised
  · obtain ⟨σ, hrun, htest⟩ := exists_reachable_of_play strictEnv secondByzantine
      (sendsBlock 5 1 ++ [.inject 1 0 (.echo2 ⟨1, 0, 1, MessageType.CERT, 0, (),
        createPartCert 1 0 1, QuorumCertSecp256k1.create 99 1⟩)])
      (fun σ => (σ.history 0).any fun e => (undeliveredCert e).isSome)
      (by decide +kernel)
    simp only [List.any_eq_true, Option.isSome_iff_exists] at htest
    obtain ⟨e, he, qc, hqc⟩ := htest
    obtain ⟨hframe, herror, hlast⟩ := of_undeliveredCert hqc
    refine ⟨σ, hrun, e, he, qc, hframe, ?_, ?_⟩
    all_goals rw [Executed.outcome, hframe]
    · exact herror
    · exact hlast

end System

end OptRand.Hotstuff
