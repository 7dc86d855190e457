import OptRand.Hotstuff.HighTail
import OptRand.Hotstuff.Statuses

/-!
# The views of a proposer

`do_propose` compares `last_proposed_view` with the view, and `on_propose` sets it after the vote
for the new block and the callbacks of `on_propose_`. What runs in between may take the replica to
a later view and to its next proposal, which is then broadcast first. The views of the proposals of
a replica increase as long as `do_propose` passes its test only when no other proposal is under way
(`System.proposals_increase`).
-/

namespace OptRand.Hotstuff

open Lib

variable {T : PayloadTypes}

/-- The end of a proposal. -/
def Frame.isFinish : Frame T → Bool
  | .finishPropose _ => true
  | _ => false

/-- The view of the proposal that a call passes to `do_broadcast_proposal`. -/
def Executed.proposalView (e : Executed T) : Option ℕ :=
  match e.frame with
  | .finishPropose prop => some prop.view
  | _ => none

/-- The views of the proposals that have been broadcast, the last one first. -/
def proposalViews (past : List (Executed T)) : List ℕ := past.filterMap Executed.proposalView

namespace Replica

variable {s : Replica T} {E : Env T} {fr : Frame T}

/-- `last_proposed_view` is set at the end of a proposal only. -/
theorem exec_lastProposedView (hfr : ∀ prop, fr ≠ .finishPropose prop) :
    (s.exec E fr).rep.lastProposedView = s.lastProposedView := by
  have hnotes := exec_notes (s := s) (E := E) fr
  change (s.exec E fr).rep.records.lastProposedView = s.records.lastProposedView
  generalize (s.exec E fr).rep.records = r at hnotes ⊢
  cases hnotes with
  | proposed prop => exact absurd rfl (hfr prop)
  | _ => rfl

theorem lastProposedView_finishPropose (prop : Proposal) :
    (s.finishPropose prop).rep.lastProposedView = s.view :=
  congrArg Records.lastProposedView (records_finishPropose prop)

/-- A proposal ends only if `do_propose` has passed its test. -/
theorem countP_isFinish (fr : Frame T) (hfr : fr = .doPropose → ¬ s.Proposes) :
    (s.exec E fr).calls.countP Frame.isFinish = 0 := by
  rw [List.countP_eq_zero]
  intro fr' hfr' hfinish
  cases schedules_exec hfr' with
  | other _ _ hnot => cases fr' <;> first | exact hnot trivial | cases hfinish
  | proposed prop hproposes => exact hfr rfl hproposes
  | _ => cases hfinish

end Replica

/-- What is known of the proposals of a replica. One that is under way has a later view than those
before it, and than `last_proposed_view`. -/
structure Proposing (past : List (Executed T)) (x : Node T) : Prop where
  decreasing : (proposalViews past).Pairwise (· > ·)
  le : ∀ v ∈ proposalViews past, v ≤ x.rep.lastProposedView
  one : x.stack.countP Frame.isFinish ≤ 1
  next : ∀ prop, .finishPropose prop ∈ x.stack →
    x.rep.lastProposedView < prop.view ∧ prop.view ≤ x.rep.view

theorem Node.countP_stack_after (o : Outcome T) (stack : List (Frame T)) (p : Frame T → Bool) :
    (Node.after o stack).stack.countP p ≤ o.calls.countP p + stack.countP p := by
  rcases Node.stack_after o stack with h | h
  · rw [h]
    exact Nat.zero_le _
  · rw [h, List.countP_append]

namespace Proposing

variable {E : Env T} {past : List (Executed T)} {x : Node T} {fr : Frame T}
variable {stack : List (Frame T)} {i : ℕ}

/-- The end of a proposal. -/
theorem finish {prop : Proposal} (h : Proposing past x)
    (hstack : x.stack = .finishPropose prop :: stack) :
    Proposing (⟨i, x.rep, .finishPropose prop⟩ :: past)
      (Node.after (x.rep.exec E (.finishPropose prop)) stack) := by
  obtain ⟨hlast, hview⟩ := h.next prop (hstack ▸ List.mem_cons_self)
  have hbefore : ∀ v ∈ proposalViews past, v < prop.view :=
    fun v hv => (h.le v hv).trans_lt hlast
  have hrep : (Node.after (x.rep.exec E (.finishPropose prop)) stack).rep.lastProposedView =
      x.rep.view := by
    rw [Node.rep_after]
    exact Replica.lastProposedView_finishPropose prop
  have hzero : (Node.after (x.rep.exec E (.finishPropose prop)) stack).stack.countP
      Frame.isFinish = 0 := by
    have hone := h.one
    rw [hstack, List.countP_cons_of_pos rfl] at hone
    have hcalls := Replica.countP_isFinish (s := x.rep) (E := E) (.finishPropose prop) nofun
    have hle := Node.countP_stack_after (x.rep.exec E (.finishPropose prop)) stack Frame.isFinish
    omega
  refine ⟨List.pairwise_cons.mpr ⟨hbefore, h.decreasing⟩, ?_, hzero.le.trans zero_le_one, ?_⟩
  · intro v hv
    rw [hrep]
    rcases List.mem_cons.mp hv with rfl | hv
    · exact hview
    · exact (hbefore v hv).le.trans hview
  · intro prop' hmem
    exact absurd rfl (List.countP_eq_zero.mp hzero _ hmem)

/-- `do_propose` passes its test while no proposal is under way. -/
theorem propose (h : Proposing past x) (hstack : x.stack = .doPropose :: stack)
    (hproposes : x.rep.Proposes) (hnone : ∀ prop, .finishPropose prop ∉ x.stack) :
    Proposing (⟨i, x.rep, .doPropose⟩ :: past)
      (Node.after (x.rep.exec E .doPropose) stack) := by
  have hlast : (x.rep.exec E .doPropose).rep.lastProposedView = x.rep.lastProposedView :=
    Replica.exec_lastProposedView nofun
  have hview : (x.rep.exec E .doPropose).rep.view = x.rep.view :=
    Replica.exec_view_of_not nofun
  have hfresh : stack.countP Frame.isFinish = 0 := by
    rw [List.countP_eq_zero]
    intro fr hfr hfinish
    cases fr <;> try cases hfinish
    case finishPropose prop => exact hnone prop (hstack ▸ List.mem_cons_of_mem _ hfr)
  have hcalls : (x.rep.exec E .doPropose).calls.countP Frame.isFinish ≤ 1 := by
    rcases Replica.calls_doPropose (s := x.rep) (E := E) with hcalls | ⟨-, hcalls⟩
    · rw [Replica.exec, hcalls]
      exact Nat.zero_le 1
    · rw [Replica.exec, hcalls]
      exact le_rfl
  refine ⟨h.decreasing, ?_, ?_, ?_⟩
  · intro v hv
    rw [Node.rep_after, hlast]
    exact h.le v hv
  · have hle := Node.countP_stack_after (x.rep.exec E .doPropose) stack Frame.isFinish
    omega
  · intro prop hmem
    rw [Node.rep_after, hlast, hview]
    rcases Node.mem_stack_after hmem with hmem | hmem
    · cases Replica.schedules_exec hmem with
      | other _ _ hnot => exact absurd trivial hnot
      | proposed _ _ hprop =>
        rw [hprop]
        exact ⟨hproposes.2.1, le_rfl⟩
    · exact absurd (hstack ▸ List.mem_cons_of_mem _ hmem) (hnone prop)

/-- The other calls. -/
theorem other (h : Proposing past x) (hstack : x.stack = fr :: stack)
    (hpropose : fr = .doPropose → ¬ x.rep.Proposes) (hfr : ∀ prop, fr ≠ .finishPropose prop) :
    Proposing (⟨i, x.rep, fr⟩ :: past) (Node.after (x.rep.exec E fr) stack) := by
  have hviews : proposalViews (⟨i, x.rep, fr⟩ :: past) = proposalViews past := by
    refine List.filterMap_cons_none ?_
    cases fr <;> try rfl
    case finishPropose prop => exact absurd rfl (hfr prop)
  have hlast := Replica.exec_lastProposedView (s := x.rep) (E := E) hfr
  have hcalls := Replica.countP_isFinish (s := x.rep) (E := E) fr hpropose
  refine ⟨hviews ▸ h.decreasing, ?_, ?_, ?_⟩
  · rw [hviews, Node.rep_after, hlast]
    exact h.le
  · have hone := h.one
    have hle := Node.countP_stack_after (x.rep.exec E fr) stack Frame.isFinish
    rw [hstack, ← List.singleton_append, List.countP_append] at hone
    omega
  · intro prop hmem
    rw [Node.rep_after, hlast]
    rcases Node.mem_stack_after hmem with hmem | hmem
    · exact absurd rfl (List.countP_eq_zero.mp hcalls _ hmem)
    · obtain ⟨hlt, hle⟩ := h.next prop (hstack ▸ List.mem_cons_of_mem _ hmem)
      exact ⟨hlt, hle.trans (x.rep.view_le_exec fr)⟩

end Proposing

namespace System

/-- `do_propose` passes its test only when no other proposal is under way. -/
def ProposesAlone (σ : System T) (i : ℕ) (fr : Frame T) : Prop :=
  fr = .doPropose → (σ.nodes i).rep.Proposes → ∀ prop, .finishPropose prop ∉ (σ.nodes i).stack

theorem Run.proposing {E : Env T} {F : Faults T} {σ : System T} (h : Run E F ProposesAlone σ)
    (i : ℕ) : Proposing (σ.history i) (σ.nodes i) := by
  refine h.history_induction (I := fun _ past x => Proposing past x) ?_ ?_ ?_ i
  · intro i
    exact ⟨List.Pairwise.nil, fun v hv => absurd hv List.not_mem_nil, zero_le_one,
      fun prop hmem => absurd hmem List.not_mem_nil⟩
  · rintro i past x ev hx - -
    refine ⟨hx.decreasing, hx.le, ?_, fun prop hmem => ?_⟩
    · cases ev <;> exact zero_le_one
    · cases ev <;> cases List.mem_singleton.mp hmem
  · rintro σ i fr stack hrun - hok hx hstack
    by_cases hfinish : ∃ prop, fr = .finishPropose prop
    · obtain ⟨prop, rfl⟩ := hfinish
      exact hx.finish hstack
    · by_cases hpropose : fr = .doPropose ∧ (σ.nodes i).rep.Proposes
      · obtain ⟨rfl, hproposes⟩ := hpropose
        exact hx.propose hstack hproposes (hok rfl hproposes)
      · exact hx.other hstack (not_and.mp hpropose) (not_exists.mp hfinish)

/-- In runs that meet `ProposesAlone` the views of the proposals that a replica broadcasts
increase, so no two are for one view. -/
theorem proposals_increase (E : Env T) (F : Faults T) (σ : System T) (h : Run E F ProposesAlone σ)
    (i : ℕ) : (proposalViews (σ.history i)).reverse.Pairwise (· < ·) :=
  List.pairwise_reverse.mpr (h.proposing i).decreasing

/-- Whether a call does not propose while a proposal is under way. -/
def proposesAlone (σ : System plainTypes) (i : ℕ) : Frame plainTypes → Bool
  | .doPropose => (σ.nodes i).stack.all fun fr => !fr.isFinish
  | _ => true

theorem proposesAlone_of_check {σ : System plainTypes} {i : ℕ} {fr : Frame plainTypes}
    (h : proposesAlone σ i fr = true) : ProposesAlone σ i fr := by
  rintro rfl - prop hmem
  cases List.all_eq_true.mp h _ hmem

/-- Replica `0` proposes in views `1` and `3`. -/
theorem proposals_increase_two : ∃ σ : System plainTypes,
    (proposalViews (σ.history 0)).reverse = [1, 3] ∧
    (proposalViews (σ.history 0)).reverse.Pairwise (· < ·) := by
  obtain ⟨σ, hrun, htest⟩ := exists_of_play twoEnv noFaults proposesAlone
    (fun _ _ _ => proposesAlone_of_check)
    (twoViews ++ [.deliver 28, .verify 0, .deliver 29, .deliver 31, .verify 0])
    (fun σ => (proposalViews (σ.history 0)).reverse == [1, 3]) (by decide +kernel)
  exact ⟨σ, eq_of_beq htest, proposals_increase twoEnv noFaults σ hrun 0⟩

/-- A block of replica `1`. -/
def childOf (parent : ℕ) (qc : QuorumCert) (agg : ℕ) : BlockContent plainTypes :=
  ⟨[parent], [], some qc, qc.objHash, agg⟩

/-- The proposal of replica `1` in view `1`. -/
def offered : BlockContent plainTypes :=
  childOf twoEnv.genesis (QuorumCertSecp256k1.create twoEnv.genesis 0) 11

/-- The block that replica `0` is going to make in view `1`. -/
def foreseen : BlockContent plainTypes :=
  childOf (twoEnv.hash offered) (QuorumCertSecp256k1.create twoEnv.genesis 1) 11

/-- The proposal of replica `1` in view `2`. -/
def following : BlockContent plainTypes :=
  childOf (twoEnv.hash foreseen) (QuorumCertSecp256k1.create twoEnv.genesis 0) 13

/-- The certificate for `offered`, with the vote of replica `0`. -/
def offeredCert : QuorumCert :=
  QuorumCertSecp256k1.ofSigners (twoEnv.hash offered) 1 [1, 0] (by decide) (by decide)
    fun k => ⟨k, twoEnv.hash offered⟩

/-- Replica `1` votes for the block that replica `0` is going to make, and sends all that is needed
to leave views `1` and `2`, before the propose timer of replica `0` ends. -/
def foresees : List (Scripted plainTypes) :=
  [.command 0 7, .inject 1 0 (.propose ⟨1, offered, 1⟩), .verify 0,
    .inject 1 0 (.qc (QuorumCertSecp256k1.create twoEnv.genesis 1)),
    .inject 1 0 (.respBlock [foreseen]),
    .inject 1 0 (.vote ⟨1, twoEnv.hash foreseen, createPartCert 1 (twoEnv.hash foreseen) 1, 1⟩),
    .verify 0, .verify 0, .inject 1 0 (ackOf (twoEnv.hash foreseen) 1), .verify 0,
    .inject 1 0 (.propose ⟨1, following, 2⟩), .verify 0,
    .inject 1 0 (ackOf (twoEnv.hash following) 2), .verify 0, .inject 1 0 (shareOf 2 2),
    .inject 1 0 (certEchoOf (twoEnv.hash following) 2),
    .inject 1 0 (.status ⟨1, 3, offeredCert⟩), .verify 0, .inject 1 0 (shareOf 1 1), .timer 0]

/-- While replica `0` votes for its own block of view `1`, it gets to view `3` and proposes there.
Its proposal of view `1` is broadcast after that of view `3`. -/
theorem proposal_overtaken : ∃ σ : System plainTypes, Reachable twoEnv secondByzantine σ ∧
    Honest twoEnv secondByzantine 0 ∧ (σ.nodes 0).Idle ∧
    (proposalViews (σ.history 0)).reverse = [3, 1] := by
  obtain ⟨σ, hrun, htest⟩ := exists_reachable_of_play twoEnv secondByzantine foresees
    (fun σ => ((σ.nodes 0).stack.isEmpty && (σ.nodes 0).crashed.isNone) &&
      (proposalViews (σ.history 0)).reverse == [3, 1]) (by decide +kernel)
  simp only [Bool.and_eq_true, List.isEmpty_iff, Option.isNone_iff_eq_none, beq_iff_eq] at htest
  exact ⟨σ, hrun, by decide, htest⟩

end System

end OptRand.Hotstuff
