import OptRand.Hotstuff.Calls
import OptRand.Hotstuff.Outputs
import OptRand.Hotstuff.Signing

/-!
# What a replica votes for

`on_receive_proposal` decides on a proposal by the height of its block, calls back promises, and
then votes with the label of its current view. It compares neither the view nor the proposer of the
proposal with its own, so a late proposal, one of another replica or a second one at another height
is voted for (`System.votes_unrelated`). With these comparisons made, and no view left between the
decision and the vote, every vote is for a proposal of its view by the proposer of the view, and all
votes of a view are for one block (`System.votes_valid`).
-/

namespace OptRand.Hotstuff

variable {T : PayloadTypes}

/-- The block that a call leads to a vote for. -/
def Frame.ballot : Frame T → Option ℕ
  | .checkAggregation prop true | .proposalVote prop true => some prop.blk
  | .vote blk _ => some blk
  | _ => none

/-- The proposal that a call leads to a vote for. -/
def Frame.judged : Frame T → Option Proposal
  | .checkAggregation prop true | .proposalVote prop true => some prop
  | _ => none

/-- `_try_enter_view` leaves the view. -/
def Replica.Leaves (s : Replica T) : Prop :=
  s.lastViewCertReceived = s.view ∧
    (s.lastViewSharesReceived = s.view ∨ s.lastViewBeaconReceived = s.view)

namespace System

variable {E : Env T} {F : Faults T} {σ : System T} {past : List (Executed T)} {x : Node T}

/-- A vote for `b` in view `v`. -/
def Voted (past : List (Executed T)) (v b : ℕ) : Prop :=
  ∃ e ∈ past, e.rep.view = v ∧ ∃ proposer, e.frame = .vote b proposer

/-- A vote for `b` in the current view, made or still to be made by a call on the stack. -/
def Ballot (past : List (Executed T)) (x : Node T) (b : ℕ) : Prop :=
  Voted past x.rep.view b ∨ ∃ fr ∈ x.stack, fr.ballot = some b

/-- A proposal that is taken up is of the current view and by its proposer, and the blocks voted for
in the view are noted at its height; the replica makes no proposal in a view in which it has voted,
and does not leave a view while a vote is still to be made. -/
def VotesOnce (E : Env T) (σ : System T) (i : ℕ) : Frame T → Prop
  | .onReceiveProposal prop => (σ.nodes i).rep.Takes prop →
      prop.view = (σ.nodes i).rep.view ∧ prop.proposer = E.getProposer (σ.nodes i).rep.view ∧
      ∀ b, Ballot (σ.history i) (σ.nodes i) b →
        b ∈ (σ.nodes i).rep.proposals ((σ.nodes i).rep.height prop.blk)
  | .doPropose => (σ.nodes i).rep.Proposes → ∀ b, ¬ Ballot (σ.history i) (σ.nodes i) b
  | .tryEnterView => (σ.nodes i).rep.Leaves → ∀ fr ∈ (σ.nodes i).stack, fr.ballot = none
  | _ => True

/-- The votes of a replica, and those still to be made. -/
structure VotesValid (E : Env T) (past : List (Executed T)) (x : Node T) : Prop where
  le : ∀ e ∈ past, e.rep.view ≤ x.rep.view
  judged : ∀ fr ∈ x.stack, ∀ prop, fr.judged = some prop →
    prop.view = x.rep.view ∧ prop.proposer = E.getProposer x.rep.view
  one : ∀ b b', Ballot past x b → Ballot past x b' → b = b'
  voted : ∀ v b b', Voted past v b → Voted past v b' → b = b'

theorem ballot_of_judged {fr : Frame T} {prop : Proposal} (h : fr.judged = some prop) :
    fr.ballot = some prop.blk := by
  unfold Frame.judged at h
  split at h
  · cases h
    rfl
  · cases h
    rfl
  · cases h

/-- A call that leads to a vote is made on a proposal, on the way to a vote, or on proposing. -/
theorem calls_ballot {s : Replica T} {fr fr' : Frame T} (h : Calls E s fr fr') {b : ℕ}
    (hb : fr'.ballot = some b) :
    (∃ prop, fr = .onReceiveProposal prop ∧ prop.blk = b ∧ s.Takes prop ∧
      ∀ k ∈ s.proposals (s.height prop.blk), k = b) ∨
    fr.ballot = some b ∨ (fr = .doPropose ∧ s.Proposes ∧ E.hash s.ownContent = b) := by
  cases h with
  | other _ _ hdirect hdeferred =>
    unfold Frame.ballot at hb
    split at hb
    · exact absurd trivial hdeferred
    · exact absurd trivial hdeferred
    · exact absurd trivial hdirect
    · cases hb
  | taken prop opinion htakes hfirst hbranch =>
    cases opinion with
    | false => cases hb
    | true =>
      cases hb
      exact Or.inl ⟨prop, rfl, rfl, htakes, hfirst rfl⟩
  | aggregated prop opinion =>
    cases opinion with
    | false => cases hb
    | true => exact Or.inr (Or.inl hb)
  | proposalVoted prop hvote => exact Or.inr (Or.inl hb)
  | proposes hproposes => exact Or.inr (Or.inr ⟨rfl, hproposes, Option.some.inj hb⟩)
  | _ => cases hb

theorem calls_judged {s : Replica T} {fr fr' : Frame T} (h : Calls E s fr fr') {prop : Proposal}
    (hprop : fr'.judged = some prop) :
    (fr = .onReceiveProposal prop ∧ s.Takes prop) ∨ fr.judged = some prop := by
  cases h with
  | other _ _ hdirect hdeferred =>
    unfold Frame.judged at hprop
    split at hprop
    · exact absurd trivial hdeferred
    · exact absurd trivial hdeferred
    · cases hprop
  | taken prop opinion htakes hfirst hbranch =>
    cases opinion with
    | false => cases hprop
    | true =>
      cases hprop
      exact Or.inl ⟨rfl, htakes⟩
  | aggregated prop opinion =>
    cases opinion with
    | false => cases hprop
    | true => exact Or.inr hprop
  | _ => cases hprop

/-! ## One call -/

section

variable {i : ℕ} {fr : Frame T} {stack : List (Frame T)}

/-- A call leaves the view with no vote to be made, or stays in it. -/
theorem view_or_leaves (hstack : (σ.nodes i).stack = fr :: stack) (hok : VotesOnce E σ i fr) :
    ((σ.nodes i).rep.exec E fr).rep.view = (σ.nodes i).rep.view ∨
    (((σ.nodes i).rep.exec E fr).rep.view = (σ.nodes i).rep.view + 1 ∧
      (∀ f ∈ stack, f.ballot = none) ∧ ∀ f ∈ ((σ.nodes i).rep.exec E fr).calls, f.ballot = none) := by
  rcases Replica.exec_view (s := (σ.nodes i).rep) (E := E) fr with h | ⟨rfl, h⟩
  · exact Or.inl h
  · rcases Replica.tryEnterView_cases (s := (σ.nodes i).rep) (E := E) rfl with
      hdone | ⟨hcert, hbeacon, -, -, -, hcalls⟩
    · rw [Replica.exec, hdone, Replica.rep_done] at h
      omega
    · refine Or.inr ⟨h, fun f hf => ?_, fun f hf => ?_⟩
      · apply hok ⟨hcert, hbeacon⟩
        rw [hstack]
        exact List.mem_cons_of_mem _ hf
      · rw [Replica.exec, hcalls] at hf
        rw [List.mem_singleton.mp hf]
        rfl

/-- Where a vote comes from that is made or still to be made after a call. -/
theorem ballot_after (hx : VotesValid E (σ.history i) (σ.nodes i))
    (hstack : (σ.nodes i).stack = fr :: stack) (hok : VotesOnce E σ i fr) {b : ℕ}
    (hb : Ballot (⟨i, (σ.nodes i).rep, fr⟩ :: σ.history i)
      (Node.after ((σ.nodes i).rep.exec E fr) stack) b) :
    (∃ prop, fr = .onReceiveProposal prop ∧ prop.blk = b ∧ (σ.nodes i).rep.Takes prop ∧
      ∀ k ∈ (σ.nodes i).rep.proposals ((σ.nodes i).rep.height prop.blk), k = b) ∨
    Ballot (σ.history i) (σ.nodes i) b ∨
    (fr = .doPropose ∧ (σ.nodes i).rep.Proposes ∧ E.hash (σ.nodes i).rep.ownContent = b) := by
  have htop : fr ∈ (σ.nodes i).stack := by
    rw [hstack]
    exact List.mem_cons_self
  unfold Ballot at hb
  rw [Node.rep_after] at hb
  rcases view_or_leaves hstack hok with hview | ⟨hview, hrest, hcalls⟩
  · rw [hview] at hb
    rcases hb with ⟨e, he, hev, proposer, hfr⟩ | ⟨f, hf, hfb⟩
    · rcases List.mem_cons.mp he with rfl | he
      · refine Or.inr (Or.inl (Or.inr ⟨fr, htop, ?_⟩))
        rw [show fr = .vote b proposer from hfr]
        rfl
      · exact Or.inr (Or.inl (Or.inl ⟨e, he, hev, proposer, hfr⟩))
    · rcases Node.mem_stack_after hf with hf | hf
      · rcases calls_ballot (Replica.calls_exec hf) hfb with h | h | h
        · exact Or.inl h
        · exact Or.inr (Or.inl (Or.inr ⟨fr, htop, h⟩))
        · exact Or.inr (Or.inr h)
      · refine Or.inr (Or.inl (Or.inr ⟨f, ?_, hfb⟩))
        rw [hstack]
        exact List.mem_cons_of_mem _ hf
  · -- a new view: nothing is voted for in it yet
    rw [hview] at hb
    rcases hb with ⟨e, he, hev, -⟩ | ⟨f, hf, hfb⟩
    · rcases List.mem_cons.mp he with rfl | he
      · exact absurd hev (Nat.ne_of_lt (Nat.lt_succ_self _))
      · have hle := hx.le e he
        omega
    · rcases Node.mem_stack_after hf with hf | hf
      · rw [hcalls f hf] at hfb
        cases hfb
      · rw [hrest f hf] at hfb
        cases hfb

theorem votesValid_exec (hx : VotesValid E (σ.history i) (σ.nodes i))
    (hstack : (σ.nodes i).stack = fr :: stack) (hok : VotesOnce E σ i fr) :
    VotesValid E (⟨i, (σ.nodes i).rep, fr⟩ :: σ.history i)
      (Node.after ((σ.nodes i).rep.exec E fr) stack) := by
  have htop : fr ∈ (σ.nodes i).stack := by
    rw [hstack]
    exact List.mem_cons_self
  constructor
  · intro e he
    rw [Node.rep_after]
    have hmono := (σ.nodes i).rep.view_le_exec (E := E) fr
    rcases List.mem_cons.mp he with rfl | he
    · exact hmono
    · exact (hx.le e he).trans hmono
  · intro f hf prop hprop
    rw [Node.rep_after]
    rcases view_or_leaves hstack hok with hview | ⟨hview, hrest, hcalls⟩
    · rw [hview]
      rcases Node.mem_stack_after hf with hf | hf
      · rcases calls_judged (Replica.calls_exec hf) hprop with ⟨rfl, htakes⟩ | hold
        · exact ⟨(hok htakes).1, (hok htakes).2.1⟩
        · exact hx.judged fr htop prop hold
      · refine hx.judged f ?_ prop hprop
        rw [hstack]
        exact List.mem_cons_of_mem _ hf
    · have hballot := ballot_of_judged hprop
      rcases Node.mem_stack_after hf with hf | hf
      · rw [hcalls f hf] at hballot
        cases hballot
      · rw [hrest f hf] at hballot
        cases hballot
  · intro b b' hb hb'
    rcases ballot_after hx hstack hok hb with
      ⟨prop, hfr, rfl, htakes, hslot⟩ | hold | ⟨hfr, hprop, rfl⟩
    all_goals
      rcases ballot_after hx hstack hok hb' with
        ⟨prop', hfr', rfl, htakes', hslot'⟩ | hold' | ⟨hfr', hprop', rfl⟩
    · cases hfr.symm.trans hfr'
      rfl
    · subst hfr
      exact (hslot b' ((hok htakes).2.2 b' hold')).symm
    · cases hfr.symm.trans hfr'
    · subst hfr'
      exact hslot' b ((hok htakes').2.2 b hold)
    · exact hx.one b b' hold hold'
    · subst hfr'
      exact absurd hold (hok hprop' b)
    · cases hfr.symm.trans hfr'
    · subst hfr
      exact absurd hold' (hok hprop b')
    · rfl
  · intro v b b' hb hb'
    have hnew : ∀ c, (∃ proposer, fr = .vote c proposer) → Ballot (σ.history i) (σ.nodes i) c := by
      rintro c ⟨proposer, rfl⟩
      exact Or.inr ⟨_, htop, rfl⟩
    obtain ⟨e, he, hev, hfr⟩ := hb
    obtain ⟨e', he', hev', hfr'⟩ := hb'
    rcases List.mem_cons.mp he with rfl | he
    all_goals rcases List.mem_cons.mp he' with rfl | he'
    · exact hx.one b b' (hnew b hfr) (hnew b' hfr')
    · subst hev
      exact hx.one b b' (hnew b hfr) (Or.inl ⟨e', he', hev', hfr'⟩)
    · subst hev'
      exact hx.one b b' (Or.inl ⟨e, he, hev, hfr⟩) (hnew b' hfr')
    · exact hx.voted v b b' ⟨e, he, hev, hfr⟩ ⟨e', he', hev', hfr'⟩

end

theorem Run.votesValid (h : Run E F (VotesOnce E) σ) (i : ℕ) :
    VotesValid E (σ.history i) (σ.nodes i) := by
  refine h.history_induction (I := fun _ past x => VotesValid E past x) ?_ ?_ ?_ i
  · intro i
    constructor
    · exact fun e he => absurd he List.not_mem_nil
    · exact fun f hf => absurd hf List.not_mem_nil
    · rintro b b' (⟨_, he, -⟩ | ⟨_, hf, -⟩)
      · exact absurd he List.not_mem_nil
      · exact absurd hf List.not_mem_nil
    · rintro v b b' ⟨_, he, -⟩
      exact absurd he List.not_mem_nil
  · intro i past x ev hx hidle _
    have hballot : ∀ b, Ballot past (x.take ev) b → Ballot past x b := by
      rintro b (hvoted | ⟨f, hf, hfb⟩)
      · exact Or.inl hvoted
      · cases List.mem_singleton.mp hf
        cases ev <;> cases hfb
    refine ⟨hx.le, ?_, fun b b' hb hb' => hx.one b b' (hballot b hb) (hballot b' hb'), hx.voted⟩
    intro f hf prop hprop
    cases List.mem_singleton.mp hf
    cases ev <;> cases hprop
  · exact fun σ i fr stack _ _ hok hx hstack => votesValid_exec hx hstack hok

/-- What a vote follows on: the call of `on_receive_proposal` that decided to vote, or the replica's
own `on_propose`. -/
theorem Run.vote_caller (h : Run E F (VotesOnce E) σ) {i : ℕ} {e : Executed T}
    (he : e ∈ σ.history i) {b v : ℕ} (hout : .signed .vote b v ∈ (e.outcome E).out) :
    ∃ e₀ ∈ σ.history i, (e₀.outcome E).rep = e.rep ∧
      (∃ proposer, .vote b proposer ∈ (e₀.outcome E).calls) ∧ (e₀.frame = .doPropose ∨
        ∃ prop, e₀.frame = .proposalVote prop true ∧ prop.blk = b ∧ prop.view = v ∧
          prop.proposer = E.getProposer v) := by
  obtain ⟨hmem, rfl⟩ := mem_history.mp he
  obtain ⟨rfl, hkind⟩ := Replica.exec_signed hout
  obtain ⟨proposer, hfr⟩ : ∃ p, e.frame = .vote b p := by
    rcases hkind with ⟨-, h⟩ | ⟨h, -⟩ | h
    · exact h
    · cases h
    · cases h
  obtain ⟨σ', stack, hrun, hsuffix, -, hrep, hstack, -⟩ := h.exists_of_mem_trace hmem
  rw [hfr] at hstack
  obtain ⟨e₀, rest, hpast, hstate, hmade⟩ := hrun.made hstack trivial
  have hcall := Replica.calls_exec hmade
  have he₀ : e₀ ∈ σ'.history e.node := by
    rw [hpast]
    exact List.mem_cons_self
  obtain ⟨hmem₀, hnode₀⟩ := mem_history.mp he₀
  refine ⟨e₀, mem_history.mpr ⟨hsuffix.subset hmem₀, hnode₀⟩, hstate.trans hrep,
    ⟨proposer, hmade⟩, ?_⟩
  generalize hfr₀ : e₀.frame = fr₀ at hcall
  cases hcall with
  | other _ _ hdirect => exact absurd trivial hdirect
  | proposes => exact Or.inl rfl
  | proposalVoted prop hvote =>
    obtain ⟨σ₀, stack₀, hrun₀, -, -, hrep₀, hstack₀, -⟩ := hrun.exists_of_mem_trace hmem₀
    have hvalid := (hrun₀.votesValid e₀.node).judged (.proposalVote prop true)
      (by rw [hstack₀, hfr₀]; exact List.mem_cons_self) prop rfl
    have hview : e₀.rep.view = e.rep.view := by
      rw [← hrep, ← hstate]
      unfold Executed.outcome
      rw [hfr₀]
      rcases Replica.exec_view (s := e₀.rep) (E := E) (.proposalVote prop true) with hv | ⟨hv, -⟩
      · exact hv.symm
      · cases hv
    rw [hrep₀, hview] at hvalid
    exact Or.inr ⟨prop, rfl, rfl, hvalid.1, hvalid.2⟩

/-- If the proposals taken up are of the current view and by its proposer, those of a view in which
the replica has voted have the height of the block voted for, and no view is left before the vote,
then each vote that is emitted was called for by the decision on a proposal of its view by the
proposer of the view, or by the replica's own proposal, and the votes of a view are for one
block. -/
theorem votes_valid (E : Env T) (F : Faults T) (σ : System T) (h : Run E F (VotesOnce E) σ)
    (i : ℕ) :
    (∀ e ∈ σ.history i, ∀ b v, .signed .vote b v ∈ (e.outcome E).out →
      ∃ e₀ ∈ σ.history i, (e₀.outcome E).rep = e.rep ∧
        (∃ proposer, .vote b proposer ∈ (e₀.outcome E).calls) ∧ (e₀.frame = .doPropose ∨
          ∃ prop, e₀.frame = .proposalVote prop true ∧ prop.blk = b ∧ prop.view = v ∧
            prop.proposer = E.getProposer v)) ∧
    ∀ b b' v, σ.Emitted E i (.signed .vote b v) → σ.Emitted E i (.signed .vote b' v) → b = b' := by
  refine ⟨fun e he b v hout => h.vote_caller he hout, ?_⟩
  have hvoted : ∀ {b v}, σ.Emitted E i (.signed .vote b v) → Voted (σ.history i) v b := by
    rintro b v ⟨e, he, hnode, hout⟩
    obtain ⟨rfl, ⟨-, h⟩ | ⟨h, -⟩ | h⟩ := Replica.exec_signed hout
    · exact ⟨e, mem_history.mpr ⟨he, hnode⟩, rfl, h⟩
    · cases h
    · cases h
  exact fun b b' v hb hb' => (h.votesValid i).voted v b b' (hvoted hb) (hvoted hb')

/-- Whether replica `i` has no vote in its view, made or still to be made. -/
def noBallot (σ : System plainTypes) (i : ℕ) : Bool :=
  ((σ.history i).all fun e => e.rep.view != (σ.nodes i).rep.view || e.frame.ballot.isNone) &&
    (σ.nodes i).stack.all fun fr => fr.ballot.isNone

theorem not_ballot_of_check {σ : System plainTypes} {i b : ℕ} (h : noBallot σ i = true) :
    ¬ Ballot (σ.history i) (σ.nodes i) b := by
  simp only [noBallot, Bool.and_eq_true, List.all_eq_true, Bool.or_eq_true, bne_iff_ne,
    Option.isNone_iff_eq_none] at h
  obtain ⟨hpast, hstack⟩ := h
  rintro (⟨e, he, hview, proposer, hfr⟩ | ⟨fr, hfr, hb⟩)
  · have hnone := (hpast e he).resolve_left (not_not.mpr hview)
    rw [hfr] at hnone
    cases hnone
  · rw [hstack fr hfr] at hb
    cases hb

/-- Whether a call is the first in its view to lead to a vote. -/
def votesOnce (σ : System plainTypes) (i : ℕ) : Frame plainTypes → Bool
  | .onReceiveProposal prop => prop.view == (σ.nodes i).rep.view &&
      (prop.proposer == twoEnv.getProposer (σ.nodes i).rep.view && noBallot σ i)
  | .doPropose => noBallot σ i
  | .tryEnterView => (σ.nodes i).stack.all fun fr => fr.ballot.isNone
  | _ => true

theorem votesOnce_of_check {σ : System plainTypes} {i : ℕ} {fr : Frame plainTypes}
    (h : votesOnce σ i fr = true) : VotesOnce twoEnv σ i fr := by
  cases fr
  case onReceiveProposal prop =>
    simp only [votesOnce, Bool.and_eq_true, beq_iff_eq] at h
    obtain ⟨hview, hproposer, hno⟩ := h
    exact fun _ => ⟨hview, hproposer, fun b hb => absurd hb (not_ballot_of_check hno)⟩
  case doPropose => exact fun _ b => not_ballot_of_check h
  case tryEnterView =>
    intro _ fr hfr
    exact Option.isNone_iff_eq_none.mp (List.all_eq_true.mp h fr hfr)
  all_goals exact trivial

/-- Replica `1` votes for the proposal of replica `0` in view `1`, and for its own in view `2`. -/
theorem votes_valid_two : ∃ σ : System plainTypes,
    (∃ b b', σ.Emitted twoEnv 1 (.signed .vote b 1) ∧ σ.Emitted twoEnv 1 (.signed .vote b' 2) ∧
      ∃ blk, (σ.nodes 1).rep.blkCache b' = some blk ∧ blk.parentHashes = [b]) ∧
    (∀ e ∈ σ.history 1, ∀ b v, .signed .vote b v ∈ (e.outcome twoEnv).out →
      ∃ e₀ ∈ σ.history 1, (e₀.outcome twoEnv).rep = e.rep ∧
        (∃ proposer, .vote b proposer ∈ (e₀.outcome twoEnv).calls) ∧ (e₀.frame = .doPropose ∨
          ∃ prop, e₀.frame = .proposalVote prop true ∧ prop.blk = b ∧ prop.view = v ∧
            prop.proposer = twoEnv.getProposer v)) ∧
    ∀ b b' v, σ.Emitted twoEnv 1 (.signed .vote b v) → σ.Emitted twoEnv 1 (.signed .vote b' v) →
      b = b' := by
  obtain ⟨σ, hrun, htest⟩ := exists_of_play twoEnv noFaults votesOnce
    (fun _ _ _ => votesOnce_of_check) twoViews
    (fun σ => (votesIn twoEnv σ 1 1).any fun b => (votesIn twoEnv σ 1 2).any fun b' =>
      ((σ.nodes 1).rep.blkCache b').any fun blk : Block plainTypes => blk.parentHashes == [b])
    (by decide +kernel)
  simp only [List.any_eq_true, Option.any_eq_true, beq_iff_eq] at htest
  obtain ⟨b, hb, b', hb', blk, hblk, hparent⟩ := htest
  exact ⟨σ, ⟨b, b', emitted_of_mem_votesIn hb, emitted_of_mem_votesIn hb', blk, hblk, hparent⟩,
    votes_valid twoEnv noFaults σ hrun 1⟩

/-- Whether a call votes for a proposal that is not by the proposer of the view. -/
def votesForOther (e : Executed plainTypes) : Bool :=
  match e.frame with
  | .proposalVote prop true =>
    !e.rep.voteDisabled && prop.proposer != voteEnv.getProposer e.rep.view
  | _ => false

/-- Replica `1` votes for a proposal that says to be by replica `2`, in a view that replica `0`
proposes, and then for its child in the same view. -/
theorem votes_unrelated : ∃ σ : System plainTypes, Reachable voteEnv firstByzantine σ ∧
    Honest voteEnv firstByzantine 1 ∧
    (∃ e ∈ σ.history 1, ∃ prop, e.frame = .proposalVote prop true ∧
      .vote prop.blk prop.proposer ∈ (e.outcome voteEnv).calls ∧
      prop.proposer ≠ voteEnv.getProposer e.rep.view) ∧
    σ.Emitted voteEnv 1 (.signed .vote (voteEnv.hash firstBlock) 1) ∧
    σ.Emitted voteEnv 1 (.signed .vote (voteEnv.hash childBlock) 1) := by
  obtain ⟨σ, hrun, htest⟩ := exists_reachable_of_play voteEnv firstByzantine
    [.inject 0 1 (.propose ⟨2, firstBlock, 1⟩), .inject 0 1 (.propose ⟨0, childBlock, 1⟩)]
    (fun σ => (σ.trace.any fun e => e.node == 1 && votesForOther e) &&
      (decide (voteEnv.hash firstBlock ∈ votesIn voteEnv σ 1 1) &&
        decide (voteEnv.hash childBlock ∈ votesIn voteEnv σ 1 1)))
    (by decide +kernel)
  obtain ⟨hother, hfirst, hsecond⟩ : _ ∧ _ ∧ _ := by
    simpa only [Bool.and_eq_true, decide_eq_true_eq] using htest
  refine ⟨σ, hrun, by decide, ?_, emitted_of_mem_votesIn hfirst, emitted_of_mem_votesIn hsecond⟩
  simp only [List.any_eq_true, Bool.and_eq_true, beq_iff_eq] at hother
  obtain ⟨e, he, hnode, hvotes⟩ := hother
  unfold votesForOther at hvotes
  split at hvotes
  · rename_i prop hfr
    simp only [Bool.and_eq_true, Bool.not_eq_true', bne_iff_ne] at hvotes
    refine ⟨e, mem_history.mpr ⟨he, hnode⟩, prop, hfr, ?_, hvotes.2⟩
    unfold Executed.outcome
    rw [hfr]
    simp [Replica.exec, Replica.proposalVote, Replica.call, hvotes.1]
  · cases hvotes

end System

end OptRand.Hotstuff
