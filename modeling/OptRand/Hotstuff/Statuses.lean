import OptRand.Hotstuff.Agenda
import OptRand.Hotstuff.AggQueue

/-!
# The proposer of a view, and its status

The proposer is kept twice: `get_proposer(view)` computes it, and the pacemaker has it as a field
that `enter_view` sets. `_try_enter_view` changes both; the callback of a client command enters
view `1` at the pacemaker in whatever view the replica is (`System.proposer_agrees`).

`on_enter_view(w)` resolves the promise of view `w` first. Messages that waited for it are handled
inside that call, and when they complete the view the replica is in view `w + 1` before the status
of view `w` is built, from the field `view`. A status goes out once for every view, and to its
proposer, as long as this does not happen (`System.one_status`).
-/

namespace OptRand.Hotstuff

open Lib

variable {T : PayloadTypes}

/-- A call that sends the status of a view. -/
def Frame.sendsStatus : Frame T → Bool
  | .onEnterView _ | .sendStatus => true
  | _ => false

/-- The status that a call passes to `do_status`, and the replica that it is addressed to. -/
def Executed.status (e : Executed T) : Option (ℕ × Status) :=
  match e.frame with
  | .sendStatus => some (e.rep.pm.proposer, ⟨e.rep.id, e.rep.view, e.rep.hqc.2⟩)
  | _ => none

/-- The statuses of view `w` that have been passed to `do_status`. -/
def statuses (past : List (Executed T)) (w : ℕ) : List (ℕ × Status) :=
  (past.filterMap Executed.status).filter fun p => p.2.view = w

namespace Replica

variable {s : Replica T} {E : Env T} {fr : Frame T}

/-- The pacemaker agrees with `get_proposer`. -/
def Agrees (E : Env T) (s : Replica T) : Prop := s.pm.proposer = E.getProposer s.view

/-- A client command leaves the pacemaker with the proposer of the view. -/
def KeepsProposer (E : Env T) (s : Replica T) (fr : Frame T) : Prop :=
  fr = .beatCallback → s.lastProposedView < s.view → E.getProposer s.view = E.getProposer 1

instance : Decidable (s.Agrees E) := inferInstanceAs (Decidable (_ = _))

theorem view_of_enters (henters : s.Enters) : (s.tryEnterView E).rep.view = s.view + 1 := by
  rcases tryEnterView_cases (rfl : s.tryEnterView E = _) with h | ⟨-, -, h, -⟩
  · unfold tryEnterView at h
    unfold Enters at henters
    rw [if_pos henters] at h
    exact absurd (congrArg Outcome.calls h) (List.cons_ne_nil _ _)
  · exact congrArg Views.view h

/-- Only the entry of a view changes the view. -/
theorem exec_view_of_not (h : fr = .tryEnterView → ¬ s.Enters) :
    (s.exec E fr).rep.view = s.view := by
  rcases exec_view (s := s) (E := E) fr with hview | ⟨rfl, -⟩
  · exact hview
  · rw [exec, tryEnterView_of_not (h rfl)]
    rfl

/-- The proposer of the pacemaker changes with the view, or with a client command. -/
theorem exec_proposer (hbeat : fr ≠ .beatCallback)
    (henter : fr = .tryEnterView → ¬ s.Enters) :
    (s.exec E fr).rep.pm.proposer = s.pm.proposer := by
  by_cases hnot : fr = .tryEnterView
  · rw [hnot, exec, tryEnterView_of_not (henter hnot)]
    rfl
  · rw [exec_patch]
    cases fr <;> first | rfl | exact absurd rfl hbeat | exact absurd rfl hnot

/-- After a call the pacemaker agrees, if it did before, exactly when no client command has made
it enter view `1` in a view of another proposer. -/
theorem agrees_exec (fr : Frame T) (hrotating : s.pm.rotating = false) (hs : s.Agrees E) :
    (s.exec E fr).rep.Agrees E ↔ s.KeepsProposer E fr := by
  by_cases hbeat : fr = .beatCallback
  · subst hbeat
    by_cases hlast : s.lastProposedView < s.view
    · have hproposer : (s.beatCallback E).rep.pm.proposer = E.getProposer 1 :=
        congrArg (fun a => a.2.1) (agenda_beatCallback hrotating hlast)
      have hview : (s.beatCallback E).rep.view = s.view :=
        congrArg Views.view pmStep_beatCallback.views
      unfold Agrees KeepsProposer
      rw [exec, hproposer, hview]
      exact ⟨fun h _ _ => h.symm, fun h => (h rfl hlast).symm⟩
    · rw [exec, beatCallback_of_not hlast]
      exact ⟨fun _ _ h => absurd h hlast, fun _ => hs⟩
  · refine ⟨fun _ h => absurd h hbeat, fun _ => ?_⟩
    unfold Agrees
    by_cases henter : fr = .tryEnterView ∧ s.Enters
    · obtain ⟨rfl, henters⟩ := henter
      rw [exec, view_of_enters henters]
      exact congrArg (fun a => a.2.1) (agenda_tryEnterView hrotating henters)
    · have hnot : fr = .tryEnterView → ¬ s.Enters := fun h henters => henter ⟨h, henters⟩
      rw [exec_proposer hbeat hnot, exec_view_of_not hnot]
      exact hs

/-- A view is entered by `_try_enter_view`, by a client command, or not at all. -/
theorem entry_cases (s : Replica T) (fr : Frame T) :
    (fr = .tryEnterView ∧ s.Enters) ∨ (fr = .beatCallback ∧ s.lastProposedView < s.view) ∨
      ((fr = .tryEnterView → ¬ s.Enters) ∧
        (fr = .beatCallback → ¬ s.lastProposedView < s.view)) := by
  by_cases henter : fr = .tryEnterView ∧ s.Enters
  · exact Or.inl henter
  · by_cases hcommand : fr = .beatCallback ∧ s.lastProposedView < s.view
    · exact Or.inr (Or.inl hcommand)
    · exact Or.inr (Or.inr ⟨not_and.mp henter, not_and.mp hcommand⟩)

theorem calls_of_enters (henters : s.Enters) :
    (s.tryEnterView E).calls = [.onEnterView (s.view + 1)] := by
  unfold tryEnterView
  unfold Enters at henters
  rw [if_pos henters, updateAggQueue_eq]
  rfl

theorem calls_beatCallback (hlast : s.lastProposedView < s.view) :
    (s.beatCallback E).calls = [.onEnterView 1] := by
  unfold beatCallback
  rw [if_neg (not_le.mpr hlast)]
  rfl

/-- Calls that enter no view call nothing that does. -/
theorem not_onEnterView_of_not (henter : fr = .tryEnterView → ¬ s.Enters)
    (hcommand : fr = .beatCallback → ¬ s.lastProposedView < s.view) (v : ℕ) :
    .onEnterView v ∉ (s.exec E fr).calls := by
  intro h
  cases schedules_exec h with
  | other _ _ hfr => exact hfr trivial
  | entered henters => exact henter rfl henters
  | command hlast => exact hcommand rfl hlast

/-- A call that enters no view sends the status that it had to send, or hands it over. -/
theorem countP_calls (i : ℕ) (henter : fr = .tryEnterView → ¬ s.Enters)
    (hcommand : fr = .beatCallback → ¬ s.lastProposedView < s.view) :
    (s.exec E fr).calls.countP Frame.sendsStatus +
      (Executed.status ⟨i, s, fr⟩).toList.length = [fr].countP Frame.sendsStatus := by
  have hzero : (∀ v, fr ≠ .onEnterView v) →
      (s.exec E fr).calls.countP Frame.sendsStatus = 0 := by
    intro hview
    rw [List.countP_eq_zero]
    intro fr' hfr' hsends
    cases schedules_exec hfr' with
    | other _ _ hfr => cases fr' <;> first | exact hfr trivial | cases hsends
    | waited => cases hsends
    | entered henters => exact henter rfl henters
    | command hlast => exact hcommand rfl hlast
    | status v => exact hview v rfl
    | proposed => cases hsends
  cases fr
  case onEnterView v => rfl
  all_goals
    rw [hzero (fun v h => by cases h)]
    rfl

end Replica

/-! ## The two proposers -/

namespace System

/-- Client commands enter view `1` only in views of its proposer. -/
def CommandsInTurn (E : Env T) (σ : System T) (i : ℕ) (fr : Frame T) : Prop :=
  (σ.nodes i).rep.KeepsProposer E fr

/-- In runs whose client commands meet `CommandsInTurn` the pacemaker has the proposer of the view
in every state, and the next call leaves it so exactly when it meets the condition too. -/
theorem proposer_agrees (E : Env T) (F : Faults T) (σ : System T)
    (h : Run E F (CommandsInTurn E) σ) (i : ℕ) :
    (σ.nodes i).rep.pm.proposer = E.getProposer (σ.nodes i).rep.view ∧
      ∀ fr : Frame T, ((σ.nodes i).rep.exec E fr).rep.Agrees E ↔ CommandsInTurn E σ i fr := by
  have hagrees : (σ.nodes i).rep.Agrees E := by
    refine h.node_induction (I := fun _ x => x.rep.Agrees E) (fun i => rfl) ?_ ?_ i
    · exact fun i x ev hx _ _ => hx
    · intro σ i fr stack hrun _ hok hx _
      rw [Node.rep_after]
      exact (Replica.agrees_exec fr (hrun.rotating i) hx).mpr hok
  exact ⟨hagrees, fun fr => Replica.agrees_exec fr (h.rotating i) hagrees⟩

/-- Replica `1` is Byzantine. -/
def secondByzantine : Faults plainTypes := ⟨{1}, fun _ => []⟩

/-- A block of replica `1` on top of the genesis block. -/
def blockOf (agg : ℕ) : BlockContent plainTypes :=
  ⟨[twoEnv.genesis], [], some (QuorumCertSecp256k1.create twoEnv.genesis 0), twoEnv.genesis, agg⟩

/-- An acknowledgement of replica `1`. -/
def ackOf (blk view : ℕ) : Msg plainTypes := .ack ⟨1, blk, createPartCert 1 blk view, view⟩

/-- A share of replica `1` for the aggregate `agg`. -/
def shareOf (view agg : ℕ) : Msg plainTypes := .share ⟨1, view, ((1, agg) : ℕ × ℕ)⟩

/-- Replica `1` sends replica `0` a proposal. -/
def sendsBlock (agg view : ℕ) : List (Scripted plainTypes) :=
  [.inject 1 0 (.propose ⟨1, blockOf agg, view⟩), .verify 0]

/-- Replica `0` leaves view `1`: a certificate for the genesis block without signatures, an
acknowledgement of that block and a share. -/
def leavesFirst : List (Scripted plainTypes) :=
  [.inject 1 0 (.qc (QuorumCertSecp256k1.create twoEnv.genesis 1)),
    .inject 1 0 (ackOf twoEnv.genesis 1), .verify 0, .inject 1 0 (shareOf 1 1)]

/-- Whether a call is no client command that enters a view. -/
def noCommand (σ : System plainTypes) (i : ℕ) : Frame plainTypes → Bool
  | .beatCallback => (σ.nodes i).rep.view == 1
  | _ => true

theorem view_of_noCommand {σ : System plainTypes} {i : ℕ} {fr : Frame plainTypes}
    (h : noCommand σ i fr = true) (hfr : fr = .beatCallback) : (σ.nodes i).rep.view = 1 := by
  subst hfr
  exact eq_of_beq h

theorem commandsInTurn_of_check {σ : System plainTypes} {i : ℕ} {fr : Frame plainTypes}
    (h : noCommand σ i fr = true) : CommandsInTurn twoEnv σ i fr := by
  intro hfr _
  rw [view_of_noCommand h hfr]

theorem proposer_agrees_second : ∃ σ : System plainTypes, (σ.nodes 0).rep.view = 2 ∧
    (σ.nodes 0).rep.pm.proposer = twoEnv.getProposer (σ.nodes 0).rep.view ∧
    ∀ fr : Frame plainTypes, ((σ.nodes 0).rep.exec twoEnv fr).rep.Agrees twoEnv ↔
      CommandsInTurn twoEnv σ 0 fr := by
  obtain ⟨σ, hrun, htest⟩ := exists_of_play twoEnv secondByzantine noCommand
    (fun _ _ _ => commandsInTurn_of_check) (.command 0 7 :: sendsBlock 11 1 ++ leavesFirst)
    (fun σ => (σ.nodes 0).rep.view == 2) (by decide +kernel)
  exact ⟨σ, eq_of_beq htest, proposer_agrees twoEnv secondByzantine σ hrun 0⟩

/-- A client command in view `2` makes replica `0` the proposer of its own pacemaker. -/
theorem proposer_disagrees : ∃ σ : System plainTypes, Reachable twoEnv secondByzantine σ ∧
    Honest twoEnv secondByzantine 0 ∧ (σ.nodes 0).Idle ∧
    (σ.nodes 0).rep.pm.proposer ≠ twoEnv.getProposer (σ.nodes 0).rep.view := by
  obtain ⟨σ, hrun, htest⟩ := exists_reachable_of_play twoEnv secondByzantine
    (sendsBlock 11 1 ++ leavesFirst ++ [.command 0 7])
    (fun σ => ((σ.nodes 0).stack.isEmpty && (σ.nodes 0).crashed.isNone) &&
      !decide ((σ.nodes 0).rep.Agrees twoEnv)) (by decide +kernel)
  simp only [Bool.and_eq_true, List.isEmpty_iff, Option.isNone_iff_eq_none, Bool.not_eq_true',
    decide_eq_false_iff_not] at htest
  exact ⟨σ, hrun, by decide, htest⟩

end System

/-! ## One status for every view -/

/-- What a replica that has not thrown knows of the statuses of its views: those of the views it
has left are sent, and that of its view is sent or under way. -/
structure Reports (E : Env T) (past : List (Executed T)) (s : Replica T)
    (stack : List (Frame T)) : Prop where
  agrees : s.Agrees E
  dest : ∀ w, ∀ p ∈ statuses past w, p.1 = E.getProposer w
  entering : ∀ v, .onEnterView v ∉ stack.tail
  later : ∀ w, s.view < w → statuses past w = []
  left : ∀ w, 2 ≤ w → w < s.view → (statuses past w).length = 1
  current : 2 ≤ s.view →
    (statuses past s.view).length + stack.countP Frame.sendsStatus = 1

theorem statuses_cons (e : Executed T) (past : List (Executed T)) (w : ℕ) :
    statuses (e :: past) w = (e.status.toList.filter fun p => p.2.view = w) ++ statuses past w := by
  unfold statuses
  rw [List.filterMap_cons]
  cases e.status with
  | none => rfl
  | some p => exact List.filter_append [p] _

/-- A status is of the view of the replica that sends it, and goes to the proposer of its
pacemaker. -/
theorem Executed.eq_of_status {e : Executed T} {p : ℕ × Status} (h : e.status = some p) :
    p.1 = e.rep.pm.proposer ∧ p.2.view = e.rep.view := by
  unfold Executed.status at h
  split at h
  · cases h
    exact ⟨rfl, rfl⟩
  · cases h

theorem statuses_cons_of_ne {e : Executed T} {w : ℕ} (past : List (Executed T))
    (h : w ≠ e.rep.view) : statuses (e :: past) w = statuses past w := by
  rw [statuses_cons, List.filter_eq_nil_iff.mpr, List.nil_append]
  intro p hp hview
  have hstatus := Option.mem_toList.mp hp
  exact h ((of_decide_eq_true hview).symm.trans (Executed.eq_of_status hstatus).2)

theorem length_statuses_cons (e : Executed T) (past : List (Executed T)) :
    (statuses (e :: past) e.rep.view).length =
      e.status.toList.length + (statuses past e.rep.view).length := by
  rw [statuses_cons, List.length_append, List.filter_eq_self.mpr]
  intro p hp
  exact decide_eq_true (Executed.eq_of_status (Option.mem_toList.mp hp)).2

namespace Reports

variable {E : Env T} {past : List (Executed T)} {s : Replica T} {fr : Frame T}
variable {stack : List (Frame T)} {i : ℕ}

theorem dest_cons (h : Reports E past s (fr :: stack)) (w : ℕ) :
    ∀ p ∈ statuses (⟨i, s, fr⟩ :: past) w, p.1 = E.getProposer w := by
  intro p hp
  rw [statuses_cons] at hp
  rcases List.mem_append.mp hp with hp | hp
  · obtain ⟨hp, hview⟩ := List.mem_filter.mp hp
    obtain ⟨hproposer, hsview⟩ := Executed.eq_of_status (Option.mem_toList.mp hp)
    have hw : s.view = w := hsview.symm.trans (of_decide_eq_true hview)
    rw [hproposer, ← hw]
    exact h.agrees
  · exact h.dest w p hp

theorem later_cons (h : Reports E past s (fr :: stack)) {w : ℕ} (hw : s.view < w) :
    statuses (⟨i, s, fr⟩ :: past) w = [] := by
  rw [statuses_cons_of_ne past hw.ne']
  exact h.later w hw

theorem left_cons (h : Reports E past s (fr :: stack)) {w : ℕ} (hw : 2 ≤ w) (hlt : w < s.view) :
    (statuses (⟨i, s, fr⟩ :: past) w).length = 1 := by
  rw [statuses_cons_of_ne past hlt.ne]
  exact h.left w hw hlt

/-- The entry of a view, while no status is under way. -/
theorem enter (h : Reports E past s (.tryEnterView :: stack)) (henters : s.Enters)
    (hrotating : s.pm.rotating = false) (hnone : .sendStatus ∉ stack) :
    Reports E (⟨i, s, .tryEnterView⟩ :: past) (s.tryEnterView E).rep
      ((s.tryEnterView E).calls ++ stack) := by
  have hzero : stack.countP Frame.sendsStatus = 0 := by
    rw [List.countP_eq_zero]
    intro fr hfr hsends
    cases fr <;> try cases hsends
    case onEnterView v => exact h.entering v hfr
    case sendStatus => exact hnone hfr
  have hview := Replica.view_of_enters (E := E) henters
  rw [Replica.calls_of_enters henters]
  refine ⟨?_, h.dest_cons, h.entering, ?_, ?_, ?_⟩
  · exact (Replica.agrees_exec .tryEnterView hrotating h.agrees).mpr nofun
  · intro w hw
    rw [hview] at hw
    exact h.later_cons (by omega)
  · intro w hw hlt
    rw [hview] at hlt
    rcases Nat.lt_succ_iff_lt_or_eq.mp hlt with hlt | rfl
    · exact h.left_cons hw hlt
    · -- the status of the view that is left has been sent
      have hcurrent := h.current hw
      rw [List.countP_cons_of_neg Bool.false_ne_true, hzero] at hcurrent
      rw [length_statuses_cons]
      exact (Nat.zero_add _).trans hcurrent
  · intro _
    rw [hview, h.later_cons (Nat.lt_succ_self _), List.singleton_append,
      List.countP_cons_of_pos rfl, hzero]
    rfl

/-- A client command in view `1`. -/
theorem command (h : Reports E past s (.beatCallback :: stack))
    (hlast : s.lastProposedView < s.view) (hrotating : s.pm.rotating = false)
    (hfirst : s.view = 1) :
    Reports E (⟨i, s, .beatCallback⟩ :: past) (s.beatCallback E).rep
      ((s.beatCallback E).calls ++ stack) := by
  have hview : (s.beatCallback E).rep.view = 1 :=
    (congrArg Views.view Replica.pmStep_beatCallback.views).trans hfirst
  rw [Replica.calls_beatCallback hlast]
  refine ⟨?_, h.dest_cons, h.entering, ?_, ?_, ?_⟩
  · refine (Replica.agrees_exec .beatCallback hrotating h.agrees).mpr fun _ _ => ?_
    rw [hfirst]
  · intro w hw
    exact h.later_cons (by omega)
  all_goals omega

/-- A call that enters no view. -/
theorem other (h : Reports E past s (fr :: stack)) (hrotating : s.pm.rotating = false)
    (henter : fr = .tryEnterView → ¬ s.Enters)
    (hcommand : fr = .beatCallback → ¬ s.lastProposedView < s.view) :
    Reports E (⟨i, s, fr⟩ :: past) (s.exec E fr).rep ((s.exec E fr).calls ++ stack) := by
  have hview := Replica.exec_view_of_not (E := E) henter
  refine ⟨?_, h.dest_cons, ?_, ?_, ?_, ?_⟩
  · exact (Replica.agrees_exec fr hrotating h.agrees).mpr fun hfr hlast =>
      absurd hlast (hcommand hfr)
  · intro v hv
    rcases List.mem_append.mp (List.mem_of_mem_tail hv) with hv | hv
    · exact Replica.not_onEnterView_of_not henter hcommand v hv
    · exact h.entering v hv
  · intro w hw
    exact h.later_cons (hview ▸ hw)
  · intro w hw hlt
    exact h.left_cons hw (hview ▸ hlt)
  · intro hw
    rw [hview] at hw ⊢
    have hcalls := Replica.countP_calls (E := E) i henter hcommand
    have hcurrent := h.current hw
    have hlength : (statuses (⟨i, s, fr⟩ :: past) s.view).length =
        (Executed.status ⟨i, s, fr⟩).toList.length + (statuses past s.view).length :=
      length_statuses_cons ⟨i, s, fr⟩ past
    rw [← List.singleton_append, List.countP_append] at hcurrent
    rw [List.countP_append]
    omega

theorem statuses_le (h : Reports E past s stack) {w : ℕ} (hw : 2 ≤ w) :
    (statuses past w).length ≤ 1 := by
  rcases lt_trichotomy w s.view with hlt | rfl | hlt
  · exact (h.left w hw hlt).le
  · have hcurrent := h.current hw
    omega
  · rw [h.later w hlt]
    exact Nat.zero_le 1

end Reports

namespace System

/-- No view is entered while a status is to be sent, and no client command enters a view but the
first. -/
def EntersOnce (σ : System T) (i : ℕ) (fr : Frame T) : Prop :=
  (fr = .tryEnterView → (σ.nodes i).rep.Enters → .sendStatus ∉ (σ.nodes i).stack) ∧
    (fr = .beatCallback → (σ.nodes i).rep.lastProposedView < (σ.nodes i).rep.view →
      (σ.nodes i).rep.view = 1)

/-- What is known of the statuses of a replica, whether or not it has thrown. -/
def Reported (E : Env T) (past : List (Executed T)) (x : Node T) : Prop :=
  (∀ w, ∀ p ∈ statuses past w, p.1 = E.getProposer w) ∧
    (∀ w, 2 ≤ w → (statuses past w).length ≤ 1) ∧
    (x.crashed = none → Reports E past x.rep x.stack)

theorem Run.reported {E : Env T} {F : Faults T} {σ : System T} (h : Run E F EntersOnce σ)
    (i : ℕ) : Reported E (σ.history i) (σ.nodes i) := by
  refine h.history_induction (I := fun _ past x => Reported E past x) ?_ ?_ ?_ i
  · intro i
    refine ⟨fun w p hp => absurd hp List.not_mem_nil, fun w _ => Nat.zero_le 1, fun _ => ?_⟩
    refine ⟨rfl, fun w p hp => absurd hp List.not_mem_nil, fun v hv => absurd hv List.not_mem_nil,
      fun w _ => rfl, fun w hw hlt => ?_, fun hw => ?_⟩
    · change w < 1 at hlt
      omega
    · change 2 ≤ 1 at hw
      omega
  · rintro i past x ev ⟨hdest, hle, hx⟩ hidle -
    refine ⟨hdest, hle, fun hcrashed => ?_⟩
    obtain ⟨hagrees, -, hentering, hlater, hleft, hcurrent⟩ := hx hcrashed
    rw [hidle.1] at hcurrent
    refine ⟨hagrees, hdest, fun v hv => absurd hv List.not_mem_nil, hlater, hleft, fun hw => ?_⟩
    refine Eq.trans ?_ (hcurrent hw)
    cases ev <;> rfl
  · rintro σ i fr stack hrun - hok ⟨hdest, hle, hx⟩ hstack
    have hreports := hx (hrun.crashed_eq_none hstack)
    rw [hstack] at hreports
    have hrotating := hrun.rotating i
    have hnext : (Node.after ((σ.nodes i).rep.exec E fr) stack).crashed = none →
        Reports E (⟨i, (σ.nodes i).rep, fr⟩ :: σ.history i)
          (Node.after ((σ.nodes i).rep.exec E fr) stack).rep
          (Node.after ((σ.nodes i).rep.exec E fr) stack).stack := by
      intro hdone
      rw [Node.after_of_done hdone]
      rcases (σ.nodes i).rep.entry_cases fr with ⟨rfl, henters⟩ | ⟨rfl, hlast⟩ | ⟨henter, hlast⟩
      · have hnone := hok.1 rfl henters
        rw [hstack] at hnone
        exact hreports.enter henters hrotating (List.not_mem_of_not_mem_cons hnone)
      · exact hreports.command hlast hrotating (hok.2 rfl hlast)
      · exact hreports.other hrotating henter hlast
    refine ⟨hreports.dest_cons, fun w hw => ?_, hnext⟩
    cases hcrashed : (Node.after ((σ.nodes i).rep.exec E fr) stack).crashed with
    | none => exact (hnext hcrashed).statuses_le hw
    | some error =>
      -- `send_status` does not throw
      have hnone : Executed.status ⟨i, (σ.nodes i).rep, fr⟩ = none := by
        rw [Node.crashed_after] at hcrashed
        cases fr <;> try rfl
        rw [Replica.exec, Replica.sendStatus] at hcrashed
        split at hcrashed
        all_goals cases hcrashed
      rw [statuses_cons, hnone]
      exact hle w hw

/-- In runs that meet `EntersOnce` at most one status is sent for each view that is entered, to its
proposer; exactly one, when the replica waits for its next event. -/
theorem one_status (E : Env T) (F : Faults T) (σ : System T) (h : Run E F EntersOnce σ) (i : ℕ)
    (e : Executed T) (he : e ∈ σ.history i) (hframe : e.frame = .tryEnterView)
    (henters : e.rep.Enters) :
    (∀ p ∈ statuses (σ.history i) (e.rep.view + 1), p.1 = E.getProposer (e.rep.view + 1)) ∧
      (statuses (σ.history i) (e.rep.view + 1)).length ≤ 1 ∧
      ((σ.nodes i).Idle → (statuses (σ.history i) (e.rep.view + 1)).length = 1) := by
  obtain ⟨hdest, hle, hreports⟩ := h.reported i
  obtain ⟨hmem, rfl⟩ := mem_history.mp he
  have hpos : 1 ≤ e.rep.view := by
    obtain ⟨σ', -, hrun, -, -, hrep, -⟩ := h.exists_of_mem_trace hmem
    exact hrep ▸ hrun.view_pos e.node
  have hentered : e.rep.view + 1 ≤ (σ.nodes e.node).rep.view := by
    have hview := h.le_of_mem_trace Replica.view_le_exec hmem
    unfold Executed.outcome at hview
    rw [hframe, Replica.exec, Replica.view_of_enters henters] at hview
    exact hview
  refine ⟨hdest _, hle _ (Nat.succ_le_succ hpos), fun hidle => ?_⟩
  have hnow := hreports hidle.2
  rcases hentered.lt_or_eq with hlt | heq
  · exact hnow.left _ (Nat.succ_le_succ hpos) hlt
  · have hcurrent := hnow.current (by omega)
    rw [hidle.1] at hcurrent
    rw [heq]
    exact hcurrent

/-- Whether a call enters no view while a status is to be sent. -/
def entersOnce (σ : System plainTypes) (i : ℕ) (fr : Frame plainTypes) : Bool :=
  noCommand σ i fr &&
    match fr with
    | .tryEnterView => (σ.nodes i).stack.all fun fr => !fr.sendsStatus
    | _ => true

theorem entersOnce_of_check {σ : System plainTypes} {i : ℕ} {fr : Frame plainTypes}
    (h : entersOnce σ i fr = true) : EntersOnce σ i fr := by
  obtain ⟨hcommand, hstack⟩ := Bool.and_eq_true_iff.mp h
  refine ⟨?_, fun hfr _ => view_of_noCommand hcommand hfr⟩
  rintro rfl - hmem
  cases List.all_eq_true.mp hstack _ hmem

/-- Whether a call enters view `2`. -/
def entersSecond (e : Executed plainTypes) : Bool :=
  match e.frame with
  | .tryEnterView => decide e.rep.Enters && e.rep.view == 1
  | _ => false

theorem of_entersSecond {e : Executed plainTypes} (h : entersSecond e = true) :
    e.frame = .tryEnterView ∧ e.rep.Enters ∧ e.rep.view = 1 := by
  unfold entersSecond at h
  split at h
  · rename_i hframe
    rw [Bool.and_eq_true, decide_eq_true_iff, beq_iff_eq] at h
    exact ⟨hframe, h⟩
  · cases h

/-- Replica `0` enters view `2` and sends its status. -/
theorem one_status_second : ∃ (σ : System plainTypes) (e : Executed plainTypes),
    (σ.nodes 0).Idle ∧ e.rep.view = 1 ∧
    (∀ p ∈ statuses (σ.history 0) (e.rep.view + 1), p.1 = twoEnv.getProposer (e.rep.view + 1)) ∧
      (statuses (σ.history 0) (e.rep.view + 1)).length ≤ 1 ∧
      ((σ.nodes 0).Idle → (statuses (σ.history 0) (e.rep.view + 1)).length = 1) := by
  obtain ⟨σ, hrun, htest⟩ := exists_of_play twoEnv secondByzantine entersOnce
    (fun _ _ _ => entersOnce_of_check) (.command 0 7 :: sendsBlock 11 1 ++ leavesFirst)
    (fun σ => ((σ.nodes 0).stack.isEmpty && (σ.nodes 0).crashed.isNone) &&
      (σ.history 0).any entersSecond) (by decide +kernel)
  simp only [Bool.and_eq_true, List.isEmpty_iff, Option.isNone_iff_eq_none,
    List.any_eq_true] at htest
  obtain ⟨hidle, e, he, henters⟩ := htest
  obtain ⟨hframe, henters, hview⟩ := of_entersSecond henters
  exact ⟨σ, e, hidle, hview, one_status twoEnv secondByzantine σ hrun 0 e he hframe henters⟩

/-- An echo of replica `1` with a certificate for `blk`. -/
def certEchoOf (blk view : ℕ) : Msg plainTypes :=
  .echo2 ⟨1, 1, view, MessageType.CERT, 0, (), createPartCert 1 0 view,
    QuorumCertSecp256k1.create blk view⟩

/-- Replica `0` is sent all that it needs to leave view `2` while it is in view `1`. -/
def buffersSecond : List (Scripted plainTypes) :=
  sendsBlock 12 2 ++ [.inject 1 0 (ackOf (twoEnv.hash (blockOf 11)) 2), .verify 0,
    .inject 1 0 (shareOf 2 2), .inject 1 0 (certEchoOf (twoEnv.hash (blockOf 11)) 2)]

/-- The messages for view `2` are handled when its promise is resolved. The replica is then in
view `3`; the status of view `3` is sent twice, and that of view `2` never. -/
theorem status_skipped : ∃ (σ : System plainTypes) (e : Executed plainTypes),
    Reachable twoEnv secondByzantine σ ∧ Honest twoEnv secondByzantine 0 ∧ (σ.nodes 0).Idle ∧
    e ∈ σ.history 0 ∧ e.frame = .tryEnterView ∧ e.rep.Enters ∧
    (statuses (σ.history 0) (e.rep.view + 1)).length = 0 ∧
    (statuses (σ.history 0) (e.rep.view + 2)).length = 2 := by
  obtain ⟨σ, hrun, htest⟩ := exists_reachable_of_play twoEnv secondByzantine
    (sendsBlock 11 1 ++ buffersSecond ++ leavesFirst)
    (fun σ => ((σ.nodes 0).stack.isEmpty && (σ.nodes 0).crashed.isNone) &&
      (((statuses (σ.history 0) 2).length == 0 && (statuses (σ.history 0) 3).length == 2) &&
        (σ.history 0).any entersSecond)) (by decide +kernel)
  simp only [Bool.and_eq_true, List.isEmpty_iff, Option.isNone_iff_eq_none, beq_iff_eq,
    List.any_eq_true] at htest
  obtain ⟨hidle, hstatuses, e, he, henters⟩ := htest
  obtain ⟨hframe, henters, hview⟩ := of_entersSecond henters
  refine ⟨σ, e, hrun, by decide, hidle, he, hframe, henters, ?_⟩
  rw [hview]
  exact hstatuses

end System

end OptRand.Hotstuff
