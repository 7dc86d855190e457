import OptRand.Hotstuff.Calls

/-!
# What a replica has under way

A delivery, the entry of a view and a proposal take several calls, and callbacks of promises run
between them. `agenda` is what a replica has noted about them: the deliveries that are waited for,
and the proposer of the pacemaker. `Schedules` says which calls start or go on with one of the
three.
-/

namespace OptRand.Hotstuff

open Lib

variable {T : PayloadTypes}

/-- The calls that change the agenda of a replica. -/
def Frame.ChangesAgenda : Frame T → Prop
  | .startDelivery _ _ | .onDeliverBlk _ | .onReceiveAck _ | .tryEnterView
  | .beatCallback => True
  | _ => False

/-- The calls that a delivery, the entry of a view or a proposal consists of. -/
def Frame.Scheduled : Frame T → Prop
  | .startDelivery _ _ | .onEnterView _ | .sendStatus | .finishPropose _ => True
  | _ => False

/-- A call that none of the three consists of. -/
def Frame.unscheduled : Frame T → Bool
  | .startDelivery _ _ | .onEnterView _ | .sendStatus | .finishPropose _ => false
  | _ => true

/-- The calls that make a scheduled call. -/
def Frame.Scheduler : Frame T → Prop
  | .gather _ _ _ _ | .tryEnterView | .beatCallback | .onEnterView _ | .doPropose => True
  | _ => False

namespace Replica

/-- The deliveries that are waited for, the proposer of the pacemaker, and whether it rotates. -/
def agenda (s : Replica T) : List ℕ × ℕ × Bool :=
  (s.blkDeliveryWaiting, s.pm.proposer, s.pm.rotating)

/-- `_try_enter_view` passes its test. -/
def Enters (s : Replica T) : Prop :=
  s.lastViewCertReceived = s.view ∧
    (s.lastViewSharesReceived = s.view ∨ s.lastViewBeaconReceived = s.view)

instance (s : Replica T) : Decidable s.Enters := inferInstanceAs (Decidable (_ ∧ _))

end Replica

/-- The call `fr` in the state `s` makes the call `fr'`. -/
inductive Schedules (s : Replica T) : Frame T → Frame T → Prop
  | other (fr fr' : Frame T) (hfr' : ¬ fr'.Scheduled) : Schedules s fr fr'
  | waited (h : ℕ) (hs : List ℕ) (peer : ℕ) (conds : List Cond) (wait : Wait T)
      (hnew : s.isBlkDelivered h = false) (hwait : h ∉ s.blkDeliveryWaiting) :
      Schedules s (.gather (h :: hs) peer conds wait) (.startDelivery h peer)
  | entered (henters : s.Enters) : Schedules s .tryEnterView (.onEnterView (s.view + 1))
  | command (hlast : s.lastProposedView < s.view) : Schedules s .beatCallback (.onEnterView 1)
  | status (view : ℕ) : Schedules s (.onEnterView view) .sendStatus
  | proposed (prop : Proposal) (hproposes : s.Proposes) (hview : prop.view = s.view) :
      Schedules s .doPropose (.finishPropose prop)

/-- An effect without scheduled calls. -/
def Outcome.Unscheduled (o : Outcome T) : Prop := ∀ fr ∈ o.calls, ¬ fr.Scheduled

theorem Outcome.unscheduled_of_all {o : Outcome T} (h : o.calls.all Frame.unscheduled = true) :
    o.Unscheduled := by
  intro fr hfr hscheduled
  have hnot := List.all_eq_true.mp h fr hfr
  cases fr <;> first | exact False.elim hscheduled | cases hnot

namespace Replica

variable {s s' : Replica T} {E : Env T} {fr fr' : Frame T}

/-! ## The agenda -/

theorem agenda_deliverBlk {h : ℕ} : (s.deliverBlk h).rep.agenda = s.agenda := by
  obtain ⟨cache, tails, hwrites⟩ := deliverBlk_writes (s := s) (h := h)
  rw [hwrites]
  rfl

theorem agenda_rejectQcFinish : s.rejectQcFinish.agenda = s.agenda := by
  obtain ⟨waiting, hwrites⟩ := rejectQcFinish_writes (s := s)
  rw [hwrites]
  rfl

/-- Entering a view makes its proposer the one of the pacemaker, unless that rotates. -/
theorem agenda_enterView {view : ℕ} (hrotating : s.pm.rotating = false) :
    (s.enterView E view).agenda = (s.blkDeliveryWaiting, E.getProposer view, false) := by
  have hstop : ∀ t : Replica T, (t.stopRotate E).agenda =
      (t.blkDeliveryWaiting, t.pm.proposer, false) := by
    intro t
    have hreject : t.rejectQcFinish.agenda = t.agenda := agenda_rejectQcFinish
    simp only [agenda, Prod.mk.injEq] at hreject
    simp only [stopRotate, agenda, hreject.1, hreject.2.1]
  have hrotate : (s.rotate E view).agenda = (s.blkDeliveryWaiting, E.getProposer view, true) := by
    unfold rotate
    rw [agenda_rejectQcFinish]
    rfl
  unfold enterView
  rw [hrotating, if_neg Bool.false_ne_true, hstop]
  simp only [agenda, Prod.mk.injEq] at hrotate
  rw [hrotate.1, hrotate.2.1]

/-- `on_consensus` may end a rotation. -/
theorem agenda_onConsensus (blk : ℕ) (hrotating : s.pm.rotating = false) :
    (s.onConsensus E blk).agenda = s.agenda := by
  unfold onConsensus
  split
  · have hreject : s.rejectQcFinish.agenda = s.agenda := agenda_rejectQcFinish
    simp only [agenda, Prod.mk.injEq] at hreject
    simp only [stopRotate, agenda, hreject.1, hreject.2.1, hrotating]
  · rfl

theorem agenda_commitBlocks {queue : List ℕ} (hrotating : s.pm.rotating = false) :
    (s.commitBlocks E queue).agenda = s.agenda := by
  induction queue generalizing s with
  | nil => rfl
  | cons blk queue ih =>
    have hmodify : (s.modifyBlk blk fun b => { b with decision := 1 }).agenda = s.agenda := by
      obtain ⟨cache, hwrites⟩ := modifyBlk_writes (s := s) (h := blk)
        (f := fun b => { b with decision := 1 })
      rw [hwrites]
      rfl
    have hstill : (s.modifyBlk blk fun b => { b with decision := 1 }).pm.rotating = false :=
      (congrArg (fun a => a.2.2) hmodify).trans hrotating
    have hconsensus := agenda_onConsensus (E := E) blk hstill
    rw [commitBlocks, ih ((congrArg (fun a => a.2.2) hconsensus).trans hstill), hconsensus, hmodify]

/-- Most calls leave the agenda alone. -/
theorem exec_agenda (hc : ¬ fr.ChangesAgenda) : (s.exec E fr).rep.agenda = s.agenda := by
  rw [exec_patch]
  cases fr <;> first | rfl | exact absurd trivial hc

/-! ## Calls that change it -/

theorem agenda_onReceiveAck {a : Ack} (hrotating : s.pm.rotating = false) :
    (s.onReceiveAck E a).rep.agenda = s.agenda := by
  rcases onReceiveAck_cases (rfl : s.onReceiveAck E a = _) with
    ⟨h, -⟩ | ⟨b, -, -, -, -, -, ⟨h, -⟩ | ⟨-, s', executed, hcommit, h, -⟩⟩
  · rw [h]
  · rw [h]
    rfl
  · obtain ⟨-, -, queue, -, -, -, -, -, -, -, -, rfl⟩ := checkCommit_eq_ok hcommit
    rw [h]
    exact (agenda_commitBlocks (s := s.setBlk a.blkHash { b with acked := b.acked ++ [a.voter] })
      hrotating :)

theorem agenda_startDelivery {h peer : ℕ} : (s.startDelivery h peer).rep.agenda =
    (h :: s.blkDeliveryWaiting, s.pm.proposer, s.pm.rotating) := by
  obtain ⟨waiting, hwrites⟩ := asyncFetchBlk_writes
    (s := { s with blkDeliveryWaiting := h :: s.blkDeliveryWaiting }) h (some peer)
  unfold startDelivery
  dsimp only
  split
  all_goals
    rw [hwrites]
    rfl

theorem agenda_tryEnterView (hrotating : s.pm.rotating = false) (henters : s.Enters) :
    (s.tryEnterView E).rep.agenda =
      (s.blkDeliveryWaiting, E.getProposer (s.view + 1), false) := by
  unfold tryEnterView
  unfold Enters at henters
  rw [if_pos henters, updateAggQueue_eq]
  exact (agenda_enterView (s := { s with
    aggQueue := (s.updateAggQueue E s.view).aggQueue, view := s.view + 1 }) hrotating :)

theorem tryEnterView_of_not (henters : ¬ s.Enters) : s.tryEnterView E = s.done :=
  if_neg henters

theorem agenda_beatCallback (hrotating : s.pm.rotating = false)
    (hlast : s.lastProposedView < s.view) :
    (s.beatCallback E).rep.agenda = (s.blkDeliveryWaiting, E.getProposer 1, false) := by
  unfold beatCallback
  rw [if_neg (not_le.mpr hlast)]
  exact agenda_enterView hrotating

theorem beatCallback_of_not (hlast : ¬ s.lastProposedView < s.view) :
    s.beatCallback E = s.done := if_pos (not_lt.mp hlast)

/-- `on_deliver_blk` returns at once, or delivers a block and resolves its promise. -/
theorem onDeliverBlk_cases {h : ℕ} {o : Outcome T} (ho : s.onDeliverBlk h = o) :
    (o.rep = s ∧ o.calls = []) ∨ o.error ≠ none ∨
    (s.isBlkDelivered h = false ∧ (∃ s', s.deliverBlk h = .ok s' ∧ o.rep = { s' with
      blkDeliveryWaiting := s.blkDeliveryWaiting.filter fun k => k ≠ h }) ∧
      (h ∈ s.blkDeliveryWaiting → o.calls = [.resolve (.delivered h)])) := by
  subst ho
  unfold onDeliverBlk
  split
  · exact Or.inl ⟨rfl, rfl⟩
  · rename_i b hb
    split
    · exact Or.inl ⟨rfl, rfl⟩
    · split
      · exact Or.inl ⟨rfl, rfl⟩
      · rename_i hnew
        right
        cases hs' : s.deliverBlk h with
        | error p => exact Or.inl nofun
        | ok s' =>
          right
          have hwaiting : s'.blkDeliveryWaiting = s.blkDeliveryWaiting := by
            have hagenda := agenda_deliverBlk (s := s) (h := h)
            rw [hs'] at hagenda
            exact congrArg Prod.fst hagenda
          refine ⟨?_, ⟨s', rfl, ?_⟩, ?_⟩
          · unfold isBlkDelivered
            rw [hb]
            simpa using hnew
          · dsimp only [Attempt.andThen]
            split
            · rw [← hwaiting]
              rfl
            · rename_i hnot
              have hkeep : s.blkDeliveryWaiting.filter (fun k => k ≠ h) = s'.blkDeliveryWaiting := by
                rw [← hwaiting, List.filter_eq_self]
                intro k hk
                rw [decide_eq_true_iff]
                rintro rfl
                exact hnot hk
              rw [hkeep]
              rfl
          · intro hmem
            dsimp only [Attempt.andThen]
            rw [if_pos (hwaiting ▸ hmem)]
            rfl

theorem agenda_onDeliverBlk {h : ℕ} : (s.onDeliverBlk h).rep.agenda.2 = s.agenda.2 := by
  rw [patch_onDeliverBlk]
  rfl

/-- The pacemaker does not rotate after a call, if it did not before. -/
theorem exec_rotating (fr : Frame T) (hrotating : s.pm.rotating = false) :
    (s.exec E fr).rep.pm.rotating = false := by
  change (s.exec E fr).rep.agenda.2.2 = false
  by_cases hc : fr.ChangesAgenda
  · cases fr <;> try exact False.elim hc
    case startDelivery h peer =>
      rw [exec, agenda_startDelivery]
      exact hrotating
    case onDeliverBlk h =>
      rw [exec, agenda_onDeliverBlk]
      exact hrotating
    case onReceiveAck a =>
      rw [exec, agenda_onReceiveAck hrotating]
      exact hrotating
    case tryEnterView =>
      by_cases henters : s.Enters
      · rw [exec, agenda_tryEnterView hrotating henters]
      · rw [exec, tryEnterView_of_not henters]
        exact hrotating
    case beatCallback =>
      by_cases hlast : s.lastProposedView < s.view
      · rw [exec, agenda_beatCallback hrotating hlast]
      · rw [exec, beatCallback_of_not hlast]
        exact hrotating
  · rw [exec_agenda hc]
    exact hrotating

/-- Only two calls change what is waited for. -/
theorem exec_blkDeliveryWaiting (hstart : ∀ h peer, fr ≠ .startDelivery h peer)
    (hdeliver : ∀ h, fr ≠ .onDeliverBlk h) :
    (s.exec E fr).rep.blkDeliveryWaiting = s.blkDeliveryWaiting := by
  rw [exec_patch]
  cases fr <;> first | rfl | exact absurd rfl (hstart _ _) | exact absurd rfl (hdeliver _)

/-! ## Calls without scheduled ones -/

theorem exec_unscheduled (h : ¬ fr.Scheduler) : (s.exec E fr).Unscheduled := by
  refine Outcome.unscheduled_of_all (List.all_eq_true.mpr fun fr' hfr' => ?_)
  cases Frame.mayCall_of_mem hfr' <;> first | rfl | exact absurd trivial h

theorem schedules_gather {hs : List ℕ} {peer : ℕ} {conds : List Cond} {wait : Wait T}
    (h : fr' ∈ (s.gather E hs peer conds wait).calls) :
    Schedules s (.gather hs peer conds wait) fr' := by
  unfold gather at h
  split at h
  · refine Schedules.other _ _ (?_ : ¬ fr'.Scheduled)
    have hall : (s.all E conds wait).Unscheduled := by
      unfold all
      dsimp only
      repeat' split
      all_goals exact Outcome.unscheduled_of_all rfl
    exact hall fr' h
  · split at h
    · exact List.mem_singleton.mp h ▸ Schedules.other _ _ not_false
    · rename_i hnew
      split at h
      · exact List.mem_singleton.mp h ▸ Schedules.other _ _ not_false
      · rename_i hwait
        rcases List.mem_cons.mp h with rfl | h
        · exact Schedules.waited _ _ _ _ _ (by simpa using hnew) hwait
        · exact List.mem_singleton.mp h ▸ Schedules.other _ _ not_false

/-- The callers of the scheduled calls. -/
theorem schedules_exec (h : fr' ∈ (s.exec E fr).calls) : Schedules s fr fr' := by
  by_cases hc : fr.Scheduler
  · cases fr <;> try exact False.elim hc
    case gather => exact schedules_gather h
    case tryEnterView =>
      rw [exec, tryEnterView] at h
      split at h
      · rename_i henters
        rw [updateAggQueue_eq] at h
        exact List.mem_singleton.mp h ▸ Schedules.entered henters
      · cases h
    case beatCallback =>
      rw [exec, beatCallback] at h
      split at h
      · cases h
      · rename_i hlast
        exact List.mem_singleton.mp h ▸ Schedules.command (not_le.mp hlast)
    case onEnterView view =>
      rcases List.mem_cons.mp h with rfl | h
      · exact Schedules.other _ _ not_false
      · rcases List.mem_cons.mp h with rfl | h
        · exact Schedules.status view
        · exact List.mem_singleton.mp h ▸ Schedules.other _ _ not_false
    case doPropose =>
      have hnone : (s.doPropose E).calls ≠ [] := List.ne_nil_of_mem h
      obtain ⟨hproposes, hcalls⟩ := (calls_doPropose (s := s) (E := E)).resolve_left hnone
      rw [exec, hcalls] at h
      rcases List.mem_cons.mp h with rfl | h
      · exact Schedules.other _ _ not_false
      · rcases List.mem_cons.mp h with rfl | h
        · exact Schedules.other _ _ not_false
        · exact List.mem_singleton.mp h ▸ Schedules.proposed _ hproposes rfl
  · exact Schedules.other _ _ (exec_unscheduled hc fr' h)

end Replica

/-! ## Runs -/

namespace System

variable {E : Env T} {F : Faults T} {ok : System T → ℕ → Frame T → Prop} {σ : System T}

/-- Between two calls the pacemaker does not rotate. -/
theorem Run.rotating (h : Run E F ok σ) (i : ℕ) : (σ.nodes i).rep.pm.rotating = false := by
  refine h.node_induction (I := fun _ x => x.rep.pm.rotating = false) (fun i => rfl) ?_ ?_ i
  · exact fun i x ev hx _ _ => hx
  · intro σ i fr stack _ _ _ hx _
    rw [Node.rep_after]
    exact Replica.exec_rotating fr hx

end System

end OptRand.Hotstuff
