import OptRand.Hotstuff.Agenda
import OptRand.Hotstuff.Certified

/-!
# Beats are served at once

A client command starts a beat, and `proposer_schedule_next` may let it wait for the certificate of
the block that the replica has proposed last. It never does. A command starts a beat only in a view
in which the replica has not proposed; then entering that view has set `last_proposed` back to the
genesis block, which has votes from all replicas. So `qc_waiting` stays empty, and `on_qc_finish`
runs no callback (`System.Run.steady`).
-/

namespace OptRand.Hotstuff

open Lib Relation

variable {T : PayloadTypes}

/-- A call that serves a beat. -/
def Frame.servesBeat : Frame T → Bool
  | .execCommand _ | .afterBeat _ | .resolveBeat _ | .lock | .beatCallback => true
  | _ => false

/-- No beat waits, and the proposer is not locked. -/
structure Quiet (s : Replica T) : Prop where
  waiting : ∀ h, s.qcWaiting h = none
  pending : s.pm.pendingBeats = []
  attached : s.pm.attachedBeats = []
  locked : s.pm.locked = false

theorem Quiet.of_eq {s s' : Replica T} (hq : Quiet s) (hwaiting : s'.qcWaiting = s.qcWaiting)
    (hpm : s'.pm = s.pm) : Quiet s' := by
  refine ⟨fun k => ?_, ?_, ?_, ?_⟩
  · rw [hwaiting]
    exact hq.waiting k
  all_goals rw [hpm]
  · exact hq.pending
  · exact hq.attached
  · exact hq.locked

namespace Replica

variable {s : Replica T} {E : Env T} {fr : Frame T}

/-! ## The pacemaker -/

/-- There is no promise to reject. -/
theorem rejectQcFinish_eq (h : ∀ k, s.qcWaiting k = none) : s.rejectQcFinish = s := by
  unfold rejectQcFinish
  split
  · rfl
  · rw [h]

theorem stopRotate_eq (h : ∀ k, s.qcWaiting k = none) : s.stopRotate E = { s with
    pm := { s.pm with rotating := false, locked := false, lastProposed := E.genesis } } := by
  unfold stopRotate
  rw [rejectQcFinish_eq h]

theorem quiet_stopRotate (hq : Quiet s) : Quiet (s.stopRotate E) := by
  rw [stopRotate_eq hq.waiting]
  exact ⟨hq.waiting, hq.pending, hq.attached, rfl⟩

theorem enterView_eq {view : ℕ} (hrotating : s.pm.rotating = false)
    (h : ∀ k, s.qcWaiting k = none) : s.enterView E view = { s with pm := { s.pm with
      regProposals := s.pm.regProposals + 1
      regReceiveProposals := s.pm.regReceiveProposals + 1
      propBlk := fun _ => none
      rotating := false
      proposer := E.getProposer view
      locked := false
      lastProposed := E.genesis } } := by
  have hstop : s.enterView E view = (s.rotate E view).stopRotate E :=
    if_neg (by rw [hrotating]; exact Bool.false_ne_true)
  have hrotate : s.rotate E view = { s with pm := { s.pm with
      regProposals := s.pm.regProposals + 1
      regReceiveProposals := s.pm.regReceiveProposals + 1
      propBlk := fun _ => none
      rotating := true
      proposer := E.getProposer view } } := rejectQcFinish_eq h
  rw [hstop, hrotate]
  exact stopRotate_eq h

theorem quiet_commitBlocks (hq : Quiet s) (queue : List ℕ) : Quiet (s.commitBlocks E queue) := by
  induction queue generalizing s with
  | nil => exact hq
  | cons blk queue ih =>
    obtain ⟨cache, h⟩ := modifyBlk_writes (s := s) (h := blk)
      (f := fun b => { b with decision := 1 })
    have hq' : Quiet { s with blkCache := cache } :=
      ⟨hq.waiting, hq.pending, hq.attached, hq.locked⟩
    rw [commitBlocks, h, onConsensus]
    split
    · exact ih (quiet_stopRotate hq')
    · exact ih hq'

theorem quiet_onReceiveAck (hq : Quiet s) (ack : Ack) : Quiet (s.onReceiveAck E ack).rep := by
  rcases onReceiveAck_cases (rfl : s.onReceiveAck E ack = _) with
    ⟨h, -⟩ | ⟨b, -, -, -, -, -, ⟨h, -⟩ | ⟨-, s', executed, hcommit, h, -⟩⟩
  · rw [h]
    exact hq
  · rw [h]
    exact hq.of_eq rfl rfl
  · obtain ⟨-, -, queue, -, -, -, -, -, -, -, -, rfl⟩ := checkCommit_eq_ok hcommit
    have hset : Quiet (s.setBlk ack.blkHash { b with acked := b.acked ++ [ack.voter] }) :=
      hq.of_eq rfl rfl
    have hquiet := quiet_commitBlocks (E := E) hset queue.reverse
    rw [h]
    exact hquiet.of_eq rfl rfl

theorem quiet_enterView (hq : Quiet s) (hrotating : s.pm.rotating = false) (view : ℕ) :
    Quiet (s.enterView E view) := by
  rw [enterView_eq hrotating hq.waiting]
  exact ⟨hq.waiting, hq.pending, hq.attached, rfl⟩

theorem quiet_tryEnterView (hq : Quiet s) (hrotating : s.pm.rotating = false) :
    Quiet (s.tryEnterView E).rep := by
  unfold tryEnterView
  split
  · rw [updateAggQueue_eq]
    exact (quiet_enterView (s := { s with
      aggQueue := (s.updateAggQueue E s.view).aggQueue, view := s.view + 1 })
      ⟨hq.waiting, hq.pending, hq.attached, hq.locked⟩ hrotating (s.view + 1) :)
  · exact hq

/-- A call that serves no beat lets none wait. -/
theorem quiet_exec (hq : Quiet s) (hrotating : s.pm.rotating = false)
    (hfr : fr.servesBeat = false) : Quiet (s.exec E fr).rep := by
  cases fr <;> try exact Bool.noConfusion hfr
  case onReceiveAck ack => exact quiet_onReceiveAck hq ack
  case tryEnterView => exact quiet_tryEnterView hq hrotating
  case onQcFinish blk =>
    rw [exec, onQcFinish, hq.waiting]
    exact hq
  case eraseQcWaiting blk =>
    refine ⟨fun h => ?_, hq.pending, hq.attached, hq.locked⟩
    by_cases heq : h = blk
    · rw [heq]
      exact Function.update_self ..
    · exact (Function.update_of_ne heq _ _).trans (hq.waiting h)
  case proposerScheduleNext =>
    rw [exec, proposerScheduleNext, hq.pending]
    exact hq
  case onPropose_ prop =>
    obtain ⟨propBlk, reg, h⟩ := notePropose_writes (s := s) prop
    rw [exec, h]
    exact ⟨hq.waiting, hq.pending, hq.attached, rfl⟩
  all_goals
    rw [exec_patch]
    exact ⟨hq.waiting, hq.pending, hq.attached, hq.locked⟩

/-- It calls none that serves one. -/
theorem servesBeat_calls (hq : Quiet s) (hfr : fr.servesBeat = false) {fr' : Frame T}
    (h : fr' ∈ (s.exec E fr).calls) : fr'.servesBeat = false := by
  cases Frame.mayCall_of_mem h <;> try first | rfl | exact Bool.noConfusion hfr
  case finishResolve blk beat =>
    rw [exec, onQcFinish, hq.waiting] at h
    cases h
  case scheduleResolve beat =>
    rw [exec, proposerScheduleNext, hq.pending] at h
    cases h
  case scheduleLock =>
    rw [exec, proposerScheduleNext, hq.pending] at h
    cases h

/-! ## The block proposed last -/

theorem lastProposed_commitBlocks (queue : List ℕ) :
    (s.commitBlocks E queue).pm.lastProposed = s.pm.lastProposed ∨
      (s.commitBlocks E queue).pm.lastProposed = E.genesis := by
  induction queue generalizing s with
  | nil => exact Or.inl rfl
  | cons blk queue ih =>
    obtain ⟨cache, h⟩ := modifyBlk_writes (s := s) (h := blk)
      (f := fun b => { b with decision := 1 })
    rw [commitBlocks, h, onConsensus]
    split
    · exact Or.inr (ih.elim (fun heq => heq) fun heq => heq)
    · exact ih

theorem lastProposed_enterView {view : ℕ} (hrotating : s.pm.rotating = false) :
    (s.enterView E view).pm.lastProposed = E.genesis := by
  unfold enterView
  rw [hrotating]
  rfl

/-- `last_proposed` is set by a proposal, or back to the genesis block, as it is when a view is
entered. -/
theorem exec_lastProposed (hrotating : s.pm.rotating = false) (fr : Frame T) :
    ((s.exec E fr).rep.pm.lastProposed = s.pm.lastProposed ∧ (s.exec E fr).rep.view = s.view) ∨
    (s.exec E fr).rep.pm.lastProposed = E.genesis ∨ ∃ prop, fr = .onPropose_ prop := by
  cases fr
  case onReceiveAck ack =>
    have hview : (s.exec E (.onReceiveAck ack)).rep.view = s.view := by
      rw [exec_patch]
      rfl
    rcases onReceiveAck_cases (rfl : s.onReceiveAck E ack = _) with
      ⟨h, -⟩ | ⟨b, -, -, -, -, -, ⟨h, -⟩ | ⟨-, s', executed, hcommit, h, -⟩⟩
    · exact Or.inl ⟨congrArg (fun t => t.pm.lastProposed) h, hview⟩
    · exact Or.inl ⟨congrArg (fun t => t.pm.lastProposed) h, hview⟩
    · obtain ⟨-, -, queue, -, -, -, -, -, -, -, -, rfl⟩ := checkCommit_eq_ok hcommit
      rcases lastProposed_commitBlocks (E := E) (s := s.setBlk ack.blkHash
        { b with acked := b.acked ++ [ack.voter] }) queue.reverse with hlast | hlast
      · exact Or.inl ⟨(congrArg (fun t => t.pm.lastProposed) h).trans hlast, hview⟩
      · exact Or.inr (Or.inl ((congrArg (fun t => t.pm.lastProposed) h).trans hlast))
  case tryEnterView =>
    simp only [exec, tryEnterView]
    split
    · right
      left
      rw [updateAggQueue_eq]
      exact lastProposed_enterView (s := { s with
        aggQueue := (s.updateAggQueue E s.view).aggQueue, view := s.view + 1 }) hrotating
    · exact Or.inl ⟨rfl, rfl⟩
  case beatCallback =>
    simp only [exec, beatCallback]
    split
    · exact Or.inl ⟨rfl, rfl⟩
    · exact Or.inr (Or.inl (lastProposed_enterView hrotating))
  case onPropose_ prop => exact Or.inr (Or.inr ⟨prop, rfl⟩)
  all_goals
    left
    rw [exec_patch]
    exact ⟨rfl, rfl⟩

/-- Votes for a block stay. -/
theorem voted_of_changes {h : ℕ} {b b' : Block T}
    (hsteps : ReflTransGen (Change E s h fr) b b') : b.voted <+: b'.voted := by
  induction hsteps with
  | refl => exact List.prefix_rfl
  | tail _ hstep ih =>
    cases hstep with
    | vote => exact ih.trans (List.prefix_append _ _)
    | voteFailed => exact ih.trans (List.prefix_append _ _)
    | _ => exact ih

/-- The genesis block has votes from a majority. -/
def GenesisVoted (E : Env T) (s : Replica T) : Prop :=
  ∃ b, s.blkCache E.genesis = some b ∧ E.config.nmajority ≤ b.voted.length

theorem genesisVoted_init (E : Env T) (i : ℕ) : (E.init i).GenesisVoted E := by
  refine ⟨_, E.blkCache_genesis i, ?_⟩
  change E.nreplicas - _ ≤ ((List.range E.nreplicas).map toReplicaID).length
  rw [List.length_map, List.length_range]
  exact Nat.sub_le _ _

theorem genesisVoted_exec (h : s.GenesisVoted E) : (s.exec E fr).rep.GenesisVoted E := by
  obtain ⟨b, hb, hvoted⟩ := h
  obtain ⟨b', hb', hsteps⟩ := (exec_evolves (E := E) fr).kept E.genesis b hb
  exact ⟨b', hb', hvoted.trans (voted_of_changes hsteps).length_le⟩

end Replica

/-! ## A beat on the stack -/

/-- The end of a proposal comes right after `on_propose_`. -/
def Finishes : List (Frame T) → Prop
  | [] => True
  | .onPropose_ _ :: rest => (∃ prop, .finishPropose prop ∈ rest) ∧ Finishes rest
  | _ :: rest => Finishes rest

theorem finishes_append {calls rest : List (Frame T)} (h : Finishes rest)
    (hnone : ∀ prop, .onPropose_ prop ∉ calls) : Finishes (calls ++ rest) := by
  induction calls with
  | nil => exact h
  | cons fr calls ih =>
    have hrest := ih fun prop hmem => hnone prop (List.mem_cons_of_mem fr hmem)
    cases fr
    case onPropose_ prop => exact absurd List.mem_cons_self (hnone prop)
    all_goals exact hrest

theorem finishes_of_cons {fr : Frame T} {rest : List (Frame T)} (h : Finishes (fr :: rest)) :
    Finishes rest := by
  cases fr
  case onPropose_ => exact h.2
  all_goals exact h

/-- The calls of a replica, by how far it is with a beat. -/
inductive Serving (s : Replica T) : List (Frame T) → Prop
  | none {stack : List (Frame T)} (quiet : Quiet s) (hnone : ∀ fr ∈ stack, fr.servesBeat = false) :
      Serving s stack
  | command (cmdHash : ℕ) (quiet : Quiet s) : Serving s [.execCommand cmdHash]
  | schedule (beat : ℕ) (quiet : Quiet { s with pm := { s.pm with pendingBeats := [] } })
      (pending : s.pm.pendingBeats = [beat]) (fresh : s.lastProposedView < s.view) :
      Serving s [.proposerScheduleNext, .afterBeat beat]
  | resolve (beat : ℕ) (quiet : Quiet s) (fresh : s.lastProposedView < s.view) :
      Serving s [.resolveBeat beat, .lock, .afterBeat beat]
  | lock (beat : ℕ) (quiet : Quiet s) (resolved : beat ∈ s.pm.resolvedBeats)
      (fresh : s.lastProposedView < s.view) : Serving s [.lock, .afterBeat beat]
  | after (beat : ℕ) (quiet : Quiet { s with pm := { s.pm with locked := false } })
      (resolved : beat ∈ s.pm.resolvedBeats) (fresh : s.lastProposedView < s.view) :
      Serving s [.afterBeat beat]
  | callback (quiet : Quiet { s with pm := { s.pm with locked := false } })
      (fresh : s.lastProposedView < s.view) : Serving s [.beatCallback]

section

variable {s : Replica T} {E : Env T} {fr : Frame T} {stack : List (Frame T)}

/-- A command starts a beat in a view without a proposal of the replica, or none. -/
theorem serving_command (hq : Quiet s) (cmdHash : ℕ) :
    Serving (s.execCommand E cmdHash).rep (s.execCommand E cmdHash).calls := by
  unfold Replica.execCommand
  dsimp only
  generalize hs' : (if cmdHash ∈ s.decisionWaiting then s else _) = s'
  have hwaiting : s'.qcWaiting = s.qcWaiting ∧ s'.pm = s.pm := by
    rw [← hs']
    split
    all_goals exact ⟨rfl, rfl⟩
  have hquiet := hq.of_eq hwaiting.1 hwaiting.2
  split
  · exact .none hquiet nofun
  · rename_i hfresh
    split
    · unfold Replica.beat
      split
      · refine .schedule _ ⟨hquiet.waiting, rfl, hquiet.attached, hquiet.locked⟩ ?_
          (not_le.mp hfresh)
        exact congrArg (· ++ [s'.pm.nextBeat]) hquiet.pending
      · exact .callback ⟨hquiet.waiting, hquiet.pending, hquiet.attached, rfl⟩ (not_le.mp hfresh)
    · exact .none hquiet nofun

/-- A beat is served at once when the block proposed last is the genesis block. -/
theorem proposerScheduleNext_eq (hgenesis : s.GenesisVoted E) {beat : ℕ}
    (hq : Quiet { s with pm := { s.pm with pendingBeats := [] } })
    (hpending : s.pm.pendingBeats = [beat]) (hlast : s.pm.lastProposed = E.genesis) :
    s.proposerScheduleNext E = Replica.call { s with
      pm := { s.pm with pendingBeats := [], pmQcFinish := none } } [.resolveBeat beat, .lock] := by
  obtain ⟨b, hb, hvoted⟩ := hgenesis
  have hlocked : s.pm.locked = false := hq.locked
  have hwaiting : ∀ k, s.qcWaiting k = none := hq.waiting
  unfold Replica.proposerScheduleNext
  rw [hpending]
  dsimp only
  rw [if_neg (by rw [hlocked]; exact Bool.false_ne_true), Replica.rejectQcFinish_eq hwaiting,
    hlast, hb]
  exact if_pos hvoted

/-- One call keeps the order in which a beat is served. -/
theorem serving_exec (h : Serving s (fr :: stack)) (hrotating : s.pm.rotating = false)
    (hgenesis : s.GenesisVoted E)
    (hlast : s.pm.lastProposed = E.genesis ∨ s.view ≤ s.lastProposedView ∨
      ∃ prop, .finishPropose prop ∈ fr :: stack) :
    Serving (s.exec E fr).rep ((s.exec E fr).calls ++ stack) := by
  cases h with
  | none hq hnone =>
    have hfr := hnone fr List.mem_cons_self
    refine .none (Replica.quiet_exec hq hrotating hfr) ?_
    intro fr' hfr'
    rcases List.mem_append.mp hfr' with hcall | hrest
    · exact Replica.servesBeat_calls hq hfr hcall
    · exact hnone fr' (List.mem_cons_of_mem fr hrest)
  | command cmdHash hq =>
    rw [List.append_nil]
    exact serving_command hq cmdHash
  | schedule beat hq hpending hfresh =>
    have hlast : s.pm.lastProposed = E.genesis := by
      rcases hlast with hlast | hle | ⟨prop, hmem⟩
      · exact hlast
      · exact absurd hfresh (not_lt.mpr hle)
      · simp at hmem
    rw [Replica.exec, proposerScheduleNext_eq hgenesis hq hpending hlast]
    exact .resolve beat ⟨hq.waiting, rfl, hq.attached, hq.locked⟩ hfresh
  | resolve beat hq hfresh =>
    rw [Replica.exec, Replica.resolveBeat, hq.attached, if_neg List.not_mem_nil]
    exact .lock beat ⟨hq.waiting, hq.pending, hq.attached, hq.locked⟩ List.mem_cons_self hfresh
  | lock beat hq hresolved hfresh =>
    exact .after beat ⟨hq.waiting, hq.pending, hq.attached, rfl⟩ hresolved hfresh
  | after beat hq hresolved hfresh =>
    rw [Replica.exec, Replica.afterBeat, if_pos hresolved]
    exact .callback hq hfresh
  | callback hq hfresh =>
    have hwaiting : ∀ k, s.qcWaiting k = none := hq.waiting
    rw [Replica.exec, Replica.beatCallback, if_neg (not_le.mpr hfresh),
      Replica.enterView_eq hrotating hwaiting]
    refine .none ⟨hq.waiting, hq.pending, hq.attached, rfl⟩ ?_
    exact fun fr hfr => List.mem_singleton.mp hfr ▸ rfl

theorem Serving.waiting (h : Serving s stack) (k : ℕ) : s.qcWaiting k = Option.none := by
  cases h with
  | none hq => exact hq.waiting k
  | command _ hq => exact hq.waiting k
  | schedule _ hq => exact hq.waiting k
  | resolve _ hq => exact hq.waiting k
  | lock _ hq => exact hq.waiting k
  | after _ hq => exact hq.waiting k
  | callback hq => exact hq.waiting k

theorem finishes_exec (h : Finishes (fr :: stack)) :
    Finishes ((s.exec E fr).calls ++ stack) := by
  have hstack := finishes_of_cons h
  by_cases hpropose : fr = .doPropose
  · subst hpropose
    rcases Replica.calls_doPropose (s := s) (E := E) with hnone | ⟨-, hcalls⟩
    · rw [Replica.exec, hnone]
      exact hstack
    · rw [Replica.exec, hcalls]
      exact ⟨⟨_, List.mem_cons_self⟩, hstack⟩
  · refine finishes_append hstack fun prop hmem => ?_
    cases Frame.mayCall_of_mem hmem
    exact hpropose rfl

/-- The block proposed last is the genesis block, or the replica has proposed in its view or is
about to note that. -/
def LastProposed (E : Env T) (s : Replica T) (stack : List (Frame T)) : Prop :=
  s.pm.lastProposed = E.genesis ∨ s.view ≤ s.lastProposedView ∨ ∃ prop, .finishPropose prop ∈ stack

theorem lastProposed_exec (hrotating : s.pm.rotating = false)
    (hfinishes : Finishes (fr :: stack)) (h : LastProposed E s (fr :: stack)) :
    LastProposed E (s.exec E fr).rep ((s.exec E fr).calls ++ stack) := by
  by_cases hfinish : ∃ prop, fr = .finishPropose prop
  · obtain ⟨prop, rfl⟩ := hfinish
    right
    left
    have hview : (s.exec E (.finishPropose prop)).rep.view = s.view := by
      rw [Replica.exec_patch]
      rfl
    rw [hview]
    unfold Replica.exec Replica.finishPropose
    dsimp only
    split
    all_goals exact le_rfl
  · rcases Replica.exec_lastProposed (E := E) hrotating fr with ⟨hlast, hview⟩ | hlast |
      ⟨prop, rfl⟩
    · have hproposed : (s.exec E fr).rep.lastProposedView = s.lastProposedView := by
        rw [Replica.exec_patch]
        cases fr <;> first | exact absurd ⟨_, rfl⟩ hfinish | rfl
      unfold LastProposed
      rw [hlast, hview, hproposed]
      refine h.imp_right (Or.imp_right ?_)
      rintro ⟨prop, hmem⟩
      refine ⟨prop, List.mem_append_right _ ((List.mem_cons.mp hmem).resolve_left ?_)⟩
      exact fun heq => hfinish ⟨prop, heq.symm⟩
    · exact Or.inl hlast
    · obtain ⟨prop', hmem⟩ := hfinishes.1
      exact Or.inr (Or.inr ⟨prop', List.mem_append_right _ hmem⟩)

end

/-! ## Runs -/

/-- What holds of the beats of a replica. -/
structure Steady (E : Env T) (x : Node T) : Prop where
  waiting : ∀ h, x.rep.qcWaiting h = none
  genesisVoted : x.rep.GenesisVoted E
  serving : x.crashed = none → Serving x.rep x.stack
  finishes : x.crashed = none → Finishes x.stack
  lastProposed : x.crashed = none → LastProposed E x.rep x.stack

namespace System

variable {E : Env T} {F : Faults T} {ok : System T → ℕ → Frame T → Prop} {σ : System T}

/-- In every state no beat waits for a certificate. -/
theorem Run.steady (h : Run E F ok σ) (i : ℕ) : Steady E (σ.nodes i) := by
  refine h.node_induction (I := fun _ x => Steady E x) ?_ ?_ ?_ i
  · intro i
    refine ⟨fun _ => rfl, Replica.genesisVoted_init E i, fun _ => ?_, fun _ => trivial,
      fun _ => Or.inl rfl⟩
    exact .none ⟨fun _ => rfl, rfl, rfl, rfl⟩ nofun
  · intro i x ev hx hidle _
    have hserving := hx.serving hidle.2
    have hlast := hx.lastProposed hidle.2
    rw [hidle.1] at hserving hlast
    have hquiet : Quiet x.rep := by
      cases hserving with
      | none hq => exact hq
    refine ⟨hx.waiting, hx.genesisVoted, fun _ => ?_, fun _ => ?_, fun _ => ?_⟩
    · cases ev
      case command => exact .command _ hquiet
      all_goals exact .none hquiet fun fr hfr => List.mem_singleton.mp hfr ▸ rfl
    · cases ev
      all_goals exact trivial
    · refine hlast.imp_right (Or.imp_right ?_)
      rintro ⟨prop, hmem⟩
      cases hmem
  · intro σ i fr stack hrun _ _ hx hstack
    have hcrashed := hrun.crashed_eq_none hstack
    have hserving := hx.serving hcrashed
    have hfinishes := hx.finishes hcrashed
    have hlast := hx.lastProposed hcrashed
    rw [hstack] at hserving hfinishes hlast
    have hnext := serving_exec hserving (hrun.rotating i) hx.genesisVoted hlast
    refine ⟨?_, ?_, fun hdone => ?_, fun hdone => ?_, fun hdone => ?_⟩
    · rw [Node.rep_after]
      exact hnext.waiting
    · rw [Node.rep_after]
      exact Replica.genesisVoted_exec hx.genesisVoted
    all_goals rw [Node.after_of_done hdone]
    · exact hnext
    · exact finishes_exec hfinishes
    · exact lastProposed_exec (hrun.rotating i) hfinishes hlast

end System

end OptRand.Hotstuff
