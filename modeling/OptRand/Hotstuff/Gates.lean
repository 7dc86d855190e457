import OptRand.Hotstuff.Statuses
import OptRand.Hotstuff.ViewChange

/-!
# The gates of shares and beacons

The handlers of shares and of beacons wait for three promises of the view `w` of their message:
that the view is entered, that a proposal of it is accepted and that there is a certificate of it.
The last one is taken for resolved when `last_view_cert_received >= view`, with the view of the
replica in the place of `w`. A share for the next view that comes after the certificate of the
current one is let through without a certificate of its own view (`System.share_without_cert`). As
long as no share or beacon comes like this, every one of them has waited (`System.shares_wait`).

A beacon that has waited is dropped in any case: the second filter of `on_receive_beacon` compares
the wrong way round (`System.beacon_ignored`).
-/

namespace OptRand.Hotstuff

open Lib

variable {T : PayloadTypes}

/-! ## Beacons -/

namespace Replica

/-- A beacon of the current view that passes `verify_beacon`, where none is noted for the view. -/
structure Expects (E : Env T) (s : Replica T) (beacon : Beacon T) : Prop where
  view_eq : beacon.view = s.view
  missing : s.lastViewBeaconReceived < s.view
  valid : (E.pvss s.id).verifyBeacon (s.aggQueue (E.getProposer s.view)) beacon.bt = true

/-- A beacon counts: it is noted for the view, and if the certificate of the view is there, then
the replica goes on to the next one. -/
def CountsBeacon (E : Env T) (s : Replica T) (beacon : Beacon T) : Prop :=
  let o := s.onReceiveBeacon E beacon
  o.rep.lastViewBeaconReceived = s.view ∧ (s.lastViewCertReceived = s.view →
    .tryEnterView ∈ o.calls ∧ (o.rep.tryEnterView E).rep.view = s.view + 1)

variable {s : Replica T} {E : Env T}

theorem Expects.not_countsBeacon {beacon : Beacon T} (h : s.Expects E beacon) :
    ¬ s.CountsBeacon E beacon := by
  have hdone : s.onReceiveBeacon E beacon = s.done := by
    unfold onReceiveBeacon
    rw [if_pos (Or.inr (h.missing.le.trans h.view_eq.ge))]
  rintro ⟨hnoted, -⟩
  rw [hdone] at hnoted
  exact h.missing.ne hnoted

end Replica

namespace System

variable {E : Env T} {F : Faults T}

/-- In every state `on_receive_beacon` does nothing with any beacon, and none counts. -/
theorem beacon_ignored (E : Env T) (F : Faults T) (σ : System T) (h : Reachable E F σ) (i : ℕ)
    (hi : i < E.nreplicas) (hcrashed : (σ.nodes i).crashed = none) (beacon : Beacon T) :
    (σ.nodes i).rep.onReceiveBeacon E beacon = (σ.nodes i).rep.done ∧
      ((σ.nodes i).rep.Expects E beacon → ¬ (σ.nodes i).rep.CountsBeacon E beacon) :=
  ⟨(h.reporting hi hcrashed).beacon beacon, Replica.Expects.not_countsBeacon⟩

/-- Replica `0` has the certificate of view `1` and gets a beacon. -/
def certifiedBeacon : List (Scripted plainTypes) :=
  sendsBlock 11 1 ++ [.inject 1 0 (.qc (QuorumCertSecp256k1.create twoEnv.genesis 1)),
    .inject 1 0 (.beacon ⟨1, 1, (1 : ℕ)⟩)]

/-- Whether a call handles a beacon that passes `test`. -/
def handlesBeacon (test : Beacon plainTypes → Bool) : Frame plainTypes → Bool
  | .onReceiveBeacon beacon => test beacon
  | _ => false

theorem frame_of_handlesBeacon {test : Beacon plainTypes → Bool} {fr : Frame plainTypes}
    (h : handlesBeacon test fr = true) :
    ∃ beacon, fr = .onReceiveBeacon beacon ∧ test beacon = true := by
  cases fr <;> first | exact ⟨_, rfl, h⟩ | cases h

theorem beacon_ignored_first : ∃ (σ : System plainTypes) (beacon : Beacon plainTypes),
    (σ.nodes 0).rep.Expects twoEnv beacon ∧
    (σ.nodes 0).rep.lastViewCertReceived = (σ.nodes 0).rep.view ∧
    (σ.nodes 0).rep.onReceiveBeacon twoEnv beacon = (σ.nodes 0).rep.done ∧
    ¬ (σ.nodes 0).rep.CountsBeacon twoEnv beacon := by
  obtain ⟨σ, hrun, htest⟩ := exists_reachable_of_play twoEnv secondByzantine certifiedBeacon
    (fun σ => (decide ((σ.nodes 0).rep.view = 1) && (σ.nodes 0).crashed.isNone) &&
      (decide ((σ.nodes 0).rep.lastViewCertReceived = (σ.nodes 0).rep.view) &&
        (decide ((σ.nodes 0).rep.lastViewBeaconReceived < (σ.nodes 0).rep.view) &&
          (twoEnv.pvss (σ.nodes 0).rep.id).verifyBeacon
            ((σ.nodes 0).rep.aggQueue (twoEnv.getProposer (σ.nodes 0).rep.view)) (1 : ℕ))))
    (by decide +kernel)
  simp only [Bool.and_eq_true, decide_eq_true_eq, Option.isNone_iff_eq_none] at htest
  obtain ⟨⟨hview, hcrashed⟩, hcert, hmissing, hvalid⟩ := htest
  have hexpects : (σ.nodes 0).rep.Expects twoEnv ⟨1, 1, (1 : ℕ)⟩ := ⟨hview.symm, hmissing, hvalid⟩
  obtain ⟨hdone, hnot⟩ := beacon_ignored twoEnv secondByzantine σ hrun 0 (by decide) hcrashed
    ⟨1, 1, (1 : ℕ)⟩
  exact ⟨σ, _, hexpects, hcert, hdone, hnot hexpects⟩

/-- A valid beacon of view `1` does not count at a replica that has the certificate of the view. -/
theorem valid_beacon_ignored : ∃ σ : System plainTypes, Reachable twoEnv secondByzantine σ ∧
    ∃ e ∈ σ.history 0, ∃ beacon, e.frame = .onReceiveBeacon beacon ∧
      e.rep.Expects twoEnv beacon ∧ e.rep.lastViewCertReceived = e.rep.view ∧
      (e.outcome twoEnv).rep.lastViewBeaconReceived ≠ e.rep.view ∧ (e.outcome twoEnv).calls = [] ∧
      (σ.nodes 0).Idle ∧ (σ.nodes 0).rep.view = e.rep.view := by
  obtain ⟨σ, hrun, htest⟩ := exists_reachable_of_play twoEnv secondByzantine certifiedBeacon
    (fun σ => ((σ.nodes 0).stack.isEmpty && (σ.nodes 0).crashed.isNone) && σ.trace.any fun e =>
      e.node == 0 && (handlesBeacon (fun b => (decide (b.view = e.rep.view) &&
        (decide (e.rep.lastViewBeaconReceived < e.rep.view) &&
          (twoEnv.pvss e.rep.id).verifyBeacon
            (e.rep.aggQueue (twoEnv.getProposer e.rep.view)) b.bt))) e.frame &&
        (decide (e.rep.lastViewCertReceived = e.rep.view) &&
          (decide ((e.outcome twoEnv).rep.lastViewBeaconReceived ≠ e.rep.view) &&
            ((e.outcome twoEnv).calls.isEmpty && decide ((σ.nodes 0).rep.view = e.rep.view))))))
    (by decide +kernel)
  simp only [Bool.and_eq_true, List.any_eq_true, beq_iff_eq, decide_eq_true_eq, List.isEmpty_iff,
    Option.isNone_iff_eq_none] at htest
  obtain ⟨hidle, e, he, hnode, hhandles, hcert, hnoted, hcalls, hview⟩ := htest
  obtain ⟨beacon, hframe, hvalid⟩ := frame_of_handlesBeacon hhandles
  simp only [Bool.and_eq_true, decide_eq_true_eq] at hvalid
  exact ⟨σ, hrun, e, mem_history.mpr ⟨he, hnode⟩, beacon, hframe,
    ⟨hvalid.1, hvalid.2.1, hvalid.2.2⟩, hcert, hnoted, hcalls, hidle, hview⟩

end System

/-! ## What is waited for -/

/-- The view of the share or the beacon that a callback is for. -/
def Task.sharedView : Task T → Option ℕ
  | .share sh => some sh.view
  | .beacon b => some b.view
  | _ => none

/-- The view of the share or the beacon that is handled. -/
def Frame.sharedView : Frame T → Option ℕ
  | .onReceiveShare sh => some sh.view
  | .onReceiveBeacon b => some b.view
  | _ => none

/-- The promises of a proposal and of a certificate that stand before a callback. -/
def Task.gates (task : Task T) : List Cond :=
  match task.sharedView with
  | some w => [.viewProposal w, .viewQc w]
  | none => []

/-- What a promise of a proposal or of a certificate stands for. -/
def Cond.Met (s : Replica T) : Cond → Prop
  | .viewProposal w => w ≤ s.lastViewProposalReceived
  | .viewQc w => w ≤ s.lastViewCertReceived
  | _ => True

/-- What is known when a call is on the stack of a replica in the state `s`. -/
def Frame.Behind (s : Replica T) : Frame T → Prop
  | .gather _ _ _ wait => ∀ c ∈ wait.task.gates, c ∈ wait.conds
  | .run task _ => ∀ c ∈ task.gates, c.Met s
  | .notify _ c | .resolve c => c.Met s
  | .onReceiveQc_ => s.view ≤ s.lastViewCertReceived
  | _ => True

/-- If a share or a beacon finds a certificate of the current view or of a later one, then it is one
of the view of the message or of a later one. -/
def Replica.OnTime (s : Replica T) (fr : Frame T) : Prop :=
  ∀ peer conds wait w, fr = .gather [] peer conds wait → wait.task.sharedView = some w →
    s.view ≤ s.lastViewCertReceived → w ≤ s.lastViewCertReceived

/-- The promises of certificates and the callbacks that wait. -/
structure Gated (s : Replica T) : Prop where
  qcWaiting : ∀ w, s.viewQcWaiting w = true → w ≤ s.lastViewCertReceived
  pendings : ∀ p ∈ s.pendings, ∀ c ∈ p.task.gates, c ∈ p.conds ∨ c.Met s

namespace Replica

variable {s : Replica T} {E : Env T} {fr fr' : Frame T}

/-- No call takes a certificate or a proposal back. -/
theorem met_exec (hg : Gate E s) {c : Cond} (h : c.Met s) : c.Met (s.exec E fr).rep := by
  cases c
  case viewProposal w => exact le_trans h (received_le_exec hg fr)
  case viewQc w =>
    have hle : s.lastViewCertReceived ≤ (s.exec E fr).rep.lastViewCertReceived := by
      rcases exec_lastViewCertReceived (s := s) (E := E) fr with heq | ⟨qc, -, hview, hlast, heq⟩
      all_goals omega
    exact le_trans h hle
  all_goals trivial

/-- A promise that need not be waited for has been resolved, when the message comes in time. -/
theorem met_of_resolved (hg : Gate E s) (hs : Gated s) {task : Task T}
    (htime : ∀ w, task.sharedView = some w → s.view ≤ s.lastViewCertReceived →
      w ≤ s.lastViewCertReceived) {c : Cond} (hc : c ∈ task.gates)
    (h : s.unresolved c = false) : c.Met s := by
  unfold Task.gates at hc
  split at hc
  · rename_i w hw
    rcases List.mem_cons.mp hc with rfl | hc
    · exact holds_of_resolved hg h
    · rw [List.mem_singleton.mp hc] at h ⊢
      by_cases hcert : s.view ≤ s.lastViewCertReceived
      · exact htime w hw hcert
      · have hwait : s.viewQcWaiting w = true := by simpa [unresolved, hcert] using h
        exact hs.qcWaiting w hwait
  · cases hc

/-- A callback waits for what it has waited for before, or for the promises of its handler. -/
theorem pending_exec {p : Pending T} (hp : p ∈ (s.exec E fr).rep.pendings) :
    (∃ q ∈ s.pendings, p.task = q.task ∧ ∀ c ∈ q.conds, c ∈ p.conds ∨ fr = .notify q.id c) ∨
    (∃ peer conds wait, fr = .gather [] peer conds wait ∧ p.task = wait.task ∧
      ∀ c ∈ wait.conds, c ∈ p.conds ∨ s.unresolved c = false) ∨
    ∃ h peer, p.task = .fetched h peer := by
  have hkept : p ∈ s.pendings → ∃ q ∈ s.pendings, p.task = q.task ∧
      ∀ c ∈ q.conds, c ∈ p.conds ∨ fr = .notify q.id c :=
    fun hp => ⟨p, hp, rfl, fun c hc => Or.inl hc⟩
  cases fr
  case gather hs peer conds wait =>
    cases hs with
    | nil =>
      rcases all_eq E s conds wait with ⟨e, h⟩ | ⟨conds', result, pooled, -, hconds, ⟨-, h⟩ | h⟩
      all_goals simp only [exec, gather, h] at hp
      · exact Or.inl (hkept hp)
      · exact Or.inl (hkept hp)
      · rcases List.mem_append.mp hp with hp | hp
        · exact Or.inl (hkept hp)
        · rw [List.mem_singleton.mp hp]
          exact Or.inr (Or.inl ⟨peer, conds, wait, rfl, rfl, hconds⟩)
    | cons h hs =>
      left
      apply hkept
      simp only [exec, gather] at hp
      revert hp
      repeat' split
      all_goals exact fun hp => hp
  case startDelivery h peer =>
    obtain ⟨waiting, heq⟩ := asyncFetchBlk_writes h (some peer)
      (s := { s with blkDeliveryWaiting := h :: s.blkDeliveryWaiting })
    simp only [exec, startDelivery, heq] at hp
    split at hp
    · exact Or.inl (hkept hp)
    · rcases List.mem_append.mp hp with hp | hp
      · exact Or.inl (hkept hp)
      · rw [List.mem_singleton.mp hp]
        exact Or.inr (Or.inr ⟨h, peer, rfl⟩)
  case notify id cond =>
    left
    simp only [exec, notify] at hp
    split at hp
    · exact hkept hp
    · split at hp
      · exact hkept (List.mem_filter.mp hp).1
      · obtain ⟨q, hq, rfl⟩ := List.mem_map.mp hp
        refine ⟨q, hq, ?_⟩
        split
        · rename_i hid
          refine ⟨rfl, fun c hc => ?_⟩
          by_cases heq : c = cond
          · right
            rw [hid, heq]
          · exact Or.inl ((List.mem_erase_of_ne heq).mpr hc)
        · exact ⟨rfl, fun c hc => Or.inl hc⟩
  all_goals
    left
    rw [exec_patch] at hp
    exact hkept hp

/-- A callback runs when the last promise that it waits for is resolved. -/
theorem run_exec {task : Task T} {result : Bool} (h : .run task result ∈ (s.exec E fr).calls) :
    (∃ q ∈ s.pendings, task = q.task ∧ ∀ c ∈ q.conds, fr = .notify q.id c) ∨
    (∃ peer conds wait, fr = .gather [] peer conds wait ∧ task = wait.task ∧
      ∀ c ∈ wait.conds, s.unresolved c = false) ∨
    ∃ h peer, task = .fetched h peer := by
  cases Frame.mayCall_of_mem h with
  | @gatherRun hs peer conds _ wait =>
    right
    left
    refine ⟨peer, conds, wait, ?_⟩
    cases hs with
    | nil =>
      refine ⟨rfl, rfl, ?_⟩
      rcases all_eq E s conds wait with ⟨e, heq⟩ |
        ⟨conds', result, pooled, -, hconds, ⟨rfl, heq⟩ | heq⟩
      all_goals simp only [exec, gather, heq] at h
      · cases h
      · exact fun c hc => (hconds c hc).resolve_left List.not_mem_nil
      · cases h
    | cons k hs =>
      simp only [exec, gather] at h
      revert h
      repeat' split
      all_goals simp [call]
  | @startDelivery k peer => exact Or.inr (Or.inr ⟨k, peer, rfl⟩)
  | @notify id cond =>
    left
    simp only [exec, notify] at h
    split at h
    · cases h
    · rename_i q hfind
      split at h
      · rename_i hempty
        cases List.mem_singleton.mp h
        refine ⟨q, List.mem_of_find?_eq_some hfind, rfl, fun c hc => ?_⟩
        have hid : q.id = id := by simpa using List.find?_some hfind
        by_cases heq : c = cond
        · rw [hid, heq]
        · have hmem := (List.mem_erase_of_ne heq).mpr hc
          rw [List.isEmpty_iff.mp hempty] at hmem
          cases hmem
      · cases h

/-- Of a callback that is kept, what it does not wait for any more holds. -/
theorem gated_exec (hg : Gate E s) (hs : Gated s) (hb : fr.Behind s)
    (htime : s.OnTime fr) : Gated (s.exec E fr).rep := by
  refine ⟨?_, ?_⟩
  · intro w hw
    by_cases hwaits : fr = .onReceiveQc_
    · subst hwaits
      by_cases heq : w = s.view
      · exact heq.trans_le hb
      · exact hs.qcWaiting w ((Function.update_of_ne heq _ _).symm.trans hw)
    · have heq : (s.exec E fr).rep.viewQcWaiting = s.viewQcWaiting := by
        rw [exec_patch]
        cases fr <;> first | exact absurd rfl hwaits | rfl
      rw [heq] at hw
      exact met_exec (c := .viewQc w) hg (hs.qcWaiting w hw)
  · intro p hp c hc
    rcases pending_exec hp with ⟨q, hq, htask, hconds⟩ | ⟨peer, conds, wait, rfl, htask, hconds⟩ |
      ⟨h, peer, htask⟩
    all_goals rw [htask] at hc
    · rcases hs.pendings q hq c hc with hmem | hmet
      · rcases hconds c hmem with hmem | rfl
        · exact Or.inl hmem
        · exact Or.inr (met_exec hg hb)
      · exact Or.inr (met_exec hg hmet)
    · refine (hconds c (hb c hc)).imp_right fun hun => met_exec hg ?_
      exact met_of_resolved hg hs (htime peer conds wait · rfl) hc hun
    · cases hc

theorem behind_mono (hg : Gate E s) (hne : fr' ≠ .onReceiveQc_) (h : fr'.Behind s) :
    fr'.Behind (s.exec E fr).rep := by
  cases fr'
  case gather => exact h
  case run => exact fun c hc => met_exec hg (h c hc)
  case notify => exact met_exec hg h
  case resolve => exact met_exec hg h
  case onReceiveQc_ => exact absurd rfl hne
  all_goals trivial

/-- The handlers put the promises of a share or a beacon before its callback. -/
theorem gates_handle {peer peer' : ℕ} {msg : Msg T} {hs : List ℕ} {conds : List Cond}
    {wait : Wait T} (h : .gather hs peer' conds wait ∈ (s.handle E peer msg).calls) :
    ∀ c ∈ wait.task.gates, c ∈ wait.conds := by
  cases msg <;> simp only [handle] at h
  case share sh =>
    cases List.mem_singleton.mp h
    exact fun c hc => List.mem_cons_of_mem _ hc
  case beacon b =>
    cases List.mem_singleton.mp h
    exact fun c hc => List.mem_cons_of_mem _ hc
  case reqBlock =>
    split at h
    · cases h
    · cases List.mem_singleton.mp h
      intro c hc
      cases hc
  case respBlock =>
    obtain ⟨c, -, heq⟩ := List.mem_map.mp h
    cases heq
  case pvssTranscript => cases List.mem_singleton.mp h
  all_goals
    cases List.mem_singleton.mp h
    intro c hc
    cases hc

/-- When a callback runs, all that it has waited for holds. -/
theorem gates_run (hg : Gate E s) (hs : Gated s) (hb : fr.Behind s) (htime : s.OnTime fr)
    {task : Task T} {result : Bool} (h : .run task result ∈ (s.exec E fr).calls) :
    ∀ c ∈ task.gates, c.Met (s.exec E fr).rep := by
  intro c hc
  apply met_exec hg
  rcases run_exec h with
    ⟨q, hq, rfl, hconds⟩ | ⟨peer, conds, wait, rfl, rfl, hconds⟩ | ⟨k, peer, rfl⟩
  · rcases hs.pendings q hq c hc with hmem | hmet
    · rw [hconds c hmem] at hb
      exact hb
    · exact hmet
  · exact met_of_resolved hg hs (htime peer conds wait · rfl) hc (hconds c (hb c hc))
  · cases hc

theorem behind_calls (hg : Gate E s) (hs : Gated s) (hb : fr.Behind s) (htime : s.OnTime fr)
    (h : fr' ∈ (s.exec E fr).calls) : fr'.Behind (s.exec E fr).rep := by
  cases Frame.mayCall_of_mem h
  case handleGather => exact gates_handle h
  case gatherNext => exact hb
  case gatherRun => exact gates_run hg hs hb htime h
  case startDelivery => exact gates_run hg hs hb htime h
  case notify => exact gates_run hg hs hb htime h
  case runFetched =>
    intro c hc
    cases hc
  case resolve => exact met_exec hg hb
  case onReceiveViewProposal_ =>
    cases List.mem_singleton.mp h
    exact le_rfl
  case onReceiveQc_ =>
    cases List.mem_singleton.mp h
    exact hb
  case qcReceived qc =>
    rcases records_onReceiveQc (s := s) (E := E) qc with ⟨hguard, -⟩ | ⟨hview, -, hrecords⟩
    · simp only [exec, onReceiveQc, if_pos hguard] at h
      cases h
    · have hcert : (s.exec E (.onReceiveQc qc)).rep.lastViewCertReceived = qc.view :=
        congrArg Records.lastViewCertReceived hrecords
      have hsame : (s.exec E (.onReceiveQc qc)).rep.view = s.view := by
        apply exec_view_of_not
        intro henter
        cases henter
      exact hsame.trans_le (hview.trans hcert.ge)
  all_goals trivial

/-- `on_receive_qc_` is the first call after `on_receive_qc`. -/
theorem tail_exec (fr : Frame T) : .onReceiveQc_ ∉ (s.exec E fr).calls.tail := by
  intro h
  have hcall := Frame.mayCall_of_mem (List.mem_of_mem_tail h)
  cases hcall
  rename_i qc
  rcases onReceiveQc_cases (rfl : s.onReceiveQc E qc = _) with
    ⟨-, -, hcalls⟩ | ⟨-, -, -, -, -, -, -, -, hcalls | hcalls⟩
  all_goals
    rw [exec, hcalls] at h
    simp at h

end Replica

/-! ## Runs -/

/-- What holds of the callbacks and of the calls of a replica. -/
structure Awaits (x : Node T) : Prop where
  gated : Gated x.rep
  behind : ∀ fr ∈ x.stack, fr.Behind x.rep
  first : .onReceiveQc_ ∉ x.stack.tail

namespace System

variable {E : Env T} {F : Faults T} {σ : System T}

/-- What a replica runs next does not let a share or a beacon through too early. -/
def OnTime (σ : System T) (i : ℕ) (fr : Frame T) : Prop := (σ.nodes i).rep.OnTime fr

theorem Run.awaits (h : Run E F OnTime σ) {i : ℕ} (hi : i < E.nreplicas) :
    Awaits (σ.nodes i) := by
  refine h.node_induction (I := fun i x => i < E.nreplicas → Awaits x) ?_ ?_ ?_ i hi
  · exact fun i _ => ⟨⟨nofun, nofun⟩, nofun, nofun⟩
  · intro i x ev hx _ _ hi
    refine ⟨(hx hi).gated, ?_, nofun⟩
    intro fr hfr
    rw [List.mem_singleton.mp hfr]
    cases ev
    all_goals exact trivial
  · intro σ i fr stack hrun _ htime hx hstack hi
    obtain ⟨hgated, hbehind, hfirst⟩ := hx hi
    have hgate := (hrun.admits hi).1
    rw [hstack] at hbehind hfirst
    have htop := hbehind fr List.mem_cons_self
    refine ⟨?_, ?_, ?_⟩
    · rw [Node.rep_after]
      exact Replica.gated_exec hgate hgated htop htime
    · intro fr' hfr'
      rw [Node.rep_after]
      rcases Node.mem_stack_after hfr' with hcall | hrest
      · exact Replica.behind_calls hgate hgated htop htime hcall
      · refine Replica.behind_mono hgate ?_ (hbehind fr' (List.mem_cons_of_mem _ hrest))
        rintro rfl
        exact hfirst hrest
    · rcases Node.stack_after ((σ.nodes i).rep.exec E fr) stack with hnone | hcalls
      · rw [hnone]
        exact nofun
      · rw [hcalls]
        cases heq : ((σ.nodes i).rep.exec E fr).calls with
        | nil => exact fun hmem => hfirst (List.mem_of_mem_tail hmem)
        | cons fr' calls =>
          have htail := Replica.tail_exec (s := (σ.nodes i).rep) (E := E) fr
          rw [heq] at htail
          exact fun hmem => (List.mem_append.mp hmem).elim htail hfirst

/-- If every share and every beacon that finds a certificate of the current view is of a view with
a certificate, then one of view `w` that has come through its handler is handled only after a
proposal of view `w` or later has been accepted and with a certificate of view `w` or later. -/
theorem shares_wait (E : Env T) (F : Faults T) (σ : System T) (h : Run E F OnTime σ) (i : ℕ)
    (e : Executed T) (he : e ∈ σ.history i) (task : Task T) (result : Bool)
    (hrun : e.frame = .run task result) (fr : Frame T) (hcall : fr ∈ (e.outcome E).calls) (w : ℕ)
    (hw : fr.sharedView = some w) :
    w ≤ e.rep.lastViewProposalReceived ∧ w ≤ e.rep.lastViewCertReceived := by
  obtain ⟨he, -⟩ := mem_history.mp he
  obtain ⟨σ', stack, hrun', -, hhonest, hrep, hstack, -⟩ := h.exists_of_mem_trace he
  have hbehind := (hrun'.awaits hhonest.1).behind e.frame (by rw [hstack]; exact List.mem_cons_self)
  rw [hrep, hrun] at hbehind
  rw [Executed.outcome, hrun] at hcall
  have hgates : task.gates = [.viewProposal w, .viewQc w] := by
    have htask : task.sharedView = some w := by
      cases Frame.mayCall_of_mem hcall
      all_goals exact hw
    rw [Task.gates, htask]
  have hmet : ∀ c ∈ [Cond.viewProposal w, .viewQc w], c.Met e.rep := hgates ▸ hbehind
  exact ⟨hmet _ List.mem_cons_self, hmet _ (List.mem_cons_of_mem _ List.mem_cons_self)⟩

/-- Whether a call lets no share and no beacon through too early. -/
def onTime (σ : System plainTypes) (i : ℕ) : Frame plainTypes → Bool
  | .gather [] _ _ wait =>
    match wait.task.sharedView with
    | some w => decide ((σ.nodes i).rep.view ≤ (σ.nodes i).rep.lastViewCertReceived →
        w ≤ (σ.nodes i).rep.lastViewCertReceived)
    | none => true
  | _ => true

theorem onTime_of_check {σ : System plainTypes} {i : ℕ} {fr : Frame plainTypes}
    (h : onTime σ i fr = true) : OnTime σ i fr := by
  rintro peer conds wait w rfl hw
  simp only [onTime, hw, decide_eq_true_eq] at h
  exact h

/-- Whether a call is the callback of a share that passes `test`. -/
def runsShare (test : Share plainTypes → Bool) : Frame plainTypes → Bool
  | .run (.share share) _ => test share
  | _ => false

theorem frame_of_runsShare {test : Share plainTypes → Bool} {fr : Frame plainTypes}
    (h : runsShare test fr = true) :
    ∃ share result, fr = .run (.share share) result ∧ test share = true := by
  cases fr <;> try cases h
  case run task result => cases task <;> first | exact ⟨_, _, rfl, h⟩ | cases h

theorem shares_wait_first : ∃ (σ : System plainTypes) (e : Executed plainTypes),
    e ∈ σ.history 0 ∧ (∃ share result, e.frame = .run (.share share) result ∧ share.view = 1) ∧
    1 ≤ e.rep.lastViewProposalReceived ∧ 1 ≤ e.rep.lastViewCertReceived := by
  obtain ⟨σ, hrun, htest⟩ := exists_of_play twoEnv secondByzantine onTime
    (fun _ _ _ => onTime_of_check) (sendsBlock 11 1 ++ leavesFirst)
    (fun σ => σ.trace.any fun e =>
      e.node == 0 && runsShare (fun sh => decide (sh.view = 1)) e.frame)
    (by decide +kernel)
  simp only [List.any_eq_true, Bool.and_eq_true, beq_iff_eq] at htest
  obtain ⟨e, he, hnode, hruns⟩ := htest
  obtain ⟨share, result, hframe, hview⟩ := frame_of_runsShare hruns
  have hmem : e ∈ σ.history 0 := mem_history.mpr ⟨he, hnode⟩
  have hview : share.view = 1 := of_decide_eq_true hview
  refine ⟨σ, e, hmem, ⟨share, result, hframe, hview⟩, ?_⟩
  refine shares_wait twoEnv secondByzantine σ hrun 0 e hmem _ result hframe
    (.onReceiveShare share) ?_ 1 (congrArg some hview)
  rw [Executed.outcome, hframe]
  exact List.mem_cons_self

/-- A share of view `2` comes in view `1` after the certificate of view `1`. It is handled in view
`2`, where there is a proposal and no certificate. -/
theorem share_without_cert : ∃ σ : System plainTypes, Reachable twoEnv secondByzantine σ ∧
    ∃ e ∈ σ.history 0, ∃ share result, e.frame = .run (.share share) result ∧
      .onReceiveShare share ∈ (e.outcome twoEnv).calls ∧
      ¬ share.view ≤ e.rep.lastViewCertReceived := by
  obtain ⟨σ, hrun, htest⟩ := exists_reachable_of_play twoEnv secondByzantine
    (sendsBlock 11 1 ++ [.inject 1 0 (.qc (QuorumCertSecp256k1.create twoEnv.genesis 1)),
      .inject 1 0 (shareOf 2 2), .inject 1 0 (ackOf twoEnv.genesis 1), .verify 0,
      .inject 1 0 (shareOf 1 1)] ++ sendsBlock 12 2)
    (fun σ => σ.trace.any fun e => e.node == 0 &&
      runsShare (fun sh => decide (¬ sh.view ≤ e.rep.lastViewCertReceived)) e.frame)
    (by decide +kernel)
  simp only [List.any_eq_true, Bool.and_eq_true, beq_iff_eq] at htest
  obtain ⟨e, he, hnode, hruns⟩ := htest
  obtain ⟨share, result, hframe, hcert⟩ := frame_of_runsShare hruns
  have hmem : e ∈ σ.history 0 := mem_history.mpr ⟨he, hnode⟩
  refine ⟨σ, hrun, e, hmem, share, result, hframe, ?_, of_decide_eq_true hcert⟩
  rw [Executed.outcome, hframe]
  exact List.mem_cons_self

end System

end OptRand.Hotstuff
