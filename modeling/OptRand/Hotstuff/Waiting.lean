import OptRand.Hotstuff.AggQueue
import OptRand.Hotstuff.Cache
import OptRand.Hotstuff.Signing

/-!
# What has happened when a callback runs

A handler puts its message behind a `promise::all`: the verification of a signature, and
promises of views. When the callback runs these have been resolved, whatever else the replica
has done in between: a vote or an acknowledgement that is counted has been verified and is of
a view that the replica has entered, and a share has waited for the proposal of its view.
`Gate` says so of the promises that still wait and `Admitted` of the calls on the stack.
-/

namespace OptRand.Hotstuff

open Lib

variable {T : PayloadTypes}

/-! ## Conditions and verifications -/

/-- `Block::verify`. -/
def BlockContent.verify (E : Env T) (c : BlockContent T) : Except Error Bool :=
  match c.qc with
  | none => .ok true
  | some qc => do
    if !(← qc.verify SigScheme.ideal E.config) || qc.objHash ≠ c.qcRefHash then return false
    return true

/-- A promise of a view that may have been resolved. -/
def Cond.Holds (s : Replica T) : Cond → Prop
  | .enterView view => view ≤ s.view
  | .viewProposal view => view ≤ s.lastViewProposalReceived
  | _ => True

/-- The promises of views that the handlers of votes, acknowledgements and shares put before
their callbacks. -/
def Task.awaits : Task T → List Cond
  | .vote v => [.enterView v.view]
  | .ack a => [.enterView a.view]
  | .share sh => [.enterView sh.view, .viewProposal sh.view]
  | _ => []

/-- What a successful verification says of the message or of the block that a callback is for. -/
def Task.Checked (E : Env T) (s : Replica T) : Task T → Prop
  | .vote v => v.verify E = .ok true
  | .ack a => a.verify E = .ok true
  | .status st => st.view = 1 ∨ st.qc.verify SigScheme.ideal E.config = .ok true
  | .qc cert => cert.view < s.view ∨ cert.verify SigScheme.ideal E.config = .ok true
  | .deliver h => h = E.genesis ∨ ∃ b, s.blkCache h = some b ∧ b.content.verify E = .ok true
  | _ => True

/-- The verification of a `promise::all` is the one its callback relies on. -/
def Check.Fits (E : Env T) (task : Task T) (check : Check) : Prop :=
  ∀ (s : Replica T) pooled, s.startCheck E check = .ok (true, pooled) → task.Checked E s

/-- A `promise::all` that still waits for `conds`: what it does not wait for any more holds, and
its verification tells what it should. -/
structure Ready (E : Env T) (s : Replica T) (task : Task T) (conds : List Cond) (result : Bool) :
    Prop where
  awaits : ∀ c ∈ task.awaits, c ∈ conds ∨ c.Holds s
  checked : result = true → task.Checked E s

/-- A decryption that replica `i` may make. -/
def Env.Own (E : Env T) (i : ℕ) (dec : T.Decryption) : Prop :=
  ∃ agg draw, (E.pvss i).decrypt agg draw = .ok dec

/-- What is known when a call is on the stack. -/
def Admitted (E : Env T) (s : Replica T) : Frame T → Prop
  | .gather _ _ _ wait => (∀ c ∈ wait.task.awaits, c ∈ wait.conds) ∧ wait.check.Fits E wait.task
  | .run task result => Ready E s task [] result
  | .notify _ c => c.Holds s
  | .resolve c => c.Holds s
  | .onEnterView view => view ≤ s.view
  | .onReceiveVote vote => vote.view ≤ s.view ∧ vote.verify E = .ok true
  | .onReceiveAck ack => ack.view ≤ s.view ∧ ack.verify E = .ok true
  | .onReceiveShare share => share.view ≤ s.view ∧
      (E.Own s.id share.bt ∨ share.view ≤ s.lastViewProposalReceived)
  | _ => True

/-- The promises of a replica. -/
structure Gate (E : Env T) (s : Replica T) : Prop where
  id_lt : s.id < E.nreplicas
  view_pos : 1 ≤ s.view
  received_le : s.lastViewProposalReceived ≤ s.view
  waiting : ∀ w, s.viewWaiting w = true → w ≤ s.view
  proposalWaiting : ∀ w, s.viewProposalWaiting w = true → w ≤ s.lastViewProposalReceived
  pendings : ∀ p ∈ s.pendings, Ready E s p.task p.conds p.result

/-- The views of a replica go up, and its blocks stay. -/
structure Replica.Le (s s' : Replica T) : Prop where
  id : s'.id = s.id
  view : s.view ≤ s'.view
  received : s.lastViewProposalReceived ≤ s'.lastViewProposalReceived
  blks : ∀ h b, s.blkCache h = some b → ∃ b', s'.blkCache h = some b' ∧ b.Le b'

section

variable {E : Env T} {s s' : Replica T}

theorem Cond.Holds.mono {c : Cond} (h : c.Holds s) (hle : s.Le s') : c.Holds s' := by
  cases c with
  | enterView view => exact le_trans h hle.view
  | viewProposal view => exact le_trans h hle.received
  | _ => trivial

theorem Task.Checked.mono {task : Task T} (h : task.Checked E s) (hle : s.Le s') :
    task.Checked E s' := by
  cases task
  case qc => exact Or.imp_left (fun hlt => hlt.trans_le hle.view) h
  case deliver h' =>
    refine Or.imp_right ?_ h
    rintro ⟨b, hb, hverify⟩
    obtain ⟨b', hb', hb'le⟩ := hle.blks h' b hb
    exact ⟨b', hb', hb'le.content ▸ hverify⟩
  all_goals exact h

theorem Ready.mono {task : Task T} {conds : List Cond} {result : Bool}
    (h : Ready E s task conds result) (hle : s.Le s') : Ready E s' task conds result :=
  ⟨fun c hc => (h.awaits c hc).imp_right fun hold => hold.mono hle,
    fun hresult => (h.checked hresult).mono hle⟩

theorem Admitted.mono {fr : Frame T} (h : Admitted E s fr) (hle : s.Le s') :
    Admitted E s' fr := by
  cases fr
  case gather => exact h
  case run => exact Ready.mono h hle
  case notify => exact Cond.Holds.mono h hle
  case resolve => exact Cond.Holds.mono h hle
  case onEnterView => exact le_trans h hle.view
  case onReceiveVote => exact ⟨h.1.trans hle.view, h.2⟩
  case onReceiveAck => exact ⟨h.1.trans hle.view, h.2⟩
  case onReceiveShare =>
    refine ⟨h.1.trans hle.view, ?_⟩
    rw [hle.id]
    exact h.2.imp_right fun hr => hr.trans hle.received
  all_goals trivial

/-! ## Verifications -/

theorem fits_skip {task : Task T} (h : ∀ s, task.Checked E s) : Check.skip.Fits E task :=
  fun s _ _ => h s

theorem startCheck_part {s : Replica T} {cert : PartCert} {signer digest : ℕ} {pooled : Bool}
    (h : s.startCheck E (.part cert signer digest) = .ok (true, pooled)) :
    ∃ pubkey, E.config.getPubkey signer = .ok pubkey ∧
      (cert.verify SigScheme.ideal pubkey && cert.objHash == digest) = true := by
  unfold Replica.startCheck at h
  obtain ⟨pubkey, hkey, hres⟩ := bind_eq_ok.mp h
  rw [pure_eq_ok, Except.ok.injEq, Prod.mk.injEq] at hres
  exact ⟨pubkey, hkey, hres.1⟩

theorem fits_vote (vote : Vote) :
    (Check.part vote.cert vote.voter vote.blkHash).Fits E (.vote vote : Task T) := by
  intro s pooled h
  obtain ⟨pubkey, hkey, hres⟩ := startCheck_part h
  change Vote.verify E vote = .ok true
  unfold Vote.verify
  rw [hkey, ok_bind, hres, pure_eq_ok]

theorem fits_ack (ack : Ack) :
    (Check.part ack.cert ack.voter ack.blkHash).Fits E (.ack ack : Task T) := by
  intro s pooled h
  obtain ⟨pubkey, hkey, hres⟩ := startCheck_part h
  change Ack.verify E ack = .ok true
  unfold Ack.verify
  rw [hkey, ok_bind, hres, pure_eq_ok]

theorem verify_of_verifyPool {qc : QuorumCert} {pooled : Bool}
    (h : qc.verifyPool SigScheme.ideal E.config = .ok (true, pooled)) :
    qc.verify SigScheme.ideal E.config = .ok true := by
  unfold QuorumCertSecp256k1.verifyPool at h
  split at h
  · cases h
  · rename_i hsigs
    obtain ⟨values, hvalues, hres⟩ := bind_eq_ok.mp h
    rw [pure_eq_ok, Except.ok.injEq, Prod.mk.injEq] at hres
    have hall := List.all_eq_true.mp hres.1
    unfold QuorumCertSecp256k1.verify
    rw [if_neg hsigs]
    exact allM_of_mapM hvalues hall

theorem fits_status (st : Status) : (Check.status st).Fits E (.status st : Task T) := by
  intro s pooled h
  unfold Replica.startCheck at h
  dsimp only at h
  split at h
  · rename_i hview
    exact Or.inl hview
  · exact Or.inr (verify_of_verifyPool h)

theorem fits_qc (qc : QuorumCert) : (Check.qc qc).Fits E (.qc qc : Task T) := by
  intro s pooled h
  unfold Replica.startCheck at h
  dsimp only at h
  split at h
  · rename_i hview
    exact Or.inl hview
  · exact Or.inr (verify_of_verifyPool h)

theorem fits_deliver (h : ℕ) :
    (if h ≠ E.genesis then Check.block h else .skip).Fits E (.deliver h : Task T) := by
  intro s pooled hcheck
  by_cases hgen : h = E.genesis
  · exact Or.inl hgen
  · rw [if_pos hgen] at hcheck
    unfold Replica.startCheck at hcheck
    dsimp only at hcheck
    split at hcheck
    · cases hcheck
    · rename_i blk hblk
      refine Or.inr ⟨blk, hblk, ?_⟩
      unfold BlockContent.verify
      split at hcheck
      · rename_i hqc
        simp only [Block.content, hqc]
      · rename_i qc hqc
        split at hcheck
        · cases hcheck
        · rename_i hobj
          simp only [Block.content, hqc, verify_of_verifyPool hcheck, ok_bind]
          simp [not_not.mp hobj, pure_eq_ok]

theorem verify_own_ack {id h view : ℕ} (hid : id < E.nreplicas) :
    Ack.verify E ⟨id, h, createPartCert id h view, view⟩ = .ok true :=
  (System.verify_ack_iff hid).mpr ⟨rfl, rfl⟩

theorem verify_own_vote {id h view : ℕ} (hid : id < E.nreplicas) :
    Vote.verify E ⟨id, h, createPartCert id h view, view⟩ = .ok true :=
  verify_own_ack hid

/-! ## Promises -/

theorem Ready.erase {task : Task T} {conds : List Cond} {result : Bool} {cond : Cond}
    (h : Ready E s task conds result) (hcond : cond.Holds s) :
    Ready E s task (conds.erase cond) result := by
  refine ⟨?_, h.checked⟩
  intro c hc
  rcases h.awaits c hc with hmem | hold
  · by_cases heq : c = cond
    · right
      rw [heq]
      exact hcond
    · exact Or.inl ((List.mem_erase_of_ne heq).mpr hmem)
  · exact Or.inr hold

theorem ready_free {task : Task T} {conds : List Cond} {result : Bool}
    (hawaits : task.awaits = []) (hchecked : task.Checked E s) : Ready E s task conds result := by
  refine ⟨?_, fun _ => hchecked⟩
  intro c hc
  rw [hawaits] at hc
  cases hc

/-- The part of the views that promises are resolved in. -/
def Views.promises (v : Views T) : ℕ × (ℕ → Bool) × (ℕ → Bool) × List (Pending T) :=
  (v.lastViewProposalReceived, v.viewWaiting, v.viewProposalWaiting, v.pendings)

theorem Gate.of_le (hg : Gate E s) (hle : s.Le s') (h : s'.views.promises = s.views.promises) :
    Gate E s' := by
  simp only [Views.promises, Replica.views, Prod.mk.injEq] at h
  obtain ⟨hreceived, hwaiting, hproposal, hpendings⟩ := h
  refine ⟨hle.id ▸ hg.id_lt, hg.view_pos.trans hle.view, ?_, ?_, ?_, ?_⟩
  · rw [hreceived]
    exact hg.received_le.trans hle.view
  · intro w hw
    rw [hwaiting] at hw
    exact (hg.waiting w hw).trans hle.view
  · intro w hw
    rw [hproposal] at hw
    exact (hg.proposalWaiting w hw).trans hle.received
  · intro p hp
    rw [hpendings] at hp
    exact (hg.pendings p hp).mono hle

theorem Gate.setPendings (hg : Gate E s) (hle : s.Le s') {pendings : List (Pending T)}
    (hviews : s'.views = { s.views with pendings := pendings })
    (h : ∀ p ∈ pendings, Ready E s p.task p.conds p.result) : Gate E s' := by
  have hpendings : s'.pendings = pendings := congrArg Views.pendings hviews
  have hreceived : s'.lastViewProposalReceived = s.lastViewProposalReceived :=
    congrArg Views.lastViewProposalReceived hviews
  refine ⟨hle.id ▸ hg.id_lt, hg.view_pos.trans hle.view, ?_, ?_, ?_, ?_⟩
  · rw [hreceived]
    exact hg.received_le.trans hle.view
  · intro w hw
    have hold : s.viewWaiting w = true :=
      (congrFun (congrArg Views.viewWaiting hviews :) w).symm.trans hw
    exact (hg.waiting w hold).trans hle.view
  · intro w hw
    have hold : s.viewProposalWaiting w = true :=
      (congrFun (congrArg Views.viewProposalWaiting hviews :) w).symm.trans hw
    exact (hg.proposalWaiting w hold).trans hle.received
  · intro p hp
    rw [hpendings] at hp
    exact (h p hp).mono hle

/-! ## Calls of which nothing has to be known -/

/-- A call that is always admitted. -/
def Frame.Free (E : Env T) (fr : Frame T) : Prop := ∀ s, Admitted E s fr

/-- The calls that may make others of which more has to be known. -/
def Frame.Passes : Frame T → Prop
  | .handle _ _ | .gather _ _ _ _ | .startDelivery _ _ | .notify _ _ | .resolve _ | .run _ _
  | .onReceiveViewProposal_ | .vote _ _ | .ack _ | .broadcastShare | .tryEnterView
  | .onEnterView _ | .beatCallback => True
  | _ => False

/-- A call that no view, verification or promise stands before. -/
def Frame.plain : Frame T → Bool
  | .gather _ _ _ _ | .run _ _ | .onEnterView _ | .onReceiveVote _ | .onReceiveAck _
  | .onReceiveShare _ => false
  | .notify _ c | .resolve c => match c with
    | .enterView _ | .viewProposal _ => false
    | _ => true
  | _ => true

/-- All calls of an outcome are always admitted. -/
def Outcome.Free (E : Env T) (o : Outcome T) : Prop := ∀ fr ∈ o.calls, fr.Free E

theorem Frame.free_of_plain {fr : Frame T} (h : fr.plain = true) : fr.Free E := by
  intro s
  cases fr
  case notify id c => cases c <;> first | exact trivial | cases h
  case resolve c => cases c <;> first | exact trivial | cases h
  all_goals first | exact trivial | cases h

end

namespace Replica

variable {s : Replica T} {E : Env T}

theorem free_fetched {h peer : ℕ} : (s.fetched E h peer).Free E := by
  have hgather : ∀ hs conds, (Frame.gather hs peer conds
      ⟨if h ≠ E.genesis then .block h else .skip, [], .deliver h⟩ : Frame T).Free E :=
    fun _ _ _ => ⟨nofun, fits_deliver h⟩
  unfold fetched
  split
  · exact fun fr hfr => absurd hfr List.not_mem_nil
  · dsimp only
    split
    all_goals exact fun fr hfr => List.mem_singleton.mp hfr ▸ hgather _ _

/-! ## One call -/

theorem holds_of_resolved {c : Cond} (hg : Gate E s) (h : s.unresolved c = false) :
    c.Holds s := by
  cases c with
  | enterView w =>
    by_cases hle : w ≤ s.view
    · exact hle
    · have hwait : s.viewWaiting w = true := by simpa [unresolved, hle] using h
      exact hg.waiting w hwait
  | viewProposal w =>
    by_cases hle : w ≤ s.lastViewProposalReceived
    · exact hle
    · have hwait : s.viewProposalWaiting w = true := by simpa [unresolved, hle] using h
      exact hg.proposalWaiting w hwait
  | _ => trivial

/-- `promise::all` throws, runs its callback at once, or is kept with what it waits for. -/
theorem all_eq (E : Env T) (s : Replica T) (conds : List Cond) (wait : Wait T) :
    (∃ e, s.all E conds wait = s.raise e) ∨
    ∃ conds' result pooled, s.startCheck E wait.check = .ok (result, pooled) ∧
      (∀ c ∈ wait.conds, c ∈ conds' ∨ s.unresolved c = false) ∧
      ((conds' = [] ∧ s.all E conds wait = s.call [.run wait.task result]) ∨
        s.all E conds wait = done { s with
          pendings := s.pendings ++ [⟨s.nextPending, conds', result, wait.task⟩]
          nextPending := s.nextPending + 1 }) := by
  cases hcheck : s.startCheck E wait.check with
  | error e =>
    refine Or.inl ⟨e, ?_⟩
    simp only [all, hcheck]
  | ok value =>
    obtain ⟨result, pooled⟩ := value
    refine Or.inr ⟨(conds ++ wait.conds).filter s.unresolved ++ if pooled then [.veri] else [],
      result, pooled, rfl, ?_, ?_⟩
    · intro c hc
      by_cases hun : s.unresolved c = true
      · left
        refine List.mem_append_left _ (List.mem_filter.mpr ⟨?_, hun⟩)
        exact List.mem_append_right _ hc
      · exact Or.inr (Bool.eq_false_iff.mpr hun)
    · simp only [all, hcheck]
      by_cases hempty : ((conds ++ wait.conds).filter s.unresolved ++
          if pooled then [Cond.veri] else []).isEmpty = true
      · exact Or.inl ⟨List.isEmpty_iff.mp hempty, if_pos hempty⟩
      · exact Or.inr (if_neg hempty)

theorem all_cases (hg : Gate E s) (conds : List Cond) {wait : Wait T}
    (hawaits : ∀ c ∈ wait.task.awaits, c ∈ wait.conds) (hfits : wait.check.Fits E wait.task) :
    (∃ e, s.all E conds wait = s.raise e) ∨
    ∃ conds' result, Ready E s wait.task conds' result ∧
      ((conds' = [] ∧ s.all E conds wait = s.call [.run wait.task result]) ∨
        s.all E conds wait = done { s with
          pendings := s.pendings ++ [⟨s.nextPending, conds', result, wait.task⟩]
          nextPending := s.nextPending + 1 }) := by
  rcases all_eq E s conds wait with hraise | ⟨conds', result, pooled, hcheck, hconds, h⟩
  · exact Or.inl hraise
  · refine Or.inr ⟨conds', result, ⟨?_, ?_⟩, h⟩
    · intro c hc
      exact (hconds c (hawaits c hc)).imp_right fun hun => holds_of_resolved hg hun
    · rintro rfl
      exact hfits s pooled hcheck

theorem received_le_exec (hg : Gate E s) (fr : Frame T) :
    s.lastViewProposalReceived ≤ (s.exec E fr).rep.lastViewProposalReceived := by
  by_cases hreceive : fr = .onReceiveViewProposal_
  · subst hreceive
    exact hg.received_le
  · rw [exec_patch]
    cases fr <;> first | exact le_refl _ | exact absurd rfl hreceive

theorem exec_le (hg : Gate E s) (fr : Frame T) : s.Le (s.exec E fr).rep where
  id := exec_id fr
  view := by
    rcases exec_view (s := s) (E := E) fr with h | ⟨-, h⟩
    · exact h.ge
    · exact (Nat.le_succ _).trans h.ge
  received := received_le_exec hg fr
  blks _ _ hb := exec_blk_le fr hb

theorem gate_gather (hg : Gate E s) {hs : List ℕ} {peer : ℕ} {conds : List Cond}
    {wait : Wait T} (ha : Admitted E s (.gather hs peer conds wait)) :
    Gate E (s.gather E hs peer conds wait).rep := by
  have hle := exec_le hg (.gather hs peer conds wait)
  cases hs with
  | nil =>
    change s.Le (s.all E conds wait).rep at hle
    change Gate E (s.all E conds wait).rep
    rcases all_cases hg conds ha.1 ha.2 with ⟨e, h⟩ |
      ⟨conds', result, hready, ⟨-, h⟩ | h⟩
    · rw [h]
      exact hg
    · rw [h]
      exact hg
    · rw [h] at hle ⊢
      refine hg.setPendings hle rfl ?_
      intro p hp
      rcases List.mem_append.mp hp with hp | hp
      · exact hg.pendings p hp
      · rw [List.mem_singleton.mp hp]
        exact hready
  | cons h hs =>
    unfold gather
    dsimp only
    repeat' split
    all_goals exact hg

theorem gate_startDelivery (hg : Gate E s) {h peer : ℕ} : Gate E (s.startDelivery h peer).rep := by
  have hle := exec_le hg (.startDelivery h peer)
  obtain ⟨conds, hviews⟩ : ∃ conds, (s.startDelivery h peer).rep.views = s.views ∨
      (s.startDelivery h peer).rep.views = { s.views with
        pendings := s.pendings ++ [⟨s.nextPending, conds, true, .fetched h peer⟩] } := by
    unfold startDelivery asyncFetchBlk
    dsimp only
    repeat' split
    all_goals first | exact ⟨[], Or.inl rfl⟩ | exact ⟨_, Or.inr rfl⟩
  rcases hviews with hviews | hviews
  · exact hg.of_le hle (congrArg Views.promises hviews)
  · refine hg.setPendings hle hviews ?_
    intro p hp
    rcases List.mem_append.mp hp with hp | hp
    · exact hg.pendings p hp
    · rw [List.mem_singleton.mp hp]
      exact ready_free rfl trivial

theorem gate_notify (hg : Gate E s) {id : ℕ} {cond : Cond} (hcond : cond.Holds s) :
    Gate E (s.notify id cond).rep := by
  have hle := exec_le hg (.notify id cond)
  change s.Le (s.notify id cond).rep at hle
  revert hle
  unfold notify
  split
  · exact fun _ => hg
  · dsimp only
    split
    · intro hle
      refine hg.setPendings hle rfl ?_
      intro p' hp'
      exact hg.pendings p' (List.mem_filter.mp hp').1
    · intro hle
      refine hg.setPendings hle rfl ?_
      intro p' hp'
      obtain ⟨p₀, hp₀, rfl⟩ := List.mem_map.mp hp'
      split
      · exact (hg.pendings p₀ hp₀).erase hcond
      · exact hg.pendings p₀ hp₀

theorem exec_gate (hg : Gate E s) {fr : Frame T} (ha : Admitted E s fr) :
    Gate E (s.exec E fr).rep := by
  have hle := exec_le hg fr
  cases fr
  case gather => exact gate_gather hg ha
  case startDelivery => exact gate_startDelivery hg
  case notify => exact gate_notify hg ha
  case onReceiveViewProposal_ =>
    refine ⟨hg.id_lt, hg.view_pos, le_rfl, hg.waiting, ?_, ?_⟩
    · intro w hw
      by_cases heq : w = s.view
      · exact heq.le
      · have hold : s.viewProposalWaiting w = true :=
          (Function.update_of_ne heq _ _).symm.trans hw
        exact (hg.proposalWaiting w hold).trans hg.received_le
    · intro p hp
      exact (hg.pendings p hp).mono hle
  case onEnterView view =>
    refine ⟨hg.id_lt, hg.view_pos, hg.received_le, ?_, hg.proposalWaiting, ?_⟩
    · intro w hw
      by_cases heq : w = view
      · exact heq.trans_le ha
      · exact hg.waiting w ((Function.update_of_ne heq _ _).symm.trans hw)
    · intro p hp
      exact (hg.pendings p hp).mono hle
  all_goals
    refine hg.of_le hle ?_
    rw [exec_patch]
    rfl

/-! ## The calls it makes -/

theorem calls_handle {peer : ℕ} {msg : Msg T} {fr : Frame T}
    (h : fr ∈ (s.handle E peer msg).calls) : Admitted E s fr := by
  cases msg <;> simp only [handle] at h
  case propose p => exact List.mem_singleton.mp h ▸ ⟨List.forall_mem_nil _, fits_skip fun _ => trivial⟩
  case vote v => exact List.mem_singleton.mp h ▸ ⟨fun _ hc => hc, fits_vote v⟩
  case ack a => exact List.mem_singleton.mp h ▸ ⟨fun _ hc => hc, fits_ack a⟩
  case share sh =>
    refine List.mem_singleton.mp h ▸ ⟨?_, fits_skip fun _ => trivial⟩
    intro c hc
    exact List.mem_append_left [.viewQc sh.view] hc
  case beacon b => exact List.mem_singleton.mp h ▸ ⟨List.forall_mem_nil _, fits_skip fun _ => trivial⟩
  case status st => exact List.mem_singleton.mp h ▸ ⟨List.forall_mem_nil _, fits_status st⟩
  case echo e => exact List.mem_singleton.mp h ▸ ⟨List.forall_mem_nil _, fun _ _ _ => trivial⟩
  case echo2 e => exact List.mem_singleton.mp h ▸ ⟨List.forall_mem_nil _, fits_skip fun _ => trivial⟩
  case qc cert => exact List.mem_singleton.mp h ▸ ⟨List.forall_mem_nil _, fits_qc cert⟩
  case pvssTranscript t => exact List.mem_singleton.mp h ▸ trivial
  case reqBlock hs =>
    split at h
    · cases h
    · exact List.mem_singleton.mp h ▸ ⟨List.forall_mem_nil _, fits_skip fun _ => trivial⟩
  case respBlock blks =>
    obtain ⟨c, -, rfl⟩ := List.mem_map.mp h
    exact trivial

theorem calls_run {task : Task T} {result : Bool} {fr : Frame T}
    (hready : Ready E s task [] result) (h : fr ∈ (s.runTask E task result).calls) :
    Admitted E s fr := by
  have hawaits : ∀ c ∈ task.awaits, c.Holds s :=
    fun c hc => (hready.awaits c hc).resolve_left List.not_mem_nil
  cases task <;> simp only [runTask] at h
  case fetched => exact free_fetched fr h _
  case vote v =>
    cases result
    · cases h
    · exact List.mem_singleton.mp h ▸ ⟨hawaits _ List.mem_cons_self, hready.checked rfl⟩
  case ack a =>
    cases result
    · cases h
    · exact List.mem_singleton.mp h ▸ ⟨hawaits _ List.mem_cons_self, hready.checked rfl⟩
  case share sh =>
    exact List.mem_singleton.mp h ▸ ⟨hawaits _ List.mem_cons_self,
      Or.inr (hawaits _ (List.mem_cons_of_mem _ List.mem_cons_self))⟩
  case respBlock => cases h
  case status st =>
    cases result
    · cases h
    · exact List.mem_singleton.mp h ▸ trivial
  case echo e =>
    cases result
    · cases h
    · exact List.mem_singleton.mp h ▸ trivial
  all_goals exact List.mem_singleton.mp h ▸ trivial

theorem calls_gather (hg : Gate E s) {hs : List ℕ} {peer : ℕ} {conds : List Cond}
    {wait : Wait T} (ha : Admitted E s (.gather hs peer conds wait)) {fr : Frame T}
    (h : fr ∈ (s.gather E hs peer conds wait).calls) : Admitted E s fr := by
  unfold gather at h
  split at h
  · rcases all_cases hg conds ha.1 ha.2 with ⟨e, heq⟩ |
      ⟨conds', result, hready, ⟨rfl, heq⟩ | heq⟩
    · rw [heq] at h
      cases h
    · rw [heq] at h
      exact List.mem_singleton.mp h ▸ hready
    · rw [heq] at h
      cases h
  · split at h
    · exact List.mem_singleton.mp h ▸ ha
    · split at h
      · exact List.mem_singleton.mp h ▸ ha
      · rcases List.mem_cons.mp h with rfl | h
        · exact trivial
        · exact List.mem_singleton.mp h ▸ ha

theorem calls_startDelivery {h peer : ℕ} {fr : Frame T}
    (hfr : fr ∈ (s.startDelivery h peer).calls) : Admitted E s fr := by
  unfold startDelivery at hfr
  dsimp only at hfr
  split at hfr
  · exact List.mem_singleton.mp hfr ▸ ready_free rfl trivial
  · cases hfr

theorem calls_notify (hg : Gate E s) {id : ℕ} {cond : Cond} (hcond : cond.Holds s)
    {fr : Frame T} (h : fr ∈ (s.notify id cond).calls) : Admitted E s fr := by
  unfold notify at h
  split at h
  · cases h
  · rename_i p hfind
    have hready := (hg.pendings p (List.mem_of_find?_eq_some hfind)).erase hcond
    dsimp only at h
    split at h
    · rename_i hempty
      rw [List.isEmpty_iff.mp hempty] at hready
      exact List.mem_singleton.mp h ▸ hready
    · cases h

theorem exec_free {fr : Frame T} (h : ¬ fr.Passes) : (s.exec E fr).Free E := by
  intro fr' hfr'
  apply Frame.free_of_plain
  cases Frame.mayCall_of_mem hfr' <;> first | rfl | exact absurd trivial h

theorem exec_calls (hg : Gate E s) {fr : Frame T} (ha : Admitted E s fr)
    {fr' : Frame T} (h : fr' ∈ (s.exec E fr).calls) :
    Admitted E (s.exec E fr).rep fr' := by
  have hle := exec_le hg fr
  by_cases hp : fr.Passes
  · cases fr <;> try exact False.elim hp
    case onReceiveViewProposal_ => exact List.mem_singleton.mp h ▸ le_refl s.view
    case tryEnterView =>
      rcases tryEnterView_cases (s := s) (E := E) rfl with heq | ⟨-, -, hviews, -, -, hcalls⟩
      · rw [exec, heq] at h
        cases h
      · rw [exec, hcalls] at h
        rw [List.mem_singleton.mp h]
        exact (congrArg Views.view hviews :).ge
    all_goals refine Admitted.mono ?_ hle
    case handle => exact calls_handle h
    case gather => exact calls_gather hg ha h
    case startDelivery => exact calls_startDelivery h
    case notify => exact calls_notify hg ha h
    case resolve cond =>
      obtain ⟨p, -, hp⟩ := List.mem_flatMap.mp h
      exact List.eq_of_mem_replicate hp ▸ ha
    case run task result => exact calls_run ha h
    case vote blk proposer =>
      simp only [exec, vote] at h
      split at h
      · exact List.mem_singleton.mp h ▸ ⟨le_refl s.view, verify_own_vote hg.id_lt⟩
      · split at h
        · cases h
        · cases h
    case ack blk =>
      rcases List.mem_cons.mp h with rfl | h
      · exact ⟨le_refl s.view, verify_own_ack hg.id_lt⟩
      · exact List.mem_singleton.mp h ▸ trivial
    case broadcastShare =>
      simp only [exec, broadcastShare] at h
      split at h
      · cases h
      · rename_i dec hdec
        rcases List.mem_cons.mp h with rfl | h
        · exact ⟨le_refl s.view, Or.inl ⟨_, _, hdec⟩⟩
        · exact List.mem_singleton.mp h ▸ trivial
    case onEnterView view =>
      rcases List.mem_cons.mp h with rfl | h
      · exact ha
      · rcases List.mem_cons.mp h with rfl | h
        · exact trivial
        · exact List.mem_singleton.mp h ▸ trivial
    case beatCallback =>
      simp only [exec, beatCallback] at h
      split at h
      · cases h
      · exact List.mem_singleton.mp h ▸ hg.view_pos
  · exact exec_free hp fr' h _

end Replica

/-! ## Runs -/

namespace System

variable {E : Env T} {F : Faults T} {ok : System T → ℕ → Frame T → Prop} {σ : System T}

/-- What is known of the promises and of the calls of a replica in every state. -/
def Admits (E : Env T) (x : Node T) : Prop :=
  Gate E x.rep ∧ ∀ fr ∈ x.stack, Admitted E x.rep fr

theorem Run.admits (h : Run E F ok σ) {i : ℕ} (hi : i < E.nreplicas) : Admits E (σ.nodes i) := by
  revert hi
  refine h.node_induction (I := fun i x => i < E.nreplicas → Admits E x) ?_ ?_ ?_ i
  · intro i hi
    refine ⟨⟨hi, le_refl 1, Nat.zero_le 1, nofun, nofun, nofun⟩, nofun⟩
  · intro i x ev hx _ _ hi
    refine ⟨(hx hi).1, ?_⟩
    intro fr hfr
    rw [List.mem_singleton.mp hfr]
    cases ev
    all_goals exact trivial
  · intro σ i fr stack _ _ _ hx hstack hi
    obtain ⟨hgate, hcalls⟩ := hx hi
    rw [hstack] at hcalls
    have htop := hcalls fr List.mem_cons_self
    unfold Admits
    rw [Node.rep_after]
    refine ⟨Replica.exec_gate hgate htop, ?_⟩
    intro fr' hfr'
    rcases Node.mem_stack_after hfr' with hcall | hrest
    · exact Replica.exec_calls hgate htop hcall
    · exact (hcalls fr' (List.mem_cons_of_mem _ hrest)).mono (Replica.exec_le hgate fr)

end System

end OptRand.Hotstuff
