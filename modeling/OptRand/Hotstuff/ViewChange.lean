import OptRand.Hotstuff.Records
import OptRand.Hotstuff.Waiting

/-!
# Leaving a view

`_try_enter_view` compares three flags with the view. The flags of shares and beacons are set to
the view of the replica, so a view is left only after its beacon has been reconstructed, exactly
once (`System.gapFree`). The flag of certificates is set to the view of the certificate, which
nothing compares with that of the replica: `qc_handler` does not wait for it. A certificate of a
later view then keeps out those of the current one (`System.current_cert_refused`).
-/

namespace OptRand.Hotstuff

open Lib

variable {T : PayloadTypes}

/-! ## Certificates of later views -/

namespace Replica

variable {s : Replica T} {E : Env T}

theorem view_onReceiveQc {qc : QuorumCert} : (s.onReceiveQc E qc).rep.view = s.view := by
  have hviews : (s.exec E (.onReceiveQc qc)).rep.views = s.views := exec_views not_false
  exact congrArg Views.view hviews

theorem view_tryEnterView (hcert : s.lastViewCertReceived = s.view)
    (hshares : s.lastViewSharesReceived = s.view) : (s.tryEnterView E).rep.view = s.view + 1 := by
  rcases tryEnterView_cases (rfl : s.tryEnterView E = _) with h | ⟨-, -, h, -⟩
  · unfold tryEnterView at h
    rw [if_pos ⟨hcert, Or.inl hshares⟩] at h
    exact absurd (congrArg Outcome.calls h) (List.cons_ne_nil _ _)
  · exact congrArg Views.view h

/-- A certificate of the current view sets the flag, unless it is set to a later view. -/
theorem lastViewCertReceived_onReceiveQc (hle : s.lastViewCertReceived ≤ s.view)
    {qc : QuorumCert} (hqc : qc.view = s.view) :
    (s.onReceiveQc E qc).rep.lastViewCertReceived = s.view := by
  rcases records_onReceiveQc (s := s) (E := E) qc with ⟨hguard, h⟩ | ⟨-, -, h⟩
  · have hlast : s.view ≤ s.lastViewCertReceived := hguard.resolve_left hqc.not_lt
    exact (congrArg Records.lastViewCertReceived h).trans (le_antisymm hle hlast)
  · exact (congrArg Records.lastViewCertReceived h).trans hqc

end Replica

namespace System

/-- `on_receive_qc` passes its guard with certificates of no later view. -/
def InTime (σ : System T) (i : ℕ) : Frame T → Prop
  | .onReceiveQc qc => (σ.nodes i).rep.lastViewCertReceived < (σ.nodes i).rep.view →
      qc.view ≤ (σ.nodes i).rep.view
  | _ => True

/-- As long as no certificate of a later view passes the guard of `on_receive_qc`, the flag is
never above the view: a certificate of the current view sets it to the view, and then the shares
are enough to leave the view. -/
theorem current_cert_accepted (E : Env T) (F : Faults T) (σ : System T) (h : Run E F InTime σ)
    (i : ℕ) : (σ.nodes i).rep.lastViewCertReceived ≤ (σ.nodes i).rep.view ∧
      ∀ qc : QuorumCert, qc.view = (σ.nodes i).rep.view →
        let s := ((σ.nodes i).rep.onReceiveQc E qc).rep
        s.lastViewCertReceived = s.view ∧ s.view = qc.view ∧
          (s.lastViewSharesReceived = s.view → (s.tryEnterView E).rep.view = qc.view + 1) := by
  have hle : (σ.nodes i).rep.lastViewCertReceived ≤ (σ.nodes i).rep.view := by
    refine h.node_induction (I := fun _ x => x.rep.lastViewCertReceived ≤ x.rep.view) ?_ ?_ ?_ i
    · exact fun i => Nat.zero_le 1
    · exact fun i x ev hx _ _ => hx
    · intro σ i fr stack _ _ hok hx _
      have hview := (σ.nodes i).rep.view_le_exec (E := E) fr
      rw [Node.rep_after]
      rcases Replica.exec_lastViewCertReceived (s := (σ.nodes i).rep) (E := E) fr with
        h | ⟨qc, rfl, -, hlast, h⟩
      · rw [h]
        exact hx.trans hview
      · rw [h]
        exact (hok hlast).trans hview
  refine ⟨hle, fun qc hqc => ?_⟩
  have hview : ((σ.nodes i).rep.onReceiveQc E qc).rep.view = (σ.nodes i).rep.view :=
    Replica.view_onReceiveQc
  have hcert := Replica.lastViewCertReceived_onReceiveQc (E := E) hle hqc
  refine ⟨hcert.trans hview.symm, hview.trans hqc.symm, fun hshares => ?_⟩
  rw [Replica.view_tryEnterView (hcert.trans hview.symm) hshares, hview, hqc]

/-- A certificate for the first proposal of replica `0`, with the signatures of replicas `0` and
`1`. -/
def firstCert (view : ℕ) : QuorumCert :=
  QuorumCertSecp256k1.ofSigners (voteEnv.hash firstBlock) view [0, 1] (by decide) (by decide)
    fun k => ⟨k, voteEnv.hash firstBlock⟩

/-- Replica `0` has its proposal voted for by replica `1` and sends it a certificate. -/
def certifiedAs (view : ℕ) : List (Scripted plainTypes) :=
  [.inject 0 1 (.propose ⟨0, firstBlock, 1⟩), .inject 0 1 (.qc (firstCert view)), .verify 1]

/-- Whether a certificate is of no later view. -/
def inTime (σ : System plainTypes) (i : ℕ) : Frame plainTypes → Bool
  | .onReceiveQc qc => decide (qc.view ≤ (σ.nodes i).rep.view)
  | _ => true

theorem inTime_of_check {σ : System plainTypes} {i : ℕ} {fr : Frame plainTypes}
    (h : inTime σ i fr = true) : InTime σ i fr := by
  cases fr
  case onReceiveQc => exact fun _ => of_decide_eq_true h
  all_goals exact trivial

theorem current_cert_accepted_first : ∃ σ : System plainTypes,
    (σ.nodes 1).rep.lastViewCertReceived = 1 ∧
    (σ.nodes 1).rep.lastViewCertReceived ≤ (σ.nodes 1).rep.view ∧
    ∀ qc : QuorumCert, qc.view = (σ.nodes 1).rep.view →
      let s := ((σ.nodes 1).rep.onReceiveQc voteEnv qc).rep
      s.lastViewCertReceived = s.view ∧ s.view = qc.view ∧
        (s.lastViewSharesReceived = s.view → (s.tryEnterView voteEnv).rep.view = qc.view + 1) := by
  obtain ⟨σ, hrun, htest⟩ := exists_of_play voteEnv firstByzantine inTime
    (fun _ _ _ => inTime_of_check) (certifiedAs 1)
    (fun σ => (σ.nodes 1).rep.lastViewCertReceived == 1) (by decide +kernel)
  exact ⟨σ, eq_of_beq htest, current_cert_accepted voteEnv firstByzantine σ hrun 1⟩

/-- After a verified certificate of view `2`, replica `1` refuses one of its view `1`. -/
theorem current_cert_refused : ∃ σ : System plainTypes,
    Reachable voteEnv firstByzantine σ ∧ Honest voteEnv firstByzantine 1 ∧
    (firstCert 1).verify SigScheme.ideal voteEnv.config = .ok true ∧
    (firstCert 1).view = (σ.nodes 1).rep.view ∧
    ¬ (σ.nodes 1).rep.lastViewCertReceived ≤ (σ.nodes 1).rep.view ∧
    ((σ.nodes 1).rep.onReceiveQc voteEnv (firstCert 1)).rep.lastViewCertReceived ≠
      (σ.nodes 1).rep.view := by
  obtain ⟨σ, hrun, htest⟩ := exists_reachable_of_play voteEnv firstByzantine (certifiedAs 2)
    (fun σ => (σ.nodes 1).rep.view == 1 && ((σ.nodes 1).rep.lastViewCertReceived == 2 &&
      ((σ.nodes 1).rep.onReceiveQc voteEnv (firstCert 1)).rep.lastViewCertReceived == 2))
    (by decide +kernel)
  simp only [Bool.and_eq_true, beq_iff_eq] at htest
  obtain ⟨hview, hcert, hafter⟩ := htest
  refine ⟨σ, hrun, by decide, rfl, hview.symm, ?_, ?_⟩
  all_goals omega

end System

/-! ## The beacon of each view -/

/-- The beacons of view `v` that were output in the calls `past`, with their aggregates and the
states in which they were output. -/
def beaconsIn (E : Env T) (past : List (Executed T)) (v : ℕ) :
    List (Replica T × T.Aggregate × T.Beacon) :=
  past.flatMap fun e => (e.outcome E).out.filterMap fun
    | .beacon w agg b => if w = v then some (e.rep, agg, b) else none
    | _ => none

/-- Exactly one beacon of view `v` was output, in view `v`, and it passed `verify_beacon` against
the aggregate held for the proposer of `v`. -/
def OneBeacon (E : Env T) (past : List (Executed T)) (v : ℕ) : Prop :=
  ∃ (s : Replica T) (agg : T.Aggregate) (b : T.Beacon), beaconsIn E past v = [(s, agg, b)] ∧
    s.view = v ∧ agg = s.aggQueue (E.getProposer v) ∧ (E.pvss s.id).verifyBeacon agg b = true

/-- The part of the views that beacons are reported in. -/
def Views.reporting (v : Views T) : ℕ × ℕ × ℕ × (ℕ → List T.Decryption) :=
  (v.view, v.lastViewSharesReceived, v.lastViewBeaconReceived, v.viewShares)

/-- What a replica that has not thrown knows of the beacons and certificates of its views. -/
structure Reporting (E : Env T) (past : List (Executed T)) (s : Replica T) : Prop where
  left : ∀ v, 1 ≤ v → v < s.view → OneBeacon E past v
  none_yet : (s.viewShares s.view).length < E.config.nmajority → beaconsIn E past s.view = []
  reported : s.lastViewSharesReceived = s.view ∨ s.lastViewBeaconReceived = s.view →
    OneBeacon E past s.view
  later : ∀ v, s.view < v → beaconsIn E past v = []
  shares_le : s.lastViewSharesReceived ≤ s.view
  beacon_le : s.lastViewBeaconReceived ≤ s.view
  cert_le : s.lastViewCertReceived ≤ s.hqc.2.view
  hqc_le : s.view ≤ s.hqc.2.view + 1

section

variable {E : Env T} {past : List (Executed T)} {s : Replica T}

theorem beaconsIn_cons_of_quiet {e : Executed T} (h : ∀ w agg b, .beacon w agg b ∉ (e.outcome E).out)
    (v : ℕ) : beaconsIn E (e :: past) v = beaconsIn E past v := by
  have hnil : ((e.outcome E).out.filterMap fun
      | .beacon w agg b => if w = v then some (e.rep, agg, b) else none
      | _ => none) = [] := by
    apply List.filterMap_eq_nil_iff.mpr
    intro o ho
    cases o with
    | beacon w agg b => exact absurd ho (h w agg b)
    | _ => rfl
  rw [beaconsIn, List.flatMap_cons, hnil]
  rfl

theorem OneBeacon.of_eq {past' : List (Executed T)} {v : ℕ} (h : OneBeacon E past v)
    (heq : beaconsIn E past' v = beaconsIn E past v) : OneBeacon E past' v := by
  unfold OneBeacon
  rw [heq]
  exact h

/-- A call that outputs no beacon and changes neither the flags nor the shares. -/
theorem Reporting.of_quiet {s' : Replica T} {e : Executed T} (h : Reporting E past s)
    (hquiet : ∀ w agg b, .beacon w agg b ∉ (e.outcome E).out)
    (hsame : s'.views.reporting = s.views.reporting)
    (hcert : s'.lastViewCertReceived ≤ s'.hqc.2.view) (hhqc : s.hqc.2.view ≤ s'.hqc.2.view) :
    Reporting E (e :: past) s' := by
  have heq : ∀ v, beaconsIn E (e :: past) v = beaconsIn E past v :=
    beaconsIn_cons_of_quiet hquiet
  simp only [Views.reporting, Replica.views, Prod.mk.injEq] at hsame
  obtain ⟨hview, hshares, hbeacon, hall⟩ := hsame
  refine ⟨?_, ?_, ?_, ?_, ?_, ?_, hcert, ?_⟩
  · intro v hv hlt
    exact (h.left v hv (hview ▸ hlt)).of_eq (heq v)
  · rw [hview, hall, heq]
    exact h.none_yet
  · rw [hview, hshares, hbeacon]
    exact fun hflag => (h.reported hflag).of_eq (heq _)
  · intro v hlt
    rw [heq]
    exact h.later v (hview ▸ hlt)
  · rw [hview, hshares]
    exact h.shares_le
  · rw [hview, hbeacon]
    exact h.beacon_le
  · rw [hview]
    exact h.hqc_le.trans (Nat.add_le_add_right hhqc 1)

end

namespace Replica

variable {s : Replica T} {E : Env T}

theorem hqc_view_le (fr : Frame T) : s.hqc.2.view ≤ (s.exec E fr).rep.hqc.2.view := by
  rcases exec_hqc (s := s) (E := E) fr with h | ⟨qc, -, hlt, h⟩
  · rw [h]
  · rw [h]
    exact hlt.le

/-- A certificate that is noted without an exception is no higher than the highest. -/
theorem cert_le_exec (fr : Frame T) (hle : s.lastViewCertReceived ≤ s.hqc.2.view)
    (herror : (s.exec E fr).error = none) :
    (s.exec E fr).rep.lastViewCertReceived ≤ (s.exec E fr).rep.hqc.2.view := by
  rcases exec_lastViewCertReceived (s := s) (E := E) fr with h | ⟨qc, rfl, hview, hlast, h⟩
  · rw [h]
    exact hle.trans (hqc_view_le fr)
  · rw [h]
    change (s.onReceiveQc E qc).error = none at herror
    change qc.view ≤ (s.onReceiveQc E qc).rep.hqc.2.view
    have hguard : ¬ (qc.view < s.view ∨ s.lastViewCertReceived ≥ s.view) := by omega
    revert herror
    unfold onReceiveQc
    rw [if_neg hguard]
    dsimp only
    split
    · exact nofun
    · unfold Attempt.andThen
      split
      · rename_i t ht
        exact fun _ => (le_of_updateHqc ht).2
      · exact nofun

theorem quiet_of_not_share {fr : Frame T} (h : ∀ sh, fr ≠ .onReceiveShare sh) (w : ℕ)
    (agg : T.Aggregate) (b : T.Beacon) : .beacon w agg b ∉ (s.exec E fr).out := by
  intro hout
  rcases exec_out hout with hmsg | hsaid
  · exact hmsg.elim
  · cases hsaid with
    | beacon sh b hview hverify => exact h sh rfl

/-- Besides shares, beacons and the change of the view nothing changes what is reported. -/
theorem exec_reporting {fr : Frame T} (hshare : ∀ sh, fr ≠ .onReceiveShare sh)
    (hbeacon : ∀ b, fr ≠ .onReceiveBeacon b) (henter : fr ≠ .tryEnterView) :
    (s.exec E fr).rep.views.reporting = s.views.reporting := by
  rw [exec_patch]
  cases fr <;> first
    | rfl
    | exact absurd rfl (hshare _)
    | exact absurd rfl (hbeacon _)
    | exact absurd rfl henter

/-- What a share does that is not of a later view and does not throw. -/
theorem onReceiveShare_cases {sh : Share T} (hle : sh.view ≤ s.view) {o : Outcome T}
    (ho : s.onReceiveShare E sh = o) (herror : o.error = none) :
    (o.rep = s ∧ o.out = []) ∨
    (sh.view = s.view ∧ (s.viewShares s.view).length < E.config.nmajority ∧
      o.rep.view = s.view ∧ o.rep.viewShares =
        Function.update s.viewShares s.view (s.viewShares s.view ++ [sh.bt]) ∧
      (((s.viewShares s.view).length + 1 ≠ E.config.nmajority ∧ o.out = [] ∧
          o.rep.lastViewSharesReceived = s.lastViewSharesReceived ∧
          o.rep.lastViewBeaconReceived = s.lastViewBeaconReceived) ∨
        ∃ b msg, (s.viewShares s.view).length + 1 = E.config.nmajority ∧
          (E.pvss s.id).verifyBeacon (s.aggQueue (E.getProposer s.view)) b = true ∧
          o.out = [.beacon s.view (s.aggQueue (E.getProposer s.view)) b, .broadcast msg] ∧
          o.rep.lastViewSharesReceived = s.view ∧ o.rep.lastViewBeaconReceived = s.view)) := by
  subst ho
  revert herror
  unfold onReceiveShare
  split
  · exact fun _ => Or.inl ⟨rfl, rfl⟩
  · rename_i hview
    have hview : sh.view = s.view := le_antisymm hle (not_lt.mp hview)
    rw [hview]
    dsimp only
    split
    · exact fun _ => Or.inl ⟨rfl, rfl⟩
    · rename_i hlen
      split
      · exact nofun
      · exact nofun
      · split
        · rename_i hfull
          rw [List.length_append, List.length_singleton] at hfull
          split
          · exact nofun
          · split
            · exact nofun
            · rename_i b _ hverify
              refine fun _ => Or.inr ⟨rfl, not_le.mp hlen, rfl, rfl,
                Or.inr ⟨b, _, hfull, ?_, rfl, rfl, rfl⟩⟩
              simpa using hverify
        · rename_i hfull
          rw [List.length_append, List.length_singleton] at hfull
          exact fun _ => Or.inr ⟨rfl, not_le.mp hlen, rfl, rfl, Or.inl ⟨hfull, rfl, rfl, rfl⟩⟩

end Replica

namespace Reporting

variable {E : Env T} {past : List (Executed T)} {s : Replica T} {i : ℕ}

theorem share (h : Reporting E past s) {sh : Share T} (hle : sh.view ≤ s.view)
    (herror : (s.exec E (.onReceiveShare sh)).error = none) :
    Reporting E (⟨i, s, .onReceiveShare sh⟩ :: past) (s.exec E (.onReceiveShare sh)).rep := by
  have hcert := Replica.cert_le_exec (.onReceiveShare sh) h.cert_le herror
  have hhqc := Replica.hqc_view_le (s := s) (E := E) (.onReceiveShare sh)
  rcases Replica.onReceiveShare_cases hle (rfl : s.onReceiveShare E sh = _) herror with
    ⟨hrep, hout⟩ | ⟨-, hlen, hview, hshares, hcount⟩
  · refine h.of_quiet ?_ (congrArg (fun t : Replica T => t.views.reporting) hrep) hcert hhqc
    intro w agg b hb
    change .beacon w agg b ∈ (s.onReceiveShare E sh).out at hb
    rw [hout] at hb
    cases hb
  · generalize ho : s.exec E (.onReceiveShare sh) = o at hcert hhqc ⊢
    change s.onReceiveShare E sh = o at ho
    rw [ho] at hview hshares hcount
    have hempty := h.none_yet hlen
    -- the list of the other views stays, and that of the view gets what is output now
    have hbeacons : ∀ v, beaconsIn E (⟨i, s, .onReceiveShare sh⟩ :: past) v =
        (o.out.filterMap fun
          | .beacon w agg b => if w = v then some (s, agg, b) else none
          | _ => none) ++ beaconsIn E past v := by
      intro v
      rw [← ho]
      rfl
    rcases hcount with ⟨hmore, hout, hls, hlb⟩ | ⟨b, msg, hfull, hverify, hout, hls, hlb⟩
    · have heq : ∀ v, beaconsIn E (⟨i, s, .onReceiveShare sh⟩ :: past) v = beaconsIn E past v := by
        intro v
        rw [hbeacons, hout]
        rfl
      refine ⟨?_, ?_, ?_, ?_, ?_, ?_, hcert, ?_⟩
      · intro v hv hlt
        exact (h.left v hv (hview ▸ hlt)).of_eq (heq v)
      · rw [hview, heq]
        exact fun _ => hempty
      · rw [hview, hls, hlb]
        exact fun hflag => (h.reported hflag).of_eq (heq _)
      · intro v hlt
        rw [heq]
        exact h.later v (hview ▸ hlt)
      · rw [hview, hls]
        exact h.shares_le
      · rw [hview, hlb]
        exact h.beacon_le
      · rw [hview]
        exact h.hqc_le.trans (Nat.add_le_add_right hhqc 1)
    · have hother : ∀ v, v ≠ s.view →
          beaconsIn E (⟨i, s, .onReceiveShare sh⟩ :: past) v = beaconsIn E past v := by
        intro v hv
        rw [hbeacons, hout]
        simp [Ne.symm hv]
      have hnow : OneBeacon E (⟨i, s, .onReceiveShare sh⟩ :: past) s.view := by
        refine ⟨s, s.aggQueue (E.getProposer s.view), b, ?_, rfl, rfl, hverify⟩
        rw [hbeacons, hempty, hout]
        simp
      refine ⟨?_, ?_, ?_, ?_, ?_, ?_, hcert, ?_⟩
      · intro v hv hlt
        rw [hview] at hlt
        exact (h.left v hv hlt).of_eq (hother v hlt.ne)
      · rw [hview, hshares, Function.update_self, List.length_append, List.length_singleton]
        intro hlt
        omega
      · rw [hview]
        exact fun _ => hnow
      · intro v hlt
        rw [hview] at hlt
        rw [hother v hlt.ne']
        exact h.later v hlt
      · rw [hview, hls]
      · rw [hview, hlb]
      · rw [hview]
        exact h.hqc_le.trans (Nat.add_le_add_right hhqc 1)

/-- A view is left with its beacon reported and its certificate noted. -/
theorem enter (h : Reporting E past s) (herror : (s.exec E .tryEnterView).error = none) :
    Reporting E (⟨i, s, .tryEnterView⟩ :: past) (s.exec E .tryEnterView).rep := by
  have hquiet : ∀ w agg b, .beacon w agg b ∉ (s.exec E .tryEnterView).out :=
    Replica.quiet_of_not_share nofun
  have heq : ∀ v, beaconsIn E (⟨i, s, .tryEnterView⟩ :: past) v = beaconsIn E past v :=
    beaconsIn_cons_of_quiet hquiet
  have hcert := Replica.cert_le_exec .tryEnterView h.cert_le herror
  have hhqc := Replica.hqc_view_le (s := s) (E := E) .tryEnterView
  rcases Replica.tryEnterView_cases (rfl : s.tryEnterView E = _) with
    hdone | ⟨hcview, hflag, hviews, -⟩
  · refine h.of_quiet hquiet ?_ hcert hhqc
    exact congrArg (fun o : Outcome T => o.rep.views.reporting) hdone
  · generalize ho : s.exec E .tryEnterView = o at hcert hhqc ⊢
    change s.tryEnterView E = o at ho
    rw [ho] at hviews
    have hview : o.rep.view = s.view + 1 := congrArg Views.view hviews
    have hls : o.rep.lastViewSharesReceived = s.lastViewSharesReceived :=
      congrArg Views.lastViewSharesReceived hviews
    have hlb : o.rep.lastViewBeaconReceived = s.lastViewBeaconReceived :=
      congrArg Views.lastViewBeaconReceived hviews
    have hshares := h.shares_le
    have hbeacon := h.beacon_le
    refine ⟨?_, ?_, ?_, ?_, ?_, ?_, hcert, ?_⟩
    · intro v hv hlt
      rw [hview] at hlt
      rcases Nat.lt_succ_iff_lt_or_eq.mp hlt with hlt | rfl
      · exact (h.left v hv hlt).of_eq (heq v)
      · exact (h.reported hflag).of_eq (heq _)
    · rw [hview, heq]
      exact fun _ => h.later _ (Nat.lt_succ_self _)
    · rw [hview, hls, hlb]
      intro hnew
      omega
    · intro v hlt
      rw [hview] at hlt
      rw [heq]
      exact h.later v (by omega)
    · omega
    · omega
    · have hle := h.cert_le
      omega

/-- `on_receive_beacon` does nothing. -/
theorem beacon (h : Reporting E past s) (b : Beacon T) : s.onReceiveBeacon E b = s.done := by
  have hle := h.beacon_le
  unfold Replica.onReceiveBeacon
  rw [if_pos (by omega)]

theorem exec (h : Reporting E past s) {fr : Frame T} (ha : Admitted E s fr)
    (herror : (s.exec E fr).error = none) :
    Reporting E (⟨i, s, fr⟩ :: past) (s.exec E fr).rep := by
  by_cases hshare : ∃ sh, fr = .onReceiveShare sh
  · obtain ⟨sh, rfl⟩ := hshare
    exact h.share ha.1 herror
  · have hshare : ∀ sh, fr ≠ .onReceiveShare sh := fun sh heq => hshare ⟨sh, heq⟩
    by_cases henter : fr = .tryEnterView
    · subst henter
      exact h.enter herror
    · refine h.of_quiet (Replica.quiet_of_not_share hshare) ?_
        (Replica.cert_le_exec fr h.cert_le herror) (Replica.hqc_view_le fr)
      by_cases hbeacon : ∃ b, fr = .onReceiveBeacon b
      · obtain ⟨b, rfl⟩ := hbeacon
        exact congrArg (fun o : Outcome T => o.rep.views.reporting) (h.beacon b)
      · exact Replica.exec_reporting hshare (fun b heq => hbeacon ⟨b, heq⟩) henter

end Reporting

theorem reporting_init (E : Env T) (i : ℕ) : Reporting E [] (E.init i) where
  left v hv hlt := absurd hlt (not_lt.mpr hv)
  none_yet _ := rfl
  reported h := by rcases h with h | h <;> cases h
  later _ _ := rfl
  shares_le := Nat.zero_le 1
  beacon_le := Nat.zero_le 1
  cert_le := le_rfl
  hqc_le := le_rfl

namespace System

variable {E : Env T} {F : Faults T} {ok : System T → ℕ → Frame T → Prop} {σ : System T}

theorem Run.reporting (h : Run E F ok σ) {i : ℕ} (hi : i < E.nreplicas)
    (hcrash : (σ.nodes i).crashed = none) : Reporting E (σ.history i) (σ.nodes i).rep := by
  revert hi hcrash
  refine h.history_induction (I := fun i past x => i < E.nreplicas → x.crashed = none →
    Reporting E past x.rep) ?_ ?_ ?_ i
  · exact fun i _ _ => reporting_init E i
  · exact fun i past x ev hx hidle _ hi _ => hx hi hidle.2
  · intro σ i fr stack hrun _ _ hx hstack hi hcrash
    have hold := hx hi (hrun.crashed_eq_none hstack)
    have hadm := (hrun.admits hi).2 fr (by rw [hstack]; exact List.mem_cons_self)
    rw [Node.crashed_after] at hcrash
    rw [Node.rep_after]
    exact hold.exec hadm hcrash

/-- A replica that has not thrown has output exactly one beacon of every view that it has left,
which passed `verify_beacon` against the aggregate held in that view, and its highest certificate
is at most one view behind. -/
theorem gapFree (E : Env T) (F : Faults T) (σ : System T) (h : Reachable E F σ) (i : ℕ)
    (hi : Honest E F i) (hcrash : (σ.nodes i).crashed = none) :
    (∀ v, 1 ≤ v → v < (σ.nodes i).rep.view → OneBeacon E (σ.history i) v) ∧
      (σ.nodes i).rep.view - 1 ≤ (σ.nodes i).rep.hqc.2.view := by
  have hrep := h.reporting hi.1 hcrash
  have hhqc := hrep.hqc_le
  exact ⟨hrep.left, by omega⟩

theorem gapFree_twoEnv : ∃ σ : System plainTypes, (σ.nodes 1).rep.view = 3 ∧
    (∀ v, 1 ≤ v → v < (σ.nodes 1).rep.view → OneBeacon twoEnv (σ.history 1) v) ∧
      (σ.nodes 1).rep.view - 1 ≤ (σ.nodes 1).rep.hqc.2.view := by
  obtain ⟨σ, hrun, htest⟩ := exists_reachable_of_play twoEnv noFaults twoViews
    (fun σ => (σ.nodes 1).rep.view == 3 && (σ.nodes 1).crashed.isNone) (by decide +kernel)
  simp only [Bool.and_eq_true, beq_iff_eq, Option.isNone_iff_eq_none] at htest
  exact ⟨σ, htest.1, gapFree twoEnv noFaults σ hrun 1 (by decide) htest.2⟩

end System

end OptRand.Hotstuff
