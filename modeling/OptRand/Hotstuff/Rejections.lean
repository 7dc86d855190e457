import OptRand.Hotstuff.Statuses
import OptRand.Hotstuff.ViewChange

/-!
# Payloads that do not verify

The handlers of votes, acknowledgements and statuses drop a message that does not verify. Those of
shares, transcripts and beacons throw, and an exception ends the replica. A share or a transcript is
harmless exactly when the handler drops it before it is verified, or it verifies and so does what is
computed from it (`System.payloads_harmless_iff`).

A handler returns when the calls that it makes return, so `Returns` runs a whole stack.
-/

namespace OptRand.Hotstuff

open Lib

variable {T : PayloadTypes}

/-- The calls of a stack, run one after the other, end without an exception in the state `s'`. -/
inductive Returns (E : Env T) : Replica T → List (Frame T) → Replica T → Prop
  | nil (s : Replica T) : Returns E s [] s
  | cons {s s' : Replica T} {fr : Frame T} {stack : List (Frame T)}
      (herror : (s.exec E fr).error = none)
      (hrest : Returns E (s.exec E fr).rep ((s.exec E fr).calls ++ stack) s') :
      Returns E s (fr :: stack) s'

namespace Returns

variable {E : Env T} {s s' : Replica T} {fr : Frame T} {stack : List (Frame T)}

theorem nil_iff : Returns E s [] s' ↔ s' = s := by
  constructor
  · intro h
    cases h
    rfl
  · rintro rfl
    exact Returns.nil s'

theorem cons_iff : Returns E s (fr :: stack) s' ↔ (s.exec E fr).error = none ∧
    Returns E (s.exec E fr).rep ((s.exec E fr).calls ++ stack) s' := by
  constructor
  · intro h
    cases h with
    | cons herror hrest => exact ⟨herror, hrest⟩
  · rintro ⟨herror, hrest⟩
    exact Returns.cons herror hrest

/-- A call that returns at once. -/
theorem of_done {t : Replica T} (h : s.exec E fr = t.done) : Returns E s [fr] s' ↔ s' = t := by
  rw [cons_iff, h]
  exact (and_iff_right rfl).trans nil_iff

theorem not_of_error {e : Error} (h : (s.exec E fr).error = some e) : ¬ Returns E s [fr] s' := by
  intro hreturns
  cases h.symm.trans (cons_iff.mp hreturns).1

/-- There is one state that a stack returns in. -/
theorem unique {s₁ s₂ : Replica T} (h₁ : Returns E s stack s₁) (h₂ : Returns E s stack s₂) :
    s₁ = s₂ := by
  induction h₁ with
  | nil s => exact (nil_iff.mp h₂).symm
  | cons herror hrest ih => exact ih (cons_iff.mp h₂).2

end Returns

namespace System

variable {E : Env T} {F : Faults T} {σ : System T}

/-- What returns is run to its end by the system, too. -/
theorem Reachable.returns {i : ℕ} {s s' : Replica T} {frames stack : List (Frame T)}
    (h : Reachable E F σ) (hi : Honest E F i) (hr : Returns E s frames s')
    (hnode : σ.nodes i = ⟨s, frames ++ stack, none⟩) :
    ∃ σ', Reachable E F σ' ∧ σ'.nodes i = ⟨s', stack, none⟩ := by
  induction hr generalizing σ with
  | nil s => exact ⟨σ, h, hnode⟩
  | @cons s s' fr frames herror hrest ih =>
    have htop : (σ.nodes i).stack = fr :: (frames ++ stack) := by
      rw [hnode]
      rfl
    refine ih (h.frame i fr _ hi htop trivial) ?_
    change Function.update σ.nodes i _ i = _
    rw [Function.update_self, hnode]
    unfold Node.after
    rw [herror, List.append_assoc]

end System

namespace Replica

variable {s : Replica T} {E : Env T}

/-! ## Harmless messages -/

/-- The payload of a message verifies. -/
def Verifies (E : Env T) (s : Replica T) : Frame T → Prop
  | .onReceiveShare sh =>
    (E.pvss s.id).verifyDecryption (s.aggQueue (E.getProposer sh.view)) sh.bt = .ok true
  | .onReceivePvssTranscript t => (E.pvss s.id).verifySharing t.pvssTranscript s.draws = .ok true
  | .onReceiveBeacon b =>
    (E.pvss s.id).verifyBeacon (s.aggQueue (E.getProposer b.view)) b.bt = true
  | _ => True

/-- The call returns, and changes nothing if the payload does not verify. -/
def Harmless (E : Env T) (s : Replica T) (fr : Frame T) : Prop :=
  ∃ s', Returns E s [fr] s' ∧ (¬ s.Verifies E fr → s' = s)

theorem harmless_of_done {fr : Frame T} (h : s.exec E fr = s.done) : s.Harmless E fr :=
  ⟨s, (Returns.of_done h).mpr rfl, fun _ => rfl⟩

theorem not_harmless_of_error {fr : Frame T} {e : Error} (h : (s.exec E fr).error = some e) :
    ¬ s.Harmless E fr := by
  rintro ⟨s', hreturns, -⟩
  exact Returns.not_of_error h hreturns

theorem not_harmless_of_raise {fr : Frame T} {t : Replica T} {e : Error}
    (h : s.exec E fr = t.raise e) : ¬ s.Harmless E fr :=
  not_harmless_of_error (congrArg Outcome.error h)

/-- The state after a share has been noted. -/
def withShare (s : Replica T) (sh : Share T) : Replica T :=
  { s with viewShares := Function.update s.viewShares sh.view (s.viewShares sh.view ++ [sh.bt]) }

/-- The state after the last share of a beacon. -/
def withBeacon (s : Replica T) (sh : Share T) : Replica T :=
  { s.withShare sh with lastViewSharesReceived := s.view, lastViewBeaconReceived := s.view }

/-- The shares of a view and one more give a beacon that verifies. -/
def Reveals (E : Env T) (s : Replica T) (sh : Share T) : Prop :=
  ∃ b, (E.pvss s.id).reconstruct (s.viewShares sh.view ++ [sh.bt]) = .ok b ∧
    (E.pvss s.id).verifyBeacon (s.aggQueue (E.getProposer sh.view)) b = true

/-- A share is dropped before it is verified; or it verifies and, if it is the last one that is
needed, the beacon does and `_try_enter_view` returns. -/
def SafeShare (E : Env T) (s : Replica T) (sh : Share T) : Prop :=
  sh.view < s.view ∨ E.config.nmajority ≤ (s.viewShares sh.view).length ∨
    s.Verifies E (.onReceiveShare sh) ∧
      ((s.viewShares sh.view).length + 1 = E.config.nmajority →
        s.Reveals E sh ∧ ∃ s', Returns E (s.withBeacon sh) [.tryEnterView] s')

/-- Without the certificate of its view a replica enters no view, and `_try_enter_view` returns at
once. -/
theorem returns_tryEnterView (hcert : s.lastViewCertReceived ≠ s.view) (sh : Share T)
    (s' : Replica T) : Returns E (s.withBeacon sh) [.tryEnterView] s' ↔ s' = s.withBeacon sh :=
  Returns.of_done (tryEnterView_of_not fun henters => hcert henters.1)

/-- So before that certificate only the verifications decide about a share. -/
theorem safeShare_iff_of_not (hcert : s.lastViewCertReceived ≠ s.view) (sh : Share T) :
    s.SafeShare E sh ↔ sh.view < s.view ∨ E.config.nmajority ≤ (s.viewShares sh.view).length ∨
      s.Verifies E (.onReceiveShare sh) ∧
        ((s.viewShares sh.view).length + 1 = E.config.nmajority → s.Reveals E sh) := by
  unfold SafeShare
  simp only [returns_tryEnterView hcert sh, exists_eq, and_true]

/-- What `on_receive_share` does with a share that it does not drop. -/
theorem onReceiveShare_verdict {sh : Share T} (hview : ¬ sh.view < s.view)
    (hlen : ¬ E.config.nmajority ≤ (s.viewShares sh.view).length) :
    (¬ s.Verifies E (.onReceiveShare sh) ∧ ∃ e, s.exec E (.onReceiveShare sh) = s.raise e) ∨
    s.Verifies E (.onReceiveShare sh) ∧
      (((s.viewShares sh.view).length + 1 ≠ E.config.nmajority ∧
          s.exec E (.onReceiveShare sh) = (s.withShare sh).done) ∨
        (s.viewShares sh.view).length + 1 = E.config.nmajority ∧
          ((¬ s.Reveals E sh ∧ ∃ e, s.exec E (.onReceiveShare sh) = (s.withShare sh).raise e) ∨
            (s.Reveals E sh ∧ ∃ out, s.exec E (.onReceiveShare sh) =
              (s.withBeacon sh).emit out [.tryEnterView]))) := by
  have hexec : s.exec E (.onReceiveShare sh) = s.onReceiveShare E sh := rfl
  rw [hexec]
  unfold onReceiveShare
  rw [if_neg hview]
  dsimp only
  rw [if_neg hlen]
  split
  · rename_i hverify
    exact Or.inl ⟨fun h => (nomatch hverify.symm.trans h), _, rfl⟩
  · rename_i hverify
    exact Or.inl ⟨fun h => (nomatch hverify.symm.trans h), _, rfl⟩
  · rename_i hverify
    refine Or.inr ⟨hverify, ?_⟩
    rw [List.length_append, List.length_singleton]
    split
    · rename_i hlast
      refine Or.inr ⟨hlast, ?_⟩
      split
      · rename_i hreconstruct
        refine Or.inl ⟨?_, _, rfl⟩
        rintro ⟨b, hb, -⟩
        cases hreconstruct.symm.trans hb
      · rename_i b hreconstruct
        split
        · rename_i hbeacon
          refine Or.inl ⟨?_, _, rfl⟩
          rintro ⟨b', hb', hverifies⟩
          cases hreconstruct.symm.trans hb'
          rw [hverifies] at hbeacon
          cases hbeacon
        · rename_i hbeacon
          exact Or.inr ⟨⟨b, hreconstruct, by simpa using hbeacon⟩, _, rfl⟩
    · rename_i hlast
      exact Or.inl ⟨hlast, rfl⟩

theorem harmless_share_iff (sh : Share T) :
    s.Harmless E (.onReceiveShare sh) ↔ s.SafeShare E sh := by
  by_cases hearly : sh.view < s.view ∨ E.config.nmajority ≤ (s.viewShares sh.view).length
  · refine iff_of_true (harmless_of_done ?_) (or_assoc.mp (Or.inl hearly))
    rw [exec, onReceiveShare]
    rcases hearly with hview | hlen
    · rw [if_pos hview]
    · split
      · rfl
      · exact if_pos hlen
  · obtain ⟨hview, hlen⟩ := not_or.mp hearly
    refine Iff.trans ?_ ((or_iff_right hview).trans (or_iff_right hlen)).symm
    rcases onReceiveShare_verdict hview hlen with ⟨hnot, e, h⟩ | ⟨hverifies, ⟨hmore, h⟩ |
      ⟨hlast, ⟨hnot, e, h⟩ | ⟨hreveals, out, h⟩⟩⟩
    · exact iff_of_false (not_harmless_of_raise h) fun hsafe => hnot hsafe.1
    · refine iff_of_true ⟨_, (Returns.of_done h).mpr rfl, fun hnot => absurd hverifies hnot⟩ ?_
      exact ⟨hverifies, fun hlast => absurd hlast hmore⟩
    · exact iff_of_false (not_harmless_of_raise h) fun hsafe => hnot (hsafe.2 hlast).1
    · have hreturns : ∀ s', Returns E s [.onReceiveShare sh] s' ↔
          Returns E (s.withBeacon sh) [.tryEnterView] s' := by
        intro s'
        rw [Returns.cons_iff, h]
        exact and_iff_right rfl
      constructor
      · rintro ⟨s', hs', -⟩
        exact ⟨hverifies, fun _ => ⟨hreveals, s', (hreturns s').mp hs'⟩⟩
      · rintro ⟨-, hsafe⟩
        obtain ⟨-, s', hs'⟩ := hsafe hlast
        exact ⟨s', (hreturns s').mpr hs', fun hnot => absurd hverifies hnot⟩

/-! ## Transcripts -/

/-- The transcripts for a view and one more aggregate to something that verifies. -/
def Aggregates (E : Env T) (s : Replica T) (t : PVSSTranscript T) : Prop :=
  ∃ agg, (E.pvss s.id).aggregate (s.viewTranscripts t.forView ++ [t.pvssTranscript])
      (s.transcriptIds t.forView ++ [t.replicaID]) = .ok agg ∧
    (E.pvss s.id).verifyAggregation agg (s.draws + 1) = .ok true

/-- A transcript is dropped before it is verified; or it verifies and, if it is the last one that is
needed, so does the aggregate. -/
def SafeTranscript (E : Env T) (s : Replica T) (t : PVSSTranscript T) : Prop :=
  E.config.nmajority ≤ (s.transcriptIds t.forView).length ∨
    s.Verifies E (.onReceivePvssTranscript t) ∧
      ((s.transcriptIds t.forView).length + 1 = E.config.nmajority → s.Aggregates E t)

/-- What `on_receive_pvss_transcript` does with a transcript that it does not drop. -/
theorem onReceivePvssTranscript_verdict {t : PVSSTranscript T}
    (hlen : ¬ E.config.nmajority ≤ (s.transcriptIds t.forView).length) :
    (¬ s.Verifies E (.onReceivePvssTranscript t) ∧
      ∃ e, s.exec E (.onReceivePvssTranscript t) = s.raise e) ∨
    s.Verifies E (.onReceivePvssTranscript t) ∧
      (((s.transcriptIds t.forView).length + 1 = E.config.nmajority ∧ ¬ s.Aggregates E t ∧
          ∃ s' e, s.exec E (.onReceivePvssTranscript t) = raise s' e) ∨
        (((s.transcriptIds t.forView).length + 1 = E.config.nmajority → s.Aggregates E t) ∧
          ∃ s', s.exec E (.onReceivePvssTranscript t) = done s')) := by
  have hexec : s.exec E (.onReceivePvssTranscript t) = s.onReceivePvssTranscript E t := rfl
  rw [hexec]
  unfold onReceivePvssTranscript
  dsimp only
  rw [if_neg hlen]
  split
  · rename_i hverify
    exact Or.inl ⟨fun h => (nomatch hverify.symm.trans h), _, rfl⟩
  · rename_i hverify
    exact Or.inl ⟨fun h => (nomatch hverify.symm.trans h), _, rfl⟩
  · rename_i hverify
    refine Or.inr ⟨hverify, ?_⟩
    split
    · rename_i hlast
      split
      · rename_i haggregate
        refine Or.inl ⟨hlast, ?_, _, _, rfl⟩
        rintro ⟨agg, hagg, -⟩
        cases haggregate.symm.trans hagg
      · rename_i agg haggregate
        split
        · rename_i hverifies
          refine Or.inl ⟨hlast, ?_, _, _, rfl⟩
          rintro ⟨agg', hagg', hok⟩
          cases haggregate.symm.trans hagg'
          cases hverifies.symm.trans hok
        · rename_i hverifies
          refine Or.inl ⟨hlast, ?_, _, _, rfl⟩
          rintro ⟨agg', hagg', hok⟩
          cases haggregate.symm.trans hagg'
          cases hverifies.symm.trans hok
        · rename_i hverifies
          exact Or.inr ⟨fun _ => ⟨agg, haggregate, hverifies⟩, _, rfl⟩
    · rename_i hlast
      exact Or.inr ⟨fun h => absurd h hlast, _, rfl⟩

theorem harmless_transcript_iff (t : PVSSTranscript T) :
    s.Harmless E (.onReceivePvssTranscript t) ↔ s.SafeTranscript E t := by
  by_cases hlen : E.config.nmajority ≤ (s.transcriptIds t.forView).length
  · exact iff_of_true (harmless_of_done (if_pos hlen)) (Or.inl hlen)
  · refine Iff.trans ?_ (or_iff_right hlen).symm
    rcases onReceivePvssTranscript_verdict hlen with ⟨hnot, e, h⟩ | ⟨hverifies,
      ⟨hlast, hnot, s', e, h⟩ | ⟨haggregates, s', h⟩⟩
    · exact iff_of_false (not_harmless_of_raise h) fun hsafe => hnot hsafe.1
    · exact iff_of_false (not_harmless_of_raise h) fun hsafe => hnot (hsafe.2 hlast)
    · refine iff_of_true ⟨s', (Returns.of_done h).mpr rfl, fun hnot => absurd hverifies hnot⟩ ?_
      exact ⟨hverifies, haggregates⟩

end Replica

namespace System

/-- A replica that has not thrown drops every beacon, and is harmed by a share or a transcript
exactly when that is to be counted and does not verify, or what it completes does not. -/
theorem payloads_harmless_iff (E : Env T) (F : Faults T) (σ : System T) (h : Reachable E F σ)
    (i : ℕ) (hi : Honest E F i) (hcrashed : (σ.nodes i).crashed = none) :
    (∀ sh, (σ.nodes i).rep.Harmless E (.onReceiveShare sh) ↔ (σ.nodes i).rep.SafeShare E sh) ∧
      (∀ t, (σ.nodes i).rep.Harmless E (.onReceivePvssTranscript t) ↔
        (σ.nodes i).rep.SafeTranscript E t) ∧
      ∀ b, (σ.nodes i).rep.Harmless E (.onReceiveBeacon b) :=
  ⟨Replica.harmless_share_iff, Replica.harmless_transcript_iff,
    fun b => Replica.harmless_of_done ((h.reporting hi.1 hcrashed).beacon b)⟩

/-- Replica `0` is sent a proposal and a certificate of view `1`, and then a share for the aggregate
`agg`. -/
def sendsShare (agg : ℕ) : List (Scripted plainTypes) :=
  sendsBlock 11 1 ++ [.inject 1 0 (.qc (QuorumCertSecp256k1.create twoEnv.genesis 1)),
    .inject 1 0 (shareOf 1 agg)]

theorem payloads_harmless_second : ∃ σ : System plainTypes,
    ((σ.nodes 0).rep.viewShares 1).length = 1 ∧
    (∀ sh, (σ.nodes 0).rep.Harmless twoEnv (.onReceiveShare sh) ↔
      (σ.nodes 0).rep.SafeShare twoEnv sh) ∧
    (∀ t, (σ.nodes 0).rep.Harmless twoEnv (.onReceivePvssTranscript t) ↔
      (σ.nodes 0).rep.SafeTranscript twoEnv t) ∧
    ∀ b, (σ.nodes 0).rep.Harmless twoEnv (.onReceiveBeacon b) := by
  obtain ⟨σ, hrun, htest⟩ := exists_reachable_of_play twoEnv secondByzantine (sendsShare 1)
    (fun σ => ((σ.nodes 0).rep.viewShares 1).length == 1 && (σ.nodes 0).crashed.isNone)
    (by decide +kernel)
  rw [Bool.and_eq_true, beq_iff_eq, Option.isNone_iff_eq_none] at htest
  exact ⟨σ, htest.1, payloads_harmless_iff twoEnv secondByzantine σ hrun 0 (by decide) htest.2⟩

/-- The share for which a call is to be run that throws. -/
def fatalShare (e : Executed plainTypes) : Option (Share plainTypes) :=
  match e.frame, (e.outcome twoEnv).error with
  | .onReceiveShare sh, some _ => some sh
  | _, _ => none

theorem of_fatalShare {e : Executed plainTypes} {sh : Share plainTypes}
    (h : fatalShare e = some sh) : e.frame = .onReceiveShare sh ∧
      ∃ err, (e.rep.exec twoEnv e.frame).error = some err := by
  unfold fatalShare at h
  split at h
  · rename_i hframe herror
    cases h
    exact ⟨hframe, _, herror⟩
  · cases h

/-- A share for another aggregate ends replica `0`. -/
theorem share_fatal : ∃ (σ : System plainTypes) (e : Executed plainTypes) (sh : Share plainTypes),
    Reachable twoEnv secondByzantine σ ∧ Honest twoEnv secondByzantine 0 ∧ e ∈ σ.history 0 ∧
    e.frame = .onReceiveShare sh ∧ ¬ e.rep.Harmless twoEnv (.onReceiveShare sh) ∧
    (σ.nodes 0).crashed = some (.runtimeError "Decryption Verification failed in View") := by
  obtain ⟨σ, hrun, htest⟩ := exists_reachable_of_play twoEnv secondByzantine (sendsShare 2)
    (fun σ => (σ.history 0).any (fun e => (fatalShare e).isSome) &&
      (σ.nodes 0).crashed == some (.runtimeError "Decryption Verification failed in View"))
    (by decide +kernel)
  rw [Bool.and_eq_true, List.any_eq_true, beq_iff_eq] at htest
  obtain ⟨⟨e, he, hfatal⟩, hcrashed⟩ := htest
  obtain ⟨sh, hsh⟩ := Option.isSome_iff_exists.mp hfatal
  obtain ⟨hframe, err, herror⟩ := of_fatalShare hsh
  rw [hframe] at herror
  exact ⟨σ, e, sh, hrun, by decide, he, hframe, Replica.not_harmless_of_error herror, hcrashed⟩

end System

end OptRand.Hotstuff
