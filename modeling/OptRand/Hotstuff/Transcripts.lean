import OptRand.Hotstuff.AggQueue
import OptRand.Hotstuff.Records
import OptRand.Hotstuff.Signing
import OptRand.Hotstuff.ViewChange

/-!
# Transcripts and the aggregates made of them

The proposer of a view collects sharings for it in `view_transcripts`, with the replicas they are
said to be from in `transcript_ids`; the `nmajority`-th one is to produce the entry of the view in
`view_agg_transcripts`. The two ways into the collection differ: `on_receive_pvss_transcript`
aggregates at `nmajority` sharings and takes any sender, `on_enter_view` adds the replica's own
sharing and does not aggregate. So one sharing can be there twice, with one sender or with two
(`System.sharing_repeated`), and a quorum can have no aggregate (`System.aggregate_missing`). The
entries are not protected either: a later proposal or quorum replaces one that a replica has voted
for (`System.aggregate_replaced`).
-/

namespace OptRand.Hotstuff

open Lib

variable {T : PayloadTypes}

namespace Replica

variable {s : Replica T} {E : Env T}

/-- The view that the replica makes a sharing for itself for, on entering `view`. -/
def ownForView (E : Env T) (s : Replica T) (view : ℕ) : ℕ :=
  (2 + (view - 1) / E.nreplicas) * E.nreplicas + s.id + 1

/-- On entering `view` the replica keeps its own sharing. -/
def KeepsSharing (E : Env T) (s : Replica T) (view : ℕ) : Prop :=
  (s.id + view) % E.nreplicas = s.id ∧ ∃ sharing, (E.pvss s.id).createSharing s.draws = .ok sharing

/-- The guards behind which `on_receive_pvss_transcript` keeps a sharing. -/
def KeepsTranscript (E : Env T) (s : Replica T) (t : PVSSTranscript T) : Prop :=
  (s.transcriptIds t.forView).length < E.config.nmajority ∧
    (E.pvss s.id).verifySharing t.pvssTranscript s.draws = .ok true

/-- The sharings and senders that `on_receive_pvss_transcript` hands to `aggregate`. -/
def completed (E : Env T) (s : Replica T) (t : PVSSTranscript T) : Except Pvss.Error T.Aggregate :=
  (E.pvss s.id).aggregate (s.viewTranscripts t.forView ++ [t.pvssTranscript])
    (s.transcriptIds t.forView ++ [t.replicaID])

/-- What `on_receive_pvss_transcript` does: nothing, or keep a sharing, and with the `nmajority`-th
one store the aggregate unless it throws. -/
theorem onReceivePvssTranscript_kept {t : PVSSTranscript T} {o : Outcome T}
    (ho : s.onReceivePvssTranscript E t = o) :
    o.rep = s ∨
    s.KeepsTranscript E t ∧
      o.rep.viewTranscripts = Function.update s.viewTranscripts t.forView
          (s.viewTranscripts t.forView ++ [t.pvssTranscript]) ∧
      o.rep.transcriptIds = Function.update s.transcriptIds t.forView
          (s.transcriptIds t.forView ++ [t.replicaID]) ∧
      ((o.rep.viewAggTranscripts = s.viewAggTranscripts ∧
          ((s.transcriptIds t.forView).length + 1 < E.config.nmajority ∨ o.error ≠ none)) ∨
        (s.transcriptIds t.forView).length + 1 = E.config.nmajority ∧
          ∃ agg draw, s.completed E t = .ok agg ∧
            (E.pvss s.id).verifyAggregation agg draw = .ok true ∧
            o.rep.viewAggTranscripts = Function.update s.viewAggTranscripts t.forView agg) := by
  subst ho
  unfold onReceivePvssTranscript
  dsimp only
  split
  · exact Or.inl rfl
  · rename_i hlen
    split
    · exact Or.inl rfl
    · exact Or.inl rfl
    · rename_i hsharing
      have hkeeps : s.KeepsTranscript E t := ⟨not_le.mp hlen, hsharing⟩
      right
      split
      · rename_i hfull
        split
        · exact ⟨hkeeps, rfl, rfl, Or.inl ⟨rfl, Or.inr nofun⟩⟩
        · rename_i agg hagg
          split
          · exact ⟨hkeeps, rfl, rfl, Or.inl ⟨rfl, Or.inr nofun⟩⟩
          · exact ⟨hkeeps, rfl, rfl, Or.inl ⟨rfl, Or.inr nofun⟩⟩
          · rename_i hverify
            exact ⟨hkeeps, rfl, rfl, Or.inr ⟨hfull, agg, _, hagg, hverify, rfl⟩⟩
      · exact ⟨hkeeps, rfl, rfl, Or.inl ⟨rfl, Or.inl (by omega)⟩⟩

/-- The calls that write `view_agg_transcripts`, and what they write. -/
theorem exec_viewAggTranscripts (fr : Frame T) :
    (s.exec E fr).rep.viewAggTranscripts = s.viewAggTranscripts ∨
    (∃ prop opinion blk, fr = .checkAggregation prop opinion ∧ s.blkCache prop.blk = some blk ∧
      (E.pvss s.id).verifyAggregation blk.extra s.draws = .ok true ∧
      (s.exec E fr).rep.viewAggTranscripts =
        Function.update s.viewAggTranscripts s.view blk.extra) ∨
    ∃ t agg, fr = .onReceivePvssTranscript t ∧ s.KeepsTranscript E t ∧
      (s.transcriptIds t.forView).length + 1 = E.config.nmajority ∧ s.completed E t = .ok agg ∧
      (s.exec E fr).rep.viewAggTranscripts =
        Function.update s.viewAggTranscripts t.forView agg := by
  by_cases hf : fr.ChangesAggregates
  · cases fr <;> try exact False.elim hf
    case checkAggregation prop opinion =>
      rcases checkAggregation_cases rfl with ⟨h, -⟩ | ⟨blk, hblk, hverify, h, -⟩
      · exact Or.inl (congrArg Views.viewAggTranscripts h.1)
      · exact Or.inr (Or.inl ⟨prop, opinion, blk, rfl, hblk, hverify,
          congrArg Views.viewAggTranscripts h⟩)
    case onReceiveViewProposal_ => exact Or.inl rfl
    case tryEnterView =>
      left
      rw [exec_patch]
      rfl
    case onReceivePvssTranscript t =>
      rcases onReceivePvssTranscript_kept rfl with
        h | ⟨hkeeps, -, -, ⟨h, -⟩ | ⟨hfull, agg, _, hagg, -, h⟩⟩
      · exact Or.inl (congrArg viewAggTranscripts h)
      · exact Or.inl h
      · exact Or.inr (Or.inr ⟨t, agg, rfl, hkeeps, hfull, hagg, h⟩)
  · exact Or.inl (congrArg Aggregates.viewAggTranscripts (exec_aggregates hf))

/-- An aggregate that is accepted is stored. -/
theorem viewAggTranscripts_checkAggregation {prop : Proposal} (opinion : Bool) {blk : Block T}
    (hblk : s.blkCache prop.blk = some blk)
    (hverify : (E.pvss s.id).verifyAggregation blk.extra s.draws = .ok true) :
    (s.checkAggregation E prop opinion).rep.viewAggTranscripts =
      Function.update s.viewAggTranscripts s.view blk.extra := by
  have hmod : ∀ f, s.drawn.modifyBlk prop.blk f = s.drawn.setBlk prop.blk (f blk) := by
    intro f
    simp [modifyBlk, drawn, hblk]
  unfold checkAggregation
  simp only [hblk, hverify, hmod]
  split
  · rfl
  · rename_i heq
    exact congrArg Views.viewAggTranscripts (pmStep_onReceiveProposal_ heq).views

end Replica

namespace System

variable {E : Env T} {F : Faults T} {σ : System T}

/-! ## Senders -/

/-- With `dealer` for the replica that has made a sharing: the sharings that replica `i` makes are
its own, and each one that it keeps is said to be from the replica that has made it, of which it has
none for the view. -/
def FreshSenders (E : Env T) (dealer : T.Sharing → ℕ) (σ : System T) (i : ℕ) : Frame T → Prop
  | .onReceivePvssTranscript t => (σ.nodes i).rep.KeepsTranscript E t →
      t.replicaID = dealer t.pvssTranscript ∧
        t.replicaID ∉ (σ.nodes i).rep.transcriptIds t.forView
  | .sendSharing view =>
      (∀ sharing, (E.pvss (σ.nodes i).rep.id).createSharing (σ.nodes i).rep.draws = .ok sharing →
        dealer sharing = (σ.nodes i).rep.id) ∧
      ((σ.nodes i).rep.KeepsSharing E view →
        (σ.nodes i).rep.id ∉ (σ.nodes i).rep.transcriptIds ((σ.nodes i).rep.ownForView E view))
  | _ => True

/-- The sharings stored for a view are of different replicas, which are those noted. -/
def DistinctSenders (dealer : T.Sharing → ℕ) (s : Replica T) : Prop :=
  ∀ v, (s.transcriptIds v).Nodup ∧ (s.viewTranscripts v).map dealer = s.transcriptIds v

theorem DistinctSenders.length_eq {dealer : T.Sharing → ℕ} {s : Replica T}
    (hs : DistinctSenders dealer s) (v : ℕ) :
    (s.viewTranscripts v).length = (s.transcriptIds v).length := by
  rw [← (hs v).2, List.length_map]

theorem nodup_concat {l : List ℕ} {a : ℕ} (hl : l.Nodup) (ha : a ∉ l) : (l ++ [a]).Nodup :=
  hl.append (List.nodup_singleton a) (List.disjoint_singleton.mpr ha)

theorem map_concat {dealer : T.Sharing → ℕ} {sharings : List T.Sharing} {ids : List ℕ}
    (h : sharings.map dealer = ids) {sharing : T.Sharing} {id : ℕ} (hid : dealer sharing = id) :
    (sharings ++ [sharing]).map dealer = ids ++ [id] := by
  rw [List.map_append, h, List.map_singleton, hid]

theorem distinctSenders_exec {dealer : T.Sharing → ℕ} {i : ℕ} {fr : Frame T}
    (hs : DistinctSenders dealer (σ.nodes i).rep) (hfresh : FreshSenders E dealer σ i fr) :
    DistinctSenders dealer ((σ.nodes i).rep.exec E fr).rep := by
  rcases Replica.exec_transcripts (s := (σ.nodes i).rep) (E := E) fr with
    ⟨hsharings, hids⟩ | ⟨w, sharing, sender, hsharings, hids, hwrite⟩
  · intro v
    rw [hsharings, hids]
    exact hs v
  · have hnew : dealer sharing = sender ∧ sender ∉ (σ.nodes i).rep.transcriptIds w := by
      rcases hwrite with ⟨t, rfl, rfl, rfl, rfl, hlen, hverify⟩ | ⟨view, rfl, hown, rfl, rfl, hsharing⟩
      · obtain ⟨hdealer, hid⟩ := hfresh ⟨hlen, hverify⟩
        exact ⟨hdealer.symm, hid⟩
      · exact ⟨hfresh.1 sharing hsharing, hfresh.2 ⟨hown, sharing, hsharing⟩⟩
    intro v
    rw [hsharings, hids]
    by_cases hv : v = w
    · subst hv
      rw [Function.update_self, Function.update_self]
      exact ⟨nodup_concat (hs v).1 hnew.2, map_concat (hs v).2 hnew.1⟩
    · rw [Function.update_of_ne hv, Function.update_of_ne hv]
      exact hs v

/-- As long as each sharing that is kept is said to be from the replica that has made it, and none
of this replica is stored for its view already, the entries of `transcript_ids` are distinct and are
the replicas that made the sharings, and each aggregate that is built combines sharings of
`nmajority` different replicas. -/
theorem senders_distinct (E : Env T) (F : Faults T) (dealer : T.Sharing → ℕ) (σ : System T)
    (h : Run E F (FreshSenders E dealer) σ) (i : ℕ) : DistinctSenders dealer (σ.nodes i).rep ∧
      ∀ e ∈ σ.trace, ∀ t, e.frame = .onReceivePvssTranscript t → e.rep.KeepsTranscript E t →
        (e.rep.transcriptIds t.forView).length + 1 = E.config.nmajority →
        ((e.rep.viewTranscripts t.forView ++ [t.pvssTranscript]).map dealer).Nodup ∧
          (e.rep.viewTranscripts t.forView ++ [t.pvssTranscript]).length = E.config.nmajority ∧
          (e.rep.viewTranscripts t.forView ++ [t.pvssTranscript]).map dealer =
            e.rep.transcriptIds t.forView ++ [t.replicaID] := by
  have hall : ∀ {σ'}, Run E F (FreshSenders E dealer) σ' →
      ∀ j, DistinctSenders dealer (σ'.nodes j).rep := by
    intro σ' h' j
    refine h'.node_induction (I := fun _ x => DistinctSenders dealer x.rep) ?_ ?_ ?_ j
    · exact fun _ _ => ⟨List.nodup_nil, rfl⟩
    · exact fun _ _ _ hx _ _ => hx
    · intro σ' j fr stack _ _ hok hx _
      rw [Node.rep_after]
      exact distinctSenders_exec hx hok
  refine ⟨hall h i, ?_⟩
  intro e he t hfr hkeeps hlen
  obtain ⟨σ', stack, hrun, -, -, hrep, -, hok⟩ := h.exists_of_mem_trace he
  have hdistinct := hall hrun e.node
  obtain ⟨hnodup, hmap⟩ := hdistinct t.forView
  have hlength := hdistinct.length_eq t.forView
  rw [hfr] at hok
  obtain ⟨hdealer, hnew⟩ := hok (hrep ▸ hkeeps)
  rw [hrep] at hnodup hmap hlength hnew
  have hmap := map_concat hmap hdealer.symm
  refine ⟨?_, ?_, hmap⟩
  · rw [hmap]
    exact nodup_concat hnodup hnew
  · rw [List.length_append, hlength]
    exact hlen

/-- Whether a call keeps no sharing of a replica that has one stored. A sharing of the scripts
carries the replica that has made it. -/
def freshSenders (σ : System plainTypes) (i : ℕ) : Frame plainTypes → Bool
  | .onReceivePvssTranscript t => t.replicaID == (show ℕ × ℕ from t.pvssTranscript).1 &&
      decide (t.replicaID ∉ (σ.nodes i).rep.transcriptIds t.forView)
  | .sendSharing view => decide ((σ.nodes i).rep.id ∉
      (σ.nodes i).rep.transcriptIds ((σ.nodes i).rep.ownForView twoEnv view))
  | _ => true

theorem freshSenders_of_check {σ : System plainTypes} {i : ℕ} {fr : Frame plainTypes}
    (h : freshSenders σ i fr = true) : FreshSenders twoEnv Prod.fst σ i fr := by
  cases fr
  case onReceivePvssTranscript =>
    obtain ⟨hdealer, hnew⟩ := Bool.and_eq_true_iff.mp h
    exact fun _ => ⟨beq_iff_eq.mp hdealer, of_decide_eq_true hnew⟩
  case sendSharing =>
    refine ⟨fun sharing hsharing => ?_, fun _ => of_decide_eq_true h⟩
    cases hsharing
    rfl
  all_goals exact trivial

/-- Replica `1` has its own sharing for view `6`, and the one of replica `0` comes later. -/
theorem senders_distinct_twoEnv : ∃ σ : System plainTypes,
    (σ.nodes 1).rep.transcriptIds 6 = [1, 0] ∧ DistinctSenders Prod.fst (σ.nodes 1).rep ∧
      ∀ e ∈ σ.trace, ∀ t, e.frame = .onReceivePvssTranscript t → e.rep.KeepsTranscript twoEnv t →
        (e.rep.transcriptIds t.forView).length + 1 = twoEnv.config.nmajority →
        ((e.rep.viewTranscripts t.forView ++ [t.pvssTranscript]).map Prod.fst).Nodup ∧
          (e.rep.viewTranscripts t.forView ++ [t.pvssTranscript]).length =
            twoEnv.config.nmajority ∧
          (e.rep.viewTranscripts t.forView ++ [t.pvssTranscript]).map Prod.fst =
            e.rep.transcriptIds t.forView ++ [t.replicaID] := by
  obtain ⟨σ, hrun, htest⟩ := exists_of_play twoEnv noFaults freshSenders
    (fun _ _ _ => freshSenders_of_check) (twoViews ++ [.deliver 0])
    (fun σ => decide ((σ.nodes 1).rep.transcriptIds 6 = [1, 0])) (by decide +kernel)
  exact ⟨σ, of_decide_eq_true htest, senders_distinct twoEnv noFaults Prod.fst σ hrun 1⟩

/-- Replica `0` sends its one sharing for view `8` twice to replica `1`, with the given sender the
second time. -/
def sendsTwice (sender : ℕ) : List (Scripted plainTypes) :=
  [.inject 0 1 (.pvssTranscript ⟨0, 8, (0, 0)⟩), .inject 0 1 (.pvssTranscript ⟨sender, 8, (0, 0)⟩)]

/-- Replica `1` has aggregated a sharing with itself, with the given sender of the second one. -/
def AggregatesTwice (σ : System plainTypes) (sender : ℕ) : Prop :=
  (σ.nodes 1).rep.transcriptIds 8 = [0, sender] ∧
    (σ.nodes 1).rep.viewTranscripts 8 = [(0, 0), (0, 0)] ∧
    (voteEnv.pvss 1).aggregate ((σ.nodes 1).rep.viewTranscripts 8)
      ((σ.nodes 1).rep.transcriptIds 8) = .ok ((σ.nodes 1).rep.viewAggTranscripts 8)

theorem aggregatesTwice_of_play {sender : ℕ}
    (h : (play voteEnv firstByzantine (fun _ _ _ => true) (sendsTwice sender) (init voteEnv)).any
      (fun σ => decide ((σ.nodes 1).rep.transcriptIds 8 = [0, sender]) &&
        (decide ((σ.nodes 1).rep.viewTranscripts 8 = [(0, 0), (0, 0)]) &&
          Nat.beq ((σ.nodes 1).rep.viewAggTranscripts 8) 10011)) = true)
    (haggregate : (voteEnv.pvss 1).aggregate [(0, 0), (0, 0)] [0, sender] = .ok 10011) :
    ∃ σ, Reachable voteEnv firstByzantine σ ∧ AggregatesTwice σ sender ∧
      ¬ DistinctSenders Prod.fst (σ.nodes 1).rep := by
  obtain ⟨σ, hrun, htest⟩ := exists_reachable_of_play voteEnv firstByzantine _ _ h
  simp only [Bool.and_eq_true, decide_eq_true_eq] at htest
  obtain ⟨hids, hsharings, hagg⟩ := htest
  refine ⟨σ, hrun, ⟨hids, hsharings, ?_⟩, fun hdistinct => ?_⟩
  · rw [hids, hsharings, Nat.eq_of_beq_eq_true hagg]
    exact haggregate
  · obtain ⟨hnodup, hmap⟩ := hdistinct 8
    rw [← hmap, hsharings] at hnodup
    exact absurd hnodup (by decide)

/-- The sharing is taken twice, whether the second message repeats the sender or names another
one. -/
theorem sharing_repeated : Honest voteEnv firstByzantine 1 ∧ voteEnv.config.nmajority = 2 ∧
    (∃ σ : System plainTypes, Reachable voteEnv firstByzantine σ ∧ AggregatesTwice σ 0 ∧
      ¬ DistinctSenders Prod.fst (σ.nodes 1).rep) ∧
    ∃ σ : System plainTypes, Reachable voteEnv firstByzantine σ ∧ AggregatesTwice σ 2 ∧
      ¬ DistinctSenders Prod.fst (σ.nodes 1).rep :=
  ⟨by decide, by decide, aggregatesTwice_of_play (by decide +kernel) rfl,
    aggregatesTwice_of_play (by decide +kernel) rfl⟩

/-! ## Quorums -/

/-- The replica's own sharing does not complete a quorum, and a proposal that is accepted in a view
with a quorum carries the aggregate of the quorum. -/
def QuorumsAggregate (E : Env T) (σ : System T) (i : ℕ) : Frame T → Prop
  | .sendSharing view => (σ.nodes i).rep.KeepsSharing E view →
      ((σ.nodes i).rep.viewTranscripts ((σ.nodes i).rep.ownForView E view)).length + 1 ≠
        E.config.nmajority
  | .checkAggregation prop _ => ∀ blk, (σ.nodes i).rep.blkCache prop.blk = some blk →
      (E.pvss (σ.nodes i).rep.id).verifyAggregation blk.extra (σ.nodes i).rep.draws = .ok true →
      E.config.nmajority ≤ ((σ.nodes i).rep.viewTranscripts (σ.nodes i).rep.view).length →
      blk.extra = (σ.nodes i).rep.viewAggTranscripts (σ.nodes i).rep.view
  | _ => True

/-- The sharings stored for a view have as many senders, and a quorum of them is aggregated. -/
structure Aggregated (E : Env T) (s : Replica T) : Prop where
  length : ∀ v, (s.transcriptIds v).length = (s.viewTranscripts v).length
  aggregate : ∀ v, E.config.nmajority ≤ (s.viewTranscripts v).length →
    (E.pvss s.id).aggregate ((s.viewTranscripts v).take E.config.nmajority)
        ((s.transcriptIds v).take E.config.nmajority) = .ok (s.viewAggTranscripts v) ∧
      ∃ draw, (E.pvss s.id).verifyAggregation (s.viewAggTranscripts v) draw = .ok true

/-- A sharing that does not complete a quorum leaves the aggregate what it is. -/
theorem Aggregated.keep {s s' : Replica T} (hs : Aggregated E s) (hid : s'.id = s.id) {w sender : ℕ}
    {sharing : T.Sharing}
    (hsharings : s'.viewTranscripts =
      Function.update s.viewTranscripts w (s.viewTranscripts w ++ [sharing]))
    (hids : s'.transcriptIds =
      Function.update s.transcriptIds w (s.transcriptIds w ++ [sender]))
    (hagg : s'.viewAggTranscripts = s.viewAggTranscripts)
    (hne : (s.viewTranscripts w).length + 1 ≠ E.config.nmajority) : Aggregated E s' where
  length := by
    intro v
    rw [hsharings, hids]
    by_cases hv : v = w
    · subst hv
      simp [hs.length v]
    · rw [Function.update_of_ne hv, Function.update_of_ne hv]
      exact hs.length v
  aggregate := by
    intro v hquorum
    rw [hsharings] at hquorum
    rw [hsharings, hids, hagg, hid]
    by_cases hv : v = w
    · subst hv
      rw [Function.update_self] at hquorum
      rw [Function.update_self, Function.update_self]
      have hlen : E.config.nmajority ≤ (s.viewTranscripts v).length := by
        rw [List.length_append, List.length_singleton] at hquorum
        omega
      rw [List.take_append_of_le_length hlen,
        List.take_append_of_le_length ((hs.length v).symm ▸ hlen)]
      exact hs.aggregate v hlen
    · rw [Function.update_of_ne hv] at hquorum
      rw [Function.update_of_ne hv, Function.update_of_ne hv]
      exact hs.aggregate v hquorum

/-- The sharing that completes a quorum gives the aggregate. -/
theorem Aggregated.complete {s s' : Replica T} (hs : Aggregated E s) (hid : s'.id = s.id)
    {t : PVSSTranscript T} {agg : T.Aggregate} {draw : ℕ}
    (hsharings : s'.viewTranscripts = Function.update s.viewTranscripts t.forView
      (s.viewTranscripts t.forView ++ [t.pvssTranscript]))
    (hids : s'.transcriptIds = Function.update s.transcriptIds t.forView
      (s.transcriptIds t.forView ++ [t.replicaID]))
    (hstored : s'.viewAggTranscripts = Function.update s.viewAggTranscripts t.forView agg)
    (hfull : (s.transcriptIds t.forView).length + 1 = E.config.nmajority)
    (hagg : s.completed E t = .ok agg)
    (hverify : (E.pvss s.id).verifyAggregation agg draw = .ok true) : Aggregated E s' where
  length := by
    intro v
    rw [hsharings, hids]
    by_cases hv : v = t.forView
    · subst hv
      simp [hs.length t.forView]
    · rw [Function.update_of_ne hv, Function.update_of_ne hv]
      exact hs.length v
  aggregate := by
    intro v hquorum
    rw [hsharings] at hquorum
    rw [hsharings, hids, hstored, hid]
    by_cases hv : v = t.forView
    · subst hv
      rw [Function.update_self, Function.update_self, Function.update_self,
        List.take_of_length_le, List.take_of_length_le]
      · exact ⟨hagg, draw, hverify⟩
      · rw [List.length_append, List.length_singleton, hfull]
      · rw [List.length_append, List.length_singleton, ← hs.length, hfull]
    · rw [Function.update_of_ne hv] at hquorum
      rw [Function.update_of_ne hv, Function.update_of_ne hv, Function.update_of_ne hv]
      exact hs.aggregate v hquorum

/-- Nothing changes in the transcripts, and the entries of views with a quorum stay. -/
theorem Aggregated.of_entries {s s' : Replica T} (hs : Aggregated E s) (hid : s'.id = s.id)
    (hsharings : s'.viewTranscripts = s.viewTranscripts)
    (hids : s'.transcriptIds = s.transcriptIds)
    (hagg : ∀ v, E.config.nmajority ≤ (s.viewTranscripts v).length →
      s'.viewAggTranscripts v = s.viewAggTranscripts v) : Aggregated E s' where
  length := by
    rw [hsharings, hids]
    exact hs.length
  aggregate := by
    intro v hquorum
    rw [hsharings] at hquorum
    rw [hsharings, hids, hagg v hquorum, hid]
    exact hs.aggregate v hquorum

theorem aggregated_onReceivePvssTranscript {s : Replica T} {t : PVSSTranscript T}
    (hs : Aggregated E s) (herror : (s.onReceivePvssTranscript E t).error = none) :
    Aggregated E (s.onReceivePvssTranscript E t).rep := by
  have hid : (s.onReceivePvssTranscript E t).rep.id = s.id :=
    Replica.exec_id (.onReceivePvssTranscript t)
  rcases Replica.onReceivePvssTranscript_kept (s := s) (t := t) (E := E) rfl with
    h | ⟨-, hsharings, hids, ⟨hagg, hlen⟩ | ⟨hfull, agg, draw, hcompleted, hverify, hagg⟩⟩
  · rw [h]
    exact hs
  · rw [hs.length] at hlen
    exact hs.keep hid hsharings hids hagg (hlen.resolve_right (not_not.mpr herror)).ne
  · exact hs.complete hid hsharings hids hagg hfull hcompleted hverify

theorem aggregated_exec {i : ℕ} {fr : Frame T} (hs : Aggregated E (σ.nodes i).rep)
    (hok : QuorumsAggregate E σ i fr)
    (herror : ((σ.nodes i).rep.exec E fr).error = none) :
    Aggregated E ((σ.nodes i).rep.exec E fr).rep := by
  have hid := Replica.exec_id (s := (σ.nodes i).rep) (E := E) fr
  rcases Replica.exec_viewAggTranscripts (s := (σ.nodes i).rep) (E := E) fr with
    hagg | ⟨prop, opinion, blk, rfl, hblk, hverify, hagg⟩ | ⟨t, agg, rfl, -⟩
  · rcases Replica.exec_transcripts (s := (σ.nodes i).rep) (E := E) fr with
      ⟨hsharings, hids⟩ | ⟨w, sharing, sender, hsharings, hids, hwrite⟩
    · exact hs.of_entries hid hsharings hids fun v _ => congrFun hagg v
    · rcases hwrite with ⟨t, rfl, -⟩ | ⟨view, rfl, hown, rfl, rfl, hsharing⟩
      · exact aggregated_onReceivePvssTranscript hs herror
      · exact hs.keep hid hsharings hids hagg (hok ⟨hown, sharing, hsharing⟩)
  · rcases Replica.exec_transcripts (s := (σ.nodes i).rep) (E := E)
      (.checkAggregation prop opinion) with
      ⟨hsharings, hids⟩ | ⟨_, _, _, -, -, ⟨_, h, -⟩ | ⟨_, h, -⟩⟩
    · refine hs.of_entries hid hsharings hids fun v hquorum => ?_
      rw [hagg]
      by_cases hv : v = (σ.nodes i).rep.view
      · subst hv
        rw [Function.update_self]
        exact hok blk hblk hverify hquorum
      · rw [Function.update_of_ne hv]
    · cases h
    · cases h
  · exact aggregated_onReceivePvssTranscript hs herror

/-- As long as the replica's own sharing does not complete a quorum, and no proposal that is
accepted in a view with a quorum carries another aggregate, the entry of each view with a quorum is
the aggregate of its first `nmajority` sharings, and passed `verify_aggregation`. -/
theorem quorum_aggregated (E : Env T) (F : Faults T) (σ : System T)
    (h : Run E F (QuorumsAggregate E) σ) (i : ℕ) (hi : Honest E F i)
    (halive : (σ.nodes i).crashed = none) (v : ℕ)
    (hquorum : E.config.nmajority ≤ ((σ.nodes i).rep.viewTranscripts v).length) :
    (E.pvss i).aggregate (((σ.nodes i).rep.viewTranscripts v).take E.config.nmajority)
        (((σ.nodes i).rep.transcriptIds v).take E.config.nmajority) =
      .ok ((σ.nodes i).rep.viewAggTranscripts v) ∧
    ∃ draw, (E.pvss i).verifyAggregation ((σ.nodes i).rep.viewAggTranscripts v) draw =
      .ok true := by
  have hpos : 1 ≤ E.config.nmajority := Env.nmajority_pos (Nat.one_le_of_lt hi.1)
  have hagg : (σ.nodes i).crashed = none → Aggregated E (σ.nodes i).rep := by
    refine h.node_induction (I := fun _ x => x.crashed = none → Aggregated E x.rep) ?_ ?_ ?_ i
    · exact fun i _ => ⟨fun v => rfl, fun v hquorum => absurd hquorum (not_le.mpr hpos)⟩
    · exact fun _ _ _ hx _ _ => hx
    · intro σ i fr stack hrun _ hok hx hstack hcrashed
      have halive : (σ.nodes i).crashed = none := hrun.crashed_eq_none hstack
      rw [Node.rep_after]
      rw [Node.crashed_after] at hcrashed
      exact aggregated_exec (hx halive) hok hcrashed
  have hentry := (hagg halive).aggregate v hquorum
  rw [h.rep_id i] at hentry
  exact hentry

/-- Whether a call leaves the quorums aggregated. -/
def quorumsAggregate (σ : System plainTypes) (i : ℕ) : Frame plainTypes → Bool
  | .sendSharing view => ((σ.nodes i).rep.viewTranscripts
      ((σ.nodes i).rep.ownForView twoEnv view)).length + 1 != twoEnv.config.nmajority
  | .checkAggregation _ _ => decide
      (((σ.nodes i).rep.viewTranscripts (σ.nodes i).rep.view).length < twoEnv.config.nmajority)
  | _ => true

theorem quorumsAggregate_of_check {σ : System plainTypes} {i : ℕ} {fr : Frame plainTypes}
    (h : quorumsAggregate σ i fr = true) : QuorumsAggregate twoEnv σ i fr := by
  cases fr
  case sendSharing view => exact fun _ => bne_iff_ne.mp h
  case checkAggregation prop opinion =>
    intro blk _ _ hquorum
    exact absurd hquorum (not_le.mpr (of_decide_eq_true h))
  all_goals exact trivial

theorem quorum_aggregated_twoEnv : ∃ σ : System plainTypes,
    ((σ.nodes 1).rep.viewTranscripts 6).length = 2 ∧
    (twoEnv.pvss 1).aggregate (((σ.nodes 1).rep.viewTranscripts 6).take twoEnv.config.nmajority)
        (((σ.nodes 1).rep.transcriptIds 6).take twoEnv.config.nmajority) =
      .ok ((σ.nodes 1).rep.viewAggTranscripts 6) ∧
    ∃ draw, (twoEnv.pvss 1).verifyAggregation ((σ.nodes 1).rep.viewAggTranscripts 6) draw =
      .ok true := by
  obtain ⟨σ, hrun, htest⟩ := exists_of_play twoEnv noFaults quorumsAggregate
    (fun _ _ _ => quorumsAggregate_of_check) (twoViews ++ [.deliver 0])
    (fun σ => ((σ.nodes 1).rep.viewTranscripts 6).length == 2 && (σ.nodes 1).crashed.isNone)
    (by decide +kernel)
  simp only [Bool.and_eq_true, beq_iff_eq, Option.isNone_iff_eq_none] at htest
  refine ⟨σ, htest.1, quorum_aggregated twoEnv noFaults σ hrun 1 (by decide) htest.2 6 ?_⟩
  rw [htest.1]
  decide

/-- The first view with the sharing of replica `0` for view `6`, before replica `1` adds its
own. -/
def earlySharing : List (Scripted plainTypes) :=
  twoViews.take 2 ++ .deliver 0 :: twoViews.drop 2

/-- Replica `1` has two sharings for view `6`, and the entry of the view is still empty. -/
theorem aggregate_missing : ∃ σ : System plainTypes, Reachable twoEnv noFaults σ ∧
    Honest twoEnv noFaults 1 ∧ (σ.nodes 1).crashed = none ∧
    ((σ.nodes 1).rep.viewTranscripts 6).length = twoEnv.config.nmajority ∧
    (∀ sharing ∈ (σ.nodes 1).rep.viewTranscripts 6, ∀ draw,
      (twoEnv.pvss 1).verifySharing sharing draw = .ok true) ∧
    (twoEnv.pvss 1).aggregate ((σ.nodes 1).rep.viewTranscripts 6)
      ((σ.nodes 1).rep.transcriptIds 6) ≠ .ok ((σ.nodes 1).rep.viewAggTranscripts 6) := by
  obtain ⟨σ, hrun, htest⟩ := exists_reachable_of_play twoEnv noFaults earlySharing
    (fun σ => (σ.nodes 1).crashed.isNone &&
      (decide ((σ.nodes 1).rep.viewTranscripts 6 = [(0, 0), (1, 4)]) &&
        Nat.beq ((σ.nodes 1).rep.viewAggTranscripts 6) 0)) (by decide +kernel)
  simp only [Bool.and_eq_true, decide_eq_true_eq, Option.isNone_iff_eq_none] at htest
  obtain ⟨halive, hsharings, hagg⟩ := htest
  refine ⟨σ, hrun, by decide, halive, ?_, fun _ _ _ => rfl, ?_⟩
  · rw [hsharings]
    rfl
  · rw [Nat.eq_of_beq_eq_true hagg, hsharings]
    intro h
    cases h

/-! ## Entries that wait to be used -/

/-- The call stores the aggregate of a proposal that the replica votes for, in the entry of its
view. -/
def StoresVoted (E : Env T) (e : Executed T) (w : ℕ) (agg : T.Aggregate) : Prop :=
  ∃ prop blk, e.frame = .checkAggregation prop true ∧ e.rep.voteDisabled = false ∧
    e.rep.blkCache prop.blk = some blk ∧
    (E.pvss e.rep.id).verifyAggregation blk.extra e.rep.draws = .ok true ∧
    e.rep.view = w ∧ blk.extra = agg

/-- What replica `i` has stored for a proposal that it votes for is not replaced by the aggregate
of another proposal of the view, nor by that of a transcript quorum before it is used. -/
def KeepsVoted (E : Env T) (σ : System T) (i : ℕ) : Frame T → Prop
  | .checkAggregation prop _ => ∀ blk, (σ.nodes i).rep.blkCache prop.blk = some blk →
      (E.pvss (σ.nodes i).rep.id).verifyAggregation blk.extra (σ.nodes i).rep.draws = .ok true →
      ∀ e ∈ σ.history i, ∀ agg, StoresVoted E e (σ.nodes i).rep.view agg → blk.extra = agg
  | .onReceivePvssTranscript t => ∀ agg', (σ.nodes i).rep.KeepsTranscript E t →
      ((σ.nodes i).rep.transcriptIds t.forView).length + 1 = E.config.nmajority →
      (σ.nodes i).rep.completed E t = .ok agg' →
      (σ.nodes i).rep.view < t.forView + E.config.nmajority →
      ∀ e ∈ σ.history i, ∀ agg, StoresVoted E e t.forView agg → agg' = agg
  | _ => True

/-- Each aggregate that was stored with a vote is still there until its view is used. -/
def VotedKept (E : Env T) (past : List (Executed T)) (s : Replica T) : Prop :=
  ∀ e ∈ past, ∀ w agg, StoresVoted E e w agg → s.view < w + E.config.nmajority →
    s.viewAggTranscripts w = agg

theorem votedKept_exec {i : ℕ} {fr : Frame T}
    (hkept : VotedKept E (σ.history i) (σ.nodes i).rep) (hok : KeepsVoted E σ i fr) :
    VotedKept E (⟨i, (σ.nodes i).rep, fr⟩ :: σ.history i) ((σ.nodes i).rep.exec E fr).rep := by
  have hview : (σ.nodes i).rep.view ≤ ((σ.nodes i).rep.exec E fr).rep.view := by
    rcases Replica.exec_view (s := (σ.nodes i).rep) (E := E) fr with h | ⟨-, h⟩
    all_goals omega
  intro e he w agg hstores hlt
  rcases List.mem_cons.mp he with rfl | hpast
  · -- the call itself stores the aggregate
    obtain ⟨prop, blk, rfl, -, hblk, hverify, rfl, rfl⟩ := hstores
    have hagg := Replica.viewAggTranscripts_checkAggregation true hblk hverify
    exact (congrFun hagg _).trans (Function.update_self ..)
  · have hbefore := lt_of_le_of_lt hview hlt
    have hold := hkept e hpast w agg hstores hbefore
    rcases Replica.exec_viewAggTranscripts (s := (σ.nodes i).rep) (E := E) fr with
      hsame | ⟨prop, opinion, blk, rfl, hblk, hverify, hagg⟩ |
      ⟨t, agg', rfl, hkeeps, hfull, hagg', hagg⟩
    · rw [hsame]
      exact hold
    · rw [hagg]
      by_cases hw : w = (σ.nodes i).rep.view
      · subst hw
        rw [Function.update_self]
        exact hok blk hblk hverify e hpast agg hstores
      · rw [Function.update_of_ne hw]
        exact hold
    · rw [hagg]
      by_cases hw : w = t.forView
      · subst hw
        rw [Function.update_self]
        exact hok agg' hkeeps hfull hagg' hbefore e hpast agg hstores
      · rw [Function.update_of_ne hw]
        exact hold

/-- Leaving view `w + nmajority - 1` copies the entry of view `w` into the queue. -/
theorem aggQueue_updateAggQueue {s : Replica T} {w : ℕ} (hw : 1 ≤ w)
    (hview : s.view + 1 = w + E.config.nmajority) :
    (s.updateAggQueue E s.view).aggQueue (E.getProposer w) = s.viewAggTranscripts w := by
  unfold Replica.updateAggQueue
  rw [if_neg (by omega)]
  have hleft : s.view - E.config.nmajority + 1 = w := by omega
  simp only [hleft, Function.update_self]

/-- As long as nothing else is stored for a view, what a replica stored with its vote in view `w`
stays, and is what `_update_agg_queue` copies on leaving view `w + nmajority - 1`. -/
theorem aggregate_frozen (E : Env T) (F : Faults T) (σ : System T)
    (h : Run E F (KeepsVoted E) σ) (e : Executed T) (he : e ∈ σ.trace) (w : ℕ)
    (agg : T.Aggregate) (hstores : StoresVoted E e w agg)
    (hview : (σ.nodes e.node).rep.view < w + E.config.nmajority) :
    (σ.nodes e.node).rep.viewAggTranscripts w = agg ∧
    ((σ.nodes e.node).rep.view + 1 = w + E.config.nmajority →
      ((σ.nodes e.node).rep.updateAggQueue E (σ.nodes e.node).rep.view).aggQueue
        (E.getProposer w) = agg) := by
  have hkept : VotedKept E (σ.history e.node) (σ.nodes e.node).rep := by
    refine h.history_induction (I := fun _ past x => VotedKept E past x.rep) ?_ ?_ ?_ e.node
    · exact fun i e he => absurd he List.not_mem_nil
    · exact fun i past x ev hx _ _ => hx
    · intro σ i fr stack _ _ hok hx _
      rw [Node.rep_after]
      exact votedKept_exec hx hok
  have hentry := hkept e (mem_history.mpr ⟨he, rfl⟩) w agg hstores hview
  refine ⟨hentry, fun hleaves => ?_⟩
  have hw : 1 ≤ w := by
    obtain ⟨-, -, -, -, -, -, rfl, -⟩ := hstores
    obtain ⟨σ', stack, hrun, -, -, hrep, -⟩ := h.exists_of_mem_trace he
    rw [← hrep]
    exact hrun.view_pos e.node
  rw [aggQueue_updateAggQueue hw hleaves]
  exact hentry

/-- Whether a call looks at the aggregate of a proposal. -/
def checksAggregation : Frame plainTypes → Bool
  | .checkAggregation _ _ => true
  | _ => false

/-- Whether replica `i` has looked at no aggregate in view `w`. -/
def storesNone (σ : System plainTypes) (i w : ℕ) : Bool :=
  (σ.history i).all fun e => !checksAggregation e.frame || e.rep.view != w

theorem not_storesVoted_of_check {σ : System plainTypes} {i w : ℕ} (h : storesNone σ i w = true)
    {e : Executed plainTypes} (he : e ∈ σ.history i) (agg : ℕ) : ¬ StoresVoted voteEnv e w agg := by
  rintro ⟨prop, blk, hfr, -, -, -, hview, -⟩
  have hnone := List.all_eq_true.mp h e he
  rw [hfr, hview] at hnone
  simp [checksAggregation] at hnone

/-- Whether a call is the first of a replica to store an aggregate for its view. -/
def storesOnce (σ : System plainTypes) (i : ℕ) : Frame plainTypes → Bool
  | .checkAggregation _ _ => storesNone σ i (σ.nodes i).rep.view
  | .onReceivePvssTranscript t => storesNone σ i t.forView
  | _ => true

theorem keepsVoted_of_check {σ : System plainTypes} {i : ℕ} {fr : Frame plainTypes}
    (h : storesOnce σ i fr = true) : KeepsVoted voteEnv σ i fr := by
  cases fr
  case checkAggregation prop opinion =>
    exact fun blk _ _ e he agg hstores => absurd hstores (not_storesVoted_of_check h he agg)
  case onReceivePvssTranscript t =>
    exact fun _ _ _ _ _ e he agg hstores => absurd hstores (not_storesVoted_of_check h he agg)
  all_goals exact trivial

/-- Whether replica `1` stores the aggregate `11` in view `1`, with its vote for `firstBlock`. -/
def storesFirst (e : Executed plainTypes) : Bool :=
  match e.frame with
  | .checkAggregation prop opinion => e.node == 1 && (opinion && (!e.rep.voteDisabled &&
      (e.rep.view == 1 && (e.rep.blkCache prop.blk).any fun b : Block plainTypes =>
        Nat.beq b.extra 11)))
  | _ => false

theorem storesVoted_of_check {e : Executed plainTypes} (h : storesFirst e = true) :
    e.node = 1 ∧ StoresVoted voteEnv e 1 (11 : ℕ) := by
  unfold storesFirst at h
  split at h
  · rename_i prop opinion hfr
    simp only [Bool.and_eq_true, beq_iff_eq, Bool.not_eq_true', Option.any_eq_true] at h
    obtain ⟨hnode, rfl, hvote, hview, blk, hblk, hextra⟩ := h
    exact ⟨hnode, prop, blk, hfr, hvote, hblk, rfl, hview, Nat.eq_of_beq_eq_true hextra⟩
  · cases h

/-- Replica `0` has its proposal voted for by replica `1`, sends it two sharings for view `8`, the
certificate and two shares with which it leaves view `1`, and a late proposal. -/
def sendsLater : List (Scripted plainTypes) :=
  [.inject 0 1 (.propose ⟨0, firstBlock, 1⟩), .inject 0 1 (.pvssTranscript ⟨0, 8, (0, 0)⟩),
    .inject 0 1 (.pvssTranscript ⟨2, 8, (2, 0)⟩), .inject 0 1 (.qc (firstCert 1)), .verify 1,
    .inject 0 1 (.share ⟨0, 1, ((0, 11) : ℕ × ℕ)⟩), .inject 0 1 (.share ⟨2, 1, ((2, 11) : ℕ × ℕ)⟩),
    .inject 0 1 (.propose ⟨0, childBlock, 1⟩)]

/-- Replica `1` stores aggregates for views `8` and `2` after that of view `1`, and is about to
leave view `2`. -/
theorem aggregate_frozen_later : ∃ (σ : System plainTypes) (e : Executed plainTypes),
    e ∈ σ.trace ∧ e.node = 1 ∧ StoresVoted voteEnv e 1 (11 : ℕ) ∧ (σ.nodes e.node).rep.view = 2 ∧
    (σ.nodes e.node).rep.viewAggTranscripts 8 = (10013 : ℕ) ∧
    (σ.nodes e.node).rep.viewAggTranscripts 2 = (12 : ℕ) ∧
    (σ.nodes e.node).rep.viewAggTranscripts 1 = (11 : ℕ) ∧
    ((σ.nodes e.node).rep.updateAggQueue voteEnv (σ.nodes e.node).rep.view).aggQueue
      (voteEnv.getProposer 1) = (11 : ℕ) := by
  obtain ⟨σ, hrun, htest⟩ := exists_of_play voteEnv firstByzantine storesOnce
    (fun _ _ _ => keepsVoted_of_check) sendsLater
    (fun σ => σ.trace.any storesFirst && ((σ.nodes 1).rep.view == 2 &&
      (Nat.beq ((σ.nodes 1).rep.viewAggTranscripts 8) 10013 &&
        Nat.beq ((σ.nodes 1).rep.viewAggTranscripts 2) 12))) (by decide +kernel)
  simp only [Bool.and_eq_true, List.any_eq_true, beq_iff_eq] at htest
  obtain ⟨⟨e, he, hcheck⟩, hview, hlater, hsecond⟩ := htest
  obtain ⟨hnode, hstores⟩ := storesVoted_of_check hcheck
  have hfrozen := aggregate_frozen voteEnv firstByzantine σ hrun e he 1 11 hstores
  rw [← hnode] at hview hlater hsecond
  rw [hview] at hfrozen
  obtain ⟨hentry, hqueue⟩ := hfrozen (by decide)
  refine ⟨σ, e, he, hnode, hstores, hview, Nat.eq_of_beq_eq_true hlater,
    Nat.eq_of_beq_eq_true hsecond, hentry, ?_⟩
  rw [hview]
  exact hqueue rfl

/-- Replica `1` votes for the first proposal and stores the aggregate of the second. -/
theorem aggregate_replaced : ∃ (σ : System plainTypes) (e : Executed plainTypes),
    Reachable voteEnv firstByzantine σ ∧ Honest voteEnv firstByzantine 1 ∧ e ∈ σ.trace ∧
    e.node = 1 ∧ StoresVoted voteEnv e 1 (11 : ℕ) ∧
    σ.Emitted voteEnv 1 (.signed .vote (voteEnv.hash firstBlock) 1) ∧
    (σ.nodes 1).rep.view < 1 + voteEnv.config.nmajority ∧
    (σ.nodes 1).rep.viewAggTranscripts 1 = (12 : ℕ) := by
  obtain ⟨σ, hrun, htest⟩ := exists_reachable_of_play voteEnv firstByzantine
    [.inject 0 1 (.propose ⟨0, firstBlock, 1⟩), .inject 0 1 (.propose ⟨0, secondBlock, 1⟩)]
    (fun σ => σ.trace.any storesFirst && ((σ.nodes 1).rep.view == 1 &&
      (Nat.beq ((σ.nodes 1).rep.viewAggTranscripts 1) 12 &&
        decide (voteEnv.hash firstBlock ∈ votesIn voteEnv σ 1 1))))
    (by decide +kernel)
  obtain ⟨hany, hview, hagg, hvote⟩ : _ ∧ _ ∧ _ ∧ _ := by
    simpa only [Bool.and_eq_true, decide_eq_true_eq] using htest
  obtain ⟨e, he, hcheck⟩ := List.any_eq_true.mp hany
  obtain ⟨hnode, hstores⟩ := storesVoted_of_check hcheck
  refine ⟨σ, e, hrun, by decide, he, hnode, hstores, emitted_of_mem_votesIn hvote, ?_,
    Nat.eq_of_beq_eq_true hagg⟩
  rw [eq_of_beq hview]
  decide

end System

end OptRand.Hotstuff
