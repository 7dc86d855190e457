import OptRand.Lib.RoundRobin
import OptRand.Hotstuff.Scripts

/-!
# Which aggregate is used in which view

`agg_queue` has one entry for each proposer. On leaving view `v` the entry of the proposer of
view `v - nmajority + 1` is replaced by what `view_agg_transcripts` has for that view. As long
as all that is written into `view_agg_transcripts` for view `w` is the aggregate `A w`,
`agg_queue` is the round-robin queue of the values `A` (`Aligned.queue`), and in view `v` it
holds `A (v - n)` for the proposer of `v`, or the entry of the setup file in the first `n`
views.

The setup file is read into both structures: its first `n` aggregates are used in the first
`n` views, and `n` views later again. So no aggregate is used twice exactly as long as no
replica gets past view `n` (`System.aggregates_differ_iff`).
-/

namespace OptRand.Hotstuff

open Lib

variable {T : PayloadTypes}

/-! ## The calls that change the aggregates -/

/-- The part of a state that decides which aggregates are used. -/
structure Aggregates (T : PayloadTypes) where
  view : ℕ
  lastViewProposalReceived : ℕ
  aggQueue : ℕ → T.Aggregate
  viewAggTranscripts : ℕ → T.Aggregate

/-- The `Aggregates` of the views of a state. -/
def Views.aggregates (v : Views T) : Aggregates T :=
  ⟨v.view, v.lastViewProposalReceived, v.aggQueue, v.viewAggTranscripts⟩

/-- The calls that change the `Aggregates` of a replica. -/
def Frame.ChangesAggregates : Frame T → Prop
  | .checkAggregation _ _ | .onReceiveViewProposal_ | .tryEnterView
  | .onReceivePvssTranscript _ => True
  | _ => False

namespace Replica

/-- The `Aggregates` of a state. -/
def aggregates (s : Replica T) : Aggregates T := s.views.aggregates

variable {s : Replica T} {E : Env T}

theorem aggregates_of_views {s s' : Replica T} (h : s'.views = s.views) :
    s'.aggregates = s.aggregates := congrArg Views.aggregates h

theorem exec_aggregates {fr : Frame T} (h : ¬ fr.ChangesAggregates) :
    (s.exec E fr).rep.aggregates = s.aggregates := by
  rw [exec_patch]
  cases fr <;> first | rfl | exact absurd trivial h

/-- `on_receive_pvss_transcript` writes an aggregate when the transcripts are complete. -/
theorem onReceivePvssTranscript_cases {t : PVSSTranscript T} {o : Outcome T}
    (ho : s.onReceivePvssTranscript E t = o) :
    o.rep.views = s.views ∨
    ∃ agg, (s.transcriptIds t.forView).length + 1 = E.config.nmajority ∧
      (E.pvss s.id).aggregate (s.viewTranscripts t.forView ++ [t.pvssTranscript])
        (s.transcriptIds t.forView ++ [t.replicaID]) = .ok agg ∧
      o.rep.views = { s.views with
        viewAggTranscripts := Function.update s.viewAggTranscripts t.forView agg } := by
  subst ho
  unfold onReceivePvssTranscript
  dsimp only
  split
  · exact Or.inl rfl
  · split
    · exact Or.inl rfl
    · exact Or.inl rfl
    · split
      · rename_i hlen
        split
        · exact Or.inl rfl
        · rename_i agg hagg
          split
          · exact Or.inl rfl
          · exact Or.inl rfl
          · exact Or.inr ⟨agg, hlen, hagg, rfl⟩
      · exact Or.inl rfl

end Replica

/-! ## One aggregate for each view -/

/-- The call `fr` does not leave a view whose proposal has not been received. -/
def LeavesAfterProposal (s : Replica T) (fr : Frame T) : Prop :=
  fr = .tryEnterView → s.lastViewCertReceived = s.view →
    (s.lastViewSharesReceived = s.view ∨ s.lastViewBeaconReceived = s.view) →
    s.lastViewProposalReceived = s.view

section

variable (E : Env T) (A : ℕ → T.Aggregate)

/-- The call `fr` leaves `A w` in the entry of view `w` when it writes it: a proposal taken up
in view `w` carries `A w`, and so do transcripts for `w` that are complete only after it. -/
def Writes (s : Replica T) : Frame T → Prop
  | .checkAggregation prop _ =>
    ∀ blk, s.blkCache prop.blk = some blk →
      (E.pvss s.id).verifyAggregation blk.extra s.draws = .ok true → blk.extra = A s.view
  | .onReceiveViewProposal_ => s.viewAggTranscripts s.view = A s.view
  | .onReceivePvssTranscript t =>
    t.forView < s.view ∨ t.forView = s.lastViewProposalReceived →
    ∀ agg, (s.transcriptIds t.forView).length + 1 = E.config.nmajority →
      (E.pvss s.id).aggregate (s.viewTranscripts t.forView ++ [t.pvssTranscript])
        (s.transcriptIds t.forView ++ [t.replicaID]) = .ok agg → agg = A t.forView
  | _ => True

/-- The aggregates of a replica are those of `A`. -/
structure Aligned (a : Aggregates T) : Prop where
  view_pos : 1 ≤ a.view
  received_le : a.lastViewProposalReceived ≤ a.view
  left : ∀ w, 1 ≤ w → w < a.view → a.viewAggTranscripts w = A w
  received : a.lastViewProposalReceived = a.view → a.viewAggTranscripts a.view = A a.view
  queue : a.aggQueue = queueAt E.nreplicas E.config.nmajority E.setupQueue A a.view

variable {E A}

theorem Env.nmajority_pos (hn : 1 ≤ E.nreplicas) : 1 ≤ E.config.nmajority := by
  change 1 ≤ E.nreplicas - (E.nreplicas - 1) / 2
  omega

theorem Env.nmajority_le : E.config.nmajority ≤ E.nreplicas := Nat.sub_le _ _

theorem aligned_init (hn : 1 ≤ E.nreplicas) (i : ℕ) : Aligned E A (E.init i).aggregates where
  view_pos := le_refl 1
  received_le := Nat.zero_le 1
  left := by
    intro w hw hlt
    exact absurd hlt (not_lt.mpr hw)
  received := by
    intro h
    cases h
  queue := by
    change E.setupQueue = queueAt E.nreplicas E.config.nmajority E.setupQueue A 1
    rw [queueAt_succ, if_pos (Nat.lt_of_succ_le (Env.nmajority_pos hn))]
    rfl

theorem Aligned.write {a : Aggregates T} (ha : Aligned E A a) (w : ℕ) :
    Aligned E A
      { a with viewAggTranscripts := Function.update a.viewAggTranscripts w (A w) } where
  view_pos := ha.view_pos
  received_le := ha.received_le
  left := by
    intro u hu hlt
    by_cases huw : u = w
    · rw [huw]
      exact Function.update_self w _ _
    · exact (Function.update_of_ne huw _ _).trans (ha.left u hu hlt)
  received := by
    intro h
    by_cases hw : a.view = w
    · rw [hw]
      exact Function.update_self w _ _
    · exact (Function.update_of_ne hw _ _).trans (ha.received h)
  queue := ha.queue

/-- What is written before the proposal of a view is not read. -/
theorem Aligned.writeEarly {a : Aggregates T} (ha : Aligned E A a) {w : ℕ} (hw : a.view ≤ w)
    (hreceived : w ≠ a.lastViewProposalReceived) (agg : T.Aggregate) :
    Aligned E A
      { a with viewAggTranscripts := Function.update a.viewAggTranscripts w agg } where
  view_pos := ha.view_pos
  received_le := ha.received_le
  left := by
    intro u hu hlt
    have hne : u ≠ w := (lt_of_lt_of_le hlt hw).ne
    exact (Function.update_of_ne hne _ _).trans (ha.left u hu hlt)
  received := by
    intro h
    have hne : a.view ≠ w := fun heq => hreceived (heq.symm.trans h.symm)
    exact (Function.update_of_ne hne _ _).trans (ha.received h)
  queue := ha.queue

theorem Aligned.receive {a : Aggregates T} (ha : Aligned E A a)
    (h : a.viewAggTranscripts a.view = A a.view) :
    Aligned E A { a with lastViewProposalReceived := a.view } where
  view_pos := ha.view_pos
  received_le := le_refl _
  left := ha.left
  received _ := h
  queue := ha.queue

/-- Leaving a view whose proposal has been received. -/
theorem Aligned.leave {s : Replica T} (hn : 1 ≤ E.nreplicas) (hs : Aligned E A s.aggregates)
    (hreceived : s.lastViewProposalReceived = s.view) :
    Aligned E A { s.aggregates with
      view := s.view + 1
      aggQueue := (s.updateAggQueue E s.view).aggQueue } := by
  have hleft : ∀ w, 1 ≤ w → w < s.view + 1 → s.viewAggTranscripts w = A w := by
    intro w hw hlt
    rcases Nat.lt_succ_iff_lt_or_eq.mp hlt with hlt | rfl
    · exact hs.left w hw hlt
    · exact hs.received hreceived
  have hpos : 1 ≤ s.view := hs.view_pos
  have hqueue : s.aggQueue = queueAt E.nreplicas E.config.nmajority E.setupQueue A s.view :=
    hs.queue
  refine ⟨Nat.le_add_left 1 _, hs.received_le.trans (Nat.le_succ _), hleft, ?_, ?_⟩
  · intro h
    have hlt : s.lastViewProposalReceived = s.view + 1 := h
    omega
  · change (s.updateAggQueue E s.view).aggQueue = _
    rw [queueAt_succ]
    unfold Replica.updateAggQueue
    split
    · exact hqueue
    · have hlag := Env.nmajority_pos hn
      dsimp only
      rw [hleft _ (by omega) (by omega), hqueue]
      rfl

theorem Aligned.exec {s : Replica T} {fr : Frame T} (hn : 1 ≤ E.nreplicas)
    (hs : Aligned E A s.aggregates) (hwrites : Writes E A s fr)
    (hleave : LeavesAfterProposal s fr) :
    Aligned E A (s.exec E fr).rep.aggregates := by
  by_cases hc : fr.ChangesAggregates
  · cases fr <;> try exact False.elim hc
    case checkAggregation prop opinion =>
      rcases Replica.checkAggregation_cases rfl with ⟨h, -⟩ | ⟨blk, hblk, hagg, h, -⟩
      · rw [Replica.exec, Replica.aggregates_of_views h.1]
        exact hs
      · have hval := hwrites blk hblk hagg
        rw [hval] at h
        have heq := congrArg Views.aggregates h
        rw [Replica.exec, Replica.aggregates, heq]
        exact hs.write s.view
    case onReceiveViewProposal_ => exact hs.receive hwrites
    case tryEnterView =>
      rcases Replica.tryEnterView_cases rfl with h | ⟨hcert, hshares, h, -⟩
      · rw [Replica.exec, h]
        exact hs
      · have heq := congrArg Views.aggregates h
        rw [Replica.exec, Replica.aggregates, heq]
        exact hs.leave hn (hleave rfl hcert hshares)
    case onReceivePvssTranscript t =>
      rcases Replica.onReceivePvssTranscript_cases rfl with h | ⟨agg, hlen, hagg, h⟩
      · rw [Replica.exec, Replica.aggregates_of_views h]
        exact hs
      · have heq := congrArg Views.aggregates h
        rw [Replica.exec, Replica.aggregates, heq]
        by_cases hlate : t.forView < s.view ∨ t.forView = s.lastViewProposalReceived
        · rw [hwrites hlate agg hlen hagg]
          exact hs.write t.forView
        · obtain ⟨hview, hreceived⟩ := not_or.mp hlate
          exact hs.writeEarly (not_lt.mp hview) hreceived agg
  · rw [Replica.exec_aggregates hc]
    exact hs

/-- What is in the queue for the proposer of the current view. -/
def Env.held (E : Env T) (s : Replica T) : T.Aggregate := s.aggQueue (E.getProposer s.view)

theorem Aligned.held_eq {s : Replica T} (hs : Aligned E A s.aggregates) (hn : 1 ≤ E.nreplicas) :
    E.held s = if s.view ≤ E.nreplicas then E.setupQueue (s.view - 1)
      else A (s.view - E.nreplicas) := by
  have hq : s.aggQueue = queueAt E.nreplicas E.config.nmajority E.setupQueue A s.view := hs.queue
  unfold Env.held
  rw [hq]
  exact queueAt_turn (Env.nmajority_pos hn) Env.nmajority_le hs.view_pos

end

/-- Whether the call writes aggregates of `A` only, and no transcript arrives. -/
def Replica.writesOnly [DecidableEq T.Aggregate] (A : ℕ → T.Aggregate) (s : Replica T) :
    Frame T → Bool
  | .checkAggregation prop _ =>
    (s.blkCache prop.blk).all fun blk => decide (blk.extra = A s.view)
  | .onReceiveViewProposal_ => decide (s.viewAggTranscripts s.view = A s.view)
  | .onReceivePvssTranscript _ => false
  | _ => true

theorem writes_of_writesOnly [DecidableEq T.Aggregate] {E : Env T} {A : ℕ → T.Aggregate}
    {s : Replica T} {fr : Frame T} (h : s.writesOnly A fr = true) : Writes E A s fr := by
  cases fr
  case checkAggregation prop opinion =>
    intro blk hblk _
    rw [Replica.writesOnly, hblk] at h
    exact of_decide_eq_true h
  case onReceiveViewProposal_ =>
    have hval : s.viewAggTranscripts s.view = A s.view := by simpa [Replica.writesOnly] using h
    exact hval
  case onReceivePvssTranscript => cases h
  all_goals exact trivial

/-! ## The setup file in the queue -/

theorem update_zipIdx {α : Type} (init : ℕ → α) (l : List α) {p k : ℕ} (hk : k < l.length)
    (hp : toReplicaID k = p) (hlast : l.length ≤ k + 2 ^ 16) :
    l.zipIdx.foldl (fun queue x => Function.update queue (toReplicaID x.2) x.1) init p =
      l[k] := by
  induction l using List.reverseRecOn generalizing k with
  | nil => cases hk
  | append_singleton l a ih =>
    rw [List.zipIdx_append, List.foldl_append]
    simp only [List.length_append, List.length_singleton] at hk hlast
    by_cases hkl : k = l.length
    · subst hkl
      simp [hp]
    · have hne : p ≠ toReplicaID l.length := by
        unfold toReplicaID at hp ⊢
        omega
      simp only [List.zipIdx_singleton, List.foldl_cons, List.foldl_nil, Nat.zero_add]
      rw [Function.update_of_ne hne, ih (by omega) hp (by omega),
        List.getElem_append_left (by omega)]

/-- The aggregate of view `w`: that of the setup file, and `later w` when the file has none. -/
def Env.aggregateOf (E : Env T) (later : ℕ → T.Aggregate) (w : ℕ) : T.Aggregate :=
  match E.setup[w - 1]? with
  | some agg => agg
  | none => later w

/-- The view whose aggregate is used in view `v`, of `n` replicas. The keys of `agg_queue` have
16 bits, so in a system of more than `2 ^ 15` replicas the end of the setup file replaces its
beginning. -/
def heldFrom (n v : ℕ) : ℕ :=
  if v ≤ n then if v - 1 < 2 * n - 2 ^ 16 then 2 ^ 16 + v else v else v - n

/-- The last view up to which no aggregate is used twice. -/
def lastFresh (n : ℕ) : ℕ := n + (2 * n - 2 ^ 16)

theorem heldFrom_inj {n v w : ℕ} (hn : n ≤ 2 ^ 16) (hv : 1 ≤ v) (hw : 1 ≤ w)
    (hvl : v ≤ lastFresh n) (hwl : w ≤ lastFresh n) (h : heldFrom n v = heldFrom n w) : v = w := by
  unfold heldFrom at h
  unfold lastFresh at hvl hwl
  split_ifs at h <;> omega

theorem heldFrom_pos {n v : ℕ} (hv : 1 ≤ v) : 1 ≤ heldFrom n v := by
  unfold heldFrom
  split_ifs <;> omega

/-- After the last fresh view an aggregate is used again. -/
theorem exists_heldFrom_eq {n : ℕ} (hn : 1 ≤ n) (hn' : n ≤ 2 ^ 16) :
    ∃ v, 1 ≤ v ∧ v ≤ lastFresh n ∧ heldFrom n v = heldFrom n (lastFresh n + 1) := by
  by_cases hlt : n < 2 ^ 16
  · refine ⟨2 * n - 2 ^ 16 + 1, ?_, ?_, ?_⟩
    · omega
    · unfold lastFresh
      omega
    · unfold heldFrom lastFresh
      rw [if_pos (by omega), if_neg (by omega), if_neg (by omega)]
      omega
  · refine ⟨1, le_refl 1, ?_, ?_⟩
    · unfold lastFresh
      omega
    · unfold heldFrom lastFresh
      rw [if_pos (by omega), if_pos (by omega), if_neg (by omega)]
      omega

section

variable {E : Env T} {later : ℕ → T.Aggregate}

theorem setupQueue_eq {p k : ℕ} (hk : k < E.setup.length) (hp : toReplicaID k = p)
    (hlast : E.setup.length ≤ k + 2 ^ 16) : E.setupQueue p = E.aggregateOf later (k + 1) := by
  unfold Env.aggregateOf
  rw [Nat.add_sub_cancel, List.getElem?_eq_getElem hk]
  exact update_zipIdx _ _ hk hp hlast

theorem setupQueue_eq_heldFrom (hn : E.nreplicas ≤ 2 ^ 16)
    (hsetup : E.setup.length = 2 * E.nreplicas) {v : ℕ} (hv : 1 ≤ v) (hvn : v ≤ E.nreplicas) :
    E.setupQueue (v - 1) = E.aggregateOf later (heldFrom E.nreplicas v) := by
  unfold heldFrom
  rw [if_pos hvn]
  split
  · rw [show 2 ^ 16 + v = 2 ^ 16 + (v - 1) + 1 by omega]
    exact setupQueue_eq (by omega) (by unfold toReplicaID; omega) (by omega)
  · rw [show v = v - 1 + 1 by omega, Nat.add_sub_cancel]
    exact setupQueue_eq (by omega) (by unfold toReplicaID; omega) (by omega)

theorem Aligned.held_eq_aggregateOf {s : Replica T} (hn : 1 ≤ E.nreplicas)
    (hn' : E.nreplicas ≤ 2 ^ 16) (hsetup : E.setup.length = 2 * E.nreplicas)
    (hs : Aligned E (E.aggregateOf later) s.aggregates) :
    E.held s = E.aggregateOf later (heldFrom E.nreplicas s.view) := by
  have hpos : 1 ≤ s.view := hs.view_pos
  rw [hs.held_eq hn]
  split
  · rename_i hle
    exact setupQueue_eq_heldFrom hn' hsetup hpos hle
  · rename_i hlt
    unfold heldFrom
    rw [if_neg hlt]

end

/-! ## Fault-free runs -/

namespace System

/-- What calls do in a fault-free run: the aggregates they write for view `w` are that of view
`w`, and a replica leaves a view after processing its proposal. -/
def FaultFree (E : Env T) (later : ℕ → T.Aggregate) (σ : System T) (i : ℕ) (fr : Frame T) :
    Prop :=
  Writes E (E.aggregateOf later) (σ.nodes i).rep fr ∧ LeavesAfterProposal (σ.nodes i).rep fr

variable {E : Env T} {F : Faults T} {later : ℕ → T.Aggregate} {σ : System T}

/-- The aggregates stay those of `A` in runs whose calls write these only and leave no view
before its proposal. -/
theorem Run.aligned {A : ℕ → T.Aggregate} {ok : System T → ℕ → Frame T → Prop}
    (hn : 1 ≤ E.nreplicas)
    (hok : ∀ σ i fr, Run E F ok σ → Honest E F i → ok σ i fr →
      Writes E A (σ.nodes i).rep fr ∧ LeavesAfterProposal (σ.nodes i).rep fr)
    (h : Run E F ok σ) (i : ℕ) : Aligned E A (σ.nodes i).rep.aggregates := by
  refine h.node_induction (I := fun _ x => Aligned E A x.rep.aggregates) ?_ ?_ ?_ i
  · exact aligned_init hn
  · intro i x ev hx _ _
    exact hx
  · intro σ i fr stack hrun hi hmeets hx _
    obtain ⟨hwrites, hleave⟩ := hok σ i fr hrun hi hmeets
    rw [Node.rep_after]
    exact hx.exec hn hwrites hleave

theorem Run.aligned_of_visited (hn : 1 ≤ E.nreplicas) (h : Run E F (FaultFree E later) σ)
    {i : ℕ} {s : Replica T} (hs : σ.Visited i s) :
    Aligned E (E.aggregateOf later) s.aggregates := by
  rcases hs with rfl | ⟨e, he, rfl, rfl⟩
  · exact h.aligned hn (fun _ _ _ _ _ hok => hok) i
  · obtain ⟨σ', stack, hrun, -, -, hrep, -⟩ := h.exists_of_mem_trace he
    rw [← hrep]
    exact hrun.aligned hn (fun _ _ _ _ _ hok => hok) e.node

/-- No aggregate is used in two views exactly as long as no replica is past view `n`
(`lastFresh n`, which is `n` for up to `2 ^ 15` replicas). -/
theorem aggregates_differ_iff (E : Env T) (F : Faults T) (later : ℕ → T.Aggregate)
    (hn : 2 ≤ E.nreplicas) (hn' : E.nreplicas ≤ 2 ^ 16)
    (hsetup : E.setup.length = 2 * E.nreplicas)
    (hdistinct : Set.InjOn (E.aggregateOf later) {w | 1 ≤ w}) (σ : System T)
    (h : Run E F (FaultFree E later) σ) :
    (∀ i j s s', σ.Visited i s → σ.Visited j s' → s.view ≠ s'.view → E.held s ≠ E.held s') ↔
      ∀ i, (σ.nodes i).rep.view ≤ lastFresh E.nreplicas := by
  have hpos : 1 ≤ E.nreplicas := by omega
  have hheld : ∀ {i s}, σ.Visited i s → 1 ≤ s.view ∧
      E.held s = E.aggregateOf later (heldFrom E.nreplicas s.view) := by
    intro i s hs
    have hal := h.aligned_of_visited hpos hs
    exact ⟨hal.view_pos, hal.held_eq_aggregateOf hpos hn' hsetup⟩
  constructor
  · intro hdiff i
    by_contra hlt
    obtain ⟨v, hv, hvl, heq⟩ := exists_heldFrom_eq hpos hn'
    obtain ⟨s, hs, rfl⟩ := h.exists_visited (i := i) hv (by omega)
    obtain ⟨s', hs', hview⟩ := h.exists_visited (i := i) (v := lastFresh E.nreplicas + 1)
      (by omega) (by omega)
    apply hdiff i i s s' hs hs' (by omega)
    rw [(hheld hs).2, (hheld hs').2, hview, heq]
  · intro hle i j s s' hs hs' hne heq
    have hbound : ∀ {i s}, σ.Visited i s → s.view ≤ lastFresh E.nreplicas :=
      fun {i s} hs => (h.view_le_of_visited hs).trans (hle i)
    rw [(hheld hs).2, (hheld hs').2] at heq
    have hfrom := hdistinct (heldFrom_pos (hheld hs).1) (heldFrom_pos (hheld hs').1) heq
    exact hne (heldFrom_inj hn' (hheld hs).1 (hheld hs').1 (hbound hs) (hbound hs') hfrom)

/-! ## Two replicas in three views -/

/-- Whether a call is that of a fault-free run in which no transcript arrives. -/
def faultFree (later : ℕ → ℕ) (σ : System plainTypes) (i : ℕ) (fr : Frame plainTypes) : Bool :=
  let s := (σ.nodes i).rep
  s.writesOnly (twoEnv.aggregateOf later) fr &&
    match fr with
    | .tryEnterView => s.lastViewProposalReceived == s.view || s.lastViewCertReceived != s.view ||
        (s.lastViewSharesReceived != s.view && s.lastViewBeaconReceived != s.view)
    | _ => true

theorem faultFree_of_check {later : ℕ → ℕ} {σ : System plainTypes} {i : ℕ}
    {fr : Frame plainTypes} (h : faultFree later σ i fr = true) :
    FaultFree twoEnv later σ i fr := by
  obtain ⟨hwrites, hleave⟩ := Bool.and_eq_true_iff.mp h
  refine ⟨writes_of_writesOnly hwrites, ?_⟩
  rintro rfl hcert hshares
  simp only [Bool.or_eq_true, Bool.and_eq_true, beq_iff_eq, bne_iff_ne] at hleave
  tauto

theorem aggregateOf_twoEnv {w : ℕ} (hw : 1 ≤ w) : twoEnv.aggregateOf id w = w := by
  match w with
  | 1 | 2 | 3 | 4 => rfl
  | w + 5 => rfl

/-- A fault-free run of two replicas up to view `3`. -/
theorem exists_run_twoEnv : ∃ σ : System plainTypes, Run twoEnv noFaults (FaultFree twoEnv id) σ ∧
    (σ.nodes 1).rep.view = 3 ∧ twoEnv.held (σ.nodes 1).rep = (1 : ℕ) ∧
    ∃ e ∈ σ.trace, e.node = 1 ∧ e.rep.view = 1 ∧ twoEnv.held e.rep = (1 : ℕ) := by
  obtain ⟨σ, hrun, htest⟩ := exists_of_play twoEnv noFaults (faultFree id)
    (fun _ _ _ => faultFree_of_check) twoViews
    (fun σ => (σ.nodes 1).rep.view == 3 && (Nat.beq (twoEnv.held (σ.nodes 1).rep) 1 &&
      σ.trace.any fun e => e.node == 1 && (e.rep.view == 1 && Nat.beq (twoEnv.held e.rep) 1)))
    (by decide +kernel)
  simp only [Bool.and_eq_true, beq_iff_eq, List.any_eq_true] at htest
  obtain ⟨hview, hheld, e, he, hnode, heview, heheld⟩ := htest
  exact ⟨σ, hrun, hview, Nat.eq_of_beq_eq_true hheld, e, he, hnode, heview,
    Nat.eq_of_beq_eq_true heheld⟩

theorem aggregates_differ_twoEnv : ∃ σ : System plainTypes, (σ.nodes 1).rep.view = 3 ∧
    ((∀ i j s s', σ.Visited i s → σ.Visited j s' → s.view ≠ s'.view →
      twoEnv.held s ≠ twoEnv.held s') ↔
      ∀ i, (σ.nodes i).rep.view ≤ lastFresh twoEnv.nreplicas) := by
  obtain ⟨σ, hrun, hview, -⟩ := exists_run_twoEnv
  refine ⟨σ, hview, aggregates_differ_iff twoEnv noFaults id (by decide) (by decide) rfl ?_ σ hrun⟩
  intro v hv w hw h
  rw [aggregateOf_twoEnv hv, aggregateOf_twoEnv hw] at h
  exact h

/-- The aggregate `1` of the setup file is used in view `1` and in view `3`. -/
theorem aggregate_used_twice : ∃ (σ : System plainTypes) (s s' : Replica plainTypes),
    twoEnv.setup.length = 2 * twoEnv.nreplicas ∧
    Set.InjOn (twoEnv.aggregateOf id) {w | 1 ≤ w} ∧
    Run twoEnv noFaults (FaultFree twoEnv id) σ ∧ σ.Visited 1 s ∧ σ.Visited 1 s' ∧
    s.view ≠ s'.view ∧ twoEnv.held s = twoEnv.held s' := by
  obtain ⟨σ, hrun, hview, hheld, e, he, hnode, heview, heheld⟩ := exists_run_twoEnv
  refine ⟨σ, (σ.nodes 1).rep, e.rep, rfl, ?_, hrun, Or.inl rfl, Or.inr ⟨e, he, hnode, rfl⟩, ?_, ?_⟩
  · intro v hv w hw h
    rw [aggregateOf_twoEnv hv, aggregateOf_twoEnv hw] at h
    exact h
  · omega
  · rw [hheld, heheld]

end System

end OptRand.Hotstuff
