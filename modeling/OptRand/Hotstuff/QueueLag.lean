import OptRand.Hotstuff.Statuses

/-!
# The lag of the aggregate queue

`_update_agg_queue` runs when a view is left, and copies the entry of `view_agg_transcripts` of
`nmajority - 1` views before. `agg_queue` is therefore, in every run, the round-robin queue of the
values that these entries have when the views are left (`Lagging`), and the proposer of view `v`
finds the value of view `v - n` in it.

In the first `n` views it finds the setup file. The constructor stores entry `i` of the file under
the `ReplicaID` `i`, which has 16 bits; a file with more than `2 ^ 16` entries replaces its
beginning (`System.queue_lags_iff`).
-/

namespace OptRand.Hotstuff

open Lib

variable {T : PayloadTypes}

/-- The call that leaves view `u`. -/
def Executed.Leaves (e : Executed T) (u : ℕ) : Prop :=
  e.frame = .tryEnterView ∧ e.rep.Enters ∧ e.rep.view = u

/-- Whether a call is the one that leaves view `u`. -/
def Executed.leaves (u : ℕ) (e : Executed T) : Bool :=
  match e.frame with
  | .tryEnterView => decide (e.rep.Enters ∧ e.rep.view = u)
  | _ => false

theorem Executed.leaves_iff {e : Executed T} {u : ℕ} : e.leaves u = true ↔ e.Leaves u := by
  unfold leaves Leaves
  split
  · rename_i hframe
    rw [decide_eq_true_iff]
    exact ⟨fun h => ⟨hframe, h⟩, fun h => h.2⟩
  · rename_i hframe
    exact ⟨nofun, fun h => absurd h.1 hframe⟩

/-- What `view_agg_transcripts` had for view `w` when the view was left whose end puts it into
the queue. -/
def copied (E : Env T) (past : List (Executed T)) (w : ℕ) : T.Aggregate :=
  match past.find? (Executed.leaves (w + E.config.nmajority - 1)) with
  | some e => e.rep.viewAggTranscripts w
  | none => E.emptyAggregate

/-- The queue of a replica holds what it has copied, and every view before its own has been left
exactly once. -/
structure Lagging (E : Env T) (past : List (Executed T)) (s : Replica T) : Prop where
  queue : s.aggQueue =
    queueAt E.nreplicas E.config.nmajority E.setupQueue (copied E past) s.view
  left : ∀ u, 1 ≤ u → past.countP (Executed.leaves u) = if u < s.view then 1 else 0

section

variable {E : Env T} {past : List (Executed T)} {s : Replica T} {fr : Frame T}

theorem copied_cons_of_not {e : Executed T} {w : ℕ}
    (h : ¬ e.Leaves (w + E.config.nmajority - 1)) : copied E (e :: past) w = copied E past w := by
  unfold copied
  rw [List.find?_cons_of_neg (fun hleaves => h (Executed.leaves_iff.mp hleaves))]

theorem copied_cons_self {e : Executed T} {w : ℕ}
    (h : e.Leaves (w + E.config.nmajority - 1)) :
    copied E (e :: past) w = e.rep.viewAggTranscripts w := by
  unfold copied
  rw [List.find?_cons_of_pos (Executed.leaves_iff.mpr h)]

/-- A call that leaves no view. -/
theorem Lagging.stay {i : ℕ} (h : Lagging E past s) (hnot : fr = .tryEnterView → ¬ s.Enters) :
    Lagging E (⟨i, s, fr⟩ :: past) (s.exec E fr).rep := by
  have hleaves : ∀ u, ¬ Executed.Leaves ⟨i, s, fr⟩ u := fun u hu => hnot hu.1 hu.2.1
  have hview := Replica.exec_view_of_not (E := E) hnot
  have hqueue : (s.exec E fr).rep.aggQueue = s.aggQueue := by
    by_cases henter : fr = .tryEnterView
    · subst henter
      rw [Replica.exec, Replica.tryEnterView_of_not (hnot rfl)]
      rfl
    · rw [Replica.exec_patch]
      cases fr <;> first | rfl | exact absurd rfl henter
  constructor
  · rw [hqueue, hview, h.queue]
    exact queueAt_congr fun w _ _ => (copied_cons_of_not (hleaves _)).symm
  · intro u hu
    rw [hview, List.countP_cons_of_neg (fun hl => hleaves u (Executed.leaves_iff.mp hl))]
    exact h.left u hu

/-- The call that leaves the view. -/
theorem Lagging.leave {i : ℕ} (hn : 1 ≤ E.nreplicas) (h : Lagging E past s) (henters : s.Enters) :
    Lagging E (⟨i, s, .tryEnterView⟩ :: past) (s.tryEnterView E).rep := by
  have hleaves : Executed.Leaves ⟨i, s, .tryEnterView⟩ s.view := ⟨rfl, henters, rfl⟩
  have hview := Replica.view_of_enters (E := E) henters
  have hqueue : (s.tryEnterView E).rep.aggQueue = (s.updateAggQueue E s.view).aggQueue := by
    rcases Replica.tryEnterView_cases (rfl : s.tryEnterView E = _) with heq | ⟨-, -, hviews, -⟩
    · rw [heq] at hview
      exact absurd hview (Nat.lt_succ_self s.view).ne
    · exact congrArg Views.aggQueue hviews
  have hlag := Env.nmajority_pos hn
  constructor
  · -- what is copied for a view before is not touched, and that for the view due is the entry now
    have hbefore : queueAt E.nreplicas E.config.nmajority E.setupQueue (copied E past) s.view =
        queueAt E.nreplicas E.config.nmajority E.setupQueue
          (copied E (⟨i, s, .tryEnterView⟩ :: past)) s.view := by
      apply queueAt_congr
      intro w hw hle
      refine (copied_cons_of_not fun hl => ?_).symm
      have heq : s.view = w + E.config.nmajority - 1 := hl.2.2
      omega
    rw [hqueue, hview, queueAt_succ, ← hbefore, ← h.queue]
    unfold Replica.updateAggQueue
    split
    · rfl
    · have hdue : s.view - E.config.nmajority + 1 + E.config.nmajority - 1 = s.view := by omega
      dsimp only
      rw [copied_cons_self (hdue.symm ▸ hleaves)]
      rfl
  · intro u hu
    have hleft := h.left u hu
    rw [hview]
    by_cases huv : u = s.view
    · subst huv
      rw [List.countP_cons_of_pos (Executed.leaves_iff.mpr hleaves), hleft,
        if_neg (lt_irrefl _), if_pos (Nat.lt_succ_self _)]
    · have hnot : ¬ Executed.Leaves ⟨i, s, .tryEnterView⟩ u := fun hl => huv hl.2.2.symm
      rw [List.countP_cons_of_neg (fun hl => hnot (Executed.leaves_iff.mp hl)), hleft]
      by_cases hlt : u < s.view
      · rw [if_pos hlt, if_pos (hlt.trans (Nat.lt_succ_self _))]
      · rw [if_neg hlt, if_neg (by omega)]

/-- What the proposer of the view finds. -/
theorem Lagging.held_eq (hn : 1 ≤ E.nreplicas) (h : Lagging E past s) (hpos : 1 ≤ s.view) :
    E.held s = if s.view ≤ E.nreplicas then E.setupQueue (s.view - 1)
      else copied E past (s.view - E.nreplicas) := by
  unfold Env.held
  rw [h.queue]
  exact queueAt_turn (Env.nmajority_pos hn) Env.nmajority_le hpos

end

/-! ## The setup file -/

/-- Entry `v - 1` of the setup file, and the last entry that the constructor stores under the same
16 bits. -/
def Env.EntryKept (E : Env T) (v : ℕ) : Prop :=
  v ≤ E.setup.length ∧
    E.setup[v - 1 + 2 ^ 16 * ((E.setup.length - v) / 2 ^ 16)]? = E.setup[v - 1]?

/-- A file of at most `2 ^ 16` entries is kept. -/
theorem Env.entryKept_of_le {E : Env T} {v : ℕ} (hv : 1 ≤ v) (hle : v ≤ E.setup.length)
    (hsetup : E.setup.length ≤ 2 ^ 16) : E.EntryKept v := by
  have hzero : (E.setup.length - v) / 2 ^ 16 = 0 := Nat.div_eq_of_lt (by omega)
  refine ⟨hle, ?_⟩
  rw [hzero, Nat.mul_zero, Nat.add_zero]

theorem getElem?_setup_iff {E : Env T} {v : ℕ} (hv : 1 ≤ v) (hn : v ≤ 2 ^ 16) :
    E.setup[v - 1]? = some (E.setupQueue (v - 1)) ↔ E.EntryKept v := by
  by_cases hle : v ≤ E.setup.length
  · set k := v - 1 + 2 ^ 16 * ((E.setup.length - v) / 2 ^ 16) with hk
    have hdiv := Nat.div_add_mod (E.setup.length - v) (2 ^ 16)
    have hmod := Nat.mod_lt (E.setup.length - v) (Nat.two_pow_pos 16)
    have hkl : k < E.setup.length := by omega
    have hkey : toReplicaID k = v - 1 := by
      unfold toReplicaID
      rw [hk, Nat.add_mul_mod_self_left, Nat.mod_eq_of_lt (by omega)]
    have hqueue : E.setupQueue (v - 1) = E.setup[k] :=
      update_zipIdx _ _ hkl hkey (by omega)
    unfold Env.EntryKept
    rw [hqueue, ← hk, List.getElem?_eq_getElem hkl]
    exact ⟨fun h => ⟨hle, h.symm⟩, fun h => h.2.symm⟩
  · have hnone : E.setup[v - 1]? = none := List.getElem?_eq_none (by omega)
    rw [hnone]
    exact ⟨nofun, fun h => absurd h.1 hle⟩

theorem Env.held_init (E : Env T) (i : ℕ) : E.held (E.init i) = E.setupQueue 0 :=
  congrArg E.setupQueue (Nat.zero_mod E.nreplicas)

namespace System

variable {E : Env T} {F : Faults T} {ok : System T → ℕ → Frame T → Prop} {σ : System T}

theorem Run.lagging (hn : 1 ≤ E.nreplicas) (h : Run E F ok σ) (i : ℕ) :
    Lagging E (σ.history i) (σ.nodes i).rep := by
  refine h.history_induction (I := fun _ past x => Lagging E past x.rep) ?_ ?_ ?_ i
  · intro i
    refine ⟨?_, fun u hu => ?_⟩
    · change E.setupQueue = queueAt E.nreplicas E.config.nmajority E.setupQueue _ 1
      rw [queueAt_succ, if_pos (Nat.lt_of_succ_le (Env.nmajority_pos hn))]
      rfl
    · exact (if_neg (not_lt.mpr hu)).symm
  · exact fun i past x ev hx _ _ => hx
  · intro σ i fr stack _ _ _ hx _
    rw [Node.rep_after]
    by_cases henter : fr = .tryEnterView ∧ (σ.nodes i).rep.Enters
    · obtain ⟨rfl, henters⟩ := henter
      exact hx.leave hn henters
    · exact hx.stay (not_and.mp henter)

/-- In state `s` of replica `i` the proposer of the view finds the aggregate that is due: entry
`view - 1` of the setup file, or what `view_agg_transcripts` had for view `view - n` when the
replica left view `view - n + nmajority - 1`, which it has done once. -/
def HoldsDue (E : Env T) (σ : System T) (i : ℕ) (s : Replica T) : Prop :=
  if s.view ≤ E.nreplicas then E.setup[s.view - 1]? = some (E.held s)
  else ∃ e ∈ σ.history i,
    (∀ e' ∈ σ.history i, e'.Leaves (s.view - E.nreplicas + E.config.nmajority - 1) ↔ e' = e) ∧
      E.held s = e.rep.viewAggTranscripts (s.view - E.nreplicas)

/-- A replica leaves a view once. -/
theorem Run.eq_of_leaves (hn : 1 ≤ E.nreplicas) (h : Run E F ok σ) {i u : ℕ} (hu : 1 ≤ u)
    {e e' : Executed T} (he : e ∈ σ.history i) (he' : e' ∈ σ.history i) (hleaves : e.Leaves u)
    (hleaves' : e'.Leaves u) : e' = e := by
  have hcount := (h.lagging hn i).left u hu
  rw [List.countP_eq_length_filter] at hcount
  have hmem := List.mem_filter.mpr ⟨he, Executed.leaves_iff.mpr hleaves⟩
  have hmem' := List.mem_filter.mpr ⟨he', Executed.leaves_iff.mpr hleaves'⟩
  split at hcount
  · obtain ⟨a, ha⟩ := List.length_eq_one_iff.mp hcount
    rw [ha] at hmem hmem'
    rw [List.mem_singleton.mp hmem, List.mem_singleton.mp hmem']
  · rw [List.length_eq_zero_iff.mp hcount] at hmem
    cases hmem

/-- What the queue holds is found in the past of the replica. -/
theorem Run.exists_leaves (hn : 1 ≤ E.nreplicas) (h : Run E F ok σ) {i : ℕ}
    (hview : E.nreplicas < (σ.nodes i).rep.view) : ∃ e ∈ σ.history i,
      e.Leaves ((σ.nodes i).rep.view - E.nreplicas + E.config.nmajority - 1) ∧
      E.held (σ.nodes i).rep = e.rep.viewAggTranscripts ((σ.nodes i).rep.view - E.nreplicas) := by
  have hlagging := h.lagging hn i
  have hlag := Env.nmajority_pos hn
  have hmajority : E.config.nmajority ≤ E.nreplicas := Env.nmajority_le
  have hheld := hlagging.held_eq hn (h.view_pos i)
  rw [if_neg (not_le.mpr hview)] at hheld
  have hleft := hlagging.left
    ((σ.nodes i).rep.view - E.nreplicas + E.config.nmajority - 1) (by omega)
  rw [if_pos (by omega)] at hleft
  unfold copied at hheld
  split at hheld
  · rename_i e hfind
    exact ⟨e, List.mem_of_find?_eq_some hfind,
      Executed.leaves_iff.mp (List.find?_some hfind), hheld⟩
  · rename_i hnone
    rw [List.countP_eq_zero.mpr (fun e he => List.find?_eq_none.mp hnone e he)] at hleft
    cases hleft

theorem history_subset {σ' : System T} (h : σ'.trace <:+ σ.trace) {i : ℕ} {e : Executed T}
    (he : e ∈ σ'.history i) : e ∈ σ.history i := by
  obtain ⟨hmem, hnode⟩ := mem_history.mp he
  exact mem_history.mpr ⟨h.subset hmem, hnode⟩

/-- In every state of every run, the proposer of a view after `n` finds the value of `n` views
before, and that of an earlier view its entry of the setup file exactly if the file keeps it. -/
theorem queue_lags_iff (E : Env T) (F : Faults T) (σ : System T) (hn : 1 ≤ E.nreplicas)
    (hn' : E.nreplicas ≤ 2 ^ 16) (h : Reachable E F σ) (i : ℕ) (s : Replica T)
    (hs : σ.Visited i s) :
    HoldsDue E σ i s ↔ (s.view ≤ E.nreplicas → E.EntryKept s.view) := by
  -- the state is the last one of a run whose history is part of this one
  obtain ⟨σ', hrun, htrace, hrep⟩ : ∃ σ' : System T, Reachable E F σ' ∧ σ'.trace <:+ σ.trace ∧
      (σ'.nodes i).rep = s := by
    rcases hs with rfl | ⟨e, he, rfl, rfl⟩
    · exact ⟨σ, h, List.suffix_rfl, rfl⟩
    · obtain ⟨σ', -, hrun, htrace, -, hrep, -⟩ := Run.exists_of_mem_trace h he
      exact ⟨σ', hrun, htrace, hrep⟩
  have hpos : 1 ≤ s.view := hrep ▸ hrun.view_pos i
  unfold HoldsDue
  split
  · rename_i hle
    have hqueue := (hrep ▸ hrun.lagging hn i : Lagging E _ s).held_eq hn hpos
    rw [if_pos hle] at hqueue
    rw [hqueue, getElem?_setup_iff hpos (hle.trans hn')]
    exact ⟨fun hkept _ => hkept, fun hkept => hkept hle⟩
  · rename_i hlt
    refine ⟨fun _ hle => absurd hle hlt, fun _ => ?_⟩
    obtain ⟨e, he, hleaves, hheld⟩ := hrun.exists_leaves hn (i := i) (hrep ▸ not_le.mp hlt)
    rw [hrep] at hleaves hheld
    have hmem := history_subset htrace he
    refine ⟨e, hmem, fun e' he' => ⟨fun hleaves' => ?_, fun heq => heq ▸ hleaves⟩, hheld⟩
    have hlag := Env.nmajority_pos hn
    exact Run.eq_of_leaves hn h (by omega) hmem he' hleaves hleaves'

/-- Replica `1` of two in view `1` and in view `3`. -/
theorem queue_lags_two : ∃ (σ : System plainTypes) (s s' : Replica plainTypes),
    Reachable twoEnv noFaults σ ∧ σ.Visited 1 s ∧ s.view = 1 ∧ HoldsDue twoEnv σ 1 s ∧
    σ.Visited 1 s' ∧ s'.view = 3 ∧ HoldsDue twoEnv σ 1 s' := by
  obtain ⟨σ, hrun, hview, -, e, he, hnode, heview, -⟩ := exists_run_twoEnv
  have hreach : Reachable twoEnv noFaults σ := Run.mono (fun _ _ _ _ => trivial) hrun
  have hiff := queue_lags_iff twoEnv noFaults σ (by decide) (by decide) hreach 1
  have hfirst : σ.Visited 1 e.rep := Or.inr ⟨e, he, hnode, rfl⟩
  have hlast : σ.Visited 1 (σ.nodes 1).rep := Or.inl rfl
  have hkept : ∀ s : Replica plainTypes, 1 ≤ s.view → s.view ≤ twoEnv.nreplicas →
      twoEnv.EntryKept s.view :=
    fun s hs hle => Env.entryKept_of_le hs (hle.trans (by decide)) (by decide)
  exact ⟨σ, e.rep, (σ.nodes 1).rep, hreach, hfirst, heview,
    (hiff _ hfirst).mpr (hkept _ heview.ge), hlast, hview,
    (hiff _ hlast).mpr (hkept _ (hview ▸ by decide))⟩

/-- The system of `2 ^ 15 + 1` replicas whose setup file has the aggregates `0` to `2 ^ 16 + 1`. -/
def crowdEnv : Env plainTypes :=
  plainEnv (2 ^ 15 + 1) (List.range (2 * (2 ^ 15 + 1))) contentCode

/-- Replica `0` of them finds entry `2 ^ 16` of the file in view `1`. -/
theorem setup_entry_replaced : ∃ (σ : System plainTypes) (s : Replica plainTypes),
    crowdEnv.setup.length = 2 * crowdEnv.nreplicas ∧ Reachable crowdEnv noFaults σ ∧
    σ.Visited 0 s ∧ s.view = 1 ∧ crowdEnv.held s = (2 ^ 16 : ℕ) ∧ ¬ HoldsDue crowdEnv σ 0 s := by
  have hplain : ∀ n l h, (plainEnv n l h).setup = l := fun _ _ _ => rfl
  have hsetup : crowdEnv.setup = List.range (2 * (2 ^ 15 + 1)) := hplain _ _ _
  have hlength : crowdEnv.setup.length = 2 * (2 ^ 15 + 1) := by
    rw [hsetup, List.length_range]
  have hqueue : crowdEnv.setupQueue 0 = (2 ^ 16 : ℕ) := by
    have hupdate := update_zipIdx (fun _ => crowdEnv.emptyAggregate) crowdEnv.setup
      (p := 0) (k := 2 ^ 16) (by omega) rfl (by omega)
    refine hupdate.trans ?_
    simp only [hsetup, List.getElem_range]
  have hheld : crowdEnv.held (crowdEnv.init 0) = crowdEnv.setupQueue 0 := crowdEnv.held_init 0
  refine ⟨System.init crowdEnv, crowdEnv.init 0, hlength, Run.init, Or.inl rfl, rfl,
    hheld.trans hqueue, ?_⟩
  have hfirstView : (crowdEnv.init 0).view ≤ crowdEnv.nreplicas := Nat.le_add_left 1 (2 ^ 15)
  unfold HoldsDue
  rw [if_pos hfirstView, hheld, hqueue]
  intro h
  have hfirst : crowdEnv.setup[1 - 1]? = some (0 : ℕ) := by
    rw [hsetup]
    exact List.getElem?_range (by decide)
  have hentry := Option.some.inj (hfirst.symm.trans h)
  exact absurd hentry (Nat.two_pow_pos 16).ne

end System

end OptRand.Hotstuff
