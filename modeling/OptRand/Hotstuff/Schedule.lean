import OptRand.Hotstuff.Statuses

/-!
# For which views sharings are made

`on_enter_view(w)` makes one sharing, for a view `for_view` that lies two windows of `n` views
ahead, and hands it to the proposer of that view. Over all views `w` a replica would so make exactly
one for every view after `2n`. View `1` is entered once for each client command that comes before
the first proposal, and the sharing for `for_view` of view `1` is made as often
(`System.transcript_schedule`).
-/

namespace OptRand.Hotstuff

open Lib

variable {T : PayloadTypes}

/-- `dest` of `on_enter_view(view)` at replica `id`. -/
def Env.sharingDest (E : Env T) (id view : ℕ) : ℕ := (id + view) % E.nreplicas

/-- `for_view` of `on_enter_view(view)` at replica `id`. -/
def Env.forView (E : Env T) (id view : ℕ) : ℕ :=
  (2 + (view - 1) / E.nreplicas) * E.nreplicas + E.sharingDest id view + 1

/-- A sharing for view `v` that an output sends, and its receiver. -/
def Output.sharing (v : ℕ) : Output T → Option (ℕ × T.Sharing)
  | .send dest (.pvssTranscript t) => if t.forView = v then some (dest, t.pvssTranscript) else none
  | _ => none

/-- The sharings for view `v` that the end of `on_enter_view` keeps for the replica itself. -/
def Executed.kept (E : Env T) (e : Executed T) (v : ℕ) : List (ℕ × T.Sharing) :=
  match e.frame with
  | .sendSharing _ =>
    (((e.outcome E).rep.viewTranscripts v).drop (e.rep.viewTranscripts v).length).map
      fun sharing => (e.rep.id, sharing)
  | _ => []

/-- The sharings for view `v` that a call hands to a proposer. -/
def Executed.sharings (E : Env T) (e : Executed T) (v : ℕ) : List (ℕ × T.Sharing) :=
  (e.outcome E).out.filterMap (Output.sharing v) ++ e.kept E v

/-- The sharings for view `v` that the calls of a replica have handed to a proposer. -/
def sharings (E : Env T) (past : List (Executed T)) (v : ℕ) : List (ℕ × T.Sharing) :=
  past.flatMap fun e => e.sharings E v

/-- The call `on_enter_view(w)`. -/
def Frame.isEntry (w : ℕ) : Frame T → Bool
  | .onEnterView view => view == w
  | _ => false

/-- The end of `on_enter_view(w)`. -/
def Frame.isSharing (w : ℕ) : Frame T → Bool
  | .sendSharing view => view == w
  | _ => false

/-- How often `on_enter_view(w)` has been called. -/
def entries (past : List (Executed T)) (w : ℕ) : ℕ := past.countP fun e => e.frame.isEntry w

/-- The views in which `on_enter_view(w)` has been called, the last one first. -/
def entryViews (past : List (Executed T)) (w : ℕ) : List ℕ :=
  (past.filter fun e => e.frame.isEntry w).map fun e => e.rep.view

/-- Whether a call is the callback of a client command, in a view without a proposal of the
replica. -/
def Executed.passesGuard (e : Executed T) : Bool :=
  match e.frame with
  | .beatCallback => decide (e.rep.lastProposedView < e.rep.view)
  | _ => false

/-- The views in which callbacks of client commands have passed their guard, the last one first. -/
def commandViews (past : List (Executed T)) : List ℕ :=
  (past.filter Executed.passesGuard).map fun e => e.rep.view

/-- A call that is not the end of `on_enter_view`. -/
def Frame.noSharing : Frame T → Bool
  | .sendSharing _ => false
  | _ => true

/-- An output that is not a transcript. -/
def Output.noSharing : Output T → Bool
  | .send _ (.pvssTranscript _) => false
  | _ => true

/-- An effect without sharings. -/
def Outcome.NoSharing (o : Outcome T) : Prop :=
  (∀ fr ∈ o.calls, fr.noSharing = true) ∧ ∀ out ∈ o.out, out.noSharing = true

namespace Replica

variable {s : Replica T} {E : Env T} {fr : Frame T}

/-- Only `on_enter_view` makes a sharing, at its end. -/
theorem exec_noSharing (hentry : ∀ w, fr ≠ .onEnterView w) (hend : ∀ w, fr ≠ .sendSharing w) :
    (s.exec E fr).NoSharing := by
  constructor
  · intro fr' hfr'
    cases Frame.mayCall_of_mem hfr' <;> first | rfl | exact absurd rfl (hentry _)
  · intro out hout
    cases Frame.mayEmit_of_mem hout <;> first | rfl | exact absurd rfl (hend _)

/-! ## The end of `on_enter_view` -/

theorem calls_sendSharing {view : ℕ} : (s.sendSharing E view).calls = [] := by
  unfold sendSharing
  dsimp only
  repeat' split
  all_goals rfl

/-- The end of `on_enter_view(view)` throws when `create_sharing` does. Otherwise it keeps the
sharing or sends it. -/
theorem sendSharing_cases (view : ℕ) :
    (∃ e, s.sendSharing E view = s.raise (.pvss e)) ∨
    ∃ sharing, (E.pvss s.id).createSharing s.draws = .ok sharing ∧
      (s.sendSharing E view).error = none ∧
      ((E.sharingDest s.id view = s.id ∧ (s.sendSharing E view).out = [] ∧
          (s.sendSharing E view).rep.viewTranscripts =
            Function.update s.viewTranscripts (E.forView s.id view)
              (s.viewTranscripts (E.forView s.id view) ++ [sharing])) ∨
        (s.sendSharing E view).out = [.send (E.sharingDest s.id view)
            (.pvssTranscript ⟨s.id, E.forView s.id view, sharing⟩)] ∧
          (s.sendSharing E view).rep.viewTranscripts = s.viewTranscripts) := by
  unfold sendSharing
  dsimp only
  split
  · exact Or.inl ⟨_, rfl⟩
  · rename_i sharing hsharing
    refine Or.inr ⟨sharing, hsharing, ?_⟩
    by_cases hp : s.drawn.pm.proposer = s.drawn.id
    all_goals
      simp only [hp, if_true, if_false]
      split
      · rename_i hown
        exact ⟨rfl, Or.inl ⟨hown, rfl, rfl⟩⟩
      · exact ⟨rfl, Or.inr ⟨rfl, rfl⟩⟩

end Replica

/-- A call other than the end of `on_enter_view` hands over no sharing. -/
theorem Executed.sharings_eq_nil {E : Env T} {e : Executed T} (v : ℕ)
    (hend : ∀ w, e.frame ≠ .sendSharing w) : e.sharings E v = [] := by
  have hkept : e.kept E v = [] := by
    unfold kept
    split
    · rename_i w hframe
      exact absurd hframe (hend w)
    · rfl
  have hout : ∀ out ∈ (e.outcome E).out, out.noSharing = true := by
    by_cases hentry : ∃ w, e.frame = .onEnterView w
    · obtain ⟨w, hw⟩ := hentry
      intro out hmem
      rw [outcome, hw] at hmem
      exact absurd hmem List.not_mem_nil
    · exact (Replica.exec_noSharing (fun w hw => hentry ⟨w, hw⟩) hend).2
  rw [sharings, hkept, List.append_nil, List.filterMap_eq_nil_iff]
  intro out hmem
  have hno := hout out hmem
  unfold Output.noSharing at hno
  unfold Output.sharing
  split
  · cases hno
  · rfl

/-- The end of `on_enter_view(w)` hands one sharing for `for_view` to `dest`, and none for another
view, unless `create_sharing` throws. -/
theorem Executed.sharings_sendSharing {E : Env T} {e : Executed T} {w : ℕ} (v : ℕ)
    (hframe : e.frame = .sendSharing w) :
    ((e.outcome E).error ≠ none ∧ e.sharings E v = []) ∨
    ∃ sharing, (E.pvss e.rep.id).createSharing e.rep.draws = .ok sharing ∧
      (e.outcome E).error = none ∧ e.sharings E v =
        if E.forView e.rep.id w = v then [(E.sharingDest e.rep.id w, sharing)] else [] := by
  unfold sharings kept outcome
  rw [hframe]
  dsimp only [Replica.exec]
  rcases e.rep.sendSharing_cases (E := E) w with
    ⟨err, h⟩ | ⟨sharing, hsharing, herror, ⟨hdest, hout, hrep⟩ | ⟨hout, hrep⟩⟩
  · left
    rw [h]
    exact ⟨nofun, by simp [Replica.raise]⟩
  · refine Or.inr ⟨sharing, hsharing, herror, ?_⟩
    rw [hout, hrep, hdest]
    by_cases hv : E.forView e.rep.id w = v
    · simp [hv]
    · simp [hv, Function.update_of_ne (Ne.symm hv)]
  · refine Or.inr ⟨sharing, hsharing, herror, ?_⟩
    rw [hout, hrep]
    by_cases hv : E.forView e.rep.id w = v
    · simp [hv, Output.sharing]
    · simp [hv, Output.sharing]

/-- What is known of the entries of a replica that has not thrown: each call of `on_enter_view(w)`
has handed over one sharing or is about to, and there is one for each view that has been entered
after the first. -/
structure Serves (E : Env T) (i : ℕ) (past : List (Executed T)) (s : Replica T)
    (stack : List (Frame T)) : Prop where
  positive : ∀ fr ∈ stack, ∀ w, fr.isEntry w = true ∨ fr.isSharing w = true → 1 ≤ w
  served : ∀ w, 1 ≤ w → (sharings E past (E.forView i w)).length +
    stack.countP (Frame.isSharing w) = entries past w
  entered : ∀ w, 2 ≤ w → entries past w + stack.countP (Frame.isEntry w) =
    if w ≤ s.view then 1 else 0

namespace Replica

variable {s : Replica T} {E : Env T} {fr : Frame T}

/-- An entry hands over its sharing or leaves it to its end, and no other call has one. -/
theorem sharings_exec (hn : 1 ≤ E.nreplicas) {w : ℕ} (hw : 1 ≤ w)
    (hpositive : ∀ u, fr.isEntry u = true ∨ fr.isSharing u = true → 1 ≤ u)
    (hdone : (s.exec E fr).error = none) :
    (Executed.sharings E ⟨s.id, s, fr⟩ (E.forView s.id w)).length +
      (s.exec E fr).calls.countP (Frame.isSharing w) =
        [fr].countP (Frame.isSharing w) + [fr].countP (Frame.isEntry w) := by
  by_cases hentry : ∃ u, fr = .onEnterView u
  · obtain ⟨u, rfl⟩ := hentry
    rw [Executed.sharings_eq_nil _ (fun _ h => by cases h)]
    change 0 + [Frame.resolve _, .sendStatus, .sendSharing u].countP _ = _
    simp [List.countP_cons, Frame.isSharing, Frame.isEntry]
  · by_cases hend : ∃ u, fr = .sendSharing u
    · obtain ⟨u, rfl⟩ := hend
      have hu : 1 ≤ u := hpositive u (Or.inr (beq_self_eq_true u))
      rw [exec, calls_sendSharing]
      rcases Executed.sharings_sendSharing (E := E) (e := ⟨s.id, s, .sendSharing u⟩)
        (E.forView s.id w) rfl with ⟨herror, -⟩ | ⟨sharing, -, -, h⟩
      · exact absurd hdone herror
      · rw [h]
        by_cases huw : u = w
        · simp [huw, Frame.isSharing, Frame.isEntry]
        · have hne : E.forView s.id u ≠ E.forView s.id w :=
            fun heq => huw (eq_of_ahead_eq hn hu hw heq)
          simp [huw, hne, Frame.isSharing, Frame.isEntry]
    · have hcalls := (exec_noSharing (s := s) (E := E) (fun u h => hentry ⟨u, h⟩)
        fun u h => hend ⟨u, h⟩).1
      have hzero : (s.exec E fr).calls.countP (Frame.isSharing w) = 0 := by
        rw [List.countP_eq_zero]
        intro fr' hfr' hshares
        have hno := hcalls fr' hfr'
        cases fr' <;> first | cases hshares | cases hno
      rw [Executed.sharings_eq_nil _ (fun u h => hend ⟨u, h⟩), hzero]
      cases fr <;> first | rfl | exact absurd ⟨_, rfl⟩ hentry | exact absurd ⟨_, rfl⟩ hend

/-- A call that enters no view calls no entry. -/
theorem isEntry_of_not (henter : fr = .tryEnterView → ¬ s.Enters)
    (hcommand : fr = .beatCallback → ¬ s.lastProposedView < s.view) {fr' : Frame T}
    (hfr' : fr' ∈ (s.exec E fr).calls) (w : ℕ) : fr'.isEntry w = false := by
  apply eq_false_of_ne_true
  intro hentry
  cases fr' <;> try cases hentry
  exact not_onEnterView_of_not henter hcommand _ hfr'

theorem countP_isEntry_of_not (henter : fr = .tryEnterView → ¬ s.Enters)
    (hcommand : fr = .beatCallback → ¬ s.lastProposedView < s.view) (w : ℕ) :
    (s.exec E fr).calls.countP (Frame.isEntry w) = 0 := by
  rw [List.countP_eq_zero]
  intro fr' hfr' hentry
  rw [isEntry_of_not henter hcommand hfr' w] at hentry
  cases hentry

/-- `on_enter_view` is called once for each view that is entered after the first. -/
theorem entries_exec {w : ℕ} (hw : 2 ≤ w) :
    (s.exec E fr).calls.countP (Frame.isEntry w) + (if w ≤ s.view then 1 else 0) =
      if w ≤ (s.exec E fr).rep.view then 1 else 0 := by
  rcases entry_cases s fr with ⟨rfl, henters⟩ | ⟨rfl, hlast⟩ | ⟨henter, hcommand⟩
  · rw [exec, calls_of_enters henters, view_of_enters henters]
    rcases lt_trichotomy w (s.view + 1) with hlt | rfl | hlt
    · simp [Frame.isEntry, hlt.ne', hlt.le, Nat.le_of_lt_succ hlt]
    · simp [Frame.isEntry]
    · simp [Frame.isEntry, hlt.ne, not_le.mpr hlt, not_le.mpr ((Nat.lt_succ_self _).trans hlt)]
  · have hview : (s.beatCallback E).rep.view = s.view :=
      congrArg Views.view pmStep_beatCallback.views
    have hne : (1 == w) = false := beq_false_of_ne (by omega)
    rw [exec, calls_beatCallback hlast, hview]
    simp [Frame.isEntry, hne]
  · rw [countP_isEntry_of_not henter hcommand, exec_view_of_not henter, Nat.zero_add]

/-- No view before the first is entered. -/
theorem positive_exec {fr' : Frame T} (hfr' : fr' ∈ (s.exec E fr).calls)
    (hpositive : ∀ u, fr.isEntry u = true ∨ fr.isSharing u = true → 1 ≤ u) {w : ℕ}
    (h : fr'.isEntry w = true ∨ fr'.isSharing w = true) : 1 ≤ w := by
  rcases h with h | h
  · cases fr' <;> try cases h
    rename_i view
    have hview : view = w := eq_of_beq h
    subst hview
    cases schedules_exec hfr' with
    | other _ _ hnot => exact absurd trivial hnot
    | entered => exact Nat.le_add_left 1 _
    | command => exact le_refl 1
  · cases fr' <;> try cases h
    rename_i view
    have hview : view = w := eq_of_beq h
    subst hview
    by_cases hentry : ∃ u, fr = .onEnterView u
    · obtain ⟨u, rfl⟩ := hentry
      have hmem : Frame.sendSharing view ∈
          [Frame.resolve (.enterView u), .sendStatus, .sendSharing u] := hfr'
      have hu : view = u := by simpa using hmem
      exact hpositive view (Or.inl (beq_iff_eq.mpr hu.symm))
    · by_cases hend : ∃ u, fr = .sendSharing u
      · obtain ⟨u, rfl⟩ := hend
        rw [exec, calls_sendSharing] at hfr'
        cases hfr'
      · have hno := (exec_noSharing (s := s) (E := E) (fun u h => hentry ⟨u, h⟩)
          fun u h => hend ⟨u, h⟩).1 _ hfr'
        cases hno

end Replica

theorem Serves.exec {E : Env T} {i : ℕ} {past : List (Executed T)} {s : Replica T} {fr : Frame T}
    {stack : List (Frame T)} (hn : 1 ≤ E.nreplicas) (hid : s.id = i)
    (h : Serves E i past s (fr :: stack)) (hdone : (s.exec E fr).error = none) :
    Serves E i (⟨i, s, fr⟩ :: past) (s.exec E fr).rep ((s.exec E fr).calls ++ stack) := by
  subst hid
  have hpositive := h.positive fr List.mem_cons_self
  have hentries : ∀ w, entries (⟨s.id, s, fr⟩ :: past) w =
      entries past w + [fr].countP (Frame.isEntry w) := by
    intro w
    simp [entries, List.countP_cons]
  refine ⟨?_, ?_, ?_⟩
  · intro fr' hfr' w hw
    rcases List.mem_append.mp hfr' with hfr' | hfr'
    · exact Replica.positive_exec hfr' hpositive hw
    · exact h.positive fr' (List.mem_cons_of_mem fr hfr') w hw
  · intro w hw
    have hbefore := h.served w hw
    have hexec := Replica.sharings_exec hn hw hpositive hdone
    rw [← List.singleton_append, List.countP_append] at hbefore
    rw [hentries, List.countP_append, sharings, List.flatMap_cons, List.length_append]
    change _ + (sharings E past (E.forView s.id w)).length + _ = _
    omega
  · intro w hw
    have hbefore := h.entered w hw
    have hexec : _ = if w ≤ (s.exec E fr).rep.view then 1 else 0 := Replica.entries_exec hw
    rw [← List.singleton_append, List.countP_append] at hbefore
    rw [hentries, List.countP_append]
    omega

/-- When the entries of a replica that has not thrown were called: one that has not begun is the
next call. Entries of view `1` are called in the views in which commands passed the guard, and
entries of a later view in that view. -/
structure Timely (past : List (Executed T)) (s : Replica T) (stack : List (Frame T)) : Prop where
  next : ∀ fr ∈ stack.tail, ∀ w, fr.isEntry w = false
  commands : List.replicate (stack.countP (Frame.isEntry 1)) s.view ++ entryViews past 1 =
    commandViews past
  timely : ∀ w, 2 ≤ w →
    ∀ u ∈ List.replicate (stack.countP (Frame.isEntry w)) s.view ++ entryViews past w, u = w

theorem entryViews_cons {i : ℕ} {s : Replica T} {fr : Frame T} (past : List (Executed T)) (w : ℕ) :
    entryViews (⟨i, s, fr⟩ :: past) w =
      List.replicate ([fr].countP (Frame.isEntry w)) s.view ++ entryViews past w := by
  cases h : fr.isEntry w
  all_goals simp [entryViews, h]

namespace Replica

variable {s : Replica T} {E : Env T} {fr : Frame T}

/-- An entry is the only call of the call that makes it. -/
theorem isEntry_tail {fr' : Frame T} (hfr' : fr' ∈ (s.exec E fr).calls.tail) (w : ℕ) :
    fr'.isEntry w = false := by
  rcases s.entry_cases fr with ⟨rfl, henters⟩ | ⟨rfl, hlast⟩ | ⟨henter, hcommand⟩
  · rw [exec, calls_of_enters henters] at hfr'
    cases hfr'
  · rw [exec, calls_beatCallback hlast] at hfr'
    cases hfr'
  · exact isEntry_of_not henter hcommand (List.mem_of_mem_tail hfr') w

/-- An entry of a view after the first is called when that view has begun. -/
theorem view_of_isEntry {w : ℕ} (hw : 2 ≤ w)
    (hcount : (s.exec E fr).calls.countP (Frame.isEntry w) ≠ 0) :
    (s.exec E fr).rep.view = w := by
  obtain ⟨fr', hfr', hentry⟩ := List.countP_pos_iff.mp (Nat.pos_of_ne_zero hcount)
  cases fr' <;> try cases hentry
  rename_i view
  have hview : view = w := eq_of_beq hentry
  subst hview
  cases schedules_exec hfr' with
  | other _ _ hnot => exact absurd trivial hnot
  | entered henters => exact view_of_enters henters
  | command => omega

/-- An entry of view `1` is called by the callback of a command, in the view of the command. -/
theorem commandViews_cons (i : ℕ) (past : List (Executed T)) (hpos : 1 ≤ s.view) :
    List.replicate ((s.exec E fr).calls.countP (Frame.isEntry 1)) (s.exec E fr).rep.view ++
      commandViews past = commandViews (⟨i, s, fr⟩ :: past) := by
  rcases s.entry_cases fr with ⟨rfl, henters⟩ | ⟨rfl, hlast⟩ | ⟨henter, hcommand⟩
  · have hne : (s.view + 1 == 1) = false := beq_false_of_ne (by omega)
    rw [exec, calls_of_enters henters]
    simp [Frame.isEntry, hne, commandViews, Executed.passesGuard]
  · have hview : (s.beatCallback E).rep.view = s.view :=
      congrArg Views.view pmStep_beatCallback.views
    rw [exec, calls_beatCallback hlast, hview]
    simp [Frame.isEntry, commandViews, Executed.passesGuard, hlast]
  · have hguard : Executed.passesGuard ⟨i, s, fr⟩ = false := by
      unfold Executed.passesGuard
      split
      · rename_i hframe
        exact decide_eq_false (hcommand hframe)
      · rfl
    rw [countP_isEntry_of_not henter hcommand]
    simp [commandViews, hguard]

end Replica

theorem Timely.exec {E : Env T} {i : ℕ} {past : List (Executed T)} {s : Replica T} {fr : Frame T}
    {stack : List (Frame T)} (hpos : 1 ≤ s.view) (h : Timely past s (fr :: stack)) :
    Timely (⟨i, s, fr⟩ :: past) (s.exec E fr).rep ((s.exec E fr).calls ++ stack) := by
  have hstack : ∀ w, stack.countP (Frame.isEntry w) = 0 := by
    intro w
    rw [List.countP_eq_zero]
    intro fr' hfr' hentry
    rw [h.next fr' hfr' w] at hentry
    cases hentry
  -- an entry that runs now is no longer due, but in the past
  have hmoved : ∀ w, entryViews (⟨i, s, fr⟩ :: past) w =
      List.replicate ((fr :: stack).countP (Frame.isEntry w)) s.view ++ entryViews past w := by
    intro w
    rw [entryViews_cons, ← List.singleton_append (l := stack), List.countP_append, hstack,
      Nat.add_zero]
  refine ⟨?_, ?_, ?_⟩
  · intro fr' hfr' w
    rcases hcalls : (s.exec E fr).calls with - | ⟨first, rest⟩
    · rw [hcalls] at hfr'
      exact h.next fr' (List.mem_of_mem_tail hfr') w
    · rw [hcalls] at hfr'
      rcases List.mem_append.mp hfr' with hfr' | hfr'
      · have htail : fr' ∈ (s.exec E fr).calls.tail := by
          rw [hcalls]
          exact hfr'
        exact Replica.isEntry_tail htail w
      · exact h.next fr' hfr' w
  · rw [List.countP_append, hstack, hmoved, h.commands]
    exact Replica.commandViews_cons i past hpos
  · intro w hw u hu
    rw [List.countP_append, hstack, hmoved] at hu
    rcases List.mem_append.mp hu with hu | hu
    · obtain ⟨hcount, rfl⟩ := List.mem_replicate.mp hu
      exact Replica.view_of_isEntry hw hcount
    · exact h.timely w hw u hu

namespace System

variable {E : Env T} {F : Faults T} {ok : System T → ℕ → Frame T → Prop} {σ : System T}

theorem Run.timely (h : Run E F ok σ) (i : ℕ) (hcrashed : (σ.nodes i).crashed = none) :
    Timely (σ.history i) (σ.nodes i).rep (σ.nodes i).stack := by
  revert hcrashed
  refine h.history_induction (I := fun _ past x => x.crashed = none →
    Timely past x.rep x.stack) ?_ ?_ ?_ i
  · intro i _
    exact ⟨fun fr hfr => absurd hfr List.not_mem_nil, rfl,
      fun w _ u hu => absurd hu List.not_mem_nil⟩
  · intro i past x ev hx hidle _ hcrashed
    have htimely := hx hcrashed
    rw [hidle.1] at htimely
    refine ⟨fun fr hfr => absurd hfr List.not_mem_nil, ?_, fun w hw => ?_⟩
    · refine Eq.trans ?_ htimely.commands
      cases ev <;> rfl
    · have hpast := htimely.timely w hw
      cases ev <;> exact hpast
  · intro σ i fr stack hrun _ _ hx hstack hcrashed
    have htimely := hx (hrun.crashed_eq_none hstack)
    rw [hstack] at htimely
    rw [Node.after_of_done hcrashed]
    exact htimely.exec (hrun.view_pos i)

end System

end OptRand.Hotstuff
