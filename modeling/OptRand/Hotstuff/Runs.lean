import OptRand.Hotstuff.Frames

/-!
# Rules for runs

An invariant of the replicas is checked on what one event and one call do to one replica
(`System.Run.node_induction`). A call recorded in the trace was made in a state of the same
kind of runs (`System.Run.exists_of_trace`), so what holds in every state also held where the
call was made.
-/

namespace OptRand.Hotstuff

variable {T : PayloadTypes}

namespace Node

variable {o : Outcome T} {stack : List (Frame T)}

theorem rep_after : (after o stack).rep = o.rep := by
  unfold after
  split <;> rfl

theorem crashed_after : (after o stack).crashed = o.error := by
  unfold after
  split
  · rename_i hnone
    exact hnone.symm
  · rename_i hsome
    exact hsome.symm

theorem after_of_done (h : (after o stack).crashed = none) :
    after o stack = ⟨o.rep, o.calls ++ stack, none⟩ := by
  rw [crashed_after] at h
  unfold after
  rw [h]

theorem stack_after (o : Outcome T) (stack : List (Frame T)) :
    (after o stack).stack = [] ∨ (after o stack).stack = o.calls ++ stack := by
  unfold after
  split
  · exact Or.inr rfl
  · exact Or.inl rfl

theorem mem_stack_after {fr : Frame T} (h : fr ∈ (after o stack).stack) :
    fr ∈ o.calls ∨ fr ∈ stack := by
  rcases stack_after o stack with hstack | hstack
  · rw [hstack] at h
    cases h
  · rw [hstack] at h
    exact List.mem_append.mp h

end Node

namespace System

variable {E : Env T} {F : Faults T} {ok : System T → ℕ → Frame T → Prop} {σ : System T}

theorem Run.mono {ok' : System T → ℕ → Frame T → Prop} (hok : ∀ σ i fr, ok σ i fr → ok' σ i fr)
    (h : Run E F ok σ) : Run E F ok' σ := by
  induction h with
  | init => exact Run.init
  | event _ i ev honest idle possible ih => exact ih.event i ev honest idle possible
  | frame _ i fr stack honest top meets ih => exact ih.frame i fr stack honest top (hok _ i fr meets)

/-- Induction over the steps of one replica at a time. -/
theorem Run.node_induction {I : ℕ → Node T → Prop} (hinit : ∀ i, I i (Node.init E i))
    (hevent : ∀ i x ev, I i x → x.Idle → ev.enabled x.rep → I i (x.take ev))
    (hframe : ∀ σ i fr stack, Run E F ok σ → Honest E F i → ok σ i fr → I i (σ.nodes i) →
      (σ.nodes i).stack = fr :: stack → I i (Node.after ((σ.nodes i).rep.exec E fr) stack))
    (h : Run E F ok σ) (i : ℕ) : I i (σ.nodes i) := by
  induction h generalizing i with
  | init => exact hinit i
  | @event σ _ j ev _ idle possible ih =>
    by_cases hij : i = j
    · subst hij
      simpa [System.take] using hevent i _ ev (ih i) idle possible.1
    · simpa [System.take, hij] using ih i
  | @frame σ run j fr stack honest top meets ih =>
    by_cases hij : i = j
    · subst hij
      simpa [System.runFrame] using hframe σ i fr stack run honest meets (ih i) top
    · simpa [System.runFrame, hij] using ih i

/-- The calls that replica `i` has run, the last one first. -/
def history (σ : System T) (i : ℕ) : List (Executed T) := σ.trace.filter fun e => e.node = i

theorem mem_history {σ : System T} {i : ℕ} {e : Executed T} :
    e ∈ σ.history i ↔ e ∈ σ.trace ∧ e.node = i := by
  simp [history]

/-- Induction over the steps of one replica, with what it has run before. -/
theorem Run.history_induction {I : ℕ → List (Executed T) → Node T → Prop}
    (hinit : ∀ i, I i [] (Node.init E i))
    (hevent : ∀ i past x ev, I i past x → x.Idle → ev.enabled x.rep → I i past (x.take ev))
    (hframe : ∀ σ i fr stack, Run E F ok σ → Honest E F i → ok σ i fr →
      I i (σ.history i) (σ.nodes i) → (σ.nodes i).stack = fr :: stack →
      I i (⟨i, (σ.nodes i).rep, fr⟩ :: σ.history i)
        (Node.after ((σ.nodes i).rep.exec E fr) stack))
    (h : Run E F ok σ) (i : ℕ) : I i (σ.history i) (σ.nodes i) := by
  induction h generalizing i with
  | init => exact hinit i
  | @event σ _ j ev _ idle possible ih =>
    by_cases hij : i = j
    · subst hij
      simpa [System.take, history] using hevent i _ _ ev (ih i) idle possible.1
    · simpa [System.take, history, hij] using ih i
  | @frame σ run j fr stack honest top meets ih =>
    by_cases hij : i = j
    · subst hij
      simpa [System.runFrame, history] using hframe σ i fr stack run honest meets (ih i) top
    · have hji : ¬ j = i := fun h => hij h.symm
      simpa [System.runFrame, history, hij, hji] using ih i

/-- Induction over the steps of all replicas, for what more calls in the trace do not change. -/
theorem Run.rep_induction {I : List (Executed T) → ℕ → Replica T → Prop}
    (hinit : ∀ i, I [] i (E.init i))
    (hmono : ∀ past e i s, I past i s → I (e :: past) i s)
    (hframe : ∀ σ i fr stack, Run E F ok σ → Honest E F i → ok σ i fr →
      I σ.trace i (σ.nodes i).rep → (σ.nodes i).stack = fr :: stack →
      I (⟨i, (σ.nodes i).rep, fr⟩ :: σ.trace) i ((σ.nodes i).rep.exec E fr).rep)
    (h : Run E F ok σ) (i : ℕ) : I σ.trace i (σ.nodes i).rep := by
  induction h generalizing i with
  | init => exact hinit i
  | @event σ _ j ev _ _ _ ih =>
    by_cases hij : i = j
    · subst hij
      simpa [System.take, Node.take] using ih i
    · simpa [System.take, hij] using ih i
  | @frame σ run j fr stack honest top meets ih =>
    by_cases hij : i = j
    · subst hij
      simpa [System.runFrame, Node.rep_after] using hframe σ i fr stack run honest meets (ih i) top
    · simpa [System.runFrame, hij] using hmono σ.trace ⟨j, (σ.nodes j).rep, fr⟩ i _ (ih i)

/-- A replica that has thrown runs nothing more. -/
theorem Run.crashed_eq_none (h : Run E F ok σ) {i : ℕ} {fr : Frame T} {stack : List (Frame T)}
    (hstack : (σ.nodes i).stack = fr :: stack) : (σ.nodes i).crashed = none := by
  have hne : (σ.nodes i).stack ≠ [] := by
    rw [hstack]
    exact List.cons_ne_nil _ _
  clear hstack
  revert hne
  refine h.node_induction (I := fun _ x => x.stack ≠ [] → x.crashed = none) ?_ ?_ ?_ i
  · exact fun i hstack => rfl
  · exact fun i x ev _ hidle _ _ => hidle.2
  · intro σ i fr stack _ _ _ _ _ hstack
    unfold Node.after at hstack ⊢
    split
    · rfl
    · rename_i heq
      rw [heq] at hstack
      exact absurd rfl hstack

/-- A call in the trace was made in a state of a run, with the calls before it as trace. -/
theorem Run.exists_of_trace (h : Run E F ok σ) {later earlier : List (Executed T)}
    {e : Executed T} (ht : σ.trace = later ++ e :: earlier) :
    ∃ σ' stack, Run E F ok σ' ∧ σ'.trace = earlier ∧ Honest E F e.node ∧
      (σ'.nodes e.node).rep = e.rep ∧ (σ'.nodes e.node).stack = e.frame :: stack ∧
      ok σ' e.node e.frame := by
  induction h generalizing later with
  | init => cases later <;> cases ht
  | event _ i ev _ _ _ ih => exact ih ht
  | @frame σ run i fr stack honest top meets ih =>
    cases later with
    | nil =>
      obtain ⟨rfl, rfl⟩ := List.cons.inj ht
      exact ⟨σ, stack, run, rfl, honest, rfl, top, meets⟩
    | cons _ later => exact ih (List.cons.inj ht).2

theorem Run.exists_of_mem_trace (h : Run E F ok σ) {e : Executed T} (he : e ∈ σ.trace) :
    ∃ σ' stack, Run E F ok σ' ∧ σ'.trace <:+ σ.trace ∧ Honest E F e.node ∧
      (σ'.nodes e.node).rep = e.rep ∧ (σ'.nodes e.node).stack = e.frame :: stack ∧
      ok σ' e.node e.frame := by
  obtain ⟨later, earlier, ht⟩ := List.append_of_mem he
  obtain ⟨σ', stack, hrun, htrace, hrest⟩ := h.exists_of_trace ht
  refine ⟨σ', stack, hrun, ?_, hrest⟩
  rw [htrace, ht]
  exact (List.suffix_cons e earlier).trans (List.suffix_append later _)

/-- What no call decreases is in no earlier state of a replica larger than now. -/
theorem Run.le_of_mem_trace {α : Type*} [Preorder α] {m : Replica T → α}
    (hm : ∀ s fr, m s ≤ m (s.exec E fr).rep) (h : Run E F ok σ) {e : Executed T}
    (he : e ∈ σ.trace) : m (e.outcome E).rep ≤ m (σ.nodes e.node).rep := by
  induction h with
  | init => cases he
  | @event σ _ j ev _ _ _ ih =>
    by_cases hj : e.node = j
    · subst hj
      simpa [System.take, Node.take] using ih he
    · simpa [System.take, hj] using ih he
  | @frame σ run j fr stack _ _ _ ih =>
    rcases List.mem_cons.mp he with rfl | hmem
    · simp [System.runFrame, Node.rep_after, Executed.outcome]
    · by_cases hj : e.node = j
      · subst hj
        have hle := hm (σ.nodes e.node).rep fr
        simpa [System.runFrame, Node.rep_after] using (ih hmem).trans hle
      · simpa [System.runFrame, hj] using ih hmem

/-! ## The states of a replica -/

/-- A state that replica `i` is or was in. -/
def Visited (σ : System T) (i : ℕ) (s : Replica T) : Prop :=
  s = (σ.nodes i).rep ∨ ∃ e ∈ σ.trace, e.node = i ∧ e.rep = s

theorem Visited.take {i j : ℕ} {s : Replica T} {ev : Event T} (h : σ.Visited i s) :
    (σ.take j ev).Visited i s := by
  rcases h with rfl | h
  · left
    by_cases hij : i = j
    · subst hij
      simp [System.take, Node.take]
    · simp [System.take, hij]
  · exact Or.inr h

theorem Visited.runFrame {i j : ℕ} {s : Replica T} {fr : Frame T} {stack : List (Frame T)}
    (h : σ.Visited i s) : (σ.runFrame E j fr stack).Visited i s := by
  rcases h with rfl | ⟨e, he, hnode, hrep⟩
  · by_cases hij : i = j
    · subst hij
      exact Or.inr ⟨_, List.mem_cons_self, rfl, rfl⟩
    · left
      simp [System.runFrame, hij]
  · exact Or.inr ⟨e, List.mem_cons_of_mem _ he, hnode, hrep⟩

/-- The view of a replica was never larger than now. -/
theorem Run.view_le_of_visited (h : Run E F ok σ) {i : ℕ} {s : Replica T}
    (hs : σ.Visited i s) : s.view ≤ (σ.nodes i).rep.view := by
  rcases hs with rfl | ⟨e, he, rfl, rfl⟩
  · exact le_rfl
  · exact (e.rep.view_le_exec e.frame).trans (h.le_of_mem_trace Replica.view_le_exec he)

/-- Views are counted from `1`. -/
theorem Run.view_pos (h : Run E F ok σ) (i : ℕ) : 1 ≤ (σ.nodes i).rep.view := by
  refine h.node_induction (I := fun _ x => 1 ≤ x.rep.view) (fun i => le_rfl) ?_ ?_ i
  · exact fun i x ev hx _ _ => hx
  · intro σ i fr stack _ _ _ hx _
    rw [Node.rep_after]
    rcases Replica.exec_view (s := (σ.nodes i).rep) (E := E) fr with hview | ⟨-, hview⟩
    all_goals omega

/-- A replica has been in every view up to its own. -/
theorem Run.exists_visited (h : Run E F ok σ) {i v : ℕ} (hv : 1 ≤ v)
    (hle : v ≤ (σ.nodes i).rep.view) : ∃ s, σ.Visited i s ∧ s.view = v := by
  induction h with
  | init => exact ⟨_, Or.inl rfl, le_antisymm hv hle⟩
  | @event σ _ j ev _ _ _ ih =>
    have hsame : ((σ.take j ev).nodes i).rep = (σ.nodes i).rep := by
      by_cases hij : i = j
      · subst hij
        simp [System.take, Node.take]
      · simp [System.take, hij]
    rw [hsame] at hle
    obtain ⟨s, hs, hview⟩ := ih hle
    exact ⟨s, hs.take, hview⟩
  | @frame σ _ j fr stack _ _ _ ih =>
    by_cases hold : v ≤ (σ.nodes i).rep.view
    · obtain ⟨s, hs, hview⟩ := ih hold
      exact ⟨s, hs.runFrame, hview⟩
    · refine ⟨_, Or.inl rfl, ?_⟩
      by_cases hij : i = j
      · subst hij
        simp only [System.runFrame, Function.update_self, Node.rep_after] at hle ⊢
        rcases Replica.exec_view (s := (σ.nodes i).rep) (E := E) fr with hview | ⟨-, hview⟩
        all_goals omega
      · simp only [System.runFrame, Function.update_of_ne hij] at hle
        exact absurd hle hold

/-- A replica keeps its identity. -/
theorem Run.rep_id (h : Run E F ok σ) (i : ℕ) : (σ.nodes i).rep.id = i := by
  refine h.node_induction (I := fun i x => x.rep.id = i) (fun i => rfl) ?_ ?_ i
  · intro i x ev hx _ _
    exact hx
  · intro σ i fr stack _ _ _ hx _
    rw [Node.rep_after, Replica.exec_id]
    exact hx

end System

end OptRand.Hotstuff
