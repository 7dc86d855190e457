import OptRand.Promises.Gathering

/-!
# When promises are settled

What a callback is to settle is settled when nothing is being executed (`Answered`), unless the
lambda returned a promise that is pending. With the reasons of `Outcome` this determines the
promises of `all` (`all_settled`), of `race` (`race_settled`) and of `then` (`then_settled`) in all
the states between events.
-/

namespace OptRand.Promises.Machine

variable {F V : Type} {s t : Machine F V} {stack : List (Frame F V)} {pm n m npm idx : ℕ}
  {side : Side} {func : Side → Option (Func F)} {waited : Bool} {v : Any V}
  {body : F → Any V → Code F V} {frame : Frame F V}

/-- The promise is settled, or going to be. -/
def Handled (s : Machine F V) (stack : List (Frame F V)) (m : ℕ) : Prop :=
  (s.heap m).state ≠ .pending ∨ ∃ side value, .settle m side value ∈ stack

/-- The lambda of the `then` that returned `npm` has returned a promise, which `npm` follows. -/
def Follows (s : Machine F V) (npm : ℕ) : Prop :=
  ∃ x q waited, s.origins x = .child q (passFuncs npm) waited

/-- What the callbacks that were called have settled, or are about to. -/
structure Answered (s : Machine F V) (stack : List (Frame F V)) : Prop where
  passed : ∀ e ∈ s.log, ∀ pm func waited, s.origins e.npm = .child pm func waited →
    (∀ f, func e.side ≠ some (.user f)) → s.Handled stack e.npm
  user : ∀ e ∈ s.log, ∀ pm func waited f, s.origins e.npm = .child pm func waited →
    func e.side = some (.user f) → s.Handled stack e.npm ∨
      (∃ c, .code c (some (e.side, e.npm)) ∈ stack) ∨ s.Follows e.npm
  settles : ∀ e ∈ s.log, ∀ pm func waited d m, s.origins e.npm = .child pm func waited →
    func e.side = some (.settles d m) → s.Handled stack m
  races : ∀ npm pms, s.origins npm = .race pms → ∀ pm ∈ pms,
    (∃ x waited, s.origins x = .child pm (passFuncs npm) waited) ∨
      ∃ rest, .race rest npm ∈ stack ∧ pm ∈ rest

/-- What is handled stays so, if a promise that was to be settled is. -/
theorem Handled.step (h : s.Handled (frame :: stack) m) (hext : s.Extends t)
    (hsettle : ∀ side value, frame = .settle m side value → (t.heap m).state ≠ .pending)
    (frames : List (Frame F V)) : t.Handled (frames ++ stack) m := by
  rcases h with hne | ⟨side, value, hmem⟩
  · left
    cases hstate : (s.heap m).state with
    | pending => exact absurd hstate hne
    | settled side =>
      rw [(hext.keeps m side hstate).1]
      intro heq
      cases heq
  · rcases List.mem_cons.mp hmem with heq | hmem
    · exact Or.inl (hsettle side value heq.symm)
    · exact Or.inr ⟨side, value, List.mem_append_right _ hmem⟩

theorem exists_child_of_extends (hs : s.Sound stack) (hext : s.Extends t) {x : ℕ}
    (h : ∃ waited, s.origins x = .child pm func waited) :
    ∃ waited, t.origins x = .child pm func waited := by
  obtain ⟨waited, horigin⟩ := h
  exact ⟨waited, (hext.origins x (hs.accounted.lt_next horigin)).trans horigin⟩

/-- What is asked of a step for what is to be settled, and for the loops of `race`. -/
structure Answers (s t : Machine F V) (frame : Frame F V) (frames : List (Frame F V)) : Prop where
  settle : ∀ m side value, frame = .settle m side value → (t.heap m).state ≠ .pending
  code : ∀ c side npm, frame = .code c (some (side, npm)) →
    (∃ c', .code c' (some (side, npm)) ∈ frames) ∨ (∃ value, .settle npm side value ∈ frames) ∨
      t.Follows npm
  race : ∀ rest npm, frame = .race rest npm → ∀ pm ∈ rest,
    (∃ x waited, t.origins x = .child pm (passFuncs npm) waited) ∨
      ∃ rest', .race rest' npm ∈ frames ∧ pm ∈ rest'
  races : ∀ npm, s.next ≤ npm → ∀ pms, t.origins npm = .race pms → .race pms npm ∈ frames

/-- A step that calls nothing. -/
theorem Answered.step (h : s.Answered (frame :: stack)) (hs : s.Sound (frame :: stack))
    (hext : s.Extends t) (hlog : t.log = s.log) {frames : List (Frame F V)}
    (hanswers : s.Answers t frame frames) : t.Answered (frames ++ stack) := by
  have horigin : ∀ e ∈ s.log, t.origins e.npm = s.origins e.npm := by
    intro e he
    obtain ⟨pm, func, waited, horigin, -⟩ := hs.accounted.log e he
    exact hext.origins e.npm (hs.accounted.lt_next horigin)
  refine ⟨?_, ?_, ?_, ?_⟩
  · rw [hlog]
    intro e he pm func waited hchild hne
    rw [horigin e he] at hchild
    exact (h.passed e he pm func waited hchild hne).step hext (hanswers.settle _) frames
  · rw [hlog]
    intro e he pm func waited f hchild hf
    rw [horigin e he] at hchild
    rcases h.user e he pm func waited f hchild hf with hhandled | ⟨c, hmem⟩ | ⟨x, q, hfollows⟩
    · exact Or.inl (hhandled.step hext (hanswers.settle _) frames)
    · rcases List.mem_cons.mp hmem with heq | hmem
      · rcases hanswers.code c e.side e.npm heq.symm with ⟨c', hmem⟩ | ⟨value, hmem⟩ | hfollows
        · exact Or.inr (Or.inl ⟨c', List.mem_append_left _ hmem⟩)
        · exact Or.inl (Or.inr ⟨_, value, List.mem_append_left _ hmem⟩)
        · exact Or.inr (Or.inr hfollows)
      · exact Or.inr (Or.inl ⟨c, List.mem_append_right _ hmem⟩)
    · exact Or.inr (Or.inr ⟨x, q, exists_child_of_extends hs hext hfollows⟩)
  · rw [hlog]
    intro e he pm func waited d m hchild hf
    rw [horigin e he] at hchild
    exact (h.settles e he pm func waited d m hchild hf).step hext (hanswers.settle _) frames
  · intro npm pms hrace pm hpm
    by_cases hnew : npm < s.next
    · rw [hext.origins npm hnew] at hrace
      rcases h.races npm pms hrace pm hpm with ⟨x, hchild⟩ | ⟨rest, hmem, hrest⟩
      · exact Or.inl ⟨x, exists_child_of_extends hs hext hchild⟩
      · rcases List.mem_cons.mp hmem with heq | hmem
        · rcases hanswers.race rest npm heq.symm pm hrest with hchild | ⟨rest', hmem, hrest'⟩
          · exact Or.inl hchild
          · exact Or.inr ⟨rest', List.mem_append_left _ hmem, hrest'⟩
        · exact Or.inr ⟨rest, List.mem_append_right _ hmem, hrest⟩
    · have hmem := hanswers.races npm (by omega) pms hrace
      exact Or.inr ⟨pms, List.mem_append_left _ hmem, hpm⟩

/-- A step that has nothing to settle. -/
theorem Answers.of_same (horigins : t.origins = s.origins) (hs : s.Sound stack)
    (hsettle : ∀ m side value, frame ≠ .settle m side value)
    (hcode : ∀ c side npm, frame ≠ .code c (some (side, npm)))
    (hrace : ∀ pm rest npm, frame ≠ .race (pm :: rest) npm) (frames : List (Frame F V)) :
    s.Answers t frame frames where
  settle m side value heq := absurd heq (hsettle m side value)
  code c side npm heq := absurd heq (hcode c side npm)
  race rest npm heq pm hpm := by
    cases rest with
    | nil => cases hpm
    | cons pm' rest => exact absurd heq (hrace pm' rest npm)
  races npm hnpm pms horigin := by
    rw [horigins, hs.accounted.origins_of_le npm hnpm] at horigin
    cases horigin

/-- The call of a callback. -/
theorem Answered.call {cb : Callback F} (h : s.Answered (.call cb :: s.stack))
    (hs : s.Sound (.call cb :: s.stack)) :
    ((s.record cb).push (s.run body cb)).Answered (s.run body cb ++ s.stack) := by
  obtain ⟨⟨func, waited, horigin, hfunc⟩, -⟩ := hs.accounted.due cb List.mem_cons_self
  have hext : s.Extends ((s.record cb).push (s.run body cb)) := (Exec.call cb).extends
  -- what was called before
  have hbefore : Machine.Answered { (s.record cb).push (s.run body cb) with log := s.log }
      (s.run body cb ++ s.stack) := by
    have hext' : s.Extends { (s.record cb).push (s.run body cb) with log := s.log } :=
      ⟨hext.keeps, hext.next, hext.origins, hext.forced⟩
    refine h.step hs hext' rfl ?_
    refine Answers.of_same ?_ hs ?_ ?_ ?_ _
    · rfl
    · intro m side value heq
      cases heq
    · intro c side npm heq
      cases heq
    · intro pm rest npm heq
      cases heq
  have hnpm : (∀ f, cb.func ≠ some (.user f)) →
      ∃ value, .settle cb.npm cb.side value ∈ s.run body cb := by
    intro hne
    unfold Machine.run
    split
    · exact ⟨_, List.mem_singleton_self _⟩
    · rename_i f hf
      exact absurd hf (hne f)
    · exact ⟨_, List.mem_cons_of_mem _ (List.mem_singleton_self _)⟩
    · exact ⟨_, List.mem_cons_of_mem _ (List.mem_singleton_self _)⟩
  refine ⟨?_, ?_, ?_, hbefore.races⟩
  · intro e he pm func' waited' hchild hne
    rcases List.mem_cons.mp he with rfl | he
    · rw [show ((s.record cb).push (s.run body cb)).origins = s.origins from rfl, horigin] at hchild
      cases hchild
      obtain ⟨value, hmem⟩ := hnpm (by rw [hfunc]; exact hne)
      exact Or.inr ⟨_, value, List.mem_append_left _ hmem⟩
    · exact hbefore.passed e he pm func' waited' hchild hne
  · intro e he pm func' waited' f hchild hf
    rcases List.mem_cons.mp he with rfl | he
    · rw [show ((s.record cb).push (s.run body cb)).origins = s.origins from rfl, horigin] at hchild
      cases hchild
      have hf : cb.func = some (.user f) := hfunc.trans hf
      refine Or.inr (Or.inl ⟨body f (s.argument cb), List.mem_append_left _ ?_⟩)
      unfold Machine.run
      rw [hf]
      exact List.mem_singleton_self _
    · exact hbefore.user e he pm func' waited' f hchild hf
  · intro e he pm func' waited' d m hchild hf
    rcases List.mem_cons.mp he with rfl | he
    · rw [show ((s.record cb).push (s.run body cb)).origins = s.origins from rfl, horigin] at hchild
      cases hchild
      have hf : cb.func = some (.settles d m) := hfunc.trans hf
      refine Or.inr ⟨d, some (s.argument cb), List.mem_append_left _ ?_⟩
      unfold Machine.run
      rw [hf]
      exact List.mem_cons_self
    · exact hbefore.settles e he pm func' waited' d m hchild hf

theorem origins_settle {value : Option (Any V)} :
    (s.settle pm side value).origins = s.origins ∧ (s.settle pm side value).log = s.log := by
  unfold Machine.settle
  split
  all_goals exact ⟨rfl, rfl⟩

variable (pm func) in
/-- What is above the frames of a `then` when it returns. -/
theorem exists_stack_subscribe {u : Machine F V} {frames : List (Frame F V)}
    (hstack : u.stack = frames ++ stack) : ∃ frames', (∀ f ∈ frames, f ∈ frames') ∧
      (u.subscribe pm func).stack = frames' ++ stack := by
  rcases stack_subscribe u pm func with hsame | ⟨cb, hcall⟩
  · exact ⟨frames, fun _ hf => hf, hsame.trans hstack⟩
  · refine ⟨.call cb :: frames, fun _ hf => List.mem_cons_of_mem _ hf, ?_⟩
    rw [hcall, hstack]
    rfl

/-- A `then`, after some frames were put on the stack. -/
theorem Answered.subscribe (h : s.Answered (frame :: s.stack)) (hs : s.Sound (frame :: s.stack))
    {u : Machine F V} {frames : List (Frame F V)} (hstack : u.stack = frames ++ s.stack)
    (hheap : u.heap = s.heap) (hnext : u.next = s.next) (horigins : u.origins = s.origins)
    (hlog : u.log = s.log) (hforced : u.forced = s.forced)
    (hsettle : ∀ m side value, frame ≠ .settle m side value)
    (hcode : ∀ c side npm, frame = .code c (some (side, npm)) →
      (∃ c', .code c' (some (side, npm)) ∈ frames) ∨ (u.subscribe pm func).Follows npm)
    (hrace : ∀ rest npm, frame = .race rest npm → ∀ pm' ∈ rest,
      (∃ x waited, (u.subscribe pm func).origins x = .child pm' (passFuncs npm) waited) ∨
        ∃ rest', .race rest' npm ∈ frames ∧ pm' ∈ rest') :
    (u.subscribe pm func).Answered (u.subscribe pm func).stack := by
  have hext : s.Extends (u.subscribe pm func) := by
    refine Extends.subscribe ?_
    exact .of_eq hheap hnext horigins (by rw [hforced]; exact List.Subset.refl _)
  obtain ⟨frames', hsub, hstack'⟩ := exists_stack_subscribe pm func hstack
  rw [hstack']
  refine h.step hs hext (log_subscribe.trans hlog) ⟨?_, ?_, ?_, ?_⟩
  · intro m side value heq
    exact absurd heq (hsettle m side value)
  · intro c side npm heq
    rcases hcode c side npm heq with ⟨c', hmem⟩ | hfollows
    · exact Or.inl ⟨c', hsub _ hmem⟩
    · exact Or.inr (Or.inr hfollows)
  · intro rest npm heq pm' hpm'
    rcases hrace rest npm heq pm' hpm' with hchild | ⟨rest', hmem, hrest'⟩
    · exact Or.inl hchild
    · exact Or.inr ⟨rest', hsub _ hmem, hrest'⟩
  · intro npm hnpm pms horigin
    by_cases hnew : npm = u.next
    · obtain ⟨waited, hchild⟩ := origins_subscribe_next u pm func
      rw [hnew, hchild] at horigin
      cases horigin
    · rw [origins_subscribe hnew, horigins, hs.accounted.origins_of_le npm hnpm] at horigin
      cases horigin

/-- Every step answers what it should. -/
theorem Exec.answered (he : Exec body s frame t) (h : s.Answered (frame :: s.stack))
    (hs : s.Sound (frame :: s.stack)) : t.Answered t.stack := by
  have hext := he.extends
  have hsame : ∀ {frames : List (Frame F V)}, t.stack = frames ++ s.stack →
      t.origins = s.origins → t.log = s.log → (∀ m side value, frame ≠ .settle m side value) →
      (∀ c side npm, frame ≠ .code c (some (side, npm))) →
      (∀ pm rest npm, frame ≠ .race (pm :: rest) npm) → t.Answered t.stack := by
    intro frames hstack horigins hlog hsettle hcode hrace
    rw [hstack]
    exact h.step hs hext hlog (.of_same horigins hs hsettle hcode hrace frames)
  -- the code of the client goes on, or the promise for its value is settled
  have hcode : ∀ {c target} {frames : List (Frame F V)}, frame = .code c target →
      t.stack = frames ++ s.stack → t.log = s.log →
      ((∃ c', .code c' target ∈ frames) ∨
        ∀ side npm, target = some (side, npm) → ∃ value, .settle npm side value ∈ frames) →
      (∀ npm, s.next ≤ npm → ∀ pms, t.origins npm = .race pms → .race pms npm ∈ frames) →
      t.Answered t.stack := by
    intro c target frames hframe hstack hlog hgo hraces
    rw [hstack]
    subst hframe
    refine h.step hs hext hlog ⟨?_, ?_, ?_, hraces⟩
    · intro m side value heq
      cases heq
    · intro c' side npm heq
      cases heq
      rcases hgo with hgo | hgo
      · exact Or.inl hgo
      · exact Or.inr (Or.inl (hgo side npm rfl))
    · intro rest npm heq
      cases heq
  have hold : ∀ npm, s.next ≤ npm → ∀ pms, s.origins npm ≠ .race pms := by
    intro npm hnpm pms horigin
    rw [hs.accounted.origins_of_le npm hnpm] at horigin
    cases horigin
  cases he with
  | ret r =>
    exact hsame (List.nil_append _).symm rfl rfl (fun m side value heq => by cases heq)
      (fun c side npm heq => by cases heq) fun pm rest npm heq => by cases heq
  | returnVoid side npm =>
    refine hcode rfl rfl rfl (Or.inr ?_)
      fun npm hnpm pms horigin => absurd horigin (hold npm hnpm pms)
    intro side npm heq
    cases heq
    exact ⟨none, List.mem_singleton_self _⟩
  | returnAny v side npm =>
    refine hcode rfl rfl rfl (Or.inr ?_)
      fun npm hnpm pms horigin => absurd horigin (hold npm hnpm pms)
    intro side npm heq
    cases heq
    exact ⟨some v, List.mem_singleton_self _⟩
  | @returnPromise q side npm hq =>
    refine h.subscribe hs (List.nil_append _).symm rfl rfl rfl rfl rfl
      (fun m side value heq => by cases heq) ?_ fun rest npm heq => by cases heq
    intro c side' npm' heq
    cases heq
    obtain ⟨waited, hchild⟩ := origins_subscribe_next s q (passFuncs npm)
    exact Or.inr ⟨s.next, q, waited, hchild⟩
  | input x k target =>
    exact hcode rfl rfl rfl (Or.inl ⟨_, List.mem_singleton_self _⟩)
      fun npm hnpm pms horigin => absurd horigin (hold npm hnpm pms)
  | create k target =>
    refine hcode rfl rfl rfl (Or.inl ⟨_, List.mem_singleton_self _⟩) ?_
    intro npm hnpm pms horigin
    have horigin : (s.create .client).origins npm = .race pms := horigin
    by_cases hnew : npm = s.next
    · rw [hnew, origins_create_next] at horigin
      cases horigin
    · rw [origins_create hnew] at horigin
      exact absurd horigin (hold npm hnpm pms)
  | settleCode side value k target hpm =>
    exact hcode rfl rfl rfl (Or.inl ⟨_, List.mem_cons_of_mem _ (List.mem_singleton_self _)⟩)
      fun npm hnpm pms horigin => absurd horigin (hold npm hnpm pms)
  | andThen onFulfilled onRejected k target hpm =>
    refine h.subscribe hs rfl rfl rfl rfl rfl rfl (fun m side value heq => by cases heq) ?_
      fun rest npm heq => by cases heq
    intro c side npm heq
    cases heq
    exact Or.inl ⟨_, List.mem_singleton_self _⟩
  | @all pms k target hpms =>
    refine hcode rfl rfl rfl
      (Or.inl ⟨_, List.mem_cons_of_mem _ (List.mem_singleton_self _)⟩) ?_
    intro npm hnpm pms' horigin
    have horigin : (s.create (.all pms)).origins npm = .race pms' := horigin
    by_cases hnew : npm = s.next
    · rw [hnew, origins_create_next] at horigin
      cases horigin
    · rw [origins_create hnew] at horigin
      exact absurd horigin (hold npm hnpm pms')
  | race pms k target =>
    refine hcode rfl rfl rfl
      (Or.inl ⟨_, List.mem_cons_of_mem _ (List.mem_singleton_self _)⟩) ?_
    intro npm hnpm pms' horigin
    have horigin : (s.create (.race pms)).origins npm = .race pms' := horigin
    by_cases hnew : npm = s.next
    · rw [hnew, origins_create_next] at horigin
      cases horigin
      rw [hnew]
      exact List.mem_cons_self
    · rw [origins_create hnew] at horigin
      exact absurd horigin (hold npm hnpm pms')
  | settle pm side value =>
    have hrest : (s.settle pm side value).origins = s.origins ∧
        (s.settle pm side value).log = s.log := origins_settle
    obtain ⟨horigins, hlog⟩ := hrest
    have hanswers : ∀ frames,
        s.Answers (s.settle pm side value) (.settle pm side value) frames := by
      intro frames
      refine ⟨?_, ?_, ?_, ?_⟩
      · intro m side' value' heq
        cases heq
        exact state_settle
      · intro c side npm heq
        cases heq
      · intro rest npm heq
        cases heq
      · intro npm hnpm pms horigin
        rw [horigins] at horigin
        exact absurd horigin (hold npm hnpm pms)
    have hstack : ∃ frames, (s.settle pm side value).stack = frames ++ s.stack := by
      rcases stack_settle (s := s) with hsame | ⟨cbs, htrigger⟩
      · exact ⟨[], hsame⟩
      · exact ⟨_, htrigger.trans List.singleton_append.symm⟩
    obtain ⟨frames, hstack⟩ := hstack
    rw [hstack]
    exact h.step hs hext hlog (hanswers frames)
  | triggerNil pm side =>
    exact hsame (List.nil_append _).symm rfl rfl (fun m side value heq => by cases heq)
      (fun c side npm heq => by cases heq) fun pm rest npm heq => by cases heq
  | triggerCons pm side cb cbs =>
    exact hsame rfl rfl rfl (fun m side value heq => by cases heq)
      (fun c side npm heq => by cases heq) fun pm rest npm heq => by cases heq
  | call cb => exact h.call hs
  | @slot idx m v hsize =>
    exact hsame (List.nil_append _).symm rfl rfl (fun m side value heq => by cases heq)
      (fun c side npm heq => by cases heq) fun pm rest npm heq => by cases heq
  | @slotLast idx m v hsize =>
    exact hsame rfl rfl rfl (fun m side value heq => by cases heq)
      (fun c side npm heq => by cases heq) fun pm rest npm heq => by cases heq
  | allNil idx m =>
    exact hsame (List.nil_append _).symm rfl rfl (fun m side value heq => by cases heq)
      (fun c side npm heq => by cases heq) fun pm rest npm heq => by cases heq
  | @allCons pm rest idx m hpm =>
    exact h.subscribe hs rfl rfl rfl rfl rfl rfl (fun m side value heq => by cases heq)
      (fun c side npm heq => by cases heq) fun rest npm heq => by cases heq
  | raceNil npm =>
    exact hsame (List.nil_append _).symm rfl rfl (fun m side value heq => by cases heq)
      (fun c side npm heq => by cases heq) fun pm rest npm heq => by cases heq
  | @raceCons pm rest m hpm =>
    refine h.subscribe hs rfl rfl rfl rfl rfl rfl (fun m side value heq => by cases heq)
      (fun c side npm heq => by cases heq) ?_
    intro rest' npm heq pm' hpm'
    cases heq
    rcases List.mem_cons.mp hpm' with rfl | hpm'
    · obtain ⟨waited, hchild⟩ := origins_subscribe_next (s.push [.race rest m]) pm' (passFuncs m)
      exact Or.inl ⟨_, waited, hchild⟩
    · exact Or.inr ⟨rest, List.mem_singleton_self _, hpm'⟩

/-! ## Between events -/

/-- Everything is as it should be, with `stack` still to be executed. -/
structure Fine (s : Machine F V) (stack : List (Frame F V)) : Prop where
  sound : s.Sound stack
  caused : s.Caused stack
  gathered : s.AllGathered stack
  answered : s.Answered stack

theorem Fine.init : ({} : Machine F V).Fine [] where
  sound := .init
  caused :=
    { blank := fun _ _ => rfl
      settled := fun _ _ hpm => by cases hpm
      frames := fun _ hmem => by cases hmem
      funcs := fun _ _ _ _ _ _ hm => by cases hm }
  gathered := fun _ _ hm => by cases hm
  answered :=
    { passed := fun _ he => by cases he
      user := fun _ he => by cases he
      settles := fun _ he => by cases he
      races := fun _ _ hm => by cases hm }

/-- The stack of a state is kept beside it. -/
theorem Fine.with_stack (h : s.Fine stack) (stack' : List (Frame F V)) :
    Fine { s with stack := stack' } stack where
  sound := h.sound.with_stack stack'
  caused := by
    have hext : s.Extends { s with stack := stack' } := .of_eq rfl rfl rfl (List.Subset.refl _)
    refine ⟨h.caused.blank, ?_, ?_, ?_⟩
    · intro pm side hpm
      refine (h.caused.settled pm side hpm).mono ?_ hext
      by_contra hle
      rw [show ({ s with stack := stack' } : Machine F V).heap = s.heap from rfl,
        h.sound.accounted.heap_of_le pm (by omega)] at hpm
      cases hpm
    · intro frame hframe
      exact (h.caused.frames frame hframe).mono (h.sound.addressed.frames frame hframe) hext
    · intro x pm func waited d f horigin hf
      exact (h.caused.funcs x pm func waited d f horigin hf).mono
        (h.sound.addressed.funcs x pm func waited d f horigin hf) hext
  gathered npm pms horigin := by
    obtain ⟨size, length, filled, child, slots, loop, loops, remaining, calls, done⟩ :=
      h.gathered npm pms horigin
    exact ⟨size, length, filled, child, slots, loop, loops, remaining, calls, done⟩
  answered := ⟨h.answered.passed, h.answered.user, h.answered.settles, h.answered.races⟩

theorem Exec.fine (he : Exec body s frame t) (h : s.Fine (frame :: s.stack)) : t.Fine t.stack where
  sound := he.sound h.sound
  caused := by
    refine he.caused h.caused h.sound ?_
    rintro idx npm v rfl hzero
    have hfine := h.caused.frames _ List.mem_cons_self
    obtain ⟨pms, pm, horigin, -⟩ := id hfine
    exact (h.gathered npm pms horigin).last h.sound hfine horigin hzero
  gathered := he.allGathered h.gathered h.sound h.caused
  answered := he.answered h.answered h.sound

/-- The event loop calls code. -/
theorem Fine.event (h : s.Fine []) (c : Code F V) :
    Fine { s with stack := [.code c none] } [.code c none] := by
  have hpop := h.with_stack [.code c none]
  refine ⟨?_, ?_, ?_, ?_⟩
  · have hpush : Sound { s with stack := [.code c none] } ([.code c none] ++ []) :=
      hpop.sound.push (List.forall_mem_singleton.mpr rfl) rfl rfl rfl rfl
        (List.forall_mem_singleton.mpr (List.forall_mem_nil _))
    exact hpush
  · refine ⟨hpop.caused.blank, hpop.caused.settled, ?_, hpop.caused.funcs⟩
    refine List.forall_mem_singleton.mpr fun side npm heq => ?_
    cases heq
  · intro npm pms horigin
    obtain ⟨size, length, filled, child, slots, loop, loops, remaining, calls, done⟩ :=
      hpop.gathered npm pms horigin
    refine ⟨size, length, filled, child, slots, ?_, loops, remaining, calls, ?_⟩
    · intro rest idx hmem
      cases List.mem_singleton.mp hmem
    · intro hzero
      rcases done hzero with hne | ⟨side, value, hmem⟩
      · exact Or.inl hne
      · cases hmem
  · obtain ⟨passed, user, settles, races⟩ := hpop.answered
    have hhandled : ∀ {m}, Handled { s with stack := [.code c none] } [] m →
        Handled { s with stack := [.code c none] } [.code c none] m := by
      rintro m (hne | ⟨side, value, hmem⟩)
      · exact Or.inl hne
      · cases hmem
    refine ⟨?_, ?_, ?_, ?_⟩
    · exact fun e he pm func waited hm hne => hhandled (passed e he pm func waited hm hne)
    · intro e he pm func waited f hm hf
      rcases user e he pm func waited f hm hf with hm | ⟨c', hmem⟩ | hfollows
      · exact Or.inl (hhandled hm)
      · cases hmem
      · exact Or.inr (Or.inr hfollows)
    · exact fun e he pm func waited d m hm hf => hhandled (settles e he pm func waited d m hm hf)
    · intro npm pms horigin pm hpm
      rcases races npm pms horigin pm hpm with hchild | ⟨rest, hmem, -⟩
      · exact Or.inl hchild
      · cases hmem

theorem Run.fine (h : Run body {} t) : t.Fine t.stack := by
  generalize hs : ({} : Machine F V) = s at h
  induction h with
  | refl =>
    subst hs
    exact .init
  | event c _ hidle ih =>
    rw [hidle] at ih
    exact ih.event c
  | step x _ hstep ih =>
    rcases step_cases hstep with rfl | ⟨frame, rest, hstack, hexec⟩
    · exact ih
    · rw [hstack] at ih
      exact hexec.fine (ih.with_stack rest)

theorem Handled.settled (h : s.Handled [] m) : ∃ side, (s.heap m).state = .settled side := by
  rcases h with hne | ⟨side, value, hmem⟩
  · cases hstate : (s.heap m).state with
    | pending => exact absurd hstate hne
    | settled side => exact ⟨side, rfl⟩
  · cases hmem

/-- Between events every callback of a promise that is settled was called. -/
theorem Fine.exists_call (h : s.Fine []) (horigin : s.origins m = .child pm func waited)
    (hpm : (s.heap pm).state = .settled side) : ∃ e ∈ s.log, e.npm = m ∧ e.side = side := by
  have hcount := h.sound.accounted.settled m pm func waited side horigin hpm
  have hpos : 0 < (s.log.map Call.npm).count m := by
    rw [show ((due []).map (Callback.npm (F := F))).count m = 0 from rfl] at hcount
    omega
  obtain ⟨e, he, rfl⟩ := List.mem_map.mp (List.count_pos_iff.mp hpos)
  obtain ⟨pm', func', waited', horigin', hstate, -⟩ := h.sound.accounted.log e he
  rw [horigin] at horigin'
  cases horigin'
  rw [hpm] at hstate
  cases hstate
  exact ⟨e, he, rfl, rfl⟩

/-- Between events the callbacks of `all` are registered. -/
theorem Fine.exists_child (h : s.Fine []) {pms : List ℕ} (horigin : s.origins npm = .all pms)
    (hidx : pms[idx]? = some pm) : ∃ x waited, (s.gathers npm).children[idx]? = some x ∧
      s.origins x = .child pm (allFuncs idx npm) waited := by
  have hgathered := h.gathered npm pms horigin
  have hlt := (List.getElem?_eq_some_iff.mp hidx).1
  have hchildren : idx < (s.gathers npm).children.length := by
    by_contra hle
    have hpos := hgathered.remaining (by omega)
    rw [List.countP_nil] at hpos
    omega
  obtain ⟨pm', waited, hidx', hchild⟩ :=
    hgathered.child idx _ (List.getElem?_eq_getElem hchildren)
  rw [hidx, Option.some_inj] at hidx'
  rw [← hidx'] at hchild
  exact ⟨_, waited, List.getElem?_eq_getElem hchildren, hchild⟩

/-- Between events `all` is settled if all the promises are fulfilled. -/
theorem Fine.settled_of_fulfilled (h : s.Fine []) {pms : List ℕ}
    (horigin : s.origins npm = .all pms)
    (hpms : ∀ pm ∈ pms, (s.heap pm).state = .settled .fulfilled) :
    ∃ side, (s.heap npm).state = .settled side := by
  have hgathered := h.gathered npm pms horigin
  have hfilled : ∀ i ∈ List.range pms.length, i ∈ (s.gathers npm).filled := by
    intro i hi
    have hi := List.mem_range.mp hi
    obtain ⟨x, waited, hx, hchild⟩ := h.exists_child horigin (List.getElem?_eq_getElem hi)
    obtain ⟨e, he, hnpm, hside⟩ := h.exists_call hchild (hpms _ (List.getElem_mem hi))
    have hresults : 0 < s.results x := by
      refine List.countP_pos_iff.mpr ⟨e, he, ?_⟩
      rw [hnpm, hside]
      simp only [beq_self_eq_true, Bool.and_self]
    have hcalls := hgathered.calls i
    unfold slotCalls at hcalls
    rw [hx, List.countP_nil, Nat.zero_add] at hcalls
    exact List.count_pos_iff.mp (by rw [hcalls]; exact hresults)
  have hle := (List.subperm_of_subset List.nodup_range hfilled).length_le
  rw [List.length_range] at hle
  have hsize := hgathered.size
  exact Handled.settled (hgathered.done (by omega))

/-- Between events `all` is settled if one of the promises is rejected. -/
theorem Fine.settled_of_rejected (h : s.Fine []) {pms : List ℕ}
    (horigin : s.origins npm = .all pms) (hmem : pm ∈ pms)
    (hpm : (s.heap pm).state = .settled .rejected) :
    ∃ side, (s.heap npm).state = .settled side := by
  obtain ⟨i, hi, rfl⟩ := List.mem_iff_getElem.mp hmem
  obtain ⟨x, waited, -, hchild⟩ := h.exists_child horigin (List.getElem?_eq_getElem hi)
  obtain ⟨e, he, rfl, hside⟩ := h.exists_call hchild hpm
  exact (h.answered.settles e he _ _ waited .rejected npm hchild (by rw [hside]; rfl)).settled

/-- Between events a promise of `all` that the client does not settle is only fulfilled with the
values of the given ones, -/
theorem Fine.of_fulfilled (h : s.Fine []) {pms : List ℕ} (horigin : s.origins npm = .all pms)
    (hforced : npm ∉ s.forced) (hstate : (s.heap npm).state = .settled .fulfilled) :
    (∀ pm ∈ pms, (s.heap pm).state = .settled .fulfilled) ∧ (s.heap npm).values .fulfilled =
      .values (pms.map fun pm => (s.heap pm).values .fulfilled) := by
  cases h.caused.settled npm .fulfilled hstate with
  | forced hmem => exact absurd hmem hforced
  | child horigin' => rw [horigin] at horigin'; cases horigin'
  | allFulfilled horigin' _ hpms hv =>
    rw [horigin] at horigin'
    cases horigin'
    exact ⟨hpms, hv⟩
  | allRejected _ hside => cases hside
  | race horigin' => rw [horigin] at horigin'; cases horigin'

/-- and rejected with the reason of one of them. -/
theorem Fine.of_rejected (h : s.Fine []) {pms : List ℕ} (horigin : s.origins npm = .all pms)
    (hforced : npm ∉ s.forced) (hstate : (s.heap npm).state = .settled .rejected) :
    ∃ pm ∈ pms, (s.heap pm).state = .settled .rejected ∧
      (s.heap npm).values .rejected = (s.heap pm).values .rejected := by
  cases h.caused.settled npm .rejected hstate with
  | forced hmem => exact absurd hmem hforced
  | child horigin' => rw [horigin] at horigin'; cases horigin'
  | allFulfilled _ hside => cases hside
  | allRejected horigin' _ hmem hpm hv =>
    rw [horigin] at horigin'
    cases horigin'
    exact ⟨_, hmem, hpm, hv⟩
  | race horigin' => rw [horigin] at horigin'; cases horigin'

theorem Fine.fulfilled_iff (h : s.Fine []) {pms : List ℕ} (horigin : s.origins npm = .all pms)
    (hforced : npm ∉ s.forced) : (s.heap npm).state = .settled .fulfilled ↔
      ∀ pm ∈ pms, (s.heap pm).state = .settled .fulfilled := by
  constructor
  · exact fun hstate => (h.of_fulfilled horigin hforced hstate).1
  · intro hpms
    obtain ⟨side, hstate⟩ := h.settled_of_fulfilled horigin hpms
    cases side with
    | fulfilled => exact hstate
    | rejected =>
      obtain ⟨pm, hmem, hpm, -⟩ := h.of_rejected horigin hforced hstate
      rw [hpms pm hmem] at hpm
      cases hpm

/-- Between events, in every run, the promise of `all` that the client does not settle itself is
fulfilled exactly if all the promises are, with their values in their order, and rejected exactly if
one of them is, with its reason. -/
theorem all_settled (h : Run body {} s) (hidle : s.stack = []) {npm : ℕ} {pms : List ℕ}
    (horigin : s.origins npm = .all pms) (hforced : npm ∉ s.forced) :
    ((s.heap npm).state = .settled .fulfilled ↔
      ∀ pm ∈ pms, (s.heap pm).state = .settled .fulfilled) ∧
    ((s.heap npm).state = .settled .fulfilled → (s.heap npm).values .fulfilled =
      .values (pms.map fun pm => (s.heap pm).values .fulfilled)) ∧
    ((s.heap npm).state = .settled .rejected ↔
      ∃ pm ∈ pms, (s.heap pm).state = .settled .rejected) ∧
    ((s.heap npm).state = .settled .rejected → ∃ pm ∈ pms,
      (s.heap pm).state = .settled .rejected ∧
        (s.heap npm).values .rejected = (s.heap pm).values .rejected) := by
  have hfine := h.fine
  rw [hidle] at hfine
  have hrejected := hfine.of_rejected horigin hforced
  refine ⟨hfine.fulfilled_iff horigin hforced,
    fun hstate => (hfine.of_fulfilled horigin hforced hstate).2, ⟨?_, ?_⟩, hrejected⟩
  · intro hstate
    obtain ⟨pm, hmem, hpm, -⟩ := hrejected hstate
    exact ⟨pm, hmem, hpm⟩
  · rintro ⟨pm, hmem, hpm⟩
    obtain ⟨side, hstate⟩ := hfine.settled_of_rejected horigin hmem hpm
    cases side with
    | rejected => exact hstate
    | fulfilled =>
      rw [(hfine.of_fulfilled horigin hforced hstate).1 pm hmem] at hpm
      cases hpm

/-- Three promises, `all` of the last two, and a `then` of it that passes a rejection on. -/
def gatherTwo : Code Unit ℕ :=
  .create fun _ => .create fun p => .create fun q => .all [q, p] fun r =>
    .andThen r (some ()) none fun _ => .settle p .fulfilled (some (.value 4))
      (.settle q .fulfilled (some (.value 5)) (.ret .void))

theorem all_settled_two : ∃ s : Machine Unit ℕ, s.stack = [] ∧
    (s.heap 3).state = .settled .fulfilled ∧
    (s.heap 3).values .fulfilled = .values [.value 5, .value 4] := by
  obtain ⟨s, h, hidle, horigin, hforced, hp, hq, hvalues⟩ : ∃ s, Run echo {} s ∧ s.stack = [] ∧
      s.origins 3 = .all [2, 1] ∧ 3 ∉ s.forced ∧ (s.heap 1).state = .settled .fulfilled ∧
      (s.heap 2).state = .settled .fulfilled ∧
      [2, 1].map (fun pm => (s.heap pm).values .fulfilled) = [.value 5, .value 4] :=
    ⟨_, .of_event (x := 0) (n := 40) gatherTwo rfl rfl, rfl, rfl, by decide, rfl, rfl, rfl⟩
  obtain ⟨hfulfilled, hall, -⟩ := all_settled h hidle horigin hforced
  have hstate : (s.heap 3).state = .settled .fulfilled := by
    apply hfulfilled.mpr
    intro pm hpm
    rcases List.mem_cons.mp hpm with rfl | hpm
    · exact hq
    · rw [List.mem_singleton.mp hpm]
      exact hp
  exact ⟨s, hidle, hstate, (hall hstate).trans (congrArg Any.values hvalues)⟩

/-- Between events, in every run, the promise of `race` that the client does not settle itself is
pending exactly if all the promises are, and otherwise settled as one of them. -/
theorem race_settled (h : Run body {} s) (hidle : s.stack = []) {npm : ℕ} {pms : List ℕ}
    (horigin : s.origins npm = .race pms) (hforced : npm ∉ s.forced) :
    ((s.heap npm).state = .pending ↔ ∀ pm ∈ pms, (s.heap pm).state = .pending) ∧
    ∀ side, (s.heap npm).state = .settled side → ∃ pm ∈ pms,
      (s.heap pm).state = .settled side ∧ (s.heap npm).values side = (s.heap pm).values side := by
  have hfine := h.fine
  rw [hidle] at hfine
  have hsettled : ∀ side, (s.heap npm).state = .settled side → ∃ pm ∈ pms,
      (s.heap pm).state = .settled side ∧
        (s.heap npm).values side = (s.heap pm).values side := by
    intro side hstate
    cases hfine.caused.settled npm side hstate with
    | forced hmem => exact absurd hmem hforced
    | child horigin' => rw [horigin] at horigin'; cases horigin'
    | allFulfilled horigin' => rw [horigin] at horigin'; cases horigin'
    | allRejected horigin' => rw [horigin] at horigin'; cases horigin'
    | @race pms' pm horigin' hmem hpm hv =>
      rw [horigin] at horigin'
      cases horigin'
      exact ⟨pm, hmem, hpm, hv⟩
  refine ⟨⟨?_, ?_⟩, hsettled⟩
  · intro hpending pm hmem
    rcases hfine.answered.races npm pms horigin pm hmem with ⟨x, waited, hchild⟩ | ⟨rest, hmem, -⟩
    · cases hstate : (s.heap pm).state with
      | pending => rfl
      | settled side =>
        obtain ⟨e, he, rfl, hside⟩ := hfine.exists_call hchild hstate
        obtain ⟨side', hnpm⟩ := (hfine.answered.settles e he pm _ waited e.side npm hchild
          rfl).settled
        rw [hpending] at hnpm
        cases hnpm
    · cases hmem
  · intro hpms
    cases hstate : (s.heap npm).state with
    | pending => rfl
    | settled side =>
      obtain ⟨pm, hmem, hpm, -⟩ := hsettled side hstate
      rw [hpms pm hmem] at hpm
      cases hpm

/-- Between events, in every run, the promise of a `then` that the client does not settle itself is
pending if its parent is; it is settled as the parent if there is no callback for that; and
if the parent is settled, it is pending only if the lambda has returned a promise that is. -/
theorem then_settled (h : Run body {} s) (hidle : s.stack = []) {m pm : ℕ}
    {func : Side → Option (Func F)} {waited : Bool} (horigin : s.origins m = .child pm func waited)
    (hforced : m ∉ s.forced) :
    ((s.heap pm).state = .pending → (s.heap m).state = .pending) ∧
    ∀ side, (s.heap pm).state = .settled side →
      (func side = none →
        (s.heap m).state = .settled side ∧ (s.heap m).values side = (s.heap pm).values side) ∧
      ((s.heap m).state = .pending → (∃ f, func side = some (.user f)) ∧
        ∃ x q waited, s.origins x = .child q (passFuncs m) waited ∧
          (s.heap q).state = .pending) := by
  have hfine := h.fine
  rw [hidle] at hfine
  have hsettled : ∀ side, (s.heap m).state = .settled side → ∃ d,
      (s.heap pm).state = .settled d ∧
        (func d = none → side = d ∧ (s.heap m).values side = (s.heap pm).values d) := by
    intro side hstate
    cases hfine.caused.settled m side hstate with
    | forced hmem => exact absurd hmem hforced
    | @child pm' func' waited' d horigin' hpm hpass =>
      rw [horigin] at horigin'
      cases horigin'
      exact ⟨d, hpm, hpass⟩
    | allFulfilled horigin' => rw [horigin] at horigin'; cases horigin'
    | allRejected horigin' => rw [horigin] at horigin'; cases horigin'
    | race horigin' => rw [horigin] at horigin'; cases horigin'
  refine ⟨?_, ?_⟩
  · intro hpending
    cases hstate : (s.heap m).state with
    | pending => rfl
    | settled side =>
      obtain ⟨d, hpm, -⟩ := hsettled side hstate
      rw [hpending] at hpm
      cases hpm
  intro side hpm
  obtain ⟨e, he, rfl, rfl⟩ := hfine.exists_call horigin hpm
  refine ⟨?_, ?_⟩
  · intro hnone
    obtain ⟨side, hstate⟩ := (hfine.answered.passed e he pm func waited horigin
      (by rw [hnone]; intro f heq; cases heq)).settled
    obtain ⟨d, hd, hpass⟩ := hsettled side hstate
    rw [hpm] at hd
    cases hd
    obtain ⟨rfl, hvalues⟩ := hpass hnone
    exact ⟨hstate, hvalues⟩
  · intro hpending
    have hnot : ¬ s.Handled [] e.npm := by
      intro hhandled
      obtain ⟨side, hstate⟩ := hhandled.settled
      rw [hpending] at hstate
      cases hstate
    by_cases huser : ∃ f, func e.side = some (.user f)
    · obtain ⟨f, hf⟩ := huser
      refine ⟨⟨f, hf⟩, ?_⟩
      rcases hfine.answered.user e he pm func waited f horigin hf with
        hhandled | ⟨c, hmem⟩ | ⟨x, q, waited', hchild⟩
      · exact absurd hhandled hnot
      · cases hmem
      · refine ⟨x, q, waited', hchild, ?_⟩
        cases hq : (s.heap q).state with
        | pending => rfl
        | settled side =>
          obtain ⟨e', he', rfl, hside⟩ := hfine.exists_call hchild hq
          exact absurd (hfine.answered.settles e' he' q _ waited' e'.side e.npm hchild rfl) hnot
    · exact absurd (hfine.answered.passed e he pm func waited horigin
        fun f hf => huser ⟨f, hf⟩) hnot

/-- A lambda that returns the promise `0`. -/
def returnFirst (_ : Unit) (_ : Any ℕ) : Code Unit ℕ := .ret (.promise 0)

/-- A promise that is pending, and one that is resolved, with a `then` that returns the first. -/
def chainTwo : Code Unit ℕ :=
  .create fun _ => .create fun p => .andThen p (some ()) none fun _ =>
    .settle p .fulfilled (some (.value 3)) (.ret .void)

theorem then_settled_two : ∃ s : Machine Unit ℕ, s.stack = [] ∧
    (s.heap 1).state = .settled .fulfilled ∧ (s.heap 2).state = .pending ∧
    ∃ x q waited, s.origins x = .child q (passFuncs 2) waited ∧ (s.heap q).state = .pending := by
  obtain ⟨s, h, hidle, horigin, hforced, hp, hm⟩ : ∃ s, Run returnFirst {} s ∧ s.stack = [] ∧
      s.origins 2 = .child 1 (userFuncs (some ()) none) true ∧ 2 ∉ s.forced ∧
      (s.heap 1).state = .settled .fulfilled ∧ (s.heap 2).state = .pending :=
    ⟨_, .of_event (x := 0) (n := 20) chainTwo rfl rfl, rfl, rfl, by decide, rfl, rfl⟩
  obtain ⟨-, hthen⟩ := then_settled h hidle horigin hforced
  exact ⟨s, hidle, hp, hm, ((hthen .fulfilled hp).2 hm).2⟩

end OptRand.Promises.Machine
