import OptRand.Promises.Callbacks

/-!
# How promises are settled

The promise of a `then` without the callback that would be called is settled as its parent is;
that of `all` is fulfilled with all the values once all are fulfilled, or rejected as the first
that is; that of `race` is settled as the first that is. `Outcome` says so of what is settled and of
what is about to be, and `Caused` keeps it over whole runs.
-/

namespace OptRand.Promises

variable {F V : Type}

namespace Machine

variable {s t : Machine F V} {stack : List (Frame F V)} {pm n m npm idx : ℕ}
  {side : Side} {func : Side → Option (Func F)} {waited : Bool} {v : Any V}
  {body : F → Any V → Code F V} {frame : Frame F V}

/-! ## What later states keep -/

structure Extends (s t : Machine F V) : Prop where
  keeps : s.Keeps t
  next : s.next ≤ t.next
  origins : ∀ m < s.next, t.origins m = s.origins m
  forced : s.forced ⊆ t.forced

theorem Extends.of_eq (hheap : t.heap = s.heap) (hnext : t.next = s.next)
    (horigins : t.origins = s.origins) (hforced : s.forced ⊆ t.forced) : s.Extends t where
  keeps := .of_eq hheap
  next := hnext.ge
  origins m _ := by rw [horigins]
  forced := hforced

theorem Extends.trans {u : Machine F V} (h : s.Extends t) (h' : t.Extends u) : s.Extends u where
  keeps := h.keeps.trans h'.keeps
  next := h.next.trans h'.next
  origins m hm := by rw [h'.origins m (hm.trans_le h.next), h.origins m hm]
  forced := List.Subset.trans h.forced h'.forced

theorem Extends.create (h : s.Extends t) {origin : Origin F} : s.Extends (t.create origin) := by
  refine h.trans ⟨.of_eq rfl, Nat.le_succ _, ?_, List.Subset.refl _⟩
  intro m hm
  exact origins_create (by omega)

theorem Extends.subscribe (h : s.Extends t) : s.Extends (t.subscribe pm func) := by
  refine h.trans ⟨keeps_subscribe, ?_, ?_, ?_⟩
  · unfold Machine.subscribe
    split
    all_goals exact Nat.le_succ _
  · intro m hm
    unfold Machine.subscribe
    split
    all_goals exact origins_create (by omega)
  · unfold Machine.subscribe
    split
    all_goals exact List.Subset.refl _

theorem Exec.extends (h : Exec body s frame t) : s.Extends t := by
  have hpush : ∀ frames, s.Extends (s.push frames) :=
    fun frames => .of_eq rfl rfl rfl (List.Subset.refl _)
  cases h with
  | returnPromise side npm hq =>
    exact (Extends.of_eq rfl rfl rfl (List.Subset.refl _)).subscribe
  | create => exact (hpush _).create
  | settleCode => exact .of_eq rfl rfl rfl (List.subset_cons_self _ _)
  | andThen => exact (hpush _).subscribe
  | all =>
    refine Extends.create ?_
    exact .of_eq rfl rfl rfl (List.Subset.refl _)
  | race => exact (hpush _).create
  | settle pm side value =>
    refine ⟨keeps_settle, ?_, ?_, ?_⟩
    all_goals
      unfold Machine.settle
      split
    · exact le_rfl
    · exact le_rfl
    · exact fun _ _ => rfl
    · exact fun _ _ => rfl
    · exact List.Subset.refl _
    · exact List.Subset.refl _
  | triggerNil => exact ⟨keeps_clear, le_rfl, fun _ _ => rfl, List.Subset.refl _⟩
  | allCons =>
    refine Extends.subscribe ?_
    exact .of_eq rfl rfl rfl (List.Subset.refl _)
  | raceCons => exact (hpush _).subscribe
  | _ => exact .of_eq rfl rfl rfl (List.Subset.refl _)

/-! ## Outcomes -/

/-- Why a promise is settled so. -/
inductive Outcome (s : Machine F V) (m : ℕ) (side : Side) (v : Any V) : Prop
  | forced (h : m ∈ s.forced)
  | child {pm : ℕ} {func : Side → Option (Func F)} {waited : Bool} {d : Side}
      (horigin : s.origins m = .child pm func waited) (hpm : (s.heap pm).state = .settled d)
      (hpass : func d = none → side = d ∧ v = (s.heap pm).values d)
  | allFulfilled {pms : List ℕ} (horigin : s.origins m = .all pms) (hside : side = .fulfilled)
      (hpms : ∀ pm ∈ pms, (s.heap pm).state = .settled .fulfilled)
      (hv : v = .values (pms.map fun pm => (s.heap pm).values .fulfilled))
  | allRejected {pms : List ℕ} {pm : ℕ} (horigin : s.origins m = .all pms)
      (hside : side = .rejected) (hmem : pm ∈ pms) (hpm : (s.heap pm).state = .settled .rejected)
      (hv : v = (s.heap pm).values .rejected)
  | race {pms : List ℕ} {pm : ℕ} (horigin : s.origins m = .race pms) (hmem : pm ∈ pms)
      (hpm : (s.heap pm).state = .settled side) (hv : v = (s.heap pm).values side)

theorem Outcome.mono (h : s.Outcome m side v) (hm : m < s.next) (hext : s.Extends t) :
    t.Outcome m side v := by
  have horigins := hext.origins m hm
  cases h with
  | forced h => exact .forced (hext.forced h)
  | @child pm func waited d horigin hpm hpass =>
    obtain ⟨hpm', hvalues⟩ := hext.keeps pm d hpm
    refine .child (horigins.trans horigin) hpm' ?_
    rw [hvalues]
    exact hpass
  | @allFulfilled pms horigin hside hpms hv =>
    refine .allFulfilled (horigins.trans horigin) hside
      (fun pm hpm => (hext.keeps pm _ (hpms pm hpm)).1) ?_
    rw [hv]
    refine congrArg Any.values (List.map_congr_left fun pm hpm => ?_)
    rw [(hext.keeps pm _ (hpms pm hpm)).2]
  | @allRejected pms pm horigin hside hmem hpm hv =>
    obtain ⟨hpm', hvalues⟩ := hext.keeps pm _ hpm
    exact .allRejected (horigins.trans horigin) hside hmem hpm' (by rw [hvalues, hv])
  | @race pms pm horigin hmem hpm hv =>
    obtain ⟨hpm', hvalues⟩ := hext.keeps pm _ hpm
    exact .race (horigins.trans horigin) hmem hpm' (by rw [hvalues, hv])

/-- What the frames on the stack are about. -/
def FrameFine (s : Machine F V) : Frame F V → Prop
  | .code _ target => ∀ side npm, target = some (side, npm) →
      ∃ pm func waited f, s.origins npm = .child pm func waited ∧
        (s.heap pm).state = .settled side ∧ func side = some (.user f)
  | .settle pm side value => s.Outcome pm side (value.getD .empty)
  | .trigger .. => True
  | .call _ => True
  | .slot idx npm v => ∃ pms pm, s.origins npm = .all pms ∧ pms[idx]? = some pm ∧
      (s.heap pm).state = .settled .fulfilled ∧ v = (s.heap pm).values .fulfilled
  | .all rest idx npm => ∃ pms, s.origins npm = .all pms ∧ rest = pms.drop idx
  | .race rest npm => ∃ pms, s.origins npm = .race pms ∧ rest ⊆ pms

/-- What the lambdas of the library are about, those of a child of `pm` for an outcome `d`. -/
def FuncFine (s : Machine F V) (pm : ℕ) (d : Side) : Func F → Prop
  | .user _ => True
  | .settles side m => side = d ∧
      ((∃ pms, s.origins m = .all pms ∧ d = .rejected ∧ pm ∈ pms) ∨
        (∃ pms, s.origins m = .race pms ∧ pm ∈ pms) ∨
        ∃ q func waited d' f, s.origins m = .child q func waited ∧
          (s.heap q).state = .settled d' ∧ func d' = some (.user f))
  | .slot idx m => d = .fulfilled ∧ ∃ pms, s.origins m = .all pms ∧ pms[idx]? = some pm

theorem FrameFine.mono (h : s.FrameFine frame) (htargets : ∀ n ∈ frame.targets, n < s.next)
    (hext : s.Extends t) : t.FrameFine frame := by
  cases frame with
  | code c target =>
    rintro side npm rfl
    obtain ⟨pm, func, waited, f, horigin, hpm, hfunc⟩ := h side npm rfl
    have hnpm := htargets npm List.mem_cons_self
    exact ⟨pm, func, waited, f, (hext.origins npm hnpm).trans horigin, (hext.keeps pm _ hpm).1,
      hfunc⟩
  | settle pm side value => exact Outcome.mono h (htargets pm List.mem_cons_self) hext
  | trigger pm side cbs => trivial
  | call cb => trivial
  | slot idx npm v =>
    obtain ⟨pms, pm, horigin, hidx, hpm, hv⟩ := h
    have hnpm := htargets npm List.mem_cons_self
    obtain ⟨hpm', hvalues⟩ := hext.keeps pm _ hpm
    exact ⟨pms, pm, (hext.origins npm hnpm).trans horigin, hidx, hpm', by rw [hvalues, hv]⟩
  | all rest idx npm =>
    obtain ⟨pms, horigin, hrest⟩ := h
    have hnpm := htargets npm List.mem_cons_self
    exact ⟨pms, (hext.origins npm hnpm).trans horigin, hrest⟩
  | race rest npm =>
    obtain ⟨pms, horigin, hrest⟩ := h
    have hnpm := htargets npm List.mem_cons_self
    exact ⟨pms, (hext.origins npm hnpm).trans horigin, hrest⟩

theorem FuncFine.mono {f : Func F} (h : s.FuncFine pm side f)
    (htargets : ∀ n ∈ f.targets, n < s.next) (hext : s.Extends t) : t.FuncFine pm side f := by
  cases f with
  | user f => trivial
  | settles d m =>
    have horigins := hext.origins m (htargets m List.mem_cons_self)
    obtain ⟨hd, hcases⟩ := h
    refine ⟨hd, ?_⟩
    rcases hcases with ⟨pms, horigin, hside, hpm⟩ | ⟨pms, horigin, hpm⟩ |
      ⟨q, func, waited, d', f, horigin, hq, hfunc⟩
    · exact .inl ⟨pms, horigins.trans horigin, hside, hpm⟩
    · exact .inr (.inl ⟨pms, horigins.trans horigin, hpm⟩)
    · exact .inr (.inr ⟨q, func, waited, d', f, horigins.trans horigin, (hext.keeps q _ hq).1,
        hfunc⟩)
  | slot idx m =>
    have horigins := hext.origins m (htargets m List.mem_cons_self)
    obtain ⟨hd, pms, horigin, hidx⟩ := h
    exact ⟨hd, pms, horigins.trans horigin, hidx⟩

/-- Everything that is settled, or is going to be, has its reason. -/
structure Caused (s : Machine F V) (stack : List (Frame F V)) : Prop where
  blank : ∀ n, (s.heap n).state = .pending → (s.heap n).values = fun _ => .empty
  settled : ∀ pm side, (s.heap pm).state = .settled side →
    s.Outcome pm side ((s.heap pm).values side)
  frames : ∀ frame ∈ stack, s.FrameFine frame
  funcs : ∀ x pm func waited d f, s.origins x = .child pm func waited → func d = some f →
    s.FuncFine pm d f

/-- No promise is settled by a step. -/
def SameValues (s t : Machine F V) : Prop :=
  ∀ n, (t.heap n).state = (s.heap n).state ∧ (t.heap n).values = (s.heap n).values

variable (s pm func) in
theorem sameValues_subscribe : s.SameValues (s.subscribe pm func) := by
  intro n
  unfold Machine.subscribe
  split
  · exact ⟨rfl, rfl⟩
  · by_cases hn : n = pm
    · subst hn
      simp only [Function.update_self]
      exact ⟨trivial, trivial⟩
    · simp only [Function.update_of_ne hn]
      exact ⟨trivial, trivial⟩

variable (s pm func) in
theorem origins_subscribe_next : ∃ waited,
    (s.subscribe pm func).origins s.next = .child pm func waited := by
  unfold Machine.subscribe
  split
  · exact ⟨false, origins_create_next⟩
  · exact ⟨true, origins_create_next⟩

theorem origins_subscribe (hn : n ≠ s.next) : (s.subscribe pm func).origins n = s.origins n := by
  unfold Machine.subscribe
  split
  all_goals exact origins_create hn

variable (s pm func) in
/-- The stack after a `then`: at most the call of a callback is new. -/
theorem stack_subscribe : (s.subscribe pm func).stack = s.stack ∨
    ∃ cb, (s.subscribe pm func).stack = .call cb :: s.stack := by
  unfold Machine.subscribe
  split
  · exact Or.inr ⟨_, rfl⟩
  · exact Or.inl rfl

/-- A step that settles nothing. -/
theorem Caused.step (h : s.Caused (frame :: stack)) (hs : s.Sound (frame :: stack))
    (hext : s.Extends t) (hvalues : s.SameValues t) {frames : List (Frame F V)}
    (hframes : ∀ frame' ∈ frames, t.FrameFine frame')
    (hfuncs : ∀ x, s.next ≤ x → ∀ pm func waited d f, t.origins x = .child pm func waited →
      func d = some f → t.FuncFine pm d f) : t.Caused (frames ++ stack) where
  blank n hn := by
    obtain ⟨hstate, hvalues⟩ := hvalues n
    rw [hstate] at hn
    rw [hvalues]
    exact h.blank n hn
  settled pm side hpm := by
    obtain ⟨hstate, hvalues⟩ := hvalues pm
    rw [hstate] at hpm
    rw [hvalues]
    refine (h.settled pm side hpm).mono ?_ hext
    by_contra hle
    rw [hs.accounted.heap_of_le pm (by omega)] at hpm
    cases hpm
  frames frame' hframe' := by
    rcases List.mem_append.mp hframe' with hmem | hmem
    · exact hframes frame' hmem
    · have hmem' : frame' ∈ frame :: stack := List.mem_cons_of_mem _ hmem
      exact (h.frames frame' hmem').mono (hs.addressed.frames frame' hmem') hext
  funcs x pm func waited d f horigin hf := by
    by_cases hx : x < s.next
    · rw [hext.origins x hx] at horigin
      exact (h.funcs x pm func waited d f horigin hf).mono
        (hs.addressed.funcs x pm func waited d f horigin hf) hext
    · exact hfuncs x (by omega) pm func waited d f horigin hf

/-- A step that makes no promise. -/
theorem Caused.step_same (h : s.Caused (frame :: stack)) (hs : s.Sound (frame :: stack))
    (hext : s.Extends t) (hvalues : s.SameValues t) (horigins : t.origins = s.origins)
    {frames : List (Frame F V)} (hframes : ∀ frame' ∈ frames, t.FrameFine frame') :
    t.Caused (frames ++ stack) := by
  refine h.step hs hext hvalues hframes ?_
  intro x hx pm func waited d f horigin
  rw [horigins, hs.accounted.origins_of_le x hx] at horigin
  cases horigin

/-- A step that makes a promise which no `then` returned. -/
theorem Caused.step_create (h : s.Caused (frame :: stack)) (hs : s.Sound (frame :: stack))
    (hext : s.Extends t) (hvalues : s.SameValues t) {origin : Origin F}
    (horigins : t.origins = (s.create origin).origins)
    (horigin : ∀ pm func waited, origin ≠ .child pm func waited) {frames : List (Frame F V)}
    (hframes : ∀ frame' ∈ frames, t.FrameFine frame') : t.Caused (frames ++ stack) := by
  refine h.step hs hext hvalues hframes ?_
  intro x hx pm func waited d f hchild
  rw [horigins] at hchild
  by_cases hnew : x = s.next
  · rw [hnew, origins_create_next] at hchild
    exact absurd hchild (horigin pm func waited)
  · rw [origins_create hnew, hs.accounted.origins_of_le x hx] at hchild
    cases hchild

/-- A `then`, after some frames were put on the stack. -/
theorem Caused.step_subscribe (h : s.Caused (frame :: s.stack)) (hs : s.Sound (frame :: s.stack))
    {u : Machine F V} {frames : List (Frame F V)} (hstack : u.stack = frames ++ s.stack)
    (hheap : u.heap = s.heap) (hnext : u.next = s.next) (horigins : u.origins = s.origins)
    (hforced : u.forced = s.forced)
    (hframes : ∀ frame' ∈ frames, (u.subscribe pm func).FrameFine frame')
    (hfuncs : ∀ d f, func d = some f → (u.subscribe pm func).FuncFine pm d f) :
    (u.subscribe pm func).Caused (u.subscribe pm func).stack := by
  have hext : s.Extends (u.subscribe pm func) := by
    refine Extends.subscribe ?_
    exact .of_eq hheap hnext horigins (by rw [hforced]; exact List.Subset.refl _)
  have hvalues : s.SameValues (u.subscribe pm func) := by
    intro n
    obtain ⟨hstate, hvalues⟩ := sameValues_subscribe u pm func n
    rw [hstate, hvalues, hheap]
    exact ⟨rfl, rfl⟩
  have hnew : ∀ x, s.next ≤ x → ∀ pm' func' waited d f,
      (u.subscribe pm func).origins x = .child pm' func' waited → func' d = some f →
        (u.subscribe pm func).FuncFine pm' d f := by
    intro x hx pm' func' waited d f horigin hf
    by_cases hxnew : x = u.next
    · obtain ⟨waited', hchild⟩ := origins_subscribe_next u pm func
      rw [hxnew, hchild] at horigin
      cases horigin
      exact hfuncs d f hf
    · rw [origins_subscribe hxnew, horigins, hs.accounted.origins_of_le x hx] at horigin
      cases horigin
  rcases stack_subscribe u pm func with hsame | ⟨cb, hcall⟩
  · rw [hsame, hstack]
    exact h.step hs hext hvalues hframes hnew
  · rw [hcall, hstack, ← List.cons_append]
    exact h.step hs hext hvalues (List.forall_mem_cons.mpr ⟨trivial, hframes⟩) hnew

/-- A promise is settled. -/
theorem Caused.settle {value : Option (Any V)} (h : s.Caused (.settle pm side value :: s.stack))
    (hs : s.Sound (.settle pm side value :: s.stack)) :
    (s.settle pm side value).Caused (s.settle pm side value).stack := by
  have hexec : Exec (fun _ _ => .ret .void) s (.settle pm side value) (s.settle pm side value) :=
    .settle pm side value
  have hext := hexec.extends
  have hstay : s.Caused s.stack :=
    ⟨h.blank, h.settled, fun frame' hframe' => h.frames frame' (List.mem_cons_of_mem _ hframe'),
      h.funcs⟩
  have hpm : pm < s.next := hs.addressed.frames _ List.mem_cons_self pm List.mem_cons_self
  have houtcome : s.Outcome pm side (value.getD .empty) := h.frames _ List.mem_cons_self
  have houtcome' := houtcome.mono hpm hext
  have hframes : ∀ frame ∈ s.stack, (s.settle pm side value).FrameFine frame := by
    intro frame hframe
    have hframe' : frame ∈ .settle pm side value :: s.stack := List.mem_cons_of_mem _ hframe
    exact (h.frames frame hframe').mono (hs.addressed.frames frame hframe') hext
  have hfuncs : ∀ x pm' func waited d f, s.origins x = .child pm' func waited → func d = some f →
      (s.settle pm side value).FuncFine pm' d f := by
    intro x pm' func waited d f horigin hf
    exact (h.funcs x pm' func waited d f horigin hf).mono
      (hs.addressed.funcs x pm' func waited d f horigin hf) hext
  have hsettled : ∀ pm' side', (s.heap pm').state = .settled side' →
      (s.settle pm side value).Outcome pm' side' ((s.heap pm').values side') := by
    intro pm' side' hpm'
    refine (h.settled pm' side' hpm').mono ?_ hext
    by_contra hle
    rw [hs.accounted.heap_of_le pm' (by omega)] at hpm'
    cases hpm'
  unfold Machine.settle at houtcome' hframes hfuncs hsettled ⊢
  split at houtcome'
  · rename_i hstate
    simp only [hstate] at hframes hfuncs hsettled ⊢
    exact ⟨h.blank, hsettled, hframes, hfuncs⟩
  · rename_i hpending
    simp only [hpending] at hframes hfuncs hsettled ⊢
    refine ⟨?_, ?_, List.forall_mem_cons.mpr ⟨trivial, hframes⟩, hfuncs⟩
    · intro n hn
      dsimp only at hn ⊢
      by_cases hne : n = pm
      · rw [hne, Function.update_self] at hn
        cases hn
      · rw [Function.update_of_ne hne] at hn ⊢
        exact h.blank n hn
    · intro pm' side' hpm'
      dsimp only at hpm' ⊢
      by_cases hne : pm' = pm
      · subst hne
        rw [Function.update_self] at hpm' ⊢
        cases hpm'
        dsimp only
        have hvalue : value.getD ((s.heap pm').values side) = value.getD .empty := by
          rw [h.blank pm' hpending]
        rw [← hvalue] at houtcome'
        rw [Function.update_self]
        exact houtcome'
      · rw [Function.update_of_ne hne] at hpm' ⊢
        exact hsettled pm' side' hpm'

/-- What the call of a callback leads to. -/
theorem Caused.run {cb : Callback F} (h : s.Caused (.call cb :: stack))
    (hs : s.Sound (.call cb :: stack)) : ∀ frame ∈ s.run body cb, s.FrameFine frame := by
  obtain ⟨⟨func, waited, horigin, hfunc⟩, hstate⟩ := hs.accounted.due cb List.mem_cons_self
  have hnpm : ∀ {value : Option (Any V)}, cb.func ≠ none →
      s.FrameFine (.settle cb.npm cb.side value) := by
    intro value hne
    refine Outcome.child horigin hstate fun hnone => ?_
    rw [hfunc, hnone] at hne
    exact absurd rfl hne
  unfold Machine.run
  split
  · refine List.forall_mem_singleton.mpr ?_
    exact Outcome.child horigin hstate fun _ => ⟨rfl, rfl⟩
  · rename_i f hf
    rw [hfunc] at hf
    refine List.forall_mem_singleton.mpr ?_
    intro side npm heq
    cases heq
    exact ⟨cb.pm, func, waited, f, horigin, hstate, hf⟩
  · rename_i d m hf
    refine List.forall_mem_cons.mpr ⟨?_, List.forall_mem_singleton.mpr (hnpm (by rw [hf]; simp))⟩
    rw [hfunc] at hf
    obtain ⟨hd, hcases⟩ := h.funcs cb.npm cb.pm func waited cb.side _ horigin hf
    subst hd
    rcases hcases with ⟨pms, hall, hside, hmem⟩ | ⟨pms, hrace, hmem⟩ |
      ⟨q, func', waited', d', f, hchild, hq, huser⟩
    · rw [hside] at hstate
      refine Outcome.allRejected hall hside hmem hstate ?_
      show s.argument cb = _
      unfold argument
      rw [hside]
    · exact Outcome.race hrace hmem hstate rfl
    · refine Outcome.child hchild hq fun hnone => ?_
      rw [huser] at hnone
      cases hnone
  · rename_i idx m hf
    refine List.forall_mem_cons.mpr ⟨?_, List.forall_mem_singleton.mpr (hnpm (by rw [hf]; simp))⟩
    rw [hfunc] at hf
    obtain ⟨hside, pms, hall, hidx⟩ := h.funcs cb.npm cb.pm func waited cb.side _ horigin hf
    rw [hside] at hstate
    refine ⟨pms, cb.pm, hall, hidx, hstate, ?_⟩
    unfold argument
    rw [hside]

/-- Every step has its reason, if the last slot of `all` is the last. -/
theorem Exec.caused (he : Exec body s frame t) (h : s.Caused (frame :: s.stack))
    (hs : s.Sound (frame :: s.stack))
    (hlast : ∀ idx npm v, frame = .slot idx npm v → ((s.fill idx npm v).gathers npm).size = 0 →
      s.Outcome npm .fulfilled (.values ((s.fill idx npm v).gathers npm).results)) :
    t.Caused t.stack := by
  have hext := he.extends
  have hsame : ∀ {t : Machine F V}, t.heap = s.heap → s.SameValues t := by
    intro t heq n
    rw [heq]
    exact ⟨rfl, rfl⟩
  have hfine := h.frames frame List.mem_cons_self
  have htargets := hs.addressed.frames frame List.mem_cons_self
  have hfine' := hfine.mono htargets hext
  have hpop : s.Caused s.stack :=
    ⟨h.blank, h.settled, fun frame' hframe' => h.frames frame' (List.mem_cons_of_mem _ hframe'),
      h.funcs⟩
  cases he with
  | ret r => exact hpop
  | returnVoid side npm =>
    refine h.step_same hs hext (hsame rfl) rfl (List.forall_mem_singleton.mpr ?_)
    obtain ⟨pm, func, waited, f, horigin, hpm, hfunc⟩ := hfine' side npm rfl
    exact Outcome.child horigin hpm fun hnone => by rw [hfunc] at hnone; cases hnone
  | returnAny v side npm =>
    refine h.step_same hs hext (hsame rfl) rfl (List.forall_mem_singleton.mpr ?_)
    obtain ⟨pm, func, waited, f, horigin, hpm, hfunc⟩ := hfine' side npm rfl
    exact Outcome.child horigin hpm fun hnone => by rw [hfunc] at hnone; cases hnone
  | returnPromise side npm hq =>
    refine h.step_subscribe hs (List.nil_append _).symm rfl rfl rfl rfl (List.forall_mem_nil _) ?_
    intro d f hf
    cases hf
    obtain ⟨pm, func, waited, f, horigin, hpm, hfunc⟩ := hfine' side npm rfl
    exact ⟨rfl, .inr (.inr ⟨pm, func, waited, side, f, horigin, hpm, hfunc⟩)⟩
  | input x k target =>
    exact h.step_same hs hext (hsame rfl) rfl (List.forall_mem_singleton.mpr hfine')
  | create k target =>
    exact h.step_create hs hext (hsame rfl) rfl (fun pm func waited heq => by cases heq)
      (List.forall_mem_singleton.mpr hfine')
  | settleCode side value k target hpm =>
    refine h.step_same hs hext (hsame rfl) rfl (List.forall_mem_cons.mpr
      ⟨?_, List.forall_mem_singleton.mpr hfine'⟩)
    exact Outcome.forced List.mem_cons_self
  | andThen onFulfilled onRejected k target hpm =>
    refine h.step_subscribe hs rfl rfl rfl rfl rfl (List.forall_mem_singleton.mpr hfine') ?_
    intro d f hf
    cases d with
    | fulfilled =>
      obtain ⟨f', -, rfl⟩ := Option.map_eq_some_iff.mp hf
      trivial
    | rejected =>
      obtain ⟨f', -, rfl⟩ := Option.map_eq_some_iff.mp hf
      trivial
  | @all pms k target hpms =>
    refine h.step_create hs hext (hsame rfl) rfl (fun pm func waited heq => by cases heq)
      (List.forall_mem_cons.mpr ⟨?_, List.forall_mem_singleton.mpr hfine'⟩)
    exact ⟨pms, origins_create_next, rfl⟩
  | race pms k target =>
    refine h.step_create hs hext (hsame rfl) rfl (fun pm func waited heq => by cases heq)
      (List.forall_mem_cons.mpr ⟨?_, List.forall_mem_singleton.mpr hfine'⟩)
    exact ⟨pms, origins_create_next, List.Subset.refl _⟩
  | settle pm side value => exact h.settle hs
  | triggerNil pm side =>
    refine h.step_same hs hext ?_ rfl (List.forall_mem_nil _)
    exact fun n => ⟨state_clear n, values_clear n⟩
  | triggerCons pm side cb cbs =>
    exact h.step_same hs hext (hsame rfl) rfl
      (List.forall_mem_cons.mpr ⟨trivial, List.forall_mem_singleton.mpr trivial⟩)
  | call cb =>
    refine h.step_same hs hext (hsame rfl) rfl fun frame' hframe' => ?_
    exact (h.run hs frame' hframe').mono (hs.run frame' hframe').2 hext
  | @slot idx npm v hsize =>
    exact h.step_same hs hext (hsame rfl) rfl (List.forall_mem_nil _)
  | @slotLast idx npm v hsize =>
    refine h.step_same hs hext (hsame rfl) rfl (List.forall_mem_singleton.mpr ?_)
    exact (hlast idx npm v rfl hsize).mono (htargets npm List.mem_cons_self) hext
  | allNil idx npm => exact hpop
  | @allCons pm pms idx npm hpm =>
    obtain ⟨pms', horigin, hdrop⟩ := hfine'
    have hidx : pms'[idx]? = some pm := by
      rw [← List.head?_drop, ← hdrop]
      rfl
    refine h.step_subscribe hs rfl rfl rfl rfl rfl (List.forall_mem_singleton.mpr ?_) ?_
    · refine ⟨pms', horigin, ?_⟩
      rw [← List.tail_drop, ← hdrop]
      rfl
    · intro d f hf
      cases d with
      | fulfilled =>
        cases hf
        exact ⟨rfl, pms', horigin, hidx⟩
      | rejected =>
        cases hf
        exact ⟨rfl, .inl ⟨pms', horigin, rfl, List.mem_of_getElem? hidx⟩⟩
  | raceNil npm => exact hpop
  | @raceCons pm pms npm hpm =>
    obtain ⟨pms', horigin, hsub⟩ := hfine'
    refine h.step_subscribe hs rfl rfl rfl rfl rfl (List.forall_mem_singleton.mpr ?_) ?_
    · exact ⟨pms', horigin, List.Subset.trans (List.subset_cons_self _ _) hsub⟩
    · intro d f hf
      cases hf
      exact ⟨rfl, .inr (.inl ⟨pms', horigin, hsub List.mem_cons_self⟩)⟩

end Machine

end OptRand.Promises
