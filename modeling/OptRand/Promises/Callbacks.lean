import OptRand.Promises.Machine
import Mathlib.Data.List.Count
import Mathlib.Data.List.Sort

/-!
# When callbacks run

A callback that is registered waits in the promise, then stands on the stack once the promise is
settled, and is in the log once it is called. `Accounted` says that it is in exactly one of these
places. It follows that a promise that is settled keeps its value (`Run.settled`), and that of the
two callbacks of a `then` the one for that outcome runs, once (`called_once`).
-/

namespace OptRand.Promises

variable {F V : Type}

/-- The callbacks that a frame still calls. -/
def Frame.callbacks : Frame F V → List (Callback F)
  | .trigger _ _ cbs => cbs
  | .call cb => [cb]
  | _ => []

/-- A frame that calls nothing itself. -/
def Frame.quiet : Frame F V → Bool
  | .trigger .. => false
  | .call _ => false
  | _ => true

theorem Frame.callbacks_of_quiet {frame : Frame F V} (h : frame.quiet = true) :
    frame.callbacks = [] := by
  cases frame <;> first | rfl | cases h

/-- The promises that a lambda of the library settles. -/
def Func.targets : Func F → List ℕ
  | .user _ => []
  | .settles _ npm => [npm]
  | .slot _ npm => [npm]

/-- The promises that a frame settles later, other than those of its callbacks. -/
def Frame.targets : Frame F V → List ℕ
  | .code _ target => (target.map Prod.snd).toList
  | .settle pm _ _ => [pm]
  | .trigger .. => []
  | .call _ => []
  | .slot _ npm _ => [npm]
  | .all _ _ npm => [npm]
  | .race _ npm => [npm]

/-- The callbacks on a stack. -/
def due (stack : List (Frame F V)) : List (Callback F) := stack.flatMap Frame.callbacks

theorem due_append (stack stack' : List (Frame F V)) :
    due (stack ++ stack') = due stack ++ due stack' := List.flatMap_append

theorem due_of_quiet {frames : List (Frame F V)} (h : ∀ frame ∈ frames, frame.quiet = true) :
    due frames = [] := by
  apply List.flatMap_eq_nil_iff.mpr
  intro frame hframe
  exact Frame.callbacks_of_quiet (h frame hframe)

namespace Machine

variable {s t : Machine F V} {stack : List (Frame F V)} {pm n m : ℕ} {side : Side}
  {func : Side → Option (Func F)} {waited : Bool} {value : Option (Any V)}

/-! ## Settled promises -/

/-- Promises that are settled stay as they are. -/
def Keeps (s t : Machine F V) : Prop :=
  ∀ pm side, (s.heap pm).state = .settled side →
    (t.heap pm).state = .settled side ∧ (t.heap pm).values = (s.heap pm).values

theorem Keeps.of_eq (h : t.heap = s.heap) : s.Keeps t := by
  intro pm side hside
  rw [h]
  exact ⟨hside, rfl⟩

theorem Keeps.trans {u : Machine F V} (h : s.Keeps t) (h' : t.Keeps u) : s.Keeps u := by
  intro pm side hside
  obtain ⟨ht, hvalues⟩ := h pm side hside
  obtain ⟨hu, hvalues'⟩ := h' pm side ht
  exact ⟨hu, hvalues'.trans hvalues⟩

theorem keeps_settle : s.Keeps (s.settle pm side value) := by
  intro pm' side' hside
  unfold settle
  split
  · exact ⟨hside, rfl⟩
  · rename_i hpending
    have hne : pm' ≠ pm := by
      rintro rfl
      rw [hside] at hpending
      cases hpending
    simp only [Function.update_of_ne hne]
    exact ⟨hside, trivial⟩

theorem keeps_subscribe : s.Keeps (s.subscribe pm func) := by
  intro pm' side' hside
  unfold subscribe
  split
  · exact ⟨hside, rfl⟩
  · by_cases heq : pm' = pm
    · subst heq
      simp only [Function.update_self]
      exact ⟨hside, trivial⟩
    · simp only [Function.update_of_ne heq]
      exact ⟨hside, trivial⟩

theorem keeps_clear : s.Keeps (s.clear pm side) := by
  intro pm' side' hside
  unfold clear
  by_cases heq : pm' = pm
  · subst heq
    simp only [Function.update_self]
    exact ⟨hside, trivial⟩
  · simp only [Function.update_of_ne heq]
    exact ⟨hside, trivial⟩

theorem Exec.keeps {body : F → Any V → Code F V} {frame : Frame F V}
    (h : Exec body s frame t) : s.Keeps t := by
  cases h with
  | returnPromise side npm hq => exact keeps_subscribe
  | settle => exact keeps_settle
  | triggerNil => exact keeps_clear
  | andThen =>
    refine Keeps.trans ?_ keeps_subscribe
    exact .of_eq rfl
  | allCons =>
    refine Keeps.trans ?_ keeps_subscribe
    exact .of_eq rfl
  | raceCons =>
    refine Keeps.trans ?_ keeps_subscribe
    exact .of_eq rfl
  | _ => exact .of_eq rfl

/-! ## Where callbacks are -/

/-- The callback is that of a child of its promise. -/
def Made (s : Machine F V) (cb : Callback F) : Prop :=
  ∃ func waited, s.origins cb.npm = .child cb.pm func waited ∧ cb.func = func cb.side

/-- Whether `m` is a child of `pm` that was registered before `pm` was settled. -/
def waitedFor (s : Machine F V) (pm m : ℕ) : Bool :=
  match s.origins m with
  | .child q _ true => q == pm
  | _ => false

/-- The numbers of the callbacks in a list, of the children that waited for `pm`. -/
def waitedIn (s : Machine F V) (pm : ℕ) (l : List ℕ) : List ℕ := l.filter fun m => s.waitedFor pm m

/-- Where the callbacks are, with `stack` still to be executed. -/
structure Accounted (s : Machine F V) (stack : List (Frame F V)) : Prop where
  heap_of_le : ∀ n, s.next ≤ n → s.heap n = {}
  origins_of_le : ∀ n, s.next ≤ n → s.origins n = .client
  child_lt : ∀ m pm func waited, s.origins m = .child pm func waited → pm < s.next
  triggered : ∀ pm side cbs, .trigger pm side cbs ∈ stack → (s.heap pm).state = .settled side
  waiting : ∀ pm side, (s.heap pm).state = .pending → ∀ cb ∈ (s.heap pm).callbacks side,
    cb.pm = pm ∧ cb.side = side ∧ s.Made cb ∧ s.waitedFor pm cb.npm = true
  due : ∀ cb ∈ due stack, s.Made cb ∧ (s.heap cb.pm).state = .settled cb.side
  log : ∀ e ∈ s.log, ∃ pm func waited, s.origins e.npm = .child pm func waited ∧
    (s.heap pm).state = .settled e.side ∧ e.value = (s.heap pm).values e.side
  pending : ∀ m pm func waited, s.origins m = .child pm func waited →
    (s.heap pm).state = .pending →
      ∀ side, (((s.heap pm).callbacks side).map Callback.npm).count m = 1
  settled : ∀ m pm func waited side, s.origins m = .child pm func waited →
    (s.heap pm).state = .settled side →
      ((OptRand.Promises.due stack).map Callback.npm).count m + (s.log.map Call.npm).count m = 1
  sorted : ∀ pm side, (s.heap pm).state = .pending →
    (((s.heap pm).callbacks side).map Callback.npm).Pairwise (· < ·)
  ordered : ∀ pm, ((s.log.map Call.npm).reverse ++
    (OptRand.Promises.due stack).map Callback.npm |> s.waitedIn pm).Pairwise (· < ·)

/-- A child is newer than nothing that does not exist. -/
theorem Accounted.lt_next (h : s.Accounted stack) {m pm : ℕ} {func : Side → Option (Func F)}
    {waited : Bool} (hm : s.origins m = .child pm func waited) : m < s.next := by
  by_contra hle
  rw [h.origins_of_le m (by omega)] at hm
  cases hm

theorem waitedFor_iff : s.waitedFor pm m = true ↔ ∃ func, s.origins m = .child pm func true := by
  unfold waitedFor
  split
  · rename_i q func horigin
    constructor
    · intro h
      exact ⟨func, by rw [horigin, eq_of_beq h]⟩
    · rintro ⟨func', h⟩
      rw [horigin] at h
      cases h
      exact beq_self_eq_true pm
  · rename_i hne
    constructor
    · intro h
      cases h
    · rintro ⟨func, h⟩
      exact absurd h (hne pm func)

/-- The children are the same. -/
def SameChildren (s t : Machine F V) : Prop :=
  ∀ m pm func waited, t.origins m = .child pm func waited ↔ s.origins m = .child pm func waited

theorem SameChildren.made (h : s.SameChildren t) {cb : Callback F} (hcb : s.Made cb) :
    t.Made cb := by
  obtain ⟨func, waited, horigin, hfunc⟩ := hcb
  exact ⟨func, waited, (h _ _ _ _).mpr horigin, hfunc⟩

theorem SameChildren.waitedFor (h : s.SameChildren t) : t.waitedFor = s.waitedFor := by
  funext pm m
  rw [Bool.eq_iff_iff, waitedFor_iff, waitedFor_iff]
  exact exists_congr fun func => h m pm func true

theorem SameChildren.waitedIn (h : s.SameChildren t) (pm : ℕ) (l : List ℕ) :
    t.waitedIn pm l = s.waitedIn pm l := by
  unfold Machine.waitedIn
  rw [h.waitedFor]

/-- What is not counted does not matter. -/
theorem Accounted.congr (h : s.Accounted stack) {stack' : List (Frame F V)}
    (hheap : t.heap = s.heap) (hnext : s.next ≤ t.next) (hchildren : s.SameChildren t)
    (horigins : ∀ n, t.next ≤ n → t.origins n = .client) (hlog : t.log = s.log)
    (hdue : OptRand.Promises.due stack' = OptRand.Promises.due stack)
    (htriggers : ∀ pm side cbs, .trigger pm side cbs ∈ stack' →
      ∃ cbs', .trigger pm side cbs' ∈ stack) : t.Accounted stack' where
  heap_of_le n hn := by
    rw [hheap]
    exact h.heap_of_le n (by omega)
  origins_of_le := horigins
  child_lt m pm func waited hm := by
    have hlt := h.child_lt m pm func waited ((hchildren m pm func waited).mp hm)
    omega
  triggered pm side cbs hmem := by
    obtain ⟨cbs', hmem'⟩ := htriggers pm side cbs hmem
    rw [hheap]
    exact h.triggered pm side cbs' hmem'
  waiting pm side hpm cb hcb := by
    rw [hheap] at hpm hcb
    obtain ⟨hcbpm, hside, hmade, hwaited⟩ := h.waiting pm side hpm cb hcb
    rw [hchildren.waitedFor]
    exact ⟨hcbpm, hside, hchildren.made hmade, hwaited⟩
  due cb hcb := by
    rw [hdue] at hcb
    obtain ⟨hmade, hstate⟩ := h.due cb hcb
    rw [hheap]
    exact ⟨hchildren.made hmade, hstate⟩
  log e he := by
    rw [hlog] at he
    obtain ⟨pm, func, waited, horigin, hstate, hvalue⟩ := h.log e he
    rw [hheap]
    exact ⟨pm, func, waited, (hchildren _ _ _ _).mpr horigin, hstate, hvalue⟩
  pending m pm func waited hm hpm := by
    rw [hheap] at hpm ⊢
    exact h.pending m pm func waited ((hchildren m pm func waited).mp hm) hpm
  settled m pm func waited side hm hpm := by
    rw [hheap] at hpm
    rw [hdue, hlog]
    exact h.settled m pm func waited side ((hchildren m pm func waited).mp hm) hpm
  sorted pm side hpm := by
    rw [hheap] at hpm ⊢
    exact h.sorted pm side hpm
  ordered pm := by
    rw [hdue, hlog, hchildren.waitedIn]
    exact h.ordered pm

theorem SameChildren.of_eq (h : t.origins = s.origins) : s.SameChildren t := by
  intro m pm func waited
  rw [h]

/-- Frames that call nothing are replaced by others. -/
theorem Accounted.replace {frames : List (Frame F V)} (h : s.Accounted (frames ++ stack))
    {frames' : List (Frame F V)} (hquiet : ∀ frame ∈ frames, frame.quiet = true)
    (hquiet' : ∀ frame ∈ frames', frame.quiet = true) (hheap : t.heap = s.heap)
    (hnext : t.next = s.next) (horigins : t.origins = s.origins) (hlog : t.log = s.log) :
    t.Accounted (frames' ++ stack) := by
  refine h.congr hheap hnext.ge (.of_eq horigins) ?_ hlog ?_ ?_
  · rw [hnext, horigins]
    exact h.origins_of_le
  · rw [due_append, due_append, due_of_quiet hquiet, due_of_quiet hquiet']
  · intro pm side cbs hmem
    rcases List.mem_append.mp hmem with hframe | hstack
    · cases hquiet' _ hframe
    · exact ⟨cbs, List.mem_append_right _ hstack⟩

/-- A promise is made that no `then` returned. -/
theorem Accounted.create (h : s.Accounted stack) {origin : Origin F}
    (horigin : ∀ pm func waited, origin ≠ .child pm func waited) :
    (s.create origin).Accounted stack := by
  refine h.congr rfl (Nat.le_succ _) ?_ ?_ rfl rfl fun pm side cbs hmem => ⟨cbs, hmem⟩
  · intro m pm func waited
    show Function.update s.origins s.next origin m = _ ↔ _
    by_cases hm : m = s.next
    · rw [hm, Function.update_self, h.origins_of_le _ le_rfl]
      exact iff_of_false (horigin pm func waited) (fun heq => by cases heq)
    · rw [Function.update_of_ne hm]
  · intro n hn
    have hn' : s.next + 1 ≤ n := hn
    show Function.update s.origins s.next origin n = _
    rw [Function.update_of_ne (by omega)]
    exact h.origins_of_le n (by omega)

theorem state_clear (n : ℕ) : ((s.clear pm side).heap n).state = (s.heap n).state := by
  unfold clear
  by_cases hn : n = pm
  · subst hn
    simp only [Function.update_self]
  · simp only [Function.update_of_ne hn]

theorem values_clear (n : ℕ) : ((s.clear pm side).heap n).values = (s.heap n).values := by
  unfold clear
  by_cases hn : n = pm
  · subst hn
    simp only [Function.update_self]
  · simp only [Function.update_of_ne hn]

/-- The callbacks of a promise that is settled are dropped. -/
theorem Accounted.clear {pm : ℕ} {side : Side} (h : s.Accounted (.trigger pm side [] :: stack)) :
    (s.clear pm side).Accounted stack := by
  have hsettled := h.triggered pm side [] List.mem_cons_self
  -- a promise that is pending is another one
  have hheap : ∀ n, (s.heap n).state = .pending → (s.clear pm side).heap n = s.heap n := by
    intro n hn
    refine Function.update_of_ne ?_ _ _
    rintro rfl
    rw [hsettled] at hn
    cases hn
  refine ⟨?_, h.origins_of_le, h.child_lt, ?_, ?_, ?_, ?_, ?_, ?_, ?_, h.ordered⟩
  · intro n hn
    have hn' := h.heap_of_le n hn
    rw [hheap n (by rw [hn'])]
    exact hn'
  · intro pm' side' cbs hmem
    rw [state_clear]
    exact h.triggered pm' side' cbs (List.mem_cons_of_mem _ hmem)
  · intro pm' side' hpm'
    rw [state_clear] at hpm'
    rw [hheap pm' hpm']
    exact h.waiting pm' side' hpm'
  · intro cb hcb
    rw [state_clear]
    exact h.due cb hcb
  · intro e he
    obtain ⟨pm', func, waited, horigin, hside, hvalue⟩ := h.log e he
    exact ⟨pm', func, waited, horigin, by rw [state_clear, hside], by rw [values_clear, hvalue]⟩
  · intro m pm' func waited hm hpm'
    rw [state_clear] at hpm'
    rw [hheap pm' hpm']
    exact h.pending m pm' func waited hm hpm'
  · intro m pm' func waited side' hm hpm'
    rw [state_clear] at hpm'
    exact h.settled m pm' func waited side' hm hpm'
  · intro pm' side' hpm'
    rw [state_clear] at hpm'
    rw [hheap pm' hpm']
    exact h.sorted pm' side' hpm'

/-- A callback on the stack is called. -/
theorem Accounted.record {cb : Callback F} (h : s.Accounted (.call cb :: stack)) :
    (s.record cb).Accounted stack := by
  have hdue : OptRand.Promises.due (.call cb :: stack) = cb :: OptRand.Promises.due stack := rfl
  obtain ⟨⟨func, waited, horigin, -⟩, hstate⟩ := h.due cb List.mem_cons_self
  refine ⟨h.heap_of_le, h.origins_of_le, h.child_lt, ?_, h.waiting, ?_, ?_, h.pending, ?_,
    h.sorted, ?_⟩
  · intro pm side cbs hmem
    exact h.triggered pm side cbs (List.mem_cons_of_mem _ hmem)
  · intro cb' hcb'
    exact h.due cb' (List.mem_cons_of_mem _ hcb')
  · intro e he
    rcases List.mem_cons.mp he with rfl | he
    · exact ⟨cb.pm, func, waited, horigin, hstate, rfl⟩
    · exact h.log e he
  · intro m pm func' waited' side hm hpm
    have hcount := h.settled m pm func' waited' side hm hpm
    rw [hdue, List.map_cons, List.count_cons] at hcount
    show _ + (cb.npm :: s.log.map Call.npm).count m = 1
    rw [List.count_cons]
    omega
  · intro pm
    have hordered := h.ordered pm
    rw [hdue, List.map_cons] at hordered
    show (((cb.npm :: s.log.map Call.npm).reverse ++ _ |> s.waitedIn pm)).Pairwise (· < ·)
    rw [List.reverse_cons, List.append_assoc]
    exact hordered

/-- The children of a promise that is pending are not on the stack. -/
theorem Accounted.notMem_due (h : s.Accounted stack)
    (hm : s.origins m = .child pm func waited) (hpending : (s.heap pm).state = .pending) :
    m ∉ (OptRand.Promises.due stack).map Callback.npm := by
  intro hmem
  obtain ⟨cb, hcb, rfl⟩ := List.mem_map.mp hmem
  obtain ⟨⟨func', waited', horigin, -⟩, hstate⟩ := h.due cb hcb
  rw [hm] at horigin
  cases horigin
  rw [hpending] at hstate
  cases hstate

/-- The children of a promise that is pending were not called. -/
theorem Accounted.notMem_log (h : s.Accounted stack)
    (hm : s.origins m = .child pm func waited) (hpending : (s.heap pm).state = .pending) :
    m ∉ s.log.map Call.npm := by
  intro hmem
  obtain ⟨e, he, rfl⟩ := List.mem_map.mp hmem
  obtain ⟨pm', func', waited', horigin, hstate, -⟩ := h.log e he
  rw [hm] at horigin
  cases horigin
  rw [hpending] at hstate
  cases hstate

/-- The children of another promise do not wait in a promise that is pending. -/
theorem Accounted.notMem_waiting (h : s.Accounted stack) {pm' : ℕ}
    (hm : s.origins m = .child pm' func waited) (hpending : (s.heap pm).state = .pending)
    (hne : pm' ≠ pm) (side : Side) : m ∉ ((s.heap pm).callbacks side).map Callback.npm := by
  intro hmem
  obtain ⟨cb, hcb, rfl⟩ := List.mem_map.mp hmem
  obtain ⟨hpm, -, ⟨func', waited', horigin, -⟩, -⟩ := h.waiting pm side hpending cb hcb
  rw [hm, hpm] at horigin
  cases horigin
  exact hne rfl

theorem waitedIn_append (l l' : List ℕ) :
    s.waitedIn pm (l ++ l') = s.waitedIn pm l ++ s.waitedIn pm l' := List.filter_append ..

theorem waitedIn_eq_nil {l : List ℕ}
    (h : ∀ m ∈ l, ∀ func, s.origins m ≠ .child pm func true) : s.waitedIn pm l = [] := by
  apply List.filter_eq_nil_iff.mpr
  intro m hm hwaited
  obtain ⟨func, horigin⟩ := waitedFor_iff.mp hwaited
  exact h m hm func horigin

/-- The callbacks of a promise are put on the stack when it is settled. -/
theorem Accounted.settle (h : s.Accounted s.stack) (hpm : pm < s.next) :
    (s.settle pm side value).Accounted (s.settle pm side value).stack := by
  unfold Machine.settle
  split
  · exact h
  rename_i hpending
  have hother : ∀ {n : ℕ} {side' : Side}, (s.heap n).state = .settled side' → n ≠ pm := by
    rintro n side' hn rfl
    rw [hpending] at hn
    cases hn
  have hother' : ∀ {n : ℕ} {p : Promise F V}, p.state = .settled side →
      (Function.update s.heap pm p n).state = .pending → n ≠ pm := by
    rintro n p hp hn rfl
    rw [Function.update_self, hp] at hn
    cases hn
  refine ⟨?_, h.origins_of_le, h.child_lt, ?_, ?_, ?_, ?_, ?_, ?_, ?_, ?_⟩
  · intro n hn
    dsimp only at hn ⊢
    rw [Function.update_of_ne (by omega)]
    exact h.heap_of_le n hn
  · intro pm' side' cbs hmem
    dsimp only
    rcases List.mem_cons.mp hmem with heq | hmem
    · cases heq
      rw [Function.update_self]
    · have hside := h.triggered pm' side' cbs hmem
      rw [Function.update_of_ne (hother hside)]
      exact hside
  · intro pm' side' hpm'
    have hne := hother' rfl hpm'
    dsimp only at hpm' ⊢
    rw [Function.update_of_ne hne] at hpm' ⊢
    exact h.waiting pm' side' hpm'
  · intro cb hcb
    dsimp only
    rcases List.mem_append.mp hcb with hcb | hcb
    · obtain ⟨hcbpm, hside, hmade, -⟩ := h.waiting pm side hpending cb hcb
      rw [hcbpm, Function.update_self, hside]
      exact ⟨hmade, rfl⟩
    · obtain ⟨hmade, hstate⟩ := h.due cb hcb
      rw [Function.update_of_ne (hother hstate)]
      exact ⟨hmade, hstate⟩
  · intro e he
    dsimp only
    obtain ⟨pm', func, waited, horigin, hstate, hvalue⟩ := h.log e he
    refine ⟨pm', func, waited, horigin, ?_⟩
    rw [Function.update_of_ne (hother hstate)]
    exact ⟨hstate, hvalue⟩
  · intro m pm' func waited hm hpm'
    have hne := hother' rfl hpm'
    dsimp only at hpm' ⊢
    rw [Function.update_of_ne hne] at hpm' ⊢
    exact h.pending m pm' func waited hm hpm'
  · intro m pm' func waited side' hm hpm'
    dsimp only at hm hpm' ⊢
    show (((s.heap pm).callbacks side ++ OptRand.Promises.due s.stack).map Callback.npm).count m +
      _ = 1
    rw [List.map_append, List.count_append]
    by_cases hne : pm' = pm
    · subst hne
      rw [h.pending m pm' func waited hm hpending side,
        List.count_eq_zero_of_not_mem (h.notMem_due hm hpending),
        List.count_eq_zero_of_not_mem (h.notMem_log hm hpending)]
    · rw [Function.update_of_ne hne] at hpm'
      rw [List.count_eq_zero_of_not_mem (h.notMem_waiting hm hpending hne side), Nat.zero_add]
      exact h.settled m pm' func waited side' hm hpm'
  · intro pm' side' hpm'
    have hne := hother' rfl hpm'
    dsimp only at hpm' ⊢
    rw [Function.update_of_ne hne] at hpm' ⊢
    exact h.sorted pm' side' hpm'
  · intro pm'
    show (s.waitedIn pm' (_ ++ ((s.heap pm).callbacks side ++
      OptRand.Promises.due s.stack).map Callback.npm)).Pairwise (· < ·)
    have hordered := h.ordered pm'
    dsimp only at hordered ⊢
    rw [List.map_append, waitedIn_append, waitedIn_append]
    rw [waitedIn_append] at hordered
    by_cases hne : pm' = pm
    · subst hne
      have hlog : s.waitedIn pm' (s.log.map Call.npm).reverse = [] :=
        waitedIn_eq_nil fun m hm func horigin =>
          h.notMem_log horigin hpending (List.mem_reverse.mp hm)
      have hdue : s.waitedIn pm' ((OptRand.Promises.due s.stack).map Callback.npm) = [] :=
        waitedIn_eq_nil fun m hm func horigin => h.notMem_due horigin hpending hm
      rw [hlog, hdue, List.nil_append, List.append_nil]
      exact (h.sorted pm' side hpending).filter _
    · have hwaiting : s.waitedIn pm' (((s.heap pm).callbacks side).map Callback.npm) = [] :=
        waitedIn_eq_nil fun m hm func horigin => h.notMem_waiting horigin hpending hne side hm
      rw [hwaiting, List.nil_append]
      exact hordered

theorem origins_create {origin : Origin F} (hm : m ≠ s.next) :
    (s.create origin).origins m = s.origins m := Function.update_of_ne hm _ _

theorem origins_create_next {origin : Origin F} :
    (s.create origin).origins s.next = origin := Function.update_self ..

theorem waitedFor_create {origin : Origin F} (hm : m ≠ s.next) :
    (s.create origin).waitedFor pm m = s.waitedFor pm m := by
  unfold waitedFor
  rw [origins_create hm]

theorem waitedIn_create {origin : Origin F} {l : List ℕ} (hl : ∀ m ∈ l, m ≠ s.next) :
    (s.create origin).waitedIn pm l = s.waitedIn pm l :=
  List.filter_congr fun m hm => waitedFor_create (hl m hm)

theorem Accounted.made_create (h : s.Accounted stack) {origin : Origin F} {cb : Callback F}
    (hcb : s.Made cb) : (s.create origin).Made cb ∧ cb.npm < s.next := by
  obtain ⟨func, waited, horigin, hfunc⟩ := hcb
  have hlt := h.lt_next horigin
  exact ⟨⟨func, waited, by rw [origins_create (by omega), horigin], hfunc⟩, hlt⟩

theorem Accounted.ne_of_mem_due (h : s.Accounted stack) :
    ∀ m ∈ (OptRand.Promises.due stack).map Callback.npm, m ≠ s.next := by
  intro m hm
  obtain ⟨cb, hcb, rfl⟩ := List.mem_map.mp hm
  obtain ⟨⟨func, waited, horigin, -⟩, -⟩ := h.due cb hcb
  have hlt := h.lt_next horigin
  omega

theorem Accounted.ne_of_mem_log (h : s.Accounted stack) :
    ∀ m ∈ s.log.map Call.npm, m ≠ s.next := by
  intro m hm
  obtain ⟨e, he, rfl⟩ := List.mem_map.mp hm
  obtain ⟨pm, func, waited, horigin, -⟩ := h.log e he
  have hlt := h.lt_next horigin
  omega

theorem Accounted.ne_of_mem_waiting (h : s.Accounted stack)
    (hpending : (s.heap pm).state = .pending) (side : Side) :
    ∀ m ∈ ((s.heap pm).callbacks side).map Callback.npm, m < s.next := by
  intro m hm
  obtain ⟨cb, hcb, rfl⟩ := List.mem_map.mp hm
  obtain ⟨-, -, ⟨func, waited, horigin, -⟩, -⟩ := h.waiting pm side hpending cb hcb
  exact h.lt_next horigin

/-- A `then` of a promise that is settled calls its callback. -/
theorem Accounted.subscribe_settled (h : s.Accounted stack) (hpm : pm < s.next)
    (hside : (s.heap pm).state = .settled side) :
    (s.create (.child pm func false)).Accounted
      (.call (callback pm s.next func side) :: stack) where
  heap_of_le n hn := h.heap_of_le n (Nat.le_of_succ_le hn)
  origins_of_le n hn := by
    have hn' : s.next + 1 ≤ n := hn
    rw [origins_create (by omega)]
    exact h.origins_of_le n (by omega)
  child_lt m pm' func' waited hm := by
    show pm' < s.next + 1
    by_cases hnew : m = s.next
    · rw [hnew, origins_create_next] at hm
      cases hm
      omega
    · rw [origins_create hnew] at hm
      have hlt := h.child_lt m pm' func' waited hm
      omega
  triggered pm' side' cbs hmem := by
    rcases List.mem_cons.mp hmem with heq | hmem
    · cases heq
    · exact h.triggered pm' side' cbs hmem
  waiting pm' side' hpm' cb hcb := by
    obtain ⟨hcbpm, hcbside, hmade, hwaited⟩ := h.waiting pm' side' hpm' cb hcb
    obtain ⟨hmade', hlt⟩ := h.made_create hmade
    refine ⟨hcbpm, hcbside, hmade', ?_⟩
    rw [waitedFor_create (by omega), hwaited]
  due cb hcb := by
    rcases List.mem_cons.mp hcb with rfl | hcb
    · exact ⟨⟨func, false, origins_create_next, rfl⟩, hside⟩
    · obtain ⟨hmade, hstate⟩ := h.due cb hcb
      exact ⟨(h.made_create hmade).1, hstate⟩
  log e he := by
    obtain ⟨pm', func', waited, horigin, hstate⟩ := h.log e he
    have hne := h.ne_of_mem_log e.npm (List.mem_map_of_mem he)
    exact ⟨pm', func', waited, by rw [origins_create hne, horigin], hstate⟩
  pending m pm' func' waited hm hpm' := by
    by_cases hnew : m = s.next
    · rw [hnew, origins_create_next] at hm
      cases hm
      rw [show (s.heap pm).state = .pending from hpm'] at hside
      cases hside
    · rw [origins_create hnew] at hm
      exact h.pending m pm' func' waited hm hpm'
  settled m pm' func' waited side' hm hpm' := by
    show (s.next :: (OptRand.Promises.due stack).map Callback.npm).count m + _ = 1
    by_cases hnew : m = s.next
    · rw [hnew, List.count_cons_self,
        List.count_eq_zero_of_not_mem fun hmem => h.ne_of_mem_due _ hmem rfl]
      exact congrArg (1 + ·)
        (List.count_eq_zero_of_not_mem fun hmem => h.ne_of_mem_log _ hmem rfl)
    · rw [origins_create hnew] at hm
      rw [List.count_cons_of_ne (Ne.symm hnew)]
      exact h.settled m pm' func' waited side' hm hpm'
  sorted := h.sorted
  ordered pm' := by
    have hnew : (s.create (.child pm func false)).waitedIn pm' [s.next] = [] := by
      apply waitedIn_eq_nil
      intro m hm func' horigin
      rw [List.mem_singleton.mp hm, origins_create_next] at horigin
      cases horigin
    have hlog := h.ne_of_mem_log
    show ((s.create _).waitedIn pm' ((s.log.map Call.npm).reverse ++
      ([s.next] ++ (OptRand.Promises.due stack).map Callback.npm))).Pairwise (· < ·)
    rw [waitedIn_append, waitedIn_append, hnew, List.nil_append, waitedIn_create h.ne_of_mem_due,
      waitedIn_create fun m hm => hlog m (List.mem_reverse.mp hm), ← waitedIn_append]
    exact h.ordered pm'

/-- The promise with a new callback. -/
def Waits (s : Machine F V) (pm : ℕ) (func : Side → Option (Func F)) : Promise F V :=
  { s.heap pm with
    callbacks := fun side => (s.heap pm).callbacks side ++ [callback pm s.next func side] }

/-- A `then` of a promise that is pending registers its callbacks. -/
theorem Accounted.subscribe_pending (h : s.Accounted stack) (hpm : pm < s.next)
    (hpending : (s.heap pm).state = .pending) :
    Accounted { s.create (.child pm func true) with
      heap := Function.update s.heap pm (s.Waits pm func) } stack := by
  have hstate : ∀ n, (Function.update s.heap pm (s.Waits pm func) n).state = (s.heap n).state := by
    intro n
    by_cases hn : n = pm
    · rw [hn, Function.update_self]
      rfl
    · rw [Function.update_of_ne hn]
  have hvalues : ∀ n, (Function.update s.heap pm (s.Waits pm func) n).values =
      (s.heap n).values := by
    intro n
    by_cases hn : n = pm
    · rw [hn, Function.update_self]
      rfl
    · rw [Function.update_of_ne hn]
  refine ⟨?_, ?_, ?_, ?_, ?_, ?_, ?_, ?_, ?_, ?_, ?_⟩
  · intro n hn
    have hn' : s.next + 1 ≤ n := hn
    dsimp only
    rw [Function.update_of_ne (by omega)]
    exact h.heap_of_le n (by omega)
  · intro n hn
    have hn' : s.next + 1 ≤ n := hn
    show (s.create _).origins n = _
    rw [origins_create (by omega)]
    exact h.origins_of_le n (by omega)
  · intro m pm' func' waited hm
    show pm' < s.next + 1
    have hm : (s.create (.child pm func true)).origins m = .child pm' func' waited := hm
    by_cases hnew : m = s.next
    · rw [hnew, origins_create_next] at hm
      cases hm
      omega
    · rw [origins_create hnew] at hm
      have hlt := h.child_lt m pm' func' waited hm
      omega
  · intro pm' side' cbs hmem
    exact (hstate pm').trans (h.triggered pm' side' cbs hmem)
  · intro pm' side' hpm' cb hcb
    dsimp only at hpm' hcb
    rw [hstate] at hpm'
    have hold : ∀ cb ∈ (s.heap pm').callbacks side', cb.pm = pm' ∧ cb.side = side' ∧
        (s.create (.child pm func true)).Made cb ∧
        (s.create (.child pm func true)).waitedFor pm' cb.npm = true := by
      intro cb hcb
      obtain ⟨hcbpm, hcbside, hmade, hwaited⟩ := h.waiting pm' side' hpm' cb hcb
      obtain ⟨hmade', hlt⟩ := h.made_create hmade
      refine ⟨hcbpm, hcbside, hmade', ?_⟩
      rw [waitedFor_create (by omega), hwaited]
    by_cases hne : pm' = pm
    · subst hne
      rw [Function.update_self] at hcb
      rcases List.mem_append.mp hcb with hcb | hcb
      · exact hold cb hcb
      · rw [List.mem_singleton.mp hcb]
        exact ⟨rfl, rfl, ⟨func, true, origins_create_next, rfl⟩,
          waitedFor_iff.mpr ⟨func, origins_create_next⟩⟩
    · rw [Function.update_of_ne hne] at hcb
      exact hold cb hcb
  · intro cb hcb
    obtain ⟨hmade, hside⟩ := h.due cb hcb
    exact ⟨(h.made_create hmade).1, (hstate _).trans hside⟩
  · intro e he
    obtain ⟨pm', func', waited, horigin, hside, hvalue⟩ := h.log e he
    have hne := h.ne_of_mem_log e.npm (List.mem_map_of_mem he)
    refine ⟨pm', func', waited, (origins_create hne).trans horigin, (hstate _).trans hside, ?_⟩
    dsimp only
    rw [hvalues, hvalue]
  · intro m pm' func' waited hm hpm' side
    have hm : (s.create (.child pm func true)).origins m = .child pm' func' waited := hm
    dsimp only at hpm' ⊢
    rw [hstate] at hpm'
    by_cases hnew : m = s.next
    · rw [hnew, origins_create_next] at hm
      cases hm
      have hlt := h.ne_of_mem_waiting hpending side
      rw [hnew, Function.update_self]
      show (List.map Callback.npm (_ ++ [_])).count _ = 1
      rw [List.map_append, List.count_append,
        List.count_eq_zero_of_not_mem fun hmem => (hlt _ hmem).ne rfl, Nat.zero_add]
      exact List.count_singleton_self (a := s.next)
    · rw [origins_create hnew] at hm
      have hcount := h.pending m pm' func' waited hm hpm' side
      by_cases hne : pm' = pm
      · subst hne
        rw [Function.update_self]
        show (List.map Callback.npm (_ ++ [_])).count _ = 1
        rw [List.map_append, List.count_append, hcount]
        have hzero : ([callback pm' s.next func side].map Callback.npm).count m = 0 :=
          List.count_eq_zero_of_not_mem fun hmem => hnew (List.mem_singleton.mp hmem)
        rw [hzero]
      · rw [Function.update_of_ne hne]
        exact hcount
  · intro m pm' func' waited side hm hpm'
    have hm : (s.create (.child pm func true)).origins m = .child pm' func' waited := hm
    dsimp only at hpm'
    rw [hstate] at hpm'
    by_cases hnew : m = s.next
    · rw [hnew, origins_create_next] at hm
      cases hm
      rw [hpending] at hpm'
      cases hpm'
    · rw [origins_create hnew] at hm
      exact h.settled m pm' func' waited side hm hpm'
  · intro pm' side hpm'
    dsimp only at hpm' ⊢
    rw [hstate] at hpm'
    have hsorted := h.sorted pm' side hpm'
    by_cases hne : pm' = pm
    · subst hne
      rw [Function.update_self]
      show (List.map Callback.npm (_ ++ [_])).Pairwise (· < ·)
      rw [List.map_append]
      refine List.pairwise_append.mpr ⟨hsorted, List.pairwise_singleton .., ?_⟩
      intro m hm m' hm'
      rw [List.mem_singleton.mp hm']
      exact h.ne_of_mem_waiting hpending side m hm
    · rw [Function.update_of_ne hne]
      exact hsorted
  · intro pm'
    have hlog := h.ne_of_mem_log
    show ((s.create _).waitedIn pm' ((s.log.map Call.npm).reverse ++
      (OptRand.Promises.due stack).map Callback.npm)).Pairwise (· < ·)
    rw [waitedIn_append, waitedIn_create h.ne_of_mem_due,
      waitedIn_create fun m hm => hlog m (List.mem_reverse.mp hm), ← waitedIn_append]
    exact h.ordered pm'

/-- A `then` keeps the accounts. -/
theorem Accounted.subscribe (h : s.Accounted s.stack) (hpm : pm < s.next) :
    (s.subscribe pm func).Accounted (s.subscribe pm func).stack := by
  unfold Machine.subscribe
  split
  · rename_i side hside
    exact (h.subscribe_settled hpm hside).congr rfl le_rfl (.of_eq rfl)
      (h.subscribe_settled hpm hside).origins_of_le rfl rfl fun pm side cbs hmem => ⟨cbs, hmem⟩
  · rename_i hpending
    exact h.subscribe_pending hpm hpending

/-! ## Targets -/

/-- What is still to be settled exists. -/
structure Addressed (s : Machine F V) (stack : List (Frame F V)) : Prop where
  frames : ∀ frame ∈ stack, ∀ n ∈ frame.targets, n < s.next
  funcs : ∀ m pm func waited side f, s.origins m = .child pm func waited → func side = some f →
    ∀ n ∈ f.targets, n < s.next

theorem Addressed.frames_le (h : s.Addressed stack) (hnext : s.next ≤ t.next) :
    ∀ frame ∈ stack, ∀ n ∈ frame.targets, n < t.next :=
  fun frame hframe n hn => (h.frames frame hframe n hn).trans_le hnext

/-- Frames are replaced by others that settle promises that exist. -/
theorem Addressed.replace {frame : Frame F V} (h : s.Addressed (frame :: stack))
    {frames : List (Frame F V)} (hnext : s.next ≤ t.next) (horigins : t.origins = s.origins)
    (hframes : ∀ frame' ∈ frames, ∀ n ∈ frame'.targets, n < t.next) :
    t.Addressed (frames ++ stack) := by
  refine ⟨?_, ?_⟩
  · intro frame' hframe'
    rcases List.mem_append.mp hframe' with hmem | hmem
    · exact hframes frame' hmem
    · exact h.frames_le hnext frame' (List.mem_cons_of_mem _ hmem)
  · intro m pm func waited side f hm hf n hn
    rw [horigins] at hm
    exact (h.funcs m pm func waited side f hm hf n hn).trans_le hnext

/-- A promise is made, whose lambdas settle promises that exist. -/
theorem Addressed.create (h : s.Addressed stack) {origin : Origin F}
    (hfuncs : ∀ pm func waited, origin = .child pm func waited → ∀ side f, func side = some f →
      ∀ n ∈ f.targets, n < s.next + 1) : (s.create origin).Addressed stack := by
  refine ⟨h.frames_le (Nat.le_succ _), ?_⟩
  intro m pm func waited side f hm hf n hn
  by_cases hnew : m = s.next
  · rw [hnew, origins_create_next] at hm
    exact hfuncs pm func waited hm side f hf n hn
  · rw [origins_create hnew] at hm
    exact (h.funcs m pm func waited side f hm hf n hn).trans_le (Nat.le_succ _)

theorem Addressed.subscribe (h : s.Addressed s.stack)
    (hfuncs : ∀ side f, func side = some f → ∀ n ∈ f.targets, n < s.next + 1) :
    (s.subscribe pm func).Addressed (s.subscribe pm func).stack := by
  have hcreate : ∀ waited, (s.create (.child pm func waited)).Addressed s.stack := by
    intro waited
    apply h.create
    rintro pm' func' waited' heq side f hf
    cases heq
    exact hfuncs side f hf
  unfold Machine.subscribe
  split
  · refine ⟨?_, (hcreate false).funcs⟩
    intro frame hframe
    rcases List.mem_cons.mp hframe with rfl | hframe
    · intro n hn
      cases hn
    · exact (hcreate false).frames frame hframe
  · exact ⟨(hcreate true).frames, (hcreate true).funcs⟩

theorem Addressed.settle (h : s.Addressed s.stack) :
    (s.settle pm side value).Addressed (s.settle pm side value).stack := by
  unfold Machine.settle
  split
  · exact h
  · refine ⟨?_, h.funcs⟩
    intro frame hframe
    rcases List.mem_cons.mp hframe with rfl | hframe
    · exact List.forall_mem_nil _
    · exact h.frames frame hframe

theorem Addressed.pop {frame : Frame F V} (h : s.Addressed (frame :: stack)) : s.Addressed stack :=
  ⟨fun frame' hframe' => h.frames frame' (List.mem_cons_of_mem _ hframe'), h.funcs⟩

/-! ## Steps -/

/-- The callbacks are accounted for, and what is to be settled exists. -/
structure Sound (s : Machine F V) (stack : List (Frame F V)) : Prop where
  accounted : s.Accounted stack
  addressed : s.Addressed stack

/-- A quiet frame is replaced by quiet frames that settle promises that exist. -/
theorem Sound.replace {frame : Frame F V} (h : s.Sound (frame :: stack))
    (hquiet : frame.quiet = true) {frames : List (Frame F V)}
    (hquiet' : ∀ frame' ∈ frames, frame'.quiet = true) (hheap : t.heap = s.heap)
    (hnext : t.next = s.next) (horigins : t.origins = s.origins) (hlog : t.log = s.log)
    (hframes : ∀ frame' ∈ frames, ∀ n ∈ frame'.targets, n < t.next) :
    t.Sound (frames ++ stack) where
  accounted := by
    have haccounted : s.Accounted ([frame] ++ stack) := h.accounted
    refine haccounted.replace ?_ hquiet' hheap hnext horigins hlog
    intro frame' hframe'
    rw [List.mem_singleton.mp hframe']
    exact hquiet
  addressed := h.addressed.replace hnext.ge horigins hframes

theorem Sound.subscribe (h : s.Sound s.stack) (hpm : pm < s.next)
    (hfuncs : ∀ side f, func side = some f → ∀ n ∈ f.targets, n < s.next + 1) :
    (s.subscribe pm func).Sound (s.subscribe pm func).stack :=
  ⟨h.accounted.subscribe hpm, h.addressed.subscribe hfuncs⟩

theorem Sound.create (h : s.Sound stack) {origin : Origin F}
    (horigin : ∀ pm func waited, origin ≠ .child pm func waited) :
    (s.create origin).Sound stack :=
  ⟨h.accounted.create horigin,
    h.addressed.create fun pm func waited heq => absurd heq (horigin pm func waited)⟩

theorem targets_userFuncs {onFulfilled onRejected : Option F} {f : Func F}
    (hf : userFuncs onFulfilled onRejected side = some f) : f.targets = [] := by
  cases side with
  | fulfilled =>
    obtain ⟨f', -, rfl⟩ := Option.map_eq_some_iff.mp hf
    rfl
  | rejected =>
    obtain ⟨f', -, rfl⟩ := Option.map_eq_some_iff.mp hf
    rfl

theorem targets_passFuncs {f : Func F} (hf : passFuncs m side = some f) : f.targets = [m] := by
  cases hf
  rfl

theorem targets_allFuncs {idx : ℕ} {f : Func F} (hf : allFuncs idx m side = some f) :
    f.targets = [m] := by
  cases side
  all_goals
    cases hf
    rfl

/-- A frame that calls nothing is done. -/
theorem Sound.pop {frame : Frame F V} (h : s.Sound (frame :: stack))
    (hquiet : frame.quiet = true) : s.Sound stack := by
  have hpop : s.Sound ([] ++ stack) := h.replace hquiet (List.forall_mem_nil _) rfl rfl rfl rfl
    (List.forall_mem_nil _)
  exact hpop

/-- Frames that call nothing are put on the stack. -/
theorem Sound.push (h : s.Sound stack) {frames : List (Frame F V)}
    (hquiet : ∀ frame ∈ frames, frame.quiet = true) (hheap : t.heap = s.heap)
    (hnext : t.next = s.next) (horigins : t.origins = s.origins) (hlog : t.log = s.log)
    (hframes : ∀ frame ∈ frames, ∀ n ∈ frame.targets, n < t.next) : t.Sound (frames ++ stack) where
  accounted := by
    have haccounted : s.Accounted ([] ++ stack) := h.accounted
    exact haccounted.replace (List.forall_mem_nil _) hquiet hheap hnext horigins hlog
  addressed := by
    refine ⟨?_, ?_⟩
    · intro frame hframe
      rcases List.mem_append.mp hframe with hmem | hmem
      · exact hframes frame hmem
      · exact h.addressed.frames_le hnext.ge frame hmem
    · rw [horigins, hnext]
      exact h.addressed.funcs

/-- The call of a callback settles the promise of its `then`, and what its lambda settles. -/
theorem Sound.run {body : F → Any V → Code F V} {cb : Callback F}
    (h : s.Sound (.call cb :: stack)) :
    ∀ frame ∈ s.run body cb, frame.quiet = true ∧ ∀ n ∈ frame.targets, n < s.next := by
  obtain ⟨⟨func, waited, horigin, hfunc⟩, -⟩ := h.accounted.due cb List.mem_cons_self
  have hnpm : cb.npm < s.next := h.accounted.lt_next horigin
  have htargets : ∀ f, cb.func = some f → ∀ n ∈ f.targets, n < s.next := by
    intro f hf
    rw [hfunc] at hf
    exact h.addressed.funcs cb.npm cb.pm func waited cb.side f horigin hf
  unfold Machine.run
  split
  · exact List.forall_mem_singleton.mpr ⟨rfl, List.forall_mem_singleton.mpr hnpm⟩
  · exact List.forall_mem_singleton.mpr ⟨rfl, List.forall_mem_singleton.mpr hnpm⟩
  · rename_i hf
    exact List.forall_mem_cons.mpr ⟨⟨rfl, htargets _ hf⟩,
      List.forall_mem_singleton.mpr ⟨rfl, List.forall_mem_singleton.mpr hnpm⟩⟩
  · rename_i hf
    exact List.forall_mem_cons.mpr ⟨⟨rfl, htargets _ hf⟩,
      List.forall_mem_singleton.mpr ⟨rfl, List.forall_mem_singleton.mpr hnpm⟩⟩

theorem Sound.call {body : F → Any V → Code F V} {cb : Callback F}
    (h : s.Sound (.call cb :: s.stack)) :
    ((s.record cb).push (s.run body cb)).Sound ((s.record cb).push (s.run body cb)).stack := by
  have hrecord : (s.record cb).Accounted ([] ++ s.stack) := h.accounted.record
  have hrun : ∀ frame ∈ s.run body cb, frame.quiet = true ∧ ∀ n ∈ frame.targets, n < s.next :=
    h.run
  refine ⟨?_, ?_⟩
  · exact hrecord.replace (List.forall_mem_nil _) (fun frame hframe => (hrun frame hframe).1) rfl
      rfl rfl rfl
  · exact h.addressed.replace le_rfl rfl fun frame hframe => (hrun frame hframe).2

/-- Every step keeps the accounts. -/
theorem Exec.sound {body : F → Any V → Code F V} {frame : Frame F V} (he : Exec body s frame t)
    (h : s.Sound (frame :: s.stack)) : t.Sound t.stack := by
  have htargets := h.addressed.frames frame List.mem_cons_self
  cases he with
  | ret r => exact h.pop rfl
  | returnVoid side npm =>
    exact h.replace rfl (List.forall_mem_singleton.mpr rfl) rfl rfl rfl rfl
      (List.forall_mem_singleton.mpr htargets)
  | returnAny v side npm =>
    exact h.replace rfl (List.forall_mem_singleton.mpr rfl) rfl rfl rfl rfl
      (List.forall_mem_singleton.mpr htargets)
  | returnPromise side npm hq =>
    refine (h.pop rfl).subscribe hq ?_
    intro side' f hf n hn
    rw [targets_passFuncs hf] at hn
    have hlt := htargets n hn
    omega
  | input x k target =>
    exact h.replace rfl (List.forall_mem_singleton.mpr rfl) rfl rfl rfl rfl
      (List.forall_mem_singleton.mpr htargets)
  | create k target =>
    refine Sound.create ?_ fun pm func waited heq => by cases heq
    exact h.replace rfl (List.forall_mem_singleton.mpr rfl) rfl rfl rfl rfl
      (List.forall_mem_singleton.mpr htargets)
  | settleCode side value k target hpm =>
    refine h.replace rfl ?_ rfl rfl rfl rfl ?_
    · exact List.forall_mem_cons.mpr ⟨rfl, List.forall_mem_singleton.mpr rfl⟩
    · exact List.forall_mem_cons.mpr
        ⟨List.forall_mem_singleton.mpr hpm, List.forall_mem_singleton.mpr htargets⟩
  | andThen onFulfilled onRejected k target hpm =>
    refine Sound.subscribe ?_ hpm ?_
    · exact h.replace rfl (List.forall_mem_singleton.mpr rfl) rfl rfl rfl rfl
        (List.forall_mem_singleton.mpr htargets)
    · intro side f hf n hn
      rw [targets_userFuncs hf] at hn
      cases hn
  | @all pms k target hpms =>
    have hcreate : (s.create (.all pms)).Sound s.stack :=
      (h.pop rfl).create fun pm func waited heq => by cases heq
    refine hcreate.push (List.forall_mem_cons.mpr ⟨rfl, List.forall_mem_singleton.mpr rfl⟩) rfl rfl
      rfl rfl (List.forall_mem_cons.mpr ⟨?_, List.forall_mem_singleton.mpr ?_⟩)
    · exact List.forall_mem_singleton.mpr (Nat.lt_succ_self _)
    · exact fun n hn => (htargets n hn).trans_le (Nat.le_succ _)
  | race pms k target =>
    have hcreate : (s.create (.race pms)).Sound s.stack :=
      (h.pop rfl).create fun pm func waited heq => by cases heq
    refine hcreate.push (List.forall_mem_cons.mpr ⟨rfl, List.forall_mem_singleton.mpr rfl⟩) rfl rfl
      rfl rfl (List.forall_mem_cons.mpr ⟨?_, List.forall_mem_singleton.mpr ?_⟩)
    · exact List.forall_mem_singleton.mpr (Nat.lt_succ_self _)
    · exact fun n hn => (htargets n hn).trans_le (Nat.le_succ _)
  | settle pm side value =>
    have hpop := h.pop rfl
    exact ⟨hpop.accounted.settle (htargets pm List.mem_cons_self), hpop.addressed.settle⟩
  | triggerNil pm side => exact ⟨h.accounted.clear, (h.addressed.pop).frames, h.addressed.funcs⟩
  | triggerCons pm side cb cbs =>
    refine ⟨h.accounted.congr rfl le_rfl (.of_eq rfl) h.accounted.origins_of_le rfl rfl ?_,
      h.addressed.replace le_rfl rfl ?_⟩
    · intro pm' side' cbs' hmem
      rcases List.mem_cons.mp hmem with heq | hmem
      · cases heq
      · rcases List.mem_cons.mp hmem with heq | hmem
        · cases heq
          exact ⟨_, List.mem_cons_self⟩
        · exact ⟨cbs', List.mem_cons_of_mem _ hmem⟩
    · exact List.forall_mem_cons.mpr
        ⟨List.forall_mem_nil _, List.forall_mem_singleton.mpr (List.forall_mem_nil _)⟩
  | call cb => exact h.call
  | @slot idx npm result hsize =>
    have hpush : (s.fill idx npm result).Sound ([] ++ s.stack) := (h.pop rfl).push
      (List.forall_mem_nil _) rfl rfl rfl rfl (List.forall_mem_nil _)
    exact hpush
  | slotLast hsize =>
    exact h.replace rfl (List.forall_mem_singleton.mpr rfl) rfl rfl rfl rfl
      (List.forall_mem_singleton.mpr htargets)
  | allNil idx npm => exact h.pop rfl
  | allCons pms idx npm hpm =>
    refine Sound.subscribe ?_ hpm ?_
    · exact h.replace rfl (List.forall_mem_singleton.mpr rfl) rfl rfl rfl rfl
        (List.forall_mem_singleton.mpr htargets)
    · intro side f hf n hn
      rw [targets_allFuncs hf] at hn
      exact (htargets n hn).trans (Nat.lt_succ_self _)
  | raceNil npm => exact h.pop rfl
  | raceCons pms npm hpm =>
    refine Sound.subscribe ?_ hpm ?_
    · exact h.replace rfl (List.forall_mem_singleton.mpr rfl) rfl rfl rfl rfl
        (List.forall_mem_singleton.mpr htargets)
    · intro side f hf n hn
      rw [targets_passFuncs hf] at hn
      exact (htargets n hn).trans (Nat.lt_succ_self _)

/-! ## Runs -/

/-- The heap at the beginning. -/
theorem Sound.init : ({} : Machine F V).Sound [] where
  accounted :=
    { heap_of_le := fun _ _ => rfl
      origins_of_le := fun _ _ => rfl
      child_lt := fun _ _ _ _ hm => by cases hm
      triggered := fun _ _ _ hmem => by cases hmem
      waiting := fun _ _ _ _ hcb => by cases hcb
      due := fun _ hcb => by cases hcb
      log := fun _ he => by cases he
      pending := fun _ _ _ _ hm => by cases hm
      settled := fun _ _ _ _ _ hm => by cases hm
      sorted := fun _ _ _ => List.Pairwise.nil
      ordered := fun _ => List.Pairwise.nil }
  addressed :=
    { frames := fun _ hmem => by cases hmem
      funcs := fun _ _ _ _ _ _ hm => by cases hm }

/-- A step is the execution of the frame on top. -/
theorem step_cases {body : F → Any V → Code F V} {x : V} (h : s.step body x = .ok t) :
    t = s ∨ ∃ frame rest, s.stack = frame :: rest ∧ Exec body { s with stack := rest } frame t := by
  unfold step at h
  split at h
  · cases h
    exact Or.inl rfl
  · rename_i frame rest hstack
    exact Or.inr ⟨frame, rest, hstack, exec_cases h⟩

/-- The stack of a state is kept beside it. -/
theorem Sound.with_stack (h : s.Sound stack) (stack' : List (Frame F V)) :
    Machine.Sound { s with stack := stack' } stack :=
  ⟨h.accounted.congr rfl le_rfl (.of_eq rfl) h.accounted.origins_of_le rfl rfl
    fun _ _ cbs hmem => ⟨cbs, hmem⟩, h.addressed.frames, h.addressed.funcs⟩

theorem Run.sound {body : F → Any V → Code F V} (h : Run body s t) (hs : s.Sound s.stack) :
    t.Sound t.stack := by
  induction h with
  | refl => exact hs
  | @event t code _ hidle ih =>
    rw [hidle] at ih
    have hpush : Sound { t with stack := [.code code none] } ([.code code none] ++ []) :=
      (ih.with_stack _).push (List.forall_mem_singleton.mpr rfl) rfl rfl rfl rfl
        (List.forall_mem_singleton.mpr (List.forall_mem_nil _))
    exact hpush
  | @step t t' x _ hstep ih =>
    rcases step_cases hstep with rfl | ⟨frame, rest, hstack, hexec⟩
    · exact ih
    · rw [hstack] at ih
      exact hexec.sound (ih.with_stack rest)

theorem Run.keeps {body : F → Any V → Code F V} (h : Run body s t) : s.Keeps t := by
  induction h with
  | refl => exact .of_eq rfl
  | event code _ hidle ih => exact ih.trans (.of_eq rfl)
  | @step t t' x _ hstep ih =>
    rcases step_cases hstep with rfl | ⟨frame, rest, hstack, hexec⟩
    · exact ih
    · refine ih.trans ?_
      exact Keeps.trans (.of_eq rfl) hexec.keeps

/-- In every run, from any state reached, a promise that is settled keeps its outcome and value.
Of the callbacks of a `then` at most one is called, at most once, that for the outcome of the
promise, with its value; when nothing is being executed it was called exactly if the promise is
settled. The callbacks that waited for a promise are called in the order of their `then`s. -/
theorem callbacks_once {body : F → Any V → Code F V} (hs : Run body {} s) (h : Run body s t) :
    (∀ pm side, (s.heap pm).state = .settled side →
      (t.heap pm).state = .settled side ∧ (t.heap pm).values = (s.heap pm).values) ∧
    (∀ m pm func waited, t.origins m = .child pm func waited →
      (t.log.map Call.npm).count m ≤ 1 ∧
      (∀ e ∈ t.log, e.npm = m →
        (t.heap pm).state = .settled e.side ∧ e.value = (t.heap pm).values e.side) ∧
      (t.stack = [] → ((t.log.map Call.npm).count m = 1 ↔ (t.heap pm).state ≠ .pending))) ∧
    ∀ pm, (t.waitedIn pm (t.log.map Call.npm).reverse).Pairwise (· < ·) := by
  have hsound := h.sound (hs.sound Sound.init)
  refine ⟨h.keeps, ?_, ?_⟩
  · intro m pm func waited hm
    refine ⟨?_, ?_, ?_⟩
    · cases hstate : (t.heap pm).state with
      | pending =>
        rw [List.count_eq_zero_of_not_mem (hsound.accounted.notMem_log hm hstate)]
        exact Nat.zero_le 1
      | settled side =>
        have hcount := hsound.accounted.settled m pm func waited side hm hstate
        omega
    · rintro e he rfl
      obtain ⟨pm', func', waited', horigin, hstate, hvalue⟩ := hsound.accounted.log e he
      rw [hm] at horigin
      cases horigin
      exact ⟨hstate, hvalue⟩
    · intro hidle
      have haccounted := hsound.accounted
      rw [hidle] at haccounted
      cases hstate : (t.heap pm).state with
      | pending =>
        rw [List.count_eq_zero_of_not_mem (haccounted.notMem_log hm hstate)]
        exact iff_of_false (by omega) (fun hne => hne rfl)
      | settled side =>
        have hcount := haccounted.settled m pm func waited side hm hstate
        rw [show ((due []).map (Callback.npm (F := F))).count m = 0 from rfl,
          Nat.zero_add] at hcount
        exact iff_of_true hcount (fun heq => by cases heq)
  · intro pm
    have hordered := hsound.accounted.ordered pm
    rw [waitedIn_append] at hordered
    exact (List.pairwise_append.mp hordered).1

/-- A lambda that returns what it is given. -/
def echo (_ : Unit) (v : Any ℕ) : Code Unit ℕ := .ret (.any v)

/-- A promise with two `then`s, which is resolved. -/
def resolveTwo : Code Unit ℕ :=
  .create fun p => .andThen p (some ()) none fun _ => .andThen p (some ()) (some ()) fun _ =>
    .settle p .fulfilled (some (.value 3)) (.ret .void)

theorem callbacks_once_two : ∃ s t : Machine Unit ℕ, (s.heap 0).state = .settled .fulfilled ∧
    t.stack = [] ∧ (t.heap 0).values = (s.heap 0).values ∧ (t.log.map Call.npm).count 2 = 1 ∧
    (t.waitedIn 0 (t.log.map Call.npm).reverse).Pairwise (· < ·) := by
  obtain ⟨s, t, hs, ht, hsettled, hidle, horigin⟩ : ∃ s t, Run echo {} s ∧ Run echo s t ∧
      (s.heap 0).state = .settled .fulfilled ∧ t.stack = [] ∧
      t.origins 2 = .child 0 (userFuncs (some ()) (some ())) true :=
    ⟨_, _, .of_event (x := 0) (n := 5) resolveTwo rfl rfl, .of_drive (x := 0) (n := 12) rfl, rfl,
      rfl, rfl⟩
  obtain ⟨hkeeps, honce, hordered⟩ := callbacks_once hs ht
  obtain ⟨hstate, hvalues⟩ := hkeeps 0 .fulfilled hsettled
  refine ⟨s, t, hsettled, hidle, hvalues, ?_, hordered 0⟩
  apply ((honce 2 0 _ true horigin).2.2 hidle).mpr
  rw [hstate]
  intro heq
  cases heq

end Machine

end OptRand.Promises
