import OptRand.Promises.Outcomes
import Mathlib.Data.List.Perm.Subperm

/-!
# The promise of `all`

The callbacks of `all` share an array and a counter. `Gathered` says where each slot is: not yet
registered, waiting, being written, or written. It follows that the promise is settled as soon as
one of the given promises is rejected or all are fulfilled, and only then (`all_settled`).
-/

namespace OptRand.Promises

variable {F V : Type}

/-- Whether the frame writes this slot. -/
def Frame.isSlot (idx npm : ℕ) : Frame F V → Bool
  | .slot i m _ => i == idx && m == npm
  | _ => false

/-- Whether the frame is the loop that registers the callbacks. -/
def Frame.isLoop (npm : ℕ) : Frame F V → Bool
  | .all _ _ m => m == npm
  | _ => false

/-- A frame of another kind. -/
def Frame.plain : Frame F V → Bool
  | .slot .. => false
  | .all .. => false
  | _ => true

theorem Frame.isSlot_of_plain {frame : Frame F V} (h : frame.plain = true) (idx npm : ℕ) :
    frame.isSlot idx npm = false := by
  cases frame <;> first | rfl | cases h

theorem Frame.isLoop_of_plain {frame : Frame F V} (h : frame.plain = true) (npm : ℕ) :
    frame.isLoop npm = false := by
  cases frame <;> first | rfl | cases h

theorem Frame.isSlot_of_ne {m npm : ℕ} (h : m ≠ npm) (i idx : ℕ) (v : Any V) :
    (Frame.slot i m v : Frame F V).isSlot idx npm = false := by
  rw [Frame.isSlot, beq_false_of_ne h, Bool.and_false]

theorem Frame.isLoop_of_ne {m npm : ℕ} (h : m ≠ npm) (rest : List ℕ) (i : ℕ) :
    (Frame.all rest i m : Frame F V).isLoop npm = false := beq_false_of_ne h

theorem countP_isSlot_of_plain {frames : List (Frame F V)}
    (h : ∀ frame ∈ frames, frame.plain = true) (idx npm : ℕ) :
    frames.countP (Frame.isSlot idx npm) = 0 := by
  apply List.countP_eq_zero.mpr
  intro frame hframe
  rw [Frame.isSlot_of_plain (h frame hframe)]
  exact Bool.false_ne_true

theorem countP_isLoop_of_plain {frames : List (Frame F V)}
    (h : ∀ frame ∈ frames, frame.plain = true) (npm : ℕ) :
    frames.countP (Frame.isLoop npm) = 0 := by
  apply List.countP_eq_zero.mpr
  intro frame hframe
  rw [Frame.isLoop_of_plain (h frame hframe)]
  exact Bool.false_ne_true

namespace Machine

variable {s t : Machine F V} {stack : List (Frame F V)} {pm n m npm idx : ℕ}
  {side : Side} {func : Side → Option (Func F)} {waited : Bool} {v : Any V}
  {body : F → Any V → Code F V} {frame : Frame F V}

/-- How often a callback for a result was called. -/
def results (s : Machine F V) (x : ℕ) : ℕ :=
  s.log.countP fun e => e.npm == x && e.side == .fulfilled

/-- How often the callback of `all` for an index was called. -/
def slotCalls (s : Machine F V) (npm idx : ℕ) : ℕ :=
  match (s.gathers npm).children[idx]? with
  | none => 0
  | some x => s.results x

/-- What the callbacks of `all` share. -/
structure Gathered (s : Machine F V) (stack : List (Frame F V)) (npm : ℕ) (pms : List ℕ) :
    Prop where
  size : (s.gathers npm).size + (s.gathers npm).filled.length = pms.length
  length : (s.gathers npm).results.length = pms.length
  filled : ∀ i ∈ (s.gathers npm).filled, ∃ pm, pms[i]? = some pm ∧
    (s.heap pm).state = .settled .fulfilled ∧
    (s.gathers npm).results[i]? = some ((s.heap pm).values .fulfilled)
  child : ∀ i x, (s.gathers npm).children[i]? = some x → ∃ pm waited, pms[i]? = some pm ∧
    s.origins x = .child pm (allFuncs i npm) waited
  slots : ∀ x pm func waited i, s.origins x = .child pm func waited →
    func .fulfilled = some (.slot i npm) → (s.gathers npm).children[i]? = some x
  loop : ∀ rest idx, .all rest idx npm ∈ stack → idx = (s.gathers npm).children.length
  loops : stack.countP (Frame.isLoop npm) ≤ 1
  remaining : (s.gathers npm).children.length < pms.length → 0 < stack.countP (Frame.isLoop npm)
  calls : ∀ i, stack.countP (Frame.isSlot i npm) + (s.gathers npm).filled.count i =
    s.slotCalls npm i
  done : (s.gathers npm).size = 0 → (s.heap npm).state ≠ .pending ∨
    ∃ side value, .settle npm side value ∈ stack

/-- A step that does not concern this `all`, other than by calling a callback. -/
theorem Gathered.step {pms : List ℕ} (h : s.Gathered (frame :: stack) npm pms)
    (hs : s.Sound (frame :: stack)) (hext : s.Extends t)
    (hgather : t.gathers npm = s.gathers npm) {frames : List (Frame F V)}
    (hloops : frames.countP (Frame.isLoop npm) ≤ [frame].countP (Frame.isLoop npm))
    (hremaining : (s.gathers npm).children.length < pms.length →
      [frame].countP (Frame.isLoop npm) ≤ frames.countP (Frame.isLoop npm))
    (hloop : ∀ rest idx, .all rest idx npm ∈ frames → .all rest idx npm ∈ frame :: stack)
    (hcalls : ∀ i, frames.countP (Frame.isSlot i npm) + s.slotCalls npm i =
      [frame].countP (Frame.isSlot i npm) + t.slotCalls npm i)
    (hslots : ∀ x, s.next ≤ x → ∀ pm func waited i, t.origins x = .child pm func waited →
      func .fulfilled ≠ some (.slot i npm))
    (hdone : ∀ side value, frame = .settle npm side value → (t.heap npm).state ≠ .pending) :
    t.Gathered (frames ++ stack) npm pms := by
  have hcons : (frame :: stack).countP (Frame.isLoop npm) =
      [frame].countP (Frame.isLoop npm) + stack.countP (Frame.isLoop npm) := by
    rw [← List.countP_append]
    rfl
  have hsettled : (s.heap npm).state ≠ .pending → (t.heap npm).state ≠ .pending := by
    intro hne
    cases hstate : (s.heap npm).state with
    | pending => exact absurd hstate hne
    | settled side =>
      rw [(hext.keeps npm side hstate).1]
      intro heq
      cases heq
  refine ⟨?_, ?_, ?_, ?_, ?_, ?_, ?_, ?_, ?_, ?_⟩
  · rw [hgather]
    exact h.size
  · rw [hgather]
    exact h.length
  · rw [hgather]
    intro i hi
    obtain ⟨pm, hidx, hstate, hresult⟩ := h.filled i hi
    obtain ⟨hstate', hvalues⟩ := hext.keeps pm _ hstate
    exact ⟨pm, hidx, hstate', by rw [hvalues, hresult]⟩
  · rw [hgather]
    intro i x hx
    obtain ⟨pm, waited, hidx, horigin⟩ := h.child i x hx
    exact ⟨pm, waited, hidx, (hext.origins x (hs.accounted.lt_next horigin)).trans horigin⟩
  · rw [hgather]
    intro x pm func waited i horigin hfunc
    by_cases hx : x < s.next
    · rw [hext.origins x hx] at horigin
      exact h.slots x pm func waited i horigin hfunc
    · exact absurd hfunc (hslots x (by omega) pm func waited i horigin)
  · rw [hgather]
    intro rest idx hmem
    rcases List.mem_append.mp hmem with hmem | hmem
    · exact h.loop rest idx (hloop rest idx hmem)
    · exact h.loop rest idx (List.mem_cons_of_mem _ hmem)
  · have hold := h.loops
    rw [hcons] at hold
    rw [List.countP_append]
    omega
  · rw [hgather]
    intro hlt
    have hold := h.remaining hlt
    have hle := hremaining hlt
    rw [hcons] at hold
    rw [List.countP_append]
    omega
  · intro i
    have hold := h.calls i
    have hcalls := hcalls i
    rw [← List.singleton_append, List.countP_append] at hold
    rw [hgather, List.countP_append]
    omega
  · rw [hgather]
    intro hsize
    rcases h.done hsize with hne | ⟨side, value, hmem⟩
    · exact Or.inl (hsettled hne)
    · rcases List.mem_cons.mp hmem with heq | hmem
      · exact Or.inl (hdone side value heq.symm)
      · exact Or.inr ⟨side, value, List.mem_append_right _ hmem⟩

theorem slotCalls_congr (hgather : (t.gathers npm).children = (s.gathers npm).children)
    (hlog : t.log = s.log) (i : ℕ) : t.slotCalls npm i = s.slotCalls npm i := by
  unfold slotCalls results
  rw [hgather, hlog]

/-- A step that calls nothing, and is neither that of a slot nor of a loop. -/
theorem Gathered.step_plain {pms : List ℕ} (h : s.Gathered (frame :: stack) npm pms)
    (hs : s.Sound (frame :: stack)) (hext : s.Extends t) (hgathers : t.gathers npm = s.gathers npm)
    (hlog : t.log = s.log) (hframe : frame.plain = true) {frames : List (Frame F V)}
    (hframes : ∀ frame' ∈ frames, frame'.plain = true)
    (hslots : ∀ x, s.next ≤ x → ∀ pm func waited i, t.origins x = .child pm func waited →
      func .fulfilled ≠ some (.slot i npm))
    (hdone : ∀ side value, frame = .settle npm side value → (t.heap npm).state ≠ .pending) :
    t.Gathered (frames ++ stack) npm pms := by
  have hframe' : ∀ frame' ∈ [frame], frame'.plain = true := List.forall_mem_singleton.mpr hframe
  refine h.step hs hext hgathers ?_ ?_ ?_ ?_ hslots hdone
  · rw [countP_isLoop_of_plain hframes, countP_isLoop_of_plain hframe']
  · rw [countP_isLoop_of_plain hframes, countP_isLoop_of_plain hframe']
    exact fun _ => le_rfl
  · intro rest idx hmem
    cases hframes _ hmem
  · intro i
    rw [countP_isSlot_of_plain hframes, countP_isSlot_of_plain hframe',
      slotCalls_congr (by rw [hgathers]) hlog]

/-- No `then` of the library registers a slot, other than the one of `all`. -/
theorem Gathered.step_create {pms : List ℕ} (h : s.Gathered (frame :: stack) npm pms)
    (hs : s.Sound (frame :: stack)) (hext : s.Extends t) (hgathers : t.gathers npm = s.gathers npm)
    (hlog : t.log = s.log) (hframe : frame.plain = true) {frames : List (Frame F V)}
    (hframes : ∀ frame' ∈ frames, frame'.plain = true) {origin : Origin F}
    (horigins : t.origins = (s.create origin).origins)
    (horigin : ∀ pm func waited i, origin = .child pm func waited →
      func .fulfilled ≠ some (.slot i npm))
    (hdone : ∀ side value, frame ≠ .settle npm side value) :
    t.Gathered (frames ++ stack) npm pms := by
  refine h.step_plain hs hext hgathers hlog hframe hframes ?_ ?_
  · intro x hx pm func waited i hchild
    rw [horigins] at hchild
    by_cases hnew : x = s.next
    · rw [hnew, origins_create_next] at hchild
      exact horigin pm func waited i hchild
    · rw [origins_create hnew, hs.accounted.origins_of_le x hx] at hchild
      cases hchild
  · intro side value heq
    exact absurd heq (hdone side value)

theorem results_record {cb : Callback F} (x : ℕ) : (s.record cb).results x =
    s.results x + if cb.npm = x ∧ cb.side = .fulfilled then 1 else 0 := by
  unfold results record
  rw [List.countP_cons]
  simp only [Bool.and_eq_true, beq_iff_eq]

theorem countP_isSlot_run {cb : Callback F} {i : ℕ} (hf : cb.func = some (.slot i npm)) :
    (s.run body cb).countP (Frame.isSlot i npm) = 1 := by
  unfold run
  rw [hf]
  show List.countP (Frame.isSlot i npm) (Frame.slot i npm _ :: _) = 1
  rw [List.countP_cons]
  show 0 + (if (i == i && npm == npm) = true then 1 else 0) = 1
  simp only [beq_self_eq_true, Bool.and_self, if_true]

theorem countP_isSlot_run_of_ne {cb : Callback F} {i : ℕ} (hf : cb.func ≠ some (.slot i npm)) :
    (s.run body cb).countP (Frame.isSlot i npm) = 0 := by
  apply List.countP_eq_zero.mpr
  intro frame hframe hslot
  unfold run at hframe
  split at hframe
  · rw [List.mem_singleton.mp hframe] at hslot
    cases hslot
  · rw [List.mem_singleton.mp hframe] at hslot
    cases hslot
  · rcases List.mem_cons.mp hframe with rfl | hframe
    · cases hslot
    · rw [List.mem_singleton.mp hframe] at hslot
      cases hslot
  · rename_i hf'
    rcases List.mem_cons.mp hframe with rfl | hframe
    · obtain ⟨hi, hm⟩ := Bool.and_eq_true_iff.mp hslot
      rw [hf', eq_of_beq hi, eq_of_beq hm] at hf
      exact hf rfl
    · rw [List.mem_singleton.mp hframe] at hslot
      cases hslot

theorem countP_isLoop_run {cb : Callback F} (npm : ℕ) :
    (s.run body cb).countP (Frame.isLoop npm) = 0 := by
  unfold run
  split
  all_goals rfl

/-- The call of a callback starts the slot that it is for. -/
theorem Gathered.call {cb : Callback F} {pms : List ℕ}
    (h : s.Gathered (.call cb :: s.stack) npm pms) (hs : s.Sound (.call cb :: s.stack))
    (hcaused : s.Caused (.call cb :: s.stack)) :
    ((s.record cb).push (s.run body cb)).Gathered (s.run body cb ++ s.stack) npm pms := by
  obtain ⟨⟨func, waited, horigin, hfunc⟩, -⟩ := hs.accounted.due cb List.mem_cons_self
  have hchild : ∀ i, cb.func = some (.slot i npm) →
      cb.side = .fulfilled ∧ (s.gathers npm).children[i]? = some cb.npm := by
    intro i hf
    rw [hfunc] at hf
    obtain ⟨hside, -⟩ := hcaused.funcs cb.npm cb.pm func waited cb.side _ horigin hf
    rw [hside] at hf
    exact ⟨hside, h.slots cb.npm cb.pm func waited i horigin hf⟩
  have hext : s.Extends ((s.record cb).push (s.run body cb)) := (Exec.call cb).extends
  refine h.step hs hext rfl ?_ ?_ ?_ ?_ ?_ ?_
  · rw [countP_isLoop_run]
    exact Nat.zero_le _
  · rw [countP_isLoop_run]
    exact fun _ => le_rfl
  · intro rest idx hmem
    have hpos : 0 < (s.run body cb).countP (Frame.isLoop npm) :=
      List.countP_pos_iff.mpr ⟨_, hmem, beq_self_eq_true npm⟩
    rw [countP_isLoop_run] at hpos
    omega
  · intro i
    have hcalls : ((s.record cb).push (s.run body cb)).slotCalls npm i =
        match (s.gathers npm).children[i]? with
        | none => 0
        | some x => (s.record cb).results x := rfl
    rw [show [Frame.call cb].countP (Frame.isSlot i npm) = 0 from rfl, hcalls, Nat.zero_add]
    unfold slotCalls
    by_cases hf : cb.func = some (.slot i npm)
    · obtain ⟨hside, hx⟩ := hchild i hf
      rw [countP_isSlot_run hf, hx]
      show 1 + s.results cb.npm = (s.record cb).results cb.npm
      rw [results_record, if_pos ⟨rfl, hside⟩, Nat.add_comm]
    · rw [countP_isSlot_run_of_ne hf, Nat.zero_add]
      cases hx : (s.gathers npm).children[i]? with
      | none => rfl
      | some x =>
        obtain ⟨pm, waited', -, horigin'⟩ := h.child i x hx
        have hne : ¬ (cb.npm = x ∧ cb.side = .fulfilled) := by
          rintro ⟨rfl, hside⟩
          rw [horigin] at horigin'
          cases horigin'
          rw [hfunc, hside] at hf
          exact hf rfl
        show s.results x = (s.record cb).results x
        rw [results_record, if_neg hne, Nat.add_zero]
  · intro x hx pm func waited i hchild
    rw [show ((s.record cb).push (s.run body cb)).origins = s.origins from rfl,
      hs.accounted.origins_of_le x hx] at hchild
    cases hchild
  · intro side value heq
    cases heq

/-- A callback for a result is called once. -/
theorem results_le_one (hs : s.Sound stack) {x : ℕ}
    (horigin : s.origins x = .child pm func waited) : s.results x ≤ 1 := by
  have hle : s.results x ≤ (s.log.map Call.npm).count x := by
    unfold results
    rw [List.count, List.countP_map]
    apply List.countP_mono_left
    intro e _ he
    exact (Bool.and_eq_true_iff.mp he).1
  refine hle.trans ?_
  cases hstate : (s.heap pm).state with
  | pending =>
    rw [List.count_eq_zero_of_not_mem (hs.accounted.notMem_log horigin hstate)]
    exact Nat.zero_le 1
  | settled side =>
    have hcount := hs.accounted.settled x pm func waited side horigin hstate
    omega

theorem Gathered.slotCalls_le_one {pms : List ℕ} (h : s.Gathered stack npm pms)
    (hs : s.Sound stack) (i : ℕ) : s.slotCalls npm i ≤ 1 := by
  unfold slotCalls
  cases hx : (s.gathers npm).children[i]? with
  | none => exact Nat.zero_le 1
  | some x =>
    obtain ⟨pm, waited, -, horigin⟩ := h.child i x hx
    exact results_le_one hs horigin

/-- A slot that is written was not written before. -/
theorem Gathered.nodup_filled {pms : List ℕ} (h : s.Gathered (.slot idx npm v :: stack) npm pms)
    (hs : s.Sound (.slot idx npm v :: stack)) : (idx :: (s.gathers npm).filled).Nodup := by
  have hcount : ∀ i, (s.gathers npm).filled.count i ≤ 1 := by
    intro i
    have hcalls := h.calls i
    have hle := h.slotCalls_le_one hs i
    omega
  refine List.nodup_cons.mpr ⟨?_, List.nodup_iff_count_le_one.mpr hcount⟩
  intro hmem
  have hpos := List.count_pos_iff.mpr hmem
  have hcalls := h.calls idx
  have hle := h.slotCalls_le_one hs idx
  have hslot : 0 < (Frame.slot idx npm v :: stack).countP (Frame.isSlot idx npm) := by
    refine List.countP_pos_iff.mpr ⟨_, List.mem_cons_self, ?_⟩
    show (idx == idx && npm == npm) = true
    simp only [beq_self_eq_true, Bool.and_self]
  omega

/-- The slots that are written are slots. -/
theorem Gathered.subperm_filled {pms : List ℕ}
    (h : s.Gathered (.slot idx npm v :: stack) npm pms)
    (hs : s.Sound (.slot idx npm v :: stack)) (hidx : idx < pms.length) :
    (idx :: (s.gathers npm).filled).Subperm (List.range pms.length) := by
  apply List.subperm_of_subset (h.nodup_filled hs)
  intro i hi
  rcases List.mem_cons.mp hi with rfl | hi
  · exact List.mem_range.mpr hidx
  · obtain ⟨pm, hpm, -⟩ := h.filled i hi
    exact List.mem_range.mpr (List.getElem?_eq_some_iff.mp hpm).1

/-- A slot is written. -/
theorem Gathered.fill {pms : List ℕ} (h : s.Gathered (.slot idx npm v :: stack) npm pms)
    (hs : s.Sound (.slot idx npm v :: stack)) (hfine : s.FrameFine (.slot idx npm v))
    (horigin : s.origins npm = .all pms) (hheap : t.heap = s.heap)
    (hgathers : t.gathers = (s.fill idx npm v).gathers) (horigins : t.origins = s.origins)
    (hlog : t.log = s.log) {frames : List (Frame F V)}
    (hframes : ∀ frame ∈ frames, frame.plain = true)
    (hdone : ((s.fill idx npm v).gathers npm).size = 0 →
      ∃ side value, .settle npm side value ∈ frames) :
    t.Gathered (frames ++ stack) npm pms := by
  obtain ⟨pms', pm, horigin', hpm, hstate, hv⟩ := hfine
  rw [horigin] at horigin'
  cases horigin'
  have hidx : idx < pms.length := (List.getElem?_eq_some_iff.mp hpm).1
  have hlt := (h.subperm_filled hs hidx).length_le
  rw [List.length_range, List.length_cons] at hlt
  have hgather : t.gathers npm = { s.gathers npm with
      size := (s.gathers npm).size - 1
      results := (s.gathers npm).results.set idx v
      filled := idx :: (s.gathers npm).filled } := by
    rw [hgathers]
    exact Function.update_self ..
  have hsize := h.size
  have hloops : (frames ++ stack).countP (Frame.isLoop npm) =
      (Frame.slot idx npm v :: stack).countP (Frame.isLoop npm) := by
    rw [List.countP_append, countP_isLoop_of_plain hframes, Nat.zero_add]
    rfl
  refine ⟨?_, ?_, ?_, ?_, ?_, ?_, ?_, ?_, ?_, ?_⟩
  · rw [hgather]
    show (s.gathers npm).size - 1 + ((s.gathers npm).filled.length + 1) = _
    omega
  · rw [hgather]
    exact List.length_set.trans h.length
  · rw [hgather, hheap]
    intro i hi
    dsimp only at hi ⊢
    by_cases heq : i = idx
    · subst heq
      refine ⟨pm, hpm, hstate, ?_⟩
      rw [List.getElem?_set_self (by rw [h.length]; exact hidx), hv]
    · obtain ⟨pm', hpm', hstate', hresult⟩ :=
        h.filled i ((List.mem_cons.mp hi).resolve_left heq)
      exact ⟨pm', hpm', hstate', by rw [List.getElem?_set_ne (Ne.symm heq), hresult]⟩
  · rw [hgather, horigins]
    exact h.child
  · rw [hgather, horigins]
    exact h.slots
  · rw [hgather]
    intro rest i hmem
    rcases List.mem_append.mp hmem with hmem | hmem
    · cases hframes _ hmem
    · exact h.loop rest i (List.mem_cons_of_mem _ hmem)
  · rw [hloops]
    exact h.loops
  · rw [hgather, hloops]
    exact h.remaining
  · intro i
    have hcalls := h.calls i
    rw [slotCalls_congr (by rw [hgather]) hlog, hgather, List.countP_append,
      countP_isSlot_of_plain hframes, ← hcalls, List.countP_cons]
    show 0 + _ + (idx :: (s.gathers npm).filled).count i =
      _ + (if (idx == i && npm == npm) = true then 1 else 0) + _
    rw [List.count_cons]
    simp only [beq_self_eq_true, Bool.and_true]
    omega
  · intro hzero
    rw [hgathers] at hzero
    obtain ⟨side, value, hmem⟩ := hdone hzero
    exact Or.inr ⟨side, value, List.mem_append_left _ hmem⟩

/-- When the last slot is written all the promises are fulfilled, and their values are there. -/
theorem Gathered.last {pms : List ℕ} (h : s.Gathered (.slot idx npm v :: stack) npm pms)
    (hs : s.Sound (.slot idx npm v :: stack)) (hfine : s.FrameFine (.slot idx npm v))
    (horigin : s.origins npm = .all pms) (hzero : ((s.fill idx npm v).gathers npm).size = 0) :
    s.Outcome npm .fulfilled (.values ((s.fill idx npm v).gathers npm).results) := by
  have hfill : (s.fill idx npm v).Gathered
      ([.settle npm .fulfilled none] ++ stack) npm pms :=
    Gathered.fill (t := s.fill idx npm v) h hs hfine horigin rfl rfl rfl rfl
      (List.forall_mem_singleton.mpr rfl) fun _ => ⟨.fulfilled, none, List.mem_singleton_self _⟩
  obtain ⟨pms', pm, horigin', hpm, -⟩ := hfine
  rw [horigin] at horigin'
  cases horigin'
  have hfilled : ((s.fill idx npm v).gathers npm).filled = idx :: (s.gathers npm).filled := by
    unfold Machine.fill
    dsimp only
    rw [Function.update_self]
  have hsubperm := h.subperm_filled hs (List.getElem?_eq_some_iff.mp hpm).1
  have hsize := hfill.size
  rw [hzero, hfilled, Nat.zero_add] at hsize
  have hperm := hsubperm.perm_of_length_le (by rw [hsize, List.length_range])
  have hall : ∀ i < pms.length, ∃ pm, pms[i]? = some pm ∧
      (s.heap pm).state = .settled .fulfilled ∧
      ((s.fill idx npm v).gathers npm).results[i]? = some ((s.heap pm).values .fulfilled) := by
    intro i hi
    apply hfill.filled i
    rw [hfilled]
    exact hperm.mem_iff.mpr (List.mem_range.mpr hi)
  refine .allFulfilled horigin rfl ?_ ?_
  · intro pm hmem
    obtain ⟨i, hi, rfl⟩ := List.mem_iff_getElem.mp hmem
    obtain ⟨pm, hget, hstate, -⟩ := hall i hi
    rw [List.getElem?_eq_getElem hi, Option.some_inj] at hget
    rw [hget]
    exact hstate
  · refine congrArg Any.values (List.ext_getElem? fun i => ?_)
    rw [List.getElem?_map]
    by_cases hi : i < pms.length
    · obtain ⟨pm, hget, -, hresult⟩ := hall i hi
      rw [hget, hresult]
      rfl
    · rw [List.getElem?_eq_none (by rw [hfill.length]; omega), List.getElem?_eq_none (by omega)]
      rfl

theorem gathers_subscribe : (s.subscribe pm func).gathers = s.gathers := by
  unfold Machine.subscribe
  split
  all_goals rfl

theorem log_subscribe : (s.subscribe pm func).log = s.log := by
  unfold Machine.subscribe
  split
  all_goals rfl

/-- The loop of `all` registers a callback. -/
theorem Gathered.subscribe {pms rest : List ℕ}
    (h : s.Gathered (.all (pm :: rest) idx npm :: s.stack) npm pms)
    (hs : s.Sound (.all (pm :: rest) idx npm :: s.stack))
    (hfine : s.FrameFine (.all (pm :: rest) idx npm)) (horigin : s.origins npm = .all pms)
    {frames : List (Frame F V)} (hframes : ∀ frame ∈ frames, frame.plain = true) :
    Gathered (((s.push [.all rest (idx + 1) npm]).adopt npm s.next).subscribe pm (allFuncs idx npm))
      (frames ++ ([.all rest (idx + 1) npm] ++ s.stack)) npm pms := by
  obtain ⟨pms', horigin', hdrop⟩ := hfine
  rw [horigin] at horigin'
  cases horigin'
  have hpm : pms[idx]? = some pm := by
    rw [← List.head?_drop, ← hdrop]
    rfl
  have hidx : idx = (s.gathers npm).children.length := h.loop _ idx List.mem_cons_self
  have hself : ∀ rest idx, (Frame.all rest idx npm : Frame F V).isLoop npm = true :=
    fun _ _ => beq_self_eq_true npm
  have hslot : ∀ rest idx i, ¬ (Frame.all rest idx npm : Frame F V).isSlot i npm = true :=
    fun _ _ _ => Bool.false_ne_true
  -- this is the only loop
  have hloops : s.stack.countP (Frame.isLoop npm) = 0 := by
    have hone := h.loops
    rw [List.countP_cons_of_pos (hself _ _)] at hone
    omega
  generalize hu : (s.push [.all rest (idx + 1) npm]).adopt npm s.next = u
  have hext : s.Extends (u.subscribe pm (allFuncs idx npm)) := by
    subst hu
    refine Extends.subscribe ?_
    exact .of_eq rfl rfl rfl (List.Subset.refl _)
  have hgather : (u.subscribe pm (allFuncs idx npm)).gathers npm = { s.gathers npm with
      children := (s.gathers npm).children ++ [s.next] } := by
    subst hu
    rw [gathers_subscribe]
    exact Function.update_self ..
  have hlog : (u.subscribe pm (allFuncs idx npm)).log = s.log := by
    subst hu
    exact log_subscribe
  have hnext : ∃ waited, (u.subscribe pm (allFuncs idx npm)).origins s.next =
      .child pm (allFuncs idx npm) waited := by
    subst hu
    exact origins_subscribe_next ..
  have hother : ∀ x, x ≠ s.next →
      (u.subscribe pm (allFuncs idx npm)).origins x = s.origins x := by
    intro x hx
    subst hu
    exact origins_subscribe hx
  have hcount : ∀ (p : Frame F V → Bool), (∀ frame, frame.plain = true → p frame = false) →
      (frames ++ ([Frame.all rest (idx + 1) npm] ++ s.stack)).countP p =
        [Frame.all rest (idx + 1) npm].countP p + s.stack.countP p := by
    intro p hp
    have hzero : frames.countP p = 0 := by
      apply List.countP_eq_zero.mpr
      intro frame hframe
      rw [hp frame (hframes frame hframe)]
      exact Bool.false_ne_true
    rw [List.countP_append, List.countP_append, hzero, Nat.zero_add]
  have hloops' : (frames ++ ([Frame.all rest (idx + 1) npm] ++ s.stack)).countP
      (Frame.isLoop npm) = 1 := by
    rw [hcount _ fun frame hframe => Frame.isLoop_of_plain hframe npm, hloops,
      List.countP_cons_of_pos (hself _ _)]
    rfl
  refine ⟨?_, ?_, ?_, ?_, ?_, ?_, ?_, ?_, ?_, ?_⟩
  · rw [hgather]
    exact h.size
  · rw [hgather]
    exact h.length
  · rw [hgather]
    intro i hi
    obtain ⟨pm', hpm', hstate, hresult⟩ := h.filled i hi
    obtain ⟨hstate', hvalues⟩ := hext.keeps pm' _ hstate
    exact ⟨pm', hpm', hstate', by rw [hvalues, hresult]⟩
  · rw [hgather]
    intro i x hx
    by_cases hi : i < (s.gathers npm).children.length
    · rw [List.getElem?_append_left hi] at hx
      obtain ⟨pm', waited, hpm', hchild⟩ := h.child i x hx
      have hlt := hs.accounted.lt_next hchild
      exact ⟨pm', waited, hpm', (hother x (by omega)).trans hchild⟩
    · rw [List.getElem?_append_right (by omega)] at hx
      have hieq : i = idx := by
        have hlt := (List.getElem?_eq_some_iff.mp hx).1
        rw [List.length_singleton] at hlt
        omega
      rw [hieq, hidx, Nat.sub_self] at hx
      cases hx
      obtain ⟨waited, hchild⟩ := hnext
      rw [hieq]
      exact ⟨pm, waited, hpm, hchild⟩
  · rw [hgather]
    intro x pm' func waited i hchild hfunc
    by_cases hx : x = s.next
    · obtain ⟨waited', hchild'⟩ := hnext
      rw [hx, hchild'] at hchild
      cases hchild
      cases hfunc
      rw [hx, hidx]
      exact List.getElem?_concat_length
    · rw [hother x hx] at hchild
      have hold := h.slots x pm' func waited i hchild hfunc
      have hi := (List.getElem?_eq_some_iff.mp hold).1
      show ((s.gathers npm).children ++ [s.next])[i]? = some x
      rw [List.getElem?_append_left hi, hold]
  · rw [hgather]
    intro rest' i hmem
    show i = ((s.gathers npm).children ++ [s.next]).length
    rw [List.length_append, List.length_singleton, ← hidx]
    rcases List.mem_append.mp hmem with hmem | hmem
    · cases hframes _ hmem
    rcases List.mem_append.mp hmem with hmem | hmem
    · cases List.mem_singleton.mp hmem
      rfl
    · exact absurd (hself rest' i) (List.countP_eq_zero.mp hloops _ hmem)
  · rw [hloops']
  · rw [hloops']
    exact fun _ => Nat.zero_lt_one
  · intro i
    have hcalls := h.calls i
    rw [List.countP_cons_of_neg (hslot _ _ i)] at hcalls
    rw [hcount _ fun frame hframe => Frame.isSlot_of_plain hframe i npm,
      List.countP_cons_of_neg (hslot _ _ i), List.countP_nil, Nat.zero_add, hgather, hcalls]
    unfold slotCalls
    rw [hgather]
    show _ = match ((s.gathers npm).children ++ [s.next])[i]? with
      | none => 0
      | some x => (u.subscribe pm (allFuncs idx npm)).results x
    have hresults : ∀ x, (u.subscribe pm (allFuncs idx npm)).results x = s.results x := by
      intro x
      unfold results
      rw [hlog]
    by_cases hi : i < (s.gathers npm).children.length
    · rw [List.getElem?_append_left hi, List.getElem?_eq_getElem hi]
      exact (hresults _).symm
    · rw [List.getElem?_append_right (by omega), List.getElem?_eq_none (by omega)]
      by_cases hieq : i = (s.gathers npm).children.length
      · rw [hieq, Nat.sub_self]
        show 0 = (u.subscribe pm (allFuncs idx npm)).results s.next
        rw [hresults]
        refine (List.countP_eq_zero.mpr fun e he heq => ?_).symm
        exact hs.accounted.ne_of_mem_log e.npm (List.mem_map_of_mem he)
          (eq_of_beq (Bool.and_eq_true_iff.mp heq).1)
      · rw [List.getElem?_eq_none (by rw [List.length_singleton]; omega)]
  · rw [hgather]
    intro hzero
    rcases h.done hzero with hne | ⟨side, value, hmem⟩
    · left
      cases hstate : (s.heap npm).state with
      | pending => exact absurd hstate hne
      | settled side =>
        rw [(hext.keeps npm side hstate).1]
        intro heq
        cases heq
    · right
      rcases List.mem_cons.mp hmem with heq | hmem
      · cases heq
      · exact ⟨side, value, List.mem_append_right _ (List.mem_append_right _ hmem)⟩

/-- The beginning of `all`. -/
theorem Gathered.create {pms : List ℕ} (hs : s.Sound stack) (hpms : pms ≠ []) {c : Code F V}
    {target : Option (Side × ℕ)} :
    Gathered (((s.push [.all pms 0 s.next, .code c target]).gather s.next pms.length).create
      (.all pms)) ([.all pms 0 s.next, .code c target] ++ stack) s.next pms := by
  generalize ht : ((s.push [.all pms 0 s.next, .code c target]).gather s.next pms.length).create
    (.all pms) = t
  have hgather : t.gathers s.next = ⟨pms.length, List.replicate pms.length .empty, [], []⟩ := by
    subst ht
    exact Function.update_self ..
  have hother : ∀ x, x ≠ s.next → t.origins x = s.origins x := by
    intro x hx
    subst ht
    exact origins_create hx
  have hnext : t.origins s.next = .all pms := by
    subst ht
    exact origins_create_next
  -- nothing before is about the new promise
  have hframes : ∀ frame ∈ stack, s.next ∉ frame.targets := by
    intro frame hframe hmem
    exact (hs.addressed.frames frame hframe s.next hmem).ne rfl
  have hloops : stack.countP (Frame.isLoop s.next) = 0 := by
    apply List.countP_eq_zero.mpr
    intro frame hframe hloop
    cases frame with
    | all rest idx npm =>
      rw [← eq_of_beq hloop] at hframes
      exact hframes _ hframe List.mem_cons_self
    | _ => cases hloop
  have hslots : ∀ i, stack.countP (Frame.isSlot i s.next) = 0 := by
    intro i
    apply List.countP_eq_zero.mpr
    intro frame hframe hslot
    cases frame with
    | slot idx npm v =>
      rw [← eq_of_beq (Bool.and_eq_true_iff.mp hslot).2] at hframes
      exact hframes _ hframe List.mem_cons_self
    | _ => cases hslot
  have hcode : (Frame.code c target).isLoop s.next = false := rfl
  have hself : (Frame.all pms 0 s.next : Frame F V).isLoop s.next = true :=
    beq_self_eq_true s.next
  have hloops' : ([Frame.all pms 0 s.next, .code c target] ++ stack).countP
      (Frame.isLoop s.next) = 1 := by
    rw [List.countP_append, hloops, List.countP_cons_of_pos hself]
    rfl
  refine ⟨?_, ?_, ?_, ?_, ?_, ?_, ?_, ?_, ?_, ?_⟩
  · rw [hgather]
    rfl
  · rw [hgather]
    exact List.length_replicate
  · rw [hgather]
    intro i hi
    cases hi
  · rw [hgather]
    intro i x hx
    cases hx
  · intro x pm func waited i hchild hfunc
    by_cases hx : x = s.next
    · rw [hx, hnext] at hchild
      cases hchild
    · rw [hother x hx] at hchild
      have hlt := hs.addressed.funcs x pm func waited .fulfilled _ hchild hfunc s.next
        List.mem_cons_self
      exact absurd rfl hlt.ne
  · rw [hgather]
    intro rest idx hmem
    rcases List.mem_append.mp hmem with hmem | hmem
    · rcases List.mem_cons.mp hmem with heq | hmem
      · cases heq
        rfl
      · cases List.mem_singleton.mp hmem
    · exact absurd List.mem_cons_self (hframes _ hmem)
  · rw [hloops']
  · rw [hloops']
    exact fun _ => Nat.zero_lt_one
  · intro i
    unfold slotCalls
    rw [hgather, List.countP_append, hslots i]
    rfl
  · rw [hgather]
    intro hzero
    exact absurd (List.length_eq_zero_iff.mp hzero) hpms

/-- What `all` shares is as it should be, for every `all`. -/
def AllGathered (s : Machine F V) (stack : List (Frame F V)) : Prop :=
  ∀ npm pms, s.origins npm = .all pms → s.Gathered stack npm pms

theorem lt_next_of_all (hs : s.Sound stack) {pms : List ℕ} (h : s.origins npm = .all pms) :
    npm < s.next := by
  by_contra hle
  rw [hs.accounted.origins_of_le npm (by omega)] at h
  cases h

/-- A `then` that is not that of `all`, after some frames were put on the stack. -/
theorem AllGathered.subscribe (h : s.AllGathered (frame :: s.stack))
    (hs : s.Sound (frame :: s.stack)) {u : Machine F V} {frames : List (Frame F V)}
    (hstack : u.stack = frames ++ s.stack) (hheap : u.heap = s.heap) (hnext : u.next = s.next)
    (hgathers : u.gathers = s.gathers) (horigins : u.origins = s.origins) (hlog : u.log = s.log)
    (hforced : u.forced = s.forced) (hframe : frame.plain = true)
    (hframes : ∀ frame' ∈ frames, frame'.plain = true)
    (hdone : ∀ npm side value, frame ≠ .settle npm side value)
    (hfunc : ∀ i npm, func .fulfilled ≠ some (.slot i npm)) :
    (u.subscribe pm func).AllGathered (u.subscribe pm func).stack := by
  have hext : s.Extends (u.subscribe pm func) := by
    refine Extends.subscribe ?_
    exact .of_eq hheap hnext horigins (by rw [hforced]; exact List.Subset.refl _)
  intro npm pms horigin
  have hnpm : s.origins npm = .all pms := by
    by_cases hnew : npm = u.next
    · obtain ⟨waited, hchild⟩ := origins_subscribe_next u pm func
      rw [hnew, hchild] at horigin
      cases horigin
    · rw [← horigins, ← origins_subscribe hnew]
      exact horigin
  have hstep : ∀ {frames' : List (Frame F V)}, (∀ frame' ∈ frames', frame'.plain = true) →
      (u.subscribe pm func).Gathered (frames' ++ s.stack) npm pms := by
    intro frames' hframes'
    obtain ⟨waited, hchild⟩ := origins_subscribe_next u pm func
    refine (h npm pms hnpm).step_plain hs hext (by rw [gathers_subscribe, hgathers])
      (by rw [log_subscribe, hlog]) hframe hframes' ?_ fun side value heq =>
        absurd heq (hdone npm side value)
    intro x hx pm' func' waited' i hx'
    by_cases hnew : x = u.next
    · rw [hnew, hchild] at hx'
      cases hx'
      exact hfunc i npm
    · rw [origins_subscribe hnew, horigins, hs.accounted.origins_of_le x hx] at hx'
      cases hx'
  rcases stack_subscribe u pm func with hsame | ⟨cb, hcall⟩
  · rw [hsame, hstack]
    exact hstep hframes
  · rw [hcall, hstack, ← List.cons_append]
    exact hstep (List.forall_mem_cons.mpr ⟨rfl, hframes⟩)

/-- The loop of another `all` registers a callback. -/
theorem Gathered.subscribe_other {pms rest : List ℕ}
    (h : s.Gathered (.all (pm :: rest) idx m :: s.stack) npm pms) (hne : m ≠ npm)
    (hs : s.Sound (.all (pm :: rest) idx m :: s.stack)) {frames : List (Frame F V)}
    (hframes : ∀ frame ∈ frames, frame.plain = true) :
    Gathered (((s.push [.all rest (idx + 1) m]).adopt m s.next).subscribe pm (allFuncs idx m))
      (frames ++ ([.all rest (idx + 1) m] ++ s.stack)) npm pms := by
  generalize hu : (s.push [.all rest (idx + 1) m]).adopt m s.next = u
  have hext : s.Extends (u.subscribe pm (allFuncs idx m)) := by
    subst hu
    refine Extends.subscribe ?_
    exact .of_eq rfl rfl rfl (List.Subset.refl _)
  have hgather : (u.subscribe pm (allFuncs idx m)).gathers npm = s.gathers npm := by
    subst hu
    rw [gathers_subscribe]
    exact Function.update_of_ne (Ne.symm hne) _ _
  have hlog : (u.subscribe pm (allFuncs idx m)).log = s.log := by
    subst hu
    exact log_subscribe
  have hloop : ∀ rest idx, ¬ (Frame.all rest idx m : Frame F V).isLoop npm = true := by
    intro rest idx
    rw [Frame.isLoop_of_ne hne]
    exact Bool.false_ne_true
  rw [← List.append_assoc]
  refine h.step hs hext hgather ?_ ?_ ?_ ?_ ?_ ?_
  · rw [List.countP_append, countP_isLoop_of_plain hframes, List.countP_cons_of_neg (hloop _ _)]
    exact Nat.zero_le _
  · rw [List.countP_cons_of_neg (hloop _ _)]
    exact fun _ => Nat.zero_le _
  · intro rest' i hmem
    rcases List.mem_append.mp hmem with hmem | hmem
    · cases hframes _ hmem
    · cases List.mem_singleton.mp hmem
      exact absurd rfl hne
  · intro i
    rw [List.countP_append, countP_isSlot_of_plain hframes, slotCalls_congr (by rw [hgather]) hlog]
    rfl
  · intro x hx pm' func waited i hchild
    by_cases hxnew : x = s.next
    · have hnext : ∃ waited, (u.subscribe pm (allFuncs idx m)).origins s.next =
          .child pm (allFuncs idx m) waited := by
        subst hu
        exact origins_subscribe_next ..
      obtain ⟨waited', hchild'⟩ := hnext
      rw [hxnew, hchild'] at hchild
      cases hchild
      intro heq
      cases heq
      exact hne rfl
    · have hother : (u.subscribe pm (allFuncs idx m)).origins x = s.origins x := by
        subst hu
        exact origins_subscribe hxnew
      rw [hother, hs.accounted.origins_of_le x hx] at hchild
      cases hchild
  · intro side value heq
    cases heq

/-- A slot of another `all` is written. -/
theorem Gathered.step_slot {pms : List ℕ} (h : s.Gathered (.slot idx m v :: stack) npm pms)
    (hne : m ≠ npm) (hs : s.Sound (.slot idx m v :: stack)) (hext : s.Extends t)
    (hgathers : t.gathers = (s.fill idx m v).gathers) (horigins : t.origins = s.origins)
    (hlog : t.log = s.log) {frames : List (Frame F V)}
    (hframes : ∀ frame ∈ frames, frame.plain = true) : t.Gathered (frames ++ stack) npm pms := by
  have hgather : t.gathers npm = s.gathers npm := by
    rw [hgathers]
    exact Function.update_of_ne (Ne.symm hne) _ _
  refine h.step hs hext hgather ?_ ?_ ?_ ?_ ?_ ?_
  · rw [countP_isLoop_of_plain hframes]
    exact Nat.zero_le _
  · exact fun _ => Nat.zero_le _
  · intro rest i hmem
    cases hframes _ hmem
  · intro i
    rw [countP_isSlot_of_plain hframes, slotCalls_congr (by rw [hgather]) hlog,
      List.countP_cons_of_neg (by rw [Frame.isSlot_of_ne hne]; exact Bool.false_ne_true)]
    rfl
  · intro x hx pm func waited i hchild
    rw [horigins, hs.accounted.origins_of_le x hx] at hchild
    cases hchild
  · intro side value heq
    cases heq

theorem stack_settle {value : Option (Any V)} : (s.settle pm side value).stack = s.stack ∨
    ∃ cbs, (s.settle pm side value).stack = .trigger pm side cbs :: s.stack := by
  unfold Machine.settle
  split
  · exact Or.inl rfl
  · exact Or.inr ⟨_, rfl⟩

theorem state_settle {value : Option (Any V)} :
    ((s.settle pm side value).heap pm).state ≠ .pending := by
  unfold Machine.settle
  split
  · rename_i hstate
    rw [hstate]
    intro heq
    cases heq
  · dsimp only
    rw [Function.update_self]
    intro heq
    cases heq

/-- Every step keeps what `all` shares. -/
theorem Exec.allGathered (he : Exec body s frame t) (h : s.AllGathered (frame :: s.stack))
    (hs : s.Sound (frame :: s.stack)) (hcaused : s.Caused (frame :: s.stack)) :
    t.AllGathered t.stack := by
  have hext := he.extends
  have hfine := hcaused.frames frame List.mem_cons_self
  -- a step that makes no promise and is neither that of a slot nor of a loop
  have hplain : ∀ {frames : List (Frame F V)}, t.stack = frames ++ s.stack →
      t.origins = s.origins → t.gathers = s.gathers → t.log = s.log → frame.plain = true →
      (∀ frame' ∈ frames, frame'.plain = true) →
      (∀ npm side value, frame = .settle npm side value → (t.heap npm).state ≠ .pending) →
      t.AllGathered t.stack := by
    intro frames hstack horigins hgathers hlog hframe hframes hdone npm pms horigin
    rw [horigins] at horigin
    rw [hstack]
    refine (h npm pms horigin).step_plain hs hext (by rw [hgathers]) hlog hframe hframes ?_
      (hdone npm)
    intro x hx pm func waited i hchild
    rw [horigins, hs.accounted.origins_of_le x hx] at hchild
    cases hchild
  cases he with
  | ret r =>
    exact hplain (List.nil_append _).symm rfl rfl rfl rfl (List.forall_mem_nil _)
      fun npm side value heq => by cases heq
  | returnVoid side npm =>
    exact hplain rfl rfl rfl rfl rfl (List.forall_mem_singleton.mpr rfl)
      fun npm side value heq => by cases heq
  | returnAny v side npm =>
    exact hplain rfl rfl rfl rfl rfl (List.forall_mem_singleton.mpr rfl)
      fun npm side value heq => by cases heq
  | returnPromise side npm hq =>
    exact h.subscribe hs (List.nil_append _).symm rfl rfl rfl rfl rfl rfl rfl
      (List.forall_mem_nil _)
      (fun npm side value heq => by cases heq) fun i npm heq => by cases heq
  | input x k target =>
    exact hplain rfl rfl rfl rfl rfl (List.forall_mem_singleton.mpr rfl)
      fun npm side value heq => by cases heq
  | create k target =>
    intro npm pms horigin
    by_cases hnew : npm = s.next
    · have hclient : (s.create .client).origins npm = .all pms := horigin
      rw [hnew, origins_create_next] at hclient
      cases hclient
    · have hold : (s.create .client).origins npm = .all pms := horigin
      rw [origins_create hnew] at hold
      exact (h npm pms hold).step_create hs hext rfl rfl rfl (List.forall_mem_singleton.mpr rfl) rfl
        (fun pm func waited i heq => by cases heq) fun side value heq => by cases heq
  | settleCode side value k target hpm =>
    exact hplain rfl rfl rfl rfl rfl
      (List.forall_mem_cons.mpr ⟨rfl, List.forall_mem_singleton.mpr rfl⟩)
      fun npm side value heq => by cases heq
  | andThen onFulfilled onRejected k target hpm =>
    refine h.subscribe hs rfl rfl rfl rfl rfl rfl rfl rfl (List.forall_mem_singleton.mpr rfl)
      (fun npm side value heq => by cases heq) ?_
    intro i npm heq
    obtain ⟨f, -, hf⟩ := Option.map_eq_some_iff.mp heq
    cases hf
  | @all pms k target hpms =>
    intro npm pms' horigin
    by_cases hnew : npm = s.next
    · have hall : (s.create (.all pms)).origins npm = .all pms' := horigin
      rw [hnew, origins_create_next] at hall
      cases hall
      rw [hnew]
      exact Gathered.create (hs.pop rfl) hpms
    · have hold : (s.create (.all pms)).origins npm = .all pms' := horigin
      rw [origins_create hnew] at hold
      have hne : s.next ≠ npm := (lt_next_of_all hs hold).ne'
      have hloop : ([Frame.all pms 0 s.next, .code (k s.next) target]).countP
          (Frame.isLoop npm) = 0 := by
        rw [List.countP_cons_of_neg (by rw [Frame.isLoop_of_ne hne]; exact Bool.false_ne_true)]
        rfl
      refine (h npm pms' hold).step hs hext (Function.update_of_ne hnew _ _) ?_ ?_ ?_ ?_ ?_ ?_
      · rw [hloop]
        exact Nat.zero_le _
      · exact fun _ => Nat.zero_le _
      · intro rest idx hmem
        rcases List.mem_cons.mp hmem with heq | hmem
        · cases heq
          exact absurd rfl hne
        · cases List.mem_singleton.mp hmem
      · intro i
        rw [slotCalls_congr (s := s) (t := ((s.push _).gather s.next pms.length).create (.all pms))
          (congrArg Gather.children (Function.update_of_ne hnew _ _)) rfl]
        rfl
      · intro x hx pm func waited i hchild
        have hchild : (s.create (.all pms)).origins x = .child pm func waited := hchild
        by_cases hxnew : x = s.next
        · rw [hxnew, origins_create_next] at hchild
          cases hchild
        · rw [origins_create hxnew, hs.accounted.origins_of_le x hx] at hchild
          cases hchild
      · intro side value heq
        cases heq
  | race pms k target =>
    intro npm pms' horigin
    have hrace : (s.create (.race pms)).origins npm = .all pms' := horigin
    by_cases hnew : npm = s.next
    · rw [hnew, origins_create_next] at hrace
      cases hrace
    · rw [origins_create hnew] at hrace
      exact (h npm pms' hrace).step_create hs hext rfl rfl rfl
        (List.forall_mem_cons.mpr ⟨rfl, List.forall_mem_singleton.mpr rfl⟩) rfl
        (fun pm func waited i heq => by cases heq) fun side value heq => by cases heq
  | settle pm side value =>
    have hrest : (s.settle pm side value).origins = s.origins ∧
        (s.settle pm side value).gathers = s.gathers ∧ (s.settle pm side value).log = s.log := by
      unfold Machine.settle
      split
      all_goals exact ⟨rfl, rfl, rfl⟩
    obtain ⟨horigins, hgathers, hlog⟩ := hrest
    have hdone : ∀ npm side' value',
        (Frame.settle pm side value : Frame F V) = .settle npm side' value' →
        ((s.settle pm side value).heap npm).state ≠ .pending := by
      intro npm side' value' heq
      cases heq
      exact state_settle
    rcases stack_settle (s := s) with hstack | ⟨cbs, hstack⟩
    · exact hplain (hstack.trans (List.nil_append _).symm) horigins hgathers hlog rfl
        (List.forall_mem_nil _) hdone
    · refine hplain (hstack.trans (List.singleton_append).symm) horigins hgathers hlog rfl
        (List.forall_mem_singleton.mpr rfl) hdone
  | triggerNil pm side =>
    exact hplain (List.nil_append _).symm rfl rfl rfl rfl (List.forall_mem_nil _)
      fun npm side value heq => by cases heq
  | triggerCons pm side cb cbs =>
    exact hplain rfl rfl rfl rfl rfl
      (List.forall_mem_cons.mpr ⟨rfl, List.forall_mem_singleton.mpr rfl⟩)
      fun npm side value heq => by cases heq
  | call cb =>
    intro npm pms horigin
    exact (h npm pms horigin).call hs hcaused
  | @slot idx m v hsize =>
    intro npm pms horigin
    by_cases hne : m = npm
    · subst hne
      have hfill : (s.fill idx m v).Gathered ([] ++ s.stack) m pms :=
        Gathered.fill (t := s.fill idx m v) (h m pms horigin) hs hfine horigin rfl rfl rfl rfl
          (List.forall_mem_nil _) fun hzero => absurd hzero hsize
      exact hfill
    · have hstep : (s.fill idx m v).Gathered ([] ++ s.stack) npm pms :=
        (h npm pms horigin).step_slot hne hs hext rfl rfl rfl (List.forall_mem_nil _)
      exact hstep
  | @slotLast idx m v hsize =>
    intro npm pms horigin
    by_cases hne : m = npm
    · subst hne
      refine (h m pms horigin).fill hs hfine horigin ?_ ?_ ?_ ?_
        (List.forall_mem_singleton.mpr rfl) fun _ => ⟨_, _, List.mem_singleton_self _⟩
      all_goals rfl
    · exact (h npm pms horigin).step_slot hne hs hext rfl rfl rfl
        (List.forall_mem_singleton.mpr rfl)
  | allNil idx m =>
    intro npm pms horigin
    have hstep : s.Gathered ([] ++ s.stack) npm pms := by
      refine (h npm pms horigin).step hs hext rfl ?_ ?_ ?_ ?_ ?_ ?_
      · exact Nat.zero_le _
      · intro hlt
        by_cases hne : m = npm
        · -- the loop has come to the end of the list
          subst hne
          obtain ⟨pms', horigin', hdrop⟩ := hfine
          rw [horigin] at horigin'
          cases horigin'
          have hidx := (h m pms horigin).loop [] idx List.mem_cons_self
          have hle := List.drop_eq_nil_iff.mp hdrop.symm
          omega
        · rw [List.countP_cons_of_neg (by rw [Frame.isLoop_of_ne hne]; exact Bool.false_ne_true)]
      · intro rest i hmem
        cases hmem
      · exact fun i => rfl
      · intro x hx pm func waited i hchild
        rw [hs.accounted.origins_of_le x hx] at hchild
        cases hchild
      · intro side value heq
        cases heq
    exact hstep
  | @allCons pm rest idx m hpm =>
    intro npm pms horigin
    have hold : s.origins npm = .all pms := by
      by_cases hnew : npm = s.next
      · obtain ⟨waited, hchild⟩ := origins_subscribe_next
          ((s.push [.all rest (idx + 1) m]).adopt m s.next) pm (allFuncs idx m)
        subst hnew
        cases hchild.symm.trans horigin
      · exact (origins_subscribe (s := (s.push [.all rest (idx + 1) m]).adopt m s.next)
          hnew).symm.trans horigin
    have hframes : ∀ {frames : List (Frame F V)}, (∀ frame ∈ frames, frame.plain = true) →
        Gathered (((s.push [.all rest (idx + 1) m]).adopt m s.next).subscribe pm (allFuncs idx m))
          (frames ++ ([.all rest (idx + 1) m] ++ s.stack)) npm pms := by
      intro frames hframes
      by_cases hne : m = npm
      · subst hne
        exact (h m pms hold).subscribe hs hfine hold hframes
      · exact (h npm pms hold).subscribe_other hne hs hframes
    rcases stack_subscribe ((s.push [.all rest (idx + 1) m]).adopt m s.next) pm
      (allFuncs idx m) with hstack | ⟨cb, hstack⟩
    · rw [hstack]
      exact hframes (List.forall_mem_nil _)
    · rw [hstack]
      exact hframes (List.forall_mem_singleton.mpr (show (Frame.call cb).plain = true from rfl))
  | raceNil npm =>
    exact hplain (List.nil_append _).symm rfl rfl rfl rfl (List.forall_mem_nil _)
      fun npm side value heq => by cases heq
  | @raceCons pm rest m hpm =>
    exact h.subscribe hs rfl rfl rfl rfl rfl rfl rfl rfl (List.forall_mem_singleton.mpr rfl)
      (fun npm side value heq => by cases heq) fun i npm heq => by cases heq

end Machine

end OptRand.Promises
