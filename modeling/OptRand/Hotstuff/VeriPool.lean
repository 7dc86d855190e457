import Mathlib.Data.List.Count
import Mathlib.Logic.Function.Basic

/-!
# The pool of verification threads (`task.h`)

The main thread gives tasks to worker threads through one queue and takes the results from another.
A task is known by its address, which the allocator may use again once the task is freed. The queues
keep what they are given, in any order. A promise is a number. The handler of the results looks its
task up before it resolves the promise, and erases it with the same iterator afterwards; the
iterator is taken to survive what a callback inserts in between.
-/

namespace OptRand.Hotstuff

/-- The state of `VeriPool`, with the field `result` of the tasks and what is in progress. `working`
are the tasks that the workers verify, `handling` is the task whose promise the main thread
resolves. `issued` and `resolved` are history: the tasks by their promises, and the calls of
`resolve`, the newest first. -/
structure VeriPool (Task : Type) where
  inQueue : List ℕ := []
  working : List ℕ := []
  outQueue : List ℕ := []
  pms : ℕ → Option (Task × ℕ) := fun _ => none
  result : ℕ → Option Bool := fun _ => none
  handling : Option ℕ := none
  nextPromise : ℕ := 0
  issued : ℕ → Option Task := fun _ => none
  resolved : List (ℕ × Bool) := []

namespace VeriPool

variable {Task : Type}

/-- What goes wrong: the assertion of `verify`, or an access to a task that is not there. -/
inductive Error
  | assertion
  | undefined
  deriving DecidableEq

/-- What the threads do next. The handlers of the queues are given what they dequeue. -/
inductive Action (Task : Type)
  | verify (task : Task) (ptr : ℕ)
  | take (ptr : ℕ)
  | finish (ptr : ℕ)
  | resolve (ptr : ℕ)
  | erase (ptr : ℕ)

/-- `VeriPool::verify`. The field `result` of the new task holds nothing. -/
def verify (s : VeriPool Task) (task : Task) (ptr : ℕ) : Except Error (VeriPool Task) :=
  if (s.pms ptr).isSome then .error .assertion
  else .ok { s with
    pms := Function.update s.pms ptr (some (task, s.nextPromise))
    result := Function.update s.result ptr none
    inQueue := s.inQueue ++ [ptr]
    nextPromise := s.nextPromise + 1
    issued := Function.update s.issued s.nextPromise (some task) }

/-- A worker dequeues a task. -/
def take (s : VeriPool Task) (ptr : ℕ) : VeriPool Task :=
  { s with inQueue := s.inQueue.erase ptr, working := ptr :: s.working }

/-- A worker verifies its task and enqueues it. -/
def finish (verifies : Task → Bool) (s : VeriPool Task) (ptr : ℕ) :
    Except Error (VeriPool Task) :=
  match s.pms ptr with
  | none => .error .undefined
  | some (task, _) =>
    .ok { s with
      working := s.working.erase ptr
      result := Function.update s.result ptr (some (verifies task))
      outQueue := s.outQueue ++ [ptr] }

/-- The main thread dequeues a task and resolves its promise. -/
def resolve (s : VeriPool Task) (ptr : ℕ) : Except Error (VeriPool Task) :=
  match s.pms ptr, s.result ptr with
  | some (_, pm), some r =>
    .ok { s with
      outQueue := s.outQueue.erase ptr
      handling := some ptr
      resolved := (pm, r) :: s.resolved }
  | _, _ => .error .undefined

/-- The callbacks have returned, and the task is freed. The iterator is that of the task, also if a
callback has called `verify`. -/
def erase (s : VeriPool Task) (ptr : ℕ) : Except Error (VeriPool Task) :=
  match s.pms ptr with
  | none => .error .undefined
  | some _ => .ok { s with pms := Function.update s.pms ptr none, handling := none }

def exec (verifies : Task → Bool) (s : VeriPool Task) :
    Action Task → Except Error (VeriPool Task)
  | .verify task ptr => s.verify task ptr
  | .take ptr => .ok (s.take ptr)
  | .finish ptr => s.finish verifies ptr
  | .resolve ptr => s.resolve ptr
  | .erase ptr => s.erase ptr

/-- What the threads can do next. The allocator gives an address that no task has; the main thread
may call `verify` also from the callbacks of the promise that it resolves. -/
def Enabled (nworker : ℕ) (s : VeriPool Task) : Action Task → Prop
  | .verify _ ptr => s.pms ptr = none
  | .take ptr => ptr ∈ s.inQueue ∧ s.working.length < nworker
  | .finish ptr => ptr ∈ s.working
  | .resolve ptr => ptr ∈ s.outQueue ∧ s.handling = none
  | .erase ptr => s.handling = some ptr

/-- The states that are reached in some interleaving of the threads. -/
inductive Run (verifies : Task → Bool) (nworker : ℕ) : VeriPool Task → Prop
  | init : Run verifies nworker {}
  | step {s t : VeriPool Task} (a : Action Task) (h : Run verifies nworker s)
      (ha : s.Enabled nworker a) (hstep : s.exec verifies a = .ok t) : Run verifies nworker t

/-- How often an address is on its way. -/
def places (s : VeriPool Task) (ptr : ℕ) : ℕ :=
  s.inQueue.count ptr + s.working.count ptr + s.outQueue.count ptr +
    s.handling.toList.count ptr

/-- How many steps the threads have left. -/
def load (s : VeriPool Task) : ℕ :=
  4 * s.inQueue.length + 3 * s.working.length + 2 * s.outQueue.length +
    s.handling.toList.length

/-- Each task is in one place, and each promise has one task until it is resolved. -/
structure Inv (verifies : Task → Bool) (s : VeriPool Task) : Prop where
  places : ∀ ptr, s.places ptr = (s.pms ptr).toList.length
  done : ∀ ptr ∈ s.outQueue, ∀ task pm, s.pms ptr = some (task, pm) →
    s.result ptr = some (verifies task)
  issued : ∀ ptr task pm, s.pms ptr = some (task, pm) → s.issued pm = some task
  issued_iff : ∀ pm, s.issued pm = none ↔ s.nextPromise ≤ pm
  unique : ∀ ptr ptr' task task' pm, s.pms ptr = some (task, pm) →
    s.pms ptr' = some (task', pm) → ptr = ptr'
  resolved : ∀ p ∈ s.resolved, ∃ task, s.issued p.1 = some task ∧ p.2 = verifies task
  once : (s.resolved.map Prod.fst).Nodup
  handled : ∀ pm ∈ s.resolved.map Prod.fst, ∀ ptr task, s.pms ptr = some (task, pm) →
    s.handling = some ptr
  kept : ∀ pm < s.nextPromise, pm ∈ s.resolved.map Prod.fst ∨
    ∃ ptr task, s.pms ptr = some (task, pm) ∧ s.handling ≠ some ptr

variable {verifies : Task → Bool} {nworker : ℕ} {s t : VeriPool Task} {ptr pm : ℕ} {task : Task}

theorem Inv.init : Inv verifies ({} : VeriPool Task) where
  places _ := rfl
  done _ hmem := by cases hmem
  issued _ _ _ hpms := by cases hpms
  issued_iff pm := iff_of_true rfl (Nat.zero_le pm)
  unique _ _ _ _ _ hpms := by cases hpms
  resolved _ hmem := by cases hmem
  once := List.nodup_nil
  handled _ hmem := by cases hmem
  kept _ hlt := absurd hlt (Nat.not_lt_zero _)

/-- What is on its way has its entry. -/
theorem Inv.exists_entry (h : Inv verifies s) (hpos : 0 < s.places ptr) :
    ∃ task pm, s.pms ptr = some (task, pm) := by
  rw [h.places ptr] at hpos
  cases hpms : s.pms ptr with
  | none =>
    rw [hpms] at hpos
    exact absurd hpos (Nat.lt_irrefl 0)
  | some entry => exact ⟨entry.1, entry.2, rfl⟩

theorem Inv.places_of_entry (h : Inv verifies s) {entry : Task × ℕ}
    (hpms : s.pms ptr = some entry) : s.places ptr = 1 := by
  rw [h.places ptr, hpms]
  rfl

/-! ## Steps -/

/-- A new task gets the address that no task has. -/
theorem Inv.verify (h : Inv verifies s) (hfresh : s.pms ptr = none) :
    ∃ t, s.verify task ptr = .ok t ∧ Inv verifies t := by
  have hplaces : s.places ptr = 0 := by rw [h.places ptr, hfresh]; rfl
  unfold VeriPool.places at hplaces
  have hnext : ∀ pm task, s.issued pm = some task → pm < s.nextPromise := by
    intro pm task hissued
    by_contra hle
    rw [(h.issued_iff pm).mpr (by omega)] at hissued
    cases hissued
  refine ⟨_, by rw [VeriPool.verify, hfresh]; rfl, ?_⟩
  refine ⟨?_, ?_, ?_, ?_, ?_, ?_, h.once, ?_, ?_⟩
  · intro ptr'
    have hold := h.places ptr'
    unfold VeriPool.places at hold ⊢
    dsimp only
    rw [List.count_append]
    by_cases hptr : ptr' = ptr
    · subst hptr
      rw [Function.update_self, List.count_singleton_self]
      show _ = 1
      omega
    · rw [Function.update_of_ne hptr, ← hold,
        List.count_eq_zero_of_not_mem fun hmem => hptr (List.mem_singleton.mp hmem)]
      rfl
  · intro ptr' hmem task' pm' hpms
    have hne : ptr' ≠ ptr := by
      rintro rfl
      have hpos : 0 < s.outQueue.count ptr' := List.count_pos_iff.mpr hmem
      omega
    dsimp only at hpms ⊢
    rw [Function.update_of_ne hne] at hpms ⊢
    exact h.done ptr' hmem task' pm' hpms
  · intro ptr' task' pm' hpms
    dsimp only at hpms ⊢
    by_cases hptr : ptr' = ptr
    · subst hptr
      rw [Function.update_self] at hpms
      cases hpms
      exact Function.update_self ..
    · rw [Function.update_of_ne hptr] at hpms
      have hissued := h.issued ptr' task' pm' hpms
      have hlt := hnext pm' task' hissued
      rw [Function.update_of_ne (by omega), hissued]
  · intro pm'
    dsimp only
    by_cases hpm : pm' = s.nextPromise
    · subst hpm
      rw [Function.update_self]
      exact iff_of_false (fun heq => by cases heq) (by omega)
    · rw [Function.update_of_ne hpm, h.issued_iff]
      omega
  · intro ptr₁ ptr₂ task₁ task₂ pm' h₁ h₂
    dsimp only at h₁ h₂
    by_cases hptr₁ : ptr₁ = ptr
    · by_cases hptr₂ : ptr₂ = ptr
      · rw [hptr₁, hptr₂]
      · subst hptr₁
        rw [Function.update_self] at h₁
        rw [Function.update_of_ne hptr₂] at h₂
        cases h₁
        exact absurd (hnext _ _ (h.issued _ _ _ h₂)) (Nat.lt_irrefl _)
    · rw [Function.update_of_ne hptr₁] at h₁
      by_cases hptr₂ : ptr₂ = ptr
      · subst hptr₂
        rw [Function.update_self] at h₂
        cases h₂
        exact absurd (hnext _ _ (h.issued _ _ _ h₁)) (Nat.lt_irrefl _)
      · rw [Function.update_of_ne hptr₂] at h₂
        exact h.unique ptr₁ ptr₂ task₁ task₂ pm' h₁ h₂
  · intro p hp
    obtain ⟨task', hissued, hresult⟩ := h.resolved p hp
    have hlt := hnext p.1 task' hissued
    refine ⟨task', ?_, hresult⟩
    dsimp only
    rw [Function.update_of_ne (by omega), hissued]
  · intro pm' hpm' ptr' task' hpms
    dsimp only at hpm' hpms ⊢
    by_cases hptr : ptr' = ptr
    · subst hptr
      rw [Function.update_self] at hpms
      cases hpms
      obtain ⟨p, hp, hpeq⟩ := List.mem_map.mp hpm'
      obtain ⟨task', hissued, -⟩ := h.resolved p hp
      rw [hpeq] at hissued
      exact absurd (hnext _ _ hissued) (Nat.lt_irrefl _)
    · rw [Function.update_of_ne hptr] at hpms
      exact h.handled pm' hpm' ptr' task' hpms
  · intro pm' hpm'
    dsimp only at hpm' ⊢
    by_cases hpm : pm' = s.nextPromise
    · refine Or.inr ⟨ptr, task, by rw [Function.update_self, hpm], ?_⟩
      intro hhandling
      rw [hhandling] at hplaces
      rw [show (some ptr).toList.count ptr = 1 from List.count_singleton_self] at hplaces
      omega
    · rcases h.kept pm' (by omega) with hmem | ⟨ptr', task', hpms, hne⟩
      · exact Or.inl hmem
      · have hptr : ptr' ≠ ptr := by
          rintro rfl
          rw [hfresh] at hpms
          cases hpms
        exact Or.inr ⟨ptr', task', by rw [Function.update_of_ne hptr, hpms], hne⟩

/-- A task goes from one place to another. -/
theorem Inv.move (h : Inv verifies s) (hplaces : ∀ ptr', t.places ptr' = s.places ptr')
    (hdone : ∀ ptr' ∈ t.outQueue, ∀ task pm, s.pms ptr' = some (task, pm) →
      t.result ptr' = some (verifies task))
    (hpms : t.pms = s.pms) (hissued : t.issued = s.issued) (hnext : t.nextPromise = s.nextPromise)
    (hresolved : t.resolved = s.resolved) (hhandling : t.handling = s.handling) :
    Inv verifies t := by
  refine ⟨?_, ?_, ?_, ?_, ?_, ?_, ?_, ?_, ?_⟩
  · intro ptr'
    rw [hplaces, hpms]
    exact h.places ptr'
  · rw [hpms]
    exact hdone
  · rw [hpms, hissued]
    exact h.issued
  · rw [hissued, hnext]
    exact h.issued_iff
  · rw [hpms]
    exact h.unique
  · rw [hresolved, hissued]
    exact h.resolved
  · rw [hresolved]
    exact h.once
  · rw [hresolved, hpms, hhandling]
    exact h.handled
  · rw [hnext, hresolved, hpms, hhandling]
    exact h.kept

theorem count_erase_add {l : List ℕ} (hmem : ptr ∈ l) (ptr' : ℕ) :
    (l.erase ptr).count ptr' + [ptr].count ptr' = l.count ptr' := by
  have hperm := (List.perm_cons_erase hmem).count_eq ptr'
  rw [← List.singleton_append, List.count_append] at hperm
  omega

theorem Inv.take (h : Inv verifies s) (hmem : ptr ∈ s.inQueue) : Inv verifies (s.take ptr) := by
  refine h.move ?_ h.done rfl rfl rfl rfl rfl
  intro ptr'
  have hcount := count_erase_add hmem ptr'
  unfold VeriPool.places VeriPool.take
  dsimp only
  rw [← List.singleton_append, List.count_append]
  omega

theorem Inv.finish (h : Inv verifies s) (hmem : ptr ∈ s.working) :
    ∃ t, s.finish verifies ptr = .ok t ∧ Inv verifies t := by
  have hpos : 0 < s.places ptr := by
    have hworking : 0 < s.working.count ptr := List.count_pos_iff.mpr hmem
    unfold VeriPool.places
    omega
  obtain ⟨task, pm, hpms⟩ := h.exists_entry hpos
  have hfinish : s.finish verifies ptr = .ok { s with
      working := s.working.erase ptr
      result := Function.update s.result ptr (some (verifies task))
      outQueue := s.outQueue ++ [ptr] } := by
    rw [VeriPool.finish, hpms]
  refine ⟨_, hfinish, h.move ?_ ?_ rfl rfl rfl rfl rfl⟩
  · intro ptr'
    have hcount := count_erase_add hmem ptr'
    unfold VeriPool.places
    dsimp only
    rw [List.count_append]
    omega
  · intro ptr' hmem' task' pm' hpms'
    dsimp only at hmem' ⊢
    by_cases hptr : ptr' = ptr
    · subst hptr
      rw [hpms] at hpms'
      cases hpms'
      exact Function.update_self ..
    · rw [Function.update_of_ne hptr]
      have hmem' : ptr' ∈ s.outQueue := by
        rcases List.mem_append.mp hmem' with hmem' | hmem'
        · exact hmem'
        · exact absurd (List.mem_singleton.mp hmem') hptr
      exact h.done ptr' hmem' task' pm' hpms'

theorem Inv.resolve (h : Inv verifies s) (hmem : ptr ∈ s.outQueue) (hidle : s.handling = none) :
    ∃ t, s.resolve ptr = .ok t ∧ Inv verifies t := by
  have hout : 0 < s.outQueue.count ptr := List.count_pos_iff.mpr hmem
  have hpos : 0 < s.places ptr := by
    unfold VeriPool.places
    omega
  obtain ⟨task, pm, hpms⟩ := h.exists_entry hpos
  have hresult := h.done ptr hmem task pm hpms
  have hresolve : s.resolve ptr = .ok { s with
      outQueue := s.outQueue.erase ptr
      handling := some ptr
      resolved := (pm, verifies task) :: s.resolved } := by
    rw [VeriPool.resolve, hpms, hresult]
  have hnew : pm ∉ s.resolved.map Prod.fst := by
    intro hold
    have hhandling := h.handled pm hold ptr task hpms
    rw [hidle] at hhandling
    cases hhandling
  refine ⟨_, hresolve, ?_, ?_, h.issued, h.issued_iff, h.unique, ?_, ?_, ?_, ?_⟩
  · intro ptr'
    have hcount := count_erase_add hmem ptr'
    rw [← h.places ptr']
    unfold VeriPool.places
    dsimp only
    rw [hidle]
    show _ + _ + _ + [ptr].count ptr' = _ + _ + _ + [].count ptr'
    rw [List.count_nil]
    omega
  · intro ptr' hmem'
    exact h.done ptr' (List.mem_of_mem_erase hmem')
  · intro p hp
    rcases List.mem_cons.mp hp with rfl | hp
    · exact ⟨task, h.issued ptr task pm hpms, rfl⟩
    · exact h.resolved p hp
  · exact List.nodup_cons.mpr ⟨hnew, h.once⟩
  · intro pm' hpm' ptr' task' hpms'
    rcases List.mem_cons.mp hpm' with rfl | hpm'
    · rw [h.unique ptr' ptr task' task pm' hpms' hpms]
    · have hhandling := h.handled pm' hpm' ptr' task' hpms'
      rw [hidle] at hhandling
      cases hhandling
  · intro pm' hlt
    rcases h.kept pm' hlt with hold | ⟨ptr', task', hpms', -⟩
    · exact Or.inl (List.mem_cons_of_mem pm hold)
    · by_cases hptr : ptr' = ptr
      · subst hptr
        rw [hpms] at hpms'
        cases hpms'
        exact Or.inl List.mem_cons_self
      · refine Or.inr ⟨ptr', task', hpms', ?_⟩
        intro heq
        exact hptr (Option.some.inj heq).symm

theorem Inv.erase (h : Inv verifies s) (hhandling : s.handling = some ptr) :
    ∃ t, s.erase ptr = .ok t ∧ Inv verifies t := by
  have hself : s.handling.toList.count ptr = 1 := by
    rw [hhandling]
    exact List.count_singleton_self
  have hpos : 0 < s.places ptr := by
    unfold VeriPool.places
    omega
  obtain ⟨task, pm, hpms⟩ := h.exists_entry hpos
  have hone := h.places_of_entry hpms
  unfold VeriPool.places at hone
  have herase : s.erase ptr = .ok { s with
      pms := Function.update s.pms ptr none, handling := none } := by
    rw [VeriPool.erase, hpms]
  have hold : ∀ ptr' task' pm', Function.update s.pms ptr none ptr' = some (task', pm') →
      ptr' ≠ ptr ∧ s.pms ptr' = some (task', pm') := by
    intro ptr' task' pm' hpms'
    by_cases hptr : ptr' = ptr
    · subst hptr
      rw [Function.update_self] at hpms'
      cases hpms'
    · rw [Function.update_of_ne hptr] at hpms'
      exact ⟨hptr, hpms'⟩
  refine ⟨_, herase, ?_, ?_, ?_, h.issued_iff, ?_, h.resolved, h.once, ?_, ?_⟩
  · intro ptr'
    have hcount := h.places ptr'
    unfold VeriPool.places at hcount ⊢
    rw [hhandling] at hcount hself hone
    dsimp only
    show _ + _ + _ + [].count ptr' = _
    by_cases hptr : ptr' = ptr
    · subst hptr
      rw [Function.update_self, List.count_nil]
      show _ = 0
      omega
    · rw [Function.update_of_ne hptr, List.count_nil, ← hcount]
      show _ = _ + _ + _ + [ptr].count ptr'
      rw [List.count_eq_zero_of_not_mem fun hmem => hptr (List.mem_singleton.mp hmem)]
  · intro ptr' hmem task' pm' hpms'
    exact h.done ptr' hmem task' pm' (hold ptr' task' pm' hpms').2
  · intro ptr' task' pm' hpms'
    exact h.issued ptr' task' pm' (hold ptr' task' pm' hpms').2
  · intro ptr₁ ptr₂ task₁ task₂ pm' h₁ h₂
    exact h.unique ptr₁ ptr₂ task₁ task₂ pm' (hold _ _ _ h₁).2 (hold _ _ _ h₂).2
  · intro pm' hpm' ptr' task' hpms'
    obtain ⟨hptr, hpms'⟩ := hold ptr' task' pm' hpms'
    have heq := h.handled pm' hpm' ptr' task' hpms'
    rw [hhandling] at heq
    exact absurd (Option.some.inj heq).symm hptr
  · intro pm' hlt
    rcases h.kept pm' hlt with hmem | ⟨ptr', task', hpms', hne⟩
    · exact Or.inl hmem
    · have hptr : ptr' ≠ ptr := by
        rintro rfl
        exact hne hhandling
      refine Or.inr ⟨ptr', task', ?_, ?_⟩
      · show Function.update s.pms ptr none ptr' = _
        rw [Function.update_of_ne hptr, hpms']
      · intro heq
        cases heq

/-- What the threads can do is done without an error. -/
theorem Inv.exec (h : Inv verifies s) (a : Action Task) (ha : s.Enabled nworker a) :
    ∃ t, s.exec verifies a = .ok t ∧ Inv verifies t := by
  cases a with
  | verify task ptr => exact h.verify ha
  | take ptr => exact ⟨_, rfl, h.take ha.1⟩
  | finish ptr => exact h.finish ha
  | resolve ptr => exact h.resolve ha.1 ha.2
  | erase ptr => exact h.erase ha

theorem Run.inv (hrun : Run verifies nworker s) : Inv verifies s := by
  induction hrun with
  | init => exact Inv.init
  | step a h ha hstep ih =>
    obtain ⟨t', ht', hinv⟩ := ih.exec a ha
    rw [hstep] at ht'
    cases ht'
    exact hinv

/-! ## Runs -/

/-- A promise that is not resolved has its task on the way. -/
theorem Inv.exists_place (h : Inv verifies s) (hissued : s.issued pm = some task)
    (hnew : pm ∉ s.resolved.map Prod.fst) :
    ∃ ptr, s.pms ptr = some (task, pm) ∧
      s.inQueue.count ptr + s.working.count ptr + s.outQueue.count ptr = 1 := by
  have hlt : pm < s.nextPromise := by
    by_contra hle
    rw [(h.issued_iff pm).mpr (by omega)] at hissued
    cases hissued
  rcases h.kept pm hlt with hold | ⟨ptr, task', hpms, hne⟩
  · exact absurd hold hnew
  · have hsame := h.issued ptr task' pm hpms
    rw [hissued] at hsame
    cases hsame
    refine ⟨ptr, hpms, ?_⟩
    have hone := h.places_of_entry hpms
    unfold VeriPool.places at hone
    have hzero : s.handling.toList.count ptr = 0 := by
      apply List.count_eq_zero_of_not_mem
      intro hmem
      exact hne (Option.mem_toList.mp hmem)
    omega

/-- While a task is on the way, a thread can go on with one. -/
theorem exists_enabled (hworkers : 0 < nworker)
    (hcount : s.inQueue.count ptr + s.working.count ptr + s.outQueue.count ptr = 1) :
    ∃ a, s.Enabled nworker a ∧ ∀ task ptr', a ≠ .verify task ptr' := by
  by_cases hworking : s.working = []
  · by_cases hin : ptr ∈ s.inQueue
    · refine ⟨.take ptr, ⟨hin, ?_⟩, fun _ _ heq => by cases heq⟩
      rw [hworking]
      exact hworkers
    · have hout : ptr ∈ s.outQueue := by
        rw [hworking, List.count_eq_zero_of_not_mem hin, List.count_nil] at hcount
        exact List.count_pos_iff.mp (by omega)
      cases hhandling : s.handling with
      | none => exact ⟨.resolve ptr, ⟨hout, hhandling⟩, fun _ _ heq => by cases heq⟩
      | some ptr' => exact ⟨.erase ptr', hhandling, fun _ _ heq => by cases heq⟩
  · obtain ⟨ptr', hmem⟩ := List.exists_mem_of_ne_nil _ hworking
    exact ⟨.finish ptr', hmem, fun _ _ heq => by cases heq⟩

theorem exec_load {a : Action Task} (ha : s.Enabled nworker a) (hstep : s.exec verifies a = .ok t)
    (hne : ∀ task ptr, a ≠ .verify task ptr) : t.load < s.load := by
  unfold load
  cases a with
  | verify task ptr => exact absurd rfl (hne task ptr)
  | take ptr =>
    have hlength := (List.perm_cons_erase ha.1).length_eq
    rw [List.length_cons] at hlength
    cases hstep
    dsimp only [VeriPool.take]
    rw [List.length_cons]
    omega
  | finish ptr =>
    have hlength := (List.perm_cons_erase ha).length_eq
    rw [List.length_cons] at hlength
    rw [exec, VeriPool.finish] at hstep
    cases hpms : s.pms ptr with
    | none =>
      rw [hpms] at hstep
      cases hstep
    | some entry =>
      rw [hpms] at hstep
      cases hstep
      dsimp only
      rw [List.length_append, List.length_singleton]
      omega
  | resolve ptr =>
    have hlength := (List.perm_cons_erase ha.1).length_eq
    rw [List.length_cons] at hlength
    rw [exec, VeriPool.resolve] at hstep
    cases hpms : s.pms ptr with
    | none =>
      rw [hpms] at hstep
      cases hstep
    | some entry =>
      cases hresult : s.result ptr with
      | none =>
        rw [hpms, hresult] at hstep
        cases hstep
      | some r =>
        rw [hpms, hresult] at hstep
        cases hstep
        dsimp only
        rw [ha.2]
        show _ + _ + _ + 1 < _ + _ + _ + 0
        omega
  | erase ptr =>
    rw [exec, VeriPool.erase] at hstep
    cases hpms : s.pms ptr with
    | none =>
      rw [hpms] at hstep
      cases hstep
    | some entry =>
      rw [hpms] at hstep
      cases hstep
      dsimp only
      rw [show s.handling = some ptr from ha]
      exact Nat.lt_succ_self _

/-- With at least one worker, in every interleaving: nothing goes wrong, a promise is resolved at
most once and with the verification of its own task, and a promise that is not resolved has its task
in one place. Without new tasks the threads stop, and then all promises are resolved. -/
theorem verified_once (hworkers : 0 < nworker) (hrun : Run verifies nworker s) :
    (∀ a, s.Enabled nworker a → ∃ t, s.exec verifies a = .ok t) ∧
      (s.resolved.map Prod.fst).Nodup ∧
      (∀ pm r, (pm, r) ∈ s.resolved → ∃ task, s.issued pm = some task ∧ r = verifies task) ∧
      (∀ pm task, s.issued pm = some task → pm ∉ s.resolved.map Prod.fst →
        ∃ ptr, s.pms ptr = some (task, pm) ∧
          s.inQueue.count ptr + s.working.count ptr + s.outQueue.count ptr = 1) ∧
      ((∀ a, s.Enabled nworker a → ∃ task ptr, a = .verify task ptr) →
        ∀ pm task, s.issued pm = some task → (pm, verifies task) ∈ s.resolved) ∧
      ∀ a t, s.Enabled nworker a → (∀ task ptr, a ≠ .verify task ptr) →
        s.exec verifies a = .ok t → t.load < s.load := by
  have hinv := hrun.inv
  refine ⟨?_, hinv.once, ?_, ?_, ?_, ?_⟩
  · intro a ha
    obtain ⟨t, hstep, -⟩ := hinv.exec a ha
    exact ⟨t, hstep⟩
  · intro pm r hmem
    exact hinv.resolved (pm, r) hmem
  · intro pm task hissued hnew
    exact hinv.exists_place hissued hnew
  · intro hquiet pm task hissued
    by_cases hmem : pm ∈ s.resolved.map Prod.fst
    · obtain ⟨⟨pm', r⟩, hp, rfl⟩ := List.mem_map.mp hmem
      obtain ⟨task', hissued', hr⟩ := hinv.resolved _ hp
      dsimp only at hissued hissued' hr
      rw [hissued] at hissued'
      cases hissued'
      rw [← hr]
      exact hp
    · obtain ⟨ptr, -, hcount⟩ := hinv.exists_place hissued hmem
      obtain ⟨a, ha, hne⟩ := exists_enabled hworkers hcount
      obtain ⟨task', ptr', heq⟩ := hquiet a ha
      exact absurd heq (hne task' ptr')
  · intro a t ha hne hstep
    exact exec_load ha hstep hne

/-- Two workers, a task that a callback gives, and an address that is used again. -/
theorem verified_once_two : ∃ s : VeriPool ℕ, s.resolved = [(2, true), (1, false)] ∧
    (s.resolved.map Prod.fst).Nodup ∧
    (∀ pm r, (pm, r) ∈ s.resolved → ∃ task, s.issued pm = some task ∧ r = (task % 2 == 0)) := by
  have h₁ : Run (fun n : ℕ => n % 2 == 0) 2 {} := .init
  have h₂ := h₁.step (.verify 4 0) rfl rfl
  have h₃ := h₂.step (.verify 5 1) rfl rfl
  have h₄ := h₃.step (.take 1) ⟨by decide, by decide⟩ rfl
  have h₅ := h₄.step (.take 0) ⟨by decide, by decide⟩ rfl
  have h₆ := h₅.step (.finish 1) (List.mem_cons_of_mem 0 List.mem_cons_self) rfl
  have h₇ := h₆.step (.resolve 1) ⟨by decide, rfl⟩ rfl
  have h₈ := h₇.step (.verify 6 2) rfl rfl
  have h₉ := h₈.step (.erase 1) rfl rfl
  have h₁₀ := h₉.step (.verify 8 1) rfl rfl
  have h₁₁ := h₁₀.step (.take 2) ⟨List.mem_cons_self, Nat.one_lt_two⟩ rfl
  have h₁₂ := h₁₁.step (.finish 2) List.mem_cons_self rfl
  have h₁₃ := h₁₂.step (.resolve 2) ⟨List.mem_cons_self, rfl⟩ rfl
  obtain ⟨-, honce, hresult, -⟩ := verified_once Nat.two_pos h₁₃
  exact ⟨_, rfl, honce, hresult⟩

end VeriPool

end OptRand.Hotstuff
