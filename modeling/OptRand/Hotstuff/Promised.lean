import OptRand.Hotstuff.Base
import OptRand.Promises.Settling

/-!
# The waiting of a replica is that of `promise::all`

A `Pending` entry lists what a callback waits for; `promise.hpp` counts what has arrived in an array
that the callbacks of `all` share. `Tracks` ties the two: the conditions of the entry name the given
promises that are not fulfilled. The callback is called at once exactly if the promise of `all` is
fulfilled when it is made (`Promised.all`), and otherwise in the call in which it becomes so
(`Promised.resolve`).
-/

namespace OptRand.Hotstuff

open Promises (Machine Code Any)

variable {T : PayloadTypes} {F V : Type}

/-! ## The library -/

/-- The given promises that are not fulfilled. -/
def waits (m : Machine F V) (pms : List ℕ) : List ℕ :=
  pms.filter fun pm => (m.heap pm).state ≠ .settled .fulfilled

/-- Between two events: `all` has returned `npm` for the promises `pms`, and the client does not
settle it. -/
structure Promised (body : F → Any V → Code F V) (m : Machine F V) (npm : ℕ) (pms : List ℕ) :
    Prop where
  run : Machine.Run body {} m
  idle : m.stack = []
  origin : m.origins npm = .all pms
  unforced : npm ∉ m.forced

/-- A promise of `all` is fulfilled when there is nothing left to wait for. -/
theorem Promised.fulfilled_iff {body : F → Any V → Code F V} {m : Machine F V} {npm : ℕ}
    {pms : List ℕ} (h : Promised body m npm pms) :
    (m.heap npm).state = .settled .fulfilled ↔ waits m pms = [] := by
  have hfine := h.run.fine
  rw [h.idle] at hfine
  rw [hfine.fulfilled_iff h.origin h.unforced, waits, List.filter_eq_nil_iff]
  simp

/-! ## The notifications of one entry -/

/-- The calls from the top of a stack that return, one after the other. -/
inductive Steps (E : Env T) : Replica T → List (Frame T) → Replica T → List (Frame T) → Prop
  | refl (s : Replica T) (stack : List (Frame T)) : Steps E s stack s stack
  | call {s s' : Replica T} {fr : Frame T} {stack stack' : List (Frame T)}
    (herror : (s.exec E fr).error = none)
    (hrest : Steps E (s.exec E fr).rep ((s.exec E fr).calls ++ stack) s' stack') :
    Steps E s (fr :: stack) s' stack'

/-- The entry with another list of conditions. -/
def Pending.waiting (p : Pending T) (conds : List Cond) : Pending T := { p with conds := conds }

/-- What a notification makes of the entries. -/
def Pending.without (id : ℕ) (cond : Cond) (q : Pending T) : Pending T :=
  if q.id = id then q.waiting (q.conds.erase cond) else q

section

variable {E : Env T} {s : Replica T} {p : Pending T} {cond : Cond}

/-- The last notification calls the callback. -/
theorem notify_last (hfind : s.pendings.find? (fun q => q.id == p.id) = some p)
    (hlast : p.conds.erase cond = []) :
    s.notify p.id cond = Replica.call { s with pendings := s.pendings.filter fun q => q.id != p.id }
      [.run p.task p.result] := by
  unfold Replica.notify
  rw [hfind]
  simp only [hlast, List.isEmpty_nil, if_true]

theorem notify_more (hfind : s.pendings.find? (fun q => q.id == p.id) = some p)
    (hmore : p.conds.erase cond ≠ []) :
    (s.notify p.id cond).error = none ∧ (s.notify p.id cond).calls = [] ∧
      (s.notify p.id cond).rep.pendings.find? (fun q => q.id == p.id) =
        some (p.waiting (p.conds.erase cond)) := by
  have hnotify : s.notify p.id cond =
      Replica.done { s with pendings := s.pendings.map (Pending.without p.id cond) } := by
    unfold Replica.notify
    rw [hfind]
    simp only [List.isEmpty_iff, if_neg hmore]
    rfl
  rw [hnotify]
  refine ⟨rfl, rfl, ?_⟩
  have hid : (fun q : Pending T => q.id == p.id) ∘ Pending.without p.id cond =
      fun q => q.id == p.id := by
    funext q
    simp only [Function.comp, Pending.without]
    split <;> rfl
  show (s.pendings.map _).find? _ = _
  rw [List.find?_map, hid, hfind, Option.map_some, Pending.without, if_pos rfl]

theorem filter_erase (conds : List Cond) (cond : Cond) :
    (conds.erase cond).filter (· ≠ cond) = conds.filter (· ≠ cond) := by
  rw [← List.erase_filter]
  exact List.erase_of_not_mem (by simp)

/-- A notification that returns, with those after it. -/
theorem Steps.notify {s' : Replica T} {stack stack' : List (Frame T)} {id : ℕ}
    (herror : (s.notify id cond).error = none) (hcalls : (s.notify id cond).calls = [])
    (hrest : Steps E (s.notify id cond).rep stack s' stack') :
    Steps E s (.notify id cond :: stack) s' stack' := by
  refine Steps.call herror ?_
  show Steps E (s.notify id cond).rep ((s.notify id cond).calls ++ stack) s' stack'
  rw [hcalls]
  exact hrest

/-- The notifications of a condition take it out of the entry. The last one calls the callback if
the entry waits for nothing else. -/
theorem steps_notify (hfind : s.pendings.find? (fun q => q.id == p.id) = some p)
    (hcond : cond ∈ p.conds) (stack : List (Frame T)) :
    (p.conds.filter (· ≠ cond) = [] ∧ ∃ s', Steps E s
      (List.replicate (p.conds.count cond) (.notify p.id cond) ++ stack) s'
        (.run p.task p.result :: stack)) ∨
    (p.conds.filter (· ≠ cond) ≠ [] ∧ ∃ s', Steps E s
      (List.replicate (p.conds.count cond) (.notify p.id cond) ++ stack) s' stack ∧
        s'.pendings.find? (fun q => q.id == p.id) =
          some (p.waiting (p.conds.filter (· ≠ cond)))) := by
  obtain ⟨n, hn⟩ := Nat.exists_eq_add_one.mpr (List.count_pos_iff.mpr hcond)
  have hcount : (p.conds.erase cond).count cond = n := by
    rw [List.count_erase_self, hn, Nat.add_sub_cancel]
  rw [hn, List.replicate_succ, List.cons_append]
  induction n generalizing s p with
  | zero =>
    have hfilter : p.conds.filter (· ≠ cond) = p.conds.erase cond := by
      rw [← filter_erase, List.filter_eq_self]
      intro c hc
      have hnot := List.count_eq_zero.mp hcount
      exact decide_eq_true fun heq => hnot (heq ▸ hc)
    rw [hfilter]
    by_cases hlast : p.conds.erase cond = []
    · refine Or.inl ⟨hlast, { s with pendings := s.pendings.filter fun q => q.id != p.id }, ?_⟩
      have hexec : s.exec E (.notify p.id cond) = _ := notify_last hfind hlast
      refine Steps.call (by rw [hexec]; rfl) ?_
      rw [hexec]
      exact Steps.refl _ _
    · obtain ⟨herror, hcalls, hnext⟩ := notify_more hfind hlast
      exact Or.inr ⟨hlast, _, Steps.notify herror hcalls (Steps.refl _ _), hnext⟩
  | succ n ih =>
    have hmem : cond ∈ p.conds.erase cond := List.count_pos_iff.mp (by omega)
    obtain ⟨herror, hcalls, hnext⟩ := notify_more hfind (List.ne_nil_of_mem hmem)
    have hagain : ((p.conds.erase cond).erase cond).count cond = n := by
      rw [List.count_erase_self, hcount, Nat.add_sub_cancel]
    have hrest := ih (s := (s.notify p.id cond).rep) (p := p.waiting (p.conds.erase cond)) hnext
      hmem hcount hagain
    simp only [Pending.waiting, filter_erase] at hrest
    rcases hrest with ⟨hnil, s', hsteps⟩ | ⟨hne, s', hsteps, hfound⟩
    · exact Or.inl ⟨hnil, s', Steps.notify herror hcalls hsteps⟩
    · exact Or.inr ⟨hne, s', Steps.notify herror hcalls hsteps, hfound⟩

end

/-! ## Both -/

/-- The conditions of an entry name the promises that are waited for. -/
def Tracks (name : ℕ → Cond) (p : Pending T) (m : Machine F V) (pms : List ℕ) : Prop :=
  p.conds = (waits m pms).map name

section

variable {E : Env T} {s : Replica T} {body : F → Any V → Code F V} {m m' : Machine F V}
  {npm : ℕ} {pms : List ℕ} {name : ℕ → Cond}

/-- `promise::all` of a handler: the callback is called if the promise of `all` is fulfilled, and
otherwise there is an entry that tracks it. -/
theorem Promised.all (h : Promised body m npm pms) {conds : List Cond} {wait : Wait T}
    {result pooled : Bool} (hcheck : s.startCheck E wait.check = .ok (result, pooled))
    (hname : (conds ++ wait.conds).filter s.unresolved ++ (if pooled then [.veri] else []) =
      (waits m pms).map name) :
    ((m.heap npm).state = .settled .fulfilled ∧
      s.all E conds wait = s.call [.run wait.task result]) ∨
    ((m.heap npm).state ≠ .settled .fulfilled ∧ ∃ p, Tracks name p m pms ∧ p.task = wait.task ∧
      p.result = result ∧ s.all E conds wait = Replica.done { s with
        pendings := s.pendings ++ [p]
        nextPending := s.nextPending + 1 }) := by
  unfold Replica.all
  simp only [hcheck, hname]
  by_cases hnil : waits m pms = []
  · refine Or.inl ⟨h.fulfilled_iff.mpr hnil, if_pos ?_⟩
    rw [hnil]
    rfl
  · refine Or.inr ⟨fun hstate => hnil (h.fulfilled_iff.mp hstate),
      ⟨s.nextPending, (waits m pms).map name, result, wait.task⟩, rfl, rfl, rfl, if_neg ?_⟩
    simpa using hnil

/-- When the promises of one condition are fulfilled, the notifications of an entry call its
callback if the promise of `all` is fulfilled with them, and otherwise the entry tracks it
further. -/
theorem Promised.resolve (h' : Promised body m' npm pms) {p : Pending T} {cond : Cond}
    (htracks : Tracks name p m pms)
    (hsettled : waits m' pms = (waits m pms).filter fun pm => name pm ≠ cond)
    (hfind : s.pendings.find? (fun q => q.id == p.id) = some p) (hcond : cond ∈ p.conds)
    (stack : List (Frame T)) :
    ((m'.heap npm).state = .settled .fulfilled ∧ ∃ s', Steps E s
      (List.replicate (p.conds.count cond) (.notify p.id cond) ++ stack) s'
        (.run p.task p.result :: stack)) ∨
    ((m'.heap npm).state ≠ .settled .fulfilled ∧ ∃ s' p', Steps E s
      (List.replicate (p.conds.count cond) (.notify p.id cond) ++ stack) s' stack ∧
        s'.pendings.find? (fun q => q.id == p.id) = some p' ∧ p'.task = p.task ∧
        p'.result = p.result ∧ Tracks name p' m' pms) := by
  have hconds : p.conds.filter (· ≠ cond) = (waits m' pms).map name := by
    rw [hsettled, htracks, List.filter_map]
    rfl
  have hfulfilled : (m'.heap npm).state = .settled .fulfilled ↔
      p.conds.filter (· ≠ cond) = [] := by
    rw [h'.fulfilled_iff, hconds, List.map_eq_nil_iff]
  rcases steps_notify (E := E) hfind hcond stack with ⟨hnil, hsteps⟩ | ⟨hne, s', hsteps, hfound⟩
  · exact Or.inl ⟨hfulfilled.mpr hnil, hsteps⟩
  · exact Or.inr ⟨fun hstate => hne (hfulfilled.mp hstate), s', _, hsteps, hfound, rfl, rfl, hconds⟩

end

end OptRand.Hotstuff
