import Mathlib.Algebra.BigOperators.Group.Finset.Basic
import Mathlib.Algebra.BigOperators.Group.List.Basic
import Mathlib.Data.List.Range

/-!
# Computations that may stop with an error

Rules for programs in `Except`: what a successful bind did, and loops whose every
iteration succeeds. A loop over `List.range n` is reduced to a sum, a product or a map
over the same range, so that the algebra of a program can be done outside the monad.
-/

namespace OptRand.Lib

open Finset

universe u v

variable {ε : Type v} {α β : Type u}

theorem bind_eq_ok {x : Except ε α} {f : α → Except ε β} {b : β} :
    x >>= f = .ok b ↔ ∃ a, x = .ok a ∧ f a = .ok b := by
  constructor
  · intro h
    cases x with
    | error e => cases h
    | ok a => exact ⟨a, rfl, h⟩
  · rintro ⟨a, rfl, h⟩
    exact h

/-- An error that neither part of a program stops with. -/
theorem bind_ne_error {x : Except ε α} {f : α → Except ε β} {e : ε} (hx : x ≠ .error e)
    (hf : ∀ a, x = .ok a → f a ≠ .error e) : x >>= f ≠ .error e := by
  cases x with
  | error e' =>
    intro h
    cases h
    exact hx rfl
  | ok a => exact hf a rfl

theorem ok_bind (a : α) (f : α → Except ε β) : (Except.ok a >>= f) = f a := by
  simp only [bind, Except.bind]

theorem pure_eq_ok (a : α) : (pure a : Except ε α) = .ok a := rfl

/-! ## Loops whose iterations succeed -/

theorem foldlM_ok {f : β → α → Except ε β} {g : β → α → β} {l : List α} (b : β)
    (h : ∀ a ∈ l, ∀ b, f b a = .ok (g b a)) : l.foldlM f b = .ok (l.foldl g b) := by
  induction l generalizing b with
  | nil => rfl
  | cons a l ih =>
    rw [List.foldlM_cons, h a List.mem_cons_self, ok_bind, List.foldl_cons]
    exact ih _ fun a' ha' => h a' (List.mem_cons_of_mem _ ha')

theorem mapM_ok {f : α → Except ε β} {g : α → β} {l : List α}
    (h : ∀ a ∈ l, f a = .ok (g a)) : l.mapM f = .ok (l.map g) := by
  induction l with
  | nil => rfl
  | cons a l ih =>
    rw [List.mapM_cons, h a List.mem_cons_self, ok_bind,
      ih fun a' ha' => h a' (List.mem_cons_of_mem _ ha')]
    rfl

theorem allM_eq_true {f : α → Except ε Bool} {l : List α} :
    l.allM f = .ok true ↔ ∀ a ∈ l, f a = .ok true := by
  induction l with
  | nil => simp [List.allM, pure_eq_ok]
  | cons a l ih =>
    rw [List.forall_mem_cons, ← ih]
    cases h : f a with
    | error e => simp [List.allM, h, bind, Except.bind]
    | ok b => cases b <;> simp [List.allM, h, ok_bind, pure_eq_ok]

/-- A loop over the results of another loop. -/
theorem allM_of_mapM {f : α → Except ε Bool} {l : List α} {values : List Bool}
    (h : l.mapM f = .ok values) (hall : ∀ b ∈ values, b = true) : l.allM f = .ok true := by
  rw [allM_eq_true]
  induction l generalizing values with
  | nil =>
    intro a ha
    cases ha
  | cons a l ih =>
    rw [List.mapM_cons] at h
    obtain ⟨b, hb, h⟩ := bind_eq_ok.mp h
    obtain ⟨bs, hbs, h⟩ := bind_eq_ok.mp h
    cases h
    rw [List.forall_mem_cons] at hall ⊢
    exact ⟨hall.1 ▸ hb, ih hbs hall.2⟩

theorem foldl_add_range [AddCommMonoid β] (w : ℕ → β) (n : ℕ) (b : β) :
    (List.range n).foldl (fun acc j => acc + w j) b = b + ∑ j ∈ range n, w j := by
  induction n with
  | zero => simp
  | succ n ih => rw [List.range_succ, List.foldl_append, ih, sum_range_succ, ← add_assoc]; rfl

theorem foldl_mul_range_erase [CommMonoid β] (w : ℕ → β) (n i : ℕ) (b : β) :
    (List.range n).foldl (fun acc j => if j = i then acc else acc * w j) b =
      b * ∏ j ∈ (range n).erase i, w j := by
  induction n with
  | zero => simp
  | succ n ih =>
    rw [List.range_succ, List.foldl_append, ih, List.foldl_cons, List.foldl_nil]
    by_cases h : n = i
    · subst h
      have he : (range (n + 1)).erase n = (range n).erase n := by
        rw [range_add_one, erase_insert (by simp), erase_eq_of_notMem (by simp)]
      rw [if_pos rfl, he]
    · have he : (range (n + 1)).erase i = insert n ((range n).erase i) := by
        rw [range_add_one, erase_insert_of_ne h]
      rw [if_neg h, he, prod_insert (by simp), mul_assoc, mul_comm (w n)]

theorem foldl_add_list [AddCommMonoid β] (w : α → β) (l : List α) (b : β) :
    l.foldl (fun acc a => acc + w a) b = b + (l.map w).sum := by
  induction l generalizing b with
  | nil => simp
  | cons a l ih => rw [List.foldl_cons, ih, List.map_cons, List.sum_cons, add_assoc]

end OptRand.Lib
