import Mathlib.Data.List.Chain
import Mathlib.Data.List.Nodup
import Mathlib.Logic.Relation

/-!
# Forests given by a parent function

A partial function `parent` makes a type a forest. `Ancestor parent a b` says that a walk along
`parent` from `b` meets `a`; a `height` that drops by one with every step determines where. Two
ancestors of one element are on one branch, so an ancestor is known by its height, and so is an
element of a chain.
-/

namespace OptRand.Lib

open Relation

variable {α : Type*} {parent parent' : α → Option α} {height : α → ℕ} {a b c : α}

/-- The walk along `parent` from `b` meets `a`. -/
def Ancestor (parent : α → Option α) (a b : α) : Prop :=
  ReflTransGen (fun x y => parent x = some y) b a

/-- The height drops by one from an element to its parent. -/
def Graded (parent : α → Option α) (height : α → ℕ) : Prop :=
  ∀ x p, parent x = some p → height x = height p + 1

namespace Ancestor

theorem refl (parent : α → Option α) (a : α) : Ancestor parent a a := ReflTransGen.refl

theorem trans (h : Ancestor parent a b) (h' : Ancestor parent b c) : Ancestor parent a c :=
  ReflTransGen.trans h' h

theorem single (h : parent b = some a) : Ancestor parent a b := ReflTransGen.single h

/-- An ancestor other than the element itself is one of its parent. -/
theorem eq_or (h : Ancestor parent a b) : a = b ∨ ∃ p, parent b = some p ∧ Ancestor parent a p := by
  rcases ReflTransGen.cases_head h with heq | hstep
  · exact Or.inl heq.symm
  · exact Or.inr hstep

theorem mono (hsub : ∀ x p, parent x = some p → parent' x = some p) (h : Ancestor parent a b) :
    Ancestor parent' a b := by
  induction h with
  | refl => exact refl parent' b
  | tail _ hp ih => exact (single (hsub _ _ hp)).trans ih

theorem height_le (hg : Graded parent height) (h : Ancestor parent a b) : height a ≤ height b := by
  induction h with
  | refl => exact le_rfl
  | tail _ hp ih =>
    have := hg _ _ hp
    omega

/-- Two ancestors of one element are on one branch. -/
theorem total (h : Ancestor parent a c) (h' : Ancestor parent b c) :
    Ancestor parent a b ∨ Ancestor parent b a := by
  refine ReflTransGen.total_of_right_unique ?_ h' h
  intro x y z hy hz
  exact Option.some.inj (hy.symm.trans hz)

theorem eq_of_height_le (hg : Graded parent height) (h : Ancestor parent a b)
    (hle : height b ≤ height a) : a = b := by
  rcases h.eq_or with heq | ⟨p, hp, hpa⟩
  · exact heq
  · have := hg _ _ hp
    have := hpa.height_le hg
    omega

/-- The lower one of two ancestors of an element is an ancestor of the higher one. -/
theorem of_height_le (hg : Graded parent height) (h : Ancestor parent a c)
    (h' : Ancestor parent b c) (hle : height a ≤ height b) : Ancestor parent a b := by
  rcases h.total h' with hab | hba
  · exact hab
  · exact hba.eq_of_height_le hg hle ▸ refl parent b

end Ancestor

/-! ## Walks of a given length -/

/-- The element `k` steps along `parent` from `a`. -/
def climb (parent : α → Option α) : ℕ → α → Option α
  | 0, a => some a
  | k + 1, a => (parent a).bind (climb parent k)

/-- If every element of a kind has a parent of that kind unless its height is zero, each can be
walked from as many steps as it is high. -/
theorem exists_climb {P : α → Prop} (hg : Graded parent height)
    (hstep : ∀ a, P a → 0 < height a → ∃ p, parent a = some p ∧ P p) {k : ℕ} (ha : P a)
    (hk : k ≤ height a) : ∃ p, climb parent k a = some p ∧ P p ∧ height p + k = height a := by
  induction k generalizing a with
  | zero => exact ⟨a, rfl, ha, rfl⟩
  | succ k ih =>
    obtain ⟨p, hp, hP⟩ := hstep a ha (by omega)
    have hheight := hg a p hp
    obtain ⟨r, hr, hPr, hsum⟩ := ih hP (by omega)
    refine ⟨r, ?_, hPr, by omega⟩
    rw [climb, hp]
    exact hr

/-! ## Chains -/

/-- A list in which every element is the parent of the next one. -/
def IsBranch (parent : α → Option α) (l : List α) : Prop :=
  l.IsChain fun p x => parent x = some p

namespace IsBranch

variable {l l' : List α}

theorem mono (hsub : ∀ x p, parent x = some p → parent' x = some p) (h : IsBranch parent l) :
    IsBranch parent' l :=
  List.IsChain.imp (fun _ _ hp => hsub _ _ hp) h

/-- A branch leads from its first element to its last. -/
theorem ancestor (h : IsBranch parent (a :: l)) (hlast : (a :: l).getLast? = some b) :
    Ancestor parent a b := by
  induction l generalizing a with
  | nil =>
    cases hlast
    exact Ancestor.refl _ _
  | cons x l ih =>
    obtain ⟨hp, hrest⟩ := List.isChain_cons_cons.mp h
    rw [List.getLast?_cons_cons] at hlast
    exact (Ancestor.single hp).trans (ih hrest hlast)

theorem ancestor_of_mem (h : IsBranch parent l) (hlast : l.getLast? = some b) (ha : a ∈ l) :
    Ancestor parent a b := by
  obtain ⟨l₁, l₂, rfl⟩ := List.append_of_mem ha
  rw [List.getLast?_append_of_ne_nil _ (List.cons_ne_nil a l₂)] at hlast
  exact IsBranch.ancestor (List.isChain_append.mp h).2.1 hlast

/-- The ancestors of the last element of a branch are on the branch, or below it. -/
theorem mem_or_ancestor (h : IsBranch parent (a :: l)) (hlast : (a :: l).getLast? = some b)
    (hc : Ancestor parent c b) : c ∈ l ∨ Ancestor parent c a := by
  induction l generalizing a with
  | nil =>
    cases hlast
    exact Or.inr hc
  | cons x l ih =>
    obtain ⟨hp, hrest⟩ := List.isChain_cons_cons.mp h
    rw [List.getLast?_cons_cons] at hlast
    rcases ih hrest hlast with hmem | hanc
    · exact Or.inl (List.mem_cons_of_mem x hmem)
    · rcases hanc.eq_or with rfl | ⟨p, hp', hanc⟩
      · exact Or.inl List.mem_cons_self
      · cases Option.some.inj (hp.symm.trans hp')
        exact Or.inr hanc

theorem pairwise (hg : Graded parent height) (h : IsBranch parent l) :
    l.Pairwise fun x y => height x < height y := by
  have : Trans (fun x y : α => height x < height y) (fun x y => height x < height y)
      (fun x y => height x < height y) := ⟨lt_trans⟩
  refine List.isChain_iff_pairwise.mp (List.IsChain.imp ?_ h)
  intro p x hp
  have := hg x p hp
  omega

theorem nodup (hg : Graded parent height) (h : IsBranch parent l) : l.Nodup :=
  (h.pairwise hg).imp fun hlt heq => absurd (heq ▸ hlt) (lt_irrefl _)

/-- An element of a branch is known by its height. -/
theorem eq_of_height_eq (hg : Graded parent height) (h : IsBranch parent l) (ha : a ∈ l)
    (hb : b ∈ l) (heq : height a = height b) : a = b := by
  have hnodup : (l.map height).Nodup := by
    rw [List.Nodup, List.pairwise_map]
    exact (h.pairwise hg).imp fun hlt => hlt.ne
  exact List.inj_on_of_nodup_map hnodup ha hb heq

end IsBranch

end OptRand.Lib
