import Mathlib.Data.List.Infix
import Mathlib.Data.Set.Basic

/-!
# Agreement by locking

Members vote for elements of an order in numbered views, and lock on what a quorum has voted for.
An honest member votes once in a view and once for an element, and after it has locked it votes only
above something certified in no earlier view than its lock. Then everything certified from the view
of a committed element on, one that a quorum has locked on, is above it (`Locking.le_of_certified`),
and two committed elements are comparable (`Locking.comparable`).

The events are those of a list, the last one first. What a vote or a lock relies on is certified by
the events before it, so that the argument is an induction over the list.
-/

namespace OptRand.Lib

variable {Ev P B : Type*}

/-- Votes and locks of members `P` for elements `B`, and what is a quorum of honest members. -/
structure Ballots (Ev P B : Type*) where
  votes : Ev → P → ℕ → B → Prop
  locks : Ev → P → ℕ → B → Prop
  Quorum : Set P → Prop
  Honest : P → Prop
  le : B → B → Prop

namespace Ballots

variable (M : Ballots Ev P B)

/-- A quorum has voted for `b` in view `v`, the faulty members aside. -/
def Certified (past : List Ev) (v : ℕ) (b : B) : Prop :=
  ∃ Q, M.Quorum Q ∧ ∀ r ∈ Q, M.Honest r → ∃ e ∈ past, M.votes e r v b

/-- A quorum has locked on `b`, the faulty members aside. -/
def Committed (past : List Ev) (b : B) : Prop :=
  ∃ Q, M.Quorum Q ∧ ∀ r ∈ Q, M.Honest r → ∃ e ∈ past, ∃ v, M.locks e r v b

variable {M}

theorem Certified.mono {past past' : List Ev} {v : ℕ} {b : B} (h : M.Certified past v b)
    (hsub : past ⊆ past') : M.Certified past' v b := by
  obtain ⟨Q, hQ, hvotes⟩ := h
  refine ⟨Q, hQ, fun r hr hhonest => ?_⟩
  obtain ⟨e, he, hvote⟩ := hvotes r hr hhonest
  exact ⟨e, hsub he, hvote⟩

theorem Committed.mono {past past' : List Ev} {b : B} (h : M.Committed past b)
    (hsub : past ⊆ past') : M.Committed past' b := by
  obtain ⟨Q, hQ, hlocks⟩ := h
  refine ⟨Q, hQ, fun r hr hhonest => ?_⟩
  obtain ⟨e, he, hlock⟩ := hlocks r hr hhonest
  exact ⟨e, hsub he, hlock⟩

end Ballots

/-- The rules of locking, over the events of a list. -/
structure Locking (M : Ballots Ev P B) (events : List Ev) : Prop where
  refl : ∀ b, M.le b b
  trans : ∀ a b c, M.le a b → M.le b c → M.le a c
  inter : ∀ Q Q', M.Quorum Q → M.Quorum Q' → ∃ r ∈ Q, r ∈ Q' ∧ M.Honest r
  once : ∀ e ∈ events, ∀ e' ∈ events, ∀ r v b v' b', M.Honest r → M.votes e r v b →
    M.votes e' r v' b' → (v = v' ↔ b = b')
  certified : ∀ e ∈ events, ∀ r v b, M.Honest r → M.locks e r v b → M.Certified events v b
  before : ∀ e past, e :: past <:+ events → ∀ r v b w c, M.Honest r → M.votes e r w c →
    (∃ e' ∈ events, M.locks e' r v b) → v < w → ∃ e' ∈ past, M.locks e' r v b
  above : ∀ e past, e :: past <:+ events → ∀ r v b w c, M.Honest r → M.votes e r w c →
    (∃ e' ∈ past, M.locks e' r v b) → ∃ u x, v ≤ u ∧ M.Certified past u x ∧ M.le x c

namespace Locking

variable {M : Ballots Ev P B} {events : List Ev} {b c : B} {v w : ℕ}

/-- An element is certified in one view only, and a view has one certified element. -/
theorem certified_iff (h : Locking M events) (hb : M.Certified events v b)
    (hc : M.Certified events w c) : v = w ↔ b = c := by
  obtain ⟨Q, hQ, hvotes⟩ := hb
  obtain ⟨Q', hQ', hvotes'⟩ := hc
  obtain ⟨r, hr, hr', hhonest⟩ := h.inter Q Q' hQ hQ'
  obtain ⟨e, he, hvote⟩ := hvotes r hr hhonest
  obtain ⟨e', he', hvote'⟩ := hvotes' r hr' hhonest
  exact h.once e he e' he' r v b w c hhonest hvote hvote'

/-- What is certified from the view of a committed element on is above it. -/
theorem le_of_certified (h : Locking M events) (hb : M.Certified events v b)
    (hcommitted : M.Committed events b) {past : List Ev} (hpast : past <:+ events)
    (hc : M.Certified past w c) (hvw : v ≤ w) : M.le b c := by
  -- by induction on the events before which `c` is certified
  induction hn : past.length using Nat.strongRecOn generalizing past w c with
  | ind n ih =>
    subst hn
    rcases hvw.eq_or_lt with rfl | hlt
    · have heq : b = c := (h.certified_iff hb (hc.mono hpast.subset)).mp rfl
      exact heq ▸ h.refl b
    · obtain ⟨Q, hQ, hvotes⟩ := hc
      obtain ⟨Q', hQ', hlocks⟩ := hcommitted
      obtain ⟨r, hr, hr', hhonest⟩ := h.inter Q Q' hQ hQ'
      obtain ⟨e, he, hvote⟩ := hvotes r hr hhonest
      obtain ⟨l, before, rfl⟩ := List.append_of_mem he
      have hsuffix : e :: before <:+ events := (List.suffix_append l _).trans hpast
      obtain ⟨e', he', v', hlock⟩ := hlocks r hr' hhonest
      have hview : v = v' := (h.certified_iff hb (h.certified e' he' r v' b hhonest hlock)).mpr rfl
      subst hview
      have hlocked := h.before e before hsuffix r v b w c hhonest hvote ⟨e', he', hlock⟩ hlt
      obtain ⟨u, x, hvu, hx, hxc⟩ := h.above e before hsuffix r v b w c hhonest hvote hlocked
      refine h.trans b x c ?_ hxc
      refine ih before.length ?_ ((List.suffix_cons e before).trans hsuffix) hx hvu rfl
      rw [List.length_append, List.length_cons]
      omega

/-- What is committed is certified. -/
theorem exists_certified (h : Locking M events) (hb : M.Committed events b) :
    ∃ v, M.Certified events v b := by
  obtain ⟨Q, hQ, hlocks⟩ := hb
  obtain ⟨r, hr, -, hhonest⟩ := h.inter Q Q hQ hQ
  obtain ⟨e, he, v, hlock⟩ := hlocks r hr hhonest
  exact ⟨v, h.certified e he r v b hhonest hlock⟩

/-- Two committed elements are comparable. -/
theorem comparable (h : Locking M events) (hb : M.Committed events b)
    (hc : M.Committed events c) : M.le b c ∨ M.le c b := by
  obtain ⟨v, hvb⟩ := h.exists_certified hb
  obtain ⟨w, hwc⟩ := h.exists_certified hc
  rcases le_total v w with hvw | hwv
  · exact Or.inl (h.le_of_certified hvb hb List.suffix_rfl hwc hvw)
  · exact Or.inr (h.le_of_certified hwc hc List.suffix_rfl hvb hwv)

end Locking

end OptRand.Lib
