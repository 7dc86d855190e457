import OptRand.Hotstuff.BeaconAgreement
import OptRand.Hotstuff.ViewChange

/-!
# The origins of the shares of a view

`reconstruct` interpolates at the origins of the shares in `view_shares`, so these have to be
distinct. `on_receive_share` counts any share that `verify_decryption` accepts: unlike the
handlers of votes, acknowledgements and status messages it does not look at who has been counted
before. A share that is sent twice is counted twice, and `reconstruct` divides by zero
(`System.origin_repeated`).
-/

namespace OptRand.Hotstuff

open Lib

variable {T : PayloadTypes}

namespace Replica

variable {s : Replica T} {E : Env T}

/-- The guards behind which `on_receive_share` counts a share. -/
def Counts (E : Env T) (s : Replica T) (sh : Share T) : Prop :=
  s.view ≤ sh.view ∧ (s.viewShares sh.view).length < E.config.nmajority ∧
    (E.pvss s.id).verifyDecryption (s.aggQueue (E.getProposer sh.view)) sh.bt = .ok true

theorem viewShares_onReceiveShare (sh : Share T) :
    (s.onReceiveShare E sh).rep.viewShares = s.viewShares ∨
    (s.Counts E sh ∧ (s.onReceiveShare E sh).rep.viewShares =
      Function.update s.viewShares sh.view (s.viewShares sh.view ++ [sh.bt])) := by
  unfold onReceiveShare
  split
  · exact Or.inl rfl
  · rename_i hview
    dsimp only
    split
    · exact Or.inl rfl
    · rename_i hlen
      split
      · exact Or.inl rfl
      · exact Or.inl rfl
      · rename_i hverify
        refine Or.inr ⟨⟨not_lt.mp hview, not_le.mp hlen, hverify⟩, ?_⟩
        repeat' split
        all_goals rfl

theorem exec_viewShares (fr : Frame T) : (s.exec E fr).rep.viewShares = s.viewShares ∨
    ∃ sh, fr = .onReceiveShare sh ∧ s.Counts E sh ∧ (s.exec E fr).rep.viewShares =
      Function.update s.viewShares sh.view (s.viewShares sh.view ++ [sh.bt]) := by
  by_cases hshare : ∃ sh, fr = .onReceiveShare sh
  · obtain ⟨sh, rfl⟩ := hshare
    rcases viewShares_onReceiveShare (s := s) (E := E) sh with h | h
    · exact Or.inl h
    · exact Or.inr ⟨sh, rfl, h⟩
  · left
    rw [exec_patch]
    cases fr <;> first | rfl | exact absurd ⟨_, rfl⟩ hshare

end Replica

namespace System

variable {q : ℕ} {G₁ G₂ GT Chunk Path : Type}

/-- Each share that is counted has an origin of which none is stored for its view. -/
def FreshShares (E : Env (pvssTypes q G₁ G₂ GT Chunk Path))
    (σ : System (pvssTypes q G₁ G₂ GT Chunk Path)) (i : ℕ) :
    Frame (pvssTypes q G₁ G₂ GT Chunk Path) → Prop
  | .onReceiveShare sh => (σ.nodes i).rep.Counts E sh →
      Pvss.Decryption.origin sh.bt ∉
        ((σ.nodes i).rep.viewShares sh.view).map Pvss.Decryption.origin
  | _ => True

/-- The shares that a replica has counted for a view are of distinct origins. -/
def DistinctOrigins (s : Replica (pvssTypes q G₁ G₂ GT Chunk Path)) : Prop :=
  ∀ v, ((s.viewShares v).map Pvss.Decryption.origin).Nodup

theorem distinctOrigins_exec {E : Env (pvssTypes q G₁ G₂ GT Chunk Path)}
    {s : Replica (pvssTypes q G₁ G₂ GT Chunk Path)}
    {fr : Frame (pvssTypes q G₁ G₂ GT Chunk Path)} (hs : DistinctOrigins s)
    (hfresh : ∀ sh, fr = .onReceiveShare sh → s.Counts E sh →
      Pvss.Decryption.origin sh.bt ∉ (s.viewShares sh.view).map Pvss.Decryption.origin) :
    DistinctOrigins (s.exec E fr).rep := by
  intro v
  rcases Replica.exec_viewShares (s := s) (E := E) fr with h | ⟨sh, hfr, hcounts, h⟩
  · rw [h]
    exact hs v
  · rw [h]
    by_cases hv : v = sh.view
    · subst hv
      rw [Function.update_self, List.map_append, List.map_singleton]
      apply (hs sh.view).append (List.nodup_singleton _)
      apply List.disjoint_singleton.mpr
      exact hfresh sh hfr hcounts
    · rw [Function.update_of_ne hv]
      exact hs v

/-- As long as `on_receive_share` counts no share whose origin is stored already, the shares of
each view are of distinct origins, also those that `reconstruct` is called with. -/
theorem origins_distinct (E : Env (pvssTypes q G₁ G₂ GT Chunk Path))
    (F : Faults (pvssTypes q G₁ G₂ GT Chunk Path))
    (σ : System (pvssTypes q G₁ G₂ GT Chunk Path)) (h : Run E F (FreshShares E) σ) (i : ℕ) :
    DistinctOrigins (σ.nodes i).rep ∧
      ∀ e ∈ σ.trace, ∀ sh, e.frame = .onReceiveShare sh → e.rep.Counts E sh →
        ((e.rep.viewShares sh.view ++ [sh.bt]).map Pvss.Decryption.origin).Nodup := by
  have hstep : ∀ {σ' : System (pvssTypes q G₁ G₂ GT Chunk Path)} {j fr},
      FreshShares E σ' j fr → DistinctOrigins (σ'.nodes j).rep →
        DistinctOrigins ((σ'.nodes j).rep.exec E fr).rep := by
    intro σ' j fr hok hs
    refine distinctOrigins_exec hs ?_
    rintro sh rfl
    exact hok
  have hall : ∀ {σ'}, Run E F (FreshShares E) σ' → ∀ j, DistinctOrigins (σ'.nodes j).rep := by
    intro σ' h' j
    refine h'.node_induction (I := fun _ x => DistinctOrigins x.rep) ?_ ?_ ?_ j
    · exact fun _ _ => List.nodup_nil
    · exact fun _ _ _ hx _ _ => hx
    · intro σ' j fr stack _ _ hok hx _
      rw [Node.rep_after]
      exact hstep hok hx
  refine ⟨hall h i, ?_⟩
  rintro e he sh hfr hcounts
  obtain ⟨σ', stack, hrun, -, -, hrep, -, hok⟩ := h.exists_of_mem_trace he
  have hold := hall hrun e.node sh.view
  rw [hfr] at hok
  have hfresh := hok
  rw [hrep] at hold
  rw [List.map_append, List.map_singleton]
  apply hold.append (List.nodup_singleton _)
  apply List.disjoint_singleton.mpr
  rw [← hrep]
  exact hfresh (hrep ▸ hcounts)

/-! ## A share that is sent twice -/

/-- Whether the origin of a share is not stored for its view. -/
def freshShares (σ : System scalarTypes) (i : ℕ) : Frame scalarTypes → Bool
  | .onReceiveShare sh => decide (Pvss.Decryption.origin sh.bt ∉
      ((σ.nodes i).rep.viewShares sh.view).map Pvss.Decryption.origin)
  | _ => true

theorem freshShares_of_check {σ : System scalarTypes} {i : ℕ} {fr : Frame scalarTypes}
    (h : freshShares σ i fr = true) : FreshShares scalarEnv σ i fr := by
  cases fr
  case onReceiveShare => exact fun _ => of_decide_eq_true h
  all_goals exact trivial

/-- Replica `1` has two shares for each of four views. -/
theorem origins_distinct_scalar : ∃ σ : System scalarTypes,
    (∀ v ∈ [1, 2, 3, 4], ((σ.nodes 1).rep.viewShares v).length = 2) ∧ DistinctOrigins (σ.nodes 1).rep ∧
      ∀ e ∈ σ.trace, ∀ sh, e.frame = .onReceiveShare sh → e.rep.Counts scalarEnv sh →
        ((e.rep.viewShares sh.view ++ [sh.bt]).map Pvss.Decryption.origin).Nodup := by
  obtain ⟨σ, hrun, htest⟩ := exists_of_play scalarEnv scalarFaults freshShares
    (fun _ _ _ => freshShares_of_check) oneProposal
    (fun σ => [1, 2, 3, 4].all fun v => ((σ.nodes 1).rep.viewShares v).length == 2)
    (by decide +kernel)
  simp only [List.all_eq_true, beq_iff_eq] at htest
  exact ⟨σ, htest, origins_distinct scalarEnv scalarFaults σ hrun 1⟩

/-- Replica `0` sends its share of view `1` twice to replica `1`. -/
def sharesTwice : List (Scripted scalarTypes) :=
  [proposes 1 1 1 0 Pvss.linearAggregate, certifies 1 1] ++
    decrypts 1 1 Pvss.linearAggregate ++ decrypts 1 1 Pvss.linearAggregate

/-- Replica `1` counts both, and `reconstruct` throws. -/
theorem origin_repeated : ∃ σ : System scalarTypes, Reachable scalarEnv scalarFaults σ ∧
    Honest scalarEnv scalarFaults 1 ∧ ¬ DistinctOrigins (σ.nodes 1).rep ∧
    (σ.nodes 1).crashed ≠ none := by
  obtain ⟨σ, hrun, htest⟩ := exists_reachable_of_play scalarEnv scalarFaults sharesTwice
    (fun σ => decide (((σ.nodes 1).rep.viewShares 1).map Pvss.Decryption.origin = [0, 0]) &&
      (σ.nodes 1).crashed.isSome) (by decide +kernel)
  simp only [Bool.and_eq_true, decide_eq_true_eq, Option.isSome_iff_ne_none] at htest
  refine ⟨σ, hrun, by decide, fun hdistinct => ?_, htest.2⟩
  have hnodup := hdistinct 1
  rw [htest.1] at hnodup
  exact absurd hnodup (by decide)

end System

end OptRand.Hotstuff
