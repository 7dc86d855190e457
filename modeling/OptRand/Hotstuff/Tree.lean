import OptRand.Lib.Forest
import OptRand.Hotstuff.Cache
import OptRand.Hotstuff.Runs

/-!
# The tree of delivered blocks

A delivered block has its parents in the cache, delivered, and is one higher than `parents[0]`;
delivery settles both for good. So the delivered blocks are a forest along `parents[0]`, the walks
over them end where they should, and a call only adds to it.
-/

namespace OptRand.Hotstuff

open Lib Relation

variable {T : PayloadTypes}

namespace Replica

/-- `parents[0]` of a delivered block. -/
def parent (s : Replica T) (h : ℕ) : Option ℕ :=
  match s.blkCache h with
  | some b => if b.delivered then b.parents.head? else none
  | none => none

end Replica

/-- The delivered blocks are linked: the genesis block, and blocks on top of delivered ones. -/
structure Linked (E : Env T) (s : Replica T) : Prop where
  genesis : ∃ b, s.blkCache E.genesis = some b ∧ b.delivered = true ∧ b.parents = [] ∧ b.height = 0
  parent : ∀ h b, s.blkCache h = some b → b.delivered = true → h ≠ E.genesis →
    ∃ p ps, b.parents = p :: ps ∧ b.parentHashes = p :: ps ∧ s.isBlkDelivered p = true ∧
      b.height = s.height p + 1

section

variable {E : Env T} {s s' : Replica T} {fr : Frame T}

theorem linked_init (i : ℕ) : Linked E (E.init i) where
  genesis := ⟨E.genesisBlock, E.blkCache_genesis i, rfl, rfl, rfl⟩
  parent := by
    intro h b hb _ hne
    exact absurd (Env.blkCache_init hb).1 hne

/-- What a block that a call delivers is linked to. -/
theorem parent_of_changes {h : ℕ} {b b' : Block T} (hsteps : ReflTransGen (Change E s h fr) b b')
    (hold : b.delivered = true → ∃ p ps, b.parents = p :: ps ∧ b.parentHashes = p :: ps ∧
      s.isBlkDelivered p = true ∧ b.height = s.height p + 1) (hdel : b'.delivered = true) :
    ∃ p ps, b'.parents = p :: ps ∧ b'.parentHashes = p :: ps ∧ s.isBlkDelivered p = true ∧
      b'.height = s.height p + 1 := by
  induction hsteps with
  | refl => exact hold hdel
  | tail _ hstep ih =>
    cases hstep with
    | deliver p ps qcRef hnew hp hall => exact ⟨p, ps, rfl, hp, hall p List.mem_cons_self, rfl⟩
    | attempt parents height hnew => exact absurd (hnew.symm.trans hdel) Bool.false_ne_true
    | _ => exact ih hdel

/-- The walks over the blocks of two states are the same. -/
structure SameTree (s t : Replica T) : Prop where
  parent : t.parent = s.parent
  height : t.height = s.height
  delivered : t.isBlkDelivered = s.isBlkDelivered
  cache : ∀ k b', t.blkCache k = some b' → ∃ b, s.blkCache k = some b ∧
    b'.delivered = b.delivered ∧ b'.parents = b.parents ∧ b'.parentHashes = b.parentHashes ∧
    b'.height = b.height

/-- A block is written back with its place in the tree unchanged. -/
theorem SameTree.of_update {t : Replica T} {h : ℕ} {b b' : Block T} (hb : s.blkCache h = some b)
    (ht : t.blkCache = Function.update s.blkCache h (some b')) (hdel : b'.delivered = b.delivered)
    (hparents : b'.parents = b.parents) (hhashes : b'.parentHashes = b.parentHashes)
    (hheight : b'.height = b.height) : SameTree s t := by
  have hwalk : t.parent = s.parent ∧ t.height = s.height ∧ t.isBlkDelivered = s.isBlkDelivered := by
    refine ⟨funext fun k => ?_, funext fun k => ?_, funext fun k => ?_⟩ <;> by_cases hk : k = h
    all_goals
      simp [Replica.parent, Replica.height, Replica.isBlkDelivered, ht, hk, hb, hdel, hparents,
        hheight]
  refine ⟨hwalk.1, hwalk.2.1, hwalk.2.2, fun k c hc => ?_⟩
  by_cases hk : k = h
  · subst hk
    rw [ht, Function.update_self] at hc
    cases hc
    exact ⟨b, hb, hdel, hparents, hhashes, hheight⟩
  · rw [ht, Function.update_of_ne hk] at hc
    exact ⟨c, hc, rfl, rfl, rfl, rfl⟩

theorem SameTree.of_eq {t : Replica T} (ht : t.blkCache = s.blkCache) : SameTree s t := by
  refine ⟨funext fun k => ?_, funext fun k => ?_, funext fun k => ?_, fun k c hc => ?_⟩
  · simp only [Replica.parent, ht]
  · simp only [Replica.height, ht]
  · simp only [Replica.isBlkDelivered, ht]
  · exact ⟨c, ht ▸ hc, rfl, rfl, rfl, rfl⟩

theorem Linked.of_sameTree {t : Replica T} (hs : Linked E s) (ht : SameTree s t) :
    Linked E t := by
  constructor
  · obtain ⟨g, hg, hdel, hparents, hheight⟩ := hs.genesis
    have hdelt : t.isBlkDelivered E.genesis = true := by
      rw [ht.delivered]
      exact Replica.isBlkDelivered_iff.mpr ⟨g, hg, hdel⟩
    obtain ⟨b', hb', hdel'⟩ := Replica.isBlkDelivered_iff.mp hdelt
    obtain ⟨b, hb, -, hparents', -, hheight'⟩ := ht.cache _ b' hb'
    rw [hg] at hb
    cases hb
    exact ⟨b', hb', hdel', hparents'.trans hparents, hheight'.trans hheight⟩
  · intro h b' hb' hdel' hne
    obtain ⟨b, hb, hdel, hparents, hhashes, hheight⟩ := ht.cache h b' hb'
    rw [hparents, hhashes, hheight, ht.height, ht.delivered]
    exact hs.parent h b hb (hdel ▸ hdel') hne

theorem Replica.exec_delivered (fr : Frame T) {h : ℕ} (hdel : s.isBlkDelivered h = true) :
    (s.exec E fr).rep.isBlkDelivered h = true ∧
      (s.exec E fr).rep.height h = s.height h ∧ (s.exec E fr).rep.parent h = s.parent h := by
  obtain ⟨b, hb, hdel⟩ := isBlkDelivered_iff.mp hdel
  obtain ⟨b', hb', hle⟩ := exec_blk_le (E := E) fr hb
  obtain ⟨hdel', hparents, hheight⟩ := hle.delivered hdel
  refine ⟨isBlkDelivered_iff.mpr ⟨b', hb', hdel'⟩, ?_, ?_⟩
  · rw [height_eq hb, height_eq hb', hheight]
  · unfold Replica.parent
    rw [hb, hb']
    simp only [hdel, hdel', hparents]

theorem linked_exec (hs : Linked E s) : Linked E (s.exec E fr).rep where
  genesis := by
    obtain ⟨b, hb, hdel, hparents, hheight⟩ := hs.genesis
    obtain ⟨b', hb', hle⟩ := Replica.exec_blk_le (E := E) fr hb
    obtain ⟨hdel', hparents', hheight'⟩ := hle.delivered hdel
    exact ⟨b', hb', hdel', hparents'.trans hparents, hheight'.trans hheight⟩
  parent := by
    intro h b' hb' hdel hne
    obtain ⟨b, horigin, hsteps⟩ := (Replica.exec_evolves fr).origin hb'
    have hold : b.delivered = true → ∃ p ps, b.parents = p :: ps ∧ b.parentHashes = p :: ps ∧
        s.isBlkDelivered p = true ∧ b.height = s.height p + 1 := by
      intro hdel
      rcases horigin with hb | hadd
      · exact hs.parent h b hb hdel hne
      · cases hadd <;> cases hdel
    obtain ⟨p, ps, hparents, hhashes, hp, hheight⟩ := parent_of_changes hsteps hold hdel
    obtain ⟨hp', hheight', -⟩ := Replica.exec_delivered (E := E) fr hp
    exact ⟨p, ps, hparents, hhashes, hp', hheight.trans (by rw [hheight'])⟩

theorem parent_exec (fr : Frame T) {h p : ℕ} (hp : s.parent h = some p) :
    (s.exec E fr).rep.parent h = some p := by
  have hdel : s.isBlkDelivered h = true := by
    unfold Replica.parent at hp
    split at hp
    · rename_i b hb
      split at hp
      · rename_i hdel
        exact Replica.isBlkDelivered_iff.mpr ⟨b, hb, hdel⟩
      · cases hp
    · cases hp
  exact (Replica.exec_delivered fr hdel).2.2.trans hp

namespace Linked

variable (hs : Linked E s)
include hs

/-! ## Parents and heights -/

theorem parent_eq_some {h p : ℕ} (hp : s.parent h = some p) : s.isBlkDelivered h = true ∧
    s.isBlkDelivered p = true ∧ s.height h = s.height p + 1 ∧ h ≠ E.genesis := by
  unfold Replica.parent at hp
  split at hp
  · rename_i b hb
    split at hp
    · rename_i hdel
      have hne : h ≠ E.genesis := by
        rintro rfl
        obtain ⟨b', hb', -, hparents, -⟩ := hs.genesis
        rw [hb] at hb'
        cases hb'
        rw [hparents] at hp
        cases hp
      obtain ⟨q, ps, hparents, -, hq, hheight⟩ := hs.parent h b hb hdel hne
      rw [hparents] at hp
      cases hp
      exact ⟨Replica.isBlkDelivered_iff.mpr ⟨b, hb, hdel⟩, hq,
        (Replica.height_eq hb).trans hheight, hne⟩
    · cases hp
  · cases hp

theorem graded : Graded s.parent s.height := fun _ _ hp => (hs.parent_eq_some hp).2.2.1

theorem delivered_genesis : s.isBlkDelivered E.genesis = true := by
  obtain ⟨b, hb, hdel, -⟩ := hs.genesis
  exact Replica.isBlkDelivered_iff.mpr ⟨b, hb, hdel⟩

theorem height_genesis : s.height E.genesis = 0 := by
  obtain ⟨b, hb, -, -, hheight⟩ := hs.genesis
  exact (Replica.height_eq hb).trans hheight

theorem exists_parent {h : ℕ} (hdel : s.isBlkDelivered h = true) (hne : h ≠ E.genesis) :
    ∃ p, s.parent h = some p := by
  obtain ⟨b, hb, hdel⟩ := Replica.isBlkDelivered_iff.mp hdel
  obtain ⟨p, ps, hparents, -⟩ := hs.parent h b hb hdel hne
  refine ⟨p, ?_⟩
  unfold Replica.parent
  rw [hb]
  simp only [hdel, if_true, hparents, List.head?_cons]

theorem delivered_ancestor {a h : ℕ} (hdel : s.isBlkDelivered h = true)
    (ha : Ancestor s.parent a h) : s.isBlkDelivered a = true := by
  induction ha with
  | refl => exact hdel
  | tail _ hp => exact (hs.parent_eq_some hp).2.1

/-- Every delivered block is on top of the genesis block. -/
theorem ancestor_genesis {h : ℕ} (hdel : s.isBlkDelivered h = true) :
    Ancestor s.parent E.genesis h := by
  generalize hn : s.height h = n
  induction n using Nat.strongRecOn generalizing h with
  | ind n ih =>
    by_cases hgen : h = E.genesis
    · subst hgen
      exact Ancestor.refl _ _
    · obtain ⟨p, hp⟩ := hs.exists_parent hdel hgen
      obtain ⟨-, hdelp, hheight, -⟩ := hs.parent_eq_some hp
      exact (ih _ (by omega) hdelp rfl).trans (Ancestor.single hp)

/-! ## Walks -/

/-- One step of a walk over delivered blocks. -/
theorem step {h : ℕ} (hdel : s.isBlkDelivered h = true) : ∃ b, s.getBlk h = .ok b ∧
    b.height = s.height h ∧ (0 < b.height → ∃ p ps, b.parents = p :: ps ∧ s.parent h = some p) := by
  obtain ⟨b, hb, hdelb⟩ := Replica.isBlkDelivered_iff.mp hdel
  refine ⟨b, Replica.getBlk_eq_ok.mpr hb, (Replica.height_eq hb).symm, fun hpos => ?_⟩
  have hne : h ≠ E.genesis := by
    rintro rfl
    rw [← Replica.height_eq hb, hs.height_genesis] at hpos
    exact absurd hpos (lt_irrefl 0)
  obtain ⟨p, ps, hparents, -⟩ := hs.parent h b hb hdelb hne
  refine ⟨p, ps, hparents, ?_⟩
  unfold Replica.parent
  rw [hb]
  simp only [hdelb, if_true, hparents, List.head?_cons]

/-- A walk down to a height ends in the ancestor of that height. -/
theorem walkTo_eq (height : ℕ) {fuel h : ℕ} (hdel : s.isBlkDelivered h = true)
    (hfuel : s.height h ≤ fuel) : ∃ r, s.walkTo height fuel h = .ok r ∧
      Ancestor s.parent r h ∧ s.height r = min height (s.height h) := by
  induction fuel generalizing h with
  | zero =>
    obtain ⟨b, hb, hheight, -⟩ := hs.step hdel
    have hle : b.height ≤ height := by omega
    refine ⟨h, ?_, Ancestor.refl _ _, by omega⟩
    unfold Replica.walkTo
    rw [hb, ok_bind]
    exact if_pos hle
  | succ fuel ih =>
    obtain ⟨b, hb, hheight, hstep⟩ := hs.step hdel
    unfold Replica.walkTo
    rw [hb, ok_bind]
    by_cases hle : b.height ≤ height
    · exact ⟨h, if_pos hle, Ancestor.refl _ _, by omega⟩
    · obtain ⟨p, ps, hparents, hp⟩ := hstep (by omega)
      obtain ⟨-, hdelp, hheightp, -⟩ := hs.parent_eq_some hp
      obtain ⟨r, hr, hanc, hmin⟩ := ih hdelp (by omega)
      rw [if_neg hle, hparents]
      exact ⟨r, hr, hanc.trans (Ancestor.single hp), by omega⟩

theorem branchAt_eq {a b : ℕ} (ha : s.isBlkDelivered a = true) (hb : s.isBlkDelivered b = true) :
    ∃ r, s.branchAt a b = .ok r ∧ Ancestor s.parent r b ∧
      s.height r = min (s.height a) (s.height b) := by
  obtain ⟨blkA, hblkA, hheightA, -⟩ := hs.step ha
  obtain ⟨blkB, hblkB, hheightB, -⟩ := hs.step hb
  unfold Replica.branchAt
  rw [hblkA, ok_bind, hblkB, ok_bind, hheightA, hheightB]
  exact hs.walkTo_eq _ hb le_rfl

/-- The same-branch test tells ancestors. -/
theorem branchAt_iff {a b : ℕ} (ha : s.isBlkDelivered a = true) (hb : s.isBlkDelivered b = true) :
    s.branchAt a b = .ok a ↔ Ancestor s.parent a b := by
  obtain ⟨r, hr, hanc, hheight⟩ := hs.branchAt_eq ha hb
  rw [hr]
  constructor
  · intro h
    cases h
    exact hanc
  · intro h
    have hle := h.height_le hs.graded
    have hra := hanc.of_height_le hs.graded h (by omega)
    rw [hra.eq_of_height_le hs.graded (by omega)]

/-- The same-branch test against any block, when it ends. -/
theorem eq_iff_of_branchAt {a b r : ℕ} (hb : s.isBlkDelivered b = true)
    (h : s.branchAt a b = .ok r) : r = a ↔ Ancestor s.parent a b := by
  unfold Replica.branchAt at h
  obtain ⟨blkA, hblkA, h⟩ := bind_eq_ok.mp h
  obtain ⟨blkB, hblkB, hheightB, -⟩ := hs.step hb
  rw [hblkB, ok_bind, hheightB] at h
  obtain ⟨r', hr', hanc, hheight⟩ := hs.walkTo_eq blkA.height hb le_rfl
  rw [hr'] at h
  cases h
  constructor
  · rintro rfl
    exact hanc
  · intro ha
    have hheightA : s.height a = blkA.height := Replica.height_eq (Replica.getBlk_eq_ok.mp hblkA)
    have hle := ha.height_le hs.graded
    have hra := hanc.of_height_le hs.graded ha (by omega)
    exact hra.eq_of_height_le hs.graded (by omega)

/-- What `check_commit` walks over is the branch from where it ends to the block. -/
theorem commitQueue_eq {height fuel h r : ℕ} {queue : List ℕ} (hdel : s.isBlkDelivered h = true)
    (heq : s.commitQueue height fuel h = .ok (queue, r)) :
    IsBranch s.parent (r :: queue.reverse) ∧ (r :: queue.reverse).getLast? = some h ∧
      s.height r = min height (s.height h) ∧ ∀ k ∈ r :: queue.reverse, s.isBlkDelivered k = true := by
  have hend : ∀ k, s.isBlkDelivered k = true → s.height k ≤ height → IsBranch s.parent [k] ∧
      [k].getLast? = some k ∧ s.height k = min height (s.height k) ∧
        ∀ j ∈ [k], s.isBlkDelivered j = true := by
    intro k hdel hle
    refine ⟨List.isChain_singleton k, rfl, by omega, fun j hj => ?_⟩
    rw [List.mem_singleton.mp hj]
    exact hdel
  induction fuel generalizing h queue with
  | zero =>
    obtain ⟨b, hb, hheight, -⟩ := hs.step hdel
    unfold Replica.commitQueue at heq
    rw [hb, ok_bind] at heq
    split at heq
    · rename_i hle
      cases heq
      exact hend _ hdel (by omega)
    · cases heq
  | succ fuel ih =>
    obtain ⟨b, hb, hheight, hstep⟩ := hs.step hdel
    unfold Replica.commitQueue at heq
    rw [hb, ok_bind] at heq
    split at heq
    · rename_i hle
      cases heq
      exact hend _ hdel (by omega)
    · rename_i hlt
      obtain ⟨p, ps, hparents, hp⟩ := hstep (by omega)
      obtain ⟨-, hdelp, hheightp, -⟩ := hs.parent_eq_some hp
      rw [hparents] at heq
      obtain ⟨⟨queue', r'⟩, hrest, hpair⟩ := bind_eq_ok.mp heq
      cases hpair
      obtain ⟨hbranch, hlast, hheightr, hall⟩ := ih hdelp hrest
      have hcons : r :: (h :: queue').reverse = (r :: queue'.reverse) ++ [h] := by simp
      rw [hcons]
      refine ⟨?_, List.getLast?_concat, by omega, ?_⟩
      · refine List.IsChain.append hbranch (List.isChain_singleton h) ?_
        intro x hx y hy
        rw [hlast] at hx
        cases hx
        cases hy
        exact hp
      · intro k hk
        rcases List.mem_append.mp hk with hk | hk
        · exact hall k hk
        · rw [List.mem_singleton.mp hk]
          exact hdel

end Linked

end

/-- The delivered blocks of a replica are linked in every state. -/
theorem System.Run.linked {E : Env T} {F : Faults T} {ok : System T → ℕ → Frame T → Prop}
    {σ : System T} (h : System.Run E F ok σ) (i : ℕ) : Linked E (σ.nodes i).rep := by
  refine h.node_induction (I := fun _ x => Linked E x.rep) (fun i => linked_init i) ?_ ?_ i
  · exact fun i x ev hx _ _ => hx
  · intro σ i fr stack _ _ _ hx _
    rw [Node.rep_after]
    exact linked_exec hx

end OptRand.Hotstuff
