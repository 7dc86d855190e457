import OptRand.Hotstuff.HighTail

/-!
# Blocks under their hashes

A block computes its hash when it is made or parsed, and `blk_cache` files it under that hash. What
calls do to a block later leaves the hashed fields alone, so every block has the hash of its
content; but for the genesis block, which gets its certificate in `on_init`, after its hash has been
computed (`System.content_addressed`).
-/

namespace OptRand.Hotstuff

open Lib Relation

variable {T : PayloadTypes}

/-- Every block is filed under its own hash, and the genesis block is that of `on_init`. -/
structure Filed (E : Env T) (s : Replica T) : Prop where
  hash : ∀ h b, s.blkCache h = some b → b.hash = h
  genesis : ∃ b, s.blkCache E.genesis = some b ∧ b.content = E.genesisBlock.content

section

variable {E : Env T} {s : Replica T} {fr : Frame T}

theorem filed_init (i : ℕ) : Filed E (E.init i) where
  hash := by
    intro h b hb
    obtain ⟨rfl, rfl⟩ := Env.blkCache_init hb
    rfl
  genesis := ⟨E.genesisBlock, E.blkCache_genesis i, rfl⟩

theorem hash_of_changes {h : ℕ} {b b' : Block T} (hsteps : ReflTransGen (Change E s h fr) b b') :
    b'.hash = b.hash := by
  induction hsteps with
  | refl => rfl
  | tail _ hstep ih => cases hstep <;> exact ih

theorem filed_exec (hs : Filed E s) : Filed E (s.exec E fr).rep where
  hash := by
    intro h b' hb'
    obtain ⟨b, horigin, hsteps⟩ := (Replica.exec_evolves fr).origin hb'
    rw [hash_of_changes hsteps]
    rcases horigin with hb | hadd
    · exact hs.hash h b hb
    · cases hadd <;> rfl
  genesis := by
    obtain ⟨b, hb, hcontent⟩ := hs.genesis
    obtain ⟨b', hb', hle⟩ := Replica.exec_blk_le (E := E) fr hb
    exact ⟨b', hb', hle.content.trans hcontent⟩

/-- The content of a block has the hash that the block is filed under, unless the certificate of the
genesis block has changed its hash. -/
theorem hash_content_iff (hs : Filed E s) (hs' : Hashed E s) {h : ℕ} {b : Block T}
    (hb : s.blkCache h = some b) :
    E.hash b.content = h ↔ h ≠ E.genesis ∨ E.hash E.genesisBlock.content = E.genesis := by
  by_cases hgen : h = E.genesis
  · subst hgen
    obtain ⟨g, hg, hcontent⟩ := hs.genesis
    cases Option.some.inj (hb.symm.trans hg)
    rw [hcontent, or_iff_right (not_not.mpr rfl)]
  · exact iff_of_true (hs' h b hb hgen) (Or.inl hgen)

/-- The blocks that are sent on a request have the hashes that were requested. -/
theorem map_hash_requested (hs : Filed E s) (hs' : Hashed E s) (hashes : List ℕ) :
    (hashes.filterMap fun h => (s.blkCache h).map Block.content).map E.hash =
        hashes.filter s.isBlkFetched ↔
      E.genesis ∉ hashes ∨ E.hash E.genesisBlock.content = E.genesis := by
  induction hashes with
  | nil => exact iff_of_true rfl (Or.inl List.not_mem_nil)
  | cons h hashes ih =>
    cases hb : s.blkCache h with
    | none =>
      have hne : E.genesis ≠ h := by
        rintro rfl
        obtain ⟨g, hg, -⟩ := hs.genesis
        cases hb.symm.trans hg
      rw [List.filterMap_cons, List.filter_cons, Replica.isBlkFetched, hb, List.mem_cons, not_or,
        and_iff_right hne]
      exact ih
    | some b =>
      have hhash := hash_content_iff hs hs' hb
      rw [List.filterMap_cons, List.filter_cons, Replica.isBlkFetched, hb, List.mem_cons, not_or]
      simp only [Option.map_some, Option.isSome_some, if_true, List.map_cons, List.cons.injEq,
        hhash, ih]
      tauto

namespace Replica

theorem isBlkFetched_addBlk_iff {blk : Block T} {k : ℕ} :
    (s.addBlk blk).isBlkFetched k = true ↔ s.isBlkFetched k = true ∨ k = blk.hash := by
  unfold addBlk
  split
  · rename_i hfetched
    refine ⟨Or.inl, ?_⟩
    rintro (h | rfl)
    · exact h
    · exact hfetched
  · unfold isBlkFetched setBlk
    by_cases hk : k = blk.hash
    · subst hk
      simp
    · simp [hk]

/-- Blocks that are received are filed under the hashes of their contents. -/
theorem isBlkFetched_foldl_receiveBlk {cs : List (BlockContent T)} {k : ℕ} :
    (cs.foldl (receiveBlk E) s).isBlkFetched k = true ↔
      s.isBlkFetched k = true ∨ k ∈ cs.map E.hash := by
  induction cs generalizing s with
  | nil => simp
  | cons c cs ih =>
    have hadd : (receiveBlk E s c).isBlkFetched k = true ↔ s.isBlkFetched k = true ∨ k = E.hash c :=
      isBlkFetched_addBlk_iff
    rw [List.foldl_cons, ih, hadd, List.map_cons, List.mem_cons, or_assoc]

end Replica

end

namespace System

/-- Every block in the cache of a replica is filed under its own hash. It is the hash of the block's
content, and a request for it is answered with a block of that hash, unless it is the genesis block,
whose certificate `on_init` adds; what is received is filed under the hash of its content. -/
theorem content_addressed (E : Env T) (F : Faults T) (σ : System T) (h : Reachable E F σ) (i : ℕ) :
    (∀ k b, (σ.nodes i).rep.blkCache k = some b → b.hash = k ∧
      (E.hash b.content = b.hash ↔
        k ≠ E.genesis ∨ E.hash E.genesisBlock.content = E.genesis)) ∧
    ∀ e ∈ σ.history i, ∀ hashes peer result, e.frame = .run (.respBlock hashes peer) result →
      ∃ blks, (e.outcome E).out = [.send peer (.respBlock blks)] ∧
        (blks.map E.hash = hashes.filter e.rep.isBlkFetched ↔
          E.genesis ∉ hashes ∨ E.hash E.genesisBlock.content = E.genesis) ∧
        ∀ (t : Replica T) k, (t.handle E i (.respBlock blks)).rep.isBlkFetched k = true ↔
          t.isBlkFetched k = true ∨ k ∈ blks.map E.hash := by
  have hfiled : ∀ σ, Run E F (fun _ _ _ => True) σ → ∀ i, Filed E (σ.nodes i).rep := by
    intro σ h i
    refine h.node_induction (I := fun _ x => Filed E x.rep) (fun i => filed_init i) ?_ ?_ i
    · exact fun i x ev hx _ _ => hx
    · intro σ i fr stack _ _ _ hx _
      rw [Node.rep_after]
      exact filed_exec hx
  refine ⟨fun k b hb => ?_, fun e he hashes peer result hframe => ?_⟩
  · have hhash := (hfiled σ h i).hash k b hb
    rw [hhash]
    exact ⟨rfl, hash_content_iff (hfiled σ h i) (h.hashed i) hb⟩
  · obtain ⟨hmem, rfl⟩ := mem_history.mp he
    obtain ⟨σ', -, hrun, -, -, hrep, -⟩ := h.exists_of_mem_trace hmem
    refine ⟨hashes.filterMap fun h => (e.rep.blkCache h).map Block.content, ?_, ?_, ?_⟩
    · unfold Executed.outcome
      rw [hframe]
      rfl
    · rw [← hrep]
      exact map_hash_requested (hfiled σ' hrun _) (hrun.hashed _) hashes
    · exact fun t k => Replica.isBlkFetched_foldl_receiveBlk

theorem content_addressed_first : ∃ σ : System plainTypes,
    (σ.nodes 1).rep.isBlkFetched (voteEnv.hash firstBlock) = true ∧
    (∀ k b, (σ.nodes 1).rep.blkCache k = some b → b.hash = k ∧
      (voteEnv.hash b.content = b.hash ↔
        k ≠ voteEnv.genesis ∨ voteEnv.hash voteEnv.genesisBlock.content = voteEnv.genesis)) ∧
    ∀ e ∈ σ.history 1, ∀ hashes peer result, e.frame = .run (.respBlock hashes peer) result →
      ∃ blks, (e.outcome voteEnv).out = [.send peer (.respBlock blks)] ∧
        (blks.map voteEnv.hash = hashes.filter e.rep.isBlkFetched ↔ voteEnv.genesis ∉ hashes ∨
          voteEnv.hash voteEnv.genesisBlock.content = voteEnv.genesis) ∧
        ∀ (t : Replica plainTypes) k,
          (t.handle voteEnv 1 (.respBlock blks)).rep.isBlkFetched k = true ↔
            t.isBlkFetched k = true ∨ k ∈ blks.map voteEnv.hash := by
  obtain ⟨σ, hrun, htest⟩ := exists_reachable_of_play voteEnv firstByzantine
    [.inject 0 1 (.propose ⟨0, firstBlock, 1⟩)]
    (fun σ => (σ.nodes 1).rep.isBlkFetched (voteEnv.hash firstBlock)) (by decide +kernel)
  exact ⟨σ, htest, content_addressed voteEnv firstByzantine σ hrun 1⟩

/-- The genesis block does not have the hash of its content. -/
theorem genesis_rehashed : ∃ (σ : System plainTypes) (k : ℕ) (b : Block plainTypes),
    Reachable voteEnv firstByzantine σ ∧ Honest voteEnv firstByzantine 1 ∧
    (σ.nodes 1).rep.blkCache k = some b ∧ voteEnv.hash b.content ≠ b.hash := by
  refine ⟨init voteEnv, voteEnv.genesis, voteEnv.genesisBlock, Run.init, by decide,
    voteEnv.blkCache_genesis 1, ?_⟩
  intro heq
  have hcontent : voteEnv.genesisBlock.content = ⟨[], [], none, 0, voteEnv.emptyAggregate⟩ :=
    contentCode_injective heq
  cases congrArg BlockContent.qc hcontent

end System

end OptRand.Hotstuff
