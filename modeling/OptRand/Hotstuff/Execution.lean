import OptRand.Hotstuff.Outputs
import OptRand.Hotstuff.Signing
import OptRand.Hotstuff.Tree
import OptRand.Hotstuff.Voting

/-!
# What is executed, and in which order

`check_commit` walks from an acknowledged block down to the height of `b_exec`, executes what it
passed and moves `b_exec` to the block. When the acknowledgements of a block below `b_exec` are
complete, it executes nothing but moves `b_exec` down, and the next commit executes the blocks above
it again (`System.executed_twice`). As long as the acknowledgements completed are never of a block
below `b_exec`, the blocks executed are a branch from the genesis block
(`System.executed_in_order`).
-/

namespace OptRand.Hotstuff

open Lib Relation

variable {T : PayloadTypes}

/-- The block that an output hands to `do_consensus`. -/
def Output.executed : Output T → Option ℕ
  | .consensus blk => some blk
  | _ => none

/-- The blocks that the calls of a replica have handed to `do_consensus`, in order. -/
def executedIn (E : Env T) (past : List (Executed T)) : List ℕ :=
  past.reverse.flatMap fun e => (e.outcome E).out.filterMap Output.executed

theorem executedIn_cons (E : Env T) (e : Executed T) (past : List (Executed T)) :
    executedIn E (e :: past) =
      executedIn E past ++ (e.outcome E).out.filterMap Output.executed := by
  simp [executedIn]

namespace Replica

variable {s : Replica T} {E : Env T} {fr : Frame T}

/-- Only an acknowledgement executes blocks. -/
theorem executed_exec (hack : ∀ a, fr ≠ .onReceiveAck a) :
    (s.exec E fr).out.filterMap Output.executed = [] := by
  rw [List.filterMap_eq_nil_iff]
  intro out hout
  rcases exec_out hout with hmsg | hsaid
  · cases out <;> first | rfl | exact False.elim hmsg
  · cases hsaid <;> first | rfl | exact absurd rfl (hack _)

/-- No other call decides a block. -/
theorem decision_of_changes {h : ℕ} {b b' : Block T} (hack : ∀ a, fr ≠ .onReceiveAck a)
    (hsteps : ReflTransGen (Change E s h fr) b b') : b'.decision = b.decision := by
  induction hsteps with
  | refl => rfl
  | tail _ hstep ih =>
    cases hstep with
    | decide a hfr => exact absurd hfr (hack a)
    | _ => exact ih

/-- The blocks decided after a commit. -/
theorem decided_commitBlocks {queue : List ℕ} {h : ℕ} {b : Block T}
    (hb : (s.commitBlocks E queue).blkCache h = some b) (hdec : b.decision = 1) :
    (∃ b₀, s.blkCache h = some b₀ ∧ b₀.decision = 1) ∨ h ∈ queue := by
  induction queue generalizing s with
  | nil => exact Or.inl ⟨b, hb, hdec⟩
  | cons k queue ih =>
    rcases ih hb with ⟨b₀, hb₀, hdec₀⟩ | hmem
    · rw [blkCache_onConsensus] at hb₀
      unfold modifyBlk at hb₀
      split at hb₀
      · rcases blkCache_of_setBlk hb₀ with ⟨rfl, -⟩ | hold
        · exact Or.inr List.mem_cons_self
        · exact Or.inl ⟨b₀, hold, hdec₀⟩
      · exact Or.inl ⟨b₀, hb₀, hdec₀⟩
    · exact Or.inr (List.mem_cons_of_mem k hmem)

end Replica

/-- `l` is what has been executed: the branch from the genesis block to `b_exec`. -/
structure ExecutedTo (s : Replica T) (l : List ℕ) : Prop where
  branch : IsBranch s.parent l
  last : l.getLast? = some s.bExec
  delivered : ∀ h ∈ l, s.isBlkDelivered h = true
  decided : ∀ h b, s.blkCache h = some b → b.decision = 1 → h ∈ l

section

variable {E : Env T} {s : Replica T} {fr : Frame T} {l : List ℕ}

/-- What has been executed stays as it is when a call commits nothing. -/
theorem ExecutedTo.of_bExec (hl : ExecutedTo s l) (hbExec : (s.exec E fr).rep.bExec = s.bExec)
    (hdecided : ∀ h b, (s.exec E fr).rep.blkCache h = some b → b.decision = 1 → h ∈ l) :
    ExecutedTo (s.exec E fr).rep l where
  branch := hl.branch.mono fun _ _ hp => parent_exec fr hp
  last := hl.last.trans (congrArg some hbExec.symm)
  delivered := fun h hh => (Replica.exec_delivered fr (hl.delivered h hh)).1
  decided := hdecided

theorem executedTo_exec (hl : ExecutedTo s l) (hack : ∀ a, fr ≠ .onReceiveAck a) :
    ExecutedTo (s.exec E fr).rep l := by
  refine hl.of_bExec (Replica.exec_bExec hack) ?_
  intro h b' hb' hdec
  obtain ⟨b, horigin, hsteps⟩ := (Replica.exec_evolves fr).origin hb'
  rw [Replica.decision_of_changes hack hsteps] at hdec
  rcases horigin with hb | hadd
  · exact hl.decided h b hb hdec
  · cases hadd <;> cases hdec

/-- The acknowledgement is the one that completes those of a block. -/
def Replica.Completes (E : Env T) (s : Replica T) (a : Ack) (b : Block T) : Prop :=
  s.view ≤ a.view ∧ s.blkCache a.blkHash = some b ∧ a.voter ∉ b.acked ∧
    b.acked.length + 1 = E.config.nresponsive

/-- The acknowledgement does not complete those of a decided block below `b_exec`. -/
def Replica.CommitsUp (E : Env T) (s : Replica T) (a : Ack) : Prop :=
  ∀ b, s.Completes E a b → b.decision = 1 → s.height s.bExec ≤ b.height

/-- A commit executes the branch from `b_exec` to the acknowledged block. -/
theorem ExecutedTo.of_commit (hs : Linked E s) (hl : ExecutedTo s l) {blk : ℕ} {b : Block T}
    {s' : Replica T} {executed : List ℕ} (hb : s.blkCache blk = some b) (hdel : b.delivered = true)
    (hup : b.decision = 1 → s.height s.bExec ≤ b.height)
    (hcommit : s.checkCommit E blk = .ok (s', executed)) :
    IsBranch s.parent (l ++ executed) ∧ (l ++ executed).getLast? = some blk ∧
      ∀ k ∈ l ++ executed, s.isBlkDelivered k = true := by
  obtain ⟨exec, start, queue, last, lastBlk, hexec, hstart, hqueue, hlast, hend, rfl, -⟩ :=
    Replica.checkCommit_eq_ok hcommit
  have hblk : s.isBlkDelivered blk = true := Replica.isBlkDelivered_iff.mpr ⟨b, hb, hdel⟩
  obtain ⟨hbranch, hlast?, hheight, hall⟩ := hs.commitQueue_eq hblk hqueue
  have hbExec : s.bExec ∈ l := List.mem_of_getLast? hl.last
  have hheightExec : s.height s.bExec = exec.height :=
    Replica.height_eq (Replica.getBlk_eq_ok.mp hexec)
  have hmem : last ∈ l := by
    rcases hend with rfl | hdec
    · exact hbExec
    · exact hl.decided last lastBlk (Replica.getBlk_eq_ok.mp hlast) hdec
  -- a block below `b_exec` is where the walk over it ends
  have hreach : exec.height ≤ s.height blk := by
    by_contra hlow
    have hsame : last = blk :=
      (hbranch.ancestor hlast?).eq_of_height_le hs.graded (by omega)
    rw [hsame] at hend hlast
    rcases hend with hblkExec | hdec
    · rw [hblkExec, hheightExec] at hlow
      exact hlow le_rfl
    · have hblkLast := Replica.getBlk_eq_ok.mp hlast
      rw [hb] at hblkLast
      cases hblkLast
      have := hup hdec
      rw [Replica.height_eq hb] at hlow
      omega
  have heq : last = s.bExec := hl.branch.eq_of_height_eq hs.graded hmem hbExec (by omega)
  subst heq
  obtain ⟨l', rfl⟩ : ∃ l', l = l' ++ [s.bExec] := List.getLast?_eq_some_iff.mp hl.last
  have happend : l' ++ [s.bExec] ++ queue.reverse = l' ++ s.bExec :: queue.reverse := by simp
  refine ⟨List.IsChain.append_overlap hl.branch hbranch (List.cons_ne_nil _ _), ?_, ?_⟩
  · rw [happend, List.getLast?_append, hlast?]
    rfl
  · intro k hk
    rcases List.mem_append.mp hk with hk | hk
    · exact hl.delivered k hk
    · exact hall k (List.mem_cons_of_mem _ hk)

/-- Counting an acknowledgement leaves the tree as it is. -/
theorem sameTree_acked {h : ℕ} {b : Block T} (hb : s.blkCache h = some b) (acked : List ℕ) :
    SameTree s (s.setBlk h { b with acked := acked }) :=
  SameTree.of_update hb rfl rfl rfl rfl rfl

theorem executedTo_acked (hl : ExecutedTo s l) {h : ℕ} {b : Block T} (hb : s.blkCache h = some b)
    (acked : List ℕ) : ExecutedTo (s.setBlk h { b with acked := acked }) l := by
  have htree := sameTree_acked hb acked
  refine ⟨htree.parent ▸ hl.branch, hl.last, htree.delivered ▸ hl.delivered, ?_⟩
  intro k b' hb' hdec
  rcases Replica.blkCache_of_setBlk hb' with ⟨rfl, rfl⟩ | hold
  · exact hl.decided k b hb hdec
  · exact hl.decided k b' hold hdec

theorem executed_map (executed : List ℕ) :
    (executed.map (.consensus : ℕ → Output T)).filterMap Output.executed = executed := by
  rw [List.filterMap_map]
  exact List.filterMap_some

theorem executedTo_onReceiveAck (hs : Linked E s) (hl : ExecutedTo s l) {a : Ack}
    (hup : s.CommitsUp E a) :
    ExecutedTo (s.onReceiveAck E a).rep
      (l ++ (s.onReceiveAck E a).out.filterMap Output.executed) := by
  rcases Replica.onReceiveAck_cases (rfl : s.onReceiveAck E a = _) with
    ⟨hrep, hout⟩ | ⟨b, hview, hb, hdel, hsize, hvoter, ⟨hrep, hout⟩ | ⟨hfull, s', executed, hcommit,
      hrep, hout⟩⟩
  · rw [hrep, hout, List.filterMap_nil, List.append_nil]
    exact hl
  · rw [hrep, hout, List.filterMap_nil, List.append_nil]
    exact executedTo_acked hl hb _
  · set s₁ := s.setBlk a.blkHash { b with acked := b.acked ++ [a.voter] } with hs₁
    have htree : SameTree s s₁ := sameTree_acked hb _
    have hb₁ : s₁.blkCache a.blkHash = some { b with acked := b.acked ++ [a.voter] } :=
      Function.update_self ..
    have hl₁ : ExecutedTo s₁ l := executedTo_acked hl hb _
    obtain ⟨hbranch, hlast, hall⟩ := hl₁.of_commit (hs.of_sameTree htree) hb₁ hdel
      (fun hdec => (congrFun htree.height _).trans_le (hup b ⟨hview, hb, hvoter, hfull⟩ hdec)) hcommit
    rw [hout, executed_map]
    constructor
    · refine hbranch.mono fun h p hp => ?_
      rw [htree.parent] at hp
      exact (parent_exec (E := E) (.onReceiveAck a) hp :)
    · obtain ⟨-, -, queue, -, -, -, -, -, -, -, -, rfl⟩ := Replica.checkCommit_eq_ok hcommit
      rw [hrep]
      exact hlast
    · intro k hk
      have hdelk := hall k hk
      rw [htree.delivered] at hdelk
      exact (Replica.exec_delivered (E := E) (.onReceiveAck a) hdelk).1
    · intro k b' hb' hdec
      obtain ⟨-, -, queue, -, -, -, -, -, -, -, hexec, rfl⟩ := Replica.checkCommit_eq_ok hcommit
      rw [hrep] at hb'
      rw [hexec]
      rcases Replica.decided_commitBlocks hb' hdec with ⟨b₀, hb₀, hdec₀⟩ | hmem
      · exact List.mem_append_left _ (hl₁.decided k b₀ hb₀ hdec₀)
      · exact List.mem_append_right _ hmem

theorem executedTo_step (hs : Linked E s) (hl : ExecutedTo s l)
    (hup : ∀ a, fr = .onReceiveAck a → s.CommitsUp E a) :
    ExecutedTo (s.exec E fr).rep (l ++ (s.exec E fr).out.filterMap Output.executed) := by
  by_cases hack : ∃ a, fr = .onReceiveAck a
  · obtain ⟨a, rfl⟩ := hack
    exact executedTo_onReceiveAck hs hl (hup a rfl)
  · have hnone : ∀ a, fr ≠ .onReceiveAck a := fun a ha => hack ⟨a, ha⟩
    rw [Replica.executed_exec hnone, List.append_nil]
    exact executedTo_exec hl hnone

/-- `b_exec` is the highest block executed. -/
theorem ExecutedTo.height_le (hs : Linked E s) (hl : ExecutedTo s l) {k : ℕ} (hk : k ∈ l) :
    s.height k ≤ s.height s.bExec := by
  obtain ⟨l', rfl⟩ : ∃ l', l = l' ++ [s.bExec] := List.getLast?_eq_some_iff.mp hl.last
  rcases List.mem_append.mp hk with hk | hk
  · have hpairs := List.pairwise_append.mp (hl.branch.pairwise hs.graded)
    exact (hpairs.2.2 k hk s.bExec (List.mem_singleton_self _)).le
  · rw [List.mem_singleton.mp hk]

theorem height_bExec_le (hs : Linked E s) (hl : ExecutedTo s l)
    (hup : ∀ a, fr = .onReceiveAck a → s.CommitsUp E a) :
    s.height s.bExec ≤ (s.exec E fr).rep.height (s.exec E fr).rep.bExec := by
  have hbExec : s.bExec ∈ l := List.mem_of_getLast? hl.last
  have hle := (executedTo_step hs hl hup).height_le (linked_exec hs) (List.mem_append_left _ hbExec)
  rw [(Replica.exec_delivered fr (hl.delivered _ hbExec)).2.1] at hle
  exact hle

end

/-! ## Runs -/

theorem executedTo_init (E : Env T) (i : ℕ) : ExecutedTo (E.init i) [E.genesis] where
  branch := List.isChain_singleton _
  last := rfl
  delivered := by
    intro h hh
    rw [List.mem_singleton.mp hh]
    exact (linked_init i).delivered_genesis
  decided := by
    intro h b hb _
    exact List.mem_singleton.mpr (Env.blkCache_init hb).1

namespace System

/-- What replica `i` runs next does not complete the acknowledgements of a decided block below
`b_exec`. -/
def CommitsUp (E : Env T) (σ : System T) (i : ℕ) (fr : Frame T) : Prop :=
  ∀ a, fr = .onReceiveAck a → (σ.nodes i).rep.CommitsUp E a

variable {E : Env T} {F : Faults T} {σ : System T}

/-- In every state, what has been executed is the branch from the genesis block to `b_exec`. -/
theorem Run.executedTo (h : Run E F (CommitsUp E) σ) (i : ℕ) :
    ExecutedTo (σ.nodes i).rep (E.genesis :: executedIn E (σ.history i)) := by
  refine h.history_induction
    (I := fun _ past x => ExecutedTo x.rep (E.genesis :: executedIn E past)) ?_ ?_ ?_ i
  · exact fun i => executedTo_init E i
  · exact fun i past x ev hx _ _ => hx
  · intro σ i fr stack hrun _ hup hx _
    rw [Node.rep_after, executedIn_cons, ← List.cons_append]
    exact executedTo_step (hrun.linked i) hx hup

/-- If no acknowledgements are completed for a decided block below `b_exec`, then a replica
executes every block once and right after its parent, starting after the genesis block, and no call
lowers the height of `b_exec`. -/
theorem executed_in_order (E : Env T) (F : Faults T) (σ : System T) (h : Run E F (CommitsUp E) σ)
    (i : ℕ) : (E.genesis :: executedIn E (σ.history i)).Nodup ∧
      IsBranch (σ.nodes i).rep.parent (E.genesis :: executedIn E (σ.history i)) ∧
      ∀ e ∈ σ.history i, e.rep.height e.rep.bExec ≤
        (e.outcome E).rep.height (e.outcome E).rep.bExec := by
  have hbranch := (h.executedTo i).branch
  refine ⟨hbranch.nodup (h.linked i).graded, hbranch, ?_⟩
  intro e he
  obtain ⟨he, -⟩ := mem_history.mp he
  obtain ⟨σ', stack, hrun, -, -, hrep, -, hup⟩ := h.exists_of_mem_trace he
  have hlinked := hrun.linked e.node
  have hexecuted := hrun.executedTo e.node
  unfold CommitsUp at hup
  rw [hrep] at hlinked hexecuted hup
  exact height_bExec_le hlinked hexecuted hup

/-- Six replicas, of which four make a beacon. -/
def sixEnv : Env plainTypes :=
  plainEnv 6 [11, 12, 13, 14, 15, 16, 17, 18, 19, 20, 21, 22] contentCode

/-- Whether a call does not complete the acknowledgements of a block below `b_exec`. -/
def commitsUp (σ : System plainTypes) (i : ℕ) : Frame plainTypes → Bool
  | .onReceiveAck a =>
    match (σ.nodes i).rep.blkCache a.blkHash with
    | some b => decide ((σ.nodes i).rep.height (σ.nodes i).rep.bExec ≤ b.height)
    | none => true
  | _ => true

theorem commitsUp_of_check {σ : System plainTypes} {i : ℕ} {fr : Frame plainTypes}
    (h : commitsUp σ i fr = true) : CommitsUp sixEnv σ i fr := by
  rintro a rfl b ⟨-, hb, -⟩ -
  simp only [commitsUp, hb, decide_eq_true_eq] at h
  exact h

/-- A block on top of the child of the first one. -/
def grandchildBlock : BlockContent plainTypes :=
  { firstBlock with parentHashes := [sixEnv.hash childBlock], extra := (13 : ℕ) }

/-- Replica `0` has its three proposals voted for by replicas `1` to `4` in view `1`. -/
def threeProposals : List (Scripted plainTypes) :=
  [firstBlock, childBlock, grandchildBlock].flatMap fun c =>
    [1, 2, 3, 4].map fun i => .inject 0 i (.propose ⟨0, c, 1⟩)

/-- Replica `0` shows its own signature for a block and those of the votes to replica `1` as
acknowledgements. -/
def acksFor (c : BlockContent plainTypes) : List (Scripted plainTypes) :=
  (List.range 5).flatMap fun v => [.inject 0 1 (.ack (shownAck v (sixEnv.hash c))), .verify 1]

/-- Replica `1` executes three blocks, one commit for each. -/
theorem executed_in_order_acks : ∃ σ : System plainTypes, (σ.nodes 1).crashed = none ∧
    executedIn sixEnv (σ.history 1) =
      [sixEnv.hash firstBlock, sixEnv.hash childBlock, sixEnv.hash grandchildBlock] ∧
    (sixEnv.genesis :: executedIn sixEnv (σ.history 1)).Nodup ∧
    IsBranch (σ.nodes 1).rep.parent (sixEnv.genesis :: executedIn sixEnv (σ.history 1)) ∧
    ∀ e ∈ σ.history 1, e.rep.height e.rep.bExec ≤
      (e.outcome sixEnv).rep.height (e.outcome sixEnv).rep.bExec := by
  obtain ⟨σ, hrun, htest⟩ := exists_of_play sixEnv firstByzantine commitsUp
    (fun _ _ _ => commitsUp_of_check)
    (threeProposals ++ acksFor firstBlock ++ acksFor childBlock ++ acksFor grandchildBlock)
    (fun σ => (σ.nodes 1).crashed.isNone && executedIn sixEnv (σ.history 1) ==
      [sixEnv.hash firstBlock, sixEnv.hash childBlock, sixEnv.hash grandchildBlock])
    (by decide +kernel)
  obtain ⟨hcrashed, hexecuted⟩ := Bool.and_eq_true_iff.mp htest
  exact ⟨σ, Option.isNone_iff_eq_none.mp hcrashed, beq_iff_eq.mp hexecuted,
    executed_in_order sixEnv firstByzantine σ hrun 1⟩

/-- The acknowledgements of the first block come after those of the second one: replica `1`, which
has not thrown, executes the second block again with the third one. It has made three shares by
then, and a beacon takes four. -/
theorem executed_twice : ∃ σ : System plainTypes, Reachable sixEnv firstByzantine σ ∧
    Honest sixEnv firstByzantine 1 ∧ (σ.nodes 1).crashed = none ∧
    executedIn sixEnv (σ.history 1) = [sixEnv.hash firstBlock, sixEnv.hash childBlock,
      sixEnv.hash childBlock, sixEnv.hash grandchildBlock] ∧
    ¬ (executedIn sixEnv (σ.history 1)).Nodup ∧
    ∃ e ∈ σ.history 1, (e.outcome sixEnv).rep.height (e.outcome sixEnv).rep.bExec <
      e.rep.height e.rep.bExec := by
  obtain ⟨σ, hrun, htest⟩ := exists_reachable_of_play sixEnv firstByzantine
    (threeProposals ++ acksFor childBlock ++ acksFor firstBlock ++ acksFor grandchildBlock)
    (fun σ => (σ.nodes 1).crashed.isNone && (executedIn sixEnv (σ.history 1) ==
      [sixEnv.hash firstBlock, sixEnv.hash childBlock, sixEnv.hash childBlock,
        sixEnv.hash grandchildBlock] &&
      (σ.history 1).any fun e => decide ((e.outcome sixEnv).rep.height
        (e.outcome sixEnv).rep.bExec < e.rep.height e.rep.bExec)))
    (by decide +kernel)
  obtain ⟨hcrashed, hexecuted, hlower⟩ : _ ∧ _ ∧ _ := by
    simpa only [Bool.and_eq_true, beq_iff_eq, Option.isNone_iff_eq_none, List.any_eq_true,
      decide_eq_true_eq] using htest
  refine ⟨σ, hrun, by decide, hcrashed, hexecuted, ?_, hlower⟩
  rw [hexecuted]
  intro hnodup
  exact (List.nodup_cons.mp (List.nodup_cons.mp hnodup).2).1 List.mem_cons_self

end System

end OptRand.Hotstuff
