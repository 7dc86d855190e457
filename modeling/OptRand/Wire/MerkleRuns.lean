import Mathlib.Data.Nat.Pairing
import OptRand.Wire.MerklePast

/-!
# Runs of a Merkle tree (`merklecpp.h`)

A tree that starts empty is called in any order. Every call returns or throws what it means for the
log of the leaves (`run_tree`), so that a path leads to the root and no other leaf has one without a
collision (`path_binds`), and past roots and paths are those of the tree that is retracted
(`past_eq_retracted`).
-/

namespace OptRand.Wire.MerkleTree

open Lib.MerkleLog

variable {H : Type}

/-! ## Calls -/

/-- A call of a tree. -/
inductive Op (H : Type) where
  | insert (hash : H)
  | root
  | leaf (index : ℕ)
  | path (index : ℕ)
  | pastRoot (index : ℕ)
  | pastPath (index asOf : ℕ)
  | flushTo (index : ℕ)
  | retractTo (index : ℕ)

/-- What a call returns. -/
inductive Result (H : Type) where
  | unit
  | hash (hash : H)
  | path (path : PathT H)

section

variable [Inhabited H] (op : H → H → H)

/-- A call of a `TreeT`. -/
def TreeT.exec (t : TreeT H) : Op H → Except Error (TreeT H × Result H)
  | .insert hash => return (t.insert hash, .unit)
  | .root => do
    let (t, hash) ← t.root op
    return (t, .hash hash)
  | .leaf index => do
    let hash ← t.leafNode index
    return (t, .hash hash)
  | .path index => do
    let (t, path) ← t.path op index
    return (t, .path path)
  | .pastRoot index => do
    let (t, hash) ← t.pastRoot op index
    return (t, .hash hash)
  | .pastPath index asOf => do
    let (t, path) ← t.pastPath op index asOf
    return (t, .path path)
  | .flushTo index => do
    let t ← t.flushTo op index
    return (t, .unit)
  | .retractTo index => do
    let t ← t.retractTo op index
    return (t, .unit)

omit [Inhabited H] in
theorem Log.valid_insert (log : Log H) (hash : H) :
    log.flushed = 0 ∨ log.flushed < (log.leaves ++ [hash]).length := by
  have hvalid := log.valid
  rw [List.length_append]
  omega

omit [Inhabited H] in
/-- The log with a new leaf. -/
def Log.insert (log : Log H) (hash : H) : Log H :=
  ⟨log.leaves ++ [hash], log.flushed, log.valid_insert hash⟩

/-- What a call means for the log. -/
def Log.exec (log : Log H) : Op H → Except Error (Log H × Result H)
  | .insert hash => return (log.insert hash, .unit)
  | .root =>
    if log.leaves = [] then throw (.runtimeError "empty tree does not have a root")
    else return (log, .hash (rootHash op log.leaf log.leaves.length))
  | .leaf index =>
    if log.leaves.length ≤ index then throw (.runtimeError "leaf index out of bounds")
    else if index < log.flushed then throw .undefined
    else return (log, .hash (log.leaf index))
  | .path index =>
    if index < log.flushed ∨ log.leaves.length - 1 < index then
      throw (.runtimeError "invalid leaf index")
    else if log.leaves = [] then throw (.runtimeError "empty tree does not have a root")
    else return (log, .path (log.path op index))
  | .pastRoot index =>
    if index < log.flushed ∨ log.leaves.length - 1 < index then
      throw (.runtimeError "invalid leaf index")
    else if log.leaves = [] then throw (.runtimeError "empty tree does not have a root")
    else return (log, .hash (rootHash op log.leaf (index + 1)))
  | .pastPath index asOf =>
    if index < log.flushed ∨ log.leaves.length - 1 < asOf ∨ asOf < index then
      throw (.runtimeError "invalid leaf indices")
    else if log.leaves = [] then throw (.runtimeError "empty tree does not have a root")
    else return (log, .path (log.pastPath op index asOf))
  | .flushTo index =>
    if index ≤ log.flushed then return (log, .unit)
    else if h : index < log.leaves.length then return (log.flushTo index h, .unit)
    else throw (.runtimeError "invalid leaf index")
  | .retractTo index =>
    if log.leaves.length - 1 < index then return (log, .unit)
    else if h : log.flushed ≤ index then return (log.retractTo index h, .unit)
    else throw (.runtimeError "leaf index out of bounds")

/-- Calls in turn, with their results. A call that throws changes nothing. -/
def runOps {S : Type} (exec : S → Op H → Except Error (S × Result H)) :
    S → List (Op H) → S × List (Except Error (Result H))
  | s, [] => (s, [])
  | s, o :: ops =>
    match exec s o with
    | .ok (s, r) => ((runOps exec s ops).1, .ok r :: (runOps exec s ops).2)
    | .error e => ((runOps exec s ops).1, .error e :: (runOps exec s ops).2)

omit [Inhabited H] in
/-- How many leaves a call inserts. -/
def Op.numInserts : Op H → ℕ
  | .insert _ => 1
  | _ => 0

variable {op} {t : TreeT H} {log : Log H}

/-- What a call gives in the two. -/
def Agree (op : H → H → H) :
    Except Error (TreeT H × Result H) → Except Error (Log H × Result H) → Prop
  | .ok (t, r), .ok (log, r') => r = r' ∧ t.Models op log
  | .error e, .error e' => e = e'
  | _, _ => False

namespace TreeT

/-- A walk throws if the leaf is not there. -/
theorem Models.walkTo_out (h : t.Models op log) {index : ℕ}
    (hout : index < log.flushed ∨ log.leaves.length - 1 < index) {σ : Type}
    (f : σ → Node H → Bool → σ × Node H × Bool) (update : Bool) (s : σ) :
    t.walkTo op index update f s = .error (.runtimeError "invalid leaf index") := by
  have hmaxIndex := h.maxIndex
  have hminIndex : t.minIndex = log.flushed := h.flushed
  unfold walkTo
  rw [if_pos (by omega)]
  rfl

theorem Models.walkTo_empty (h : t.Models op log) {index : ℕ}
    (hin : ¬ (index < log.flushed ∨ log.leaves.length - 1 < index)) (hnil : log.leaves = [])
    {σ : Type} (f : σ → Node H → Bool → σ × Node H × Bool) (update : Bool) (s : σ) :
    t.walkTo op index update f s =
      .error (.runtimeError "empty tree does not have a root") := by
  have hmaxIndex := h.maxIndex
  have hminIndex : t.minIndex = log.flushed := h.flushed
  unfold walkTo
  rw [if_neg (by omega), h.computeRoot_empty hnil]
  rfl

theorem Models.retractTo_empty (h : t.Models op log) {index : ℕ} (hnil : log.leaves = [])
    (hmin : log.flushed ≤ index) (hmax : ¬ log.leaves.length - 1 < index) :
    t.retractTo op index = .ok t ∧ t.Models op (log.retractTo index hmin) := by
  have hnum := h.numLeaves
  have hmaxIndex := h.maxIndex
  have hflushed := h.flushed
  have hlength : log.leaves.length = 0 := by rw [hnil]; rfl
  have hvalid := log.valid
  unfold TreeT.numLeaves at hnum
  constructor
  · unfold TreeT.retractTo
    have hnone : t.uninsertedLeafNodes = [] := List.length_eq_zero_iff.mp (by omega)
    rw [if_neg (by omega), if_neg (by rw [TreeT.minIndex]; omega), if_pos (by omega)]
    show Except.ok { t with uninsertedLeafNodes := t.uninsertedLeafNodes.take _ } = _
    rw [hnone, List.take_nil, ← hnone]
  · have hsame : log.retractTo index hmin = log := by
      obtain ⟨leaves, flushed, valid⟩ := log
      subst hnil
      rfl
    rw [hsame]
    exact h

/-- Every call of a tree does what it means for the log. -/
theorem Models.exec (h : t.Models op log) (hbound : log.leaves.length ≤ maxLeaves) (o : Op H) :
    Agree op (t.exec op o) (log.exec op o) := by
  cases o with
  | insert hash => exact ⟨rfl, h.insert hash⟩
  | root =>
    rw [TreeT.exec, Log.exec]
    unfold TreeT.root
    split
    · rename_i hnil
      rw [h.computeRoot_empty hnil]
      rfl
    · rename_i hne
      obtain ⟨t', root, hroot, hcomputed⟩ := h.computeRoot hne
      rw [hroot]
      exact ⟨congrArg Result.hash hcomputed.hash_eq, hcomputed.models⟩
  | leaf index =>
    rw [TreeT.exec, Log.exec]
    have hnum := h.numLeaves
    have hflushed := h.flushed
    split
    · unfold TreeT.leafNode
      rw [if_pos (by omega)]
      rfl
    split
    · unfold TreeT.leafNode
      rw [if_neg (by omega), if_pos (by omega)]
      rfl
    · rw [h.leafNode (by omega) (by omega)]
      exact ⟨rfl, h⟩
  | path index =>
    rw [TreeT.exec, Log.exec]
    split
    · rename_i hout
      unfold TreeT.path
      rw [h.walkTo_out hout]
      rfl
    split
    · rename_i hin hnil
      unfold TreeT.path
      rw [h.walkTo_empty hin hnil]
      rfl
    · rename_i hin hne
      rw [← List.length_eq_zero_iff] at hne
      obtain ⟨t', hpath, hmodels⟩ :=
        h.path (show log.flushed ≤ index by omega) (by omega) hbound
      rw [hpath]
      exact ⟨rfl, hmodels⟩
  | pastRoot index =>
    rw [TreeT.exec, Log.exec]
    split
    · rename_i hout
      unfold TreeT.pastRoot TreeT.path
      rw [h.walkTo_out hout]
      rfl
    split
    · rename_i hin hnil
      unfold TreeT.pastRoot TreeT.path
      rw [h.walkTo_empty hin hnil]
      rfl
    · rename_i hin hne
      rw [← List.length_eq_zero_iff] at hne
      obtain ⟨t', hroot, hmodels⟩ :=
        h.pastRoot (show log.flushed ≤ index by omega) (by omega) hbound
      rw [hroot]
      exact ⟨rfl, hmodels⟩
  | pastPath index asOf =>
    rw [TreeT.exec, Log.exec]
    have hmaxIndex := h.maxIndex
    have hminIndex : t.minIndex = log.flushed := h.flushed
    split
    · unfold TreeT.pastPath
      rw [if_pos (by omega)]
      rfl
    split
    · rename_i hin hnil
      unfold TreeT.pastPath
      rw [if_neg (by omega), h.computeRoot_empty hnil]
      rfl
    · rename_i hin hne
      rw [← List.length_eq_zero_iff] at hne
      obtain ⟨t', hpath, hmodels⟩ := h.pastPath (show log.flushed ≤ index by omega)
        (show index ≤ asOf by omega) (by omega) hbound
      rw [hpath]
      exact ⟨rfl, hmodels⟩
  | flushTo index =>
    rw [TreeT.exec, Log.exec]
    have hminIndex : t.minIndex = log.flushed := h.flushed
    split
    · unfold TreeT.flushTo
      rw [if_pos (by omega)]
      exact ⟨rfl, h⟩
    split
    · rename_i hlt hmax
      obtain ⟨t', hflush, hmodels⟩ := h.flushTo (by omega) hmax hbound
      rw [hflush]
      exact ⟨rfl, hmodels⟩
    · unfold TreeT.flushTo
      rw [if_neg (by omega), h.walkTo_out (by omega)]
      rfl
  | retractTo index =>
    rw [TreeT.exec, Log.exec]
    have hmaxIndex := h.maxIndex
    have hminIndex : t.minIndex = log.flushed := h.flushed
    split
    · unfold TreeT.retractTo
      rw [if_pos (by omega)]
      exact ⟨rfl, h⟩
    split
    · rename_i hmax hmin
      by_cases hnil : log.leaves = []
      · obtain ⟨hretract, hmodels⟩ := h.retractTo_empty hnil hmin hmax
        rw [hretract]
        exact ⟨rfl, hmodels⟩
      · rw [← List.length_eq_zero_iff] at hnil
        obtain ⟨t', hretract, hmodels⟩ := h.retractTo hmin (by omega) hbound
        rw [hretract]
        exact ⟨rfl, hmodels⟩
    · unfold TreeT.retractTo
      rw [if_neg (by omega), if_pos (by omega)]
      rfl

end TreeT

/-- Only `insert` makes a log longer. -/
theorem Log.length_exec {log' : Log H} {o : Op H} {r : Result H}
    (h : log.exec op o = .ok (log', r)) :
    log'.leaves.length ≤ log.leaves.length + o.numInserts := by
  cases o with
  | insert hash =>
    cases h
    exact List.length_append.le
  | flushTo index =>
    rw [Log.exec] at h
    split at h
    · cases h
      exact Nat.le_add_right _ _
    split at h
    · cases h
      exact Nat.le_add_right _ _
    · cases h
  | retractTo index =>
    rw [Log.exec] at h
    split at h
    · cases h
      exact Nat.le_add_right _ _
    split at h
    · cases h
      exact (List.length_take_le' _ _).trans (Nat.le_add_right _ _)
    · cases h
  | root =>
    rw [Log.exec] at h
    split at h <;> cases h
    exact Nat.le_add_right _ _
  | _ =>
    rw [Log.exec] at h
    split at h
    · cases h
    split at h <;> cases h
    exact Nat.le_add_right _ _

/-- The log after calls in turn. -/
def Log.after (op : H → H → H) (log : Log H) (ops : List (Op H)) : Log H :=
  (runOps (Log.exec op) log ops).1

/-- The tree after calls in turn. -/
def TreeT.after (op : H → H → H) (t : TreeT H) (ops : List (Op H)) : TreeT H :=
  (runOps (TreeT.exec op) t ops).1

/-- How many leaves calls insert. -/
def numInserts (ops : List (Op H)) : ℕ := (ops.map Op.numInserts).sum

/-- A tree behaves as its log as long as the leaves are not too many. -/
theorem TreeT.Models.behaves (h : t.Models op log) {ops : List (Op H)}
    (hbound : log.leaves.length + numInserts ops ≤ maxLeaves) :
    (runOps (TreeT.exec op) t ops).2 = (runOps (Log.exec op) log ops).2 ∧
      (t.after op ops).Models op (log.after op ops) ∧
      (log.after op ops).leaves.length ≤ log.leaves.length + numInserts ops := by
  induction ops generalizing t log with
  | nil => exact ⟨rfl, h, Nat.le_add_right _ _⟩
  | cons o ops ih =>
    unfold numInserts at hbound ih ⊢
    rw [List.map_cons, List.sum_cons] at hbound ⊢
    have hstep := h.exec (by omega) o
    unfold TreeT.after Log.after at ih ⊢
    unfold MerkleTree.runOps
    cases htree : t.exec op o with
    | error e =>
      cases hlog : log.exec op o with
      | error e' =>
        rw [htree, hlog] at hstep
        obtain ⟨hresults, hmodels, hlength⟩ := ih h (by omega)
        exact ⟨congrArg₂ List.cons (congrArg Except.error hstep) hresults, hmodels,
          hlength.trans (by omega)⟩
      | ok r =>
        rw [htree, hlog] at hstep
        exact hstep.elim
    | ok s =>
      cases hlog : log.exec op o with
      | error e' =>
        rw [htree, hlog] at hstep
        exact hstep.elim
      | ok s' =>
        rw [htree, hlog] at hstep
        have hlonger := Log.length_exec (r := s'.2) hlog
        obtain ⟨hresults, hmodels, hlength⟩ := ih hstep.2 (by omega)
        exact ⟨congrArg₂ List.cons (congrArg Except.ok hstep.1) hresults, hmodels,
          hlength.trans (by omega)⟩

/-- The tree after calls in turn, from the empty one. -/
theorem TreeT.models_after {ops : List (Op H)} (hbound : numInserts ops ≤ maxLeaves) :
    (TreeT.after op {} ops).Models op (Log.after op {} ops) ∧
      (Log.after op {} ops).leaves.length ≤ maxLeaves := by
  have hzero : 0 + numInserts ops ≤ maxLeaves := by rwa [Nat.zero_add]
  obtain ⟨-, hmodels, hlength⟩ := (Models.empty).behaves hzero
  exact ⟨hmodels, hlength.trans hzero⟩

end

/-! ## Calls of one kind -/

section

/-- A call that changes no leaf. -/
def Op.reads : Op H → Bool
  | .root | .leaf _ | .path _ | .pastRoot _ | .pastPath _ _ => true
  | .insert _ | .flushTo _ | .retractTo _ => false

theorem numInserts_inserts (hashes : List H) :
    numInserts (hashes.map .insert) = hashes.length := by
  unfold numInserts
  induction hashes with
  | nil => rfl
  | cons hash hashes ih =>
    rw [List.map_cons, List.map_cons, List.sum_cons, ih, List.length_cons, Nat.add_comm]
    rfl

theorem numInserts_reads {ops : List (Op H)} (hreads : ∀ o ∈ ops, o.reads = true) :
    numInserts ops = 0 := by
  unfold numInserts
  induction ops with
  | nil => rfl
  | cons o ops ih =>
    obtain ⟨hread, hreads⟩ := List.forall_mem_cons.mp hreads
    rw [List.map_cons, List.sum_cons, ih hreads]
    cases o with
    | insert => cases hread
    | _ => rfl

variable [Inhabited H] {op : H → H → H} {log log' : Log H}

theorem Log.after_cons {o : Op H} {r : Result H} (h : log.exec op o = .ok (log', r))
    (ops : List (Op H)) : log.after op (o :: ops) = log'.after op ops := by
  unfold Log.after
  rw [runOps, h]

theorem Log.after_cons_error {o : Op H} {e : Error} (h : log.exec op o = .error e)
    (ops : List (Op H)) : log.after op (o :: ops) = log.after op ops := by
  unfold Log.after
  rw [runOps, h]

/-- What is inserted comes last. -/
theorem Log.after_inserts (log : Log H) (hashes : List H) :
    (log.after op (hashes.map .insert)).leaves = log.leaves ++ hashes ∧
      (log.after op (hashes.map .insert)).flushed = log.flushed := by
  induction hashes generalizing log with
  | nil => exact ⟨(List.append_nil _).symm, rfl⟩
  | cons hash hashes ih =>
    obtain ⟨hleaves, hflushed⟩ := ih (log.insert hash)
    have hexec : log.exec op (.insert hash) = .ok (log.insert hash, .unit) := rfl
    rw [List.map_cons, Log.after_cons hexec, hleaves, hflushed]
    exact ⟨List.append_assoc _ _ _, rfl⟩

theorem Log.eq_of_reads {o : Op H} {r : Result H} (hread : o.reads = true)
    (h : log.exec op o = .ok (log', r)) : log' = log := by
  cases o with
  | insert | flushTo | retractTo => cases hread
  | root =>
    rw [Log.exec] at h
    split at h <;> cases h
    rfl
  | _ =>
    rw [Log.exec] at h
    split at h
    · cases h
    split at h <;> cases h
    rfl

/-- Nothing is left of calls that only read. -/
theorem Log.after_reads {ops : List (Op H)} (hreads : ∀ o ∈ ops, o.reads = true) :
    log.after op ops = log := by
  induction ops with
  | nil => rfl
  | cons o ops ih =>
    obtain ⟨hread, hreads⟩ := List.forall_mem_cons.mp hreads
    cases hexec : log.exec op o with
    | error e => rw [Log.after_cons_error hexec, ih hreads]
    | ok s =>
      obtain ⟨log', r⟩ := s
      rw [Log.after_cons hexec, Log.eq_of_reads hread hexec, ih hreads]

end

/-! ## Every run -/

section

variable [Inhabited H] {op : H → H → H} {t : TreeT H} {log : Log H} {index : ℕ}

/-- `root` gives the root of the log. -/
theorem TreeT.Models.root (h : t.Models op log) (hne : log.leaves ≠ []) :
    ∃ t', t.root op = .ok (t', rootHash op log.leaf log.leaves.length) ∧ t'.Models op log := by
  obtain ⟨t', root, hroot, hcomputed⟩ := h.computeRoot hne
  refine ⟨t', ?_, hcomputed.models⟩
  unfold TreeT.root
  rw [hroot, ← hcomputed.hash_eq]
  rfl

/-- A path of a log leads to its root. -/
theorem Log.root_path (hmax : index < log.leaves.length) :
    (log.path op index).root op = rootHash op log.leaf log.leaves.length := by
  show climb op (log.leaf index) (Lib.MerkleLog.path op log.leaf _ index _) = _
  exact climb_path_root hmax Nat.lt_two_pow_self.le

/-- Every run of a tree returns and throws what it means for the log of the leaves. -/
theorem run_tree (op : H → H → H) (ops : List (Op H)) (hbound : numInserts ops ≤ maxLeaves) :
    (runOps (TreeT.exec op) {} ops).2 = (runOps (Log.exec op) {} ops).2 := by
  have hzero : 0 + numInserts ops ≤ maxLeaves := by rwa [Nat.zero_add]
  exact ((TreeT.Models.empty).behaves hzero).1

/-- Three leaves, the root in between, and the first leaf flushed. -/
def threeLeaves : List (Op ℕ) := [.insert 4, .insert 5, .root, .insert 6, .flushTo 1]

theorem run_tree_three : numInserts threeLeaves ≤ maxLeaves ∧
    (runOps (TreeT.exec Nat.pair) {} threeLeaves).2 =
      (runOps (Log.exec Nat.pair) {} threeLeaves).2 :=
  ⟨by decide, run_tree Nat.pair threeLeaves (by decide)⟩

/-- In every run the path of a leaf that is not flushed leads to the root, and a path with the same
directions that leads to the root as well is the same, or the two meet in a collision. -/
theorem path_binds [DecidableEq H] (op : H → H → H) (ops : List (Op H))
    (hbound : numInserts ops ≤ maxLeaves) (index : ℕ)
    (hmin : (TreeT.after op {} ops).minIndex ≤ index)
    (hmax : index < (TreeT.after op {} ops).numLeaves) :
    ∃ t p t' root, (TreeT.after op {} ops).path op index = .ok (t, p) ∧
      t.root op = .ok (t', root) ∧ p.verify op root = true ∧
      ∀ q : PathT H, q.elements.map Element.direction = p.elements.map Element.direction →
        q.verify op root = true → (q.leaf = p.leaf ∧ q.elements = p.elements) ∨
          ∃ a b, collision op q.leaf p.leaf q.elements p.elements = some (a, b) ∧ a ≠ b ∧
            op a.1 a.2 = op b.1 b.2 := by
  obtain ⟨hmodels, hlength⟩ := TreeT.models_after hbound
  rw [hmodels.numLeaves] at hmax
  rw [show TreeT.minIndex _ = _ from hmodels.flushed] at hmin
  have hne : (Log.after op {} ops).leaves ≠ [] := by
    rw [← List.length_pos_iff]
    omega
  obtain ⟨t, hpath, hpathModels⟩ := hmodels.path hmin hmax hlength
  obtain ⟨t', hroot, -⟩ := hpathModels.root hne
  refine ⟨t, _, t', _, hpath, hroot, ?_, fun q hdir hq => ?_⟩
  · exact decide_eq_true (Log.root_path hmax)
  · refine climb_collision hdir ?_
    rw [show climb op q.leaf q.elements = _ from of_decide_eq_true hq]
    exact (Log.root_path hmax).symm

theorem path_binds_three : (TreeT.after Nat.pair {} threeLeaves).minIndex ≤ 2 ∧
    2 < (TreeT.after Nat.pair {} threeLeaves).numLeaves ∧
    ∃ t p t' root, (TreeT.after Nat.pair {} threeLeaves).path Nat.pair 2 = .ok (t, p) ∧
      t.root Nat.pair = .ok (t', root) ∧ p.verify Nat.pair root = true ∧
      ∀ q : PathT ℕ, q.elements.map Element.direction = p.elements.map Element.direction →
        q.verify Nat.pair root = true → (q.leaf = p.leaf ∧ q.elements = p.elements) ∨
          ∃ a b, collision Nat.pair q.leaf p.leaf q.elements p.elements = some (a, b) ∧ a ≠ b ∧
            Nat.pair a.1 a.2 = Nat.pair b.1 b.2 :=
  ⟨by decide, by decide,
    path_binds Nat.pair threeLeaves (by decide) 2 (by decide) (by decide)⟩

/-- In every run `past_root` and `past_path` give the root and the path of the tree that is
retracted to that leaf. -/
theorem past_eq_retracted (op : H → H → H) (ops : List (Op H)) (hbound : numInserts ops ≤ maxLeaves)
    (index asOf : ℕ) (hmin : (TreeT.after op {} ops).minIndex ≤ index) (hle : index ≤ asOf)
    (hmax : asOf < (TreeT.after op {} ops).numLeaves) :
    ∃ t, (TreeT.after op {} ops).retractTo op asOf = .ok t ∧
      ((TreeT.after op {} ops).pastRoot op asOf).map Prod.snd = (t.root op).map Prod.snd ∧
      ((TreeT.after op {} ops).pastPath op index asOf).map Prod.snd =
        (t.path op index).map Prod.snd := by
  obtain ⟨hmodels, hlength⟩ := TreeT.models_after hbound
  rw [hmodels.numLeaves] at hmax
  rw [show TreeT.minIndex _ = _ from hmodels.flushed] at hmin
  generalize Log.after op {} ops = log at hmodels hlength hmax hmin
  obtain ⟨t, hretract, hretracted⟩ := hmodels.retractTo (hmin.trans hle) hmax hlength
  obtain ⟨t₁, hpastRoot, -⟩ := hmodels.pastRoot (hmin.trans hle) hmax hlength
  obtain ⟨t₂, hpastPath, -⟩ := hmodels.pastPath hmin hle hmax hlength
  have hcount : (log.retractTo asOf (hmin.trans hle)).leaves.length = asOf + 1 := by
    show (log.leaves.take (asOf + 1)).length = asOf + 1
    rw [List.length_take]
    omega
  have hleaf : ∀ i < asOf + 1, (log.retractTo asOf (hmin.trans hle)).leaf i = log.leaf i :=
    fun i hi => log.leaf_take hi
  have hne : (log.retractTo asOf (hmin.trans hle)).leaves ≠ [] := by
    rw [← List.length_pos_iff]
    omega
  obtain ⟨t₃, hroot, -⟩ := hretracted.root hne
  obtain ⟨t₄, hpath, -⟩ := hretracted.path hmin (by omega) (by omega)
  refine ⟨t, hretract, ?_, ?_⟩
  · rw [hpastRoot, hroot, hcount]
    exact congrArg Except.ok (rootHash_congr (Nat.succ_pos asOf) fun i hi => (hleaf i hi).symm)
  · rw [hpastPath, hpath]
    refine congrArg Except.ok ?_
    unfold Log.pastPath Log.path
    rw [hcount, hleaf index (by omega),
      path_eq (l := asOf + 1) (by omega) (hmax.trans_le Nat.lt_two_pow_self.le)
        Nat.lt_two_pow_self.le,
      path_congr (by omega) fun i hi => (hleaf i hi).symm]
    rfl

theorem past_eq_retracted_three : (TreeT.after Nat.pair {} threeLeaves).minIndex ≤ 1 ∧
    1 < (TreeT.after Nat.pair {} threeLeaves).numLeaves ∧
    ∃ t, (TreeT.after Nat.pair {} threeLeaves).retractTo Nat.pair 1 = .ok t ∧
      ((TreeT.after Nat.pair {} threeLeaves).pastRoot Nat.pair 1).map Prod.snd =
        (t.root Nat.pair).map Prod.snd ∧
      ((TreeT.after Nat.pair {} threeLeaves).pastPath Nat.pair 1 1).map Prod.snd =
        (t.path Nat.pair 1).map Prod.snd :=
  ⟨by decide, by decide,
    past_eq_retracted Nat.pair threeLeaves (by decide) 1 1 (by decide) le_rfl (by decide)⟩

end

end OptRand.Wire.MerkleTree
