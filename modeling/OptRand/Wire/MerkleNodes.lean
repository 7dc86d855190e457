import OptRand.Wire.Merkle
import OptRand.Wire.MerkleTree

/-!
# The tree with and without its hashes

`Merkle.TreeT` says where insertion puts the leaves and hashes the whole tree at the end.
`MerkleTree.TreeT` carries the hashes, sizes and dirty marks of the nodes and hashes the dirty ones.
The one is drawn by the other as long as nothing is flushed, so both have the same root
(`root_insert_eq`).
-/

namespace OptRand.Wire.MerkleTree

variable {H : Type} {op : H → H → H}

/-- The tree without hashes that a node draws. What is clean has its hash and nothing dirty below
it. -/
inductive Node.Draws (op : H → H → H) : Node H → Merkle.Tree H → Prop
  | leaf (hash : H) : Draws op (.make hash) (.leaf hash)
  | above {hash : H} {left right : Node H} {dirty : Bool} {treeLeft treeRight : Merkle.Tree H}
    (hleft : Draws op left treeLeft) (hright : Draws op right treeRight)
    (clean : dirty = false → hash = (Merkle.Tree.node treeLeft treeRight).hash id op) :
    Draws op (.above hash left right dirty) (.node treeLeft treeRight)

namespace Node.Draws

variable {n : Node H} {tree : Merkle.Tree H}

theorem size_eq (h : Draws op n tree) : n.size = tree.size := by
  induction h with
  | leaf => rfl
  | above _ _ _ ihl ihr => rw [size_above, ihl, ihr, Merkle.Tree.size]

theorem height_eq (h : Draws op n tree) : n.height = tree.height := by
  induction h with
  | leaf => rfl
  | above _ _ _ ihl ihr => rw [height_above, ihl, ihr, Merkle.Tree.height]

theorem isFull_eq (h : Draws op n tree) : n.isFull = tree.isFull := by
  rw [Node.isFull, Merkle.Tree.isFull, h.size_eq, h.height_eq]

/-- Hashing what is dirty gives the hash of the whole tree. -/
theorem hash_rehash (h : Draws op n tree) :
    (if n.dirty then n.rehash op else n).hash = tree.hash id op := by
  induction h with
  | leaf => rfl
  | @above hash left right dirty _ _ _ _ clean ihl ihr =>
    cases dirty with
    | false => exact clean rfl
    | true =>
      show op (if left.dirty then left.rehash op else left).hash
        (if right.dirty then right.rehash op else right).hash = _
      rw [ihl, ihr]
      rfl

end Node.Draws

/-! ## Insertion -/

/-- Elements of the two insertion stacks that correspond. -/
def InsertionStackElement.Draws (op : H → H → H) (e : InsertionStackElement H)
    (e' : Merkle.InsertionStackElement H) : Prop :=
  e.left = e'.left ∧ e.other.Draws op e'.other

/-- Positions that correspond. -/
def Position.Draws (op : H → H → H) (p : Position H) (p' : Merkle.Position H) : Prop :=
  p.root.Draws op p'.root ∧
    List.Forall₂ (InsertionStackElement.Draws op) p.insertionStack p'.insertionStack

variable {n : Node H} {tree : Merkle.Tree H} {stack : List (InsertionStackElement H)}
  {stack' : List (Merkle.InsertionStackElement H)}

/-- A node above others is dirty on its way back to the stack. -/
theorem Node.Draws.over {left right : Node H} {treeLeft treeRight : Merkle.Tree H} (hash : H)
    (hleft : left.Draws op treeLeft) (hright : right.Draws op treeRight) :
    (Node.above hash left right true).Draws op (.node treeLeft treeRight) :=
  .above hleft hright nofun

theorem InsertionStackElement.Draws.plug {e : InsertionStackElement H}
    {e' : Merkle.InsertionStackElement H} (he : e.Draws op e') (hn : n.Draws op tree) :
    (e.plug n).Draws op (e'.plug tree) := by
  obtain ⟨hleft, hother⟩ := he
  unfold InsertionStackElement.plug Merkle.InsertionStackElement.plug
  rw [hleft]
  split
  · exact hn.over e.hash hother
  · exact hother.over e.hash hn

theorem draws_continueInsertionStack [Inhabited H] (leaf : H) (hn : n.Draws op tree)
    (hstack : List.Forall₂ (InsertionStackElement.Draws op) stack stack') :
    (continueInsertionStack (.make leaf) n stack).Draws op
      (Merkle.continueInsertionStack (.leaf leaf) tree stack') := by
  induction hn generalizing stack stack' with
  | leaf hash => exact ⟨.over default (.leaf hash) (.leaf leaf), hstack⟩
  | @above hash left right dirty treeLeft treeRight hleft hright clean ihl ihr =>
    have hfull : (Node.above hash left right dirty).isFull =
        (Merkle.Tree.node treeLeft treeRight).isFull :=
      (Node.Draws.above hleft hright clean).isFull_eq
    unfold Node.above at hfull ⊢
    unfold continueInsertionStack Merkle.continueInsertionStack
    rw [hfull, hleft.isFull_eq]
    split
    · exact ⟨.over default (.above hleft hright clean) (.leaf leaf), hstack⟩
    split
    · exact ihl (.cons ⟨rfl, hright⟩ hstack)
    · exact ihr (.cons ⟨rfl, hleft⟩ hstack)

theorem draws_processInsertionStack (complete : Bool) (hn : n.Draws op tree)
    (hstack : List.Forall₂ (InsertionStackElement.Draws op) stack stack') :
    (processInsertionStack complete n stack).Draws op
      (Merkle.processInsertionStack complete tree stack') := by
  induction hstack generalizing n tree with
  | nil => exact ⟨hn, .nil⟩
  | @cons top top' stack stack' htop hstack ih =>
    have hplug := htop.plug hn
    unfold processInsertionStack Merkle.processInsertionStack
    rw [hplug.isFull_eq]
    split
    · exact ⟨hplug, hstack⟩
    · exact ih hplug

/-- What has been inserted one after the other corresponds. -/
theorem draws_foldl_insertLeaf [Inhabited H] (l : List H) {p : Option (Position H)}
    {p' : Option (Merkle.Position H)} (hp : Option.Rel (Position.Draws op) p p') :
    Option.Rel (Position.Draws op) (l.foldl insertLeaf p) (l.foldl Merkle.insertLeaf p') := by
  induction l generalizing p p' with
  | nil => exact hp
  | cons leaf l ih =>
    refine ih ?_
    cases hp with
    | none => exact .some ⟨.leaf leaf, .nil⟩
    | some hp =>
      have hcontinue := draws_continueInsertionStack leaf hp.1 hp.2
      exact .some (draws_processInsertionStack false hcontinue.1 hcontinue.2)

theorem exists_foldl_insertLeaf [Inhabited H] (l : List H) (p : Position H) :
    ∃ p', l.foldl insertLeaf (some p) = some p' := by
  induction l generalizing p with
  | nil => exact ⟨p, rfl⟩
  | cons leaf l ih => exact ih _

/-- The two models give the same root for the same leaves, and the same exception without any. -/
theorem root_insert_eq [Inhabited H] (op : H → H → H) (l : List H) :
    (TreeT.root op { uninsertedLeafNodes := l }).map Prod.snd =
      ((Merkle.TreeT.rootNode ⟨none, l⟩).map (Merkle.Tree.hash id op)).mapError
        fun e => Error.runtimeError e.what := by
  cases l with
  | nil => rfl
  | cons first rest =>
    have hfold : Option.Rel (Position.Draws op) ((first :: rest).foldl insertLeaf none)
        ((first :: rest).foldl Merkle.insertLeaf none) := draws_foldl_insertLeaf _ .none
    obtain ⟨p, hp⟩ := exists_foldl_insertLeaf rest ⟨.make first, []⟩
    have hp : (first :: rest).foldl insertLeaf none = some p := hp
    rw [hp] at hfold
    cases hp' : (first :: rest).foldl Merkle.insertLeaf none with
    | none =>
      rw [hp'] at hfold
      cases hfold
    | some p' =>
      rw [hp'] at hfold
      obtain ⟨hroot, hstack⟩ : p.Draws op p' := by
        cases hfold with
        | some hdraws => exact hdraws
      have hhash := (draws_processInsertionStack true hroot hstack).1.hash_rehash
      have hrootNode : Merkle.TreeT.rootNode ⟨none, first :: rest⟩ =
          .ok (Merkle.processInsertionStack true p'.root p'.insertionStack).root := by
        unfold Merkle.TreeT.rootNode Merkle.TreeT.insertLeaves
        simp only [hp']
        rfl
      have hnum : (TreeT.insertLeaves { uninsertedLeafNodes := first :: rest }).numLeaves ≠ 0 := by
        simp [TreeT.insertLeaves, TreeT.numLeaves]
      have hposition : (TreeT.insertLeaves { uninsertedLeafNodes := first :: rest }).position =
          some (processInsertionStack true p.root p.insertionStack) := by
        unfold TreeT.insertLeaves
        rw [hp]
        rfl
      rw [hrootNode]
      unfold TreeT.root TreeT.computeRoot
      simp only [hposition, if_neg hnum]
      exact congrArg Except.ok hhash

end OptRand.Wire.MerkleTree
