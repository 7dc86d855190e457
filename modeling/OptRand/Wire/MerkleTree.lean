import OptRand.Lib.MerkleLog

/-!
# Growing a Merkle tree (`merklecpp.h`)

The tree that the dispersal puts its chunks into, with its hashes. A `TreeT` is lazy: `insert` only
keeps the leaf, `insert_leaves` puts the kept leaves into the tree, and `compute_root` hashes the
nodes that are marked dirty. An insertion may leave part of its path on `insertion_stack`; `_root`
is then a node below the root.

`Node.Represents` says that a tree is the one of a log, up to the hashes of dirty nodes. Inserting a
leaf extends the log (`Represents.insert`), whatever is left on the stack (`whole_insertLeaf`), and
hashing makes the root clean (`Represents.hash`).
-/

namespace OptRand.Wire.MerkleTree

open Lib.MerkleLog

/-- An exception with its text, or what the source leaves undefined. -/
inductive Error where
  | runtimeError (what : String)
  | undefined
  deriving DecidableEq

/-- A `Node`. A node has both children or none; one without children is a leaf of the tree, or a
conflated subtree. -/
inductive Node (H : Type) where
  | leaf (hash : H) (size height : ℕ) (dirty : Bool)
  | node (hash : H) (left right : Node H) (size height : ℕ) (dirty : Bool)
  deriving DecidableEq

namespace Node

variable {H : Type}

def hash : Node H → H
  | leaf hash _ _ _ => hash
  | node hash _ _ _ _ _ => hash

def size : Node H → ℕ
  | leaf _ size _ _ => size
  | node _ _ _ size _ _ => size

def height : Node H → ℕ
  | leaf _ _ height _ => height
  | node _ _ _ _ height _ => height

def dirty : Node H → Bool
  | leaf _ _ _ dirty => dirty
  | node _ _ _ _ _ dirty => dirty

/-- `is_full`. -/
def isFull (n : Node H) : Bool := n.size == 2 ^ n.height - 1

/-- `make(hash)`. -/
def make (hash : H) : Node H := leaf hash 1 1 false

/-- A node with `hash` over `left` and `right`, after `update_sizes`. -/
def above (hash : H) (left right : Node H) (dirty : Bool) : Node H :=
  node hash left right (left.size + right.size + 1) (max left.height right.height + 1) dirty

/-- `make(left, right)`. The hash is that of the default constructor. -/
def makeAbove [Inhabited H] (left right : Node H) : Node H := above default left right true

/-- `hash(n)`: the hashes of the dirty nodes, from the leaves up. -/
def rehash (op : H → H → H) : Node H → Node H
  | leaf hash size height dirty => leaf hash size height dirty
  | node _ left right size height _ =>
    let left := if left.dirty then left.rehash op else left
    let right := if right.dirty then right.rehash op else right
    node (op left.hash right.hash) left right size height false

end Node

/-! ## Insertion -/

/-- An `InsertionStackElement`: its node, without the child that comes back from below. -/
structure InsertionStackElement (H : Type) where
  hash : H
  other : Node H
  left : Bool

/-- `_root` with `insertion_stack`, whose last element stands first. The stack leads from the root
of the whole tree to `_root`. -/
structure Position (H : Type) where
  root : Node H
  insertionStack : List (InsertionStackElement H) := []

section

variable {H : Type}

/-- The node of a stack element, with its child. -/
def InsertionStackElement.plug (e : InsertionStackElement H) (n : Node H) : Node H :=
  if e.left then .above e.hash n e.other true else .above e.hash e.other n true

/-- `continue_insertion_stack(n, new_leaf)`. A node without children is full. -/
def continueInsertionStack [Inhabited H] (newLeaf : Node H) :
    Node H → List (InsertionStackElement H) → Position H
  | .leaf hash size height dirty, stack =>
    ⟨.makeAbove (.leaf hash size height dirty) newLeaf, stack⟩
  | .node hash left right size height dirty, stack =>
    if (Node.node hash left right size height dirty).isFull then
      ⟨.makeAbove (.node hash left right size height dirty) newLeaf, stack⟩
    else if !left.isFull then continueInsertionStack newLeaf left (⟨hash, right, true⟩ :: stack)
    else continueInsertionStack newLeaf right (⟨hash, left, false⟩ :: stack)

/-- `process_insertion_stack(complete)`, from the node at the end of the stack. -/
def processInsertionStack (complete : Bool) (result : Node H) :
    List (InsertionStackElement H) → Position H
  | [] => ⟨result, []⟩
  | top :: stack =>
    if !complete && !(top.plug result).isFull then ⟨top.plug result, stack⟩
    else processInsertionStack complete (top.plug result) stack

/-- `insert_leaf`, without the entry in `leaf_nodes`. -/
def insertLeaf [Inhabited H] (position : Option (Position H)) (hash : H) : Option (Position H) :=
  match position with
  | none => some ⟨.make hash, []⟩
  | some p =>
    let q := continueInsertionStack (.make hash) p.root p.insertionStack
    some (processInsertionStack false q.root q.insertionStack)

end

/-- A `TreeT`. The leaves are given by their hashes; there is no root until a leaf is inserted. -/
structure TreeT (H : Type) where
  leafNodes : List H := []
  uninsertedLeafNodes : List H := []
  position : Option (Position H) := none
  numFlushed : ℕ := 0

namespace TreeT

variable {H : Type}

/-- `insert`. -/
def insert (t : TreeT H) (hash : H) : TreeT H :=
  { t with uninsertedLeafNodes := t.uninsertedLeafNodes ++ [hash] }

def numLeaves (t : TreeT H) : ℕ :=
  t.numFlushed + t.leafNodes.length + t.uninsertedLeafNodes.length

def minIndex (t : TreeT H) : ℕ := t.numFlushed

def maxIndex (t : TreeT H) : ℕ := if t.numLeaves = 0 then 0 else t.numLeaves - 1

/-- `insert_leaves(true)`. -/
def insertLeaves [Inhabited H] (t : TreeT H) : TreeT H :=
  { t with
    leafNodes := t.leafNodes ++ t.uninsertedLeafNodes
    uninsertedLeafNodes := []
    position := (t.uninsertedLeafNodes.foldl insertLeaf t.position).map fun p =>
      processInsertionStack true p.root p.insertionStack }

/-- `compute_root`: the tree, and the node at its root. -/
def computeRoot [Inhabited H] (op : H → H → H) (t : TreeT H) :
    Except Error (TreeT H × Node H) :=
  let t := t.insertLeaves
  if t.numLeaves = 0 then throw (.runtimeError "empty tree does not have a root")
  else
    match t.position with
    | none => throw .undefined
    | some p =>
      let root := if p.root.dirty then p.root.rehash op else p.root
      return ({ t with position := some { p with root := root } }, root)

/-- `root`. -/
def root [Inhabited H] (op : H → H → H) (t : TreeT H) : Except Error (TreeT H × H) := do
  let (t, root) ← t.computeRoot op
  return (t, root.hash)

end TreeT

/-! ## Shape -/

namespace Node

variable {H : Type} {n left right : Node H} {hash : H} {b : Bool}

@[simp] theorem hash_above : (above hash left right b).hash = hash := rfl

@[simp] theorem size_above : (above hash left right b).size = left.size + right.size + 1 := rfl

@[simp] theorem height_above :
    (above hash left right b).height = max left.height right.height + 1 := rfl

@[simp] theorem dirty_above : (above hash left right b).dirty = b := rfl

/-- The sizes are right, and left subtrees are full. -/
inductive Shaped : Node H → Prop
  | leaf {hash : H} {size height : ℕ} {b : Bool} (pos : 0 < height)
    (full : size + 1 = 2 ^ height) : Shaped (.leaf hash size height b)
  | above {hash : H} {left right : Node H} {b : Bool} (hleft : Shaped left) (hright : Shaped right)
    (full : left.isFull = true) : Shaped (.above hash left right b)

theorem isFull_iff : n.isFull = true ↔ n.size = 2 ^ n.height - 1 := by
  unfold isFull
  exact beq_iff_eq

theorem Shaped.size_lt (h : Shaped n) : 0 < n.height ∧ n.size + 1 ≤ 2 ^ n.height := by
  induction h with
  | leaf pos full => exact ⟨pos, full.le⟩
  | @above hash left right b _ _ _ ihl ihr =>
    have hleft : 2 ^ left.height ≤ 2 ^ max left.height right.height :=
      Nat.pow_le_pow_right (by omega) (le_max_left _ _)
    have hright : 2 ^ right.height ≤ 2 ^ max left.height right.height :=
      Nat.pow_le_pow_right (by omega) (le_max_right _ _)
    rw [size_above, height_above, pow_succ]
    omega

/-- A node is only full if its right subtree is. -/
theorem Shaped.isFull_right (hleft : Shaped left) (hright : Shaped right)
    (hfull : (Node.above hash left right b).isFull = true) : right.isFull = true := by
  rw [isFull_iff, size_above, height_above, pow_succ] at hfull
  obtain ⟨hposl, hsizel⟩ := hleft.size_lt
  obtain ⟨hposr, hsizer⟩ := hright.size_lt
  rw [isFull_iff]
  rcases Nat.lt_or_ge left.height right.height with hlt | hge
  · rw [max_eq_right hlt.le] at hfull
    have hpow : 2 ^ left.height < 2 ^ right.height := Nat.pow_lt_pow_right (by omega) hlt
    omega
  · rw [max_eq_left hge] at hfull
    have hpow : 2 ^ right.height ≤ 2 ^ left.height := Nat.pow_le_pow_right (by omega) hge
    omega

end Node

/-! ## The whole tree -/

section

variable {H : Type} [Inhabited H]

/-- The tree with a new leaf. -/
def Node.insert : Node H → Node H → Node H
  | .leaf hash size height dirty, newLeaf => .makeAbove (.leaf hash size height dirty) newLeaf
  | .node hash left right size height dirty, newLeaf =>
    if (Node.node hash left right size height dirty).isFull then
      .makeAbove (.node hash left right size height dirty) newLeaf
    else if !left.isFull then .above hash (left.insert newLeaf) right true
    else .above hash left (right.insert newLeaf) true

theorem Node.insert_of_full {n newLeaf : Node H} (hfull : n.isFull = true) :
    n.insert newLeaf = .makeAbove n newLeaf := by
  cases n with
  | leaf => rfl
  | node =>
    unfold Node.insert
    rw [if_pos hfull]

theorem Node.insert_above {hash : H} {left right newLeaf : Node H} {b : Bool}
    (hopen : (Node.above hash left right b).isFull = false) (hfull : left.isFull = true) :
    (Node.above hash left right b).insert newLeaf = .above hash left (right.insert newLeaf) true := by
  show (if (Node.above hash left right b).isFull = true then _ else _) = _
  rw [if_neg (by rw [hopen]; decide), if_neg (by rw [hfull]; decide)]

omit [Inhabited H] in
/-- The tree above a node. -/
def whole (n : Node H) : List (InsertionStackElement H) → Node H
  | [] => n
  | e :: stack => whole (e.plug n) stack

/-- What waits on the stack is to the left, and full. -/
def Waiting (stack : List (InsertionStackElement H)) : Prop :=
  ∀ e ∈ stack, e.left = false ∧ e.other.isFull = true

variable {newLeaf n : Node H} {stack : List (InsertionStackElement H)}

theorem whole_continueInsertionStack :
    whole (continueInsertionStack newLeaf n stack).root
        (continueInsertionStack newLeaf n stack).insertionStack =
      whole (n.insert newLeaf) stack := by
  induction n generalizing stack with
  | leaf hash size height dirty => rfl
  | node hash left right size height dirty ihl ihr =>
    unfold continueInsertionStack Node.insert
    split
    · rfl
    split
    · rw [ihl]
      rfl
    · rw [ihr]
      rfl

omit [Inhabited H] in
theorem whole_processInsertionStack {complete : Bool} :
    whole (processInsertionStack complete n stack).root
        (processInsertionStack complete n stack).insertionStack = whole n stack := by
  induction stack generalizing n with
  | nil => rfl
  | cons top stack ih =>
    unfold processInsertionStack
    split
    · rfl
    · exact ih

omit [Inhabited H] in
theorem insertionStack_processInsertionStack :
    (processInsertionStack true n stack).insertionStack = [] := by
  induction stack generalizing n with
  | nil => rfl
  | cons top stack ih => exact ih

omit [Inhabited H] in
theorem waiting_processInsertionStack {complete : Bool} (h : Waiting stack) :
    Waiting (processInsertionStack complete n stack).insertionStack := by
  induction stack generalizing n with
  | nil => exact h
  | cons top stack ih =>
    have htail : Waiting stack := fun e he => h e (List.mem_cons_of_mem _ he)
    unfold processInsertionStack
    split
    · exact htail
    · exact ih htail

omit [Inhabited H] in
/-- Processing stops at a node that is not full, or at the root. -/
theorem open_processInsertionStack :
    (processInsertionStack false n stack).insertionStack = [] ∨
      (processInsertionStack false n stack).root.isFull = false := by
  induction stack generalizing n with
  | nil => exact Or.inl rfl
  | cons top stack ih =>
    unfold processInsertionStack
    split
    · rename_i hstop
      right
      simpa using hstop
    · exact ih

omit [Inhabited H] in
theorem plug_of_waiting {e : InsertionStackElement H} (hleft : e.left = false) :
    e.plug n = .above e.hash e.other n true := by
  unfold InsertionStackElement.plug
  rw [hleft]
  rfl

omit [Inhabited H] in
theorem shaped_of_whole (hwait : Waiting stack) (h : (whole n stack).Shaped) : n.Shaped := by
  induction stack generalizing n with
  | nil => exact h
  | cons e stack ih =>
    have hplug := ih (fun e he => hwait e (List.mem_cons_of_mem _ he)) h
    rw [plug_of_waiting (hwait e List.mem_cons_self).1] at hplug
    cases hplug with
    | above _ hright _ => exact hright

theorem waiting_continueInsertionStack (hn : n.Shaped) (hwait : Waiting stack) :
    Waiting (continueInsertionStack newLeaf n stack).insertionStack := by
  induction hn generalizing stack with
  | leaf => exact hwait
  | @above hash left right b _ _ hfull _ ihr =>
    unfold Node.above continueInsertionStack
    split
    · exact hwait
    · rw [if_neg (by rw [hfull]; decide)]
      apply ihr
      intro e he
      rcases List.mem_cons.mp he with rfl | he
      · exact ⟨rfl, hfull⟩
      · exact hwait e he

/-- Inserting into a node that waits is inserting into the whole tree. -/
theorem whole_insert (hwait : Waiting stack) (hopen : stack = [] ∨ n.isFull = false)
    (hshape : (whole n stack).Shaped) :
    whole (n.insert newLeaf) stack = (whole n stack).insert newLeaf := by
  induction stack generalizing n with
  | nil => rfl
  | cons e stack ih =>
    have hn : n.isFull = false := hopen.resolve_left (List.cons_ne_nil _ _)
    obtain ⟨hleft, hother⟩ := hwait e List.mem_cons_self
    have htail : Waiting stack := fun e he => hwait e (List.mem_cons_of_mem _ he)
    have hplug : (e.plug n).isFull = false := by
      have hshaped := shaped_of_whole (n := e.plug n) htail hshape
      rw [plug_of_waiting hleft] at hshaped ⊢
      cases hshaped with
      | above hl hr _ =>
        apply Bool.eq_false_iff.mpr
        intro hfull
        rw [Node.Shaped.isFull_right hl hr hfull] at hn
        cases hn
    have hinsert : e.plug (n.insert newLeaf) = (e.plug n).insert newLeaf := by
      rw [plug_of_waiting hleft, plug_of_waiting hleft]
      rw [plug_of_waiting hleft] at hplug
      exact (Node.insert_above hplug hother).symm
    show whole (e.plug (n.insert newLeaf)) stack = _
    rw [hinsert]
    exact ih htail (Or.inr hplug) hshape

end

/-! ## The tree of a log -/

section

variable {H : Type} (op : H → H → H)

/-- The tree of the node `j` on level `h` of a log of `n` leaves, `k` of them flushed. What is
flushed has no children; what is dirty may have any hash. -/
inductive Node.Represents (leaf : ℕ → H) (n k : ℕ) : ℕ → ℕ → Node H → Prop
  | leaf (j : ℕ) : Represents leaf n k 0 j (.make (leaf j))
  | flushed (h j : ℕ) (hk : (j + 1) * 2 ^ (h + 1) ≤ k) : Represents leaf n k (h + 1) j
    (.leaf (nodeHash op leaf n (h + 1) j) (2 ^ (h + 2) - 1) (h + 2) false)
  | above {h j : ℕ} {hash : H} {left right : Node H} {dirty : Bool}
    (hk : k < (j + 1) * 2 ^ (h + 1)) (hn : (2 * j + 1) * 2 ^ h < n)
    (hleft : Represents leaf n k h (2 * j) left)
    (hright : Represents leaf n k h (2 * j + 1) right)
    (clean : dirty = false →
      hash = nodeHash op leaf n (h + 1) j ∧ left.dirty = false ∧ right.dirty = false) :
    Represents leaf n k (h + 1) j (.above hash left right dirty)
  | short {h j : ℕ} {t : Node H} (hk : k < (j + 1) * 2 ^ (h + 1)) (hn : n ≤ (2 * j + 1) * 2 ^ h)
    (hleft : Represents leaf n k h (2 * j) t) : Represents leaf n k (h + 1) j t

namespace Node.Represents

variable {op} {leaf leaf' : ℕ → H} {n n' k k' h j : ℕ} {t : Node H}

/-- The size of a tree by the number of leaves below it. -/
theorem size_eq (hk : k ≤ n) (hj : j * 2 ^ h < n) (ht : Represents op leaf n k h j t) :
    t.size + 1 = 2 * (min n ((j + 1) * 2 ^ h) - j * 2 ^ h) := by
  induction ht with
  | leaf j =>
    rw [pow_zero, mul_one] at hj
    rw [pow_zero, mul_one, mul_one, min_eq_right hj]
    show 1 + 1 = _
    omega
  | flushed h j hkj =>
    have hsplit := add_one_mul j (2 ^ (h + 1))
    have hpow := pow_succ 2 (h + 1)
    have hpos := Nat.two_pow_pos (h + 1)
    rw [min_eq_right (hkj.trans hk)]
    show 2 ^ (h + 1 + 1) - 1 + 1 = _
    omega
  | @above h j hash left right dirty _ hn _ _ _ ihl ihr =>
    have hstart := two_mul_pow h j
    have hend := two_mul_add_two_pow h j
    have hafter := half_lt_end h j
    have hbefore := half_lt h j
    have hsizel := ihl (by omega)
    have hsizer := ihr hn
    rw [min_eq_right hn.le] at hsizel
    rw [hend] at hsizer
    show left.size + right.size + 1 + 1 = _
    omega
  | @short h j t _ hn _ ih =>
    have hstart := two_mul_pow h j
    have hafter := half_lt_end h j
    have hsize := ih (by omega)
    rw [min_eq_left hn] at hsize
    rw [min_eq_left (by omega)]
    omega

/-- A tree is not higher than its level; it is as high if the log reaches into its right half. -/
theorem height_le (ht : Represents op leaf n k h j t) : 0 < t.height ∧ t.height ≤ h + 1 := by
  induction ht with
  | leaf j => exact ⟨Nat.one_pos, le_rfl⟩
  | flushed h j hk => exact ⟨by show 0 < h + 2; omega, le_rfl⟩
  | above _ _ _ _ _ ihl ihr =>
    rw [height_above]
    omega
  | short _ _ _ ih => omega

theorem height_of_full (ht : Represents op leaf n k h j t) (hfull : (j + 1) * 2 ^ h ≤ n) :
    t.height = h + 1 := by
  induction ht with
  | leaf j => rfl
  | flushed h j _ => rfl
  | @above h j hash left right dirty _ hn _ hright _ ihl _ =>
    have hright := hright.height_le
    rw [height_above, ihl (by omega)]
    omega
  | @short h j t _ hn _ _ =>
    have hafter := half_lt_end h j
    omega

theorem height_over_eq {left right : Node H} {hash : H} {dirty : Bool}
    (hn : (2 * j + 1) * 2 ^ h < n) (hleft : Represents op leaf n k h (2 * j) left)
    (hright : Represents op leaf n k h (2 * j + 1) right) :
    (Node.above hash left right dirty).height = h + 2 := by
  have hright := hright.height_le
  rw [height_above, hleft.height_of_full (by omega)]
  omega

/-- A tree is full on its level if the log covers it. -/
theorem isFull_of_full (hk : k ≤ n) (ht : Represents op leaf n k h j t)
    (hfull : (j + 1) * 2 ^ h ≤ n) : t.isFull = true := by
  have hpos := Nat.two_pow_pos h
  have hsplit := add_one_mul j (2 ^ h)
  have hsize := ht.size_eq hk (by omega)
  rw [min_eq_right hfull] at hsize
  rw [isFull_iff, ht.height_of_full hfull, pow_succ]
  omega

theorem isFull_above (hk : k ≤ n) {left right : Node H} {hash : H} {dirty : Bool}
    (ht : Represents op leaf n k (h + 1) j (.above hash left right dirty))
    (hheight : (Node.above hash left right dirty).height = h + 2)
    (hj : j * 2 ^ (h + 1) < n) (hopen : n < (j + 1) * 2 ^ (h + 1)) :
    (Node.above hash left right dirty).isFull = false := by
  have hsize := ht.size_eq hk hj
  have hsplit := add_one_mul j (2 ^ (h + 1))
  rw [min_eq_left hopen.le] at hsize
  apply Bool.eq_false_iff.mpr
  intro hfull
  rw [isFull_iff, hheight, pow_succ] at hfull
  omega

theorem shaped (hk : k ≤ n) (ht : Represents op leaf n k h j t) : t.Shaped := by
  induction ht with
  | leaf j => exact .leaf Nat.one_pos rfl
  | flushed h j hkj =>
    have hpos := Nat.two_pow_pos (h + 2)
    exact .leaf (by omega) (by omega)
  | above _ hn hleft _ _ ihl ihr =>
    exact .above ihl ihr (hleft.isFull_of_full hk (by omega))
  | short _ _ _ ih => exact ih

/-- A clean tree has the hash of its node. -/
theorem hash_eq (hj : j * 2 ^ h < n) (ht : Represents op leaf n k h j t)
    (hdirty : t.dirty = false) : t.hash = nodeHash op leaf n h j := by
  induction ht with
  | leaf j => rfl
  | flushed h j hk => rfl
  | above _ _ _ _ clean _ _ => exact (clean hdirty).1
  | @short h j t _ hn _ ih =>
    have hstart := two_mul_pow h j
    rw [nodeHash_succ_of_le hn]
    exact ih (by omega) hdirty

/-- A tree depends on the leaves below it. -/
theorem congr (hj : j * 2 ^ h < n) (ht : Represents op leaf n k h j t)
    (hnum : ∀ i, j * 2 ^ h ≤ i → i < (j + 1) * 2 ^ h → (i < n ↔ i < n') ∧ (i < k ↔ i < k'))
    (hleaf : ∀ i, j * 2 ^ h ≤ i → i < (j + 1) * 2 ^ h → i < n → leaf i = leaf' i) :
    Represents op leaf' n' k' h j t := by
  induction ht with
  | leaf j =>
    rw [hleaf j (by omega) (by omega) (by omega)]
    exact .leaf j
  | flushed h j hk =>
    have hpos := Nat.two_pow_pos (h + 1)
    have hsplit := add_one_mul j (2 ^ (h + 1))
    have hlast := hnum ((j + 1) * 2 ^ (h + 1) - 1) (by omega) (by omega)
    rw [nodeHash_congr hj (fun i hi hlt => (hnum i hi hlt).1) hleaf]
    exact .flushed h j (by omega)
  | @above h j hash left right dirty hk hn _ _ clean ihl ihr =>
    have hstart := two_mul_pow h j
    have hend := two_mul_add_two_pow h j
    have hbefore := half_lt h j
    have hafter := half_lt_end h j
    have hlast := hnum ((j + 1) * 2 ^ (h + 1) - 1) (by omega) (by omega)
    have hmiddle := hnum ((2 * j + 1) * 2 ^ h) (by omega) (by omega)
    refine .above (by omega) (by omega) ?_ ?_ ?_
    · apply ihl (by omega)
      · exact fun i hi hlt => hnum i (by omega) (by omega)
      · exact fun i hi hlt => hleaf i (by omega) (by omega)
    · apply ihr hn
      · exact fun i hi hlt => hnum i (by omega) (by omega)
      · exact fun i hi hlt => hleaf i (by omega) (by omega)
    · intro hdirty
      rw [← nodeHash_congr hj (fun i hi hlt => (hnum i hi hlt).1) hleaf]
      exact clean hdirty
  | @short h j t hk hn _ ih =>
    have hstart := two_mul_pow h j
    have hend := two_mul_add_two_pow h j
    have hafter := half_lt_end h j
    have hlast := hnum ((j + 1) * 2 ^ (h + 1) - 1) (by omega) (by omega)
    have hmiddle := hnum ((2 * j + 1) * 2 ^ h) (by omega) (by omega)
    refine .short (by omega) (by omega) ?_
    apply ih (by omega)
    · exact fun i hi hlt => hnum i (by omega) (by omega)
    · exact fun i hi hlt => hleaf i (by omega) (by omega)

/-- The tree of the last leaf. -/
theorem single (hk : k ≤ n) (hj : j * 2 ^ h = n) :
    Represents op leaf (n + 1) k h j (.make (leaf n)) := by
  induction h generalizing j with
  | zero =>
    rw [pow_zero, mul_one] at hj
    rw [← hj]
    exact .leaf j
  | succ h ih =>
    have hstart := two_mul_pow h j
    have hbefore := half_lt h j
    have hafter := half_lt_end h j
    exact .short (by omega) (by omega) (ih (by omega))

/-- A tree with room for the next leaf takes it. -/
theorem insert [Inhabited H] (hk : k ≤ n) (hj : j * 2 ^ h < n) (hroom : n < (j + 1) * 2 ^ h)
    (ht : Represents op leaf n k h j t) :
    Represents op leaf (n + 1) k h j (t.insert (.make (leaf n))) := by
  induction ht with
  | leaf j =>
    rw [pow_zero] at hj hroom
    omega
  | flushed h j hkj => omega
  | @above h j hash left right dirty hkj hn hleft hright clean _ ihr =>
    have hend := two_mul_add_two_pow h j
    have hopen := isFull_above hk (.above hkj hn hleft hright clean)
      (height_over_eq hn hleft hright) hj hroom
    rw [Node.insert_above hopen (hleft.isFull_of_full hk hn.le)]
    refine .above hkj (by omega) ?_ (ihr hn (by omega)) ?_
    · apply hleft.congr (by have := half_lt h j; have := two_mul_pow h j; omega)
      · exact fun i _ _ => by omega
      · exact fun i _ _ _ => rfl
    · intro hdirty
      cases hdirty
  | @short h j t hkj hn hleft ih =>
    have hstart := two_mul_pow h j
    have hafter := half_lt_end h j
    rcases hn.lt_or_eq with hlt | heq
    · exact .short hkj hlt (ih (by omega) hlt)
    · rw [Node.insert_of_full (hleft.isFull_of_full hk heq.ge)]
      refine .above hkj (by omega) ?_ (single hk heq.symm) ?_
      · apply hleft.congr (by omega)
        · exact fun i _ _ => by omega
        · exact fun i _ _ _ => rfl
      · intro hdirty
        cases hdirty

/-- Every level that is high enough shows the whole tree. -/
theorem succ (hk : k < n) (hn : n ≤ 2 ^ h) (ht : Represents op leaf n k h 0 t) :
    Represents op leaf n k (h + 1) 0 t := by
  have hpow := pow_succ 2 h
  exact .short (by omega) (by omega) ht

/-- Hashing leaves the tree as it is and makes it clean. -/
theorem rehash (hj : j * 2 ^ h < n) (ht : Represents op leaf n k h j t) :
    Represents op leaf n k h j (t.rehash op) ∧ (t.rehash op).dirty = false ∧
      (t.rehash op).size = t.size ∧ (t.rehash op).height = t.height := by
  induction ht with
  | leaf j => exact ⟨.leaf j, rfl, rfl, rfl⟩
  | flushed h j hk => exact ⟨.flushed h j hk, rfl, rfl, rfl⟩
  | @above h j hash left right dirty hk hn hleft hright _ ihl ihr =>
    have hstart := two_mul_pow h j
    have hbefore := half_lt h j
    obtain ⟨l, hl, hrepl, hdirtyl, hsizel, hheightl⟩ :
        ∃ l, l = (if left.dirty then left.rehash op else left) ∧
          Represents op leaf n k h (2 * j) l ∧ l.dirty = false ∧ l.size = left.size ∧
            l.height = left.height := by
      refine ⟨_, rfl, ?_⟩
      split
      · exact ihl (by omega)
      · rename_i hclean
        exact ⟨hleft, by simpa using hclean, rfl, rfl⟩
    obtain ⟨r, hr, hrepr, hdirtyr, hsizer, hheightr⟩ :
        ∃ r, r = (if right.dirty then right.rehash op else right) ∧
          Represents op leaf n k h (2 * j + 1) r ∧ r.dirty = false ∧ r.size = right.size ∧
            r.height = right.height := by
      refine ⟨_, rfl, ?_⟩
      split
      · exact ihr hn
      · rename_i hclean
        exact ⟨hright, by simpa using hclean, rfl, rfl⟩
    have heq : (Node.above hash left right dirty).rehash op =
        .above (op l.hash r.hash) l r false := by
      unfold Node.above
      rw [hsizel, hsizer, hheightl, hheightr, hl, hr]
      rfl
    rw [heq]
    refine ⟨.above hk hn hrepl hrepr ?_, rfl, ?_, ?_⟩
    · intro _
      rw [nodeHash_succ_of_lt hn, hrepl.hash_eq (by omega) hdirtyl, hrepr.hash_eq hn hdirtyr]
      exact ⟨rfl, hdirtyl, hdirtyr⟩
    · rw [size_above, size_above, hsizel, hsizer]
    · rw [height_above, height_above, hheightl, hheightr]
  | @short h j t hk hn _ ih =>
    have hstart := two_mul_pow h j
    obtain ⟨hrep, hrest⟩ := ih (by omega)
    exact ⟨.short hk hn hrep, hrest⟩

end Node.Represents

end

/-! ## Lazy insertion -/

section

variable {H : Type} [Inhabited H] (op : H → H → H)

/-- A log with its number of flushed leaves. The last leaf is never flushed. -/
structure Log (H : Type) where
  leaves : List H := []
  flushed : ℕ := 0
  valid : flushed = 0 ∨ flushed < leaves.length := by exact Or.inl rfl

/-- The leaf at an index. -/
def Log.leaf (log : Log H) (i : ℕ) : H := log.leaves.getD i default

/-- What has been inserted: the first `n` leaves, `k` of them flushed. -/
def Grown (leaf : ℕ → H) (n k : ℕ) : Option (Position H) → Prop
  | none => n = 0 ∧ k = 0
  | some p => k < n ∧ Waiting p.insertionStack ∧
    (p.insertionStack = [] ∨ p.root.isFull = false) ∧
    ∃ h, n ≤ 2 ^ h ∧ Node.Represents op leaf n k h 0 (whole p.root p.insertionStack)

variable {op} {leaf : ℕ → H} {n k : ℕ} {position : Option (Position H)}

theorem Grown.insertLeaf (h : Grown op leaf n k position) :
    Grown op leaf (n + 1) k (insertLeaf position (leaf n)) := by
  cases position with
  | none =>
    obtain ⟨rfl, rfl⟩ := h
    exact ⟨Nat.one_pos, fun e he => (List.not_mem_nil he).elim, Or.inl rfl, 0, le_rfl, .leaf 0⟩
  | some p =>
    obtain ⟨hk, hwait, hopen, h, hn, hrep⟩ := h
    have hpow := pow_succ 2 h
    have hpos := Nat.two_pow_pos h
    have hshape := hrep.shaped hk.le
    have hstack : Waiting
        (continueInsertionStack (.make (leaf n)) p.root p.insertionStack).insertionStack :=
      waiting_continueInsertionStack (shaped_of_whole hwait hshape) hwait
    refine ⟨by omega, waiting_processInsertionStack hstack, open_processInsertionStack, h + 1,
      by omega, ?_⟩
    rw [whole_processInsertionStack, whole_continueInsertionStack,
      whole_insert hwait hopen hshape]
    exact (hrep.succ hk hn).insert hk.le (by omega) (by omega)

theorem Grown.foldl {l : List H} (hl : ∀ i, ∀ hi : i < l.length, l[i] = leaf (n + i))
    (h : Grown op leaf n k position) :
    Grown op leaf (n + l.length) k (l.foldl MerkleTree.insertLeaf position) := by
  induction l generalizing n position with
  | nil => exact h
  | cons a l ih =>
    have ha : a = leaf n := hl 0 (Nat.succ_pos _)
    rw [List.foldl_cons, List.length_cons, show n + (l.length + 1) = n + 1 + l.length by omega, ha]
    apply ih
    · intro i hi
      have hnext := hl (i + 1) (Nat.succ_lt_succ hi)
      rw [List.getElem_cons_succ] at hnext
      rw [hnext, show n + 1 + i = n + (i + 1) by omega]
    · exact h.insertLeaf

omit [Inhabited H] in
theorem Grown.congr {leaf' : ℕ → H} (hleaf : ∀ i < n, leaf i = leaf' i)
    (h : Grown op leaf n k position) : Grown op leaf' n k position := by
  cases position with
  | none => exact h
  | some p =>
    obtain ⟨hk, hwait, hopen, l, hl, hrep⟩ := h
    exact ⟨hk, hwait, hopen, l, hl, hrep.congr (by omega) (fun i _ _ => ⟨Iff.rfl, Iff.rfl⟩)
      fun i _ _ hi => hleaf i hi⟩

/-- The tree is that of a log. -/
structure TreeT.Models (op : H → H → H) (t : TreeT H) (log : Log H) : Prop where
  flushed : t.numFlushed = log.flushed
  leaves : t.leafNodes ++ t.uninsertedLeafNodes = log.leaves.drop log.flushed
  grown : Grown op log.leaf (t.numFlushed + t.leafNodes.length) t.numFlushed t.position

/-- The tree is that of a log and its root, `root`, is up to date. -/
structure TreeT.Computed (op : H → H → H) (t : TreeT H) (log : Log H) (root : Node H) : Prop where
  flushed : t.numFlushed = log.flushed
  leaves : t.leafNodes = log.leaves.drop log.flushed
  inserted : t.uninsertedLeafNodes = []
  position : t.position = some ⟨root, []⟩
  clean : root.dirty = false
  kept : log.flushed < log.leaves.length
  represents : ∃ h, log.leaves.length ≤ 2 ^ h ∧
    Node.Represents op log.leaf log.leaves.length log.flushed h 0 root

namespace TreeT

variable {t : TreeT H} {log : Log H} {root : Node H}

theorem Models.empty : Models op ({} : TreeT H) {} := ⟨rfl, rfl, rfl, rfl⟩

omit [Inhabited H] in
theorem length_drop_flushed (log : Log H) :
    log.flushed + (log.leaves.drop log.flushed).length = log.leaves.length := by
  have hvalid := log.valid
  rw [List.length_drop]
  omega

theorem Models.numLeaves (h : t.Models op log) : t.numLeaves = log.leaves.length := by
  have hlength := congrArg List.length h.leaves
  have hdrop := length_drop_flushed log
  rw [List.length_append] at hlength
  rw [TreeT.numLeaves, h.flushed]
  omega

theorem Models.maxIndex (h : t.Models op log) : t.maxIndex = log.leaves.length - 1 := by
  rw [TreeT.maxIndex, h.numLeaves]
  split <;> omega

theorem Computed.models (h : t.Computed op log root) : t.Models op log := by
  refine ⟨h.flushed, ?_, ?_⟩
  · rw [h.leaves, h.inserted, List.append_nil]
  · obtain ⟨l, hl, hrep⟩ := h.represents
    rw [h.position, h.flushed, h.leaves, length_drop_flushed]
    exact ⟨h.kept, fun e he => (List.not_mem_nil he).elim, Or.inl rfl, l, hl, hrep⟩

/-- A leaf that is inserted goes to the end of the log. -/
theorem Models.insert (h : t.Models op log) (hash : H) :
    (t.insert hash).Models op
      ⟨log.leaves ++ [hash], log.flushed, by
        have hvalid := log.valid
        rw [List.length_append]
        omega⟩ := by
  have hvalid := log.valid
  have hnum := h.numLeaves
  unfold TreeT.numLeaves at hnum
  refine ⟨h.flushed, ?_, ?_⟩
  · show t.leafNodes ++ (t.uninsertedLeafNodes ++ [hash]) = _
    rw [← List.append_assoc, h.leaves,
      List.drop_append_of_le_length (show log.flushed ≤ log.leaves.length by omega)]
  · apply h.grown.congr
    intro i hi
    exact (List.getD_append _ _ _ _ (by omega)).symm

theorem Models.grown_foldl (h : t.Models op log) :
    Grown op log.leaf log.leaves.length log.flushed
      (t.uninsertedLeafNodes.foldl insertLeaf t.position) := by
  have hnum := h.numLeaves
  rw [← hnum, ← h.flushed]
  apply Grown.foldl _ h.grown
  intro i hi
  have hsome : log.leaves[t.numFlushed + t.leafNodes.length + i]? =
      some t.uninsertedLeafNodes[i] := by
    have hget : (t.leafNodes ++ t.uninsertedLeafNodes)[t.leafNodes.length + i]? =
        some t.uninsertedLeafNodes[i] := by
      rw [List.getElem?_append_right (by omega), Nat.add_sub_cancel_left, List.getElem?_eq_getElem hi]
    rw [h.leaves, List.getElem?_drop, ← h.flushed, ← Nat.add_assoc] at hget
    exact hget
  rw [Log.leaf, List.getD_eq_getElem?_getD, hsome]
  rfl

/-- `compute_root` brings a tree with leaves up to date. -/
theorem Models.computeRoot (h : t.Models op log) (hne : log.leaves ≠ []) :
    ∃ t' root, t.computeRoot op = .ok (t', root) ∧ t'.Computed op log root := by
  have hpos := List.length_pos_iff.mpr hne
  have hgrown := h.grown_foldl
  cases hfold : t.uninsertedLeafNodes.foldl insertLeaf t.position with
  | none =>
    rw [hfold] at hgrown
    exact absurd hgrown.1 (by omega)
  | some p =>
    rw [hfold] at hgrown
    obtain ⟨hk, hwait, hopen, l, hl, hrep⟩ := hgrown
    have hstack : (processInsertionStack true p.root p.insertionStack).insertionStack = [] :=
      insertionStack_processInsertionStack
    have hwhole : whole (processInsertionStack true p.root p.insertionStack).root
        (processInsertionStack true p.root p.insertionStack).insertionStack =
          whole p.root p.insertionStack := whole_processInsertionStack
    cases hprocess : processInsertionStack true p.root p.insertionStack with
    | mk root stack =>
    rw [hprocess] at hstack hwhole
    cases hstack
    rw [← hwhole] at hrep
    have hnum : t.insertLeaves.numLeaves = log.leaves.length := by
      rw [← h.numLeaves]
      show t.numFlushed + (t.leafNodes ++ t.uninsertedLeafNodes).length + 0 = _
      rw [List.length_append, TreeT.numLeaves]
      omega
    have hposition : t.insertLeaves.position = some ⟨root, []⟩ := by
      show (t.uninsertedLeafNodes.foldl insertLeaf t.position).map _ = _
      rw [hfold, Option.map_some, hprocess]
    refine ⟨{ t.insertLeaves with position := some ⟨if root.dirty then root.rehash op else root, []⟩ },
      if root.dirty then root.rehash op else root, ?_, ?_⟩
    · unfold TreeT.computeRoot
      rw [if_neg (by omega), hposition]
      rfl
    · refine ⟨h.flushed, h.leaves, rfl, rfl, ?_, hk, l, hl, ?_⟩
      · split
        · exact (hrep.rehash (by omega)).2.1
        · rename_i hclean
          simpa using hclean
      · split
        · exact (hrep.rehash (by omega)).1
        · exact hrep

theorem Models.computeRoot_empty (h : t.Models op log) (hnil : log.leaves = []) :
    t.computeRoot op = .error (.runtimeError "empty tree does not have a root") := by
  have hnum : t.insertLeaves.numLeaves = 0 := by
    have hsum := h.numLeaves
    rw [hnil, TreeT.numLeaves, List.length_nil] at hsum
    show t.numFlushed + (t.leafNodes ++ t.uninsertedLeafNodes).length + 0 = _
    rw [List.length_append]
    omega
  unfold TreeT.computeRoot
  rw [if_pos hnum]
  rfl

/-- The root of a tree is the root of its log. -/
theorem Computed.hash_eq (h : t.Computed op log root) :
    root.hash = rootHash op log.leaf log.leaves.length := by
  obtain ⟨l, hl, hrep⟩ := h.represents
  have hkept := h.kept
  rw [rootHash_eq hl]
  exact hrep.hash_eq (by omega) h.clean

end TreeT

end

end OptRand.Wire.MerkleTree
