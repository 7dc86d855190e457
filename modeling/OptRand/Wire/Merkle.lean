import OptRand.Wire.Erasure
import Mathlib.Data.List.GetD
import Mathlib.Logic.Function.Basic

/-!
# The root of a dispersed message (`merklecpp.h`)

`_deliver_proposal` and `_deliver_cert` encode the serialized message and put the chunks into a
`merkle::Tree`, whose root is what the echoes sign. The argument of `insert` is a hash: a chunk is
converted by the constructor of `HashT` from a vector of bytes, which reads the first 32 bytes and
does not look at the others.

What `TreeT` does to the leaves depends on their number only (`rootNode_map`) and it keeps all of
them (`mem_leaves_rootNode`), so a root with injective hash functions determines the leaves. So the
root tells two messages of one length apart if and only if they differ in the first 32 bytes of some
block (`dispersalRoot_ne_iff`). A block has at least 64 bytes.
-/

namespace OptRand.Wire.Merkle

open Erasure

/-- What is thrown as `std::runtime_error`. -/
inductive Error where
  | notEnoughBytes
  | emptyTree
  deriving DecidableEq

def Error.what : Error → String
  | .notEnoughBytes => "not enough bytes"
  | .emptyTree => "empty tree does not have a root"

/-- `HashT<32>`. -/
@[ext]
structure HashT where
  bytes : List UInt8
  size : bytes.length = 32
  deriving DecidableEq

/-- The constructor of `HashT` from a vector of bytes. -/
def HashT.ofBytes (bytes : List UInt8) : Except Error HashT :=
  if h : bytes.length < 32 then throw .notEnoughBytes
  else return ⟨bytes.take 32, by rw [List.length_take]; omega⟩

/-! ## Trees -/

/-- A `Node` with its subtree. -/
inductive Tree (α : Type) where
  | leaf (hash : α)
  | node (left right : Tree α)
  deriving DecidableEq

namespace Tree

variable {α β H : Type}

def size : Tree α → ℕ
  | leaf _ => 1
  | node left right => left.size + right.size + 1

def height : Tree α → ℕ
  | leaf _ => 1
  | node left right => max left.height right.height + 1

/-- `is_full`. -/
def isFull (n : Tree α) : Bool := n.size == 2 ^ n.height - 1

/-- The hash of a node, for a function `leafHash` of what is inserted (the source has the identity)
and `HASH_FUNCTION`. -/
def hash (leafHash : α → H) (hashFunction : H → H → H) : Tree α → H
  | leaf a => leafHash a
  | node left right =>
    hashFunction (left.hash leafHash hashFunction) (right.hash leafHash hashFunction)

def map (f : α → β) : Tree α → Tree β
  | leaf a => leaf (f a)
  | node left right => node (left.map f) (right.map f)

def leaves : Tree α → List α
  | leaf a => [a]
  | node left right => left.leaves ++ right.leaves

@[simp] theorem size_map (f : α → β) (t : Tree α) : (t.map f).size = t.size := by
  induction t with
  | leaf a => rfl
  | node left right ihl ihr => simp only [map, size, ihl, ihr]

@[simp] theorem height_map (f : α → β) (t : Tree α) : (t.map f).height = t.height := by
  induction t with
  | leaf a => rfl
  | node left right ihl ihr => simp only [map, height, ihl, ihr]

@[simp] theorem isFull_map (f : α → β) (t : Tree α) : (t.map f).isFull = t.isFull := by
  simp [isFull]

/-- With injective hash functions the hash of a tree determines what is in it. -/
theorem eq_of_hash_map_eq {leafHash : β → H} {hashFunction : H → H → H}
    (hleaf : Function.Injective leafHash) (hnode : Function.Injective2 hashFunction)
    {f g : α → β} {t : Tree α}
    (h : (t.map f).hash leafHash hashFunction = (t.map g).hash leafHash hashFunction) :
    ∀ a ∈ t.leaves, f a = g a := by
  induction t with
  | leaf a =>
    intro b hb
    rw [List.mem_singleton.mp hb]
    exact hleaf h
  | node left right ihl ihr =>
    obtain ⟨hl, hr⟩ := hnode h
    intro a ha
    rcases List.mem_append.mp ha with ha | ha
    · exact ihl hl a ha
    · exact ihr hr a ha

end Tree

/-! ## Insertion -/

/-- An `InsertionStackElement`: its node, without the child that comes back from below. -/
structure InsertionStackElement (α : Type) where
  left : Bool
  other : Tree α

/-- `_root` with `insertion_stack`, whose last element stands first. The stack leads from the root
of the whole tree to `_root`. -/
structure Position (α : Type) where
  root : Tree α
  insertionStack : List (InsertionStackElement α) := []

/-- The members of `TreeT` that insertion works on. There is no root until a leaf is inserted. -/
structure TreeT (α : Type) where
  position : Option (Position α) := none
  uninsertedLeafNodes : List α := []

section

variable {α β H : Type}

/-- The node of a stack element, with its child. -/
def InsertionStackElement.plug (e : InsertionStackElement α) (n : Tree α) : Tree α :=
  if e.left then .node n e.other else .node e.other n

/-- `continue_insertion_stack(n, new_leaf)`. A leaf is full. -/
def continueInsertionStack (newLeaf : Tree α) :
    Tree α → List (InsertionStackElement α) → Position α
  | .leaf a, stack => ⟨.node (.leaf a) newLeaf, stack⟩
  | .node left right, stack =>
    if (Tree.node left right).isFull then ⟨.node (.node left right) newLeaf, stack⟩
    else if !left.isFull then continueInsertionStack newLeaf left (⟨true, right⟩ :: stack)
    else continueInsertionStack newLeaf right (⟨false, left⟩ :: stack)

/-- `process_insertion_stack(complete)`, from the node at the end of the stack. -/
def processInsertionStack (complete : Bool) (result : Tree α) :
    List (InsertionStackElement α) → Position α
  | [] => ⟨result, []⟩
  | top :: stack =>
    if !complete && !(top.plug result).isFull then ⟨top.plug result, stack⟩
    else processInsertionStack complete (top.plug result) stack

/-- `insert_leaf`. -/
def insertLeaf (position : Option (Position α)) (n : α) : Option (Position α) :=
  match position with
  | none => some ⟨.leaf n, []⟩
  | some p =>
    let q := continueInsertionStack (.leaf n) p.root p.insertionStack
    some (processInsertionStack false q.root q.insertionStack)

namespace TreeT

/-- `insert`. -/
def insert (t : TreeT α) (hash : α) : TreeT α :=
  { t with uninsertedLeafNodes := t.uninsertedLeafNodes ++ [hash] }

/-- `insert_leaves(complete)`. -/
def insertLeaves (complete : Bool) (t : TreeT α) : TreeT α :=
  let position := t.uninsertedLeafNodes.foldl insertLeaf t.position
  if complete then
    ⟨position.map fun p => processInsertionStack true p.root p.insertionStack, []⟩
  else ⟨position, []⟩

/-- `compute_root`: the node at the root. There is none exactly if there are no leaves. -/
def rootNode (t : TreeT α) : Except Error (Tree α) :=
  match (t.insertLeaves true).position with
  | none => throw .emptyTree
  | some p => return p.root

end TreeT

/-! ## The shape of the tree -/

namespace InsertionStackElement

def map (f : α → β) (e : InsertionStackElement α) : InsertionStackElement β :=
  ⟨e.left, e.other.map f⟩

@[simp] theorem plug_map (f : α → β) (e : InsertionStackElement α) (n : Tree α) :
    (e.map f).plug (n.map f) = (e.plug n).map f := by
  unfold plug map
  cases e.left <;> rfl

end InsertionStackElement

namespace Position

def map (f : α → β) (p : Position α) : Position β :=
  ⟨p.root.map f, p.insertionStack.map (InsertionStackElement.map f)⟩

/-- What has been inserted so far. -/
def leaves (p : Position α) : List α :=
  p.root.leaves ++ p.insertionStack.flatMap fun e => e.other.leaves

end Position

theorem continueInsertionStack_map (f : α → β) (newLeaf n : Tree α)
    (stack : List (InsertionStackElement α)) :
    continueInsertionStack (newLeaf.map f) (n.map f) (stack.map (InsertionStackElement.map f)) =
      (continueInsertionStack newLeaf n stack).map f := by
  induction n generalizing stack with
  | leaf a => rfl
  | node left right ihl ihr =>
    have hfull : (Tree.node (left.map f) (right.map f)).isFull = (Tree.node left right).isFull :=
      Tree.isFull_map f (.node left right)
    simp only [Tree.map, continueInsertionStack, hfull, Tree.isFull_map]
    split
    · rfl
    split
    · exact ihl (⟨true, right⟩ :: stack)
    · exact ihr (⟨false, left⟩ :: stack)

theorem processInsertionStack_map (f : α → β) (complete : Bool) (result : Tree α)
    (stack : List (InsertionStackElement α)) :
    processInsertionStack complete (result.map f) (stack.map (InsertionStackElement.map f)) =
      (processInsertionStack complete result stack).map f := by
  induction stack generalizing result with
  | nil => rfl
  | cons top stack ih =>
    simp only [List.map_cons, processInsertionStack, InsertionStackElement.plug_map,
      Tree.isFull_map]
    split
    · rfl
    · exact ih (top.plug result)

theorem insertLeaf_map (f : α → β) (position : Option (Position α)) (n : α) :
    insertLeaf (position.map (Position.map f)) (f n) =
      (insertLeaf position n).map (Position.map f) := by
  cases position with
  | none => rfl
  | some p =>
    have hcont := continueInsertionStack_map f (.leaf n) p.root p.insertionStack
    simp only [insertLeaf, Option.map_some]
    rw [← processInsertionStack_map]
    simp only [Position.map, Tree.map] at hcont ⊢
    rw [hcont]

theorem foldl_insertLeaf_map (f : α → β) (l : List α) (position : Option (Position α)) :
    (l.map f).foldl insertLeaf (position.map (Position.map f)) =
      (l.foldl insertLeaf position).map (Position.map f) := by
  induction l generalizing position with
  | nil => rfl
  | cons a l ih =>
    rw [List.map_cons, List.foldl_cons, List.foldl_cons, insertLeaf_map]
    exact ih (insertLeaf position a)

/-- Where a leaf goes does not depend on what it is. -/
theorem rootNode_map (f : α → β) (l : List α) :
    TreeT.rootNode ⟨none, l.map f⟩ = (TreeT.rootNode ⟨none, l⟩).map (Tree.map f) := by
  have hfold := foldl_insertLeaf_map f l none
  simp only [TreeT.rootNode, TreeT.insertLeaves, if_true]
  rw [Option.map_none] at hfold
  rw [hfold]
  cases l.foldl insertLeaf none with
  | none => rfl
  | some p =>
    exact congrArg (fun q : Position β => Except.ok q.root)
      (processInsertionStack_map f true p.root p.insertionStack)

/-! ## The leaves of the tree -/

theorem InsertionStackElement.mem_leaves_plug {e : InsertionStackElement α} {n : Tree α} {a : α} :
    a ∈ (e.plug n).leaves ↔ a ∈ n.leaves ∨ a ∈ e.other.leaves := by
  unfold plug
  split
  · exact List.mem_append
  · exact List.mem_append.trans or_comm

theorem mem_leaves_continueInsertionStack {newLeaf n : Tree α}
    {stack : List (InsertionStackElement α)} {a : α} :
    a ∈ (continueInsertionStack newLeaf n stack).leaves ↔
      a ∈ newLeaf.leaves ∨ a ∈ (Position.mk n stack).leaves := by
  induction n generalizing stack with
  | leaf b =>
    simp only [continueInsertionStack, Position.leaves, Tree.leaves, List.mem_append]
    tauto
  | node left right ihl ihr =>
    unfold continueInsertionStack
    split
    · simp only [Position.leaves, Tree.leaves, List.mem_append]
      tauto
    split
    · rw [ihl]
      simp only [Position.leaves, Tree.leaves, List.flatMap_cons, List.mem_append]
      tauto
    · rw [ihr]
      simp only [Position.leaves, Tree.leaves, List.flatMap_cons, List.mem_append]
      tauto

theorem mem_leaves_processInsertionStack {complete : Bool} {result : Tree α}
    {stack : List (InsertionStackElement α)} {a : α} :
    a ∈ (processInsertionStack complete result stack).leaves ↔
      a ∈ (Position.mk result stack).leaves := by
  induction stack generalizing result with
  | nil => rfl
  | cons top stack ih =>
    have hplug : a ∈ (Position.mk (top.plug result) stack).leaves ↔
        a ∈ (Position.mk result (top :: stack)).leaves := by
      simp only [Position.leaves, List.flatMap_cons, List.mem_append,
        InsertionStackElement.mem_leaves_plug]
      tauto
    unfold processInsertionStack
    split
    · exact hplug
    · exact ih.trans hplug

/-- Nothing is left on the stack in the end. -/
theorem insertionStack_processInsertionStack (result : Tree α)
    (stack : List (InsertionStackElement α)) :
    (processInsertionStack true result stack).insertionStack = [] := by
  induction stack generalizing result with
  | nil => rfl
  | cons top stack ih => exact ih (top.plug result)

/-- What has been inserted, for a tree that may be empty. -/
def inserted (position : Option (Position α)) : List α := position.elim [] Position.leaves

theorem mem_inserted_insertLeaf {position : Option (Position α)} {n a : α} :
    a ∈ inserted (insertLeaf position n) ↔ a = n ∨ a ∈ inserted position := by
  cases position with
  | none => simp [inserted, insertLeaf, Position.leaves, Tree.leaves]
  | some p =>
    show a ∈ (processInsertionStack _ _ _).leaves ↔ a = n ∨ a ∈ p.leaves
    rw [mem_leaves_processInsertionStack]
    exact mem_leaves_continueInsertionStack.trans (or_congr_left List.mem_singleton)

theorem mem_inserted_foldl {l : List α} {position : Option (Position α)} {a : α} :
    a ∈ inserted (l.foldl insertLeaf position) ↔ a ∈ l ∨ a ∈ inserted position := by
  induction l generalizing position with
  | nil => simp
  | cons b l ih =>
    rw [List.foldl_cons, ih, mem_inserted_insertLeaf, List.mem_cons]
    tauto

/-- A tree with a leaf has a root, and the leaves are those that were inserted. -/
theorem exists_rootNode {l : List α} (hl : l ≠ []) :
    ∃ t, TreeT.rootNode ⟨none, l⟩ = .ok t ∧ ∀ a, a ∈ t.leaves ↔ a ∈ l := by
  have hmem : ∀ a, a ∈ inserted (l.foldl insertLeaf none) ↔ a ∈ l := by
    intro a
    rw [mem_inserted_foldl]
    simp [inserted]
  simp only [TreeT.rootNode, TreeT.insertLeaves, if_true]
  cases hfold : l.foldl insertLeaf none with
  | none =>
    obtain ⟨b, hb⟩ := List.exists_mem_of_ne_nil l hl
    rw [← hmem, hfold] at hb
    cases hb
  | some p =>
    refine ⟨_, rfl, fun a => ?_⟩
    have hleaves : a ∈ (processInsertionStack true p.root p.insertionStack).leaves ↔
        a ∈ p.leaves := mem_leaves_processInsertionStack
    rw [Position.leaves, insertionStack_processInsertionStack, List.flatMap_nil,
      List.append_nil] at hleaves
    rw [hleaves, ← hmem, hfold]
    rfl

/-- The root of a tree over `n` leaves determines them. -/
theorem hash_rootNode_inj {leafHash : α → H} {hashFunction : H → H → H}
    (hleaf : Function.Injective leafHash) (hnode : Function.Injective2 hashFunction) {n : ℕ}
    (hn : 0 < n) (f g : ℕ → α) :
    ∃ t t', TreeT.rootNode ⟨none, (List.range n).map f⟩ = .ok t ∧
      TreeT.rootNode ⟨none, (List.range n).map g⟩ = .ok t' ∧
      (t.hash leafHash hashFunction = t'.hash leafHash hashFunction ↔ ∀ i < n, f i = g i) := by
  obtain ⟨t, ht, hmem⟩ := exists_rootNode (l := List.range n) (by
    rw [Ne, List.range_eq_nil]
    omega)
  refine ⟨t.map f, t.map g, by rw [rootNode_map, ht]; rfl, by rw [rootNode_map, ht]; rfl, ?_⟩
  constructor
  · intro h i hi
    exact Tree.eq_of_hash_map_eq hleaf hnode h i ((hmem i).mpr (List.mem_range.mpr hi))
  · intro h
    have hsame : ∀ s : Tree ℕ, (∀ i ∈ s.leaves, f i = g i) → s.map f = s.map g := by
      intro s hs
      induction s with
      | leaf i => exact congrArg Tree.leaf (hs i List.mem_cons_self)
      | node left right ihl ihr =>
        unfold Tree.map
        rw [ihl fun i hi => hs i (List.mem_append_left _ hi),
          ihr fun i hi => hs i (List.mem_append_right _ hi)]
    rw [hsame t fun i hi => h i (List.mem_range.mp ((hmem i).mp hi))]

end

/-! ## The root of the chunks -/

/-- The root in `_deliver_proposal` and `_deliver_cert` for the serialized message `d`. -/
def dispersalRoot {H : Type} (J : Jerasure) (leafHash : HashT → H) (hashFunction : H → H → H)
    (nreplicas nreconthres : ℕ) (d : List UInt8) : Except Error H := do
  let chunkArray :=
    (encode J (Int32.ofNat nreconthres) (Int32.ofNat (nreplicas - nreconthres)) 8 d).1
  let tree ← (List.range nreplicas).foldlM (fun (tree : TreeT HashT) i => do
    let hash ← HashT.ofBytes (chunkArray.getD i ⟨0, []⟩).data
    return tree.insert hash) {}
  let root ← tree.rootNode
  return root.hash leafHash hashFunction

/-- What is assumed of the library beside the sizes: coding with `w = 8` works on each byte of the
blocks by itself. -/
structure Bytewise (J : Jerasure) (k m : ℕ) : Prop where
  blocks : ∀ {data : List (List UInt8)} {len : ℕ}, 0 < len → 8 ∣ len → len < 2 ^ 31 →
    Blocks k len data → Blocks m len (J.coding k m data len)
  bytes : ∀ {data data' : List (List UInt8)} {len : ℕ}, 0 < len → 8 ∣ len → len < 2 ^ 31 →
    Blocks k len data → Blocks k len data' →
    ∀ p : ℕ, data.map (fun b => b[p]?) = data'.map (fun b => b[p]?) →
      (J.coding k m data len).map (fun b => b[p]?) = (J.coding k m data' len).map fun b => b[p]?

theorem HashT.ofBytes_of_le {b : List UInt8} (hb : 32 ≤ b.length) :
    ∃ h : HashT, HashT.ofBytes b = .ok h ∧ h.bytes = b.take 32 := by
  unfold HashT.ofBytes
  rw [dif_neg (by omega)]
  exact ⟨_, rfl, rfl⟩

theorem foldlM_insert {α : Type} {f : ℕ → Except Error α} {g : ℕ → α} {l : List ℕ}
    (h : ∀ i ∈ l, f i = .ok (g i)) (t : TreeT α) :
    l.foldlM (fun (tree : TreeT α) i => do
      let hash ← f i
      return tree.insert hash) t =
        .ok { t with uninsertedLeafNodes := t.uninsertedLeafNodes ++ l.map g } := by
  induction l generalizing t with
  | nil => simp [pure, Except.pure]
  | cons i l ih =>
    rw [List.foldlM_cons, h i List.mem_cons_self]
    refine (ih (fun j hj => h j (List.mem_cons_of_mem i hj)) (t.insert (g i))).trans ?_
    simp [TreeT.insert]

section

variable {J : Jerasure} {k m : ℕ} {d d' : List UInt8}

theorem blocks_word (hJ : Bytewise J k m) (hk : 0 < k) (hd : d ≠ [])
    (hfits : 64 * k * stripes d.length k < 2 ^ 31) :
    Blocks (k + m) (blockLen d k) (word J k m d) := by
  obtain ⟨hpos, hlt, -, -⟩ := blockLen_bounds hk hd hfits
  have hdata := blocks_data hk hd hfits
  exact blocks_append hdata (hJ.blocks hpos (eight_dvd_blockLen d k) hlt hdata)

/-- The bytes at `q` in the blocks of a padded string. -/
theorem column_slices {l : List UInt8} {B q : ℕ} (hq : q < B) :
    (slices l k B).map (fun b => b[q]?) = (List.range k).map fun i => l[i * B + q]? := by
  unfold slices
  rw [List.map_map]
  apply List.map_congr_left
  intro i _
  show ((l.drop (i * B)).take B)[q]? = l[i * B + q]?
  rw [List.getElem?_take_of_lt hq, List.getElem?_drop]

/-- A byte of a padded string is one of the string, or padding. -/
theorem getElem?_padded_eq_iff {B p : ℕ} (hlen : d.length = d'.length) :
    (padded d k B)[p]? = (padded d' k B)[p]? ↔ (p < d.length → d[p]? = d'[p]?) := by
  unfold padded
  by_cases hp : p < d.length
  · rw [List.getElem?_append_left hp, List.getElem?_append_left (by omega)]
    exact ⟨fun h _ => h, fun h => h hp⟩
  · rw [List.getElem?_append_right (by omega), List.getElem?_append_right (by omega), hlen]
    exact iff_of_true rfl fun h => absurd h (by omega)

/-- The chunks of two messages have the same bytes at `q` if the messages have the same bytes at the
places that are at `q` in their block: a coding block adds nothing. -/
theorem column_word_eq_iff (hJ : Bytewise J k m) (hk : 0 < k) (hd : d ≠ [])
    (hlen : d.length = d'.length) (hfits : 64 * k * stripes d.length k < 2 ^ 31) {q : ℕ}
    (hq : q < blockLen d k) :
    (word J k m d).map (fun b => b[q]?) = (word J k m d').map (fun b => b[q]?) ↔
      ∀ p < d.length, p % blockLen d k = q → d[p]? = d'[p]? := by
  have hd' : d' ≠ [] := by
    rw [← List.length_pos_iff] at hd ⊢
    omega
  have hB' : blockLen d' k = blockLen d k := by
    unfold blockLen
    rw [hlen]
  obtain ⟨hpos, hlt, hle, -⟩ := blockLen_bounds hk hd hfits
  have hdata := blocks_data hk hd hfits
  have hdata' := blocks_data hk hd' (by rw [← hlen]; exact hfits)
  have height := eight_dvd_blockLen d k
  unfold word
  rw [hB'] at hdata' ⊢
  generalize blockLen d k = B at *
  have hcolumn : (slices (padded d k B) k B).map (fun b => b[q]?) =
      (slices (padded d' k B) k B).map (fun b => b[q]?) ↔
        ∀ p < d.length, p % B = q → d[p]? = d'[p]? := by
    rw [column_slices hq, column_slices hq, List.map_inj_left]
    constructor
    · intro h p hp hmod
      have hi : p / B < k := by
        rw [Nat.div_lt_iff_lt_mul hpos]
        omega
      have hplace : p / B * B + q = p := by
        rw [← hmod]
        exact Nat.div_add_mod' p B
      have hbyte := h (p / B) (List.mem_range.mpr hi)
      rw [hplace] at hbyte
      exact (getElem?_padded_eq_iff hlen).mp hbyte hp
    · intro h i _
      refine (getElem?_padded_eq_iff hlen).mpr fun hp => h _ hp ?_
      rw [Nat.mul_add_mod_self_right, Nat.mod_eq_of_lt hq]
  rw [← hcolumn, List.map_append, List.map_append]
  constructor
  · intro h
    exact (List.append_inj h (by rw [List.length_map, List.length_map, hdata.count,
      hdata'.count])).1
  · intro h
    rw [h, hJ.bytes hpos height hlt hdata hdata' q h]

/-- The leaves are the columns of the first 32 bytes. -/
theorem take_eq_iff {W W' : List (List UInt8)} {n : ℕ} (hW : W.length = n) (hW' : W'.length = n) :
    (∀ i < n, (W.getD i []).take 32 = (W'.getD i []).take 32) ↔
      ∀ q < 32, W.map (fun b => b[q]?) = W'.map fun b => b[q]? := by
  constructor
  · intro h q hq
    apply List.ext_getElem
    · rw [List.length_map, List.length_map, hW, hW']
    · intro i hi hi'
      rw [List.length_map] at hi hi'
      have htake := congrArg (fun b : List UInt8 => b[q]?) (h i (by omega))
      rw [List.getD_eq_getElem _ _ hi, List.getD_eq_getElem _ _ hi'] at htake
      simpa [hq] using htake
  · intro h i hi
    rw [List.getD_eq_getElem _ _ (by omega), List.getD_eq_getElem _ _ (by omega)]
    apply List.ext_getElem?
    intro q
    rw [List.getElem?_take, List.getElem?_take]
    split
    · rename_i hq
      have hcolumn := congrArg (fun column : List (Option UInt8) => column[i]?) (h q hq)
      simpa [hW, hW', hi] using hcolumn
    · rfl

/-- The tree is that of the first 32 bytes of the chunks. -/
theorem exists_leaves {n : ℕ} (hJ : Bytewise J k (n - k)) (hk : 0 < k) (hkn : k ≤ n) (hd : d ≠ [])
    (hfits : 64 * k * stripes d.length k < 2 ^ 31) :
    ∃ f : ℕ → HashT, (∀ i < n, (f i).bytes = ((word J k (n - k) d).getD i []).take 32) ∧
      ∀ {H : Type} (leafHash : HashT → H) (hashFunction : H → H → H),
        dispersalRoot J leafHash hashFunction n k d =
          (TreeT.rootNode ⟨none, (List.range n).map f⟩).map (Tree.hash leafHash hashFunction) := by
  have hword := blocks_word hJ hk hd hfits
  have hpos := (blockLen_bounds hk hd hfits).1
  have hlong : ∀ i < n, 32 ≤ ((word J k (n - k) d).getD i []).length := by
    intro i hi
    have hlt : i < (word J k (n - k) d).length := by
      rw [hword.count]
      omega
    rw [List.getD_eq_getElem _ _ hlt, hword.size _ (List.getElem_mem hlt)]
    unfold blockLen at hpos ⊢
    omega
  have hleaf : ∀ i, ∃ h : HashT, i < n →
      HashT.ofBytes ((word J k (n - k) d).getD i []) = .ok h ∧
        h.bytes = ((word J k (n - k) d).getD i []).take 32 := by
    intro i
    by_cases hi : i < n
    · obtain ⟨h, hh⟩ := HashT.ofBytes_of_le (hlong i hi)
      exact ⟨h, fun _ => hh⟩
    · exact ⟨⟨List.replicate 32 0, rfl⟩, fun h => absurd h hi⟩
  choose f hf using hleaf
  refine ⟨f, fun i hi => (hf i hi).2, fun {H} leafHash hashFunction => ?_⟩
  have hchunk : ∀ i ∈ List.range n, HashT.ofBytes
      ((((word J k (n - k) d).map (Chunk.mk (UInt32.ofNat d.length))).getD i ⟨0, []⟩).data) =
        .ok (f i) := by
    intro i hi
    rw [← (hf i (List.mem_range.mp hi)).1, List.getD_eq_getElem?_getD, List.getD_eq_getElem?_getD,
      List.getElem?_map]
    cases (word J k (n - k) d)[i]? <;> rfl
  unfold dispersalRoot
  rw [encode_eq hk hd hfits]
  have hfold := foldlM_insert hchunk {}
  simp only [hfold, List.nil_append]
  show (TreeT.rootNode ⟨none, (List.range n).map f⟩ >>= fun root => _) = _
  cases TreeT.rootNode ⟨none, (List.range n).map f⟩ <;> rfl

end

/-- Two messages of one length have different roots if and only if there is a place where they
differ among the first 32 bytes of a block. -/
theorem dispersalRoot_ne_iff {H : Type} (J : Jerasure) (leafHash : HashT → H)
    (hashFunction : H → H → H) (hleaf : Function.Injective leafHash)
    (hnode : Function.Injective2 hashFunction) (nreplicas nreconthres : ℕ)
    (hk : 0 < nreconthres) (hle : nreconthres ≤ nreplicas)
    (hJ : Bytewise J nreconthres (nreplicas - nreconthres)) (d d' : List UInt8) (hd : d ≠ [])
    (hlen : d.length = d'.length)
    (hfits : 64 * nreconthres * stripes d.length nreconthres < 2 ^ 31) :
    (∃ r r', dispersalRoot J leafHash hashFunction nreplicas nreconthres d = .ok r ∧
      dispersalRoot J leafHash hashFunction nreplicas nreconthres d' = .ok r' ∧ r ≠ r') ↔
        ∃ p < d.length, p % blockLen d nreconthres < 32 ∧ d[p]? ≠ d'[p]? := by
  have hd' : d' ≠ [] := by
    rw [← List.length_pos_iff] at hd ⊢
    omega
  have hfits' : 64 * nreconthres * stripes d'.length nreconthres < 2 ^ 31 := by
    rw [← hlen]
    exact hfits
  have hB : 32 ≤ blockLen d nreconthres := by
    have hpos := (blockLen_bounds hk hd hfits).1
    unfold blockLen at hpos ⊢
    omega
  have hcount : ∀ {e : List UInt8}, e ≠ [] →
      64 * nreconthres * stripes e.length nreconthres < 2 ^ 31 →
        (word J nreconthres (nreplicas - nreconthres) e).length = nreplicas := by
    intro e he hfits
    rw [(blocks_word hJ hk he hfits).count]
    omega
  obtain ⟨f, hf, hroot⟩ := exists_leaves hJ hk hle hd hfits
  obtain ⟨f', hf', hroot'⟩ := exists_leaves hJ hk hle hd' hfits'
  obtain ⟨t, t', ht, ht', hinj⟩ := hash_rootNode_inj hleaf hnode (hk.trans_le hle) f f'
  have hsame : (∀ i < nreplicas, f i = f' i) ↔
      ∀ p < d.length, p % blockLen d nreconthres < 32 → d[p]? = d'[p]? := by
    calc (∀ i < nreplicas, f i = f' i)
        ↔ ∀ i < nreplicas, (f i).bytes = (f' i).bytes := by simp only [HashT.ext_iff]
      _ ↔ ∀ q < 32, (word J nreconthres (nreplicas - nreconthres) d).map (fun b => b[q]?) =
            (word J nreconthres (nreplicas - nreconthres) d').map fun b => b[q]? := by
          rw [← take_eq_iff (hcount hd hfits) (hcount hd' hfits')]
          exact forall₂_congr fun i hi => by rw [hf i hi, hf' i hi]
      _ ↔ ∀ q < 32, ∀ p < d.length, p % blockLen d nreconthres = q → d[p]? = d'[p]? :=
          forall₂_congr fun q hq =>
            column_word_eq_iff hJ hk hd hlen hfits (lt_of_lt_of_le hq hB)
      _ ↔ ∀ p < d.length, p % blockLen d nreconthres < 32 → d[p]? = d'[p]? :=
          ⟨fun h p hp hq => h _ hq p hp rfl, fun h q hq p hp hmod => h p hp (hmod ▸ hq)⟩
  rw [hroot, hroot', ht, ht']
  constructor
  · rintro ⟨r, r', hr, hr', hne⟩
    cases hr
    cases hr'
    by_contra hall
    push Not at hall
    exact hne (hinj.mpr (hsame.mpr hall))
  · rintro ⟨p, hp, hq, hne⟩
    refine ⟨_, _, rfl, rfl, fun h => hne ?_⟩
    exact hsame.mp (hinj.mp h) p hp hq

/-- The code of one data block: every coding block is a copy of it, and any of the blocks restores
it. -/
def copyCode : Jerasure where
  Matrix := Unit
  vandermonde _ _ _ := ()
  matrixEncode _ m _ _ data _ := List.replicate m.toNatClampNeg (data.headD [])
  matrixDecode _ _ _ _ _ erasures data coding _ :=
    ((data ++ coding).zipIdx.find? fun b => Int32.ofNat b.2 ∉ erasures).map fun b => [b.1]

theorem copyCode_bytewise {m : ℕ} (hm : m < 2 ^ 31) : Bytewise copyCode 1 m where
  blocks := by
    intro data len _ _ _ hdata
    obtain ⟨b, rfl⟩ := List.length_eq_one_iff.mp hdata.count
    show Blocks m len (List.replicate (Int32.ofNat m).toNatClampNeg b)
    rw [Int32.toNatClampNeg_ofNat_of_lt hm]
    refine ⟨List.length_replicate, fun c hc => ?_⟩
    rw [List.eq_of_mem_replicate hc]
    exact hdata.size b List.mem_cons_self
  bytes := by
    intro data data' len _ _ _ hdata hdata' p h
    obtain ⟨b, rfl⟩ := List.length_eq_one_iff.mp hdata.count
    obtain ⟨b', rfl⟩ := List.length_eq_one_iff.mp hdata'.count
    have hbyte : b[p]? = b'[p]? := List.head_eq_of_cons_eq h
    show (List.replicate _ b).map _ = (List.replicate _ b').map _
    rw [List.map_replicate, List.map_replicate, hbyte]

theorem leaf_injective : Function.Injective (Tree.leaf : HashT → Tree HashT) :=
  fun _ _ h => Tree.leaf.inj h

theorem node_injective : Function.Injective2 (Tree.node : Tree HashT → Tree HashT → Tree HashT) :=
  fun _ _ _ _ h => Tree.node.inj h

theorem dispersalRoot_ne_first : ∃ r r',
    dispersalRoot copyCode Tree.leaf Tree.node 3 1 [1] = .ok r ∧
      dispersalRoot copyCode Tree.leaf Tree.node 3 1 [2] = .ok r' ∧ r ≠ r' :=
  (dispersalRoot_ne_iff copyCode Tree.leaf Tree.node leaf_injective node_injective 3 1 (by decide)
    (by decide) (copyCode_bytewise (by decide)) [1] [2] (by decide) (by decide) (by decide)).mpr
      ⟨0, by decide, by decide, by decide⟩

/-- Two messages of 33 bytes that differ in the last one. -/
theorem dispersalRoot_collides :
    Function.Injective (Tree.leaf : HashT → Tree HashT) ∧
      Function.Injective2 (Tree.node : Tree HashT → Tree HashT → Tree HashT) ∧
      Bytewise copyCode 1 2 ∧ List.replicate 32 0 ++ [0] ≠ List.replicate 32 (0 : UInt8) ++ [1] ∧
      ∃ r, dispersalRoot copyCode Tree.leaf Tree.node 3 1 (List.replicate 32 0 ++ [0]) = .ok r ∧
        dispersalRoot copyCode Tree.leaf Tree.node 3 1 (List.replicate 32 0 ++ [1]) = .ok r := by
  refine ⟨leaf_injective, node_injective, copyCode_bytewise (by decide), by decide, ?_⟩
  let zeros : HashT := ⟨List.replicate 32 0, rfl⟩
  exact ⟨.node (.node (.leaf zeros) (.leaf zeros)) (.leaf zeros), by rfl, by rfl⟩

end OptRand.Wire.Merkle
