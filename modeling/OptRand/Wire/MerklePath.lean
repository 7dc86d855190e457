import OptRand.Wire.MerkleTree
import Mathlib.Data.Nat.Bitwise

/-!
# Walking down a Merkle tree (`merklecpp.h`)

`walk_to` reads the way to a leaf off the bits of its index, from the top of a 64 bit number. A node
that is lower than the current height is passed. What is done at the nodes on the way is a function
`f`: `path` collects the siblings, `flush_to` conflates what is left of the way, `retract_to` drops
what is right of it.

The functions are compared with what they mean for a log: `Computed.path`, `Computed.flushTo`,
`Computed.retractTo`.
-/

namespace OptRand.Wire.MerkleTree

open Lib.MerkleLog

variable {H σ : Type}

/-- A `PathT`. -/
structure PathT (H : Type) where
  leaf : H
  leafIndex : ℕ
  elements : List (Element H)
  maxIndex : ℕ

/-- `root` of a path. -/
def PathT.root (op : H → H → H) (p : PathT H) : H := climb op p.leaf p.elements

/-- `verify` of a path. -/
def PathT.verify [DecidableEq H] (op : H → H → H) (p : PathT H) (expectedRoot : H) : Bool :=
  p.root op == expectedRoot

namespace Node

/-- `update_sizes`. -/
def updateSizes : Node H → Node H
  | leaf hash _ _ dirty => leaf hash 1 1 dirty
  | node hash left right _ _ dirty => above hash left right dirty

/-- What is beside a step from a node to one of its children. -/
def beside (left right : Node H) (goRight : Bool) : Element H :=
  if goRight then ⟨left.hash, .left⟩ else ⟨right.hash, .right⟩

end Node

/-! ## Walking -/

/-- What a turn of `walk_to` does with its node after the turns below it. -/
def seen (update : Bool) (r : σ × Node H × Node H) : σ × Node H × Node H :=
  (r.1, if update then r.2.1.updateSizes else r.2.1, r.2.2)

/-- The loop of `walk_to`: the state, the node that `cur` has become and the node at the end.
Whatever `f` does not say to go on with is visited again. There is no result if the loop does not
end within `fuel` turns, or goes to a child that is not there. -/
def walk (f : σ → Node H → Bool → σ × Node H × Bool) (update : Bool) :
    ℕ → ℕ → BitVec 64 → σ → Node H → Option (σ × Node H × Node H)
  | 0, _, _, _, _ => none
  | fuel + 1, height, it, s, cur =>
    if height ≤ 1 then some (s, cur, cur)
    else
      let goRight := it.msb
      if cur.height = height then
        match f s cur goRight with
        | (s, cur, false) => (walk f update fuel height it s cur).map (seen update)
        | (_, .leaf _ _ _ _, true) => none
        | (s, .node hash left right size h dirty, true) =>
          (walk f update fuel (height - 1) (it <<< 1) s (if goRight then right else left)).map
            fun r => seen update (r.1,
              if goRight then .node hash left r.2.1 size h dirty
              else .node hash r.2.1 right size h dirty, r.2.2)
      else (walk f update fuel (height - 1) (it <<< 1) s cur).map (seen update)

namespace TreeT

variable [Inhabited H] (op : H → H → H) (t : TreeT H)

omit [Inhabited H] in
/-- The end of `walk_to`, with the tree that the loop leaves. -/
def walked : Option (σ × Node H × Node H) → Except Error (TreeT H × σ × Node H)
  | none => throw .undefined
  | some (s, root, last) => return ({ t with position := some ⟨root, []⟩ }, s, last)

omit [Inhabited H] in
/-- The bits of an index that a walk starts with at the height of the root. -/
def firstBits (height index : ℕ) : BitVec 64 :=
  if 1 < height then BitVec.ofNat 64 index <<< (65 - height) else 0

/-- `walk_to`. A height is visited at most twice. -/
def walkTo (index : ℕ) (update : Bool) (f : σ → Node H → Bool → σ × Node H × Bool) (s : σ) :
    Except Error (TreeT H × σ × Node H) :=
  if index < t.minIndex ∨ t.maxIndex < index then throw (.runtimeError "invalid leaf index")
  else do
    let (t, root) ← t.computeRoot op
    t.walked (walk f update (2 * root.height) root.height (firstBits root.height index) s root)

omit [Inhabited H] in
/-- `leaf_node`: the hash of the leaf. -/
def leafNode (index : ℕ) : Except Error H :=
  if t.numLeaves ≤ index then throw (.runtimeError "leaf index out of bounds")
  else if index < t.numFlushed then throw .undefined
  else
    match (t.leafNodes ++ t.uninsertedLeafNodes)[index - t.numFlushed]? with
    | none => throw .undefined
    | some hash => return hash

/-- What `path` does at a node. -/
def pathStep (elements : List (Element H)) (n : Node H) (goRight : Bool) :
    List (Element H) × Node H × Bool :=
  match n with
  | .leaf _ _ _ _ => (elements, n, true)
  | .node _ left right _ _ _ => (left.beside right goRight :: elements, n, true)

/-- `path`. -/
def path (index : ℕ) : Except Error (TreeT H × PathT H) := do
  let (t, elements, _) ← t.walkTo op index false pathStep []
  let leaf ← t.leafNode index
  return (t, ⟨leaf, index, elements, t.maxIndex⟩)

/-- `past_root`. -/
def pastRoot (index : ℕ) : Except Error (TreeT H × H) := do
  let (t, p) ← t.path op index
  return (t, p.elements.foldl (fun result e =>
    if e.direction = .left then op e.hash result else result) p.leaf)

/-- What `flush_to` does at a node. -/
def flushStep (_ : Unit) (n : Node H) (goRight : Bool) : Unit × Node H × Bool :=
  match n with
  | .leaf _ _ _ _ => ((), n, true)
  | .node hash left right size height dirty =>
    if goRight then
      let left := if left.dirty then left.rehash op else left
      ((), .node hash (.leaf left.hash left.size left.height left.dirty) right size height dirty,
        true)
    else ((), n, true)

/-- `flush_to`. -/
def flushTo (index : ℕ) : Except Error (TreeT H) :=
  if index ≤ t.minIndex then return t
  else do
    let (t, _, _) ← t.walkTo op index false (flushStep op) ()
    return { t with leafNodes := t.leafNodes.drop (index - t.numFlushed), numFlushed := index }

/-- What `retract_to` does at a node. -/
def retractStep (_ : Unit) (n : Node H) (goRight : Bool) : Unit × Node H × Bool :=
  match n with
  | .leaf hash size height _ => ((), .leaf hash size height true, true)
  | .node hash left right size height _ =>
    if goRight then ((), .node hash left right size height true, true)
    else
      match left with
      | .leaf _ _ _ _ => ((), left, false)
      | .node hash left right size height _ => ((), .node hash left right size height true, false)

omit [Inhabited H] in
/-- The leaf nodes that `retract_to` keeps. -/
def keep (leafNodes : List H) (numRetracted : ℕ) : List H :=
  if numRetracted < leafNodes.length then leafNodes.take (leafNodes.length - numRetracted)
  else []

/-- `retract_to`. -/
def retractTo (index : ℕ) : Except Error (TreeT H) :=
  if t.maxIndex < index then return t
  else if index < t.minIndex then throw (.runtimeError "leaf index out of bounds")
  else if t.numFlushed + t.leafNodes.length ≤ index then
    let excess := index - (t.numFlushed + t.leafNodes.length) + 1
    return { t with uninsertedLeafNodes := t.uninsertedLeafNodes.take excess }
  else do
    let (t, _, last) ← t.walkTo op index true retractStep ()
    let leafNodes := t.leafNodes.set (index - t.numFlushed) last.hash
    return { t with leafNodes := keep leafNodes (t.numLeaves - index - 1) }

end TreeT

/-! ## The bits of an index -/

/-- At the height of level `h + 1` the top bit is bit `h` of the index. -/
theorem msb_shiftLeft {index h : ℕ} (hh : h + 1 < 64) :
    (BitVec.ofNat 64 index <<< (65 - (h + 1 + 1))).msb = index.testBit h := by
  rw [BitVec.msb_eq_getLsbD_last, BitVec.getLsbD_shiftLeft, BitVec.getLsbD_ofNat]
  have hbit : 64 - 1 - (65 - (h + 1 + 1)) = h := by omega
  rw [hbit, decide_eq_true (by omega), decide_eq_false (by omega), decide_eq_true (by omega)]
  rfl

theorem shiftLeft_succ {index height : ℕ} (hle : height ≤ 64) :
    BitVec.ofNat 64 index <<< (65 - (height + 1)) <<< 1 =
      BitVec.ofNat 64 index <<< (65 - height) := by
  rw [← BitVec.shiftLeft_add]
  congr 1
  omega

/-! ## One turn of the loop -/

theorem seen_eq {s : σ} {t last : Node H} (h : t.updateSizes = t) :
    seen true (s, t, last) = (s, t, last) := by
  show (s, t.updateSizes, last) = _
  rw [h]

section

variable {f : σ → Node H → Bool → σ × Node H × Bool} {update : Bool} {fuel height : ℕ}
  {it : BitVec 64} {s s' : σ} {cur : Node H}

theorem walk_end (hle : height ≤ 1) :
    walk f update (fuel + 1) height it s cur = some (s, cur, cur) := by
  show (if _ then _ else _) = _
  rw [if_pos hle]

theorem walk_pass (hlt : 1 < height) (hcur : cur.height ≠ height) :
    walk f update (fuel + 1) height it s cur =
      (walk f update fuel (height - 1) (it <<< 1) s cur).map (seen update) := by
  show (if _ then _ else if _ then _ else _) = _
  rw [if_neg (by omega), if_neg hcur]

theorem walk_again (hlt : 1 < height) (hcur : cur.height = height) {cur' : Node H}
    (hf : f s cur it.msb = (s', cur', false)) :
    walk f update (fuel + 1) height it s cur =
      (walk f update fuel height it s' cur').map (seen update) := by
  show (if _ then _ else if _ then _ else _) = _
  rw [if_neg (by omega), if_pos hcur, hf]

theorem walk_down (hlt : 1 < height) (hcur : cur.height = height) {hash : H}
    {left right : Node H} {size h : ℕ} {dirty : Bool}
    (hf : f s cur it.msb = (s', .node hash left right size h dirty, true)) :
    walk f update (fuel + 1) height it s cur =
      (walk f update fuel (height - 1) (it <<< 1) s' (if it.msb then right else left)).map
        fun r => seen update (r.1,
          if it.msb then .node hash left r.2.1 size h dirty
          else .node hash r.2.1 right size h dirty, r.2.2) := by
  show (if _ then _ else if _ then _ else _) = _
  rw [if_neg (by omega), if_pos hcur, hf]

end

/-! ## The siblings on the way -/

section

variable {op : H → H → H} {leaf : ℕ → H} {n k h j index : ℕ} {t : Node H}

/-- A tree at the root is as high as its log needs. -/
theorem Node.Represents.lower (hk : k < n) (hn : n ≤ 2 ^ h)
    (ht : Represents op leaf n k h 0 t) :
    ∃ l, t.height = l + 1 ∧ n ≤ 2 ^ l ∧ (l = 0 ∨ 2 ^ (l - 1) < n) ∧
      Represents op leaf n k l 0 t := by
  induction h with
  | zero =>
    refine ⟨0, ?_, hn, Or.inl rfl, ht⟩
    cases ht
    rfl
  | succ h ih =>
    cases ht with
    | flushed _ _ hkj => omega
    | above hkj hlt hleft hright clean =>
      refine ⟨h + 1, height_over_eq hlt hleft hright, hn, Or.inr ?_, ?_⟩
      · rw [Nat.mul_zero, Nat.zero_add, Nat.one_mul] at hlt
        exact hlt
      · exact .above hkj hlt hleft hright clean
    | short _ hle hleft =>
      rw [Nat.mul_zero, Nat.zero_add, Nat.one_mul] at hle
      exact ih hle hleft

/-- The node below another one on the way to a leaf. -/
theorem div_pow_eq (hj : j = index / 2 ^ (h + 1)) :
    index / 2 ^ h = 2 * j + (index.testBit h).toNat := by
  rw [div_pow_succ] at hj
  rw [Nat.toNat_testBit]
  omega

/-- The child that a step of the walk goes to. -/
theorem Node.Represents.child {left right : Node H} (hj : j = index / 2 ^ (h + 1))
    (hleft : Represents op leaf n k h (2 * j) left)
    (hright : Represents op leaf n k h (2 * j + 1) right) :
    Represents op leaf n k h (index / 2 ^ h)
      (if index.testBit h = true then right else left) := by
  rw [div_pow_eq hj]
  cases index.testBit h with
  | false => exact hleft
  | true => exact hright

/-- The sibling on the way to a leaf, read off the nodes of a clean tree. -/
theorem Node.Represents.sibling_eq {left right : Node H} (hj : j = index / 2 ^ (h + 1))
    (hn : (2 * j + 1) * 2 ^ h < n) (hleft : Represents op leaf n k h (2 * j) left)
    (hright : Represents op leaf n k h (2 * j + 1) right) (hcleanl : left.dirty = false)
    (hcleanr : right.dirty = false) :
    sibling op leaf n h (index / 2 ^ h) = [left.beside right (index.testBit h)] := by
  have hbefore := half_lt h j
  have hstart := two_mul_pow h j
  rw [div_pow_eq hj]
  unfold sibling
  cases index.testBit h with
  | false =>
    rw [Bool.toNat_false, Nat.add_zero, if_neg (by omega), if_pos hn,
      ← hright.hash_eq hn hcleanr]
    rfl
  | true =>
    rw [Bool.toNat_true, if_pos (by omega), Nat.add_sub_cancel,
      ← hleft.hash_eq (by omega) hcleanl]
    rfl

/-- A node without a right half has the leaf in its left half. -/
theorem testBit_of_short (hj : j = index / 2 ^ (h + 1)) (hi : index < n)
    (hn : n ≤ (2 * j + 1) * 2 ^ h) : index.testBit h = false := by
  have hle := mul_pow_le index h
  rw [div_pow_eq hj] at hle
  cases hbit : index.testBit h with
  | false => rfl
  | true =>
    rw [hbit] at hle
    change (2 * j + 1) * 2 ^ h ≤ index at hle
    omega

theorem sibling_eq_nil (hj : j = index / 2 ^ (h + 1)) (hi : index < n)
    (hn : n ≤ (2 * j + 1) * 2 ^ h) : sibling op leaf n h (index / 2 ^ h) = [] := by
  rw [div_pow_eq hj, testBit_of_short hj hi hn, Bool.toNat_false, Nat.add_zero, sibling,
    if_neg (by omega), if_neg (by omega)]

/-- Walking down a clean tree with an `f` that looks at the sibling of each step and leaves the node
as it is. -/
theorem walk_observe {f : σ → Node H → Bool → σ × Node H × Bool} {g : Element H → σ → σ}
    (hf : ∀ s hash left right size height dirty b, f s (.node hash left right size height dirty) b =
      (g (left.beside right b) s, .node hash left right size height dirty, true))
    (hk : k ≤ index) (hi : index < n) (ht : Node.Represents op leaf n k h j t)
    (hclean : t.dirty = false) (hj : j = index / 2 ^ h) (hh : h < 64) {fuel : ℕ} (hfuel : h < fuel)
    (s : σ) : walk f false fuel (h + 1) (BitVec.ofNat 64 index <<< (65 - (h + 1))) s t =
      some ((path op leaf n index h).foldr g s, t, .make (leaf index)) := by
  induction ht generalizing fuel s with
  | leaf j =>
    obtain ⟨fuel, rfl⟩ : ∃ m, fuel = m + 1 := ⟨fuel - 1, by omega⟩
    rw [pow_zero, Nat.div_one] at hj
    rw [walk_end (by omega), hj]
    rfl
  | flushed h j hkj =>
    have hlt := lt_succ_mul_pow index (h + 1)
    rw [← hj] at hlt
    omega
  | @above h j hash left right dirty _ hn hleft hright clean ihl ihr =>
    obtain ⟨fuel, rfl⟩ : ∃ m, fuel = m + 1 := ⟨fuel - 1, by omega⟩
    obtain ⟨-, hcleanl, hcleanr⟩ := clean hclean
    have hheight : (Node.above hash left right dirty).height = h + 1 + 1 :=
      Node.Represents.height_over_eq hn hleft hright
    have hbit : (BitVec.ofNat 64 index <<< (65 - (h + 1 + 1))).msb = index.testBit h :=
      msb_shiftLeft hh
    have hdiv := div_pow_eq hj
    rw [walk_down (by omega) hheight (hf _ _ _ _ _ _ _ _), hbit, Nat.add_sub_cancel,
      shiftLeft_succ (by omega), path, List.foldr_append,
      Node.Represents.sibling_eq hj hn hleft hright hcleanl hcleanr]
    cases hgo : index.testBit h with
    | false =>
      rw [hgo] at hdiv
      rw [if_neg Bool.false_ne_true, ihl hcleanl hdiv.symm (by omega) (by omega)]
      rfl
    | true =>
      rw [hgo] at hdiv
      rw [if_pos rfl, ihr hcleanr hdiv.symm (by omega) (by omega)]
      rfl
  | @short h j t _ hn hleft ih =>
    obtain ⟨fuel, rfl⟩ : ∃ m, fuel = m + 1 := ⟨fuel - 1, by omega⟩
    have hheight := hleft.height_le
    have hdiv := div_pow_eq hj
    rw [testBit_of_short hj hi hn] at hdiv
    rw [walk_pass (by omega) (by omega), Nat.add_sub_cancel, shiftLeft_succ (by omega),
      ih hclean hdiv.symm (by omega) (by omega), path, sibling_eq_nil hj hi hn, List.append_nil]
    rfl

/-! ## Flushing -/

/-- A clean node without its children is a flushed one. -/
theorem Node.Represents.conflate (hk : k ≤ n) (hj : j * 2 ^ h < n)
    (ht : Represents op leaf n k h j t) (hclean : t.dirty = false) (hn : (j + 1) * 2 ^ h ≤ n)
    {k' : ℕ} (hk' : (j + 1) * 2 ^ h ≤ k') :
    Represents op leaf n k' h j (.leaf t.hash t.size t.height t.dirty) := by
  have hhash := ht.hash_eq hj hclean
  have hheight := ht.height_of_full hn
  have hfull := isFull_iff.mp (ht.isFull_of_full hk hn)
  rw [hhash, hfull, hheight, hclean]
  cases h with
  | zero => exact .leaf j
  | succ h => exact .flushed h j hk'

/-- `flush_to` walks to the leaf and flushes what is before it. -/
theorem walk_flush (hk : k ≤ index) (hi : index < n) (ht : Node.Represents op leaf n k h j t)
    (hclean : t.dirty = false) (hj : j = index / 2 ^ h) (hh : h < 64) {fuel : ℕ}
    (hfuel : h < fuel) :
    ∃ t', walk (TreeT.flushStep op) false fuel (h + 1) (BitVec.ofNat 64 index <<< (65 - (h + 1)))
        () t = some ((), t', .make (leaf index)) ∧
      Node.Represents op leaf n index h j t' ∧ t'.dirty = false ∧ t'.size = t.size ∧
        t'.height = t.height := by
  induction ht generalizing fuel with
  | leaf j =>
    obtain ⟨fuel, rfl⟩ : ∃ m, fuel = m + 1 := ⟨fuel - 1, by omega⟩
    rw [pow_zero, Nat.div_one] at hj
    rw [walk_end (by omega), hj]
    exact ⟨_, rfl, .leaf index, rfl, rfl, rfl⟩
  | flushed h j hkj =>
    have hlt := lt_succ_mul_pow index (h + 1)
    rw [← hj] at hlt
    omega
  | @above h j hash left right dirty hkj hn hleft hright clean ihl ihr =>
    obtain ⟨fuel, rfl⟩ : ∃ m, fuel = m + 1 := ⟨fuel - 1, by omega⟩
    obtain ⟨hhash, hcleanl, hcleanr⟩ := clean hclean
    have hheight : (Node.above hash left right dirty).height = h + 1 + 1 :=
      Node.Represents.height_over_eq hn hleft hright
    have hbit : (BitVec.ofNat 64 index <<< (65 - (h + 1 + 1))).msb = index.testBit h :=
      msb_shiftLeft hh
    have hdiv := div_pow_eq hj
    have hbefore := half_lt h j
    have hstart := two_mul_pow h j
    have hlt := lt_succ_mul_pow index (h + 1)
    rw [← hj] at hlt
    cases hgo : index.testBit h with
    | false =>
      rw [hgo, Bool.toNat_false, Nat.add_zero] at hdiv
      rw [hgo] at hbit
      have hlow := lt_succ_mul_pow index h
      rw [hdiv] at hlow
      obtain ⟨l, hwalk, hrep, hdirty, hsize, hheightl⟩ :=
        ihl hcleanl hdiv.symm (by omega) (show h < fuel by omega)
      refine ⟨.above hash l right dirty, ?_, .above hlt hn hrep ?_ ?_, hclean, ?_, ?_⟩
      · have hf : TreeT.flushStep op () (.above hash left right dirty)
            (BitVec.ofNat 64 index <<< (65 - (h + 1 + 1))).msb =
              ((), .above hash left right dirty, true) := by
          rw [hbit]
          rfl
        rw [walk_down (by omega) hheight hf, hbit, Nat.add_sub_cancel, shiftLeft_succ (by omega),
          if_neg Bool.false_ne_true, hwalk]
        unfold Node.above
        rw [hsize, hheightl]
        rfl
      · apply hright.congr hn
        · exact fun i hle _ => ⟨Iff.rfl, by omega⟩
        · exact fun i _ _ _ => rfl
      · exact fun _ => ⟨hhash, hdirty, hcleanr⟩
      · rw [Node.size_above, Node.size_above, hsize]
      · rw [Node.height_above, Node.height_above, hheightl]
    | true =>
      rw [hgo, Bool.toNat_true] at hdiv
      rw [hgo] at hbit
      have hhigh := mul_pow_le index h
      rw [hdiv] at hhigh
      obtain ⟨r, hwalk, hrep, hdirty, hsize, hheightr⟩ :=
        ihr hcleanr hdiv.symm (by omega) (show h < fuel by omega)
      refine ⟨.above hash (.leaf left.hash left.size left.height left.dirty) r dirty, ?_,
        .above hlt hn (hleft.conflate (by omega) (by omega) hcleanl hn.le hhigh) hrep ?_, hclean,
        ?_, ?_⟩
      · have hf : TreeT.flushStep op () (.above hash left right dirty)
            (BitVec.ofNat 64 index <<< (65 - (h + 1 + 1))).msb = ((),
              .node hash (.leaf left.hash left.size left.height left.dirty) right
                (left.size + right.size + 1) (max left.height right.height + 1) dirty, true) := by
          rw [hbit]
          unfold TreeT.flushStep Node.above
          simp only [hcleanl, if_true, Bool.false_eq_true, if_false]
        rw [walk_down (by omega) hheight hf, hbit, Nat.add_sub_cancel, shiftLeft_succ (by omega),
          if_pos rfl, hwalk]
        unfold Node.above
        rw [hsize, hheightr]
        rfl
      · exact fun _ => ⟨hhash, hcleanl, hdirty⟩
      · rw [Node.size_above, Node.size_above, hsize]
        rfl
      · rw [Node.height_above, Node.height_above, hheightr]
        rfl
  | @short h j t hkj hn hleft ih =>
    obtain ⟨fuel, rfl⟩ : ∃ m, fuel = m + 1 := ⟨fuel - 1, by omega⟩
    have hheight := hleft.height_le
    have hdiv := div_pow_eq hj
    have hlt := lt_succ_mul_pow index (h + 1)
    rw [← hj] at hlt
    rw [testBit_of_short hj hi hn] at hdiv
    obtain ⟨t', hwalk, hrep, hrest⟩ := ih hclean hdiv.symm (by omega)
      (show h < fuel by omega)
    refine ⟨t', ?_, .short hlt hn hrep, hrest⟩
    rw [walk_pass (by omega) (by omega), Nat.add_sub_cancel, shiftLeft_succ (by omega), hwalk]
    rfl

/-! ## Retracting -/

/-- What `retract_to` leaves in place of a node: the node marked dirty, if it has children. -/
def Node.marked : Node H → Node H
  | .leaf hash size height dirty => .leaf hash size height dirty
  | .node hash left right size height _ => .node hash left right size height true

theorem Node.height_marked : t.marked.height = t.height := by
  cases t <;> rfl

theorem Node.Represents.marked (ht : Represents op leaf n k h j t) :
    Represents op leaf n k h j t.marked := by
  induction ht with
  | leaf j => exact .leaf j
  | flushed h j hk => exact .flushed h j hk
  | above hk hn hleft hright _ _ _ => exact .above hk hn hleft hright fun h => by cases h
  | short hk hn _ ih => exact .short hk hn ih

theorem retractStep_left {hash : H} {left right : Node H} {dirty : Bool} :
    TreeT.retractStep () (.above hash left right dirty) false = ((), left.marked, false) := by
  cases left <;> rfl

/-- The sizes of what is not flushed need no update. -/
theorem Node.Represents.updateSizes (hk : k < n) (hkj : k < (j + 1) * 2 ^ h)
    (ht : Represents op leaf n k h j t) : t.updateSizes = t := by
  induction ht with
  | leaf j => rfl
  | flushed h j hle => omega
  | above _ _ _ _ _ _ _ => rfl
  | short _ hn _ ih => exact ih (by omega)

/-- `retract_to` walks to the leaf and drops what is after it. -/
theorem walk_retract (hk : k ≤ index) (hi : index < n) (ht : Node.Represents op leaf n k h j t)
    (hj : j = index / 2 ^ h) (hh : h < 64) {fuel : ℕ} (hfuel : 2 * h < fuel) :
    ∃ t', walk TreeT.retractStep true fuel (h + 1) (BitVec.ofNat 64 index <<< (65 - (h + 1))) () t =
        some ((), t', .make (leaf index)) ∧ Node.Represents op leaf (index + 1) k h j t' := by
  induction h generalizing j t fuel with
  | zero =>
    obtain ⟨fuel, rfl⟩ : ∃ m, fuel = m + 1 := ⟨fuel - 1, by omega⟩
    cases ht
    rw [pow_zero, Nat.div_one] at hj
    rw [walk_end (by omega), hj]
    exact ⟨_, rfl, .leaf index⟩
  | succ h ih =>
    obtain ⟨fuel, rfl⟩ : ∃ m, fuel = m + 2 := ⟨fuel - 2, by omega⟩
    have hbit : (BitVec.ofNat 64 index <<< (65 - (h + 1 + 1))).msb = index.testBit h :=
      msb_shiftLeft hh
    have hdiv := div_pow_eq hj
    have hlt := lt_succ_mul_pow index (h + 1)
    rw [← hj] at hlt
    cases ht with
    | flushed _ _ hkj => omega
    | @above _ _ hash left right dirty hkj hn hleft hright clean =>
      have hheight : (Node.above hash left right dirty).height = h + 1 + 1 :=
        Node.Represents.height_over_eq hn hleft hright
      cases hgo : index.testBit h with
      | false =>
        rw [hgo, Bool.toNat_false, Nat.add_zero] at hdiv
        rw [hgo] at hbit
        have hlow := lt_succ_mul_pow index h
        rw [hdiv] at hlow
        have hheightl := hleft.height_le
        have hpass : left.marked.height ≠ h + 1 + 1 := by
          rw [Node.height_marked]
          omega
        obtain ⟨t', hwalk, hrep⟩ := ih hleft.marked hdiv.symm (by omega)
          (show 2 * h < fuel by omega)
        have hrep' : Node.Represents op leaf (index + 1) k (h + 1) j t' := .short hkj hlow hrep
        refine ⟨t', ?_, hrep'⟩
        rw [walk_again (by omega) hheight (by rw [hbit]; exact retractStep_left),
          walk_pass (by omega) hpass, Nat.add_sub_cancel, shiftLeft_succ (by omega), hwalk]
        have hsizes := hrep'.updateSizes (by omega) hkj
        rw [Option.map_some, seen_eq hsizes, Option.map_some, seen_eq hsizes]
      | true =>
        rw [hgo, Bool.toNat_true] at hdiv
        rw [hgo] at hbit
        have hhigh := mul_pow_le index h
        rw [hdiv] at hhigh
        have hbefore := half_lt h j
        have hstart := two_mul_pow h j
        obtain ⟨r, hwalk, hrep⟩ := ih hright hdiv.symm (by omega)
          (show 2 * h < fuel + 1 by omega)
        refine ⟨.above hash left r true, ?_, .above hkj (by omega) ?_ hrep (fun h => by cases h)⟩
        · have hf : TreeT.retractStep () (.above hash left right dirty)
              (BitVec.ofNat 64 index <<< (65 - (h + 1 + 1))).msb =
                ((), .above hash left right true, true) := by
            rw [hbit]
            rfl
          rw [walk_down (by omega) hheight hf, hbit, Nat.add_sub_cancel, shiftLeft_succ (by omega),
            if_pos rfl, hwalk]
          rfl
        · apply hleft.congr (by omega)
          · exact fun i _ _ => by omega
          · exact fun i _ _ _ => rfl
    | short hkj hn hleft =>
      have hheight := hleft.height_le
      rw [testBit_of_short hj hi hn] at hdiv
      obtain ⟨t', hwalk, hrep⟩ := ih hleft hdiv.symm (by omega)
        (show 2 * h < fuel + 1 by omega)
      have hrep' : Node.Represents op leaf (index + 1) k (h + 1) j t' := .short hkj (by omega) hrep
      refine ⟨t', ?_, hrep'⟩
      rw [walk_pass (by omega) (by omega), Nat.add_sub_cancel, shiftLeft_succ (by omega), hwalk]
      rw [Option.map_some, seen_eq (hrep'.updateSizes (by omega) hkj)]

end

/-! ## The functions of the tree -/

/-- The path of a leaf in a log. -/
def Log.path [Inhabited H] (op : H → H → H) (log : Log H) (index : ℕ) : PathT H :=
  ⟨log.leaf index, index, Lib.MerkleLog.path op log.leaf log.leaves.length index log.leaves.length,
    log.leaves.length - 1⟩

/-- The log with the leaves before `index` flushed. -/
def Log.flushTo (log : Log H) (index : ℕ) (h : index < log.leaves.length) : Log H :=
  ⟨log.leaves, index, Or.inr h⟩

/-- The log with the leaves after `index` dropped. -/
def Log.retractTo (log : Log H) (index : ℕ) (hmin : log.flushed ≤ index) : Log H :=
  ⟨log.leaves.take (index + 1), log.flushed, by
    have hvalid := log.valid
    rw [List.length_take]
    omega⟩

section

variable [Inhabited H] {op : H → H → H} {t : TreeT H} {log : Log H} {root : Node H} {index : ℕ}

theorem Log.leaf_take {m i : ℕ} (hi : i < m) : (log.leaves.take m).getD i default = log.leaf i := by
  unfold Log.leaf
  rw [List.getD_eq_getElem?_getD, List.getElem?_take_of_lt hi, List.getD_eq_getElem?_getD]

/-- As long as there are no more leaves `is_full` does not overflow. -/
def maxLeaves : ℕ := 2 ^ 29

namespace TreeT

/-- The tree that `compute_root` leaves is as high as its log needs. -/
theorem Computed.lower (h : t.Computed op log root) (hbound : log.leaves.length ≤ maxLeaves) :
    ∃ l, root.height = l + 1 ∧ log.leaves.length ≤ 2 ^ l ∧ l < 64 ∧
      Node.Represents op log.leaf log.leaves.length log.flushed l 0 root := by
  obtain ⟨m, hm, hrep⟩ := h.represents
  obtain ⟨l, hheight, hl, hmin, hlow⟩ := hrep.lower h.kept hm
  refine ⟨l, hheight, hl, ?_, hlow⟩
  rcases hmin with rfl | hlt
  · omega
  · by_contra hge
    have hpow : 2 ^ 63 ≤ 2 ^ (l - 1) := Nat.pow_le_pow_right (by omega) (by omega)
    unfold maxLeaves at hbound
    omega

omit [Inhabited H] in
theorem firstBits_eq (l i : ℕ) : firstBits (l + 1) i = BitVec.ofNat 64 i <<< (65 - (l + 1)) := by
  unfold firstBits
  split
  · rfl
  · rw [BitVec.shiftLeft_eq_zero (by omega)]
    rfl

/-- A walk is one in the tree that `compute_root` leaves. -/
theorem Models.walkTo_eq (h : t.Models op log) (hmin : log.flushed ≤ index)
    (hmax : index < log.leaves.length) (hbound : log.leaves.length ≤ maxLeaves) :
    ∃ (t' : TreeT H) (root : Node H) (l : ℕ), t'.Computed op log root ∧
      log.leaves.length ≤ 2 ^ l ∧ l < 64 ∧
      Node.Represents op log.leaf log.leaves.length log.flushed l 0 root ∧
      ∀ {σ : Type} update f (s : σ), t.walkTo op index update f s = t'.walked
        (walk f update (2 * (l + 1)) (l + 1) (BitVec.ofNat 64 index <<< (65 - (l + 1))) s root) := by
  have hne : log.leaves ≠ [] := by
    rw [← List.length_pos_iff]
    omega
  obtain ⟨t', root, hroot, hcomputed⟩ := h.computeRoot hne
  obtain ⟨l, hheight, hl, hl64, hlow⟩ := hcomputed.lower hbound
  refine ⟨t', root, l, hcomputed, hl, hl64, hlow, fun update f s => ?_⟩
  have hmaxIndex := h.maxIndex
  unfold walkTo
  rw [if_neg (by rw [TreeT.minIndex, h.flushed, hmaxIndex]; omega), hroot]
  show t'.walked (walk _ _ _ _ (firstBits _ _) _ _) = _
  rw [hheight, firstBits_eq]

theorem Computed.position_eq (h : t.Computed op log root) :
    ({ t with position := some ⟨root, []⟩ } : TreeT H) = t := by
  rw [← h.position]

theorem Models.leafNode (h : t.Models op log) (hmin : log.flushed ≤ index)
    (hmax : index < log.leaves.length) : t.leafNode index = .ok (log.leaf index) := by
  have hnum := h.numLeaves
  unfold TreeT.leafNode
  rw [if_neg (by omega), if_neg (by rw [h.flushed]; omega), h.leaves, h.flushed,
    List.getElem?_drop, Nat.add_sub_cancel' hmin, List.getElem?_eq_getElem hmax, Log.leaf,
    List.getD_eq_getElem _ _ hmax]
  rfl

/-- `path` gives the path of the leaf. -/
theorem Models.path (h : t.Models op log) (hmin : log.flushed ≤ index)
    (hmax : index < log.leaves.length) (hbound : log.leaves.length ≤ maxLeaves) :
    ∃ t', t.path op index = .ok (t', log.path op index) ∧ t'.Models op log := by
  obtain ⟨t', root, l, hcomputed, hl, hl64, hrep, hwalk⟩ := h.walkTo_eq hmin hmax hbound
  have hpath := walk_observe (f := TreeT.pathStep) (g := List.cons) (fun _ _ _ _ _ _ _ _ => rfl)
    hmin hmax hrep hcomputed.clean (Nat.div_eq_of_lt (by omega)).symm hl64
    (show l < 2 * (l + 1) by omega) []
  refine ⟨t', ?_, hcomputed.models⟩
  unfold TreeT.path
  rw [hwalk, hpath]
  show (TreeT.leafNode { t' with position := some ⟨root, []⟩ } index >>= fun leaf => _) = _
  rw [hcomputed.position_eq, hcomputed.models.leafNode hmin hmax]
  show Except.ok (t', PathT.mk _ index (List.foldr List.cons [] _) t'.maxIndex) = _
  rw [List.foldr_cons_nil, hcomputed.models.maxIndex, path_eq hmax hl Nat.lt_two_pow_self.le]
  rfl

/-- `past_root` gives the root that the log had when the leaf was its last one. -/
theorem Models.pastRoot (h : t.Models op log) (hmin : log.flushed ≤ index)
    (hmax : index < log.leaves.length) (hbound : log.leaves.length ≤ maxLeaves) :
    ∃ t', t.pastRoot op index = .ok (t', rootHash op log.leaf (index + 1)) ∧
      t'.Models op log := by
  obtain ⟨t', hpath, hmodels⟩ := h.path hmin hmax hbound
  refine ⟨t', ?_, hmodels⟩
  unfold TreeT.pastRoot
  rw [hpath]
  show Except.ok (t', List.foldl _ _ (Lib.MerkleLog.path op log.leaf _ index _)) = _
  have hleft : ∀ (es : List (Element H)) (x : H),
      es.foldl (fun result e => if e.direction = .left then op e.hash result else result) x =
        climb op x (es.filter fun e => e.direction = .left) := by
    intro es x
    rw [← foldl_filter_left, List.foldl_filter]
    simp only [decide_eq_true_eq]
  have hlevel : index + 1 ≤ 2 ^ log.leaves.length := hmax.trans_le Nat.lt_two_pow_self.le
  have hclimb : climb op (log.leaf index)
      (Lib.MerkleLog.path op log.leaf (index + 1) index log.leaves.length) =
        rootHash op log.leaf (index + 1) := climb_path_root (Nat.lt_succ_self index) hlevel
  rw [hleft, filter_path hmax]
  exact congrArg (fun r => Except.ok (t', r)) hclimb

/-- `flush_to` forgets what is before the leaf. -/
theorem Models.flushTo (h : t.Models op log) (hmin : log.flushed < index)
    (hmax : index < log.leaves.length) (hbound : log.leaves.length ≤ maxLeaves) :
    ∃ t', t.flushTo op index = .ok t' ∧ t'.Models op (log.flushTo index hmax) := by
  obtain ⟨t', root, l, hcomputed, hl, hl64, hrep, hwalk⟩ := h.walkTo_eq hmin.le hmax hbound
  obtain ⟨root', hflush, hrep', hclean, -, -⟩ := walk_flush hmin.le hmax hrep hcomputed.clean
    (Nat.div_eq_of_lt (by omega)).symm hl64 (show l < 2 * (l + 1) by omega)
  refine ⟨{ t' with
    position := some ⟨root', []⟩
    leafNodes := t'.leafNodes.drop (index - t'.numFlushed)
    numFlushed := index }, ?_, Computed.models ⟨rfl, ?_, hcomputed.inserted, rfl,
      hclean, hmax, l, hl, hrep'⟩⟩
  · unfold TreeT.flushTo
    rw [if_neg (by rw [TreeT.minIndex, h.flushed]; omega), hwalk, hflush]
    rfl
  · show t'.leafNodes.drop (index - t'.numFlushed) = log.leaves.drop index
    rw [hcomputed.leaves, hcomputed.flushed, List.drop_drop, Nat.add_sub_cancel' hmin.le]

/-- `retract_to` drops what is after the leaf. -/
theorem Models.retractTo (h : t.Models op log) (hmin : log.flushed ≤ index)
    (hmax : index < log.leaves.length) (hbound : log.leaves.length ≤ maxLeaves) :
    ∃ t', t.retractTo op index = .ok t' ∧ t'.Models op (log.retractTo index hmin) := by
  have hnum := h.numLeaves
  have hmaxIndex := h.maxIndex
  have hflushed := h.flushed
  unfold TreeT.numLeaves at hnum
  unfold TreeT.retractTo
  rw [if_neg (by omega), if_neg (by rw [TreeT.minIndex]; omega)]
  split
  · rename_i hover
    -- the leaf has not been put into the tree yet
    refine ⟨_, rfl, hflushed, ?_, ?_⟩
    · show t.leafNodes ++ t.uninsertedLeafNodes.take _ =
        (log.leaves.take (index + 1)).drop log.flushed
      rw [List.drop_take, ← h.leaves, List.take_append,
        List.take_of_length_le (l := t.leafNodes) (by omega)]
      congr 2
      omega
    · apply h.grown.congr
      intro i hi
      exact (log.leaf_take (by omega)).symm
  · rename_i hunder
    obtain ⟨t', root, l, hcomputed, hl, hl64, hrep, hwalk⟩ := h.walkTo_eq hmin hmax hbound
    obtain ⟨root', hretract, hrep'⟩ := walk_retract hmin hmax hrep
      (Nat.div_eq_of_lt (by omega)).symm hl64
        (show 2 * l < 2 * (l + 1) by omega)
    have hdrop := congrArg List.length hcomputed.leaves
    rw [List.length_drop] at hdrop
    have hset : t'.leafNodes.set (index - t'.numFlushed) (log.leaf index) = t'.leafNodes := by
      have hlt : index - t'.numFlushed < t'.leafNodes.length := by
        rw [hcomputed.flushed]
        omega
      have hsame : t'.leafNodes[index - t'.numFlushed]? = some (log.leaf index) := by
        rw [hcomputed.leaves, hcomputed.flushed, List.getElem?_drop, Nat.add_sub_cancel' hmin,
          List.getElem?_eq_getElem hmax, Log.leaf, List.getD_eq_getElem _ _ hmax]
      rw [← (List.getElem_eq_iff hlt).mpr hsame, List.set_getElem_self]
    have hnum' := hcomputed.models.numLeaves
    have hkept : keep t'.leafNodes (t'.numLeaves - index - 1) =
        (log.leaves.take (index + 1)).drop log.flushed := by
      rw [keep, if_pos (by omega), hcomputed.leaves, List.drop_take]
      congr 1
      rw [List.length_drop]
      omega
    refine ⟨{ t' with
      position := some ⟨root', []⟩
      leafNodes := (log.leaves.take (index + 1)).drop log.flushed }, ?_, hcomputed.flushed, ?_, ?_⟩
    · rw [hwalk, hretract]
      show Except.ok (TreeT.mk (keep (t'.leafNodes.set _ (log.leaf index)) _) _ _ _) = _
      rw [hset]
      exact congrArg (fun l => Except.ok (TreeT.mk l _ _ _)) hkept
    · show _ ++ t'.uninsertedLeafNodes = _
      rw [hcomputed.inserted, List.append_nil]
      rfl
    · show Grown op _ (t'.numFlushed + ((log.leaves.take (index + 1)).drop log.flushed).length)
        t'.numFlushed _
      rw [hcomputed.flushed, List.length_drop, List.length_take,
        show log.flushed + (min (index + 1) log.leaves.length - log.flushed) = index + 1 by omega]
      refine ⟨by omega, fun e he => (List.not_mem_nil he).elim, Or.inl rfl, l, by omega, ?_⟩
      apply hrep'.congr (by omega) (fun i _ _ => ⟨Iff.rfl, Iff.rfl⟩)
      exact fun i _ _ hi => (log.leaf_take hi).symm

end TreeT

end

end OptRand.Wire.MerkleTree
