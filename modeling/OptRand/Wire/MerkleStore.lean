import OptRand.Lib.Checked
import OptRand.Wire.MerkleRuns
import OptRand.Wire.Merkle

/-!
# Stored Merkle trees and paths (`merklecpp.h`)

Numbers are written with their most significant byte first, hashes as they are. A stored tree has
the leaves that are not flushed and, from the lowest level up, the hashes of the full subtrees to
the left of the first one; `deserialise` rebuilds the levels from these. A segment is stored as the
tree that is retracted to its end and flushed to its start.
-/

namespace OptRand.Wire.MerkleTree

open Lib Lib.MerkleLog
open Merkle (HashT)

/-- The default constructor of `HashT`. -/
instance : Inhabited HashT := ⟨⟨List.replicate 32 0, rfl⟩⟩

/-- What is left of the bytes after something has been read. -/
abbrev Reader (α : Type) := List UInt8 → Except Error (α × List UInt8)

/-- `serialise_uint64_t`. -/
def serialiseUint64 (n : ℕ) : List UInt8 :=
  [UInt8.ofNat (n / 2 ^ 56), UInt8.ofNat (n / 2 ^ 48), UInt8.ofNat (n / 2 ^ 40),
    UInt8.ofNat (n / 2 ^ 32), UInt8.ofNat (n / 2 ^ 24), UInt8.ofNat (n / 2 ^ 16),
    UInt8.ofNat (n / 2 ^ 8), UInt8.ofNat n]

/-- `deserialise_uint64_t`. There is no check that the bytes are there. -/
def deserialiseUint64 : Reader ℕ
  | b7 :: b6 :: b5 :: b4 :: b3 :: b2 :: b1 :: b0 :: bytes =>
    .ok (b7.toNat * 2 ^ 56 + b6.toNat * 2 ^ 48 + b5.toNat * 2 ^ 40 + b4.toNat * 2 ^ 32 +
      b3.toNat * 2 ^ 24 + b2.toNat * 2 ^ 16 + b1.toNat * 2 ^ 8 + b0.toNat, bytes)
  | _ => .error .undefined

theorem length_first (bytes : List UInt8) (h : ¬ bytes.length < 32) :
    (bytes.take 32).length = 32 := by
  rw [List.length_take]
  omega

/-- `deserialise` of a `HashT`. -/
def deserialiseHash : Reader HashT := fun bytes =>
  if h : bytes.length < 32 then .error (.runtimeError "not enough bytes")
  else .ok (⟨bytes.take 32, length_first bytes h⟩, bytes.drop 32)

/-- The hash of a leaf of a stored tree. There is no check that the bytes are there. -/
def deserialiseLeaf : Reader HashT := fun bytes =>
  if bytes.length < 32 then .error .undefined else deserialiseHash bytes

/-- Read `n` times. -/
def times {α : Type} (read : Reader α) : ℕ → Reader (List α)
  | 0, bytes => .ok ([], bytes)
  | n + 1, bytes => do
    let (a, bytes) ← read bytes
    let (as, bytes) ← times read n bytes
    return (a :: as, bytes)

/-! ## Paths -/

/-- An element of a path: its hash and a byte for its direction. -/
def serialiseElement (e : Element HashT) : List UInt8 :=
  e.hash.bytes ++ [if e.direction = .left then 1 else 0]

def deserialiseElement : Reader (Element HashT) := fun bytes => do
  let (hash, bytes) ← deserialiseHash bytes
  match bytes with
  | [] => .error .undefined
  | b :: bytes => return (⟨hash, if b ≠ 0 then .left else .right⟩, bytes)

/-- `serialise` of a path. -/
def PathT.serialise (p : PathT HashT) : List UInt8 :=
  p.leaf.bytes ++ serialiseUint64 p.leafIndex ++ serialiseUint64 p.maxIndex ++
    serialiseUint64 p.elements.length ++ p.elements.flatMap serialiseElement

/-- `deserialise` of a path. -/
def PathT.deserialise : Reader (PathT HashT) := fun bytes => do
  let (leaf, bytes) ← deserialiseHash bytes
  let (leafIndex, bytes) ← deserialiseUint64 bytes
  let (maxIndex, bytes) ← deserialiseUint64 bytes
  let (numElements, bytes) ← deserialiseUint64 bytes
  let (elements, bytes) ← times deserialiseElement numElements bytes
  return (⟨leaf, leafIndex, elements, maxIndex⟩, bytes)

/-! ## Trees -/

/-- Join the nodes of a level in pairs. -/
def pairUp {H : Type} [Inhabited H] : List (Node H) → List (Node H)
  | left :: right :: level => .makeAbove left right :: pairUp level
  | level => level

theorem length_pairUp {H : Type} [Inhabited H] (level : List (Node H)) :
    (pairUp level).length = (level.length + 1) / 2 := by
  fun_induction pairUp level with
  | case1 left right level ih =>
    rw [List.length_cons, ih, List.length_cons, List.length_cons]
    omega
  | case2 level hnot =>
    match level with
    | [] => simp
    | [_] => simp
    | a :: b :: level => exact (hnot a b level rfl).elim

/-- The loop of `deserialise` over the levels. -/
def buildLevels (it levelNo : ℕ) (level : List (Node HashT)) : Reader (List (Node HashT)) :=
  fun bytes =>
  if it = 0 ∧ level.length ≤ 1 then .ok (level, bytes)
  else if it % 2 = 1 then
    match deserialiseHash bytes with
    | .error e => .error e
    | .ok (hash, bytes) =>
      let extra : Node HashT := .leaf hash (2 ^ (levelNo + 1) - 1) (levelNo + 1) false
      buildLevels (it / 2) (levelNo + 1) (pairUp (extra :: level)) bytes
  else buildLevels (it / 2) (levelNo + 1) (pairUp level) bytes
termination_by 2 * it + level.length
decreasing_by
  · rw [length_pairUp, List.length_cons]
    omega
  · rw [length_pairUp]
    omega

namespace TreeT

variable (op : HashT → HashT → HashT) (t : TreeT HashT)

/-- What `serialise` does at a node. -/
def extrasStep (extras : List HashT) (n : Node HashT) (goRight : Bool) :
    List HashT × Node HashT × Bool :=
  match n with
  | .leaf _ _ _ _ => (extras, n, true)
  | .node _ left _ _ _ _ => (if goRight then extras ++ [left.hash] else extras, n, true)

/-- The end of `serialise`: the hashes to the left of the leaf at `index`. -/
def serialiseExtras (index : ℕ) : Except Error (TreeT HashT × List UInt8) :=
  if t.numLeaves = 0 then return (t, [])
  else do
    let (t, _) ← t.computeRoot op
    let (t, extras, _) ← t.walkTo op index false extrasStep []
    return (t, extras.reverse.flatMap HashT.bytes)

/-- `serialise`. -/
def serialise : Except Error (TreeT HashT × List UInt8) := do
  let bytes := serialiseUint64 (t.leafNodes.length + t.uninsertedLeafNodes.length) ++
    serialiseUint64 t.numFlushed ++ t.leafNodes.flatMap HashT.bytes ++
    t.uninsertedLeafNodes.flatMap HashT.bytes
  let (t, extras) ← t.serialiseExtras op t.minIndex
  return (t, bytes ++ extras)

/-- `serialise` of the segment between two leaves. -/
def serialiseSegment (first last : ℕ) : Except Error (TreeT HashT × List UInt8) :=
  if (first < t.minIndex ∨ t.maxIndex < first) ∨ (last < t.minIndex ∨ t.maxIndex < last) ∨
      last < first then
    throw (.runtimeError "invalid leaf indices")
  else do
    let leaves ← (List.range (last - first + 1)).mapM fun i => t.leafNode (first + i)
    let (t, extras) ← t.serialiseExtras op first
    return (t, serialiseUint64 (last - first + 1) ++ serialiseUint64 first ++
      leaves.flatMap HashT.bytes ++ extras)

/-- `deserialise`. -/
def deserialise : Reader (TreeT HashT) := fun bytes => do
  let (numLeafNodes, bytes) ← deserialiseUint64 bytes
  let (numFlushed, bytes) ← deserialiseUint64 bytes
  let (leafNodes, bytes) ← times deserialiseLeaf numLeafNodes bytes
  let (level, bytes) ← buildLevels numFlushed 0 (leafNodes.map .make) bytes
  return (⟨leafNodes, [], level.head?.map fun root => ⟨root, []⟩, numFlushed⟩, bytes)

end TreeT

/-! ## Reading back -/

theorem deserialiseUint64_append {n : ℕ} (hn : n < 2 ^ 64) (rest : List UInt8) :
    deserialiseUint64 (serialiseUint64 n ++ rest) = .ok (n, rest) := by
  show Except.ok (_, rest) = _
  congr 2
  simp only [UInt8.toNat_ofNat']
  omega

theorem deserialiseHash_append (hash : HashT) (rest : List UInt8) :
    deserialiseHash (hash.bytes ++ rest) = .ok (hash, rest) := by
  have hsize := hash.size
  unfold deserialiseHash
  rw [dif_neg (by rw [List.length_append]; omega)]
  congr 2
  · ext1
    exact List.take_left' hsize
  · exact List.drop_left' hsize

theorem deserialiseLeaf_append (hash : HashT) (rest : List UInt8) :
    deserialiseLeaf (hash.bytes ++ rest) = .ok (hash, rest) := by
  have hsize := hash.size
  unfold deserialiseLeaf
  rw [if_neg (by rw [List.length_append]; omega)]
  exact deserialiseHash_append hash rest

theorem deserialiseElement_append (e : Element HashT) (rest : List UInt8) :
    deserialiseElement (serialiseElement e ++ rest) = .ok (e, rest) := by
  obtain ⟨hash, direction⟩ := e
  unfold deserialiseElement serialiseElement
  rw [List.append_assoc, deserialiseHash_append]
  cases direction <;> rfl

/-- What is written one after the other is read one after the other. -/
theorem times_flatMap {α : Type} {read : Reader α} {write : α → List UInt8}
    (hread : ∀ a rest, read (write a ++ rest) = .ok (a, rest)) (as : List α) (rest : List UInt8) :
    times read as.length (as.flatMap write ++ rest) = .ok (as, rest) := by
  induction as with
  | nil => rfl
  | cons a as ih =>
    rw [List.length_cons, List.flatMap_cons, List.append_assoc, times, hread]
    show (times read as.length (as.flatMap write ++ rest) >>= fun r => _) = _
    rw [ih]
    rfl

/-- A stored path is read back. -/
theorem PathT.deserialise_serialise (p : PathT HashT) (hleaf : p.leafIndex < 2 ^ 64)
    (hmax : p.maxIndex < 2 ^ 64) (hsize : p.elements.length < 2 ^ 64) (rest : List UInt8) :
    PathT.deserialise (p.serialise ++ rest) = .ok (p, rest) := by
  unfold PathT.deserialise PathT.serialise
  simp only [List.append_assoc, deserialiseHash_append, ok_bind, deserialiseUint64_append hleaf,
    deserialiseUint64_append hmax, deserialiseUint64_append hsize,
    times_flatMap deserialiseElement_append]
  rfl

/-! ## Levels -/

section

variable {op : HashT → HashT → HashT} {leaf : ℕ → HashT} {n k h s : ℕ}
  {level : List (Node HashT)}

/-- The hashes of the full subtrees to the left of a leaf, from level `h` up. -/
def lefts (op : HashT → HashT → HashT) (leaf : ℕ → HashT) (n : ℕ) (it h : ℕ) : List HashT :=
  if it = 0 then []
  else (if it % 2 = 1 then [nodeHash op leaf n h (it - 1)] else []) ++
    lefts op leaf n (it / 2) (h + 1)

/-- The nodes of a level from `s` on. -/
def Level (op : HashT → HashT → HashT) (leaf : ℕ → HashT) (n k h : ℕ) :
    ℕ → List (Node HashT) → Prop
  | s, [] => n ≤ s * 2 ^ h
  | s, t :: level => s * 2 ^ h < n ∧ Node.Represents op leaf n k h s t ∧
    Level op leaf n k h (s + 1) level

/-- Joining the nodes of a level in pairs gives the next level. -/
theorem Level.pairUp (hk : k < (s + 1) * 2 ^ (h + 1))
    (hlevel : Level op leaf n k h (2 * s) level) :
    Level op leaf n k (h + 1) s (pairUp level) := by
  fun_induction MerkleTree.pairUp level generalizing s with
  | case1 left right level ih =>
    obtain ⟨hn, hleft, hn', hright, hlevel⟩ := hlevel
    have hstart := two_mul_pow h s
    refine ⟨by omega, .above hk hn' hleft hright (fun h => by cases h), ih ?_ hlevel⟩
    have hmono : (s + 1) * 2 ^ (h + 1) ≤ (s + 1 + 1) * 2 ^ (h + 1) :=
      Nat.mul_le_mul_right _ (Nat.le_succ _)
    omega
  | case2 level hnot =>
    have hstart := two_mul_pow h s
    match level with
    | [] =>
      rw [Level] at hlevel ⊢
      omega
    | [t] =>
      obtain ⟨hn, ht, hn'⟩ := hlevel
      rw [Level] at hn'
      have hend := half_lt_end h s
      refine ⟨by omega, .short hk hn' ht, ?_⟩
      rw [Level]
      omega
    | a :: b :: level => exact (hnot a b level rfl).elim

/-- The node that `deserialise` makes of a stored hash. -/
theorem represents_extra {j : ℕ} (hk : (j + 1) * 2 ^ h ≤ k) :
    Node.Represents op leaf n k h j
      (.leaf (nodeHash op leaf n h j) (2 ^ (h + 1) - 1) (h + 1) false) := by
  cases h with
  | zero => exact .leaf j
  | succ h => exact .flushed h j hk

theorem lefts_zero : lefts op leaf n 0 h = [] := by
  rw [lefts, if_pos rfl]

theorem lefts_odd {it : ℕ} (hodd : it % 2 = 1) :
    lefts op leaf n it h = nodeHash op leaf n h (it - 1) :: lefts op leaf n (it / 2) (h + 1) := by
  rw [lefts, if_neg (by omega), if_pos hodd]
  rfl

theorem lefts_even {it : ℕ} (heven : it % 2 = 0) :
    lefts op leaf n it h = lefts op leaf n (it / 2) (h + 1) := by
  by_cases hzero : it = 0
  · subst hzero
    rw [lefts, lefts, if_pos rfl, if_pos rfl]
  · rw [lefts, if_neg hzero, if_neg (by omega)]
    rfl

/-- The loop of `deserialise` ends with the root. -/
theorem buildLevels_eq (hkn : k < n) {it h : ℕ} {level : List (Node HashT)}
    (hit : it = k / 2 ^ h) (hlevel : Level op leaf n k h it level) (rest : List UInt8) :
    ∃ root l, buildLevels it h level ((lefts op leaf n it h).flatMap HashT.bytes ++ rest) =
        .ok ([root], rest) ∧ n ≤ 2 ^ l ∧ Node.Represents op leaf n k l 0 root := by
  have hlow := mul_pow_le k h
  have hhigh := lt_succ_mul_pow k (h + 1)
  rw [← hit] at hlow
  rw [div_pow_succ, ← hit] at hhigh
  rw [buildLevels]
  split
  · rename_i hdone
    obtain ⟨rfl, hshort⟩ := hdone
    match level with
    | [] =>
      rw [Level] at hlevel
      omega
    | [root] =>
      obtain ⟨-, hroot, hn⟩ := hlevel
      rw [Level] at hn
      refine ⟨root, h, ?_, by omega, hroot⟩
      rw [lefts_zero]
      rfl
    | a :: b :: level => simp at hshort
  split
  · rename_i hodd
    have hself : 2 * (it / 2) = it - 1 := by omega
    have hnext : it - 1 + 1 = it := by omega
    rw [lefts_odd hodd, List.flatMap_cons, List.append_assoc, deserialiseHash_append]
    refine buildLevels_eq hkn (by rw [hit, div_pow_succ]) ?_ rest
    apply Level.pairUp hhigh
    rw [hself]
    refine ⟨?_, represents_extra (by rw [hnext]; exact hlow), by rw [hnext]; exact hlevel⟩
    have hmono : (it - 1) * 2 ^ h ≤ it * 2 ^ h := Nat.mul_le_mul_right _ (Nat.sub_le _ _)
    omega
  · rename_i heven
    rw [lefts_even (by omega)]
    refine buildLevels_eq hkn (by rw [hit, div_pow_succ]) ?_ rest
    apply Level.pairUp hhigh
    rw [show 2 * (it / 2) = it by omega]
    exact hlevel
termination_by 2 * it + level.length
decreasing_by
  · rw [length_pairUp]
    omega
  · rw [length_pairUp, List.length_cons]
    omega

/-- The hashes that are stored beside the leaves are the left siblings on the way to the first
one. -/
theorem lefts_eq {l : ℕ} (hk : k < 2 ^ l) :
    lefts op leaf n k 0 = ((path op leaf n k l).filter fun e => e.direction = .left).map
      Element.hash := by
  have hfrom : ∀ g ≤ l, ((path op leaf n k l).filter fun e => e.direction = .left).map
      Element.hash = ((path op leaf n k g).filter fun e => e.direction = .left).map Element.hash ++
        lefts op leaf n (k / 2 ^ g) g := by
    intro g hg
    induction hg using Nat.decreasingInduction with
    | self => rw [Nat.div_eq_of_lt hk, lefts_zero, List.append_nil]
    | of_succ g hg ih =>
      rw [ih, path, List.filter_append, List.map_append, List.append_assoc, div_pow_succ]
      congr 1
      rcases Nat.mod_two_eq_zero_or_one (k / 2 ^ g) with heven | hodd
      · rw [lefts_even heven, sibling, if_neg (by omega)]
        split
        · rfl
        · rfl
      · rw [lefts_odd hodd, sibling, if_pos hodd]
        rfl
  have hzero := hfrom 0 (Nat.zero_le l)
  rw [pow_zero, Nat.div_one] at hzero
  exact hzero.symm

/-- Below a leaf of both, the left siblings are the same in two logs. -/
theorem lefts_congr {leaf' : ℕ → HashT} {m : ℕ} {it h : ℕ} (hn : it * 2 ^ h ≤ n)
    (hm : it * 2 ^ h ≤ m) (hleaf : ∀ i < n, leaf i = leaf' i) :
    lefts op leaf n it h = lefts op leaf' m it h := by
  by_cases hzero : it = 0
  · rw [hzero, lefts_zero, lefts_zero]
  have hpos := Nat.two_pow_pos h
  have hhalf : it / 2 * 2 ^ (h + 1) ≤ it * 2 ^ h := by
    rw [← two_mul_pow]
    exact Nat.mul_le_mul_right _ (Nat.mul_div_le it 2)
  have hrest := lefts_congr (hhalf.trans hn) (hhalf.trans hm) hleaf
  rcases Nat.mod_two_eq_zero_or_one it with heven | hodd
  · rw [lefts_even heven, lefts_even heven, hrest]
  · have hself : it - 1 + 1 = it := by omega
    have hlast := add_one_mul (it - 1) (2 ^ h)
    rw [hself] at hlast
    rw [lefts_odd hodd, lefts_odd hodd, hrest]
    congr 1
    apply nodeHash_congr (by omega)
    · intro i _ hi
      rw [hself] at hi
      exact ⟨fun _ => by omega, fun _ => by omega⟩
    · exact fun i _ _ => hleaf i
termination_by it

end

/-! ## Stored trees -/

/-- What is stored of a log. -/
def Log.stored (op : HashT → HashT → HashT) (log : Log HashT) : List UInt8 :=
  serialiseUint64 (log.leaves.length - log.flushed) ++ serialiseUint64 log.flushed ++
    (log.leaves.drop log.flushed).flatMap HashT.bytes ++
    (lefts op log.leaf log.leaves.length log.flushed 0).flatMap HashT.bytes

section

variable {op : HashT → HashT → HashT} {t : TreeT HashT} {log : Log HashT} {index : ℕ}

/-- The siblings that `serialise` collects. -/
theorem foldr_extras (es : List (Element HashT)) :
    es.foldr (fun e extras => if e.direction = .left then extras ++ [e.hash] else extras) [] =
      ((es.filter fun e => e.direction = .left).map Element.hash).reverse := by
  induction es with
  | nil => rfl
  | cons e es ih =>
    obtain ⟨hash, direction⟩ := e
    cases direction with
    | left =>
      rw [List.foldr_cons, ih, if_pos rfl, List.filter_cons_of_pos rfl, List.map_cons,
        List.reverse_cons]
    | right =>
      rw [List.foldr_cons, ih, if_neg (by simp), List.filter_cons_of_neg (by simp)]

namespace TreeT

theorem Models.serialiseExtras (h : t.Models op log) (hmin : log.flushed ≤ index)
    (hmax : index < log.leaves.length) (hbound : log.leaves.length ≤ maxLeaves) :
    ∃ t', t.serialiseExtras op index =
        .ok (t', (lefts op log.leaf log.leaves.length index 0).flatMap HashT.bytes) ∧
      t'.Models op log := by
  have hnum := h.numLeaves
  have hne : log.leaves ≠ [] := by
    rw [← List.length_pos_iff]
    omega
  obtain ⟨t', root, hroot, hcomputed⟩ := h.computeRoot hne
  obtain ⟨t'', root', l, hcomputed', hl, hl64, hrep, hwalk⟩ :=
    hcomputed.models.walkTo_eq hmin hmax hbound
  have hextras := walk_observe (f := TreeT.extrasStep) (g := fun e extras =>
    if e.direction = .left then extras ++ [e.hash] else extras) (fun _ _ _ _ _ _ _ b => by
      cases b <;> rfl) hmin hmax hrep hcomputed'.clean (Nat.div_eq_of_lt (by omega)).symm hl64
    (show l < 2 * (l + 1) by omega) []
  refine ⟨t'', ?_, hcomputed'.models⟩
  unfold TreeT.serialiseExtras
  rw [if_neg (by omega), hroot]
  show (t'.walkTo op index false extrasStep [] >>= fun r => _) = _
  rw [hwalk, hextras]
  show Except.ok ({ t'' with position := some ⟨root', []⟩ }, List.flatMap _ (List.reverse _)) = _
  rw [hcomputed'.position_eq, foldr_extras, List.reverse_reverse, ← lefts_eq (by omega)]

/-- What `serialise` writes. -/
theorem Models.serialise (h : t.Models op log) (hbound : log.leaves.length ≤ maxLeaves) :
    ∃ t', t.serialise op = .ok (t', log.stored op) ∧ t'.Models op log := by
  have hnum := h.numLeaves
  have hvalid := log.valid
  have hflushed := h.flushed
  have hcount : t.leafNodes.length + t.uninsertedLeafNodes.length =
      log.leaves.length - log.flushed := by
    unfold TreeT.numLeaves at hnum
    omega
  obtain ⟨t', hextras, hmodels⟩ : ∃ t', t.serialiseExtras op t.minIndex = .ok (t',
      (lefts op log.leaf log.leaves.length log.flushed 0).flatMap HashT.bytes) ∧
        t'.Models op log := by
    by_cases hnil : log.leaves.length = 0
    · refine ⟨t, ?_, h⟩
      unfold TreeT.serialiseExtras
      rw [if_pos (by omega), show log.flushed = 0 by omega, lefts_zero]
      rfl
    · rw [show t.minIndex = log.flushed from hflushed]
      exact h.serialiseExtras le_rfl (by omega) hbound
  have hleaves : t.leafNodes.flatMap HashT.bytes ++ t.uninsertedLeafNodes.flatMap HashT.bytes =
      (log.leaves.drop log.flushed).flatMap HashT.bytes := by
    rw [← List.flatMap_append, h.leaves]
  refine ⟨t', ?_, hmodels⟩
  unfold TreeT.serialise
  rw [hextras, hcount, hflushed]
  show Except.ok (t', _ ++ t.leafNodes.flatMap _ ++ t.uninsertedLeafNodes.flatMap _ ++ _) = _
  rw [List.append_assoc _ (t.leafNodes.flatMap _) (t.uninsertedLeafNodes.flatMap _), hleaves]
  rfl

/-- The leaves of a segment. -/
theorem map_leaf_range {first last : ℕ} (hle : first ≤ last) (hmax : last < log.leaves.length) :
    (List.range (last - first + 1)).map (fun i => log.leaf (first + i)) =
      (log.leaves.take (last + 1)).drop first := by
  apply List.ext_getElem
  · rw [List.length_map, List.length_range, List.length_drop, List.length_take]
    omega
  · intro i hi _
    rw [List.length_map, List.length_range] at hi
    rw [List.getElem_map, List.getElem_range, List.getElem_drop, List.getElem_take, Log.leaf,
      List.getD_eq_getElem _ _ (by omega)]

/-- What `serialise` writes of a segment is what is stored of the log that is retracted to the end
of the segment and flushed to its start. -/
theorem Models.serialiseSegment (h : t.Models op log) {segment : Log HashT} {first last : ℕ}
    (hsegment : segment.leaves = log.leaves.take (last + 1)) (hfirst : segment.flushed = first)
    (hmin : log.flushed ≤ first) (hle : first ≤ last) (hmax : last < log.leaves.length)
    (hbound : log.leaves.length ≤ maxLeaves) :
    ∃ t', t.serialiseSegment op first last = .ok (t', segment.stored op) ∧ t'.Models op log := by
  have hminIndex : t.minIndex = log.flushed := h.flushed
  have hmaxIndex := h.maxIndex
  obtain ⟨t', hextras, hmodels⟩ := h.serialiseExtras hmin (hle.trans_lt hmax) hbound
  have hleaves : (List.range (last - first + 1)).mapM (fun i => t.leafNode (first + i)) =
      .ok (segment.leaves.drop segment.flushed) := by
    rw [hsegment, hfirst, ← map_leaf_range hle hmax]
    apply mapM_ok
    intro i hi
    have hlt := List.mem_range.mp hi
    exact h.leafNode (hmin.trans (Nat.le_add_right _ _)) (by omega)
  have hcount : segment.leaves.length = last + 1 := by
    rw [hsegment, List.length_take]
    omega
  have hlefts : lefts op log.leaf log.leaves.length first 0 =
      lefts op segment.leaf segment.leaves.length segment.flushed 0 := by
    rw [hcount, hfirst, lefts_congr (m := last + 1) (by omega) (by omega) fun i _ => rfl]
    apply lefts_congr (by omega) (by omega)
    intro i hi
    rw [← log.leaf_take hi, Log.leaf, hsegment]
  refine ⟨t', ?_, hmodels⟩
  unfold TreeT.serialiseSegment Log.stored
  rw [if_neg (by omega), hleaves, hextras, hlefts, hcount, hfirst,
    show last + 1 - first = last - first + 1 by omega]
  rfl

/-- The leaves that are not flushed are the lowest level. -/
theorem level_zero {leaves : List HashT} {k s : ℕ} (hs : s ≤ leaves.length) :
    Level op (fun i => leaves.getD i default) leaves.length k 0 s
      ((leaves.drop s).map Node.make) := by
  generalize hm : leaves.length - s = m
  induction m generalizing s with
  | zero =>
    rw [List.drop_eq_nil_of_le (by omega), List.map_nil, Level]
    omega
  | succ m ih =>
    have hlt : s < leaves.length := by omega
    rw [List.drop_eq_getElem_cons hlt, List.map_cons]
    refine ⟨by omega, ?_, ih hlt (by omega)⟩
    rw [← List.getD_eq_getElem _ default hlt]
    exact .leaf s

/-- What is stored of a log is read back. -/
theorem deserialise_stored (log : Log HashT) (hbound : log.leaves.length ≤ maxLeaves)
    (rest : List UInt8) :
    ∃ t, deserialise (log.stored op ++ rest) = .ok (t, rest) ∧ t.Models op log := by
  have hvalid := log.valid
  have hcount : log.leaves.length - log.flushed < 2 ^ 64 := by
    unfold maxLeaves at hbound
    omega
  have hflushed : log.flushed < 2 ^ 64 := by
    unfold maxLeaves at hbound
    omega
  have hleaves := times_flatMap deserialiseLeaf_append (log.leaves.drop log.flushed)
    ((lefts op log.leaf log.leaves.length log.flushed 0).flatMap HashT.bytes ++ rest)
  rw [List.length_drop] at hleaves
  unfold TreeT.deserialise Log.stored
  simp only [List.append_assoc, deserialiseUint64_append hcount, ok_bind,
    deserialiseUint64_append hflushed, hleaves]
  by_cases hnil : log.leaves = []
  · have hlength : log.leaves.length = 0 := by rw [hnil]; rfl
    rw [show log.flushed = 0 by omega, hnil, lefts_zero, buildLevels]
    refine ⟨{}, rfl, ?_, ?_, rfl, rfl⟩
    · show 0 = log.flushed
      omega
    · rw [hnil, List.drop_nil]
      rfl
  · have hpos := List.length_pos_iff.mpr hnil
    have hkept : log.flushed < log.leaves.length := by omega
    obtain ⟨root, l, hbuild, hl, hroot⟩ := buildLevels_eq (h := 0) hkept
      (by rw [pow_zero, Nat.div_one]) (level_zero hkept.le) rest
    refine ⟨⟨log.leaves.drop log.flushed, [], some ⟨root, []⟩, log.flushed⟩, ?_, rfl,
      List.append_nil _, ?_⟩
    · show (buildLevels log.flushed 0 _ ((lefts op log.leaf _ _ _).flatMap _ ++ rest) >>=
        fun r => _) = _
      unfold Log.leaf
      rw [hbuild]
      rfl
    · show Grown op log.leaf (log.flushed + (log.leaves.drop log.flushed).length) log.flushed
        (some ⟨root, []⟩)
      rw [length_drop_flushed]
      exact ⟨hkept, fun e he => (List.not_mem_nil he).elim, Or.inl rfl, l, hl, hroot⟩

/-- Two trees of one log behave alike. -/
theorem Models.alike {t' : TreeT HashT} (h : t.Models op log) (h' : t'.Models op log)
    {ops : List (Op HashT)} (hbound : log.leaves.length + numInserts ops ≤ maxLeaves) :
    (runOps (TreeT.exec op) t ops).2 = (runOps (TreeT.exec op) t' ops).2 :=
  (h.behaves hbound).1.trans (h'.behaves hbound).1.symm

end TreeT

end

/-- A tree that is stored after any calls is read back as a tree that behaves as it does. -/
theorem stored_behaves (op : HashT → HashT → HashT) (ops : List (Op HashT))
    (hbound : numInserts ops ≤ maxLeaves) (rest : List UInt8) :
    ∃ t bytes t', (TreeT.after op {} ops).serialise op = .ok (t, bytes) ∧
      TreeT.deserialise (bytes ++ rest) = .ok (t', rest) ∧
      ∀ more : List (Op HashT), numInserts ops + numInserts more ≤ maxLeaves →
        (runOps (TreeT.exec op) t' more).2 =
          (runOps (TreeT.exec op) (TreeT.after op {} ops) more).2 := by
  have hzero : 0 + numInserts ops ≤ maxLeaves := by rwa [Nat.zero_add]
  obtain ⟨-, hmodels, hlength⟩ := (TreeT.Models.empty).behaves hzero
  have hcount : (Log.after op {} ops).leaves.length ≤ numInserts ops :=
    hlength.trans (Nat.zero_add _).le
  obtain ⟨t, hserialise, -⟩ := hmodels.serialise (hcount.trans hbound)
  obtain ⟨t', hread, hmodels'⟩ :=
    TreeT.deserialise_stored (Log.after op {} ops) (hcount.trans hbound) rest
  refine ⟨t, _, t', hserialise, hread, fun more hmore => ?_⟩
  exact hmodels'.alike hmodels (by omega)

/-- Three leaves that are hashes. -/
def threeHashes : List (Op HashT) := [.insert ⟨List.replicate 32 4, rfl⟩,
  .insert ⟨List.replicate 32 5, rfl⟩, .insert ⟨List.replicate 32 6, rfl⟩]

theorem stored_behaves_three : numInserts threeHashes ≤ maxLeaves ∧
    ∃ t bytes t', (TreeT.after (fun l _ => l) {} threeHashes).serialise (fun l _ => l) =
        .ok (t, bytes) ∧ TreeT.deserialise (bytes ++ [7]) = .ok (t', [7]) ∧
      ∀ more : List (Op HashT), numInserts threeHashes + numInserts more ≤ maxLeaves →
        (runOps (TreeT.exec fun l _ => l) t' more).2 =
          (runOps (TreeT.exec fun l _ => l)
            (TreeT.after (fun l _ => l) {} threeHashes) more).2 :=
  ⟨by decide, stored_behaves (fun l _ => l) threeHashes (by decide) [7]⟩

/-- The log of a segment. -/
theorem Log.after_segment (op : HashT → HashT → HashT) {log : Log HashT} {first last : ℕ}
    (hmin : log.flushed ≤ first) (hle : first ≤ last) (hmax : last < log.leaves.length) :
    (log.after op [.retractTo last, .flushTo first]).leaves = log.leaves.take (last + 1) ∧
      (log.after op [.retractTo last, .flushTo first]).flushed = first := by
  have hcount : (log.leaves.take (last + 1)).length = last + 1 := by
    rw [List.length_take]
    omega
  have hretract : log.exec op (.retractTo last) =
      .ok (log.retractTo last (hmin.trans hle), .unit) := by
    rw [Log.exec, if_neg (by omega), dif_pos (hmin.trans hle)]
    rfl
  have hflush : ∃ segment, (log.retractTo last (hmin.trans hle)).exec op (.flushTo first) =
      .ok (segment, .unit) ∧ segment.leaves = log.leaves.take (last + 1) ∧
        segment.flushed = first := by
    rw [Log.exec]
    split
    · rename_i hflushed
      exact ⟨_, rfl, rfl, hmin.antisymm hflushed⟩
    · have hlt : first < (log.retractTo last (hmin.trans hle)).leaves.length := by
        show first < (log.leaves.take (last + 1)).length
        omega
      rw [dif_pos hlt]
      exact ⟨_, rfl, rfl, rfl⟩
  obtain ⟨segment, hflush, hleaves, hfirst⟩ := hflush
  have hsegment : log.after op [.retractTo last, .flushTo first] = segment := by
    unfold Log.after runOps
    rw [hretract]
    show (runOps (Log.exec op) (log.retractTo last _) [.flushTo first]).1 = segment
    unfold runOps
    rw [hflush]
    rfl
  rw [hsegment]
  exact ⟨hleaves, hfirst⟩

/-- A segment that is stored after any calls is read back as a tree that behaves as the one that is
retracted to its end and flushed to its start. -/
theorem segment_behaves (op : HashT → HashT → HashT) (ops : List (Op HashT))
    (hbound : numInserts ops ≤ maxLeaves) (first last : ℕ)
    (hmin : (TreeT.after op {} ops).minIndex ≤ first) (hle : first ≤ last)
    (hmax : last < (TreeT.after op {} ops).numLeaves) (rest : List UInt8) :
    ∃ t bytes t', (TreeT.after op {} ops).serialiseSegment op first last = .ok (t, bytes) ∧
      TreeT.deserialise (bytes ++ rest) = .ok (t', rest) ∧
      ∀ more : List (Op HashT), numInserts ops + numInserts more ≤ maxLeaves →
        (runOps (TreeT.exec op) t' more).2 = (runOps (TreeT.exec op)
          ((TreeT.after op {} ops).after op [.retractTo last, .flushTo first]) more).2 := by
  have hzero : 0 + numInserts ops ≤ maxLeaves := by rwa [Nat.zero_add]
  obtain ⟨-, hmodels, hlength⟩ := (TreeT.Models.empty).behaves hzero
  have hcount : (Log.after op {} ops).leaves.length ≤ numInserts ops :=
    hlength.trans (Nat.zero_add _).le
  rw [hmodels.numLeaves] at hmax
  rw [show TreeT.minIndex _ = _ from hmodels.flushed] at hmin
  generalize TreeT.after op {} ops = t at hmodels ⊢
  generalize Log.after op {} ops = log at hmodels hcount hmin hmax
  obtain ⟨hleaves, hfirst⟩ := Log.after_segment op hmin hle hmax
  have hsegment := congrArg List.length hleaves
  rw [List.length_take] at hsegment
  have hmodels' : (t.after op [.retractTo last, .flushTo first]).Models op
      (log.after op [.retractTo last, .flushTo first]) :=
    (hmodels.behaves (show log.leaves.length + numInserts [.retractTo last, .flushTo first] ≤
      maxLeaves from hcount.trans hbound)).2.1
  obtain ⟨t₁, hserialise, -⟩ :=
    hmodels.serialiseSegment hleaves hfirst hmin hle hmax (hcount.trans hbound)
  obtain ⟨t₂, hread, hmodels₂⟩ := TreeT.deserialise_stored _
    (show (log.after op [.retractTo last, .flushTo first]).leaves.length ≤ maxLeaves by omega) rest
  refine ⟨t₁, _, t₂, hserialise, hread, fun more hmore => ?_⟩
  exact hmodels₂.alike hmodels' (by omega)

theorem segment_behaves_three : (TreeT.after (fun l _ => l) {} threeHashes).minIndex ≤ 1 ∧
    2 < (TreeT.after (fun l _ => l) {} threeHashes).numLeaves ∧
    ∃ t bytes t', (TreeT.after (fun l _ => l) {} threeHashes).serialiseSegment (fun l _ => l) 1 2 =
        .ok (t, bytes) ∧ TreeT.deserialise (bytes ++ [7]) = .ok (t', [7]) ∧
      ∀ more : List (Op HashT), numInserts threeHashes + numInserts more ≤ maxLeaves →
        (runOps (TreeT.exec fun l _ => l) t' more).2 = (runOps (TreeT.exec fun l _ => l)
          ((TreeT.after (fun l _ => l) {} threeHashes).after (fun l _ => l)
            [.retractTo 2, .flushTo 1]) more).2 :=
  ⟨by decide, by decide, segment_behaves (fun l _ => l) threeHashes (by decide) 1 2 (by decide)
    (by decide) (by decide) [7]⟩

end OptRand.Wire.MerkleTree
