import OptRand.Wire.MerklePath

/-!
# Past paths (`merklecpp.h`)

`past_path` walks to two leaves at once, together down to the node where the ways part and then
side by side. What it puts together is the path that the leaf had when the other one was the last
(`Models.pastPath`).
-/

namespace OptRand.Wire.MerkleTree

open Lib.MerkleLog

variable {H : Type}

/-! ## Two walks -/

/-- A step of a walk that collects siblings. A node that is lower than the height is passed. -/
def stepDown (height : ℕ) (cur : Node H) (goRight : Bool) : Option (Node H × List (Element H)) :=
  if cur.height = height then
    match cur with
    | .leaf _ _ _ _ => none
    | .node _ left right _ _ _ =>
      some (if goRight then right else left, [left.beside right goRight])
  else some (cur, [])

/-- The lists that `past_path` records, and whether the ways have parted. -/
structure Past (H : Type) where
  fork : Bool := false
  rootToFork : List (Element H) := []
  forkToIndex : List (Element H) := []
  forkToAsOf : List (Element H) := []

/-- The loop of `past_path`, with the node that it reaches for `as_of`. -/
def pastWalk : ℕ → BitVec 64 → BitVec 64 → Node H → Node H → Past H → Option (Node H × Past H)
  | 0, _, _, _, curA, p => some (curA, p)
  | 1, _, _, _, curA, p => some (curA, p)
  | height + 2, itI, itA, curI, curA, p =>
    let goRightI := itI.msb
    let goRightA := itA.msb
    let fork := p.fork || goRightI != goRightA
    match stepDown (height + 2) curI goRightI, stepDown (height + 2) curA goRightA with
    | some (i, es), some (a, es') =>
      if fork then
        pastWalk (height + 1) (itI <<< 1) (itA <<< 1) i a { p with
          fork := true
          forkToIndex := p.forkToIndex ++ es
          forkToAsOf := p.forkToAsOf ++ if goRightA then es' else [] }
      else
        pastWalk (height + 1) (itI <<< 1) (itA <<< 1) i i { p with
          rootToFork := p.rootToFork ++ if goRightI then es else [] }
    | _, _ => none

/-- The path that `past_path` puts together. -/
def Past.path (op : H → H → H) (curA : Node H) (p : Past H) : List (Element H) :=
  let asOfHash := (p.forkToAsOf.drop 1).reverse.foldl (fun hash e => op e.hash hash) curA.hash
  (p.forkToIndex.drop 1).reverse ++ (if p.fork then [⟨asOfHash, .right⟩] else []) ++
    p.rootToFork.reverse

namespace TreeT

variable [Inhabited H] (op : H → H → H) (t : TreeT H)

omit [Inhabited H] in
/-- The end of `past_path`, with what the loop has recorded. -/
def pastWalked (index asOf : ℕ) : Option (Node H × Past H) → Except Error (TreeT H × PathT H)
  | none => throw .undefined
  | some (a, p) => do
    let leaf ← t.leafNode index
    return (t, ⟨leaf, index, p.path op a, asOf⟩)

/-- `past_path`. -/
def pastPath (index asOf : ℕ) : Except Error (TreeT H × PathT H) :=
  if (index < t.minIndex ∨ t.maxIndex < index) ∨ (asOf < t.minIndex ∨ t.maxIndex < asOf) ∨
      asOf < index then
    throw (.runtimeError "invalid leaf indices")
  else do
    let (t, root) ← t.computeRoot op
    t.pastWalked op index asOf (pastWalk root.height (firstBits root.height index)
      (firstBits root.height asOf) root root {})

end TreeT

section

variable {op : H → H → H} {leaf : ℕ → H} {n k h j index asOf : ℕ} {t : Node H}

/-- A step goes to the next node on the way and collects its sibling. -/
theorem stepDown_eq (hk : k ≤ index) (hi : index < n)
    (ht : Node.Represents op leaf n k (h + 1) (index / 2 ^ (h + 1)) t) (hclean : t.dirty = false) :
    ∃ t', stepDown (h + 2) t (index.testBit h) =
        some (t', sibling op leaf n h (index / 2 ^ h)) ∧
      Node.Represents op leaf n k h (index / 2 ^ h) t' ∧ t'.dirty = false := by
  have hlt := lt_succ_mul_pow index (h + 1)
  cases ht with
  | flushed _ _ hkj => omega
  | @above _ _ hash left right dirty _ hn hleft hright clean =>
    obtain ⟨-, hcleanl, hcleanr⟩ := clean hclean
    refine ⟨if index.testBit h = true then right else left, ?_,
      Node.Represents.child rfl hleft hright, ?_⟩
    · rw [Node.Represents.sibling_eq rfl hn hleft hright hcleanl hcleanr]
      unfold stepDown
      rw [if_pos (Node.Represents.height_over_eq hn hleft hright)]
      rfl
    · split
      · exact hcleanr
      · exact hcleanl
  | short _ hn hleft =>
    have hheight := hleft.height_le
    have hdiv : index / 2 ^ h = 2 * (index / 2 ^ (h + 1)) + (index.testBit h).toNat :=
      div_pow_eq rfl
    rw [testBit_of_short rfl hi hn, Bool.toNat_false, Nat.add_zero] at hdiv
    refine ⟨t, ?_, by rw [hdiv]; exact hleft, hclean⟩
    unfold stepDown
    rw [if_neg (by omega), sibling_eq_nil rfl hi hn]

/-- The left siblings among one. -/
theorem sibling_filter_eq (h : ℕ) :
    (sibling op leaf n h (index / 2 ^ h)).filter (fun e => e.direction = .left) =
      if index.testBit h then sibling op leaf n h (index / 2 ^ h) else [] := by
  have hparity := Nat.toNat_testBit index h
  unfold sibling
  cases hbit : index.testBit h with
  | false =>
    rw [hbit, Bool.toNat_false] at hparity
    rw [if_neg (by omega), if_neg Bool.false_ne_true]
    split
    · rfl
    · rfl
  | true =>
    rw [hbit, Bool.toNat_true] at hparity
    rw [if_pos hparity.symm, if_pos rfl]
    rfl

theorem reverse_sibling (h j : ℕ) : (sibling op leaf n h j).reverse = sibling op leaf n h j := by
  unfold sibling
  split
  · rfl
  split
  · rfl
  · rfl

/-- One turn of the loop. -/
theorem pastWalk_step {p : Past H} {i a i' a' : Node H} {es es' : List (Element H)} (hh : h + 1 < 64)
    (hstepi : stepDown (h + 2) i (index.testBit h) = some (i', es))
    (hstepa : stepDown (h + 2) a (asOf.testBit h) = some (a', es')) :
    pastWalk (h + 1 + 1) (BitVec.ofNat 64 index <<< (65 - (h + 1 + 1)))
        (BitVec.ofNat 64 asOf <<< (65 - (h + 1 + 1))) i a p =
      if p.fork || index.testBit h != asOf.testBit h then
        pastWalk (h + 1) (BitVec.ofNat 64 index <<< (65 - (h + 1)))
          (BitVec.ofNat 64 asOf <<< (65 - (h + 1))) i' a' { p with
            fork := true
            forkToIndex := p.forkToIndex ++ es
            forkToAsOf := p.forkToAsOf ++ if asOf.testBit h then es' else [] }
      else
        pastWalk (h + 1) (BitVec.ofNat 64 index <<< (65 - (h + 1)))
          (BitVec.ofNat 64 asOf <<< (65 - (h + 1))) i' i' { p with
            rootToFork := p.rootToFork ++ if index.testBit h then es else [] } := by
  simp only [pastWalk, msb_shiftLeft hh, hstepi, hstepa, shiftLeft_succ hh.le]

/-- The walks side by side: what is recorded are the siblings on both ways, of the second one those
to the left. -/
theorem pastWalk_forked {p : Past H} (hfork : p.fork = true) (hk : k ≤ index) (hi : index < n)
    (hka : k ≤ asOf) (ha : asOf < n) {i a : Node H}
    (hrepi : Node.Represents op leaf n k h (index / 2 ^ h) i) (hcleani : i.dirty = false)
    (hrepa : Node.Represents op leaf n k h (asOf / 2 ^ h) a) (hcleana : a.dirty = false)
    (hh : h < 64) :
    pastWalk (h + 1) (BitVec.ofNat 64 index <<< (65 - (h + 1)))
        (BitVec.ofNat 64 asOf <<< (65 - (h + 1))) i a p =
      some (.make (leaf asOf), { p with
        forkToIndex := p.forkToIndex ++ (path op leaf n index h).reverse
        forkToAsOf := p.forkToAsOf ++
          ((path op leaf n asOf h).filter fun e => e.direction = .left).reverse }) := by
  induction h generalizing p i a with
  | zero =>
    rw [pow_zero, Nat.div_one] at hrepa
    cases hrepa
    show some (_, p) = some (_, { p with
      forkToIndex := p.forkToIndex ++ [], forkToAsOf := p.forkToAsOf ++ [] })
    rw [List.append_nil, List.append_nil]
  | succ h ih =>
    obtain ⟨i', hstepi, hrepi', hcleani'⟩ := stepDown_eq hk hi hrepi hcleani
    obtain ⟨a', hstepa, hrepa', hcleana'⟩ := stepDown_eq hka ha hrepa hcleana
    have hsibling : ((sibling op leaf n h (asOf / 2 ^ h)).filter
        fun e => e.direction = .left).reverse =
          (sibling op leaf n h (asOf / 2 ^ h)).filter fun e => e.direction = .left := by
      rw [← List.filter_reverse, reverse_sibling]
    rw [pastWalk_step hh hstepi hstepa, hfork, Bool.true_or, if_pos rfl,
      ih rfl hrepi' hcleani' hrepa' hcleana' (by omega), ← sibling_filter_eq, path, path,
      List.filter_append, List.reverse_append, List.reverse_append, reverse_sibling, hsibling,
      List.append_assoc, List.append_assoc]

/-- The two walks together put together the path that the leaf had. -/
theorem pastWalk_eq (hk : k ≤ index) (hle : index ≤ asOf) (ha : asOf < n)
    (hrep : Node.Represents op leaf n k h (index / 2 ^ h) t) (hclean : t.dirty = false)
    (hsame : asOf / 2 ^ h = index / 2 ^ h) (hh : h < 64) (es : List (Element H)) :
    ∃ a p, pastWalk (h + 1) (BitVec.ofNat 64 index <<< (65 - (h + 1)))
        (BitVec.ofNat 64 asOf <<< (65 - (h + 1))) t t { rootToFork := es } = some (a, p) ∧
      p.path op a = path op leaf (asOf + 1) index h ++ es.reverse := by
  induction h generalizing es t with
  | zero => exact ⟨t, { rootToFork := es }, rfl, rfl⟩
  | succ h ih =>
    have hrep' := hrep
    rw [← hsame] at hrep'
    obtain ⟨i', hstepi, hrepi, hcleani⟩ := stepDown_eq hk (by omega) hrep hclean
    obtain ⟨a', hstepa, hrepa, hcleana⟩ := stepDown_eq (by omega) ha hrep' hclean
    have hdivi : index / 2 ^ h = 2 * (index / 2 ^ (h + 1)) + (index.testBit h).toNat :=
      div_pow_eq rfl
    have hdiva : asOf / 2 ^ h = 2 * (asOf / 2 ^ (h + 1)) + (asOf.testBit h).toNat :=
      div_pow_eq rfl
    rw [hsame] at hdiva
    have hlowi := mul_pow_le index h
    have hlowa := mul_pow_le asOf h
    have hhighi := lt_succ_mul_pow index h
    have hhigha := lt_succ_mul_pow asOf h
    rw [pastWalk_step hh hstepi hstepa, Bool.false_or]
    by_cases hbit : index.testBit h = asOf.testBit h
    · have hdiv : asOf / 2 ^ h = index / 2 ^ h := by
        rw [hdivi, hdiva, hbit]
      rw [hdiv] at hlowa hhigha
      rw [if_neg (by rw [hbit]; simp)]
      obtain ⟨a, p, hwalk, hpath⟩ := ih hrepi hcleani hdiv (by omega)
        (es ++ if index.testBit h then sibling op leaf n h (index / 2 ^ h) else [])
      refine ⟨a, p, hwalk, ?_⟩
      rw [hpath, path, ← sibling_filter (n := n) (m := asOf + 1) (by omega) (by omega) (by omega),
        sibling_filter_eq, List.reverse_append, ← List.append_assoc]
      congr 2
      split
      · exact reverse_sibling _ _
      · rfl
    · -- here the ways part: the leaf is on the left, the last leaf on the right
      obtain ⟨hi, ha'⟩ : index.testBit h = false ∧ asOf.testBit h = true := by
        cases hi : index.testBit h with
        | false =>
          refine ⟨rfl, ?_⟩
          rw [hi] at hbit
          simpa using Ne.symm hbit
        | true =>
          rw [hi] at hbit hdivi
          have ha' : asOf.testBit h = false := by simpa using Ne.symm hbit
          rw [ha', Bool.toNat_false, Nat.add_zero] at hdiva
          rw [hdivi, Bool.toNat_true] at hlowi
          rw [hdiva] at hhigha
          omega
      rw [hi, Bool.toNat_false, Nat.add_zero] at hdivi
      rw [ha', Bool.toNat_true] at hdiva
      rw [hdiva] at hlowa
      rw [hi, ha', if_pos (by decide), pastWalk_forked rfl hk (by omega) (by omega) ha hrepi hcleani
        hrepa hcleana (by omega)]
      refine ⟨_, _, rfl, ?_⟩
      rw [path, hdivi, sibling_two_mul (n := asOf + 1) (by omega), hdiva,
        sibling_two_mul (n := n) (by omega), sibling_two_mul_add_one]
      have hclimb : climb op (leaf asOf) (path op leaf (asOf + 1) asOf h) =
          nodeHash op leaf (asOf + 1) h (asOf / 2 ^ h) := climb_path (Nat.lt_succ_self asOf)
      rw [← filter_path ha, ← foldl_filter_left, hdiva] at hclimb
      rw [path_of_full (n := asOf + 1) (m := n) (by rw [hdivi]; omega) (by rw [hdivi]; omega)]
      show (path op leaf n index h).reverse.reverse ++ [⟨List.foldl _ (leaf asOf) (List.reverse
        (List.reverse _)), .right⟩] ++ es.reverse = _
      rw [List.reverse_reverse, List.reverse_reverse, hclimb]

end

/-! ## The tree and its log -/

section

variable [Inhabited H] {op : H → H → H} {t : TreeT H} {log : Log H} {index asOf : ℕ}

/-- The path of a leaf when `asOf` was the last one. -/
def Log.pastPath (op : H → H → H) (log : Log H) (index asOf : ℕ) : PathT H :=
  ⟨log.leaf index, index, Lib.MerkleLog.path op log.leaf (asOf + 1) index log.leaves.length, asOf⟩

/-- `past_path` gives the path that the leaf had. -/
theorem TreeT.Models.pastPath (h : t.Models op log) (hmin : log.flushed ≤ index)
    (hle : index ≤ asOf) (hmax : asOf < log.leaves.length)
    (hbound : log.leaves.length ≤ maxLeaves) :
    ∃ t', t.pastPath op index asOf = .ok (t', log.pastPath op index asOf) ∧ t'.Models op log := by
  have hmaxIndex := h.maxIndex
  have hminIndex : t.minIndex = log.flushed := h.flushed
  have hne : log.leaves ≠ [] := by
    rw [← List.length_pos_iff]
    omega
  obtain ⟨t', root, hroot, hcomputed⟩ := h.computeRoot hne
  obtain ⟨l, hheight, hl, hl64, hlow⟩ := hcomputed.lower hbound
  obtain ⟨a, p, hwalk, hpath⟩ := pastWalk_eq hmin hle hmax
    (t := root) (h := l) (by rw [Nat.div_eq_of_lt (by omega)]; exact hlow) hcomputed.clean
    (by rw [Nat.div_eq_of_lt (by omega), Nat.div_eq_of_lt (by omega)]) hl64 []
  refine ⟨t', ?_, hcomputed.models⟩
  unfold TreeT.pastPath
  rw [if_neg (by omega), hroot]
  show t'.pastWalked op index asOf (pastWalk _ (firstBits _ _) (firstBits _ _) _ _ _) = _
  rw [hheight, firstBits_eq, firstBits_eq, hwalk]
  show (t'.leafNode index >>= fun leaf => _) = _
  rw [hcomputed.models.leafNode hmin (by omega)]
  show Except.ok (t', PathT.mk _ _ (p.path op a) _) = _
  rw [hpath, List.reverse_nil, List.append_nil,
    path_eq (l := log.leaves.length) (by omega) (by omega) (hmax.trans_le Nat.lt_two_pow_self.le)]
  rfl

end

end OptRand.Wire.MerkleTree
