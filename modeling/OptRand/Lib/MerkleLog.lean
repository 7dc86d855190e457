import Mathlib.Data.List.GetD
import Mathlib.Logic.Function.Basic
import Mathlib.Tactic.Ring

/-!
# The Merkle tree of a log

A log is a sequence of leaf hashes that grows at its end. The node `j` on level `h` of its tree
covers the leaves from `j * 2 ^ h` up to `(j + 1) * 2 ^ h`; where the log ends before the right half
of a node, the node is its left half (`nodeHash`). So a node that lies within the log never changes
(`nodeHash_of_full`), and the root does not depend on the level it is read at (`rootHash_eq`).

The path of a leaf has the siblings of the nodes above it. Climbed from the leaf it gives the root
(`climb_path`), and another leaf or other siblings in the same directions give another one, or a
collision of the operation (`climb_collision`). Its left siblings are the path that the leaf had
when it was the last one (`filter_path`).
-/

namespace OptRand.Lib.MerkleLog

/-- The side at which a sibling joins. -/
inductive Direction
  | left
  | right
  deriving DecidableEq, Repr

/-- An element of a path: the hash of a sibling and the side of it. -/
@[ext]
structure Element (H : Type) where
  hash : H
  direction : Direction
  deriving DecidableEq

section

variable {H : Type} (op : H → H → H)

/-- The hash of the node `j` on level `h`, for the first `n` leaves. -/
def nodeHash (leaf : ℕ → H) (n : ℕ) : ℕ → ℕ → H
  | 0, j => leaf j
  | h + 1, j =>
    if (2 * j + 1) * 2 ^ h < n then
      op (nodeHash leaf n h (2 * j)) (nodeHash leaf n h (2 * j + 1))
    else nodeHash leaf n h (2 * j)

/-- The hash of the tree with `n` leaves. The level `n` is high enough. -/
def rootHash (leaf : ℕ → H) (n : ℕ) : H := nodeHash op leaf n n 0

/-- Hash a sibling with what is below it. -/
def join (x : H) (e : Element H) : H :=
  match e.direction with
  | .left => op e.hash x
  | .right => op x e.hash

/-- The hash at the end of a path that starts at `x`. -/
def climb (x : H) (path : List (Element H)) : H := path.foldl (join op) x

/-- The sibling of the node `j` on level `h`, if there is one. -/
def sibling (leaf : ℕ → H) (n h j : ℕ) : List (Element H) :=
  if j % 2 = 1 then [⟨nodeHash op leaf n h (j - 1), .left⟩]
  else if (j + 1) * 2 ^ h < n then [⟨nodeHash op leaf n h (j + 1), .right⟩]
  else []

/-- The path of leaf `i` up to level `h`. -/
def path (leaf : ℕ → H) (n i : ℕ) : ℕ → List (Element H)
  | 0 => []
  | h + 1 => path leaf n i h ++ sibling op leaf n h (i / 2 ^ h)

end

section

variable {H : Type} {op : H → H → H} {leaf leaf' : ℕ → H} {n m h i j : ℕ}

/-! ## Nodes -/

theorem div_pow_succ (i h : ℕ) : i / 2 ^ (h + 1) = i / 2 ^ h / 2 := by
  rw [pow_succ, Nat.div_div_eq_div_mul]

/-- The two halves of the leaves below a node. -/
theorem two_mul_pow (h j : ℕ) : 2 * j * 2 ^ h = j * 2 ^ (h + 1) := by
  rw [pow_succ]
  ring

theorem two_mul_add_two_pow (h j : ℕ) : (2 * j + 1 + 1) * 2 ^ h = (j + 1) * 2 ^ (h + 1) := by
  rw [pow_succ]
  ring

theorem half_lt (h j : ℕ) : j * 2 ^ (h + 1) < (2 * j + 1) * 2 ^ h := by
  have hpos : 0 < 2 ^ h := Nat.two_pow_pos h
  rw [← two_mul_pow, add_one_mul]
  omega

theorem half_lt_end (h j : ℕ) : (2 * j + 1) * 2 ^ h < (j + 1) * 2 ^ (h + 1) := by
  have hpos : 0 < 2 ^ h := Nat.two_pow_pos h
  rw [← two_mul_add_two_pow, add_one_mul (2 * j + 1)]
  omega

theorem mul_pow_le (i h : ℕ) : i / 2 ^ h * 2 ^ h ≤ i := Nat.div_mul_le_self i (2 ^ h)

theorem lt_succ_mul_pow (i h : ℕ) : i < (i / 2 ^ h + 1) * 2 ^ h :=
  (Nat.div_lt_iff_lt_mul (Nat.two_pow_pos h)).mp (Nat.lt_succ_self _)

theorem nodeHash_succ_of_lt (hlt : (2 * j + 1) * 2 ^ h < n) :
    nodeHash op leaf n (h + 1) j =
      op (nodeHash op leaf n h (2 * j)) (nodeHash op leaf n h (2 * j + 1)) := by
  show (if _ then _ else _) = _
  rw [if_pos hlt]

theorem nodeHash_succ_of_le (hle : n ≤ (2 * j + 1) * 2 ^ h) :
    nodeHash op leaf n (h + 1) j = nodeHash op leaf n h (2 * j) := by
  show (if _ then _ else _) = _
  rw [if_neg (by omega)]

/-- The hash of a node depends on the leaves below it. -/
theorem nodeHash_congr (hj : j * 2 ^ h < n)
    (hnum : ∀ i, j * 2 ^ h ≤ i → i < (j + 1) * 2 ^ h → (i < n ↔ i < m))
    (hleaf : ∀ i, j * 2 ^ h ≤ i → i < (j + 1) * 2 ^ h → i < n → leaf i = leaf' i) :
    nodeHash op leaf n h j = nodeHash op leaf' m h j := by
  induction h generalizing j with
  | zero => exact hleaf j (by omega) (by omega) (by omega)
  | succ h ih =>
    have hstart := two_mul_pow h j
    have hend := two_mul_add_two_pow h j
    have hbefore := half_lt h j
    have hafter := half_lt_end h j
    have hleft : nodeHash op leaf n h (2 * j) = nodeHash op leaf' m h (2 * j) := by
      apply ih (by omega)
      · exact fun i hi hlt => hnum i (by omega) (by omega)
      · exact fun i hi hlt => hleaf i (by omega) (by omega)
    have hmiddle := hnum ((2 * j + 1) * 2 ^ h) (by omega) (by omega)
    by_cases hlt : (2 * j + 1) * 2 ^ h < n
    · rw [nodeHash_succ_of_lt hlt, nodeHash_succ_of_lt (hmiddle.mp hlt), hleft]
      congr 1
      apply ih hlt
      · exact fun i hi hlt => hnum i (by omega) (by omega)
      · exact fun i hi hlt => hleaf i (by omega) (by omega)
    · rw [nodeHash_succ_of_le (by omega), nodeHash_succ_of_le (by omega), hleft]

/-- A node that the log covers stays as it is when the log grows. -/
theorem nodeHash_of_full (hn : (j + 1) * 2 ^ h ≤ n) (hm : (j + 1) * 2 ^ h ≤ m) :
    nodeHash op leaf n h j = nodeHash op leaf m h j := by
  have hpos := Nat.two_pow_pos h
  have hsplit := add_one_mul j (2 ^ h)
  apply nodeHash_congr (by omega)
  · exact fun i _ _ => by omega
  · exact fun i _ _ _ => rfl

/-- A level that is not needed adds nothing. -/
theorem nodeHash_zero (hn : n ≤ 2 ^ h) (hm : h ≤ m) :
    nodeHash op leaf n m 0 = nodeHash op leaf n h 0 := by
  induction m, hm using Nat.le_induction with
  | base => rfl
  | succ m hm ih =>
    have hpow : 2 ^ h ≤ 2 ^ m := Nat.pow_le_pow_right (by omega) hm
    rw [nodeHash_succ_of_le (by omega)]
    exact ih

/-- The root, read at any level that is high enough. -/
theorem rootHash_eq (hn : n ≤ 2 ^ h) : rootHash op leaf n = nodeHash op leaf n h 0 := by
  have hself : n ≤ 2 ^ n := n.lt_two_pow_self.le
  rcases Nat.le_total n h with hle | hle
  · exact (nodeHash_zero hself hle).symm
  · exact nodeHash_zero hn hle

theorem rootHash_congr (hn : 0 < n) (hleaf : ∀ i < n, leaf i = leaf' i) :
    rootHash op leaf n = rootHash op leaf' n := by
  apply nodeHash_congr (by omega)
  · exact fun i _ _ => Iff.rfl
  · exact fun i _ _ => hleaf i

/-! ## Paths -/

theorem climb_append (x : H) (es es' : List (Element H)) :
    climb op x (es ++ es') = climb op (climb op x es) es' := List.foldl_append

theorem sibling_two_mul (hn : (2 * j + 1) * 2 ^ h < n) :
    sibling op leaf n h (2 * j) = [⟨nodeHash op leaf n h (2 * j + 1), .right⟩] := by
  unfold sibling
  rw [if_neg (by omega), if_pos hn]

theorem sibling_two_mul_add_one :
    sibling op leaf n h (2 * j + 1) = [⟨nodeHash op leaf n h (2 * j), .left⟩] := by
  unfold sibling
  rw [if_pos (by omega), Nat.add_sub_cancel]

/-- The node above a node of the log is that node with its sibling. -/
theorem climb_sibling (hj : j * 2 ^ h < n) :
    climb op (nodeHash op leaf n h j) (sibling op leaf n h j) =
      nodeHash op leaf n (h + 1) (j / 2) := by
  unfold sibling
  split
  · rename_i hodd
    have heven : 2 * (j / 2) = j - 1 := by omega
    have hself : j - 1 + 1 = j := by omega
    rw [nodeHash_succ_of_lt (by rw [heven, hself]; exact hj), heven, hself]
    rfl
  · rename_i heven
    have hself : 2 * (j / 2) = j := by omega
    split
    · rename_i hlt
      rw [nodeHash_succ_of_lt (by rw [hself]; exact hlt), hself]
      rfl
    · rename_i hle
      rw [nodeHash_succ_of_le (by rw [hself]; omega), hself]
      rfl

/-- The path of a leaf leads to the nodes above it. -/
theorem climb_path (hi : i < n) :
    climb op (leaf i) (path op leaf n i h) = nodeHash op leaf n h (i / 2 ^ h) := by
  induction h with
  | zero => rw [pow_zero, Nat.div_one]; rfl
  | succ h ih =>
    have hle := mul_pow_le i h
    rw [path, climb_append, ih, climb_sibling (by omega), div_pow_succ]

theorem climb_path_root (hi : i < n) (hn : n ≤ 2 ^ h) :
    climb op (leaf i) (path op leaf n i h) = rootHash op leaf n := by
  rw [climb_path hi, rootHash_eq hn, Nat.div_eq_of_lt (by omega)]

/-- A path has at most one sibling on each level. -/
theorem length_path_le (i h : ℕ) : (path op leaf n i h).length ≤ h := by
  induction h with
  | zero => exact le_rfl
  | succ h ih =>
    have hsibling : (sibling op leaf n h (i / 2 ^ h)).length ≤ 1 := by
      unfold sibling
      split
      · exact le_rfl
      split
      · exact le_rfl
      · exact Nat.zero_le 1
    rw [path, List.length_append]
    omega

/-- A level that is not needed adds nothing to a path. -/
theorem path_zero_of_le (hn : n ≤ 2 ^ h) (hi : i < n) (hm : h ≤ m) :
    path op leaf n i m = path op leaf n i h := by
  induction m, hm using Nat.le_induction with
  | base => rfl
  | succ m hm ih =>
    have hpow : 2 ^ h ≤ 2 ^ m := Nat.pow_le_pow_right (by omega) hm
    have hdiv : i / 2 ^ m = 0 := Nat.div_eq_of_lt (by omega)
    rw [path, ih, hdiv, sibling, if_neg (by omega), if_neg (by omega), List.append_nil]

/-- The path to the root does not depend on the level it is read to. -/
theorem path_eq {l : ℕ} (hi : i < n) (hn : n ≤ 2 ^ h) (hl : n ≤ 2 ^ l) :
    path op leaf n i h = path op leaf n i l := by
  rcases Nat.le_total h l with hle | hle
  · exact (path_zero_of_le hn hi hle).symm
  · exact path_zero_of_le hl hi hle

/-- A path depends on the leaves of the log. -/
theorem path_congr (hi : i < n) (hleaf : ∀ i < n, leaf i = leaf' i) :
    path op leaf n i h = path op leaf' n i h := by
  have hnode : ∀ {h j}, j * 2 ^ h < n → nodeHash op leaf n h j = nodeHash op leaf' n h j := by
    intro h j hj
    apply nodeHash_congr hj
    · exact fun i _ _ => Iff.rfl
    · exact fun i _ _ => hleaf i
  induction h with
  | zero => rfl
  | succ h ih =>
    have hle := mul_pow_le i h
    rw [path, path, ih, sibling, sibling]
    split
    · have hbefore : (i / 2 ^ h - 1) * 2 ^ h ≤ i / 2 ^ h * 2 ^ h :=
        Nat.mul_le_mul_right _ (Nat.sub_le _ _)
      rw [hnode (by omega)]
    split
    · rename_i hlt
      rw [hnode hlt]
    · rfl

/-- What is hashed where a sibling joins. -/
def operands (x : H) (e : Element H) : H × H :=
  match e.direction with
  | .left => (e.hash, x)
  | .right => (x, e.hash)

theorem join_eq (x : H) (e : Element H) : join op x e = op (operands x e).1 (operands x e).2 := by
  unfold join operands
  split
  · rfl
  · rfl

theorem operands_injective {x y : H} {e e' : Element H} (hdir : e.direction = e'.direction)
    (h : operands x e = operands y e') : x = y ∧ e = e' := by
  obtain ⟨hash, direction⟩ := e
  obtain ⟨hash', direction'⟩ := e'
  cases hdir
  cases direction with
  | left =>
    obtain ⟨rfl, rfl⟩ := Prod.mk.inj h
    exact ⟨rfl, rfl⟩
  | right =>
    obtain ⟨rfl, rfl⟩ := Prod.mk.inj h
    exact ⟨rfl, rfl⟩

/-- Climb two paths side by side, up to the first place where they meet. -/
def collision [DecidableEq H] (op : H → H → H) :
    H → H → List (Element H) → List (Element H) → Option ((H × H) × (H × H))
  | x, y, e :: es, e' :: es' =>
    if operands x e ≠ operands y e' ∧ join op x e = join op y e' then
      some (operands x e, operands y e')
    else collision op (join op x e) (join op y e') es es'
  | _, _, _, _ => none

/-- Two paths to one hash with the same directions are the same, or they meet in a collision of the
operation. -/
theorem climb_collision [DecidableEq H] {x y : H} {es es' : List (Element H)}
    (hdir : es.map Element.direction = es'.map Element.direction)
    (h : climb op x es = climb op y es') :
    (x = y ∧ es = es') ∨ ∃ a b, collision op x y es es' = some (a, b) ∧ a ≠ b ∧
      op a.1 a.2 = op b.1 b.2 := by
  induction es generalizing es' x y with
  | nil =>
    cases es' with
    | nil => exact Or.inl ⟨h, rfl⟩
    | cons e' es' => cases hdir
  | cons e es ih =>
    cases es' with
    | nil => cases hdir
    | cons e' es' =>
      obtain ⟨hhead, htail⟩ := List.cons.inj hdir
      rw [collision]
      by_cases hmeet : operands x e ≠ operands y e' ∧ join op x e = join op y e'
      · rw [if_pos hmeet]
        obtain ⟨hne, hjoin⟩ := hmeet
        rw [join_eq, join_eq] at hjoin
        exact Or.inr ⟨_, _, rfl, hne, hjoin⟩
      · rw [if_neg hmeet]
        rcases ih htail h with ⟨hjoin, rfl⟩ | hcollision
        · have hsame : operands x e = operands y e' := by
            by_contra hne
            exact hmeet ⟨hne, hjoin⟩
          obtain ⟨rfl, rfl⟩ := operands_injective hhead hsame
          exact Or.inl ⟨rfl, rfl⟩
        · exact Or.inr hcollision

/-! ## Shorter logs -/

/-- Climbing along left siblings only. -/
theorem foldl_filter_left (x : H) (es : List (Element H)) :
    (es.filter fun e => e.direction = .left).foldl (fun x e => op e.hash x) x =
      climb op x (es.filter fun e => e.direction = .left) := by
  induction es generalizing x with
  | nil => rfl
  | cons e es ih =>
    obtain ⟨hash, direction⟩ := e
    cases direction with
    | left => exact ih (op hash x)
    | right => exact ih x

theorem sibling_of_full (hn : (2 * (j / 2) + 1 + 1) * 2 ^ h ≤ n)
    (hm : (2 * (j / 2) + 1 + 1) * 2 ^ h ≤ m) :
    sibling op leaf n h j = sibling op leaf m h j := by
  have hafter := half_lt_end h (j / 2)
  rw [← two_mul_add_two_pow] at hafter
  unfold sibling
  rcases Nat.mod_two_eq_zero_or_one j with heven | hodd
  · have hself : 2 * (j / 2) = j := by omega
    rw [hself] at hn hm hafter
    have hlt : (j + 1) * 2 ^ h < n := by omega
    have hlt' : (j + 1) * 2 ^ h < m := by omega
    simp only [heven, Nat.zero_ne_one, if_false, hlt, hlt', if_true, nodeHash_of_full hn hm]
  · have hself : j - 1 + 1 = j := by omega
    rw [show 2 * (j / 2) + 1 = j by omega] at hn hm hafter
    rw [if_pos hodd, if_pos hodd, nodeHash_of_full (n := n) (m := m) (by rw [hself]; omega)
      (by rw [hself]; omega)]

/-- In a subtree that two logs cover, a leaf has the same path in both. -/
theorem path_of_full (hn : (i / 2 ^ h + 1) * 2 ^ h ≤ n) (hm : (i / 2 ^ h + 1) * 2 ^ h ≤ m) :
    path op leaf n i h = path op leaf m i h := by
  induction h with
  | zero => rfl
  | succ h ih =>
    rw [div_pow_succ, ← two_mul_add_two_pow] at hn hm
    have hafter := half_lt_end h (i / 2 ^ h / 2)
    rw [← two_mul_add_two_pow] at hafter
    have hstep : (i / 2 ^ h + 1) * 2 ^ h ≤ (2 * (i / 2 ^ h / 2) + 1 + 1) * 2 ^ h :=
      Nat.mul_le_mul_right _ (by omega)
    rw [path, path, ih (hstep.trans hn) (hstep.trans hm), sibling_of_full hn hm]

/-- A left sibling is the same in every log that has the leaf. -/
theorem sibling_filter (hn : j * 2 ^ h ≤ n) (hm : j * 2 ^ h ≤ m)
    (hlast : m ≤ (j + 1) * 2 ^ h) :
    (sibling op leaf n h j).filter (fun e => e.direction = .left) = sibling op leaf m h j := by
  unfold sibling
  split
  · rename_i hodd
    have hself : j - 1 + 1 = j := by omega
    rw [nodeHash_of_full (n := n) (m := m) (by rw [hself]; exact hn) (by rw [hself]; exact hm)]
    rfl
  · rw [if_neg (show ¬ (j + 1) * 2 ^ h < m by omega)]
    split
    · rfl
    · rfl

/-- The left siblings of a leaf are the path that it had as the last leaf. -/
theorem filter_path (hi : i < n) :
    (path op leaf n i h).filter (fun e => e.direction = .left) = path op leaf (i + 1) i h := by
  induction h with
  | zero => rfl
  | succ h ih =>
    have hle := mul_pow_le i h
    rw [path, path, List.filter_append, ih,
      sibling_filter (by omega) (by omega) (lt_succ_mul_pow i h)]

end

end OptRand.Lib.MerkleLog
