import Mathlib.Data.List.GetD
import Mathlib.Data.Nat.Notation
import Mathlib.Tactic.Ring

/-!
# SHA-256

The hash function as its standard has it: the words of a block are extended to a schedule of 64,
each of which enters one round (`compress`); a message is padded to full blocks, which are
compressed one after the other (`hash`). Code that works on words of another size, or that keeps the
schedule in an array, is compared with this by `foldl_schedule` and `foldl_rounds`; code that is
given a message in parts by `absorb_append`.
-/

namespace OptRand.Lib.Sha256

/-! ## Words -/

/-- The number with the given bytes, the most significant one first. -/
def ofBytes (bytes : List UInt8) : ℕ := bytes.foldl (fun n b => n * 256 + b.toNat) 0

/-- The four bytes of a word. -/
def wordBytes (w : UInt32) : List UInt8 :=
  [UInt8.ofNat (w.toNat / 2 ^ 24), UInt8.ofNat (w.toNat / 2 ^ 16), UInt8.ofNat (w.toNat / 2 ^ 8),
    UInt8.ofNat w.toNat]

/-- The eight bytes of a length. -/
def lengthBytes (n : ℕ) : List UInt8 :=
  [UInt8.ofNat (n / 2 ^ 56), UInt8.ofNat (n / 2 ^ 48), UInt8.ofNat (n / 2 ^ 40),
    UInt8.ofNat (n / 2 ^ 32), UInt8.ofNat (n / 2 ^ 24), UInt8.ofNat (n / 2 ^ 16),
    UInt8.ofNat (n / 2 ^ 8), UInt8.ofNat n]

/-- Rotation to the right. -/
def rotr (n : ℕ) (x : UInt32) : UInt32 := ⟨x.toBitVec.rotateRight n⟩

def ch (x y z : UInt32) : UInt32 := (x &&& y) ^^^ (~~~x &&& z)

def maj (x y z : UInt32) : UInt32 := (x &&& y) ^^^ (x &&& z) ^^^ (y &&& z)

def bigSigma0 (x : UInt32) : UInt32 := rotr 2 x ^^^ rotr 13 x ^^^ rotr 22 x

def bigSigma1 (x : UInt32) : UInt32 := rotr 6 x ^^^ rotr 11 x ^^^ rotr 25 x

def smallSigma0 (x : UInt32) : UInt32 := rotr 7 x ^^^ rotr 18 x ^^^ x >>> 3

def smallSigma1 (x : UInt32) : UInt32 := rotr 17 x ^^^ rotr 19 x ^^^ x >>> 10

/-- The constant of each round. -/
def constants : List UInt32 := [
  0x428a2f98, 0x71374491, 0xb5c0fbcf, 0xe9b5dba5, 0x3956c25b, 0x59f111f1, 0x923f82a4, 0xab1c5ed5,
  0xd807aa98, 0x12835b01, 0x243185be, 0x550c7dc3, 0x72be5d74, 0x80deb1fe, 0x9bdc06a7, 0xc19bf174,
  0xe49b69c1, 0xefbe4786, 0x0fc19dc6, 0x240ca1cc, 0x2de92c6f, 0x4a7484aa, 0x5cb0a9dc, 0x76f988da,
  0x983e5152, 0xa831c66d, 0xb00327c8, 0xbf597fc7, 0xc6e00bf3, 0xd5a79147, 0x06ca6351, 0x14292967,
  0x27b70a85, 0x2e1b2138, 0x4d2c6dfc, 0x53380d13, 0x650a7354, 0x766a0abb, 0x81c2c92e, 0x92722c85,
  0xa2bfe8a1, 0xa81a664b, 0xc24b8b70, 0xc76c51a3, 0xd192e819, 0xd6990624, 0xf40e3585, 0x106aa070,
  0x19a4c116, 0x1e376c08, 0x2748774c, 0x34b0bcb5, 0x391c0cb3, 0x4ed8aa4a, 0x5b9cca4f, 0x682e6ff3,
  0x748f82ee, 0x78a5636f, 0x84c87814, 0x8cc70208, 0x90befffa, 0xa4506ceb, 0xbef9a3f7, 0xc67178f2]

/-- Eight words. -/
@[ext]
structure Words (W : Type) where
  a : W
  b : W
  c : W
  d : W
  e : W
  f : W
  g : W
  h : W

namespace Words

variable {W V : Type}

def map (φ : W → V) (v : Words W) : Words V :=
  ⟨φ v.a, φ v.b, φ v.c, φ v.d, φ v.e, φ v.f, φ v.g, φ v.h⟩

def zipWith {U : Type} (φ : W → V → U) (v : Words W) (v' : Words V) : Words U :=
  ⟨φ v.a v'.a, φ v.b v'.b, φ v.c v'.c, φ v.d v'.d, φ v.e v'.e, φ v.f v'.f, φ v.g v'.g, φ v.h v'.h⟩

def toList (v : Words W) : List W := [v.a, v.b, v.c, v.d, v.e, v.f, v.g, v.h]

theorem toList_map (φ : W → V) (v : Words W) : (v.map φ).toList = v.toList.map φ := rfl

end Words

/-- The digest before the first block. -/
def initial : Words UInt32 :=
  ⟨0x6a09e667, 0xbb67ae85, 0x3c6ef372, 0xa54ff53a, 0x510e527f, 0x9b05688c, 0x1f83d9ab, 0x5be0cd19⟩

/-! ## Blocks -/

/-- The word number `i` of a block. -/
def blockWord (block : List UInt8) (i : ℕ) : UInt32 :=
  UInt32.ofNat (ofBytes [block.getD (4 * i) 0, block.getD (4 * i + 1) 0, block.getD (4 * i + 2) 0,
    block.getD (4 * i + 3) 0])

/-- The schedule, from the words of a block. -/
def schedule (m : ℕ → UInt32) (t : ℕ) : UInt32 :=
  if t < 16 then m t
  else smallSigma1 (schedule m (t - 2)) + schedule m (t - 7) + smallSigma0 (schedule m (t - 15)) +
    schedule m (t - 16)

/-- The round number `t`. -/
def round (m : ℕ → UInt32) (v : Words UInt32) (t : ℕ) : Words UInt32 :=
  let temp1 := v.h + bigSigma1 v.e + ch v.e v.f v.g + constants.getD t 0 + schedule m t
  let temp2 := bigSigma0 v.a + maj v.a v.b v.c
  ⟨temp1 + temp2, v.a, v.b, v.c, v.d + temp1, v.e, v.f, v.g⟩

/-- The digest after a block. -/
def compress (s : Words UInt32) (block : List UInt8) : Words UInt32 :=
  s.zipWith (· + ·) ((List.range 64).foldl (round (blockWord block)) s)

/-! ## Messages -/

section

variable {S α : Type} (f : S → List α → S) (size : ℕ)

/-- Process the full blocks at the beginning, and keep the rest. -/
def absorb (s : S) (l : List α) : S × List α :=
  if _h : 0 < size ∧ size ≤ l.length then absorb (f s (l.take size)) (l.drop size) else (s, l)
termination_by l.length
decreasing_by
  rw [List.length_drop]
  omega

end

/-- A message with its padding. -/
def pad (message : List UInt8) : List UInt8 :=
  message ++ [0x80] ++ List.replicate ((119 - message.length % 64) % 64) 0 ++
    lengthBytes (8 * message.length)

/-- The hash of a message of less than `2 ^ 61` bytes. -/
def hash (message : List UInt8) : List UInt8 :=
  (absorb compress 64 initial (pad message)).1.toList.flatMap wordBytes

/-! ## Other words -/

section

variable {m : ℕ → UInt32} {W : Type} {g : UInt32 → W}

theorem schedule_of_lt {t : ℕ} (ht : t < 16) : schedule m t = m t := by
  rw [schedule, if_pos ht]

theorem schedule_add (t : ℕ) : schedule m (16 + t) =
    smallSigma1 (schedule m (16 + t - 2)) + schedule m (16 + t - 7) +
      smallSigma0 (schedule m (16 + t - 15)) + schedule m (16 + t - 16) := by
  rw [schedule, if_neg (by omega)]

/-- A loop that appends to an array leaves the schedule in it. -/
theorem foldl_schedule (zero : W) (next : W → W → W → W → W)
    (hnext : ∀ x y z w, next (g x) (g y) (g z) (g w) =
      g (smallSigma1 x + y + smallSigma0 z + w)) (n : ℕ) :
    (List.range' 16 n).foldl (fun ws i => ws ++ [next (ws.getD (i - 2) zero)
      (ws.getD (i - 7) zero) (ws.getD (i - 15) zero) (ws.getD (i - 16) zero)])
        ((List.range 16).map fun i => g (m i)) =
      (List.range (16 + n)).map fun t => g (schedule m t) := by
  induction n with
  | zero =>
    apply List.map_congr_left
    intro t ht
    rw [schedule_of_lt (List.mem_range.mp ht)]
  | succ n ih =>
    have hget : ∀ i < 16 + n, ((List.range (16 + n)).map fun t => g (schedule m t)).getD i zero =
        g (schedule m i) := by
      intro i hi
      rw [List.getD_eq_getElem _ _ (by simpa using hi), List.getElem_map, List.getElem_range]
    rw [List.range'_concat, List.foldl_append, ih, Nat.one_mul]
    show _ ++ [next _ _ _ _] = _
    rw [hget _ (by omega), hget _ (by omega), hget _ (by omega), hget _ (by omega), hnext,
      ← schedule_add, ← Nat.add_assoc, List.range_succ, List.map_append]
    rfl

/-- Rounds on other words are those of the standard. -/
theorem foldl_rounds {step : Words W → ℕ → Words W} {l : List ℕ}
    (hstep : ∀ v, ∀ t ∈ l, step (v.map g) t = (round m v t).map g) (v : Words UInt32) :
    l.foldl step (v.map g) = (l.foldl (round m) v).map g := by
  induction l generalizing v with
  | nil => rfl
  | cons t l ih =>
    rw [List.foldl_cons, List.foldl_cons, hstep v t List.mem_cons_self]
    exact ih (fun v t ht => hstep v t (List.mem_cons_of_mem _ ht)) _

end

/-! ## Messages in parts -/

section

variable {S α : Type} {f : S → List α → S} {size : ℕ} {s : S} {l l' : List α}

theorem absorb_of_le (hsize : 0 < size) (hl : size ≤ l.length) :
    absorb f size s l = absorb f size (f s (l.take size)) (l.drop size) := by
  rw [absorb, dif_pos ⟨hsize, hl⟩]

theorem absorb_of_lt (hl : l.length < size) : absorb f size s l = (s, l) := by
  rw [absorb, dif_neg (by omega)]

/-- A full block is processed. -/
theorem absorb_block (hsize : 0 < size) (hl : l.length = size) :
    absorb f size s (l ++ l') = absorb f size (f s l) l' := by
  rw [absorb_of_le hsize (by rw [List.length_append]; omega), List.take_left' hl,
    List.drop_left' hl]

/-- What comes later is processed together with what was left. -/
theorem absorb_append (hsize : 0 < size) (s : S) (l l' : List α) :
    absorb f size s (l ++ l') =
      absorb f size (absorb f size s l).1 ((absorb f size s l).2 ++ l') := by
  by_cases hl : size ≤ l.length
  · rw [absorb_of_le hsize hl, absorb_of_le hsize (by rw [List.length_append]; omega),
      List.take_append_of_le_length hl, List.drop_append_of_le_length hl]
    exact absorb_append hsize _ _ _
  · rw [absorb_of_lt (l := l) (by omega)]
termination_by l.length
decreasing_by
  rw [List.length_drop]
  omega

theorem absorb_last (hsize : 0 < size) (hl : l.length = size) :
    absorb f size s l = (f s l, []) := by
  have hblock : absorb f size s (l ++ []) = absorb f size (f s l) [] := absorb_block hsize hl
  rw [List.append_nil] at hblock
  rw [hblock, absorb_of_lt hsize]

/-- What is left is what does not fill a block. -/
theorem length_absorb_mod (hsize : 0 < size) (s : S) (l : List α) :
    (absorb f size s l).2.length = l.length % size := by
  by_cases hl : size ≤ l.length
  · rw [absorb_of_le hsize hl, length_absorb_mod hsize, List.length_drop,
      ← Nat.mod_eq_sub_mod hl]
  · rw [absorb_of_lt (by omega), Nat.mod_eq_of_lt (by omega)]
termination_by l.length
decreasing_by
  rw [List.length_drop]
  omega

/-- A function that is given to other digests processes the same blocks. -/
theorem absorb_map {S' : Type} {f' : S' → List α → S'} {φ : S → S'}
    (hf : ∀ s l, f' (φ s) l = φ (f s l)) (s : S) (l : List α) :
    absorb f' size (φ s) l = (φ (absorb f size s l).1, (absorb f size s l).2) := by
  by_cases hl : 0 < size ∧ size ≤ l.length
  · rw [absorb_of_le hl.1 hl.2, absorb_of_le hl.1 hl.2, hf]
    exact absorb_map hf _ _
  · rw [absorb, dif_neg hl, absorb, dif_neg hl]
termination_by l.length
decreasing_by
  rw [List.length_drop]
  omega

end

end OptRand.Lib.Sha256
