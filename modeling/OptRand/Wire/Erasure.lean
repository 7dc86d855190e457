import OptRand.Wire.Entity
import Mathlib.Data.Finset.Card
import Mathlib.Data.Finset.Range
import Mathlib.Tactic.IntervalCases
import Mathlib.Tactic.Ring

/-!
# Erasure coding (`erasure.h`)

`Erasure::encode` pads a byte string to `k` blocks of one size and adds `m` coding blocks;
`Erasure::decode` restores the blocks that are missing and puts the byte string together again,
without the padding. Both compute the size of a block in `int`, `unsigned` and `unsigned long`
arithmetic, as below; the coding itself is that of the library, `Jerasure`, and what is assumed of
it is `Mds`.

The block size is `64 * stripes` for the number of stripes that is needed (`encodeStripes_eq`,
`decodeStripes_eq`), and the last loop takes the bytes of the string and no others
(`reassemble_eq`), so that any `k` chunks give the string back (`Erasure.decode_encode`).
-/

namespace OptRand.Wire

open Lib

/-! ## The library -/

/-- The functions of `jerasure` that are used. A block is a list of bytes; `matrixDecode` gives the
data blocks afterwards, or nothing where the library returns `-1`. -/
structure Jerasure where
  Matrix : Type
  vandermonde : Int32 → Int32 → Int32 → Matrix
  matrixEncode : Int32 → Int32 → Int32 → Matrix → List (List UInt8) → Int32 → List (List UInt8)
  matrixDecode : Int32 → Int32 → Int32 → Matrix → Int32 → List Int32 → List (List UInt8) →
    List (List UInt8) → Int32 → Option (List (List UInt8))

/-- `n` blocks of `len` bytes. -/
structure Blocks (n len : ℕ) (bs : List (List UInt8)) : Prop where
  count : bs.length = n
  size : ∀ b ∈ bs, b.length = len

/-- The coding blocks of `data`. -/
def Jerasure.coding (J : Jerasure) (k m : ℕ) (data : List (List UInt8)) (len : ℕ) :
    List (List UInt8) :=
  J.matrixEncode (Int32.ofNat k) (Int32.ofNat m) 8
    (J.vandermonde (Int32.ofNat k) (Int32.ofNat m) 8) data (Int32.ofNat len)

/-- Coding with `w = 8` is maximum distance separable: when the blocks that are not listed as erased
are those of a code word and at most `m` are listed, the data blocks are restored. -/
structure Jerasure.Mds (J : Jerasure) (k m : ℕ) : Prop where
  blocks : ∀ {data : List (List UInt8)} {len : ℕ}, 0 < len → 8 ∣ len → len < 2 ^ 31 →
    Blocks k len data → Blocks m len (J.coding k m data len)
  restores : ∀ {data data' coding' : List (List UInt8)} {len : ℕ} {erasures : List ℕ}, 0 < len →
    8 ∣ len → len < 2 ^ 31 → Blocks k len data → Blocks k len data' → Blocks m len coding' →
    erasures.Nodup → (∀ i ∈ erasures, i < k + m) → erasures.length ≤ m →
    (∀ i < k + m, i ∉ erasures →
      (data' ++ coding')[i]? = (data ++ J.coding k m data len)[i]?) →
    J.matrixDecode (Int32.ofNat k) (Int32.ofNat m) 8
      (J.vandermonde (Int32.ofNat k) (Int32.ofNat m) 8) 1 (erasures.map Int32.ofNat ++ [-1]) data'
      coding' (Int32.ofNat len) = some data

/-! ## The size of a block -/

namespace Erasure

/-- The conversion of an `int` to `unsigned long`. -/
def toULong (a : Int32) : UInt64 := a.toInt64.toUInt64

/-- `int x = (int) size / (k * w * sizeof(long))`: the division is one of `unsigned long`. -/
def quotient (k w size : Int32) : Int32 := (toULong size / (toULong (k * w) * 8)).toInt64.toInt32

/-- `x * k * w * (int) sizeof(long)`. -/
def newsize (x k w : Int32) : Int32 := x * k * w * 8

/-- `x` in `encode`, where `size` is a `uint32_t`. -/
def encodeStripes (k w : Int32) (size : UInt32) : Int32 :=
  let x := quotient k w size.toInt32
  if (newsize x k w).toUInt32 < size then x + 1 else x

/-- `x` in `decode`, where `size` is a `size_t`. -/
def decodeStripes (k w : Int32) (size : UInt64) : Int32 :=
  let x := quotient k w size.toUInt32.toInt32
  if toULong (newsize x k w) < size then x + 1 else x

/-- The number of stripes of `64 * k` bytes that `n` bytes need. -/
def stripes (n k : ℕ) : ℕ := (n + 64 * k - 1) / (64 * k)

theorem toNat_ofNat32 {n : ℕ} (hn : n < 2 ^ 31) : (UInt32.ofNat n).toNat = n := by
  apply UInt32.toNat_ofNat_of_lt'
  show n < 2 ^ 32
  omega

theorem toNat_ofNat64 {n : ℕ} (hn : n < 2 ^ 31) : (UInt64.ofNat n).toNat = n := by
  apply UInt64.toNat_ofNat_of_lt'
  show n < 2 ^ 64
  omega

theorem toULong_ofNat {n : ℕ} (hn : n < 2 ^ 31) : toULong (Int32.ofNat n) = UInt64.ofNat n := by
  unfold toULong
  rw [Int32.toInt64_ofNat']
  · rfl
  · rw [Int32.toInt_maxValue]
    omega

theorem quotient_ofNat {n k : ℕ} (hn : n < 2 ^ 31) (hk : 64 * k < 2 ^ 31) :
    quotient (Int32.ofNat k) 8 (Int32.ofNat n) = Int32.ofNat (n / (64 * k)) := by
  unfold quotient
  have hmul : Int32.ofNat k * 8 = Int32.ofNat (k * 8) := (Int32.ofNat_mul k 8).symm
  rw [hmul, toULong_ofNat (by omega), toULong_ofNat (by omega)]
  have hdiv : UInt64.ofNat n / (UInt64.ofNat (k * 8) * 8) = UInt64.ofNat (n / (64 * k)) := by
    have hquot : n / (64 * k) ≤ n := Nat.div_le_self n _
    apply UInt64.toNat_inj.mp
    rw [UInt64.toNat_div, UInt64.toNat_mul, toNat_ofNat64 (by omega), toNat_ofNat64 (by omega),
      toNat_ofNat64 (by omega)]
    have hsame : k * 8 * (8 : UInt64).toNat % 2 ^ 64 = 64 * k := by
      rw [show (8 : UInt64).toNat = 8 from rfl]
      omega
    rw [hsame]
  rw [hdiv, UInt64.toInt64_ofNat', Int64.toInt32_ofNat']

theorem newsize_ofNat (x k : ℕ) :
    newsize (Int32.ofNat x) (Int32.ofNat k) 8 = Int32.ofNat (64 * k * x) := by
  have h : 64 * k * x = x * k * 8 * 8 := by ring
  rw [h, Int32.ofNat_mul, Int32.ofNat_mul, Int32.ofNat_mul]
  rfl

theorem stripes_bounds {n k : ℕ} (hk : 0 < k) :
    n ≤ 64 * k * stripes n k ∧ 64 * k * stripes n k < n + 64 * k := by
  unfold stripes
  have hpos : 0 < 64 * k := by omega
  have hdiv := Nat.div_add_mod (n + 64 * k - 1) (64 * k)
  have hmod := Nat.mod_lt (n + 64 * k - 1) hpos
  omega

/-- The correction by one after the division makes it round up. -/
theorem stripes_eq {n k : ℕ} (hk : 0 < k) :
    (if 64 * k * (n / (64 * k)) < n then n / (64 * k) + 1 else n / (64 * k)) = stripes n k := by
  have hpos : 0 < 64 * k := by omega
  have hdiv := Nat.div_add_mod n (64 * k)
  have hmod := Nat.mod_lt n hpos
  have hsum : n + 64 * k - 1 = 64 * k * (n / (64 * k)) + (n % (64 * k) + 64 * k - 1) := by omega
  unfold stripes
  rw [hsum, Nat.mul_add_div hpos]
  split
  · have hone : (n % (64 * k) + 64 * k - 1) / (64 * k) = 1 := by
      apply Nat.div_eq_of_lt_le <;> omega
    rw [hone]
  · have hzero : (n % (64 * k) + 64 * k - 1) / (64 * k) = 0 := by
      apply Nat.div_eq_of_lt
      omega
    rw [hzero, Nat.add_zero]

theorem encodeStripes_eq {n k : ℕ} (hk : 0 < k) (hn : n < 2 ^ 31) (hk31 : 64 * k < 2 ^ 31) :
    encodeStripes (Int32.ofNat k) 8 (UInt32.ofNat n) = Int32.ofNat (stripes n k) := by
  unfold encodeStripes
  have hquot : 64 * k * (n / (64 * k)) ≤ n := Nat.mul_div_le n (64 * k)
  have hcond : (newsize (Int32.ofNat (n / (64 * k))) (Int32.ofNat k) 8).toUInt32 < UInt32.ofNat n ↔
      64 * k * (n / (64 * k)) < n := by
    rw [newsize_ofNat, Int32.toUInt32_ofNat', UInt32.lt_iff_toNat_lt, toNat_ofNat32 (by omega),
      toNat_ofNat32 (by omega)]
  rw [UInt32.toInt32_ofNat', quotient_ofNat hn hk31, ← stripes_eq hk]
  simp only [hcond]
  split
  · rw [Int32.ofNat_add]
    rfl
  · rfl

theorem decodeStripes_eq {n k : ℕ} (hk : 0 < k) (hn : n < 2 ^ 31) (hk31 : 64 * k < 2 ^ 31) :
    decodeStripes (Int32.ofNat k) 8 (UInt32.ofNat n).toUInt64 = Int32.ofNat (stripes n k) := by
  unfold decodeStripes
  have hquot : 64 * k * (n / (64 * k)) ≤ n := Nat.mul_div_le n (64 * k)
  have hsize : (UInt32.ofNat n).toUInt64.toNat = n := by
    rw [UInt32.toNat_toUInt64, toNat_ofNat32 (by omega)]
  have hcond : toULong (newsize (Int32.ofNat (n / (64 * k))) (Int32.ofNat k) 8) <
      (UInt32.ofNat n).toUInt64 ↔ 64 * k * (n / (64 * k)) < n := by
    rw [newsize_ofNat, toULong_ofNat (by omega), UInt64.lt_iff_toNat_lt, toNat_ofNat64 (by omega),
      hsize]
  have hint : (UInt32.ofNat n).toUInt64.toUInt32.toInt32 = Int32.ofNat n := by
    rw [UInt32.toUInt32_toUInt64, UInt32.toInt32_ofNat']
  rw [hint, quotient_ofNat hn hk31, ← stripes_eq hk]
  simp only [hcond]
  split
  · rw [Int32.ofNat_add]
    rfl
  · rfl

/-! ## Encoding and decoding -/

/-- `Erasure::encode`: the chunks, and the stream, which is left with the padding. -/
def encode (J : Jerasure) (k m w : Int32) (s : List UInt8) : List Chunk × List UInt8 :=
  let size := UInt32.ofNat s.length
  let x := encodeStripes k w size
  let blocksize := newsize x k w / k
  let extra := ((newsize x k w).toUInt32 - size).toInt32
  let block := s ++ List.replicate extra.toNatClampNeg 48
  let data := (List.range k.toNatClampNeg).map fun i =>
    (block.drop (i * blocksize.toNatClampNeg)).take blocksize.toNatClampNeg
  let coding := J.matrixEncode k m w (J.vandermonde k m w) data blocksize
  ((data ++ coding).map (Chunk.mk size), block)

/-- The part of the block `b` at which the loop of `decode` has stopped. -/
def lastPart (size : UInt64) (blocksize : Int32) (b : List UInt8) (j : UInt64)
    (s : List UInt8) : List UInt8 :=
  let extra := (j - size).toInt64.toInt32
  if 0 < extra then s ++ b.take (blocksize - extra).toNatClampNeg else s

/-- The loop of `decode` over the data blocks, and what follows it. -/
def reassemble (size : UInt64) (blocksize : Int32) :
    List (List UInt8) → UInt64 → List UInt8 → List UInt8
  | [], j, s => lastPart size blocksize [] j s
  | b :: bs, j, s =>
    let j := j + toULong blocksize
    if size < j then lastPart size blocksize b j s
    else reassemble size blocksize bs j (s ++ b.take blocksize.toNatClampNeg)

/-- `Erasure::decode`: whether it succeeds, and the stream afterwards. -/
def decode (J : Jerasure) (k m w : Int32) (chunks : List Chunk) (erasures : List Int32)
    (s : List UInt8) : Bool × List UInt8 :=
  let chunk := fun i => chunks.getD i ⟨0, []⟩
  let size := (chunk 0).size.toUInt64
  let x := decodeStripes k w size
  let blocksize := newsize x k w / k
  let data := (List.range k.toNatClampNeg).map fun i => (chunk i).data
  let coding := (List.range m.toNatClampNeg).map fun i => (chunk (k.toNatClampNeg + i)).data
  match J.matrixDecode k m w (J.vandermonde k m w) 1 erasures data coding blocksize with
  | none => (false, s)
  | some data => (true, reassemble size blocksize data 0 s)

theorem lastPart_eq {n c B : ℕ} {b s : List UInt8} (hn : n < 2 ^ 31) (hB : B < 2 ^ 31)
    (hle : n ≤ c) (hpart : c - n ≤ B) :
    lastPart (UInt32.ofNat n).toUInt64 (Int32.ofNat B) b (UInt64.ofNat c) s =
      if n < c then s ++ b.take (B - (c - n)) else s := by
  have hsize : (UInt32.ofNat n).toUInt64 = UInt64.ofNat n := by
    apply UInt64.toNat_inj.mp
    rw [UInt32.toNat_toUInt64, toNat_ofNat32 hn, toNat_ofNat64 hn]
  have hextra : (UInt64.ofNat c - UInt64.ofNat n).toInt64.toInt32 = Int32.ofNat (c - n) := by
    rw [← UInt64.ofNat_sub hle, UInt64.toInt64_ofNat', Int64.toInt32_ofNat']
  have hpos : 0 < Int32.ofNat (c - n) ↔ n < c := by
    rw [show (0 : Int32) = Int32.ofNat 0 from rfl, Int32.ofNat_lt_iff_lt (by omega) (by omega)]
    omega
  unfold lastPart
  simp only [hsize, hextra, hpos]
  rw [← Int32.ofNat_sub B (c - n) hpart, Int32.toNatClampNeg_ofNat_of_lt (by omega)]

/-- The loop appends the bytes of the blocks up to `size`. -/
theorem reassemble_eq {n c B : ℕ} {bs : List (List UInt8)} (hbs : ∀ b ∈ bs, b.length = B)
    (hB : B < 2 ^ 31) (hle : c ≤ n) (hn : n ≤ c + bs.length * B)
    (hlt : c + bs.length * B < 2 ^ 31) (s : List UInt8) :
    reassemble (UInt32.ofNat n).toUInt64 (Int32.ofNat B) bs (UInt64.ofNat c) s =
      s ++ bs.flatten.take (n - c) := by
  induction bs generalizing c s with
  | nil =>
    have heq : n = c := by
      rw [List.length_nil] at hn
      omega
    subst heq
    unfold reassemble
    rw [lastPart_eq (by omega) hB le_rfl (by omega), if_neg (lt_irrefl n)]
    simp
  | cons b bs ih =>
    have hlen : (b :: bs).length * B = B + bs.length * B := by
      rw [List.length_cons, Nat.succ_mul, Nat.add_comm]
    have hb : b.length = B := hbs b List.mem_cons_self
    rw [hlen] at hn hlt
    have hnext : UInt64.ofNat c + toULong (Int32.ofNat B) = UInt64.ofNat (c + B) := by
      rw [toULong_ofNat (by omega), UInt64.ofNat_add]
    have hcond : (UInt32.ofNat n).toUInt64 < UInt64.ofNat (c + B) ↔ n < c + B := by
      rw [UInt64.lt_iff_toNat_lt, UInt32.toNat_toUInt64, toNat_ofNat32 (by omega),
        toNat_ofNat64 (by omega)]
    unfold reassemble
    simp only [hnext, hcond]
    split
    · rename_i hstop
      -- the string ends in this block
      rw [lastPart_eq (by omega) (by omega) (by omega) (by omega), if_pos hstop, List.flatten_cons,
        List.take_append_of_le_length (by omega)]
      congr 2
      omega
    · rename_i hmore
      have hrest : ∀ x ∈ bs, x.length = B := fun x hx => hbs x (List.mem_cons_of_mem b hx)
      have htake : (b ++ bs.flatten).take (n - c) = b ++ bs.flatten.take (n - (c + B)) := by
        rw [List.take_append, List.take_of_length_le (by omega), hb, Nat.sub_sub]
      rw [ih hrest (by omega) (by omega) (by omega), Int32.toNatClampNeg_ofNat_of_lt hB,
        List.flatten_cons, htake, List.append_assoc, List.take_of_length_le hb.le]

/-! ## Decoding what was encoded -/

/-- The string with its padding, for blocks of `B` bytes. -/
def padded (d : List UInt8) (k B : ℕ) : List UInt8 := d ++ List.replicate (k * B - d.length) 48

/-- The first `k` slices of `B` bytes. -/
def slices (l : List UInt8) (k B : ℕ) : List (List UInt8) :=
  (List.range k).map fun i => (l.drop (i * B)).take B

theorem flatten_slices (l : List UInt8) (k B : ℕ) : (slices l k B).flatten = l.take (k * B) := by
  induction k with
  | zero => simp [slices]
  | succ k ih =>
    have hlast : slices l (k + 1) B = slices l k B ++ [(l.drop (k * B)).take B] := by
      unfold slices
      rw [List.range_succ, List.map_append, List.map_singleton]
    rw [hlast, List.flatten_append, List.flatten_singleton, ih, Nat.succ_mul, List.take_add]

theorem blocks_slices {l : List UInt8} {k B : ℕ} (hl : l.length = k * B) :
    Blocks k B (slices l k B) := by
  refine ⟨by simp [slices], ?_⟩
  intro b hb
  obtain ⟨i, hi, rfl⟩ := List.mem_map.mp hb
  have hmul : (i + 1) * B ≤ k * B := Nat.mul_le_mul_right B (List.mem_range.mp hi)
  rw [Nat.succ_mul] at hmul
  rw [List.length_take, List.length_drop, hl]
  omega

section

variable {J : Jerasure} {k m : ℕ} {d : List UInt8}

/-- The size of a block for `d`. -/
def blockLen (d : List UInt8) (k : ℕ) : ℕ := 64 * stripes d.length k

theorem blockLen_bounds (hk : 0 < k) (hd : d ≠ [])
    (hfits : 64 * k * stripes d.length k < 2 ^ 31) :
    0 < blockLen d k ∧ blockLen d k < 2 ^ 31 ∧ d.length ≤ k * blockLen d k ∧
      k * blockLen d k < 2 ^ 31 := by
  have hle := (stripes_bounds (n := d.length) hk).1
  have hpos := List.length_pos_iff.mpr hd
  have hmul : k * blockLen d k = 64 * k * stripes d.length k := by
    unfold blockLen
    ring
  have hone : blockLen d k ≤ k * blockLen d k := Nat.le_mul_of_pos_left _ hk
  refine ⟨?_, by omega, by omega, by omega⟩
  by_contra hzero
  have hzero : blockLen d k = 0 := by omega
  rw [hzero] at hmul
  omega

/-- Neither the string nor the number of blocks is too long for an `int`. -/
theorem lt_of_fits (hk : 0 < k) (hd : d ≠ []) (hfits : 64 * k * stripes d.length k < 2 ^ 31) :
    d.length < 2 ^ 31 ∧ 64 * k < 2 ^ 31 := by
  have hle := (stripes_bounds (n := d.length) hk).1
  have hpos := List.length_pos_iff.mpr hd
  have hone : 0 < stripes d.length k := by
    by_contra hzero
    rw [Nat.eq_zero_of_not_pos hzero] at hle
    omega
  have hmul : 64 * k ≤ 64 * k * stripes d.length k := Nat.le_mul_of_pos_right _ hone
  omega

theorem blocksize_eq (hk : 0 < k) (hk31 : 64 * k < 2 ^ 31)
    (hfits : 64 * k * stripes d.length k < 2 ^ 31) :
    newsize (Int32.ofNat (stripes d.length k)) (Int32.ofNat k) 8 / Int32.ofNat k =
      Int32.ofNat (blockLen d k) := by
  have hmul : 64 * k * stripes d.length k = k * blockLen d k := by
    unfold blockLen
    ring
  rw [newsize_ofNat, ← Int32.ofNat_div (by omega) (by omega), hmul, Nat.mul_div_cancel_left _ hk]

/-- A block consists of full words. -/
theorem eight_dvd_blockLen (d : List UInt8) (k : ℕ) : 8 ∣ blockLen d k :=
  ⟨8 * stripes d.length k, by unfold blockLen; ring⟩

theorem blocks_data (hk : 0 < k) (hd : d ≠ []) (hfits : 64 * k * stripes d.length k < 2 ^ 31) :
    Blocks k (blockLen d k) (slices (padded d k (blockLen d k)) k (blockLen d k)) := by
  apply blocks_slices
  have hle := (blockLen_bounds hk hd hfits).2.2.1
  rw [padded, List.length_append, List.length_replicate]
  omega

/-- The blocks that a byte string is sent in. -/
def word (J : Jerasure) (k m : ℕ) (d : List UInt8) : List (List UInt8) :=
  slices (padded d k (blockLen d k)) k (blockLen d k) ++
    J.coding k m (slices (padded d k (blockLen d k)) k (blockLen d k)) (blockLen d k)

/-- What `encode` does in terms of numbers. -/
theorem encode_eq (hk : 0 < k) (hd : d ≠ []) (hfits : 64 * k * stripes d.length k < 2 ^ 31) :
    encode J (Int32.ofNat k) (Int32.ofNat m) 8 d =
      ((word J k m d).map (Chunk.mk (UInt32.ofNat d.length)), padded d k (blockLen d k)) := by
  obtain ⟨-, hB, hle, hlt⟩ := blockLen_bounds hk hd hfits
  obtain ⟨hn, hk31⟩ := lt_of_fits hk hd hfits
  have hmul : 64 * k * stripes d.length k = k * blockLen d k := by
    unfold blockLen
    ring
  have hextra : ((newsize (Int32.ofNat (stripes d.length k)) (Int32.ofNat k) 8).toUInt32 -
      UInt32.ofNat d.length).toInt32 = Int32.ofNat (k * blockLen d k - d.length) := by
    rw [newsize_ofNat, hmul, Int32.toUInt32_ofNat', ← UInt32.ofNat_sub hle, UInt32.toInt32_ofNat']
  have hpad : (Int32.ofNat (k * blockLen d k - d.length)).toNatClampNeg =
      k * blockLen d k - d.length := Int32.toNatClampNeg_ofNat_of_lt (by omega)
  have hcount : (Int32.ofNat k).toNatClampNeg = k := Int32.toNatClampNeg_ofNat_of_lt (by omega)
  unfold encode
  simp only [encodeStripes_eq hk hn hk31, blocksize_eq hk hk31 hfits, hextra, hpad, hcount,
    Int32.toNatClampNeg_ofNat_of_lt hB]
  rfl

/-- The chunks that have arrived, and zeros of the same size in place of the others. -/
def received (chunks : List Chunk) (S : Finset ℕ) : List Chunk :=
  chunks.mapIdx fun i c => if i ∈ S then c else ⟨c.size, List.replicate c.data.length 0⟩

section

variable {size : UInt32} {word : List (List UInt8)} {S : Finset ℕ} {B : ℕ}

theorem length_received (hword : Blocks (k + m) B word) :
    (received (word.map (Chunk.mk size)) S).length = k + m := by
  rw [received, List.length_mapIdx, List.length_map, hword.count]

/-- Every chunk is as large as those that were sent. -/
theorem mem_received (hword : Blocks (k + m) B word) {c : Chunk}
    (h : c ∈ received (word.map (Chunk.mk size)) S) : c.size = size ∧ c.data.length = B := by
  obtain ⟨i, hi, rfl⟩ := List.mem_mapIdx.mp h
  have hi' : i < word.length := by simpa using hi
  have hlen : word[i].length = B := hword.size _ (List.getElem_mem hi')
  rw [List.getElem_map]
  split
  · exact ⟨rfl, hlen⟩
  · exact ⟨rfl, List.length_replicate.trans hlen⟩

/-- The chunks that have arrived are as they were sent. -/
theorem data_received {i : ℕ} (hi : i ∈ S) :
    ((received (word.map (Chunk.mk size)) S).map Chunk.data)[i]? = word[i]? := by
  unfold received
  rw [List.getElem?_map, List.getElem?_mapIdx, List.getElem?_map]
  cases word[i]? with
  | none => rfl
  | some b => simp [hi]

theorem blocks_getD {l : List Chunk} {n offset : ℕ} (hl : ∀ c ∈ l, c.data.length = B)
    (hlen : offset + n ≤ l.length) :
    Blocks n B ((List.range n).map fun i => (l.getD (offset + i) ⟨0, []⟩).data) := by
  refine ⟨by simp, ?_⟩
  intro b hb
  obtain ⟨i, hi, rfl⟩ := List.mem_map.mp hb
  have hlt : offset + i < l.length := by
    have := List.mem_range.mp hi
    omega
  rw [List.getD_eq_getElem?_getD, List.getElem?_eq_getElem hlt, Option.getD_some]
  exact hl _ (List.getElem_mem hlt)

end

/-- At most `m` chunks are missing. -/
theorem length_erasures {S : Finset ℕ} {erasures : List ℕ} (hS : S ⊆ Finset.range (k + m))
    (hcard : k ≤ S.card) (hnodup : erasures.Nodup)
    (herased : ∀ i, i ∈ erasures ↔ i < k + m ∧ i ∉ S) : erasures.length ≤ m := by
  have heq : erasures.toFinset = Finset.range (k + m) \ S := by
    ext i
    rw [List.mem_toFinset, herased, Finset.mem_sdiff, Finset.mem_range]
  rw [← List.toFinset_card_of_nodup hnodup, heq, Finset.card_sdiff_of_subset hS, Finset.card_range]
  omega

theorem map_range_getD {l : List Chunk} (hl : l.length = k + m) :
    ((List.range k).map fun i => (l.getD (0 + i) ⟨0, []⟩).data) ++
      ((List.range m).map fun i => (l.getD (k + i) ⟨0, []⟩).data) = l.map Chunk.data := by
  apply List.ext_getElem
  · simp [hl]
  · intro i hi hi'
    have hlt : i < l.length := by simpa using hi'
    rw [List.getElem_map, List.getElem_append]
    split
    · simp [hlt]
    · rename_i hge
      have hle : k ≤ i := by simpa using hge
      simp [Nat.add_sub_cancel' hle, hlt]

theorem blocks_append {a b : List (List UInt8)} {B : ℕ} (ha : Blocks k B a) (hb : Blocks m B b) :
    Blocks (k + m) B (a ++ b) := by
  refine ⟨by rw [List.length_append, ha.count, hb.count], ?_⟩
  intro x hx
  exact (List.mem_append.mp hx).elim (ha.size x) (hb.size x)

/-! ## Decoding -/

/-- The library codes `k` blocks with `m` more, and the byte string is neither empty nor too
long. -/
structure Codable (J : Jerasure) (k m : ℕ) (d : List UInt8) : Prop where
  mds : J.Mds k m
  pos : 0 < k
  count : k + m ≤ 256
  ne : d ≠ []
  short : d.length + 64 * k < 2 ^ 31

/-- Chunks of the right size, which are those of `d` unless they are listed. -/
structure Received (J : Jerasure) (k m : ℕ) (d : List UInt8) (recv : List Chunk)
    (erasures : List ℕ) : Prop where
  count : recv.length = k + m
  size : ∀ chunk ∈ recv, chunk.size = UInt32.ofNat d.length ∧ chunk.data.length = blockLen d k
  nodup : erasures.Nodup
  lt : ∀ i ∈ erasures, i < k + m
  few : erasures.length ≤ m
  agree : ∀ i < k + m, i ∉ erasures → (recv.map Chunk.data)[i]? = (word J k m d)[i]?

namespace Codable

theorem fits (h : Codable J k m d) : 64 * k * stripes d.length k < 2 ^ 31 :=
  (stripes_bounds (n := d.length) h.pos).2.trans h.short

theorem blocks_word (h : Codable J k m d) : Blocks (k + m) (blockLen d k) (word J k m d) := by
  obtain ⟨hpos, hB, -, -⟩ := blockLen_bounds h.pos h.ne h.fits
  have hdata := blocks_data h.pos h.ne h.fits
  exact blocks_append hdata (h.mds.blocks hpos (eight_dvd_blockLen d k) hB hdata)

/-- The library restores the data blocks. -/
theorem matrixDecode_received (h : Codable J k m d) {recv : List Chunk} {erasures : List ℕ}
    (hrecv : Received J k m d recv erasures) :
    J.matrixDecode (Int32.ofNat k) (Int32.ofNat m) 8
      (J.vandermonde (Int32.ofNat k) (Int32.ofNat m) 8) 1 (erasures.map Int32.ofNat ++ [-1])
      ((List.range k).map fun i => (recv.getD i ⟨0, []⟩).data)
      ((List.range m).map fun i => (recv.getD (k + i) ⟨0, []⟩).data)
      (Int32.ofNat (blockLen d k)) =
        some (slices (padded d k (blockLen d k)) k (blockLen d k)) := by
  obtain ⟨hpos, hB, -, -⟩ := blockLen_bounds h.pos h.ne h.fits
  have hcount := hrecv.count
  have hchunk : ∀ c ∈ recv, c.data.length = blockLen d k := fun c hc => (hrecv.size c hc).2
  have hagree := hrecv.agree
  rw [← map_range_getD hcount] at hagree
  have hdecoded := h.mds.restores hpos (eight_dvd_blockLen d k) hB (blocks_data h.pos h.ne h.fits)
    (blocks_getD hchunk (by omega)) (blocks_getD hchunk (by omega)) hrecv.nodup hrecv.lt hrecv.few
    hagree
  simpa only [Nat.zero_add] using hdecoded

/-- The chunks are decoded to the byte string: it is appended to the stream, without its padding. -/
theorem decode_received (h : Codable J k m d) {recv : List Chunk} {erasures : List ℕ}
    (hrecv : Received J k m d recv erasures) (s : List UInt8) :
    decode J (Int32.ofNat k) (Int32.ofNat m) 8 recv (erasures.map Int32.ofNat ++ [-1]) s =
      (true, s ++ d) := by
  obtain ⟨-, hB, hle, hlt⟩ := blockLen_bounds h.pos h.ne h.fits
  obtain ⟨hn, h64⟩ := lt_of_fits h.pos h.ne h.fits
  have hk := h.pos
  have hcount := h.count
  have hlength := hrecv.count
  have hpadded : (padded d k (blockLen d k)).length = k * blockLen d k := by
    rw [padded, List.length_append, List.length_replicate]
    omega
  have hsize : (recv.getD 0 ⟨0, []⟩).size = UInt32.ofNat d.length := by
    have hzero : 0 < recv.length := by omega
    rw [List.getD_eq_getElem?_getD, List.getElem?_eq_getElem hzero, Option.getD_some]
    exact (hrecv.size _ (List.getElem_mem hzero)).1
  unfold decode
  simp only [hsize, decodeStripes_eq hk hn h64, blocksize_eq hk h64 h.fits,
    Int32.toNatClampNeg_ofNat_of_lt (show k < 2 ^ 31 by omega),
    Int32.toNatClampNeg_ofNat_of_lt (show m < 2 ^ 31 by omega), h.matrixDecode_received hrecv]
  -- the loop leaves the padding out
  have hdata := blocks_data hk h.ne h.fits
  have hloop := reassemble_eq hdata.size hB (Nat.zero_le d.length)
    (by rw [hdata.count, Nat.zero_add]; exact hle) (by rw [hdata.count]; omega) s
  rw [show (0 : UInt64) = UInt64.ofNat 0 from rfl, hloop, flatten_slices, Nat.sub_zero,
    List.take_of_length_le hpadded.le, padded, List.take_left]

end Codable

/-- The chunks of a byte string, with zeros in place of those that have not arrived, are decoded to
the byte string: it is appended to the stream, without its padding. -/
theorem decode_encode (J : Jerasure) (k m : ℕ) (hk : 1 ≤ k) (hkm : k + m ≤ 256) (hJ : J.Mds k m)
    (d : List UInt8) (hd : d ≠ []) (hlen : d.length + 64 * k < 2 ^ 31) (S : Finset ℕ)
    (hS : S ⊆ Finset.range (k + m)) (hcard : k ≤ S.card) (erasures : List ℕ)
    (hnodup : erasures.Nodup) (herased : ∀ i, i ∈ erasures ↔ i < k + m ∧ i ∉ S)
    (s : List UInt8) :
    decode J (Int32.ofNat k) (Int32.ofNat m) 8
      (received (encode J (Int32.ofNat k) (Int32.ofNat m) 8 d).1 S)
      (erasures.map Int32.ofNat ++ [-1]) s = (true, s ++ d) := by
  have h : Codable J k m d := ⟨hJ, hk, hkm, hd, hlen⟩
  have hword := h.blocks_word
  rw [encode_eq hk hd h.fits]
  refine h.decode_received ?_ s
  constructor
  · exact length_received hword
  · exact fun c hc => mem_received hword hc
  · exact hnodup
  · exact fun i hi => ((herased i).mp hi).1
  · exact length_erasures hS hcard hnodup herased
  · intro i hi hne
    have hiS : i ∈ S := by
      by_contra hout
      exact hne ((herased i).mpr ⟨hi, hout⟩)
    exact data_received hiS

end

/-- The bytes of two blocks, added. -/
def xorBlocks (a b : List UInt8) : List UInt8 := List.zipWith (· ^^^ ·) a b

theorem xorBlocks_cancel_right {a b : List UInt8} (h : a.length = b.length) :
    xorBlocks (xorBlocks a b) b = a := by
  unfold xorBlocks
  apply List.ext_getElem
  · simp [h]
  · intro i hi hi'
    rw [List.getElem_zipWith, List.getElem_zipWith, UInt8.xor_assoc, UInt8.xor_self,
      UInt8.xor_zero]

theorem xorBlocks_cancel_left {a b : List UInt8} (h : a.length = b.length) :
    xorBlocks a (xorBlocks a b) = b := by
  unfold xorBlocks
  apply List.ext_getElem
  · simp [h]
  · intro i hi hi'
    rw [List.getElem_zipWith, List.getElem_zipWith, ← UInt8.xor_assoc, UInt8.xor_self,
      UInt8.zero_xor]

/-- Two data blocks and their sum: the code of a Vandermonde matrix with one row of ones. -/
def sumCode : Jerasure where
  Matrix := Unit
  vandermonde _ _ _ := ()
  matrixEncode _ _ _ _ data _ :=
    match data with
    | [a, b] => [xorBlocks a b]
    | _ => []
  matrixDecode _ _ _ _ _ erasures data coding _ :=
    match erasures, data, coding with
    | [_], data, _ => some data
    | [e, _], [a, b], [p] =>
      if e = 0 then some [xorBlocks p b, b]
      else if e = 1 then some [a, xorBlocks a p]
      else some [a, b]
    | _, _, _ => none

theorem sumCode_mds : sumCode.Mds 2 1 where
  blocks := by
    intro data len _ _ _ hdata
    obtain ⟨a, b, rfl⟩ := List.length_eq_two.mp hdata.count
    have ha : a.length = len := hdata.size a (by simp)
    have hb : b.length = len := hdata.size b (by simp)
    refine ⟨rfl, fun c hc => ?_⟩
    cases List.mem_singleton.mp hc
    simp [xorBlocks, ha, hb]
  restores := by
    intro data data' coding' len erasures _ _ _ hdata hdata' hcoding' hnodup hlt hle hagree
    obtain ⟨a, b, rfl⟩ := List.length_eq_two.mp hdata.count
    obtain ⟨a', b', rfl⟩ := List.length_eq_two.mp hdata'.count
    obtain ⟨p, rfl⟩ := List.length_eq_one_iff.mp hcoding'.count
    have hsame : a.length = b.length :=
      (hdata.size a (by simp)).trans (hdata.size b (by simp)).symm
    have ha : 0 ∉ erasures → a' = a := fun h => Option.some.inj (hagree 0 (by omega) h)
    have hb : 1 ∉ erasures → b' = b := fun h => Option.some.inj (hagree 1 (by omega) h)
    have hp : 2 ∉ erasures → p = xorBlocks a b := fun h => Option.some.inj (hagree 2 (by omega) h)
    cases erasures with
    | nil =>
      rw [ha (by simp), hb (by simp)]
      rfl
    | cons e es =>
      have hes : es = [] := List.length_eq_zero_iff.mp (by simpa using hle)
      subst hes
      have he := hlt e List.mem_cons_self
      interval_cases e
      · cases hb (by simp)
        cases hp (by simp)
        show some [xorBlocks (xorBlocks a b) b, b] = _
        rw [xorBlocks_cancel_right hsame]
      · cases ha (by simp)
        cases hp (by simp)
        show some [a, xorBlocks a (xorBlocks a b)] = _
        rw [xorBlocks_cancel_left hsame]
      · cases ha (by simp)
        cases hb (by simp)
        rfl

theorem decode_encode_first : decode sumCode (Int32.ofNat 2) (Int32.ofNat 1) 8
    (received (encode sumCode (Int32.ofNat 2) (Int32.ofNat 1) 8 [7, 0, 255]).1 {1, 2})
    ([0].map Int32.ofNat ++ [-1]) [9] = (true, [9] ++ [7, 0, 255]) :=
  decode_encode sumCode 2 1 (by decide) (by decide) sumCode_mds [7, 0, 255] (by decide) (by decide)
    {1, 2} (by decide) (by decide) [0] (by decide) (by
      intro i
      simp
      omega) [9]

end Erasure

end OptRand.Wire
