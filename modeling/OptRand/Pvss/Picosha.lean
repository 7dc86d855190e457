import OptRand.Lib.Sha256

/-!
# `picosha2` (`picosha.h`)

`picosha2` computes SHA-256 in words of 64 bits that it masks, with the length of the message in
four digits of 16 bits. A block is compressed as the standard has it (`hash256Block_toUInt64`), the
digits stand for the length (`digitsValue_addToDigits`), and whatever the parts are in which a
message is given, the digest is the hash of the whole (`digest_eq_hash`).
-/

namespace OptRand.Pvss.Picosha2

open Lib Lib.Sha256

/-! ## Words -/

def mask8bit (x : UInt8) : UInt8 := x &&& 0xff

def mask32bit (x : UInt64) : UInt64 := x &&& 0xffffffff

/-- `add_constant`. -/
def addConstant : List UInt64 := [
  0x428a2f98, 0x71374491, 0xb5c0fbcf, 0xe9b5dba5, 0x3956c25b, 0x59f111f1,
  0x923f82a4, 0xab1c5ed5, 0xd807aa98, 0x12835b01, 0x243185be, 0x550c7dc3,
  0x72be5d74, 0x80deb1fe, 0x9bdc06a7, 0xc19bf174, 0xe49b69c1, 0xefbe4786,
  0x0fc19dc6, 0x240ca1cc, 0x2de92c6f, 0x4a7484aa, 0x5cb0a9dc, 0x76f988da,
  0x983e5152, 0xa831c66d, 0xb00327c8, 0xbf597fc7, 0xc6e00bf3, 0xd5a79147,
  0x06ca6351, 0x14292967, 0x27b70a85, 0x2e1b2138, 0x4d2c6dfc, 0x53380d13,
  0x650a7354, 0x766a0abb, 0x81c2c92e, 0x92722c85, 0xa2bfe8a1, 0xa81a664b,
  0xc24b8b70, 0xc76c51a3, 0xd192e819, 0xd6990624, 0xf40e3585, 0x106aa070,
  0x19a4c116, 0x1e376c08, 0x2748774c, 0x34b0bcb5, 0x391c0cb3, 0x4ed8aa4a,
  0x5b9cca4f, 0x682e6ff3, 0x748f82ee, 0x78a5636f, 0x84c87814, 0x8cc70208,
  0x90befffa, 0xa4506ceb, 0xbef9a3f7, 0xc67178f2]

/-- `initial_message_digest`. -/
def initialMessageDigest : Words UInt64 :=
  ⟨0x6a09e667, 0xbb67ae85, 0x3c6ef372, 0xa54ff53a, 0x510e527f, 0x9b05688c, 0x1f83d9ab, 0x5be0cd19⟩

def ch (x y z : UInt64) : UInt64 := (x &&& y) ^^^ (~~~x &&& z)

def maj (x y z : UInt64) : UInt64 := (x &&& y) ^^^ (x &&& z) ^^^ (y &&& z)

def rotr (x n : UInt64) : UInt64 := mask32bit (x >>> n ||| x <<< (32 - n))

def bsig0 (x : UInt64) : UInt64 := rotr x 2 ^^^ rotr x 13 ^^^ rotr x 22

def bsig1 (x : UInt64) : UInt64 := rotr x 6 ^^^ rotr x 11 ^^^ rotr x 25

def shr (x n : UInt64) : UInt64 := x >>> n

def ssig0 (x : UInt64) : UInt64 := rotr x 7 ^^^ rotr x 18 ^^^ shr x 3

def ssig1 (x : UInt64) : UInt64 := rotr x 17 ^^^ rotr x 19 ^^^ shr x 10

/-! ## Blocks -/

/-- The word number `i` of a block. -/
def blockWord (block : List UInt8) (i : ℕ) : UInt64 :=
  (mask8bit (block.getD (i * 4) 0)).toUInt64 <<< 24 |||
    (mask8bit (block.getD (i * 4 + 1) 0)).toUInt64 <<< 16 |||
    (mask8bit (block.getD (i * 4 + 2) 0)).toUInt64 <<< 8 |||
    (mask8bit (block.getD (i * 4 + 3) 0)).toUInt64

/-- The array `w` of `hash256_block`. -/
def words (block : List UInt8) : List UInt64 :=
  (List.range' 16 48).foldl (fun w i => w ++ [mask32bit (ssig1 (w.getD (i - 2) 0) +
    w.getD (i - 7) 0 + ssig0 (w.getD (i - 15) 0) + w.getD (i - 16) 0)])
      ((List.range 16).map (blockWord block))

/-- The loop body over the 64 words. -/
def round (w : List UInt64) (v : Words UInt64) (i : ℕ) : Words UInt64 :=
  let temp1 := v.h + bsig1 v.e + ch v.e v.f v.g + addConstant.getD i 0 + w.getD i 0
  let temp2 := bsig0 v.a + maj v.a v.b v.c
  ⟨mask32bit (temp1 + temp2), v.a, v.b, v.c, mask32bit (v.d + temp1), v.e, v.f, v.g⟩

/-- `hash256_block`. -/
def hash256Block (messageDigest : Words UInt64) (block : List UInt8) : Words UInt64 :=
  (messageDigest.zipWith (· + ·) ((List.range 64).foldl (round (words block)) messageDigest)).map
    mask32bit

/-! ## Messages -/

/-- `hash256_one_by_one`, as `init` leaves it. -/
structure Hash256OneByOne where
  buffer : List UInt8 := []
  dataLengthDigits : List UInt64 := [0, 0, 0, 0]
  h : Words UInt64 := initialMessageDigest

/-- The loop of `add_to_data_length`. -/
def addToDigits (carry : UInt64) : List UInt64 → List UInt64
  | [] => []
  | digit :: digits =>
    if 65536 ≤ digit + carry then
      ((digit + carry) &&& 65535) :: addToDigits ((digit + carry) >>> 16) digits
    else (digit + carry) :: digits

/-- The loop that makes a number of bits in `write_data_bit_length`. -/
def bitDigits (carry : UInt64) : List UInt64 → List UInt64
  | [] => []
  | digit :: digits =>
    ((digit <<< 3 ||| carry) &&& 65535) :: bitDigits (digit >>> (16 - 3) &&& 65535) digits

/-- `std::fill` of the places from `first` up to `last`. -/
def fill (temp : List UInt8) (first last : ℕ) : List UInt8 :=
  temp.take first ++ List.replicate (last - first) 0 ++ temp.drop last

namespace Hash256OneByOne

/-- `process`. -/
def process (s : Hash256OneByOne) (part : List UInt8) : Hash256OneByOne :=
  let (h, buffer) := absorb hash256Block 64 s.h (s.buffer ++ part)
  ⟨buffer, addToDigits (UInt64.ofNat part.length) s.dataLengthDigits, h⟩

/-- `write_data_bit_length`: the bytes that are written. -/
def dataBitLength (s : Hash256OneByOne) : List UInt8 :=
  (bitDigits 0 s.dataLengthDigits).reverse.flatMap fun (digit : UInt64) =>
    [(digit >>> 8).toUInt8, digit.toUInt8]

/-- `finish`: the digest afterwards. -/
def finish (s : Hash256OneByOne) : Words UInt64 :=
  let remains := s.buffer.length
  let temp := s.buffer ++ [0x80] ++ List.replicate (64 - (remains + 1)) 0
  if 55 < remains then
    let temp := fill temp (remains + 1) 64
    let h := hash256Block s.h temp
    let temp := fill temp 0 (64 - 4)
    hash256Block h (temp.take 56 ++ s.dataBitLength)
  else
    let temp := fill temp (remains + 1) (64 - 4)
    hash256Block s.h (temp.take 56 ++ s.dataBitLength)

end Hash256OneByOne

/-- `get_hash_bytes`. -/
def getHashBytes (h : Words UInt64) : List UInt8 :=
  h.toList.flatMap fun word => (List.range 4).map fun i =>
    mask8bit (word >>> (24 - 8 * UInt64.ofNat i)).toUInt8

/-- `hash256_impl` for random access iterators. -/
def hash256 (message : List UInt8) : List UInt8 :=
  getHashBytes (({} : Hash256OneByOne).process message).finish

/-- The parts that `hash256_impl` reads into its buffer. -/
def parts (bufferSize : ℕ) (message : List UInt8) : List (List UInt8) :=
  if _h : message ≠ [] ∧ 0 < bufferSize then
    message.take bufferSize :: parts bufferSize (message.drop bufferSize)
  else []
termination_by message.length
decreasing_by
  have hpos := List.length_pos_iff.mpr _h.1
  rw [List.length_drop]
  omega

/-- `hash256_impl` for input iterators. -/
def hash256Input (bufferSize : ℕ) (message : List UInt8) : List UInt8 :=
  getHashBytes ((parts bufferSize message).foldl Hash256OneByOne.process {}).finish

/-! ## Words of 64 bits -/

theorem mask32bit_eq (x : UInt64) : mask32bit x = x.toUInt32.toUInt64 := by
  apply UInt64.toNat_inj.mp
  show (x &&& 0xffffffff).toNat = x.toUInt32.toUInt64.toNat
  rw [UInt64.toNat_and, UInt32.toNat_toUInt64, UInt64.toNat_toUInt32]
  exact Nat.and_two_pow_sub_one_eq_mod _ 32

theorem mask8bit_eq (x : UInt8) : mask8bit x = x := by
  apply UInt8.toNat_inj.mp
  show (x &&& 0xff).toNat = x.toNat
  rw [UInt8.toNat_and]
  exact (Nat.and_two_pow_sub_one_eq_mod _ 8).trans (Nat.mod_eq_of_lt x.toNat_lt)

theorem shifts_toUInt64 (x : UInt32) {k l : UInt32} (hk : k < 32) (hl : l < 32) :
    mask32bit (x.toUInt64 >>> k.toUInt64 ||| x.toUInt64 <<< l.toUInt64) =
      (x >>> k ||| x <<< l).toUInt64 := by
  have hk64 : k.toUInt64 % 32 = k.toUInt64 := by
    apply UInt64.toNat_inj.mp
    have hlt : k.toNat < 32 := UInt32.lt_iff_toNat_lt.mp hk
    rw [UInt64.toNat_mod, UInt32.toNat_toUInt64]
    exact Nat.mod_eq_of_lt hlt
  have hl64 : l.toUInt64 < 32 := by
    apply UInt64.lt_iff_toNat_lt.mpr
    rw [UInt32.toNat_toUInt64]
    exact UInt32.lt_iff_toNat_lt.mp hl
  have hright : x.toUInt64 >>> k.toUInt64 = (x >>> k).toUInt64 := by
    rw [UInt32.toUInt64_shiftRight, hk64]
  rw [mask32bit_eq, UInt32.toUInt64_inj, UInt64.toUInt32_or, UInt64.toUInt32_shiftLeft _ _ hl64,
    hright, UInt32.toUInt32_toUInt64, UInt32.toUInt32_toUInt64, UInt32.toUInt32_toUInt64]

theorem bsig0_toUInt64 (x : UInt32) : bsig0 x.toUInt64 = (bigSigma0 x).toUInt64 := by
  have h2 : rotr x.toUInt64 2 = (Sha256.rotr 2 x).toUInt64 :=
    shifts_toUInt64 x (k := 2) (l := 30) (by decide) (by decide)
  have h13 : rotr x.toUInt64 13 = (Sha256.rotr 13 x).toUInt64 :=
    shifts_toUInt64 x (k := 13) (l := 19) (by decide) (by decide)
  have h22 : rotr x.toUInt64 22 = (Sha256.rotr 22 x).toUInt64 :=
    shifts_toUInt64 x (k := 22) (l := 10) (by decide) (by decide)
  rw [bsig0, h2, h13, h22]
  rfl

theorem bsig1_toUInt64 (x : UInt32) : bsig1 x.toUInt64 = (bigSigma1 x).toUInt64 := by
  have h6 : rotr x.toUInt64 6 = (Sha256.rotr 6 x).toUInt64 :=
    shifts_toUInt64 x (k := 6) (l := 26) (by decide) (by decide)
  have h11 : rotr x.toUInt64 11 = (Sha256.rotr 11 x).toUInt64 :=
    shifts_toUInt64 x (k := 11) (l := 21) (by decide) (by decide)
  have h25 : rotr x.toUInt64 25 = (Sha256.rotr 25 x).toUInt64 :=
    shifts_toUInt64 x (k := 25) (l := 7) (by decide) (by decide)
  rw [bsig1, h6, h11, h25]
  rfl

theorem ssig0_toUInt64 (x : UInt32) : ssig0 x.toUInt64 = (smallSigma0 x).toUInt64 := by
  have h7 : rotr x.toUInt64 7 = (Sha256.rotr 7 x).toUInt64 :=
    shifts_toUInt64 x (k := 7) (l := 25) (by decide) (by decide)
  have h18 : rotr x.toUInt64 18 = (Sha256.rotr 18 x).toUInt64 :=
    shifts_toUInt64 x (k := 18) (l := 14) (by decide) (by decide)
  have h3 : shr x.toUInt64 3 = (x >>> 3).toUInt64 := (UInt32.toUInt64_shiftRight x 3).symm
  rw [ssig0, h7, h18, h3]
  rfl

theorem ssig1_toUInt64 (x : UInt32) : ssig1 x.toUInt64 = (smallSigma1 x).toUInt64 := by
  have h17 : rotr x.toUInt64 17 = (Sha256.rotr 17 x).toUInt64 :=
    shifts_toUInt64 x (k := 17) (l := 15) (by decide) (by decide)
  have h19 : rotr x.toUInt64 19 = (Sha256.rotr 19 x).toUInt64 :=
    shifts_toUInt64 x (k := 19) (l := 13) (by decide) (by decide)
  have h10 : shr x.toUInt64 10 = (x >>> 10).toUInt64 := (UInt32.toUInt64_shiftRight x 10).symm
  rw [ssig1, h17, h19, h10]
  rfl

theorem ch_toUInt64 (x y z : UInt32) :
    (ch x.toUInt64 y.toUInt64 z.toUInt64).toUInt32 = Sha256.ch x y z := by
  unfold ch Sha256.ch
  simp only [UInt64.toUInt32_xor, UInt64.toUInt32_and, UInt64.toUInt32_not,
    UInt32.toUInt32_toUInt64]

theorem maj_toUInt64 (x y z : UInt32) :
    maj x.toUInt64 y.toUInt64 z.toUInt64 = (Sha256.maj x y z).toUInt64 := rfl

theorem addConstant_eq : addConstant = constants.map UInt32.toUInt64 := by
  decide

theorem or_bytes {a b c d : ℕ} (hb : b < 256) (hc : c < 256) (hd : d < 256) :
    a <<< 24 ||| b <<< 16 ||| c <<< 8 ||| d = ((a * 256 + b) * 256 + c) * 256 + d := by
  have hstep : ∀ {x y : ℕ}, y < 256 → x <<< 8 ||| y = x * 256 + y := by
    intro x y hy
    rw [← Nat.shiftLeft_add_eq_or_of_lt (i := 8) hy, Nat.shiftLeft_eq]
  rw [← hstep hb, ← hstep hc, ← hstep hd, Nat.shiftLeft_or_distrib, Nat.shiftLeft_or_distrib,
    Nat.shiftLeft_or_distrib, ← Nat.shiftLeft_add, ← Nat.shiftLeft_add, ← Nat.shiftLeft_add]

theorem toNat_shiftLeft_byte (a : UInt8) {k : UInt64} (hk : k.toNat ≤ 24) :
    (a.toUInt64 <<< k).toNat = a.toNat <<< k.toNat := by
  have ha := a.toNat_lt
  have hfits : a.toNat <<< k.toNat < 2 ^ 64 := by
    rw [Nat.shiftLeft_eq]
    calc a.toNat * 2 ^ k.toNat
        ≤ a.toNat * 2 ^ 24 := Nat.mul_le_mul_left _ (Nat.pow_le_pow_right (by omega) hk)
      _ < 2 ^ 64 := by omega
  rw [UInt64.toNat_shiftLeft, UInt8.toNat_toUInt64, Nat.mod_eq_of_lt (a := k.toNat) (by omega),
    Nat.mod_eq_of_lt hfits]

theorem blockWord_eq (block : List UInt8) (i : ℕ) :
    blockWord block i = (Sha256.blockWord block i).toUInt64 := by
  unfold blockWord Sha256.blockWord ofBytes
  rw [mask8bit_eq, mask8bit_eq, mask8bit_eq, mask8bit_eq, Nat.mul_comm i 4]
  generalize block.getD (4 * i) 0 = b0
  generalize block.getD (4 * i + 1) 0 = b1
  generalize block.getD (4 * i + 2) 0 = b2
  generalize block.getD (4 * i + 3) 0 = b3
  apply UInt64.toNat_inj.mp
  have h0 := b0.toNat_lt
  have h1 := b1.toNat_lt
  have h2 := b2.toNat_lt
  have h3 := b3.toNat_lt
  rw [UInt64.toNat_or, UInt64.toNat_or, UInt64.toNat_or, toNat_shiftLeft_byte b0 (by decide),
    toNat_shiftLeft_byte b1 (by decide), toNat_shiftLeft_byte b2 (by decide), UInt8.toNat_toUInt64,
    UInt32.toNat_toUInt64, UInt32.toNat_ofNat']
  show b0.toNat <<< 24 ||| b1.toNat <<< 16 ||| b2.toNat <<< 8 ||| b3.toNat = _
  rw [or_bytes h1 h2 h3]
  simp only [List.foldl_cons, List.foldl_nil]
  omega

/-- The array `w` holds the schedule. -/
theorem words_eq (block : List UInt8) : words block =
    (List.range 64).map fun t => (schedule (Sha256.blockWord block) t).toUInt64 := by
  have hfirst : (List.range 16).map (blockWord block) =
      (List.range 16).map fun i => (Sha256.blockWord block i).toUInt64 :=
    List.map_congr_left fun i _ => blockWord_eq block i
  have hnext : ∀ x y z w : UInt32, mask32bit (ssig1 x.toUInt64 + y.toUInt64 + ssig0 z.toUInt64 +
      w.toUInt64) = (smallSigma1 x + y + smallSigma0 z + w).toUInt64 := by
    intro x y z w
    rw [ssig0_toUInt64, ssig1_toUInt64, mask32bit_eq, UInt32.toUInt64_inj]
    simp only [UInt64.toUInt32_add, UInt32.toUInt32_toUInt64]
  rw [words, hfirst]
  exact foldl_schedule 0 (fun x y z w => mask32bit (ssig1 x + y + ssig0 z + w)) hnext 48

theorem round_toUInt64 (block : List UInt8) (v : Words UInt32) {t : ℕ} (ht : t < 64) :
    round (words block) (v.map UInt32.toUInt64) t =
      (Sha256.round (Sha256.blockWord block) v t).map UInt32.toUInt64 := by
  have hword : (words block).getD t 0 = (schedule (Sha256.blockWord block) t).toUInt64 := by
    rw [words_eq, List.getD_eq_getElem _ _ (by simpa using ht), List.getElem_map,
      List.getElem_range]
  have hconstant : addConstant.getD t 0 = (constants.getD t 0).toUInt64 := by
    rw [addConstant_eq]
    exact List.getD_map constants 0 UInt32.toUInt64
  unfold round Sha256.round
  rw [hword, hconstant]
  simp only [Words.map, mask32bit_eq, bsig0_toUInt64, bsig1_toUInt64, maj_toUInt64,
    UInt64.toUInt32_add, UInt32.toUInt32_toUInt64, ch_toUInt64]

/-- `hash256_block` compresses a block. -/
theorem hash256Block_toUInt64 (s : Words UInt32) (block : List UInt8) :
    hash256Block (s.map UInt32.toUInt64) block = (compress s block).map UInt32.toUInt64 := by
  have hrounds := foldl_rounds (l := List.range 64)
    (fun v t ht => round_toUInt64 block v (List.mem_range.mp ht)) s
  unfold hash256Block compress
  rw [hrounds]
  simp only [Words.map, Words.zipWith, mask32bit_eq, UInt64.toUInt32_add, UInt32.toUInt32_toUInt64]

/-! ## The length of a message -/

/-- The number that digits of 16 bits stand for, the least significant one first. -/
def digitsValue : List UInt64 → ℕ
  | [] => 0
  | digit :: digits => digit.toNat + 65536 * digitsValue digits

theorem toNat_and_65535 (x : UInt64) : (x &&& 65535).toNat = x.toNat % 65536 := by
  rw [UInt64.toNat_and]
  exact Nat.and_two_pow_sub_one_eq_mod _ 16

/-- A number is added to the digits. -/
theorem digitsValue_addToDigits {carry : UInt64} {digits : List UInt64}
    (hsmall : ∀ d ∈ digits, d.toNat < 65536) (hcarry : carry.toNat + 65536 ≤ 2 ^ 64)
    (hfits : digitsValue digits + carry.toNat < 65536 ^ digits.length) :
    digitsValue (addToDigits carry digits) = digitsValue digits + carry.toNat ∧
      (∀ d ∈ addToDigits carry digits, d.toNat < 65536) ∧
      (addToDigits carry digits).length = digits.length := by
  induction digits generalizing carry with
  | nil =>
    refine ⟨?_, fun d hd => (List.not_mem_nil hd).elim, rfl⟩
    rw [List.length_nil, pow_zero] at hfits
    show 0 = digitsValue [] + carry.toNat
    omega
  | cons digit digits ih =>
    obtain ⟨hdigit, hdigits⟩ := List.forall_mem_cons.mp hsmall
    rw [digitsValue, List.length_cons, pow_succ] at hfits
    have hsum : (digit + carry).toNat = digit.toNat + carry.toNat := by
      rw [UInt64.toNat_add]
      omega
    unfold addToDigits
    split
    · have hquot : ((digit + carry) >>> 16).toNat = (digit.toNat + carry.toNat) / 65536 := by
        rw [UInt64.toNat_shiftRight, hsum]
        exact Nat.shiftRight_eq_div_pow _ 16
      obtain ⟨hvalue, hrest, hlength⟩ := ih hdigits
        (show ((digit + carry) >>> 16).toNat + 65536 ≤ 2 ^ 64 by omega) (by omega)
      refine ⟨?_, List.forall_mem_cons.mpr ⟨?_, hrest⟩, congrArg Nat.succ hlength⟩
      · rw [digitsValue, digitsValue, hvalue, hquot, toNat_and_65535, hsum]
        omega
      · rw [toNat_and_65535]
        omega
    · rename_i hlt
      rw [UInt64.le_iff_toNat_le, hsum] at hlt
      have hlt : ¬ 65536 ≤ digit.toNat + carry.toNat := hlt
      refine ⟨?_, List.forall_mem_cons.mpr ⟨by omega, hdigits⟩, rfl⟩
      rw [digitsValue, digitsValue, hsum]
      omega

/-- The digits are multiplied by eight. -/
theorem digitsValue_bitDigits {carry : UInt64} {digits : List UInt64}
    (hsmall : ∀ d ∈ digits, d.toNat < 65536) (hcarry : carry.toNat < 8)
    (hfits : 8 * digitsValue digits + carry.toNat < 65536 ^ digits.length) :
    digitsValue (bitDigits carry digits) = 8 * digitsValue digits + carry.toNat ∧
      (∀ d ∈ bitDigits carry digits, d.toNat < 65536) ∧
      (bitDigits carry digits).length = digits.length := by
  induction digits generalizing carry with
  | nil =>
    refine ⟨?_, fun d hd => (List.not_mem_nil hd).elim, rfl⟩
    rw [List.length_nil, pow_zero] at hfits
    show 0 = 8 * digitsValue [] + carry.toNat
    omega
  | cons digit digits ih =>
    obtain ⟨hdigit, hdigits⟩ := List.forall_mem_cons.mp hsmall
    rw [digitsValue, List.length_cons, pow_succ] at hfits
    have hlow : ((digit <<< 3 ||| carry) &&& 65535).toNat =
        (8 * digit.toNat + carry.toNat) % 65536 := by
      have hshift : (digit <<< 3).toNat = digit.toNat <<< 3 := by
        rw [UInt64.toNat_shiftLeft]
        show digit.toNat <<< 3 % 2 ^ 64 = _
        rw [Nat.shiftLeft_eq, Nat.mod_eq_of_lt (by omega)]
      rw [toNat_and_65535, UInt64.toNat_or, hshift,
        ← Nat.shiftLeft_add_eq_or_of_lt (i := 3) hcarry, Nat.shiftLeft_eq, Nat.mul_comm]
    have hhigh : (digit >>> (16 - 3) &&& 65535).toNat = digit.toNat / 8192 := by
      have hquot : (digit >>> (16 - 3)).toNat = digit.toNat / 8192 := by
        rw [UInt64.toNat_shiftRight]
        exact Nat.shiftRight_eq_div_pow _ 13
      rw [toNat_and_65535, hquot]
      omega
    obtain ⟨hvalue, hrest, hlength⟩ := ih hdigits (by omega)
      (show 8 * digitsValue digits + (digit >>> (16 - 3) &&& 65535).toNat < _ by omega)
    refine ⟨?_, List.forall_mem_cons.mpr ⟨?_, hrest⟩, congrArg Nat.succ hlength⟩
    · show UInt64.toNat (_ &&& _) + 65536 * digitsValue (bitDigits _ digits) = _
      rw [digitsValue, hvalue, hlow, hhigh]
      omega
    · rw [hlow]
      omega

/-- Four digits are written as the eight bytes of their number. -/
theorem flatMap_digits {digits : List UInt64} (hlength : digits.length = 4)
    (hsmall : ∀ d ∈ digits, d.toNat < 65536) :
    (digits.reverse.flatMap fun (digit : UInt64) => [(digit >>> 8).toUInt8, digit.toUInt8]) =
      lengthBytes (digitsValue digits) := by
  have hhigh : ∀ d : UInt64, (d >>> 8).toUInt8 = UInt8.ofNat (d.toNat / 256) := by
    intro d
    apply UInt8.toNat_inj.mp
    rw [UInt64.toNat_toUInt8, UInt64.toNat_shiftRight, UInt8.toNat_ofNat']
    congr 1
    exact Nat.shiftRight_eq_div_pow _ 8
  have hlow : ∀ d : UInt64, d.toUInt8 = UInt8.ofNat d.toNat := by
    intro d
    apply UInt8.toNat_inj.mp
    rw [UInt64.toNat_toUInt8, UInt8.toNat_ofNat']
  match digits, hlength with
  | [d0, d1, d2, d3], _ =>
    have h0 := hsmall d0 (by simp)
    have h1 := hsmall d1 (by simp)
    have h2 := hsmall d2 (by simp)
    have h3 := hsmall d3 (by simp)
    have hmod : ∀ {a b : ℕ}, a % 256 = b % 256 → UInt8.ofNat a = UInt8.ofNat b := by
      intro a b hab
      apply UInt8.toNat_inj.mp
      rw [UInt8.toNat_ofNat', UInt8.toNat_ofNat']
      exact hab
    have hvalue : digitsValue [d0, d1, d2, d3] =
        d0.toNat + 65536 * (d1.toNat + 65536 * (d2.toNat + 65536 * d3.toNat)) := rfl
    rw [hvalue]
    show [_, _, _, _, _, _, _, _] = lengthBytes _
    simp only [hhigh, hlow, lengthBytes, List.cons.injEq, and_true]
    refine ⟨hmod ?_, hmod ?_, hmod ?_, hmod ?_, hmod ?_, hmod ?_, hmod ?_, hmod ?_⟩
    all_goals omega

/-! ## Messages in parts -/

/-- What a hasher holds that has been given the bytes `l`. -/
structure Hash256OneByOne.Represents (s : Hash256OneByOne) (l : List UInt8) : Prop where
  h : s.h = (absorb compress 64 initial l).1.map UInt32.toUInt64
  buffer : s.buffer = (absorb compress 64 initial l).2
  value : digitsValue s.dataLengthDigits = l.length
  small : ∀ d ∈ s.dataLengthDigits, d.toNat < 65536
  length : s.dataLengthDigits.length = 4

namespace Hash256OneByOne

variable {s : Hash256OneByOne} {l part : List UInt8}

theorem Represents.init : Represents {} [] where
  h := by
    rw [absorb_of_lt (by simp)]
    rfl
  buffer := by rw [absorb_of_lt (by simp)]
  value := rfl
  small := by
    intro d hd
    have hzero : d = 0 := List.eq_of_mem_replicate (n := 4) hd
    rw [hzero]
    decide
  length := rfl

/-- A part is absorbed. -/
theorem Represents.process (hs : s.Represents l) (hfits : (l ++ part).length < 2 ^ 61) :
    (s.process part).Represents (l ++ part) := by
  rw [List.length_append] at hfits
  have habsorb : absorb hash256Block 64 s.h (s.buffer ++ part) =
      ((absorb compress 64 initial (l ++ part)).1.map UInt32.toUInt64,
        (absorb compress 64 initial (l ++ part)).2) := by
    rw [hs.h, hs.buffer, absorb_append (by omega) initial l part]
    exact absorb_map hash256Block_toUInt64 _ _
  have hpart : (UInt64.ofNat part.length).toNat = part.length := by
    rw [UInt64.toNat_ofNat']
    omega
  have hdigits : (65536 : ℕ) ^ s.dataLengthDigits.length = 2 ^ 64 := by
    rw [hs.length]
    rfl
  obtain ⟨hvalue, hsmall, hlength⟩ := digitsValue_addToDigits hs.small
    (show (UInt64.ofNat part.length).toNat + 65536 ≤ 2 ^ 64 by omega) (by rw [hs.value]; omega)
  refine ⟨congrArg Prod.fst habsorb, congrArg Prod.snd habsorb, ?_, hsmall, hlength.trans hs.length⟩
  show digitsValue (addToDigits _ _) = _
  rw [hvalue, hs.value, hpart, List.length_append]

theorem Represents.foldl_process (hs : s.Represents l) {parts : List (List UInt8)}
    (hfits : (l ++ parts.flatten).length < 2 ^ 61) :
    (parts.foldl Hash256OneByOne.process s).Represents (l ++ parts.flatten) := by
  induction parts generalizing s l with
  | nil =>
    rw [List.flatten_nil, List.append_nil]
    exact hs
  | cons part parts ih =>
    rw [List.flatten_cons, ← List.append_assoc] at hfits ⊢
    refine ih (hs.process ?_) hfits
    rw [List.length_append] at hfits
    omega

/-- The number of bits is written as the standard has it. -/
theorem Represents.dataBitLength (hs : s.Represents l) (hfits : l.length < 2 ^ 61) :
    s.dataBitLength = lengthBytes (8 * l.length) := by
  have hdigits : (65536 : ℕ) ^ s.dataLengthDigits.length = 2 ^ 64 := by
    rw [hs.length]
    rfl
  obtain ⟨hvalue, hsmall, hlength⟩ := digitsValue_bitDigits hs.small (show (0 : UInt64).toNat < 8 by decide)
    (by rw [hs.value, hdigits]; show 8 * l.length + 0 < 2 ^ 64; omega)
  rw [hs.value] at hvalue
  rw [Hash256OneByOne.dataBitLength, flatMap_digits (hlength.trans hs.length) hsmall, hvalue]
  rfl

/-- The place of the padding holds zeros already. -/
theorem fill_padding {buffer : List UInt8} {last : ℕ} (hfirst : buffer.length + 1 ≤ last)
    (hlast : last ≤ 64) :
    fill (buffer ++ [0x80] ++ List.replicate (64 - (buffer.length + 1)) 0) (buffer.length + 1) last =
      buffer ++ [0x80] ++ List.replicate (64 - (buffer.length + 1)) 0 := by
  have hlength : (buffer ++ [(0x80 : UInt8)]).length = buffer.length + 1 := by simp
  unfold fill
  rw [List.take_left' hlength, List.drop_append, List.drop_eq_nil_of_le (by omega), List.nil_append,
    hlength, List.drop_replicate, List.append_assoc (buffer ++ [0x80]),
    List.replicate_append_replicate]
  congr 2
  omega

/-- The digest that `finish` leaves is that of the padded message. -/
theorem Represents.finish (hs : s.Represents l) (hfits : l.length < 2 ^ 61) :
    s.finish = (absorb compress 64 initial (pad l)).1.map UInt32.toUInt64 := by
  have hremains : s.buffer.length = l.length % 64 := by
    rw [hs.buffer, length_absorb_mod (by omega)]
  have hbits := hs.dataBitLength hfits
  have hpad : absorb compress 64 initial (pad l) = absorb compress 64
      (absorb compress 64 initial l).1 (s.buffer ++ ([0x80] ++
        List.replicate ((119 - l.length % 64) % 64) 0 ++ lengthBytes (8 * l.length))) := by
    rw [pad, List.append_assoc, List.append_assoc, absorb_append (by omega), hs.buffer,
      List.append_assoc]
  unfold Hash256OneByOne.finish
  rw [hpad, ← hremains, hs.h, hbits]
  generalize (absorb compress 64 initial l).1 = h
  generalize hbytes : lengthBytes (8 * l.length) = bytes
  have hlength : bytes.length = 8 := by
    rw [← hbytes]
    rfl
  have hlt : s.buffer.length < 64 := by omega
  generalize s.buffer = buffer at hlt
  show (if 55 < buffer.length then _ else _) = _
  by_cases hmore : 55 < buffer.length
  · -- the length does not fit into the block
    have hsplit : buffer ++ ([0x80] ++ List.replicate ((119 - buffer.length) % 64) 0 ++ bytes) =
        (buffer ++ [0x80] ++ List.replicate (64 - (buffer.length + 1)) 0) ++
          (List.replicate 56 0 ++ bytes) := by
      rw [show (119 - buffer.length) % 64 = 64 - (buffer.length + 1) + 56 by omega,
        ← List.replicate_append_replicate]
      simp only [List.append_assoc]
    have hzeros : ∀ temp : List UInt8, (fill temp 0 (64 - 4)).take 56 = List.replicate 56 0 := by
      intro temp
      unfold fill
      rw [List.take_zero, List.nil_append, List.take_append_of_le_length (by simp),
        List.take_replicate]
      rfl
    rw [if_pos hmore, fill_padding (by omega) le_rfl]
    dsimp only
    rw [hzeros, hash256Block_toUInt64, hash256Block_toUInt64, hsplit, absorb_block (by omega) (by simp; omega),
      absorb_last (by omega) (by simp [hlength])]
  · have hblock : (buffer ++ [0x80] ++ List.replicate (64 - (buffer.length + 1)) 0).take 56 =
        buffer ++ [0x80] ++ List.replicate ((119 - buffer.length) % 64) 0 := by
      rw [List.take_append, List.take_of_length_le (by simp; omega), List.take_replicate]
      congr 2
      simp
      omega
    rw [if_neg hmore, fill_padding (by omega) (by omega)]
    dsimp only
    rw [hblock, hash256Block_toUInt64, ← List.append_assoc, ← List.append_assoc,
      absorb_last (by omega) (by simp [hlength]; omega)]

end Hash256OneByOne

/-- The bytes of a digest. -/
theorem getHashBytes_toUInt64 (h : Words UInt32) :
    getHashBytes (h.map UInt32.toUInt64) = h.toList.flatMap wordBytes := by
  have hbyte : ∀ (w : UInt32) (k : UInt64), (w.toUInt64 >>> k).toUInt8 =
      UInt8.ofNat (w.toNat / 2 ^ (k.toNat % 64)) := by
    intro w k
    apply UInt8.toNat_inj.mp
    rw [UInt64.toNat_toUInt8, UInt64.toNat_shiftRight, UInt32.toNat_toUInt64, UInt8.toNat_ofNat',
      Nat.shiftRight_eq_div_pow]
  have hword : ∀ w : UInt32, ((List.range 4).map fun i =>
      mask8bit (w.toUInt64 >>> (24 - 8 * UInt64.ofNat i)).toUInt8) = wordBytes w := by
    intro w
    simp only [mask8bit_eq, hbyte]
    show [UInt8.ofNat (w.toNat / 2 ^ 24), UInt8.ofNat (w.toNat / 2 ^ 16),
      UInt8.ofNat (w.toNat / 2 ^ 8), UInt8.ofNat (w.toNat / 2 ^ 0)] = wordBytes w
    rw [pow_zero, Nat.div_one]
    rfl
  rw [getHashBytes, Words.toList_map, List.flatMap_map]
  simp only [hword]

/-- The digest does not depend on how the message is divided into parts. -/
theorem getHashBytes_foldl (parts : List (List UInt8)) (hfits : parts.flatten.length < 2 ^ 61) :
    getHashBytes (parts.foldl Hash256OneByOne.process {}).finish = Sha256.hash parts.flatten := by
  have hs := Hash256OneByOne.Represents.init.foldl_process hfits
  rw [List.nil_append] at hs
  rw [hs.finish hfits, getHashBytes_toUInt64]
  rfl

theorem flatten_parts {bufferSize : ℕ} (hsize : 0 < bufferSize) (message : List UInt8) :
    (parts bufferSize message).flatten = message := by
  by_cases hnil : message = []
  · rw [parts, dif_neg (by simp [hnil]), hnil]
    rfl
  · have hpos := List.length_pos_iff.mpr hnil
    rw [parts, dif_pos ⟨hnil, hsize⟩, List.flatten_cons, flatten_parts hsize, List.take_append_drop]
termination_by message.length
decreasing_by
  rw [List.length_drop]
  omega

/-- However a message is divided into parts, and with either overload of `hash256_impl`, the digest
is its SHA-256 hash. -/
theorem digest_eq_hash (parts : List (List UInt8)) (hfits : parts.flatten.length < 2 ^ 61)
    (bufferSize : ℕ) (hsize : 0 < bufferSize) :
    getHashBytes (parts.foldl Hash256OneByOne.process {}).finish = Sha256.hash parts.flatten ∧
      hash256 parts.flatten = Sha256.hash parts.flatten ∧
      hash256Input bufferSize parts.flatten = Sha256.hash parts.flatten := by
  refine ⟨getHashBytes_foldl parts hfits, ?_, ?_⟩
  · have hone := getHashBytes_foldl [parts.flatten] (by simpa using hfits)
    rwa [List.flatten_singleton] at hone
  · have hmany := getHashBytes_foldl (Picosha2.parts bufferSize parts.flatten)
      (by rw [flatten_parts hsize]; exact hfits)
    rwa [flatten_parts hsize] at hmany

theorem digest_eq_hash_two :
    getHashBytes ([[1], [2, 3]].foldl Hash256OneByOne.process {}).finish =
        Sha256.hash [[1], [2, 3]].flatten ∧
      hash256 [[1], [2, 3]].flatten = Sha256.hash [[1], [2, 3]].flatten ∧
      hash256Input 2 [[1], [2, 3]].flatten = Sha256.hash [[1], [2, 3]].flatten :=
  digest_eq_hash [[1], [2, 3]] (by decide) 2 (by decide)

end OptRand.Pvss.Picosha2
