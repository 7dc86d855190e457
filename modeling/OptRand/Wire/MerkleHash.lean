import OptRand.Pvss.Picosha
import OptRand.Wire.Merkle

/-!
# The hash of a node (`merklecpp.h`)

`sha256_compress` is the compression function of SHA-256 on the two children of a node, in words
that are turned round when they are read and when they are written (`sha256Compress_eq`).
-/

namespace OptRand.Wire.MerkleTree

open Lib.Sha256
open Merkle (HashT)

/-- The word that four bytes are in memory. -/
def loadWord (b0 b1 b2 b3 : UInt8) : UInt32 := UInt32.ofNat (ofBytes [b3, b2, b1, b0])

/-- The bytes that a word is in memory. -/
def storeWord (w : UInt32) : List UInt8 :=
  [w.toUInt8, (w >>> 8).toUInt8, (w >>> 16).toUInt8, (w >>> 24).toUInt8]

/-- `convert_endianness`. -/
def convertEndianness (n : UInt32) : UInt32 :=
  loadWord (n >>> 24 &&& 0xff).toUInt8 (n >>> 16 &&& 0xff).toUInt8 (n >>> 8 &&& 0xff).toUInt8
    (n &&& 0xff).toUInt8

/-- The array `constants`. -/
def compressConstants : List UInt32 := [
  0x428a2f98, 0x71374491, 0xb5c0fbcf, 0xe9b5dba5, 0x3956c25b, 0x59f111f1, 0x923f82a4, 0xab1c5ed5,
  0xd807aa98, 0x12835b01, 0x243185be, 0x550c7dc3, 0x72be5d74, 0x80deb1fe, 0x9bdc06a7, 0xc19bf174,
  0xe49b69c1, 0xefbe4786, 0x0fc19dc6, 0x240ca1cc, 0x2de92c6f, 0x4a7484aa, 0x5cb0a9dc, 0x76f988da,
  0x983e5152, 0xa831c66d, 0xb00327c8, 0xbf597fc7, 0xc6e00bf3, 0xd5a79147, 0x06ca6351, 0x14292967,
  0x27b70a85, 0x2e1b2138, 0x4d2c6dfc, 0x53380d13, 0x650a7354, 0x766a0abb, 0x81c2c92e, 0x92722c85,
  0xa2bfe8a1, 0xa81a664b, 0xc24b8b70, 0xc76c51a3, 0xd192e819, 0xd6990624, 0xf40e3585, 0x106aa070,
  0x19a4c116, 0x1e376c08, 0x2748774c, 0x34b0bcb5, 0x391c0cb3, 0x4ed8aa4a, 0x5b9cca4f, 0x682e6ff3,
  0x748f82ee, 0x78a5636f, 0x84c87814, 0x8cc70208, 0x90befffa, 0xa4506ceb, 0xbef9a3f7, 0xc67178f2]

/-- The array `s`. -/
def compressState : Words UInt32 :=
  ⟨0x6a09e667, 0xbb67ae85, 0x3c6ef372, 0xa54ff53a, 0x510e527f, 0x9b05688c, 0x1f83d9ab, 0x5be0cd19⟩

/-- The word number `i` of `block`. -/
def compressWord (block : List UInt8) (i : ℕ) : UInt32 :=
  convertEndianness (loadWord (block.getD (4 * i) 0) (block.getD (4 * i + 1) 0)
    (block.getD (4 * i + 2) 0) (block.getD (4 * i + 3) 0))

/-- `cws[i]` from `t2`, `t7`, `t15` and `t16`. -/
def nextWord (t2 t7 t15 t16 : UInt32) : UInt32 :=
  let s1 := (t2 >>> 17 ||| t2 <<< 15) ^^^ ((t2 >>> 19 ||| t2 <<< 13) ^^^ t2 >>> 10)
  let s0 := (t15 >>> 7 ||| t15 <<< 25) ^^^ ((t15 >>> 18 ||| t15 <<< 14) ^^^ t15 >>> 3)
  s1 + t7 + s0 + t16

/-- The array `cws`. -/
def compressWords (block : List UInt8) : List UInt32 :=
  (List.range' 16 48).foldl (fun cws i => cws ++ [nextWord (cws.getD (i - 2) 0)
    (cws.getD (i - 7) 0) (cws.getD (i - 15) 0) (cws.getD (i - 16) 0)])
      ((List.range 16).map (compressWord block))

/-- The loop body over the 64 words. -/
def compressRound (cws : List UInt32) (h : Words UInt32) (i : ℕ) : Words UInt32 :=
  let w := cws.getD i 0
  let t1 := h.h + ((h.e >>> 6 ||| h.e <<< 26) ^^^ ((h.e >>> 11 ||| h.e <<< 21) ^^^
    (h.e >>> 25 ||| h.e <<< 7))) + ((h.e &&& h.f) ^^^ (~~~h.e &&& h.g)) +
      compressConstants.getD i 0 + w
  let t2 := ((h.a >>> 2 ||| h.a <<< 30) ^^^ ((h.a >>> 13 ||| h.a <<< 19) ^^^
    (h.a >>> 22 ||| h.a <<< 10))) + ((h.a &&& h.b) ^^^ ((h.a &&& h.c) ^^^ (h.b &&& h.c)))
  ⟨t1 + t2, h.a, h.b, h.c, h.d + t1, h.e, h.f, h.g⟩

theorem length_flatMap_storeWord (ws : List UInt32) :
    (ws.flatMap storeWord).length = 4 * ws.length := by
  induction ws with
  | nil => rfl
  | cons w ws ih =>
    rw [List.flatMap_cons, List.length_append, ih, List.length_cons]
    show 4 + _ = _
    omega

/-- `sha256_compress`. -/
def sha256Compress (l r : HashT) : HashT :=
  let block := l.bytes ++ r.bytes
  let h := (List.range 64).foldl (compressRound (compressWords block)) compressState
  ⟨(compressState.zipWith (fun s h => convertEndianness (s + h)) h).toList.flatMap storeWord,
    length_flatMap_storeWord _⟩

/-! ## The compression function of the standard -/

theorem toUInt8_shiftRight (w k : UInt32) : (w >>> k).toUInt8 =
    UInt8.ofNat (w.toNat / 2 ^ (k.toNat % 32)) := by
  apply UInt8.toNat_inj.mp
  rw [UInt32.toNat_toUInt8, UInt32.toNat_shiftRight, UInt8.toNat_ofNat', Nat.shiftRight_eq_div_pow]

theorem toUInt8_and (w : UInt32) : (w &&& 0xff).toUInt8 = w.toUInt8 := by
  rw [UInt32.toUInt8_and]
  apply UInt8.toNat_inj.mp
  rw [UInt8.toNat_and]
  exact (Nat.and_two_pow_sub_one_eq_mod _ 8).trans (Nat.mod_eq_of_lt w.toUInt8.toNat_lt)

theorem toUInt8_eq (w : UInt32) : w.toUInt8 = UInt8.ofNat w.toNat := by
  apply UInt8.toNat_inj.mp
  rw [UInt32.toNat_toUInt8, UInt8.toNat_ofNat']

/-- The bytes of a word, the most significant one first. -/
theorem wordBytes_eq (w : UInt32) : wordBytes w =
    [(w >>> 24).toUInt8, (w >>> 16).toUInt8, (w >>> 8).toUInt8, w.toUInt8] := by
  rw [toUInt8_shiftRight, toUInt8_shiftRight, toUInt8_shiftRight, toUInt8_eq]
  rfl

theorem ofBytes_four (b0 b1 b2 b3 : UInt8) : ofBytes [b0, b1, b2, b3] =
    ((b0.toNat * 256 + b1.toNat) * 256 + b2.toNat) * 256 + b3.toNat := by
  show (((0 * 256 + b0.toNat) * 256 + _) * 256 + _) * 256 + _ = _
  rw [Nat.zero_mul, Nat.zero_add]

/-- A word that is read and written is left as it is. -/
theorem storeWord_loadWord (b0 b1 b2 b3 : UInt8) :
    storeWord (loadWord b0 b1 b2 b3) = [b0, b1, b2, b3] := by
  have h0 := b0.toNat_lt
  have h1 := b1.toNat_lt
  have h2 := b2.toNat_lt
  have h3 := b3.toNat_lt
  have hword : (loadWord b0 b1 b2 b3).toNat =
      ((b3.toNat * 256 + b2.toNat) * 256 + b1.toNat) * 256 + b0.toNat := by
    rw [loadWord, UInt32.toNat_ofNat', ofBytes_four]
    omega
  have hbyte : ∀ {n : ℕ} {b : UInt8}, n % 256 = b.toNat → UInt8.ofNat n = b := by
    intro n b hn
    apply UInt8.toNat_inj.mp
    rw [UInt8.toNat_ofNat']
    exact hn
  rw [storeWord, toUInt8_shiftRight, toUInt8_shiftRight, toUInt8_shiftRight, toUInt8_eq, hword]
  simp only [List.cons.injEq, and_true]
  refine ⟨hbyte (by omega), hbyte ?_, hbyte ?_, hbyte ?_⟩
  · show _ / 2 ^ 8 % 256 = _
    omega
  · show _ / 2 ^ 16 % 256 = _
    omega
  · show _ / 2 ^ 24 % 256 = _
    omega

theorem convertEndianness_eq (n : UInt32) : convertEndianness n =
    loadWord (n >>> 24).toUInt8 (n >>> 16).toUInt8 (n >>> 8).toUInt8 n.toUInt8 := by
  rw [convertEndianness, toUInt8_and, toUInt8_and, toUInt8_and, toUInt8_and]

/-- The bytes of a word that is turned round. -/
theorem storeWord_convertEndianness (w : UInt32) : storeWord (convertEndianness w) = wordBytes w := by
  rw [convertEndianness_eq, storeWord_loadWord, wordBytes_eq]

theorem compressWord_eq (block : List UInt8) (i : ℕ) : compressWord block i = blockWord block i := by
  unfold compressWord blockWord
  generalize block.getD (4 * i) 0 = b0
  generalize block.getD (4 * i + 1) 0 = b1
  generalize block.getD (4 * i + 2) 0 = b2
  generalize block.getD (4 * i + 3) 0 = b3
  have hstore := storeWord_loadWord b0 b1 b2 b3
  simp only [storeWord, List.cons.injEq, and_true] at hstore
  obtain ⟨h0, h1, h2, h3⟩ := hstore
  rw [convertEndianness_eq, h0, h1, h2, h3]
  rfl

theorem nextWord_eq (x y z w : UInt32) :
    nextWord x y z w = smallSigma1 x + y + smallSigma0 z + w := by
  unfold nextWord
  dsimp only
  rw [← UInt32.xor_assoc, ← UInt32.xor_assoc]
  rfl

theorem compressWords_eq (block : List UInt8) : compressWords block =
    (List.range 64).map fun t => schedule (blockWord block) t := by
  have hfirst : (List.range 16).map (compressWord block) =
      (List.range 16).map fun i => blockWord block i :=
    List.map_congr_left fun i _ => compressWord_eq block i
  rw [compressWords, hfirst]
  exact foldl_schedule (g := id) 0 nextWord nextWord_eq 48

theorem compressRound_eq (block : List UInt8) (h : Words UInt32) {t : ℕ} (ht : t < 64) :
    compressRound (compressWords block) h t = round (blockWord block) h t := by
  have hword : (compressWords block).getD t 0 = schedule (blockWord block) t := by
    rw [compressWords_eq, List.getD_eq_getElem _ _ (by simpa using ht), List.getElem_map,
      List.getElem_range]
  unfold compressRound Lib.Sha256.round
  dsimp only
  rw [hword, ← UInt32.xor_assoc, ← UInt32.xor_assoc, ← UInt32.xor_assoc]
  rfl

/-- The hash of a node is the digest after one block, that of its children. -/
theorem sha256Compress_eq (l r : HashT) : (sha256Compress l r).bytes =
    (compress initial (l.bytes ++ r.bytes)).toList.flatMap wordBytes := by
  have hrounds := foldl_rounds (g := id) (l := List.range 64)
    (fun v t ht => compressRound_eq (l.bytes ++ r.bytes) v (List.mem_range.mp ht)) initial
  have hfold : (List.range 64).foldl (compressRound (compressWords (l.bytes ++ r.bytes)))
      compressState = (List.range 64).foldl (round (blockWord (l.bytes ++ r.bytes))) initial := hrounds
  show List.flatMap storeWord (Words.toList (Words.zipWith _ _ (List.foldl _ _ _))) = _
  rw [hfold]
  show List.flatMap storeWord (List.map convertEndianness (compress initial _).toList) = _
  rw [List.flatMap_map]
  simp only [storeWord_convertEndianness]

/-- The hash of a node is what the standard and the other implementation compute of one block. -/
theorem sha256Compress_agrees (l r : HashT) :
    (sha256Compress l r).bytes =
        (compress initial (l.bytes ++ r.bytes)).toList.flatMap wordBytes ∧
      (sha256Compress l r).bytes = Pvss.Picosha2.getHashBytes
        (Pvss.Picosha2.hash256Block Pvss.Picosha2.initialMessageDigest (l.bytes ++ r.bytes)) := by
  refine ⟨sha256Compress_eq l r, ?_⟩
  have hinitial : Pvss.Picosha2.initialMessageDigest = initial.map UInt32.toUInt64 := rfl
  rw [hinitial, Pvss.Picosha2.hash256Block_toUInt64, Pvss.Picosha2.getHashBytes_toUInt64]
  exact sha256Compress_eq l r

end OptRand.Wire.MerkleTree
