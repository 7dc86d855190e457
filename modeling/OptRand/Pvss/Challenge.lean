import Mathlib.Tactic.IntervalCases
import OptRand.Pvss.Dleq
import OptRand.Pvss.Picosha

/-!
# Challenges (`hashToField`)

The challenge of a proof is the number that the hexadecimal digits of a digest spell, without the
last one. With a field of more than 252 bits nothing is reduced, so the challenge is the first 252
bits of the digest (`val_hashToField`), and a false statement about two exponents is accepted only
if these bits are one certain number (`DleqDual.hash_of_false`).
-/

namespace OptRand.Pvss

open Lib Lib.Sha256

/-- `output_hex`. -/
def outputHex (bytes : List UInt8) : List Char :=
  bytes.flatMap fun b => [Nat.digitChar (b.toNat / 16), Nat.digitChar (b.toNat % 16)]

/-- The value of a hexadecimal digit. -/
def hexDigit (d : Char) : ℕ :=
  if d.isDigit then d.toNat - '0'.toNat else d.toNat - 'a'.toNat + 10

/-- `mpz_set_str` with base 16, for digits. -/
def mpzSetStr (s : List Char) : ℕ := s.foldl (fun n d => n * 16 + hexDigit d) 0

/-- `hashToField` of bytes. -/
def hashBytesToField (q : ℕ) (bytes : List UInt8) : Fr q :=
  (mpzSetStr (outputHex (Picosha2.hash256 bytes)).dropLast : ℕ)

/-- `hashToField` of a string. -/
def hashToField (q : ℕ) (message : String) : Fr q :=
  hashBytesToField q message.toUTF8.data.toList

/-! ## Digits -/

theorem hexDigit_digitChar {n : ℕ} (hn : n < 16) : hexDigit n.digitChar = n := by
  interval_cases n <;> rfl

theorem mpzSetStr_append (s : List Char) (d : Char) :
    mpzSetStr (s ++ [d]) = mpzSetStr s * 16 + hexDigit d := by
  unfold mpzSetStr
  rw [List.foldl_append]
  rfl

theorem ofBytes_append (bytes : List UInt8) (b : UInt8) :
    ofBytes (bytes ++ [b]) = ofBytes bytes * 256 + b.toNat := by
  unfold ofBytes
  rw [List.foldl_append]
  rfl

theorem outputHex_append (bytes : List UInt8) (b : UInt8) : outputHex (bytes ++ [b]) =
    outputHex bytes ++ [Nat.digitChar (b.toNat / 16)] ++ [Nat.digitChar (b.toNat % 16)] := by
  unfold outputHex
  rw [List.flatMap_append, List.append_assoc]
  rfl

/-- The digits spell the number of the bytes. -/
theorem mpzSetStr_outputHex (bytes : List UInt8) : mpzSetStr (outputHex bytes) = ofBytes bytes := by
  induction bytes using List.reverseRecOn with
  | nil => rfl
  | append_singleton bytes b ih =>
    have hb := b.toNat_lt
    rw [outputHex_append, mpzSetStr_append, mpzSetStr_append, ih, ofBytes_append,
      hexDigit_digitChar (by omega), hexDigit_digitChar (by omega)]
    omega

/-- Without the last digit they spell a sixteenth of it. -/
theorem mpzSetStr_dropLast (bytes : List UInt8) :
    mpzSetStr (outputHex bytes).dropLast = ofBytes bytes / 16 := by
  induction bytes using List.reverseRecOn with
  | nil => rfl
  | append_singleton bytes b ih =>
    have hb := b.toNat_lt
    rw [outputHex_append, List.dropLast_concat, mpzSetStr_append, mpzSetStr_outputHex,
      ofBytes_append, hexDigit_digitChar (by omega)]
    omega

theorem ofBytes_lt (bytes : List UInt8) : ofBytes bytes < 256 ^ bytes.length := by
  induction bytes using List.reverseRecOn with
  | nil => exact Nat.one_pos
  | append_singleton bytes b ih =>
    have hb := b.toNat_lt
    rw [ofBytes_append, List.length_append, List.length_singleton, pow_succ]
    omega

/-! ## Challenges -/

/-- `hashToField` reads the first 252 bits of the SHA-256 hash. -/
theorem hashToField_eq (q : ℕ) {message : String}
    (hfits : message.toUTF8.data.toList.length < 2 ^ 61) : hashToField q message =
      ((ofBytes (Sha256.hash message.toUTF8.data.toList) / 16 : ℕ) : Fr q) := by
  have hdigest : Picosha2.hash256 message.toUTF8.data.toList = Sha256.hash message.toUTF8.data.toList := by
    have hone := Picosha2.getHashBytes_foldl [message.toUTF8.data.toList] (by simpa using hfits)
    rwa [List.flatten_singleton] at hone
  unfold hashToField hashBytesToField
  rw [hdigest, mpzSetStr_dropLast]

theorem val_hashToField {q : ℕ} (hq : 2 ^ 252 ≤ q) {message : String}
    (hfits : message.toUTF8.data.toList.length < 2 ^ 61) :
    (hashToField q message).val = ofBytes (Sha256.hash message.toUTF8.data.toList) / 16 := by
  have hlength : (Sha256.hash message.toUTF8.data.toList).length = 32 := rfl
  have hbound := ofBytes_lt (Sha256.hash message.toUTF8.data.toList)
  rw [hlength] at hbound
  rw [hashToField_eq q hfits]
  apply ZMod.val_cast_of_lt
  omega

/-- In a field of at least `2 ^ 252` elements two messages have one challenge if and only if their
SHA-256 hashes have the same first 252 bits. -/
theorem hashToField_eq_iff (q : ℕ) (hq : 2 ^ 252 ≤ q) (message message' : String)
    (hfits : message.toUTF8.data.toList.length < 2 ^ 61)
    (hfits' : message'.toUTF8.data.toList.length < 2 ^ 61) :
    hashToField q message = hashToField q message' ↔
      ofBytes (Sha256.hash message.toUTF8.data.toList) / 16 =
        ofBytes (Sha256.hash message'.toUTF8.data.toList) / 16 := by
  have hpos : NeZero q := ⟨by omega⟩
  rw [← val_hashToField hq hfits, ← val_hashToField hq hfits']
  exact (ZMod.val_injective q).eq_iff.symm

theorem hashToField_eq_iff_two :
    hashToField (2 ^ 252) "1" = hashToField (2 ^ 252) "2" ↔
      ofBytes (Sha256.hash "1".toUTF8.data.toList) / 16 = ofBytes (Sha256.hash "2".toUTF8.data.toList) / 16 :=
  hashToField_eq_iff (2 ^ 252) le_rfl "1" "2" (by decide) (by decide)

/-- If a proof with commitments `a • g` and `b • h` is accepted for two different exponents, the
first 252 bits of the SHA-256 hash of what is printed are, in the field, the quotient of the
differences. -/
theorem DleqDual.hash_of_false {q : ℕ} [Fact q.Prime] {Ga Gb : Type} [AddCommGroup Ga]
    [AddCommGroup Gb] [Module (Fr q) Ga] [Module (Fr q) Gb] [DecidableEq Ga] [DecidableEq Gb]
    (textA : Ga → String) (textB : Gb → String) (g : Ga) (h : Gb) (hg : g ≠ 0) (hh : h ≠ 0)
    (x₁ x₂ a b pi : Fr q) (hne : x₁ ≠ x₂) (text : String)
    (htext : text = textA g ++ "\n" ++ textA (x₁ • g) ++ "\n" ++ textB h ++ "\n" ++
      textB (x₂ • h) ++ "\n" ++ textA (a • g) ++ "\n" ++ textB (b • h) ++ "\n")
    (hfits : text.toUTF8.data.toList.length < 2 ^ 61)
    (hverify : DleqDual.verify (hashToField q) textA textB ⟨a • g, b • h, pi⟩ g (x₁ • g) h
      (x₂ • h) = true) :
    ((ofBytes (Sha256.hash text.toUTF8.data.toList) / 16 : ℕ) : Fr q) = (b - a) / (x₁ - x₂) := by
  have hadmits := DleqDual.admits_of_verify hverify
  rw [DleqDual.admits_iff hg hh] at hadmits
  have hchallenge : DleqDual.challenge (hashToField q) textA textB g (x₁ • g) h (x₂ • h) (a • g)
      (b • h) = (b - a) / (x₁ - x₂) := by
    rw [eq_div_iff (sub_ne_zero.mpr hne)]
    exact hadmits
  rw [← hashToField_eq q hfits, ← hchallenge, htext]
  rfl

/-- What is printed if all elements are printed alike. -/
def newlines : String :=
  "" ++ "\n" ++ "" ++ "\n" ++ "" ++ "\n" ++ "" ++ "\n" ++ "" ++ "\n" ++ "" ++ "\n"

/-- With the challenge as commitment a false statement is accepted. -/
theorem DleqDual.hash_of_false_three : ∃ a b x₁ x₂ : Fr 3, x₁ ≠ x₂ ∧
    ((ofBytes (Sha256.hash newlines.toUTF8.data.toList) / 16 : ℕ) : Fr 3) =
      (b - a) / (x₁ - x₂) := by
  have hverify : DleqDual.verify (hashToField 3) (fun _ : Fr 3 => "") (fun _ : Fr 3 => "")
      ⟨(0 : Fr 3) • 1, hashToField 3 newlines • 1, hashToField 3 newlines⟩ 1 ((1 : Fr 3) • 1) 1
        ((0 : Fr 3) • 1) = true := by
    have hchallenge : DleqDual.challenge (hashToField 3) (fun _ : Fr 3 => "")
        (fun _ : Fr 3 => "") 1 ((1 : Fr 3) • 1) 1 ((0 : Fr 3) • 1) ((0 : Fr 3) • 1)
          (hashToField 3 newlines • 1) = hashToField 3 newlines := rfl
    unfold DleqDual.verify
    simp only [hchallenge]
    generalize hashToField 3 newlines = c
    revert c
    decide
  refine ⟨0, hashToField 3 newlines, 1, 0, by decide, ?_⟩
  exact DleqDual.hash_of_false (fun _ => "") (fun _ => "") 1 1 (by decide) (by decide) 1 0 0
    (hashToField 3 newlines) (hashToField 3 newlines) (by decide) newlines rfl (by decide) hverify

end OptRand.Pvss
