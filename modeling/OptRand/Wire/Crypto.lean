import OptRand.Lib.Codec
import Mathlib.Data.List.Nodup
import Mathlib.Logic.Function.Basic

/-!
# Certificates on the wire (`crypto.h`)

Certificates as `DataStream` carries them. The encodings of the networking library are a parameter,
`Encodings`, and what is assumed of them is `Encodings.RoundTrip`: what is written is read back.

A quorum certificate keeps a bit for each replica that has signed and, in a map, the signatures. It
writes the signatures under the bits that are set (`QuorumCertSecp256k1.serialize`), and none of
them is ever missing (`QuorumCertSecp256k1.Obtained.complete`). `unserialize` adds to the map of the
object that it is called on, so the bits need not cover all signatures there; they do when it is
only called on objects without signatures, as `parse_quorum_cert` does (`Obtained.tidy`).
-/

namespace OptRand.Wire

open Lib

/-- `Bits`: the size is a `uint32_t`. -/
@[ext]
structure Bits where
  bits : List Bool
  size_lt : bits.length < 2 ^ 32

namespace Bits

def size (b : Bits) : ℕ := b.bits.length

def get (b : Bits) (i : ℕ) : Bool := b.bits.getD i false

/-- A set of `nbits` bits after `clear`. -/
def cleared (nbits : UInt32) : Bits where
  bits := List.replicate nbits.toNat false
  size_lt := by
    rw [List.length_replicate]
    exact nbits.toNat_lt

def set (b : Bits) (i : ℕ) : Bits where
  bits := b.bits.set i true
  size_lt := by
    rw [List.length_set]
    exact b.size_lt

/-- The indices of the bits that are set, as a loop over all bits meets them. -/
def ones (b : Bits) : List ℕ := (List.range b.size).filter b.get

theorem mem_ones {b : Bits} {i : ℕ} : i ∈ b.ones ↔ b.get i = true := by
  unfold ones
  rw [List.mem_filter, List.mem_range]
  refine and_iff_right_of_imp ?_
  intro hget
  by_contra hlt
  have hout : b.bits.length ≤ i := not_lt.mp hlt
  have hget' : b.get i = false := by simp [get, hout]
  exact Bool.false_ne_true (hget'.symm.trans hget)

theorem ones_cleared (nbits : UInt32) : (cleared nbits).ones = [] := by
  apply List.eq_nil_iff_forall_not_mem.mpr
  intro i hi
  rw [mem_ones] at hi
  unfold get cleared at hi
  simp [List.getD_eq_getElem?_getD, List.getElem?_replicate] at hi
  split at hi <;> simp at hi

theorem mem_ones_set {b : Bits} {i j : ℕ} (hi : i < b.size) :
    j ∈ (b.set i).ones ↔ j = i ∨ j ∈ b.ones := by
  rw [mem_ones, mem_ones]
  unfold get set
  rw [List.getD_eq_getElem?_getD, List.getD_eq_getElem?_getD]
  by_cases hj : i = j
  · subst hj
    have hlt : i < b.bits.length := hi
    simp [hlt]
  · simp [List.getElem?_set_ne hj, Ne.symm hj]

end Bits

/-- The encodings of integers, hashes, bit sets and signatures, the byte order helpers, and the hash
of what has been written. -/
structure Encodings (Hash Sig : Type) where
  u8 : Codec UInt8 UInt8
  i8 : Codec UInt8 Int8
  u16 : Codec UInt8 UInt16
  u32 : Codec UInt8 UInt32
  hash : Codec UInt8 Hash
  bits : Codec UInt8 Bits
  sig : Codec UInt8 Sig
  htole : UInt32 → UInt32
  letoh : UInt32 → UInt32
  getHash : List UInt8 → Hash

variable {Hash Sig : Type}

/-- What is written is read back. -/
structure Encodings.RoundTrip (E : Encodings Hash Sig) : Prop where
  u8 : E.u8.RoundTrips
  i8 : E.i8.RoundTrips
  u16 : E.u16.RoundTrips
  u32 : E.u32.RoundTrips
  hash : E.hash.RoundTrips
  bits : E.bits.RoundTrips
  sig : E.sig.RoundTrips
  letoh_htole : ∀ n, E.letoh (E.htole n) = n

/-- `s << htole((uint32_t)n)`. -/
def Encodings.putCount (E : Encodings Hash Sig) (n : ℕ) : List UInt8 :=
  E.u32.write (E.htole (UInt32.ofNat n))

/-- `s >> n; n = letoh(n)`. -/
def Encodings.getCount (E : Encodings Hash Sig) : Reader UInt8 ℕ := do
  let n ← E.u32.read
  return (E.letoh n).toNat

theorem Encodings.RoundTrip.count {E : Encodings Hash Sig} (hE : E.RoundTrip) {n : ℕ}
    (hn : n < 2 ^ 32) : Reads E.getCount (E.putCount n) n := by
  have hread := (hE.u32 (E.htole (UInt32.ofNat n))).map fun m => (E.letoh m).toNat
  rwa [hE.letoh_htole, UInt32.toNat_ofNat_of_lt' hn] at hread

/-! ## Partial certificates -/

/-- `PartCertSecp256k1`. -/
structure PartCertSecp256k1 (Hash Sig : Type) where
  objHash : Hash
  view : UInt32
  sig : Sig

namespace PartCertSecp256k1

def serialize (E : Encodings Hash Sig) (pc : PartCertSecp256k1 Hash Sig) : List UInt8 :=
  E.hash.write pc.objHash ++ E.u32.write pc.view ++ E.sig.write pc.sig

def unserialize (E : Encodings Hash Sig) : Reader UInt8 (PartCertSecp256k1 Hash Sig) := do
  let objHash ← E.hash.read
  let view ← E.u32.read
  let sig ← E.sig.read
  return ⟨objHash, view, sig⟩

theorem reads {E : Encodings Hash Sig} (hE : E.RoundTrip) (pc : PartCertSecp256k1 Hash Sig) :
    Reads (unserialize E) (pc.serialize E) pc := by
  unfold unserialize serialize
  rw [List.append_assoc]
  refine (hE.hash pc.objHash).bind ?_
  refine (hE.u32 pc.view).bind ?_
  exact (hE.sig pc.sig).map _

end PartCertSecp256k1

/-! ## Quorum certificates -/

/-- `QuorumCertSecp256k1`; `sigs` is keyed by `ReplicaID`, a `uint16_t`. -/
@[ext]
structure QuorumCertSecp256k1 (Hash Sig : Type) where
  objHash : Hash
  view : UInt32
  rids : Bits
  sigs : UInt16 → Option Sig

namespace QuorumCertSecp256k1

/-- The object that `parse_quorum_cert` reads into; its `view` is not initialised. -/
def empty [Inhabited Hash] (view : UInt32) : QuorumCertSecp256k1 Hash Sig where
  objHash := default
  view := view
  rids := Bits.cleared 0
  sigs := fun _ => none

/-- The constructor for a configuration of `nreplicas`. -/
def new (nreplicas : ℕ) (objHash : Hash) (view : UInt32) : QuorumCertSecp256k1 Hash Sig where
  objHash := objHash
  view := view
  rids := Bits.cleared (UInt32.ofNat nreplicas)
  sigs := fun _ => none

/-- `add_part`: it throws for a certificate of another object, and `insert` keeps a signature that
is there. The bit set has no bit beyond its size. -/
def addPart [DecidableEq Hash] (qc : QuorumCertSecp256k1 Hash Sig) (rid : UInt16)
    (pc : PartCertSecp256k1 Hash Sig) : Option (QuorumCertSecp256k1 Hash Sig) :=
  if pc.objHash ≠ qc.objHash then none
  else if rid.toNat < qc.rids.size then
    some { qc with
      sigs := Function.update qc.sigs rid (some ((qc.sigs rid).getD pc.sig))
      rids := qc.rids.set rid.toNat }
  else none

def clone (qc : QuorumCertSecp256k1 Hash Sig) : QuorumCertSecp256k1 Hash Sig := qc

/-- `sigs.at(i)` throws where there is no signature. -/
def serialize (E : Encodings Hash Sig) (qc : QuorumCertSecp256k1 Hash Sig) :
    Option (List UInt8) := do
  let sigs ← qc.rids.ones.mapM fun i => qc.sigs (UInt16.ofNat i)
  return E.hash.write qc.objHash ++ E.bits.write qc.rids ++ E.u32.write qc.view ++
    sigs.flatMap E.sig.write

/-- `s >> sigs[i]`. -/
def readSig (E : Encodings Hash Sig) (sigs : UInt16 → Option Sig) (i : ℕ) :
    Reader UInt8 (UInt16 → Option Sig) := do
  let sig ← E.sig.read
  return Function.update sigs (UInt16.ofNat i) (some sig)

def unserialize (E : Encodings Hash Sig) (self : QuorumCertSecp256k1 Hash Sig) :
    Reader UInt8 (QuorumCertSecp256k1 Hash Sig) := do
  let objHash ← E.hash.read
  let rids ← E.bits.read
  let view ← E.u32.read
  let sigs ← rids.ones.foldlM (readSig E) self.sigs
  return ⟨objHash, view, rids, sigs⟩

/-- The keys of the signatures that are written. -/
def keys (qc : QuorumCertSecp256k1 Hash Sig) : List UInt16 := qc.rids.ones.map UInt16.ofNat

/-- There is a signature under every bit that is set. -/
def Complete (qc : QuorumCertSecp256k1 Hash Sig) : Prop := ∀ r ∈ qc.keys, (qc.sigs r).isSome

/-- There is a signature only where a bit is set. -/
def Tidy (qc : QuorumCertSecp256k1 Hash Sig) : Prop := ∀ r, (qc.sigs r).isSome → r ∈ qc.keys

/-- The certificate without the signatures that are not written. -/
def trimmed (qc : QuorumCertSecp256k1 Hash Sig) : QuorumCertSecp256k1 Hash Sig :=
  { qc with sigs := fun r => if r ∈ qc.keys then qc.sigs r else none }

theorem trimmed_eq_iff {qc : QuorumCertSecp256k1 Hash Sig} : qc.trimmed = qc ↔ qc.Tidy := by
  constructor
  · intro heq r hr
    by_contra hkey
    have hsig : qc.trimmed.sigs r = qc.sigs r := congrFun (congrArg sigs heq) r
    have hnone : qc.trimmed.sigs r = none := if_neg hkey
    rw [← hsig, hnone] at hr
    exact Bool.false_ne_true hr
  · intro htidy
    apply QuorumCertSecp256k1.ext
    · rfl
    · rfl
    · rfl
    · funext r
      show (if r ∈ qc.keys then qc.sigs r else none) = qc.sigs r
      split
      · rfl
      · rename_i hkey
        cases hsig : qc.sigs r with
        | none => rfl
        | some sig => exact absurd (htidy r (by rw [hsig]; rfl)) hkey

theorem mapM_sigs_congr {f g : ℕ → Option Sig} {is : List ℕ} (h : ∀ i ∈ is, f i = g i) :
    is.mapM f = is.mapM g := by
  induction is with
  | nil => rfl
  | cons i is ih =>
    rw [List.mapM_cons, List.mapM_cons, h i List.mem_cons_self,
      ih fun j hj => h j (List.mem_cons_of_mem i hj)]

theorem serialize_trimmed (E : Encodings Hash Sig) (qc : QuorumCertSecp256k1 Hash Sig) :
    qc.trimmed.serialize E = qc.serialize E := by
  have hsigs : ∀ i ∈ qc.rids.ones, qc.trimmed.sigs (UInt16.ofNat i) = qc.sigs (UInt16.ofNat i) :=
    fun i hi => if_pos (List.mem_map_of_mem hi)
  unfold serialize
  rw [show qc.trimmed.rids = qc.rids from rfl, mapM_sigs_congr hsigs]
  rfl

theorem exists_sigs {qc : QuorumCertSecp256k1 Hash Sig} (is : List ℕ)
    (h : ∀ i ∈ is, (qc.sigs (UInt16.ofNat i)).isSome) :
    ∃ sigs, (is.mapM fun i => qc.sigs (UInt16.ofNat i)) = some sigs := by
  induction is with
  | nil => exact ⟨[], rfl⟩
  | cons i is ih =>
    obtain ⟨sig, hsig⟩ := Option.isSome_iff_exists.mp (h i List.mem_cons_self)
    obtain ⟨sigs, hsigs⟩ := ih fun j hj => h j (List.mem_cons_of_mem i hj)
    refine ⟨sig :: sigs, ?_⟩
    rw [List.mapM_cons, hsig, hsigs]
    rfl

/-- Reading the signatures of `is` enters them in the map. -/
theorem reads_sigs {E : Encodings Hash Sig} (hE : E.RoundTrip)
    {sigsOf : UInt16 → Option Sig} {is : List ℕ} {sigs : List Sig}
    (h : (is.mapM fun i => sigsOf (UInt16.ofNat i)) = some sigs) (s : UInt16 → Option Sig) :
    Reads (is.foldlM (readSig E) s) (sigs.flatMap E.sig.write)
      (fun r => if r ∈ is.map UInt16.ofNat then sigsOf r else s r) := by
  induction is generalizing sigs s with
  | nil =>
    cases Option.some.inj h
    exact Reads.pure s
  | cons i is ih =>
    rw [List.mapM_cons] at h
    obtain ⟨sig, hsig, h⟩ := Option.bind_eq_some_iff.mp h
    obtain ⟨rest, hrest, h⟩ := Option.bind_eq_some_iff.mp h
    cases Option.some.inj h
    have hstep : Reads (readSig E s i) (E.sig.write sig)
        (Function.update s (UInt16.ofNat i) (some sig)) :=
      (hE.sig sig).map fun sig => Function.update s (UInt16.ofNat i) (some sig)
    have hmap : (fun r => if r ∈ (i :: is).map UInt16.ofNat then sigsOf r else s r) =
        fun r => if r ∈ is.map UInt16.ofNat then sigsOf r
          else Function.update s (UInt16.ofNat i) (some sig) r := by
      funext r
      simp only [List.map_cons, List.mem_cons]
      by_cases hr : r ∈ is.map UInt16.ofNat
      · rw [if_pos (Or.inr hr), if_pos hr]
      · rw [if_neg hr]
        by_cases hi : r = UInt16.ofNat i
        · subst hi
          rw [if_pos (Or.inl rfl), Function.update_self, hsig]
        · rw [if_neg (not_or.mpr ⟨hi, hr⟩), Function.update_of_ne hi]
    rw [hmap, List.foldlM_cons, List.flatMap_cons]
    exact hstep.bind (ih hrest _)

/-- A certificate without missing signatures is written, and an object without signatures reads the
part of it that was written. -/
theorem Complete.reads {E : Encodings Hash Sig} (hE : E.RoundTrip)
    {qc : QuorumCertSecp256k1 Hash Sig} (hqc : qc.Complete) :
    ∃ bytes, qc.serialize E = some bytes ∧ ∀ self : QuorumCertSecp256k1 Hash Sig,
      (∀ r, self.sigs r = none) → Reads (unserialize E self) bytes qc.trimmed := by
  obtain ⟨sigs, hsigs⟩ := exists_sigs qc.rids.ones fun i hi =>
    hqc _ (List.mem_map_of_mem hi)
  refine ⟨E.hash.write qc.objHash ++ E.bits.write qc.rids ++ E.u32.write qc.view ++
    sigs.flatMap E.sig.write, ?_, ?_⟩
  · unfold serialize
    rw [hsigs]
    rfl
  · intro self hself
    unfold unserialize
    rw [List.append_assoc, List.append_assoc]
    refine (hE.hash qc.objHash).bind ?_
    refine (hE.bits qc.rids).bind ?_
    refine (hE.u32 qc.view).bind ?_
    have hloop := (reads_sigs hE hsigs self.sigs).map
      (QuorumCertSecp256k1.mk qc.objHash qc.view qc.rids)
    rw [funext hself] at hloop ⊢
    exact hloop

/-- Reading the signatures of `is` leaves a signature where there was one, or where `is` has it. -/
theorem isSome_of_readSigs {E : Encodings Hash Sig} {is : List ℕ} {s s' : UInt16 → Option Sig}
    {bytes rest : List UInt8} (h : (is.foldlM (readSig E) s).run bytes = some (s', rest))
    (r : UInt16) : (s' r).isSome ↔ (s r).isSome ∨ r ∈ is.map UInt16.ofNat := by
  induction is generalizing s bytes with
  | nil =>
    cases Option.some.inj h
    simp
  | cons i is ih =>
    rw [List.foldlM_cons] at h
    obtain ⟨s₁, bytes₁, hstep, hloop⟩ := run_bind_eq_some.mp h
    obtain ⟨sig, bytes₂, -, hret⟩ := run_bind_eq_some.mp hstep
    cases Option.some.inj hret
    rw [ih hloop, List.map_cons, List.mem_cons]
    by_cases hi : r = UInt16.ofNat i
    · subst hi
      simp
    · rw [Function.update_of_ne hi, or_iff_right hi]

theorem unserialize_eq_some {E : Encodings Hash Sig} {qc qc' : QuorumCertSecp256k1 Hash Sig}
    {bytes rest : List UInt8} (h : (unserialize E qc).run bytes = some (qc', rest)) (r : UInt16) :
    (qc'.sigs r).isSome ↔ (qc.sigs r).isSome ∨ r ∈ qc'.keys := by
  obtain ⟨objHash, _, -, h⟩ := run_bind_eq_some.mp h
  obtain ⟨rids, _, -, h⟩ := run_bind_eq_some.mp h
  obtain ⟨view, _, -, h⟩ := run_bind_eq_some.mp h
  obtain ⟨sigs, _, hloop, h⟩ := run_bind_eq_some.mp h
  cases Option.some.inj h
  exact isSome_of_readSigs hloop r

theorem keys_eq_nil {qc : QuorumCertSecp256k1 Hash Sig} {nbits : UInt32}
    (h : qc.rids = Bits.cleared nbits) : qc.keys = [] := by
  rw [keys, h, Bits.ones_cleared, List.map_nil]

section

variable [DecidableEq Hash]

theorem addPart_eq_some {qc qc' : QuorumCertSecp256k1 Hash Sig} {rid : UInt16}
    {pc : PartCertSecp256k1 Hash Sig} (h : qc.addPart rid pc = some qc') :
    (∀ r, (qc'.sigs r).isSome ↔ r = rid ∨ (qc.sigs r).isSome) ∧
      ∀ r, r ∈ qc'.keys ↔ r = rid ∨ r ∈ qc.keys := by
  unfold addPart at h
  split at h
  · cases h
  · split at h
    · rename_i hlt
      cases Option.some.inj h
      constructor
      · intro r
        by_cases hr : r = rid
        · subst hr
          simp
        · show ((Function.update qc.sigs rid _) r).isSome ↔ _
          rw [Function.update_of_ne hr, or_iff_right hr]
      · intro r
        unfold keys
        simp only [List.mem_map, Bits.mem_ones_set hlt]
        constructor
        · rintro ⟨i, rfl | hi, rfl⟩
          · exact Or.inl UInt16.ofNat_toNat
          · exact Or.inr ⟨i, hi, rfl⟩
        · rintro (rfl | ⟨i, hi, rfl⟩)
          · exact ⟨_, Or.inl rfl, UInt16.ofNat_toNat⟩
          · exact ⟨i, Or.inr hi, rfl⟩
    · cases h

variable [Inhabited Hash]

/-- The certificates that come from the constructors by `add_part`, `clone` and `unserialize`, where
`unserialize` is called on objects that satisfy `into`. -/
inductive Obtained (E : Encodings Hash Sig) (into : QuorumCertSecp256k1 Hash Sig → Prop) :
    QuorumCertSecp256k1 Hash Sig → Prop
  | empty (view : UInt32) : Obtained E into (empty view)
  | new (nreplicas : ℕ) (objHash : Hash) (view : UInt32) : Obtained E into (new nreplicas objHash view)
  | addPart {qc qc' : QuorumCertSecp256k1 Hash Sig} {rid : UInt16} {pc : PartCertSecp256k1 Hash Sig} :
      Obtained E into qc → qc.addPart rid pc = some qc' → Obtained E into qc'
  | clone {qc : QuorumCertSecp256k1 Hash Sig} : Obtained E into qc → Obtained E into qc.clone
  | unserialize {qc qc' : QuorumCertSecp256k1 Hash Sig} {bytes rest : List UInt8} :
      Obtained E into qc → into qc → (unserialize E qc).run bytes = some (qc', rest) →
        Obtained E into qc'

/-- No signature is missing. -/
theorem Obtained.complete {E : Encodings Hash Sig} {into : QuorumCertSecp256k1 Hash Sig → Prop}
    {qc : QuorumCertSecp256k1 Hash Sig} (h : Obtained E into qc) : qc.Complete := by
  induction h with
  | empty view =>
    intro r hr
    rw [keys_eq_nil rfl] at hr
    cases hr
  | new nreplicas objHash view =>
    intro r hr
    rw [keys_eq_nil rfl] at hr
    cases hr
  | addPart _ hadd ih =>
    intro r hr
    obtain ⟨hsigs, hkeys⟩ := addPart_eq_some hadd
    exact (hsigs r).mpr (((hkeys r).mp hr).imp_right (ih r))
  | clone _ ih => exact ih
  | unserialize _ _ hread _ =>
    intro r hr
    exact (unserialize_eq_some hread r).mpr (Or.inr hr)

/-- Where `unserialize` is only called on objects without signatures, as `parse_quorum_cert` does,
every signature is written. -/
theorem Obtained.tidy {E : Encodings Hash Sig} {qc : QuorumCertSecp256k1 Hash Sig}
    (h : Obtained E (fun qc => ∀ r, qc.sigs r = none) qc) : qc.Tidy := by
  induction h with
  | empty view => exact fun r hr => absurd hr Bool.false_ne_true
  | new nreplicas objHash view => exact fun r hr => absurd hr Bool.false_ne_true
  | addPart _ hadd ih =>
    intro r hr
    obtain ⟨hsigs, hkeys⟩ := addPart_eq_some hadd
    exact (hkeys r).mpr (((hsigs r).mp hr).imp_right (ih r))
  | clone _ ih => exact ih
  | unserialize _ hinto hread _ =>
    intro r hr
    rcases (unserialize_eq_some hread r).mp hr with hold | hkey
    · rw [hinto r] at hold
      exact absurd hold Bool.false_ne_true
    · exact hkey

/-- `parse_quorum_cert`: the object is new, and its `view` is overwritten. -/
def parse (E : Encodings Hash Sig) : Reader UInt8 (QuorumCertSecp256k1 Hash Sig) :=
  unserialize E (empty 0)

end

end QuorumCertSecp256k1

/-! ## Encodings in bytes -/

/-- An unsigned integer of `k` bytes, the lowest first. -/
def wordCodec {α : Type} (k : ℕ) (toNat : α → ℕ) (ofNat : ℕ → α) : Codec UInt8 α where
  write a := bytesOf k (toNat a)
  read := do
    let n ← readBytes k
    return ofNat n

theorem wordCodec_roundTrips {α : Type} {k : ℕ} {toNat : α → ℕ} {ofNat : ℕ → α}
    (hlt : ∀ a, toNat a < 256 ^ k) (hof : ∀ a, ofNat (toNat a) = a) :
    (wordCodec k toNat ofNat).RoundTrips := by
  intro a
  have hread := (reads_readBytes (hlt a)).map ofNat
  rwa [hof] at hread

/-- `n` bits from a number. -/
def bitsOf (n v : ℕ) : Bits where
  bits := (List.range (n % 2 ^ 32)).map v.testBit
  size_lt := by
    rw [List.length_map, List.length_range]
    exact Nat.mod_lt n (by decide)

theorem bitsOf_ofBits (b : Bits) :
    bitsOf b.bits.length (Nat.ofBits fun i : Fin b.bits.length => b.bits[i]) = b := by
  apply Bits.ext
  apply List.ext_getElem
  · show ((List.range _).map _).length = _
    rw [List.length_map, List.length_range, Nat.mod_eq_of_lt b.size_lt]
  · intro i _ hi
    simp only [bitsOf, List.getElem_map, List.getElem_range]
    rw [Nat.testBit_ofBits_lt _ i hi]
    rfl

/-- The size and the bits, eight in a byte. -/
def bitsCodec : Codec UInt8 Bits where
  write b := bytesOf 4 b.bits.length ++ bytesOf ((b.bits.length + 7) / 8)
    (Nat.ofBits fun i : Fin b.bits.length => b.bits[i])
  read := do
    let n ← readBytes 4
    let v ← readBytes ((n + 7) / 8)
    return bitsOf n v

theorem bitsCodec_roundTrips : bitsCodec.RoundTrips := by
  intro b
  have hsize : b.bits.length < 256 ^ 4 := b.size_lt
  have hpow : 2 ^ b.bits.length ≤ 256 ^ ((b.bits.length + 7) / 8) := by
    rw [show 256 = 2 ^ 8 from rfl, ← Nat.pow_mul]
    exact Nat.pow_le_pow_right (by decide) (by omega)
  have hbits : (Nat.ofBits fun i : Fin b.bits.length => b.bits[i]) <
      256 ^ ((b.bits.length + 7) / 8) := lt_of_lt_of_le (Nat.ofBits_lt_two_pow _) hpow
  refine (reads_readBytes hsize).bind ?_
  have hread := (reads_readBytes hbits).map (bitsOf b.bits.length)
  rwa [bitsOf_ofBits] at hread

/-- The number that `k` bytes hold. -/
def wordOf (k n : ℕ) : Fin (256 ^ k) := ⟨n % 256 ^ k, Nat.mod_lt n (Nat.pow_pos (by decide))⟩

theorem wordOf_val {k : ℕ} (x : Fin (256 ^ k)) : wordOf k x = x := Fin.ext (Nat.mod_eq_of_lt x.isLt)

/-- Integers and hashes in little-endian order, signatures of 64 bytes; the hash is a number that
depends on all bytes. -/
def byteEncodings : Encodings (Fin (256 ^ 32)) (Fin (256 ^ 64)) where
  u8 := wordCodec 1 UInt8.toNat UInt8.ofNat
  i8 := wordCodec 1 (fun d => d.toUInt8.toNat) fun n => (UInt8.ofNat n).toInt8
  u16 := wordCodec 2 UInt16.toNat UInt16.ofNat
  u32 := wordCodec 4 UInt32.toNat UInt32.ofNat
  hash := wordCodec 32 Fin.val (wordOf 32)
  bits := bitsCodec
  sig := wordCodec 64 Fin.val (wordOf 64)
  htole := id
  letoh := id
  getHash bytes := wordOf 32 (bytes.foldl (fun h b => 257 * h + b.toNat + 1) 0)

theorem byteEncodings_roundTrip : byteEncodings.RoundTrip where
  u8 := wordCodec_roundTrips UInt8.toNat_lt fun _ => UInt8.ofNat_toNat
  i8 := wordCodec_roundTrips (fun d => d.toUInt8.toNat_lt) fun d => by simp
  u16 := wordCodec_roundTrips UInt16.toNat_lt fun _ => UInt16.ofNat_toNat
  u32 := wordCodec_roundTrips UInt32.toNat_lt fun _ => UInt32.ofNat_toNat
  hash := wordCodec_roundTrips Fin.isLt wordOf_val
  bits := bitsCodec_roundTrips
  sig := wordCodec_roundTrips Fin.isLt wordOf_val
  letoh_htole _ := rfl

end OptRand.Wire
