import OptRand.Pvss.Context
import OptRand.Lib.Codec

/-!
# The text of PVSS objects (`Serialization.hpp` and the `operator<<` of each class)

The objects of the library as text, in the mode that ends every part with a newline. How the
elements of the groups and of the field are written and read is a parameter, `Streams`, and what is
assumed of it is `Streams.RoundTrip`: an element is read back if a newline comes next, and the
newline is left.

A reader skips one character for each newline that the writer has put, and the writers nest: an
object that ends with a newline gets another one when it is an element of a vector. Every object is
read back from its own text and from nothing else, so objects that are written one after another are
read back in this order (`PvssObject.text_round_trip`).
-/

namespace OptRand.Pvss

open Lib

/-- Readers for the elements of the groups, and how elements of the field and of the target group
are written and read. -/
structure Streams (q : ℕ) (G₁ G₂ GT : Type) where
  read₁ : Reader Char G₁
  read₂ : Reader Char G₂
  fr : Codec Char (Fr q)
  gt : Codec Char GT

variable {q : ℕ} {G₁ G₂ GT : Type}

/-- The elements of the first group: they are written as in the challenges. -/
def Streams.g1 (S : Streams q G₁ G₂ GT) (E : Curve q G₁ G₂ GT) : Codec Char G₁ where
  write P := (E.text₁ P).toList
  read := S.read₁

def Streams.g2 (S : Streams q G₁ G₂ GT) (E : Curve q G₁ G₂ GT) : Codec Char G₂ where
  write P := (E.text₂ P).toList
  read := S.read₂

/-- Elements are read back, and no more is taken than their text. -/
structure Streams.RoundTrip (S : Streams q G₁ G₂ GT) (E : Curve q G₁ G₂ GT) : Prop where
  g1 : (S.g1 E).RoundTripsBefore '\n'
  g2 : (S.g2 E).RoundTripsBefore '\n'
  fr : S.fr.RoundTripsBefore '\n'
  gt : S.gt.RoundTripsBefore '\n'

/-! ## Sizes and vectors -/

/-- `libff::consume_OUTPUT_NEWLINE`. -/
abbrev consumeOutputNewline : Reader Char Char := next

/-- `size_t` as text. -/
def sizeCodec : Codec Char ℕ where
  write n := Nat.toDigits 10 n
  read := readDecimal (2 ^ 64)

theorem readsBefore_size {n : ℕ} (hn : n < 2 ^ 64) :
    ReadsBefore '\n' sizeCodec.read (sizeCodec.write n) n :=
  readsBefore_readDecimal hn (by decide)

/-- `serializeVector`. -/
def serializeVector {α : Type} (write : α → List Char) (v : List α) : List Char :=
  sizeCodec.write v.length ++ '\n' :: v.flatMap fun e => write e ++ ['\n']

/-- `deserializeVector`. -/
def deserializeVector {α : Type} (read : Reader Char α) : Reader Char (List α) := do
  let len ← sizeCodec.read
  let _ ← consumeOutputNewline
  readMany (terminated read) len

theorem reads_vector {α : Type} {read : Reader Char α} {write : α → List Char} {v : List α}
    (hlen : v.length < 2 ^ 64) (h : ∀ e ∈ v, ReadsBefore '\n' read (write e) e) :
    Reads (deserializeVector read) (serializeVector write v) v :=
  (readsBefore_size hlen).bind (reads_readMany fun e he => (h e he).terminated)

/-! ## Proofs -/

namespace Dleq

variable {G : Type}

def write (S : Streams q G₁ G₂ GT) (g : Codec Char G) (self : Dleq q G) : List Char :=
  g.write self.gr ++ '\n' :: (S.fr.write self.pi ++ ['\n'])

def read (S : Streams q G₁ G₂ GT) (g : Codec Char G) : Reader Char (Dleq q G) := do
  let gr ← g.read
  let _ ← consumeOutputNewline
  let pi ← S.fr.read
  let _ ← consumeOutputNewline
  return ⟨gr, pi⟩

theorem reads {S : Streams q G₁ G₂ GT} {E : Curve q G₁ G₂ GT} (hS : S.RoundTrip E)
    {g : Codec Char G} (hg : g.RoundTripsBefore '\n') (self : Dleq q G) :
    Reads (read S g) (self.write S g) self := by
  refine (hg self.gr).bind ?_
  refine (hS.fr self.pi).bind ?_
  exact Reads.pure _

end Dleq

namespace DleqDual

def write (S : Streams q G₁ G₂ GT) (E : Curve q G₁ G₂ GT) (self : DleqDual q G₁ G₂) : List Char :=
  (S.g1 E).write self.gra ++ '\n' :: ((S.g2 E).write self.grb ++ '\n' ::
    (S.fr.write self.pi ++ ['\n']))

def read (S : Streams q G₁ G₂ GT) (E : Curve q G₁ G₂ GT) : Reader Char (DleqDual q G₁ G₂) := do
  let gra ← (S.g1 E).read
  let _ ← consumeOutputNewline
  let grb ← (S.g2 E).read
  let _ ← consumeOutputNewline
  let pi ← S.fr.read
  let _ ← consumeOutputNewline
  return ⟨gra, grb, pi⟩

theorem reads {S : Streams q G₁ G₂ GT} {E : Curve q G₁ G₂ GT} (hS : S.RoundTrip E)
    (self : DleqDual q G₁ G₂) : Reads (read S E) (self.write S E) self := by
  refine (hS.g1 self.gra).bind ?_
  refine (hS.g2 self.grb).bind ?_
  refine (hS.fr self.pi).bind ?_
  exact Reads.pure _

end DleqDual

namespace DecompositionProof

def write (S : Streams q G₁ G₂ GT) (E : Curve q G₁ G₂ GT) (self : DecompositionProof q G₂) :
    List Char :=
  self.pi.write S (S.g2 E) ++ '\n' :: ((S.g2 E).write self.gs ++ ['\n'])

def read (S : Streams q G₁ G₂ GT) (E : Curve q G₁ G₂ GT) :
    Reader Char (DecompositionProof q G₂) := do
  let pi ← Dleq.read S (S.g2 E)
  let _ ← consumeOutputNewline
  let gs ← (S.g2 E).read
  let _ ← consumeOutputNewline
  return ⟨pi, gs⟩

theorem reads {S : Streams q G₁ G₂ GT} {E : Curve q G₁ G₂ GT} (hS : S.RoundTrip E)
    (self : DecompositionProof q G₂) : Reads (read S E) (self.write S E) self := by
  refine ((Dleq.reads hS hS.g2 self.pi).before '\n').bind ?_
  refine (hS.g2 self.gs).bind ?_
  exact Reads.pure _

end DecompositionProof

/-! ## Sharings and aggregates -/

namespace PvssSharing

/-- The secret is not written. -/
def write (S : Streams q G₁ G₂ GT) (E : Curve q G₁ G₂ GT) (self : PvssSharing q G₁ G₂) :
    List Char :=
  sizeCodec.write self.encryptions.length ++ '\n' ::
    (self.encryptions.flatMap (fun enc => (S.g1 E).write enc ++ ['\n']) ++
      (sizeCodec.write self.commitments.length ++ '\n' ::
        (self.commitments.flatMap (fun comm => (S.g2 E).write comm ++ ['\n']) ++
          (sizeCodec.write self.dleqProofs.length ++ '\n' ::
            (self.dleqProofs.flatMap (fun proof => proof.write S E ++ ['\n']) ++
              (self.decompPi.write S E ++ ['\n']))))))

/-- Only the encryptions are cleared before; the other vectors grow by what is read. -/
def read (S : Streams q G₁ G₂ GT) (E : Curve q G₁ G₂ GT) (self : PvssSharing q G₁ G₂) :
    Reader Char (PvssSharing q G₁ G₂) := do
  let s ← sizeCodec.read
  let _ ← consumeOutputNewline
  let encryptions ← readMany (terminated (S.g1 E).read) s
  let s ← sizeCodec.read
  let _ ← consumeOutputNewline
  let commitments ← readMany (terminated (S.g2 E).read) s
  let s ← sizeCodec.read
  let _ ← consumeOutputNewline
  let dleqProofs ← readMany (terminated (DleqDual.read S E)) s
  let decompPi ← DecompositionProof.read S E
  let _ ← consumeOutputNewline
  return ⟨encryptions, self.commitments ++ commitments, self.dleqProofs ++ dleqProofs, decompPi,
    self.secret⟩

/-- The sizes are `size_t`. -/
structure Fits (sharing : PvssSharing q G₁ G₂) : Prop where
  encryptions : sharing.encryptions.length < 2 ^ 64
  commitments : sharing.commitments.length < 2 ^ 64
  dleqProofs : sharing.dleqProofs.length < 2 ^ 64

/-- A new object. -/
structure Fresh (sharing : PvssSharing q G₁ G₂) : Prop where
  commitments : sharing.commitments = []
  dleqProofs : sharing.dleqProofs = []

theorem reads {S : Streams q G₁ G₂ GT} {E : Curve q G₁ G₂ GT} (hS : S.RoundTrip E)
    {sharing self : PvssSharing q G₁ G₂} (hfits : sharing.Fits) (hfresh : self.Fresh) :
    Reads (read S E self) (sharing.write S E) { sharing with secret := self.secret } := by
  refine (readsBefore_size hfits.encryptions).bind ?_
  refine (reads_readMany fun enc _ => (hS.g1 enc).terminated).bind ?_
  refine (readsBefore_size hfits.commitments).bind ?_
  refine (reads_readMany fun comm _ => (hS.g2 comm).terminated).bind ?_
  refine (readsBefore_size hfits.dleqProofs).bind ?_
  refine (reads_readMany fun proof _ => ((DleqDual.reads hS proof).before '\n').terminated).bind ?_
  refine ((DecompositionProof.reads hS sharing.decompPi).before '\n').bind ?_
  rw [hfresh.commitments, hfresh.dleqProofs]
  exact Reads.pure _

end PvssSharing

/-- The `secret` of an aggregate, a field that a build with `NDEBUG` does not have. -/
def DebugSecret (q : ℕ) : Bool → Type
  | true => Unit
  | false => Fr q

def DebugSecret.write (S : Streams q G₁ G₂ GT) : (ndebug : Bool) → DebugSecret q ndebug → List Char
  | true, _ => []
  | false, secret => S.fr.write secret ++ ['\n']

def DebugSecret.read (S : Streams q G₁ G₂ GT) : (ndebug : Bool) → Reader Char (DebugSecret q ndebug)
  | true => return ()
  | false => terminated S.fr.read

theorem DebugSecret.reads {S : Streams q G₁ G₂ GT} {E : Curve q G₁ G₂ GT} (hS : S.RoundTrip E)
    {ndebug : Bool} (secret : DebugSecret q ndebug) :
    Reads (read S ndebug) (write S ndebug secret) secret := by
  cases ndebug with
  | true => exact Reads.pure ()
  | false => exact (hS.fr secret).terminated

namespace PvssAggregate

variable {ndebug : Bool}

def write (S : Streams q G₁ G₂ GT) (E : Curve q G₁ G₂ GT)
    (self : PvssAggregate q G₁ G₂ × DebugSecret q ndebug) : List Char :=
  serializeVector (S.g1 E).write self.1.encryptions ++
    (serializeVector (S.g2 E).write self.1.commitments ++
      (serializeVector (DecompositionProof.write S E) self.1.decomposition ++
        (serializeVector sizeCodec.write self.1.idVec ++ DebugSecret.write S ndebug self.2)))

def read (S : Streams q G₁ G₂ GT) (E : Curve q G₁ G₂ GT) :
    Reader Char (PvssAggregate q G₁ G₂ × DebugSecret q ndebug) := do
  let encryptions ← deserializeVector (S.g1 E).read
  let commitments ← deserializeVector (S.g2 E).read
  let decomposition ← deserializeVector (DecompositionProof.read S E)
  let idVec ← deserializeVector sizeCodec.read
  let secret ← DebugSecret.read S ndebug
  return (⟨encryptions, commitments, decomposition, idVec⟩, secret)

/-- The sizes and the ids are `size_t`. -/
structure Fits (agg : PvssAggregate q G₁ G₂) : Prop where
  encryptions : agg.encryptions.length < 2 ^ 64
  commitments : agg.commitments.length < 2 ^ 64
  decomposition : agg.decomposition.length < 2 ^ 64
  idVec : agg.idVec.length < 2 ^ 64
  ids : ∀ i ∈ agg.idVec, i < 2 ^ 64

theorem reads {S : Streams q G₁ G₂ GT} {E : Curve q G₁ G₂ GT} (hS : S.RoundTrip E)
    {self : PvssAggregate q G₁ G₂ × DebugSecret q ndebug} (hfits : self.1.Fits) :
    Reads (read S E) (write S E self) self := by
  refine (reads_vector hfits.encryptions fun enc _ => hS.g1 enc).bind ?_
  refine (reads_vector hfits.commitments fun comm _ => hS.g2 comm).bind ?_
  refine (reads_vector hfits.decomposition fun proof _ =>
    (DecompositionProof.reads hS proof).before '\n').bind ?_
  refine (reads_vector hfits.idVec fun i hi => readsBefore_size (hfits.ids i hi)).bind ?_
  exact (DebugSecret.reads hS self.2).map fun secret => (self.1, secret)

end PvssAggregate

/-! ## Decryptions, beacons and contexts -/

namespace Decryption

def write (S : Streams q G₁ G₂ GT) (E : Curve q G₁ G₂ GT) (self : Decryption q G₁) : List Char :=
  (S.g1 E).write self.dec ++ '\n' :: (self.pi.write S (S.g1 E) ++ '\n' ::
    (sizeCodec.write self.origin ++ ['\n']))

def read (S : Streams q G₁ G₂ GT) (E : Curve q G₁ G₂ GT) : Reader Char (Decryption q G₁) := do
  let dec ← (S.g1 E).read
  let _ ← consumeOutputNewline
  let pi ← Dleq.read S (S.g1 E)
  let _ ← consumeOutputNewline
  let origin ← sizeCodec.read
  let _ ← consumeOutputNewline
  return ⟨dec, pi, origin⟩

theorem reads {S : Streams q G₁ G₂ GT} {E : Curve q G₁ G₂ GT} (hS : S.RoundTrip E)
    {self : Decryption q G₁} (horigin : self.origin < 2 ^ 64) :
    Reads (read S E) (self.write S E) self := by
  refine (hS.g1 self.dec).bind ?_
  refine ((Dleq.reads hS hS.g1 self.pi).before '\n').bind ?_
  refine (readsBefore_size horigin).bind ?_
  exact Reads.pure _

end Decryption

namespace Beacon

def write (S : Streams q G₁ G₂ GT) (E : Curve q G₁ G₂ GT) (self : Beacon G₁ GT) : List Char :=
  (S.g1 E).write self.recon ++ '\n' :: (S.gt.write self.beacon ++ ['\n'])

def read (S : Streams q G₁ G₂ GT) (E : Curve q G₁ G₂ GT) : Reader Char (Beacon G₁ GT) := do
  let recon ← (S.g1 E).read
  let _ ← consumeOutputNewline
  let beacon ← S.gt.read
  let _ ← consumeOutputNewline
  return ⟨recon, beacon⟩

theorem reads {S : Streams q G₁ G₂ GT} {E : Curve q G₁ G₂ GT} (hS : S.RoundTrip E)
    (self : Beacon G₁ GT) : Reads (read S E) (self.write S E) self := by
  refine (hS.g1 self.recon).bind ?_
  refine (hS.gt self.beacon).bind ?_
  exact Reads.pure _

end Beacon

namespace Context

/-- The configuration is not written. -/
def write (S : Streams q G₁ G₂ GT) (ctx : Context q G₁ G₂ GT) : List Char :=
  serializeVector (S.g1 ctx.curve).write ctx.pkMap ++
    ((S.g1 ctx.curve).write ctx.g1 ++ '\n' :: ((S.g1 ctx.curve).write ctx.g2 ++ '\n' ::
      ((S.g2 ctx.curve).write ctx.h1 ++ '\n' :: ((S.g2 ctx.curve).write ctx.h2 ++ '\n' ::
        (S.fr.write ctx.secretKey ++ '\n' :: (sizeCodec.write ctx.myId ++ ['\n']))))))

end Context

/-- `Factory::parseContext`, of a factory with the configuration `config`. -/
def parseContext (S : Streams q G₁ G₂ GT) (E : Curve q G₁ G₂ GT) (config : SyncSystemConfig) :
    Reader Char (Context q G₁ G₂ GT) := do
  let pkMap ← deserializeVector (S.g1 E).read
  let g1 ← (S.g1 E).read
  let _ ← consumeOutputNewline
  let g2 ← (S.g1 E).read
  let _ ← consumeOutputNewline
  let h1 ← (S.g2 E).read
  let _ ← consumeOutputNewline
  let h2 ← (S.g2 E).read
  let _ ← consumeOutputNewline
  let secretKey ← S.fr.read
  let _ ← consumeOutputNewline
  let myId ← sizeCodec.read
  let _ ← consumeOutputNewline
  return ⟨E, pkMap, config, g1, g2, h1, h2, secretKey, myId⟩

/-- The number of keys and the id are `size_t`. -/
structure Context.Fits (ctx : Context q G₁ G₂ GT) : Prop where
  pkMap : ctx.pkMap.length < 2 ^ 64
  myId : ctx.myId < 2 ^ 64

theorem Context.reads {S : Streams q G₁ G₂ GT} {ctx : Context q G₁ G₂ GT}
    (hS : S.RoundTrip ctx.curve) (hfits : ctx.Fits) :
    Reads (parseContext S ctx.curve ctx.config) (ctx.write S) ctx := by
  refine (reads_vector hfits.pkMap fun pk _ => hS.g1 pk).bind ?_
  refine (hS.g1 ctx.g1).bind ?_
  refine (hS.g1 ctx.g2).bind ?_
  refine (hS.g2 ctx.h1).bind ?_
  refine (hS.g2 ctx.h2).bind ?_
  refine (hS.fr ctx.secretKey).bind ?_
  refine (readsBefore_size hfits.myId).bind ?_
  exact Reads.pure _

/-! ## All objects -/

/-- The kinds of objects. -/
inductive PvssKind
  | sharing | aggregate | decryption | beacon | context | aggregates

/-- An object that is written as text. -/
inductive PvssObject (q : ℕ) (G₁ G₂ GT : Type) (ndebug : Bool)
  | sharing (self : PvssSharing q G₁ G₂)
  | aggregate (self : PvssAggregate q G₁ G₂ × DebugSecret q ndebug)
  | decryption (self : Decryption q G₁)
  | beacon (self : Beacon G₁ GT)
  | context (self : Context q G₁ G₂ GT)
  | aggregates (v : List (PvssAggregate q G₁ G₂ × DebugSecret q ndebug))

namespace PvssObject

variable {ndebug : Bool}

def kind : PvssObject q G₁ G₂ GT ndebug → PvssKind
  | sharing _ => .sharing
  | aggregate _ => .aggregate
  | decryption _ => .decryption
  | beacon _ => .beacon
  | context _ => .context
  | aggregates _ => .aggregates

def write (S : Streams q G₁ G₂ GT) (E : Curve q G₁ G₂ GT) :
    PvssObject q G₁ G₂ GT ndebug → List Char
  | .sharing s => s.write S E
  | .aggregate a => PvssAggregate.write S E a
  | .decryption d => d.write S E
  | .beacon b => b.write S E
  | .context ctx => ctx.write S
  | .aggregates v => serializeVector (PvssAggregate.write S E) v

/-- Read an object of a kind into a new object; a context is read by a factory. -/
def read (S : Streams q G₁ G₂ GT) (E : Curve q G₁ G₂ GT) (config : SyncSystemConfig)
    (fresh : PvssSharing q G₁ G₂) : PvssKind → Reader Char (PvssObject q G₁ G₂ GT ndebug)
  | .sharing => do
    let s ← PvssSharing.read S E fresh
    return sharing s
  | .aggregate => do
    let a ← PvssAggregate.read S E
    return aggregate a
  | .decryption => do
    let d ← Decryption.read S E
    return decryption d
  | .beacon => do
    let b ← Beacon.read S E
    return beacon b
  | .context => do
    let ctx ← parseContext S E config
    return context ctx
  | .aggregates => do
    let v ← deserializeVector (PvssAggregate.read S E)
    return aggregates v

/-- Sizes and indices are `size_t`, and a context has the configuration of the factory. -/
def Fits (E : Curve q G₁ G₂ GT) (config : SyncSystemConfig) :
    PvssObject q G₁ G₂ GT ndebug → Prop
  | .sharing s => s.Fits
  | .aggregate a => a.1.Fits
  | .decryption d => d.origin < 2 ^ 64
  | .beacon _ => True
  | .context ctx => ctx.Fits ∧ ctx.curve = E ∧ ctx.config = config
  | .aggregates v => v.length < 2 ^ 64 ∧ ∀ a ∈ v, a.1.Fits

/-- The object but for the secret of a sharing, which is that of the object that is read into. -/
def restored (fresh : PvssSharing q G₁ G₂) :
    PvssObject q G₁ G₂ GT ndebug → PvssObject q G₁ G₂ GT ndebug
  | .sharing s => sharing { s with secret := fresh.secret }
  | o => o

/-- An object is read back from its text. -/
theorem Fits.reads {S : Streams q G₁ G₂ GT} {E : Curve q G₁ G₂ GT} (hS : S.RoundTrip E)
    {config : SyncSystemConfig} {fresh : PvssSharing q G₁ G₂} (hfresh : fresh.Fresh)
    {o : PvssObject q G₁ G₂ GT ndebug} (h : o.Fits E config) :
    Reads (read S E config fresh o.kind) (o.write S E) (o.restored fresh) := by
  cases o with
  | sharing s => exact (PvssSharing.reads hS h hfresh).map sharing
  | aggregate a => exact (PvssAggregate.reads hS h).map aggregate
  | decryption d => exact (Decryption.reads hS h).map decryption
  | beacon b => exact (Beacon.reads hS b).map beacon
  | context ctx =>
    obtain ⟨hfits, rfl, rfl⟩ := h
    exact (Context.reads hS hfits).map context
  | aggregates v =>
    have hv : Reads (deserializeVector (PvssAggregate.read S E))
        (serializeVector (PvssAggregate.write S E) v) v :=
      reads_vector h.1 fun a ha => (PvssAggregate.reads hS (h.2 a ha)).before '\n'
    exact hv.map aggregates

/-- Numbers below `n` in decimal digits. -/
def decimalCodec (n : ℕ) [NeZero n] : Codec Char (Fin n) where
  write x := Nat.toDigits 10 x.val
  read := do
    let v ← readDecimal n
    return Fin.ofNat n v

theorem decimalCodec_roundTrips (n : ℕ) [NeZero n] : (decimalCodec n).RoundTripsBefore '\n' := by
  intro x
  have hsep : ('\n').isDigit = false := by decide
  have hread := (readsBefore_readDecimal x.isLt hsep).map (Fin.ofNat n)
  rwa [Fin.ofNat_val_eq_self] at hread

/-- A curve with elements that are numbers. -/
def decimalCurve : Curve 5 (Fin 100) (Fin 100) (Fin 100) where
  pairing x _ := x
  finalExponentiation x := x
  text₁ x := String.ofList (Nat.toDigits 10 x.val)
  text₂ x := String.ofList (Nat.toDigits 10 x.val)
  hashToField s := Fin.ofNat 5 s.length

def decimalStreams : Streams 5 (Fin 100) (Fin 100) (Fin 100) where
  read₁ := (decimalCodec 100).read
  read₂ := (decimalCodec 100).read
  fr := decimalCodec 5
  gt := decimalCodec 100

theorem decimalStreams_roundTrip : decimalStreams.RoundTrip decimalCurve := by
  have htext : ∀ x : Fin 100, ReadsBefore '\n' (decimalCodec 100).read
      (String.ofList (Nat.toDigits 10 x.val)).toList x := by
    intro x
    rw [String.toList_ofList]
    exact decimalCodec_roundTrips 100 x
  exact ⟨htext, htext, decimalCodec_roundTrips 5, decimalCodec_roundTrips 100⟩

/-- Every object is read back from its text, whatever follows the text, and nothing more is taken;
and objects that are written one after another are read back in this order. -/
theorem text_round_trip (E : Curve q G₁ G₂ GT) (S : Streams q G₁ G₂ GT) (hS : S.RoundTrip E)
    (config : SyncSystemConfig) (fresh : PvssSharing q G₁ G₂) (hfresh : fresh.Fresh)
    (objs : List (PvssObject q G₁ G₂ GT ndebug)) (hfits : ∀ o ∈ objs, o.Fits E config) :
    (∀ o ∈ objs, Reads (read S E config fresh o.kind) (o.write S E) (o.restored fresh)) ∧
      Reads (objs.mapM fun o => read S E config fresh o.kind) (objs.flatMap fun o => o.write S E)
        (objs.map fun o => o.restored fresh) := by
  have hone : ∀ o ∈ objs, Reads (read S E config fresh o.kind) (o.write S E) (o.restored fresh) :=
    fun o ho => (hfits o ho).reads hS hfresh
  exact ⟨hone, reads_mapM hone⟩

/-- An element of the field. -/
def scalar (n : ℕ) : Fr 5 := Fin.ofNat 5 n

/-- A sharing, two vectors of aggregates and a context. -/
def firstObjects : List (PvssObject 5 (Fin 100) (Fin 100) (Fin 100) false) :=
  [.sharing ⟨[12, 0], [30], [⟨7, 0, scalar 3⟩], ⟨⟨1, scalar 1⟩, 0⟩, scalar 1⟩, .aggregates [],
    .aggregates [(⟨[1], [0, 1], [], [0, 12]⟩, scalar 4)],
    .context ⟨decimalCurve, [1], ⟨3, 1⟩, 1, 20, 1, 1, scalar 2, 2⟩]

theorem text_round_trip_first :
    Reads (firstObjects.mapM fun o => read decimalStreams decimalCurve ⟨3, 1⟩
        ⟨[], [], [], ⟨⟨0, scalar 0⟩, 0⟩, scalar 0⟩ o.kind)
      (firstObjects.flatMap fun o => o.write decimalStreams decimalCurve)
      (firstObjects.map fun o => o.restored ⟨[], [], [], ⟨⟨0, scalar 0⟩, 0⟩, scalar 0⟩) := by
  have hfits : ∀ o ∈ firstObjects, o.Fits decimalCurve ⟨3, 1⟩ := by
    intro o ho
    fin_cases ho
    · exact ⟨by simp, by simp, by simp⟩
    · exact ⟨by simp, nofun⟩
    · refine ⟨by simp, fun a ha => ?_⟩
      cases List.mem_singleton.mp ha
      exact ⟨by simp, by simp, by simp, by simp, by simp⟩
    · exact ⟨⟨by simp, by simp⟩, rfl, rfl⟩
  exact (text_round_trip decimalCurve decimalStreams decimalStreams_roundTrip ⟨3, 1⟩
    ⟨[], [], [], ⟨⟨0, scalar 0⟩, 0⟩, scalar 0⟩ ⟨rfl, rfl⟩ firstObjects hfits).2

end PvssObject

end OptRand.Pvss
