import Mathlib.Data.Nat.Digits.Defs
import OptRand.Wire.Erasure
import OptRand.Wire.MerkleNodes
import OptRand.Wire.MerkleStore

/-!
# Dispersal of a byte string (`_deliver_proposal`, `_deliver_cert` and their receivers)

A byte string is sent in chunks, each with a proof that leads to one root. The proof of every chunk
is accepted where it is received (`verifyProof_merkleProof`), and any `k` of the chunks are put
together to the byte string (`reassembled_eq`). The root is that of the tree which is hashed as a
whole (`merkleRoot_encoded`).
-/

namespace OptRand.Wire.Dispersal

open Lib.MerkleLog Erasure MerkleTree
open Merkle (HashT)

/-! ## The sender -/

/-- The chunks of a byte string. -/
def encoded (J : Jerasure) (k m : ℕ) (d : List UInt8) : List Chunk :=
  (encode J (Int32.ofNat k) (Int32.ofNat m) 8 d).1

/-- The leaves of the tree over the chunks. -/
def chunkHashes (chunks : List Chunk) : Except Merkle.Error (List HashT) :=
  chunks.mapM fun chunk => HashT.ofBytes chunk.data

/-- The tree of the leaves. -/
def chunkTree (op : HashT → HashT → HashT) (hashes : List HashT) : TreeT HashT :=
  TreeT.after op {} (hashes.map .insert)

/-- A hash as a `uint256_t`, which has its least significant byte first. -/
def toUint256 (hash : HashT) : ℕ := Nat.ofDigits 256 (hash.bytes.map UInt8.toNat)

/-- The root that is sent along. -/
def merkleRoot (op : HashT → HashT → HashT) (chunks : List Chunk) : ℕ :=
  match chunkHashes chunks with
  | .error _ => 0
  | .ok hashes =>
    match (chunkTree op hashes).root op with
    | .error _ => 0
    | .ok (_, root) => toUint256 root

/-- The proof for the chunk number `i`, which the loop makes after those before it. -/
def merkleProof (op : HashT → HashT → HashT) (chunks : List Chunk) (i : ℕ) : List UInt8 :=
  match chunkHashes chunks with
  | .error _ => []
  | .ok hashes =>
    match ((chunkTree op hashes).after op (.root :: (List.range i).map .path)).path op i with
    | .error _ => []
    | .ok (_, path) => path.serialise

/-! ## The receiver -/

/-- Whether the path in a proof leads to a root. -/
def verifyProof (op : HashT → HashT → HashT) (proof : List UInt8) (root : ℕ) : Bool :=
  match PathT.deserialise proof with
  | .error _ => false
  | .ok (path, _) => decide (toUint256 (path.root op) = root)

/-- The chunks, with zeros of the size of `chunk` in place of those that have not arrived. -/
def arrived (chunk : Chunk) (arr : List (Option Chunk)) : List Chunk :=
  arr.map fun c => c.getD ⟨chunk.size, List.replicate chunk.data.length 0⟩

/-- The places of the chunks that have not arrived. -/
def missing (arr : List (Option Chunk)) : List ℕ :=
  (List.range arr.length).filter fun i => ((arr[i]?).join).isNone

/-- The stream after `Erasure::decode`. -/
def reassembled (J : Jerasure) (k m : ℕ) (chunk : Chunk) (arr : List (Option Chunk)) :
    List UInt8 :=
  (decode J (Int32.ofNat k) (Int32.ofNat m) 8 (arrived chunk arr)
    ((missing arr).map Int32.ofNat ++ [-1]) []).2

/-! ## Proofs are accepted -/

section

variable {op : HashT → HashT → HashT} {chunks : List Chunk} {hashes : List HashT} {i : ℕ}

/-- The leaves are the hashes of the chunks in order. -/
theorem forall₂_chunkHashes (h : chunkHashes chunks = .ok hashes) :
    List.Forall₂ (fun chunk hash => HashT.ofBytes chunk.data = .ok hash) chunks hashes := by
  unfold chunkHashes at h
  induction chunks generalizing hashes with
  | nil =>
    cases h
    exact .nil
  | cons chunk chunks ih =>
    rw [List.mapM_cons] at h
    cases hhash : HashT.ofBytes chunk.data with
    | error e =>
      rw [hhash] at h
      cases h
    | ok hash =>
      cases hrest : chunks.mapM fun chunk => HashT.ofBytes chunk.data with
      | error e =>
        rw [hhash, hrest] at h
        cases h
      | ok rest =>
        rw [hhash, hrest] at h
        cases h
        exact .cons hhash (ih hrest)

theorem exists_of_long (hlong : ∀ chunk ∈ chunks, 32 ≤ chunk.data.length) :
    ∃ hashes, chunkHashes chunks = .ok hashes := by
  unfold chunkHashes
  induction chunks with
  | nil => exact ⟨[], rfl⟩
  | cons chunk chunks ih =>
    obtain ⟨hchunk, hchunks⟩ := List.forall_mem_cons.mp hlong
    obtain ⟨hash, hhash, -⟩ := Merkle.HashT.ofBytes_of_le hchunk
    obtain ⟨hashes, hrest⟩ := ih hchunks
    rw [List.mapM_cons, hhash, hrest]
    exact ⟨hash :: hashes, rfl⟩

theorem after_inserts_eq (op : HashT → HashT → HashT) (t : TreeT HashT) (hashes : List HashT) :
    t.after op (hashes.map .insert) =
      { t with uninsertedLeafNodes := t.uninsertedLeafNodes ++ hashes } := by
  induction hashes generalizing t with
  | nil =>
    rw [List.append_nil]
    rfl
  | cons hash hashes ih =>
    refine (ih (t.insert hash)).trans ?_
    rw [TreeT.insert, List.append_assoc, List.singleton_append]

theorem chunkTree_eq (op : HashT → HashT → HashT) (hashes : List HashT) :
    chunkTree op hashes = { uninsertedLeafNodes := hashes } := after_inserts_eq op {} hashes

/-- The tree of the chunks is that of their leaves. -/
theorem models_chunkTree (op : HashT → HashT → HashT) (hbound : hashes.length ≤ maxLeaves) :
    ∃ log : Log HashT, (chunkTree op hashes).Models op log ∧ log.leaves = hashes ∧
      log.flushed = 0 := by
  rw [← numInserts_inserts] at hbound
  have hinserts : (Log.after op {} (hashes.map .insert)).leaves = [] ++ hashes ∧
      (Log.after op {} (hashes.map .insert)).flushed = 0 := Log.after_inserts {} hashes
  exact ⟨_, (TreeT.models_after hbound).1, hinserts⟩

/-- The proof of a chunk is the path of its leaf, and the root is that of the leaves. -/
theorem exists_log (op : HashT → HashT → HashT) (h : chunkHashes chunks = .ok hashes)
    (hbound : chunks.length ≤ maxLeaves) (hi : i < chunks.length) :
    ∃ log : Log HashT, log.leaves = hashes ∧
      merkleRoot op chunks = toUint256 (rootHash op log.leaf log.leaves.length) ∧
      merkleProof op chunks i = (log.path op i).serialise := by
  have hcount := (forall₂_chunkHashes h).length_eq
  rw [hcount] at hbound hi
  obtain ⟨log, hmodels, hleaves, hflushed⟩ := models_chunkTree op hbound
  rw [← hleaves] at hbound hi
  refine ⟨log, hleaves, ?_, ?_⟩
  · have hne : log.leaves ≠ [] := List.length_pos_iff.mp (by omega)
    obtain ⟨t, hroot, -⟩ := hmodels.root hne
    simp only [merkleRoot, h, hroot]
  · -- the root and the paths before this one change no leaf
    have hreads : ∀ o ∈ Op.root :: (List.range i).map (Op.path (H := HashT)), o.reads = true := by
      intro o ho
      rcases List.mem_cons.mp ho with rfl | ho
      · rfl
      · obtain ⟨j, -, rfl⟩ := List.mem_map.mp ho
        rfl
    have hzero := numInserts_reads hreads
    obtain ⟨-, hafter, -⟩ := hmodels.behaves (show log.leaves.length + numInserts (Op.root ::
      (List.range i).map Op.path) ≤ maxLeaves by rw [hzero]; exact hbound)
    rw [Log.after_reads hreads] at hafter
    obtain ⟨t, hpath, -⟩ := hafter.path (by omega) hi hbound
    simp only [merkleProof, h, hpath]

/-- A proof is read back as the path of the chunk's leaf at its number. -/
theorem deserialise_merkleProof (op : HashT → HashT → HashT) (h : chunkHashes chunks = .ok hashes)
    (hbound : chunks.length ≤ maxLeaves) (hi : i < chunks.length) :
    ∃ path, PathT.deserialise (merkleProof op chunks i) = .ok (path, []) ∧ path.leafIndex = i ∧
      HashT.ofBytes chunks[i].data = .ok path.leaf ∧
      toUint256 (path.root op) = merkleRoot op chunks := by
  obtain ⟨log, hleaves, hroot, hproof⟩ := exists_log op h hbound hi
  have hforall := forall₂_chunkHashes h
  have hcount := hforall.length_eq
  have hcount' : log.leaves.length = chunks.length := by rw [hleaves, hcount]
  have hlog : log.leaves.length ≤ 2 ^ 29 := by rwa [hcount']
  refine ⟨log.path op i, ?_, rfl, ?_, ?_⟩
  · rw [hproof, ← List.append_nil (PathT.serialise _)]
    refine PathT.deserialise_serialise _ ?_ ?_ ?_ []
    · show i < 2 ^ 64
      omega
    · show log.leaves.length - 1 < 2 ^ 64
      omega
    · have hle : (log.path op i).elements.length ≤ log.leaves.length := length_path_le _ _
      omega
  · have hi' : i < hashes.length := by omega
    have hleaf : (log.path op i).leaf = hashes[i] := by
      show log.leaf i = _
      unfold Log.leaf
      rw [hleaves, List.getD_eq_getElem]
    rw [hleaf]
    exact hforall.get hi (by omega)
  · rw [hroot, ← Log.root_path (show i < log.leaves.length by omega)]

/-- The proof of every chunk is accepted. -/
theorem verifyProof_merkleProof (op : HashT → HashT → HashT)
    (h : chunkHashes chunks = .ok hashes) (hbound : chunks.length ≤ maxLeaves)
    (hi : i < chunks.length) :
    verifyProof op (merkleProof op chunks i) (merkleRoot op chunks) = true := by
  obtain ⟨path, hread, -, -, hroot⟩ := deserialise_merkleProof op h hbound hi
  simp only [verifyProof, hread, hroot, decide_true]

end

/-! ## Chunks are put together -/

section

variable {J : Jerasure} {k m : ℕ} {d : List UInt8}

/-- Chunks that have arrived are those that were sent. -/
def Arrives (chunks : List Chunk) (arr : List (Option Chunk)) : Prop :=
  ∀ (i : ℕ) (chunk : Chunk), arr[i]? = some (some chunk) → chunks[i]? = some chunk

theorem map_join (arr : List (Option Chunk)) :
    ((List.range arr.length).map fun i => (arr[i]?).join) = arr := by
  apply List.ext_getElem
  · simp
  · intro i hi hi'
    rw [List.getElem_map, List.getElem_range, List.getElem?_eq_getElem hi', Option.join_some]

theorem length_missing (arr : List (Option Chunk)) :
    (missing arr).length + (arr.filter Option.isSome).length = arr.length := by
  have hmissing : (missing arr).length = (arr.filter Option.isNone).length := by
    rw [← List.length_map (f := fun i => (arr[i]?).join), missing]
    show (((List.range arr.length).filter (Option.isNone ∘ fun i => (arr[i]?).join)).map _).length = _
    rw [← List.filter_map, map_join]
  rw [hmissing, List.length_eq_length_filter_add (l := arr) Option.isNone]
  congr 3
  ext o
  cases o <;> rfl

end

end OptRand.Wire.Dispersal

namespace OptRand.Wire.Erasure.Codable

open Lib.MerkleLog Dispersal MerkleTree
open Merkle (HashT)

variable {J : Jerasure} {k m : ℕ} {d : List UInt8}

theorem encoded_eq (h : Codable J k m d) :
    encoded J k m d = (word J k m d).map (Chunk.mk (UInt32.ofNat d.length)) := by
  rw [encoded, encode_eq h.pos h.ne h.fits]

theorem length_encoded (h : Codable J k m d) : (encoded J k m d).length = k + m := by
  rw [h.encoded_eq, List.length_map, h.blocks_word.count]

theorem mem_encoded (h : Codable J k m d) {chunk : Chunk} (hchunk : chunk ∈ encoded J k m d) :
    chunk.size = UInt32.ofNat d.length ∧ chunk.data.length = blockLen d k := by
  rw [h.encoded_eq] at hchunk
  obtain ⟨b, hb, rfl⟩ := List.mem_map.mp hchunk
  exact ⟨rfl, h.blocks_word.size b hb⟩

/-- Every chunk is long enough to be a leaf. -/
theorem exists_chunkHashes (h : Codable J k m d) :
    ∃ hashes, chunkHashes (encoded J k m d) = .ok hashes := by
  have hpos := (blockLen_bounds h.pos h.ne h.fits).1
  have hlong : ∀ chunk ∈ encoded J k m d, 32 ≤ chunk.data.length := by
    intro chunk hchunk
    rw [(h.mem_encoded hchunk).2]
    unfold blockLen at hpos ⊢
    omega
  exact exists_of_long hlong

/-- The chunks that have arrived are put together to the byte string. -/
theorem reassembled_eq (h : Codable J k m d) {chunk : Chunk} {arr : List (Option Chunk)}
    (hchunk : chunk ∈ encoded J k m d) (hcount : arr.length = k + m)
    (harrives : Arrives (encoded J k m d) arr)
    (henough : k ≤ (arr.filter Option.isSome).length) : reassembled J k m chunk arr = d := by
  have hmissing := length_missing arr
  have hrecv : Received J k m d (arrived chunk arr) (missing arr) := by
    constructor
    · rw [arrived, List.length_map, hcount]
    · intro c hc
      obtain ⟨o, ho, rfl⟩ := List.mem_map.mp hc
      cases o with
      | none =>
        obtain ⟨hsize, hdata⟩ := h.mem_encoded hchunk
        exact ⟨hsize, List.length_replicate.trans hdata⟩
      | some c =>
        obtain ⟨i, hi⟩ := List.mem_iff_getElem?.mp ho
        exact h.mem_encoded (List.mem_of_getElem? (harrives i c hi))
    · exact List.nodup_range.filter _
    · intro i hi
      rw [← hcount]
      exact List.mem_range.mp (List.mem_filter.mp hi).1
    · omega
    · intro i hi hne
      have hlt : i < arr.length := by omega
      have hpresent : arr[i] ≠ none := by
        intro hnone
        refine hne (List.mem_filter.mpr ⟨List.mem_range.mpr hlt, ?_⟩)
        rw [List.getElem?_eq_getElem hlt, Option.join_some, hnone]
        rfl
      obtain ⟨c, hc⟩ := Option.ne_none_iff_exists'.mp hpresent
      have hc : arr[i]? = some (some c) := by rw [List.getElem?_eq_getElem hlt, hc]
      have hsent := harrives i c hc
      rw [h.encoded_eq, List.getElem?_map] at hsent
      obtain ⟨b, hb, rfl⟩ := Option.map_eq_some_iff.mp hsent
      rw [arrived, List.getElem?_map, List.getElem?_map, hc, hb]
      rfl
  unfold reassembled
  rw [h.decode_received hrecv, List.nil_append]

/-- What the echo number `i` shows. -/
theorem proof_of_encoded (h : Codable J k m d) (op : HashT → HashT → HashT) {i : ℕ}
    (hi : i < (encoded J k m d).length) :
    verifyProof op (merkleProof op (encoded J k m d) i) (merkleRoot op (encoded J k m d)) = true ∧
      ∃ path, PathT.deserialise (merkleProof op (encoded J k m d) i) = .ok (path, []) ∧
        path.leafIndex = i ∧ HashT.ofBytes (encoded J k m d)[i].data = .ok path.leaf := by
  obtain ⟨hashes, hhashes⟩ := h.exists_chunkHashes
  have hbound : (encoded J k m d).length ≤ 2 ^ 29 := by
    rw [h.length_encoded]
    have hcount := h.count
    omega
  obtain ⟨path, hread, hindex, hleaf, -⟩ := deserialise_merkleProof op hhashes hbound hi
  exact ⟨verifyProof_merkleProof op hhashes hbound hi, path, hread, hindex, hleaf⟩

/-- The leaves, by their number. -/
theorem map_getD_chunkHashes (h : Codable J k m d) {hashes : List HashT}
    (hhashes : chunkHashes (encoded J k m d) = .ok hashes) :
    (List.range (k + m)).map (fun i => hashes.getD i default) = hashes ∧
      ∀ i ∈ List.range (k + m),
        HashT.ofBytes ((encoded J k m d).getD i ⟨0, []⟩).data = .ok (hashes.getD i default) := by
  have hall := forall₂_chunkHashes hhashes
  have hcount : hashes.length = k + m := by rw [← hall.length_eq, h.length_encoded]
  constructor
  · apply List.ext_getElem
    · rw [List.length_map, List.length_range, hcount]
    · intro i _ hi
      rw [List.getElem_map, List.getElem_range, List.getD_eq_getElem _ _ hi]
  · intro i hi
    have hlt : i < hashes.length := by
      rw [hcount]
      exact List.mem_range.mp hi
    rw [List.getD_eq_getElem _ _ (by rw [hall.length_eq]; exact hlt), List.getD_eq_getElem _ _ hlt]
    exact hall.get (by rw [hall.length_eq]; exact hlt) hlt

/-- The root that is sent along is that of the tree without hashes. -/
theorem merkleRoot_encoded (h : Codable J k m d) (op : HashT → HashT → HashT) :
    ∃ root, Merkle.dispersalRoot J id op (k + m) k d = .ok root ∧
      merkleRoot op (encoded J k m d) = toUint256 root := by
  obtain ⟨hashes, hhashes⟩ := h.exists_chunkHashes
  obtain ⟨hmap, hchunk⟩ := h.map_getD_chunkHashes hhashes
  have hne : hashes ≠ [] := by
    have hlength := (forall₂_chunkHashes hhashes).length_eq
    have hpos := h.pos
    rw [h.length_encoded] at hlength
    exact List.length_pos_iff.mp (by omega)
  obtain ⟨tree, htree, -⟩ := Merkle.exists_rootNode hne
  have hdispersal : Merkle.dispersalRoot J id op (k + m) k d =
      (Merkle.TreeT.rootNode ⟨none, hashes⟩).map (Merkle.Tree.hash id op) := by
    unfold Merkle.dispersalRoot
    rw [Nat.add_sub_cancel_left]
    have hfold := Merkle.foldlM_insert hchunk {}
    rw [hmap] at hfold
    unfold encoded at hfold
    simp only [hfold, List.nil_append]
    show (Merkle.TreeT.rootNode ⟨none, hashes⟩ >>= fun root => _) = _
    cases Merkle.TreeT.rootNode ⟨none, hashes⟩ <;> rfl
  have hroot := root_insert_eq op hashes
  rw [htree] at hdispersal hroot
  refine ⟨tree.hash id op, hdispersal, ?_⟩
  cases hrun : TreeT.root op { uninsertedLeafNodes := hashes } with
  | error e =>
    rw [hrun] at hroot
    cases hroot
  | ok result =>
    rw [hrun] at hroot
    have hresult : result.2 = tree.hash id op := Except.ok.inj hroot
    simp only [merkleRoot, hhashes, chunkTree_eq, hrun, hresult]

end OptRand.Wire.Erasure.Codable

namespace OptRand.Wire.Dispersal

open Erasure

/-! ## Four blocks, of which any two are enough -/

/-- An index is listed for the library if it is listed. -/
theorem mem_map_ofNat {erasures : List ℕ} (hlt : ∀ i ∈ erasures, i < 2 ^ 31) {i : ℕ}
    (hi : i < 2 ^ 31) : Int32.ofNat i ∈ erasures.map Int32.ofNat ++ [-1] ↔ i ∈ erasures := by
  rw [List.mem_append, List.mem_singleton, List.mem_map]
  constructor
  · rintro (⟨j, hj, hsame⟩ | hsame)
    · have hint := congrArg Int32.toInt hsame
      rw [Int32.toInt_ofNat_of_lt (hlt j hj), Int32.toInt_ofNat_of_lt hi] at hint
      rwa [← Int.ofNat_inj.mp hint]
    · have hint := congrArg Int32.toInt hsame
      rw [Int32.toInt_ofNat_of_lt hi, show (-1 : Int32).toInt = -1 from rfl] at hint
      omega
  · exact fun h => Or.inl ⟨i, h, rfl⟩

/-- A byte as four elements of the field of four elements, each times `x`, for which `x * x` is
`x + 1`. -/
def timesX (b : UInt8) : UInt8 := (b &&& (240 : UInt8)) ^^^ (b <<< 4) ^^^ (b >>> 4)

theorem timesX_cube (b : UInt8) : timesX (timesX (timesX b)) = b := by
  have hall : ∀ n < 256, timesX (timesX (timesX (UInt8.ofNat n))) = UInt8.ofNat n := by
    decide +kernel
  simpa using hall b.toNat b.toNat_lt

theorem timesX_xor (b : UInt8) : timesX (b ^^^ timesX b) = b := by
  have hall : ∀ n < 256, timesX (UInt8.ofNat n ^^^ timesX (UInt8.ofNat n)) = UInt8.ofNat n := by
    decide +kernel
  simpa using hall b.toNat b.toNat_lt

/-- Two data blocks `a` and `b`, with `a + b` and `a + x * b`. -/
def lineCode : Jerasure where
  Matrix := Unit
  vandermonde _ _ _ := ()
  matrixEncode _ _ _ _ data _ :=
    match data with
    | [a, b] => [xorBlocks a b, xorBlocks a (b.map timesX)]
    | _ => []
  matrixDecode _ _ _ _ _ erasures data coding _ :=
    match data, coding with
    | [a, b], [p, q] =>
      if Int32.ofNat 0 ∉ erasures then
        if Int32.ofNat 1 ∉ erasures then some [a, b]
        else if Int32.ofNat 2 ∉ erasures then some [a, xorBlocks a p]
        else some [a, (xorBlocks a q).map fun c => timesX (timesX c)]
      else if Int32.ofNat 1 ∉ erasures then
        if Int32.ofNat 2 ∉ erasures then some [xorBlocks p b, b]
        else some [xorBlocks q (b.map timesX), b]
      else some [xorBlocks p ((xorBlocks p q).map timesX), (xorBlocks p q).map timesX]
    | _, _ => none

/-- The second data block from the first one and the last one. -/
theorem map_timesX_twice {a b : List UInt8} (h : a.length = b.length) :
    ((xorBlocks a (xorBlocks a (b.map timesX))).map fun c => timesX (timesX c)) = b := by
  rw [xorBlocks_cancel_left (by rw [h, List.length_map]), List.map_map]
  apply List.ext_getElem
  · simp
  · intro i hi hi'
    rw [List.getElem_map]
    exact timesX_cube b[i]

/-- The second data block from the coding blocks. -/
theorem map_timesX_coding {a b : List UInt8} (h : a.length = b.length) :
    (xorBlocks (xorBlocks a b) (xorBlocks a (b.map timesX))).map timesX = b := by
  unfold xorBlocks
  apply List.ext_getElem
  · simp [h]
  · intro i hi hi'
    have hsum : ∀ x y z : UInt8, (x ^^^ y) ^^^ (x ^^^ z) = y ^^^ z := by
      intro x y z
      rw [UInt8.xor_comm x y, UInt8.xor_assoc, ← UInt8.xor_assoc x x z, UInt8.xor_self,
        UInt8.zero_xor]
    simp only [List.getElem_map, List.getElem_zipWith, hsum]
    exact timesX_xor b[i]

theorem notMem_of_two {erasures : List ℕ} (hle : erasures.length ≤ 2) {i j k : ℕ}
    (hi : i ∈ erasures) (hj : j ∈ erasures) (hdistinct : [i, j, k].Nodup) : k ∉ erasures := by
  intro hk
  have hsub : [i, j, k] ⊆ erasures := by
    intro x hx
    simp only [List.mem_cons, List.not_mem_nil, or_false] at hx
    rcases hx with rfl | rfl | rfl
    · exact hi
    · exact hj
    · exact hk
  have hcard := (hdistinct.subperm hsub).length_le
  simp only [List.length_cons, List.length_nil] at hcard
  omega

/-- Any two of the four blocks give the data blocks. -/
theorem lineCode_mds : lineCode.Mds 2 2 where
  blocks := by
    intro data len _ _ _ hdata
    obtain ⟨a, b, rfl⟩ := List.length_eq_two.mp hdata.count
    have ha : a.length = len := hdata.size a (by simp)
    have hb : b.length = len := hdata.size b (by simp)
    refine ⟨rfl, fun c hc => ?_⟩
    change c ∈ [xorBlocks a b, xorBlocks a (b.map timesX)] at hc
    simp only [List.mem_cons, List.not_mem_nil, or_false] at hc
    rcases hc with rfl | rfl
    · simp [xorBlocks, ha, hb]
    · simp [xorBlocks, ha, hb]
  restores := by
    intro data data' coding' len erasures _ _ _ hdata hdata' hcoding' hnodup hlt hle hagree
    obtain ⟨a, b, rfl⟩ := List.length_eq_two.mp hdata.count
    obtain ⟨a', b', rfl⟩ := List.length_eq_two.mp hdata'.count
    obtain ⟨p, q, rfl⟩ := List.length_eq_two.mp hcoding'.count
    have hsame : a.length = b.length :=
      (hdata.size a (by simp)).trans (hdata.size b (by simp)).symm
    have ha : 0 ∉ erasures → a' = a := fun h => Option.some.inj (hagree 0 (by omega) h)
    have hb : 1 ∉ erasures → b' = b := fun h => Option.some.inj (hagree 1 (by omega) h)
    have hp : 2 ∉ erasures → p = xorBlocks a b := fun h => Option.some.inj (hagree 2 (by omega) h)
    have hq : 3 ∉ erasures → q = xorBlocks a (b.map timesX) :=
      fun h => Option.some.inj (hagree 3 (by omega) h)
    have hlisted : ∀ i < 4, Int32.ofNat i ∈ erasures.map Int32.ofNat ++ [-1] ↔ i ∈ erasures :=
      fun i hi => mem_map_ofNat (fun j hj => (hlt j hj).trans (by omega)) (by omega)
    unfold lineCode
    simp only [hlisted 0 (by omega), hlisted 1 (by omega), hlisted 2 (by omega)]
    by_cases h0 : 0 ∈ erasures
    · by_cases h1 : 1 ∈ erasures
      · rw [if_neg (not_not.mpr h0), if_neg (not_not.mpr h1),
          hp (notMem_of_two hle h0 h1 (by decide)), hq (notMem_of_two hle h0 h1 (by decide)),
          map_timesX_coding hsame, xorBlocks_cancel_right hsame]
      · rw [if_neg (not_not.mpr h0), if_pos h1, hb h1]
        split
        · rename_i h2
          rw [hp h2, xorBlocks_cancel_right hsame]
        · rename_i h2
          have h3 := notMem_of_two hle h0 (not_not.mp h2) (show [0, 2, 3].Nodup by decide)
          rw [hq h3, xorBlocks_cancel_right (by rw [hsame, List.length_map])]
    · rw [if_pos h0, ha h0]
      split
      · rename_i h1
        rw [hb h1]
      · rename_i h1
        split
        · rename_i h2
          rw [hp h2, xorBlocks_cancel_left hsame]
        · rename_i h2
          have h3 := notMem_of_two hle (not_not.mp h1) (not_not.mp h2) (show [1, 2, 3].Nodup by decide)
          rw [hq h3, map_timesX_twice hsame]

end OptRand.Wire.Dispersal
