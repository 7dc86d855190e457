import OptRand.Hotstuff.Records
import OptRand.Hotstuff.Signing
import OptRand.Wire.Dispersal

/-!
# What is decoded

Two handlers collect the chunks of echoes, by the truncated index of the echo, and decode when
there are `nreconthres`. They check that a path leads to its root. They do not check that the index
is one of a replica, that the roots agree, or that the path is that of the chunk, so a single echo
can start the decoding of nothing (`System.decoded_nothing`). If the echoes that are collected pass
these checks, what is decoded is `nreconthres` chunks of one root, each at its place
(`System.decoded_chunks`).
-/

namespace OptRand.Hotstuff

open Lib
open Wire (Jerasure)
open Wire.Dispersal
open Wire.Merkle (HashT)

variable {T : PayloadTypes}

/-! ## Chunks collected from echoes -/

/-- The entry that an echo makes. -/
def Echo.entry (e : Echo T) : ℕ × Option T.Chunk := (e.key, some e.chunk)

namespace Replica

theorem chunkAt_entries {S : List (Echo T)} {k : ℕ} :
    chunkAt (S.map Echo.entry) k = none ↔ k ∉ S.map Echo.key := by
  induction S with
  | nil => simp [chunkAt]
  | cons e S ih =>
    unfold chunkAt at ih ⊢
    rw [List.map_cons, List.map_cons, List.mem_cons, Echo.entry, List.lookup_cons]
    by_cases hk : k = e.key
    · simp [hk]
    · have hne : (k == e.key) = false := beq_false_of_ne hk
      rw [hne]
      simp only [hk, false_or]
      exact ih

/-- The chunk at a key is that of an echo with this key. -/
theorem chunkAt_eq_some {S : List (Echo T)} {k : ℕ} {c : T.Chunk}
    (h : chunkAt (S.map Echo.entry) k = some c) : ∃ e ∈ S, e.key = k ∧ e.chunk = c := by
  induction S with
  | nil => cases h
  | cons e S ih =>
    unfold chunkAt at ih h
    rw [List.map_cons, Echo.entry, List.lookup_cons] at h
    by_cases hk : k = e.key
    · subst hk
      simp only [beq_self_eq_true] at h
      exact ⟨e, List.mem_cons_self, rfl, Option.some.inj h⟩
    · have hne : (k == e.key) = false := beq_false_of_ne hk
      rw [hne] at h
      obtain ⟨e', he', hkey⟩ := ih h
      exact ⟨e', List.mem_cons_of_mem e he', hkey⟩

theorem setChunk_entries {S : List (Echo T)} {e : Echo T} (hnew : e.key ∉ S.map Echo.key) :
    setChunk (S.map Echo.entry) e.key e.chunk = (e :: S).map Echo.entry := by
  unfold setChunk
  rw [List.map_cons, Echo.entry, List.filter_eq_self.mpr]
  intro p hp
  obtain ⟨e', he', rfl⟩ := List.mem_map.mp hp
  refine decide_eq_true fun heq => hnew ?_
  exact heq ▸ List.mem_map_of_mem he'

/-- After the loop of a decoding there is an entry for each replica. -/
theorem le_length_touchChunks (n : ℕ) (m : List (ℕ × Option T.Chunk)) :
    n ≤ (touchChunks n m).length := by
  have hsub : List.range n ⊆ (touchChunks n m).map Prod.fst := by
    intro i hi
    unfold touchChunks
    rw [List.map_append, List.mem_append]
    by_cases hany : (m.any fun e => e.1 == i) = true
    · obtain ⟨p, hp, heq⟩ := List.any_eq_true.mp hany
      exact Or.inl (List.mem_map.mpr ⟨p, hp, beq_iff_eq.mp heq⟩)
    · right
      have hmem : i ∈ (List.range n).filter fun i => !m.any fun e => e.1 == i :=
        List.mem_filter.mpr ⟨hi, Bool.not_eq_true' _ |>.mpr (Bool.eq_false_iff.mpr hany)⟩
      exact List.mem_map.mpr ⟨(i, none), List.mem_map_of_mem hmem, rfl⟩
  have hle := (List.nodup_range.subperm hsub).length_le
  rwa [List.length_range, List.length_map] at hle

/-- All chunks with different keys below `n` are found. -/
theorem length_le_chunks {S : List (Echo T)} {n : ℕ} (hnodup : (S.map Echo.key).Nodup)
    (hlt : ∀ e ∈ S, e.key < n) : S.length ≤
      (((List.range n).map (chunkAt (S.map Echo.entry))).filter Option.isSome).length := by
  rw [List.filter_map, List.length_map, ← List.length_map (f := Echo.key)]
  refine (hnodup.subperm fun k hk => ?_).length_le
  obtain ⟨e, he, rfl⟩ := List.mem_map.mp hk
  refine List.mem_filter.mpr ⟨List.mem_range.mpr (hlt e he), ?_⟩
  rw [Function.comp_apply, Option.isSome_iff_ne_none]
  exact fun hnone => chunkAt_entries.mp hnone hk

end Replica

/-- The chunks that have been noted. -/
def Records.chunks (r : Records T) :
    (ℕ → List (ℕ × Option T.Chunk)) × (ℕ → List (ℕ × Option T.Chunk)) :=
  (r.propChunks, r.qcChunks)

namespace Replica

/-- The chunk of an echo is collected. -/
def collects (E : Env T) (s : Replica T) (kind : EchoKind) (e : Echo T) : Bool :=
  s.accepts E kind e && s.fresh kind e

variable {s : Replica T} {E : Env T} {e : Echo T}

/-! ## The handlers -/

/-- After a decoding the chunks of the proposal are gone. -/
theorem propChunks_proposalDecoded (p : ProposalContent T) :
    (s.proposalDecoded E e p).rep.propChunks = Function.update s.propChunks e.view [] := by
  have hadd : ∀ (t : Replica T) blk, (t.addBlk blk).propChunks = t.propChunks := by
    intro t blk
    obtain ⟨cache, heq⟩ := addBlk_writes (s := t) blk
    rw [heq]
  have hdeliver : ∀ (t : Replica T) h, (t.deliverBlk h).rep.propChunks = t.propChunks := by
    intro t h
    obtain ⟨cache, tails, heq⟩ := deliverBlk_writes (s := t) (h := h)
    rw [heq]
  rw [proposalDecoded, rep_andThen Replica.propChunks fun _ => rfl, hdeliver, hadd]
  exact Function.update_idem ..

/-- The other calls collect no chunks. -/
theorem exec_chunks {fr : Frame T} (hecho : ∀ (kind : EchoKind) e, fr ≠ kind.frame e)
    (herase : ∀ v, fr ≠ .eraseQcChunks v) (kind : EchoKind) :
    (s.exec E fr).rep.chunks kind = s.chunks kind := by
  have hnotes := exec_notes (s := s) (E := E) fr
  have hsame : ∀ t : Replica T, t.records.chunks = s.records.chunks →
      t.chunks kind = s.chunks kind := by
    intro t ht
    cases kind
    · exact congrArg Prod.fst ht
    · exact congrArg Prod.snd ht
  refine hsame _ ?_
  generalize (s.exec E fr).rep.records = r at hnotes ⊢
  cases hnotes with
  | propChunks e => exact absurd rfl (hecho .proposal e)
  | qcChunks e => exact absurd rfl (hecho .cert e)
  | erased v => exact absurd rfl (herase v)
  | _ => rfl

end Replica

/-! ## The echoes whose chunks are held -/

/-- The accessors of `merkle::Path`, and the leaf that a chunk becomes in a tree. -/
structure Leaves (T : PayloadTypes) where
  Hash : Type
  leaf : T.Path → Hash
  leafIndex : T.Path → ℕ
  ofChunk : T.Chunk → Hash

/-- A path to `root` authenticates a chunk as leaf number `i`. -/
structure Leaves.Authenticates (L : Leaves T) (E : Env T) (path : T.Path) (root i : ℕ)
    (chunk : T.Chunk) : Prop where
  verifies : E.dispersal.verifyPath path root = true
  leafIndex : L.leafIndex path = i
  leaf : L.leaf path = L.ofChunk chunk

/-- The echoes whose chunks are held for view `v` after a call, when they were `S` before. -/
def EchoKind.next (E : Env T) (kind : EchoKind) (v : ℕ) (x : Executed T) (S : List (Echo T)) :
    List (Echo T) :=
  match kind, x.frame with
  | .proposal, .onReceiveProposalEcho e =>
    if e.view ≠ v then S
    else if x.rep.decodes E .proposal e then []
    else if x.rep.collects E .proposal e then e :: S
    else S
  | .cert, .onReceiveCertEcho e =>
    if e.view ≠ v then S else if x.rep.collects E .cert e then e :: S else S
  | .cert, .eraseQcChunks w => if w = v then [] else S
  | _, _ => S

/-- The echoes whose chunks are held for view `v`. -/
def EchoKind.held (E : Env T) (kind : EchoKind) (v : ℕ) (past : List (Executed T)) :
    List (Echo T) :=
  past.foldr (kind.next E v) []

/-- Echoes that were received for view `v`, with chunks of one root at different places. -/
structure Consistent (L : Leaves T) (E : Env T) (kind : EchoKind) (v : ℕ) (past : List (Executed T))
    (S : List (Echo T)) : Prop where
  received : ∀ e ∈ S, e.view = v ∧ ∃ x ∈ past, x.frame = kind.frame e
  place : ∀ e ∈ S, e.key < E.nreplicas ∧
    L.Authenticates E e.merkleProof e.merkleRoot e.key e.chunk
  root : ∀ e ∈ S, ∀ e' ∈ S, e.merkleRoot = e'.merkleRoot
  nodup : (S.map Echo.key).Nodup

/-- The checks that an echo lacks: its index is one of a replica, its path is that of its chunk
there, and its root is that of the chunks held. -/
structure Echo.Checked (L : Leaves T) (E : Env T) (e : Echo T) (S : List (Echo T)) : Prop where
  key : e.key < E.nreplicas
  leafIndex : L.leafIndex e.merkleProof = e.key
  leaf : L.leaf e.merkleProof = L.ofChunk e.chunk
  root : ∀ e' ∈ S, e'.merkleRoot = e.merkleRoot

section

variable {L : Leaves T} {E : Env T} {kind : EchoKind} {v i : ℕ} {past : List (Executed T)}
  {S : List (Echo T)} {s : Replica T} {fr : Frame T} {e : Echo T}

theorem EchoKind.next_cases (x : Executed T) (S : List (Echo T)) :
    kind.next E v x S = S ∨ kind.next E v x S = [] ∨
    ∃ e, x.frame = kind.frame e ∧ e.view = v ∧ x.rep.collects E kind e = true ∧
      kind.next E v x S = e :: S := by
  unfold EchoKind.next
  split
  · rename_i e hfr
    split
    · exact Or.inl rfl
    · rename_i hview
      split
      · exact Or.inr (Or.inl rfl)
      · split
        · rename_i hcollects
          exact Or.inr (Or.inr ⟨e, hfr, not_not.mp hview, hcollects, rfl⟩)
        · exact Or.inl rfl
  · rename_i e hfr
    split
    · exact Or.inl rfl
    · rename_i hview
      split
      · rename_i hcollects
        exact Or.inr (Or.inr ⟨e, hfr, not_not.mp hview, hcollects, rfl⟩)
      · exact Or.inl rfl
  · split
    · exact Or.inr (Or.inl rfl)
    · exact Or.inl rfl
  · exact Or.inl rfl

/-- An echo of another view changes nothing. -/
theorem EchoKind.next_of_ne (hv : v ≠ e.view) (S : List (Echo T)) :
    kind.next E v ⟨i, s, kind.frame e⟩ S = S := by
  cases kind
  all_goals exact if_pos fun heq => hv heq.symm

/-- An echo that is not accepted changes nothing. -/
theorem EchoKind.next_of_rejected (haccepts : s.accepts E kind e = false) (v : ℕ)
    (S : List (Echo T)) : kind.next E v ⟨i, s, kind.frame e⟩ S = S := by
  cases kind
  all_goals simp only [EchoKind.next, EchoKind.frame, Replica.decodes, Replica.collects, haccepts,
    Bool.false_and, Bool.false_eq_true, if_false, ite_self]

namespace Consistent

theorem nil (L : Leaves T) (E : Env T) (kind : EchoKind) (v : ℕ) (past : List (Executed T)) :
    Consistent L E kind v past [] :=
  ⟨nofun, nofun, nofun, List.nodup_nil⟩

theorem mono (h : Consistent L E kind v past S) (x : Executed T) :
    Consistent L E kind v (x :: past) S where
  received := fun e he => by
    obtain ⟨hview, y, hy, hframe⟩ := h.received e he
    exact ⟨hview, y, List.mem_cons_of_mem x hy, hframe⟩
  place := h.place
  root := h.root
  nodup := h.nodup

/-- A checked echo is collected. -/
theorem cons (h : Consistent L E kind e.view past S)
    (hchunks : s.chunks kind e.view = S.map Echo.entry) (hcollects : s.collects E kind e = true)
    (hchecked : e.Checked L E S) :
    Consistent L E kind e.view (⟨i, s, kind.frame e⟩ :: past) (e :: S) := by
  obtain ⟨haccepts, hfresh⟩ := Bool.and_eq_true_iff.mp hcollects
  have hnew : e.key ∉ S.map Echo.key := by
    rw [Replica.fresh, hchunks, Option.isNone_iff_eq_none] at hfresh
    exact Replica.chunkAt_entries.mp hfresh
  constructor
  · intro e' he'
    rcases List.mem_cons.mp he' with rfl | he'
    · exact ⟨rfl, _, List.mem_cons_self, rfl⟩
    · exact (h.mono _).received e' he'
  · intro e' he'
    rcases List.mem_cons.mp he' with rfl | he'
    · exact ⟨hchecked.key, (Replica.accepts_iff.mp haccepts).2, hchecked.leafIndex, hchecked.leaf⟩
    · exact h.place e' he'
  · intro e₁ he₁ e₂ he₂
    rcases List.mem_cons.mp he₁ with hnew₁ | hold₁
    · rcases List.mem_cons.mp he₂ with hnew₂ | hold₂
      · rw [hnew₁, hnew₂]
      · rw [hnew₁, hchecked.root e₂ hold₂]
    · rcases List.mem_cons.mp he₂ with hnew₂ | hold₂
      · rw [hnew₂, hchecked.root e₁ hold₁]
      · exact h.root e₁ hold₁ e₂ hold₂
  · exact List.nodup_cons.mpr ⟨hnew, h.nodup⟩

end Consistent

/-- The echoes whose chunks are held after an accepted one. -/
def Replica.heldWith (E : Env T) (s : Replica T) (kind : EchoKind) (e : Echo T)
    (S : List (Echo T)) : List (Echo T) :=
  if s.collects E kind e then e :: S else S

theorem collected_eq (hchunks : s.chunks kind e.view = S.map Echo.entry)
    (haccepts : s.accepts E kind e = true) :
    s.collected kind e = (s.heldWith E kind e S).map Echo.entry := by
  unfold Replica.collected Replica.heldWith Replica.collects
  rw [haccepts, Bool.true_and, hchunks]
  split
  · rename_i hfresh
    rw [Replica.fresh, hchunks, Option.isNone_iff_eq_none] at hfresh
    exact Replica.setChunk_entries (Replica.chunkAt_entries.mp hfresh)
  · rfl

/-- When an echo leads to a decoding, `nreconthres` chunks are held. -/
theorem length_heldWith (hchunks : s.chunks kind e.view = S.map Echo.entry)
    (hdecodes : s.decodes E kind e = true) :
    (s.heldWith E kind e S).length = E.config.nreconthres := by
  obtain ⟨haccepts, hlen⟩ := Replica.decodes_iff.mp hdecodes
  unfold Replica.heldWith Replica.collects
  rw [haccepts, Bool.true_and, ← hlen, hchunks]
  split
  · rw [List.length_cons, List.length_map]
  · rw [List.length_map]

theorem consistent_heldWith (h : Consistent L E kind e.view past S)
    (hchunks : s.chunks kind e.view = S.map Echo.entry)
    (hchecked : s.collects E kind e = true → e.Checked L E S) :
    Consistent L E kind e.view (⟨i, s, kind.frame e⟩ :: past) (s.heldWith E kind e S) := by
  unfold Replica.heldWith
  split
  · rename_i hcollects
    exact h.cons hchunks hcollects (hchecked hcollects)
  · exact h.mono _

/-- The chunks held are those of the echoes, unless the loop of a decoding has filled up the map of
the certificate's chunks. -/
def Replica.Holds (E : Env T) (s : Replica T) (kind : EchoKind) (past : List (Executed T)) :
    Prop :=
  ∀ v, s.chunks kind v = (kind.held E v past).map Echo.entry ∨
    (kind = .cert ∧ E.config.nreconthres < (s.chunks kind v).length)

/-- The handler accepts no echo while the map is filled up. -/
theorem Replica.Holds.chunks_eq (h : s.Holds E kind past) (haccepts : s.accepts E kind e = true) :
    s.chunks kind e.view = (kind.held E e.view past).map Echo.entry := by
  rcases h e.view with heq | ⟨-, hlen⟩
  · exact heq
  · exact absurd (Replica.accepts_iff.mp haccepts).1.2.2 (not_le.mpr hlen)

theorem consistent_next (hcons : ∀ v, Consistent L E kind v past (kind.held E v past))
    (hholds : s.Holds E kind past) (hchecked : ∀ e, fr = kind.frame e →
      s.collects E kind e = true → e.Checked L E (kind.held E e.view past)) (v : ℕ) :
    Consistent L E kind v (⟨i, s, fr⟩ :: past) (kind.held E v (⟨i, s, fr⟩ :: past)) := by
  change Consistent L E kind v _ (kind.next E v ⟨i, s, fr⟩ (kind.held E v past))
  have hcases : kind.next E v ⟨i, s, fr⟩ (kind.held E v past) = _ ∨ _ :=
    EchoKind.next_cases ⟨i, s, fr⟩ (kind.held E v past)
  rcases hcases with h | h | ⟨e, hfr, rfl, hcollects, h⟩
  · rw [h]
    exact (hcons v).mono _
  · rw [h]
    exact Consistent.nil L E kind v _
  · rw [h]
    have hfr : fr = kind.frame e := hfr
    subst hfr
    have haccepts := (Bool.and_eq_true_iff.mp hcollects).1
    exact (hcons e.view).cons (hholds.chunks_eq haccepts) hcollects (hchecked e rfl hcollects)

/-- The loop of a decoding fills the map up, unless there is one replica. -/
theorem touchChunks_cases (h : Consistent L E kind v past S)
    (hlen : S.length = E.config.nreconthres) :
    Replica.touchChunks E.nreplicas (S.map Echo.entry) = S.map Echo.entry ∨
      E.config.nreconthres < (Replica.touchChunks E.nreplicas (S.map Echo.entry)).length := by
  have hthres : E.config.nreconthres = E.nreplicas / 4 + 1 := rfl
  obtain ⟨e, he⟩ : ∃ e, e ∈ S := List.exists_mem_of_length_pos (by omega)
  have hkey := (h.place e he).1
  rcases Nat.lt_or_ge 1 E.nreplicas with hn | hn
  · right
    refine lt_of_lt_of_le (by omega) (Replica.le_length_touchChunks E.nreplicas (S.map Echo.entry))
  · left
    have hone : E.nreplicas = 1 := by omega
    unfold Replica.touchChunks
    rw [hone, List.filter_eq_nil_iff.mpr, List.map_nil, List.append_nil]
    intro i hi hnone
    obtain rfl : i = e.key := by
      have := List.mem_range.mp hi
      omega
    have hany : (S.map Echo.entry).any (fun p => p.1 == e.key) = true :=
      List.any_eq_true.mpr ⟨e.entry, List.mem_map_of_mem he, beq_self_eq_true e.key⟩
    rw [hany] at hnone
    cases hnone

theorem Replica.Holds.update {t : Replica T} {x : Executed T} {w : ℕ}
    {m : List (ℕ × Option T.Chunk)} (h : s.Holds E kind past)
    (hchunks : t.chunks kind = Function.update (s.chunks kind) w m)
    (hw : m = (kind.next E w x (kind.held E w past)).map Echo.entry ∨
      (kind = .cert ∧ E.config.nreconthres < m.length))
    (hother : ∀ v, v ≠ w → kind.next E v x (kind.held E v past) = kind.held E v past) :
    t.Holds E kind (x :: past) := by
  intro v
  change _ = (kind.next E v x (kind.held E v past)).map Echo.entry ∨ _
  rw [hchunks]
  by_cases hv : v = w
  · subst hv
    rw [Function.update_self]
    exact hw
  · rw [Function.update_of_ne hv, hother v hv]
    exact h v

theorem Replica.Holds.of_eq {t : Replica T} {x : Executed T} (h : s.Holds E kind past)
    (hchunks : t.chunks kind = s.chunks kind)
    (hnext : ∀ v, kind.next E v x (kind.held E v past) = kind.held E v past) :
    t.Holds E kind (x :: past) := by
  intro v
  change _ = (kind.next E v x (kind.held E v past)).map Echo.entry ∨ _
  rw [hchunks, hnext v]
  exact h v

/-- An echo of a proposal. -/
theorem holds_onReceiveProposalEcho (h : s.Holds E .proposal past)
    (herror : (s.onReceiveProposalEcho E e).error = none) :
    (s.onReceiveProposalEcho E e).rep.Holds E .proposal
      (⟨i, s, .onReceiveProposalEcho e⟩ :: past) := by
  have hother : ∀ v, v ≠ e.view → EchoKind.next E .proposal v ⟨i, s, .onReceiveProposalEcho e⟩
      (EchoKind.held E .proposal v past) = EchoKind.held E .proposal v past :=
    fun v hv => EchoKind.next_of_ne hv _
  have hsame : ¬ e.view ≠ e.view := not_not.mpr rfl
  rcases Replica.onReceiveProposalEcho_eq (s := s) (E := E) e with
    ⟨haccepts, heq⟩ | ⟨haccepts, hdecodes, heq⟩ | ⟨hdecodes, heq⟩
  · exact h.of_eq (by rw [heq]; rfl) fun v => EchoKind.next_of_rejected haccepts v _
  · refine h.update (by rw [heq]; rfl) (Or.inl ?_) hother
    rw [collected_eq (h.chunks_eq haccepts) haccepts]
    simp only [EchoKind.next, hsame, if_false, hdecodes, Bool.false_eq_true, Replica.heldWith]
  · rw [heq] at herror ⊢
    split at herror
    · cases herror
    · rename_i content _
      refine h.update (Replica.propChunks_proposalDecoded content) (Or.inl ?_) hother
      simp only [EchoKind.next, hsame, if_false, hdecodes, if_true, List.map_nil]

theorem holds_onReceiveCertEcho (h : s.Holds E .cert past)
    (hcons : ∀ v, Consistent L E .cert v past (EchoKind.held E .cert v past))
    (hchecked : s.collects E .cert e = true → e.Checked L E (EchoKind.held E .cert e.view past))
    (herror : (s.onReceiveCertEcho E e).error = none) :
    (s.onReceiveCertEcho E e).rep.Holds E .cert (⟨i, s, .onReceiveCertEcho e⟩ :: past) := by
  have hother : ∀ v, v ≠ e.view → EchoKind.next E .cert v ⟨i, s, .onReceiveCertEcho e⟩
      (EchoKind.held E .cert v past) = EchoKind.held E .cert v past :=
    fun v hv => EchoKind.next_of_ne hv _
  have hnext : EchoKind.next E .cert e.view ⟨i, s, .onReceiveCertEcho e⟩
      (EchoKind.held E .cert e.view past) =
        s.heldWith E .cert e (EchoKind.held E .cert e.view past) := if_neg (not_not.mpr rfl)
  rcases Replica.onReceiveCertEcho_eq (s := s) (E := E) e with
    ⟨haccepts, heq⟩ | ⟨haccepts, hdecodes, heq⟩ | ⟨hdecodes, heq⟩
  · exact h.of_eq (by rw [heq]; rfl) fun v => EchoKind.next_of_rejected haccepts v _
  · refine h.update (by rw [heq]; rfl) (Or.inl ?_) hother
    rw [collected_eq (h.chunks_eq haccepts) haccepts, hnext]
  · have haccepts := (Replica.decodes_iff.mp hdecodes).1
    have hchunks := h.chunks_eq haccepts
    have hcons' := consistent_heldWith (i := i) (hcons e.view) hchunks hchecked
    rw [heq] at herror ⊢
    split at herror
    · cases herror
    · refine h.update (Function.update_idem ..) ?_ hother
      rw [collected_eq hchunks haccepts, hnext]
      exact (touchChunks_cases hcons' (length_heldWith hchunks hdecodes)).imp_right fun h => ⟨rfl, h⟩

theorem holds_exec (h : s.Holds E kind past)
    (hcons : ∀ v, Consistent L E kind v past (kind.held E v past))
    (hchecked : ∀ e, fr = kind.frame e → s.collects E kind e = true →
      e.Checked L E (kind.held E e.view past)) (herror : (s.exec E fr).error = none) :
    (s.exec E fr).rep.Holds E kind (⟨i, s, fr⟩ :: past) := by
  by_cases hecho : ∀ (k : EchoKind) e, fr ≠ k.frame e
  · by_cases herase : ∀ v, fr ≠ .eraseQcChunks v
    · refine h.of_eq (Replica.exec_chunks hecho herase kind) fun v => ?_
      unfold EchoKind.next
      split
      · exact absurd ‹_› (hecho .proposal _)
      · exact absurd ‹_› (hecho .cert _)
      · exact absurd ‹_› (herase _)
      · rfl
    · obtain ⟨w, rfl⟩ : ∃ w, fr = .eraseQcChunks w := by simpa using herase
      cases kind with
      | proposal => exact h.of_eq rfl fun v => rfl
      | cert =>
        refine h.update rfl (Or.inl ?_) fun v hv => if_neg fun heq => hv heq.symm
        simp only [EchoKind.next, if_true, List.map_nil]
  · obtain ⟨k, e, rfl⟩ : ∃ k e, fr = EchoKind.frame k e := by simpa using hecho
    cases k with
    | proposal =>
      cases kind with
      | proposal => exact holds_onReceiveProposalEcho h herror
      | cert =>
        obtain ⟨_, hrec⟩ := Replica.records_onReceiveProposalEcho (s := s) (E := E) e
        exact h.of_eq (congrArg Records.qcChunks hrec) fun v => rfl
    | cert =>
      cases kind with
      | proposal =>
        obtain ⟨_, hrec⟩ := Replica.records_onReceiveCertEcho (s := s) (E := E) e
        exact h.of_eq (congrArg Records.propChunks hrec) fun v => rfl
      | cert => exact holds_onReceiveCertEcho h hcons (hchecked e rfl) herror

end

/-! ## Runs -/

namespace System

variable {E : Env T} {F : Faults T} {σ : System T} {L : Leaves T}

/-- If what replica `i` runs next collects the chunk of an echo, the echo passes the checks that
the handlers lack. -/
def CollectsChecked (L : Leaves T) (E : Env T) (σ : System T) (i : ℕ) (fr : Frame T) : Prop :=
  ∀ (kind : EchoKind) e, fr = kind.frame e → (σ.nodes i).rep.collects E kind e = true →
    e.Checked L E (kind.held E e.view (σ.history i))

/-- The chunks that a replica holds are those of echoes that were checked. -/
theorem Run.holds (h : Run E F (CollectsChecked L E) σ) (kind : EchoKind) (i : ℕ) :
    (∀ v, Hotstuff.Consistent L E kind v (σ.history i) (kind.held E v (σ.history i))) ∧
      ((σ.nodes i).crashed = none → (σ.nodes i).rep.Holds E kind (σ.history i)) := by
  refine h.history_induction (I := fun _ past x =>
    (∀ v, Hotstuff.Consistent L E kind v past (kind.held E v past)) ∧
      (x.crashed = none → x.rep.Holds E kind past)) ?_ ?_ ?_ i
  · refine fun i => ⟨fun v => Hotstuff.Consistent.nil L E kind v [], fun _ v => Or.inl ?_⟩
    cases kind <;> rfl
  · exact fun i past x ev hx _ _ => hx
  · intro σ i fr stack hrun _ hchecked hx hstack
    obtain ⟨hcons, hholds⟩ := hx
    have hholds := hholds (hrun.crashed_eq_none hstack)
    refine ⟨consistent_next hcons hholds fun e => hchecked kind e, fun hcrashed => ?_⟩
    rw [Node.crashed_after] at hcrashed
    rw [Node.rep_after]
    exact holds_exec hholds hcons (fun e => hchecked kind e) hcrashed

/-- If the echoes whose chunks are collected pass the missing checks, then whenever a handler calls
`Erasure::decode`, at least `nreconthres` chunks are present. They are at places of replicas, and
each was received in an echo of the same view and of one root, whose path authenticates it there. -/
theorem decoded_chunks (L : Leaves T) (E : Env T) (F : Faults T) (σ : System T)
    (h : Run E F (CollectsChecked L E) σ) (kind : EchoKind) (later earlier : List (Executed T))
    (x : Executed T) (e : Echo T) (htrace : σ.trace = later ++ x :: earlier)
    (hframe : x.frame = kind.frame e) (hdecodes : x.rep.decodes E kind e = true) :
    E.config.nreconthres ≤ ((x.rep.decodeInput E kind e).filter Option.isSome).length ∧
    ∃ root, ∀ j chunk, (x.rep.decodeInput E kind e)[j]? = some (some chunk) →
      j < E.nreplicas ∧ ∃ y ∈ x :: earlier, ∃ e' : Echo T, y.node = x.node ∧
        y.frame = kind.frame e' ∧ e'.view = e.view ∧ e'.merkleRoot = root ∧ e'.chunk = chunk ∧
        toReplicaID e'.idx = j ∧ L.Authenticates E e'.merkleProof root j chunk := by
  obtain ⟨σ', stack, hrun, htr, -, hrep, hstack, hchecked⟩ := h.exists_of_trace htrace
  obtain ⟨hcons, hholds⟩ := hrun.holds kind x.node
  have hholds := hholds (hrun.crashed_eq_none hstack)
  have hchecked := hchecked kind e hframe
  rw [hrep] at hholds hchecked
  have haccepts := (Replica.decodes_iff.mp hdecodes).1
  have hchunks := hholds.chunks_eq haccepts
  have hheld := consistent_heldWith (i := x.node) (hcons e.view) hchunks hchecked
  have hlen := length_heldWith hchunks hdecodes
  rw [Replica.decodeInput, collected_eq hchunks haccepts]
  generalize x.rep.heldWith E kind e (kind.held E e.view (σ'.history x.node)) = S at hheld hlen ⊢
  constructor
  · rw [← hlen]
    exact Replica.length_le_chunks hheld.nodup fun e he => (hheld.place e he).1
  · obtain ⟨e₀, he₀⟩ : ∃ e₀, e₀ ∈ S := by
      refine List.exists_mem_of_length_pos ?_
      rw [hlen]
      exact Nat.succ_pos _
    refine ⟨e₀.merkleRoot, fun j chunk hj => ?_⟩
    obtain ⟨hlt, hget⟩ := List.getElem?_eq_some_iff.mp hj
    rw [List.getElem_map, List.getElem_range] at hget
    rw [List.length_map, List.length_range] at hlt
    obtain ⟨e', he', hkey, rfl⟩ := Replica.chunkAt_eq_some hget
    obtain ⟨hview, y, hy, hyframe⟩ := hheld.received e' he'
    have hroot := hheld.root e' he' e₀ he₀
    have hauth := (hheld.place e' he').2
    rw [hroot, hkey] at hauth
    have hmem : y ∈ x :: earlier ∧ y.node = x.node := by
      rcases List.mem_cons.mp hy with rfl | hy
      · exact ⟨by rw [← hframe]; exact List.mem_cons_self, rfl⟩
      · obtain ⟨hy, hnode⟩ := mem_history.mp hy
        exact ⟨List.mem_cons_of_mem x (htr ▸ hy), hnode⟩
    exact ⟨hlt, y, hmem.1, e', hmem.2, hyframe, hview, hroot, rfl, hkey, hauth⟩

end System

/-! ## The libraries -/

/-- Payloads whose chunks and paths are those of `erasure.h` and `merklecpp.h`. -/
abbrev PayloadTypes.wire (T : PayloadTypes) : PayloadTypes :=
  { T with Chunk := Wire.Chunk, Path := List UInt8 }

/-- How the contents of dispersals are written and read. -/
structure ContentCodec (T : PayloadTypes) where
  writeProposal : ProposalContent T → List UInt8
  readProposal : List UInt8 → Except Error (ProposalContent T)
  writeCert : QuorumCert → List UInt8
  readCert : List UInt8 → Except Error QuorumCert

/-- `Erasure` and `merkle`. -/
def wireDispersal (J : Jerasure) (op : HashT → HashT → HashT) (codec : ContentCodec T.wire) :
    Dispersal T.wire where
  encodeProposal k m p := encoded J k m (codec.writeProposal p)
  encodeCert k m qc := encoded J k m (codec.writeCert qc)
  root := merkleRoot op
  path := merkleProof op
  verifyPath := verifyProof op
  decodeProposal k m chunk arr := codec.readProposal (reassembled J k m chunk arr)
  decodeCert k m chunk arr := codec.readCert (reassembled J k m chunk arr)

/-- The leaf and the index that a proof shows. -/
def wireLeaves (T : PayloadTypes) : Leaves T.wire where
  Hash := Option HashT
  leaf proof := match Wire.MerkleTree.PathT.deserialise proof with
    | .ok (path, _) => some path.leaf
    | .error _ => none
  leafIndex proof := match Wire.MerkleTree.PathT.deserialise proof with
    | .ok (path, _) => path.leafIndex
    | .error _ => 0
  ofChunk chunk := (HashT.ofBytes chunk.data).toOption

/-- The chunks that replicas make of a byte string. -/
def Env.chunksOf (J : Jerasure) (E : Env T.wire) (d : List UInt8) : List Wire.Chunk :=
  encoded J E.config.nreconthres (E.nreplicas - E.config.nreconthres) d

namespace System

instance : DecidableEq (wireLeaves T).Hash := inferInstanceAs (DecidableEq (Option HashT))

/-- The only proposal. -/
def onlyProposal : ProposalContent plainTypes.wire :=
  ⟨0, ⟨[0], [], some (QuorumCertSecp256k1.create 0 0), 0, (11 : ℕ)⟩, 1⟩

/-- The only certificate. -/
def onlyCert : QuorumCert := QuorumCertSecp256k1.create 0 0

/-- Their bytes. -/
def onlyCodec : ContentCodec plainTypes.wire where
  writeProposal _ := [1]
  readProposal d := if d = [1] then .ok onlyProposal else .error .undefined
  writeCert _ := [2]
  readCert d := if d = [2] then .ok onlyCert else .error .undefined

/-- Two hashes, added. -/
def addHashes (l r : HashT) : HashT :=
  ⟨Wire.Erasure.xorBlocks l.bytes r.bytes, by simp [Wire.Erasure.xorBlocks, l.size, r.size]⟩

/-- Four replicas. Two chunks of a dispersal are enough to decode. -/
def wireEnv : Env plainTypes.wire where
  nreplicas := 4
  hash c := c.extra
  emptyAggregate := (0 : ℕ)
  pvss := plainPvss 4
  dispersal := wireDispersal lineCode addHashes onlyCodec
  setup := [11, 12, 13, 14, 15, 16, 17, 18]
  blkSize := 1

/-- Replica `0` is Byzantine. -/
def wireByzantine : Faults plainTypes.wire := ⟨{0}, fun _ => []⟩

/-- The chunks of the proposal. -/
def pieces : List Wire.Chunk := wireEnv.chunksOf lineCode [1]

/-- The echo of chunk number `idx` by replica `0`. -/
def pieceEcho (idx : ℕ) : Echo plainTypes.wire :=
  ⟨0, idx, 1, MessageType.PROPOSAL, merkleRoot addHashes pieces, merkleProof addHashes pieces idx,
    createPartCert 0 (merkleRoot addHashes pieces) 1, pieces.getD idx ⟨0, []⟩⟩

/-- Replica `0` sends both coding blocks to replica `1`. -/
def sendsPieces : List (Scripted plainTypes.wire) :=
  [.inject 0 1 (.echo (pieceEcho 2)), .verify 1, .inject 0 1 (.echo (pieceEcho 3)), .verify 1]

/-- A call that leads to `Erasure::decode` in `on_receive_proposal_echo`. -/
def decodesProposal (E : Env T) (x : Executed T) (p : Echo T → Bool) : Bool :=
  match x.frame with
  | .onReceiveProposalEcho e => x.rep.decodes E .proposal e && p e
  | _ => false

theorem exists_of_decodesProposal {x : Executed T} {p : Echo T → Bool}
    (h : decodesProposal E x p = true) : ∃ e, x.frame = EchoKind.frame .proposal e ∧
      x.rep.decodes E .proposal e = true ∧ p e = true := by
  unfold decodesProposal at h
  split at h
  · rename_i e hframe
    exact ⟨e, hframe, Bool.and_eq_true_iff.mp h⟩
  · cases h

/-- Whether a call handles an echo of a proposal only if it passes the checks. -/
def collectsChecked (σ : System plainTypes.wire) (i : ℕ) : Frame plainTypes.wire → Bool
  | .onReceiveProposalEcho e =>
    decide (e.key < 4 ∧ (wireLeaves plainTypes).leafIndex e.merkleProof = e.key ∧
      (wireLeaves plainTypes).leaf e.merkleProof = (wireLeaves plainTypes).ofChunk e.chunk ∧
      ∀ e' ∈ EchoKind.held wireEnv .proposal e.view (σ.history i), e'.merkleRoot = e.merkleRoot)
  | .onReceiveCertEcho _ => false
  | _ => true

theorem collectsChecked_of_check {σ : System plainTypes.wire} {i : ℕ}
    {fr : Frame plainTypes.wire} (h : collectsChecked σ i fr = true) :
    CollectsChecked (wireLeaves plainTypes) wireEnv σ i fr := by
  rintro kind e rfl -
  cases kind with
  | proposal =>
    obtain ⟨hkey, hindex, hleaf, hroot⟩ := of_decide_eq_true h
    exact ⟨hkey, hindex, hleaf, hroot⟩
  | cert => cases h

/-- Replica `1` decodes after two echoes. -/
theorem decoded_chunks_two : ∃ σ : System plainTypes.wire, ∃ x ∈ σ.trace, ∃ e,
    x.frame = EchoKind.frame .proposal e ∧
    2 ≤ ((x.rep.decodeInput wireEnv .proposal e).filter Option.isSome).length ∧
    ∃ root, ∀ j chunk, (x.rep.decodeInput wireEnv .proposal e)[j]? = some (some chunk) →
      j < 4 ∧ ∃ y ∈ σ.trace, ∃ e' : Echo plainTypes.wire, y.node = x.node ∧
        y.frame = EchoKind.frame .proposal e' ∧ e'.view = e.view ∧ e'.merkleRoot = root ∧
        e'.chunk = chunk ∧ toReplicaID e'.idx = j ∧
        (wireLeaves plainTypes).Authenticates wireEnv e'.merkleProof root j chunk := by
  obtain ⟨σ, hrun, htest⟩ := exists_of_play wireEnv wireByzantine collectsChecked
    (fun _ _ _ => collectsChecked_of_check) sendsPieces
    (fun σ => σ.trace.any fun x => decodesProposal wireEnv x fun _ => true) (by decide +kernel)
  obtain ⟨x, hx, hcall⟩ := List.any_eq_true.mp htest
  obtain ⟨e, hframe, hdecodes, -⟩ := exists_of_decodesProposal hcall
  obtain ⟨later, earlier, htrace⟩ := List.append_of_mem hx
  obtain ⟨hlen, root, hchunks⟩ := decoded_chunks (wireLeaves plainTypes) wireEnv wireByzantine σ
    hrun .proposal later earlier x e htrace hframe hdecodes
  refine ⟨σ, x, hx, e, hframe, hlen, root, fun j chunk hj => ?_⟩
  obtain ⟨hlt, y, hy, hrest⟩ := hchunks j chunk hj
  rw [htrace]
  exact ⟨hlt, y, List.mem_append_right later hy, hrest⟩

/-- Replica `0` echoes its chunk number `idx`. -/
def echoOf (idx : ℕ) : Echo plainTypes :=
  ⟨0, idx, 1, MessageType.PROPOSAL, 5, (), createPartCert 0 5 1, QuorumCertSecp256k1.create 0 0⟩

/-- One echo for a replica that does not exist makes replica `1` call `Erasure::decode` without any
chunk. -/
theorem decoded_nothing : ∃ σ : System plainTypes, Reachable voteEnv firstByzantine σ ∧
    Honest voteEnv firstByzantine 1 ∧ ∃ x ∈ σ.history 1, ∃ e,
      x.frame = EchoKind.frame .proposal e ∧ x.rep.decodes voteEnv .proposal e = true ∧
      ((x.rep.decodeInput voteEnv .proposal e).filter Option.isSome).length <
        voteEnv.config.nreconthres := by
  obtain ⟨σ, hrun, htest⟩ := exists_reachable_of_play voteEnv firstByzantine
    [.inject 0 1 (.echo (echoOf 7)), .verify 1]
    (fun σ => (σ.history 1).any fun x => decodesProposal voteEnv x fun e =>
      decide (((x.rep.decodeInput voteEnv .proposal e).filter Option.isSome).length <
        voteEnv.config.nreconthres)) (by decide +kernel)
  obtain ⟨x, hx, hcall⟩ := List.any_eq_true.mp htest
  obtain ⟨e, hframe, hdecodes, hfew⟩ := exists_of_decodesProposal hcall
  exact ⟨σ, hrun, by decide, x, hx, e, hframe, hdecodes, of_decide_eq_true hfew⟩

end System

end OptRand.Hotstuff
