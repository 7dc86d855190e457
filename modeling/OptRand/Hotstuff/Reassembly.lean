import OptRand.Hotstuff.Dispersal
import OptRand.Wire.Dispersal

/-!
# Dispersal by erasure coding

With `Erasure` and `merkle` for the libraries, the bytes of a proposal or certificate are sent in
chunks. The handlers do not check whether the chunks belong together. If the echoes that they accept
for a view are those of one dispersal, what they decode is what was dispersed
(`System.decoded_content`), and any `nreconthres` of the echoes make them decode, in any order
(`Replica.decodes_of_echoes`).
-/

namespace OptRand.Hotstuff

open Wire (Jerasure)
open Wire.Dispersal
open Wire.Merkle (HashT)

variable {T : PayloadTypes}

/-! ## A quorum of echoes -/

/-- A replica has accepted an echo for view `v` with the key `k`. -/
def EchoKind.Accepted (E : Env T) (kind : EchoKind) (v k : ℕ) (past : List (Executed T)) : Prop :=
  ∃ x ∈ past, ∃ e, x.frame = kind.frame e ∧ e.view = v ∧ e.key = k ∧
    x.rep.accepts E kind e = true

/-- A replica has called `Erasure::decode` for view `v`. -/
def EchoKind.Decoded (E : Env T) (kind : EchoKind) (v : ℕ) (past : List (Executed T)) : Prop :=
  ∃ x ∈ past, ∃ e, x.frame = kind.frame e ∧ e.view = v ∧ x.rep.decodes E kind e = true

section

variable {E : Env T} {kind : EchoKind} {v k i : ℕ} {past : List (Executed T)} {s : Replica T}
  {e : Echo T} {x : Executed T} {fr : Frame T}

theorem EchoKind.Decoded.mono (h : kind.Decoded E v past) (x : Executed T) :
    kind.Decoded E v (x :: past) := by
  obtain ⟨y, hy, hrest⟩ := h
  exact ⟨y, List.mem_cons_of_mem x hy, hrest⟩

/-- What a handler does to the chunks. -/
theorem Replica.chunks_echo (s : Replica T) (E : Env T) (kind : EchoKind) (e : Echo T) :
    (s.accepts E kind e = false ∧ (s.exec E (kind.frame e)).rep.chunks kind = s.chunks kind) ∨
    (s.accepts E kind e = true ∧ s.decodes E kind e = false ∧
      (s.exec E (kind.frame e)).rep.chunks kind =
        Function.update (s.chunks kind) e.view (s.collected kind e)) ∨
    (s.decodes E kind e = true ∧ ∃ m, (s.exec E (kind.frame e)).rep.chunks kind =
      Function.update (s.chunks kind) e.view m) := by
  cases kind with
  | proposal =>
    change (_ ∧ (s.onReceiveProposalEcho E e).rep.propChunks = _) ∨
      (_ ∧ _ ∧ (s.onReceiveProposalEcho E e).rep.propChunks = _) ∨
      (_ ∧ ∃ m, (s.onReceiveProposalEcho E e).rep.propChunks = _)
    rcases onReceiveProposalEcho_eq (s := s) (E := E) e with
      ⟨haccepts, heq⟩ | ⟨haccepts, hdecodes, heq⟩ | ⟨hdecodes, heq⟩
    · exact Or.inl ⟨haccepts, by rw [heq]; rfl⟩
    · exact Or.inr (Or.inl ⟨haccepts, hdecodes, by rw [heq]; rfl⟩)
    · refine Or.inr (Or.inr ⟨hdecodes, ?_⟩)
      rw [heq]
      split
      · exact ⟨_, rfl⟩
      · rename_i content _
        exact ⟨_, propChunks_proposalDecoded content⟩
  | cert =>
    change (_ ∧ (s.onReceiveCertEcho E e).rep.qcChunks = _) ∨
      (_ ∧ _ ∧ (s.onReceiveCertEcho E e).rep.qcChunks = _) ∨
      (_ ∧ ∃ m, (s.onReceiveCertEcho E e).rep.qcChunks = _)
    rcases onReceiveCertEcho_eq (s := s) (E := E) e with
      ⟨haccepts, heq⟩ | ⟨haccepts, hdecodes, heq⟩ | ⟨hdecodes, heq⟩
    · exact Or.inl ⟨haccepts, by rw [heq]; rfl⟩
    · exact Or.inr (Or.inl ⟨haccepts, hdecodes, by rw [heq]; rfl⟩)
    · refine Or.inr (Or.inr ⟨hdecodes, ?_⟩)
      rw [heq]
      split
      · exact ⟨_, Function.update_idem ..⟩
      · exact ⟨_, Function.update_idem ..⟩

namespace Replica

theorem chunkAt_setChunk {m : List (ℕ × Option T.Chunk)} {j : ℕ} (chunk : T.Chunk)
    (h : k = j ∨ chunkAt m k ≠ none) : chunkAt (setChunk m j chunk) k ≠ none := by
  by_cases hkj : k = j
  · subst hkj
    simp [chunkAt, setChunk]
  · replace h := h.resolve_left hkj
    have hlookup : (m.filter fun e => e.1 ≠ j).lookup k = m.lookup k := by
      clear h
      induction m with
      | nil => rfl
      | cons p m ih =>
        rw [List.filter_cons]
        split
        · rw [List.lookup_cons, List.lookup_cons, ih]
        · rename_i hp
          have hne : (k == p.1) = false := by
            apply beq_false_of_ne
            rintro rfl
            exact hp (decide_eq_true hkj)
          rw [ih, List.lookup_cons, hne]
    have hne : (k == j) = false := beq_false_of_ne hkj
    unfold chunkAt setChunk at *
    rwa [List.lookup_cons, hne, hlookup]

/-- What is held stays, and the key of the echo is new. -/
theorem chunkAt_collected (h : k = e.key ∨ chunkAt (s.chunks kind e.view) k ≠ none) :
    chunkAt (s.collected kind e) k ≠ none := by
  unfold collected
  split
  · exact chunkAt_setChunk e.chunk h
  · rename_i hfresh
    rcases h with rfl | h
    · rwa [fresh, Option.isNone_iff_eq_none] at hfresh
    · exact h

theorem length_collected (hlt : (s.chunks kind e.view).length < E.config.nreconthres)
    (haccepts : s.accepts E kind e = true) (hdecodes : s.decodes E kind e = false) :
    (s.collected kind e).length < E.config.nreconthres := by
  unfold decodes at hdecodes
  rw [haccepts, Bool.true_and, decide_eq_false_iff_not] at hdecodes
  unfold collected
  split
  · rename_i hfresh
    rw [if_pos hfresh] at hdecodes
    have hle := List.length_filter_le (fun p => p.1 ≠ e.key) (s.chunks kind e.view)
    rw [setChunk, List.length_cons]
    omega
  · exact hlt

/-- Different keys with chunks are no more than the entries. -/
theorem length_le_of_chunkAt {m : List (ℕ × Option T.Chunk)} {keys : List ℕ} (hnodup : keys.Nodup)
    (h : ∀ k ∈ keys, chunkAt m k ≠ none) : keys.length ≤ m.length := by
  have hsub : keys ⊆ m.map Prod.fst := by
    intro k hk
    by_contra hnot
    refine h k hk ?_
    unfold chunkAt
    rw [List.lookup_eq_none_iff.mpr]
    · rfl
    · intro p hp
      rw [bne_iff_ne]
      rintro rfl
      exact hnot (List.mem_map_of_mem hp)
  have hle := (hnodup.subperm hsub).length_le
  rwa [List.length_map] at hle

/-- Until it decodes, a replica holds a chunk for each key that it has accepted, and too few. -/
def Gathers (E : Env T) (kind : EchoKind) (v : ℕ) (past : List (Executed T)) (s : Replica T) :
    Prop :=
  kind.Decoded E v past ∨ ((∀ k, kind.Accepted E v k past → chunkAt (s.chunks kind v) k ≠ none) ∧
    (s.chunks kind v).length < E.config.nreconthres)

/-- What neither accepts an echo of the view nor changes its chunks keeps this. -/
theorem Gathers.of_eq {t : Replica T} (h : s.Gathers E kind v past)
    (hchunks : t.chunks kind v = s.chunks kind v)
    (hother : ∀ e, x.frame = kind.frame e → e.view = v → x.rep.accepts E kind e = false) :
    t.Gathers E kind v (x :: past) := by
  refine h.imp (fun hdecoded => hdecoded.mono x) fun ⟨hkeys, hlt⟩ => ?_
  rw [hchunks]
  refine ⟨fun k hk => hkeys k ?_, hlt⟩
  obtain ⟨y, hy, e, hframe, hview, hkey, haccepts⟩ := hk
  rcases List.mem_cons.mp hy with rfl | hy
  · rw [hother e hframe hview] at haccepts
    cases haccepts
  · exact ⟨y, hy, e, hframe, hview, hkey, haccepts⟩

theorem frame_injective {e' : Echo T} (h : kind.frame e = kind.frame e') : e = e' := by
  cases kind <;> cases h <;> rfl

/-- An echo of the kind. -/
theorem Gathers.echo (h : s.Gathers E kind v past) (e : Echo T) :
    (s.exec E (kind.frame e)).rep.Gathers E kind v (⟨i, s, kind.frame e⟩ :: past) := by
  by_cases hview : e.view = v
  · subst hview
    rcases s.chunks_echo E kind e with ⟨haccepts, heq⟩ | ⟨haccepts, hdecodes, heq⟩ | ⟨hdecodes, -⟩
    · refine h.of_eq (congrFun heq e.view) fun e' hframe _ => ?_
      rwa [← frame_injective hframe]
    · refine h.imp (fun hdecoded => hdecoded.mono _) fun ⟨hkeys, hlt⟩ => ?_
      rw [heq, Function.update_self]
      refine ⟨fun k hk => chunkAt_collected ?_, length_collected hlt haccepts hdecodes⟩
      obtain ⟨y, hy, e', hframe, hview, rfl, haccepts'⟩ := hk
      rcases List.mem_cons.mp hy with rfl | hy
      · left
        rw [frame_injective hframe]
      · exact Or.inr (hkeys _ ⟨y, hy, e', hframe, hview, rfl, haccepts'⟩)
    · exact Or.inl ⟨_, List.mem_cons_self, e, rfl, rfl, hdecodes⟩
  · refine h.of_eq ?_ fun e' hframe hview' => absurd (frame_injective hframe ▸ hview') hview
    rcases s.chunks_echo E kind e with ⟨-, heq⟩ | ⟨-, -, heq⟩ | ⟨-, m, heq⟩
    · rw [heq]
    · rw [heq, Function.update_of_ne (Ne.symm hview)]
    · rw [heq, Function.update_of_ne (Ne.symm hview)]

/-- Any other call, but that chunks are only erased after a decoding. -/
theorem Gathers.exec (h : s.Gathers E kind v past)
    (herase : ∀ w, fr = .eraseQcChunks w → EchoKind.Decoded E .cert w past) :
    (s.exec E fr).rep.Gathers E kind v (⟨i, s, fr⟩ :: past) := by
  by_cases hecho : ∃ (kind' : EchoKind) (e : Echo T), fr = kind'.frame e
  · obtain ⟨kind', e, rfl⟩ := hecho
    cases kind with
    | proposal =>
      cases kind' with
      | proposal => exact h.echo e
      | cert =>
        obtain ⟨_, hrec⟩ := records_onReceiveCertEcho (s := s) (E := E) e
        refine h.of_eq (congrFun (congrArg Records.propChunks hrec) v) ?_
        intro e' hframe
        cases hframe
    | cert =>
      cases kind' with
      | proposal =>
        obtain ⟨_, hrec⟩ := records_onReceiveProposalEcho (s := s) (E := E) e
        refine h.of_eq (congrFun (congrArg Records.qcChunks hrec) v) ?_
        intro e' hframe
        cases hframe
      | cert => exact h.echo e
  · have hne : ∀ (kind' : EchoKind) (e : Echo T), fr ≠ kind'.frame e :=
      fun kind' e hframe => hecho ⟨kind', e, hframe⟩
    by_cases hw : ∃ w, fr = .eraseQcChunks w
    · obtain ⟨w, rfl⟩ := hw
      have hdecoded := herase w rfl
      cases kind with
      | proposal => exact h.of_eq rfl fun e hframe => absurd hframe (hne .proposal e)
      | cert =>
        by_cases hv : v = w
        · subst hv
          exact Or.inl (hdecoded.mono _)
        · refine h.of_eq ?_ fun e hframe => absurd hframe (hne .cert e)
          show Function.update s.qcChunks w [] v = s.qcChunks v
          rw [Function.update_of_ne hv]
    · have hsame := exec_chunks (s := s) (E := E) hne (fun w hframe => hw ⟨w, hframe⟩) kind
      exact h.of_eq (congrFun hsame v) fun e hframe => absurd hframe (hne kind e)

/-- Only a decoding makes the call that erases chunks. -/
theorem decodes_of_erase {w : ℕ} (h : .eraseQcChunks w ∈ (s.exec E fr).calls) :
    ∃ e, fr = .onReceiveCertEcho e ∧ e.view = w ∧ s.decodes E .cert e = true := by
  cases Frame.mayCall_of_mem h with
  | certErase =>
    rename_i e
    refine ⟨e, rfl, rfl, ?_⟩
    change _ ∈ (s.onReceiveCertEcho E e).calls at h
    rcases onReceiveCertEcho_eq (s := s) (E := E) e with ⟨-, heq⟩ | ⟨-, -, heq⟩ | ⟨hdecodes, -⟩
    · rw [heq] at h
      cases h
    · rw [heq] at h
      cases h
    · exact hdecodes

end Replica

/-- If a replica has accepted echoes for `nreconthres` different indices of a view, it has called
`Erasure::decode` for the view, whatever else it was sent and in whatever order. -/
theorem System.decoded_of_quorum (E : Env T) (F : Faults T) (σ : System T)
    (h : Reachable E F σ) (kind : EchoKind) (i v : ℕ) (keys : List ℕ) (hnodup : keys.Nodup)
    (hlen : E.config.nreconthres ≤ keys.length)
    (hkeys : ∀ k ∈ keys, kind.Accepted E v k (σ.history i)) :
    kind.Decoded E v (σ.history i) := by
  have hinv : (∀ w, .eraseQcChunks w ∈ (σ.nodes i).stack →
      EchoKind.Decoded E .cert w (σ.history i)) ∧
        (σ.nodes i).rep.Gathers E kind v (σ.history i) := by
    refine h.history_induction (I := fun _ past x =>
      (∀ w, .eraseQcChunks w ∈ x.stack → EchoKind.Decoded E .cert w past) ∧
        x.rep.Gathers E kind v past) ?_ ?_ ?_ i
    · intro i
      refine ⟨fun w hw => absurd hw List.not_mem_nil, Or.inr ⟨?_, ?_⟩⟩
      · rintro k ⟨x, hx, -⟩
        cases hx
      · cases kind <;> exact Nat.succ_pos _
    · rintro i past x ev ⟨-, hgathers⟩ - -
      refine ⟨fun w hw => ?_, hgathers⟩
      have hframe := List.mem_singleton.mp hw
      cases ev <;> cases hframe
    · rintro σ i fr stack - - - ⟨hstack, hgathers⟩ htop
      rw [htop] at hstack
      refine ⟨fun w hw => ?_, ?_⟩
      · rcases Node.mem_stack_after hw with hcall | hrest
        · obtain ⟨e, rfl, hview, hdecodes⟩ := Replica.decodes_of_erase hcall
          exact ⟨_, List.mem_cons_self, e, rfl, hview, hdecodes⟩
        · exact (hstack w (List.mem_cons_of_mem fr hrest)).mono _
      · rw [Node.rep_after]
        refine hgathers.exec fun w hframe => hstack w ?_
        rw [hframe]
        exact List.mem_cons_self
  rcases hinv.2 with hdecoded | ⟨hheld, hlt⟩
  · exact hdecoded
  · have hle := Replica.length_le_of_chunkAt hnodup fun k hk => hheld k (hkeys k hk)
    omega

namespace System

/-- Whether a call accepts the echo of chunk number `k` of a proposal for view `1`. -/
def acceptsPiece (k : ℕ) (x : Executed plainTypes.wire) : Bool :=
  match x.frame with
  | .onReceiveProposalEcho e => e.view == 1 && e.key == k && x.rep.accepts wireEnv .proposal e
  | _ => false

theorem accepted_of_check {past : List (Executed plainTypes.wire)} {k : ℕ}
    (h : past.any (acceptsPiece k) = true) : EchoKind.Accepted wireEnv .proposal 1 k past := by
  obtain ⟨x, hx, hcall⟩ := List.any_eq_true.mp h
  unfold acceptsPiece at hcall
  split at hcall
  · rename_i e hframe
    simp only [Bool.and_eq_true, beq_iff_eq] at hcall
    exact ⟨x, hx, e, hframe, hcall.1.1, hcall.1.2, hcall.2⟩
  · cases hcall

/-- Replica `1` decodes from the two coding blocks. -/
theorem decoded_of_quorum_two : ∃ σ : System plainTypes.wire, Reachable wireEnv wireByzantine σ ∧
    EchoKind.Accepted wireEnv .proposal 1 2 (σ.history 1) ∧
      EchoKind.Accepted wireEnv .proposal 1 3 (σ.history 1) ∧
      EchoKind.Decoded wireEnv .proposal 1 (σ.history 1) := by
  obtain ⟨σ, hrun, htest⟩ := exists_reachable_of_play wireEnv wireByzantine sendsPieces
    (fun σ => (σ.history 1).any (acceptsPiece 2) && (σ.history 1).any (acceptsPiece 3))
    (by decide +kernel)
  obtain ⟨hsecond, hthird⟩ := Bool.and_eq_true_iff.mp htest
  have hsecond := accepted_of_check hsecond
  have hthird := accepted_of_check hthird
  refine ⟨σ, hrun, hsecond, hthird, ?_⟩
  apply decoded_of_quorum wireEnv wireByzantine σ hrun .proposal 1 1 [2, 3]
  · decide
  · exact le_refl 2
  · intro k hk
    rcases List.mem_cons.mp hk with rfl | hk
    · exact hsecond
    · rwa [List.mem_singleton.mp hk]

end System

end

/-! ## Echoes of one dispersal -/

/-- An echo of one of the chunks. -/
structure Echo.Of (op : HashT → HashT → HashT) (chunks : List Wire.Chunk) (e : Echo T.wire) :
    Prop where
  chunk : chunks[e.key]? = some e.chunk
  root : e.merkleRoot = Wire.Dispersal.merkleRoot op chunks
  proof : e.merkleProof = Wire.Dispersal.merkleProof op chunks e.key

section

variable {J : Jerasure} {op : HashT → HashT → HashT} {codec : ContentCodec T.wire} {E : Env T.wire}
  {d : List UInt8} {e : Echo T.wire} {kind : EchoKind} {v : ℕ} {S : List (Echo T.wire)}
  {past : List (Executed T.wire)}

/-- The byte string `d` can be dispersed. -/
def Env.Disperses (J : Jerasure) (E : Env T.wire) (d : List UInt8) : Prop :=
  Wire.Erasure.Codable J E.config.nreconthres (E.nreplicas - E.config.nreconthres) d

theorem Env.Disperses.length_chunksOf (h : E.Disperses J d) (hn : 0 < E.nreplicas) :
    (E.chunksOf J d).length = E.nreplicas := by
  have hthres : E.config.nreconthres = E.nreplicas / 4 + 1 := rfl
  unfold Env.chunksOf
  rw [Wire.Erasure.Codable.length_encoded h]
  omega

theorem Echo.Of.lt (h : e.Of op (E.chunksOf J d)) : e.key < (E.chunksOf J d).length :=
  (List.getElem?_eq_some_iff.mp h.chunk).1

/-- An echo of the dispersal passes the missing checks beside those of the same dispersal. -/
theorem Echo.Of.checked (h : e.Of op (E.chunksOf J d)) (hd : E.Disperses J d)
    (hn : 0 < E.nreplicas) (hS : ∀ e' ∈ S, e'.Of op (E.chunksOf J d)) :
    e.Checked (wireLeaves T) E S := by
  obtain ⟨hlt, hchunk⟩ := List.getElem?_eq_some_iff.mp h.chunk
  obtain ⟨-, path, hread, hindex, hleaf⟩ := hd.proof_of_encoded op hlt
  rw [← Env.chunksOf, ← h.proof] at hread
  constructor
  · rwa [hd.length_chunksOf hn] at hlt
  · simp only [wireLeaves, hread, hindex]
  · have hsome : (HashT.ofBytes e.chunk.data).toOption = some path.leaf := by
      rw [← hchunk]
      exact congrArg Except.toOption hleaf
    simp only [wireLeaves, hread, hsome]
  · intro e' he'
    rw [(hS e' he').root, h.root]

end

/-! ## Runs -/

namespace System

variable {J : Jerasure} {op : HashT → HashT → HashT} {codec : ContentCodec T.wire} {E : Env T.wire}
  {F : Faults T.wire} {σ : System T.wire} {bytes : EchoKind → ℕ → List UInt8}

/-- If what replica `i` runs next accepts an echo, it is one of the dispersal for its view. -/
def OneDispersal (J : Jerasure) (op : HashT → HashT → HashT) (E : Env T.wire)
    (bytes : EchoKind → ℕ → List UInt8) (σ : System T.wire) (i : ℕ) (fr : Frame T.wire) : Prop :=
  ∀ (kind : EchoKind) e, fr = kind.frame e → (σ.nodes i).rep.accepts E kind e = true →
    e.Of op (E.chunksOf J (bytes kind e.view))

/-- The echoes whose chunks are held for a view are those of its dispersal. -/
theorem Run.of_held (h : Run E F (OneDispersal J op E bytes) σ) (kind : EchoKind) (i v : ℕ) :
    ∀ e ∈ kind.held E v (σ.history i), e.Of op (E.chunksOf J (bytes kind v)) := by
  refine h.history_induction (I := fun _ past _ =>
    ∀ e ∈ kind.held E v past, e.Of op (E.chunksOf J (bytes kind v))) ?_ ?_ ?_ i
  · intro i e he
    cases he
  · exact fun i past x ev hpast _ _ => hpast
  · intro σ i fr stack hrun _ hone hpast _
    show ∀ e ∈ kind.next E v ⟨i, (σ.nodes i).rep, fr⟩ (kind.held E v (σ.history i)), _
    have hcases : kind.next E v ⟨i, (σ.nodes i).rep, fr⟩ (kind.held E v (σ.history i)) = _ ∨ _ :=
      EchoKind.next_cases _ _
    rcases hcases with hsame | hnil | ⟨e, hframe, hview, hcollects, hcons⟩
    · rw [hsame]
      exact hpast
    · rw [hnil]
      intro e he
      cases he
    · rw [hcons]
      subst hview
      have haccepts := (Bool.and_eq_true_iff.mp hcollects).1
      exact List.forall_mem_cons.mpr ⟨hone kind e hframe haccepts, hpast⟩

/-- What holds of the calls in every run may be asked of them. -/
theorem Run.imp {ok ok' : System T.wire → ℕ → Frame T.wire → Prop}
    (hok : ∀ σ i fr, Run E F ok σ → ok σ i fr → ok' σ i fr) (h : Run E F ok σ) :
    Run E F ok' σ := by
  induction h with
  | init => exact .init
  | event _ i ev honest idle possible ih => exact ih.event i ev honest idle possible
  | frame hrun i fr stack honest top meets ih =>
    exact ih.frame i fr stack honest top (hok _ i fr hrun meets)

theorem Run.collectsChecked (hn : 0 < E.nreplicas) (hbytes : ∀ kind v, E.Disperses J (bytes kind v))
    (h : Run E F (OneDispersal J op E bytes) σ) : Run E F (CollectsChecked (wireLeaves T) E) σ := by
  refine h.imp fun σ i fr hrun hone kind e hframe hcollects => ?_
  have haccepts := (Bool.and_eq_true_iff.mp hcollects).1
  exact (hone kind e hframe haccepts).checked (hbytes kind e.view) hn
    (hrun.of_held kind i e.view)

/-- The bytes of what is dispersed for each view. -/
def sentBytes (codec : ContentCodec T.wire) (P : ℕ → ProposalContent T.wire)
    (Q : ℕ → QuorumCert) : EchoKind → ℕ → List UInt8
  | .proposal, v => codec.writeProposal (P v)
  | .cert, v => codec.writeCert (Q v)

/-- What a handler passes to `Erasure::decode` are chunks of the dispersal, and they are put
together to its bytes. -/
theorem Run.reassembled (hn : 0 < E.nreplicas) (hn' : E.nreplicas ≤ 256)
    (hbytes : ∀ kind v, E.Disperses J (bytes kind v)) (h : Run E F (OneDispersal J op E bytes) σ)
    {kind : EchoKind} {x : Executed T.wire} (hx : x ∈ σ.trace) {e : Echo T.wire}
    (hframe : x.frame = kind.frame e) (hdecodes : x.rep.decodes E kind e = true) :
    Wire.Dispersal.reassembled J E.config.nreconthres (E.nreplicas - E.config.nreconthres) e.chunk
      (x.rep.decodeInput E kind e) = bytes kind e.view := by
  obtain ⟨σ', stack, hrun, -, -, hrep, hstack, hone⟩ := h.exists_of_mem_trace hx
  have hheldOf := hrun.of_held kind x.node e.view
  have haccepts := (Replica.decodes_iff.mp hdecodes).1
  have heOf : e.Of op (E.chunksOf J (bytes kind e.view)) := by
    apply hone kind e hframe
    rwa [hrep]
  obtain ⟨hcons, hholds⟩ := (hrun.collectsChecked hn hbytes).holds kind x.node
  have hholds := hholds (hrun.crashed_eq_none hstack)
  rw [hrep] at hholds
  have hchunks := hholds.chunks_eq haccepts
  have hheld := consistent_heldWith (i := x.node) (hcons e.view) hchunks fun _ =>
    heOf.checked (hbytes kind e.view) hn hheldOf
  have hlen := length_heldWith hchunks hdecodes
  have hof : ∀ e' ∈ x.rep.heldWith E kind e (kind.held E e.view (σ'.history x.node)),
      e'.Of op (E.chunksOf J (bytes kind e.view)) := by
    unfold Replica.heldWith
    split
    · exact List.forall_mem_cons.mpr ⟨heOf, hheldOf⟩
    · exact hheldOf
  rw [Replica.decodeInput, collected_eq hchunks haccepts]
  generalize x.rep.heldWith E kind e (kind.held E e.view (σ'.history x.node)) = S at hheld hlen hof ⊢
  apply (hbytes kind e.view).reassembled_eq
  · exact List.mem_of_getElem? heOf.chunk
  · rw [List.length_map, List.length_range]
    have hthres : E.config.nreconthres = E.nreplicas / 4 + 1 := rfl
    omega
  · intro j chunk hj
    obtain ⟨hlt, hget⟩ := List.getElem?_eq_some_iff.mp hj
    rw [List.getElem_map, List.getElem_range] at hget
    obtain ⟨e', he', rfl, rfl⟩ := Replica.chunkAt_eq_some hget
    exact (hof e' he').chunk
  · rw [← hlen]
    exact Replica.length_le_chunks hheld.nodup fun e he => (hheld.place e he).1

/-! ## One proposal, played -/

/-- Whether a call handles an echo of a proposal only if it is one of its dispersal. -/
def echoesPieces (_ : System plainTypes.wire) (_ : ℕ) : Frame plainTypes.wire → Bool
  | .onReceiveProposalEcho e =>
    decide (pieces[e.key]?.map (fun c => (c.size, c.data)) = some (e.chunk.size, e.chunk.data) ∧
      e.merkleRoot = merkleRoot addHashes pieces ∧
      e.merkleProof = merkleProof addHashes pieces e.key)
  | .onReceiveCertEcho _ => false
  | _ => true

theorem oneDispersal_of_check {σ : System plainTypes.wire} {i : ℕ} {fr : Frame plainTypes.wire}
    (h : echoesPieces σ i fr = true) : OneDispersal lineCode addHashes wireEnv
      (sentBytes onlyCodec (fun _ => onlyProposal) fun _ => onlyCert) σ i fr := by
  rintro kind e rfl -
  cases kind with
  | proposal =>
    obtain ⟨hchunk, hroot, hproof⟩ := of_decide_eq_true h
    refine ⟨?_, hroot, hproof⟩
    obtain ⟨c, hc, hsame⟩ := Option.map_eq_some_iff.mp hchunk
    cases c
    cases hsame
    exact hc
  | cert => cases h

theorem disperses_only (kind : EchoKind) (v : ℕ) : wireEnv.Disperses lineCode
    (sentBytes onlyCodec (fun _ => onlyProposal) (fun _ => onlyCert) kind v) := by
  have hshort : 1 + 64 * 2 < 2 ^ 31 := by decide
  cases kind
  all_goals exact ⟨lineCode_mds, by decide, by decide, List.cons_ne_nil _ _, hshort⟩

/-! ## What is decoded -/

/-- Whenever a handler decodes in a run in which the echoes that are accepted for a view are those
of one dispersal, it goes on with the proposal or the certificate that was dispersed. -/
theorem decoded_content (J : Jerasure) (op : HashT → HashT → HashT) (codec : ContentCodec T.wire)
    (E : Env T.wire) (F : Faults T.wire) (hE : E.dispersal = wireDispersal J op codec)
    (hn : 0 < E.nreplicas) (hn' : E.nreplicas ≤ 256) (P : ℕ → ProposalContent T.wire)
    (Q : ℕ → QuorumCert) (hbytes : ∀ kind v, E.Disperses J (sentBytes codec P Q kind v))
    (hP : ∀ v, codec.readProposal (codec.writeProposal (P v)) = .ok (P v))
    (hQ : ∀ v, codec.readCert (codec.writeCert (Q v)) = .ok (Q v)) (σ : System T.wire)
    (h : Run E F (OneDispersal J op E (sentBytes codec P Q)) σ) (x : Executed T.wire)
    (hx : x ∈ σ.trace) (e : Echo T.wire) :
    (x.frame = EchoKind.proposal.frame e → x.rep.decodes E .proposal e = true →
      x.outcome E = x.rep.proposalDecoded E e (P e.view)) ∧
    (x.frame = EchoKind.cert.frame e → x.rep.decodes E .cert e = true → x.outcome E =
      (x.rep.certDecoding E e).call [.onReceiveQc (Q e.view), .eraseQcChunks e.view]) := by
  constructor
  · intro hframe hdecodes
    have hbytes := h.reassembled hn hn' hbytes hx hframe hdecodes
    have hread : E.dispersal.decodeProposal E.config.nreconthres
        (E.nreplicas - E.config.nreconthres) e.chunk (x.rep.decodeInput E .proposal e) =
          .ok (P e.view) := by
      rw [hE]
      show codec.readProposal (Wire.Dispersal.reassembled ..) = _
      rw [hbytes]
      exact hP e.view
    unfold Executed.outcome
    rw [hframe]
    show x.rep.onReceiveProposalEcho E e = _
    rcases Replica.onReceiveProposalEcho_eq (s := x.rep) (E := E) e with
      ⟨hrejects, -⟩ | ⟨-, hwaits, -⟩ | ⟨-, heq⟩
    · rw [(Replica.decodes_iff.mp hdecodes).1] at hrejects
      cases hrejects
    · rw [hdecodes] at hwaits
      cases hwaits
    · rw [heq, hread]
  · intro hframe hdecodes
    have hbytes := h.reassembled hn hn' hbytes hx hframe hdecodes
    have hread : E.dispersal.decodeCert E.config.nreconthres
        (E.nreplicas - E.config.nreconthres) e.chunk (x.rep.decodeInput E .cert e) =
          .ok (Q e.view) := by
      rw [hE]
      show codec.readCert (Wire.Dispersal.reassembled ..) = _
      rw [hbytes]
      exact hQ e.view
    unfold Executed.outcome
    rw [hframe]
    show x.rep.onReceiveCertEcho E e = _
    rcases Replica.onReceiveCertEcho_eq (s := x.rep) (E := E) e with
      ⟨hrejects, -⟩ | ⟨-, hwaits, -⟩ | ⟨-, heq⟩
    · rw [(Replica.decodes_iff.mp hdecodes).1] at hrejects
      cases hrejects
    · rw [hdecodes] at hwaits
      cases hwaits
    · rw [heq, hread]

/-- Replica `1` decodes the proposal from the two coding blocks. -/
theorem decoded_content_two : ∃ σ : System plainTypes.wire, ∃ x ∈ σ.trace, ∃ e,
    x.frame = EchoKind.proposal.frame e ∧ x.rep.decodes wireEnv .proposal e = true ∧
      x.outcome wireEnv = x.rep.proposalDecoded wireEnv e onlyProposal := by
  obtain ⟨σ, hrun, htest⟩ := exists_of_play wireEnv wireByzantine echoesPieces
    (fun _ _ _ => oneDispersal_of_check) sendsPieces
    (fun σ => σ.trace.any fun x => decodesProposal wireEnv x fun _ => true) (by decide +kernel)
  obtain ⟨x, hx, hcall⟩ := List.any_eq_true.mp htest
  obtain ⟨e, hframe, hdecodes, -⟩ := exists_of_decodesProposal hcall
  refine ⟨σ, x, hx, e, hframe, hdecodes, ?_⟩
  exact (decoded_content lineCode addHashes onlyCodec wireEnv wireByzantine rfl
    (by decide) (by decide) (fun _ => onlyProposal) (fun _ => onlyCert) disperses_only
    (fun _ => rfl) (fun _ => rfl) σ hrun x hx e).1 hframe hdecodes

/-! ## Echoes that are sent -/

/-- What is sent was an output of a call. -/
theorem exists_of_sent {E : Env T} {F : Faults T} {ok : System T → ℕ → Frame T → Prop}
    {σ : System T} (h : Run E F ok σ) {p : ℕ × ℕ × Msg T} (hp : p ∈ σ.sent) :
    ∃ x ∈ σ.trace, ∃ out ∈ (x.outcome E).out, p ∈ messages E x.node out := by
  induction h with
  | init => cases hp
  | event _ i ev _ _ _ ih => exact ih hp
  | @frame σ _ i fr stack _ _ _ ih =>
    rcases List.mem_append.mp hp with hnew | hold
    · obtain ⟨out, hout, hmsg⟩ := List.mem_flatMap.mp (List.mem_reverse.mp hnew)
      exact ⟨_, List.mem_cons_self, out, hout, hmsg⟩
    · obtain ⟨x, hx, hrest⟩ := ih hold
      exact ⟨x, List.mem_cons_of_mem _ hx, hrest⟩

theorem mem_messages {E : Env T} {i peer j : ℕ} {msg : Msg T} {out : Output T}
    (h : (peer, j, msg) ∈ messages E i out) :
    peer = i ∧ (out = .send j msg ∨ out = .broadcast msg) := by
  cases out with
  | send dest m =>
    cases List.mem_singleton.mp h
    exact ⟨rfl, Or.inl rfl⟩
  | broadcast m =>
    obtain ⟨k, -, hk⟩ := List.mem_map.mp h
    cases hk
    exact ⟨rfl, Or.inr rfl⟩
  | _ => cases h

/-- The content of a message that is an echo. -/
def echoIn : Msg T → Option (Echo T)
  | .echo e | .echo2 e => some e
  | _ => none

/-- An output that sends an echo, and to which replica if it is not for all. -/
def outEcho : Output T → Option (Echo T × Option ℕ)
  | .send dest msg => (echoIn msg).map fun e => (e, some dest)
  | .broadcast msg => (echoIn msg).map fun e => (e, none)
  | _ => none

/-- The echo of a chunk goes to the replica with its index, or to all from the one that has it. -/
theorem mem_echoes {E : Env T} {s : Replica T} {view mtype : ℕ} {chunks : List T.Chunk}
    {wrap : Echo T → Msg T} (hwrap : ∀ e, echoIn (wrap e) = some e) {o : Output T} {e : Echo T}
    {dest : Option ℕ} (ho : o ∈ s.echoes E view mtype chunks wrap)
    (hecho : outEcho o = some (e, dest)) :
    e.idx < E.nreplicas ∧ chunks[e.idx]? = some e.chunk ∧
      e.merkleRoot = E.dispersal.root chunks ∧ e.merkleProof = E.dispersal.path chunks e.idx ∧
      (dest = some e.idx ∨ e.idx = s.id) := by
  unfold Replica.echoes at ho
  obtain ⟨⟨chunk, i⟩, hmem, ho⟩ := List.mem_flatMap.mp ho
  have hget := List.mk_mem_zipIdx_iff_getElem?.mp hmem
  obtain ⟨hlt, hchunk⟩ := List.getElem?_eq_some_iff.mp hget
  rw [List.length_take] at hlt
  rw [List.getElem?_take_of_lt (by omega)] at hget
  rcases List.mem_cons.mp ho with rfl | ho
  · cases hecho
  · rw [List.mem_singleton] at ho
    subst ho
    split at hecho
    · simp only [outEcho, hwrap, Option.map_some, Option.some.injEq, Prod.mk.injEq] at hecho
      obtain ⟨rfl, rfl⟩ := hecho
      exact ⟨by simp only; omega, hget, rfl, rfl, Or.inl rfl⟩
    · rename_i hown
      simp only [outEcho, hwrap, Option.map_some, Option.some.injEq, Prod.mk.injEq] at hecho
      obtain ⟨rfl, rfl⟩ := hecho
      exact ⟨by simp only; omega, hget, rfl, rfl, Or.inr (not_not.mp hown)⟩

/-- What replica `i` runs next disperses only what can be dispersed. -/
def FitsWire (J : Jerasure) (codec : ContentCodec T.wire) (E : Env T.wire) (σ : System T.wire)
    (i : ℕ) : Frame T.wire → Prop
  | .proposalDeliver prop => ∀ blk, (σ.nodes i).rep.blkCache prop.blk = some blk →
    E.Disperses J (codec.writeProposal ⟨prop.proposer, blk.content, prop.view⟩)
  | .onReceiveQc qc => E.Disperses J (codec.writeCert qc)
  | _ => True

/-- An echo of replica `id` for `dest`, or for all, is one of the dispersal of `d`. -/
structure Disperse (J : Jerasure) (op : HashT → HashT → HashT) (E : Env T.wire) (id : ℕ)
    (dest : Option ℕ) (e : Echo T.wire) (d : List UInt8) : Prop where
  fits : E.Disperses J d
  lt : e.idx < E.nreplicas
  chunk : (E.chunksOf J d)[e.idx]? = some e.chunk
  root : e.merkleRoot = merkleRoot op (E.chunksOf J d)
  proof : e.merkleProof = merkleProof op (E.chunksOf J d) e.idx
  dest : dest = some e.idx ∨ e.idx = id

section

variable {s : Replica T.wire} {out : Output T.wire} {e : Echo T.wire} {dest : Option ℕ}

theorem echo_proposalDeliver (hE : E.dispersal = wireDispersal J op codec) {prop : Proposal}
    (hfits : ∀ blk, s.blkCache prop.blk = some blk →
      E.Disperses J (codec.writeProposal ⟨prop.proposer, blk.content, prop.view⟩))
    (hout : out ∈ (s.proposalDeliver E prop).out) (hecho : outEcho out = some (e, dest)) :
    ∃ d, Disperse J op E s.id dest e d := by
  unfold Replica.proposalDeliver at hout
  split at hout
  · split at hout
    · cases hout
    · rename_i blk hblk
      rw [hE] at hout
      obtain ⟨hlt, hchunk, hroot, hproof, hdest⟩ := mem_echoes (fun e => rfl) hout hecho
      rw [hE] at hroot hproof
      exact ⟨_, hfits blk hblk, hlt, hchunk, hroot, hproof, hdest⟩
  · cases hout

theorem echo_onReceiveQc (hE : E.dispersal = wireDispersal J op codec) {qc : QuorumCert}
    (hfits : E.Disperses J (codec.writeCert qc)) (hout : out ∈ (s.onReceiveQc E qc).out)
    (hecho : outEcho out = some (e, dest)) : ∃ d, Disperse J op E s.id dest e d := by
  unfold Replica.onReceiveQc at hout
  dsimp only at hout
  split at hout
  · cases hout
  · split at hout
    · cases hout
    · rename_i blk _
      unfold Attempt.andThen at hout
      split at hout
      · rename_i s' heq
        have hid := congrArg (fun r : Attempt T.wire => r.rep.id) heq
        obtain ⟨_, _, hwrites⟩ := Replica.updateHqc_writes (s := Replica.setBlk
          { s with lastViewCertReceived := qc.view } qc.objHash
          { blk with selfQc := some qc }) qc.objHash qc
        rw [hwrites] at hid
        change out ∈ Replica.deliverCert E _ qc at hout
        unfold Replica.deliverCert at hout
        rw [hE] at hout
        obtain ⟨hlt, hchunk, hroot, hproof, hdest⟩ := mem_echoes (fun e => rfl) hout hecho
        rw [hE] at hroot hproof
        rw [show s.id = s'.id from hid]
        exact ⟨_, hfits, hlt, hchunk, hroot, hproof, hdest⟩
      · cases hout

/-- An echo that a call sends is one of what it disperses. -/
theorem FitsWire.echo {i : ℕ} {fr : Frame T.wire} (hE : E.dispersal = wireDispersal J op codec)
    (hfits : FitsWire J codec E σ i fr) (hout : out ∈ ((σ.nodes i).rep.exec E fr).out)
    (hecho : outEcho out = some (e, dest)) :
    ∃ d, Disperse J op E (σ.nodes i).rep.id dest e d := by
  cases Frame.mayEmit_of_mem hout with
  | echoSend => exact echo_proposalDeliver hE hfits hout hecho
  | echoBroadcast => exact echo_proposalDeliver hE hfits hout hecho
  | certSend => exact echo_onReceiveQc hE hfits hout hecho
  | certBroadcast => exact echo_onReceiveQc hE hfits hout hecho
  | _ => cases hecho

end

theorem Disperse.authenticates (hE : E.dispersal = wireDispersal J op codec)
    (hn : 0 < E.nreplicas) {id : ℕ} {dest : Option ℕ} {e : Echo T.wire} {d : List UInt8}
    (h : Disperse J op E id dest e d) :
    (wireLeaves T).Authenticates E e.merkleProof e.merkleRoot e.idx e.chunk := by
  have hcount : E.config.nreconthres + (E.nreplicas - E.config.nreconthres) ≤ 256 := h.fits.count
  have hlt := h.lt
  have hkey : e.key = e.idx := toReplicaID_of_lt (by omega)
  have hof : e.Of op (E.chunksOf J d) := by
    refine ⟨?_, h.root, ?_⟩
    · rw [hkey]
      exact h.chunk
    · rw [hkey]
      exact h.proof
  have hchecked := hof.checked h.fits hn (S := []) fun e' he' => absurd he' List.not_mem_nil
  refine ⟨?_, hchecked.leafIndex.trans hkey, hchecked.leaf⟩
  rw [hE, h.root, h.proof]
  have hlength := (List.getElem?_eq_some_iff.mp h.chunk).1
  exact (h.fits.proof_of_encoded op hlength).1

/-- Every echo that an honest replica has sent passes the check of its handler, and those that the
handlers lack: it shows that its chunk is leaf number `idx` of the root. -/
theorem sent_echo_authenticates (J : Jerasure) (op : HashT → HashT → HashT)
    (codec : ContentCodec T.wire) (E : Env T.wire) (F : Faults T.wire)
    (hE : E.dispersal = wireDispersal J op codec) (hn : 0 < E.nreplicas)
    (σ : System T.wire) (h : Run E F (FitsWire J codec E) σ)
    (peer j : ℕ) (msg : Msg T.wire) (e : Echo T.wire) (hsent : (peer, j, msg) ∈ σ.sent)
    (hecho : echoIn msg = some e) :
    e.idx < E.nreplicas ∧ (e.idx = j ∨ e.idx = peer) ∧
      (wireLeaves T).Authenticates E e.merkleProof e.merkleRoot e.idx e.chunk := by
  obtain ⟨x, hx, out, hout, hmsg⟩ := exists_of_sent h hsent
  obtain ⟨σ', stack, hrun, -, -, hrep, -, hfits⟩ := h.exists_of_mem_trace hx
  obtain ⟨rfl, hout'⟩ := mem_messages hmsg
  unfold Executed.outcome at hout
  rw [← hrep] at hout
  rcases hout' with rfl | rfl
  · have hsend : outEcho (.send j msg) = some (e, some j) := by
      rw [outEcho, hecho, Option.map_some]
    obtain ⟨d, hd⟩ := hfits.echo hE hout hsend
    refine ⟨hd.lt, ?_, hd.authenticates hE hn⟩
    rw [← hrun.rep_id x.node]
    exact hd.dest.imp_left fun hj => (Option.some.inj hj).symm
  · have hsend : outEcho (.broadcast msg) = some (e, none) := by
      rw [outEcho, hecho, Option.map_some]
    obtain ⟨d, hd⟩ := hfits.echo hE hout hsend
    refine ⟨hd.lt, Or.inr ?_, hd.authenticates hE hn⟩
    rw [← hrun.rep_id x.node]
    exact hd.dest.resolve_left fun hnone => absurd hnone (Option.some_ne_none _).symm

theorem fitsWire_only (σ : System plainTypes.wire) (i : ℕ) (fr : Frame plainTypes.wire) :
    FitsWire lineCode onlyCodec wireEnv σ i fr := by
  cases fr with
  | proposalDeliver prop => exact fun _ _ => disperses_only .proposal 0
  | onReceiveQc qc => exact disperses_only .cert 0
  | _ => trivial

/-- Replica `1` takes the proposal and sends an echo of it to replica `2`. -/
theorem sent_echo_authenticates_first : ∃ (σ : System plainTypes.wire) (msg : Msg plainTypes.wire)
    (e : Echo plainTypes.wire), (1, 2, msg) ∈ σ.sent ∧ echoIn msg = some e ∧
      e.idx < 4 ∧ (e.idx = 2 ∨ e.idx = 1) ∧
      (wireLeaves plainTypes).Authenticates wireEnv e.merkleProof e.merkleRoot e.idx e.chunk := by
  obtain ⟨σ, hrun, htest⟩ := exists_of_play wireEnv wireByzantine (fun _ _ _ => true)
    (fun σ i fr _ => fitsWire_only σ i fr) [.inject 0 1 (.propose onlyProposal), .verify 1]
    (fun σ => σ.sent.any fun p => p.1 == 1 && p.2.1 == 2 && (echoIn p.2.2).isSome)
    (by decide +kernel)
  obtain ⟨⟨peer, j, msg⟩, hsent, hcall⟩ := List.any_eq_true.mp htest
  simp only [Bool.and_eq_true, beq_iff_eq] at hcall
  obtain ⟨⟨rfl, rfl⟩, hsome⟩ := hcall
  obtain ⟨e, hecho⟩ := Option.isSome_iff_exists.mp hsome
  exact ⟨σ, msg, e, hsent, hecho, sent_echo_authenticates lineCode addHashes onlyCodec
    wireEnv wireByzantine rfl (by decide) σ hrun 1 2 msg e hsent hecho⟩

end System

end OptRand.Hotstuff
