import OptRand.Hotstuff.Runs
import Mathlib.Logic.Equiv.List

/-!
# Runs on given inputs

A script says what happens in a system, one event after the other. Playing it computes the
state it ends in, or `none` when an event cannot occur or a call fails a check. What it computes
is the state of a run (`System.Run.play`).
-/

namespace OptRand.Hotstuff

variable {T : PayloadTypes}

/-- One event of a script: a message that an honest replica sent is delivered, counted from
the first one sent; a Byzantine replica sends a message; all verifications of a replica end;
another event occurs at a replica. -/
inductive Scripted (T : PayloadTypes)
  | deliver (k : ℕ)
  | inject (peer i : ℕ) (msg : Msg T)
  | verify (i : ℕ)
  | timer (i : ℕ)
  | command (i cmdHash : ℕ)

namespace System

variable (E : Env T) (F : Faults T)

instance (i : ℕ) : Decidable (Honest E F i) := inferInstanceAs (Decidable (_ ∧ _))

instance (σ : System T) (sig : Signature) : Decidable (Known E F σ sig) :=
  inferInstanceAs (Decidable (_ ∨ _))

/-- Let replica `i` run its stack, for at most `k` calls, as long as they pass `check`. -/
def settle (check : System T → ℕ → Frame T → Bool) (i : ℕ) :
    ℕ → System T → Option (System T)
  | 0, _ => none
  | k + 1, σ =>
    match (σ.nodes i).stack with
    | [] => some σ
    | fr :: stack =>
      if check σ i fr then settle check i k (σ.runFrame E i fr stack) else none

/-- Let an event occur at replica `i`, and the calls it leads to. -/
def react (check : System T → ℕ → Frame T → Bool) (i : ℕ) (ev : Event T) (σ : System T) :
    Option (System T) :=
  if Honest E F i ∧ (σ.nodes i).stack.isEmpty ∧ (σ.nodes i).crashed.isNone then
    settle E check i 200 (σ.take i ev)
  else none

/-- End the verifications of the given ids at replica `i`. -/
def verifyAll (check : System T → ℕ → Frame T → Bool) (i : ℕ) :
    List ℕ → System T → Option (System T)
  | [], σ => some σ
  | id :: ids, σ =>
    if (σ.nodes i).rep.pendings.any fun p => p.id == id && decide (.veri ∈ p.conds) then
      (react E F check i (.verified id) σ).bind (verifyAll check i ids)
    else verifyAll check i ids σ

/-- The state after one event of a script. -/
def playOne (check : System T → ℕ → Frame T → Bool) (σ : System T) :
    Scripted T → Option (System T)
  | .deliver k =>
    match σ.sent.reverse[k]? with
    | some (peer, i, msg) =>
      if Honest E F peer then react E F check i (.message peer msg) σ else none
    | none => none
  | .inject peer i msg =>
    if peer ∈ F.byzantine ∧ ∀ sig ∈ msg.signatures F.readable, Known E F σ sig then
      react E F check i (.message peer msg) σ
    else none
  | .verify i => verifyAll E F check i ((σ.nodes i).rep.pendings.map Pending.id) σ
  | .timer i =>
    if (σ.nodes i).rep.proposeTimer then react E F check i .proposeTimer σ else none
  | .command i cmdHash => react E F check i (.command cmdHash) σ

/-- The state after a script. -/
def play (check : System T → ℕ → Frame T → Bool) : List (Scripted T) → System T →
    Option (System T)
  | [], σ => some σ
  | a :: script, σ => (playOne E F check σ a).bind (play check script)

variable {E F} {check : System T → ℕ → Frame T → Bool} {ok : System T → ℕ → Frame T → Prop}
  {σ σ' : System T}

theorem Run.settle (hok : ∀ σ i fr, check σ i fr = true → ok σ i fr) {i : ℕ}
    (hi : Honest E F i) {k : ℕ} (h : Run E F ok σ)
    (hs : System.settle E check i k σ = some σ') : Run E F ok σ' := by
  induction k generalizing σ with
  | zero => cases hs
  | succ k ih =>
    unfold System.settle at hs
    split at hs
    · cases hs
      exact h
    · rename_i fr stack htop
      split at hs
      · rename_i hcheck
        exact ih (h.frame i fr stack hi htop (hok _ _ _ hcheck)) hs
      · cases hs

theorem Run.react (hok : ∀ σ i fr, check σ i fr = true → ok σ i fr) {i : ℕ} {ev : Event T}
    (h : Run E F ok σ) (hev : Possible E F σ i ev)
    (hs : System.react E F check i ev σ = some σ') : Run E F ok σ' := by
  unfold System.react at hs
  split at hs
  · rename_i hcond
    obtain ⟨hi, hstack, hcrashed⟩ := hcond
    have hidle : (σ.nodes i).Idle :=
      ⟨List.isEmpty_iff.mp hstack, Option.isNone_iff_eq_none.mp hcrashed⟩
    exact (h.event i ev hi hidle hev).settle hok hi hs
  · cases hs

theorem Run.verifyAll (hok : ∀ σ i fr, check σ i fr = true → ok σ i fr) {i : ℕ}
    {ids : List ℕ} (h : Run E F ok σ)
    (hs : System.verifyAll E F check i ids σ = some σ') : Run E F ok σ' := by
  induction ids generalizing σ with
  | nil =>
    cases hs
    exact h
  | cons id ids ih =>
    unfold System.verifyAll at hs
    split at hs
    · rename_i hany
      obtain ⟨σ₁, hσ₁, hrest⟩ := Option.bind_eq_some_iff.mp hs
      refine ih (h.react hok ⟨?_, trivial⟩ hσ₁) hrest
      obtain ⟨p, hp, hcond⟩ := List.any_eq_true.mp hany
      rw [Bool.and_eq_true, beq_iff_eq, decide_eq_true_eq] at hcond
      exact ⟨p, hp, hcond⟩
    · exact ih h hs

theorem Run.playOne (hok : ∀ σ i fr, check σ i fr = true → ok σ i fr) {a : Scripted T}
    (h : Run E F ok σ) (hs : System.playOne E F check σ a = some σ') : Run E F ok σ' := by
  unfold System.playOne at hs
  split at hs
  · split at hs
    · rename_i peer i msg hmsg
      split at hs
      · rename_i hpeer
        have hsent : (peer, i, msg) ∈ σ.sent :=
          List.mem_reverse.mp (List.mem_of_getElem? hmsg)
        refine h.react hok ?_ hs
        exact ⟨trivial, Or.inl ⟨hpeer, hsent⟩⟩
      · cases hs
    · cases hs
  · split at hs
    · rename_i hbyz
      refine h.react hok ?_ hs
      exact ⟨trivial, Or.inr hbyz⟩
    · cases hs
  · exact h.verifyAll hok hs
  · split at hs
    · rename_i htimer
      refine h.react hok ?_ hs
      exact ⟨htimer, trivial⟩
    · cases hs
  · refine h.react hok ?_ hs
    exact ⟨trivial, trivial⟩

/-- Playing a script makes a run. -/
theorem Run.play (hok : ∀ σ i fr, check σ i fr = true → ok σ i fr) {script : List (Scripted T)}
    (h : Run E F ok σ) (hs : System.play E F check script σ = some σ') : Run E F ok σ' := by
  induction script generalizing σ with
  | nil =>
    cases hs
    exact h
  | cons a script ih =>
    obtain ⟨σ₁, hσ₁, hrest⟩ := Option.bind_eq_some_iff.mp hs
    exact ih (h.playOne hok hσ₁) hrest

/-- A script whose last state passes a test shows a run to such a state. -/
theorem exists_of_play (E : Env T) (F : Faults T) (check : System T → ℕ → Frame T → Bool)
    {ok : System T → ℕ → Frame T → Prop} (hok : ∀ σ i fr, check σ i fr = true → ok σ i fr)
    (script : List (Scripted T)) (p : System T → Bool)
    (h : (play E F check script (init E)).any p = true) : ∃ σ, Run E F ok σ ∧ p σ = true := by
  cases hs : play E F check script (init E) with
  | none =>
    rw [hs] at h
    cases h
  | some σ =>
    rw [hs] at h
    exact ⟨σ, Run.init.play hok hs, h⟩

/-- Without a check, the run is any run. -/
theorem exists_reachable_of_play (E : Env T) (F : Faults T) (script : List (Scripted T))
    (p : System T → Bool) (h : (play E F (fun _ _ _ => true) script (init E)).any p = true) :
    ∃ σ, Reachable E F σ ∧ p σ = true :=
  exists_of_play E F _ (fun _ _ _ _ => trivial) script p h

end System

/-! ## A system to play in -/

/-- Payloads for scripts: an aggregate is the number its beacon is, a sharing and a decryption
carry the replica they are from. -/
abbrev plainWith (Chunk Path : Type) : PayloadTypes where
  Aggregate := ℕ
  Sharing := ℕ × ℕ
  Decryption := ℕ × ℕ
  Beacon := ℕ
  Chunk := Chunk
  Path := Path

/-- The same where a chunk is a certificate. -/
abbrev plainTypes : PayloadTypes := plainWith QuorumCert Unit

/-- A PVSS of `n` replicas that hides nothing: replica `i` decrypts an aggregate to its number, and
decryptions of enough replicas reveal it. -/
def plainPvss {Chunk Path : Type} (n i : ℕ) : PvssContext (plainWith Chunk Path) where
  createSharing draw := .ok (i, draw)
  verifySharing _ _ := .ok true
  aggregate sharings _ := .ok (sharings.foldl (fun acc sh => 10 * acc + sh.1 + 1) 100)
  verifyAggregation _ _ := .ok true
  decrypt agg _ := .ok (i, agg)
  verifyDecryption agg dec := .ok (dec.2 == agg)
  reconstruct decs :=
    -- interpolation divides by the differences of the origins it uses
    let used := decs.take ((n - 1) / 2 + 1)
    if (n - 1) / 2 < decs.length ∧ (used.map Prod.fst).Nodup then .ok (decs.headD (0, 0)).2
    else .error .assertion
  verifyBeacon agg beacon := beacon == agg

/-- `n` replicas with a plain PVSS, a setup file and a hash function. Every chunk of a
certificate shows all of it; proposals are not dispersed. -/
def plainEnv (n : ℕ) (setup : List ℕ) (hash : BlockContent plainTypes → ℕ) :
    Env plainTypes where
  nreplicas := n
  hash := hash
  emptyAggregate := (0 : ℕ)
  pvss := plainPvss n
  dispersal :=
    { encodeProposal := fun _ _ _ => []
      encodeCert := fun data parity qc => List.replicate (data + parity) qc
      root := fun chunks => (chunks.map QuorumCertSecp256k1.objHash).sum
      path := fun _ _ => ()
      verifyPath := fun _ _ => true
      decodeProposal := fun _ _ _ _ => .error .undefined
      decodeCert := fun _ _ chunk _ => .ok chunk }
  setup := setup
  blkSize := 1

/-- The numbers in a certificate. -/
def certCode (qc : QuorumCert) : ℕ × ℕ × List ℕ × List (ℕ × ℕ × ℕ) :=
  (qc.objHash, qc.view, qc.rids, qc.sigs.map fun p => (p.1, p.2.signer, p.2.digest))

/-- A hash without collisions: a content as a number. -/
def contentCode (c : BlockContent plainTypes) : ℕ :=
  Encodable.encode ((c.parentHashes, c.qcRefHash), (c.cmds, (c.extra : ℕ)), c.qc.map certCode)

theorem certCode_injective : Function.Injective certCode := by
  rintro ⟨obj, view, rids, sigs, h, h'⟩ ⟨obj', view', rids', sigs', k, k'⟩ heq
  obtain ⟨rfl, rfl, rfl, hsigs⟩ : obj = obj' ∧ view = view' ∧ rids = rids' ∧ _ := by
    simpa [certCode] using heq
  have hinj : Function.Injective fun p : ℕ × Signature => (p.1, p.2.signer, p.2.digest) := by
    rintro ⟨a, b, c⟩ ⟨a', b', c'⟩ hp
    simpa using hp
  obtain rfl : sigs = sigs' := List.map_injective_iff.mpr hinj hsigs
  rfl

theorem contentCode_injective : Function.Injective contentCode := by
  rintro ⟨parents, cmds, qc, ref, extra⟩ ⟨parents', cmds', qc', ref', extra'⟩ heq
  have hcode := Encodable.encode_injective heq
  simp only [Prod.mk.injEq] at hcode
  obtain ⟨⟨rfl, rfl⟩, ⟨rfl, rfl⟩, hqc⟩ := hcode
  rw [Option.map_injective certCode_injective hqc]

namespace System

/-- Two replicas whose setup file has the aggregates `1` to `4`. -/
def twoEnv : Env plainTypes := plainEnv 2 [1, 2, 3, 4] contentCode

/-- Three replicas whose setup file has the aggregates `11` to `16`. -/
def voteEnv : Env plainTypes := plainEnv 3 [11, 12, 13, 14, 15, 16] contentCode

/-- No replica is Byzantine. -/
def noFaults : Faults plainTypes := ⟨∅, fun _ => []⟩

/-- Replica `0` is Byzantine. -/
def firstByzantine : Faults plainTypes := ⟨{0}, fun _ => []⟩

/-- The first two views of two replicas, without the transcripts that are sent in them. -/
def twoViews : List (Scripted plainTypes) :=
  [.command 0 7, .command 1 7, .timer 0, .deliver 3, .deliver 4, .verify 0, .deliver 5,
    .verify 1, .deliver 6, .verify 1, .deliver 7, .deliver 9, .verify 0, .deliver 10,
    .deliver 14, .timer 1, .deliver 18, .verify 0, .deliver 19, .verify 1, .deliver 20,
    .verify 0, .deliver 21, .verify 0, .deliver 22, .deliver 24, .verify 1, .deliver 25]

end System

end OptRand.Hotstuff
