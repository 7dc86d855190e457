import OptRand.Hotstuff.Dispersal
import OptRand.Hotstuff.HighTail
import OptRand.Hotstuff.Waiting

/-!
# Certificates that have been verified

A certificate becomes the highest one when it comes with a proposal, with a status or by itself,
when it is decoded, or when its last vote does. The genesis certificate has no signatures and never
passes `verify`, so the first blocks never pass `Block::verify`, and their proposer delivers them
all the same (`System.own_block_unverified`). Some callbacks drop the result of a verification, and
what is decoded is not verified at all. As long as nothing gets past there, the highest certificate
verifies, and so does every delivered block, or it is, or carries, the genesis certificate
(`System.certificates_verified`).
-/

namespace OptRand.Hotstuff

open Lib

open Relation

variable {T : PayloadTypes}

/-- The genesis certificate. -/
def Env.genesisCert (E : Env T) : QuorumCert := QuorumCertSecp256k1.create E.genesis 0

/-- A certificate verifies or is the genesis certificate. -/
def Env.Vouched (E : Env T) (qc : QuorumCert) : Prop :=
  qc = E.genesisCert ∨ qc.verify SigScheme.ideal E.config = .ok true

/-- A block passes `Block::verify` or carries the genesis certificate. -/
def BlockContent.Vouched (E : Env T) (c : BlockContent T) : Prop :=
  c.qc = some E.genesisCert ∨ c.verify E = .ok true

/-- What `Block::verify` checks. -/
theorem BlockContent.verify_iff {E : Env T} {c : BlockContent T} {qc : QuorumCert}
    (hqc : c.qc = some qc) : c.verify E = .ok true ↔
      qc.verify SigScheme.ideal E.config = .ok true ∧ qc.objHash = c.qcRefHash := by
  unfold BlockContent.verify
  rw [hqc]
  dsimp only
  cases qc.verify SigScheme.ideal E.config with
  | error e => simp [bind, Except.bind]
  | ok b =>
    rw [ok_bind]
    by_cases href : qc.objHash = c.qcRefHash <;> cases b <;> simp [href, pure_eq_ok]

theorem BlockContent.Vouched.qc {E : Env T} {c : BlockContent T} {qc : QuorumCert}
    (h : c.Vouched E) (hqc : c.qc = some qc) : E.Vouched qc := by
  rcases h with h | h
  · exact Or.inl (Option.some.inj (hqc.symm.trans h))
  · exact Or.inr ((verify_iff hqc).mp h).1

/-! ## Votes -/

/-- The signatures of the voters, which verify. -/
structure Collected (E : Env T) (qc : QuorumCert) (voted : List ℕ) : Prop where
  signers : qc.signers = voted.toFinset
  nodup : voted.Nodup
  parts : ∀ i ∈ qc.rids, qc.verifyPart SigScheme.ideal E.config i = .ok true

/-- The certificate of a block that votes are added to. -/
structure Tallied (E : Env T) (h : ℕ) (b : Block T) : Prop where
  none : b.selfQc = none → b.voted = []
  cert : ∀ qc, b.selfQc = some qc → qc.objHash = h ∧
    (qc.verify SigScheme.ideal E.config = .ok true ∨ E.config.nresponsive ≤ b.voted.length ∨
      Collected E qc b.voted)

section

variable {E : Env T} {s s' : Replica T} {fr : Frame T} {h : ℕ} {b b' : Block T}
  {qc qc' : QuorumCert} {voted : List ℕ}

theorem collected_create (E : Env T) (h view : ℕ) :
    Collected E (QuorumCertSecp256k1.create h view) [] :=
  ⟨rfl, List.nodup_nil, nofun⟩

/-- A vote that verifies is added. -/
theorem Collected.addPart (hc : Collected E qc voted) (hn : E.nreplicas ≤ 2 ^ 16)
    {v : ℕ} {pc : PartCert} (hnew : v ∉ voted)
    (hlt : v < E.nreplicas) (hadd : qc.addPart v pc = .ok qc') {pubkey : ℕ}
    (hkey : E.config.getPubkey (toReplicaID v) = .ok pubkey)
    (hsig : pc.verify SigScheme.ideal pubkey = true) : Collected E qc' (voted ++ [v]) where
  signers := by
    rw [QuorumCertSecp256k1.signers_addPart hadd, hc.signers,
      toReplicaID_of_lt (lt_of_lt_of_le hlt hn)]
    ext k
    simp
  nodup := hc.nodup.append (List.nodup_singleton v) fun k hk hv =>
    hnew (List.mem_singleton.mp hv ▸ hk)
  parts := QuorumCertSecp256k1.verifyPart_addPart hadd hc.parts hkey hsig

/-- `nresponsive` votes are enough for `verify`. -/
theorem Collected.verify (hc : Collected E qc voted) (hlen : voted.length = E.config.nresponsive) :
    qc.verify SigScheme.ideal E.config = .ok true := by
  refine QuorumCertSecp256k1.verify_eq_true.mpr ⟨?_, hc.parts⟩
  rw [hc.signers, List.toFinset_card_of_nodup hc.nodup, hlen]
  change E.nreplicas - (E.nreplicas - 1) / 2 ≤ 3 * E.nreplicas / 4 + 1
  omega

/-- What a verified vote makes of the certificate of its block. -/
theorem Tallied.addPart (ht : Tallied E h b) (hn : E.nreplicas ≤ 2 ^ 16) {v : Vote}
    (hverify : v.verify E = .ok true) (hsize : b.voted.length < E.config.nresponsive)
    (hnew : v.voter ∉ b.voted) (hadd : (s.votedQc h b).addPart v.voter v.cert = .ok qc) :
    qc.objHash = h ∧ (qc.verify SigScheme.ideal E.config = .ok true ∨
      Collected E qc (b.voted ++ [v.voter])) := by
  obtain ⟨pubkey, hkey, hrest⟩ := bind_eq_ok.mp hverify
  have hlt : v.voter < E.nreplicas := ReplicaConfig.lt_of_getPubkey_start hkey
  have hsig : v.cert.verify SigScheme.ideal pubkey = true :=
    (Bool.and_eq_true_iff.mp (Except.ok.inj hrest)).1
  rw [← toReplicaID_of_lt (lt_of_lt_of_le hlt hn)] at hkey
  have hobj := (QuorumCertSecp256k1.addPart_ok hadd).2.1
  cases hself : b.selfQc with
  | none =>
    have hvoted := ht.none hself
    rw [Replica.votedQc, hself] at hadd hobj
    rw [hvoted] at hnew ⊢
    exact ⟨hobj, Or.inr ((collected_create E h s.view).addPart hn hnew hlt hadd hkey hsig)⟩
  | some qc₀ =>
    obtain ⟨hobj₀, hcases⟩ := ht.cert qc₀ hself
    rw [Replica.votedQc, hself] at hadd hobj
    refine ⟨hobj.trans hobj₀, ?_⟩
    rcases hcases with hqc | hfull | hc
    · exact Or.inl (QuorumCertSecp256k1.verify_addPart hadd hqc hkey hsig)
    · exact absurd hsize (not_lt.mpr hfull)
    · exact Or.inr (hc.addPart hn hnew hlt hadd hkey hsig)

/-- A verified vote is for the block of its certificate. -/
theorem Tallied.not_error (ht : Tallied E h b) {v : Vote} (hh : v.blkHash = h)
    (hverify : v.verify E = .ok true) {e : Error} :
    (s.votedQc h b).addPart v.voter v.cert ≠ .error e := by
  intro hadd
  obtain ⟨pubkey, -, hrest⟩ := bind_eq_ok.mp hverify
  have hobj : v.cert.objHash = h :=
    (beq_iff_eq.mp (Bool.and_eq_true_iff.mp (Except.ok.inj hrest)).2).trans hh
  have hqc : (s.votedQc h b).objHash = h := by
    unfold Replica.votedQc
    split
    · exact (ht.cert _ ‹_›).1
    · rfl
  unfold QuorumCertSecp256k1.addPart at hadd
  rw [if_neg (not_not.mpr (hobj.trans hqc.symm))] at hadd
  cases hadd

/-! ## One call -/

/-- What is known of certificates in a state: the highest one, those of the delivered blocks, and
those that votes are added to. -/
structure Sound (E : Env T) (s : Replica T) : Prop where
  hqc : E.Vouched s.hqc.2
  hqcRef : s.hqc.2.objHash = s.hqc.1
  delivered : ∀ k b, s.blkCache k = some b → b.delivered = true → b.content.Vouched E
  tallied : ∀ k b, s.blkCache k = some b → Tallied E k b
  genesis : ∃ b, s.blkCache E.genesis = some b ∧ b.delivered = true ∧
    E.config.nresponsive ≤ b.voted.length

/-- The block of a proposal that is decoded on an echo is vouched for, and so is the one that the
cache has instead of it. -/
def Replica.DecodesVouched (E : Env T) (s : Replica T) (e : Echo T) : Prop :=
  s.decodes E .proposal e = true → ∀ p, s.decodedBy E e = .ok p →
    p.blk.Vouched E ∧ ∀ b, s.blkCache (E.hash p.blk) = some b → b.content.Vouched E

/-- If the cache has the block that `do_propose` makes, it has no votes and is vouched for. -/
def Replica.ProposesAnew (E : Env T) (s : Replica T) : Prop :=
  s.Proposes → ∀ b, s.blkCache (E.hash s.ownContent) = some b →
    b.voted = [] ∧ b.content.Vouched E

/-- What is known when a call runs that can take up a certificate or deliver a block. -/
def Vouches (E : Env T) (s : Replica T) : Frame T → Prop
  | .onDeliverBlk h => ∀ b, s.blkCache h = some b → b.delivered = false → b.content.Vouched E
  | .onReceiveProposalEcho e => s.DecodesVouched E e
  | .doPropose => s.ProposesAnew E
  | .onReceiveVote v => v.verify E = .ok true
  | .onReceiveStatus st => E.Vouched st.qc
  | .onReceiveQc qc => s.view ≤ qc.view → E.Vouched qc
  | _ => True

/-- The certificates that votes are added to, after a call has changed a block. -/
theorem tallied_of_changes (hn : E.nreplicas ≤ 2 ^ 16) (hv : Vouches E s fr)
    (hsteps : ReflTransGen (Change E s h fr) b b') (ht : Tallied E h b)
    (hgenesis : h = E.genesis → E.config.nresponsive ≤ b.voted.length)
    (hown : fr = .doPropose → s.Proposes → h = E.hash s.ownContent → b.voted = []) :
    Tallied E h b' ∧ b.voted <+: b'.voted ∧ (fr = .doPropose → b'.voted = b.voted) := by
  induction hsteps with
  | refl => exact ⟨ht, List.prefix_rfl, fun _ => rfl⟩
  | tail _ hstep ih =>
    obtain ⟨htall, hle, hsame⟩ := ih
    cases hstep with
    | deliver | attempt | seen | ack | decide => exact ⟨⟨htall.none, htall.cert⟩, hle, hsame⟩
    | propose hfr hproposes hh =>
      have hvoted := (hsame hfr).trans (hown hfr hproposes hh)
      refine ⟨⟨fun _ => hvoted, fun qc hqc => ?_⟩, hle, hsame⟩
      cases Option.some.inj hqc
      refine ⟨rfl, Or.inr (Or.inr ?_)⟩
      rw [hvoted]
      exact collected_create E h s.view
    | cert qc hh hfr =>
      have hqc : E.Vouched qc := by
        rcases hfr with ⟨rfl, hview⟩ | ⟨st, rfl, rfl⟩
        · exact hv hview
        · exact hv
      refine ⟨⟨nofun, fun qc' hqc' => ?_⟩, hle, hsame⟩
      cases Option.some.inj hqc'
      refine ⟨hh, ?_⟩
      rcases hqc with rfl | hqc
      · exact Or.inr (Or.inl ((hgenesis hh.symm).trans hle.length_le))
      · exact Or.inl hqc
    | vote v qc hfr hh hsize hvoter hqc =>
      subst hfr
      obtain ⟨hobj, hcases⟩ := htall.addPart hn hv hsize hvoter hqc
      refine ⟨⟨nofun, fun qc' hqc' => ?_⟩, hle.trans (List.prefix_append _ _), nofun⟩
      cases Option.some.inj hqc'
      exact ⟨hobj, hcases.imp_right Or.inr⟩
    | voteFailed v e hfr hh hqc =>
      subst hfr
      exact absurd hqc (htall.not_error hh hv)

/-- The own block carries the highest certificate. -/
theorem Sound.ownContent (hs : Sound E s) : s.ownContent.Vouched E := by
  rcases hs.hqc with hqc | hqc
  · exact Or.inl (congrArg some hqc)
  · exact Or.inr ((BlockContent.verify_iff rfl).mpr ⟨hqc, hs.hqcRef⟩)

/-- A delivered block has been verified, whether it was there before or has just been added. -/
theorem vouched_of_changes (hs : Sound E s) (hv : Vouches E s fr)
    (hdecodes : ∀ e, fr = .onReceiveProposalEcho e → s.decodes E .proposal e = true)
    (horigin : s.blkCache h = some b ∨ Added E s h fr b)
    (hsteps : ReflTransGen (Change E s h fr) b b') (hdel : b'.delivered = true) :
    b'.content.Vouched E := by
  rw [(le_of_changes hsteps).content]
  rcases horigin with hb | hadd
  · cases hold : b.delivered with
    | true => exact hs.delivered h b hb hold
    | false =>
      have hdelivers := (delivered_of_changes hsteps hdel).resolve_left (by rw [hold]; nofun)
      cases hdelivers with
      | waited => exact hv b hb hold
      | decoded e p hp => exact (hv (hdecodes e rfl) p hp).2 b hb
      | own hproposes => exact (hv hproposes b hb).2
  · cases hadd with
    | message peer msg c =>
      have hdelivers := (delivered_of_changes hsteps hdel).resolve_left (by nofun)
      cases hdelivers
    | decoded e p hp => exact (hv (hdecodes e rfl) p hp).1
    | own => exact hs.ownContent

/-- A certificate that becomes the highest one has been verified. -/
theorem vouched_of_takenUp (hn : E.nreplicas ≤ 2 ^ 16) (hs : Sound E s) (hv : Vouches E s fr)
    (htaken : TakenUp E s fr qc) : E.Vouched qc := by
  cases htaken with
  | proposal prop b qc _ _ hb hdel _ hqc => exact (hs.delivered prop.blk b hb hdel).qc hqc
  | vote v b qc _ hb _ hsize hvoter hqc =>
    have hlt : b.voted.length < E.config.nresponsive := by omega
    obtain ⟨-, hcases⟩ := (hs.tallied v.blkHash b hb).addPart hn hv hlt hvoter hqc
    refine Or.inr (hcases.elim (fun h => h) fun hc => hc.verify ?_)
    rw [List.length_append, List.length_singleton]
    exact hsize
  | status st => exact hv
  | cert qc hview => exact hv hview

/-- A block that is already there. -/
theorem Sound.tallied_of_changes (hn : E.nreplicas ≤ 2 ^ 16) (hs : Sound E s)
    (hv : Vouches E s fr) (hb : s.blkCache h = some b)
    (hsteps : ReflTransGen (Change E s h fr) b b') : Tallied E h b' ∧ b.voted <+: b'.voted := by
  obtain ⟨g, hg, -, hgfull⟩ := hs.genesis
  obtain ⟨htall, hle, -⟩ := Hotstuff.tallied_of_changes hn hv hsteps (hs.tallied h b hb)
    (by
      rintro rfl
      cases Option.some.inj (hb.symm.trans hg)
      exact hgfull)
    (by
      rintro rfl hproposes rfl
      exact (hv hproposes b hb).1)
  exact ⟨htall, hle⟩

theorem Sound.of_eq (hs : Sound E s) (hhqc : s'.hqc = s.hqc) (hblks : s'.blkCache = s.blkCache) :
    Sound E s' where
  hqc := hhqc ▸ hs.hqc
  hqcRef := hhqc ▸ hs.hqcRef
  delivered := hblks ▸ hs.delivered
  tallied := hblks ▸ hs.tallied
  genesis := hblks ▸ hs.genesis

/-- One call keeps what is known of certificates. -/
theorem sound_exec (hn : E.nreplicas ≤ 2 ^ 16) (hs : Sound E s) (hv : Vouches E s fr) :
    Sound E (s.exec E fr).rep := by
  by_cases hdecodes : ∀ e, fr = .onReceiveProposalEcho e → s.decodes E .proposal e = true
  · have hevolves := Replica.exec_evolves (E := E) (s := s) fr
    have hhqc := Replica.exec_hqc (E := E) (s := s) fr
    obtain ⟨g, hg, hgdel, hgfull⟩ := hs.genesis
    constructor
    · rcases hhqc with h | ⟨qc, htaken, -, h⟩
      · rw [h]
        exact hs.hqc
      · rw [h]
        exact vouched_of_takenUp hn hs hv htaken
    · rcases hhqc with h | ⟨qc, -, -, h⟩
      · rw [h]
        exact hs.hqcRef
      · rw [h]
    · intro k b' hb' hdel
      obtain ⟨b, horigin, hsteps⟩ := hevolves.origin hb'
      exact vouched_of_changes hs hv hdecodes horigin hsteps hdel
    · intro k b' hb'
      cases hk : s.blkCache k with
      | some b =>
        obtain ⟨b'', hb'', hsteps⟩ := hevolves.kept k b hk
        cases Option.some.inj (hb'.symm.trans hb'')
        exact (hs.tallied_of_changes hn hv hk hsteps).1
      | none =>
        obtain ⟨b, hadd, hsteps⟩ := hevolves.added k b' hk hb'
        have hvoted : b.voted = [] ∧ b.selfQc = none := by cases hadd <;> exact ⟨rfl, rfl⟩
        have ht : Tallied E k b := by
          refine ⟨fun _ => hvoted.1, fun qc hqc => ?_⟩
          rw [hvoted.2] at hqc
          cases hqc
        refine (tallied_of_changes hn hv hsteps ht ?_ fun _ _ _ => hvoted.1).1
        rintro rfl
        rw [hg] at hk
        cases hk
    · obtain ⟨b', hb', hsteps⟩ := hevolves.kept E.genesis g hg
      have hle := (hs.tallied_of_changes hn hv hg hsteps).2.length_le
      exact ⟨b', hb', ((le_of_changes hsteps).delivered hgdel).1, hgfull.trans hle⟩
  · -- an echo that does not lead to a decoding changes no block
    obtain ⟨e, rfl, hno⟩ : ∃ e, fr = .onReceiveProposalEcho e ∧
        s.decodes E .proposal e = false := by simpa using hdecodes
    rcases Replica.onReceiveProposalEcho_eq (s := s) (E := E) e with
      ⟨-, heq⟩ | ⟨-, -, heq⟩ | ⟨hyes, -⟩
    · exact hs.of_eq (by rw [Replica.exec, heq]; rfl) (by rw [Replica.exec, heq]; rfl)
    · exact hs.of_eq (by rw [Replica.exec, heq]; rfl) (by rw [Replica.exec, heq]; rfl)
    · rw [hno] at hyes
      cases hyes

end

/-! ## Runs -/

theorem full_genesis {E : Env T} (hpos : 1 ≤ E.nreplicas) :
    E.config.nresponsive ≤ E.genesisBlock.voted.length := by
  change 3 * E.nreplicas / 4 + 1 ≤ ((List.range E.nreplicas).map toReplicaID).length
  rw [List.length_map, List.length_range]
  omega

theorem sound_init (E : Env T) (i : ℕ) (hpos : 1 ≤ E.nreplicas) : Sound E (E.init i) where
  hqc := Or.inl rfl
  hqcRef := rfl
  delivered := by
    intro k b hb _
    obtain ⟨-, rfl⟩ := Env.blkCache_init hb
    exact Or.inl rfl
  tallied := by
    intro k b hb
    obtain ⟨hk, rfl⟩ := Env.blkCache_init hb
    refine ⟨nofun, fun qc hqc => ?_⟩
    cases Option.some.inj hqc
    exact ⟨hk.symm, Or.inr (Or.inl (full_genesis hpos))⟩
  genesis := ⟨E.genesisBlock, if_pos rfl, rfl, full_genesis hpos⟩

namespace System

variable {E : Env T} {F : Faults T} {ok : System T → ℕ → Frame T → Prop} {σ : System T}

/-- A callback that drops the result of a verification runs only after it has succeeded, or with
the genesis certificate; what is not verified at all is vouched for: the certificate of a status of
view `1`, and what is decoded on an echo; and `do_propose` makes no block that has votes. -/
def Verifies (E : Env T) (σ : System T) (i : ℕ) : Frame T → Prop
  | .run (.deliver h) result => result = true ∨
      ∃ b, (σ.nodes i).rep.blkCache h = some b ∧ b.qc = some E.genesisCert
  | .run (.qc qc) result => result = true ∨ qc = E.genesisCert
  | .run (.status st) _ => st.view = 1 → E.Vouched st.qc
  | .onReceiveProposalEcho e => (σ.nodes i).rep.DecodesVouched E e
  | .onReceiveCertEcho e => (σ.nodes i).rep.decodes E .cert e = true →
      ∀ qc, (σ.nodes i).rep.certDecodedBy E e = .ok qc → E.Vouched qc
  | .doPropose => (σ.nodes i).rep.ProposesAnew E
  | _ => True

/-- The state in which the caller of a call ran. -/
theorem Run.exists_caller (h : Run E F ok σ) {i : ℕ} {fr : Frame T} {stack : List (Frame T)}
    (hstack : (σ.nodes i).stack = fr :: stack) (hdirect : fr.Direct) :
    ∃ σ' fr' rest, Run E F ok σ' ∧ (σ'.nodes i).stack = fr' :: rest ∧ ok σ' i fr' ∧
      ((σ'.nodes i).rep.exec E fr').rep = (σ.nodes i).rep ∧
      fr ∈ ((σ'.nodes i).rep.exec E fr').calls := by
  obtain ⟨e, past, hpast, hrep, hcall⟩ := h.made hstack hdirect
  have he : e ∈ σ.history i := hpast ▸ List.mem_cons_self
  obtain ⟨hmem, rfl⟩ := mem_history.mp he
  obtain ⟨σ', rest, hrun, -, -, hrep', hstack', hok⟩ := h.exists_of_mem_trace hmem
  refine ⟨σ', e.frame, rest, hrun, hstack', hok, ?_, ?_⟩
  · rw [hrep']
    exact hrep
  · rw [hrep']
    exact hcall

/-- What the verification tells when a callback runs. -/
theorem Run.checked (h : Run E F ok σ) {i : ℕ} (hi : i < E.nreplicas) {task : Task T}
    {stack : List (Frame T)} (hstack : (σ.nodes i).stack = .run task true :: stack) :
    task.Checked E (σ.nodes i).rep := by
  have hadmitted := (h.admits hi).2 (.run task true) (hstack ▸ List.mem_cons_self)
  exact hadmitted.checked rfl

theorem Run.vouches_deliver (h : Run E F (Verifies E) σ) {i : ℕ} (hi : i < E.nreplicas) {k : ℕ}
    {stack : List (Frame T)} (hstack : (σ.nodes i).stack = .onDeliverBlk k :: stack) :
    Vouches E (σ.nodes i).rep (.onDeliverBlk k) := by
  obtain ⟨σ', fr', rest, hrun, hstack', hok, hrep, hmem⟩ := h.exists_caller hstack trivial
  have hcall := Replica.calls_exec hmem
  cases hcall with
  | other _ _ hdirect => exact absurd trivial hdirect
  | delivered h result =>
    have hsame : (σ'.nodes i).rep = (σ.nodes i).rep := hrep
    rw [← hsame]
    intro b hb hnew
    rcases hok with rfl | ⟨b', hb', hqc⟩
    · rcases hrun.checked hi hstack' with rfl | ⟨b', hb', hverify⟩
      · obtain ⟨g, hg, hdel, -⟩ := (hrun.linked i).genesis
        cases Option.some.inj (hb.symm.trans hg)
        rw [hnew] at hdel
        cases hdel
      · cases Option.some.inj (hb.symm.trans hb')
        exact Or.inr hverify
    · cases Option.some.inj (hb.symm.trans hb')
      exact Or.inl hqc

theorem Run.vouches_status (h : Run E F (Verifies E) σ) {i : ℕ} (hi : i < E.nreplicas)
    (hs : Sound E (σ.nodes i).rep) {st : Status} {stack : List (Frame T)}
    (hstack : (σ.nodes i).stack = .onReceiveStatus st :: stack) : E.Vouched st.qc := by
  obtain ⟨σ', fr', rest, hrun, hstack', hok, hrep, hmem⟩ := h.exists_caller hstack trivial
  have hcall := Replica.calls_exec hmem
  cases hcall with
  | other _ _ hdirect => exact absurd trivial hdirect
  | status st =>
    rcases hrun.checked hi hstack' with hview | hverify
    · exact hok hview
    · exact Or.inr hverify
  | ownStatus =>
    have hnot : ¬ (Frame.sendStatus : Frame T).ChangesChain := not_false
    have hhqc : ((σ'.nodes i).rep.exec E .sendStatus).rep.hqc = (σ'.nodes i).rep.hqc :=
      congrArg Chain.hqc (Replica.exec_chain hnot)
    rw [hrep] at hhqc
    rw [← hhqc]
    exact hs.hqc

theorem Run.vouches_qc (h : Run E F (Verifies E) σ) {i : ℕ} (hi : i < E.nreplicas)
    {qc : QuorumCert} {stack : List (Frame T)}
    (hstack : (σ.nodes i).stack = .onReceiveQc qc :: stack)
    (hview : (σ.nodes i).rep.view ≤ qc.view) : E.Vouched qc := by
  obtain ⟨σ', fr', rest, hrun, hstack', hok, hrep, hmem⟩ := h.exists_caller hstack trivial
  have hcall := Replica.calls_exec hmem
  cases hcall with
  | other _ _ hdirect => exact absurd trivial hdirect
  | qc qc result =>
    have hsame : (σ'.nodes i).rep = (σ.nodes i).rep := hrep
    rcases hok with rfl | hgenesis
    · rcases hrun.checked hi hstack' with hlt | hverify
      · rw [hsame] at hlt
        exact absurd hview (not_le.mpr hlt)
      · exact Or.inr hverify
    · exact Or.inl hgenesis
  | certDecoded e qc hqc =>
    refine hok ?_ qc hqc
    rw [Replica.exec] at hmem
    rcases Replica.onReceiveCertEcho_eq (s := (σ'.nodes i).rep) (E := E) e with
      ⟨-, heq⟩ | ⟨-, -, heq⟩ | ⟨hdecodes, -⟩
    · rw [heq] at hmem
      cases hmem
    · rw [heq] at hmem
      cases hmem
    · exact hdecodes

theorem Run.vouches (h : Run E F (Verifies E) σ) {i : ℕ} (hi : i < E.nreplicas)
    (hs : Sound E (σ.nodes i).rep) {fr : Frame T} {stack : List (Frame T)}
    (hstack : (σ.nodes i).stack = fr :: stack) (hok : Verifies E σ i fr) :
    Vouches E (σ.nodes i).rep fr := by
  cases fr with
  | onReceiveProposalEcho | doPropose => exact hok
  | onReceiveVote v =>
    have hadmitted := (h.admits hi).2 (.onReceiveVote v) (hstack ▸ List.mem_cons_self)
    exact hadmitted.2
  | onDeliverBlk k => exact h.vouches_deliver hi hstack
  | onReceiveStatus st => exact h.vouches_status hi hs hstack
  | onReceiveQc qc => exact h.vouches_qc hi hstack
  | _ => exact trivial

theorem Run.sound (h : Run E F (Verifies E) σ) (hn : E.nreplicas ≤ 2 ^ 16)
    (hpos : 1 ≤ E.nreplicas) (i : ℕ) : Sound E (σ.nodes i).rep := by
  refine h.node_induction (I := fun _ x => Sound E x.rep) (fun i => sound_init E i hpos) ?_ ?_ i
  · exact fun i x ev hx _ _ => hx
  · intro σ i fr stack hrun honest hok hx hstack
    rw [Node.rep_after]
    exact sound_exec hn hx (hrun.vouches honest.1 hx hstack hok)

/-- As long as every certificate and every block that gets past `verify` without it is vouched for,
the highest certificate of an honest replica is the genesis certificate or verifies, and each of its
delivered blocks carries the genesis certificate or passes `Block::verify`. -/
theorem certificates_verified (E : Env T) (F : Faults T) (hn : E.nreplicas ≤ 2 ^ 16) (σ : System T)
    (h : Run E F (Verifies E) σ) (i : ℕ) (hi : Honest E F i) :
    ((σ.nodes i).rep.hqc.2 = E.genesisCert ∨
      (σ.nodes i).rep.hqc.2.verify SigScheme.ideal E.config = .ok true) ∧
    ∀ k b, (σ.nodes i).rep.blkCache k = some b → b.delivered = true →
      b.qc = some E.genesisCert ∨ b.content.verify E = .ok true := by
  have hsound := h.sound hn (Nat.one_le_of_lt hi.1) i
  exact ⟨hsound.hqc, hsound.delivered⟩

/-- Whether a call is one that the certificates get past verified. -/
def verifies (σ : System plainTypes) (i : ℕ) : Frame plainTypes → Bool
  | .run (.deliver h) result => result || match (σ.nodes i).rep.blkCache h with
    | some b => b.qc == some voteEnv.genesisCert
    | none => false
  | .run (.qc _) result => result
  | .run (.status st) _ => st.view != 1
  | .onReceiveProposalEcho e => !(σ.nodes i).rep.decodes voteEnv .proposal e
  | .onReceiveCertEcho e => !(σ.nodes i).rep.decodes voteEnv .cert e
  | .doPropose => ((σ.nodes i).rep.blkCache (voteEnv.hash (σ.nodes i).rep.ownContent)).isNone
  | _ => true

theorem verifies_of_check {σ : System plainTypes} {i : ℕ} {fr : Frame plainTypes}
    (h : verifies σ i fr = true) : Verifies voteEnv σ i fr := by
  cases fr with
  | run task result =>
    cases task with
    | deliver k =>
      rcases Bool.or_eq_true_iff.mp h with hresult | hgenesis
      · exact Or.inl hresult
      · split at hgenesis
        · rename_i b hb
          exact Or.inr ⟨b, hb, beq_iff_eq.mp hgenesis⟩
        · cases hgenesis
    | qc => exact Or.inl h
    | status => exact fun hview => absurd hview (bne_iff_ne.mp h)
    | _ => exact trivial
  | onReceiveProposalEcho | onReceiveCertEcho =>
    intro hdecodes
    rw [verifies, hdecodes] at h
    cases h
  | doPropose =>
    intro _ b hb
    rw [verifies, hb] at h
    cases h
  | _ => exact trivial

/-- Replica `1` takes up the certificate for the first block. -/
theorem certificates_verified_first : ∃ σ : System plainTypes,
    (σ.nodes 1).rep.hqc.1 = voteEnv.hash firstBlock ∧
    ((σ.nodes 1).rep.hqc.2 = voteEnv.genesisCert ∨
      (σ.nodes 1).rep.hqc.2.verify SigScheme.ideal voteEnv.config = .ok true) ∧
    ∀ k b, (σ.nodes 1).rep.blkCache k = some b → b.delivered = true →
      b.qc = some voteEnv.genesisCert ∨ b.content.verify voteEnv = .ok true := by
  obtain ⟨σ, hrun, htest⟩ := exists_of_play voteEnv firstByzantine verifies
    (fun _ _ _ => verifies_of_check)
    [.inject 0 1 (.propose ⟨0, firstBlock, 1⟩), .inject 0 2 (.propose ⟨0, firstBlock, 1⟩),
      .inject 0 1 (.qc (fullCert (voteEnv.hash firstBlock) 1)), .verify 1]
    (fun σ => (σ.nodes 1).rep.hqc.1 == voteEnv.hash firstBlock) (by decide +kernel)
  exact ⟨σ, beq_iff_eq.mp htest,
    certificates_verified voteEnv firstByzantine (by decide) σ hrun 1 (by decide)⟩

/-- A delivered block that does not pass `Block::verify`. -/
def deliversUnverified (s : Replica plainTypes) (h : ℕ) : Bool :=
  match s.blkCache h with
  | some b => b.delivered && match b.content.verify voteEnv with
    | .ok passes => !passes
    | .error _ => false
  | none => false

/-- All replicas are honest. Replica `0` delivers its first proposal, which carries the genesis
certificate and does not pass `Block::verify`. -/
theorem own_block_unverified : ∃ σ : System plainTypes, Reachable voteEnv noFaults σ ∧
    Honest voteEnv noFaults 0 ∧ ∃ k b, k ≠ voteEnv.genesis ∧
      (σ.nodes 0).rep.blkCache k = some b ∧ b.delivered = true ∧
      b.content.verify voteEnv = .ok false := by
  obtain ⟨σ, hrun, htest⟩ := exists_reachable_of_play voteEnv noFaults [.command 0 7, .timer 0]
    (fun σ => deliversUnverified (σ.nodes 0).rep (voteEnv.hash firstBlock)) (by decide +kernel)
  unfold deliversUnverified at htest
  split at htest
  · rename_i b hb
    obtain ⟨hdel, hverify⟩ := Bool.and_eq_true_iff.mp htest
    refine ⟨σ, hrun, by decide, voteEnv.hash firstBlock, b, by decide +kernel, hb, hdel, ?_⟩
    split at hverify
    · rename_i passes heq
      rw [heq, (Bool.not_eq_true' passes).mp hverify]
    · cases hverify
  · cases htest

end System

end OptRand.Hotstuff
