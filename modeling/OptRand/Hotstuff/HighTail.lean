import OptRand.Hotstuff.Calls
import OptRand.Hotstuff.Signing
import OptRand.Hotstuff.Tree

/-!
# The tail that is extended (`PMHighTail`)

The parent of a new block is `hqc_tail`. The pacemaker moves it when a higher tail follows the
highest certificate, when a proposal does, and to each block that the replica proposes; the
certificate is moved by views. If the certificate goes to another branch and no higher tail is on
it, `hqc_tail` stays where it is, and the next proposal does not follow the certificate
(`System.proposal_off_branch`). As long as `hqc_tail` or a higher tail follows every certificate
taken up, every proposal does (`System.proposals_follow`).
-/

namespace OptRand.Hotstuff

open Lib Relation

variable {T : PayloadTypes}

/-- The calls that change the tails or `hqc_tail`. -/
def Frame.ChangesLead : Frame T → Prop
  | .onDeliverBlk _ | .onReceiveProposal _ | .checkAggregation _ _ | .onReceiveVote _
  | .onReceiveStatus _ | .onReceiveQc _ | .onReceiveProposalEcho _ | .doPropose
  | .onPropose_ _ => True
  | _ => False

namespace Replica

variable {s s' : Replica T} {E : Env T} {fr : Frame T}

/-! ## Calls that leave the tails alone -/

theorem lead_modifyBlk {h : ℕ} {f : Block T → Block T} : (s.modifyBlk h f).lead = s.lead := by
  unfold modifyBlk
  split <;> rfl

theorem lead_addBlk {blk : Block T} : (s.addBlk blk).lead = s.lead := by
  unfold addBlk
  split <;> rfl

theorem lead_notePropBlk {proposer blk : ℕ} : (s.notePropBlk proposer blk).lead = s.lead := by
  unfold notePropBlk
  split <;> rfl

/-- The other calls leave the tails and `hqc_tail` as they are. -/
theorem exec_lead (hc : ¬ fr.ChangesLead) : (s.exec E fr).rep.lead = s.lead := by
  rw [exec_patch]
  cases fr <;> first | rfl | exact absurd trivial hc

/-! ## Delivery -/

theorem hqcTail_foldl_eraseTail {hs : List ℕ} :
    (hs.foldl eraseTail s).pm.hqcTail = s.pm.hqcTail := by
  induction hs generalizing s with
  | nil => rfl
  | cons h hs ih => exact ih

theorem mem_tails_foldl_eraseTail {hs : List ℕ} {t : ℕ} (ht : t ∈ (hs.foldl eraseTail s).tails) :
    t ∈ s.tails := by
  induction hs generalizing s with
  | nil => exact ht
  | cons h hs ih => exact List.mem_of_mem_filter (ih ht)

theorem lead_insertTail {h : ℕ} : (s.insertTail h).pm.hqcTail = s.pm.hqcTail ∧
    ∀ t ∈ (s.insertTail h).tails, t ∈ s.tails ∨ t = h := by
  unfold insertTail
  split
  · exact ⟨rfl, fun t ht => Or.inl ht⟩
  · refine ⟨rfl, fun t ht => ?_⟩
    rcases List.mem_append.mp ht with ht | ht
    · exact Or.inl (List.mem_of_mem_filter ht)
    · rcases List.mem_cons.mp ht with rfl | ht
      · exact Or.inr rfl
      · exact Or.inl (List.mem_of_mem_filter ht)

/-- Delivery adds no tail but the block delivered. -/
theorem lead_deliverBlk {h : ℕ} : (s.deliverBlk h).rep.pm.hqcTail = s.pm.hqcTail ∧
    ∀ t ∈ (s.deliverBlk h).rep.tails, t ∈ s.tails ∨ (s.deliverBlk h).rep.isBlkDelivered t = true := by
  have hleft : ∀ t : Replica T, t.lead = s.lead → t.pm.hqcTail = s.pm.hqcTail ∧
      ∀ k ∈ t.tails, k ∈ s.tails ∨ t.isBlkDelivered k = true := by
    intro t ht
    have htails : t.tails = s.tails := congrArg Prod.fst ht
    exact ⟨congrArg Prod.snd ht, fun k hk => Or.inl (htails ▸ hk)⟩
  have hnew : ∀ (b : Block T) (hs : List ℕ), b.delivered = true →
      ((hs.foldl eraseTail (s.setBlk h b)).insertTail h).isBlkDelivered h = true := by
    intro b hs hdel
    unfold isBlkDelivered
    rw [blkCache_insertTail, blkCache_foldl_eraseTail, blkCache_setBlk, Function.update_self]
    exact hdel
  unfold deliverBlk
  split
  · exact hleft _ rfl
  · split
    · exact hleft _ rfl
    · dsimp only
      split
      · exact hleft _ rfl
      · split
        · exact hleft _ rfl
        · split
          · exact hleft _ rfl
          · obtain ⟨htail, htails⟩ := lead_insertTail (h := h) (s := (List.foldl eraseTail _ _))
            refine ⟨htail.trans hqcTail_foldl_eraseTail, fun t ht => ?_⟩
            rcases htails t ht with ht | rfl
            · exact Or.inl (mem_tails_foldl_eraseTail ht :)
            · exact Or.inr (hnew _ _ rfl)

/-- A call that delivers a block adds no tail that is not delivered. -/
def TailsFrom (s s' : Replica T) : Prop :=
  s'.pm.hqcTail = s.pm.hqcTail ∧ ∀ t ∈ s'.tails, t ∈ s.tails ∨ s'.isBlkDelivered t = true

theorem TailsFrom.of_lead (h : s'.lead = s.lead) : TailsFrom s s' := by
  have htails : s'.tails = s.tails := congrArg Prod.fst h
  exact ⟨congrArg Prod.snd h, fun k hk => Or.inl (htails ▸ hk)⟩

theorem TailsFrom.andThen {t u : Replica T} {h : ℕ} {k : Replica T → Outcome T}
    (ht : t.lead = u.lead) (hu : u.pm.hqcTail = s.pm.hqcTail)
    (htails : ∀ x ∈ u.tails, x ∈ s.tails)
    (hk : ∀ r, (k r).rep.lead = r.lead ∧ (k r).rep.blkCache = r.blkCache) :
    TailsFrom s ((t.deliverBlk h).andThen k).rep := by
  obtain ⟨htail, hnew⟩ := lead_deliverBlk (s := t) (h := h)
  have hlead := rep_andThen lead (r := t.deliverBlk h) fun r => (hk r).1
  have hcache := rep_andThen blkCache (r := t.deliverBlk h) fun r => (hk r).2
  have htails' : ((t.deliverBlk h).andThen k).rep.tails = (t.deliverBlk h).rep.tails :=
    congrArg Prod.fst hlead
  have hsame : t.tails = u.tails := congrArg Prod.fst ht
  refine ⟨(((congrArg Prod.snd hlead).trans htail).trans (congrArg Prod.snd ht)).trans hu, ?_⟩
  intro x hx
  rw [htails'] at hx
  rw [(SameTree.of_eq hcache).delivered]
  exact (hnew x hx).imp_left fun hx => htails x (hsame ▸ hx)

theorem tailsFrom_onDeliverBlk {h : ℕ} : TailsFrom s (s.onDeliverBlk h).rep := by
  unfold onDeliverBlk
  repeat' split
  all_goals try exact TailsFrom.of_lead rfl
  refine TailsFrom.andThen rfl rfl (fun x hx => hx) fun r => ?_
  split <;> exact ⟨rfl, rfl⟩

theorem tailsFrom_onReceiveProposalEcho {e : Echo T} :
    TailsFrom s (s.onReceiveProposalEcho E e).rep := by
  rcases onReceiveProposalEcho_eq (s := s) (E := E) e with ⟨-, h⟩ | ⟨-, -, h⟩ | ⟨-, h⟩
  · rw [h]
    exact TailsFrom.of_lead rfl
  · rw [h]
    exact TailsFrom.of_lead rfl
  · rw [h]
    split
    · exact TailsFrom.of_lead rfl
    · exact TailsFrom.andThen lead_addBlk rfl (fun x hx => hx) fun r => ⟨rfl, rfl⟩

theorem tailsFrom_doPropose : TailsFrom s (s.doPropose E).rep := by
  unfold doPropose onPropose
  repeat' split
  all_goals try exact TailsFrom.of_lead rfl
  refine TailsFrom.andThen (lead_modifyBlk.trans lead_addBlk) hqcTail_foldl_eraseTail
    (fun x hx => (mem_tails_foldl_eraseTail hx :)) fun r => ?_
  split <;> exact ⟨rfl, rfl⟩

/-! ## Certificates -/

/-- `hqc_tail`, or a higher tail, follows block `h`. -/
def Followed (s : Replica T) (h : ℕ) : Prop :=
  Ancestor s.parent h s.pm.hqcTail ∨
    ∃ t ∈ s.tails, s.height s.pm.hqcTail < s.height t ∧ Ancestor s.parent h t

theorem checkAncestry_ok (hs : Linked E s) {a b : ℕ} {follows : Bool}
    (hb : s.isBlkDelivered b = true) (h : s.checkAncestry a b = .ok follows) :
    follows = true ↔ Ancestor s.parent a b := by
  obtain ⟨r, hr, h⟩ := bind_eq_ok.mp h
  cases h
  rw [decide_eq_true_iff]
  exact hs.eq_iff_of_branchAt hb hr

/-- The loop over the tails ends in one that follows the block, if the one it starts from does or
a higher one. -/
theorem foldlM_tails (hs : Linked E s) {h tail r : ℕ} {tails : List ℕ}
    (htails : ∀ t ∈ tails, s.isBlkDelivered t = true)
    (heq : tails.foldlM (fun hqcTail t => do
      if (← s.checkAncestry h t) && s.height t > s.height hqcTail then return t
      return hqcTail) tail = (.ok r : Except Error ℕ)) :
    Ancestor s.parent h r ↔ Ancestor s.parent h tail ∨
      ∃ t ∈ tails, s.height tail < s.height t ∧ Ancestor s.parent h t := by
  induction tails generalizing tail with
  | nil =>
    cases heq
    simp
  | cons t tails ih =>
    obtain ⟨next, hnext, hrest⟩ := bind_eq_ok.mp heq
    obtain ⟨follows, hfollows, hnext⟩ := bind_eq_ok.mp hnext
    have hiff := checkAncestry_ok hs (htails t List.mem_cons_self) hfollows
    rw [ih (fun x hx => htails x (List.mem_cons_of_mem t hx)) hrest]
    split at hnext
    · rename_i htaken
      cases hnext
      simp only [gt_iff_lt, Bool.and_eq_true, decide_eq_true_eq] at htaken
      have hanc := hiff.mp htaken.1
      exact ⟨fun _ => Or.inr ⟨t, List.mem_cons_self, htaken.2, hanc⟩, fun _ => Or.inl hanc⟩
    · rename_i hkept
      cases hnext
      simp only [gt_iff_lt, Bool.and_eq_true, decide_eq_true_eq, not_and] at hkept
      constructor
      · rintro (htail | ⟨x, hx, hlt, hanc⟩)
        · exact Or.inl htail
        · exact Or.inr ⟨x, List.mem_cons_of_mem t hx, hlt, hanc⟩
      · rintro (htail | ⟨x, hx, hlt, hanc⟩)
        · exact Or.inl htail
        · rcases List.mem_cons.mp hx with rfl | hx
          · exact absurd hlt (hkept (hiff.mpr hanc))
          · exact Or.inr ⟨x, hx, hlt, hanc⟩

/-- After `on_hqc_update`, `hqc_tail` follows the certificate exactly if the old one did or a
higher tail. -/
theorem onHqcUpdate_ok (hs : Linked E s) (htails : ∀ t ∈ s.tails, s.isBlkDelivered t = true)
    (h : s.onHqcUpdate = .ok s') : s'.tails = s.tails ∧ s'.hqc = s.hqc ∧
      (Ancestor s.parent s.hqc.1 s'.pm.hqcTail ↔ s.Followed s.hqc.1) := by
  obtain ⟨tail, htail, heq⟩ := bind_eq_ok.mp h
  cases heq
  exact ⟨rfl, rfl, foldlM_tails hs htails htail⟩

/-- A proposal becomes `hqc_tail` if it follows the highest certificate. -/
theorem lead_onReceiveProposal_ {prop : Proposal} (h : s.onReceiveProposal_ prop = .ok s') :
    s'.lead = s.lead ∨
      (s'.lead = (s.tails, prop.blk) ∧ s.checkAncestry s.hqc.1 prop.blk = .ok true) := by
  obtain ⟨follows, hfollows, heq⟩ := bind_eq_ok.mp h
  have hlead : ∀ t : Replica T, ∀ c : Prop, [Decidable c] →
      (if c then t.notePropBlk prop.proposer prop.blk else t).lead = t.lead := by
    intro t c _
    split
    · exact lead_notePropBlk
    · rfl
  have hkept : ∀ t : Replica T, (if t.pm.rotating then t
      else { t with pm := { t.pm with regReceiveProposals := 0 } }).lead = t.lead := by
    intro t
    split <;> rfl
  cases heq
  rw [hkept, hlead]
  split
  · rename_i htaken
    rw [Bool.and_eq_true] at htaken
    exact Or.inr ⟨rfl, htaken.1 ▸ hfollows⟩
  · exact Or.inl rfl

theorem lead_checkAggregation {prop : Proposal} {opinion : Bool} :
    (s.checkAggregation E prop opinion).rep.lead = s.lead ∨
    ((s.checkAggregation E prop opinion).rep.lead = (s.tails, prop.blk) ∧
      ∃ t, SameTree s t ∧ t.checkAncestry s.hqc.1 prop.blk = .ok true) := by
  unfold checkAggregation
  split
  · exact Or.inl rfl
  · rename_i b hb
    dsimp only
    split
    · exact Or.inl rfl
    · exact Or.inl rfl
    · have hmod : ∀ f, s.drawn.modifyBlk prop.blk f = s.drawn.setBlk prop.blk (f b) := by
        intro f
        simp [modifyBlk, drawn, hb]
      have htree : ∀ t : Replica T, t.blkCache = Function.update s.blkCache prop.blk
          (some { b with view := s.view }) → SameTree s t :=
        fun t ht => SameTree.of_update hb ht rfl rfl rfl rfl
      rw [hmod]
      split
      · exact Or.inl rfl
      · rename_i s' hs'
        rcases lead_onReceiveProposal_ hs' with hlead | ⟨hlead, hfollows⟩
        · exact Or.inl hlead
        · exact Or.inr ⟨hlead, _, htree _ rfl, hfollows⟩

theorem lead_onPropose_ {prop : Proposal} :
    (s.onPropose_ prop).rep.lead = (s.tails, prop.blk) := by
  have hlead : ∀ t : Replica T, ∀ c : Prop, [Decidable c] →
      (if c then t.notePropBlk s.id prop.blk else t).lead = t.lead := by
    intro t c _
    split
    · exact lead_notePropBlk
    · rfl
  have hkept : ∀ t : Replica T, (if t.pm.rotating then t
      else { t with pm := { t.pm with regProposals := 0 } }).lead = t.lead := by
    intro t
    split <;> rfl
  exact (hkept _).trans (hlead _ _)

end Replica

/-- `hqc_tail` follows the highest certificate. -/
structure Leads (s : Replica T) : Prop where
  tails : ∀ t ∈ s.tails, s.isBlkDelivered t = true
  follows : Ancestor s.parent s.hqc.1 s.pm.hqcTail

section

variable {s t : Replica T} {E : Env T} {fr : Frame T} {o : Outcome T}

theorem Leads.of_updateHqc (hs : Linked E s) (hl : Leads s) {h : ℕ} {qc : QuorumCert}
    (hnew : qc.objHash = h → s.hqc.2.view < qc.view → s.Followed h)
    (hup : s.updateHqc h qc = .ok t) :
    t.tails = s.tails ∧ Ancestor s.parent t.hqc.1 t.pm.hqcTail := by
  unfold Replica.updateHqc at hup
  split at hup
  · cases hup
  · rename_i hobj
    split at hup
    · rename_i hview
      dsimp only at hup
      split at hup
      · rename_i t' hupdate
        cases hup
        have hs' : Linked E { s with hqc := (h, qc) } := hs.of_sameTree (SameTree.of_eq rfl)
        obtain ⟨htails, hhqc, hiff⟩ := Replica.onHqcUpdate_ok hs' hl.tails hupdate
        rw [hhqc]
        exact ⟨htails, hiff.mpr (hnew (not_not.mp hobj) hview)⟩
      · cases hup
    · cases hup
      exact ⟨rfl, hl.follows⟩

/-- What a call keeps of this: the tails are old or delivered, and `hqc_tail` follows. -/
structure LeadsFrom (s s' : Replica T) : Prop where
  tails : ∀ k ∈ s'.tails, k ∈ s.tails ∨ s'.isBlkDelivered k = true
  follows : Ancestor s.parent s'.hqc.1 s'.pm.hqcTail

theorem LeadsFrom.of_tailsFrom {s' : Replica T} (hl : Leads s) (hhqc : s'.hqc = s.hqc)
    (htails : Replica.TailsFrom s s') : LeadsFrom s s' := by
  refine ⟨htails.2, ?_⟩
  rw [hhqc, htails.1]
  exact hl.follows

theorem LeadsFrom.of_lead {s' : Replica T} (hl : Leads s) (hhqc : s'.hqc = s.hqc)
    (hlead : s'.lead = s.lead) : LeadsFrom s s' :=
  LeadsFrom.of_tailsFrom hl hhqc (Replica.TailsFrom.of_lead hlead)

/-- A call that hands a certificate to `update_hqc` in a state with the same tree. -/
theorem LeadsFrom.of_updates (hs : Linked E s) (hl : Leads s) (htree : SameTree s t)
    (hlead : t.lead = s.lead) (hhqc : t.hqc = s.hqc) {h : ℕ} {qc : QuorumCert}
    (hup : Replica.Updates t h qc o) (herror : o.error = none)
    (hnew : qc.objHash = h → s.hqc.2.view < qc.view → s.Followed h) : LeadsFrom s o.rep := by
  obtain ⟨t', hattempt, hhqc', hlead'⟩ := hup.attempt.resolve_left (not_not.mpr herror)
  have htails : t.tails = s.tails := congrArg Prod.fst hlead
  have htail : t.pm.hqcTail = s.pm.hqcTail := congrArg Prod.snd hlead
  have hl' : Leads t := by
    constructor
    · rw [htails, htree.delivered]
      exact hl.tails
    · rw [htree.parent, hhqc, htail]
      exact hl.follows
  have hnew' : qc.objHash = h → t.hqc.2.view < qc.view → t.Followed h := by
    unfold Replica.Followed
    rw [htree.parent, htree.height, htails, htail, hhqc]
    exact hnew
  obtain ⟨htails', hfollows⟩ := hl'.of_updateHqc (hs.of_sameTree htree) hnew' hattempt
  have hsame : o.rep.tails = s.tails := (congrArg Prod.fst hlead').trans (htails'.trans htails)
  have hsame' : o.rep.pm.hqcTail = t'.pm.hqcTail := congrArg Prod.snd hlead'
  constructor
  · rw [hsame]
    exact fun k hk => Or.inl hk
  · rw [hhqc', hsame', ← htree.parent]
    exact hfollows

/-- What keeps `hqc_tail` on the branch of the highest certificate: `hqc_tail` or a higher tail
follows each certificate taken up, and each own block that becomes `hqc_tail` follows the highest
certificate. -/
structure Replica.KeepsLead (E : Env T) (s : Replica T) (fr : Frame T) : Prop where
  cert : ∀ qc, TakenUp E s fr qc → s.hqc.2.view < qc.view → s.Followed qc.objHash
  own : ∀ prop, fr = .onPropose_ prop → Ancestor s.parent s.hqc.1 prop.blk

section

variable (hs : Linked E s) (hl : Leads s)
include hs hl

theorem leadsFrom_onReceiveProposal {prop : Proposal}
    (herror : (s.onReceiveProposal prop).error = none)
    (hkeeps : s.KeepsLead E (.onReceiveProposal prop)) :
    LeadsFrom s (s.onReceiveProposal prop).rep := by
  rcases Replica.onReceiveProposal_cases (rfl : s.onReceiveProposal prop = _) with
    ⟨hchain, hlead⟩ | ⟨b, ref, qc, ⟨htrans, hfinished⟩, hb, hdel, href, hqc, hup⟩
  · exact LeadsFrom.of_lead hl (congrArg Chain.hqc hchain) hlead
  · refine LeadsFrom.of_updates hs hl (SameTree.of_eq rfl) rfl rfl hup herror fun hobj hview => ?_
    subst hobj
    exact hkeeps.cert qc (TakenUp.proposal prop b qc htrans hfinished hb hdel href hqc) hview

theorem leadsFrom_onReceiveVote {v : Vote} (herror : (s.onReceiveVote E v).error = none)
    (hkeeps : s.KeepsLead E (.onReceiveVote v)) : LeadsFrom s (s.onReceiveVote E v).rep := by
  rcases Replica.onReceiveVote_cases (rfl : s.onReceiveVote E v = _) with
    ⟨h, -⟩ | ⟨b, hview, hb, hdel, -, hvoter, ⟨-, -, -, h⟩ |
      ⟨qc, t, hadd, ⟨ht, hlead⟩, ⟨h, -⟩ | ⟨hsize, hup, -⟩⟩⟩
  · rw [h]
    exact LeadsFrom.of_lead hl rfl rfl
  · rw [h]
    exact LeadsFrom.of_lead hl rfl rfl
  · rw [h]
    exact LeadsFrom.of_lead hl (congrArg Chain.hqc ht) hlead
  · have htree : SameTree s t :=
      SameTree.of_update hb (congrArg Chain.blkCache ht) rfl rfl rfl rfl
    refine LeadsFrom.of_updates hs hl htree hlead (congrArg Chain.hqc ht) hup herror
      fun hobj hlt => ?_
    exact hobj ▸ hkeeps.cert qc (TakenUp.vote v b qc hview hb hdel hsize hvoter hadd hobj) hlt

theorem leadsFrom_onReceiveStatus {st : Status} (herror : (s.onReceiveStatus E st).error = none)
    (hkeeps : s.KeepsLead E (.onReceiveStatus st)) : LeadsFrom s (s.onReceiveStatus E st).rep := by
  rcases Replica.onReceiveStatus_cases (rfl : s.onReceiveStatus E st = _) with
    ⟨h, -⟩ | ⟨b, hview, hlast, hreceived, hb, hdel, hup⟩
  · rw [h]
    exact LeadsFrom.of_lead hl rfl rfl
  · have htree : SameTree s (s.setBlk st.qc.objHash { b with selfQc := some st.qc }) :=
      SameTree.of_update hb rfl rfl rfl rfl rfl
    have hdel' : s.isBlkDelivered st.qc.objHash = true :=
      Replica.isBlkDelivered_iff.mpr ⟨b, hb, hdel⟩
    refine LeadsFrom.of_updates hs hl htree rfl rfl hup herror fun _ hlt => ?_
    exact hkeeps.cert st.qc (TakenUp.status st hview hlast hreceived hdel') hlt

theorem leadsFrom_onReceiveQc {qc : QuorumCert} (herror : (s.onReceiveQc E qc).error = none)
    (hkeeps : s.KeepsLead E (.onReceiveQc qc)) : LeadsFrom s (s.onReceiveQc E qc).rep := by
  rcases Replica.onReceiveQc_cases (rfl : s.onReceiveQc E qc = _) with
    ⟨hchain, hlead, -⟩ | ⟨b, t, hview, hlast, hb, hdel, ⟨ht, hlead⟩, hup, -⟩
  · exact LeadsFrom.of_lead hl (congrArg Chain.hqc hchain) hlead
  · have htree : SameTree s t :=
      SameTree.of_update hb (congrArg Chain.blkCache ht) rfl rfl rfl rfl
    have hdel' : s.isBlkDelivered qc.objHash = true :=
      Replica.isBlkDelivered_iff.mpr ⟨b, hb, hdel⟩
    refine LeadsFrom.of_updates hs hl htree hlead (congrArg Chain.hqc ht) hup herror
      fun _ hlt => ?_
    exact hkeeps.cert qc (TakenUp.cert qc hview hlast hdel') hlt

theorem leadsFrom_checkAggregation {prop : Proposal} {opinion : Bool}
    (hdel : s.isBlkDelivered prop.blk = true) :
    LeadsFrom s (s.checkAggregation E prop opinion).rep := by
  have hhqc : (s.checkAggregation E prop opinion).rep.hqc = s.hqc := by
    rcases Replica.exec_hqc (s := s) (E := E) (.checkAggregation prop opinion) with h | ⟨_, h, -⟩
    · exact h
    · cases h
  rcases (Replica.lead_checkAggregation :
    (s.checkAggregation E prop opinion).rep.lead = s.lead ∨ _) with
    hlead | ⟨hlead, t, htree, hfollows⟩
  · exact LeadsFrom.of_lead hl hhqc hlead
  · have htails : (s.checkAggregation E prop opinion).rep.tails = s.tails := congrArg Prod.fst hlead
    have htail : (s.checkAggregation E prop opinion).rep.pm.hqcTail = prop.blk :=
      congrArg Prod.snd hlead
    have hdel' : t.isBlkDelivered prop.blk = true := htree.delivered ▸ hdel
    constructor
    · rw [htails]
      exact fun k hk => Or.inl hk
    · rw [htail, hhqc, ← htree.parent]
      exact (Replica.checkAncestry_ok (hs.of_sameTree htree) hdel' hfollows).mp rfl

theorem leads_exec (hkeeps : s.KeepsLead E fr) (herror : (s.exec E fr).error = none)
    (hdel : ∀ prop opinion, fr = .checkAggregation prop opinion → s.isBlkDelivered prop.blk = true) :
    Leads (s.exec E fr).rep := by
  have hfrom : LeadsFrom s (s.exec E fr).rep := by
    have hhqc : (∀ qc, ¬ TakenUp E s fr qc) → (s.exec E fr).rep.hqc = s.hqc := by
      intro hnone
      rcases Replica.exec_hqc (s := s) (E := E) fr with h | ⟨qc, h, -⟩
      · exact h
      · exact absurd h (hnone qc)
    by_cases hc : fr.ChangesLead
    · cases fr <;> try exact False.elim hc
      case onDeliverBlk =>
        exact LeadsFrom.of_tailsFrom hl (hhqc nofun) Replica.tailsFrom_onDeliverBlk
      case onReceiveProposalEcho =>
        exact LeadsFrom.of_tailsFrom hl (hhqc nofun) Replica.tailsFrom_onReceiveProposalEcho
      case doPropose => exact LeadsFrom.of_tailsFrom hl (hhqc nofun) Replica.tailsFrom_doPropose
      case onReceiveProposal => exact leadsFrom_onReceiveProposal hs hl herror hkeeps
      case onReceiveVote => exact leadsFrom_onReceiveVote hs hl herror hkeeps
      case onReceiveStatus => exact leadsFrom_onReceiveStatus hs hl herror hkeeps
      case onReceiveQc => exact leadsFrom_onReceiveQc hs hl herror hkeeps
      case checkAggregation prop opinion =>
        exact leadsFrom_checkAggregation hs hl (hdel prop opinion rfl)
      case onPropose_ prop =>
        have hlead : (s.exec E (.onPropose_ prop)).rep.lead = (s.tails, prop.blk) :=
          Replica.lead_onPropose_
        have htails : (s.exec E (.onPropose_ prop)).rep.tails = s.tails := congrArg Prod.fst hlead
        have htail : (s.exec E (.onPropose_ prop)).rep.pm.hqcTail = prop.blk :=
          congrArg Prod.snd hlead
        constructor
        · rw [htails]
          exact fun k hk => Or.inl hk
        · rw [htail, hhqc nofun]
          exact hkeeps.own prop rfl
    · refine LeadsFrom.of_lead hl (hhqc fun qc h => ?_) (Replica.exec_lead hc)
      cases h <;> exact hc trivial
  constructor
  · intro k hk
    rcases hfrom.tails k hk with hold | hnew
    · exact (Replica.exec_delivered fr (hl.tails k hold)).1
    · exact hnew
  · exact hfrom.follows.mono fun _ _ hp => parent_exec fr hp

end

end

/-! ## Blocks and their hashes -/

/-- Every block in the cache but the genesis block has the hash of its content. -/
def Hashed (E : Env T) (s : Replica T) : Prop :=
  ∀ h b, s.blkCache h = some b → h ≠ E.genesis → E.hash b.content = h

section

variable {E : Env T} {s t : Replica T} {fr : Frame T}

theorem hashed_init (i : ℕ) : Hashed E (E.init i) := by
  intro h b hb hne
  exact absurd (Env.blkCache_init hb).1 hne

theorem hashed_exec (hs : Hashed E s) : Hashed E (s.exec E fr).rep := by
  intro h b' hb' hne
  obtain ⟨b, horigin, hsteps⟩ := (Replica.exec_evolves fr).origin hb'
  rw [(le_of_changes hsteps).content]
  rcases horigin with hb | hadd
  · exact hs h b hb hne
  · cases hadd with
    | message _ _ c _ hh => exact hh.symm
    | decoded _ p _ hh => exact hh.symm
    | own _ _ _ hh => exact hh.symm

/-- Two replicas that have delivered a block agree on its parent. -/
theorem parent_of_delivered (hhash : Function.Injective E.hash) (hs : Linked E s)
    (hs' : Hashed E s) (ht : Linked E t) (ht' : Hashed E t) {h p : ℕ} (hp : s.parent h = some p)
    (hdel : t.isBlkDelivered h = true) : t.parent h = some p := by
  obtain ⟨hdels, -, -, hne⟩ := hs.parent_eq_some hp
  obtain ⟨b, hb, hdelb⟩ := Replica.isBlkDelivered_iff.mp hdels
  obtain ⟨c, hc, hdelc⟩ := Replica.isBlkDelivered_iff.mp hdel
  have hcontent : b.content = c.content := hhash ((hs' h b hb hne).trans (ht' h c hc hne).symm)
  have hhashes : b.parentHashes = c.parentHashes := congrArg BlockContent.parentHashes hcontent
  obtain ⟨p₁, ps₁, hparents₁, hb₁, -⟩ := hs.parent h b hb hdelb hne
  obtain ⟨p₂, ps₂, hparents₂, hc₂, -⟩ := ht.parent h c hc hdelc hne
  have hsame : p₁ :: ps₁ = p₂ :: ps₂ := hb₁.symm.trans (hhashes.trans hc₂)
  unfold Replica.parent at hp ⊢
  rw [hb] at hp
  rw [hc]
  simp only [hdelb, if_true, hparents₁] at hp
  simp only [hdelc, if_true, hparents₂, ← hsame]
  exact hp

theorem ancestor_of_delivered (hhash : Function.Injective E.hash) (hs : Linked E s)
    (hs' : Hashed E s) (ht : Linked E t) (ht' : Hashed E t) {a h : ℕ}
    (hanc : Ancestor s.parent a h) (hdel : t.isBlkDelivered h = true) :
    Ancestor t.parent a h := by
  induction hanc with
  | refl => exact Ancestor.refl _ _
  | tail _ hp ih =>
    have hdel' := ht.delivered_ancestor hdel ih
    exact (Ancestor.single (parent_of_delivered hhash hs hs' ht ht' hp hdel')).trans ih

namespace Replica

theorem delivered_of_deliverBlk {h : ℕ} {s' : Replica T} (hr : s.deliverBlk h = .ok s') :
    s'.isBlkDelivered h = true := by
  unfold deliverBlk at hr
  split at hr
  · cases hr
  · rename_i b hb
    split at hr
    · rename_i hdel
      cases hr
      exact isBlkDelivered_iff.mpr ⟨b, hb, hdel⟩
    · dsimp only at hr
      split at hr
      · cases hr
      · split at hr
        · cases hr
        · split at hr
          · cases hr
          · cases hr
            unfold isBlkDelivered
            rw [blkCache_insertTail, blkCache_foldl_eraseTail, blkCache_setBlk,
              Function.update_self]

/-- A block that is delivered before other calls are made. -/
theorem delivered_of_andThen {h : ℕ} {k : Replica T → Outcome T}
    (hk : ∀ r, (k r).rep.blkCache = r.blkCache) (hcalls : ((s.deliverBlk h).andThen k).calls ≠ []) :
    ((s.deliverBlk h).andThen k).rep.isBlkDelivered h = true := by
  rcases calls_andThen (s.deliverBlk h) k with hnone | ⟨s', hs', -⟩
  · exact absurd hnone hcalls
  · rw [hs', Attempt.andThen, (SameTree.of_eq (hk s')).delivered]
    exact delivered_of_deliverBlk hs'

theorem delivered_of_proposes (h : (s.doPropose E).calls ≠ []) :
    (s.doPropose E).rep.isBlkDelivered (E.hash s.ownContent) = true := by
  unfold doPropose at h ⊢
  split
  · rename_i hguard
    rw [if_pos hguard] at h
    exact absurd rfl h
  · rename_i hguard
    rw [if_neg hguard] at h
    unfold onPropose at h ⊢
    split
    · rename_i htrans
      rw [if_pos htrans] at h
      exact absurd rfl h
    · rename_i htrans
      rw [if_neg htrans] at h
      exact delivered_of_andThen (fun r => by dsimp only; split <;> rfl) h

/-- The block that `do_propose` makes is on top of `hqc_tail`. -/
theorem parent_doPropose (hhash : Function.Injective E.hash) (hs : Linked E s) (hs' : Hashed E s)
    (h : (s.doPropose E).calls ≠ []) :
    (s.doPropose E).rep.parent (E.hash s.ownContent) = some s.pm.hqcTail := by
  have hdel := delivered_of_proposes h
  have ht : Linked E (s.exec E .doPropose).rep := linked_exec hs
  have ht' : Hashed E (s.exec E .doPropose).rep := hashed_exec hs'
  have hne : E.hash s.ownContent ≠ E.genesis := by
    intro heq
    have hcontent := congrArg BlockContent.parentHashes (hhash heq)
    cases hcontent
  obtain ⟨b, hb, hdelb⟩ := isBlkDelivered_iff.mp hdel
  have hcontent : b.content = s.ownContent := hhash (ht' _ b hb hne)
  obtain ⟨p, ps, hparents, hhashes, -⟩ := ht.parent _ b hb hdelb hne
  have hcons : p :: ps = [s.pm.hqcTail] :=
    hhashes.symm.trans (congrArg BlockContent.parentHashes hcontent)
  unfold Replica.parent
  rw [hb]
  simp only [hdelb, if_true, hparents, hcons, List.head?_cons]

end Replica

end

/-! ## Runs -/

theorem leads_init (E : Env T) (i : ℕ) : Leads (E.init i) where
  tails := by
    intro t ht
    rw [List.mem_singleton.mp ht]
    exact (linked_init i).delivered_genesis
  follows := Ancestor.refl _ _

namespace System

variable {E : Env T} {F : Faults T} {ok : System T → ℕ → Frame T → Prop} {σ : System T}

/-- What replica `i` runs next keeps `hqc_tail` on the branch of the highest certificate. -/
def KeepsLead (E : Env T) (σ : System T) (i : ℕ) (fr : Frame T) : Prop :=
  (σ.nodes i).rep.KeepsLead E fr

theorem Run.hashed (h : Run E F ok σ) (i : ℕ) : Hashed E (σ.nodes i).rep := by
  refine h.node_induction (I := fun _ x => Hashed E x.rep) (fun i => hashed_init i) ?_ ?_ i
  · exact fun i x ev hx _ _ => hx
  · intro σ i fr stack _ _ _ hx _
    rw [Node.rep_after]
    exact hashed_exec hx

/-- The block of a proposal whose aggregate is still to be checked is delivered. -/
theorem Run.delivered_of_checkAggregation (h : Run E F ok σ) {i : ℕ} {prop : Proposal}
    {opinion : Bool} (hmem : .checkAggregation prop opinion ∈ (σ.nodes i).stack) :
    (σ.nodes i).rep.isBlkDelivered prop.blk = true := by
  revert hmem
  refine h.node_induction (I := fun _ x => .checkAggregation prop opinion ∈ x.stack →
    x.rep.isBlkDelivered prop.blk = true) ?_ ?_ ?_ i
  · exact fun i hmem => absurd hmem List.not_mem_nil
  · intro i x ev _ _ _ hmem
    cases ev <;> cases List.mem_singleton.mp hmem
  · intro σ i fr stack _ _ _ hx hstack hmem
    rw [Node.rep_after]
    refine (Replica.exec_delivered fr ?_).1
    rcases Node.mem_stack_after hmem with hcall | hold
    · cases Replica.calls_exec hcall with
      | other _ _ _ hdeferred => exact absurd trivial hdeferred
      | taken =>
        obtain ⟨-, b, hb, hdel⟩ := Replica.takes_of_calls hcall
        exact Replica.isBlkDelivered_iff.mpr ⟨b, hb, hdel⟩
    · refine hx ?_
      rw [hstack]
      exact List.mem_cons_of_mem fr hold

/-- `hqc_tail` follows the highest certificate as long as the replica has not thrown. -/
theorem Run.leads (h : Run E F (KeepsLead E) σ) {i : ℕ} (hcrashed : (σ.nodes i).crashed = none) :
    Leads (σ.nodes i).rep := by
  revert hcrashed
  refine h.node_induction (I := fun _ x => x.crashed = none → Leads x.rep) ?_ ?_ ?_ i
  · exact fun i _ => leads_init E i
  · exact fun i x ev hx _ _ hcrashed => hx hcrashed
  · intro σ i fr stack hrun _ hkeeps hx hstack hcrashed
    rw [Node.crashed_after] at hcrashed
    rw [Node.rep_after]
    refine leads_exec (hrun.linked i) (hx (hrun.crashed_eq_none hstack)) hkeeps hcrashed ?_
    rintro prop opinion rfl
    exact hrun.delivered_of_checkAggregation (hstack ▸ List.mem_cons_self)

/-- What holds in every state of the runs holds in every state that a replica was in. -/
theorem Run.of_visited {P : Replica T → Prop} (hP : ∀ σ, Run E F ok σ → ∀ i, P (σ.nodes i).rep)
    (h : Run E F ok σ) {i : ℕ} {s : Replica T} (hs : σ.Visited i s) : P s := by
  rcases hs with rfl | ⟨e, he, rfl, rfl⟩
  · exact hP σ h i
  · obtain ⟨σ', stack, hrun, -, -, hrep, -⟩ := h.exists_of_mem_trace he
    exact hrep ▸ hP σ' hrun e.node

/-- If `hqc_tail` or a higher tail follows every certificate that is taken up, then every block
that a replica proposes follows its highest certificate, and passes the same-branch test of each
replica whose highest certificate is for the block or for an ancestor of it. -/
theorem proposals_follow (E : Env T) (F : Faults T) (hhash : Function.Injective E.hash)
    (σ : System T) (h : Run E F (KeepsLead E) σ) (i : ℕ) (e : Executed T) (he : e ∈ σ.history i)
    (prop : Proposal) (hprop : .onPropose_ prop ∈ (e.outcome E).calls) :
    Ancestor (e.outcome E).rep.parent e.rep.hqc.1 prop.blk ∧
    ∀ j s, σ.Visited j s → s.isBlkDelivered prop.blk = true →
      Ancestor (e.outcome E).rep.parent s.hqc.1 prop.blk →
      s.branchAt s.hqc.1 prop.blk = .ok s.hqc.1 := by
  obtain ⟨he, -⟩ := mem_history.mp he
  obtain ⟨σ', stack, hrun, -, -, hrep, hstack, -⟩ := h.exists_of_mem_trace he
  have hlinked := hrun.linked e.node
  have hhashed := hrun.hashed e.node
  have hleads := hrun.leads (hrun.crashed_eq_none hstack)
  rw [hrep] at hlinked hhashed hleads
  have hcalls : Calls E e.rep e.frame (.onPropose_ prop) := Replica.calls_exec hprop
  rw [Executed.outcome] at hprop ⊢
  generalize e.frame = fr at hprop hcalls ⊢
  cases hcalls with
  | other _ _ _ hdeferred => exact absurd trivial hdeferred
  | notes hproposes =>
    have hparent := Replica.parent_doPropose hhash hlinked hhashed (List.ne_nil_of_mem hprop)
    have hfollows : Ancestor (e.rep.exec E .doPropose).rep.parent e.rep.hqc.1 e.rep.pm.hqcTail :=
      hleads.follows.mono fun _ _ hp => parent_exec .doPropose hp
    refine ⟨hfollows.trans (Ancestor.single hparent), ?_⟩
    intro j s hs hdel hanc
    have hs' : Linked E s := h.of_visited (fun _ hrun i => hrun.linked i) hs
    have hs'' : Hashed E s := h.of_visited (fun _ hrun i => hrun.hashed i) hs
    have hanc' := ancestor_of_delivered hhash (linked_exec hlinked) (hashed_exec hhashed) hs' hs''
      hanc hdel
    exact (hs'.branchAt_iff (hs'.delivered_ancestor hdel hanc') hdel).mpr hanc'

/-- Whether replica `i` knows a certificate for block `h` of the given view, or a higher one, or
has the block as its `hqc_tail`. -/
def leadsTo (σ : System plainTypes) (i h view : ℕ) : Bool :=
  decide (view ≤ (σ.nodes i).rep.hqc.2.view) || (σ.nodes i).rep.pm.hqcTail == h

/-- Whether a call takes up only certificates for `hqc_tail`, and makes only a child of the
certified block `hqc_tail`. -/
def keepsLead (σ : System plainTypes) (i : ℕ) : Frame plainTypes → Bool
  | .onReceiveProposal prop =>
    ((σ.nodes i).rep.blkCache prop.blk).all fun b : Block plainTypes =>
      b.qc.all fun qc : QuorumCert => leadsTo σ i qc.objHash qc.view
  | .onReceiveQc qc => leadsTo σ i qc.objHash qc.view
  | .onReceiveVote v =>
    ((σ.nodes i).rep.blkCache v.blkHash).all (fun b : Block plainTypes =>
      b.voted.length + 1 != twoEnv.config.nresponsive) || (σ.nodes i).rep.pm.hqcTail == v.blkHash
  | .onReceiveStatus st => leadsTo σ i st.qc.objHash st.qc.view
  | .onPropose_ prop => (σ.nodes i).rep.parent prop.blk == some (σ.nodes i).rep.hqc.1
  | _ => true

theorem followed_of_leadsTo {σ : System plainTypes} {i h view : ℕ} (hleads : leadsTo σ i h view)
    (hview : (σ.nodes i).rep.hqc.2.view < view) : (σ.nodes i).rep.Followed h := by
  rcases Bool.or_eq_true_iff.mp hleads with hle | htail
  · exact absurd (of_decide_eq_true hle) (not_le.mpr hview)
  · rw [← beq_iff_eq.mp htail]
    exact Or.inl (Ancestor.refl _ _)

theorem keepsLead_of_check {σ : System plainTypes} {i : ℕ} {fr : Frame plainTypes}
    (h : keepsLead σ i fr = true) : KeepsLead twoEnv σ i fr := by
  constructor
  · intro qc htaken hview
    cases htaken with
    | proposal prop b _ _ _ hb _ _ hqc =>
      simp only [keepsLead, hb, Option.all_some, hqc] at h
      exact followed_of_leadsTo h hview
    | cert => exact followed_of_leadsTo h hview
    | vote v b _ _ hb _ hsize _ _ hobj =>
      simp only [keepsLead, hb, Option.all_some, Bool.or_eq_true, bne_iff_ne, beq_iff_eq] at h
      rw [hobj, ← h.resolve_left (not_not.mpr hsize)]
      exact Or.inl (Ancestor.refl _ _)
    | status => exact followed_of_leadsTo h hview
  · rintro prop rfl
    exact Ancestor.single (beq_iff_eq.mp h)

/-- Whether a call makes a proposal on a certificate of view `1`. -/
def makesProposal (e : Executed plainTypes) : Bool :=
  e.rep.hqc.2.view == 1 && (e.outcome twoEnv).calls.any fun fr =>
    match fr with
    | .onPropose_ _ => true
    | _ => false

theorem exists_of_makesProposal {e : Executed plainTypes} (h : makesProposal e = true) :
    e.rep.hqc.2.view = 1 ∧ ∃ prop, .onPropose_ prop ∈ (e.outcome twoEnv).calls := by
  rw [makesProposal, Bool.and_eq_true, beq_iff_eq] at h
  refine ⟨h.1, ?_⟩
  obtain ⟨fr, hfr, htest⟩ := List.any_eq_true.mp h.2
  split at htest
  · exact ⟨_, hfr⟩
  · cases htest

/-- Replica `1` takes up the certificate of view `1`, and proposes in view `2`. -/
theorem proposals_follow_second : ∃ σ : System plainTypes, ∃ e ∈ σ.history 1, e.rep.hqc.2.view = 1 ∧
    ∃ prop, .onPropose_ prop ∈ (e.outcome twoEnv).calls ∧
      Ancestor (e.outcome twoEnv).rep.parent e.rep.hqc.1 prop.blk ∧
      ∀ j s, σ.Visited j s → s.isBlkDelivered prop.blk = true →
        Ancestor (e.outcome twoEnv).rep.parent s.hqc.1 prop.blk →
        s.branchAt s.hqc.1 prop.blk = .ok s.hqc.1 := by
  obtain ⟨σ, hrun, htest⟩ := exists_of_play twoEnv noFaults keepsLead
    (fun _ _ _ => keepsLead_of_check) twoViews
    (fun σ => (σ.history 1).any makesProposal) (by decide +kernel)
  obtain ⟨e, he, hmakes⟩ := List.any_eq_true.mp htest
  obtain ⟨hview, prop, hprop⟩ := exists_of_makesProposal hmakes
  exact ⟨σ, e, he, hview, prop, hprop,
    proposals_follow twoEnv _ contentCode_injective σ hrun 1 e he prop hprop⟩

/-! ## Two branches -/

/-- A block on top of the second one. -/
def rightChild : BlockContent plainTypes :=
  { firstBlock with parentHashes := [voteEnv.hash secondBlock] }

/-- The certificate for a block with the signatures of all replicas. -/
def fullCert (h view : ℕ) : QuorumCert :=
  let cert := (List.range 3).foldlM (fun (qc : QuorumCert) i =>
    qc.addPart i (createPartCert i h view)) (QuorumCertSecp256k1.create h view)
  cert.toOption.getD (QuorumCertSecp256k1.create h view)

/-- Replicas `1` and `2` vote for the first block, and replica `1` also for the child of the second
one. Replica `0` shows the certificate for the first block to replica `1`, which enters view `2` and
proposes. -/
def twoBranches : List (Scripted plainTypes) :=
  [.inject 0 1 (.propose ⟨0, firstBlock, 1⟩), .inject 0 2 (.propose ⟨0, firstBlock, 1⟩),
    .inject 0 1 (.propose ⟨0, rightChild, 1⟩), .inject 0 1 (.respBlock [secondBlock]),
    .inject 0 1 (.qc (fullCert (voteEnv.hash firstBlock) 1)), .verify 1,
    .inject 0 1 (.share ⟨0, 1, ((0, 11) : ℕ × ℕ)⟩), .inject 0 1 (.share ⟨2, 1, ((2, 11) : ℕ × ℕ)⟩),
    .timer 1]

/-- Whether a call makes a proposal that is not on the branch of the highest certificate. -/
def proposesOff (e : Executed plainTypes) : Bool :=
  (e.outcome voteEnv).calls.any fun fr =>
    match fr with
    | .onPropose_ prop => (e.outcome voteEnv).rep.isBlkDelivered prop.blk &&
      match (e.outcome voteEnv).rep.branchAt e.rep.hqc.1 prop.blk with
      | .ok r => r != e.rep.hqc.1
      | .error _ => false
    | _ => false

/-- The certificate is that of the first block, `hqc_tail` stays with the child of the second one,
and so replica `1` proposes a block that does not follow its highest certificate. -/
theorem proposal_off_branch : ∃ σ : System plainTypes, Reachable voteEnv firstByzantine σ ∧
    Honest voteEnv firstByzantine 1 ∧ ∃ e ∈ σ.history 1, ∃ prop,
      .onPropose_ prop ∈ (e.outcome voteEnv).calls ∧
        ¬ Ancestor (e.outcome voteEnv).rep.parent e.rep.hqc.1 prop.blk := by
  obtain ⟨σ, hrun, htest⟩ := exists_reachable_of_play voteEnv firstByzantine twoBranches
    (fun σ => (σ.history 1).any proposesOff) (by decide +kernel)
  obtain ⟨e, he, hoff⟩ := List.any_eq_true.mp htest
  obtain ⟨fr, hfr, hoff⟩ := List.any_eq_true.mp hoff
  refine ⟨σ, hrun, by decide, e, he, ?_⟩
  split at hoff
  · rename_i prop
    obtain ⟨hdel, hbranch⟩ := Bool.and_eq_true_iff.mp hoff
    split at hbranch
    · rename_i r hr
      obtain ⟨σ', stack, hrun', -, -, hrep, -⟩ := hrun.exists_of_mem_trace (mem_history.mp he).1
      have hlinked : Linked voteEnv e.rep := hrep ▸ hrun'.linked e.node
      refine ⟨prop, hfr, fun hanc => ?_⟩
      have heq := ((linked_exec hlinked).eq_iff_of_branchAt hdel hr).mpr hanc
      exact bne_iff_ne.mp hbranch heq
    · cases hbranch
  · cases hoff

end System

end OptRand.Hotstuff
