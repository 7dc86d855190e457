import OptRand.Hotstuff.Agenda
import OptRand.Hotstuff.HighTail
import OptRand.Hotstuff.Waiting

/-!
# Deliveries and those who wait for them

`async_deliver_blk(h)` returns a promise of `blk_delivery_waiting`, which
`HotStuffBase::on_deliver_blk` resolves when it delivers `h`. Blocks are also delivered by
`HotStuffCore` alone: the one decoded from echoes, and the own proposal. A block that is waited
for and delivered in this way keeps its promise unresolved, since `HotStuffBase::on_deliver_blk`
returns when the block is delivered.

In the runs without such a delivery no wake-up is lost (`System.deliveries_wake`). Whatever the
run, a `promise::all` that waits for a delivery waits for an entry of `blk_delivery_waiting`, or
its callback is on the stack (`System.Run.pledged`).
-/

namespace OptRand.Hotstuff

open Lib Relation

variable {T : PayloadTypes}

/-- The call `fr` in the state `s` delivers block `h` without `HotStuffBase::on_deliver_blk`. -/
inductive Bypasses (E : Env T) (s : Replica T) : Frame T → ℕ → Prop
  | decoded (e : Echo T) (p : ProposalContent T) (hdecodes : s.decodes E .proposal e = true)
      (hp : s.decodedBy E e = .ok p) : Bypasses E s (.onReceiveProposalEcho e) (E.hash p.blk)
  | own (hproposes : s.Proposes) : Bypasses E s .doPropose (E.hash s.ownContent)

/-- A callback of the promise `c` in the `promise::all` numbered `id`. -/
def Frame.notices (id : ℕ) (c : Cond) : Frame T → Bool
  | .notify id' c' => id' == id && c' == c
  | _ => false

/-- The calls that change the promises that wait. -/
def Frame.ChangesPendings : Frame T → Prop
  | .gather _ _ _ _ | .startDelivery _ _ | .notify _ _ => True
  | _ => False

namespace Replica

variable {s : Replica T} {E : Env T} {fr : Frame T}

/-! ## What changes the promises -/

theorem exec_pendings (hc : ¬ fr.ChangesPendings) : (s.exec E fr).rep.pendings = s.pendings := by
  rw [exec_patch]
  cases fr <;> first | rfl | exact absurd trivial hc

/-- A block that is delivered after a call was so before, or is one that the call delivers. -/
theorem exec_delivers (fr : Frame T) {h : ℕ} (hdel : (s.exec E fr).rep.isBlkDelivered h = true) :
    s.isBlkDelivered h = true ∨ fr = .onDeliverBlk h ∨ Bypasses E s fr h := by
  obtain ⟨b', hb', hdel'⟩ := isBlkDelivered_iff.mp hdel
  obtain ⟨b, horigin, hsteps⟩ := (exec_evolves fr).origin hb'
  rcases delivered_of_changes hsteps hdel' with hold | hdelivers
  · rcases horigin with hb | hadd
    · exact Or.inl (isBlkDelivered_iff.mpr ⟨b, hb, hold⟩)
    · cases hadd <;> cases hold
  · cases hdelivers with
    | waited => exact Or.inr (Or.inl rfl)
    | own hproposes => exact Or.inr (Or.inr (Bypasses.own hproposes))
    | decoded e p hp =>
      by_cases hdecodes : s.decodes E .proposal e = true
      · exact Or.inr (Or.inr (Bypasses.decoded e p hdecodes hp))
      · left
        have hchain : (s.onReceiveProposalEcho E e).rep.chain = s.chain := by
          rcases onReceiveProposalEcho_eq (s := s) (E := E) e with ⟨-, h⟩ | ⟨-, -, h⟩ | ⟨h, -⟩
          · rw [h]
            rfl
          · rw [h]
            rfl
          · exact absurd h hdecodes
        have hcache : (s.onReceiveProposalEcho E e).rep.blkCache = s.blkCache :=
          congrArg Chain.blkCache hchain
        rw [exec, hcache] at hb'
        exact isBlkDelivered_iff.mpr ⟨b', hb', hdel'⟩

/-- A call that starts a delivery is the first of its caller, which leaves the state as it is. -/
theorem startDelivery_of_calls {h peer : ℕ} (hcall : .startDelivery h peer ∈ (s.exec E fr).calls) :
    (s.exec E fr).rep = s ∧ s.isBlkDelivered h = false ∧
      ∃ hs conds wait, (s.exec E fr).calls = [.startDelivery h peer, .gather hs peer conds wait] := by
  cases schedules_exec hcall with
  | other _ _ hother => exact absurd trivial hother
  | waited _ hs _ conds wait hnew hwait =>
    rw [exec, gather, if_neg (by simp [hnew]), if_neg hwait]
    exact ⟨rfl, hnew, hs, _, wait, rfl⟩

theorem startDelivery_notMem_tail {h peer : ℕ} :
    .startDelivery h peer ∉ (s.exec E fr).calls.tail := by
  intro hmem
  obtain ⟨-, -, hs, conds, wait, heq⟩ := startDelivery_of_calls (List.mem_of_mem_tail hmem)
  rw [heq] at hmem
  cases List.mem_singleton.mp hmem

/-- What is waited for after a call has been asked for by it, or was waited for before it. -/
theorem waited_exec {h : ℕ} (hmem : h ∈ (s.exec E fr).rep.blkDeliveryWaiting)
    (herror : (s.exec E fr).error = none) : (∃ peer, fr = .startDelivery h peer) ∨
      (h ∈ s.blkDeliveryWaiting ∧ (fr = .onDeliverBlk h → (s.exec E fr).rep = s)) := by
  by_cases hdeliver : ∃ k, fr = .onDeliverBlk k
  · right
    obtain ⟨k, rfl⟩ := hdeliver
    rcases onDeliverBlk_cases (rfl : s.onDeliverBlk k = _) with
      ⟨hrep, -⟩ | herror' | ⟨-, ⟨s', -, hrep⟩, -⟩
    · rw [exec, hrep] at hmem ⊢
      exact ⟨hmem, fun _ => rfl⟩
    · exact absurd herror herror'
    · rw [exec, hrep] at hmem
      obtain ⟨hmem, hne⟩ := List.mem_filter.mp hmem
      rw [decide_eq_true_iff] at hne
      exact ⟨hmem, fun heq => absurd (Frame.onDeliverBlk.inj heq).symm hne⟩
  · have hnot : fr ≠ .onDeliverBlk h := fun heq => hdeliver ⟨h, heq⟩
    by_cases hstart : ∃ k peer, fr = .startDelivery k peer
    · obtain ⟨k, peer, rfl⟩ := hstart
      have hwaiting : (s.startDelivery k peer).rep.blkDeliveryWaiting =
          k :: s.blkDeliveryWaiting := congrArg Prod.fst agenda_startDelivery
      rw [exec, hwaiting] at hmem
      rcases List.mem_cons.mp hmem with rfl | hmem
      · exact Or.inl ⟨peer, rfl⟩
      · exact Or.inr ⟨hmem, fun heq => absurd heq hnot⟩
    · rw [exec_blkDeliveryWaiting (fun k peer heq => hstart ⟨k, peer, heq⟩)
        fun k heq => hdeliver ⟨k, heq⟩] at hmem
      exact Or.inr ⟨hmem, fun heq => absurd heq hnot⟩

/-! ## What `promise::all` waits for -/

/-- A `promise::all` is formed of promises that are unresolved. -/
theorem pendings_all {conds : List Cond} {wait : Wait T} {p : Pending T}
    (hp : p ∈ (s.all E conds wait).rep.pendings) {h : ℕ} (hc : .delivered h ∈ p.conds) :
    p ∈ s.pendings ∨ h ∈ s.blkDeliveryWaiting := by
  unfold all at hp
  split at hp
  · exact Or.inl hp
  · rename_i result pooled _
    have hveri : .delivered h ∉ if pooled then [Cond.veri] else [] := by
      cases pooled <;> simp
    generalize (if pooled then [Cond.veri] else []) = veri at hp hveri
    dsimp only at hp
    split at hp
    · exact Or.inl hp
    · rcases List.mem_append.mp hp with hp | hp
      · exact Or.inl hp
      · right
        rw [List.mem_singleton.mp hp] at hc
        rcases List.mem_append.mp hc with hc | hc
        · simpa [unresolved] using (List.mem_filter.mp hc).2
        · exact absurd hc hveri

theorem pendings_gather {hs : List ℕ} {peer : ℕ} {conds : List Cond} {wait : Wait T} {p : Pending T}
    (hp : p ∈ (s.gather E hs peer conds wait).rep.pendings) {h : ℕ} (hc : .delivered h ∈ p.conds) :
    p ∈ s.pendings ∨ h ∈ s.blkDeliveryWaiting := by
  unfold gather at hp
  split at hp
  · exact pendings_all hp hc
  · repeat' split at hp
    all_goals exact Or.inl hp

/-- The fetch that starts a delivery waits for no delivery. -/
theorem pendings_startDelivery {k peer : ℕ} {p : Pending T}
    (hp : p ∈ (s.startDelivery k peer).rep.pendings) {h : ℕ} (hc : .delivered h ∈ p.conds) :
    p ∈ s.pendings := by
  have hfetch : ∀ t : Replica T, (t.asyncFetchBlk k (some peer)).1.pendings = t.pendings ∧
      .delivered h ∉ (t.asyncFetchBlk k (some peer)).2.2 := by
    intro t
    unfold asyncFetchBlk
    split
    · exact ⟨rfl, List.not_mem_nil⟩
    · refine ⟨rfl, fun hmem => ?_⟩
      cases List.mem_singleton.mp hmem
  obtain ⟨hpendings, hconds⟩ := hfetch { s with blkDeliveryWaiting := k :: s.blkDeliveryWaiting }
  unfold startDelivery at hp
  dsimp only at hp
  split at hp
  · rw [rep_emit, hpendings] at hp
    exact hp
  · rcases List.mem_append.mp hp with hp | hp
    · rw [hpendings] at hp
      exact hp
    · rw [List.mem_singleton.mp hp] at hc
      exact absurd hc hconds

/-- A callback takes one occurrence of its promise from the `promise::all` it is for. -/
theorem pendings_notify {id : ℕ} {c : Cond} {p : Pending T} (hp : p ∈ (s.notify id c).rep.pendings) :
    (p.id ≠ id ∧ p ∈ s.pendings) ∨
      (p.id = id ∧ ∃ q ∈ s.pendings, q.id = id ∧ p.conds = q.conds.erase c) := by
  unfold notify at hp
  split at hp
  · rename_i hnone
    left
    have hne := List.find?_eq_none.mp hnone p hp
    exact ⟨by simpa using hne, hp⟩
  · dsimp only at hp
    split at hp
    · left
      obtain ⟨hp, hne⟩ := List.mem_filter.mp hp
      exact ⟨by simpa using hne, hp⟩
    · obtain ⟨q, hq, rfl⟩ := List.mem_map.mp hp
      split
      · rename_i hid
        exact Or.inr ⟨hid, q, hq, hid, rfl⟩
      · rename_i hid
        exact Or.inl ⟨hid, hq⟩

/-- A promise that is resolved has a callback for each of its occurrences. -/
theorem count_le_resolve {c : Cond} {p : Pending T} (hp : p ∈ s.pendings) :
    p.conds.count c ≤ (s.resolve c).calls.countP (Frame.notices p.id c) := by
  have hsub : List.Sublist (List.replicate (p.conds.count c) (.notify p.id c))
      (s.resolve c).calls := List.sublist_flatten_of_mem (List.mem_map_of_mem hp)
  have hle := hsub.countP_le (p := Frame.notices p.id c)
  rw [List.countP_replicate] at hle
  simpa [Frame.notices] using hle

end Replica

/-! ## Runs -/

namespace System

variable {E : Env T} {F : Faults T} {ok : System T → ℕ → Frame T → Prop} {σ : System T}

/-- A `promise::all` that waits for a delivery waits for one that has been asked for, unless its
callbacks are about to run. -/
def Pledged (s : Replica T) (stack : List (Frame T)) : Prop :=
  ∀ p ∈ s.pendings, ∀ h, .delivered h ∈ p.conds →
    h ∈ s.blkDeliveryWaiting ∨ .resolve (.delivered h) ∈ stack ∨
      p.conds.count (.delivered h) ≤ stack.countP (Frame.notices p.id (.delivered h))

/-- Block `h` has been asked for, or `n` callbacks of it in the `promise::all` numbered `id` are
about to run. -/
def Due (s : Replica T) (stack : List (Frame T)) (h id n : ℕ) : Prop :=
  h ∈ s.blkDeliveryWaiting ∨ .resolve (.delivered h) ∈ stack ∨
    n ≤ stack.countP (Frame.notices id (.delivered h))

section

variable {s s' : Replica T} {fr : Frame T} {calls stack : List (Frame T)} {h id n k : ℕ}

/-- A call that is not about a promise leaves its callbacks on the stack. -/
theorem Due.rest (hx : Due s (fr :: stack) h id n)
    (hwaiting : h ∈ s.blkDeliveryWaiting → h ∈ s'.blkDeliveryWaiting)
    (hresolve : fr ≠ .resolve (.delivered h)) (hnotify : fr.notices id (.delivered h) = false) :
    Due s' (calls ++ stack) h id n := by
  rcases hx with hmem | hmem | hle
  · exact Or.inl (hwaiting hmem)
  · rcases List.mem_cons.mp hmem with heq | hmem
    · exact absurd heq.symm hresolve
    · exact Or.inr (Or.inl (List.mem_append_right _ hmem))
  · rw [List.countP_cons_of_neg (by rw [hnotify]; exact Bool.false_ne_true)] at hle
    rw [Due, List.countP_append]
    exact Or.inr (Or.inr (hle.trans (Nat.le_add_left _ _)))

/-- The callback on top takes the occurrence that it stands for. -/
theorem Due.noticed (hx : Due s (.notify id (.delivered h) :: stack) h id n)
    (hwaiting : s'.blkDeliveryWaiting = s.blkDeliveryWaiting) :
    Due s' (calls ++ stack) h id (n - 1) := by
  rcases hx with hmem | hmem | hle
  · exact Or.inl (hwaiting ▸ hmem)
  · rcases List.mem_cons.mp hmem with heq | hmem
    · cases heq
    · exact Or.inr (Or.inl (List.mem_append_right _ hmem))
  · right
    right
    rw [List.countP_cons_of_pos (by simp [Frame.notices])] at hle
    rw [List.countP_append]
    omega

/-- A delivery that is waited for resolves its promise. -/
theorem Due.delivered (hx : Due s (.onDeliverBlk k :: stack) h id n)
    (herror : (s.onDeliverBlk k).error = none) :
    Due (s.onDeliverBlk k).rep ((s.onDeliverBlk k).calls ++ stack) h id n := by
  rcases Replica.onDeliverBlk_cases (rfl : s.onDeliverBlk k = _) with
    ⟨hrep, -⟩ | herror' | ⟨-, ⟨s', -, hrep⟩, hcalls⟩
  · refine hx.rest (fun hmem => ?_) (fun heq => by cases heq) rfl
    rw [hrep]
    exact hmem
  · exact absurd herror herror'
  · by_cases hk : h = k ∧ h ∈ s.blkDeliveryWaiting
    · obtain ⟨rfl, hmem⟩ := hk
      right
      left
      rw [hcalls hmem]
      exact List.mem_cons_self
    · refine hx.rest (fun hmem => ?_) (fun heq => by cases heq) rfl
      rw [hrep]
      refine List.mem_filter.mpr ⟨hmem, ?_⟩
      rw [decide_eq_true_iff]
      exact fun heq => hk ⟨heq, hmem⟩

theorem Pledged.notify {c : Cond} (hx : Pledged s (.notify id c :: stack)) {p : Pending T}
    (hp : p ∈ (s.notify id c).rep.pendings) (hc : .delivered h ∈ p.conds) :
    Due (s.notify id c).rep ((s.notify id c).calls ++ stack) h p.id
      (p.conds.count (.delivered h)) := by
  have hwaiting : (s.notify id c).rep.blkDeliveryWaiting = s.blkDeliveryWaiting := by
    unfold Replica.notify
    repeat' split
    all_goals rfl
  rcases Replica.pendings_notify hp with ⟨hid, hp⟩ | ⟨hid, q, hq, hqid, hconds⟩
  · refine Due.rest (hx p hp h hc) (fun hmem => hwaiting ▸ hmem) (fun heq => by cases heq) ?_
    simp [Frame.notices, hid.symm]
  · rw [hconds] at hc ⊢
    have hold := hx q hq h (List.mem_of_mem_erase hc)
    rw [hqid] at hold
    rw [hid]
    by_cases heq : c = .delivered h
    · subst heq
      rw [List.count_erase_self]
      exact Due.noticed hold hwaiting
    · rw [List.count_erase_of_ne fun h => heq h.symm]
      refine Due.rest hold (fun hmem => hwaiting ▸ hmem) (fun h => by cases h) ?_
      simp [Frame.notices, heq]

/-- One call keeps the callbacks of a promise, or makes them. -/
theorem Pledged.exec (hx : Pledged s (fr :: stack)) (herror : (s.exec E fr).error = none) :
    Pledged (s.exec E fr).rep ((s.exec E fr).calls ++ stack) := by
  intro p hp h hc
  by_cases hchanges : fr.ChangesPendings
  · cases fr <;> try exact False.elim hchanges
    case gather hs peer conds wait =>
      have hwaiting : (s.exec E (.gather hs peer conds wait)).rep.blkDeliveryWaiting =
          s.blkDeliveryWaiting :=
        Replica.exec_blkDeliveryWaiting (fun _ _ h => by cases h) fun _ h => by cases h
      rcases Replica.pendings_gather hp hc with hp | hmem
      · exact Due.rest (hx p hp h hc) (fun hmem => hwaiting ▸ hmem) (fun heq => by cases heq) rfl
      · exact Or.inl (hwaiting ▸ hmem)
    case startDelivery k peer =>
      have hwaiting : (s.startDelivery k peer).rep.blkDeliveryWaiting = k :: s.blkDeliveryWaiting :=
        congrArg Prod.fst Replica.agenda_startDelivery
      refine Due.rest (hx p (Replica.pendings_startDelivery hp hc) h hc) (fun hmem => ?_)
        (fun heq => by cases heq) rfl
      rw [Replica.exec, hwaiting]
      exact List.mem_cons_of_mem k hmem
    case notify id c => exact hx.notify hp hc
  · rw [Replica.exec_pendings hchanges] at hp
    have hold : Due s (fr :: stack) h p.id (p.conds.count (.delivered h)) := hx p hp h hc
    by_cases hresolve : fr = .resolve (.delivered h)
    · subst hresolve
      right
      right
      rw [List.countP_append]
      exact (Replica.count_le_resolve hp).trans (Nat.le_add_right _ _)
    · by_cases hdeliver : ∃ k, fr = .onDeliverBlk k
      · obtain ⟨k, rfl⟩ := hdeliver
        exact hold.delivered herror
      · have hnotify : fr.notices p.id (.delivered h) = false := by
          cases fr <;> first | rfl | exact absurd trivial hchanges
        refine hold.rest (fun hmem => ?_) hresolve hnotify
        rw [Replica.exec_blkDeliveryWaiting]
        · exact hmem
        · rintro k peer rfl
          exact hchanges trivial
        · exact fun k hk => hdeliver ⟨k, hk⟩

end

theorem Run.pledged (h : Run E F ok σ) (i : ℕ) (hcrashed : (σ.nodes i).crashed = none) :
    Pledged (σ.nodes i).rep (σ.nodes i).stack := by
  revert hcrashed
  refine h.node_induction (I := fun _ x => x.crashed = none → Pledged x.rep x.stack) ?_ ?_ ?_ i
  · intro i _ p hp
    cases hp
  · intro i x ev hx hidle _ hcrashed p hp k hc
    have hold := hx hcrashed p hp k hc
    rw [hidle.1] at hold
    rcases hold with hmem | hmem | hle
    · exact Or.inl hmem
    · cases hmem
    · exact Or.inr (Or.inr (hle.trans (Nat.zero_le _)))
  · intro σ i fr stack run _ _ hx hstack hcrashed
    have hold := hx (run.crashed_eq_none hstack)
    rw [hstack] at hold
    have herror : ((σ.nodes i).rep.exec E fr).error = none := Node.crashed_after ▸ hcrashed
    rw [Node.after_of_done hcrashed]
    exact hold.exec herror

/-! ## Deliveries without a lost wake-up -/

/-- No call delivers a block that is waited for without resolving its promise. -/
def Wakes (E : Env T) (σ : System T) (i : ℕ) (fr : Frame T) : Prop :=
  ∀ h, Bypasses E (σ.nodes i).rep fr h → h ∉ (σ.nodes i).rep.blkDeliveryWaiting

/-- A block that is waited for is not delivered, and a delivery starts directly after it has been
asked for. -/
structure Awaited (s : Replica T) (stack : List (Frame T)) : Prop where
  waiting : ∀ h ∈ s.blkDeliveryWaiting, s.isBlkDelivered h = false
  head : ∀ h peer, .startDelivery h peer ∈ stack → s.isBlkDelivered h = false
  tail : ∀ h peer, .startDelivery h peer ∉ stack.tail

theorem Awaited.exec {s : Replica T} {fr : Frame T} {stack : List (Frame T)}
    (hx : Awaited s (fr :: stack))
    (hwakes : ∀ h, Bypasses E s fr h → h ∉ s.blkDeliveryWaiting)
    (herror : (s.exec E fr).error = none) :
    Awaited (s.exec E fr).rep ((s.exec E fr).calls ++ stack) where
  waiting := by
    intro h hmem
    rw [Bool.eq_false_iff]
    intro hdel
    rcases Replica.waited_exec hmem herror with ⟨peer, rfl⟩ | ⟨hmem, hsame⟩
    · have hnew := hx.head h peer List.mem_cons_self
      rcases Replica.exec_delivers _ hdel with hold | heq | hbypass
      · rw [hnew] at hold
        cases hold
      · cases heq
      · cases hbypass
    · have hnew := hx.waiting h hmem
      rcases Replica.exec_delivers _ hdel with hold | heq | hbypass
      · rw [hnew] at hold
        cases hold
      · rw [hsame heq, hnew] at hdel
        cases hdel
      · exact hwakes h hbypass hmem
  head := by
    intro h peer hmem
    rcases List.mem_append.mp hmem with hcall | hmem
    · obtain ⟨hrep, hnew, -⟩ := Replica.startDelivery_of_calls hcall
      rw [hrep]
      exact hnew
    · exact absurd hmem (hx.tail h peer)
  tail := by
    intro h peer hmem
    cases hcalls : (s.exec E fr).calls with
    | nil =>
      rw [hcalls] at hmem
      exact hx.tail h peer (List.mem_of_mem_tail hmem)
    | cons a l =>
      rw [hcalls] at hmem
      rcases List.mem_append.mp hmem with hmem | hmem
      · have hcall : .startDelivery h peer ∈ (s.exec E fr).calls.tail := by
          rw [hcalls]
          exact hmem
        exact Replica.startDelivery_notMem_tail hcall
      · exact hx.tail h peer hmem

theorem Run.awaited (h : Run E F (Wakes E) σ) (i : ℕ) (hcrashed : (σ.nodes i).crashed = none) :
    Awaited (σ.nodes i).rep (σ.nodes i).stack := by
  revert hcrashed
  refine h.node_induction (I := fun _ x => x.crashed = none → Awaited x.rep x.stack) ?_ ?_ ?_ i
  · intro i _
    refine ⟨?_, ?_, ?_⟩
    · intro k hk
      cases hk
    · intro k peer hk
      cases hk
    · intro k peer hk
      cases hk
  · intro i x ev hx hidle _ hcrashed
    refine ⟨(hx hcrashed).waiting, ?_, ?_⟩
    · intro k peer hk
      cases ev <;> cases List.mem_singleton.mp hk
    · intro k peer hk
      cases hk
  · intro σ i fr stack run _ hwakes hx hstack hcrashed
    have hold := hx (run.crashed_eq_none hstack)
    rw [hstack] at hold
    have herror : ((σ.nodes i).rep.exec E fr).error = none := Node.crashed_after ▸ hcrashed
    rw [Node.after_of_done hcrashed]
    exact hold.exec hwakes herror

/-- As long as no block that is waited for is delivered behind the back of
`HotStuffBase::on_deliver_blk`, the promise of a delivered block has been resolved, and once the
callbacks have run nobody waits for it. -/
theorem deliveries_wake (E : Env T) (F : Faults T) (σ : System T) (h : Run E F (Wakes E) σ) (i k : ℕ)
    (hcrashed : (σ.nodes i).crashed = none) (hdel : (σ.nodes i).rep.isBlkDelivered k = true) :
    k ∉ (σ.nodes i).rep.blkDeliveryWaiting ∧
      ((σ.nodes i).stack = [] → ∀ p ∈ (σ.nodes i).rep.pendings, .delivered k ∉ p.conds) := by
  have hnot : k ∉ (σ.nodes i).rep.blkDeliveryWaiting := by
    intro hmem
    rw [(h.awaited i hcrashed).waiting k hmem] at hdel
    cases hdel
  refine ⟨hnot, fun hstack p hp hc => ?_⟩
  have hpledged := h.pledged i hcrashed p hp k hc
  rw [hstack] at hpledged
  rcases hpledged with hmem | hmem | hle
  · exact hnot hmem
  · cases hmem
  · exact absurd (List.count_pos_iff.mpr hc) (not_lt.mpr hle)


end System

/-! ## A lost wake-up -/

/-- The payloads of scripts, with proposals as chunks. -/
abbrev copyTypes : PayloadTypes := plainWith (ProposalContent plainTypes) Unit

/-- Three replicas with a plain PVSS. Every chunk of a proposal is a copy of it; certificates are
not dispersed. -/
def copyEnv : Env copyTypes where
  nreplicas := 3
  hash c := c.extra
  emptyAggregate := (0 : ℕ)
  pvss := plainPvss 3
  dispersal :=
    { encodeProposal := fun data parity p => List.replicate (data + parity) ⟨p.proposer,
        ⟨p.blk.parentHashes, p.blk.cmds, p.blk.qc, p.blk.qcRefHash, p.blk.extra⟩, p.view⟩
      encodeCert := fun _ _ _ => []
      root := List.length
      path := fun _ _ => ()
      verifyPath := fun _ _ => true
      decodeProposal := fun _ _ p _ => .ok ⟨p.proposer,
        ⟨p.blk.parentHashes, p.blk.cmds, p.blk.qc, p.blk.qcRefHash, p.blk.extra⟩, p.view⟩
      decodeCert := fun _ _ _ _ => .error .undefined }
  setup := [11, 12, 13, 14, 15, 16]
  blkSize := 1

/-- Replica `0` is Byzantine. -/
def copyFaults : Faults copyTypes := ⟨{0}, fun _ => []⟩

/-- A block on top of the genesis block. -/
def votedBlock : BlockContent copyTypes :=
  ⟨[0], [], some (QuorumCertSecp256k1.create 0 0), 0, (11 : ℕ)⟩

namespace System

/-- Whether a call delivers nothing by itself. -/
def deliversNothing (_ : System copyTypes) (_ : ℕ) : Frame copyTypes → Bool
  | .onReceiveProposalEcho _ | .doPropose => false
  | _ => true

theorem wakes_of_check {σ : System copyTypes} {i : ℕ} {fr : Frame copyTypes}
    (h : deliversNothing σ i fr = true) : Wakes copyEnv σ i fr := by
  intro k hbypass
  cases hbypass <;> cases h

/-- Replica `1` gets a vote of replica `2` for a block that it does not have, asks for the block
and is sent it. -/
theorem deliveries_wake_vote : ∃ σ : System copyTypes, (σ.nodes 1).rep.isBlkDelivered 11 = true ∧
    11 ∉ (σ.nodes 1).rep.blkDeliveryWaiting ∧
    ((σ.nodes 1).stack = [] → ∀ p ∈ (σ.nodes 1).rep.pendings, .delivered 11 ∉ p.conds) := by
  obtain ⟨σ, hrun, htest⟩ := exists_of_play copyEnv copyFaults deliversNothing
    (fun _ _ _ => wakes_of_check)
    [.inject 0 2 (.propose ⟨1, votedBlock, 1⟩), .deliver 0, .deliver 5, .deliver 6]
    (fun σ => (σ.nodes 1).rep.isBlkDelivered 11 && (σ.nodes 1).crashed.isNone) (by decide +kernel)
  obtain ⟨hdel, hcrashed⟩ := Bool.and_eq_true_iff.mp htest
  rw [Option.isNone_iff_eq_none] at hcrashed
  exact ⟨σ, hdel, deliveries_wake copyEnv copyFaults σ hrun 1 11 hcrashed hdel⟩

/-- Whether a vote for block `11` waits for its delivery and for nothing else. -/
def voteWaits (p : Pending copyTypes) : Bool :=
  match p.task with
  | .vote v => v.blkHash == 11 && p.conds == [.delivered 11]
  | _ => false

/-- Replica `1` gets the vote first, then the block from an echo, and last the answer to its
request. The block is delivered, its fetch and its verification are over, and the vote still waits
for the delivery. -/
theorem vote_lost : ∃ σ : System copyTypes, Reachable copyEnv copyFaults σ ∧
    Honest copyEnv copyFaults 1 ∧ (σ.nodes 1).Idle ∧ (σ.nodes 1).rep.isBlkDelivered 11 = true ∧
    (σ.nodes 1).rep.blkFetchWaiting 11 = none ∧
    (∀ p ∈ (σ.nodes 1).rep.pendings, .veri ∉ p.conds ∧ .fetched 11 ∉ p.conds) ∧
    11 ∈ (σ.nodes 1).rep.blkDeliveryWaiting ∧
    ∃ p ∈ (σ.nodes 1).rep.pendings, ∃ v, p.task = .vote v ∧ v.blkHash = 11 ∧
      p.conds = [.delivered 11] := by
  obtain ⟨σ, hrun, htest⟩ := exists_reachable_of_play copyEnv copyFaults
    [.inject 0 2 (.propose ⟨1, votedBlock, 1⟩), .deliver 0, .deliver 2, .verify 1, .deliver 5,
      .deliver 10]
    (fun σ => ((σ.nodes 1).stack.isEmpty && (σ.nodes 1).crashed.isNone) &&
      ((σ.nodes 1).rep.isBlkDelivered 11 && (((σ.nodes 1).rep.blkFetchWaiting 11).isNone &&
        (((σ.nodes 1).rep.pendings.all fun p =>
          decide (.veri ∉ p.conds ∧ .fetched 11 ∉ p.conds)) &&
        (decide (11 ∈ (σ.nodes 1).rep.blkDeliveryWaiting) &&
          (σ.nodes 1).rep.pendings.any voteWaits))))) (by decide +kernel)
  simp only [Bool.and_eq_true, List.isEmpty_iff, Option.isNone_iff_eq_none, List.all_eq_true,
    List.any_eq_true, decide_eq_true_eq] at htest
  obtain ⟨hidle, hdel, hfetch, hover, hwaits, p, hp, hvote⟩ := htest
  refine ⟨σ, hrun, by decide, hidle, hdel, hfetch, hover, hwaits, p, hp, ?_⟩
  unfold voteWaits at hvote
  split at hvote
  · rename_i v htask
    simp only [Bool.and_eq_true, beq_iff_eq] at hvote
    exact ⟨v, htask, hvote⟩
  · cases hvote

end System

end OptRand.Hotstuff
