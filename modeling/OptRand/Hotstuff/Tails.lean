import OptRand.Hotstuff.Ancestry

/-!
# The leaves of the tree (`tails`)

`tails` is meant to hold the delivered blocks without children: delivery erases the parents of a
block and inserts the block. The set is ordered by `BlockHeightCmp`, which compares heights only. So
`erase` removes whatever block has the height of the parent, and `insert` does nothing if some block
has the height of the new one (`System.fork_loses_leaf`). The tails are the leaves exactly as long
as no other leaf has the height of a block that is erased or inserted (`tails_leaves_iff`).
-/

namespace OptRand.Hotstuff

variable {T : PayloadTypes}

namespace Replica

variable {s : Replica T} {E : Env T} {h t : ℕ}

/-! ## Leaves -/

/-- The parents and the height of a delivered block. -/
def tree (s : Replica T) (h : ℕ) : Option (List ℕ × ℕ) :=
  match s.blkCache h with
  | some b => if b.delivered then some (b.parents, b.height) else none
  | none => none

/-- A delivered block that is not a parent of a delivered block. -/
def Leaf (s : Replica T) (t : ℕ) : Prop :=
  s.isBlkDelivered t = true ∧
    ∀ h b, s.blkCache h = some b → b.delivered = true → t ∉ b.parents

def TailsAreLeaves (s : Replica T) : Prop := ∀ t, t ∈ s.tails ↔ s.Leaf t

/-- The parents of a delivered block are delivered. -/
def Closed (s : Replica T) : Prop :=
  ∀ h b, s.blkCache h = some b → b.delivered = true → ∀ p ∈ b.parents, s.isBlkDelivered p = true

theorem tree_eq_some_iff {ps : List ℕ} {n : ℕ} : s.tree h = some (ps, n) ↔
    ∃ b, s.blkCache h = some b ∧ b.delivered = true ∧ b.parents = ps ∧ b.height = n := by
  unfold tree
  cases s.blkCache h with
  | none => simp
  | some b => simp

theorem isBlkDelivered_iff_tree : s.isBlkDelivered t = true ↔ ∃ ps n, s.tree t = some (ps, n) := by
  rw [isBlkDelivered_iff]
  constructor
  · rintro ⟨b, hb, hdel⟩
    exact ⟨b.parents, b.height, tree_eq_some_iff.mpr ⟨b, hb, hdel, rfl, rfl⟩⟩
  · rintro ⟨ps, n, htree⟩
    obtain ⟨b, hb, hdel, -⟩ := tree_eq_some_iff.mp htree
    exact ⟨b, hb, hdel⟩

theorem height_of_tree {ps : List ℕ} {n : ℕ} (htree : s.tree t = some (ps, n)) :
    s.height t = n := by
  obtain ⟨b, hb, -, -, hheight⟩ := tree_eq_some_iff.mp htree
  exact (height_eq hb).trans hheight

theorem leaf_iff : s.Leaf t ↔
    s.isBlkDelivered t = true ∧ ∀ h ps n, s.tree h = some (ps, n) → t ∉ ps := by
  refine and_congr_right fun _ => ⟨?_, ?_⟩
  · intro hleaf h ps n htree
    obtain ⟨b, hb, hdel, rfl, -⟩ := tree_eq_some_iff.mp htree
    exact hleaf h b hb hdel
  · intro hleaf h b hb hdel
    exact hleaf h b.parents b.height (tree_eq_some_iff.mpr ⟨b, hb, hdel, rfl, rfl⟩)

theorem closed_iff : s.Closed ↔
    ∀ h ps n, s.tree h = some (ps, n) → ∀ p ∈ ps, s.isBlkDelivered p = true := by
  constructor
  · intro hclosed h ps n htree
    obtain ⟨b, hb, hdel, rfl, -⟩ := tree_eq_some_iff.mp htree
    exact hclosed h b hb hdel
  · intro hclosed h b hb hdel
    exact hclosed h b.parents b.height (tree_eq_some_iff.mpr ⟨b, hb, hdel, rfl, rfl⟩)

section

variable {u : Replica T} (hu : u.tree = s.tree)
include hu

theorem isBlkDelivered_of_tree : u.isBlkDelivered t = s.isBlkDelivered t := by
  rw [Bool.eq_iff_iff, isBlkDelivered_iff_tree, isBlkDelivered_iff_tree, hu]

theorem leaf_of_tree : u.Leaf t ↔ s.Leaf t := by
  rw [leaf_iff, leaf_iff, isBlkDelivered_of_tree hu, hu]

theorem closed_of_tree : u.Closed ↔ s.Closed := by
  rw [closed_iff, closed_iff, hu]
  simp only [isBlkDelivered_of_tree hu]

theorem height_of_delivered (hdel : s.isBlkDelivered t = true) : u.height t = s.height t := by
  obtain ⟨ps, n, htree⟩ := isBlkDelivered_iff_tree.mp hdel
  rw [height_of_tree htree, height_of_tree (s := u) (by rw [hu, htree])]

end

/-! ## Delivery -/

theorem mem_foldl_eraseTail {hs : List ℕ} : t ∈ (hs.foldl eraseTail s).tails ↔
    t ∈ s.tails ∧ ∀ p ∈ hs, s.height t ≠ s.height p := by
  induction hs generalizing s with
  | nil => simp
  | cons p hs ih =>
    have hsame : ∀ k, (s.eraseTail p).height k = s.height k := fun _ => rfl
    have herase : t ∈ (s.eraseTail p).tails ↔ t ∈ s.tails ∧ s.height t ≠ s.height p := by
      simp [eraseTail]
    rw [List.foldl_cons, ih, herase, List.forall_mem_cons, and_assoc]
    simp only [hsame]

theorem mem_insertTail : t ∈ (s.insertTail h).tails ↔
    t ∈ s.tails ∨ t = h ∧ ∀ k ∈ s.tails, s.height k ≠ s.height h := by
  unfold insertTail
  split
  · rename_i hany
    obtain ⟨k, hk, heq⟩ := List.any_eq_true.mp hany
    exact ⟨Or.inl, fun h => h.resolve_right fun ⟨_, hne⟩ => hne k hk (by simpa using heq)⟩
  · rename_i hany
    have hne : ∀ k ∈ s.tails, s.height k ≠ s.height h := by
      intro k hk heq
      exact hany (List.any_eq_true.mpr ⟨k, hk, by simpa using heq⟩)
    simp only [List.mem_append, List.mem_cons, List.mem_filter, decide_eq_true_eq]
    constructor
    · rintro (⟨ht, -⟩ | rfl | ⟨ht, -⟩)
      · exact Or.inl ht
      · exact Or.inr ⟨rfl, hne⟩
      · exact Or.inl ht
    · rintro (ht | ⟨rfl, -⟩)
      · rcases Nat.lt_or_gt_of_ne (hne t ht) with hlt | hlt
        · exact Or.inl ⟨ht, hlt⟩
        · exact Or.inr (Or.inr ⟨ht, hlt⟩)
      · exact Or.inr (Or.inl rfl)

/-- `on_deliver_blk` delivers the block `h`, which is `b`, and gives it this height. -/
structure Delivering (s : Replica T) (h : ℕ) (b : Block T) (height : ℕ) : Prop where
  cached : s.blkCache h = some b
  new : b.delivered = false
  parents : ∀ p ∈ b.parentHashes, s.isBlkDelivered p = true
  height : ∃ p ps, b.parentHashes = p :: ps ∧ height = s.height p + 1
  fetched : b.qc.isSome = true → s.isBlkFetched b.qcRefHash = true

theorem deliveredParents_of_all {hs : List ℕ} (hall : ∀ p ∈ hs, s.isBlkDelivered p = true) :
    s.deliveredParents hs = (hs, true) := by
  induction hs with
  | nil => rfl
  | cons p hs ih =>
    obtain ⟨hp, hrest⟩ := List.forall_mem_cons.mp hall
    rw [deliveredParents, if_pos hp, ih hrest]

theorem tree_setBlk_of_new {b b' : Block T} (hb : s.blkCache h = some b)
    (hnew : b.delivered = false) (hnew' : b'.delivered = false) :
    (s.setBlk h b').tree = s.tree := by
  funext k
  unfold tree
  rw [blkCache_setBlk]
  by_cases hk : k = h
  · subst hk
    rw [Function.update_self, hb]
    dsimp only
    rw [hnew, hnew']
    rfl
  · rw [Function.update_of_ne hk]

theorem tree_setBlk_of_delivered {b : Block T} (hdel : b.delivered = true) :
    (s.setBlk h b).tree = Function.update s.tree h (some (b.parents, b.height)) := by
  funext k
  unfold tree
  rw [blkCache_setBlk]
  by_cases hk : k = h
  · subst hk
    rw [Function.update_self, Function.update_self]
    exact if_pos hdel
  · rw [Function.update_of_ne hk, Function.update_of_ne hk]

theorem height_setBlk {b : Block T} :
    (s.setBlk h b).height = Function.update s.height h b.height := by
  funext k
  unfold height
  rw [blkCache_setBlk]
  by_cases hk : k = h
  · subst hk
    rw [Function.update_self, Function.update_self]
  · rw [Function.update_of_ne hk, Function.update_of_ne hk]

theorem tree_congr {u : Replica T} (hu : u.blkCache = s.blkCache) : u.tree = s.tree := by
  unfold tree
  rw [hu]

/-- What delivery does to the tree and to the tails. -/
theorem deliverBlk_tree (s : Replica T) (h : ℕ) :
    ((∀ b n, ¬ s.Delivering h b n) ∧ (s.deliverBlk h).rep.tree = s.tree ∧
      (s.deliverBlk h).rep.tails = s.tails) ∨
    ∃ b n, s.Delivering h b n ∧
      (s.deliverBlk h).rep.tree = Function.update s.tree h (some (b.parentHashes, n)) ∧
      ∃ u : Replica T, u.tails = s.tails ∧ u.height = Function.update s.height h n ∧
        (s.deliverBlk h).rep.tails =
          ((b.parentHashes.foldl eraseTail u).insertTail h).tails := by
  unfold deliverBlk
  split
  · rename_i hb
    exact Or.inl ⟨fun b n hd => (nomatch hb.symm.trans hd.cached), rfl, rfl⟩
  · rename_i b hb
    have hcached : ∀ {b' n}, s.Delivering h b' n → b' = b :=
      fun hd => Option.some.inj (hd.cached.symm.trans hb)
    split
    · rename_i hdel
      refine Or.inl ⟨fun b' n hd => ?_, rfl, rfl⟩
      have hnew := hd.new
      rw [hcached hd, hdel] at hnew
      cases hnew
    · rename_i hdel
      have hnew : b.delivered = false := by simpa using hdel
      cases hparents : s.deliveredParents b.parentHashes with
      | mk parents complete =>
        dsimp only
        cases complete with
        | false =>
          refine Or.inl ⟨fun b' n hd => ?_, tree_setBlk_of_new hb hnew hnew, rfl⟩
          have hall := hd.parents
          rw [hcached hd] at hall
          rw [deliveredParents_of_all hall] at hparents
          cases hparents
        | true =>
          obtain ⟨rfl, hall⟩ := deliveredParents_eq hparents
          simp only [Bool.not_true, Bool.false_eq_true, if_false]
          split
          · rename_i hnil
            refine Or.inl ⟨fun b' n hd => ?_, tree_setBlk_of_new hb hnew hnew, rfl⟩
            obtain ⟨p, ps, hp, -⟩ := hd.height
            rw [hcached hd, hnil] at hp
            cases hp
          · rename_i p ps hp
            split
            · rename_i hqc
              refine Or.inl ⟨fun b' n hd => ?_, tree_setBlk_of_new hb hnew hnew, rfl⟩
              have hfetched := hd.fetched
              rw [hcached hd] at hfetched
              rw [hfetched hqc.1] at hqc
              cases hqc.2
            · rename_i hqc
              have hd : s.Delivering h b (s.height p + 1) := by
                refine ⟨hb, hnew, hall, ⟨p, ps, hp, rfl⟩, fun hsome => ?_⟩
                by_contra hne
                exact hqc ⟨hsome, by simpa using hne⟩
              generalize hblk : Block.mk _ _ _ _ _ _ _ _ _ _ _ = blk
              have hupdate : (s.setBlk h blk).tree =
                  Function.update s.tree h (some (b.parentHashes, s.height p + 1)) := by
                rw [← hblk]
                exact tree_setBlk_of_delivered rfl
              refine Or.inr ⟨b, s.height p + 1, hd, ?_, s.setBlk h blk, rfl, ?_, rfl⟩
              · rw [← hupdate]
                apply tree_congr
                simp only [Attempt.rep, blkCache_insertTail, blkCache_foldl_eraseTail]
              · rw [height_setBlk, ← hblk]

theorem Delivering.unique {b b' : Block T} {n n' : ℕ} (hd : s.Delivering h b n)
    (hd' : s.Delivering h b' n') : b' = b ∧ n' = n := by
  have hb : b' = b := Option.some.inj (hd'.cached.symm.trans hd.cached)
  subst hb
  obtain ⟨p, ps, hp, rfl⟩ := hd.height
  obtain ⟨p', ps', hp', rfl⟩ := hd'.height
  rw [hp] at hp'
  cases hp'
  exact ⟨rfl, rfl⟩

/-- No leaf that stays one when `on_deliver_blk` is called for block `h` has one of the heights
`erased`, the height of the new block, or that of one of its parents. -/
def Apart (s : Replica T) (h : ℕ) (erased : List ℕ) : Prop :=
  ∀ t, s.Leaf t → (∀ b n, s.Delivering h b n → t ∉ b.parentHashes) →
    s.height t ∉ erased ∧ ∀ b n, s.Delivering h b n →
      s.height t ≠ n ∧ ∀ p ∈ b.parentHashes, s.height t ≠ s.height p

section

variable {b : Block T} {n : ℕ}

theorem not_delivered_of_delivering (hd : s.Delivering h b n) : s.isBlkDelivered h = false := by
  unfold isBlkDelivered
  rw [hd.cached]
  exact hd.new

/-- The leaves after delivery. -/
theorem leaf_deliverBlk_iff {u : Replica T} (hclosed : s.Closed) (hd : s.Delivering h b n)
    (hu : u.tree = Function.update s.tree h (some (b.parentHashes, n))) :
    u.Leaf t ↔ s.Leaf t ∧ t ∉ b.parentHashes ∨ t = h := by
  have hnew := not_delivered_of_delivering hd
  have hnone : ∀ ps n, s.tree h ≠ some (ps, n) := by
    intro ps n htree
    rw [isBlkDelivered_iff_tree.mpr ⟨ps, n, htree⟩] at hnew
    cases hnew
  have hself : u.tree h = some (b.parentHashes, n) := by rw [hu, Function.update_self]
  have hother : ∀ k, k ≠ h → u.tree k = s.tree k := by
    intro k hk
    rw [hu, Function.update_of_ne hk]
  rw [closed_iff] at hclosed
  rw [leaf_iff, leaf_iff]
  by_cases ht : t = h
  · subst ht
    refine iff_of_true ⟨isBlkDelivered_iff_tree.mpr ⟨_, _, hself⟩, ?_⟩ (Or.inr rfl)
    -- the parents of delivered blocks were delivered before
    intro k ps m hk hmem
    by_cases hkt : k = t
    · subst hkt
      cases hself.symm.trans hk
      rw [hd.parents k hmem] at hnew
      cases hnew
    · rw [hother k hkt] at hk
      rw [hclosed k ps m hk t hmem] at hnew
      cases hnew
  · have hdel : u.isBlkDelivered t = true ↔ s.isBlkDelivered t = true := by
      rw [isBlkDelivered_iff_tree, isBlkDelivered_iff_tree, hother t ht]
    rw [hdel, or_iff_left ht, and_assoc]
    refine and_congr_right fun _ => ⟨fun hleaf => ⟨?_, hleaf h _ _ hself⟩, ?_⟩
    · intro k ps m hk
      have hkh : k ≠ h := fun heq => hnone ps m (heq ▸ hk)
      exact hleaf k ps m ((hother k hkh).trans hk)
    · rintro ⟨hleaf, hparent⟩ k ps m hk
      by_cases hkh : k = h
      · subst hkh
        cases hself.symm.trans hk
        exact hparent
      · exact hleaf k ps m ((hother k hkh).symm.trans hk)

theorem closed_deliverBlk (hclosed : s.Closed) : (s.deliverBlk h).rep.Closed := by
  rcases deliverBlk_tree s h with ⟨-, htree, -⟩ | ⟨b, n, hd, htree, -⟩
  · exact (closed_of_tree htree).mpr hclosed
  · have hkeep : ∀ p, s.isBlkDelivered p = true →
        (s.deliverBlk h).rep.isBlkDelivered p = true := by
      intro p hp
      rw [isBlkDelivered_iff_tree, htree]
      by_cases hph : p = h
      · subst hph
        exact ⟨_, _, Function.update_self _ _ _⟩
      · rw [Function.update_of_ne hph]
        exact isBlkDelivered_iff_tree.mp hp
    rw [closed_iff] at hclosed ⊢
    intro k ps m hk p hp
    apply hkeep
    rw [htree] at hk
    by_cases hkh : k = h
    · subst hkh
      rw [Function.update_self] at hk
      cases hk
      exact hd.parents p hp
    · rw [Function.update_of_ne hkh] at hk
      exact hclosed k ps m hk p hp

/-- The tails after delivery. -/
theorem mem_tails_deliverBlk_iff {u : Replica T} (hd : s.Delivering h b n)
    (hdel : ∀ t ∈ s.tails, s.isBlkDelivered t = true) (htails : u.tails = s.tails)
    (hheight : u.height = Function.update s.height h n) :
    t ∈ ((b.parentHashes.foldl eraseTail u).insertTail h).tails ↔
      (t ∈ s.tails ∧ ∀ p ∈ b.parentHashes, s.height t ≠ s.height p) ∨
        t = h ∧ ∀ k ∈ s.tails, (∀ p ∈ b.parentHashes, s.height k ≠ s.height p) →
          s.height k ≠ n := by
  have hnew := not_delivered_of_delivering hd
  have hself : u.height h = n := by rw [hheight, Function.update_self]
  have hother : ∀ k, s.isBlkDelivered k = true → u.height k = s.height k := by
    intro k hk
    rw [hheight, Function.update_of_ne]
    rintro rfl
    rw [hnew] at hk
    cases hk
  have hsame : (b.parentHashes.foldl eraseTail u).height = u.height := by
    unfold height
    rw [blkCache_foldl_eraseTail]
  have herased : ∀ k, k ∈ (b.parentHashes.foldl eraseTail u).tails ↔
      k ∈ s.tails ∧ ∀ p ∈ b.parentHashes, s.height k ≠ s.height p := by
    intro k
    rw [mem_foldl_eraseTail, htails]
    refine and_congr_right fun hk => forall₂_congr fun p hp => ?_
    rw [hother k (hdel k hk), hother p (hd.parents p hp)]
  rw [mem_insertTail, herased, hsame, hself]
  refine or_congr_right (and_congr_right fun _ => ?_)
  constructor
  · intro hne k hk hkept
    rw [← hother k (hdel k hk)]
    exact hne k ((herased k).mpr ⟨hk, hkept⟩)
  · intro hne k hk
    obtain ⟨hk, hkept⟩ := (herased k).mp hk
    rw [hother k (hdel k hk)]
    exact hne k hk hkept

end

/-- If the tails are the leaves, except those of the heights `erased`, delivery makes them the
leaves if and only if the leaves that stay are apart. -/
theorem tailsAreLeaves_deliverBlk_iff {erased : List ℕ} (hclosed : s.Closed)
    (htails : ∀ t, t ∈ s.tails ↔ s.Leaf t ∧ s.height t ∉ erased) :
    (s.deliverBlk h).rep.TailsAreLeaves ↔ s.Apart h erased := by
  rcases deliverBlk_tree s h with ⟨hnot, htree, hsame⟩ | ⟨b, n, hd, htree, u, hu, hheight, htails'⟩
  · have hleaf : (s.deliverBlk h).rep.TailsAreLeaves ↔ ∀ t, s.Leaf t → s.height t ∉ erased := by
      unfold TailsAreLeaves
      refine forall_congr' fun t => ?_
      rw [hsame, htails, leaf_of_tree htree, and_iff_left_iff_imp]
    rw [hleaf]
    constructor
    · intro h t ht _
      exact ⟨h t ht, fun b n hd => absurd hd (hnot b n)⟩
    · intro h t ht
      exact (h t ht fun b n hd => absurd hd (hnot b n)).1
  · have hdel : ∀ t ∈ s.tails, s.isBlkDelivered t = true :=
      fun t ht => ((htails t).mp ht).1.1
    have hnew := not_delivered_of_delivering hd
    have hleaf : (s.deliverBlk h).rep.TailsAreLeaves ↔ ∀ t,
        ((s.Leaf t ∧ s.height t ∉ erased) ∧ ∀ p ∈ b.parentHashes, s.height t ≠ s.height p) ∨
          t = h ∧ (∀ k, s.Leaf k ∧ s.height k ∉ erased →
            (∀ p ∈ b.parentHashes, s.height k ≠ s.height p) → s.height k ≠ n) ↔
          s.Leaf t ∧ t ∉ b.parentHashes ∨ t = h := by
      unfold TailsAreLeaves
      refine forall_congr' fun t => ?_
      rw [htails', mem_tails_deliverBlk_iff hd hdel hu hheight,
        leaf_deliverBlk_iff hclosed hd htree]
      simp only [htails]
    have hne : ∀ t, s.Leaf t → t ≠ h := by
      rintro t ht rfl
      rw [ht.1] at hnew
      cases hnew
    rw [hleaf]
    constructor
    · intro hall t ht hstays
      have hparent := hstays b n hd
      rcases (hall t).mpr (Or.inl ⟨ht, hparent⟩) with ⟨hkept, hapart⟩ | ⟨heq, -⟩
      · refine ⟨hkept.2, fun b' n' hd' => ?_⟩
        obtain ⟨rfl, rfl⟩ := hd.unique hd'
        refine ⟨?_, hapart⟩
        rcases (hall h).mpr (Or.inr rfl) with ⟨⟨hh, -⟩, -⟩ | ⟨-, hlow⟩
        · exact absurd rfl (hne h hh)
        · exact hlow t hkept hapart
      · exact absurd heq (hne t ht)
    · intro hapart t
      have hstays : ∀ t, s.Leaf t → t ∉ b.parentHashes → s.height t ∉ erased ∧
          s.height t ≠ n ∧ ∀ p ∈ b.parentHashes, s.height t ≠ s.height p := by
        intro t ht hparent
        obtain ⟨hkept, hheights⟩ := hapart t ht fun b' n' hd' => by
          rw [(hd.unique hd').1]
          exact hparent
        exact ⟨hkept, hheights b n hd⟩
      constructor
      · rintro (⟨⟨ht, -⟩, hheights⟩ | ⟨rfl, -⟩)
        · exact Or.inl ⟨ht, fun hmem => hheights t hmem rfl⟩
        · exact Or.inr rfl
      · rintro (⟨ht, hparent⟩ | rfl)
        · obtain ⟨hkept, -, hheights⟩ := hstays t ht hparent
          exact Or.inl ⟨⟨ht, hkept⟩, hheights⟩
        · refine Or.inr ⟨rfl, fun k hk hheights => ?_⟩
          exact (hstays k hk.1 fun hmem => hheights k hmem rfl).2.1

theorem tree_addBlk {blk : Block T} (hnew : blk.delivered = false) :
    (s.addBlk blk).tree = s.tree := by
  unfold addBlk
  split
  · rfl
  · rename_i hfetched
    funext k
    unfold tree
    rw [blkCache_setBlk]
    by_cases hk : k = blk.hash
    · subst hk
      have hnone : s.blkCache blk.hash = none := by
        simpa [isBlkFetched] using hfetched
      rw [Function.update_self, hnone]
      dsimp only
      rw [hnew]
      rfl
    · rw [Function.update_of_ne hk]

theorem tree_modifyBlk {f : Block T → Block T}
    (hf : ∀ b, (f b).delivered = b.delivered ∧ (f b).parents = b.parents ∧
      (f b).height = b.height) : (s.modifyBlk h f).tree = s.tree := by
  unfold modifyBlk
  split
  · rename_i b hb
    obtain ⟨hdel, hparents, hheight⟩ := hf b
    funext k
    unfold tree
    rw [blkCache_setBlk]
    by_cases hk : k = h
    · subst hk
      rw [Function.update_self, hb]
      dsimp only
      rw [hdel, hparents, hheight]
    · rw [Function.update_of_ne hk]
  · rfl

/-! ## Calls -/

theorem foldl_eraseTail_eq (hs : List ℕ) (s : Replica T) :
    ∃ tails, hs.foldl eraseTail s = { s with tails := tails } := by
  induction hs generalizing s with
  | nil => exact ⟨s.tails, rfl⟩
  | cons p hs ih =>
    obtain ⟨tails, h⟩ := ih (s.eraseTail p)
    exact ⟨tails, h⟩

/-- The content of the block that `on_propose` makes. -/
def proposed (s : Replica T) (cmds parents : List ℕ) : BlockContent T :=
  ⟨parents, cmds, some s.hqc.2, s.hqc.1, s.viewAggTranscripts s.view⟩

/-- The state in which `on_propose` calls `on_deliver_blk`: the parents are erased and the block is
in the cache. -/
def proposing (E : Env T) (s : Replica T) (cmds parents : List ℕ) : Replica T :=
  let t := parents.foldl eraseTail s
  let h := E.hash (s.proposed cmds parents)
  let t := t.addBlk { (s.proposed cmds parents).toBlock h with
    parents := parents, qcRef := some s.hqc.1, height := s.height (parents.headD 0) + 1 }
  t.modifyBlk h fun b => { b with
    view := s.view, selfQc := some (QuorumCertSecp256k1.create h s.view) }

theorem tree_proposing (cmds parents : List ℕ) : (s.proposing E cmds parents).tree = s.tree := by
  refine (tree_modifyBlk ?_).trans ((tree_addBlk ?_).trans (tree_congr blkCache_foldl_eraseTail))
  · exact fun b => ⟨rfl, rfl, rfl⟩
  · rfl

theorem mem_tails_proposing {cmds parents : List ℕ} : t ∈ (s.proposing E cmds parents).tails ↔
    t ∈ s.tails ∧ ∀ p ∈ parents, s.height t ≠ s.height p := by
  have hsame : (s.proposing E cmds parents).tails = (parents.foldl eraseTail s).tails :=
    congrArg Prod.fst (lead_modifyBlk.trans lead_addBlk)
  rw [hsame]
  exact mem_foldl_eraseTail

theorem tailsAreLeaves_congr {u : Replica T} (htails : u.tails = s.tails) (htree : u.tree = s.tree) :
    u.TailsAreLeaves ↔ s.TailsAreLeaves := by
  unfold TailsAreLeaves
  rw [htails]
  exact forall_congr' fun t => iff_congr Iff.rfl (leaf_of_tree htree)

theorem closed_init (i : ℕ) : (E.init i).Closed := by
  intro h b hb _ p hp
  obtain ⟨-, rfl⟩ := Env.blkCache_init hb
  cases hp

theorem tailsAreLeaves_init (i : ℕ) : (E.init i).TailsAreLeaves := by
  intro t
  have htails : t ∈ (E.init i).tails ↔ t = E.genesis := List.mem_singleton
  rw [htails]
  constructor
  · rintro rfl
    refine ⟨isBlkDelivered_iff.mpr ⟨_, E.blkCache_genesis i, rfl⟩, fun h b hb _ hmem => ?_⟩
    obtain ⟨-, rfl⟩ := Env.blkCache_init hb
    cases hmem
  · intro hleaf
    obtain ⟨b, hb, -⟩ := isBlkDelivered_iff.mp hleaf.1
    exact (Env.blkCache_init hb).1

end Replica

/-- A call of `on_deliver_blk` or of `on_propose`. -/
inductive TreeCall where
  | deliver (h : ℕ)
  | propose (cmds parents : List ℕ)

namespace TreeCall

variable {s : Replica T} {E : Env T}

/-- The state after the call. -/
def run (E : Env T) (s : Replica T) : TreeCall → Replica T
  | deliver h => (s.deliverBlk h).rep
  | propose cmds parents => (s.onPropose E cmds parents).rep

/-- No leaf that the call leaves one has the height of a block that the call erases or inserts. -/
def Apart (E : Env T) (s : Replica T) : TreeCall → Prop
  | deliver h => s.Apart h []
  | propose cmds parents => s.viewTrans = false → parents ≠ [] →
    (s.proposing E cmds parents).Apart (E.hash (s.proposed cmds parents)) (parents.map s.height)

theorem run_propose (cmds : List ℕ) {parents : List ℕ} (htrans : s.viewTrans = false)
    (hparents : parents ≠ []) : ∃ k : Replica T → Outcome T,
      (∀ t, (k t).rep.tails = t.tails ∧ (k t).rep.blkCache = t.blkCache) ∧
      (propose cmds parents).run E s =
        (((s.proposing E cmds parents).deliverBlk (E.hash (s.proposed cmds parents))).andThen
          k).rep := by
  cases parents with
  | nil => exact absurd rfl hparents
  | cons p ps =>
    have hview : ∀ (t : Replica T) blk, (t.addBlk blk).view = t.view :=
      fun t blk => congrArg Views.view Replica.views_addBlk
    obtain ⟨tails, htails⟩ := Replica.foldl_eraseTail_eq (p :: ps) s
    refine ⟨fun t =>
      if t.height (E.hash (s.proposed cmds (p :: ps))) ≤ t.vheight then
        t.raise (.runtimeError "new block should be higher than vheight")
      else
        Replica.call { t with
          vheight := t.height (E.hash (s.proposed cmds (p :: ps)))
          finishedPropose :=
            Function.update t.finishedPropose (E.hash (s.proposed cmds (p :: ps))) true }
          [.vote (E.hash (s.proposed cmds (p :: ps))) t.id,
            .onPropose_ ⟨t.id, E.hash (s.proposed cmds (p :: ps)), t.view⟩,
            .finishPropose ⟨t.id, E.hash (s.proposed cmds (p :: ps)), t.view⟩], ?_, ?_⟩
    · intro t
      dsimp only
      split <;> exact ⟨rfl, rfl⟩
    · show (s.onPropose E cmds (p :: ps)).rep = _
      unfold Replica.onPropose Replica.proposing
      rw [if_neg (by simp [htrans])]
      simp only [htails, hview]
      rfl

theorem run_propose_of_not {cmds parents : List ℕ}
    (hnot : ¬ (s.viewTrans = false ∧ parents ≠ [])) : (propose cmds parents).run E s = s := by
  show (s.onPropose E cmds parents).rep = s
  unfold Replica.onPropose
  split
  · rfl
  · rename_i htrans
    cases parents with
    | nil => rfl
    | cons p ps => exact absurd ⟨by simpa using htrans, List.cons_ne_nil p ps⟩ hnot

/-- If the tails are the leaves, a call leaves them so if and only if no other leaf is in its
way. -/
theorem tailsAreLeaves_iff (hclosed : s.Closed) (htails : s.TailsAreLeaves) (c : TreeCall) :
    (c.run E s).TailsAreLeaves ↔ c.Apart E s := by
  cases c with
  | deliver h =>
    refine Replica.tailsAreLeaves_deliverBlk_iff hclosed fun t => ?_
    rw [htails, and_iff_left List.not_mem_nil]
  | propose cmds parents =>
    by_cases hproposes : s.viewTrans = false ∧ parents ≠ []
    · obtain ⟨k, hk, hrun⟩ := run_propose (E := E) cmds hproposes.1 hproposes.2
      have htree := Replica.tree_proposing (s := s) (E := E) cmds parents
      have hsame : ((propose cmds parents).run E s).TailsAreLeaves ↔
          ((s.proposing E cmds parents).deliverBlk
            (E.hash (s.proposed cmds parents))).rep.TailsAreLeaves := by
        rw [hrun]
        exact Replica.tailsAreLeaves_congr (Replica.rep_andThen Replica.tails fun t => (hk t).1)
          (Replica.tree_congr (Replica.rep_andThen Replica.blkCache fun t => (hk t).2))
      have hapart : (propose cmds parents).Apart E s ↔ (s.proposing E cmds parents).Apart
          (E.hash (s.proposed cmds parents)) (parents.map s.height) :=
        ⟨fun h => h hproposes.1 hproposes.2, fun h _ _ => h⟩
      rw [hsame, hapart]
      refine Replica.tailsAreLeaves_deliverBlk_iff ((Replica.closed_of_tree htree).mpr hclosed)
        fun t => ?_
      rw [Replica.mem_tails_proposing, htails, Replica.leaf_of_tree htree]
      refine and_congr_right fun ht => ?_
      rw [Replica.height_of_delivered htree ht.1, List.mem_map]
      constructor
      · rintro hne ⟨p, hp, heq⟩
        exact hne p hp heq.symm
      · intro hmem p hp heq
        exact hmem ⟨p, hp, heq.symm⟩
    · rw [run_propose_of_not hproposes]
      exact iff_of_true htails fun htrans hparents => absurd ⟨htrans, hparents⟩ hproposes

theorem closed_run (hclosed : s.Closed) (c : TreeCall) : (c.run E s).Closed := by
  cases c with
  | deliver h => exact Replica.closed_deliverBlk hclosed
  | propose cmds parents =>
    by_cases hproposes : s.viewTrans = false ∧ parents ≠ []
    · obtain ⟨k, hk, hrun⟩ := run_propose (E := E) cmds hproposes.1 hproposes.2
      rw [hrun, Replica.closed_of_tree
        (Replica.tree_congr (Replica.rep_andThen Replica.blkCache fun t => (hk t).2))]
      apply Replica.closed_deliverBlk
      exact (Replica.closed_of_tree (Replica.tree_proposing cmds parents)).mpr hclosed
    · rw [run_propose_of_not hproposes]
      exact hclosed

end TreeCall

/-- The states that calls of `on_deliver_blk` and `on_propose` lead to, each call one that `ok`
allows. Between the calls anything may happen that leaves the tails and the delivered blocks alone,
in particular blocks may be added to the cache. -/
inductive TreeReachable (E : Env T) (ok : Replica T → TreeCall → Prop) : Replica T → Prop
  | init (i : ℕ) : TreeReachable E ok (E.init i)
  | call {s : Replica T} (hs : TreeReachable E ok s) (c : TreeCall) (hok : ok s c) :
    TreeReachable E ok (c.run E s)
  | other {s s' : Replica T} (hs : TreeReachable E ok s) (htails : s'.tails = s.tails)
    (htree : s'.tree = s.tree) : TreeReachable E ok s'

theorem TreeReachable.closed {E : Env T} {ok : Replica T → TreeCall → Prop} {s : Replica T}
    (hs : TreeReachable E ok s) : s.Closed := by
  induction hs with
  | init i => exact Replica.closed_init i
  | call _ c _ ih => exact TreeCall.closed_run ih c
  | other _ _ htree ih => exact (Replica.closed_of_tree htree).mpr ih

/-- As long as no call erases or inserts a block that has the height of a leaf that stays, the tails
are the leaves in every state reached; and a call for which this fails ends that. -/
theorem tails_leaves_iff (E : Env T) (s : Replica T)
    (hs : TreeReachable E (fun s c => c.Apart E s) s) :
    s.TailsAreLeaves ∧ ∀ c : TreeCall, (c.run E s).TailsAreLeaves ↔ c.Apart E s := by
  have htails : s.TailsAreLeaves := by
    induction hs with
    | init i => exact Replica.tailsAreLeaves_init i
    | call hs c hok ih => exact (TreeCall.tailsAreLeaves_iff hs.closed ih c).mpr hok
    | other _ htails htree ih => exact (Replica.tailsAreLeaves_congr htails htree).mpr ih
  exact ⟨htails, fun c => TreeCall.tailsAreLeaves_iff hs.closed htails c⟩

namespace System

/-- A block on top of the genesis block, with one command. -/
def child (cmd : ℕ) : BlockContent plainTypes := ⟨[twoEnv.genesis], [cmd], none, 0, (0 : ℕ)⟩

/-- Replica `0` with two blocks on top of the genesis block in its cache. -/
def forked : Replica plainTypes :=
  ((twoEnv.init 0).addBlk ((child 1).toBlock (twoEnv.hash (child 1)))).addBlk
    ((child 2).toBlock (twoEnv.hash (child 2)))

theorem tree_forked : forked.tree = (twoEnv.init 0).tree :=
  (Replica.tree_addBlk rfl).trans (Replica.tree_addBlk rfl)

theorem reachable_forked {ok : Replica plainTypes → TreeCall → Prop} :
    TreeReachable twoEnv ok forked := .other (.init 0) rfl tree_forked

theorem delivering_child : forked.Delivering (twoEnv.hash (child 1))
    ((child 1).toBlock (twoEnv.hash (child 1))) 1 where
  cached := rfl
  new := rfl
  parents := by decide
  height := ⟨twoEnv.genesis, [], rfl, rfl⟩
  fetched := nofun

theorem apart_child : (TreeCall.deliver (twoEnv.hash (child 1))).Apart twoEnv forked := by
  intro t ht hstays
  have hgenesis : t ∈ (twoEnv.init 0).tails :=
    (Replica.tailsAreLeaves_init 0 t).mpr ((Replica.leaf_of_tree tree_forked).mp ht)
  exact absurd hgenesis (hstays _ 1 delivering_child)

/-- The first child of the genesis block takes its place. -/
theorem tails_leaves_child :
    ((TreeCall.deliver (twoEnv.hash (child 1))).run twoEnv forked).TailsAreLeaves ∧
      ∀ c : TreeCall,
        (c.run twoEnv ((TreeCall.deliver (twoEnv.hash (child 1))).run twoEnv forked)).TailsAreLeaves ↔
          c.Apart twoEnv ((TreeCall.deliver (twoEnv.hash (child 1))).run twoEnv forked) :=
  tails_leaves_iff twoEnv _ (reachable_forked.call (.deliver (twoEnv.hash (child 1))) apart_child)

/-- The second child of the genesis block is a leaf, but not a tail. -/
theorem fork_loses_leaf : ∃ s : Replica plainTypes, TreeReachable twoEnv (fun _ _ => True) s ∧
    s.tails = [twoEnv.hash (child 1)] ∧ s.Leaf (twoEnv.hash (child 2)) ∧ ¬ s.TailsAreLeaves := by
  let s := (TreeCall.deliver (twoEnv.hash (child 1))).run twoEnv forked
  have hs : TreeReachable twoEnv (fun _ _ => True) s := reachable_forked.call (.deliver _) trivial
  suffices hleaf : ((TreeCall.deliver (twoEnv.hash (child 2))).run twoEnv s).Leaf
      (twoEnv.hash (child 2)) from
    ⟨_, hs.call (.deliver _) trivial, rfl, hleaf, fun htails =>
      absurd ((htails _).mpr hleaf) (by decide +kernel)⟩
  have hd : s.Delivering (twoEnv.hash (child 2)) ((child 2).toBlock (twoEnv.hash (child 2))) 1 :=
    ⟨rfl, rfl, by decide, ⟨twoEnv.genesis, [], rfl, rfl⟩, nofun⟩
  rcases Replica.deliverBlk_tree s (twoEnv.hash (child 2)) with ⟨hnot, -⟩ | ⟨b, n, hd', htree, -⟩
  · exact absurd hd (hnot _ _)
  · exact (Replica.leaf_deliverBlk_iff hs.closed hd' htree).mpr (Or.inr rfl)

end System

end OptRand.Hotstuff
