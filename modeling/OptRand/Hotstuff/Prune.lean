import OptRand.Hotstuff.Scripts
import OptRand.Hotstuff.Tree
import Mathlib.Algebra.BigOperators.Group.Finset.Basic
import Mathlib.Algebra.Order.BigOperators.Group.Finset
import Mathlib.Logic.Relation

/-!
# Pruning old blocks (`HotStuffCore::prune`, `EntityStorage::try_release_blk`)

`prune` walks `staleness` steps down `parents[0]` from `b_exec`, and from there takes all links
to older blocks apart. It pushes a block once for each link to it, and releases a block without
parents when only the storage and the stack refer to it. Every turn of the loop takes a link away
or an entry off the stack, so it ends; what it changes lies behind the block it started from
(`Storage.prune_keeps_chain`). The delivered blocks of a replica are such a graph in every state
(`System.Run.prunable`).
-/

namespace OptRand.Hotstuff

open Relation

variable {T : PayloadTypes}

/-- `blk_cache` of `EntityStorage`, a finite map. -/
structure Storage (T : PayloadTypes) where
  blkCache : ℕ → Option (Block T)
  keys : Finset ℕ
  mem_keys : ∀ h, h ∈ keys ↔ (blkCache h).isSome = true

namespace Storage

/-- Change the block `h`, if it is there. -/
def modifyBlk (σ : Storage T) (h : ℕ) (f : Block T → Block T) : Storage T where
  blkCache := Function.update σ.blkCache h ((σ.blkCache h).map f)
  keys := σ.keys
  mem_keys := by
    intro k
    rw [σ.mem_keys]
    by_cases hk : k = h
    · rw [hk, Function.update_self, Option.isSome_map]
    · rw [Function.update_of_ne hk]

/-- `blk_cache.erase`. -/
def eraseBlk (σ : Storage T) (h : ℕ) : Storage T where
  blkCache := Function.update σ.blkCache h none
  keys := σ.keys.erase h
  mem_keys := by
    intro k
    rw [Finset.mem_erase, σ.mem_keys]
    by_cases hk : k = h
    · simp [hk]
    · simp [hk]

/-- `EntityStorage::is_blk_fetched`. -/
def isBlkFetched (σ : Storage T) (h : ℕ) : Bool := (σ.blkCache h).isSome

/-- The blocks that the block `h` points to as parents. -/
def parents (σ : Storage T) (h : ℕ) : List ℕ :=
  match σ.blkCache h with
  | some blk => blk.parents
  | none => []

/-- The block that the block `h` points to with `qc_ref`. -/
def qcRef (σ : Storage T) (h : ℕ) : Option ℕ := (σ.blkCache h).bind Block.qcRef

/-- How many times blocks of the storage point to `h`. -/
def pointers (σ : Storage T) (h : ℕ) : ℕ :=
  ∑ k ∈ σ.keys, ((σ.parents k).count h + if σ.qcRef k = some h then 1 else 0)

/-- `blk.get_cnt()` in `prune`: the pointers of the storage, of its blocks, of `start` and of the
stack, and the `held` ones from elsewhere (`b_exec`, `hqc`, `tails` and so on). -/
def getCnt (σ : Storage T) (held : ℕ → ℕ) (start : ℕ) (stack : List ℕ) (h : ℕ) : ℕ :=
  (if σ.isBlkFetched h then 1 else 0) + σ.pointers h + (if h = start then 1 else 0) +
    stack.count h + held h

/-- `EntityStorage::try_release_blk`. -/
def tryReleaseBlk (σ : Storage T) (held : ℕ → ℕ) (start : ℕ) (stack : List ℕ) (h : ℕ) : Storage T :=
  if σ.getCnt held start stack h = 2 then σ.eraseBlk h else σ

/-- The loop of `prune`, with at most `fuel` turns. -/
def pruneLoop (held : ℕ → ℕ) (start : ℕ) : ℕ → List ℕ → Storage T → Except Error (Storage T)
  | _, [], σ => .ok σ
  | 0, _ :: _, _ => .error .undefined
  | fuel + 1, blk :: stack, σ =>
    match σ.blkCache blk with
    | none => .error .undefined
    | some b =>
      match b.parents.getLast? with
      | none => pruneLoop held start fuel stack (σ.tryReleaseBlk held start (blk :: stack) blk)
      | some p => pruneLoop held start fuel (p :: blk :: stack)
          (σ.modifyBlk blk fun b => { b with qcRef := none, parents := b.parents.dropLast })

/-- `for (start = b_exec; staleness; staleness--, start = start->parents[0])`; `none` when the chain
ends before. -/
def skip (σ : Storage T) : ℕ → ℕ → Except Error (Option ℕ)
  | 0, start => .ok (some start)
  | staleness + 1, start =>
    match σ.blkCache start with
    | none => .error .undefined
    | some b =>
      match b.parents with
      | [] => .ok none
      | p :: _ => σ.skip staleness p

/-- `HotStuffCore::prune`. -/
def prune (σ : Storage T) (held : ℕ → ℕ) (bExec staleness fuel : ℕ) :
    Except Error (Storage T) := do
  match ← σ.skip staleness bExec with
  | none => return σ
  | some start =>
    pruneLoop held start fuel [start] (σ.modifyBlk start fun b => { b with qcRef := none })

/-! ## The graph -/

/-- `p` is a parent of `h`. -/
def Parent (σ : Storage T) (h p : ℕ) : Prop := p ∈ σ.parents h

/-- Every parent is in the storage. -/
def Closed (σ : Storage T) : Prop := ∀ h p, σ.Parent h p → σ.isBlkFetched p = true

def Acyclic (σ : Storage T) : Prop := ∀ h, ¬ TransGen σ.Parent h h

/-- `parents[0]` of the block `h`. -/
def firstParent (σ : Storage T) (h : ℕ) : Option ℕ := (σ.parents h).head?

/-- `k` steps from `h` along `parents[0]`. -/
def ancestor (σ : Storage T) : ℕ → ℕ → Option ℕ
  | 0, h => some h
  | k + 1, h => (σ.firstParent h).bind (σ.ancestor k)

/-- The number of links to parents. -/
def links (σ : Storage T) : ℕ := ∑ k ∈ σ.keys, (σ.parents k).length

variable {σ σ' : Storage T} {h k p : ℕ} {f : Block T → Block T}

theorem parents_eq {b : Block T} (hb : σ.blkCache h = some b) : σ.parents h = b.parents := by
  rw [parents, hb]

theorem parent_iff : σ.Parent h p ↔ ∃ b, σ.blkCache h = some b ∧ p ∈ b.parents := by
  unfold Parent parents
  cases σ.blkCache h with
  | none => simp
  | some b => simp

theorem isBlkFetched_iff : σ.isBlkFetched h = true ↔ ∃ b, σ.blkCache h = some b :=
  Option.isSome_iff_exists

theorem fetched_of_parent (hp : σ.Parent h p) : σ.isBlkFetched h = true := by
  obtain ⟨b, hb, -⟩ := parent_iff.mp hp
  exact isBlkFetched_iff.mpr ⟨b, hb⟩

theorem blkCache_modifyBlk_of_ne (hk : k ≠ h) : (σ.modifyBlk h f).blkCache k = σ.blkCache k :=
  Function.update_of_ne hk _ _

theorem blkCache_modifyBlk_self : (σ.modifyBlk h f).blkCache h = (σ.blkCache h).map f :=
  Function.update_self ..

theorem blkCache_modifyBlk {b : Block T} (hb : σ.blkCache h = some b) :
    (σ.modifyBlk h f).blkCache h = some (f b) := by
  rw [blkCache_modifyBlk_self, hb, Option.map_some]

theorem isBlkFetched_modifyBlk : (σ.modifyBlk h f).isBlkFetched k = σ.isBlkFetched k := by
  rw [Bool.eq_iff_iff]
  exact ((σ.modifyBlk h f).mem_keys k).symm.trans (σ.mem_keys k)

theorem parents_modifyBlk {b : Block T} (hb : σ.blkCache h = some b) :
    (σ.modifyBlk h f).parents = Function.update σ.parents h (f b).parents := by
  funext k
  by_cases hk : k = h
  · subst hk
    rw [parents_eq (blkCache_modifyBlk hb), Function.update_self]
  · rw [parents, blkCache_modifyBlk_of_ne hk, Function.update_of_ne hk, parents]

theorem parents_modifyBlk_of_parents (hf : ∀ b, (f b).parents = b.parents) :
    (σ.modifyBlk h f).parents = σ.parents := by
  funext k
  by_cases hk : k = h
  · subst hk
    rw [parents, blkCache_modifyBlk_self, parents]
    cases σ.blkCache k with
    | none => rfl
    | some b => exact hf b
  · rw [parents, blkCache_modifyBlk_of_ne hk, parents]

theorem blkCache_eraseBlk : (σ.eraseBlk h).blkCache h = none := Function.update_self ..

theorem blkCache_eraseBlk_of_ne (hk : k ≠ h) : (σ.eraseBlk h).blkCache k = σ.blkCache k :=
  Function.update_of_ne hk _ _

theorem parents_eraseBlk : (σ.eraseBlk h).parents = Function.update σ.parents h [] := by
  funext k
  by_cases hk : k = h
  · rw [hk, parents, blkCache_eraseBlk, Function.update_self]
  · rw [parents, blkCache_eraseBlk_of_ne hk, Function.update_of_ne hk, parents]

/-! ## The links -/

/-- Taking one link of a block away leaves one link less. -/
theorem links_modifyBlk {b : Block T} (hb : σ.blkCache h = some b)
    (hlength : (f b).parents.length + 1 = b.parents.length) :
    (σ.modifyBlk h f).links + 1 = σ.links := by
  have hmem : h ∈ σ.keys := (σ.mem_keys h).mpr (by rw [hb]; rfl)
  unfold links
  rw [parents_modifyBlk hb]
  change ∑ k ∈ σ.keys, _ + 1 = _
  rw [← Finset.add_sum_erase _ _ hmem, ← Finset.add_sum_erase _ _ hmem, Function.update_self,
    parents_eq hb, ← hlength]
  have hrest : ∑ k ∈ σ.keys.erase h, (Function.update σ.parents h (f b).parents k).length =
      ∑ k ∈ σ.keys.erase h, (σ.parents k).length := by
    refine Finset.sum_congr rfl fun k hk => ?_
    rw [Function.update_of_ne (Finset.ne_of_mem_erase hk)]
  omega

theorem links_modifyBlk_of_parents (hf : ∀ b, (f b).parents = b.parents) :
    (σ.modifyBlk h f).links = σ.links := by
  refine Finset.sum_congr rfl fun k _ => ?_
  rw [parents_modifyBlk_of_parents hf]

theorem links_eraseBlk_le : (σ.eraseBlk h).links ≤ σ.links := by
  unfold links
  rw [parents_eraseBlk]
  calc ∑ k ∈ σ.keys.erase h, (Function.update σ.parents h [] k).length
      = ∑ k ∈ σ.keys.erase h, (σ.parents k).length := by
        refine Finset.sum_congr rfl fun k hk => ?_
        rw [Function.update_of_ne (Finset.ne_of_mem_erase hk)]
    _ ≤ ∑ k ∈ σ.keys, (σ.parents k).length :=
        Finset.sum_le_sum_of_subset (Finset.erase_subset h σ.keys)

/-! ## What is left of the links -/

theorem isBlkFetched_eraseBlk_of_ne (hne : p ≠ h) :
    (σ.eraseBlk h).isBlkFetched p = σ.isBlkFetched p := by
  rw [isBlkFetched, blkCache_eraseBlk_of_ne hne, isBlkFetched]

theorem parent_of_eraseBlk {q : ℕ} (hq : (σ.eraseBlk h).Parent p q) : σ.Parent p q := by
  unfold Parent at hq
  rw [parents_eraseBlk] at hq
  by_cases heq : p = h
  · rw [heq, Function.update_self] at hq
    cases hq
  · rw [Function.update_of_ne heq] at hq
    exact hq

theorem parent_of_dropLast {b : Block T} {q : ℕ} (hb : σ.blkCache h = some b)
    (hq : (σ.modifyBlk h fun b =>
      { b with qcRef := none, parents := b.parents.dropLast }).Parent p q) : σ.Parent p q := by
  unfold Parent at hq
  rw [parents_modifyBlk hb] at hq
  by_cases heq : p = h
  · rw [heq, Function.update_self] at hq
    rw [heq, Parent, parents_eq hb]
    exact List.mem_of_mem_dropLast hq
  · rw [Function.update_of_ne heq] at hq
    exact hq

/-! ## Releases -/

/-- A block that nothing in the storage points to is no parent. -/
theorem not_parent_of_pointers (hp : σ.pointers p = 0) : ¬ σ.Parent h p := by
  intro hparent
  have hmem : h ∈ σ.keys := (σ.mem_keys h).mpr (fetched_of_parent hparent)
  have hzero := Finset.sum_eq_zero_iff.mp hp h hmem
  have hcount := List.count_pos_iff.mpr hparent
  omega

/-- Two pointers are that of the storage and that of the top of the stack. -/
theorem of_getCnt {held : ℕ → ℕ} {start : ℕ} {stack : List ℕ} (hfetched : σ.isBlkFetched h = true)
    (hcnt : σ.getCnt held start (h :: stack) h = 2) :
    h ≠ start ∧ h ∉ stack ∧ σ.pointers h = 0 := by
  rw [getCnt, if_pos hfetched, List.count_cons_self] at hcnt
  refine ⟨?_, ?_, by omega⟩
  · rintro rfl
    rw [if_pos rfl] at hcnt
    omega
  · intro hmem
    have hcount := List.count_pos_iff.mpr hmem
    omega

/-! ## The loop -/

/-- What holds in the loop of `prune` that started with `start` in the storage `σ₀`. -/
structure Pruning (σ₀ : Storage T) (start : ℕ) (stack : List ℕ) (σ : Storage T) : Prop where
  closed : σ.Closed
  fetched : ∀ h ∈ stack, σ.isBlkFetched h = true
  behind : ∀ h ∈ stack, ReflTransGen σ₀.Parent start h
  kept : ∀ h, ¬ ReflTransGen σ₀.Parent start h → σ.blkCache h = σ₀.blkCache h
  parent : ∀ h p, σ.Parent h p → σ₀.Parent h p
  root : ∃ b₀ ps, σ₀.blkCache start = some b₀ ∧
    σ.blkCache start = some { b₀ with qcRef := none, parents := ps }
  ends : start ∈ stack ∨ σ.parents start = []
  released : ∀ h, σ₀.isBlkFetched h = true → σ.isBlkFetched h = false →
    TransGen σ₀.Parent start h

variable {σ₀ : Storage T} {start blk : ℕ} {stack : List ℕ}

theorem Pruning.of_start (hclosed : σ.Closed) (hstart : σ.isBlkFetched start = true) :
    Pruning σ start [start] (σ.modifyBlk start fun b => { b with qcRef := none }) := by
  obtain ⟨b, hb⟩ := isBlkFetched_iff.mp hstart
  have hparents : (σ.modifyBlk start fun b => { b with qcRef := none }).parents = σ.parents :=
    parents_modifyBlk_of_parents fun _ => rfl
  have hparent : (σ.modifyBlk start fun b => { b with qcRef := none }).Parent = σ.Parent := by
    unfold Parent
    rw [hparents]
  refine ⟨?_, ?_, ?_, ?_, ?_, ?_, ?_, ?_⟩
  · intro h p hp
    rw [isBlkFetched_modifyBlk]
    exact hclosed h p (hparent ▸ hp)
  · intro h hh
    rw [isBlkFetched_modifyBlk, List.mem_singleton.mp hh]
    exact hstart
  · intro h hh
    rw [List.mem_singleton.mp hh]
  · intro h hh
    refine blkCache_modifyBlk_of_ne ?_
    rintro rfl
    exact hh ReflTransGen.refl
  · intro h p hp
    exact hparent ▸ hp
  · exact ⟨b, b.parents, hb, blkCache_modifyBlk hb⟩
  · exact Or.inl List.mem_cons_self
  · intro h hh hgone
    rw [isBlkFetched_modifyBlk, hh] at hgone
    cases hgone

/-- A block without parents comes off the stack. -/
theorem Pruning.tail (hw : Pruning σ₀ start (blk :: stack) σ) (hparents : σ.parents blk = []) :
    Pruning σ₀ start stack σ where
  closed := hw.closed
  fetched h hh := hw.fetched h (List.mem_cons_of_mem _ hh)
  behind h hh := hw.behind h (List.mem_cons_of_mem _ hh)
  kept := hw.kept
  parent := hw.parent
  root := hw.root
  ends := by
    rcases hw.ends with hmem | hend
    · rcases List.mem_cons.mp hmem with rfl | hmem
      · exact Or.inr hparents
      · exact Or.inl hmem
    · exact Or.inr hend
  released := hw.released

/-- A block that nothing points to is erased. -/
theorem Pruning.release (hw : Pruning σ₀ start stack σ)
    (hbehind : ReflTransGen σ₀.Parent start blk) (hne : blk ≠ start) (hnot : blk ∉ stack)
    (hpointers : σ.pointers blk = 0) : Pruning σ₀ start stack (σ.eraseBlk blk) where
  closed := by
    intro h p hp
    have hold := parent_of_eraseBlk hp
    rw [isBlkFetched_eraseBlk_of_ne]
    · exact hw.closed h p hold
    · rintro rfl
      exact not_parent_of_pointers hpointers hold
  fetched := by
    intro h hh
    rw [isBlkFetched_eraseBlk_of_ne]
    · exact hw.fetched h hh
    · rintro rfl
      exact hnot hh
  behind := hw.behind
  kept := by
    intro h hh
    rw [blkCache_eraseBlk_of_ne]
    · exact hw.kept h hh
    · rintro rfl
      exact hh hbehind
  parent h p hp := hw.parent h p (parent_of_eraseBlk hp)
  root := by
    rw [blkCache_eraseBlk_of_ne hne.symm]
    exact hw.root
  ends := by
    rw [parents, blkCache_eraseBlk_of_ne hne.symm, ← parents]
    exact hw.ends
  released := by
    intro h hh hgone
    by_cases heq : h = blk
    · rw [heq]
      exact (reflTransGen_iff_eq_or_transGen.mp hbehind).resolve_left hne
    · rw [isBlkFetched_eraseBlk_of_ne heq] at hgone
      exact hw.released h hh hgone

/-- A block without parents comes off the stack, and it may be released. -/
theorem Pruning.pop (hw : Pruning σ₀ start (blk :: stack) σ) (hparents : σ.parents blk = [])
    (held : ℕ → ℕ) :
    Pruning σ₀ start stack (σ.tryReleaseBlk held start (blk :: stack) blk) := by
  unfold tryReleaseBlk
  split
  · rename_i hcnt
    obtain ⟨hne, hnot, hpointers⟩ := of_getCnt (hw.fetched blk List.mem_cons_self) hcnt
    exact (hw.tail hparents).release (hw.behind blk List.mem_cons_self) hne hnot hpointers
  · exact hw.tail hparents

/-- The last parent of a block moves onto the stack. -/
theorem Pruning.push {b : Block T} (hw : Pruning σ₀ start (blk :: stack) σ)
    (hb : σ.blkCache blk = some b) (hlast : b.parents.getLast? = some p) :
    Pruning σ₀ start (p :: blk :: stack)
      (σ.modifyBlk blk fun b => { b with qcRef := none, parents := b.parents.dropLast }) := by
  have hp : σ.Parent blk p := by
    rw [Parent, parents_eq hb]
    exact List.mem_of_getLast? hlast
  have hbehind := hw.behind blk List.mem_cons_self
  refine ⟨?_, ?_, ?_, ?_, ?_, ?_, ?_, ?_⟩
  · intro h q hq
    rw [isBlkFetched_modifyBlk]
    exact hw.closed h q (parent_of_dropLast hb hq)
  · intro h hh
    rw [isBlkFetched_modifyBlk]
    rcases List.mem_cons.mp hh with rfl | hh
    · exact hw.closed blk h hp
    · exact hw.fetched h hh
  · intro h hh
    rcases List.mem_cons.mp hh with rfl | hh
    · exact hbehind.tail (hw.parent blk h hp)
    · exact hw.behind h hh
  · intro h hh
    rw [blkCache_modifyBlk_of_ne]
    · exact hw.kept h hh
    · rintro rfl
      exact hh hbehind
  · exact fun h q hq => hw.parent h q (parent_of_dropLast hb hq)
  · obtain ⟨b₀, ps, hb₀, hstart⟩ := hw.root
    by_cases heq : start = blk
    · subst heq
      cases Option.some.inj (hb.symm.trans hstart)
      exact ⟨b₀, ps.dropLast, hb₀, blkCache_modifyBlk hb⟩
    · exact ⟨b₀, ps, hb₀, (blkCache_modifyBlk_of_ne heq).trans hstart⟩
  · rcases hw.ends with hmem | hend
    · exact Or.inl (List.mem_cons_of_mem _ hmem)
    · right
      rw [parents_modifyBlk hb]
      by_cases heq : start = blk
      · rw [← parents_eq hb, ← heq, hend, Function.update_self]
        rfl
      · rw [Function.update_of_ne heq]
        exact hend
  · intro h hh hgone
    rw [isBlkFetched_modifyBlk] at hgone
    exact hw.released h hh hgone

/-- The loop ends within twice as many turns as there are links, and one for each entry of the
stack. -/
theorem Pruning.run {m : ℕ} (hw : Pruning σ₀ start stack σ) (held : ℕ → ℕ)
    (hm : 2 * σ.links + stack.length = m) :
    ∃ σ', Pruning σ₀ start [] σ' ∧ ∀ fuel ≥ m, pruneLoop held start fuel stack σ = .ok σ' := by
  induction m using Nat.strongRecOn generalizing σ stack with
  | ind m ih =>
    cases stack with
    | nil =>
      refine ⟨σ, hw, fun fuel _ => ?_⟩
      unfold pruneLoop
      rfl
    | cons blk stack =>
      obtain ⟨b, hb⟩ := isBlkFetched_iff.mp (hw.fetched blk List.mem_cons_self)
      rw [List.length_cons] at hm
      cases hlast : b.parents.getLast? with
      | none =>
        have hparents : σ.parents blk = [] :=
          (parents_eq hb).trans (List.getLast?_eq_none_iff.mp hlast)
        have hlinks : (σ.tryReleaseBlk held start (blk :: stack) blk).links ≤ σ.links := by
          unfold tryReleaseBlk
          split
          · exact links_eraseBlk_le
          · exact le_rfl
        obtain ⟨σ', hw', hrun⟩ := ih _ (by omega) (hw.pop hparents held) rfl
        refine ⟨σ', hw', fun fuel hfuel => ?_⟩
        obtain ⟨n, rfl⟩ : ∃ n, fuel = n + 1 := ⟨fuel - 1, by omega⟩
        rw [pruneLoop, hb]
        simp only [hlast]
        exact hrun n (by omega)
      | some p =>
        have hlinks := links_modifyBlk
          (f := fun b => { b with qcRef := none, parents := b.parents.dropLast }) hb (by
            have hne : b.parents ≠ [] := by
              rintro h
              rw [h] at hlast
              cases hlast
            have := List.length_pos_iff.mpr hne
            simp only [List.length_dropLast]
            omega)
        obtain ⟨σ', hw', hrun⟩ := ih _ (by simp only [List.length_cons]; omega)
          (hw.push hb hlast) rfl
        refine ⟨σ', hw', fun fuel hfuel => ?_⟩
        obtain ⟨n, rfl⟩ : ∃ n, fuel = n + 1 := ⟨fuel - 1, by omega⟩
        rw [pruneLoop, hb]
        simp only [hlast]
        exact hrun n (by simp only [List.length_cons]; omega)

/-! ## The chain -/

theorem ancestor_succ_eq_some {n a : ℕ} : σ.ancestor (n + 1) h = some a ↔
    ∃ p, σ.firstParent h = some p ∧ σ.ancestor n p = some a :=
  Option.bind_eq_some_iff

theorem parent_of_firstParent (hp : σ.firstParent h = some p) : σ.Parent h p :=
  List.mem_of_head? hp

theorem reflTransGen_of_ancestor {n a : ℕ} (ha : σ.ancestor n h = some a) :
    ReflTransGen σ.Parent h a := by
  induction n generalizing h with
  | zero =>
    cases ha
    exact ReflTransGen.refl
  | succ n ih =>
    obtain ⟨p, hp, ha⟩ := ancestor_succ_eq_some.mp ha
    exact ReflTransGen.head (parent_of_firstParent hp) (ih ha)

theorem transGen_of_ancestor {n a : ℕ} (ha : σ.ancestor (n + 1) h = some a) :
    TransGen σ.Parent h a := by
  obtain ⟨p, hp, ha⟩ := ancestor_succ_eq_some.mp ha
  exact TransGen.head' (parent_of_firstParent hp) (reflTransGen_of_ancestor ha)

/-- Two steps down the chain are one. -/
theorem ancestor_add (n m : ℕ) : σ.ancestor (n + m) h = (σ.ancestor n h).bind (σ.ancestor m) := by
  induction n generalizing h with
  | zero =>
    rw [Nat.zero_add]
    rfl
  | succ n ih =>
    rw [Nat.succ_add, ancestor, ancestor, Option.bind_assoc]
    exact congrArg _ (funext fun p => ih)

theorem isBlkFetched_of_ancestor (hclosed : σ.Closed) (hh : σ.isBlkFetched h = true) {n a : ℕ}
    (ha : σ.ancestor n h = some a) : σ.isBlkFetched a = true := by
  rcases ReflTransGen.cases_tail (reflTransGen_of_ancestor ha) with rfl | ⟨k, -, hk⟩
  · exact hh
  · exact hclosed k a hk

/-- The first loop of `prune` ends in the ancestor it looks for. -/
theorem skip_eq (hclosed : σ.Closed) (hh : σ.isBlkFetched h = true) (n : ℕ) :
    σ.skip n h = .ok (σ.ancestor n h) := by
  induction n generalizing h with
  | zero => rfl
  | succ n ih =>
    obtain ⟨b, hb⟩ := isBlkFetched_iff.mp hh
    rw [skip, hb, ancestor, firstParent, parents_eq hb]
    dsimp only
    cases hparents : b.parents with
    | nil => rfl
    | cons p ps =>
      refine ih (hclosed h p ?_)
      rw [Parent, parents_eq hb, hparents]
      exact List.mem_cons_self

/-- `prune` ends. When the chain of `b_exec` is shorter than `staleness`, it does nothing. Otherwise
the chain down to `start`, `staleness` steps below `b_exec`, stays in the storage. Of it only
`start` is changed, which has no parents any more. What is not behind `start` is as before, and
what is released lies strictly behind it. -/
theorem prune_keeps_chain (σ : Storage T) (hclosed : σ.Closed) (hacyclic : σ.Acyclic) (bExec : ℕ)
    (hexec : σ.isBlkFetched bExec = true) (held : ℕ → ℕ) (staleness : ℕ) :
    ∃ σ', (∀ fuel > 2 * σ.links, σ.prune held bExec staleness fuel = .ok σ') ∧
      (σ.ancestor staleness bExec = none → σ' = σ) ∧
      ∀ start, σ.ancestor staleness bExec = some start →
        (∀ k < staleness, ∃ h b, σ.ancestor k bExec = some h ∧ σ.blkCache h = some b ∧
          σ'.blkCache h = some b) ∧
        (∃ b, σ.blkCache start = some b ∧
          σ'.blkCache start = some { b with qcRef := none, parents := [] }) ∧
        (∀ h, ¬ ReflTransGen σ.Parent start h → σ'.blkCache h = σ.blkCache h) ∧
        ∀ h, σ.isBlkFetched h = true → σ'.isBlkFetched h = false → TransGen σ.Parent start h := by
  have hskip := skip_eq hclosed hexec staleness
  cases hstart : σ.ancestor staleness bExec with
  | none =>
    refine ⟨σ, fun fuel _ => ?_, fun _ => rfl, nofun⟩
    rw [prune, hskip, hstart]
    rfl
  | some start =>
    have hfetched := isBlkFetched_of_ancestor hclosed hexec hstart
    obtain ⟨σ', hw, hrun⟩ := (Pruning.of_start hclosed hfetched).run held rfl
    have hlinks : (σ.modifyBlk start fun b => { b with qcRef := none }).links = σ.links :=
      links_modifyBlk_of_parents fun _ => rfl
    rw [hlinks] at hrun
    refine ⟨σ', fun fuel hfuel => ?_, nofun, ?_⟩
    · rw [prune, hskip, hstart]
      exact hrun fuel hfuel
    · rintro start ⟨⟩
      refine ⟨fun k hk => ?_, ?_, hw.kept, hw.released⟩
      · obtain ⟨n, rfl⟩ : ∃ n, staleness = k + (n + 1) := ⟨staleness - k - 1, by omega⟩
        rw [ancestor_add, Option.bind_eq_some_iff] at hstart
        obtain ⟨h, hh, ha⟩ := hstart
        have hbefore : ¬ ReflTransGen σ.Parent start h := by
          intro hbehind
          exact hacyclic h ((transGen_of_ancestor ha).trans_left hbehind)
        obtain ⟨b, hb⟩ := isBlkFetched_iff.mp (isBlkFetched_of_ancestor hclosed hexec hh)
        exact ⟨h, b, hh, hb, (hw.kept h hbefore).trans hb⟩
      · obtain ⟨b, ps, hb, hstart'⟩ := hw.root
        have hend := hw.ends.resolve_left List.not_mem_nil
        rw [parents_eq hstart'] at hend
        refine ⟨b, hb, hstart'.trans ?_⟩
        rw [show ps = [] from hend]

theorem acyclic_of_lt (hlt : ∀ h p, σ.Parent h p → p < h) : σ.Acyclic := by
  intro h hcycle
  have hlt : ∀ a, TransGen σ.Parent h a → a < h := by
    intro a ha
    induction ha with
    | single hp => exact hlt _ _ hp
    | tail _ hp ih => exact (hlt _ _ hp).trans ih
  exact lt_irrefl h (hlt h hcycle)

/-- Block `3` on top of `2` with the uncle `1`, both on top of `0`. -/
def diamond : Storage plainTypes where
  blkCache h :=
    let content : BlockContent plainTypes := ⟨[], [], none, 0, (0 : ℕ)⟩
    let parents : List (List ℕ) := [[], [0], [0], [2, 1]]
    parents[h]?.map fun ps => { content.toBlock h with parents := ps, delivered := true }
  keys := Finset.range 4
  mem_keys := by
    intro h
    simp

theorem diamond_parent : ∀ h p, diamond.Parent h p → h ∈ diamond.keys ∧ p < h ∧ p < 4 := by
  intro h p hp
  have hmem : h ∈ diamond.keys := (diamond.mem_keys h).mpr (fetched_of_parent hp)
  have hlt : ∀ h ∈ diamond.keys, ∀ p ∈ diamond.parents h, p < h ∧ p < 4 := by decide
  exact ⟨hmem, hlt h hmem p hp⟩

theorem diamond_keeps_chain : ∃ σ', (∀ fuel > 8, diamond.prune (fun _ => 0) 3 1 fuel = .ok σ') ∧
    σ'.blkCache 3 = diamond.blkCache 3 ∧ σ'.parents 2 = [] := by
  have hclosed : diamond.Closed := by
    intro h p hp
    exact (diamond.mem_keys p).mp (Finset.mem_range.mpr (diamond_parent h p hp).2.2)
  have hacyclic : diamond.Acyclic := acyclic_of_lt fun h p hp => (diamond_parent h p hp).2.1
  have hlinks : 2 * diamond.links = 8 := by decide
  obtain ⟨σ', hrun, -, h⟩ :=
    prune_keeps_chain diamond hclosed hacyclic 3 (by decide) (fun _ => 0) 1
  rw [hlinks] at hrun
  obtain ⟨hchain, ⟨b, -, hb⟩, -⟩ := h 2 (by decide)
  obtain ⟨h, b', hh, hb', hkept⟩ := hchain 0 Nat.zero_lt_one
  cases hh
  exact ⟨σ', hrun, hkept.trans hb'.symm, parents_eq hb⟩

-- The second of its two entries on the stack releases the shared block `0`.
example : ((diamond.prune (fun _ => 0) 3 0 9).toOption.map Storage.keys) = some {3} := by
  decide +kernel

end Storage

/-! ## The delivered blocks of a replica -/

namespace Replica

/-- `p` is a parent of the delivered block `h`. -/
def Parent (s : Replica T) (h p : ℕ) : Prop :=
  ∃ b, s.blkCache h = some b ∧ b.delivered = true ∧ p ∈ b.parents

variable {E : Env T} {s : Replica T} {fr : Frame T} {h p : ℕ}

/-- A block that a call delivers has only parents that were delivered before. -/
theorem parents_of_changes {b b' : Block T} (hsteps : ReflTransGen (Change E s h fr) b b')
    (hnew : b.delivered = false) (hdel : b'.delivered = true) :
    ∀ p ∈ b'.parents, s.isBlkDelivered p = true := by
  induction hsteps with
  | refl => exact absurd (hnew.symm.trans hdel) Bool.false_ne_true
  | tail _ hstep ih =>
    cases hstep with
    | deliver p ps qcRef _ _ hall => exact hall
    | attempt parents height hnew => exact absurd (hnew.symm.trans hdel) Bool.false_ne_true
    | _ => exact ih hdel

/-- A call adds links only from blocks that it delivers to blocks delivered before. -/
theorem parent_of_exec (hp : (s.exec E fr).rep.Parent h p) :
    s.Parent h p ∨ s.isBlkDelivered h = false ∧ s.isBlkDelivered p = true := by
  obtain ⟨b', hb', hdel, hp⟩ := hp
  cases hold : s.isBlkDelivered h with
  | true =>
    left
    obtain ⟨b, hb, hdelb⟩ := isBlkDelivered_iff.mp hold
    obtain ⟨b'', hb'', hle⟩ := exec_blk_le (E := E) fr hb
    cases Option.some.inj (hb'.symm.trans hb'')
    exact ⟨b, hb, hdelb, (hle.delivered hdelb).2.1 ▸ hp⟩
  | false =>
    obtain ⟨b, horigin, hsteps⟩ := (exec_evolves fr).origin hb'
    have hnew : b.delivered = false := by
      rcases horigin with hb | hadd
      · rw [isBlkDelivered, hb] at hold
        exact hold
      · cases hadd <;> rfl
    exact Or.inr ⟨rfl, parents_of_changes hsteps hnew hdel p hp⟩

end Replica

/-- The graph of the delivered blocks has no cycle and ends in delivered blocks. -/
structure Founded (s : Replica T) : Prop where
  closed : ∀ h p, s.Parent h p → s.isBlkDelivered p = true
  acyclic : ∀ h, ¬ TransGen s.Parent h h
  bExec : s.isBlkDelivered s.bExec = true

section

variable {E : Env T} {s : Replica T} {fr : Frame T}

theorem founded_init (i : ℕ) : Founded (E.init i) := by
  have hnone : ∀ h p, ¬ (E.init i).Parent h p := by
    rintro h p ⟨b, hb, -, hp⟩
    obtain ⟨-, rfl⟩ := Env.blkCache_init hb
    cases hp
  refine ⟨fun h p hp => absurd hp (hnone h p), fun h hcycle => ?_, ?_⟩
  · obtain ⟨p, hp, -⟩ := TransGen.head'_iff.mp hcycle
    exact hnone h p hp
  · exact Replica.isBlkDelivered_iff.mpr ⟨E.genesisBlock, E.blkCache_genesis i, rfl⟩

/-- A block that was delivered reaches the same blocks after a call. -/
theorem Founded.path (hs : Founded s) {h a : ℕ} (hdel : s.isBlkDelivered h = true)
    (hpath : ReflTransGen (s.exec E fr).rep.Parent h a) :
    ReflTransGen s.Parent h a ∧ s.isBlkDelivered a = true := by
  induction hpath with
  | refl => exact ⟨ReflTransGen.refl, hdel⟩
  | tail _ hp ih =>
    obtain ⟨hpath, hb⟩ := ih
    rcases Replica.parent_of_exec hp with hp | ⟨hnew, -⟩
    · exact ⟨hpath.tail hp, hs.closed _ _ hp⟩
    · exact absurd (hnew.symm.trans hb) Bool.false_ne_true

theorem delivered_bExec (hs : Founded s) :
    (s.exec E fr).rep.isBlkDelivered (s.exec E fr).rep.bExec = true := by
  by_cases hack : ∀ a, fr ≠ .onReceiveAck a
  · rw [Replica.exec_bExec hack]
    exact (Replica.exec_delivered fr hs.bExec).1
  · obtain ⟨a, rfl⟩ : ∃ a, fr = .onReceiveAck a := by
      simpa using hack
    have hkept := (Replica.exec_delivered (E := E) (.onReceiveAck a) hs.bExec).1
    rcases Replica.onReceiveAck_cases (rfl : s.onReceiveAck E a = _) with
      ⟨hrep, -⟩ | ⟨b, -, hb, hdel, -, -, ⟨hrep, -⟩ | ⟨-, s', executed, hcommit, hrep, -⟩⟩
    · rw [Replica.exec, hrep] at hkept ⊢
      exact hkept
    · rw [Replica.exec, hrep] at hkept ⊢
      exact hkept
    · obtain ⟨-, -, queue, -, -, -, -, -, -, -, -, rfl⟩ := Replica.checkCommit_eq_ok hcommit
      have hbExec : (s.exec E (.onReceiveAck a)).rep.bExec = a.blkHash := by
        rw [Replica.exec, hrep]
      rw [hbExec]
      exact (Replica.exec_delivered _ (Replica.isBlkDelivered_iff.mpr ⟨b, hb, hdel⟩)).1

theorem founded_exec (hs : Founded s) : Founded (s.exec E fr).rep := by
  refine ⟨fun h p hp => ?_, fun h hcycle => ?_, delivered_bExec hs⟩
  · rcases Replica.parent_of_exec hp with hp | ⟨-, hp⟩
    · exact (Replica.exec_delivered fr (hs.closed h p hp)).1
    · exact (Replica.exec_delivered fr hp).1
  · obtain ⟨p, hp, hpath⟩ := TransGen.head'_iff.mp hcycle
    rcases Replica.parent_of_exec hp with hp | ⟨hnew, hdel⟩
    · exact hs.acyclic h (TransGen.head' hp (hs.path (hs.closed h p hp) hpath).1)
    · exact absurd (hnew.symm.trans (hs.path hdel hpath).2) Bool.false_ne_true

end

/-- In every state `prune` may be run on the delivered blocks. -/
theorem System.Run.prunable {E : Env T} {F : Faults T} {ok : System T → ℕ → Frame T → Prop}
    {σ : System T} (h : System.Run E F ok σ) (i : ℕ) {storage : Storage T}
    (hstorage : ∀ k, storage.blkCache k = ((σ.nodes i).rep.blkCache k).filter Block.delivered) :
    storage.Closed ∧ storage.Acyclic ∧ storage.isBlkFetched (σ.nodes i).rep.bExec = true := by
  have hfounded : Founded (σ.nodes i).rep := by
    refine h.node_induction (I := fun _ x => Founded x.rep) (fun i => founded_init i) ?_ ?_ i
    · exact fun i x ev hx _ _ => hx
    · intro σ i fr stack _ _ _ hx _
      rw [Node.rep_after]
      exact founded_exec hx
  have hfetched : ∀ k, storage.isBlkFetched k = (σ.nodes i).rep.isBlkDelivered k := by
    intro k
    rw [Storage.isBlkFetched, hstorage, Replica.isBlkDelivered]
    cases (σ.nodes i).rep.blkCache k with
    | none => rfl
    | some b => cases hdel : b.delivered <;> simp [hdel]
  have hparent : storage.Parent = (σ.nodes i).rep.Parent := by
    funext k p
    rw [eq_iff_iff, Storage.parent_iff, hstorage]
    simp only [Option.filter_eq_some_iff, and_assoc]
    rfl
  refine ⟨fun k p hp => ?_, fun k hcycle => ?_, ?_⟩
  · rw [hfetched]
    exact hfounded.closed k p (hparent ▸ hp)
  · exact hfounded.acyclic k (hparent ▸ hcycle)
  · rw [hfetched]
    exact hfounded.bExec

end OptRand.Hotstuff
