import OptRand.Hotstuff.State

/-!
# The block cache (`EntityStorage`, `on_deliver_blk`, `update_hqc`, `check_commit`)

The part of `HotStuffCore` that reads and writes blocks. The walks along `parents[0]` count
down the height of the block they start from, which drops with every step among delivered
blocks; a walk that leaves the delivered blocks is undefined behaviour of the program.
-/

namespace OptRand.Hotstuff

variable {T : PayloadTypes}

/-- A state, or an exception with the state in which it was thrown. -/
abbrev Attempt (T : PayloadTypes) := Except (Replica T × Error) (Replica T)

/-- Go on after `r`. -/
def Attempt.andThen (r : Attempt T) (k : Replica T → Outcome T) : Outcome T :=
  match r with
  | .ok s => k s
  | .error (s, e) => s.raise e

/-- The block of a content, before it is delivered. -/
def BlockContent.toBlock (c : BlockContent T) (hash : ℕ) : Block T :=
  { c with
    hash := hash
    parents := []
    qcRef := none
    selfQc := none
    height := 0
    delivered := false
    decision := 0
    voted := []
    acked := []
    view := 0 }

namespace Replica

/-! ## The cache -/

/-- Dereference a `block_t`. -/
def getBlk (s : Replica T) (h : ℕ) : Except Error (Block T) :=
  match s.blkCache h with
  | some blk => .ok blk
  | none => .error .undefined

/-- Write through a `block_t`. -/
def setBlk (s : Replica T) (h : ℕ) (blk : Block T) : Replica T :=
  { s with blkCache := Function.update s.blkCache h (some blk) }

/-- Change the block `h`, if it is there. -/
def modifyBlk (s : Replica T) (h : ℕ) (f : Block T → Block T) : Replica T :=
  match s.blkCache h with
  | some blk => s.setBlk h (f blk)
  | none => s

/-- `EntityStorage::is_blk_delivered`. -/
def isBlkDelivered (s : Replica T) (h : ℕ) : Bool :=
  match s.blkCache h with
  | some blk => blk.delivered
  | none => false

/-- `EntityStorage::is_blk_fetched`. -/
def isBlkFetched (s : Replica T) (h : ℕ) : Bool := (s.blkCache h).isSome

/-- `EntityStorage::add_blk`, which keeps a block that is there. -/
def addBlk (s : Replica T) (blk : Block T) : Replica T :=
  if s.isBlkFetched blk.hash then s else s.setBlk blk.hash blk

/-- `HotStuffCore::get_delivered_blk`. -/
def getDeliveredBlk (s : Replica T) (h : ℕ) : Except Error (Block T) :=
  match s.blkCache h with
  | some blk => if blk.delivered then .ok blk else .error (.runtimeError "block not delivered")
  | none => .error (.runtimeError "block not delivered")

/-- The height of the block `h`. -/
def height (s : Replica T) (h : ℕ) : ℕ :=
  match s.blkCache h with
  | some blk => blk.height
  | none => 0

/-! ## Walks along `parents[0]` -/

/-- `for (b = …; b->height > height; b = b->parents[0]);` with at most `fuel` steps. -/
def walkTo (s : Replica T) (height : ℕ) : ℕ → ℕ → Except Error ℕ
  | 0, b => do
    let blk ← s.getBlk b
    if blk.height ≤ height then return b
    throw .undefined
  | fuel + 1, b => do
    let blk ← s.getBlk b
    if blk.height ≤ height then return b
    match blk.parents with
    | p :: _ => s.walkTo height fuel p
    | [] => throw .undefined

/-- The block that the walk from `b` to the height of `a` ends in. -/
def branchAt (s : Replica T) (a b : ℕ) : Except Error ℕ := do
  let blkA ← s.getBlk a
  let blkB ← s.getBlk b
  s.walkTo blkA.height blkB.height b

/-- `PMHighTail::check_ancestry`. -/
def checkAncestry (s : Replica T) (a b : ℕ) : Except Error Bool := do
  return decide ((← s.branchAt a b) = a)

/-- The loop of `check_commit`: the blocks passed, the highest first, and where it ends. -/
def commitQueue (s : Replica T) (height : ℕ) : ℕ → ℕ → Except Error (List ℕ × ℕ)
  | 0, b => do
    let blk ← s.getBlk b
    if blk.height ≤ height then return ([], b)
    throw .undefined
  | fuel + 1, b => do
    let blk ← s.getBlk b
    if blk.height ≤ height then return ([], b)
    match blk.parents with
    | p :: _ =>
      let (queue, last) ← s.commitQueue height fuel p
      return (b :: queue, last)
    | [] => throw .undefined

/-! ## Tails, ordered and compared by height -/

/-- `tails.erase`. -/
def eraseTail (s : Replica T) (h : ℕ) : Replica T :=
  { s with tails := s.tails.filter fun t => s.height t ≠ s.height h }

/-- `tails.insert`. -/
def insertTail (s : Replica T) (h : ℕ) : Replica T :=
  if s.tails.any fun t => s.height t == s.height h then s
  else
    { s with
      tails := s.tails.filter (fun t => s.height t < s.height h) ++ h ::
        s.tails.filter fun t => s.height h < s.height t }

/-! ## Delivery -/

/-- The loop of `on_deliver_blk` that fills `parents`: the parents found before the first
one that is not delivered, and whether all were. -/
def deliveredParents (s : Replica T) : List ℕ → List ℕ × Bool
  | [] => ([], true)
  | h :: hs =>
    if s.isBlkDelivered h then
      let (parents, complete) := s.deliveredParents hs
      (h :: parents, complete)
    else ([], false)

/-- `HotStuffCore::on_deliver_blk`. -/
def deliverBlk (s : Replica T) (h : ℕ) : Attempt T :=
  match s.blkCache h with
  | none => .error (s, .undefined)
  | some blk =>
    if blk.delivered then .ok s
    else
      let (parents, complete) := s.deliveredParents blk.parentHashes
      let blk := { blk with parents := parents }
      if !complete then .error (s.setBlk h blk, .runtimeError "block not delivered")
      else
        match parents with
        | [] => .error (s.setBlk h blk, .undefined)
        | p :: _ =>
          let blk := { blk with height := s.height p + 1 }
          if blk.qc.isSome ∧ !s.isBlkFetched blk.qcRefHash then
            .error (s.setBlk h blk, .runtimeError "block referred by qc not fetched")
          else
            let blk := { blk with
              qcRef := if blk.qc.isSome then some blk.qcRefHash else blk.qcRef
              delivered := true }
            .ok ((parents.foldl eraseTail (s.setBlk h blk)).insertTail h)

/-! ## The highest certificate -/

/-- `on_hqc_update`, whose callback is that of `PMHighTail::reg_hqc_update`. -/
def onHqcUpdate (s : Replica T) : Except Error (Replica T) := do
  let hqcTail ← s.tails.foldlM (fun hqcTail tail => do
    if (← s.checkAncestry s.hqc.1 tail) && s.height tail > s.height hqcTail then return tail
    return hqcTail) s.pm.hqcTail
  return { s with pm := { s.pm with hqcTail := hqcTail } }

/-- `HotStuffCore::update_hqc`. -/
def updateHqc (s : Replica T) (blk : ℕ) (qc : QuorumCert) : Attempt T :=
  if qc.objHash ≠ blk then .error (s, .assertion)
  else if qc.view > s.hqc.2.view then
    let s := { s with hqc := (blk, qc) }
    match s.onHqcUpdate with
    | .ok s => .ok s
    | .error e => .error (s, e)
  else .ok s

end Replica

end OptRand.Hotstuff
