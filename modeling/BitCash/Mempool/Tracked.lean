import Mathlib.Algebra.Group.Prod
import Mathlib.Algebra.Group.TransferInstance
import BitCash.Mempool.Pool

/-!
# The memory pool with its statistics

`CTxMemPool` with what it stores for every entry: the links to parents and children (`mapLinks`), the fee delta, and
the statistics of the entry with its ancestors and with its descendants.
-/

namespace BitCash
open Walk

/-! ## statistics -/

@[ext] structure DescendantState where
  nCountWithDescendants : Int
  nSizeWithDescendants : Int
  nModFeesWithDescendants : Int
  deriving DecidableEq

@[ext] structure AncestorState where
  nCountWithAncestors : Int
  nSizeWithAncestors : Int
  nModFeesWithAncestors : Int
  nSigOpCostWithAncestors : Int
  deriving DecidableEq

def DescendantState.equiv : DescendantState ≃ Int × Int × Int where
  toFun s := (s.nCountWithDescendants, s.nSizeWithDescendants, s.nModFeesWithDescendants)
  invFun t := ⟨t.1, t.2.1, t.2.2⟩
  left_inv _ := rfl
  right_inv _ := rfl

def AncestorState.equiv : AncestorState ≃ Int × Int × Int × Int where
  toFun s := (s.nCountWithAncestors, s.nSizeWithAncestors, s.nModFeesWithAncestors, s.nSigOpCostWithAncestors)
  invFun t := ⟨t.1, t.2.1, t.2.2.1, t.2.2.2⟩
  left_inv _ := rfl
  right_inv _ := rfl

instance : AddCommGroup DescendantState := DescendantState.equiv.addCommGroup

instance : AddCommGroup AncestorState := AncestorState.equiv.addCommGroup

structure EntryState where
  feeDelta : Int
  descendants : DescendantState
  ancestors : AncestorState
  deriving DecidableEq

def EntryState.updateFeeDelta (s : EntryState) (newFeeDelta : Int) : EntryState where
  feeDelta := newFeeDelta
  descendants := s.descendants + ⟨0, 0, newFeeDelta - s.feeDelta⟩
  ancestors := s.ancestors + ⟨0, 0, newFeeDelta - s.feeDelta, 0⟩

def EntryState.updateDescendantState (s : EntryState) (d : DescendantState) : EntryState :=
  { s with descendants := s.descendants + d }

def EntryState.updateAncestorState (s : EntryState) (d : AncestorState) : EntryState :=
  { s with ancestors := s.ancestors + d }

variable {H : Type} [Inhabited H] [DecidableEq H]

structure TrackedEntry (H : Type) [Inhabited H] [DecidableEq H] extends CTxMemPoolEntry H where
  nTxWeight : Nat
  sigOpCost : Nat
  sigOpCost_lt : sigOpCost < 2147483648

def TrackedEntry.getTxSize (nBytesPerSigOp : Nat) (e : TrackedEntry H) : Nat :=
  (max e.nTxWeight (e.sigOpCost * nBytesPerSigOp) + WITNESS_SCALE_FACTOR - 1) / WITNESS_SCALE_FACTOR

/-- `CTxMemPool`, with `mapLinks` as two functions -/
structure Tracked (H : Type) [Inhabited H] [DecidableEq H] where
  mapTx : List (TrackedEntry H)
  mapNextTx : List (COutPoint H × H)
  parents : H → List H
  children : H → List H
  state : H → EntryState
  mapDeltas : H → Int

structure TrackEnv (H : Type) [Inhabited H] [DecidableEq H] where
  env : Env H
  nBytesPerSigOp : Nat

variable (T : TrackEnv H)

def TrackedEntry.hash (e : TrackedEntry H) : H := e.tx.getHash T.env

def TrackedEntry.spentTxs (e : TrackedEntry H) : List H := (e.tx.vin.map (·.prevout.hash)).dedup

def TrackedEntry.initialState (e : TrackedEntry H) : EntryState where
  feeDelta := 0
  descendants := ⟨1, e.getTxSize T.nBytesPerSigOp, e.nFee⟩
  ancestors := ⟨1, e.getTxSize T.nBytesPerSigOp, e.nFee, e.sigOpCost⟩

namespace Tracked

def empty : Tracked H := ⟨[], [], fun _ => [], fun _ => [], fun _ => ⟨0, 0, 0⟩, fun _ => 0⟩

def ids (pool : Tracked H) : List H := pool.mapTx.map (·.hash T)

def find (pool : Tracked H) (hash : H) : Option (TrackedEntry H) := pool.mapTx.find? fun e => e.hash T = hash

def ownAbove (pool : Tracked H) (hash : H) : AncestorState :=
  match pool.find T hash with
  | none => 0
  | some e => ⟨1, e.getTxSize T.nBytesPerSigOp, e.nFee + (pool.state hash).feeDelta, e.sigOpCost⟩

def ownBelow (pool : Tracked H) (hash : H) : DescendantState :=
  match pool.find T hash with
  | none => 0
  | some e => ⟨1, e.getTxSize T.nBytesPerSigOp, e.nFee + (pool.state hash).feeDelta⟩

def modifyDescendants (d : DescendantState) (pool : Tracked H) (hash : H) : Tracked H :=
  { pool with state := Function.update pool.state hash ((pool.state hash).updateDescendantState d) }

def modifyAncestors (d : AncestorState) (pool : Tracked H) (hash : H) : Tracked H :=
  { pool with state := Function.update pool.state hash ((pool.state hash).updateAncestorState d) }

def changeSet (add : Bool) (x : H) (l : List H) : List H :=
  if add then (if x ∈ l then l else l ++ [x]) else l.filter (· ≠ x)

def updateChild (add : Bool) (child : H) (pool : Tracked H) (entry : H) : Tracked H :=
  { pool with children := Function.update pool.children entry (changeSet add child (pool.children entry)) }

def updateParent (add : Bool) (parent : H) (pool : Tracked H) (entry : H) : Tracked H :=
  { pool with parents := Function.update pool.parents entry (changeSet add parent (pool.parents entry)) }

def childLinks (pool : Tracked H) : List (H × H) :=
  (pool.ids T).flatMap fun p => (pool.children p).map fun c => (p, c)

def parentLinks (pool : Tracked H) : List (H × H) :=
  (pool.ids T).flatMap fun c => (pool.parents c).map fun p => (c, p)

def calculateDescendants (pool : Tracked H) (entries : List H) : List H := reached (pool.childLinks T) entries

def calculateMemPoolAncestors (pool : Tracked H) (parentHashes : List H) : List H :=
  reached (pool.parentLinks T) parentHashes

/-! ## additions -/

def updateAncestorsOf (add : Bool) (pool : Tracked H) (it : H) (setAncestors : List H) : Tracked H :=
  let pool := (pool.parents it).foldl (updateChild add it) pool
  let change := if add then pool.ownBelow T it else -pool.ownBelow T it
  setAncestors.foldl (modifyDescendants change) pool

def updateEntryForAncestors (pool : Tracked H) (it : H) (setAncestors : List H) : Tracked H :=
  pool.modifyAncestors (setAncestors.map (pool.ownAbove T)).sum it

def insertEntry (pool : Tracked H) (entry : TrackedEntry H) : Tracked H :=
  let hash := entry.hash T
  if hash ∈ pool.ids T then pool
  else
    { pool with
      mapTx := pool.mapTx ++ [entry]
      parents := Function.update pool.parents hash []
      children := Function.update pool.children hash []
      state := Function.update pool.state hash (entry.initialState T) }

def applyDelta (pool : Tracked H) (hash : H) : Tracked H :=
  if pool.mapDeltas hash ≠ 0 then
    { pool with state := Function.update pool.state hash ((pool.state hash).updateFeeDelta (pool.mapDeltas hash)) }
  else pool

def insertInputs (pool : Tracked H) (entry : TrackedEntry H) : Tracked H :=
  { pool with mapNextTx := entry.tx.vin.foldl (CTxMemPool.insertNext (entry.hash T)) pool.mapNextTx }

def linkParents (pool : Tracked H) (entry : TrackedEntry H) : Tracked H :=
  (entry.spentTxs.filter fun phash => decide (phash ∈ pool.ids T)).foldl
    (fun pool phash => pool.updateParent true phash (entry.hash T)) pool

def addUnchecked (pool : Tracked H) (entry : TrackedEntry H) : Tracked H :=
  let setAncestors := pool.calculateMemPoolAncestors T
    (entry.spentTxs.filter fun phash => decide (phash ∈ pool.ids T))
  let pool := (((pool.insertEntry T entry).applyDelta (entry.hash T)).insertInputs T entry).linkParents T entry
  let pool := pool.updateAncestorsOf T true (entry.hash T) setAncestors
  pool.updateEntryForAncestors T (entry.hash T) setAncestors

/-! ## removals -/

def minusOwnAncestors (pool : Tracked H) (hash : H) : AncestorState :=
  let own := -pool.ownAbove T hash
  { own with nSigOpCostWithAncestors := Int.bmod own.nSigOpCostWithAncestors 4294967296 }

def leaveDescendants (pool : Tracked H) (removeIt : H) : Tracked H :=
  ((pool.calculateDescendants T [removeIt]).filter (· ≠ removeIt)).foldl
    (modifyAncestors (pool.minusOwnAncestors T removeIt)) pool

def leaveAncestors (pool : Tracked H) (removeIt : H) : Tracked H :=
  pool.updateAncestorsOf T false removeIt (pool.calculateMemPoolAncestors T (pool.parents removeIt))

def updateChildrenForRemoval (pool : Tracked H) (it : H) : Tracked H :=
  (pool.children it).foldl (updateParent false it) pool

def updateForRemoveFromMempool (pool : Tracked H) (entriesToRemove : List H) (updateDescendants : Bool) :
    Tracked H :=
  let pool := if updateDescendants then entriesToRemove.foldl (leaveDescendants T) pool else pool
  let pool := entriesToRemove.foldl (leaveAncestors T) pool
  entriesToRemove.foldl updateChildrenForRemoval pool

def removeUnchecked (pool : Tracked H) (stage : List H) : Tracked H :=
  let staged (e : TrackedEntry H) : Bool := stage.contains (e.hash T)
  let prevouts := (pool.mapTx.filter staged).flatMap fun e => e.tx.vin.map (·.prevout)
  { pool with
    mapTx := pool.mapTx.filter fun e => !staged e
    mapNextTx := pool.mapNextTx.filter fun p => !prevouts.contains p.1
    parents := fun h => if h ∈ stage then [] else pool.parents h
    children := fun h => if h ∈ stage then [] else pool.children h }

def removeStaged (pool : Tracked H) (stage : List H) (updateDescendants : Bool) : Tracked H :=
  (pool.updateForRemoveFromMempool T stage updateDescendants).removeUnchecked T stage

def removeWithDescendants (pool : Tracked H) (txToRemove : List H) : Tracked H :=
  pool.removeStaged T (pool.calculateDescendants T txToRemove) false

def nextTx (pool : Tracked H) (o : COutPoint H) : Option H :=
  (pool.mapNextTx.find? fun p => p.1 = o).map (·.2)

def removeSeeds (pool : Tracked H) (origTx : CTransaction H) : List H :=
  let hash := origTx.getHash T.env
  if hash ∈ pool.ids T then [hash]
  else (List.range origTx.vout.length).filterMap fun n => pool.nextTx ⟨hash, UInt32.ofNat n⟩

def removeRecursive (pool : Tracked H) (origTx : CTransaction H) : Tracked H :=
  pool.removeWithDescendants T (pool.removeSeeds T origTx)

def clearPrioritisation (pool : Tracked H) (hash : H) : Tracked H :=
  { pool with mapDeltas := Function.update pool.mapDeltas hash 0 }

def removeConflict (tx : CTransaction H) (pool : Tracked H) (i : CTxIn H) : Tracked H :=
  if i.isnickname then pool
  else match (pool.nextTx i.prevout).bind (pool.find T) with
    | none => pool
    | some conflict =>
      if conflict.hash T = tx.getHash T.env ∨ conflict.tx.isNick = true then pool
      else (pool.clearPrioritisation (conflict.hash T)).removeRecursive T conflict.tx

def removeForTx (pool : Tracked H) (tx : CTransaction H) : Tracked H :=
  let hash := tx.getHash T.env
  let pool := if hash ∈ pool.ids T then pool.removeStaged T [hash] true else pool
  (tx.vin.foldl (removeConflict T tx) pool).clearPrioritisation hash

def removeForBlock (pool : Tracked H) (vtx : List (CTransaction H)) : Tracked H :=
  vtx.foldl (removeForTx T) pool

def immatureInput (pool : Tracked H) (pcoins : CCoinsViewCache H) (nMemPoolHeight : Nat) (i : CTxIn H) : Bool :=
  decide (i.prevout.hash ∉ pool.ids T) && ((pcoins.accessCoin i.prevout).isSpent ||
    premature nMemPoolHeight (pcoins.accessCoin i.prevout))

def removeForReorg (penv : PoolEnv H) (pcoins : CCoinsViewCache H) (nMemPoolHeight : Nat) (pool : Tracked H) :
    Tracked H :=
  let txToRemove := pool.mapTx.filter fun e => !penv.checkFinalTx e.tx || !penv.checkSequenceLocks e.tx ||
    (e.spendsCoinbase && e.tx.vin.any (pool.immatureInput T pcoins nMemPoolHeight))
  pool.removeWithDescendants T (txToRemove.map (·.hash T))

def expire (penv : PoolEnv H) (pool : Tracked H) : Tracked H :=
  pool.removeWithDescendants T ((pool.mapTx.filter fun e => penv.expired e.toCTxMemPoolEntry).map (·.hash T))

def trimToSize (penv : PoolEnv H) (pool : Tracked H) : Tracked H :=
  penv.trimmed.foldl (fun pool hash => pool.removeWithDescendants T [hash]) pool

/-! ## fees -/

def prioritiseTransaction (pool : Tracked H) (hash : H) (nFeeDelta : Int) : Tracked H :=
  let delta := pool.mapDeltas hash + nFeeDelta
  let pool := { pool with mapDeltas := Function.update pool.mapDeltas hash delta }
  if hash ∈ pool.ids T then
    let pool := { pool with state := Function.update pool.state hash ((pool.state hash).updateFeeDelta delta) }
    let pool := (pool.calculateMemPoolAncestors T (pool.parents hash)).foldl
      (modifyDescendants ⟨0, 0, nFeeDelta⟩) pool
    ((pool.calculateDescendants T [hash]).filter (· ≠ hash)).foldl (modifyAncestors ⟨0, 0, nFeeDelta, 0⟩) pool
  else pool

/-! ## after a reorganisation -/

def nextChildren (pool : Tracked H) (hash : H) : List H :=
  ((pool.mapNextTx.filter fun p => p.1.hash = hash).map (·.2)).dedup

def linkChildren (vHashesToUpdate : List H) (pool : Tracked H) (it : H) : Tracked H :=
  ((pool.nextChildren it).filter fun child => decide (child ∉ vHashesToUpdate)).foldl
    (fun pool child => (pool.updateChild true child it).updateParent true it child) pool

def visitChild (cached : H → List H) (s : List H × List H) (child : H) : List H × List H :=
  if cached child ≠ [] then (s.1, s.2 ++ (cached child).filter (· ∉ s.2))
  else if child ∈ s.2 then s
  else (if child ∈ s.1 then s.1 else s.1 ++ [child], s.2)

def stageDescendants (children cached : H → List H) : Nat → List H → List H → List H
  | 0, _, all => all
  | _ + 1, [], all => all
  | fuel + 1, cit :: stage, all =>
    let s := (children cit).foldl (visitChild cached) (stage, if cit ∈ all then all else all ++ [cit])
    stageDescendants children cached fuel s.1 s.2

/-- `UpdateForDescendants`; `cached` holds what entries before have below them -/
def updateForDescendants (setExclude : List H) (pool : Tracked H) (cached : H → List H) (updateIt : H) :
    Tracked H × (H → List H) :=
  let all := stageDescendants pool.children cached (pool.ids T).length (pool.children updateIt) []
  let counted := all.filter (· ∉ setExclude)
  let pool := counted.foldl (modifyAncestors (pool.ownAbove T updateIt)) pool
  (pool.modifyDescendants (counted.map (pool.ownBelow T)).sum updateIt, Function.update cached updateIt counted)

def updateTransaction (vHashesToUpdate : List H) (s : Tracked H × (H → List H)) (hash : H) :
    Tracked H × (H → List H) :=
  if hash ∈ s.1.ids T then
    updateForDescendants T vHashesToUpdate (linkChildren vHashesToUpdate s.1 hash) s.2 hash
  else s

def updateTransactionsFromBlock (pool : Tracked H) (vHashesToUpdate : List H) : Tracked H :=
  (vHashesToUpdate.reverse.foldl (updateTransaction T vHashesToUpdate) (pool, fun _ => [])).1

end Tracked

end BitCash
