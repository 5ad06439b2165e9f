import BitCash.Mempool.Exact

/-!
# Package selection

`addPackageTxs` of `miner.cpp`: the transactions of the pool are picked with their ancestors, by the fee rate of
such a package.
-/

namespace BitCash
open Tracked

structure CTxMemPoolModifiedEntry (H : Type) where
  iter : H
  nSizeWithAncestors : Int
  nModFeesWithAncestors : Int
  nSigOpCostWithAncestors : Int

variable {H : Type} [Inhabited H] [DecidableEq H]

structure PackageEnv (H : Type) [Inhabited H] [DecidableEq H] where
  nBlockMaxWeight : Nat
  weight_ge : 4000 ≤ nBlockMaxWeight
  weight_le : nBlockMaxWeight ≤ MAX_BLOCK_WEIGHT - 4000
  isFinalTx : CTransaction H → Bool
  fIncludeWitness : Bool
  getFee : Int → Int
  better : CTxMemPoolModifiedEntry H → CTxMemPoolModifiedEntry H → Bool
  best : List (CTxMemPoolModifiedEntry H) → Option (CTxMemPoolModifiedEntry H)
  best_mem : ∀ l e, best l = some e → e ∈ l
  best_none : ∀ l, best l = none → l = []
  byAncestorScore : List H → List H
  byAncestorScore_perm : ∀ l, (byAncestorScore l).Perm l
  hashLe : H → H → Bool
  hashLe_total : ∀ a b, (hashLe a b || hashLe b a) = true
  hashLe_trans : ∀ a b c, hashLe a b = true → hashLe b c = true → hashLe a c = true

structure BlockAssembler (H : Type) where
  vtx : List H
  vTxFees : List Int
  vTxSigOpsCost : List Int
  nBlockWeight : Int
  nBlockTx : Nat
  nBlockSigOpsCost : Int
  nFees : Int
  inBlock : List H

def BlockAssembler.resetBlock : BlockAssembler H := ⟨[], [], [], 4000, 0, 400, 0, []⟩

structure PackageState (H : Type) where
  assembler : BlockAssembler H
  mapModifiedTx : List (CTxMemPoolModifiedEntry H)
  failedTx : List H
  mi : List H
  nConsecutiveFailed : Nat

structure Candidate (H : Type) where
  entry : CTxMemPoolModifiedEntry H
  fUsingModified : Bool
  mi : List H

inductive PackageRound (H : Type) where
  | again (s : PackageState H)
  | stop (s : PackageState H)
  | assertion

inductive Selected (H : Type) where
  | done (b : BlockAssembler H)
  | assertion
  | running

variable (T : TrackEnv H) (env : PackageEnv H) (pool : Tracked H)

namespace Tracked

def getTxSize (it : H) : Int := (pool.find T it).elim 0 fun e => e.getTxSize T.nBytesPerSigOp
def getTxWeight (it : H) : Int := (pool.find T it).elim 0 fun e => e.nTxWeight
def getSigOpCost (it : H) : Int := (pool.find T it).elim 0 fun e => e.sigOpCost
def getFee (it : H) : Int := (pool.find T it).elim 0 fun e => e.nFee
def getModifiedFee (it : H) : Int := (pool.find T it).elim 0 fun e => e.nFee + (pool.state it).feeDelta
def isNicknameTx (it : H) : Bool := (pool.find T it).elim false fun e => e.tx.isNick
def getCountWithAncestors (it : H) : Int := (pool.state it).ancestors.nCountWithAncestors

end Tracked

namespace CTxMemPoolModifiedEntry

def ofEntry (entry : H) : CTxMemPoolModifiedEntry H :=
  let s := (pool.state entry).ancestors
  ⟨entry, s.nSizeWithAncestors, s.nModFeesWithAncestors, s.nSigOpCostWithAncestors⟩

def updateForParentInclusion (it : H) (e : CTxMemPoolModifiedEntry H) : CTxMemPoolModifiedEntry H where
  iter := e.iter
  nSizeWithAncestors := e.nSizeWithAncestors - pool.getTxSize T it
  nModFeesWithAncestors := e.nModFeesWithAncestors - pool.getFee T it
  nSigOpCostWithAncestors := e.nSigOpCostWithAncestors - pool.getSigOpCost T it

def withoutParent (it desc : H) : CTxMemPoolModifiedEntry H :=
  let modEntry := ofEntry pool desc
  { iter := desc
    nSizeWithAncestors := modEntry.nSizeWithAncestors - pool.getTxSize T it
    nModFeesWithAncestors := modEntry.nModFeesWithAncestors - pool.getModifiedFee T it
    nSigOpCostWithAncestors := modEntry.nSigOpCostWithAncestors - pool.getSigOpCost T it }

end CTxMemPoolModifiedEntry

open CTxMemPoolModifiedEntry

namespace PackageEnv

def testPackage (b : BlockAssembler H) (packageSize packageSigOpsCost : Int) : Bool :=
  if b.nBlockWeight + WITNESS_SCALE_FACTOR * packageSize ≥ env.nBlockMaxWeight then false
  else if b.nBlockSigOpsCost + packageSigOpsCost ≥ MAX_BLOCK_SIGOPS_COST then false
  else true

def testPackageTransactions (package : List H) : Bool :=
  package.all fun it => (pool.find T it).elim true fun e =>
    env.isFinalTx e.tx && (env.fIncludeWitness || !e.tx.hasWitness)

def addToBlock (b : BlockAssembler H) (iter : H) : BlockAssembler H where
  vtx := b.vtx ++ [iter]
  vTxFees := b.vTxFees ++ [pool.getFee T iter]
  vTxSigOpsCost := b.vTxSigOpsCost ++ [pool.getSigOpCost T iter]
  nBlockWeight := b.nBlockWeight + pool.getTxWeight T iter
  nBlockTx := b.nBlockTx + 1
  nBlockSigOpsCost := b.nBlockSigOpsCost + pool.getSigOpCost T iter
  nFees := b.nFees + pool.getFee T iter
  inBlock := changeSet true iter b.inBlock

def includeParent (it : H) (mapModifiedTx : List (CTxMemPoolModifiedEntry H)) (desc : H) :
    List (CTxMemPoolModifiedEntry H) :=
  if mapModifiedTx.any fun e => e.iter = desc then
    mapModifiedTx.map fun e => if e.iter = desc then e.updateForParentInclusion T pool it else e
  else mapModifiedTx ++ [withoutParent T pool it desc]

def updatePackagesForAdded (alreadyAdded : List H) (mapModifiedTx : List (CTxMemPoolModifiedEntry H)) :
    List (CTxMemPoolModifiedEntry H) :=
  alreadyAdded.foldl (fun m it =>
    ((pool.calculateDescendants T [it]).filter (· ∉ alreadyAdded)).foldl (includeParent T pool it) m) mapModifiedTx

def skipMapTxEntry (s : PackageState H) (it : H) : Bool :=
  s.mapModifiedTx.any (fun e => e.iter = it) || s.assembler.inBlock.contains it || s.failedTx.contains it

def countLe (a b : H) : Bool :=
  if pool.getCountWithAncestors a ≠ pool.getCountWithAncestors b then
    pool.getCountWithAncestors a < pool.getCountWithAncestors b
  else env.hashLe a b

def sortForBlock (package : List H) : List H := package.mergeSort (countLe env pool)

def candidate (s : PackageState H) : Option (Candidate H) :=
  match s.mi, env.best s.mapModifiedTx with
  | [], none => none
  | [], some modit => some ⟨modit, true, []⟩
  | it :: mi, none => some ⟨ofEntry pool it, false, mi⟩
  | it :: mi, some modit =>
    if env.better modit (ofEntry pool it) then some ⟨modit, true, it :: mi⟩
    else some ⟨ofEntry pool it, false, mi⟩

def reject (s : PackageState H) (c : Candidate H) : PackageState H :=
  if c.fUsingModified then
    { s with
      mapModifiedTx := s.mapModifiedTx.filter fun e => e.iter ≠ c.entry.iter
      failedTx := changeSet true c.entry.iter s.failedTx
      mi := c.mi }
  else { s with mi := c.mi }

def packageOf (b : BlockAssembler H) (iter : H) : List H :=
  (changeSet true iter ((pool.ancestorsOf T iter).filter (· ∉ b.inBlock))).mergeSort env.hashLe

def addPackage (s : PackageState H) (c : Candidate H) (ancestors : List H) : PackageState H where
  assembler := (sortForBlock env pool ancestors).foldl (addToBlock T pool) s.assembler
  mapModifiedTx := updatePackagesForAdded T pool ancestors (s.mapModifiedTx.filter fun e => e.iter ∉ ancestors)
  failedTx := s.failedTx
  mi := c.mi
  nConsecutiveFailed := 0

def MAX_CONSECUTIVE_FAILURES : Nat := 1000

def consider (s : PackageState H) (c : Candidate H) : PackageRound H :=
  let iter := c.entry.iter
  if iter ∈ s.assembler.inBlock then .assertion
  else if !pool.isNicknameTx T iter &&
      decide (c.entry.nModFeesWithAncestors < env.getFee c.entry.nSizeWithAncestors) then
    .stop { s with mi := c.mi }
  else if !testPackage env s.assembler c.entry.nSizeWithAncestors c.entry.nSigOpCostWithAncestors then
    let failed : PackageState H := { reject s c with nConsecutiveFailed := s.nConsecutiveFailed + 1 }
    if failed.nConsecutiveFailed > MAX_CONSECUTIVE_FAILURES ∧
        s.assembler.nBlockWeight > (env.nBlockMaxWeight : Int) - 4000 then
      .stop failed
    else .again failed
  else
    let ancestors := packageOf T env pool s.assembler iter
    if !testPackageTransactions T env pool ancestors then .again (reject s c)
    else .again (addPackage T env pool s c ancestors)

def round (s : PackageState H) : PackageRound H :=
  match s.mi with
  | [] => (candidate env pool s).elim (.stop s) (consider T env pool s)
  | it :: mi =>
    if skipMapTxEntry s it then .again { s with mi := mi }
    else (candidate env pool s).elim (.stop s) (consider T env pool s)

def rounds : Nat → PackageState H → Selected H
  | 0, _ => .running
  | n + 1, s =>
    match round T env pool s with
    | .again s => rounds n s
    | .stop s => .done s.assembler
    | .assertion => .assertion

def start (b : BlockAssembler H) : PackageState H where
  assembler := b
  mapModifiedTx := updatePackagesForAdded T pool b.inBlock []
  failedTx := []
  mi := env.byAncestorScore (pool.ids T)
  nConsecutiveFailed := 0

/-- `addPackageTxs`, with at most `fuel` rounds -/
def addPackageTxs (fuel : Nat) (b : BlockAssembler H) : Selected H := rounds T env pool fuel (start T env pool b)

end PackageEnv

end BitCash
