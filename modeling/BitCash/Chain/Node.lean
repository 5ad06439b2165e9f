import BitCash.Chain.Skip
import BitCash.Validation.Normalise

/-!
# The state of a node, and the rules in context

A pointer to an index entry is the hash under which the entry is found. A `CChain` keeps a block at its height, so
`Contains` is membership.
-/

namespace BitCash
open Checks

variable {H : Type} [Inhabited H] [DecidableEq H]

structure ChainEnv (H : Type) [Inhabited H] [DecidableEq H] where
  getNextWorkRequired : H → UInt32 × UInt8
  getMedianTimePast : H → Int
  getAdjustedTime : Int
  csvActive : H → Bool
  segwitActive : H → Bool
  getBlockProof : UInt32 → Nat
  address : H → Nat
  fCheckpointsEnabled : Bool
  checkpoints : List H
  nMinimumChainWork : Nat
  saveBlockToDisk : Bool
  undoWriteToDisk : Bool
  flushStateToDisk : Bool
  removeForBlock : List (CTransaction H) → List (CTransaction H) → List (CTransaction H)
  updateMempoolForReorg : CoinsMap H → List (CTransaction H) → Bool → List (CTransaction H) →
    List (CTransaction H)

structure Node (H : Type) [Inhabited H] [DecidableEq H] where
  mapBlockIndex : H → Option (CBlockIndex H)
  blockFiles : List (CBlock H)
  undoFiles : List (List (List Coin))
  chainActive : List H
  setBlockIndexCandidates : List H
  mapBlocksUnlinked : List (H × H)
  failedBlocks : List H
  nBlockSequenceId : Int
  pcoinsTip : CoinsMap H
  bestBlock : H
  nicks : Nicknames H
  mempool : List (CTransaction H)
  txindex : Option (H → Option (CTransaction H))

namespace Node

def setIndex (s : Node H) (h : H) (p : CBlockIndex H) : Node H :=
  { s with mapBlockIndex := fun x => if x = h then some p else s.mapBlockIndex x }

def modifyIndex (s : Node H) (h : H) (f : CBlockIndex H → CBlockIndex H) : Node H :=
  { s with mapBlockIndex := fun x => if x = h then (s.mapBlockIndex x).map f else s.mapBlockIndex x }

def tip (s : Node H) : Option (CBlockIndex H) := s.chainActive.getLast?.bind s.mapBlockIndex

def height (s : Node H) : Int := s.chainActive.length - 1

def walkBack (s : Node H) : Nat → H → Option H
  | 0, h => some h
  | n + 1, h => ((s.mapBlockIndex h).bind (·.pprev)).bind (s.walkBack n)

def getAncestor (s : Node H) (h : H) (nHeight : Nat) : Option H :=
  (s.mapBlockIndex h).bind fun p =>
    if p.nHeight < nHeight then none else s.walkBack (p.nHeight - nHeight) h

def links (s : Node H) (h : H) : Skip.Links H :=
  ⟨(s.mapBlockIndex h).bind (·.pprev), none, ((s.mapBlockIndex h).map (·.nHeight)).getD 0⟩

theorem walkBack_eq (s : Node H) (n : Nat) (h : H) : s.walkBack n h = Skip.back s.links n h := by
  induction n generalizing h with
  | zero => rfl
  | succ n ih =>
    rw [walkBack, Skip.back]
    exact congrArg _ (funext ih)

/-- skip pointers make `GetAncestor` fast and change nothing -/
theorem getAncestor_skip {s : Node H} {built : H → Skip.Links H} (ht : Skip.Tree s.links)
    (hb : Skip.SameTree s.links built) (hs : Skip.Skips built) {h : H} {p : CBlockIndex H}
    (hp : s.mapBlockIndex h = some p) (n : Nat) : Skip.getAncestor built h n = some (s.getAncestor h n) := by
  have hheight : (built h).nHeight = p.nHeight := by
    rw [(hb h).2, links, hp]
    rfl
  rw [getAncestor, hp, Option.bind_some]
  by_cases hn : p.nHeight < n
  · rw [Skip.getAncestor, if_pos (.inl (by omega)), if_pos hn]
  · have hle : n ≤ (built h).nHeight := by omega
    obtain ⟨j, hj, hback⟩ := (hb.tree ht).getAncestor_eq hs hle
    rw [if_neg hn, walkBack_eq, ← hb.back, ← hheight, hback, hj]

end Node

variable (env : Env H) (cenv : ChainEnv H) (params : Params H)

/-! ## reading back -/

def readBlockFromDisk (s : Node H) (p : CBlockIndex H) : Option (CBlock H) :=
  if p.nStatus.haveData then
    (s.blockFiles[p.nDataPos]?).filter fun b =>
      (env.checkProofOfWork (b.getHash env) b.nBits ||
        (!isX16Ractive b.nVersion &&
          env.verifyProofOfWork (b.getHash env) b.nBits b.nEdgeBits b.sCycle)) &&
      decide (b.getHash env = p.hash)
  else none

def MAX_OUTPUTS_PER_BLOCK : Nat := 4000000

def accessByTxid (coins : CoinsMap H) (txid : H) : Option Coin :=
  (List.range MAX_OUTPUTS_PER_BLOCK).findSome? fun n =>
    (coins ⟨txid, UInt32.ofNat n⟩).filter fun c => !c.isSpent

/-- `GetTransaction` with `fAllowSlow`: the mempool, then the index if there is one, then the block
of the active chain in which a coin of the transaction was made -/
def getTransaction (s : Node H) (hash : H) : Option (CTransaction H) :=
  match s.mempool.find? fun tx => decide (tx.getHash env = hash) with
  | some tx => some tx
  | none =>
    match s.txindex with
    | some findTx => findTx hash
    | none => do
      let coin ← accessByTxid s.pcoinsTip hash
      let p ← s.chainActive[coin.nHeight]?
      let pindexSlow ← s.mapBlockIndex p
      let block ← readBlockFromDisk env s pindexSlow
      block.vtx.find? fun tx => decide (tx.getHash env = hash)

/-! ## headers in context -/

def getLastCheckpoint (s : Node H) : Option (CBlockIndex H) :=
  cenv.checkpoints.reverse.findSome? s.mapBlockIndex

def contextualCheckBlockHeader (s : Node H) (h : CBlockHeader H) (pindexPrev : CBlockIndex H) :
    Res Unit := do
  let nHeight := pindexPrev.nHeight + 1
  let pow := cenv.getNextWorkRequired pindexPrev.hash
  need (h.nBits == pow.1) (.bad 100 "bad-diffbits")
  need (isX16Ractive h.nVersion || h.nEdgeBits == pow.2) (.bad 100 "bad-nodesbits")
  need (!cenv.fCheckpointsEnabled ||
      (getLastCheckpoint cenv s).all fun p => decide (p.nHeight ≤ nHeight))
    (.dos 100 REJECT_CHECKPOINT "bad-fork-prior-to-checkpoint" false)
  need (decide (cenv.getMedianTimePast pindexPrev.hash < (h.nTime.toNat : Int)))
    (.invalid "time-too-old")
  need (decide ((h.nTime.toNat : Int) ≤ cenv.getAdjustedTime + MAX_FUTURE_BLOCK_TIME))
    (.invalid "time-too-new")
  need (!(decide (h.nVersion.toInt < 2) && decide (params.BIP34Height ≤ nHeight) ||
      decide (h.nVersion.toInt < 3) && decide (params.BIP66Height ≤ nHeight) ||
      decide (h.nVersion.toInt < 4) && decide (params.BIP65Height ≤ nHeight)))
    (.dos 0 REJECT_OBSOLETE ("bad-version(0x" ++ h.nVersion.toHex ++ ")") false)

def checkNewHeader (s : Node H) (h : CBlockHeader H) : Res (CBlockIndex H) := do
  checkBlockHeader env h true
  match s.mapBlockIndex h.hashPrevBlock with
  | none => .error (.dos 10 0 "prev-blk-not-found" false)
  | some pindexPrev => do
    need (!pindexPrev.nStatus.failed) (.bad 100 "bad-prevblk")
    contextualCheckBlockHeader cenv params s h pindexPrev
    pure pindexPrev

def failedBehind (s : Node H) (h : H) : Option H :=
  s.failedBlocks.find? fun f => (s.mapBlockIndex f).any fun failedit =>
    decide (s.getAncestor h failedit.nHeight = some f)

def failedAncestor (s : Node H) (h : H) (pindexPrev : CBlockIndex H) : Option H :=
  if pindexPrev.isValid BLOCK_VALID_SCRIPTS then none else failedBehind s h

def CBlockIndex.failChild (p : CBlockIndex H) : CBlockIndex H :=
  { p with nStatus := { p.nStatus with failedChild := true } }

def CBlockIndex.failValid (p : CBlockIndex H) : CBlockIndex H :=
  { p with nStatus := { p.nStatus with failedValid := true } }

def markChildren (failed : H) : Nat → H → Node H → Node H
  | 0, _, s => s
  | n + 1, h, s =>
    if h = failed then s
    else
      match (s.mapBlockIndex h).bind (·.pprev) with
      | none => s.modifyIndex h CBlockIndex.failChild
      | some q => markChildren failed n q (s.modifyIndex h CBlockIndex.failChild)

def newIndex (s : Node H) (h : CBlockHeader H) : CBlockIndex H where
  hash := h.getHash env
  pprev := (s.mapBlockIndex h.hashPrevBlock).map fun _ => h.hashPrevBlock
  nHeight := ((s.mapBlockIndex h.hashPrevBlock).map fun p => p.nHeight + 1).getD 0
  nChainWork := ((s.mapBlockIndex h.hashPrevBlock).map (·.nChainWork)).getD 0 +
    cenv.getBlockProof h.nBits
  nTx := 0
  nChainTx := 0
  nStatus := ⟨BLOCK_VALID_TREE, false, false, false, false⟩
  nSequenceId := 0
  nDataPos := 0
  nUndoPos := 0

def addToBlockIndex (s : Node H) (h : CBlockHeader H) : Res (CBlockIndex H) × Node H :=
  (.ok (newIndex env cenv s h), s.setIndex (h.getHash env) (newIndex env cenv s h))

def addHeader (s : Node H) (h : CBlockHeader H) : Res (CBlockIndex H) × Node H :=
  match checkNewHeader env cenv params s h with
  | .error e => (.error e, s)
  | .ok pindexPrev =>
    match failedAncestor s h.hashPrevBlock pindexPrev with
    | some failedit =>
      (.error (.bad 100 "bad-prevblk"),
        markChildren failedit (pindexPrev.nHeight + 1) h.hashPrevBlock s)
    | none => addToBlockIndex env cenv s h

def acceptBlockHeader (s : Node H) (h : CBlockHeader H) : Res (CBlockIndex H) × Node H :=
  match s.mapBlockIndex (h.getHash env) with
  | some pindex =>
    if h.getHash env ≠ params.hashGenesisBlock ∧ pindex.nStatus.failed = true then
      (.error (.dos 0 0 "duplicate" false), s)
    else (.ok pindex, s)
  | none =>
    if h.getHash env = params.hashGenesisBlock then addToBlockIndex env cenv s h
    else addHeader env cenv params s h

/-! ## blocks in context -/

def LOCKTIME_THRESHOLD : Int := 500000000

def isFinalTx (tx : CTransaction H) (nBlockHeight : Nat) (nBlockTime : Int) : Bool :=
  let nLockTime : Int := tx.nLockTime.toNat
  tx.nLockTime == 0 ||
    decide (nLockTime < if nLockTime < LOCKTIME_THRESHOLD then (nBlockHeight : Int) else nBlockTime) ||
    tx.vin.all fun i => i.nSequence == SEQUENCE_FINAL

def littleEndian : Nat → Nat → Bytes
  | 0, _ => []
  | n + 1, v => if v = 0 then [] else UInt8.ofNat (v % 256) :: littleEndian n (v / 256)

def heightScript (nHeight : Nat) : CScript :=
  if nHeight = 0 then [0]
  else if nHeight ≤ 16 then [UInt8.ofNat (nHeight + 0x50)]
  else
    let b := littleEndian 8 nHeight
    let b := if b.getLast?.any (fun x => decide (0x80 ≤ x)) then b ++ [0] else b
    UInt8.ofNat b.length :: b

def commitsWitness (script : CScript) : Bool :=
  decide (38 ≤ script.length) && decide (script.take 6 = [0x6a, 0x24, 0xaa, 0x21, 0xa9, 0xed])

def witnessCommitment (coinbase : CTransaction H) : Option CScript :=
  ((coinbase.vout.map (·.scriptPubKey)).filter commitsWitness).getLast?

def blockWitnessMerkleRoot (rest : List (CTransaction H)) : H :=
  (Merkle.computeRoot env.hashPair (default :: rest.map (·.getWitnessHash env))).1

def checkWitness (coinbase : CTransaction H) (rest : List (CTransaction H)) (script : CScript) :
    Res Unit :=
  match (coinbase.vin.head?.map (·.scriptWitness)).getD [] with
  | [reserved] => do
    need (decide (reserved.length = 32)) (.dos 100 REJECT_INVALID "bad-witness-nonce-size" true)
    need (decide (env.hashCommitment (blockWitnessMerkleRoot env rest) reserved =
        (script.drop 6).take 32))
      (.dos 100 REJECT_INVALID "bad-witness-merkle-match" true)
  | _ => .error (.dos 100 REJECT_INVALID "bad-witness-nonce-size" true)

def getBlockWeight (b : CBlock H) : Nat :=
  b.strippedSize * (WITNESS_SCALE_FACTOR - 1) + b.totalSize

def checkWitnesses (segwit : Bool) (coinbase : CTransaction H) (rest : List (CTransaction H)) :
    Res Unit :=
  match if segwit then witnessCommitment coinbase else none with
  | some script => checkWitness env coinbase rest script
  | none => each (fun tx => need (!tx.hasWitness)
      (.dos 100 REJECT_INVALID "unexpected-witness" true)) (coinbase :: rest)

/-- `ContextualCheckBlock` on a parent, or on none for the genesis block -/
def contextualCheckBlock (block : CBlock H) (pindexPrev : Option (CBlockIndex H)) : Res Unit := do
  let nHeight := (pindexPrev.map fun p => p.nHeight + 1).getD 0
  let csv := (pindexPrev.map fun p => cenv.csvActive p.hash).getD false
  let segwit := (pindexPrev.map fun p => cenv.segwitActive p.hash).getD false
  let nLockTimeCutoff : Int := if csv then
      (pindexPrev.map fun p => cenv.getMedianTimePast p.hash).getD 0 else block.nTime.toNat
  each (fun tx => need (isFinalTx tx nHeight nLockTimeCutoff) (.bad 10 "bad-txns-nonfinal")) block.vtx
  match block.vtx with
  | [] => .error (.fault .outOfBounds)
  | coinbase :: rest => do
    need (decide ((nHeight : Int) < params.BIP34Height) ||
        (coinbase.vin.head?.any fun i => (heightScript nHeight).isPrefixOf i.scriptSig))
      (.bad 100 "bad-cb-height")
    checkWitnesses env segwit coinbase rest
    need (decide (getBlockWeight block ≤ MAX_BLOCK_WEIGHT)) (.bad 100 "bad-blk-weight")

/-! ## a node at height one -/

def symChain : ChainEnv Digest where
  getNextWorkRequired _ := (1, 0)
  getMedianTimePast _ := 0
  getAdjustedTime := 1600000000
  csvActive _ := false
  segwitActive _ := false
  getBlockProof _ := 1
  address _ := 0
  fCheckpointsEnabled := true
  checkpoints := [.atom 0]
  nMinimumChainWork := 0
  saveBlockToDisk := true
  undoWriteToDisk := true
  flushStateToDisk := true
  removeForBlock pool _ := pool
  updateMempoolForReorg _ _ _ pool := pool

def connectedIndex (hash : Digest) (pprev : Option Digest) (nHeight : Nat) : CBlockIndex Digest :=
  ⟨hash, pprev, nHeight, nHeight + 1, 1, nHeight + 1, ⟨5, true, true, false, false⟩, 0, 0, 0⟩

def symNode (tip : CoinsMap Digest) : Node Digest where
  mapBlockIndex h :=
    if h = .atom 0 then some (connectedIndex (.atom 0) none 0)
    else if h = .atom 1 then some (connectedIndex (.atom 1) (some (.atom 0)) 1)
    else none
  blockFiles := []
  undoFiles := []
  chainActive := [.atom 0, .atom 1]
  setBlockIndexCandidates := [.atom 1]
  mapBlocksUnlinked := []
  failedBlocks := []
  nBlockSequenceId := 1
  pcoinsTip := tip
  bestBlock := .atom 1
  nicks := .empty
  mempool := []
  txindex := none

end BitCash
