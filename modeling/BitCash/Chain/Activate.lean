import BitCash.Chain.Accept
import BitCash.Lib.Best

/-!
# The best chain

`activateBestChain` counts its rounds and gives `none` when they are used up.
-/

namespace BitCash
open Checks

variable {H : Type} [Inhabited H] [DecidableEq H]
variable (env : Env H) (cenv : ChainEnv H) (params : Params H)

/-! ## disconnecting -/

def undoOutput (nHeight : Nat) (tx : CTransaction H) (s : CCoinsViewCache H × Bool)
    (p : CTxOut × Nat) : CCoinsViewCache H × Bool :=
  if isUnspendable p.1.scriptPubKey then s
  else match s.1.spendCoin ⟨tx.getHash env, UInt32.ofNat p.2⟩ with
    | none => (s.1, false)
    | some (coin, view) =>
      (view, s.2 && decide (p.1.nValue = coin.nValue) &&
        decide (p.1.scriptPubKey = coin.scriptPubKey) && decide (nHeight = coin.nHeight) &&
        decide (tx.isCoinBase = coin.fCoinBase))

def undoCoin (view : CCoinsViewCache H) (undo : Coin) (out : COutPoint H) : Option Coin :=
  if undo.nHeight = 0 then
    (accessByTxid view.getCoin out.hash).map fun alternate =>
      { undo with nHeight := alternate.nHeight, fCoinBase := alternate.fCoinBase }
  else some undo

def applyTxInUndo (undo : Coin) (view : CCoinsViewCache H) (out : COutPoint H) :
    Res (CCoinsViewCache H × Bool) :=
  match undoCoin view undo out with
  | none => .error (.systemError "adding output for transaction without known metadata")
  | some coin => view.addCoin out coin (view.haveCoin out) >>= fun v => .ok (v, !view.haveCoin out)

def undoInput (s : CCoinsViewCache H × Bool) (p : CTxIn H × Coin) : Res (CCoinsViewCache H × Bool) :=
  if p.1.isnickname then .ok s
  else applyTxInUndo p.2 s.1 p.1.prevout >>= fun r => .ok (r.1, s.2 && r.2)

/-- one transaction in `DisconnectBlock`, with its undo record unless it is the first one -/
def disconnectTx (nHeight : Nat) (s : CCoinsViewCache H × Bool)
    (p : CTransaction H × Option (List Coin)) : Res (CCoinsViewCache H × Bool) :=
  let s := p.1.vout.zipIdx.foldl (undoOutput env nHeight p.1) s
  match p.2 with
  | none => .ok s
  | some vprevout => do
    need (decide (vprevout.length = p.1.vin.length))
      (.systemError "DisconnectBlock(): transaction and undo data inconsistent")
    run undoInput s (p.1.vin.zip vprevout).reverse

def disconnectBlock (block : CBlock H) (blockUndo : Option (List (List Coin)))
    (pindex : CBlockIndex H) (view : CCoinsViewCache H) : Res (CCoinsViewCache H × Bool) :=
  match blockUndo, pindex.pprev with
  | none, _ => .error (.systemError "DisconnectBlock(): failure reading undo data")
  | some _, none => .error (.fault .assertionFailed)
  | some vtxundo, some prev => do
    need (decide (vtxundo.length + 1 = block.vtx.length))
      (.systemError "DisconnectBlock(): block and undo data inconsistent")
    let s ← run (disconnectTx env pindex.nHeight) (view, true)
      (block.vtx.zip (none :: vtxundo.map some)).reverse
    pure (s.1.setBestBlock prev, s.2)

def undoReadFromDisk (s : Node H) (p : CBlockIndex H) : Option (List (List Coin)) :=
  p.getUndoPos.bind fun pos => s.undoFiles[pos]?

def Node.flush (s : Node H) (view : CCoinsViewCache H) : Node H :=
  { s with pcoinsTip := view.getCoin, bestBlock := view.hashBlock }

def disconnectTip (s : Node H) : Res (List (CTransaction H)) × Node H :=
  match s.tip with
  | none => (.error (.fault .assertionFailed), s)
  | some pindexDelete =>
    match readBlockFromDisk env s pindexDelete with
    | none => (.error (.systemError "Failed to read block"), s)
    | some block =>
      if s.bestBlock ≠ pindexDelete.hash then (.error (.fault .assertionFailed), s)
      else match disconnectBlock env block (undoReadFromDisk s pindexDelete) pindexDelete
          (.ofBase s.pcoinsTip s.bestBlock) with
        | .error e => (.error e, s)
        | .ok (view, fClean) =>
          -- the nicknames are gone before the caller sees that the block was unclean
          let s := { s with nicks := removeNicknames block.vtx s.nicks }
          if !fClean then (.error (.systemError "DisconnectTip(): DisconnectBlock failed"), s)
          else if !cenv.flushStateToDisk then
            (.error (.systemError "out of disk space"), s.flush view)
          else (.ok block.vtx.reverse, { s.flush view with chainActive := s.chainActive.dropLast })

/-! ## connecting -/

namespace Node

def eraseCandidate (s : Node H) (h : H) : Node H :=
  { s with setBlockIndexCandidates := s.setBlockIndexCandidates.filter fun x => !decide (x = h) }

def invalidBlockFound (s : Node H) (h : H) (e : Stop) : Node H :=
  if e.marks then
    ({ s.modifyIndex h CBlockIndex.failValid with failedBlocks := s.failedBlocks ++ [h] } : Node H)
      |>.eraseCandidate h
  else s

def undoPos (s : Node H) : Res Nat :=
  if cenv.undoWriteToDisk then .ok s.undoFiles.length
  else .error (.systemError "Failed to write undo data")

def connectState (s : Node H) (p : CBlockIndex H) : ConnectState H :=
  ⟨.ofBase s.pcoinsTip s.bestBlock, p, s.nicks⟩

def undoRecord (s : Node H) (p : CBlockIndex H) (block : CBlock H) : List (List Coin) :=
  match connectLoop env params (s.connectState p).context block (s.connectState p).view with
  | .ok c => c.vtxundo
  | .error _ => []

/-- what `ConnectBlock` has written: the index entry, the nicknames, and the undo record where the
entry had none -/
def written (s : Node H) (h : H) (p : CBlockIndex H) (block : CBlock H) (t : ConnectState H) : Node H :=
  { s.setIndex h t.pindex with
    nicks := t.nicks
    undoFiles := if t.pindex.nStatus.haveUndo && !p.nStatus.haveUndo then
        s.undoFiles ++ [s.undoRecord env params p block] else s.undoFiles }

end Node

def connectTip (s : Node H) (h : H) (pindexNew : CBlockIndex H) (pblock : Option (CBlock H)) :
    Res (List (CTransaction H)) × Node H :=
  if pindexNew.pprev ≠ s.chainActive.getLast? then (.error (.fault .assertionFailed), s)
  else match pblock.or (readBlockFromDisk env s pindexNew) with
    | none => (.error (.systemError "Failed to read block"), s)
    | some block =>
      match connectBlock env params block s.pcoinsTip (s.undoPos cenv) false
          (s.connectState pindexNew) with
      -- the view is dropped; the index entry, the nicknames and the undo record stay written
      | (.error e, t) => (.error e, (s.written env params h pindexNew block t).invalidBlockFound h e)
      | (.ok _, t) =>
        let s := (s.written env params h pindexNew block t).flush t.view
        if !cenv.flushStateToDisk then (.error (.systemError "out of disk space"), s)
        else (.ok block.vtx, { s with
          mempool := cenv.removeForBlock s.mempool block.vtx
          chainActive := s.chainActive ++ [h] })

/-! ## the best candidate -/

namespace Node

def bestCandidate (s : Node H) : Option (H × CBlockIndex H) :=
  Best.best (workLess cenv) s.mapBlockIndex s.setBlockIndexCandidates

/-- the first block on the way from a candidate back to the active chain that is invalid or has no
data; heights go down by one on the way -/
def firstUnusable (s : Node H) : Nat → H → Option (H × CBlockIndex H)
  | 0, _ => none
  | n + 1, h =>
    if s.chainActive.contains h then none
    else (s.mapBlockIndex h).bind fun p =>
      if p.nStatus.failed || !p.nStatus.haveData then some (h, p) else p.pprev.bind (s.firstUnusable n)

def dropBlock (s : Node H) (fFailedChain : Bool) (h : H) : Node H :=
  if fFailedChain then s.modifyIndex h CBlockIndex.failChild
  else { s with mapBlocksUnlinked := s.mapBlocksUnlinked ++
    (((s.mapBlockIndex h).bind (·.pprev)).map (·, h)).toList }

def dropChain (fFailedChain : Bool) (test : H) : Nat → H → Node H → Node H
  | 0, _, s => s
  | n + 1, h, s =>
    if h = test then s.eraseCandidate h
    else match (s.mapBlockIndex h).bind (·.pprev) with
      | none => (s.dropBlock fFailedChain h).eraseCandidate h
      | some q => dropChain fFailedChain test n q ((s.dropBlock fFailedChain h).eraseCandidate h)

end Node

def findMostWork : Nat → Node H → Node H × Option H
  | 0, s => (s, none)
  | n + 1, s =>
    match s.bestCandidate cenv with
    | none => (s, none)
    | some (h, p) =>
      match s.firstUnusable (p.nHeight + 1) h with
      | none => (s, some h)
      | some (test, q) => findMostWork n (Node.dropChain q.nStatus.failed test (p.nHeight + 1) h s)

def findMostWorkChain (s : Node H) : Node H × Option H :=
  findMostWork cenv (s.setBlockIndexCandidates.length + 1) s

def Node.worse (s : Node H) (h : H) : Bool :=
  (s.mapBlockIndex h).all fun p => s.tip.any fun t => workLess cenv p t

def pruneBlockIndexCandidates (s : Node H) : Res (Node H) := do
  let left := s.setBlockIndexCandidates.filter fun h => !s.worse cenv h
  need (!left.isEmpty) (.fault .assertionFailed)
  pure { s with setBlockIndexCandidates := left }

/-! ## one step -/

namespace Node

def updateMempool (s : Node H) (disconnectpool : List (CTransaction H)) (fAddToMempool : Bool) :
    Node H :=
  { s with mempool := cenv.updateMempoolForReorg s.pcoinsTip disconnectpool fAddToMempool s.mempool }

def findFork (s : Node H) : Nat → H → Option H
  | 0, _ => none
  | n + 1, h =>
    if s.chainActive.contains h then some h
    else ((s.mapBlockIndex h).bind (·.pprev)).bind (s.findFork n)

/-- the blocks from the fork to a block, in the order in which they are connected -/
def pathFrom (s : Node H) (fork : Option H) : Nat → H → List H → List H
  | 0, _, path => path
  | n + 1, h, path =>
    if some h = fork then path
    else match (s.mapBlockIndex h).bind (·.pprev) with
      | none => h :: path
      | some q => s.pathFrom fork n q (h :: path)

end Node

/-- the first loop of `ActivateBestChainStep`: disconnect the blocks above the fork -/
def disconnectTo (fork : Option H) : Nat → List (CTransaction H) → Node H →
    Res (List (CTransaction H)) × Node H
  | 0, disconnectpool, s => (.ok disconnectpool, s)
  | n + 1, disconnectpool, s =>
    if s.chainActive.getLast? = none ∨ s.chainActive.getLast? = fork then (.ok disconnectpool, s)
    else match disconnectTip env cenv s with
      | (.error e, t) => (.error e, t.updateMempool cenv disconnectpool false)
      | (.ok vtx, t) => disconnectTo fork n (disconnectpool ++ vtx) t

/-- the second loop: connect the blocks up to `mostWork` until the tip has more work than the old
one; the result says whether an invalid block was found -/
def connectPath (mostWork : H) (pblock : Option (CBlock H)) (oldTip : Option (CBlockIndex H)) :
    List H → List (CTransaction H) → Node H → Res (Bool × List (CTransaction H)) × Node H
  | [], disconnectpool, s => (.ok (false, disconnectpool), s)
  | h :: path, disconnectpool, s =>
    match s.mapBlockIndex h with
    | none => (.error (.fault .assertionFailed), s)
    | some p =>
      match connectTip env cenv params s h p (if h = mostWork then pblock else none) with
      | (.error e, t) =>
        if e.isInvalid then (.ok (true, disconnectpool), t)
        else (.error e, t.updateMempool cenv disconnectpool false)
      | (.ok vtx, t) =>
        match pruneBlockIndexCandidates cenv t with
        | .error e => (.error e, t)
        | .ok t =>
          let disconnectpool := disconnectpool.filter fun tx =>
            !(vtx.map (·.getHash env)).contains (tx.getHash env)
          -- in a better position than before: the next round goes on from here
          if oldTip.all fun old => t.tip.any fun new => decide (old.nChainWork < new.nChainWork) then
            (.ok (false, disconnectpool), t)
          else connectPath mostWork pblock oldTip path disconnectpool t

def activateBestChainStep (s : Node H) (mostWork : H) (pblock : Option (CBlock H)) :
    Res Bool × Node H :=
  match s.mapBlockIndex mostWork with
  | none => (.error (.fault .assertionFailed), s)
  | some p =>
    let fork := s.findFork (p.nHeight + 1) mostWork
    match disconnectTo env cenv fork s.chainActive.length [] s with
    | (.error e, t) => (.error e, t)
    | (.ok disconnectpool, t) =>
      match connectPath env cenv params mostWork pblock s.tip (t.pathFrom fork (p.nHeight + 1) mostWork [])
          disconnectpool t with
      | (.error e, u) => (.error e, u)
      | (.ok (fInvalidFound, disconnectpool), u) =>
        (.ok fInvalidFound, if t.chainActive.length = s.chainActive.length then u
          else u.updateMempool cenv disconnectpool true)

/-! ## ActivateBestChain -/

def chooseMostWork (pindexMostWork : Option H) (s : Node H) : Node H × Option H :=
  match pindexMostWork with
  | some m => (s, some m)
  | none => findMostWorkChain cenv s

/-- `ActivateBestChain`; `none` when the rounds are used up -/
def activateBestChain (pblock : Option (CBlock H)) : Nat → Option H → Node H → Option (Res Unit × Node H)
  | 0, _, _ => none
  | n + 1, pindexMostWork, s =>
    match chooseMostWork cenv pindexMostWork s with
    | (s, none) => some (.ok (), s)
    | (s, some m) =>
      if s.chainActive.getLast? = some m then some (.ok (), s)
      else
        match activateBestChainStep env cenv params s m
            (pblock.filter fun b => decide (b.getHash env = m)) with
        | (.error e, t) => some (.error e, t)
        | (.ok fInvalidFound, t) =>
          -- "Wipe cache, we may need another branch now"
          let pindexMostWork := if fInvalidFound then none else some m
          if t.chainActive.getLast? = pindexMostWork then
            some (if cenv.flushStateToDisk then .ok () else .error (.systemError "out of disk space"), t)
          else activateBestChain pblock n pindexMostWork t

def processNewBlock (n : Nat) (s : Node H) (block : CBlock H) (fForceProcessing validate : Bool) :
    Option (Res Unit × Node H) :=
  match arrive env cenv params s block fForceProcessing validate with
  | (.error e, t) => some (.error e, t)
  | (.ok b, t) => activateBestChain env cenv params (some b) n none t

end BitCash
