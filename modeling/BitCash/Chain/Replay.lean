import BitCash.Chain.Records

/-!
# Replaying blocks after a crash

`ReplayBlocks` and `RollforwardBlock` of `validation.cpp`.
-/

namespace BitCash
open Checks Journal CCoinsViewCache

variable {H : Type} [Inhabited H] [DecidableEq H] (env : Env H)

/-! ## the model -/

def spendAny (v : CCoinsViewCache H) (o : COutPoint H) : CCoinsViewCache H :=
  ((v.spendCoin o).map (·.2)).getD v

def addCoinsChecked (v : CCoinsViewCache H) (tx : CTransaction H) (nHeight : Nat) :
    Res (CCoinsViewCache H) :=
  run (fun v p => v.addCoin (outPoint env tx p) (Coin.ofOut p.1 nHeight tx.isCoinBase)
    (v.haveCoin (outPoint env tx p))) v tx.vout.zipIdx

def rollforwardTx (nHeight : Nat) (v : CCoinsViewCache H) (tx : CTransaction H) :
    Res (CCoinsViewCache H) :=
  addCoinsChecked env
    (if tx.isCoinBase then v else tx.vin.foldl (fun v i => spendAny v i.prevout) v) tx nHeight

structure Replay (H : Type) where
  cache : CCoinsViewCache H
  nicks : Nicknames H

def rollforwardBlock (s : Node H) (p : CBlockIndex H) (r : Replay H) : Res (Replay H) :=
  match readBlockFromDisk env s p with
  | none => .error (.systemError "ReplayBlock(): ReadBlockFromDisk failed")
  | some block => do
    let cache ← run (rollforwardTx env p.nHeight) r.cache block.vtx
    pure ⟨cache, addNicknames env (block.getHash env) block.vtx r.nicks⟩

def rollbackBlock (s : Node H) (p : CBlockIndex H) (r : Replay H) : Res (Replay H) :=
  if 0 < p.nHeight then
    match readBlockFromDisk env s p with
    | none => .error (.systemError "RollbackBlock(): ReadBlockFromDisk() failed")
    | some block => do
      let d ← disconnectBlock env block (undoReadFromDisk s p) p r.cache
      pure ⟨d.1, removeNicknames block.vtx r.nicks⟩
  else .ok r

def rollback (s : Node H) (fork : H) : Nat → H → Replay H → Res (Replay H)
  | 0, _, r => .ok r
  | n + 1, h, r =>
    if h = fork then .ok r
    else match s.mapBlockIndex h with
      | none => .error (.fault .outOfBounds)
      | some p => do
        let r ← rollbackBlock env s p r
        match p.pprev with
        | none => .error (.fault .outOfBounds)
        | some q => rollback s fork n q r

def rollforwardAt (s : Node H) (pindexNew : H) (r : Replay H) (nHeight : Nat) : Res (Replay H) :=
  match (s.getAncestor pindexNew nHeight).bind s.mapBlockIndex with
  | none => .error (.fault .outOfBounds)
  | some p => rollforwardBlock env s p r

def rollforward (s : Node H) (pindexNew : H) (nForkHeight nHeight : Nat) (r : Replay H) :
    Res (Replay H) :=
  run (rollforwardAt env s pindexNew) r (List.range' (nForkHeight + 1) (nHeight - nForkHeight))

def commonFrom (s : Node H) : Nat → H → H → Option H
  | 0, _, _ => none
  | n + 1, a, b =>
    if a = b then some a
    else match (s.mapBlockIndex a).bind (·.pprev), (s.mapBlockIndex b).bind (·.pprev) with
      | some a', some b' => commonFrom s n a' b'
      | _, _ => none

def lastCommonAncestor (s : Node H) (pa pb : CBlockIndex H) : Option H :=
  let nHeight := min pa.nHeight pb.nHeight
  match s.getAncestor pa.hash nHeight, s.getAncestor pb.hash nHeight with
  | some a, some b => commonFrom s (nHeight + 1) a b
  | _, _ => none

def replayBranches (s : Node H) (pindexNew : CBlockIndex H) (pindexOld : Option (CBlockIndex H))
    (r : Replay H) : Res (Replay H) :=
  match pindexOld with
  | none => rollforward env s pindexNew.hash 0 pindexNew.nHeight r
  | some pindexOld =>
    match lastCommonAncestor s pindexOld pindexNew with
    | none => .error (.fault .assertionFailed)
    | some fork =>
      match s.mapBlockIndex fork with
      | none => .error (.fault .outOfBounds)
      | some pindexFork => do
        let r ← rollback env s fork (pindexOld.nHeight + 1) pindexOld.hash r
        rollforward env s pindexNew.hash pindexFork.nHeight pindexNew.nHeight r

def oldTip (s : Node H) (hash : H) : Res (Option (CBlockIndex H)) :=
  if hash = default then .ok none
  else match s.mapBlockIndex hash with
    | none => .error (.systemError "ReplayBlocks(): reorganization from unknown block requested")
    | some p => .ok (some p)

/-- `ReplayBlocks`; the heads are the new and the old tip of an interrupted write -/
def replayBlocks (s : Node H) (hashHeads : List H) : Res (Node H) :=
  match hashHeads with
  | [] => .ok s
  | [hashNew, hashOld] =>
    match s.mapBlockIndex hashNew with
    | none => .error (.systemError "ReplayBlocks(): reorganization to unknown block requested")
    | some pindexNew => do
      let pindexOld ← oldTip s hashOld
      let r ← replayBranches env s pindexNew pindexOld ⟨.ofBase s.pcoinsTip s.bestBlock, s.nicks⟩
      pure { s.flush (r.cache.setBestBlock pindexNew.hash) with nicks := r.nicks }
  | _ => .error (.systemError "ReplayBlocks(): unknown inconsistent state")

/-! ## rolling forward -/

def rollWrites (nHeight : Nat) (tx : CTransaction H) : List (COutPoint H × Write Coin) :=
  (if tx.isCoinBase then [] else tx.vin.map fun i => (i.prevout, .del)) ++ txCreates env tx nHeight

variable {env}

variable {v : CCoinsViewCache H}

theorem spendAny_wrote (hv : v.Coherent) (o : COutPoint H) : Wrote [(o, .del)] v (spendAny v o) := by
  unfold spendAny
  cases hs : v.spendCoin o with
  | none =>
    refine ⟨hv, rfl, ?_⟩
    rw [applyTo_one]
    exact (Function.update_eq_self_iff.2 (CCoinsViewCache.Coherent.getCoin_of_spendCoin_none hs).symm).symm
  | some q =>
    obtain ⟨hco, hget, -, hhash⟩ := hv.spendCoin hs
    refine ⟨hco, hhash, ?_⟩
    rw [applyTo_one]
    exact hget

theorem spendAll_wrote {l : List (CTxIn H)} (hv : v.Coherent) :
    Wrote (l.map fun i => (i.prevout, .del)) v (l.foldl (fun v i => spendAny v i.prevout) v) := by
  induction l generalizing v with
  | nil => exact Wrote.refl hv
  | cons i l ih =>
    have hone := spendAny_wrote hv i.prevout
    exact hone.append (ih hone.coherent)

theorem addChecked_wrote {α : Type} (key : α → COutPoint H) (coin : α → Coin) {l : List α}
    (hl : ∀ a ∈ l, (coin a).isSpent = false) (hv : v.Coherent) :
    ∃ w, run (fun v a => v.addCoin (key a) (coin a) (v.haveCoin (key a))) v l = .ok w ∧
      Wrote (l.flatMap fun a => outWrites (key a) (coin a)) v w := by
  refine run_wrote id (fun a ha v hv => ?_) hv
  have hspent := hl a ha
  unfold outWrites
  cases hu : isUnspendable (coin a).scriptPubKey with
  | true => exact ⟨v, addCoin_ok.2 ⟨hspent, .inl ⟨hu, rfl⟩⟩, Wrote.refl hv⟩
  | false =>
    obtain ⟨x, hx, hco, hget, hhash⟩ := hv.addCoin (v.haveCoin (key a)) hspent hu fun h => by
      rw [haveCoin_eq] at h
      exact Option.isNone_iff_eq_none.1 (Option.isSome_eq_false_iff.1 h)
    refine ⟨x, hx, hco, hhash, ?_⟩
    show x.getCoin = applyTo v.getCoin [(key a, .put (coin a))]
    rw [applyTo_one]
    exact hget

def Countable (tx : CTransaction H) : Prop := ∀ o ∈ tx.vout, o.nValue ≠ -1

theorem rollforwardTx_wrote (env : Env H) (nHeight : Nat) {tx : CTransaction H} (htx : Countable tx)
    (hv : v.Coherent) : ∃ w, rollforwardTx env nHeight v tx = .ok w ∧ Wrote (rollWrites env nHeight tx) v w := by
  have hspend : Wrote (if tx.isCoinBase then [] else tx.vin.map fun i => (i.prevout, .del)) v
      (if tx.isCoinBase then v else tx.vin.foldl (fun v i => spendAny v i.prevout) v) := by
    cases tx.isCoinBase with
    | true => exact Wrote.refl hv
    | false => exact spendAll_wrote hv
  obtain ⟨w, hw, hadd⟩ := addChecked_wrote (outPoint env tx)
    (fun p => Coin.ofOut p.1 nHeight tx.isCoinBase) (l := tx.vout.zipIdx)
    (fun p hp => decide_eq_false (htx p.1 (List.fst_mem_of_mem_zipIdx hp))) hspend.coherent
  refine ⟨w, hw, ?_⟩
  unfold rollWrites
  rw [txCreates_eq]
  exact hspend.append hadd

/-- rolling forward writes what a block writes, whatever of it is there already -/
theorem rollforwardTxs_wrote (env : Env H) (nHeight : Nat) {l : List (CTransaction H)} (hl : ∀ tx ∈ l, Countable tx)
    (hv : v.Coherent) : ∃ w, run (rollforwardTx env nHeight) v l = .ok w ∧
      Wrote (l.flatMap (rollWrites env nHeight)) v w := by
  refine run_wrote id (fun tx htx v hv => ?_) hv
  exact rollforwardTx_wrote env nHeight (hl tx htx) hv

end BitCash
