import BitCash.Chain.Activate
import BitCash.Lib.Runs

/-!
# Runs of connections and disconnections

What a node keeps for itself and changes in the meantime, such as the script cache, is the `LocalEnv` of a
connection: every connection of a run may see another one.

* `ChainStep`: connections and disconnections of an `ActiveChain`
* `Node.At`: a node at such a chain
-/

namespace BitCash
open Checks Runs

variable {H : Type} [Inhabited H] [DecidableEq H]

structure LocalEnv (H : Type) [Inhabited H] [DecidableEq H] where
  scriptCached : CTransaction H → BitVec 32 → Bool
  scriptThreads : Bool
  fScriptChecks : H → Bool
  getCachedPriceInformation : Int

def Env.withLocal (env : Env H) (l : LocalEnv H) : Env H :=
  { env with
    scriptCached := l.scriptCached
    scriptThreads := l.scriptThreads
    fScriptChecks := l.fScriptChecks
    getCachedPriceInformation := l.getCachedPriceInformation }

def Env.localEnv (env : Env H) : LocalEnv H :=
  ⟨env.scriptCached, env.scriptThreads, env.fScriptChecks, env.getCachedPriceInformation⟩

@[simp] theorem Env.withLocal_self (env : Env H) : env.withLocal env.localEnv = env := rfl

structure ChainBlock (H : Type) [Inhabited H] [DecidableEq H] where
  block : CBlock H
  pindex : CBlockIndex H
  vtxundo : List (List Coin)

structure ActiveChain (H : Type) [Inhabited H] [DecidableEq H] where
  /-- the newest first, without the genesis block -/
  blocks : List (ChainBlock H)
  pcoinsTip : CoinsMap H
  bestBlock : H
  nicks : Nicknames H

def ActiveChain.genesis (params : Params H) : ActiveChain H :=
  ⟨[], fun _ => none, params.hashGenesisBlock, .empty⟩

def ActiveChain.connectState (a : ActiveChain H) (pindex : CBlockIndex H) : ConnectState H :=
  ⟨.ofBase a.pcoinsTip a.bestBlock, pindex, a.nicks⟩

variable (env : Env H) (params : Params H)

def connectNext (undoPos : Res Nat) (a : ActiveChain H) (block : CBlock H) (pindex : CBlockIndex H) :
    Res (ActiveChain H) :=
  match connectBlock env params block a.pcoinsTip undoPos false (a.connectState pindex) with
  | (.error e, _) => .error e
  | (.ok _, t) =>
    connectLoop env params (a.connectState pindex).context block (a.connectState pindex).view >>=
      fun c => .ok ⟨⟨block, pindex, c.vtxundo⟩ :: a.blocks, t.view.getCoin, t.view.hashBlock, t.nicks⟩

def disconnectLast (a : ActiveChain H) : Res (ActiveChain H) :=
  match a.blocks with
  | [] => .error (.fault .assertionFailed)
  | b :: rest => do
    let r ← disconnectBlock env b.block (some b.vtxundo) b.pindex (.ofBase a.pcoinsTip a.bestBlock)
    need r.2 (.systemError "DisconnectTip(): DisconnectBlock failed")
    pure ⟨rest, r.1.getCoin, r.1.hashBlock, removeNicknames b.block.vtx a.nicks⟩

structure OnTop (a : ActiveChain H) (block : CBlock H) (pindex : CBlockIndex H) : Prop where
  pprev : pindex.pprev = some a.bestBlock
  nHeight : pindex.nHeight = a.blocks.length + 1
  connected : block.getHash env ≠ params.hashGenesisBlock
  checked : block.fChecked = true → blockRules env params block true true = .ok ()

inductive ChainStep : ActiveChain H → ActiveChain H → Prop
  | connect {a a' : ActiveChain H} (l : LocalEnv H) (undoPos : Res Nat) (block : CBlock H)
      (pindex : CBlockIndex H) (htop : OnTop env params a block pindex)
      (h : connectNext (env.withLocal l) params undoPos a block pindex = .ok a') : ChainStep a a'
  | disconnect {a a' : ActiveChain H} (h : disconnectLast env a = .ok a') : ChainStep a a'

variable {env params} {a a' : ActiveChain H} {block : CBlock H} {pindex : CBlockIndex H} {undoPos : Res Nat}

/-! ## what a step does -/

structure Connects (env : Env H) (params : Params H) (a : ActiveChain H) (b : ChainBlock H)
    (c : ConnectLoop H) (a' : ActiveChain H) : Prop where
  rules : blockRules env params b.block true true = .ok ()
  hash : b.pindex.hash = b.block.getHash env
  nHeight : b.pindex.nHeight = a.blocks.length + 1
  loop : connectLoop env params ⟨b.pindex, a.nicks, false⟩ b.block (.ofBase a.pcoinsTip a.bestBlock) = .ok c
  conversions : checkConversions a.pcoinsTip b.block = .ok ()
  undo : b.vtxundo = c.vtxundo
  blocks : a'.blocks = b :: a.blocks
  pcoinsTip : a'.pcoinsTip = c.view.getCoin
  bestBlock : a'.bestBlock = b.pindex.hash
  nicks : a'.nicks = addNicknames env b.pindex.hash b.block.vtx a.nicks

theorem Accepts.leaves {tip : CoinsMap H} {s t : ConnectState H}
    (h : Accepts env params block tip undoPos s t) : s.pindex.hash = block.getHash env ∧
      t.nicks = addNicknames env s.pindex.hash block.vtx s.nicks ∧ t.view.hashBlock = s.pindex.hash := by
  obtain ⟨c, p, hc, -, -, rfl⟩ := h.steps
  exact ⟨(connectChecks_iff.1 hc).1, rfl, rfl⟩

theorem connectNext_ok (htop : OnTop env params a block pindex)
    (h : connectNext env params undoPos a block pindex = .ok a') :
    ∃ c, Connects env params a ⟨block, pindex, c.vtxundo⟩ c a' := by
  unfold connectNext at h
  cases hb : connectBlock env params block a.pcoinsTip undoPos false (a.connectState pindex) with
  | mk r t =>
    rw [hb] at h
    cases r with
    | error e => cases h
    | ok u =>
      obtain ⟨c, hc, h⟩ := bind_ok.1 h
      cases h
      have hacc : Accepts env params block a.pcoinsTip undoPos (a.connectState pindex) t := ⟨hb, htop.connected⟩
      obtain ⟨c', hc', -, hconv, hview, b, hcb⟩ := hacc.inv
      have hcc : c' = c := Except.ok.inj (hc'.symm.trans hc)
      subst hcc
      obtain ⟨hhash, hnicks, hbest⟩ := hacc.leaves
      have hrules : blockRules env params block true true = .ok () := by
        rcases checkBlock_ok hcb with ⟨hchecked, -⟩ | ⟨-, hr, -⟩
        · exact htop.checked hchecked
        · exact hr
      exact ⟨c', hrules, hhash, htop.nHeight, hc', hconv, rfl, rfl, hview, hbest, hnicks⟩

theorem disconnectLast_ok (h : disconnectLast env a = .ok a') : ∃ b view, a.blocks = b :: a'.blocks ∧
      disconnectBlock env b.block (some b.vtxundo) b.pindex (.ofBase a.pcoinsTip a.bestBlock) = .ok (view, true) ∧
      a'.pcoinsTip = view.getCoin ∧ a'.bestBlock = view.hashBlock ∧
      a'.nicks = removeNicknames b.block.vtx a.nicks := by
  unfold disconnectLast at h
  cases hb : a.blocks with
  | nil => rw [hb] at h; cases h
  | cons b rest =>
    rw [hb] at h
    simp only [bind_ok, need_ok, exists_const] at h
    obtain ⟨⟨view, clean⟩, hd, hclean, h⟩ := h
    cases h
    have hcl : clean := hclean
    rw [hcl] at hd
    exact ⟨b, view, rfl, hd, rfl, rfl, rfl⟩

theorem OnTop.withLocal (h : OnTop env params a block pindex) (l : LocalEnv H) :
    OnTop (env.withLocal l) params a block pindex :=
  ⟨h.pprev, h.nHeight, h.connected, h.checked⟩

theorem ChainStep.inv (h : ChainStep env params a a') :
    (∃ l b c, Connects (env.withLocal l) params a b c a') ∨ disconnectLast env a = .ok a' := by
  cases h with
  | connect l undoPos block pindex htop h =>
    obtain ⟨c, hc⟩ := connectNext_ok (htop.withLocal l) h
    exact .inl ⟨l, _, c, hc⟩
  | disconnect h => exact .inr h

/-! ## the steps of a node -/

structure Node.At (s : Node H) (a : ActiveChain H) : Prop where
  pcoinsTip : s.pcoinsTip = a.pcoinsTip
  bestBlock : s.bestBlock = a.bestBlock
  nicks : s.nicks = a.nicks

variable {cenv : ChainEnv H} {vtx : List (CTransaction Digest)} {n : UInt8} {p : CBlockIndex H}

/-- **`ConnectTip` is one connection**: on a block that belongs on top of the chain the node is at, it leaves
the node at that chain with the block on it -/
theorem connectTip_next {s t : Node H} {h : H}
    {pblock : Option (CBlock H)} {vtx : List (CTransaction H)} (hs : s.At a)
    (hok : connectTip env cenv params s h p pblock = (.ok vtx, t))
    (hnext : ∀ block, pblock.or (readBlockFromDisk env s p) = some block → OnTop env params a block p) :
    ∃ block u a', pblock.or (readBlockFromDisk env s p) = some block ∧
      connectNext env params (s.undoPos cenv) a block p = .ok a' ∧
      a'.blocks = ⟨block, p, u⟩ :: a.blocks ∧ t.At a' := by
  have hstate : s.connectState p = a.connectState p := by
    rw [Node.connectState, ActiveChain.connectState, hs.pcoinsTip, hs.bestBlock, hs.nicks]
  unfold connectTip at hok
  split at hok
  · cases hok
  · cases hb : pblock.or (readBlockFromDisk env s p) with
    | none => rw [hb] at hok; cases hok
    | some block =>
      have htop := hnext block hb
      simp only [hb] at hok
      rw [hstate, hs.pcoinsTip] at hok
      cases hc : connectBlock env params block a.pcoinsTip (s.undoPos cenv) false (a.connectState p) with
      | mk r u =>
        rw [hc] at hok
        cases r with
        | error e => cases hok
        | ok x =>
          have hacc : Accepts env params block a.pcoinsTip (s.undoPos cenv) (a.connectState p) u :=
            ⟨hc, htop.connected⟩
          obtain ⟨c, hloop, -⟩ := hacc.inv
          refine ⟨block, c.vtxundo, ⟨⟨block, p, c.vtxundo⟩ :: a.blocks, u.view.getCoin, u.view.hashBlock,
            u.nicks⟩, rfl, ?_, rfl, ?_⟩
          · rw [connectNext, hc]
            simp only [hloop, ok_bind]
          · dsimp only at hok
            split at hok
            · cases hok
            · cases hok
              exact ⟨rfl, rfl, rfl⟩

theorem disconnectBlock_congr {q : CBlockIndex H} (hprev : p.pprev = q.pprev)
    (hheight : p.nHeight = q.nHeight) (block : CBlock H) (undo : Option (List (List Coin)))
    (view : CCoinsViewCache H) : disconnectBlock env block undo p view = disconnectBlock env block undo q view := by
  unfold disconnectBlock
  rw [hprev, hheight]

/-- **`DisconnectTip` is one disconnection** of the chain the node is at, where the block and the undo
record of the tip are read back -/
theorem disconnectTip_last {s t : Node H} {b : ChainBlock H}
    {rest : List (ChainBlock H)} {vtx : List (CTransaction H)} (hs : s.At a)
    (hblocks : a.blocks = b :: rest) (hok : disconnectTip env cenv s = (.ok vtx, t))
    (hread : ∀ p, s.tip = some p → readBlockFromDisk env s p = some b.block ∧
      undoReadFromDisk s p = some b.vtxundo ∧ p.pprev = b.pindex.pprev ∧ p.nHeight = b.pindex.nHeight) :
    ∃ a', disconnectLast env a = .ok a' ∧ a'.blocks = rest ∧ t.At a' := by
  unfold disconnectTip at hok
  cases hp : s.tip with
  | none => rw [hp] at hok; cases hok
  | some p =>
    obtain ⟨hblock, hundo, hprev, hheight⟩ := hread p hp
    simp only [hp, hblock, hundo] at hok
    split at hok
    · cases hok
    · rw [disconnectBlock_congr hprev hheight, hs.pcoinsTip, hs.bestBlock] at hok
      cases hd : disconnectBlock env b.block (some b.vtxundo) b.pindex (.ofBase a.pcoinsTip a.bestBlock) with
      | error e => rw [hd] at hok; cases hok
      | ok r =>
        obtain ⟨view, clean⟩ := r
        rw [hd] at hok
        cases clean with
        | false => cases hok
        | true =>
          refine ⟨⟨rest, view.getCoin, view.hashBlock, removeNicknames b.block.vtx a.nicks⟩, ?_, rfl, ?_⟩
          · simp only [disconnectLast, hblocks, hd, ok_bind, need_true, pure_ok]
          · simp only [Bool.not_true, Bool.false_eq_true, if_false] at hok
            split at hok
            · cases hok
            · cases hok
              refine ⟨rfl, rfl, ?_⟩
              show removeNicknames b.block.vtx s.nicks = _
              rw [hs.nicks]

/-! ## chains of the symbolic world -/

def symParams : Params Digest := symMain

def blockOn (a : ActiveChain Digest) (prices : CPriceInfo) (n : UInt8)
    (vtx : List (CTransaction Digest)) : CBlock Digest :=
  let vtx := ⟨6, [.ofOutPoint .null [0x52, n]], [devOut 2150000000], 0, rfl, rfl⟩ :: vtx
  { symHeader a.bestBlock (blockMerkleRoot symEnv vtx).1 prices with
    vtx := vtx, fChecked := false }

def indexOn (a : ActiveChain Digest) (block : CBlock Digest) : CBlockIndex Digest :=
  ⟨block.getHash symEnv, some a.bestBlock, a.blocks.length + 1, 0, 1, 1,
    ⟨3, true, false, false, false⟩, 1, 0, 0⟩

def extendIn (env : Env Digest) (a : ActiveChain Digest) (prices : CPriceInfo) (n : UInt8)
    (vtx : List (CTransaction Digest)) : Res (ActiveChain Digest) :=
  connectNext env symParams (.ok 0) a (blockOn a prices n vtx)
    (indexOn a (blockOn a prices n vtx))

def extend (a : ActiveChain Digest) (n : UInt8) (vtx : List (CTransaction Digest)) :
    Res (ActiveChain Digest) :=
  extendIn symEnv a halfDollar n vtx

theorem blockOn_onTop {env : Env Digest} (henv : env.hashHeader = symEnv.hashHeader)
    (a : ActiveChain Digest) (prices : CPriceInfo) (n : UInt8) (vtx : List (CTransaction Digest)) :
    OnTop env symParams a (blockOn a prices n vtx) (indexOn a (blockOn a prices n vtx)) := by
  refine ⟨rfl, rfl, ?_, fun h => nomatch h⟩
  unfold CBlockHeader.getHash
  rw [henv]
  exact fun h => nomatch h

theorem extendIn_step {env : Env Digest} (henv : env.hashHeader = symEnv.hashHeader)
    {a d : ActiveChain Digest} {prices : CPriceInfo} (h : (extendIn env a prices n vtx).isOk) :
    ChainStep env symParams a (valueOr (extendIn env a prices n vtx) d) :=
  .connect env.localEnv (.ok 0) _ _ (blockOn_onTop henv a prices n vtx) (eq_valueOr h)

theorem extend_step {a d : ActiveChain Digest}
    (h : (extend a n vtx).isOk) : ChainStep symEnv symParams a (valueOr (extend a n vtx) d) :=
  extendIn_step rfl h

def giftTx : CTransaction Digest :=
  ⟨6, [.ofNickname [98, 111, 98] dev1ScriptPubKey dev1ScriptPubKey.vch false false default],
    [.of 0 0 [] 0], 0, rfl, rfl⟩

def regiftTx : CTransaction Digest :=
  ⟨6, [.ofOutPoint ⟨giftTx.getHash symEnv, 0⟩ []], [.of 0 0 [0x51] 0], 0, rfl, rfl⟩

def giftChain : ActiveChain Digest :=
  valueOr (extend (.genesis symParams) 1 [giftTx]) (.genesis symParams)

def regiftChain : ActiveChain Digest := valueOr (extend giftChain 2 [regiftTx]) giftChain

end BitCash
