import BitCash.Consensus.TxVerify

/-!
# Context-free block checks

`CheckBlock` of `validation.cpp`, in the order of the source: the hash algorithm and the proof of work
(`headerRules`), the merkle root (`merkleRules`), the prices (`priceRules`), the transactions (`bodyRules`).
-/

namespace BitCash
open Checks

variable {H : Type} [Inhabited H] [DecidableEq H] (env : Env H) (params : Params H)

/-! ## the header -/

def checkBlockHeader (h : CBlockHeader H) (fCheckPOW : Bool) : Res Unit :=
  need (!fCheckPOW ||
      (if isX16Ractive h.nVersion then env.checkProofOfWork (h.getHash env) h.nBits
      else env.verifyProofOfWork (h.getHash env) h.nBits h.nEdgeBits h.sCycle))
    (.bad 50 "high-hash")

def headerRules (h : CBlockHeader H) (fCheckPOW : Bool) : Res Unit := do
  need (isX16Ractive h.nVersion == decide (params.X16RTIME < h.nTime.toNat))
    (.bad 100 "bad-hash-algo")
  checkBlockHeader env h fCheckPOW

def blockMerkleRoot (vtx : List (CTransaction H)) : H × Bool :=
  Merkle.computeRoot env.hashPair (vtx.map (·.getHash env))

def merkleRules (block : CBlock H) (fCheckMerkleRoot : Bool) : Res Unit :=
  if fCheckMerkleRoot then do
    need (decide (block.hashMerkleRoot = (blockMerkleRoot env block.vtx).1))
      (.dos 100 REJECT_INVALID "bad-txnmrklroot" true)
    need (!(blockMerkleRoot env block.vtx).2)
      (.dos 100 REJECT_INVALID "bad-txns-duplicate" true)
  else .ok ()

/-! ## the prices -/

def wantedPriceCount (nTime : UInt32) : UInt8 :=
  if params.MASTERKEYDUMMY < nTime.toNat then 2 else 1

def checkPrices (p : CPriceInfo) (suffix : String) : Res Unit :=
  each (fun i => do
    need (!decide (2 ≤ p.priceCount) || decide (p.prices1 ≤ p.prices0))
      (.bad 100 ("bad-price-buysell" ++ suffix))
    let price ← p.prices i
    need (decide (price ≠ 0)) (.bad 100 ("bad-price-iszero" ++ suffix)))
    (List.range p.priceCount.toNat)

def nearTime (nTime : UInt32) (p : CPriceInfo) : Bool :=
  p.priceTime == nTime ||
    (decide (nTime < p.priceTime) && decide (p.priceTime ≤ nTime + MAX_PRICETIME_DIFFERENCE)) ||
    (decide (p.priceTime < nTime) && decide (nTime ≤ p.priceTime + MAX_PRICETIME_DIFFERENCE))

/-- the loop against prices that are not positive, over the count of the first record -/
def checkPositive (h : CBlockHeader H) : Res Unit :=
  each (fun i => do
    let price ← h.nPriceInfo.prices i
    need (decide (0 < price)) (.bad 100 "bad-negative-price")
    let price2 ← h.nPriceInfo2.prices i
    need (decide (0 < price2)) (.bad 100 "bad-negative-price2")
    let price3 ← h.nPriceInfo3.prices i
    need (decide (0 < price3)) (.bad 100 "bad-negative-price3"))
    (List.range h.nPriceInfo.priceCount.toNat)

def priceSigner (p : CPriceInfo) (sig : Bytes) : Option Nat :=
  pricePubKeys.findIdx? fun k => env.verify k (env.hashPrice p.preimage) sig

def checkPriceSigs (h : CBlockHeader H) : Res Unit :=
  if params.STABLETIME < h.nTime.toNat then
    match priceSigner env h.nPriceInfo h.priceSig with
    | none => .error (.bad 100 "bad-price-signature")
    | some i1 =>
      match priceSigner env h.nPriceInfo2 h.priceSig2 with
      | none => .error (.bad 100 "bad-price-signature2")
      | some i2 =>
        match priceSigner env h.nPriceInfo3 h.priceSig3 with
        | none => .error (.bad 100 "bad-price-signature3")
        | some i3 =>
          need (!(i1 == i2 || i2 == i3 || i1 == i3)) (.bad 100 "bad-price-signature4")
  else .ok ()

def priceRules (h : CBlockHeader H) : Res Unit := do
  need (h.nPriceInfo.priceCount == wantedPriceCount params h.nTime) (.bad 100 "bad-price-count")
  need (h.nPriceInfo2.priceCount == wantedPriceCount params h.nTime) (.bad 100 "bad-price-count2")
  need (h.nPriceInfo3.priceCount == wantedPriceCount params h.nTime) (.bad 100 "bad-price-count3")
  checkPrices h.nPriceInfo ""
  checkPrices h.nPriceInfo2 "2"
  checkPrices h.nPriceInfo3 "3"
  each (fun p => need (!decide (params.STABLETIME < h.nTime.toNat) || nearTime h.nTime p)
    (.bad 100 "bad-price-time")) [h.nPriceInfo, h.nPriceInfo2, h.nPriceInfo3]
  checkPositive h
  checkPriceSigs env params h

/-! ## the transactions -/

def versionRule (before after : Bool) (old new nVersion : Int) : Res Unit :=
  need (if before then decide (nVersion ≤ old) else !after || decide (new ≤ nVersion))
    (.bad 100 "bad-tx-version")

def checkTxVersion (nTime : UInt32) (tx : CTransaction H) : Res Unit := do
  let t := nTime.toNat
  versionRule (decide (t ≤ params.MASTERKEYDUMMY)) (decide (params.MASTERKEYDUMMY + 60 * 5 < t)) 5 6
    tx.nVersion
  versionRule (decide (t ≤ params.STABLETIME)) (decide (params.STABLETIME + 60 * 5 < t)) 4 5
    tx.nVersion
  versionRule (decide (t < params.NONPRIVACY)) (decide (params.NONPRIVACY + 60 * 5 < t)) 3 4
    tx.nVersion

def checkDuplicateNick (s : List Bytes × List CPubKey) (i : CTxIn H) :
    Res (List Bytes × List CPubKey) := do
  let nick := toUpperCopy i.nickname
  need (!s.1.contains nick) (.bad 100 "bad-nicknames")
  need (!s.2.contains i.address || signedByMaster env i) (.bad 100 "bad-nickname-address")
  pure (s.1 ++ [nick], s.2 ++ [i.address])

def bodyRules (block : CBlock H) : Res Unit := do
  need (!block.vtx.isEmpty &&
      decide (block.vtx.length * WITNESS_SCALE_FACTOR ≤ MAX_BLOCK_WEIGHT) &&
      decide (block.strippedSize * WITNESS_SCALE_FACTOR ≤ MAX_BLOCK_WEIGHT))
    (.bad 100 "bad-blk-length")
  need (block.vtx.head?.any (·.isCoinBase)) (.bad 100 "bad-cb-missing")
  each (fun tx => need (!tx.isCoinBase) (.bad 100 "bad-cb-multiple")) block.vtx.tail
  each (fun tx => do
    checkTransaction env .empty tx true (block.getHash env) false
    checkTxVersion params block.nTime tx) block.vtx
  let _ ← run (checkDuplicateNick env) ([], []) (nicknameInputs block.vtx.tail)
  need (decide ((block.vtx.map (·.getLegacySigOpCount env)).sum * WITNESS_SCALE_FACTOR ≤
      MAX_BLOCK_SIGOPS_COST))
    (.bad 100 "bad-blk-sigops")

/-! ## CheckBlock -/

def blockRules (block : CBlock H) (fCheckPOW fCheckMerkleRoot : Bool) : Res Unit := do
  headerRules env params block.toCBlockHeader fCheckPOW
  merkleRules env block fCheckMerkleRoot
  priceRules env params block.toCBlockHeader
  bodyRules env params block

def checkBlock (block : CBlock H) (fCheckPOW fCheckMerkleRoot : Bool) : Res (CBlock H) :=
  if block.fChecked then .ok block
  else blockRules env params block fCheckPOW fCheckMerkleRoot >>= fun _ =>
    .ok { block with fChecked := fCheckPOW && fCheckMerkleRoot }

variable {env params} {block : CBlock H} {pow merkle : Bool}

theorem blockRules_ok {u : Unit} :
    blockRules env params block pow merkle = .ok u ↔ headerRules env params block.toCBlockHeader pow = .ok () ∧
      merkleRules env block merkle = .ok () ∧
      priceRules env params block.toCBlockHeader = .ok () ∧ bodyRules env params block = .ok () := by
  simp only [blockRules, bind_ok]
  constructor
  · rintro ⟨_, h1, _, h2, _, h3, h4⟩
    exact ⟨h1, h2, h3, h4⟩
  · rintro ⟨h1, h2, h3, h4⟩
    exact ⟨(), h1, (), h2, (), h3, h4⟩

@[simp] theorem blockRules_flag (block : CBlock H) (flag pow merkle : Bool) :
    blockRules env params { block with fChecked := flag } pow merkle =
      blockRules env params block pow merkle := rfl

theorem headerRules_of_algo {h : CBlockHeader H} (hh : headerRules env params h pow = .ok ()) :
    headerRules env params h true = .ok () ↔ checkBlockHeader env h true = .ok () := by
  rw [headerRules, bind_ok] at hh ⊢
  obtain ⟨u, halgo, -⟩ := hh
  exact ⟨fun ⟨_, _, hpow⟩ => hpow, fun hpow => ⟨u, halgo, hpow⟩⟩

theorem checkBlock_ok {b : CBlock H} (h : checkBlock env params block pow merkle = .ok b) :
    (block.fChecked ∧ b = block) ∨ (block.fChecked = false ∧ blockRules env params block pow merkle = .ok () ∧
        b = { block with fChecked := pow && merkle }) := by
  unfold checkBlock at h
  cases hc : block.fChecked with
  | true =>
    rw [hc, if_pos rfl] at h
    cases h
    exact .inl ⟨rfl, rfl⟩
  | false =>
    rw [hc] at h
    obtain ⟨_, hr, h⟩ := bind_ok.1 h
    cases h
    exact .inr ⟨rfl, hr, rfl⟩

theorem bodyRules_ok (h : bodyRules env params block = .ok ()) :
    (∃ cb rest, block.vtx = cb :: rest ∧ cb.isCoinBase ∧ ∀ tx ∈ rest, tx.isCoinBase = false) ∧
      ∀ tx ∈ block.vtx, checkTransaction env .empty tx true (block.getHash env) false = .ok () := by
  simp only [bodyRules, bind_ok, need_ok, exists_const] at h
  obtain ⟨-, hhead, _, htail, _, htx, -⟩ := h
  refine ⟨?_, fun tx hmem => ?_⟩
  · cases hv : block.vtx with
    | nil => rw [hv] at hhead; cases hhead
    | cons cb rest =>
      rw [hv] at hhead htail
      refine ⟨cb, rest, rfl, hhead, fun tx hmem => ?_⟩
      have := each_ok.1 htail tx hmem
      rwa [need_ok, Bool.not_eq_true'] at this
  · obtain ⟨_, hct, -⟩ := bind_ok.1 (each_ok.1 htx tx hmem)
    exact hct

theorem merkleRules_ok (h : merkleRules env block true = .ok ()) :
    block.hashMerkleRoot = (blockMerkleRoot env block.vtx).1 ∧ (blockMerkleRoot env block.vtx).2 = false := by
  simp only [merkleRules, if_true, bind_ok, need_ok, exists_const, decide_eq_true_eq, Bool.not_eq_true'] at h
  exact h

end BitCash
