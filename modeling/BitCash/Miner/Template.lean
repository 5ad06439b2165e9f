import BitCash.Miner.Convert
import BitCash.Chain.DryRun

/-!
# Block templates

`BlockAssembler::CreateNewBlock` and `UpdateTime` of `miner.cpp`, in the order of the source.
-/

namespace BitCash
open Checks Machine CTxOut List Bool

variable {H : Type} [Inhabited H] [DecidableEq H]

/-! ## prices -/

inductive PriceAnswer where
  | unreadable
  | cut (record : CPriceInfo)
  | full (record : CPriceInfo) (sig : Bytes)
  deriving DecidableEq

structure PriceAnswers where
  first : PriceAnswer
  second : PriceAnswer
  third : PriceAnswer
  deriving DecidableEq

/-- `AddPriceInformation`; there are no answers where `GetPriceInformation` finds no price.  A record
that ends too early stays in the header as far as it was read, and no caller looks at the result. -/
def addPriceInformation (answers : Option PriceAnswers) (h : CBlockHeader H) : CBlockHeader H :=
  match answers with
  | none => h
  | some a =>
    match a.first with
    | .unreadable => h
    | .cut p => { h with nPriceInfo := p }
    | .full p sig =>
      let h := { h with nPriceInfo := p, priceSig := sig }
      match a.second with
      | .unreadable => h
      | .cut p => { h with nPriceInfo2 := p }
      | .full p sig =>
        let h := { h with nPriceInfo2 := p, priceSig2 := sig }
        match a.third with
        | .unreadable => h
        | .cut p => { h with nPriceInfo3 := p }
        | .full p sig => { h with nPriceInfo3 := p, priceSig3 := sig }

structure Tick where
  getAdjustedTime : Int
  answers : Option PriceAnswers
  nBits : Option UInt32
  deriving DecidableEq

def keepsPrice (nTime : UInt32) (p : CPriceInfo) : Bool :=
  p.priceTime == nTime ||
    (decide (nTime < p.priceTime) && decide (p.priceTime ≤ nTime + MAX_PRICETIME_DIFFERENCE / 3)) ||
    (decide (p.priceTime < nTime) && decide (nTime ≤ p.priceTime + MAX_PRICETIME_DIFFERENCE / 3))

def stabletimeactive : BitVec 32 := 0x4#32
def hashx16Ractive : BitVec 32 := 0x8#32

section
variable (params : Params H)

def updateTime (nMedianTimePast : Int) (t : Tick) (h : CBlockHeader H) : CBlockHeader H × Int :=
  let nOldTime : Int := h.nTime.toNat
  let nNewTime := max (nMedianTimePast + 1) t.getAdjustedTime
  let h := if nOldTime < nNewTime then { h with nTime := UInt32.ofInt nNewTime } else h
  let h := { h with nBits := t.nBits.getD h.nBits }
  let h :=
    if params.STABLETIME < h.nTime.toNat ∧
        [h.nPriceInfo, h.nPriceInfo2, h.nPriceInfo3].all (keepsPrice h.nTime) = false then
      addPriceInformation t.answers h
    else h
  let h :=
    if params.X16RTIME < h.nTime.toNat then { h with nVersion := h.nVersion ||| hashx16Ractive } else h
  (h, nNewTime - nOldTime)

/-! ## the template -/

structure MinerEnv (H : Type) [Inhabited H] [DecidableEq H] where
  getAdjustedTime : Int
  time : Int
  computeBlockVersion : BitVec 32
  blockversion : Option (BitVec 32)
  answers : Option PriceAnswers
  tick : Tick
  picked : List H
  walletOut : CTxOut
  includeextranonce : Bool
  segwitTimeout : Bool

variable (env : Env H) (cenv : ChainEnv H) (menv : MinerEnv H)

def CPriceInfo.null : CPriceInfo := ⟨0, 1, 1, 0, rfl⟩

def CBlockHeader.null : CBlockHeader H :=
  ⟨0, default, default, 0, 0, 0, .null, [], .null, [], .null, [], 0, []⟩

def feeHeader : CBlockHeader H :=
  let nTime := UInt32.ofInt menv.getAdjustedTime
  let nVersion := menv.computeBlockVersion |||
    (if params.STABLETIME < nTime.toNat then stabletimeactive else 0) |||
    (if params.X16RTIME < nTime.toNat then hashx16Ractive else 0)
  { addPriceInformation menv.answers .null with
    nTime := nTime
    nVersion := menv.blockversion.getD nVersion }

def filledHeader (pindexPrev : CBlockIndex H) : CBlockHeader H :=
  let pow := cenv.getNextWorkRequired pindexPrev.hash
  { (updateTime params (cenv.getMedianTimePast pindexPrev.hash) menv.tick
      { feeHeader params menv with hashPrevBlock := pindexPrev.hash }).1 with
    nBits := pow.1
    nNonce := 0
    nEdgeBits := pow.2 }

/-- any choice of the pool; `PackageEnv.addPackageTxs` is the one of the source -/
def addPackageTxs (s : Node H) : List (CTransaction H) :=
  menv.picked.dedup.filterMap fun hash => s.mempool.find? fun tx => tx.getHash env = hash

def calculateFeeIn (tip : CoinsMap H) (s : UInt8 × Int) (i : CTxIn H) : Res (UInt8 × Int) :=
  if i.isnickname then .ok s
  else
    let coin := tipCoin tip i.prevout
    addAmount s.2 coin.nValue >>= fun nValueIn => .ok (coin.spendCurrency, nValueIn)

def calculateFee (tip : CoinsMap H) (header : CBlockHeader H) (nFees : Int) (tx : CTransaction H) :
    Res Int := do
  let s ← run (calculateFeeIn tip) (0, 0) tx.vin
  let value_out ← tx.getValueOut
  let txfee_aux ← addAmount s.2 (-value_out)
  let txfee_aux ← convertFee env (some header) s.1 txfee_aux
  addAmount nFees txfee_aux

def calculateFeesForBlock (tip : CoinsMap H) (header : CBlockHeader H) (txs : List (CTransaction H)) :
    Res Int := do
  let _ ← header.getPriceinCurrency 0
  run (calculateFee env tip header) 0 txs

def coinbaseOuts (nHeight : Nat) (reward : Int) : List CTxOut :=
  [{ menv.walletOut with nValue := reward, nValueBitCash := reward, currency := 0 },
    .of (getBlockSubsidyDevs params nHeight) (getBlockSubsidyDevs params nHeight)
      (getScriptForRawPubKey dev1ScriptPubKey) 0]

def mutableVersion : Int := if menv.time < (params.MASTERKEYDUMMY : Int) + 2 * 60 then 5 else 6

def coinbaseScript (nHeight : Nat) : CScript :=
  heightScript nHeight ++
    (if menv.includeextranonce then 16 :: bytesOf 16 0xFFBBAAEE003344BBFFBBAAEE003344BB else []) ++ [0]

def coinbaseTx (nHeight : Nat) (nFees : Int) : Res (CTransaction H) :=
  addAmount nFees (getBlockSubsidy params nHeight) >>= fun reward =>
    if h : (coinbaseOuts params menv nHeight reward).all
        (CTxOut.decoded (mutableVersion params menv)) = true then
      .ok ⟨mutableVersion params menv, [.ofOutPoint .null (coinbaseScript menv nHeight)],
        coinbaseOuts params menv nHeight reward, 0, rfl, h⟩
    else .error (.fault .signedOverflow)

/-- one transaction in `ConvertCurrenciesForBlockTemplate`.  A version below 5 cannot carry a
converted amount; `CheckBlock` refuses these versions. -/
def convertTx (tip : CoinsMap H) (header : CBlockHeader H) (tx : CTransaction H) :
    Res (CTransaction H) :=
  convertOuts tip header tx >>= fun vout =>
    if h : vout.all (CTxOut.decoded tx.nVersion) = true then
      .ok { tx with vout := vout, vout_decoded := h }
    else .error (.throws "CreateNewBlock: TestBlockValidity failed: bad-tx-version (code 16)")

def CTransaction.withReserved (tx : CTransaction H) : CTransaction H :=
  { tx with
    vin := tx.vin.map fun i => { i with scriptWitness := [List.replicate 32 0] }
    vin_decoded := by
      rw [List.all_map]
      exact tx.vin_decoded }

def commitmentOut (rest : List (CTransaction H)) : CTxOut :=
  .of 0 0 ([0x6a, 0x24, 0xaa, 0x21, 0xa9, 0xed] ++
    env.hashCommitment (blockWitnessMerkleRoot env rest) (List.replicate 32 0)) 0

def generateCoinbaseCommitment (witnessEnabled : Bool) (coinbase : CTransaction H)
    (rest : List (CTransaction H)) : CTransaction H :=
  let coinbase :=
    if menv.segwitTimeout && (witnessCommitment coinbase).isNone then
      coinbase.withVout (coinbase.vout ++ [commitmentOut env rest])
    else coinbase
  if (witnessCommitment coinbase).isSome && witnessEnabled && !coinbase.hasWitness then
    coinbase.withReserved
  else coinbase

def templateFailed : Stop → Stop
  | .reject r => .throws ("CreateNewBlock: TestBlockValidity failed: " ++ r.strRejectReason ++
      " (code " ++ toString r.chRejectCode ++ ")")
  | e => e

def createNewBlock (s : Node H) : Res (CBlock H) :=
  match s.tip with
  | none => .error (.fault .assertionFailed)
  | some pindexPrev => do
    let nHeight := pindexPrev.nHeight + 1
    let txs := addPackageTxs env menv s
    let nFees ← calculateFeesForBlock env s.pcoinsTip (feeHeader params menv) txs
    let coinbase ← coinbaseTx params menv nHeight nFees
    let header := filledHeader params cenv menv pindexPrev
    let coinbase ← convertTx s.pcoinsTip header coinbase
    let txs ← collect (convertTx s.pcoinsTip header) txs
    let coinbase := generateCoinbaseCommitment env menv (cenv.segwitActive pindexPrev.hash) coinbase txs
    let block : CBlock H := { header with vtx := coinbase :: txs, fChecked := false }
    let _ ← (testBlockValidity env cenv params s block false false).mapError templateFailed
    pure block

/-! ## mining -/

/-- what the mining loop does with a block: the time moves on, the nonce is another one, and
`IncrementExtraNonce` puts another script into the coinbase -/
inductive MinerStep (nMedianTimePast : Int) : CBlock H → CBlock H → Prop
  | updateTime (block : CBlock H) (t : Tick) : MinerStep nMedianTimePast block
      { block with toCBlockHeader := (updateTime params nMedianTimePast t block.toCBlockHeader).1 }
  | nonce (block : CBlock H) (nNonce : UInt32) : MinerStep nMedianTimePast block
      { block with nNonce := nNonce }
  | extraNonce (block : CBlock H) {cb cb' : CTransaction H} {rest : List (CTransaction H)}
      (hvtx : block.vtx = cb :: rest) (hcb : cb'.isCoinBase = cb.isCoinBase) (hvout : cb'.vout = cb.vout) :
      MinerStep nMedianTimePast block
        { block with vtx := cb' :: rest, hashMerkleRoot := (blockMerkleRoot env (cb' :: rest)).1 }

end

variable {params : Params H} {env : Env H} {cenv : ChainEnv H} {menv : MinerEnv H}
  {cb : CTransaction H} {header : CBlockHeader H} {tip : CoinsTip H} {total : Int} {block : CBlock H}

/-! ## what a template went through -/

theorem convertOut_revalues {p0 p1 : Int} {c : UInt8} {o o' : CTxOut}
    (h : convertOut p0 p1 c o = .ok o') : o.Revalues o' := by
  obtain ⟨amount, -, hret⟩ := bind_ok.1 h
  cases hret
  exact o.revalues_set amount

theorem eq_of_revalues {nVersion : Int} (hv : nVersion < 5) {l m : List CTxOut}
    (h : List.Forall₂ CTxOut.Revalues l m) (hl : l.all (decoded nVersion))
    (hm : m.all (decoded nVersion)) : m = l := by
  have hamount : ∀ o : CTxOut, o.decoded nVersion = true → o.nValueBitCash = o.nValue := by
    intro o ho
    simp only [decoded, and_eq_true, or_eq_true, decide_eq_true_eq] at ho
    exact (ho.1.1.resolve_left (by omega)).2
  induction h with
  | nil => rfl
  | @cons o o' l m hrev _ ih =>
    rw [all_cons, and_eq_true] at hl hm
    have hsame : o'.nValue = o.nValue := by
      rw [← hamount o' hm.1, ← hamount o hl.1, ← hrev]
    have ho : o' = o := by
      rw [← hrev, hsame]
    rw [ho, ih hl.2 hm.2]

theorem convertTx_ok {tip : CoinsMap H} {tx tx' : CTransaction H} (h : convertTx tip header tx = .ok tx') :
    (∃ p0 p1, header.getPriceinCurrency 0 = .ok p0 ∧ header.getPriceinCurrency 1 = .ok p1 ∧
      List.Forall₂ (fun o o' => convertOut p0 p1 (inputCurrency (tipCoin tip) tx) o = .ok o')
        tx.vout tx'.vout) ∧ tx.Revalues tx' := by
  obtain ⟨vout, hvout, h⟩ := bind_ok.1 h
  simp only [convertOuts, bind_ok] at hvout
  obtain ⟨p0, hp0, p1, hp1, hcollect⟩ := hvout
  have houts := collect_ok.1 hcollect
  have hrev : List.Forall₂ CTxOut.Revalues tx.vout vout := houts.imp fun _ _ => convertOut_revalues
  split at h
  · next hdec =>
    cases h
    refine ⟨⟨p0, p1, hp0, hp1, houts⟩, rfl, rfl, rfl, hrev, fun hv => ?_⟩
    exact CTransaction.ext_iff_data.2 ⟨rfl, rfl, eq_of_revalues hv hrev tx.vout_decoded hdec, rfl⟩
  · cases h

structure PaysOut (total : Int) (cb : CTransaction H) : Prop where
  isCoinBase : cb.isCoinBase = true
  bitcash : ∀ o ∈ cb.vout, o.currency = 0 ∧ o.nValue = o.nValueBitCash
  total : (cb.vout.map (·.nValue)).sum = total

theorem coinbaseTx_paysOut {nHeight : Nat} {nFees : Int} (h : coinbaseTx params menv nHeight nFees = .ok cb) :
    PaysOut (nFees + getBlockSubsidy params nHeight + getBlockSubsidyDevs params nHeight) cb := by
  simp only [coinbaseTx, bind_ok, addAmount_ok] at h
  obtain ⟨reward, ⟨-, rfl⟩, h⟩ := h
  split at h
  · cases h
    refine ⟨?_, fun o ho => ?_, ?_⟩
    · simp [CTransaction.isCoinBase, isCoinBaseVin, CTxIn.ofOutPoint, COutPoint.isNull_iff]
    · rcases mem_pair.1 ho with rfl | rfl
      · exact ⟨rfl, rfl⟩
      · exact ⟨rfl, rfl⟩
    · simp [coinbaseOuts, of]
  · cases h

theorem PaysOut.convert {cb' : CTransaction H} (h : PaysOut total cb)
    (hconv : convertTx tip.coins header cb = .ok cb') : PaysOut total cb' := by
  obtain ⟨⟨p0, p1, -, -, houts⟩, hrev⟩ := convertTx_ok hconv
  rw [inputCurrency_coinBase h.isCoinBase] at houts
  have hsame : cb'.vout = cb.vout := by
    have hbitcash := h.bitcash
    generalize cb.vout = l at houts hbitcash
    generalize cb'.vout = m at houts
    induction houts with
    | nil => rfl
    | @cons o o' l m ho _ ih =>
      obtain ⟨hzero, hvalue⟩ := hbitcash o (by simp)
      have hwant : wantedAmount p0 p1 0 false o = .ok o.nValue := by
        rw [hvalue]
        exact if_pos hzero
      rw [convertOut, hwant, ok_bind] at ho
      cases ho
      rw [ih fun p hp => hbitcash p (by simp [hp])]
  refine ⟨hrev.isCoinBase.trans h.isCoinBase, ?_, ?_⟩
  · rw [hsame]
    exact h.bitcash
  · rw [hsame]
    exact h.total

theorem isCoinBase_withReserved (cb : CTransaction H) : cb.withReserved.isCoinBase = cb.isCoinBase := by
  show isCoinBaseVin (cb.vin.map fun i => { i with scriptWitness := [replicate 32 0] }) = isCoinBaseVin cb.vin
  match cb.vin with
  | [] => rfl
  | [_] => rfl
  | _ :: _ :: _ => rfl

theorem PaysOut.commit (h : PaysOut total cb) (witnessEnabled : Bool)
    (rest : List (CTransaction H)) : PaysOut total (generateCoinbaseCommitment env menv witnessEnabled cb rest) := by
  have hout : PaysOut total (cb.withVout (cb.vout ++ [commitmentOut env rest])) := by
    have hdec : (cb.vout ++ [commitmentOut env rest]).all (decoded cb.nVersion) := by
      rw [all_append, cb.vout_decoded]
      simp [commitmentOut, decoded, of, fits64]
    obtain ⟨hvout, hvin, -⟩ := CTransaction.withVout_vout hdec
    refine ⟨?_, ?_, ?_⟩
    · rw [CTransaction.isCoinBase, hvin]
      exact h.isCoinBase
    · intro o ho
      rw [hvout, mem_append, mem_singleton] at ho
      rcases ho with ho | rfl
      · exact h.bitcash o ho
      · exact ⟨rfl, rfl⟩
    · rw [hvout, map_append, sum_append, h.total]
      simp [commitmentOut, of]
  have hreserved : ∀ cb : CTransaction H, PaysOut total cb → PaysOut total cb.withReserved := fun cb hcb =>
    ⟨(isCoinBase_withReserved cb).trans hcb.isCoinBase, hcb.bitcash, hcb.total⟩
  unfold generateCoinbaseCommitment
  split
  · dsimp only
    split
    · exact hreserved _ hout
    · exact hout
  · dsimp only
    split
    · exact hreserved _ h
    · exact h

/-- the parts of a template on a tip: the fees when its coinbase was made, the prices when its outputs
were converted, the coinbase and the other transactions -/
structure IsTemplate (params : Params H) (env : Env H) (cenv : ChainEnv H) (menv : MinerEnv H) (s : Node H)
    (pindexPrev : CBlockIndex H) (block : CBlock H) (nFees p0 p1 : Int) (cb : CTransaction H)
    (txs : List (CTransaction H)) : Prop where
  header : block.toCBlockHeader = filledHeader params cenv menv pindexPrev
  vtx : block.vtx = cb :: txs
  unchecked : block.fChecked = false
  fees : calculateFeesForBlock env s.pcoinsTip (feeHeader params menv) (addPackageTxs env menv s) = .ok nFees
  coinbase : PaysOut (nFees + getBlockSubsidy params (pindexPrev.nHeight + 1) +
    getBlockSubsidyDevs params (pindexPrev.nHeight + 1)) cb
  price : block.getPriceinCurrency 0 = .ok p0
  price2 : block.getPriceinCurrency 1 = .ok p1
  converted : List.Forall₂ (fun tx tx' => tx.Revalues tx' ∧
    List.Forall₂ (fun o o' => convertOut p0 p1 (inputCurrency (tipCoin s.pcoinsTip) tx) o = .ok o')
      tx.vout tx'.vout) (addPackageTxs env menv s) txs
  tested : ∃ b, testBlockValidity env cenv params s block false false = .ok b

theorem createNewBlock_ok {s : Node H} (htip : s.pcoinsTip = tip.coins)
    {pindexPrev : CBlockIndex H} (hprev : s.tip = some pindexPrev)
    (h : createNewBlock params env cenv menv s = .ok block) : ∃ nFees p0 p1 cb txs,
      IsTemplate params env cenv menv s pindexPrev block nFees p0 p1 cb txs := by
  unfold createNewBlock at h
  rw [hprev] at h
  simp only [bind_ok] at h
  obtain ⟨nFees, hfees, cb, hcb, cb', hcb', txs, htxs, b, htest, hret⟩ := h
  cases hret
  obtain ⟨⟨p0, p1, hp0, hp1, -⟩, -⟩ := convertTx_ok hcb'
  refine ⟨nFees, p0, p1, _, txs, rfl, rfl, rfl, hfees, ?_, hp0, hp1, ?_, ?_⟩
  · rw [htip] at hcb'
    exact ((coinbaseTx_paysOut hcb).convert hcb').commit _ _
  · refine (collect_ok.1 htxs).imp fun tx tx' htx => ?_
    obtain ⟨⟨q0, q1, hq0, hq1, houts⟩, hrev⟩ := convertTx_ok htx
    cases hp0.symm.trans hq0
    cases hp1.symm.trans hq1
    exact ⟨hrev, houts⟩
  · generalize testBlockValidity env cenv params s _ false false = r at htest
    cases r with
    | error e => cases htest
    | ok b => exact ⟨b, rfl⟩

theorem mined_vtx {nMedianTimePast : Int} {block' : CBlock H}
    (hm : Relation.ReflTransGen (MinerStep params env nMedianTimePast) block block')
    {txs : List (CTransaction H)} (hvtx : block.vtx = cb :: txs) :
    ∃ cb', block'.vtx = cb' :: txs ∧ cb'.isCoinBase = cb.isCoinBase ∧ cb'.vout = cb.vout := by
  induction hm with
  | refl => exact ⟨cb, hvtx, rfl, rfl⟩
  | tail _ hstep ih =>
    obtain ⟨cb', hvtx', hcb', hvout'⟩ := ih
    cases hstep with
    | updateTime t => exact ⟨cb', hvtx', hcb', hvout'⟩
    | nonce n => exact ⟨cb', hvtx', hcb', hvout'⟩
    | extraNonce hsplit hcb hvout =>
      rw [hvtx'] at hsplit
      cases hsplit
      exact ⟨_, rfl, hcb.trans hcb', hvout.trans hvout'⟩

end BitCash
