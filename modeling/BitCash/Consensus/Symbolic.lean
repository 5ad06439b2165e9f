import BitCash.Consensus.Params
import BitCash.Lib.Digest

/-!
# A world without collisions

`symEnv` is an `Env` whose hashes are free digests, in which a signature is valid when it repeats the key,
every proof of work and every script is accepted, and no lock time or signature operation is in the way.
-/

namespace BitCash
open Digest

instance : Code CPubKey := .ofInjective CPubKey.vch fun {a b} h => by
  cases a; cases b; simp_all

instance : Code (COutPoint Digest) := .ofInjective (fun o => (o.hash, o.n)) fun {a b} h => by
  cases a; cases b; simp_all

instance : Code (TxInPreimage Digest) where
  enc
    | .coin prevout scriptSig nSequence => tagged 0 (prevout, scriptSig, nSequence)
    | .nick address nickname nicknamesig nonprivate viewkey =>
      tagged 1 (address, nickname, nicknamesig, nonprivate, viewkey)
  inj {a b} h := by
    cases a <;> cases b <;> obtain ⟨h1, h2⟩ := tagged_inj h
    · have := Code.inj h2; simp_all
    · cases h1
    · cases h1
    · have := Code.inj h2; simp_all

instance : Code TxOutPreimage :=
  .ofInjective (fun o => (o.nValue, o.scriptPubKey, o.reference, o.recipient, o.converted))
    fun {a b} h => by cases a; cases b; simp_all

instance : Code (TxPreimage Digest) :=
  .ofInjective (fun t => (t.nVersion, t.vin, t.vout, t.nLockTime)) fun {a b} h => by
    cases a; cases b; simp_all

instance : Code PricePreimage := .ofInjective (fun p => (p.priceTime, p.priceCount, p.prices)) fun {a b} h => by
    cases a; cases b; simp_all

instance : Code (HeaderPreimage Digest) where
  enc
    | .x16r nVersion prev root nTime nBits nNonce =>
      tagged 0 (nVersion, prev, root, nTime, nBits, nNonce)
    | .full nVersion prev root nTime nBits nNonce prices nEdgeBits =>
      tagged 1 (nVersion, prev, root, nTime, nBits, nNonce, prices, nEdgeBits)
  inj {a b} h := by
    cases a <;> cases b <;> obtain ⟨h1, h2⟩ := tagged_inj h
    · have := Code.inj h2; simp_all
    · cases h1
    · cases h1
    · have := Code.inj h2; simp_all

def symEnv : Env Digest where
  hashTx p := tagged 1 p
  hashWitnessTx p w := tagged 2 (p, w)
  hashHeader h := tagged 3 h
  hashPair a b := tagged 4 (a, b)
  hashPrice p := tagged 5 p
  hashBytes b := tagged 6 b
  hashCommitment _ b := b
  verify k _ sig := decide (sig = k.vch)
  checkProofOfWork _ _ := true
  verifyProofOfWork _ _ _ _ := true
  scriptCheck _ _ _ _ _ := true
  scriptCached _ _ := false
  scriptThreads := false
  getSigOpCount _ := 0
  getTransactionSigOpCost _ _ _ := 0
  getBlockScriptFlags _ := 0
  sequenceLocks _ _ _ := true
  fScriptChecks _ := true
  getCachedPriceInformation := 1

def pricesAt (buy sell : Int) (h : (Machine.fits64 buy && Machine.fits64 sell) = true) : CPriceInfo :=
  ⟨1600000000, 2, buy, sell, h⟩

def priceKeySig (n : Nat) : Bytes := (pricePubKeys.getD n default).vch

def symHeader (prev root : Digest) (prices : CPriceInfo) : CBlockHeader Digest where
  nVersion := 12#32
  hashPrevBlock := prev
  hashMerkleRoot := root
  nTime := 1600000000
  nBits := 1
  nNonce := 0
  nPriceInfo := prices
  priceSig := priceKeySig 0
  nPriceInfo2 := prices
  priceSig2 := priceKeySig 1
  nPriceInfo3 := prices
  priceSig3 := priceKeySig 2
  nEdgeBits := 0
  sCycle := []

theorem symEnv_injective : symEnv.Injective where
  tx _ _ h := Code.inj (tagged_inj h).2
  header _ _ h := Code.inj (tagged_inj h).2
  pair _ _ _ _ h := Prod.ext_iff.1 (Code.inj (tagged_inj h).2)
  tx_ne_pair p a b h := by cases (tagged_inj h).1

abbrev symMain : Params Digest := mainParams (.atom 0)

end BitCash
