import BitCash.Primitives.Block
import BitCash.Lib.Merkle

/-!
# Consensus parameters and what the model takes from outside
-/

namespace BitCash

variable {H : Type} [Inhabited H] [DecidableEq H]

structure Params (H : Type) where
  hashGenesisBlock : H
  nSubsidyHalvingInterval : Nat
  BIP34Height : Int
  BIP65Height : Int
  BIP66Height : Int
  X16RTIME : Nat
  NONPRIVACY : Nat
  STABLETIME : Nat
  MASTERKEYDUMMY : Nat
  deriving DecidableEq

def mainParams (hashGenesisBlock : H) : Params H where
  hashGenesisBlock := hashGenesisBlock
  nSubsidyHalvingInterval := 2100000
  BIP34Height := 1
  BIP65Height := 1
  BIP66Height := 1
  X16RTIME := 1550923200
  NONPRIVACY := 1552176000
  STABLETIME := 1561204800
  MASTERKEYDUMMY := 1563876000

def MAX_BLOCK_WEIGHT : Nat := 144000000
def MAX_BLOCK_SIGOPS_COST : Nat := 2880000
def WITNESS_SCALE_FACTOR : Nat := 4
def COINBASE_MATURITY : Int := 100
def MAX_PRICETIME_DIFFERENCE : UInt32 := 600
def MAX_FUTURE_BLOCK_TIME : Int := 7200
def MIN_BLOCKS_TO_KEEP : Int := 288
def BIP34_IMPLIES_BIP30_LIMIT : Int := 1983702

def STANDARD_NOT_MANDATORY_VERIFY_FLAGS : BitVec 32 := 0xffde#32

def pricePubKeys : List CPubKey :=
  [⟨bytesOf 33 0x02dad4dbc84f943d3c052a924d3a1bae7f94f18016e6c6712e48fe63d280a1e0ca, by decide⟩,
   ⟨bytesOf 33 0x0237c2594c5467e9d830f1c4ca14814a36bebc61efc66007dfd8b385ac3669b537, by decide⟩,
   ⟨bytesOf 33 0x0354b0ad20ba9a91d239f50467e0bd92ad324f50b6d683c8c3c5bf3179950e46cd, by decide⟩,
   ⟨bytesOf 33 0x03ef98866199113852b88d3570705130a3be952cd48cf7365aa40305fb60798a9e, by decide⟩,
   ⟨bytesOf 33 0x02911ef2c4a866c2288b32718bbe4912c210db8b8fba74c2b92b65da7296e70f4a, by decide⟩,
   ⟨bytesOf 33 0x03e4db853e5c61debaab8f71b160829bb2d1f7540c6dc7f7dfa7db6e60eb4a394f, by decide⟩,
   ⟨bytesOf 33 0x03822ade68c1d90e105e1c10d04a865b37d77e076469285858ae50deb07891ea29, by decide⟩,
   ⟨bytesOf 33 0x0224f2c3bff9318f0721256b48397751c5e38d9a6b57a97262ea5fd505cd77d727, by decide⟩,
   ⟨bytesOf 33 0x035c5a2ecf4e64d2b6d6d1bf4337ffa771b2752633a04f6d743376afaff282c006, by decide⟩,
   ⟨bytesOf 33 0x03bd7a2b96c98a5d6930400e0493b085172b2a8203ec808e754ddbc7df8f8ddf86, by decide⟩,
   ⟨bytesOf 33 0x03b1b3d52eee0788c1ccecc9f9e43b4855b8ff3401dd1247692c0610af960362e3, by decide⟩,
   ⟨bytesOf 33 0x03e6ae9c8e9bb2466e96de4c22d7520f49d630b2de6325281c9cbc318006b7fe85, by decide⟩,
   ⟨bytesOf 33 0x034e3400e3f1086a3236c2a4de878608e2d48bfc3b11637a802a0fb1644eaf8b67, by decide⟩,
   ⟨bytesOf 33 0x023813dc52070f3da55c7cd6e4d66f7c4a7936ea9bd7b36cebd3761a4c94d94625, by decide⟩]

structure Env (H : Type) [Inhabited H] [DecidableEq H] where
  hashTx : TxPreimage H → H
  hashWitnessTx : TxPreimage H → List (List Bytes) → H
  hashHeader : HeaderPreimage H → H
  hashPair : H → H → H
  hashPrice : PricePreimage → H
  hashBytes : Bytes → H
  hashCommitment : H → Bytes → Bytes
  verify : CPubKey → H → Bytes → Bool
  checkProofOfWork : H → UInt32 → Bool
  verifyProofOfWork : H → UInt32 → UInt8 → List UInt32 → Bool
  scriptCheck : CScript → Int → CTransaction H → Nat → BitVec 32 → Bool
  scriptCached : CTransaction H → BitVec 32 → Bool
  scriptThreads : Bool
  getSigOpCount : CScript → Nat
  getTransactionSigOpCost : CTransaction H → List CScript → BitVec 32 → Nat
  getBlockScriptFlags : H → BitVec 32
  sequenceLocks : CTransaction H → List Int → H → Bool
  /-- `fScriptChecks`: the block is not buried under the assumed valid one -/
  fScriptChecks : H → Bool
  getCachedPriceInformation : Int

variable (env : Env H)

def CTransaction.getHash (tx : CTransaction H) : H := env.hashTx tx.preimage

def CTransaction.getWitnessHash (tx : CTransaction H) : H :=
  if tx.hasWitness then env.hashWitnessTx tx.preimage tx.witnesses else tx.getHash env

def CBlockHeader.getHash (h : CBlockHeader H) : H := env.hashHeader h.preimage

def CTransaction.getLegacySigOpCount (tx : CTransaction H) : Nat :=
  (tx.vin.map fun i => env.getSigOpCount i.scriptSig).sum +
    (tx.vout.map fun o => env.getSigOpCount o.scriptPubKey).sum

structure Env.Injective : Prop where
  tx : Function.Injective env.hashTx
  header : Function.Injective env.hashHeader
  pair : Merkle.PairInj env.hashPair
  tx_ne_pair : ∀ p a b, env.hashTx p ≠ env.hashPair a b

/-! ## subsidies -/

/-- `GetBlockSubsidy`; from the 64th halving on the shift is undefined and the reward is zero -/
def getBlockSubsidy (params : Params H) (nHeight : Nat) : Int :=
  let halvings := nHeight / params.nSubsidyHalvingInterval
  if 64 ≤ halvings then 0
  else if nHeight = 1 then 9700019350 * MILLICOIN
  else (19350 * MILLICOIN) / 2 ^ halvings

def getBlockSubsidyDevs (params : Params H) (nHeight : Nat) : Int :=
  let halvings := nHeight / params.nSubsidyHalvingInterval
  if 64 ≤ halvings then 0 else (2150 * MILLICOIN) / 2 ^ halvings

end BitCash
