import BitCash.Ledger.Exchange
import BitCash.Chain.Agreement
import BitCash.Chain.SameHash
import BitCash.Miner.Reward
import BitCash.Consensus.Refinement
import BitCash.Chain.Inverse
import BitCash.Chain.TipState
import BitCash.Serialize.Determinism
import BitCash.Ledger.Narrowing
import BitCash.Script.Revalued
import BitCash.Serialize.Received
import BitCash.Consensus.Price
import BitCash.Ledger.Supply
import BitCash.Ledger.NicknameReplay
import BitCash.Ledger.NicknameDb
import BitCash.KeyIo.Resolve
import BitCash.Wallet.Abandon
import BitCash.Serialize.CoinStorage
import BitCash.Serialize.BlockIndex
import BitCash.Wallet.RefLine
import BitCash.Wallet.CreateTransaction
import BitCash.Miner.Selection
import BitCash.Util.FixedPoint
import BitCash.Consensus.VersionBits
import BitCash.Validation.PartialMerkle
import BitCash.Chain.Skip
import BitCash.Pow.Retarget
import BitCash.Script.CheckQueue
import BitCash.Script.CuckooCache
