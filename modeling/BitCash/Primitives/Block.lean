import BitCash.Primitives.Transaction

/-!
# Blocks and the prices in their headers

`CPriceInfo`, `CBlockHeader` and `CBlock` of `primitives/block.h`.
-/

namespace BitCash
open Checks Machine

variable {H : Type} [Inhabited H] [DecidableEq H]

structure CPriceInfo where
  priceTime : UInt32
  priceCount : UInt8
  prices0 : Int
  prices1 : Int
  prices_fit : (fits64 prices0 && fits64 prices1) = true
  deriving DecidableEq

def CPriceInfo.prices (p : CPriceInfo) : Nat → Res Int
  | 0 => .ok p.prices0
  | 1 => .ok p.prices1
  | _ + 2 => .error (.fault .outOfBounds)

theorem CPriceInfo.prices_fits {p : CPriceInfo} {i : Nat} {x : Int} (h : p.prices i = .ok x) : fits64 x := by
  have hf := p.prices_fit
  rw [Bool.and_eq_true] at hf
  match i, h with
  | 0, rfl => exact hf.1
  | 1, rfl => exact hf.2

structure CBlockHeader (H : Type) where
  nVersion : BitVec 32
  hashPrevBlock : H
  hashMerkleRoot : H
  nTime : UInt32
  nBits : UInt32
  nNonce : UInt32
  nPriceInfo : CPriceInfo
  priceSig : Bytes
  nPriceInfo2 : CPriceInfo
  priceSig2 : Bytes
  nPriceInfo3 : CPriceInfo
  priceSig3 : Bytes
  nEdgeBits : UInt8
  sCycle : List UInt32
  deriving DecidableEq

structure CBlock (H : Type) [Inhabited H] [DecidableEq H] extends CBlockHeader H where
  vtx : List (CTransaction H)
  fChecked : Bool

instance : DecidableEq (CBlock H) := fun a b =>
  decidable_of_iff (a.toCBlockHeader = b.toCBlockHeader ∧ a.vtx = b.vtx ∧ a.fChecked = b.fChecked)
    (by cases a; cases b; simp)

def isX16Ractive (nVersion : BitVec 32) : Bool := nVersion.getLsbD 3

def isstabletimeactive (nVersion : BitVec 32) : Bool := nVersion.getLsbD 2

/-! ## what the block hash commits to -/

structure PricePreimage where
  priceTime : UInt32
  priceCount : UInt8
  prices : List Int
  deriving DecidableEq

def CPriceInfo.preimage (p : CPriceInfo) : PricePreimage :=
  ⟨p.priceTime, p.priceCount, [p.prices0, p.prices1].take p.priceCount.toNat⟩

inductive HeaderPreimage (H : Type) where
  | x16r (nVersion : BitVec 32) (hashPrevBlock hashMerkleRoot : H) (nTime nBits nNonce : UInt32)
  | full (nVersion : BitVec 32) (hashPrevBlock hashMerkleRoot : H) (nTime nBits nNonce : UInt32)
      (prices : Option (List (PricePreimage × Bytes))) (nEdgeBits : UInt8)
  deriving DecidableEq

def CBlockHeader.preimage (h : CBlockHeader H) : HeaderPreimage H :=
  if isX16Ractive h.nVersion then
    .x16r h.nVersion h.hashPrevBlock h.hashMerkleRoot h.nTime h.nBits h.nNonce
  else
    .full h.nVersion h.hashPrevBlock h.hashMerkleRoot h.nTime h.nBits h.nNonce
      (present (isstabletimeactive h.nVersion)
        [(h.nPriceInfo.preimage, h.priceSig), (h.nPriceInfo2.preimage, h.priceSig2),
          (h.nPriceInfo3.preimage, h.priceSig3)])
      h.nEdgeBits

omit [Inhabited H] [DecidableEq H] in
theorem CBlockHeader.eq_of_preimage {h k : CBlockHeader H} (e : h.preimage = k.preimage) :
    h.nVersion = k.nVersion ∧ h.hashPrevBlock = k.hashPrevBlock ∧
      h.hashMerkleRoot = k.hashMerkleRoot ∧ h.nTime = k.nTime ∧ h.nBits = k.nBits := by
  unfold CBlockHeader.preimage at e
  cases hh : isX16Ractive h.nVersion <;> cases hk : isX16Ractive k.nVersion <;> simp_all

/-! ## serialised sizes -/

def CPriceInfo.serializeSize (p : CPriceInfo) : Nat := 4 + 1 + 8 * p.priceCount.toNat

def CBlockHeader.serializeSize (h : CBlockHeader H) : Nat :=
  80 +
    (if isstabletimeactive h.nVersion then
      h.nPriceInfo.serializeSize + vectorSize h.priceSig +
        h.nPriceInfo2.serializeSize + vectorSize h.priceSig2 +
        h.nPriceInfo3.serializeSize + vectorSize h.priceSig3
    else 0) +
    (if isX16Ractive h.nVersion then 0
    else 1 + compactSize h.sCycle.length + 4 * h.sCycle.length)

def CBlock.strippedSize (b : CBlock H) : Nat :=
  b.toCBlockHeader.serializeSize + listSize CTransaction.strippedSize b.vtx

def CBlock.totalSize (b : CBlock H) : Nat :=
  b.toCBlockHeader.serializeSize + listSize CTransaction.getTotalSize b.vtx

/-! ## prices -/

def absDiff (a b : Int) : Res Int :=
  if fits64 (a - b) && fits64 (-(a - b)) then .ok |a - b| else .error (.fault .signedOverflow)

def closestPair (p1 p2 p3 d1 d2 d3 : Int) : Int :=
  if d1 ≤ d2 ∧ d1 ≤ d3 then (p1 - p2).tdiv 2 + p2
  else if d2 ≤ d1 ∧ d2 ≤ d3 then (p2 - p3).tdiv 2 + p3
  else (p1 - p3).tdiv 2 + p3

/-- the index `GetPriceinCurrency` reads: the last price there is, for a currency without one;
with no price at all the subtraction wraps to 255 -/
def priceIndex (priceCount currency : UInt8) : Nat :=
  if (currency.toNat : Int) > priceCount.toNat - 1 then (priceCount - 1).toNat else currency.toNat

def CBlockHeader.getPriceinCurrency (h : CBlockHeader H) (currency : UInt8) : Res Int := do
  let i := priceIndex h.nPriceInfo.priceCount currency
  let p1 ← h.nPriceInfo.prices i
  let p2 ← h.nPriceInfo2.prices i
  let p3 ← h.nPriceInfo3.prices i
  let d1 ← absDiff p1 p2
  let d2 ← absDiff p2 p3
  let d3 ← absDiff p1 p3
  pure (closestPair p1 p2 p3 d1 d2 d3)

theorem absDiff_of_pos {a b : Int} (ha : 0 < a) (hb : 0 < b) (ha' : fits64 a)
    (hb' : fits64 b) : absDiff a b = .ok |a - b| := by
  rw [fits64_iff] at ha' hb'
  refine if_pos ?_
  rw [Bool.and_eq_true, fits64_iff, fits64_iff]
  omega

theorem midpoint_pos {a b : Int} (ha : 0 < a) (hb : 0 < b) : 0 < (a - b).tdiv 2 + b := by
  rcases le_total b a with h | h
  · have := Int.tdiv_nonneg (show 0 ≤ a - b by omega) (show (0 : Int) ≤ 2 by omega)
    omega
  · have hneg : (a - b).tdiv 2 = -((b - a) / 2) := by
      rw [← Int.neg_sub b a, Int.neg_tdiv, Int.tdiv_eq_ediv_of_nonneg (by omega)]
    omega

theorem closestPair_pos {p1 p2 p3 d1 d2 d3 : Int} (h1 : 0 < p1) (h2 : 0 < p2) (h3 : 0 < p3) :
    0 < closestPair p1 p2 p3 d1 d2 d3 := by
  unfold closestPair
  split
  · exact midpoint_pos h1 h2
  · split
    · exact midpoint_pos h2 h3
    · exact midpoint_pos h1 h3

end BitCash
