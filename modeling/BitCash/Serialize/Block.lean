import Mathlib.Data.List.Sort
import BitCash.Serialize.Value
import BitCash.Validation.Normalise

/-!
# A block from the network

`SerializationOp` of `CPriceInfo`, `CBlockHeader` and `CBlock` of `primitives/block.h`, for reading.
-/

namespace BitCash.Memory
open Wire Codec TwoWay Machine Checks

/-! ## price records -/

def newPriceInfo (unset : BitVec 64) : CPriceInfo :=
  ⟨0, 1, 1, unset.toInt, by rw [fits64_toInt]; rfl⟩

def store (p : CPriceInfo) (i : Nat) (v : BitVec 64) : Res CPriceInfo :=
  match i with
  | 0 => .ok { p with
      prices0 := v.toInt
      prices_fit := by rw [fits64_toInt, Bool.true_and]; exact (Bool.and_eq_true_iff.1 p.prices_fit).2 }
  | 1 => .ok { p with
      prices1 := v.toInt
      prices_fit := by rw [fits64_toInt, Bool.and_true]; exact (Bool.and_eq_true_iff.1 p.prices_fit).1 }
  | _ + 2 => .error (.fault .outOfBounds)

def readPrices (p : CPriceInfo) : Nat → Nat → Reader Stop CPriceInfo
  | 0, _ => pure p
  | n + 1, i => do
    let v ← int64.read
    let p ← lift (store p i v)
    readPrices p n (i + 1)

def unserializePriceInfo (p : CPriceInfo) : Reader Stop CPriceInfo := do
  let priceTime ← uint32.read
  let priceCount ← uint8.read
  readPrices { p with priceTime := priceTime, priceCount := priceCount } priceCount.toNat 0

structure PriceRecord where
  priceTime : UInt32
  prices : List (BitVec 64)
  deriving DecidableEq

def readPriceRecord : Reader Stop PriceRecord := do
  let priceTime ← uint32.read
  let priceCount ← uint8.read
  let prices ← times (fun _ => int64.read) priceCount.toNat 0
  pure ⟨priceTime, prices⟩

def storeAll (p : CPriceInfo) (i : Nat) : List (BitVec 64) → Res CPriceInfo
  | [] => .ok p
  | v :: l => store p i v >>= fun q => storeAll q (i + 1) l

def PriceRecord.fill (r : PriceRecord) (unset : BitVec 64) : Res CPriceInfo :=
  storeAll { newPriceInfo unset with
    priceTime := r.priceTime, priceCount := UInt8.ofNat r.prices.length } 0 r.prices

theorem readPrices_eq {n i : Nat} {s t : Bytes} {l : List (BitVec 64)} (p : CPriceInfo)
    (h : times (fun _ => int64.read) n i s = .ok (l, t)) :
    l.length = n ∧ readPrices p n i s = lift (storeAll p i l) t := by
  induction n generalizing p i s l with
  | zero =>
    cases h
    exact ⟨rfl, rfl⟩
  | succ n ih =>
    obtain ⟨v, s', hv, h⟩ := then_ok.1 h
    obtain ⟨m, t', hm, h⟩ := then_ok.1 h
    cases h
    refine ⟨by rw [List.length_cons, (ih p hm).1], ?_⟩
    have hv' : int64.read s = .ok (v, s') := hv
    rw [readPrices, then_of_ok hv', bind_eq, storeAll]
    cases store p i v with
    | error e => rfl
    | ok q => exact (ih q hm).2

theorem unserializePriceInfo_eq {s t : Bytes} {r : PriceRecord} (unset : BitVec 64)
    (h : readPriceRecord s = .ok (r, t)) : unserializePriceInfo (newPriceInfo unset) s = lift (r.fill unset) t := by
  obtain ⟨priceTime, s1, h1, h⟩ := then_ok.1 h
  obtain ⟨priceCount, s2, h2, h⟩ := then_ok.1 h
  obtain ⟨prices, s3, h3, h⟩ := then_ok.1 h
  cases h
  have hlen := (readPrices_eq (newPriceInfo unset) h3).1
  rw [unserializePriceInfo, then_of_ok h1, then_of_ok h2, (readPrices_eq _ h3).2, PriceRecord.fill,
    hlen, UInt8.ofNat_toNat]

/-! ## headers and blocks -/

structure PriceFields (P : Type) where
  nPriceInfo : P
  priceSig : Bytes
  nPriceInfo2 : P
  priceSig2 : Bytes
  nPriceInfo3 : P
  priceSig3 : Bytes
  deriving DecidableEq

structure HeaderFront where
  nVersion : BitVec 32
  hashPrevBlock : Uint256
  hashMerkleRoot : Uint256
  nTime : UInt32
  nBits : UInt32
  nNonce : UInt32
  deriving DecidableEq

structure HeaderFields (P : Type) extends HeaderFront where
  prices : Option (PriceFields P)
  nEdgeBits : UInt8
  sCycle : List UInt32
  deriving DecidableEq

def readSet : Reader Stop (List UInt32) := do
  let n ← readCompactSize eof
  let l ← times (fun _ => uint32.read) n 0
  pure (l.dedup.insertionSort (· ≤ ·))

section Header
variable {P : Type} (readPrice : Nat → Reader Stop P)

def readPriceFields : Reader Stop (PriceFields P) := do
  let nPriceInfo ← readPrice 0
  let priceSig ← vector.read
  let nPriceInfo2 ← readPrice 1
  let priceSig2 ← vector.read
  let nPriceInfo3 ← readPrice 2
  let priceSig3 ← vector.read
  pure ⟨nPriceInfo, priceSig, nPriceInfo2, priceSig2, nPriceInfo3, priceSig3⟩

def readFront : Reader Stop HeaderFront := do
  let nVersion ← int32.read
  let hashPrevBlock ← (chars 32).read
  let hashMerkleRoot ← (chars 32).read
  let nTime ← uint32.read
  let nBits ← uint32.read
  let nNonce ← uint32.read
  pure ⟨nVersion, hashPrevBlock, hashMerkleRoot, nTime, nBits, nNonce⟩

def readCycle (nVersion : BitVec 32) : Reader Stop (UInt8 × List UInt32) :=
  if isX16Ractive nVersion then pure (0, [])
  else do
    let nEdgeBits ← uint8.read
    let sCycle ← readSet
    pure (nEdgeBits, sCycle)

def readPricesOf (nVersion : BitVec 32) : Reader Stop (Option (PriceFields P)) :=
  if isstabletimeactive nVersion then do
    let f ← readPriceFields readPrice
    pure (some f)
  else pure none

def readHeader : Reader Stop (HeaderFields P) := do
  let front ← readFront
  let prices ← readPricesOf readPrice front.nVersion
  let cycle ← readCycle front.nVersion
  pure ⟨front, prices, cycle.1, cycle.2⟩

end Header

def HeaderFields.header (unset : Nat → BitVec 64) (h : HeaderFields CPriceInfo) : CBlockHeader Uint256 :=
  let f := h.prices.getD
    ⟨newPriceInfo (unset 0), [], newPriceInfo (unset 1), [], newPriceInfo (unset 2), []⟩
  ⟨h.nVersion, h.hashPrevBlock, h.hashMerkleRoot, h.nTime, h.nBits, h.nNonce, f.nPriceInfo, f.priceSig,
    f.nPriceInfo2, f.priceSig2, f.nPriceInfo3, f.priceSig3, h.nEdgeBits, h.sCycle⟩

def readTx (w : Unset) : Reader Stop (CTransaction Uint256) := do
  let t ← attach (decode w) (ensures_decoded rfl w true)
  pure (t.1.value t.2)

def readVtx (w : Nat → Unset) : Reader Stop (List (CTransaction Uint256)) := do
  let n ← readCompactSize eof
  times (fun i => readTx (w i)) n 0

/-- `CBlock::SerializationOp` into a new block, from the network; `unset` are the second prices of the
three records as the constructor leaves them -/
def decodeBlock (unset : Nat → BitVec 64) (w : Nat → Unset) : Reader Stop (CBlock Uint256) := do
  let h ← readHeader fun i => unserializePriceInfo (newPriceInfo (unset i))
  let vtx ← readVtx w
  pure ⟨h.header unset, vtx, false⟩

structure ParsedBlock where
  header : HeaderFields PriceRecord
  vtx : List (CTransaction Uint256)

def parseBlock (w : Nat → Unset) : Reader Stop ParsedBlock := do
  let h ← readHeader fun _ => readPriceRecord
  let vtx ← readVtx w
  pure ⟨h, vtx⟩

/-! ## storing -/

def PriceFields.fill (f : PriceFields PriceRecord) (unset : Nat → BitVec 64) :
    Res (PriceFields CPriceInfo) := do
  let nPriceInfo ← f.nPriceInfo.fill (unset 0)
  let nPriceInfo2 ← f.nPriceInfo2.fill (unset 1)
  let nPriceInfo3 ← f.nPriceInfo3.fill (unset 2)
  pure ⟨nPriceInfo, f.priceSig, nPriceInfo2, f.priceSig2, nPriceInfo3, f.priceSig3⟩

def fillPrices (unset : Nat → BitVec 64) :
    Option (PriceFields PriceRecord) → Res (Option (PriceFields CPriceInfo))
  | none => .ok none
  | some f => f.fill unset >>= fun g => .ok (some g)

def ParsedBlock.stored (b : ParsedBlock) (unset : Nat → BitVec 64) : Res (CBlock Uint256) :=
  fillPrices unset b.header.prices >>= fun prices =>
    .ok ⟨HeaderFields.header unset ⟨b.header.toHeaderFront, prices, b.header.nEdgeBits, b.header.sCycle⟩,
      b.vtx, false⟩

section Stored
variable {unset : Nat → BitVec 64} {s t : Bytes}

theorem readPriceFields_eq {f : PriceFields PriceRecord}
    (h : readPriceFields (fun _ => readPriceRecord) s = .ok (f, t)) :
    readPriceFields (fun i => unserializePriceInfo (newPriceInfo (unset i))) s = lift (f.fill unset) t := by
  obtain ⟨r1, s1, h1, h⟩ := then_ok.1 h
  obtain ⟨sig1, s2, h2, h⟩ := then_ok.1 h
  obtain ⟨r2, s3, h3, h⟩ := then_ok.1 h
  obtain ⟨sig2, s4, h4, h⟩ := then_ok.1 h
  obtain ⟨r3, s5, h5, h⟩ := then_ok.1 h
  obtain ⟨sig3, s6, h6, h⟩ := then_ok.1 h
  cases h
  unfold readPriceFields PriceFields.fill
  refine (then_of_lift (unserializePriceInfo_eq (unset 0) h1)).trans ?_
  cases r1.fill (unset 0) with
  | error e => rfl
  | ok p1 =>
    refine (lift_ok_then p1 _ s1).trans ((then_of_ok h2).trans ?_)
    refine (then_of_lift (unserializePriceInfo_eq (unset 1) h3)).trans ?_
    cases r2.fill (unset 1) with
    | error e => rfl
    | ok p2 =>
      refine (lift_ok_then p2 _ s3).trans ((then_of_ok h4).trans ?_)
      refine (then_of_lift (unserializePriceInfo_eq (unset 2) h5)).trans ?_
      cases r3.fill (unset 2) with
      | error e => rfl
      | ok p3 => exact (lift_ok_then p3 _ s5).trans (then_of_ok h6)

theorem readPricesOf_eq {nVersion : BitVec 32} {f : Option (PriceFields PriceRecord)}
    (h : readPricesOf (fun _ => readPriceRecord) nVersion s = .ok (f, t)) :
    readPricesOf (fun i => unserializePriceInfo (newPriceInfo (unset i))) nVersion s =
      lift (fillPrices unset f) t := by
  unfold readPricesOf at h ⊢
  by_cases hv : isstabletimeactive nVersion = true
  · rw [if_pos hv] at h ⊢
    obtain ⟨g, s1, h1, h⟩ := then_ok.1 h
    cases h
    rw [then_of_lift (readPriceFields_eq h1), fillPrices]
    cases g.fill unset with
    | error e => rfl
    | ok p => rfl
  · rw [if_neg hv] at h ⊢
    cases h
    rfl

theorem decodeBlock_eq {w : Nat → Unset} {b : ParsedBlock} (unset : Nat → BitVec 64)
    (h : parseBlock w s = .ok (b, t)) : decodeBlock unset w s = lift (b.stored unset) t := by
  obtain ⟨hdr, s1, hh, h⟩ := then_ok.1 h
  obtain ⟨vtx, s2, hv, h⟩ := then_ok.1 h
  cases h
  obtain ⟨front, s3, hf, hh⟩ := then_ok.1 hh
  obtain ⟨prices, s4, hp, hh⟩ := then_ok.1 hh
  obtain ⟨cycle, s5, hc, hh⟩ := then_ok.1 hh
  cases hh
  have hread : readHeader (fun i => unserializePriceInfo (newPriceInfo (unset i))) s =
      lift (fillPrices unset prices >>= fun p => .ok ⟨front, p, cycle.1, cycle.2⟩) s1 := by
    unfold readHeader
    rw [then_of_ok hf, then_of_lift (readPricesOf_eq hp)]
    cases fillPrices unset prices with
    | error e => rfl
    | ok p => exact (lift_ok_then p _ s4).trans (then_of_ok hc)
  rw [decodeBlock, then_of_lift hread, ParsedBlock.stored]
  cases fillPrices unset prices with
  | error e => rfl
  | ok p => exact (lift_ok_then _ _ s1).trans (then_of_ok hv)

end Stored

end BitCash.Memory
