import Mathlib.Data.List.Dedup
import BitCash.Serialize.Block
import BitCash.Serialize.Undo

/-!
# The block index in the database

An entry of the block index is written as a `CDiskBlockIndex`, and `LoadBlockIndexGuts` makes the entries again from
the records.
-/

variable {clientVersion : Fin (2 ^ 31)}

namespace BitCash.Memory
open Wire Codec TwoWay Machine Checks List Function Bool

/-! ## entries -/

def BLOCK_HAVE_DATA : UInt32 := 8
def BLOCK_HAVE_UNDO : UInt32 := 16

structure CBlockIndex where
  pprev : Option Uint256
  nHeight : Fin (2 ^ 31)
  nFile : Fin (2 ^ 31)
  nDataPos : UInt32
  nUndoPos : UInt32
  nTx : UInt32
  nStatus : UInt32
  nVersion : BitVec 32
  hashMerkleRoot : Uint256
  nTime : UInt32
  nBits : UInt32
  nNonce : UInt32
  prices : PriceFields CPriceInfo
  nEdgeBits : UInt8
  sCycle : List UInt32
  sorted : sCycle.Pairwise (· < ·)

def CBlockIndex.hashPrev (e : CBlockIndex) : Uint256 := e.pprev.getD default

def CBlockIndex.getBlockHeader (e : CBlockIndex) : CBlockHeader Uint256 :=
  ⟨e.nVersion, e.hashPrev, e.hashMerkleRoot, e.nTime, e.nBits, e.nNonce, e.prices.nPriceInfo, e.prices.priceSig,
    e.prices.nPriceInfo2, e.prices.priceSig2, e.prices.nPriceInfo3, e.prices.priceSig3, e.nEdgeBits, e.sCycle⟩

structure CDiskBlockIndex where
  entry : CBlockIndex
  hashPrev : Uint256

def CDiskBlockIndex.header (d : CDiskBlockIndex) : CBlockHeader Uint256 :=
  { d.entry.getBlockHeader with hashPrevBlock := d.hashPrev, sCycle := [] }

/-! ## writing -/

def writePrices (p : CPriceInfo) : Nat → Nat → Res Bytes
  | 0, _ => .ok []
  | n + 1, i => do
    let x ← p.prices i
    let rest ← writePrices p n (i + 1)
    .ok (int64.write (BitVec.ofInt 64 x) ++ rest)

def writePriceInfo (p : CPriceInfo) : Res Bytes := do
  let prices ← writePrices p p.priceCount.toNat 0
  .ok (uint32.write p.priceTime ++ (uint8.write p.priceCount ++ prices))

def writePriceFields (f : PriceFields CPriceInfo) : Res Bytes := do
  let p1 ← writePriceInfo f.nPriceInfo
  let p2 ← writePriceInfo f.nPriceInfo2
  let p3 ← writePriceInfo f.nPriceInfo3
  .ok (p1 ++ (vector.write f.priceSig ++ (p2 ++ (vector.write f.priceSig2 ++ (p3 ++ vector.write f.priceSig3)))))

def frontBytes (h : HeaderFront) : Bytes :=
  int32.write h.nVersion ++ ((chars 32).write h.hashPrevBlock ++ ((chars 32).write h.hashMerkleRoot ++
    (uint32.write h.nTime ++ (uint32.write h.nBits ++ uint32.write h.nNonce))))

def setBytes (l : List UInt32) : Bytes := compactBytes l.length ++ l.flatMap uint32.write

def cycleBytes (nVersion : BitVec 32) (nEdgeBits : UInt8) (sCycle : List UInt32) : Bytes :=
  if isX16Ractive nVersion then [] else uint8.write nEdgeBits ++ setBytes sCycle

def flagged (nStatus flags : UInt32) : Bool := nStatus &&& flags != 0

def varIntIf (c : Bool) (x : Nat) : Bytes := if c then varInt x else []

def positionBytes (clientVersion : Nat) (e : CBlockIndex) : Bytes :=
  varInt clientVersion ++ (varInt e.nHeight ++ (varInt e.nStatus.toNat ++ (varInt e.nTx.toNat ++
    (varIntIf (flagged e.nStatus (BLOCK_HAVE_DATA ||| BLOCK_HAVE_UNDO)) e.nFile ++
      (varIntIf (flagged e.nStatus BLOCK_HAVE_DATA) e.nDataPos.toNat ++
        varIntIf (flagged e.nStatus BLOCK_HAVE_UNDO) e.nUndoPos.toNat)))))

def CBlockIndex.front (e : CBlockIndex) : HeaderFront :=
  ⟨e.nVersion, e.hashPrev, e.hashMerkleRoot, e.nTime, e.nBits, e.nNonce⟩

def writeIndex (clientVersion : Nat) (e : CBlockIndex) : Res Bytes := do
  let prices ← writePriceFields e.prices
  .ok (positionBytes clientVersion e ++ (frontBytes e.front ++
    (prices ++ cycleBytes e.nVersion e.nEdgeBits e.sCycle)))

/-! ## reading -/

def readVarIntSigned : Reader Stop (Fin (2 ^ 31)) := do
  let x ← readVarInt eof varIntTooLarge (2 ^ 31 - 1) 0
  pure (Fin.ofNat (2 ^ 31) x)

def readVarIntUnsigned : Reader Stop UInt32 := do
  let x ← readVarInt32 eof
  pure (UInt32.ofNat x)

def readIf {α : Type} (c : Bool) (r : Reader Stop α) (otherwise : α) : Reader Stop α :=
  if c then r else pure otherwise

theorem sorted_set (l : List UInt32) : (l.dedup.insertionSort (· ≤ ·)).Pairwise (· < ·) := by
  have hle := pairwise_insertionSort (· ≤ ·) l.dedup
  have hne : (l.dedup.insertionSort (· ≤ ·)).Nodup := (perm_insertionSort (· ≤ ·) l.dedup).nodup_iff.2 (nodup_dedup l)
  exact (hle.and hne).imp fun h => UInt32.lt_of_le_of_ne h.1 h.2

def readSortedCycle (nVersion : BitVec 32) : Reader Stop (UInt8 × { l : List UInt32 // l.Pairwise (· < ·) }) :=
  if isX16Ractive nVersion then pure (0, ⟨[], .nil⟩)
  else do
    let nEdgeBits ← uint8.read
    let n ← readCompactSize eof
    let l ← times (fun _ => uint32.read) n 0
    pure (nEdgeBits, ⟨l.dedup.insertionSort (· ≤ ·), sorted_set l⟩)

/-- `CDiskBlockIndex::SerializationOp` into a new object; `unset` are the second prices of the three records as
the constructor leaves them -/
def readIndex (unset : Nat → BitVec 64) : Reader Stop CDiskBlockIndex := do
  let _ ← readVarIntSigned
  let nHeight ← readVarIntSigned
  let nStatus ← readVarIntUnsigned
  let nTx ← readVarIntUnsigned
  let nFile ← readIf (flagged nStatus (BLOCK_HAVE_DATA ||| BLOCK_HAVE_UNDO)) readVarIntSigned 0
  let nDataPos ← readIf (flagged nStatus BLOCK_HAVE_DATA) readVarIntUnsigned 0
  let nUndoPos ← readIf (flagged nStatus BLOCK_HAVE_UNDO) readVarIntUnsigned 0
  let front ← readFront
  let prices ← readPriceFields fun i => unserializePriceInfo (newPriceInfo (unset i))
  let cycle ← readSortedCycle front.nVersion
  pure ⟨⟨none, nHeight, nFile, nDataPos, nUndoPos, nTx, nStatus, front.nVersion, front.hashMerkleRoot, front.nTime,
    front.nBits, front.nNonce, prices, cycle.1, cycle.2.1, cycle.2.2⟩, front.hashPrevBlock⟩

/-! ## a record is read back -/

structure SamePrices (f g : PriceFields CPriceInfo) : Prop where
  first : f.nPriceInfo.preimage = g.nPriceInfo.preimage
  second : f.nPriceInfo2.preimage = g.nPriceInfo2.preimage
  third : f.nPriceInfo3.preimage = g.nPriceInfo3.preimage
  sigs : f.priceSig = g.priceSig ∧ f.priceSig2 = g.priceSig2 ∧ f.priceSig3 = g.priceSig3

/-- **what a record holds**: `d` is the entry `e` again.  A position is there when the status says so, a price up
to the count, and the cycle unless the version has the X16R bit -/
structure Restored (e d : CBlockIndex) : Prop where
  hashPrev : d.hashPrev = e.hashPrev
  nHeight : d.nHeight = e.nHeight
  nStatus : d.nStatus = e.nStatus
  nTx : d.nTx = e.nTx
  nFile : flagged e.nStatus (BLOCK_HAVE_DATA ||| BLOCK_HAVE_UNDO) = true → d.nFile = e.nFile
  nDataPos : flagged e.nStatus BLOCK_HAVE_DATA = true → d.nDataPos = e.nDataPos
  nUndoPos : flagged e.nStatus BLOCK_HAVE_UNDO = true → d.nUndoPos = e.nUndoPos
  front : d.front = e.front
  prices : SamePrices d.prices e.prices
  cycle : isX16Ractive e.nVersion = false → d.nEdgeBits = e.nEdgeBits ∧ d.sCycle = e.sCycle

structure IndexFits (e : CBlockIndex) : Prop where
  counts : e.prices.nPriceInfo.priceCount.toNat ≤ 2 ∧ e.prices.nPriceInfo2.priceCount.toNat ≤ 2 ∧
    e.prices.nPriceInfo3.priceCount.toNat ≤ 2
  sigs : e.prices.priceSig.length ≤ MAX_SIZE ∧ e.prices.priceSig2.length ≤ MAX_SIZE ∧
    e.prices.priceSig3.length ≤ MAX_SIZE
  cycle : isX16Ractive e.nVersion = false → e.sCycle.length ≤ MAX_SIZE

theorem yields_lift_ok {α β : Type} {a : α} {f : α → Reader Stop β} {b : Bytes} {P : β → Prop}
    (h : Yields (f a) b P) : Yields (lift (.ok a) >>= f) b P := h

theorem yields_priceInfo (p : CPriceInfo) (h : p.priceCount.toNat ≤ 2) : ∃ b, writePriceInfo p = .ok b ∧ ∀ unset,
      Yields (unserializePriceInfo (newPriceInfo unset)) b (·.preimage = p.preimage) := by
  have hfit := p.prices_fit
  rw [and_eq_true] at hfit
  have h0 := toInt_ofInt_of_fits hfit.1
  have h1 := toInt_ofInt_of_fits hfit.2
  unfold writePriceInfo
  generalize hn : p.priceCount.toNat = n at h
  -- the loop, for each of the counts
  have hloop : ∃ b, writePrices p n 0 = .ok b ∧ ∀ unset,
      Yields (readPrices { newPriceInfo unset with priceTime := p.priceTime, priceCount := p.priceCount } n 0) b
        (·.preimage = p.preimage) := by
    unfold CPriceInfo.preimage
    rw [hn]
    match n, h with
    | 0, _ =>
      refine ⟨[], rfl, fun unset => yields_pure ?_⟩
      rw [hn]
      rfl
    | 1, _ =>
      refine ⟨int64.write (BitVec.ofInt 64 p.prices0) ++ [], rfl, fun unset => ?_⟩
      refine (reads_int64 _).yields.bind ?_
      rintro _ rfl
      refine yields_pure ?_
      dsimp only [store]
      rw [hn, h0]
      rfl
    | 2, _ =>
      refine ⟨int64.write (BitVec.ofInt 64 p.prices0) ++ (int64.write (BitVec.ofInt 64 p.prices1) ++ []), rfl,
        fun unset => ?_⟩
      refine (reads_int64 _).yields.bind ?_
      rintro _ rfl
      refine yields_lift_ok ((reads_int64 _).yields.bind ?_)
      rintro _ rfl
      refine yields_lift_ok (yields_pure ?_)
      dsimp only [store]
      rw [hn, h0, h1]
  obtain ⟨b, hb, hread⟩ := hloop
  rw [hb]
  refine ⟨_, rfl, fun unset => ?_⟩
  refine (reads_uint32 p.priceTime).yields.bind ?_
  rintro _ rfl
  refine (reads_uint8 p.priceCount).yields.bind ?_
  rintro _ rfl
  rw [hn]
  exact hread unset

theorem yields_priceFields {f : PriceFields CPriceInfo}
    (hcounts : f.nPriceInfo.priceCount.toNat ≤ 2 ∧ f.nPriceInfo2.priceCount.toNat ≤ 2 ∧
      f.nPriceInfo3.priceCount.toNat ≤ 2)
    (hsigs : f.priceSig.length ≤ MAX_SIZE ∧ f.priceSig2.length ≤ MAX_SIZE ∧ f.priceSig3.length ≤ MAX_SIZE) :
    ∃ b, writePriceFields f = .ok b ∧ ∀ unset : Nat → BitVec 64,
      Yields (readPriceFields fun i => unserializePriceInfo (newPriceInfo (unset i))) b (SamePrices · f) := by
  obtain ⟨b1, hb1, hr1⟩ := yields_priceInfo f.nPriceInfo hcounts.1
  obtain ⟨b2, hb2, hr2⟩ := yields_priceInfo f.nPriceInfo2 hcounts.2.1
  obtain ⟨b3, hb3, hr3⟩ := yields_priceInfo f.nPriceInfo3 hcounts.2.2
  unfold writePriceFields
  rw [hb1, hb2, hb3]
  refine ⟨_, rfl, fun unset => ?_⟩
  refine (hr1 (unset 0)).bind fun p1 h1 => ?_
  refine (reads_bytes hsigs.1).yields.bind ?_
  rintro _ rfl
  refine (hr2 (unset 1)).bind fun p2 h2 => ?_
  refine (reads_bytes hsigs.2.1).yields.bind ?_
  rintro _ rfl
  refine (hr3 (unset 2)).bind fun p3 h3 => ?_
  refine (reads_bytes hsigs.2.2).yields.map ?_
  rintro _ rfl
  exact ⟨h1, h2, h3, rfl, rfl, rfl⟩

theorem reads_front (h : HeaderFront) : Reads readFront (frontBytes h) h := by
  refine (reads_int32 h.nVersion).bind ?_
  refine (reads_chars h.hashPrevBlock).bind ?_
  refine (reads_chars h.hashMerkleRoot).bind ?_
  refine (reads_uint32 h.nTime).bind ?_
  refine (reads_uint32 h.nBits).bind ?_
  exact (reads_uint32 h.nNonce).map fun nNonce =>
    (⟨h.nVersion, h.hashPrevBlock, h.hashMerkleRoot, h.nTime, h.nBits, nNonce⟩ : HeaderFront)

variable {l : List UInt32}

theorem set_of_sorted (h : l.Pairwise (· < ·)) : l.dedup.insertionSort (· ≤ ·) = l := by
  rw [List.Nodup.dedup (h.imp fun hlt => UInt32.ne_of_lt hlt)]
  exact List.Pairwise.insertionSort_eq (h.imp fun hlt => UInt32.le_of_lt hlt)

theorem yields_cycle {nVersion : BitVec 32} (nEdgeBits : UInt8) (hl : l.Pairwise (· < ·))
    (hlen : isX16Ractive nVersion = false → l.length ≤ MAX_SIZE) :
    Yields (readSortedCycle nVersion) (cycleBytes nVersion nEdgeBits l) fun c =>
      isX16Ractive nVersion = false → c.1 = nEdgeBits ∧ c.2.1 = l := by
  unfold readSortedCycle cycleBytes
  by_cases hx : isX16Ractive nVersion = true
  · rw [if_pos hx, if_pos hx]
    exact yields_pure fun hno => absurd (hx.symm.trans hno) (by decide)
  · have hx' : isX16Ractive nVersion = false := eq_false_of_not_eq_true hx
    rw [if_neg hx, if_neg hx]
    refine (reads_uint8 nEdgeBits).yields.bind ?_
    rintro _ rfl
    refine (reads_compactSize eof (hlen hx')).yields.bind ?_
    rintro _ rfl
    have hitems := reads_items (f := id) (l := l) fun x _ => reads_uint32 x
    rw [map_id] at hitems
    refine hitems.yields.map ?_
    rintro _ rfl _
    exact ⟨rfl, set_of_sorted hl⟩

theorem reads_signed (x : Fin (2 ^ 31)) : Reads readVarIntSigned (varInt x) x := by
  have hread : Reads (readVarInt eof varIntTooLarge (2 ^ 31 - 1) 0) (varInt x) x.1 :=
    reads_varInt (by omega) (by omega)
  have h := hread.map (Fin.ofNat (2 ^ 31))
  rwa [Fin.ofNat_val_eq_self] at h

theorem reads_unsigned (x : UInt32) : Reads readVarIntUnsigned (varInt x.toNat) x := by
  have h := (reads_varInt32 eof x.toNat_lt).map UInt32.ofNat
  rwa [UInt32.ofNat_toNat] at h

theorem yields_if {α : Type} {c : Bool} {r : Reader Stop α} {n : Nat} {x : α} (otherwise : α)
    (h : Reads r (varInt n) x) : Yields (readIf c r otherwise) (varIntIf c n) fun y => c → y = x := by
  unfold readIf varIntIf
  cases c with
  | true => exact ⟨x, h, fun _ => rfl⟩
  | false => exact yields_pure fun hno => by cases hno

theorem yields_index {e : CBlockIndex} (h : IndexFits e) (clientVersion : Fin (2 ^ 31)) :
    ∃ b, writeIndex clientVersion e = .ok b ∧ ∀ unset, Yields (readIndex unset) b fun d =>
      d.hashPrev = e.hashPrev ∧ ∀ pprev : Option Uint256, pprev.getD default = e.hashPrev →
        Restored e { d.entry with pprev } := by
  obtain ⟨prices, hprices, hread⟩ := yields_priceFields h.counts h.sigs
  unfold writeIndex
  rw [hprices]
  refine ⟨_, rfl, fun unset => ?_⟩
  unfold positionBytes
  rw [append_assoc, append_assoc, append_assoc, append_assoc, append_assoc, append_assoc]
  refine (reads_signed clientVersion).yields.bind fun _ _ => ?_
  refine (reads_signed e.nHeight).yields.bind ?_
  rintro _ rfl
  refine (reads_unsigned e.nStatus).yields.bind ?_
  rintro _ rfl
  refine (reads_unsigned e.nTx).yields.bind ?_
  rintro _ rfl
  refine (yields_if 0 (reads_signed e.nFile)).bind fun nFile hfile => ?_
  refine (yields_if 0 (reads_unsigned e.nDataPos)).bind fun nDataPos hdata => ?_
  refine (yields_if 0 (reads_unsigned e.nUndoPos)).bind fun nUndoPos hundo => ?_
  refine (reads_front e.front).yields.bind ?_
  rintro _ rfl
  refine (hread unset).bind fun prices' hsame => ?_
  refine (yields_cycle e.nEdgeBits e.sorted h.cycle).map fun cycle hcycle => ?_
  refine ⟨rfl, fun pprev hprev => ?_⟩
  exact ⟨hprev, rfl, rfl, rfl, hfile, hdata, hundo, by unfold CBlockIndex.front CBlockIndex.hashPrev; rw [hprev]; rfl,
    hsame, hcycle⟩

/-! ## the load -/

/-- the hash of a header, which is never the null hash, and the two proofs of work -/
structure IndexEnv where
  hash : HeaderPreimage Uint256 → Uint256
  hash_ne_null : ∀ p, hash p ≠ default
  checkProofOfWork : Uint256 → UInt32 → Bool
  verifyProofOfWork : Uint256 → UInt32 → UInt8 → List UInt32 → Bool

abbrev BlockMap := Uint256 → Option CBlockIndex

def CBlockIndex.new (unset : Nat → BitVec 64) : CBlockIndex :=
  ⟨none, 0, 0, 0, 0, 0, 0, 0, default, 0, 0, 0,
    ⟨newPriceInfo (unset 0), [], newPriceInfo (unset 1), [], newPriceInfo (unset 2), []⟩, 0, [], .nil⟩

/-- `InsertBlockIndex`: the entry under a hash, made when there is none; nothing for the null hash -/
def insertBlockIndex (unset : Nat → BitVec 64) (m : BlockMap) (hash : Uint256) : Option Uint256 × BlockMap :=
  if hash = default then (none, m)
  else (some hash, if (m hash).isSome then m else Function.update m hash (some (.new unset)))

namespace IndexEnv
variable (E : IndexEnv)

def key (e : CBlockIndex) : Uint256 := E.hash e.getBlockHeader.preimage

def proofOfWork (hash : Uint256) (e : CBlockIndex) : Bool :=
  if isX16Ractive e.nVersion then E.checkProofOfWork hash e.nBits
  else E.verifyProofOfWork hash e.nBits e.nEdgeBits e.sCycle

def loadRecord (unset : Nat → BitVec 64) (m : BlockMap) (d : CDiskBlockIndex) : Res (Bool × BlockMap) :=
  let hash := E.hash d.header.preimage
  match insertBlockIndex unset m hash with
  -- the null pointer is written through
  | (none, _) => .error (.fault .outOfBounds)
  | (some key, m) =>
    let (pprev, m) := insertBlockIndex unset m d.hashPrev
    .ok (E.proofOfWork hash d.entry, Function.update m key (some { d.entry with pprev }))

def loadBlockIndexGuts (unset : Nat → Nat → BitVec 64) : List Bytes → BlockMap → Res (Bool × BlockMap)
  | [], m => .ok (true, m)
  | value :: values, m =>
    match readIndex (unset values.length) value with
    | .error (.throws _) => .ok (false, m)
    | .error e => .error e
    | .ok (d, _) => do
      let (ok, m) ← E.loadRecord (unset values.length) m d
      if ok then loadBlockIndexGuts unset values m else .ok (false, m)

end IndexEnv

section
variable {E : IndexEnv} {e d : CBlockIndex}

theorem Restored.preimage (h : Restored e d) : d.getBlockHeader.preimage = e.getBlockHeader.preimage := by
  obtain ⟨hversion, hprev, hroot, htime, hbits, hnonce⟩ := HeaderFront.mk.inj h.front
  unfold CBlockHeader.preimage CBlockIndex.getBlockHeader
  dsimp only
  rw [hversion, hprev, hroot, htime, hbits, hnonce, h.prices.first, h.prices.second, h.prices.third,
    h.prices.sigs.1, h.prices.sigs.2.1, h.prices.sigs.2.2]
  by_cases hx : isX16Ractive e.nVersion = true
  · rw [if_pos hx, if_pos hx]
  · rw [if_neg hx, if_neg hx, (h.cycle (eq_false_of_not_eq_true hx)).1]

theorem Restored.key (h : Restored e d) : E.key d = E.key e := congrArg E.hash h.preimage

theorem Restored.proofOfWork (h : Restored e d) (hash : Uint256) : E.proofOfWork hash d = E.proofOfWork hash e := by
  obtain ⟨hversion, -, -, -, hbits, -⟩ := HeaderFront.mk.inj h.front
  unfold IndexEnv.proofOfWork
  rw [hversion, hbits]
  by_cases hx : isX16Ractive e.nVersion = true
  · rw [if_pos hx, if_pos hx]
  · obtain ⟨hedge, hcycle⟩ := h.cycle (eq_false_of_not_eq_true hx)
    rw [if_neg hx, if_neg hx, hedge, hcycle]

theorem header_preimage {d : CDiskBlockIndex} (pprev : Option Uint256) (h : pprev.getD default = d.hashPrev) :
    d.header.preimage = ({ d.entry with pprev } : CBlockIndex).getBlockHeader.preimage := by
  unfold CBlockHeader.preimage CDiskBlockIndex.header CBlockIndex.getBlockHeader CBlockIndex.hashPrev
  dsimp only
  rw [h]

theorem insertBlockIndex_keeps {unset : Nat → BitVec 64} {m : BlockMap} {hash k : Uint256} {x : CBlockIndex}
    (h : m k = some x) : (insertBlockIndex unset m hash).2 k = some x := by
  unfold insertBlockIndex
  split
  · exact h
  · dsimp only
    split
    · exact h
    · next hnone =>
      rw [update_of_ne]
      · exact h
      · rintro rfl
        rw [h] at hnone
        exact hnone rfl

theorem insertBlockIndex_fst (unset : Nat → BitVec 64) (m : BlockMap) (hash : Uint256) :
    (insertBlockIndex unset m hash).1.getD default = hash := by
  unfold insertBlockIndex
  split
  · next h => exact h.symm
  · rfl

theorem loadRecord_spec {b : Bytes} (hfits : IndexFits e)
    (hb : writeIndex clientVersion e = .ok b) (unset : Nat → BitVec 64) (m : BlockMap) :
    ∃ d m', readIndex unset b = .ok (d, []) ∧ E.loadRecord unset m d = .ok (E.proofOfWork (E.key e) e, m') ∧
      (∃ e', m' (E.key e) = some e' ∧ Restored e e') ∧ ∀ k x, k ≠ E.key e → m k = some x → m' k = some x := by
  obtain ⟨b', hb', hyields⟩ := yields_index hfits clientVersion
  cases hb.symm.trans hb'
  obtain ⟨d, hread, hprev, hrestored⟩ := hyields unset
  have hread' := hread []
  rw [append_nil] at hread'
  -- whatever the map is, the predecessor is the entry under the stored hash
  have hpprev : ∀ m, (insertBlockIndex unset m d.hashPrev).1.getD default = e.hashPrev := by
    intro m
    rw [insertBlockIndex_fst, hprev]
  have hhash : E.hash d.header.preimage = E.key e := by
    rw [header_preimage _ (insertBlockIndex_fst unset m d.hashPrev)]
    exact (hrestored _ (hpprev m)).key
  have hkey : E.key e ≠ default := E.hash_ne_null _
  have hinsert : ∃ m₁, insertBlockIndex unset m (E.key e) = (some (E.key e), m₁) ∧
      ∀ k x, m k = some x → m₁ k = some x := by
    refine ⟨(insertBlockIndex unset m (E.key e)).2, ?_, fun k x hk => insertBlockIndex_keeps hk⟩
    unfold insertBlockIndex
    rw [if_neg hkey]
  obtain ⟨m₁, hm₁, hkeeps⟩ := hinsert
  have hnew := hrestored _ (hpprev m₁)
  refine ⟨d, update (insertBlockIndex unset m₁ d.hashPrev).2 (E.key e)
    (some { d.entry with pprev := (insertBlockIndex unset m₁ d.hashPrev).1 }), hread', ?_,
    ⟨_, update_self _ _ _, hnew⟩, ?_⟩
  · unfold IndexEnv.loadRecord
    dsimp only
    rw [hhash, hm₁]
    have hpow : E.proofOfWork (E.key e) d.entry = E.proofOfWork (E.key e) e := hnew.proofOfWork (E.key e)
    rw [← hpow]
  · intro k x hk hx
    rw [update_of_ne hk]
    exact insertBlockIndex_keeps (hkeeps k x hx)

theorem load_spec {es : List CBlockIndex} {bs : List Bytes}
    (unset : Nat → Nat → BitVec 64) (hfits : ∀ e ∈ es, IndexFits e) (hkeys : (es.map E.key).Nodup)
    (hbs : List.Forall₂ (fun e b => writeIndex clientVersion e = .ok b) es bs) (m : BlockMap) :
    ∃ m', E.loadBlockIndexGuts unset bs m = .ok (es.all fun e => E.proofOfWork (E.key e) e, m') ∧
      (∀ front e back, es = front ++ e :: back → (front.all fun e => E.proofOfWork (E.key e) e) →
        ∃ e', m' (E.key e) = some e' ∧ Restored e e') ∧
      ∀ k x, (∀ e ∈ es, k ≠ E.key e) → m k = some x → m' k = some x := by
  induction hbs generalizing m with
  | nil =>
    refine ⟨m, rfl, fun front e back hno => ?_, fun k x _ hx => hx⟩
    exact absurd hno (by simp)
  | @cons e b es bs hb _ ih =>
    obtain ⟨hnew, hkeys'⟩ := nodup_cons.1 hkeys
    obtain ⟨d, m₁, hread, hload, ⟨e', hm₁, hrestored⟩, hkeeps⟩ :=
      loadRecord_spec (E := E) (hfits e mem_cons_self) hb (unset bs.length) m
    have hother : ∀ x ∈ es, E.key e ≠ E.key x := by
      intro x hx heq
      exact hnew (mem_map.2 ⟨x, hx, heq.symm⟩)
    unfold IndexEnv.loadBlockIndexGuts
    rw [hread]
    dsimp only
    rw [hload]
    show ∃ m', (if E.proofOfWork (E.key e) e = true then _ else _) = _ ∧ _
    by_cases hpow : E.proofOfWork (E.key e) e = true
    · obtain ⟨m', hm', hfound, hstay⟩ := ih (fun x hx => hfits x (mem_cons_of_mem e hx)) hkeys' m₁
      rw [if_pos hpow, hm', all_cons, hpow, Bool.true_and]
      refine ⟨m', rfl, fun front x back hsplit hfront => ?_, fun k x hk hx => ?_⟩
      · rcases cons_eq_append_iff.1 hsplit with ⟨rfl, hcons⟩ | ⟨front', rfl, rest⟩
        · cases hcons
          exact ⟨e', hstay _ _ hother hm₁, hrestored⟩
        · rw [all_cons, and_eq_true] at hfront
          exact hfound front' x back rest hfront.2
      · obtain ⟨hke, hkes⟩ := forall_mem_cons.1 hk
        exact hstay k x hkes (hkeeps k x hke hx)
    · rw [if_neg hpow, all_cons, eq_false_of_not_eq_true hpow, Bool.false_and]
      refine ⟨m₁, rfl, fun front x back hsplit hfront => ?_, fun k x hk hx => ?_⟩
      · rcases cons_eq_append_iff.1 hsplit with ⟨rfl, hcons⟩ | ⟨front', rfl, -⟩
        · cases hcons
          exact ⟨e', hm₁, hrestored⟩
        · rw [all_cons, and_eq_true] at hfront
          exact absurd hfront.1 hpow
      · exact hkeeps k x (forall_mem_cons.1 hk).1 hx

end

/-- **the block index is restored**: the entries are written, the load answers as their proofs of work do, and
every entry it comes to is found again under the hash it was indexed under, which is the hash of its header -/
theorem blockIndex_restored (E : IndexEnv) (clientVersion : Fin (2 ^ 31)) (unset : Nat → Nat → BitVec 64)
    (es : List CBlockIndex) (m : BlockMap) (hfits : ∀ e ∈ es, IndexFits e) (hkeys : (es.map E.key).Nodup) :
    ∃ bs m', List.Forall₂ (fun e b => writeIndex clientVersion e = .ok b) es bs ∧
      E.loadBlockIndexGuts unset bs m = .ok (es.all fun e => E.proofOfWork (E.key e) e, m') ∧
      ∀ front e back, es = front ++ e :: back → (front.all fun e => E.proofOfWork (E.key e) e) = true →
        ∃ e', m' (E.key e) = some e' ∧ Restored e e' ∧ E.key e' = E.key e := by
  have hwrite : ∃ bs, List.Forall₂ (fun e b => writeIndex clientVersion e = .ok b) es bs := by
    clear hkeys
    induction es with
    | nil => exact ⟨[], .nil⟩
    | cons e es ih =>
      obtain ⟨bs, hbs⟩ := ih fun x hx => hfits x (mem_cons_of_mem e hx)
      obtain ⟨b, hb, -⟩ := yields_index (hfits e mem_cons_self) clientVersion
      exact ⟨b :: bs, .cons hb hbs⟩
  obtain ⟨bs, hbs⟩ := hwrite
  obtain ⟨m', hload, hfound, -⟩ := load_spec unset hfits hkeys hbs m
  refine ⟨bs, m', hbs, hload, fun front e back hsplit hfront => ?_⟩
  obtain ⟨e', he', hrestored⟩ := hfound front e back hsplit hfront
  exact ⟨e', he', hrestored, hrestored.key⟩

def onesHash : Uint256 := ⟨List.replicate 32 1, List.length_replicate⟩

def easyEnv : IndexEnv where
  hash _ := onesHash
  hash_ne_null _ := by decide
  checkProofOfWork _ _ := true
  verifyProofOfWork _ _ _ _ := true

def entryWith (priceSig : Bytes) : CBlockIndex :=
  { CBlockIndex.new fun _ => 0 with
    nHeight := 7, nFile := 1, nDataPos := 8, nStatus := BLOCK_HAVE_DATA
    prices := ⟨newPriceInfo 0, priceSig, newPriceInfo 0, [], newPriceInfo 0, []⟩
    nEdgeBits := 29, sCycle := [3, 5], sorted := by decide }

theorem blockIndex_restored_one : ∃ bs m', List.Forall₂ (fun e b => writeIndex 1 e = .ok b) [entryWith [9]] bs ∧
      easyEnv.loadBlockIndexGuts (fun _ _ => 0) bs (fun _ => none) =
        .ok ([entryWith [9]].all fun e => easyEnv.proofOfWork (easyEnv.key e) e, m') ∧
      ∀ front e back, [entryWith [9]] = front ++ e :: back →
        (front.all fun e => easyEnv.proofOfWork (easyEnv.key e) e) = true →
        ∃ e', m' (easyEnv.key e) = some e' ∧ Restored e e' ∧ easyEnv.key e' = easyEnv.key e :=
  blockIndex_restored easyEnv 1 (fun _ _ => 0) [entryWith [9]] (fun _ => none) (fun e he => by
      rw [List.mem_singleton.1 he]
      exact ⟨by decide, by decide, fun _ => by decide⟩)
    (nodup_singleton _)

theorem fails_longSig {priceSig : Bytes} (hlong : MAX_SIZE < priceSig.length) (hlen : priceSig.length < 2 ^ 64)
    (unset : Nat → BitVec 64) : ∃ b, writeIndex 1 (entryWith priceSig) = .ok b ∧
      Fails (readIndex unset) b (.throws "ReadCompactSize(): size too large") := by
  obtain ⟨p1, hp1, hr1⟩ := yields_priceInfo (newPriceInfo 0) (by decide)
  obtain ⟨q, hq, -⟩ := hr1 (unset 0)
  have hsig : Fails vector.read (vector.write priceSig) (.throws "ReadCompactSize(): size too large") := by
    refine Fails.left (fun rest => ?_) priceSig
    rw [readCompactSize_append eof hlen, if_pos hlong]
  have hprices : ∃ b, writePriceFields (entryWith priceSig).prices = .ok b ∧
      Fails (readPriceFields fun i => unserializePriceInfo (newPriceInfo (unset i))) b
        (.throws "ReadCompactSize(): size too large") := by
    unfold writePriceFields entryWith
    dsimp only
    rw [hp1]
    exact ⟨_, rfl, hq.fails (hsig.left _)⟩
  obtain ⟨prices, hprices, hfails⟩ := hprices
  obtain ⟨_, hfile, -⟩ := yields_if (c := flagged (entryWith priceSig).nStatus (BLOCK_HAVE_DATA ||| BLOCK_HAVE_UNDO))
    0 (reads_signed (entryWith priceSig).nFile)
  obtain ⟨_, hdata, -⟩ := yields_if (c := flagged (entryWith priceSig).nStatus BLOCK_HAVE_DATA) 0
    (reads_unsigned (entryWith priceSig).nDataPos)
  obtain ⟨_, hundo, -⟩ := yields_if (c := flagged (entryWith priceSig).nStatus BLOCK_HAVE_UNDO) 0
    (reads_unsigned (entryWith priceSig).nUndoPos)
  unfold writeIndex
  rw [hprices]
  refine ⟨_, rfl, ?_⟩
  unfold positionBytes
  rw [append_assoc, append_assoc, append_assoc, append_assoc, append_assoc, append_assoc]
  refine (reads_signed 1).fails ?_
  refine (reads_signed (entryWith priceSig).nHeight).fails ?_
  refine (reads_unsigned (entryWith priceSig).nStatus).fails ?_
  refine (reads_unsigned (entryWith priceSig).nTx).fails ?_
  refine hfile.fails (hdata.fails (hundo.fails ?_))
  refine (reads_front (entryWith priceSig).front).fails ?_
  exact hfails.left _

/-- an entry whose price records hold one price each, and whose first signature is too long for a stream, is
written and not loaded -/
theorem longSig_not_loaded : (entryWith (List.replicate (MAX_SIZE + 1) 0)).prices.nPriceInfo.priceCount.toNat ≤ 2 ∧
      (entryWith (List.replicate (MAX_SIZE + 1) 0)).prices.nPriceInfo2.priceCount.toNat ≤ 2 ∧
      (entryWith (List.replicate (MAX_SIZE + 1) 0)).prices.nPriceInfo3.priceCount.toNat ≤ 2 ∧
      ∃ b, writeIndex 1 (entryWith (List.replicate (MAX_SIZE + 1) 0)) = .ok b ∧
        easyEnv.loadBlockIndexGuts (fun _ _ => 0) [b] (fun _ => none) = .ok (false, fun _ => none) := by
  have hlength : (List.replicate (MAX_SIZE + 1) (0 : UInt8)).length = MAX_SIZE + 1 := length_replicate
  obtain ⟨b, hb, hfails⟩ := fails_longSig (by rw [hlength]; exact Nat.lt_succ_self _) (by rw [hlength]; decide)
    fun _ => 0
  refine ⟨by decide, by decide, by decide, b, hb, ?_⟩
  have hread := hfails []
  rw [append_nil] at hread
  unfold IndexEnv.loadBlockIndexGuts
  rw [hread]

end BitCash.Memory
