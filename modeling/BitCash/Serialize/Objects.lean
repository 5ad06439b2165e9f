import BitCash.Lib.TwoWay
import BitCash.Serialize.Stream

/-!
# The objects that are serialised

`CTxIn`, `CTxOut` and `CPubKey` as they lie in memory, with the routines `SerializationOp` of
`primitives/transaction.h`, which serve reading and writing, for every stream type and every value of the global
flags.
-/

namespace BitCash.Memory
open Wire Codec TwoWay BitCash.CPubKey

/-! ## fields -/

def Chars (n : Nat) : Type := { b : Bytes // b.length = n }

instance (n : Nat) : DecidableEq (Chars n) := inferInstanceAs (DecidableEq { b : Bytes // b.length = n })

instance (n : Nat) : Inhabited (Chars n) := ⟨⟨List.replicate n 0, List.length_replicate⟩⟩

abbrev Uint256 := Chars 32

def eof : Stop := CDataStream.eof

def readChars (n : Nat) : Reader Stop (Chars n) := fun s =>
  if h : s.length < n then .error eof
  else .ok (⟨s.take n, List.length_take_of_le (Nat.not_lt.1 h)⟩, s.drop n)

def boolField : Field Stop Bool where
  write b := [if b then 1 else 0]
  read := do
    let c ← byte eof
    pure (c != 0)

def uint8 : Field Stop UInt8 := ⟨fun x => [x], byte eof⟩

def uint32 : Field Stop UInt32 where
  write x := le 4 x.toNat
  read := do
    let n ← number eof 4
    pure (UInt32.ofNat n)

def int32 : Field Stop (BitVec 32) where
  write x := le 4 x.toNat
  read := do
    let n ← number eof 4
    pure (BitVec.ofNat 32 n)

def int64 : Field Stop (BitVec 64) where
  write x := le 8 x.toNat
  read := do
    let n ← number eof 8
    pure (BitVec.ofNat 64 n)

def vector : Field Stop Bytes := ⟨vectorBytes, readVector eof⟩

def chars (n : Nat) : Field Stop (Chars n) := ⟨Subtype.val, readChars n⟩

def outPoint : Field Stop (COutPoint Uint256) where
  write o := (chars 32).write o.hash ++ uint32.write o.n
  read := do
    let hash ← (chars 32).read
    let n ← uint32.read
    pure ⟨hash, n⟩

def stack : Field Stop (List Bytes) where
  write l := compactBytes l.length ++ l.flatMap vectorBytes
  read := do
    let n ← readCompactSize eof
    times (fun _ => readVector eof) n 0

/-! ## keys -/

theorem getLen_le (c : UInt8) : getLen c ≤ 65 := by
  unfold getLen
  split
  · omega
  · split
    · omega
    · omega

structure CPubKey where
  vch : Chars 65
  deriving DecidableEq

namespace CPubKey

def header (k : CPubKey) : UInt8 := k.vch.1.headD 0

def size (k : CPubKey) : Nat := BitCash.CPubKey.getLen k.header

def bytes (k : CPubKey) : Bytes := k.vch.1.take k.size

/-- `CPubKey()`: only the first byte is set -/
def new (unset : Chars 64) : CPubKey := ⟨⟨0xff :: unset.1, by rw [List.length_cons, unset.2]⟩⟩

def overwrite (b : Bytes) (k : CPubKey) : CPubKey :=
  ⟨⟨b.take 65 ++ k.vch.1.drop b.length, by
    rw [List.length_append, List.length_take, List.length_drop, k.vch.2]
    omega⟩⟩

def invalidate (k : CPubKey) : CPubKey := overwrite [0xff] k

def serialize (k : CPubKey) : Bytes := vectorBytes k.bytes

def Same (a b : CPubKey) : Prop := a.header = b.header ∧ a.bytes = b.bytes

instance (a b : CPubKey) : Decidable (Same a b) := inferInstanceAs (Decidable (_ ∧ _))

end CPubKey

inductive KeyRecord where
  | data (b : Bytes)
  | skipped
  deriving DecidableEq

def readKeyRecord : Reader Stop KeyRecord := do
  let n ← readCompactSize eof
  let b ← take eof n
  pure (if n ≤ 65 then .data b else .skipped)

def KeyRecord.into : KeyRecord → CPubKey → CPubKey
  | .data b, k => k.overwrite b
  | .skipped, k => k.invalidate

def CPubKey.unserialize (k : CPubKey) : Reader Stop CPubKey := do
  let r ← readKeyRecord
  pure (r.into k)

def serAction (unset : Chars 64) : Operation Stop Writer CPubKey :=
  writing CPubKey.serialize (CPubKey.new unset)

def unserAction (unset : Chars 64) : Operation Stop (Reader Stop) CPubKey :=
  reading CPubKey.unserialize (CPubKey.new unset)

def recordAction : Operation Stop (Reader Stop) KeyRecord :=
  reading (fun _ => readKeyRecord) (.data [])

/-! ## inputs and outputs -/

def SER_NETWORK : BitVec 32 := 1#32
def SER_DISK : BitVec 32 := 2#32
def SER_GETHASH : BitVec 32 := 4#32
def SER_TXOUTALONE : BitVec 32 := 8#32

def forHash (nType : BitVec 32) : Bool := nType &&& SER_GETHASH != 0

def outAlone (nType : BitVec 32) : Bool := nType &&& SER_TXOUTALONE != 0

structure CTxIn (K : Type) where
  prevout : COutPoint Uint256
  scriptSig : CScript
  nSequence : UInt32
  scriptWitness : List Bytes
  isnickname : Bool
  isnonprivatenickname : Bool
  nicknamehasviewkey : Bool
  nickname : Bytes
  address : K
  viewpubkey : K
  nicknamesig : Bytes
  deriving DecidableEq

structure CTxOut (K : Type) where
  nValue : BitVec 64
  nValueBitCash : BitVec 64
  scriptPubKey : CScript
  referenceline : Bytes
  randomPrivatKey : Chars 32
  randomPubKey : K
  currency : UInt8
  isnonprivate : Bool
  hasrecipientid : Bool
  currencyisactive : Bool
  masterkeyisremoved : Bool
  recipientid1 : UInt8
  recipientid2 : UInt8
  deriving DecidableEq

def CTxIn.new {K : Type} (address viewpubkey : K) : CTxIn K :=
  ⟨.null, [], SEQUENCE_FINAL, [], false, false, false, [], address, viewpubkey, []⟩

def CTxOut.new {K : Type} (randomPubKey : K) (randomPrivatKey : Chars 32) : CTxOut K :=
  ⟨-1, -1, [], [], randomPrivatKey, randomPubKey, 0, false, false, false, false, 0, 0⟩

section Routines

variable {m : Type → Type} [Monad m] {K : Type} (op : Operation Stop m K) (nType : BitVec 32) (f : SerFlags)

def opNonprivate (isnonprivatenickname : Bool) : m Bool :=
  if f.usenonprivacy || outAlone nType then op.readWrite boolField isnonprivatenickname
  else pure (if op.forRead then false else isnonprivatenickname)

def opViewkey (nicknamehasviewkey : Bool) (viewpubkey : K) : m (Bool × K) :=
  if f.usemasterkeydummyonly || outAlone nType then do
    let nicknamehasviewkey ← op.readWrite boolField nicknamehasviewkey
    let viewpubkey ← op.object viewpubkey
    pure (nicknamehasviewkey, viewpubkey)
  else pure (if op.forRead then (false, op.new) else (nicknamehasviewkey, viewpubkey))

def opNickname (i : CTxIn K) : m (CTxIn K) := do
  let address ← op.object i.address
  let nickname ← op.readWrite vector i.nickname
  let nicknamesig ← op.readWrite vector i.nicknamesig
  let isnonprivatenickname ← opNonprivate op nType f i.isnonprivatenickname
  let v ← opViewkey op nType f i.nicknamehasviewkey i.viewpubkey
  pure { i with
    address := address, nickname := nickname, nicknamesig := nicknamesig
    isnonprivatenickname := isnonprivatenickname, nicknamehasviewkey := v.1, viewpubkey := v.2
    prevout := .null, scriptSig := [], nSequence := SEQUENCE_FINAL }

def opOutPoint (i : CTxIn K) : m (CTxIn K) := do
  let prevout ← op.readWrite outPoint i.prevout
  let scriptSig ← op.readWrite vector i.scriptSig
  let nSequence ← op.readWrite uint32 i.nSequence
  pure { i with
    prevout := prevout, scriptSig := scriptSig, nSequence := nSequence
    isnonprivatenickname := false, address := op.new, nickname := [], nicknamesig := [] }

def CTxIn.serializationOp (i : CTxIn K) : m (CTxIn K) := do
  let isnickname ← op.readWrite boolField i.isnickname
  if isnickname then opNickname op nType f { i with isnickname := isnickname }
  else opOutPoint op { i with isnickname := isnickname }

def opValue (nValue : BitVec 64) : m (BitVec 64) :=
  if f.usecurrency && forHash nType then pure nValue else op.readWrite int64 nValue

def opReference (referenceline : Bytes) (randomPubKey : K) (randomPrivatKey : Chars 32) :
    m (Bytes × K × Chars 32) :=
  if f.userefline || outAlone nType then do
    let referenceline ← op.readWrite vector referenceline
    let randomPubKey ← op.object randomPubKey
    let randomPrivatKey ← op.readWrite (chars 32) randomPrivatKey
    pure (referenceline, randomPubKey, randomPrivatKey)
  else pure (referenceline, randomPubKey, randomPrivatKey)

def opRecipient (isnonprivate : Bool) (recipientid1 recipientid2 : UInt8) (hasrecipientid : Bool) :
    m (Bool × UInt8 × UInt8 × Bool) :=
  if f.usenonprivacy || outAlone nType then do
    let isnonprivate ← op.readWrite boolField isnonprivate
    let recipientid1 ← op.readWrite uint8 recipientid1
    let recipientid2 ← op.readWrite uint8 recipientid2
    pure (isnonprivate, recipientid1, recipientid2, true)
  else pure (if op.forRead then (false, 0, 0, false)
    else (isnonprivate, recipientid1, recipientid2, hasrecipientid))

def opCurrency (nValue nValueBitCash : BitVec 64) (currency : UInt8) (currencyisactive : Bool) :
    m (BitVec 64 × UInt8 × Bool) :=
  if f.usecurrency || outAlone nType then do
    let nValueBitCash ← op.readWrite int64 nValueBitCash
    let currency ← op.readWrite uint8 currency
    pure (nValueBitCash, currency, true)
  else pure (if op.forRead then (nValue, 0, false) else (nValueBitCash, currency, currencyisactive))

def CTxOut.serializationOp (o : CTxOut K) : m (CTxOut K) := do
  let nValue ← opValue op nType f o.nValue
  let scriptPubKey ← op.readWrite vector o.scriptPubKey
  let r ← opReference op nType f o.referenceline o.randomPubKey o.randomPrivatKey
  let p ← opRecipient op nType f o.isnonprivate o.recipientid1 o.recipientid2 o.hasrecipientid
  let c ← opCurrency op nType f nValue o.nValueBitCash o.currency o.currencyisactive
  pure {
    nValue := nValue, scriptPubKey := scriptPubKey
    referenceline := r.1, randomPubKey := r.2.1, randomPrivatKey := r.2.2
    isnonprivate := p.1, recipientid1 := p.2.1, recipientid2 := p.2.2.1, hasrecipientid := p.2.2.2
    masterkeyisremoved := f.usemasterkeydummyonly
    nValueBitCash := c.1, currency := c.2.1, currencyisactive := c.2.2 }

end Routines

end BitCash.Memory
