import BitCash.Primitives.Amount

/-!
# Transactions

`CTxIn`, `CTxOut` and `CTransaction` of `primitives/transaction.h`.
-/

namespace BitCash
open Checks Machine Bool

variable {H : Type}

structure COutPoint (H : Type) where
  hash : H
  n : UInt32
  deriving DecidableEq

def COutPoint.null [Inhabited H] : COutPoint H := ⟨default, 0xffffffff⟩

instance [Inhabited H] : Inhabited (COutPoint H) := ⟨COutPoint.null⟩

def COutPoint.isNull [Inhabited H] [DecidableEq H] (o : COutPoint H) : Bool :=
  decide (o.hash = default) && o.n == 0xffffffff

theorem COutPoint.isNull_iff [Inhabited H] [DecidableEq H] {o : COutPoint H} : o.isNull ↔ o = COutPoint.null := by
  cases o
  simp [COutPoint.isNull, COutPoint.null]

structure CTxIn (H : Type) where
  prevout : COutPoint H
  scriptSig : CScript
  nSequence : UInt32
  scriptWitness : List Bytes
  isnickname : Bool
  isnonprivatenickname : Bool
  nicknamehasviewkey : Bool
  nickname : Bytes
  address : CPubKey
  viewpubkey : CPubKey
  nicknamesig : Bytes
  deriving DecidableEq

structure CTxOut where
  nValue : Int
  nValueBitCash : Int
  scriptPubKey : CScript
  referenceline : Bytes
  randomPrivatKey : Bytes
  randomPubKey : CPubKey
  currency : UInt8
  isnonprivate : Bool
  recipientid1 : UInt8
  recipientid2 : UInt8
  deriving DecidableEq

def SEQUENCE_FINAL : UInt32 := 0xffffffff

def CTxIn.decoded [Inhabited H] [DecidableEq H] (nVersion : Int) (i : CTxIn H) : Bool :=
  if i.isnickname then
    decide (i.prevout = COutPoint.null) && decide (i.scriptSig = []) &&
      decide (i.nSequence = SEQUENCE_FINAL) &&
      (decide (4 ≤ nVersion) || !i.isnonprivatenickname) &&
      (decide (6 ≤ nVersion) || (!i.nicknamehasviewkey && decide (i.viewpubkey = default)))
  else
    !i.isnonprivatenickname && decide (i.address = default) && decide (i.nickname = []) &&
      decide (i.nicknamesig = [])

def CTxOut.decoded (nVersion : Int) (o : CTxOut) : Bool :=
  (decide (5 ≤ nVersion) || (o.currency == 0 && decide (o.nValueBitCash = o.nValue))) &&
    fits64 o.nValue && fits64 o.nValueBitCash

structure CTransaction (H : Type) [Inhabited H] [DecidableEq H] where
  nVersion : Int
  vin : List (CTxIn H)
  vout : List CTxOut
  nLockTime : UInt32
  vin_decoded : vin.all (CTxIn.decoded nVersion) = true
  vout_decoded : vout.all (CTxOut.decoded nVersion) = true

variable [Inhabited H] [DecidableEq H]

theorem CTransaction.ext_iff_data {a b : CTransaction H} :
    a = b ↔ a.nVersion = b.nVersion ∧ a.vin = b.vin ∧ a.vout = b.vout ∧ a.nLockTime = b.nLockTime := by
  cases a
  cases b
  simp

instance : DecidableEq (CTransaction H) := fun _ _ =>
  decidable_of_iff _ CTransaction.ext_iff_data.symm

def CTxIn.ofNickname (nick : Bytes) (addr : CPubKey) (sig : Bytes) (isnonprivate hasviewkey : Bool)
    (viewkey : CPubKey) : CTxIn H :=
  ⟨.null, [], SEQUENCE_FINAL, [], true, isnonprivate, hasviewkey, nick, addr, viewkey, sig⟩

def CTxIn.ofOutPoint (prevout : COutPoint H) (scriptSig : CScript) : CTxIn H :=
  ⟨prevout, scriptSig, SEQUENCE_FINAL, [], false, false, false, [], default, default, []⟩

def CTxOut.of (nValue nValueBitCash : Int) (scriptPubKey : CScript) (currency : UInt8) : CTxOut :=
  ⟨nValue, nValueBitCash, scriptPubKey, [], List.replicate 32 0, default, currency, false, 0, 0⟩

def isCoinBaseVin : List (CTxIn H) → Bool
  | [i] => i.prevout.isNull && !i.isnickname
  | _ => false

def CTransaction.isCoinBase (tx : CTransaction H) : Bool := isCoinBaseVin tx.vin

def CTransaction.hasWitness (tx : CTransaction H) : Bool :=
  tx.vin.any fun i => !i.scriptWitness.isEmpty

def CTransaction.isNick (tx : CTransaction H) : Bool := tx.vin.all (·.isnickname)

def CTransaction.coinInputs (tx : CTransaction H) : List (CTxIn H) :=
  tx.vin.filter fun i => !i.isnickname

variable {tx : CTransaction H} {i : CTxIn H} {o : CTxOut} {v : Int} {α : Type}

theorem CTransaction.mem_coinInputs : i ∈ tx.coinInputs ↔ i ∈ tx.vin ∧ i.isnickname = false := by
  simp [coinInputs]

theorem CTransaction.coinInputs_of_vin {a b : CTransaction H} (h : b.vin = a.vin) : b.coinInputs = a.coinInputs := by
  rw [coinInputs, h, coinInputs]

theorem CTransaction.prevout_of_nickname (hi : i ∈ tx.vin) (hn : i.isnickname) : i.prevout = .null := by
  have hdec := List.all_eq_true.1 tx.vin_decoded i hi
  simp only [CTxIn.decoded, hn, if_true, and_eq_true, decide_eq_true_eq] at hdec
  exact hdec.1.1.1.1

theorem CTransaction.decoded_of_mem (ho : o ∈ tx.vout) :
    o.decoded tx.nVersion := List.all_eq_true.1 tx.vout_decoded o ho

/-! ## what the transaction hash commits to -/

inductive TxInPreimage (H : Type) where
  | coin (prevout : COutPoint H) (scriptSig : CScript) (nSequence : UInt32)
  | nick (address : CPubKey) (nickname nicknamesig : Bytes) (nonprivate : Option Bool)
      (viewkey : Option (Bool × CPubKey))
  deriving DecidableEq

/-- a serialised output; a field is `none` where the version of the transaction leaves it out -/
structure TxOutPreimage where
  nValue : Option Int
  scriptPubKey : CScript
  reference : Option (Bytes × CPubKey × Bytes)
  recipient : Option (Bool × UInt8 × UInt8)
  converted : Option (Int × UInt8)
  deriving DecidableEq

structure TxPreimage (H : Type) where
  nVersion : Int
  vin : List (TxInPreimage H)
  vout : List TxOutPreimage
  nLockTime : UInt32
  deriving DecidableEq

def present {α : Type} (c : Bool) (a : α) : Option α := if c then some a else none

@[simp] theorem present_true (a : α) : present true a = some a := rfl

@[simp] theorem present_false (a : α) : present false a = none := rfl

def CTxIn.preimage (nVersion : Int) (i : CTxIn H) : TxInPreimage H :=
  if i.isnickname then
    .nick i.address i.nickname i.nicknamesig
      (present (decide (4 ≤ nVersion)) i.isnonprivatenickname)
      (present (decide (6 ≤ nVersion)) (i.nicknamehasviewkey, i.viewpubkey))
  else .coin i.prevout i.scriptSig i.nSequence

def CTxOut.preimage (nVersion : Int) (o : CTxOut) : TxOutPreimage where
  nValue := present (!decide (5 ≤ nVersion)) o.nValue
  scriptPubKey := o.scriptPubKey
  reference := present (decide (3 ≤ nVersion)) (o.referenceline, o.randomPubKey, o.randomPrivatKey)
  recipient := present (decide (4 ≤ nVersion)) (o.isnonprivate, o.recipientid1, o.recipientid2)
  converted := present (decide (5 ≤ nVersion)) (o.nValueBitCash, o.currency)

def CTransaction.preimage (tx : CTransaction H) : TxPreimage H :=
  ⟨tx.nVersion, tx.vin.map (CTxIn.preimage tx.nVersion), tx.vout.map (CTxOut.preimage tx.nVersion),
    tx.nLockTime⟩

def CTransaction.witnesses (tx : CTransaction H) : List (List Bytes) :=
  tx.vin.map (·.scriptWitness)

theorem CTxIn.eq_of_preimage {j : CTxIn H} (hi : i.decoded v) (hj : j.decoded v) (h : i.preimage v = j.preimage v) :
    i.isnickname = j.isnickname ∧ i.prevout = j.prevout := by
  unfold CTxIn.preimage at h
  unfold CTxIn.decoded at hi hj
  cases hin : i.isnickname <;> cases hjn : j.isnickname <;> simp_all

theorem CTxOut.eq_of_preimage {p : CTxOut} (ho : o.decoded v) (hp : p.decoded v) (h : o.preimage v = p.preimage v) :
    o.scriptPubKey = p.scriptPubKey ∧ o.currency = p.currency ∧
      o.nValueBitCash = p.nValueBitCash ∧ (v < 5 → o.nValue = p.nValue) := by
  simp only [CTxOut.decoded, and_eq_true, or_eq_true, decide_eq_true_eq, beq_iff_eq]
    at ho hp
  simp only [CTxOut.preimage, TxOutPreimage.mk.injEq] at h
  obtain ⟨hv, hs, -, -, hc⟩ := h
  by_cases h5 : 5 ≤ v
  · simp only [h5, decide_true, present_true, Option.some.injEq, Prod.mk.injEq] at hc
    exact ⟨hs, hc.2, hc.1, fun hlt => absurd h5 (by omega)⟩
  · have hv' : o.nValue = p.nValue := by simpa [h5] using hv
    have ho' := ho.1.1.resolve_left h5
    have hp' := hp.1.1.resolve_left h5
    exact ⟨hs, ho'.1.trans hp'.1.symm, by rw [ho'.2, hp'.2, hv'], fun _ => hv'⟩

/-! ## serialised sizes -/

def compactSize (n : Nat) : Nat :=
  if n < 253 then 1 else if n ≤ 0xffff then 3 else if n ≤ 0xffffffff then 5 else 9

def vectorSize (b : Bytes) : Nat := compactSize b.length + b.length

def listSize {α : Type} (size : α → Nat) (l : List α) : Nat :=
  compactSize l.length + (l.map size).sum

def CTxIn.serializeSize (nVersion : Int) (i : CTxIn H) : Nat :=
  if i.isnickname then
    1 + vectorSize i.address.vch + vectorSize i.nickname + vectorSize i.nicknamesig +
      (if 4 ≤ nVersion then 1 else 0) +
      (if 6 ≤ nVersion then 1 + vectorSize i.viewpubkey.vch else 0)
  else 1 + 36 + vectorSize i.scriptSig + 4

def CTxOut.serializeSize (nVersion : Int) (o : CTxOut) : Nat :=
  8 + vectorSize o.scriptPubKey +
    (if 3 ≤ nVersion then vectorSize o.referenceline + vectorSize o.randomPubKey.vch + 32 else 0) +
    (if 4 ≤ nVersion then 3 else 0) + (if 5 ≤ nVersion then 9 else 0)

def CTransaction.strippedSize (tx : CTransaction H) : Nat :=
  4 + listSize (CTxIn.serializeSize tx.nVersion) tx.vin +
    listSize (CTxOut.serializeSize tx.nVersion) tx.vout + 4

def CTransaction.getTotalSize (tx : CTransaction H) : Nat :=
  if tx.hasWitness then
    tx.strippedSize + 2 + (tx.vin.map fun i => listSize vectorSize i.scriptWitness).sum
  else tx.strippedSize

/-! ## totals of the outputs -/

def toleratedOut (coinbase : Bool) (o : CTxOut) : Bool :=
  coinbase && decide (o.nValue = 2150000000) && decide (o.nValueBitCash = -1)

def countedValue (coinbase : Bool) (o : CTxOut) : Int :=
  if toleratedOut coinbase o then o.nValue else o.nValueBitCash

def getValueOutStep (coinbase : Bool) (nValueOut : Int) (o : CTxOut) : Res Int := do
  let nValueOut ← addAmount nValueOut (countedValue coinbase o)
  need (moneyRange o.nValue && moneyRange nValueOut) (.throws "GetValueOut: value out of range")
  pure nValueOut

def CTransaction.getValueOut (tx : CTransaction H) : Res Int :=
  run (getValueOutStep tx.isCoinBase) 0 tx.vout

def valueInCurrency (currency : UInt8) (price : Int) (o : CTxOut) : Res Int :=
  if currency = 1 ∧ o.currency = 0 then divAmount (o.nValue * price) COIN
  else if currency = 0 ∧ o.currency = 1 then divAmount (o.nValue * COIN) price
  else .ok o.nValue

def valueInCurrencyStep (currency : UInt8) (price nValueOut : Int) (o : CTxOut) : Res Int := do
  let value ← valueInCurrency currency price o
  let nValueOut ← addAmount nValueOut value
  need (moneyRange value && moneyRange nValueOut)
    (.throws "GetValueOutInCurrency: value out of range")
  pure nValueOut

def CTransaction.getValueOutInCurrency (tx : CTransaction H) (currency : UInt8) (price : Int) :
    Res Int :=
  run (valueInCurrencyStep currency price) 0 tx.vout

theorem getValueOutStep_ok {cb : Bool} {s s' : Int} : getValueOutStep cb s o = .ok s' ↔ moneyRange o.nValue ∧
      moneyRange (s + countedValue cb o) ∧ s' = s + countedValue cb o := by
  simp only [getValueOutStep, bind_ok, need_ok, and_eq_true, addAmount_ok, pure_ok]
  constructor
  · rintro ⟨_, ⟨_, rfl⟩, _, ⟨hv, hs⟩, h⟩
    cases h
    exact ⟨hv, hs, rfl⟩
  · rintro ⟨hv, hs, rfl⟩
    exact ⟨_, ⟨moneyRange_fits hs, rfl⟩, (), ⟨hv, hs⟩, rfl⟩

theorem getValueOut_ok : tx.getValueOut = .ok v ↔ (∀ o ∈ tx.vout, moneyRange o.nValue) ∧
      (∀ p, p <+: tx.vout → p ≠ [] → moneyRange (p.map (countedValue tx.isCoinBase)).sum) ∧
      v = (tx.vout.map (countedValue tx.isCoinBase)).sum := by
  rw [CTransaction.getValueOut,
    run_sum_ok (f := countedValue tx.isCoinBase) (P := fun o => moneyRange o.nValue = true)
      (Q := fun x => moneyRange x = true) (fun _ _ _ => getValueOutStep_ok)]
  simp only [zero_add]

theorem getValueOut_error {e : Stop} (h : tx.getValueOut = .error e) : e.isVerdict = false := by
  have key : ∀ (l : List CTxOut) (s : Int), run (getValueOutStep tx.isCoinBase) s l = .error e →
      e.isVerdict = false := by
    intro l
    induction l with
    | nil => intro s hs; cases hs
    | cons o l ih =>
      intro s hs
      rw [run_cons, bind_error] at hs
      rcases hs with hs | ⟨s', -, hs⟩
      · unfold getValueOutStep addAmount at hs
        split at hs
        · simp only [ok_bind, bind_error, need_error] at hs
          rcases hs with ⟨-, rfl⟩ | ⟨_, _, hs⟩
          · rfl
          · cases hs
        · cases hs; rfl
      · exact ih s' hs
  exact key _ _ h

end BitCash
