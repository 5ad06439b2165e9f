import BitCash.Wallet.Receiver
import BitCash.Wallet.SelectCoins

/-!
# The loop of `CreateTransaction`

`CWallet::CreateTransaction` makes transactions in passes until one pays enough fee.
-/

set_option linter.unusedSectionVars false

variable {bnbUsed : Bool} {out : WalletTxOut}

namespace BitCash
open Subset Checks Machine List Except Prod Option

variable {H : Type} [DecidableEq H]

/-! ## the code -/

def MIN_FINAL_CHANGE : Int := MIN_CHANGE / 2

inductive TxFail where
  | reason (strFailReason : String)
  | stop (s : Stop)
  deriving DecidableEq

abbrev Made (α : Type) := Except TxFail α

def made {α : Type} : Res α → Made α
  | .ok a => .ok a
  | .error e => .error (.stop e)

structure CRecipient where
  scriptPubKey : CScript
  nAmount : Int
  fSubtractFeeFromAmount : Bool
  refline : Bytes
  currency : UInt8
  nonprivate : Bool
  cpkey : CPubKey
  isdeposit : Bool
  hasviewkey : Bool
  viewpubkey : CPubKey
  fits : fits64 nAmount = true

structure OutputFiller where
  fill : Nat → Nat → WalletTxOut → Payment → Option WalletTxOut
  nValue : ∀ {n i : Nat} {out filled : WalletTxOut} {pay : Payment},
    fill n i out pay = some filled → filled.nValue = out.nValue
  nValueBitCash : ∀ {n i : Nat} {out filled : WalletTxOut} {pay : Payment},
    fill n i out pay = some filled → filled.nValueBitCash = out.nValue

def blankAmounts (out : WalletTxOut) : WalletTxOut := { out with nValue := 0, nValueBitCash := 0 }

structure CreateEnv (H : Type) where
  select : SelectEnv H
  control : CCoinControl H
  coins : AvailableCoins H
  filler : OutputFiller
  startsBeforeStable : Bool
  beforeStable : Nat → Nat → Bool
  fromcurrency : UInt8
  price : Int
  minimumFee : Nat → Int
  fallbackRefused : Nat → Bool
  minRelayFee : Nat → Int
  dustThreshold : WalletTxOut → Int
  discardThreshold : WalletTxOut → Int
  discardThreshold_nonneg : ∀ out, 0 ≤ discardThreshold out
  nFeeRateNeeded : FeeRate
  outputSize : WalletTxOut → Nat
  changeSpendSize : Nat
  signedTxSize : List (COutPoint H) → List WalletTxOut → Int
  signedTxSize_blank : ∀ vin vout, signedTxSize vin (vout.map blankAmounts) = signedTxSize vin vout
  pubkeyforchange : CPubKey
  nChangePosRequest : Int
  randInt : Nat → Nat → Nat
  randInt_lt : ∀ n max, 0 < max → randInt n max < max
  unsetBytes : Memory.Uint256
  unsetActive : Bool

variable (E : CreateEnv H)

def CreateEnv.newTxOut (nValue : Int) (scriptPubKey : CScript) : WalletTxOut :=
  ⟨BitVec.ofInt 64 nValue, BitVec.ofInt 64 nValue, scriptPubKey, [], E.unsetBytes, default, 0, false, false,
    E.unsetActive, false, 0, 0⟩

def CreateEnv.changePrototype : WalletTxOut := E.newTxOut 0 (getScriptForRawPubKey E.pubkeyforchange)

def CreateEnv.changeOutputSize : Nat := E.outputSize E.changePrototype

def isDust (threshold : WalletTxOut → Int) (out : WalletTxOut) : Bool := decide (out.nValue.toInt < threshold out)

def addRecipient (s : Int × Nat) (recipient : CRecipient) : Made (Int × Nat) := do
  need (!(decide (s.1 < 0) || decide (recipient.nAmount < 0))) (.reason "Transaction amounts must not be negative")
  let nValue ← made (addAmount s.1 recipient.nAmount)
  .ok (nValue, if recipient.fSubtractFeeFromAmount then s.2 + 1 else s.2)

def CRecipient.payment (recipient : CRecipient) : Payment :=
  ⟨recipient.cpkey, recipient.refline, recipient.currency, recipient.nonprivate, recipient.hasviewkey,
    recipient.viewpubkey, true⟩

def withAmount (out : WalletTxOut) (amount : Int) : WalletTxOut :=
  { out with nValue := BitVec.ofInt 64 amount, nValueBitCash := BitVec.ofInt 64 amount }

/-- the share of a recipient in the fee; the first one pays the remainder -/
def subtractFee (nFeeRet : Int) (nSubtract : Nat) (fFirst : Bool) (out : WalletTxOut) :
    Made (WalletTxOut × Bool) := do
  need (decide (nSubtract ≠ 0)) (.stop (.fault .assertionFailed))
  let amount ← made (addAmount out.nValueBitCash.toInt (-(nFeeRet.tdiv nSubtract)))
  if fFirst then do
    let amount ← made (addAmount amount (-(nFeeRet.tmod nSubtract)))
    .ok (withAmount out amount, false)
  else .ok (withAmount out amount, false)

def payShare (nFeeRet : Int) (nSubtract : Nat) (fFirst : Bool) (recipient : CRecipient) (out : WalletTxOut) :
    Made (WalletTxOut × Bool) :=
  if recipient.fSubtractFeeFromAmount then subtractFee nFeeRet nSubtract fFirst out else .ok (out, fFirst)

def dustReason (recipient : CRecipient) (nFeeRet : Int) (out : WalletTxOut) : String :=
  if recipient.fSubtractFeeFromAmount && decide (0 < nFeeRet) then
    if out.nValue.toInt < 0 then "The transaction amount is too small to pay the fee"
    else "The transaction amount is too small to send after the fee has been deducted"
  else "Transaction amount too small"

def payee (n i : Nat) (nFeeRet : Int) (nSubtract : Nat) (fFirst : Bool) (recipient : CRecipient) :
    Made (WalletTxOut × Bool) := do
  need (!(recipient.isdeposit && decide (recipient.refline.length < 5))) (.reason ("You need to enter the deposit " ++
    "key/code in the description line field. The exchange has provided to you with the deposit key/code. Without " ++
    "the correct code your coins will not end up on your personal account on the exchange. The key must have a " ++
    "minimum length of 5 characters."))
  need (!(E.beforeStable n i && decide (0 < recipient.currency)))
    (.reason "Transactions to a Dollar account are not yet allowed.")
  match E.filler.fill n i (E.newTxOut recipient.nAmount recipient.scriptPubKey) recipient.payment with
  | none => .error (.reason "Can not get private key")
  | some out => do
    let (out, fFirst) ← payShare nFeeRet nSubtract fFirst recipient out
    need (!isDust E.dustThreshold out) (.reason (dustReason recipient nFeeRet out))
    .ok (out, fFirst)

def payees (n : Nat) (nFeeRet : Int) (nSubtract : Nat) : Nat → Bool → List CRecipient → Made (List WalletTxOut)
  | _, _, [] => .ok []
  | i, fFirst, recipient :: vecSend => do
    let (out, fFirst) ← payee E n i nFeeRet nSubtract fFirst recipient
    let vout ← payees n nFeeRet nSubtract (i + 1) fFirst vecSend
    .ok (out :: vout)

structure LoopState (H : Type) where
  nFeeRet : Int
  pickNewInputs : Bool
  nValueIn : Int
  setCoins : List (CInputCoin H)
  useBnb : Bool
  fromBnb : Bool

def chooseInputs (n : Nat) (uninit : Bool) (s : LoopState H) (nValueToSelect : Int) (txNoinputsSize : Nat) :
    Made (LoopState H ⊕ LoopState H × Bool) :=
  if s.pickNewInputs then do
    let r ← made (selectCoins E.select n E.coins.coins nValueToSelect E.control
      ⟨s.useBnb, E.changeOutputSize, E.changeSpendSize, E.nFeeRateNeeded, txNoinputsSize⟩)
    let s := { s with setCoins := r.setCoinsRet, nValueIn := r.nValueRet, fromBnb := r.bnbUsed.getD false }
    let bnbUsed := r.bnbUsed.getD uninit
    if r.ret then .ok (.inr ({ s with useBnb := r.useBnb }, bnbUsed))
    else if bnbUsed then .ok (.inl { s with useBnb := false })
    else .error (.reason "Insufficient funds")
  else .ok (.inr (s, uninit))

def changePosition (n length : Nat) : Made Nat :=
  if E.nChangePosRequest = -1 then .ok (E.randInt n (length + 1))
  else if E.nChangePosRequest < 0 ∨ length < E.nChangePosRequest then .error (.reason "Change index out of range")
  else .ok E.nChangePosRequest.toNat

/-- the outputs with the change; `nChangePosInOut` is `none` for -1, and `newTxOut` is the output the change
was meant for -/
structure Placed where
  vout : List WalletTxOut
  nChangePosInOut : Option Nat
  nFeeRet : Int
  newTxOut : Option WalletTxOut

def CreateEnv.changePayment : Payment :=
  ⟨E.pubkeyforchange, [], if 2 ≤ E.fromcurrency then 0 else E.fromcurrency, false, false, default, true⟩

def CreateEnv.changeOutput (n i : Nat) (nChange : Int) : Option WalletTxOut :=
  E.filler.fill n i (E.newTxOut nChange (getScriptForRawPubKey E.pubkeyforchange)) E.changePayment

def placeChange (n : Nat) (bnbUsed : Bool) (nFeeRet nChange : Int) (vout : List WalletTxOut) : Made Placed :=
  if 0 < nChange then
    match E.changeOutput n vout.length nChange with
    | none => .error (.reason "Can not get private key")
    | some newTxOut =>
      if isDust E.discardThreshold newTxOut || bnbUsed then do
        let nFeeRet ← made (addAmount nFeeRet nChange)
        .ok ⟨vout, none, nFeeRet, some newTxOut⟩
      else do
        let position ← changePosition E n vout.length
        .ok ⟨vout.insertIdx position newTxOut, some position, nFeeRet, some newTxOut⟩
  else .ok ⟨vout, none, nFeeRet, none⟩

def CreateEnv.feeNeeded (nBytes : Nat) : Int :=
  if E.fromcurrency = 1 then narrow64 ((E.minimumFee nBytes * E.price).tdiv COIN) else E.minimumFee nBytes

structure Created (H : Type) where
  vout : List WalletTxOut
  nFeeRet : Int
  setCoins : List (CInputCoin H)
  nChangePosInOut : Option Nat
  newTxOut : Option WalletTxOut
  fromBnb : Bool

inductive Outcome (H : Type) where
  | again (s : LoopState H)
  | done (r : Created H)

def raiseOutput (vout : List WalletTxOut) (position : Nat) (x : Int) : Made (List WalletTxOut) :=
  match vout[position]? with
  | none => .error (.stop (.fault .outOfBounds))
  | some out => do
    let nValue ← made (addAmount out.nValue.toInt x)
    let nValueBitCash ← made (addAmount out.nValueBitCash.toInt x)
    .ok (vout.set position
      { out with nValue := BitVec.ofInt 64 nValue, nValueBitCash := BitVec.ofInt 64 nValueBitCash })

def finished (s : LoopState H) (p : Placed) (vout : List WalletTxOut) (nFeeRet : Int) : Outcome H :=
  .done ⟨vout, nFeeRet, s.setCoins, p.nChangePosInOut, p.newTxOut, s.fromBnb⟩

def giveBack (nSubtract : Nat) (s : LoopState H) (p : Placed) (nFeeNeeded : Int) : Made (Outcome H) :=
  match p.nChangePosInOut with
  | some position =>
    if nFeeNeeded < p.nFeeRet ∧ nSubtract = 0 then do
      let extraFeePaid ← made (addAmount p.nFeeRet (-nFeeNeeded))
      let vout ← raiseOutput p.vout position extraFeePaid
      let nFeeRet ← made (addAmount p.nFeeRet (-extraFeePaid))
      .ok (finished s p vout nFeeRet)
    else .ok (finished s p p.vout p.nFeeRet)
  | none => .ok (finished s p p.vout p.nFeeRet)

def enoughFee (nSubtract nBytes : Nat) (s : LoopState H) (p : Placed) (nFeeNeeded : Int) : Made (Outcome H) :=
  if p.nChangePosInOut = none ∧ nSubtract = 0 ∧ s.pickNewInputs = true then do
    let feeNeededWithChange := E.feeNeeded ((nBytes + E.changeOutputSize + 2) % 4294967296)
    let limit ← made (addAmount feeNeededWithChange (E.discardThreshold E.changePrototype))
    if limit ≤ p.nFeeRet then .ok (.again { s with pickNewInputs := false, nFeeRet := feeNeededWithChange })
    else giveBack nSubtract s p nFeeNeeded
  else giveBack nSubtract s p nFeeNeeded

def moreFee (nSubtract : Nat) (s : LoopState H) (nFeeNeeded : Int) : Outcome H :=
  .again { s with
    pickNewInputs := if 0 < nSubtract then false else s.pickNewInputs
    nFeeRet := nFeeNeeded
    useBnb := false }

def lackingFee (nSubtract : Nat) (s : LoopState H) (p : Placed) (nFeeNeeded : Int) : Made (Outcome H) :=
  match p.nChangePosInOut with
  | some position =>
    if nSubtract = 0 then do
      let additionalFeeNeeded ← made (addAmount nFeeNeeded (-p.nFeeRet))
      let limit ← made (addAmount MIN_FINAL_CHANGE additionalFeeNeeded)
      match p.vout[position]? with
      | none => .error (.stop (.fault .outOfBounds))
      | some change =>
        if limit ≤ change.nValue.toInt then do
          let vout ← raiseOutput p.vout position (-additionalFeeNeeded)
          let nFeeRet ← made (addAmount p.nFeeRet additionalFeeNeeded)
          .ok (finished s p vout nFeeRet)
        else .ok (moreFee nSubtract s nFeeNeeded)
    else .ok (moreFee nSubtract s nFeeNeeded)
  | none => .ok (moreFee nSubtract s nFeeNeeded)

def compareFee (nSubtract : Nat) (s : LoopState H) (p : Placed) : Made (Outcome H) := do
  let size := E.signedTxSize (s.setCoins.map (·.outpoint)) p.vout
  need (decide (0 ≤ size)) (.reason "Signing transaction failed")
  let nBytes := size.toNat
  let nFeeNeeded := E.feeNeeded nBytes
  need (!E.fallbackRefused nBytes) (.reason ("Fee estimation failed. Fallbackfee is disabled. Wait a few blocks or " ++
    "enable -fallbackfee."))
  need (decide (E.minRelayFee nBytes ≤ E.minimumFee nBytes)) (.reason "Transaction too large for fee policy")
  if nFeeNeeded ≤ p.nFeeRet then enoughFee E nSubtract nBytes s p nFeeNeeded
  else if s.pickNewInputs then lackingFee nSubtract s p nFeeNeeded
  else .error (.reason "Transaction fee and change calculation failed")

def valueToSelect (nValue : Int) (nSubtract : Nat) (nFeeRet : Int) : Made Int :=
  if nSubtract = 0 then made (addAmount nValue nFeeRet) else .ok nValue

def pass (vecSend : List CRecipient) (nValue : Int) (nSubtract : Nat) (uninit : Bool) (n : Nat) (s : LoopState H) :
    Made (Outcome H) := do
  let nValueToSelect ← valueToSelect nValue nSubtract s.nFeeRet
  let vout ← payees E n s.nFeeRet nSubtract 0 true vecSend
  match ← chooseInputs E n uninit s nValueToSelect (11 + (vout.map E.outputSize).sum) with
  | .inl s => .ok (.again s)
  | .inr (s, bnbUsed) => do
    let nChange ← made (addAmount s.nValueIn (-nValueToSelect))
    let p ← placeChange E n bnbUsed s.nFeeRet nChange vout
    compareFee E nSubtract s p

def passes (vecSend : List CRecipient) (nValue : Int) (nSubtract : Nat) (uninit : Nat → Bool) :
    Nat → Nat → LoopState H → Option (Made (Created H))
  | 0, _, _ => none
  | fuel + 1, n, s =>
    match pass E vecSend nValue nSubtract (uninit n) n s with
    | .error e => some (.error e)
    | .ok (.done r) => some (.ok r)
    | .ok (.again s) => passes vecSend nValue nSubtract uninit fuel (n + 1) s

def loopStart (H : Type) (nSubtract : Nat) : LoopState H := ⟨0, true, 0, [], decide (nSubtract = 0), false⟩

def sumRecipients (vecSend : List CRecipient) : Made (Int × Nat) := do
  need (!(E.startsBeforeStable && decide (0 < E.fromcurrency)))
    (.reason "Transactions from a Dollar account are not yet allowed.")
  let s ← run addRecipient (0, 0) vecSend
  need (!vecSend.isEmpty) (.reason "Transaction must have at least one recipient")
  .ok s

def createTransaction (vecSend : List CRecipient) (uninit : Nat → Bool) (fuel : Nat) :
    Option (Made (Created H)) :=
  match sumRecipients E vecSend with
  | .error e => some (.error e)
  | .ok (nValue, nSubtract) => passes E vecSend nValue nSubtract uninit fuel 0 (loopStart H nSubtract)

/-! ## amounts -/

variable {E} {amount : Int}

@[simp] theorem made_ok {α : Type} {x : Res α} {a : α} : made x = .ok a ↔ x = .ok a := by
  cases x with
  | ok b => simp [made]
  | error e => simp [made]

def paid (vout : List WalletTxOut) : Int := total (fun out => out.nValueBitCash.toInt) vout

def payers (vecSend : List CRecipient) : Nat := vecSend.countP (·.fSubtractFeeFromAmount)

theorem payers_cons (recipient : CRecipient) (vecSend : List CRecipient) : payers (recipient :: vecSend) =
    payers vecSend + if recipient.fSubtractFeeFromAmount then 1 else 0 := countP_cons

theorem run_addRecipient (vecSend : List CRecipient) {s t : Int × Nat} (h : run addRecipient s vecSend = .ok t) :
    t.1 = s.1 + total CRecipient.nAmount vecSend ∧ t.2 = s.2 + payers vecSend ∧ (0 ≤ s.1 → 0 ≤ t.1) := by
  induction vecSend generalizing s with
  | nil =>
    obtain rfl : s = t := ok.inj h
    exact ⟨by simp, rfl, id⟩
  | cons recipient vecSend ih =>
    obtain ⟨u, hu, h⟩ := bind_ok.1 h
    unfold addRecipient at hu
    obtain ⟨_, hneed, hu⟩ := bind_ok.1 hu
    obtain ⟨nValue, hadd, hu⟩ := bind_ok.1 hu
    obtain rfl := ok.inj hu
    obtain ⟨-, rfl⟩ := addAmount_ok.1 (made_ok.1 hadd)
    have hnonneg : 0 ≤ recipient.nAmount := by
      have hsigns := need_ok.1 hneed
      simp only [Bool.not_eq_true', Bool.or_eq_false_iff, decide_eq_false_iff_not] at hsigns
      omega
    obtain ⟨hsum, hcount, hpos⟩ := ih h
    refine ⟨?_, ?_, fun hs => hpos (by dsimp only; omega)⟩
    · rw [hsum, total_cons]
      dsimp only
      omega
    · rw [hcount, payers_cons]
      dsimp only
      split <;> omega

structure Sums (vecSend : List CRecipient) (nValue : Int) (nSubtract : Nat) : Prop where
  amounts : nValue = total CRecipient.nAmount vecSend
  payers : nSubtract = payers vecSend
  nonneg : 0 ≤ nValue

theorem sumRecipients_spec {vecSend : List CRecipient} {nValue : Int} {nSubtract : Nat}
    (h : sumRecipients E vecSend = .ok (nValue, nSubtract)) : Sums vecSend nValue nSubtract := by
  unfold sumRecipients at h
  obtain ⟨_, -, h⟩ := bind_ok.1 h
  obtain ⟨s, hs, h⟩ := bind_ok.1 h
  obtain ⟨_, -, h⟩ := bind_ok.1 h
  obtain rfl := ok.inj h
  obtain ⟨hamounts, hpayers, hnonneg⟩ := run_addRecipient vecSend hs
  exact ⟨by simpa using hamounts, by simpa using hpayers, hnonneg (Int.le_refl 0)⟩

theorem withAmount_paid (h : fits64 amount) :
    (withAmount out amount).nValueBitCash.toInt = amount := toInt_ofInt_of_fits h

def feeShare (nFeeRet : Int) (nSubtract : Nat) (fFirst : Bool) (recipient : CRecipient) : Int :=
  if recipient.fSubtractFeeFromAmount then
    nFeeRet.tdiv nSubtract + (if fFirst then nFeeRet.tmod nSubtract else 0)
  else 0

variable {nFeeRet : Int} {fFirst first : Bool}

theorem subtractFee_spec {nSubtract : Nat} {paidOut : WalletTxOut}
    (h : subtractFee nFeeRet nSubtract fFirst out = .ok (paidOut, first)) :
    first = false ∧ paidOut.nValueBitCash.toInt =
      out.nValueBitCash.toInt - (nFeeRet.tdiv nSubtract + (if fFirst then nFeeRet.tmod nSubtract else 0)) := by
  unfold subtractFee at h
  obtain ⟨-, -, h⟩ := bind_ok.1 h
  obtain ⟨amount, hamount, h⟩ := bind_ok.1 h
  obtain ⟨hfits, rfl⟩ := addAmount_ok.1 (made_ok.1 hamount)
  split at h
  · next hfirst =>
    obtain ⟨amount, hamount, h⟩ := bind_ok.1 h
    obtain ⟨hfits, rfl⟩ := addAmount_ok.1 (made_ok.1 hamount)
    obtain ⟨rfl, rfl⟩ := mk.inj (ok.inj h)
    refine ⟨rfl, ?_⟩
    rw [withAmount_paid hfits, if_pos hfirst]
    omega
  · next hlater =>
    obtain ⟨rfl, rfl⟩ := mk.inj (ok.inj h)
    refine ⟨rfl, ?_⟩
    rw [withAmount_paid hfits, if_neg hlater]
    omega

theorem newTxOut_nValue (h : fits64 amount) (script : CScript) :
    (E.newTxOut amount script).nValue.toInt = amount := toInt_ofInt_of_fits h

theorem payee_spec {n i : Nat} {nSubtract : Nat} {recipient : CRecipient}
    (h : payee E n i nFeeRet nSubtract fFirst recipient = .ok (out, first)) :
    first = (fFirst && !recipient.fSubtractFeeFromAmount) ∧
      out.nValueBitCash.toInt = recipient.nAmount - feeShare nFeeRet nSubtract fFirst recipient := by
  unfold payee at h
  obtain ⟨-, -, h⟩ := bind_ok.1 h
  obtain ⟨-, -, h⟩ := bind_ok.1 h
  split at h
  · cases h
  · next filled hfill =>
    have hvalue : filled.nValueBitCash.toInt = recipient.nAmount := by
      rw [E.filler.nValueBitCash hfill]
      exact newTxOut_nValue recipient.fits _
    obtain ⟨⟨paidOut, first'⟩, hshare, h⟩ := bind_ok.1 h
    obtain ⟨-, -, h⟩ := bind_ok.1 h
    obtain ⟨rfl, rfl⟩ := mk.inj (ok.inj h)
    unfold feeShare
    unfold payShare at hshare
    split at hshare
    · next hsub =>
      obtain ⟨rfl, hpaid⟩ := subtractFee_spec hshare
      rw [if_pos hsub, hpaid, hvalue, hsub]
      exact ⟨by simp, rfl⟩
    · next hsub =>
      obtain ⟨rfl, rfl⟩ := mk.inj (ok.inj hshare)
      rw [if_neg hsub, hvalue, Bool.eq_false_of_not_eq_true hsub]
      exact ⟨by simp, by omega⟩

variable {vout : List WalletTxOut} {n position : Nat} {nChange : Int}

theorem payees_spec {nSubtract : Nat} (vecSend : List CRecipient) {i : Nat}
    (h : payees E n nFeeRet nSubtract i fFirst vecSend = .ok vout) :
    paid vout + (payers vecSend * nFeeRet.tdiv nSubtract +
      (if fFirst ∧ 0 < payers vecSend then nFeeRet.tmod nSubtract else 0)) =
      total CRecipient.nAmount vecSend ∧ vout.length = vecSend.length := by
  induction vecSend generalizing i fFirst vout with
  | nil =>
    obtain rfl := ok.inj h
    simp [paid, payers]
  | cons recipient vecSend ih =>
    unfold payees at h
    obtain ⟨⟨out, first⟩, hout, h⟩ := bind_ok.1 h
    obtain ⟨rest, hrest, h⟩ := bind_ok.1 h
    obtain rfl := ok.inj h
    obtain ⟨rfl, hamount⟩ := payee_spec hout
    obtain ⟨hsum, hlen⟩ := ih hrest
    refine ⟨?_, by rw [length_cons, length_cons, hlen]⟩
    have hpaid : paid (out :: rest) = out.nValueBitCash.toInt + paid rest := total_cons out
    rw [total_cons, ← hsum, hpaid, hamount, feeShare, payers_cons]
    -- only the first of those that pay the fee pays the remainder
    cases recipient.fSubtractFeeFromAmount with
    | false => simp; omega
    | true => cases fFirst <;> simp [Int.add_mul] <;> omega

theorem payees_target {nValueToSelect : Int} {vecSend : List CRecipient}
    (hselect : valueToSelect (total CRecipient.nAmount vecSend) (payers vecSend) nFeeRet = .ok nValueToSelect)
    (h : payees E n nFeeRet (payers vecSend) 0 true vecSend = .ok vout) : paid vout + nFeeRet = nValueToSelect := by
  have hsum := (payees_spec vecSend h).1
  unfold valueToSelect at hselect
  split at hselect
  · next hnone =>
    obtain ⟨-, rfl⟩ := addAmount_ok.1 (made_ok.1 hselect)
    rw [hnone] at hsum
    simp at hsum
    omega
  · next hsome =>
    obtain rfl := ok.inj hselect
    rw [if_pos ⟨rfl, Nat.pos_of_ne_zero hsome⟩, Int.mul_tdiv_add_tmod] at hsum
    exact hsum

theorem changePosition_le {length : Nat} (h : changePosition E n length = .ok position) : position ≤ length := by
  unfold changePosition at h
  split at h
  · obtain rfl := ok.inj h
    exact Nat.lt_succ_iff.1 (E.randInt_lt n (length + 1) (Nat.succ_pos length))
  · split at h
    · cases h
    · next hrange =>
      obtain rfl := ok.inj h
      omega

structure PlacedWell (E : CreateEnv H) (n : Nat) (bnbUsed : Bool) (nFeeRet nChange : Int) (vout : List WalletTxOut)
    (p : Placed) : Prop where
  sum : 0 ≤ nChange → paid p.vout + p.nFeeRet = paid vout + nFeeRet + nChange
  absent : p.nChangePosInOut = none → p.vout = vout
  nFeeRet : nFeeRet ≤ p.nFeeRet
  output : p.newTxOut = if 0 < nChange then E.changeOutput n vout.length nChange else none
  absorbed : ∀ out, p.newTxOut = some out →
    (p.nChangePosInOut = none ↔ isDust E.discardThreshold out = true ∨ bnbUsed = true)

theorem placeChange_spec {p : Placed}
    (hfits : fits64 nChange) (h : placeChange E n bnbUsed nFeeRet nChange vout = .ok p) :
    PlacedWell E n bnbUsed nFeeRet nChange vout p := by
  unfold placeChange at h
  split at h
  · next hpos =>
    split at h
    · cases h
    · next newTxOut hfill =>
      split at h
      · next hdust =>
        obtain ⟨fee, hfee, h⟩ := bind_ok.1 h
        obtain ⟨-, rfl⟩ := addAmount_ok.1 (made_ok.1 hfee)
        obtain rfl := ok.inj h
        refine ⟨fun _ => by dsimp only; omega, fun _ => rfl, by dsimp only; omega, by rw [if_pos hpos, hfill], ?_⟩
        intro out hout
        obtain rfl := some.inj hout
        exact ⟨fun _ => Bool.or_eq_true_iff.1 hdust, fun _ => rfl⟩
      · next hkept =>
        obtain ⟨position, hposition, h⟩ := bind_ok.1 h
        obtain rfl := ok.inj h
        refine ⟨fun _ => ?_, fun hno => by (cases hno), Int.le_refl _, by rw [if_pos hpos, hfill], ?_⟩
        · have hvalue : newTxOut.nValueBitCash.toInt = nChange := by
            rw [E.filler.nValueBitCash hfill]
            exact newTxOut_nValue hfits _
          have hpaid : paid (vout.insertIdx position newTxOut) = newTxOut.nValueBitCash.toInt + paid vout :=
            (total_perm (perm_insertIdx newTxOut vout (changePosition_le hposition))).trans (total_cons _)
          dsimp only
          rw [hpaid, hvalue]
          omega
        · intro out hout
          obtain rfl := some.inj hout
          exact ⟨fun hno => by (cases hno), fun hdust => absurd (Bool.or_eq_true_iff.2 hdust) hkept⟩
  · next hnone =>
    obtain rfl := ok.inj h
    refine ⟨fun hchange => ?_, fun _ => rfl, Int.le_refl _, by rw [if_neg hnone], fun out hno => by cases hno⟩
    dsimp only
    omega

/-! ## the end of a pass -/

def Created.Balanced (r : Created H) : Prop :=
  total CInputCoin.nValue r.setCoins = paid r.vout + r.nFeeRet

def Created.PaysFee (E : CreateEnv H) (r : Created H) : Prop :=
  E.feeNeeded (E.signedTxSize (r.setCoins.map (·.outpoint)) r.vout).toNat ≤ r.nFeeRet

def Created.KeepsChange (E : CreateEnv H) (r : Created H) : Prop :=
  ∀ out, r.newTxOut = some out → r.nChangePosInOut = none →
    isDust E.discardThreshold out = true ∨ r.fromBnb = true

theorem raiseOutput_spec {vout' : List WalletTxOut} {x : Int} (h : raiseOutput vout position x = .ok vout') :
    paid vout' = paid vout + x ∧ vout'.map blankAmounts = vout.map blankAmounts := by
  unfold raiseOutput at h
  split at h
  · cases h
  · next out hout =>
    obtain ⟨nValue, -, h⟩ := bind_ok.1 h
    obtain ⟨nValueBitCash, hadd, h⟩ := bind_ok.1 h
    obtain ⟨hfits, rfl⟩ := addAmount_ok.1 (made_ok.1 hadd)
    obtain rfl := ok.inj h
    constructor
    · unfold paid
      rw [total_set hout]
      dsimp only
      rw [toInt_ofInt_of_fits hfits]
      omega
    · rw [map_set]
      -- the new output differs in its amounts only
      have hlt := (List.getElem?_eq_some_iff.1 hout).1
      refine ext_getElem? fun j => ?_
      rw [getElem?_set]
      split
      · next heq =>
        rw [← heq, if_pos (by rwa [length_map]), getElem?_map, hout]
        rfl
      · rfl

structure Ends (E : CreateEnv H) (s : LoopState H) (p : Placed) (r : Created H) : Prop where
  setCoins : r.setCoins = s.setCoins
  fromBnb : r.fromBnb = s.fromBnb
  newTxOut : r.newTxOut = p.newTxOut
  nChangePosInOut : r.nChangePosInOut = p.nChangePosInOut
  sum : paid r.vout + r.nFeeRet = paid p.vout + p.nFeeRet
  fee : r.PaysFee E

variable {nSubtract : Nat} {s s' : LoopState H} {p : Placed} {r : Created H} {t : Int}

theorem ends_moved (hsum : paid vout + nFeeRet = paid p.vout + p.nFeeRet)
    (hblank : vout.map blankAmounts = p.vout.map blankAmounts)
    (hfee : E.feeNeeded (E.signedTxSize (s.setCoins.map (·.outpoint)) p.vout).toNat ≤ nFeeRet)
    (h : finished s p vout nFeeRet = .done r) : Ends E s p r := by
  obtain rfl := Outcome.done.inj h
  refine ⟨rfl, rfl, rfl, rfl, hsum, ?_⟩
  unfold Created.PaysFee
  rw [← E.signedTxSize_blank, hblank, E.signedTxSize_blank]
  exact hfee

theorem giveBack_spec {nFeeNeeded : Int} {o : Outcome H}
    (hneeded : E.feeNeeded (E.signedTxSize (s.setCoins.map (·.outpoint)) p.vout).toNat = nFeeNeeded)
    (henough : nFeeNeeded ≤ p.nFeeRet) (h : giveBack nSubtract s p nFeeNeeded = .ok o) :
    ∃ r, o = .done r ∧ Ends E s p r := by
  unfold giveBack at h
  have hsame : finished s p p.vout p.nFeeRet = o → ∃ r, o = .done r ∧ Ends E s p r := by
    rintro rfl
    exact ⟨_, rfl, ends_moved rfl rfl (hneeded ▸ henough) rfl⟩
  split at h
  · split at h
    · obtain ⟨extra, hextra, h⟩ := bind_ok.1 h
      obtain ⟨-, rfl⟩ := addAmount_ok.1 (made_ok.1 hextra)
      obtain ⟨vout, hvout, h⟩ := bind_ok.1 h
      obtain ⟨hpaid, hblank⟩ := raiseOutput_spec hvout
      obtain ⟨fee, hfee, h⟩ := bind_ok.1 h
      obtain ⟨-, rfl⟩ := addAmount_ok.1 (made_ok.1 hfee)
      obtain rfl := ok.inj h
      exact ⟨_, rfl, ends_moved (by omega) hblank (by omega) rfl⟩
    · exact hsame (ok.inj h)
  · exact hsame (ok.inj h)

inductive Continues (E : CreateEnv H) (nSubtract : Nat) (s : LoopState H) (p : Placed) (s' : LoopState H) : Prop
  | reuse (hnone : p.nChangePosInOut = none) (hsubtract : nSubtract = 0) (hpick : s'.pickNewInputs = false)
      (hfee : s'.nFeeRet ≤ p.nFeeRet)
  | subtract (hsubtract : 0 < nSubtract) (hpick : s'.pickNewInputs = false)
  | select (hsubtract : nSubtract = 0) (hpick : s'.pickNewInputs = true) (hfee : p.nFeeRet ≤ s'.nFeeRet)

def EndsOrContinues (E : CreateEnv H) (nSubtract : Nat) (s : LoopState H) (p : Placed) (o : Outcome H) : Prop :=
  (∃ r, o = .done r ∧ Ends E s p r) ∨
    ∃ s', o = .again s' ∧ s.pickNewInputs = true ∧ s'.setCoins = s.setCoins ∧ s'.nValueIn = s.nValueIn ∧
      Continues E nSubtract s p s'

section
variable {nFeeNeeded : Int} {o : Outcome H}

theorem moreFee_spec (hpick : s.pickNewInputs) (hlack : p.nFeeRet < nFeeNeeded) :
    EndsOrContinues E nSubtract s p (moreFee nSubtract s nFeeNeeded) := by
  refine .inr ⟨_, rfl, hpick, rfl, rfl, ?_⟩
  by_cases hsub : 0 < nSubtract
  · exact .subtract hsub (if_pos hsub)
  · exact .select (by omega) ((if_neg hsub).trans hpick) hlack.le

variable (hneeded : E.feeNeeded (E.signedTxSize (s.setCoins.map (·.outpoint)) p.vout).toNat = nFeeNeeded)
include hneeded

theorem enoughFee_spec {nBytes : Nat} (henough : nFeeNeeded ≤ p.nFeeRet)
    (h : enoughFee E nSubtract nBytes s p nFeeNeeded = .ok o) : EndsOrContinues E nSubtract s p o := by
  unfold enoughFee at h
  split at h
  · next hretry =>
    obtain ⟨limit, hlimit, h⟩ := bind_ok.1 h
    obtain ⟨-, rfl⟩ := addAmount_ok.1 (made_ok.1 hlimit)
    split at h
    · next hmuch =>
      have hthreshold := E.discardThreshold_nonneg E.changePrototype
      obtain rfl := ok.inj h
      exact .inr ⟨_, rfl, hretry.2.2, rfl, rfl, .reuse hretry.1 hretry.2.1 rfl (by dsimp only; omega)⟩
    · exact .inl (giveBack_spec hneeded henough h)
  · exact .inl (giveBack_spec hneeded henough h)

theorem lackingFee_spec (hpick : s.pickNewInputs) (hlack : p.nFeeRet < nFeeNeeded)
    (h : lackingFee nSubtract s p nFeeNeeded = .ok o) : EndsOrContinues E nSubtract s p o := by
  have hmore : (.ok (moreFee nSubtract s nFeeNeeded) : Made (Outcome H)) = .ok o → EndsOrContinues E nSubtract s p o :=
    fun ho => ok.inj ho ▸ moreFee_spec hpick hlack
  unfold lackingFee at h
  split at h
  · split at h
    · obtain ⟨additional, hadditional, h⟩ := bind_ok.1 h
      obtain ⟨-, rfl⟩ := addAmount_ok.1 (made_ok.1 hadditional)
      obtain ⟨limit, -, h⟩ := bind_ok.1 h
      split at h
      · cases h
      · split at h
        · obtain ⟨vout, hvout, h⟩ := bind_ok.1 h
          obtain ⟨hpaid, hblank⟩ := raiseOutput_spec hvout
          obtain ⟨fee, hfee, h⟩ := bind_ok.1 h
          obtain ⟨-, rfl⟩ := addAmount_ok.1 (made_ok.1 hfee)
          obtain rfl := ok.inj h
          exact .inl ⟨_, rfl, ends_moved (by omega) hblank (by omega) rfl⟩
        · exact hmore h
    · exact hmore h
  · exact hmore h

end

theorem compareFee_spec {o : Outcome H} (h : compareFee E nSubtract s p = .ok o) :
    EndsOrContinues E nSubtract s p o := by
  unfold compareFee at h
  obtain ⟨_, -, h⟩ := bind_ok.1 h
  obtain ⟨_, -, h⟩ := bind_ok.1 h
  obtain ⟨_, -, h⟩ := bind_ok.1 h
  split at h
  · next henough => exact enoughFee_spec rfl henough h
  · next hlack =>
    split at h
    · next hpick => exact lackingFee_spec rfl hpick (Int.not_le.1 hlack) h
    · cases h

/-! ## a pass -/

structure PassInv (nValue : Int) (nSubtract : Nat) (s : LoopState H) : Prop where
  fee : s.pickNewInputs = true → 0 ≤ s.nFeeRet
  value : s.pickNewInputs = false → total CInputCoin.nValue s.setCoins = s.nValueIn
  reaches : s.pickNewInputs = false → ∀ t, valueToSelect nValue nSubtract s.nFeeRet = .ok t → t ≤ s.nValueIn

structure InputsWell (n : Nat) (uninit : Bool) (s s' : LoopState H) (nValueToSelect : Int) (bnbUsed : Bool) :
    Prop where
  nFeeRet : s'.nFeeRet = s.nFeeRet
  pickNewInputs : s'.pickNewInputs = s.pickNewInputs
  value : total CInputCoin.nValue s'.setCoins = s'.nValueIn
  reaches : nValueToSelect ≤ s'.nValueIn
  kept : s.pickNewInputs = false → s' = s ∧ bnbUsed = uninit
  chosen : s.pickNewInputs = true → nValueToSelect < s'.nValueIn → bnbUsed = s'.fromBnb

theorem chooseInputs_spec {uninit : Bool} {nValue : Int} {size : Nat} {c : LoopState H ⊕ LoopState H × Bool}
    (hinv : PassInv nValue nSubtract s) (ht : valueToSelect nValue nSubtract s.nFeeRet = .ok t)
    (hpos : s.pickNewInputs → 0 ≤ t) (h : chooseInputs E n uninit s t size = .ok c) :
    (∃ s', c = .inl s' ∧ s'.pickNewInputs ∧ s'.nFeeRet = s.nFeeRet ∧ s.pickNewInputs) ∨
      ∃ s' bnbUsed, c = .inr (s', bnbUsed) ∧ InputsWell n uninit s s' t bnbUsed := by
  unfold chooseInputs at h
  split at h
  · next hpick =>
    obtain ⟨r, hr, h⟩ := bind_ok.1 h
    obtain ⟨r', hr', hsound⟩ := selectCoins_spec (E := E.select) n E.coins t E.control
      ⟨s.useBnb, E.changeOutputSize, E.changeSpendSize, E.nFeeRateNeeded, size⟩
    obtain rfl : r = r' := ok.inj ((made_ok.1 hr).symm.trans hr')
    dsimp only at h
    split at h
    · next hret =>
      obtain rfl := ok.inj h
      refine .inr ⟨_, _, rfl, rfl, rfl, hsound.value hret, hsound.reaches hret,
        fun hno => absurd hno (by rw [hpick]; decide), fun _ hmore => ?_⟩
      cases hused : r.bnbUsed with
      | some b => rfl
      | none =>
        have hzero := (hsound.unwritten hused).2
        have hnonneg := hpos hpick
        dsimp only at hmore
        omega
    · split at h
      · obtain rfl := ok.inj h
        exact .inl ⟨_, rfl, hpick, rfl, hpick⟩
      · cases h
  · next hkeep =>
    have hkeep := Bool.eq_false_of_not_eq_true hkeep
    obtain rfl := ok.inj h
    exact .inr ⟨_, _, rfl, rfl, rfl, hinv.value hkeep, hinv.reaches hkeep t ht, fun _ => ⟨rfl, rfl⟩,
      fun hno => absurd hno (by rw [hkeep]; decide)⟩

def SparesChange (E : CreateEnv H) (vecSend : List CRecipient) (nValue : Int) (nSubtract n : Nat) (s : LoopState H) :
    Prop :=
  ∃ t out, valueToSelect nValue nSubtract s.nFeeRet = .ok t ∧ 0 < s.nValueIn - t ∧
    E.changeOutput n vecSend.length (s.nValueIn - t) = some out ∧ isDust E.discardThreshold out = false

structure LastPass (E : CreateEnv H) (vecSend : List CRecipient) (nValue : Int) (nSubtract : Nat) (uninit : Bool)
    (n : Nat) (s : LoopState H) (r : Created H) : Prop where
  balanced : r.Balanced
  paysFee : r.PaysFee E
  chosen : s.pickNewInputs = true → r.KeepsChange E
  kept : s.pickNewInputs = false →
    (r.KeepsChange E ↔ ¬(uninit = true ∧ s.fromBnb = false ∧ SparesChange E vecSend nValue nSubtract n s))

theorem valueToSelect_eq {nValue : Int} (h : valueToSelect nValue nSubtract nFeeRet = .ok t) :
    t = if nSubtract = 0 then nValue + nFeeRet else nValue := by
  unfold valueToSelect at h
  split at h
  · next hnone => rw [if_pos hnone, (addAmount_ok.1 (made_ok.1 h)).2]
  · next hsome => rw [if_neg hsome, ok.inj h]

theorem Continues.inv {nValue : Int}
    (h : Continues E nSubtract s p s') (ht : valueToSelect nValue nSubtract s.nFeeRet = .ok t)
    (hplaced : PlacedWell E n bnbUsed s.nFeeRet nChange vout p) (hpaid : paid vout + s.nFeeRet = t)
    (hchange : nChange = s.nValueIn - t) (hreach : t ≤ s.nValueIn) (hfee : 0 ≤ s.nFeeRet)
    (hvalue : total CInputCoin.nValue s.setCoins = s.nValueIn) (hcoins : s'.setCoins = s.setCoins)
    (hin : s'.nValueIn = s.nValueIn) : PassInv nValue nSubtract s' := by
  have hsum := hplaced.sum (by omega)
  have hlow := hplaced.nFeeRet
  have htarget := valueToSelect_eq ht
  cases h with
  | reuse hnone hsub hpick hless =>
    rw [hplaced.absent hnone] at hsum
    rw [if_pos hsub] at htarget
    refine ⟨fun hno => absurd hno (by rw [hpick]; decide), fun _ => by rw [hcoins, hin, hvalue], fun _ t' ht' => ?_⟩
    rw [valueToSelect_eq ht', if_pos hsub]
    omega
  | subtract hsub hpick =>
    rw [if_neg (by omega)] at htarget
    refine ⟨fun hno => absurd hno (by rw [hpick]; decide), fun _ => by rw [hcoins, hin, hvalue], fun _ t' ht' => ?_⟩
    rw [valueToSelect_eq ht', if_neg (by omega)]
    omega
  | select hsub hpick hmore =>
    exact ⟨fun _ => by omega, fun hno => absurd hno (by rw [hpick]; decide),
      fun hno => absurd hno (by rw [hpick]; decide)⟩

theorem Ends.keepsChange (h : Ends E s p r) (hplaced : PlacedWell E n bnbUsed nFeeRet nChange vout p)
    (hright : 0 < nChange → bnbUsed = s.fromBnb) : r.KeepsChange E := by
  intro out hout habsorbed
  rw [h.newTxOut] at hout
  rw [h.nChangePosInOut] at habsorbed
  have hpositive : 0 < nChange := by
    by_contra hno
    rw [hplaced.output, if_neg hno] at hout
    cases hout
  rw [h.fromBnb, ← hright hpositive]
  exact (hplaced.absorbed out hout).1 habsorbed

theorem Ends.keepsChange_iff {vecSend : List CRecipient} {nValue : Int} {uninit : Bool}
    (h : Ends E s p r) (ht : valueToSelect nValue nSubtract s.nFeeRet = .ok t)
    (hplaced : PlacedWell E n uninit s.nFeeRet (s.nValueIn + -t) vout p) (hlen : vout.length = vecSend.length) :
    r.KeepsChange E ↔ ¬(uninit ∧ s.fromBnb = false ∧ SparesChange E vecSend nValue nSubtract n s) := by
  have hnewTxOut := hplaced.output
  rw [hlen, ← Int.sub_eq_add_neg] at hnewTxOut
  unfold Created.KeepsChange
  rw [h.newTxOut, h.nChangePosInOut, h.fromBnb]
  constructor
  · rintro hkeeps ⟨hused, hknapsack, t', out, ht', hpositive, hout, hdust⟩
    obtain rfl : t = t' := ok.inj (ht.symm.trans ht')
    rw [if_pos hpositive, hout] at hnewTxOut
    have habsorbed := (hplaced.absorbed out hnewTxOut).2 (.inr hused)
    rcases hkeeps out hnewTxOut habsorbed with hyes | hyes
    · rw [hdust] at hyes
      cases hyes
    · rw [hknapsack] at hyes
      cases hyes
  · intro hspared out hout habsorbed
    rw [hnewTxOut] at hout
    split at hout
    · next hpositive =>
      by_contra hlost
      rw [not_or, Bool.not_eq_true, Bool.not_eq_true] at hlost
      refine hspared ⟨?_, hlost.2, t, out, ht, hpositive, hout, hlost.1⟩
      have hused := (hplaced.absorbed out (hnewTxOut.trans ((if_pos hpositive).trans hout))).1 habsorbed
      exact hused.resolve_left (by rw [hlost.1]; decide)
    · cases hout

theorem pass_spec {vecSend : List CRecipient} {nValue : Int} {uninit : Bool} {o : Outcome H}
    (hsums : Sums vecSend nValue nSubtract) (hinv : PassInv nValue nSubtract s)
    (h : pass E vecSend nValue nSubtract uninit n s = .ok o) :
    (∃ r, o = .done r ∧ LastPass E vecSend nValue nSubtract uninit n s r) ∨
      ∃ s', o = .again s' ∧ s.pickNewInputs ∧ PassInv nValue nSubtract s' := by
  obtain ⟨rfl, rfl, hnonneg⟩ := hsums
  unfold pass at h
  obtain ⟨t, ht, h⟩ := bind_ok.1 h
  obtain ⟨vout, hvout, h⟩ := bind_ok.1 h
  obtain ⟨c, hc, h⟩ := bind_ok.1 h
  have hpaid := payees_target ht hvout
  have hlen := (payees_spec vecSend hvout).2
  have htarget : s.pickNewInputs = true → 0 ≤ t := by
    intro hpick
    have hfee := hinv.fee hpick
    rw [valueToSelect_eq ht]
    split <;> omega
  rcases chooseInputs_spec hinv ht htarget hc with ⟨s', rfl, hpick', hfee', hpick⟩ | ⟨s', bnbUsed, rfl, hinputs⟩
  · -- the branch-and-bound selector found nothing
    refine .inr ⟨s', (ok.inj h).symm, hpick, fun _ => ?_, fun hno => absurd hno (by rw [hpick']; decide),
      fun hno => absurd hno (by rw [hpick']; decide)⟩
    rw [hfee']
    exact hinv.fee hpick
  · obtain ⟨nChange, hchange, h⟩ := bind_ok.1 h
    obtain ⟨hfits, rfl⟩ := addAmount_ok.1 (made_ok.1 hchange)
    obtain ⟨p, hp, h⟩ := bind_ok.1 h
    have hplaced := placeChange_spec hfits hp
    have hreach := hinputs.reaches
    rcases compareFee_spec h with ⟨r, rfl, hends⟩ | ⟨s'', rfl, hpick, hcoins, hin, hcontinues⟩
    · refine .inl ⟨r, rfl, ?_, hends.fee, fun hpick => ?_, fun hkeep => ?_⟩
      · unfold Created.Balanced
        have hsum := hplaced.sum (by omega)
        rw [hends.setCoins, hinputs.value, hends.sum, hsum, hinputs.nFeeRet, hpaid]
        omega
      · exact hends.keepsChange hplaced fun hpositive => hinputs.chosen hpick (by omega)
      · obtain ⟨rfl, rfl⟩ := hinputs.kept hkeep
        exact hends.keepsChange_iff ht hplaced hlen
    · have hpick' : s.pickNewInputs := hinputs.pickNewInputs ▸ hpick
      refine .inr ⟨s'', rfl, hpick', ?_⟩
      refine hcontinues.inv (by rw [hinputs.nFeeRet]; exact ht) hplaced (by rw [hinputs.nFeeRet]; exact hpaid)
        (by omega) hreach (by rw [hinputs.nFeeRet]; exact hinv.fee hpick') hinputs.value hcoins hin

theorem pass_uninit {vecSend : List CRecipient} {nValue : Int} (hinv : PassInv nValue nSubtract s)
    (hnonneg : 0 ≤ nValue) (hpick : s.pickNewInputs) (u u' : Bool) (n : Nat) :
    pass E vecSend nValue nSubtract u n s = pass E vecSend nValue nSubtract u' n s := by
  unfold pass
  cases ht : valueToSelect nValue nSubtract s.nFeeRet with
  | error e => rfl
  | ok t =>
    cases hvout : payees E n s.nFeeRet nSubtract 0 true vecSend with
    | error e => rfl
    | ok vout =>
      obtain ⟨r, hr, hsound⟩ := selectCoins_spec (E := E.select) n E.coins t E.control
        ⟨s.useBnb, E.changeOutputSize, E.changeSpendSize, E.nFeeRateNeeded, 11 + (vout.map E.outputSize).sum⟩
      rw [ok_bind, ok_bind, ok_bind, ok_bind]
      unfold chooseInputs
      rw [if_pos hpick, if_pos hpick, made_ok.2 hr, ok_bind, ok_bind]
      cases hused : r.bnbUsed with
      | some b => rfl
      | none =>
        -- nothing had to be selected, and there is no change
        obtain ⟨hret, hzero⟩ := hsound.unwritten hused
        have hfee := hinv.fee hpick
        rw [if_pos hret, if_pos hret, ok_bind, ok_bind]
        dsimp only
        cases hchange : made (addAmount r.nValueRet (-t)) with
        | error e => rfl
        | ok nChange =>
          obtain ⟨-, rfl⟩ := addAmount_ok.1 (made_ok.1 hchange)
          have htarget : 0 ≤ t := by
            rw [valueToSelect_eq ht]
            split <;> omega
          rw [ok_bind, ok_bind]
          unfold placeChange
          rw [if_neg (by omega), if_neg (by omega)]

/-! ## the loop -/

def stateAt (E : CreateEnv H) (vecSend : List CRecipient) (nValue : Int) (nSubtract : Nat) :
    Nat → Option (LoopState H)
  | 0 => some (loopStart H nSubtract)
  | n + 1 =>
    match stateAt E vecSend nValue nSubtract n with
    | none => none
    | some s =>
      match pass E vecSend nValue nSubtract false n s with
      | .ok (.again s') => some s'
      | _ => none

def LosesChange (E : CreateEnv H) (vecSend : List CRecipient) (uninit : Nat → Bool) : Prop :=
  ∃ nValue nSubtract n s, sumRecipients E vecSend = .ok (nValue, nSubtract) ∧
    stateAt E vecSend nValue nSubtract n = some s ∧ s.pickNewInputs = false ∧ s.fromBnb = false ∧ uninit n = true ∧
    SparesChange E vecSend nValue nSubtract n s

section
variable {vecSend : List CRecipient} {nValue : Int} {uninit : Nat → Bool}

theorem stateAt_succ (hs : stateAt E vecSend nValue nSubtract n = some s) :
    stateAt E vecSend nValue nSubtract (n + 1) = match pass E vecSend nValue nSubtract false n s with
      | .ok (.again s') => some s'
      | _ => none := by
  rw [stateAt, hs]

theorem stateAt_later {m : Nat} (hnm : n ≤ m) (hn : stateAt E vecSend nValue nSubtract n = none) :
    stateAt E vecSend nValue nSubtract m = none := by
  induction m, hnm using Nat.le_induction with
  | base => exact hn
  | succ m _ ih => rw [stateAt, ih]

variable (hsums : Sums vecSend nValue nSubtract)
include hsums

theorem stateAt_inv (hs : stateAt E vecSend nValue nSubtract n = some s) : PassInv nValue nSubtract s := by
  induction n generalizing s with
  | zero =>
    obtain rfl := some.inj hs
    exact ⟨fun _ => Int.le_refl 0, fun hno => by (cases hno), fun hno => by cases hno⟩
  | succ n ih =>
    rw [stateAt] at hs
    split at hs
    · cases hs
    · next s₀ hs₀ =>
      split at hs
      · next s₁ hpass =>
        obtain rfl := some.inj hs
        rcases pass_spec hsums (ih hs₀) hpass with ⟨r, hdone, -⟩ | ⟨s₂, hagain, -, hinv⟩
        · cases hdone
        · rwa [Outcome.again.inj hagain]
      · cases hs

theorem stateAt_kept (hs : stateAt E vecSend nValue nSubtract n = some s)
    (hkeep : s.pickNewInputs = false) : stateAt E vecSend nValue nSubtract (n + 1) = none := by
  rw [stateAt_succ hs]
  split
  · next s' hpass =>
    rcases pass_spec hsums (stateAt_inv hsums hs) hpass with ⟨r, hdone, -⟩ | ⟨s'', -, hpick, -⟩
    · cases hdone
    · rw [hkeep] at hpick
      cases hpick
  · rfl

theorem passes_spec (fuel : Nat) (hs : stateAt E vecSend nValue nSubtract n = some s)
    (h : passes E vecSend nValue nSubtract uninit fuel n s = some (.ok r)) :
    ∃ m s', stateAt E vecSend nValue nSubtract m = some s' ∧ stateAt E vecSend nValue nSubtract (m + 1) = none ∧
      LastPass E vecSend nValue nSubtract (uninit m) m s' r := by
  induction fuel generalizing n s with
  | zero => cases h
  | succ fuel ih =>
    have hinv := stateAt_inv hsums hs
    unfold passes at h
    split at h
    · cases h
    · next r' hpass =>
      obtain rfl : r' = r := ok.inj (some.inj h)
      refine ⟨n, s, hs, ?_, ?_⟩
      · by_cases hpick : s.pickNewInputs = true
        · rw [stateAt_succ hs, pass_uninit hinv hsums.nonneg hpick false (uninit n), hpass]
        · exact stateAt_kept hsums hs (Bool.eq_false_of_not_eq_true hpick)
      · rcases pass_spec hsums hinv hpass with ⟨r'', hdone, hlast⟩ | ⟨s', hno, -⟩
        · rwa [Outcome.done.inj hdone]
        · cases hno
    · next s' hpass =>
      rcases pass_spec hsums hinv hpass with ⟨r'', hno, -⟩ | ⟨s'', -, hpick, -⟩
      · cases hno
      · refine ih ?_ h
        rw [stateAt_succ hs, pass_uninit hinv hsums.nonneg hpick false (uninit n), hpass]

end

/-- **transactions balance and pay their fee; they keep their change** exactly when no pass that reuses inputs of the
knapsack selector finds `true` in the variable that was never written while it has change to give -/
theorem createTransaction_iff (E : CreateEnv H) (vecSend : List CRecipient) (uninit : Nat → Bool) (fuel : Nat)
    (r : Created H) (h : createTransaction E vecSend uninit fuel = some (.ok r)) :
    (r.Balanced ∧ r.PaysFee E ∧ r.KeepsChange E) ↔ ¬LosesChange E vecSend uninit := by
  unfold createTransaction at h
  split at h
  · cases h
  · next nValue nSubtract hsum =>
    have hsums := sumRecipients_spec hsum
    obtain ⟨m, s, hs, hend, hlast⟩ := passes_spec hsums fuel rfl h
    constructor
    · rintro ⟨-, -, hkeeps⟩ ⟨v, k, n, s', hsum', hs', hkeep, hknapsack, hused, hspared⟩
      obtain ⟨rfl, rfl⟩ := Prod.mk.inj (Except.ok.inj (hsum.symm.trans hsum'))
      -- both are the last pass
      have hend' := stateAt_kept hsums hs' hkeep
      have hmn : m = n := by
        rcases Nat.lt_trichotomy m n with hlt | heq | hgt
        · rw [stateAt_later hlt hend] at hs'
          cases hs'
        · exact heq
        · rw [stateAt_later hgt hend'] at hs
          cases hs
      subst hmn
      obtain rfl : s = s' := Option.some.inj (hs.symm.trans hs')
      exact (hlast.kept hkeep).1 hkeeps ⟨hused, hknapsack, hspared⟩
    · intro hno
      refine ⟨hlast.balanced, hlast.paysFee, ?_⟩
      by_cases hpick : s.pickNewInputs = true
      · exact hlast.chosen hpick
      · have hkeep := Bool.eq_false_of_not_eq_true hpick
        refine (hlast.kept hkeep).2 fun ⟨hused, hknapsack, hspared⟩ => hno ?_
        exact ⟨nValue, nSubtract, m, s, hsum, hs, hkeep, hknapsack, hused, hspared⟩

def walletFiller {P : Type} [AddCommGroup P] [DecidableEq P] (W : WalletEnv P) (sender : Nat → Nat → CWallet)
    (encryptRefLine : Bytes → CPubKey → CKey → Bytes) (senderpubkey : Nat → Nat → CPubKey) : OutputFiller where
  fill n i out pay :=
    (fillTxOutForTransaction W (sender n i) encryptRefLine (senderpubkey n i) out pay).map Prod.fst
  nValue h := by
    obtain ⟨⟨filled, wallet⟩, hfill, rfl⟩ := Option.map_eq_some_iff.1 h
    obtain ⟨r, -, hfill⟩ := Option.bind_eq_some_iff.1 hfill
    rw [← (Prod.mk.inj (Option.some.inj hfill)).1]
  nValueBitCash h := by
    obtain ⟨⟨filled, wallet⟩, hfill, rfl⟩ := Option.map_eq_some_iff.1 h
    obtain ⟨r, -, hfill⟩ := Option.bind_eq_some_iff.1 hfill
    rw [← (Prod.mk.inj (Option.some.inj hfill)).1]

/-! ## a payment that loses its change -/

def freeRate : FeeRate := ⟨fun _ => 0, fun _ => Int.le_refl 0⟩

def oneCoinEnv (nValue : Int) : CreateEnv Nat where
  select := ⟨fun _ => none, fun _ _ => true, freeRate, freeRate, true, true, 25, false, fun _ _ => luckyChoices Nat⟩
  control := ⟨[], List.nodup_nil, false⟩
  coins := ⟨[⟨⟨1, 0⟩, .of nValue nValue [] 0, 10, 148, true, true⟩], by simp⟩
  filler := ⟨fun _ _ out pay => some { out with nValueBitCash := out.nValue, currency := pay.currency },
    fun h => by rw [← Option.some.inj h], fun h => by rw [← Option.some.inj h]⟩
  startsBeforeStable := false
  beforeStable _ _ := false
  fromcurrency := 0
  price := COIN
  minimumFee _ := 10
  fallbackRefused _ := false
  minRelayFee _ := 1
  dustThreshold _ := 2
  discardThreshold _ := 2
  discardThreshold_nonneg _ := by decide
  nFeeRateNeeded := freeRate
  outputSize _ := 34
  changeSpendSize := 148
  signedTxSize _ _ := 226
  signedTxSize_blank _ _ := rfl
  pubkeyforchange := default
  nChangePosRequest := -1
  randInt _ _ := 0
  randInt_lt _ _ h := h
  unsetBytes := default
  unsetActive := false

def feePayer (nAmount : Int) (fits : fits64 nAmount = true) : CRecipient :=
  ⟨[], nAmount, true, [], 0, false, default, false, false, default, fits⟩

/-- the second pass keeps the inputs; where the variable holds `true`, a change of 2 CENT becomes a fee -/
theorem feePayer_loses_change :
    ∃ r, createTransaction (oneCoinEnv (3 * CENT)) [feePayer CENT (by decide)] (fun _ => true) 2 = some (.ok r) ∧
      r.nFeeRet = 2 * CENT + 10 ∧ ¬r.KeepsChange (oneCoinEnv (3 * CENT)) := by
  refine ⟨_, rfl, rfl, fun hkeeps => ?_⟩
  exact absurd (hkeeps _ rfl rfl) (by decide)

/-- the same payment where the variable holds `false` -/
theorem createTransaction_of_feePayer :
    ∃ r, createTransaction (oneCoinEnv (3 * CENT)) [feePayer CENT (by decide)] (fun _ => false) 2 = some (.ok r) ∧
      r.nFeeRet = 10 ∧ r.Balanced ∧ r.PaysFee (oneCoinEnv (3 * CENT)) ∧ r.KeepsChange (oneCoinEnv (3 * CENT)) := by
  obtain ⟨r, hr, hfee⟩ : ∃ r, createTransaction (oneCoinEnv (3 * CENT)) [feePayer CENT (by decide)] (fun _ => false) 2 =
      some (.ok r) ∧ r.nFeeRet = 10 := ⟨_, rfl, rfl⟩
  refine ⟨r, hr, hfee, (createTransaction_iff _ _ _ _ r hr).2 ?_⟩
  rintro ⟨_, _, _, _, _, _, _, _, hno, _⟩
  cases hno

end BitCash
