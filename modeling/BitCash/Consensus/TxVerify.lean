import BitCash.Consensus.Coins
import BitCash.Consensus.Nicknames
import BitCash.Consensus.Symbolic

/-!
# Transaction checks

`CheckTransaction` and `Consensus::CheckTxInputs` of `consensus/tx_verify.cpp`.
-/

namespace BitCash
open Checks Machine List CTransaction

variable {H : Type} [Inhabited H] [DecidableEq H] (env : Env H) {nicks : Nicknames H} {bh : H}

/-! ## CheckTransaction -/

def checkOut (nValueOut : Int) (o : CTxOut) : Res Int := do
  need (decide (o.currency < 2)) (.bad 100 "bad-txns-vout-currency-not-supported")
  need (decide (o.referenceline.length ≤ 1000)) (.bad 100
    "CTransaction::CheckTransaction() : txout.referenceline encrypted length>1000 characters")
  need (decide (0 ≤ o.nValue)) (.bad 100 "bad-txns-vout-negative")
  need (decide (o.nValue ≤ MAX_MONEY)) (.bad 100 "bad-txns-vout-toolarge")
  let nValueOut ← addAmount nValueOut o.nValue
  need (moneyRange nValueOut) (.bad 100 "bad-txns-txouttotal-toolarge")
  pure nValueOut

def checkNickname (nicks : Nicknames H) (blockhash : H) (checkdblnicks : Bool) (i : CTxIn H) :
    Res Unit := do
  need (decide (3 ≤ i.nickname.length)) (.invalid "Bad transaction: the nickname is too short.")
  need (decide (i.nickname.length ≤ 20)) (.invalid "Bad transaction: the nickname is too long.")
  need (i.nickname.all validCharacter)
    (.invalid "Bad transaction: the nickname contains invalid characters.")
  need (!(checkdblnicks && nicks.doesNicknameExist i.nickname &&
      decide (nicks.getHashForNickname i.nickname ≠ blockhash)))
    -- the source puts the nickname and the two block hashes into this text
    (.invalid "Bad transaction: the nickname already exists.")
  need i.address.isValid (.invalid "Bad transaction: the address is invalid.")
  need (!(i.nicknamehasviewkey && !i.viewpubkey.isValid))
    (.invalid "Bad transaction: the viewpubkey is invalid.")
  need (!(checkdblnicks && decide (0 < (nicks.getNicknameForAddress i.address).length) &&
      decide (nicks.getHashForAddress i.address ≠ blockhash) && !signedByMaster env i))
    (.invalid "Bad transaction: this address already has a nickname.")
  need (env.verify i.address (nicknameHash env i) i.nicknamesig || signedByMaster env i)
    (.invalid "Bad transaction: the signature for the nickname transaction is invalid.")

/-- the input rules of `CheckTransaction`: a coinbase has a short script, a transaction with an
input that spends a coin has no null outpoint -/
def checkVin (tx : CTransaction H) : Res Unit :=
  if tx.isCoinBase then
    each (fun i => need (decide (2 ≤ i.scriptSig.length) && decide (i.scriptSig.length ≤ 100))
      (.bad 100 "bad-cb-length")) tx.vin
  else if tx.isNick then .ok ()
  else each (fun i => need (!i.prevout.isNull) (.bad 10 "bad-txns-prevout-null")) tx.vin

def checkTransaction (nicks : Nicknames H) (tx : CTransaction H) (fCheckDuplicateInputs : Bool)
    (blockhash : H) (checkdblnicks : Bool) : Res Unit := do
  need (!tx.vin.isEmpty) (.bad 10 "Bad-txns-vin-empty")
  need (!tx.vout.isEmpty || tx.isNick) (.bad 10 "bad-txns-vout-empty")
  need (decide (tx.strippedSize * WITNESS_SCALE_FACTOR ≤ MAX_BLOCK_WEIGHT))
    (.bad 100 "bad-txns-oversize")
  let _ ← run checkOut 0 tx.vout
  need (!fCheckDuplicateInputs || tx.isNick || decide (tx.vin.map (·.prevout)).Nodup)
    (.bad 100 "bad-txns-inputs-duplicate")
  checkVin tx
  each (checkNickname env nicks blockhash checkdblnicks) (tx.vin.filter (·.isnickname))

/-! ## CheckTxInputs -/

def checkNicknameInput (nicks : Nicknames H) (blockhash : H) (usehash : Bool) (i : CTxIn H) :
    Res Unit := do
  need (decide (3 ≤ i.nickname.length)) (.invalid "Bad transaction: the nickname is too short.")
  need (decide (i.nickname.length ≤ 20)) (.invalid "Bad transaction: the nickname is too long.")
  need (i.nickname.all validCharacter)
    (.invalid "Bad transaction: the nickname contains invalid characters.")
  need (!(nicks.doesNicknameExist i.nickname &&
      (!usehash || decide (nicks.getHashForNickname i.nickname ≠ blockhash))))
    (.invalid "Bad transaction: the nickname already exists.")
  need i.address.isValid (.invalid "Bad transaction: the address is invalid.")
  need (!(decide (0 < (nicks.getNicknameForAddress i.address).length) &&
      (!usehash || decide (nicks.getHashForAddress i.address ≠ blockhash)) &&
      !signedByMaster env i))
    (.invalid "Bad transaction: this address already has a nickname.")
  need (env.verify i.address (nicknameHash env i) i.nicknamesig || signedByMaster env i)
    (.invalid "Bad transaction: the signature for the nickname transaction is invalid.")

/-- the accumulators of the input loop: the currency of the first coin, and the total -/
structure InputTotal where
  currency : Option UInt8
  nValueIn : Int
  deriving DecidableEq

def premature (nSpendHeight : Nat) (coin : Coin) : Bool :=
  coin.fCoinBase && decide ((nSpendHeight : Int) - coin.nHeight < COINBASE_MATURITY)

def checkCoin (nSpendHeight : Nat) (s : InputTotal) (coin : Coin) : Res InputTotal := do
  need (!coin.isSpent) (.fault .assertionFailed)
  need (!premature nSpendHeight coin) (.invalid "bad-txns-premature-spend-of-coinbase")
  let currency := s.currency.getD coin.spendCurrency
  need (currency == coin.spendCurrency) (.bad 100 "bad-txns-input-currencies-not-equal")
  let nValueIn ← addAmount s.nValueIn coin.nValue
  need (moneyRange coin.nValue && moneyRange nValueIn) (.bad 100 "bad-txns-inputvalues-outofrange")
  pure ⟨some currency, nValueIn⟩

structure InputContext (H : Type) where
  nicks : Nicknames H
  view : CCoinsViewCache H
  nSpendHeight : Nat
  blockhash : H
  usehash : Bool

def checkTxIn (ctx : InputContext H) (s : InputTotal) (i : CTxIn H) : Res InputTotal :=
  if i.isnickname then
    checkNicknameInput env ctx.nicks ctx.blockhash ctx.usehash i >>= fun _ => .ok s
  else checkCoin ctx.nSpendHeight s (ctx.view.accessCoin i.prevout)

def feePrice (block : Option (CBlockHeader H)) : Res Int :=
  match block with
  | some h => h.getPriceinCurrency 0
  | none => .ok env.getCachedPriceInformation

def convertFee (block : Option (CBlockHeader H)) (currency : UInt8) (txfee : Int) : Res Int :=
  if currency = 1 then feePrice env block >>= fun price => divAmount (txfee * COIN) price
  else .ok txfee

def checkTxInputs (ctx : InputContext H) (block : Option (CBlockHeader H)) (tx : CTransaction H) :
    Res Int := do
  need (ctx.view.haveInputs tx) (.bad 100 "bad-txns-inputs-missingorspent")
  let s ← run (checkTxIn env ctx) ⟨none, 0⟩ tx.vin
  let valueOut ← tx.getValueOut
  need (decide (valueOut ≤ s.nValueIn)) (.bad 100 "bad-txns-in-belowout")
  let txfee ← convertFee env block (s.currency.getD 0) (s.nValueIn - valueOut)
  need (moneyRange txfee) (.bad 100 "bad-txns-fee-outofrange")
  pure txfee

/-! ## what CheckTransaction says -/

theorem checkOut_ok {s s' : Int} {o : CTxOut} : checkOut s o = .ok s' ↔
      (o.currency < 2 ∧ o.referenceline.length ≤ 1000 ∧ moneyRange o.nValue) ∧
        moneyRange (s + o.nValue) ∧ s' = s + o.nValue := by
  have hmr : moneyRange o.nValue = true ↔ 0 ≤ o.nValue ∧ o.nValue ≤ MAX_MONEY := by
    rw [moneyRange, Bool.and_eq_true, decide_eq_true_iff, decide_eq_true_iff]
  simp only [checkOut, bind_ok, need_ok, exists_const, addAmount_ok, decide_eq_true_eq, pure_ok, hmr]
  constructor
  · rintro ⟨hc, hr, h0, hm, t, ⟨-, rfl⟩, ht, h⟩
    cases h
    exact ⟨⟨hc, hr, h0, hm⟩, ht, rfl⟩
  · rintro ⟨⟨hc, hr, h0, hm⟩, ht, rfl⟩
    exact ⟨hc, hr, h0, hm, _, ⟨moneyRange_fits ht, rfl⟩, ht, rfl⟩

theorem checkTransaction_ok {tx : CTransaction H} {dup dbl : Bool}
    (h : checkTransaction env nicks tx dup bh dbl = .ok ()) : tx.vin ≠ [] ∧ (tx.vout = [] → tx.isNick) ∧
      tx.strippedSize * WITNESS_SCALE_FACTOR ≤ MAX_BLOCK_WEIGHT ∧ (∃ t, run checkOut 0 tx.vout = .ok t) ∧
      (dup → tx.isNick = false → (tx.vin.map (·.prevout)).Nodup) ∧ checkVin tx = .ok () ∧
      each (checkNickname env nicks bh dbl) (tx.vin.filter (·.isnickname)) = .ok () := by
  simp only [checkTransaction, bind_ok, need_ok, exists_const] at h
  obtain ⟨hvin, hvout, hsize, t, ht, hdup, _, hcv, hnick⟩ := h
  refine ⟨?_, ?_, of_decide_eq_true hsize, ⟨t, ht⟩, ?_, hcv, hnick⟩
  · intro e; simp [e] at hvin
  · intro e; simpa [e] using hvout
  · intro hd hn; simpa [hd, hn] using hdup

variable {tx : CTransaction H}

theorem checkTransaction_outs {dup dbl : Bool} (h : checkTransaction env nicks tx dup bh dbl = .ok ()) :
    ∀ o ∈ tx.vout, o.currency < 2 ∧ moneyRange o.nValue := by
  obtain ⟨-, -, -, ⟨t, ht⟩, -⟩ := checkTransaction_ok env h
  have hrun := (run_sum_ok (f := CTxOut.nValue)
    (P := fun o => o.currency < 2 ∧ o.referenceline.length ≤ 1000 ∧ moneyRange o.nValue = true)
    (Q := fun x => moneyRange x = true) (fun _ _ _ => checkOut_ok)).1 ht
  exact fun o ho => ⟨(hrun.1 o ho).1, (hrun.1 o ho).2.2⟩

/-! ## what CheckTxInputs says -/

variable {s s' : InputTotal} {nSpendHeight : Nat} {coin : Coin}

theorem checkCoin_ok : checkCoin nSpendHeight s coin = .ok s' ↔
      coin.isSpent = false ∧ premature nSpendHeight coin = false ∧
      s.currency.getD coin.spendCurrency = coin.spendCurrency ∧
      moneyRange coin.nValue ∧ moneyRange (s.nValueIn + coin.nValue) ∧
      s' = ⟨some coin.spendCurrency, s.nValueIn + coin.nValue⟩ := by
  simp only [checkCoin, bind_ok, need_ok, exists_const, addAmount_ok, Bool.not_eq_true', beq_iff_eq,
    Bool.and_eq_true, pure_ok]
  constructor
  · rintro ⟨hs, hp, hc, t, ⟨-, rfl⟩, ⟨hv, ht⟩, h⟩
    cases h
    exact ⟨hs, hp, hc, hv, ht, by rw [hc]⟩
  · rintro ⟨hs, hp, hc, hv, ht, rfl⟩
    exact ⟨hs, hp, hc, _, ⟨moneyRange_fits ht, rfl⟩, ⟨hv, ht⟩, by rw [hc]⟩

def spentTotal (v : CCoinsViewCache H) (vin : List (CTxIn H)) : Int :=
  ((vin.filter fun i => !i.isnickname).map fun i => (v.accessCoin i.prevout).nValue).sum

variable {ctx : InputContext H} {block : Option (CBlockHeader H)} {l : List (CTxIn H)}

theorem checkTxIn_ok {i : CTxIn H} (h : checkTxIn env ctx s i = .ok s') : (i.isnickname ∧ s' = s) ∨
      (i.isnickname = false ∧ checkCoin ctx.nSpendHeight s (ctx.view.accessCoin i.prevout) = .ok s') := by
  unfold checkTxIn at h
  cases hn : i.isnickname with
  | true =>
    rw [hn, if_pos rfl, bind_ok] at h
    obtain ⟨-, -, h⟩ := h
    cases h
    exact .inl ⟨rfl, rfl⟩
  | false =>
    rw [hn] at h
    exact .inr ⟨rfl, h⟩

theorem inputLoop_ok (h : run (checkTxIn env ctx) s l = .ok s') :
    (∀ i ∈ l, i.isnickname = false → (ctx.view.accessCoin i.prevout).isSpent = false ∧
      s'.currency = some (ctx.view.accessCoin i.prevout).spendCurrency) ∧
      (∀ c, s.currency = some c → s'.currency = some c) ∧ s'.nValueIn = s.nValueIn + spentTotal ctx.view l := by
  induction l generalizing s with
  | nil =>
    cases h
    simp [spentTotal]
  | cons i l ih =>
    obtain ⟨t, hi, hl⟩ := run_cons_ok.1 h
    obtain ⟨hcoins, hkeep, htotal⟩ := ih hl
    rcases checkTxIn_ok env hi with ⟨hn, rfl⟩ | ⟨hn, hc⟩
    · refine ⟨?_, hkeep, ?_⟩
      · intro j hj hjn
        rcases mem_cons.1 hj with rfl | hj
        · rw [hn] at hjn; cases hjn
        · exact hcoins j hj hjn
      · rw [htotal, spentTotal, spentTotal, filter_cons_of_neg (by simp [hn])]
    · obtain ⟨hs, -, hcur, -, -, rfl⟩ := checkCoin_ok.1 hc
      refine ⟨?_, ?_, ?_⟩
      · intro j hj hjn
        rcases mem_cons.1 hj with rfl | hj
        · exact ⟨hs, hkeep _ rfl⟩
        · exact hcoins j hj hjn
      · intro c hsc
        rw [hsc, Option.getD_some] at hcur
        exact hkeep c (by rw [hcur])
      · rw [htotal, spentTotal, spentTotal, filter_cons_of_pos (by simp [hn]), map_cons,
          sum_cons, add_assoc]

theorem inputLoop_range (hs : moneyRange s.nValueIn) (h : run (checkTxIn env ctx) s l = .ok s') :
    moneyRange s'.nValueIn := by
  refine run_inv (fun t : InputTotal => moneyRange t.nValueIn = true) ?_ hs h
  intro t i t' _ ht hi
  rcases checkTxIn_ok env hi with ⟨-, rfl⟩ | ⟨-, hc⟩
  · exact ht
  · obtain ⟨-, -, -, -, hr, rfl⟩ := checkCoin_ok.1 hc
    exact hr

/-- the currency of the coins a transaction spends: that of the first one, BitCash without any -/
def inputCurrency (coins : COutPoint H → Coin) (tx : CTransaction H) : UInt8 :=
  match tx.coinInputs with
  | [] => 0
  | i :: _ => (coins i.prevout).spendCurrency

theorem inputCurrency_of_vin {a b : CTransaction H} (h : b.vin = a.vin) (coins : COutPoint H → Coin) :
    inputCurrency coins b = inputCurrency coins a := by
  rw [inputCurrency, coinInputs_of_vin h, inputCurrency]

theorem checkTxInputs_ok {txfee : Int} (h : checkTxInputs env ctx block tx = .ok txfee) : ctx.view.haveInputs tx ∧
      (∀ i ∈ tx.coinInputs, (ctx.view.accessCoin i.prevout).isSpent = false ∧
        (ctx.view.accessCoin i.prevout).spendCurrency = inputCurrency ctx.view.accessCoin tx) ∧
      (∃ valueOut, tx.getValueOut = .ok valueOut ∧ valueOut ≤ spentTotal ctx.view tx.vin ∧
        convertFee env block (inputCurrency ctx.view.accessCoin tx)
          (spentTotal ctx.view tx.vin - valueOut) = .ok txfee) ∧
      moneyRange (spentTotal ctx.view tx.vin) ∧ moneyRange txfee := by
  simp only [checkTxInputs, bind_ok, need_ok, exists_const] at h
  obtain ⟨hin, s, hs, valueOut, hv, hle, fee, hfee, hr, hret⟩ := h
  cases hret
  obtain ⟨hcoins, -, htotal⟩ := inputLoop_ok env hs
  rw [zero_add] at htotal
  have hmem : ∀ i ∈ tx.coinInputs, i ∈ tx.vin ∧ i.isnickname = false := fun i hi => mem_coinInputs.1 hi
  have hcur : s.currency.getD 0 = inputCurrency ctx.view.accessCoin tx := by
    unfold inputCurrency
    cases hci : tx.coinInputs with
    | nil =>
      have hnick : ∀ i ∈ tx.vin, i.isnickname := by
        simpa [coinInputs] using hci
      have : s.currency = none := by
        refine run_inv (fun t : InputTotal => t.currency = none) ?_ rfl hs
        intro t i t' hi ht hstep
        rcases checkTxIn_ok env hstep with ⟨-, rfl⟩ | ⟨hn, -⟩
        · exact ht
        · rw [hnick i hi] at hn; cases hn
      rw [this]; rfl
    | cons i l =>
      have hi := hmem i (by rw [hci]; exact mem_cons_self)
      rw [(hcoins i hi.1 hi.2).2]; rfl
  refine ⟨hin, ?_, ⟨valueOut, hv, ?_, ?_⟩, ?_, hr⟩
  · intro i hi
    obtain ⟨hunspent, hsome⟩ := hcoins i (hmem i hi).1 (hmem i hi).2
    refine ⟨hunspent, ?_⟩
    rw [← hcur, hsome, Option.getD_some]
  · rw [← htotal]; exact of_decide_eq_true hle
  · rw [← hcur, ← htotal]; exact hfee
  · rw [← htotal]; exact inputLoop_range env rfl hs

/-! ## when CheckTxInputs returns -/

def coinReadable (nSpendHeight : Nat) (s : InputTotal) (coin : Coin) : Prop :=
  coin.isSpent = false ∧ (premature nSpendHeight coin = true ∨
    s.currency.getD coin.spendCurrency ≠ coin.spendCurrency ∨
      fits64 (s.nValueIn + coin.nValue) = true)

theorem checkCoin_returns_iff : Returns (checkCoin nSpendHeight s coin) ↔ coinReadable nSpendHeight s coin := by
  unfold checkCoin coinReadable addAmount
  cases coin.isSpent with
  | true => simp [Stop.isVerdict]
  | false =>
    cases premature nSpendHeight coin with
    | true => simp
    | false =>
      by_cases hc : s.currency.getD coin.spendCurrency = coin.spendCurrency
      · by_cases hf : fits64 (s.nValueIn + coin.nValue) = true
        · simp only [hc, hf, beq_self_eq_true, Bool.not_false, need_true, ok_bind, if_true, or_true,
            and_true, iff_true]
          exact (returns_need _ rfl).bind fun _ _ => trivial
        · simp [hc, hf, Stop.isVerdict]
      · have hne : (s.currency.getD coin.spendCurrency == coin.spendCurrency) = false := by
          simpa using hc
        simp [hc, hne]

theorem checkNicknameInput_returns (nicks : Nicknames H) (bh : H) (usehash : Bool) (i : CTxIn H) :
    Returns (checkNicknameInput env nicks bh usehash i) := by
  unfold checkNicknameInput
  repeat refine (returns_need _ rfl).bind fun _ _ => ?_
  exact returns_need _ rfl

def CoinsReadable (ctx : InputContext H) (tx : CTransaction H) : Prop :=
  ∀ p i q s, tx.vin = p ++ i :: q → run (checkTxIn env ctx) ⟨none, 0⟩ p = .ok s →
    i.isnickname = false → coinReadable ctx.nSpendHeight s (ctx.view.accessCoin i.prevout)

def TotalsInRange (tx : CTransaction H) : Prop :=
  ∀ p, p <+: tx.vout → p ≠ [] → moneyRange (p.map (countedValue tx.isCoinBase)).sum = true

theorem inputLoop_returns_iff : Returns (run (checkTxIn env ctx) ⟨none, 0⟩ tx.vin) ↔ CoinsReadable env ctx tx := by
  rw [returns_run_iff]
  refine forall₅_congr fun p i q s _ => forall_congr' fun _ => ?_
  unfold checkTxIn
  cases i.isnickname with
  | true =>
    have h : Returns (checkNicknameInput env ctx.nicks ctx.blockhash ctx.usehash i >>= fun _ => .ok s) :=
      (checkNicknameInput_returns env ctx.nicks ctx.blockhash ctx.usehash i).bind fun _ _ => trivial
    simpa using h
  | false => simpa using checkCoin_returns_iff

theorem convertFee_returns {price : Int} {c : UInt8} {fee : Int}
    (hprice : feePrice env block = .ok price) (hpos : 0 < price) : Returns (convertFee env block c fee) := by
  unfold convertFee
  split
  · rw [hprice, ok_bind, divAmount_of_ne (by omega)]
    trivial
  · trivial

/-- **`CheckTxInputs` returns a verdict** on a checked transaction exactly when the input loop does
not overflow and, if it goes through, the running totals of `nValueBitCash` stay in the money
range -/
theorem checkTxInputs_returns_iff {nicks : Nicknames H} {tx : CTransaction H} {dup dbl : Bool}
    {bh : H} (hct : checkTransaction env nicks tx dup bh dbl = .ok ()) (ctx : InputContext H)
    (block : Option (CBlockHeader H)) {price : Int} (hprice : feePrice env block = .ok price) (hpos : 0 < price) :
    Returns (checkTxInputs env ctx block tx) ↔ (ctx.view.haveInputs tx = true → CoinsReadable env ctx tx ∧
        (∀ s, run (checkTxIn env ctx) ⟨none, 0⟩ tx.vin = .ok s → TotalsInRange tx)) := by
  have houts := fun o ho => (checkTransaction_outs env hct o ho).2
  unfold checkTxInputs
  cases hin : ctx.view.haveInputs tx with
  | false => simp
  | true =>
    rw [need_true, ok_bind, ← inputLoop_returns_iff]
    simp only [forall_const]
    cases hs : run (checkTxIn env ctx) ⟨none, 0⟩ tx.vin with
    | error e => simp
    | ok s =>
      simp only [ok_bind, returns_ok, true_and, Except.ok.injEq, forall_eq']
      cases hv : tx.getValueOut with
      | error e =>
        -- an exception or an overflow, so some running total is out of range
        have hbad : ¬ TotalsInRange tx := fun ht => by
          rw [getValueOut_ok.2 ⟨houts, ht, rfl⟩] at hv
          cases hv
        simp [hbad, getValueOut_error hv]
      | ok v =>
        have hgood : TotalsInRange tx := (getValueOut_ok.1 hv).2.1
        simp only [ok_bind, hgood, iff_true]
        refine (returns_need _ rfl).bind fun _ _ => ?_
        refine (convertFee_returns env hprice hpos).bind fun _ _ => ?_
        exact (returns_need _ rfl).bind fun _ _ => trivial

def tenUnits : CCoinsViewCache Digest :=
  .ofBase (fun o => if o = ⟨.atom 7, 0⟩ then some ⟨10, 10, [], 0, 1, false⟩ else none) default

def payBackTx : CTransaction Digest :=
  ⟨6, [.ofOutPoint ⟨.atom 7, 0⟩ []], [.of 0 (-1) [] 0], 0, by decide, by decide⟩

def payFourTx : CTransaction Digest :=
  ⟨6, [.ofOutPoint ⟨.atom 7, 0⟩ []], [.of 4 4 [] 0], 0, by decide, by decide⟩

def tenUnitsContext : InputContext Digest := ⟨.empty, tenUnits, 2, .atom 8, true⟩

/-- `CheckTransaction` accepts `payBackTx`, and `CheckTxInputs` throws -/
theorem checkTxInputs_throws : checkTransaction symEnv .empty payBackTx true default false = .ok () ∧
      feePrice symEnv (some (symHeader default default (pricesAt 5 5 (by decide)))) = .ok 5 ∧
      checkTxInputs symEnv tenUnitsContext
        (some (symHeader default default (pricesAt 5 5 (by decide)))) payBackTx =
          .error (.throws "GetValueOut: value out of range") := by
  decide

/-- four of ten units are paid, and a verdict comes back -/
theorem checkTxInputs_returns_payFour : Returns (checkTxInputs symEnv tenUnitsContext
      (some (symHeader default default (pricesAt 5 5 (by decide)))) payFourTx) := by
  refine (@checkTxInputs_returns_iff _ _ _ symEnv .empty payFourTx true false default (by decide)
    tenUnitsContext _ 5 (by decide) (by decide)).2 fun _ => ⟨?_, fun _ _ => ?_⟩
  · have hloop : run (checkTxIn symEnv tenUnitsContext) ⟨none, 0⟩ payFourTx.vin = .ok ⟨some 0, 10⟩ := by
      decide
    rw [← inputLoop_returns_iff, hloop]
    trivial
  · have hout : payFourTx.getValueOut = .ok 4 := by decide
    exact (getValueOut_ok.1 hout).2.1

end BitCash
