import Mathlib.Algebra.Order.Ring.Abs
import BitCash.Ledger.Coinbase
import BitCash.Miner.Template

/-!
# Conversions stored in 64 bits

`CheckTxInputs`, `GetValueOutInCurrency` and the miner's `CalculateFeesForBlock` convert with a 128-bit quotient
that they store in a `CAmount` before any range test.
-/

namespace BitCash
open Checks Machine Bool

variable {H : Type} [Inhabited H] [DecidableEq H]

/-! ## the conversions in their routines -/

def feeBefore (env : Env H) (ctx : InputContext H) (tx : CTransaction H) : Res (UInt8 × Int) := do
  need (ctx.view.haveInputs tx) (.bad 100 "bad-txns-inputs-missingorspent")
  let s ← run (checkTxIn env ctx) ⟨none, 0⟩ tx.vin
  let valueOut ← tx.getValueOut
  need (decide (valueOut ≤ s.nValueIn)) (.bad 100 "bad-txns-in-belowout")
  pure (s.currency.getD 0, s.nValueIn - valueOut)

def feeInRange (txfee : Int) : Res Int :=
  need (moneyRange txfee) (.bad 100 "bad-txns-fee-outofrange") >>= fun _ => pure txfee

def minerFee (tip : CoinsMap H) (tx : CTransaction H) : Res (UInt8 × Int) := do
  let s ← run (calculateFeeIn tip) (0, 0) tx.vin
  let value_out ← tx.getValueOut
  let txfee_aux ← addAmount s.2 (-value_out)
  pure (s.1, txfee_aux)

variable {env : Env H} {block : Option (CBlockHeader H)} {tx : CTransaction H} {ctx : InputContext H} {q : Int}

theorem checkTxInputs_eq (ctx : InputContext H) (block : Option (CBlockHeader H)) (tx : CTransaction H) :
    checkTxInputs env ctx block tx =
      feeBefore env ctx tx >>= fun p => convertFee env block p.1 p.2 >>= feeInRange := by
  unfold checkTxInputs feeBefore feeInRange
  simp only [bind_assoc, pure_bind]

theorem calculateFee_eq (tip : CoinsMap H) (header : CBlockHeader H) (nFees : Int) (tx : CTransaction H) :
    calculateFee env tip header nFees tx =
      minerFee tip tx >>= fun p => convertFee env (some header) p.1 p.2 >>= addAmount nFees := by
  unfold calculateFee minerFee
  simp only [bind_assoc, pure_bind]

theorem getValueOut_range {v : Int} (h : tx.getValueOut = .ok v) : moneyRange v := by
  obtain ⟨-, hsum, rfl⟩ := getValueOut_ok.1 h
  by_cases hne : tx.vout = []
  · rw [hne]
    rfl
  · exact hsum tx.vout List.prefix_rfl hne

theorem feeBefore_range {c : UInt8} {a : Int} (h : feeBefore env ctx tx = .ok (c, a)) : moneyRange a := by
  simp only [feeBefore, bind_ok, need_ok, exists_const, pure_ok, decide_eq_true_eq] at h
  obtain ⟨-, s, hs, v, hv, hle, h⟩ := h
  cases h
  have hin := moneyRange_iff.1 (inputLoop_range env rfl hs)
  have hout := moneyRange_iff.1 (getValueOut_range hv)
  rw [moneyRange_iff]
  omega

/-! ## exact or turned down -/

def Rejects {α : Type} : Res α → Prop
  | .ok _ => False
  | .error (.fault _) => False
  | .error _ => True

def exactFee (price : Int) (currency : UInt8) (a : Int) : Int :=
  if currency = 1 then (a * COIN).tdiv price else a

def exactValue (currency : UInt8) (price : Int) (o : CTxOut) : Int :=
  if currency = 1 ∧ o.currency = 0 then (o.nValue * price).tdiv COIN
  else if currency = 0 ∧ o.currency = 1 then (o.nValue * COIN).tdiv price
  else o.nValue

def FeeFits (price : Int) (currency : UInt8) (a : Int) : Prop :=
  currency = 1 → a * COIN < 2 ^ 63 * price

def ValueFits (currency : UInt8) (price : Int) (o : CTxOut) : Prop :=
  (currency = 1 ∧ o.currency = 0 → o.nValue * price < 2 ^ 63 * COIN) ∧
    (currency = 0 ∧ o.currency = 1 → o.nValue * COIN < 2 ^ 63 * price)

def Caught (total q : Int) : Prop :=
  MAX_MONEY < total + q % 2 ^ 64 ∧ (2 ^ 63 ≤ q % 2 ^ 64 ∨ total + q % 2 ^ 64 < 2 ^ 63)

instance (total q : Int) : Decidable (Caught total q) := by
  unfold Caught
  infer_instance

/-! ## one conversion -/

theorem tdiv_lt_iff {a b : Int} (ha : 0 ≤ a) (hb : 0 < b) : a.tdiv b < 2 ^ 63 ↔ a < 2 ^ 63 * b := by
  rw [Int.tdiv_eq_ediv_of_nonneg ha]
  exact Int.ediv_lt_iff_lt_mul hb

theorem narrow64_eq_iff_lt (hq : 0 ≤ q) : narrow64 q = q ↔ q < 2 ^ 63 := by
  rw [narrow64_eq_iff, fits64_iff]
  omega

theorem addAmount_narrow64 {s q : Int} (hs : moneyRange s) {e : Stop} (he : ∀ f, e ≠ .fault f) :
    Rejects (addAmount s (narrow64 q) >>= fun t =>
      need (moneyRange (narrow64 q) && moneyRange t) e >>= fun _ => pure t) ↔ Caught s q := by
  have hrange := narrow64_emod q
  rw [moneyRange_iff] at hs
  unfold addAmount Caught
  by_cases hfit : fits64 (s + narrow64 q) = true
  · rw [if_pos hfit, ok_bind]
    rw [fits64_iff] at hfit
    by_cases hmr : (moneyRange (narrow64 q) && moneyRange (s + narrow64 q)) = true
    · rw [hmr]
      rw [and_eq_true, moneyRange_iff, moneyRange_iff] at hmr
      refine iff_of_false id ?_
      unfold MAX_MONEY COIN
      omega
    · rw [not_eq_true] at hmr
      rw [hmr]
      have hrej : Rejects (need false e >>= fun _ => pure (s + narrow64 q)) := by
        cases e with
        | reject r => trivial
        | throws w => trivial
        | fault f => exact absurd rfl (he f)
      refine iff_of_true hrej ?_
      rw [and_eq_false_iff, ← not_eq_true, ← not_eq_true, moneyRange_iff, moneyRange_iff] at hmr
      unfold MAX_MONEY COIN
      omega
  · rw [if_neg hfit]
    rw [fits64_iff] at hfit
    refine iff_of_false id ?_
    unfold MAX_MONEY COIN
    omega

section Fee
variable {price a : Int} {c : UInt8}

theorem exactFee_spec (hp : 0 < price) (ha : moneyRange a) :
    0 ≤ exactFee price c a ∧ (exactFee price c a < 2 ^ 63 ↔ FeeFits price c a) := by
  have hnn : 0 ≤ a * COIN := mul_nonneg (moneyRange_iff.1 ha).1 (by decide)
  rw [moneyRange_iff] at ha
  unfold exactFee FeeFits
  by_cases hc : c = 1
  · rw [if_pos hc, tdiv_lt_iff hnn hp]
    exact ⟨Int.tdiv_nonneg hnn hp.le, fun h _ => h, fun h => h hc⟩
  · rw [if_neg hc]
    exact ⟨ha.1, fun _ h => absurd h hc, fun _ => by omega⟩

theorem convertFee_eq (hprice : feePrice env block = .ok price)
    (hp : 0 < price) (ha : moneyRange a) : convertFee env block c a = .ok (narrow64 (exactFee price c a)) := by
  unfold convertFee exactFee
  by_cases hc : c = 1
  · rw [if_pos hc, if_pos hc, hprice, ok_bind, divAmount_of_ne (by omega)]
  · rw [if_neg hc, if_neg hc, narrow64_of_fits (moneyRange_fits ha)]

theorem convertFee_exact_iff (hprice : feePrice env block = .ok price) (hp : 0 < price) (ha : moneyRange a) :
    convertFee env block c a = .ok (exactFee price c a) ↔ FeeFits price c a := by
  obtain ⟨hnn, hlt⟩ := @exactFee_spec price a c hp ha
  rw [convertFee_eq hprice hp ha, Except.ok.injEq, narrow64_eq_iff_lt hnn, hlt]

theorem feeInRange_rejects_iff : Rejects (feeInRange (narrow64 q)) ↔ Caught 0 q := by
  have hadd : addAmount 0 (narrow64 q) = .ok (narrow64 q) := by
    rw [addAmount_ok, zero_add]
    exact ⟨narrow64_fits q, rfl⟩
  have hrej := @addAmount_narrow64 0 q rfl (.bad 100 "bad-txns-fee-outofrange") (fun f h => nomatch h)
  rwa [hadd, ok_bind, Bool.and_self] at hrej

end Fee

section Value
variable {price : Int} {c : UInt8} {o : CTxOut}

theorem exactValue_spec (hp : 0 < price) (ho : moneyRange o.nValue) :
    0 ≤ exactValue c price o ∧ (exactValue c price o < 2 ^ 63 ↔ ValueFits c price o) := by
  rw [moneyRange_iff] at ho
  have hbuy : 0 ≤ o.nValue * price := mul_nonneg ho.1 hp.le
  have hsell : 0 ≤ o.nValue * COIN := mul_nonneg ho.1 (by decide)
  unfold exactValue ValueFits
  by_cases h1 : c = 1 ∧ o.currency = 0
  · have h0 : ¬ (c = 0 ∧ o.currency = 1) := fun h => by
      rw [h1.1] at h
      exact absurd h.1 (by decide)
    rw [if_pos h1, tdiv_lt_iff hbuy (by decide)]
    exact ⟨Int.tdiv_nonneg hbuy (by decide), fun h => ⟨fun _ => h, fun e => absurd e h0⟩, fun h => h.1 h1⟩
  · rw [if_neg h1]
    by_cases h0 : c = 0 ∧ o.currency = 1
    · rw [if_pos h0, tdiv_lt_iff hsell hp]
      exact ⟨Int.tdiv_nonneg hsell hp.le, fun h => ⟨fun e => absurd e h1, fun _ => h⟩, fun h => h.2 h0⟩
    · rw [if_neg h0]
      exact ⟨ho.1, fun _ => ⟨fun e => absurd e h1, fun e => absurd e h0⟩, fun _ => by omega⟩

theorem valueInCurrency_eq (hp : 0 < price) (ho : moneyRange o.nValue) :
    valueInCurrency c price o = .ok (narrow64 (exactValue c price o)) := by
  unfold valueInCurrency exactValue
  split
  · exact divAmount_of_ne (by decide)
  · split
    · exact divAmount_of_ne (by omega)
    · rw [narrow64_of_fits (moneyRange_fits ho)]

theorem valueInCurrencyStep_rejects_iff {s : Int} (hp : 0 < price) (ho : moneyRange o.nValue)
    (hs : moneyRange s) : Rejects (valueInCurrencyStep c price s o) ↔ Caught s (exactValue c price o) := by
  unfold valueInCurrencyStep
  rw [valueInCurrency_eq hp ho, ok_bind]
  exact addAmount_narrow64 hs fun f h => nomatch h

end Value

/-! ## the three conversions -/

def ExactOr {α : Type} (converted : Res Int) (quotient : Int) (routine : Res α) : Prop :=
  converted = .ok quotient ∨ Rejects routine

theorem checkTxInputs_exact_iff {price a : Int} {c : UInt8} (hp : 0 < price)
    (hprice : feePrice env block = .ok price) (hfee : feeBefore env ctx tx = .ok (c, a)) :
    ExactOr (convertFee env block c a) (exactFee price c a) (checkTxInputs env ctx block tx) ↔
      FeeFits price c a ∨ Caught 0 (exactFee price c a) := by
  have ha := feeBefore_range hfee
  have hrej : Rejects (checkTxInputs env ctx block tx) ↔ Caught 0 (exactFee price c a) := by
    rw [checkTxInputs_eq, hfee, ok_bind, convertFee_eq hprice hp ha, ok_bind]
    exact feeInRange_rejects_iff
  unfold ExactOr
  rw [convertFee_exact_iff hprice hp ha, hrej]

theorem valueStep_exact_iff {price s : Int} {c : UInt8} {o : CTxOut} (hp : 0 < price)
    (hs : moneyRange s) (ho : moneyRange o.nValue) :
    ExactOr (valueInCurrency c price o) (exactValue c price o) (valueInCurrencyStep c price s o) ↔
      ValueFits c price o ∨ Caught s (exactValue c price o) := by
  obtain ⟨hnn, hlt⟩ := @exactValue_spec price c o hp ho
  unfold ExactOr
  rw [valueInCurrencyStep_rejects_iff hp ho hs, valueInCurrency_eq hp ho, Except.ok.injEq,
    narrow64_eq_iff_lt hnn, hlt]

theorem calculateFee_exact_iff {price a nFees : Int} {c : UInt8} (hp : 0 < price) {tip : CoinsMap H}
    {header : CBlockHeader H} (hprice : header.getPriceinCurrency 0 = .ok price)
    (hfee : minerFee tip tx = .ok (c, a)) (ha : moneyRange a) :
    ExactOr (convertFee env (some header) c a) (exactFee price c a)
        (calculateFee env tip header nFees tx) ↔ FeeFits price c a := by
  have hprice' : feePrice env (some header) = .ok price := hprice
  have hrej : ¬ Rejects (calculateFee env tip header nFees tx) := by
    rw [calculateFee_eq, hfee, ok_bind, convertFee_eq hprice' hp ha, ok_bind]
    unfold addAmount
    split
    · exact id
    · exact id
  unfold ExactOr
  rw [convertFee_exact_iff hprice' hp ha]
  exact or_iff_left hrej

/-- **exact or turned down**: the conversions of `CheckTxInputs` and of `GetValueOutInCurrency` are
exact or rejected exactly when the quotient is below `2 ^ 63` or its low bits are out of range, that of
the miner exactly when the quotient is below `2 ^ 63` -/
theorem conversions_exact_iff (env : Env H) {price : Int} (hp : 0 < price) :
    (∀ (ctx : InputContext H) (block : Option (CBlockHeader H)) (tx : CTransaction H) (c : UInt8)
      (a : Int), feePrice env block = .ok price → feeBefore env ctx tx = .ok (c, a) →
      (ExactOr (convertFee env block c a) (exactFee price c a) (checkTxInputs env ctx block tx) ↔
        FeeFits price c a ∨ Caught 0 (exactFee price c a))) ∧
    (∀ (c : UInt8) (s : Int) (o : CTxOut), moneyRange s = true → moneyRange o.nValue = true →
      (ExactOr (valueInCurrency c price o) (exactValue c price o) (valueInCurrencyStep c price s o) ↔
        ValueFits c price o ∨ Caught s (exactValue c price o))) ∧
    (∀ (tip : CoinsMap H) (header : CBlockHeader H) (nFees : Int) (tx : CTransaction H) (c : UInt8)
      (a : Int), header.getPriceinCurrency 0 = .ok price → minerFee tip tx = .ok (c, a) → moneyRange a = true →
      (ExactOr (convertFee env (some header) c a) (exactFee price c a)
          (calculateFee env tip header nFees tx) ↔ FeeFits price c a)) := by
  refine ⟨?_, ?_, ?_⟩
  · intro ctx block tx c a hprice hfee
    exact checkTxInputs_exact_iff hp hprice hfee
  · intro c s o hs ho
    exact valueStep_exact_iff hp hs ho
  · intro tip header nFees tx c a hprice hfee ha
    exact calculateFee_exact_iff hp hprice hfee ha

def dollarsAt (nValue : Int) : CoinsMap Digest := fun o =>
  if o = ⟨.atom 7, 0⟩ then some ⟨nValue, nValue, [], 1, 1, false⟩ else none

def dollarsContext (nValue : Int) : InputContext Digest :=
  ⟨.empty, .ofBase (dollarsAt nValue) default, 1, default, false⟩

def allFeeTx : CTransaction Digest := spendTen [.of 0 0 [] 1] (by decide)

def headerAt (price : Int) (h : (fits64 price && fits64 price) = true) : CBlockHeader Digest :=
  symHeader default default (pricesAt price price h)

/-- **at half a cent** 92233720.368547759 Dollars are worth 184 units of BitCash, as a fee, in a
coinbase and to the miner; the quotient is 18446744073709551800 -/
theorem conversion_wraps : moneyRange 92233720368547759 = true ∧
      exactFee 5000000 1 92233720368547759 = 18446744073709551800 ∧
      exactValue 0 5000000 (.of 92233720368547759 92233720368547759 [] 1) = 18446744073709551800 ∧
      (headerAt 5000000 (by decide)).getPriceinCurrency 0 = .ok 5000000 ∧
      feeBefore symEnv (dollarsContext 92233720368547759) allFeeTx = .ok (1, 92233720368547759) ∧
      minerFee (dollarsAt 92233720368547759) allFeeTx = .ok (1, 92233720368547759) ∧
      checkTxInputs symEnv (dollarsContext 92233720368547759)
        (some (headerAt 5000000 (by decide))) allFeeTx = .ok 184 ∧
      (symCoinbase [.of 92233720368547759 92233720368547759 [] 1]
        (by decide)).getValueOutInCurrency 0 5000000 = .ok 184 ∧
      calculateFee symEnv (dollarsAt 92233720368547759) (headerAt 5000000 (by decide)) 0 allFeeTx = .ok 184 := by
  decide

/-- the three conversions at the same price for ten Dollars -/
theorem conversions_exact_ten : ExactOr (convertFee symEnv (some (headerAt 5000000 (by decide))) 1 10000000000)
        (exactFee 5000000 1 10000000000) (checkTxInputs symEnv (dollarsContext 10000000000)
          (some (headerAt 5000000 (by decide))) allFeeTx) ∧
      ExactOr (valueInCurrency 0 5000000 (.of 10000000000 10000000000 [] 1))
        (exactValue 0 5000000 (.of 10000000000 10000000000 [] 1))
        (valueInCurrencyStep 0 5000000 0 (.of 10000000000 10000000000 [] 1)) ∧
      ExactOr (convertFee symEnv (some (headerAt 5000000 (by decide))) 1 10000000000)
        (exactFee 5000000 1 10000000000)
        (calculateFee symEnv (dollarsAt 10000000000) (headerAt 5000000 (by decide)) 0 allFeeTx) := by
  obtain ⟨hfee, hvalue, hminer⟩ := conversions_exact_iff symEnv (show (0 : Int) < 5000000 by decide)
  refine ⟨?_, ?_, ?_⟩
  · refine (hfee _ _ allFeeTx 1 10000000000 (by decide) (by decide)).2 (.inl fun _ => ?_)
    decide
  · refine (hvalue 0 0 _ (by decide) (by decide)).2 (.inl ⟨fun h => ?_, fun _ => by decide⟩)
    exact absurd h.1 (by decide)
  · refine (hminer _ _ 0 allFeeTx 1 10000000000 (by decide) (by decide) (by decide)).2 fun _ => ?_
    decide

end BitCash
