import Mathlib.Algebra.BigOperators.Ring.List
import Mathlib.Algebra.Order.BigOperators.Group.List
import BitCash.Mempool.Parents

/-!
# Amounts in a block template

`BlockAssembler::ConvertCurrenciesForBlockTemplate` of `miner.cpp` gives the outputs of a block template the amounts
that go with the prices in its header.

* `convertOuts`: the rewriting
-/

namespace BitCash
open Checks Machine List

variable {H : Type} [Inhabited H] [DecidableEq H]

def convertOut (p0 p1 : Int) (inputcurrency : UInt8) (o : CTxOut) : Res CTxOut :=
  wantedAmount p0 p1 inputcurrency false o >>= fun amount => .ok { o with nValue := amount }

def convertOuts (tip : CoinsMap H) (header : CBlockHeader H) (tx : CTransaction H) :
    Res (List CTxOut) := do
  let pricerate ← header.getPriceinCurrency 0
  let pricerate2 ← header.getPriceinCurrency 1
  collect (convertOut pricerate pricerate2 (inputCurrency (tipCoin tip) tx)) tx.vout

def exactAmount (p0 p1 : Int) (inputcurrency : UInt8) (o : CTxOut) : Int :=
  (requiredAmount p0 p1 inputcurrency o).getD o.nValue

theorem currency_eq_one {c : UInt8} (h : c < 2) (h0 : c ≠ 0) : c = 1 := by
  have hlt : c.toNat < 2 := UInt8.lt_iff_toNat_lt.1 h
  have hne : c.toNat ≠ 0 := fun e => h0 (UInt8.toNat_inj.1 e)
  exact UInt8.toNat_inj.1 (show c.toNat = 1 by omega)

section Amount
variable {p0 p1 : Int} {c : UInt8} {o : CTxOut}

theorem exactAmount_self (h : o.currency = c) : exactAmount p0 p1 c o = o.nValueBitCash := by
  rw [exactAmount, requiredAmount_self h, Option.getD_some]

theorem exactAmount_nonneg (hp0 : 0 < p0) (hp1 : 0 < p1) (hv : 0 ≤ o.nValue) (hx : 0 ≤ o.nValueBitCash) :
    0 ≤ exactAmount p0 p1 c o := by
  have hcoin : (0 : Int) < COIN := by decide
  unfold exactAmount requiredAmount
  split_ifs
  · exact hx
  · exact Int.tdiv_nonneg (Int.mul_nonneg hx hp1.le) hcoin.le
  · exact Int.tdiv_nonneg (Int.mul_nonneg hx hcoin.le) hp0.le
  · exact hv

theorem tdiv_mul_le_max {x n d : Int} (hx : 0 ≤ x) (hn : 0 < n) (hd : 0 < d) :
    (x * n).tdiv d * d ≤ x * max n d := by
  rw [Int.tdiv_eq_ediv_of_nonneg (Int.mul_nonneg hx hn.le)]
  exact (Int.ediv_mul_le _ hd.ne').trans (Int.mul_le_mul_of_nonneg_left (le_max_left n d) hx)

theorem exactAmount_buy_le (hp1 : 0 < p1) (ho : o.currency < 2) (hx : 0 ≤ o.nValueBitCash) :
    exactAmount p0 p1 0 o * COIN ≤ o.nValueBitCash * max p1 COIN := by
  by_cases h0 : o.currency = 0
  · rw [exactAmount_self h0]
    exact Int.mul_le_mul_of_nonneg_left (le_max_right p1 COIN) hx
  · have h1 : o.currency = 1 := currency_eq_one ho h0
    rw [exactAmount, requiredAmount, if_neg h0, if_pos ⟨rfl, h1⟩, Option.getD_some]
    exact tdiv_mul_le_max hx hp1 (by decide)

theorem exactAmount_sell_le (hp0 : 0 < p0) (ho : o.currency < 2) (hx : 0 ≤ o.nValueBitCash) :
    exactAmount p0 p1 1 o * p0 ≤ o.nValueBitCash * max COIN p0 := by
  by_cases h0 : o.currency = 0
  · rw [exactAmount, requiredAmount, if_neg (by rw [h0]; decide), if_neg fun h => absurd h.1 (by decide),
      if_pos ⟨rfl, h0⟩, Option.getD_some]
    exact tdiv_mul_le_max hx (by decide) hp0
  · rw [exactAmount_self (currency_eq_one ho h0)]
    exact Int.mul_le_mul_of_nonneg_left (le_max_right COIN p0) hx

theorem exactAmount_other (h0 : c ≠ 0) (h1 : c ≠ 1) (ho : o.currency < 2) : exactAmount p0 p1 c o = o.nValue := by
  have hc : o.currency ≠ c := by
    rintro rfl
    exact h1 (currency_eq_one ho h0)
  rw [exactAmount, requiredAmount, if_neg hc, if_neg fun h => h0 h.1, if_neg fun h => h1 h.1]
  rfl

theorem convertOut_of_fits (hp0 : p0 ≠ 0) (hfit : fits64 (exactAmount p0 p1 c o)) :
    convertOut p0 p1 c o = .ok { o with nValue := exactAmount p0 p1 c o } := by
  have hwant : wantedAmount p0 p1 c false o = .ok (exactAmount p0 p1 c o) := by
    by_cases ho : o.currency = c
    · rw [exactAmount_self ho]
      exact if_pos ho
    · unfold exactAmount at hfit ⊢
      cases ha : requiredAmount p0 p1 c o with
      | none => exact (wantedAmount_of_none false ha).1
      | some a =>
        rw [ha, Option.getD_some] at hfit
        exact wantedAmount_of_required hp0 ho ha hfit
  rw [convertOut, hwant, ok_bind]

end Amount

variable {env : Env H} {params : Params H} {penv : PoolEnv H}

theorem acceptToMemoryPool_ok {args : AcceptArgs} {a : ActiveChain H} {pool pool' : CTxMemPool H}
    {tx : CTransaction H} (h : acceptToMemoryPool env params penv args a pool tx = (.ok (), pool')) :
    ∃ entry all, entry.tx = tx ∧ Admitted env penv a pool entry all := by
  unfold acceptToMemoryPool at h
  cases hc : acceptChecks env params penv args a pool tx with
  | error e =>
    rw [hc] at h
    cases h
  | ok p => exact ⟨p.1, p.2, acceptChecks_ok hc⟩

/-! ## the rewritten outputs -/

/-- where a converted amount can be larger than `nValueBitCash`, the whole total stays in the money range
at that rate -/
def RateBounded (p0 p1 : Int) (c : UInt8) (total : Int) : Prop :=
  (c = 0 → COIN < p1 → total * p1 ≤ MAX_MONEY * COIN) ∧
    (c = 1 → p0 < COIN → total * COIN ≤ MAX_MONEY * p0)

instance (p0 p1 : Int) (c : UInt8) (total : Int) : Decidable (RateBounded p0 p1 c total) :=
  inferInstanceAs (Decidable ((_ → _ → _ ≤ _) ∧ (_ → _ → _ ≤ _)))

theorem sum_le_of_rate {f g : CTxOut → Int} {vout : List CTxOut} {n d : Int} (hd : 0 < d)
    (hle : ∀ o ∈ vout, f o * d ≤ g o * max n d) (htotal : (vout.map g).sum ≤ MAX_MONEY)
    (hrate : d < n → (vout.map g).sum * n ≤ MAX_MONEY * d) : (vout.map f).sum ≤ MAX_MONEY := by
  have hsum : (vout.map f).sum * d ≤ (vout.map g).sum * max n d := by
    rw [← sum_map_mul_right, ← sum_map_mul_right]
    exact sum_le_sum hle
  refine Int.le_of_mul_le_mul_right (hsum.trans ?_) hd
  rcases le_or_gt n d with h | h
  · rw [max_eq_right h]
    exact Int.mul_le_mul_of_nonneg_right htotal hd.le
  · rw [max_eq_left h.le]
    exact hrate h

theorem exactAmounts_inRange {vout : List CTxOut} {p0 p1 : Int} {c : UInt8} (hp0 : 0 < p0) (hp1 : 0 < p1)
    (hcur : ∀ o ∈ vout, o.currency < 2) (hvalues : amountsInRange vout)
    (htotal : (vout.map (·.nValueBitCash)).sum ≤ MAX_MONEY)
    (hrate : RateBounded p0 p1 c (vout.map (·.nValueBitCash)).sum) (hnn : ∀ o ∈ vout, 0 ≤ o.nValueBitCash) :
    (∀ o ∈ vout, 0 ≤ exactAmount p0 p1 c o) ∧ (vout.map (exactAmount p0 p1 c)).sum ≤ MAX_MONEY := by
  refine ⟨fun o ho => exactAmount_nonneg hp0 hp1 (hvalues.1 o ho) (hnn o ho), ?_⟩
  by_cases h0 : c = 0
  · subst h0
    exact sum_le_of_rate (by decide) (fun o ho => exactAmount_buy_le hp1 (hcur o ho) (hnn o ho)) htotal
      (hrate.1 rfl)
  · by_cases h1 : c = 1
    · subst h1
      exact sum_le_of_rate hp0 (fun o ho => exactAmount_sell_le hp0 (hcur o ho) (hnn o ho)) htotal
        (hrate.2 rfl)
    · -- inputs in neither currency: the outputs keep the amounts they were accepted with
      rw [map_congr_left fun o ho => exactAmount_other h0 h1 (hcur o ho)]
      exact hvalues.2

/-- what acceptance says of the outputs: their fields are checked, and the total of `nValueBitCash` is
covered by the coins spent -/
theorem Admitted.outputs {a : ActiveChain H} {pool : CTxMemPool H} {entry : CTxMemPoolEntry H} {all : List H}
    (h : Admitted env penv a pool entry all) :
    (∀ o ∈ entry.tx.vout, o.currency < 2 ∧ o.referenceline.length ≤ 1000) ∧ amountsInRange entry.tx.vout ∧
      (entry.tx.vout.map (·.nValueBitCash)).sum ≤ MAX_MONEY := by
  obtain ⟨-, -, -, hchecked, -⟩ := checkTransaction_ok env h.checked
  obtain ⟨hfields, hrange⟩ := run_checkOut_iff.1 hchecked
  obtain ⟨-, -, ⟨valueOut, hv, hle, -⟩, hspent, -⟩ := checkTxInputs_ok env h.fee
  obtain ⟨-, -, rfl⟩ := getValueOut_ok.1 hv
  rw [h.notCoinBase] at hle
  exact ⟨hfields, hrange, hle.trans (moneyRange_iff.1 hspent).2⟩

def overChildTx : CTransaction Digest :=
  ⟨6, [.ofOutPoint ⟨parentTx.getHash symEnv, 0⟩ []], [.of 5 6 [] 1, .of 0 (-1) [] 1], 0, .refl true, rfl⟩

def offerOnParent (tx : CTransaction Digest) : Res Unit × CTxMemPool Digest :=
  acceptToMemoryPool symEnv symParams openPool ⟨false, 0, false⟩ parentMined.chain
    parentMined.pool tx

def halfDollarHeader : CBlockHeader Digest := symHeader default default halfDollar

end BitCash
