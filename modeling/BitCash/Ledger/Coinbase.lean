import Mathlib.Algebra.Order.BigOperators.Group.List
import BitCash.Ledger.Conversion

/-!
# What a coinbase is worth

`ConnectBlock` counts a Dollar output of the coinbase at the price of the block (`rewardValue`), while
`CheckTxInputs` counts every coinbase coin at its face, as BitCash.
-/

namespace BitCash
open Checks Machine List

variable {H : Type} [Inhabited H] [DecidableEq H] {env : Env H} {params : Params H} {nHeight : Nat} {o : CTxOut}

/-! ## the two ways to count -/

def rewardValue (p0 : Int) (o : CTxOut) : Int :=
  if o.currency = 1 then narrow64 ((o.nValue * COIN).tdiv p0) else o.nValue

def spendable (o : CTxOut) : Bool := !isUnspendable o.scriptPubKey

def spendsAll (env : Env H) (tx : CTransaction H) : List (CTxIn H) :=
  (tx.vout.zipIdx.filter fun e => spendable e.1).map fun e =>
    CTxIn.ofOutPoint ⟨tx.getHash env, UInt32.ofNat e.2⟩ []

def HasCoins (env : Env H) (v : CCoinsViewCache H) (cb : CTransaction H) (nHeight : Nat) : Prop :=
  ∀ e ∈ cb.vout.zipIdx, spendable e.1 = true →
    v.accessCoin ⟨cb.getHash env, UInt32.ofNat e.2⟩ = Coin.ofOut e.1 nHeight true

instance (env : Env H) (v : CCoinsViewCache H) (cb : CTransaction H) (nHeight : Nat) :
    Decidable (HasCoins env v cb nHeight) :=
  inferInstanceAs (Decidable (∀ e ∈ cb.vout.zipIdx, spendable e.1 = true → _ = _))

theorem sum_zipIdx_filter (f : CTxOut → Int) (p : CTxOut → Bool) (l : List CTxOut) (n : Nat) :
    (((l.zipIdx n).filter fun e => p e.1).map fun e => f e.1).sum = ((l.filter p).map f).sum := by
  induction l generalizing n with
  | nil => rfl
  | cons o l ih =>
    rw [zipIdx_cons]
    cases hp : p o with
    | true => simp only [filter_cons, hp, if_true, map_cons, sum_cons, ih]
    | false => simp only [filter_cons, hp, Bool.false_eq_true, if_false, ih]

theorem spentTotal_spendsAll {v : CCoinsViewCache H} {cb : CTransaction H} (hv : HasCoins env v cb nHeight) :
    spentTotal v (spendsAll env cb) = ((cb.vout.filter spendable).map (·.nValue)).sum := by
  have hnick : (spendsAll env cb).filter (fun i => !i.isnickname) = spendsAll env cb := by
    rw [filter_eq_self]
    intro i hi
    obtain ⟨e, -, rfl⟩ := mem_map.1 hi
    rfl
  rw [spentTotal, hnick, spendsAll, map_map, ← sum_zipIdx_filter (·.nValue) spendable cb.vout 0]
  refine congrArg sum (map_congr_left fun e he => ?_)
  rw [mem_filter] at he
  show (v.accessCoin ⟨cb.getHash env, UInt32.ofNat e.2⟩).nValue = e.1.nValue
  rw [hv e he.1 he.2]
  rfl

/-! ## the reward check -/

theorem valueInCurrency_ok {p0 a : Int} (h : valueInCurrency 0 p0 o = .ok a) : a = rewardValue p0 o := by
  unfold valueInCurrency at h
  unfold rewardValue
  rw [if_neg (by simp)] at h
  by_cases hc : o.currency = 1
  · rw [if_pos ⟨rfl, hc⟩] at h
    rw [if_pos hc]
    exact (divAmount_ok.1 h).2
  · rw [if_neg fun e => hc e.2] at h
    rw [if_neg hc]
    exact (Except.ok.inj h).symm

theorem getValueOutInCurrency_ok {p0 v : Int} {tx : CTransaction H} (h : tx.getValueOutInCurrency 0 p0 = .ok v) :
    v = (tx.vout.map (rewardValue p0)).sum ∧ ∀ o ∈ tx.vout, 0 ≤ rewardValue p0 o := by
  have key : ∀ (l : List CTxOut) (s : Int), run (valueInCurrencyStep 0 p0) s l = .ok v →
      v = s + (l.map (rewardValue p0)).sum ∧ ∀ o ∈ l, 0 ≤ rewardValue p0 o := by
    intro l
    induction l with
    | nil =>
      intro s hs
      cases hs
      simp
    | cons o l ih =>
      intro s hs
      obtain ⟨t, ho, hl⟩ := run_cons_ok.1 hs
      simp only [valueInCurrencyStep, bind_ok, need_ok, exists_const, addAmount_ok, Bool.and_eq_true, pure_ok] at ho
      obtain ⟨a, ha, t', ⟨-, rfl⟩, ⟨hr, -⟩, hret⟩ := ho
      cases hret
      obtain rfl := valueInCurrency_ok ha
      obtain ⟨rfl, hnn⟩ := ih _ hl
      refine ⟨by rw [map_cons, sum_cons]; omega, fun p hp => ?_⟩
      rcases mem_cons.1 hp with rfl | hp
      · exact (moneyRange_iff.1 hr).1
      · exact hnn p hp
  obtain ⟨hv, hnn⟩ := key tx.vout 0 h
  exact ⟨by rw [hv, zero_add], hnn⟩

def rewardAt (params : Params H) (nHeight : Nat) (nFees : Int) : Int :=
  getBlockSubsidy params nHeight + getBlockSubsidyDevs params nHeight + nFees

theorem checkReward_ok {block : CBlock H} {cb : CTransaction H} {rest : List (CTransaction H)} {nFees p0 : Int}
    (hvtx : block.vtx = cb :: rest)
    (hp0 : block.getPriceinCurrency 0 = .ok p0) (h : checkReward params block nHeight nFees = .ok ()) :
    (cb.vout.map (rewardValue p0)).sum ≤ rewardAt params nHeight nFees ∧ ∀ o ∈ cb.vout, 0 ≤ rewardValue p0 o := by
  rw [checkReward, hvtx] at h
  simp only [hp0, ok_bind, bind_ok, need_ok, decide_eq_true_eq] at h
  obtain ⟨v, hv, hle⟩ := h
  obtain ⟨rfl, hnn⟩ := getValueOutInCurrency_ok hv
  exact ⟨by unfold rewardAt; omega, hnn⟩

theorem le_rewardValue {p0 : Int} (hpos : 0 < p0) (hle : p0 ≤ COIN)
    (hnn : 0 ≤ o.nValue) (hfit : fits64 ((o.nValue * COIN).tdiv p0)) : o.nValue ≤ rewardValue p0 o := by
  unfold rewardValue
  split
  · have hmul : o.nValue * p0 ≤ o.nValue * COIN := mul_le_mul_of_nonneg_left hle hnn
    rw [narrow64_of_fits hfit, Int.tdiv_eq_ediv_of_nonneg (mul_nonneg hnn (by decide))]
    exact (Int.le_ediv_iff_mul_le hpos).2 hmul
  · exact le_refl _

section Accepted
variable {block : CBlock H} {tip : CoinsMap H} {undoPos : Res Nat} {s t : ConnectState H}
  {c : ConnectLoop H} {cb : CTransaction H} {rest : List (CTransaction H)} {p0 : Int}

theorem coinValues_le_rewardValues {vout : List CTxOut} (hnn : ∀ o ∈ vout, 0 ≤ rewardValue p0 o)
    (hcount : ∀ o ∈ vout, o.currency = 1 → o.nValue ≤ rewardValue p0 o) :
    ((vout.filter spendable).map (·.nValue)).sum ≤ (vout.map (rewardValue p0)).sum := by
  calc ((vout.filter spendable).map (·.nValue)).sum
      ≤ ((vout.filter spendable).map (rewardValue p0)).sum := by
        refine sum_le_sum fun o ho => ?_
        by_cases hc : o.currency = 1
        · exact hcount o (mem_filter.1 ho).1 hc
        · rw [rewardValue, if_neg hc]
    _ ≤ (vout.map (rewardValue p0)).sum := by
        -- an output that cannot be spent is no coin, but it is counted, and not below zero
        refine (List.Sublist.map _ filter_sublist).sum_le_sum fun x hx => ?_
        obtain ⟨o, ho, rfl⟩ := List.mem_map.1 hx
        exact hnn o ho

/-- **what a coinbase brings when it is spent** stays within the reward of its block, in every run of
the input loop of `CheckTxInputs` over its coins, if `ConnectBlock` counts no Dollar output of it below
its face; at a price of at most one it counts none so (`le_rewardValue`) -/
theorem coinbase_credit_le (h : Accepts env params block tip undoPos s t)
    (hvtx : block.vtx = cb :: rest) (hp0 : block.getPriceinCurrency 0 = .ok p0)
    (hc : connectLoop env params s.context block s.view = .ok c)
    (hcount : ∀ o ∈ cb.vout, o.currency = 1 → o.nValue ≤ rewardValue p0 o)
    {ctx : InputContext H} (hv : HasCoins env ctx.view cb s.pindex.nHeight) {total : InputTotal}
    (hrun : run (checkTxIn env ctx) ⟨none, 0⟩ (spendsAll env cb) = .ok total) :
    total.nValueIn ≤ rewardAt params s.pindex.nHeight c.nFees := by
  obtain ⟨d, hd, hr, -⟩ := h.inv
  rw [hc] at hd
  cases hd
  obtain ⟨hle, hnn⟩ := checkReward_ok hvtx hp0 hr
  obtain ⟨-, -, htotal⟩ := inputLoop_ok env hrun
  rw [htotal, zero_add, spentTotal_spendsAll hv]
  exact (coinValues_le_rewardValues hnn hcount).trans hle

end Accepted

def twoDollars : CPriceInfo := pricesAt 2000000000 2000000000 (by decide)

def dollarCoinbase : CTransaction Digest :=
  symCoinbase [devOut 2150000000, .of 38700000000 19350000000 [] 1] (by decide)

def dollarBlock : CBlock Digest := symBlock twoDollars [dollarCoinbase]

def emptyLoop (block : CBlock Digest) : Res (ConnectLoop Digest) :=
  connectLoop symEnv symMain (emptyState block).context block (emptyState block).view

/-- what the input loop of `CheckTxInputs` credits for the coins of a coinbase, at a later height -/
def creditLater (c : ConnectLoop Digest) (cb : CTransaction Digest) : Res InputTotal :=
  run (checkTxIn symEnv ⟨.empty, c.view, 102, default, false⟩) ⟨none, 0⟩ (spendsAll symEnv cb)

/-- **Dollars paid by a coinbase are spent as BitCash**: the coins of an accepted coinbase bring 40.85
coins, where the block may pay 21.5 -/
theorem coinbase_credit_exceeds :
    ∃ t c, Accepts symEnv symMain dollarBlock (fun _ => none) (.ok 7) (emptyState dollarBlock) t ∧
      emptyLoop dollarBlock = .ok c ∧ HasCoins symEnv c.view dollarCoinbase 2 ∧
      creditLater c dollarCoinbase = .ok ⟨some 0, 40850000000⟩ ∧
      rewardAt (mainParams (Digest.atom 0)) 2 c.nFees = 21500000000 := by
  obtain ⟨c, hc, hf⟩ := ok_of_toOption_map (show (emptyLoop dollarBlock).toOption.map (fun c =>
        (decide (HasCoins symEnv c.view dollarCoinbase 2), creditLater c dollarCoinbase,
          rewardAt (mainParams (Digest.atom 0)) 2 c.nFees)) =
        some (true, .ok ⟨some 0, 40850000000⟩, 21500000000) by
      decide)
  simp only [Prod.mk.injEq, decide_eq_true_eq] at hf
  exact ⟨(connectSymbolic dollarBlock).2, c, ⟨Prod.ext (by decide) rfl, by decide⟩, hc, hf.1, hf.2.1, hf.2.2⟩

def parCoinbase : CTransaction Digest :=
  symCoinbase [devOut 2150000000, .of 19350000000 19350000000 [] 1] (by decide)

def parCoinbaseBlock : CBlock Digest :=
  symBlock (pricesAt 1000000000 1000000000 (.refl true)) [parCoinbase]

/-- at par the coins bring what the block may pay -/
theorem coinbase_credit_par : ∃ c total, emptyLoop parCoinbaseBlock = .ok c ∧
      creditLater c parCoinbase = .ok total ∧
      total.nValueIn ≤ rewardAt (mainParams (Digest.atom 0)) 2 c.nFees := by
  obtain ⟨c, hc, hf⟩ := ok_of_toOption_map (show (emptyLoop parCoinbaseBlock).toOption.map (fun c =>
      (decide (HasCoins symEnv c.view parCoinbase 2), creditLater c parCoinbase)) =
        some (true, .ok ⟨some 0, 21500000000⟩) by decide)
  simp only [Prod.mk.injEq, decide_eq_true_eq] at hf
  have hacc : Accepts symEnv symMain parCoinbaseBlock (fun _ => none) (.ok 7)
      (emptyState parCoinbaseBlock) (connectSymbolic parCoinbaseBlock).2 :=
    ⟨Prod.ext (by decide) rfl, by decide⟩
  have hp0 : parCoinbaseBlock.getPriceinCurrency 0 = .ok 1000000000 := by decide
  have hout : ∀ o ∈ parCoinbase.vout, 0 ≤ o.nValue ∧ fits64 ((o.nValue * COIN).tdiv 1000000000) = true := by
    decide
  exact ⟨c, _, hc, hf.2, coinbase_credit_le hacc rfl hp0 hc
    (fun o ho _ => le_rewardValue (by decide) (by decide) (hout o ho).1 (hout o ho).2) hf.1 hf.2⟩

end BitCash
