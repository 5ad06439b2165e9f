import BitCash.Consensus.Price
import BitCash.Validation.ConnectBlock

/-!
# Buying and selling at the prices of one block

A block converts BitCash to Dollars at `GetPriceinCurrency(1)` and back at `GetPriceinCurrency(0)`.

* `CBlockHeader.Uncrossed`: the records of the two rates do not cross
* `NoRoundTripProfit`: no amount grows on its way there and back
-/

set_option linter.unusedSectionVars false

namespace BitCash
open Checks Int

variable {H : Type} [Inhabited H] [DecidableEq H] {env : Env H} {params : Params H} {h : CBlockHeader H} {p0 : Int}

/-! ## the two closest records -/

inductive RecordPair where
  | firstSecond
  | secondThird
  | firstThird
  deriving DecidableEq

/-- the records with the closest prices, in the order in which `GetPriceinCurrency` compares them -/
def closestRecords (p1 p2 p3 : Int) : RecordPair :=
  if |p1 - p2| ≤ |p2 - p3| ∧ |p1 - p2| ≤ |p1 - p3| then .firstSecond
  else if |p2 - p3| ≤ |p1 - p2| ∧ |p2 - p3| ≤ |p1 - p3| then .secondThird
  else .firstThird

def RecordPair.mean (r : RecordPair) (p1 p2 p3 : Int) : Int :=
  match r with
  | .firstSecond => (p1 - p2).tdiv 2 + p2
  | .secondThird => (p2 - p3).tdiv 2 + p3
  | .firstThird => (p1 - p3).tdiv 2 + p3

/-- the record that is not in the pair -/
def RecordPair.leftOut (r : RecordPair) (p1 p2 p3 : Int) : Int :=
  match r with
  | .firstSecond => p3
  | .secondThird => p1
  | .firstThird => p2

theorem closestPair_eq_mean (p1 p2 p3 : Int) :
    closestPair p1 p2 p3 |p1 - p2| |p2 - p3| |p1 - p3| = (closestRecords p1 p2 p3).mean p1 p2 p3 := by
  unfold closestPair closestRecords
  split
  · rfl
  · split
    · rfl
    · rfl

theorem two_mul_midpoint (a b : Int) :
    (b ≤ a ∧ a + b - 1 ≤ 2 * ((a - b).tdiv 2 + b) ∧ 2 * ((a - b).tdiv 2 + b) ≤ a + b) ∨
      (a < b ∧ a + b ≤ 2 * ((a - b).tdiv 2 + b) ∧ 2 * ((a - b).tdiv 2 + b) ≤ a + b + 1) := by
  rcases lt_or_ge a b with h | h
  · have e : (a - b).tdiv 2 = -((b - a) / 2) := by
      rw [← Int.neg_sub b a, Int.neg_tdiv, tdiv_eq_ediv_of_nonneg (by omega)]
    right
    rw [e]
    omega
  · have e : (a - b).tdiv 2 = (a - b) / 2 := tdiv_eq_ediv_of_nonneg (by omega)
    left
    rw [e]
    omega

theorem midpoint_le_midpoint {a b c d : Int} (hac : a ≤ c) (hbd : b ≤ d) :
    (a - b).tdiv 2 + b ≤ (c - d).tdiv 2 + d := by
  by_cases hsum : a + b = c + d
  · have ha : a = c := by omega
    have hb : b = d := by omega
    rw [ha, hb]
  · have hlow := two_mul_midpoint a b
    have hhigh := two_mul_midpoint c d
    omega

theorem midpoint_le_of_sum_lt {a b c d : Int} (h : a + b < c + d) :
    (a - b).tdiv 2 + b ≤ (c - d).tdiv 2 + d := by
  have hlow := two_mul_midpoint a b
  have hhigh := two_mul_midpoint c d
  omega

section Means
variable {s1 s2 s3 b1 b2 b3 : Int} (h1 : s1 ≤ b1) (h2 : s2 ≤ b2) (h3 : s3 ≤ b3)
include h1 h2 h3

theorem mean_le_mean (r : RecordPair) : r.mean s1 s2 s3 ≤ r.mean b1 b2 b3 := by
  cases r with
  | firstSecond => exact midpoint_le_midpoint h1 h2
  | secondThird => exact midpoint_le_midpoint h2 h3
  | firstThird => exact midpoint_le_midpoint h1 h3

/-- two different pairs share one record; the other two are those the pairs leave out. The order
between these has to be strict: each mean is rounded towards the later record of its pair. -/
theorem mean_le_mean_of_leftOut {r q : RecordPair} (hne : r ≠ q)
    (h : q.leftOut s1 s2 s3 < r.leftOut b1 b2 b3) : r.mean s1 s2 s3 ≤ q.mean b1 b2 b3 := by
  cases r <;> cases q <;> first | exact absurd rfl hne | skip
  all_goals
    simp only [RecordPair.leftOut] at h
    exact midpoint_le_of_sum_lt (by omega)

end Means

/-! ## the rates of a checked header -/

def CBlockHeader.buyPair (h : CBlockHeader H) : RecordPair :=
  closestRecords h.nPriceInfo.prices0 h.nPriceInfo2.prices0 h.nPriceInfo3.prices0

def CBlockHeader.sellPair (h : CBlockHeader H) : RecordPair :=
  closestRecords h.nPriceInfo.prices1 h.nPriceInfo2.prices1 h.nPriceInfo3.prices1

def CBlockHeader.buyMean (h : CBlockHeader H) (r : RecordPair) : Int :=
  r.mean h.nPriceInfo.prices0 h.nPriceInfo2.prices0 h.nPriceInfo3.prices0

def CBlockHeader.sellMean (h : CBlockHeader H) (r : RecordPair) : Int :=
  r.mean h.nPriceInfo.prices1 h.nPriceInfo2.prices1 h.nPriceInfo3.prices1

/-- the two rates come from the same two records, or the record that counts only for the sell rate
sells for less than the record that counts only for the buy rate buys -/
def CBlockHeader.Uncrossed (h : CBlockHeader H) : Prop :=
  h.sellPair ≠ h.buyPair →
    h.buyPair.leftOut h.nPriceInfo.prices1 h.nPriceInfo2.prices1 h.nPriceInfo3.prices1 <
      h.sellPair.leftOut h.nPriceInfo.prices0 h.nPriceInfo2.prices0 h.nPriceInfo3.prices0

instance (h : CBlockHeader H) : Decidable h.Uncrossed :=
  inferInstanceAs (Decidable (_ ≠ _ → _ < _))

def CPriceInfo.Ordered (p : CPriceInfo) : Prop := 0 < p.prices1 ∧ p.prices1 ≤ p.prices0

theorem checkPrices_two {p : CPriceInfo} {suffix : String} (hc : p.priceCount = 2)
    (h : checkPrices p suffix = .ok ()) : p.prices1 ≤ p.prices0 := by
  unfold checkPrices at h
  rw [hc] at h
  have hround := each_ok.1 h 0 (by decide)
  simp only [bind_ok, need_ok, exists_const] at hround
  have hle := hround.1
  simpa using hle

theorem checkPositive_two (hc : h.nPriceInfo.priceCount = 2) (hp : checkPositive h = .ok ()) :
    0 < h.nPriceInfo.prices1 ∧ 0 < h.nPriceInfo2.prices1 ∧ 0 < h.nPriceInfo3.prices1 := by
  unfold checkPositive at hp
  rw [hc] at hp
  have hround := each_ok.1 hp 1 (by decide)
  simpa [CPriceInfo.prices, bind_ok] using hround

theorem priceRules_two (hr : priceRules env params h = .ok ())
    (hc : h.nPriceInfo.priceCount = 2) : h.nPriceInfo.Ordered ∧ h.nPriceInfo2.Ordered ∧ h.nPriceInfo3.Ordered := by
  simp only [priceRules, bind_ok, need_ok, exists_const, beq_iff_eq] at hr
  obtain ⟨c1, c2, c3, _, o1, _, o2, _, o3, _, -, _, hpos, -⟩ := hr
  rw [← c1] at c2 c3
  obtain ⟨q1, q2, q3⟩ := checkPositive_two hc hpos
  exact ⟨⟨q1, checkPrices_two hc o1⟩, ⟨q2, checkPrices_two (c2.trans hc) o2⟩, ⟨q3, checkPrices_two (c3.trans hc) o3⟩⟩

theorem rates_of_ordered (hc : h.nPriceInfo.priceCount = 2)
    (h1 : h.nPriceInfo.Ordered) (h2 : h.nPriceInfo2.Ordered) (h3 : h.nPriceInfo3.Ordered) :
    h.getPriceinCurrency 0 = .ok (h.buyMean h.buyPair) ∧ h.getPriceinCurrency 1 = .ok (h.sellMean h.sellPair) := by
  have i0 : priceIndex h.nPriceInfo.priceCount 0 = 0 := by rw [hc]; rfl
  have i1 : priceIndex h.nPriceInfo.priceCount 1 = 1 := by rw [hc]; rfl
  have buy : ∀ {p : CPriceInfo}, p.Ordered → 0 < p.prices0 := fun ho => lt_of_lt_of_le ho.1 ho.2
  constructor
  · refine (getPriceinCurrency_eq_closestPair ?_ ?_ ?_ (buy h1) (buy h2) (buy h3)).trans ?_
    on_goal 4 => rw [closestPair_eq_mean]; rfl
    all_goals rw [i0]; rfl
  · refine (getPriceinCurrency_eq_closestPair ?_ ?_ ?_ h1.1 h2.1 h3.1).trans ?_
    on_goal 4 => rw [closestPair_eq_mean]; rfl
    all_goals rw [i1]; rfl

/-! ## round trips -/

/-- an output that buys Dollars for some BitCash, and one that sells them again, in a block with
those rates: not more BitCash than before -/
def NoRoundTripProfit (p0 p1 : Int) : Prop :=
  ∀ buy sell : CTxOut, 0 ≤ buy.nValueBitCash → buy.currency = 1 → sell.currency = 0 →
    sell.nValueBitCash = buy.nValue → conversionRule p0 p1 0 false buy = .ok () →
    conversionRule p0 p1 1 false sell = .ok () → sell.nValue ≤ buy.nValueBitCash

theorem roundTrip_le {p1 x : Int} (h0 : 0 < p0) (h1 : 0 < p1) (hle : p1 ≤ p0) (hx : 0 ≤ x) :
    ((x * p1).tdiv COIN * COIN).tdiv p0 ≤ x := by
  have hcoin : (0 : Int) < COIN := by decide
  have hxp : 0 ≤ x * p1 := Int.mul_nonneg hx h1.le
  have hdollars : 0 ≤ (x * p1).tdiv COIN := Int.tdiv_nonneg hxp hcoin.le
  have hback : (x * p1).tdiv COIN * COIN ≤ x * p1 := by
    rw [tdiv_eq_ediv_of_nonneg hxp]
    exact Int.ediv_mul_le _ hcoin.ne'
  have hbuy : (x * p1).tdiv COIN * COIN ≤ x * p0 := hback.trans (Int.mul_le_mul_of_nonneg_left hle hx)
  rw [tdiv_eq_ediv_of_nonneg (Int.mul_nonneg hdollars hcoin.le)]
  calc (x * p1).tdiv COIN * COIN / p0 ≤ x * p0 / p0 := Int.ediv_le_ediv h0 hbuy
    _ = x := mul_ediv_cancel x h0.ne'

theorem noRoundTripProfit_of_le {p1 : Int} (h0 : 0 < p0) (h1 : 0 < p1) (hle : p1 ≤ p0) :
    NoRoundTripProfit p0 p1 := by
  intro buy sell hx hb hs hsame hbuy hsell
  have hdollars : buy.nValue = (buy.nValueBitCash * p1).tdiv COIN := by
    apply conversionRule_required hbuy
    rw [requiredAmount, if_neg (by rw [hb]; decide), if_pos ⟨rfl, hb⟩]
  have hcoins : sell.nValue = (sell.nValueBitCash * COIN).tdiv p0 := by
    apply conversionRule_required hsell
    rw [requiredAmount, if_neg (by rw [hs]; decide), if_neg (fun h => absurd h.1 (by decide)),
      if_pos ⟨rfl, hs⟩]
  rw [hcoins, hsame, hdollars]
  exact roundTrip_le h0 h1 hle hx

/-- **no profit from a round trip inside one block**: for a header that passes the price rules with
two prices a record, the buy rate is at least the sell rate, and no amount grows on a round trip, if
the records the two rates are taken from do not cross -/
theorem round_trip_uncrossed {h : CBlockHeader H} (hr : priceRules env params h = .ok ())
    (hc : h.nPriceInfo.priceCount = 2) (hx : h.Uncrossed) :
    ∃ p0 p1, h.getPriceinCurrency 0 = .ok p0 ∧ h.getPriceinCurrency 1 = .ok p1 ∧
      p1 ≤ p0 ∧ NoRoundTripProfit p0 p1 := by
  obtain ⟨o1, o2, o3⟩ := priceRules_two hr hc
  obtain ⟨hbuy, hsell⟩ := rates_of_ordered hc o1 o2 o3
  have hsellpos : 0 < h.sellMean h.sellPair := by
    show 0 < (closestRecords _ _ _).mean _ _ _
    rw [← closestPair_eq_mean]
    exact closestPair_pos o1.1 o2.1 o3.1
  have hle : h.sellMean h.sellPair ≤ h.buyMean h.buyPair := by
    by_cases hpair : h.sellPair = h.buyPair
    · rw [hpair]
      exact mean_le_mean o1.2 o2.2 o3.2 h.buyPair
    · exact mean_le_mean_of_leftOut o1.2 o2.2 o3.2 hpair (hx hpair)
  exact ⟨_, _, hbuy, hsell, hle, noRoundTripProfit_of_le (lt_of_lt_of_le hsellpos hle) hsellpos hle⟩

def crossHeader : CBlockHeader Digest :=
  { symHeader (.atom 1) (.atom 2) (pricesAt 10 1 (by decide)) with
    nPriceInfo2 := pricesAt 10 10 (by decide)
    nPriceInfo3 := pricesAt 100 15 (by decide) }

/-- the buy prices 10, 10, 100 give the rate 10, the sell prices 1, 10, 15 the rate 13; ten coins
become thirteen -/
theorem round_trip_profit : priceRules symEnv symMain crossHeader = .ok () ∧
      crossHeader.nPriceInfo.priceCount = 2 ∧
      crossHeader.getPriceinCurrency 0 = .ok 10 ∧ crossHeader.getPriceinCurrency 1 = .ok 13 ∧
      conversionRule 10 13 0 false (.of 130 (10 * COIN) [] 1) = .ok () ∧
      conversionRule 10 13 1 false (.of (13 * COIN) 130 [] 0) = .ok () := by
  decide

def slopedHeader : CBlockHeader Digest :=
  { symHeader (.atom 1) (.atom 2) (pricesAt 10 1 (by decide)) with
    nPriceInfo2 := pricesAt 11 8 (by decide)
    nPriceInfo3 := pricesAt 100 9 (by decide) }

/-- the buy rate comes from the first two records, the sell rate from the last two, and the third
sells for less than the first buys -/
theorem round_trip_sloped : slopedHeader.sellPair ≠ slopedHeader.buyPair ∧
      ∃ p0 p1, slopedHeader.getPriceinCurrency 0 = .ok p0 ∧
        slopedHeader.getPriceinCurrency 1 = .ok p1 ∧ p1 ≤ p0 ∧ NoRoundTripProfit p0 p1 := by
  have hrules : priceRules symEnv symMain slopedHeader = .ok () := by decide
  exact ⟨by decide, round_trip_uncrossed hrules rfl (by decide)⟩

end BitCash
